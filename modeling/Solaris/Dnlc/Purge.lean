import Solaris.Dnlc.Operations

/-!
# Purges beside other threads

A purge takes the entries off one chain after the other and puts them on the freelist, while the vnodes that they held
wait in `nc_rele` for the end of the scan.
-/

namespace Solaris.Dnlc

open List Function Nat

/-- What tells the purges apart: the entries that they take, and how many of them; 0 is no bound. -/
structure Purge where
  test : Ident → Bool
  count : Int

def dnlcPurge : Purge := ⟨fun _ => true, 0⟩

def dnlcPurgeVp (v : Vnode) : Purge := ⟨fun id => id.dp = some v ∨ id.vp = some v, 0⟩

/-- The purge of `dnlc_purge_vfsp`; `vVfsp` is the field `v_vfsp` of a vnode. -/
def purgeVfsp (vVfsp : Vnode → Nat) (vfsp : Nat) (count : Int) : Purge :=
  ⟨fun id => id.dp.any (vVfsp · = vfsp) ∨ id.vp.any (vVfsp · = vfsp), count⟩

/-- The chain that comes next, the entries taken so far with their number, and `nc_rele` up to `index`. -/
structure Scan where
  nch : Nat
  n : Nat
  gone : List EntId
  rele : List (Option Vnode)

def Scan.start : Scan := ⟨0, 0, [], []⟩

def Scan.index (p : Scan) : Nat := p.rele.length

def Scan.take (p : Scan) (e : EntId) (id : Ident) : Scan :=
  { p with n := p.n + 1, gone := p.gone ++ [e], rele := p.rele ++ [id.vp, id.dp] }

/-- The loop of the purges in one chain. A `break` leaves this loop, and the scan goes on with the next chain. -/
def purgeLoop (pg : Purge) : Nat → Option Ptr → Cache → Scan → Cache × Scan
  | fuel + 1, some (.entry e), s, p =>
    let np := s.hashNext (.entry e)
    if pg.test (s.ident e) then
      let p := p.take e (s.ident e)
      let s := dnlcFree (ncRmhash s e) e
      if pg.count ≠ 0 ∧ pg.count ≤ p.n then (s, p) else purgeLoop pg fuel np s p
    else purgeLoop pg fuel np s p
  | _, _, s, p => (s, p)

/-- The section of a purge under the lock of its next chain. -/
def purgeNext (c : Config) (pg : Purge) (r : Cache × Scan) : Cache × Scan :=
  if r.2.nch < c.ncHashsz then
    purgeLoop pg c.ncsize (r.1.hashNext (.head r.2.nch)) r.1 { r.2 with nch := r.2.nch + 1 }
  else r

/-- `VN_RELE` of the vnodes in `nc_rele`. -/
def releAll (s : Cache) (rele : List (Option Vnode)) : Cache :=
  rele.foldl (fun s v => match v with
    | some v => s.rele v
    | none => s) s

def dnlcPurgeVfsp (c : Config) (vVfsp : Vnode → Nat) (vfsp : Nat) (count : Int) (s : Cache) : Nat × Cache :=
  let r := (purgeNext c (purgeVfsp vVfsp vfsp count))^[c.ncHashsz] (s, .start)
  (r.2.n, releAll r.1 r.2.rele)

/-- The entries of a chain that a purge takes when it has taken `n` before. -/
def picks (test : EntId → Bool) (count : Int) : Nat → List EntId → List EntId
  | _, [] => []
  | n, e :: l =>
    if test e then if count ≠ 0 ∧ count ≤ (n + 1 : Nat) then [e] else e :: picks test count (n + 1) l
    else picks test count n l

variable {c : Config} {n i fuel : Nat} {pg : Purge} {s s' : Cache} {p : Scan} {g : Ghost n} {th : Fin n → Thread}
  {t : Fin n} {x : Thread} {e : EntId} {k : Key} {vp : Vnode} {pre post l : List EntId} {test : EntId → Bool} {count : Int}

lemma picks_sublist (test : EntId → Bool) (count : Int) (i : Nat) (l : List EntId) :
    (picks test count i l).Sublist (l.filter test) := by
  induction l generalizing i with
  | nil => exact Sublist.slnil
  | cons e l ih =>
    rw [picks]
    by_cases he : test e = true
    · rw [if_pos he, filter_cons_of_pos he]
      split_ifs with hcount
      · exact (nil_sublist _).cons_cons e
      · exact (ih _).cons_cons e
    · rw [if_neg he, filter_cons_of_neg he]
      exact ih _

/-- The loop of `dnlc_purge_vp` beside other operations is the one of the purges, with the vnodes that there are. -/
lemma purgeLoop_dnlcPurgeVp (v : Vnode) (fuel : Nat) (q : Option Ptr) (s : Cache) (p : Scan) :
    purgeChain v fuel q s p.rele.reduceOption =
      ((purgeLoop (dnlcPurgeVp v) fuel q s p).1, (purgeLoop (dnlcPurgeVp v) fuel q s p).2.rele.reduceOption) := by
  induction fuel generalizing q s p with
  | zero => rfl
  | succ fuel ih =>
    rcases q with _ | _ | e
    · rfl
    · rfl
    rw [purgeChain, purgeLoop]
    by_cases htest : (s.ident e).dp = some v ∨ (s.ident e).vp = some v
    · have hrele : p.rele.reduceOption ++ (vpOf s e ++ dpOf s e) = (p.take e (s.ident e)).rele.reduceOption := by
        rw [Scan.take, reduceOption_append, vpOf, dpOf]
        cases (s.ident e).vp <;> cases (s.ident e).dp <;> rfl
      have hpicked : (dnlcPurgeVp v).test (s.ident e) = true := decide_eq_true htest
      have hcount : ¬((dnlcPurgeVp v).count ≠ 0 ∧ (dnlcPurgeVp v).count ≤ (p.take e (s.ident e)).n) := fun h => h.1 rfl
      rw [if_pos htest, if_pos hpicked, hrele, ih]
      dsimp only
      rw [if_neg hcount]
    · have hleft : ¬(dnlcPurgeVp v).test (s.ident e) = true := fun h => htest (of_decide_eq_true h)
      rw [if_neg htest, if_neg hleft, ih]

def Scan.takes (p : Scan) (ident : EntId → Ident) (new : List EntId) : Scan :=
  new.foldl (fun p e => p.take e (ident e)) p

lemma Scan.takes_eq {ident : EntId → Ident} {new : List EntId} : p.takes ident new =
    ⟨p.nch, p.n + new.length, p.gone ++ new, p.rele ++ new.flatMap fun e => [(ident e).vp, (ident e).dp]⟩ := by
  induction new generalizing p with
  | nil => simp only [takes, foldl_nil, length_nil, add_zero, append_nil, flatMap_nil]
  | cons e new ih =>
    rw [takes, foldl_cons]
    refine ih.trans ?_
    simp only [take, length_cons, append_assoc, singleton_append, flatMap_cons, add_assoc, add_comm 1]

/-- What a section of a purge does: the entries of `new` are free, and the others stay in their order. -/
structure Purged (c : Config) (th : Fin n → Thread) (i : Nat) (new : List EntId) (s : Cache) (g : Ghost n) (s' : Cache)
    (g' : Ghost n) : Prop where
  placed : Placed c s' g' th
  chain : g'.chain = update g.chain i ((g.chain i).filter (· ∉ new))
  place : ∀ e, g'.place e = if e ∈ new then .free else g.place e
  ident : ∀ e, e ∉ new → s'.ident e = s.ident e
  rest : s'.released = s.released ∧ s'.freeRotor = s.freeRotor

lemma Purged.none (h : Placed c s g th) : Purged c th i [] s g s g := by
  refine ⟨h, ?_, fun e => (if_neg not_mem_nil).symm, fun _ _ => rfl, rfl, rfl⟩
  rw [filter_eq_self.mpr fun x _ => decide_eq_true not_mem_nil, update_eq_self]

/-- One entry goes from its chain through the hands of the purge to the freelist. -/
lemma Placed.purge (h : Placed c s g th) (hnone : (th t).hand = none) (he : g.place e = .chain i) :
    Purged c th i [e] s g (dnlcFree (ncRmhash s e) e) ((g.unchain t i e).discard e) := by
  obtain ⟨preE, postE, hl, hchained, herase⟩ := h.split he
  obtain ⟨next, prev, hrest⟩ := (ncRmhash_relinked hchained).rest
  have hout := h.unchain (x := ⟨(th t).pc, some e, (th t).rele⟩) he hnone rfl
  have hfree := hout.discard (x := th t) (by rw [update_self]) hnone
  rw [update_idem, update_eq_self] at hfree
  refine ⟨hfree, ?_, fun e' => ?_, fun e' hne => ?_, ?_⟩
  · dsimp only [Ghost.discard, Ghost.unchain]
    have hnodup := (h.chained i (h.chain_lt e i he)).nodup
    rw [hnodup.erase_eq_filter]
    congr 1
    refine filter_congr fun x _ => ?_
    simp only [mem_singleton, decide_not]
    rfl
  · dsimp only [Ghost.discard, Ghost.unchain]
    rcases eq_or_ne e' e with rfl | hne
    · rw [update_self, if_pos (mem_singleton_self _)]
    · rw [update_of_ne hne, update_of_ne hne, if_neg (mt mem_singleton.mp hne)]
  · rw [hrest]
    exact update_of_ne (mt mem_singleton.mpr hne) ..
  · rw [hrest]
    exact ⟨rfl, rfl⟩

lemma Purged.trans {s'' : Cache} {g' g'' : Ghost n} {new new' : List EntId} (h : Purged c th i new s g s' g')
    (h' : Purged c th i new' s' g' s'' g'') : Purged c th i (new ++ new') s g s'' g'' := by
  refine ⟨h'.placed, ?_, fun e => ?_, fun e he => ?_, h'.rest.1.trans h.rest.1, h'.rest.2.trans h.rest.2⟩
  · rw [h'.chain, h.chain, update_idem, update_self, filter_filter]
    congr 1
    refine filter_congr fun x _ => ?_
    simp only [mem_append, not_or, Bool.decide_and, Bool.and_comm]
  · rw [h'.place, h.place]
    simp only [mem_append]
    by_cases hnew' : e ∈ new'
    · rw [if_pos hnew', if_pos (.inr hnew')]
    · rw [if_neg hnew']
      exact if_congr (or_iff_left hnew').symm rfl rfl
  · rw [mem_append, not_or] at he
    exact (h'.ident e he.2).trans (h.ident e he.1)

/-- The loop takes what `picks` says, whatever it has taken before. -/
lemma purgeLoop_spec {ident : EntId → Ident} (h : Placed c s g th) (hnone : (th t).hand = none) (hi : i < c.ncHashsz)
    (hchain : g.chain i = pre ++ post) (hident : ∀ e ∈ post, s.ident e = ident e) (hfuel : post.length ≤ fuel) :
    let new := picks (fun e => pg.test (ident e)) pg.count p.n post
    ∃ g', Purged c th i new s g (purgeLoop pg fuel (some (node i post.head?)) s p).1 g' ∧
      (purgeLoop pg fuel (some (node i post.head?)) s p).2 = p.takes ident new := by
  induction post generalizing pre fuel s g p with
  | nil =>
    have hend : purgeLoop pg fuel (some (node i none)) s p = (s, p) := by cases fuel <;> rfl
    dsimp only [head?_nil]
    rw [hend]
    exact ⟨g, Purged.none h, rfl⟩
  | cons e post ih =>
    cases fuel with
    | zero => cases hfuel
    | succ fuel =>
      have hfuel := le_of_succ_le_succ hfuel
      have hchained := h.chained i hi
      rw [hchain] at hchained
      have hnext : s.hashNext (.entry e) = some (node i post.head?) := hchained.next_of_mem
      have he : g.place e = .chain i := (h.mem_chain i e).mp (by rw [hchain]; simp)
      have hid : s.ident e = ident e := hident e (mem_cons_self ..)
      have hident' : ∀ e' ∈ post, s.ident e' = ident e' := fun e' h' => hident e' (mem_cons_of_mem _ h')
      dsimp only [head?_cons, node]
      rw [purgeLoop, hnext, picks, hid]
      by_cases htest : pg.test (ident e) = true
      · rw [if_pos htest, if_pos htest]
        dsimp only
        have hone := h.purge hnone he
        by_cases hcount : pg.count ≠ 0 ∧ pg.count ≤ ((p.take e (ident e)).n : Nat)
        · rw [if_pos hcount, if_pos (show pg.count ≠ 0 ∧ pg.count ≤ (p.n + 1 : Nat) from hcount)]
          exact ⟨_, hone, rfl⟩
        rw [if_neg hcount, if_neg (show ¬ (pg.count ≠ 0 ∧ pg.count ≤ (p.n + 1 : Nat)) from hcount)]
        have hnodup := nodup_append.mp hchained.nodup
        have hpost : e ∉ post := (nodup_cons.mp hnodup.2.1).1
        have hpre : e ∉ pre := fun hmem => hnodup.2.2 e hmem e (mem_cons_self ..) rfl
        have hchain' : ((g.unchain t i e).discard e).chain i = pre ++ post := by
          dsimp only [Ghost.discard, Ghost.unchain]
          rw [update_self, hchain, erase_append_right _ hpre, erase_cons_head]
        have hident'' : ∀ e' ∈ post, (dnlcFree (ncRmhash s e) e).ident e' = ident e' := fun e' h' =>
          (hone.ident e' (mt mem_singleton.mp fun heq => hpost (heq ▸ h'))).trans (hident' e' h')
        obtain ⟨g', hrest, hp⟩ := ih (p := p.take e (ident e)) hone.placed hchain' hident'' hfuel
        exact ⟨g', hone.trans hrest, hp⟩
      · rw [if_neg htest, if_neg htest]
        exact ih h (hchain.trans (append_cons ..)) hident' hfuel

/-- The section of a purge in a chain. -/
theorem purgeNext_spec {ident : EntId → Ident} (h : Placed c s g th) (hnone : (th t).hand = none)
    (hi : p.nch < c.ncHashsz) (hident : ∀ e ∈ g.chain p.nch, s.ident e = ident e) :
    let new := picks (fun e => pg.test (ident e)) pg.count p.n (g.chain p.nch)
    ∃ g', Purged c th p.nch new s g (purgeNext c pg (s, p)).1 g' ∧
      (purgeNext c pg (s, p)).2 = Scan.takes { p with nch := p.nch + 1 } ident new := by
  have hfirst : s.hashNext (.head p.nch) = some (node p.nch (g.chain p.nch).head?) := (h.chained _ hi).first
  rw [purgeNext, if_pos hi, hfirst]
  exact purgeLoop_spec (p := { p with nch := p.nch + 1 }) h hnone hi (nil_append _).symm hident (h.length_le hi)

/-- Threads of `dnlc_enter` beside one purge, which is the thread 0. -/
structure Sys (n : Nat) where
  cache : Cache
  th : Fin (n + 1) → Thread
  scan : Scan

/-- A section of `dnlc_enter`, with the call of an idle thread and the vnodes that are not in use, or one of the purge. -/
inductive Act (n : Nat) where
  | enter (t : Fin n) (k : Key) (vp : Vnode) (good : Vnode → Bool)
  | purge

def Sys.act (c : Config) (pg : Purge) (x : Sys n) : Act n → Sys n
  | .enter t k vp good =>
    let r := step c ⟨.enter k vp, good⟩ x.cache (x.th t.succ)
    { x with cache := r.1, th := update x.th t.succ r.2 }
  | .purge => { x with cache := (purgeNext c pg (x.cache, x.scan)).1, scan := (purgeNext c pg (x.cache, x.scan)).2 }

/-- No thread puts an entry that the purge has taken, with a name that the purge takes, into a chain that the purge has yet
to come to. -/
def Sys.Keeps (c : Config) (pg : Purge) (x : Sys n) : Act n → Prop
  | .enter t _ _ _ => ∀ k vp e, (x.th t.succ).pc = .enterInsert k vp → (x.th t.succ).hand = some e → e ∈ x.scan.gone →
      pg.test (x.cache.ident e) = true → chainOf c (dnlcHash k.name k.dp) < x.scan.nch
  | .purge => True

/-- The runs whose steps all keep the condition. -/
inductive Runs (c : Config) (pg : Purge) (x₀ : Sys n) : Sys n → Prop
  | init : Runs c pg x₀ x₀
  | step {x : Sys n} (a : Act n) : Runs c pg x₀ x → x.Keeps c pg a → Runs c pg x₀ (x.act c pg a)

def ncRsize (c : Config) : Nat := 2 * c.ncsize

/-- A thread stands in `dnlc_enter`, or is idle. -/
def Enters (x : Thread) : Prop :=
  match x.pc with
  | .idle | .enterGet _ _ | .enterPop _ _ | .enterSteal _ _ _ _ | .enterChain _ _ _ _ | .enterStolen _ _
  | .enterInsert _ _ | .enterDouble => True
  | _ => False

def EnterOk (c : Config) (x : Thread) : Prop :=
  match x.pc with
  | .idle | .enterGet _ _ | .enterPop _ _ => x.hand = none
  | .enterSteal _ _ hp _ | .enterChain _ _ hp _ => x.hand = none ∧ hp < c.ncHashsz
  | .enterStolen _ _ | .enterInsert _ _ | .enterDouble => True
  | _ => False

lemma ThreadOk.enterOk (h : ThreadOk c s g x) (hx : Enters x) : EnterOk c x := by
  unfold ThreadOk at h
  unfold Enters at hx
  unfold EnterOk
  cases hpc : x.pc <;> simp only [hpc] at h hx ⊢
  case idle => exact h.hand
  case enterGet => exact h.1.hand
  case enterPop => exact h.1.hand
  case enterSteal => exact ⟨h.1.hand, h.2.2⟩
  case enterChain => exact ⟨h.1.hand, h.2.2⟩

/-- A section of `dnlc_enter` leaves the links in order, and chains no entry but one that it inserts. -/
structure Entered (c : Config) (th : Fin n → Thread) (t : Fin n) (s : Cache) (g : Ghost n) (r : Cache × Thread)
    (g' : Ghost n) : Prop where
  placed : Placed c r.1 g' (update th t r.2)
  ok : EnterOk c r.2
  rotor : r.1.freeRotor < c.ncHashsz
  chain : ∀ e i, g'.place e = .chain i → g.place e = .chain i ∨
    ∃ k vp, (th t).pc = .enterInsert k vp ∧ (th t).hand = some e ∧ chainOf c (dnlcHash k.name k.dp) = i
  ident : ∀ e i, g'.place e = .chain i → r.1.ident e = s.ident e

lemma Entered.same (h : Placed c s g th) (hs : ∃ next < c.ncHashsz, s' = { s with
      freeRotor := next, ident := s'.ident, taken := s'.taken, released := s'.released })
    (hx : x.hand = (th t).hand) (hok : EnterOk c x) (hident : ∀ e i, g.place e = .chain i → s'.ident e = s.ident e) :
    ∃ g', Entered c th t s g (s', x) g' := by
  obtain ⟨next, hlt, hs⟩ := hs
  refine ⟨g, ?_, hok, ?_, fun e i he => .inl he, hident⟩
  · rw [hs]
    exact h.congr rfl rfl rfl rfl hx
  · rw [hs]
    exact hlt

lemma chain_of_update {place : EntId → Place n} {q : Place n} {e' : EntId} (hq : ∀ i, q ≠ .chain i)
    (h : update place e q e' = .chain i) : place e' = .chain i := by
  rcases eq_or_ne e' e with rfl | hne
  · rw [update_self] at h
    exact absurd h (hq i)
  · rwa [update_of_ne hne] at h

lemma releNext_some {r : Cache × Thread} (hr : releNext s x = some r) :
    ∃ v vs, r = (s.rele v, { x with rele := vs }) := by
  unfold releNext at hr
  split at hr
  · exact ⟨_, _, (Option.some.inj hr).symm⟩
  · cases hr

/-- One case for each point of `dnlc_enter`; the insertion alone puts an entry into a chain. -/
lemma entered_of_step {good : Vnode → Bool} (h : Placed c s g th) (hrotor : s.freeRotor < c.ncHashsz)
    (hok : EnterOk c (th t)) : ∃ g', Entered c th t s g (step c ⟨.enter k vp, good⟩ s (th t)) g' := by
  have hsame : ∀ x : Thread, x.hand = (th t).hand → EnterOk c x → ∃ g', Entered c th t s g (s, x) g' :=
    fun x hx hx' => Entered.same h ⟨s.freeRotor, hrotor, rfl⟩ hx hx' fun _ _ _ => rfl
  have hrele : ∀ r, releNext s (th t) = some r → EnterOk c r.2 → ∃ g', Entered c th t s g r g' := by
    intro r hr hr'
    obtain ⟨v, vs, rfl⟩ := releNext_some hr
    exact Entered.same h ⟨s.freeRotor, hrotor, rfl⟩ rfl hr' fun _ _ _ => rfl
  have hreleOk : ∀ r, releNext s (th t) = some r → r.2.pc = (th t).pc := by
    intro r hr
    obtain ⟨v, vs, rfl⟩ := releNext_some hr
    rfl
  unfold EnterOk at hok
  cases hpc : (th t).pc <;> simp only [hpc] at hok <;> rw [step, hpc] <;> dsimp only
  case idle =>
    dsimp only [start]
    split_ifs
    · exact hsame _ rfl hok
    · exact hsame _ rfl hok
  case enterGet =>
    split_ifs
    · exact hsame _ rfl hok
    · exact hsame _ rfl ⟨hok, hrotor⟩
  case enterPop k' vp' =>
    cases hlist : s.freelist with
    | none =>
      simp only [popFree, hlist]
      exact hsame _ rfl ⟨hok, hrotor⟩
    | some e =>
      have hpop := h.pop (x := ⟨.enterStolen k' vp', some e, (th t).rele⟩) hlist hok rfl
      rw [popFree_some hlist] at hpop ⊢
      exact ⟨_, hpop, trivial, hrotor, fun e' i he' => .inl (chain_of_update (q := .hand t) (by simp) he'),
        fun _ _ _ => rfl⟩
  case enterSteal hp last =>
    have hlt := nextChain_lt hok.2
    split_ifs
    · exact Entered.same h ⟨_, hlt, rfl⟩ rfl hok.1 fun _ _ _ => rfl
    · exact Entered.same h ⟨_, hlt, rfl⟩ rfl ⟨hok.1, hlt⟩ fun _ _ _ => rfl
    · exact Entered.same h ⟨_, hlt, rfl⟩ rfl ⟨hok.1, hlt⟩ fun _ _ _ => rfl
  case enterChain k' vp' hp last =>
    split
    · rename_i e vs s' hsteal
      obtain ⟨he, _, hs'⟩ := steal_some h hok.2 (congrArg Prod.fst hsteal)
      rw [hsteal] at hs'
      obtain rfl : s' = ncRmhash s e := hs'
      obtain ⟨pre, post, _, hchained, _⟩ := h.split he
      obtain ⟨next, prev, hrest⟩ := (ncRmhash_relinked hchained).rest
      have hout := h.unchain (x := ⟨.enterStolen k' vp', some e, vs⟩) he hok.1 rfl
      refine ⟨_, hout, trivial, ?_, fun e' i he' => .inl (chain_of_update (q := .hand t) (by simp) he'), ?_⟩
      · rw [hrest]
        exact hrotor
      · rw [hrest]
        exact fun _ _ _ => rfl
    · rename_i s' hsteal
      have hs' := steal_none (congrArg Prod.fst hsteal)
      rw [hsteal] at hs'
      obtain rfl : s' = s := hs'
      split_ifs
      · exact hsame _ rfl hok.1
      · exact hsame _ rfl hok
  case enterStolen =>
    split
    · rename_i r hr
      refine hrele r hr ?_
      rw [EnterOk, hreleOk r hr, hpc]
      trivial
    split
    · refine hsame _ rfl ?_
      rw [EnterOk, hpc]
      trivial
    · rename_i e he
      refine Entered.same h ⟨s.freeRotor, hrotor, rfl⟩ he.symm trivial fun e' i he' => update_of_ne ?_ ..
      rintro rfl
      rw [(h.hands t e').mp he] at he'
      cases he'
  case enterInsert k' vp' =>
    split
    · refine hsame _ rfl ?_
      rw [EnterOk, hpc]
      trivial
    rename_i e he
    dsimp only [Dnlc.insert]
    cases dnlcSearch c s k'.dp k'.name (dnlcHash k'.name k'.dp) (some k'.cred) with
    | some _ => exact hsame _ rfl trivial
    | none =>
      have hlt := chainOf_lt c (dnlcHash k'.name k'.dp)
      have hplace := (h.hands t e).mp he
      obtain ⟨next, prev, hrest⟩ := (ncInshash_relinked (e := e) (h.chained _ hlt)
        (mt (h.mem_chain _ e).mp (by simp [hplace]))).rest
      have hin := h.insert (b := 0) (x := ⟨.idle, none, []⟩) he hlt rfl
      rw [hrest] at hin
      dsimp only
      rw [hrest]
      let entered : Cache :=
        { s with hashNext := next, hashPrev := prev, history := s.history ++ [.entered k' vp'] }
      have hin' := hin.congr (t := t) (show entered.hashNext = _ from rfl) rfl rfl rfl
        (x := ⟨.idle, none, []⟩) (by rw [update_self])
      rw [update_idem] at hin'
      refine ⟨_, hin', rfl, hrotor, fun e' i he' => ?_, fun _ _ _ => rfl⟩
      rcases eq_or_ne e' e with rfl | hne
      · rw [Ghost.insert_place_self] at he'
        exact .inr ⟨k', vp', hpc, he, Place.chain.inj he'⟩
      · exact .inl ((Ghost.insert_place_ne hne).symm.trans he')
  case enterDouble =>
    split
    · rename_i r hr
      refine hrele r hr ?_
      rw [EnterOk, hreleOk r hr, hpc]
      trivial
    split
    · refine hsame _ rfl ?_
      rw [EnterOk, hpc]
      trivial
    · rename_i e he
      have hkept : ∀ e' i, ((g.discard e).place e' = .chain i) → g.place e' = .chain i := fun e' i he' =>
        chain_of_update (q := .free) (by simp) he'
      refine ⟨_, h.discard (x := ⟨.idle, none, []⟩) he rfl, rfl, hrotor, fun e' i he' => .inl (hkept e' i he'),
        fun e' i he' => update_of_ne ?_ ..⟩
      rintro rfl
      have hplace := hkept e' i he'
      rw [(h.hands t e').mp he] at hplace
      cases hplace

structure Holds (c : Config) (pg : Purge) (x : Sys n) : Prop where
  placed : ∃ g, Placed c x.cache g x.th ∧ ∀ e ∈ x.scan.gone, e < c.ncsize ∧
    ∀ i, g.place e = .chain i → pg.test (x.cache.ident e) = true → i < x.scan.nch
  enters : ∀ t, EnterOk c (x.th t)
  bare : (x.th 0).hand = none
  rotor : x.cache.freeRotor < c.ncHashsz
  nodup : x.scan.gone.Nodup
  index : x.scan.index = 2 * x.scan.gone.length

lemma Holds.act {x : Sys n} (h : Holds c pg x) (a : Act n) (ha : x.Keeps c pg a) : Holds c pg (x.act c pg a) := by
  obtain ⟨⟨g, hplaced, hgone⟩, henters, hbare, hrotor, hnodup, hindex⟩ := h
  cases a with
  | enter t k vp good =>
    obtain ⟨g', hplaced', hok, hrotor', hchain, hident⟩ := entered_of_step (k := k) hplaced hrotor
      (henters t.succ)
    refine ⟨⟨g', hplaced', fun e he => ⟨(hgone e he).1, fun i hi htest => ?_⟩⟩, fun u => ?_, ?_, hrotor', hnodup, hindex⟩
    · replace htest := hident e i hi ▸ htest
      rcases hchain e i hi with hi | ⟨k', vp', hpc, hhand, rfl⟩
      · exact (hgone e he).2 i hi htest
      · exact ha k' vp' e hpc hhand he htest
    · dsimp only [Sys.act]
      rcases eq_or_ne u t.succ with rfl | hne
      · rw [update_self]
        exact hok
      · rw [update_of_ne hne]
        exact henters u
    · dsimp only [Sys.act]
      rw [update_of_ne (Fin.succ_ne_zero t).symm]
      exact hbare
  | purge =>
    by_cases hi : x.scan.nch < c.ncHashsz
    · obtain ⟨g', hpurged, hscan⟩ := purgeNext_spec hplaced hbare hi fun _ _ => rfl
      rw [Scan.takes_eq] at hscan
      have hnew : ∀ e ∈ picks (fun e => pg.test (x.cache.ident e)) pg.count x.scan.n (g.chain x.scan.nch),
          g.place e = .chain x.scan.nch := fun e he =>
        (hplaced.mem_chain _ e).mp (mem_of_mem_filter ((picks_sublist ..).subset he))
      have htest : ∀ e ∈ picks (fun e => pg.test (x.cache.ident e)) pg.count x.scan.n (g.chain x.scan.nch),
          pg.test (x.cache.ident e) = true := fun e he =>
        (mem_filter.mp ((picks_sublist ..).subset he)).2
      have hfresh : ∀ e ∈ x.scan.gone, g.place e = .chain x.scan.nch → pg.test (x.cache.ident e) = true → False :=
        fun e he hplace ht => absurd ((hgone e he).2 _ hplace ht) (lt_irrefl _)
      have hsub := (picks_sublist (fun e => pg.test (x.cache.ident e)) pg.count x.scan.n
        (g.chain x.scan.nch)).trans filter_sublist
      have hnodup' := hsub.nodup (hplaced.chained _ hi).nodup
      refine ⟨⟨g', hpurged.placed, fun e he => ?_⟩, henters, hbare, hpurged.rest.2 ▸ hrotor, ?_, ?_⟩
      · dsimp only [Sys.act] at he ⊢
        rw [hscan] at he ⊢
        rw [hpurged.place e]
        rcases mem_append.mp he with he | he
        · refine ⟨(hgone e he).1, fun i hplace ht => ?_⟩
          split_ifs at hplace with hnot
          rw [hpurged.ident e hnot] at ht
          exact lt_succ_of_lt ((hgone e he).2 i hplace ht)
        · rw [if_pos he]
          exact ⟨hplaced.lt_of_chain (hnew e he), nofun⟩
      · dsimp only [Sys.act]
        rw [hscan]
        exact nodup_append.mpr ⟨hnodup, hnodup', fun e he e' he' heq => hfresh e he (heq ▸ hnew e' he') (heq ▸ htest e' he')⟩
      · dsimp only [Sys.act]
        rw [hscan]
        unfold Scan.index at hindex ⊢
        rw [length_append, length_append, hindex, length_flatMap]
        simp only [length_cons, length_nil, map_const', sum_replicate, smul_eq_mul]
        omega
    · have hend : purgeNext c pg (x.cache, x.scan) = (x.cache, x.scan) := if_neg hi
      have hact : x.act c pg .purge = x := by rw [Sys.act, hend]
      rw [hact]
      exact ⟨⟨g, hplaced, hgone⟩, henters, hbare, hrotor, hnodup, hindex⟩

lemma Holds.run {x₀ x : Sys n} (h : Holds c pg x₀) (hx : Runs c pg x₀ x) : Holds c pg x := by
  induction hx with
  | init => exact h
  | step a _ ha ih => exact ih.act a ha

lemma Holds.index_le {x : Sys n} (h : Holds c pg x) : x.scan.index ≤ ncRsize c := by
  obtain ⟨g, _, hgone⟩ := h.placed
  have hle := (h.nodup.subperm fun e he => mem_range.mpr (hgone e he).1 : x.scan.gone.Subperm (range c.ncsize)).length_le
  rw [length_range] at hle
  rw [h.index, ncRsize]
  omega

lemma holds_start {th : Fin (n + 1) → Thread} (h : Reachable c (n + 1) s th) (henters : ∀ t, Enters (th t))
    (hidle : (th 0).pc = .idle) : Holds c pg ⟨s, th, .start⟩ := by
  obtain ⟨g, hgood⟩ := good_of_reachable h
  have hok : ∀ t, EnterOk c (th t) := fun t => (hgood.threads t).enterOk (henters t)
  have hbare : (th 0).hand = none := by
    have := hok 0
    rwa [EnterOk, hidle] at this
  exact ⟨⟨g, hgood.core.placed, fun e he => absurd he not_mem_nil⟩, hok, hbare, hgood.core.rotor, nodup_nil, rfl⟩

/-- A purge beside threads of `dnlc_enter` stays inside `nc_rele`, unless an entry that it has taken comes back before it
in the scan. -/
theorem purge_index_le {th : Fin (n + 1) → Thread} {x : Sys n} (h : Reachable c (n + 1) s th) (henters : ∀ t, Enters (th t))
    (hidle : (th 0).pc = .idle) (hrun : Runs c pg ⟨s, th, .start⟩ x) : x.scan.index ≤ ncRsize c :=
  ((holds_start h henters hidle).run hrun).index_le

def twoEntries : Config := ⟨2, by decide⟩

def Sys.boot (c : Config) : Sys n := ⟨dnlcInit c, fun _ => ⟨.idle, none, []⟩, .start⟩

/-- The sections of a whole `dnlc_enter` that finds a free entry. -/
def enterName (name : Name) : List (Act 1) := replicate 5 (.enter 0 ⟨512, name, 0⟩ 768 fun _ => false)

lemma runs_of_enters {x₀ x : Sys n} {acts : List (Act n)} (h : Runs c pg x₀ x) (hgone : x.scan.gone = [])
    (hacts : ∀ a ∈ acts, a ≠ .purge) : Runs c pg x₀ (acts.foldl (Sys.act c pg) x) := by
  induction acts generalizing x with
  | nil => exact h
  | cons a acts ih =>
    cases a with
    | enter t k vp good =>
      refine ih (h.step (.enter t k vp good) fun _ _ _ _ _ he => ?_) hgone fun a ha => hacts a (mem_cons_of_mem _ ha)
      rw [hgone] at he
      exact absurd he not_mem_nil
    | purge => exact absurd rfl (hacts _ (mem_cons_self ..))

lemma enterName_ne {name : Name} : ∀ a ∈ enterName name, a ≠ .purge := fun _ ha => (mem_replicate.mp ha).2 ▸ nofun

/-- The thread enters a name in the chain 0, and the purge takes it. -/
theorem purge_index_le_sample : ((enterName [98]).foldl (Sys.act twoEntries dnlcPurge) (.boot twoEntries)
    |>.act twoEntries dnlcPurge .purge).scan.index ≤ ncRsize twoEntries :=
  purge_index_le Reachable.init (fun _ => trivial) rfl (.step .purge (runs_of_enters .init rfl enterName_ne) trivial)

/-- Two entries of the chain 0 are purged, and one of them is back in the chain 1 when the purge comes there. -/
theorem purge_overruns : ¬ ((enterName [98] ++ enterName [100] ++ [Act.purge] ++ enterName [97] ++ [Act.purge]).foldl
    (Sys.act twoEntries dnlcPurge) (.boot twoEntries)).scan.index ≤ ncRsize twoEntries := by
  decide +kernel

lemma picks_length (hcount : count ≠ 0) :
    (picks test count i l).length = min (l.filter test).length (max 1 (count - i).toNat) := by
  induction l generalizing i with
  | nil => rfl
  | cons e l ih =>
    rw [picks]
    by_cases he : test e = true
    · rw [if_pos he, filter_cons_of_pos he, length_cons]
      split_ifs with hlast
      · rw [length_singleton]
        omega
      · rw [length_cons, ih]
        omega
    · rw [if_neg he, filter_cons_of_neg he]
      exact ih

lemma picks_zero : picks test 0 i l = l.filter test := by
  induction l generalizing i with
  | nil => rfl
  | cons e l ih =>
    have hcount : ¬ ((0 : Int) ≠ 0 ∧ (0 : Int) ≤ (i + 1 : Nat)) := fun h => h.1 rfl
    rw [picks, filter_cons, if_neg hcount, ih, ih]

/-- The number of entries that a bounded purge has taken after `k` chains with `m` matching entries each. -/
def tally (m : Nat → Nat) (count : Int) : Nat → Nat
  | 0 => 0
  | k + 1 => tally m count k + if count = 0 then m k else min (m k) (max 1 (count - tally m count k).toNat)

lemma tally_zero (m : Nat → Nat) (k : Nat) : tally m 0 k = ∑ j ∈ Finset.range k, m j := by
  induction k with
  | zero => rfl
  | succ k ih => rw [tally, if_pos rfl, Finset.sum_range_succ, ih]

/-- A chain that comes after the bound is reached costs one more entry. -/
lemma tally_iff {m : Nat → Nat} (hcount : 0 < count) (k : Nat) :
    ((tally m count k : Int) = min count (∑ j ∈ Finset.range k, m j : Nat) ∧
      ∀ i < k, count ≤ (∑ j ∈ Finset.range i, m j : Nat) → m i = 0) ∨
    (count < tally m count k ∧ ¬ ∀ i < k, count ≤ (∑ j ∈ Finset.range i, m j : Nat) → m i = 0) := by
  induction k with
  | zero => exact .inl ⟨by simp [tally, hcount.le], nofun⟩
  | succ k ih =>
    rw [tally, if_neg hcount.ne', Finset.sum_range_succ]
    rcases ih with ⟨heq, hall⟩ | ⟨hlt, hnot⟩
    · by_cases hnext : count ≤ (∑ j ∈ Finset.range k, m j : Nat) → m k = 0
      · refine .inl ⟨by omega, fun i hi => ?_⟩
        rcases Nat.lt_succ_iff_lt_or_eq.mp hi with hi | rfl
        · exact hall i hi
        · exact hnext
      · exact .inr ⟨by omega, fun h => hnext (h k (Nat.lt_succ_self k))⟩
    · exact .inr ⟨by omega, fun h => hnot fun i hi => h i (Nat.lt_succ_of_lt hi)⟩

/-- The cache `s` with the chains of `g`, and no entry in the hands of a thread. -/
def Quiet (c : Config) (s : Cache) (g : Ghost (n + 1)) : Prop := ∃ th, Placed c s g th ∧ ∀ t, (th t).hand = none

def matching (pg : Purge) (s : Cache) (g : Ghost n) (i : Nat) : Nat := ((g.chain i).filter fun e => pg.test (s.ident e)).length

/-- The entries of `gone` are off their chains, with the holds released that they had; the others stay in place. -/
structure TakenOff (c : Config) (pg : Purge) (s : Cache) (g : Ghost n) (gone : List EntId) (s' : Cache) : Prop where
  nodup : gone.Nodup
  meets : ∀ e ∈ gone, pg.test (s.ident e) = true ∧ ∃ i < c.ncHashsz, e ∈ g.chain i
  chained : ∀ i < c.ncHashsz, Chained s' i ((g.chain i).filter (· ∉ gone))
  ident : ∀ e, e ∉ gone → s'.ident e = s.ident e
  released : ∀ v, s'.released v = s.released v + (gone.flatMap fun e => vpOf s e ++ dpOf s e).count v

/-- After the first chains of a purge, with nothing released yet. -/
structure Swept (c : Config) (pg : Purge) (s : Cache) (g : Ghost (n + 1)) (k : Nat) (gone : List EntId) (r : Cache × Scan) :
    Prop where
  quiet : ∃ g' : Ghost (n + 1), Quiet c r.1 g' ∧ ∀ i, g'.chain i = (g.chain i).filter (· ∉ gone)
  scan : r.2 = ⟨k, tally (matching pg s g) pg.count k, gone, gone.flatMap fun e => [(s.ident e).vp, (s.ident e).dp]⟩
  nodup : gone.Nodup
  meets : ∀ e ∈ gone, pg.test (s.ident e) = true ∧ ∃ i < k, e ∈ g.chain i
  length : gone.length = tally (matching pg s g) pg.count k
  ident : ∀ e, e ∉ gone → r.1.ident e = s.ident e
  released : r.1.released = s.released

variable {g : Ghost (n + 1)} {r : Cache × Scan} {gone : List EntId} {m vfsp : Nat} {vVfsp : Vnode → Nat}

lemma Swept.next (h : Swept c pg s g m gone r) (hs : Quiet c s g) (hm : m < c.ncHashsz) :
    ∃ gone', Swept c pg s g (m + 1) gone' (purgeNext c pg r) := by
  obtain ⟨⟨g', ⟨th, hplaced, hnone⟩, hchain⟩, hscan, hnodup, hmatch, hlen, hident, hrele⟩ := h
  obtain ⟨_, hs, _⟩ := hs
  obtain ⟨s', p⟩ := r
  dsimp only at hplaced hscan hident hrele
  have happart : ∀ {i j e}, e ∈ g.chain i → e ∈ g.chain j → i = j := fun hi hj =>
    Place.chain.inj (((hs.mem_chain _ _).mp hi).symm.trans ((hs.mem_chain _ _).mp hj))
  have hnot : ∀ e ∈ g.chain m, e ∉ gone := by
    intro e he hgone
    obtain ⟨_, j, hj, hej⟩ := hmatch e hgone
    exact hj.ne (happart hej he)
  have hnch : p.nch = m := by rw [hscan]
  have hhere : g'.chain p.nch = g.chain m := by
    rw [hnch, hchain]
    exact filter_eq_self.mpr fun e he => decide_eq_true (hnot e he)
  obtain ⟨g'', hpurged, hp⟩ := purgeNext_spec (p := p) (t := 0) hplaced (hnone 0) (hnch ▸ hm)
    fun e he => hident e (hnot e (hhere ▸ he))
  rw [hhere] at hpurged hp
  have hsub := picks_sublist (fun e => pg.test (s.ident e)) pg.count p.n (g.chain m)
  have hcard : (picks (fun e => pg.test (s.ident e)) pg.count p.n (g.chain m)).length =
      if pg.count = 0 then matching pg s g m else min (matching pg s g m) (max 1 (pg.count - p.n).toNat) := by
    split_ifs with hcount
    · rw [hcount, picks_zero]
      rfl
    · rw [picks_length hcount]
      rfl
  have hn : p.n = tally (matching pg s g) pg.count m := by rw [hscan]
  generalize picks (fun e => pg.test (s.ident e)) pg.count p.n (g.chain m) = new at *
  have hnew : ∀ e ∈ new, e ∈ g.chain m ∧ pg.test (s.ident e) = true := fun e he => mem_filter.mp (hsub.subset he)
  rw [hn] at hcard
  refine ⟨gone ++ new, ⟨g'', ⟨th, hpurged.placed, hnone⟩, fun i => ?_⟩, ?_, ?_, ?_, ?_, ?_, hpurged.rest.1.trans hrele⟩
  · rw [hpurged.chain, hnch]
    rcases eq_or_ne i m with rfl | hne
    · rw [update_self, hchain, filter_filter]
      refine filter_congr fun x _ => ?_
      simp only [mem_append, not_or, Bool.decide_and, Bool.and_comm]
    · rw [update_of_ne hne, hchain]
      refine filter_congr fun x hx => ?_
      have hx' : x ∉ new := fun hmem => hne (happart hx (hnew x hmem).1)
      simp only [mem_append, hx', or_false]
  · rw [hp, Scan.takes_eq, hscan, tally, hcard, flatMap_append]
  · exact nodup_append.mpr ⟨hnodup, (hsub.trans filter_sublist).nodup (hs.chained m hm).nodup,
      fun e he e' he' heq => hnot e' (hnew e' he').1 (heq ▸ he)⟩
  · intro e he
    rcases mem_append.mp he with he | he
    · obtain ⟨htest, j, hj, hej⟩ := hmatch e he
      exact ⟨htest, j, lt_succ_of_lt hj, hej⟩
    · exact ⟨(hnew e he).2, m, lt_succ_self m, (hnew e he).1⟩
  · rw [length_append, hlen, hcard, tally]
  · intro e he
    rw [mem_append, not_or] at he
    exact (hpurged.ident e he.2).trans (hident e he.1)

lemma swept_iterate (hs : Quiet c s g) (hm : m ≤ c.ncHashsz) :
    ∃ gone, Swept c pg s g m gone ((purgeNext c pg)^[m] (s, .start)) := by
  induction m with
  | zero =>
    refine ⟨[], ⟨g, hs, fun i => ?_⟩, rfl, nodup_nil, nofun, rfl, fun _ _ => rfl, rfl⟩
    exact (filter_eq_self.mpr fun x _ => decide_eq_true not_mem_nil).symm
  | succ m ih =>
    obtain ⟨gone, hswept⟩ := ih (le_of_succ_le hm)
    rw [iterate_succ_apply']
    exact hswept.next hs hm

lemma releAll_eq (ident : EntId → Ident) : ∃ released,
    releAll s (gone.flatMap fun e => [(ident e).vp, (ident e).dp]) = { s with released := released } ∧
    ∀ v, released v = s.released v + (gone.flatMap fun e => (ident e).vp.toList ++ (ident e).dp.toList).count v := by
  have hone : ∀ (s : Cache) (w : Option Vnode), ∃ released, releAll s [w] = { s with released := released } ∧
      ∀ v, released v = s.released v + w.toList.count v := by
    intro s w
    cases w with
    | none => exact ⟨_, rfl, fun v => rfl⟩
    | some w =>
      refine ⟨_, rfl, fun v => ?_⟩
      exact (count_cons_update s.released).trans (by rw [Option.toList_some])
  induction gone generalizing s with
  | nil => exact ⟨_, rfl, fun v => rfl⟩
  | cons e gone ih =>
    obtain ⟨f, hf, hf'⟩ := hone s (ident e).vp
    obtain ⟨f', hg, hg'⟩ := hone { s with released := f } (ident e).dp
    obtain ⟨f'', hrest, hrest'⟩ := ih
    refine ⟨f'', ?_, fun v => ?_⟩
    · rw [flatMap_cons, releAll, foldl_append]
      change releAll (releAll (releAll s [(ident e).vp]) [(ident e).dp]) _ = _
      rw [hf, hg, hrest]
    · have hvp := hf' v
      have hdp := hg' v
      have hgone := hrest' v
      dsimp only at hdp hgone
      rw [flatMap_cons, count_append, count_append]
      omega

/-- A whole purge: how many entries it has taken, and the cache. -/
def purge (c : Config) (pg : Purge) (s : Cache) : Nat × Cache :=
  let r := (purgeNext c pg)^[c.ncHashsz] (s, .start)
  (r.2.n, releAll r.1 r.2.rele)

lemma purge_spec (hs : Quiet c s g) : ∃ gone, TakenOff c pg s g gone (purge c pg s).2 ∧
    (purge c pg s).1 = gone.length ∧ gone.length = tally (matching pg s g) pg.count c.ncHashsz := by
  obtain ⟨gone, ⟨g', ⟨_, hplaced, _⟩, hchain⟩, hscan, hnodup, hmatch, hlen, hident, hrele⟩ :=
    swept_iterate hs le_rfl
  obtain ⟨released, heq, hreleased⟩ := releAll_eq (s := ((purgeNext c pg)^[c.ncHashsz] (s, .start)).1) s.ident
  refine ⟨gone, ⟨hnodup, hmatch, fun i hi => ?_, fun e he => ?_, fun v => ?_⟩, ?_, hlen⟩
  · rw [purge, hscan, ← hchain]
    dsimp only
    rw [heq]
    exact hplaced.chained i hi
  · rw [purge, hscan]
    dsimp only
    rw [heq]
    exact hident e he
  · rw [purge, hscan]
    dsimp only
    rw [heq]
    exact (hreleased v).trans (by rw [hrele]; rfl)
  · rw [purge, hscan]
    exact hlen.symm

/-- What a purge of a file system always does; the number that it answers is the tally. -/
theorem dnlcPurgeVfsp_spec (hs : Quiet c s g) :
    ∃ gone, TakenOff c (purgeVfsp vVfsp vfsp count) s g gone (dnlcPurgeVfsp c vVfsp vfsp count s).2 ∧
      (dnlcPurgeVfsp c vVfsp vfsp count s).1 = gone.length ∧
      gone.length = tally (matching (purgeVfsp vVfsp vfsp count) s g) count c.ncHashsz :=
  purge_spec hs

/-- `dnlc_purge` and `dnlc_purge_vp` take exactly the entries that they are to take, and release what these have held. -/
theorem purge_exact (hs : Quiet c s g) (hcount : pg.count = 0) :
    let all := (range c.ncHashsz).flatMap fun i => (g.chain i).filter fun e => pg.test (s.ident e)
    (∀ i < c.ncHashsz, Chained (purge c pg s).2 i ((g.chain i).filter fun e => ¬ pg.test (s.ident e))) ∧
    (∀ e, pg.test (s.ident e) = false → (purge c pg s).2.ident e = s.ident e) ∧
    ∀ v, (purge c pg s).2.released v = s.released v + (all.flatMap fun e => vpOf s e ++ dpOf s e).count v := by
  intro all
  obtain ⟨gone, h, _, hlen⟩ := @purge_spec _ _ pg _ _ hs
  have hsub : gone ⊆ all := fun e he => by
    obtain ⟨htest, i, hi, hei⟩ := h.meets e he
    exact mem_flatMap.mpr ⟨i, mem_range.mpr hi, mem_filter.mpr ⟨hei, htest⟩⟩
  have hall : gone.Perm all := by
    refine (h.nodup.subperm hsub).perm_of_length_le ?_
    rw [hlen, hcount, tally_zero, length_flatMap]
    exact le_rfl
  refine ⟨fun i hi => ?_, fun e he => ?_, fun v => ?_⟩
  · have hkept : (g.chain i).filter (· ∉ gone) = (g.chain i).filter fun e => ¬ pg.test (s.ident e) := by
      refine filter_congr fun e he => decide_eq_decide.mpr (not_congr ⟨fun hmem => (h.meets e hmem).1, fun htest => ?_⟩)
      exact hall.mem_iff.mpr (mem_flatMap.mpr ⟨i, mem_range.mpr hi, mem_filter.mpr ⟨he, htest⟩⟩)
    exact hkept ▸ h.chained i hi
  · refine h.ident e fun hmem => ?_
    rw [(h.meets e hmem).1] at he
    cases he
  · rw [h.released, (hall.flatMap_right _).count_eq]

/-- The purge takes all entries of the file system when `count` is 0, and otherwise as many of them as `count` allows. -/
def KeepsBound (c : Config) (vVfsp : Vnode → Nat) (vfsp : Nat) (count : Int) (s : Cache) (g : Ghost n) : Prop :=
  ∃ gone, TakenOff c (purgeVfsp vVfsp vfsp count) s g gone (dnlcPurgeVfsp c vVfsp vfsp count s).2 ∧
    (dnlcPurgeVfsp c vVfsp vfsp count s).1 = gone.length ∧
    (gone.length : Int) =
      let all := ∑ i ∈ Finset.range c.ncHashsz, matching (purgeVfsp vVfsp vfsp count) s g i
      if count = 0 then (all : Int) else min count all

/-- The bounded purge keeps to its bound when there is none, or when no chain after the one that reaches it has an entry
to take. -/
theorem keepsBound_iff (hs : Quiet c s g) : KeepsBound c vVfsp vfsp count s g ↔
    count = 0 ∨ 0 < count ∧ ∀ i < c.ncHashsz,
      count ≤ (∑ j ∈ Finset.range i, matching (purgeVfsp vVfsp vfsp count) s g j : Nat) →
        matching (purgeVfsp vVfsp vfsp count) s g i = 0 := by
  obtain ⟨gone, htaken, hanswer, hlen⟩ := dnlcPurgeVfsp_spec hs
  have htally := fun hpos : 0 < count => tally_iff (m := matching (purgeVfsp vVfsp vfsp count) s g) hpos c.ncHashsz
  constructor
  · rintro ⟨gone', _, hanswer', hlen'⟩
    rw [← hanswer', hanswer, hlen] at hlen'
    dsimp only at hlen'
    rcases lt_trichotomy count 0 with hneg | rfl | hpos
    · rw [if_neg hneg.ne] at hlen'
      omega
    · exact .inl rfl
    · refine .inr ⟨hpos, ?_⟩
      rw [if_neg hpos.ne'] at hlen'
      rcases htally hpos with ⟨_, hall⟩ | ⟨hlt, _⟩
      · exact hall
      · omega
  · intro hcond
    refine ⟨gone, htaken, hanswer, ?_⟩
    rw [hlen]
    rcases hcond with rfl | ⟨hpos, hall⟩
    · rw [tally_zero]
      rfl
    · dsimp only
      rw [if_neg hpos.ne']
      rcases htally hpos with ⟨heq, _⟩ | ⟨_, hnot⟩
      · exact heq
      · exact absurd hall hnot

def twoNames : Sys 1 := (enterName [98] ++ enterName [97]).foldl (Sys.act twoEntries dnlcPurge) (.boot twoEntries)

lemma quiet_twoNames : ∃ g : Ghost 2, Quiet twoEntries twoNames.cache g := by
  have hstart : Holds twoEntries dnlcPurge (.boot twoEntries : Sys 1) := holds_start Reachable.init (fun _ => trivial) rfl
  have hacts : ∀ a ∈ enterName [98] ++ enterName [97], a ≠ .purge := fun a ha =>
    (mem_append.mp ha).elim (enterName_ne a) (enterName_ne a)
  obtain ⟨g, hplaced, _⟩ := (hstart.run (runs_of_enters .init rfl hacts)).placed
  refine ⟨g, _, hplaced, ?_⟩
  decide +kernel

/-- Of the two entries on different chains both are to be taken. -/
theorem keepsBound_iff_sample : ∃ g : Ghost 2, Quiet twoEntries twoNames.cache g ∧
    KeepsBound twoEntries (fun _ => 7) 7 2 twoNames.cache g := by
  obtain ⟨g, hg⟩ := quiet_twoNames
  refine ⟨g, hg, (keepsBound_iff hg).mpr (.inr ⟨by decide, ?_⟩)⟩
  obtain ⟨gone, -, hanswer, hlen⟩ := @dnlcPurgeVfsp_spec twoEntries 1 twoNames.cache 0 g 7 (fun _ => 7) hg
  have htwo : (dnlcPurgeVfsp twoEntries (fun _ => 7) 7 0 twoNames.cache).1 = 2 := by decide +kernel
  have hsz : twoEntries.ncHashsz = 2 := by decide
  have hsum : matching (purgeVfsp (fun _ => 7) 7 2) twoNames.cache g 0 +
      matching (purgeVfsp (fun _ => 7) 7 2) twoNames.cache g 1 = 2 := by
    rw [tally_zero, hsz, Finset.sum_range_succ, Finset.sum_range_one] at hlen
    exact (hlen.symm.trans (Nat.cast_injective (hanswer.symm.trans htwo)))
  intro i hi hle
  rw [hsz] at hi
  interval_cases i
  · rw [Finset.sum_range_zero] at hle
    omega
  · rw [Finset.sum_range_one] at hle
    omega

theorem purge_exact_sample : ∃ g : Ghost 2, ∀ i < twoEntries.ncHashsz,
    Chained (purge twoEntries (dnlcPurgeVp 768) twoNames.cache).2 i
      ((g.chain i).filter fun e => ¬ (dnlcPurgeVp 768).test (twoNames.cache.ident e)) := by
  obtain ⟨g, hg⟩ := quiet_twoNames
  exact ⟨g, (purge_exact hg rfl).1⟩

/-- The purge is to take one entry, and takes one off each chain. -/
theorem purge_exceeds_count : ∃ g : Ghost 2, Quiet twoEntries twoNames.cache g ∧
    ¬ KeepsBound twoEntries (fun _ => 7) 7 1 twoNames.cache g := by
  obtain ⟨g, hg⟩ := quiet_twoNames
  refine ⟨g, hg, ?_⟩
  rintro ⟨gone, _, hanswer, hlen⟩
  have htwo : (dnlcPurgeVfsp twoEntries (fun _ => 7) 7 1 twoNames.cache).1 = 2 := by decide +kernel
  dsimp only at hlen
  rw [if_neg Int.one_ne_zero] at hlen
  omega

end Solaris.Dnlc
