import Solaris.Dnlc.Sections

/-!
# The steps of the threads

Each step of a thread keeps the invariant of the cache and the conditions on where the threads stand.
-/

namespace Solaris.Dnlc

section Steps

open List Function Nat Option

variable {c : Config} {n : Nat} {env : Env} {s s' : Cache} {g g' : Ghost n} {th : Fin n → Thread} {t u : Fin n} {x : Thread}
  {e : EntId} {k : Key} {vp v : Vnode}

structure Bare (x : Thread) : Prop where
  hand : x.hand = none
  rele : x.rele = []

def ThreadOk (c : Config) (s : Cache) (g : Ghost n) (x : Thread) : Prop :=
  match x.pc with
  | .idle | .lookup _ | .fsScan _ _ | .fsChain _ _ _ | .iter _ _ => Bare x
  | .enterGet k _ | .enterPop k _ => Bare x ∧ k.name.length ≤ NC_NAMLEN
  | .enterSteal k _ hp _ | .enterChain k _ hp _ => Bare x ∧ k.name.length ≤ NC_NAMLEN ∧ hp < c.ncHashsz
  | .enterStolen k _ => k.name.length ≤ NC_NAMLEN
  | .enterInsert k vp => k.name.length ≤ NC_NAMLEN ∧ x.rele = [k.dp, vp] ∧ ∃ e, x.hand = some e ∧ s.ident e = identOf k vp
  | .enterDouble | .fsPurged _ | .iterPurged => True
  | .remove _ _ began | .purgeLock _ began => Bare x ∧ s.history[began]? = some .begun
  | .removed _ _ began => s.history[began]? = some .begun
  | .purge v began i => x.hand = none ∧ s.history[began]? = some .begun ∧
      ∀ e k vp, Cached s g e k vp → v = k.dp ∨ v = vp → g.born e < began → i ≤ chainOf c (dnlcHash k.name k.dp)
  | .purgeRele v began => x.hand = none ∧ s.history[began]? = some .begun ∧
      ∀ e k vp, Cached s g e k vp → v = k.dp ∨ v = vp → began ≤ g.born e

structure Good (c : Config) (s : Cache) (g : Ghost n) (th : Fin n → Thread) : Prop where
  core : Core c s g th
  threads : ∀ t, ThreadOk c s g (th t)

lemma begun_of_moves {began : Nat} (hm : Moves t s g s' g') (h : s.history[began]? = some .begun) :
    s'.history[began]? = some .begun := by
  obtain ⟨evs, hevs⟩ := hm.history
  rw [← hevs]
  exact getElem?_append_some h

lemma length_of_begun {began : Nat} (h : s.history[began]? = some .begun) : began < s.history.length :=
  (List.getElem?_eq_some_iff.mp h).1

lemma ThreadOk.moves (h : ThreadOk c s g x) (hhand : ∀ e, x.hand = some e → g.place e = .hand u) (hu : u ≠ t)
    (hm : Moves t s g s' g') : ThreadOk c s' g' x := by
  unfold ThreadOk at h ⊢
  cases hpc : x.pc <;> simp only [hpc] at h ⊢ <;> try exact h
  case enterInsert =>
    obtain ⟨hlen, hrele, e, he, hident⟩ := h
    exact ⟨hlen, hrele, e, he, (hm.hand u hu e (hhand e he)).trans hident⟩
  case remove => exact ⟨h.1, begun_of_moves hm h.2⟩
  case removed => exact begun_of_moves hm h
  case purgeLock => exact ⟨h.1, begun_of_moves hm h.2⟩
  case purge =>
    obtain ⟨hnone, hbegun, hpurged⟩ := h
    refine ⟨hnone, begun_of_moves hm hbegun, fun e k vp he hv hborn => ?_⟩
    rcases hm.cached e k vp he with ⟨hold, hsame⟩ | hnew
    · exact hpurged e k vp hold hv (hsame ▸ hborn)
    · have := length_of_begun hbegun
      omega
  case purgeRele =>
    obtain ⟨hnone, hbegun, hpurged⟩ := h
    refine ⟨hnone, begun_of_moves hm hbegun, fun e k vp he hv => ?_⟩
    rcases hm.cached e k vp he with ⟨hold, hsame⟩ | hnew
    · exact hsame ▸ hpurged e k vp hold hv
    · have := length_of_begun hbegun
      omega

lemma Good.next (h : Good c s g th) (hcore : Core c s' g' (update th t x)) (hm : Moves t s g s' g')
    (hx : ThreadOk c s' g' x) : Good c s' g' (update th t x) := by
  refine ⟨hcore, fun u => ?_⟩
  rcases eq_or_ne u t with rfl | hne
  · rw [update_self]
    exact hx
  · rw [update_of_ne hne]
    exact (h.threads u).moves (fun e => (h.core.placed.hands u e).mp) hne hm

def Goes (c : Config) (th : Fin n → Thread) (t : Fin n) (r : Cache × Thread) : Prop :=
  ∃ g', Good c r.1 g' (update th t r.2)

lemma Good.stay (h : Good c s g th) (hhand : x.hand = (th t).hand) (hrele : x.rele = (th t).rele)
    (hx : ThreadOk c s g x) : Goes c th t (s, x) := by
  obtain ⟨hcore, hfewer⟩ := h.core.keep ⟨s.freeRotor, s.purgeRotor, s.releLock, h.core.rotor, rfl⟩ hhand hrele
  exact ⟨g, h.next hcore hfewer.moves hx⟩

lemma Good.releNext {r : Cache × Thread} (h : Good c s g th) (hr : releNext s (th t) = some r) :
    Core c r.1 g (update th t r.2) ∧ Moves t s g r.1 g ∧ r.2.pc = (th t).pc ∧ r.2.hand = (th t).hand := by
  unfold Dnlc.releNext at hr
  split at hr
  · rename_i v vs hrele
    obtain rfl := some.inj hr
    obtain ⟨hcore, hfewer⟩ := h.core.rele (x := { th t with rele := vs }) hrele rfl
    exact ⟨hcore, hfewer.moves, rfl, rfl⟩
  · cases hr

lemma releNext_none (hr : releNext s x = none) : x.rele = [] := by
  unfold releNext at hr
  split at hr
  · cases hr
  · assumption

lemma Good.giveBack {r : Cache × Thread} (h : Good c s g th) (hr : giveBack s (th t) = some r) :
    ∃ g', Core c r.1 g' (update th t r.2) ∧ Moves t s g r.1 g' ∧ r.2.pc = (th t).pc := by
  unfold Dnlc.giveBack at hr
  split at hr
  · rename_i e he
    obtain rfl := some.inj hr
    obtain ⟨hcore, hfewer⟩ := h.core.discard (x := { th t with hand := none }) he rfl rfl
    exact ⟨_, hcore, hfewer.moves, rfl⟩
  · obtain ⟨hcore, hmoves, hpc, _⟩ := h.releNext hr
    exact ⟨g, hcore, hmoves, hpc⟩

lemma giveBack_none (hr : giveBack s x = none) : Bare x := by
  unfold giveBack at hr
  split at hr
  · cases hr
  · exact ⟨by assumption, releNext_none hr⟩

lemma Good.takeOff {i : Nat} {pc : Pc} (h : Good c s g th) (hbare : Bare (th t)) (he : g.place e = .chain i)
    (hx : ∀ s' g', Moves t s g s' g' → ThreadOk c s' g' ⟨pc, some e, vpOf s e ++ dpOf s e⟩) :
    Goes c th t (takeOff s e pc) := by
  obtain ⟨hcore, hfewer⟩ := h.core.unchain (x := ⟨pc, some e, vpOf s e ++ dpOf s e⟩) he hbare.hand rfl
    (by rw [hbare.rele]; exact perm_append_comm)
  exact ⟨_, h.next hcore hfewer.moves (hx _ _ hfewer.moves)⟩

lemma Good.idle (h : Good c s g th) (hpc : (th t).pc = .idle) : Goes c th t (step c env s (th t)) := by
  have hbare := h.threads t
  rw [ThreadOk, hpc] at hbare
  have hbare' : ∀ pc, Bare { th t with pc := pc } := fun pc => ⟨hbare.hand, hbare.rele⟩
  have hbegin : ∀ pc, (∀ s', s'.history = s.history ++ [.begun] → ThreadOk c s' g { th t with pc := pc }) →
      Goes c th t (s.record .begun, { th t with pc := pc }) := by
    intro pc hok
    have hcore : Core c (s.record .begun) g (update th t { th t with pc := pc }) :=
      h.core.record (fun _ _ _ hev => hev.elim) (fun _ _ _ _ _ hev => hev.elim) nofun rfl rfl
    exact ⟨g, h.next hcore moves_record (hok _ rfl)⟩
  have hlast : ∀ s' : Cache, s'.history = s.history ++ [.begun] → s'.history[s.history.length]? = some .begun := by
    intro s' hs'
    rw [hs', getElem?_append_right le_rfl, Nat.sub_self]
    rfl
  rw [step, hpc]
  cases hcall : env.call with
  | enter k vp =>
    dsimp only [start]
    split_ifs with hlen
    · exact h.stay rfl rfl (hbare' _)
    · exact h.stay rfl rfl ⟨hbare' _, Nat.le_of_not_lt hlen⟩
  | lookup k => exact h.stay rfl rfl (hbare' _)
  | remove dp name =>
    dsimp only [start]
    split_ifs with hlen
    · exact h.stay rfl rfl (hbare' _)
    · exact hbegin _ fun s' hs' => ⟨hbare' _, hlast s' hs'⟩
  | purgeVp v => exact hbegin _ fun s' hs' => ⟨hbare' _, hlast s' hs'⟩
  | fsPurge1 => exact h.stay rfl rfl (hbare' _)
  | iterPurge func => exact h.stay rfl rfl (hbare' _)

lemma nextChain_lt {hp : Nat} (h : hp < c.ncHashsz) : nextChain c hp < c.ncHashsz := by
  unfold nextChain
  split_ifs <;> omega

lemma Good.enterGet (h : Good c s g th) (hpc : (th t).pc = .enterGet k vp) : Goes c th t (step c env s (th t)) := by
  have hok := h.threads t
  rw [ThreadOk, hpc] at hok
  obtain ⟨hbare, hlen⟩ := hok
  rw [step, hpc]
  dsimp only
  split_ifs
  · exact h.stay rfl rfl ⟨⟨hbare.hand, hbare.rele⟩, hlen⟩
  · exact h.stay rfl rfl ⟨⟨hbare.hand, hbare.rele⟩, hlen, h.core.rotor⟩

lemma Good.enterPop (h : Good c s g th) (hpc : (th t).pc = .enterPop k vp) : Goes c th t (step c env s (th t)) := by
  have hok := h.threads t
  rw [ThreadOk, hpc] at hok
  obtain ⟨hbare, hlen⟩ := hok
  rw [step, hpc]
  cases hlist : s.freelist with
  | none =>
    simp only [popFree, hlist]
    exact h.stay rfl rfl ⟨⟨hbare.hand, hbare.rele⟩, hlen, h.core.rotor⟩
  | some e =>
    obtain ⟨hcore, hfewer⟩ := h.core.pop (x := ⟨.enterStolen k vp, some e, (th t).rele⟩) hlist hbare.hand rfl rfl
    rw [popFree_some hlist] at hcore hfewer ⊢
    exact ⟨_, h.next hcore hfewer.moves hlen⟩

lemma Good.enterSteal {hp last : Nat} (h : Good c s g th) (hpc : (th t).pc = .enterSteal k vp hp last) :
    Goes c th t (step c env s (th t)) := by
  have hok := h.threads t
  rw [ThreadOk, hpc] at hok
  obtain ⟨hbare, hlen, hhp⟩ := hok
  have hlt := nextChain_lt hhp
  have hkeep : ∀ pc, ThreadOk c { s with freeRotor := nextChain c hp } g { th t with pc := pc } →
      Goes c th t ({ s with freeRotor := nextChain c hp }, { th t with pc := pc }) := by
    intro pc hx
    obtain ⟨hcore, hfewer⟩ := h.core.keep (x := { th t with pc := pc })
      ⟨nextChain c hp, s.purgeRotor, s.releLock, hlt, rfl⟩ rfl rfl
    exact ⟨g, h.next hcore hfewer.moves hx⟩
  rw [step, hpc]
  dsimp only
  split_ifs
  · exact hkeep _ ⟨hbare.hand, hbare.rele⟩
  · exact hkeep _ ⟨⟨hbare.hand, hbare.rele⟩, hlen, hlt⟩
  · exact hkeep _ ⟨⟨hbare.hand, hbare.rele⟩, hlen, hlt⟩

lemma Good.enterChain {hp last : Nat} (h : Good c s g th) (hpc : (th t).pc = .enterChain k vp hp last) :
    Goes c th t (step c env s (th t)) := by
  have hok := h.threads t
  rw [ThreadOk, hpc] at hok
  obtain ⟨hbare, hlen, hhp⟩ := hok
  rw [step, hpc]
  dsimp only
  split
  · rename_i e vs s' hsteal
    obtain ⟨he, hvs, hs'⟩ := steal_some h.core.placed hhp (congrArg Prod.fst hsteal)
    rw [hsteal] at hs'
    obtain rfl : s' = ncRmhash s e := hs'
    obtain ⟨hcore, hfewer⟩ := h.core.unchain (x := ⟨.enterStolen k vp, some e, vs⟩) he hbare.hand rfl
      (by rw [hbare.rele, hvs]; exact List.Perm.refl _)
    exact ⟨_, h.next hcore hfewer.moves hlen⟩
  rename_i s' hsteal
  have hs' := steal_none (congrArg Prod.fst hsteal)
  rw [hsteal] at hs'
  obtain rfl : s' = s := hs'
  split_ifs
  · exact h.stay rfl rfl ⟨hbare.hand, hbare.rele⟩
  · exact h.stay rfl rfl ⟨⟨hbare.hand, hbare.rele⟩, hlen, hhp⟩

lemma Good.enterStolen (h : Good c s g th) (hpc : (th t).pc = .enterStolen k vp) :
    Goes c th t (step c env s (th t)) := by
  have hlen := h.threads t
  rw [ThreadOk, hpc] at hlen
  rw [step, hpc]
  dsimp only
  split
  · rename_i r hr
    obtain ⟨hcore, hmoves, hpc', _⟩ := h.releNext hr
    refine ⟨g, h.next hcore hmoves ?_⟩
    rw [ThreadOk, hpc', hpc]
    exact hlen
  rename_i hr
  have hnil := releNext_none hr
  split
  · refine h.stay rfl rfl ?_
    rw [ThreadOk, hpc]
    exact hlen
  · rename_i e he
    obtain ⟨hcore, hfewer⟩ := h.core.initEntry (x := ⟨.enterInsert k vp, some e, [k.dp, vp]⟩) he hnil he.symm rfl
    exact ⟨g, h.next hcore hfewer.moves ⟨hlen, rfl, e, rfl, update_self ..⟩⟩

lemma Good.enterInsert (h : Good c s g th) (hpc : (th t).pc = .enterInsert k vp) :
    Goes c th t (step c env s (th t)) := by
  have hok := h.threads t
  rw [ThreadOk, hpc] at hok
  obtain ⟨hlen, hrele, e, he, hident⟩ := hok
  rw [step, hpc]
  rw [he]
  dsimp only [Dnlc.insert]
  cases hsearch : dnlcSearch c s k.dp k.name (dnlcHash k.name k.dp) (some k.cred) with
  | some _ => exact h.stay he.symm rfl trivial
  | none =>
    have hnone := dnlcSearch_none h.core.placed h.core.named hsearch
    obtain ⟨hcore, hmoves⟩ := h.core.insert (x := ⟨.idle, none, []⟩) he hident hlen hnone hrele rfl rfl
    exact ⟨_, h.next hcore hmoves ⟨rfl, rfl⟩⟩

lemma Good.enterDouble (h : Good c s g th) (hpc : (th t).pc = .enterDouble) : Goes c th t (step c env s (th t)) := by
  rw [step, hpc]
  dsimp only
  split
  · rename_i r hr
    obtain ⟨hcore, hmoves, hpc', _⟩ := h.releNext hr
    refine ⟨g, h.next hcore hmoves ?_⟩
    rw [ThreadOk, hpc', hpc]
    trivial
  rename_i hr
  have hnil := releNext_none hr
  split
  · refine h.stay rfl rfl ?_
    rw [ThreadOk, hpc]
    trivial
  · rename_i e he
    obtain ⟨hcore, hfewer⟩ := h.core.discard (x := ⟨.idle, none, []⟩) he rfl hnil.symm
    exact ⟨_, h.next hcore hfewer.moves ⟨rfl, rfl⟩⟩

/-- A lookup leaves the cache as it was but for the order of a chain and a hold, and answers with a cached vnode. -/
theorem Core.lookup (h : Core c s g th) : ∃ g', Core c (dnlcLookup c s k).2 g' th ∧ Fewer t s g (dnlcLookup c s k).2 g' ∧
    ∀ vp, (dnlcLookup c s k).1 = some vp → ∃ e, Cached (dnlcLookup c s k).2 g' e k vp := by
  have hsame : ∃ g', Core c s g' th ∧ Fewer t s g s g' ∧ ∀ vp, none = some vp → ∃ e, Cached s g' e k vp :=
    ⟨g, h, Fewer.congr rfl rfl rfl rfl, nofun⟩
  unfold dnlcLookup
  by_cases hlen : NC_NAMLEN < k.name.length
  · rw [if_pos hlen]
    exact hsame
  rw [if_neg hlen]
  dsimp only
  split
  · exact hsame
  rename_i e depth hfind
  obtain ⟨he, hq⟩ := h.placed.find_some (chainOf_lt c _) hfind
  obtain ⟨k', vp', hcached, _⟩ := h.named.cached he
  obtain rfl : k' = k := isIdent_identOf.mp (hcached.ident ▸ hq)
  have hfront : ∃ g', Core c (if NC_MOVETOFRONT < depth then ncMoveToFront s (chainOf c (dnlcHash k'.name k'.dp)) e else s)
        g' th ∧ Fewer t s g (if NC_MOVETOFRONT < depth then ncMoveToFront s (chainOf c (dnlcHash k'.name k'.dp)) e else s) g' ∧
      Cached (if NC_MOVETOFRONT < depth then ncMoveToFront s (chainOf c (dnlcHash k'.name k'.dp)) e else s) g' e k' vp' := by
    split_ifs
    · obtain ⟨hcore, hfewer⟩ := h.front he rfl rfl
      rw [update_eq_self] at hcore
      obtain ⟨pre, post, _, hchained, _⟩ := h.placed.split he
      obtain ⟨next, prev, hrest⟩ := (ncMoveToFront_relinked hchained).rest
      refine ⟨_, hcore, hfewer, ⟨_, he⟩, ?_⟩
      rw [hrest]
      exact hcached.ident
    · exact ⟨g, h, Fewer.congr rfl rfl rfl rfl, hcached⟩
  obtain ⟨g', hcore, hfewer, hcached'⟩ := hfront
  rw [hcached'.ident]
  obtain ⟨hcore', hfewer'⟩ := hcore.give rfl rfl
  rw [update_eq_self] at hcore'
  refine ⟨g', hcore', hfewer.trans hfewer', fun vp hvp => ?_⟩
  obtain rfl := some.inj hvp
  exact ⟨e, hcached'.chain, hcached'.ident⟩

lemma Core.lookup_none (h : Core c s g th) (hnone : (dnlcLookup c s k).1 = none) : ∀ e vp, ¬ Cached s g e k vp := by
  intro e vp hcached
  have hlen := h.named.length_le hcached
  have hplace := h.named.chain_eq hcached
  unfold dnlcLookup at hnone
  rw [if_neg (not_lt.mpr hlen)] at hnone
  dsimp only at hnone
  split at hnone
  · rename_i hfind
    have hq := h.placed.find_none (chainOf_lt c _) hfind hplace
    rw [hcached.ident, isIdent_identOf.mpr rfl] at hq
    cases hq
  rename_i e' depth hfind
  obtain ⟨he', hq⟩ := h.placed.find_some (chainOf_lt c _) hfind
  obtain ⟨k', vp', hcached', _⟩ := h.named.cached he'
  have hident : ((if NC_MOVETOFRONT < depth then ncMoveToFront s (chainOf c (dnlcHash k.name k.dp)) e' else s).ident e').vp =
      some vp' := by
    split_ifs
    · obtain ⟨pre, post, _, hchained, _⟩ := h.placed.split he'
      obtain ⟨next, prev, hrest⟩ := (ncMoveToFront_relinked hchained).rest
      rw [hrest, hcached'.ident]
      rfl
    · rw [hcached'.ident]
      rfl
  rw [hident] at hnone
  cases hnone

lemma Good.lookup (h : Good c s g th) (hpc : (th t).pc = .lookup k) : Goes c th t (step c env s (th t)) := by
  have hbare := h.threads t
  rw [ThreadOk, hpc] at hbare
  rw [step, hpc]
  obtain ⟨g', hcore, hfewer, hanswer⟩ := h.core.lookup
  have hrecord : Core c ((dnlcLookup c s k).2.record (.looked k (dnlcLookup c s k).1)) g'
      (update th t { th t with pc := .idle }) := by
    refine hcore.record (fun _ _ _ hev => hev.elim) (fun _ _ _ _ _ hev => hev.elim) (fun k' vp hev => ?_) rfl rfl
    obtain ⟨rfl, hvp⟩ := Event.looked.inj hev
    exact hanswer vp hvp
  exact ⟨g', h.next hrecord (hfewer.then moves_record) ⟨hbare.hand, hbare.rele⟩⟩

lemma Good.remove {dp : Vnode} {name : Name} {began : Nat} (h : Good c s g th)
    (hpc : (th t).pc = .remove dp name began) : Goes c th t (step c env s (th t)) := by
  have hok := h.threads t
  rw [ThreadOk, hpc] at hok
  obtain ⟨hbare, hbegun⟩ := hok
  rw [step, hpc]
  dsimp only
  split
  · rename_i e hsearch
    obtain ⟨i, he⟩ := dnlcSearch_some h.core.placed hsearch
    exact h.takeOff hbare he fun s' g' hm => begun_of_moves hm hbegun
  rename_i hsearch
  have hnone := dnlcSearch_any_none h.core.placed h.core.named hsearch
  refine ⟨g, h.next (h.core.record ?_ ?_ nofun rfl rfl) moves_record ⟨hbare.hand, hbare.rele⟩⟩
  · rintro k vp b ⟨rfl, _⟩
    exact hbegun
  · rintro e k vp he b ⟨_, rfl, rfl⟩
    exact absurd ⟨rfl, rfl⟩ (hnone e k vp he)

lemma Good.removed {dp : Vnode} {name : Name} {began : Nat} (h : Good c s g th)
    (hpc : (th t).pc = .removed dp name began) : Goes c th t (step c env s (th t)) := by
  have hbegun := h.threads t
  rw [ThreadOk, hpc] at hbegun
  rw [step, hpc]
  dsimp only
  split
  · rename_i r hr
    obtain ⟨g', hcore, hmoves, hpc'⟩ := h.giveBack hr
    refine ⟨g', h.next hcore hmoves ?_⟩
    rw [ThreadOk, hpc', hpc]
    exact begun_of_moves hmoves hbegun
  · rename_i hr
    have hbare := giveBack_none hr
    exact h.stay rfl rfl ⟨⟨hbare.hand, hbare.rele⟩, hbegun⟩

lemma Good.purgeLock {began : Nat} (h : Good c s g th) (hpc : (th t).pc = .purgeLock v began) :
    Goes c th t (step c env s (th t)) := by
  have hok := h.threads t
  rw [ThreadOk, hpc] at hok
  obtain ⟨hbare, hbegun⟩ := hok
  rw [step, hpc]
  dsimp only
  split_ifs
  · refine h.stay rfl rfl ?_
    rw [ThreadOk, hpc]
    exact ⟨hbare, hbegun⟩
  · obtain ⟨hcore, hfewer⟩ := h.core.keep (x := { th t with pc := .purge v began 0 })
      ⟨s.freeRotor, s.purgeRotor, true, h.core.rotor, rfl⟩ rfl rfl
    exact ⟨g, h.next hcore hfewer.moves ⟨hbare.hand, hbegun, fun _ _ _ _ _ _ => zero_le _⟩⟩

lemma purgeChain_spec {i fuel : Nat} {pre post : List EntId} {pc : Pc} {vs : List Vnode}
    (h : Core c s g (update th t ⟨pc, none, vs⟩)) (hi : i < c.ncHashsz) (hchain : g.chain i = pre ++ post)
    (hpre : ∀ e ∈ pre, ¬ ((s.ident e).dp = some v ∨ (s.ident e).vp = some v)) (hfuel : post.length ≤ fuel) :
    let r := purgeChain v fuel (some (node i post.head?)) s vs
    ∃ g', Core c r.1 g' (update th t ⟨pc, none, r.2⟩) ∧ Fewer t s g r.1 g' ∧
      ∀ e ∈ g'.chain i, ¬ ((r.1.ident e).dp = some v ∨ (r.1.ident e).vp = some v) := by
  induction post generalizing pre fuel s g vs with
  | nil =>
    have hend : purgeChain v fuel (some (node i none)) s vs = (s, vs) := by cases fuel <;> rfl
    dsimp only [head?_nil]
    rw [hend]
    rw [append_nil] at hchain
    exact ⟨g, h, Fewer.congr rfl rfl rfl rfl, hchain ▸ hpre⟩
  | cons e post ih =>
    cases fuel with
    | zero => cases hfuel
    | succ fuel =>
      have hfuel := le_of_succ_le_succ hfuel
      have hchained := h.placed.chained i hi
      rw [hchain] at hchained
      have hnext : s.hashNext (.entry e) = some (node i post.head?) := hchained.next_of_mem
      have he : g.place e = .chain i := (h.placed.mem_chain i e).mp (by rw [hchain]; simp)
      dsimp only [head?_cons, node]
      rw [purgeChain, hnext]
      split_ifs with hnames
      · obtain ⟨hout, hfewer⟩ := h.unchain (t := t) (x := ⟨pc, some e, vs ++ (vpOf s e ++ dpOf s e)⟩) he
          (by rw [update_self]) rfl (by
            rw [update_self]
            exact List.Perm.append_left vs perm_append_comm)
        obtain ⟨hfree, hfewer'⟩ := hout.discard (t := t) (x := ⟨pc, none, vs ++ (vpOf s e ++ dpOf s e)⟩)
          (by rw [update_self]) rfl (by rw [update_self])
        rw [update_idem, update_idem] at hfree
        have hpre_ne : e ∉ pre := fun hmem =>
          (nodup_append.mp hchained.nodup).2.2 e hmem e (mem_cons_self ..) rfl
        have hchain' : ((g.unchain t i e).discard e).chain i = pre ++ post := by
          dsimp only [Ghost.discard, Ghost.unchain]
          rw [update_self, hchain, erase_append_right _ hpre_ne, erase_cons_head]
        have hpre' : ∀ x ∈ pre, ¬ (((dnlcFree (ncRmhash s e) e).ident x).dp = some v ∨
            ((dnlcFree (ncRmhash s e) e).ident x).vp = some v) := by
          intro x hx
          have hx' : ((g.unchain t i e).discard e).place x = .chain i :=
            (hfree.placed.mem_chain i x).mp (by rw [hchain']; exact mem_append_left _ hx)
          obtain ⟨_, hident, _⟩ := (hfewer.trans hfewer').chain x i hx'
          rw [hident]
          exact hpre x hx
        obtain ⟨g', hcore, hrest, hclean⟩ := ih hfree hchain' hpre' hfuel
        exact ⟨g', hcore, (hfewer.trans hfewer').trans hrest, hclean⟩
      · have hchain' : g.chain i = (pre ++ [e]) ++ post := by
          rw [hchain, append_assoc]
          rfl
        refine ih h hchain' (fun x hx => ?_) hfuel
        rcases mem_append.mp hx with hx | hx
        · exact hpre x hx
        · exact (mem_singleton.mp hx) ▸ hnames

lemma Good.purge {began i : Nat} (h : Good c s g th) (hpc : (th t).pc = .purge v began i) :
    Goes c th t (step c env s (th t)) := by
  have hok := h.threads t
  rw [ThreadOk, hpc] at hok
  obtain ⟨hnone, hbegun, hpurged⟩ := hok
  rw [step, hpc]
  dsimp only
  split_ifs with hi
  · have hfirst : s.hashNext (.head i) = some (node i (g.chain i).head?) := (h.core.placed.chained i hi).first
    have hcore : Core c s g (update th t ⟨.purge v began (i + 1), none, (th t).rele⟩) :=
      (h.core.keep (x := ⟨.purge v began (i + 1), none, (th t).rele⟩)
        ⟨s.freeRotor, s.purgeRotor, s.releLock, h.core.rotor, rfl⟩ hnone.symm rfl).1
    obtain ⟨g', hcore', hfewer, hclean⟩ := purgeChain_spec (v := v) hcore hi rfl
      (fun x hx => absurd hx (not_mem_nil)) (h.core.placed.length_le hi)
    rw [hfirst]
    have hthread : { th t with
          pc := .purge v began (i + 1)
          rele := (purgeChain v c.ncsize (some (node i (g.chain i).head?)) s (th t).rele).2 } =
        Thread.mk (.purge v began (i + 1)) none
          (purgeChain v c.ncsize (some (node i (g.chain i).head?)) s (th t).rele).2 := by
      dsimp only
      rw [hnone]
    rw [hthread]
    refine ⟨g', h.next hcore' hfewer.moves ⟨rfl, begun_of_moves hfewer.moves hbegun, fun e k vp he hv hborn => ?_⟩⟩
    obtain ⟨hold, hsame⟩ := hfewer.cached he
    have hle := hpurged e k vp hold hv (hsame ▸ hborn)
    have hne : chainOf c (dnlcHash k.name k.dp) ≠ i := by
      intro heq
      have hplace := hcore'.named.chain_eq he
      rw [heq] at hplace
      refine hclean e ((hcore'.placed.mem_chain i e).mpr hplace) ?_
      rw [he.ident]
      rcases hv with rfl | rfl
      · exact .inl rfl
      · exact .inr rfl
    omega
  · refine h.stay rfl rfl ⟨hnone, hbegun, fun e k vp he hv => ?_⟩
    by_contra hborn
    have hle := hpurged e k vp he hv (Nat.lt_of_not_le hborn)
    have hlt := chainOf_lt c (dnlcHash k.name k.dp)
    omega

lemma Good.purgeRele {began : Nat} (h : Good c s g th) (hpc : (th t).pc = .purgeRele v began) :
    Goes c th t (step c env s (th t)) := by
  have hok := h.threads t
  rw [ThreadOk, hpc] at hok
  obtain ⟨hnone, hbegun, hpurged⟩ := hok
  rw [step, hpc]
  dsimp only
  split
  · rename_i r hr
    obtain ⟨hcore, hmoves, hpc', hhand⟩ := h.releNext hr
    refine ⟨g, h.next hcore hmoves ?_⟩
    rw [ThreadOk, hpc', hpc]
    refine ⟨hhand.trans hnone, begun_of_moves hmoves hbegun, fun e k vp he hv => ?_⟩
    rcases hmoves.cached e k vp he with ⟨hold, _⟩ | hnew
    · exact hpurged e k vp hold hv
    · have := length_of_begun hbegun
      omega
  · rename_i hr
    have hnil := releNext_none hr
    obtain ⟨hcore, hfewer⟩ := h.core.keep (t := t) (x := { th t with pc := .idle })
      ⟨s.freeRotor, s.purgeRotor, false, h.core.rotor, rfl⟩ rfl rfl
    have hends : ∀ k vp b, (Event.purged began v).Ends k vp b → s.history[b]? = some .begun := by
      rintro k vp b ⟨rfl, _⟩
      exact hbegun
    have hcached : ∀ e k vp, Cached { s with releLock := false } g e k vp → ∀ b, (Event.purged began v).Ends k vp b →
        b ≤ g.born e := by
      rintro e k vp he b ⟨rfl, hv⟩
      exact hpurged e k vp ⟨he.chain, he.ident⟩ hv
    have hrecord := hcore.record (t := t) (x := { th t with pc := .idle }) hends hcached nofun
      (by rw [update_self]) (by rw [update_self])
    rw [update_idem] at hrecord
    exact ⟨g, h.next hrecord (hfewer.then moves_record) ⟨hnone, hnil⟩⟩

lemma advance_ok {finish current : EntId} (h : Bare x) : ThreadOk c s g { x with pc := advance c finish current } := by
  unfold advance
  split_ifs <;> exact ⟨h.hand, h.rele⟩

lemma Good.fsScan {finish current : EntId} (h : Good c s g th) (hpc : (th t).pc = .fsScan finish current) :
    Goes c th t (step c env s (th t)) := by
  have hbare := h.threads t
  rw [ThreadOk, hpc] at hbare
  rw [step, hpc]
  dsimp only
  split_ifs
  · exact h.stay rfl rfl ⟨hbare.hand, hbare.rele⟩
  · exact h.stay rfl rfl (advance_ok hbare)

lemma Core.chained_of_stillGood {good : Vnode → Bool} {current : EntId} {hash : UInt32} (h : Core c s g th)
    (hgood : stillGood good s current hash = true) : ∃ i, g.place current = .chain i := by
  by_contra hno
  have hnone := h.placed.unlinked current (not_exists.mp hno)
  unfold stillGood at hgood
  exact (of_decide_eq_true hgood).2.1 hnone

lemma Good.fsChain {finish current : EntId} {hash : UInt32} (h : Good c s g th)
    (hpc : (th t).pc = .fsChain finish current hash) : Goes c th t (step c env s (th t)) := by
  have hbare := h.threads t
  rw [ThreadOk, hpc] at hbare
  rw [step, hpc]
  dsimp only
  split_ifs with hgood
  · obtain ⟨i, he⟩ := h.core.chained_of_stillGood hgood
    exact h.takeOff hbare he fun _ _ _ => trivial
  · exact h.stay rfl rfl (advance_ok hbare)

lemma Good.fsPurged {current : EntId} (h : Good c s g th) (hpc : (th t).pc = .fsPurged current) :
    Goes c th t (step c env s (th t)) := by
  rw [step, hpc]
  dsimp only
  split
  · rename_i r hr
    obtain ⟨g', hcore, hmoves, hpc'⟩ := h.giveBack hr
    refine ⟨g', h.next hcore hmoves ?_⟩
    rw [ThreadOk, hpc', hpc]
    trivial
  · rename_i hr
    have hbare := giveBack_none hr
    obtain ⟨hcore, hfewer⟩ := h.core.keep
      (x := { th t with pc := .idle }) ⟨s.freeRotor, nextEntry c current, s.releLock, h.core.rotor, rfl⟩ rfl rfl
    exact ⟨g, h.next hcore hfewer.moves ⟨hbare.hand, hbare.rele⟩⟩

lemma Good.iter {func : Ident → Bool} {i : Nat} (h : Good c s g th) (hpc : (th t).pc = .iter func i) :
    Goes c th t (step c env s (th t)) := by
  have hbare := h.threads t
  rw [ThreadOk, hpc] at hbare
  rw [step, hpc]
  dsimp only
  split_ifs with hi
  · split
    · rename_i e depth hfind
      exact h.takeOff hbare (h.core.placed.find_some hi hfind).1 fun _ _ _ => trivial
    · exact h.stay rfl rfl ⟨hbare.hand, hbare.rele⟩
  · exact h.stay rfl rfl ⟨hbare.hand, hbare.rele⟩

lemma Good.iterPurged (h : Good c s g th) (hpc : (th t).pc = .iterPurged) : Goes c th t (step c env s (th t)) := by
  rw [step, hpc]
  dsimp only
  split
  · rename_i r hr
    obtain ⟨g', hcore, hmoves, hpc'⟩ := h.giveBack hr
    refine ⟨g', h.next hcore hmoves ?_⟩
    rw [ThreadOk, hpc', hpc]
    trivial
  · rename_i hr
    have hbare := giveBack_none hr
    exact h.stay rfl rfl ⟨hbare.hand, hbare.rele⟩

lemma Good.step (h : Good c s g th) (t : Fin n) (env : Env) : Goes c th t (step c env s (th t)) := by
  cases hpc : (th t).pc with
  | idle => exact h.idle hpc
  | enterGet k vp => exact h.enterGet hpc
  | enterPop k vp => exact h.enterPop hpc
  | enterSteal k vp hp last => exact h.enterSteal hpc
  | enterChain k vp hp last => exact h.enterChain hpc
  | enterStolen k vp => exact h.enterStolen hpc
  | enterInsert k vp => exact h.enterInsert hpc
  | enterDouble => exact h.enterDouble hpc
  | lookup k => exact h.lookup hpc
  | remove dp name began => exact h.remove hpc
  | removed dp name began => exact h.removed hpc
  | purgeLock v began => exact h.purgeLock hpc
  | purge v began i => exact h.purge hpc
  | purgeRele v began => exact h.purgeRele hpc
  | fsScan finish current => exact h.fsScan hpc
  | fsChain finish current hash => exact h.fsChain hpc
  | fsPurged current => exact h.fsPurged hpc
  | iter func i => exact h.iter hpc
  | iterPurged => exact h.iterPurged hpc

end Steps

/-!
## Runs of the cache

The invariant holds in the first state, and with it in every state that any number of threads reach.
-/

section Runs

open Lib List Nat Option

variable {c : Config} {n : Nat} {s : Cache} {g : Ghost n} {th : Fin n → Thread} {e : EntId} {l m : List EntId}

lemma foldl_dnlcFree_freed (h : Freed s m) (hnd : (l.reverse ++ m).Nodup) : Freed (l.foldl dnlcFree s) (l.reverse ++ m) := by
  induction l generalizing s m with
  | nil => exact h
  | cons e l ih =>
    rw [reverse_cons, append_assoc, singleton_append] at hnd ⊢
    have he : e ∉ m := (nodup_cons.mp (nodup_append.mp hnd).2.1).1
    exact ih (dnlcFree_freed h he) hnd

lemma foldl_dnlcFree_rest : l.foldl dnlcFree s = { s with
    ident := (l.foldl dnlcFree s).ident
    nextFree := (l.foldl dnlcFree s).nextFree
    freelist := (l.foldl dnlcFree s).freelist } := by
  induction l generalizing s with
  | nil => rfl
  | cons e l ih => exact ih

def Ghost.init (c : Config) (n : Nat) : Ghost n where
  place e := if e < c.ncsize then .free else .outside
  chain _ := []
  free := (List.range c.ncsize).reverse
  born _ := 0

lemma Ghost.init_ne_chain (e i : Nat) : (Ghost.init c n).place e ≠ .chain i := by
  unfold Ghost.init
  dsimp only
  split_ifs <;> nofun

lemma good_init : Good c (dnlcInit c) (Ghost.init c n) fun _ => ⟨.idle, none, []⟩ := by
  have hfreed : Freed (dnlcInit c) ((range c.ncsize).reverse ++ []) :=
    foldl_dnlcFree_freed ⟨chain_nil rfl, nodup_nil⟩ (by simpa using nodup_range)
  rw [append_nil] at hfreed
  rw [dnlcInit, foldl_dnlcFree_rest] at hfreed ⊢
  have hcached : ∀ {s : Cache} {e k vp}, ¬ Cached s (Ghost.init c n) e k vp := by
    rintro s e k vp ⟨⟨i, hi⟩, _⟩
    exact Ghost.init_ne_chain e i hi
  refine ⟨⟨⟨?_, hfreed, ?_, ?_, ?_, ?_, ?_, ?_⟩, ⟨?_, ?_, ?_, ?_⟩, ?_, ⟨nofun, nofun⟩, ?_⟩, fun _ => ⟨rfl, rfl⟩⟩
  · exact fun i _ => circular_nil rfl rfl
  · exact fun i e => iff_of_false (not_mem_nil) (Ghost.init_ne_chain e i)
  · intro e
    unfold Ghost.init
    dsimp only
    rw [mem_reverse, mem_range]
    split_ifs with he
    · exact iff_of_true he rfl
    · exact iff_of_false he nofun
  · intro t e
    refine iff_of_false nofun ?_
    unfold Ghost.init
    dsimp only
    split_ifs <;> nofun
  · intro e
    unfold Ghost.init
    dsimp only
    split_ifs with he
    · exact iff_of_false nofun (Nat.not_le.mpr he)
    · exact iff_of_true rfl (Nat.le_of_not_lt he)
  · exact fun e i hi => absurd hi (Ghost.init_ne_chain e i)
  · exact fun e _ => rfl
  · exact fun e i hi => absurd hi (Ghost.init_ne_chain e i)
  · exact fun e e' k vp vp' he => absurd he hcached
  · exact fun e k vp he => absurd he hcached
  · exact fun e k vp he => absurd he hcached
  · intro v
    have howned : ∀ s, owned c s (Ghost.init c n) v = 0 := fun s =>
      Finset.sum_eq_zero fun e _ => owns_other (Ghost.init_ne_chain e)
    have howed : owed (fun _ : Fin n => Thread.mk .idle none []) v = 0 := Finset.sum_eq_zero fun t _ => rfl
    rw [howed, howned]
    rfl
  · exact Nat.two_pow_pos _

lemma good_of_reachable (h : Reachable c n s th) : ∃ g : Ghost n, Good c s g th := by
  induction h with
  | init => exact ⟨Ghost.init c n, good_init⟩
  | step t env _ ih =>
    obtain ⟨g, hg⟩ := ih
    exact hg.step t env

def At (c : Config) (g : Ghost n) (th : Fin n → Thread) (e : EntId) : Place n → Prop
  | .chain i => i < c.ncHashsz ∧ e ∈ g.chain i
  | .free => e ∈ g.free
  | .hand t => (th t).hand = some e
  | .outside => False

def HasKey (s : Cache) (e : EntId) (k : Key) : Prop :=
  (s.ident e).dp = some k.dp ∧ (s.ident e).name = k.name ∧ (s.ident e).cred = k.cred

structure Consistent (c : Config) (s : Cache) (g : Ghost n) (th : Fin n → Thread) : Prop where
  links : ∀ i < c.ncHashsz, Chained s i (g.chain i)
  freelist : Freed s g.free
  place : ∀ e < c.ncsize, ∀ p, At c g th e p ↔ p = g.place e
  entries : ∀ i < c.ncHashsz, ∀ e ∈ g.chain i, e < c.ncsize ∧
    ∃ k vp, s.ident e = identOf k vp ∧ chainOf c (dnlcHash k.name k.dp) = i
  unique : ∀ i < c.ncHashsz, ∀ e ∈ g.chain i, ∀ j < c.ncHashsz, ∀ e' ∈ g.chain j, ∀ k,
    HasKey s e k → HasKey s e' k → e = e'
  ledger : ∀ v, s.taken v = s.released v + s.given v + owned c s g v + owed th v
  story : Story s.history
  lookup : ∀ k, (dnlcLookup c s k).1 = none → ∀ i < c.ncHashsz, ∀ e ∈ g.chain i, ¬ HasKey s e k

lemma Core.cached_of_key {i : Nat} {k : Key} (h : Core c s g th) (he : e ∈ g.chain i) (hk : HasKey s e k) :
    ∃ vp, Cached s g e k vp := by
  obtain ⟨k', vp, hcached, _⟩ := h.named.cached ((h.placed.mem_chain i e).mp he)
  obtain ⟨hdp, hname, hcred⟩ := hk
  rw [hcached.ident] at hdp hname hcred
  have hkey : k' = k := by
    obtain ⟨dp, name, cred⟩ := k
    obtain ⟨dp', name', cred'⟩ := k'
    obtain rfl : dp' = dp := some.inj hdp
    obtain rfl : name' = name := hname
    obtain rfl : cred' = cred := hcred
    rfl
  exact ⟨vp, hkey ▸ hcached⟩

lemma Core.place_iff (h : Core c s g th) (he : e < c.ncsize) (p : Place n) : At c g th e p ↔ p = g.place e := by
  cases p with
  | chain i =>
    refine ⟨fun hp => ((h.placed.mem_chain i e).mp hp.2).symm, fun hp => ?_⟩
    exact ⟨h.placed.chain_lt e i hp.symm, (h.placed.mem_chain i e).mpr hp.symm⟩
  | free => exact (h.placed.mem_free e).trans eq_comm
  | hand t => exact (h.placed.hands t e).trans eq_comm
  | outside =>
    refine iff_of_false id fun hp => ?_
    exact absurd he (not_lt.mpr ((h.placed.outside e).mp hp.symm))

/-- The cache never lies, and holds what it names. -/
theorem cache_consistent (h : Reachable c n s th) : ∃ g : Ghost n, Consistent c s g th := by
  obtain ⟨g, hcore, _⟩ := good_of_reachable h
  refine ⟨g, hcore.placed.chained, hcore.placed.freed, fun e he => hcore.place_iff he, ?_, ?_, hcore.ledger, hcore.story, ?_⟩
  · intro i _ e he
    have hplace := (hcore.placed.mem_chain i e).mp he
    obtain ⟨k, vp, hcached, hchain⟩ := hcore.named.cached hplace
    exact ⟨hcore.placed.lt_of_chain hplace, k, vp, hcached.ident, hchain⟩
  · intro i _ e he j _ e' he' k hk hk'
    obtain ⟨vp, hcached⟩ := hcore.cached_of_key he hk
    obtain ⟨vp', hcached'⟩ := hcore.cached_of_key he' hk'
    exact hcore.named.unique e e' k vp vp' hcached hcached'
  · intro k hnone i _ e he hk
    obtain ⟨vp, hcached⟩ := hcore.cached_of_key he hk
    exact hcore.lookup_none hnone e vp hcached

/-- The threads take turns, and each is told its next call. -/
def turns (c : Config) (r : Cache × (Fin n → Thread)) (calls : List (Fin n × Call)) : Cache × (Fin n → Thread) :=
  calls.foldl (fun r x =>
    let next := step c ⟨x.2, fun _ => false⟩ r.1 (r.2 x.1)
    (next.1, Function.update r.2 x.1 next.2)) r

lemma Reachable.turns {calls : List (Fin n × Call)} (h : Reachable c n s th) :
    Reachable c n (turns c (s, th) calls).1 (turns c (s, th) calls).2 := by
  induction calls generalizing s th with
  | nil => exact h
  | cons x calls ih => exact ih (h.step x.1 ⟨x.2, fun _ => false⟩)

/-- A thread has entered `a` and `b` of a directory and looked `a` up; another removes `b`, whose entry it has in its
hands with the two holds still to be released. -/
theorem cache_consistent_removing : ∃ (s : Cache) (th : Fin 2 → Thread), (∃ g : Ghost 2, Consistent ⟨4, by decide⟩ s g th) ∧
    s.given 768 = 1 ∧ (th 1).hand = some 2 ∧ (th 1).rele = [1024, 512] ∧
    s.hashNext (.head (chainOf ⟨4, by decide⟩ (dnlcHash [97] 512))) = some (.entry 3) := by
  have hrun := @Reachable.turns ⟨4, by decide⟩ 2 _ _
    (List.replicate 5 (0, .enter ⟨512, [97], 0⟩ 768) ++ List.replicate 5 (0, .enter ⟨512, [98], 0⟩ 1024) ++
      List.replicate 2 (0, .lookup ⟨512, [97], 0⟩) ++ List.replicate 2 (1, .remove 512 [98])) .init
  exact ⟨_, _, cache_consistent hrun, by decide +kernel⟩

end Runs

end Solaris.Dnlc
