import Solaris.Msg.Moves

/-!
# The message that `msgrcv` chooses

The first message of the queue, the first of a type, or the first of the lowest type not above a bound.
-/

namespace Solaris.Msg

section Choice

open Lib List

variable {p : Params} {s : Msgs} {h : Nat → Header} {msgtyp : Int} {q : Nat}

/-- The message between `pre` and `post` is the one that is asked for. -/
structure Selected (h : Nat → Header) (msgtyp : Int) (pre : List Nat) (x : Nat) (post : List Nat) : Prop where
  any : msgtyp = 0 → pre = []
  type : 0 < msgtyp → (h x).type = msgtyp ∧ ∀ y ∈ pre, (h y).type ≠ msgtyp
  lowest : msgtyp < 0 → (h x).type ≤ -msgtyp ∧ (∀ y ∈ pre, (h x).type < (h y).type) ∧ ∀ y ∈ post, (h x).type ≤ (h y).type

/-- What the loop has found in the messages behind it, all of them when `msgtyp` is negative. -/
inductive Best (h : Nat → Header) (msgtyp : Int) (l : List Nat) : Option Nat × Option Nat → Prop where
  | none (hall : ∀ y ∈ l, ¬(h y).type ≤ negLong msgtyp) : Best h msgtyp l (none, none)
  | found {x : Nat} {pre post : List Nat} (hl : l = pre ++ x :: post) (hx : (h x).type ≤ negLong msgtyp)
    (hpre : ∀ y ∈ pre, (h x).type < (h y).type) (hpost : ∀ y ∈ post, (h x).type ≤ (h y).type) :
    Best h msgtyp l (some x, pre.getLast?)

inductive FirstOf (h : Nat → Header) (msgtyp : Int) (l : List Nat) : Option Nat × Option Nat → Prop where
  | none (hall : ∀ y ∈ l, (h y).type ≠ msgtyp) : FirstOf h msgtyp l (none, none)
  | found {x : Nat} {pre post : List Nat} (hl : l = pre ++ x :: post) (hx : (h x).type = msgtyp)
    (hpre : ∀ y ∈ pre, (h y).type ≠ msgtyp) : FirstOf h msgtyp l (some x, pre.getLast?)

section

variable {l : List Nat} {x : Nat} {r : Option Nat × Option Nat} (hb : Best h msgtyp l r)

include hb

lemma Best.skip (hx : ¬(h x).type ≤ negLong msgtyp) : Best h msgtyp (l ++ [x]) r := by
  cases hb with
  | none hall =>
    refine .none ?_
    refine forall_mem_append.mpr ⟨hall, fun y hy => ?_⟩
    rwa [mem_singleton.mp hy]
  | found hl hz hpre hpost =>
    refine .found (by rw [hl, append_assoc, cons_append]) hz hpre ?_
    exact forall_mem_append.mpr ⟨hpost, forall_mem_singleton.mpr (by omega)⟩

lemma Best.keep (hx : (r.1.any fun z => (h z).type ≤ (h x).type) = true) : Best h msgtyp (l ++ [x]) r := by
  cases hb with
  | none hall => cases hx
  | @found z pre post hl hz hpre hpost =>
    have hle : (h z).type ≤ (h x).type := by simpa using hx
    refine .found (by rw [hl, append_assoc, cons_append]) hz hpre ?_
    refine forall_mem_append.mpr ⟨hpost, fun y hy => ?_⟩
    rwa [mem_singleton.mp hy]

lemma Best.better (hx : (h x).type ≤ negLong msgtyp) (hlow : ¬(r.1.any fun z => (h z).type ≤ (h x).type) = true) :
    Best h msgtyp (l ++ [x]) (some x, l.getLast?) := by
  refine .found rfl hx ?_ (by simp)
  intro y hy
  cases hb with
  | none hall =>
    have := hall y hy
    omega
  | @found z pre post hl hz hpre hpost =>
    have hzx : ¬(h z).type ≤ (h x).type := by simpa using hlow
    rw [hl] at hy
    rcases mem_append.mp hy with hy | hy
    · have := hpre y hy
      omega
    · rcases mem_cons.mp hy with rfl | hy
      · omega
      · have := hpost y hy
        omega

end

section Loop

variable {slots : Option Nat → Option Nat}

theorem findLoop_best (hneg : msgtyp < 0) (hslots : ∀ x, slots (some x) = (h x).next) (rest pre : List Nat) (n : Nat)
    (smp spmp : Option Nat) (hchain : Chain slots id (pre ++ rest)) (hn : rest.length ≤ n)
    (hb : Best h msgtyp pre (smp, spmp)) :
    Best h msgtyp (pre ++ rest) (findLoop h msgtyp n pre.getLast? rest.head? smp spmp) := by
  induction rest generalizing pre n smp spmp with
  | nil =>
    rw [append_nil]
    cases n <;> exact hb
  | cons x rest ih =>
    cases n with
    | zero => simp at hn
    | succ n =>
      have hn' : rest.length ≤ n := by simpa using hn
      have hnext : (h x).next = rest.head? := by
        rw [← hslots x]
        exact hchain.next
      have hpre : (pre ++ [x]).getLast? = some x := getLast?_concat
      have hchain' : Chain slots id ((pre ++ [x]) ++ rest) := by
        rwa [append_assoc, singleton_append]
      have hstep : ∀ smp spmp, Best h msgtyp (pre ++ [x]) (smp, spmp) →
          Best h msgtyp (pre ++ x :: rest) (findLoop h msgtyp n (some x) (h x).next smp spmp) := by
        intro smp spmp hb'
        have := ih (pre ++ [x]) n smp spmp hchain' hn' hb'
        rwa [hpre, append_assoc, singleton_append, ← hnext] at this
      rw [head?_cons, findLoop, if_neg (by omega)]
      split
      · rename_i hle
        split
        · rename_i hlow
          exact hstep _ _ (hb.keep hlow)
        · rename_i hlow
          exact hstep _ _ (hb.better hle hlow)
      · rename_i hle
        exact hstep _ _ (hb.skip hle)

lemma findLoop_first (hpos : 0 < msgtyp) (hslots : ∀ x, slots (some x) = (h x).next) (rest pre : List Nat) (n : Nat)
    (hchain : Chain slots id (pre ++ rest)) (hn : rest.length ≤ n) (hall : ∀ y ∈ pre, (h y).type ≠ msgtyp) :
    FirstOf h msgtyp (pre ++ rest) (findLoop h msgtyp n pre.getLast? rest.head? none none) := by
  induction rest generalizing pre n with
  | nil =>
    rw [append_nil]
    cases n <;> exact .none hall
  | cons x rest ih =>
    cases n with
    | zero => simp at hn
    | succ n =>
      have hnext : (h x).next = rest.head? := by
        rw [← hslots x]
        exact hchain.next
      rw [head?_cons, findLoop, if_pos hpos]
      split
      · rename_i hne
        have hchain' : Chain slots id ((pre ++ [x]) ++ rest) := by
          rwa [append_assoc, singleton_append]
        have hall' : ∀ y ∈ pre ++ [x], (h y).type ≠ msgtyp :=
          forall_mem_append.mpr ⟨hall, forall_mem_singleton.mpr hne.symm⟩
        have := ih (pre ++ [x]) n hchain' (by simpa using hn) hall'
        rwa [getLast?_concat, append_assoc, singleton_append, ← hnext] at this
      · rename_i heq
        exact .found rfl (not_not.mp heq).symm hall

end Loop

theorem findmsg_some {l : List Nat} {x : Nat} {spmp : Option Nat} (hchain : Chain (s.slots q) id l)
    (hlen : l.length ≤ p.msgtql + 1) (hpos : ∀ y ∈ l, 1 ≤ (s.msgh y).type)
    (hfind : findmsg p s q msgtyp = (some x, spmp)) :
    ∃ pre post, l = pre ++ x :: post ∧ spmp = pre.getLast? ∧ Selected s.msgh msgtyp pre x post := by
  have hfirst : (s.msgque q).first = l.head? := hchain.head
  have hslots : ∀ x, s.slots q (some x) = (s.msgh x).next := fun _ => rfl
  unfold findmsg at hfind
  rw [hfirst] at hfind
  split at hfind
  · rename_i hzero
    cases l with
    | nil => cases hfind
    | cons y post =>
      cases hfind
      exact ⟨[], post, rfl, rfl, fun _ => rfl, fun h => absurd h (by omega), fun h => absurd h (by omega)⟩
  rename_i hzero
  rcases lt_or_gt_of_ne hzero with hneg | hgt
  · have hbest := findLoop_best hneg hslots l [] (p.msgtql + 1) none none hchain hlen (.none (by simp))
    rw [getLast?_nil, hfind, nil_append] at hbest
    cases hbest with
    | @found _ pre post hl hx hpre hpost =>
      refine ⟨pre, post, hl, rfl, fun h => absurd h hzero, fun h => absurd h (by omega), fun _ => ⟨?_, hpre, hpost⟩⟩
      -- the least `long` is its own negation, and no type is below it
      unfold negLong at hx
      split at hx
      · omega
      · exact hx
  · have hf := findLoop_first hgt hslots l [] (p.msgtql + 1) hchain hlen (by simp)
    rw [getLast?_nil, hfind, nil_append] at hf
    cases hf with
    | @found _ pre post hl hx hpre =>
      exact ⟨pre, post, hl, rfl, fun h => absurd h hzero, fun _ => ⟨hx, hpre⟩, fun h => absurd h (by omega)⟩

end Choice

/-!
## What a section leaves behind

Between two sections no header and no segment is held: a `msgsnd` that waits or fails has given back what it took.
-/

section Effects

open Lib List Function

/-- Headers and segments are where they belong, and nobody holds one. -/
structure Settled (p : Params) (s : Msgs) (place : Nat → Place) (seg : Nat → SegPlace) (free : List Nat)
    (lists : Nat → List Nat) : Prop where
  conserved : Conserved p s place seg free lists
  placed : ∀ x, place x ≠ .held
  segs : ∀ i, seg i ≠ .held
  type_pos : ∀ q x, x ∈ lists q → 1 ≤ (s.msgh x).type

/-- The invariant: what stands on the queues is `lists`, and the bytes are counted. -/
def Holds (p : Params) (s : Msgs) (free : List Nat) (lists : Nat → List Nat) : Prop :=
  ∃ place seg, Settled p s place seg free lists ∧ ∀ q, CountsBytes s lists q

variable {p : Params} {s : Msgs} {place : Nat → Place} {seg : Nat → SegPlace} {free : List Nat}
  {lists : Nat → List Nat} {q x : Nat} {pre post : List Nat}

lemma Settled.length_le (h : Settled p s place seg free lists) (q : Nat) : (lists q).length ≤ p.msgtql := by
  have hsub : lists q ⊆ List.range p.msgtql := by
    intro x hx
    exact mem_range.mpr ((h.conserved.placed.queue q x).mp hx).1
  have := (subperm_of_subset (h.conserved.linked.nodup q) hsub).length_le
  rwa [length_range] at this

section SetQueue

lemma Conserved.setQueue (h : Conserved p s place seg free lists) {qp : Queue} (hfirst : qp.first = (s.msgque q).first)
    (hlast : qp.last = (s.msgque q).last) (hqnum : qp.qnum = (s.msgque q).qnum)
    (halloc : qp.alloc = false → lists q = []) : Conserved p (s.setQueue q qp) place seg free lists := by
  have hself : (s.setQueue q qp).msgque q = qp := update_self ..
  have hother : ∀ q', q' ≠ q → (s.setQueue q qp).msgque q' = s.msgque q' := fun q' hq => update_of_ne hq ..
  refine ⟨⟨h.linked.freeChain, ?_, ?_, h.linked.nodupFree, h.linked.nodup, ?_, ?_⟩, h.placed,
    h.segs.congr ⟨fun _ => rfl, fun _ => rfl, fun _ => rfl⟩ rfl⟩
  · intro q'
    refine (h.linked.chain q').congr ?_ fun _ _ => rfl
    unfold Msgs.slots
    by_cases hq : q' = q
    · rw [hq, hself, hfirst]
    · rw [hother q' hq]
  · intro q'
    by_cases hq : q' = q
    · rw [hq, hself, hlast, h.linked.last]
    · rw [hother q' hq, h.linked.last]
  · intro q'
    by_cases hq : q' = q
    · rw [hq, hself, hqnum, h.linked.qnum]
    · rw [hother q' hq, h.linked.qnum]
  · intro q' ha
    by_cases hq : q' = q
    · rw [hq, hself] at ha
      rw [hq]
      exact halloc ha
    · rw [hother q' hq] at ha
      exact h.linked.unused q' ha

lemma Settled.setQueue (h : Settled p s place seg free lists) {qp : Queue} (hfirst : qp.first = (s.msgque q).first)
    (hlast : qp.last = (s.msgque q).last) (hqnum : qp.qnum = (s.msgque q).qnum)
    (halloc : qp.alloc = false → lists q = []) : Settled p (s.setQueue q qp) place seg free lists :=
  ⟨h.conserved.setQueue hfirst hlast hqnum halloc, h.placed, h.segs, h.type_pos⟩

lemma Holds.setQueue (h : Holds p s free lists) {qp : Queue} (hfirst : qp.first = (s.msgque q).first)
    (hlast : qp.last = (s.msgque q).last) (hqnum : qp.qnum = (s.msgque q).qnum)
    (halloc : qp.alloc = (s.msgque q).alloc) (hbytes : qp.cbytes = (s.msgque q).cbytes) :
    Holds p (s.setQueue q qp) free lists := by
  obtain ⟨place, seg, hs, hc⟩ := h
  refine ⟨place, seg, hs.setQueue hfirst hlast hqnum fun ha => hs.conserved.linked.unused q (halloc ▸ ha), ?_⟩
  intro q'
  refine Eq.trans ?_ (hc q')
  by_cases hq : q' = q
  · subst hq
    rw [← hbytes]
    simp [Msgs.setQueue]
  · simp [Msgs.setQueue, hq]

end SetQueue

section Free

lemma Settled.msgfree (h : Settled p s place seg free lists) (hl : lists q = pre ++ x :: post) :
    ∃ place' seg', Settled p (Msg.msgfree p s q pre.getLast? x) place' seg' (x :: free)
      (update lists q (pre ++ post)) := by
  obtain ⟨place', seg', hcons, hseg, hother, hself⟩ := h.conserved.free_msg h.segs hl
  refine ⟨place', seg', hcons, ?_, hseg, ?_⟩
  · intro y hy
    by_cases hyx : y = x
    · rw [hyx, hself] at hy
      cases hy
    · rw [hother y hyx] at hy
      exact h.placed y hy
  · intro q' y hy
    rw [(msgfree_text p s q pre.getLast? x).type]
    exact h.type_pos q' y (mem_lists_of_unlink hl hy)

lemma CountsBytes.msgfree_ne {q' : Nat} (h : CountsBytes s lists q') (hne : q' ≠ q) (pmp : Option Nat) (l : List Nat) :
    CountsBytes (Msg.msgfree p s q pmp x) (update lists q l) q' := by
  unfold CountsBytes at h ⊢
  rw [msgfree_msgque, unlink_queue_ne s hne, update_of_ne hne, h]
  congr 2
  funext y
  exact ((msgfree_text p s q pmp x).ts y).symm

lemma msgfree_bytes (hl : lists q = pre ++ x :: post) :
    ((lists q).map fun y => (s.msgh y).ts).sum =
      (s.msgh x).ts + ((pre ++ post).map fun y => ((msgfree p s q pre.getLast? x).msgh y).ts).sum := by
  have hts : (fun y => ((msgfree p s q pre.getLast? x).msgh y).ts) = fun y => (s.msgh y).ts := by
    funext y
    exact (msgfree_text p s q pre.getLast? x).ts y
  rw [hts, hl]
  simp only [map_append, map_cons, sum_append, sum_cons]
  omega

theorem Settled.freeAll (n : Nat) (h : Settled p s place seg free lists) (hn : (lists q).length ≤ n) :
    ∃ place' seg' free', Settled p (Msg.freeAll p n s q) place' seg' free' (update lists q []) ∧
      ∀ q', q' ≠ q → CountsBytes s lists q' → CountsBytes (Msg.freeAll p n s q) (update lists q []) q' := by
  induction n generalizing s place seg free lists with
  | zero =>
    have hnil : lists q = [] := length_eq_zero_iff.mp (Nat.le_zero.mp hn)
    have hsame : update lists q [] = lists := by
      rw [← hnil]
      exact update_eq_self q lists
    rw [hsame]
    exact ⟨place, seg, free, h, fun _ _ hc => hc⟩
  | succ n ih =>
    have hfirst : (s.msgque q).first = (lists q).head? := (h.conserved.linked.chain q).head
    cases hl : lists q with
    | nil =>
      have hsame : update lists q [] = lists := by
        rw [← hl]
        exact update_eq_self q lists
      have hstop : Msg.freeAll p (n + 1) s q = s := by
        rw [Msg.freeAll, hfirst, hl]
        rfl
      rw [hsame, hstop]
      exact ⟨place, seg, free, h, fun _ _ hc => hc⟩
    | cons x rest =>
      have hstep : Msg.freeAll p (n + 1) s q = Msg.freeAll p n (Msg.msgfree p s q none x) q := by
        rw [Msg.freeAll, hfirst, hl]
        rfl
      have hsplit : lists q = [] ++ x :: rest := hl
      obtain ⟨place1, seg1, h1⟩ := h.msgfree hsplit
      have hlen : (update lists q rest q).length ≤ n := by
        rw [hl] at hn
        simpa using hn
      obtain ⟨place', seg', free', h', hc'⟩ := ih h1 hlen
      rw [update_idem] at h' hc'
      rw [hstep]
      refine ⟨place', seg', free', h', ?_⟩
      intro q' hne hc
      exact hc' q' hne (hc.msgfree_ne hne none rest)

lemma Holds.msgctlRmid (h : Holds p s free lists) (msqid : Int) (permitted : Bool) :
    ∃ free' lists', Holds p (Msg.msgctlRmid p s msqid permitted).2 free' lists' := by
  unfold Msg.msgctlRmid
  cases msgconv p s msqid with
  | none => exact ⟨free, lists, h⟩
  | some q =>
    cases permitted with
    | false => exact ⟨free, lists, h⟩
    | true =>
      obtain ⟨place, seg, hs, hc⟩ := h
      obtain ⟨place', seg', free', hs', hc'⟩ := hs.freeAll (p.msgtql + 1) (Nat.le_succ_of_le (hs.length_le q))
      have hnil : update lists q [] q = [] := update_self ..
      refine ⟨free', update lists q [], place', seg', hs'.setQueue rfl rfl rfl fun _ => hnil, ?_⟩
      intro q'
      by_cases hq : q' = q
      · subst hq
        simp [CountsBytes, Msgs.setQueue]
      · refine Eq.trans ?_ (hc' q' hq (hc q'))
        simp [Msgs.setQueue, hq]

end Free

section Get

lemma freeSlot_unused (h : freeSlot p s = some q) : (s.msgque q).alloc = false := by
  have := find?_some h
  simpa using this

lemma ipcget_new {key : Int} {flag : GetFlags} (h : ipcget p s key flag = .ok (q, true)) :
    (s.msgque q).alloc = false := by
  unfold ipcget at h
  split at h
  · split at h
    · rename_i hslot
      cases h
      exact freeSlot_unused hslot
    · cases h
  split at h
  · split at h
    · cases h
    · split at h <;> cases h
  split at h
  · split at h
    · rename_i hslot
      cases h
      exact freeSlot_unused hslot
    · cases h
  · cases h

lemma Holds.newQueue (h : Holds p s free lists) (key : Int) (perms : BitVec 9) (hun : (s.msgque q).alloc = false) :
    Holds p (s.setQueue q (Msg.newQueue p (s.msgque q) key perms)) free lists := by
  obtain ⟨place, seg, hs, hc⟩ := h
  have hnil := hs.conserved.linked.unused q hun
  have hfirst : (s.msgque q).first = none := by
    have := (hs.conserved.linked.chain q).head
    rwa [hnil] at this
  have hlast : (s.msgque q).last = none := by
    rw [hs.conserved.linked.last, hnil]
    rfl
  have hqnum : (s.msgque q).qnum = 0 := by
    rw [hs.conserved.linked.qnum, hnil]
    rfl
  refine ⟨place, seg, hs.setQueue hfirst.symm hlast.symm hqnum.symm fun _ => hnil, ?_⟩
  intro q'
  refine Eq.trans ?_ (hc q')
  by_cases hq : q' = q
  · subst hq
    simp [Msgs.setQueue, Msg.newQueue]
  · simp [Msgs.setQueue, hq]

lemma Holds.msgget (h : Holds p s free lists) (key : Int) (flag : GetFlags) :
    Holds p (Msg.msgget p s key flag).2 free lists := by
  unfold Msg.msgget
  split
  · exact h
  · rename_i q new hget
    cases new with
    | false => exact h
    | true => exact h.newQueue key flag.perms (ipcget_new hget)

lemma Holds.msgctlSet (h : Holds p s free lists) (msqid : Int) (permitted : Bool) (perms : BitVec 9) (qbytes : Nat) :
    Holds p (Msg.msgctlSet p s msqid permitted perms qbytes).2 free lists := by
  unfold Msg.msgctlSet
  split
  · exact h
  · split
    · exact h.setQueue rfl rfl rfl rfl rfl
    · exact h

end Get

end Effects

end Solaris.Msg
