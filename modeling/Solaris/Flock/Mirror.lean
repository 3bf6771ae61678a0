import Solaris.Flock.Process
import Solaris.Flock.ProcUpdate

/-!
# The process graph mirrors the lock graphs

The lock edges are counted by the owners of their ends, and every event changes the
process graph by as much as it changes these counts.
-/

namespace Solaris.Flock

open Lib List Function Nat

variable {lock : Nat → LockDescriptor} {inn : Nat → List Nat} {d d' : Deps} {n l rq : Nat} {g g' : Graph}
  {base m : Owner → Owner → Nat} {ps : ProcState}

/-- The edges into `t`, by the owners of their ends. -/
def inPairs (lock : Nat → LockDescriptor) (inn : Nat → List Nat) (t : Nat) : List (Owner × Owner) :=
  (inn t).map (fun s => ((lock s).owner, (lock t).owner))

/-- The number of lock edges from locks of `a` to locks of `b`. -/
def inCount (lock : Nat → LockDescriptor) (inn : Nat → List Nat) (n : Nat) (a b : Owner) : Nat :=
  ∑ t ∈ Finset.range n, (inPairs lock inn t).count (a, b)

lemma inCount_update (lock : Nat → LockDescriptor) (inn : Nat → List Nat) (hl : l < n) (xs : List Nat) (a b : Owner) :
    inCount lock (update inn l xs) n a b + (inPairs lock inn l).count (a, b) =
      inCount lock inn n a b + (xs.map (fun s => ((lock s).owner, (lock l).owner))).count (a, b) := by
  have hm : l ∈ Finset.range n := Finset.mem_range.mpr hl
  unfold inCount
  rw [← Finset.add_sum_erase _ _ hm, ← Finset.add_sum_erase (Finset.range n) (fun t => (inPairs lock inn t).count (a, b)) hm]
  have hrest : ∑ t ∈ (Finset.range n).erase l, (inPairs lock (update inn l xs) t).count (a, b) =
      ∑ t ∈ (Finset.range n).erase l, (inPairs lock inn t).count (a, b) := by
    apply Finset.sum_congr rfl
    intro t ht
    unfold inPairs
    rw [update_of_ne (Finset.ne_of_mem_erase ht)]
  have hself : inPairs lock (update inn l xs) l = xs.map (fun s => ((lock s).owner, (lock l).owner)) := by
    unfold inPairs
    rw [update_self]
  rw [hrest, hself]
  omega

lemma plusOne_eq (m : Owner → Owner → Nat) (x y a b : Owner) :
    plusOne m x y a b = m a b + if ((x, y) == (a, b)) = true then 1 else 0 := by
  unfold plusOne
  simp only [beq_iff_eq, Prod.mk.injEq, eq_comm (a := a), eq_comm (a := b)]

lemma inCount_addEdge (lock : Nat → LockDescriptor) (d : Deps) (s : Nat) {t : Nat} (ht : t < n) :
    inCount lock (d.addEdge s t).inn n = plusOne (inCount lock d.inn n) (lock s).owner (lock t).owner := by
  funext a b
  have hu := inCount_update lock d.inn ht (s :: d.inn t) a b
  rw [map_cons, count_cons] at hu
  have hold : (d.inn t).map (fun s => ((lock s).owner, (lock t).owner)) = inPairs lock d.inn t := rfl
  rw [hold] at hu
  have heq : inCount lock (d.addEdge s t).inn n a b = inCount lock (update d.inn t (s :: d.inn t)) n a b := rfl
  rw [heq]
  rw [plusOne_eq]
  omega

lemma inCount_clear (lock : Nat → LockDescriptor) (inn : Nat → List Nat) (hl : l < n) :
    inCount lock inn n = plusAll (inCount lock (update inn l []) n) (inPairs lock inn l) := by
  funext a b
  have hu := inCount_update lock inn hl [] a b
  exact hu.symm

lemma inCount_erase (lock : Nat → LockDescriptor) (inn : Nat → List Nat) {s t : Nat} (ht : t < n) (hs : s ∈ inn t) :
    inCount lock inn n =
      plusOne (inCount lock (update inn t ((inn t).erase s)) n) (lock s).owner (lock t).owner := by
  funext a b
  have hu := inCount_update lock inn ht ((inn t).erase s) a b
  have hperm : (inPairs lock inn t).Perm
      (((lock s).owner, (lock t).owner) :: ((inn t).erase s).map (fun s => ((lock s).owner, (lock t).owner))) := by
    have hp := (perm_cons_erase hs).map (fun s => ((lock s).owner, (lock t).owner))
    exact hp
  rw [hperm.count_eq, count_cons] at hu
  rw [plusOne_eq]
  omega

lemma inCount_congr {lock' : Nat → LockDescriptor} {inn' : Nat → List Nat} {n' : Nat} (hn : n ≤ n')
    (hinn : ∀ t, (inn' t).Perm (inn t)) (hnew : ∀ t, n ≤ t → inn t = [])
    (hown : ∀ t s, s ∈ inn t → (lock' s).owner = (lock s).owner ∧ (lock' t).owner = (lock t).owner) :
    inCount lock' inn' n' = inCount lock inn n := by
  funext a b
  have hpairs : ∀ t, (inPairs lock' inn' t).Perm (inPairs lock inn t) := by
    intro t
    have h1 : (inPairs lock' inn' t).Perm ((inn t).map (fun s => ((lock' s).owner, (lock' t).owner))) :=
      (hinn t).map _
    have h2 : (inn t).map (fun s => ((lock' s).owner, (lock' t).owner)) = inPairs lock inn t := by
      apply map_congr_left
      intro s hs
      rw [(hown t s hs).1, (hown t s hs).2]
    rw [h2] at h1
    exact h1
  unfold inCount
  have hsub : Finset.range n ⊆ Finset.range n' := Finset.range_subset_range.mpr hn
  rw [Finset.sum_congr rfl (fun t _ => (hpairs t).count_eq (a, b))]
  symm
  apply Finset.sum_subset hsub
  intro t _ ht
  rw [Finset.mem_range, not_lt] at ht
  unfold inPairs
  rw [hnew t ht]
  rfl

/-- The process graph represents the lock edges of `g` and those counted in `base`. -/
def Mirrors (base : Owner → Owner → Nat) (g : Graph) : Prop :=
  Counts (fun a b => base a b + inCount g.lock g.deps.inn g.next a b) (fun _ => False) g.ps.pg.vertex

lemma blocks_owner {l1 l2 : LockDescriptor} (h : blocks l1 l2 = true) : l1.owner ≠ l2.owner := by
  intro ho
  rw [not_blocks_of_owner ho] at h
  exact Bool.noConfusion h

lemma Grown.counts (base : Owner → Owner → Nat) {A : Nat → Nat → Prop} {d0 : Deps} {ps0 : ProcState} (hg : Grown lock true A d0 ps0 d ps)
    (hA : ∀ v t, A v t → t < n ∧ blocks (lock t) (lock v) = true)
    (h : Counts (fun a b => base a b + inCount lock d0.inn n a b) (fun _ => False) ps0.pg.vertex) :
    Counts (fun a b => base a b + inCount lock d.inn n a b) (fun _ => False) ps.pg.vertex := by
  induction hg with
  | start hs =>
    rw [hs.inn]
    exact h
  | @add d d' ps v t _ hvt _ hs ih =>
    obtain ⟨ht, hb⟩ := hA v t hvt
    have hc := flkUpdateProcGraph_add ih (Ne.symm (blocks_owner hb))
    apply hc.congr
    intro a b
    rw [hs.inn, inCount_addEdge lock d v ht]
    simp only [plusOne]
    omega

lemma procDrop_counts {xs : List Nat} (hx : ∀ x ∈ xs, (lock x).owner ≠ (lock l).owner)
    (h : Counts (plusAll m (xs.map (fun s => ((lock s).owner, (lock l).owner)))) (fun _ => False) ps.pg.vertex) :
    Counts m (fun _ => False) (procDrop lock l xs ps).pg.vertex := by
  induction xs generalizing ps with
  | nil => exact h
  | cons x xs ih =>
    rw [map_cons, plusAll_cons] at h
    exact ih (fun y hy => hx y (by simp [hy])) (flkUpdateProcGraph_delete h (hx x (by simp)))

lemma counts_clear (hl : l < n) (hx : ∀ s ∈ inn l, (lock s).owner ≠ (lock l).owner)
    (h : Counts (fun a b => base a b + inCount lock inn n a b) (fun _ => False) ps.pg.vertex) :
    Counts (fun a b => base a b + inCount lock (update inn l []) n a b) (fun _ => False)
      (procDrop lock l (inn l) ps).pg.vertex := by
  apply procDrop_counts hx
  apply h.congr
  intro a b
  rw [inCount_clear lock inn hl]
  simp only [plusAll, inPairs]
  omega

lemma counts_removeAdj (ts : List Nat) (hnd : ts.Nodup) (hb : ∀ t ∈ ts, t < n ∧ (lock t).owner ≠ (lock l).owner ∧ l ∈ d.inn t)
    (h : Counts (fun a b => base a b + inCount lock d.inn n a b) (fun _ => False) ps.pg.vertex) :
    Counts (fun a b => base a b +
        inCount lock (ts.foldl (fun d t => (d.inListRemove l t).adjListRemove l t) d).inn n a b) (fun _ => False)
      (ts.foldl (fun ps t => flkUpdateProcGraph lock ps l t true) ps).pg.vertex := by
  induction ts generalizing d ps with
  | nil => exact h
  | cons t ts ih =>
    obtain ⟨ht, hne, hm⟩ := hb t (by simp)
    rw [nodup_cons] at hnd
    have hinn : ((d.inListRemove l t).adjListRemove l t).inn = update d.inn t ((d.inn t).erase l) := rfl
    apply ih hnd.2
    · intro k hk
      have hkt : k ≠ t := fun he => hnd.1 (he ▸ hk)
      rw [hinn, update_of_ne hkt]
      exact hb k (by simp [hk])
    · apply flkUpdateProcGraph_delete _ (Ne.symm hne)
      apply h.congr
      intro a b
      rw [hinn, inCount_erase lock d.inn ht hm]
      simp only [plusOne]
      omega

lemma inCount_removeAdj (ts : List Nat) (hnd : ts.Nodup) (hb : ∀ t ∈ ts, t < n ∧ l ∈ d.inn t) :
    inCount lock d.inn n = plusAll (inCount lock
      (ts.foldl (fun d t => (d.inListRemove l t).adjListRemove l t) d).inn n)
      (ts.map (fun t => ((lock l).owner, (lock t).owner))) := by
  induction ts generalizing d with
  | nil => rfl
  | cons t ts ih =>
    obtain ⟨ht, hm⟩ := hb t (by simp)
    rw [nodup_cons] at hnd
    have hinn : ((d.inListRemove l t).adjListRemove l t).inn = update d.inn t ((d.inn t).erase l) := rfl
    rw [foldl_cons, map_cons, plusAll_cons, ← ih hnd.2, hinn, inCount_erase lock d.inn ht hm]
    intro k hk
    have hkt : k ≠ t := fun he => hnd.1 (he ▸ hk)
    rw [hinn, update_of_ne hkt]
    exact hb k (by simp [hk])

lemma Mirrors.same (h : Mirrors base g) (hlock : g'.lock = g.lock) (hnext : g'.next = g.next)
    (hinn : g'.deps.inn = g.deps.inn) (hps : g'.ps.pg = g.ps.pg) : Mirrors base g' := by
  unfold Mirrors
  rw [hlock, hnext, hinn, hps]
  exact h

lemma Mirrors.wakeup (h : Mirrors base g) (hl : l < g.next) (hnd : (g.deps.inn l).Nodup)
    (hx : ∀ s ∈ g.deps.inn l, (g.lock s).owner ≠ (g.lock l).owner) (adjListRemove : Bool) :
    Mirrors base (flkWakeup g l adjListRemove) := by
  have hw := flkWakeup_woken g l adjListRemove hnd
  unfold Mirrors
  rw [hw.lists.lock, hw.lists.next, hw.inn, hw.ps]
  exact counts_clear hl hx h

lemma Waits.owner_ne {sleeping : List Nat} {E : Nat → Prop} (h : Waits lock sleeping E d) {s t : Nat}
    (hs : s ∈ d.inn t) : (lock s).owner ≠ (lock t).owner := by
  rw [← h.paired.mem] at hs
  exact Ne.symm (blocks_owner (h.edge s t hs).2.2.2)

lemma Mirrors.turn (h : Mirrors base g) (he : ExecInv g rq) (hi : ListInv g) (hp : Pending g rq) (hl : Mine g rq l) :
    Mirrors base (flkRelation g l rq).1 := by
  rcases he.turned hi hp hl with heq | ⟨r', pieces, ids, wake, hx, ht, -⟩
  · rw [heq]
    exact h
  obtain ⟨d0, d, ps0, ps, hd0, hps0, hg, hdl, hinn, hps⟩ := ht.followed
  set g' := (flkRelation g l rq).1
  have hown : ∀ a < g.next, (g'.lock a).owner = (g.lock a).owner := by
    intro a ha
    by_cases har : a = rq
    · subst har
      rw [hx.lock_rq]
      exact hx.replaced.same.owner
    · rw [hx.lock_of a ha har]
  have hlt : ∀ t s, s ∈ g.deps.inn t → s < g.next ∧ t < g.next := by
    intro t s hs
    constructor
    · by_contra hn
      rw [← he.waits.paired.mem, (he.no_edges hi hp (not_lt.mp hn)).1] at hs
      exact not_mem_nil hs
    · by_contra hn
      rw [(he.no_edges hi hp (not_lt.mp hn)).2] at hs
      exact not_mem_nil hs
  have hcount : inCount g'.lock d0.inn g'.next = inCount g.lock g.deps.inn g.next := by
    rw [hd0]
    apply inCount_congr hx.next_le (fun t => List.Perm.refl _) fun t ht => (he.no_edges hi hp ht).2
    intro t s hs
    exact ⟨hown s (hlt t s hs).1, hown t (hlt t s hs).2⟩
  have hc := hg.counts base (fun v t hvt => hvt) (by
    rw [hcount, hps0]
    exact h)
  have hln : l < g.next := hi.lt l hl.1
  unfold Mirrors
  rw [hinn, hps, ← hdl]
  apply counts_clear (lt_of_lt_of_le hln hx.next_le) _ hc
  intro s hs
  rw [hdl] at hs
  rw [hown s (hlt l s hs).1, hown l hln]
  exact he.waits.owner_ne hs

lemma Mirrors.execute (h : Mirrors base g) (he : ExecInv g rq) (hi : ListInv g) (hp : Pending g rq) :
    Mirrors base (flkExecuteRequest g rq) := by
  cases hio : (g.lState rq).ioLock with
  | true =>
    have heq : flkExecuteRequest g rq = g := by
      unfold flkExecuteRequest
      rw [hio]
      rfl
    rw [heq]
    exact h
  | false =>
    obtain ⟨g', hw, heq⟩ := flkExecuteRequest_walked (P := fun g => ExecInv g rq ∧ Mirrors base g) hi hp hio
      (fun _ _ hi hp hm hk => ⟨hk.1.turn hi hp hm, hk.2.turn hk.1 hi hp hm⟩) ⟨he, h⟩
    rw [heq]
    split
    · exact hw.kept.2
    · exact hw.kept.2.same (by simp) (by simp) (by simp) (by simp)

lemma Mirrors.cancel (h : Mirrors base g) (hv : Inv g) (hrq : rq ∈ g.sleeping) :
    Mirrors base (flkCancelSleepingLock g rq) := by
  have hrec := hv.recomputable_cancel hrq
  have hred : Recomputed g.lock (cancelTopology g rq) g.deps (cancelDeps g rq).1 rq :=
    recompute_unhooked g.lock hv.waits.paired hrec g.ps true
  have hg := (flkRecomputeDependencies_spec g.lock true hrec g.ps).1
  have hlt : ∀ s t, t ∈ g.deps.adj s → t < g.next := fun s t hst =>
    (hv.waits.lt_next hv.sleep.lt hv.list.lt hst).2
  have htop : ∀ t ∈ cancelTopology g rq, t < g.next := by
    intro t ht
    obtain ⟨b, -, hb⟩ := Relation.TransGen.tail'_iff.mp (hv.mem_cancelTopology.mp ht)
    exact hlt b t hb
  have hc1 : Counts (fun a b => base a b + inCount g.lock (cancelDeps g rq).1.inn g.next a b) (fun _ => False)
      (cancelDeps g rq).2.pg.vertex := by
    apply hg.counts base
    · rintro v t ⟨-, ht, hb⟩
      exact ⟨htop t ht, hb⟩
    · rw [(unhookInEdges_spec g.deps rq (hv.waits.paired.inn_nodup rq)).2.1]
      exact h
  -- the edges that leave the lock go first, those that enter it with the wakeup
  have hedge : ∀ s t, t ∈ (cancelDeps g rq).1.adj s → t < g.next ∧ blocks (g.lock t) (g.lock s) = true ∧ t ≠ rq := by
    intro s t hst
    have hne : t ≠ rq := fun he => hred.mirrored.gone s t he hst
    rcases hred.edges s t hst with ⟨hst, -⟩ | ⟨-, ht, hb⟩
    · exact ⟨hlt s t hst, (hv.waits.edge s t hst).2.2.2, hne⟩
    · exact ⟨htop t ht, hb, hne⟩
  have hc2 := counts_removeAdj ((cancelDeps g rq).1.adj rq)
    (hred.mirrored.adj_nodup rq) (fun t ht => by
      obtain ⟨h1, h2, h3⟩ := hedge rq t ht
      exact ⟨h1, blocks_owner h2, (hred.mirrored.mirror rq t h3).mp ht⟩) hc1
  obtain ⟨-, hi⟩ := removeAdjEdges_spec (cancelDeps g rq).1 rq (hred.mirrored.adj_nodup rq)
  have hinnrq : ((cancelDeps g rq).1.removeAdjEdges rq).inn rq = g.deps.inn rq := by
    rw [hi rq, if_neg (hred.mirrored.gone rq rq rfl), hred.inn_root]
  have hgoal : ∀ g₁ : Graph, g₁.lock = g.lock → g₁.next = g.next → g₁.deps = (cancelDeps g rq).1.removeAdjEdges rq →
      g₁.ps = ((cancelDeps g rq).1.adj rq).foldl (fun ps t => flkUpdateProcGraph g.lock ps rq t true)
        (cancelDeps g rq).2 → Mirrors base (flkWakeup g₁ rq false) := by
    intro g₁ hlock hnext hdeps hps
    have hm : Mirrors base g₁ := by
      unfold Mirrors
      rw [hlock, hnext, hdeps, hps]
      exact hc2
    apply hm.wakeup
    · rw [hnext]
      exact hv.sleep.lt rq hrq
    · rw [hdeps, hinnrq]
      exact hv.waits.paired.inn_nodup rq
    · rw [hdeps, hinnrq, hlock]
      exact fun s hs => hv.waits.owner_ne hs
  exact hgoal _ rfl rfl rfl rfl

lemma Inv.inn_lt (h : Inv g) {s t : Nat} (hs : s ∈ g.deps.inn t) : s < g.next ∧ t < g.next := by
  rw [← h.waits.paired.mem] at hs
  exact h.waits.lt_next h.sleep.lt h.list.lt hs

lemma Mirrors.arrive (h : Mirrors base g) (hv : Inv g) (desc : LockDescriptor) (state : LockState)
    (pv : Option Nat) : Mirrors base (flkGetLock g desc state pv).2 := by
  have hne : g.deps.adj g.next = [] ∧ g.deps.inn g.next = [] := by
    constructor
    · exact hv.waits.sink fun hs => lt_irrefl _ (hv.sleep.lt _ hs)
    · rw [eq_nil_iff_forall_not_mem]
      intro s hs
      exact lt_irrefl _ (hv.inn_lt hs).2
  have hcount : inCount (flkGetLock g desc state pv).2.lock (flkGetLock g desc state pv).2.deps.inn
      (flkGetLock g desc state pv).2.next = inCount g.lock g.deps.inn g.next := by
    rw [(flkGetLock_edges hne desc state pv).inn]
    apply inCount_congr (le_succ _) fun t => List.Perm.refl _
    · intro t ht
      rw [eq_nil_iff_forall_not_mem]
      intro s hs
      exact absurd (hv.inn_lt hs).2 (not_lt.mpr ht)
    · intro t s hs
      have hlt := hv.inn_lt hs
      simp only [flkGetLock]
      rw [update_of_ne (by omega), update_of_ne (by omega)]
      exact ⟨rfl, rfl⟩
  unfold Mirrors
  rw [hcount]
  exact h

lemma Paired.inn_perm (h : Paired d) (h' : Paired d') (hd : ∀ s t, t ∈ d.adj s ↔ t ∈ d'.adj s) (t : Nat) :
    (d.inn t).Perm (d'.inn t) := by
  rw [perm_ext_iff_of_nodup (h.inn_nodup t) (h'.inn_nodup t)]
  intro s
  rw [← h.mem, ← h'.mem]
  exact hd s t

lemma Inv.inCount_congr (h : Inv g) (hp : Paired d) (hd : ∀ s t, t ∈ d.adj s ↔ t ∈ g.deps.adj s) :
    inCount g.lock d.inn g.next = inCount g.lock g.deps.inn g.next := by
  apply Flock.inCount_congr le_rfl (hp.inn_perm h.waits.paired hd) _ fun _ _ _ => ⟨rfl, rfl⟩
  intro t ht
  rw [eq_nil_iff_forall_not_mem]
  intro s hs
  exact absurd (h.inn_lt hs).2 (not_lt.mpr ht)

lemma Mirrors.edges (h : Mirrors base g) (hv : Inv g) (hp : Paired d) (hd : ∀ s t, t ∈ d.adj s ↔ t ∈ g.deps.adj s)
    (hps : ps.pg.vertex = g.ps.pg.vertex) : Mirrors base { g with deps := d, ps := ps } := by
  unfold Mirrors
  rw [hv.inCount_congr hp hd, hps]
  exact h

section

variable (hj : Joined g d rq) (h : Arrived g rq)

include hj h

lemma Joined.self : rq ∉ d.adj rq := by
  intro hm
  rcases hj.new rq rq hm with hm | ⟨-, hb, -⟩
  · exact h.asleep (h.inv.waits.edge rq rq hm).1
  · exact blocks_owner hb rfl

lemma Joined.removed : Paired ((d.removeAdjEdges rq).removeInEdges rq) ∧
    ∀ s t, t ∈ ((d.removeAdjEdges rq).removeInEdges rq).adj s ↔ t ∈ g.deps.adj s := by
  obtain ⟨h1, h2⟩ := removeAdjEdges_paired hj.paired rq
  obtain ⟨h3, h4⟩ := removeInEdges_paired h1 rq
  refine ⟨h3, ?_⟩
  intro s t
  rw [h4, h2]
  constructor
  · rintro ⟨⟨hst, hs⟩, ht⟩
    rcases hj.new s t hst with hst | ⟨hst | hst, -⟩
    · exact hst
    · exact absurd hst hs
    · exact absurd hst ht
  · intro hst
    refine ⟨⟨hj.old s t hst, ?_⟩, ?_⟩
    · rintro rfl
      exact h.asleep (h.inv.waits.edge s t hst).1
    · rintro rfl
      rcases (h.inv.waits.edge s t hst).2.1 with ht | ht
      · exact h.asleep ht.1
      · exact h.pending.fresh ht

lemma Joined.inCount_eq : inCount g.lock d.inn g.next =
    plusAll (inCount g.lock g.deps.inn g.next) (edgesOf g.lock rq (d.adj rq) (d.inn rq)) := by
  obtain ⟨hrp, hrm⟩ := hj.removed h
  obtain ⟨hp1, -⟩ := removeAdjEdges_paired hj.paired rq
  have h1 : inCount g.lock d.inn g.next = plusAll (inCount g.lock (d.removeAdjEdges rq).inn g.next)
      ((d.adj rq).map (fun t => ((g.lock rq).owner, (g.lock t).owner))) := by
    apply inCount_removeAdj _ (hj.paired.adj_nodup rq)
    intro t ht
    refine ⟨?_, hj.paired.mem.mp ht⟩
    rcases hj.new rq t ht with ht | ⟨-, -, ht⟩
    · exact absurd (h.inv.waits.edge rq t ht).1 h.asleep
    · exact ht
  have h2 := inCount_clear g.lock (d.removeAdjEdges rq).inn h.pending.lt
  have hinn : (d.removeAdjEdges rq).inn rq = d.inn rq := by
    rw [(removeAdjEdges_spec d rq (hj.paired.adj_nodup rq)).2, if_neg (hj.self h)]
  have h3 : update (d.removeAdjEdges rq).inn rq [] = ((d.removeAdjEdges rq).removeInEdges rq).inn :=
    (removeInEdges_spec _ rq (hp1.inn_nodup rq)).1.symm
  have h4 := h.inv.inCount_congr hrp hrm
  funext a b
  rw [h1, h2, h3, h4]
  simp only [plusAll, edgesOf, inPairs, count_append, hinn]
  omega

lemma Joined.adj_owner : ∀ t ∈ d.adj rq, (g.lock t).owner ≠ (g.lock rq).owner := by
  intro t ht
  rcases hj.new rq t ht with ht | ⟨-, hb, -⟩
  · exact absurd (h.inv.waits.edge rq t ht).1 h.asleep
  · exact blocks_owner hb

lemma Joined.inn_owner : ∀ s ∈ d.inn rq, (g.lock s).owner ≠ (g.lock rq).owner := by
  intro s hs
  rw [← hj.paired.mem] at hs
  rcases hj.new s rq hs with hs | ⟨-, hb, -⟩
  · exact Ne.symm (blocks_owner (h.inv.waits.edge s rq hs).2.2.2)
  · exact Ne.symm (blocks_owner hb)

lemma Joined.mirrors (hm : Mirrors base g)
    (hsome : d.adj rq ≠ [] ∨ d.inn rq ≠ []) (hc : (flkCheckDeadlock { g with deps := d } rq).1 = false) :
    Mirrors base (flkCheckDeadlock { g with deps := d } rq).2 := by
  rw [flkCheckDeadlock_alive hc]
  rw [flkCheckDeadlock_fst] at hc
  have hcount := procCheckDeadlock_counts hm (hj.adj_owner h) (hj.inn_owner h) hsome hc
  unfold Mirrors
  rw [hj.inCount_eq h]
  apply hcount.congr
  intro a b
  simp only [plusAll]
  omega

lemma Joined.mirrors_dead (hm : Mirrors base g)
    (hc : (flkCheckDeadlock { g with deps := d } rq).1 = true) :
    Mirrors base (flkCheckDeadlock { g with deps := d } rq).2 := by
  rw [flkCheckDeadlock_dead hc]
  rw [flkCheckDeadlock_fst] at hc
  obtain ⟨h1, h2⟩ := hj.removed h
  exact hm.edges h.inv h1 h2 (procCheckDeadlock_undone hm (hj.adj_owner h) (hj.inn_owner h) hc)

end

lemma Mirrors.finish (h : Mirrors base g) (he : ExecInv g rq) (hi : ListInv g) (hp : Pending g rq) :
    Mirrors base (reclockEnd (g.lState rq).ioLock rq (flkExecuteRequest g rq, .done)).1 := by
  have hx := h.execute he hi hp
  unfold reclockEnd
  cases hio : (g.lState rq).ioLock with
  | true =>
    have hex : flkExecuteRequest g rq = g := by
      unfold flkExecuteRequest
      rw [hio]
      rfl
    rw [if_pos ⟨rfl, rfl⟩, hex]
    exact h.wakeup hp.lt (he.waits.paired.inn_nodup rq) (fun s hs => he.waits.owner_ne hs) true
  | false =>
    exact hx

lemma Mirrors.waitBegin (h : Mirrors base g) (hv : Inv (flkInsertSleepingLock g rq)) :
    Mirrors base (flkWaitBegin g rq).1 := by
  have hs : Mirrors base (flkInsertSleepingLock g rq) := h.same rfl rfl rfl rfl
  unfold flkWaitBegin
  simp only
  split
  · exact hs.cancel hv ((mem_flkInsertSleepingLock g rq).mpr (.inl rfl))
  · exact hs

lemma Processed.mirrors {r : Graph × Outcome} (hr : Processed g rq r) (h : Arrived g rq) (hm : Mirrors base g) :
    Mirrors base (reclockEnd (g.lState rq).ioLock rq r).1 := by
  have hp : ∀ (d : Deps) (ps : ProcState), Pending { g with deps := d, ps := ps } rq :=
    fun _ _ => ⟨h.pending.lt, h.pending.fresh, h.pending.ranged⟩
  have hlist : ∀ (d : Deps) (ps : ProcState), ListInv { g with deps := d, ps := ps } :=
    fun _ _ => h.inv.list.same ⟨rfl, rfl, rfl, rfl, rfl⟩
  cases hr with
  | again =>
    rw [reclockEnd_of_ne (by simp)]
    exact hm
  | dead hpd hd =>
    rw [reclockEnd_of_ne (by simp)]
    exact hm.edges h.inv hpd hd rfl
  | deadlock hj hc =>
    rw [reclockEnd_of_ne (by simp)]
    exact hj.mirrors_dead h hm hc
  | queue hj hsome hinv hc =>
    have hmir := hj.mirrors h hm hsome hc
    rw [flkCheckDeadlock_alive hc] at hmir ⊢
    rw [reclockEnd_of_ne (flkWaitBegin_inv (hinv _)).2]
    exact hmir.waitBegin (hinv _)
  | run hj hsome hexec hc =>
    have hmir := hj.mirrors h hm hsome hc
    rw [flkCheckDeadlock_alive hc] at hmir ⊢
    exact hmir.finish (hexec _) (hlist _ _) (hp _ _)
  | runFree hpd hd hexec =>
    have hmir : Mirrors base { g with deps := _, ps := g.ps } := hm.edges h.inv hpd hd rfl
    exact hmir.finish hexec (hlist _ _) (hp _ _)

section

variable (h : Mirrors base g)

include h

lemma reclockLock_mirrors (hv : Inv g) {r : Request} (hr : r.desc.Ranged)
    (hu : r.desc.lType ≠ .unlck) : Mirrors base (reclockLock g r).1 := by
  obtain ⟨ha, o, hp, heq⟩ := reclockLock_processed hv hr hu
  rw [heq]
  exact hp.mirrors ha (h.arrive hv r.desc r.state none)

lemma interruptWakeup_mirrors (l : Nat) : Mirrors base (interruptWakeup g l) :=
  h.same rfl rfl rfl rfl

lemma cancelWakeup_mirrors (l : Nat) : Mirrors base (cancelWakeup g l) :=
  h.same rfl rfl rfl rfl

lemma reclockUnlock_mirrors (hv : Inv g) {r : Request} (hr : r.desc.Ranged) :
    Mirrors base (reclockUnlock g r) := by
  rcases reclockUnlock_cases hv hr with ⟨l, heq⟩ | ⟨desc, heq, ha, hexec⟩
  · rw [heq]
    exact interruptWakeup_mirrors h l
  · rw [heq]
    exact (h.arrive hv desc r.state none).execute hexec ha.inv.list ha.pending

lemma flkWaitEnd_mirrors (hv : Inv g) (hrq : rq ∈ g.sleeping)
    (hwake : (g.lState rq).granted ∨ (g.lState rq).cancelled ∨ (g.lState rq).interrupted) :
    Mirrors base (reclockEnd (g.lState rq).ioLock rq (flkWaitEnd g rq)).1 := by
  rcases flkWaitEnd_cases hv hrq hwake with ⟨e, heq⟩ | ⟨st, hio, hexec, heq⟩
  · rw [heq, reclockEnd_of_ne (by simp)]
    exact h.cancel hv hrq
  · obtain ⟨h1, h2, -⟩ := hv.pending_woken hrq st
    have hs : Mirrors base { g with lState := st, sleeping := g.sleeping.erase rq } := h.same rfl rfl rfl rfl
    rw [heq, ← hio]
    exact hs.finish hexec h1 h2

lemma resume_mirrors (hv : Inv g) {signal : Bool} (hrq : rq ∈ g.sleeping)
    (hwake : signal = true ∨ (g.lState rq).granted ∨ (g.lState rq).cancelled ∨ (g.lState rq).interrupted) :
    Mirrors base (resume g rq signal).1 := by
  unfold resume
  cases signal with
  | true =>
    apply flkWaitEnd_mirrors (interruptWakeup_mirrors h rq) (interruptWakeup_inv hv rq) hrq
    right; right
    simp [interruptWakeup, Graph.setState]
  | false =>
    apply flkWaitEnd_mirrors h hv hrq
    simpa using hwake

end

lemma Mirrors.foldl {f : Graph → Nat → Graph} (hf : ∀ g l, Mirrors base g → Mirrors base (f g l)) (ls : List Nat)
    (h : Mirrors base g) : Mirrors base (ls.foldl f g) := by
  induction ls generalizing g with
  | nil => exact h
  | cons l ls ih =>
    exact ih (hf g l h)

lemma Mirrors.release {ls : List Nat} (h : Mirrors base g) (hv : Inv g) (hnd : ls.Nodup)
    (hls : ∀ l ∈ ls, l ∈ g.active) : Mirrors base (ls.foldl releaseActive g) := by
  induction ls generalizing g with
  | nil => exact h
  | cons l ls ih =>
    rw [nodup_cons] at hnd
    have hl := hls l (by simp)
    have hdel : Mirrors base (flkDeleteActiveLock g l) := h.same rfl rfl rfl rfl
    have hrel : Mirrors base (releaseActive g l) :=
      hdel.wakeup (hv.list.lt l hl) (hv.waits.paired.inn_nodup l) (fun s hs => hv.waits.owner_ne hs) true
    apply ih hrel (releaseActive_inv hv hl) hnd.2
    intro k hk
    rw [releaseActive_active, hv.list.ok.nodup.mem_erase_iff]
    refine ⟨?_, hls k (by simp [hk])⟩
    rintro rfl
    exact hnd.1 hk

lemma Mirrors.wakeups {E B : Nat → Prop} {ls : List Nat} (h : Mirrors base g) (hc : Core g E B)
    (hls : ∀ l ∈ ls, l ∉ g.sleeping ∧ l < g.next) :
    Mirrors base (ls.foldl (fun g l => flkWakeup g l true) g) := by
  induction ls generalizing g E B with
  | nil => exact h
  | cons l ls ih =>
    obtain ⟨hl, hlt⟩ := hls l (by simp)
    have hs := flkWakeup_same g l true
    apply ih (h.wakeup hlt (hc.waits.paired.inn_nodup l) (fun s hs => hc.waits.owner_ne hs) true) (hc.wakeup hl)
    intro k hk
    rw [hs.sleeping, hs.next]
    exact hls k (by simp [hk])

lemma flkDeleteLocksBySysid_mirrors (h : Mirrors base g) (hv : Inv g) (sysid : Int) :
    Mirrors base (flkDeleteLocksBySysid g sysid) := by
  have h1 := foldl_inv (fun g l hg => interruptWakeup_inv hg l)
    (g.sleeping.filter (fun l => (g.lock l).lSysid == sysid)) hv
  have h2 := h.foldl (fun _ l hg => interruptWakeup_mirrors hg l)
    (g.sleeping.filter (fun l => (g.lock l).lSysid == sysid))
  apply h2.release h1
  · exact h1.list.ok.nodup.filter _
  · intro l hl
    exact (mem_filter.mp hl).1

lemma setLockmgrStatus_mirrors (h : Mirrors base g) (hv : Inv g) (status : LockmgrStatus) :
    Mirrors base (setLockmgrStatus g status) := by
  have h0 : Mirrors base { g with lockmgrStatus := status } := h.same rfl rfl rfl rfl
  have hv0 : Inv { g with lockmgrStatus := status } := hv.flags ⟨rfl, rfl, rfl, rfl, rfl⟩ rfl (fun _ => rfl)
  cases status with
  | up => exact h0
  | wakeupSleepers => exact h0.foldl (fun _ l hg => interruptWakeup_mirrors hg l) _
  | down =>
    apply h0.release hv0
    · exact hv0.list.ok.nodup.filter _
    · intro l hl
      exact (mem_filter.mp hl).1

lemma cleanlocks_mirrors (h : Mirrors base g) (hv : Inv g) (vp : Nat) (pid : Option Int) (sysid : Int) :
    Mirrors base (cleanlocks g vp pid sysid) := by
  unfold cleanlocks
  set mine := fun l => pid.all (fun p => (g.lock l).lPid == p) && (g.lock l).lSysid == sysid
  have h1 := foldl_inv (fun g l hg => cancelWakeup_inv hg l) ((g.sleepVp vp).filter mine) hv
  have hm1 := h.foldl (fun _ l hg => cancelWakeup_mirrors hg l) ((g.sleepVp vp).filter mine)
  set g1 := ((g.sleepVp vp).filter mine).foldl cancelWakeup g
  set ls := (g1.activeVp vp).filter mine with hls
  have hlsa : ∀ l ∈ ls, l ∈ g1.active := by
    intro l hl
    rw [hls, mem_filter, h1.list.ok.mem_activeVp] at hl
    exact hl.1.1
  have hnd : ls.Nodup := by
    rw [hls, h1.list.ok.activeVp]
    exact (h1.list.ok.nodup.filter _).filter _
  obtain ⟨-, -, hd⟩ := foldl_delete h1.list hnd hlsa
  have hcore : Core (ls.foldl flkDeleteActiveLock g1) (· ∈ g1.active) (· ∈ g1.active) :=
    h1.core.congr hd.lock hd.next hd.sleeping (by rw [hd.deps]; exact SameEdges.refl _) (fun s => by rw [hd.lState])
  have hm2 : Mirrors base (ls.foldl flkDeleteActiveLock g1) :=
    hm1.same hd.lock hd.next (by rw [hd.deps]) (by rw [hd.ps])
  apply hm2.wakeups hcore
  intro l hl
  rw [hd.sleeping, hd.next]
  have hl' := hlsa l (mem_reverse.mp hl)
  exact ⟨fun hx => h1.awake l hx hl', h1.list.lt l hl'⟩

lemma Event.apply_mirrors (h : Mirrors base g) (hv : Inv g) {e : Event} (he : e.Enabled g) :
    Mirrors base (e.apply g) := by
  cases e with
  | lock r => exact reclockLock_mirrors h hv he.1 he.2
  | unlock r => exact reclockUnlock_mirrors h hv he.1
  | resume l signal => exact resume_mirrors h hv he.1 he.2
  | deleteBySysid sysid => exact flkDeleteLocksBySysid_mirrors h hv sysid
  | clean vp pid sysid => exact cleanlocks_mirrors h hv vp pid sysid
  | lockmgr status => exact setLockmgrStatus_mirrors h hv status

end Solaris.Flock
