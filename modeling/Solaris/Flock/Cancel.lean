import Solaris.Flock.Sleepers

/-!
# Cancelling a sleeping lock

`flk_cancel_sleeping_lock` gives the dependents of the cancelled lock paths to all that it
waited for.
-/

namespace Solaris.Flock

open Lib List Function

variable {g : Graph} {rq : Nat}

/-- What is reachable from `rq`. -/
def reachable (g : Graph) (rq : Nat) : List Nat :=
  (search g.deps.adj (fun u _ => u) (fun u _ => u) (searchFuel g.next) ⟨[], [rq], ()⟩).seen

lemma Inv.mem_reachable (h : Inv g) {t : Nat} : t ∈ reachable g rq ↔ Path g.deps rq t := by
  have hu : ∀ v, ∀ w ∈ g.deps.adj v, w ∈ Finset.range g.next :=
    fun v w hw => Finset.mem_range.mpr (h.waits.lt_next h.sleep.lt h.list.lt hw).2
  exact mem_search (fun u _ => u) (fun u _ => u) hu () (searchFuel_enough g.next [] rq)

/-- The members of the lists that `rq` waits for. -/
def cancelTopology (g : Graph) (rq : Nat) : List Nat :=
  (g.sleepVp (g.lock rq).lVnode ++ g.activeVp (g.lock rq).lVnode).filter (· ∈ reachable g rq)

lemma Inv.mem_cancelTopology (h : Inv g) {t : Nat} : t ∈ cancelTopology g rq ↔ Path g.deps rq t := by
  simp only [cancelTopology, mem_filter, mem_append, h.sleep.mem_sleepVp, h.list.ok.mem_activeVp,
    decide_eq_true_eq, h.mem_reachable]
  constructor
  · exact fun hx => hx.2
  · intro hp
    have hv := h.waits.path_vnode hp
    refine ⟨?_, hp⟩
    rcases h.waits.path_target hp with ht | ht
    · exact .inl ⟨ht, hv⟩
    · exact .inr ⟨ht, hv⟩

lemma Inv.nodup_cancelTopology (h : Inv g) (rq : Nat) : (cancelTopology g rq).Nodup := by
  apply List.Nodup.filter
  rw [nodup_append]
  refine ⟨?_, ?_, ?_⟩
  · rw [h.sleep.sleepVp]
    exact h.sleep.nodup.filter _
  · rw [h.list.ok.activeVp]
    exact h.list.ok.nodup.filter _
  · intro a ha b hb hab
    rw [h.sleep.mem_sleepVp] at ha
    rw [h.list.ok.mem_activeVp] at hb
    exact h.awake a ha.1 (hab ▸ hb.1)

lemma path_without {d d' : Deps} {r s t : Nat} (hd : ∀ a, a ≠ r → d'.adj a = d.adj a) (hr : ∀ a, r ∉ d.adj a)
    (hs : s ≠ r) (hp : Path d s t) : Path d' s t := by
  have hstep : ∀ a b, a ≠ r → Step d.adj a b → Step d'.adj a b := by
    intro a b ha hab
    rw [Step, hd a ha]
    exact hab
  induction hp with
  | single hst => exact Relation.TransGen.single (hstep _ _ hs hst)
  | @tail b c hsb hbc ih =>
    have hb : b ≠ r := by
      rintro rfl
      obtain ⟨e, -, heb⟩ := Relation.TransGen.tail'_iff.mp hsb
      exact hr e heb
    exact Relation.TransGen.tail ih (hstep _ _ hb hbc)

/-- The edges and grants after `rq` is cancelled. -/
structure Cancelled (g g' : Graph) (rq : Nat) (d₂ : Deps) : Prop where
  lock : g'.lock = g.lock
  next : g'.next = g.next
  active : g'.active = g.active
  vFilocks : g'.vFilocks = g.vFilocks
  sleeping : g'.sleeping = g.sleeping.erase rq
  recomputed : Recomputed g.lock (cancelTopology g rq) g.deps d₂ rq
  adj : g'.deps.adj = update d₂.adj rq []
  inn : ∀ t, t ≠ rq → g'.deps.inn t = if t ∈ d₂.adj rq then (d₂.inn t).erase rq else d₂.inn t
  inn_rq : g'.deps.inn rq = []
  state : ∀ s, g'.lState s = if s ∈ g.deps.inn rq ∧ g'.deps.adj s = [] then
    { g.lState s with granted := true } else g.lState s

lemma Inv.recomputable_cancel (h : Inv g) (hrq : rq ∈ g.sleeping) :
    Recomputable g.next (sleepRank g.sleeping) (g.deps.unhookInEdges rq) rq (cancelTopology g rq) := by
  have hE : ∀ t, t ∈ g.active → t ∉ g.sleeping := fun t ht hs => h.awake t hs ht
  have hrank : ∀ t, Path g.deps rq t → sleepRank g.sleeping t < sleepRank g.sleeping rq := by
    intro t hp
    have hr : Ranked (sleepRank g.sleeping) g.deps := fun a b hab => h.waits.rank_lt hE hab
    exact hr.path hp
  apply h.waits.recomputable h.sleep.lt hE h.list.lt (h.sleep.lt rq hrq) (h.nodup_cancelTopology rq)
  · intro t ht
    have hp := h.mem_cancelTopology.mp ht
    obtain ⟨b, -, hbt⟩ := Relation.TransGen.tail'_iff.mp hp
    exact (h.waits.lt_next h.sleep.lt h.list.lt hbt).2
  · intro t ht
    exact le_of_lt (hrank t (h.mem_cancelTopology.mp ht))
  · intro hm
    exact lt_irrefl _ (hrank rq (h.mem_cancelTopology.mp hm))

/-- The dependency edges once they are recomputed for the dependents of `rq`. -/
def cancelDeps (g : Graph) (rq : Nat) : Deps × ProcState :=
  flkRecomputeDependencies g.lock g.next (g.deps.unhookInEdges rq) g.ps rq (cancelTopology g rq) true

lemma flkCancelSleepingLock_eq (g : Graph) (rq : Nat) :
    flkCancelSleepingLock g rq = flkWakeup
      { g with
        deps := (cancelDeps g rq).1.removeAdjEdges rq
        sleeping := g.sleeping.erase rq
        ps := ((cancelDeps g rq).1.adj rq).foldl (fun ps t => flkUpdateProcGraph g.lock ps rq t true)
          (cancelDeps g rq).2 } rq false := rfl

lemma flkCancelSleepingLock_cancelled (h : Inv g) (hrq : rq ∈ g.sleeping) :
    Cancelled g (flkCancelSleepingLock g rq) rq (cancelDeps g rq).1 := by
  have hred : Recomputed g.lock (cancelTopology g rq) g.deps (cancelDeps g rq).1 rq :=
    recompute_unhooked g.lock h.waits.paired (h.recomputable_cancel hrq) g.ps true
  set d₂ := (cancelDeps g rq).1 with hd2
  obtain ⟨ha, hi⟩ := removeAdjEdges_spec d₂ rq (hred.mirrored.adj_nodup rq)
  have hinnrq : (d₂.removeAdjEdges rq).inn rq = g.deps.inn rq := by
    rw [hi rq, if_neg (hred.mirrored.gone rq rq rfl), hred.inn_root]
  set g1 : Graph :=
    { g with
      deps := d₂.removeAdjEdges rq
      sleeping := g.sleeping.erase rq
      ps := (d₂.adj rq).foldl (fun ps t => flkUpdateProcGraph g.lock ps rq t true) (cancelDeps g rq).2 } with hg1
  have hg1inn : g1.deps.inn rq = g.deps.inn rq := hinnrq
  have hw := flkWakeup_woken g1 rq false (by rw [hg1inn]; exact h.waits.paired.inn_nodup rq)
  have heq : flkCancelSleepingLock g rq = flkWakeup g1 rq false := flkCancelSleepingLock_eq g rq
  rw [heq]
  refine ⟨hw.lists.lock, hw.lists.next, hw.lists.active, hw.lists.vFilocks, hw.lists.sleeping, hred, ?_, ?_, ?_, ?_⟩
  · funext s
    rw [hw.adj s, if_neg (by simp)]
    exact congrFun ha s
  · intro t ht
    rw [hw.inn, update_of_ne ht]
    exact hi t
  · rw [hw.inn, update_self]
  · intro s
    rw [hw.state s, hg1inn]

section Cancel

variable {g' : Graph} {d₂ : Deps}

lemma Cancelled.paired (hc : Cancelled g g' rq d₂) : Paired g'.deps := by
  have hm := hc.recomputed.mirrored
  have hadj : ∀ s, g'.deps.adj s = if s = rq then [] else d₂.adj s := by
    intro s
    rw [hc.adj]
    by_cases hs : s = rq
    · subst hs
      simp
    · simp [hs]
  refine ⟨?_, ?_, ?_, fun s t ht => absurd ht (fun hf => hf)⟩
  · intro s
    rw [hadj s]
    split
    · exact nodup_nil
    · exact hm.adj_nodup s
  · intro t
    by_cases ht : t = rq
    · subst ht
      rw [hc.inn_rq]
      exact nodup_nil
    · rw [hc.inn t ht]
      split
      · exact (hm.inn_nodup t).erase rq
      · exact hm.inn_nodup t
  · intro s t _
    rw [hadj s]
    by_cases ht : t = rq
    · subst ht
      rw [hc.inn_rq]
      have hgone := hm.gone s t rfl
      split
      · simp
      · exact iff_of_false hgone not_mem_nil
    rw [hc.inn t ht]
    have hmir := hm.mirror s t ht
    by_cases hs : s = rq
    · subst hs
      rw [if_pos rfl]
      split
      · rw [(hm.inn_nodup t).mem_erase_iff]
        simp
      · rename_i hnt
        exact iff_of_false not_mem_nil fun hx => hnt (hmir.mpr hx)
    · rw [if_neg hs]
      split
      · rw [(hm.inn_nodup t).mem_erase_iff, hmir]
        simp [hs]
      · exact hmir

lemma Cancelled.edges (h : Inv g) (hrq : rq ∈ g.sleeping) (hc : Cancelled g g' rq d₂) {s t : Nat}
    (hst : t ∈ g'.deps.adj s) : s ≠ rq ∧ t ≠ rq ∧ s ∈ g.sleeping ∧ ((t ∈ g.sleeping ∧ t < s) ∨ t ∈ g.active) ∧
      (g.lock t).lVnode = (g.lock s).lVnode ∧ blocks (g.lock t) (g.lock s) = true := by
  have hs : s ≠ rq := by
    rintro rfl
    rw [hc.adj, update_self] at hst
    exact not_mem_nil hst
  rw [hc.adj, update_of_ne hs] at hst
  have ht : t ≠ rq := fun he => hc.recomputed.mirrored.gone s t he hst
  rcases hc.recomputed.edges s t hst with ⟨hst, -⟩ | ⟨hp, htop, hb⟩
  · exact ⟨hs, ht, h.waits.edge s t hst⟩
  have hpt := h.mem_cancelTopology.mp htop
  have hss := h.waits.path_source hp
  refine ⟨hs, ht, hss, ?_, (h.waits.path_vnode hpt).trans (h.waits.path_vnode hp), hb⟩
  rcases h.waits.path_target hpt with htt | hta
  · have hr : Ranked (sleepRank g.sleeping) g.deps :=
      fun a b hab => h.waits.rank_lt (fun t ht hs => h.awake t hs ht) hab
    have hlt := hr.path (hp.trans hpt)
    unfold sleepRank at hlt
    rw [if_pos htt, if_pos hss] at hlt
    exact .inl ⟨htt, by omega⟩
  · exact .inr hta

lemma Cancelled.reaches (h : Inv g) (hc : Cancelled g g' rq d₂) {s t : Nat} (hs : s ≠ rq) (ht : t ≠ rq)
    (hp : Path g.deps s t) (hb : blocks (g.lock t) (g.lock s) = true) : Path g'.deps s t := by
  have hp2 : Path d₂ s t := by
    rcases path_split hc.recomputed.old hp ht with hp | ⟨h1, h2⟩
    · exact hp
    · exact hc.recomputed.gains s h1 t (h.mem_cancelTopology.mpr h2) hb
  apply path_without _ (fun a => hc.recomputed.mirrored.gone a rq rfl) hs hp2
  intro a ha
  rw [hc.adj, update_of_ne ha]

lemma Cancelled.granted (h : Inv g) (hc : Cancelled g g' rq d₂) {s : Nat} (hs : s ∈ g.sleeping) (hne : s ≠ rq) :
    (g'.lState s).granted = true ↔ g'.deps.adj s = [] := by
  have hg := h.granted s hs
  have hadj : g'.deps.adj s = d₂.adj s := by rw [hc.adj, update_of_ne hne]
  rw [hc.state s]
  by_cases hsr : rq ∈ g.deps.adj s
  · have hmem : s ∈ g.deps.inn rq := h.waits.paired.mem.mp hsr
    have hng : (g.lState s).granted ≠ true := by
      rw [Ne, hg]
      exact ne_nil_of_mem hsr
    by_cases hnil : g'.deps.adj s = []
    · simp [hmem, hnil]
    · simp only [hnil, and_false, if_false]
      exact iff_of_false hng fun hf => hf
  have hmem : s ∉ g.deps.inn rq := fun hm => hsr (h.waits.paired.mem.mpr hm)
  simp only [hmem, false_and, if_false]
  rw [hg, hadj]
  constructor
  · intro hnil
    rw [eq_nil_iff_forall_not_mem]
    intro t ht
    rcases hc.recomputed.edges s t ht with ⟨hm, -⟩ | ⟨hp, -⟩
    · rw [hnil] at hm
      exact not_mem_nil hm
    · exact hp.head_ne_nil hnil
  · intro hnil
    rw [eq_nil_iff_forall_not_mem]
    intro t ht
    have hne' : t ≠ rq := by
      rintro rfl
      exact hsr ht
    have hm := hc.recomputed.old s t ht hne'
    rw [hnil] at hm
    exact not_mem_nil hm

end Cancel

lemma flkCancelSleepingLock_inv (h : Inv g) (hrq : rq ∈ g.sleeping) : Inv (flkCancelSleepingLock g rq) := by
  have hc := flkCancelSleepingLock_cancelled h hrq
  have hmem : ∀ s, s ∈ (flkCancelSleepingLock g rq).sleeping ↔ s ≠ rq ∧ s ∈ g.sleeping := by
    intro s
    rw [hc.sleeping, h.sleep.nodup.mem_erase_iff]
  refine ⟨⟨?_, ?_, ?_, ?_, ?_⟩, ⟨?_, ?_, ?_, ?_⟩, ?_, ⟨hc.paired, ?_⟩, ?_, ?_, ?_⟩
  · unfold Graph.ActiveOk
    rw [hc.lock, hc.active, hc.vFilocks]
    exact h.list.ok
  · rw [hc.active, hc.next]
    exact h.list.lt
  · rw [hc.active, hc.lock]
    exact h.list.ranged
  · rw [hc.active, hc.lock]
    exact h.list.locked
  · rw [hc.active, hc.lock]
    exact h.list.apart
  · intro s hs
    rw [hc.next]
    exact h.sleep.lt s ((hmem s).mp hs).2
  · intro s hs
    rw [hc.lock]
    exact h.sleep.ranged s ((hmem s).mp hs).2
  · intro s hs
    rw [hc.lock]
    exact h.sleep.locked s ((hmem s).mp hs).2
  · rw [hc.sleeping, hc.lock]
    exact h.sleep.order.sublist erase_sublist
  · intro s hs
    rw [hc.active]
    exact h.awake s ((hmem s).mp hs).2
  · intro s t hst
    obtain ⟨hs, ht, hss, hE, hv, hb⟩ := hc.edges h hrq hst
    rw [hmem, hmem, hc.lock, hc.active]
    refine ⟨⟨hs, hss⟩, ?_, hv, hb⟩
    rcases hE with hE | hE
    · exact .inl ⟨⟨ht, hE.1⟩, hE.2⟩
    · exact .inr hE
  · intro s hs t ht hv hb
    rw [hmem] at hs
    rw [hc.lock] at hv hb
    rw [hmem, hc.active] at ht
    have htr : t ≠ rq := by
      rcases ht with ht | ht
      · exact ht.1.1
      · rintro rfl
        exact h.awake t hrq ht
    apply hc.reaches h hs.1 htr _ hb
    apply h.reaches s hs.2 t _ hv hb
    rcases ht with ht | ht
    · exact .inl ⟨ht.1.2, ht.2⟩
    · exact .inr ht
  · intro s hs
    rw [hmem] at hs
    exact hc.granted h hs.2 hs.1
  · rw [hc.lock, hc.active]
    exact h.clean

end Solaris.Flock
