import Solaris.Flock.Blocked

/-!
# The events keep the invariant

`flk_process_request` by its outcomes, the wait, and then every event.
-/

namespace Solaris.Flock

open Lib List Function Bool

variable {g : Graph} {rq : Nat}

lemma scanActive_spec (lock : Nat → LockDescriptor) (r : LockDescriptor) (ls : List Nat) :
    match scanActive lock r ls with
    | .blocked => ∃ l ∈ ls, blocks (lock l) r = true
    | .covered => ∃ l ∈ ls, sameOwner (lock l) r = true ∧ covers (lock l) r = true ∧ r.lType = .rdlck
    | .clear => ∀ l ∈ ls, blocks (lock l) r = false := by
  induction ls with
  | nil => simp [scanActive]
  | cons l ls ih =>
    by_cases hb : blocks (lock l) r = true
    · simp only [scanActive, hb, if_true]
      exact ⟨l, by simp, hb⟩
    by_cases hc : (sameOwner (lock l) r && covers (lock l) r && r.lType == .rdlck) = true
    · simp only [scanActive, hb, hc, if_true]
      simp only [and_eq_true, beq_iff_eq] at hc
      exact ⟨l, by simp, hc.1.1, hc.1.2, hc.2⟩
    have heq : scanActive lock r (l :: ls) = scanActive lock r ls := by simp only [scanActive, hb, hc]; rfl
    rw [heq]
    cases hs : scanActive lock r ls with
    | blocked =>
      rw [hs] at ih
      obtain ⟨k, hk, hkb⟩ := ih
      exact ⟨k, by simp [hk], hkb⟩
    | covered =>
      rw [hs] at ih
      obtain ⟨k, hk, hkc⟩ := ih
      exact ⟨k, by simp [hk], hkc⟩
    | clear =>
      rw [hs] at ih
      exact forall_mem_cons.mpr ⟨by simpa using hb, ih⟩

lemma Arrived.queue (h : Arrived g rq) {vis : List Nat} {a : AddEdges} (ha : Adding g rq vis a)
    (hvis : ∀ t ∈ vis, t ∈ g.sleeping ∨ t ∈ g.active)
    (hreach : ∀ t, t ∈ g.sleeping ∨ t ∈ g.active → (g.lock t).lVnode = (g.lock rq).lVnode →
      blocks (g.lock t) (g.lock rq) = true → Path a.deps rq t)
    (hne : a.deps.adj rq ≠ []) (hgr : (g.lState rq).granted = false) (hu : (g.lock rq).lType ≠ .unlck)
    (ps : ProcState) : Inv (flkInsertSleepingLock { g with deps := a.deps, ps := ps } rq) := by
  set g1 : Graph := { g with deps := a.deps, ps := ps } with hg1
  have hmem := fun s => mem_flkInsertSleepingLock g1 rq (s := s)
  have hsleep : SleepOk g1 := ⟨h.inv.sleep.lt, h.inv.sleep.ranged, h.inv.sleep.locked, h.inv.sleep.order⟩
  have hlist := h.inv.list
  refine ⟨⟨hlist.ok, hlist.lt, hlist.ranged, hlist.locked, hlist.apart⟩, hsleep.insert h.pending.lt h.pending.ranged hu h.above, ?_,
    ⟨ha.paired, ?_⟩, ?_, ?_, h.inv.clean⟩
  · intro s hs
    rcases (hmem s).mp hs with rfl | hs
    · exact h.pending.fresh
    · exact h.inv.awake s hs
  · intro s t hst
    rw [hmem, hmem]
    by_cases hs : s = rq
    · subst hs
      obtain ⟨htv, hv, hb⟩ := ha.mine t hst
      refine ⟨.inl rfl, ?_, hv, hb⟩
      rcases hvis t htv with ht | ht
      · exact .inl ⟨.inr ht, h.above t ht⟩
      · exact .inr ht
    · obtain ⟨h1, h2, h3⟩ := h.inv.waits.edge s t ((ha.old s t hs).mp hst)
      refine ⟨.inr h1, ?_, h3⟩
      rcases h2 with h2 | h2
      · exact .inl ⟨.inr h2.1, h2.2⟩
      · exact .inr h2
  · intro s hs t ht hv hb
    rw [hmem] at hs ht
    rcases hs with rfl | hs
    · apply hreach t _ hv hb
      rcases ht with ⟨rfl | ht, hlt⟩ | ht
      · exact absurd hlt (lt_irrefl _)
      · exact .inl ht
      · exact .inr ht
    apply ha.path_mono h
    apply h.inv.reaches s hs t _ hv hb
    rcases ht with ⟨rfl | ht, hlt⟩ | ht
    · exact absurd hlt (lt_asymm (h.above s hs))
    · exact .inl ⟨ht, hlt⟩
    · exact .inr ht
  · intro s hs
    rcases (hmem s).mp hs with rfl | hs
    · have hng : ((flkInsertSleepingLock g1 s).lState s).granted = false := hgr
      rw [hng]
      exact iff_of_false false_ne_true hne
    have hsr : s ≠ rq := fun he => h.asleep (he ▸ hs)
    have hg := h.inv.granted s hs
    have hiff : a.deps.adj s = [] ↔ g.deps.adj s = [] := by
      rw [eq_nil_iff_forall_not_mem, eq_nil_iff_forall_not_mem]
      exact forall_congr' fun t => not_congr (ha.old s t hsr)
    exact hg.trans hiff.symm

lemma flkWaitBegin_inv (h : Inv (flkInsertSleepingLock g rq)) :
    Inv (flkWaitBegin g rq).1 ∧ (flkWaitBegin g rq).2 ≠ .done := by
  have hmem : rq ∈ (flkInsertSleepingLock g rq).sleeping := (mem_flkInsertSleepingLock g rq).mpr (.inl rfl)
  unfold flkWaitBegin
  simp only
  split
  · exact ⟨flkCancelSleepingLock_inv h hmem, by simp⟩
  · exact ⟨h, by simp⟩

lemma Arrived.addEdges (h : Arrived g rq) (blockedByActive : Bool)
    (hno : blockedByActive = false → ∀ t ∈ g.activeVp (g.lock rq).lVnode, blocks (g.lock t) (g.lock rq) = false)
    {a : AddEdges} (hdef : a = blockedEdges g rq blockedByActive) :
    (a.dead = true ∧ Dead g rq a) ∨
      (Adding g rq (g.sleepVp (g.lock rq).lVnode ++ g.activeVp (g.lock rq).lVnode) a ∧
        ∀ t ∈ g.sleepVp (g.lock rq).lVnode ++ g.activeVp (g.lock rq).lVnode,
          blocks (g.lock t) (g.lock rq) = true → Path a.deps rq t) := by
  have hsink : g.deps.adj rq = [] := h.inv.waits.sink h.asleep
  have hstart : SleepWalk g rq [] ⟨g.deps, g.ps, [], none, false, false⟩ := by
    refine ⟨⟨h.inv.waits.paired, fun s t _ => Iff.rfl, ?_, by simp, rfl, rfl⟩, by simp, by simp, rfl⟩
    intro t ht
    rw [hsink] at ht
    exact absurd ht not_mem_nil
  have hsleep := addSleepEdges_spec h (g.sleepVp (g.lock rq).lVnode) [] _ (by simp) hstart
  set a0 := addSleepEdges g.lock g.next rq (g.sleepVp (g.lock rq).lVnode) ⟨g.deps, g.ps, [], none, false, false⟩
  have hdef : a = if blockedByActive && !a0.second && !a0.dead then
      addActiveEdges g.lock g.next rq (g.activeVp (g.lock rq).lVnode) a0 else a0 := hdef
  rcases hsleep with ⟨hd, hdead⟩ | hdone
  · rw [hd] at hdef
    simp only [Bool.not_true, Bool.and_false, Bool.false_eq_true, if_false] at hdef
    rw [hdef]
    exact .inl ⟨hd, hdead⟩
  have halive := hdone.adding.alive
  -- the active locks are reached without a walk
  have hfinish : (∀ t ∈ g.activeVp (g.lock rq).lVnode, blocks (g.lock t) (g.lock rq) = true → Path a0.deps rq t) →
      Adding g rq (g.sleepVp (g.lock rq).lVnode ++ g.activeVp (g.lock rq).lVnode) a0 ∧
        ∀ t ∈ g.sleepVp (g.lock rq).lVnode ++ g.activeVp (g.lock rq).lVnode,
          blocks (g.lock t) (g.lock rq) = true → Path a0.deps rq t := by
    intro hact
    refine ⟨hdone.adding.widen (fun t ht => mem_append_left _ ht), ?_⟩
    intro t ht hb
    rcases mem_append.mp ht with ht | ht
    · exact hdone.reached t ht hb
    · exact hact t ht hb
  cases blockedByActive with
  | false =>
    rw [hdef]
    apply Or.inr
    apply hfinish
    intro t ht hb
    rw [hno rfl t ht] at hb
    exact Bool.noConfusion hb
  | true =>
    cases hsec : a0.second with
    | true =>
      rw [hsec] at hdef
      rw [hdef]
      exact .inr (hfinish (hdone.second hsec))
    | false =>
      rw [hsec, halive] at hdef
      rw [hdef]
      apply addActiveEdges_spec h _ [] a0 (by simp) (by simpa using hdone.adding) hdone.cover
      intro t ht
      rw [append_nil] at ht
      exact hdone.reached t ht

lemma flkCheckDeadlock_fst (g : Graph) (rq : Nat) : (flkCheckDeadlock g rq).1 =
    (procCheckDeadlock g.lock g.ps rq (g.deps.adj rq) (g.deps.inn rq)).1 := by
  unfold flkCheckDeadlock
  simp only
  split
  · next h => exact h.symm
  · next h => exact (not_eq_true _ |>.mp h).symm

lemma flkCheckDeadlock_dead (h : (flkCheckDeadlock g rq).1 = true) :
    (flkCheckDeadlock g rq).2 = { g with
      deps := (g.deps.removeAdjEdges rq).removeInEdges rq
      ps := (procCheckDeadlock g.lock g.ps rq (g.deps.adj rq) (g.deps.inn rq)).2 } := by
  rw [flkCheckDeadlock_fst] at h
  unfold flkCheckDeadlock
  rw [if_pos h]

lemma flkCheckDeadlock_alive (h : (flkCheckDeadlock g rq).1 = false) :
    (flkCheckDeadlock g rq).2 =
      { g with ps := (procCheckDeadlock g.lock g.ps rq (g.deps.adj rq) (g.deps.inn rq)).2 } := by
  rw [flkCheckDeadlock_fst] at h
  unfold flkCheckDeadlock
  rw [if_neg (by rw [h]; simp)]

/-- `d` has the edges of `g` and further edges of `rq`, between locks that block each other. -/
structure Joined (g : Graph) (d : Deps) (rq : Nat) : Prop where
  paired : Paired d
  old : ∀ s t, t ∈ g.deps.adj s → t ∈ d.adj s
  new : ∀ s t, t ∈ d.adj s → t ∈ g.deps.adj s ∨
    ((s = rq ∨ t = rq) ∧ blocks (g.lock t) (g.lock s) = true ∧ t < g.next)

/-- What `flk_process_request` may lead to. -/
inductive Processed (g : Graph) (rq : Nat) : Graph × Outcome → Prop
  | again : Processed g rq (g, .failed .eagain)
  | dead {d : Deps} (hp : Paired d) (hd : ∀ s t, t ∈ d.adj s ↔ t ∈ g.deps.adj s) :
      Processed g rq ({ g with deps := d }, .failed .edeadlk)
  | deadlock {d : Deps} (hj : Joined g d rq) (hc : (flkCheckDeadlock { g with deps := d } rq).1 = true) :
      Processed g rq ((flkCheckDeadlock { g with deps := d } rq).2, .failed .edeadlk)
  | queue {d : Deps} (hj : Joined g d rq) (hsome : d.adj rq ≠ [] ∨ d.inn rq ≠ [])
      (hinv : ∀ ps, Inv (flkInsertSleepingLock { g with deps := d, ps := ps } rq))
      (hc : (flkCheckDeadlock { g with deps := d } rq).1 = false) :
      Processed g rq (flkWaitBegin (flkCheckDeadlock { g with deps := d } rq).2 rq)
  | run {d : Deps} (hj : Joined g d rq) (hsome : d.adj rq ≠ [] ∨ d.inn rq ≠ [])
      (hexec : ∀ ps, ExecInv { g with deps := d, ps := ps } rq)
      (hc : (flkCheckDeadlock { g with deps := d } rq).1 = false) :
      Processed g rq (flkExecuteRequest (flkCheckDeadlock { g with deps := d } rq).2 rq, .done)
  | runFree {d : Deps} (hp : Paired d) (hd : ∀ s t, t ∈ d.adj s ↔ t ∈ g.deps.adj s)
      (hexec : ExecInv { g with deps := d } rq) :
      Processed g rq (flkExecuteRequest { g with deps := d } rq, .done)

lemma processBlocked_processed (h : Arrived g rq) (hgr : (g.lState rq).granted = false)
    (hu : (g.lock rq).lType ≠ .unlck) (blockedByActive : Bool)
    (hno : blockedByActive = false → ∀ t ∈ g.activeVp (g.lock rq).lVnode, blocks (g.lock t) (g.lock rq) = false)
    (hsome : ∃ t ∈ g.sleepVp (g.lock rq).lVnode ++ g.activeVp (g.lock rq).lVnode,
      blocks (g.lock t) (g.lock rq) = true) :
    Processed g rq (processBlocked g rq blockedByActive) := by
  have hleaves : ∀ s t, t ∈ g.deps.adj s → s ≠ rq := by
    rintro s t hst rfl
    exact h.asleep (h.inv.waits.edge s t hst).1
  unfold processBlocked
  simp only
  split
  · exact Processed.again
  set a := blockedEdges g rq blockedByActive with hdef
  rcases h.addEdges blockedByActive hno hdef with ⟨hd, hdead⟩ | ⟨hadd, hreach⟩
  · rw [if_pos hd, hdead.ps]
    apply Processed.dead hdead.paired
    intro s t
    rw [hdead.old s t]
    exact ⟨fun hx => hx.1, fun hx => ⟨hx, hleaves s t hx⟩⟩
  have hne : a.deps.adj rq ≠ [] := by
    obtain ⟨t, ht, hb⟩ := hsome
    exact (hreach t ht hb).head_ne_nil
  have hjoin : Joined g a.deps rq := by
    refine ⟨hadd.paired, ?_, ?_⟩
    · intro s t hst
      exact (hadd.old s t (hleaves s t hst)).mpr hst
    · intro s t hst
      by_cases hs : s = rq
      · subst hs
        refine .inr ⟨.inl rfl, (hadd.mine t hst).2.2, ?_⟩
        rcases mem_append.mp (hadd.mine t hst).1 with ht | ht
        · exact h.inv.sleep.lt t (h.inv.sleep.mem_sleepVp.mp ht).1
        · exact h.inv.list.lt t (h.inv.list.ok.mem_activeVp.mp ht).1
      · exact .inl ((hadd.old s t hs).mp hst)
  rw [if_neg (by rw [hadd.alive]; simp), if_neg hne, hadd.ps]
  cases hc : (flkCheckDeadlock { g with deps := a.deps } rq).1 with
  | true =>
    exact Processed.deadlock hjoin hc
  | false =>
    apply Processed.queue hjoin (.inl hne) _ hc
    apply h.queue hadd _ _ hne hgr hu
    · intro t ht
      rcases mem_append.mp ht with ht | ht
      · exact .inl (h.inv.sleep.mem_sleepVp.mp ht).1
      · exact .inr (h.inv.list.ok.mem_activeVp.mp ht).1
    · intro t ht hv hb
      apply hreach t _ hb
      rw [mem_append, h.inv.sleep.mem_sleepVp, h.inv.list.ok.mem_activeVp]
      rcases ht with ht | ht
      · exact .inl ⟨ht, hv⟩
      · exact .inr ⟨ht, hv⟩

lemma reclockEnd_of_ne {io : Bool} {r : Graph × Outcome} (h : r.2 ≠ .done) : reclockEnd io rq r = r := by
  unfold reclockEnd
  rw [if_neg (fun hx => h hx.2)]

lemma ExecInv.finish (h : ExecInv g rq) (hi : ListInv g) (hp : Pending g rq) (hrq : rq ∉ g.sleeping) :
    Inv (reclockEnd (g.lState rq).ioLock rq (flkExecuteRequest g rq, .done)).1 := by
  unfold reclockEnd
  cases hio : (g.lState rq).ioLock with
  | true =>
    have hex : flkExecuteRequest g rq = g := by
      unfold flkExecuteRequest
      rw [hio]
      rfl
    rw [if_pos ⟨rfl, rfl⟩, hex]
    exact h.dismiss hi hp hrq
  | false =>
    exact flkExecuteRequest_inv h hi hp hio

lemma Arrived.execInv_covered (h : Arrived g rq) {l : Nat} (hl : l ∈ g.active)
    (hv : (g.lock l).lVnode = (g.lock rq).lVnode) (ho : (g.lock l).owner = (g.lock rq).owner)
    (hc : covers (g.lock l) (g.lock rq) = true) (hr : (g.lock rq).lType = .rdlck) : ExecInv g rq := by
  have hlr := h.inv.list.ranged l hl
  have hrr := h.pending.ranged
  have hhas : ∀ x, (g.lock rq).Has x → (g.lock l).Has x := by
    intro x hx
    simp only [covers, and_eq_true, decide_eq_true_eq] at hc
    unfold LockDescriptor.Has at hx ⊢
    omega
  -- what the request would block, the covering lock blocks
  have hblocks : ∀ d : LockDescriptor, d.Ranged → blocks (g.lock rq) d = true →
      blocks (g.lock l) d = true ∧ ∃ x, (g.lock l).Has x ∧ (g.lock rq).Has x ∧ d.Has x := by
    intro d hd hb
    obtain ⟨-, -, x, hx, hxd⟩ := (blocks_iff hrr hd).mp hb
    refine ⟨?_, x, hhas x hx, hx, hxd⟩
    apply blocks_of_has hrr hlr hd ho _ hb (hhas x hx) hxd
    intro hw
    rw [hr] at hw
    exact LockType.noConfusion hw
  apply h.inv.exec h.asleep
  · intro _ a ha hva
    by_contra hb
    rw [not_eq_false, blocks_comm] at hb
    have hla := (hblocks _ (h.inv.list.ranged a ha) hb).1
    rw [h.inv.clean l a hl ha (hv.trans hva.symm)] at hla
    exact Bool.noConfusion hla
  · intro _ s hs _ hb
    obtain ⟨h1, h2⟩ := hblocks _ (h.inv.sleep.ranged s hs) hb
    exact .inr ⟨l, ⟨hl, hv, ho⟩, h1, h2⟩

section

variable (h : Arrived g rq) (hu : (g.lock rq).lType ≠ .unlck)
  (hno : ∀ t ∈ g.activeVp (g.lock rq).lVnode, blocks (g.lock t) (g.lock rq) = false)
  (hgr : ∀ s ∈ g.sleepVp (g.lock rq).lVnode, blocks (g.lock s) (g.lock rq) = true → (g.lState s).granted = false)

include h hu hno hgr

lemma Arrived.process_clear (ps : ProcState) :
    ExecInv { g with
      deps := (linkRoots g.lock g.next rq (processRoots g (g.lock rq).lVnode) (g.deps, g.ps)).1
      ps := ps } rq := by
  apply h.linkRoots_spec.1.execInv h hu
  · intro a ha hv
    exact hno a (h.inv.list.ok.mem_activeVp.mpr ⟨ha, hv⟩)
  · intro s hs hv hb
    exact h.linked_reaches hgr hs hv hb

lemma Arrived.clear_processed {dp : Deps × ProcState}
    (hdp : dp = linkRoots g.lock g.next rq (processRoots g (g.lock rq).lVnode) (g.deps, g.ps)) :
    Processed g rq (if dp.1.inn rq = [] then (flkExecuteRequest { g with deps := dp.1, ps := dp.2 } rq, .done)
      else if (flkCheckDeadlock { g with deps := dp.1, ps := dp.2 } rq).1 then
        ((flkCheckDeadlock { g with deps := dp.1, ps := dp.2 } rq).2, .failed .edeadlk)
      else (flkExecuteRequest (flkCheckDeadlock { g with deps := dp.1, ps := dp.2 } rq).2 rq, .done)) := by
  have hexec : ∀ ps, ExecInv { g with deps := dp.1, ps := ps } rq := by
    rw [hdp]
    exact h.process_clear hu hno hgr
  obtain ⟨hl, -, hg⟩ := h.linkRoots_spec
  rw [← hdp] at hl hg
  have hjoin : Joined g dp.1 rq := by
    refine ⟨hl.paired, hl.old, ?_⟩
    intro s t hst
    rcases hl.new s t hst with hst | ⟨rfl, -, -, -, hb⟩
    · exact .inl hst
    · exact .inr ⟨.inr rfl, hb, h.pending.lt⟩
  rw [hg.ps_eq]
  by_cases hnil : dp.1.inn rq = []
  · rw [if_pos hnil]
    apply Processed.runFree hl.paired _ (hexec g.ps)
    intro s t
    refine ⟨fun hst => ?_, hl.old s t⟩
    rcases hl.new s t hst with hst' | ⟨rfl, -⟩
    · exact hst'
    · rw [hl.paired.mem, hnil] at hst
      exact absurd hst not_mem_nil
  rw [if_neg hnil]
  cases hc : (flkCheckDeadlock { g with deps := dp.1 } rq).1 with
  | true =>
    exact Processed.deadlock hjoin hc
  | false =>
    exact Processed.run hjoin (.inr hnil) hexec hc

end

theorem flkProcessRequest_processed (h : Arrived g rq) (hgr : (g.lState rq).granted = false)
    (hu : (g.lock rq).lType ≠ .unlck) : Processed g rq (flkProcessRequest g rq) := by
  have hscan := scanActive_spec g.lock (g.lock rq) (g.activeVp (g.lock rq).lVnode)
  unfold flkProcessRequest
  simp only
  cases hs : scanActive g.lock (g.lock rq) (g.activeVp (g.lock rq).lVnode) with
  | blocked =>
    rw [hs] at hscan
    obtain ⟨t, ht, hb⟩ := hscan
    simp only
    split
    · exact processBlocked_processed h hgr hu true (by simp) ⟨t, mem_append_right _ ht, hb⟩
    · exact Processed.again
  | covered =>
    rw [hs] at hscan
    obtain ⟨l, hl, ho, hc, hr⟩ := hscan
    obtain ⟨hl, hv⟩ := h.inv.list.ok.mem_activeVp.mp hl
    have hexec := h.execInv_covered hl hv (sameOwner_iff.mp ho) hc hr
    exact Processed.runFree h.inv.waits.paired (fun s t => Iff.rfl) hexec
  | clear =>
    rw [hs] at hscan
    simp only
    split
    · next hany =>
      obtain ⟨t, ht, hb⟩ := any_eq_true.mp hany
      rw [and_eq_true] at hb
      exact processBlocked_processed h hgr hu false (fun _ => hscan) ⟨t, mem_append_left _ ht, hb.1⟩
    · next hany =>
      apply h.clear_processed hu hscan _ rfl
      intro s hs hb
      by_contra hg
      apply hany
      rw [any_eq_true]
      exact ⟨s, hs, by rw [hb, not_eq_false _ |>.mp hg]; rfl⟩

theorem Processed.inv {r : Graph × Outcome} (hr : Processed g rq r) (h : Arrived g rq) :
    Inv (reclockEnd (g.lState rq).ioLock rq r).1 := by
  have hp : ∀ (d : Deps) (ps : ProcState), Pending { g with deps := d, ps := ps } rq :=
    fun _ _ => ⟨h.pending.lt, h.pending.fresh, h.pending.ranged⟩
  have hlist : ∀ (d : Deps) (ps : ProcState), ListInv { g with deps := d, ps := ps } :=
    fun _ _ => h.inv.list.same ⟨rfl, rfl, rfl, rfl, rfl⟩
  cases hr with
  | again =>
    rw [reclockEnd_of_ne (by simp)]
    exact h.inv
  | dead hp hd =>
    rw [reclockEnd_of_ne (by simp)]
    exact h.inv.edges_congr hp hd g.ps
  | deadlock hj hc =>
    rw [reclockEnd_of_ne (by simp), flkCheckDeadlock_dead hc]
    refine h.undone hj.paired hj.old ?_ _
    intro s t hst
    rcases hj.new s t hst with hst | ⟨hst, -⟩
    · exact .inl hst
    · exact .inr hst
  | queue hj _ hinv hc =>
    rw [flkCheckDeadlock_alive hc]
    obtain ⟨h1, h2⟩ := flkWaitBegin_inv (hinv _)
    rw [reclockEnd_of_ne h2]
    exact h1
  | run hj _ hexec hc =>
    rw [flkCheckDeadlock_alive hc]
    exact (hexec _).finish (hlist _ _) (hp _ _) h.asleep
  | runFree hpd hd hexec => exact hexec.finish (hlist _ _) (hp _ _) h.asleep

lemma SleepOk.erase (h : SleepOk g) (st : Nat → LockState) (rq : Nat) :
    SleepOk { g with lState := st, sleeping := g.sleeping.erase rq } := by
  refine ⟨?_, ?_, ?_, h.order.sublist erase_sublist⟩
  · intro s hs
    exact h.lt s (mem_of_mem_erase hs)
  · intro s hs
    exact h.ranged s (mem_of_mem_erase hs)
  · intro s hs
    exact h.locked s (mem_of_mem_erase hs)

section

variable (h : Inv g) (hrq : rq ∈ g.sleeping)

include h hrq

lemma Inv.execInv_granted (hgr : (g.lState rq).granted = true)
    (st : Nat → LockState) (hst : ∀ s, s ≠ rq → (st s).granted = (g.lState s).granted) :
    ExecInv { g with lState := st, sleeping := g.sleeping.erase rq } rq := by
  have hsink : g.deps.adj rq = [] := (h.granted rq hrq).mp hgr
  have hnd := h.sleep.nodup
  have hmem : ∀ s, s ∈ g.sleeping.erase rq ↔ s ≠ rq ∧ s ∈ g.sleeping := fun s => hnd.mem_erase_iff
  have hno : ∀ t, ¬ Path g.deps rq t := fun t hp => hp.head_ne_nil hsink
  refine ⟨h.sleep.erase st rq, ?_, ⟨h.waits.paired, ?_⟩, ?_, ?_, h.clean, ?_, ?_⟩
  · intro s hs
    obtain ⟨hne, hs⟩ := (hmem s).mp hs
    exact ⟨h.awake s hs, hne⟩
  · intro s t hst
    obtain ⟨h1, h2, h3⟩ := h.waits.edge s t hst
    have hs : s ≠ rq := by
      rintro rfl
      exact hno t (.single hst)
    refine ⟨(hmem s).mpr ⟨hs, h1⟩, ?_, h3⟩
    by_cases ht : t = rq
    · subst ht
      exact .inr (.inr ⟨rfl, h.sleep.locked t hrq⟩)
    · rcases h2 with h2 | h2
      · exact .inl ⟨(hmem t).mpr ⟨ht, h2.1⟩, h2.2⟩
      · exact .inr (.inl h2)
  · intro s hs t ht
    apply h.reaches s ((hmem s).mp hs).2 t
    rcases ht with ht | ht
    · exact .inl ⟨((hmem t).mp ht.1).2, ht.2⟩
    · exact .inr ht
  · intro s hs
    obtain ⟨hne, hs⟩ := (hmem s).mp hs
    rw [hst s hne]
    exact h.granted s hs
  · intro _ a ha hv
    by_contra hb
    exact hno a (h.reaches rq hrq a (.inr ha) hv (by simpa using hb))
  · intro _ s hs hv hb
    obtain ⟨hne, hs⟩ := (hmem s).mp hs
    rcases lt_or_gt_of_ne hne with hlt | hlt
    · rw [blocks_comm] at hb
      exact absurd (h.reaches rq hrq s (.inl ⟨hs, hlt⟩) hv.symm hb) (hno s)
    · exact .inl (h.reaches s hs rq (.inl ⟨hrq, hlt⟩) hv hb)

lemma flkWaitEnd_cases (hwake : (g.lState rq).granted ∨ (g.lState rq).cancelled ∨ (g.lState rq).interrupted) :
    (∃ e, flkWaitEnd g rq = (flkCancelSleepingLock g rq, .failed e)) ∨
      ∃ st : Nat → LockState, (st rq).ioLock = (g.lState rq).ioLock ∧
        ExecInv { g with lState := st, sleeping := g.sleeping.erase rq } rq ∧
        flkWaitEnd g rq = (flkExecuteRequest { g with lState := st, sleeping := g.sleeping.erase rq } rq, .done) := by
  unfold flkWaitEnd
  simp only
  split
  · exact .inl ⟨_, rfl⟩
  split
  · exact .inl ⟨_, rfl⟩
  split
  · exact .inl ⟨_, rfl⟩
  next hni hnc =>
    have hgr : (g.lState rq).granted = true := by
      rcases hwake with hw | hw | hw
      · exact hw
      · exact absurd hw hnc
      · exact absurd hw hni
    refine .inr ⟨update g.lState rq { g.lState rq with granted := false }, ?_, ?_, rfl⟩
    · rw [update_self]
    · exact h.execInv_granted hrq hgr _ fun s hs => by rw [update_of_ne hs]

lemma Inv.pending_woken (st : Nat → LockState) :
    ListInv { g with lState := st, sleeping := g.sleeping.erase rq } ∧
      Pending { g with lState := st, sleeping := g.sleeping.erase rq } rq ∧ rq ∉ g.sleeping.erase rq := by
  have hl := h.list
  exact ⟨⟨hl.ok, hl.lt, hl.ranged, hl.locked, hl.apart⟩,
    ⟨h.sleep.lt rq hrq, h.awake rq hrq, h.sleep.ranged rq hrq⟩, fun hm => (h.sleep.nodup.mem_erase_iff.mp hm).1 rfl⟩

lemma flkWaitEnd_inv (hwake : (g.lState rq).granted ∨ (g.lState rq).cancelled ∨ (g.lState rq).interrupted) :
    Inv (reclockEnd (g.lState rq).ioLock rq (flkWaitEnd g rq)).1 := by
  rcases flkWaitEnd_cases h hrq hwake with ⟨e, heq⟩ | ⟨st, hio, hexec, heq⟩
  · rw [heq, reclockEnd_of_ne (by simp)]
    exact flkCancelSleepingLock_inv h hrq
  · obtain ⟨h1, h2, h3⟩ := h.pending_woken hrq st
    rw [heq, ← hio]
    exact hexec.finish h1 h2 h3

end

lemma flkGetLock_state (g : Graph) (desc : LockDescriptor) (state : LockState) (pv : Option Nat) :
    (flkGetLock g desc state pv).2.lState g.next = state := by
  simp only [flkGetLock]
  rw [update_self]

lemma flkGetLock_lock (g : Graph) (desc : LockDescriptor) (state : LockState) (pv : Option Nat) :
    (flkGetLock g desc state pv).2.lock g.next = desc := by
  simp only [flkGetLock]
  rw [update_self]

section

variable (h : Inv g) {r : Request} (hr : r.desc.Ranged)

include h hr

lemma reclockLock_processed (hu : r.desc.lType ≠ .unlck) :
    Arrived (flkGetLock g r.desc r.state none).2 g.next ∧
      ∃ o, Processed (flkGetLock g r.desc r.state none).2 g.next o ∧ reclockLock g r =
        reclockEnd ((flkGetLock g r.desc r.state none).2.lState g.next).ioLock g.next o := by
  have ha := h.arrive hr r.state none
  have hp := flkProcessRequest_processed ha (by rw [flkGetLock_state]; rfl) (by rw [flkGetLock_lock]; exact hu)
  refine ⟨ha, _, hp, ?_⟩
  rw [flkGetLock_state]
  rfl

lemma reclockLock_inv (hu : r.desc.lType ≠ .unlck) :
    Inv (reclockLock g r).1 := by
  obtain ⟨ha, o, hp, heq⟩ := reclockLock_processed h hr hu
  rw [heq]
  exact hp.inv ha

lemma reclockUnlock_cases :
    (∃ l, reclockUnlock g r = interruptWakeup g l) ∨
      ∃ desc, reclockUnlock g r = flkExecuteRequest (flkGetLock g desc r.state none).2 g.next ∧
        Arrived (flkGetLock g desc r.state none).2 g.next ∧ ExecInv (flkGetLock g desc r.state none).2 g.next := by
  unfold reclockUnlock
  split
  · exact .inl ⟨_, rfl⟩
  · set desc : LockDescriptor := { r.desc with lType := .unlck } with hdesc
    have hrd : desc.Ranged := hr
    have ha := h.arrive hrd r.state none
    have hu : ((flkGetLock g desc r.state none).2.lock g.next).lType = .unlck := by rw [flkGetLock_lock]
    exact .inr ⟨desc, rfl, ha, ha.inv.exec ha.asleep (fun hne => absurd hu hne) (fun hne => absurd hu hne)⟩

lemma reclockUnlock_inv (hio : r.ioLock = false) :
    Inv (reclockUnlock g r) := by
  rcases reclockUnlock_cases h hr with ⟨l, heq⟩ | ⟨desc, heq, ha, hexec⟩
  · rw [heq]
    exact interruptWakeup_inv h l
  · rw [heq]
    apply flkExecuteRequest_inv hexec ha.inv.list ha.pending
    rw [flkGetLock_state]
    exact hio

end

lemma resume_inv (h : Inv g) {signal : Bool} (hrq : rq ∈ g.sleeping)
    (hwake : signal = true ∨ (g.lState rq).granted ∨ (g.lState rq).cancelled ∨ (g.lState rq).interrupted) :
    Inv (resume g rq signal).1 := by
  unfold resume
  cases signal with
  | true =>
    apply flkWaitEnd_inv (interruptWakeup_inv h rq) hrq
    right; right
    simp [interruptWakeup, Graph.setState]
  | false =>
    apply flkWaitEnd_inv h hrq
    simpa using hwake

lemma Event.apply_inv (h : Inv g) {e : Event} (he : e.Enabled g) : Inv (e.apply g) := by
  cases e with
  | lock r => exact reclockLock_inv h he.1 he.2
  | unlock r => exact reclockUnlock_inv h he.1 he.2
  | resume l signal => exact resume_inv h he.1 he.2
  | deleteBySysid sysid => exact flkDeleteLocksBySysid_inv h sysid
  | clean vp pid sysid => exact cleanlocks_inv h vp pid sysid
  | lockmgr status => exact setLockmgrStatus_inv h status

lemma Graph.empty_inv : Inv Graph.empty := by
  have hok : Graph.empty.ActiveOk :=
    ⟨nodup_nil, fun vp => ⟨[], [], [], ⟨rfl, by simp, by simp, by simp⟩, List.Pairwise.nil, rfl⟩⟩
  have hpaired : Paired Graph.empty.deps :=
    ⟨fun _ => nodup_nil, fun _ => nodup_nil, fun s t _ => by simp [Graph.empty], fun s t hf => hf.elim⟩
  have ha : ∀ a, a ∉ Graph.empty.active := fun a => not_mem_nil
  have hs : ∀ s, s ∉ Graph.empty.sleeping := fun s => not_mem_nil
  have hd : ∀ s t, t ∉ Graph.empty.deps.adj s := fun s t => not_mem_nil
  refine ⟨⟨hok, fun a h => absurd h (ha a), fun a h => absurd h (ha a), fun a h => absurd h (ha a),
      fun a h => absurd h (ha a)⟩,
    ⟨fun s h => absurd h (hs s), fun s h => absurd h (hs s), fun s h => absurd h (hs s), List.Pairwise.nil⟩,
    fun s h => absurd h (hs s), ⟨hpaired, fun s t h => absurd h (hd s t)⟩, fun s h => absurd h (hs s),
    fun s h => absurd h (hs s), fun a b h => absurd h (ha a)⟩

lemma Reachable.inv {sys : System} (h : Reachable sys) : ∀ i, Inv (sys.graph i) := by
  induction h with
  | init => exact fun _ => Graph.empty_inv
  | @step sys j e _ _ he ih =>
    intro i
    have hj : Inv (sys.graphAt j) := (ih j).flags ⟨rfl, rfl, rfl, rfl, rfl⟩ rfl (fun _ => rfl)
    unfold System.step
    by_cases hij : i = j
    · subst hij
      simp only [update_self]
      exact Event.apply_inv hj he
    · simp only [update_of_ne hij]
      exact ih i

end Solaris.Flock
