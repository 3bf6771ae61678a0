import Solaris.Flock.Cancel

/-!
# Requests that are blocked

A blocked request gets edges until it has a path to every lock that blocks it. A sleeping
write lock that covers the request stands for most of the locks behind it.
-/

namespace Solaris.Flock

open Lib List Option Bool

variable {g : Graph} {rq : Nat}

/-- What the edges look like while the request adds its own; `vis` are the locks looked at. -/
structure Adding (g : Graph) (rq : Nat) (vis : List Nat) (a : AddEdges) : Prop where
  paired : Paired a.deps
  old : ∀ s t, s ≠ rq → (t ∈ a.deps.adj s ↔ t ∈ g.deps.adj s)
  mine : ∀ t ∈ a.deps.adj rq, t ∈ vis ∧ (g.lock t).lVnode = (g.lock rq).lVnode ∧
    blocks (g.lock t) (g.lock rq) = true
  color : ∀ x ∈ a.color, Path a.deps rq x
  ps : a.ps = g.ps
  alive : a.dead = false

structure Dead (g : Graph) (rq : Nat) (a : AddEdges) : Prop where
  paired : Paired a.deps
  old : ∀ s t, t ∈ a.deps.adj s ↔ t ∈ g.deps.adj s ∧ s ≠ rq
  ps : a.ps = g.ps

lemma Adding.path_mono (h : Arrived g rq) {vis : List Nat} {a : AddEdges} (ha : Adding g rq vis a) {s t : Nat}
    (hp : Path g.deps s t) : Path a.deps s t := by
  apply Relation.TransGen.mono _ s t hp
  intro b c hbc
  have hb : b ≠ rq := by
    rintro rfl
    exact h.asleep (h.inv.waits.edge b c hbc).1
  exact (ha.old b c hb).mpr hbc

lemma Adding.bounded (h : Arrived g rq) {vis : List Nat} {a : AddEdges} (ha : Adding g rq vis a)
    (hvis : ∀ t ∈ vis, t ∈ g.sleeping ∨ t ∈ g.active) {s t : Nat} (hst : t ∈ a.deps.adj s) : t < g.next := by
  by_cases hs : s = rq
  · subst hs
    rcases hvis t (ha.mine t hst).1 with ht | ht
    · exact h.inv.sleep.lt t ht
    · exact h.inv.list.lt t ht
  · exact (h.inv.waits.lt_next h.inv.sleep.lt h.inv.list.lt ((ha.old s t hs).mp hst)).2

lemma addEdgeTo_spec (h : Arrived g rq) {vis : List Nat} {a : AddEdges} {l : Nat} (checkCycle : Bool)
    (ha : Adding g rq vis a) (hvis : ∀ t ∈ vis, t ∈ g.sleeping ∨ t ∈ g.active) (hlv : l ∉ vis) (hln : l < g.next)
    (hlr : l ≠ rq) (hv : (g.lock l).lVnode = (g.lock rq).lVnode) (hb : blocks (g.lock l) (g.lock rq) = true) :
    ((addEdgeTo g.lock g.next rq checkCycle a l).dead = true ∧
        Dead g rq (addEdgeTo g.lock g.next rq checkCycle a l)) ∨
      (Adding g rq (vis ++ [l]) (addEdgeTo g.lock g.next rq checkCycle a l) ∧
        Path (addEdgeTo g.lock g.next rq checkCycle a l).deps rq l ∧
        (∀ t, Path a.deps rq t → Path (addEdgeTo g.lock g.next rq checkCycle a l).deps rq t) ∧
        (addEdgeTo g.lock g.next rq checkCycle a l).coveredBy = a.coveredBy ∧
        (addEdgeTo g.lock g.next rq checkCycle a l).second = a.second) := by
  by_cases hc : l ∈ a.color
  · have heq : addEdgeTo g.lock g.next rq checkCycle a l = { a with dead := false } := by
      simp [addEdgeTo, flkAddEdge, hc]
    rw [heq]
    right
    refine ⟨⟨ha.paired, ha.old, ?_, ha.color, ha.ps, rfl⟩, ha.color l hc, fun t ht => ht, rfl, rfl⟩
    intro t ht
    have hm := ha.mine t ht
    exact ⟨by simp [hm.1], hm.2⟩
  have hnadj : l ∉ a.deps.adj rq := fun hm => hlv (ha.mine l hm).1
  have hpair := ha.paired.addEdge (fun hf => hf) hnadj
  have hold : ∀ s t, s ≠ rq → (t ∈ (a.deps.addEdge rq l).adj s ↔ t ∈ g.deps.adj s) := by
    intro s t hs
    rw [mem_addEdge_adj, ha.old s t hs]
    simp [hs]
  have hmine : ∀ t ∈ (a.deps.addEdge rq l).adj rq, t ∈ vis ++ [l] ∧ (g.lock t).lVnode = (g.lock rq).lVnode ∧
      blocks (g.lock t) (g.lock rq) = true := by
    intro t ht
    rcases mem_addEdge_adj.mp ht with ⟨-, rfl⟩ | ht
    · exact ⟨by simp, hv, hb⟩
    · have hm := ha.mine t ht
      exact ⟨by simp [hm.1], hm.2⟩
  have hedge : Path (a.deps.addEdge rq l) rq l :=
    Relation.TransGen.single (mem_addEdge_adj.mpr (.inl ⟨rfl, rfl⟩))
  have hmono : ∀ t, Path a.deps rq t → Path (a.deps.addEdge rq l) rq t :=
    fun t hp => Relation.TransGen.mono (fun _ _ hst => mem_addEdge_adj.mpr (.inr hst)) rq t hp
  cases checkCycle with
  | false =>
    have heq : addEdgeTo g.lock g.next rq false a l = { a with deps := a.deps.addEdge rq l, dead := false } := by
      simp [addEdgeTo, flkAddEdge, hc]
    rw [heq]
    exact .inr ⟨⟨hpair, hold, hmine, fun x hx => hmono x (ha.color x hx), ha.ps, rfl⟩, hedge, hmono, rfl, rfl⟩
  | true =>
    have hu : ∀ v, ∀ w ∈ (a.deps.addEdge rq l).adj v, w ∈ Finset.range g.next := by
      intro v w hw
      rw [Finset.mem_range]
      rcases mem_addEdge_adj.mp hw with ⟨-, rfl⟩ | hw
      · exact hln
      · exact ha.bounded h hvis hw
    obtain ⟨-, hsound, -, -⟩ := search_spec (fun (dead : Bool) (_ : Nat) => dead)
      (fun dead k => dead || sameOwner (g.lock k) (g.lock rq)) hu (searchFuel g.next) a.color [rq] false
      (searchFuel_enough g.next a.color rq)
    set s := search (a.deps.addEdge rq l).adj (fun (dead : Bool) (_ : Nat) => dead)
      (fun dead k => dead || sameOwner (g.lock k) (g.lock rq)) (searchFuel g.next) ⟨a.color, [rq], false⟩ with hs
    cases hdead : s.acc with
    | true =>
      have heq : addEdgeTo g.lock g.next rq true a l =
          { a with deps := (a.deps.addEdge rq l).removeAdjEdges rq, color := s.seen, dead := true } := by
        simp only [addEdgeTo, flkAddEdge, hc, if_false, Bool.false_eq_true, Bool.not_true]
        rw [← hs, hdead]
        rfl
      rw [heq]
      obtain ⟨h1, h2⟩ := removeAdjEdges_paired hpair rq
      refine .inl ⟨rfl, h1, ?_, ha.ps⟩
      intro b t
      rw [h2 b t]
      by_cases hb : b = rq
      · simp [hb]
      · simp [hb, hold b t hb]
    | false =>
      have heq : addEdgeTo g.lock g.next rq true a l =
          { a with deps := a.deps.addEdge rq l, color := s.seen, dead := false } := by
        simp only [addEdgeTo, flkAddEdge, hc, if_false, Bool.false_eq_true, Bool.not_true]
        rw [← hs, hdead]
        rfl
      rw [heq]
      refine .inr ⟨⟨hpair, hold, hmine, ?_, ha.ps, rfl⟩, hedge, hmono, rfl, rfl⟩
      intro x hx
      rcases hsound x hx with hx | ⟨v, hv, hp⟩
      · exact hmono x (ha.color x hx)
      · rw [mem_singleton] at hv
        exact hv ▸ hp

/-- `c` is a sleeping write lock that covers the request, and the request waits for it. -/
structure Covering (g : Graph) (rq : Nat) (a : AddEdges) (c : Nat) : Prop where
  sleeping : c ∈ g.sleeping
  vnode : (g.lock c).lVnode = (g.lock rq).lVnode
  write : (g.lock c).lType = .wrlck
  covers : covers (g.lock c) (g.lock rq) = true
  path : Path a.deps rq c

lemma Covering.blocks {a : AddEdges} {c : Nat} (h : Arrived g rq) (hc : Covering g rq a c) {t : LockDescriptor}
    (ht : t.Ranged) (ho : t.owner ≠ (g.lock c).owner) (hb : blocks t (g.lock rq) = true) :
    Flock.blocks t (g.lock c) = true := by
  rw [blocks_iff ht h.pending.ranged] at hb
  obtain ⟨-, -, x, hxt, hxr⟩ := hb
  rw [blocks_iff ht (h.inv.sleep.ranged c hc.sleeping)]
  refine ⟨ho, .inr hc.write, x, hxt, ?_⟩
  have hcov := hc.covers
  simp only [Flock.covers, and_eq_true, decide_eq_true_eq] at hcov
  unfold LockDescriptor.Has at hxr ⊢
  omega

lemma Covering.reaches {vis : List Nat} {a : AddEdges} {c : Nat} (h : Arrived g rq) (ha : Adding g rq vis a)
    (hc : Covering g rq a c) {t : Nat} (ht : (t ∈ g.sleeping ∧ t < c) ∨ t ∈ g.active)
    (hv : (g.lock t).lVnode = (g.lock rq).lVnode) (ho : (g.lock t).owner ≠ (g.lock c).owner)
    (hb : Flock.blocks (g.lock t) (g.lock rq) = true) : Path a.deps rq t := by
  have htr : (g.lock t).Ranged := by
    rcases ht with ht | ht
    · exact h.inv.sleep.ranged t ht.1
    · exact h.inv.list.ranged t ht
  have hbc := hc.blocks h htr ho hb
  have hp := h.inv.reaches c hc.sleeping t ht (hv.trans hc.vnode.symm) hbc
  exact hc.path.trans (ha.path_mono h hp)

lemma coveredByOther_iff {lock : Nat → LockDescriptor} {o : Option Nat} {l : Nat} :
    coveredByOther lock o l = true ↔ ∃ c, o = some c ∧ (lock l).owner ≠ (lock c).owner := by
  cases o with
  | none => simp [coveredByOther]
  | some c =>
    simp only [coveredByOther, any_some, not_eq_true', some.injEq, exists_eq_left']
    rw [← not_eq_true, sameOwner_iff]

lemma Adding.widen {vis vis' : List Nat} {a : AddEdges} (ha : Adding g rq vis a) (h : ∀ t ∈ vis, t ∈ vis') :
    Adding g rq vis' a := by
  refine ⟨ha.paired, ha.old, ?_, ha.color, ha.ps, ha.alive⟩
  intro t ht
  have hm := ha.mine t ht
  exact ⟨h t hm.1, hm.2⟩

lemma Covering.mono {a a' : AddEdges} {c : Nat} (hc : Covering g rq a c)
    (hp : Path a.deps rq c → Path a'.deps rq c) : Covering g rq a' c :=
  ⟨hc.sleeping, hc.vnode, hc.write, hc.covers, hp hc.path⟩

/-- The walk over the sleeping locks has passed `vis`. -/
structure SleepWalk (g : Graph) (rq : Nat) (vis : List Nat) (a : AddEdges) : Prop where
  adding : Adding g rq vis a
  reached : ∀ t ∈ vis, blocks (g.lock t) (g.lock rq) = true → Path a.deps rq t
  cover : ∀ c ∈ a.coveredBy, Covering g rq a c ∧ c ∈ vis
  second : a.second = false

/-- The request reaches all sleeping locks that block it, and once two covering locks were
found also all active ones; else the active ones of other owners than the covering lock's. -/
structure SleepDone (g : Graph) (rq : Nat) (a : AddEdges) : Prop where
  adding : Adding g rq (g.sleepVp (g.lock rq).lVnode) a
  reached : ∀ t ∈ g.sleepVp (g.lock rq).lVnode, blocks (g.lock t) (g.lock rq) = true → Path a.deps rq t
  second : a.second = true → ∀ t ∈ g.activeVp (g.lock rq).lVnode, blocks (g.lock t) (g.lock rq) = true →
    Path a.deps rq t
  cover : ∀ c ∈ a.coveredBy, Covering g rq a c

lemma SleepWalk.done {a : AddEdges} (hw : SleepWalk g rq (g.sleepVp (g.lock rq).lVnode) a) : SleepDone g rq a := by
  refine ⟨hw.adding, hw.reached, ?_, fun c hc => (hw.cover c hc).1⟩
  intro hs
  rw [hw.second] at hs
  exact Bool.noConfusion hs

lemma SleepWalk.second_done (h : Arrived g rq) {vis ls : List Nat} {l c : Nat} {a : AddEdges}
    (hsplit : vis ++ l :: ls = g.sleepVp (g.lock rq).lVnode) (hw : SleepWalk g rq vis a)
    (hb : blocks (g.lock l) (g.lock rq) = true) (hcov : covers (g.lock l) (g.lock rq) = true)
    (hwr : (g.lock l).lType = .wrlck) (hc : a.coveredBy = some c) (ho : (g.lock l).owner ≠ (g.lock c).owner) :
    SleepDone g rq { a with second := true } := by
  have hord := h.inv.sleep.sleepVp_order (g.lock rq).lVnode
  have hmem : ∀ t, t ∈ vis ++ l :: ls → t ∈ g.sleeping ∧ (g.lock t).lVnode = (g.lock rq).lVnode := by
    intro t ht
    rw [hsplit] at ht
    exact h.inv.sleep.mem_sleepVp.mp ht
  rw [← hsplit, pairwise_append, pairwise_cons] at hord
  obtain ⟨hcc, hcv⟩ := hw.cover c hc
  have hlm := hmem l (by simp)
  have hlc : l < c := hord.2.2 c hcv l (by simp)
  have hlp : Path a.deps rq l := hcc.reaches h hw.adding (.inl ⟨hlm.1, hlc⟩) hlm.2 ho hb
  have hcl : Covering g rq a l := ⟨hlm.1, hlm.2, hwr, hcov, hlp⟩
  -- whoever is not reached through `c` has its owner, and is reached through `l`
  have hall : ∀ t, ((t ∈ g.sleeping ∧ t < l) ∨ t ∈ g.active) → (g.lock t).lVnode = (g.lock rq).lVnode →
      blocks (g.lock t) (g.lock rq) = true → Path a.deps rq t := by
    intro t ht hv hbt
    by_cases hoc : (g.lock t).owner = (g.lock c).owner
    · have hol : (g.lock t).owner ≠ (g.lock l).owner := fun he => ho (he.symm.trans hoc)
      exact hcl.reaches h hw.adding ht hv hol hbt
    · apply hcc.reaches h hw.adding _ hv hoc hbt
      rcases ht with ht | ht
      · exact .inl ⟨ht.1, lt_trans ht.2 hlc⟩
      · exact .inr ht
  have hadd : Adding g rq (g.sleepVp (g.lock rq).lVnode) a :=
    hw.adding.widen (fun t ht => by rw [← hsplit]; simp [ht])
  refine ⟨⟨hadd.paired, hadd.old, hadd.mine, hadd.color, hadd.ps, hadd.alive⟩, ?_, ?_, ?_⟩
  · intro t ht hbt
    rw [← hsplit] at ht
    have htm := hmem t ht
    simp only [mem_append, mem_cons] at ht
    rcases ht with ht | rfl | ht
    · exact hw.reached t ht hbt
    · exact hlp
    · exact hall t (.inl ⟨htm.1, hord.2.1.1 t ht⟩) htm.2 hbt
  · intro _ t ht hbt
    rw [h.inv.list.ok.mem_activeVp] at ht
    exact hall t (.inr ht.1) ht.2 hbt
  · intro k hk
    have hkk := (hw.cover k hk).1
    exact ⟨hkk.sleeping, hkk.vnode, hkk.write, hkk.covers, hkk.path⟩

lemma addSleepEdges_spec (h : Arrived g rq) (ls : List Nat) :
    ∀ (vis : List Nat) (a : AddEdges), vis ++ ls = g.sleepVp (g.lock rq).lVnode → SleepWalk g rq vis a →
      ((addSleepEdges g.lock g.next rq ls a).dead = true ∧ Dead g rq (addSleepEdges g.lock g.next rq ls a)) ∨
        SleepDone g rq (addSleepEdges g.lock g.next rq ls a) := by
  induction ls with
  | nil =>
    intro vis a hsplit hw
    rw [append_nil] at hsplit
    subst hsplit
    exact .inr hw.done
  | cons l ls ih =>
    intro vis a hsplit hw
    have hsplit' : (vis ++ [l]) ++ ls = g.sleepVp (g.lock rq).lVnode := by simpa using hsplit
    have hord := h.inv.sleep.sleepVp_order (g.lock rq).lVnode
    have hmem : ∀ t, t ∈ vis ++ l :: ls → t ∈ g.sleeping ∧ (g.lock t).lVnode = (g.lock rq).lVnode := by
      intro t ht
      rw [hsplit] at ht
      exact h.inv.sleep.mem_sleepVp.mp ht
    rw [← hsplit, pairwise_append, pairwise_cons] at hord
    have hlm := hmem l (by simp)
    have hvis : ∀ t ∈ vis, t ∈ g.sleeping ∨ t ∈ g.active := fun t ht => .inl (hmem t (by simp [ht])).1
    have hlvis : l ∉ vis := fun hm => lt_irrefl _ (hord.2.2 l hm l (by simp))
    have hwiden : Adding g rq (vis ++ [l]) a := hw.adding.widen (fun t ht => by simp [ht])
    -- `l` is passed without an edge
    have hskip : (blocks (g.lock l) (g.lock rq) = true → Path a.deps rq l) → SleepWalk g rq (vis ++ [l]) a := by
      intro hl
      refine ⟨hwiden, ?_, fun c hc => ⟨(hw.cover c hc).1, by simp [(hw.cover c hc).2]⟩, hw.second⟩
      exact forall_mem_append.mpr ⟨hw.reached, forall_mem_singleton.mpr hl⟩
    have hreach : ∀ {d : Deps}, (∀ t, Path a.deps rq t → Path d rq t) → Path d rq l →
        ∀ t ∈ vis ++ [l], blocks (g.lock t) (g.lock rq) = true → Path d rq t := fun hmono hl =>
      forall_mem_append.mpr ⟨fun t ht hb => hmono t (hw.reached t ht hb), forall_mem_singleton.mpr fun _ => hl⟩
    by_cases hb : blocks (g.lock l) (g.lock rq) = true
    swap
    · simp only [addSleepEdges, hb]
      exact ih _ a hsplit' (hskip (fun hb' => absurd hb' hb))
    by_cases hcovering : (covers (g.lock l) (g.lock rq) && (g.lock l).lType == .wrlck) = true
    · have hcov := hcovering
      simp only [and_eq_true, beq_iff_eq] at hcov
      by_cases hother : coveredByOther g.lock a.coveredBy l = true
      · obtain ⟨c, hc, ho⟩ := coveredByOther_iff.mp hother
        simp only [addSleepEdges, hb, hcovering, hother, Bool.and_true, if_true]
        exact .inr (hw.second_done h hsplit hb hcov.1 hcov.2 hc ho)
      have hself : ¬coveredByOther g.lock (some l) l = true := by
        rw [coveredByOther_iff]
        rintro ⟨c, hc, ho⟩
        rw [some.injEq] at hc
        exact ho (by rw [hc])
      have ha1 : Adding g rq vis { a with coveredBy := some l } :=
        ⟨hw.adding.paired, hw.adding.old, hw.adding.mine, hw.adding.color, hw.adding.ps, hw.adding.alive⟩
      have hspec := addEdgeTo_spec h false ha1 hvis hlvis (h.inv.sleep.lt l hlm.1)
        (fun he => h.asleep (he ▸ hlm.1)) hlm.2 hb
      simp only [addSleepEdges, hb, hcovering, hother, Bool.and_false, Bool.false_eq_true, if_false, if_true, hself,
        isNone_some]
      set a' := addEdgeTo g.lock g.next rq false { a with coveredBy := some l } l with ha'
      rcases hspec with ⟨hd, hdead⟩ | ⟨hadd, hpl, hmono, hcb, hsec⟩
      · rw [if_pos hd]
        exact .inl ⟨hd, hdead⟩
      rw [if_neg (by rw [hadd.alive]; simp)]
      apply ih _ a' hsplit'
      refine ⟨hadd, ?_, ?_, by rw [hsec]; exact hw.second⟩
      · exact hreach hmono hpl
      · intro c hc
        rw [hcb, mem_def, some.injEq] at hc
        subst hc
        exact ⟨⟨hlm.1, hlm.2, hcov.2, hcov.1, hpl⟩, by simp⟩
    · by_cases hother : coveredByOther g.lock a.coveredBy l = true
      · obtain ⟨c, hc, ho⟩ := coveredByOther_iff.mp hother
        simp only [addSleepEdges, hb, hcovering, Bool.false_and, Bool.false_eq_true, if_false, if_true, hother]
        apply ih _ a hsplit' (hskip _)
        intro _
        obtain ⟨hcc, hcv⟩ := hw.cover c hc
        exact hcc.reaches h hw.adding (.inl ⟨hlm.1, hord.2.2 c hcv l (by simp)⟩) hlm.2 ho hb
      have hspec := addEdgeTo_spec h a.coveredBy.isNone hw.adding hvis hlvis (h.inv.sleep.lt l hlm.1)
        (fun he => h.asleep (he ▸ hlm.1)) hlm.2 hb
      simp only [addSleepEdges, hb, hcovering, Bool.false_and, Bool.false_eq_true, if_false, if_true, hother]
      set a' := addEdgeTo g.lock g.next rq a.coveredBy.isNone a l with ha'
      rcases hspec with ⟨hd, hdead⟩ | ⟨hadd, hpl, hmono, hcb, hsec⟩
      · rw [if_pos hd]
        exact .inl ⟨hd, hdead⟩
      rw [if_neg (by rw [hadd.alive]; simp)]
      apply ih _ a' hsplit'
      refine ⟨hadd, ?_, ?_, by rw [hsec]; exact hw.second⟩
      · exact hreach hmono hpl
      · intro c hc
        have hcc := hw.cover c hc
        exact ⟨hcc.1.mono (hmono c), by simp [hcc.2]⟩

lemma addActiveEdges_spec (h : Arrived g rq) (ls : List Nat) :
    ∀ (vis : List Nat) (a : AddEdges), vis ++ ls = g.activeVp (g.lock rq).lVnode →
      Adding g rq (g.sleepVp (g.lock rq).lVnode ++ vis) a → (∀ c ∈ a.coveredBy, Covering g rq a c) →
      (∀ t ∈ g.sleepVp (g.lock rq).lVnode ++ vis, blocks (g.lock t) (g.lock rq) = true → Path a.deps rq t) →
      ((addActiveEdges g.lock g.next rq ls a).dead = true ∧ Dead g rq (addActiveEdges g.lock g.next rq ls a)) ∨
        (Adding g rq (g.sleepVp (g.lock rq).lVnode ++ g.activeVp (g.lock rq).lVnode)
            (addActiveEdges g.lock g.next rq ls a) ∧
          ∀ t ∈ g.sleepVp (g.lock rq).lVnode ++ g.activeVp (g.lock rq).lVnode,
            blocks (g.lock t) (g.lock rq) = true → Path (addActiveEdges g.lock g.next rq ls a).deps rq t) := by
  induction ls with
  | nil =>
    intro vis a hsplit ha _ hreach
    rw [append_nil] at hsplit
    subst hsplit
    exact .inr ⟨ha, hreach⟩
  | cons l ls ih =>
    intro vis a hsplit ha hcover hreach
    have hsplit' : (vis ++ [l]) ++ ls = g.activeVp (g.lock rq).lVnode := by simpa using hsplit
    have hassoc : g.sleepVp (g.lock rq).lVnode ++ (vis ++ [l]) = (g.sleepVp (g.lock rq).lVnode ++ vis) ++ [l] := by simp
    have hmem : ∀ t, t ∈ vis ++ l :: ls → t ∈ g.active ∧ (g.lock t).lVnode = (g.lock rq).lVnode := by
      intro t ht
      rw [hsplit] at ht
      exact h.inv.list.ok.mem_activeVp.mp ht
    have hlm := hmem l (by simp)
    have hnd : (vis ++ l :: ls).Nodup := by
      rw [hsplit, h.inv.list.ok.activeVp]
      exact h.inv.list.ok.nodup.filter _
    have hvis : ∀ t ∈ g.sleepVp (g.lock rq).lVnode ++ vis, t ∈ g.sleeping ∨ t ∈ g.active := by
      refine forall_mem_append.mpr ⟨fun t ht => .inl (h.inv.sleep.mem_sleepVp.mp ht).1, fun t ht => ?_⟩
      exact .inr (hmem t (by simp [ht])).1
    have hlvis : l ∉ g.sleepVp (g.lock rq).lVnode ++ vis := by
      intro hm
      rcases mem_append.mp hm with hm | hm
      · exact h.inv.awake l (h.inv.sleep.mem_sleepVp.mp hm).1 hlm.1
      · rw [nodup_append] at hnd
        exact hnd.2.2 l hm l (by simp) rfl
    by_cases hb : (blocks (g.lock l) (g.lock rq) && !coveredByOther g.lock a.coveredBy l) = true
    · have hb' := hb
      simp only [and_eq_true] at hb'
      have hspec := addEdgeTo_spec h true ha hvis hlvis (h.inv.list.lt l hlm.1)
        (fun he => h.pending.fresh (he ▸ hlm.1)) hlm.2 hb'.1
      simp only [addActiveEdges, hb, if_true]
      set a' := addEdgeTo g.lock g.next rq true a l with ha'
      rcases hspec with ⟨hd, hdead⟩ | ⟨hadd, hpl, hmono, hcb, -⟩
      · rw [if_pos hd]
        exact .inl ⟨hd, hdead⟩
      rw [if_neg (by rw [hadd.alive]; simp)]
      apply ih _ a' hsplit' (hassoc ▸ hadd)
      · intro c hc
        exact (hcover c hc).mono (hmono c)
      · rw [hassoc]
        exact forall_mem_append.mpr ⟨fun t ht hbt => hmono t (hreach t ht hbt), forall_mem_singleton.mpr fun _ => hpl⟩
    · simp only [addActiveEdges, hb]
      apply ih _ a hsplit' _ hcover
      · rw [hassoc]
        refine forall_mem_append.mpr ⟨hreach, forall_mem_singleton.mpr fun hbt => ?_⟩
        have hother : coveredByOther g.lock a.coveredBy l = true := by
          by_contra hno
          rw [not_eq_true] at hno
          exact hb (by rw [hbt, hno]; rfl)
        obtain ⟨c, hc, ho⟩ := coveredByOther_iff.mp hother
        exact (hcover c hc).reaches h ha (.inr hlm.1) hlm.2 ho hbt
      · rw [hassoc]
        exact ha.widen fun t ht => mem_append_left _ ht

end Solaris.Flock
