import Solaris.Flock.Requests

/-!
# Requests that meet sleeping locks

The sleeping list, and how the sleeping locks come to wait for a request that is granted
past them.
-/

namespace Solaris.Flock

open Lib List

variable {g : Graph} {rq l : Nat}

lemma SleepOk.sorted (h : SleepOk g) :
    g.sleeping.Pairwise (fun a b => (g.lock a).lVnode ≤ (g.lock b).lVnode) := by
  apply h.order.imp
  intro a b hab
  omega

lemma SleepOk.nodup (h : SleepOk g) : g.sleeping.Nodup := by
  apply h.order.imp
  rintro a b hab rfl
  omega

lemma SleepOk.sleepVp (h : SleepOk g) (vp : Nat) :
    g.sleepVp vp = g.sleeping.filter (fun s => (g.lock s).lVnode = vp) := by
  have hs := Segment.of_sorted vp h.sorted
  unfold Graph.sleepVp
  rw [hs.find?_key]
  cases hm : g.sleeping.filter (fun s => (g.lock s).lVnode = vp) with
  | nil => rfl
  | cons first rest =>
    rw [hm] at hs
    exact walkVp_head hs

lemma SleepOk.mem_sleepVp (h : SleepOk g) {vp s : Nat} :
    s ∈ g.sleepVp vp ↔ s ∈ g.sleeping ∧ (g.lock s).lVnode = vp := by
  simp [h.sleepVp]

lemma SleepOk.sleepVp_order (h : SleepOk g) (vp : Nat) : (g.sleepVp vp).Pairwise (fun a b => b < a) := by
  have hf := h.order.filter (fun s => (g.lock s).lVnode = vp)
  rw [h.sleepVp]
  apply hf.imp_of_mem
  intro a b ha hb hab
  simp only [mem_filter, decide_eq_true_eq] at ha hb
  omega

lemma mem_flkInsertSleepingLock (g : Graph) (rq : Nat) {s : Nat} :
    s ∈ (flkInsertSleepingLock g rq).sleeping ↔ s = rq ∨ s ∈ g.sleeping := by
  simp only [flkInsertSleepingLock, mem_append, mem_cons]
  rw [← takeWhile_append_dropWhile (p := fun l => decide ((g.lock l).lVnode < (g.lock rq).lVnode))
    (l := g.sleeping), mem_append]
  simp only [takeWhile_append_dropWhile]
  tauto

lemma SleepOk.insert (h : SleepOk g) (hlt : rq < g.next) (hr : (g.lock rq).Ranged) (hl : (g.lock rq).lType ≠ .unlck)
    (habove : ∀ s ∈ g.sleeping, s < rq) : SleepOk (flkInsertSleepingLock g rq) := by
  have hmem := fun s => mem_flkInsertSleepingLock g rq (s := s)
  refine ⟨?_, ?_, ?_, ?_⟩
  · intro s hs
    rcases (hmem s).mp hs with rfl | hs
    · exact hlt
    · exact h.lt s hs
  · intro s hs
    rcases (hmem s).mp hs with rfl | hs
    · exact hr
    · exact h.ranged s hs
  · intro s hs
    rcases (hmem s).mp hs with rfl | hs
    · exact hl
    · exact h.locked s hs
  · have hord := h.order
    rw [← takeWhile_append_dropWhile (p := fun l => decide ((g.lock l).lVnode < (g.lock rq).lVnode))
      (l := g.sleeping), pairwise_append] at hord
    simp only [flkInsertSleepingLock]
    rw [pairwise_append, pairwise_cons]
    refine ⟨hord.1, ⟨?_, hord.2.1⟩, ?_⟩
    · intro b hb
      have hle := le_of_mem_dropWhile _ h.sorted hb
      have hbr := habove b ((dropWhile_sublist _).mem hb)
      rcases Nat.lt_or_eq_of_le hle with hlt | heq
      · exact .inl hlt
      · exact .inr ⟨heq, hbr⟩
    · intro a ha b hb
      have hav : (g.lock a).lVnode < (g.lock rq).lVnode := by simpa using mem_takeWhile_imp ha
      rcases mem_cons.mp hb with rfl | hb
      · exact .inl hav
      · exact hord.2.2 a ha b hb

lemma Waits.exists_sink {lock : Nat → LockDescriptor} {sleeping : List Nat} {E : Nat → Prop} {d : Deps}
    (h : Waits lock sleeping E d) (hE : ∀ t, E t → t ∉ sleeping) :
    ∀ k s, sleepRank sleeping s < k → d.adj s ≠ [] → ∃ t, Path d s t ∧ d.adj t = [] := by
  intro k
  induction k with
  | zero =>
    intro s hs
    omega
  | succ k ih =>
    intro s hs hne
    obtain ⟨b, hb⟩ := exists_mem_of_ne_nil _ hne
    by_cases hbn : d.adj b = []
    · exact ⟨b, Relation.TransGen.single hb, hbn⟩
    · have hrank := h.rank_lt hE hb
      obtain ⟨t, hp, ht⟩ := ih b (by omega) hbn
      exact ⟨t, Relation.TransGen.head hb hp, ht⟩

lemma Waits.path_target {lock : Nat → LockDescriptor} {sleeping : List Nat} {E : Nat → Prop} {d : Deps}
    (h : Waits lock sleeping E d) {s t : Nat} (hp : Path d s t) : t ∈ sleeping ∨ E t := by
  obtain ⟨b, -, hbt⟩ := Relation.TransGen.tail'_iff.mp hp
  rcases (h.edge b t hbt).2.1 with ht | ht
  · exact .inl ht.1
  · exact .inr ht

/-- `d` is `d₀` with further edges to `rq`, from waiting locks that `rq` blocks. -/
structure Linked (lock : Nat → LockDescriptor) (sleeping : List Nat) (d₀ d : Deps) (rq : Nat) : Prop where
  paired : Paired d
  old : ∀ s t, t ∈ d₀.adj s → t ∈ d.adj s
  new : ∀ s t, t ∈ d.adj s → t ∈ d₀.adj s ∨ (t = rq ∧ s ∈ sleeping ∧ d₀.adj s ≠ [] ∧
    (lock rq).lVnode = (lock s).lVnode ∧ blocks (lock rq) (lock s) = true)

section Linking

variable {lock : Nat → LockDescriptor} {sleeping : List Nat} {E : Nat → Prop} {d₀ d : Deps} {n : Nat}

lemma Linked.path_iff (h : Linked lock sleeping d₀ d rq) (hrq : rq ∉ sleeping) (hw : Waits lock sleeping E d₀)
    {s t : Nat} (ht : t ≠ rq) : Path d s t ↔ Path d₀ s t := by
  constructor
  · intro hp
    have hd : ∀ a b, b ∈ d.adj a → b ≠ rq → b ∈ d₀.adj a := by
      intro a b hab hb
      rcases h.new a b hab with hab | ⟨he, -⟩
      · exact hab
      · exact absurd he hb
    rcases path_split hd hp ht with hp | ⟨-, hp⟩
    · exact hp
    · obtain ⟨b, hb, -⟩ := Relation.TransGen.head'_iff.mp hp
      rcases h.new rq b hb with hb | ⟨-, hs, -⟩
      · rw [hw.sink hrq] at hb
        exact absurd hb not_mem_nil
      · exact absurd hs hrq
  · intro hp
    exact Relation.TransGen.mono h.old s t hp

lemma Linked.waits (h : Linked lock sleeping d₀ d rq) (hw : Waits lock sleeping E d₀) :
    Waits lock sleeping (fun t => E t ∨ t = rq) d := by
  refine ⟨h.paired, ?_⟩
  intro s t hst
  rcases h.new s t hst with hst | ⟨rfl, hs, -, hv, hb⟩
  · obtain ⟨h1, h2, h3⟩ := hw.edge s t hst
    refine ⟨h1, ?_, h3⟩
    rcases h2 with h2 | h2
    · exact .inl h2
    · exact .inr (.inl h2)
  · exact ⟨hs, .inr (.inr rfl), hv, hb⟩

lemma Waits.recomputable_here (h : Waits lock sleeping E d) (hs : ∀ s ∈ sleeping, s < n)
    (hE : ∀ t, E t → t ∉ sleeping) (hEn : ∀ t, E t → t < n) (hl : l < n) {top : List Nat} (hnd : top.Nodup)
    (hlt : ∀ t ∈ top, t < n) (hrank : ∀ t ∈ top, sleepRank sleeping t ≤ sleepRank sleeping l) (hlm : l ∉ top) :
    Recomputable n (sleepRank sleeping) d l top := by
  refine ⟨?_, ?_, hl, ?_, ?_, ?_, hnd, hlt, hrank, hlm⟩
  · exact fun a b hab => (h.lt_next hs hEn hab).2
  · intro b a hab
    exact (h.lt_next hs hEn (h.paired.mem.mpr hab)).1
  · exact fun a b hab => h.rank_lt hE hab
  · exact fun b a hab => h.rank_lt hE (h.paired.mem.mpr hab)
  · exact fun a b _ hab => h.paired.mem.mpr hab

lemma Linked.root (h : Linked lock sleeping d₀ d rq) (hw : Waits lock sleeping E d₀) (hs : ∀ s ∈ sleeping, s < n)
    (hE : ∀ t, E t → t ∉ sleeping) (hEn : ∀ t, E t → t < n) (hrq : rq ∉ sleeping) (hrqn : rq < n) (hl : l < n)
    (hlrq : l ≠ rq) (hv : (lock l).lVnode = (lock rq).lVnode) (ps : ProcState) :
    Linked lock sleeping d₀ (flkRecomputeDependencies lock n d ps l [rq] false).1 rq ∧
      (∀ s t, Path d s t → Path (flkRecomputeDependencies lock n d ps l [rq] false).1 s t) ∧
      (∀ s, Path d₀ s l → blocks (lock rq) (lock s) = true →
        Path (flkRecomputeDependencies lock n d ps l [rq] false).1 s rq) ∧
      Grown lock false (fun _ t => t = rq) d ps (flkRecomputeDependencies lock n d ps l [rq] false).1
        (flkRecomputeDependencies lock n d ps l [rq] false).2 := by
  have hw' := h.waits hw
  have hE' : ∀ t, (E t ∨ t = rq) → t ∉ sleeping := by
    rintro t (ht | rfl)
    · exact hE t ht
    · exact hrq
  have hEn' : ∀ t, (E t ∨ t = rq) → t < n := by
    rintro t (ht | rfl)
    · exact hEn t ht
    · exact hrqn
  have hc : Recomputable n (sleepRank sleeping) d l [rq] := by
    apply hw'.recomputable_here hs hE' hEn' hl (nodup_singleton rq)
    · intro t ht
      rw [mem_singleton] at ht
      exact ht ▸ hrqn
    · intro t ht
      rw [mem_singleton] at ht
      subst ht
      unfold sleepRank
      rw [if_neg hrq]
      omega
    · simpa using hlrq
  obtain ⟨hg, hp⟩ := flkRecomputeDependencies_spec lock false hc ps
  refine ⟨⟨?_, ?_, ?_⟩, fun s t hst => hg.path_mono hst, ?_, ?_⟩
  · exact h.paired.grown (fun _ _ _ hf => hf) hg
  · exact fun s t hst => hg.adj_mono (h.old s t hst)
  · intro s t hst
    rcases hg.adj_new hst with hst | ⟨hdep, ht, hb⟩
    · exact h.new s t hst
    · rw [mem_singleton] at ht
      subst ht
      rw [h.paired.dependent, h.path_iff hrq hw hlrq] at hdep
      have hvs := hw.path_vnode hdep
      exact .inr ⟨rfl, hw.path_source hdep, hdep.head_ne_nil, hv.symm.trans hvs, hb⟩
  · intro s hs hb
    apply hp s _ rq (by simp) hb
    rw [h.paired.dependent, h.path_iff hrq hw hlrq]
    exact hs
  · apply hg.imp
    rintro v t ⟨-, ht, -⟩
    exact mem_singleton.mp ht

lemma linkRoots_spec (hw : Waits lock sleeping E d₀) (hs : ∀ s ∈ sleeping, s < n) (hE : ∀ t, E t → t ∉ sleeping)
    (hEn : ∀ t, E t → t < n) (hrq : rq ∉ sleeping) (hrqn : rq < n) {roots : List Nat}
    (hroots : ∀ l ∈ roots, l < n ∧ l ≠ rq ∧ (lock l).lVnode = (lock rq).lVnode) (ps : ProcState)
    (h : Linked lock sleeping d₀ d rq) :
    Linked lock sleeping d₀ (linkRoots lock n rq roots (d, ps)).1 rq ∧
      (∀ s t, Path d s t → Path (linkRoots lock n rq roots (d, ps)).1 s t) ∧
      (∀ l ∈ roots, ∀ s, Path d₀ s l → blocks (lock rq) (lock s) = true →
        Path (linkRoots lock n rq roots (d, ps)).1 s rq) ∧
      Grown lock false (fun _ t => t = rq) d ps (linkRoots lock n rq roots (d, ps)).1
        (linkRoots lock n rq roots (d, ps)).2 := by
  induction roots generalizing d ps with
  | nil => exact ⟨h, fun s t hp => hp, by simp, Grown.start (SameEdges.refl d)⟩
  | cons l roots ih =>
    obtain ⟨hln, hlrq, hv⟩ := hroots l (by simp)
    obtain ⟨h1, h2, h3, h4⟩ := h.root hw hs hE hEn hrq hrqn hln hlrq hv ps
    obtain ⟨h5, h6, h7, h8⟩ := ih (fun k hk => hroots k (by simp [hk]))
      (flkRecomputeDependencies lock n d ps l [rq] false).2 h1
    refine ⟨h5, fun s t hp => h6 s t (h2 s t hp), ?_, h4.trans h8⟩
    intro k hk s hp hb
    rcases mem_cons.mp hk with rfl | hk
    · exact h6 s rq (h3 s hp hb)
    · exact h7 k hk s hp hb

end Linking

lemma Paired.linked {lock : Nat → LockDescriptor} {sleeping : List Nat} {d : Deps} (h : Paired d) (rq : Nat) :
    Linked lock sleeping d d rq := ⟨h, fun _ _ hst => hst, fun _ _ hst => .inl hst⟩

lemma Arrived.linkRoots_spec (h : Arrived g rq) :
    Linked g.lock g.sleeping g.deps
        (linkRoots g.lock g.next rq (processRoots g (g.lock rq).lVnode) (g.deps, g.ps)).1 rq ∧
      (∀ l ∈ processRoots g (g.lock rq).lVnode, ∀ s, Path g.deps s l → blocks (g.lock rq) (g.lock s) = true →
        Path (linkRoots g.lock g.next rq (processRoots g (g.lock rq).lVnode) (g.deps, g.ps)).1 s rq) ∧
      Grown g.lock false (fun _ t => t = rq) g.deps g.ps
        (linkRoots g.lock g.next rq (processRoots g (g.lock rq).lVnode) (g.deps, g.ps)).1
        (linkRoots g.lock g.next rq (processRoots g (g.lock rq).lVnode) (g.deps, g.ps)).2 := by
  have hroots : ∀ l ∈ processRoots g (g.lock rq).lVnode,
      l < g.next ∧ l ≠ rq ∧ (g.lock l).lVnode = (g.lock rq).lVnode := by
    intro l hl
    simp only [processRoots, mem_append, mem_filter, mem_reverse,
      h.inv.list.ok.mem_activeVp, h.inv.sleep.mem_sleepVp] at hl
    rcases hl with ⟨hl, hv⟩ | ⟨⟨hl, hv⟩, -⟩
    · refine ⟨h.inv.list.lt l hl, ?_, hv⟩
      rintro rfl
      exact h.pending.fresh hl
    · refine ⟨h.inv.sleep.lt l hl, ?_, hv⟩
      rintro rfl
      exact h.asleep hl
  obtain ⟨h1, -, h3, h4⟩ := Flock.linkRoots_spec h.inv.waits h.inv.sleep.lt (fun t ht hs => h.inv.awake t hs ht)
    h.inv.list.lt h.asleep h.pending.lt hroots g.ps (h.inv.waits.paired.linked rq)
  exact ⟨h1, h3, h4⟩

lemma Arrived.linked_reaches (h : Arrived g rq)
    (hgr : ∀ s ∈ g.sleepVp (g.lock rq).lVnode, blocks (g.lock s) (g.lock rq) = true → (g.lState s).granted = false)
    {s : Nat} (hs : s ∈ g.sleeping) (hv : (g.lock rq).lVnode = (g.lock s).lVnode)
    (hb : blocks (g.lock rq) (g.lock s) = true) :
    Path (linkRoots g.lock g.next rq (processRoots g (g.lock rq).lVnode) (g.deps, g.ps)).1 s rq := by
  obtain ⟨-, h2, -⟩ := h.linkRoots_spec
  have hng : (g.lState s).granted = false := by
    apply hgr s (h.inv.sleep.mem_sleepVp.mpr ⟨hs, hv.symm⟩)
    rw [blocks_comm]
    exact hb
  have hne : g.deps.adj s ≠ [] := by
    intro hnil
    rw [(h.inv.granted s hs).mpr hnil] at hng
    exact Bool.noConfusion hng
  obtain ⟨t, hp, ht⟩ := h.inv.waits.exists_sink (fun t ht hs => h.inv.awake t hs ht) _ s (Nat.lt_succ_self _) hne
  have hvt := h.inv.waits.path_vnode hp
  apply h2 t _ s hp hb
  simp only [processRoots, mem_append, mem_filter, mem_reverse,
    h.inv.list.ok.mem_activeVp, h.inv.sleep.mem_sleepVp]
  rcases h.inv.waits.path_target hp with hts | hta
  · exact .inr ⟨⟨hts, hvt.trans hv.symm⟩, (h.inv.granted t hts).mpr ht⟩
  · exact .inl ⟨hta, hvt.trans hv.symm⟩

lemma Inv.edges_congr (h : Inv g) {d : Deps} (hp : Paired d) (hd : ∀ s t, t ∈ d.adj s ↔ t ∈ g.deps.adj s)
    (ps : ProcState) : Inv { g with deps := d, ps := ps } := by
  have hstep : Step d.adj = Step g.deps.adj := by
    funext s t
    exact propext (hd s t)
  refine ⟨h.list.same ⟨rfl, rfl, rfl, rfl, rfl⟩, ⟨h.sleep.lt, h.sleep.ranged, h.sleep.locked, h.sleep.order⟩, h.awake,
    ⟨hp, ?_⟩, ?_, ?_, h.clean⟩
  · intro s t hst
    exact h.waits.edge s t ((hd s t).mp hst)
  · unfold Reaches Path
    rw [hstep]
    exact h.reaches
  · intro s hs
    rw [h.granted s hs, eq_nil_iff_forall_not_mem, eq_nil_iff_forall_not_mem]
    exact forall_congr' fun t => not_congr (hd s t).symm

lemma Arrived.undone (h : Arrived g rq) {d : Deps} (hp : Paired d)
    (hkeep : ∀ s t, t ∈ g.deps.adj s → t ∈ d.adj s)
    (hnew : ∀ s t, t ∈ d.adj s → t ∈ g.deps.adj s ∨ s = rq ∨ t = rq) (ps : ProcState) :
    Inv { g with deps := (d.removeAdjEdges rq).removeInEdges rq, ps := ps } := by
  obtain ⟨h1, h2⟩ := removeAdjEdges_paired hp rq
  obtain ⟨h3, h4⟩ := removeInEdges_paired h1 rq
  apply h.inv.edges_congr h3
  intro s t
  rw [h4, h2]
  constructor
  · rintro ⟨⟨hst, hs⟩, ht⟩
    rcases hnew s t hst with hst | hst | hst
    · exact hst
    · exact absurd hst hs
    · exact absurd hst ht
  · intro hst
    refine ⟨⟨hkeep s t hst, ?_⟩, ?_⟩
    · rintro rfl
      exact h.asleep (h.inv.waits.edge s t hst).1
    · rintro rfl
      rcases (h.inv.waits.edge s t hst).2.1 with ht | ht
      · exact h.asleep ht.1
      · exact h.pending.fresh ht

lemma Linked.execInv {d : Deps} (hl : Linked g.lock g.sleeping g.deps d rq) (h : Arrived g rq)
    (hu : (g.lock rq).lType ≠ .unlck)
    (hclean : ∀ a ∈ g.active, (g.lock a).lVnode = (g.lock rq).lVnode → blocks (g.lock a) (g.lock rq) = false)
    (hreach : ∀ s ∈ g.sleeping, (g.lock rq).lVnode = (g.lock s).lVnode → blocks (g.lock rq) (g.lock s) = true →
      Path d s rq) (ps : ProcState) : ExecInv { g with deps := d, ps := ps } rq := by
  have hmono : ∀ s t, Path g.deps s t → Path d s t :=
    fun s t hp => Relation.TransGen.mono hl.old s t hp
  refine ⟨⟨h.inv.sleep.lt, h.inv.sleep.ranged, h.inv.sleep.locked, h.inv.sleep.order⟩, ?_, ⟨hl.paired, ?_⟩, ?_, ?_,
    h.inv.clean, fun _ => hclean, fun _ s hs hv hb => .inl (hreach s hs hv hb)⟩
  · intro s hs
    refine ⟨h.inv.awake s hs, ?_⟩
    rintro rfl
    exact h.asleep hs
  · intro s t hst
    obtain ⟨h1, h2, h3⟩ := (hl.waits h.inv.waits).edge s t hst
    refine ⟨h1, ?_, h3⟩
    rcases h2 with h2 | h2 | h2
    · exact .inl h2
    · exact .inr (.inl h2)
    · exact .inr (.inr ⟨h2, hu⟩)
  · intro s hs t ht hv hb
    exact hmono s t (h.inv.reaches s hs t ht hv hb)
  · intro s hs
    rw [h.inv.granted s hs]
    constructor
    · intro hnil
      rw [eq_nil_iff_forall_not_mem]
      intro t ht
      rcases hl.new s t ht with ht | ⟨-, -, hne, -⟩
      · rw [hnil] at ht
        exact not_mem_nil ht
      · exact hne hnil
    · intro hnil
      rw [eq_nil_iff_forall_not_mem]
      intro t ht
      have hm := hl.old s t ht
      rw [hnil] at hm
      exact not_mem_nil hm

lemma ExecInv.dismiss (h : ExecInv g rq) (hi : ListInv g) (hp : Pending g rq) (hrq : rq ∉ g.sleeping) :
    Inv (flkWakeup g rq true) := by
  have hs := flkWakeup_same g rq true
  apply Inv.of_core (hi.same hs)
  · apply (h.core.wakeup hrq).mono
    · intro t
      rw [hs.active]
      constructor
      · rintro ⟨ht | ht, hne⟩
        · exact ht
        · exact absurd ht.1 hne
      · intro ht
        refine ⟨.inl ht, ?_⟩
        rintro rfl
        exact hp.fresh ht
    · intro t ht
      rw [hs.active] at ht
      refine ⟨ht, ?_⟩
      rintro rfl
      exact hp.fresh ht
  · rw [hs.lock, hs.active]
    exact h.clean

end Solaris.Flock
