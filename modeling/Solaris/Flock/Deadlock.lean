import Solaris.Flock.Mirror

/-!
# Safety of record locking

What holds of every lock graph after any interleaving of sections.
-/

namespace Solaris.Flock

section Safety

open Lib List

variable {g : Graph} {sys : System}

/-- Overlapping ranges with at least one `F_WRLCK` among them. -/
def Conflict (l1 l2 : LockDescriptor) : Prop :=
  (l1.lType = .wrlck ∨ l2.lType = .wrlck) ∧ ∃ x, l1.Has x ∧ l2.Has x

/-- The active locks of a vnode are contiguous in the list and sorted by `l_start`, and
`v_filocks` points at the first of them. -/
def VnodeSorted (g : Graph) (vp : Nat) : Prop :=
  ∃ pre mid post, g.active = pre ++ (mid ++ post) ∧ (∀ a ∈ mid, (g.lock a).lVnode = vp) ∧
    (∀ a ∈ pre, (g.lock a).lVnode ≠ vp) ∧ (∀ a ∈ post, (g.lock a).lVnode ≠ vp) ∧
    mid.Pairwise (fun a b => (g.lock a).lStart ≤ (g.lock b).lStart) ∧ g.vFilocks vp = mid.head?

structure Safe (g : Graph) : Prop where
  active : ∀ a ∈ g.active, ∀ b ∈ g.active, (g.lock a).lVnode = (g.lock b).lVnode →
    (g.lock a).owner ≠ (g.lock b).owner → ¬ Conflict (g.lock a) (g.lock b)
  granted : ∀ a ∈ g.active, ∀ s ∈ g.sleeping, (g.lState s).granted = true →
    (g.lock a).lVnode = (g.lock s).lVnode → (g.lock a).owner ≠ (g.lock s).owner →
    ¬ Conflict (g.lock a) (g.lock s)
  disjoint : ∀ a ∈ g.active, ∀ b ∈ g.active, a ≠ b → (g.lock a).lVnode = (g.lock b).lVnode →
    (g.lock a).owner = (g.lock b).owner → ¬ ∃ x, (g.lock a).Has x ∧ (g.lock b).Has x
  nodup : g.active.Nodup
  sorted : ∀ vp, VnodeSorted g vp
  filocks : ∀ vp, g.vFilocks vp = none ↔ ∀ a ∈ g.active, (g.lock a).lVnode ≠ vp

lemma Conflict.blocks {l1 l2 : LockDescriptor} (h : Conflict l1 l2) (h1 : l1.Ranged) (h2 : l2.Ranged)
    (ho : l1.owner ≠ l2.owner) : blocks l1 l2 = true := (blocks_iff h1 h2).mpr ⟨ho, h.1, h.2⟩

lemma Inv.vnodeSorted (h : Inv g) (vp : Nat) : VnodeSorted g vp := by
  obtain ⟨pre, mid, post, hs, hp, hv⟩ := h.list.ok.segment vp
  exact ⟨pre, mid, post, hs.split, hs.mid_key, hs.pre_key, hs.post_key, hp, hv⟩

lemma VnodeSorted.filocks_none {vp : Nat} (h : VnodeSorted g vp) :
    g.vFilocks vp = none ↔ ∀ a ∈ g.active, (g.lock a).lVnode ≠ vp := by
  obtain ⟨pre, mid, post, hsplit, hmid, hpre, hpost, -, hv⟩ := h
  rw [hv, hsplit, head?_eq_none_iff]
  constructor
  · rintro rfl a ha
    rw [nil_append, mem_append] at ha
    rcases ha with ha | ha
    · exact hpre a ha
    · exact hpost a ha
  · intro hno
    rw [eq_nil_iff_forall_not_mem]
    intro a ha
    exact hno a (by simp [ha]) (hmid a ha)

lemma Inv.safe (h : Inv g) : Safe g := by
  refine ⟨?_, ?_, ?_, h.list.ok.nodup, h.vnodeSorted, fun vp => (h.vnodeSorted vp).filocks_none⟩
  · intro a ha b hb hv ho hc
    have hbl := hc.blocks (h.list.ranged a ha) (h.list.ranged b hb) ho
    rw [h.clean a b ha hb hv] at hbl
    exact Bool.noConfusion hbl
  · intro a ha s hs hg hv ho hc
    have hbl := hc.blocks (h.list.ranged a ha) (h.sleep.ranged s hs) ho
    have hp := h.reaches s hs a (.inr ha) hv hbl
    exact hp.head_ne_nil ((h.granted s hs).mp hg)
  · intro a ha b hb hne hv ho
    rintro ⟨x, hxa, hxb⟩
    exact (h.list.apart a ha b hb hne hv ho).not_both hxa hxb

theorem reachable_safe (h : Reachable sys) (i : Nat) : Safe (sys.graph i) := (h.inv i).safe

/-- One owner holds a write lock and another waits for a byte of it. -/
def contended : System :=
  (System.empty.step 0 (.lock { desc := ⟨0, .wrlck, 0, 9, 1, 0⟩ })).step 0
    (.lock { desc := ⟨0, .wrlck, 5, 5, 2, 0⟩, willingToSleep := true })

lemma contended_reachable : Reachable contended := by
  apply Reachable.step
  · apply Reachable.step
    · exact Reachable.init
    · decide
    · decide
  · decide
  · decide

theorem contended_safe : (contended.graph 0).active = [0] ∧ (contended.graph 0).sleeping = [1] ∧
    Safe (contended.graph 0) :=
  ⟨by decide, by decide, reachable_safe contended_reachable 0⟩

/-- `t` was queued before `s`: descriptors are numbered as requests arrive, and a request
is queued in the section in which it arrives. -/
def QueuedBefore (g : Graph) (t s : Nat) : Prop := t ∈ g.sleeping ∧ t < s

structure Dependencies (g : Graph) : Prop where
  queue : ∀ s t, [s, t].Sublist g.sleeping → (g.lock t).lVnode = (g.lock s).lVnode → QueuedBefore g t s
  path : ∀ s ∈ g.sleeping, ∀ t, t ∈ g.active ∨ QueuedBefore g t s → (g.lock t).lVnode = (g.lock s).lVnode →
    blocks (g.lock t) (g.lock s) = true → Path g.deps s t
  edge : ∀ s t, t ∈ g.deps.adj s → blocks (g.lock t) (g.lock s) = true
  mirror : ∀ s t, t ∈ g.deps.adj s ↔ s ∈ g.deps.inn t
  waiting : ∀ s ∈ g.sleeping, (g.lState s).granted = false → g.deps.adj s ≠ []
  granted : ∀ s ∈ g.sleeping, (g.lState s).granted = true → g.deps.adj s = []
  acyclic : ∀ s, ¬ Path g.deps s s

lemma SleepOk.queue (h : SleepOk g) {s t : Nat} (hst : [s, t].Sublist g.sleeping)
    (hv : (g.lock t).lVnode = (g.lock s).lVnode) : QueuedBefore g t s := by
  have hpair := h.order.sublist hst
  rw [pairwise_cons] at hpair
  refine ⟨hst.subset (by simp), ?_⟩
  rcases hpair.1 t (by simp) with hlt | hlt
  · rw [hv] at hlt
    exact absurd hlt (lt_irrefl _)
  · exact hlt.2

lemma Waits.acyclic {lock : Nat → LockDescriptor} {sleeping : List Nat} {E : Nat → Prop} {d : Deps}
    (h : Waits lock sleeping E d) (hE : ∀ t, E t → t ∉ sleeping) (s : Nat) : ¬ Path d s s := by
  intro hp
  have hlt : sleepRank sleeping s < sleepRank sleeping s := by
    have hr : Ranked (sleepRank sleeping) d := fun a b hab => h.rank_lt hE hab
    exact Ranked.path hr hp
  exact lt_irrefl _ hlt

lemma Inv.dependencies (h : Inv g) : Dependencies g := by
  refine ⟨fun s t => h.sleep.queue, ?_, ?_, fun s t => h.waits.paired.mem, ?_, ?_, ?_⟩
  · intro s hs t ht
    exact h.reaches s hs t ht.symm
  · intro s t hst
    exact (h.waits.edge s t hst).2.2.2
  · intro s hs hng hnil
    rw [(h.granted s hs).mpr hnil] at hng
    exact Bool.noConfusion hng
  · intro s hs hg
    exact (h.granted s hs).mp hg
  · exact h.waits.acyclic fun t ht hs => h.awake t hs ht

/-- In every reachable state every sleeping lock waits for all that blocks it. -/
theorem reachable_dependencies (h : Reachable sys) (i : Nat) : Dependencies (sys.graph i) := (h.inv i).dependencies

theorem contended_dependencies : (contended.graph 0).deps.adj 1 = [0] ∧ Dependencies (contended.graph 0) :=
  ⟨by decide, reachable_dependencies contended_reachable 0⟩

end Safety

/-!
## Deadlock detection

The process graph counts the lock edges of all lock graphs, and `flk_check_deadlock`
reports a deadlock exactly when the edges of a request close a cycle in it.
-/

section Deadlock

open Lib List Function

variable {g : Graph} {sys : System} {pg : ProcGraph} {m : Owner → Owner → Nat} {d : Deps} {rq : Nat}

/-- The process edge from the vertex of `a` to the vertex of `b`. -/
def ProcGraph.Edge (pg : ProcGraph) (a b : Owner) : Prop :=
  ∃ i v e w, pg.vertex i = some v ∧ v.owner = a ∧ e ∈ v.edge ∧ pg.vertex e.toProc = some w ∧ w.owner = b

/-- The number of lock edges from locks of `a` to locks of `b`. -/
def Graph.lockEdges (g : Graph) (a b : Owner) : Nat :=
  ((Finset.range g.next ×ˢ Finset.range g.next).filter (fun p =>
    p.2 ∈ g.deps.adj p.1 ∧ (g.lock p.1).owner = a ∧ (g.lock p.2).owner = b)).card

def System.lockEdges (sys : System) (a b : Owner) : Nat :=
  ∑ i ∈ Finset.range hashSize, (sys.graph i).lockEdges a b

structure ProcMirrors (sys : System) : Prop where
  unique : ∀ i j a, Slots.At sys.pgraph.vertex i a → Slots.At sys.pgraph.vertex j a → i = j
  single : ∀ i v, sys.pgraph.vertex i = some v → (v.edge.map (·.toProc)).Nodup
  target : ∀ i v e, sys.pgraph.vertex i = some v → e ∈ v.edge → ∃ w, sys.pgraph.vertex e.toProc = some w
  edge : ∀ a b, sys.pgraph.Edge a b ↔ ∃ i < hashSize, ∃ s t, t ∈ (sys.graph i).deps.adj s ∧
    ((sys.graph i).lock s).owner = a ∧ ((sys.graph i).lock t).owner = b
  refcount : ∀ i v e w, sys.pgraph.vertex i = some v → e ∈ v.edge → sys.pgraph.vertex e.toProc = some w →
    e.refcount = sys.lockEdges v.owner w.owner
  incount : ∀ i v, sys.pgraph.vertex i = some v → v.incount = {a | sys.pgraph.Edge a v.owner}.ncard

lemma Counts.edge_iff {X : Nat → Prop} (h : Counts m X pg.vertex) (a b : Owner) : pg.Edge a b ↔ 0 < m a b := by
  constructor
  · rintro ⟨i, v, e, w, hv, rfl, he, hw, rfl⟩
    rw [← h.refcount i v _ w hv hw, (h.ok i v hv).refcount he]
    exact (h.ok i v hv).pos e he
  · intro hm
    obtain ⟨⟨i, v, hv, rfl⟩, j, w, hw, rfl⟩ := h.present a b hm
    rw [← h.refcount i v j w hv hw, (h.ok i v hv).pos_iff] at hm
    obtain ⟨e, he, rfl⟩ := mem_map.mp hm
    exact ⟨i, v, e, w, hv, rfl, he, hw, rfl⟩

lemma Inv.inCount_eq (h : Inv g) (a b : Owner) : inCount g.lock g.deps.inn g.next a b = g.lockEdges a b := by
  have hone : ∀ t, (inPairs g.lock g.deps.inn t).count (a, b) =
      ∑ s ∈ Finset.range g.next, if t ∈ g.deps.adj s ∧ (g.lock s).owner = a ∧ (g.lock t).owner = b then 1 else 0 := by
    intro t
    rw [← Finset.card_filter]
    have hset : (Finset.range g.next).filter (fun s => t ∈ g.deps.adj s ∧ (g.lock s).owner = a ∧ (g.lock t).owner = b) =
        ((g.deps.inn t).filter (fun s => ((g.lock s).owner, (g.lock t).owner) == (a, b))).toFinset := by
      ext s
      simp only [Finset.mem_filter, Finset.mem_range, mem_toFinset, mem_filter, beq_iff_eq, Prod.mk.injEq]
      rw [h.waits.paired.mem]
      exact ⟨fun hx => hx.2, fun hx => ⟨(h.inn_lt hx.1).1, hx⟩⟩
    rw [hset, toFinset_card_of_nodup ((h.waits.paired.inn_nodup t).filter _)]
    unfold inPairs
    rw [count_eq_countP, countP_map, countP_eq_length_filter]
    rfl
  unfold inCount Graph.lockEdges
  rw [Finset.card_filter, Finset.sum_product_right]
  exact Finset.sum_congr rfl fun t _ => hone t

def System.inCount (sys : System) (a b : Owner) : Nat :=
  ∑ i ∈ Finset.range hashSize, Flock.inCount (sys.graph i).lock (sys.graph i).deps.inn (sys.graph i).next a b

lemma Reachable.counts (h : Reachable sys) : Counts sys.inCount (fun _ => False) sys.pgraph.vertex := by
  induction h with
  | init =>
    have hz : ∀ a b, System.empty.inCount a b = 0 := by
      intro a b
      exact Finset.sum_eq_zero fun i _ => rfl
    exact Counts.empty.congr hz
  | @step sys i e hr hi he ih =>
    have hmem : i ∈ Finset.range hashSize := Finset.mem_range.mpr hi
    -- the other graphs do not change
    set base : Owner → Owner → Nat := fun a b => ∑ k ∈ (Finset.range hashSize).erase i,
      Flock.inCount (sys.graph k).lock (sys.graph k).deps.inn (sys.graph k).next a b with hbase
    have hm : Mirrors base (sys.graphAt i) := by
      apply ih.congr
      intro a b
      simp only [hbase, System.inCount]
      rw [← Finset.add_sum_erase _ _ hmem, Nat.add_comm]
      rfl
    have hv : Inv (sys.graphAt i) := (hr.inv i).flags ⟨rfl, rfl, rfl, rfl, rfl⟩ rfl (fun _ => rfl)
    have hm' := Event.apply_mirrors hm hv he
    apply hm'.congr
    intro a b
    simp only [System.inCount, System.step, hbase]
    rw [← Finset.add_sum_erase _ _ hmem, update_self, Nat.add_comm]
    congr 1
    apply Finset.sum_congr rfl
    intro k hk
    rw [update_of_ne (Finset.ne_of_mem_erase hk)]

lemma System.lockEdges_pos (h : Reachable sys) (a b : Owner) : 0 < sys.lockEdges a b ↔ ∃ i < hashSize, ∃ s t,
    t ∈ (sys.graph i).deps.adj s ∧ ((sys.graph i).lock s).owner = a ∧ ((sys.graph i).lock t).owner = b := by
  unfold System.lockEdges
  rw [Finset.sum_pos_iff]
  simp only [Finset.mem_range]
  apply exists_congr
  intro i
  apply and_congr_right
  intro _
  unfold Graph.lockEdges
  rw [Finset.card_pos]
  constructor
  · rintro ⟨p, hp⟩
    rw [Finset.mem_filter] at hp
    exact ⟨p.1, p.2, hp.2⟩
  · rintro ⟨s, t, hst, hs, ht⟩
    have hlt := (h.inv i).waits.lt_next (h.inv i).sleep.lt (h.inv i).list.lt hst
    refine ⟨(s, t), ?_⟩
    rw [Finset.mem_filter, Finset.mem_product, Finset.mem_range, Finset.mem_range]
    exact ⟨hlt, hst, hs, ht⟩

lemma Reachable.procMirrors (h : Reachable sys) : ProcMirrors sys := by
  have hc := h.counts
  have hcount : ∀ a b, sys.inCount a b = sys.lockEdges a b := by
    intro a b
    exact Finset.sum_congr rfl fun i _ => (h.inv i).inCount_eq a b
  have hc := hc.congr (fun a b => (hcount a b).symm)
  refine ⟨hc.unique, fun i v hv => (hc.ok i v hv).nodup, fun i v e hv he => hc.target i v hv e he, ?_, ?_, ?_⟩
  · intro a b
    rw [hc.edge_iff]
    exact System.lockEdges_pos h a b
  · intro i v e w hv he hw
    rw [← hc.refcount i v _ w hv hw, (hc.ok i v hv).refcount he]
  · intro i v hv
    obtain ⟨S, hS, hcard⟩ := hc.incount i v hv
    have hset : {a | sys.pgraph.Edge a v.owner} = (S : Set Owner) := by
      ext a
      rw [Set.mem_ofPred_eq, hc.edge_iff, Finset.mem_coe, hS]
    rw [hcard, hset, Set.ncard_coe_finset]

structure Unhooked (d : Deps) (rq : Nat) : Prop where
  paired : Paired d
  adj : d.adj rq = []
  inn : d.inn rq = []

/-- `d` is `g.deps` with edges of the request `rq`, each between locks that block. -/
def RequestEdges (g : Graph) (rq : Nat) (d : Deps) : Prop :=
  Grown g.lock false (fun s t => (s = rq ∨ t = rq) ∧ blocks (g.lock t) (g.lock s) = true) g.deps g.ps d g.ps

/-- The process edges that the edges of `rq` stand for. -/
def RequestWaits (g : Graph) (rq : Nat) (d : Deps) (a b : Owner) : Prop :=
  (a = (g.lock rq).owner ∧ ∃ t ∈ d.adj rq, b = (g.lock t).owner) ∨
    (b = (g.lock rq).owner ∧ ∃ s ∈ d.inn rq, a = (g.lock s).owner)

section Undo

variable {A : Nat → Nat → Prop} {lock : Nat → LockDescriptor} {d0 : Deps} {ps0 ps : ProcState}

lemma Grown.paired {upd : Bool} (hg : Grown lock upd A d0 ps0 d ps) (h : Paired d0) : Paired d :=
  h.grown (fun _ _ _ hf => hf) hg

lemma Grown.lists {upd : Bool} (hg : Grown lock upd A d0 ps0 d ps) (hA : ∀ s t, A s t → s = rq ∨ t = rq)
    (h : Paired d0) {k : Nat} (hk : k ≠ rq) :
    (d.adj k = d0.adj k ∨ d.adj k = rq :: d0.adj k) ∧ (d.inn k = d0.inn k ∨ d.inn k = rq :: d0.inn k) := by
  induction hg with
  | start hs =>
    rw [hs.adj, hs.inn]
    exact ⟨.inl rfl, .inl rfl⟩
  | @add d d' ps v t hg hvt hn hs ih =>
    have hpd := hg.paired h
    rw [hs.adj, hs.inn]
    simp only [Deps.addEdge]
    constructor
    · by_cases hkv : k = v
      · subst hkv
        have ht : t = rq := (hA k t hvt).resolve_left hk
        subst ht
        rw [update_self]
        rcases ih.1 with hx | hx
        · rw [hx]
          exact .inr rfl
        · rw [hx] at hn
          exact absurd (mem_cons_self ..) hn
      · rw [update_of_ne hkv]
        exact ih.1
    · by_cases hkt : k = t
      · subst hkt
        have hv : v = rq := (hA v k hvt).resolve_right hk
        subst hv
        rw [update_self]
        rcases ih.2 with hx | hx
        · rw [hx]
          exact .inr rfl
        · rw [hpd.mem, hx] at hn
          exact absurd (mem_cons_self ..) hn
      · rw [update_of_ne hkt]
        exact ih.2

lemma Grown.removed {upd : Bool} (hg : Grown lock upd A d0 ps0 d ps) (hA : ∀ s t, A s t → s = rq ∨ t = rq)
    (hself : rq ∉ d.adj rq) (h : Unhooked d0 rq) :
    ((d.removeAdjEdges rq).removeInEdges rq).adj = d0.adj ∧
      ((d.removeAdjEdges rq).removeInEdges rq).inn = d0.inn := by
  have hp := hg.paired h.paired
  obtain ⟨ha1, hi1⟩ := removeAdjEdges_spec d rq (hp.adj_nodup rq)
  obtain ⟨hi2, ha2⟩ := removeInEdges_spec (d.removeAdjEdges rq) rq ((removeAdjEdges_paired hp rq).1.inn_nodup rq)
  have hinn : (d.removeAdjEdges rq).inn rq = d.inn rq := by rw [hi1, if_neg hself]
  have hadj0 : ∀ k, rq ∉ d0.adj k := by
    intro k hk
    rw [h.paired.mem, h.inn] at hk
    exact not_mem_nil hk
  have hinn0 : ∀ k, rq ∉ d0.inn k := by
    intro k hk
    rw [← h.paired.mem, h.adj] at hk
    exact not_mem_nil hk
  constructor
  · funext k
    rw [ha2 k, hinn, ha1]
    by_cases hk : k = rq
    · subst hk
      rw [update_self, h.adj]
      simp
    · rw [update_of_ne hk]
      rcases (hg.lists hA h.paired hk).1 with hx | hx
      · rw [if_neg (fun hm => hadj0 k (hx ▸ hp.mem.mpr hm)), hx]
      · rw [if_pos (hp.mem.mp (by rw [hx]; simp)), hx, erase_cons_head]
  · funext k
    rw [hi2]
    by_cases hk : k = rq
    · subst hk
      rw [update_self, h.inn]
    · rw [update_of_ne hk, hi1 k]
      rcases (hg.lists hA h.paired hk).2 with hx | hx
      · rw [if_neg (fun hm => hinn0 k (hx ▸ hp.mem.mp hm)), hx]
      · rw [if_pos (hp.mem.mpr (by rw [hx]; simp)), hx, erase_cons_head]

end Undo

lemma RequestEdges.blocks (h : RequestEdges g rq d) (hd : Unhooked g.deps rq) {s t : Nat} (hst : t ∈ d.adj s)
    (hr : s = rq ∨ t = rq) : blocks (g.lock t) (g.lock s) = true := by
  rcases h.adj_new hst with hst | ⟨-, hb⟩
  · rcases hr with rfl | rfl
    · rw [hd.adj] at hst
      exact absurd hst not_mem_nil
    · rw [hd.paired.mem, hd.inn] at hst
      exact absurd hst not_mem_nil
  · exact hb

lemma RequestEdges.owners (h : RequestEdges g rq d) (hd : Unhooked g.deps rq) :
    (∀ t ∈ d.adj rq, (g.lock t).owner ≠ (g.lock rq).owner) ∧ ∀ s ∈ d.inn rq, (g.lock s).owner ≠ (g.lock rq).owner := by
  have hp : Paired d := h.paired hd.paired
  refine ⟨fun t ht => blocks_owner (h.blocks hd ht (.inl rfl)), ?_⟩
  intro s hs
  rw [← hp.mem] at hs
  exact Ne.symm (blocks_owner (h.blocks hd hs (.inr rfl)))

lemma flkCheckDeadlock_undone (hpg : Counts m (fun _ => False) g.ps.pg.vertex) (hd : Unhooked g.deps rq)
    (h : RequestEdges g rq d) (hdead : (flkCheckDeadlock { g with deps := d } rq).1 = true) :
    (flkCheckDeadlock { g with deps := d } rq).2.deps.adj = g.deps.adj ∧
      (flkCheckDeadlock { g with deps := d } rq).2.deps.inn = g.deps.inn ∧
      (flkCheckDeadlock { g with deps := d } rq).2.ps.pg.vertex = g.ps.pg.vertex := by
  obtain ⟨hadj, hinn⟩ := h.owners hd
  have hself : rq ∉ d.adj rq := fun hm => hadj rq hm rfl
  rw [flkCheckDeadlock_dead hdead]
  rw [flkCheckDeadlock_fst] at hdead
  obtain ⟨h1, h2⟩ := Grown.removed h (fun s t hst => hst.1) hself hd
  exact ⟨h1, h2, procCheckDeadlock_undone hpg hadj hinn hdead⟩

/-- The process graph mirrors the lock graphs in every reachable state, and deadlock
detection is exact for every acyclic process graph and every request. -/
theorem deadlock_detection_exact :
    (∀ sys, Reachable sys → ProcMirrors sys) ∧
    ∀ (g : Graph) (rq : Nat) (d : Deps) (m : Owner → Owner → Nat), Counts m (fun _ => False) g.ps.pg.vertex →
      Acyclic g.ps.pg.Edge → Unhooked g.deps rq → RequestEdges g rq d →
      ((flkCheckDeadlock { g with deps := d } rq).1 = true ↔
          ¬ Acyclic (fun a b => g.ps.pg.Edge a b ∨ RequestWaits g rq d a b)) ∧
        ((flkCheckDeadlock { g with deps := d } rq).1 = true →
          (flkCheckDeadlock { g with deps := d } rq).2.deps.adj = g.deps.adj ∧
          (flkCheckDeadlock { g with deps := d } rq).2.deps.inn = g.deps.inn ∧
          (flkCheckDeadlock { g with deps := d } rq).2.ps.pg.vertex = g.ps.pg.vertex) := by
  refine ⟨fun _ h => h.procMirrors, ?_⟩
  intro g rq d m hpg hac hd h
  obtain ⟨hadj, hinn⟩ := h.owners hd
  have hrel : WaitsFor m = g.ps.pg.Edge := by
    funext a b
    exact propext (hpg.edge_iff a b).symm
  have hrel' : WaitsFor (plusAll m (edgesOf g.lock rq (d.adj rq) (d.inn rq))) =
      fun a b => g.ps.pg.Edge a b ∨ RequestWaits g rq d a b := by
    funext a b
    rw [← hrel]
    apply propext
    rw [waitsFor_plusAll]
    apply or_congr_right
    rw [mem_edgesOf]
    simp only [Prod.mk.injEq]
    unfold RequestWaits
    constructor
    · rintro (⟨s, hs, h1, h2⟩ | ⟨t, ht, h1, h2⟩)
      · exact .inr ⟨h2, s, hs, h1⟩
      · exact .inl ⟨h1, t, ht, h2⟩
    · rintro (⟨h1, t, ht, h2⟩ | ⟨h1, s, hs, h2⟩)
      · exact .inr ⟨t, ht, h1, h2⟩
      · exact .inl ⟨s, hs, h2, h1⟩
  refine ⟨?_, flkCheckDeadlock_undone hpg hd h⟩
  rw [← hrel', flkCheckDeadlock_fst]
  exact procCheckDeadlock_iff hpg (by rw [hrel]; exact hac) hadj hinn

/-- Two owners that wait for each other: the request 1 waits for the lock 0, whose owner
also has the lock 2, which waits for the request. -/
def crossed : Graph :=
  { Graph.empty with
    lock := fun l => ⟨0, .wrlck, 0, 9, if l = 1 then 2 else 1, 0⟩
    next := 3 }

def crossedDeps : Deps := (crossed.deps.addEdge 1 0).addEdge 2 1

theorem crossed_deadlock : ProcMirrors contended ∧ (flkCheckDeadlock { crossed with deps := crossedDeps } 1).1 = true ∧
    (flkCheckDeadlock { crossed with deps := crossedDeps } 1).2.deps.adj = crossed.deps.adj := by
  have hpaired : Paired crossed.deps :=
    ⟨fun _ => nodup_nil, fun _ => nodup_nil, fun s t _ => by simp [crossed, Graph.empty],
      fun s t hf => hf.elim⟩
  have hvx : crossed.ps.pg.vertex = fun _ => none := rfl
  have hac : Acyclic crossed.ps.pg.Edge := by
    intro a hp
    obtain ⟨b, ⟨i, v, e, w, hv, -⟩, -⟩ := Relation.TransGen.head'_iff.mp hp
    rw [hvx] at hv
    simp at hv
  have hedges : RequestEdges crossed 1 crossedDeps := by
    have hfirst : RequestEdges crossed 1 (crossed.deps.addEdge 1 0) :=
      Grown.add (Grown.start (SameEdges.refl _)) (by decide) (by decide) (SameEdges.refl _)
    exact Grown.add hfirst (by decide) (by decide) (SameEdges.refl _)
  have hdead : (flkCheckDeadlock { crossed with deps := crossedDeps } 1).1 = true := by decide +kernel
  have hx := (deadlock_detection_exact.2 crossed 1 crossedDeps (fun _ _ => 0) (hvx ▸ Counts.empty) hac
    ⟨hpaired, rfl, rfl⟩ hedges).2 hdead
  refine ⟨deadlock_detection_exact.1 contended contended_reachable, hdead, ?_⟩
  rw [hx.1]

/-- The process graph has a vertex for the owners that wait for a lock or are waited for, and for no other. -/
theorem vertex_iff_waits (h : Reachable sys) (a : Owner) : (∃ i, Slots.At sys.pgraph.vertex i a) ↔
    ∃ i < hashSize, ∃ s t, t ∈ (sys.graph i).deps.adj s ∧
      (((sys.graph i).lock s).owner = a ∨ ((sys.graph i).lock t).owner = a) := by
  have hc := h.counts
  have hedge := h.procMirrors.edge
  constructor
  · rintro ⟨i, v, hv, rfl⟩
    by_contra hno
    refine hc.used i v hv (eq_nil_iff_forall_not_mem.mpr fun e he => ?_) ?_
    · obtain ⟨w, hw⟩ := hc.target i v hv e he
      obtain ⟨k, hk, s, t, hst, hs, _⟩ := (hedge v.owner w.owner).mp ⟨i, v, e, w, hv, rfl, he, hw, rfl⟩
      exact hno ⟨k, hk, s, t, hst, .inl hs⟩
    · obtain ⟨S, hS, hcard⟩ := hc.incount i v hv
      rw [hcard, Finset.card_eq_zero, Finset.eq_empty_iff_forall_notMem]
      intro b hb
      obtain ⟨k, hk, s, t, hst, _, ht⟩ := (hedge b v.owner).mp ((hc.edge_iff _ _).mpr ((hS b).mp hb))
      exact hno ⟨k, hk, s, t, hst, .inr ht⟩
  · rintro ⟨k, hk, s, t, hst, howner⟩
    obtain ⟨hs, ht⟩ := hc.present _ _ ((hc.edge_iff _ _).mp ((hedge _ _).mpr ⟨k, hk, s, t, hst, rfl, rfl⟩))
    rcases howner with rfl | rfl
    · exact hs
    · exact ht

theorem contended_vertex : ∃ i, Slots.At contended.pgraph.vertex i (2, 0) :=
  (vertex_iff_waits contended_reachable (2, 0)).mpr ⟨0, by decide, 1, 0, by decide, .inl rfl⟩

end Deadlock

end Solaris.Flock
