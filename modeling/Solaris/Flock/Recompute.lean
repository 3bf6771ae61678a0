import Solaris.Flock.Edges

/-!
# Recomputing dependencies

`flk_recompute_dependencies` visits the dependents of a lock and gives each of them a path
to every member of the topology that blocks it.
-/

namespace Solaris.Flock

open Lib List Function

variable {lock : Nat → LockDescriptor} {n : Nat} {upd : Bool} {d₀ d : Deps} {ps₀ ps : ProcState}
  {topology : List Nat} {vertex : Nat} {rank : Nat → Nat}

/-- The edges that may be added from `vertex`. -/
def Missing (lock : Nat → LockDescriptor) (topology : List Nat) (vertex v t : Nat) : Prop :=
  v = vertex ∧ t ∈ topology ∧ blocks (lock t) (lock vertex) = true

/-- The colours are what `vertex` reaches, and the count is right. -/
structure Reaching (lock : Nat → LockDescriptor) (upd : Bool) (topology : List Nat) (vertex : Nat) (d₀ : Deps)
    (ps₀ : ProcState) (a : Deps × ProcState × List Nat × Nat) : Prop where
  grown : Grown lock upd (Missing lock topology vertex) d₀ ps₀ a.1 a.2.1
  sound : ∀ x ∈ a.2.2.1, Path a.1 vertex x
  first : ∀ w ∈ a.1.adj vertex, w ∈ a.2.2.1
  closed : ∀ x ∈ a.2.2.1, ∀ w ∈ a.1.adj x, w ∈ a.2.2.1
  count : a.2.2.2 = topology.countP (· ∈ a.2.2.1)

lemma Bounded.grown {A : Nat → Nat → Prop} (h : Bounded n d₀) (hA : ∀ v t, A v t → t < n)
    (hg : Grown lock upd A d₀ ps₀ d ps) : Bounded n d := by
  intro s t ht
  rcases hg.adj_new ht with ht | ht
  · exact h s t ht
  · exact hA s t ht

section Vertex

variable (hb : Bounded n d₀) (hr : Ranked rank d₀) (hnd : topology.Nodup) (htn : ∀ t ∈ topology, t < n)
  (hrt : ∀ t ∈ topology, rank t < rank vertex)

include hb hr hnd htn hrt

lemma recomputeEdge_reaching {a : Deps × ProcState × List Nat × Nat} {t : Nat} (ht : t ∈ topology)
    (h : Reaching lock upd topology vertex d₀ ps₀ a) :
    Reaching lock upd topology vertex d₀ ps₀ (recomputeEdge lock n topology upd vertex a t) ∧
      (∀ x ∈ a.2.2.1, x ∈ (recomputeEdge lock n topology upd vertex a t).2.2.1) ∧
      (blocks (lock t) (lock vertex) = true → t ∈ (recomputeEdge lock n topology upd vertex a t).2.2.1) := by
  obtain ⟨d, ps, color, count⟩ := a
  by_cases hc : t ∈ color
  · simp only [recomputeEdge, hc, if_true]
    exact ⟨h, fun x hx => hx, fun _ => trivial⟩
  by_cases hbl : blocks (lock t) (lock vertex) = true
  swap
  · simp only [recomputeEdge, hc, if_false, hbl]
    exact ⟨h, fun x hx => hx, fun hx => absurd hx (by simp)⟩
  have hstep : recomputeEdge lock n topology upd vertex (d, ps, color, count) t =
      (d.addEdge vertex t, (if upd then flkUpdateProcGraph lock ps vertex t false else ps),
        (flkColorReachables n (d.addEdge vertex t) topology (t :: color) t).1,
        count + 1 + (flkColorReachables n (d.addEdge vertex t) topology (t :: color) t).2) := by
    cases upd <;> simp [recomputeEdge, flkAddEdge, hc, hbl]
  have hgrown := h.grown
  have hmiss : ∀ v s, Missing lock topology vertex v s → rank s < rank v := by
    rintro v s ⟨rfl, hs, -⟩
    exact hrt s hs
  have hnadj : t ∉ d.adj vertex := fun hm => hc (h.first t hm)
  have hgrown' : Grown lock upd (Missing lock topology vertex) d₀ ps₀ (d.addEdge vertex t)
      (if upd then flkUpdateProcGraph lock ps vertex t false else ps) :=
    Grown.add hgrown ⟨rfl, ht, hbl⟩ hnadj (SameEdges.refl _)
  have hbound := hb.grown (fun v s hm => htn s hm.2.1) hgrown'
  have hvc : vertex ∉ color := by
    intro hm
    exact lt_irrefl _ ((hr.grown hmiss hgrown).path (h.sound vertex hm))
  have hcol := flkColorReachables_coloured hbound hnd (t :: color) t
  set c := flkColorReachables n (d.addEdge vertex t) topology (t :: color) t with hcdef
  have hedge : Path (d.addEdge vertex t) vertex t :=
    Relation.TransGen.single (mem_addEdge_adj.mpr (.inl ⟨rfl, rfl⟩))
  have hmono : ∀ x, Path d vertex x → Path (d.addEdge vertex t) vertex x :=
    fun x hp => Relation.TransGen.mono (fun _ _ hst => mem_addEdge_adj.mpr (.inr hst)) vertex x hp
  rw [hstep]
  refine ⟨⟨hgrown', ?_, ?_, ?_, ?_⟩, ?_, ?_⟩
  · intro x hx
    rcases hcol.sound x hx with hx | hp
    · rcases mem_cons.mp hx with rfl | hx
      · exact hedge
      · exact hmono x (h.sound x hx)
    · exact hedge.trans hp
  · intro w hw
    rcases mem_addEdge_adj.mp hw with ⟨-, rfl⟩ | hw
    · exact hcol.mono w (by simp)
    · exact hcol.mono w (mem_cons_of_mem _ (h.first w hw))
  · intro x hx w hw
    by_cases hxc : x ∈ color
    · have hxv : x ≠ vertex := fun he => hvc (he ▸ hxc)
      rcases mem_addEdge_adj.mp hw with ⟨he, -⟩ | hw
      · exact absurd he hxv
      · exact hcol.mono w (mem_cons_of_mem _ (h.closed x hxc w hw))
    · by_cases hxt : x = t
      · subst hxt
        exact hcol.first w hw
      · exact hcol.closed x hx (by simp [hxt, hxc]) w hw
  · have h1 := hcol.count
    have h2 := countP_mem_cons hnd hc
    have h3 := h.count
    simp only [ht, if_true] at h2
    simp only at h3 ⊢
    omega
  · intro x hx
    exact hcol.mono x (mem_cons_of_mem _ hx)
  · intro _
    exact hcol.mono t (by simp)

lemma foldl_recomputeEdge {ts : List Nat} (hts : ∀ t ∈ ts, t ∈ topology) {a : Deps × ProcState × List Nat × Nat}
    (h : Reaching lock upd topology vertex d₀ ps₀ a) :
    Reaching lock upd topology vertex d₀ ps₀ (ts.foldl (recomputeEdge lock n topology upd vertex) a) ∧
      (∀ x ∈ a.2.2.1, x ∈ (ts.foldl (recomputeEdge lock n topology upd vertex) a).2.2.1) ∧
      (∀ t ∈ ts, blocks (lock t) (lock vertex) = true →
        t ∈ (ts.foldl (recomputeEdge lock n topology upd vertex) a).2.2.1) := by
  induction ts generalizing a with
  | nil => exact ⟨h, fun x hx => hx, by simp⟩
  | cons t ts ih =>
    obtain ⟨h1, h2, h3⟩ := recomputeEdge_reaching hb hr hnd htn hrt (hts t (by simp)) h
    obtain ⟨h4, h5, h6⟩ := ih (fun x hx => hts x (by simp [hx])) h1
    refine ⟨h4, fun x hx => h5 x (h2 x hx), ?_⟩
    intro x hx hbl
    rcases mem_cons.mp hx with rfl | hx
    · exact h5 x (h3 hbl)
    · exact h6 x hx hbl

/-- `vertex` gets a path to every blocking member, and the count tells whether it reaches
all of them. -/
theorem recomputeVertex_spec (lock : Nat → LockDescriptor) (upd : Bool) (ps₀ : ProcState) :
    Grown lock upd (Missing lock topology vertex) d₀ ps₀ (recomputeVertex lock n topology upd d₀ ps₀ vertex).1
      (recomputeVertex lock n topology upd d₀ ps₀ vertex).2.1 ∧
    (∀ t ∈ topology, blocks (lock t) (lock vertex) = true →
      Path (recomputeVertex lock n topology upd d₀ ps₀ vertex).1 vertex t) ∧
    ((recomputeVertex lock n topology upd d₀ ps₀ vertex).2.2 = topology.length ↔
      ∀ t ∈ topology, Path (recomputeVertex lock n topology upd d₀ ps₀ vertex).1 vertex t) := by
  have hcol := flkColorReachables_coloured hb hnd [] vertex
  have hcount := hcol.count
  simp only [not_mem_nil, decide_false, countP_false, const_apply, zero_add] at hcount
  have hstart : Reaching lock upd topology vertex d₀ ps₀ (d₀, ps₀, (flkColorReachables n d₀ topology [] vertex).1,
      (flkColorReachables n d₀ topology [] vertex).2) := by
    refine ⟨Grown.start (SameEdges.refl _), ?_, hcol.first, ?_, hcount.symm⟩
    · intro x hx
      rcases hcol.sound x hx with hx | hp
      · exact absurd hx not_mem_nil
      · exact hp
    · intro x hx
      exact hcol.closed x hx not_mem_nil
  obtain ⟨h1, -, h3⟩ := foldl_recomputeEdge hb hr hnd htn hrt (fun t ht => ht) hstart
  refine ⟨h1.grown, fun t ht hbl => h1.sound t (h3 t ht hbl), ?_⟩
  simp only [recomputeVertex]
  set r := topology.foldl (recomputeEdge lock n topology upd vertex) (d₀, ps₀,
    (flkColorReachables n d₀ topology [] vertex).1, (flkColorReachables n d₀ topology [] vertex).2)
  have hcomplete : ∀ x, Path r.1 vertex x → x ∈ r.2.2.1 := by
    intro x hp
    induction hp with
    | single hst => exact h1.first _ hst
    | tail _ hst ih => exact h1.closed _ ih _ hst
  rw [h1.count, countP_eq_length]
  constructor
  · intro hall t ht
    exact h1.sound t (by simpa using hall t ht)
  · intro hall t ht
    simpa using hcomplete t (hall t ht)

end Vertex

/-- The dependents of `root`, as the in-lists have them. -/
abbrev Dependent (d : Deps) (root : Nat) : Nat → Prop := Relation.TransGen (Step d.inn) root

/-- How often the vertices of `T` list `w` in `L`. -/
def meetings (T : List Nat) (L : Nat → List Nat) (w : Nat) : Nat := (T.map (fun u => (L u).count w)).sum

lemma meetings_eq_zero {T : List Nat} {L : Nat → List Nat} {w : Nat} : meetings T L w = 0 ↔ ∀ u ∈ T, w ∉ L u := by
  unfold meetings
  rw [sum_eq_zero_iff]
  constructor
  · intro h u hu
    have h0 := h _ (mem_map_of_mem hu)
    exact count_eq_zero.mp h0
  · intro h x hx
    obtain ⟨u, hu, rfl⟩ := mem_map.mp hx
    exact count_eq_zero.mpr (h u hu)

/-- The marks count the meetings `c` of the locks in `seen`, less one. -/
def Counted (seen : List Nat) (d : Deps) (c : Nat → Nat) : Prop :=
  ∀ w ∈ seen, d.lIndex w + 1 = (c w : Int) ∧ (d.lIndex w ≠ 0 → d.barrier w = true)

lemma foldl_barrier (ws : List Nat) (s : SearchState Nat (Deps × Bool)) (c : Nat → Nat)
    (h : Counted s.seen s.acc.1 c) (h0 : ∀ w, w ∉ s.seen → c w = 0) (hs : SameEdges s.acc.1 d) :
    Counted (ws.foldl (searchVisit barrierAgain barrierFirst) s).seen
      (ws.foldl (searchVisit barrierAgain barrierFirst) s).acc.1 (fun w => c w + ws.count w) ∧
      SameEdges (ws.foldl (searchVisit barrierAgain barrierFirst) s).acc.1 d := by
  induction ws generalizing s c with
  | nil => exact ⟨by simpa using h, hs⟩
  | cons x ws ih =>
    rw [foldl_cons]
    have hsum : (fun w => c w + (x :: ws).count w) = fun w => (c w + if w = x then 1 else 0) + ws.count w := by
      funext w
      by_cases hw : w = x
      · subst hw
        simp
        omega
      · have hxw : x ≠ w := fun he => hw he.symm
        simp [hw, hxw]
    rw [hsum]
    by_cases hx : x ∈ s.seen
    · have hv : searchVisit barrierAgain barrierFirst s x = { s with acc := barrierAgain s.acc x } := if_pos hx
      rw [hv]
      apply ih
      · intro w hw
        have hcw := h w hw
        simp only [barrierAgain]
        by_cases hwx : w = x
        · subst hwx
          simp only [update_self, if_true]
          exact ⟨by push_cast; omega, fun _ => trivial⟩
        · simp only [update_of_ne hwx, hwx, if_false]
          exact hcw
      · intro w hw
        have hwx : w ≠ x := fun he => hw (he ▸ hx)
        simp [h0 w hw, hwx]
      · exact ⟨hs.adj, hs.inn⟩
    · have hv : searchVisit barrierAgain barrierFirst s x = ⟨x :: s.seen, x :: s.stack, barrierFirst s.acc x⟩ :=
        if_neg hx
      rw [hv]
      apply ih
      · intro w hw
        simp only [barrierFirst]
        by_cases hwx : w = x
        · subst hwx
          simp only [update_self, if_true, h0 w hx]
          exact ⟨by simp, fun hne => absurd rfl hne⟩
        · simp only [update_of_ne hwx, hwx, if_false]
          rcases mem_cons.mp hw with hw | hw
          · exact absurd hw hwx
          · exact h w hw
      · intro w hw
        rw [mem_cons, not_or] at hw
        simp [h0 w hw.2, hw.1]
      · exact ⟨hs.adj, hs.inn⟩

/-- `T` is `root` and its dependents, and the marks count who is still to be met. -/
structure Barred (d₀ : Deps) (root : Nat) (T : List Nat) (d : Deps) : Prop where
  nodup : T.Nodup
  mem : ∀ w, w ∈ T ↔ w = root ∨ Dependent d₀ root w
  edges : SameEdges d d₀
  counted : ∀ w, Dependent d₀ root w → d.lIndex w + 1 = (meetings T d₀.inn w : Int) ∧
    (d.lIndex w ≠ 0 → d.barrier w = true)

def RankedIn (rank : Nat → Nat) (d : Deps) : Prop := ∀ t, ∀ s ∈ d.inn t, rank t < rank s

lemma RankedIn.dependent (h : RankedIn rank d) {root w : Nat} (hw : Dependent d root w) : rank root < rank w := by
  induction hw with
  | single hst => exact h _ _ hst
  | tail _ hst ih => exact lt_trans ih (h _ _ hst)

lemma flkFindBarriers_barred (hb : ∀ t, ∀ s ∈ d.inn t, s < n) (hr : RankedIn rank d) (root : Nat) :
    ∃ T, Barred d root T (flkFindBarriers n d root).1 := by
  have hu : ∀ v, ∀ w ∈ d.inn v, w ∈ Finset.range n := fun v w hw => Finset.mem_range.mpr (hb v w hw)
  have hpop : ∀ popped (s : SearchState Nat (Deps × Bool)) v rest, s.stack = v :: rest →
      (Explored d.inn [] [root] popped s ∧ Counted s.seen s.acc.1 (meetings popped d.inn) ∧ SameEdges s.acc.1 d) →
      (Explored d.inn [] [root] (v :: popped) ((d.inn v).foldl (searchVisit barrierAgain barrierFirst)
          { s with stack := rest }) ∧
        Counted ((d.inn v).foldl (searchVisit barrierAgain barrierFirst) { s with stack := rest }).seen
          ((d.inn v).foldl (searchVisit barrierAgain barrierFirst) { s with stack := rest }).acc.1
          (meetings (v :: popped) d.inn) ∧
        SameEdges ((d.inn v).foldl (searchVisit barrierAgain barrierFirst) { s with stack := rest }).acc.1 d) := by
    rintro popped s v rest hs ⟨hex, hc, he⟩
    have h0 : ∀ w, w ∉ s.seen → meetings popped d.inn w = 0 := by
      intro w hw
      rw [meetings_eq_zero]
      intro u hu hwu
      exact hw (hex.closed u hu w hwu)
    obtain ⟨h1, h2⟩ := foldl_barrier (d.inn v) { s with stack := rest } _ hc h0 he
    have hm : (fun w => meetings popped d.inn w + (d.inn v).count w) = meetings (v :: popped) d.inn := by
      funext w
      simp only [meetings, map_cons, sum_cons]
      omega
    exact ⟨hex.pop _ _ hs, hm ▸ h1, h2⟩
  obtain ⟨T, hex, hc, he⟩ := search_rule d.inn barrierAgain barrierFirst hpop (searchFuel n) [] ⟨[], [root], (d, false)⟩
    ⟨Explored.start [] [root] _, by intro w hw; exact absurd hw not_mem_nil, SameEdges.refl d⟩
  have hnil := search_stack_nil barrierAgain barrierFirst hu (searchFuel n) ⟨[], [root], (d, false)⟩
    (searchFuel_enough n [] root)
  set s := search d.inn barrierAgain barrierFirst (searchFuel n) ⟨[], [root], (d, false)⟩ with hsdef
  have hseen : ∀ w, w ∈ s.seen ↔ Dependent d root w := fun w =>
    mem_search barrierAgain barrierFirst hu (d, false) (searchFuel_enough n [] root)
  obtain ⟨new, hnew, hperm, hnd, -⟩ := hex.split
  rw [hnil, append_nil] at hperm
  rw [append_nil] at hnew
  have hmem : ∀ w, w ∈ T ↔ w = root ∨ Dependent d root w := by
    intro w
    rw [hperm.mem_iff, mem_append, mem_singleton, ← hnew, hseen]
    tauto
  refine ⟨T, ?_, hmem, he, ?_⟩
  · apply hperm.nodup_iff.mpr
    rw [nodup_append]
    refine ⟨hnd, nodup_singleton root, ?_⟩
    intro a ha b hb hab
    rw [mem_singleton] at hb
    rw [← hnew, hseen, hab, hb] at ha
    exact lt_irrefl _ (hr.dependent ha)
  · intro w hw
    exact hc w ((hseen w).mpr hw)

lemma unbar_frame (d : Deps) (l : Nat) : SameEdges (unbar d l) d ∧ ∀ w, w ≠ l →
    (unbar d l).lIndex w = d.lIndex w ∧ (unbar d l).barrier w = d.barrier w := by
  unfold unbar
  split
  · refine ⟨⟨rfl, rfl⟩, ?_⟩
    intro w hw
    simp only [Deps.decBarrier]
    refine ⟨update_of_ne hw _ _, ?_⟩
    split
    · exact update_of_ne hw _ _
    · rfl
  · exact ⟨SameEdges.refl d, fun w _ => ⟨rfl, rfl⟩⟩

lemma flkUpdateBarriers_frame (n : Nat) (d : Deps) (vertex : Nat) :
    SameEdges (flkUpdateBarriers n d vertex) d ∧ ∀ w, ¬Dependent d vertex w →
      (flkUpdateBarriers n d vertex).lIndex w = d.lIndex w ∧
      (flkUpdateBarriers n d vertex).barrier w = d.barrier w := by
  have hfold : ∀ (ws : List Nat) (s : SearchState Nat Deps), (∀ w ∈ ws, Dependent d vertex w) →
      (SameEdges s.acc d ∧ ∀ w, ¬Dependent d vertex w →
        s.acc.lIndex w = d.lIndex w ∧ s.acc.barrier w = d.barrier w) →
      SameEdges (ws.foldl (searchVisit unbar unbar) s).acc d ∧ ∀ w, ¬Dependent d vertex w →
        (ws.foldl (searchVisit unbar unbar) s).acc.lIndex w = d.lIndex w ∧
        (ws.foldl (searchVisit unbar unbar) s).acc.barrier w = d.barrier w := by
    intro ws
    induction ws with
    | nil =>
      intro s _ hs
      exact hs
    | cons x ws ih =>
      intro s hws hs
      apply ih _ fun w hw => hws w (by simp [hw])
      have hacc : (searchVisit unbar unbar s x).acc = unbar s.acc x := by
        unfold searchVisit
        split <;> rfl
      obtain ⟨he, hm⟩ := unbar_frame s.acc x
      rw [hacc]
      refine ⟨he.trans hs.1, ?_⟩
      intro w hw
      have hwx : w ≠ x := fun hx => hw (hx ▸ hws x (by simp))
      have h1 := hm w hwx
      have h2 := hs.2 w hw
      exact ⟨h1.1.trans h2.1, h1.2.trans h2.2⟩
  obtain ⟨-, -, hend⟩ := search_rule d.inn unbar unbar
    (I := fun popped s => Explored d.inn [] [vertex] popped s ∧ (SameEdges s.acc d ∧ ∀ w, ¬Dependent d vertex w →
      s.acc.lIndex w = d.lIndex w ∧ s.acc.barrier w = d.barrier w))
    (fun popped s v rest hs hi => by
      refine ⟨hi.1.pop unbar unbar hs, hfold (d.inn v) { s with stack := rest } ?_ hi.2⟩
      intro w hw
      obtain ⟨u, hu, huv⟩ := hi.1.reach v (by simp [hs])
      rw [mem_singleton] at hu
      exact Relation.TransGen.tail' (hu ▸ huv) hw)
    (searchFuel n) [] ⟨[], [vertex], d⟩ ⟨Explored.start [] [vertex] d, SameEdges.refl d, fun w _ => ⟨rfl, rfl⟩⟩
  exact hend

lemma sum_map_update {T : List Nat} (hT : T.Nodup) {u : Nat} (hu : u ∈ T) (F : List Nat → Nat) (L : Nat → List Nat)
    (y : List Nat) :
    (T.map (fun v => F (update L u y v))).sum + F (L u) = (T.map (fun v => F (L v))).sum + F y := by
  induction T with
  | nil => simp at hu
  | cons a T ih =>
    rw [nodup_cons] at hT
    simp only [map_cons, sum_cons]
    by_cases ha : a = u
    · subst ha
      have hrest : T.map (fun v => F (update L a y v)) = T.map (fun v => F (L v)) := by
        apply map_congr_left
        intro v hv
        rw [update_of_ne]
        rintro rfl
        exact hT.1 hv
      rw [hrest, update_self]
      omega
    · have hu' : u ∈ T := by
        rcases mem_cons.mp hu with h | h
        · exact absurd h.symm ha
        · exact h
      have := ih hT.2 hu'
      rw [update_of_ne ha]
      omega

lemma meetings_update {T : List Nat} (hT : T.Nodup) {u l w : Nat} (hu : u ∈ T) {L : Nat → List Nat} {ls : List Nat}
    (hL : L u = l :: ls) : meetings T L w = meetings T (update L u ls) w + if w = l then 1 else 0 := by
  have h := sum_map_update hT hu (fun x => x.count w) L ls
  rw [hL, count_cons] at h
  unfold meetings
  by_cases hw : w = l
  · subst hw
    simp only [beq_self_eq_true, if_true] at h ⊢
    omega
  · have hlw : l ≠ w := fun he => hw he.symm
    simp only [beq_iff_eq, hlw, hw, if_false] at h ⊢
    omega

def unfollowed (T : List Nat) (L : Nat → List Nat) : Nat := (T.map (fun u => (L u).length)).sum

lemma unfollowed_update {T : List Nat} (hT : T.Nodup) {u l : Nat} (hu : u ∈ T) {L : Nat → List Nat} {ls : List Nat}
    (hL : L u = l :: ls) : unfollowed T L = unfollowed T (update L u ls) + 1 := by
  have h := sum_map_update hT hu length L ls
  rw [hL, length_cons] at h
  unfold unfollowed
  omega

lemma recomputeVertex_marks (lock : Nat → LockDescriptor) (n : Nat) (topology : List Nat) (upd : Bool) (d : Deps)
    (ps : ProcState) (vertex : Nat) :
    (recomputeVertex lock n topology upd d ps vertex).1.lIndex = d.lIndex ∧
      (recomputeVertex lock n topology upd d ps vertex).1.barrier = d.barrier := by
  have hstep : ∀ (a : Deps × ProcState × List Nat × Nat) (t : Nat),
      (recomputeEdge lock n topology upd vertex a t).1.lIndex = a.1.lIndex ∧
        (recomputeEdge lock n topology upd vertex a t).1.barrier = a.1.barrier := by
    intro a t
    unfold recomputeEdge
    split
    · exact ⟨rfl, rfl⟩
    · split
      · rename_i hc _
        cases upd <;> simp [flkAddEdge, hc, Deps.addEdge]
      · exact ⟨rfl, rfl⟩
  have hfold : ∀ (ts : List Nat) (a : Deps × ProcState × List Nat × Nat),
      (ts.foldl (recomputeEdge lock n topology upd vertex) a).1.lIndex = a.1.lIndex ∧
        (ts.foldl (recomputeEdge lock n topology upd vertex) a).1.barrier = a.1.barrier := by
    intro ts
    induction ts with
    | nil => exact fun a => ⟨rfl, rfl⟩
    | cons t ts ih =>
      intro a
      have h1 := ih (recomputeEdge lock n topology upd vertex a t)
      have h2 := hstep a t
      exact ⟨h1.1.trans h2.1, h1.2.trans h2.2⟩
  exact hfold topology _

/-- All that is asked of the graph before dependencies are recomputed. -/
structure Recomputable (n : Nat) (rank : Nat → Nat) (d : Deps) (root : Nat) (topology : List Nat) : Prop where
  bounded : Bounded n d
  bounded_inn : ∀ t, ∀ s ∈ d.inn t, s < n
  root_lt : root < n
  ranked : Ranked rank d
  ranked_inn : RankedIn rank d
  mirror : ∀ s t, t ≠ root → s ∈ d.inn t → t ∈ d.adj s
  nodup : topology.Nodup
  lt : ∀ t ∈ topology, t < n
  rank_le : ∀ t ∈ topology, rank t ≤ rank root
  root_not_mem : root ∉ topology

/-- The edges that may be added for the dependents of `root`. -/
def Added (lock : Nat → LockDescriptor) (topology : List Nat) (d : Deps) (root v t : Nat) : Prop :=
  Dependent d root v ∧ t ∈ topology ∧ blocks (lock t) (lock v) = true

def Full (topology : List Nat) (d : Deps) (w : Nat) : Prop := ∀ t ∈ topology, Path d w t

/-- Where the loop stands: `fresh` is the vertex on top of the stack if it has not been
looked at, `N` are the vertices that were looked at and went on to their in-edges, and `L`
says which in-edges are not followed yet. -/
structure LoopInv (lock : Nat → LockDescriptor) (rank : Nat → Nat) (topology : List Nat) (upd : Bool) (d₀ : Deps)
    (ps₀ : ProcState) (root : Nat) (T : List Nat) (r : Recompute) (fresh : Option Nat) (N : List Nat)
    (L : Nat → List Nat) : Prop where
  grown : Grown lock upd (Added lock topology d₀ root) d₀ ps₀ r.deps r.ps
  stack : r.stack = fresh.toList ++ r.done
  chain : r.stack.Pairwise (fun a b => rank b < rank a)
  sedge : ∀ u ∈ r.done, L u = r.lSedge u
  done : ∀ u ∈ r.done, u = root ∨ u ∈ N
  fresh_ok : ∀ v ∈ fresh, r.lSedge v = d₀.inn v ∧ Dependent d₀ root v
  looked : ∀ u ∈ N, Dependent d₀ root u ∧ ∀ t ∈ topology, blocks (lock t) (lock u) = true → Path r.deps u t
  sub : ∀ u, L u ⊆ d₀.inn u
  untouched : ∀ u, u ∉ N → u ≠ root → L u = d₀.inn u
  followed : ∀ u, u ∈ N ∨ u = root → u ∉ r.done → L u = []
  waiting : ∀ w, Dependent d₀ root w → ¬Full topology r.deps w → w ∉ N →
    r.deps.lIndex w + 1 = (meetings T L w : Int) + (if fresh = some w then 1 else 0) ∧ 0 ≤ r.deps.lIndex w ∧
      (r.deps.lIndex w ≠ 0 → r.deps.barrier w = true)
  passed : ∀ w ∈ N, ¬Full topology r.deps w → meetings T L w = 0 ∧ fresh ≠ some w

section Loop

variable {root : Nat} {T : List Nat} {r : Recompute} {fresh : Option Nat} {N : List Nat} {L : Nat → List Nat}
  {rest : List Nat}

lemma Recomputable.added_rank (hc : Recomputable n rank d₀ root topology) {v t : Nat}
    (h : Added lock topology d₀ root v t) : rank t < rank v :=
  lt_of_le_of_lt (hc.rank_le t h.2.1) (hc.ranked_inn.dependent h.1)

lemma LoopInv.inn_eq (hc : Recomputable n rank d₀ root topology)
    (h : LoopInv lock rank topology upd d₀ ps₀ root T r fresh N L) {w : Nat} (hw : Dependent d₀ root w) :
    r.deps.inn w = d₀.inn w := by
  apply h.grown.inn_eq
  intro v hv
  have h1 := hc.rank_le w hv.2.1
  have h2 := hc.ranked_inn.dependent hw
  omega

lemma Recomputable.path_of_dependent (hc : Recomputable n rank d₀ root topology) {v w : Nat}
    (hv : Dependent d₀ root v) (hw : Dependent d₀ v w) : Path d₀ w v := by
  have hne : ∀ u, Dependent d₀ root u → u ≠ root := by
    intro u hu he
    have := hc.ranked_inn.dependent hu
    rw [he] at this
    exact lt_irrefl _ this
  induction hw with
  | single hst => exact Relation.TransGen.single (hc.mirror _ _ (hne v hv) hst)
  | tail hvu hst ih =>
    have hu : Dependent d₀ root _ := hv.trans hvu
    exact Relation.TransGen.head (hc.mirror _ _ (hne _ hu) hst) ih

lemma Full.of_path {d : Deps} {w u : Nat} (hp : Path d w u) (hf : Full topology d u) : Full topology d w :=
  fun t ht => hp.trans (hf t ht)

lemma LoopInv.next (hc : Recomputable n rank d₀ root topology) (hT : T.Nodup)
    (hTm : ∀ w, w ∈ T ↔ w = root ∨ Dependent d₀ root w)
    (h : LoopInv lock rank topology upd d₀ ps₀ root T r none N L) (hs : r.stack = vertex :: rest) (bars : Bool)
    (count : Nat) (hcount : r.lSedge vertex ≠ [] → count ≠ topology.length) :
    ∃ fresh' L', LoopInv lock rank topology upd d₀ ps₀ root T
        (recomputeNext n topology.length bars r vertex rest count) fresh' N L' ∧
      2 * unfollowed T L' + (recomputeNext n topology.length bars r vertex rest count).stack.length <
        2 * unfollowed T L + r.stack.length := by
  have hdone : r.done = vertex :: rest := by
    rw [← hs, h.stack]
    rfl
  have hvd : vertex ∈ r.done := by
    rw [hdone]
    simp
  have hchain := h.chain
  rw [hs, pairwise_cons] at hchain
  cases hl : r.lSedge vertex with
  | nil =>
    have hnext : recomputeNext n topology.length bars r vertex rest count =
        { r with stack := rest, done := r.done.erase vertex } := by
      simp only [recomputeNext, hl]
    have herase : r.done.erase vertex = rest := by rw [hdone, erase_cons_head]
    rw [hnext, herase]
    refine ⟨none, L, ⟨h.grown, rfl, hchain.2, ?_, ?_, by simp, h.looked, h.sub, h.untouched, ?_, h.waiting,
      h.passed⟩, ?_⟩
    · intro u hu
      exact h.sedge u (by rw [hdone]; simp [hu])
    · intro u hu
      exact h.done u (by rw [hdone]; simp [hu])
    · intro u hu hur
      by_cases huv : u = vertex
      · rw [huv, h.sedge vertex hvd, hl]
      · exact h.followed u hu (by rw [hdone]; simp [huv]; exact hur)
    · simp only [hs, length_cons]
      omega
  | cons l ls =>
    have hcn : count ≠ topology.length := hcount (by simp [hl])
    have hnext : recomputeNext n topology.length bars r vertex rest count =
        { r with
          stack := l :: vertex :: rest
          lSedge := update (update r.lSedge l (r.deps.inn l)) vertex ls } := by
      simp only [recomputeNext, hl, hcn, if_false]
    have hLv : L vertex = l :: ls := by rw [h.sedge vertex hvd, hl]
    have hvT : vertex ∈ T := by
      rw [hTm]
      rcases h.done vertex hvd with hv | hv
      · exact .inl hv
      · exact .inr (h.looked vertex hv).1
    have hlv : l ∈ d₀.inn vertex := h.sub vertex (by rw [hLv]; simp)
    have hld : Dependent d₀ root l := by
      rcases (hTm vertex).mp hvT with rfl | hv
      · exact Relation.TransGen.single hlv
      · exact Relation.TransGen.tail hv hlv
    have hrl : rank vertex < rank l := hc.ranked_inn vertex l hlv
    have hlne : ∀ u ∈ r.done, u ≠ l := by
      intro u hu he
      subst he
      rw [hdone] at hu
      rcases mem_cons.mp hu with rfl | hu
      · exact lt_irrefl _ hrl
      · exact lt_asymm hrl (hchain.1 u hu)
    have hm := fun w => meetings_update hT hvT hLv (w := w)
    have hu := unfollowed_update hT hvT hLv
    rw [hnext]
    refine ⟨some l, update L vertex ls, ⟨h.grown, ?_, ?_, ?_, h.done, ?_, h.looked, ?_, ?_, ?_, ?_, ?_⟩, ?_⟩
    · simp [hdone]
    · simp only [pairwise_cons]
      refine ⟨?_, hchain⟩
      exact forall_mem_cons.mpr ⟨hrl, fun b hb => lt_trans (hchain.1 b hb) hrl⟩
    · intro u hud
      simp only
      by_cases huv : u = vertex
      · subst huv
        simp
      · rw [update_of_ne huv, update_of_ne huv, update_of_ne (hlne u hud)]
        exact h.sedge u hud
    · intro v hv
      rw [Option.mem_def, Option.some.injEq] at hv
      subst hv
      have hlv' : l ≠ vertex := fun he => hlne vertex hvd he.symm
      simp only
      rw [update_of_ne hlv', update_self]
      exact ⟨h.inn_eq hc hld, hld⟩
    · intro u
      by_cases huv : u = vertex
      · subst huv
        rw [update_self]
        intro x hx
        exact h.sub u (by rw [hLv]; simp [hx])
      · rw [update_of_ne huv]
        exact h.sub u
    · intro u huN hur
      have huv : u ≠ vertex := by
        rintro rfl
        rcases h.done u hvd with hv | hv
        · exact hur hv
        · exact huN hv
      rw [update_of_ne huv]
      exact h.untouched u huN hur
    · intro u huN hud
      have huv : u ≠ vertex := by
        rintro rfl
        exact hud hvd
      rw [update_of_ne huv]
      exact h.followed u huN hud
    · intro w hw hf hwN
      have hwait := h.waiting w hw hf hwN
      refine ⟨?_, hwait.2⟩
      rw [hwait.1, hm w]
      by_cases hwl : w = l
      · subst hwl
        simp
      · have hlw : l ≠ w := fun he => hwl he.symm
        simp [hwl, hlw]
    · intro w hw hf
      have hp := h.passed w hw hf
      rw [hm w] at hp
      have hwl : w ≠ l := by
        rintro rfl
        simp at hp
      have hlw : l ≠ w := fun he => hwl he.symm
      refine ⟨by omega, by simp [hlw]⟩
    · simp only [hs, length_cons]
      omega

lemma LoopInv.fresh_top (h : LoopInv lock rank topology upd d₀ ps₀ root T r fresh N L)
    (hs : r.stack = vertex :: rest) (hd : vertex ∉ r.done) : fresh = some vertex ∧ r.done = rest := by
  have hst := h.stack
  rw [hs] at hst
  cases fresh with
  | none =>
    rw [Option.toList_none, nil_append] at hst
    exact absurd (by rw [← hst]; simp) hd
  | some v =>
    rw [Option.toList_some, singleton_append, cons.injEq] at hst
    exact ⟨by rw [hst.1], hst.2.symm⟩

lemma LoopInv.done_top (h : LoopInv lock rank topology upd d₀ ps₀ root T r fresh N L)
    (hs : r.stack = vertex :: rest) (hd : vertex ∈ r.done) : fresh = none := by
  have hst := h.stack
  have hch := h.chain
  rw [hs] at hst hch
  cases fresh with
  | none => rfl
  | some v =>
    rw [Option.toList_some, singleton_append, cons.injEq] at hst
    rw [hst.2] at hch
    exact absurd ((pairwise_cons.mp hch).1 vertex hd) (lt_irrefl _)

lemma LoopInv.bar (h : LoopInv lock rank topology upd d₀ ps₀ root T r (some vertex) N L)
    (hs : r.stack = vertex :: rest) (hbar : r.deps.barrier vertex = true ∧ r.deps.lIndex vertex ≠ 0) :
    LoopInv lock rank topology upd d₀ ps₀ root T { r with deps := r.deps.decBarrier vertex, stack := rest } none N
      L := by
  have hst := h.stack
  rw [hs, Option.toList_some, singleton_append, cons.injEq] at hst
  have hch := h.chain
  rw [hs, pairwise_cons] at hch
  refine ⟨h.grown.marks ⟨rfl, rfl⟩, hst.2, hch.2, h.sedge, h.done, by simp, h.looked, h.sub, h.untouched, h.followed,
    ?_, ?_⟩
  · intro w hw hf hwN
    have hwait := h.waiting w hw hf hwN
    simp only [Deps.decBarrier]
    by_cases hwv : w = vertex
    · subst hwv
      simp only [if_true, update_self] at hwait ⊢
      refine ⟨by simp; omega, by omega, ?_⟩
      intro hne
      rw [if_neg hne]
      exact hwait.2.2 hbar.2
    have hvw : vertex ≠ w := fun he => hwv he.symm
    simp only [Option.some.injEq, hvw, if_false] at hwait
    rw [update_of_ne hwv]
    refine ⟨by simpa using hwait.1, hwait.2.1, ?_⟩
    intro hne
    have hb := hwait.2.2 hne
    split
    · rw [update_of_ne hwv]
      exact hb
    · exact hb
  · intro w hw hf
    exact ⟨(h.passed w hw hf).1, by simp⟩

section

variable (hc : Recomputable n rank d₀ root topology)
  (h : LoopInv lock rank topology upd d₀ ps₀ root T r (some vertex) N L)

include hc h

lemma LoopInv.vertex_spec :
    Grown lock upd (Added lock topology d₀ root) d₀ ps₀ (recomputeVertex lock n topology upd r.deps r.ps vertex).1
        (recomputeVertex lock n topology upd r.deps r.ps vertex).2.1 ∧
      (∀ s t, Path r.deps s t → Path (recomputeVertex lock n topology upd r.deps r.ps vertex).1 s t) ∧
      (∀ t ∈ topology, blocks (lock t) (lock vertex) = true →
        Path (recomputeVertex lock n topology upd r.deps r.ps vertex).1 vertex t) ∧
      ((recomputeVertex lock n topology upd r.deps r.ps vertex).2.2 = topology.length ↔
        Full topology (recomputeVertex lock n topology upd r.deps r.ps vertex).1 vertex) := by
  have hdep := (h.fresh_ok vertex rfl).2
  have hb := hc.bounded.grown (fun v t ht => hc.lt t ht.2.1) h.grown
  have hr := hc.ranked.grown (fun v t ht => hc.added_rank ht) h.grown
  have hrt : ∀ t ∈ topology, rank t < rank vertex :=
    fun t ht => lt_of_le_of_lt (hc.rank_le t ht) (hc.ranked_inn.dependent hdep)
  obtain ⟨h1, h2, h3⟩ := recomputeVertex_spec hb hr hc.nodup hc.lt hrt lock upd r.ps
  have hmiss : ∀ v t, Missing lock topology vertex v t → Added lock topology d₀ root v t := by
    rintro v t ⟨rfl, ht, hbl⟩
    exact ⟨hdep, ht, hbl⟩
  exact ⟨h.grown.trans (h1.imp hmiss), fun s t hp => h1.path_mono hp, h2, h3⟩

lemma LoopInv.look (hbar : ¬(r.deps.barrier vertex = true ∧ r.deps.lIndex vertex ≠ 0))
    (hcount : (recomputeVertex lock n topology upd r.deps r.ps vertex).2.2 ≠ topology.length) :
    LoopInv lock rank topology upd d₀ ps₀ root T
      { r with
        deps := (recomputeVertex lock n topology upd r.deps r.ps vertex).1
        ps := (recomputeVertex lock n topology upd r.deps r.ps vertex).2.1
        done := vertex :: r.done } none (vertex :: N) L := by
  obtain ⟨h1, h2, h3, h4⟩ := h.vertex_spec hc
  obtain ⟨hm1, hm2⟩ := recomputeVertex_marks lock n topology upd r.deps r.ps vertex
  obtain ⟨hsed, hdep⟩ := h.fresh_ok vertex rfl
  set v := recomputeVertex lock n topology upd r.deps r.ps vertex with hv
  have hmono : ∀ w, ¬Full topology v.1 w → ¬Full topology r.deps w :=
    fun w hn hf => hn (fun t ht => h2 w t (hf t ht))
  have hnf : ¬Full topology v.1 vertex := fun hf => hcount (h4.mpr hf)
  have hvN : vertex ∉ N := fun hm => (h.passed vertex hm (hmono vertex hnf)).2 rfl
  have hvr : vertex ≠ root := by
    rintro rfl
    exact lt_irrefl _ (hc.ranked_inn.dependent hdep)
  have hwait := h.waiting vertex hdep (hmono vertex hnf) hvN
  have hzero : r.deps.lIndex vertex = 0 := by
    by_contra hne
    exact hbar ⟨hwait.2.2 hne, hne⟩
  have hmeet : meetings T L vertex = 0 := by
    have := hwait.1
    simp at this
    omega
  refine ⟨h1, by rw [h.stack]; rfl, h.chain, ?_, ?_, by simp, ?_, h.sub, ?_, ?_, ?_, ?_⟩
  · intro u hu
    rcases mem_cons.mp hu with rfl | hu
    · rw [h.untouched u hvN hvr]
      exact hsed.symm
    · exact h.sedge u hu
  · refine forall_mem_cons.mpr ⟨.inr (by simp), fun u hu => ?_⟩
    rcases h.done u hu with hu | hu
    · exact .inl hu
    · exact .inr (by simp [hu])
  · refine forall_mem_cons.mpr ⟨⟨hdep, h3⟩, fun u hu => ?_⟩
    have hl := h.looked u hu
    exact ⟨hl.1, fun t ht hbl => h2 u t (hl.2 t ht hbl)⟩
  · intro u hu hur
    exact h.untouched u (fun hm => hu (by simp [hm])) hur
  · intro u hu hud
    rw [mem_cons, not_or] at hud
    apply h.followed u _ hud.2
    rcases hu with hu | hu
    · rcases mem_cons.mp hu with hu | hu
      · exact absurd hu hud.1
      · exact .inl hu
    · exact .inr hu
  · intro w hw hf hwN
    rw [mem_cons, not_or] at hwN
    have hww := h.waiting w hw (hmono w hf) hwN.2
    have hvw : vertex ≠ w := fun he => hwN.1 he.symm
    simp only [Option.some.injEq, hvw, if_false] at hww
    simp only [hm1, hm2]
    exact ⟨by simpa using hww.1, hww.2⟩
  · intro w hw hf
    rcases mem_cons.mp hw with rfl | hw
    · exact ⟨hmeet, by simp⟩
    · exact ⟨(h.passed w hw (hmono w hf)).1, by simp⟩

lemma LoopInv.prune (hs : r.stack = vertex :: rest)
    (hcount : (recomputeVertex lock n topology upd r.deps r.ps vertex).2.2 = topology.length) {d' : Deps}
    (hd' : SameEdges d' (recomputeVertex lock n topology upd r.deps r.ps vertex).1)
    (hmarks : ∀ w, ¬Dependent (recomputeVertex lock n topology upd r.deps r.ps vertex).1 vertex w →
      d'.lIndex w = r.deps.lIndex w ∧ d'.barrier w = r.deps.barrier w) :
    LoopInv lock rank topology upd d₀ ps₀ root T
      { r with deps := d', ps := (recomputeVertex lock n topology upd r.deps r.ps vertex).2.1, stack := rest } none N
      L := by
  obtain ⟨h1, h2, h3, h4⟩ := h.vertex_spec hc
  obtain ⟨-, hdep⟩ := h.fresh_ok vertex rfl
  set v := recomputeVertex lock n topology upd r.deps r.ps vertex with hv
  have hst := h.stack
  rw [hs, Option.toList_some, singleton_append, cons.injEq] at hst
  have hch := h.chain
  rw [hs, pairwise_cons] at hch
  have hpath : ∀ s t, Path v.1 s t → Path d' s t := by
    intro s t hp
    unfold Path
    rw [hd'.adj]
    exact hp
  have hfv : Full topology d' vertex := fun t ht => hpath _ _ (h4.mp hcount t ht)
  have hmono : ∀ w, ¬Full topology d' w → ¬Full topology r.deps w :=
    fun w hn hf => hn (fun t ht => hpath _ _ (h2 w t (hf t ht)))
  have habove : ∀ w, Dependent v.1 vertex w → Full topology d' w := by
    intro w hw
    have hw0 : Dependent d₀ vertex w := by
      induction hw with
      | single hst =>
        apply Relation.TransGen.single
        rw [Step, ← h1.inn_eq]
        · exact hst
        · intro u hu
          have ha := hc.rank_le _ hu.2.1
          have hb := hc.ranked_inn.dependent hdep
          omega
      | @tail b c hvb hst ih =>
        refine Relation.TransGen.tail ih ?_
        rw [Step, ← h1.inn_eq]
        · exact hst
        · intro u hu
          have ha := hc.rank_le _ hu.2.1
          have hb := hc.ranked_inn.dependent (hdep.trans ih)
          omega
    exact Full.of_path (hpath _ _ (h1.path_mono (hc.path_of_dependent hdep hw0))) hfv
  refine ⟨h1.marks hd', hst.2, hch.2, h.sedge, h.done, by simp, ?_, h.sub, h.untouched, h.followed, ?_, ?_⟩
  · intro u hu
    have hl := h.looked u hu
    exact ⟨hl.1, fun t ht hbl => hpath _ _ (h2 u t (hl.2 t ht hbl))⟩
  · intro w hw hf hwN
    have hww := h.waiting w hw (hmono w hf) hwN
    have hvw : vertex ≠ w := by
      rintro rfl
      exact hf hfv
    simp only [Option.some.injEq, hvw, if_false] at hww
    obtain ⟨hm1, hm2⟩ := hmarks w (fun hd => hf (habove w hd))
    rw [hm1, hm2]
    exact ⟨by simpa using hww.1, hww.2⟩
  · intro w hw hf
    exact ⟨(h.passed w hw (hmono w hf)).1, by simp⟩

end

section

variable (hc : Recomputable n rank d₀ root topology) (hT : T.Nodup) (hTm : ∀ w, w ∈ T ↔ w = root ∨ Dependent d₀ root w)
  (hne : topology ≠ [])

include hc hT hTm hne

lemma LoopInv.turn (h : LoopInv lock rank topology upd d₀ ps₀ root T r fresh N L) (hs : r.stack = vertex :: rest)
    (bars : Bool) :
    ∃ fresh' N' L', LoopInv lock rank topology upd d₀ ps₀ root T
        (recomputeStep lock n topology upd bars r vertex rest) fresh' N' L' ∧
      2 * unfollowed T L' + (recomputeStep lock n topology upd bars r vertex rest).stack.length <
        2 * unfollowed T L + r.stack.length := by
  have hlen : (0 : Nat) ≠ topology.length := fun h0 => hne (length_eq_zero_iff.mp h0.symm)
  by_cases hd : vertex ∈ r.done
  · have hf := h.done_top hs hd
    subst hf
    simp only [recomputeStep, hd, if_true]
    obtain ⟨fresh', L', h1, h2⟩ := h.next hc hT hTm hs bars 0 (fun _ => hlen)
    exact ⟨fresh', N, L', h1, h2⟩
  obtain ⟨rfl, hdone⟩ := h.fresh_top hs hd
  by_cases hbar : r.deps.barrier vertex = true ∧ r.deps.lIndex vertex ≠ 0
  · simp only [recomputeStep, hd, if_false, if_pos hbar]
    refine ⟨none, N, L, h.bar hs hbar, ?_⟩
    simp only [hs, length_cons]
    omega
  simp only [recomputeStep, hd, if_false, if_neg hbar]
  by_cases hcount : (recomputeVertex lock n topology upd r.deps r.ps vertex).2.2 = topology.length
  · obtain ⟨hm1, hm2⟩ := recomputeVertex_marks lock n topology upd r.deps r.ps vertex
    obtain ⟨hu1, hu2⟩ := flkUpdateBarriers_frame n (recomputeVertex lock n topology upd r.deps r.ps vertex).1 vertex
    have hplain := h.prune hc hs hcount (SameEdges.refl _) (fun w _ => ⟨by rw [hm1], by rw [hm2]⟩)
    have hupdate := h.prune hc hs hcount hu1 (fun w hw => ⟨by rw [(hu2 w hw).1, hm1], by rw [(hu2 w hw).2, hm2]⟩)
    cases hl : r.lSedge vertex with
    | nil =>
      refine ⟨none, N, L, ?_, ?_⟩
      · simp only [recomputeNext, hl, erase_cons_head]
        exact hplain
      · simp only [recomputeNext, hl, hs, length_cons]
        omega
    | cons l ls =>
      refine ⟨none, N, L, ?_, ?_⟩
      · simp only [recomputeNext, hl, hcount, if_true, erase_cons_head]
        cases bars with
        | true => exact hupdate
        | false => exact hplain
      · simp only [recomputeNext, hl, hcount, if_true, hs, length_cons]
        omega
  · have hlook := h.look hc hbar hcount
    obtain ⟨fresh', L', h1, h2⟩ := hlook.next hc hT hTm hs bars
      (recomputeVertex lock n topology upd r.deps r.ps vertex).2.2 (fun _ => hcount)
    exact ⟨fresh', vertex :: N, L', h1, h2⟩

lemma recomputeLoop_inv (bars : Bool) (fuel : Nat)
    (h : LoopInv lock rank topology upd d₀ ps₀ root T r fresh N L)
    (hf : 2 * unfollowed T L + r.stack.length ≤ fuel) :
    ∃ fresh' N' L', LoopInv lock rank topology upd d₀ ps₀ root T (recomputeLoop lock n topology upd bars fuel r) fresh'
        N' L' ∧ (recomputeLoop lock n topology upd bars fuel r).stack = [] := by
  induction fuel generalizing r fresh N L with
  | zero =>
    refine ⟨fresh, N, L, h, ?_⟩
    apply length_eq_zero_iff.mp
    simp only [recomputeLoop]
    omega
  | succ fuel ih =>
    cases hs : r.stack with
    | nil =>
      simp only [recomputeLoop, hs]
      exact ⟨fresh, N, L, h, trivial⟩
    | cons vertex rest =>
      simp only [recomputeLoop, hs]
      obtain ⟨fresh', N', L', h1, h2⟩ := h.turn hc hT hTm hne hs bars
      exact ih h1 (by omega)

end

lemma LoopInv.finished (hc : Recomputable n rank d₀ root topology)
    (hTm : ∀ w, w ∈ T ↔ w = root ∨ Dependent d₀ root w)
    (h : LoopInv lock rank topology upd d₀ ps₀ root T r fresh N L) (hs : r.stack = []) :
    ∀ k w, rank w < k → Dependent d₀ root w → w ∈ N ∨ Full topology r.deps w := by
  have hst := h.stack
  rw [hs] at hst
  have hfresh : fresh = none := by
    cases fresh with
    | none => rfl
    | some v => simp at hst
  have hdone : r.done = [] := by
    rw [hfresh] at hst
    simpa using hst.symm
  intro k
  induction k with
  | zero =>
    intro w hw
    omega
  | succ k ih =>
    intro w hwk hw
    by_contra hcon
    rw [not_or] at hcon
    have hwait := h.waiting w hw hcon.2 hcon.1
    rw [hfresh] at hwait
    have hpos : meetings T L w ≠ 0 := by
      intro h0
      simp at hwait
      omega
    have hex : ∃ u ∈ T, w ∈ L u := by
      by_contra hno
      apply hpos
      rw [meetings_eq_zero]
      intro u hu hwu
      exact hno ⟨u, hu, hwu⟩
    obtain ⟨u, huT, hwu⟩ := hex
    have hwi := h.sub u hwu
    have huN : ¬(u ∈ N ∨ u = root) := by
      intro hu
      rw [h.followed u hu (by rw [hdone]; simp)] at hwu
      exact not_mem_nil hwu
    rw [not_or] at huN
    have hud : Dependent d₀ root u := by
      rcases (hTm u).mp huT with hu | hu
      · exact absurd hu huN.2
      · exact hu
    have hrank := hc.ranked_inn u w hwi
    rcases ih u (by omega) hud with hu | hu
    · exact huN.1 hu
    · have hedge : Path r.deps w u :=
        Relation.TransGen.single (h.grown.adj_mono (hc.mirror w u huN.2 hwi))
      exact hcon.2 (Full.of_path hedge hu)

end Loop

lemma unfollowed_le {T : List Nat} (hT : T.Nodup) (hn : ∀ u ∈ T, u < n) : unfollowed T d.inn ≤ d.edgeCount n := by
  have hsub : T.toFinset ⊆ Finset.range n := by
    intro u hu
    rw [mem_toFinset] at hu
    exact Finset.mem_range.mpr (hn u hu)
  have h1 : unfollowed T d.inn = ∑ u ∈ T.toFinset, (d.inn u).length :=
    (sum_toFinset (fun u => (d.inn u).length) hT).symm
  have h2 : d.edgeCount n = ∑ u ∈ Finset.range n, (d.inn u).length := rfl
  rw [h1, h2]
  exact Finset.sum_le_sum_of_subset hsub

/-- `flk_recompute_dependencies` adds only edges to blocking members of the topology, and
gives every dependent of `root` a path to all members that block it. -/
theorem flkRecomputeDependencies_spec (lock : Nat → LockDescriptor) (upd : Bool) {root : Nat}
    (hc : Recomputable n rank d root topology) (ps : ProcState) :
    Grown lock upd (Added lock topology d root) d ps
        (flkRecomputeDependencies lock n d ps root topology upd).1
        (flkRecomputeDependencies lock n d ps root topology upd).2 ∧
      ∀ w, Dependent d root w → ∀ t ∈ topology, blocks (lock t) (lock w) = true →
        Path (flkRecomputeDependencies lock n d ps root topology upd).1 w t := by
  by_cases hne : topology = []
  · subst hne
    exact ⟨Grown.start (SameEdges.refl d), by simp⟩
  obtain ⟨T, hT⟩ := flkFindBarriers_barred hc.bounded_inn hc.ranked_inn root
  simp only [flkRecomputeDependencies, hne, if_false]
  set b := flkFindBarriers n d root with hb
  have hstart : LoopInv lock rank topology upd d ps root T
      ⟨b.1, ps, [root], [root], update (fun _ => []) root (d.inn root)⟩ none [] d.inn := by
    refine ⟨Grown.start hT.edges, rfl, pairwise_singleton _ _, ?_, ?_, by simp, by simp, ?_, ?_, ?_, ?_, by simp⟩
    · intro u hu
      rw [mem_singleton] at hu
      subst hu
      simp
    · intro u hu
      exact .inl (mem_singleton.mp hu)
    · intro u
      exact List.Subset.refl _
    · intro u _ _
      rfl
    · intro u hu hud
      simp only [not_mem_nil, false_or] at hu
      simp [hu] at hud
    · intro w hw _ _
      have hcw := hT.counted w hw
      have hpos : meetings T d.inn w ≠ 0 := by
        rw [Ne, meetings_eq_zero]
        intro hall
        obtain ⟨u, hru, huw⟩ := Relation.TransGen.tail'_iff.mp hw
        have huT : u ∈ T := by
          rw [hT.mem]
          rcases Relation.reflTransGen_iff_eq_or_transGen.mp hru with rfl | hru
          · exact .inl rfl
          · exact .inr hru
        exact hall u huT huw
      simp only [reduceCtorEq, if_false, add_zero]
      exact ⟨hcw.1, by omega, hcw.2⟩
  have hTn : ∀ u ∈ T, u < n := by
    intro u hu
    rcases (hT.mem u).mp hu with rfl | hu
    · exact hc.root_lt
    · obtain ⟨v, -, hvu⟩ := Relation.TransGen.tail'_iff.mp hu
      exact hc.bounded_inn v u hvu
  have hfuel := unfollowed_le (d := d) hT.nodup hTn
  obtain ⟨fresh, N, L, hend, hnil⟩ := recomputeLoop_inv hc hT.nodup hT.mem hne b.2 (2 * d.edgeCount n + 3) hstart
    (by simp only [length_singleton]; omega)
  refine ⟨hend.grown, ?_⟩
  intro w hw t ht hbl
  rcases hend.finished hc hT.mem hnil (rank w + 1) w (by omega) hw with hN | hfull
  · exact (hend.looked w hN).2 t ht hbl
  · exact hfull t ht

end Solaris.Flock
