import Solaris.Flock.Relation

/-!
# Dependency edges

Paths of dependency edges, how edges are added one at a time, and what colouring finds.
-/

namespace Solaris.Flock

open Lib List Function

abbrev Path (d : Deps) : Nat → Nat → Prop := Relation.TransGen (Step d.adj)

structure SameEdges (d' d : Deps) : Prop where
  adj : d'.adj = d.adj
  inn : d'.inn = d.inn

lemma SameEdges.refl (d : Deps) : SameEdges d d := ⟨rfl, rfl⟩

lemma SameEdges.trans {d1 d2 d3 : Deps} (h : SameEdges d1 d2) (h' : SameEdges d2 d3) : SameEdges d1 d3 :=
  ⟨h.adj.trans h'.adj, h.inn.trans h'.inn⟩

/-- Edges `v → t` with `A v t` are added, none twice. With `upd` each one is counted in
the process graph. -/
inductive Grown (lock : Nat → LockDescriptor) (upd : Bool) (A : Nat → Nat → Prop) (d₀ : Deps) (ps₀ : ProcState) :
    Deps → ProcState → Prop
  | start {d : Deps} (hs : SameEdges d d₀) : Grown lock upd A d₀ ps₀ d ps₀
  | add {d d' : Deps} {ps : ProcState} {v t : Nat} (h : Grown lock upd A d₀ ps₀ d ps) (hA : A v t)
      (hn : t ∉ d.adj v) (hs : SameEdges d' (d.addEdge v t)) :
      Grown lock upd A d₀ ps₀ d' (if upd then flkUpdateProcGraph lock ps v t false else ps)

variable {lock : Nat → LockDescriptor} {upd : Bool} {A B : Nat → Nat → Prop} {d₀ d d' : Deps}
  {ps₀ ps ps' : ProcState} {s t : Nat}

lemma Grown.marks (h : Grown lock upd A d₀ ps₀ d ps) (hs : SameEdges d' d) : Grown lock upd A d₀ ps₀ d' ps := by
  cases h with
  | start hs' => exact Grown.start (hs.trans hs')
  | add h hA hn hs' => exact Grown.add h hA hn (hs.trans hs')

lemma Grown.trans (h : Grown lock upd A d₀ ps₀ d ps) (h' : Grown lock upd A d ps d' ps') :
    Grown lock upd A d₀ ps₀ d' ps' := by
  induction h' with
  | start hs => exact h.marks hs
  | add _ hA hn hs ih => exact Grown.add ih hA hn hs

lemma Grown.imp (hAB : ∀ v t, A v t → B v t) (h : Grown lock upd A d₀ ps₀ d ps) : Grown lock upd B d₀ ps₀ d ps := by
  induction h with
  | start hs => exact Grown.start hs
  | add _ hA hn hs ih => exact Grown.add ih (hAB _ _ hA) hn hs

lemma Grown.ps_eq (h : Grown lock false A d₀ ps₀ d ps) : ps = ps₀ := by
  induction h with
  | start hs => rfl
  | add _ _ _ _ ih => simpa using ih

lemma mem_addEdge_adj {v w x y : Nat} : y ∈ (d.addEdge v w).adj x ↔ (x = v ∧ y = w) ∨ y ∈ d.adj x := by
  simp only [Deps.addEdge]
  by_cases hx : x = v
  · subst hx
    simp
  · simp [hx]

lemma mem_addEdge_inn {v w x y : Nat} : x ∈ (d.addEdge v w).inn y ↔ (x = v ∧ y = w) ∨ x ∈ d.inn y := by
  simp only [Deps.addEdge]
  by_cases hy : y = w
  · subst hy
    simp
  · simp [hy]

section

variable (h : Grown lock upd A d₀ ps₀ d ps)

include h

lemma Grown.adj_mono (ht : t ∈ d₀.adj s) : t ∈ d.adj s := by
  induction h with
  | start hs =>
    rw [hs.adj]
    exact ht
  | add _ _ _ hs ih =>
    rw [hs.adj, mem_addEdge_adj]
    exact Or.inr ih

lemma Grown.adj_new (ht : t ∈ d.adj s) : t ∈ d₀.adj s ∨ A s t := by
  induction h with
  | start hs =>
    rw [hs.adj] at ht
    exact Or.inl ht
  | add _ hA _ hs ih =>
    rw [hs.adj, mem_addEdge_adj] at ht
    rcases ht with ⟨rfl, rfl⟩ | ht
    · exact Or.inr hA
    · exact ih ht

lemma Grown.inn_eq (ht : ∀ v, ¬A v t) : d.inn t = d₀.inn t := by
  induction h with
  | start hs => rw [hs.inn]
  | @add d d' ps v w _ hA _ hs ih =>
    have hne : t ≠ w := by
      rintro rfl
      exact ht v hA
    rw [hs.inn]
    simp only [Deps.addEdge]
    rw [update_of_ne hne]
    exact ih

lemma Grown.path_mono (hp : Path d₀ s t) : Path d s t :=
  Relation.TransGen.mono (fun _ _ hst => h.adj_mono hst) s t hp

end

/-- The two kinds of list hold the same edges, except that the edges into the vertices of
`X` are in the in-lists only. -/
structure Mirrored (X : Nat → Prop) (d : Deps) : Prop where
  adj_nodup : ∀ s, (d.adj s).Nodup
  inn_nodup : ∀ t, (d.inn t).Nodup
  mirror : ∀ s t, ¬X t → (t ∈ d.adj s ↔ s ∈ d.inn t)
  gone : ∀ s t, X t → t ∉ d.adj s

variable {X : Nat → Prop}

lemma Mirrored.same (h : Mirrored X d) (hs : SameEdges d' d) : Mirrored X d' := by
  refine ⟨?_, ?_, ?_, ?_⟩
  · rw [hs.adj]; exact h.adj_nodup
  · rw [hs.inn]; exact h.inn_nodup
  · rw [hs.adj, hs.inn]; exact h.mirror
  · rw [hs.adj]; exact h.gone

lemma Mirrored.addEdge (h : Mirrored X d) (hX : ¬X t) (hn : t ∉ d.adj s) : Mirrored X (d.addEdge s t) := by
  refine ⟨?_, ?_, ?_, ?_⟩
  · intro a
    simp only [Deps.addEdge]
    by_cases ha : a = s
    · subst ha
      rw [update_self]
      exact nodup_cons.mpr ⟨hn, h.adj_nodup a⟩
    · rw [update_of_ne ha]
      exact h.adj_nodup a
  · intro b
    simp only [Deps.addEdge]
    by_cases hb : b = t
    · subst hb
      rw [update_self]
      exact nodup_cons.mpr ⟨fun hm => hn ((h.mirror s b hX).mpr hm), h.inn_nodup b⟩
    · rw [update_of_ne hb]
      exact h.inn_nodup b
  · intro a b hb
    rw [mem_addEdge_adj, mem_addEdge_inn, h.mirror a b hb]
  · intro a b hb
    rw [mem_addEdge_adj]
    rintro (⟨-, rfl⟩ | hm)
    · exact hX hb
    · exact h.gone a b hb hm

lemma Mirrored.grown (h : Mirrored X d₀) (hA : ∀ v t, A v t → ¬X t) (hg : Grown lock upd A d₀ ps₀ d ps) :
    Mirrored X d := by
  induction hg with
  | start hs => exact h.same hs
  | add _ hAvt hn hs ih => exact (ih.addEdge (hA _ _ hAvt) hn).same hs

def Ranked (rank : Nat → Nat) (d : Deps) : Prop := ∀ s, ∀ t ∈ d.adj s, rank t < rank s

variable {rank : Nat → Nat}

lemma Ranked.path (h : Ranked rank d) (hp : Path d s t) : rank t < rank s := by
  induction hp with
  | single hst => exact h _ _ hst
  | tail _ hst ih => exact lt_trans (h _ _ hst) ih

lemma Ranked.grown (h : Ranked rank d₀) (hA : ∀ v t, A v t → rank t < rank v)
    (hg : Grown lock upd A d₀ ps₀ d ps) : Ranked rank d := by
  intro s t ht
  rcases hg.adj_new ht with ht | ht
  · exact h s t ht
  · exact hA s t ht

lemma countP_mem_cons {topology seen : List Nat} {w : Nat} (hnd : topology.Nodup) (hw : w ∉ seen) :
    topology.countP (· ∈ w :: seen) = topology.countP (· ∈ seen) + if w ∈ topology then 1 else 0 := by
  induction topology with
  | nil => simp
  | cons t topology ih =>
    rw [nodup_cons] at hnd
    rw [countP_cons, countP_cons, ih hnd.2]
    by_cases ht : t = w
    · subst ht
      simp [hw, hnd.1]
    · have hwt : w ≠ t := fun h => ht h.symm
      simp only [mem_cons, ht, hwt, false_or]
      omega

/-- What `flk_color_reachables` colours and counts. -/
structure Coloured (d : Deps) (topology color : List Nat) (vertex : Nat) (c : List Nat × Nat) : Prop where
  mono : ∀ x ∈ color, x ∈ c.1
  sound : ∀ x ∈ c.1, x ∈ color ∨ Path d vertex x
  first : ∀ w ∈ d.adj vertex, w ∈ c.1
  closed : ∀ x ∈ c.1, x ∉ color → ∀ w ∈ d.adj x, w ∈ c.1
  count : topology.countP (· ∈ c.1) = topology.countP (· ∈ color) + c.2

/-- All edges lead to descriptors below `n`. -/
def Bounded (n : Nat) (d : Deps) : Prop := ∀ s, ∀ t ∈ d.adj s, t < n

lemma searchFuel_enough (n : Nat) (color : List Nat) (vertex : Nat) :
    [vertex].length + ((Finset.range n).filter (· ∉ color)).card ≤ searchFuel n := by
  have h := Finset.card_filter_le (Finset.range n) (· ∉ color)
  rw [Finset.card_range] at h
  simp only [length_singleton, searchFuel]
  omega

lemma flkColorReachables_coloured {n : Nat} (hn : Bounded n d) {topology : List Nat} (hnd : topology.Nodup)
    (color : List Nat) (vertex : Nat) :
    Coloured d topology color vertex (flkColorReachables n d topology color vertex) := by
  have hu : ∀ v, ∀ w ∈ d.adj v, w ∈ Finset.range n := fun v w hw => Finset.mem_range.mpr (hn v w hw)
  obtain ⟨h1, h2, h3, h4⟩ := search_spec (fun count _ => count)
    (fun count l => if l ∈ topology then count + 1 else count) hu (searchFuel n) color [vertex] 0
    (searchFuel_enough n color vertex)
  have h5 := search_acc d.adj (fun count _ => count) (fun count l => if l ∈ topology then count + 1 else count)
    (J := fun seen (count : Nat) => topology.countP (· ∈ seen) = topology.countP (· ∈ color) + count)
    (fun _ _ _ _ hj => hj)
    (fun seen count w hw hj => by
      rw [countP_mem_cons hnd hw, hj]
      split <;> rfl)
    (searchFuel n) ⟨color, [vertex], 0⟩ rfl
  refine ⟨h1, ?_, ?_, h4, h5⟩
  · intro x hx
    rcases h2 x hx with hx | ⟨v, hv, hp⟩
    · exact .inl hx
    · rw [mem_singleton] at hv
      exact .inr (hv ▸ hp)
  · exact h3 vertex (by simp)

end Solaris.Flock
