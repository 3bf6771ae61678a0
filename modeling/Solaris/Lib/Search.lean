import Mathlib.Tactic

/-!
# Worklist search on a finite graph

A vertex is popped from a stack and its neighbours are looked at in order: a neighbour
seen before is handed to `onSeen`, a new one is marked, handed to `onNew` and pushed.
-/

namespace Solaris.Lib

open List

variable {V σ : Type} [DecidableEq V]

structure SearchState (V σ : Type) where
  seen : List V
  stack : List V
  acc : σ

def searchVisit (onSeen onNew : σ → V → σ) (s : SearchState V σ) (w : V) : SearchState V σ :=
  if w ∈ s.seen then { s with acc := onSeen s.acc w }
  else ⟨w :: s.seen, w :: s.stack, onNew s.acc w⟩

def search (nbrs : V → List V) (onSeen onNew : σ → V → σ) : Nat → SearchState V σ → SearchState V σ
  | 0, s => s
  | fuel + 1, s =>
    match s.stack with
    | [] => s
    | v :: rest => search nbrs onSeen onNew fuel ((nbrs v).foldl (searchVisit onSeen onNew) { s with stack := rest })

variable {nbrs : V → List V}

abbrev Step (nbrs : V → List V) (a b : V) : Prop := b ∈ nbrs a

lemma foldl_searchVisit (onSeen onNew : σ → V → σ) (ws : List V) (s : SearchState V σ) :
    ∃ new, (ws.foldl (searchVisit onSeen onNew) s).seen = new ++ s.seen ∧
      (ws.foldl (searchVisit onSeen onNew) s).stack = new ++ s.stack ∧ new.Nodup ∧
      (∀ x ∈ new, x ∈ ws ∧ x ∉ s.seen) ∧ ∀ w ∈ ws, w ∈ new ++ s.seen := by
  induction ws generalizing s with
  | nil => exact ⟨[], rfl, rfl, nodup_nil, by simp, by simp⟩
  | cons w ws ih =>
    rw [foldl_cons]
    obtain ⟨new, hseen, hstack, hnd, hnew, hall⟩ := ih (searchVisit onSeen onNew s w)
    by_cases hw : w ∈ s.seen
    · have hv : searchVisit onSeen onNew s w = { s with acc := onSeen s.acc w } := if_pos hw
      rw [hv] at hseen hstack hnew hall ⊢
      refine ⟨new, hseen, hstack, hnd, ?_, ?_⟩
      · intro x hx
        have hx' := hnew x hx
        exact ⟨mem_cons_of_mem _ hx'.1, hx'.2⟩
      · exact forall_mem_cons.mpr ⟨mem_append_right _ hw, hall⟩
    have hv : searchVisit onSeen onNew s w = ⟨w :: s.seen, w :: s.stack, onNew s.acc w⟩ := if_neg hw
    rw [hv] at hseen hstack hnew hall ⊢
    refine ⟨new ++ [w], by simpa using hseen, by simpa using hstack, ?_, ?_, ?_⟩
    · rw [nodup_append]
      refine ⟨hnd, nodup_singleton w, ?_⟩
      intro x hx y hy
      rw [mem_singleton] at hy
      subst hy
      intro he
      exact (hnew x hx).2 (by simp [he])
    · intro x hx
      rcases mem_append.mp hx with hx | hx
      · have hx' := hnew x hx
        exact ⟨mem_cons_of_mem _ hx'.1, fun hs => hx'.2 (mem_cons_of_mem _ hs)⟩
      · rw [mem_singleton] at hx
        subst hx
        exact ⟨by simp, hw⟩
    · exact forall_mem_cons.mpr ⟨by simp, fun x hx => by simpa using hall x hx⟩

theorem search_rule (nbrs : V → List V) (onSeen onNew : σ → V → σ) {I : List V → SearchState V σ → Prop}
    (hpop : ∀ popped s v rest, s.stack = v :: rest → I popped s →
      I (v :: popped) ((nbrs v).foldl (searchVisit onSeen onNew) { s with stack := rest }))
    (fuel : Nat) (popped : List V) (s : SearchState V σ) (h : I popped s) :
    ∃ popped', I popped' (search nbrs onSeen onNew fuel s) := by
  induction fuel generalizing popped s with
  | zero => exact ⟨popped, h⟩
  | succ fuel ih =>
    cases hs : s.stack with
    | nil =>
      simp only [search, hs]
      exact ⟨popped, h⟩
    | cons v rest =>
      simp only [search, hs]
      exact ih (v :: popped) _ (hpop popped s v rest hs h)

lemma search_acc (nbrs : V → List V) (onSeen onNew : σ → V → σ) {J : List V → σ → Prop} (hseen : ∀ seen acc w, w ∈ seen → J seen acc → J seen (onSeen acc w))
    (hnew : ∀ seen acc w, w ∉ seen → J seen acc → J (w :: seen) (onNew acc w)) (fuel : Nat) (s : SearchState V σ)
    (h : J s.seen s.acc) :
    J (search nbrs onSeen onNew fuel s).seen (search nbrs onSeen onNew fuel s).acc := by
  have hfold : ∀ (ws : List V) (s : SearchState V σ), J s.seen s.acc →
      J (ws.foldl (searchVisit onSeen onNew) s).seen (ws.foldl (searchVisit onSeen onNew) s).acc := by
    intro ws
    induction ws with
    | nil =>
      intro s hs
      exact hs
    | cons w ws ih =>
      intro s hs
      apply ih
      by_cases hw : w ∈ s.seen
      · simp only [searchVisit, hw, if_true]
        exact hseen _ _ _ hw hs
      · simp only [searchVisit, hw, if_false]
        exact hnew _ _ _ hw hs
  obtain ⟨-, hend⟩ := search_rule nbrs onSeen onNew
    (I := fun _ s => J s.seen s.acc) (fun _ s v rest _ hj => hfold (nbrs v) { s with stack := rest } hj) fuel [] s h
  exact hend

structure Explored (nbrs : V → List V) (seen₀ stack₀ popped : List V) (s : SearchState V σ) : Prop where
  split : ∃ new, s.seen = new ++ seen₀ ∧ (popped ++ s.stack).Perm (new ++ stack₀) ∧ new.Nodup ∧ ∀ x ∈ new, x ∉ seen₀
  closed : ∀ v ∈ popped, ∀ w ∈ nbrs v, w ∈ s.seen
  sound : ∀ x ∈ s.seen, x ∈ seen₀ ∨ ∃ v ∈ stack₀, Relation.TransGen (Step nbrs) v x
  reach : ∀ x ∈ popped ++ s.stack, ∃ v ∈ stack₀, Relation.ReflTransGen (Step nbrs) v x

omit [DecidableEq V] in
lemma Explored.start (seen₀ stack₀ : List V) (acc : σ) : Explored nbrs seen₀ stack₀ [] ⟨seen₀, stack₀, acc⟩ := by
  refine ⟨⟨[], rfl, by simp, nodup_nil, by simp⟩, by simp, fun x hx => Or.inl hx, ?_⟩
  intro x hx
  exact ⟨x, by simpa using hx, Relation.ReflTransGen.refl⟩

lemma Explored.pop (onSeen onNew : σ → V → σ) {seen₀ stack₀ popped rest : List V} {s : SearchState V σ} {v : V}
    (h : Explored nbrs seen₀ stack₀ popped s) (hs : s.stack = v :: rest) :
    Explored nbrs seen₀ stack₀ (v :: popped)
      ((nbrs v).foldl (searchVisit onSeen onNew) { s with stack := rest }) := by
  obtain ⟨new, hseen, hstack, hnd, hnew, hall⟩ :=
    foldl_searchVisit onSeen onNew (nbrs v) { s with stack := rest }
  obtain ⟨old, hold, hperm, hndo, hdis⟩ := h.split
  obtain ⟨u, hu, huv⟩ := h.reach v (by simp [hs])
  have hnewReach : ∀ x ∈ new, Relation.TransGen (Step nbrs) u x := by
    intro x hx
    exact Relation.TransGen.tail' huv (hnew x hx).1
  refine ⟨⟨new ++ old, ?_, ?_, ?_, ?_⟩, ?_, ?_, ?_⟩
  · rw [hseen, hold, append_assoc]
  · rw [hstack]
    rw [hs] at hperm
    calc v :: popped ++ (new ++ rest)
        _ = (v :: popped) ++ (new ++ rest) := rfl
        List.Perm _ ((new ++ rest) ++ (v :: popped)) := perm_append_comm
        List.Perm _ (new ++ ((v :: popped) ++ rest)) := by
          rw [append_assoc]
          exact perm_append_comm.append_left new
        List.Perm _ (new ++ (popped ++ v :: rest)) := by
          exact (perm_middle.symm).append_left new
        List.Perm _ (new ++ (old ++ stack₀)) := hperm.append_left new
        _ = (new ++ old) ++ stack₀ := by rw [append_assoc]
  · rw [nodup_append]
    refine ⟨hnd, hndo, ?_⟩
    intro x hx y hy hxy
    apply (hnew x hx).2
    rw [hold, hxy]
    exact mem_append_left _ hy
  · intro x hx
    rcases mem_append.mp hx with hx | hx
    · intro hx0
      apply (hnew x hx).2
      rw [hold]
      exact mem_append_right _ hx0
    · exact hdis x hx
  · intro x hx w hw
    rw [hseen]
    rcases mem_cons.mp hx with rfl | hx
    · exact hall w hw
    · exact mem_append_right _ (h.closed x hx w hw)
  · intro x hx
    rw [hseen] at hx
    rcases mem_append.mp hx with hx | hx
    · exact .inr ⟨u, hu, hnewReach x hx⟩
    · exact h.sound x hx
  · intro x hx
    rw [hstack] at hx
    simp only [cons_append, mem_cons, mem_append] at hx
    rcases hx with rfl | hx | hx | hx
    · exact ⟨u, hu, huv⟩
    · exact h.reach x (by simp [hx])
    · exact ⟨u, hu, (hnewReach x hx).to_reflTransGen⟩
    · exact h.reach x (by simp [hs, hx])

section

variable (onSeen onNew : σ → V → σ) {univ : Finset V} (hu : ∀ v, ∀ w ∈ nbrs v, w ∈ univ)

include onSeen onNew hu

theorem search_stack_nil (fuel : Nat) (s : SearchState V σ)
    (hf : s.stack.length + (univ.filter (· ∉ s.seen)).card ≤ fuel) :
    (search nbrs onSeen onNew fuel s).stack = [] := by
  induction fuel generalizing s with
  | zero =>
    have hlen : s.stack.length = 0 := by omega
    simpa [search] using hlen
  | succ fuel ih =>
    cases hs : s.stack with
    | nil => simp only [search, hs]
    | cons v rest =>
      simp only [search, hs]
      apply ih
      obtain ⟨new, hseen, hstack, hnd, hnew, -⟩ :=
        foldl_searchVisit onSeen onNew (nbrs v) { s with stack := rest }
      rw [hseen, hstack]
      simp only at hnew ⊢
      have hsub : (univ.filter (· ∉ new ++ s.seen)) = (univ.filter (· ∉ s.seen)) \ new.toFinset := by
        ext x
        simp only [Finset.mem_filter, Finset.mem_sdiff, mem_toFinset, mem_append]
        tauto
      have hle : new.toFinset ⊆ univ.filter (· ∉ s.seen) := by
        intro x hx
        rw [mem_toFinset] at hx
        have hx' := hnew x hx
        exact Finset.mem_filter.mpr ⟨hu v x hx'.1, hx'.2⟩
      have hcard : new.toFinset.card = new.length := toFinset_card_of_nodup hnd
      have hcle := Finset.card_le_card hle
      rw [hsub, Finset.card_sdiff_of_subset hle, length_append]
      rw [hs, length_cons] at hf
      omega

theorem search_spec (fuel : Nat) (seen₀ stack₀ : List V)
    (acc : σ) (hf : stack₀.length + (univ.filter (· ∉ seen₀)).card ≤ fuel) :
    (∀ x ∈ seen₀, x ∈ (search nbrs onSeen onNew fuel ⟨seen₀, stack₀, acc⟩).seen) ∧
    (∀ x ∈ (search nbrs onSeen onNew fuel ⟨seen₀, stack₀, acc⟩).seen,
      x ∈ seen₀ ∨ ∃ v ∈ stack₀, Relation.TransGen (Step nbrs) v x) ∧
    (∀ v ∈ stack₀, ∀ w ∈ nbrs v, w ∈ (search nbrs onSeen onNew fuel ⟨seen₀, stack₀, acc⟩).seen) ∧
    (∀ x ∈ (search nbrs onSeen onNew fuel ⟨seen₀, stack₀, acc⟩).seen, x ∉ seen₀ → ∀ w ∈ nbrs x,
      w ∈ (search nbrs onSeen onNew fuel ⟨seen₀, stack₀, acc⟩).seen) := by
  obtain ⟨popped, h⟩ := search_rule nbrs onSeen onNew
    (fun _ _ _ _ hs hi => hi.pop onSeen onNew hs) fuel [] _ (Explored.start seen₀ stack₀ acc)
  have hnil := search_stack_nil onSeen onNew hu fuel ⟨seen₀, stack₀, acc⟩ hf
  obtain ⟨new, hseen, hperm, -, -⟩ := h.split
  rw [hnil, append_nil] at hperm
  refine ⟨?_, h.sound, ?_, ?_⟩
  · intro x hx
    rw [hseen]
    exact mem_append_right _ hx
  · intro v hv
    exact h.closed v (hperm.mem_iff.mpr (mem_append_right _ hv))
  · intro x hx hx0
    apply h.closed x
    rw [hseen] at hx
    rcases mem_append.mp hx with hx | hx
    · exact hperm.mem_iff.mpr (mem_append_left _ hx)
    · exact absurd hx hx0

theorem mem_search {fuel : Nat} {v : V}
    (acc : σ) (hf : [v].length + (univ.filter (· ∉ ([] : List V))).card ≤ fuel) {w : V} :
    w ∈ (search nbrs onSeen onNew fuel ⟨[], [v], acc⟩).seen ↔ Relation.TransGen (Step nbrs) v w := by
  obtain ⟨-, h2, h3, h4⟩ := search_spec onSeen onNew hu fuel [] [v] acc hf
  constructor
  · intro hw
    rcases h2 w hw with hw | ⟨u, hu, hp⟩
    · exact absurd hw not_mem_nil
    · rw [mem_singleton] at hu
      exact hu ▸ hp
  · intro hp
    induction hp with
    | single hst => exact h3 v (by simp) _ hst
    | tail _ hst ih => exact h4 _ ih not_mem_nil _ hst

end

end Solaris.Lib
