import Mathlib.Data.List.Nodup

/-!
# Chains of links

A list kept in memory as a chain: a slot for its head and one in every element, each with a link to the element that
follows. `slot none` is the head.
-/

namespace Solaris.Lib

open List

variable {α β : Type} {slot slot' : Option α → β} {link : Option α → β} {l pre post : List α} {x y : α}

/-- Behind any beginning of the list stands a link to the rest of it. -/
def Chain (slot link : Option α → β) (l : List α) : Prop :=
  ∀ pre post, l = pre ++ post → slot pre.getLast? = link post.head?

lemma Chain.head (h : Chain slot link l) : slot none = link l.head? := h [] l rfl

lemma Chain.next (h : Chain slot link (pre ++ x :: post)) : slot (some x) = link post.head? := by
  have := h (pre ++ [x]) post (by simp)
  rwa [getLast?_concat] at this

lemma Chain.split (h : Chain slot link (pre ++ post)) : slot pre.getLast? = link post.head? := h pre post rfl

lemma chain_nil (h : slot none = link none) : Chain slot link [] := by
  intro pre post hl
  obtain ⟨rfl, rfl⟩ := append_eq_nil_iff.mp hl.symm
  exact h

lemma Chain.congr (h : Chain slot link l) (hhead : slot' none = slot none)
    (hmem : ∀ x ∈ l, slot' (some x) = slot (some x)) : Chain slot' link l := by
  intro pre post hl
  rw [← h pre post hl]
  cases hlast : pre.getLast? with
  | none => exact hhead
  | some x =>
    refine hmem x ?_
    rw [hl]
    exact mem_append_left _ (mem_of_getLast? hlast)

lemma append_cons_eq_append {a b : List α} (h : pre ++ y :: post = a ++ b) :
    (∃ c, pre = a ++ c ∧ b = c ++ y :: post) ∨ (∃ c, a = pre ++ y :: c ∧ post = c ++ b) := by
  rcases append_eq_append_iff.mp h with ⟨c, ha, hb⟩ | ⟨c, hpre, hb⟩
  · cases c with
    | nil =>
      refine .inl ⟨[], ?_, hb.symm⟩
      rw [ha, append_nil, append_nil]
    | cons z c =>
      obtain ⟨rfl, hpost⟩ := List.cons.inj hb
      exact .inr ⟨c, ha, hpost⟩
  · exact .inl ⟨c, hpre, hb⟩

theorem getLast?_ne_of_nodup {a c : List α} (hnd : (a ++ c).Nodup) (hc : c ≠ []) : a.getLast? ≠ c.getLast? := by
  intro heq
  obtain ⟨z, hz⟩ := Option.ne_none_iff_exists'.mp (mt getLast?_eq_none_iff.mp hc)
  have hza : z ∈ a := mem_of_getLast? (heq.trans hz)
  have hzc : z ∈ c := mem_of_getLast? hz
  exact (nodup_append.mp hnd).2.2 z hza z hzc rfl

lemma getLast?_append_cons (a : List α) (y : α) (c : List α) :
    (a ++ y :: c).getLast? = (y :: c).getLast? := by
  rw [getLast?_append, getLast?_cons]
  rfl

theorem before_apart {a c : List α} {z : α} (hnd : ((a ++ z :: c) ++ y :: post).Nodup) :
    a.getLast? ≠ some y ∧ a.getLast? ≠ (a ++ z :: c).getLast? := by
  rw [append_assoc] at hnd
  constructor
  · intro hlast
    have hmem := mem_of_getLast? hlast
    refine (nodup_append.mp hnd).2.2 y hmem y ?_ rfl
    exact mem_append_right _ (mem_cons_self ..)
  · rw [getLast?_append_cons]
    refine getLast?_ne_of_nodup ?_ (cons_ne_nil _ _)
    exact hnd.sublist (List.Sublist.append_left (sublist_append_left _ _) _)

theorem behind_apart {z : α} (hnd : (pre ++ y :: post).Nodup) (hz : z ∈ post) :
    some z ≠ some y ∧ some z ≠ pre.getLast? := by
  constructor
  · intro heq
    have := (nodup_append.mp hnd).2.1
    rw [nodup_cons] at this
    exact this.1 (Option.some.inj heq ▸ hz)
  · intro heq
    have hmem := mem_of_getLast? heq.symm
    exact (nodup_append.mp hnd).2.2 z hmem z (mem_cons_of_mem _ hz) rfl

lemma Chain.insert (h : Chain slot link (pre ++ post)) (hnd : (pre ++ y :: post).Nodup)
    (hy : slot' (some y) = link post.head?) (hpre : slot' pre.getLast? = link (some y))
    (hrest : ∀ s, s ≠ some y → s ≠ pre.getLast? → slot' s = slot s) : Chain slot' link (pre ++ y :: post) := by
  intro a b hab
  rcases append_cons_eq_append hab with ⟨c, rfl, rfl⟩ | ⟨c, rfl, rfl⟩
  · cases c with
    | nil =>
      rw [append_nil] at hpre
      exact hpre
    | cons z c =>
      rw [append_assoc] at h
      obtain ⟨hney, hne⟩ := before_apart hnd
      rw [hrest _ hney hne, h.split]
      rfl
  · rcases eq_nil_or_concat' c with rfl | ⟨c, z, rfl⟩
    · rw [getLast?_append_cons, getLast?_singleton, hy]
      rfl
    rw [getLast?_append_cons]
    have hlast : (y :: (c ++ [z])).getLast? = some z := by
      rw [← cons_append, getLast?_concat]
    rw [hlast]
    have hsplit := h (pre ++ (c ++ [z])) b (by simp)
    rw [← append_assoc, getLast?_concat] at hsplit
    obtain ⟨hney, hne⟩ := behind_apart (z := z) hnd (by simp)
    rw [hrest _ hney hne, hsplit]

lemma Chain.remove (h : Chain slot link (pre ++ y :: post)) (hnd : (pre ++ y :: post).Nodup)
    (hpre : slot' pre.getLast? = link post.head?)
    (hrest : ∀ s, s ≠ some y → s ≠ pre.getLast? → slot' s = slot s) : Chain slot' link (pre ++ post) := by
  intro a b hab
  rcases append_eq_append_iff.mp hab with ⟨c, rfl, rfl⟩ | ⟨c, rfl, rfl⟩
  · rcases eq_nil_or_concat' c with rfl | ⟨c, z, rfl⟩
    · rw [append_nil]
      exact hpre
    · rw [← append_assoc, getLast?_concat]
      have hsplit := h (pre ++ y :: (c ++ [z])) b (by simp)
      rw [getLast?_append_cons, ← cons_append, getLast?_concat] at hsplit
      obtain ⟨hney, hne⟩ := behind_apart (z := z) hnd (by simp)
      rw [hrest _ hney hne, hsplit]
  cases c with
  | nil =>
    rw [append_nil] at hpre
    exact hpre
  | cons z c =>
    have hsplit := h a (z :: c ++ y :: post) (by simp)
    obtain ⟨hney, hne⟩ := before_apart hnd
    rw [hrest _ hney hne, hsplit]
    rfl

lemma Chain.second (h : Chain slot link (x :: post)) : slot (some x) = link post.head? := h [x] post rfl

lemma Chain.cons (h : Chain slot link l) (hnd : (y :: l).Nodup) (hy : slot' (some y) = link l.head?)
    (hhead : slot' none = link (some y)) (hrest : ∀ s, s ≠ some y → s ≠ none → slot' s = slot s) :
    Chain slot' link (y :: l) := by
  have h' : Chain slot link ([] ++ l) := h
  exact h'.insert hnd hy hhead hrest

lemma Chain.tail (h : Chain slot link (y :: l)) (hnd : (y :: l).Nodup) (hhead : slot' none = link l.head?)
    (hrest : ∀ s, s ≠ some y → s ≠ none → slot' s = slot s) : Chain slot' link l := by
  have h' : Chain slot link ([] ++ y :: l) := h
  exact h'.remove hnd hhead hrest

end Solaris.Lib
