import Mathlib.Data.List.Chain
import Solaris.Lib.Chain

/-!
# Circular lists

The elements of a circular list are linked by `next`, and one of them is named the last: the first element is the
one that follows it.
-/

namespace Solaris.Lib

section Links

open List Function

variable {α : Type} {next next' : α → α} {last x y : α} {l pre post : List α}

/-- The elements of the circle in order, the first one behind `last` and the last one `last` itself. -/
structure Ring (next : α → α) (last : α) (l : List α) : Prop where
  nodup : l.Nodup
  ends : l.getLast? = some last
  linked : (last :: l).IsChain fun a b => next a = b

lemma Ring.next_mem (h : Ring next last (pre ++ x :: y :: post)) : next x = y := by
  have hl := h.linked
  rw [← cons_append, isChain_append_cons_cons] at hl
  exact hl.2.1

lemma Ring.head (h : Ring next last (x :: post)) : next last = x := by
  have hl := h.linked
  rw [isChain_cons_cons] at hl
  exact hl.1

lemma Ring.last_mem (h : Ring next last l) : last ∈ l := mem_of_getLast? h.ends

lemma perm_rotate (pre : List α) (x y : α) : (y :: pre ++ [x]).Perm (pre ++ [x, y]) := by
  rw [append_cons pre x [y]]
  exact (perm_append_singleton y (pre ++ [x])).symm

lemma perm_moveFront (pre post : List α) (x y : α) : (y :: (pre ++ x :: post)).Perm (pre ++ x :: y :: post) := by
  rw [append_cons pre x (y :: post), append_cons pre x post]
  exact perm_middle.symm

lemma Ring.rotate (h : Ring next last (pre ++ [x, last])) : Ring next x (last :: pre ++ [x]) := by
  refine ⟨(perm_rotate pre x last).nodup_iff.mpr h.nodup, getLast?_concat, ?_⟩
  have hl := h.linked
  rw [← cons_append, isChain_append_cons_cons] at hl
  rw [cons_append, isChain_cons_cons, ← cons_append]
  exact ⟨hl.2.1, hl.1⟩

lemma isChain_congr_next (h : (l ++ [x]).IsChain fun a b => next a = b) (hne : ∀ a ∈ l, next' a = next a) :
    (l ++ [x]).IsChain fun a b => next' a = b := by
  induction l with
  | nil => exact isChain_singleton x
  | cons a l ih =>
    rw [cons_append, isChain_cons] at h ⊢
    refine ⟨?_, ih h.2 fun b hb => hne b (mem_cons_of_mem _ hb)⟩
    intro b hb
    rw [hne a (mem_cons_self ..)]
    exact h.1 b hb

variable [DecidableEq α]

lemma Ring.moveFront (h : Ring next last (pre ++ x :: y :: (post ++ [last]))) :
    Ring (update (update (update next x (next y)) y
      (update next x (next y) last)) last y) last (y :: (pre ++ x :: (post ++ [last]))) := by
  have hnd := (perm_moveFront pre (post ++ [last]) x y).nodup_iff.mpr h.nodup
  have hends : (y :: (pre ++ x :: (post ++ [last]))).getLast? = some last := by
    rw [show y :: (pre ++ x :: (post ++ [last])) = y :: pre ++ x :: post ++ [last] by simp]
    exact getLast?_concat
  refine ⟨hnd, hends, ?_⟩
  have hl := h.linked
  rw [← cons_append, isChain_append_cons_cons] at hl
  obtain ⟨hbefore, -, hbehind⟩ := hl
  rw [cons_append, isChain_cons] at hbefore
  rw [isChain_cons] at hbehind
  simp only [nodup_cons, mem_append, mem_cons, nodup_append, not_mem_nil, or_false, not_or]
    at hnd
  obtain ⟨⟨hypre, hyx, hypost, hylast⟩, -, ⟨⟨hxpost, hxlast⟩, -, -, hpostlast⟩, hpre⟩ := hnd
  have hlx : last ≠ x := fun heq => hxlast heq.symm
  rw [isChain_cons_cons, ← cons_append, isChain_split, cons_append, isChain_cons,
    isChain_cons]
  refine ⟨update_self .., ⟨?_, ?_⟩, ?_, ?_⟩
  · -- the element is followed by what followed the last one
    intro b hb
    rw [update_of_ne hylast, update_self, update_of_ne hlx]
    exact hbefore.1 b hb
  · apply isChain_congr_next hbefore.2
    intro a ha
    have hax : a ≠ x := fun heq => hpre a ha x (.inl rfl) heq
    have hay : a ≠ y := fun heq => hypre (heq ▸ ha)
    have hal : a ≠ last := fun heq => hpre a ha last (.inr (.inr rfl)) heq
    rw [update_of_ne hal, update_of_ne hay, update_of_ne hax]
  · -- the element before it is followed by what followed it
    intro b hb
    rw [update_of_ne hxlast, update_of_ne (fun heq => hyx heq.symm), update_self]
    exact hbehind.1 b hb
  · apply isChain_congr_next hbehind.2
    intro a ha
    have hax : a ≠ x := fun heq => hxpost (heq ▸ ha)
    have hay : a ≠ y := fun heq => hypost (heq ▸ ha)
    have hal : a ≠ last := fun heq => hpostlast a ha last rfl heq
    rw [update_of_ne hal, update_of_ne hay, update_of_ne hax]

end Links

/-!
## Closed double links

A doubly linked list that closes in its head: `node none` is the head and `node (some x)` the place of the element `x`.
The head is its own neighbour when the list is empty.
-/

section Cells

open List

variable {α P : Type} {node : Option α → P} {next prev next' prev' : P → Option P} {l pre post : List α} {x : α}

structure Circular (node : Option α → P) (next prev : P → Option P) (l : List α) : Prop where
  forward : Chain (fun x => next (node x)) (fun x => some (node x)) l
  backward : Chain (fun x => prev (node x)) (fun x => some (node x)) l.reverse
  nodup : l.Nodup

lemma Circular.first (h : Circular node next prev l) : next (node none) = some (node l.head?) := h.forward.head

lemma Circular.last (h : Circular node next prev l) : prev (node none) = some (node l.getLast?) := by
  rw [← head?_reverse]
  exact h.backward.head

lemma Circular.next_of_mem (h : Circular node next prev (pre ++ x :: post)) :
    next (node (some x)) = some (node post.head?) := h.forward.next

lemma Circular.prev_of_mem (h : Circular node next prev (pre ++ x :: post)) :
    prev (node (some x)) = some (node pre.getLast?) := by
  have hback := h.backward
  rw [reverse_append, reverse_cons, append_assoc] at hback
  rw [← head?_reverse]
  exact hback.next

lemma circular_nil (hnext : next (node none) = some (node none)) (hprev : prev (node none) = some (node none)) :
    Circular node next prev [] := ⟨chain_nil hnext, chain_nil hprev, nodup_nil⟩

lemma Circular.congr (h : Circular node next prev l)
    (hnext : ∀ s, (∀ x ∈ s, x ∈ l) → next' (node s) = next (node s))
    (hprev : ∀ s, (∀ x ∈ s, x ∈ l) → prev' (node s) = prev (node s)) : Circular node next' prev' l := by
  refine ⟨h.forward.congr (hnext none (by simp)) fun x hx => hnext (some x) (by simpa using hx),
    h.backward.congr (hprev none (by simp)) fun x hx => hprev (some x) ?_, h.nodup⟩
  simpa using hx

lemma Circular.front (h : Circular node next prev l) (hx : x ∉ l)
    (hself : next' (node (some x)) = some (node l.head?)) (hhead : next' (node none) = some (node (some x)))
    (hnext : ∀ s, s ≠ some x → s ≠ none → next' (node s) = next (node s))
    (hself' : prev' (node (some x)) = some (node none)) (hfirst : prev' (node l.head?) = some (node (some x)))
    (hprev : ∀ s, s ≠ some x → s ≠ l.head? → prev' (node s) = prev (node s)) :
    Circular node next' prev' (x :: l) := by
  have hnodup : (x :: l).Nodup := nodup_cons.mpr ⟨hx, h.nodup⟩
  refine ⟨?_, ?_, hnodup⟩
  · exact h.forward.cons hnodup hself hhead hnext
  · rw [reverse_cons]
    have hback : Chain (fun x => prev (node x)) (fun x => some (node x)) (l.reverse ++ []) := by
      rw [append_nil]
      exact h.backward
    refine Chain.insert hback ?_ hself' ?_ ?_
    · rw [← reverse_cons]
      exact nodup_reverse.mpr hnodup
    · rw [getLast?_reverse]
      exact hfirst
    · intro s hs hlast
      rw [getLast?_reverse] at hlast
      exact hprev s hs hlast

lemma Circular.remove (h : Circular node next prev (pre ++ x :: post))
    (hbefore : next' (node pre.getLast?) = some (node post.head?))
    (hnext : ∀ s, s ≠ some x → s ≠ pre.getLast? → next' (node s) = next (node s))
    (hbehind : prev' (node post.head?) = some (node pre.getLast?))
    (hprev : ∀ s, s ≠ some x → s ≠ post.head? → prev' (node s) = prev (node s)) :
    Circular node next' prev' (pre ++ post) := by
  refine ⟨h.forward.remove h.nodup hbefore hnext, ?_, ?_⟩
  · have hback := h.backward
    have hnodup := nodup_reverse.mpr h.nodup
    rw [reverse_append, reverse_cons, append_assoc, singleton_append] at hback hnodup
    rw [reverse_append]
    refine hback.remove hnodup ?_ ?_
    · rw [getLast?_reverse, head?_reverse]
      exact hbehind
    · intro s hs hlast
      rw [getLast?_reverse] at hlast
      exact hprev s hs hlast
  · exact h.nodup.sublist (List.Sublist.append_left (sublist_cons_self ..) _)

end Cells

end Solaris.Lib
