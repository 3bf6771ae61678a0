import Mathlib.Logic.Function.Iterate

/-!
# Trees of pointers in a memory

A memory maps an address and an index to a pointer. Following a list of indices from a root reaches an address or
stops at a null pointer.
-/

namespace Solaris.Lib

section Memory

open List Function

variable {A I : Type}

def follow (mem : A → I → Option A) (a : A) : List I → Option A
  | [] => some a
  | i :: is => (mem a i).bind fun b => follow mem b is

variable {mem : A → I → Option A} {root : A}

@[simp] lemma follow_cons {i : I} {is : List I} :
    follow mem root (i :: is) = (mem root i).bind fun b => follow mem b is := rfl

end Memory

/-!
## Parent pointers

A tree given by the parent of each node.
-/

section Parents

open Function List

variable {A : Type} {parent : A → A} {root x s t : A}

/-- `y` is `x` or an ancestor of it. -/
def Reaches (parent : A → A) (y x : A) : Prop := ∃ n, parent^[n] x = y

lemma Reaches.self : Reaches parent x x := ⟨0, rfl⟩

lemma Reaches.of_parent (h : Reaches parent root (parent x)) : Reaches parent root x := by
  obtain ⟨n, hn⟩ := h
  exact ⟨n + 1, hn⟩

theorem reaches_iff : Reaches parent s x ↔ x = s ∨ Reaches parent s (parent x) := by
  constructor
  · rintro ⟨n, hn⟩
    cases n with
    | zero => exact .inl hn
    | succ n => exact .inr ⟨n, hn⟩
  · rintro (rfl | h)
    · exact Reaches.self
    · exact h.of_parent

lemma reaches_parent_iff (h : x ≠ s) : Reaches parent s (parent x) ↔ Reaches parent s x := by
  rw [reaches_iff (x := x), or_iff_right h]

lemma Reaches.eq_of_fixed (h : Reaches parent s x) (hfix : parent x = x) : x = s := by
  obtain ⟨n, hn⟩ := h
  rwa [iterate_fixed hfix] at hn

variable [DecidableEq A]

theorem iterate_update_of_not_reaches {v : A} (h : ¬Reaches parent s t) (n : Nat) :
    (update parent s v)^[n] t = parent^[n] t := by
  induction n with
  | zero => rfl
  | succ n ih =>
    have hne : parent^[n] t ≠ s := fun heq => h ⟨n, heq⟩
    rw [iterate_succ_apply', iterate_succ_apply', ih, update_of_ne hne]

lemma Reaches.move (hx : Reaches parent root x) (ht : Reaches parent root t) (hno : ¬Reaches parent s t) :
    Reaches (update parent s t) root x := by
  obtain ⟨n, hn⟩ := hx
  induction n generalizing x with
  | zero => exact ⟨0, hn⟩
  | succ n ih =>
    apply Reaches.of_parent
    by_cases hxs : x = s
    · obtain ⟨k, hk⟩ := ht
      rw [hxs, update_self]
      exact ⟨k, by rw [iterate_update_of_not_reaches hno, hk]⟩
    · rw [update_of_ne hxs]
      exact ih hn

end Parents

end Solaris.Lib
