import Mathlib.Data.List.Basic

/-!
# The first element with a property

A search along a list that keeps what stands before and after the element found.
-/

namespace Solaris.Lib

variable {α : Type} {p : α → Bool}

def splitFirst (p : α → Bool) : List α → Option (List α × α × List α)
  | [] => none
  | a :: l => if p a then some ([], a, l) else (splitFirst p l).map fun r => (a :: r.1, r.2)

lemma splitFirst_spec (p : α → Bool) (l : List α) :
    (splitFirst p l = none ∧ ∀ a ∈ l, p a = false) ∨
      ∃ pre a post, splitFirst p l = some (pre, a, post) ∧ l = pre ++ a :: post ∧ p a = true ∧
        ∀ b ∈ pre, p b = false := by
  induction l with
  | nil => exact .inl ⟨rfl, by simp⟩
  | cons b l ih =>
    unfold splitFirst
    split_ifs with hb
    · exact .inr ⟨[], b, l, rfl, rfl, hb, by simp⟩
    rw [Bool.not_eq_true] at hb
    rcases ih with ⟨hnone, hall⟩ | ⟨pre, a, post, hsome, rfl, ha, hpre⟩
    · refine .inl ⟨by rw [hnone]; rfl, ?_⟩
      exact List.forall_mem_cons.mpr ⟨hb, hall⟩
    · refine .inr ⟨b :: pre, a, post, by rw [hsome]; rfl, rfl, ha, ?_⟩
      exact List.forall_mem_cons.mpr ⟨hb, hpre⟩

end Solaris.Lib
