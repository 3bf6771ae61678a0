import Mathlib.Algebra.BigOperators.Group.Finset.Basic

/-!
# Sums in which one term changes
-/

namespace Solaris.Lib

open Finset

variable {ι M : Type} [DecidableEq ι] [AddCommMonoid M] {U : Finset ι} {f f' : ι → M} {a : ι}

lemma sum_change (ha : a ∈ U) (h : ∀ b ∈ U, b ≠ a → f' b = f b) :
    ∑ b ∈ U, f' b + f a = ∑ b ∈ U, f b + f' a := by
  have hrest : ∑ b ∈ U.erase a, f' b = ∑ b ∈ U.erase a, f b :=
    sum_congr rfl fun b hb => h b (mem_of_mem_erase hb) (ne_of_mem_erase hb)
  calc ∑ b ∈ U, f' b + f a = ∑ b ∈ U.erase a, f b + f' a + f a := by rw [← sum_erase_add U f' ha, hrest]
    _ = ∑ b ∈ U.erase a, f b + f a + f' a := add_right_comm _ _ _
    _ = ∑ b ∈ U, f b + f' a := by rw [sum_erase_add U f ha]

end Solaris.Lib
