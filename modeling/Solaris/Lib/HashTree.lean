import Mathlib.Data.Nat.ModEq

/-!
# Trees over the low bits of a hash

The node of a hash at level `k` is its remainder modulo `2 ^ k`. A node is split when its two halves at the next
level take its place.
-/

namespace Solaris.Lib

open Nat Nat

variable {split : Nat → Nat → Prop} {h h' k k' b : Nat}

/-- Only nodes of which the one above is split are split. -/
def SplitClosed (split : Nat → Nat → Prop) : Prop := ∀ k b, b < 2 ^ (k + 1) → split (k + 1) b → split k (b % 2 ^ k)

/-- The leaf of `h` is at level `k`. -/
structure LeafAt (split : Nat → Nat → Prop) (h k : Nat) : Prop where
  above : ∀ j, j < k → split j (h % 2 ^ j)
  here : ¬split k (h % 2 ^ k)

lemma LeafAt.unique (hk : LeafAt split h k) (hk' : LeafAt split h k') : k = k' := by
  rcases lt_trichotomy k k' with hlt | heq | hgt
  · exact absurd (hk'.above k hlt) hk.here
  · exact heq
  · exact absurd (hk.above k' hgt) hk'.here

lemma mod_two_pow_mod (h : Nat) (hle : k ≤ k') : h % 2 ^ k' % 2 ^ k = h % 2 ^ k :=
  mod_mod_of_dvd h (pow_dvd_pow 2 hle)

lemma LeafAt.level_eq (hk : LeafAt split h k) (hk' : LeafAt split h' k') (heq : h % 2 ^ k = h' % 2 ^ k') : k = k' := by
  have hlow : ∀ {h h' k k' : Nat}, LeafAt split h k → LeafAt split h' k' → h % 2 ^ k = h' % 2 ^ k' → ¬k < k' := by
    intro h h' k k' hk hk' heq hlt
    have hmod : h' % 2 ^ k = h % 2 ^ k := by
      rw [← mod_two_pow_mod h' (le_of_lt hlt), ← heq, mod_two_pow_mod h (le_refl k)]
    refine hk.here ?_
    rw [← hmod]
    exact hk'.above k hlt
  have h1 := hlow hk hk' heq
  have h2 := hlow hk' hk heq.symm
  omega

lemma LeafAt.of_mod_eq (hk : LeafAt split h k) (heq : h' % 2 ^ k = h % 2 ^ k) : LeafAt split h' k := by
  refine ⟨?_, ?_⟩
  · intro j hj
    rw [← mod_two_pow_mod h' (le_of_lt hj), heq, mod_two_pow_mod h (le_of_lt hj)]
    exact hk.above j hj
  · rw [heq]
    exact hk.here

lemma LeafAt.below (hcl : SplitClosed split) (hk : LeafAt split h k) : ¬split (k + 1) (h % 2 ^ (k + 1)) := by
  intro hs
  have := hcl k _ (Nat.mod_lt _ (Nat.two_pow_pos _)) hs
  rw [mod_two_pow_mod h (le_succ k)] at this
  exact hk.here this

section Split

/-- The node `b` at level `k` is split too. -/
def splitNode (split : Nat → Nat → Prop) (k b : Nat) : Nat → Nat → Prop := fun j c => split j c ∨ (j = k ∧ c = b)

lemma splitNode_closed (hcl : SplitClosed split) (hk : LeafAt split h k) :
    SplitClosed (splitNode split k (h % 2 ^ k)) := by
  intro j c hc hs
  rcases hs with hs | ⟨hj, rfl⟩
  · exact .inl (hcl j c hc hs)
  · subst hj
    rw [mod_two_pow_mod h (le_succ j)]
    exact .inl (hk.above j (lt_succ_self j))

lemma LeafAt.split_self (hcl : SplitClosed split) (hk : LeafAt split h k) (heq : h' % 2 ^ k = h % 2 ^ k) :
    LeafAt (splitNode split k (h % 2 ^ k)) h' (k + 1) := by
  have hk' := hk.of_mod_eq heq
  refine ⟨?_, ?_⟩
  · intro j hj
    rcases Nat.lt_succ_iff_lt_or_eq.mp hj with hlt | rfl
    · exact .inl (hk'.above j hlt)
    · exact .inr ⟨rfl, heq⟩
  · rintro (hs | ⟨hj, -⟩)
    · exact hk'.below hcl hs
    · omega

lemma LeafAt.split_other (hk : LeafAt split h k) (hk' : LeafAt split h' k') (hne : h' % 2 ^ k ≠ h % 2 ^ k) :
    LeafAt (splitNode split k (h % 2 ^ k)) h' k' := by
  refine ⟨fun j hj => .inl (hk'.above j hj), ?_⟩
  rintro (hs | ⟨rfl, heq⟩)
  · exact hk'.here hs
  · exact hne heq

lemma mod_two_pow_succ_cases (heq : h' % 2 ^ k = b) :
    (h'.testBit k = false ∧ h' % 2 ^ (k + 1) = b) ∨ (h'.testBit k = true ∧ h' % 2 ^ (k + 1) = b + 2 ^ k) := by
  rw [mod_pow_succ, heq, testBit_eq_decide_div_mod_eq]
  rcases mod_two_eq_zero_or_one (h' / 2 ^ k) with hb | hb
  · exact .inl ⟨by simp [hb], by simp [hb]⟩
  · exact .inr ⟨by simp [hb], by simp [hb]⟩

lemma LeafAt.new_ne (hk : LeafAt split h k) (hk' : LeafAt split h' k') : h' % 2 ^ k' ≠ h % 2 ^ k + 2 ^ k := by
  intro heq
  have hlt : k < k' := by
    by_contra hle
    have : 2 ^ k' ≤ 2 ^ k := Nat.pow_le_pow_right (by decide) (by omega)
    omega
  have hmod : h' % 2 ^ k = h % 2 ^ k := by
    rw [← mod_two_pow_mod h' (le_of_lt hlt), heq, add_mod_right, mod_two_pow_mod h (le_refl k)]
  refine hk.here ?_
  rw [← hmod]
  exact hk'.above k hlt

end Split

end Solaris.Lib
