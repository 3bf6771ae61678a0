import Solaris.Lib.Memory

/-!
# The Internet checksum

The checksum of a header is the complement of the one's complement sum of its 16-bit halves. Two folds bring a sum
of few halves under 2 ^ 16, and a folded sum is the sum modulo 2 ^ 16 - 1, zero being written as 2 ^ 16 - 1.
-/

namespace Solaris.Lib

open BitVec

/-- The sum of the first `k` halves. -/
def halfSum (m : Memory) : Nat → Nat
  | 0 => 0
  | k + 1 => halfSum m k + (half m (2 * k)).toNat

def foldSum (x : Nat) : Nat := x % 2 ^ 16 + x / 2 ^ 16

/-- The complement of the sum of the halves of the first `n` bytes. -/
def checksum (m : Memory) (n : Nat) : BitVec 16 := ~~~BitVec.ofNat 16 (foldSum (foldSum (halfSum m (n / 2))))

variable {m p : Memory} {k n x : Nat}

lemma halfSum_succ (m : Memory) (k : Nat) : halfSum m (k + 1) = halfSum m k + (half m (2 * k)).toNat := rfl

lemma halfSum_congr (h : ∀ j, j < k → half m (2 * j) = half p (2 * j)) : halfSum m k = halfSum p k := by
  induction k with
  | zero => rfl
  | succ k ih => rw [halfSum_succ, halfSum_succ, ih fun j hj => h j (by omega), h k (by omega)]

lemma halfSum_le (m : Memory) (k : Nat) : halfSum m k ≤ (2 ^ 16 - 1) * k := by
  induction k with
  | zero => exact Nat.zero_le _
  | succ k ih =>
    rw [halfSum_succ]
    omega

lemma le_halfSum {j : Nat} (hj : j < k) : (half m (2 * j)).toNat ≤ halfSum m k := by
  induction k with
  | zero => omega
  | succ k ih =>
    rw [halfSum_succ]
    rcases Nat.lt_succ_iff_lt_or_eq.mp hj with hlt | rfl
    · omega
    · omega

lemma halfSum_replace {j : Nat} (hj : j < k) (h : ∀ i, i < k → i ≠ j → half p (2 * i) = half m (2 * i)) :
    halfSum m k + (half p (2 * j)).toNat = halfSum p k + (half m (2 * j)).toNat := by
  induction k with
  | zero => omega
  | succ k ih =>
    rw [halfSum_succ, halfSum_succ]
    rcases Nat.lt_succ_iff_lt_or_eq.mp hj with hlt | rfl
    · have := ih hlt fun i hi => h i (by omega)
      rw [h k (by omega) (by omega)]
      omega
    · rw [halfSum_congr fun i hi => (h i (by omega) (by omega)).symm]
      omega

lemma halfSum_update {j : Nat} (hj : j < k) (hzero : half p (2 * j) = 0)
    (h : ∀ i, i < k → i ≠ j → half p (2 * i) = half m (2 * i)) :
    halfSum m k = halfSum p k + (half m (2 * j)).toNat := by
  have := halfSum_replace hj h
  rw [hzero] at this
  simpa using this

lemma foldSum_foldSum_le (hx : x < 2 ^ 32) : foldSum (foldSum x) < 2 ^ 16 := by
  simp only [foldSum]
  omega

lemma foldSum_mod (x : Nat) : foldSum x % (2 ^ 16 - 1) = x % (2 ^ 16 - 1) := by
  simp only [foldSum]
  omega

lemma foldSum_pos (hx : 0 < x) : 0 < foldSum x := by
  simp only [foldSum]
  omega

lemma checksum_toNat (h : halfSum m (n / 2) < 2 ^ 32) :
    (checksum m n).toNat = 2 ^ 16 - 1 - foldSum (foldSum (halfSum m (n / 2))) := by
  have hlt := foldSum_foldSum_le h
  rw [checksum, toNat_not, toNat_ofNat, Nat.mod_eq_of_lt hlt]

lemma checksum_recomputed {j : Nat} (hn : n ≤ 2 ^ 16) (hj : j < n / 2) (hzero : half p (2 * j) = 0)
    (h : ∀ i, i < n / 2 → i ≠ j → half p (2 * i) = half m (2 * i)) (hvalid : checksum m n = 0)
    (hpos : 0 < halfSum p (n / 2)) (hne : half m (2 * j) ≠ BitVec.ofNat 16 (2 ^ 16 - 1)) :
    checksum p n = half m (2 * j) := by
  have hsum := halfSum_update hj hzero h
  have hm := halfSum_le m (n / 2)
  have hmlt : halfSum m (n / 2) < 2 ^ 32 := by
    omega
  have hplt : halfSum p (n / 2) < 2 ^ 32 := by omega
  have hv : (checksum m n).toNat = 0 := by
    rw [hvalid]
    rfl
  rw [checksum_toNat hmlt] at hv
  have hfull := foldSum_foldSum_le hmlt
  have hpart := foldSum_foldSum_le hplt
  have hfullmod : foldSum (foldSum (halfSum m (n / 2))) % (2 ^ 16 - 1) = halfSum m (n / 2) % (2 ^ 16 - 1) := by
    rw [foldSum_mod, foldSum_mod]
  have hpartmod : foldSum (foldSum (halfSum p (n / 2))) % (2 ^ 16 - 1) = halfSum p (n / 2) % (2 ^ 16 - 1) := by
    rw [foldSum_mod, foldSum_mod]
  have hpartpos := foldSum_pos (foldSum_pos hpos)
  have hkne : (half m (2 * j)).toNat ≠ 2 ^ 16 - 1 := by
    intro heq
    exact hne (eq_of_toNat_eq (by rw [heq]; rfl))
  apply eq_of_toNat_eq
  rw [checksum_toNat hplt]
  omega

end Solaris.Lib
