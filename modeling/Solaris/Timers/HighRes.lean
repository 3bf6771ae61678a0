import Mathlib.Data.BitVec
import Mathlib.Tactic.Ring
import Mathlib.Tactic.Linarith

/-!
# High-resolution time

`hrt2ts` and `ts2hrt` of `timers.c`, which turn a 64-bit count of nanoseconds into seconds and nanoseconds and back
without a division or a multiplication.
-/

namespace Solaris.Timers

open Nat

def nanosec : BitVec 32 := 1000000000

@[ext]
structure Timestruc where
  tvSec : BitVec 32
  tvNsec : BitVec 32
  deriving DecidableEq

/-- The quotient by `10 ^ 9` of a number of nanoseconds, from its bits above the low 30. -/
def guess (tmp : BitVec 32) : BitVec 32 :=
  let sec := tmp - (tmp >>> 2)
  let sec := tmp - (sec >>> 5)
  let sec := tmp + (sec >>> 1)
  let sec := tmp - (sec >>> 6) + 7
  let sec := tmp - (sec >>> 3)
  let sec := tmp + (sec >>> 1)
  let sec := tmp + (sec >>> 3)
  tmp + (sec >>> 4)

/-- `(x << 7) - x - x - x` -/
def times125 {w : Nat} (x : BitVec w) : BitVec w := (x <<< 7) - x - x - x

/-- The loop at the end of `hrt2ts`. The second component counts its passes. -/
def cleanup (sec nsec : BitVec 32) : Timestruc × Nat :=
  if nanosec.toNat ≤ nsec.toNat then
    let r := cleanup (sec + 1) (nsec - nanosec)
    (r.1, r.2 + 1)
  else (⟨sec, nsec⟩, 0)
termination_by nsec.toNat
decreasing_by
  have hn : nanosec.toNat = 1000000000 := rfl
  rw [BitVec.toNat_sub_of_le (by assumption)]
  omega

def hrt2ts (hrt : BitVec 64) : Timestruc × Nat :=
  let sec := guess ((hrt.sshiftRight 30).setWidth 32)
  let tmp := times125 (times125 (times125 sec))
  cleanup sec (hrt.setWidth 32 - (tmp <<< 9))

def ts2hrt (tsp : Timestruc) : BitVec 64 :=
  (times125 (times125 (times125 (tsp.tvSec.signExtend 64))) <<< 9) + tsp.tvNsec.signExtend 64

section Shifts

lemma toNat_add_shift {t s : BitVec 32} {k : Nat} (h : t.toNat + s.toNat / 2 ^ k < 2 ^ 32) :
    (t + (s >>> k)).toNat = t.toNat + s.toNat / 2 ^ k := by
  rw [BitVec.toNat_add, BitVec.toNat_ushiftRight, shiftRight_eq_div_pow]
  exact mod_eq_of_lt h

lemma toNat_sub_shift {t s : BitVec 32} {k : Nat} (h : s.toNat / 2 ^ k ≤ t.toNat) :
    (t - (s >>> k)).toNat = t.toNat - s.toNat / 2 ^ k := by
  have hs : (s >>> k).toNat = s.toNat / 2 ^ k := by
    rw [BitVec.toNat_ushiftRight, shiftRight_eq_div_pow]
  rw [BitVec.toNat_sub_of_le (by rw [BitVec.le_def, hs]; exact h), hs]

lemma times125_eq {w : Nat} (x : BitVec w) : times125 x = 125 * x := by
  have h : x <<< 7 = 128 * x := by
    apply BitVec.eq_of_toNat_eq
    simp [BitVec.toNat_shiftLeft, shiftLeft_eq, BitVec.toNat_mul, mul_comm]
  rw [times125, h]
  ring

lemma times125_billion {w : Nat} (x : BitVec w) :
    times125 (times125 (times125 x)) <<< 9 = 1000000000 * x := by
  have h (y : BitVec w) : y <<< 9 = 512 * y := by
    apply BitVec.eq_of_toNat_eq
    simp [BitVec.toNat_shiftLeft, shiftLeft_eq, BitVec.toNat_mul, mul_comm]
  rw [h, times125_eq, times125_eq, times125_eq]
  ring

end Shifts

section Signed

lemma toInt_of_nonneg {w : Nat} {x : BitVec w} (h : 0 ≤ x.toInt) : x.toInt = x.toNat := by
  rw [BitVec.toInt_eq_toNat_cond] at h ⊢
  split at h <;> omega

lemma toNat_of_nonneg {x : BitVec 32} (h : 0 ≤ x.toInt) : x.toNat < 2147483648 := by
  rw [BitVec.toInt_eq_toNat_cond] at h
  split at h <;> omega

end Signed

section Guess

lemma guess_bounds {tmp : BitVec 32} (ht : tmp.toNat < 2000000000) :
    36028797 * tmp.toNat ≤ 33554432 * (guess tmp).toNat + 33554307 ∧
      33554432 * (guess tmp).toNat ≤ 36028797 * tmp.toNat + 124 := by
  unfold guess
  extract_lets s1 s2 s3 s4 s5 s6 s7
  have e1 : s1.toNat = tmp.toNat - tmp.toNat / 2 ^ 2 := toNat_sub_shift (by omega)
  have b1 : 3 * tmp.toNat ≤ 4 * s1.toNat ∧ 4 * s1.toNat ≤ 3 * tmp.toNat + 3 := by omega
  have e2 : s2.toNat = tmp.toNat - s1.toNat / 2 ^ 5 := toNat_sub_shift (by omega)
  have b2 : 125 * tmp.toNat ≤ 128 * s2.toNat + 3 ∧ 128 * s2.toNat ≤ 125 * tmp.toNat + 124 := by
    omega
  have e3 : s3.toNat = tmp.toNat + s2.toNat / 2 ^ 1 := toNat_add_shift (by omega)
  have b3 : 381 * tmp.toNat ≤ 256 * s3.toNat + 131 ∧ 256 * s3.toNat ≤ 381 * tmp.toNat + 124 := by
    omega
  have e4 : s4.toNat = tmp.toNat - s3.toNat / 2 ^ 6 + 7 := by
    have h : (tmp - (s3 >>> 6)).toNat = tmp.toNat - s3.toNat / 2 ^ 6 := toNat_sub_shift (by omega)
    have h7 : (7 : BitVec 32).toNat = 7 := rfl
    rw [BitVec.toNat_add, h, h7]
    omega
  have b4 : 16003 * tmp.toNat + 114564 ≤ 16384 * s4.toNat ∧
      16384 * s4.toNat ≤ 16003 * tmp.toNat + 130947 := by omega
  have e5 : s5.toNat = tmp.toNat - s4.toNat / 2 ^ 3 := toNat_sub_shift (by omega)
  have b5 : 115069 * tmp.toNat ≤ 131072 * s5.toNat + 130947 ∧
      131072 * s5.toNat ≤ 115069 * tmp.toNat + 124 := by omega
  have e6 : s6.toNat = tmp.toNat + s5.toNat / 2 ^ 1 := toNat_add_shift (by omega)
  have b6 : 377213 * tmp.toNat ≤ 262144 * s6.toNat + 262019 ∧
      262144 * s6.toNat ≤ 377213 * tmp.toNat + 124 := by omega
  have e7 : s7.toNat = tmp.toNat + s6.toNat / 2 ^ 3 := toNat_add_shift (by omega)
  have b7 : 2474365 * tmp.toNat ≤ 2097152 * s7.toNat + 2097027 ∧
      2097152 * s7.toNat ≤ 2474365 * tmp.toNat + 124 := by omega
  rw [toNat_add_shift (by omega)]
  omega

lemma small_remainder : ∀ q < 500, q = 0 ∨ 8 ≤ 1953125 * q % 144027 := by decide +kernel

lemma quotient_le {t n : Nat} (hn : 33554432 * n ≤ 36028797 * t + 124) :
    1000000000 * n ≤ 1073741824 * t := by
  by_contra hlt
  have hle : t ≤ n := by omega
  obtain ⟨q, rfl⟩ := Nat.exists_eq_add_of_le hle
  have hpos : 144027 * t < 1953125 * q := by omega
  have hnear : 1953125 * q ≤ 144027 * t + 7 := by omega
  have hmod : 1953125 * q % 144027 = 1953125 * q - 144027 * t := by omega
  have hr := small_remainder q (by omega)
  omega

lemma guess_near {tmp : BitVec 32} {h : Nat} (hh : h < 2147483648 * 1000000000)
    (ht : tmp.toNat = h / 2 ^ 30) :
    (guess tmp).toNat ≤ h / 1000000000 ∧ h / 1000000000 ≤ (guess tmp).toNat + 3 := by
  have hlt : tmp.toNat < 2000000000 := by omega
  have hlow := (guess_bounds hlt).1
  have hle := quotient_le (guess_bounds hlt).2
  have hup : h < 1000000000 * ((guess tmp).toNat + 4) := by omega
  constructor
  · omega
  · omega

end Guess

section Cleanup

lemma cleanup_spec (sec nsec : BitVec 32) (k : Nat) (hk : nsec.toNat / 1000000000 = k) :
    cleanup sec nsec =
      (⟨sec + BitVec.ofNat 32 k, BitVec.ofNat 32 (nsec.toNat % 1000000000)⟩, k) := by
  have hn : nanosec.toNat = 1000000000 := rfl
  induction k generalizing sec nsec with
  | zero =>
    have hlt : nsec.toNat < 1000000000 := by omega
    rw [cleanup, hn, if_neg (by omega), mod_eq_of_lt hlt]
    simp
  | succ k ih =>
    have hle : 1000000000 ≤ nsec.toNat := by omega
    have hsub : (nsec - nanosec).toNat = nsec.toNat - 1000000000 := by
      rw [BitVec.toNat_sub_of_le (by rw [BitVec.le_def, hn]; exact hle), hn]
    have hmod : (nsec - nanosec).toNat % 1000000000 = nsec.toNat % 1000000000 := by omega
    rw [cleanup, hn, if_pos hle, ih (sec + 1) (nsec - nanosec) (by omega), hmod]
    have hadd : sec + 1 + BitVec.ofNat 32 k = sec + BitVec.ofNat 32 (k + 1) := by
      rw [BitVec.add_assoc, add_comm k 1, BitVec.ofNat_add]
      rfl
    simp only [hadd]

lemma cleanup_passes (sec nsec : BitVec 32) : (cleanup sec nsec).2 ≤ 4 := by
  have hlt := nsec.isLt
  rw [cleanup_spec sec nsec _ rfl]
  omega

end Cleanup

section Convert

lemma remainder_toNat {hrt : BitVec 64} {sec : BitVec 32}
    (hlow : sec.toNat ≤ hrt.toNat / 1000000000) (hhigh : hrt.toNat / 1000000000 ≤ sec.toNat + 3) :
    (hrt.setWidth 32 - 1000000000 * sec).toNat = hrt.toNat - 1000000000 * sec.toNat := by
  have hmul : (1000000000 * sec).toNat = 1000000000 * sec.toNat % 2 ^ 32 := BitVec.toNat_mul _ _
  rw [BitVec.toNat_sub, hmul, BitVec.toNat_setWidth]
  omega

lemma hrt2ts_toNat (hrt : BitVec 64) (hh : hrt.toNat < 2147483648 * 1000000000) :
    (hrt2ts hrt).1.tvSec.toNat = hrt.toNat / 1000000000 ∧
      (hrt2ts hrt).1.tvNsec.toNat = hrt.toNat % 1000000000 := by
  have hmsb : hrt.msb = false := by
    rw [BitVec.msb_eq_false_iff_two_mul_lt]
    omega
  have htmp : ((hrt.sshiftRight 30).setWidth 32).toNat = hrt.toNat / 2 ^ 30 := by
    rw [BitVec.toNat_setWidth, BitVec.sshiftRight_eq_of_msb_false hmsb, BitVec.toNat_ushiftRight,
      shiftRight_eq_div_pow]
    omega
  unfold hrt2ts
  extract_lets sec tmp
  obtain ⟨hlow, hhigh⟩ : sec.toNat ≤ hrt.toNat / 1000000000 ∧
      hrt.toNat / 1000000000 ≤ sec.toNat + 3 := guess_near hh htmp
  have hrem := remainder_toNat hlow hhigh
  have htmp : hrt.setWidth 32 - tmp <<< 9 = hrt.setWidth 32 - 1000000000 * sec := by
    rw [times125_billion]
  rw [htmp, cleanup_spec _ _ _ rfl, hrem]
  constructor
  · rw [BitVec.toNat_add, BitVec.toNat_ofNat]
    omega
  · rw [BitVec.toNat_ofNat]
    omega

lemma toNat_signExtend_of_small {x : BitVec 32} (h : x.toNat < 2 ^ 31) :
    (x.signExtend 64).toNat = x.toNat := by
  have hmsb : x.msb = false := by
    rw [BitVec.msb_eq_false_iff_two_mul_lt]
    omega
  rw [BitVec.signExtend_eq_setWidth_of_msb_false hmsb, BitVec.toNat_setWidth]
  omega

lemma ts2hrt_toNat (tsp : Timestruc) (hs : tsp.tvSec.toNat < 2147483648)
    (hn : tsp.tvNsec.toNat < 1000000000) :
    (ts2hrt tsp).toNat = 1000000000 * tsp.tvSec.toNat + tsp.tvNsec.toNat := by
  have hsec := toNat_signExtend_of_small (x := tsp.tvSec) (by omega)
  have hnsec := toNat_signExtend_of_small (x := tsp.tvNsec) (by omega)
  have hmul : (1000000000 * tsp.tvSec.signExtend 64).toNat =
      1000000000 * (tsp.tvSec.signExtend 64).toNat % 2 ^ 64 := BitVec.toNat_mul _ _
  rw [ts2hrt, times125_billion, BitVec.toNat_add, hmul, hsec, hnsec]
  omega

/-- Conversion to seconds and nanoseconds is exact, within four passes of the loop at its end, and
conversion back is its inverse. -/
theorem hrt2ts_exact :
    (∀ hrt : BitVec 64, 0 ≤ hrt.toInt → hrt.toInt < 2 ^ 31 * 10 ^ 9 →
      (hrt2ts hrt).1.tvSec.toInt = hrt.toInt / 10 ^ 9 ∧
        (hrt2ts hrt).1.tvNsec.toInt = hrt.toInt % 10 ^ 9 ∧ (hrt2ts hrt).2 ≤ 4 ∧
        ts2hrt (hrt2ts hrt).1 = hrt) ∧
    ∀ ts : Timestruc, 0 ≤ ts.tvSec.toInt → 0 ≤ ts.tvNsec.toInt → ts.tvNsec.toInt < 10 ^ 9 →
      (hrt2ts (ts2hrt ts)).1 = ts := by
  constructor
  · intro hrt hpos hlt
    have hnat : hrt.toInt = hrt.toNat := toInt_of_nonneg hpos
    have hbound : hrt.toNat < 2147483648 * 1000000000 := by omega
    obtain ⟨hsec, hnsec⟩ := hrt2ts_toNat hrt hbound
    have hisec : (hrt2ts hrt).1.tvSec.toInt = (hrt2ts hrt).1.tvSec.toNat :=
      BitVec.toInt_eq_toNat_of_lt (by omega)
    have hinsec : (hrt2ts hrt).1.tvNsec.toInt = (hrt2ts hrt).1.tvNsec.toNat :=
      BitVec.toInt_eq_toNat_of_lt (by omega)
    refine ⟨by omega, by omega, cleanup_passes _ _, ?_⟩
    apply BitVec.eq_of_toNat_eq
    rw [ts2hrt_toNat _ (by omega) (by omega), hsec, hnsec]
    exact div_add_mod _ _
  · intro ts hsec hnsec hlt
    have hs : ts.tvSec.toInt = ts.tvSec.toNat := toInt_of_nonneg hsec
    have hn : ts.tvNsec.toInt = ts.tvNsec.toNat := toInt_of_nonneg hnsec
    have hsmall : ts.tvSec.toNat < 2147483648 := toNat_of_nonneg hsec
    have hnat := ts2hrt_toNat ts hsmall (by omega)
    obtain ⟨hdiv, hmod⟩ := hrt2ts_toNat (ts2hrt ts) (by omega)
    have hsecs : (hrt2ts (ts2hrt ts)).1.tvSec = ts.tvSec := BitVec.eq_of_toNat_eq (by omega)
    have hnsecs : (hrt2ts (ts2hrt ts)).1.tvNsec = ts.tvNsec := BitVec.eq_of_toNat_eq (by omega)
    exact Timestruc.ext hsecs hnsecs

theorem hrt2ts_exact_sample :
    ((hrt2ts 1500000007999999999).1.tvSec.toInt = 1500000007 ∧
      (hrt2ts 1500000007999999999).1.tvNsec.toInt = 999999999 ∧
      ts2hrt (hrt2ts 1500000007999999999).1 = 1500000007999999999) ∧
    (hrt2ts (ts2hrt ⟨2147483647, 1⟩)).1 = ⟨2147483647, 1⟩ := by
  obtain ⟨hsec, hnsec, -, hback⟩ := hrt2ts_exact.1 1500000007999999999 (by decide) (by decide)
  have hround := hrt2ts_exact.2 ⟨2147483647, 1⟩ (by decide) (by decide) (by decide)
  exact ⟨⟨hsec.trans (by decide), hnsec.trans (by decide), hback⟩, hround⟩

end Convert

end Solaris.Timers
