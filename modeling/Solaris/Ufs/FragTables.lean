import Mathlib.Data.Nat.Bitwise
import Mathlib.Data.BitVec

/-!
# Runs of free fragments

The bits of a block tell which of its fragments are free. The tables of `ufs_tables.c` tell which sizes of free runs a
byte of the map holds, and find a run in the bits of a block.
-/

namespace Solaris.Ufs

open Nat

def nbby : Nat := 8

def around : List Nat := [0x3, 0x7, 0xf, 0x1f, 0x3f, 0x7f, 0xff, 0x1ff, 0x3ff]

def inside : List Nat := [0x0, 0x2, 0x6, 0xe, 0x1e, 0x3e, 0x7e, 0xfe, 0x1fe]

def fragtbl124 : List Nat :=
  [0x00, 0x16, 0x16, 0x2a, 0x16, 0x16, 0x26, 0x4e, 0x16, 0x16, 0x16, 0x3e, 0x2a, 0x3e, 0x4e, 0x8a,
    0x16, 0x16, 0x16, 0x3e, 0x16, 0x16, 0x36, 0x5e, 0x16, 0x16, 0x16, 0x3e, 0x3e, 0x3e, 0x5e, 0x9e,
    0x16, 0x16, 0x16, 0x3e, 0x16, 0x16, 0x36, 0x5e, 0x16, 0x16, 0x16, 0x3e, 0x3e, 0x3e, 0x5e, 0x9e,
    0x2a, 0x3e, 0x3e, 0x2a, 0x3e, 0x3e, 0x2e, 0x6e, 0x3e, 0x3e, 0x3e, 0x3e, 0x2a, 0x3e, 0x6e, 0xaa,
    0x16, 0x16, 0x16, 0x3e, 0x16, 0x16, 0x36, 0x5e, 0x16, 0x16, 0x16, 0x3e, 0x3e, 0x3e, 0x5e, 0x9e,
    0x16, 0x16, 0x16, 0x3e, 0x16, 0x16, 0x36, 0x5e, 0x16, 0x16, 0x16, 0x3e, 0x3e, 0x3e, 0x5e, 0x9e,
    0x26, 0x36, 0x36, 0x2e, 0x36, 0x36, 0x26, 0x6e, 0x36, 0x36, 0x36, 0x3e, 0x2e, 0x3e, 0x6e, 0xae,
    0x4e, 0x5e, 0x5e, 0x6e, 0x5e, 0x5e, 0x6e, 0x4e, 0x5e, 0x5e, 0x5e, 0x7e, 0x6e, 0x7e, 0x4e, 0xce,
    0x16, 0x16, 0x16, 0x3e, 0x16, 0x16, 0x36, 0x5e, 0x16, 0x16, 0x16, 0x3e, 0x3e, 0x3e, 0x5e, 0x9e,
    0x16, 0x16, 0x16, 0x3e, 0x16, 0x16, 0x36, 0x5e, 0x16, 0x16, 0x16, 0x3e, 0x3e, 0x3e, 0x5e, 0x9e,
    0x16, 0x16, 0x16, 0x3e, 0x16, 0x16, 0x36, 0x5e, 0x16, 0x16, 0x16, 0x3e, 0x3e, 0x3e, 0x5e, 0x9e,
    0x3e, 0x3e, 0x3e, 0x3e, 0x3e, 0x3e, 0x3e, 0x7e, 0x3e, 0x3e, 0x3e, 0x3e, 0x3e, 0x3e, 0x7e, 0xbe,
    0x2a, 0x3e, 0x3e, 0x2a, 0x3e, 0x3e, 0x2e, 0x6e, 0x3e, 0x3e, 0x3e, 0x3e, 0x2a, 0x3e, 0x6e, 0xaa,
    0x3e, 0x3e, 0x3e, 0x3e, 0x3e, 0x3e, 0x3e, 0x7e, 0x3e, 0x3e, 0x3e, 0x3e, 0x3e, 0x3e, 0x7e, 0xbe,
    0x4e, 0x5e, 0x5e, 0x6e, 0x5e, 0x5e, 0x6e, 0x4e, 0x5e, 0x5e, 0x5e, 0x7e, 0x6e, 0x7e, 0x4e, 0xce,
    0x8a, 0x9e, 0x9e, 0xaa, 0x9e, 0x9e, 0xae, 0xce, 0x9e, 0x9e, 0x9e, 0xbe, 0xaa, 0xbe, 0xce, 0x8a]

def fragtbl8 : List Nat :=
  [0x00, 0x01, 0x01, 0x02, 0x01, 0x01, 0x02, 0x04, 0x01, 0x01, 0x01, 0x03, 0x02, 0x03, 0x04, 0x08,
    0x01, 0x01, 0x01, 0x03, 0x01, 0x01, 0x03, 0x05, 0x02, 0x03, 0x03, 0x02, 0x04, 0x05, 0x08, 0x10,
    0x01, 0x01, 0x01, 0x03, 0x01, 0x01, 0x03, 0x05, 0x01, 0x01, 0x01, 0x03, 0x03, 0x03, 0x05, 0x09,
    0x02, 0x03, 0x03, 0x02, 0x03, 0x03, 0x02, 0x06, 0x04, 0x05, 0x05, 0x06, 0x08, 0x09, 0x10, 0x20,
    0x01, 0x01, 0x01, 0x03, 0x01, 0x01, 0x03, 0x05, 0x01, 0x01, 0x01, 0x03, 0x03, 0x03, 0x05, 0x09,
    0x01, 0x01, 0x01, 0x03, 0x01, 0x01, 0x03, 0x05, 0x03, 0x03, 0x03, 0x03, 0x05, 0x05, 0x09, 0x11,
    0x02, 0x03, 0x03, 0x02, 0x03, 0x03, 0x02, 0x06, 0x03, 0x03, 0x03, 0x03, 0x02, 0x03, 0x06, 0x0a,
    0x04, 0x05, 0x05, 0x06, 0x05, 0x05, 0x06, 0x04, 0x08, 0x09, 0x09, 0x0a, 0x10, 0x11, 0x20, 0x40,
    0x01, 0x01, 0x01, 0x03, 0x01, 0x01, 0x03, 0x05, 0x01, 0x01, 0x01, 0x03, 0x03, 0x03, 0x05, 0x09,
    0x01, 0x01, 0x01, 0x03, 0x01, 0x01, 0x03, 0x05, 0x03, 0x03, 0x03, 0x03, 0x05, 0x05, 0x09, 0x11,
    0x01, 0x01, 0x01, 0x03, 0x01, 0x01, 0x03, 0x05, 0x01, 0x01, 0x01, 0x03, 0x03, 0x03, 0x05, 0x09,
    0x03, 0x03, 0x03, 0x03, 0x03, 0x03, 0x03, 0x07, 0x05, 0x05, 0x05, 0x07, 0x09, 0x09, 0x11, 0x21,
    0x02, 0x03, 0x03, 0x02, 0x03, 0x03, 0x02, 0x06, 0x03, 0x03, 0x03, 0x03, 0x02, 0x03, 0x06, 0x0a,
    0x03, 0x03, 0x03, 0x03, 0x03, 0x03, 0x03, 0x07, 0x02, 0x03, 0x03, 0x02, 0x06, 0x07, 0x0a, 0x12,
    0x04, 0x05, 0x05, 0x06, 0x05, 0x05, 0x06, 0x04, 0x05, 0x05, 0x05, 0x07, 0x06, 0x07, 0x04, 0x0c,
    0x08, 0x09, 0x09, 0x0a, 0x09, 0x09, 0x0a, 0x0c, 0x10, 0x11, 0x11, 0x12, 0x20, 0x21, 0x40, 0x80]

def fragtbl (frag map : Nat) : Nat := if frag = 8 then fragtbl8.getD map 0 else fragtbl124.getD map 0

/-- The bits of the block at `loc` in a byte. -/
def blkbits (frag : Nat) (byte : BitVec 8) (loc : Nat) : Nat := (byte.toNat >>> (loc % nbby)) &&& (0xff >>> (nbby - frag))

/-- The inner loop of `fragacct`: the runs of `siz` fragments in a map shifted by one. -/
def acctLoop (frag fragmap siz : Nat) : Nat → Nat → Nat → Nat → Nat
  | 0, _, _, _ => 0
  | fuel + 1, pos, field, subfield =>
    if pos ≤ frag then
      if fragmap &&& field = subfield then
        acctLoop frag fragmap siz fuel (pos + siz + 1) (field <<< siz <<< 1) (subfield <<< siz <<< 1) + 1
      else acctLoop frag fragmap siz fuel (pos + 1) (field <<< 1) (subfield <<< 1)
    else 0

/-- What `fragacct` counts for a size. -/
def fragCount (frag fragmap siz : Nat) : Nat :=
  if fragtbl frag fragmap <<< 1 &&& 1 <<< (siz + frag % nbby) = 0 then 0
  else acctLoop frag (fragmap <<< 1) siz (frag + 1) siz (around.getD siz 0) (inside.getD siz 0)

def fragacct (frag fragmap : Nat) (fraglist : Nat → Int) (cnt : Int) : Nat → Int := fun siz =>
  if 1 ≤ siz ∧ siz < frag then fraglist siz + cnt * fragCount frag fragmap siz else fraglist siz

/-- A free run of exactly `siz` fragments of the block starts at `pos`. -/
def IsRun (frag map siz pos : Nat) : Prop :=
  pos + siz ≤ frag ∧ (∀ j, j < siz → map.testBit (pos + j) = true) ∧ (pos = 0 ∨ map.testBit (pos - 1) = false) ∧
    map.testBit (pos + siz) = false

lemma isRun_iff_mod {frag map siz pos : Nat} :
    IsRun frag map siz pos ↔ pos + siz ≤ frag ∧ (map <<< 1 >>> pos) % 2 ^ (siz + 2) = 2 ^ (siz + 1) - 2 := by
  have htarget : ∀ i, (2 ^ (siz + 1) - 2).testBit i = decide (1 ≤ i ∧ i < siz + 1) := by
    intro i
    have hshift : 2 ^ (siz + 1) - 2 = (2 ^ siz - 1) <<< 1 := by
      omega
    rw [hshift, testBit_shiftLeft, testBit_two_pow_sub_one]
    by_cases h1 : 1 ≤ i
    · simp [h1]
      omega
    · simp [h1]
  have hbit : ∀ i, ((map <<< 1 >>> pos) % 2 ^ (siz + 2)).testBit i =
      (decide (i < siz + 2) && (decide (1 ≤ pos + i) && map.testBit (pos + i - 1))) := by
    intro i
    rw [testBit_mod_two_pow, testBit_shiftRight, testBit_shiftLeft]
  refine and_congr_right fun hle => ?_
  constructor
  · rintro ⟨hfree, hbefore, hbehind⟩
    apply eq_of_testBit_eq
    intro i
    rw [hbit, htarget]
    rcases lt_trichotomy i (siz + 1) with hi | rfl | hi
    · rcases Nat.eq_zero_or_pos i with rfl | hpos
      · rcases hbefore with rfl | hclear
        · simp
        · simp [hclear]
      · obtain ⟨j, rfl⟩ : ∃ j, i = j + 1 := ⟨i - 1, by omega⟩
        have hj := hfree j (by omega)
        rw [← Nat.add_assoc, Nat.add_sub_cancel, hj]
        simp
        omega
    · rw [← Nat.add_assoc, Nat.add_sub_cancel, hbehind]
      simp
    · simp [show ¬i < siz + 2 by omega, show ¬i < siz + 1 by omega]
  · intro heq
    have hall : ∀ i, i < siz + 2 →
        (decide (1 ≤ pos + i) && map.testBit (pos + i - 1)) = decide (1 ≤ i ∧ i < siz + 1) := by
      intro i hi
      have := congrArg (Nat.testBit · i) heq
      rw [hbit, htarget, decide_eq_true hi, Bool.true_and] at this
      exact this
    refine ⟨fun j hj => ?_, ?_, ?_⟩
    · have := hall (j + 1) (by omega)
      rw [← Nat.add_assoc, Nat.add_sub_cancel] at this
      simpa [show j < siz by omega] using this
    · rcases Nat.eq_zero_or_pos pos with hzero | hpos
      · exact .inl hzero
      · have := hall 0 (by omega)
        right
        simpa [show 1 ≤ pos by omega] using this
    · have := hall (siz + 1) (by omega)
      rw [← Nat.add_assoc, Nat.add_sub_cancel] at this
      simpa using this

instance (frag map siz pos : Nat) : Decidable (IsRun frag map siz pos) := decidable_of_iff' _ isRun_iff_mod

def runAt (frag map siz pos : Nat) : Bool :=
  (pos + siz).ble frag && ((map <<< 1 >>> pos) % 2 ^ (siz + 2)).beq (2 ^ (siz + 1) - 2)

lemma runAt_iff {frag map siz pos : Nat} : runAt frag map siz pos ↔ IsRun frag map siz pos := by
  simp [runAt, isRun_iff_mod]

/-- The number of runs of exactly `siz` fragments. -/
def runs (frag map siz : Nat) : Nat := (List.range frag).countP fun pos => IsRun frag map siz pos

lemma fragCount_eq_runs :
    ∀ frag ∈ [1, 2, 4, 8], ∀ map, map < 2 ^ frag → ∀ siz, siz < frag → 1 ≤ siz →
      fragCount frag map siz = runs frag map siz := by
  decide +kernel

lemma patterns : ∀ siz, siz ≤ 8 → around.getD siz 0 = 2 ^ (siz + 2) - 1 ∧ inside.getD siz 0 = 2 ^ (siz + 1) - 2 := by
  decide

lemma pattern_iff_isRun {frag map siz pos : Nat} (hsiz : siz ≤ 8) (hpos : pos + siz ≤ frag) :
    (map <<< 1) &&& (around.getD siz 0 <<< pos) = inside.getD siz 0 <<< pos ↔ IsRun frag map siz pos := by
  obtain ⟨haround, hinside⟩ := patterns siz hsiz
  have hand : (map <<< 1) &&& ((2 ^ (siz + 2) - 1) <<< pos) = ((map <<< 1 >>> pos) % 2 ^ (siz + 2)) <<< pos := by
    apply eq_of_testBit_eq
    intro i
    by_cases hi : pos ≤ i
    · simp [hi, Bool.and_comm]
    · simp [hi]
  rw [haround, hinside, hand, isRun_iff_mod]
  constructor
  · intro h
    refine ⟨hpos, ?_⟩
    rw [shiftLeft_eq _ pos, shiftLeft_eq _ pos] at h
    exact Nat.eq_of_mul_eq_mul_right (Nat.two_pow_pos pos) h
  · rintro ⟨-, h⟩
    rw [h]

lemma fragtbl_iff_isRun :
    ∀ frag ∈ [1, 2, 4, 8], ∀ byte : BitVec 8, ∀ siz, siz ≤ frag → 1 ≤ siz →
      (fragtbl frag byte.toNat &&& 1 <<< (siz - 1 + frag % nbby) ≠ 0 ↔
        ∃ k, k < nbby / frag ∧ ∃ pos, pos < frag ∧ IsRun frag (blkbits frag byte (k * frag)) siz pos) := by
  have hcheck : ([1, 2, 4, 8].all fun frag => (if frag = 8 then fragtbl8 else fragtbl124).zipIdx.all fun e =>
      (List.range frag).all fun s => (e.1 &&& 1 <<< (s + frag % nbby) != 0) == (List.range (nbby / frag)).any fun k =>
        (List.range frag).any (runAt frag (blkbits frag (.ofNat 8 e.2) (k * frag)) (s + 1))) = true := by
    decide +kernel
  intro frag hf byte siz hle hone
  have hentry : (fragtbl frag byte.toNat, byte.toNat) ∈ (if frag = 8 then fragtbl8 else fragtbl124).zipIdx := by
    rw [List.mk_mem_zipIdx_iff_getElem?, fragtbl]
    split_ifs <;> rw [List.getD_eq_getElem?_getD, List.getElem?_eq_getElem, Option.getD_some] <;>
      exact byte.isLt.trans_le (by decide +kernel)
  have heq := List.all_eq_true.mp (List.all_eq_true.mp (List.all_eq_true.mp hcheck frag hf) _ hentry) (siz - 1)
    (List.mem_range.mpr (by omega))
  rw [← bne_iff_ne, beq_iff_eq.mp heq]
  simp [runAt_iff, Nat.sub_add_cancel hone]

end Solaris.Ufs
