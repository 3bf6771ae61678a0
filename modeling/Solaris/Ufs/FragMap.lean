import Solaris.Ufs.FragTables

/-!
# The map of a cylinder group

A cylinder group keeps a bit for each of its fragments, set when the fragment is free.
-/

namespace Solaris.Ufs

open Function Nat BitVec

abbrev ByteMap := Nat → BitVec 8

def isset (a : ByteMap) (i : Nat) : Bool := (a (i / nbby)).getLsbD (i % nbby)

def setbit (a : ByteMap) (i : Nat) : ByteMap :=
  update a (i / nbby) (a (i / nbby) ||| BitVec.twoPow 8 (i % nbby))

def clrbit (a : ByteMap) (i : Nat) : ByteMap :=
  update a (i / nbby) (a (i / nbby) &&& ~~~BitVec.twoPow 8 (i % nbby))

def blkmap (frag : Nat) (map : ByteMap) (loc : Nat) : Nat := blkbits frag (map (loc / nbby)) loc

/-- The byte of block `h`. -/
def blockIndex (frag h : Nat) : Nat :=
  if frag = 8 then h else if frag = 4 then h >>> 1 else if frag = 2 then h >>> 2 else h >>> 3

/-- The bits of block `h` in its byte. -/
def blockMask (frag h : Nat) : BitVec 8 :=
  if frag = 8 then 0xff
  else if frag = 4 then 0x0f <<< ((h &&& 0x1) <<< 2)
  else if frag = 2 then 0x03 <<< ((h &&& 0x3) <<< 1)
  else 0x01 <<< (h &&& 0x7)

def isblock (frag : Nat) (cp : ByteMap) (h : Nat) : Bool :=
  cp (blockIndex frag h) &&& blockMask frag h == blockMask frag h

def isclrblock (frag : Nat) (cp : ByteMap) (h : Nat) : Bool :=
  cp (blockIndex frag h) == cp (blockIndex frag h) &&& ~~~blockMask frag h

def setblock (frag : Nat) (cp : ByteMap) (h : Nat) : ByteMap :=
  update cp (blockIndex frag h) (cp (blockIndex frag h) ||| blockMask frag h)

def clrblock (frag : Nat) (cp : ByteMap) (h : Nat) : ByteMap :=
  update cp (blockIndex frag h) (cp (blockIndex frag h) &&& ~~~blockMask frag h)

def FragSize (frag : Nat) : Prop := frag ∈ [1, 2, 4, 8]

variable {frag h i j loc : Nat} {a : ByteMap}

lemma FragSize.cases (hf : FragSize frag) : frag = 1 ∨ frag = 2 ∨ frag = 4 ∨ frag = 8 := by
  simpa [FragSize] using hf

lemma FragSize.pos (hf : FragSize frag) : 0 < frag := by
  rcases hf.cases with rfl | rfl | rfl | rfl <;> omega

lemma FragSize.dvd (hf : FragSize frag) : frag ∣ 8 := by
  rcases hf.cases with rfl | rfl | rfl | rfl <;> decide

lemma FragSize.byte (hf : FragSize frag) (hloc : frag ∣ loc) (hj : j < frag) :
    (loc + j) / nbby = loc / nbby ∧ (loc + j) % nbby = loc % nbby + j := by
  unfold nbby
  rcases hf.cases with rfl | rfl | rfl | rfl <;> omega

lemma isset_update {byte : BitVec 8} (hbyte : ∀ k, k ≠ i % nbby → byte.getLsbD k = (a (i / nbby)).getLsbD k) :
    isset (update a (i / nbby) byte) j = if j = i then byte.getLsbD (i % nbby) else isset a j := by
  unfold isset
  by_cases hb : j / nbby = i / nbby
  · rw [hb, update_self]
    split_ifs with hj
    · rw [hj]
    · exact hbyte _ (by unfold nbby at *; omega)
  · rw [update_of_ne hb, if_neg (by rintro rfl; exact hb rfl)]

lemma isset_setbit : isset (setbit a i) j = (isset a j || decide (j = i)) := by
  have hlt : i % nbby < 8 := Nat.mod_lt i (by decide)
  unfold setbit
  rw [isset_update fun k hk => by simp [Ne.symm hk]]
  split_ifs with hj <;> simp [hj, hlt]

lemma isset_clrbit : isset (clrbit a i) j = (isset a j && !decide (j = i)) := by
  have hlt : i % nbby < 8 := Nat.mod_lt i (by decide)
  unfold clrbit
  rw [isset_update fun k hk => by simpa [Ne.symm hk] using lt_of_getLsbD]
  split_ifs with hj <;> simp [hj, hlt]

section

variable (hf : FragSize frag)

include hf

lemma testBit_blkbits (byte : BitVec 8) (loc j : Nat) :
    (blkbits frag byte loc).testBit j = (decide (j < frag) && byte.getLsbD (loc % nbby + j)) := by
  have hmask : (0xff >>> (nbby - frag)) = 2 ^ frag - 1 := by
    rcases hf.cases with rfl | rfl | rfl | rfl <;> rfl
  rw [blkbits, hmask, testBit_and, testBit_shiftRight, testBit_two_pow_sub_one, Bool.and_comm]
  rfl

lemma blkbits_lt (byte : BitVec 8) (loc : Nat) : blkbits frag byte loc < 2 ^ frag := by
  apply lt_pow_two_of_testBit
  intro i hi
  rw [testBit_blkbits hf]
  simp [show ¬i < frag by omega]

lemma testBit_blkmap (hloc : frag ∣ loc) (hj : j < frag) :
    (blkmap frag a loc).testBit j = isset a (loc + j) := by
  obtain ⟨hdiv, hmod⟩ := hf.byte hloc hj
  rw [blkmap, testBit_blkbits hf, isset, hdiv, hmod, decide_eq_true hj, Bool.true_and]

lemma blockIndex_eq (h : Nat) : blockIndex frag h = h * frag / nbby := by
  unfold nbby
  rcases hf.cases with rfl | rfl | rfl | rfl <;> simp [blockIndex, shiftRight_eq_div_pow] <;> omega

lemma getLsbD_blockMask (h k : Nat) (hk : k < 8) :
    (blockMask frag h).getLsbD k = decide (h * frag % nbby ≤ k ∧ k < h * frag % nbby + frag) := by
  have hand : h &&& 0x1 = h % 2 ∧ h &&& 0x3 = h % 4 ∧ h &&& 0x7 = h % 8 :=
    ⟨and_two_pow_sub_one_eq_mod h 1, and_two_pow_sub_one_eq_mod h 2, and_two_pow_sub_one_eq_mod h 3⟩
  obtain ⟨h1, h3, h7⟩ := hand
  have m4 : ∀ r, r < 2 → ∀ k, k < 8 →
      (0x0f <<< (r <<< 2) : BitVec 8).getLsbD k = decide (r * 4 ≤ k ∧ k < r * 4 + 4) := by decide
  have m2 : ∀ r, r < 4 → ∀ k, k < 8 →
      (0x03 <<< (r <<< 1) : BitVec 8).getLsbD k = decide (r * 2 ≤ k ∧ k < r * 2 + 2) := by decide
  have m1 : ∀ r, r < 8 → ∀ k, k < 8 → (0x01 <<< r : BitVec 8).getLsbD k = decide (r ≤ k ∧ k < r + 1) := by decide
  have m8 : ∀ k, k < 8 → (0xff : BitVec 8).getLsbD k = true := by decide
  unfold blockMask nbby
  rcases hf.cases with rfl | rfl | rfl | rfl
  · have hmod : h * 1 % 8 = h % 8 := by omega
    simp only [reduceEqDiff, if_false, h7, hmod]
    exact m1 (h % 8) (by omega) k hk
  · have hmod : h * 2 % 8 = h % 4 * 2 := by omega
    simp only [reduceEqDiff, if_false, if_true, h3, hmod]
    exact m2 (h % 4) (by omega) k hk
  · have hmod : h * 4 % 8 = h % 2 * 4 := by omega
    simp only [reduceEqDiff, if_false, if_true, h1, hmod]
    exact m4 (h % 2) (by omega) k hk
  · rw [if_pos rfl, m8 k hk]
    simp
    omega

theorem getLsbD_blockMask_mod (h i : Nat) (hb : i / nbby = blockIndex frag h) :
    (blockMask frag h).getLsbD (i % nbby) = decide (i / frag = h) := by
  have hlt : i % nbby < 8 := mod_lt _ (by decide)
  rw [getLsbD_blockMask hf h _ hlt]
  rw [blockIndex_eq hf] at hb
  unfold nbby at hb ⊢
  apply decide_eq_decide.mpr
  rcases hf.cases with rfl | rfl | rfl | rfl <;> omega

lemma blockIndex_of_div (hi : i / frag = h) : i / nbby = blockIndex frag h := by
  rw [blockIndex_eq hf]
  unfold nbby
  rcases hf.cases with rfl | rfl | rfl | rfl <;> omega

lemma isset_setblock : isset (setblock frag a h) i = (isset a i || decide (i / frag = h)) := by
  unfold isset setblock
  by_cases hb : i / nbby = blockIndex frag h
  · rw [hb, update_self, getLsbD_or, getLsbD_blockMask_mod hf h i hb]
  · have hne : ¬i / frag = h := fun heq => hb (blockIndex_of_div hf heq)
    rw [update_of_ne hb, decide_eq_false hne, Bool.or_false]

lemma isset_clrblock : isset (clrblock frag a h) i = (isset a i && !decide (i / frag = h)) := by
  unfold isset clrblock
  by_cases hb : i / nbby = blockIndex frag h
  · have hlt : i % nbby < 8 := mod_lt _ (by decide)
    rw [hb, update_self, getLsbD_and, getLsbD_not, getLsbD_blockMask_mod hf h i hb,
      decide_eq_true hlt, Bool.true_and]
  · have hne : ¬i / frag = h := fun heq => hb (blockIndex_of_div hf heq)
    rw [update_of_ne hb, decide_eq_false hne]
    simp

lemma div_frag (hj : j < frag) : (h * frag + j) / frag = h := by
  rw [mul_comm, mul_add_div hf.pos, div_eq_of_lt hj, add_zero]

lemma mask_of_frag (hj : j < frag) : (h * frag + j) / nbby = blockIndex frag h ∧
    (blockMask frag h).getLsbD ((h * frag + j) % nbby) = true := by
  have hb := blockIndex_of_div hf (div_frag (h := h) hf hj)
  refine ⟨hb, ?_⟩
  rw [getLsbD_blockMask_mod hf h _ hb, decide_eq_true_iff]
  exact div_frag hf hj

lemma exists_frag_of_mask {k : Nat} (hk : k < 8) (hmask : (blockMask frag h).getLsbD k = true) :
    ∃ j, j < frag ∧ (h * frag + j) / nbby = blockIndex frag h ∧ (h * frag + j) % nbby = k := by
  rw [getLsbD_blockMask hf h k hk, decide_eq_true_iff] at hmask
  refine ⟨k - h * frag % nbby, by omega, ?_⟩
  obtain ⟨hdiv, hmod⟩ := hf.byte (Dvd.intro_left h rfl) (show k - h * frag % nbby < frag by omega)
  rw [hdiv, hmod, blockIndex_eq hf]
  exact ⟨rfl, by omega⟩

lemma isblock_iff : isblock frag a h = true ↔ ∀ j, j < frag → isset a (h * frag + j) = true := by
  unfold isblock
  rw [beq_iff_eq]
  constructor
  · intro heq j hj
    obtain ⟨hb, hin⟩ := mask_of_frag (h := h) hf hj
    have hbit := congrArg (fun x => x.getLsbD ((h * frag + j) % nbby)) heq
    simp only [getLsbD_and, hin, Bool.and_true] at hbit
    rw [isset, hb]
    exact hbit
  · intro hall
    apply eq_of_getLsbD_eq
    intro k hk
    rw [getLsbD_and]
    by_cases hmask : (blockMask frag h).getLsbD k = true
    · obtain ⟨j, hj, hb, hm⟩ := exists_frag_of_mask hf hk hmask
      have hset := hall j hj
      rw [isset, hb, hm] at hset
      rw [hset, hmask]
      rfl
    · rw [Bool.eq_false_of_not_eq_true hmask, Bool.and_false]

lemma isclrblock_iff : isclrblock frag a h = true ↔ ∀ j, j < frag → isset a (h * frag + j) = false := by
  unfold isclrblock
  rw [beq_iff_eq]
  constructor
  · intro heq j hj
    obtain ⟨hb, hin⟩ := mask_of_frag (h := h) hf hj
    have hbit := congrArg (fun x => x.getLsbD ((h * frag + j) % nbby)) heq
    simp only [getLsbD_and, getLsbD_not, hin, Bool.not_true, Bool.and_false] at hbit
    rw [isset, hb]
    exact hbit
  · intro hall
    apply eq_of_getLsbD_eq
    intro k hk
    rw [getLsbD_and, getLsbD_not, decide_eq_true hk, Bool.true_and]
    by_cases hmask : (blockMask frag h).getLsbD k = true
    · obtain ⟨j, hj, hb, hm⟩ := exists_frag_of_mask hf hk hmask
      have hclear := hall j hj
      rw [isset, hb, hm] at hclear
      rw [hclear]
      rfl
    · rw [Bool.eq_false_of_not_eq_true hmask, Bool.not_false, Bool.and_true]

end

end Solaris.Ufs
