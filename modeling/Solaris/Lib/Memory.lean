import Solaris.Lib.Words

/-!
# Bytes at offsets

A header kept in a buffer is a map from offsets to bytes, and the fields of 16 and 32 bits are read and written at
their offsets, the most significant byte first.
-/

namespace Solaris.Lib

open List

abbrev Memory := Nat → Byte

def half (m : Memory) (a : Nat) : BitVec 16 := m a ++ m (a + 1)

def word (m : Memory) (a : Nat) : BitVec 32 := half m a ++ half m (a + 2)

def putByte (m : Memory) (a : Nat) (b : Byte) : Memory := fun i => if i = a then b else m i

def putHalf (m : Memory) (a : Nat) (v : BitVec 16) : Memory :=
  putByte (putByte m a (v.extractLsb' 8 8)) (a + 1) (v.extractLsb' 0 8)

def putWord (m : Memory) (a : Nat) (v : BitVec 32) : Memory :=
  putHalf (putHalf m a (v.extractLsb' 16 16)) (a + 2) (v.extractLsb' 0 16)

def ofBytes (l : List Byte) : Memory := fun i => l.getD i 0

def toBytes (m : Memory) (n : Nat) : List Byte := (List.range n).map m

def copyBytes (n : Nat) (src dst : Memory) : Memory := fun i => if i < n then src i else dst i

/-- `n` bytes from `a` of one memory, at `b` of another. -/
def bcopy (src : Memory) (a : Nat) (dst : Memory) (b n : Nat) : Memory :=
  fun i => if b ≤ i ∧ i < b + n then src (a + (i - b)) else dst i

variable {m p q r : Memory} {F : Set Nat} {a i n : Nat}

lemma high_half (m : Memory) (a : Nat) : (half m a).extractLsb' 8 8 = m a := BitVec.extractLsb'_append_eq_left

lemma low_half (m : Memory) (a : Nat) : (half m a).extractLsb' 0 8 = m (a + 1) := BitVec.extractLsb'_append_eq_right

lemma high_word (m : Memory) (a : Nat) : (word m a).extractLsb' 16 16 = half m a :=
  BitVec.extractLsb'_append_eq_left

lemma low_word (m : Memory) (a : Nat) : (word m a).extractLsb' 0 16 = half m (a + 2) :=
  BitVec.extractLsb'_append_eq_right

lemma half_eq_iff : half m a = half p i ↔ m a = p i ∧ m (a + 1) = p (i + 1) := by
  constructor
  · intro h
    rw [← high_half m a, ← low_half m a, h, high_half, low_half]
    exact ⟨rfl, rfl⟩
  · rintro ⟨h0, h1⟩
    rw [half, half, h0, h1]

lemma word_eq_iff : word m a = word p i ↔ half m a = half p i ∧ half m (a + 2) = half p (i + 2) := by
  constructor
  · intro h
    rw [← high_word m a, ← low_word m a, h, high_word, low_word]
    exact ⟨rfl, rfl⟩
  · rintro ⟨h0, h1⟩
    rw [word, word, h0, h1]

lemma byte_of_word_eq (h : word m a = word p n) (hi : i < 4) : m (a + i) = p (n + i) := by
  obtain ⟨h0, h2⟩ := word_eq_iff.mp h
  obtain rfl | rfl | rfl | rfl : i = 0 ∨ i = 1 ∨ i = 2 ∨ i = 3 := by omega
  · exact (half_eq_iff.mp h0).1
  · exact (half_eq_iff.mp h0).2
  · exact (half_eq_iff.mp h2).1
  · exact (half_eq_iff.mp h2).2

@[simp] lemma length_toBytes (m : Memory) (n : Nat) : (toBytes m n).length = n := by
  simp [toBytes]

lemma toBytes_congr (h : ∀ i, i < n → m i = p i) : toBytes m n = toBytes p n := by
  apply map_congr_left
  intro i hi
  exact h i (mem_range.mp hi)

lemma toBytes_ofBytes (l : List Byte) (n : Nat) (h : n ≤ l.length) : toBytes (ofBytes l) n = l.take n := by
  apply ext_getElem
  · simp only [length_toBytes, length_take]
    omega
  · intro i hi hi'
    rw [length_toBytes] at hi
    simp only [toBytes, getElem_map, getElem_range, getElem_take, ofBytes]
    simp [show i < l.length by omega]

lemma putByte_of_ne {b : Byte} (h : i ≠ a) : putByte m a b i = m i := if_neg h

lemma putByte_self (b : Byte) : putByte m a b a = b := if_pos rfl

lemma putHalf_of_ne {v : BitVec 16} (h0 : i ≠ a) (h1 : i ≠ a + 1) : putHalf m a v i = m i := by
  rw [putHalf, putByte_of_ne h1, putByte_of_ne h0]

lemma putWord_of_ne {v : BitVec 32} (h : i < a ∨ a + 4 ≤ i) : putWord m a v i = m i := by
  rw [putWord, putHalf_of_ne (by omega) (by omega), putHalf_of_ne (by omega) (by omega)]

lemma extract_extract_byte {v : BitVec 32} (i j : Nat) (hj : j + 8 ≤ 16) :
    (v.extractLsb' i 16).extractLsb' j 8 = v.extractLsb' (i + j) 8 := by
  ext k hk
  simp only [BitVec.getElem_extractLsb', BitVec.getLsbD_extractLsb', Nat.add_assoc]
  simp [show j + k < 16 by omega]

lemma putWord_byte {v : BitVec 32} {k : Nat} (hk : k < 4) :
    putWord m a v (a + k) = v.extractLsb' (24 - 8 * k) 8 := by
  rw [putWord]
  rcases (by omega : k = 0 ∨ k = 1 ∨ k = 2 ∨ k = 3) with rfl | rfl | rfl | rfl
  · rw [putHalf_of_ne (by omega) (by omega), putHalf, putByte_of_ne (by omega), Nat.add_zero, putByte_self]
    exact extract_extract_byte 16 8 (by omega)
  · rw [putHalf_of_ne (by omega) (by omega), putHalf, putByte_self]
    exact extract_extract_byte 16 0 (by omega)
  · rw [putHalf, putByte_of_ne (by omega), putByte_self]
    exact extract_extract_byte 0 8 (by omega)
  · rw [putHalf, putByte_self]
    exact extract_extract_byte 0 0 (by omega)

lemma half_putHalf_self (v : BitVec 16) : half (putHalf m a v) a = v := by
  rw [half, putHalf, putByte_self, putByte_of_ne (by omega), putByte_self]
  exact BitVec.extractLsb'_append_extractLsb'

/-- The bytes of `m` are those of `q` at the offsets of `F` and those of `r` at the others. -/
def Merged (F : Set Nat) (r q m : Memory) : Prop := ∀ i, (i ∈ F → m i = q i) ∧ (i ∉ F → m i = r i)

lemma merged_empty (r q : Memory) : Merged ∅ r q r := by
  intro i
  exact ⟨fun h => absurd h (Set.notMem_empty i), fun _ => rfl⟩

lemma Merged.half_eq (h : Merged F r q m) (ha : a ∉ F) (ha' : a + 1 ∉ F) : half m a = half r a :=
  half_eq_iff.mpr ⟨(h a).2 ha, (h (a + 1)).2 ha'⟩

lemma Merged.word_eq (h : Merged F r q m) (ha : ∀ i, i < 4 → a + i ∉ F) : word m a = word r a :=
  word_eq_iff.mpr ⟨h.half_eq (ha 0 (by omega)) (ha 1 (by omega)), h.half_eq (ha 2 (by omega)) (ha 3 (by omega))⟩

lemma Merged.eq (h : Merged F r q m) (hrest : ∀ i, i ∉ F → r i = q i) : m = q := by
  funext i
  by_cases hi : i ∈ F
  · exact (h i).1 hi
  · rw [(h i).2 hi, hrest i hi]

lemma Merged.congr {F' : Set Nat} (h : Merged F r q m) (hF : ∀ i, i ∈ F ↔ i ∈ F') : Merged F' r q m := by
  intro i
  rw [← hF i]
  exact h i

lemma Merged.putByte {b : Byte} (h : Merged F r q m) (hb : b = q a) :
    Merged {i | i ∈ F ∨ i = a} r q (putByte m a b) := by
  intro i
  by_cases hia : i = a
  · refine ⟨fun _ => ?_, fun hi => absurd (.inr hia) hi⟩
    rw [Lib.putByte, if_pos hia, hb, hia]
  · rw [putByte_of_ne hia]
    refine ⟨fun hi => (h i).1 (hi.resolve_right hia), fun hi => (h i).2 fun hF => hi (.inl hF)⟩

lemma Merged.keep (h : Merged F r q m) {G : Set Nat} (hG : ∀ i ∈ G, r i = q i) : Merged {i | i ∈ F ∨ i ∈ G} r q m := by
  intro i
  refine ⟨fun hi => ?_, fun hi => (h i).2 fun hF => hi (.inl hF)⟩
  by_cases hF : i ∈ F
  · exact (h i).1 hF
  · rw [(h i).2 hF, hG i (hi.resolve_left hF)]

lemma Merged.keepHalf (h : Merged F r q m) (heq : half r a = half q a) :
    Merged {i | i ∈ F ∨ i = a ∨ i = a + 1} r q m := by
  refine h.keep ?_
  rintro i (rfl | rfl)
  · exact (half_eq_iff.mp heq).1
  · exact (half_eq_iff.mp heq).2

lemma Merged.keepWord (h : Merged F r q m) (heq : word r a = word q a) :
    Merged {i | i ∈ F ∨ (a ≤ i ∧ i < a + 4)} r q m := by
  refine h.keep ?_
  rintro i ⟨hlo, hhi⟩
  obtain ⟨j, rfl⟩ := Nat.exists_eq_add_of_le hlo
  exact byte_of_word_eq heq (by omega)

lemma Merged.putHalf {v : BitVec 16} (h : Merged F r q m) (hv : v = half q a) :
    Merged {i | i ∈ F ∨ i = a ∨ i = a + 1} r q (putHalf m a v) := by
  subst hv
  refine ((h.putByte (high_half q a)).putByte (low_half q a)).congr fun i => ?_
  simp only [Set.mem_ofPred_eq, or_assoc]

lemma Merged.putWord {v : BitVec 32} (h : Merged F r q m) (hv : v = word q a) :
    Merged {i | i ∈ F ∨ (a ≤ i ∧ i < a + 4)} r q (putWord m a v) := by
  subst hv
  refine ((h.putHalf (high_word q a)).putHalf (low_word q a)).congr fun i => ?_
  simp only [Set.mem_ofPred_eq, or_assoc]
  constructor
  · rintro (hF | h0 | h1 | h2 | h3)
    · exact .inl hF
    all_goals exact .inr (by omega)
  · rintro (hF | hi)
    · exact .inl hF
    · exact .inr (by omega)

end Solaris.Lib
