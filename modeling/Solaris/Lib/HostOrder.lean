import Mathlib.Data.ZMod.Basic
import Mathlib.Tactic.LinearCombination
import Solaris.Lib.Checksum

/-!
# Halves in host order

A 16-bit half that a machine reads or stores as it is has its bytes in the order of the machine.
-/

namespace Solaris.Lib

section Halves

open Nat

inductive ByteOrder where
  | big
  | little

/-- The memory whose halves, the most significant byte first, are those of `m` in the order. -/
def ByteOrder.view (o : ByteOrder) (m : Memory) : Memory :=
  match o with
  | .big => m
  | .little => fun i => if i % 2 = 0 then m (i + 1) else m (i - 1)

def hostHalf (o : ByteOrder) (m : Memory) (a : Nat) : BitVec 16 :=
  match o with
  | .big => m a ++ m (a + 1)
  | .little => m (a + 1) ++ m a

def putHostHalf (o : ByteOrder) (m : Memory) (a : Nat) (v : BitVec 16) : Memory :=
  match o with
  | .big => putByte (putByte m a (v.extractLsb' 8 8)) (a + 1) (v.extractLsb' 0 8)
  | .little => putByte (putByte m a (v.extractLsb' 0 8)) (a + 1) (v.extractLsb' 8 8)

def ByteOrder.weight : ByteOrder → Nat
  | .big => 256
  | .little => 1

variable {o : ByteOrder} {m p : Memory} {a i : Nat} {v : BitVec 16}

lemma half_view (j : Nat) : half (o.view m) (2 * j) = hostHalf o m (2 * j) := by
  cases o with
  | big => rfl
  | little =>
    simp only [half, ByteOrder.view, hostHalf]
    rw [if_pos (by omega), if_neg (by omega), Nat.add_sub_cancel]

lemma putHostHalf_of_ne (h0 : i ≠ a) (h1 : i ≠ a + 1) : putHostHalf o m a v i = m i := by
  cases o <;> rw [putHostHalf, putByte_of_ne h1, putByte_of_ne h0]

lemma hostHalf_putHostHalf_self : hostHalf o (putHostHalf o m a v) a = v := by
  cases o <;>
  · rw [hostHalf, putHostHalf, putByte_self, putByte_of_ne (by omega), putByte_self]
    exact BitVec.extractLsb'_append_extractLsb'

lemma hostHalf_congr (h0 : p a = m a) (h1 : p (a + 1) = m (a + 1)) : hostHalf o p a = hostHalf o m a := by
  cases o <;> rw [hostHalf, hostHalf, h0, h1]

lemma hostHalf_toNat : (hostHalf o m a).toNat =
    (m a).toNat * o.weight + (m (a + 1)).toNat * (256 / o.weight) := by
  have h0 := (m a).isLt
  have h1 := (m (a + 1)).isLt
  cases o with
  | big =>
    rw [hostHalf, BitVec.toNat_append, ← shiftLeft_add_eq_or_of_lt h1, shiftLeft_eq]
    simp [ByteOrder.weight]
  | little =>
    rw [hostHalf, BitVec.toNat_append, ← shiftLeft_add_eq_or_of_lt h0, shiftLeft_eq]
    simp [ByteOrder.weight]
    omega

end Halves

/-!
## Sums of 16-bit words of bytes

The words of a string of bytes added up, the last one filled with zero, modulo 2 ^ 16 - 1. A string that starts in
the middle of a word counts as the one at its start with the bytes of the sum swapped.
-/

section Sums

open List Nat

def wordSum (o : ByteOrder) : List Byte → Nat
  | [] => 0
  | [a] => a.toNat * o.weight
  | a :: b :: l => a.toNat * o.weight + b.toNat * (256 / o.weight) + wordSum o l

/-- The sum of bytes the first of which is the second one of a word, or the first. -/
def byteSum (o : ByteOrder) : Bool → List Byte → Nat
  | _, [] => 0
  | odd, b :: l => b.toNat * (if odd then 256 / o.weight else o.weight) + byteSum o (!odd) l

def bytesFrom (m : Memory) (a n : Nat) : List Byte := (List.range n).map fun i => m (a + i)

/-- The bytes of `l` at `a`. -/
def putBytes (m : Memory) (a : Nat) (l : List Byte) : Memory := fun i => if a ≤ i then l[i - a]?.getD (m i) else m i

/-- The sum of `n` halfwords. -/
def halfwordSum (o : ByteOrder) (m : Memory) (a : Nat) : Nat → Nat
  | 0 => 0
  | n + 1 => (hostHalf o m a).toNat + halfwordSum o m (a + 2) n

def swapBytes (v : BitVec 16) : BitVec 16 := v <<< 8 ||| v >>> 8

abbrev Sum16 := ZMod 65535

variable {o : ByteOrder} {m : Memory} {a n k : Nat} {odd : Bool} {l l' : List Byte}

lemma byteSum_false : byteSum o false l = wordSum o l := by
  induction l using wordSum.induct with
  | case1 => rfl
  | case2 a => simp [byteSum, wordSum]
  | case3 a b l ih =>
    rw [byteSum, byteSum, Bool.not_false, Bool.not_true, ih, wordSum]
    simp [add_assoc]

lemma byteSum_append :
    byteSum o odd (l ++ l') = byteSum o odd l + byteSum o (odd ^^ decide (l.length % 2 = 1)) l' := by
  induction l generalizing odd with
  | nil => simp [byteSum]
  | cons b l ih =>
    have hparity : (!odd ^^ decide (l.length % 2 = 1)) = (odd ^^ decide ((b :: l).length % 2 = 1)) := by
      rcases mod_two_eq_zero_or_one l.length with h | h
      · have h' : (l.length + 1) % 2 = 1 := by omega
        simp [h, h']
      · have h' : (l.length + 1) % 2 = 0 := by omega
        simp [h, h']
    rw [cons_append, byteSum, byteSum, ih, hparity, add_assoc]

lemma weight_swap : ((256 / o.weight : Nat) : Sum16) = 256 * (o.weight : Sum16) ∧
    (o.weight : Sum16) = 256 * ((256 / o.weight : Nat) : Sum16) := by
  cases o <;> decide

lemma byteSum_not (o : ByteOrder) (odd : Bool) (l : List Byte) : (byteSum o (!odd) l : Sum16) = 256 * (byteSum o odd l : Sum16) := by
  obtain ⟨hlow, hhigh⟩ := weight_swap (o := o)
  induction l generalizing odd with
  | nil => simp [byteSum]
  | cons b l ih =>
    rw [byteSum, byteSum, cast_add, cast_add, ih, cast_mul, cast_mul]
    cases odd with
    | false =>
      simp only [Bool.not_false, if_true, Bool.false_eq_true, if_false]
      linear_combination (b.toNat : Sum16) * hlow
    | true =>
      simp only [Bool.not_true, if_true, Bool.false_eq_true, if_false]
      linear_combination (b.toNat : Sum16) * hhigh

lemma length_bytesFrom : (bytesFrom m a n).length = n := by simp [bytesFrom]

lemma bytesFrom_add : bytesFrom m a (n + k) = bytesFrom m a n ++ bytesFrom m (a + n) k := by
  simp [bytesFrom, range_add, add_assoc, Function.comp_def]

lemma bytesFrom_one : bytesFrom m a 1 = [m a] := by simp [bytesFrom]

lemma bytesFrom_split (h : n = k + 1) (m : Memory) (a : Nat) :
    bytesFrom m a n = bytesFrom m a k ++ [m (a + k)] := by rw [h, bytesFrom_add, bytesFrom_one]

lemma bytesFrom_cons (h : n = k + 1) (m : Memory) (a : Nat) : bytesFrom m a n = [m a] ++ bytesFrom m (a + 1) k := by
  rw [h, add_comm, bytesFrom_add, bytesFrom_one]

lemma putBytes_nil (m : Memory) (a : Nat) : putBytes m a [] = m := by
  funext i
  simp [putBytes]

lemma putBytes_append (m : Memory) (a : Nat) (l l' : List Byte) :
    putBytes m a (l ++ l') = putBytes (putBytes m a l) (a + l.length) l' := by
  funext i
  simp only [putBytes]
  by_cases hi : a ≤ i
  · rw [if_pos hi, if_pos hi]
    by_cases hl : a + l.length ≤ i
    · have hpast : l[i - a]? = none := getElem?_eq_none (by omega)
      rw [if_pos hl, getElem?_append_right (by omega), hpast, Nat.sub_sub]
      rfl
    · have hin : i - a < l.length := by omega
      rw [if_neg hl, getElem?_append_left hin]
  · rw [if_neg hi, if_neg hi, if_neg (by omega)]

lemma putBytes_one (m : Memory) (a : Nat) (b : Byte) : putBytes m a [b] = putByte m a b := by
  funext i
  rw [putBytes, putByte]
  by_cases hi : i = a
  · rw [if_pos (by omega), if_pos hi, hi, Nat.sub_self]
    rfl
  · split
    · have hpast : [b][i - a]? = none := getElem?_eq_none (by rw [length_singleton]; omega)
      rw [hpast]
      rfl
    · rfl

lemma putBytes_last (m : Memory) (a : Nat) (l : List Byte) (b : Byte) :
    putByte (putBytes m a (l ++ [b])) (a + l.length) b = putBytes m a (l ++ [b]) := by
  rw [putBytes_append, putBytes_one]
  funext i
  rw [putByte]
  split
  · rename_i hi
    rw [hi, putByte_self]
  · rfl

lemma bcopy_eq (src m : Memory) (a b n : Nat) : bcopy src a m b n = putBytes m b (bytesFrom src a n) := by
  funext i
  rw [bcopy, putBytes]
  by_cases hi : b ≤ i
  · rw [if_pos hi]
    by_cases hn : i < b + n
    · have hin : i - b < n := by omega
      rw [if_pos ⟨hi, hn⟩, bytesFrom, getElem?_map, getElem?_range hin]
      rfl
    · have hpast : (bytesFrom src a n)[i - b]? = none := getElem?_eq_none (by rw [length_bytesFrom]; omega)
      rw [if_neg fun h => hn h.2, hpast]
      rfl
  · rw [if_neg hi, if_neg fun h => hi h.1]

lemma halfwordSum_eq : halfwordSum o m a n = byteSum o false (bytesFrom m a (2 * n)) := by
  induction n generalizing a with
  | zero => rfl
  | succ n ih =>
    have hsplit : bytesFrom m a (2 * (n + 1)) = m a :: m (a + 1) :: bytesFrom m (a + 2) (2 * n) := by
      rw [show 2 * (n + 1) = 1 + (1 + 2 * n) by omega, bytesFrom_add, bytesFrom_add, bytesFrom_one, bytesFrom_one]
      rfl
    rw [halfwordSum, ih, hostHalf_toNat, hsplit, byteSum, byteSum]
    simp [add_assoc]

lemma swapBytes_toNat (v : BitVec 16) : (swapBytes v).toNat = v.toNat % 256 * 256 + v.toNat / 256 := by
  have hlow : v.toNat <<< 8 % 2 ^ 16 = (v.toNat % 256) <<< 8 := by
    omega
  have hhigh : v.toNat >>> 8 < 2 ^ 8 := by
    omega
  rw [swapBytes, BitVec.toNat_or, BitVec.toNat_shiftLeft, BitVec.toNat_ushiftRight, hlow,
    ← shiftLeft_add_eq_or_of_lt hhigh, shiftLeft_eq, shiftRight_eq_div_pow]

lemma swapBytes_cast (v : BitVec 16) : ((swapBytes v).toNat : Sum16) = 256 * (v.toNat : Sum16) := by
  have hsplit : ((256 * (v.toNat / 256) + v.toNat % 256 : Nat) : Sum16) = (v.toNat : Sum16) := by
    rw [div_add_mod]
  have hone : (256 : Sum16) * 256 = 1 := by decide
  rw [swapBytes_toNat]
  push_cast at hsplit ⊢
  linear_combination 256 * hsplit - (↑(v.toNat / 256) : Sum16) * hone

end Sums

end Solaris.Lib
