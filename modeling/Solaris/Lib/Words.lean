import Mathlib.Data.BitVec

/-!
# Words in network order

A word of 32 bits is four bytes, the most significant one first.
-/

namespace Solaris.Lib

section Network

open BitVec Int

abbrev Byte := BitVec 8

def wordBytes (w : BitVec 32) : List Byte :=
  [BitVec.ofNat 8 (w.toNat / 2 ^ 24), BitVec.ofNat 8 (w.toNat / 2 ^ 16), BitVec.ofNat 8 (w.toNat / 2 ^ 8),
    BitVec.ofNat 8 w.toNat]

def wordOf : List Byte → BitVec 32
  | b₀ :: b₁ :: b₂ :: b₃ :: _ =>
    BitVec.ofNat 32 (b₀.toNat * 2 ^ 24 + b₁.toNat * 2 ^ 16 + b₂.toNat * 2 ^ 8 + b₃.toNat)
  | _ => 0

@[simp] lemma length_wordBytes (w : BitVec 32) : (wordBytes w).length = 4 := rfl

@[simp] lemma wordOf_wordBytes_append (w : BitVec 32) (l : List Byte) : wordOf (wordBytes w ++ l) = w := by
  apply eq_of_toNat_eq
  simp only [wordBytes, wordOf, List.cons_append, toNat_ofNat]
  omega

@[simp] lemma wordOf_wordBytes (w : BitVec 32) : wordOf (wordBytes w) = w := by
  simpa using wordOf_wordBytes_append w []

end Network

/-!
## Numbers on a circle

Positions on a line are numbered modulo `2 ^ 32` from a first number. Numbers are compared by the sign of their
difference; for positions less than half a circle apart that is the order on the line.
-/

section Circle

open BitVec Int

variable {o : BitVec 32} {x y : Nat}

def numberOf (o : BitVec 32) (x : Nat) : BitVec 32 := o + BitVec.ofNat 32 x

def Near (x y : Nat) : Prop := x < y + 2 ^ 31 ∧ y < x + 2 ^ 31

lemma numberOf_add (o : BitVec 32) (x n : Nat) : numberOf o (x + n) = numberOf o x + BitVec.ofNat 32 n := by
  unfold numberOf
  rw [ofNat_add, add_assoc]

lemma numberOf_zero (o : BitVec 32) : numberOf o 0 = o := by simp [numberOf]

lemma numberOf_sub (o : BitVec 32) (x y : Nat) :
    numberOf o x - numberOf o y = BitVec.ofInt 32 ((x : Int) - y) := by
  apply eq_of_toInt_eq
  unfold numberOf
  rw [← ofInt_natCast, ← ofInt_natCast, toInt_ofInt, toInt_sub, toInt_add,
    toInt_add, toInt_ofInt, toInt_ofInt]
  simp only [bmod_sub_bmod, sub_bmod_bmod, add_bmod_bmod]
  congr 1
  omega

lemma toInt_ofInt_of_small {n : Int} (hlo : -2 ^ 31 ≤ n) (hhi : n < 2 ^ 31) : (BitVec.ofInt 32 n).toInt = n := by
  rw [toInt_ofInt]
  exact bmod_eq_of_le (by omega) (by omega)

lemma toInt_numberOf_sub (h : Near x y) : (numberOf o x - numberOf o y).toInt = (x : Int) - y := by
  rw [numberOf_sub]
  exact toInt_ofInt_of_small (by have := h.2; omega) (by have := h.1; omega)

lemma numberOf_inj (h : Near x y) : numberOf o x = numberOf o y ↔ x = y := by
  constructor
  · intro heq
    have := toInt_numberOf_sub (o := o) h
    rw [heq, BitVec.sub_self, BitVec.toInt_zero] at this
    omega
  · rintro rfl
    rfl

end Circle

end Solaris.Lib
