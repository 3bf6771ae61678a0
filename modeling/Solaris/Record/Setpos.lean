import Solaris.Lib.Words

/-!
# Repositioning a record stream

`xdrrec_getpos` and `xdrrec_setpos` when decoding. `lseek` reports the place in the stream that `in_boundry` is at.
-/

namespace Solaris.Record

open Lib BitVec

section Position

/-- The incoming half of `RECSTREAM`: the bytes from `in_base` to `in_boundry`, `in_finger` counted from `in_base` on, the
stream, and the place in it that `lseek` reports. -/
structure SeekIn where
  buf : List Byte
  inFinger : Nat
  fbtbc : BitVec 32
  stream : List Byte
  offset : Nat
  finger_le : inFinger ≤ buf.length
  buf_lt : buf.length < 2 ^ 31
  fbtbc_nonneg : 0 ≤ fbtbc.toInt
  offset_lt : offset < 2 ^ 31
  unread_le : buf.length - inFinger ≤ offset
  unread : stream.drop (offset - (buf.length - inFinger)) = buf.drop inFinger ++ stream.drop offset

def xdrrecGetpos (r : SeekIn) : BitVec 32 := BitVec.ofNat 32 r.offset - BitVec.ofNat 32 (r.buf.length - r.inFinger)

/-- `xdrrec_setpos`: `in_finger` and `fbtbc` behind it. -/
def xdrrecSetpos (r : SeekIn) (pos : BitVec 32) : Option (Int × BitVec 32) :=
  let currpos := xdrrecGetpos r
  let delta := currpos - pos
  if currpos.toInt ≠ -1 then
    let newpos := r.inFinger - delta.toInt
    if delta.toInt < r.fbtbc.toInt ∧ newpos ≤ r.buf.length ∧ newpos ≥ 0 then some (newpos, r.fbtbc - delta) else none
  else none

/-- What is asked of a new place and of the bytes that are left of the fragment: the fragment ends where it did, and the
next bytes are those of the stream at `pos`. -/
structure Repositions (r : SeekIn) (pos : BitVec 32) (inFinger : Int) (fbtbc : BitVec 32) : Prop where
  ends : inFinger + fbtbc.toInt = r.inFinger + r.fbtbc.toInt
  nonneg : 0 ≤ fbtbc.toInt
  next : r.stream.drop pos.toNat = r.buf.drop inFinger.toNat ++ r.stream.drop r.offset

end Position

section Fragment

variable {r : SeekIn} {pos fbtbc : BitVec 32} {inFinger : Int}

lemma xdrrecGetpos_toNat (r : SeekIn) : (xdrrecGetpos r).toNat = r.offset - (r.buf.length - r.inFinger) := by
  have hlt := r.offset_lt
  have hle := r.unread_le
  unfold xdrrecGetpos
  rw [toNat_sub, toNat_ofNat, toNat_ofNat]
  omega

/-- A new place keeps the boundary of the fragment if and only if it is the old one. -/
theorem repositions_iff (h : xdrrecSetpos r pos = some (inFinger, fbtbc)) :
    Repositions r pos inFinger fbtbc ↔ pos = xdrrecGetpos r := by
  unfold xdrrecSetpos at h
  dsimp only at h
  split_ifs at h with hcurr hroom
  obtain ⟨rfl, rfl⟩ := Prod.mk.injEq .. ▸ Option.some_inj.mp h
  constructor
  · intro hrep
    have hends := hrep.ends
    have hlt := r.buf_lt
    -- the difference is counted twice, and is less than half of the numbers
    have hzero : (xdrrecGetpos r - pos).toInt = 0 := by
      rw [BitVec.toInt_sub (x := r.fbtbc), Int.bmod_def] at hends
      split_ifs at hends
      · omega
      · omega
    have hdiff : xdrrecGetpos r - pos = 0#32 := BitVec.eq_of_toInt_eq (hzero.trans rfl)
    have hsum : xdrrecGetpos r - pos + pos = pos := by rw [hdiff, BitVec.zero_add]
    rw [BitVec.sub_add_cancel] at hsum
    exact hsum.symm
  · rintro rfl
    have hzero : (xdrrecGetpos r - xdrrecGetpos r).toInt = 0 := by
      rw [BitVec.sub_self]
      rfl
    rw [hzero, BitVec.sub_self, BitVec.sub_zero, Int.sub_zero]
    refine ⟨rfl, r.fbtbc_nonneg, ?_⟩
    rw [xdrrecGetpos_toNat, Int.toNat_natCast]
    exact r.unread

/-- Two fragments of eight and four bytes in one buffer, with four bytes of the first one read. -/
def twoFragments : SeekIn where
  buf := wordBytes 8 ++ [1, 2, 3, 4, 5, 6, 7, 8] ++ wordBytes 0x80000004 ++ [9, 10, 11, 12]
  inFinger := 8
  fbtbc := 4
  stream := wordBytes 8 ++ [1, 2, 3, 4, 5, 6, 7, 8] ++ wordBytes 0x80000004 ++ [9, 10, 11, 12]
  offset := 20
  finger_le := by decide
  buf_lt := by decide
  fbtbc_nonneg := by decide
  offset_lt := by decide
  unread_le := by decide
  unread := by decide

theorem repositions_iff_here : Repositions twoFragments 8 8 4 ↔ 8 = xdrrecGetpos twoFragments :=
  repositions_iff (by decide)

/-- A byte forward, the fragment seems to have a byte more in place of one less. -/
theorem not_repositions : ¬∀ (r : SeekIn) (pos fbtbc : BitVec 32) (inFinger : Int),
    xdrrecSetpos r pos = some (inFinger, fbtbc) → Repositions r pos inFinger fbtbc := by
  intro hall
  have hends := (hall twoFragments 9 5 9 (by decide)).ends
  revert hends
  decide

end Fragment

end Solaris.Record
