import Mathlib.Data.Nat.Bits
import Mathlib.Tactic.Positivity
import Mathlib.Tactic.Ring

/-!
# Block and fragment arithmetic

The shift constants of a UFS super block and the macros of `ufs_fs.h` that are computed from them.
Offsets and sizes are natural numbers; a logical block number is a 32-bit signed integer.
-/

namespace Solaris.Ufs

open Nat

def ndaddr : Nat := 12

def niaddr : Nat := 3

/-- `DEV_BSHIFT`: a disk sector has 512 bytes. -/
def devBshift : Nat := 9

inductive Errno
  | efbig
  | eio
  | enospc
  | edquot
  | enxio
  | eacces
  | ebusy
  | eexist
  | einval
  | eisdir
  | emlink
  | enoent
  | enotdir
  | esame
  | exdev
  /-- what `ufs_fault` returns -/
  | fault
  deriving DecidableEq

/-- The sizes of a file system: a fragment holds at least one sector, a block one to eight
fragments and between `MINBSIZE` and `MAXBSIZE` bytes. -/
structure Geometry where
  fshift : Nat
  fragshift : Nat
  fshift_min : devBshift ≤ fshift
  fragshift_max : fragshift ≤ 3
  bshift_min : 12 ≤ fshift + fragshift
  bshift_max : fshift + fragshift ≤ 13

namespace Geometry

variable (g : Geometry)

def bshift : Nat := g.fshift + g.fragshift

def bsize : Nat := 2 ^ g.bshift

def fsize : Nat := 2 ^ g.fshift

def frag : Nat := 2 ^ g.fragshift

/-- A block of addresses holds `NINDIR = bsize / sizeof (daddr_t)` of them. -/
def nindirshift : Nat := g.bshift - 2

def nindir : Nat := 2 ^ g.nindirshift

def blkoff (loc : Nat) : Nat := loc &&& (g.bsize - 1)

def numfrags (loc : Nat) : Nat := loc >>> g.fshift

def fragroundup (size : Nat) : Nat := ((size + g.fsize - 1) >>> g.fshift) <<< g.fshift

end Geometry

def btodb (bytes : Nat) : Nat := bytes >>> devBshift

def howmany (x y : Nat) : Nat := (x + (y - 1)) / y

section Sizes

variable {g : Geometry}

lemma fsize_pos : 0 < g.fsize := by
  unfold Geometry.fsize
  positivity

lemma bsize_pos : 0 < g.bsize := by
  unfold Geometry.bsize
  positivity

lemma nindir_pos : 0 < g.nindir := by
  unfold Geometry.nindir
  positivity

lemma bsize_eq : g.bsize = g.frag * g.fsize := by
  unfold Geometry.bsize Geometry.bshift Geometry.frag Geometry.fsize
  rw [pow_add, mul_comm]

lemma fsize_eq : g.fsize = 2 ^ (g.fshift - devBshift) * 512 := by
  unfold Geometry.fsize
  have h : g.fshift = (g.fshift - devBshift) + devBshift := (Nat.sub_add_cancel g.fshift_min).symm
  conv_lhs => rw [h]
  rw [Nat.pow_add]
  rfl

lemma blkoff_eq (loc : Nat) : g.blkoff loc = loc % g.bsize :=
  Nat.and_two_pow_sub_one_eq_mod loc g.bshift

lemma blkoff_lt (loc : Nat) : g.blkoff loc < g.bsize := by
  rw [blkoff_eq]
  exact mod_lt _ bsize_pos

lemma numfrags_eq (loc : Nat) : g.numfrags loc = loc / g.fsize := Nat.shiftRight_eq_div_pow loc g.fshift

lemma fragroundup_eq (size : Nat) : g.fragroundup size = (size + g.fsize - 1) / g.fsize * g.fsize := by
  unfold Geometry.fragroundup
  rw [shiftLeft_eq, shiftRight_eq_div_pow]
  rfl

lemma le_fragroundup (size : Nat) : size ≤ g.fragroundup size := by
  rw [fragroundup_eq]
  have h := div_add_mod (size + g.fsize - 1) g.fsize
  have hm := mod_lt (size + g.fsize - 1) (fsize_pos (g := g))
  rw [mul_comm] at h
  omega

lemma fsize_dvd_fragroundup (size : Nat) : g.fsize ∣ g.fragroundup size := by
  rw [fragroundup_eq]
  exact dvd_mul_left _ _

lemma fsize_dvd_bsize : g.fsize ∣ g.bsize := by
  rw [bsize_eq]
  exact dvd_mul_left _ _

lemma fragroundup_le {size : Nat} (h : size ≤ g.bsize) : g.fragroundup size ≤ g.bsize := by
  rw [fragroundup_eq]
  have hb : (size + g.fsize - 1) / g.fsize ≤ g.frag := by
    rw [← Nat.lt_succ_iff, Nat.div_lt_iff_lt_mul fsize_pos, Nat.succ_mul, ← bsize_eq]
    have := fsize_pos (g := g)
    omega
  calc (size + g.fsize - 1) / g.fsize * g.fsize ≤ g.frag * g.fsize := Nat.mul_le_mul_right _ hb
    _ = g.bsize := bsize_eq.symm

lemma btodb_of_dvd {size : Nat} (h : g.fsize ∣ size) :
    btodb size = g.numfrags size * 2 ^ (g.fshift - devBshift) := by
  obtain ⟨k, rfl⟩ := h
  unfold btodb
  rw [numfrags_eq, Nat.mul_div_cancel_left k fsize_pos, Nat.shiftRight_eq_div_pow]
  have hk : g.fsize * k = 2 ^ devBshift * (k * 2 ^ (g.fshift - devBshift)) := by
    rw [fsize_eq]
    unfold devBshift
    ring
  rw [hk, Nat.mul_div_cancel_left _ (by positivity)]

lemma numfrags_sub {m n : Nat} (hm : g.fsize ∣ m) (hn : g.fsize ∣ n) :
    g.numfrags (m - n) = g.numfrags m - g.numfrags n := by
  obtain ⟨a, rfl⟩ := hm
  obtain ⟨b, rfl⟩ := hn
  rw [← Nat.mul_sub, numfrags_eq, numfrags_eq, numfrags_eq, Nat.mul_div_cancel_left _ fsize_pos,
    Nat.mul_div_cancel_left _ fsize_pos, Nat.mul_div_cancel_left _ fsize_pos]

lemma numfrags_mono {m n : Nat} (h : m ≤ n) : g.numfrags m ≤ g.numfrags n := by
  rw [numfrags_eq, numfrags_eq]
  exact Nat.div_le_div_right h

@[simp] lemma numfrags_bsize : g.numfrags g.bsize = g.frag := by
  rw [numfrags_eq, bsize_eq, Nat.mul_div_cancel _ fsize_pos]

lemma lt_howmany {x y q : Nat} (hy : 0 < y) : q < howmany x y ↔ q * y < x := by
  unfold howmany
  rw [← succ_le_iff, le_div_iff_mul_le hy, succ_mul]
  omega

lemma howmany_zero {y : Nat} (hy : 0 < y) : howmany 0 y = 0 := by
  unfold howmany
  exact div_eq_of_lt (by omega)

lemma howmany_one {x y : Nat} (hx : 0 < x) (h : x ≤ y) : howmany x y = 1 := by
  unfold howmany
  have hsplit : x + (y - 1) = (x - 1) + y := by omega
  rw [hsplit, add_div_right _ (by omega), div_eq_of_lt (by omega)]

lemma howmany_mul {a y : Nat} (hy : 0 < y) : howmany (a * y) y = a := by
  unfold howmany
  rw [add_comm, add_mul_div_right _ _ hy, div_eq_of_lt (by omega), zero_add]

lemma howmany_le {x y : Nat} (hy : 0 < y) : howmany x y ≤ x := by
  by_contra hgt
  have hlt := (lt_howmany hy).mp (Nat.lt_of_not_le hgt)
  have hle := Nat.le_mul_of_pos_right x hy
  omega

lemma howmany_howmany {x a b : Nat} (ha : 0 < a) (hb : 0 < b) : howmany (howmany x a) b = howmany x (a * b) := by
  apply eq_of_forall_lt_iff
  intro q
  rw [lt_howmany hb, lt_howmany ha, lt_howmany (mul_pos ha hb), mul_assoc, mul_comm b a]

end Sizes

end Solaris.Ufs
