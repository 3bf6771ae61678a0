import Mathlib
import Solaris.Ufs.Cylinder

/-!
# Maps and counters

The counters of a cylinder group are sums over its blocks of a weight of their bits. `Accounted` says this of one group
and `Consistent` of the file system.
-/

namespace Solaris.Ufs

open Finset

lemma Geometry.fragSize (g : Geometry) : FragSize g.frag := by
  have hmax := g.fragshift_max
  unfold FragSize Geometry.frag
  have hcases : g.fragshift = 0 ∨ g.fragshift = 1 ∨ g.fragshift = 2 ∨ g.fragshift = 3 := by omega
  rcases hcases with h | h | h | h <;> simp [h]

def Layout.blocks (L : Layout) : Nat := L.fpg / L.g.frag

def Layout.bits (L : Layout) (m : ByteMap) (b : Nat) : Nat := blkmap L.g.frag m (b * L.g.frag)

def Layout.tally (L : Layout) (m : ByteMap) (w : Nat → Nat → Int) : Int := ∑ b ∈ range L.blocks, w b (L.bits m b)

def whole (frag bits : Nat) : Int := if bits = 2 ^ frag - 1 then 1 else 0

/-- The free fragments of a block that is not wholly free. -/
def loose (frag bits : Nat) : Int :=
  if bits = 2 ^ frag - 1 then 0 else (List.range frag).countP fun j => bits.testBit j

structure Accounted (L : Layout) (cgp : Cg) : Prop where
  nbfree : cgp.cs.nbfree = L.tally cgp.blksfree fun _ bits => whole L.g.frag bits
  nffree : cgp.cs.nffree = L.tally cgp.blksfree fun _ bits => loose L.g.frag bits
  frsum : ∀ siz, 1 ≤ siz → siz < L.g.frag →
    cgp.frsum siz = L.tally cgp.blksfree fun _ bits => (runs L.g.frag bits siz : Int)
  blktot : ∀ cyl, cgp.blktot cyl = L.tally cgp.blksfree fun b bits =>
    if L.cbtocylno (b * L.g.frag) = cyl then whole L.g.frag bits else 0
  blks : ∀ cyl pos, cgp.blks cyl pos = L.tally cgp.blksfree fun b bits =>
    if L.cbtocylno (b * L.g.frag) = cyl ∧ L.cbtorpos (b * L.g.frag) = pos then whole L.g.frag bits else 0

structure Consistent (L : Layout) (d : Disk) : Prop where
  accounted : ∀ c, c < L.ncg → Accounted L (d.cg c)
  summary : ∀ c, c < L.ncg → d.cs c = (d.cg c).cs
  nbfree : d.cstotal.nbfree = ∑ c ∈ range L.ncg, (d.cs c).nbfree
  nffree : d.cstotal.nffree = ∑ c ∈ range L.ncg, (d.cs c).nffree

variable {L : Layout} {m : ByteMap} {b : Nat}

lemma blocks_mul (L : Layout) : L.blocks * L.g.frag = L.fpg := Nat.div_mul_cancel L.frag_dvd

lemma blkmap_full (hf : FragSize L.g.frag) (hb : L.g.frag ∣ b) (h : ∀ j, j < L.g.frag → isset m (b + j) = true) :
    blkmap L.g.frag m b = 2 ^ L.g.frag - 1 := by
  apply Nat.eq_of_testBit_eq
  intro i
  rw [Nat.testBit_two_pow_sub_one]
  by_cases hi : i < L.g.frag
  · rw [testBit_blkmap hf hb hi, h i hi, decide_eq_true hi]
  · rw [decide_eq_false hi]
    exact Nat.testBit_lt_two_pow (Nat.lt_of_lt_of_le (blkbits_lt hf _ _) (Nat.pow_le_pow_right (by omega) (by omega)))

/-! ### A small file system

One group of two blocks of eight fragments. Fragment 9 is free. -/

def sampleLayout : Layout where
  g := { fshift := 10, fragshift := 3, fshift_min := by decide, fragshift_max := by decide, bshift_min := by decide,
         bshift_max := by decide }
  ncg := 1
  fpg := 16
  ipg := 64
  size := 16
  dsize := 8
  minfree := 10
  nspf := 2
  spc := 32
  nsect := 8
  nrpos := 8
  cpc := 0
  postbl := fun _ _ => -1
  rotbl := fun _ => 0
  ncg_pos := by decide
  fpg_pos := by decide
  ipg_pos := by decide
  frag_dvd := by decide
  size_le := by decide

def sampleCg : Cg where
  blksfree := fun i => if i = 1 then 0x02 else 0x00
  frsum := fun siz => if siz = 1 then 1 else 0
  cs := { ndir := 1, nbfree := 0, nifree := 60, nffree := 1 }
  blktot := fun _ => 0
  blks := fun _ _ => 0
  rotor := 0
  frotor := 8
  iused := fun i => if i = 0 then 0x0f else 0x00
  irotor := 0
  bad := false

def sampleDisk : Disk where
  cg := fun _ => sampleCg
  cs := fun _ => sampleCg.cs
  cstotal := sampleCg.cs
  optim := .time
  iscancel := fun _ => false

lemma sampleLayout_tally (m : ByteMap) (w : Nat → Nat → Int) :
    sampleLayout.tally m w = w 0 (blkmap 8 m 0) + w 1 (blkmap 8 m 8) := Finset.sum_range_succ _ _ |>.trans (by
  rw [Finset.sum_range_one]
  rfl)

lemma sampleCg_accounted : Accounted sampleLayout sampleCg := by
  have h0 : blkmap 8 sampleCg.blksfree 0 = 0 := by decide
  have h1 : blkmap 8 sampleCg.blksfree 8 = 2 := by decide
  constructor
  · decide
  · decide +kernel
  · intro siz hone hsiz
    revert siz
    decide +kernel
  · intro cyl
    rw [sampleLayout_tally, h0, h1]
    have hzero : whole 8 0 = 0 ∧ whole 8 2 = 0 := by decide
    simp only [show sampleLayout.g.frag = 8 from rfl, hzero.1, hzero.2, ite_self]
    rfl
  · intro cyl pos
    rw [sampleLayout_tally, h0, h1]
    have hzero : whole 8 0 = 0 ∧ whole 8 2 = 0 := by decide
    simp only [show sampleLayout.g.frag = 8 from rfl, hzero.1, hzero.2, ite_self]
    rfl

lemma sampleDisk_consistent : Consistent sampleLayout sampleDisk where
  accounted := fun _ _ => sampleCg_accounted
  summary := fun _ _ => rfl
  nbfree := by decide
  nffree := by decide

end Solaris.Ufs
