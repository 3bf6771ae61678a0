import Solaris.Ufs.FragMap
import Solaris.Ufs.Geometry

/-!
# Cylinder groups

The allocator of `ufs_alloc.c` on the maps and counters of the cylinder groups. A fragment has an address in the
file system, and `dtogd` gives its number in its group.
-/

namespace Solaris.Ufs

open Function

structure Csum where
  ndir : Int
  nbfree : Int
  nifree : Int
  nffree : Int

structure Cg where
  blksfree : ByteMap
  frsum : Nat → Int
  cs : Csum
  blktot : Nat → Int
  blks : Nat → Nat → Int
  rotor : Nat
  frotor : Nat
  iused : ByteMap
  irotor : Nat
  /-- reading the group fails, or its magic number is wrong -/
  bad : Bool

inductive Optim where
  | time
  | space
  | other

/-- The fields of the super block that do not change. A group has whole blocks, and the groups cover the file
system. -/
structure Layout where
  g : Geometry
  ncg : Nat
  fpg : Nat
  ipg : Nat
  size : Nat
  dsize : Nat
  minfree : Int
  nspf : Nat
  spc : Nat
  nsect : Nat
  nrpos : Nat
  cpc : Nat
  postbl : Nat → Nat → Int
  rotbl : Nat → Int
  ncg_pos : 0 < ncg
  fpg_pos : 0 < fpg
  ipg_pos : 0 < ipg
  frag_dvd : g.frag ∣ fpg
  size_le : size ≤ ncg * fpg

/-- The groups, the summaries of the super block, and the blocks under `TRANS_ISCANCEL`. -/
structure Disk where
  cg : Nat → Cg
  cs : Nat → Csum
  cstotal : Csum
  optim : Optim
  iscancel : Nat → Bool

namespace Layout

variable (L : Layout)

def dtog (d : Nat) : Nat := d / L.fpg

def dtogd (d : Nat) : Nat := d % L.fpg

def fragnum (fsb : Nat) : Nat := fsb &&& (L.g.frag - 1)

def blknum (fsb : Nat) : Nat := fsb - L.fragnum fsb

def fragstoblks (frags : Nat) : Nat := frags >>> L.g.fragshift

def blkstofrags (blks : Nat) : Nat := blks <<< L.g.fragshift

def nspb : Nat := L.nspf <<< L.g.fragshift

def cbtocylno (bno : Nat) : Nat := bno * L.nspf / L.spc

def cbtorpos (bno : Nat) : Nat := bno * L.nspf % L.spc % L.nsect % L.nsect * L.nrpos / L.nsect

def fragoff (size : Nat) : Nat := size &&& (L.g.fsize - 1)

end Layout

def Csum.add (c : Csum) (nb nf : Int) : Csum := { c with nbfree := c.nbfree + nb, nffree := c.nffree + nf }

namespace Disk

variable (d : Disk)

def setCg (c : Nat) (f : Cg → Cg) : Disk := { d with cg := update d.cg c (f (d.cg c)) }

/-- `nb` blocks and `nf` fragments more, in the group, in its summary and in the total. -/
def count (c : Nat) (nb nf : Int) : Disk :=
  { d with
    cg := update d.cg c { d.cg c with cs := (d.cg c).cs.add nb nf }
    cs := update d.cs c ((d.cs c).add nb nf)
    cstotal := d.cstotal.add nb nf }

end Disk

/-- `n` free blocks more in the cylinder and at the rotational position of a fragment. -/
def Cg.countBlock (L : Layout) (bno : Nat) (n : Int) (cgp : Cg) : Cg :=
  let cylno := L.cbtocylno bno
  let rpos := L.cbtorpos bno
  { cgp with
    blks := update cgp.blks cylno (update (cgp.blks cylno) rpos (cgp.blks cylno rpos + n))
    blktot := update cgp.blktot cylno (cgp.blktot cylno + n) }

inductive Fault where
  | badSize
  | freeBlock
  | freeFrag

/-- The loop of `free` over the fragments: `false` when it meets a free one. -/
def freeFrags : ByteMap → Nat → Nat → ByteMap × Bool
  | blksfree, _, 0 => (blksfree, true)
  | blksfree, bno, n + 1 => if isset blksfree bno then (blksfree, false) else freeFrags (setbit blksfree bno) (bno + 1) n

def free (L : Layout) (d : Disk) (bno size : Nat) : Option Fault × Disk :=
  if L.g.bsize < size ∨ L.fragoff size ≠ 0 then (some .badSize, d)
  else
    let c := L.dtog bno
    let cgp := d.cg c
    if cgp.bad then (none, d)
    else
      let bno := L.dtogd bno
      if size = L.g.bsize then
        let blkno := L.fragstoblks bno
        if isclrblock L.g.frag cgp.blksfree blkno then
          let d := d.setCg c fun cgp =>
            ({ cgp with blksfree := setblock L.g.frag cgp.blksfree blkno } : Cg).countBlock L bno 1
          (none, d.count c 1 0)
        else (some .freeBlock, d)
      else
        let bbase := bno - L.fragnum bno
        let frsum := fragacct L.g.frag (blkmap L.g.frag cgp.blksfree bbase) cgp.frsum (-1)
        let (blksfree, done) := freeFrags cgp.blksfree bno (L.g.numfrags size)
        if done then
          let d := d.setCg c fun cgp => { cgp with
            blksfree := blksfree
            frsum := fragacct L.g.frag (blkmap L.g.frag blksfree bbase) frsum 1 }
          let d := d.count c 0 (L.g.numfrags size)
          let blkno := L.fragstoblks bbase
          if isblock L.g.frag blksfree blkno then
            (none, (d.setCg c fun cgp => cgp.countBlock L bbase 1).count c 1 (-L.g.frag))
          else (none, d)
        else (some .freeFrag, d.setCg c fun cgp => { cgp with blksfree := blksfree, frsum := frsum })

/-- `scanc`: the bytes left when the first one is met that the table names for `mask`, or 0. -/
def scanc (table : Nat → Nat) (cp : ByteMap) (mask : Nat) : Nat → Nat → Nat
  | 0, _ => 0
  | size + 1, first => if table (cp first).toNat &&& mask = 0 then scanc table cp mask size (first + 1) else size + 1

/-- The position of a run of `allocsiz` fragments in the bits of a block. -/
def siftBlock (frag allocsiz blk : Nat) : Option Nat :=
  (List.range (frag - allocsiz + 1)).find? fun pos =>
    (blk <<< 1) &&& (around.getD allocsiz 0 <<< pos) = inside.getD allocsiz 0 <<< pos

/-- The first run of `allocsiz` fragments in the byte that starts at `bno`. -/
def siftByte (frag allocsiz : Nat) (blksfree : ByteMap) (bno : Nat) : Nat :=
  ((List.range (nbby / frag)).findSome? fun k =>
    (siftBlock frag allocsiz (blkmap frag blksfree (bno + k * frag))).map fun pos => bno + k * frag + pos).getD
    (bno + nbby + (frag - allocsiz + 1))

/-- The two scans of `mapsearch`, from `first` up to `last` and then from 0 up to `start`. -/
def mapsearchLoop (L : Layout) (iscancel : Nat → Bool) (c start allocsiz : Nat) :
    Nat → Nat → Nat → Bool → Cg → Option Nat × Cg
  | 0, _, _, _, cgp => (none, cgp)
  | fuel + 1, first, last, secondtime, cgp =>
    if first < last then
      let loc := scanc (fragtbl L.g.frag) cgp.blksfree (1 <<< (allocsiz - 1 + L.g.frag % nbby)) (last - first) first
      let top := fun cgp => if secondtime then (none, cgp) else mapsearchLoop L iscancel c start allocsiz fuel 0 (start + 1) true cgp
      if loc ≠ 0 then
        let bno := (last - loc) * nbby
        let cgp := { cgp with frotor := bno }
        let bno := siftByte L.g.frag allocsiz cgp.blksfree bno
        if !iscancel (c * L.fpg + bno) then (some bno, cgp)
        else if last - loc + 1 < last then
          mapsearchLoop L iscancel c start allocsiz fuel (last - loc + 1) last secondtime cgp
        else top cgp
      else top cgp
    else (none, cgp)

def mapsearch (L : Layout) (iscancel : Nat → Bool) (c bpref allocsiz : Nat) (cgp : Cg) : Option Nat × Cg :=
  let start := if bpref ≠ 0 then L.dtogd bpref / nbby else cgp.frotor / nbby
  let last := howmany L.fpg nbby
  mapsearchLoop L iscancel c start allocsiz (2 * (last + start) + 4) start last false cgp

section Addresses

/-- The fields of the super block that place the areas of its groups, in the 32 bits they have. -/
structure Super where
  size : Int32
  fpg : Int32
  cgoffset : Int32
  cgmask : Int32
  sblkno : Int32
  dblkno : Int32
  cssize : Int32
  fsize : Int32
  nindir : Nat

namespace Super

variable (fs : Super) (bap : Nat → Int32)

def cgbase (c : Int32) : Int32 := fs.fpg * c

def cgstart (c : Int32) : Int32 := fs.cgbase c + fs.cgoffset * (c &&& ~~~fs.cgmask)

def cgsblock (c : Int32) : Int32 := fs.cgstart c + fs.sblkno

def cgdmin (c : Int32) : Int32 := fs.cgstart c + fs.dblkno

def dtog (d : Int32) : Int32 := d / fs.fpg

/-- The fragments of the summary, which group 0 has behind its inodes. -/
def sum (c : Int32) : Int32 := if c = 0 then (fs.cssize + (fs.fsize - 1)) / fs.fsize else 0

def ufsBadblock (bn : Int32) : Nat :=
  if bn ≤ 0 ∨ fs.size < bn then 1
  else
    let c := fs.dtog bn
    if bn < fs.cgbase c ∨ (fs.cgsblock c ≤ bn ∧ bn < fs.cgdmin c + fs.sum c) ∨ fs.cgbase (c + 1) ≤ bn then 1 else 0

/-- The loop stops at the first entry at fault. -/
def ufsIndirBadblock : Nat :=
  ((List.range (fs.nindir - 1)).find? fun i => bap i ≠ 0 ∧ fs.ufsBadblock (bap i) ≠ 0).elim 0 fun i =>
    fs.ufsBadblock (bap i)

/-- Inside its group, and outside the super block, the inodes and the summary. -/
def Apart (b : Int32) : Prop :=
  fs.cgbase (fs.dtog b) ≤ b ∧ b < fs.cgbase (fs.dtog b + 1) ∧
    (b < fs.cgsblock (fs.dtog b) ∨ fs.cgdmin (fs.dtog b) + fs.sum (fs.dtog b) ≤ b)

/-- Group 0 has the boot blocks in front of its super block, where another has data. -/
def Reserved (b : Int32) : Prop := fs.dtog b = 0 ∧ b < fs.cgdmin 0 + fs.sum 0

def DataAddr (b : Int32) : Prop := 0 < b ∧ b < fs.size ∧ fs.Apart b ∧ ¬ fs.Reserved b

/-- The end of the file system, or a boot block. -/
def Stray (b : Int32) : Prop := 0 < b ∧ b ≤ fs.size ∧ fs.Apart b ∧ (b = fs.size ∨ fs.Reserved b)

end Super

variable {fs : Super} {bap : Nat → Int32} {b : Int32}

lemma ufsBadblock_eq_zero : fs.ufsBadblock b = 0 ↔ 0 < b ∧ b ≤ fs.size ∧ fs.Apart b := by
  unfold Super.ufsBadblock Super.Apart
  simp only [Int32.lt_iff_toInt_lt, Int32.le_iff_toInt_le]
  split_ifs
  · exact iff_of_false not_false (by omega)
  · exact iff_of_false not_false (by omega)
  · exact iff_of_true rfl (by omega)

lemma ufsBadblock_iff : fs.ufsBadblock b = 0 ↔ fs.DataAddr b ∨ fs.Stray b := by
  have hend : b ≤ fs.size ↔ b < fs.size ∨ b = fs.size := Int32.le_iff_lt_or_eq
  rw [ufsBadblock_eq_zero, Super.DataAddr, Super.Stray]
  tauto

lemma Super.Stray.not_data (h : fs.Stray b) : ¬ fs.DataAddr b := by
  rintro ⟨_, hlt, _, hfree⟩
  rcases h.2.2.2 with rfl | hres
  · exact Int32.lt_irrefl hlt
  · exact hfree hres

lemma ufsIndirBadblock_eq_zero :
    fs.ufsIndirBadblock bap = 0 ↔ ∀ i < fs.nindir - 1, bap i = 0 ∨ fs.ufsBadblock (bap i) = 0 := by
  unfold Super.ufsIndirBadblock
  cases hfind : (List.range (fs.nindir - 1)).find? fun i => bap i ≠ 0 ∧ fs.ufsBadblock (bap i) ≠ 0 with
  | none =>
    refine iff_of_true rfl fun i hi => ?_
    have hpass := List.find?_eq_none.mp hfind i (List.mem_range.mpr hi)
    rw [decide_eq_true_eq] at hpass
    tauto
  | some i =>
    have hfault := List.find?_some hfind
    rw [decide_eq_true_eq] at hfault
    refine iff_of_false hfault.2 fun h => ?_
    have hok := h i (List.mem_range.mp (List.mem_of_find?_eq_some hfind))
    tauto

/-- The end of the file system and the boot blocks pass, and the last entry of a block is not looked at. -/
theorem badblock_exact_iff (fs : Super) (bap : Nat → Int32) :
    (∀ b, (fs.ufsBadblock b = 0 → fs.DataAddr b) ↔ ¬ fs.Stray b) ∧
    ((fs.ufsIndirBadblock bap = 0 → ∀ i < fs.nindir, bap i = 0 ∨ fs.DataAddr (bap i)) ↔
      (∃ i < fs.nindir - 1, bap i ≠ 0 ∧ ¬ fs.DataAddr (bap i) ∧ ¬ fs.Stray (bap i)) ∨
      (∀ i < fs.nindir - 1, ¬ fs.Stray (bap i)) ∧
        (fs.nindir ≠ 0 → bap (fs.nindir - 1) = 0 ∨ fs.DataAddr (bap (fs.nindir - 1)))) := by
  constructor
  · intro b
    rw [ufsBadblock_iff]
    exact ⟨fun h hs => hs.not_data (h (.inr hs)), fun h hb => hb.resolve_right h⟩
  · simp only [ufsIndirBadblock_eq_zero, ufsBadblock_iff]
    constructor
    · intro h
      by_cases hall : ∀ i < fs.nindir - 1, bap i = 0 ∨ fs.DataAddr (bap i) ∨ fs.Stray (bap i)
      · refine .inr ⟨fun i hi hs => ?_, fun hn => h hall _ (by omega)⟩
        exact (h hall i (by omega)).elim (fun hzero => Int32.lt_irrefl (hzero ▸ hs.1)) hs.not_data
      · push Not at hall
        exact .inl hall
    · rintro (⟨i, hi, hne, hdata, hs⟩ | ⟨hno, hlast⟩) hall i' hi'
      · exact ((hall i hi).resolve_left hne |>.elim hdata hs).elim
      · rcases (show i' = fs.nindir - 1 ∨ i' < fs.nindir - 1 by omega) with rfl | hlt
        · exact hlast (by omega)
        · exact (hall i' hlt).imp_right fun h => h.resolve_right (hno i' hlt)

/-- A block with nothing but a negative address in its last entry. -/
theorem badblock_last_entry :
    let fs : Super := ⟨100000, 5000, 0, -1, 16, 240, 2048, 1024, 2048⟩
    let bap : Nat → Int32 := fun i => if i = 2047 then -1 else 0
    ¬ (fs.ufsIndirBadblock bap = 0 → ∀ i < fs.nindir, bap i = 0 ∨ fs.DataAddr (bap i)) := by
  intro fs bap h
  have hpass : fs.ufsIndirBadblock bap = 0 :=
    ufsIndirBadblock_eq_zero.mpr fun i hi => .inl (if_neg (Nat.ne_of_lt hi))
  rcases h hpass 2047 (by decide) with hzero | hdata
  · exact absurd hzero (by decide)
  · exact absurd hdata.1 (by decide)

end Addresses

end Solaris.Ufs
