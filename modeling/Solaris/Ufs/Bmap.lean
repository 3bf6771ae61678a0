import Solaris.Lib.PointerTree
import Solaris.Ufs.Geometry

/-!
# The block tree of an inode

The addresses of an inode and of its indirect blocks as a tree of pointers. The inode is the root, with the direct
addresses at the indices below `ndaddr` and the indirect ones after them. A logical block is looked up as `bmap_read` of
`ufs_bmap.c` does.
-/

namespace Solaris.Ufs

open Lib List Nat Option

structure Inode where
  iSize : Nat
  iDb : Nat → Nat
  iIb : Nat → Nat
  iBlocks : Int

structure FileState where
  ip : Inode
  /-- the addresses that the block at a disk address holds -/
  blocks : Nat → Nat → Nat

variable {g : Geometry}

def Inode.blksize (g : Geometry) (ip : Inode) (lbn : Int) : Nat :=
  if (ndaddr : Int) ≤ lbn ∨ (lbn + 1).toNat <<< g.bshift ≤ ip.iSize then g.bsize
  else g.fragroundup (g.blkoff ip.iSize)

/-- How many levels of indirection: the loop over `j`, `shft` and `tbn`. -/
def levelLoop (nindirshift : Nat) : Nat → Nat → Nat → Nat × Nat × Nat
  | 0, shft, tbn => (0, shft, tbn)
  | j + 1, shft, tbn =>
    let shft := shft + nindirshift
    let sh := 1 <<< shft
    if tbn < sh then (j + 1, shft, tbn) else levelLoop nindirshift j shft (tbn - sh)

/-- The index into a block of addresses at the level with shift `shft`. -/
def slotIndex (g : Geometry) (tbn shft : Nat) : Nat := (tbn >>> shft) &&& (g.nindir - 1)

def ptr (n : Nat) : Option (Option Nat) := if n = 0 then none else some (some n)

def addr : Option (Option Nat) → Nat
  | some (some a) => a
  | _ => 0

lemma ptr_of_ne_zero {n : Nat} (h : n ≠ 0) : ptr n = some (some n) := if_neg h

/-- The inode (`none`) and the blocks of addresses (`some a`) as a memory of pointers. -/
def FileState.mem (s : FileState) : Option Nat → Nat → Option (Option Nat)
  | none, i => if i < ndaddr then ptr (s.ip.iDb i) else ptr (s.ip.iIb (i - ndaddr))
  | some a, i => ptr (s.blocks a i)

/-- The indices by which `k` levels of indirection are passed. -/
def indices (g : Geometry) (tbn : Nat) : Nat → Nat → List Nat
  | 0, _ => []
  | k + 1, shft => slotIndex g tbn (shft - g.nindirshift) :: indices g tbn k (shft - g.nindirshift)

/-- The path of a logical block, if it is below the largest addressable one. -/
def blockPath (g : Geometry) (lbn : Nat) : Option (List Nat) :=
  if lbn < ndaddr then some [lbn]
  else
    match levelLoop g.nindirshift niaddr 0 (lbn - ndaddr) with
    | (j, shft, tbn) =>
      if j = 0 then none
      else some ((ndaddr + (niaddr - j)) :: indices g tbn (niaddr + 1 - j) shft)

/-- The address the block tree holds for a logical block, zero for a hole. -/
def FileState.mapped (g : Geometry) (s : FileState) (lbn : Nat) : Nat :=
  match blockPath g lbn with
  | none => 0
  | some p => addr (follow s.mem none p)

@[simp] lemma indices_length (tbn k shft : Nat) : (indices g tbn k shft).length = k := by
  induction k generalizing shft with
  | zero => rfl
  | succ k ih => simp [indices, ih]

lemma slotIndex_eq (tbn shft : Nat) : slotIndex g tbn shft = tbn / 2 ^ shft % g.nindir := by
  unfold slotIndex
  rw [shiftRight_eq_div_pow]
  exact and_two_pow_sub_one_eq_mod _ _

lemma indices_injective {t t' : Nat} (k : Nat)
    (h : indices g t k (g.nindirshift * k) = indices g t' k (g.nindirshift * k)) :
    t % 2 ^ (g.nindirshift * k) = t' % 2 ^ (g.nindirshift * k) := by
  induction k with
  | zero => simp [mod_one]
  | succ k ih =>
    have hs : g.nindirshift * (k + 1) - g.nindirshift = g.nindirshift * k := by
      rw [Nat.mul_succ, Nat.add_sub_cancel]
    simp only [indices, hs, cons.injEq] at h
    obtain ⟨hd, ht⟩ := h
    rw [slotIndex_eq, slotIndex_eq] at hd
    unfold Geometry.nindir at hd
    rw [Nat.mul_succ, pow_add, mod_mul, mod_mul, ih ht, hd]

/-- The blocks that come before those with `r + 1` levels of indirection. -/
def levelBase (n : Nat) : Nat → Nat
  | 0 => 0
  | r + 1 => levelBase n r + 2 ^ (n * (r + 1))

lemma levelLoop_spec (n : Nat) : ∀ j r tbn,
    match levelLoop n j (n * r) tbn with
    | (j', shft, tbn') => j' ≠ 0 → j' ≤ j ∧ shft = n * (r + (j - j') + 1) ∧ tbn' < 2 ^ shft ∧
        tbn + levelBase n r = tbn' + levelBase n (r + (j - j'))
  | 0, r, tbn => by simp [levelLoop]
  | j + 1, r, tbn => by
    simp only [levelLoop, one_shiftLeft]
    rw [← Nat.mul_succ]
    split
    · next h =>
      intro _
      exact ⟨le_rfl, by simp, h, by simp⟩
    · next h =>
      have ih := levelLoop_spec n j (r + 1) (tbn - 2 ^ (n * (r + 1)))
      generalize levelLoop n j (n * (r + 1)) (tbn - 2 ^ (n * (r + 1))) = res at ih ⊢
      obtain ⟨j', shft, tbn'⟩ := res
      dsimp only at ih ⊢
      intro hj
      obtain ⟨hle, hs, hlt, hb⟩ := ih hj
      have hr : r + 1 + (j - j') = r + (j + 1 - j') := by omega
      rw [hr] at hs hb
      have hbase : levelBase n (r + 1) = levelBase n r + 2 ^ (n * (r + 1)) := rfl
      simp only [succ_eq_add_one] at h
      exact ⟨by omega, hs, hlt, by omega⟩

lemma blockPath_indirect {lbn : Nat} {p : List Nat} (hl : ndaddr ≤ lbn)
    (h : blockPath g lbn = some p) :
    ∃ r tbn, r < niaddr ∧ tbn < 2 ^ (g.nindirshift * (r + 1)) ∧
      lbn = ndaddr + tbn + levelBase g.nindirshift r ∧
      levelLoop g.nindirshift niaddr 0 (lbn - ndaddr) = (niaddr - r, g.nindirshift * (r + 1), tbn) ∧
      p = (ndaddr + r) :: indices g tbn (r + 1) (g.nindirshift * (r + 1)) := by
  unfold blockPath at h
  rw [if_neg (not_lt.mpr hl)] at h
  have hspec := levelLoop_spec g.nindirshift niaddr 0 (lbn - ndaddr)
  generalize levelLoop g.nindirshift niaddr 0 (lbn - ndaddr) = res at h hspec
  obtain ⟨j, shft, tbn⟩ := res
  dsimp only at h hspec
  split at h
  · cases h
  · next hj =>
    obtain ⟨hle, hs, hlt, hb⟩ := hspec hj
    cases h
    rw [zero_add] at hs hb
    have hb0 : levelBase g.nindirshift 0 = 0 := rfl
    have hj1 : niaddr + 1 - j = niaddr - j + 1 := by omega
    refine ⟨niaddr - j, tbn, by omega, by rw [← hs]; exact hlt, by omega, ?_, by rw [hj1, ← hs]⟩
    rw [← hs, show niaddr - (niaddr - j) = j by omega]

lemma blockPath_direct {lbn : Nat} (hl : lbn < ndaddr) : blockPath g lbn = some [lbn] := if_pos hl

lemma mapped_direct {s : FileState} {l : Nat} (hl : l < ndaddr) : s.mapped g l = s.ip.iDb l := by
  unfold FileState.mapped
  rw [blockPath_direct hl]
  dsimp only
  rw [follow_cons]
  simp only [FileState.mem, if_pos hl]
  by_cases h0 : s.ip.iDb l = 0
  · rw [h0]
    rfl
  · rw [ptr_of_ne_zero h0]
    rfl

lemma fsize_dvd_blksize {ip : Inode} (l : Int) : g.fsize ∣ ip.blksize g l := by
  unfold Inode.blksize
  split
  · exact fsize_dvd_bsize
  · exact fsize_dvd_fragroundup _

end Solaris.Ufs
