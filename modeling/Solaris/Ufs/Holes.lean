import Mathlib
import Solaris.Ufs.Bmap

/-!
# Files with holes

`bmap_has_holes` compares the blocks that a file holds with the blocks that a file of its size needs when every logical
block has data: the data blocks, and the indirect blocks on the way to them.
-/

namespace Solaris.Ufs

open Finset Nat

/-- `UFS_MAXOFFSET_T` -/
def ufsMaxoffset : Nat := 2 ^ 40 - 1

/-- `ldbtob` of a 32-bit count of sectors, in 64 bits. -/
def ldbtob (db : Int) : Nat := ((db % 2 ^ 64).toNat <<< devBshift) % 2 ^ 64

/-- The blocks of a full file, with `dblks` of them left at the level that `j` stands for. When no level is left `cnt`
is not set, and holds what the stack held. -/
def holeCount (g : Geometry) (stack j dblks : Nat) : Nat :=
  let nindiroffset := g.nindir - 1
  let nindirblks := nindiroffset + 1
  if j = niaddr then (ndaddr + 1 + dblks) % 2 ^ 32
  else if j = niaddr - 1 then
    (ndaddr + 1 + nindirblks + 1 + (dblks + nindiroffset) / nindirblks + dblks) % 2 ^ 32
  else if j = niaddr - 2 then
    let n := (dblks + nindiroffset) / nindirblks
    (ndaddr + 1 + nindirblks + 1 + nindirblks + nindirblks * nindirblks + 1 + (n + nindiroffset) / nindirblks + n +
      dblks) % 2 ^ 32
  else stack

def bmapHasHoles (g : Geometry) (stack : Nat) (ip : Inode) : Bool :=
  let fsboffset := 1 <<< g.bshift - 1
  let dblks := ((ip.iSize + fsboffset) >>> g.bshift) % 2 ^ 32
  let mblks := ((ldbtob ip.iBlocks + fsboffset) >>> g.bshift) % 2 ^ 32
  if dblks ≤ ndaddr then mblks < dblks
  else
    match levelLoop g.nindirshift niaddr 0 (dblks - ndaddr) with
    | (j, _, dblks) => mblks < holeCount g stack j dblks

variable {g : Geometry} {s : FileState}

def Inode.dblks (g : Geometry) (ip : Inode) : Nat := (ip.iSize + (g.bsize - 1)) / g.bsize

/-- The indirect blocks on the way to a logical block, by their places in the tree. -/
def spine (g : Geometry) (lbn : Nat) : Finset (List Nat) :=
  match blockPath g lbn with
  | none => ∅
  | some p => ((range p.length).filter (0 < ·)).image p.take

def FileState.data (g : Geometry) (s : FileState) : Finset Nat :=
  (range (s.ip.dblks g)).filter (s.mapped g · ≠ 0)

def HasHole (g : Geometry) (s : FileState) : Prop := ∃ lbn, lbn < s.ip.dblks g ∧ s.mapped g lbn = 0

/-- No data lies behind the size, and `i_blocks` counts the fragments of data and the indirect blocks that lead to
them. -/
structure Counted (g : Geometry) (s : FileState) : Prop where
  inside : ∀ lbn, s.mapped g lbn ≠ 0 → lbn < s.ip.dblks g
  blocks : s.ip.iBlocks =
    ((∑ lbn ∈ s.data g, btodb (s.ip.blksize g lbn) + #((s.data g).biUnion (spine g)) * btodb g.bsize : Nat) : Int)

lemma levelLoop_level {n r t : Nat} (hr : r < niaddr) (ht : t < 2 ^ (n * (r + 1))) :
    levelLoop n niaddr 0 (t + levelBase n r) = (niaddr - r, n * (r + 1), t) := by
  have hcases : r = 0 ∨ r = 1 ∨ r = 2 := by
    unfold niaddr at hr
    omega
  rcases hcases with rfl | rfl | rfl
  · have h0 : t < 2 ^ n := by simpa using ht
    simp [levelLoop, niaddr, levelBase, Nat.one_shiftLeft, h0]
  · have h1 : t < 2 ^ (n + n) := by simpa [Nat.mul_two] using ht
    simp [levelLoop, niaddr, levelBase, Nat.one_shiftLeft, h1, Nat.mul_two]
  · have h2 : t < 2 ^ (n + n + n) := by simpa [Nat.mul_succ] using ht
    have hpos := Nat.two_pow_pos (n + n)
    have hb : t + (2 ^ n + 2 ^ (n + n)) - 2 ^ n = t + 2 ^ (n + n) := by omega
    have hnot : ¬t + (2 ^ n + 2 ^ (n + n)) < 2 ^ n := by omega
    simp [levelLoop, niaddr, levelBase, Nat.one_shiftLeft, h2, hb, hnot, Nat.mul_succ]

lemma blockPath_level {r t : Nat} (hr : r < niaddr) (ht : t < 2 ^ (g.nindirshift * (r + 1))) :
    blockPath g (ndaddr + t + levelBase g.nindirshift r) =
      some ((ndaddr + r) :: indices g t (r + 1) (g.nindirshift * (r + 1))) := by
  have hsub : ndaddr + t + levelBase g.nindirshift r - ndaddr = t + levelBase g.nindirshift r := by omega
  unfold blockPath
  rw [if_neg (by omega), hsub, levelLoop_level hr ht]
  dsimp only
  rw [if_neg (by omega), show niaddr - (niaddr - r) = r by omega, show niaddr + 1 - (niaddr - r) = r + 1 by omega]

lemma exists_level {n t : Nat} (ht : t < levelBase n niaddr) :
    ∃ r u, r < niaddr ∧ u < 2 ^ (n * (r + 1)) ∧ t = u + levelBase n r := by
  unfold niaddr at ht ⊢
  simp only [levelBase] at ht
  by_cases h0 : t < 2 ^ (n * (0 + 1))
  · exact ⟨0, t, by omega, h0, by simp [levelBase]⟩
  by_cases h1 : t < 2 ^ (n * (0 + 1)) + 2 ^ (n * (1 + 1))
  · refine ⟨1, t - 2 ^ (n * (0 + 1)), by omega, by omega, ?_⟩
    simp only [levelBase]
    omega
  · refine ⟨2, t - (2 ^ (n * (0 + 1)) + 2 ^ (n * (1 + 1))), by omega, by omega, ?_⟩
    simp only [levelBase]
    omega

lemma indices_take (t k shft m : Nat) (h : m ≤ k) : (indices g t k shft).take m = indices g t m shft := by
  induction m generalizing k shft with
  | zero => rfl
  | succ m ih =>
    obtain ⟨k, rfl⟩ : ∃ i, k = i + 1 := ⟨k - 1, by omega⟩
    simp only [indices, List.take_succ_cons]
    rw [ih k _ (by omega)]

lemma indices_shift (t base m : Nat) :
    indices g t m (base + g.nindirshift * m) = indices g (t / 2 ^ base) m (g.nindirshift * m) := by
  induction m with
  | zero => rfl
  | succ m ih =>
    have h1 : base + g.nindirshift * (m + 1) - g.nindirshift = base + g.nindirshift * m := by
      rw [Nat.mul_succ]
      omega
    have h2 : g.nindirshift * (m + 1) - g.nindirshift = g.nindirshift * m := by rw [Nat.mul_succ, Nat.add_sub_cancel]
    simp only [indices, h1, h2, ih, slotIndex_eq]
    rw [Nat.pow_add, Nat.div_div_eq_div_mul]

/-- The place of an indirect block: `m` levels under the `r`-th indirect address, the `q`-th of its level. -/
def node (g : Geometry) (r m q : Nat) : List Nat := (ndaddr + r) :: indices g q m (g.nindirshift * m)

lemma node_injective {r m q r' m' q' : Nat} (hq : q < 2 ^ (g.nindirshift * m))
    (hq' : q' < 2 ^ (g.nindirshift * m')) (h : node g r m q = node g r' m' q') : r = r' ∧ m = m' ∧ q = q' := by
  unfold node at h
  obtain ⟨hr, hrest⟩ := List.cons.inj h
  have hm : m = m' := by
    have hlen := congrArg List.length hrest
    rwa [indices_length, indices_length] at hlen
  subst hm
  have hmod := indices_injective m hrest
  rw [mod_eq_of_lt hq, mod_eq_of_lt hq'] at hmod
  exact ⟨by omega, rfl, hmod⟩

lemma spine_level {r t : Nat} (hr : r < niaddr) (ht : t < 2 ^ (g.nindirshift * (r + 1))) :
    spine g (ndaddr + t + levelBase g.nindirshift r) =
      (range (r + 1)).image fun m => node g r m (t / 2 ^ (g.nindirshift * (r + 1 - m))) := by
  have hnode : ∀ m, m < r + 1 → ((ndaddr + r) :: indices g t (r + 1) (g.nindirshift * (r + 1))).take (m + 1) =
      node g r m (t / 2 ^ (g.nindirshift * (r + 1 - m))) := by
    intro m hm
    have hshift : g.nindirshift * (r + 1) = g.nindirshift * (r + 1 - m) + g.nindirshift * m := by
      rw [← Nat.mul_add]
      congr 1
      omega
    rw [List.take_succ_cons, indices_take _ _ _ _ (by omega), hshift, indices_shift]
    rfl
  unfold spine
  rw [blockPath_level hr ht]
  ext p
  simp only [mem_image, mem_filter, mem_range, List.length_cons, indices_length]
  constructor
  · rintro ⟨k, ⟨hk, hpos⟩, rfl⟩
    refine ⟨k - 1, by omega, ?_⟩
    rw [← hnode (k - 1) (by omega), Nat.sub_add_cancel hpos]
  · rintro ⟨m, hm, rfl⟩
    exact ⟨m + 1, ⟨by omega, by omega⟩, hnode m hm⟩

lemma spine_direct {lbn : Nat} (h : lbn < ndaddr) : spine g lbn = ∅ := by
  unfold spine
  rw [blockPath_direct h]
  rfl

/-- The data blocks that the first `D` blocks of a file have at a level. -/
def levelFill (n D r : Nat) : Nat := min (D - ndaddr - levelBase n r) (2 ^ (n * (r + 1)))

def nodeKeys (g : Geometry) (D : Nat) : Finset ((_ : Nat) × (_ : Nat) × Nat) :=
  (range niaddr).sigma fun r => (range (r + 1)).sigma fun m =>
    range (howmany (levelFill g.nindirshift D r) (2 ^ (g.nindirshift * (r + 1 - m))))

lemma mem_nodeKeys {D r m q : Nat} : ⟨r, m, q⟩ ∈ nodeKeys g D ↔
    r < niaddr ∧ m < r + 1 ∧ q * 2 ^ (g.nindirshift * (r + 1 - m)) < levelFill g.nindirshift D r := by
  simp only [nodeKeys, mem_sigma, mem_range, lt_howmany (Nat.two_pow_pos _)]

lemma biUnion_spine {D : Nat} (hD : D ≤ ndaddr + levelBase g.nindirshift niaddr) :
    (range D).biUnion (spine g) = (nodeKeys g D).image fun k => node g k.1 k.2.1 k.2.2 := by
  ext p
  simp only [mem_biUnion, mem_image, mem_range]
  constructor
  · rintro ⟨lbn, hlbn, hp⟩
    rcases Nat.lt_or_ge lbn ndaddr with hdirect | hindirect
    · rw [spine_direct hdirect] at hp
      exact absurd hp (notMem_empty p)
    obtain ⟨r, u, hr, hu, hsplit⟩ := exists_level (n := g.nindirshift) (t := lbn - ndaddr) (by omega)
    have hlbn' : lbn = ndaddr + u + levelBase g.nindirshift r := by omega
    rw [hlbn', spine_level hr hu, mem_image] at hp
    obtain ⟨m, hm, rfl⟩ := hp
    refine ⟨⟨r, m, u / 2 ^ (g.nindirshift * (r + 1 - m))⟩, mem_nodeKeys.mpr ⟨hr, mem_range.mp hm, ?_⟩, rfl⟩
    apply Nat.lt_of_le_of_lt (Nat.div_mul_le_self u _)
    unfold levelFill
    omega
  · rintro ⟨⟨r, m, q⟩, hkey, rfl⟩
    obtain ⟨hr, hm, hq⟩ := mem_nodeKeys.mp hkey
    unfold levelFill at hq
    obtain ⟨hinside, hlevel⟩ := lt_min_iff.mp hq
    refine ⟨ndaddr + q * 2 ^ (g.nindirshift * (r + 1 - m)) + levelBase g.nindirshift r, by omega, ?_⟩
    rw [spine_level hr hlevel, mem_image]
    refine ⟨m, mem_range.mpr hm, ?_⟩
    rw [Nat.mul_div_cancel _ (Nat.two_pow_pos _)]

lemma card_spine {D : Nat} (hD : D ≤ ndaddr + levelBase g.nindirshift niaddr) :
    #((range D).biUnion (spine g)) = ∑ r ∈ range niaddr, ∑ m ∈ range (r + 1),
      howmany (levelFill g.nindirshift D r) (2 ^ (g.nindirshift * (r + 1 - m))) := by
  have hbound : ∀ {r m q}, ⟨r, m, q⟩ ∈ nodeKeys g D → q < 2 ^ (g.nindirshift * m) := by
    intro r m q hkey
    obtain ⟨-, hm, hq⟩ := mem_nodeKeys.mp hkey
    have hpow : 2 ^ (g.nindirshift * (r + 1)) =
        2 ^ (g.nindirshift * m) * 2 ^ (g.nindirshift * (r + 1 - m)) := by
      rw [← Nat.pow_add, ← Nat.mul_add]
      congr 2
      omega
    apply Nat.lt_of_mul_lt_mul_right (a := 2 ^ (g.nindirshift * (r + 1 - m)))
    rw [← hpow]
    exact Nat.lt_of_lt_of_le hq (Nat.min_le_right _ _)
  rw [biUnion_spine hD, Finset.card_image_of_injOn]
  · unfold nodeKeys
    simp only [card_sigma, card_range]
  · rintro ⟨r, m, q⟩ hk ⟨r', m', q'⟩ hk' heq
    obtain ⟨rfl, rfl, rfl⟩ := node_injective (hbound hk) (hbound hk') heq
    rfl

lemma levelBase_mono (n : Nat) : Monotone (levelBase n) := monotone_nat_of_le_succ fun _ => Nat.le_add_right _ _

lemma levelFill_full {n r r' t : Nat} (h : r' < r) :
    levelFill n (ndaddr + t + levelBase n r) r' = 2 ^ (n * (r' + 1)) := by
  have hbase := levelBase_mono n (succ_le_of_lt h)
  simp only [levelBase] at hbase
  unfold levelFill
  omega

lemma levelFill_last {n r t : Nat} (h : t < 2 ^ (n * (r + 1))) :
    levelFill n (ndaddr + t + levelBase n r) r = t := by
  unfold levelFill
  omega

lemma levelFill_none {n r r' t : Nat} (h : r < r') (ht : t < 2 ^ (n * (r + 1))) :
    levelFill n (ndaddr + t + levelBase n r) r' = 0 := by
  have hbase := levelBase_mono n (succ_le_of_lt h)
  simp only [levelBase] at hbase
  have hnone : ndaddr + t + levelBase n r - ndaddr - levelBase n r' = 0 := by omega
  unfold levelFill
  rw [hnone, zero_min]

lemma two_pow_level_one (g : Geometry) : 2 ^ (g.nindirshift * 1) = g.nindir := by
  rw [mul_one, Geometry.nindir]

lemma two_pow_level_two (g : Geometry) : 2 ^ (g.nindirshift * 2) = g.nindir * g.nindir := by
  rw [mul_two, pow_add, Geometry.nindir]

lemma two_pow_level_three (g : Geometry) : 2 ^ (g.nindirshift * 3) = g.nindir * g.nindir * g.nindir := by
  rw [mul_succ, pow_add, two_pow_level_two, Geometry.nindir]

lemma card_spine_levels {D : Nat} (hD : D ≤ ndaddr + levelBase g.nindirshift niaddr) :
    #((range D).biUnion (spine g)) =
      howmany (levelFill g.nindirshift D 0) g.nindir +
      (howmany (levelFill g.nindirshift D 1) (g.nindir * g.nindir) +
        howmany (levelFill g.nindirshift D 1) g.nindir) +
      (howmany (levelFill g.nindirshift D 2) (g.nindir * g.nindir * g.nindir) +
        howmany (levelFill g.nindirshift D 2) (g.nindir * g.nindir) +
        howmany (levelFill g.nindirshift D 2) g.nindir) := by
  rw [card_spine hD]
  unfold niaddr
  simp only [sum_range_succ, sum_range_zero, zero_add, reduceAdd, reduceSub,
    two_pow_level_one, two_pow_level_two, two_pow_level_three]

/-- The blocks of a file without holes: data and indirect blocks. -/
def fullBlocks (g : Geometry) (D : Nat) : Nat := D + #((range D).biUnion (spine g))

/-- At the first block of a level `bmap_has_holes` counts the indirect block of a level that is still empty. -/
theorem holeCount_eq {stack r t : Nat} (hr : r < niaddr) (ht : t < 2 ^ (g.nindirshift * (r + 1)))
    (hpos : 0 < t + levelBase g.nindirshift r)
    (hsmall : fullBlocks g (ndaddr + t + levelBase g.nindirshift r) + 1 < 2 ^ 32) :
    holeCount g stack (niaddr - r) t =
      fullBlocks g (ndaddr + t + levelBase g.nindirshift r) + if t = 0 then 1 else 0 := by
  have hN : g.nindir - 1 + 1 = g.nindir := Nat.sub_add_cancel nindir_pos
  have hNpos := nindir_pos (g := g)
  have hD : ndaddr + t + levelBase g.nindirshift r ≤ ndaddr + levelBase g.nindirshift niaddr := by
    have hbase := levelBase_mono g.nindirshift (Nat.succ_le_of_lt hr)
    simp only [levelBase] at hbase
    omega
  have hfold : ∀ x, (x + (g.nindir - 1)) / g.nindir = howmany x g.nindir := fun _ => rfl
  have hfirst : ∀ y, t ≤ y → 0 < y → howmany t y = if t = 0 then 0 else 1 := by
    intro y hy hypos
    split
    · next hzero =>
      rw [hzero]
      exact howmany_zero hypos
    · next hne => exact howmany_one (by omega) hy
  unfold fullBlocks at hsmall ⊢
  rw [card_spine_levels hD] at hsmall ⊢
  have hcases : r = 0 ∨ r = 1 ∨ r = 2 := by
    unfold niaddr at hr
    omega
  rcases hcases with rfl | rfl | rfl
  · rw [levelFill_last ht, levelFill_none (by omega) ht, levelFill_none (by omega) ht,
      howmany_zero hNpos, howmany_zero (by positivity), howmany_zero (by positivity)] at hsmall ⊢
    rw [Nat.zero_add, two_pow_level_one] at ht
    have hne : t ≠ 0 := by
      simp only [levelBase] at hpos
      omega
    rw [howmany_one (by omega) (by omega)] at hsmall ⊢
    simp only [levelBase] at hsmall ⊢
    unfold holeCount
    rw [Nat.sub_zero, if_pos rfl, if_neg hne, Nat.mod_eq_of_lt (by omega)]
    omega
  · rw [levelFill_full (by omega), levelFill_last ht, levelFill_none (by omega) ht,
      howmany_zero hNpos, howmany_zero (by positivity), howmany_zero (by positivity)] at hsmall ⊢
    simp only [levelBase, Nat.zero_add, Nat.reduceAdd, two_pow_level_one, two_pow_level_two] at hsmall ht ⊢
    rw [hfirst (g.nindir * g.nindir) (by omega) (by positivity), howmany_one hNpos le_rfl] at hsmall ⊢
    unfold holeCount
    rw [if_neg (by decide), if_pos rfl]
    simp only [hN, hfold]
    split at hsmall
    · next hzero =>
      rw [if_pos hzero, if_pos hzero, Nat.mod_eq_of_lt (by omega)]
      omega
    · next hzero =>
      rw [if_neg hzero, if_neg hzero, Nat.mod_eq_of_lt (by omega)]
      omega
  · rw [levelFill_full (by omega), levelFill_full (by omega), levelFill_last ht] at hsmall ⊢
    simp only [levelBase, Nat.zero_add, Nat.reduceAdd, two_pow_level_one, two_pow_level_two, two_pow_level_three]
      at hsmall ht ⊢
    rw [hfirst (g.nindir * g.nindir * g.nindir) (by omega) (by positivity), howmany_one hNpos le_rfl,
      howmany_one (by positivity) le_rfl, howmany_mul hNpos, ← howmany_howmany hNpos hNpos] at hsmall ⊢
    unfold holeCount
    rw [if_neg (by decide), if_neg (by decide), if_pos rfl]
    simp only [hN, hfold]
    split at hsmall
    · next hzero =>
      rw [if_pos hzero, if_pos hzero, Nat.mod_eq_of_lt (by omega)]
      omega
    · next hzero =>
      rw [if_neg hzero, if_neg hzero, Nat.mod_eq_of_lt (by omega)]
      omega

lemma btodb_mul {size : Nat} (h : g.fsize ∣ size) : btodb size * 512 = size := by
  unfold btodb devBshift
  rw [Nat.shiftRight_eq_div_pow]
  apply Nat.div_mul_cancel
  rw [fsize_eq] at h
  exact Dvd.dvd.trans (Nat.dvd_mul_left 512 _) h

lemma blksize_le (ip : Inode) (l : Int) : ip.blksize g l ≤ g.bsize := by
  unfold Inode.blksize
  split
  · exact le_refl _
  · exact fragroundup_le (le_of_lt (blkoff_lt _))

lemma blksize_short {ip : Inode} {lbn : Nat} (h : lbn < ip.dblks g) :
    g.bsize - ip.blksize g lbn ≤ if lbn = ip.dblks g - 1 then g.bsize - 1 else 0 := by
  have hcover : lbn * g.bsize < ip.iSize := (lt_howmany bsize_pos).mp h
  unfold Inode.blksize
  split
  · omega
  · next hshort =>
    obtain ⟨-, hsize⟩ := not_or.mp hshort
    have hsize' : ip.iSize < (lbn + 1) * g.bsize := by
      rw [Nat.not_le, Nat.shiftLeft_eq] at hsize
      exact hsize
    have hlast : lbn = ip.dblks g - 1 := by
      have hdiv : ip.dblks g ≤ lbn + 1 := by
        by_contra hgt
        have := (lt_howmany bsize_pos).mp (Nat.lt_of_not_le hgt)
        omega
      omega
    rw [if_pos hlast]
    have hoff : 0 < g.blkoff ip.iSize := by
      rw [blkoff_eq]
      apply Nat.pos_of_ne_zero
      intro hzero
      obtain ⟨k, hk⟩ := Nat.dvd_of_mod_eq_zero hzero
      rw [hk, Nat.mul_comm lbn] at hcover
      rw [hk, Nat.mul_comm (lbn + 1)] at hsize'
      have h1 := Nat.lt_of_mul_lt_mul_left hcover
      have h2 := Nat.lt_of_mul_lt_mul_left hsize'
      omega
    have := le_fragroundup (g := g) (g.blkoff ip.iSize)
    omega

lemma sum_blksize (ip : Inode) {A : Finset Nat} (hA : ∀ lbn ∈ A, lbn < ip.dblks g) :
    ∑ lbn ∈ A, ip.blksize g lbn ≤ #A * g.bsize ∧ #A * g.bsize < ∑ lbn ∈ A, ip.blksize g lbn + g.bsize := by
  have hsplit : ∑ lbn ∈ A, ip.blksize g lbn + ∑ lbn ∈ A, (g.bsize - ip.blksize g lbn) = #A * g.bsize := by
    rw [← sum_add_distrib, card_eq_sum_ones, Finset.sum_mul]
    apply sum_congr rfl
    intro lbn _
    have := blksize_le (g := g) ip lbn
    omega
  have hshort : ∑ lbn ∈ A, (g.bsize - ip.blksize g lbn) ≤ g.bsize - 1 := by
    calc ∑ lbn ∈ A, (g.bsize - ip.blksize g lbn)
        ≤ ∑ lbn ∈ A, (if lbn = ip.dblks g - 1 then g.bsize - 1 else 0) :=
          sum_le_sum fun lbn hlbn => blksize_short (hA lbn hlbn)
      _ ≤ g.bsize - 1 := by
          rw [sum_ite_eq']
          split <;> omega
  have := bsize_pos (g := g)
  omega

section Count

variable (hcount : Counted g s) (hsize : s.ip.iSize ≤ ufsMaxoffset)

include hsize in
lemma dblks_le : s.ip.dblks g ≤ 2 ^ 28 := by
  have hmin : 12 ≤ g.bshift := g.bshift_min
  have hb : 2 ^ 12 ≤ g.bsize := Nat.pow_le_pow_right (by omega) hmin
  unfold ufsMaxoffset at hsize
  by_contra hgt
  have hcover := (lt_howmany (bsize_pos)).mp (Nat.lt_of_not_le hgt)
  have hmul := Nat.mul_le_mul_left (2 ^ 28) hb
  omega

include hsize in
lemma dblks_addressable : s.ip.dblks g < ndaddr + levelBase g.nindirshift niaddr := by
  have hle := dblks_le (g := g) hsize
  have hmin : 12 ≤ g.bshift := g.bshift_min
  have hpow : 2 ^ 30 ≤ 2 ^ (g.nindirshift * (2 + 1)) := by
    apply Nat.pow_le_pow_right (by omega)
    unfold Geometry.nindirshift
    omega
  have hbase : 2 ^ (g.nindirshift * (2 + 1)) ≤ levelBase g.nindirshift niaddr := Nat.le_add_left _ _
  omega

include hsize in
lemma fullBlocks_small : fullBlocks g (s.ip.dblks g) + 1 < 2 ^ 32 := by
  have hle := dblks_le (g := g) hsize
  have hfill : ∀ r, levelFill g.nindirshift (s.ip.dblks g) r ≤ s.ip.dblks g := by
    intro r
    unfold levelFill
    omega
  have hterm : ∀ r y, 0 < y → howmany (levelFill g.nindirshift (s.ip.dblks g) r) y ≤ s.ip.dblks g :=
    fun r y hy => le_trans (howmany_le hy) (hfill r)
  have hN := nindir_pos (g := g)
  have hNN : 0 < g.nindir * g.nindir := by positivity
  have hNNN : 0 < g.nindir * g.nindir * g.nindir := by positivity
  unfold fullBlocks
  rw [card_spine_levels (le_of_lt (dblks_addressable hsize))]
  have h0 := hterm 0 _ hN
  have h1 := hterm 1 _ hN
  have h2 := hterm 1 _ hNN
  have h3 := hterm 2 _ hN
  have h4 := hterm 2 _ hNN
  have h5 := hterm 2 _ hNNN
  omega

lemma data_subset : s.data g ⊆ range (s.ip.dblks g) := filter_subset _ _

lemma held_le_full : #(s.data g) + #((s.data g).biUnion (spine g)) ≤ fullBlocks g (s.ip.dblks g) := by
  have hdata := card_le_card (data_subset (g := g) (s := s))
  have hspine := card_le_card (biUnion_subset_biUnion_of_subset_left (spine g) (data_subset (g := g) (s := s)))
  rw [card_range] at hdata
  unfold fullBlocks
  omega

include hcount in
theorem ldbtob_iBlocks (hsmall : #(s.data g) + #((s.data g).biUnion (spine g)) < 2 ^ 32) :
    ldbtob s.ip.iBlocks = ∑ lbn ∈ s.data g, s.ip.blksize g lbn + #((s.data g).biUnion (spine g)) * g.bsize := by
  have hbytes : (∑ lbn ∈ s.data g, btodb (s.ip.blksize g lbn) +
      #((s.data g).biUnion (spine g)) * btodb g.bsize) * 512 =
      ∑ lbn ∈ s.data g, s.ip.blksize g lbn + #((s.data g).biUnion (spine g)) * g.bsize := by
    rw [Nat.add_mul, Finset.sum_mul, Nat.mul_assoc, btodb_mul fsize_dvd_bsize]
    congr 1
    exact sum_congr rfl fun lbn _ => btodb_mul (fsize_dvd_blksize _)
  have hsum := (sum_blksize s.ip (A := s.data g) fun lbn h => mem_range.mp (data_subset h)).1
  have hmax : g.bsize ≤ 2 ^ 13 := Nat.pow_le_pow_right (by omega) g.bshift_max
  have hall : (#(s.data g) + #((s.data g).biUnion (spine g))) * g.bsize ≤ 2 ^ 32 * 2 ^ 13 :=
    Nat.mul_le_mul (Nat.le_of_lt hsmall) hmax
  rw [Nat.add_mul] at hall
  unfold ldbtob devBshift
  rw [hcount.blocks]
  generalize ∑ lbn ∈ s.data g, btodb (s.ip.blksize g lbn) +
    #((s.data g).biUnion (spine g)) * btodb g.bsize = sectors at hbytes
  have hmod : (((sectors : Nat) : Int) % 2 ^ 64).toNat = sectors := by omega
  rw [hmod, Nat.shiftLeft_eq, Nat.mod_eq_of_lt (by omega)]
  exact hbytes

include hcount in
theorem mblks_eq (hsmall : #(s.data g) + #((s.data g).biUnion (spine g)) < 2 ^ 32) :
    ((ldbtob s.ip.iBlocks + (1 <<< g.bshift - 1)) >>> g.bshift) % 2 ^ 32 =
      #(s.data g) + #((s.data g).biUnion (spine g)) := by
  obtain ⟨hle, hlt⟩ := sum_blksize s.ip (A := s.data g) fun lbn h => mem_range.mp (data_subset h)
  have hbs : 1 <<< g.bshift = g.bsize := Nat.one_shiftLeft _
  rw [ldbtob_iBlocks hcount hsmall, hbs, Nat.shiftRight_eq_div_pow]
  change (_ / g.bsize) % 2 ^ 32 = _
  rw [Nat.div_eq_of_lt_le (k := #(s.data g) + #((s.data g).biUnion (spine g))), Nat.mod_eq_of_lt hsmall]
  · rw [Nat.add_mul]
    omega
  · rw [Nat.add_mul, Nat.add_mul]
    omega

def LevelFull (g : Geometry) (D : Nat) : Prop := D = ndaddr + g.nindir ∨ D = ndaddr + g.nindir + g.nindir * g.nindir

instance (g : Geometry) (D : Nat) : Decidable (LevelFull g D) := inferInstanceAs (Decidable (_ ∨ _))

lemma levelFull_iff {r t : Nat} (hr : r < niaddr) (ht : t < 2 ^ (g.nindirshift * (r + 1)))
    (hpos : 0 < t + levelBase g.nindirshift r) :
    LevelFull g (ndaddr + t + levelBase g.nindirshift r) ↔ t = 0 := by
  have hN := nindir_pos (g := g)
  have hcases : r = 0 ∨ r = 1 ∨ r = 2 := by
    unfold niaddr at hr
    omega
  unfold LevelFull
  rcases hcases with rfl | rfl | rfl <;>
    simp only [levelBase, zero_add, reduceAdd, two_pow_level_one, two_pow_level_two, two_pow_level_three]
      at ht hpos ⊢
  · omega
  · omega
  · have hNN : 0 < g.nindir * g.nindir := by positivity
    omega

include hcount hsize in
/-- The test of `bmap_has_holes`: the blocks held against the blocks of a full file, and one more when a level is
full. -/
theorem bmapHasHoles_eq (stack : Nat) :
    bmapHasHoles g stack s.ip = decide (#(s.data g) + #((s.data g).biUnion (spine g)) <
      fullBlocks g (s.ip.dblks g) + if LevelFull g (s.ip.dblks g) then 1 else 0) := by
  have hsmall := fullBlocks_small (g := g) hsize
  have hheld := held_le_full (g := g) (s := s)
  have hle := dblks_le (g := g) hsize
  have hD : ((s.ip.iSize + (1 <<< g.bshift - 1)) >>> g.bshift) % 2 ^ 32 = s.ip.dblks g := by
    rw [Nat.one_shiftLeft, Nat.shiftRight_eq_div_pow]
    change s.ip.dblks g % 2 ^ 32 = _
    exact Nat.mod_eq_of_lt (by omega)
  unfold bmapHasHoles
  dsimp only
  rw [mblks_eq hcount (by omega), hD]
  by_cases hdirect : s.ip.dblks g ≤ ndaddr
  · have hnone : ∀ r, levelFill g.nindirshift (s.ip.dblks g) r = 0 := by
      intro r
      unfold levelFill
      rw [Nat.sub_eq_zero_of_le hdirect, Nat.zero_sub, Nat.zero_min]
    have hfull : fullBlocks g (s.ip.dblks g) = s.ip.dblks g := by
      have hN := nindir_pos (g := g)
      unfold fullBlocks
      rw [card_spine_levels (Nat.le_of_lt (dblks_addressable hsize)), hnone, hnone, hnone, howmany_zero hN,
        howmany_zero (by positivity), howmany_zero (by positivity)]
      rfl
    have hlevel : ¬LevelFull g (s.ip.dblks g) := by
      have hN := nindir_pos (g := g)
      unfold LevelFull
      omega
    rw [if_pos hdirect, hfull, if_neg hlevel, Nat.add_zero]
  · obtain ⟨r, t, hr, ht, hsplit⟩ := exists_level (n := g.nindirshift) (t := s.ip.dblks g - ndaddr) (by
      have hin := dblks_addressable (g := g) hsize
      omega)
    have hpos : 0 < t + levelBase g.nindirshift r := by omega
    have heq : s.ip.dblks g = ndaddr + t + levelBase g.nindirshift r := by omega
    rw [if_neg hdirect, hsplit, levelLoop_level hr ht]
    dsimp only
    rw [heq] at hsmall ⊢
    rw [holeCount_eq hr ht hpos hsmall]
    by_cases hzero : t = 0
    · rw [if_pos hzero, if_pos ((levelFull_iff hr ht hpos).mpr hzero)]
    · rw [if_neg hzero, if_neg fun h => hzero ((levelFull_iff hr ht hpos).mp h)]

lemma held_of_no_hole (h : ¬HasHole g s) :
    #(s.data g) + #((s.data g).biUnion (spine g)) = fullBlocks g (s.ip.dblks g) := by
  have hall : s.data g = range (s.ip.dblks g) := by
    apply filter_true_of_mem
    intro lbn hlbn hzero
    exact h ⟨lbn, mem_range.mp hlbn, hzero⟩
  unfold fullBlocks
  rw [hall, card_range]

lemma held_of_hole (h : HasHole g s) :
    #(s.data g) + #((s.data g).biUnion (spine g)) < fullBlocks g (s.ip.dblks g) := by
  obtain ⟨lbn, hlbn, hzero⟩ := h
  have hstrict : s.data g ⊂ range (s.ip.dblks g) := by
    refine ⟨data_subset, fun hsub => ?_⟩
    exact (mem_filter.mp (hsub (mem_range.mpr hlbn))).2 hzero
  have hdata := card_lt_card hstrict
  have hspine := card_le_card (biUnion_subset_biUnion_of_subset_left (spine g) (data_subset (g := g) (s := s)))
  rw [card_range] at hdata
  unfold fullBlocks
  omega

end Count

/-- `bmap_has_holes` is exact but for files without holes that end where a level of indirection ends. -/
theorem bmapHasHoles_exact_iff (hcount : Counted g s) (hsize : s.ip.iSize ≤ ufsMaxoffset) (stack : Nat) :
    (bmapHasHoles g stack s.ip = true ↔ HasHole g s) ↔ HasHole g s ∨ ¬LevelFull g (s.ip.dblks g) := by
  rw [bmapHasHoles_eq hcount hsize stack, decide_eq_true_eq]
  by_cases hhole : HasHole g s
  · have hlt := held_of_hole hhole
    have htest : #(s.data g) + #((s.data g).biUnion (spine g)) <
        fullBlocks g (s.ip.dblks g) + if LevelFull g (s.ip.dblks g) then 1 else 0 := by omega
    simp [hhole, htest]
  · have heq := held_of_no_hole hhole
    rw [heq]
    by_cases hlevel : LevelFull g (s.ip.dblks g)
    · simp [hhole, hlevel]
    · simp [hhole, hlevel]

def blocks4k : Geometry where
  fshift := 10
  fragshift := 2
  fshift_min := Nat.le_succ _
  fragshift_max := by decide
  bshift_min := by decide
  bshift_max := by decide

/-- A file of `D` blocks without holes, up to the end of the first indirect block, which is at fragment 8000. -/
def solidFile (D : Nat) (iBlocks : Int) : FileState where
  ip :=
    { iSize := D * 4096
      iDb := fun i => if i < D then 4 * (i + 1) else 0
      iIb := fun r => if r = 0 ∧ ndaddr < D then 8000 else 0
      iBlocks := iBlocks }
  blocks := fun _ i => if ndaddr + i < D then 4 * (i + 3000) else 0

variable {D : Nat} {iBlocks : Int}

lemma solidFile_dblks : (solidFile D iBlocks).ip.dblks blocks4k = D := howmany_mul (y := 4096) (by omega)

lemma solidFile_blksize {lbn : Nat} (h : lbn < D) : (solidFile D iBlocks).ip.blksize blocks4k lbn = 4096 := by
  have hcover : ((lbn : Int) + 1).toNat <<< blocks4k.bshift ≤ (solidFile D iBlocks).ip.iSize := by
    change ((lbn : Int) + 1).toNat <<< 12 ≤ D * 4096
    omega
  unfold Inode.blksize
  rw [if_pos (.inr hcover)]
  rfl

lemma solidFile_mapped (hD : D ≤ ndaddr + 1024) (lbn : Nat) :
    (solidFile D iBlocks).mapped blocks4k lbn ≠ 0 ↔ lbn < D := by
  rcases lt_or_ge lbn ndaddr with hdirect | hindirect
  · rw [mapped_direct hdirect]
    unfold solidFile
    simp
  by_cases hin : lbn < ndaddr + 1024
  · have ht : lbn - ndaddr < 2 ^ (blocks4k.nindirshift * (0 + 1)) := by
      change lbn - ndaddr < 1024
      omega
    have hpath := blockPath_level (by decide) ht
    rw [show ndaddr + (lbn - ndaddr) + levelBase blocks4k.nindirshift 0 = lbn by simp [levelBase]; omega] at hpath
    have hindex : slotIndex blocks4k (lbn - ndaddr) 0 = lbn - ndaddr := by
      rw [slotIndex_eq]
      change (lbn - ndaddr) / 2 ^ 0 % 1024 = _
      omega
    unfold FileState.mapped
    rw [hpath]
    by_cases hlt : lbn < D
    · have hroot : ndaddr < D := by omega
      have hnot : ¬D ≤ lbn := by omega
      simp [indices, hindex, Lib.follow, FileState.mem, solidFile, ptr, addr, hroot, hlt, hnot, hindirect]
    · by_cases hroot : ndaddr < D
      · simp [indices, hindex, Lib.follow, FileState.mem, solidFile, ptr, addr, hroot, hlt, hindirect]
      · simp [indices, hindex, Lib.follow, FileState.mem, solidFile, ptr, addr, hroot, hlt]
  · have hnone : (solidFile D iBlocks).mapped blocks4k lbn = 0 := by
      unfold FileState.mapped
      cases hpath : blockPath blocks4k lbn with
      | none => rfl
      | some p =>
        obtain ⟨r, t, -, ht, hlbn, -, rfl⟩ := blockPath_indirect hindirect hpath
        have hr : r ≠ 0 := by
          rintro rfl
          have ht' : t < 1024 := ht
          simp only [levelBase] at hlbn
          omega
        simp [Lib.follow, FileState.mem, solidFile, ptr, addr, hr]
    omega

lemma solidFile_counted (hD : D ≤ ndaddr + 1024) (hblocks : iBlocks = fullBlocks blocks4k D * 8) :
    Counted blocks4k (solidFile D iBlocks) := by
  have hdata : (solidFile D iBlocks).data blocks4k = range D := by
    unfold FileState.data
    rw [solidFile_dblks]
    exact filter_true_of_mem fun lbn h => (solidFile_mapped hD lbn).mpr (mem_range.mp h)
  constructor
  · intro lbn hmapped
    rw [solidFile_dblks]
    exact (solidFile_mapped hD lbn).mp hmapped
  · have hsum : ∑ lbn ∈ range D, btodb ((solidFile D iBlocks).ip.blksize blocks4k lbn) = D * 8 := by
      rw [sum_congr rfl fun lbn h => by rw [solidFile_blksize (mem_range.mp h)], sum_const, card_range]
      rfl
    rw [hdata, hsum, show btodb blocks4k.bsize = 8 from rfl, ← add_mul]
    exact hblocks

lemma solidFile_no_hole (hD : D ≤ ndaddr + 1024) : ¬HasHole blocks4k (solidFile D iBlocks) := by
  rintro ⟨lbn, hlbn, hzero⟩
  rw [solidFile_dblks] at hlbn
  exact (solidFile_mapped hD lbn).mpr hlbn hzero

lemma fullBlocks_indirect : fullBlocks blocks4k 20 = 21 := by
  unfold fullBlocks
  decide +kernel

lemma fullBlocks_level : fullBlocks blocks4k 1036 = 1037 := by
  unfold fullBlocks
  rw [card_spine_levels (by decide)]
  decide

theorem bmapHasHoles_exact_indirect : bmapHasHoles blocks4k 0 (solidFile 20 168).ip = true ↔
    HasHole blocks4k (solidFile 20 168) := by
  refine (bmapHasHoles_exact_iff (solidFile_counted (by decide) ?_) (by decide) 0).mpr (.inr ?_)
  · rw [fullBlocks_indirect]
    rfl
  · rw [solidFile_dblks]
    decide

/-- A file of 12 direct blocks and one full indirect block, with every block in place. -/
theorem bmapHasHoles_not_exact : ¬∀ (g : Geometry) (s : FileState) (stack : Nat), Counted g s →
    s.ip.iSize ≤ ufsMaxoffset → (bmapHasHoles g stack s.ip = true ↔ HasHole g s) := by
  intro hall
  have hcounted : Counted blocks4k (solidFile 1036 8296) := by
    apply solidFile_counted (by decide)
    rw [fullBlocks_level]
    rfl
  have hholes : bmapHasHoles blocks4k 0 (solidFile 1036 8296).ip = true := by decide
  exact solidFile_no_hole (by decide) ((hall blocks4k (solidFile 1036 8296) 0 hcounted (by decide)).mp hholes)

end Solaris.Ufs
