import Solaris.Ufs.Alloc
import Solaris.Ufs.Free
import Solaris.Ufs.MapSearch

/-!
# Space is found

A group answers a request when one of its blocks has room for it, and otherwise leaves the disk as it was. `hashalloc`
asks every group, so that `alloc` fails with `ENOSPC` only when no group has room.
-/

namespace Solaris.Ufs

open Finset Nat Nat

variable {L : Layout} {d : Disk} {m : ByteMap} {c n : Nat}

/-- A block of the group has `n` free fragments in a row. -/
def HasRun (L : Layout) (m : ByteMap) (n : Nat) : Prop :=
  ∃ b pos, b < L.blocks ∧ pos + n ≤ L.g.frag ∧ ∀ j, j < n → isset m (b * L.g.frag + (pos + j)) = true

def HasBlock (L : Layout) (m : ByteMap) : Prop := ∃ b, b < L.blocks ∧ L.bits m b = 2 ^ L.g.frag - 1

/-- A file system that can be searched: its groups can be read, their rotors lie in the group, the first fragment is
not free and no block is under `TRANS_ISCANCEL`. -/
structure Searchable (L : Layout) (d : Disk) : Prop where
  consistent : Consistent L d
  readable : ∀ c, c < L.ncg → (d.cg c).bad = false
  rotor : ∀ c, c < L.ncg → (d.cg c).frotor < L.fpg
  boot : isset (d.cg 0).blksfree 0 = false
  quiet : ∀ b, d.iscancel b = false

/-- The blocks that the loop of `alloccgblk` reaches over the rotational table. -/
inductive RotReach (L : Layout) : Nat → Nat → Prop
  | here (i : Nat) : RotReach L i i
  | next {i j : Nat} : 0 < L.rotbl i → L.rotbl i + i ≤ L.blocks → RotReach L (i + (L.rotbl i).toNat) j → RotReach L i j

/-- The rotational tables list every block of their position. -/
def RotTables (L : Layout) : Prop :=
  ∀ b, b < L.blocks →
    let cylno := L.cbtocylno (b * L.g.frag)
    let first := L.postbl (cylno % L.cpc) (L.cbtorpos (b * L.g.frag))
    first ≠ -1 ∧ ∃ i, (cylno - cylno % L.cpc) * L.spc / L.nspb + i = b ∧ RotReach L first.toNat i

lemma bits_lt (L : Layout) (m : ByteMap) (b : Nat) : L.bits m b < 2 ^ L.g.frag := blkbits_lt L.g.fragSize _ _

lemma testBit_bits {b j : Nat} (hj : j < L.g.frag) : (L.bits m b).testBit j = isset m (b * L.g.frag + j) :=
  testBit_blkmap L.g.fragSize (Dvd.intro_left _ rfl) hj

lemma bits_full_iff {b : Nat} :
    L.bits m b = 2 ^ L.g.frag - 1 ↔ ∀ j, j < L.g.frag → isset m (b * L.g.frag + j) = true := by
  constructor
  · intro hfull j hj
    rw [← testBit_bits hj, hfull, testBit_two_pow_sub_one, decide_eq_true hj]
  · exact blkmap_full L.g.fragSize (Dvd.intro_left _ rfl)

lemma isblock_iff_bits {b : Nat} : isblock L.g.frag m b = true ↔ L.bits m b = 2 ^ L.g.frag - 1 := by
  rw [isblock_iff L.g.fragSize, bits_full_iff]

lemma hasRun_frag_iff : HasRun L m L.g.frag ↔ HasBlock L m := by
  constructor
  · rintro ⟨b, pos, hb, hpos, hfree⟩
    have hzero : pos = 0 := by omega
    refine ⟨b, hb, bits_full_iff.mpr fun j hj => ?_⟩
    have := hfree j hj
    rwa [hzero, zero_add] at this
  · rintro ⟨b, hb, hfull⟩
    refine ⟨b, 0, hb, by omega, fun j hj => ?_⟩
    rw [zero_add]
    exact bits_full_iff.mp hfull j hj

lemma isRun_full : IsRun L.g.frag (2 ^ L.g.frag - 1) L.g.frag 0 := by
  refine ⟨by omega, fun j hj => ?_, .inl rfl, ?_⟩
  · rw [testBit_two_pow_sub_one, decide_eq_true (by omega)]
  · rw [testBit_two_pow_sub_one, decide_eq_false (by omega)]

lemma run_or_full : ∀ frag ∈ [1, 2, 4, 8], ∀ map, map < 2 ^ frag → map ≠ 2 ^ frag - 1 → ∀ n, n < frag →
    ∀ pos, pos < frag - n → (List.range (n + 1)).all (fun j => map.testBit (pos + j)) →
    (List.range frag).any (fun siz => n + 1 ≤ siz ∧ runs frag map siz ≠ 0) := by
  decide +kernel

lemma HasRun.counted (hn : 1 ≤ n) (h : HasRun L m n) :
    HasBlock L m ∨ ∃ b siz, b < L.blocks ∧ siz < L.g.frag ∧ n ≤ siz ∧ runs L.g.frag (L.bits m b) siz ≠ 0 := by
  obtain ⟨b, pos, hb, hpos, hfree⟩ := h
  by_cases hfull : L.bits m b = 2 ^ L.g.frag - 1
  · exact .inl ⟨b, hb, hfull⟩
  right
  obtain ⟨k, rfl⟩ : ∃ k, n = k + 1 := ⟨n - 1, by omega⟩
  have hall : (List.range (k + 1)).all (fun j => (L.bits m b).testBit (pos + j)) = true := by
    rw [List.all_eq_true]
    intro j hj
    rw [List.mem_range] at hj
    rw [testBit_bits (by omega)]
    exact hfree j hj
  have hany := run_or_full L.g.frag L.g.fragSize _ (bits_lt L m b) hfull k (by omega) pos (by omega) hall
  obtain ⟨siz, hsiz, hrun⟩ := List.any_eq_true.mp hany
  rw [List.mem_range] at hsiz
  obtain ⟨hle, hne⟩ := of_decide_eq_true hrun
  exact ⟨b, siz, hb, hsiz, hle, hne⟩

lemma exists_isRun {frag map siz : Nat} (h : runs frag map siz ≠ 0) : ∃ pos, IsRun frag map siz pos := by
  unfold runs at h
  obtain ⟨pos, -, hrun⟩ := List.countP_pos_iff.mp (pos_of_ne_zero h)
  exact ⟨pos, of_decide_eq_true hrun⟩

section Tally

variable {w : Nat → Nat → Int}

lemma tally_ne_zero (h : L.tally m w ≠ 0) : ∃ b, b < L.blocks ∧ w b (L.bits m b) ≠ 0 := by
  obtain ⟨b, hb, hw⟩ := exists_ne_zero_of_sum_ne_zero h
  exact ⟨b, mem_range.mp hb, hw⟩

lemma tally_pos (hw : ∀ b bits, 0 ≤ w b bits) {b : Nat} (hb : b < L.blocks) (hpos : 0 < w b (L.bits m b)) :
    0 < L.tally m w :=
  sum_pos' (fun b _ => hw b _) ⟨b, mem_range.mpr hb, hpos⟩

lemma tally_nonneg (hw : ∀ b bits, 0 ≤ w b bits) : 0 ≤ L.tally m w := sum_nonneg fun b _ => hw b _

end Tally

lemma whole_nonneg (frag bits : Nat) : 0 ≤ whole frag bits := by
  unfold whole
  split <;> decide

lemma whole_ne_zero {frag bits : Nat} : whole frag bits ≠ 0 ↔ bits = 2 ^ frag - 1 := by
  unfold whole
  split
  · next h => simp [h]
  · next h => simp [h]

lemma Accounted.nbfree_ne_zero {cgp : Cg} (h : Accounted L cgp) : cgp.cs.nbfree ≠ 0 ↔ HasBlock L cgp.blksfree := by
  rw [h.nbfree]
  constructor
  · intro hne
    obtain ⟨b, hb, hw⟩ := tally_ne_zero hne
    exact ⟨b, hb, whole_ne_zero.mp hw⟩
  · rintro ⟨b, hb, hfull⟩
    apply ne_of_gt
    apply tally_pos (fun _ _ => whole_nonneg _ _) hb
    exact lt_of_le_of_ne (whole_nonneg _ _) (Ne.symm (whole_ne_zero.mpr hfull))

lemma Accounted.frsum_ne_zero {cgp : Cg} (h : Accounted L cgp) {siz : Nat} (hone : 1 ≤ siz) (hlt : siz < L.g.frag) :
    cgp.frsum siz ≠ 0 ↔ ∃ b, b < L.blocks ∧ runs L.g.frag (L.bits cgp.blksfree b) siz ≠ 0 := by
  rw [h.frsum siz hone hlt]
  constructor
  · intro hne
    obtain ⟨b, hb, hw⟩ := tally_ne_zero hne
    exact ⟨b, hb, by exact_mod_cast hw⟩
  · rintro ⟨b, hb, hne⟩
    apply ne_of_gt
    apply tally_pos (fun _ _ => Int.natCast_nonneg _) hb
    exact_mod_cast pos_of_ne_zero hne

lemma takeBlock_fst (c bno : Nat) (d : Disk) : (takeBlock L c bno d).1 = c * L.fpg + bno := rfl

lemma address_ne_zero (hboot : isset (d.cg 0).blksfree 0 = false) {bno : Nat}
    (hset : isset (d.cg c).blksfree bno = true) : c * L.fpg + bno ≠ 0 := by
  intro hzero
  have hfpg := L.fpg_pos
  have hbno : bno = 0 := by omega
  have hc : c = 0 := by
    rcases Nat.mul_eq_zero.mp (show c * L.fpg = 0 by omega) with h | h
    · exact h
    · omega
  rw [hc, hbno, hboot] at hset
  exact Bool.false_ne_true hset

/-- A request is answered, or nothing is there and nothing has changed. -/
def Answers (d : Disk) (r : Nat × Disk) (room : Prop) : Prop := r.1 ≠ 0 ∨ r = (0, d) ∧ ¬room

section Group

variable (hs : Searchable L d) (hc : c < L.ncg)

include hs hc in
lemma norot_answers (bpref : Nat) : Answers d (norot L c bpref d) (HasBlock L (d.cg c).blksfree) := by
  have hf := L.g.fragSize
  unfold norot
  have hspec := mapsearch_spec (L := L) (c := c) hs.quiet hf.pos (le_refl _) (hs.rotor c hc) bpref
  rcases hspec with ⟨bno, frotor, heq, hrun⟩ | ⟨hnone, heq⟩
  · left
    rw [heq]
    exact address_ne_zero hs.boot (hrun.isset hf hf.pos)
  right
  rw [heq]
  refine ⟨?_, ?_⟩
  · dsimp only
    rw [setCg_self rfl]
  · rintro ⟨b, hb, hfull⟩
    have hnamed := named_of_isRun (m := (d.cg c).blksfree) (b := b) hf.pos (le_refl _) (hfull ▸ isRun_full)
    refine hnone _ ?_ hnamed
    rw [lt_howmany (by decide)]
    have hmul : b * L.g.frag < L.fpg := by
      rw [← blocks_mul L]
      exact mul_lt_mul_of_pos_right hb hf.pos
    exact lt_of_le_of_lt (div_mul_le_self _ _) hmul

lemma rotChain_some {bno i j fuel : Nat} (hreach : RotReach L i j) (hj : isblock L.g.frag m (bno + j) = true)
    (hfuel : L.blocks < i + fuel) (hpos : 0 < fuel) :
    ∃ blk, rotChain L m bno fuel i = some blk ∧ isblock L.g.frag m blk = true := by
  induction hreach generalizing fuel with
  | here i =>
    obtain ⟨fuel, rfl⟩ : ∃ k, fuel = k + 1 := ⟨fuel - 1, by omega⟩
    refine ⟨bno + i, ?_, hj⟩
    unfold rotChain
    rw [if_pos hj]
  | next hdelta hin _ ih =>
    next i _ _ =>
    obtain ⟨fuel, rfl⟩ : ∃ k, fuel = k + 1 := ⟨fuel - 1, by omega⟩
    unfold rotChain
    by_cases hfree : isblock L.g.frag m (bno + i) = true
    · exact ⟨bno + i, by rw [if_pos hfree], hfree⟩
    · have hblocks : (L.fragstoblks L.fpg : Int) = L.blocks := by
        rw [fragstoblks_eq]
        rfl
      rw [if_neg hfree, if_neg (by rw [hblocks]; omega)]
      exact ih hj (by omega) (by omega)

include hs hc in
lemma exists_rotational (cyl pos : Nat) (h : 0 < (d.cg c).blks cyl pos) :
    ∃ b, b < L.blocks ∧ L.cbtocylno (b * L.g.frag) = cyl ∧ L.cbtorpos (b * L.g.frag) = pos ∧
      L.bits (d.cg c).blksfree b = 2 ^ L.g.frag - 1 := by
  rw [(hs.consistent.accounted c hc).blks cyl pos] at h
  obtain ⟨b, hb, hw⟩ := tally_ne_zero (ne_of_gt h)
  split at hw
  · next hat => exact ⟨b, hb, hat.1, hat.2, whole_ne_zero.mp hw⟩
  · exact absurd rfl hw

include hs in
lemma takeBlock_ne_zero {blk : Nat} (h : isblock L.g.frag (d.cg c).blksfree blk = true) :
    c * L.fpg + blk * L.g.frag ≠ 0 := by
  apply address_ne_zero hs.boot
  have := (isblock_iff L.g.fragSize).mp h 0 L.g.fragSize.pos
  rwa [add_zero] at this

include hs hc in
lemma alloccgblk_answers (htab : L.cpc = 0 ∨ RotTables L) (bpref : Nat) :
    Answers d (alloccgblk L c bpref d) (HasBlock L (d.cg c).blksfree) := by
  have hf := L.g.fragSize
  unfold alloccgblk
  dsimp only
  split
  · exact norot_answers hs hc _
  split
  · next hfree =>
    left
    rw [hs.quiet, if_neg Bool.false_ne_true, takeBlock_fst]
    intro hzero
    have hb : L.dtogd (L.blknum bpref) = 0 := by omega
    rw [hb] at hfree hzero
    have hblk : L.fragstoblks 0 = 0 := zero_shiftRight _
    rw [hblk] at hfree
    refine takeBlock_ne_zero hs hfree ?_
    rw [zero_mul]
    exact hzero
  split
  · exact norot_answers hs hc _
  split
  · exact norot_answers hs hc _
  next hcpc =>
  split
  · next hfree =>
    have hrot := htab.resolve_left hcpc
    obtain ⟨b, hb, hcyl, hpos, hfull⟩ := exists_rotational hs hc _ _ hfree
    have hlisted := hrot b hb
    dsimp only at hlisted
    rw [hcyl, hpos] at hlisted
    obtain ⟨hfirst, i, hbase, hreach⟩ := hlisted
    rw [if_neg hfirst]
    have hblock : isblock L.g.frag (d.cg c).blksfree b = true := isblock_iff_bits.mpr hfull
    have hfuel : ∀ i, L.blocks < i + (L.fragstoblks L.fpg + 1) := by
      intro i
      rw [fragstoblks_eq]
      change L.blocks < i + (L.blocks + 1)
      omega
    obtain ⟨blk, hchain, hblk⟩ := rotChain_some hreach (hbase ▸ hblock) (hfuel _) (succ_pos (L.fragstoblks L.fpg))
    left
    rw [hchain]
    dsimp only
    rw [hs.quiet, if_neg Bool.false_ne_true, takeBlock_fst, Layout.blkstofrags, shiftLeft_eq]
    exact takeBlock_ne_zero hs hblk
  · exact norot_answers hs hc _

lemma allocsiz_spec (cgp : Cg) (frags : Nat) :
    (allocsiz L cgp frags = L.g.frag ∧ ∀ siz, frags ≤ siz → siz < L.g.frag → cgp.frsum siz = 0) ∨
      frags ≤ allocsiz L cgp frags ∧ allocsiz L cgp frags < L.g.frag ∧ cgp.frsum (allocsiz L cgp frags) ≠ 0 := by
  unfold allocsiz
  cases hfind : (List.range (L.g.frag - frags)).find? fun k => cgp.frsum (frags + k) ≠ 0 with
  | none =>
    refine .inl ⟨rfl, fun siz hle hlt => ?_⟩
    have hnone := List.find?_eq_none.mp hfind (siz - frags) (List.mem_range.mpr (by omega))
    rw [Nat.add_sub_cancel' hle] at hnone
    simpa using hnone
  | some k =>
    have hmem := List.mem_range.mp (List.mem_of_find?_eq_some hfind)
    have hne := List.find?_some hfind
    exact .inr ⟨le_add_right _ _, by simp only [Option.elim]; omega, by simpa using hne⟩

include hs hc in
lemma splitBlock_answers (htab : L.cpc = 0 ∨ RotTables L) (bpref frags : Nat) :
    Answers d (splitBlock L c bpref frags d) (HasBlock L (d.cg c).blksfree) := by
  have hacc := hs.consistent.accounted c hc
  unfold splitBlock
  split
  · next hzero => exact Or.inr ⟨rfl, fun hblock => hacc.nbfree_ne_zero.mpr hblock hzero⟩
  rcases alloccgblk_answers hs hc htab bpref with hne | ⟨heq, hnone⟩
  · left
    split
    · next d' heq =>
      rw [heq] at hne
      exact hne
    · next bno d' hbno heq =>
      rw [heq] at hne
      exact hne
  · right
    rw [heq]
    exact ⟨rfl, hnone⟩

/-- Whole fragments, at least one and no more than a block. -/
structure LegalSize (L : Layout) (size : Nat) : Prop where
  pos : 0 < size
  le : size ≤ L.g.bsize
  whole : L.g.fsize ∣ size

lemma LegalSize.numfrags {size : Nat} (h : LegalSize L size) :
    1 ≤ L.g.numfrags size ∧ L.g.numfrags size ≤ L.g.frag ∧ (size ≠ L.g.bsize → L.g.numfrags size < L.g.frag) := by
  obtain ⟨k, rfl⟩ := h.whole
  have hfs := fsize_pos (g := L.g)
  have hpos := h.pos
  have hle := h.le
  rw [bsize_eq, Nat.mul_comm L.g.frag] at hle ⊢
  rw [numfrags_eq, Nat.mul_div_cancel_left k hfs]
  have hk : k ≤ L.g.frag := le_of_mul_le_mul_left hle hfs
  refine ⟨Nat.pos_of_mul_pos_left hpos, hk, fun hne => ?_⟩
  exact lt_of_le_of_ne hk fun heq => hne (by rw [heq])

include hs hc in
lemma alloccg_answers (htab : L.cpc = 0 ∨ RotTables L) {size : Nat} (hsize : LegalSize L size) (bpref : Nat) :
    Answers d (alloccg L c bpref size d) (HasRun L (d.cg c).blksfree (L.g.numfrags size)) := by
  have hacc := hs.consistent.accounted c hc
  obtain ⟨hone, hle, hlt⟩ := hsize.numfrags
  unfold alloccg
  rw [hs.consistent.summary c hc, hs.readable c hc]
  by_cases hblock : size = L.g.bsize
  · rw [hblock, numfrags_bsize, hasRun_frag_iff]
    split
    · next hzero => exact Or.inr ⟨rfl, fun h => hacc.nbfree_ne_zero.mpr h hzero.1⟩
    · next hnz =>
      rw [if_neg (by simpa using hnz), if_pos rfl]
      exact alloccgblk_answers hs hc htab bpref
  rw [if_neg fun h => hblock h.2, if_neg (by simp [hblock]), if_neg hblock]
  dsimp only
  rcases allocsiz_spec (d.cg c) (L.g.numfrags size) with ⟨hfull, hnone⟩ | ⟨hge, hsiz, hne⟩
  · rw [if_pos hfull]
    rcases splitBlock_answers hs hc htab bpref (L.g.numfrags size) with hgot | ⟨heq, hno⟩
    · exact Or.inl hgot
    · refine Or.inr ⟨heq, fun hrun => ?_⟩
      rcases hrun.counted hone with hb | ⟨b, siz, hb, hlt', hge, hruns⟩
      · exact hno hb
      · exact (hacc.frsum_ne_zero (by omega) hlt').mpr ⟨b, hb, hruns⟩ (hnone siz hge hlt')
  rw [if_neg (by omega)]
  obtain ⟨b, hb, hruns⟩ := (hacc.frsum_ne_zero (by omega) hsiz).mp hne
  obtain ⟨pos, hrun⟩ := exists_isRun hruns
  obtain ⟨bno, frotor, heq, hat⟩ := mapsearch_found hs.quiet (by omega) (le_of_lt hsiz)
    (hs.rotor c hc) hb hrun bpref
  left
  rw [heq]
  exact address_ne_zero hs.boot (hat.isset L.g.fragSize (by omega))

end Group

section Groups

variable {ncg : Nat} {allocator : Nat → Nat → Disk → Nat × Disk}
  (hsame : ∀ c p d', c < ncg → allocator c p d = (0, d') → d' = d)

include hsame in
lemma bruteForce_asks {cg : Nat} (hcg : cg < ncg) {d' : Disk} (h : bruteForce ncg allocator n cg d = (0, d'))
    {k : Nat} (hk : k < n) : (allocator ((cg + k) % ncg) 0 d).1 = 0 := by
  induction n generalizing cg k with
  | zero => omega
  | succ n ih =>
    unfold bruteForce at h
    split at h
    · next d1 heq =>
      rw [hsame _ _ _ hcg heq] at h
      have hnext : (if cg + 1 = ncg then 0 else cg + 1) < ncg := by
        split <;> omega
      rcases Nat.eq_zero_or_pos k with rfl | hpos
      · rw [add_zero, Nat.mod_eq_of_lt hcg, heq]
      have hstep := ih hnext h (k := k - 1) (by omega)
      have hgroup : ((if cg + 1 = ncg then 0 else cg + 1) + (k - 1)) % ncg = (cg + k) % ncg := by
        split
        · next hwrap =>
          rw [show cg + k = (k - 1) + ncg by omega, add_mod_right, zero_add]
        · rw [show cg + 1 + (k - 1) = cg + k by omega]
      rwa [hgroup] at hstep
    · next r d1 hne heq => exact (hne (congrArg Prod.fst h)).elim

include hsame in
lemma rehash_same {fuel i cg : Nat} (hcg : cg < ncg) {d' : Disk} (h : rehash ncg allocator fuel i cg d = (0, d')) : d' = d := by
  induction fuel generalizing i cg with
  | zero =>
    cases h
    rfl
  | succ fuel ih =>
    unfold rehash at h
    split at h
    · next hi =>
      have hnext : (if ncg ≤ cg + i then cg + i - ncg else cg + i) < ncg := by
        split <;> omega
      dsimp only at h
      split at h
      · next d1 heq =>
        rw [hsame _ _ _ hnext heq] at h
        exact ih hnext h
      · next r d1 hne heq => exact (hne (congrArg Prod.fst h)).elim
    · cases h
      rfl

lemma rehash_asks {fuel cg : Nat} (hncg : 1 < ncg) (hcg : cg < ncg) {d' : Disk}
    (h : rehash ncg allocator (fuel + 1) 1 cg d = (0, d')) : (allocator ((cg + 1) % ncg) 0 d).1 = 0 := by
  have hgroup : (if ncg ≤ cg + 1 then cg + 1 - ncg else cg + 1) = (cg + 1) % ncg := by
    split
    · next hwrap =>
      have heq : cg + 1 = ncg := by omega
      rw [heq, Nat.sub_self, Nat.mod_self]
    · next hin => rw [Nat.mod_eq_of_lt (by omega)]
  unfold rehash at h
  rw [if_pos hncg] at h
  dsimp only at h
  rw [hgroup] at h
  split at h
  · next d1 heq => rw [heq]
  · next r d1 hne heq => exact (hne (congrArg Prod.fst h)).elim

include hsame in
theorem hashalloc_asks {cg pref : Nat} (hcg : cg < ncg) {d' : Disk} (h : hashalloc ncg allocator cg pref d = (0, d')) :
    ∀ c, c < ncg → ∃ p, (allocator c p d).1 = 0 := by
  unfold hashalloc at h
  split at h
  · next d1 hfirst =>
    rw [hsame _ _ _ hcg hfirst] at h
    split at h
    · next d2 hrehash =>
      rw [rehash_same hsame hcg hrehash] at h
      intro c hc
      by_cases hself : c = cg
      · exact ⟨pref, by rw [hself, hfirst]⟩
      refine ⟨0, ?_⟩
      obtain ⟨fuel, rfl⟩ : ∃ k, ncg = k + 1 := ⟨ncg - 1, by omega⟩
      -- how far the group lies behind the preferred one
      obtain ⟨off, hoff, hoffc⟩ : ∃ off, off < fuel + 1 ∧ (cg + off) % (fuel + 1) = c := by
        rcases lt_or_ge c cg with hlt | hge
        · refine ⟨c + (fuel + 1) - cg, by omega, ?_⟩
          rw [show cg + (c + (fuel + 1) - cg) = c + (fuel + 1) by omega, add_mod_right, Nat.mod_eq_of_lt hc]
        · refine ⟨c - cg, by omega, ?_⟩
          rw [Nat.add_sub_cancel' hge, Nat.mod_eq_of_lt hc]
      have hoff0 : off ≠ 0 := by
        rintro rfl
        rw [add_zero, Nat.mod_eq_of_lt hcg] at hoffc
        exact hself hoffc.symm
      by_cases hoff1 : off = 1
      · rw [← hoffc, hoff1]
        exact rehash_asks (by omega) hcg hrehash
      · have hbrute := bruteForce_asks hsame (mod_lt _ (by omega)) h (k := off - 2) (by omega)
        rw [mod_add_mod, show cg + 2 + (off - 2) = cg + off by omega, hoffc] at hbrute
        exact hbrute
    · next r d2 hne heq => exact (hne (congrArg Prod.fst h)).elim
  · next r d1 hne heq => exact (hne (congrArg Prod.fst h)).elim

end Groups

lemma chkdq_superuser (q : Quota) (change : Int) (force : Bool) : (chkdq q change force 0).1 = none := by
  unfold chkdq
  split
  · rfl
  split
  · rfl
  split
  · rfl
  split
  · rfl
  · rfl

lemma Consistent.no_block (h : Consistent L d) (hzero : d.cstotal.nbfree = 0) (hc : c < L.ncg) :
    ¬HasBlock L (d.cg c).blksfree := by
  intro hblock
  have hnonneg : ∀ x ∈ range L.ncg, 0 ≤ (d.cs x).nbfree := by
    intro x hx
    rw [h.summary x (mem_range.mp hx), (h.accounted x (mem_range.mp hx)).nbfree]
    exact tally_nonneg fun _ _ => whole_nonneg _ _
  rw [h.nbfree, sum_eq_zero_iff_of_nonneg hnonneg] at hzero
  have hcs := hzero c (mem_range.mpr hc)
  rw [h.summary c hc] at hcs
  exact (h.accounted c hc).nbfree_ne_zero.mpr hblock hcs

lemma LegalSize.accepted {size : Nat} (h : LegalSize L size) : ¬(L.g.bsize < size ∨ L.fragoff size ≠ 0) := by
  rw [fragoff_eq, mod_eq_zero_of_dvd h.whole]
  have := h.le
  omega

lemma preferred_group {ino : Nat} (hino : ino < L.ncg * L.ipg) (bpref : Nat) :
    (if (if L.size ≤ bpref then 0 else bpref) = 0 then itog L ino
      else L.dtog (if L.size ≤ bpref then 0 else bpref)) < L.ncg := by
  have hinode : itog L ino < L.ncg := Nat.div_lt_of_lt_mul (by rwa [Nat.mul_comm])
  by_cases hout : L.size ≤ bpref
  · rw [if_pos hout, if_pos rfl]
    exact hinode
  rw [if_neg hout]
  split
  · exact hinode
  · apply Nat.div_lt_of_lt_mul
    rw [Nat.mul_comm]
    exact Nat.lt_of_lt_of_le (Nat.lt_of_not_le hout) L.size_le

/-- No group has room when the search through all of them fails. -/
lemma hashalloc_fails (hs : Searchable L d) (htab : L.cpc = 0 ∨ RotTables L) {size cg pref : Nat} (hsize : LegalSize L size)
    (hcg : cg < L.ncg) {d' : Disk} (h : hashalloc L.ncg (fun c pref => alloccg L c pref size) cg pref d = (0, d'))
    (hc : c < L.ncg) : ¬HasRun L (d.cg c).blksfree (L.g.numfrags size) := by
  have hsame : ∀ x p d2, x < L.ncg → alloccg L x p size d = (0, d2) → d2 = d := by
    intro x p d2 hx hfail
    rcases alloccg_answers hs hx htab hsize p with hne | ⟨heq, -⟩
    · rw [hfail] at hne
      exact absurd rfl hne
    · rw [hfail] at heq
      exact congrArg Prod.snd heq
  obtain ⟨p, hp⟩ := hashalloc_asks hsame hcg h c hc
  rcases alloccg_answers hs hc htab hsize p with hne | ⟨-, hnone⟩
  · exact absurd hp hne
  · exact hnone

theorem alloc_enospc (hs : Searchable L d) (htab : L.cpc = 0 ∨ RotTables L) {size ino : Nat} (hsize : LegalSize L size)
    (hino : ino < L.ncg * L.ipg) {q q' : Quota} {bpref : Nat} {d' : Disk}
    (h : alloc L d q ino bpref size 0 = (.error .enospc, d', q')) (hc : c < L.ncg) :
    ¬HasRun L (d.cg c).blksfree (L.g.numfrags size) := by
  unfold alloc at h
  rw [if_neg hsize.accepted] at h
  split at h
  · next hfull =>
    rw [hfull.1, numfrags_bsize, hasRun_frag_iff]
    exact hs.consistent.no_block hfull.2 hc
  rw [if_neg (by simp)] at h
  have hquota := chkdq_superuser q (btodb size) false
  split at h
  · next err q1 heq =>
    rw [heq] at hquota
    cases hquota
  next q1 heq =>
  dsimp only at h
  split at h
  · next d1 hsearch => exact hashalloc_fails hs htab hsize (preferred_group hino bpref) hsearch hc
  · next bno d1 hne heq =>
    cases h

/-- `ENOSPC` tells that no group has room, `mapsearch` finds every run that is counted, and `hashalloc` asks every
group. -/
theorem space_is_found (hs : Searchable L d) (htab : L.cpc = 0 ∨ RotTables L) :
    (∀ (q q' : Quota) (ino bpref size : Nat) (d' : Disk), ino < L.ncg * L.ipg → LegalSize L size →
      alloc L d q ino bpref size 0 = (.error .enospc, d', q') →
      ∀ c, c < L.ncg → ¬HasRun L (d.cg c).blksfree (L.g.numfrags size)) ∧
    (∀ c bpref siz : Nat, c < L.ncg → 1 ≤ siz → siz < L.g.frag → (d.cg c).frsum siz ≠ 0 →
      Found L siz (d.cg c) (mapsearch L d.iscancel c bpref siz (d.cg c))) ∧
    (∀ (allocator : Nat → Nat → Disk → Nat × Disk) (cg pref : Nat) (d' : Disk),
      (∀ c p d', c < L.ncg → allocator c p d = (0, d') → d' = d) → cg < L.ncg →
      hashalloc L.ncg allocator cg pref d = (0, d') → ∀ c, c < L.ncg → ∃ p, (allocator c p d).1 = 0) := by
  refine ⟨?_, ?_, ?_⟩
  · intro q q' ino bpref size d' hino hsize h c hc
    exact alloc_enospc hs htab hsize hino h hc
  · intro c bpref siz hc hone hlt hne
    obtain ⟨b, hb, hruns⟩ := ((hs.consistent.accounted c hc).frsum_ne_zero hone hlt).mp hne
    obtain ⟨pos, hrun⟩ := exists_isRun hruns
    exact mapsearch_found hs.quiet hone (le_of_lt hlt) (hs.rotor c hc) hb hrun bpref
  · intro allocator cg pref d' hsame hcg h c hc
    exact hashalloc_asks hsame hcg h c hc

/-- Three groups like the one of the small file system. -/
def threeGroups : Layout :=
  { sampleLayout with ncg := 3, size := 48, ncg_pos := Nat.succ_pos 2, size_le := Nat.le_refl 48 }

def threeDisk : Disk where
  cg := fun _ => sampleCg
  cs := fun _ => sampleCg.cs
  cstotal := { ndir := 3, nbfree := 0, nifree := 180, nffree := 3 }
  optim := .time
  iscancel := fun _ => false

lemma threeDisk_searchable : Searchable threeGroups threeDisk where
  consistent :=
    { accounted := fun _ _ => ⟨sampleCg_accounted.nbfree, sampleCg_accounted.nffree, sampleCg_accounted.frsum,
        sampleCg_accounted.blktot, sampleCg_accounted.blks⟩
      summary := fun _ _ => rfl
      nbfree := by decide
      nffree := by decide }
  readable := fun _ _ => rfl
  rotor := fun _ _ => (by decide : 8 < 16)
  boot := by decide
  quiet := fun _ => rfl

def noQuota : Quota where
  enabled := false
  now := 0
  vfsBtimelimit := 0
  vfsFtimelimit := 0
  dquot := none

/-- Each group has one free fragment; the request of two goes through all of them. -/
theorem space_is_found_sample : ¬HasRun threeGroups (threeDisk.cg 2).blksfree 2 := by
  have hfails : (alloc threeGroups threeDisk noQuota 70 0 2048 0).1 = .error .enospc := by decide +kernel
  exact (space_is_found threeDisk_searchable (.inl rfl)).1 noQuota _ 70 0 2048 _ (by decide)
    ⟨by decide, by decide, by decide⟩ (Prod.ext hfails rfl) 2 (by decide)

end Solaris.Ufs
