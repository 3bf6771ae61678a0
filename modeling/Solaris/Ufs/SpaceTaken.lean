import Solaris.Ufs.BlockChanges

/-!
# The space that is taken

Every way to space in a group ends with a range of free fragments of one block, which is taken and nothing else.
-/

namespace Solaris.Ufs

open Nat Nat

variable {L : Layout} {d d' d1 : Disk} {m : ByteMap} {c b pos siz n a : Nat}

/-- The `n` fragments from the address `a` on were free, lie in one block of one group, and have been taken. -/
structure Takes (L : Layout) (d d' : Disk) (a n : Nat) : Prop where
  group : L.dtog a < L.ncg
  inside : L.dtogd a + n ≤ L.fpg
  block : L.dtogd a % L.g.frag + n ≤ L.g.frag
  free : ∀ i, i < n → isset (d.cg (L.dtog a)).blksfree (L.dtogd a + i) = true
  map : ∀ x j, isset (d'.cg x).blksfree j =
    (isset (d.cg x).blksfree j && !decide (x = L.dtog a ∧ L.dtogd a ≤ j ∧ j < L.dtogd a + n))

/-- What a search for `n` fragments in group `c` leaves: its answer is 0 when it has failed. -/
structure AllocatedIn (L : Layout) (c n : Nat) (d : Disk) (r : Nat × Disk) : Prop where
  balanced : Balanced L r.2
  bad : (r.2.cg c).bad = (d.cg c).bad
  found : r.1 ≠ 0 → L.dtog r.1 = c ∧ Takes L d r.2 r.1 n
  missed : isset (d.cg 0).blksfree 0 = false → r.1 = 0 → SameSpace d r.2

lemma dtog_address (hb : b < L.fpg) : L.dtog (c * L.fpg + b) = c ∧ L.dtogd (c * L.fpg + b) = b := by
  unfold Layout.dtog Layout.dtogd
  constructor
  · rw [mul_comm, mul_add_div L.fpg_pos, div_eq_of_lt hb, add_zero]
  · rw [add_comm, add_mul_mod_self_right, mod_eq_of_lt hb]

lemma block_end_le (hb : b < L.blocks) : b * L.g.frag + L.g.frag ≤ L.fpg := by
  rw [← blocks_mul L, ← succ_mul]
  exact mul_le_mul_right _ hb

lemma takes_of_cleared (hc : c < L.ncg) (hb : b < L.blocks) (hpos : pos < L.g.frag) (hin : pos + n ≤ L.g.frag)
    (hfree : ∀ i, i < n → isset (d.cg c).blksfree (b * L.g.frag + pos + i) = true)
    (hmap : ClearedIn (d.cg c).blksfree (d'.cg c).blksfree (b * L.g.frag + pos) n)
    (hgroups : ∀ x j, x ≠ c → isset (d'.cg x).blksfree j = isset (d.cg x).blksfree j) : Takes L d d' (c * L.fpg + (b * L.g.frag + pos)) n := by
  have hend := block_end_le hb
  obtain ⟨hg, hd⟩ := dtog_address (L := L) (c := c) (b := b * L.g.frag + pos) (by omega)
  constructor
  · rw [hg]
    exact hc
  · rw [hd]
    omega
  · rw [hd, mul_comm, mul_add_mod, mod_eq_of_lt hpos]
    exact hin
  · rw [hg, hd]
    exact hfree
  · intro x j
    rw [hg, hd]
    by_cases hx : x = c
    · rw [hx, hmap j]
      congr 2
      apply decide_eq_decide.mpr
      omega
    · rw [hgroups x j hx, decide_eq_false fun h => hx h.1, Bool.not_false, Bool.and_true]

lemma Takes.of_same (hsame : SameSpace d d1) (h : Takes L d1 d' a n) : Takes L d d' a n where
  group := h.group
  inside := h.inside
  block := h.block
  free := by
    intro i hi
    rw [← hsame.blksfree]
    exact h.free i hi
  map := by
    intro x j
    rw [← hsame.blksfree]
    exact h.map x j

lemma AllocatedIn.of_same (hsame : SameSpace d d1) {r : Nat × Disk} (h : AllocatedIn L c n d1 r) :
    AllocatedIn L c n d r where
  balanced := h.balanced
  bad := h.bad.trans (hsame.bad c)
  found := fun hne => ⟨(h.found hne).1, (h.found hne).2.of_same hsame⟩
  missed := by
    intro hboot hzero
    exact hsame.trans (h.missed (by rw [hsame.blksfree]; exact hboot) hzero)

lemma AllocatedIn.nothing (hbal : Balanced L d) : AllocatedIn L c n d (0, d) :=
  ⟨hbal, rfl, fun hne => absurd rfl hne, fun _ _ => SameSpace.rfl⟩

lemma AllocatedIn.of_takes (hbal : Balanced L d') (hbad : (d'.cg c).bad = (d.cg c).bad) (hg : L.dtog a = c) (hn : 1 ≤ n)
    (h : Takes L d d' a n) : AllocatedIn L c n d (a, d') where
  balanced := hbal
  bad := hbad
  found := fun _ => ⟨hg, h⟩
  missed := by
    -- the first fragment of the disk is not free
    intro hboot hzero
    have hzero' : a = 0 := hzero
    have hfirst := h.free 0 hn
    rw [hzero', Layout.dtog, Layout.dtogd, Nat.zero_div, Nat.zero_mod, hboot] at hfirst
    exact absurd hfirst (by decide)

theorem mapsearchLoop_result {iscancel : Nat → Bool} {start fuel first last : Nat} {secondtime : Bool} {cgp : Cg}
    (hone : 1 ≤ siz) (hle : siz ≤ L.g.frag) :
    Found L siz cgp (mapsearchLoop L iscancel c start siz fuel first last secondtime cgp) ∨
      ∃ frotor, mapsearchLoop L iscancel c start siz fuel first last secondtime cgp =
        (none, { cgp with frotor := frotor }) := by
  induction fuel generalizing first last secondtime cgp with
  | zero => exact .inr ⟨cgp.frotor, rfl⟩
  | succ fuel ih =>
    -- a later scan works on the same map with another rotor
    have hlater : ∀ frotor first last secondtime,
        Found L siz cgp (mapsearchLoop L iscancel c start siz fuel first last secondtime { cgp with frotor := frotor }) ∨
          ∃ frotor', mapsearchLoop L iscancel c start siz fuel first last secondtime { cgp with frotor := frotor } =
            (none, { cgp with frotor := frotor' }) := by
      intro frotor first last secondtime
      exact ih
    have htop : ∀ frotor, Found L siz cgp (if secondtime then (none, { cgp with frotor := frotor })
        else mapsearchLoop L iscancel c start siz fuel 0 (start + 1) true { cgp with frotor := frotor }) ∨
          ∃ frotor', (if secondtime then (none, { cgp with frotor := frotor })
            else mapsearchLoop L iscancel c start siz fuel 0 (start + 1) true { cgp with frotor := frotor }) =
              (none, { cgp with frotor := frotor' }) := by
      intro frotor
      cases secondtime with
      | true => exact .inr ⟨frotor, if_pos rfl⟩
      | false =>
        exact hlater frotor 0 (start + 1) true
    rw [mapsearchLoop]
    by_cases hlt : first < last
    · rw [if_pos hlt]
      dsimp only
      generalize hloc : scanc (fragtbl L.g.frag) cgp.blksfree (1 <<< (siz - 1 + L.g.frag % nbby)) (last - first) first = loc
      by_cases hz : loc = 0
      · rw [if_neg (not_not.mpr hz)]
        exact htop cgp.frotor
      have hhit := scanc_hit (hloc ▸ hz)
      rw [hloc, show first + (last - first) - loc = last - loc by omega] at hhit
      rw [if_pos hz]
      split
      · exact .inl ⟨_, _, rfl, siftByte_run L.g.fragSize hone hle hhit⟩
      split
      · exact hlater _ _ _ _
      · exact htop _
    · rw [if_neg hlt]
      exact .inr ⟨cgp.frotor, rfl⟩

lemma mapsearch_result {iscancel : Nat → Bool} {cgp : Cg} (hone : 1 ≤ siz) (hle : siz ≤ L.g.frag) (bpref : Nat) :
    Found L siz cgp (mapsearch L iscancel c bpref siz cgp) ∨
      ∃ frotor, mapsearch L iscancel c bpref siz cgp = (none, { cgp with frotor := frotor }) :=
  mapsearchLoop_result hone hle

lemma sameSpace_rotor (d : Disk) (c rotor frotor : Nat) :
    SameSpace d (d.setCg c fun _ => { d.cg c with rotor := rotor, frotor := frotor }) where
  cg := by
    intro x
    by_cases hx : x = c
    · subst hx
      exact ⟨rotor, frotor, setCg_cg_self _⟩
    · exact ⟨(d.cg x).rotor, (d.cg x).frotor, setCg_cg_ne _ hx⟩
  cs := rfl
  cstotal := rfl

lemma RunAt.place (hbal : Balanced L d) (hc : c < L.ncg) {bno : Nat} (hone : 1 ≤ siz)
    (h : RunAt L.g.frag (d.cg c).blksfree siz bno) :
    bno / L.g.frag < L.blocks ∧ bno = bno / L.g.frag * L.g.frag + bno % L.g.frag ∧
      IsRun L.g.frag (L.bits (d.cg c).blksfree (bno / L.g.frag)) siz (bno % L.g.frag) := by
  have hsplit : bno = bno / L.g.frag * L.g.frag + bno % L.g.frag := (div_add_mod' bno L.g.frag).symm
  refine ⟨?_, hsplit, h⟩
  have hset := h.isset L.g.fragSize hone
  have hlt : bno < L.fpg := by
    by_contra hge
    rw [hbal.inside c bno hc (by omega)] at hset
    exact absurd hset (by decide)
  rw [div_lt_iff_lt_mul L.g.fragSize.pos, blocks_mul]
  exact hlt

lemma rotChain_isblock {bno fuel i blk : Nat} (h : rotChain L m bno fuel i = some blk) : isblock L.g.frag m blk = true := by
  induction fuel generalizing i with
  | zero => cases h
  | succ fuel ih =>
    unfold rotChain at h
    split at h
    · next hblk =>
      rw [← Option.some.inj h]
      exact hblk
    · split at h
      · cases h
      · exact ih h

section Group

variable (hbal : Balanced L d) (hc : c < L.ncg)

include hbal hc

lemma takeBlock_allocated (hb : b < L.blocks) (hfree : L.bits (d.cg c).blksfree b = 2 ^ L.g.frag - 1) :
    AllocatedIn L c L.g.frag d (takeBlock L c (b * L.g.frag) d) := by
  have hch := changes_takeBlock hb hfree
  have hf := L.g.fragSize
  have hend := block_end_le hb
  have hpos := hf.pos
  have hmap : ClearedIn (d.cg c).blksfree ((takeBlock L c (b * L.g.frag) d).2.cg c).blksfree (b * L.g.frag + 0) L.g.frag := by
    intro j
    have hclr : ((takeBlock L c (b * L.g.frag) d).2.cg c).blksfree = clrblock L.g.frag (d.cg c).blksfree b := by
      unfold takeBlock
      rw [setCg_cg_self, countBlock_blksfree, count_cg_self, setCg_cg_self, fragstoblks_mul]
    rw [hclr, isset_clrblock hf]
    congr 2
    apply decide_eq_decide.mpr
    rw [Nat.div_eq_iff hpos]
    omega
  have htakes := takes_of_cleared hc hb hpos (by omega) (fun i hi => bits_full_iff.mp hfree i hi) hmap hch.others
  exact AllocatedIn.of_takes (hch.balanced hc hbal) hch.bad (dtog_address (by omega)).1 hpos htakes

lemma isblock_lt_blocks {blk : Nat} (h : isblock L.g.frag (d.cg c).blksfree blk = true) :
    blk < L.blocks ∧ L.bits (d.cg c).blksfree blk = 2 ^ L.g.frag - 1 := by
  refine ⟨?_, isblock_iff_bits.mp h⟩
  have hset := (isblock_iff L.g.fragSize).mp h 0 L.g.fragSize.pos
  by_contra hge
  have hle : L.fpg ≤ blk * L.g.frag + 0 := by
    rw [← blocks_mul L]
    exact Nat.mul_le_mul_right _ (Nat.le_of_not_lt hge)
  rw [hbal.inside c _ hc hle] at hset
  exact absurd hset (by decide)

lemma RunAt.whole_block {bno : Nat} (h : RunAt L.g.frag (d.cg c).blksfree L.g.frag bno) :
    bno / L.g.frag < L.blocks ∧ bno = bno / L.g.frag * L.g.frag ∧
      L.bits (d.cg c).blksfree (bno / L.g.frag) = 2 ^ L.g.frag - 1 := by
  obtain ⟨hb, hsplit, hrun⟩ := RunAt.place hbal hc L.g.fragSize.pos h
  have hzero : bno % L.g.frag = 0 := by
    have := hrun.1
    omega
  rw [hzero] at hrun hsplit
  refine ⟨hb, hsplit, bits_full_iff.mpr fun j hj => ?_⟩
  rw [← testBit_bits hj]
  have hbit := hrun.2.1 j hj
  rwa [zero_add] at hbit

lemma norot_allocated (bpref : Nat) : AllocatedIn L c L.g.frag d (norot L c bpref d) := by
  unfold norot
  rcases mapsearch_result L.g.fragSize.pos
    (le_refl L.g.frag) bpref with ⟨bno, frotor, heq, hrun⟩ | ⟨frotor, heq⟩
  · rw [heq]
    have hsame := sameSpace_rotor d c bno frotor
    have hrun' : RunAt L.g.frag ((d.setCg c fun _ => { d.cg c with rotor := bno, frotor := frotor }).cg c).blksfree
        L.g.frag bno := by
      rw [hsame.blksfree]
      exact hrun
    obtain ⟨hb, hsplit, hfree⟩ := RunAt.whole_block (hsame.balanced hbal) hc hrun'
    have htaken := takeBlock_allocated (hsame.balanced hbal) hc hb hfree
    rw [← hsplit] at htaken
    exact htaken.of_same hsame
  · rw [heq]
    have hsame := sameSpace_rotor d c (d.cg c).rotor frotor
    exact (AllocatedIn.nothing (hsame.balanced hbal)).of_same hsame

lemma alloccgblk_allocated (bpref : Nat) : AllocatedIn L c L.g.frag d (alloccgblk L c bpref d) := by
  unfold alloccgblk
  dsimp only
  -- every free block that the routine meets is taken, unless it is under `TRANS_ISCANCEL`
  have hgotit : ∀ blk pref, isblock L.g.frag (d.cg c).blksfree blk = true →
      AllocatedIn L c L.g.frag d
        (if d.iscancel (c * L.fpg + blk * L.g.frag) then norot L c pref d else takeBlock L c (blk * L.g.frag) d) := by
    intro blk pref hblk
    split
    · exact norot_allocated hbal hc pref
    · obtain ⟨hb, hfree⟩ := isblock_lt_blocks hbal hc hblk
      exact takeBlock_allocated hbal hc hb hfree
  split
  · exact norot_allocated hbal hc _
  split
  · next hblk =>
    have hdvd : L.dtogd (L.blknum bpref) = L.fragstoblks (L.dtogd (L.blknum bpref)) * L.g.frag := by
      have hmul : L.g.frag ∣ L.dtogd (L.blknum bpref) := by
        apply (dvd_mod_iff L.frag_dvd).mpr
        unfold Layout.blknum
        rw [bbase_eq]
        exact dvd_mul_left _ _
      rw [fragstoblks_eq, Nat.div_mul_cancel hmul]
    have hgot := hgotit _ (L.dtogd (L.blknum bpref)) hblk
    rw [← hdvd] at hgot
    exact hgot
  split
  · exact norot_allocated hbal hc _
  split
  · exact norot_allocated hbal hc _
  split
  · split
    · exact AllocatedIn.nothing hbal
    split
    · next blk hchain =>
      have hblk : isblock L.g.frag (d.cg c).blksfree blk = true := rotChain_isblock hchain
      have hshift : L.blkstofrags blk = blk * L.g.frag := shiftLeft_eq blk L.g.fragshift
      rw [hshift]
      exact hgotit blk _ hblk
    · exact AllocatedIn.nothing hbal
  · exact norot_allocated hbal hc _

theorem splitBlock_allocated (hone : 1 ≤ n) (hlt : n < L.g.frag) (bpref : Nat) :
    AllocatedIn L c n d (splitBlock L c bpref n d) := by
  have hf := L.g.fragSize
  have hblock := alloccgblk_allocated hbal hc bpref
  unfold splitBlock
  split
  · exact AllocatedIn.nothing hbal
  split
  · next d1 heq =>
    rw [heq] at hblock
    exact ⟨hblock.balanced, hblock.bad, fun hne => absurd rfl hne, hblock.missed⟩
  · next bno d1 hne heq =>
    rw [heq] at hblock
    obtain ⟨hg, htakes⟩ := hblock.found hne
    dsimp only at hg htakes
    -- the block of the address
    obtain ⟨b, hb, hd⟩ : ∃ b, b < L.blocks ∧ L.dtogd bno = b * L.g.frag := by
      have hin := htakes.inside
      have hal := htakes.block
      have hdvd : L.dtogd bno / L.g.frag * L.g.frag = L.dtogd bno := Nat.div_mul_cancel (Nat.dvd_of_mod_eq_zero (by omega))
      refine ⟨L.dtogd bno / L.g.frag, ?_, hdvd.symm⟩
      rw [div_lt_iff_lt_mul hf.pos, blocks_mul]
      omega
    have hmap1 : ∀ x j, isset (d1.cg x).blksfree j =
        (isset (d.cg x).blksfree j && !decide (x = c ∧ b * L.g.frag ≤ j ∧ j < b * L.g.frag + L.g.frag)) := by
      intro x j
      have hx := htakes.map x j
      rwa [hg, hd] at hx
    have hfree : ∀ i, i < L.g.frag → isset (d.cg c).blksfree (b * L.g.frag + i) = true := by
      intro i hi
      have hx := htakes.free i hi
      rwa [hg, hd] at hx
    have hzero : L.bits (d1.cg c).blksfree b = 0 := by
      rw [bits_eq_zero_iff]
      intro j hj
      rw [hmap1, decide_eq_true ⟨rfl, by omega, by omega⟩, Bool.not_true, Bool.and_false]
    have htail := isset_foldl_setbit (d1.cg c).blksfree (b * L.g.frag + n) (L.g.frag - n)
    have hch := changes_tail hb hzero hone hlt htail
    rw [hd]
    have htakes' : Takes L d ((d1.setCg c fun cgp => { cgp with
        blksfree := (List.range (L.g.frag - n)).foldl (fun m k => setbit m (b * L.g.frag + n + k)) (d1.cg c).blksfree
        frsum := Function.update cgp.frsum (L.g.frag - n) (cgp.frsum (L.g.frag - n) + 1) }).count c 0
          (L.g.frag - n : Nat)) (c * L.fpg + (b * L.g.frag + 0)) n := by
      refine takes_of_cleared hc hb hf.pos (by omega) (fun i hi => hfree i (by omega)) ?_ ?_
      · intro j
        rw [count_cg_self, setCg_cg_self]
        rw [htail, hmap1]
        by_cases hj : b * L.g.frag ≤ j ∧ j < b * L.g.frag + L.g.frag
        · have hset := hfree (j - b * L.g.frag) (by omega)
          rw [Nat.add_sub_cancel' hj.1] at hset
          rw [hset, decide_eq_true ⟨rfl, hj⟩, Bool.not_true, Bool.and_false, Bool.false_or, Bool.true_and, ← decide_not]
          apply decide_eq_decide.mpr
          omega
        · rw [decide_eq_false (fun h => hj h.2), decide_eq_false (by omega), decide_eq_false (by omega), Bool.or_false]
      · intro x j hx
        rw [hch.others x j hx, hmap1, decide_eq_false fun h => hx h.1, Bool.not_false, Bool.and_true]
    have haddr : bno = c * L.fpg + (b * L.g.frag + 0) := by
      rw [add_zero, ← hg, ← hd]
      exact (div_add_mod' bno L.fpg).symm
    rw [← haddr] at htakes'
    exact AllocatedIn.of_takes (hch.balanced hc hblock.balanced) (hch.bad.trans hblock.bad) hg hone htakes'

theorem takeFrags_allocated {bno : Nat} (hone : 1 ≤ n) (hle : n ≤ siz) (hsiz : siz < L.g.frag)
    (hrun : RunAt L.g.frag (d.cg c).blksfree siz bno) : AllocatedIn L c n d (takeFrags L c bno n siz d) := by
  obtain ⟨hb, hsplit, hrun'⟩ := RunAt.place hbal hc (by omega) hrun
  have hin := hrun'.1
  have hmap : ClearedIn (d.cg c).blksfree ((List.range n).foldl (fun m i => clrbit m (bno + i)) (d.cg c).blksfree)
      (bno / L.g.frag * L.g.frag + bno % L.g.frag) n := by
    rw [← hsplit]
    exact isset_foldl_clrbit _ bno n
  have hch : Changes L c (bno / L.g.frag) 0 (-n) d (takeFrags L c bno n siz d).2 := changes_run hb hrun' hsiz hone hle hmap
  have hend := block_end_le hb
  have htakes := takes_of_cleared hc hb (mod_lt bno L.g.fragSize.pos) (show bno % L.g.frag + n ≤ L.g.frag by omega)
    (fun i hi => by
      rw [add_assoc, ← testBit_bits (by omega)]
      exact hrun'.2.1 i (by omega))
    ?_ hch.others
  · have hbno : bno < L.fpg := by omega
    rw [← hsplit] at htakes
    exact AllocatedIn.of_takes (hch.balanced hc hbal) hch.bad (dtog_address hbno).1 hone htakes
  · unfold takeFrags
    rw [count_cg_self, setCg_cg_self]
    exact hmap

lemma alloccg_allocated {size : Nat} (hsize : LegalSize L size) (bpref : Nat) :
    AllocatedIn L c (L.g.numfrags size) d (alloccg L c bpref size d) := by
  obtain ⟨hone, hle, hpart⟩ := hsize.numfrags
  unfold alloccg
  split
  · exact AllocatedIn.nothing hbal
  split
  · exact AllocatedIn.nothing hbal
  split
  · next hblock =>
    rw [hblock, numfrags_bsize]
    exact alloccgblk_allocated hbal hc bpref
  next hblock =>
  have hlt := hpart hblock
  dsimp only
  split
  · exact splitBlock_allocated hbal hc hone hlt bpref
  next hsiz =>
  obtain ⟨hge, hlt', -⟩ : L.g.numfrags size ≤ allocsiz L (d.cg c) (L.g.numfrags size) ∧
      allocsiz L (d.cg c) (L.g.numfrags size) < L.g.frag ∧ _ :=
    (allocsiz_spec (d.cg c) (L.g.numfrags size)).resolve_left fun h => hsiz h.1
  rcases mapsearch_result
    (le_trans hone hge) (le_of_lt hlt') bpref with ⟨bno, frotor, heq, hrun⟩ | ⟨frotor, heq⟩
  · rw [heq]
    have hsame := sameSpace_rotor d c (d.cg c).rotor frotor
    have hrun' : RunAt L.g.frag ((d.setCg c fun _ => { d.cg c with frotor := frotor }).cg c).blksfree
        (allocsiz L (d.cg c) (L.g.numfrags size)) bno := by
      rw [hsame.blksfree]
      exact hrun
    exact (takeFrags_allocated (hsame.balanced hbal) hc hone hge hlt' hrun').of_same hsame
  · rw [heq]
    have hsame := sameSpace_rotor d c (d.cg c).rotor frotor
    exact (splitBlock_allocated (hsame.balanced hbal) hc hone hlt bpref).of_same hsame

end Group

lemma alloccg_readable {size bpref : Nat} (h : (alloccg L c bpref size d).1 ≠ 0) : (d.cg c).bad = false := by
  unfold alloccg at h
  split at h
  · exact absurd rfl h
  split at h
  · exact absurd rfl h
  · next hno => exact Bool.eq_false_of_not_eq_true fun hbad => hno (.inl hbad)

end Solaris.Ufs
