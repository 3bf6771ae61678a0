import Solaris.Ufs.Changes

/-!
# What the allocator does to a block

A whole block is taken or freed, the first fragments of a run are taken, fragments are freed, and the tail of a
block that was taken is given back.
-/

namespace Solaris.Ufs

open Finset List Function Nat Nat

variable {L : Layout} {d : Disk} {m m' : ByteMap} {c b pos siz n : Nat}

lemma full_ne_zero (L : Layout) : 2 ^ L.g.frag - 1 ≠ 0 := by
  have hpow : 2 ^ 1 ≤ 2 ^ L.g.frag := Nat.pow_le_pow_right (by decide) L.g.fragSize.pos
  omega

lemma whole_zero (L : Layout) : whole L.g.frag 0 = 0 := if_neg (full_ne_zero L).symm

lemma whole_full (frag : Nat) : whole frag (2 ^ frag - 1) = 1 := if_pos rfl

lemma whole_part {frag bits : Nat} (h : bits ≠ 2 ^ frag - 1) : whole frag bits = 0 := if_neg h

lemma loose_full (frag : Nat) : loose frag (2 ^ frag - 1) = 0 := if_pos rfl

lemma loose_part {frag bits : Nat} (h : bits ≠ 2 ^ frag - 1) :
    loose frag bits = (List.range frag).countP fun j => bits.testBit j := if_neg h

lemma loose_zero (L : Layout) : loose L.g.frag 0 = 0 := by
  rw [loose_part (full_ne_zero L).symm]
  simp

lemma runs_zero (frag : Nat) (hone : 1 ≤ siz) : runs frag 0 siz = 0 := by
  unfold runs
  rw [countP_eq_zero]
  intro p _
  rw [decide_eq_true_eq]
  intro hrun
  have hbit := hrun.2.1 0 hone
  rw [zero_testBit] at hbit
  exact absurd hbit (by decide)

lemma runs_full (L : Layout) (hone : 1 ≤ siz) (hlt : siz < L.g.frag) : runs L.g.frag (2 ^ L.g.frag - 1) siz = 0 := by
  have hpow := Nat.two_pow_pos L.g.frag
  rw [← fragCount_eq_runs L.g.frag L.g.fragSize _ (by omega) siz hlt hone]
  exact fragCount_full L.g.frag L.g.fragSize siz hlt hone

lemma countP_full (frag : Nat) : ((List.range frag).countP fun j => (2 ^ frag - 1).testBit j) = frag := by
  have hlen : (List.range frag).length = frag := length_range
  conv_rhs => rw [← hlen]
  rw [countP_eq_length]
  intro j hj
  rw [testBit_two_pow_sub_one, decide_eq_true_iff]
  exact List.mem_range.mp hj

lemma Cleared.ne_full {frag bits bits' lo : Nat} (h : Cleared bits bits' lo n) (hn : 1 ≤ n) (hin : lo + n ≤ frag) :
    bits' ≠ 2 ^ frag - 1 := by
  rintro rfl
  have hclear := h.inside (le_refl lo) (by omega)
  rw [testBit_two_pow_sub_one, decide_eq_false_iff_not] at hclear
  omega

lemma IsRun.ne_full {frag bits : Nat} (h : IsRun frag bits siz pos) (hlt : siz < frag) : bits ≠ 2 ^ frag - 1 := by
  rintro rfl
  obtain ⟨hin, -, hbefore, hbehind⟩ := h
  rw [testBit_two_pow_sub_one, decide_eq_false_iff_not] at hbehind
  rcases hbefore with hzero | hclear
  · omega
  · rw [testBit_two_pow_sub_one, decide_eq_false_iff_not] at hclear
    omega

lemma bits_eq_zero_iff : L.bits m b = 0 ↔ ∀ j, j < L.g.frag → isset m (b * L.g.frag + j) = false := by
  constructor
  · intro hzero j hj
    rw [← testBit_bits hj, hzero, zero_testBit]
  · intro hclear
    apply eq_of_testBit_eq
    intro j
    rw [zero_testBit]
    by_cases hj : j < L.g.frag
    · rw [testBit_bits hj]
      exact hclear j hj
    · exact Nat.testBit_lt_two_pow (Nat.lt_of_lt_of_le (bits_lt L m b) (Nat.pow_le_pow_right (by decide) (by omega)))

/-- The `n` bits from `lo` on are cleared in a map. -/
def ClearedIn (m m' : ByteMap) (lo n : Nat) : Prop :=
  ∀ j, isset m' j = (isset m j && !decide (lo ≤ j ∧ j < lo + n))

lemma isset_foldl_clrbit (m : ByteMap) (lo n : Nat) :
    ClearedIn m ((List.range n).foldl (fun m i => clrbit m (lo + i)) m) lo n := by
  induction n with
  | zero =>
    intro j
    rw [decide_eq_false (by omega), Bool.not_false, Bool.and_true]
    rfl
  | succ n ih =>
    intro j
    rw [range_succ, foldl_append]
    simp only [foldl_cons, foldl_nil]
    rw [isset_clrbit, ih j]
    by_cases hj : j = lo + n
    · simp [hj]
    · rw [decide_eq_false hj, Bool.not_false, Bool.and_true]
      congr 2
      apply decide_eq_decide.mpr
      omega

lemma isset_foldl_setbit (m : ByteMap) (lo n j : Nat) :
    isset ((List.range n).foldl (fun m i => setbit m (lo + i)) m) j = (isset m j || decide (lo ≤ j ∧ j < lo + n)) := by
  induction n with
  | zero => simp
  | succ n ih =>
    rw [range_succ, foldl_append]
    simp only [foldl_cons, foldl_nil]
    rw [isset_setbit, ih, Bool.or_assoc, ← Bool.decide_or]
    congr 1
    apply decide_eq_decide.mpr
    omega

lemma ClearedIn.bits (h : ClearedIn m m' (b * L.g.frag + pos) n) :
    Cleared (L.bits m b) (L.bits m' b) pos n := by
  intro i
  by_cases hi : i < L.g.frag
  · rw [testBit_bits hi, testBit_bits hi, h]
    congr 2
    apply decide_eq_decide.mpr
    omega
  · have hpow : 2 ^ L.g.frag ≤ 2 ^ i := Nat.pow_le_pow_right (by decide) (by omega)
    rw [Nat.testBit_lt_two_pow (Nat.lt_of_lt_of_le (bits_lt L m' b) hpow),
      Nat.testBit_lt_two_pow (Nat.lt_of_lt_of_le (bits_lt L m b) hpow), Bool.false_and]

lemma ClearedIn.elsewhere (h : ClearedIn m m' (b * L.g.frag + pos) n) (hin : pos + n ≤ L.g.frag) {j : Nat}
    (hj : j / L.g.frag ≠ b) : isset m' j = isset m j := by
  have hout : ¬(b * L.g.frag + pos ≤ j ∧ j < b * L.g.frag + pos + n) := by
    rintro ⟨hle, hlt⟩
    apply hj
    obtain ⟨k, rfl⟩ : ∃ k, j = b * L.g.frag + k := ⟨j - b * L.g.frag, by omega⟩
    exact div_frag L.g.fragSize (by omega)
  rw [h, decide_eq_false hout, Bool.not_false, Bool.and_true]

/-- Block `b` of a group has changed, with `nb` free blocks and `nf` free fragments more that are not counted yet. -/
structure GroupChanges (L : Layout) (b : Nat) (nb nf : Int) (old new : Cg) : Prop where
  elsewhere : ∀ j, j / L.g.frag ≠ b → isset new.blksfree j = isset old.blksfree j
  cs : new.cs = old.cs
  nbfree : nb = whole L.g.frag (L.bits new.blksfree b) - whole L.g.frag (L.bits old.blksfree b)
  nffree : nf = loose L.g.frag (L.bits new.blksfree b) - loose L.g.frag (L.bits old.blksfree b)
  frsum : ∀ siz, 1 ≤ siz → siz < L.g.frag → new.frsum siz = old.frsum siz +
    ((runs L.g.frag (L.bits new.blksfree b) siz : Int) - runs L.g.frag (L.bits old.blksfree b) siz)
  blktot : ∀ cyl, new.blktot cyl = old.blktot cyl + if L.cbtocylno (b * L.g.frag) = cyl then nb else 0
  blks : ∀ cyl pos, new.blks cyl pos = old.blks cyl pos +
    if L.cbtocylno (b * L.g.frag) = cyl ∧ L.cbtorpos (b * L.g.frag) = pos then nb else 0
  bad : new.bad = old.bad

section Counted

variable {nb nf nb' nf' : Int} {f : Cg → Cg}

lemma GroupChanges.count (h : GroupChanges L b nb nf (d.cg c) (f (d.cg c))) (hb : b < L.blocks) :
    Changes L c b nb nf d ((d.setCg c f).count c nb nf) := by
  have hcg : ((d.setCg c f).count c nb nf).cg c = { f (d.cg c) with cs := (d.cg c).cs.add nb nf } := by
    rw [count_cg_self, setCg_cg_self, h.cs]
  refine ⟨hb, fun x hx => ?_, ?_, ?_, rfl, rfl, ?_, ?_, ?_, ?_, ?_, ?_⟩
  · rw [count_cg_ne hx, setCg_cg_ne _ hx]
  all_goals rw [hcg]
  · exact h.elsewhere
  · exact h.nbfree
  · exact h.nffree
  · exact h.frsum
  · exact h.blktot
  · exact h.blks
  · exact h.bad

/-- A block is counted in its cylinder before or after the counts of the group move. -/
lemma count_countBlock (bno : Nat) (k : Int) : ((d.setCg c f).count c nb nf).setCg c (fun cgp => cgp.countBlock L bno k) =
    (d.setCg c fun cgp => (f cgp).countBlock L bno k).count c nb nf := by
  simp only [Disk.setCg, Disk.count, update_self, update_idem]
  rfl

lemma count_count : (d.count c nb nf).count c nb' nf' = d.count c (nb + nb') (nf + nf') := by
  simp only [Disk.count, Csum.add, update_self, update_idem, add_assoc]

end Counted

/-- The counts of runs when `n` fragments of a run of `siz` are taken. -/
def takenRuns (frsum : Nat → Int) (siz n : Nat) : Nat → Int :=
  let less := update frsum siz (frsum siz - 1)
  if n ≠ siz then update less (siz - n) (less (siz - n) + 1) else less

lemma takenRuns_apply (frsum : Nat → Int) (hone : 1 ≤ n) (hle : n ≤ siz) (s : Nat) :
    takenRuns frsum siz n s = frsum s - (if s = siz then 1 else 0) + if n < siz ∧ s = siz - n then 1 else 0 := by
  unfold takenRuns
  by_cases hn : n = siz
  · rw [if_neg (not_not.mpr hn), update_apply, if_neg (show ¬(n < siz ∧ s = siz - n) by omega), add_zero]
    split
    · next hs => rw [hs]
    · rw [sub_zero]
  rw [if_pos hn, update_apply]
  by_cases hs : s = siz - n
  · rw [if_pos hs, if_pos (show n < siz ∧ s = siz - n by omega), if_neg (by omega), sub_zero,
      update_of_ne (by omega), hs]
  · rw [if_neg hs, if_neg (show ¬(n < siz ∧ s = siz - n) by omega), add_zero, update_apply]
    split
    · next heq => rw [heq]
    · rw [sub_zero]

theorem changes_run (hb : b < L.blocks) (hrun : IsRun L.g.frag (L.bits (d.cg c).blksfree b) siz pos)
    (hsiz : siz < L.g.frag) (hone : 1 ≤ n) (hle : n ≤ siz)
    (hmap : ClearedIn (d.cg c).blksfree m' (b * L.g.frag + pos) n) :
    Changes L c b 0 (-n) d ((d.setCg c fun cgp => { cgp with
      blksfree := m', frsum := takenRuns cgp.frsum siz n }).count c 0 (-n)) := by
  have hcl := hmap.bits
  have hin := hrun.1
  have hfull := hrun.ne_full hsiz
  have hfull' := hcl.ne_full hone (show pos + n ≤ L.g.frag by omega)
  have hcount := free_taken (show pos + n ≤ L.g.frag by omega) (fun j hj => hrun.2.1 j (by omega)) hcl
  apply GroupChanges.count _ hb
  constructor
  · intro j hj
    exact hmap.elsewhere (by omega) hj
  · rfl
  · rw [whole_part hfull, whole_part hfull', sub_zero]
  · rw [loose_part hfull, loose_part hfull']
    omega
  · intro s hs _
    dsimp only
    rw [takenRuns_apply _ hone hle, runs_taken hrun hone hle hcl hs]
    omega
  · intro cyl
    rw [ite_self, add_zero]
  · intro cyl p
    rw [ite_self, add_zero]
  · rfl

lemma fragstoblks_mul (L : Layout) (b : Nat) : L.fragstoblks (b * L.g.frag) = b := by
  rw [fragstoblks_eq, Nat.mul_div_cancel b L.g.fragSize.pos]

lemma changes_takeBlock (hb : b < L.blocks) (hfree : L.bits (d.cg c).blksfree b = 2 ^ L.g.frag - 1) :
    Changes L c b (-1) 0 d (takeBlock L c (b * L.g.frag) d).2 := by
  have hf := L.g.fragSize
  have hbits : L.bits (clrblock L.g.frag (d.cg c).blksfree b) b = 0 := by
    rw [bits_eq_zero_iff]
    intro j hj
    rw [isset_clrblock hf, div_frag hf hj, decide_eq_true rfl, Bool.not_true, Bool.and_false]
  unfold takeBlock
  rw [fragstoblks_mul]
  dsimp only
  rw [count_countBlock]
  apply GroupChanges.count _ hb
  constructor
  · intro j hj
    rw [countBlock_blksfree]
    rw [isset_clrblock hf, decide_eq_false hj, Bool.not_false, Bool.and_true]
  · rfl
  · rw [countBlock_blksfree]
    rw [hbits, hfree, whole_zero, whole_full]
    rfl
  · rw [countBlock_blksfree]
    rw [hbits, hfree, loose_zero, loose_full]
    rfl
  · intro s hs hlt
    rw [countBlock_blksfree]
    rw [hbits, hfree, runs_zero _ hs, runs_full L hs hlt, sub_self, add_zero]
    rfl
  · intro cyl
    rw [countBlock_blktot]
  · intro cyl p
    rw [countBlock_blks]
  · rfl

theorem changes_tail (hb : b < L.blocks) (hzero : L.bits (d.cg c).blksfree b = 0) (hone : 1 ≤ n) (hlt : n < L.g.frag)
    (hmap : ∀ j, isset m' j = (isset (d.cg c).blksfree j ||
      decide (b * L.g.frag + n ≤ j ∧ j < b * L.g.frag + n + (L.g.frag - n)))) :
    Changes L c b 0 (L.g.frag - n : Nat) d ((d.setCg c fun cgp => { cgp with
      blksfree := m'
      frsum := update cgp.frsum (L.g.frag - n) (cgp.frsum (L.g.frag - n) + 1) }).count c 0
        (L.g.frag - n : Nat)) := by
  -- the tail is what is left of a whole block
  have hcl : Cleared (2 ^ L.g.frag - 1) (L.bits m' b) 0 n := by
    intro i
    rw [testBit_two_pow_sub_one]
    by_cases hi : i < L.g.frag
    · rw [testBit_bits hi, hmap, bits_eq_zero_iff.mp hzero i hi, decide_eq_true hi, Bool.false_or, Bool.true_and,
        ← decide_not]
      apply decide_eq_decide.mpr
      omega
    · rw [decide_eq_false hi, Bool.false_and]
      exact Nat.testBit_lt_two_pow (Nat.lt_of_lt_of_le (bits_lt L m' b) (Nat.pow_le_pow_right (by decide) (by omega)))
  have hpart := hcl.ne_full hone (show 0 + n ≤ L.g.frag by omega)
  have hcount := free_taken (show 0 + n ≤ L.g.frag by omega) (fun j hj => isRun_full.2.1 j (by omega)) hcl
  rw [countP_full] at hcount
  apply GroupChanges.count _ hb
  constructor
  · intro j hj
    rw [hmap, decide_eq_false, Bool.or_false]
    rintro ⟨hle, hlt'⟩
    apply hj
    obtain ⟨k, rfl⟩ : ∃ k, j = b * L.g.frag + k := ⟨j - b * L.g.frag, by omega⟩
    exact div_frag L.g.fragSize (by omega)
  · rfl
  · rw [hzero, whole_zero, whole_part hpart, sub_zero]
  · rw [hzero, loose_zero, loose_part hpart]
    omega
  · intro s hs hsf
    have hruns := runs_taken isRun_full hone (le_of_lt hlt) hcl hs
    rw [runs_full L hs hsf, if_neg (Nat.ne_of_lt hsf)] at hruns
    dsimp only
    rw [hzero, runs_zero _ hs, hruns, update_apply]
    by_cases hrest : s = L.g.frag - n
    · rw [if_pos hrest, if_pos ⟨hlt, hrest⟩, hrest]
      simp
    · rw [if_neg hrest, if_neg fun h => hrest h.2]
      simp
  · intro cyl
    rw [ite_self, add_zero]
  · intro cyl p
    rw [ite_self, add_zero]
  · rfl

lemma changes_freeBlock (hb : b < L.blocks) (hzero : L.bits (d.cg c).blksfree b = 0) :
    Changes L c b 1 0 d ((d.setCg c fun cgp =>
      ({ cgp with blksfree := setblock L.g.frag cgp.blksfree b } : Cg).countBlock L (b * L.g.frag) 1).count c 1 0) := by
  have hf := L.g.fragSize
  have hbits : L.bits (setblock L.g.frag (d.cg c).blksfree b) b = 2 ^ L.g.frag - 1 := by
    rw [bits_full_iff]
    intro j hj
    rw [isset_setblock hf, div_frag hf hj, decide_eq_true rfl, Bool.or_true]
  apply GroupChanges.count _ hb
  constructor
  · intro j hj
    rw [countBlock_blksfree]
    rw [isset_setblock hf, decide_eq_false hj, Bool.or_false]
  · rfl
  · rw [countBlock_blksfree]
    rw [hbits, hzero, whole_zero, whole_full]
    rfl
  · rw [countBlock_blksfree]
    rw [hbits, hzero, loose_zero, loose_full]
    rfl
  · intro s hs hlt
    rw [countBlock_blksfree]
    rw [hbits, hzero, runs_zero _ hs, runs_full L hs hlt, sub_self, add_zero]
    rfl
  · intro cyl
    rw [countBlock_blktot]
  · intro cyl p
    rw [countBlock_blks]
  · rfl

lemma fragacct_again (frsum : Nat → Int) {s : Nat} (hs : 1 ≤ s) (hlt : s < L.g.frag) :
    fragacct L.g.frag (L.bits m' b) (fragacct L.g.frag (L.bits m b) frsum (-1)) 1 s =
      frsum s + ((runs L.g.frag (L.bits m' b) s : Int) - runs L.g.frag (L.bits m b) s) := by
  unfold fragacct
  rw [if_pos ⟨hs, hlt⟩, if_pos ⟨hs, hlt⟩,
    fragCount_eq_runs L.g.frag L.g.fragSize _ (bits_lt L m b) s hlt hs,
    fragCount_eq_runs L.g.frag L.g.fragSize _ (bits_lt L m' b) s hlt hs]
  omega

section Fragments

variable (hb : b < L.blocks) (hone : 1 ≤ n) (hin : pos + n ≤ L.g.frag)
  (hmap : ClearedIn m' (d.cg c).blksfree (b * L.g.frag + pos) n)
  (hset : ∀ j, j < n → isset m' (b * L.g.frag + (pos + j)) = true)

include hb hone hin hmap hset in
lemma changes_freeFrags (hpart : L.bits m' b ≠ 2 ^ L.g.frag - 1) :
    Changes L c b 0 n d ((d.setCg c fun cgp => { cgp with
      blksfree := m'
      frsum := fragacct L.g.frag (L.bits m' b) (fragacct L.g.frag (L.bits (d.cg c).blksfree b) cgp.frsum (-1)) 1 }).count
        c 0 n) := by
  have hcl := hmap.bits
  have hcount := free_taken hin (fun j hj => by rw [testBit_bits (by omega)]; exact hset j hj) hcl
  have hpart' := hcl.ne_full hone hin
  apply GroupChanges.count _ hb
  constructor
  · intro j hj
    exact (hmap.elsewhere hin hj).symm
  · rfl
  · dsimp only
    rw [whole_part hpart, whole_part hpart', sub_zero]
  · dsimp only
    rw [loose_part hpart, loose_part hpart']
    omega
  · intro s hs hlt
    exact fragacct_again _ hs hlt
  · intro cyl
    rw [ite_self, add_zero]
  · intro cyl p
    rw [ite_self, add_zero]
  · rfl

include hb hone hin hmap hset in
lemma changes_reassemble (hfull : L.bits m' b = 2 ^ L.g.frag - 1) :
    Changes L c b (0 + 1) (n + -L.g.frag) d ((((d.setCg c fun cgp => { cgp with
      blksfree := m'
      frsum := fragacct L.g.frag (L.bits m' b) (fragacct L.g.frag (L.bits (d.cg c).blksfree b) cgp.frsum (-1)) 1 }).count
        c 0 n).setCg c fun cgp => cgp.countBlock L (b * L.g.frag) 1).count c 1 (-L.g.frag)) := by
  have hcl := hmap.bits
  have hcount := free_taken hin (fun j hj => by rw [testBit_bits (by omega)]; exact hset j hj) hcl
  have hpart := hcl.ne_full hone hin
  rw [hfull, countP_full] at hcount
  rw [count_countBlock, count_count]
  apply GroupChanges.count _ hb
  constructor
  · intro j hj
    rw [countBlock_blksfree]
    exact (hmap.elsewhere hin hj).symm
  · rfl
  · rw [countBlock_blksfree]
    dsimp only
    rw [hfull, whole_full, whole_part hpart]
    rfl
  · rw [countBlock_blksfree]
    dsimp only
    rw [hfull, loose_full, loose_part hpart]
    omega
  · intro s hs hlt
    rw [countBlock_blksfree]
    exact fragacct_again _ hs hlt
  · intro cyl
    rw [countBlock_blktot]
    rfl
  · intro cyl p
    rw [countBlock_blks]
    rfl
  · rfl

end Fragments

end Solaris.Ufs
