import Solaris.Ufs.Accounting

/-!
# Freeing space

`free` of a whole block looks at the block before it changes anything.
-/

namespace Solaris.Ufs

open Function Nat

variable {L : Layout} {d : Disk} {m : ByteMap} {b n j c : Nat}

lemma fragnum_eq (L : Layout) (b : Nat) : L.fragnum b = b % L.g.frag :=
  Nat.and_two_pow_sub_one_eq_mod b L.g.fragshift

lemma fragstoblks_eq (L : Layout) (b : Nat) : L.fragstoblks b = b / L.g.frag :=
  Nat.shiftRight_eq_div_pow b L.g.fragshift

lemma fragoff_eq (L : Layout) (size : Nat) : L.fragoff size = size % L.g.fsize :=
  Nat.and_two_pow_sub_one_eq_mod size L.g.fshift

lemma freeFrags_mono (h : isset m j = true) : isset (freeFrags m b n).1 j = true := by
  induction n generalizing m b with
  | zero => exact h
  | succ n ih =>
    unfold freeFrags
    split
    · exact h
    · apply ih
      rw [isset_setbit, h, Bool.true_or]

lemma freeFrags_first (hn : 0 < n) (h : isset m b = false) : isset (freeFrags m b n).1 b = true := by
  obtain ⟨n, rfl⟩ : ∃ k, n = k + 1 := ⟨n - 1, by omega⟩
  unfold freeFrags
  rw [if_neg (by rw [h]; exact Bool.false_ne_true)]
  apply freeFrags_mono
  rw [isset_setbit]
  simp

lemma freeFrags_meets (h : ∃ i, i < n ∧ isset m (b + i) = true) : (freeFrags m b n).2 = false := by
  induction n generalizing m b with
  | zero =>
    omega
  | succ n ih =>
    unfold freeFrags
    split
    · rfl
    · next hclear =>
      obtain ⟨i, hi, hset⟩ := h
      obtain ⟨k, rfl⟩ : ∃ k, i = k + 1 := by
        refine ⟨i - 1, ?_⟩
        by_contra hne
        have hzero : i = 0 := by omega
        rw [hzero] at hset
        exact hclear hset
      refine ih ⟨k, by omega, ?_⟩
      rw [isset_setbit, show b + 1 + k = b + (k + 1) by omega, hset, Bool.true_or]

lemma freeFrags_clear (h : ∀ i, i < n → isset m (b + i) = false) :
    (freeFrags m b n).2 = true ∧
      ∀ j, isset (freeFrags m b n).1 j = (isset m j || decide (b ≤ j ∧ j < b + n)) := by
  induction n generalizing m b with
  | zero =>
    refine ⟨rfl, fun j => ?_⟩
    have hno : ¬(b ≤ j ∧ j < b + 0) := by omega
    rw [decide_eq_false hno, Bool.or_false]
    rfl
  | succ n ih =>
    have hfirst : ¬isset m b = true := by
      have hzero := h 0 (by omega)
      rw [add_zero] at hzero
      rw [hzero]
      exact Bool.false_ne_true
    have hrest : ∀ i, i < n → isset (setbit m b) (b + 1 + i) = false := by
      intro i hi
      rw [isset_setbit, show b + 1 + i = b + (i + 1) by omega, h (i + 1) (by omega), decide_eq_false (by omega)]
      rfl
    unfold freeFrags
    rw [if_neg hfirst]
    obtain ⟨hdone, hbits⟩ := ih hrest
    refine ⟨hdone, fun j => ?_⟩
    rw [hbits j, isset_setbit, Bool.or_assoc, ← Bool.decide_or]
    congr 2
    apply propext
    omega

lemma fragCount_full : ∀ frag ∈ [1, 2, 4, 8], ∀ siz, siz < frag → 1 ≤ siz → fragCount frag (2 ^ frag - 1) siz = 0 := by
  decide +kernel

lemma exists_fragCount : ∀ frag ∈ [1, 2, 4, 8], ∀ map, map < 2 ^ frag → map ≠ 0 → map ≠ 2 ^ frag - 1 →
    ∃ siz, siz < frag ∧ 1 ≤ siz ∧ fragCount frag map siz ≠ 0 := by
  decide +kernel

lemma setCg_self {f : Cg → Cg} (h : f (d.cg c) = d.cg c) : d.setCg c f = d := by
  unfold Disk.setCg
  rw [h, update_eq_self]

lemma setCg_blksfree {f : Cg → Cg} (x : Nat) :
    ((d.setCg c f).cg x).blksfree = if x = c then (f (d.cg c)).blksfree else (d.cg x).blksfree := by
  unfold Disk.setCg
  by_cases hx : x = c
  · subst hx
    rw [if_pos rfl]
    simp only [update_self]
  · rw [if_neg hx]
    simp only [update_of_ne hx]

lemma count_blksfree (nb nf : Int) (x : Nat) : ((d.count c nb nf).cg x).blksfree = (d.cg x).blksfree := by
  unfold Disk.count
  by_cases hx : x = c
  · subst hx
    simp only [update_self]
  · simp only [update_of_ne hx]

lemma countBlock_blksfree (cgp : Cg) (b : Nat) (n : Int) : (cgp.countBlock L b n).blksfree = cgp.blksfree := rfl

/-- The sizes that callers pass: whole fragments, and for a whole block the first fragment of it. -/
structure LegalFree (L : Layout) (bno size : Nat) : Prop where
  pos : 0 < size
  le : size ≤ L.g.bsize
  whole : L.g.fsize ∣ size
  aligned : size = L.g.bsize → L.g.frag ∣ L.dtogd bno

def MeetsFree (L : Layout) (d : Disk) (bno size : Nat) : Prop :=
  ∃ i, i < L.g.numfrags size ∧ isset (d.cg (L.dtog bno)).blksfree (L.dtogd bno + i) = true

def FreesRange (L : Layout) (d d' : Disk) (bno size : Nat) : Prop :=
  ∀ x j, isset (d'.cg x).blksfree j =
    (isset (d.cg x).blksfree j ||
      decide (x = L.dtog bno ∧ L.dtogd bno ≤ j ∧ j < L.dtogd bno + L.g.numfrags size))

/-- A range with a free fragment is reported and nothing changes, any other range becomes free. -/
def FreesCleanly (L : Layout) (d : Disk) (bno size : Nat) : Prop :=
  (MeetsFree L d bno size → (free L d bno size).1 ≠ none ∧ (free L d bno size).2 = d) ∧
    (¬MeetsFree L d bno size → (free L d bno size).1 = none ∧ FreesRange L d (free L d bno size).2 bno size)

variable {bno size : Nat}

lemma LegalFree.accepted (hlegal : LegalFree L bno size) : ¬(L.g.bsize < size ∨ L.fragoff size ≠ 0) := by
  rw [fragoff_eq, mod_eq_zero_of_dvd hlegal.whole]
  have := hlegal.le
  omega

section

variable (hlegal : LegalFree L bno size) (hgood : (d.cg (L.dtog bno)).bad = false)

include hlegal hgood

lemma free_block (hsize : size = L.g.bsize) : FreesCleanly L d bno size := by
  have hf := L.g.fragSize
  have hn : L.g.numfrags size = L.g.frag := by rw [hsize, numfrags_bsize]
  obtain ⟨h, hb⟩ := hlegal.aligned hsize
  have hblk : L.fragstoblks (L.dtogd bno) = h := by
    rw [fragstoblks_eq, hb, Nat.mul_div_cancel_left _ hf.pos]
  have hstart : L.dtogd bno = h * L.g.frag := by rw [hb, Nat.mul_comm]
  unfold FreesCleanly MeetsFree FreesRange free
  rw [if_neg hlegal.accepted]
  rw [if_neg (by rw [hgood]; exact Bool.false_ne_true), if_pos hsize, hblk, hn]
  by_cases hclr : isclrblock L.g.frag (d.cg (L.dtog bno)).blksfree h = true
  · rw [if_pos hclr]
    have hclear := (isclrblock_iff hf).mp hclr
    refine ⟨fun hmeets => ?_, fun _ => ⟨rfl, ?_⟩⟩
    · obtain ⟨i, hi, hset⟩ := hmeets
      rw [hstart, hclear i hi] at hset
      exact absurd hset Bool.false_ne_true
    · intro x j
      rw [count_blksfree, setCg_blksfree]
      by_cases hx : x = L.dtog bno
      · rw [if_pos hx, countBlock_blksfree, isset_setblock hf, hx]
        congr 2
        apply propext
        have hpos := hf.pos
        rw [hstart, Nat.div_eq_iff hpos]
        omega
      · rw [if_neg hx, decide_eq_false (fun h => hx h.1), Bool.or_false]
  · rw [if_neg hclr]
    refine ⟨fun _ => ⟨by simp, rfl⟩, fun hno => absurd ?_ hclr⟩
    apply (isclrblock_iff hf).mpr
    intro i hi
    by_contra hset
    exact hno ⟨i, hi, by rw [hstart]; exact Bool.eq_true_of_not_eq_false hset⟩

lemma free_frags_meets (hsize : size ≠ L.g.bsize) (hmeets : MeetsFree L d bno size) :
    free L d bno size = (some .freeFrag, d.setCg (L.dtog bno) fun cgp => { cgp with
      blksfree := (freeFrags (d.cg (L.dtog bno)).blksfree (L.dtogd bno) (L.g.numfrags size)).1
      frsum := fragacct L.g.frag
        (blkmap L.g.frag (d.cg (L.dtog bno)).blksfree (L.dtogd bno - L.fragnum (L.dtogd bno)))
        (d.cg (L.dtog bno)).frsum (-1) }) := by
  unfold free
  rw [if_neg hlegal.accepted]
  dsimp only
  rw [if_neg (by rw [hgood]; exact Bool.false_ne_true), if_neg hsize, freeFrags_meets hmeets]
  rfl

lemma free_frags_clear (hsize : size ≠ L.g.bsize) (hno : ¬MeetsFree L d bno size) :
    (free L d bno size).1 = none ∧ FreesRange L d (free L d bno size).2 bno size := by
  have hclear : ∀ i, i < L.g.numfrags size → isset (d.cg (L.dtog bno)).blksfree (L.dtogd bno + i) = false := by
    intro i hi
    exact Bool.eq_false_of_not_eq_true fun hset => hno ⟨i, hi, hset⟩
  obtain ⟨hdone, hbits⟩ := freeFrags_clear hclear
  have hmap : ∀ x j, isset (if x = L.dtog bno then
      (freeFrags (d.cg (L.dtog bno)).blksfree (L.dtogd bno) (L.g.numfrags size)).1 else (d.cg x).blksfree) j =
      (isset (d.cg x).blksfree j ||
        decide (x = L.dtog bno ∧ L.dtogd bno ≤ j ∧ j < L.dtogd bno + L.g.numfrags size)) := by
    intro x j
    by_cases hx : x = L.dtog bno
    · rw [if_pos hx, hbits j, hx]
      simp
    · rw [if_neg hx, decide_eq_false (fun h => hx h.1), Bool.or_false]
  unfold FreesRange free
  rw [if_neg hlegal.accepted]
  dsimp only
  rw [if_neg (by rw [hgood]; exact Bool.false_ne_true), if_neg hsize, hdone, if_pos rfl]
  split
  · refine ⟨rfl, fun x j => ?_⟩
    rw [count_blksfree, setCg_blksfree]
    rw [← hmap x j]
    by_cases hx : x = L.dtog bno
    · rw [if_pos hx, if_pos hx, countBlock_blksfree, count_blksfree, setCg_blksfree, if_pos rfl]
    · rw [if_neg hx, if_neg hx, count_blksfree, setCg_blksfree, if_neg hx]
  · refine ⟨rfl, fun x j => ?_⟩
    rw [count_blksfree, setCg_blksfree]
    exact hmap x j

end

/-- The block that holds the first fragment of the range is wholly free. -/
def BlockFree (L : Layout) (d : Disk) (bno : Nat) : Prop :=
  ∀ j, j < L.g.frag → isset (d.cg (L.dtog bno)).blksfree (L.dtogd bno / L.g.frag * L.g.frag + j) = true

lemma bbase_eq (L : Layout) (b : Nat) : b - L.fragnum b = b / L.g.frag * L.g.frag := by
  rw [fragnum_eq, mul_comm]
  have := div_add_mod b L.g.frag
  omega

section

variable (hlegal : LegalFree L bno size) (hgood : (d.cg (L.dtog bno)).bad = false) (hsize : size ≠ L.g.bsize)
  (hmeets : MeetsFree L d bno size)

include hlegal hgood hsize hmeets

/-- Fragments of a free block: the counts of runs do not mention it, and the first fragment stops the loop. -/
theorem free_frags_whole (hwhole : BlockFree L d bno) :
    (free L d bno size).2 = d := by
  have hf := L.g.fragSize
  have hbits : blkmap L.g.frag (d.cg (L.dtog bno)).blksfree (L.dtogd bno / L.g.frag * L.g.frag) =
      2 ^ L.g.frag - 1 := blkmap_full hf (Dvd.intro_left _ rfl) hwhole
  have hfirst : isset (d.cg (L.dtog bno)).blksfree (L.dtogd bno) = true := by
    have hlast := hwhole (L.dtogd bno % L.g.frag) (mod_lt _ hf.pos)
    rw [mul_comm, div_add_mod] at hlast
    exact hlast
  have hstop : (freeFrags (d.cg (L.dtog bno)).blksfree (L.dtogd bno) (L.g.numfrags size)).1 =
      (d.cg (L.dtog bno)).blksfree := by
    cases L.g.numfrags size with
    | zero => rfl
    | succ n =>
      unfold freeFrags
      rw [if_pos hfirst]
  have hfrsum : fragacct L.g.frag (2 ^ L.g.frag - 1) (d.cg (L.dtog bno)).frsum (-1) = (d.cg (L.dtog bno)).frsum := by
    funext siz
    unfold fragacct
    split
    · next hsiz =>
      rw [fragCount_full L.g.frag hf siz hsiz.2 hsiz.1]
      simp
    · rfl
  rw [free_frags_meets hlegal hgood hsize hmeets]
  dsimp only
  apply setCg_self
  rw [bbase_eq, hbits, hfrsum, hstop]

lemma free_frags_damage (hpart : ¬BlockFree L d bno) :
    (free L d bno size).2 ≠ d := by
  have hf := L.g.fragSize
  rw [free_frags_meets hlegal hgood hsize hmeets]
  intro heq
  have hcg := congrFun (congrArg Disk.cg heq) (L.dtog bno)
  simp only [Disk.setCg, update_self] at hcg
  have hn : 0 < L.g.numfrags size := by
    obtain ⟨i, hi, -⟩ := hmeets
    omega
  by_cases hfirst : isset (d.cg (L.dtog bno)).blksfree (L.dtogd bno) = true
  · -- the histogram has lost a run of the block
    have hne : blkmap L.g.frag (d.cg (L.dtog bno)).blksfree (L.dtogd bno / L.g.frag * L.g.frag) ≠ 0 := by
      intro hz
      have hbit := testBit_blkmap (a := (d.cg (L.dtog bno)).blksfree) hf
        (Dvd.intro_left (L.dtogd bno / L.g.frag) rfl) (mod_lt (L.dtogd bno) hf.pos)
      rw [hz, zero_testBit, mul_comm, div_add_mod, hfirst] at hbit
      exact Bool.false_ne_true hbit
    have hnotfull : blkmap L.g.frag (d.cg (L.dtog bno)).blksfree (L.dtogd bno / L.g.frag * L.g.frag) ≠
        2 ^ L.g.frag - 1 := by
      intro hfull
      apply hpart
      intro j hj
      rw [← testBit_blkmap hf (Dvd.intro_left (L.dtogd bno / L.g.frag) rfl) hj, hfull,
        testBit_two_pow_sub_one, decide_eq_true hj]
    have hlt : blkmap L.g.frag (d.cg (L.dtog bno)).blksfree (L.dtogd bno / L.g.frag * L.g.frag) < 2 ^ L.g.frag :=
      blkbits_lt hf _ _
    obtain ⟨siz, hsiz, hone, hcount⟩ := exists_fragCount L.g.frag hf _ hlt hne hnotfull
    have hfr := congrFun (congrArg Cg.frsum hcg) siz
    simp only [bbase_eq, fragacct, if_pos (And.intro hone hsiz)] at hfr
    omega
  · -- the first fragment of the range has become free
    have hset := freeFrags_first hn (Bool.eq_false_of_not_eq_true hfirst)
    have hblks := congrArg Cg.blksfree hcg
    dsimp only at hblks
    rw [hblks] at hset
    exact hfirst hset

end

/-- Freeing rejects without damage exactly when it frees a whole block, or the range is allocated, or the block of the
range is wholly free. -/
theorem free_clean_iff (hlegal : LegalFree L bno size) (hgood : (d.cg (L.dtog bno)).bad = false) :
    FreesCleanly L d bno size ↔ size = L.g.bsize ∨ ¬MeetsFree L d bno size ∨ BlockFree L d bno := by
  constructor
  · intro hclean
    by_contra hcond
    obtain ⟨hsize, hrest⟩ := not_or.mp hcond
    obtain ⟨hmeets, hpart⟩ := not_or.mp hrest
    rw [not_not] at hmeets
    exact free_frags_damage hlegal hgood hsize hmeets hpart (hclean.1 hmeets).2
  · intro hcond
    by_cases hsize : size = L.g.bsize
    · exact free_block hlegal hgood hsize
    refine ⟨fun hmeets => ?_, fun hno => free_frags_clear hlegal hgood hsize hno⟩
    have hwhole : BlockFree L d bno := by
      rcases hcond with h | h | h
      · exact absurd h hsize
      · exact absurd hmeets h
      · exact h
    refine ⟨?_, free_frags_whole hlegal hgood hsize hmeets hwhole⟩
    rw [free_frags_meets hlegal hgood hsize hmeets]
    simp

lemma sample_legalFree : LegalFree sampleLayout 10 2048 where
  pos := by decide
  le := by decide
  whole := by decide
  aligned := by decide

theorem free_clean_sample : FreesCleanly sampleLayout sampleDisk 10 2048 := by
  refine (free_clean_iff sample_legalFree rfl).mpr (.inr (.inl ?_))
  unfold MeetsFree
  decide

/-- The first fragment of the range is allocated and the second one is free. -/
theorem free_not_clean : ¬∀ (L : Layout) (d : Disk) (bno size : Nat), Consistent L d →
    (d.cg (L.dtog bno)).bad = false → LegalFree L bno size → FreesCleanly L d bno size := by
  intro hall
  have hclean := hall sampleLayout sampleDisk 8 2048 sampleDisk_consistent rfl
    ⟨by decide, by decide, by decide, by decide⟩
  have hmeets : MeetsFree sampleLayout sampleDisk 8 2048 := ⟨1, by decide, by decide⟩
  have hsame := (hclean.1 hmeets).2
  have hbit : isset ((free sampleLayout sampleDisk 8 2048).2.cg 0).blksfree 8 = true := by decide +kernel
  rw [hsame] at hbit
  exact absurd hbit (by decide)

end Solaris.Ufs
