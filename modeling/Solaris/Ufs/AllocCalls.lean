import Solaris.Ufs.SpaceTaken

/-!
# The calls

`alloc`, `realloccg` and `free` on the maps and counters of a file system. The address 0 stands for a failure, so
that the first fragment of the disk must not be free for the answers to be right.
-/

namespace Solaris.Ufs

open List Nat Nat Function

variable {L : Layout} {d d' : Disk} {c b n a : Nat}

/-- What a call that looks for `n` fragments in all groups leaves. -/
structure Allocated (L : Layout) (n : Nat) (d : Disk) (r : Nat × Disk) : Prop where
  balanced : Balanced L r.2
  found : r.1 ≠ 0 → ∃ d₁, (isset (d.cg 0).blksfree 0 = false → SameSpace d d₁) ∧ Takes L d₁ r.2 r.1 n ∧
    (r.2.cg (L.dtog r.1)).bad = false
  missed : isset (d.cg 0).blksfree 0 = false → r.1 = 0 → SameSpace d r.2

lemma Allocated.nothing (hbal : Balanced L d) : Allocated L n d (0, d) :=
  ⟨hbal, fun hne => absurd rfl hne, fun _ _ => SameSpace.rfl⟩

lemma Allocated.after {d₁ : Disk} {r : Nat × Disk} (h : Allocated L n d (0, d₁)) (h' : Allocated L n d₁ r) :
    Allocated L n d r where
  balanced := h'.balanced
  found := by
    intro hne
    obtain ⟨d2, hsame2, htakes, hbad⟩ := h'.found hne
    refine ⟨d2, fun hboot => ?_, htakes, hbad⟩
    have hsame := h.missed hboot rfl
    exact hsame.trans (hsame2 (by rw [hsame.blksfree]; exact hboot))
  missed := by
    intro hboot hzero
    have hsame := h.missed hboot rfl
    exact hsame.trans (h'.missed (by rw [hsame.blksfree]; exact hboot) hzero)

section Groups

variable {ncg : Nat} {allocator : Nat → Nat → Disk → Nat × Disk}
  (hall : ∀ c pref d, c < ncg → Balanced L d → Allocated L n d (allocator c pref d))

include hall

lemma rehash_allocated (fuel i : Nat) {cg : Nat} (hcg : cg < ncg) (hbal : Balanced L d) :
    Allocated L n d (rehash ncg allocator fuel i cg d) := by
  induction fuel generalizing i cg d with
  | zero => exact Allocated.nothing hbal
  | succ fuel ih =>
    unfold rehash
    split
    · next hi =>
      have hnext : (if ncg ≤ cg + i then cg + i - ncg else cg + i) < ncg := by
        split <;> omega
      have hasked := hall _ 0 d hnext hbal
      dsimp only
      split
      · next d₁ heq =>
        rw [heq] at hasked
        exact hasked.after (ih _ hnext hasked.balanced)
      · next heq =>
        rw [heq] at hasked
        exact hasked
    · exact Allocated.nothing hbal

lemma bruteForce_allocated {k cg : Nat} (hcg : cg < ncg) (hbal : Balanced L d) :
    Allocated L n d (bruteForce ncg allocator k cg d) := by
  induction k generalizing cg d with
  | zero => exact Allocated.nothing hbal
  | succ k ih =>
    have hasked := hall cg 0 d hcg hbal
    have hnext : (if cg + 1 = ncg then 0 else cg + 1) < ncg := by
      split <;> omega
    unfold bruteForce
    split
    · next d₁ heq =>
      rw [heq] at hasked
      exact hasked.after (ih hnext hasked.balanced)
    · next heq =>
      rw [heq] at hasked
      exact hasked

lemma hashalloc_allocated {cg : Nat} (hcg : cg < ncg) (pref : Nat) (hbal : Balanced L d) :
    Allocated L n d (hashalloc ncg allocator cg pref d) := by
  have hasked := hall cg pref d hcg hbal
  unfold hashalloc
  split
  · next d₁ heq =>
    rw [heq] at hasked
    have hrehash := rehash_allocated hall ncg 1 hcg hasked.balanced
    split
    · next d2 heq' =>
      rw [heq'] at hrehash
      exact hasked.after (hrehash.after (bruteForce_allocated hall (mod_lt _ (by omega)) hrehash.balanced))
    · next heq' =>
      rw [heq'] at hrehash
      exact hasked.after hrehash
  · next heq =>
    rw [heq] at hasked
    exact hasked

end Groups

lemma alloccg_allocated_any {size : Nat} (hsize : LegalSize L size) (c pref : Nat) (d : Disk) (hc : c < L.ncg)
    (hbal : Balanced L d) : Allocated L (L.g.numfrags size) d (alloccg L c pref size d) := by
  have h := alloccg_allocated hbal hc hsize pref
  refine ⟨h.balanced, fun hne => ?_, h.missed⟩
  obtain ⟨hg, htakes⟩ := h.found hne
  refine ⟨d, fun _ => SameSpace.rfl, htakes, ?_⟩
  rw [hg, h.bad]
  exact alloccg_readable hne

/-- What `alloc` leaves: an address, or an error and the space as it was. -/
structure AllocDone (L : Layout) (n : Nat) (d : Disk) (r : Except Errno Nat) (d' : Disk) : Prop where
  balanced : Balanced L d'
  found : isset (d.cg 0).blksfree 0 = false → ∀ b, r = .ok b → b ≠ 0 ∧ Takes L d d' b n
  missed : isset (d.cg 0).blksfree 0 = false → ∀ e, r = .error e → SameSpace d d'

lemma AllocDone.failed (hbal : Balanced L d) (e : Errno) : AllocDone L n d (.error e) d :=
  ⟨hbal, fun _ _ h => (by cases h), fun _ _ _ => SameSpace.rfl⟩

lemma alloc_done (hbal : Balanced L d) {size ino : Nat} (hsize : LegalSize L size) (hino : ino < L.ncg * L.ipg)
    (q : Quota) (bpref uid : Nat) :
    AllocDone L (L.g.numfrags size) d (alloc L d q ino bpref size uid).1 (alloc L d q ino bpref size uid).2.1 := by
  unfold alloc
  rw [if_neg hsize.accepted]
  split
  · exact AllocDone.failed hbal _
  split
  · exact AllocDone.failed hbal _
  split
  · exact AllocDone.failed hbal _
  dsimp only
  have hsearch := hashalloc_allocated (alloccg_allocated_any hsize) (preferred_group hino bpref)
    (if L.size ≤ bpref then 0 else bpref) hbal
  split
  · next d₁ heq =>
    rw [heq] at hsearch
    exact ⟨hsearch.balanced, fun _ _ h => (by cases h), fun hboot _ _ => hsearch.missed hboot rfl⟩
  · next bno d₁ hne heq =>
    rw [heq] at hsearch
    refine ⟨hsearch.balanced, fun hboot b hb => ?_, fun _ _ h => (by cases h)⟩
    cases hb
    obtain ⟨d2, hsame, htakes, -⟩ := hsearch.found hne
    exact ⟨hne, htakes.of_same (hsame hboot)⟩

/-- Whole fragments of one block from `bno` on, all of them allocated. -/
structure Extent (L : Layout) (d : Disk) (bno size : Nat) : Prop where
  legal : LegalSize L size
  group : L.dtog bno < L.ncg
  block : L.dtogd bno % L.g.frag + L.g.numfrags size ≤ L.g.frag
  held : ∀ i, i < L.g.numfrags size → isset (d.cg (L.dtog bno)).blksfree (L.dtogd bno + i) = false

lemma fragnum_group (L : Layout) (b : Nat) : L.fragnum b = L.dtogd b % L.g.frag := by
  rw [fragnum_eq]
  exact (mod_mod_of_dvd b L.frag_dvd).symm

lemma run_behind {m : ByteMap} {pos old new : Nat} (hone : 1 ≤ old) (hlt : old < new) (hin : pos + new ≤ L.g.frag)
    (hheld : isset m (b * L.g.frag + (pos + (old - 1))) = false)
    (hfree : ∀ i, i < new - old → isset m (b * L.g.frag + pos + (old + i)) = true) :
    ∃ i, i = ((List.range (L.g.frag - pos - new)).find? fun k =>
        isset m (b * L.g.frag + pos + (new + k)) = false).elim (max new (L.g.frag - pos)) (new + ·) ∧
      new ≤ i ∧ IsRun L.g.frag (L.bits m b) (i - old) (pos + old) := by
  have hbefore : pos + old = 0 ∨ (L.bits m b).testBit (pos + old - 1) = false := by
    right
    rw [show pos + old - 1 = pos + (old - 1) by omega, testBit_bits (by omega)]
    exact hheld
  cases hfind : (range (L.g.frag - pos - new)).find? fun k => isset m (b * L.g.frag + pos + (new + k)) = false with
  | none =>
    refine ⟨L.g.frag - pos, ?_, by omega, by omega, fun j hj => ?_, hbefore, ?_⟩
    · simp only [Option.elim]
      omega
    · rw [testBit_bits (by omega), ← Nat.add_assoc, ← Nat.add_assoc, Nat.add_assoc _ old]
      by_cases hj' : j < new - old
      · exact hfree j hj'
      · have hnone := find?_eq_none.mp hfind (old + j - new) (mem_range.mpr (by omega))
        rw [Nat.add_sub_cancel' (by omega)] at hnone
        simpa using hnone
    · rw [show pos + old + (L.g.frag - pos - old) = L.g.frag by omega]
      exact testBit_lt_two_pow (bits_lt L m b)
  | some k =>
    have hk := mem_range.mp (mem_of_find?_eq_some hfind)
    have hclear := find?_some hfind
    rw [decide_eq_true_eq] at hclear
    refine ⟨new + k, rfl, by omega, by omega, fun j hj => ?_, hbefore, ?_⟩
    · rw [testBit_bits (by omega), ← Nat.add_assoc, ← Nat.add_assoc, Nat.add_assoc _ old]
      by_cases hj' : j < new - old
      · exact hfree j hj'
      have hfirst := find?_eq_some_iff_getElem.mp hfind
      obtain ⟨-, i, hi, hik, hbelow⟩ := hfirst
      rw [getElem_range] at hik
      have hset := hbelow (old + j - new) (by omega)
      rw [getElem_range, Nat.add_sub_cancel' (by omega)] at hset
      simpa using hset
    · rw [testBit_bits (by omega), show pos + old + (new + k - old) = pos + (new + k) by omega, ← Nat.add_assoc]
      exact hclear

lemma extendedRuns {frsum : Nat → Int} {old new i : Nat} (hlt : old < new) (hge : new ≤ i) :
    (if i ≠ new then update (update frsum (i - old) (frsum (i - old) - 1)) (i - new)
        (update frsum (i - old) (frsum (i - old) - 1) (i - new) + 1)
      else update frsum (i - old) (frsum (i - old) - 1)) = takenRuns frsum (i - old) (new - old) := by
  unfold takenRuns
  rw [show i - old - (new - old) = i - new by omega]
  exact if_congr (by omega) rfl rfl

theorem fragextend_done (hbal : Balanced L d) {bprev osize nsize : Nat} (hext : Extent L d bprev osize)
    (hsize : LegalSize L nsize) (hlt : osize < nsize) :
    (fragextend L (L.dtog bprev) bprev osize nsize d = (0, d)) ∨
      (fragextend L (L.dtog bprev) bprev osize nsize d).1 = bprev ∧
        Balanced L (fragextend L (L.dtog bprev) bprev osize nsize d).2 ∧
        Takes L d (fragextend L (L.dtog bprev) bprev osize nsize d).2 (bprev + L.g.numfrags osize)
          (L.g.numfrags nsize - L.g.numfrags osize) := by
  have hf := L.g.fragSize
  obtain ⟨hold, -, -⟩ := hext.legal.numfrags
  obtain ⟨hnew, hnewle, -⟩ := hsize.numfrags
  have hmore : L.g.numfrags osize < L.g.numfrags nsize := by
    obtain ⟨x, rfl⟩ := hext.legal.whole
    obtain ⟨y, rfl⟩ := hsize.whole
    rw [numfrags_eq, numfrags_eq, Nat.mul_div_cancel_left x fsize_pos, Nat.mul_div_cancel_left y fsize_pos]
    exact Nat.lt_of_mul_lt_mul_left hlt
  unfold fragextend
  split
  · exact .inl rfl
  dsimp only
  split
  · exact .inl rfl
  next hbound =>
  split
  · exact .inl rfl
  split
  · exact .inl rfl
  split
  · exact .inl rfl
  next hrange =>
  right
  -- the place of the extent in its block
  have hin : L.dtogd bprev % L.g.frag + L.g.numfrags nsize ≤ L.g.frag := by
    rw [fragnum_group L bprev] at hbound
    rw [fragnum_eq] at hbound
    by_contra hover
    apply hbound
    have hmod : bprev % L.g.frag = L.dtogd bprev % L.g.frag := by
      rw [← fragnum_group, fragnum_eq]
    have hpos := mod_lt bprev hf.pos
    have hsum : (bprev + L.g.numfrags nsize - 1) % L.g.frag =
        bprev % L.g.frag + L.g.numfrags nsize - 1 - L.g.frag := by
      have hdiv := div_add_mod bprev L.g.frag
      rw [show bprev + L.g.numfrags nsize - 1 =
        (bprev % L.g.frag + L.g.numfrags nsize - 1 - L.g.frag) + L.g.frag * (bprev / L.g.frag + 1) by
          rw [mul_succ]; omega, add_mul_mod_self_left, mod_eq_of_lt (by omega)]
    omega
  have hsplit : L.dtogd bprev = L.dtogd bprev / L.g.frag * L.g.frag + L.dtogd bprev % L.g.frag :=
    (div_add_mod' _ _).symm
  have hlt' : L.dtogd bprev < L.fpg := mod_lt _ L.fpg_pos
  have hb : L.dtogd bprev / L.g.frag < L.blocks := by
    rw [div_lt_iff_lt_mul hf.pos, blocks_mul]
    exact hlt'
  have hheld := hext.held (L.g.numfrags osize - 1) (by omega)
  have hfree : ∀ i, i < L.g.numfrags nsize - L.g.numfrags osize →
      isset (d.cg (L.dtog bprev)).blksfree (L.dtogd bprev + (L.g.numfrags osize + i)) = true := by
    intro i hi
    by_contra hclear
    exact hrange ⟨i, mem_range.mpr hi, Bool.eq_false_of_not_eq_true hclear⟩
  have hplace : ∀ k, L.dtogd bprev / L.g.frag * L.g.frag + L.dtogd bprev % L.g.frag + k = L.dtogd bprev + k := by
    intro k
    rw [← hsplit]
  obtain ⟨i, hi, hge, hrun⟩ := run_behind hold hmore hin
    (by rw [← Nat.add_assoc, hplace]; exact hheld) (fun i hi => by rw [hplace]; exact hfree i hi)
  simp only [hplace] at hi
  rw [fragnum_group L bprev, ← hi]
  have hmap : ClearedIn (d.cg (L.dtog bprev)).blksfree
      ((range (L.g.numfrags nsize - L.g.numfrags osize)).foldl
        (fun m k => clrbit m (L.dtogd bprev + (L.g.numfrags osize + k))) (d.cg (L.dtog bprev)).blksfree)
      (L.dtogd bprev / L.g.frag * L.g.frag + (L.dtogd bprev % L.g.frag + L.g.numfrags osize))
      (L.g.numfrags nsize - L.g.numfrags osize) := by
    have hclr := isset_foldl_clrbit (d.cg (L.dtog bprev)).blksfree (L.dtogd bprev + L.g.numfrags osize)
      (L.g.numfrags nsize - L.g.numfrags osize)
    simp only [Nat.add_assoc] at hclr ⊢
    rw [← Nat.add_assoc, hplace]
    exact hclr
  have hch := changes_run hb hrun (by have := hrun.1; omega) (by omega) (by omega) hmap
  rw [extendedRuns hmore hge]
  refine ⟨rfl, hch.balanced hext.group hbal, ?_⟩
  have haddr : L.dtog bprev * L.fpg + (L.dtogd bprev / L.g.frag * L.g.frag +
      (L.dtogd bprev % L.g.frag + L.g.numfrags osize)) = bprev + L.g.numfrags osize := by
    rw [← Nat.add_assoc (L.dtogd bprev / L.g.frag * L.g.frag), ← hsplit, ← Nat.add_assoc]
    congr 1
    exact div_add_mod' bprev L.fpg
  rw [← haddr]
  refine takes_of_cleared hext.group hb (by omega) (by omega) ?_ ?_ hch.others
  · intro k hk
    rw [← Nat.add_assoc, hplace, Nat.add_assoc]
    exact hfree k hk
  · rw [count_cg_self, setCg_cg_self]
    exact hmap

lemma Extent.legalFree {bno size : Nat} (h : Extent L d bno size) : LegalFree L bno size where
  pos := h.legal.pos
  le := h.legal.le
  whole := h.legal.whole
  aligned := by
    intro hblock
    have hin := h.block
    rw [hblock, numfrags_bsize] at hin
    exact dvd_of_mod_eq_zero (by omega)

lemma Extent.not_meetsFree {bno size : Nat} (h : Extent L d bno size) : ¬MeetsFree L d bno size := by
  rintro ⟨i, hi, hset⟩
  rw [h.held i hi] at hset
  exact absurd hset (by decide)

lemma Extent.place {bno size : Nat} (_h : Extent L d bno size) :
    L.dtogd bno / L.g.frag < L.blocks ∧ L.dtogd bno = L.dtogd bno / L.g.frag * L.g.frag + L.dtogd bno % L.g.frag := by
  refine ⟨?_, (div_add_mod' _ _).symm⟩
  rw [div_lt_iff_lt_mul L.g.fragSize.pos, blocks_mul]
  exact mod_lt _ L.fpg_pos

lemma free_balanced (hbal : Balanced L d) {bno size : Nat} (hext : Extent L d bno size) :
    Balanced L (free L d bno size).2 := by
  obtain ⟨hb, hsplit⟩ := hext.place
  unfold free
  rw [if_neg hext.legal.accepted]
  dsimp only
  split
  · exact hbal
  split
  · next hblock =>
    have hin := hext.block
    rw [hblock, numfrags_bsize] at hin
    have hstart : L.dtogd bno = L.dtogd bno / L.g.frag * L.g.frag := by omega
    have hzero : L.bits (d.cg (L.dtog bno)).blksfree (L.dtogd bno / L.g.frag) = 0 := by
      rw [bits_eq_zero_iff]
      intro j hj
      rw [← hstart]
      apply hext.held
      rw [hblock, numfrags_bsize]
      exact hj
    split
    · rw [fragstoblks_eq]
      have hch := changes_freeBlock hb hzero
      rw [← hstart] at hch
      exact hch.balanced hext.group hbal
    · exact hbal
  · next hpart =>
    obtain ⟨hone, -, -⟩ := hext.legal.numfrags
    obtain ⟨hdone, hbits⟩ := freeFrags_clear hext.held
    have hmap : ClearedIn (freeFrags (d.cg (L.dtog bno)).blksfree (L.dtogd bno) (L.g.numfrags size)).1
        (d.cg (L.dtog bno)).blksfree (L.dtogd bno / L.g.frag * L.g.frag + L.dtogd bno % L.g.frag) (L.g.numfrags size) := by
      rw [← hsplit]
      intro j
      rw [hbits j]
      by_cases hj : L.dtogd bno ≤ j ∧ j < L.dtogd bno + L.g.numfrags size
      · have hheld := hext.held (j - L.dtogd bno) (by omega)
        rw [Nat.add_sub_cancel' hj.1] at hheld
        rw [hheld, decide_eq_true hj, Bool.not_true, Bool.and_false]
      · rw [decide_eq_false hj, Bool.or_false, Bool.not_false, Bool.and_true]
    have hset : ∀ j, j < L.g.numfrags size →
        isset (freeFrags (d.cg (L.dtog bno)).blksfree (L.dtogd bno) (L.g.numfrags size)).1
          (L.dtogd bno / L.g.frag * L.g.frag + (L.dtogd bno % L.g.frag + j)) = true := by
      intro j hj
      rw [← Nat.add_assoc, ← hsplit, hbits, decide_eq_true (by omega), Bool.or_true]
    rw [hdone, if_pos rfl, bbase_eq, fragstoblks_mul]
    split
    · next hwhole =>
      exact (changes_reassemble hb hone hext.block hmap hset (isblock_iff_bits.mp hwhole)).balanced hext.group hbal
    · next hpart' =>
      exact (changes_freeFrags hb hone hext.block hmap hset fun h => hpart' (isblock_iff_bits.mpr h)).balanced
        hext.group hbal

lemma free_done {bno size : Nat} (hext : Extent L d bno size) (hgood : (d.cg (L.dtog bno)).bad = false) :
    FreesRange L d (free L d bno size).2 bno size := by
  by_cases hblock : size = L.g.bsize
  · exact ((free_block hext.legalFree hgood hblock).2 hext.not_meetsFree).2
  · exact (free_frags_clear hext.legalFree hgood hblock hext.not_meetsFree).2

lemma dtog_add {k : Nat} (h : L.dtogd a + k < L.fpg) : L.dtog (a + k) = L.dtog a ∧ L.dtogd (a + k) = L.dtogd a + k := by
  have haddr : a + k = L.dtog a * L.fpg + (L.dtogd a + k) := by
    rw [← add_assoc]
    congr 1
    exact (div_add_mod' a L.fpg).symm
  rw [haddr]
  exact dtog_address h

lemma Takes.tail {size : Nat} (h : Takes L d d' a L.g.frag) (hsize : LegalSize L size) (hlt : size < L.g.bsize) :
    Extent L d' (a + L.g.numfrags size) (L.g.bsize - size) := by
  obtain ⟨hone, -, hpart⟩ := hsize.numfrags
  have hn := hpart (Nat.ne_of_lt hlt)
  have hin := h.inside
  have hal := h.block
  obtain ⟨hg, hd⟩ := dtog_add (L := L) (a := a) (k := L.g.numfrags size) (by omega)
  have hrest : L.g.numfrags (L.g.bsize - size) = L.g.frag - L.g.numfrags size := by
    rw [numfrags_sub fsize_dvd_bsize hsize.whole, numfrags_bsize]
  constructor
  · exact ⟨by omega, by omega, (dvd_sub fsize_dvd_bsize hsize.whole)⟩
  · rw [hg]
    exact h.group
  · rw [hd, hrest, add_mod, show L.dtogd a % L.g.frag = 0 by omega, zero_add, mod_mod,
      mod_eq_of_lt hn]
    omega
  · intro i hi
    rw [hg, hd, h.map, decide_eq_true ⟨rfl, by omega, by omega⟩, Bool.not_true, Bool.and_false]

lemma Takes.shortened {d'' : Disk} {size : Nat} (h : Takes L d d' a L.g.frag) (hsize : LegalSize L size)
    (hlt : size < L.g.bsize) (hfree : FreesRange L d' d'' (a + L.g.numfrags size) (L.g.bsize - size)) :
    Takes L d d'' a (L.g.numfrags size) := by
  obtain ⟨hone, -, hpart⟩ := hsize.numfrags
  have hin := h.inside
  have hal := h.block
  obtain ⟨hg, hd⟩ := dtog_add (L := L) (a := a) (k := L.g.numfrags size) (by omega)
  have hrest : L.g.numfrags (L.g.bsize - size) = L.g.frag - L.g.numfrags size := by
    rw [numfrags_sub fsize_dvd_bsize hsize.whole, numfrags_bsize]
  refine ⟨h.group, by omega, by omega, fun i hi => h.free i (by omega), fun x j => ?_⟩
  rw [hfree x j, hg, hd, hrest, h.map x j]
  by_cases hj : x = L.dtog a ∧ L.dtogd a ≤ j ∧ j < L.dtogd a + L.g.frag
  · have hset := h.free (j - L.dtogd a) (by omega)
    rw [Nat.add_sub_cancel' hj.2.1] at hset
    rw [hj.1, hset, decide_eq_true ⟨rfl, hj.2⟩, Bool.not_true, Bool.and_false, Bool.false_or, Bool.true_and,
      ← decide_not]
    apply decide_eq_decide.mpr
    omega
  · rw [decide_eq_false hj, decide_eq_false (fun h => hj ⟨h.1, by omega, by omega⟩),
      decide_eq_false (fun h => hj ⟨h.1, h.2.1, by omega⟩), Bool.or_false]

/-- What `realloccg` leaves: the extent has grown where it is, or there is another one, or nothing has happened. -/
structure ReallocDone (L : Layout) (bprev old new : Nat) (d : Disk) (r : Except Errno Nat) (d' : Disk) : Prop where
  balanced : Balanced L d'
  found : isset (d.cg 0).blksfree 0 = false → ∀ b, r = .ok b → b ≠ 0 ∧
    (b = bprev ∧ Takes L d d' (bprev + old) (new - old) ∨ b ≠ bprev ∧ Takes L d d' b new)
  missed : isset (d.cg 0).blksfree 0 = false → ∀ e, r = .error e → SameSpace d d'

lemma ReallocDone.failed {bprev old new : Nat} (hbal : Balanced L d) (e : Errno) :
    ReallocDone L bprev old new d (.error e) d :=
  ⟨hbal, fun _ _ h => (by cases h), fun _ _ _ => SameSpace.rfl⟩

lemma Takes.ne_extent {bprev size : Nat} (h : Takes L d d' a n) (hn : 1 ≤ n) (hext : Extent L d bprev size) : a ≠ bprev := by
  rintro rfl
  have hset := h.free 0 hn
  rw [hext.held 0 (by have := hext.legal.numfrags.1; omega)] at hset
  exact absurd hset (by decide)

lemma realloccg_done (hbal : Balanced L d) {bprev osize nsize : Nat} (hext : Extent L d bprev osize)
    (hsize : LegalSize L nsize) (hlt : osize < nsize) (q : Quota) (bpref uid : Nat) :
    ReallocDone L bprev (L.g.numfrags osize) (L.g.numfrags nsize) d (realloccg L d q bprev bpref osize nsize uid).1
      (realloccg L d q bprev bpref osize nsize uid).2.1 := by
  have hold := hext.legal.accepted
  have hnew := hsize.accepted
  obtain ⟨hone, -, -⟩ := hsize.numfrags
  unfold realloccg
  rw [if_neg (by tauto)]
  split
  · exact ReallocDone.failed hbal _
  split
  · exact ReallocDone.failed hbal _
  next hprev =>
  split
  · exact ReallocDone.failed hbal _
  dsimp only
  rcases fragextend_done hbal hext hsize hlt with hno | ⟨haddr, hbal', htakes⟩
  · rw [hno]
    split
    · next d' heq =>
      cases heq
      -- the search works on the same space with another optimization
      have hsame : SameSpace d { d with optim := (reallocRequest L d nsize).2 } :=
        ⟨fun _ => ⟨_, _, rfl⟩, rfl, rfl⟩
      have hreq : LegalSize L (reallocRequest L d nsize).1 ∧
          ((reallocRequest L d nsize).1 = nsize ∨ (reallocRequest L d nsize).1 = L.g.bsize) := by
        unfold reallocRequest
        split
        · exact ⟨hsize, .inl rfl⟩
        · exact ⟨⟨bsize_pos, le_refl _, fsize_dvd_bsize⟩, .inr rfl⟩
      have hsearch := hashalloc_allocated (alloccg_allocated_any hreq.1) hext.group (if L.size ≤ bpref then 0 else bpref)
        (hsame.balanced hbal)
      split
      · next d₁ heq =>
        rw [heq] at hsearch
        exact ⟨hsearch.balanced, fun _ _ h => (by cases h), fun hboot _ _ => hsame.trans (hsearch.missed hboot rfl)⟩
      · next bno d₁ hne heq =>
        rw [heq] at hsearch
        obtain ⟨d2, hsame2, htakes, hbad⟩ := hsearch.found hne
        dsimp only at htakes hbad
        split
        · next hshort =>
          have hreq' := hreq.2.resolve_left (by omega)
          rw [hreq', numfrags_bsize] at htakes
          rw [hreq'] at hshort ⊢
          have htail := htakes.tail hsize hshort
          obtain ⟨hg, -⟩ := dtog_add (L := L) (a := bno) (k := L.g.numfrags nsize)
            (by have := htakes.inside; have := (hsize.numfrags).2.2 (Nat.ne_of_lt hshort); omega)
          have hfreed := free_done htail (by rw [hg]; exact hbad)
          refine ⟨free_balanced hsearch.balanced htail, fun hboot b hb => ?_, fun _ _ h => (by cases h)⟩
          cases hb
          have htakes' := (htakes.shortened hsize hshort hfreed).of_same (hsame.trans (hsame2 hboot))
          exact ⟨hne, .inr ⟨htakes'.ne_extent hone hext, htakes'⟩⟩
        · next hlong =>
          have hreq' : (reallocRequest L d nsize).1 = nsize := by
            rcases hreq.2 with heq' | heq'
            · exact heq'
            · have := hsize.le
              omega
          rw [hreq'] at htakes
          refine ⟨hsearch.balanced, fun hboot b hb => ?_, fun _ _ h => (by cases h)⟩
          cases hb
          have htakes' := htakes.of_same (hsame.trans (hsame2 hboot))
          exact ⟨hne, .inr ⟨htakes'.ne_extent hone hext, htakes'⟩⟩
    · next hne heq =>
      cases heq
      exact absurd rfl hne
  · split
    · next heq =>
      rw [heq] at haddr
      exact absurd haddr.symm hprev
    · next bno d₁ hne heq =>
      rw [heq] at haddr hbal' htakes
      refine ⟨hbal', fun _ b hb => ?_, fun _ _ h => (by cases h)⟩
      cases hb
      exact ⟨hne, .inl ⟨haddr, htakes⟩⟩

end Solaris.Ufs
