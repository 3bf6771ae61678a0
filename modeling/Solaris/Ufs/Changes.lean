import Solaris.Lib.Sums
import Solaris.Ufs.SpaceFound

/-!
# Taking a part of a run

The first fragments of a maximal run are allocated. The run is gone from the block, what is left of it is a run, and the
other runs stay.
-/

namespace Solaris.Ufs

section Parts

open Finset Nat

variable {frag bits bits' siz pos n s p : Nat}

/-- The `n` bits from `lo` on are cleared. -/
def Cleared (bits bits' lo n : Nat) : Prop :=
  ∀ i, bits'.testBit i = (bits.testBit i && !decide (lo ≤ i ∧ i < lo + n))

lemma Cleared.inside {lo i : Nat} (h : Cleared bits bits' lo n) (hlo : lo ≤ i) (hi : i < lo + n) : bits'.testBit i = false := by
  rw [h, decide_eq_true ⟨hlo, hi⟩, Bool.not_true, Bool.and_false]

lemma Cleared.outside {lo i : Nat} (h : Cleared bits bits' lo n) (hi : i < lo ∨ lo + n ≤ i) : bits'.testBit i = bits.testBit i := by
  rw [h, decide_eq_false (by omega), Bool.not_false, Bool.and_true]

section

variable (h : IsRun frag bits siz pos)

include h

lemma IsRun.unique (hs : IsRun frag bits s pos) : s = siz := by
  rcases lt_trichotomy s siz with hlt | heq | hgt
  · have hset := h.2.1 s hlt
    rw [hs.2.2.2] at hset
    exact absurd hset (by decide)
  · exact heq
  · have hset := hs.2.1 siz hgt
    rw [h.2.2.2] at hset
    exact absurd hset (by decide)

lemma IsRun.apart (hs : IsRun frag bits s p) (hsiz : 1 ≤ siz)
    (hlt : p < pos) : p + s < pos := by
  obtain ⟨-, hfree, hbefore, -⟩ := h
  obtain ⟨-, hfree', -, hbehind'⟩ := hs
  have hfirst := hfree 0 hsiz
  rw [add_zero] at hfirst
  by_contra hge
  rcases Nat.eq_or_lt_of_le (Nat.le_of_not_lt hge) with heq | hgt
  · rw [← heq, hfirst] at hbehind'
    exact absurd hbehind' (by decide)
  · have hclear : bits.testBit (pos - 1) = false := hbefore.resolve_left (by omega)
    have hset := hfree' (pos - 1 - p) (by omega)
    rw [show p + (pos - 1 - p) = pos - 1 by omega, hclear] at hset
    exact absurd hset (by decide)

lemma IsRun.rest (hlt : n < siz) (hone : 1 ≤ n) (hcl : Cleared bits bits' pos n) :
    IsRun frag bits' (siz - n) (pos + n) := by
  obtain ⟨hle, hfree, -, hbehind⟩ := h
  refine ⟨by omega, fun j hj => ?_, .inr ?_, ?_⟩
  · rw [hcl.outside (by omega), show pos + n + j = pos + (n + j) by omega]
    exact hfree (n + j) (by omega)
  · exact hcl.inside (by omega) (by omega)
  · rw [hcl.outside (by omega), show pos + n + (siz - n) = pos + siz by omega]
    exact hbehind

lemma IsRun.kept (hs : IsRun frag bits s p) (hsiz : 1 ≤ siz) (hone : 1 ≤ s)
    (hle : n ≤ siz) (hne : p ≠ pos) (hcl : Cleared bits bits' pos n) : IsRun frag bits' s p := by
  -- the other run lies on one side, with a fragment in between
  have hside : p + s < pos ∨ pos + siz < p := by
    rcases lt_or_gt_of_ne hne with hlt | hgt
    · exact .inl (h.apart hs hsiz hlt)
    · exact .inr (hs.apart h hone hgt)
  obtain ⟨hin, hfree, hbefore, hbehind⟩ := hs
  refine ⟨hin, fun j hj => ?_, ?_, ?_⟩
  · rw [hcl.outside (by omega)]
    exact hfree j hj
  · rcases hbefore with hzero | hclear
    · exact .inl hzero
    · right
      rw [hcl.outside (by omega)]
      exact hclear
  · rw [hcl.outside (by omega)]
    exact hbehind

theorem IsRun.taken_iff (hone : 1 ≤ n) (hle : n ≤ siz) (hcl : Cleared bits bits' pos n)
    (hs : 1 ≤ s) : IsRun frag bits' s p ↔ IsRun frag bits s p ∧ p ≠ pos ∨ (n < siz ∧ s = siz - n) ∧ p = pos + n := by
  have hsiz : 1 ≤ siz := by omega
  constructor
  · intro hrun
    obtain ⟨hin, hfree, hbefore, hbehind⟩ := hrun
    have hp := hfree 0 hs
    have hclearrun : ∀ j, p ≤ j → j < p + s → ¬(pos ≤ j ∧ j < pos + n) := by
      intro j hj hjs hmem
      have hset := hfree (j - p) (by omega)
      rw [Nat.add_sub_cancel' hj, hcl.inside hmem.1 hmem.2] at hset
      exact absurd hset (by decide)
    by_cases hstart : p = pos + n
    · right
      have hlt : n < siz := by
        by_contra hge
        have heq : pos + siz = p := by omega
        have hset : bits.testBit p = true := by
          rw [← hcl.outside (by omega)]
          exact hp
        rw [← heq, h.2.2.2] at hset
        exact absurd hset (by decide)
      have hrest := h.rest hlt hone hcl
      rw [← hstart] at hrest
      exact ⟨⟨hlt, hrest.unique ⟨hin, hfree, hbefore, hbehind⟩⟩, hstart⟩
    · left
      have hne : p ≠ pos := by
        rintro rfl
        exact hclearrun p (le_refl p) (by omega) ⟨le_refl p, by omega⟩
      have hside : p + s ≤ pos ∨ pos + n < p := by
        by_contra hmid
        by_cases hlt : p < pos
        · exact hclearrun pos (by omega) (by omega) ⟨le_refl pos, by omega⟩
        · exact hclearrun p (le_refl p) (by omega) ⟨by omega, by omega⟩
      have hgap : p + s < pos ∨ pos + n < p := by
        rcases hside with hle' | hgt
        · left
          apply lt_of_le_of_ne hle'
          intro heq
          have hclear : bits.testBit (pos - 1) = false := h.2.2.1.resolve_left (by omega)
          have hset := hfree (s - 1) (by omega)
          rw [hcl.outside (by omega), show p + (s - 1) = pos - 1 by omega, hclear] at hset
          exact absurd hset (by decide)
        · exact .inr hgt
      refine ⟨⟨hin, fun j hj => ?_, ?_, ?_⟩, hne⟩
      · rw [← hcl.outside (by omega)]
        exact hfree j hj
      · rcases hbefore with hzero | hclear
        · exact .inl hzero
        · right
          rw [← hcl.outside (by omega)]
          exact hclear
      · rw [← hcl.outside (by omega)]
        exact hbehind
  · rintro (⟨hrun, hne⟩ | ⟨⟨hlt, rfl⟩, rfl⟩)
    · exact h.kept hrun hsiz hs hle hne hcl
    · exact h.rest hlt hone hcl

end

lemma runs_eq_card (frag bits siz : Nat) : runs frag bits siz = #{p ∈ range frag | IsRun frag bits siz p} := by
  unfold runs
  rw [List.countP_eq_length_filter]
  rfl

theorem runs_taken (h : IsRun frag bits siz pos) (hone : 1 ≤ n) (hle : n ≤ siz) (hcl : Cleared bits bits' pos n)
    (hs : 1 ≤ s) : (runs frag bits' s : Int) =
      runs frag bits s - (if s = siz then 1 else 0) + (if n < siz ∧ s = siz - n then 1 else 0) := by
  have hset : {p ∈ range frag | IsRun frag bits' s p} =
      if n < siz ∧ s = siz - n then insert (pos + n) {p ∈ range frag | IsRun frag bits s p}
      else {p ∈ range frag | IsRun frag bits s p}.erase pos := by
    have hin := h.1
    ext p
    rw [mem_filter, h.taken_iff hone hle hcl hs]
    split
    · next hrest =>
      rw [mem_insert, mem_filter, mem_range]
      constructor
      · rintro ⟨hp, ⟨hrun, -⟩ | ⟨-, rfl⟩⟩
        · exact .inr ⟨hp, hrun⟩
        · exact .inl rfl
      · rintro (rfl | ⟨hp, hrun⟩)
        · exact ⟨by omega, .inr ⟨hrest, rfl⟩⟩
        · refine ⟨hp, .inl ⟨hrun, ?_⟩⟩
          rintro rfl
          have := h.unique hrun
          omega
    · next hrest =>
      rw [mem_erase, mem_filter]
      constructor
      · rintro ⟨hp, ⟨hrun, hne⟩ | ⟨hin, -⟩⟩
        · exact ⟨hne, hp, hrun⟩
        · exact absurd hin hrest
      · rintro ⟨hne, hp, hrun⟩
        exact ⟨hp, .inl ⟨hrun, hne⟩⟩
  rw [runs_eq_card, runs_eq_card, hset]
  by_cases hrest : n < siz ∧ s = siz - n
  · have hnot : pos + n ∉ ({p ∈ range frag | IsRun frag bits s p} : Finset Nat) := by
      intro hmem
      rcases (mem_filter.mp hmem).2.2.2.1 with hzero | hclear
      · omega
      · have hfree := h.2.1 (n - 1) (by omega)
        rw [show pos + n - 1 = pos + (n - 1) by omega, hfree] at hclear
        exact absurd hclear (by decide)
    rw [if_pos hrest, if_pos hrest, if_neg (by omega), card_insert_of_notMem hnot]
    omega
  · rw [if_neg hrest, if_neg hrest]
    by_cases hsame : s = siz
    · have hmem : pos ∈ ({p ∈ range frag | IsRun frag bits s p} : Finset Nat) := by
        have hin := h.1
        rw [mem_filter, mem_range, hsame]
        exact ⟨by omega, h⟩
      have hpos := card_pos.mpr ⟨pos, hmem⟩
      rw [if_pos hsame, card_erase_of_mem hmem]
      omega
    · have hnot : pos ∉ ({p ∈ range frag | IsRun frag bits s p} : Finset Nat) := by
        intro hmem
        exact hsame (h.unique (mem_filter.mp hmem).2)
      rw [if_neg hsame, erase_eq_of_notMem hnot]
      omega

lemma countP_eq_card (frag bits : Nat) :
    ((List.range frag).countP fun j => bits.testBit j) = #{j ∈ range frag | bits.testBit j = true} := by
  rw [List.countP_eq_length_filter]
  have hbool : (fun j => bits.testBit j) = fun j => decide (bits.testBit j = true) := by
    funext j
    exact Bool.decide_eq_true.symm
  rw [hbool]
  rfl

lemma free_taken {lo : Nat} (hin : lo + n ≤ frag) (hfree : ∀ j, j < n → bits.testBit (lo + j) = true)
    (hcl : Cleared bits bits' lo n) :
    ((List.range frag).countP fun j => bits'.testBit j) + n = (List.range frag).countP fun j => bits.testBit j := by
  have hset : {j ∈ range frag | bits.testBit j = true} = {j ∈ range frag | bits'.testBit j = true} ∪ Ico lo (lo + n) := by
    ext j
    rw [mem_union, mem_filter, mem_filter, mem_Ico, mem_range]
    by_cases hj : lo ≤ j ∧ j < lo + n
    · have hset := hfree (j - lo) (by omega)
      rw [Nat.add_sub_cancel' hj.1] at hset
      exact iff_of_true ⟨by omega, hset⟩ (.inr hj)
    · rw [hcl.outside (by omega), or_iff_left hj]
  have hdisj : Disjoint ({j ∈ range frag | bits'.testBit j = true} : Finset Nat) (Ico lo (lo + n)) := by
    rw [disjoint_left]
    intro j hj hmem
    rw [mem_filter] at hj
    rw [mem_Ico] at hmem
    rw [hcl.inside hmem.1 hmem.2] at hj
    exact absurd hj.2 (by decide)
  rw [countP_eq_card, countP_eq_card, hset, card_union_of_disjoint hdisj, Nat.card_Ico, Nat.add_sub_cancel_left]

end Parts

/-!
## Changes inside a block

The allocator changes one block of one group at a time. The counters stay right when each of them changes by what the
block weighs now and did not weigh before.
-/

section Block

open Finset Function

variable {L : Layout} {d d' d'' : Disk} {m m' : ByteMap} {c b : Nat} {nb nf : Int}

/-- The maps and the counters of a file system: nothing is free behind the last fragment of a group, and the total is
the sum over the groups. -/
structure Balanced (L : Layout) (d : Disk) : Prop extends Consistent L d where
  ndir : d.cstotal.ndir = ∑ c ∈ range L.ncg, (d.cs c).ndir
  nifree : d.cstotal.nifree = ∑ c ∈ range L.ncg, (d.cs c).nifree
  inside : ∀ c j, c < L.ncg → L.fpg ≤ j → isset (d.cg c).blksfree j = false

/-- Block `b` of group `c` has changed, with `nb` free blocks and `nf` free fragments more. -/
structure Changes (L : Layout) (c b : Nat) (nb nf : Int) (d d' : Disk) : Prop where
  block : b < L.blocks
  groups : ∀ x, x ≠ c → d'.cg x = d.cg x
  elsewhere : ∀ j, j / L.g.frag ≠ b → isset (d'.cg c).blksfree j = isset (d.cg c).blksfree j
  cgcs : (d'.cg c).cs = (d.cg c).cs.add nb nf
  cs : d'.cs = update d.cs c ((d.cs c).add nb nf)
  cstotal : d'.cstotal = d.cstotal.add nb nf
  nbfree : nb = whole L.g.frag (L.bits (d'.cg c).blksfree b) - whole L.g.frag (L.bits (d.cg c).blksfree b)
  nffree : nf = loose L.g.frag (L.bits (d'.cg c).blksfree b) - loose L.g.frag (L.bits (d.cg c).blksfree b)
  frsum : ∀ siz, 1 ≤ siz → siz < L.g.frag → (d'.cg c).frsum siz = (d.cg c).frsum siz +
    ((runs L.g.frag (L.bits (d'.cg c).blksfree b) siz : Int) - runs L.g.frag (L.bits (d.cg c).blksfree b) siz)
  blktot : ∀ cyl, (d'.cg c).blktot cyl = (d.cg c).blktot cyl + if L.cbtocylno (b * L.g.frag) = cyl then nb else 0
  blks : ∀ cyl pos, (d'.cg c).blks cyl pos = (d.cg c).blks cyl pos +
    if L.cbtocylno (b * L.g.frag) = cyl ∧ L.cbtorpos (b * L.g.frag) = pos then nb else 0
  bad : (d'.cg c).bad = (d.cg c).bad

/-- The maps and the summaries are the same, only rotors have moved. -/
structure SameSpace (d d' : Disk) : Prop where
  cg : ∀ x, ∃ rotor frotor, d'.cg x = { d.cg x with rotor := rotor, frotor := frotor }
  cs : d'.cs = d.cs
  cstotal : d'.cstotal = d.cstotal

@[simp] lemma setCg_cg_self (f : Cg → Cg) : (d.setCg c f).cg c = f (d.cg c) := update_self _ _ _

lemma setCg_cg_ne (f : Cg → Cg) {x : Nat} (hx : x ≠ c) : (d.setCg c f).cg x = d.cg x := update_of_ne hx _ _

@[simp] lemma count_cg_self : (d.count c nb nf).cg c = { d.cg c with cs := (d.cg c).cs.add nb nf } :=
  update_self _ _ _

lemma count_cg_ne {x : Nat} (hx : x ≠ c) : (d.count c nb nf).cg x = d.cg x := update_of_ne hx _ _

lemma countBlock_blktot (cgp : Cg) (bno : Nat) (n : Int) (cyl : Nat) :
    (cgp.countBlock L bno n).blktot cyl = cgp.blktot cyl + if L.cbtocylno bno = cyl then n else 0 := by
  unfold Cg.countBlock
  dsimp only
  rw [update_apply]
  by_cases h : cyl = L.cbtocylno bno
  · rw [if_pos h, if_pos h.symm, h]
  · rw [if_neg h, if_neg (Ne.symm h), add_zero]

lemma countBlock_blks (cgp : Cg) (bno : Nat) (n : Int) (cyl pos : Nat) :
    (cgp.countBlock L bno n).blks cyl pos =
      cgp.blks cyl pos + if L.cbtocylno bno = cyl ∧ L.cbtorpos bno = pos then n else 0 := by
  unfold Cg.countBlock
  dsimp only
  rw [update_apply]
  by_cases h : cyl = L.cbtocylno bno
  · rw [if_pos h, update_apply]
    by_cases hp : pos = L.cbtorpos bno
    · rw [if_pos hp, if_pos ⟨h.symm, hp.symm⟩, h, hp]
    · rw [if_neg hp, if_neg fun hand => hp hand.2.symm, add_zero, h]
  · rw [if_neg h, if_neg fun hand => h hand.1.symm, add_zero]

lemma bits_congr (h : ∀ j, j < L.g.frag → isset m' (b * L.g.frag + j) = isset m (b * L.g.frag + j)) :
    L.bits m' b = L.bits m b := by
  apply Nat.eq_of_testBit_eq
  intro j
  by_cases hj : j < L.g.frag
  · rw [testBit_bits hj, testBit_bits hj, h j hj]
  · have hpow : 2 ^ L.g.frag ≤ 2 ^ j := Nat.pow_le_pow_right (by decide) (by omega)
    rw [Nat.testBit_lt_two_pow (Nat.lt_of_lt_of_le (bits_lt L m' b) hpow),
      Nat.testBit_lt_two_pow (Nat.lt_of_lt_of_le (bits_lt L m b) hpow)]

lemma tally_change {w : Nat → Nat → Int} (hb : b < L.blocks)
    (h : ∀ j, j / L.g.frag ≠ b → isset m' j = isset m j) :
    L.tally m' w = L.tally m w + (w b (L.bits m' b) - w b (L.bits m b)) := by
  have hothers : ∀ x ∈ range L.blocks, x ≠ b → w x (L.bits m' x) = w x (L.bits m x) := by
    intro x _ hx
    rw [bits_congr]
    intro j hj
    apply h
    rw [div_frag L.g.fragSize hj]
    exact hx
  have hsum := Lib.sum_change (mem_range.mpr hb) hothers
  unfold Layout.tally
  omega

section

variable (h : Changes L c b nb nf d d')

include h

lemma Changes.accounted (hacc : Accounted L (d.cg c)) : Accounted L (d'.cg c) where
  nbfree := by
    rw [h.cgcs, tally_change h.block h.elsewhere, ← hacc.nbfree, ← h.nbfree]
    rfl
  nffree := by
    rw [h.cgcs, tally_change h.block h.elsewhere, ← hacc.nffree, ← h.nffree]
    rfl
  frsum := by
    intro siz hone hlt
    rw [h.frsum siz hone hlt, tally_change h.block h.elsewhere, ← hacc.frsum siz hone hlt]
  blktot := by
    intro cyl
    rw [h.blktot cyl, tally_change h.block h.elsewhere, ← hacc.blktot cyl]
    split
    · rw [← h.nbfree]
    · rfl
  blks := by
    intro cyl pos
    rw [h.blks cyl pos, tally_change h.block h.elsewhere, ← hacc.blks cyl pos]
    split
    · rw [← h.nbfree]
    · rfl

lemma Changes.cs_apply (x : Nat) :
    d'.cs x = if x = c then (d.cs x).add nb nf else d.cs x := by
  rw [h.cs, update_apply]
  split
  · next hx => rw [hx]
  · rfl

lemma Changes.total (hc : c < L.ncg) {f : Csum → Int} {n : Int}
    (hadd : ∀ cs : Csum, f (cs.add nb nf) = f cs + n) (hsum : f d.cstotal = ∑ x ∈ range L.ncg, f (d.cs x)) :
    f d'.cstotal = ∑ x ∈ range L.ncg, f (d'.cs x) := by
  have hothers : ∀ x ∈ range L.ncg, x ≠ c → f (d'.cs x) = f (d.cs x) := by
    intro x _ hx
    rw [h.cs_apply, if_neg hx]
  have hchange := Lib.sum_change (mem_range.mpr hc) hothers
  rw [h.cs_apply, if_pos rfl, hadd] at hchange
  rw [h.cstotal, hadd, hsum]
  omega

lemma Changes.balanced (hc : c < L.ncg) (hbal : Balanced L d) : Balanced L d' where
  accounted := by
    intro x hx
    by_cases hxc : x = c
    · subst hxc
      exact h.accounted (hbal.accounted x hx)
    · rw [h.groups x hxc]
      exact hbal.accounted x hx
  summary := by
    intro x hx
    rw [h.cs_apply]
    by_cases hxc : x = c
    · subst hxc
      rw [if_pos rfl, h.cgcs, hbal.summary x hx]
    · rw [if_neg hxc, h.groups x hxc]
      exact hbal.summary x hx
  nbfree := h.total hc (fun _ => rfl) hbal.nbfree
  nffree := h.total hc (fun _ => rfl) hbal.nffree
  ndir := h.total hc (fun _ => (add_zero _).symm) hbal.ndir
  nifree := h.total hc (fun _ => (add_zero _).symm) hbal.nifree
  inside := by
    intro x j hx hj
    by_cases hxc : x = c
    · subst hxc
      rw [h.elsewhere j]
      · exact hbal.inside x j hx hj
      · have hdiv : L.blocks ≤ j / L.g.frag := Nat.div_le_div_right hj
        have hb := h.block
        omega
    · rw [h.groups x hxc]
      exact hbal.inside x j hx hj

lemma Changes.others (x j : Nat) (hx : x ≠ c) :
    isset (d'.cg x).blksfree j = isset (d.cg x).blksfree j := by
  rw [h.groups x hx]

end

lemma SameSpace.rfl : SameSpace d d := ⟨fun _ => ⟨_, _, Eq.refl _⟩, Eq.refl _, Eq.refl _⟩

lemma SameSpace.trans (h : SameSpace d d') (h' : SameSpace d' d'') : SameSpace d d'' where
  cg := by
    intro x
    obtain ⟨r, f, heq⟩ := h.cg x
    obtain ⟨r', f', heq'⟩ := h'.cg x
    exact ⟨r', f', by rw [heq', heq]⟩
  cs := h'.cs.trans h.cs
  cstotal := h'.cstotal.trans h.cstotal

lemma SameSpace.blksfree (h : SameSpace d d') (x : Nat) : (d'.cg x).blksfree = (d.cg x).blksfree := by
  obtain ⟨r, f, heq⟩ := h.cg x
  rw [heq]

lemma SameSpace.bad (h : SameSpace d d') (x : Nat) : (d'.cg x).bad = (d.cg x).bad := by
  obtain ⟨r, f, heq⟩ := h.cg x
  rw [heq]

lemma SameSpace.balanced (h : SameSpace d d') (hbal : Balanced L d) : Balanced L d' where
  accounted := by
    intro x hx
    obtain ⟨r, f, heq⟩ := h.cg x
    have hacc := hbal.accounted x hx
    rw [heq]
    exact ⟨hacc.nbfree, hacc.nffree, hacc.frsum, hacc.blktot, hacc.blks⟩
  summary := by
    intro x hx
    obtain ⟨r, f, heq⟩ := h.cg x
    rw [h.cs, heq]
    exact hbal.summary x hx
  nbfree := by
    rw [h.cs, h.cstotal]
    exact hbal.nbfree
  nffree := by
    rw [h.cs, h.cstotal]
    exact hbal.nffree
  ndir := by
    rw [h.cs, h.cstotal]
    exact hbal.ndir
  nifree := by
    rw [h.cs, h.cstotal]
    exact hbal.nifree
  inside := by
    intro x j hx hj
    rw [h.blksfree]
    exact hbal.inside x j hx hj

end Block

end Solaris.Ufs
