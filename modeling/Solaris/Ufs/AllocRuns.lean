import Solaris.Ufs.AllocCalls

/-!
# Runs of the allocator

The maps and the counters agree behind every run of successful calls. Seen from the owners of space, nothing is handed
out twice: what an owner holds is allocated, and two owners hold different fragments.
-/

namespace Solaris.Ufs

open Finset Function Nat

variable {L : Layout} {d d' : Disk} {a b n : Nat}

/-- The calls that succeed. `realloccg` and `free` are given allocated fragments inside one block. Between the calls
`TRANS_CANCEL` and the log change the blocks under `TRANS_ISCANCEL`. -/
inductive Call (L : Layout) : Disk → Disk → Prop
  | alloc {d : Disk} {q : Quota} {ino bpref size uid b : Nat} (hsize : LegalSize L size) (hino : ino < L.ncg * L.ipg)
      (hok : (Ufs.alloc L d q ino bpref size uid).1 = .ok b) : Call L d (Ufs.alloc L d q ino bpref size uid).2.1
  | realloccg {d : Disk} {q : Quota} {bprev bpref osize nsize uid b : Nat} (hext : Extent L d bprev osize)
      (hsize : LegalSize L nsize) (hlt : osize < nsize)
      (hok : (Ufs.realloccg L d q bprev bpref osize nsize uid).1 = .ok b) :
      Call L d (Ufs.realloccg L d q bprev bpref osize nsize uid).2.1
  | free {d : Disk} {bno size : Nat} (hext : Extent L d bno size) (hok : (Ufs.free L d bno size).1 = none) :
      Call L d (Ufs.free L d bno size).2
  | cancel {d : Disk} (iscancel : Nat → Bool) : Call L d { d with iscancel }

lemma sameSpace_cancel (iscancel : Nat → Bool) : SameSpace d { d with iscancel } :=
  ⟨fun x => ⟨(d.cg x).rotor, (d.cg x).frotor, rfl⟩, rfl, rfl⟩

lemma Call.balanced (h : Call L d d') (hbal : Balanced L d) : Balanced L d' := by
  cases h with
  | alloc hsize hino hok => exact (alloc_done hbal hsize hino _ _ _).balanced
  | realloccg hext hsize hlt hok => exact (realloccg_done hbal hext hsize hlt _ _ _).balanced
  | free hext hok => exact free_balanced hbal hext
  | cancel iscancel => exact (sameSpace_cancel iscancel).balanced hbal

/-- The maps, the counters, the histogram and the summaries agree behind every run. -/
theorem counters_agree (hbal : Balanced L d) (h : Relation.ReflTransGen (Call L) d d') : Balanced L d' := by
  induction h with
  | refl => exact hbal
  | tail _ hcall ih => exact hcall.balanced ih

lemma sampleDisk_balanced : Balanced sampleLayout sampleDisk where
  toConsistent := sampleDisk_consistent
  ndir := by decide
  nifree := by decide
  inside := by
    intro c j _ hj
    have hbyte : j / nbby ≠ 1 := by
      have hfpg : 16 ≤ j := hj
      unfold nbby
      omega
    change ((if j / nbby = 1 then 0x02 else 0x00 : BitVec 8)).getLsbD (j % nbby) = false
    rw [if_neg hbyte]
    exact BitVec.getLsbD_zero

theorem counters_agree_sample :
    (alloc sampleLayout sampleDisk noQuota 5 0 1024 0).1 = .ok 9 ∧
      Balanced sampleLayout (alloc sampleLayout sampleDisk noQuota 5 0 1024 0).2.1 := by
  have hok : (alloc sampleLayout sampleDisk noQuota 5 0 1024 0).1 = .ok 9 := by decide +kernel
  exact ⟨hok, counters_agree sampleDisk_balanced
    (.single (.alloc ⟨by decide, by decide, by decide⟩ (by decide) hok))⟩

structure Owned (Owner : Type) where
  disk : Disk
  held : Owner → Finset Nat

section Owners

variable {Owner : Type}

def Disk.isFree (L : Layout) (d : Disk) (a : Nat) : Bool := isset (d.cg (L.dtog a)).blksfree (L.dtogd a)

/-- What the owners hold lies in the file system behind the boot block, is allocated, and belongs to one of them. -/
structure Exclusive (L : Layout) (s : Owned Owner) : Prop where
  balanced : Balanced L s.disk
  boot : isset (s.disk.cg 0).blksfree 0 = false
  behind : ∀ o, 0 ∉ s.held o
  group : ∀ o a, a ∈ s.held o → L.dtog a < L.ncg
  taken : ∀ o a, a ∈ s.held o → s.disk.isFree L a = false
  disjoint : ∀ o o', o ≠ o' → Disjoint (s.held o) (s.held o')

variable [DecidableEq Owner]

def Owned.give (s : Owned Owner) (d : Disk) (o : Owner) (b n : Nat) : Owned Owner :=
  ⟨d, update s.held o (s.held o ∪ Ico b (b + n))⟩

/-- The steps of the owners: they grow and free what they hold. -/
inductive OwnerStep (L : Layout) : Owned Owner → Owned Owner → Prop
  | alloc {s : Owned Owner} (o : Owner) {q : Quota} {ino bpref size uid b : Nat} (hsize : LegalSize L size)
      (hino : ino < L.ncg * L.ipg) (hok : (Ufs.alloc L s.disk q ino bpref size uid).1 = .ok b) :
      OwnerStep L s (s.give (Ufs.alloc L s.disk q ino bpref size uid).2.1 o b (L.g.numfrags size))
  | allocFails {s : Owned Owner} {q : Quota} {ino bpref size uid : Nat} {e : Errno} (hsize : LegalSize L size)
      (hino : ino < L.ncg * L.ipg) (herr : (Ufs.alloc L s.disk q ino bpref size uid).1 = .error e) :
      OwnerStep L s ⟨(Ufs.alloc L s.disk q ino bpref size uid).2.1, s.held⟩
  | realloccg {s : Owned Owner} (o : Owner) {q : Quota} {bprev bpref osize nsize uid b : Nat}
      (holds : Ico bprev (bprev + L.g.numfrags osize) ⊆ s.held o) (hosize : LegalSize L osize)
      (hblock : L.dtogd bprev % L.g.frag + L.g.numfrags osize ≤ L.g.frag) (hsize : LegalSize L nsize) (hlt : osize < nsize)
      (hok : (Ufs.realloccg L s.disk q bprev bpref osize nsize uid).1 = .ok b) :
      OwnerStep L s (s.give (Ufs.realloccg L s.disk q bprev bpref osize nsize uid).2.1 o b (L.g.numfrags nsize))
  | realloccgFails {s : Owned Owner} (o : Owner) {q : Quota} {bprev bpref osize nsize uid : Nat} {e : Errno}
      (holds : Ico bprev (bprev + L.g.numfrags osize) ⊆ s.held o) (hosize : LegalSize L osize)
      (hblock : L.dtogd bprev % L.g.frag + L.g.numfrags osize ≤ L.g.frag) (hsize : LegalSize L nsize) (hlt : osize < nsize)
      (herr : (Ufs.realloccg L s.disk q bprev bpref osize nsize uid).1 = .error e) :
      OwnerStep L s ⟨(Ufs.realloccg L s.disk q bprev bpref osize nsize uid).2.1, s.held⟩
  | free {s : Owned Owner} (o : Owner) {bno size : Nat} (holds : Ico bno (bno + L.g.numfrags size) ⊆ s.held o)
      (hsize : LegalSize L size) (hblock : L.dtogd bno % L.g.frag + L.g.numfrags size ≤ L.g.frag) :
      OwnerStep L s ⟨(Ufs.free L s.disk bno size).2,
        update s.held o (s.held o \ Ico bno (bno + L.g.numfrags size))⟩
  | cancel {s : Owned Owner} (iscancel : Nat → Bool) : OwnerStep L s ⟨{ s.disk with iscancel }, s.held⟩

lemma address_mem_iff (hin : L.dtogd a + n ≤ L.fpg) (x : Nat) :
    (L.dtog x = L.dtog a ∧ L.dtogd a ≤ L.dtogd x ∧ L.dtogd x < L.dtogd a + n) ↔ a ≤ x ∧ x < a + n := by
  have hx : L.dtog x * L.fpg + L.dtogd x = x := div_add_mod' x L.fpg
  have ha : L.dtog a * L.fpg + L.dtogd a = a := div_add_mod' a L.fpg
  constructor
  · rintro ⟨hg, hle, hlt⟩
    rw [hg] at hx
    omega
  · rintro ⟨hle, hlt⟩
    obtain ⟨k, rfl⟩ : ∃ k, x = a + k := ⟨x - a, by omega⟩
    obtain ⟨hg, hd⟩ := dtog_add (L := L) (a := a) (k := k) (by omega)
    rw [hg, hd]
    exact ⟨rfl, by omega, by omega⟩

lemma Takes.isFree (h : Takes L d d' a n) (x : Nat) :
    d'.isFree L x = (d.isFree L x && !decide (a ≤ x ∧ x < a + n)) := by
  unfold Disk.isFree
  rw [h.map, decide_eq_decide.mpr (address_mem_iff h.inside x)]

lemma Takes.was_free (h : Takes L d d' a n) {x : Nat} (hx : a ≤ x ∧ x < a + n) : L.dtog x < L.ncg ∧ d.isFree L x = true := by
  obtain ⟨hg, hle, hlt⟩ := (address_mem_iff h.inside x).mpr hx
  unfold Disk.isFree
  have hset := h.free (L.dtogd x - L.dtogd a) (by omega)
  rw [Nat.add_sub_cancel' hle] at hset
  rw [hg]
  exact ⟨h.group, hset⟩

lemma SameSpace.isFree (h : SameSpace d d') (x : Nat) : d'.isFree L x = d.isFree L x := by
  unfold Disk.isFree
  rw [h.blksfree]

lemma inside_of_block (h : L.dtogd a % L.g.frag + n ≤ L.g.frag) : L.dtogd a + n ≤ L.fpg := by
  have hb : L.dtogd a / L.g.frag < L.blocks := by
    rw [div_lt_iff_lt_mul L.g.fragSize.pos, blocks_mul]
    exact mod_lt _ L.fpg_pos
  have hend := block_end_le hb
  have hsplit := div_add_mod' (L.dtogd a) L.g.frag
  omega

section Exclusion

variable {s : Owned Owner}

omit [DecidableEq Owner] in
lemma Exclusive.extent (h : Exclusive L s) {o : Owner} {bno size : Nat} (holds : Ico bno (bno + L.g.numfrags size) ⊆ s.held o)
    (hsize : LegalSize L size) (hblock : L.dtogd bno % L.g.frag + L.g.numfrags size ≤ L.g.frag) : Extent L s.disk bno size where
  legal := hsize
  group := by
    obtain ⟨hone, -, -⟩ := hsize.numfrags
    exact h.group o bno (holds (mem_Ico.mpr ⟨le_refl bno, by omega⟩))
  block := hblock
  held := by
    intro i hi
    have hin := inside_of_block hblock
    obtain ⟨hg, hd⟩ := dtog_add (L := L) (a := bno) (k := i) (by omega)
    have htaken := h.taken o (bno + i) (holds (mem_Ico.mpr ⟨by omega, by omega⟩))
    unfold Disk.isFree at htaken
    rwa [hg, hd] at htaken

omit [DecidableEq Owner] in
lemma Exclusive.same (h : Exclusive L s) (hsame : SameSpace s.disk d) : Exclusive L ⟨d, s.held⟩ where
  balanced := hsame.balanced h.balanced
  boot := by
    rw [hsame.blksfree]
    exact h.boot
  behind := h.behind
  group := h.group
  taken := by
    intro o a ha
    rw [hsame.isFree]
    exact h.taken o a ha
  disjoint := h.disjoint

lemma Exclusive.give (h : Exclusive L s) {o : Owner} {k : Nat} (hbal : Balanced L d)
    (holds : Ico b (b + k) ⊆ s.held o) (hk : k ≤ n) (htakes : Takes L s.disk d (b + k) (n - k)) :
    Exclusive L (s.give d o b n) := by
  -- a new fragment was free, so that no owner held it
  have hnew : ∀ x, x ∈ Ico b (b + n) → x ∉ s.held o → b + k ≤ x ∧ x < b + k + (n - k) := by
    intro x hx hno
    rw [mem_Ico] at hx
    have hout : ¬x < b + k := fun hlt => hno (holds (mem_Ico.mpr ⟨hx.1, hlt⟩))
    omega
  have hfree : ∀ x, b + k ≤ x ∧ x < b + k + (n - k) → ∀ o', x ∉ s.held o' := by
    intro x hx o' hmem
    have hset := (htakes.was_free hx).2
    rw [h.taken o' x hmem] at hset
    exact absurd hset (by decide)
  have hold : ∀ o' x, x ∈ s.held o' → d.isFree L x = false := by
    intro o' x hx
    rw [htakes.isFree, h.taken o' x hx, Bool.false_and]
  have hheld : ∀ o' x, x ∈ (s.give d o b n).held o' ↔ x ∈ s.held o' ∨ o' = o ∧ x ∈ Ico b (b + n) := by
    intro o' x
    unfold Owned.give
    dsimp only
    rw [update_apply]
    split_ifs with ho
    · rw [mem_union, ho]
      simp
    · simp [ho]
  constructor
  · exact hbal
  · change isset (d.cg 0).blksfree 0 = false
    rw [htakes.map, h.boot, Bool.false_and]
  · intro o' hzero
    rcases (hheld o' 0).mp hzero with hmem | ⟨rfl, hmem⟩
    · exact h.behind o' hmem
    · have hset := (htakes.was_free (hnew 0 hmem (h.behind o'))).2
      unfold Disk.isFree Layout.dtog Layout.dtogd at hset
      rw [Nat.zero_div, Nat.zero_mod, h.boot] at hset
      exact absurd hset (by decide)
  · intro o' x hx
    rcases (hheld o' x).mp hx with hmem | ⟨rfl, hmem⟩
    · exact h.group o' x hmem
    · by_cases hin : x ∈ s.held o'
      · exact h.group o' x hin
      · exact (htakes.was_free (hnew x hmem hin)).1
  · intro o' x hx
    change d.isFree L x = false
    rcases (hheld o' x).mp hx with hmem | ⟨rfl, hmem⟩
    · exact hold o' x hmem
    · by_cases hin : x ∈ s.held o'
      · exact hold o' x hin
      · rw [htakes.isFree, decide_eq_true (hnew x hmem hin), Bool.not_true, Bool.and_false]
  · intro o1 o2 hne
    rw [disjoint_left]
    intro x hx1 hx2
    have hapart := disjoint_left.mp (h.disjoint o1 o2 hne)
    rcases (hheld o1 x).mp hx1 with h1 | ⟨rfl, h1⟩
    · rcases (hheld o2 x).mp hx2 with h2 | ⟨rfl, h2⟩
      · exact hapart h1 h2
      · exact hfree x (hnew x h2 fun hmem => hapart h1 hmem) o1 h1
    · rcases (hheld o2 x).mp hx2 with h2 | ⟨rfl, h2⟩
      · exact hfree x (hnew x h1 fun hmem => hapart hmem h2) o2 h2
      · exact hne rfl

lemma Exclusive.release (h : Exclusive L s) {o : Owner} {bno size : Nat} (holds : Ico bno (bno + L.g.numfrags size) ⊆ s.held o)
    (hsize : LegalSize L size) (hblock : L.dtogd bno % L.g.frag + L.g.numfrags size ≤ L.g.frag) :
    Exclusive L ⟨(Ufs.free L s.disk bno size).2,
      update s.held o (s.held o \ Ico bno (bno + L.g.numfrags size))⟩ := by
  have hext := h.extent holds hsize hblock
  have hin := inside_of_block hblock
  have hfree : ∀ x, x ∉ Ico bno (bno + L.g.numfrags size) →
      (Ufs.free L s.disk bno size).2.isFree L x = s.disk.isFree L x := by
    intro x hx
    rw [mem_Ico] at hx
    by_cases hbad : (s.disk.cg (L.dtog bno)).bad = true
    · have hsame : (Ufs.free L s.disk bno size).2 = s.disk := by
        unfold Ufs.free
        rw [if_neg hsize.accepted]
        rw [if_pos hbad]
      rw [hsame]
    · have hdone := free_done hext (Bool.eq_false_of_not_eq_true hbad)
      unfold Disk.isFree
      rw [hdone, decide_eq_decide.mpr (address_mem_iff hin x), decide_eq_false hx, Bool.or_false]
  have hheld : ∀ o' x, x ∈ update s.held o (s.held o \ Ico bno (bno + L.g.numfrags size)) o' →
      x ∈ s.held o' ∧ x ∉ Ico bno (bno + L.g.numfrags size) := by
    intro o' x hx
    rw [update_apply] at hx
    by_cases ho : o' = o
    · rw [if_pos ho, mem_sdiff, ← ho] at hx
      exact hx
    · rw [if_neg ho] at hx
      exact ⟨hx, fun hmem => disjoint_left.mp (h.disjoint o' o ho) hx (holds hmem)⟩
  constructor
  · exact free_balanced h.balanced hext
  · have hboot := hfree 0 fun hmem => h.behind o (holds hmem)
    unfold Disk.isFree Layout.dtog Layout.dtogd at hboot
    rw [Nat.zero_div, Nat.zero_mod, h.boot] at hboot
    exact hboot
  · intro o' hzero
    exact h.behind o' (hheld o' 0 hzero).1
  · intro o' x hx
    exact h.group o' x (hheld o' x hx).1
  · intro o' x hx
    obtain ⟨hmem, hout⟩ := hheld o' x hx
    rw [hfree x hout]
    exact h.taken o' x hmem
  · intro o1 o2 hne
    rw [disjoint_left]
    intro x hx1 hx2
    exact disjoint_left.mp (h.disjoint o1 o2 hne) (hheld o1 x hx1).1 (hheld o2 x hx2).1

lemma OwnerStep.exclusive {s' : Owned Owner} (hstep : OwnerStep L s s') (h : Exclusive L s) : Exclusive L s' := by
  cases hstep with
  | alloc o hsize hino hok =>
    have htakes := ((alloc_done h.balanced hsize hino _ _ _).found h.boot _ hok).2
    exact h.give (alloc_done h.balanced hsize hino _ _ _).balanced (by simp) (zero_le _) htakes
  | allocFails hsize hino herr => exact h.same ((alloc_done h.balanced hsize hino _ _ _).missed h.boot _ herr)
  | realloccg o holds hosize hblock hsize hlt hok =>
    have hext := h.extent holds hosize hblock
    rcases ((realloccg_done h.balanced hext hsize hlt _ _ _).found h.boot _ hok).2 with ⟨rfl, htakes⟩ | ⟨-, htakes⟩
    · exact h.give (realloccg_done h.balanced hext hsize hlt _ _ _).balanced holds
        (numfrags_mono (le_of_lt hlt)) htakes
    · exact h.give (realloccg_done h.balanced hext hsize hlt _ _ _).balanced (by simp) (zero_le _) htakes
  | realloccgFails o holds hosize hblock hsize hlt herr =>
    have hext := h.extent holds hosize hblock
    exact h.same ((realloccg_done h.balanced hext hsize hlt _ _ _).missed h.boot _ herr)
  | free o holds hsize hblock => exact h.release holds hsize hblock
  | cancel iscancel => exact h.same (sameSpace_cancel iscancel)

end Exclusion

/-- `alloc` and `realloccg` take exactly the free fragments that they answer with, a call that fails leaves the space as
it was, and in every run the owners hold disjoint space. -/
theorem space_handed_out_once {s : Owned Owner} (h : Exclusive L s) :
    (∀ (q : Quota) (ino bpref size uid : Nat), LegalSize L size → ino < L.ncg * L.ipg →
      (∀ b, (alloc L s.disk q ino bpref size uid).1 = .ok b →
        Takes L s.disk (alloc L s.disk q ino bpref size uid).2.1 b (L.g.numfrags size)) ∧
      ∀ e, (alloc L s.disk q ino bpref size uid).1 = .error e →
        SameSpace s.disk (alloc L s.disk q ino bpref size uid).2.1) ∧
    (∀ (q : Quota) (bprev bpref osize nsize uid : Nat), Extent L s.disk bprev osize → LegalSize L nsize → osize < nsize →
      (∀ b, (realloccg L s.disk q bprev bpref osize nsize uid).1 = .ok b → b ≠ bprev →
        Takes L s.disk (realloccg L s.disk q bprev bpref osize nsize uid).2.1 b (L.g.numfrags nsize)) ∧
      ((realloccg L s.disk q bprev bpref osize nsize uid).1 = .ok bprev →
        Takes L s.disk (realloccg L s.disk q bprev bpref osize nsize uid).2.1 (bprev + L.g.numfrags osize)
          (L.g.numfrags nsize - L.g.numfrags osize)) ∧
      ∀ e, (realloccg L s.disk q bprev bpref osize nsize uid).1 = .error e →
        SameSpace s.disk (realloccg L s.disk q bprev bpref osize nsize uid).2.1) ∧
    ∀ s' : Owned Owner, Relation.ReflTransGen (OwnerStep L) s s' → ∀ o o', o ≠ o' → Disjoint (s'.held o) (s'.held o') := by
  refine ⟨?_, ?_, ?_⟩
  · intro q ino bpref size uid hsize hino
    have hdone := alloc_done h.balanced hsize hino q bpref uid
    exact ⟨fun b hok => (hdone.found h.boot b hok).2, fun e herr => hdone.missed h.boot e herr⟩
  · intro q bprev bpref osize nsize uid hext hsize hlt
    have hdone := realloccg_done h.balanced hext hsize hlt q bpref uid
    refine ⟨fun b hok hne => ?_, fun hok => ?_, fun e herr => hdone.missed h.boot e herr⟩
    · rcases (hdone.found h.boot b hok).2 with ⟨heq, -⟩ | ⟨-, htakes⟩
      · exact absurd heq hne
      · exact htakes
    · rcases (hdone.found h.boot bprev hok).2 with ⟨-, htakes⟩ | ⟨hne, -⟩
      · exact htakes
      · exact absurd rfl hne
  · intro s' hrun
    have hexclusive : Exclusive L s' := by
      induction hrun with
      | refl => exact h
      | tail _ hstep ih => exact hstep.exclusive ih
    exact hexclusive.disjoint

def sampleOwners : Owned Bool := ⟨sampleDisk, fun _ => ∅⟩

lemma sampleOwners_exclusive : Exclusive sampleLayout sampleOwners where
  balanced := sampleDisk_balanced
  boot := by decide
  behind := fun _ => notMem_empty 0
  group := fun _ _ hmem => absurd hmem (notMem_empty _)
  taken := fun _ _ hmem => absurd hmem (notMem_empty _)
  disjoint := fun _ _ _ => disjoint_empty_left _

theorem space_handed_out_once_sample :
    Takes sampleLayout sampleDisk (alloc sampleLayout sampleDisk noQuota 5 0 1024 0).2.1 9 1 ∧
      Disjoint ((sampleOwners.give (alloc sampleLayout sampleDisk noQuota 5 0 1024 0).2.1 true 9 1).held true)
        ((sampleOwners.give (alloc sampleLayout sampleDisk noQuota 5 0 1024 0).2.1 true 9 1).held false) := by
  have hok : (alloc sampleLayout sampleDisk noQuota 5 0 1024 0).1 = .ok 9 := by decide +kernel
  have hsize : LegalSize sampleLayout 1024 := ⟨by decide, by decide, by decide⟩
  obtain ⟨halloc, -, hrun⟩ := space_handed_out_once sampleOwners_exclusive
  refine ⟨(halloc noQuota 5 0 1024 0 hsize (by decide)).1 9 hok, ?_⟩
  exact hrun _ (.single (.alloc true hsize (by decide) hok)) true false (by decide)

end Owners

end Solaris.Ufs
