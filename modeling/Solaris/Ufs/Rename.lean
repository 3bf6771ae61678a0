import Solaris.Lib.PointerTree
import Solaris.Ufs.Names

/-!
# Rename and the directory tree

The directories hang together by their `..` records. `ufs_dircheckpath` walks up these records from the target of a
rename, and so a rename that it accepts moves a directory below one that is not below itself.
-/

namespace Solaris.Ufs

open Lib Function List Option

variable {e e' : Env} {t t' t₁ t₂ : Names} {dirs : Set Nat} {sip sdp tdp tip d : Nat} {snm tnm : String}

def dotdotOf (t : Names) (d : Nat) : Nat := (t d).dotdot

/-- The directories of a file system: each but the root is listed in the directory that its `..` names, and they all
reach the root. -/
structure DirTree (t : Names) (dirs : Set Nat) : Prop where
  root : ufsRootIno ∈ dirs
  top : (t ufsRootIno).dotdot = ufsRootIno
  isDir : ∀ d ∈ dirs, (t d).isDir = true
  sized : ∀ d ∈ dirs, (t d).short = false
  parent : ∀ d ∈ dirs, (t d).dotdot ∈ dirs
  listed : ∀ d ∈ dirs, d ≠ ufsRootIno → ∃ name, (t (t d).dotdot).find name = some d
  reaches : ∀ d ∈ dirs, Reaches (dotdotOf t) ufsRootIno d

/-- The directories on the way up have links and records of `..`, and reading them succeeds. -/
structure Readable (e : Env) (t : Names) (dirs : Set Nat) : Prop where
  nlink : ∀ d ∈ dirs, (t d).nlink ≠ 0
  dotdotName : ∀ d ∈ dirs, (t d).dotdotName = true
  blkatoff : ∀ d ∈ dirs, e.blkatoff d = none
  iget : ∀ d ∈ dirs, e.iget d = none

lemma dircheckpathLoop_ends (source : Nat) (htop : (t ufsRootIno).dotdot = ufsRootIno) {n ip : Nat}
    (hn : (dotdotOf t)^[n] ip = ufsRootIno) : ∃ r, ∀ fuel, n < fuel → dircheckpathLoop e t source fuel ip = some r := by
  induction n generalizing ip with
  | zero =>
    have hip : ip = ufsRootIno := hn
    rw [hip]
    refine ⟨(dircheckpathLoop e t source 1 ufsRootIno).getD none, fun fuel hfuel => ?_⟩
    obtain ⟨fuel, rfl⟩ : ∃ k, fuel = k + 1 := ⟨fuel - 1, by omega⟩
    unfold dircheckpathLoop
    split
    · rfl
    · split_ifs <;> rfl
  | succ n ih =>
    obtain ⟨r, hr⟩ := ih hn
    have hnext : ∀ fuel, n < fuel → dircheckpathLoop e t source fuel (t ip).dotdot = some r := hr
    refine ⟨(dircheckpathLoop e t source (n + 2) ip).getD none, fun fuel hfuel => ?_⟩
    obtain ⟨fuel, rfl⟩ : ∃ k, fuel = k + 1 := ⟨fuel - 1, by omega⟩
    unfold dircheckpathLoop
    rw [hnext fuel (by omega), hnext (n + 1) (by omega)]
    split
    · rfl
    split_ifs
    · rfl
    · rfl
    · rfl
    · rfl
    · split <;> rfl

lemma ufsDircheckpath_ends (htree : DirTree t dirs) (e : Env) (source : Nat) {target : Nat} (htarget : target ∈ dirs) :
    ∃ n r, ∀ fuel, n ≤ fuel → ufsDircheckpath e t source target fuel = some r := by
  unfold ufsDircheckpath
  split_ifs
  · exact ⟨0, _, fun _ _ => rfl⟩
  · exact ⟨0, _, fun _ _ => rfl⟩
  · obtain ⟨n, hn⟩ := htree.reaches target htarget
    obtain ⟨r, hr⟩ := dircheckpathLoop_ends source htree.top hn
    exact ⟨n + 1, r, fun fuel hfuel => hr fuel (by omega)⟩

lemma dircheckpathLoop_exact (htree : DirTree t dirs) (hread : Readable e t dirs) {source ip fuel : Nat}
    {r : Option Errno} (hip : ip ∈ dirs) (h : dircheckpathLoop e t source fuel ip = some r) :
    (r = some .einval ↔ Reaches (dotdotOf t) source (t ip).dotdot) := by
  induction fuel generalizing ip with
  | zero => cases h
  | succ fuel ih =>
    have hparent := htree.parent ip hip
    have hdir : ¬((t ip).isDir = false ∨ (t ip).nlink = 0 ∨ (t ip).short = true) := by
      rw [htree.isDir ip hip, htree.sized ip hip]
      simp [hread.nlink ip hip]
    unfold dircheckpathLoop at h
    simp only [hread.blkatoff ip hip, if_neg hdir, hread.dotdotName ip hip, Bool.true_eq_false, if_false,
      hread.iget _ hparent] at h
    split_ifs at h with hsource hroot
    · cases h
      exact ⟨fun _ => hsource ▸ Reaches.self, fun _ => rfl⟩
    · cases h
      refine ⟨fun hbad => (by cases hbad), fun hreach => ?_⟩
      rw [hroot] at hreach
      exact absurd (hreach.eq_of_fixed htree.top) (hroot ▸ hsource)
    · rw [ih hparent h]
      exact reaches_parent_iff hsource

/-- `ufs_dircheckpath` returns `EINVAL` exactly when the source is the target or an ancestor of it. -/
theorem ufsDircheckpath_exact (htree : DirTree t dirs) (hread : Readable e t dirs) {source target fuel : Nat}
    {r : Option Errno} (htarget : target ∈ dirs) (h : ufsDircheckpath e t source target fuel = some r) :
    r = some .einval ↔ Reaches (dotdotOf t) source target := by
  unfold ufsDircheckpath at h
  split_ifs at h with hself hroot
  · cases h
    exact ⟨fun _ => hself ▸ Reaches.self, fun _ => rfl⟩
  · cases h
    refine ⟨fun hbad => (by cases hbad), fun hreach => ?_⟩
    rw [hroot] at hreach
    exact absurd (hreach.eq_of_fixed htree.top) (hroot ▸ hself)
  · rw [dircheckpathLoop_exact htree hread htarget h]
    exact reaches_parent_iff hself

lemma dircheckpathLoop_accepts (htop : (t ufsRootIno).dotdot = ufsRootIno) {source ip fuel : Nat}
    (h : dircheckpathLoop e t source fuel ip = some none) : ¬Reaches (dotdotOf t) source (t ip).dotdot := by
  induction fuel generalizing ip with
  | zero => cases h
  | succ fuel ih =>
    unfold dircheckpathLoop at h
    split at h
    · cases h
    split_ifs at h with hdir hname hsource hroot
    · cases h
    · cases h
    · cases h
    · intro hreach
      rw [hroot] at hreach
      exact hsource (hroot.trans (hreach.eq_of_fixed htop))
    · split at h
      · cases h
      · intro hreach
        rcases reaches_iff.mp hreach with heq | hup
        · exact hsource heq
        · exact ih h hup

lemma ufsDircheckpath_accepts (htop : (t ufsRootIno).dotdot = ufsRootIno) {source target fuel : Nat}
    (h : ufsDircheckpath e t source target fuel = some none) : ¬Reaches (dotdotOf t) source target := by
  unfold ufsDircheckpath at h
  split_ifs at h with hself hroot
  · cases h
  · intro hreach
    rw [hroot] at hreach
    exact hself (hroot.trans (hreach.eq_of_fixed htop))
  · intro hreach
    rcases reaches_iff.mp hreach with heq | hup
    · exact hself heq
    · exact dircheckpathLoop_accepts htop h hup

section Fields

variable {i : Nat}

lemma modify_field {B : Type} (f : DirInode → DirInode) (p : DirInode → B) (hf : ∀ ip, p (f ip) = p ip) (j : Nat) :
    p (t.modify i f j) = p (t j) := by
  unfold Names.modify
  by_cases hj : j = i
  · rw [hj, update_self, hf]
  · rw [update_of_ne hj]

lemma modify_other {f : DirInode → DirInode} {j : Nat} (h : j ≠ i) : t.modify i f j = t j :=
  update_of_ne h _ _

@[simp] lemma modify_link_isDir (n : Int) (j : Nat) : (t.modify i (DirInode.link n) j).isDir = (t j).isDir :=
  modify_field (DirInode.link n) DirInode.isDir (fun _ => rfl) j

@[simp] lemma modify_link_short (n : Int) (j : Nat) : (t.modify i (DirInode.link n) j).short = (t j).short :=
  modify_field (DirInode.link n) DirInode.short (fun _ => rfl) j

@[simp] lemma modify_link_find (n : Int) (j : Nat) : (t.modify i (DirInode.link n) j).find = (t j).find :=
  modify_field (DirInode.link n) DirInode.find (fun _ => rfl) j

@[simp] lemma modify_link_dotdot (n : Int) (j : Nat) : (t.modify i (DirInode.link n) j).dotdot = (t j).dotdot :=
  modify_field (DirInode.link n) DirInode.dotdot (fun _ => rfl) j

@[simp] lemma modify_enter_isDir (name : String) (ino j : Nat) :
    (t.modify i (DirInode.enter name ino) j).isDir = (t j).isDir :=
  modify_field (DirInode.enter name ino) DirInode.isDir (fun _ => rfl) j

@[simp] lemma modify_enter_short (name : String) (ino j : Nat) :
    (t.modify i (DirInode.enter name ino) j).short = (t j).short :=
  modify_field (DirInode.enter name ino) DirInode.short (fun _ => rfl) j

@[simp] lemma modify_enter_dotdot (name : String) (ino j : Nat) :
    (t.modify i (DirInode.enter name ino) j).dotdot = (t j).dotdot :=
  modify_field (DirInode.enter name ino) DirInode.dotdot (fun _ => rfl) j

@[simp] lemma modify_setDotdot_isDir (ino j : Nat) : (t.modify i (DirInode.setDotdot ino) j).isDir = (t j).isDir :=
  modify_field (DirInode.setDotdot ino) DirInode.isDir (fun _ => rfl) j

@[simp] lemma modify_setDotdot_short (ino j : Nat) : (t.modify i (DirInode.setDotdot ino) j).short = (t j).short :=
  modify_field (DirInode.setDotdot ino) DirInode.short (fun _ => rfl) j

@[simp] lemma modify_setDotdot_find (ino j : Nat) : (t.modify i (DirInode.setDotdot ino) j).find = (t j).find :=
  modify_field (DirInode.setDotdot ino) DirInode.find (fun _ => rfl) j

lemma modify_setDotdot_dotdot (ino j : Nat) :
    (t.modify i (DirInode.setDotdot ino) j).dotdot = if j = i then ino else (t j).dotdot := by
  unfold Names.modify
  by_cases hj : j = i
  · rw [if_pos hj, hj, update_self]
    rfl
  · rw [if_neg hj, update_of_ne hj]

lemma find_erase (ip : DirInode) (name nm : String) :
    (ip.erase name).find nm = if nm = name then none else ip.find nm := by
  unfold DirInode.find DirInode.erase
  rw [find?_filter]
  split_ifs with hnm
  · rw [find?_eq_none.mpr]
    · rfl
    · intro p _
      simp [hnm]
  · congr 2
    funext p
    by_cases hp : p.1 = nm
    · simp [hp, hnm]
    · simp [hp]

lemma find_enter (ip : DirInode) (name nm : String) (ino : Nat) :
    (ip.enter name ino).find nm = if nm = name then some ino else ip.find nm := by
  by_cases hnm : nm = name
  · rw [if_pos hnm]
    unfold DirInode.find DirInode.enter
    simp [hnm]
  · have hskip : (ip.enter name ino).find nm = (ip.erase name).find nm := by
      unfold DirInode.find DirInode.enter
      have hne : ¬name = nm := fun h => hnm h.symm
      simp [hne]
    rw [if_neg hnm, hskip, find_erase, if_neg hnm]

lemma modify_enter_find (name nm : String) (ino j : Nat) :
    (t.modify i (DirInode.enter name ino) j).find nm = if j = i ∧ nm = name then some ino else (t j).find nm := by
  unfold Names.modify
  by_cases hj : j = i
  · rw [hj, update_self, find_enter]
    simp
  · rw [update_of_ne hj, if_neg fun h => hj h.1]

lemma modify_erase_find (name nm : String) (j : Nat) :
    (t.modify i (DirInode.erase name) j).find nm = if j = i ∧ nm = name then none else (t j).find nm := by
  unfold Names.modify
  by_cases hj : j = i
  · rw [hj, update_self, find_erase]
    simp
  · rw [update_of_ne hj, if_neg fun h => hj h.1]

end Fields

/-- `dp` has a new parent; no entry has changed. -/
structure Reparented (t t' : Names) (dp npdp : Nat) : Prop where
  isDir : ∀ d, (t' d).isDir = (t d).isDir
  short : ∀ d, (t' d).short = (t d).short
  find : ∀ d, (t' d).find = (t d).find
  dotdot : ∀ d, (t' d).dotdot = if d = dp then npdp else (t d).dotdot

lemma ufsDirfixdotdot_ok {dp opdp npdp : Nat} (hlink : (t dp).nlink ≠ 0) (hshort : (t dp).short = false)
    (h : ufsDirfixdotdot e t dp opdp npdp = (none, t')) : Reparented t t' dp npdp := by
  have hnew : Reparented t ((t.modify npdp (DirInode.link 1)).modify dp (DirInode.setDotdot npdp)) dp npdp :=
    ⟨fun d => by simp, fun d => by simp, fun d => by simp, fun d => by simp [modify_setDotdot_dotdot]⟩
  unfold ufsDirfixdotdot at h
  dsimp only at h
  split at h
  · cases h
  split_ifs at h with hgone hsame hname hmax
  · rw [hshort] at hgone
    simp [hlink] at hgone
  · cases h
    refine ⟨fun _ => rfl, fun _ => rfl, fun _ => rfl, fun d => ?_⟩
    by_cases hd : d = dp
    · rw [if_pos hd, hd, hsame]
    · rw [if_neg hd]
  · cases h
  · cases h
  · cases h
    exact ⟨fun d => by rw [modify_link_isDir, hnew.isDir], fun d => by rw [modify_link_short, hnew.short],
      fun d => by rw [modify_link_find, hnew.find], fun d => by rw [modify_link_dotdot, hnew.dotdot]⟩
  · cases h
    exact hnew

/-- A rename over the directory `tip`, or to a new name: `sip` is below `tdp`, where the name stands for it. -/
structure Moved (t t' : Names) (sip tdp : Nat) (tnm : String) : Prop where
  isDir : ∀ d, (t' d).isDir = (t d).isDir
  short : ∀ d, (t' d).short = (t d).short
  find : ∀ d nm, (t' d).find nm = if d = tdp ∧ nm = tnm then some sip else (t d).find nm
  dotdot : ∀ d, (t' d).dotdot = if d = sip then tdp else (t d).dotdot
  gone : ∀ tip, (t tdp).find tnm = some tip →
    tip ≠ sip ∧ (t tip).isDir = true ∧ (∀ nm, (t tip).find nm = none) ∧ (t tip).dotdot = tdp

section Accepted

variable (hdir : (t sip).isDir = true) (hshort : (t sip).short = false) (hlink : (t sip).nlink ≠ 0)

include hdir hshort hlink in
lemma ufsDirrename_ok (hne : sdp ≠ tdp) (hsip : sip ≠ tdp) (htip : (t tdp).find tnm = some tip)
    (h : ufsDirrename e t sdp sip tdp tnm tip = (none, t')) : Moved t t' sip tdp tnm := by
  unfold ufsDirrename at h
  simp only [hdir, Bool.true_eq_false, and_false, if_false, if_true, and_true] at h
  split at h
  · cases h
  rename_i hsame
  split at h
  · cases h
  split at h
  · cases h
  split at h
  · cases h
  split at h
  · cases h
  split at h
  · cases h
  rename_i hempty
  split at h
  · cases h
  rename_i hnotdir
  split at h
  · cases h
  have htipdir : (t tip).isDir = true := Bool.eq_true_of_not_eq_false hnotdir
  have hdone : ufsDirempty e t tip tdp = true := by
    by_contra hno
    exact hempty ⟨htipdir, Or.inl (Bool.eq_false_of_not_eq_true hno)⟩
  have hsiptip : sip ≠ tip := hsame
  have hrep := ufsDirfixdotdot_ok (by
    rw [modify_other hsip, modify_other hsiptip, modify_other hsiptip, modify_other hsip]
    exact hlink) (by simpa using hshort) h
  refine ⟨fun d => ?_, fun d => ?_, fun d nm => ?_, fun d => ?_, fun tip' htip' => ?_⟩
  · rw [hrep.isDir]
    simp
  · rw [hrep.short]
    simp
  · rw [hrep.find]
    simp [modify_enter_find]
  · rw [hrep.dotdot]
    simp
  · rw [htip] at htip'
    cases htip'
    unfold ufsDirempty at hdone
    simp only [Bool.and_eq_true, List.isEmpty_iff, beq_iff_eq] at hdone
    refine ⟨fun heq => hsame heq.symm, htipdir, fun nm => ?_, hdone.2⟩
    unfold DirInode.find
    rw [hdone.1.2]
    rfl

include hdir hshort hlink in
lemma ufsDiraddentry_ok (hnew : (t tdp).find tnm = none)
    (h : ufsDiraddentry e t tdp tnm sip sdp = (none, t')) : Moved t t' sip tdp tnm := by
  unfold ufsDiraddentry at h
  split at h
  · cases h
  rw [if_pos hdir] at h
  split_ifs at h
  · cases h
  split at h
  · cases h
  · next t3 hfix =>
    cases h
    have hrep := ufsDirfixdotdot_ok hlink hshort hfix
    refine ⟨fun d => ?_, fun d => ?_, fun d nm => ?_, fun d => ?_, fun tip htip => ?_⟩
    · rw [modify_enter_isDir, hrep.isDir]
    · rw [modify_enter_short, hrep.short]
    · rw [modify_enter_find, hrep.find]
    · rw [modify_enter_dotdot, hrep.dotdot]
    · rw [hnew] at htip
      cases htip

end Accepted

lemma ufsDircheckforname_ok {o : Option Nat} (h : ufsDircheckforname e t tdp tnm = .ok o) : (t tdp).find tnm = o := by
  unfold ufsDircheckforname at h
  split at h
  · cases h
  split at h
  · next hnone =>
    cases h
    exact hnone
  · next ino hsome =>
    split_ifs at h with hself
    · cases h
      rw [hsome, hself]
    · split at h
      · cases h
      · cases h
        exact hsome

lemma direnterRename_ok {fuel : Nat} (hdir : (t sip).isDir = true) (hshort : (t sip).short = false)
    (hlink : (t sip).nlink ≠ 0) (hne : sdp ≠ tdp)
    (h : direnterRename e t tdp tnm sdp sip fuel = some (none, t')) :
    ufsDircheckpath e t sip tdp fuel = some none ∧ Moved t t' sip tdp tnm := by
  unfold direnterRename at h
  simp only [if_pos (And.intro hdir hne)] at h
  split at h
  · cases h
  split at h
  · cases h
  split at h
  · cases h
  split at h
  · cases h
  rename_i hself
  cases haccess : e.access sip .write with
  | some err =>
    simp only [haccess] at h
    cases h
  | none =>
    simp only [haccess] at h
    split at h
    · cases h
    · cases h
    · next hpath =>
      refine ⟨hpath, ?_⟩
      split at h
      · cases h
      · next tip hfound =>
        exact ufsDirrename_ok hdir hshort hlink hne hself (ufsDircheckforname_ok hfound) (some.inj h)
      · next hnone =>
        split at h
        · cases h
        · exact ufsDiraddentry_ok hdir hshort hlink (ufsDircheckforname_ok hnone) (some.inj h)

theorem ufsDirenter_ok {fuel : Nat} (hdir : (t sip).isDir = true) (hshort : (t sip).short = false)
    (hlink : 0 < (t sip).nlink) (hne : sdp ≠ tdp) (htop : (t ufsRootIno).dotdot = ufsRootIno)
    (h : ufsDirenter e t tdp tnm sdp sip fuel = some (none, t')) :
    ¬Reaches (dotdotOf t) sip tdp ∧ Moved t t' sip tdp tnm := by
  have hbump : dotdotOf (t.modify sip (DirInode.link 1)) = dotdotOf t := by
    funext d
    exact modify_link_dotdot 1 d
  have hlink' : (t.modify sip (DirInode.link 1) sip).nlink ≠ 0 := by
    unfold Names.modify DirInode.link
    rw [update_self]
    dsimp only
    omega
  have hmoved : ∀ {t'}, Moved (t.modify sip (DirInode.link 1)) t' sip tdp tnm → Moved t t' sip tdp tnm := by
    intro t' hm
    exact ⟨fun d => by rw [hm.isDir, modify_link_isDir], fun d => by rw [hm.short, modify_link_short],
      fun d nm => by rw [hm.find, modify_link_find], fun d => by rw [hm.dotdot, modify_link_dotdot],
      fun tip htip => by simpa using hm.gone tip (by rw [modify_link_find]; exact htip)⟩
  unfold ufsDirenter at h
  split_ifs at h
  · cases h
  · cases h
  · cases h
  · cases h
  · cases h
  · split at h
    · cases h
    · next t3 hin =>
      cases h
      obtain ⟨hpath, hm⟩ := direnterRename_ok (by simpa using hdir) (by simpa using hshort) hlink' hne hin
      refine ⟨?_, hmoved hm⟩
      rw [← hbump]
      exact ufsDircheckpath_accepts (by rw [modify_link_dotdot]; exact htop) hpath
    · cases h

structure Removed (t t' : Names) (sdp : Nat) (snm : String) (sip : Nat) : Prop where
  named : (t sdp).find snm = some sip
  isDir : ∀ d, (t' d).isDir = (t d).isDir
  short : ∀ d, (t' d).short = (t d).short
  find : ∀ d nm, (t' d).find nm = if d = sdp ∧ nm = snm then none else (t d).find nm
  dotdot : ∀ d, (t' d).dotdot = (t d).dotdot

lemma ufsDirremove_ok (h : ufsDirremove e t sdp snm sip = (none, t')) : Removed t t' sdp snm sip := by
  unfold ufsDirremove at h
  split at h
  · cases h
  split at h
  · cases h
  split at h
  · cases h
  split at h
  · cases h
  split at h
  · cases h
  split at h
  · cases h
  · cases h
  rename_i ip hfound
  split at h
  · cases h
  rename_i hsame
  have hip : sip = ip := not_not.mp hsame
  split at h
  · cases h
  split at h
  · cases h
  have hnamed : (t sdp).find snm = some sip := by
    rw [hip]
    exact ufsDircheckforname_ok hfound
  have herase : Removed t (t.modify sdp (DirInode.erase snm)) sdp snm sip :=
    ⟨hnamed, fun d => modify_field (DirInode.erase snm) DirInode.isDir (fun _ => rfl) d,
      fun d => modify_field (DirInode.erase snm) DirInode.short (fun _ => rfl) d,
      fun d nm => modify_erase_find snm nm d,
      fun d => modify_field (DirInode.erase snm) DirInode.dotdot (fun _ => rfl) d⟩
  dsimp only at h
  split at h
  · cases h
    exact ⟨hnamed, fun d => by rw [modify_link_isDir, herase.isDir], fun d => by rw [modify_link_short, herase.short],
      fun d nm => by rw [modify_link_find, herase.find], fun d => by rw [modify_link_dotdot, herase.dotdot]⟩
  · cases h
    exact herase

/-- The directories that are left when the name no longer stands for one of them. -/
def remaining (t : Names) (dirs : Set Nat) (tdp : Nat) (tnm : String) : Set Nat :=
  {d ∈ dirs | (t tdp).find tnm ≠ some d}

lemma DirTree.moved (htree : DirTree t dirs) (hsip : sip ∈ dirs) (htdp : tdp ∈ dirs) (hne : sdp ≠ tdp)
    (hpath : ¬Reaches (dotdotOf t) sip tdp) (hm : Moved t t₁ sip tdp tnm) (hr : Removed t₁ t₂ sdp snm sip) :
    DirTree t₂ (remaining t dirs tdp tnm) := by
  have hdotdot : ∀ d, (t₂ d).dotdot = if d = sip then tdp else (t d).dotdot := fun d => by
    rw [hr.dotdot, hm.dotdot]
  have hup : dotdotOf t₂ = update (dotdotOf t) sip tdp := by
    funext d
    rw [update_apply]
    exact hdotdot d
  have hnotself : (t tdp).find tnm ≠ some tdp := by
    intro hfind
    have hnone := (hm.gone tdp hfind).2.2.1 tnm
    rw [hfind] at hnone
    cases hnone
  have hnotroot : (t tdp).find tnm ≠ some ufsRootIno := by
    intro hfind
    have hparent := (hm.gone ufsRootIno hfind).2.2.2
    rw [htree.top] at hparent
    rw [← hparent] at hnotself
    rw [← hparent] at hfind
    exact hnotself hfind
  have hmoves : sip ≠ ufsRootIno := by
    rintro rfl
    exact hpath (htree.reaches tdp htdp)
  constructor
  · exact ⟨htree.root, hnotroot⟩
  · rw [hdotdot, if_neg (Ne.symm hmoves)]
    exact htree.top
  · rintro d ⟨hd, -⟩
    rw [hr.isDir, hm.isDir]
    exact htree.isDir d hd
  · rintro d ⟨hd, -⟩
    rw [hr.short, hm.short]
    exact htree.sized d hd
  · rintro d ⟨hd, hleft⟩
    rw [hdotdot]
    by_cases hds : d = sip
    · rw [if_pos hds]
      exact ⟨htdp, hnotself⟩
    rw [if_neg hds]
    refine ⟨htree.parent d hd, fun hfind => ?_⟩
    -- the directory that has been removed was empty
    have hdr : d ≠ ufsRootIno := by
      rintro rfl
      rw [htree.top] at hfind
      exact hnotroot hfind
    obtain ⟨name, hname⟩ := htree.listed d hd hdr
    rw [(hm.gone _ hfind).2.2.1 name] at hname
    cases hname
  · rintro d ⟨hd, hleft⟩ hdr
    rw [hdotdot]
    by_cases hds : d = sip
    · rw [if_pos hds]
      refine ⟨tnm, ?_⟩
      rw [hr.find, if_neg fun h => hne h.1.symm, hm.find, if_pos ⟨rfl, rfl⟩, hds]
    rw [if_neg hds]
    obtain ⟨name, hname⟩ := htree.listed d hd hdr
    refine ⟨name, ?_⟩
    rw [hr.find, if_neg, hm.find, if_neg]
    · exact hname
    · rintro ⟨hp, hn⟩
      rw [hp, hn] at hname
      exact hleft hname
    · rintro ⟨hp, hn⟩
      have hnamed := hr.named
      rw [hm.find, if_neg fun h => hne h.1, ← hp, ← hn, hname] at hnamed
      exact hds (some.inj hnamed)
  · rintro d ⟨hd, -⟩
    rw [hup]
    exact (htree.reaches d hd).move (htree.reaches tdp htdp) hpath

/-- A rename that is accepted leaves the directories connected; the check of the path is exact and ends. -/
theorem rename_keeps_directories (htree : DirTree t dirs) :
    (∀ (e e' : Env) (sip sdp tdp fuel : Nat) (snm tnm : String) (t₁ t₂ : Names), sip ∈ dirs → tdp ∈ dirs →
      sdp ≠ tdp → 0 < (t sip).nlink → ufsDirenter e t tdp tnm sdp sip fuel = some (none, t₁) →
      ufsDirremove e' t₁ sdp snm sip = (none, t₂) → DirTree t₂ (remaining t dirs tdp tnm)) ∧
    (∀ (e : Env) (source target : Nat), target ∈ dirs →
      ∃ n r, ∀ fuel, n ≤ fuel → ufsDircheckpath e t source target fuel = some r) ∧
    (∀ (e : Env) (source target fuel : Nat) (r : Option Errno), target ∈ dirs → Readable e t dirs →
      ufsDircheckpath e t source target fuel = some r →
      (r = some .einval ↔ Reaches (dotdotOf t) source target)) := by
  refine ⟨?_, ?_, ?_⟩
  · intro e e' sip sdp tdp fuel snm tnm t₁ t₂ hsip htdp hne hlink henter hremove
    obtain ⟨hpath, hm⟩ := ufsDirenter_ok (htree.isDir sip hsip) (htree.sized sip hsip) hlink hne htree.top henter
    exact htree.moved hsip htdp hne hpath hm (ufsDirremove_ok hremove)
  · intro e source target htarget
    exact ufsDircheckpath_ends htree e source htarget
  · intro e source target fuel r htarget hread h
    exact ufsDircheckpath_exact htree hread htarget h

def sampleNames : Names := fun i =>
  { isDir := true
    nlink := if i = 2 then 4 else 2
    entries := if i = 2 then [("a", 3), ("b", 4)] else []
    dotdot := 2
    dotdotName := true
    short := false }

def quietEnv : Env where
  access := fun _ _ => none
  sticky := fun _ _ => none
  blkatoff := fun _ => none
  search := fun _ => none
  prepare := fun _ => none
  iget := fun _ => none
  scan := fun _ => true
  sameVfs := fun _ _ => true
  vfslocked := fun _ => false
  mountedhere := fun _ => false

lemma sampleNames_tree : DirTree sampleNames {2, 3, 4} where
  root := by simp [ufsRootIno]
  top := rfl
  isDir := fun _ _ => rfl
  sized := fun _ _ => rfl
  parent := fun _ _ => by simp [sampleNames]
  listed := by
    intro d hd hdr
    rcases hd with rfl | rfl | rfl
    · exact absurd rfl hdr
    · exact ⟨"a", by decide⟩
    · exact ⟨"b", by decide⟩
  reaches := fun _ _ => ⟨1, rfl⟩

/-- Directory `b` moves into directory `a`. -/
theorem rename_keeps_directories_sample : ∃ t₁ t₂, ufsDirenter quietEnv sampleNames 3 "b" 2 4 2 = some (none, t₁) ∧
    ufsDirremove quietEnv t₁ 2 "b" 4 = (none, t₂) ∧ DirTree t₂ (remaining sampleNames {2, 3, 4} 3 "b") := by
  have hrun : ((ufsDirenter quietEnv sampleNames 3 "b" 2 4 2).map fun r =>
      (r.1, (ufsDirremove quietEnv r.2 2 "b" 4).1)) = some (none, none) := by decide +kernel
  cases henter : ufsDirenter quietEnv sampleNames 3 "b" 2 4 2 with
  | none =>
    rw [henter] at hrun
    cases hrun
  | some r =>
    obtain ⟨err, t₁⟩ := r
    rw [henter] at hrun
    obtain ⟨herr, hremove⟩ := Prod.mk.inj (some.inj hrun)
    subst herr
    refine ⟨t₁, (ufsDirremove quietEnv t₁ 2 "b" 4).2, rfl, Prod.ext hremove rfl, ?_⟩
    exact (rename_keeps_directories sampleNames_tree).1 quietEnv quietEnv 4 2 3 2 "b" "b" t₁ _ (by simp) (by simp)
      (by decide) (by decide) henter (Prod.ext hremove rfl)

end Solaris.Ufs
