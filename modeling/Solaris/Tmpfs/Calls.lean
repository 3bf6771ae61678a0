import Solaris.Tmpfs.NewNodes

/-!
# Calls keep the shape and the counts

A call of `tdirenter` counts a link ahead of time and gives it back when it fails. The counts stay right unless a
directory cannot be initialized, or a directory is moved whose `..` does not name the directory that it is moved from.
-/

namespace Solaris.Tmpfs

open Lib List Nat Option

variable {s s' : Fs} {U : Finset EntId} {d n dir tp found : NodeId} {t e tdp : EntId} {a : Enter}

/-- `..` of the directory `d` names `p`. -/
def DotdotNames (s : Fs) (d p : NodeId) : Prop :=
  ∃ e, tmpfsHashLookup s dotdot d = some e ∧ (s.ents e).tmpnode = p

def Searches (s : Fs) (a : Enter) : Prop :=
  nameError a.op a.name = none ∧ linkError s a = none ∧ searchError (bumpLink s a 1) a = some none

/-- The call finds the name free and may write in the directory. -/
def EntersNew (s : Fs) (a : Enter) : Prop :=
  Searches s a ∧ tdircheckforname (bumpLink s a 1) a.dir a.name a.cred = .error .enoent ∧
    tmpTaccess ((bumpLink s a 1).node a.dir) VWRITE a.cred = none

/-- The call moves a directory, to a free name or over an entry. -/
def MovesDirectory (s : Fs) (a : Enter) : Prop :=
  a.op = .rename ∧ (s.node a.tp).type = .vdir ∧
    (EntersNew s a ∧ addentryError (bumpLink s a 1) a.dir a.tp = none ∨
      Searches s a ∧ a.fromparent ≠ a.dir ∧ ∃ tdp, tdircheckforname (bumpLink s a 1) a.dir a.name a.cred = .ok tdp ∧
        renameError (bumpLink s a 1) a.cred a.fromparent a.tp a.dir (s.ents tdp).tmpnode a.busy = none)

/-- A new directory that has got its node gets its entries too, and a directory that is moved has in `..` the directory
that it is moved from. -/
structure Enter.Sound (s : Fs) (a : Enter) : Prop where
  init : a.op = .mkdir → EntersNew s a → a.mem.node ≠ none → a.mem.dot ≠ none ∧ a.mem.dotdot ≠ none
  move : MovesDirectory s a → DotdotNames s a.tp a.fromparent

/-- What the callers of `tdirenter` and the allocator see to. -/
structure Enter.Legal (s : Fs) (a : Enter) : Prop where
  dir : a.dir ∈ s.nodes
  dirType : (s.node a.dir).type = .vdir
  tp : a.op.links = true → a.tp ∈ s.nodes
  create : a.op = .create → a.va.type ≠ .vdir
  mkdir : a.op = .mkdir → a.va.type = .vdir
  node : ∀ t ∈ a.mem.node, t ∉ s.nodes
  dot : ∀ e ∈ a.mem.dot, e ∉ s.used
  dotdot : ∀ e ∈ a.mem.dotdot, e ∉ s.used ∧ a.mem.dot ≠ some e
  entry : ∀ e ∈ a.mem.entry, e ∉ s.used ∧ a.mem.dot ≠ some e ∧ a.mem.dotdot ≠ some e

/-- `tmp_rmdir` has checked the links of the directory. -/
structure Delete.Legal (s : Fs) (a : Delete) : Prop where
  dir : a.dir ∈ s.nodes
  rmdir : a.op = .rmdir → (s.node a.tp).nlink ≤ 2

structure Sane (s : Fs) : Prop where
  shape : Shape s s.used none
  tally : Tallied s s.used (fun _ => 0) (fun _ => 0)

def ahead (a : Enter) (n : NodeId) : Int := if a.op.links = true then only a.tp 1 n else 0

/-- A part of the call has left the shape, and the link ahead only when it failed. -/
structure Settled (a : Enter) (r : Entered) : Prop where
  shape : Shape r.fs r.fs.used none
  failed : r.error ≠ none → Tallied r.fs r.fs.used (ahead a) (fun _ => 0)
  done : r.error = none → Tallied r.fs r.fs.used (fun _ => 0) (fun _ => 0)

lemma settled_unchanged {p : Option NodeId} {err : Errno} (hshape : Shape s s.used none)
    (htally : Tallied s s.used (ahead a) (fun _ => 0)) : Settled a ⟨some err, p, s⟩ :=
  ⟨hshape, fun _ => htally, fun h => (by cases h)⟩

lemma settled_done {p : Option NodeId} (hshape : Shape s s.used none)
    (htally : Tallied s s.used (fun _ => 0) (fun _ => 0)) : Settled a ⟨none, p, s⟩ :=
  ⟨hshape, fun h => absurd rfl h, fun _ => htally⟩

lemma tdircheckforname_ok {cred : Cred} {name : Name} (h : Shape s s.used none)
    (hcheck : tdircheckforname s dir name cred = .ok tdp) :
    tdp ∈ s.used ∧ (s.ents tdp).parent = dir ∧ (s.ents tdp).name = name := by
  unfold tdircheckforname at hcheck
  split at hcheck
  · cases hcheck
  · split at hcheck
    · next hlookup =>
      cases hcheck
      exact tmpfsHashLookup_some h.hashed hlookup
    · cases hcheck

lemma tdircheckforname_enoent {cred : Cred} {name : Name} (h : Shape s s.used none)
    (hcheck : tdircheckforname s dir name cred = .error .enoent) :
    ∀ e ∈ s.used, (s.ents e).parent = dir → (s.ents e).name ≠ name := by
  unfold tdircheckforname at hcheck
  split at hcheck
  · next err haccess =>
    unfold tmpTaccess at haccess
    cases hcheck
    dsimp only at haccess
    split_ifs at haccess <;> cases haccess
  · split at hcheck
    · cases hcheck
    · next hlookup => exact tmpfsHashLookup_none h.hashed hlookup

lemma Sane.live (h : Sane s) (htp : tp ∈ s.nodes) (hlink : (s.node tp).nlink ≠ 0) :
    (s.node tp).type = .vdir → (s.node tp).dir ≠ none := by
  have hnaming : naming s s.used tp ≠ 0 := by
    have := h.tally.nlink tp htp
    omega
  obtain ⟨e, he, rfl⟩ := exists_of_naming hnaming
  exact h.shape.sited.live e he (some_ne_none _)

theorem countEntries_le {pre post : List EntId} (h : Listed s U d (pre ++ post)) {fuel : Nat}
    (hcount : countEntries s fuel post.head? < fuel) : post.length < fuel := by
  induction post generalizing pre fuel with
  | nil =>
    cases fuel with
    | zero => exact absurd hcount (not_lt_zero _)
    | succ fuel => exact succ_pos fuel
  | cons x post ih =>
    cases fuel with
    | zero => exact absurd hcount (not_lt_zero _)
    | succ fuel =>
      have hnext : (s.ents x).next = post.head? := h.next
      rw [head?_cons, countEntries, hnext] at hcount
      have hrest : Listed s U d ((pre ++ [x]) ++ post) := by rwa [append_assoc]
      have := ih hrest (lt_of_succ_lt_succ hcount)
      rw [length_cons]
      omega

theorem tdirempty_names (h : Shape s U none) (hd : d ∈ s.nodes) (htype : (s.node d).type = .vdir)
    (hempty : tdirempty s d = true) (he : e ∈ U) (hparent : (s.ents e).parent = d) :
    (s.ents e).name = dot ∨ (s.ents e).name = dotdot := by
  obtain ⟨l, hl, hord⟩ := h.lists d hd htype (some_ne_none d)
  have hmem : e ∈ l := (hl.mem e).mpr ⟨he, hparent⟩
  have hlen : l.length < 3 := by
    refine countEntries_le (show Listed s U d ([] ++ l) from hl) ?_
    rw [← hl.head]
    unfold tdirempty at hempty
    have := of_decide_eq_true hempty
    omega
  rcases hord.starts with rfl | ⟨x, y, rest, rfl, hx, -, hy, -⟩
  · exact absurd hmem not_mem_nil
  have hrest : rest = [] := by
    simp only [length_cons] at hlen
    exact eq_nil_of_length_eq_zero (by omega)
  rw [hrest] at hmem
  simp only [mem_cons, not_mem_nil, or_false] at hmem
  rcases hmem with rfl | rfl
  · exact .inl hx
  · exact .inr hy

/-- The facts of a rename when it comes to `tdirrename` or to `tdiraddentry`. -/
structure Renaming (s : Fs) (a : Enter) : Prop where
  shape : Shape s s.used none
  tally : Tallied s s.used (only a.tp 1) (fun _ => 0)
  dir : a.dir ∈ s.nodes
  dirType : (s.node a.dir).type = .vdir
  tp : a.tp ∈ s.nodes
  live : (s.node a.tp).type = .vdir → (s.node a.tp).dir ≠ none

lemma renameError_none {cred : Cred} {fromparent fromtp toparent target : NodeId} {busy : Bool}
    (h : renameError s cred fromparent fromtp toparent target busy = none) :
    (s.node target).vfsp = (s.node toparent).vfsp ∧ (s.node target).vfsp = (s.node fromtp).vfsp ∧ fromtp ≠ target ∧
      ((s.node fromtp).type = .vdir →
        (s.node target).type = .vdir ∧ tdirempty s target = true ∧ (s.node target).nlink ≤ 2) := by
  unfold renameError at h
  split at h
  · cases h
  next hmount =>
  split at h
  · cases h
  next hne =>
  split at h
  · cases h
  split at h
  · cases h
  rw [not_or, not_not, not_not] at hmount
  refine ⟨hmount.1, hmount.2, hne, fun hdir => ?_⟩
  split at h
  · next htype =>
    split at h
    · cases h
    split at h
    · cases h
    split at h
    · cases h
    next hfull =>
    rw [not_or, Bool.not_eq_false, not_lt] at hfull
    exact ⟨htype, hfull⟩
  · cases h

lemma replaceEntry_spec (h : Renaming s a) (htdp : tdp ∈ s.used) (hparent : (s.ents tdp).parent = a.dir)
    (hdot : (s.ents tdp).name ≠ dot) (hdotdot : (s.ents tdp).name ≠ dotdot) {busy : Bool}
    (hcheck : renameError s a.cred a.fromparent a.tp a.dir (s.ents tdp).tmpnode busy = none)
    (hmove : (s.node a.tp).type = .vdir → a.fromparent ≠ a.dir → DotdotNames s a.tp a.fromparent) :
    ∃ s', replaceEntry s a.fromparent a.tp a.dir (s.ents tdp).tmpnode tdp = (none, s') ∧ Shape s' s'.used none ∧
      Tallied s' s'.used (fun _ => 0) (fun _ => 0) := by
  obtain ⟨hmount, hmount', hne, hdirs⟩ := renameError_none hcheck
  set found := (s.ents tdp).tmpnode with hfound
  have hfoundMem : found ∈ s.nodes := h.shape.sited.tmpnode tdp htdp
  have hshape2 : Shape (s.setEnt tdp fun td => { td with tmpnode := a.tp }) s.used none :=
    h.shape.setTmpnode hdot h.tp (by rw [hparent, ← hmount, hmount']) h.live
  have htally2 := h.tally.setTmpnode htdp a.tp
  set s3 := (s.setEnt tdp fun td => { td with tmpnode := a.tp }).addNlink found (-1) with hs3
  have hshape3 : Shape s3 s3.used none := hshape2.addNlink ..
  have htally3 : Tallied s3 s3.used (fun _ => 0) (fun _ => 0) := by
    refine (htally2.addNlink found (-1)).offset fun n => ?_
    unfold only
    split_ifs <;> omega
  have hsame : SameDirs s s3 := (sameDirs_setTmpnode ..).trans (sameDirs_addNlink ..)
  unfold replaceEntry
  by_cases hdir : (s.node a.tp).type = .vdir
  · obtain ⟨htype, hempty, hlinks⟩ := hdirs hdir
    rw [if_pos (by rw [hsame.type]; exact hdir)]
    have htype3 : (s3.node found).type = .vdir := by rw [hsame.type, htype]
    have hmem3 : found ∈ s3.nodes := by rw [hsame.nodes]; exact hfoundMem
    have hlink3 : naming s3 s3.used found ≤ 1 := by
      have hn := htally3.nlink found hmem3
      have hdec : (s3.node found).nlink = (s.node found).nlink + only found (-1) found := by
        rw [hs3, addNlink_nlink]
        rfl
      rw [hdec] at hn
      unfold only at hn
      rw [if_pos rfl] at hn
      omega
    have hlive3 : (s3.node found).dir ≠ none := by
      rw [hsame.dir]
      exact h.shape.sited.live tdp htdp (some_ne_none _) htype
    have halone := hshape3.alone hmem3 htype3 hlive3 hlink3
    have htm : vtotm s3 a.dir = (s3.node found).vfsp := by
      unfold vtotm
      rw [hsame.vfsp, hsame.vfsp, hmount]
    obtain ⟨hshape4, htally4, htrunc, hgone, -⟩ := tdirtrunc_spec hshape3 htally3 hmem3 htype3 htm halone
    set s4 := tdirtrunc s3 (vtotm s3 a.dir) found
    by_cases hsamedir : a.fromparent = a.dir
    · rw [if_neg (not_not.mpr hsamedir)]
      exact ⟨s4, rfl, hshape4, htally4⟩
    rw [if_pos hsamedir]
    obtain ⟨e, hlookup, hnames⟩ := hmove hdir hsamedir
    obtain ⟨he, hep, hename⟩ := tmpfsHashLookup_some h.shape.hashed hlookup
    have hetdp : e ≠ tdp := by
      rintro rfl
      exact hdotdot hename
    have he4 : e ∈ s4.used := htrunc.keep e (by rw [hsame.used]; exact he) (by rw [hsame.parent, hep]; exact hne)
    -- the target is not the directory itself, which holds the entry
    have hdirfound : a.dir ≠ found := by
      intro heq
      rw [← heq] at hempty
      rcases tdirempty_names h.shape h.dir h.dirType hempty htdp hparent with hn | hn
      · exact hdot hn
      · exact hdotdot hn
    obtain ⟨s5, hfix, hshape5, htally5, -⟩ := tdirfixdotdot_spec a.fromparent hshape4 htally4
      he4 (by rw [htrunc.parent, hsame.parent, hep])
      (by rw [htrunc.name, hsame.name, hename])
      (by
        rw [htrunc.tmpnode]
        change ((s.setEnt tdp fun td => { td with tmpnode := a.tp }).ents e).tmpnode = _
        rw [setTmpnode_tmpnode, if_neg hetdp, hnames])
      (by rw [htrunc.nodes, hsame.nodes]; exact h.dir)
      (by rw [htrunc.vfsp, htrunc.vfsp, hsame.vfsp, hsame.vfsp, ← hmount, hmount'])
      (by
        intro _
        rw [htrunc.dir _ hdirfound, hsame.dir, ← hparent]
        exact h.shape.dir_ne_none htdp)
      (le_refl 0)
    exact ⟨s5, hfix, hshape5, htally5⟩
  · rw [if_neg (by rw [hsame.type]; exact hdir)]
    exact ⟨s3, rfl, hshape3, htally3⟩

lemma addentryError_none (h : addentryError s dir tp = none) :
    (s.node dir).dir ≠ none ∧ (s.node tp).vfsp = (s.node dir).vfsp := by
  unfold addentryError at h
  split at h
  · cases h
  next hdir =>
  split at h
  · cases h
  next hmount => exact ⟨hdir, not_not.mp hmount⟩

theorem Shape.free_ne_dot {name : Name} (h : Shape s U none) (hd : dir ∈ s.nodes) (htype : (s.node dir).type = .vdir)
    (hdir : (s.node dir).dir ≠ none) (hfree : ∀ e ∈ U, (s.ents e).parent = dir → (s.ents e).name ≠ name) : name ≠ dot := by
  obtain ⟨x, hx, hparent, hname, -⟩ := h.dotEntry hd htype hdir
  rintro rfl
  exact hfree x hx hparent hname

lemma enterNew_links (h : Renaming s a) (hlinks : a.op.links = true) (hfree : ∀ e ∈ s.used, (s.ents e).parent = a.dir →
    (s.ents e).name ≠ a.name) (hentry : ∀ e ∈ a.mem.entry, e ∉ s.used)
    (hmove : a.op = .rename → (s.node a.tp).type = .vdir → tmpTaccess (s.node a.dir) VWRITE a.cred = none →
      addentryError s a.dir a.tp = none → DotdotNames s a.tp a.fromparent) : Settled a (enterNew s a) := by
  have hahead : ahead a = only a.tp 1 := by
    funext n
    exact if_pos hlinks
  have htally : Tallied s s.used (ahead a) (fun _ => 0) := hahead ▸ h.tally
  unfold enterNew
  split
  · exact settled_unchanged h.shape htally
  next haccess =>
  rw [if_pos hlinks]
  unfold tdiraddentry
  cases hcheck : addentryError s a.dir a.tp with
  | some err => exact settled_unchanged h.shape htally
  | none =>
    obtain ⟨hfirst, hmount⟩ := addentryError_none hcheck
    have hinstall : ∀ s1, Shape s1 s1.used none → Tallied s1 s1.used (only a.tp 1) (fun _ => 0) → SameDirs s s1 →
        (∀ err s2, installEntry s1 a.dir a.tp a.name a.mem.entry = (some err, s2) → Settled a ⟨some err, none, s2⟩) ∧
          ∀ p s2, installEntry s1 a.dir a.tp a.name a.mem.entry = (none, s2) → Settled a ⟨none, p, s2⟩ := by
      intro s1 hshape1 htally1 hsame
      cases hmem : a.mem.entry with
      | none =>
        refine ⟨fun err s2 heq => ?_, fun p s2 heq => (by cases heq)⟩
        cases heq
        exact settled_unchanged hshape1 (hahead ▸ htally1)
      | some t =>
        have hfree1 : ∀ e ∈ s1.used, (s1.ents e).parent = a.dir → (s1.ents e).name ≠ a.name := by
          intro e he
          rw [hsame.parent, hsame.name]
          exact hfree e (hsame.used ▸ he)
        have hdir1 : a.dir ∈ s1.nodes := by rw [hsame.nodes]; exact h.dir
        have htype1 : (s1.node a.dir).type = .vdir := by rw [hsame.type]; exact h.dirType
        have hfirst1 : (s1.node a.dir).dir ≠ none := by rw [hsame.dir]; exact hfirst
        obtain ⟨s3, hins, hshape3, htally3⟩ := installEntry_spec hshape1 htally1 hdir1 htype1 hfirst1
          (by rw [hsame.nodes]; exact h.tp) (by rw [hsame.vfsp, hsame.vfsp]; exact hmount)
          (by rw [hsame.type, hsame.dir]; exact h.live)
          (by rw [hsame.used]; exact hentry t hmem)
          (hshape1.free_ne_dot hdir1 htype1 hfirst1 hfree1) hfree1
        rw [hins]
        refine ⟨fun err s2 heq => (by cases heq), fun p s2 heq => ?_⟩
        cases heq
        refine settled_done hshape3 (htally3.offset fun n => ?_)
        exact sub_self _
    by_cases hdotdot : a.op = .rename ∧ (s.node a.tp).type = .vdir
    · rw [if_pos hdotdot]
      obtain ⟨e, hlookup, hnames⟩ := hmove hdotdot.1 hdotdot.2 haccess hcheck
      obtain ⟨he, hep, hename⟩ := tmpfsHashLookup_some h.shape.hashed hlookup
      obtain ⟨s1, hfix, hshape1, htally1, hsame⟩ := tdirfixdotdot_spec a.fromparent h.shape h.tally
        he hep hename hnames h.dir hmount.symm (fun _ => hfirst)
        (by
          unfold only
          split_ifs <;> decide)
      rw [hfix]
      obtain ⟨hfail, hdone⟩ := hinstall s1 hshape1 htally1 hsame
      split
      · next err s2 heq => exact hfail err s2 heq
      · next s2 heq => exact hdone _ s2 heq
    · rw [if_neg hdotdot]
      obtain ⟨hfail, hdone⟩ := hinstall s h.shape h.tally (SameDirs.refl s)
      split
      · next err s2 heq => exact hfail err s2 heq
      · next s2 heq => exact hdone _ s2 heq

/-- The state that `tdirmaketnode` leaves. -/
structure Made (s s' : Fs) (dir t : NodeId) : Prop where
  shape : Shape s' s'.used none
  tally : Tallied s' s'.used (only t 1) (fun _ => 0)
  mem : t ∈ s'.nodes
  nodes : s.nodes ⊆ s'.nodes
  dirType : (s'.node dir).type = (s.node dir).type
  dirFirst : (s'.node dir).dir = (s.node dir).dir
  mount : (s'.node t).vfsp = (s'.node dir).vfsp
  live : (s'.node t).type = .vdir → (s'.node t).dir ≠ none
  alone : ∀ e ∈ s'.used, (s'.ents e).tmpnode = t → (s'.ents e).parent = t
  old : ∀ e ∈ s'.used, (s'.ents e).parent = dir → e ∈ s.used ∧ (s.ents e).parent = dir ∧
    (s'.ents e).name = (s.ents e).name

lemma tdirmaketnode_spec (h : Sane s) (hlegal : a.Legal s) (hlinks : a.op.links = false)
    (hinit : a.op = .mkdir → a.mem.node ≠ none → a.mem.dot ≠ none ∧ a.mem.dotdot ≠ none)
    (hfirst : (s.node a.dir).dir ≠ none) {t : NodeId} {s' : Fs}
    (hmake : tdirmaketnode s a.dir a.va a.op a.cred a.mem = (.ok t, s')) :
    Made s s' a.dir t ∧ ∀ e ∈ a.mem.entry, e ∉ s'.used := by
  unfold tdirmaketnode at hmake
  split at hmake
  · cases hmake
  next t0 hnode =>
  have ht0 : t0 ∉ s.nodes := hlegal.node t0 hnode
  have hne : a.dir ≠ t0 := by
    rintro heq
    exact ht0 (heq ▸ hlegal.dir)
  obtain ⟨hshape1, htally1⟩ := tmpnodeAlloc_spec h.shape h.tally ht0 rfl
    (newTmpnode (vtotm s a.dir) (s.node a.dir) a.va a.cred) rfl rfl
  set s1 := tmpnodeAlloc s t0 (newTmpnode (vtotm s a.dir) (s.node a.dir) a.va a.cred) with hs1
  have hself : s1.node t0 = newTmpnode (vtotm s a.dir) (s.node a.dir) a.va a.cred := Function.update_self ..
  have hdir : s1.node a.dir = s.node a.dir := Function.update_of_ne hne ..
  have htally1' : Tallied s1 s1.used (only t0 1) (fun _ => 0) := htally1.offset fun n => zero_add _
  have hnone : ∀ e ∈ s.used, (s.ents e).tmpnode ≠ t0 := by
    rintro e he rfl
    exact ht0 (h.shape.sited.tmpnode e he)
  have hnot : ∀ e ∈ s.used, (s.ents e).parent ≠ t0 := by
    rintro e he rfl
    exact ht0 (h.shape.sited.parent e he)
  dsimp only at hmake
  split at hmake
  · next hop =>
    obtain ⟨hdot, hdotdot⟩ := hinit hop (by rw [hnode]; exact some_ne_none _)
    obtain ⟨x, hx⟩ := ne_none_iff_exists'.mp hdot
    obtain ⟨y, hy⟩ := ne_none_iff_exists'.mp hdotdot
    obtain ⟨hyfresh, hxy⟩ := hlegal.dotdot y hy
    have hblank : Blank s1 a.dir t0 x y := by
      refine ⟨Finset.mem_insert_self .., ?_, hnot, Finset.mem_insert_of_mem hlegal.dir, ?_, ?_, hlegal.dot x hx, hyfresh, ?_⟩
      · rw [hself]
        exact hlegal.mkdir hop
      · rw [hself, hdir]
        rfl
      · intro _ _
        rw [hdir]
        exact hfirst
      · rintro rfl
        exact hxy hx
    obtain ⟨hshape2, htally2, hused2, hnodes2, htype2, hvfsp2, hdir2, hents2, hxt, hyt, hxp, hyp⟩ :=
      initEntries_spec hshape1 htally1' hblank
    have hvfsp : (s1.node t0).vfsp = vtotm s a.dir := by rw [hself]; rfl
    have hvfsp1 : vtotm s1 a.dir = vtotm s a.dir := by
      unfold vtotm
      rw [hdir]
    have hmake' : tdirinit s1 (vtotm s1 a.dir) a.dir t0 a.mem = (none, initEntries s1 (s1.node t0).vfsp a.dir t0 x y) := by
      unfold tdirinit
      rw [hx, hy, hvfsp, hvfsp1]
    rw [hmake'] at hmake
    rw [Prod.mk.injEq, Except.ok.injEq] at hmake
    obtain ⟨rfl, rfl⟩ := hmake
    have hcases : ∀ e ∈ (initEntries s1 (s1.node t0).vfsp a.dir t0 x y).used, e = y ∨ e = x ∨ e ∈ s.used := by
      intro e he
      rw [hused2, Finset.mem_insert, Finset.mem_insert] at he
      exact he
    refine ⟨⟨hshape2, htally2, ?_, ?_, ?_, ?_, ?_, ?_, ?_, ?_⟩, ?_⟩
    · rw [hnodes2]
      exact Finset.mem_insert_self ..
    · rw [hnodes2]
      exact Finset.subset_insert ..
    · rw [htype2, hdir]
    · rw [hdir2, if_neg hne, hdir]
    · rw [hvfsp2, hvfsp2, hdir, hvfsp]
      rfl
    · intro _
      rw [hdir2, if_pos rfl]
      exact some_ne_none _
    · intro e he hname
      rcases hcases e he with rfl | rfl | he
      · exact hyp
      · exact hxp
      · rw [(hents2 e he).1] at hname
        exact absurd hname (hnone e he)
    · intro e he hparent
      rcases hcases e he with rfl | rfl | he
      · exact absurd (hparent.symm.trans hyp) hne
      · exact absurd (hparent.symm.trans hxp) hne
      · rw [(hents2 e he).2.1] at hparent
        exact ⟨he, hparent, (hents2 e he).2.2⟩
    · intro e hentry he
      obtain ⟨hfresh, hxe, hye⟩ := hlegal.entry e hentry
      rcases hcases e he with rfl | rfl | he
      · exact hye hy
      · exact hxe hx
      · exact hfresh he
  · next hop =>
    rw [Prod.mk.injEq, Except.ok.injEq] at hmake
    obtain ⟨rfl, rfl⟩ := hmake
    have hcreate : a.op = .create := by
      revert hlinks hop
      cases a.op <;> decide
    refine ⟨⟨hshape1, htally1', Finset.mem_insert_self .., Finset.subset_insert .., by rw [hdir], by rw [hdir], ?_, ?_, ?_, ?_⟩,
      fun e he => (hlegal.entry e he).1⟩
    · rw [hself, hdir]
      rfl
    · intro htype
      rw [hself] at htype
      exact absurd htype (hlegal.create hcreate)
    · exact fun e he hname => absurd hname (hnone e he)
    · exact fun e he hparent => ⟨he, hparent, rfl⟩

lemma tdirmaketnode_error
    (hinit : a.op = .mkdir → a.mem.node ≠ none → a.mem.dot ≠ none ∧ a.mem.dotdot ≠ none) {err : Errno} {s' : Fs}
    (hmake : tdirmaketnode s a.dir a.va a.op a.cred a.mem = (.error err, s')) : s' = s := by
  unfold tdirmaketnode at hmake
  split at hmake
  · cases hmake
    rfl
  next t0 hnode =>
  split at hmake
  · next hop =>
    obtain ⟨hdot, hdotdot⟩ := hinit hop (by rw [hnode]; exact some_ne_none _)
    obtain ⟨x, hx⟩ := ne_none_iff_exists'.mp hdot
    obtain ⟨y, hy⟩ := ne_none_iff_exists'.mp hdotdot
    unfold tdirinit at hmake
    rw [hx, hy] at hmake
    cases hmake
  · cases hmake

lemma enterNew_creates (h : Sane s) (hlegal : a.Legal s) (hlinks : a.op.links = false)
    (hfree : ∀ e ∈ s.used, (s.ents e).parent = a.dir → (s.ents e).name ≠ a.name)
    (hfirst : (s.node a.dir).dir ≠ none)
    (hinit : tmpTaccess (s.node a.dir) VWRITE a.cred = none → a.op = .mkdir → a.mem.node ≠ none →
      a.mem.dot ≠ none ∧ a.mem.dotdot ≠ none) : Settled a (enterNew s a) := by
  have hahead : ahead a = fun _ => 0 := by
    funext n
    unfold ahead
    rw [hlinks]
    rfl
  have htally : Tallied s s.used (ahead a) (fun _ => 0) := hahead ▸ h.tally
  unfold enterNew
  split
  · exact settled_unchanged h.shape htally
  next haccess =>
  rw [if_neg (by rw [hlinks]; exact Bool.false_ne_true)]
  have hinit' := hinit haccess
  split
  · next err s1 hmake =>
    rw [tdirmaketnode_error hinit' hmake]
    exact settled_unchanged h.shape htally
  next t s1 hmake =>
  obtain ⟨hmade, hfresh⟩ := tdirmaketnode_spec h hlegal hlinks hinit' hfirst hmake
  have hop : ¬(a.op = .rename ∧ (s1.node t).type = .vdir) := by
    rintro ⟨hop, -⟩
    rw [hop] at hlinks
    exact absurd hlinks (by decide)
  have hunmake : ∀ err p, Settled a ⟨some err, p, unmake s1 (vtotm s1 a.dir) t⟩ := by
    intro err p
    have hvfsp : vtotm s1 a.dir = (s1.node t).vfsp := hmade.mount.symm
    rw [hvfsp]
    obtain ⟨hshape, hunmade⟩ := unmake_spec hmade.shape hmade.tally hmade.mem hmade.alone
    exact settled_unchanged hshape (hahead ▸ hunmade)
  unfold tdiraddentry
  cases hcheck : addentryError s1 a.dir t with
  | some err => exact hunmake err none
  | none =>
    obtain ⟨hfirst1, hmount⟩ := addentryError_none hcheck
    rw [if_neg hop]
    cases hentry : a.mem.entry with
    | none => exact hunmake .enospc none
    | some e =>
      have hdir1 : a.dir ∈ s1.nodes := hmade.nodes hlegal.dir
      have htype1 : (s1.node a.dir).type = .vdir := hmade.dirType.trans hlegal.dirType
      have hfree1 : ∀ e ∈ s1.used, (s1.ents e).parent = a.dir → (s1.ents e).name ≠ a.name := by
        intro e he hparent
        obtain ⟨hold, hparent', hname⟩ := hmade.old e he hparent
        rw [hname]
        exact hfree e hold hparent'
      obtain ⟨s3, hins, hshape3, htally3⟩ := installEntry_spec hmade.shape hmade.tally hdir1 htype1 hfirst1
        hmade.mem hmount hmade.live (hfresh e hentry) (hmade.shape.free_ne_dot hdir1 htype1 hfirst1 hfree1) hfree1
      rw [hins]
      exact settled_done hshape3 (htally3.offset fun n => sub_self _)

lemma Settled.out {r : Entered} (h : Settled a r) : Sane (enterOut a r).fs := by
  unfold enterOut
  split
  · next err herr =>
    have hfailed := h.failed (by rw [herr]; exact some_ne_none _)
    unfold bumpLink
    split_ifs with hlinks
    · refine ⟨h.shape.addNlink .., (hfailed.addNlink a.tp (-1)).offset fun n => ?_⟩
      unfold ahead only
      split_ifs <;> rfl
    · refine ⟨h.shape, hfailed.offset fun n => ?_⟩
      unfold ahead
      rw [if_neg hlinks]
  · next herr => exact ⟨h.shape, h.done herr⟩

lemma enterSearched_settled (h : Sane s) (hlegal : a.Legal s) (hsound : a.Sound s) (hseek : Searches s a) :
    Settled a (enterSearched (bumpLink s a 1) a) := by
  obtain ⟨hname, hlink, hsearch⟩ := hseek
  set s1 := bumpLink s a 1 with hs1
  have hsame : SameDirs s s1 := by
    rw [hs1]
    unfold bumpLink
    split
    · exact sameDirs_addNlink ..
    · exact SameDirs.refl s
  have hents : s1.ents = s.ents := by
    rw [hs1]
    unfold bumpLink
    split <;> rfl
  have hshape : Shape s1 s1.used none := by
    rw [hs1]
    unfold bumpLink
    split
    · exact h.shape.addNlink ..
    · exact h.shape
  have htally : Tallied s1 s1.used (ahead a) (fun _ => 0) := by
    rw [hs1]
    unfold bumpLink
    split_ifs with hlinks
    · refine (h.tally.addNlink a.tp 1).offset fun n => ?_
      unfold ahead
      rw [if_pos hlinks, zero_add]
    · refine h.tally.offset fun n => ?_
      unfold ahead
      rw [if_neg hlinks]
  have hrenaming : a.op.links = true → Renaming s1 a := by
    intro hlinks
    have htp := hlegal.tp hlinks
    have hzero : (s.node a.tp).nlink ≠ 0 := by
      unfold linkError at hlink
      rw [if_pos hlinks] at hlink
      intro hzero
      rw [if_pos hzero] at hlink
      cases hlink
    refine ⟨hshape, ?_, by rw [hsame.nodes]; exact hlegal.dir, by rw [hsame.type]; exact hlegal.dirType,
      by rw [hsame.nodes]; exact htp, ?_⟩
    · refine htally.offset fun n => ?_
      unfold ahead
      rw [if_pos hlinks]
    · rw [hsame.type, hsame.dir]
      exact h.live htp hzero
  -- what the condition says of the state before the call holds of this one
  have hdotdot : DotdotNames s a.tp a.fromparent → DotdotNames s1 a.tp a.fromparent := by
    rintro ⟨e, hlookup, hnames⟩
    obtain ⟨he, hparent, hename⟩ := tmpfsHashLookup_some h.shape.hashed hlookup
    refine ⟨e, ?_, by rw [hents]; exact hnames⟩
    have := tmpfsHashLookup_of_mem hshape.hashed (by rw [hsame.used]; exact he)
    rwa [hents, hename, hparent] at this
  have hrename : a.op = .rename → a.op.links = true := by
    intro hop
    rw [hop]
    rfl
  unfold enterSearched
  split
  · next tdp hfound =>
    obtain ⟨hmem, hparent, htdpname⟩ := tdircheckforname_ok hshape hfound
    unfold enterFound
    dsimp only
    split
    · next hop =>
      split_ifs
      · exact settled_unchanged hshape htally
      · refine settled_done hshape (htally.offset fun n => ?_)
        unfold ahead
        rw [hop]
        rfl
    · next hop =>
      split_ifs
      · exact settled_unchanged hshape htally
      · refine settled_done hshape (htally.offset fun n => ?_)
        unfold ahead
        rw [hop]
        rfl
    · next hop =>
      split
      · exact settled_unchanged hshape htally
      · next hcheck =>
        have hnotdots : a.name ≠ dot ∧ a.name ≠ dotdot := by
          unfold nameError at hname
          rw [hop] at hname
          constructor
          · rintro heq
            rw [heq] at hname
            exact absurd hname (by decide)
          · rintro heq
            rw [heq] at hname
            exact absurd hname (by decide)
        obtain ⟨s2, hreplace, hshape2, htally2⟩ := replaceEntry_spec (hrenaming (hrename hop)) hmem hparent
          (by rw [htdpname]; exact hnotdots.1) (by rw [htdpname]; exact hnotdots.2) hcheck
          (by
            intro htype hne
            rw [hsame.type] at htype
            refine hdotdot (hsound.move ⟨hop, htype, .inr ⟨⟨hname, hlink, hsearch⟩, hne, tdp, hfound, ?_⟩⟩)
            rw [hents] at hcheck
            exact hcheck)
        rw [hreplace]
        exact settled_done hshape2 htally2
    · exact settled_unchanged hshape htally
  · next hnew =>
    have hfree := tdircheckforname_enoent hshape hnew
    by_cases hlinks : a.op.links = true
    · refine enterNew_links (hrenaming hlinks) hlinks hfree ?_ ?_
      · intro e he
        rw [hsame.used]
        exact (hlegal.entry e he).1
      · intro hop htype haccess hcheck
        rw [hsame.type] at htype
        exact hdotdot (hsound.move ⟨hop, htype, .inl ⟨⟨⟨hname, hlink, hsearch⟩, hnew, haccess⟩, hcheck⟩⟩)
    have hlinks' : a.op.links = false := Bool.eq_false_iff.mpr hlinks
    have heq : s1 = s := by
      exact if_neg hlinks
    rw [heq] at hfree hnew ⊢
    have hnz : (s.node a.dir).nlink ≠ 0 := by
      intro hzero
      rw [heq] at hsearch
      unfold searchError at hsearch
      rw [if_pos hzero] at hsearch
      cases hsearch
    refine enterNew_creates h hlegal hlinks' hfree (h.live hlegal.dir hnz hlegal.dirType) ?_
    intro haccess hop
    refine hsound.init hop ⟨⟨hname, hlink, hsearch⟩, ?_, ?_⟩
    · rw [← hs1, heq]
      exact hnew
    · rw [← hs1, heq]
      exact haccess
  · exact settled_unchanged hshape htally

lemma tdirenter_sane (h : Sane s) (hlegal : a.Legal s) (hsound : a.Sound s) {r : Entered}
    (hr : tdirenter s a = some r) : Sane r.fs := by
  unfold tdirenter at hr
  split at hr
  · cases hr
    exact h
  next hname =>
  split at hr
  · cases hr
    exact h
  next hlink =>
  dsimp only at hr
  have hbump : ∀ err, Settled a ⟨some err, none, bumpLink s a 1⟩ := by
    intro err
    unfold bumpLink
    split_ifs with hlinks
    · refine settled_unchanged (h.shape.addNlink ..) ((h.tally.addNlink a.tp 1).offset fun n => ?_)
      unfold ahead
      rw [if_pos hlinks, zero_add]
    · refine settled_unchanged h.shape (h.tally.offset fun n => ?_)
      unfold ahead
      rw [if_neg hlinks]
  split at hr
  · cases hr
  · next err hsearch =>
    cases hr
    exact (hbump err).out
  · next hsearch =>
    cases hr
    exact (enterSearched_settled h hlegal hsound ⟨hname, hlink, hsearch⟩).out

end Solaris.Tmpfs
