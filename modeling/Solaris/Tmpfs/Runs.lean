import Mathlib.Algebra.BigOperators.Ring.Finset
import Solaris.Tmpfs.Calls

/-!
# Runs

The calls are serialized by the locks that they assert. Between calls, attributes of nodes may change and file systems may
be mounted.
-/

namespace Solaris.Tmpfs

open Lib Function Option Finset

variable {s s' : Fs} {d n dir tp : NodeId} {t e : EntId}

/-- The part of `tmp_mount` that makes the root, with the mount still empty. -/
def tmpMount (s : Fs) (m : MountId) (root : NodeId) (mode uid gid : Nat) (mem : Memory) : Option Errno × Fs :=
  let s := { s with direntries := update s.direntries m 0 }
  let s := tmpnodeAlloc s root
    { type := .vdir, mode := mode, uid := uid, gid := gid, nlink := 0, size := 0, dir := none, vfsp := m }
  tdirinit s m root root mem

inductive Call where
  | mount (m : MountId) (root : NodeId) (mode uid gid : Nat) (mem : Memory)
  | setattr (n : NodeId) (mode uid gid : Nat)
  | enter (a : Enter)
  | delete (a : Delete)

def Call.exec (s : Fs) : Call → Option Fs
  | .mount m root mode uid gid mem => some (tmpMount s m root mode uid gid mem).2
  | .setattr n mode uid gid => some (s.setNode n fun tp => { tp with mode := mode, uid := uid, gid := gid })
  | .enter a => (tdirenter s a).map Entered.fs
  | .delete a => some (tdirdelete s a).2

def Call.Legal (s : Fs) : Call → Prop
  | .mount m root _ _ _ mem => (∀ n ∈ s.nodes, (s.node n).vfsp ≠ m) ∧ root ∉ s.nodes ∧ (∀ e ∈ mem.dot, e ∉ s.used) ∧
      ∀ e ∈ mem.dotdot, e ∉ s.used ∧ mem.dot ≠ some e
  | .setattr .. => True
  | .enter a => a.Legal s
  | .delete a => a.Legal s

def Call.Sound (s : Fs) : Call → Prop
  | .enter a => a.Sound s
  | _ => True

def emptyFs : Fs where
  hashtable := fun _ => none
  ents := fun _ => newEntry 0 0 [] 0
  used := ∅
  node := fun _ =>
    { type := .vreg, mode := 0, uid := 0, gid := 0, nlink := 0, size := 0, dir := none, vfsp := 0 }
  nodes := ∅
  direntries := fun _ => 0

/-- The states of the runs whose calls satisfy `P` where they are made. -/
inductive Reached (P : Fs → Call → Prop) : Fs → Prop
  | start : Reached P emptyFs
  | call {s s' : Fs} {c : Call} : Reached P s → c.Legal s → P s c → c.exec s = some s' → Reached P s'

/-- The table, the lists and the counts describe the same entries. -/
structure Consistent (s : Fs) : Prop where
  chain : ∀ i, ∃ l, OnChain s s.used i l
  list : ∀ d ∈ s.nodes, (s.node d).type = .vdir → ∃ l, Listed s s.used d l ∧ Ordered s l ∧
    ((s.node d).nlink ≠ 0 → Starts s l)
  distinct : ∀ e ∈ s.used, ∀ e' ∈ s.used, (s.ents e).parent = (s.ents e').parent → (s.ents e).name = (s.ents e').name →
    e = e'
  nlink : ∀ n ∈ s.nodes, (s.node n).nlink = (s.used.filter fun e => (s.ents e).tmpnode = n).card
  size : ∀ d ∈ s.nodes, (s.node d).type = .vdir →
    (s.node d).size = ∑ e ∈ s.used.filter fun e => (s.ents e).parent = d, (entSize (s.ents e).name : Int)
  direntries : ∀ m, s.direntries m = (s.used.filter fun e => (s.node (s.ents e).parent).vfsp = m).card

lemma Sane.consistent (h : Sane s) : Consistent s where
  chain := h.shape.hashed.chain
  list := by
    intro d hd hty
    obtain ⟨l, hl, hord⟩ := h.shape.lists d hd hty (some_ne_none d)
    exact ⟨l, hl, hord, fun hlink => hl.starts hord (h.live hd hlink hty)⟩
  distinct := h.shape.hashed.distinct
  nlink := by
    intro n hn
    rw [h.tally.nlink n hn, add_zero]
    exact sum_boole ..
  size := by
    intro d hd hty
    rw [h.tally.size d hd hty, sum_filter]
    rfl
  direntries := by
    intro m
    rw [h.tally.direntries m, add_zero]
    exact sum_boole ..

lemma emptyFs_sane : Sane emptyFs := by
  have hused : ∀ e, e ∉ emptyFs.used := notMem_empty
  have hnodes : ∀ n, n ∉ emptyFs.nodes := notMem_empty
  refine ⟨⟨⟨fun _ he => he, fun e he => absurd he (hused e), fun i => ⟨[], chain_nil rfl, List.nodup_nil, ?_⟩,
    fun e he => absurd he (hused e)⟩, ⟨?_, ?_, ?_, ?_, ?_, ?_⟩, fun d hd => absurd hd (hnodes d)⟩,
    ⟨fun n hn => absurd hn (hnodes n), fun d hd => absurd hd (hnodes d), fun _ => rfl⟩⟩
  · exact fun e => ⟨fun he => absurd he List.not_mem_nil, fun he => absurd he.1 (hused e)⟩
  all_goals exact fun e he => absurd he (hused e)

lemma tdirdelete_sane {a : Delete} (h : Sane s) (hlegal : a.Legal s) : Sane (tdirdelete s a).2 := by
  unfold tdirdelete
  split
  · exact h
  next hcheck =>
  split
  · exact h
  next t hlookup =>
  split
  · exact h
  next hnames =>
  obtain ⟨ht, hparent, hname⟩ := tmpfsHashLookup_some h.shape.hashed hlookup
  rw [not_not] at hnames
  have hnotdots : a.name ≠ dot ∧ a.name ≠ dotdot := by
    unfold deleteError at hcheck
    split at hcheck
    · cases hcheck
    split at hcheck
    · cases hcheck
    next hdot =>
    split at hcheck
    · cases hcheck
    next hdotdot => exact ⟨hdot, hdotdot⟩
  obtain ⟨hout, hshape, htally, hused, hnodes, htype, hdir, hvfsp, htmpnode⟩ :=
    removeEntry_spec h.shape h.tally ht (by rw [hname]; exact hnotdots.1) (by rw [hname]; exact hnotdots.2)
  rw [show tmpfsHashOut s t = (true, (tmpfsHashOut s t).2) from Prod.ext hout rfl]
  dsimp only
  have hremove : (((unlink (tmpfsHashOut s t).2 t).memfree t).addSize a.dir
      (-entSize (((unlink (tmpfsHashOut s t).2 t).memfree t).ents t).name)).addNlink a.tp (-1) =
      removeEntry (tmpfsHashOut s t).2 t := by
    obtain ⟨-, -, hre⟩ := tmpfsHashOut_spec h.shape.hashed ht
    have hre2 := unlink_relisted (tmpfsHashOut s t).2 t
    have hp : ((unlink (tmpfsHashOut s t).2 t).ents t).parent = a.dir := by rw [hre2.parent, hre.parent, hparent]
    have hn : ((unlink (tmpfsHashOut s t).2 t).ents t).tmpnode = a.tp := by rw [hre2.tmpnode, hre.tmpnode, hnames]
    rw [← hp, ← hn]
    rfl
  rw [hremove]
  set s1 := removeEntry (tmpfsHashOut s t).2 t
  rw [hparent] at htally
  -- the counts when the number of entries of the mount has been changed too
  have hdone : ∀ s2, Shape s2 s2.used none → Tallied s2 s2.used (fun _ => 0) (fun m => 0 + only (s.node a.dir).vfsp 1 m) →
      (s2.node a.dir).vfsp = (s.node a.dir).vfsp → Sane (s2.addDirentries (vtotm s2 a.dir) (-1)) := by
    intro s2 hshape2 htally2 hmount
    refine ⟨hshape2.addDirentries .., htally2.nlink, htally2.size, fun m => ?_⟩
    have hm := htally2.direntries m
    rw [addDirentries_direntries, hm]
    change _ = mountEntries s2 s2.used m + 0
    unfold vtotm
    rw [hmount]
    unfold only
    split_ifs <;> omega
  split_ifs with hrmdir
  · have htp : a.tp ∈ s1.nodes := by
      rw [hnodes, hnames]
      exact h.shape.sited.tmpnode t ht
    have hlive : (s1.node a.tp).dir ≠ none := by
      rw [hdir, hnames]
      refine h.shape.sited.live t ht (some_ne_none _) ?_
      rw [← hnames, ← htype]
      exact hrmdir.2
    have hlink : naming s1 s1.used a.tp ≤ 1 := by
      have hsum : naming s1 (s.used.erase t) a.tp = naming s s.used a.tp - 1 := by
        rw [naming_erase ht, htmpnode, ← hnames]
        have hrest : naming s1 s.used a.tp = naming s s.used a.tp := total_congr fun e _ => by rw [htmpnode]
        unfold only
        rw [hrest, if_pos rfl]
      have hle := hlegal.rmdir hrmdir.1
      rw [h.tally.nlink a.tp (hnodes ▸ htp)] at hle
      rw [hused, hsum]
      omega
    have hmount : vtotm s1 a.dir = (s1.node a.tp).vfsp := by
      unfold vtotm
      rw [hvfsp, hvfsp, hnames, h.shape.sited.mount t ht, hparent]
    obtain ⟨hshape2, htally2, htrunc, -⟩ := tdirtrunc_spec hshape htally htp hrmdir.2 hmount
      (hshape.alone htp hrmdir.2 hlive hlink)
    exact hdone _ hshape2 htally2 (by rw [htrunc.vfsp, hvfsp])
  · exact hdone _ hshape htally (hvfsp a.dir)

lemma tmpMount_sane {m : MountId} {root : NodeId} {mode uid gid : Nat} {mem : Memory} (h : Sane s)
    (hlegal : (Call.mount m root mode uid gid mem).Legal s) : Sane (tmpMount s m root mode uid gid mem).2 := by
  obtain ⟨hfresh, hroot, hdot, hdotdot⟩ := hlegal
  set s0 : Fs := { s with direntries := update s.direntries m 0 } with hs0
  have hshape0 : Shape s0 s0.used none :=
    h.shape.same ⟨fun _ he => he, rfl, rfl, fun _ => rfl, fun _ => rfl, fun _ => rfl, fun _ _ => rfl, fun _ _ => rfl,
      fun _ _ => rfl, fun _ _ => rfl, fun _ _ => rfl, fun _ _ => rfl, fun _ _ => rfl⟩ fun _ _ => rfl
  have htally0 : Tallied s0 s0.used (fun _ => 0) (fun _ => 0) := by
    refine ⟨h.tally.nlink, h.tally.size, fun k => ?_⟩
    by_cases hk : k = m
    · have hzero : mountEntries s0 s0.used k = 0 :=
        sum_eq_zero fun e he => if_neg (hk ▸ hfresh _ (h.shape.sited.parent e he))
      rw [hzero, hk]
      exact update_self ..
    · exact (update_of_ne hk ..).trans (h.tally.direntries k)
  obtain ⟨hshape1, htally1⟩ := tmpnodeAlloc_spec hshape0 htally0 hroot rfl
    { type := .vdir, mode := mode, uid := uid, gid := gid, nlink := 0, size := 0, dir := none, vfsp := m } rfl rfl
  unfold tmpMount
  dsimp only
  set s1 := tmpnodeAlloc s0 root
    { type := .vdir, mode := mode, uid := uid, gid := gid, nlink := 0, size := 0, dir := none, vfsp := m } with hs1
  have hself : s1.node root =
      { type := .vdir, mode := mode, uid := uid, gid := gid, nlink := 0, size := 0, dir := none, vfsp := m } :=
    update_self ..
  have htally1' : Tallied s1 s1.used (fun _ => 0) (fun _ => 0) := by
    refine htally1.offset fun n => ?_
    unfold only
    split_ifs <;> rfl
  unfold tdirinit
  split
  · next x y hx hy =>
    obtain ⟨hyfresh, hxy⟩ := hdotdot y hy
    have hvfsp : (s1.node root).vfsp = m := by rw [hself]
    have hblank : Blank s1 root root x y := by
      refine ⟨mem_insert_self .., by rw [hself], ?_, mem_insert_self .., rfl, fun hne => absurd rfl hne,
        hdot x hx, hyfresh, ?_⟩
      · rintro e he hp
        exact hroot (hp ▸ h.shape.sited.parent e he)
      · rintro rfl
        exact hxy hx
    have hinit := initEntries_spec hshape1 htally1' hblank
    rw [hvfsp] at hinit
    exact ⟨hinit.1, hinit.2.1⟩
  · exact ⟨hshape1, htally1'⟩

lemma setattr_sane (h : Sane s) (n : NodeId) (mode uid gid : Nat) :
    Sane (s.setNode n fun tp => { tp with mode := mode, uid := uid, gid := gid }) := by
  have hfield : ∀ {A : Type} (g : Tmpnode → A), (∀ tp, g { tp with mode := mode, uid := uid, gid := gid } = g tp) →
      ∀ m, g ((s.setNode n fun tp => { tp with mode := mode, uid := uid, gid := gid }).node m) = g (s.node m) :=
    fun g hg m => Fs.setNode_field g hg s n m
  refine ⟨h.shape.setNode (f := fun tp => { tp with mode := mode, uid := uid, gid := gid }) (fun _ => rfl) (fun _ => rfl)
    (fun _ => rfl) n, ?_, ?_, ?_⟩
  · intro m hm
    rw [hfield Tmpnode.nlink fun _ => rfl]
    exact h.tally.nlink m hm
  · intro d hd hty
    rw [hfield Tmpnode.type fun _ => rfl] at hty
    rw [hfield Tmpnode.size fun _ => rfl]
    exact h.tally.size d hd hty
  · intro m
    rw [mountEntries_congr (s := s) fun e _ => hfield Tmpnode.vfsp (fun _ => rfl) _]
    exact h.tally.direntries m

lemma Call.exec_sane {c : Call} (h : Sane s) (hlegal : c.Legal s) (hsound : c.Sound s) (hexec : c.exec s = some s') :
    Sane s' := by
  cases c with
  | mount m root mode uid gid mem =>
    cases hexec
    exact tmpMount_sane h hlegal
  | setattr n mode uid gid =>
    cases hexec
    exact setattr_sane h n mode uid gid
  | enter a =>
    obtain ⟨r, hr, rfl⟩ := map_eq_some_iff.mp hexec
    exact tdirenter_sane h hlegal hsound hr
  | delete a =>
    cases hexec
    exact tdirdelete_sane h hlegal

lemma Reached.sane (h : Reached Call.Sound s) : Sane s := by
  induction h with
  | start => exact emptyFs_sane
  | call _ hlegal hsound hexec ih => exact Call.exec_sane ih hlegal hsound hexec

/-- In every run of sound calls, the directories are consistent in every state. -/
theorem directories_consistent (h : Reached Call.Sound s) : Consistent s := h.sane.consistent

def Call.next (s : Fs) (c : Call) : Fs := (c.exec s).getD s

lemma Reached.next {P : Fs → Call → Prop} {c : Call} (h : Reached P s) (hlegal : c.Legal s) (hP : P s c)
    (hsome : (c.exec s).isSome = true) : Reached P (c.next s) := by
  obtain ⟨s', hs'⟩ := isSome_iff_exists.mp hsome
  refine h.call hlegal hP ?_
  unfold Call.next
  rw [hs']
  rfl

def superuser : Cred := ⟨0, 0, []⟩

def mkdirCall (dir : NodeId) (name : UInt8) (node : NodeId) (first : EntId) : Enter where
  cred := superuser
  dir := dir
  name := [name]
  op := .mkdir
  fromparent := 0
  tp := 0
  va := ⟨.vdir, 0o755, none⟩
  tpp := true
  mem := ⟨some node, some first, some (first + 1), some (first + 2)⟩
  busy := false
  fuel := 3

def renameCall (fromparent tp dir : NodeId) (name : UInt8) (entry : Option EntId) : Enter where
  cred := superuser
  dir := dir
  name := [name]
  op := .rename
  fromparent := fromparent
  tp := tp
  va := ⟨.vdir, 0, none⟩
  tpp := false
  mem := ⟨none, none, none, entry⟩
  busy := false
  fuel := 3

/-- The root, with the directories `a` and `b`, and `a/x`. -/
def sampleMounted : Fs := (Call.mount 1 1 0o755 0 0 ⟨none, some 1, some 2, none⟩).next emptyFs

def sampleA : Fs := (Call.enter (mkdirCall 1 97 2 3)).next sampleMounted

def sampleB : Fs := (Call.enter (mkdirCall 1 98 3 6)).next sampleA

def sampleX : Fs := (Call.enter (mkdirCall 2 120 4 9)).next sampleB

/-- There was no memory for the entry `b/x`. -/
def sampleFailed : Fs := (Call.enter (renameCall 2 4 3 120 none)).next sampleX

def sampleMoved : Fs := (Call.enter (renameCall 2 4 3 120 (some 12))).next sampleX

def sampleRetried : Fs := (Call.enter (renameCall 2 4 3 120 (some 12))).next sampleFailed

def deleteCall : Delete := ⟨superuser, 2, 4, [120], .rename⟩

def sampleRenamed : Fs := (Call.delete deleteCall).next sampleMoved

def sampleBroken : Fs := (Call.delete deleteCall).next sampleRetried

lemma mkdirCall_sound (s : Fs) (dir : NodeId) (name : UInt8) (node : NodeId) (first : EntId) :
    (mkdirCall dir name node first).Sound s where
  init := fun _ _ _ => ⟨Option.some_ne_none _, Option.some_ne_none _⟩
  move := fun h => absurd h.1 (by change ¬DeOp.mkdir = .rename; decide)

lemma sampleX_reached : Reached Call.Sound sampleX := by
  have hmount : Reached Call.Sound sampleMounted := by
    refine Reached.start.next ?_ trivial rfl
    exact ⟨fun n hn => absurd hn (notMem_empty n), by decide, by decide, by decide⟩
  have ha : Reached Call.Sound sampleA := by
    refine hmount.next ?_ (mkdirCall_sound ..) (by decide +kernel)
    exact ⟨by decide +kernel, by decide +kernel, by decide, by decide, by decide, by decide +kernel, by decide +kernel,
      by decide +kernel, by decide +kernel⟩
  have hb : Reached Call.Sound sampleB := by
    refine ha.next ?_ (mkdirCall_sound ..) (by decide +kernel)
    exact ⟨by decide +kernel, by decide +kernel, by decide, by decide, by decide, by decide +kernel, by decide +kernel,
      by decide +kernel, by decide +kernel⟩
  refine hb.next ?_ (mkdirCall_sound ..) (by decide +kernel)
  exact ⟨by decide +kernel, by decide +kernel, by decide, by decide, by decide, by decide +kernel, by decide +kernel,
    by decide +kernel, by decide +kernel⟩

lemma Reached.mono {P Q : Fs → Call → Prop} (h : Reached P s) (hPQ : ∀ s c, P s c → Q s c) : Reached Q s := by
  induction h with
  | start => exact Reached.start
  | call _ hlegal hP hexec ih => exact ih.call hlegal (hPQ _ _ hP) hexec

/-- `a/x` is renamed to `b/x`. -/
theorem directories_consistent_sample : Consistent sampleRenamed := by
  have hmoved : Reached Call.Sound sampleMoved := by
    refine sampleX_reached.next ?_ ⟨fun h => absurd h (by decide), fun _ => ⟨10, by decide +kernel, by decide +kernel⟩⟩
      (by decide +kernel)
    exact ⟨by decide +kernel, by decide +kernel, by decide +kernel, by decide, by decide, by decide, by decide, by decide,
      by decide +kernel⟩
  refine directories_consistent (hmoved.next ?_ trivial (by decide +kernel))
  exact ⟨by decide +kernel, fun h => absurd h (by decide)⟩

/-- The rename of `a/x` fails for memory and is then tried again. -/
theorem directories_not_consistent : ¬∀ s, Reached (fun _ _ => True) s → Consistent s := by
  intro hall
  have hX : Reached (fun _ _ => True) sampleX := sampleX_reached.mono fun _ _ _ => trivial
  have hfailed : Reached (fun _ _ => True) sampleFailed := by
    refine hX.next ?_ trivial (by decide +kernel)
    exact ⟨by decide +kernel, by decide +kernel, by decide +kernel, by decide, by decide, by decide, by decide, by decide,
      by decide⟩
  have hretried : Reached (fun _ _ => True) sampleRetried := by
    refine hfailed.next ?_ trivial (by decide +kernel)
    exact ⟨by decide +kernel, by decide +kernel, by decide +kernel, by decide, by decide, by decide, by decide, by decide,
      by decide +kernel⟩
  have hbroken : Reached (fun _ _ => True) sampleBroken := by
    refine hretried.next ?_ trivial (by decide +kernel)
    exact ⟨by decide +kernel, fun h => absurd h (by decide)⟩
  have hnlink := (hall _ hbroken).nlink 2 (by decide +kernel)
  exact absurd hnlink (by decide +kernel)

end Solaris.Tmpfs
