import Solaris.Tmpfs.Effects

/-!
# New nodes

A new node counts a link that no entry holds yet. A new directory gets its first two entries before it is itself entered.
-/

namespace Solaris.Tmpfs

open Lib List Option

variable {s s' : Fs} {U : Finset EntId} {d n t dir parent : NodeId} {a b e : EntId} {o : NodeId → Int} {z : MountId → Int}

lemma tmpnodeAlloc_spec (hshape : Shape s s.used none) (htally : Tallied s s.used o z) (ht : t ∉ s.nodes) (ho : o t = 0)
    (tp : Tmpnode) (hdir : tp.dir = none) (hsize : tp.size = 0) :
    Shape (tmpnodeAlloc s t tp) s.used none ∧
      Tallied (tmpnodeAlloc s t tp) s.used (fun n => o n + only t tp.nlink n) z := by
  have hne : ∀ n ∈ s.nodes, n ≠ t := by
    rintro n hn rfl
    exact ht hn
  have hnode : ∀ n ∈ s.nodes, (tmpnodeAlloc s t tp).node n = s.node n := fun n hn => Function.update_of_ne (hne n hn) ..
  have hself : (tmpnodeAlloc s t tp).node t = tp := Function.update_self ..
  have hparent : ∀ e ∈ s.used, (tmpnodeAlloc s t tp).node (s.ents e).parent = s.node (s.ents e).parent := fun e he =>
    hnode _ (hshape.sited.parent e he)
  have htmpnode : ∀ e ∈ s.used, (tmpnodeAlloc s t tp).node (s.ents e).tmpnode = s.node (s.ents e).tmpnode := fun e he =>
    hnode _ (hshape.sited.tmpnode e he)
  refine ⟨⟨?_, ⟨?_, ?_, ?_, ?_, ?_, ?_⟩, ?_⟩, ?_, ?_, ?_⟩
  · exact hshape.hashed.congr (fun _ he => he) rfl (fun _ _ => rfl) (fun _ _ => rfl) (fun _ _ => rfl) fun _ _ => rfl
  · exact fun e he => Finset.mem_insert_of_mem (hshape.sited.parent e he)
  · intro e he
    rw [show (tmpnodeAlloc s t tp).ents = s.ents from rfl, hparent e he]
    exact hshape.sited.dir e he
  · exact fun e he => Finset.mem_insert_of_mem (hshape.sited.tmpnode e he)
  · intro e he
    rw [show (tmpnodeAlloc s t tp).ents = s.ents from rfl, hparent e he, htmpnode e he]
    exact hshape.sited.mount e he
  · intro e he
    rw [show (tmpnodeAlloc s t tp).ents = s.ents from rfl, htmpnode e he]
    exact hshape.sited.live e he
  · exact hshape.sited.self
  · intro d hd hty hx
    rcases Finset.mem_insert.mp hd with rfl | hd
    · refine ⟨[], ⟨chain_nil ?_, nodup_nil, ?_⟩, fun pre x post h => (by simp at h), List.Pairwise.nil, .inl rfl⟩
      · exact (congrArg Tmpnode.dir hself).trans hdir
      · intro e
        refine ⟨fun h => absurd h not_mem_nil, ?_⟩
        rintro ⟨he, hp⟩
        exact absurd hp (hne _ (hshape.sited.parent e he))
    · rw [hnode d hd] at hty
      obtain ⟨l, hl, hord⟩ := hshape.lists d hd hty hx
      exact ⟨l, hl.congr (by rw [hnode d hd]) (fun _ _ => rfl) fun _ => Iff.rfl,
        hord.congr (fun _ _ => rfl) (fun _ _ => rfl) fun _ _ => rfl⟩
  · intro n hn
    have hsame : naming (tmpnodeAlloc s t tp) s.used n = naming s s.used n := rfl
    rw [hsame]
    unfold only
    rcases Finset.mem_insert.mp hn with rfl | hn
    · rw [hself, ho, if_pos rfl, naming_eq_zero fun e he => hne _ (hshape.sited.tmpnode e he)]
      ring
    · rw [hnode n hn, if_neg (hne n hn), add_zero]
      exact htally.nlink n hn
  · intro d hd hty
    have hsame : dirBytes (tmpnodeAlloc s t tp) s.used d = dirBytes s s.used d := rfl
    rw [hsame]
    rcases Finset.mem_insert.mp hd with rfl | hd
    · rw [hself, hsize, dirBytes_eq_zero fun e he => hne _ (hshape.sited.parent e he)]
    · rw [hnode d hd] at hty ⊢
      exact htally.size d hd hty
  · intro m
    rw [mountEntries_congr fun e he => congrArg Tmpnode.vfsp (hparent e he)]
    exact htally.direntries m

/-- What `tdirinit` needs to know of the new directory and of its parent. -/
structure Blank (s : Fs) (parent dir : NodeId) (a b : EntId) : Prop where
  dirMem : dir ∈ s.nodes
  dirType : (s.node dir).type = .vdir
  empty : ∀ e ∈ s.used, (s.ents e).parent ≠ dir
  parentMem : parent ∈ s.nodes
  mount : (s.node parent).vfsp = (s.node dir).vfsp
  live : parent ≠ dir → (s.node parent).type = .vdir → (s.node parent).dir ≠ none
  dotFresh : a ∉ s.used
  dotdotFresh : b ∉ s.used
  apart : a ≠ b

/-- The entries of the new directory, still without links. -/
def blankEntries (s : Fs) (parent dir : NodeId) (a b : EntId) : Fs :=
  memalloc (memalloc s a (newEntry dir dir dot 0)) b (newEntry parent dir dotdot 1)

lemma blankEntries_hashed (parent : NodeId) (h : Hashed s s.used) (ha : a ∉ s.used) (hb : b ∉ s.used) (hab : a ≠ b)
    (hempty : ∀ e ∈ s.used, (s.ents e).parent ≠ dir) :
    ∃ s1 s2, tmpfsHashIn (blankEntries s parent dir a b) a = (true, s1) ∧ tmpfsHashIn s1 b = (true, s2) ∧
      Hashed s2 (insert b (insert a s.used)) ∧ Rehashed (blankEntries s parent dir a b) s2 := by
  set s0 := blankEntries s parent dir a b with hs0
  have hents : ∀ e ∈ s.used, s0.ents e = s.ents e := by
    intro e he
    have hea : e ≠ a := by
      rintro rfl
      exact ha he
    have heb : e ≠ b := by
      rintro rfl
      exact hb he
    rw [hs0]
    unfold blankEntries
    rw [memalloc_of_ne _ _ heb, memalloc_of_ne _ _ hea]
  have ha0 : s0.ents a = newEntry dir dir dot 0 := by
    rw [hs0]
    unfold blankEntries
    rw [memalloc_of_ne _ _ hab, memalloc_self]
  have hb0 : s0.ents b = newEntry parent dir dotdot 1 := memalloc_self ..
  have hsub : s.used ⊆ s0.used := (Finset.subset_insert a s.used).trans (Finset.subset_insert b _)
  have hhashed0 : Hashed s0 s.used := h.congr hsub rfl (fun e he => by rw [hents e he]) (fun e he => by rw [hents e he])
    (fun e he => by rw [hents e he]) fun e he => by rw [hents e he]
  obtain ⟨hin1, hhashed1, hre1⟩ := tmpfsHashIn_spec hhashed0
    (Finset.mem_insert_of_mem (Finset.mem_insert_self a s.used)) ha (by rw [ha0]; rfl)
    (by
      intro e he hp
      rw [hents e he, ha0] at hp
      exact absurd hp (hempty e he))
  obtain ⟨hin2, hhashed2, hre2⟩ := tmpfsHashIn_spec hhashed1
    (by rw [hre1.used]; exact Finset.mem_insert_self b _)
    (by
      rw [Finset.mem_insert, not_or]
      exact ⟨hab.symm, hb⟩)
    (by rw [hre1.hash, hre1.name, hb0]; rfl)
    (by
      intro e he
      rw [hre1.parent, hre1.parent, hre1.name, hre1.name, hb0]
      rcases Finset.mem_insert.mp he with rfl | he
      · rw [ha0]
        exact fun _ => (by decide : dot ≠ dotdot)
      · rw [hents e he]
        exact fun hp => absurd hp (hempty e he))
  exact ⟨_, _, Prod.ext hin1 rfl, Prod.ext hin2 rfl, hhashed2, hre1.trans hre2⟩

lemma initEntries_eq {s1 s2 : Fs} (h1 : tmpfsHashIn (blankEntries s parent dir a b) a = (true, s1))
    (h2 : tmpfsHashIn s1 b = (true, s2)) (m : MountId) :
    initEntries s m parent dir a b = (((((((s2.addNlink dir 1).addNlink parent 1).setEnt a fun td =>
      { td with next := some b, prev := none }).setEnt b fun td => { td with next := none, prev := some a }).setNode dir
      fun tp => { tp with dir := some a }).addDirentries m 2).setNode dir
      fun tp => { tp with size := 2 * sizeofTdirent + 5 }) := by
  have h2' : s2 = (tmpfsHashIn s1 b).2 := by rw [h2]
  have h1' : s1 = (tmpfsHashIn (blankEntries s parent dir a b) a).2 := by rw [h1]
  rw [h2', h1']
  rfl

lemma tmpfsHashIn_head (h : tmpfsHashIn s e = (true, s')) :
    s'.hashtable = Function.update s.hashtable (tHashIndex (s.ents e).hash) (some e) ∧
      (∀ x, x ≠ e → s'.ents x = s.ents x) ∧ ∃ l, s'.ents e = { s.ents e with link := l } := by
  unfold tmpfsHashIn at h
  dsimp only at h
  split at h
  · cases h
  · cases h
    exact ⟨rfl, fun x hx => Function.update_of_ne hx .., _, Function.update_self ..⟩

/-- What the first two entries of a directory change. -/
structure Inited (s s' : Fs) (m : MountId) (parent d : NodeId) (a b : EntId) : Prop where
  hashed : Hashed s' s'.used
  used : s'.used = insert b (insert a s.used)
  nodes : s'.nodes = s.nodes
  hashtable : s'.hashtable = Function.update (Function.update s.hashtable (tHashIndex (tmpfsHashKey dot)) (some a))
    (tHashIndex (tmpfsHashKey dotdot)) (some b)
  ents : ∀ e ∈ s.used, s'.ents e = s.ents e
  first : ∃ l, s'.ents a = { newEntry d d dot 0 with next := some b, link := l }
  second : ∃ l, s'.ents b = { newEntry parent d dotdot 1 with prev := some a, link := l }
  field : ∀ {A : Type} (g : Tmpnode → A), (∀ tp k, g { tp with dir := k } = g tp) →
    (∀ tp k, g { tp with size := k } = g tp) → (∀ tp k, g { tp with nlink := k } = g tp) →
    ∀ n, g (s'.node n) = g (s.node n)
  dir : ∀ n, (s'.node n).dir = if n = d then some a else (s.node n).dir
  nlink : ∀ n, (s'.node n).nlink = (s.node n).nlink + only d 1 n + only parent 1 n
  size : ∀ n, (s'.node n).size = if n = d then (2 * sizeofTdirent + 5 : Int) else (s.node n).size
  direntries : ∀ k, s'.direntries k = s.direntries k + only m 2 k

lemma initEntries_inited (parent : NodeId) (h : Hashed s s.used) (ha : a ∉ s.used) (hb : b ∉ s.used) (hab : a ≠ b)
    (hempty : ∀ e ∈ s.used, (s.ents e).parent ≠ dir) (m : MountId) :
    Inited s (initEntries s m parent dir a b) m parent dir a b := by
  obtain ⟨s1, s2, h1, h2, hhashed, hre⟩ := blankEntries_hashed parent h ha hb hab hempty
  obtain ⟨htable1, hents1, l1, hself1⟩ := tmpfsHashIn_head h1
  obtain ⟨htable2, hents2, l2, hself2⟩ := tmpfsHashIn_head h2
  have ha0 : (blankEntries s parent dir a b).ents a = newEntry dir dir dot 0 :=
    (memalloc_of_ne _ _ hab).trans (memalloc_self ..)
  have hb0 : (blankEntries s parent dir a b).ents b = newEntry parent dir dotdot 1 := memalloc_self ..
  rw [ha0] at htable1 hself1
  rw [hents1 b hab.symm, hb0] at htable2 hself2
  have hunfold := initEntries_eq h1 h2 m
  set s' := initEntries s m parent dir a b with hs'
  have hents : s'.ents = ((s2.setEnt a fun td => { td with next := some b, prev := none }).setEnt b fun td =>
      { td with next := none, prev := some a }).ents := by rw [hunfold]; rfl
  have hfield : ∀ {A : Type} (g : Tdirent → A), (∀ td n p, g { td with next := n, prev := p } = g td) →
      ∀ e, g (s'.ents e) = g (s2.ents e) := by
    intro A g hg e
    rw [hents, Fs.setEnt_field g fun td => hg td _ _]
    exact Fs.setEnt_field g (fun td => hg td _ _) ..
  have hused : s'.used = insert b (insert a s.used) := by
    rw [hunfold]
    exact hre.used
  have hnode : s'.node = ((((s2.addNlink dir 1).addNlink parent 1).setNode dir fun tp =>
      { tp with dir := some a }).setNode dir fun tp => { tp with size := 2 * sizeofTdirent + 5 }).node := by
    rw [hunfold]
    rfl
  have hnode2 : s2.node = s.node := hre.node
  refine ⟨?_, hused, ?_, ?_, ?_, ⟨l1, ?_⟩, ⟨l2, ?_⟩, ?_, ?_, ?_, ?_, ?_⟩
  · rw [hused]
    exact hhashed.congr (by rw [hused]) (by rw [hunfold]; rfl) (fun e _ => hfield Tdirent.link (fun _ _ _ => rfl) e)
      (fun e _ => hfield Tdirent.hash (fun _ _ _ => rfl) e) (fun e _ => hfield Tdirent.parent (fun _ _ _ => rfl) e)
      fun e _ => hfield Tdirent.name (fun _ _ _ => rfl) e
  · rw [hunfold]
    exact hre.nodes
  · rw [hunfold]
    exact htable2.trans (by rw [htable1]; rfl)
  · intro e he
    have hea : e ≠ a := ne_of_mem_of_not_mem he ha
    have heb : e ≠ b := ne_of_mem_of_not_mem he hb
    rw [hents, Fs.setEnt_of_ne _ _ heb, Fs.setEnt_of_ne _ _ hea, hents2 e heb, hents1 e hea]
    exact (memalloc_of_ne _ _ heb).trans (memalloc_of_ne _ _ hea)
  · rw [hents, Fs.setEnt_of_ne _ _ hab, Fs.setEnt_self, hents2 a hab, hself1]
    rfl
  · rw [hents, Fs.setEnt_self, Fs.setEnt_of_ne _ _ hab.symm, hself2]
    rfl
  · intro A g hdir hsize hnlink n
    rw [hnode, Fs.setNode_field g fun tp => hsize tp _, setDir_field g hdir, addNlink_field g hnlink,
      addNlink_field g hnlink, hnode2]
  · intro n
    rw [hnode, Fs.setNode_field Tmpnode.dir (f := fun tp => { tp with size := 2 * sizeofTdirent + 5 }) fun _ => rfl]
    by_cases hn : n = dir
    · rw [if_pos hn, hn, Fs.setNode_self]
    · rw [if_neg hn, Fs.setNode_of_ne _ _ hn, addNlink_field Tmpnode.dir fun _ _ => rfl,
        addNlink_field Tmpnode.dir fun _ _ => rfl, hnode2]
  · intro n
    rw [hnode, Fs.setNode_field Tmpnode.nlink (f := fun tp => { tp with size := 2 * sizeofTdirent + 5 }) fun _ => rfl,
      setDir_field Tmpnode.nlink fun _ _ => rfl, addNlink_nlink, addNlink_nlink, hnode2]
  · intro n
    rw [hnode]
    by_cases hn : n = dir
    · rw [if_pos hn, hn, Fs.setNode_self]
    · rw [if_neg hn, Fs.setNode_of_ne _ _ hn, setDir_field Tmpnode.size fun _ _ => rfl,
        addNlink_field Tmpnode.size fun _ _ => rfl, addNlink_field Tmpnode.size fun _ _ => rfl, hnode2]
  · intro k
    have hk : s'.direntries k = s2.direntries k + only m 2 k := by
      rw [hunfold]
      exact addDirentries_direntries ((s2.addNlink dir 1).addNlink parent 1) ..
    rw [hk, hre.direntries]
    rfl

lemma initEntries_spec (hshape : Shape s s.used none) (htally : Tallied s s.used o z) (hb : Blank s parent dir a b) :
    let s' := initEntries s (s.node dir).vfsp parent dir a b
    Shape s' s'.used none ∧ Tallied s' s'.used o z ∧ s'.used = insert b (insert a s.used) ∧ s'.nodes = s.nodes ∧
      (∀ n, (s'.node n).type = (s.node n).type) ∧ (∀ n, (s'.node n).vfsp = (s.node n).vfsp) ∧
      (∀ n, (s'.node n).dir = if n = dir then some a else (s.node n).dir) ∧
      (∀ e ∈ s.used, (s'.ents e).tmpnode = (s.ents e).tmpnode ∧ (s'.ents e).parent = (s.ents e).parent ∧
        (s'.ents e).name = (s.ents e).name) ∧
      (s'.ents a).tmpnode = dir ∧ (s'.ents b).tmpnode = parent ∧ (s'.ents a).parent = dir ∧
      (s'.ents b).parent = dir := by
  have hi := initEntries_inited parent hshape.hashed hb.dotFresh hb.dotdotFresh hb.apart hb.empty
    (s.node dir).vfsp
  have hab := hb.apart
  set s' := initEntries s (s.node dir).vfsp parent dir a b with hs'
  obtain ⟨hhashed, hused, hnodes, -, hents, ⟨la, ha⟩, ⟨lb, hb0⟩, hnodeField, hdir, hnlink, hsize, hdirentries⟩ := hi
  have htmpnodea : (s'.ents a).tmpnode = dir := by rw [ha]; rfl
  have htmpnodeb : (s'.ents b).tmpnode = parent := by rw [hb0]; rfl
  have hparenta : (s'.ents a).parent = dir := by rw [ha]; rfl
  have hparentb : (s'.ents b).parent = dir := by rw [hb0]; rfl
  have hnamea : (s'.ents a).name = dot := by rw [ha]; rfl
  have hnameb : (s'.ents b).name = dotdot := by rw [hb0]; rfl
  have htype := hnodeField Tmpnode.type (fun _ _ => rfl) (fun _ _ => rfl) fun _ _ => rfl
  have hvfsp := hnodeField Tmpnode.vfsp (fun _ _ => rfl) (fun _ _ => rfl) fun _ _ => rfl
  have hb' : b ∉ insert a s.used := by
    rw [Finset.mem_insert, not_or]
    exact ⟨hab.symm, hb.dotdotFresh⟩
  have hentry : ∀ e ∈ s.used, (s'.ents e).tmpnode = (s.ents e).tmpnode ∧ (s'.ents e).parent = (s.ents e).parent ∧
      (s'.ents e).name = (s.ents e).name := by
    intro e he
    rw [hents e he]
    exact ⟨rfl, rfl, rfl⟩
  have hcases : ∀ e, e ∈ s'.used → e = b ∨ e = a ∨ e ∈ s.used := by
    intro e he
    rw [hused, Finset.mem_insert, Finset.mem_insert] at he
    exact he
  refine ⟨⟨hhashed, ⟨?_, ?_, ?_, ?_, ?_, ?_⟩, ?_⟩, ⟨?_, ?_, ?_⟩, hused, hnodes, htype, hvfsp, hdir, hentry, htmpnodea,
    htmpnodeb, hparenta, hparentb⟩
  · intro e he
    rw [hnodes]
    rcases hcases e he with rfl | rfl | he
    · rw [hparentb]
      exact hb.dirMem
    · rw [hparenta]
      exact hb.dirMem
    · rw [(hentry e he).2.1]
      exact hshape.sited.parent e he
  · intro e he
    rw [htype]
    rcases hcases e he with rfl | rfl | he
    · rw [hparentb]
      exact hb.dirType
    · rw [hparenta]
      exact hb.dirType
    · rw [(hentry e he).2.1]
      exact hshape.sited.dir e he
  · intro e he
    rw [hnodes]
    rcases hcases e he with rfl | rfl | he
    · rw [htmpnodeb]
      exact hb.parentMem
    · rw [htmpnodea]
      exact hb.dirMem
    · rw [(hentry e he).1]
      exact hshape.sited.tmpnode e he
  · intro e he
    rw [hvfsp, hvfsp]
    rcases hcases e he with rfl | rfl | he
    · rw [htmpnodeb, hparentb]
      exact hb.mount
    · rw [htmpnodea, hparenta]
    · rw [(hentry e he).1, (hentry e he).2.1]
      exact hshape.sited.mount e he
  · intro e he _
    rw [htype, hdir]
    split_ifs with hd
    · exact fun _ => some_ne_none a
    rcases hcases e he with rfl | rfl | he
    · rw [htmpnodeb] at hd ⊢
      exact hb.live hd
    · exact absurd htmpnodea hd
    · rw [(hentry e he).1]
      exact hshape.sited.live e he (some_ne_none _)
  · intro e he
    rcases hcases e he with rfl | rfl | he
    · rw [hnameb]
      exact fun h => absurd h (by decide)
    · rw [htmpnodea, hparenta]
      exact fun _ => rfl
    · rw [(hentry e he).1, (hentry e he).2.1, (hentry e he).2.2]
      exact hshape.sited.self e he
  · intro d hd hty _
    rw [hnodes] at hd
    rw [htype] at hty
    by_cases hdd : d = dir
    · subst hdd
      refine ⟨[a, b], ⟨?_, by simp [hab], ?_⟩, ?_, ?_, ?_⟩
      · have hnil : Chain (nextAt s' d) id ([a] ++ [b]) := by
          intro pre post hl
          match pre, hl with
          | [], hl =>
            rw [nil_append] at hl
            rw [← hl]
            exact (hdir d).trans (if_pos rfl)
          | [x], hl =>
            obtain ⟨rfl, rfl⟩ := hl
            exact congrArg Tdirent.next ha
          | [x, y], hl =>
            obtain ⟨rfl, rfl, rfl⟩ := hl
            exact congrArg Tdirent.next hb0
          | x :: y :: w :: pre, hl => simp at hl
        exact hnil
      · intro e
        rw [hused]
        constructor
        · intro he
          simp only [mem_cons, not_mem_nil, or_false] at he
          rcases he with rfl | rfl
          · exact ⟨by simp, hparenta⟩
          · exact ⟨by simp, hparentb⟩
        · rintro ⟨he, hp⟩
          rcases hcases e (hused ▸ he) with rfl | rfl | he
          · simp
          · simp
          · rw [(hentry e he).2.1] at hp
            exact absurd hp (hb.empty e he)
      · intro pre x post hl
        match pre, hl with
        | [], hl =>
          rw [nil_append, List.cons.injEq] at hl
          rw [← hl.1]
          exact congrArg Tdirent.prev ha
        | [y], hl =>
          simp only [cons_append, nil_append, List.cons.injEq] at hl
          rw [← hl.1, ← hl.2.1]
          exact congrArg Tdirent.prev hb0
        | y :: w :: pre, hl => simp at hl
      · have hlt : (s'.ents a).offset < (s'.ents b).offset := by
          rw [ha, hb0]
          exact Nat.zero_lt_one
        simpa using hlt
      · refine .inr ⟨a, b, [], rfl, hnamea, ?_, hnameb, ?_⟩
        · rw [ha]
          rfl
        · rw [hb0]
          rfl
    · obtain ⟨l, hl, hord⟩ := hshape.lists d hd hty (some_ne_none d)
      have hmem : ∀ e ∈ l, e ∈ s.used := fun e he => ((hl.mem e).mp he).1
      refine ⟨l, hl.congr (by rw [hdir, if_neg hdd]) ?_ ?_, hord.congr ?_ ?_ ?_⟩
      · intro e he
        rw [hents e (hmem e he)]
      · intro e
        rw [hused]
        constructor
        · rintro ⟨he, hp⟩
          rcases hcases e (hused ▸ he) with rfl | rfl | he
          · exact absurd (hp.symm.trans hparentb) hdd
          · exact absurd (hp.symm.trans hparenta) hdd
          · rw [(hentry e he).2.1] at hp
            exact ⟨he, hp⟩
        · rintro ⟨he, hp⟩
          rw [(hentry e he).2.1]
          exact ⟨Finset.mem_insert_of_mem (Finset.mem_insert_of_mem he), hp⟩
      · intro e he
        rw [hents e (hmem e he)]
      · intro e he
        rw [hents e (hmem e he)]
      · intro e he
        exact (hentry e (hmem e he)).2.2
  · intro n hn
    rw [hnodes] at hn
    have hsum : naming s' s.used n = naming s s.used n := total_congr fun e he => by rw [(hentry e he).1]
    rw [hnlink, htally.nlink n hn, hused, naming_insert hb', naming_insert hb.dotFresh, hsum, htmpnodea, htmpnodeb]
    ring
  · intro d hd hty
    rw [hnodes] at hd
    rw [htype] at hty
    have hsum : dirBytes s' s.used d = dirBytes s s.used d :=
      total_congr fun e he => by rw [(hentry e he).2.1, (hentry e he).2.2]
    rw [hsize, hused, dirBytes_insert hb', dirBytes_insert hb.dotFresh, hsum, hparenta, hparentb, hnamea, hnameb]
    unfold only
    by_cases hdd : d = dir
    · rw [if_pos hdd, if_pos hdd, if_pos hdd, hdd, dirBytes_eq_zero hb.empty]
      decide
    · rw [if_neg hdd, if_neg hdd, if_neg hdd, htally.size d hd hty]
      ring
  · intro m
    have hsum : mountEntries s' s.used m = mountEntries s s.used m :=
      mountEntries_congr (fun e he => by rw [(hentry e he).2.1, hvfsp]) m
    rw [hdirentries, hused, mountEntries_insert hb', mountEntries_insert hb.dotFresh, hsum, hparenta, hparentb, hvfsp,
      htally.direntries m]
    unfold only
    split_ifs <;> omega

lemma Tallied.clearNlink (h : Tallied s U o z) (hn : naming s U n = 0) :
    Tallied (s.setNode n fun t => { t with nlink := 0 }) U (fun m => if m = n then 0 else o m) z where
  nlink := by
    intro m hm
    have hsame : naming (s.setNode n fun t => { t with nlink := 0 }) U m = naming s U m := rfl
    rw [hsame]
    by_cases hmn : m = n
    · rw [if_pos hmn, hmn, Fs.setNode_self, hn]
      rfl
    · rw [if_neg hmn, Fs.setNode_of_ne _ _ hmn]
      exact h.nlink m hm
  size := by
    intro d hd hty
    rw [Fs.setNode_field Tmpnode.type (f := fun t => { t with nlink := 0 }) fun _ => rfl] at hty
    rw [Fs.setNode_field Tmpnode.size (f := fun t => { t with nlink := 0 }) fun _ => rfl]
    exact h.size d hd hty
  direntries := by
    intro m
    rw [mountEntries_congr (s := s) fun e _ =>
      Fs.setNode_field Tmpnode.vfsp (f := fun t => { t with nlink := 0 }) (fun _ => rfl) s n _]
    exact h.direntries m

lemma unmake_spec (hshape : Shape s s.used none) (htally : Tallied s s.used (only t 1) z) (ht : t ∈ s.nodes)
    (halone : ∀ e ∈ s.used, (s.ents e).tmpnode = t → (s.ents e).parent = t) :
    let s' := unmake s (s.node t).vfsp t
    Shape s' s'.used none ∧ Tallied s' s'.used (fun _ => 0) z := by
  have hclear : ∀ s : Fs, Shape s s.used none → Tallied s s.used (only t 1) z →
      (∀ e ∈ s.used, (s.ents e).tmpnode ≠ t) → Shape (s.setNode t fun tp => { tp with nlink := 0 }) s.used none ∧
        Tallied (s.setNode t fun tp => { tp with nlink := 0 }) s.used (fun _ => 0) z := by
    intro s hshape htally hnone
    refine ⟨hshape.setNode (f := fun tp => { tp with nlink := 0 }) (fun _ => rfl) (fun _ => rfl) (fun _ => rfl) t,
      (htally.clearNlink (naming_eq_zero hnone)).offset fun n => ?_⟩
    unfold only
    split_ifs <;> rfl
  unfold unmake
  split_ifs with htype
  · obtain ⟨h1, h2, -, -, h3⟩ := tdirtrunc_spec hshape htally ht htype rfl halone
    exact hclear _ h1 h2 h3
  · refine hclear _ hshape htally fun e he hname => htype ?_
    rw [← halone e he hname]
    exact hshape.sited.dir e he

end Solaris.Tmpfs
