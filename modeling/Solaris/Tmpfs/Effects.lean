import Solaris.Tmpfs.Shape

/-!
# What the parts of the two calls do

Each part is described by what it does to the shape and by how it moves the offsets of the counts.
-/

namespace Solaris.Tmpfs

open Lib List Option Finset

variable {s s' : Fs} {U : Finset EntId} {d n dir tp fromtp fromparent toparent : NodeId} {t e : EntId} {name : Name}
  {o : NodeId → Int} {z : MountId → Int}

structure SameDirs (s s' : Fs) : Prop where
  used : s'.used = s.used
  nodes : s'.nodes = s.nodes
  type : ∀ n, (s'.node n).type = (s.node n).type
  dir : ∀ n, (s'.node n).dir = (s.node n).dir
  vfsp : ∀ n, (s'.node n).vfsp = (s.node n).vfsp
  parent : ∀ e, (s'.ents e).parent = (s.ents e).parent
  name : ∀ e, (s'.ents e).name = (s.ents e).name

lemma SameDirs.refl (s : Fs) : SameDirs s s :=
  ⟨rfl, rfl, fun _ => rfl, fun _ => rfl, fun _ => rfl, fun _ => rfl, fun _ => rfl⟩

lemma SameDirs.trans {s'' : Fs} (h : SameDirs s s') (h' : SameDirs s' s'') : SameDirs s s'' where
  used := h'.used.trans h.used
  nodes := h'.nodes.trans h.nodes
  type := fun n => (h'.type n).trans (h.type n)
  dir := fun n => (h'.dir n).trans (h.dir n)
  vfsp := fun n => (h'.vfsp n).trans (h.vfsp n)
  parent := fun e => (h'.parent e).trans (h.parent e)
  name := fun e => (h'.name e).trans (h.name e)

lemma sameDirs_addNlink (s : Fs) (n : NodeId) (k : Int) : SameDirs s (s.addNlink n k) :=
  ⟨rfl, rfl, addNlink_field Tmpnode.type (fun _ _ => rfl) s n k, addNlink_field Tmpnode.dir (fun _ _ => rfl) s n k,
    addNlink_field Tmpnode.vfsp (fun _ _ => rfl) s n k, fun _ => rfl, fun _ => rfl⟩

lemma sameDirs_setTmpnode (s : Fs) (t : EntId) (n : NodeId) :
    SameDirs s (s.setEnt t fun td => { td with tmpnode := n }) :=
  ⟨rfl, rfl, fun _ => rfl, fun _ => rfl, fun _ => rfl, setTmpnode_field Tdirent.parent (fun _ _ => rfl) s t n,
    setTmpnode_field Tdirent.name (fun _ _ => rfl) s t n⟩

lemma Shape.dir_ne_none (h : Shape s U none) (he : e ∈ U) : (s.node (s.ents e).parent).dir ≠ none := by
  obtain ⟨l, hl, -⟩ := h.lists _ (h.sited.parent e he) (h.sited.dir e he) (some_ne_none _)
  have hmem : e ∈ l := (hl.mem e).mpr ⟨he, rfl⟩
  rw [hl.head]
  intro hnil
  rw [head?_eq_none_iff] at hnil
  rw [hnil] at hmem
  exact not_mem_nil hmem

theorem Shape.dotEntry (h : Shape s U none) (hd : d ∈ s.nodes) (htype : (s.node d).type = .vdir)
    (hdir : (s.node d).dir ≠ none) : ∃ a ∈ U, (s.ents a).parent = d ∧ (s.ents a).name = dot ∧ (s.ents a).tmpnode = d := by
  obtain ⟨l, hl, hord⟩ := h.lists d hd htype (some_ne_none d)
  obtain ⟨a, b, rest, rfl, hname, -⟩ := hl.starts hord hdir
  obtain ⟨ha, hparent⟩ := (hl.mem a).mp (mem_cons_self ..)
  exact ⟨a, ha, hparent, hname, (h.sited.self a ha hname).trans hparent⟩

theorem Shape.alone (h : Shape s U none) (hd : d ∈ s.nodes) (htype : (s.node d).type = .vdir)
    (hdir : (s.node d).dir ≠ none) (hlink : naming s U d ≤ 1) :
    ∀ e ∈ U, (s.ents e).tmpnode = d → (s.ents e).parent = d := by
  obtain ⟨a, ha, hparent, -, htmpnode⟩ := h.dotEntry hd htype hdir
  intro e he hname
  by_cases hea : e = a
  · rw [hea]
    exact hparent
  · have := two_le_naming he ha hea hname htmpnode
    omega

theorem tdirfixdotdot_spec (fromparent : NodeId) (hshape : Shape s s.used none) (htally : Tallied s s.used o z) (he : e ∈ s.used)
    (hparent : (s.ents e).parent = fromtp) (hname : (s.ents e).name = dotdot) (htmpnode : (s.ents e).tmpnode = fromparent)
    (hto : toparent ∈ s.nodes) (hmount : (s.node toparent).vfsp = (s.node fromtp).vfsp)
    (hlive : (s.node toparent).type = .vdir → (s.node toparent).dir ≠ none) (ho : 0 ≤ o fromparent) :
    ∃ s', tdirfixdotdot s fromtp fromparent toparent = (none, s') ∧ Shape s' s'.used none ∧ Tallied s' s'.used o z ∧
      SameDirs s s' := by
  have hshape1 := hshape.addNlink toparent 1
  have htally1 := htally.addNlink toparent 1
  have hlookup : tmpfsHashLookup (s.addNlink toparent 1) dotdot fromtp = some e := by
    have := tmpfsHashLookup_of_mem hshape1.hashed he
    rwa [show ((s.addNlink toparent 1).ents e).name = dotdot from hname,
      show ((s.addNlink toparent 1).ents e).parent = fromtp from hparent] at this
  have hsame1 := sameDirs_addNlink s toparent 1
  have hshape2 : Shape ((s.addNlink toparent 1).setEnt e fun td => { td with tmpnode := toparent }) s.used none := by
    refine hshape1.setTmpnode ?_ hto ?_ ?_
    · change (s.ents e).name ≠ dot
      rw [hname]
      decide
    · rw [hsame1.vfsp, hsame1.vfsp, hmount, ← hparent]
      rfl
    · rw [hsame1.type, hsame1.dir]
      exact hlive
  have htally2 := htally1.setTmpnode he toparent
  set s2 := (s.addNlink toparent 1).setEnt e fun td => { td with tmpnode := toparent } with hs2
  have htmpnode₁ : ((s.addNlink toparent 1).ents e).tmpnode = fromparent := htmpnode
  have hsame2 : SameDirs s s2 := hsame1.trans (sameDirs_setTmpnode ..)
  have hnode : fromparent ∈ s.nodes := htmpnode ▸ hshape.sited.tmpnode e he
  -- the old parent has one link more than entries
  have hnlink : (s2.node fromparent).nlink ≠ 0 := by
    rw [htally2.nlink fromparent hnode, htmpnode₁]
    have := naming_nonneg s2 s.used fromparent
    unfold only
    rw [if_pos rfl]
    split_ifs <;> omega
  refine ⟨s2.addNlink fromparent (-1), ?_, hshape2.addNlink .., ?_, hsame2.trans (sameDirs_addNlink ..)⟩
  · unfold tdirfixdotdot
    dsimp only
    rw [hlookup]
    dsimp only
    rw [← hs2, if_pos hnlink]
  · refine (htally2.addNlink fromparent (-1)).offset fun n => ?_
    rw [htmpnode₁]
    unfold only
    split_ifs <;> omega

lemma memalloc_of_ne (s : Fs) (td : Tdirent) (h : e ≠ t) : (memalloc s t td).ents e = s.ents e :=
  Function.update_of_ne h ..

lemma memalloc_self (s : Fs) (t : EntId) (td : Tdirent) : (memalloc s t td).ents t = td := Function.update_self ..

lemma addSize_field {A : Type} (g : Tmpnode → A) (h : ∀ tp k, g { tp with size := k } = g tp) (s : Fs) (n : NodeId)
    (k : Int) (m : NodeId) : g ((s.addSize n k).node m) = g (s.node m) :=
  Fs.setNode_field g (fun tp => h tp _) s n m

lemma installEntry_spec (hshape : Shape s s.used none) (htally : Tallied s s.used o z) (hdir : dir ∈ s.nodes)
    (htype : (s.node dir).type = .vdir) (hfirst : (s.node dir).dir ≠ none) (htp : tp ∈ s.nodes)
    (hmount : (s.node tp).vfsp = (s.node dir).vfsp) (hlive : (s.node tp).type = .vdir → (s.node tp).dir ≠ none)
    (ht : t ∉ s.used) (hdot : name ≠ dot) (hfree : ∀ e ∈ s.used, (s.ents e).parent = dir → (s.ents e).name ≠ name) :
    ∃ s', installEntry s dir tp name (some t) = (none, s') ∧ Shape s' s'.used none ∧
      Tallied s' s'.used (fun n => o n - only tp 1 n) z := by
  set s1 := (memalloc s t (newEntry tp dir name 0)).addSize dir (entSize name) with hs1
  have hne : ∀ e ∈ s.used, e ≠ t := by
    rintro e he rfl
    exact ht he
  have hents1 : ∀ e ∈ s.used, s1.ents e = s.ents e := fun e he => memalloc_of_ne s _ (hne e he)
  have ht1 : s1.ents t = newEntry tp dir name 0 := memalloc_self s t _
  have hhashed1 : Hashed s1 s.used := hshape.hashed.congr (subset_insert t s.used) rfl
    (fun e he => by rw [hents1 e he]) (fun e he => by rw [hents1 e he]) (fun e he => by rw [hents1 e he])
    fun e he => by rw [hents1 e he]
  obtain ⟨hin, hhashed2, hre⟩ := tmpfsHashIn_spec (t := t) hhashed1 (mem_insert_self t s.used) ht (by rw [ht1]; rfl)
    (by
      intro e he
      rw [hents1 e he, ht1]
      exact hfree e he)
  set s2 := (tmpfsHashIn s1 t).2 with hs2
  have hnode2 : ∀ {A : Type} (g : Tmpnode → A), (∀ tp k, g { tp with size := k } = g tp) →
      ∀ n, g (s2.node n) = g (s.node n) := by
    intro A g hg n
    rw [hre.node]
    exact addSize_field g hg ..
  have htype2 := hnode2 Tmpnode.type fun _ _ => rfl
  have hvfsp2 := hnode2 Tmpnode.vfsp fun _ _ => rfl
  have hdir2 := hnode2 Tmpnode.dir fun _ _ => rfl
  have hnodes2 : s2.nodes = s.nodes := hre.nodes
  have hused2 : s2.used = insert t s.used := hre.used
  have hparentt : (s2.ents t).parent = dir := by
    rw [hre.parent, ht1]
    rfl
  have hlists2 : ∀ d ∈ s.nodes, (s.node d).type = .vdir → ∃ l, Listed s2 s.used d l ∧ Ordered s2 l := by
    intro d hd hty
    obtain ⟨l, hl, hord⟩ := hshape.lists d hd hty (some_ne_none d)
    have hmem : ∀ e ∈ l, e ∈ s.used := fun e he => ((hl.mem e).mp he).1
    refine ⟨l, hl.congr (hdir2 d) (fun e he => by rw [hre.next, hents1 e (hmem e he)]) ?_,
      hord.congr (fun e he => by rw [hre.prev, hents1 e (hmem e he)])
        (fun e he => by rw [hre.offset, hents1 e (hmem e he)]) fun e he => by rw [hre.name, hents1 e (hmem e he)]⟩
    intro e
    constructor
    · rintro ⟨he, hp⟩
      rw [hre.parent, hents1 e he] at hp
      exact ⟨he, hp⟩
    · rintro ⟨he, hp⟩
      rw [hre.parent, hents1 e he]
      exact ⟨he, hp⟩
  -- the place of the new entry
  obtain ⟨l, hl, hord⟩ := hlists2 dir hdir htype
  have hhead : (s2.node dir).dir = l.head? := hl.head
  obtain ⟨first, post, rfl⟩ : ∃ first post, l = first :: post := by
    cases l with
    | nil => exact absurd ((hdir2 dir).symm.trans hhead) hfirst
    | cons first post => exact ⟨first, post, rfl⟩
  have hfuel : post.length ≤ s2.used.card := by
    have := hl.length_le (by rw [hused2]; exact subset_insert t s.used)
    simp only [length_cons] at this
    omega
  obtain ⟨pre', post', hsplit, hgap⟩ := firstGap_spec (show Listed s2 _ _ ([] ++ first :: post) from hl) hfuel
  rw [nil_append] at hsplit
  set p := firstGap s2 s2.used.card first with hp
  rw [hsplit] at hl hord
  have hl3 := hl.behind ht hparentt
  have hord3 := Ordered.behind hl hord ht hgap
  set s3 := linkBehind s2 t p with hs3
  have hre3 := linkBehind_relisted s2 t p
  have hpd : (s2.ents p).parent = dir := ((hl.mem p).mp (by simp)).2
  have hlists3 : ∀ d ∈ s.nodes, (s.node d).type = .vdir → ∃ l, Listed s3 (insert t s.used) d l ∧ Ordered s3 l := by
    intro d hd hty
    by_cases hdd : d = dir
    · rw [hdd]
      exact ⟨_, hl3, hord3⟩
    obtain ⟨l, hld, hordd⟩ := hlists2 d hd hty
    have hparent : ∀ e ∈ l, (s2.ents e).parent = d := fun e he => ((hld.mem e).mp he).2
    have htl : ∀ e ∈ l, e ≠ t := fun e he => hne e ((hld.mem e).mp he).1
    have hpl : ∀ e ∈ l, some p ≠ some e := by
      intro e he heq
      rw [← some.inj heq] at he
      exact hdd ((hparent p he).symm.trans hpd)
    refine ⟨l, hld.congr (by rw [hre3.node]) ?_ ?_, hordd.congr ?_ ?_ fun e _ => hre3.name e⟩
    · intro e he
      rw [linkBehind_next, if_neg (hpl e he), if_neg fun h => htl e he (some.inj h).symm]
    · intro e
      rw [hre3.parent, mem_insert]
      constructor
      · rintro ⟨rfl | he, hpe⟩
        · exact absurd (hpe.symm.trans hparentt) hdd
        · exact ⟨he, hpe⟩
      · rintro ⟨he, hpe⟩
        exact ⟨.inr he, hpe⟩
    · intro e he
      have hnext : ¬(s2.ents p).next = some e := by
        rw [hl.next]
        intro hh
        have hmem := (hl.mem e).mp (by simp [mem_of_head? hh])
        exact hdd ((hparent e he).symm.trans hmem.2)
      rw [linkBehind_prev, if_neg fun h => htl e he (some.inj h).symm, if_neg hnext]
    · intro e he
      rw [linkBehind_offset, if_neg (htl e he)]
  set s4 := s3.addDirentries (vtotm s3 dir) 1 with hs4
  have hused4 : s4.used = insert t s.used := hre3.used.trans hused2
  have hnodes4 : s4.nodes = s.nodes := hre3.nodes.trans hnodes2
  have hnode4 : s4.node = s2.node := hre3.node
  have htmpnode₄ : ∀ e ∈ s.used, (s4.ents e).tmpnode = (s.ents e).tmpnode := fun e he =>
    ((hre3.tmpnode e).trans (hre.tmpnode e)).trans (by rw [hents1 e he])
  have hparent4 : ∀ e ∈ s.used, (s4.ents e).parent = (s.ents e).parent := fun e he =>
    ((hre3.parent e).trans (hre.parent e)).trans (by rw [hents1 e he])
  have hname4 : ∀ e ∈ s.used, (s4.ents e).name = (s.ents e).name := fun e he =>
    ((hre3.name e).trans (hre.name e)).trans (by rw [hents1 e he])
  have htmpnodet : (s4.ents t).tmpnode = tp := ((hre3.tmpnode t).trans (hre.tmpnode t)).trans (by rw [ht1]; rfl)
  have hparentt₄ : (s4.ents t).parent = dir := (hre3.parent t).trans hparentt
  have hnamet : (s4.ents t).name = name := ((hre3.name t).trans (hre.name t)).trans (by rw [ht1]; rfl)
  refine ⟨s4, ?_, ?_, ?_⟩
  · unfold installEntry
    dsimp only
    rw [← hs1, show tmpfsHashIn s1 t = (true, s2) from Prod.ext hin rfl]
    dsimp only
    rw [hhead]
    rfl
  · rw [hused4]
    refine ⟨hhashed2.congr (by rw [hused4]) hre3.hashtable (fun e _ => hre3.link e) (fun e _ => hre3.hash e)
      (fun e _ => hre3.parent e) fun e _ => hre3.name e, ⟨?_, ?_, ?_, ?_, ?_, ?_⟩, ?_⟩
    · intro e he
      rw [hnodes4]
      rcases mem_insert.mp he with rfl | he
      · rw [hparentt₄]
        exact hdir
      · rw [hparent4 e he]
        exact hshape.sited.parent e he
    · intro e he
      rw [hnode4, htype2]
      rcases mem_insert.mp he with rfl | he
      · rw [hparentt₄]
        exact htype
      · rw [hparent4 e he]
        exact hshape.sited.dir e he
    · intro e he
      rw [hnodes4]
      rcases mem_insert.mp he with rfl | he
      · rw [htmpnodet]
        exact htp
      · rw [htmpnode₄ e he]
        exact hshape.sited.tmpnode e he
    · intro e he
      rw [hnode4, hvfsp2, hvfsp2]
      rcases mem_insert.mp he with rfl | he
      · rw [htmpnodet, hparentt₄]
        exact hmount
      · rw [htmpnode₄ e he, hparent4 e he]
        exact hshape.sited.mount e he
    · intro e he _
      rw [hnode4, htype2, hdir2]
      rcases mem_insert.mp he with rfl | he
      · rw [htmpnodet]
        exact hlive
      · rw [htmpnode₄ e he]
        exact hshape.sited.live e he (some_ne_none _)
    · intro e he
      rcases mem_insert.mp he with rfl | he
      · rw [hnamet]
        exact fun h => absurd h hdot
      · rw [hname4 e he, htmpnode₄ e he, hparent4 e he]
        exact hshape.sited.self e he
    · intro d hd hty _
      rw [hnodes4] at hd
      rw [hnode4, htype2] at hty
      obtain ⟨l, hld, hordd⟩ := hlists3 d hd hty
      refine ⟨l, hld.congr rfl (fun _ _ => rfl) fun _ => Iff.rfl, hordd.congr (fun _ _ => rfl) (fun _ _ => rfl)
        fun _ _ => rfl⟩
  · rw [hused4]
    have hgrow := htally.grow (k := fun _ => 0) (w := only (s.node dir).vfsp 1) ht hnodes4
      (fun n => by rw [hnode4, htype2]) (fun n => by rw [hnode4, hvfsp2]) htmpnode₄ hparent4 hname4 ?_ ?_ ?_
    · rw [htmpnodet, hparentt₄] at hgrow
      convert hgrow using 1
      · funext n
        rw [add_zero]
      · funext m
        omega
    · intro n
      rw [hnode4, hnode2 Tmpnode.nlink fun _ _ => rfl, add_zero]
    · intro n
      rw [hnode4, hre.node, hparentt₄, hnamet]
      exact addSize_size (memalloc s t (newEntry tp dir name 0)) dir (entSize name) n
    · intro m
      have hm : s4.direntries m = s3.direntries m + only (vtotm s3 dir) 1 m := addDirentries_direntries ..
      have hvfsp : vtotm s3 dir = (s.node dir).vfsp := by
        unfold vtotm
        rw [hre3.node, hvfsp2]
      rw [hm, hvfsp, hre3.direntries, hre.direntries]
      rfl

/-- `tdirdelete` behind the hash table, up to the link count. -/
def removeEntry (s : Fs) (t : EntId) : Fs :=
  let s := (unlink s t).memfree t
  (s.addSize (s.ents t).parent (-entSize (s.ents t).name)).addNlink (s.ents t).tmpnode (-1)

lemma removeEntry_spec (hshape : Shape s s.used none) (htally : Tallied s s.used o z) (ht : t ∈ s.used)
    (hdot : (s.ents t).name ≠ dot) (hdotdot : (s.ents t).name ≠ dotdot) :
    (tmpfsHashOut s t).1 = true ∧
      let s' := removeEntry (tmpfsHashOut s t).2 t
      Shape s' s'.used none ∧
      Tallied s' s'.used o (fun m => z m + only (s.node (s.ents t).parent).vfsp 1 m) ∧
      s'.used = s.used.erase t ∧ s'.nodes = s.nodes ∧ (∀ n, (s'.node n).type = (s.node n).type) ∧
      (∀ n, (s'.node n).dir = (s.node n).dir) ∧ (∀ n, (s'.node n).vfsp = (s.node n).vfsp) ∧
      (∀ e, (s'.ents e).tmpnode = (s.ents e).tmpnode) := by
  obtain ⟨hout, hhashed1, hre⟩ := tmpfsHashOut_spec hshape.hashed ht
  refine ⟨hout, ?_⟩
  set s1 := (tmpfsHashOut s t).2 with hs1
  have hre2 := unlink_relisted s1 t
  set s2 := unlink s1 t with hs2
  have htmpnode : ∀ e, (s2.ents e).tmpnode = (s.ents e).tmpnode := fun e => (hre2.tmpnode e).trans (hre.tmpnode e)
  have hparent : ∀ e, (s2.ents e).parent = (s.ents e).parent := fun e => (hre2.parent e).trans (hre.parent e)
  have hname : ∀ e, (s2.ents e).name = (s.ents e).name := fun e => (hre2.name e).trans (hre.name e)
  set s5 := removeEntry s1 t with hs5
  have hs5' : s5 = ((s2.memfree t).addSize (s.ents t).parent (-entSize (s.ents t).name)).addNlink (s.ents t).tmpnode
      (-1) := by
    have hunfold : s5 = ((s2.memfree t).addSize (s2.ents t).parent (-entSize (s2.ents t).name)).addNlink
        (s2.ents t).tmpnode (-1) := rfl
    rw [hunfold, hparent, hname, htmpnode]
  have hused : s5.used = s.used.erase t := by
    have : s5.used = s2.used.erase t := rfl
    rw [this, hre2.used, hre.used]
  have hents : s5.ents = s2.ents := rfl
  have hnodes : s5.nodes = s.nodes := hre2.nodes.trans hre.nodes
  have hnode : ∀ {A : Type} (g : Tmpnode → A), (∀ tp k, g { tp with size := k } = g tp) →
      (∀ tp k, g { tp with nlink := k } = g tp) → ∀ n, g (s5.node n) = g (s.node n) := by
    intro A g hsize hnlink n
    rw [hs5', addNlink_field g hnlink, addSize_field g hsize]
    exact congrArg g (congrFun (hre2.node.trans hre.node) n)
  have htype := hnode Tmpnode.type (fun _ _ => rfl) fun _ _ => rfl
  have hdir := hnode Tmpnode.dir (fun _ _ => rfl) fun _ _ => rfl
  have hvfsp := hnode Tmpnode.vfsp (fun _ _ => rfl) fun _ _ => rfl
  have hsub : ∀ e ∈ s.used.erase t, e ∈ s.used := fun e he => mem_of_mem_erase he
  -- the lists as they are before and behind `unlink`
  have hlist1 : ∀ d ∈ s.nodes, (s.node d).type = .vdir → ∃ l, Listed s1 s.used d l ∧ Ordered s1 l := by
    intro d hd hty
    obtain ⟨l, hl, hord⟩ := hshape.lists d hd hty (some_ne_none d)
    exact ⟨l, hl.congr (by rw [hre.node]) (fun e _ => hre.next e) fun e => by rw [hre.parent],
      hord.congr (fun e _ => hre.prev e) (fun e _ => hre.offset e) fun e _ => hre.name e⟩
  obtain ⟨lt, hlt, hordt⟩ := hlist1 (s.ents t).parent (hshape.sited.parent t ht) (hshape.sited.dir t ht)
  obtain ⟨pre, post, rfl⟩ := append_of_mem ((hlt.mem t).mpr ⟨ht, hre.parent t⟩)
  have hdot1 : (s1.ents t).name ≠ dot := by rwa [hre.name]
  have hdotdot1 : (s1.ents t).name ≠ dotdot := by rwa [hre.name]
  have hprev : (s1.ents t).prev = pre.getLast? := hordt.backward pre t post rfl
  have hself : (s1.ents t).prev ≠ some t := by
    rw [hprev]
    intro hlast
    exact (nodup_append.mp hlt.nodup).2.2 t (mem_of_getLast? hlast) t (by simp) rfl
  have hlist2 : ∀ d ∈ s.nodes, (s.node d).type = .vdir → ∃ l, Listed s2 (s.used.erase t) d l ∧ Ordered s2 l := by
    intro d hd hty
    by_cases hdd : d = (s.ents t).parent
    · rw [hdd]
      exact ⟨pre ++ post, hlt.without hprev (hordt.not_first hdot1), Ordered.without hlt hordt hdot1 hdotdot1⟩
    obtain ⟨l, hl, hord⟩ := hlist1 d hd hty
    have hother : ∀ e ∈ l, ∀ e' ∈ pre ++ t :: post, some e' ≠ some e := by
      intro e he e' he' heq
      rw [some.inj heq] at he'
      exact hdd (((hl.mem e).mp he).2.symm.trans ((hlt.mem e).mp he').2)
    refine ⟨l, hl.congr (by rw [hre2.node]) ?_ ?_, hord.congr ?_ ?_ fun e _ => hre2.name e⟩
    · intro e he
      rw [unlink_next, if_neg]
      rw [hprev]
      intro hlast
      exact hother e he e (by simp [mem_of_getLast? hlast]) rfl
    · intro e
      rw [hre2.parent, mem_erase]
      constructor
      · rintro ⟨⟨-, he⟩, hp⟩
        exact ⟨he, hp⟩
      · rintro ⟨he, hp⟩
        refine ⟨⟨?_, he⟩, hp⟩
        rintro rfl
        exact hdd (hp.symm.trans (hre.parent e))
    · intro e he
      rw [unlink_prev hself, if_neg]
      rw [hlt.next]
      intro hhead
      exact hother e he e (by simp [mem_of_head? hhead]) rfl
    · intro e _
      exact unlink_field Tdirent.offset (fun _ _ => rfl) (fun _ _ => rfl) s1 t e
  refine ⟨?_, ?_, hused, hnodes, htype, hdir, hvfsp, htmpnode⟩
  · rw [hused]
    refine ⟨hhashed1.congr (by rw [hused]) hre2.hashtable (fun e _ => hre2.link e) (fun e _ => hre2.hash e)
      (fun e _ => hre2.parent e) fun e _ => hre2.name e, ⟨?_, ?_, ?_, ?_, ?_, ?_⟩, ?_⟩
    · intro e he
      rw [hents, hparent, hnodes]
      exact hshape.sited.parent e (hsub e he)
    · intro e he
      rw [hents, hparent, htype]
      exact hshape.sited.dir e (hsub e he)
    · intro e he
      rw [hents, htmpnode, hnodes]
      exact hshape.sited.tmpnode e (hsub e he)
    · intro e he
      rw [hents, htmpnode, hparent, hvfsp, hvfsp]
      exact hshape.sited.mount e (hsub e he)
    · intro e he
      rw [hents, htmpnode, htype, hdir]
      exact hshape.sited.live e (hsub e he)
    · intro e he
      rw [hents, htmpnode, hname, hparent]
      exact hshape.sited.self e (hsub e he)
    · intro d hd hty _
      rw [hnodes] at hd
      rw [htype] at hty
      obtain ⟨l, hl, hord⟩ := hlist2 d hd hty
      have hdir2 : (s5.node d).dir = (s2.node d).dir := by rw [hdir, hre2.node, hre.node]
      exact ⟨l, hl.congr hdir2 (fun _ _ => rfl) fun _ => Iff.rfl,
        hord.congr (fun _ _ => rfl) (fun _ _ => rfl) fun _ _ => rfl⟩
  · rw [hused]
    have hshrink := htally.shrink (k := only (s.ents t).tmpnode (-1)) (w := fun _ => 0) ht hnodes htype hvfsp
      htmpnode hparent hname ?_ ?_ ?_
    · convert hshrink using 1
      · funext n
        unfold only
        split_ifs <;> omega
      · funext m
        omega
    · intro n
      rw [hs5', addNlink_nlink, addSize_field Tmpnode.nlink fun _ _ => rfl]
      exact congrArg (· + _) (congrArg Tmpnode.nlink (congrFun (hre2.node.trans hre.node) n))
    · intro n
      rw [hs5', addNlink_field Tmpnode.size fun _ _ => rfl, addSize_size]
      have hsize : ((s2.memfree t).node n).size = (s.node n).size :=
        congrArg Tmpnode.size (congrFun (hre2.node.trans hre.node) n)
      rw [hsize]
      unfold only
      split_ifs <;> rfl
    · intro m
      rw [add_zero]
      exact congrFun (hre2.direntries.trans hre.direntries) m

end Solaris.Tmpfs
