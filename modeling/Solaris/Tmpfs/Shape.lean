import Mathlib.Algebra.Order.BigOperators.Group.Finset
import Mathlib.Tactic.Ring
import Solaris.Lib.Sums
import Solaris.Tmpfs.Lists

/-!
# Shape and counts

`Shape` is what holds of the table and the lists, and `Tallied` what holds of the counts. A directory that is being
emptied is left out of the shape, and counts that were changed ahead of time differ by an offset.
-/

namespace Solaris.Tmpfs

section Shape

open Lib Function Option Finset

variable {s s' : Fs} {U : Finset EntId} {d n : NodeId} {t : EntId} {x : Option NodeId} {o : NodeId → Int}
  {z : MountId → Int}

/-- Entries lie in directories, and name nodes of their mount; what they name is not an emptied directory, and `.` names
the directory itself. -/
structure Sited (s : Fs) (U : Finset EntId) (x : Option NodeId) : Prop where
  parent : ∀ e ∈ U, (s.ents e).parent ∈ s.nodes
  dir : ∀ e ∈ U, (s.node (s.ents e).parent).type = .vdir
  tmpnode : ∀ e ∈ U, (s.ents e).tmpnode ∈ s.nodes
  mount : ∀ e ∈ U, (s.node (s.ents e).tmpnode).vfsp = (s.node (s.ents e).parent).vfsp
  live : ∀ e ∈ U, some (s.ents e).tmpnode ≠ x → (s.node (s.ents e).tmpnode).type = .vdir →
    (s.node (s.ents e).tmpnode).dir ≠ none
  self : ∀ e ∈ U, (s.ents e).name = dot → (s.ents e).tmpnode = (s.ents e).parent

/-- The table, and the lists of all directories but `x`. -/
structure Shape (s : Fs) (U : Finset EntId) (x : Option NodeId) : Prop where
  hashed : Hashed s U
  sited : Sited s U x
  lists : ∀ d ∈ s.nodes, (s.node d).type = .vdir → some d ≠ x → ∃ l, Listed s U d l ∧ Ordered s l

def total (s : Fs) (U : Finset EntId) (f : Tdirent → Int) : Int := ∑ e ∈ U, f (s.ents e)

/-- The number of entries that name `n`. -/
def naming (s : Fs) (U : Finset EntId) (n : NodeId) : Int := total s U fun td => if td.tmpnode = n then 1 else 0

/-- The bytes of the entries of `d`. -/
def dirBytes (s : Fs) (U : Finset EntId) (d : NodeId) : Int :=
  total s U fun td => if td.parent = d then (entSize td.name : Int) else 0

def mountEntries (s : Fs) (U : Finset EntId) (m : MountId) : Int :=
  total s U fun td => if (s.node td.parent).vfsp = m then 1 else 0

/-- The counts, up to the offsets `o` and `z`. -/
structure Tallied (s : Fs) (U : Finset EntId) (o : NodeId → Int) (z : MountId → Int) : Prop where
  nlink : ∀ n ∈ s.nodes, (s.node n).nlink = naming s U n + o n
  size : ∀ d ∈ s.nodes, (s.node d).type = .vdir → (s.node d).size = dirBytes s U d
  direntries : ∀ m, s.direntries m = mountEntries s U m + z m

lemma total_congr {f f' : Tdirent → Int} (h : ∀ e ∈ U, f' (s'.ents e) = f (s.ents e)) :
    total s' U f' = total s U f := Finset.sum_congr rfl h

lemma total_insert (f : Tdirent → Int) (ht : t ∉ U) : total s (insert t U) f = total s U f + f (s.ents t) := by
  unfold total
  rw [sum_insert ht]
  exact add_comm _ _

lemma total_erase (f : Tdirent → Int) (ht : t ∈ U) : total s (U.erase t) f = total s U f - f (s.ents t) := by
  have := sum_erase_add U (fun e => f (s.ents e)) ht
  unfold total
  omega

lemma total_change {f : Tdirent → Int} (ht : t ∈ U) (h : ∀ e ∈ U, e ≠ t → f (s'.ents e) = f (s.ents e)) :
    total s' U f = total s U f - f (s.ents t) + f (s'.ents t) := by
  have hsum := Lib.sum_change ht h
  unfold total
  omega

lemma naming_pos (ht : t ∈ U) : 1 ≤ naming s U (s.ents t).tmpnode := by
  have hle : ∀ e ∈ U, (0 : Int) ≤ if (s.ents e).tmpnode = (s.ents t).tmpnode then 1 else 0 := by
    intro e _
    split_ifs <;> decide
  have := single_le_sum hle ht
  rwa [if_pos rfl] at this

lemma naming_nonneg (s : Fs) (U : Finset EntId) (n : NodeId) : 0 ≤ naming s U n := by
  refine sum_nonneg fun e _ => ?_
  dsimp only
  split_ifs <;> decide

lemma two_le_naming {e e' : EntId} (he : e ∈ U) (he' : e' ∈ U) (hne : e ≠ e') (hn : (s.ents e).tmpnode = n)
    (hn' : (s.ents e').tmpnode = n) : 2 ≤ naming s U n := by
  have herase := total_erase (s := s) (fun td => if td.tmpnode = n then (1 : Int) else 0) he
  have hpos := naming_pos (s := s) (mem_erase.mpr ⟨hne.symm, he'⟩)
  rw [hn'] at hpos
  rw [if_pos hn] at herase
  unfold naming at hpos ⊢
  omega

lemma naming_eq_zero (h : ∀ e ∈ U, (s.ents e).tmpnode ≠ n) : naming s U n = 0 :=
  Finset.sum_eq_zero fun e he => if_neg (h e he)

lemma exists_of_naming (h : naming s U n ≠ 0) : ∃ e ∈ U, (s.ents e).tmpnode = n := by
  by_contra hnone
  push Not at hnone
  exact h (naming_eq_zero hnone)

lemma dirBytes_eq_zero (h : ∀ e ∈ U, (s.ents e).parent ≠ d) : dirBytes s U d = 0 :=
  Finset.sum_eq_zero fun e he => if_neg (h e he)

/-- What the shape looks at is as before, but for what entries name. -/
structure SameShape (s s' : Fs) (U : Finset EntId) : Prop where
  used : U ⊆ s'.used
  nodes : s'.nodes = s.nodes
  hashtable : s'.hashtable = s.hashtable
  type : ∀ n, (s'.node n).type = (s.node n).type
  dir : ∀ n, (s'.node n).dir = (s.node n).dir
  vfsp : ∀ n, (s'.node n).vfsp = (s.node n).vfsp
  next : ∀ e ∈ U, (s'.ents e).next = (s.ents e).next
  prev : ∀ e ∈ U, (s'.ents e).prev = (s.ents e).prev
  offset : ∀ e ∈ U, (s'.ents e).offset = (s.ents e).offset
  hash : ∀ e ∈ U, (s'.ents e).hash = (s.ents e).hash
  link : ∀ e ∈ U, (s'.ents e).link = (s.ents e).link
  parent : ∀ e ∈ U, (s'.ents e).parent = (s.ents e).parent
  name : ∀ e ∈ U, (s'.ents e).name = (s.ents e).name

lemma Listed.same {l : List EntId} (h : Listed s U d l) (hs : SameShape s s' U) : Listed s' U d l := by
  refine h.congr (hs.dir d) (fun e he => hs.next e ((h.mem e).mp he).1) ?_
  intro e
  constructor
  · rintro ⟨he, hd⟩
    exact ⟨he, (hs.parent e he) ▸ hd⟩
  · rintro ⟨he, hd⟩
    exact ⟨he, (hs.parent e he).trans hd⟩

lemma Ordered.same {l : List EntId} (h : Ordered s l) (hmem : ∀ e ∈ l, e ∈ U) (hs : SameShape s s' U) :
    Ordered s' l :=
  h.congr (fun e he => hs.prev e (hmem e he)) (fun e he => hs.offset e (hmem e he)) fun e he => hs.name e (hmem e he)

lemma Shape.retarget (h : Shape s U x) (hs : SameShape s s' U)
    (ht : ∀ e ∈ U, (s'.ents e).tmpnode ≠ (s.ents e).tmpnode → (s.ents e).name ≠ dot ∧ (s'.ents e).tmpnode ∈ s.nodes ∧
      (s.node (s'.ents e).tmpnode).vfsp = (s.node (s.ents e).parent).vfsp ∧
      ((s.node (s'.ents e).tmpnode).type = .vdir → (s.node (s'.ents e).tmpnode).dir ≠ none)) : Shape s' U x where
  hashed := h.hashed.congr hs.used hs.hashtable hs.link hs.hash hs.parent hs.name
  sited := by
    refine ⟨?_, ?_, ?_, ?_, ?_, ?_⟩
    · intro e he
      rw [hs.parent e he, hs.nodes]
      exact h.sited.parent e he
    · intro e he
      rw [hs.parent e he, hs.type]
      exact h.sited.dir e he
    · intro e he
      rw [hs.nodes]
      by_cases hsame : (s'.ents e).tmpnode = (s.ents e).tmpnode
      · rw [hsame]
        exact h.sited.tmpnode e he
      · exact (ht e he hsame).2.1
    · intro e he
      rw [hs.parent e he, hs.vfsp, hs.vfsp]
      by_cases hsame : (s'.ents e).tmpnode = (s.ents e).tmpnode
      · rw [hsame]
        exact h.sited.mount e he
      · exact (ht e he hsame).2.2.1
    · intro e he
      rw [hs.type, hs.dir]
      by_cases hsame : (s'.ents e).tmpnode = (s.ents e).tmpnode
      · rw [hsame]
        exact h.sited.live e he
      · exact fun _ => (ht e he hsame).2.2.2
    · intro e he
      rw [hs.name e he, hs.parent e he]
      intro hname
      by_cases hsame : (s'.ents e).tmpnode = (s.ents e).tmpnode
      · rw [hsame]
        exact h.sited.self e he hname
      · exact absurd hname (ht e he hsame).1
  lists := by
    intro d hd htype hx
    rw [hs.nodes] at hd
    rw [hs.type] at htype
    obtain ⟨l, hl, hord⟩ := h.lists d hd htype hx
    exact ⟨l, hl.same hs, hord.same (fun e he => ((hl.mem e).mp he).1) hs⟩

lemma Shape.same (h : Shape s U x) (hs : SameShape s s' U) (ht : ∀ e ∈ U, (s'.ents e).tmpnode = (s.ents e).tmpnode) :
    Shape s' U x :=
  h.retarget hs fun e he hne => absurd (ht e he) hne

lemma Fs.setNode_field {A : Type} (g : Tmpnode → A) {f : Tmpnode → Tmpnode} (h : ∀ tp, g (f tp) = g tp) (s : Fs)
    (m n : NodeId) : g ((s.setNode m f).node n) = g (s.node n) := by
  unfold Fs.setNode
  by_cases hn : n = m
  · rw [hn]
    exact (congrArg g (update_self ..)).trans (h _)
  · exact congrArg g (update_of_ne hn ..)

lemma Fs.setNode_self (s : Fs) (n : NodeId) (f : Tmpnode → Tmpnode) : (s.setNode n f).node n = f (s.node n) :=
  update_self ..

lemma Fs.setNode_of_ne (s : Fs) {m n : NodeId} (f : Tmpnode → Tmpnode) (h : n ≠ m) :
    (s.setNode m f).node n = s.node n := update_of_ne h ..

lemma sameShape_setNode {f : Tmpnode → Tmpnode} (hsub : U ⊆ s.used) (htype : ∀ tp, (f tp).type = tp.type)
    (hdir : ∀ tp, (f tp).dir = tp.dir) (hvfsp : ∀ tp, (f tp).vfsp = tp.vfsp) (n : NodeId) :
    SameShape s (s.setNode n f) U :=
  ⟨hsub, rfl, rfl, Fs.setNode_field Tmpnode.type htype s n, Fs.setNode_field Tmpnode.dir hdir s n,
    Fs.setNode_field Tmpnode.vfsp hvfsp s n, fun _ _ => rfl, fun _ _ => rfl, fun _ _ => rfl, fun _ _ => rfl,
    fun _ _ => rfl, fun _ _ => rfl, fun _ _ => rfl⟩

lemma Shape.setNode {f : Tmpnode → Tmpnode} (h : Shape s U x) (htype : ∀ tp, (f tp).type = tp.type)
    (hdir : ∀ tp, (f tp).dir = tp.dir) (hvfsp : ∀ tp, (f tp).vfsp = tp.vfsp) (n : NodeId) :
    Shape (s.setNode n f) U x :=
  h.same (sameShape_setNode h.hashed.sub htype hdir hvfsp n) fun _ _ => rfl

lemma Shape.addNlink (h : Shape s U x) (n : NodeId) (k : Int) : Shape (s.addNlink n k) U x :=
  h.setNode (f := fun tp => { tp with nlink := tp.nlink + k }) (fun _ => rfl) (fun _ => rfl) (fun _ => rfl) n

lemma Shape.addDirentries (h : Shape s U x) (m : MountId) (k : Int) : Shape (s.addDirentries m k) U x :=
  h.same ⟨h.hashed.sub, rfl, rfl, fun _ => rfl, fun _ => rfl, fun _ => rfl, fun _ _ => rfl, fun _ _ => rfl,
    fun _ _ => rfl, fun _ _ => rfl, fun _ _ => rfl, fun _ _ => rfl, fun _ _ => rfl⟩ fun _ _ => rfl

lemma setTmpnode_field {A : Type} (g : Tdirent → A) (h : ∀ td n, g { td with tmpnode := n } = g td) (s : Fs)
    (t : EntId) (n : NodeId) (e : EntId) : g ((s.setEnt t fun td => { td with tmpnode := n }).ents e) = g (s.ents e) :=
  Fs.setEnt_field g (fun td => h td n) s t e

lemma setTmpnode_tmpnode (s : Fs) (t : EntId) (n : NodeId) (e : EntId) :
    ((s.setEnt t fun td => { td with tmpnode := n }).ents e).tmpnode = if e = t then n else (s.ents e).tmpnode := by
  by_cases he : e = t
  · rw [if_pos he, he, Fs.setEnt_self]
  · rw [if_neg he, Fs.setEnt_of_ne s _ he]

lemma Shape.setTmpnode (h : Shape s U x) (hdot : (s.ents t).name ≠ dot) (hn : n ∈ s.nodes)
    (hvfsp : (s.node n).vfsp = (s.node (s.ents t).parent).vfsp)
    (hlive : (s.node n).type = .vdir → (s.node n).dir ≠ none) :
    Shape (s.setEnt t fun td => { td with tmpnode := n }) U x := by
  refine h.retarget ⟨h.hashed.sub, rfl, rfl, fun _ => rfl, fun _ => rfl, fun _ => rfl, ?_, ?_, ?_, ?_, ?_, ?_, ?_⟩ ?_
  all_goals first | exact fun e _ => setTmpnode_field _ (fun _ _ => rfl) s t n e | skip
  intro e _ hne
  rw [setTmpnode_tmpnode] at hne ⊢
  by_cases he : e = t
  · rw [if_pos he] at hne ⊢
    rw [he]
    exact ⟨hdot, hn, hvfsp, hlive⟩
  · rw [if_neg he] at hne
    exact absurd rfl hne

def only (n : NodeId) (k : Int) : NodeId → Int := fun m => if m = n then k else 0

lemma ite_eq_only (a b : NodeId) (k : Int) : (if a = b then k else 0) = only a k b := by
  unfold only
  simp only [eq_comm]

lemma naming_insert (ht : t ∉ U) (n : NodeId) :
    naming s (insert t U) n = naming s U n + only (s.ents t).tmpnode 1 n := by
  rw [← ite_eq_only]
  exact total_insert _ ht

lemma naming_erase (ht : t ∈ U) (n : NodeId) :
    naming s (U.erase t) n = naming s U n - only (s.ents t).tmpnode 1 n := by
  rw [← ite_eq_only]
  exact total_erase _ ht

lemma dirBytes_insert (ht : t ∉ U) (d : NodeId) :
    dirBytes s (insert t U) d = dirBytes s U d + only (s.ents t).parent (entSize (s.ents t).name) d := by
  rw [← ite_eq_only]
  exact total_insert _ ht

lemma dirBytes_erase (ht : t ∈ U) (d : NodeId) :
    dirBytes s (U.erase t) d = dirBytes s U d - only (s.ents t).parent (entSize (s.ents t).name) d := by
  rw [← ite_eq_only]
  exact total_erase _ ht

lemma mountEntries_insert (ht : t ∉ U) (m : MountId) :
    mountEntries s (insert t U) m = mountEntries s U m + only (s.node (s.ents t).parent).vfsp 1 m := by
  rw [← ite_eq_only]
  exact total_insert _ ht

lemma mountEntries_erase (ht : t ∈ U) (m : MountId) :
    mountEntries s (U.erase t) m = mountEntries s U m - only (s.node (s.ents t).parent).vfsp 1 m := by
  rw [← ite_eq_only]
  exact total_erase _ ht

lemma Tallied.offset {o' : NodeId → Int} (h : Tallied s U o z) (ho : ∀ n, o n = o' n) : Tallied s U o' z := by
  rwa [← funext ho]

lemma addNlink_nlink (s : Fs) (n : NodeId) (k : Int) (m : NodeId) :
    ((s.addNlink n k).node m).nlink = (s.node m).nlink + only n k m := by
  unfold Fs.addNlink Fs.setNode only
  dsimp only
  by_cases hm : m = n
  · rw [hm, update_self, if_pos rfl]
  · rw [update_of_ne hm, if_neg hm, add_zero]

lemma addNlink_field {A : Type} (g : Tmpnode → A) (h : ∀ tp k, g { tp with nlink := k } = g tp) (s : Fs) (n : NodeId)
    (k : Int) (m : NodeId) : g ((s.addNlink n k).node m) = g (s.node m) :=
  Fs.setNode_field g (fun tp => h tp _) s n m

lemma mountEntries_congr (htype : ∀ e ∈ U, (s'.node (s'.ents e).parent).vfsp = (s.node (s.ents e).parent).vfsp)
    (m : MountId) : mountEntries s' U m = mountEntries s U m := by
  refine total_congr fun e he => ?_
  rw [htype e he]

lemma Tallied.addNlink (h : Tallied s U o z) (n : NodeId) (k : Int) :
    Tallied (s.addNlink n k) U (fun m => o m + only n k m) z where
  nlink := by
    intro m hm
    have hm' := h.nlink m hm
    rw [addNlink_nlink, hm']
    exact add_assoc _ _ _
  size := by
    intro d hd htype
    rw [addNlink_field Tmpnode.type fun _ _ => rfl] at htype
    rw [addNlink_field Tmpnode.size fun _ _ => rfl]
    exact h.size d hd htype
  direntries := by
    intro m
    have hm := h.direntries m
    rwa [← mountEntries_congr fun e _ => addNlink_field Tmpnode.vfsp (fun _ _ => rfl) ..] at hm

lemma Tallied.setTmpnode (h : Tallied s U o z) (ht : t ∈ U) (n : NodeId) :
    Tallied (s.setEnt t fun td => { td with tmpnode := n }) U
      (fun m => o m + only (s.ents t).tmpnode 1 m - only n 1 m) z where
  nlink := by
    intro m hm
    have hm' := h.nlink m hm
    have hchange : naming (s.setEnt t fun td => { td with tmpnode := n }) U m =
        naming s U m - only (s.ents t).tmpnode 1 m + only n 1 m := by
      unfold naming
      rw [total_change (s := s) ht]
      · rw [Fs.setEnt_self, ite_eq_only, ite_eq_only]
      · intro e _ hne
        rw [Fs.setEnt_of_ne s _ hne]
    change (s.node m).nlink = _
    rw [hm', hchange]
    ring
  size := by
    intro d hd htype
    have hd' := h.size d hd htype
    rw [show (s.node d).size = ((s.setEnt t fun td => { td with tmpnode := n }).node d).size from rfl] at hd'
    rw [hd']
    refine (total_congr fun e _ => ?_).symm
    rw [setTmpnode_field Tdirent.parent fun _ _ => rfl, setTmpnode_field Tdirent.name fun _ _ => rfl]
  direntries := by
    intro m
    have hm := h.direntries m
    rwa [← mountEntries_congr fun e _ => by
      rw [setTmpnode_field Tdirent.parent fun _ _ => rfl]
      rfl] at hm

lemma Tallied.grow {k : NodeId → Int} {w : MountId → Int} (h : Tallied s U o z) (ht : t ∉ U) (hnodes : s'.nodes = s.nodes)
    (htype : ∀ n, (s'.node n).type = (s.node n).type) (hvfsp : ∀ n, (s'.node n).vfsp = (s.node n).vfsp)
    (htmpnode : ∀ e ∈ U, (s'.ents e).tmpnode = (s.ents e).tmpnode)
    (hparent : ∀ e ∈ U, (s'.ents e).parent = (s.ents e).parent)
    (hname : ∀ e ∈ U, (s'.ents e).name = (s.ents e).name)
    (hnlink : ∀ n, (s'.node n).nlink = (s.node n).nlink + k n)
    (hsize : ∀ n, (s'.node n).size = (s.node n).size + only (s'.ents t).parent (entSize (s'.ents t).name) n)
    (hdirentries : ∀ m, s'.direntries m = s.direntries m + w m) :
    Tallied s' (insert t U) (fun n => o n + k n - only (s'.ents t).tmpnode 1 n)
      (fun m => z m + w m - only (s.node (s'.ents t).parent).vfsp 1 m) where
  nlink := by
    intro n hn
    rw [hnodes] at hn
    have hsum : naming s' U n = naming s U n := total_congr fun e he => by rw [htmpnode e he]
    rw [hnlink, h.nlink n hn, naming_insert ht, hsum]
    ring
  size := by
    intro d hd hdir
    rw [hnodes] at hd
    rw [htype] at hdir
    have hsum : dirBytes s' U d = dirBytes s U d :=
      total_congr fun e he => by rw [hparent e he, hname e he]
    rw [hsize, h.size d hd hdir, dirBytes_insert ht, hsum]
  direntries := by
    intro m
    have hsum : mountEntries s' U m = mountEntries s U m :=
      mountEntries_congr (fun e he => by rw [hparent e he, hvfsp]) m
    rw [hdirentries, h.direntries m, mountEntries_insert ht, hsum, hvfsp]
    ring

lemma Tallied.shrink {k : NodeId → Int} {w : MountId → Int} (h : Tallied s U o z) (ht : t ∈ U) (hnodes : s'.nodes = s.nodes)
    (htype : ∀ n, (s'.node n).type = (s.node n).type) (hvfsp : ∀ n, (s'.node n).vfsp = (s.node n).vfsp)
    (htmpnode : ∀ e, (s'.ents e).tmpnode = (s.ents e).tmpnode) (hparent : ∀ e, (s'.ents e).parent = (s.ents e).parent)
    (hname : ∀ e, (s'.ents e).name = (s.ents e).name) (hnlink : ∀ n, (s'.node n).nlink = (s.node n).nlink + k n)
    (hsize : ∀ n, (s'.node n).size = (s.node n).size - only (s.ents t).parent (entSize (s.ents t).name) n)
    (hdirentries : ∀ m, s'.direntries m = s.direntries m + w m) :
    Tallied s' (U.erase t) (fun n => o n + k n + only (s.ents t).tmpnode 1 n)
      (fun m => z m + w m + only (s.node (s.ents t).parent).vfsp 1 m) where
  nlink := by
    intro n hn
    rw [hnodes] at hn
    have hsum : naming s' U n = naming s U n := total_congr fun e _ => by rw [htmpnode e]
    rw [hnlink, h.nlink n hn, naming_erase ht, hsum, htmpnode]
    ring
  size := by
    intro d hd hdir
    rw [hnodes] at hd
    rw [htype] at hdir
    have hsum : dirBytes s' U d = dirBytes s U d := total_congr fun e _ => by rw [hparent e, hname e]
    rw [hsize, h.size d hd hdir, dirBytes_erase ht, hsum, hparent, hname]
  direntries := by
    intro m
    have hsum : mountEntries s' U m = mountEntries s U m :=
      mountEntries_congr (fun e _ => by rw [hparent e, hvfsp]) m
    rw [hdirentries, h.direntries m, mountEntries_erase ht, hsum, hvfsp, hparent]
    ring

end Shape

/-!
## A directory is emptied

`tdirtrunc` takes the entries of a directory from the front of its list. The links backwards are not kept up, and so the
directory is out of shape until the list is empty.
-/

section Trunc

open Lib Function Option Finset

variable {s s' : Fs} {U : Finset EntId} {d : NodeId} {t : EntId} {o : NodeId → Int} {z : MountId → Int}

/-- What `tdirtrunc` leaves alone. -/
structure Truncated (s s' : Fs) (d : NodeId) : Prop where
  nodes : s'.nodes = s.nodes
  type : ∀ n, (s'.node n).type = (s.node n).type
  vfsp : ∀ n, (s'.node n).vfsp = (s.node n).vfsp
  dir : ∀ n, n ≠ d → (s'.node n).dir = (s.node n).dir
  tmpnode : ∀ e, (s'.ents e).tmpnode = (s.ents e).tmpnode
  parent : ∀ e, (s'.ents e).parent = (s.ents e).parent
  name : ∀ e, (s'.ents e).name = (s.ents e).name
  sub : s'.used ⊆ s.used
  keep : ∀ e ∈ s.used, (s.ents e).parent ≠ d → e ∈ s'.used

lemma Truncated.refl (s : Fs) (d : NodeId) : Truncated s s d :=
  ⟨rfl, fun _ => rfl, fun _ => rfl, fun _ _ => rfl, fun _ => rfl, fun _ => rfl, fun _ => rfl, fun _ he => he,
    fun _ he _ => he⟩

lemma Truncated.trans {s'' : Fs} (h : Truncated s s' d) (h' : Truncated s' s'' d) : Truncated s s'' d where
  nodes := h'.nodes.trans h.nodes
  type := fun n => (h'.type n).trans (h.type n)
  vfsp := fun n => (h'.vfsp n).trans (h.vfsp n)
  dir := fun n hn => (h'.dir n hn).trans (h.dir n hn)
  tmpnode := fun e => (h'.tmpnode e).trans (h.tmpnode e)
  parent := fun e => (h'.parent e).trans (h.parent e)
  name := fun e => (h'.name e).trans (h.name e)
  sub := fun _ he => h.sub (h'.sub he)
  keep := fun e he hd => h'.keep e (h.keep e he hd) (by rwa [h.parent])

/-- The first entry has left the list, and is about to leave the table. -/
def dropFirst (s : Fs) (d : NodeId) (t : EntId) : Fs :=
  (s.setNode d fun tp => { tp with dir := (s.ents t).next }).addNlink (s.ents t).tmpnode (-1)

def dropEntry (s : Fs) (tm : MountId) (d : NodeId) (t : EntId) : Fs :=
  ((s.memfree t).addSize d (-entSize (s.ents t).name)).addDirentries tm (-1)

lemma setDir_field {A : Type} (g : Tmpnode → A) (h : ∀ tp k, g { tp with dir := k } = g tp) (s : Fs) (d : NodeId)
    (k : Option EntId) (n : NodeId) : g ((s.setNode d fun tp => { tp with dir := k }).node n) = g (s.node n) :=
  Fs.setNode_field g (fun tp => h tp k) s d n

lemma dropFirst_field {A : Type} (g : Tmpnode → A) (hdir : ∀ tp k, g { tp with dir := k } = g tp)
    (hnlink : ∀ tp k, g { tp with nlink := k } = g tp) (s : Fs) (d : NodeId) (t : EntId) (n : NodeId) :
    g ((dropFirst s d t).node n) = g (s.node n) :=
  (addNlink_field g hnlink ..).trans (Fs.setNode_field g (fun tp => hdir tp _) ..)

lemma dropFirst_dir (s : Fs) (d : NodeId) (t : EntId) (n : NodeId) :
    ((dropFirst s d t).node n).dir = if n = d then (s.ents t).next else (s.node n).dir := by
  unfold dropFirst
  rw [addNlink_field Tmpnode.dir fun _ _ => rfl]
  by_cases hn : n = d
  · rw [if_pos hn, hn, Fs.setNode_self]
  · rw [if_neg hn, Fs.setNode_of_ne s _ hn]

lemma dropEntry_field {A : Type} (g : Tmpnode → A) (hsize : ∀ tp k, g { tp with size := k } = g tp) (s : Fs)
    (tm : MountId) (d : NodeId) (t : EntId) (n : NodeId) : g ((dropEntry s tm d t).node n) = g (s.node n) :=
  Fs.setNode_field g (fun tp => hsize tp _) (s.memfree t) d n

lemma addSize_size (s : Fs) (n : NodeId) (k : Int) (m : NodeId) :
    ((s.addSize n k).node m).size = (s.node m).size + only n k m := by
  unfold Fs.addSize Fs.setNode only
  dsimp only
  by_cases hm : m = n
  · rw [hm, update_self, if_pos rfl]
  · rw [update_of_ne hm, if_neg hm, add_zero]

lemma addDirentries_direntries (s : Fs) (m : MountId) (k : Int) (m' : MountId) :
    (s.addDirentries m k).direntries m' = s.direntries m' + only m k m' := by
  unfold Fs.addDirentries only
  dsimp only
  by_cases hm : m' = m
  · rw [hm, update_self, if_pos rfl]
  · rw [update_of_ne hm, if_neg hm, add_zero]

lemma tdirtrunc_step {l : List EntId} (hshape : Shape s s.used (some d)) (hl : Listed s s.used d (t :: l))
    (htally : Tallied s s.used o z) :
    ∃ s2, tmpfsHashOut (dropFirst s d t) t = (true, s2) ∧
      let s3 := dropEntry s2 (s.node d).vfsp d t
      Shape s3 s3.used (some d) ∧ Listed s3 s3.used d l ∧ Tallied s3 s3.used o z ∧ Truncated s s3 d := by
  have htU : t ∈ s.used := ((hl.mem t).mp (List.mem_cons_self ..)).1
  have htd : (s.ents t).parent = d := ((hl.mem t).mp (List.mem_cons_self ..)).2
  have hfirst : Hashed (dropFirst s d t) s.used :=
    hshape.hashed.congr (fun _ he => he) rfl (fun _ _ => rfl) (fun _ _ => rfl) (fun _ _ => rfl) fun _ _ => rfl
  obtain ⟨hout, hhashed, hre⟩ := tmpfsHashOut_spec hfirst htU
  refine ⟨(tmpfsHashOut (dropFirst s d t) t).2, Prod.ext hout rfl, ?_⟩
  set s2 := (tmpfsHashOut (dropFirst s d t) t).2
  set s3 := dropEntry s2 (s.node d).vfsp d t with hs3
  have hused : s3.used = s.used.erase t := congrArg (fun U => U.erase t) hre.used
  have hnode : ∀ {A : Type} (g : Tmpnode → A), (∀ tp k, g { tp with dir := k } = g tp) →
      (∀ tp k, g { tp with nlink := k } = g tp) → (∀ tp k, g { tp with size := k } = g tp) →
      ∀ n, g (s3.node n) = g (s.node n) := by
    intro A g hdir hnlink hsize n
    rw [hs3, dropEntry_field g hsize, hre.node, dropFirst_field g hdir hnlink]
  have htype : ∀ n, (s3.node n).type = (s.node n).type :=
    hnode Tmpnode.type (fun _ _ => rfl) (fun _ _ => rfl) (fun _ _ => rfl)
  have hvfsp : ∀ n, (s3.node n).vfsp = (s.node n).vfsp :=
    hnode Tmpnode.vfsp (fun _ _ => rfl) (fun _ _ => rfl) (fun _ _ => rfl)
  have hdir : ∀ n, (s3.node n).dir = if n = d then (s.ents t).next else (s.node n).dir := by
    intro n
    rw [hs3, dropEntry_field Tmpnode.dir fun _ _ => rfl, hre.node, dropFirst_dir]
  have hdir' : ∀ n, n ≠ d → (s3.node n).dir = (s.node n).dir := by
    intro n hn
    rw [hdir, if_neg hn]
  have hnodes : s3.nodes = s.nodes := hre.nodes
  have htrunc : Truncated s s3 d := by
    refine ⟨hnodes, htype, hvfsp, hdir', hre.tmpnode, hre.parent, hre.name, ?_, ?_⟩
    · rw [hused]
      exact erase_subset t s.used
    · intro e he hd
      rw [hused, mem_erase]
      refine ⟨?_, he⟩
      rintro rfl
      exact hd htd
  refine ⟨⟨?_, ⟨?_, ?_, ?_, ?_, ?_, ?_⟩, ?_⟩, ?_, ?_, htrunc⟩
  · rw [hused]
    exact hhashed.congr (by rw [hused]) rfl (fun _ _ => rfl) (fun _ _ => rfl) (fun _ _ => rfl) fun _ _ => rfl
  · intro e he
    rw [htrunc.parent, hnodes]
    exact hshape.sited.parent e (htrunc.sub he)
  · intro e he
    rw [htrunc.parent, htype]
    exact hshape.sited.dir e (htrunc.sub he)
  · intro e he
    rw [htrunc.tmpnode, hnodes]
    exact hshape.sited.tmpnode e (htrunc.sub he)
  · intro e he
    rw [htrunc.tmpnode, htrunc.parent, hvfsp, hvfsp]
    exact hshape.sited.mount e (htrunc.sub he)
  · intro e he
    rw [htrunc.tmpnode, htype]
    intro hne hty
    rw [hdir' _ fun h => hne (congrArg some h)]
    exact hshape.sited.live e (htrunc.sub he) hne hty
  · intro e he
    rw [htrunc.name, htrunc.tmpnode, htrunc.parent]
    exact hshape.sited.self e (htrunc.sub he)
  · intro d' hd' hty hne
    rw [hnodes] at hd'
    rw [htype] at hty
    obtain ⟨l', hl', hord⟩ := hshape.lists d' hd' hty hne
    have hdd : d' ≠ d := fun h => hne (congrArg some h)
    refine ⟨l', hl'.congr (hdir' d' hdd) (fun e _ => hre.next e) ?_, hord.congr (fun e _ => hre.prev e)
      (fun e _ => hre.offset e) fun e _ => hre.name e⟩
    intro e
    rw [htrunc.parent, hused, mem_erase]
    constructor
    · rintro ⟨⟨-, he⟩, hp⟩
      exact ⟨he, hp⟩
    · rintro ⟨he, hp⟩
      refine ⟨⟨?_, he⟩, hp⟩
      rintro rfl
      exact hdd (hp.symm.trans htd)
  · have hnext : (s.ents t).next = l.head? := Listed.next (show Listed s _ d ([] ++ t :: l) from hl)
    have hnodup := List.nodup_cons.mp hl.nodup
    refine ⟨?_, hnodup.2, ?_⟩
    · refine Chain.remove (show Chain _ _ ([] ++ t :: l) from hl.forward) hl.nodup ?_ ?_
      · change (s3.node d).dir = _
        rw [hdir, if_pos rfl, hnext]
        rfl
      · intro x _ (hx : x ≠ none)
        obtain ⟨e, rfl⟩ := ne_none_iff_exists'.mp hx
        exact hre.next e
    · intro e
      have hmem := hl.mem e
      rw [htrunc.parent, hused, mem_erase]
      constructor
      · intro he
        have hold := hmem.mp (List.mem_cons_of_mem _ he)
        refine ⟨⟨?_, hold.1⟩, hold.2⟩
        rintro rfl
        exact hnodup.1 he
      · rintro ⟨⟨hne, he⟩, hp⟩
        exact (List.mem_cons.mp (hmem.mpr ⟨he, hp⟩)).resolve_left hne
  · rw [hused]
    have hshrink := htally.shrink (k := only (s.ents t).tmpnode (-1)) (w := only (s.node d).vfsp (-1)) htU hnodes
      htype hvfsp htrunc.tmpnode htrunc.parent htrunc.name ?_ ?_ ?_
    · convert hshrink using 1
      · funext n
        unfold only
        split_ifs <;> omega
      · funext m
        rw [htd]
        unfold only
        split_ifs <;> omega
    · intro n
      rw [hs3, dropEntry_field Tmpnode.nlink fun _ _ => rfl, hre.node]
      unfold dropFirst
      rw [addNlink_nlink, setDir_field Tmpnode.nlink fun _ _ => rfl]
    · intro n
      have hsize : (s3.node n).size = (s2.node n).size + only d (-entSize (s2.ents t).name) n :=
        addSize_size (s2.memfree t) d _ n
      rw [hsize, hre.node, hre.name, dropFirst_field Tmpnode.size (fun _ _ => rfl) (fun _ _ => rfl), htd]
      unfold only
      split_ifs <;> rfl
    · intro m
      have hdirentries : s3.direntries m = s2.direntries m + only (s.node d).vfsp (-1) m :=
        addDirentries_direntries ..
      rw [hdirentries, hre.direntries]
      rfl

lemma tdirtruncLoop_succ (hdir : (s.node d).dir = some t) (tm : MountId) (fuel : Nat) :
    tdirtruncLoop tm d (fuel + 1) s =
      match tmpfsHashOut (dropFirst s d t) t with
      | (false, s) => s
      | (true, s) => tdirtruncLoop tm d fuel (dropEntry s tm d t) := by
  rw [tdirtruncLoop, hdir]
  rfl

lemma tdirtruncLoop_nil {fuel : Nat} {tm : MountId} (hdir : (s.node d).dir = none) : tdirtruncLoop tm d fuel s = s := by
  cases fuel with
  | zero => rfl
  | succ fuel => rw [tdirtruncLoop, hdir]

lemma tdirtruncLoop_spec {fuel : Nat} {l : List EntId} (hshape : Shape s s.used (some d)) (hl : Listed s s.used d l)
    (htally : Tallied s s.used o z) (hfuel : l.length ≤ fuel) {tm : MountId} (htm : tm = (s.node d).vfsp) :
    let s' := tdirtruncLoop tm d fuel s
    Shape s' s'.used (some d) ∧ Listed s' s'.used d [] ∧ Tallied s' s'.used o z ∧ Truncated s s' d := by
  induction l generalizing s fuel with
  | nil =>
    rw [tdirtruncLoop_nil hl.head]
    exact ⟨hshape, hl, htally, Truncated.refl s d⟩
  | cons t l ih =>
    obtain ⟨fuel, rfl⟩ : ∃ n, fuel = n + 1 := ⟨fuel - 1, by simp only [List.length_cons] at hfuel; omega⟩
    have hdir : (s.node d).dir = some t := hl.head
    obtain ⟨s2, hout, hshape', hl', htally', htrunc⟩ := tdirtrunc_step hshape hl htally
    have heq : tdirtruncLoop tm d (fuel + 1) s = tdirtruncLoop tm d fuel (dropEntry s2 (s.node d).vfsp d t) := by
      rw [tdirtruncLoop_succ hdir, hout, htm]
    rw [heq]
    obtain ⟨h1, h2, h3, h4⟩ := ih hshape' hl' htally' (by simpa using hfuel) (by rw [htrunc.vfsp]; exact htm)
    exact ⟨h1, h2, h3, htrunc.trans h4⟩

lemma tdirtrunc_spec (hshape : Shape s s.used none) (htally : Tallied s s.used o z) (hd : d ∈ s.nodes)
    (htype : (s.node d).type = .vdir) {tm : MountId} (htm : tm = (s.node d).vfsp)
    (halone : ∀ e ∈ s.used, (s.ents e).tmpnode = d → (s.ents e).parent = d) :
    let s' := tdirtrunc s tm d
    Shape s' s'.used none ∧ Tallied s' s'.used o z ∧ Truncated s s' d ∧ (∀ e ∈ s'.used, (s'.ents e).parent ≠ d) ∧
      (∀ e ∈ s'.used, (s'.ents e).tmpnode ≠ d) := by
  obtain ⟨l, hl, -⟩ := hshape.lists d hd htype (some_ne_none d)
  have hloose : Shape s s.used (some d) := by
    refine ⟨hshape.hashed, ⟨hshape.sited.parent, hshape.sited.dir, hshape.sited.tmpnode, hshape.sited.mount, ?_,
      hshape.sited.self⟩, ?_⟩
    · exact fun e he _ => hshape.sited.live e he (some_ne_none _)
    · exact fun d' hd' hty _ => hshape.lists d' hd' hty (some_ne_none _)
  obtain ⟨h1, h2, h3, h4⟩ := tdirtruncLoop_spec hloose hl htally (hl.length_le hshape.hashed.sub) htm
  change Truncated s (tdirtrunc s tm d) d at h4
  have hparent : ∀ e ∈ (tdirtrunc s tm d).used, ((tdirtrunc s tm d).ents e).parent ≠ d := by
    intro e he hp
    exact List.not_mem_nil ((h2.mem e).mpr ⟨he, hp⟩)
  have htmpnode : ∀ e ∈ (tdirtrunc s tm d).used, ((tdirtrunc s tm d).ents e).tmpnode ≠ d := by
    intro e he hp
    refine hparent e he ?_
    rw [h4.parent]
    exact halone e (h4.sub he) (by rwa [h4.tmpnode] at hp)
  refine ⟨⟨h1.hashed, ⟨h1.sited.parent, h1.sited.dir, h1.sited.tmpnode, h1.sited.mount, ?_, h1.sited.self⟩, ?_⟩, h3, h4,
    hparent, htmpnode⟩
  · intro e he _
    exact h1.sited.live e he fun h => htmpnode e he (some.inj h)
  · intro d' hd' hty _
    by_cases hdd : d' = d
    · subst hdd
      exact ⟨[], h2, fun pre x post h => (by simp at h), List.Pairwise.nil, .inl rfl⟩
    · exact h1.lists d' hd' hty fun h => hdd (some.inj h)

end Trunc

end Solaris.Tmpfs
