import Solaris.Flock.Recompute
import Solaris.Flock.Execute

/-!
# Removing edges

What `flk_wakeup` and the other ways of dropping edges do to the edges, the grants and the
process graph.
-/

namespace Solaris.Flock

open Lib List Function

/-- The process graph after the edges `s → l` for `s ∈ xs` are taken out of it. -/
def procDrop (lock : Nat → LockDescriptor) (l : Nat) (xs : List Nat) (ps : ProcState) : ProcState :=
  xs.foldl (fun ps s => flkUpdateProcGraph lock ps s l true) ps

/-- What waking the dependents `xs` of `l` does. -/
structure Woken (g g' : Graph) (l : Nat) (adjListRemove : Bool) (xs : List Nat) : Prop where
  lists : SameLists g' g
  adj : ∀ s, g'.deps.adj s = if adjListRemove = true ∧ s ∈ xs then (g.deps.adj s).erase l else g.deps.adj s
  inn : g'.deps.inn = update g.deps.inn l []
  state : ∀ s, g'.lState s = if s ∈ xs ∧ g'.deps.adj s = [] then { g.lState s with granted := true } else g.lState s
  ps : g'.ps = procDrop g.lock l xs g.ps
  status : g'.lockmgrStatus = g.lockmgrStatus

def wakeOne (l : Nat) (adjListRemove : Bool) (g : Graph) (lck : Nat) : Graph :=
  let g := if adjListRemove then { g with deps := g.deps.adjListRemove lck l } else g
  let g := { g with ps := flkUpdateProcGraph g.lock g.ps lck l true }
  let g := grantIfNotBlocked g lck
  { g with deps := g.deps.inListRemove lck l }

lemma grantIfNotBlocked_eq (g : Graph) (l : Nat) :
    grantIfNotBlocked g l =
      { g with
        lState := update g.lState l
          (if g.deps.adj l = [] then { g.lState l with granted := true } else g.lState l) } := by
  unfold grantIfNotBlocked Graph.setState
  by_cases hadj : g.deps.adj l = []
  · cases hgr : (g.lState l).granted with
    | true =>
      have hself : ({ g.lState l with granted := true } : LockState) = g.lState l := by rw [← hgr]
      simp [hadj, hself]
    | false => simp [hadj]
  · simp [hadj]

lemma wakeOne_woken (g : Graph) (l x : Nat) (adjListRemove : Bool) :
    SameLists (wakeOne l adjListRemove g x) g ∧
      (wakeOne l adjListRemove g x).deps.adj =
        (if adjListRemove then update g.deps.adj x ((g.deps.adj x).erase l) else g.deps.adj) ∧
      (wakeOne l adjListRemove g x).deps.inn = update g.deps.inn l ((g.deps.inn l).erase x) ∧
      (wakeOne l adjListRemove g x).lState = update g.lState x
        (if (wakeOne l adjListRemove g x).deps.adj x = [] then { g.lState x with granted := true } else g.lState x) ∧
      (wakeOne l adjListRemove g x).ps = flkUpdateProcGraph g.lock g.ps x l true ∧
      (wakeOne l adjListRemove g x).lockmgrStatus = g.lockmgrStatus := by
  unfold wakeOne
  simp only [grantIfNotBlocked_eq]
  cases adjListRemove with
  | false => exact ⟨⟨rfl, rfl, rfl, rfl, rfl⟩, rfl, rfl, rfl, rfl, rfl⟩
  | true => exact ⟨⟨rfl, rfl, rfl, rfl, rfl⟩, rfl, rfl, rfl, rfl, rfl⟩

lemma foldl_wakeOne (l : Nat) (adjListRemove : Bool) (xs : List Nat) (g : Graph) (hx : g.deps.inn l = xs)
    (hnd : xs.Nodup) : Woken g (xs.foldl (wakeOne l adjListRemove) g) l adjListRemove xs := by
  induction xs generalizing g with
  | nil =>
    refine ⟨SameLists.refl g, by simp, ?_, by simp, rfl, rfl⟩
    simp only [foldl_nil]
    rw [← hx, update_eq_self]
  | cons x xs ih =>
    rw [nodup_cons] at hnd
    rw [foldl_cons]
    obtain ⟨h1, h2, h3, h4, h5, h6⟩ := wakeOne_woken g l x adjListRemove
    set g1 := wakeOne l adjListRemove g x with hg1
    have hx1 : g1.deps.inn l = xs := by
      rw [h3, hx]
      simp
    have hw := ih g1 hx1 hnd.2
    have hadj : ∀ s, (xs.foldl (wakeOne l adjListRemove) g1).deps.adj s =
        if adjListRemove = true ∧ s ∈ x :: xs then (g.deps.adj s).erase l else g.deps.adj s := by
      intro s
      rw [hw.adj s, h2]
      cases adjListRemove with
      | false => simp
      | true =>
        by_cases hsx : s = x
        · subst hsx
          simp [hnd.1]
        · simp [hsx]
    refine ⟨hw.lists.trans h1, hadj, ?_, ?_, ?_, hw.status.trans h6⟩
    · rw [hw.inn, h3, update_idem]
    · intro s
      rw [hw.state s, h4]
      by_cases hsx : s = x
      · subst hsx
        have hsame : (xs.foldl (wakeOne l adjListRemove) g1).deps.adj s = g1.deps.adj s := by
          rw [hw.adj s, if_neg (by simp [hnd.1])]
        rw [if_neg (by simp [hnd.1]), update_self, hsame]
        simp
      · rw [update_of_ne hsx]
        simp [hsx]
    · rw [hw.ps, h5, h1.lock]
      rfl

lemma flkWakeup_woken (g : Graph) (l : Nat) (adjListRemove : Bool) (hnd : (g.deps.inn l).Nodup) :
    Woken g (flkWakeup g l adjListRemove) l adjListRemove (g.deps.inn l) := by
  exact foldl_wakeOne l adjListRemove _ g rfl hnd

lemma dropInEdges_spec (g : Graph) (l : Nat) :
    (dropInEdges g l).deps.adj = g.deps.adj ∧ (dropInEdges g l).deps.inn = update g.deps.inn l [] ∧
      (dropInEdges g l).lState = g.lState ∧ (dropInEdges g l).ps = procDrop g.lock l (g.deps.inn l) g.ps := by
  have hfold : ∀ (xs : List Nat) (g : Graph), g.deps.inn l = xs →
      (xs.foldl (fun g f => { g with
          deps := g.deps.inListRemove f l, ps := flkUpdateProcGraph g.lock g.ps f l true }) g).deps.adj = g.deps.adj ∧
        (xs.foldl (fun g f => { g with
          deps := g.deps.inListRemove f l, ps := flkUpdateProcGraph g.lock g.ps f l true }) g).deps.inn =
          update g.deps.inn l [] ∧
        (xs.foldl (fun g f => { g with
          deps := g.deps.inListRemove f l, ps := flkUpdateProcGraph g.lock g.ps f l true }) g).lState = g.lState ∧
        (xs.foldl (fun g f => { g with
          deps := g.deps.inListRemove f l, ps := flkUpdateProcGraph g.lock g.ps f l true }) g).ps =
          procDrop g.lock l xs g.ps := by
    intro xs
    induction xs with
    | nil =>
      intro g hx
      refine ⟨rfl, ?_, rfl, rfl⟩
      simp only [foldl_nil]
      rw [← hx, update_eq_self]
    | cons x xs ih =>
      intro g hx
      rw [foldl_cons]
      have hx1 : (g.deps.inListRemove x l).inn l = xs := by simp [Deps.inListRemove, hx]
      obtain ⟨h1, h2, h3, h4⟩ := ih
        { g with deps := g.deps.inListRemove x l, ps := flkUpdateProcGraph g.lock g.ps x l true } hx1
      refine ⟨h1, ?_, h3, h4⟩
      rw [h2]
      simp only [Deps.inListRemove]
      rw [update_idem]
  exact hfold _ g rfl

variable {d : Deps} {l : Nat}

lemma unhookInEdges_spec (d : Deps) (l : Nat) (hnd : (d.inn l).Nodup) :
    (∀ s, (d.unhookInEdges l).adj s = if s ∈ d.inn l then (d.adj s).erase l else d.adj s) ∧
      (d.unhookInEdges l).inn = d.inn ∧ (d.unhookInEdges l).lIndex = d.lIndex ∧
      (d.unhookInEdges l).barrier = d.barrier := by
  have hfold : ∀ (xs : List Nat) (d : Deps), xs.Nodup →
      (∀ s, (xs.foldl (fun d f => d.adjListRemove f l) d).adj s =
        if s ∈ xs then (d.adj s).erase l else d.adj s) ∧
      (xs.foldl (fun d f => d.adjListRemove f l) d).inn = d.inn ∧
      (xs.foldl (fun d f => d.adjListRemove f l) d).lIndex = d.lIndex ∧
      (xs.foldl (fun d f => d.adjListRemove f l) d).barrier = d.barrier := by
    intro xs
    induction xs with
    | nil => exact fun d _ => ⟨by simp, rfl, rfl, rfl⟩
    | cons x xs ih =>
      intro d hnd
      rw [nodup_cons] at hnd
      rw [foldl_cons]
      obtain ⟨h1, h2, h3, h4⟩ := ih (d.adjListRemove x l) hnd.2
      refine ⟨?_, h2, h3, h4⟩
      intro s
      rw [h1 s]
      by_cases hsx : s = x
      · subst hsx
        simp [hnd.1, Deps.adjListRemove]
      · simp [hsx, Deps.adjListRemove]
  exact hfold _ d hnd

lemma removeAdjEdges_spec (d : Deps) (l : Nat) (hnd : (d.adj l).Nodup) :
    (d.removeAdjEdges l).adj = update d.adj l [] ∧
      ∀ t, (d.removeAdjEdges l).inn t = if t ∈ d.adj l then (d.inn t).erase l else d.inn t := by
  have hfold : ∀ (xs : List Nat) (d : Deps), d.adj l = xs → xs.Nodup →
      (xs.foldl (fun d t => (d.inListRemove l t).adjListRemove l t) d).adj = update d.adj l [] ∧
      ∀ t, (xs.foldl (fun d t => (d.inListRemove l t).adjListRemove l t) d).inn t =
        if t ∈ xs then (d.inn t).erase l else d.inn t := by
    intro xs
    induction xs with
    | nil =>
      intro d hx _
      refine ⟨?_, by simp⟩
      simp only [foldl_nil]
      rw [← hx, update_eq_self]
    | cons x xs ih =>
      intro d hx hnd
      rw [nodup_cons] at hnd
      rw [foldl_cons]
      have hx1 : ((d.inListRemove l x).adjListRemove l x).adj l = xs := by
        simp [Deps.inListRemove, Deps.adjListRemove, hx]
      obtain ⟨h1, h2⟩ := ih _ hx1 hnd.2
      constructor
      · rw [h1]
        simp only [Deps.inListRemove, Deps.adjListRemove]
        rw [update_idem]
      · intro t
        rw [h2 t]
        by_cases htx : t = x
        · subst htx
          simp [hnd.1, Deps.inListRemove, Deps.adjListRemove]
        · simp [htx, Deps.inListRemove, Deps.adjListRemove]
  exact hfold _ d rfl hnd

def Deps.flip (d : Deps) : Deps := { d with adj := d.inn, inn := d.adj }

lemma removeInEdges_flip (d : Deps) (l : Nat) : d.removeInEdges l = (d.flip.removeAdjEdges l).flip := by
  have hfold : ∀ (xs : List Nat) (d : Deps), xs.foldl (fun d f => (d.inListRemove f l).adjListRemove f l) d =
      (xs.foldl (fun d t => (d.inListRemove l t).adjListRemove l t) d.flip).flip := by
    intro xs
    induction xs with
    | nil => exact fun _ => rfl
    | cons x xs ih => exact fun d => ih _
  exact hfold _ d

lemma removeInEdges_spec (d : Deps) (l : Nat) (hnd : (d.inn l).Nodup) :
    (d.removeInEdges l).inn = update d.inn l [] ∧
      ∀ s, (d.removeInEdges l).adj s = if s ∈ d.inn l then (d.adj s).erase l else d.adj s := by
  rw [removeInEdges_flip]
  exact removeAdjEdges_spec d.flip l hnd

abbrev Paired (d : Deps) : Prop := Mirrored (fun _ => False) d

variable {d' : Deps} {s t : Nat}

lemma Paired.mem (h : Paired d) : t ∈ d.adj s ↔ s ∈ d.inn t := h.mirror s t (fun hf => hf)

lemma Paired.dependent (h : Paired d) {w : Nat} : Dependent d l w ↔ Path d w l := by
  have hstep : Step d.inn = Function.swap (Step d.adj) := by
    funext a b
    exact propext h.mem.symm
  unfold Dependent Path
  rw [hstep, Relation.transGen_swap]

lemma path_split (hd : ∀ a b, b ∈ d.adj a → b ≠ l → b ∈ d'.adj a) (hp : Path d s t) (ht : t ≠ l) :
    Path d' s t ∨ (Path d s l ∧ Path d l t) := by
  induction hp with
  | single hst => exact .inl (Relation.TransGen.single (hd _ _ hst ht))
  | @tail b c hsb hbc ih =>
    by_cases hb : b = l
    · subst hb
      exact .inr ⟨hsb, Relation.TransGen.single hbc⟩
    · rcases ih hb with h | ⟨h1, h2⟩
      · exact .inl (Relation.TransGen.tail h (hd _ _ hbc ht))
      · exact .inr ⟨h1, Relation.TransGen.tail h2 hbc⟩

lemma Path.head_ne_nil (hp : Path d s t) : d.adj s ≠ [] := by
  obtain ⟨b, hsb, -⟩ := Relation.TransGen.head'_iff.mp hp
  intro hnil
  rw [Step, hnil] at hsb
  exact not_mem_nil hsb

lemma unhookInEdges_mem (h : Paired d) : t ∈ (d.unhookInEdges l).adj s ↔ t ∈ d.adj s ∧ t ≠ l := by
  rw [(unhookInEdges_spec d l (h.inn_nodup l)).1 s]
  split_ifs with hs
  · rw [(h.adj_nodup s).mem_erase_iff]
    tauto
  constructor
  · intro ht
    refine ⟨ht, ?_⟩
    rintro rfl
    exact hs (h.mem.mp ht)
  · exact fun ht => ht.1

lemma unhookInEdges_mirrored (h : Paired d) : Mirrored (· = l) (d.unhookInEdges l) := by
  obtain ⟨h1, h2, -, -⟩ := unhookInEdges_spec d l (h.inn_nodup l)
  refine ⟨?_, ?_, ?_, ?_⟩
  · intro s
    rw [h1 s]
    split
    · exact (h.adj_nodup s).erase l
    · exact h.adj_nodup s
  · rw [h2]
    exact h.inn_nodup
  · intro s t ht
    rw [unhookInEdges_mem h, h2, ← h.mem]
    exact ⟨fun hx => hx.1, fun hx => ⟨hx, ht⟩⟩
  · intro s t ht hm
    exact (unhookInEdges_mem h).mp hm |>.2 ht

lemma removeAdjEdges_paired (h : Paired d) (l : Nat) :
    Paired (d.removeAdjEdges l) ∧ ∀ s t, t ∈ (d.removeAdjEdges l).adj s ↔ t ∈ d.adj s ∧ s ≠ l := by
  obtain ⟨h1, h2⟩ := removeAdjEdges_spec d l (h.adj_nodup l)
  have hmem : ∀ s t, t ∈ (d.removeAdjEdges l).adj s ↔ t ∈ d.adj s ∧ s ≠ l := by
    intro s t
    rw [h1]
    by_cases hs : s = l
    · subst hs
      simp
    · rw [update_of_ne hs]
      simp [hs]
  refine ⟨⟨?_, ?_, ?_, fun s t ht => absurd ht (fun hf => hf)⟩, hmem⟩
  · intro s
    rw [h1]
    by_cases hs : s = l
    · subst hs
      simp
    · rw [update_of_ne hs]
      exact h.adj_nodup s
  · intro t
    rw [h2 t]
    split
    · exact (h.inn_nodup t).erase l
    · exact h.inn_nodup t
  · intro s t _
    rw [hmem, h2 t]
    split
    · rw [(h.inn_nodup t).mem_erase_iff, h.mem]
      tauto
    · rename_i ht
      rw [h.mem]
      refine ⟨fun hx => hx.1, fun hx => ⟨hx, ?_⟩⟩
      rintro rfl
      exact ht (h.mem.mpr hx)

lemma removeInEdges_paired (h : Paired d) (l : Nat) :
    Paired (d.removeInEdges l) ∧ ∀ s t, t ∈ (d.removeInEdges l).adj s ↔ t ∈ d.adj s ∧ t ≠ l := by
  obtain ⟨h1, h2⟩ := removeInEdges_spec d l (h.inn_nodup l)
  have hmem : ∀ s t, t ∈ (d.removeInEdges l).adj s ↔ t ∈ d.adj s ∧ t ≠ l := by
    intro s t
    rw [h2 s, ← unhookInEdges_mem h, (unhookInEdges_spec d l (h.inn_nodup l)).1 s]
  refine ⟨⟨?_, ?_, ?_, fun s t ht => absurd ht (fun hf => hf)⟩, hmem⟩
  · intro s
    rw [h2 s]
    split
    · exact (h.adj_nodup s).erase l
    · exact h.adj_nodup s
  · intro t
    rw [h1]
    by_cases ht : t = l
    · subst ht
      simp
    · rw [update_of_ne ht]
      exact h.inn_nodup t
  · intro s t _
    rw [hmem, h1]
    by_cases ht : t = l
    · subst ht
      simp
    · rw [update_of_ne ht, h.mem]
      simp [ht]

/-- The edges once `l` has been replaced by the locks of `top`. -/
structure Exchange (lock : Nat → LockDescriptor) (top : List Nat) (d d' : Deps) (l : Nat) : Prop where
  paired : Paired d'
  keeps : ∀ s t, t ≠ l → Path d s t → Path d' s t
  gains : ∀ s, Path d s l → ∀ t ∈ top, blocks (lock t) (lock s) = true → Path d' s t
  old : ∀ s t, t ∈ d.adj s → t ≠ l → t ∈ d'.adj s
  edges : ∀ s t, t ∈ d'.adj s → (t ∈ d.adj s ∧ t ≠ l) ∨ (Path d s l ∧ t ∈ top ∧ blocks (lock t) (lock s) = true)

lemma Mirrored.clearIn (h : Mirrored (· = l) d) (hadj : d'.adj = d.adj) (hinn : d'.inn = update d.inn l []) :
    Paired d' := by
  refine ⟨by rw [hadj]; exact h.adj_nodup, ?_, ?_, fun s t ht => absurd ht (fun hf => hf)⟩
  · intro t
    rw [hinn]
    by_cases ht : t = l
    · subst ht
      simp
    · rw [update_of_ne ht]
      exact h.inn_nodup t
  · intro s t _
    rw [hadj, hinn]
    by_cases ht : t = l
    · subst ht
      rw [update_self]
      exact ⟨fun hm => absurd hm (h.gone s t rfl), fun hm => absurd hm not_mem_nil⟩
    · rw [update_of_ne ht]
      exact h.mirror s t ht

/-- Recomputing for the dependents of `l`, once the edges into `l` are unhooked. -/
structure Recomputed (lock : Nat → LockDescriptor) (top : List Nat) (d d₂ : Deps) (l : Nat) : Prop where
  mirrored : Mirrored (· = l) d₂
  inn_root : d₂.inn l = d.inn l
  old : ∀ s t, t ∈ d.adj s → t ≠ l → t ∈ d₂.adj s
  gains : ∀ s, Path d s l → ∀ t ∈ top, blocks (lock t) (lock s) = true → Path d₂ s t
  edges : ∀ s t, t ∈ d₂.adj s → (t ∈ d.adj s ∧ t ≠ l) ∨ (Path d s l ∧ t ∈ top ∧ blocks (lock t) (lock s) = true)

lemma recompute_unhooked (lock : Nat → LockDescriptor) (h : Paired d) {n : Nat} {rank : Nat → Nat} {top : List Nat}
    (hc : Recomputable n rank (d.unhookInEdges l) l top) (ps : ProcState) (upd : Bool) :
    Recomputed lock top d (flkRecomputeDependencies lock n (d.unhookInEdges l) ps l top upd).1 l := by
  obtain ⟨hg, hp⟩ := flkRecomputeDependencies_spec lock upd hc ps
  have hinn : (d.unhookInEdges l).inn = d.inn := (unhookInEdges_spec d l (h.inn_nodup l)).2.1
  have hdep : ∀ w, Dependent (d.unhookInEdges l) l w ↔ Path d w l := by
    intro w
    rw [← h.dependent]
    unfold Dependent
    rw [hinn]
  refine ⟨?_, ?_, ?_, ?_, ?_⟩
  · apply (unhookInEdges_mirrored h).grown _ hg
    rintro v t ⟨-, ht, -⟩ rfl
    exact hc.root_not_mem ht
  · rw [hg.inn_eq, hinn]
    rintro v ⟨-, ht, -⟩
    exact hc.root_not_mem ht
  · intro s t hst ht
    exact hg.adj_mono ((unhookInEdges_mem h).mpr ⟨hst, ht⟩)
  · intro s hs t ht hb
    exact hp s ((hdep s).mpr hs) t ht hb
  · intro s t hst
    rcases hg.adj_new hst with hst | ⟨h1, h2, h3⟩
    · exact .inl ((unhookInEdges_mem h).mp hst)
    · exact .inr ⟨(hdep s).mp h1, h2, h3⟩

lemma Recomputed.exchange {lock : Nat → LockDescriptor} {top : List Nat} {d₂ : Deps}
    (h : Recomputed lock top d d₂ l) (hsink : d.adj l = []) (hadj : d'.adj = d₂.adj)
    (hinn : d'.inn = update d₂.inn l []) : Exchange lock top d d' l := by
  refine ⟨h.mirrored.clearIn hadj hinn, ?_, ?_, ?_, ?_⟩
  · intro s t ht hp
    rcases path_split h.old hp ht with hp | ⟨-, hp⟩
    · unfold Path
      rw [hadj]
      exact hp
    · exact absurd hsink hp.head_ne_nil
  · intro s hs t ht hb
    unfold Path
    rw [hadj]
    exact h.gains s hs t ht hb
  · rw [hadj]
    exact h.old
  · rw [hadj]
    exact h.edges

end Solaris.Flock
