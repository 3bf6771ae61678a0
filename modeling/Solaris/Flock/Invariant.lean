import Solaris.Flock.Waits

/-!
# The invariant of a lock graph

Who waits for whom while the lists change, and what one turn of `flk_execute_request`
keeps of it.
-/

namespace Solaris.Flock

open Lib List Function

/-- The sleeping list: grouped by vnode, and the newest request of a vnode first. -/
structure SleepOk (g : Graph) : Prop where
  lt : ∀ s ∈ g.sleeping, s < g.next
  ranged : ∀ s ∈ g.sleeping, (g.lock s).Ranged
  locked : ∀ s ∈ g.sleeping, (g.lock s).lType ≠ .unlck
  order : g.sleeping.Pairwise (fun a b => (g.lock a).lVnode < (g.lock b).lVnode ∨
    ((g.lock a).lVnode = (g.lock b).lVnode ∧ b < a))

/-- Edges lead from a sleeping lock to an older one, or to one of `E`, that blocks it. -/
structure Waits (lock : Nat → LockDescriptor) (sleeping : List Nat) (E : Nat → Prop) (d : Deps) : Prop where
  paired : Paired d
  edge : ∀ s t, t ∈ d.adj s → s ∈ sleeping ∧ ((t ∈ sleeping ∧ t < s) ∨ E t) ∧
    (lock t).lVnode = (lock s).lVnode ∧ blocks (lock t) (lock s) = true

/-- Every sleeping lock has a path to all that block it: older sleeping locks and `B`. -/
def Reaches (lock : Nat → LockDescriptor) (sleeping : List Nat) (B : Nat → Prop) (d : Deps) : Prop :=
  ∀ s ∈ sleeping, ∀ t, (t ∈ sleeping ∧ t < s) ∨ B t → (lock t).lVnode = (lock s).lVnode →
    blocks (lock t) (lock s) = true → Path d s t

def GrantedOk (g : Graph) : Prop := ∀ s ∈ g.sleeping, (g.lState s).granted = true ↔ g.deps.adj s = []

/-- No two locks of `B` conflict. -/
def Clean (lock : Nat → LockDescriptor) (B : Nat → Prop) : Prop :=
  ∀ a b, B a → B b → (lock a).lVnode = (lock b).lVnode → blocks (lock a) (lock b) = false

/-- The invariant between two sections that hold `gp_mutex`. -/
structure Inv (g : Graph) : Prop where
  list : ListInv g
  sleep : SleepOk g
  awake : ∀ s ∈ g.sleeping, s ∉ g.active
  waits : Waits g.lock g.sleeping (· ∈ g.active) g.deps
  reaches : Reaches g.lock g.sleeping (· ∈ g.active) g.deps
  granted : GrantedOk g
  clean : Clean g.lock (· ∈ g.active)

/-- The invariant while the request `rq` is executed. A sleeping lock blocked by the
request has a path to it, or meets it in a lock of the same owner that is still to go. -/
structure ExecInv (g : Graph) (rq : Nat) : Prop where
  sleep : SleepOk g
  awake : ∀ s ∈ g.sleeping, s ∉ g.active ∧ s ≠ rq
  waits : Waits g.lock g.sleeping (fun t => t ∈ g.active ∨ (t = rq ∧ (g.lock rq).lType ≠ .unlck)) g.deps
  reaches : Reaches g.lock g.sleeping (· ∈ g.active) g.deps
  granted : GrantedOk g
  clean : Clean g.lock (· ∈ g.active)
  rqClean : (g.lock rq).lType ≠ .unlck → ∀ a ∈ g.active, (g.lock a).lVnode = (g.lock rq).lVnode →
    blocks (g.lock a) (g.lock rq) = false
  rqReaches : (g.lock rq).lType ≠ .unlck → ∀ s ∈ g.sleeping, (g.lock rq).lVnode = (g.lock s).lVnode →
    blocks (g.lock rq) (g.lock s) = true → Path g.deps s rq ∨ ∃ a, Mine g rq a ∧
      blocks (g.lock a) (g.lock s) = true ∧ ∃ x, (g.lock a).Has x ∧ (g.lock rq).Has x ∧ (g.lock s).Has x

lemma overlap_iff {l1 l2 : LockDescriptor} (h1 : l1.Ranged) (h2 : l2.Ranged) :
    overlap l1 l2 = true ↔ ∃ x, l1.Has x ∧ l2.Has x := by
  unfold LockDescriptor.Ranged at h1 h2
  simp only [overlap, Bool.or_eq_true, Bool.and_eq_true, decide_eq_true_eq, LockDescriptor.Has]
  constructor
  · rintro (h | h)
    · exact ⟨l2.lStart, by omega⟩
    · exact ⟨l1.lStart, by omega⟩
  · rintro ⟨x, hx⟩
    omega

lemma blocks_iff {l1 l2 : LockDescriptor} (h1 : l1.Ranged) (h2 : l2.Ranged) :
    blocks l1 l2 = true ↔ l1.owner ≠ l2.owner ∧ (l1.lType = .wrlck ∨ l2.lType = .wrlck) ∧
      ∃ x, l1.Has x ∧ l2.Has x := by
  rw [← overlap_iff h1 h2]
  simp only [blocks, Bool.and_eq_true, Bool.not_eq_true', Bool.or_eq_true, beq_iff_eq, and_assoc]
  rw [← Bool.not_eq_true, sameOwner_iff]

lemma blocks_comm (l1 l2 : LockDescriptor) : blocks l1 l2 = blocks l2 l1 := by
  have ho : sameOwner l1 l2 = sameOwner l2 l1 := by
    simp only [sameOwner]
    rw [Bool.beq_comm (a := l1.lPid), Bool.beq_comm (a := l1.lSysid)]
  have hv : overlap l1 l2 = overlap l2 l1 := by
    simp only [overlap]
    rw [Bool.or_comm]
  simp only [blocks, ho, hv]
  rw [Bool.or_comm]

lemma blocks_of_has {l l' s : LockDescriptor} (hl : l.Ranged) (hl' : l'.Ranged) (hs : s.Ranged)
    (ho : l'.owner = l.owner) (ht : l.lType = .wrlck → l'.lType = .wrlck) (hb : blocks l s = true)
    {x : Nat} (hx : l'.Has x) (hxs : s.Has x) : blocks l' s = true := by
  rw [blocks_iff hl hs] at hb
  rw [blocks_iff hl' hs, ho]
  refine ⟨hb.1, ?_, x, hx, hxs⟩
  rcases hb.2.1 with h | h
  · exact .inl (ht h)
  · exact .inr h

/-- Older sleeping locks rank lower, and all others lowest. -/
def sleepRank (sleeping : List Nat) (s : Nat) : Nat := if s ∈ sleeping then s + 1 else 0

section Waiting

variable {lock : Nat → LockDescriptor} {sleeping : List Nat} {E : Nat → Prop} {d : Deps} {n s t l : Nat}

section

variable (h : Waits lock sleeping E d)

include h

lemma Waits.sink (hs : s ∉ sleeping) : d.adj s = [] := by
  rw [eq_nil_iff_forall_not_mem]
  intro t ht
  exact hs (h.edge s t ht).1

lemma Waits.rank_lt (hE : ∀ t, E t → t ∉ sleeping) (ht : t ∈ d.adj s) :
    sleepRank sleeping t < sleepRank sleeping s := by
  obtain ⟨hs, ht, -, -⟩ := h.edge s t ht
  unfold sleepRank
  rw [if_pos hs]
  rcases ht with ht | ht
  · rw [if_pos ht.1]
    omega
  · rw [if_neg (hE t ht)]
    omega

lemma Waits.path_vnode (hp : Path d s t) : (lock t).lVnode = (lock s).lVnode := by
  induction hp with
  | single hst => exact (h.edge _ _ hst).2.2.1
  | tail _ hst ih => exact (h.edge _ _ hst).2.2.1.trans ih

lemma Waits.path_source (hp : Path d s t) : s ∈ sleeping := by
  obtain ⟨b, hsb, -⟩ := Relation.TransGen.head'_iff.mp hp
  exact (h.edge s b hsb).1

lemma Waits.lt_next (hs : ∀ s ∈ sleeping, s < n) (hE : ∀ t, E t → t < n)
    (ht : t ∈ d.adj s) : s < n ∧ t < n := by
  obtain ⟨h1, h2, -, -⟩ := h.edge s t ht
  refine ⟨hs s h1, ?_⟩
  rcases h2 with h2 | h2
  · exact hs t h2.1
  · exact hE t h2

lemma Waits.recomputable (hs : ∀ s ∈ sleeping, s < n) (hE : ∀ t, E t → t ∉ sleeping)
    (hEn : ∀ t, E t → t < n) (hl : l < n) {top : List Nat} (hnd : top.Nodup) (hlt : ∀ t ∈ top, t < n)
    (hrank : ∀ t ∈ top, sleepRank sleeping t ≤ sleepRank sleeping l) (hlm : l ∉ top) :
    Recomputable n (sleepRank sleeping) (d.unhookInEdges l) l top := by
  have hinn : (d.unhookInEdges l).inn = d.inn := (unhookInEdges_spec d l (h.paired.inn_nodup l)).2.1
  refine ⟨?_, ?_, hl, ?_, ?_, ?_, hnd, hlt, hrank, hlm⟩
  · intro a b hab
    exact (h.lt_next hs hEn ((unhookInEdges_mem h.paired).mp hab).1).2
  · intro b a hab
    rw [hinn, ← h.paired.mem] at hab
    exact (h.lt_next hs hEn hab).1
  · intro a b hab
    exact h.rank_lt hE ((unhookInEdges_mem h.paired).mp hab).1
  · intro b a hab
    rw [hinn, ← h.paired.mem] at hab
    exact h.rank_lt hE hab
  · intro a b hb hab
    rw [hinn, ← h.paired.mem] at hab
    exact (unhookInEdges_mem h.paired).mpr ⟨hab, hb⟩

end

end Waiting

lemma flkGetLock_edges {g : Graph} (h : g.deps.adj g.next = [] ∧ g.deps.inn g.next = []) (desc : LockDescriptor)
    (state : LockState) (pv : Option Nat) : SameEdges (flkGetLock g desc state pv).2.deps g.deps := by
  constructor
  · simp only [flkGetLock]
    rw [← h.1, update_eq_self]
  · simp only [flkGetLock]
    rw [← h.2, update_eq_self]

lemma getPieces_edges (src : Nat) (pieces : List LockDescriptor) {g : Graph}
    (h : ∀ i, g.next ≤ i → g.deps.adj i = [] ∧ g.deps.inn i = []) :
    SameEdges (getPieces g src pieces).2.deps g.deps ∧
      ∀ i < g.next, (getPieces g src pieces).2.lState i = g.lState i := by
  induction pieces generalizing g with
  | nil => exact ⟨SameEdges.refl _, fun i _ => rfl⟩
  | cons p pieces ih =>
    have he := flkGetLock_edges (h g.next le_rfl) p {} (g.ps.pvertex src)
    have h' : ∀ i, (flkGetLock g p {} (g.ps.pvertex src)).2.next ≤ i →
        (flkGetLock g p {} (g.ps.pvertex src)).2.deps.adj i = [] ∧
          (flkGetLock g p {} (g.ps.pvertex src)).2.deps.inn i = [] := by
      intro i hi
      rw [he.adj, he.inn]
      apply h
      simp only [flkGetLock] at hi
      omega
    obtain ⟨h1, h2⟩ := ih h'
    refine ⟨h1.trans he, ?_⟩
    intro i hi
    simp only [getPieces]
    rw [h2 i (by simp only [flkGetLock]; omega)]
    simp only [flkGetLock]
    rw [update_of_ne (by omega)]

lemma getPieces_pg (g : Graph) (src : Nat) (pieces : List LockDescriptor) :
    (getPieces g src pieces).2.ps.pg = g.ps.pg := by
  induction pieces generalizing g with
  | nil => rfl
  | cons p pieces ih =>
    simp only [getPieces]
    rw [ih]
    rfl

/-- How the process graph followed: new edges are counted, and then the edges into `l` are
taken out. -/
def Followed (g g' : Graph) (l : Nat) : Prop :=
  ∃ (d₀ d : Deps) (ps₀ ps : ProcState), d₀.inn = g.deps.inn ∧ ps₀.pg = g.ps.pg ∧
    Grown g'.lock true (fun v t => t < g'.next ∧ blocks (g'.lock t) (g'.lock v) = true) d₀ ps₀ d ps ∧
    d.inn l = g.deps.inn l ∧ g'.deps.inn = update d.inn l [] ∧ g'.ps = procDrop g'.lock l (g.deps.inn l) ps

/-- The edges and grants after one turn replaced `l` by `top`. -/
structure Turned (g g' : Graph) (l : Nat) (top : List Nat) (wake : Bool) : Prop where
  exchange : Exchange g'.lock top g.deps g'.deps l
  state : ∀ s < g.next, g'.lState s = if wake = true ∧ s ∈ g.deps.inn l ∧ g'.deps.adj s = [] then
    { g.lState s with granted := true } else g.lState s
  followed : Followed g g' l

section Turn

variable {g : Graph} {rq l : Nat}

lemma ExecInv.no_edges (h : ExecInv g rq) (hi : ListInv g) (hp : Pending g rq) {i : Nat} (hn : g.next ≤ i) :
    g.deps.adj i = [] ∧ g.deps.inn i = [] := by
  have hE : ∀ t, (t ∈ g.active ∨ (t = rq ∧ (g.lock rq).lType ≠ .unlck)) → t < g.next := by
    rintro t (ht | ⟨rfl, -⟩)
    · exact hi.lt t ht
    · exact hp.lt
  constructor
  · apply h.waits.sink
    intro hs
    have := h.sleep.lt i hs
    omega
  · rw [eq_nil_iff_forall_not_mem]
    intro s hs
    rw [← h.waits.paired.mem] at hs
    have := (h.waits.lt_next h.sleep.lt hE hs).2
    omega

lemma Woken.exchange {g' : Graph} {lock : Nat → LockDescriptor} (h : Paired g.deps)
    (hw : Woken g g' l true (g.deps.inn l)) (hsink : g.deps.adj l = []) : Exchange lock [] g.deps g'.deps l := by
  have hmem : ∀ s t, t ∈ g'.deps.adj s ↔ t ∈ g.deps.adj s ∧ t ≠ l := by
    intro s t
    rw [hw.adj s, ← unhookInEdges_mem h, (unhookInEdges_spec g.deps l (h.inn_nodup l)).1 s]
    simp
  have hnd : ∀ s, (g'.deps.adj s).Nodup := by
    intro s
    rw [hw.adj s]
    split
    · exact (h.adj_nodup s).erase l
    · exact h.adj_nodup s
  refine ⟨⟨hnd, ?_, ?_, fun s t ht => absurd ht (fun hf => hf)⟩, ?_, ?_, ?_, ?_⟩
  · intro t
    rw [hw.inn]
    by_cases ht : t = l
    · subst ht
      simp
    · rw [update_of_ne ht]
      exact h.inn_nodup t
  · intro s t _
    rw [hmem, hw.inn]
    by_cases ht : t = l
    · subst ht
      simp
    · rw [update_of_ne ht, ← h.mem]
      exact ⟨fun hx => hx.1, fun hx => ⟨hx, ht⟩⟩
  · intro s t ht hp
    rcases path_split (fun a b hab hb => (hmem a b).mpr ⟨hab, hb⟩) hp ht with hp | ⟨-, hp⟩
    · exact hp
    · exact absurd hsink hp.head_ne_nil
  · intro s _ t ht
    exact absurd ht not_mem_nil
  · intro s t hst ht
    exact (hmem s t).mpr ⟨hst, ht⟩
  · intro s t hst
    exact .inl ((hmem s t).mp hst)

lemma Waits.same {lock : Nat → LockDescriptor} {sleeping : List Nat} {E : Nat → Prop} {d d' : Deps}
    (h : Waits lock sleeping E d) (hs : SameEdges d' d) : Waits lock sleeping E d' := by
  refine ⟨h.paired.same hs, ?_⟩
  rw [hs.adj]
  exact h.edge

lemma Exchange.same {lock : Nat → LockDescriptor} {top : List Nat} {d d₀ d' : Deps} (h : Exchange lock top d d' l)
    (hs : SameEdges d d₀) : Exchange lock top d₀ d' l := by
  have hp : Path d = Path d₀ := by
    unfold Path
    rw [hs.adj]
  refine ⟨h.paired, ?_, ?_, ?_, ?_⟩
  · rw [← hp]
    exact h.keeps
  · rw [← hp]
    exact h.gains
  · rw [← hs.adj]
    exact h.old
  · rw [← hs.adj, ← hp]
    exact h.edges

/-- The locks that may get new edges: the pieces, and the request unless it is an unlock. -/
def topologyOf (rqType : LockType) (ids : List Nat) (rq : Nat) : List Nat :=
  if rqType = .unlck then ids else ids ++ [rq]

lemma mem_topologyOf {rqType : LockType} {ids : List Nat} {t : Nat} :
    t ∈ topologyOf rqType ids rq ↔ t ∈ ids ∨ (t = rq ∧ rqType ≠ .unlck) := by
  unfold topologyOf
  by_cases h : rqType = .unlck
  · simp [h]
  · simp [h]

def wakes (effect : LockEffect) : Bool := decide (effect = .downgrade ∨ effect = .unlock)

lemma flkRelation_turned {r' : LockDescriptor} {pieces : List LockDescriptor} (h : ExecInv g rq) (hi : ListInv g)
    (hp : Pending g rq) (hl : l ∈ g.active) (hc : relationCases (g.lock l) (g.lock rq) = .recompute r' pieces) :
    Turned g (flkRelation g l rq).1 l (topologyOf (g.lock rq).lType (getPieces g l pieces).1 rq)
      (wakes (lockEffect (g.lock l) (g.lock rq))) := by
  have hgot := getPieces_got g l pieces
  obtain ⟨hedges, hstate⟩ := getPieces_edges l pieces (fun i hn => h.no_edges hi hp hn)
  set p := getPieces g l pieces with hpdef
  set gB := flkDeleteActiveLock
    { p.2 with lock := update p.2.lock rq r', deps := p.2.deps.unhookInEdges l } l with hB
  set top := topologyOf (g.lock rq).lType p.1 rq with htop
  set dp := flkRecomputeDependencies gB.lock gB.next gB.deps gB.ps l top true with hdp
  set gD := p.1.foldl flkInsertActiveLock { gB with deps := dp.1, ps := dp.2 } with hD
  have htopdef : (if lockEffect (g.lock l) (g.lock rq) = .unlock then p.1 else p.1 ++ [rq]) = top := by
    rw [htop, topologyOf]
    simp only [lockEffect_unlock]
  have hrel : (flkRelation g l rq).1 = if lockEffect (g.lock l) (g.lock rq) = .downgrade ∨
      lockEffect (g.lock l) (g.lock rq) = .unlock then flkWakeup gD l false else dropInEdges gD l := by
    simp only [flkRelation, hc]
    rw [← hpdef, htopdef]
  have hf := foldl_insert_frame p.1 { gB with deps := dp.1, ps := dp.2 }
  have hEs : ∀ t, (t ∈ g.active ∨ (t = rq ∧ (g.lock rq).lType ≠ .unlck)) → t ∉ g.sleeping := by
    rintro t (ht | ⟨rfl, -⟩) hs
    · exact (h.awake t hs).1 ht
    · exact (h.awake t hs).2 rfl
  have hnle : g.next ≤ p.2.next := by
    rw [hgot.next_eq]
    omega
  have hEn : ∀ t, (t ∈ g.active ∨ (t = rq ∧ (g.lock rq).lType ≠ .unlck)) → t < p.2.next := by
    rintro t (ht | ⟨rfl, -⟩)
    · exact lt_of_lt_of_le (hi.lt t ht) hnle
    · exact lt_of_lt_of_le hp.lt hnle
  have hwaits := h.waits.same hedges
  have htopMem : ∀ t ∈ top, t ∉ g.sleeping ∧ t < p.2.next ∧ t ≠ l := by
    intro t ht
    rcases mem_topologyOf.mp ht with ht | ⟨rfl, -⟩
    · have hm := hgot.mem_ids.mp ht
      refine ⟨fun hs => ?_, hm.2, ?_⟩
      · have := h.sleep.lt t hs
        omega
      · rintro rfl
        have := hi.lt t hl
        omega
    · refine ⟨fun hs => (h.awake t hs).2 rfl, lt_of_lt_of_le hp.lt hnle, ?_⟩
      rintro rfl
      exact hp.fresh hl
  have hndTop : top.Nodup := by
    rw [htop, topologyOf]
    split
    · exact hgot.nodup
    rw [nodup_append]
    refine ⟨hgot.nodup, nodup_singleton rq, ?_⟩
    intro a ha b hb hab
    rw [mem_singleton] at hb
    have h1 := (hgot.mem_ids.mp ha).1
    have h2 := hp.lt
    omega
  have hrec : Recomputable p.2.next (sleepRank g.sleeping) (p.2.deps.unhookInEdges l) l top := by
    apply hwaits.recomputable (fun s hs => lt_of_lt_of_le (h.sleep.lt s hs) hnle) hEs hEn
      (lt_of_lt_of_le (hi.lt l hl) hnle) hndTop (fun t ht => (htopMem t ht).2.1) _ (fun hm => (htopMem l hm).2.2 rfl)
    intro t ht
    unfold sleepRank
    rw [if_neg (htopMem t ht).1]
    omega
  have hred : Recomputed gB.lock top p.2.deps dp.1 l := recompute_unhooked gB.lock hwaits.paired hrec gB.ps true
  have hsink : p.2.deps.adj l = [] := hwaits.sink (fun hs => (h.awake l hs).1 hl)
  have hinnl : gD.deps.inn l = g.deps.inn l := by
    rw [hf.deps]
    rw [hred.inn_root, hedges.inn]
  have hnd : (gD.deps.inn l).Nodup := by
    rw [hinnl]
    exact h.waits.paired.inn_nodup l
  have hlst : ∀ s < g.next, gD.lState s = g.lState s := by
    intro s hs
    rw [hf.lState]
    exact hstate s hs
  have hgrown : ∀ g' : Graph, g'.lock = gB.lock → g'.next = gB.next → g'.deps.inn = update dp.1.inn l [] →
      g'.ps = procDrop gD.lock l (gD.deps.inn l) gD.ps → Followed g g' l := by
    intro g' hlock hnext hinn hps
    have hg := (flkRecomputeDependencies_spec gB.lock true hrec gB.ps).1
    refine ⟨p.2.deps.unhookInEdges l, dp.1, gB.ps, dp.2, ?_, getPieces_pg g l pieces, ?_, ?_, hinn, ?_⟩
    · rw [(unhookInEdges_spec p.2.deps l (hwaits.paired.inn_nodup l)).2.1, hedges.inn]
    · rw [hlock, hnext]
      apply hg.imp
      rintro v t ⟨-, ht, hb⟩
      exact ⟨(htopMem t ht).2.1, hb⟩
    · rw [hred.inn_root, hedges.inn]
    · rw [hps, hinnl, hf.ps, hf.lock, hlock]
  by_cases hw : lockEffect (g.lock l) (g.lock rq) = .downgrade ∨ lockEffect (g.lock l) (g.lock rq) = .unlock
  · have hrel' : (flkRelation g l rq).1 = flkWakeup gD l false := by rw [hrel, if_pos hw]
    have hwoken := flkWakeup_woken gD l false hnd
    have hadj : (flkWakeup gD l false).deps.adj = dp.1.adj := by
      funext s
      rw [hwoken.adj s, hf.deps]
      simp
    have hinn : (flkWakeup gD l false).deps.inn = update dp.1.inn l [] := by rw [hwoken.inn, hf.deps]
    have hlock : (flkWakeup gD l false).lock = gB.lock := hwoken.lists.lock.trans hf.lock
    rw [hrel']
    refine ⟨?_, ?_, hgrown _ hlock (hwoken.lists.next.trans hf.next) hinn hwoken.ps⟩
    · rw [hlock]
      exact (hred.exchange hsink hadj hinn).same hedges
    · intro s hs
      rw [hwoken.state s, hlst s hs, hinnl]
      simp [wakes, hw]
  · have hrel' : (flkRelation g l rq).1 = dropInEdges gD l := by rw [hrel, if_neg hw]
    obtain ⟨h1, h2, h3, h4⟩ := dropInEdges_spec gD l
    have hadj : (dropInEdges gD l).deps.adj = dp.1.adj := by rw [h1, hf.deps]
    have hinn : (dropInEdges gD l).deps.inn = update dp.1.inn l [] := by rw [h2, hf.deps]
    have hlock : (dropInEdges gD l).lock = gB.lock := (dropInEdges_same gD l).lock.trans hf.lock
    rw [hrel']
    refine ⟨?_, ?_, hgrown _ hlock ((dropInEdges_same gD l).next.trans hf.next) hinn h4⟩
    · rw [hlock]
      exact (hred.exchange hsink hadj hinn).same hedges
    · intro s hs
      rw [h3, hlst s hs]
      simp [wakes, hw]

section Exchanging

variable {g' : Graph} {r' : LockDescriptor} {pieces : List LockDescriptor} {ids : List Nat} {wake : Bool}

lemma ExecInv.lock_sleeping (h : ExecInv g rq) (hx : Exchanged g g' l rq r' pieces ids) {s : Nat}
    (hs : s ∈ g.sleeping) : g'.lock s = g.lock s :=
  hx.lock_of s (h.sleep.lt s hs) (h.awake s hs).2

lemma Exchanged.blocks_piece (hi : ListInv g) (hl : l ∈ g.active) (hx : Exchanged g g' l rq r' pieces ids) {i : Nat}
    (him : i ∈ ids) {c : LockDescriptor} (hc : c.Ranged) (hb : blocks (g'.lock i) c = true) :
    blocks (g.lock l) c = true := by
  obtain ⟨hs, hr, hst, hen, -⟩ := hx.replaced.piece _ (hx.piece him)
  have hb' := hb
  rw [blocks_iff hr hc] at hb'
  obtain ⟨-, -, x, hxi, hxc⟩ := hb'
  apply blocks_of_has hr (hi.ranged l hl) hc hs.owner.symm _ hb _ hxc
  · intro ht
    rw [← hs.type]
    exact ht
  · unfold LockDescriptor.Has at hxi ⊢
    omega

section

variable (h : ExecInv g rq) (hi : ListInv g) (hp : Pending g rq) (hl : Mine g rq l)
  (hx : Exchanged g g' l rq r' pieces ids) (ht : Turned g g' l (topologyOf (g.lock rq).lType ids rq) wake)

include h hi hp hl hx ht

lemma ExecInv.exchange_waits :
    Waits g'.lock g'.sleeping (fun t => t ∈ g'.active ∨ (t = rq ∧ (g'.lock rq).lType ≠ .unlck)) g'.deps := by
  have htype : (g'.lock rq).lType = (g.lock rq).lType := by
    rw [hx.lock_rq]
    exact hx.replaced.same.type
  have hvn : (g'.lock rq).lVnode = (g.lock rq).lVnode := by
    rw [hx.lock_rq]
    exact hx.replaced.same.vnode
  refine ⟨ht.exchange.paired, ?_⟩
  intro s t hst
  rw [hx.sleeping]
  rcases ht.exchange.edges s t hst with ⟨hst, hne⟩ | ⟨hpath, htop, hb⟩
  · obtain ⟨hs, hE, hv, hb⟩ := h.waits.edge s t hst
    have hls := h.lock_sleeping hx hs
    rcases hE with hE | hE | ⟨rfl, hE⟩
    · rw [hls, h.lock_sleeping hx hE.1]
      exact ⟨hs, .inl hE, hv, hb⟩
    · rw [hls, hx.lock_old hi hp hE]
      exact ⟨hs, .inr (.inl ((hx.mem hi).mpr (.inr ⟨hE, hne⟩))), hv, hb⟩
    · rw [hls, hvn]
      refine ⟨hs, .inr (.inr ⟨rfl, by rw [htype]; exact hE⟩), hv, ?_⟩
      have hsr := h.sleep.ranged s hs
      have hb' := hb
      rw [blocks_iff hp.ranged hsr] at hb'
      obtain ⟨-, -, x, hxr, hxs⟩ := hb'
      have ho : (g'.lock t).owner = (g.lock t).owner := by
        rw [hx.lock_rq]
        exact hx.replaced.same.owner
      apply blocks_of_has hp.ranged (hx.pending hi hp).ranged hsr ho _ hb _ hxs
      · intro hw
        rw [htype]
        exact hw
      · rw [hx.lock_rq, hx.replaced.has]
        exact .inl hxr
  · have hs := h.waits.path_source hpath
    have hls := h.lock_sleeping hx hs
    have hv := h.waits.path_vnode hpath
    rw [hls] at hb ⊢
    rcases mem_topologyOf.mp htop with him | ⟨rfl, hu⟩
    · obtain ⟨hsame, -⟩ := hx.replaced.piece _ (hx.piece him)
      exact ⟨hs, .inr (.inl ((hx.mem hi).mpr (.inl him))), hsame.vnode.trans hv, hb⟩
    · refine ⟨hs, .inr (.inr ⟨rfl, by rw [htype]; exact hu⟩), ?_, hb⟩
      rw [hvn, ← hl.2.1]
      exact hv

lemma ExecInv.exchange_reaches : Reaches g'.lock g'.sleeping (· ∈ g'.active) g'.deps := by
  intro s hs t hst hv hb
  rw [hx.sleeping] at hs hst
  have hls := h.lock_sleeping hx hs
  rcases hst with hst | hst
  · rw [hls, h.lock_sleeping hx hst.1] at hv hb
    apply ht.exchange.keeps
    · rintro rfl
      exact (h.awake t hst.1).1 hl.1
    · exact h.reaches s hs t (.inl hst) hv hb
  rcases (hx.mem hi).mp hst with him | ⟨hta, htl⟩
  · have hb0 := hb
    rw [hls] at hv hb
    have hbl := hx.blocks_piece hi hl.1 him (h.sleep.ranged s hs) hb
    obtain ⟨hsame, -⟩ := hx.replaced.piece _ (hx.piece him)
    have hpath := h.reaches s hs l (.inr hl.1) (hsame.vnode.symm.trans hv) hbl
    exact ht.exchange.gains s hpath t (mem_topologyOf.mpr (.inl him)) hb0
  · rw [hls, hx.lock_old hi hp hta] at hv hb
    exact ht.exchange.keeps s t htl (h.reaches s hs t (.inr hta) hv hb)

end

lemma ExecInv.exchange_granted (h : ExecInv g rq) (hl : l ∈ g.active) (hx : Exchanged g g' l rq r' pieces ids) {top : List Nat}
    (ht : Turned g g' l top wake)
    (hwake : wake = false → ∀ s ∈ g.sleeping, l ∈ g.deps.adj s → ∃ t ∈ top, blocks (g'.lock t) (g'.lock s) = true) :
    GrantedOk g' := by
  intro s hs
  rw [hx.sleeping] at hs
  have hg := h.granted s hs
  rw [ht.state s (h.sleep.lt s hs)]
  by_cases hsl : l ∈ g.deps.adj s
  · have hmem : s ∈ g.deps.inn l := h.waits.paired.mem.mp hsl
    have hng : (g.lState s).granted ≠ true := by
      rw [Ne, hg]
      exact ne_nil_of_mem hsl
    cases wake with
    | true =>
      by_cases hadj : g'.deps.adj s = []
      · simp [hmem, hadj]
      · simp only [hadj, and_false, if_false]
        exact iff_of_false hng fun hf => hf
    | false =>
      obtain ⟨t, htt, hb⟩ := hwake rfl s hs hsl
      have hpath := ht.exchange.gains s (Relation.TransGen.single hsl) t htt hb
      exact iff_of_false hng hpath.head_ne_nil
  · have hmem : s ∉ g.deps.inn l := fun hm => hsl (h.waits.paired.mem.mpr hm)
    simp only [hmem, false_and, and_false, if_false]
    rw [hg]
    constructor
    · intro hnil
      rw [eq_nil_iff_forall_not_mem]
      intro t htm
      rcases ht.exchange.edges s t htm with ⟨hm, -⟩ | ⟨hpath, -⟩
      · rw [hnil] at hm
        exact not_mem_nil hm
      · exact hpath.head_ne_nil hnil
    · intro hnil
      rw [eq_nil_iff_forall_not_mem]
      intro t htm
      have hne : t ≠ l := by
        rintro rfl
        exact hsl htm
      have hm := ht.exchange.old s t htm hne
      rw [hnil] at hm
      exact not_mem_nil hm

lemma not_blocks_of_owner {l1 l2 : LockDescriptor} (ho : l1.owner = l2.owner) : blocks l1 l2 = false := by
  have hs : sameOwner l1 l2 = true := sameOwner_iff.mpr ho
  simp [blocks, hs]

section

variable (h : ExecInv g rq) (hi : ListInv g) (hp : Pending g rq)

include h hi hp

lemma ExecInv.exchange_clean (hl : l ∈ g.active)
    (hx : Exchanged g g' l rq r' pieces ids) : Clean g'.lock (· ∈ g'.active) := by
  have hpiece : ∀ i b, i ∈ ids → b ∈ g.active → (g'.lock i).lVnode = (g'.lock b).lVnode →
      blocks (g'.lock i) (g'.lock b) = false := by
    intro i b him hb hv
    obtain ⟨hsame, -⟩ := hx.replaced.piece _ (hx.piece him)
    rw [hx.lock_old hi hp hb] at hv ⊢
    rw [← Bool.not_eq_true]
    intro hbl
    have hbl' := hx.blocks_piece hi hl him (hi.ranged b hb) hbl
    rw [h.clean l b hl hb (hsame.vnode.symm.trans hv)] at hbl'
    exact Bool.false_ne_true hbl'
  intro a b ha hb hv
  rcases (hx.mem hi).mp ha with ha | ha
  · rcases (hx.mem hi).mp hb with hb | hb
    · have h1 := (hx.replaced.piece _ (hx.piece ha)).1
      have h2 := (hx.replaced.piece _ (hx.piece hb)).1
      exact not_blocks_of_owner (h1.owner.trans h2.owner.symm)
    · exact hpiece a b ha hb.1 hv
  · rcases (hx.mem hi).mp hb with hb | hb
    · rw [blocks_comm]
      exact hpiece b a hb ha.1 hv.symm
    · rw [hx.lock_old hi hp ha.1, hx.lock_old hi hp hb.1] at hv ⊢
      exact h.clean a b ha.1 hb.1 hv

lemma ExecInv.exchange_rqClean (hl : Mine g rq l)
    (hx : Exchanged g g' l rq r' pieces ids) (hu : (g.lock rq).lType ≠ .unlck) {a : Nat} (ha : a ∈ g'.active)
    (hv : (g'.lock a).lVnode = (g'.lock rq).lVnode) : blocks (g'.lock a) (g'.lock rq) = false := by
  have hsame := hx.replaced.same
  rw [hx.lock_rq] at hv ⊢
  rcases (hx.mem hi).mp ha with him | ⟨haa, hal⟩
  · have hs := (hx.replaced.piece _ (hx.piece him)).1
    exact not_blocks_of_owner (hs.owner.trans (hl.2.2.trans hsame.owner.symm))
  rw [hx.lock_old hi hp haa] at hv ⊢
  have har := hi.ranged a haa
  rw [← Bool.not_eq_true]
  intro hb
  have hb' := hb
  rw [blocks_iff har hx.replaced.ranged] at hb'
  obtain ⟨ho, ht, x, hxa, hxr⟩ := hb'
  rw [hx.replaced.has] at hxr
  rcases hxr with hxr | ⟨hlt, hxl⟩
  · have hbr : blocks (g.lock a) (g.lock rq) = true := by
      rw [blocks_iff har hp.ranged]
      rw [hsame.owner] at ho
      rw [hsame.type] at ht
      exact ⟨ho, ht, x, hxa, hxr⟩
    rw [h.rqClean hu a haa (hv.trans hsame.vnode)] at hbr
    exact Bool.false_ne_true hbr
  have hbr : blocks (g.lock a) (g.lock l) = true := by
    rw [blocks_iff har (hi.ranged l hl.1)]
    rw [hsame.owner, ← hl.2.2] at ho
    rw [hsame.type, ← hlt] at ht
    exact ⟨ho, ht, x, hxa, hxl⟩
  rw [h.clean a l haa hl.1 (hv.trans (hsame.vnode.trans hl.2.1.symm))] at hbr
  exact Bool.false_ne_true hbr

lemma ExecInv.exchange_rqReaches (hl : Mine g rq l)
    (hx : Exchanged g g' l rq r' pieces ids)
    (ht : Turned g g' l (topologyOf (g.lock rq).lType ids rq) wake) (hu : (g.lock rq).lType ≠ .unlck) {s : Nat}
    (hs : s ∈ g.sleeping) (hv : (g'.lock rq).lVnode = (g'.lock s).lVnode)
    (hb : blocks (g'.lock rq) (g'.lock s) = true) :
    Path g'.deps s rq ∨ ∃ a, Mine g' rq a ∧ blocks (g'.lock a) (g'.lock s) = true ∧
      ∃ x, (g'.lock a).Has x ∧ (g'.lock rq).Has x ∧ (g'.lock s).Has x := by
  have hsame := hx.replaced.same
  have hls := h.lock_sleeping hx hs
  have hsr := h.sleep.ranged s hs
  have hrql : rq ≠ l := by
    rintro rfl
    exact hp.fresh hl.1
  have hvs : (g.lock rq).lVnode = (g.lock s).lVnode := by
    rw [hx.lock_rq, hsame.vnode, hls] at hv
    exact hv
  -- a lock that waits for `l` gets a path to the request
  have hgain : blocks (g.lock l) (g.lock s) = true → Path g'.deps s rq := by
    intro hbl
    have hpath := h.reaches s hs l (.inr hl.1) (hl.2.1.trans hvs) hbl
    exact ht.exchange.gains s hpath rq (mem_topologyOf.mpr (.inr ⟨rfl, hu⟩)) hb
  have hb' := hb
  rw [hx.lock_rq, hls, blocks_iff hx.replaced.ranged hsr, hsame.owner, hsame.type] at hb'
  obtain ⟨ho, hty, x, hxr, hxs⟩ := hb'
  rw [hx.replaced.has] at hxr
  rcases hxr with hxr | ⟨hlt, hxl⟩
  · have hbr : blocks (g.lock rq) (g.lock s) = true := by
      rw [blocks_iff hp.ranged hsr]
      exact ⟨ho, hty, x, hxr, hxs⟩
    rcases h.rqReaches hu s hs hvs hbr with hpath | ⟨a, ham, hab, y, hya, hyr, hys⟩
    · exact .inl (ht.exchange.keeps s rq hrql hpath)
    by_cases hal : a = l
    · subst hal
      exact .inl (hgain hab)
    right
    have hla := hx.lock_old hi hp ham.1
    refine ⟨a, ⟨(hx.mem hi).mpr (.inr ⟨ham.1, hal⟩), ?_, ?_⟩, ?_, y, ?_, ?_, ?_⟩
    · rw [hla, hx.lock_rq, hsame.vnode]
      exact ham.2.1
    · rw [hla, hx.lock_rq, hsame.owner]
      exact ham.2.2
    · rw [hla, hls]
      exact hab
    · rw [hla]
      exact hya
    · rw [hx.lock_rq, hx.replaced.has]
      exact .inl hyr
    · rw [hls]
      exact hys
  · apply Or.inl
    apply hgain
    rw [blocks_iff (hi.ranged l hl.1) hsr, hl.2.2, hlt]
    exact ⟨ho, hty, x, hxl, hxs⟩

lemma ExecInv.exchange (hl : Mine g rq l)
    (hx : Exchanged g g' l rq r' pieces ids)
    (ht : Turned g g' l (topologyOf (g.lock rq).lType ids rq) wake)
    (hwake : wake = false → ∀ s ∈ g.sleeping, l ∈ g.deps.adj s →
      ∃ t ∈ topologyOf (g.lock rq).lType ids rq, blocks (g'.lock t) (g'.lock s) = true) : ExecInv g' rq := by
  have htype : (g'.lock rq).lType = (g.lock rq).lType := by
    rw [hx.lock_rq]
    exact hx.replaced.same.type
  have hls : ∀ s ∈ g.sleeping, g'.lock s = g.lock s := fun s hs => h.lock_sleeping hx hs
  refine ⟨⟨?_, ?_, ?_, ?_⟩, ?_, h.exchange_waits hi hp hl hx ht, h.exchange_reaches hi hp hl hx ht,
    h.exchange_granted hl.1 hx ht hwake, h.exchange_clean hi hp hl.1 hx, ?_, ?_⟩
  · rw [hx.sleeping]
    exact fun s hs => lt_of_lt_of_le (h.sleep.lt s hs) hx.next_le
  · rw [hx.sleeping]
    intro s hs
    rw [hls s hs]
    exact h.sleep.ranged s hs
  · rw [hx.sleeping]
    intro s hs
    rw [hls s hs]
    exact h.sleep.locked s hs
  · rw [hx.sleeping]
    apply h.sleep.order.imp_of_mem
    intro a b ha hb hab
    rw [hls a ha, hls b hb]
    exact hab
  · rw [hx.sleeping]
    intro s hs
    refine ⟨fun hm => ?_, (h.awake s hs).2⟩
    rcases (hx.mem hi).mp hm with hm | hm
    · have h1 := (hx.fresh s hm).1
      have h2 := h.sleep.lt s hs
      omega
    · exact (h.awake s hs).1 hm.1
  · intro hu a ha hv
    rw [htype] at hu
    exact h.exchange_rqClean hi hp hl hx hu ha hv
  · intro hu s hs hv hb
    rw [htype] at hu
    rw [hx.sleeping] at hs
    exact h.exchange_rqReaches hi hp hl hx ht hu hs hv hb

end

end Exchanging

lemma ExecInv.still_blocked {g' : Graph} {r' : LockDescriptor} {pieces : List LockDescriptor} {ids : List Nat}
    (h : ExecInv g rq) (hi : ListInv g) (hl : Mine g rq l) (hx : Exchanged g g' l rq r' pieces ids)
    (hw : wakes (lockEffect (g.lock l) (g.lock rq)) = false) {s : Nat} (hs : s ∈ g.sleeping)
    (hsl : l ∈ g.deps.adj s) :
    ∃ t ∈ topologyOf (g.lock rq).lType ids rq, blocks (g'.lock t) (g'.lock s) = true := by
  have hsr := h.sleep.ranged s hs
  have hlr := hi.ranged l hl.1
  have hb := (h.waits.edge s l hsl).2.2.2
  have hb' := hb
  rw [blocks_iff hlr hsr] at hb'
  obtain ⟨-, -, x, hxl, hxs⟩ := hb'
  rw [h.lock_sleeping hx hs]
  by_cases hxr : r'.Has x
  · have hne : (g.lock rq).lType ≠ .unlck := by
      intro hu
      have he : lockEffect (g.lock l) (g.lock rq) = .unlock := lockEffect_unlock.mpr hu
      simp [wakes, he] at hw
    have hstrong : (g.lock l).lType = .wrlck → (g'.lock rq).lType = .wrlck := by
      intro hlw
      rw [hx.lock_rq, hx.replaced.same.type]
      cases hrt : (g.lock rq).lType with
      | rdlck =>
        have he : lockEffect (g.lock l) (g.lock rq) = .downgrade := by simp [lockEffect, hrt, hlw]
        simp [wakes, he] at hw
      | wrlck => rfl
      | unlck => exact absurd hrt hne
    refine ⟨rq, mem_topologyOf.mpr (.inr ⟨rfl, hne⟩), ?_⟩
    apply blocks_of_has hlr _ hsr _ hstrong hb _ hxs
    · rw [hx.lock_rq]
      exact hx.replaced.ranged
    · rw [hx.lock_rq, hx.replaced.same.owner]
      exact hl.2.2.symm
    · rw [hx.lock_rq]
      exact hxr
  · obtain ⟨p, hpm, hpx⟩ := hx.replaced.cover x hxl hxr
    obtain ⟨hsame, hpr, -⟩ := hx.replaced.piece p hpm
    rw [← hx.map_lock, mem_map] at hpm
    obtain ⟨i, him, rfl⟩ := hpm
    refine ⟨i, mem_topologyOf.mpr (.inl him), ?_⟩
    exact blocks_of_has hlr hpr hsr hsame.owner (fun hw => by rw [hsame.type]; exact hw) hb hpx hxs

lemma ExecInv.turned (h : ExecInv g rq) (hi : ListInv g) (hp : Pending g rq) (hl : Mine g rq l) :
    (flkRelation g l rq).1 = g ∨ ∃ r' pieces ids wake, Exchanged g (flkRelation g l rq).1 l rq r' pieces ids ∧
      Turned g (flkRelation g l rq).1 l (topologyOf (g.lock rq).lType ids rq) wake ∧
      (wake = false → ∀ s ∈ g.sleeping, l ∈ g.deps.adj s → ∃ t ∈ topologyOf (g.lock rq).lType ids rq,
        blocks ((flkRelation g l rq).1.lock t) ((flkRelation g l rq).1.lock s) = true) := by
  have hm := relationCases_meets (hi.ranged l hl.1) hp.ranged (hi.locked l hl.1)
  cases hc : relationCases (g.lock l) (g.lock rq) with
  | apart stop =>
    left
    simp only [flkRelation, hc]
  | release =>
    rw [hc] at hm
    obtain ⟨hx, -⟩ := flkRelation_release hi hp hl.1 hc hm.2
    have hrel : (flkRelation g l rq).1 = flkWakeup (flkDeleteActiveLock g l) l true := by simp only [flkRelation, hc]
    have hw := flkWakeup_woken (flkDeleteActiveLock g l) l true (h.waits.paired.inn_nodup l)
    have hsink : g.deps.adj l = [] := h.waits.sink (fun hs => (h.awake l hs).1 hl.1)
    have htop : topologyOf (g.lock rq).lType [] rq = [] := by simp [topologyOf, hm.1]
    have ht : Turned g (flkRelation g l rq).1 l (topologyOf (g.lock rq).lType [] rq) true := by
      rw [htop, hrel]
      refine ⟨?_, ?_, ?_⟩
      · exact Woken.exchange (g := flkDeleteActiveLock g l) h.waits.paired hw hsink
      · intro s _
        rw [hw.state s]
        simp only [true_and]
        rfl
      · refine ⟨g.deps, g.deps, g.ps, g.ps, rfl, rfl, Grown.start (SameEdges.refl _), rfl, hw.inn, ?_⟩
        rw [hw.ps, hw.lists.lock]
        rfl
    exact .inr ⟨_, _, _, _, hx, ht, by simp⟩
  | recompute r' pieces =>
    rw [hc] at hm
    obtain ⟨hx, -⟩ := flkRelation_recompute hi hp hl.1 hc hm
    have ht := flkRelation_turned h hi hp hl.1 hc
    exact .inr ⟨_, _, _, _, hx, ht, fun hw s hs hsl => h.still_blocked hi hl hx hw hs hsl⟩

lemma ExecInv.turn (h : ExecInv g rq) (hi : ListInv g) (hp : Pending g rq) (hl : Mine g rq l) :
    ExecInv (flkRelation g l rq).1 rq := by
  rcases h.turned hi hp hl with heq | ⟨r', pieces, ids, wake, hx, ht, hwake⟩
  · rw [heq]
    exact h
  · exact h.exchange hi hp hl hx ht hwake

end Turn

end Solaris.Flock
