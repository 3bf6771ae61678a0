import Solaris.Flock.Deadlock

/-!
# A refused lock leaves no trace

A request that `flk_process_request` refuses with `EAGAIN` or `EDEADLK` has been in no list. The edges it had
by then, those of its dependents among them, are taken away by whoever finds the deadlock.
-/

namespace Solaris.Flock

open Lib List Function

variable {g g' : Graph} {rq l : Nat} {vis : List Nat} {a : AddEdges} {e : Errno} {m : Owner → Owner → Nat}

/-- The lists, the edges and the process graph are as they were, and so is every lock. -/
structure Untraced (g g' : Graph) : Prop where
  active : g'.active = g.active
  sleeping : g'.sleeping = g.sleeping
  vFilocks : g'.vFilocks = g.vFilocks
  adj : g'.deps.adj = g.deps.adj
  inn : g'.deps.inn = g.deps.inn
  vertex : g'.ps.pg.vertex = g.ps.pg.vertex
  lock : g'.lock = g.lock
  lState : g'.lState = g.lState

lemma Untraced.refl (g : Graph) : Untraced g g := ⟨rfl, rfl, rfl, rfl, rfl, rfl, rfl, rfl⟩

lemma Arrived.unhooked (h : Arrived g rq) : Unhooked g.deps rq := by
  refine ⟨h.inv.waits.paired, h.inv.waits.sink h.asleep, ?_⟩
  rw [eq_nil_iff_forall_not_mem]
  intro s hs
  rw [← h.inv.waits.paired.mem] at hs
  rcases (h.inv.waits.edge s rq hs).2.1 with ht | ht
  · exact h.asleep ht.1
  · exact h.pending.fresh ht

lemma Grown.restrict {lock : Nat → LockDescriptor} {upd : Bool} {A B : Nat → Nat → Prop} {d0 d : Deps}
    {ps0 ps : ProcState} (h : Grown lock upd A d0 ps0 d ps) (hB : ∀ s t, t ∈ d.adj s → t ∈ d0.adj s ∨ B s t) :
    Grown lock upd B d0 ps0 d ps := by
  induction h with
  | start hs => exact Grown.start hs
  | @add d d' ps v t hg hA hn hs ih =>
    have hmem : ∀ s x, x ∈ d'.adj s ↔ (s = v ∧ x = t) ∨ x ∈ d.adj s := by
      intro s x
      rw [hs.adj]
      exact mem_addEdge_adj
    refine Grown.add (ih fun s x hx => hB s x ((hmem s x).mpr (.inr hx))) ?_ hn hs
    rcases hB v t ((hmem v t).mpr (.inl ⟨rfl, rfl⟩)) with hold | hnew
    · exact absurd (hg.adj_mono hold) hn
    · exact hnew

/-- Edges of the request to locks of `vis` have been added to what was there. -/
structure Laid (g : Graph) (rq : Nat) (vis : List Nat) (a : AddEdges) : Prop where
  grown : Grown g.lock false (fun s t => s = rq ∧ t ∈ vis ∧ blocks (g.lock t) (g.lock rq) = true) g.deps g.ps
    a.deps a.ps
  alive : a.dead = false

structure Dropped (g : Graph) (a : AddEdges) : Prop where
  adj : a.deps.adj = g.deps.adj
  inn : a.deps.inn = g.deps.inn
  ps : a.ps = g.ps

lemma Laid.widen {vis' : List Nat} (h : Laid g rq vis a) (hvis : ∀ t ∈ vis, t ∈ vis') : Laid g rq vis' a :=
  ⟨h.grown.imp fun _ _ hst => ⟨hst.1, hvis _ hst.2.1, hst.2.2⟩, h.alive⟩

lemma Laid.covered (h : Laid g rq vis a) (c : Option Nat) : Laid g rq vis { a with coveredBy := c } :=
  ⟨h.grown, h.alive⟩

lemma addEdgeTo_laid (hg : Unhooked g.deps rq) (checkCycle : Bool) (h : Laid g rq vis a) (hl : l ∉ vis)
    (hb : blocks (g.lock l) (g.lock rq) = true) :
    ((addEdgeTo g.lock g.next rq checkCycle a l).dead = true ∧ Dropped g (addEdgeTo g.lock g.next rq checkCycle a l)) ∨
      Laid g rq (vis ++ [l]) (addEdgeTo g.lock g.next rq checkCycle a l) := by
  have hgrown := h.grown.imp fun s t (hst : s = rq ∧ t ∈ vis ∧ blocks (g.lock t) (g.lock rq) = true) =>
    (⟨hst.1, mem_append_left [l] hst.2.1, hst.2.2⟩ :
      s = rq ∧ t ∈ vis ++ [l] ∧ blocks (g.lock t) (g.lock rq) = true)
  have hnew : l ∉ a.deps.adj rq := by
    intro hm
    rcases h.grown.adj_new hm with hm | hm
    · rw [hg.adj] at hm
      exact not_mem_nil hm
    · exact hl hm.2.1
  have hadd : Grown g.lock false (fun s t => s = rq ∧ t ∈ vis ++ [l] ∧ blocks (g.lock t) (g.lock rq) = true) g.deps g.ps
      (a.deps.addEdge rq l) a.ps :=
    Grown.add hgrown ⟨rfl, by simp, hb⟩ hnew (SameEdges.refl _)
  unfold addEdgeTo flkAddEdge
  by_cases hc : l ∈ a.color
  · simp only [hc, if_true]
    exact .inr ⟨hgrown, rfl⟩
  cases checkCycle with
  | false =>
    simp only [hc, if_false, Bool.false_eq_true, Bool.not_false, if_true]
    exact .inr ⟨hadd, rfl⟩
  | true =>
    simp only [hc, if_false, Bool.false_eq_true, Bool.not_true]
    split
    · refine .inl ⟨rfl, ?_⟩
      have hself : rq ∉ (a.deps.addEdge rq l).adj rq := by
        intro hm
        rcases hadd.adj_new hm with hm | hm
        · rw [hg.adj] at hm
          exact not_mem_nil hm
        · rw [not_blocks_of_owner rfl] at hm
          exact Bool.noConfusion hm.2.2
      -- nothing has come in that would have to be taken away too
      have hinn : ((a.deps.addEdge rq l).removeAdjEdges rq).inn rq = [] := by
        have hpaired := hadd.paired hg.paired
        rw [(removeAdjEdges_spec _ rq (hpaired.adj_nodup rq)).2, if_neg hself, hadd.inn_eq, hg.inn]
        rintro v ⟨-, -, hbv⟩
        rw [not_blocks_of_owner rfl] at hbv
        exact Bool.noConfusion hbv
      have hremoved := hadd.removed (fun s t hst => .inl hst.1) hself hg
      have hsame : ((a.deps.addEdge rq l).removeAdjEdges rq).removeInEdges rq =
          (a.deps.addEdge rq l).removeAdjEdges rq := by
        unfold Deps.removeInEdges
        rw [hinn]
        rfl
      rw [hsame] at hremoved
      exact ⟨hremoved.1, hremoved.2, h.grown.ps_eq⟩
    · exact .inr ⟨hadd, rfl⟩

lemma Laid.next (h : Laid g rq vis a) (l : Nat) : Laid g rq (vis ++ [l]) a :=
  h.widen fun _ ht => mem_append_left _ ht

lemma addSleepEdges_laid (hg : Unhooked g.deps rq) (ls : List Nat) (hnd : (vis ++ ls).Nodup) (h : Laid g rq vis a) :
    ((addSleepEdges g.lock g.next rq ls a).dead = true ∧ Dropped g (addSleepEdges g.lock g.next rq ls a)) ∨
      Laid g rq (vis ++ ls) (addSleepEdges g.lock g.next rq ls a) := by
  induction ls generalizing vis a with
  | nil => exact .inr (h.widen fun _ ht => mem_append_left _ ht)
  | cons l ls ih =>
    have hl : l ∉ vis := fun hm => (nodup_append.mp hnd).2.2 l hm l (by simp) rfl
    have hsplit : vis ++ l :: ls = (vis ++ [l]) ++ ls := by simp
    rw [hsplit] at hnd ⊢
    have hedge : ∀ {a' : AddEdges}, Laid g rq vis a' → blocks (g.lock l) (g.lock rq) = true →
        ∀ c a1, a1 = addEdgeTo g.lock g.next rq c a' l →
        ((if a1.dead then a1 else addSleepEdges g.lock g.next rq ls a1).dead = true ∧
            Dropped g (if a1.dead then a1 else addSleepEdges g.lock g.next rq ls a1)) ∨
          Laid g rq ((vis ++ [l]) ++ ls) (if a1.dead then a1 else addSleepEdges g.lock g.next rq ls a1) := by
      rintro a' ha' hb c a1 rfl
      rcases addEdgeTo_laid hg c ha' hl hb with ⟨hd, hdrop⟩ | hlaid
      · rw [if_pos hd]
        exact .inl ⟨hd, hdrop⟩
      · rw [if_neg (by rw [hlaid.alive]; simp)]
        exact ih hnd hlaid
    unfold addSleepEdges
    split_ifs with hb
    · dsimp only
      split
      · exact .inr ⟨(h.widen fun t ht => by simp [ht]).grown, h.alive⟩
      by_cases hc : (covers (g.lock l) (g.lock rq) && (g.lock l).lType == .wrlck) = true
      · rw [if_pos hc]
        split
        · exact ih hnd ((h.covered _).next l)
        · exact hedge (h.covered _) hb _ _ rfl
      · rw [if_neg hc]
        split
        · exact ih hnd (h.next l)
        · exact hedge h hb _ _ rfl
    · exact ih hnd (h.next l)

lemma addActiveEdges_laid (hg : Unhooked g.deps rq) (ls : List Nat) (hnd : (vis ++ ls).Nodup) (h : Laid g rq vis a) :
    ((addActiveEdges g.lock g.next rq ls a).dead = true ∧ Dropped g (addActiveEdges g.lock g.next rq ls a)) ∨
      Laid g rq (vis ++ ls) (addActiveEdges g.lock g.next rq ls a) := by
  induction ls generalizing vis a with
  | nil => exact .inr (h.widen fun _ ht => mem_append_left _ ht)
  | cons l ls ih =>
    have hl : l ∉ vis := fun hm => (nodup_append.mp hnd).2.2 l hm l (by simp) rfl
    have hsplit : vis ++ l :: ls = (vis ++ [l]) ++ ls := by simp
    rw [hsplit] at hnd ⊢
    unfold addActiveEdges
    split_ifs with hb
    · rw [Bool.and_eq_true] at hb
      rcases addEdgeTo_laid hg true h hl hb.1 with ⟨hd, hdrop⟩ | hlaid
      · rw [if_pos hd]
        exact .inl ⟨hd, hdrop⟩
      · rw [if_neg (by rw [hlaid.alive]; simp)]
        exact ih hnd hlaid
    · exact ih hnd (h.next l)

lemma Arrived.nodup_vp (h : Arrived g rq) (vp : Nat) : (g.sleepVp vp ++ g.activeVp vp).Nodup := by
  have hord := h.inv.sleep.sleepVp_order vp
  refine nodup_append.mpr ⟨hord.imp Nat.ne_of_gt, ?_, ?_⟩
  · rw [h.inv.list.ok.activeVp]
    exact h.inv.list.ok.nodup.filter _
  · rintro s hs t ht rfl
    exact h.inv.awake s (h.inv.sleep.mem_sleepVp.mp hs).1 (h.inv.list.ok.mem_activeVp.mp ht).1

lemma Arrived.blockedEdges_laid (h : Arrived g rq) (blockedByActive : Bool) :
    ((blockedEdges g rq blockedByActive).dead = true ∧ Dropped g (blockedEdges g rq blockedByActive)) ∨
      ((blockedEdges g rq blockedByActive).dead = false ∧
        RequestEdges g rq (blockedEdges g rq blockedByActive).deps ∧
        (blockedEdges g rq blockedByActive).ps = g.ps) := by
  have hg := h.unhooked
  have hnd := h.nodup_vp (g.lock rq).lVnode
  have hstart : Laid g rq [] ⟨g.deps, g.ps, [], none, false, false⟩ := ⟨Grown.start (SameEdges.refl _), rfl⟩
  have hdone : ∀ {vis : List Nat} {a : AddEdges}, Laid g rq vis a →
      a.dead = false ∧ RequestEdges g rq a.deps ∧ a.ps = g.ps := by
    intro vis a ha
    refine ⟨ha.alive, ?_, ha.grown.ps_eq⟩
    have hgrown := ha.grown.imp fun s t (hst : s = rq ∧ t ∈ vis ∧ blocks (g.lock t) (g.lock rq) = true) =>
      (⟨.inl hst.1, by rw [hst.1]; exact hst.2.2⟩ : (s = rq ∨ t = rq) ∧ blocks (g.lock t) (g.lock s) = true)
    rw [ha.grown.ps_eq] at hgrown
    exact hgrown
  unfold blockedEdges
  dsimp only
  have hsleep := addSleepEdges_laid hg (g.sleepVp (g.lock rq).lVnode) (nodup_append.mp hnd).1 hstart
  rcases hsleep with ⟨hd, hdrop⟩ | hlaid
  · rw [if_neg (by simp [hd])]
    exact .inl ⟨hd, hdrop⟩
  · split
    · rcases addActiveEdges_laid hg (g.activeVp (g.lock rq).lVnode) hnd hlaid with hdead | hlaid
      · exact .inl hdead
      · exact .inr (hdone hlaid)
    · exact .inr (hdone hlaid)

lemma flkWaitBegin_outcome (g : Graph) (rq : Nat) :
    (flkWaitBegin g rq).2 = .asleep ∨ (flkWaitBegin g rq).2 = .failed .enolck := by
  unfold flkWaitBegin
  dsimp only
  split
  · exact .inr rfl
  · exact .inl rfl

lemma untraced_deadlock (hpg : Counts m (fun _ => False) g.ps.pg.vertex) (hg : Unhooked g.deps rq) {d : Deps}
    (h : RequestEdges g rq d) (hdead : (flkCheckDeadlock { g with deps := d } rq).1 = true) :
    Untraced g (flkCheckDeadlock { g with deps := d } rq).2 := by
  obtain ⟨h1, h2, h3⟩ := flkCheckDeadlock_undone hpg hg h hdead
  have heq := flkCheckDeadlock_dead hdead
  refine ⟨?_, ?_, ?_, h1, h2, h3, ?_, ?_⟩
  all_goals rw [heq]

lemma Arrived.processBlocked_untraced (h : Arrived g rq) (hpg : Counts m (fun _ => False) g.ps.pg.vertex)
    (blockedByActive : Bool) (hout : (processBlocked g rq blockedByActive).2 = .failed e) (he : e ≠ .enolck) :
    Untraced g (processBlocked g rq blockedByActive).1 := by
  unfold processBlocked at hout ⊢
  dsimp only at hout ⊢
  split
  · exact Untraced.refl g
  · next hno =>
    rw [if_neg hno] at hout
    rcases h.blockedEdges_laid blockedByActive with ⟨hd, hdrop⟩ | ⟨hd, hedges, hps⟩
    · rw [if_pos hd]
      exact ⟨rfl, rfl, rfl, hdrop.adj, hdrop.inn, by rw [hdrop.ps], rfl, rfl⟩
    generalize blockedEdges g rq blockedByActive = a at hd hedges hps hout ⊢
    obtain ⟨d, ps, color, coveredBy, second, dead⟩ := a
    subst hd hps
    rw [if_neg (by simp)] at hout ⊢
    by_cases hnil : d.adj rq = []
    · rw [if_pos hnil] at hout
      cases hout
    rw [if_neg hnil] at hout ⊢
    cases hc : (flkCheckDeadlock { g with deps := d } rq).1 with
    | true =>
      exact untraced_deadlock hpg h.unhooked hedges hc
    | false =>
      rw [hc, if_neg (by simp)] at hout
      rcases flkWaitBegin_outcome (flkCheckDeadlock { g with deps := d } rq).2 rq with hw | hw
      · rw [hw] at hout
        cases hout
      · rw [hw, Outcome.failed.injEq] at hout
        exact absurd hout.symm he

lemma Arrived.processRequest_untraced (h : Arrived g rq) (hpg : Counts m (fun _ => False) g.ps.pg.vertex)
    (hout : (flkProcessRequest g rq).2 = .failed e) (he : e ≠ .enolck) : Untraced g (flkProcessRequest g rq).1 := by
  unfold flkProcessRequest at hout ⊢
  dsimp only at hout ⊢
  split
  · next hs =>
    rw [hs] at hout
    split
    · next hw =>
      rw [if_pos hw] at hout
      exact h.processBlocked_untraced hpg true hout he
    · exact Untraced.refl g
  · next hs =>
    rw [hs] at hout
    cases hout
  · next hs =>
    rw [hs] at hout
    dsimp only at hout
    split
    · next hany =>
      rw [if_pos hany] at hout
      exact h.processBlocked_untraced hpg false hout he
    · next hany =>
      rw [if_neg hany] at hout
      obtain ⟨hl, -, hgrown⟩ := h.linkRoots_spec
      generalize linkRoots g.lock g.next rq (processRoots g (g.lock rq).lVnode) (g.deps, g.ps) = dp at hl hgrown hout ⊢
      obtain ⟨d, ps⟩ := dp
      obtain rfl := hgrown.ps_eq
      have hedges : RequestEdges g rq d := by
        refine hgrown.restrict ?_
        intro s t hst
        rcases hl.new s t hst with hst | ⟨rfl, -, -, -, hb⟩
        · exact .inl hst
        · exact .inr ⟨.inr rfl, hb⟩
      by_cases hnil : d.inn rq = []
      · rw [if_pos hnil] at hout
        cases hout
      rw [if_neg hnil] at hout ⊢
      cases hc : (flkCheckDeadlock { g with deps := d } rq).1 with
      | true =>
        exact untraced_deadlock hpg h.unhooked hedges hc
      | false =>
        rw [hc, if_neg (by simp)] at hout
        cases hout

/-- Nothing that another caller of `reclock` sees has changed: the lists, the edges and the locks of every graph,
and the vertices, edges and counts of the process graph. -/
structure NoTrace (sys sys' : System) : Prop where
  active : ∀ i, (sys'.graph i).active = (sys.graph i).active
  sleeping : ∀ i, (sys'.graph i).sleeping = (sys.graph i).sleeping
  vFilocks : ∀ i, (sys'.graph i).vFilocks = (sys.graph i).vFilocks
  adj : ∀ i, (sys'.graph i).deps.adj = (sys.graph i).deps.adj
  inn : ∀ i, (sys'.graph i).deps.inn = (sys.graph i).deps.inn
  lock : ∀ i, ∀ l < (sys.graph i).next, (sys'.graph i).lock l = (sys.graph i).lock l
  lState : ∀ i, ∀ l < (sys.graph i).next, (sys'.graph i).lState l = (sys.graph i).lState l
  vertex : sys'.pgraph.vertex = sys.pgraph.vertex

lemma reclockLock_untraced (h : Inv g) (hpg : Counts m (fun _ => False) g.ps.pg.vertex) {r : Request}
    (hr : r.desc.Ranged) (hout : (reclockLock g r).2 = .failed e) (he : e ≠ .enolck) :
    Untraced (flkGetLock g r.desc r.state none).2 (reclockLock g r).1 := by
  have harr := h.arrive hr r.state none
  have hend : ∀ o : Graph × Outcome, (reclockEnd r.ioLock g.next o).2 = .failed e → reclockEnd r.ioLock g.next o = o := by
    intro o ho
    refine reclockEnd_of_ne fun hdone => ?_
    unfold reclockEnd at ho
    split at ho
    · rw [hdone] at ho
      cases ho
    · rw [hdone] at ho
      cases ho
  have heq : reclockLock g r = flkProcessRequest (flkGetLock g r.desc r.state none).2 g.next := hend _ hout
  rw [heq] at hout ⊢
  exact harr.processRequest_untraced hpg hout he

/-- In every reachable state a request that `reclock` refuses with `EAGAIN` or `EDEADLK` leaves the lists, the
edges of every graph and the process graph exactly as they were. -/
theorem refused_no_trace {sys : System} (h : Reachable sys) {i : Nat} (hi : i < hashSize) {r : Request}
    (hen : (Event.lock r).Enabled (sys.graphAt i))
    (hout : (reclockLock (sys.graphAt i) r).2 = .failed .eagain ∨ (reclockLock (sys.graphAt i) r).2 = .failed .edeadlk) :
    NoTrace sys (sys.step i (.lock r)) := by
  have hv : Inv (sys.graphAt i) := (h.inv i).flags ⟨rfl, rfl, rfl, rfl, rfl⟩ rfl (fun _ => rfl)
  have hun : Untraced (flkGetLock (sys.graphAt i) r.desc r.state none).2 (reclockLock (sys.graphAt i) r).1 := by
    rcases hout with hout | hout
    · exact reclockLock_untraced hv h.counts hen.1 hout (by simp)
    · exact reclockLock_untraced hv h.counts hen.1 hout (by simp)
  have hedges := flkGetLock_edges hv.no_edges_next r.desc r.state none
  -- the other graphs do not change
  have hall : ∀ {P : Graph → Graph → Prop}, (∀ g, P g g) → P (sys.graph i) (reclockLock (sys.graphAt i) r).1 →
      ∀ j, P (sys.graph j) ((sys.step i (.lock r)).graph j) := by
    intro P hrefl hP j
    unfold System.step
    by_cases hj : j = i
    · subst hj
      simp only [update_self]
      exact hP
    · simp only [update_of_ne hj]
      exact hrefl _
  refine ⟨?_, ?_, ?_, ?_, ?_, ?_, ?_, hun.vertex⟩
  · exact hall (P := fun g g' => g'.active = g.active) (fun _ => rfl) hun.active
  · exact hall (P := fun g g' => g'.sleeping = g.sleeping) (fun _ => rfl) hun.sleeping
  · exact hall (P := fun g g' => g'.vFilocks = g.vFilocks) (fun _ => rfl) hun.vFilocks
  · exact hall (P := fun g g' => g'.deps.adj = g.deps.adj) (fun _ => rfl) (hun.adj.trans hedges.adj)
  · exact hall (P := fun g g' => g'.deps.inn = g.deps.inn) (fun _ => rfl) (hun.inn.trans hedges.inn)
  · refine hall (P := fun g g' => ∀ l < g.next, g'.lock l = g.lock l) (fun _ _ _ => rfl) ?_
    intro l hl
    rw [hun.lock]
    exact update_of_ne (Nat.ne_of_lt hl) ..
  · refine hall (P := fun g g' => ∀ l < g.next, g'.lState l = g.lState l) (fun _ _ _ => rfl) ?_
    intro l hl
    rw [hun.lState]
    exact update_of_ne (Nat.ne_of_lt hl) ..

/-- Two owners, each with a write lock; the first already waits for the lock of the second. -/
def facing : System :=
  ((System.empty.step 0 (.lock { desc := ⟨0, .wrlck, 0, 9, 1, 0⟩ })).step 0
    (.lock { desc := ⟨0, .wrlck, 20, 29, 2, 0⟩ })).step 0
      (.lock { desc := ⟨0, .wrlck, 20, 20, 1, 0⟩, willingToSleep := true })

lemma facing_reachable : Reachable facing := by
  refine Reachable.step (Reachable.step (Reachable.step Reachable.init ?_ ?_) ?_ ?_) ?_ ?_
  all_goals decide

theorem facing_no_trace : (reclockLock (facing.graphAt 0) { desc := ⟨0, .wrlck, 5, 5, 2, 0⟩, willingToSleep := true }).2 =
      .failed .edeadlk ∧
    NoTrace facing (facing.step 0 (.lock { desc := ⟨0, .wrlck, 5, 5, 2, 0⟩, willingToSleep := true })) := by
  have hdead : (reclockLock (facing.graphAt 0) { desc := ⟨0, .wrlck, 5, 5, 2, 0⟩, willingToSleep := true }).2 =
      .failed .edeadlk := by decide +kernel
  exact ⟨hdead, refused_no_trace facing_reachable (by decide) (by decide) (.inr hdead)⟩

end Solaris.Flock
