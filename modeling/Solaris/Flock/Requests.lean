import Solaris.Flock.Invariant

/-!
# Requests that are granted

A granted request is executed in a graph whose sleeping locks already know about it.
-/

namespace Solaris.Flock

open Lib List Nat Function

variable {g : Graph} {rq l : Nat}

lemma Inv.exec (h : Inv g) (hrq : rq ∉ g.sleeping)
    (hclean : (g.lock rq).lType ≠ .unlck → ∀ a ∈ g.active, (g.lock a).lVnode = (g.lock rq).lVnode →
      blocks (g.lock a) (g.lock rq) = false)
    (hreach : (g.lock rq).lType ≠ .unlck → ∀ s ∈ g.sleeping, (g.lock rq).lVnode = (g.lock s).lVnode →
      blocks (g.lock rq) (g.lock s) = true → Path g.deps s rq ∨ ∃ a, Mine g rq a ∧
        blocks (g.lock a) (g.lock s) = true ∧ ∃ x, (g.lock a).Has x ∧ (g.lock rq).Has x ∧ (g.lock s).Has x) :
    ExecInv g rq := by
  refine ⟨h.sleep, ?_, ⟨h.waits.paired, ?_⟩, h.reaches, h.granted, h.clean, hclean, hreach⟩
  · intro s hs
    exact ⟨h.awake s hs, fun he => hrq (he ▸ hs)⟩
  · intro s t hst
    obtain ⟨h1, h2, h3⟩ := h.waits.edge s t hst
    refine ⟨h1, ?_, h3⟩
    rcases h2 with h2 | h2
    · exact .inl h2
    · exact .inr (.inl h2)

lemma Walked.inv_unlock {vp : Nat} (h : Walked g rq vp (ExecInv · rq)) (hu : (g.lock rq).lType = .unlck) : Inv g := by
  have hk := h.kept
  refine ⟨h.inv, hk.sleep, fun s hs => (hk.awake s hs).1, ⟨hk.waits.paired, ?_⟩, hk.reaches, hk.granted, hk.clean⟩
  intro s t hst
  obtain ⟨h1, h2, h3⟩ := hk.waits.edge s t hst
  refine ⟨h1, ?_, h3⟩
  rcases h2 with h2 | h2 | h2
  · exact .inl h2
  · exact .inr h2
  · exact absurd hu h2.2

lemma Walked.inv_insert {vp : Nat} (h : Walked g rq vp (ExecInv · rq)) (hu : (g.lock rq).lType ≠ .unlck) :
    Inv (flkInsertActiveLock g rq) := by
  have hk := h.kept
  have hmem := fun a => mem_flkInsertActiveLock h.inv.ok rq (a := a)
  refine ⟨h.insert hu, ⟨?_, ?_, ?_, ?_⟩, ?_, ⟨?_, ?_⟩, ?_, ?_, ?_⟩
  · simpa using hk.sleep.lt
  · simpa using hk.sleep.ranged
  · simpa using hk.sleep.locked
  · simpa using hk.sleep.order
  · intro s hs hm
    rw [flkInsertActiveLock_sleeping] at hs
    rcases (hmem s).mp hm with he | hm
    · exact (hk.awake s hs).2 he
    · exact (hk.awake s hs).1 hm
  · rw [flkInsertActiveLock_deps]
    exact hk.waits.paired
  · intro s t hst
    rw [flkInsertActiveLock_deps] at hst
    rw [flkInsertActiveLock_lock, flkInsertActiveLock_sleeping, hmem]
    obtain ⟨h1, h2, h3⟩ := hk.waits.edge s t hst
    refine ⟨h1, ?_, h3⟩
    rcases h2 with h2 | h2 | h2
    · exact .inl h2
    · exact .inr (.inr h2)
    · exact .inr (.inl h2.1)
  · intro s hs t ht hv hb
    rw [flkInsertActiveLock_sleeping] at hs ht
    rw [flkInsertActiveLock_lock] at hv hb
    rw [flkInsertActiveLock_deps]
    simp only [hmem] at ht
    rcases ht with ht | rfl | ht
    · exact hk.reaches s hs t (.inl ht) hv hb
    · rcases hk.rqReaches hu s hs hv hb with hp | ⟨a, ha, -, x, hxa, hxr, -⟩
      · exact hp
      · exact absurd hxr fun hxr => (h.clear a ha).not_both hxa hxr
    · exact hk.reaches s hs t (.inr ht) hv hb
  · intro s hs
    rw [flkInsertActiveLock_sleeping] at hs
    rw [flkInsertActiveLock_lState, flkInsertActiveLock_deps]
    exact hk.granted s hs
  · intro a b ha hb hv
    rw [flkInsertActiveLock_lock] at hv ⊢
    rcases (hmem a).mp ha with hea | haa
    · subst hea
      rcases (hmem b).mp hb with heb | hbb
      · subst heb
        exact not_blocks_of_owner rfl
      · rw [blocks_comm]
        exact hk.rqClean hu b hbb hv.symm
    · rcases (hmem b).mp hb with heb | hbb
      · subst heb
        exact hk.rqClean hu a haa hv
      · exact hk.clean a b haa hbb hv

theorem flkExecuteRequest_inv (h : ExecInv g rq) (hi : ListInv g) (hp : Pending g rq)
    (hio : (g.lState rq).ioLock = false) : Inv (flkExecuteRequest g rq) := by
  obtain ⟨g', hw, heq⟩ := flkExecuteRequest_walked (P := (ExecInv · rq)) hi hp hio
    (fun _ _ hi hp hm hk => hk.turn hi hp hm) h
  rw [heq]
  split_ifs with hu
  · exact hw.inv_unlock hu
  · exact hw.inv_insert hu

/-- The invariant with the set of locks that edges may lead to, `E`, and the set of locks
that must be reached, `B`, left open. -/
structure Core (g : Graph) (E B : Nat → Prop) : Prop where
  sleep : SleepOk g
  awake : ∀ t, E t → t ∉ g.sleeping
  waits : Waits g.lock g.sleeping E g.deps
  reaches : Reaches g.lock g.sleeping B g.deps
  granted : GrantedOk g

lemma Inv.core (h : Inv g) : Core g (· ∈ g.active) (· ∈ g.active) :=
  ⟨h.sleep, fun t ht hs => h.awake t hs ht, h.waits, h.reaches, h.granted⟩

lemma ExecInv.core (h : ExecInv g rq) :
    Core g (fun t => t ∈ g.active ∨ (t = rq ∧ (g.lock rq).lType ≠ .unlck)) (· ∈ g.active) := by
  refine ⟨h.sleep, ?_, h.waits, h.reaches, h.granted⟩
  rintro t (ht | ⟨rfl, -⟩) hs
  · exact (h.awake t hs).1 ht
  · exact (h.awake t hs).2 rfl

theorem Core.wakeup {E B : Nat → Prop} (h : Core g E B) (hl : l ∉ g.sleeping) :
    Core (flkWakeup g l true) (fun t => E t ∧ t ≠ l) (fun t => B t ∧ t ≠ l) := by
  have hw := flkWakeup_woken g l true (h.waits.paired.inn_nodup l)
  have hx : Exchange g.lock [] g.deps (flkWakeup g l true).deps l :=
    hw.exchange h.waits.paired (h.waits.sink hl)
  have hnotop : ∀ s t, t ∈ (flkWakeup g l true).deps.adj s → t ∈ g.deps.adj s ∧ t ≠ l := by
    intro s t hst
    rcases hx.edges s t hst with hst | ⟨-, ht, -⟩
    · exact hst
    · exact absurd ht not_mem_nil
  refine ⟨⟨?_, ?_, ?_, ?_⟩, ?_, ⟨hx.paired, ?_⟩, ?_, ?_⟩
  · rw [hw.lists.sleeping, hw.lists.next]
    exact h.sleep.lt
  · rw [hw.lists.sleeping, hw.lists.lock]
    exact h.sleep.ranged
  · rw [hw.lists.sleeping, hw.lists.lock]
    exact h.sleep.locked
  · rw [hw.lists.sleeping, hw.lists.lock]
    exact h.sleep.order
  · intro t ht
    rw [hw.lists.sleeping]
    exact h.awake t ht.1
  · intro s t hst
    obtain ⟨hst, hne⟩ := hnotop s t hst
    obtain ⟨h1, h2, h3⟩ := h.waits.edge s t hst
    rw [hw.lists.sleeping, hw.lists.lock]
    refine ⟨h1, ?_, h3⟩
    rcases h2 with h2 | h2
    · exact .inl h2
    · exact .inr ⟨h2, hne⟩
  · intro s hs t ht hv hb
    rw [hw.lists.sleeping] at hs ht
    rw [hw.lists.lock] at hv hb
    rcases ht with ht | ht
    · apply hx.keeps
      · rintro rfl
        exact hl ht.1
      · exact h.reaches s hs t (.inl ht) hv hb
    · exact hx.keeps s t ht.2 (h.reaches s hs t (.inr ht.1) hv hb)
  · intro s hs
    rw [hw.lists.sleeping] at hs
    have hg := h.granted s hs
    rw [hw.state s]
    by_cases hsl : l ∈ g.deps.adj s
    · have hmem : s ∈ g.deps.inn l := h.waits.paired.mem.mp hsl
      have hng : (g.lState s).granted ≠ true := by
        rw [Ne, hg]
        exact ne_nil_of_mem hsl
      by_cases hadj : (flkWakeup g l true).deps.adj s = []
      · simp [hmem, hadj]
      · simp only [hadj, and_false, if_false]
        exact iff_of_false hng fun hf => hf
    · have hmem : s ∉ g.deps.inn l := fun hm => hsl (h.waits.paired.mem.mpr hm)
      have hsame : (flkWakeup g l true).deps.adj s = g.deps.adj s := by
        rw [hw.adj s, if_neg (by simp [hmem])]
      simp only [hmem, false_and, if_false, hsame]
      exact hg

lemma Core.mono {E B E' B' : Nat → Prop} (h : Core g E B) (hE : ∀ t, E t ↔ E' t) (hB : ∀ t, B' t → B t) :
    Core g E' B' := by
  refine ⟨h.sleep, fun t ht => h.awake t ((hE t).mpr ht), ⟨h.waits.paired, ?_⟩, ?_, h.granted⟩
  · intro s t hst
    obtain ⟨h1, h2, h3⟩ := h.waits.edge s t hst
    rw [hE] at h2
    exact ⟨h1, h2, h3⟩
  · intro s hs t ht hv hb
    rcases ht with ht | ht
    · exact h.reaches s hs t (.inl ht) hv hb
    · exact h.reaches s hs t (.inr (hB t ht)) hv hb

lemma Core.congr {g' : Graph} {E B : Nat → Prop} (h : Core g E B) (hlock : g'.lock = g.lock) (hnext : g'.next = g.next)
    (hsleep : g'.sleeping = g.sleeping) (hdeps : SameEdges g'.deps g.deps)
    (hstate : ∀ s, (g'.lState s).granted = (g.lState s).granted) : Core g' E B := by
  refine ⟨⟨?_, ?_, ?_, ?_⟩, ?_, ?_, ?_, ?_⟩
  · rw [hsleep, hnext]
    exact h.sleep.lt
  · rw [hsleep, hlock]
    exact h.sleep.ranged
  · rw [hsleep, hlock]
    exact h.sleep.locked
  · rw [hsleep, hlock]
    exact h.sleep.order
  · rw [hsleep]
    exact h.awake
  · rw [hsleep, hlock]
    exact h.waits.same hdeps
  · unfold Reaches Path
    rw [hsleep, hlock, hdeps.adj]
    exact h.reaches
  · unfold GrantedOk
    rw [hsleep, hdeps.adj]
    intro s hs
    rw [hstate s]
    exact h.granted s hs

lemma Inv.of_core (hi : ListInv g) (hc : Core g (· ∈ g.active) (· ∈ g.active)) (hcl : Clean g.lock (· ∈ g.active)) :
    Inv g :=
  ⟨hi, hc.sleep, fun s hs ht => hc.awake s ht hs, hc.waits, hc.reaches, hc.granted, hcl⟩

lemma ListInv.same {g' : Graph} (h : ListInv g) (hs : SameLists g' g) : ListInv g' := by
  refine ⟨hs.activeOk.mpr h.ok, ?_, ?_, ?_, ?_⟩
  · rw [hs.active, hs.next]
    exact h.lt
  · rw [hs.active, hs.lock]
    exact h.ranged
  · rw [hs.active, hs.lock]
    exact h.locked
  · rw [hs.active, hs.lock]
    exact h.apart

lemma ListInv.delete (h : ListInv g) (hl : l ∈ g.active) : ListInv (flkDeleteActiveLock g l) := by
  have hmem : ∀ a, a ∈ (flkDeleteActiveLock g l).active → a ∈ g.active := fun a ha => mem_of_mem_erase ha
  refine ⟨flkDeleteActiveLock_ok h.ok hl, ?_, ?_, ?_, ?_⟩
  · exact fun a ha => h.lt a (hmem a ha)
  · exact fun a ha => h.ranged a (hmem a ha)
  · exact fun a ha => h.locked a (hmem a ha)
  · exact fun a ha b hb => h.apart a (hmem a ha) b (hmem b hb)

theorem releaseActive_inv (h : Inv g) (hl : l ∈ g.active) : Inv (releaseActive g l) := by
  have hs := flkWakeup_same (flkDeleteActiveLock g l) l true
  have hcore : Core (flkDeleteActiveLock g l) (· ∈ g.active) (· ∈ g.active) :=
    h.core.congr rfl rfl rfl (SameEdges.refl _) (fun _ => rfl)
  have hmem : ∀ t, t ∈ (releaseActive g l).active ↔ t ∈ g.active ∧ t ≠ l := by
    intro t
    unfold releaseActive
    rw [hs.active, flkDeleteActiveLock_active, h.list.ok.nodup.mem_erase_iff]
    tauto
  apply Inv.of_core
  · exact (h.list.delete hl).same hs
  · exact (hcore.wakeup (fun hx => h.awake l hx hl)).mono (fun t => (hmem t).symm) fun t => (hmem t).mp
  · intro a b ha hb
    have hlock : (releaseActive g l).lock = g.lock := hs.lock
    rw [hlock]
    exact h.clean a b ((hmem a).mp ha).1 ((hmem b).mp hb).1

lemma releaseActive_active (g : Graph) (l : Nat) : (releaseActive g l).active = g.active.erase l :=
  (flkWakeup_same (flkDeleteActiveLock g l) l true).active

lemma foldl_releaseActive_inv {ls : List Nat} (h : Inv g) (hnd : ls.Nodup) (hls : ∀ l ∈ ls, l ∈ g.active) :
    Inv (ls.foldl releaseActive g) := by
  induction ls generalizing g with
  | nil => exact h
  | cons l ls ih =>
    rw [nodup_cons] at hnd
    apply ih (releaseActive_inv h (hls l (by simp))) hnd.2
    intro k hk
    rw [releaseActive_active, h.list.ok.nodup.mem_erase_iff]
    refine ⟨?_, hls k (by simp [hk])⟩
    rintro rfl
    exact hnd.1 hk

lemma Inv.flags {g' : Graph} (h : Inv g) (hs : SameLists g' g) (hd : g'.deps = g.deps)
    (hg : ∀ s, (g'.lState s).granted = (g.lState s).granted) : Inv g' := by
  have hcore := h.core.congr hs.lock hs.next hs.sleeping (by rw [hd]; exact SameEdges.refl _) hg
  apply Inv.of_core (h.list.same hs)
  · rw [hs.active]
    exact hcore
  · rw [hs.lock, hs.active]
    exact h.clean

lemma interruptWakeup_inv (h : Inv g) (l : Nat) : Inv (interruptWakeup g l) := by
  apply h.flags (interruptWakeup_same g l) rfl
  intro s
  simp only [interruptWakeup, Graph.setState]
  by_cases hs : s = l
  · subst hs
    simp
  · simp [hs]

lemma cancelWakeup_inv (h : Inv g) (l : Nat) : Inv (cancelWakeup g l) := by
  apply h.flags (cancelWakeup_same g l) rfl
  intro s
  simp only [cancelWakeup, Graph.setState]
  by_cases hs : s = l
  · subst hs
    simp
  · simp [hs]

lemma foldl_inv {f : Graph → Nat → Graph} (hf : ∀ g l, Inv g → Inv (f g l)) (ls : List Nat) (h : Inv g) :
    Inv (ls.foldl f g) := by
  induction ls generalizing g with
  | nil => exact h
  | cons l ls ih =>
    exact ih (hf g l h)

lemma flkDeleteLocksBySysid_inv (h : Inv g) (sysid : Int) : Inv (flkDeleteLocksBySysid g sysid) := by
  have h1 := foldl_inv (fun g l hg => interruptWakeup_inv hg l)
    (g.sleeping.filter (fun l => (g.lock l).lSysid == sysid)) h
  apply foldl_releaseActive_inv h1
  · exact h1.list.ok.nodup.filter _
  · intro l hl
    exact (mem_filter.mp hl).1

lemma setLockmgrStatus_inv (h : Inv g) (status : LockmgrStatus) : Inv (setLockmgrStatus g status) := by
  have h0 : Inv { g with lockmgrStatus := status } := h.flags ⟨rfl, rfl, rfl, rfl, rfl⟩ rfl (fun _ => rfl)
  cases status with
  | up => exact h0
  | wakeupSleepers => exact foldl_inv (fun g l hg => interruptWakeup_inv hg l) _ h0
  | down =>
    apply foldl_releaseActive_inv h0
    · exact h0.list.ok.nodup.filter _
    · intro l hl
      exact (mem_filter.mp hl).1

lemma foldl_delete {ls : List Nat} (h : ListInv g) (hnd : ls.Nodup) (hls : ∀ l ∈ ls, l ∈ g.active) :
    ListInv (ls.foldl flkDeleteActiveLock g) ∧ (∀ a, a ∈ (ls.foldl flkDeleteActiveLock g).active ↔ a ∈ g.active ∧ a ∉ ls) ∧
      SameRest (ls.foldl flkDeleteActiveLock g) g := by
  induction ls generalizing g with
  | nil => exact ⟨h, by simp, rfl, rfl, rfl, rfl, rfl, rfl⟩
  | cons l ls ih =>
    rw [nodup_cons] at hnd
    rw [foldl_cons]
    have hmem : ∀ a, a ∈ (flkDeleteActiveLock g l).active ↔ a ≠ l ∧ a ∈ g.active := by
      intro a
      rw [flkDeleteActiveLock_active, h.ok.nodup.mem_erase_iff]
    obtain ⟨h1, h2, h3⟩ := ih (h.delete (hls l (by simp))) hnd.2 (by
      intro k hk
      rw [hmem]
      refine ⟨?_, hls k (by simp [hk])⟩
      rintro rfl
      exact hnd.1 hk)
    refine ⟨h1, ?_, h3.lock, h3.next, h3.sleeping, h3.deps, h3.lState, h3.ps⟩
    intro a
    rw [h2 a, hmem a, mem_cons]
    tauto

lemma foldl_wakeup_core {E B : Nat → Prop} {ls : List Nat} (h : Core g E B) (hls : ∀ l ∈ ls, l ∉ g.sleeping) :
    Core (ls.foldl (fun g l => flkWakeup g l true) g) (fun t => E t ∧ t ∉ ls) (fun t => B t ∧ t ∉ ls) := by
  induction ls generalizing g E B with
  | nil => exact h.mono (by simp) (by simp)
  | cons l ls ih =>
    have hs := flkWakeup_same g l true
    have h1 := ih (h.wakeup (hls l (by simp))) (by
      intro k hk
      rw [hs.sleeping]
      exact hls k (by simp [hk]))
    apply h1.mono
    · intro t
      rw [mem_cons]
      tauto
    · intro t
      rw [mem_cons]
      tauto

lemma cleanlocks_inv (h : Inv g) (vp : Nat) (pid : Option Int) (sysid : Int) : Inv (cleanlocks g vp pid sysid) := by
  unfold cleanlocks
  set mine := fun l => pid.all (fun p => (g.lock l).lPid == p) && (g.lock l).lSysid == sysid with hmine
  have h1 := foldl_inv (fun g l hg => cancelWakeup_inv hg l) ((g.sleepVp vp).filter mine) h
  set g1 := ((g.sleepVp vp).filter mine).foldl cancelWakeup g with hg1
  set ls := (g1.activeVp vp).filter mine with hls
  have hlsa : ∀ l ∈ ls, l ∈ g1.active := by
    intro l hl
    rw [hls, mem_filter, h1.list.ok.mem_activeVp] at hl
    exact hl.1.1
  have hnd : ls.Nodup := by
    rw [hls, h1.list.ok.activeVp]
    exact (h1.list.ok.nodup.filter _).filter _
  obtain ⟨hd1, hd2, hd3⟩ := foldl_delete h1.list hnd hlsa
  set g2 := ls.foldl flkDeleteActiveLock g1 with hg2
  have hcore : Core g2 (· ∈ g1.active) (· ∈ g1.active) :=
    h1.core.congr hd3.lock hd3.next hd3.sleeping (by rw [hd3.deps]; exact SameEdges.refl _) (fun s => by rw [hd3.lState])
  have hs := SameLists.foldl (fun g l => flkWakeup_same g l true) ls.reverse g2
  have hmem : ∀ t, t ∈ (ls.reverse.foldl (fun g l => flkWakeup g l true) g2).active ↔
      t ∈ g1.active ∧ t ∉ ls.reverse := by
    intro t
    rw [hs.active, hd2 t, mem_reverse]
  apply Inv.of_core (hd1.same hs)
  · apply (foldl_wakeup_core hcore _).mono (fun t => (hmem t).symm) fun t => (hmem t).mp
    intro l hl
    rw [hd3.sleeping]
    exact fun hx => h1.awake l hx (hlsa l (mem_reverse.mp hl))
  · intro a b ha hb
    rw [hs.lock, hd3.lock]
    exact h1.clean a b ((hmem a).mp ha).1 ((hmem b).mp hb).1

/-- `rq` is a new descriptor. -/
structure Arrived (g : Graph) (rq : Nat) : Prop where
  inv : Inv g
  pending : Pending g rq
  asleep : rq ∉ g.sleeping
  above : ∀ s ∈ g.sleeping, s < rq

lemma Inv.no_edges_next (h : Inv g) : g.deps.adj g.next = [] ∧ g.deps.inn g.next = [] := by
  refine ⟨h.waits.sink fun hs => lt_irrefl _ (h.sleep.lt _ hs), ?_⟩
  rw [eq_nil_iff_forall_not_mem]
  intro s hs
  rw [← h.waits.paired.mem] at hs
  exact lt_irrefl _ (h.waits.lt_next h.sleep.lt h.list.lt hs).2

lemma Inv.arrive (h : Inv g) {desc : LockDescriptor} (hd : desc.Ranged) (state : LockState) (pv : Option Nat) :
    Arrived (flkGetLock g desc state pv).2 g.next := by
  have hlock : ∀ a < g.next, (flkGetLock g desc state pv).2.lock a = g.lock a := by
    intro a ha
    simp only [flkGetLock]
    rw [update_of_ne (by omega)]
  have hlt : ∀ s ∈ g.sleeping, s < g.next := h.sleep.lt
  have hla : ∀ a ∈ g.active, (flkGetLock g desc state pv).2.lock a = g.lock a := fun a ha => hlock a (h.list.lt a ha)
  have hls : ∀ a ∈ g.sleeping, (flkGetLock g desc state pv).2.lock a = g.lock a := fun a ha => hlock a (hlt a ha)
  have hedges := flkGetLock_edges h.no_edges_next desc state pv
  have hlast : ∀ s t, t ∈ g.deps.adj s → (flkGetLock g desc state pv).2.lock s = g.lock s ∧
      (flkGetLock g desc state pv).2.lock t = g.lock t := by
    intro s t hst
    have hb := h.waits.lt_next hlt h.list.lt hst
    exact ⟨hlock s hb.1, hlock t hb.2⟩
  refine ⟨⟨⟨?_, ?_, ?_, ?_, ?_⟩, ⟨?_, ?_, ?_, ?_⟩, h.awake, ⟨h.waits.paired.same hedges, ?_⟩, ?_, ?_, ?_⟩,
    ⟨?_, ?_, ?_⟩, ?_, hlt⟩
  · exact ActiveOk.congr h.list.ok fun a ha => (hla a ha).symm
  · intro a ha
    exact lt_succ_of_lt (h.list.lt a ha)
  · intro a ha
    rw [hla a ha]
    exact h.list.ranged a ha
  · intro a ha
    rw [hla a ha]
    exact h.list.locked a ha
  · intro a ha b hb
    rw [hla a ha, hla b hb]
    exact h.list.apart a ha b hb
  · intro s hs
    exact lt_succ_of_lt (hlt s hs)
  · intro s hs
    rw [hls s hs]
    exact h.sleep.ranged s hs
  · intro s hs
    rw [hls s hs]
    exact h.sleep.locked s hs
  · apply h.sleep.order.imp_of_mem
    intro a b ha hb hab
    rw [hls a ha, hls b hb]
    exact hab
  · intro s t hst
    rw [hedges.adj] at hst
    rw [(hlast s t hst).1, (hlast s t hst).2]
    exact h.waits.edge s t hst
  · intro s hs t ht hv hb
    have hlt' : (flkGetLock g desc state pv).2.lock t = g.lock t := by
      rcases ht with ht | ht
      · exact hls t ht.1
      · exact hla t ht
    rw [hls s hs, hlt'] at hv hb
    unfold Path
    rw [hedges.adj]
    exact h.reaches s hs t ht hv hb
  · intro s hs
    have hst : (flkGetLock g desc state pv).2.lState s = g.lState s := by
      simp only [flkGetLock]
      rw [update_of_ne (by have := hlt s hs; omega)]
    rw [hst, hedges.adj]
    exact h.granted s hs
  · intro a b ha hb
    rw [hla a ha, hla b hb]
    exact h.clean a b ha hb
  · exact lt_succ_self _
  · exact fun ha => lt_irrefl _ (h.list.lt _ ha)
  · simp only [flkGetLock]
    rw [update_self]
    exact hd
  · exact fun hs => lt_irrefl _ (hlt _ hs)

end Solaris.Flock
