import Solaris.Flock.Relation

/-!
# Executing a request

`flk_execute_request` walks the active locks of a vnode and lets each lock of the
requesting owner make room for the request.
-/

namespace Solaris.Flock

open Lib List Function

/-- The list invariants: locks of one owner on one vnode are disjoint, and not adjacent if
they have the same type. -/
structure ListInv (g : Graph) : Prop where
  ok : g.ActiveOk
  lt : ∀ a ∈ g.active, a < g.next
  ranged : ∀ a ∈ g.active, (g.lock a).Ranged
  locked : ∀ a ∈ g.active, (g.lock a).lType ≠ .unlck
  apart : ∀ a ∈ g.active, ∀ b ∈ g.active, a ≠ b → (g.lock a).lVnode = (g.lock b).lVnode →
    (g.lock a).owner = (g.lock b).owner → Apart (g.lock a) (g.lock b)

/-- `rq` describes a request that is not on the active list. -/
structure Pending (g : Graph) (rq : Nat) : Prop where
  lt : rq < g.next
  fresh : rq ∉ g.active
  ranged : (g.lock rq).Ranged

/-- `a` is an active lock of the owner and vnode of `rq`. -/
def Mine (g : Graph) (rq a : Nat) : Prop :=
  a ∈ g.active ∧ (g.lock a).lVnode = (g.lock rq).lVnode ∧ (g.lock a).owner = (g.lock rq).owner

def AllClear (g : Graph) (rq : Nat) : Prop := ∀ a, Mine g rq a → Apart (g.lock a) (g.lock rq)

/-- The lists after `l` was replaced by the descriptors `ids` and the request became `r'`. -/
structure Exchanged (g g' : Graph) (l rq : Nat) (r' : LockDescriptor) (pieces : List LockDescriptor)
    (ids : List Nat) : Prop where
  replaced : Replaced (g.lock l) (g.lock rq) r' pieces
  map_lock : ids.map g'.lock = pieces
  fresh : ∀ i ∈ ids, g.next ≤ i ∧ i < g'.next
  nodup : ids.Nodup
  next_le : g.next ≤ g'.next
  lock_rq : g'.lock rq = r'
  lock_of : ∀ a < g.next, a ≠ rq → g'.lock a = g.lock a
  sleeping : g'.sleeping = g.sleeping
  inserted : ∃ h : Graph, h.ActiveOk ∧ h.lock = g'.lock ∧ h.active = g.active.erase l ∧
    g'.active = (ids.foldl flkInsertActiveLock h).active ∧ g'.vFilocks = (ids.foldl flkInsertActiveLock h).vFilocks

lemma foldl_insert_ok {h : Graph} (hok : h.ActiveOk) {ids : List Nat} (hnd : ids.Nodup) (hf : ∀ i ∈ ids, i ∉ h.active) :
    (ids.foldl flkInsertActiveLock h).ActiveOk ∧ (ids.foldl flkInsertActiveLock h).active.Perm (ids ++ h.active) := by
  induction ids generalizing h with
  | nil => exact ⟨hok, List.Perm.refl _⟩
  | cons i ids ih =>
    rw [nodup_cons] at hnd
    have hi : i ∉ h.active := hf i (by simp)
    have hf' : ∀ j ∈ ids, j ∉ (flkInsertActiveLock h i).active := by
      intro j hj hm
      rcases (mem_flkInsertActiveLock hok i).mp hm with rfl | hm
      · exact hnd.1 hj
      · exact hf j (by simp [hj]) hm
    obtain ⟨h1, h2⟩ := ih (flkInsertActiveLock_ok hok hi) hnd.2 hf'
    have hp := (flkInsertActiveLock_perm hok i).append_left ids
    exact ⟨h1, h2.trans (hp.trans perm_middle)⟩

section Exchange

variable {g g' : Graph} {l rq : Nat} {r' : LockDescriptor} {pieces : List LockDescriptor} {ids : List Nat}

lemma Exchanged.perm (hi : ListInv g) (h : Exchanged g g' l rq r' pieces ids) :
    g'.ActiveOk ∧ g'.active.Perm (ids ++ g.active.erase l) := by
  obtain ⟨g0, hok, hlock, hact, ha, hv⟩ := h.inserted
  have hf : ∀ i ∈ ids, i ∉ g0.active := by
    intro i hm hc
    rw [hact] at hc
    have h1 := hi.lt i (mem_of_mem_erase hc)
    have h2 := (h.fresh i hm).1
    omega
  obtain ⟨h1, h3⟩ := foldl_insert_ok hok h.nodup hf
  have h2 := (foldl_insert_frame ids g0).lock
  refine ⟨?_, ?_⟩
  · unfold Graph.ActiveOk at h1 ⊢
    rw [h2] at h1
    rw [ha, hv, ← hlock]
    exact h1
  · rw [ha, ← hact]
    exact h3

lemma Exchanged.mem (hi : ListInv g) (h : Exchanged g g' l rq r' pieces ids) {a : Nat} :
    a ∈ g'.active ↔ a ∈ ids ∨ (a ∈ g.active ∧ a ≠ l) := by
  rw [(h.perm hi).2.mem_iff, mem_append, hi.ok.nodup.mem_erase_iff]
  tauto

lemma Exchanged.lock_old (hi : ListInv g) (hp : Pending g rq) (h : Exchanged g g' l rq r' pieces ids) {a : Nat}
    (ha : a ∈ g.active) : g'.lock a = g.lock a :=
  h.lock_of a (hi.lt a ha) (fun he => hp.fresh (he ▸ ha))

lemma Exchanged.piece (h : Exchanged g g' l rq r' pieces ids) {i : Nat} (hi : i ∈ ids) : g'.lock i ∈ pieces := by
  rw [← h.map_lock]
  exact mem_map_of_mem hi

lemma Replaced.same_range {l r : LockDescriptor} (h : Replaced l r r' pieces) (hr : r.Ranged) (ht : l.lType ≠ r.lType) :
    r'.lStart = r.lStart ∧ r'.lEnd = r.lEnd := by
  have hh : ∀ x, r'.Has x ↔ r.Has x := by
    intro x
    rw [h.has x]
    simp [ht]
  have hr' := h.ranged
  unfold LockDescriptor.Ranged at hr hr'
  unfold LockDescriptor.Has at hh
  have h1 := (hh r'.lStart).mp ⟨le_refl _, hr'.1⟩
  have h2 := (hh r.lStart).mpr ⟨le_refl _, hr.1⟩
  have h3 := (hh r'.lEnd).mp ⟨hr'.1, le_refl _⟩
  have h4 := (hh r.lEnd).mpr ⟨hr.1, le_refl _⟩
  omega

lemma Replaced.leftOf {l r c : LockDescriptor} (h : Replaced l r r' pieces) (hcl : LeftOf c l) (hcr : LeftOf c r) :
    LeftOf c r' := by
  have hs := (h.has r'.lStart).mp ⟨le_refl _, h.ranged.1⟩
  unfold LeftOf at hcl hcr ⊢
  unfold LockDescriptor.Has at hs
  rw [h.same.type]
  rcases hs with hs | ⟨ht, hs⟩
  · exact ⟨lt_of_lt_of_le hcr.1 hs.1, fun hc => lt_of_lt_of_le (hcr.2 hc) hs.1⟩
  · exact ⟨lt_of_lt_of_le hcl.1 hs.1, fun hc => lt_of_lt_of_le (hcl.2 (hc.trans ht.symm)) hs.1⟩

section

variable (hi : ListInv g) (hp : Pending g rq) (hl : l ∈ g.active)

include hi hp hl

lemma flkRelation_recompute (hc : relationCases (g.lock l) (g.lock rq) = .recompute r' pieces)
    (hr : Replaced (g.lock l) (g.lock rq) r' pieces) :
    Exchanged g (flkRelation g l rq).1 l rq r' pieces (getPieces g l pieces).1 ∧ (flkRelation g l rq).2 = false := by
  have hgot := getPieces_got g l pieces
  set p := getPieces g l pieces with hpdef
  set gA : Graph := { p.2 with lock := update p.2.lock rq r', deps := p.2.deps.unhookInEdges l } with hA
  have hlockA : ∀ a < g.next, a ≠ rq → gA.lock a = g.lock a := by
    intro a ha hne
    rw [hA]
    simp only
    rw [update_of_ne hne, hgot.lock_of a ha]
  have hokA : gA.ActiveOk := by
    have h : Flock.ActiveOk gA.lock g.active g.vFilocks := ActiveOk.congr hi.ok (fun a ha =>
      (hlockA a (hi.lt a ha) (fun he => hp.fresh (he ▸ ha))).symm)
    unfold Graph.ActiveOk
    rw [hgot.active, hgot.vFilocks]
    exact h
  have hlA : l ∈ gA.active := by
    rw [hgot.active]
    exact hl
  have hokB := flkDeleteActiveLock_ok hokA hlA
  set gB := flkDeleteActiveLock gA l with hB
  set topology := if lockEffect (g.lock l) (g.lock rq) = .unlock then p.1 else p.1 ++ [rq] with htop
  set dp := flkRecomputeDependencies gB.lock gB.next gB.deps gB.ps l topology true with hdp
  set gC : Graph := { gB with deps := dp.1, ps := dp.2 } with hC
  have hrel : flkRelation g l rq = (if lockEffect (g.lock l) (g.lock rq) = .downgrade ∨
      lockEffect (g.lock l) (g.lock rq) = .unlock then flkWakeup (p.1.foldl flkInsertActiveLock gC) l false
      else dropInEdges (p.1.foldl flkInsertActiveLock gC) l, false) := by
    simp only [flkRelation, hc]
    rfl
  have hsame : SameLists (flkRelation g l rq).1 (p.1.foldl flkInsertActiveLock gC) := by
    rw [hrel]
    split
    · exact flkWakeup_same _ _ _
    · exact dropInEdges_same _ _
  have hf := foldl_insert_frame p.1 gC
  have hlock : (flkRelation g l rq).1.lock = gA.lock := hsame.lock.trans hf.lock
  have hnext : (flkRelation g l rq).1.next = p.2.next := hsame.next.trans hf.next
  refine ⟨⟨hr, ?_, ?_, hgot.nodup, ?_, ?_, ?_, ?_, gC, ?_, ?_, ?_, hsame.active, hsame.vFilocks⟩, by rw [hrel]⟩
  · rw [hlock, ← hgot.map_lock]
    apply map_congr_left
    intro i him
    rw [hA]
    simp only
    rw [update_of_ne]
    have h1 := (hgot.mem_ids.mp him).1
    have h2 := hp.lt
    omega
  · intro i him
    rw [hnext]
    exact hgot.mem_ids.mp him
  · rw [hnext, hgot.next_eq]
    omega
  · rw [hlock, hA]
    simp
  · intro a ha hne
    rw [hlock]
    exact hlockA a ha hne
  · exact hsame.sleeping.trans (hf.sleeping.trans hgot.sleeping)
  · exact hokB
  · exact hlock.symm
  · rw [hC, hB]
    simp only [flkDeleteActiveLock_active]
    rw [hgot.active]

lemma flkRelation_release (hc : relationCases (g.lock l) (g.lock rq) = .release)
    (hr : (g.lock l).lStart = (g.lock rq).lStart ∧ (g.lock l).lEnd = (g.lock rq).lEnd) :
    Exchanged g (flkRelation g l rq).1 l rq (g.lock rq) [] [] ∧ (flkRelation g l rq).2 = true := by
  have hrel : flkRelation g l rq = (flkWakeup (flkDeleteActiveLock g l) l true, true) := by
    simp only [flkRelation, hc]
  have hsame := flkWakeup_same (flkDeleteActiveLock g l) l true
  rw [hrel]
  refine ⟨⟨Replaced.covered hp.ranged (le_of_eq hr.1.symm) (le_of_eq hr.2), rfl, by simp, nodup_nil, ?_, ?_, ?_,
    hsame.sleeping, flkDeleteActiveLock g l, flkDeleteActiveLock_ok hi.ok hl, hsame.lock.symm, rfl, hsame.active,
    hsame.vFilocks⟩, rfl⟩
  · exact le_of_eq hsame.next.symm
  · exact congrFun hsame.lock rq
  · intro a _ _
    exact congrFun hsame.lock a

theorem flkRelation_spec :
    ((flkRelation g l rq).1 = g ∧
      ((flkRelation g l rq).2 = false ∧ LeftOf (g.lock l) (g.lock rq) ∨
        (flkRelation g l rq).2 = true ∧ LeftOf (g.lock rq) (g.lock l))) ∨
    ∃ r' pieces ids, Exchanged g (flkRelation g l rq).1 l rq r' pieces ids ∧
      ((flkRelation g l rq).2 = false ∨ (flkRelation g l rq).2 = true ∧ ids = [] ∧
        (g.lock rq).lType = .unlck ∧ r' = g.lock rq ∧ (g.lock l).lStart = (g.lock rq).lStart ∧
        (g.lock l).lEnd = (g.lock rq).lEnd) := by
  have hm := relationCases_meets (hi.ranged l hl) hp.ranged (hi.locked l hl)
  cases hc : relationCases (g.lock l) (g.lock rq) with
  | apart stop =>
    have hrel : flkRelation g l rq = (g, stop) := by simp only [flkRelation, hc]
    rw [hc] at hm
    rw [hrel]
    left
    cases stop with
    | false => exact ⟨rfl, Or.inl ⟨rfl, hm⟩⟩
    | true => exact ⟨rfl, Or.inr ⟨rfl, hm⟩⟩
  | release =>
    rw [hc] at hm
    obtain ⟨hx, hs⟩ := flkRelation_release hi hp hl hc hm.2
    exact Or.inr ⟨_, _, _, hx, Or.inr ⟨hs, rfl, hm.1, rfl, hm.2⟩⟩
  | recompute r' pieces =>
    rw [hc] at hm
    obtain ⟨hx, hs⟩ := flkRelation_recompute hi hp hl hc hm
    exact Or.inr ⟨r', pieces, _, hx, Or.inl hs⟩

end

lemma Apart.mono {l p c : LockDescriptor} (h : Apart l c) (ht : p.lType = l.lType) (hs : l.lStart ≤ p.lStart)
    (he : p.lEnd ≤ l.lEnd) : Apart p c := by
  unfold Apart LeftOf at *
  rw [ht]
  rcases h with ⟨h1, h2⟩ | ⟨h1, h2⟩
  · exact Or.inl ⟨by omega, fun hc => by have := h2 hc; omega⟩
  · exact Or.inr ⟨by omega, fun hc => by have := h2 hc; omega⟩

lemma Exchanged.pieces_apart (h : Exchanged g g' l rq r' pieces ids) {i j : Nat} (hi : i ∈ ids) (hj : j ∈ ids)
    (hij : i ≠ j) : Apart (g'.lock i) (g'.lock j) := by
  have hord := h.replaced.ordered
  rw [← h.map_lock, pairwise_map] at hord
  have hap : ids.Pairwise (fun i j => Apart (g'.lock i) (g'.lock j)) := hord.imp Or.inl
  have : Std.Symm (fun i j => Apart (g'.lock i) (g'.lock j)) := ⟨fun _ _ hx => hx.symm⟩
  exact hap.forall hi hj hij

lemma Exchanged.piece_apart (hi : ListInv g) (hp : Pending g rq) (hl : l ∈ g.active)
    (h : Exchanged g g' l rq r' pieces ids) {i b : Nat} (him : i ∈ ids) (hb : b ∈ g.active) (hbl : b ≠ l)
    (hv : (g'.lock i).lVnode = (g'.lock b).lVnode) (ho : (g'.lock i).owner = (g'.lock b).owner) :
    Apart (g'.lock i) (g'.lock b) := by
  obtain ⟨hsame, -, hs, he, -⟩ := h.replaced.piece _ (h.piece him)
  rw [h.lock_old hi hp hb] at hv ho ⊢
  have hlb := hi.apart l hl b hb (Ne.symm hbl) (hsame.vnode.symm.trans hv) (hsame.owner.symm.trans ho)
  exact hlb.mono hsame.type hs he

lemma Exchanged.listInv (hi : ListInv g) (hp : Pending g rq) (hl : l ∈ g.active)
    (h : Exchanged g g' l rq r' pieces ids) : ListInv g' := by
  have hnew : ∀ i ∈ ids, SameButRange (g'.lock i) (g.lock l) ∧ (g'.lock i).Ranged := by
    intro i him
    have hpc := h.replaced.piece _ (h.piece him)
    exact ⟨hpc.1, hpc.2.1⟩
  refine ⟨(h.perm hi).1, ?_, ?_, ?_, ?_⟩
  · intro a ha
    rcases (h.mem hi).mp ha with ha | ha
    · exact (h.fresh a ha).2
    · exact lt_of_lt_of_le (hi.lt a ha.1) h.next_le
  · intro a ha
    rcases (h.mem hi).mp ha with ha | ha
    · exact (hnew a ha).2
    · rw [h.lock_old hi hp ha.1]
      exact hi.ranged a ha.1
  · intro a ha
    rcases (h.mem hi).mp ha with ha | ha
    · rw [(hnew a ha).1.type]
      exact hi.locked l hl
    · rw [h.lock_old hi hp ha.1]
      exact hi.locked a ha.1
  · intro a ha b hb hab hv ho
    rcases (h.mem hi).mp ha with ha | ha
    · rcases (h.mem hi).mp hb with hb | hb
      · exact h.pieces_apart ha hb hab
      · exact h.piece_apart hi hp hl ha hb.1 hb.2 hv ho
    · rcases (h.mem hi).mp hb with hb | hb
      · exact (h.piece_apart hi hp hl hb ha.1 ha.2 hv.symm ho.symm).symm
      · rw [h.lock_old hi hp ha.1, h.lock_old hi hp hb.1] at hv ho ⊢
        exact hi.apart a ha.1 b hb.1 hab hv ho

lemma Exchanged.pending (hi : ListInv g) (hp : Pending g rq) (h : Exchanged g g' l rq r' pieces ids) :
    Pending g' rq := by
  refine ⟨lt_of_lt_of_le hp.lt h.next_le, ?_, ?_⟩
  · intro hm
    rcases (h.mem hi).mp hm with hm | hm
    · have h1 := (h.fresh rq hm).1
      have h2 := hp.lt
      omega
    · exact hp.fresh hm.1
  · rw [h.lock_rq]
    exact h.replaced.ranged

end Exchange

section Loop

variable {g : Graph} {rq : Nat}

lemma listNext_mem {l k : Nat} {ls : List Nat} (h : listNext l ls = some k) : k ∈ ls := by
  unfold listNext at h
  have h1 := mem_of_mem_head? h
  exact (dropWhile_sublist _).mem (mem_of_mem_tail h1)

lemma listNext_append {l : Nat} {xs ys : List Nat} (h : l ∉ xs) : listNext l (xs ++ l :: ys) = ys.head? := by
  unfold listNext
  have hx : ∀ a ∈ xs, decide (a ≠ l) = true := by
    intro a ha
    have hne : a ≠ l := fun he => h (he ▸ ha)
    simpa using hne
  rw [dropWhile_append_of_pos hx]
  simp

lemma flkRelation_clear (hi : ListInv g) (hp : Pending g rq) (hc : AllClear g rq) {l : Nat} (hl : Mine g rq l) :
    (flkRelation g l rq).1 = g := by
  obtain ⟨stop, hs⟩ := relationCases_apart (hi.ranged l hl.1) hp.ranged (hi.locked l hl.1) (hc l hl)
  simp only [flkRelation, hs]

/-- The rest of the walk once the turn at one lock has returned 0. -/
def executeNext (vp rq fuel : Nat) (g : Graph) : Option Nat → Graph
  | none => g
  | some l => if (g.lock l).lVnode = vp then executeLoop vp rq fuel g (some l) else g

lemma executeLoop_mine {vp fuel l : Nat} (ho : (g.lock l).owner = (g.lock rq).owner) :
    executeLoop vp rq (fuel + 1) g (some l) = if (flkRelation g l rq).2 then (flkRelation g l rq).1
      else executeNext vp rq fuel (flkRelation g l rq).1 (listNext l g.active) := by
  have hs : sameOwner (g.lock rq) (g.lock l) = true := sameOwner_iff.mpr ho.symm
  simp only [executeLoop, hs, if_true]
  cases listNext l g.active with
  | none => rfl
  | some k => rfl

lemma executeLoop_other {vp fuel l : Nat} (ho : (g.lock l).owner ≠ (g.lock rq).owner) :
    executeLoop vp rq (fuel + 1) g (some l) = executeNext vp rq fuel g (listNext l g.active) := by
  have hs : ¬sameOwner (g.lock rq) (g.lock l) = true := fun h => ho (sameOwner_iff.mp h).symm
  simp only [executeLoop, hs]
  cases listNext l g.active with
  | none => rfl
  | some k => rfl

lemma executeLoop_clear {vp : Nat} (hi : ListInv g) (hp : Pending g rq) (hc : AllClear g rq)
    (hvp : (g.lock rq).lVnode = vp) (fuel : Nat) {l : Nat} (hl : l ∈ g.active) (hlv : (g.lock l).lVnode = vp) :
    executeLoop vp rq fuel g (some l) = g := by
  induction fuel generalizing l with
  | zero => rfl
  | succ fuel ih =>
    have hnext : executeNext vp rq fuel g (listNext l g.active) = g := by
      cases hn : listNext l g.active with
      | none => rfl
      | some k =>
        simp only [executeNext]
        split_ifs with hk
        · exact ih (listNext_mem hn) hk
        · rfl
    by_cases ho : (g.lock l).owner = (g.lock rq).owner
    · rw [executeLoop_mine ho, flkRelation_clear hi hp hc ⟨hl, hlv.trans hvp.symm, ho⟩, hnext]
      simp
    · rw [executeLoop_other ho, hnext]

lemma executeNext_clear {vp : Nat} (hi : ListInv g) (hp : Pending g rq) (hc : AllClear g rq)
    (hvp : (g.lock rq).lVnode = vp) (fuel : Nat) {o : Option Nat} (ho : ∀ l ∈ o, (g.lock l).lVnode = vp → l ∈ g.active) :
    executeNext vp rq fuel g o = g := by
  cases o with
  | none => rfl
  | some l =>
    simp only [executeNext]
    split_ifs with hk
    · exact executeLoop_clear hi hp hc hvp fuel (ho l rfl hk) hk
    · rfl

/-- The walk stands at `c`: the owner's locks before it lie below the request. -/
structure Walking (g : Graph) (rq vp : Nat) (pre dn : List Nat) (c : Nat) (todo post : List Nat) : Prop where
  inv : ListInv g
  pending : Pending g rq
  vnode : (g.lock rq).lVnode = vp
  segment : VpSegment g.lock vp g.active pre (dn ++ c :: todo) post
  below : ∀ d ∈ dn, (g.lock d).owner = (g.lock rq).owner → LeftOf (g.lock d) (g.lock rq)

section Walk

variable {vp c : Nat} {pre dn todo post : List Nat}

section

variable (h : Walking g rq vp pre dn c todo post)

include h

lemma Walking.mine {a : Nat} :
    Mine g rq a ↔ a ∈ dn ++ c :: todo ∧ (g.lock a).owner = (g.lock rq).owner := by
  unfold Mine
  rw [h.segment.mem_mid, h.vnode]
  tauto

lemma Walking.split : g.active = (pre ++ dn) ++ c :: (todo ++ post) := by
  rw [h.segment.split]
  simp

lemma Walking.next : listNext c g.active = (todo ++ post).head? := by
  have hs := h.split
  have hn := h.inv.ok.nodup
  rw [hs] at hn ⊢
  apply listNext_append
  intro hc
  rw [nodup_append] at hn
  exact hn.2.2 c hc c (by simp) rfl

lemma Walking.le_todo {t : Nat} (ht : t ∈ todo) :
    (g.lock c).lStart ≤ (g.lock t).lStart := by
  have hs := (ActiveOk.sorted h.inv.ok h.segment).1
  rw [pairwise_append] at hs
  exact (pairwise_cons.mp hs.2.1).1 t ht

lemma Walking.dn_le {d : Nat} (hd : d ∈ dn) :
    (g.lock d).lStart ≤ (g.lock c).lStart := by
  have hs := (ActiveOk.sorted h.inv.ok h.segment).1
  rw [pairwise_append] at hs
  exact hs.2.2 d hd c (by simp)

lemma Walking.ne {a : Nat} (ha : a ∈ dn ++ todo) : a ≠ c := by
  have hn := h.inv.ok.nodup
  rw [h.segment.split] at hn
  have hn2 : (dn ++ c :: todo).Nodup := hn.of_append_right.of_append_left
  intro he
  subst he
  rw [nodup_middle, nodup_cons] at hn2
  exact hn2.1 ha

lemma Walking.mem_active {a : Nat} (ha : a ∈ dn ++ c :: todo) :
    a ∈ g.active ∧ (g.lock a).lVnode = vp := h.segment.mem_mid.mp ha

end

lemma Apart.leftOf {l1 l2 : LockDescriptor} (h : Apart l1 l2) (h2 : l2.Ranged) (hle : l1.lStart ≤ l2.lStart) :
    LeftOf l1 l2 := by
  rcases h with h | h
  · exact h
  · have h1 := h.1
    unfold LockDescriptor.Ranged at h2
    omega

lemma Walking.apart (h : Walking g rq vp pre dn c todo post) {a : Nat} (ha : a ∈ dn ++ todo)
    (ho : (g.lock a).owner = (g.lock c).owner) : Apart (g.lock a) (g.lock c) := by
  have hm : a ∈ dn ++ c :: todo := by
    simp only [mem_append, mem_cons] at ha ⊢
    tauto
  have h1 := h.mem_active hm
  have h2 := h.mem_active (a := c) (by simp)
  exact h.inv.apart a h1.1 c h2.1 (h.ne ha) (h1.2.trans h2.2.symm) ho

lemma Walking.above (h : Walking g rq vp pre dn c todo post) {t : Nat} (ht : t ∈ todo)
    (ho : (g.lock t).owner = (g.lock c).owner) : LeftOf (g.lock c) (g.lock t) := by
  have hm := h.mem_active (a := t) (by simp [ht])
  exact (h.apart (by simp [ht]) ho).symm.leftOf (h.inv.ranged t hm.1) (h.le_todo ht)

lemma Walking.clear_of_above (h : Walking g rq vp pre dn c todo post)
    (hc : (g.lock c).owner = (g.lock rq).owner) (habove : LeftOf (g.lock rq) (g.lock c)) : AllClear g rq := by
  intro a ha
  obtain ⟨hm, ho⟩ := h.mine.mp ha
  simp only [mem_append, mem_cons] at hm
  rcases hm with hd | rfl | ht
  · exact .inl (h.below a hd ho)
  · exact .inr habove
  · have h1 := h.above ht (ho.trans hc.symm)
    have hr := h.inv.ranged c (h.mem_active (by simp)).1
    unfold LeftOf at habove h1
    unfold LockDescriptor.Ranged at hr
    exact .inr ⟨by omega, fun _ => by omega⟩

section Exchanging

variable {g' : Graph} {r' : LockDescriptor} {pieces : List LockDescriptor} {ids : List Nat}

lemma Walking.owner_new (h : Exchanged g g' c rq r' pieces ids) : (g'.lock rq).owner = (g.lock rq).owner := by
  rw [h.lock_rq]
  exact h.replaced.same.owner

section

variable (hw : Walking g rq vp pre dn c todo post)

include hw

lemma Walking.vnode_new (h : Exchanged g g' c rq r' pieces ids) :
    (g'.lock rq).lVnode = vp := by
  rw [h.lock_rq, h.replaced.same.vnode]
  exact hw.vnode

lemma Walking.erase : g.active.erase c = pre ++ ((dn ++ todo) ++ post) := by
  have hn := hw.inv.ok.nodup
  have hs := hw.split
  rw [hs] at hn ⊢
  have hc : c ∉ pre ++ dn := by
    intro hm
    rw [nodup_append] at hn
    exact hn.2.2 c hm c (by simp) rfl
  rw [erase_append_right _ hc, erase_cons_head]
  simp

lemma Walking.erase_segment (h : Exchanged g g' c rq r' pieces ids) :
    VpSegment g'.lock vp (g.active.erase c) pre (dn ++ todo) post := by
  have hseg : VpSegment g.lock vp (g.active.erase c) pre (dn ++ todo) post := by
    rw [hw.erase]
    apply hw.segment.replace
    intro a ha
    apply hw.segment.mid_key
    simp only [mem_append, mem_cons] at ha ⊢
    tauto
  apply Segment.congr _ hseg
  intro a ha
  rw [h.lock_old hw.inv hw.pending (mem_of_mem_erase ha)]

lemma Walking.passed (h : Exchanged g g' c rq r' pieces ids)
    (hlow : ∀ i ∈ ids, (g'.lock i).lStart = (g.lock c).lStart ∧ (g'.lock i).lEnd < (g.lock rq).lStart) :
    ∃ pre' dn' post', VpSegment g'.lock vp g'.active pre' (dn' ++ todo) post' ∧ ∀ d ∈ dn', d ∈ dn ∨ d ∈ ids := by
  obtain ⟨g0, hok, hlock, hact, ha, hv⟩ := h.inserted
  have hseg := hw.erase_segment h
  cases ids with
  | nil =>
    refine ⟨pre, dn, post, ?_, fun d hd => .inl hd⟩
    rw [ha]
    simp only [foldl_nil]
    rw [hact]
    exact hseg
  | cons i ids =>
    have hnil : ids = [] := by
      cases ids with
      | nil => rfl
      | cons j ids =>
        have hij : i ≠ j := by
          have hnd := h.nodup
          simp only [nodup_cons, mem_cons] at hnd
          tauto
        have hap := h.pieces_apart (i := i) (j := j) (by simp) (by simp) hij
        have hi1 := hlow i (by simp)
        have hj1 := hlow j (by simp)
        have hri := (h.replaced.piece _ (h.piece (i := i) (by simp))).2.1
        have hrj := (h.replaced.piece _ (h.piece (i := j) (by simp))).2.1
        unfold Apart LeftOf at hap
        unfold LockDescriptor.Ranged at hri hrj
        omega
    subst hnil
    have hvi : (g0.lock i).lVnode = vp := by
      rw [hlock, (h.replaced.piece _ (h.piece (i := i) (by simp))).1.vnode]
      exact (hw.mem_active (by simp)).2
    obtain ⟨p, m, q, hs, -, -, hins, -⟩ := flkInsertActiveLock_shape hok i
    have hm : m = dn ++ todo := by
      rw [hvi, hlock, hact] at hs
      rw [← hs.filter_key, hseg.filter_key]
    have hle : ∀ t ∈ todo, startLe g0.lock i t := by
      intro t ht
      unfold startLe
      rw [hlock, (hlow i (by simp)).1, h.lock_old hw.inv hw.pending (hw.mem_active (by simp [ht])).1]
      exact hw.le_todo ht
    rw [hm, orderedInsert_append hle] at hins
    refine ⟨p, dn.orderedInsert (startLe g0.lock) i, q, ?_, ?_⟩
    · rw [ha]
      simp only [foldl_cons, foldl_nil]
      rw [hins, ← hlock]
      rw [hvi] at hs
      apply hs.replace
      intro a ham
      rw [hm] at hs
      simp only [mem_append, mem_orderedInsert] at ham
      rcases ham with (rfl | ham) | ham
      · exact hvi
      · exact hs.mid_key a (by simp [ham])
      · exact hs.mid_key a (by simp [ham])
    · intro d hd
      simpa [or_comm] using hd

lemma Walking.below_new (hc : (g.lock c).owner = (g.lock rq).owner)
    (h : Exchanged g g' c rq r' pieces ids) {d : Nat} (hd : d ∈ dn) (ho : (g'.lock d).owner = (g'.lock rq).owner) :
    LeftOf (g'.lock d) (g'.lock rq) := by
  have hm := hw.mem_active (a := d) (by simp [hd])
  have hold := h.lock_old hw.inv hw.pending hm.1
  rw [Walking.owner_new h, hold] at ho
  rw [hold, h.lock_rq]
  have hca := (hw.mem_active (a := c) (by simp)).1
  have hdc := (hw.apart (by simp [hd]) (ho.trans hc.symm)).leftOf (hw.inv.ranged c hca) (hw.dn_le hd)
  exact h.replaced.leftOf hdc (hw.below d hd ho)

end

lemma Exchanged.piece_below (hp : Pending g rq) (h : Exchanged g g' c rq r' pieces ids) {i : Nat} (hi : i ∈ ids) :
    (g'.lock i).lType ≠ (g'.lock rq).lType ∧ (g'.lock rq).lStart = (g.lock rq).lStart ∧
      (g'.lock rq).lEnd = (g.lock rq).lEnd := by
  obtain ⟨hs, -, -, -, ht, -⟩ := h.replaced.piece _ (h.piece hi)
  have hne : (g.lock c).lType ≠ (g.lock rq).lType := by
    rw [← hs.type]
    exact ht
  rw [h.lock_rq, h.replaced.same.type]
  exact ⟨ht, h.replaced.same_range hp.ranged hne⟩

section

variable (hw : Walking g rq vp pre dn c todo post) (hc : (g.lock c).owner = (g.lock rq).owner)
  (h : Exchanged g g' c rq r' pieces ids)

include hw hc h

lemma Walking.clear_of_piece {i : Nat} (hi : i ∈ ids)
    (habove : (g.lock rq).lEnd < (g'.lock i).lStart) : AllClear g' rq := by
  intro a ha
  obtain ⟨ham, hav, hao⟩ := ha
  obtain ⟨-, hs, he⟩ := h.piece_below hw.pending hi
  rcases (h.mem hw.inv).mp ham with ham | ham
  · obtain ⟨ht, -, -⟩ := h.piece_below hw.pending ham
    obtain ⟨-, -, -, -, -, hpos⟩ := h.replaced.piece _ (h.piece ham)
    unfold Apart LeftOf
    rw [hs, he]
    rcases hpos with hpos | hpos
    · exact .inl ⟨hpos.2, fun hx => absurd hx ht⟩
    · exact .inr ⟨hpos, fun hx => absurd hx.symm ht⟩
  have hold := h.lock_old hw.inv hw.pending ham.1
  have hmid : a ∈ dn ++ c :: todo := by
    rw [hw.segment.mem_mid, ← hold, hav]
    exact ⟨ham.1, hw.vnode_new h⟩
  have hao2 := hao
  rw [Walking.owner_new h, hold] at hao2
  simp only [mem_append, mem_cons] at hmid
  rcases hmid with hd | rfl | ht
  · exact .inl (hw.below_new hc h hd hao)
  · exact absurd rfl ham.2
  · have h1 := hw.above ht (hao2.trans hc.symm)
    obtain ⟨-, hri, hsi, hei, -⟩ := h.replaced.piece _ (h.piece hi)
    unfold Apart LeftOf at *
    unfold LockDescriptor.Ranged at hri
    rw [he, hold]
    exact .inr ⟨by omega, fun _ => by omega⟩

lemma Walking.clear_of_release (hids : ids = [])
    (hu : (g.lock rq).lType = .unlck) (hr : r' = g.lock rq) (hs : (g.lock c).lStart = (g.lock rq).lStart)
    (he : (g.lock c).lEnd = (g.lock rq).lEnd) : AllClear g' rq := by
  intro a ha
  obtain ⟨ham, hav, hao⟩ := ha
  have hold : a ∈ g.active ∧ a ≠ c := by
    rcases (h.mem hw.inv).mp ham with ham | ham
    · simp [hids] at ham
    · exact ham
  have hlock := h.lock_old hw.inv hw.pending hold.1
  have hca := hw.mem_active (a := c) (by simp)
  rw [Walking.owner_new h, hlock] at hao
  rw [hw.vnode_new h, hlock] at hav
  have hap := hw.inv.apart a hold.1 c hca.1 hold.2 (hav.trans hca.2.symm) (hao.trans hc.symm)
  have htype := hw.inv.locked a hold.1
  rw [hlock, h.lock_rq, hr]
  unfold Apart LeftOf at *
  rw [hs, he] at hap
  rcases hap with hap | hap
  · exact .inl ⟨hap.1, fun hx => absurd (hx.trans hu) htype⟩
  · exact .inr ⟨hap.1, fun hx => absurd (hx.symm.trans hu) htype⟩

end

end Exchanging

end Walk

structure Walked (g' : Graph) (rq vp : Nat) (P : Graph → Prop) : Prop where
  inv : ListInv g'
  pending : Pending g' rq
  vnode : (g'.lock rq).lVnode = vp
  clear : AllClear g' rq
  kept : P g'

lemma executeNext_post {vp fuel : Nat} {post : List Nat} (hpost : ∀ a ∈ post, (g.lock a).lVnode ≠ vp) :
    executeNext vp rq fuel g post.head? = g := by
  cases post with
  | nil => rfl
  | cons a post =>
    simp only [head?_cons, executeNext]
    rw [if_neg (hpost a (by simp))]

lemma executeNext_walked {P : Graph → Prop} {g' : Graph} {vp fuel : Nat} {pre dn todo post post' : List Nat}
    (ih : ∀ {pre dn todo post : List Nat} {c : Nat}, Walking g' rq vp pre dn c todo post → todo.length < fuel →
      Walked (executeLoop vp rq fuel g' (some c)) rq vp P)
    (hi : ListInv g') (hp : Pending g' rq) (hv : (g'.lock rq).lVnode = vp) (hP : P g')
    (hseg : VpSegment g'.lock vp g'.active pre (dn ++ todo) post')
    (hbelow : ∀ d ∈ dn, (g'.lock d).owner = (g'.lock rq).owner → LeftOf (g'.lock d) (g'.lock rq))
    (hpost : ∀ a ∈ post, (g'.lock a).lVnode ≠ vp) (hf : todo.length < fuel + 1) :
    Walked (executeNext vp rq fuel g' (todo ++ post).head?) rq vp P := by
  cases todo with
  | nil =>
    rw [nil_append, executeNext_post hpost]
    refine ⟨hi, hp, hv, ?_, hP⟩
    intro a ha
    have hm : a ∈ dn ++ [] := hseg.mem_mid.mpr ⟨ha.1, ha.2.1.trans hv⟩
    rw [append_nil] at hm
    exact .inl (hbelow a hm ha.2.2)
  | cons t todo =>
    simp only [cons_append, head?_cons, executeNext]
    rw [if_pos (hseg.mid_key t (by simp))]
    apply ih ⟨hi, hp, hv, hseg, hbelow⟩
    simpa using hf

theorem executeLoop_walked {P : Graph → Prop} {vp : Nat}
    (hstep : ∀ g l, ListInv g → Pending g rq → Mine g rq l → P g → P (flkRelation g l rq).1) (fuel : Nat) :
    ∀ {g : Graph} {pre dn todo post : List Nat} {c : Nat}, Walking g rq vp pre dn c todo post →
      todo.length < fuel → P g → Walked (executeLoop vp rq fuel g (some c)) rq vp P := by
  induction fuel with
  | zero =>
    intro g pre dn todo post c hw hf
    omega
  | succ fuel ih =>
    intro g pre dn todo post c hw hf hP
    have hca := hw.mem_active (a := c) (by simp)
    have hsplit : VpSegment g.lock vp g.active pre ((dn ++ [c]) ++ todo) post := by simpa using hw.segment
    -- the turn that leaves the graph alone and goes on
    have hgo : ((g.lock c).owner = (g.lock rq).owner → LeftOf (g.lock c) (g.lock rq)) →
        Walked (executeNext vp rq fuel g (listNext c g.active)) rq vp P := by
      intro hc
      rw [hw.next]
      apply executeNext_walked (fun hw' hf' => ih hw' hf' hP) hw.inv hw.pending hw.vnode hP hsplit _
        hw.segment.post_key hf
      intro d hd ho
      rcases mem_append.mp hd with hd | hd
      · exact hw.below d hd ho
      · rw [mem_singleton] at hd
        exact hd ▸ hc (hd ▸ ho)
    by_cases ho : (g.lock c).owner = (g.lock rq).owner
    · have hmine : Mine g rq c := ⟨hca.1, hca.2.trans hw.vnode.symm, ho⟩
      have hP' := hstep g c hw.inv hw.pending hmine hP
      rw [executeLoop_mine ho]
      rcases flkRelation_spec hw.inv hw.pending hca.1 with ⟨hg, hcase⟩ | ⟨r', pieces, ids, hx, hstop⟩
      · rw [hg]
        rcases hcase with ⟨hs, hleft⟩ | ⟨hs, habove⟩
        · rw [hs]
          exact hgo fun _ => hleft
        · rw [hs]
          exact ⟨hw.inv, hw.pending, hw.vnode, hw.clear_of_above ho habove, hP⟩
      have hi' := hx.listInv hw.inv hw.pending hca.1
      have hp' := hx.pending hw.inv hw.pending
      have hv' := hw.vnode_new hx
      rcases hstop with hs | ⟨hs, hids, hu, hr, hst, hen⟩
      · rw [hs]
        by_cases hup : ∃ i ∈ ids, (g.lock rq).lEnd < ((flkRelation g c rq).1.lock i).lStart
        · obtain ⟨i, hi, habove⟩ := hup
          have hclear := hw.clear_of_piece ho hx hi habove
          have hnext := hw.next
          rw [executeNext_clear hi' hp' hclear hv' fuel]
          · exact ⟨hi', hp', hv', hclear, hP'⟩
          · intro k hk hkv
            have hka := listNext_mem hk
            have hkc : k ≠ c := by
              rintro rfl
              rw [hnext] at hk
              have hmem := mem_of_mem_head? hk
              rcases mem_append.mp hmem with hmem | hmem
              · exact hw.ne (by simp [hmem]) rfl
              · exact hw.segment.post_key k hmem hca.2
            exact (hx.mem hw.inv).mpr (.inr ⟨hka, hkc⟩)
        · have hlow : ∀ i ∈ ids, ((flkRelation g c rq).1.lock i).lStart = (g.lock c).lStart ∧
              ((flkRelation g c rq).1.lock i).lEnd < (g.lock rq).lStart := by
            intro i hi
            rcases (hx.replaced.piece _ (hx.piece hi)).2.2.2.2.2 with hpos | hpos
            · exact hpos
            · exact absurd ⟨i, hi, hpos⟩ hup
          obtain ⟨pre', dn', post', hseg, hdn⟩ := hw.passed hx hlow
          rw [hw.next]
          apply executeNext_walked (fun hw' hf' => ih hw' hf' hP') hi' hp' hv' hP' hseg _ _ hf
          · intro d hd hod
            rcases hdn d hd with hd | hd
            · exact hw.below_new ho hx hd hod
            · obtain ⟨ht, hs, -⟩ := hx.piece_below hw.pending hd
              exact ⟨by rw [hs]; exact (hlow d hd).2, fun he => absurd he ht⟩
          · intro a ha
            have haa : a ∈ g.active := by
              rw [hw.split]
              simp [ha]
            rw [hx.lock_old hw.inv hw.pending haa]
            exact hw.segment.post_key a ha
      · rw [hs]
        exact ⟨hi', hp', hv', hw.clear_of_release ho hx hids hu hr hst hen, hP'⟩
    · rw [executeLoop_other ho]
      exact hgo fun h => absurd h ho

theorem flkExecuteRequest_walked {P : Graph → Prop} (hi : ListInv g) (hp : Pending g rq)
    (hio : (g.lState rq).ioLock = false)
    (hstep : ∀ g l, ListInv g → Pending g rq → Mine g rq l → P g → P (flkRelation g l rq).1) (hP : P g) :
    ∃ g', Walked g' rq (g.lock rq).lVnode P ∧ flkExecuteRequest g rq =
      if (g'.lock rq).lType = .unlck then g' else flkInsertActiveLock g' rq := by
  obtain ⟨pre, mid, post, hseg, -, hv⟩ := hi.ok.segment (g.lock rq).lVnode
  cases mid with
  | nil =>
    refine ⟨g, ⟨hi, hp, rfl, ?_, hP⟩, ?_⟩
    · intro a ha
      simpa using hseg.mem_mid.mpr ⟨ha.1, ha.2.1⟩
    · simp only [flkExecuteRequest, hio, hv, head?_nil, Bool.false_eq_true, if_false]
  | cons first rest =>
    have hw : Walking g rq (g.lock rq).lVnode pre [] first rest post := ⟨hi, hp, rfl, hseg, by simp⟩
    have hlen : rest.length < 2 * g.active.length + 2 := by
      rw [hseg.split]
      simp only [length_append, length_cons]
      omega
    refine ⟨_, executeLoop_walked hstep _ hw hlen hP, ?_⟩
    simp only [flkExecuteRequest, hio, hv, head?_cons, Bool.false_eq_true, if_false]

lemma Walked.insert {P : Graph → Prop} {vp : Nat} (h : Walked g rq vp P) (ht : (g.lock rq).lType ≠ .unlck) :
    ListInv (flkInsertActiveLock g rq) := by
  have hmem := fun a => mem_flkInsertActiveLock h.inv.ok rq (a := a)
  refine ⟨flkInsertActiveLock_ok h.inv.ok h.pending.fresh, ?_, ?_, ?_, ?_⟩
  · intro a ha
    rw [flkInsertActiveLock_next]
    rcases (hmem a).mp ha with rfl | ha
    · exact h.pending.lt
    · exact h.inv.lt a ha
  · intro a ha
    rw [flkInsertActiveLock_lock]
    rcases (hmem a).mp ha with rfl | ha
    · exact h.pending.ranged
    · exact h.inv.ranged a ha
  · intro a ha
    rw [flkInsertActiveLock_lock]
    rcases (hmem a).mp ha with rfl | ha
    · exact ht
    · exact h.inv.locked a ha
  · intro a ha b hb hab hv ho
    rw [flkInsertActiveLock_lock] at hv ho ⊢
    rcases (hmem a).mp ha with hea | haa
    · rcases (hmem b).mp hb with heb | hbb
      · exact absurd (hea.trans heb.symm) hab
      · subst hea
        exact (h.clear b ⟨hbb, hv.symm, ho.symm⟩).symm
    · rcases (hmem b).mp hb with heb | hbb
      · subst heb
        exact h.clear a ⟨haa, hv, ho⟩
      · exact h.inv.apart a haa b hbb hab hv ho

theorem flkExecuteRequest_listInv (hi : ListInv g) (hp : Pending g rq) : ListInv (flkExecuteRequest g rq) := by
  by_cases hio : (g.lState rq).ioLock = true
  · simp only [flkExecuteRequest, hio, if_true]
    exact hi
  obtain ⟨g', hw, heq⟩ := flkExecuteRequest_walked (P := fun _ => True) hi hp (by simpa using hio)
    (fun _ _ _ _ _ _ => trivial) trivial
  rw [heq]
  split_ifs with ht
  · exact hw.inv
  · exact hw.insert ht

end Loop

end Solaris.Flock
