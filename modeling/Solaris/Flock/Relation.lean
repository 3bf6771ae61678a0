import Solaris.Flock.Lists

/-!
# `flk_relation` on the ranges

What comparing an active lock with a request of the same owner makes of the two ranges.
-/

namespace Solaris.Flock

section Ranges

open List

def LockDescriptor.Has (l : LockDescriptor) (x : Nat) : Prop := l.lStart ≤ x ∧ x ≤ l.lEnd

/-- `l1` lies below `l2`, and not next to it if they have the same type. -/
def LeftOf (l1 l2 : LockDescriptor) : Prop :=
  l1.lEnd < l2.lStart ∧ (l1.lType = l2.lType → l1.lEnd + 1 < l2.lStart)

def Apart (l1 l2 : LockDescriptor) : Prop := LeftOf l1 l2 ∨ LeftOf l2 l1

lemma Apart.symm {l1 l2 : LockDescriptor} (h : Apart l1 l2) : Apart l2 l1 := Or.symm h

lemma Apart.not_both {l1 l2 : LockDescriptor} (h : Apart l1 l2) {x : Nat} (h1 : l1.Has x) (h2 : l2.Has x) :
    False := by
  unfold LockDescriptor.Has at h1 h2
  rcases h with h | h
  · have := h.1; omega
  · have := h.1; omega

structure SameButRange (l1 l2 : LockDescriptor) : Prop where
  vnode : l1.lVnode = l2.lVnode
  type : l1.lType = l2.lType
  pid : l1.lPid = l2.lPid
  sysid : l1.lSysid = l2.lSysid

lemma SameButRange.refl (l : LockDescriptor) : SameButRange l l := ⟨rfl, rfl, rfl, rfl⟩

lemma SameButRange.trans {l1 l2 l3 : LockDescriptor} (h : SameButRange l1 l2) (h' : SameButRange l2 l3) :
    SameButRange l1 l3 :=
  ⟨h.vnode.trans h'.vnode, h.type.trans h'.type, h.pid.trans h'.pid, h.sysid.trans h'.sysid⟩

lemma SameButRange.owner {l1 l2 : LockDescriptor} (h : SameButRange l1 l2) : l1.owner = l2.owner := by
  simp [LockDescriptor.owner, h.pid, h.sysid]

lemma sameOwner_iff {l1 l2 : LockDescriptor} : sameOwner l1 l2 = true ↔ l1.owner = l2.owner := by
  simp [sameOwner, LockDescriptor.owner]

lemma lockEffect_staySame {l r : LockDescriptor} (hl : l.lType ≠ .unlck) :
    lockEffect l r = .staySame ↔ l.lType = r.lType := by
  unfold lockEffect
  cases hlt : l.lType <;> cases hrt : r.lType <;> simp_all

lemma lockEffect_unlock {l r : LockDescriptor} : lockEffect l r = .unlock ↔ r.lType = .unlck := by
  unfold lockEffect
  cases r.lType <;> cases l.lType <;> simp

lemma offPred_eq {x : Nat} (h : 0 < x) (hx : x < 2 ^ 64) : offPred x = x - 1 := by
  unfold offPred
  omega

lemma offSucc_eq {x : Nat} (h : x + 1 < 2 ^ 64) : offSucc x = x + 1 := by
  unfold offSucc
  omega

/-- The outcome of replacing `l` by `pieces` and the request `r'`. -/
structure Replaced (l r r' : LockDescriptor) (pieces : List LockDescriptor) : Prop where
  same : SameButRange r' r
  ranged : r'.Ranged
  has : ∀ x, r'.Has x ↔ r.Has x ∨ (l.lType = r.lType ∧ l.Has x)
  piece : ∀ p ∈ pieces, SameButRange p l ∧ p.Ranged ∧ l.lStart ≤ p.lStart ∧ p.lEnd ≤ l.lEnd ∧
    p.lType ≠ r.lType ∧ ((p.lStart = l.lStart ∧ p.lEnd < r.lStart) ∨ r.lEnd < p.lStart)
  cover : ∀ x, l.Has x → ¬r'.Has x → ∃ p ∈ pieces, p.Has x
  ordered : pieces.Pairwise LeftOf
  unlock : r.lType = .unlck → r' = r

section Cases

variable {l r : LockDescriptor}

lemma Replaced.merge (hl : l.Ranged) (hr : r.Ranged) (ht : l.lType = r.lType) (hu : l.lType ≠ .unlck)
    (a b : Nat) (ha : a = min l.lStart r.lStart) (hb : b = max l.lEnd r.lEnd)
    (hmeet : l.lStart ≤ r.lEnd + 1 ∧ r.lStart ≤ l.lEnd + 1) :
    Replaced l r { r with lStart := a, lEnd := b } [] := by
  unfold LockDescriptor.Ranged at hl hr
  refine ⟨⟨rfl, rfl, rfl, rfl⟩, ?_, ?_, by simp, ?_, List.Pairwise.nil, fun h => absurd (ht.trans h) hu⟩
  · simp only [LockDescriptor.Ranged]
    omega
  · intro x
    simp only [LockDescriptor.Has, ht, true_and]
    omega
  · intro x hx hn
    simp only [LockDescriptor.Has] at hx hn
    omega

lemma Replaced.covered (hr : r.Ranged) (h1 : r.lStart ≤ l.lStart) (h2 : l.lEnd ≤ r.lEnd) :
    Replaced l r r [] := by
  refine ⟨SameButRange.refl r, hr, ?_, by simp, ?_, List.Pairwise.nil, fun _ => rfl⟩
  · intro x
    simp only [LockDescriptor.Has]
    omega
  · intro x hx hn
    simp only [LockDescriptor.Has] at hx hn
    omega

lemma Replaced.right (hl : l.Ranged) (hr : r.Ranged) (ht : l.lType ≠ r.lType) (h1 : r.lStart ≤ l.lStart)
    (h2 : r.lEnd < l.lEnd) (h3 : l.lStart ≤ r.lEnd) :
    Replaced l r r [{ l with lStart := offSucc r.lEnd }] := by
  unfold LockDescriptor.Ranged at hl
  have hs : offSucc r.lEnd = r.lEnd + 1 := offSucc_eq (by omega)
  refine ⟨SameButRange.refl r, hr, ?_, ?_, ?_, pairwise_singleton _ _, fun _ => rfl⟩
  · intro x
    simp [ht]
  · intro p hp
    simp only [mem_singleton] at hp
    subst hp
    exact ⟨⟨rfl, rfl, rfl, rfl⟩, ⟨by simp only; omega, hl.2⟩, by simp only; omega, le_refl _, ht,
      .inr (by simp only; omega)⟩
  · intro x hx hn
    simp only [LockDescriptor.Has] at hx hn
    refine ⟨_, mem_singleton.mpr rfl, ?_⟩
    simp only [LockDescriptor.Has]
    omega

lemma Replaced.left (hr : r.Ranged) (ht : l.lType ≠ r.lType) (h1 : l.lStart < r.lStart)
    (h2 : l.lEnd ≤ r.lEnd) (h3 : r.lStart ≤ l.lEnd) :
    Replaced l r r [{ l with lEnd := offPred r.lStart }] := by
  have hlt : r.lStart < 2 ^ 64 := lt_of_le_of_lt hr.1 hr.2
  have hs : offPred r.lStart = r.lStart - 1 := offPred_eq (by omega) hlt
  refine ⟨SameButRange.refl r, hr, ?_, ?_, ?_, pairwise_singleton _ _, fun _ => rfl⟩
  · intro x
    simp [ht]
  · intro p hp
    simp only [mem_singleton] at hp
    subst hp
    exact ⟨⟨rfl, rfl, rfl, rfl⟩, ⟨by simp only; omega, by simp only; omega⟩, le_refl _, by simp only; omega, ht,
      .inl ⟨rfl, by simp only; omega⟩⟩
  · intro x hx hn
    simp only [LockDescriptor.Has] at hx hn
    refine ⟨_, mem_singleton.mpr rfl, ?_⟩
    simp only [LockDescriptor.Has]
    omega

lemma Replaced.both (hl : l.Ranged) (hr : r.Ranged) (ht : l.lType ≠ r.lType) (h1 : l.lStart < r.lStart)
    (h2 : r.lEnd < l.lEnd) :
    Replaced l r r [{ l with lEnd := offPred r.lStart }, { l with lStart := offSucc r.lEnd }] := by
  unfold LockDescriptor.Ranged at hl hr
  have hs : offPred r.lStart = r.lStart - 1 := offPred_eq (by omega) (by omega)
  have hs' : offSucc r.lEnd = r.lEnd + 1 := offSucc_eq (by omega)
  refine ⟨SameButRange.refl r, hr, ?_, ?_, ?_, ?_, fun _ => rfl⟩
  · intro x
    simp [ht]
  · intro p hp
    simp only [mem_cons, not_mem_nil, or_false] at hp
    rcases hp with rfl | rfl
    · exact ⟨⟨rfl, rfl, rfl, rfl⟩, ⟨by simp only; omega, by simp only; omega⟩, le_refl _, by simp only; omega, ht,
        .inl ⟨rfl, by simp only; omega⟩⟩
    · exact ⟨⟨rfl, rfl, rfl, rfl⟩, ⟨by simp only; omega, hl.2⟩, by simp only; omega, le_refl _, ht,
        .inr (by simp only; omega)⟩
  · intro x hx hn
    simp only [LockDescriptor.Has] at hx hn
    by_cases hxl : x < r.lStart
    · refine ⟨_, mem_cons_self, ?_⟩
      simp only [LockDescriptor.Has]
      omega
    · refine ⟨_, mem_cons_of_mem _ (mem_singleton.mpr rfl), ?_⟩
      simp only [LockDescriptor.Has]
      omega
  · simp only [pairwise_cons, mem_singleton, forall_eq, not_mem_nil, false_implies, implies_true,
      List.Pairwise.nil, and_true, LeftOf]
    omega

/-- What each outcome of the comparison says about the two ranges. -/
def Relation.Meets (l r : LockDescriptor) : Relation → Prop
  | .apart false => LeftOf l r
  | .apart true => LeftOf r l
  | .release => r.lType = .unlck ∧ l.lStart = r.lStart ∧ l.lEnd = r.lEnd
  | .recompute r' pieces => Replaced l r r' pieces

lemma relationCases_meets (hl : l.Ranged) (hr : r.Ranged) (hu : l.lType ≠ .unlck) :
    (relationCases l r).Meets l r := by
  have hsame := lockEffect_staySame (r := r) hu
  have hl' := hl
  have hr' := hr
  unfold LockDescriptor.Ranged at hl' hr'
  simp only [relationCases, hsame]
  by_cases h1 : l.lEnd < r.lStart
  · have hp : offPred r.lStart = r.lStart - 1 := offPred_eq (by omega) (by omega)
    rw [if_pos h1, hp]
    split_ifs with h2
    · exact Replaced.merge hl hr h2.2 hu _ _ (by omega) (by omega) (by omega)
    · refine ⟨h1, fun ht => ?_⟩
      have hne : l.lEnd ≠ r.lStart - 1 := fun h => h2 ⟨h, ht⟩
      omega
  rw [if_neg h1]
  by_cases h2 : l.lStart > r.lEnd
  · have hp : offPred l.lStart = l.lStart - 1 := offPred_eq (by omega) (by omega)
    rw [if_pos h2, hp]
    split_ifs with h3
    · exact Replaced.merge hl hr h3.2 hu _ _ (by omega) (by omega) (by omega)
    · refine ⟨h2, fun ht => ?_⟩
      have hne : r.lEnd ≠ l.lStart - 1 := fun h => h3 ⟨h, ht.symm⟩
      omega
  by_cases ht : l.lType = r.lType
  · split_ifs
    all_goals first
      | exact Replaced.merge hl hr ht hu _ _ (by omega) (by omega) (by omega)
      | skip
    rename_i hru
    rw [Classical.not_not, lockEffect_unlock] at hru
    exact absurd (ht.trans hru) hu
  split_ifs
  all_goals first
    | exact Replaced.both hl hr ht (by omega) (by omega)
    | exact Replaced.right hl hr ht (by omega) (by omega) (by omega)
    | exact Replaced.left hr ht (by omega) (by omega) (by omega)
    | exact Replaced.covered hr (by omega) (by omega)
    | skip
  rename_i hru
  rw [Classical.not_not, lockEffect_unlock] at hru
  exact ⟨hru, by omega, by omega⟩

end Cases

lemma relationCases_apart {l r : LockDescriptor} (hl : l.Ranged) (hr : r.Ranged) (hu : l.lType ≠ .unlck)
    (h : Apart l r) : ∃ stop, relationCases l r = .apart stop := by
  have hsame := lockEffect_staySame (r := r) hu
  unfold LockDescriptor.Ranged at hl hr
  simp only [relationCases, hsame]
  rcases h with h | h
  · have hp : offPred r.lStart = r.lStart - 1 := offPred_eq (by have := h.1; omega) (by omega)
    rw [if_pos h.1, hp, if_neg]
    · exact ⟨_, rfl⟩
    · rintro ⟨he, ht⟩
      have := h.2 ht
      omega
  have hp : offPred l.lStart = l.lStart - 1 := offPred_eq (by have := h.1; omega) (by omega)
  rw [if_neg (by have := h.1; omega), if_pos h.1, hp, if_neg]
  · exact ⟨_, rfl⟩
  · rintro ⟨he, ht⟩
    have := h.2 ht.symm
    omega

end Ranges

/-!
## What the operations leave alone

Waking dependents, dropping edges and recomputing dependencies touch edges, grants and the
process graph, never a descriptor or a list.
-/

section Frame

open List

structure SameLists (g' g : Graph) : Prop where
  lock : g'.lock = g.lock
  next : g'.next = g.next
  active : g'.active = g.active
  sleeping : g'.sleeping = g.sleeping
  vFilocks : g'.vFilocks = g.vFilocks

lemma SameLists.refl (g : Graph) : SameLists g g := ⟨rfl, rfl, rfl, rfl, rfl⟩

lemma SameLists.trans {g1 g2 g3 : Graph} (h : SameLists g1 g2) (h' : SameLists g2 g3) : SameLists g1 g3 :=
  ⟨h.lock.trans h'.lock, h.next.trans h'.next, h.active.trans h'.active, h.sleeping.trans h'.sleeping,
    h.vFilocks.trans h'.vFilocks⟩

lemma SameLists.foldl {f : Graph → Nat → Graph} (h : ∀ g a, SameLists (f g a) g) (xs : List Nat) (g : Graph) :
    SameLists (xs.foldl f g) g := by
  induction xs generalizing g with
  | nil => exact SameLists.refl g
  | cons a xs ih =>
    exact (ih (f g a)).trans (h g a)

lemma SameLists.activeOk {g g' : Graph} (h : SameLists g' g) : g'.ActiveOk ↔ g.ActiveOk := by
  unfold Graph.ActiveOk
  rw [h.lock, h.active, h.vFilocks]

section

variable (g : Graph) (l : Nat)

include g l

lemma setState_same (f : LockState → LockState) : SameLists (g.setState l f) g :=
  ⟨rfl, rfl, rfl, rfl, rfl⟩

lemma grantIfNotBlocked_same : SameLists (grantIfNotBlocked g l) g := by
  unfold grantIfNotBlocked
  split
  · exact setState_same g l _
  · exact SameLists.refl g

lemma flkWakeup_same (adjListRemove : Bool) : SameLists (flkWakeup g l adjListRemove) g := by
  refine SameLists.foldl (fun g lck => ?_) _ g
  have hg := grantIfNotBlocked_same { (if adjListRemove then { g with deps := g.deps.adjListRemove lck l } else g)
    with ps := flkUpdateProcGraph g.lock g.ps lck l true } lck
  cases adjListRemove
  · exact ⟨hg.lock, hg.next, hg.active, hg.sleeping, hg.vFilocks⟩
  · exact ⟨hg.lock, hg.next, hg.active, hg.sleeping, hg.vFilocks⟩

lemma dropInEdges_same : SameLists (dropInEdges g l) g := by
  refine SameLists.foldl (fun g f => ?_) _ g
  exact ⟨rfl, rfl, rfl, rfl, rfl⟩

lemma interruptWakeup_same : SameLists (interruptWakeup g l) g := setState_same g l _

lemma cancelWakeup_same : SameLists (cancelWakeup g l) g := setState_same g l _

end

/-- What `getPieces` returns: descriptors numbered from `next` on, one for each piece. -/
structure GotPieces (g g' : Graph) (pieces : List LockDescriptor) (ids : List Nat) : Prop where
  ids_eq : ids = List.range' g.next pieces.length
  next_eq : g'.next = g.next + pieces.length
  map_lock : ids.map g'.lock = pieces
  lock_of : ∀ a < g.next, g'.lock a = g.lock a
  active : g'.active = g.active
  sleeping : g'.sleeping = g.sleeping
  vFilocks : g'.vFilocks = g.vFilocks

lemma getPieces_got (g : Graph) (src : Nat) (pieces : List LockDescriptor) :
    GotPieces g (getPieces g src pieces).2 pieces (getPieces g src pieces).1 := by
  induction pieces generalizing g with
  | nil => exact ⟨rfl, rfl, rfl, fun _ _ => rfl, rfl, rfl, rfl⟩
  | cons p ps ih =>
    have h := ih (flkGetLock g p {} (g.ps.pvertex src)).2
    refine ⟨?_, ?_, ?_, ?_, h.active, h.sleeping, h.vFilocks⟩
    · simp only [getPieces, length_cons, range'_succ]
      rw [h.ids_eq]
      rfl
    · simp only [getPieces, length_cons]
      rw [h.next_eq]
      simp only [flkGetLock]
      omega
    · simp only [getPieces, map_cons]
      rw [h.map_lock]
      rw [h.lock_of _ (by simp [flkGetLock])]
      simp [flkGetLock]
    · intro a ha
      simp only [getPieces]
      rw [h.lock_of a (by simp only [flkGetLock]; omega)]
      simp only [flkGetLock]
      rw [Function.update_of_ne (by omega)]

lemma GotPieces.mem_ids {g g' : Graph} {pieces : List LockDescriptor} {ids : List Nat} (h : GotPieces g g' pieces ids)
    {i : Nat} : i ∈ ids ↔ g.next ≤ i ∧ i < g'.next := by
  rw [h.ids_eq, h.next_eq, mem_range'_1]

lemma GotPieces.nodup {g g' : Graph} {pieces : List LockDescriptor} {ids : List Nat} (h : GotPieces g g' pieces ids) :
    ids.Nodup := by
  rw [h.ids_eq]
  exact nodup_range'

end Frame

end Solaris.Flock
