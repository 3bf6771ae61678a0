import Solaris.Flock.Execute

/-!
# POSIX byte ranges

The abstract view of the active locks: for each vnode, owner and byte the type that is
held. Executing a request sets the bytes of its range and nothing else.
-/

namespace Solaris.Flock

open List

abbrev ByteLocks := Nat → Owner → Nat → Option LockType

instance (l : LockDescriptor) (x : Nat) : Decidable (l.Has x) := inferInstanceAs (Decidable (_ ∧ _))

/-- The lock type held by `o` on byte `x` of `vp`. -/
def byteLock (g : Graph) : ByteLocks := fun vp o x =>
  (g.active.find? (fun a => (g.lock a).lVnode = vp ∧ (g.lock a).owner = o ∧ (g.lock a).Has x)).map
    (fun a => (g.lock a).lType)

/-- What `fcntl` says a request does. -/
def posixApply (m : ByteLocks) (r : LockDescriptor) : ByteLocks := fun vp o x =>
  if vp = r.lVnode ∧ o = r.owner ∧ r.Has x then (if r.lType = .unlck then none else some r.lType) else m vp o x

def Holds (g : Graph) (vp : Nat) (o : Owner) (x : Nat) (ty : LockType) : Prop :=
  ∃ a ∈ g.active, (g.lock a).lVnode = vp ∧ (g.lock a).owner = o ∧ (g.lock a).Has x ∧ (g.lock a).lType = ty

def SameOthers (g' g : Graph) (r : LockDescriptor) : Prop :=
  ∀ a d, (d.lVnode ≠ r.lVnode ∨ d.owner ≠ r.owner) →
    (a ∈ g'.active ∧ g'.lock a = d ↔ a ∈ g.active ∧ g.lock a = d)

variable {g g' : Graph} {rq l : Nat} {vp x : Nat} {o : Owner} {ty ty' : LockType}

lemma ListInv.holds_unique (hi : ListInv g) (h : Holds g vp o x ty) (h' : Holds g vp o x ty') : ty = ty' := by
  obtain ⟨a, ha, hav, hao, hax, hat⟩ := h
  obtain ⟨b, hb, hbv, hbo, hbx, hbt⟩ := h'
  by_cases hab : a = b
  · subst hab
    exact hat.symm.trans hbt
  · have hap := hi.apart a ha b hb hab (hav.trans hbv.symm) (hao.trans hbo.symm)
    exact absurd hbx fun hbx => hap.not_both hax hbx

lemma byteLock_eq_some (hi : ListInv g) : byteLock g vp o x = some ty ↔ Holds g vp o x ty := by
  have hsound : ∀ t, byteLock g vp o x = some t → Holds g vp o x t := by
    intro t ht
    unfold byteLock at ht
    rw [Option.map_eq_some_iff] at ht
    obtain ⟨a, ha, hat⟩ := ht
    have hprop := find?_some ha
    simp only [decide_eq_true_eq] at hprop
    exact ⟨a, mem_of_find?_eq_some ha, hprop.1, hprop.2.1, hprop.2.2, hat⟩
  constructor
  · exact hsound ty
  · intro h
    cases hb : byteLock g vp o x with
    | none =>
      obtain ⟨a, ha, hav, hao, hax, hat⟩ := h
      unfold byteLock at hb
      rw [Option.map_eq_none_iff, find?_eq_none] at hb
      exact absurd (decide_eq_true ⟨hav, hao, hax⟩) (hb a ha)
    | some t => rw [hi.holds_unique h (hsound t hb)]

/-- How far the walk has come from `g₀`: the request may have grown over bytes that had
its type, and outside its range nothing has changed. -/
structure Partway (g₀ g : Graph) (rq : Nat) : Prop where
  same : SameButRange (g.lock rq) (g₀.lock rq)
  grown : ∀ x, (g₀.lock rq).Has x → (g.lock rq).Has x
  merged : ∀ x, (g.lock rq).Has x → (g₀.lock rq).Has x ∨
    Holds g₀ (g₀.lock rq).lVnode (g₀.lock rq).owner x (g₀.lock rq).lType
  outside : ∀ vp o x ty, ¬(vp = (g₀.lock rq).lVnode ∧ o = (g₀.lock rq).owner ∧ (g.lock rq).Has x) →
    (Holds g vp o x ty ↔ Holds g₀ vp o x ty)
  others : SameOthers g g₀ (g₀.lock rq)

lemma Partway.start (g : Graph) (rq : Nat) : Partway g g rq :=
  ⟨SameButRange.refl _, fun _ h => h, fun _ h => .inl h, fun _ _ _ _ _ => Iff.rfl, fun _ _ _ => Iff.rfl⟩

section Turn

variable {g₀ : Graph} {r' : LockDescriptor} {pieces : List LockDescriptor} {ids : List Nat}

lemma Exchanged.holds (hi : ListInv g) (hp : Pending g rq) (hl : Mine g rq l)
    (h : Exchanged g g' l rq r' pieces ids)
    (hx : ¬(vp = (g.lock rq).lVnode ∧ o = (g.lock rq).owner ∧ r'.Has x)) :
    Holds g' vp o x ty ↔ Holds g vp o x ty := by
  constructor
  · rintro ⟨a, ha, hav, hao, hax, hat⟩
    rcases (h.mem hi).mp ha with ha | ha
    · obtain ⟨hs, -, hst, hen, -⟩ := h.replaced.piece _ (h.piece ha)
      refine ⟨l, hl.1, hs.vnode.symm.trans hav, hs.owner.symm.trans hao, ?_, hs.type.symm.trans hat⟩
      unfold LockDescriptor.Has at hax ⊢
      omega
    · rw [h.lock_old hi hp ha.1] at hav hao hax hat
      exact ⟨a, ha.1, hav, hao, hax, hat⟩
  · rintro ⟨a, ha, hav, hao, hax, hat⟩
    by_cases hal : a = l
    · subst hal
      have hn : ¬r'.Has x := fun hr => hx ⟨hav.symm.trans hl.2.1, hao.symm.trans hl.2.2, hr⟩
      obtain ⟨p, hpm, hpx⟩ := h.replaced.cover x hax hn
      have hs := (h.replaced.piece p hpm).1
      rw [← h.map_lock, mem_map] at hpm
      obtain ⟨i, hi', rfl⟩ := hpm
      exact ⟨i, (h.mem hi).mpr (.inl hi'), hs.vnode.trans hav, hs.owner.trans hao, hpx, hs.type.trans hat⟩
    have hold := h.lock_old hi hp ha
    refine ⟨a, (h.mem hi).mpr (.inr ⟨ha, hal⟩), ?_, ?_, ?_, ?_⟩
    · rw [hold]; exact hav
    · rw [hold]; exact hao
    · rw [hold]; exact hax
    · rw [hold]; exact hat

lemma Exchanged.sameOthers (hi : ListInv g) (hp : Pending g rq) (hl : Mine g rq l)
    (h : Exchanged g g' l rq r' pieces ids) : SameOthers g' g (g.lock rq) := by
  intro a d hd
  constructor
  · rintro ⟨ha, rfl⟩
    rcases (h.mem hi).mp ha with ha | ha
    · have hs := (h.replaced.piece _ (h.piece ha)).1
      rw [hs.vnode, hs.owner, hl.2.1, hl.2.2] at hd
      simp at hd
    · exact ⟨ha.1, (h.lock_old hi hp ha.1).symm⟩
  · rintro ⟨ha, rfl⟩
    have hal : a ≠ l := by
      rintro rfl
      rw [hl.2.1, hl.2.2] at hd
      simp at hd
    exact ⟨(h.mem hi).mpr (.inr ⟨ha, hal⟩), h.lock_old hi hp ha⟩

lemma Partway.exchange (hpart : Partway g₀ g rq) (hi : ListInv g) (hp : Pending g rq) (hl : Mine g rq l)
    (h : Exchanged g g' l rq r' pieces ids) : Partway g₀ g' rq := by
  have hvn := hpart.same.vnode
  have how := hpart.same.owner
  have hty := hpart.same.type
  have hsup : ∀ x, (g.lock rq).Has x → r'.Has x := fun x hx => (h.replaced.has x).mpr (.inl hx)
  refine ⟨?_, ?_, ?_, ?_, ?_⟩
  · rw [h.lock_rq]
    exact h.replaced.same.trans hpart.same
  · intro x hx
    rw [h.lock_rq]
    exact hsup x (hpart.grown x hx)
  · intro x hx
    rw [h.lock_rq, h.replaced.has] at hx
    by_cases hr : (g.lock rq).Has x
    · exact hpart.merged x hr
    · rcases hx with hx | ⟨ht, hx⟩
      · exact absurd hx hr
      · right
        rw [← hpart.outside _ _ _ _ (fun hc => hr hc.2.2)]
        exact ⟨l, hl.1, hl.2.1.trans hvn, hl.2.2.trans how, hx, ht.trans hty⟩
  · intro vp o x ty hx
    rw [h.lock_rq] at hx
    have hx' : ¬(vp = (g.lock rq).lVnode ∧ o = (g.lock rq).owner ∧ r'.Has x) := by
      rw [hvn, how]
      exact hx
    rw [h.holds hi hp hl hx']
    exact hpart.outside vp o x ty fun hc => hx ⟨hc.1, hc.2.1, hsup x hc.2.2⟩
  · intro a d hd
    have h1 := h.sameOthers hi hp hl a d (by rw [hvn, how]; exact hd)
    exact h1.trans (hpart.others a d hd)

lemma Partway.turn (hpart : Partway g₀ g rq) (hi : ListInv g) (hp : Pending g rq) (hl : Mine g rq l) :
    Partway g₀ (flkRelation g l rq).1 rq := by
  rcases flkRelation_spec hi hp hl.1 with ⟨hg, -⟩ | ⟨r', pieces, ids, hx, -⟩
  · rw [hg]
    exact hpart
  · exact hpart.exchange hi hp hl hx

end Turn

lemma Walked.free {P : Graph → Prop} (h : Walked g rq vp P) (hx : (g.lock rq).Has x) :
    ¬Holds g vp (g.lock rq).owner x ty := by
  rintro ⟨a, ha, hav, hao, hax, -⟩
  exact (h.clear a ⟨ha, hav.trans h.vnode.symm, hao⟩).not_both hax hx

lemma holds_insert (hok : g.ActiveOk) :
    Holds (flkInsertActiveLock g rq) vp o x ty ↔ Holds g vp o x ty ∨
      ((g.lock rq).lVnode = vp ∧ (g.lock rq).owner = o ∧ (g.lock rq).Has x ∧ (g.lock rq).lType = ty) := by
  unfold Holds
  rw [flkInsertActiveLock_lock]
  constructor
  · rintro ⟨a, ha, hrest⟩
    rcases (mem_flkInsertActiveLock hok rq).mp ha with rfl | ha
    · exact .inr hrest
    · exact .inl ⟨a, ha, hrest⟩
  · rintro (⟨a, ha, hrest⟩ | hrest)
    · exact ⟨a, (mem_flkInsertActiveLock hok rq).mpr (.inr ha), hrest⟩
    · exact ⟨rq, (mem_flkInsertActiveLock hok rq).mpr (.inl rfl), hrest⟩

lemma flkExecuteRequest_holds (hi : ListInv g) (hp : Pending g rq) (hio : (g.lState rq).ioLock = false) :
    Holds (flkExecuteRequest g rq) vp o x ty ↔
      if vp = (g.lock rq).lVnode ∧ o = (g.lock rq).owner ∧ (g.lock rq).Has x then
        (g.lock rq).lType ≠ .unlck ∧ (g.lock rq).lType = ty
      else Holds g vp o x ty := by
  obtain ⟨g', hw, heq⟩ := flkExecuteRequest_walked (P := fun g' => Partway g g' rq) hi hp hio
    (fun _ _ hi hp hm hpart => hpart.turn hi hp hm) (Partway.start g rq)
  have hpart := hw.kept
  have hty := hpart.same.type
  have hvn := hpart.same.vnode
  have how := hpart.same.owner
  have hholds : Holds (flkExecuteRequest g rq) vp o x ty ↔ Holds g' vp o x ty ∨ ((g.lock rq).lType ≠ .unlck ∧
      (g'.lock rq).lVnode = vp ∧ (g'.lock rq).owner = o ∧ (g'.lock rq).Has x ∧ (g'.lock rq).lType = ty) := by
    rw [heq, hty]
    by_cases ht : (g.lock rq).lType = .unlck
    · simp [ht]
    · rw [if_neg ht, holds_insert hw.inv.ok, hty]
      simp [ht]
  rw [hholds, hvn, how, hty]
  by_cases hin : vp = (g.lock rq).lVnode ∧ o = (g.lock rq).owner ∧ (g'.lock rq).Has x
  · obtain ⟨rfl, rfl, hx⟩ := hin
    have hnone : ¬Holds g' (g.lock rq).lVnode (g.lock rq).owner x ty := how ▸ hw.free hx
    by_cases hx0 : (g.lock rq).Has x
    · simp [hnone, hx, hx0]
    have hmerged : Holds g (g.lock rq).lVnode (g.lock rq).owner x (g.lock rq).lType := by
      rcases hpart.merged x hx with h | h
      · exact absurd h hx0
      · exact h
    have hu : (g.lock rq).lType ≠ .unlck := by
      obtain ⟨a, ha, -, -, -, hat⟩ := hmerged
      rw [← hat]
      exact hi.locked a ha
    have hiff : (g.lock rq).lType = ty ↔ Holds g (g.lock rq).lVnode (g.lock rq).owner x ty := by
      constructor
      · intro he
        rw [← he]
        exact hmerged
      · intro he
        exact hi.holds_unique hmerged he
    simp [hnone, hx, hx0, hu, hiff]
  · rw [hpart.outside vp o x ty hin]
    have hx0 : ¬(vp = (g.lock rq).lVnode ∧ o = (g.lock rq).owner ∧ (g.lock rq).Has x) :=
      fun hc => hin ⟨hc.1, hc.2.1, hpart.grown x hc.2.2⟩
    rw [if_neg hx0]
    constructor
    · rintro (h | ⟨-, h1, h2, h3, -⟩)
      · exact h
      · exact absurd ⟨h1.symm, h2.symm, h3⟩ hin
    · intro h
      exact .inl h

lemma flkExecuteRequest_others (hi : ListInv g) (hp : Pending g rq) (hio : (g.lState rq).ioLock = false) :
    SameOthers (flkExecuteRequest g rq) g (g.lock rq) := by
  obtain ⟨g', hw, heq⟩ := flkExecuteRequest_walked (P := fun g' => Partway g g' rq) hi hp hio
    (fun _ _ hi hp hm hpart => hpart.turn hi hp hm) (Partway.start g rq)
  have hpart := hw.kept
  intro a d hd
  rw [← hpart.others a d hd, heq]
  by_cases ht : (g'.lock rq).lType = .unlck
  · rw [if_pos ht]
  rw [if_neg ht, flkInsertActiveLock_lock, mem_flkInsertActiveLock hw.inv.ok]
  constructor
  · rintro ⟨rfl | ha, rfl⟩
    · rw [hpart.same.vnode, hpart.same.owner] at hd
      simp at hd
    · exact ⟨ha, rfl⟩
  · rintro ⟨ha, hda⟩
    exact ⟨.inr ha, hda⟩

/-- Executing a request is the POSIX update of the byte ranges. A request that only checks
the status is not recorded, hence `hio`. -/
theorem flkExecuteRequest_refines_posix (g : Graph) (rq : Nat) (hi : ListInv g) (hp : Pending g rq)
    (hio : (g.lState rq).ioLock = false) :
    byteLock (flkExecuteRequest g rq) = posixApply (byteLock g) (g.lock rq) ∧
      SameOthers (flkExecuteRequest g rq) g (g.lock rq) ∧ ListInv (flkExecuteRequest g rq) := by
  have hi' := flkExecuteRequest_listInv hi hp
  refine ⟨?_, flkExecuteRequest_others hi hp hio, hi'⟩
  funext vp o x
  apply Option.ext
  intro ty
  rw [byteLock_eq_some hi', flkExecuteRequest_holds hi hp hio]
  unfold posixApply
  by_cases hin : vp = (g.lock rq).lVnode ∧ o = (g.lock rq).owner ∧ (g.lock rq).Has x
  · rw [if_pos hin, if_pos hin]
    by_cases hu : (g.lock rq).lType = .unlck
    · simp [hu]
    · simp [hu]
  · rw [if_neg hin, if_neg hin, byteLock_eq_some hi]

def requestOnly (d : LockDescriptor) (state : LockState) : Graph := (flkGetLock Graph.empty d state none).2

lemma requestOnly_listInv (d : LockDescriptor) (state : LockState) : ListInv (requestOnly d state) := by
  refine ⟨⟨nodup_nil, fun vp => ⟨[], [], [], ⟨rfl, ?_, ?_, ?_⟩, List.Pairwise.nil, rfl⟩⟩, ?_, ?_, ?_, ?_⟩
  all_goals
    intro a ha
    exact absurd ha not_mem_nil

def writeLock : LockDescriptor := ⟨0, .wrlck, 0, 10, 1, 0⟩

/-- Owner 1 reads `0..9` and writes `10..19` and `30..39`, and owner 2 reads `50..59`. Owner 1 asks for a write lock on
`5..29`: the lock it reads with is cut, the next is covered, and the one behind touches the request. -/
def owners : Graph :=
  { Graph.empty with
    lock := fun i => [⟨0, .rdlck, 0, 9, 1, 0⟩, ⟨0, .wrlck, 10, 19, 1, 0⟩, ⟨0, .wrlck, 30, 39, 1, 0⟩,
      ⟨0, .rdlck, 50, 59, 2, 0⟩].getD i ⟨0, .wrlck, 5, 29, 1, 0⟩
    next := 5
    active := [0, 1, 2, 3]
    vFilocks := fun vp => if vp = 0 then some 0 else none }

lemma owners_listInv : ListInv owners := by
  refine ⟨⟨by decide, fun vp => ?_⟩, by decide, ?_, by decide, ?_⟩
  · have hvnode : ∀ a ∈ owners.active, (owners.lock a).lVnode = 0 := by decide
    by_cases hvp : vp = 0
    · subst hvp
      exact ⟨[], owners.active, [], ⟨rfl, hvnode, by simp, by simp⟩, by unfold startLe; decide, rfl⟩
    · exact ⟨owners.active, [], [], Lib.Segment.empty fun a ha => (hvnode a ha).trans_ne (Ne.symm hvp), .nil, if_neg hvp⟩
  · unfold LockDescriptor.Ranged
    decide
  · unfold Apart LeftOf
    decide

theorem flkExecuteRequest_refines_posix_owners :
    byteLock (flkExecuteRequest owners 4) = posixApply (byteLock owners) (owners.lock 4) ∧
      SameOthers (flkExecuteRequest owners 4) owners (owners.lock 4) ∧ ListInv (flkExecuteRequest owners 4) :=
  flkExecuteRequest_refines_posix owners 4 owners_listInv ⟨by decide, by decide, by decide⟩ rfl

/-- The read lock is cut, and the two write locks have become one with the request. -/
example : (flkExecuteRequest owners 4).active.map (fun a => ((flkExecuteRequest owners 4).lock a).lStart) = [0, 5, 50] ∧
    (flkExecuteRequest owners 4).active.map (fun a => ((flkExecuteRequest owners 4).lock a).lEnd) = [4, 39, 59] := by
  decide

/-- An `IO_LOCK` request leaves no lock behind. -/
theorem flkExecuteRequest_ioLock_not_posix :
    ListInv (requestOnly writeLock { ioLock := true }) ∧ Pending (requestOnly writeLock { ioLock := true }) 0 ∧
      byteLock (flkExecuteRequest (requestOnly writeLock { ioLock := true }) 0) ≠
        posixApply (byteLock (requestOnly writeLock { ioLock := true })) writeLock := by
  refine ⟨requestOnly_listInv _ _, ⟨by decide, by decide, by decide⟩, ?_⟩
  intro h
  have hbyte := congrFun (congrFun (congrFun h 0) (1, 0)) 5
  revert hbyte
  decide

end Solaris.Flock
