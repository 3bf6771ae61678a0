import Mathlib.Data.BitVec

/-!
# Share reservations

`v_shrlocks` has the shares of a vnode, the newest first. `add_share` looks through it for what a new share is at odds
with; `del_share` takes off the shares that a request is for. The bytes of an owner are a list, with `own_len` as its
length. `isreadonly` is an argument, as the file system may be mounted again.
-/

namespace Solaris.Share

open List

abbrev Mode := BitVec 16

def F_RDACC : Mode := 0x1

def F_WRACC : Mode := 0x2

def F_RWACC : Mode := 0x3

def F_NODNY : Mode := 0x0

def F_RDDNY : Mode := 0x1

def F_WRDNY : Mode := 0x2

def F_RWDNY : Mode := 0x3

def F_COMPAT : Mode := 0x8

/-- `struct shrlock` -/
structure ShrLock where
  access : Mode
  deny : Mode
  sysid : Int
  pid : Int
  owner : List (BitVec 8)
  deriving DecidableEq

inductive Errno
  | EINVAL
  | EAGAIN
  | EEXIST

namespace ShrLock

def SameOwner (s shr : ShrLock) : Prop := s.sysid = shr.sysid ∧ s.pid = shr.pid ∧ s.owner = shr.owner

def Compat (s : ShrLock) : Prop := s.deny &&& F_COMPAT ≠ 0

def Writes (s : ShrLock) : Prop := s.access &&& F_WRACC ≠ 0

def DeniesRead (s : ShrLock) : Prop := s.deny &&& F_RDDNY ≠ 0

/-- "Simple bitwise test" -/
def Clashes (shr s : ShrLock) : Prop := shr.access &&& s.deny ≠ 0 ∨ shr.deny &&& s.access ≠ 0

/-- "Sanity check to make sure we have valid options." -/
def Valid (shr : ShrLock) : Prop :=
  ¬(shr.access = 0 ∨ shr.access &&& ~~~(F_RDACC ||| F_WRACC ||| F_RWACC) ≠ 0) ∧
    ¬(shr.deny &&& ~~~(F_NODNY ||| F_RDDNY ||| F_WRDNY ||| F_RWDNY ||| F_COMPAT) ≠ 0)

variable (s shr : ShrLock)

instance : Decidable (s.SameOwner shr) := inferInstanceAs (Decidable (_ ∧ _))

instance : Decidable s.Compat := inferInstanceAs (Decidable (_ ≠ _))

instance : Decidable s.Writes := inferInstanceAs (Decidable (_ ≠ _))

instance : Decidable s.DeniesRead := inferInstanceAs (Decidable (_ ≠ _))

instance : Decidable (shr.Clashes s) := inferInstanceAs (Decidable (_ ∨ _))

instance : Decidable shr.Valid := inferInstanceAs (Decidable (_ ∧ _))

end ShrLock

section Add

variable (readonly : Bool) (shr : ShrLock)

/-- The loop of `add_share`: the error, or none when the share is taken. -/
def scanShares : List ShrLock → Option Errno
  | [] => none
  | s :: next =>
    if s.SameOwner shr ∧ s.access = shr.access ∧ s.deny = shr.deny then some .EEXIST
    -- "allow any F_COMPAT from the same process"
    else if s.SameOwner shr ∧ s.Compat ∧ shr.Compat ∧ (next = [] ∨ s.Writes) then none
    else if s.Compat ∧ next = [] then
      if ¬shr.Compat then
        if shr.Writes ∨ shr.DeniesRead ∨ s.Writes then some .EAGAIN
        else if readonly = true then none
        else some .EAGAIN
      else if shr.access = F_RDACC ∧ s.access = F_RDACC then none
      else some .EAGAIN
    -- "we don't know enough"
    else if s.Compat ∧ shr.Compat then scanShares next
    else if shr.Compat then
      if shr.Writes ∨ s.DeniesRead ∨ s.Writes then some .EAGAIN
      else if next = [] then
        if s.access = F_RDACC ∧ readonly = true then none else some .EAGAIN
      else scanShares next
    else if shr.Clashes s then some .EAGAIN
    else scanShares next

def ShrLock.stored : ShrLock := { shr with deny := if shr.Compat then F_COMPAT else shr.deny }

def addShare (l : List ShrLock) : Option Errno × List ShrLock :=
  if ¬shr.Valid then (some .EINVAL, l)
  else
    match scanShares readonly shr l with
    | some e => (some e, l)
    | none => (none, shr.stored :: l)

end Add

section Delete

/-- What the loop of `del_share` takes off. -/
def ShrLock.Matches (shr s : ShrLock) : Prop :=
  (shr.owner.length = s.owner.length ∧ shr.owner = s.owner.take shr.owner.length) ∨
    (shr.owner.length = 0 ∧ (shr.sysid = 0 ∧ shr.pid = s.pid ∨ shr.sysid ≠ 0 ∧ shr.sysid = s.sysid))

instance (shr s : ShrLock) : Decidable (shr.Matches s) := inferInstanceAs (Decidable (_ ∨ _))

/-- The loop of `del_share`: how many shares were found, and the list. -/
def delLoop (shr : ShrLock) : List ShrLock → Nat × List ShrLock
  | [] => (0, [])
  | s :: next =>
    let r := delLoop shr next
    if shr.Matches s then (r.1 + 1, r.2) else (r.1, s :: r.2)

def delShare (l : List ShrLock) (shr : ShrLock) : Option Errno × List ShrLock :=
  let r := delLoop shr l
  (if r.1 ≠ 0 then none else some .EINVAL, r.2)

/-- "Clean up all local share reservations" -/
def cleanshares (l : List ShrLock) (pid : Int) : List ShrLock :=
  if l = [] then l else (delShare l ⟨0, 0, 0, pid, []⟩).2

end Delete

section Released

variable {shr s : ShrLock} {l : List ShrLock}

lemma delLoop_kept (shr : ShrLock) (l : List ShrLock) : (delLoop shr l).2 = l.filter fun s => ¬shr.Matches s := by
  induction l with
  | nil => rfl
  | cons s next ih =>
    unfold delLoop
    by_cases hs : shr.Matches s
    · rw [if_pos hs, filter_cons_of_neg (by simpa using hs)]
      exact ih
    · rw [if_neg hs, filter_cons_of_pos (by simpa using hs)]
      exact congrArg (cons s) ih

lemma delLoop_found (shr : ShrLock) (l : List ShrLock) : (delLoop shr l).1 = 0 ↔ ∀ s ∈ l, ¬shr.Matches s := by
  induction l with
  | nil => exact iff_of_true rfl fun _ hs => absurd hs not_mem_nil
  | cons s next ih =>
    unfold delLoop
    rw [forall_mem_cons]
    by_cases hs : shr.Matches s
    · rw [if_pos hs]
      exact iff_of_false (Nat.succ_ne_zero _) fun hand => hand.1 hs
    · rw [if_neg hs, and_iff_right hs]
      exact ih

/-- What a request asks for: the shares with the sysid and the owner, or without an owner those of a process, or those
of a sysid. -/
def ShrLock.Asks (shr s : ShrLock) : Prop :=
  if shr.owner.length ≠ 0 then s.sysid = shr.sysid ∧ s.owner = shr.owner
  else if shr.sysid = 0 then s.pid = shr.pid
  else s.sysid = shr.sysid

instance (shr s : ShrLock) : Decidable (shr.Asks s) :=
  inferInstanceAs (Decidable (if shr.owner.length ≠ 0 then s.sysid = shr.sysid ∧ s.owner = shr.owner
    else if shr.sysid = 0 then s.pid = shr.pid else s.sysid = shr.sysid))

/-- The shares that are asked for go, the others stay in order, and the error says that none was. -/
structure DelExact (l : List ShrLock) (shr : ShrLock) : Prop where
  kept : (delShare l shr).2 = l.filter fun s => ¬shr.Asks s
  errno : (delShare l shr).1 = some .EINVAL ↔ ∀ s ∈ l, ¬shr.Asks s

/-- A share that has the owner bytes of a request, none included, but not its sysid, or not its pid when the request is
for a process. -/
def ShrLock.Stranger (shr s : ShrLock) : Prop :=
  s.owner = shr.owner ∧ if shr.owner.length = 0 ∧ shr.sysid = 0 then s.pid ≠ shr.pid else s.sysid ≠ shr.sysid

lemma ShrLock.matches_iff : shr.Matches s ↔ shr.Asks s ∨ shr.Stranger s := by
  unfold ShrLock.Matches ShrLock.Asks ShrLock.Stranger
  have hbytes : (shr.owner.length = s.owner.length ∧ shr.owner = s.owner.take shr.owner.length) ↔ s.owner = shr.owner := by
    constructor
    · rintro ⟨hlen, htake⟩
      rw [hlen, take_length] at htake
      exact htake.symm
    · intro heq
      rw [heq]
      exact ⟨rfl, take_length.symm⟩
  by_cases hlen : shr.owner.length = 0
  · have hno : ¬shr.owner.length ≠ 0 := not_not.mpr hlen
    rw [if_neg hno]
    by_cases hsys : shr.sysid = 0
    · rw [if_pos hsys, if_pos ⟨hlen, hsys⟩]
      tauto
    · have hnot : ¬(shr.owner.length = 0 ∧ shr.sysid = 0) := fun hand => hsys hand.2
      rw [if_neg hsys, if_neg hnot]
      tauto
  · have hnot : ¬(shr.owner.length = 0 ∧ shr.sysid = 0) := fun hand => hlen hand.1
    rw [if_pos hlen, if_neg hnot]
    tauto

lemma ShrLock.Stranger.not_asks (h : shr.Stranger s) : ¬shr.Asks s := by
  obtain ⟨howner, hother⟩ := h
  unfold ShrLock.Asks
  by_cases hlen : shr.owner.length = 0
  · rw [if_neg (not_not.mpr hlen)]
    by_cases hsys : shr.sysid = 0
    · rw [if_pos ⟨hlen, hsys⟩] at hother
      rw [if_pos hsys]
      exact hother
    · rw [if_neg fun hand => hsys hand.2] at hother
      rw [if_neg hsys]
      exact hother
  · rw [if_neg fun hand => hlen hand.1] at hother
    rw [if_pos hlen]
    exact fun hand => hother hand.1

theorem delShare_exact_iff (l : List ShrLock) (shr : ShrLock) : DelExact l shr ↔ ∀ s ∈ l, ¬shr.Stranger s := by
  constructor
  · intro hexact s hs hstranger
    have hmem : s ∈ (delShare l shr).2 := by
      rw [hexact.kept]
      exact mem_filter.mpr ⟨hs, decide_eq_true hstranger.not_asks⟩
    change s ∈ (delLoop shr l).2 at hmem
    rw [delLoop_kept] at hmem
    have hno : ¬shr.Matches s := of_decide_eq_true (mem_filter.mp hmem).2
    exact hno (ShrLock.matches_iff.mpr (.inr hstranger))
  · intro hnone
    have hiff : ∀ s ∈ l, (shr.Matches s ↔ shr.Asks s) := by
      intro s hs
      rw [ShrLock.matches_iff, or_iff_left (hnone s hs)]
    constructor
    · change (delLoop shr l).2 = _
      rw [delLoop_kept]
      apply filter_congr
      intro s hs
      exact decide_eq_decide.mpr (not_congr (hiff s hs))
    · have hfound := delLoop_found shr l
      have hsame : (∀ s ∈ l, ¬shr.Matches s) ↔ ∀ s ∈ l, ¬shr.Asks s :=
        forall₂_congr fun s hs => not_congr (hiff s hs)
      rw [← hsame, ← hfound]
      unfold delShare
      dsimp only
      by_cases h0 : (delLoop shr l).1 = 0
      · rw [if_neg (not_not.mpr h0)]
        exact iff_of_true rfl h0
      · rw [if_pos h0]
        exact iff_of_false (fun heq => nomatch heq) h0

/-- Two remote hosts with the same owner bytes: releasing the share of one takes off that of the other. -/
theorem delShare_not_exact : ¬∀ (l : List ShrLock) (shr : ShrLock), DelExact l shr := by
  intro hall
  have hkept := (hall [⟨F_RDACC, F_NODNY, 2, 0, [7]⟩, ⟨F_RDACC, F_NODNY, 1, 0, [7]⟩] ⟨0, 0, 1, 0, [7]⟩).kept
  revert hkept
  decide

theorem cleanshares_mem_iff (l : List ShrLock) (pid : Int) (s : ShrLock) :
    s ∈ cleanshares l pid ↔ s ∈ l ∧ s.pid ≠ pid ∧ s.owner ≠ [] := by
  have hmatch : (⟨0, 0, 0, pid, []⟩ : ShrLock).Matches s ↔ s.pid = pid ∨ s.owner = [] := by
    rw [ShrLock.matches_iff]
    change s.pid = pid ∨ (s.owner = [] ∧ s.pid ≠ pid) ↔ _
    tauto
  have hkept : s ∈ (delShare l ⟨0, 0, 0, pid, []⟩).2 ↔ s ∈ l ∧ s.pid ≠ pid ∧ s.owner ≠ [] := by
    change s ∈ (delLoop _ l).2 ↔ _
    rw [delLoop_kept, mem_filter, decide_eq_true_iff, hmatch, not_or]
  unfold cleanshares
  split_ifs with hnil
  · rw [hnil]
    exact iff_of_false not_mem_nil fun hand => not_mem_nil hand.1
  · exact hkept

end Released

end Solaris.Share
