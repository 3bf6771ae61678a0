import Mathlib.Data.BitVec
import Solaris.Flock.Descriptor

/-!
# Ranges of locks and their flock structures

A lock covers the offsets from `l_start` to `l_end`; a `flock64_t` gives a start and a signed length, where the length
zero means to the end. The end is `MAXEND` for local requests and all ones for the lock manager. `create_flock` and
`report_blocker` turn the range of a lock into a flock again, and take all ones of the 32-bit `u_off_t` for the end.
-/

namespace Solaris.Flock

abbrev Offset := BitVec 64

/-- `flock64_t`; the offsets are signed. -/
structure Flock64 where
  lType : LockType
  lWhence : Int
  lStart : Offset
  lLen : Offset
  lSysid : Int
  lPid : Int

def einval : Nat := 22

/-- The largest value of `offset_t`. -/
def maxEnd : Offset := BitVec.ofNat 64 (2 ^ 63 - 1)

/-- All ones of `u_off_t`, an unsigned long of 32 bits. -/
def maxUOffT : Offset := BitVec.ofNat 64 (2 ^ 32 - 1)

def maxUOffsetT : Offset := BitVec.ofNat 64 (2 ^ 64 - 1)

/-- The size comes from `VOP_GETATTR`, which may fail. -/
def flkConvertLockData (vaSize : Except Nat Offset) (flp : Flock64) (offset max : Offset) :
    Except Nat (Offset × Offset) := do
  let start ←
    if flp.lWhence = 0 then .ok flp.lStart
    else if flp.lWhence = 1 then .ok (flp.lStart + offset)
    else if flp.lWhence = 2 then vaSize.map (flp.lStart + ·)
    else .error einval
  if flp.lLen = 0 then .ok (start, max)
  else if 0 < flp.lLen.toInt then .ok (start, start + (flp.lLen - 1))
  else .ok (start + flp.lLen + 1, start)

def flkCheckLockData (start stop max : Offset) : Except Nat Unit :=
  if max.toNat < start.toNat ∨ (max.toNat < stop.toNat ∧ stop ≠ maxUOffT) then .error einval
  else if stop.toNat < start.toNat then .error einval
  else .ok ()

def lockRequest (vp : Nat) (lckdat : Flock64) (range : Offset × Offset) : LockDescriptor where
  lVnode := vp
  lType := lckdat.lType
  lStart := range.1.toNat
  lEnd := range.2.toNat
  lPid := lckdat.lPid
  lSysid := lckdat.lSysid

/-- The range of a lock manager request, as `reclock` reads it under `RCMDLCK`. -/
def rcmdRange (lckdat : Flock64) : Offset × Offset :=
  (lckdat.lStart, if lckdat.lLen = 0 then maxUOffsetT else lckdat.lStart + (lckdat.lLen - 1))

/-- The part of `reclock` that makes the lock of a local request. -/
def localRequest (vp : Nat) (vaSize : Except Nat Offset) (lckdat : Flock64) (offset : Offset) :
    Except Nat LockDescriptor := do
  let range ← flkConvertLockData vaSize lckdat offset maxEnd
  flkCheckLockData range.1 range.2 maxEnd
  .ok (lockRequest vp lckdat range)

def createFlock (lp : LockDescriptor) : Flock64 where
  lType := lp.lType
  lWhence := 0
  lStart := BitVec.ofNat 64 lp.lStart
  lLen := if lp.lEnd = maxUOffT.toNat then 0 else BitVec.ofNat 64 lp.lEnd - BitVec.ofNat 64 lp.lStart + 1
  lSysid := lp.lSysid
  lPid := lp.lPid

/-- The flock of a request that `blocker` blocks. -/
def reportBlocker (blocker : LockDescriptor) (lockmgr : Bool) : Flock64 :=
  let flrp : Flock64 := ⟨blocker.lType, 0, BitVec.ofNat 64 blocker.lStart,
    BitVec.ofNat 64 blocker.lEnd - BitVec.ofNat 64 blocker.lStart + 1, blocker.lSysid, blocker.lPid⟩
  if lockmgr then
    if blocker.lEnd = maxUOffT.toNat then { flrp with lLen := 0 } else flrp
  else if maxEnd.toNat < blocker.lStart then { flrp with lStart := maxEnd, lLen := 0 }
  else if maxEnd.toNat ≤ blocker.lEnd then { flrp with lLen := 0 }
  else flrp

variable {vp : Nat} {vaSize : Except Nat Offset} {flp : Flock64} {offset start stop : Offset} {lp : LockDescriptor}

lemma flkCheckLockData_ok_iff :
    flkCheckLockData start stop maxEnd = .ok () ↔ start.toNat ≤ stop.toNat ∧ stop.toNat ≤ maxEnd.toNat := by
  have hsmall : maxUOffT.toNat ≤ maxEnd.toNat := by decide
  unfold flkCheckLockData
  split
  · next h =>
    refine ⟨fun hok => absurd hok (by simp), ?_⟩
    omega
  · next h =>
    have hstop : stop.toNat ≤ maxEnd.toNat := by
      by_contra hgt
      obtain ⟨-, hne⟩ := not_or.mp h
      have heq : stop = maxUOffT := by
        by_contra hne'
        exact hne ⟨by omega, hne'⟩
      rw [heq] at hgt
      omega
    split
    · next hlt =>
      refine ⟨fun hok => absurd hok (by simp), ?_⟩
      omega
    · exact ⟨fun _ => ⟨by omega, hstop⟩, fun _ => rfl⟩

lemma localRequest_ok_iff :
    localRequest vp vaSize flp offset = .ok lp ↔ ∃ range, flkConvertLockData vaSize flp offset maxEnd = .ok range ∧
      flkCheckLockData range.1 range.2 maxEnd = .ok () ∧ lockRequest vp flp range = lp := by
  unfold localRequest
  cases flkConvertLockData vaSize flp offset maxEnd with
  | error e => simp [bind, Except.bind]
  | ok range =>
    cases hc : flkCheckLockData range.1 range.2 maxEnd with
    | error e => simp [bind, Except.bind, hc]
    | ok u => simp [bind, Except.bind, hc]

lemma localRequest_range (h : localRequest vp vaSize flp offset = .ok lp) :
    lp.lVnode = vp ∧ lp.lStart ≤ lp.lEnd ∧ lp.lEnd < 2 ^ 63 := by
  obtain ⟨range, -, hcheck, rfl⟩ := localRequest_ok_iff.mp h
  obtain ⟨hle, hmax⟩ := flkCheckLockData_ok_iff.mp hcheck
  have hmax' : maxEnd.toNat = 2 ^ 63 - 1 := rfl
  refine ⟨rfl, hle, ?_⟩
  change range.2.toNat < 2 ^ 63
  omega

lemma flkConvertLockData_absolute (hw : flp.lWhence = 0) :
    flkConvertLockData vaSize flp offset maxEnd =
      if flp.lLen = 0 then .ok (flp.lStart, maxEnd)
      else if 0 < flp.lLen.toInt then .ok (flp.lStart, flp.lStart + (flp.lLen - 1))
      else .ok (flp.lStart + flp.lLen + 1, flp.lStart) := by
  unfold flkConvertLockData
  rw [if_pos hw]
  rfl

lemma createFlock_resubmitted (hle : lp.lStart ≤ lp.lEnd) (hmax : lp.lEnd < 2 ^ 63)
    (hend : lp.lEnd ≠ 2 ^ 32 - 1) (hwhole : ¬(lp.lStart = 0 ∧ lp.lEnd = 2 ^ 63 - 1)) :
    localRequest lp.lVnode vaSize (createFlock lp) offset = .ok lp := by
  have hlen : (createFlock lp).lLen = BitVec.ofNat 64 lp.lEnd - BitVec.ofNat 64 lp.lStart + 1 := if_neg hend
  have hval : (createFlock lp).lLen.toNat = lp.lEnd - lp.lStart + 1 := by
    have hone : (1 : Offset).toNat = 1 := rfl
    rw [hlen]
    simp only [BitVec.toNat_add, BitVec.toNat_sub, BitVec.toNat_ofNat, hone]
    omega
  have hne : (createFlock lp).lLen ≠ 0 := by
    intro hz
    rw [hz] at hval
    exact absurd hval (by simp)
  have hpos : 0 < (createFlock lp).lLen.toInt := by
    rw [BitVec.toInt_eq_toNat_of_lt (by omega)]
    omega
  have hstop : (createFlock lp).lStart + ((createFlock lp).lLen - 1) = BitVec.ofNat 64 lp.lEnd := by
    rw [hlen]
    change BitVec.ofNat 64 lp.lStart + _ = _
    rw [add_sub_cancel_right, add_sub_cancel]
  have hstart : (BitVec.ofNat 64 lp.lStart).toNat = lp.lStart := by
    rw [BitVec.toNat_ofNat]
    omega
  have hstop' : (BitVec.ofNat 64 lp.lEnd).toNat = lp.lEnd := by
    rw [BitVec.toNat_ofNat]
    omega
  refine localRequest_ok_iff.mpr ⟨(BitVec.ofNat 64 lp.lStart, BitVec.ofNat 64 lp.lEnd), ?_, ?_, ?_⟩
  · rw [flkConvertLockData_absolute rfl, if_neg hne, if_pos hpos, hstop]
    rfl
  · apply flkCheckLockData_ok_iff.mpr
    rw [hstart, hstop']
    have hmax' : maxEnd.toNat = 2 ^ 63 - 1 := rfl
    omega
  · unfold lockRequest createFlock
    rw [hstart, hstop']

lemma createFlock_widened (hend : lp.lEnd = 2 ^ 32 - 1) :
    localRequest lp.lVnode vaSize (createFlock lp) offset ≠ .ok lp := by
  intro h
  obtain ⟨range, hconv, -, hreq⟩ := localRequest_ok_iff.mp h
  have hlen : (createFlock lp).lLen = 0 := if_pos hend
  rw [flkConvertLockData_absolute rfl, if_pos hlen] at hconv
  rw [← Except.ok.inj hconv] at hreq
  have hlast : maxEnd.toNat = lp.lEnd := congrArg LockDescriptor.lEnd hreq
  rw [hend] at hlast
  exact absurd hlast (by decide)

lemma createFlock_refused (hstart : lp.lStart = 0) (hend : lp.lEnd = 2 ^ 63 - 1) :
    localRequest lp.lVnode vaSize (createFlock lp) offset ≠ .ok lp := by
  intro h
  obtain ⟨range, hconv, hcheck, -⟩ := localRequest_ok_iff.mp h
  have hlen : (createFlock lp).lLen = BitVec.ofNat 64 (2 ^ 63) := by
    unfold createFlock
    rw [hstart, hend]
    rfl
  have hzero : (createFlock lp).lStart = 0 := by
    unfold createFlock
    rw [hstart]
    rfl
  rw [flkConvertLockData_absolute rfl, hlen, hzero, if_neg (by decide), if_neg (by decide)] at hconv
  rw [← Except.ok.inj hconv] at hcheck
  exact absurd hcheck (by decide)

lemma rcmdRange_reportBlocker (hle : lp.lStart ≤ lp.lEnd) (hmax : lp.lEnd < 2 ^ 64) :
    rcmdRange (reportBlocker lp true) = (BitVec.ofNat 64 lp.lStart, BitVec.ofNat 64 lp.lEnd) ↔
      lp.lEnd ≠ 2 ^ 32 - 1 := by
  unfold reportBlocker
  rw [if_pos rfl]
  have hmark : maxUOffT.toNat = 2 ^ 32 - 1 := rfl
  rw [hmark]
  split_ifs with hend
  · refine iff_of_false (fun heq => ?_) (not_not.mpr hend)
    have hlast : maxUOffsetT = BitVec.ofNat 64 lp.lEnd := congrArg Prod.snd heq
    rw [hend] at hlast
    exact absurd hlast (by decide)
  refine iff_of_true ?_ hend
  unfold rcmdRange
  by_cases hzero : BitVec.ofNat 64 lp.lEnd - BitVec.ofNat 64 lp.lStart + 1 = 0
  · -- the lock covers every offset, and all ones is its end
    have hval := congrArg BitVec.toNat hzero
    have hone : (1 : Offset).toNat = 1 := rfl
    have hz : (0 : Offset).toNat = 0 := rfl
    simp only [BitVec.toNat_add, BitVec.toNat_sub, BitVec.toNat_ofNat, hone, hz] at hval
    have hlast : lp.lEnd = 2 ^ 64 - 1 := by omega
    rw [if_pos hzero, hlast]
    rfl
  · rw [if_neg hzero, add_sub_cancel_right, add_sub_cancel]

/-- A range comes back through `create_flock` unless it ends at the last offset of 32 bits or is the whole of the signed
offsets, and through `report_blocker` unless it ends at the last offset of 32 bits. -/
theorem export_keeps_range_iff (vp : Nat) (vaSize vaSize' : Except Nat Offset) (flp : Flock64)
    (offset offset' : Offset) (lp blocker : LockDescriptor) :
    (localRequest vp vaSize flp offset = .ok lp →
      (localRequest vp vaSize' (createFlock lp) offset' = .ok lp ↔
        lp.lEnd ≠ 2 ^ 32 - 1 ∧ ¬(lp.lStart = 0 ∧ lp.lEnd = 2 ^ 63 - 1))) ∧
    (blocker.lStart ≤ blocker.lEnd → blocker.lEnd < 2 ^ 64 →
      (rcmdRange (reportBlocker blocker true) = (BitVec.ofNat 64 blocker.lStart, BitVec.ofNat 64 blocker.lEnd) ↔
        blocker.lEnd ≠ 2 ^ 32 - 1)) := by
  refine ⟨?_, rcmdRange_reportBlocker⟩
  intro h
  obtain ⟨rfl, hle, hmax⟩ := localRequest_range h
  constructor
  · intro hback
    exact ⟨fun hend => createFlock_widened hend hback, fun hwhole => createFlock_refused hwhole.1 hwhole.2 hback⟩
  · rintro ⟨hend, hwhole⟩
    exact createFlock_resubmitted hle hmax hend hwhole

def sampleLock : LockDescriptor := ⟨0, .wrlck, 10, 19, 7, 0⟩

theorem export_keeps_range_sample :
    localRequest 0 (.ok 0) ⟨.wrlck, 0, 10, 10, 0, 7⟩ 0 = .ok sampleLock ∧
      localRequest 0 (.ok 0) (createFlock sampleLock) 0 = .ok sampleLock ∧
      rcmdRange (reportBlocker sampleLock true) = (10, 19) := by
  have hkeeps := export_keeps_range_iff 0 (.ok 0) (.ok 0) ⟨.wrlck, 0, 10, 10, 0, 7⟩ 0 0 sampleLock sampleLock
  have hmade : localRequest 0 (.ok 0) ⟨.wrlck, 0, 10, 10, 0, 7⟩ 0 = .ok sampleLock := by decide
  exact ⟨hmade, (hkeeps.1 hmade).mpr (by decide), (hkeeps.2 (by decide) (by decide)).mpr (by decide)⟩

/-- The lock of a whole file is refused when it comes back, a lock up to offset 2 ^ 32 - 1 becomes one to the end, and
such a blocker is reported to the lock manager as one to the end. -/
theorem export_changes_range :
    (localRequest 0 (.ok 0) ⟨.wrlck, 0, 0, 0, 0, 7⟩ 0 = .ok ⟨0, .wrlck, 0, 2 ^ 63 - 1, 7, 0⟩ ∧
      localRequest 0 (.ok 0) (createFlock ⟨0, .wrlck, 0, 2 ^ 63 - 1, 7, 0⟩) 0 = .error einval) ∧
    (localRequest 0 (.ok 0) ⟨.wrlck, 0, 10, BitVec.ofNat 64 (2 ^ 32 - 10), 0, 7⟩ 0 =
        .ok ⟨0, .wrlck, 10, 2 ^ 32 - 1, 7, 0⟩ ∧
      localRequest 0 (.ok 0) (createFlock ⟨0, .wrlck, 10, 2 ^ 32 - 1, 7, 0⟩) 0 =
        .ok ⟨0, .wrlck, 10, 2 ^ 63 - 1, 7, 0⟩) ∧
    rcmdRange (reportBlocker ⟨0, .wrlck, 10, 2 ^ 32 - 1, 7, 0⟩ true) = (10, maxUOffsetT) := by
  decide

end Solaris.Flock
