import Solaris.Lib.Search

/-!
# Lock descriptors

The data of `sys/flock_impl.h`: one descriptor for each record lock, and the macros that
compare two of them.
-/

namespace Solaris.Flock

inductive LockType where
  | rdlck
  | wrlck
  | unlck
  deriving DecidableEq

/-- What a `struct lock_descriptor` says about its lock. The owner is the pair
`l_flock.l_pid`, `l_flock.l_sysid`; offsets are 64-bit unsigned. -/
structure LockDescriptor where
  lVnode : Nat
  lType : LockType
  lStart : Nat
  lEnd : Nat
  lPid : Int
  lSysid : Int
  deriving DecidableEq

/-- The bits of `l_state` that steer the code: `IO_LOCK`, `WILLING_TO_SLEEP_LOCK`,
`LOCKMGR_LOCK`, `GRANTED_LOCK`, `CANCELLED_LOCK` and `INTERRUPTED_LOCK`. -/
structure LockState where
  ioLock : Bool := false
  willingToSleep : Bool := false
  lockmgr : Bool := false
  granted : Bool := false
  cancelled : Bool := false
  interrupted : Bool := false

abbrev Owner := Int × Int

def LockDescriptor.owner (l : LockDescriptor) : Owner := (l.lPid, l.lSysid)

def sameOwner (l1 l2 : LockDescriptor) : Bool := l1.lPid == l2.lPid && l1.lSysid == l2.lSysid

def overlap (l1 l2 : LockDescriptor) : Bool :=
  (l1.lStart ≤ l2.lStart && l2.lStart ≤ l1.lEnd) || (l2.lStart ≤ l1.lStart && l1.lStart ≤ l2.lEnd)

def blocks (l1 l2 : LockDescriptor) : Bool :=
  !sameOwner l1 l2 && (l1.lType == .wrlck || l2.lType == .wrlck) && overlap l1 l2

def covers (l1 l2 : LockDescriptor) : Bool := l1.lStart ≤ l2.lStart && l2.lEnd ≤ l1.lEnd

/-- `x - 1` and `x + 1` on `u_offset_t`. -/
def offPred (x : Nat) : Nat := (x + (2 ^ 64 - 1)) % 2 ^ 64

def offSucc (x : Nat) : Nat := (x + 1) % 2 ^ 64

/-- The effect of executing a request on an existing lock. -/
inductive LockEffect where
  | unlock
  | downgrade
  | upgrade
  | staySame
  deriving DecidableEq

def lockEffect (lock request : LockDescriptor) : LockEffect :=
  if request.lType = .unlck then .unlock
  else if request.lType = .rdlck ∧ lock.lType = .wrlck then .downgrade
  else if request.lType = .wrlck ∧ lock.lType = .rdlck then .upgrade
  else .staySame

/-- What the comparison in `flk_relation` decides: return at once (with 0 or 1), release
exactly the lock, or replace the lock by `pieces` and the changed `request`. -/
inductive Relation where
  | apart (stop : Bool)
  | release
  | recompute (request : LockDescriptor) (pieces : List LockDescriptor)

def relationCases (lock request : LockDescriptor) : Relation :=
  let effect := lockEffect lock request
  if lock.lEnd < request.lStart then
    if lock.lEnd = offPred request.lStart ∧ effect = .staySame then
      .recompute { request with lStart := lock.lStart } []
    else .apart false
  else if lock.lStart > request.lEnd then
    if request.lEnd = offPred lock.lStart ∧ effect = .staySame then
      .recompute { request with lEnd := lock.lEnd } []
    else .apart true
  else if request.lEnd < lock.lEnd then
    if request.lStart > lock.lStart then
      if effect = .staySame then .recompute { request with lStart := lock.lStart, lEnd := lock.lEnd } []
      else .recompute request [{ lock with lEnd := offPred request.lStart },
        { lock with lStart := offSucc request.lEnd }]
    else if request.lStart < lock.lStart then
      if effect = .staySame then .recompute { request with lEnd := lock.lEnd } []
      else .recompute request [{ lock with lStart := offSucc request.lEnd }]
    else
      if effect = .staySame then .recompute { request with lStart := lock.lStart, lEnd := lock.lEnd } []
      else .recompute request [{ lock with lStart := offSucc request.lEnd }]
  else if request.lEnd > lock.lEnd then
    if request.lStart > lock.lStart then
      if effect = .staySame then .recompute { request with lStart := lock.lStart } []
      else .recompute request [{ lock with lEnd := offPred request.lStart }]
    else .recompute request []
  else
    if request.lStart > lock.lStart then
      if effect = .staySame then .recompute { request with lStart := lock.lStart } []
      else .recompute request [{ lock with lEnd := offPred request.lStart }]
    else if request.lStart < lock.lStart then .recompute request []
    else if effect ≠ .unlock then .recompute request []
    else .release

end Solaris.Flock
