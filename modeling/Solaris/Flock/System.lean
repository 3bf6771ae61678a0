import Solaris.Flock.Graph

/-!
# The locking system

All lock graphs and the process graph they share. One event is one section under a
graph's `gp_mutex`.
-/

namespace Solaris.Flock

/-- The arguments of a lock request once `reclock` has made the range canonical. -/
structure Request where
  desc : LockDescriptor
  ioLock : Bool := false
  willingToSleep : Bool := false
  lockmgr : Bool := false

def Request.state (r : Request) : LockState :=
  { ioLock := r.ioLock, willingToSleep := r.willingToSleep, lockmgr := r.lockmgr }

/-- What `reclock` promises of the range: `l_end >= l_start`, both 64-bit. -/
def LockDescriptor.Ranged (l : LockDescriptor) : Prop := l.lStart ≤ l.lEnd ∧ l.lEnd < 2 ^ 64

instance (l : LockDescriptor) : Decidable l.Ranged := inferInstanceAs (Decidable (_ ∧ _))

/-- After `flk_process_request` or the wait has succeeded, an `IO_LOCK` request wakes its
dependents and is freed. -/
def reclockEnd (ioLock : Bool) (request : Nat) (r : Graph × Outcome) : Graph × Outcome :=
  if ioLock = true ∧ r.2 = .done then (flkWakeup r.1 request true, r.2) else r

/-- `reclock` for `F_RDLCK` and `F_WRLCK` from `mutex_enter(&gp->gp_mutex)` on. -/
def reclockLock (g : Graph) (r : Request) : Graph × Outcome :=
  let p := flkGetLock g r.desc r.state none
  reclockEnd r.ioLock p.1 (flkProcessRequest p.2 p.1)

def interruptWakeup (g : Graph) (l : Nat) : Graph := g.setState l (fun s => { s with interrupted := true })

def cancelWakeup (g : Graph) (l : Nat) : Graph := g.setState l (fun s => { s with cancelled := true })

/-- `flk_canceled`: the sleeping lock that matches the request exactly. -/
def flkCanceled (g : Graph) (r : LockDescriptor) : Option Nat :=
  (g.sleepVp r.lVnode).find? (fun l =>
    sameOwner (g.lock l) r && (g.lock l).lStart == r.lStart && (g.lock l).lEnd == r.lEnd)

/-- `reclock` for `F_UNLCK`. -/
def reclockUnlock (g : Graph) (r : Request) : Graph :=
  match if r.lockmgr then flkCanceled g r.desc else none with
  | some l => interruptWakeup g l
  | none =>
    let p := flkGetLock g { r.desc with lType := .unlck } r.state none
    flkExecuteRequest p.2 p.1

/-- `flk_wait_execute_request` after `wait_for_lock` has returned. -/
def flkWaitEnd (g : Graph) (request : Nat) : Graph × Outcome :=
  let st := g.lState request
  if g.lockmgrStatus ≠ .up ∧ st.lockmgr ∧ !st.granted then (flkCancelSleepingLock g request, .failed .enolck)
  else if st.interrupted then (flkCancelSleepingLock g request, .failed .eintr)
  else if st.cancelled then (flkCancelSleepingLock g request, .failed .ebadf)
  else
    let g := g.setState request (fun s => { s with granted := false })
    (flkExecuteRequest { g with sleeping := g.sleeping.erase request } request, .done)

/-- The thread of a sleeping lock runs again; `signal` is a signal seen by `cv_wait_sig`. -/
def resume (g : Graph) (request : Nat) (signal : Bool) : Graph × Outcome :=
  let g := if signal then interruptWakeup g request else g
  reclockEnd (g.lState request).ioLock request (flkWaitEnd g request)

def releaseActive (g : Graph) (l : Nat) : Graph := flkWakeup (flkDeleteActiveLock g l) l true

/-- The part of `flk_delete_locks_by_sysid` that is done on one graph. -/
def flkDeleteLocksBySysid (g : Graph) (sysid : Int) : Graph :=
  let mine := fun l => (g.lock l).lSysid == sysid
  let g := (g.sleeping.filter mine).foldl interruptWakeup g
  (g.active.filter mine).foldl releaseActive g

/-- `cleanlocks`; `pid = none` is `IGN_PID`. The active locks are all deleted before any
dependent is woken, the last deleted first. -/
def cleanlocks (g : Graph) (vp : Nat) (pid : Option Int) (sysid : Int) : Graph :=
  let mine := fun l => pid.all (fun p => (g.lock l).lPid == p) && (g.lock l).lSysid == sysid
  let g := ((g.sleepVp vp).filter mine).foldl cancelWakeup g
  let ls := (g.activeVp vp).filter mine
  let g := ls.foldl flkDeleteActiveLock g
  ls.reverse.foldl (fun g l => flkWakeup g l true) g

/-- `flk_set_lockmgr_status` on one graph. -/
def setLockmgrStatus (g : Graph) (status : LockmgrStatus) : Graph :=
  let g := { g with lockmgrStatus := status }
  match status with
  | .up => g
  | .wakeupSleepers => (g.sleeping.filter (fun l => (g.lState l).lockmgr)).foldl interruptWakeup g
  | .down => (g.active.filter (fun l => (g.lState l).lockmgr)).foldl releaseActive g

inductive Event where
  | lock (r : Request)
  | unlock (r : Request)
  | resume (request : Nat) (signal : Bool)
  | deleteBySysid (sysid : Int)
  | clean (vp : Nat) (pid : Option Int) (sysid : Int)
  | lockmgr (status : LockmgrStatus)

/-- What the callers promise: a canonical range, a lock type, and a thread that runs only
when its lock is asleep and `wait_for_lock` may return. -/
def Event.Enabled (g : Graph) : Event → Prop
  | .lock r => r.desc.Ranged ∧ r.desc.lType ≠ .unlck
  | .unlock r => r.desc.Ranged ∧ r.ioLock = false
  | .resume l signal => l ∈ g.sleeping ∧
      (signal = true ∨ (g.lState l).granted ∨ (g.lState l).cancelled ∨ (g.lState l).interrupted)
  | .deleteBySysid _ => True
  | .clean _ _ _ => True
  | .lockmgr _ => True

instance (g : Graph) (e : Event) : Decidable (e.Enabled g) := by
  cases e <;> unfold Event.Enabled <;> infer_instance

def Event.apply (g : Graph) : Event → Graph
  | .lock r => (reclockLock g r).1
  | .unlock r => reclockUnlock g r
  | .resume l signal => (Flock.resume g l signal).1
  | .deleteBySysid sysid => flkDeleteLocksBySysid g sysid
  | .clean vp pid sysid => cleanlocks g vp pid sysid
  | .lockmgr status => setLockmgrStatus g status

def emptyDesc : LockDescriptor := ⟨0, .unlck, 0, 0, 0, 0⟩

/-- A graph as `reclock` initialises it. -/
def Graph.empty : Graph where
  lock := fun _ => emptyDesc
  lState := fun _ => {}
  next := 0
  active := []
  sleeping := []
  vFilocks := fun _ => none
  deps := ⟨fun _ => [], fun _ => [], fun _ => 0, fun _ => false⟩
  ps := ⟨⟨[], 0⟩, fun _ => none⟩
  lockmgrStatus := .up

def hashSize : Nat := 32

/-- The lock graphs, and the process graph under `flock_lock`. -/
structure System where
  graph : Nat → Graph
  pgraph : ProcGraph

/-- Graph `i` as a section that holds its mutex sees it. -/
def System.graphAt (sys : System) (i : Nat) : Graph :=
  { sys.graph i with ps := ⟨sys.pgraph, (sys.graph i).ps.pvertex⟩ }

def System.step (sys : System) (i : Nat) (e : Event) : System :=
  let g := e.apply (sys.graphAt i)
  ⟨Function.update sys.graph i g, g.ps.pg⟩

def System.empty : System := ⟨fun _ => Graph.empty, ⟨[], 0⟩⟩

/-- What any interleaving of sections on the graphs leads to. -/
inductive Reachable : System → Prop
  | init : Reachable System.empty
  | step {sys : System} {i : Nat} {e : Event} (h : Reachable sys) (hi : i < hashSize) (he : e.Enabled (sys.graphAt i)) :
      Reachable (sys.step i e)

end Solaris.Flock
