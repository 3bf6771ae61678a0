import Solaris.Flock.ProcGraph

/-!
# Lock graphs

The state behind one `gp_mutex`: the active and the sleeping list, `v_filocks` of the vnodes that hash here, and the
dependency edges. An edge is kept twice, in the adjacency list of the lock it leaves and in the in-list of the lock
it enters.
-/

namespace Solaris.Flock

open Lib Function

/-- The dependency edges, with the barrier marks of `flk_recompute_dependencies`. -/
structure Deps where
  adj : Nat → List Nat
  inn : Nat → List Nat
  lIndex : Nat → Int
  barrier : Nat → Bool

inductive LockmgrStatus where
  | up
  | wakeupSleepers
  | down
  deriving DecidableEq

structure Graph where
  lock : Nat → LockDescriptor
  lState : Nat → LockState
  next : Nat
  active : List Nat
  sleeping : List Nat
  vFilocks : Nat → Option Nat
  deps : Deps
  ps : ProcState
  lockmgrStatus : LockmgrStatus

variable (lock : Nat → LockDescriptor)

def Deps.addEdge (d : Deps) (fromLock toLock : Nat) : Deps :=
  { d with
    adj := update d.adj fromLock (toLock :: d.adj fromLock)
    inn := update d.inn toLock (fromLock :: d.inn toLock) }

/-- `ADJ_LIST_REMOVE` and `IN_LIST_REMOVE` of the edge `fromLock → toLock`. -/
def Deps.adjListRemove (d : Deps) (fromLock toLock : Nat) : Deps :=
  { d with adj := update d.adj fromLock ((d.adj fromLock).erase toLock) }

def Deps.inListRemove (d : Deps) (fromLock toLock : Nat) : Deps :=
  { d with inn := update d.inn toLock ((d.inn toLock).erase fromLock) }

/-- Take every edge that leaves `l` out of both its lists. -/
def Deps.removeAdjEdges (d : Deps) (l : Nat) : Deps :=
  (d.adj l).foldl (fun d t => (d.inListRemove l t).adjListRemove l t) d

/-- Take every edge that enters `l` out of both its lists. -/
def Deps.removeInEdges (d : Deps) (l : Nat) : Deps :=
  (d.inn l).foldl (fun d f => (d.inListRemove f l).adjListRemove f l) d

/-- Unhook the edges that enter `l` from the adjacency lists only. -/
def Deps.unhookInEdges (d : Deps) (l : Nat) : Deps :=
  (d.inn l).foldl (fun d f => d.adjListRemove f l) d

/-- One more than the pops a search over `n` descriptors can need. -/
def searchFuel (n : Nat) : Nat := n + 2

/-- `flk_color_reachables`: colour what is reachable from `vertex`, and count the newly
coloured members of the topology (the locks with `RECOMPUTE_LOCK`). -/
def flkColorReachables (n : Nat) (d : Deps) (topology : List Nat) (color : List Nat) (vertex : Nat) :
    List Nat × Nat :=
  let s := search d.adj (fun count _ => count) (fun count l => if l ∈ topology then count + 1 else count)
    (searchFuel n) ⟨color, [vertex], 0⟩
  (s.seen, s.acc)

def barrierAgain (a : Deps × Bool) (lck : Nat) : Deps × Bool :=
  ({ a.1 with
      barrier := update a.1.barrier lck true
      lIndex := update a.1.lIndex lck (a.1.lIndex lck + 1) }, true)

def barrierFirst (a : Deps × Bool) (lck : Nat) : Deps × Bool :=
  ({ a.1 with lIndex := update a.1.lIndex lck 0 }, a.2)

/-- `flk_find_barriers`: the locks met more than once on the way up from `lock` become
barriers, with one count for each further meeting. -/
def flkFindBarriers (n : Nat) (d : Deps) (l : Nat) : Deps × Bool :=
  (search d.inn barrierAgain barrierFirst (searchFuel n) ⟨[], [l], (d, false)⟩).acc

def Deps.decBarrier (d : Deps) (l : Nat) : Deps :=
  { d with
    lIndex := update d.lIndex l (d.lIndex l - 1)
    barrier := if d.lIndex l - 1 = 0 then update d.barrier l false else d.barrier }

def unbar (d : Deps) (l : Nat) : Deps := if d.barrier l then d.decBarrier l else d

/-- `flk_update_barriers`: one count less for each meeting on the way up from `lock`. -/
def flkUpdateBarriers (n : Nat) (d : Deps) (l : Nat) : Deps :=
  (search d.inn unbar unbar (searchFuel n) ⟨[], [l], d⟩).acc

/-- `flk_add_edge`. With `checkCycle` everything reachable from `fromLock` is coloured; a
lock of the same owner there means deadlock, and all edges of `fromLock` are dropped. The
source leaves the search at the first such lock; the colours it would still set are not
read again. -/
def flkAddEdge (n : Nat) (d : Deps) (ps : ProcState) (fromLock toLock : Nat) (checkCycle updateGraph : Bool)
    (color : List Nat) : Bool × Deps × ProcState × List Nat :=
  if toLock ∈ color then (false, d, ps, color)
  else
    let d := d.addEdge fromLock toLock
    if updateGraph then (false, d, flkUpdateProcGraph lock ps fromLock toLock false, color)
    else if !checkCycle then (false, d, ps, color)
    else
      let s := search d.adj (fun dead _ => dead) (fun dead l => dead || sameOwner (lock l) (lock fromLock))
        (searchFuel n) ⟨color, [fromLock], false⟩
      if s.acc then (true, d.removeAdjEdges fromLock, ps, s.seen) else (false, d, ps, s.seen)

/-- The variables of the loop in `flk_recompute_dependencies`; `done` holds the locks with
`RECOMPUTE_DONE` and `lSedge` the in-edges still to be followed. -/
structure Recompute where
  deps : Deps
  ps : ProcState
  stack : List Nat
  done : List Nat
  lSedge : Nat → List Nat

/-- The edge from `vertex` to one member of the topology, if it blocks `vertex` and is not
coloured yet. -/
def recomputeEdge (n : Nat) (topology : List Nat) (updateGraph : Bool) (vertex : Nat)
    (a : Deps × ProcState × List Nat × Nat) (l : Nat) : Deps × ProcState × List Nat × Nat :=
  if l ∈ a.2.2.1 then a
  else if blocks (lock l) (lock vertex) then
    let e := flkAddEdge lock n a.1 a.2.1 vertex l false updateGraph a.2.2.1
    let c := flkColorReachables n e.2.1 topology (l :: a.2.2.1) l
    (e.2.1, e.2.2.1, c.1, a.2.2.2 + 1 + c.2)
  else a

/-- Add the missing edges from `vertex` to the members of the topology that block it. -/
def recomputeVertex (n : Nat) (topology : List Nat) (updateGraph : Bool) (d : Deps) (ps : ProcState)
    (vertex : Nat) : Deps × ProcState × Nat :=
  let c := flkColorReachables n d topology [] vertex
  let r := topology.foldl (recomputeEdge lock n topology updateGraph vertex) (d, ps, c.1, c.2)
  (r.1, r.2.1, r.2.2.2)

/-- From `next_in_edge` to the end of the loop body. -/
def recomputeNext (n nvertex : Nat) (barrierFound : Bool) (r : Recompute) (vertex : Nat) (rest : List Nat)
    (count : Nat) : Recompute :=
  match r.lSedge vertex with
  | [] => { r with stack := rest, done := r.done.erase vertex }
  | l :: ls =>
    if count = nvertex then
      { r with
        stack := rest
        done := r.done.erase vertex
        deps := if barrierFound then flkUpdateBarriers n r.deps vertex else r.deps }
    else
      { r with
        stack := l :: vertex :: rest
        lSedge := update (update r.lSedge l (r.deps.inn l)) vertex ls }

def recomputeStep (n : Nat) (topology : List Nat) (updateGraph barrierFound : Bool) (r : Recompute)
    (vertex : Nat) (rest : List Nat) : Recompute :=
  if vertex ∈ r.done then recomputeNext n topology.length barrierFound r vertex rest 0
  else if r.deps.barrier vertex ∧ r.deps.lIndex vertex ≠ 0 then
    { r with deps := r.deps.decBarrier vertex, stack := rest }
  else
    let v := recomputeVertex lock n topology updateGraph r.deps r.ps vertex
    recomputeNext n topology.length barrierFound { r with deps := v.1, ps := v.2.1, done := vertex :: r.done }
      vertex rest v.2.2

def recomputeLoop (n : Nat) (topology : List Nat) (updateGraph barrierFound : Bool) : Nat → Recompute → Recompute
  | 0, r => r
  | fuel + 1, r =>
    match r.stack with
    | [] => r
    | vertex :: rest =>
      recomputeLoop n topology updateGraph barrierFound fuel
        (recomputeStep lock n topology updateGraph barrierFound r vertex rest)

def Deps.edgeCount (d : Deps) (n : Nat) : Nat := ((List.range n).map (fun l => (d.inn l).length)).sum

/-- `flk_recompute_dependencies` for the dependents of `l`. The loop follows each in-edge
at most once, which bounds its turns. -/
def flkRecomputeDependencies (n : Nat) (d : Deps) (ps : ProcState) (l : Nat) (topology : List Nat)
    (updateGraph : Bool) : Deps × ProcState :=
  if topology = [] then (d, ps)
  else
    let b := flkFindBarriers n d l
    let r := recomputeLoop lock n topology updateGraph b.2 (2 * d.edgeCount n + 3)
      ⟨b.1, ps, [l], [l], update (fun _ => []) l (d.inn l)⟩
    (r.deps, r.ps)

/-- The walk of `do { .. lock = lock->l_next; } while (lock->l_vnode == vp)` from `first`. -/
def walkVp (vp first : Nat) (l : List Nat) : List Nat :=
  match l.dropWhile (· ≠ first) with
  | [] => []
  | f :: rest => f :: rest.takeWhile (fun k => (lock k).lVnode = vp)

/-- The active locks of `vp`, from `SET_LOCK_TO_FIRST_ACTIVE_VP` on. -/
def Graph.activeVp (g : Graph) (vp : Nat) : List Nat :=
  match g.vFilocks vp with
  | none => []
  | some first => walkVp g.lock vp first g.active

/-- The sleeping locks of `vp`, from `SET_LOCK_TO_FIRST_SLEEP_VP` on. -/
def Graph.sleepVp (g : Graph) (vp : Nat) : List Nat :=
  match g.sleeping.find? (fun l => (g.lock l).lVnode = vp) with
  | none => []
  | some first => walkVp g.lock vp first g.sleeping

/-- Where `flk_insert_active_lock` puts `new` in the part of the list that starts at the
first lock of its vnode. -/
def insertByStart (new : Nat) : List Nat → List Nat
  | [] => [new]
  | l :: ls =>
    if (lock l).lVnode = (lock new).lVnode ∧ (lock l).lStart < (lock new).lStart then
      l :: insertByStart new ls
    else new :: l :: ls

def flkInsertActiveLock (g : Graph) (new : Nat) : Graph :=
  let vp := (g.lock new).lVnode
  match g.vFilocks vp with
  | none => { g with active := g.active ++ [new], vFilocks := update g.vFilocks vp (some new) }
  | some first =>
    { g with
      active := g.active.takeWhile (· ≠ first) ++ insertByStart g.lock new (g.active.dropWhile (· ≠ first))
      vFilocks := if (g.lock new).lStart ≤ (g.lock first).lStart then update g.vFilocks vp (some new)
        else g.vFilocks }

/-- The list element after `l`, if it is on the same vnode. -/
def nextOnVnode (vp l : Nat) (ls : List Nat) : Option Nat :=
  match (ls.dropWhile (· ≠ l)).tail with
  | [] => none
  | k :: _ => if (lock k).lVnode = vp then some k else none

def flkDeleteActiveLock (g : Graph) (l : Nat) : Graph :=
  let vp := (g.lock l).lVnode
  { g with
    vFilocks := if g.vFilocks vp = some l then update g.vFilocks vp (nextOnVnode g.lock vp l g.active)
      else g.vFilocks
    active := g.active.erase l }

def flkInsertSleepingLock (g : Graph) (request : Nat) : Graph :=
  let before := fun l => (g.lock l).lVnode < (g.lock request).lVnode
  { g with sleeping := g.sleeping.takeWhile (fun l => before l) ++ request :: g.sleeping.dropWhile (fun l => before l) }

def Graph.setState (g : Graph) (l : Nat) (f : LockState → LockState) : Graph :=
  { g with lState := update g.lState l (f (g.lState l)) }

/-- `NOT_BLOCKED` and then `GRANT_WAKEUP`. -/
def grantIfNotBlocked (g : Graph) (l : Nat) : Graph :=
  if g.deps.adj l = [] ∧ !(g.lState l).granted then g.setState l (fun s => { s with granted := true }) else g

def flkWakeup (g : Graph) (l : Nat) (adjListRemove : Bool) : Graph :=
  (g.deps.inn l).foldl (fun g lck =>
    let g := if adjListRemove then { g with deps := g.deps.adjListRemove lck l } else g
    let g := { g with ps := flkUpdateProcGraph g.lock g.ps lck l true }
    let g := grantIfNotBlocked g lck
    { g with deps := g.deps.inListRemove lck l }) g

/-- `flk_get_lock` and `COPY`: a new descriptor that describes `desc`, with the cached
process slot of `src`. -/
def flkGetLock (g : Graph) (desc : LockDescriptor) (state : LockState) (pvertex : Option Nat) : Nat × Graph :=
  (g.next, { g with
    next := g.next + 1
    lock := update g.lock g.next desc
    lState := update g.lState g.next state
    deps := { g.deps with
      adj := update g.deps.adj g.next []
      inn := update g.deps.inn g.next [] }
    ps := { g.ps with pvertex := update g.ps.pvertex g.next pvertex } })

def getPieces (g : Graph) (src : Nat) : List LockDescriptor → List Nat × Graph
  | [] => ([], g)
  | p :: ps =>
    let r := flkGetLock g p {} (g.ps.pvertex src)
    let rs := getPieces r.2 src ps
    (r.1 :: rs.1, rs.2)

/-- The edges into a replaced lock are dropped without waking anybody. -/
def dropInEdges (g : Graph) (l : Nat) : Graph :=
  (g.deps.inn l).foldl (fun g f =>
    { g with deps := g.deps.inListRemove f l, ps := flkUpdateProcGraph g.lock g.ps f l true }) g

def flkRelation (g : Graph) (l request : Nat) : Graph × Bool :=
  match relationCases (g.lock l) (g.lock request) with
  | .apart stop => (g, stop)
  | .release => (flkWakeup (flkDeleteActiveLock g l) l true, true)
  | .recompute r pieces =>
    let effect := lockEffect (g.lock l) (g.lock request)
    let p := getPieces g l pieces
    let g := { p.2 with lock := update p.2.lock request r }
    let topology := if effect = .unlock then p.1 else p.1 ++ [request]
    let g := flkDeleteActiveLock { g with deps := g.deps.unhookInEdges l } l
    let dp := flkRecomputeDependencies g.lock g.next g.deps g.ps l topology true
    let g := { g with deps := dp.1, ps := dp.2 }
    let g := p.1.foldl flkInsertActiveLock g
    (if effect = .downgrade ∨ effect = .unlock then flkWakeup g l false else dropInEdges g l, false)

/-- The list element after `l`. -/
def listNext (l : Nat) (ls : List Nat) : Option Nat := (ls.dropWhile (· ≠ l)).tail.head?

/-- The loop of `flk_execute_request`; the successor is read before `flk_relation` changes
the list. -/
def executeLoop (vp request : Nat) : Nat → Graph → Option Nat → Graph
  | 0, g, _ => g
  | _ + 1, g, none => g
  | fuel + 1, g, some l =>
    let lock1 := listNext l g.active
    let r := if sameOwner (g.lock request) (g.lock l) then flkRelation g l request else (g, false)
    if r.2 then r.1
    else
      match lock1 with
      | none => r.1
      | some l1 => if (r.1.lock l1).lVnode = vp then executeLoop vp request fuel r.1 (some l1) else r.1

def flkExecuteRequest (g : Graph) (request : Nat) : Graph :=
  if (g.lState request).ioLock then g
  else
    let vp := (g.lock request).lVnode
    match g.vFilocks vp with
    | none => if (g.lock request).lType = .unlck then g else flkInsertActiveLock g request
    | some first =>
      let g := executeLoop vp request (2 * g.active.length + 2) g (some first)
      if (g.lock request).lType = .unlck then g else flkInsertActiveLock g request

/-- `flk_cancel_sleeping_lock` with `remove_from_queue`. -/
def flkCancelSleepingLock (g : Graph) (request : Nat) : Graph :=
  let vp := (g.lock request).lVnode
  let reach := (search g.deps.adj (fun u _ => u) (fun u _ => u) (searchFuel g.next) ⟨[], [request], ()⟩).seen
  let topology := (g.sleepVp vp ++ g.activeVp vp).filter (· ∈ reach)
  let g := { g with deps := g.deps.unhookInEdges request, sleeping := g.sleeping.erase request }
  let dp := flkRecomputeDependencies g.lock g.next g.deps g.ps request topology true
  let ps := (dp.1.adj request).foldl (fun ps t => flkUpdateProcGraph g.lock ps request t true) dp.2
  flkWakeup { g with deps := dp.1.removeAdjEdges request, ps := ps } request false

inductive Errno where
  | eagain
  | edeadlk
  | enolck
  | eintr
  | ebadf
  deriving DecidableEq

/-- How a request leaves the section that holds `gp_mutex`. -/
inductive Outcome where
  | done
  | failed (e : Errno)
  | asleep
  deriving DecidableEq

inductive ActiveScan where
  | blocked
  | covered
  | clear

/-- The first loop of `flk_process_request`. -/
def scanActive (request : LockDescriptor) : List Nat → ActiveScan
  | [] => .clear
  | l :: ls =>
    if blocks (lock l) request then .blocked
    else if sameOwner (lock l) request && covers (lock l) request && request.lType == .rdlck then .covered
    else scanActive request ls

/-- The variables of the second half of `flk_process_request`: `coveredBy` is `covered_by`
once a covering lock is found, `second` says that `found_covering_lock` reached 2, and
`dead` that `flk_add_edge` reported `EDEADLK`. -/
structure AddEdges where
  deps : Deps
  ps : ProcState
  color : List Nat
  coveredBy : Option Nat
  second : Bool
  dead : Bool

/-- A covering lock of another owner was found before `l`. -/
def coveredByOther (coveredBy : Option Nat) (l : Nat) : Bool :=
  coveredBy.any (fun c => !sameOwner (lock l) (lock c))

def addEdgeTo (n request : Nat) (checkCycle : Bool) (a : AddEdges) (l : Nat) : AddEdges :=
  let e := flkAddEdge lock n a.deps a.ps request l checkCycle false a.color
  { a with deps := e.2.1, ps := e.2.2.1, color := e.2.2.2, dead := e.1 }

def addSleepEdges (n request : Nat) : List Nat → AddEdges → AddEdges
  | [], a => a
  | l :: ls, a =>
    if blocks (lock l) (lock request) then
      let covering := covers (lock l) (lock request) && (lock l).lType == .wrlck
      if covering && coveredByOther lock a.coveredBy l then { a with second := true }
      else
        let a := if covering then { a with coveredBy := some l } else a
        if coveredByOther lock a.coveredBy l then addSleepEdges n request ls a
        else
          let a := addEdgeTo lock n request a.coveredBy.isNone a l
          if a.dead then a else addSleepEdges n request ls a
    else addSleepEdges n request ls a

def addActiveEdges (n request : Nat) : List Nat → AddEdges → AddEdges
  | [], a => a
  | l :: ls, a =>
    if blocks (lock l) (lock request) && !coveredByOther lock a.coveredBy l then
      let a := addEdgeTo lock n request true a l
      if a.dead then a else addActiveEdges n request ls a
    else addActiveEdges n request ls a

/-- `flk_wait_execute_request` up to `wait_for_lock`. -/
def flkWaitBegin (g : Graph) (request : Nat) : Graph × Outcome :=
  let g := flkInsertSleepingLock g request
  if g.lockmgrStatus ≠ .up ∧ (g.lState request).lockmgr then (flkCancelSleepingLock g request, .failed .enolck)
  else (g, .asleep)

/-- `flk_check_deadlock`: on a deadlock the edges of the request are removed. -/
def flkCheckDeadlock (g : Graph) (request : Nat) : Bool × Graph :=
  let c := procCheckDeadlock g.lock g.ps request (g.deps.adj request) (g.deps.inn request)
  if c.1 then (true, { g with deps := (g.deps.removeAdjEdges request).removeInEdges request, ps := c.2 })
  else (false, { g with ps := c.2 })

/-- Both walks: the second is skipped once two owners cover the request. -/
def blockedEdges (g : Graph) (request : Nat) (blockedByActive : Bool) : AddEdges :=
  let vp := (g.lock request).lVnode
  let a := addSleepEdges g.lock g.next request (g.sleepVp vp) ⟨g.deps, g.ps, [], none, false, false⟩
  if blockedByActive && !a.second && !a.dead then
    addActiveEdges g.lock g.next request (g.activeVp vp) a
  else a

/-- From `block:` to the end of `flk_process_request`. A request that will not wait meets a
blocking lock before any edge is made. -/
def processBlocked (g : Graph) (request : Nat) (blockedByActive : Bool) : Graph × Outcome :=
  let vp := (g.lock request).lVnode
  if !(g.lState request).willingToSleep && (g.sleepVp vp).any (fun l => blocks (g.lock l) (g.lock request)) then
    (g, .failed .eagain)
  else
    let a := blockedEdges g request blockedByActive
    let g := { g with deps := a.deps, ps := a.ps }
    if a.dead then (g, .failed .edeadlk)
    else if a.deps.adj request = [] then (flkExecuteRequest g request, .done)
    else
      let c := flkCheckDeadlock g request
      if c.1 then (c.2, .failed .edeadlk) else flkWaitBegin c.2 request

/-- The locks that `flk_process_request` recomputes from. -/
def processRoots (g : Graph) (vp : Nat) : List Nat :=
  g.activeVp vp ++ (g.sleepVp vp).reverse.filter (fun l => (g.lState l).granted)

/-- The recomputations of `flk_process_request`, one for each root. -/
def linkRoots (n rq : Nat) (roots : List Nat) (a : Deps × ProcState) : Deps × ProcState :=
  roots.foldl (fun a l => flkRecomputeDependencies lock n a.1 a.2 l [rq] false) a

def flkProcessRequest (g : Graph) (request : Nat) : Graph × Outcome :=
  let vp := (g.lock request).lVnode
  match scanActive g.lock (g.lock request) (g.activeVp vp) with
  | .blocked =>
    if (g.lState request).willingToSleep then processBlocked g request true else (g, .failed .eagain)
  | .covered => (flkExecuteRequest g request, .done)
  | .clear =>
    if (g.sleepVp vp).any (fun l => blocks (g.lock l) (g.lock request) && (g.lState l).granted) then
      processBlocked g request false
    else
      let dp := linkRoots g.lock g.next request (processRoots g vp) (g.deps, g.ps)
      let g := { g with deps := dp.1, ps := dp.2 }
      if dp.1.inn request = [] then (flkExecuteRequest g request, .done)
      else
        let c := flkCheckDeadlock g request
        if c.1 then (c.2, .failed .edeadlk) else (flkExecuteRequest c.2 request, .done)

end Solaris.Flock
