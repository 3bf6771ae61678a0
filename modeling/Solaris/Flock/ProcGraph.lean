import Solaris.Flock.Descriptor

/-!
# The process graph

`pgraph` has one vertex for each owner that waits or is waited for, kept in a growing
array of slots; a vertex is named here by its slot. `pvertex` is the slot cached in each
lock descriptor.
-/

namespace Solaris.Flock

open Function

structure ProcEdge where
  refcount : Nat
  toProc : Nat

structure ProcVertex where
  pid : Int
  sysid : Int
  edge : List ProcEdge
  incount : Nat

structure ProcGraph where
  proc : List (Option ProcVertex)
  free : Nat

def procChunk : Nat := 100

def ProcVertex.owner (v : ProcVertex) : Owner := (v.pid, v.sysid)

def ProcGraph.vertex (pg : ProcGraph) (i : Nat) : Option ProcVertex := (pg.proc[i]?).join

def ProcGraph.edges (pg : ProcGraph) (i : Nat) : List ProcEdge := ((pg.vertex i).map (·.edge)).getD []

def ProcGraph.modify (pg : ProcGraph) (i : Nat) (f : ProcVertex → ProcVertex) : ProcGraph :=
  { pg with proc := pg.proc.modify i (Option.map f) }

def procSameOwner (o : Owner) (v : Option ProcVertex) : Bool :=
  match v with
  | none => false
  | some v => decide (v.owner = o)

/-- `flk_get_proc_vertex`: the cached slot, else a slot with that owner, else a free slot,
else a slot in a new chunk. -/
def flkGetProcVertex (pg : ProcGraph) (pvertex : Option Nat) (o : Owner) : Nat × ProcGraph :=
  match pvertex.filter (fun i => procSameOwner o (pg.vertex i)) with
  | some i => (i, pg)
  | none =>
    match pg.proc.findIdx? (procSameOwner o) with
    | some i => (i, pg)
    | none =>
      let pv : ProcVertex := ⟨o.1, o.2, [], 0⟩
      match if pg.free ≠ 0 then pg.proc.findIdx? (·.isNone) else none with
      | some i => (i, { proc := pg.proc.set i (some pv), free := pg.free - 1 })
      | none => (pg.proc.length,
          { proc := pg.proc ++ some pv :: List.replicate (procChunk - 1) none
            free := pg.free + (procChunk - 1) })

def flkProcRelease (pg : ProcGraph) (i : Nat) : ProcGraph :=
  match pg.vertex i with
  | none => pg
  | some v =>
    if v.edge = [] ∧ v.incount = 0 then { proc := pg.proc.set i none, free := pg.free + 1 } else pg

/-- Count one more lock edge on the process edge `fromProc → toProc`, which is made if absent. -/
def procEdgeAdd (pg : ProcGraph) (fromProc toProc : Nat) : ProcGraph :=
  if (pg.edges fromProc).any (·.toProc == toProc) then
    pg.modify fromProc (fun v => { v with edge := v.edge.map (fun e =>
      if e.toProc = toProc then { e with refcount := e.refcount + 1 } else e) })
  else
    (pg.modify toProc (fun v => { v with incount := v.incount + 1 })).modify fromProc
      (fun v => { v with edge := ⟨1, toProc⟩ :: v.edge })

/-- Count one lock edge less on `fromProc → toProc`; the last one takes the process edge
away and `release`s a vertex. -/
def procEdgeDelete (pg : ProcGraph) (fromProc toProc release : Nat) : ProcGraph :=
  match (pg.edges fromProc).find? (·.toProc == toProc) with
  | none => pg
  | some e =>
    if e.refcount - 1 = 0 then
      flkProcRelease
        ((pg.modify fromProc (fun v => { v with edge := v.edge.eraseP (·.toProc == toProc) })).modify toProc
          (fun v => { v with incount := v.incount - 1 })) release
    else
      pg.modify fromProc (fun v => { v with edge := v.edge.map (fun e =>
        if e.toProc = toProc then { e with refcount := e.refcount - 1 } else e) })

structure ProcDfs where
  stack : List Nat
  pSedge : Nat → List Nat
  arrived : List Nat
  departed : List Nat

inductive ProcScan where
  | push (d : Nat) (rest : List Nat)
  | deadlock
  | depart

def procScan (arrived departed : List Nat) : List Nat → ProcScan
  | [] => .depart
  | d :: rest =>
    if d ∉ arrived then .push d rest
    else if d ∉ departed then .deadlock
    else procScan arrived departed rest

/-- The vertex on top is marked arrived when it pushes a child, departed when it has no
child left to push. -/
def procDfs (succ : Nat → List Nat) : Nat → ProcDfs → Option Bool
  | 0, _ => none
  | fuel + 1, s =>
    match s.stack with
    | [] => some false
    | v :: st =>
      match procScan s.arrived s.departed (s.pSedge v) with
      | .push d rest =>
        procDfs succ fuel ⟨d :: v :: st, update (update s.pSedge d (succ d)) v rest,
          v :: s.arrived, s.departed⟩
      | .deadlock => some true
      | .depart => procDfs succ fuel ⟨st, s.pSedge, s.arrived, v :: s.departed⟩

def ProcGraph.succ (pg : ProcGraph) (i : Nat) : List Nat := (pg.edges i).map (·.toProc)

def ProcGraph.edgeCount (pg : ProcGraph) : Nat :=
  ((List.range pg.proc.length).map (fun i => (pg.succ i).length)).sum

def procDeadlock (pg : ProcGraph) (start : Nat) : Bool :=
  (procDfs pg.succ (2 * pg.edgeCount + 3) ⟨[start], update (fun _ => []) start (pg.succ start), [], []⟩).getD false

/-- The process graph together with the slots cached in the locks of one lock graph. -/
structure ProcState where
  pg : ProcGraph
  pvertex : Nat → Option Nat

/-- `flk_get_proc_vertex` on the descriptor `l`. -/
def ProcState.get (ps : ProcState) (lock : Nat → LockDescriptor) (l : Nat) : Nat × ProcState :=
  let r := flkGetProcVertex ps.pg (ps.pvertex l) (lock l).owner
  (r.1, ⟨r.2, update ps.pvertex l (some r.1)⟩)

/-- `flk_update_proc_graph` for the lock edge `fromLock → toLock`. -/
def flkUpdateProcGraph (lock : Nat → LockDescriptor) (ps : ProcState) (fromLock toLock : Nat)
    (delete : Bool) : ProcState :=
  let t := ps.get lock toLock
  let f := t.2.get lock fromLock
  if delete then
    { f.2 with pg := flkProcRelease (procEdgeDelete f.2.pg f.1 t.1 t.1) f.1 }
  else { f.2 with pg := procEdgeAdd f.2.pg f.1 t.1 }

/-- Process edges for the lock edges that leave `l` and then for those that enter it. -/
def procEdgesAdd (lock : Nat → LockDescriptor) (start : Nat) (ps : ProcState) (adj inn : List Nat) : ProcState :=
  let ps := adj.foldl (fun ps t =>
    let r := ps.get lock t
    { r.2 with pg := procEdgeAdd r.2.pg start r.1 }) ps
  inn.foldl (fun ps f =>
    let r := ps.get lock f
    { r.2 with pg := procEdgeAdd r.2.pg r.1 start }) ps

/-- The undo at `deadlock:` of `flk_check_deadlock`. -/
def procEdgesUndo (lock : Nat → LockDescriptor) (start : Nat) (ps : ProcState) (adj inn : List Nat) : ProcState :=
  let ps := adj.foldl (fun ps t =>
    let r := ps.get lock t
    { r.2 with pg := procEdgeDelete r.2.pg start r.1 r.1 }) ps
  let ps := inn.foldl (fun ps f =>
    let r := ps.get lock f
    { r.2 with pg := procEdgeDelete r.2.pg r.1 start r.1 }) ps
  { ps with pg := flkProcRelease ps.pg start }

/-- The process-graph half of `flk_check_deadlock` for the lock `l` with the lock edges
`adj` out of it and `inn` into it. -/
def procCheckDeadlock (lock : Nat → LockDescriptor) (ps : ProcState) (l : Nat) (adj inn : List Nat) :
    Bool × ProcState :=
  let r := ps.get lock l
  let ps := procEdgesAdd lock r.1 r.2 adj inn
  if ((ps.pg.vertex r.1).map (·.incount)).getD 0 = 0 then (false, ps)
  else if procDeadlock ps.pg r.1 then (true, procEdgesUndo lock r.1 ps adj inn)
  else (false, ps)

end Solaris.Flock
