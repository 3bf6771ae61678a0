import Solaris.Msg.Queue

/-!
# The locks of a message call

What `msgsnd` and `msgrcv` do with the lock of a queue, the lock of the free headers and the lock of the map, section by
section. A wait gives its lock back and takes it again, and a section begins and ends without a lock.
-/

namespace Solaris.Msg

/-- `MSGLOCK` of a slot, `msg_lock` and `maplock(msgmap)`. -/
inductive Lock where
  | queue (q : Nat)
  | header
  | map
  deriving DecidableEq

inductive LockOp where
  | enter (l : Lock)
  | exit (l : Lock)

/-- The locks held in the end; `none` when one is taken twice or given back without being held. -/
def heldAfter (held : List Lock) : List LockOp → Option (List Lock)
  | [] => some held
  | .enter l :: ops => if l ∈ held then none else heldAfter (l :: held) ops
  | .exit l :: ops => if l ∈ held then heldAfter (held.erase l) ops else none

/-- One lock taken and given back. -/
def brief (l : Lock) : List LockOp := [.enter l, .exit l]

section Operations

variable (p : Params) (s : Msgs) (junk tid : Nat)

def slotOf (msqid : Int) : Nat := msqid.toNat % p.msgmni

/-- `msgconv`, what follows when it fails, and what follows with the queue. -/
def msgconvOps (msqid : Int) (gone : List LockOp) (rest : Nat → List LockOp) : List LockOp :=
  if msqid < 0 then gone
  else
    match msgconv p s msqid with
    | none => brief (.queue (slotOf p msqid)) ++ gone
    | some q => .enter (.queue q) :: rest q

def getresOps (q cnt : Nat) (nowait : Bool) (env : Env) : List LockOp :=
  let out := [LockOp.exit (.queue q)]
  if cnt + (s.msgque q).cbytes > (s.msgque q).qbytes then out
  else if s.msgfp = none then
    if nowait then brief .header ++ out else .enter .header :: out ++ [.exit .header]
  else
    brief .header ++
      if cnt ≠ 0 ∧ env.rm.alloc s.segFree (btoq p cnt) = none then
        if nowait then brief .map ++ brief .header ++ out else .enter .map :: brief .header ++ out ++ [.exit .map]
      else if cnt ≠ 0 ∧ env.textIn = false then brief .map ++ brief .map ++ brief .header ++ out
      else brief .map ++ out

def msgsndOps (msqid msgsz : Int) (type : Option Int) (nowait : Bool) (env : Env) : List LockOp :=
  msgconvOps p s msqid [] fun q =>
    if env.access = false ∨ msgsz < 0 ∨ msgsz > p.msgmax ∨ type.all (· < 1) then [.exit (.queue q)]
    else getresOps p s q msgsz.toNat nowait env

/-- `msgfree` takes the lock of the map when there is text to free, and the lock of the headers. -/
def receiveOps (q : Nat) (a : RecvArgs) (env : Env) : List LockOp :=
  match (findmsg p s q a.msgtyp).1 with
  | none => [.exit (.queue q)]
  | some smp =>
    let ts := (s.msgh smp).ts
    if (a.msgsz < ts ∧ a.noerror = false) ∨ env.typeOut = false ∨ (min a.msgsz ts ≠ 0 ∧ env.textOut = false) then
      [.exit (.queue q)]
    else (if ts ≠ 0 then brief .map else []) ++ brief .header ++ [.exit (.queue q)]

def msgrcvOps (msqid msgsz msgtyp : Int) (noerror nowait : Bool) (env : Env) : List LockOp :=
  msgconvOps p s msqid [] fun q =>
    if env.access = false ∨ msgsz < 0 then [.exit (.queue q)]
    else receiveOps p s q ⟨msqid, msgsz.toNat, msgtyp, noerror, nowait⟩ env

/-- When the queue is gone after an interrupted wait for space, `qp1` is not set; `junk` is the slot it points to. -/
def Thread.resumeOps (interrupted : Bool) (env : Env) : Thread → List LockOp
  | .send .space a =>
    let lock := Lock.queue (slotOf p a.msqid)
    .enter lock ::
      if interrupted then .exit lock :: msgconvOps p s a.msqid [.exit (.queue junk)] fun q => [.exit (.queue q)]
      else if msgconv p s a.msqid = none then [.exit lock]
      else getresOps p s (slotOf p a.msqid) a.cnt a.nowait env
  | .send w a =>
    brief (if w = .header then .header else .map) ++
      msgconvOps p s a.msqid [] fun q =>
        if interrupted then [.exit (.queue q)] else getresOps p s q a.cnt a.nowait env
  | .receive a =>
    let lock := Lock.queue (slotOf p a.msqid)
    .enter lock ::
      if interrupted ∨ msgconv p s a.msqid = none then [.exit lock] else receiveOps p s (slotOf p a.msqid) a env

/-- What a thread does with locks at an event. -/
def System.lockOps (sys : System) : Event → List LockOp
  | .msgsnd t msqid msgsz type nowait env =>
    if t = tid ∧ (sys.threads t).isNone then msgsndOps p sys.msgs msqid msgsz type nowait env else []
  | .msgrcv t msqid msgsz msgtyp noerror nowait env =>
    if t = tid ∧ (sys.threads t).isNone then msgrcvOps p sys.msgs msqid msgsz msgtyp noerror nowait env else []
  | .resume t interrupted env =>
    match sys.threads t with
    | some th => if t = tid then th.resumeOps p sys.msgs junk interrupted env else []
    | none => []
  | _ => []

/-- The locks the thread holds after a run; it begins the run with those of `held`. -/
def locksAlong : System → List Event → List Lock → Option (List Lock)
  | _, [], held => some held
  | sys, e :: events, held => (heldAfter held (sys.lockOps p junk tid e)).bind (locksAlong (sys.step p e) events)

/-- The thread is interrupted in a wait for space on a queue that is gone. -/
def Thread.orphaned (interrupted : Bool) : Thread → Bool
  | .send .space a => interrupted && (msgconv p s a.msqid).isNone
  | _ => false

def System.orphaned (sys : System) : Event → Bool
  | .resume t interrupted _ => t = tid && (sys.threads t).any fun th => th.orphaned p sys.msgs interrupted
  | _ => false

def Undisturbed : System → List Event → Prop
  | _, [] => True
  | sys, e :: events => sys.orphaned p tid e = false ∧ Undisturbed (sys.step p e) events

end Operations

variable {p : Params} {s : Msgs} {q junk tid : Nat} {msqid : Int} {env : Env} {ops gone : List LockOp}

lemma heldAfter_enter (l : Lock) : heldAfter [] (.enter l :: ops) = heldAfter [l] ops := if_neg List.not_mem_nil

lemma heldAfter_exit (l : Lock) : heldAfter [l] (.exit l :: ops) = heldAfter [] ops := by
  simp [heldAfter]

lemma heldAfter_brief (l : Lock) : heldAfter [] (brief l ++ ops) = heldAfter [] ops :=
  (heldAfter_enter l).trans (heldAfter_exit l)

lemma heldAfter_getresOps (cnt : Nat) (nowait : Bool) :
    heldAfter [.queue q] (getresOps p s q cnt nowait env) = some [] := by
  unfold getresOps
  split_ifs <;> simp [brief, heldAfter]

lemma heldAfter_receiveOps (a : RecvArgs) : heldAfter [.queue q] (receiveOps p s q a env) = some [] := by
  unfold receiveOps
  split
  · exact heldAfter_exit _
  · dsimp only
    split_ifs <;> simp [brief, heldAfter]

/-- A conversion that succeeds leaves the lock of the queue to what follows. -/
lemma heldAfter_msgconvOps {rest : Nat → List LockOp} (h : ∀ q, heldAfter [.queue q] (rest q) = some []) :
    heldAfter [] (msgconvOps p s msqid gone rest) =
      if msgconv p s msqid = none then heldAfter [] gone else some [] := by
  unfold msgconvOps
  split_ifs with hneg hnone hnone
  · rfl
  · exact absurd (if_pos hneg) hnone
  · rw [hnone]
    exact heldAfter_brief _
  · obtain ⟨q, hq⟩ := Option.ne_none_iff_exists'.mp hnone
    rw [hq]
    exact (heldAfter_enter _).trans (h q)

lemma heldAfter_call {rest : Nat → List LockOp} (h : ∀ q, heldAfter [.queue q] (rest q) = some []) :
    heldAfter [] (msgconvOps p s msqid [] rest) = some [] := (heldAfter_msgconvOps h).trans (ite_self _)

lemma Thread.heldAfter_resumeOps (interrupted : Bool) (th : Thread) :
    heldAfter [] (th.resumeOps p s junk interrupted env) = if th.orphaned p s interrupted then none else some [] := by
  cases th with
  | receive a =>
    rw [Thread.resumeOps, heldAfter_enter]
    change _ = some []
    split_ifs
    · exact heldAfter_exit _
    · exact heldAfter_receiveOps a
  | send w a =>
    have hwait : ∀ l, heldAfter [] (brief l ++ msgconvOps p s a.msqid [] fun q =>
        if interrupted then [.exit (.queue q)] else getresOps p s q a.cnt a.nowait env) = some [] := by
      intro l
      rw [heldAfter_brief]
      refine heldAfter_call fun q => ?_
      split_ifs
      · exact heldAfter_exit _
      · exact heldAfter_getresOps ..
    cases w with
    | header => exact hwait .header
    | map => exact hwait .map
    | space =>
      rw [Thread.resumeOps, heldAfter_enter]
      cases interrupted with
      | true =>
        rw [if_pos rfl, heldAfter_exit, heldAfter_msgconvOps fun q => heldAfter_exit _]
        simp [heldAfter, Thread.orphaned]
      | false =>
        rw [if_neg Bool.false_ne_true]
        change _ = some []
        split_ifs
        · exact heldAfter_exit _
        · exact heldAfter_getresOps ..

lemma heldAfter_lockOps (sys : System) (e : Event) :
    heldAfter [] (sys.lockOps p junk tid e) = if sys.orphaned p tid e then none else some [] := by
  cases e with
  | msgget | rmid | set => rfl
  | msgsnd t msqid msgsz type nowait env =>
    change heldAfter [] (if _ then msgconvOps _ _ _ _ _ else _) = some []
    split
    · refine heldAfter_call fun q => ?_
      split_ifs
      · exact heldAfter_exit _
      · exact heldAfter_getresOps ..
    · rfl
  | msgrcv t msqid msgsz msgtyp noerror nowait env =>
    change heldAfter [] (if _ then msgconvOps _ _ _ _ _ else _) = some []
    split
    · refine heldAfter_call fun q => ?_
      split_ifs
      · exact heldAfter_exit _
      · exact heldAfter_receiveOps _
    · rfl
  | resume t interrupted env =>
    rw [System.lockOps, System.orphaned]
    cases sys.threads t with
    | none => simp [heldAfter]
    | some th =>
      by_cases htid : t = tid
      · simp [htid, Thread.heldAfter_resumeOps]
      · simp [htid, heldAfter]

/-- A call balances its locks in every run in which its queue is there whenever its wait for space is interrupted. -/
theorem locks_balanced_iff (p : Params) (junk tid : Nat) (sys : System) (events : List Event) :
    locksAlong p junk tid sys events [] = some [] ↔ Undisturbed p tid sys events := by
  induction events generalizing sys with
  | nil => exact iff_of_true rfl trivial
  | cons e events ih =>
    rw [locksAlong, Undisturbed, ← ih, heldAfter_lockOps]
    cases sys.orphaned p tid e with
    | true => exact iff_of_false (Option.some_ne_none _).symm fun h => Bool.noConfusion h.1
    | false => exact (and_iff_right rfl).symm

/-- A queue is removed, and its waiting sender interrupted: a lock nobody holds is given back. -/
theorem locks_not_balanced :
    let p : Params := ⟨1, 1, 1, 1, 1, 1, by decide, by decide, by decide, by decide⟩
    let env : Env := ⟨true, true, true, true, ⟨fun _ _ => none, fun _ _ _ h => nomatch h⟩⟩
    locksAlong p 0 0 (initial p) [.msgget 0 ⟨true, false, 0⟩, .set 0 true 0 0, .msgsnd 0 0 1 (some 1) false env,
      .rmid 0 true, .resume 0 true env] [] ≠ some [] := by
  decide

end Solaris.Msg
