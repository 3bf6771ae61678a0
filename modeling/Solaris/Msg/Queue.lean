import Mathlib.Data.BitVec

/-!
# System V message queues

The table of queues, the message headers with their free list and the map of text segments, with the sections of
`msgsnd` and `msgrcv` that run between two points where the lock of the queue is dropped. Whether a copy succeeds,
an access is granted or a wait is interrupted comes from outside.
-/

namespace Solaris.Msg

/-- `msginfo`. A size fits in `msg_ts` and a segment in `msg_spot`. -/
structure Params where
  msgmni : Nat
  msgtql : Nat
  msgseg : Nat
  msgssz : Nat
  msgmax : Nat
  msgmnb : Nat
  mni_pos : 0 < msgmni
  ssz_pos : 0 < msgssz
  max_le : msgmax ≤ 65535
  seg_lt : msgseg < 32768

def btoq (p : Params) (n : Nat) : Nat := (n + p.msgssz - 1) / p.msgssz

/-- `struct msg` -/
structure Header where
  next : Option Nat
  type : Int
  ts : Nat
  spot : Int

/-- `struct msqid_ds`; `alloc`, `rwait` and `wwait` are `IPC_ALLOC`, `MSG_RWAIT` and `MSG_WWAIT` of the mode. -/
structure Queue where
  alloc : Bool
  rwait : Bool
  wwait : Bool
  perms : BitVec 9
  seq : Nat
  key : Int
  first : Option Nat
  last : Option Nat
  cbytes : Nat
  qnum : Nat
  qbytes : Nat

structure Msgs where
  msgh : Nat → Header
  msgfp : Option Nat
  msgque : Nat → Queue
  segFree : Nat → Bool

inductive Errno where
  | einval
  | eacces
  | eperm
  | eexist
  | enoent
  | enospc
  | efault
  | eagain
  | eintr
  | eidrm
  | enomsg
  | e2big

/-- `rmalloc` on the segments that are free: an address, one more than the number of the first segment. -/
structure Allocator where
  alloc : (Nat → Bool) → Nat → Option Nat
  lawful : ∀ free n spot, alloc free n = some spot → 0 < spot ∧ ∀ i, spot - 1 ≤ i → i < spot - 1 + n → free i = true

structure Env where
  access : Bool
  textIn : Bool
  typeOut : Bool
  textOut : Bool
  rm : Allocator

namespace Msgs

variable (s : Msgs)

def setQueue (q : Nat) (qp : Queue) : Msgs := { s with msgque := Function.update s.msgque q qp }

def setHeader (x : Nat) (h : Header) : Msgs := { s with msgh := Function.update s.msgh x h }

def setNext (x : Nat) (next : Option Nat) : Msgs := s.setHeader x { s.msgh x with next := next }

def setSegs (first n : Nat) (free : Bool) : Msgs :=
  { s with segFree := fun i => if first ≤ i ∧ i < first + n then free else s.segFree i }

/-- `mp = msgfp; msgfp = mp->msg_next;` -/
def takeHeader (x : Nat) : Msgs := { s with msgfp := (s.msgh x).next }

/-- `mp->msg_next = msgfp; msgfp = mp;` -/
def putHeader (x : Nat) : Msgs := { s.setNext x s.msgfp with msgfp := some x }

end Msgs

section Free

variable (p : Params) (s : Msgs)

/-- "Unlink message from the q." -/
def unlink (q : Nat) (pmp : Option Nat) (mp : Nat) : Msgs :=
  let next := (s.msgh mp).next
  let qp := s.msgque q
  let s₁ := match pmp with
    | none => s.setQueue q { qp with first := next }
    | some x => s.setNext x next
  let qp₁ := s₁.msgque q
  s₁.setQueue q
    { qp₁ with
      last := if next = none then pmp else qp₁.last
      qnum := qp₁.qnum - 1
      wwait := false }

/-- "Free up message text." -/
def freeText (mp : Nat) : Msgs :=
  if (s.msgh mp).ts ≠ 0 then s.setSegs (s.msgh mp).spot.toNat (btoq p (s.msgh mp).ts) true else s

def msgfree (q : Nat) (pmp : Option Nat) (mp : Nat) : Msgs := (freeText p (unlink s q pmp mp) mp).putHeader mp

/-- `while (qp->msg_first) msgfree(qp, NULL, qp->msg_first);` -/
def freeAll : Nat → Msgs → Nat → Msgs
  | 0, s, _ => s
  | n + 1, s, q =>
    match (s.msgque q).first with
    | none => s
    | some mp => freeAll n (msgfree p s q none mp) q

/-- The slot of a queue, locked, when the identifier is that of a queue there is. -/
def msgconv (msqid : Int) : Option Nat :=
  if msqid < 0 then none
  else
    let q := msqid.toNat % p.msgmni
    if (s.msgque q).alloc = true ∧ msqid.toNat / p.msgmni = (s.msgque q).seq then some q else none

/-- `msgctl(IPC_RMID)`; the sequence number starts again when the identifier would not be an `int`. -/
def msgctlRmid (msqid : Int) (permitted : Bool) : Except Errno Unit × Msgs :=
  match msgconv p s msqid with
  | none => (.error .einval, s)
  | some q =>
    if permitted then
      let s := freeAll p (p.msgtql + 1) s q
      let qp := s.msgque q
      let seq := if msqid + p.msgmni ≥ 2 ^ 31 then 0 else qp.seq + 1
      (.ok (), s.setQueue q { qp with cbytes := 0, seq := seq, alloc := false, rwait := false, wwait := false, perms := 0 })
    else (.error .eperm, s)

/-- `msgctl(IPC_SET)` of the number of bytes a queue may hold. -/
def msgctlSet (msqid : Int) (permitted : Bool) (perms : BitVec 9) (qbytes : Nat) : Except Errno Unit × Msgs :=
  match msgconv p s msqid with
  | none => (.error .einval, s)
  | some q =>
    if permitted then (.ok (), s.setQueue q { s.msgque q with perms := perms, qbytes := qbytes }) else (.error .eperm, s)

end Free

section Get

variable (p : Params) (s : Msgs)

structure GetFlags where
  creat : Bool
  excl : Bool
  perms : BitVec 9

def freeSlot : Option Nat := (List.range p.msgmni).find? fun q => !(s.msgque q).alloc

/-- `ipcget`: a slot, and whether it is a new queue. -/
def ipcget (key : Int) (flag : GetFlags) : Except Errno (Nat × Bool) :=
  if key = 0 then
    match freeSlot p s with
    | some q => .ok (q, true)
    | none => .error .enospc
  else
    match (List.range p.msgmni).find? fun q => (s.msgque q).alloc && (s.msgque q).key == key with
    | some q =>
      if flag.creat ∧ flag.excl then .error .eexist
      else if flag.perms &&& ~~~(s.msgque q).perms ≠ 0 then .error .eacces
      else .ok (q, false)
    | none =>
      if flag.creat then
        match freeSlot p s with
        | some q => .ok (q, true)
        | none => .error .enospc
      else .error .enoent

/-- "This is a new queue. Finish initialization." -/
def newQueue (qp : Queue) (key : Int) (perms : BitVec 9) : Queue :=
  { qp with
    alloc := true
    rwait := false
    wwait := false
    perms := perms
    key := key
    first := none
    last := none
    qnum := 0
    qbytes := p.msgmnb }

def msgget (key : Int) (flag : GetFlags) : Except Errno Nat × Msgs :=
  match ipcget p s key flag with
  | .error e => (.error e, s)
  | .ok (q, new) =>
    let s := if new then s.setQueue q (newQueue p (s.msgque q) key flag.perms) else s
    (.ok ((s.msgque q).seq * p.msgmni + q), s)

end Get

section Send

variable (p : Params)

structure SendArgs where
  msqid : Int
  cnt : Nat
  type : Int
  nowait : Bool
  small : cnt ≤ 65535
  type_pos : 1 ≤ type

structure RecvArgs where
  msqid : Int
  msgsz : Nat
  msgtyp : Int
  noerror : Bool
  nowait : Bool

/-- What `msgsnd` waits for: space on the queue, a header, or space in the map. -/
inductive Wait where
  | space
  | header
  | map
  deriving DecidableEq

inductive Thread where
  | send (w : Wait) (a : SendArgs)
  | receive (a : RecvArgs)

inductive Outcome where
  | returned (r : Except Errno Nat)
  | sleeps (t : Thread)

/-- `qp->msg_last->msg_next = mp;` -/
def linkLast (s : Msgs) (mp : Nat) : Option Nat → Msgs
  | none => s
  | some x => s.setNext x (some mp)

def enqueue (s : Msgs) (q mp : Nat) (a : SendArgs) (spot : Int) : Msgs :=
  let qp := s.msgque q
  (linkLast (s.setHeader mp ⟨none, a.type, a.cnt % 65536, spot⟩) mp qp.last).setQueue q
    { qp with
      qnum := qp.qnum + 1
      cbytes := qp.cbytes + a.cnt
      first := if qp.last = none then some mp else qp.first
      last := some mp
      rwait := false }

/-- The section of `msgsnd` with a header in hand. -/
def sendText (s : Msgs) (q mp : Nat) (a : SendArgs) (env : Env) : Outcome × Msgs :=
  if a.cnt = 0 then (.returned (.ok 0), enqueue s q mp a (-1))
  else
    match env.rm.alloc s.segFree (btoq p a.cnt) with
    | none =>
      if a.nowait then (.returned (.error .eagain), s.putHeader mp) else (.sleeps (.send .map a), s.putHeader mp)
    | some spot =>
      let s₁ := s.setSegs (spot - 1) (btoq p a.cnt) false
      if env.textIn then
        (.returned (.ok 0), enqueue s₁ q mp a ((BitVec.ofNat 16 (spot - 1)).toInt))
      else (.returned (.error .efault), (s₁.setSegs (spot - 1) (btoq p a.cnt) true).putHeader mp)

/-- "Allocate space on q, message header, & buffer space." -/
def getres (s : Msgs) (q : Nat) (a : SendArgs) (env : Env) : Outcome × Msgs :=
  let qp := s.msgque q
  if a.cnt + qp.cbytes > qp.qbytes then
    if a.nowait then (.returned (.error .eagain), s)
    else (.sleeps (.send .space a), s.setQueue q { qp with wwait := true })
  else
    match s.msgfp with
    | none => if a.nowait then (.returned (.error .eagain), s) else (.sleeps (.send .header a), s)
    | some mp => sendText p (s.takeHeader mp) q mp a env

/-- `msgsnd` up to where it first waits; `type` is the type when it can be copied in. -/
def msgsnd (s : Msgs) (msqid msgsz : Int) (type : Option Int) (nowait : Bool) (env : Env) : Outcome × Msgs :=
  match msgconv p s msqid with
  | none => (.returned (.error .einval), s)
  | some q =>
    if env.access = false then (.returned (.error .eacces), s)
    else if h : msgsz < 0 ∨ msgsz > p.msgmax then (.returned (.error .einval), s)
    else
      match type with
      | none => (.returned (.error .efault), s)
      | some type =>
        if ht : type < 1 then (.returned (.error .einval), s)
        else
          have hmax := p.max_le
          getres p s q ⟨msqid, msgsz.toNat, type, nowait, by omega, by omega⟩ env

/-- `msgsnd` goes on when its wait has ended. -/
def resumeSend (s : Msgs) (w : Wait) (a : SendArgs) (interrupted : Bool) (env : Env) : Outcome × Msgs :=
  match msgconv p s a.msqid with
  | none => (.returned (.error (if interrupted ∧ w = .header then .einval else .eidrm)), s)
  | some q =>
    if interrupted then
      (.returned (.error .eintr), if w = .space then s.setQueue q { s.msgque q with wwait := false } else s)
    else getres p s q a env

end Send

section Receive

variable (p : Params)

/-- `-msgtyp` as a `long`. -/
def negLong (n : Int) : Int := if n = -2 ^ 31 then n else -n

/-- The loop of `findmsg`: the message chosen and its predecessor. -/
def findLoop (h : Nat → Header) (msgtyp : Int) :
    Nat → Option Nat → Option Nat → Option Nat → Option Nat → Option Nat × Option Nat
  | 0, _, _, smp, spmp => (smp, spmp)
  | _ + 1, _, none, smp, spmp => (smp, spmp)
  | n + 1, pmp, some mp, smp, spmp =>
    if msgtyp > 0 then
      if msgtyp ≠ (h mp).type then findLoop h msgtyp n (some mp) (h mp).next smp spmp else (some mp, pmp)
    else if (h mp).type ≤ negLong msgtyp then
      if smp.any fun x => (h x).type ≤ (h mp).type then findLoop h msgtyp n (some mp) (h mp).next smp spmp
      else findLoop h msgtyp n (some mp) (h mp).next (some mp) pmp
    else findLoop h msgtyp n (some mp) (h mp).next smp spmp

def findmsg (s : Msgs) (q : Nat) (msgtyp : Int) : Option Nat × Option Nat :=
  if msgtyp = 0 then ((s.msgque q).first, none)
  else findLoop s.msgh msgtyp (p.msgtql + 1) none (s.msgque q).first none none

/-- The section of `msgrcv` from `findmsg` on. -/
def receive (s : Msgs) (q : Nat) (a : RecvArgs) (env : Env) : Outcome × Msgs :=
  match findmsg p s q a.msgtyp with
  | (some smp, spmp) =>
    let ts := (s.msgh smp).ts
    if a.msgsz < ts ∧ a.noerror = false then (.returned (.error .e2big), s)
    else
      let sz := min a.msgsz ts
      if env.typeOut = false ∨ (sz ≠ 0 ∧ env.textOut = false) then (.returned (.error .efault), s)
      else
        let qp := s.msgque q
        (.returned (.ok sz), msgfree p (s.setQueue q { qp with cbytes := qp.cbytes - ts }) q spmp smp)
  | (none, _) =>
    if a.nowait then (.returned (.error .enomsg), s)
    else (.sleeps (.receive a), s.setQueue q { s.msgque q with rwait := true })

def msgrcv (s : Msgs) (msqid msgsz msgtyp : Int) (noerror nowait : Bool) (env : Env) : Outcome × Msgs :=
  match msgconv p s msqid with
  | none => (.returned (.error .einval), s)
  | some q =>
    if env.access = false then (.returned (.error .eacces), s)
    else if msgsz < 0 then (.returned (.error .einval), s)
    else receive p s q ⟨msqid, msgsz.toNat, msgtyp, noerror, nowait⟩ env

/-- "Check for msg q deleted or reallocated" -/
def resumeReceive (s : Msgs) (a : RecvArgs) (interrupted : Bool) (env : Env) : Outcome × Msgs :=
  if interrupted then (.returned (.error .eintr), s)
  else
    match msgconv p s a.msqid with
    | none => (.returned (.error .eidrm), s)
    | some q => receive p s q a env

end Receive

section System

structure System where
  msgs : Msgs
  threads : Nat → Option Thread

inductive Event where
  | msgget (key : Int) (flag : GetFlags)
  | rmid (msqid : Int) (permitted : Bool)
  | set (msqid : Int) (permitted : Bool) (perms : BitVec 9) (qbytes : Nat)
  | msgsnd (tid : Nat) (msqid msgsz : Int) (type : Option Int) (nowait : Bool) (env : Env)
  | msgrcv (tid : Nat) (msqid msgsz msgtyp : Int) (noerror nowait : Bool) (env : Env)
  | resume (tid : Nat) (interrupted : Bool) (env : Env)

def System.settle (sys : System) (tid : Nat) (r : Outcome × Msgs) : System where
  msgs := r.2
  threads := Function.update sys.threads tid
    (match r.1 with
    | .returned _ => none
    | .sleeps t => some t)

def Thread.resume (p : Params) (s : Msgs) (interrupted : Bool) (env : Env) : Thread → Outcome × Msgs
  | .send w a => resumeSend p s w a interrupted env
  | .receive a => resumeReceive p s a interrupted env

def System.step (p : Params) (sys : System) : Event → System
  | .msgget key flag => { sys with msgs := (Msg.msgget p sys.msgs key flag).2 }
  | .rmid msqid permitted => { sys with msgs := (msgctlRmid p sys.msgs msqid permitted).2 }
  | .set msqid permitted perms qbytes => { sys with msgs := (msgctlSet p sys.msgs msqid permitted perms qbytes).2 }
  | .msgsnd tid msqid msgsz type nowait env =>
    match sys.threads tid with
    | none => sys.settle tid (Msg.msgsnd p sys.msgs msqid msgsz type nowait env)
    | some _ => sys
  | .msgrcv tid msqid msgsz msgtyp noerror nowait env =>
    match sys.threads tid with
    | none => sys.settle tid (Msg.msgrcv p sys.msgs msqid msgsz msgtyp noerror nowait env)
    | some _ => sys
  | .resume tid interrupted env =>
    match sys.threads tid with
    | none => sys
    | some t => sys.settle tid (t.resume p sys.msgs interrupted env)

def emptyQueue : Queue := ⟨false, false, false, 0, 0, 0, none, none, 0, 0, 0⟩

/-- After `_init`: every header is linked to the next, and all segments are free. -/
def initial (p : Params) : System where
  msgs :=
    { msgh := fun i => ⟨if i + 1 < p.msgtql then some (i + 1) else none, 0, 0, 0⟩
      msgfp := if 0 < p.msgtql then some 0 else none
      msgque := fun _ => emptyQueue
      segFree := fun i => decide (i < p.msgseg) }
  threads := fun _ => none

end System

end Solaris.Msg
