import Mathlib

/-!
# The directory name lookup cache

Entries are on the circular chain of their hash value, on the freelist, or in the hands of the thread that has taken them
off. The links of chains run through the heads and the entries alike, and a null link says that an entry is on no chain.
-/

namespace Solaris.Dnlc

section Lookup

abbrev Vnode := Nat

abbrev Name := List UInt8

/-- Credentials; 0 is `NOCRED`. -/
abbrev Cred := Nat

abbrev EntId := Nat

def NC_NAMLEN : Nat := 31

def NC_MOVETOFRONT : Nat := 2

structure Key where
  dp : Vnode
  name : Name
  cred : Cred

structure Ident where
  vp : Option Vnode
  dp : Option Vnode
  name : Name
  cred : Cred
  hash : UInt32

/-- A pointer that `hash_next` or `hash_prev` can hold. -/
inductive Ptr where
  | head (i : Nat)
  | entry (e : EntId)
  deriving DecidableEq

structure Config where
  ncsize : Nat
  pos : 0 < ncsize

def Config.ncHashsz (c : Config) : Nat := 2 ^ (c.ncsize / 2).size

/-- A remove or a purge takes a place in the history when it begins, and its end names that place. -/
inductive Event where
  | begun
  | entered (k : Key) (vp : Vnode)
  | looked (k : Key) (answer : Option Vnode)
  | removed (began : Nat) (dp : Vnode) (name : Name)
  | purged (began : Nat) (v : Vnode)

/-- The cache, with the holds taken, released and given to callers so far, and the history. -/
structure Cache where
  hashNext : Ptr → Option Ptr
  hashPrev : Ptr → Option Ptr
  nextFree : EntId → Option EntId
  ident : EntId → Ident
  freelist : Option EntId
  freeRotor : Nat
  purgeRotor : EntId
  releLock : Bool
  taken : Vnode → Nat
  released : Vnode → Nat
  given : Vnode → Nat
  history : List Event

namespace Cache

def hold (s : Cache) (v : Vnode) : Cache := { s with taken := Function.update s.taken v (s.taken v + 1) }

def rele (s : Cache) (v : Vnode) : Cache := { s with released := Function.update s.released v (s.released v + 1) }

def give (s : Cache) (v : Vnode) : Cache := { s with given := Function.update s.given v (s.given v + 1) }

def record (s : Cache) (ev : Event) : Cache := { s with history := s.history ++ [ev] }

def setIdent (s : Cache) (e : EntId) (id : Ident) : Cache := { s with ident := Function.update s.ident e id }

/-- `p->hash_next = v`. -/
def setNext (s : Cache) (p v : Option Ptr) : Cache :=
  match p with
  | none => s
  | some p => { s with hashNext := Function.update s.hashNext p v }

/-- `p->hash_prev = v`. -/
def setPrev (s : Cache) (p v : Option Ptr) : Cache :=
  match p with
  | none => s
  | some p => { s with hashPrev := Function.update s.hashPrev p v }

end Cache

/-- A `char` as an `int`. -/
def charInt (c : UInt8) : UInt32 := c.toInt8.toInt32.toUInt32

/-- `DNLC_HASH`; the shift of the address is the one of an `int`. -/
def dnlcHash (name : Name) (vp : Vnode) : UInt32 :=
  name.foldl (fun hash c => (hash <<< 4) + hash + charInt c) ((UInt32.ofNat vp).toInt32 >>> 8).toUInt32

def chainOf (c : Config) (hash : UInt32) : Nat := hash.toNat % c.ncHashsz

/-- The first entry that satisfies `p`, with its depth, along the links `next`. -/
def findFrom (next : Ptr → Option Ptr) (p : EntId → Bool) : Nat → Nat → Option Ptr → Option (EntId × Nat)
  | fuel + 1, depth, some (.entry e) => if p e then some (e, depth + 1) else findFrom next p fuel (depth + 1) (next (.entry e))
  | _, _, _ => none

/-- The test of `dnlc_search` and `dnlc_lookup`; no credentials stand for `ANYCRED`. -/
def isIdent (dp : Vnode) (name : Name) (hash : UInt32) (cred : Option Cred) (id : Ident) : Bool :=
  id.hash = hash ∧ id.dp = some dp ∧ (∀ cr ∈ cred, id.cred = cr) ∧ id.name = name

def dnlcSearch (c : Config) (s : Cache) (dp : Vnode) (name : Name) (hash : UInt32) (cred : Option Cred) : Option EntId :=
  (findFrom s.hashNext (fun e => isIdent dp name hash cred (s.ident e)) c.ncsize 0
    (s.hashNext (.head (chainOf c hash)))).map Prod.fst

def ncInshash (s : Cache) (e : EntId) (hp : Nat) : Cache :=
  let s := s.setNext (some (.entry e)) (s.hashNext (.head hp))
  let s := s.setPrev (some (.entry e)) (some (.head hp))
  let s := s.setPrev (s.hashNext (.head hp)) (some (.entry e))
  s.setNext (some (.head hp)) (some (.entry e))

def ncRmhash (s : Cache) (e : EntId) : Cache :=
  let s := s.setNext (s.hashPrev (.entry e)) (s.hashNext (.entry e))
  let s := s.setPrev (s.hashNext (.entry e)) (s.hashPrev (.entry e))
  let s := s.setPrev (some (.entry e)) none
  s.setNext (some (.entry e)) none

def ncMoveToFront (s : Cache) (hp : Nat) (e : EntId) : Cache :=
  let next := s.hashNext (.entry e)
  let prev := s.hashPrev (.entry e)
  let s := s.setNext prev next
  let s := s.setPrev next prev
  let next := s.hashNext (.head hp)
  let s := s.setNext (some (.entry e)) next
  let s := s.setPrev (some (.entry e)) (some (.head hp))
  let s := s.setPrev next (some (.entry e))
  s.setNext (some (.head hp)) (some (.entry e))

def dnlcFree (s : Cache) (e : EntId) : Cache :=
  let id := s.ident e
  let s := s.setIdent e { id with cred := 0, dp := none, vp := none }
  { s with nextFree := Function.update s.nextFree e s.freelist, freelist := some e }

/-- The section of `dnlc_get` under the lock of the freelist. -/
def popFree (s : Cache) : Option EntId × Cache :=
  match s.freelist with
  | none => (none, s)
  | some e => (some e, { s with freelist := s.nextFree e, nextFree := Function.update s.nextFree e none })

/-- The vnodes that an entry holds, in the order in which the callers release them. -/
def vpOf (s : Cache) (e : EntId) : List Vnode := (s.ident e).vp.toList

def dpOf (s : Cache) (e : EntId) : List Vnode := (s.ident e).dp.toList

/-- The section of `dnlc_get` in the chain `hp`: the last entry whose vnode is `idle`, and otherwise the last one. -/
def steal (c : Config) (idle : Vnode → Bool) (s : Cache) (hp : Nat) : Option (EntId × List Vnode) × Cache :=
  let found := (findFrom s.hashPrev (fun e => (s.ident e).vp.any idle) c.ncsize 0 (s.hashPrev (.head hp))).map Prod.fst
  let victim :=
    match found, s.hashPrev (.head hp) with
    | some e, _ => some e
    | none, some (.entry e) => some e
    | none, _ => none
  match victim with
  | some e => (some (e, dpOf s e ++ vpOf s e), ncRmhash s e)
  | none => (none, s)

/-- The section of `dnlc_enter` with an initialized entry: whether the entry is now in the chain. -/
def insert (c : Config) (s : Cache) (k : Key) (vp : Vnode) (e : EntId) : Bool × Cache :=
  let hash := dnlcHash k.name k.dp
  match dnlcSearch c s k.dp k.name hash (some k.cred) with
  | some _ => (false, s)
  | none => (true, (ncInshash s e (chainOf c hash)).record (.entered k vp))

def dnlcLookup (c : Config) (s : Cache) (k : Key) : Option Vnode × Cache :=
  if NC_NAMLEN < k.name.length then (none, s)
  else
    let hash := dnlcHash k.name k.dp
    let hp := chainOf c hash
    match findFrom s.hashNext (fun e => isIdent k.dp k.name hash (some k.cred) (s.ident e)) c.ncsize 0
        (s.hashNext (.head hp)) with
    | none => (none, s)
    | some (e, depth) =>
      let s := if NC_MOVETOFRONT < depth then ncMoveToFront s hp e else s
      match (s.ident e).vp with
      | none => (none, s)
      | some vp => (some vp, (s.hold vp).give vp)

/-- The loop of `dnlc_purge_vp` in one chain, from the pointer `p` on. -/
def purgeChain (v : Vnode) : Nat → Option Ptr → Cache → List Vnode → Cache × List Vnode
  | fuel + 1, some (.entry e), s, vs =>
    let np := s.hashNext (.entry e)
    if (s.ident e).dp = some v ∨ (s.ident e).vp = some v then
      purgeChain v fuel np (dnlcFree (ncRmhash s e) e) (vs ++ (vpOf s e ++ dpOf s e))
    else purgeChain v fuel np s vs
  | _, _, s, vs => (s, vs)

/-- The test of `dnlc_fs_purge1` under the lock of the chain of `hash`. -/
def stillGood (good : Vnode → Bool) (s : Cache) (current : EntId) (hash : UInt32) : Bool :=
  (s.ident current).hash = hash ∧ s.hashNext (.entry current) ≠ none ∧ (s.ident current).vp.any good

end Lookup

/-!
## The threads that use the cache

A thread is at a point between two sections, with an entry in its hands perhaps and with holds that it has yet to release.
A step is one section under a lock, or code between two sections that changes nothing but the thread's own entry. The tests
of `v_op`, `v_pages` and `v_count` are answers of the environment.
-/

section Threads

inductive Pc where
  | idle
  | enterGet (k : Key) (vp : Vnode)
  | enterPop (k : Key) (vp : Vnode)
  | enterSteal (k : Key) (vp : Vnode) (hp last : Nat)
  | enterChain (k : Key) (vp : Vnode) (hp last : Nat)
  | enterStolen (k : Key) (vp : Vnode)
  | enterInsert (k : Key) (vp : Vnode)
  | enterDouble
  | lookup (k : Key)
  | remove (dp : Vnode) (name : Name) (began : Nat)
  | removed (dp : Vnode) (name : Name) (began : Nat)
  | purgeLock (v : Vnode) (began : Nat)
  | purge (v : Vnode) (began i : Nat)
  | purgeRele (v : Vnode) (began : Nat)
  | fsScan (finish current : EntId)
  | fsChain (finish current : EntId) (hash : UInt32)
  | fsPurged (current : EntId)
  | iter (func : Ident → Bool) (i : Nat)
  | iterPurged

/-- A thread, with the entry in its hands and the vnodes that it has to release. -/
structure Thread where
  pc : Pc
  hand : Option EntId
  rele : List Vnode

inductive Call where
  | enter (k : Key) (vp : Vnode)
  | lookup (k : Key)
  | remove (dp : Vnode) (name : Name)
  | purgeVp (v : Vnode)
  | fsPurge1
  | iterPurge (func : Ident → Bool)

/-- What the environment decides: the next call of an idle thread, and the tests of vnodes. -/
structure Env where
  call : Call
  good : Vnode → Bool

/-- A call begins. Names that are too long are not cached. -/
def start (s : Cache) : Call → Cache × Pc
  | .enter k vp => if NC_NAMLEN < k.name.length then (s, .idle) else (s, .enterGet k vp)
  | .lookup k => (s, .lookup k)
  | .remove dp name =>
    if NC_NAMLEN < name.length then (s, .idle)
    else (s.record .begun, .remove dp name s.history.length)
  | .purgeVp v => (s.record .begun, .purgeLock v s.history.length)
  | .fsPurge1 => (s, .fsScan s.purgeRotor s.purgeRotor)
  | .iterPurge func => (s, .iter func 0)

/-- The next chain for `dnlc_get`. -/
def nextChain (c : Config) (hp : Nat) : Nat := if hp + 1 = c.ncHashsz then 0 else hp + 1

/-- The next entry for `dnlc_fs_purge1`. -/
def nextEntry (c : Config) (current : EntId) : EntId := if current + 1 = c.ncsize then 0 else current + 1

def advance (c : Config) (finish current : EntId) : Pc :=
  if nextEntry c current = finish then .idle else .fsScan finish (nextEntry c current)

/-- `VN_RELE` of the next vnode. -/
def releNext (s : Cache) (th : Thread) : Option (Cache × Thread) :=
  match th.rele with
  | v :: vs => some (s.rele v, { th with rele := vs })
  | [] => none

/-- `dnlc_free` of the entry in the hands, then `VN_RELE` of the vnodes. -/
def giveBack (s : Cache) (th : Thread) : Option (Cache × Thread) :=
  match th.hand with
  | some e => some (dnlcFree s e, { th with hand := none })
  | none => releNext s th

/-- The entry is taken off its chain, into the hands of a thread. -/
def takeOff (s : Cache) (e : EntId) (pc : Pc) : Cache × Thread :=
  (ncRmhash s e, ⟨pc, some e, vpOf s e ++ dpOf s e⟩)

def initEntry (s : Cache) (k : Key) (vp : Vnode) (e : EntId) : Cache :=
  ((s.setIdent e ⟨some vp, some k.dp, k.name, k.cred, dnlcHash k.name k.dp⟩).hold k.dp).hold vp

def step (c : Config) (env : Env) (s : Cache) (th : Thread) : Cache × Thread :=
  match th.pc with
  | .idle => ((start s env.call).1, { th with pc := (start s env.call).2 })
  | .enterGet k vp =>
    if s.freelist ≠ none then (s, { th with pc := .enterPop k vp })
    else (s, { th with pc := .enterSteal k vp s.freeRotor s.freeRotor })
  | .enterPop k vp =>
    match popFree s with
    | (some e, s) => (s, ⟨.enterStolen k vp, some e, th.rele⟩)
    | (none, s) => (s, { th with pc := .enterSteal k vp s.freeRotor s.freeRotor })
  | .enterSteal k vp hp last =>
    let hp := nextChain c hp
    let s := { s with freeRotor := hp }
    if s.hashNext (.head hp) = some (.head hp) then
      if hp = last then (s, { th with pc := .idle }) else (s, { th with pc := .enterSteal k vp hp last })
    else (s, { th with pc := .enterChain k vp hp last })
  | .enterChain k vp hp last =>
    match steal c env.good s hp with
    | (some (e, vs), s) => (s, ⟨.enterStolen k vp, some e, vs⟩)
    | (none, s) =>
      if hp = last then (s, { th with pc := .idle }) else (s, { th with pc := .enterSteal k vp hp last })
  | .enterStolen k vp =>
    match releNext s th with
    | some r => r
    | none =>
      match th.hand with
      | none => (s, th)
      | some e => (initEntry s k vp e, ⟨.enterInsert k vp, some e, [k.dp, vp]⟩)
  | .enterInsert k vp =>
    match th.hand with
    | none => (s, th)
    | some e =>
      match insert c s k vp e with
      | (true, s) => (s, ⟨.idle, none, []⟩)
      | (false, s) => (s, { th with pc := .enterDouble })
  | .enterDouble =>
    match releNext s th with
    | some r => r
    | none =>
      match th.hand with
      | none => (s, th)
      | some e => (dnlcFree s e, ⟨.idle, none, []⟩)
  | .lookup k =>
    let r := dnlcLookup c s k
    (r.2.record (.looked k r.1), { th with pc := .idle })
  | .remove dp name began =>
    match dnlcSearch c s dp name (dnlcHash name dp) none with
    | some e => takeOff s e (.removed dp name began)
    | none => (s.record (.removed began dp name), { th with pc := .idle })
  | .removed dp name began =>
    match giveBack s th with
    | some r => r
    | none => (s, { th with pc := .remove dp name began })
  | .purgeLock v began =>
    if s.releLock = true then (s, th) else ({ s with releLock := true }, { th with pc := .purge v began 0 })
  | .purge v began i =>
    if i < c.ncHashsz then
      let r := purgeChain v c.ncsize (s.hashNext (.head i)) s th.rele
      (r.1, { th with pc := .purge v began (i + 1), rele := r.2 })
    else (s, { th with pc := .purgeRele v began })
  | .purgeRele v began =>
    match releNext s th with
    | some r => r
    | none => ({ s with releLock := false }.record (.purged began v), { th with pc := .idle })
  | .fsScan finish current =>
    if (s.ident current).vp.any env.good = true then
      (s, { th with pc := .fsChain finish current (s.ident current).hash })
    else (s, { th with pc := advance c finish current })
  | .fsChain finish current hash =>
    if stillGood env.good s current hash = true then takeOff s current (.fsPurged current)
    else (s, { th with pc := advance c finish current })
  | .fsPurged current =>
    match giveBack s th with
    | some r => r
    | none => ({ s with purgeRotor := nextEntry c current }, { th with pc := .idle })
  | .iter func i =>
    if i < c.ncHashsz then
      match findFrom s.hashNext (fun e => (s.ident e).vp ≠ none ∧ func (s.ident e) = true) c.ncsize 0
          (s.hashNext (.head i)) with
      | some (e, _) => takeOff s e .iterPurged
      | none => (s, { th with pc := .iter func (i + 1) })
    else (s, { th with pc := .idle })
  | .iterPurged =>
    match giveBack s th with
    | some r => r
    | none => (s, { th with pc := .idle })

/-- `dnlc_init`: empty chains, and all entries on the freelist. -/
def dnlcInit (c : Config) : Cache :=
  (List.range c.ncsize).foldl dnlcFree
    { hashNext := fun p => match p with
        | .head i => some (.head i)
        | .entry _ => none
      hashPrev := fun p => match p with
        | .head i => some (.head i)
        | .entry _ => none
      nextFree := fun _ => none
      ident := fun _ => ⟨none, none, [], 0, 0⟩
      freelist := none
      freeRotor := 0
      purgeRotor := 0
      releLock := false
      taken := fun _ => 0
      released := fun _ => 0
      given := fun _ => 0
      history := [] }

/-- The states of all runs of `n` threads. -/
inductive Reachable (c : Config) (n : Nat) : Cache → (Fin n → Thread) → Prop
  | init : Reachable c n (dnlcInit c) fun _ => ⟨.idle, none, []⟩
  | step {s : Cache} {th : Fin n → Thread} (t : Fin n) (env : Env) : Reachable c n s th →
      Reachable c n (step c env s (th t)).1 (Function.update th t (step c env s (th t)).2)

end Threads

end Solaris.Dnlc
