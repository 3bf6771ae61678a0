import Solaris.Lib.Codec
import Solaris.Lib.Words

/-!
# XDR streams

The operations of a stream in memory and of a stream over a chain of message blocks. An operation that
returns `FALSE` gives no stream back. A length is passed as an `int`.
-/

namespace Solaris.Xdr

section Streams

open Lib

/-- `struct xdr_ops` -/
structure Ops (σ : Type) where
  getlong : σ → Option (BitVec 32 × σ)
  putlong : σ → BitVec 32 → Option σ
  getbytes : σ → Nat → Option (List Byte × σ)
  putbytes : σ → List Byte → Option σ

/-- A length as a parameter of type `int` takes it. -/
def asInt (n : Nat) : Int := (BitVec.ofNat 32 n).toInt

section Memory

/-- `x_private` is at `pos` in the buffer. -/
structure Mem where
  buf : List Byte
  pos : Nat
  handy : Int

def xdrmemCreate (buf : List Byte) : Mem := ⟨buf, 0, asInt buf.length⟩

namespace Mem

def store (s : Mem) (bs : List Byte) : Mem :=
  { s with
    buf := s.buf.take s.pos ++ bs ++ s.buf.drop (s.pos + bs.length)
    pos := s.pos + bs.length
    handy := s.handy - asInt bs.length }

def skip (s : Mem) (len : Nat) : Mem := { s with pos := s.pos + len, handy := s.handy - asInt len }

end Mem

def xdrmemGetlong (s : Mem) : Option (BitVec 32 × Mem) :=
  if s.handy - 4 < 0 then none else some (wordOf (s.buf.drop s.pos), s.skip 4)

def xdrmemPutlong (s : Mem) (w : BitVec 32) : Option Mem :=
  if s.handy - 4 < 0 then none else some (s.store (wordBytes w))

def xdrmemGetbytes (s : Mem) (len : Nat) : Option (List Byte × Mem) :=
  if s.handy - asInt len < 0 then none else some ((s.buf.drop s.pos).take len, s.skip len)

def xdrmemPutbytes (s : Mem) (bs : List Byte) : Option Mem :=
  if s.handy - asInt bs.length < 0 then none else some (s.store bs)

def xdrmemOps : Ops Mem := ⟨xdrmemGetlong, xdrmemPutlong, xdrmemGetbytes, xdrmemPutbytes⟩

end Memory

section Blocks

/-- The bytes from `b_rptr` to `b_wptr`, and the room from there to `db_lim`. -/
structure Block where
  data : List Byte
  room : Nat

/-- `x_base` is the first block of `chain`, and `before` are the blocks in front of it. `x_private` is
`bufLen`, and `sizes` are the sizes of the blocks that `allocb` gives, one after the other. -/
structure Mblk where
  before : List Block
  chain : List Block
  handy : Int
  bufLen : Nat
  sizes : Nat → Nat
  allocs : Nat

inductive Op where
  | encode
  | decode

def xdrmblkInit (m : Block) (conts : List Block) (op : Op) (sz : Nat) (sizes : Nat → Nat) : Mblk where
  before := []
  chain := m :: conts
  handy := match op with
    | .decode => m.data.length
    | .encode => m.data.length + m.room
  bufLen := sz
  sizes := sizes
  allocs := 0

/-- What the handy count is when the first of these blocks is read. -/
def headData (conts : List Block) : Int := (conts.head?.map fun m => m.data.length).getD 0

def getlongFrom (s : Mblk) (before : List Block) (handy : Int) : List Block → Option (BitVec 32 × Mblk)
  | [] => none
  | m :: conts =>
    if handy - 4 < 0 then
      if handy - 4 ≠ -4 then none else getlongFrom s (before ++ [m]) (headData conts) conts
    else
      some (wordOf m.data,
        { s with before := before, chain := { m with data := m.data.drop 4 } :: conts, handy := handy - 4 })

def xdrmblkGetlong (s : Mblk) : Option (BitVec 32 × Mblk) := getlongFrom s s.before s.handy s.chain

def Block.drop (m : Block) (len : Nat) : Block := { m with data := m.data.drop len }

def getbytesFrom (s : Mblk) (before : List Block) (handy : Int) (len : Nat) (addr : List Byte) :
    List Block → Option (List Byte × Mblk)
  | [] => none
  | m :: conts =>
    if handy - asInt len < 0 then
      getbytesFrom s (before ++ [m.drop handy.toNat]) (headData conts) (len - handy.toNat)
        (addr ++ m.data.take handy.toNat) conts
    else
      some (addr ++ m.data.take len,
        { s with before := before, chain := m.drop len :: conts, handy := handy - asInt len })

def xdrmblkGetbytes (s : Mblk) (len : Nat) : Option (List Byte × Mblk) :=
  getbytesFrom s s.before s.handy len [] s.chain

/-- `xdrmblk_alloc` and `XDRMBLK_SETHANDY`: the block has the room asked for when it is not much larger. -/
def xdrmblkAlloc (s : Mblk) : Option Block :=
  if s.bufLen = 0 then none
  else some ⟨[], if s.sizes s.allocs / 2 ≤ s.bufLen then s.bufLen else s.sizes s.allocs⟩

def nextBlock (s : Mblk) : Option Mblk :=
  match s.chain with
  | [] => none
  | [m] => (xdrmblkAlloc s).map fun m' =>
      { s with before := s.before ++ [m], chain := [m'], handy := m'.room, allocs := s.allocs + 1 }
  | m :: m' :: conts =>
    some { s with before := s.before ++ [m], chain := m' :: conts, handy := m'.data.length + m'.room }

/-- The bytes are written at `b_wptr`: `ASSERT(m->b_wptr <= m->b_datap->db_lim)`. -/
def storeBytes (s : Mblk) (bs : List Byte) : Option Mblk :=
  match s.chain with
  | [] => none
  | m :: conts =>
    if bs.length ≤ m.room then
      some { s with chain := ⟨m.data ++ bs, m.room - bs.length⟩ :: conts, handy := s.handy - bs.length }
    else none

def xdrmblkPutlong (s : Mblk) (w : BitVec 32) : Option Mblk :=
  if s.chain = [] then none
  else if s.handy - 4 < 0 then (nextBlock s).bind fun s => storeBytes s (wordBytes w)
  else storeBytes s (wordBytes w)

/-- The loop of `xdrmblk_putbytes`: a block is filled and the next one taken. -/
def putbytesLoop : Nat → Mblk → List Byte → Option Mblk
  | 0, _, _ => none
  | n + 1, s, bs =>
    if s.handy - asInt bs.length < 0 then
      (if 0 < s.handy then storeBytes s (bs.take s.handy.toNat) else some s).bind fun s' =>
        (nextBlock s').bind fun s'' => putbytesLoop n s'' (bs.drop s.handy.toNat)
    else storeBytes s bs

/-- Every second turn writes a byte or leaves a block of the chain. -/
def xdrmblkPutbytes (s : Mblk) (bs : List Byte) : Option Mblk :=
  if s.chain = [] then none else putbytesLoop (s.chain.length + bs.length + 1) s bs

def xdrmblkOps : Ops Mblk := ⟨xdrmblkGetlong, xdrmblkPutlong, xdrmblkGetbytes, xdrmblkPutbytes⟩

end Blocks

end Streams

/-!
## XDR filters

The procedures that encode and decode a value, over any stream. One procedure of the source has a branch
for each direction; here it has a field for each.
-/

section Filters

open Lib

/-- A value in memory. A string is the bytes before its null character. -/
inductive Val where
  | void
  | int (w : BitVec 32)
  | hyper (h : BitVec 64)
  | short (h : BitVec 16)
  | bool (b : Bool)
  | bytes (bs : List Byte)
  | array (vs : List Val)
  | union (dscm : BitVec 32) (v : Val)

/-- `xdrproc_t` -/
structure Filter (σ : Type) where
  encode : Val → σ → Option σ
  decode : σ → Option (Val × σ)

variable {σ : Type} (ops : Ops σ)

def xdrVoid : Filter σ where
  encode := fun _ s => some s
  decode := fun s => some (.void, s)

def xdrLong : Filter σ where
  encode
    | .int w, s => ops.putlong s w
    | _, _ => none
  decode s := do
    let (w, s) ← ops.getlong s
    return (.int w, s)

def xdrInt : Filter σ := xdrLong ops

def xdrULong : Filter σ where
  encode
    | .int w, s => ops.putlong s w
    | _, _ => none
  decode s := do
    let (w, s) ← ops.getlong s
    return (.int w, s)

def xdrUInt : Filter σ := xdrULong ops

def xdrEnum : Filter σ := xdrLong ops

def xdrLonglongT : Filter σ where
  encode
    | .hyper h, s => do
      let s ← ops.putlong s (h.extractLsb' 32 32)
      ops.putlong s (h.extractLsb' 0 32)
    | _, _ => none
  decode s := do
    let (hi, s) ← ops.getlong s
    let (lo, s) ← ops.getlong s
    return (.hyper (hi ++ lo), s)

def xdrULonglongT : Filter σ := xdrLonglongT ops

def xdrShort : Filter σ where
  encode
    | .short h, s => ops.putlong s (h.signExtend 32)
    | _, _ => none
  decode s := do
    let (l, s) ← ops.getlong s
    return (.short (l.setWidth 16), s)

def xdrUShort : Filter σ where
  encode
    | .short h, s => ops.putlong s (h.setWidth 32)
    | _, _ => none
  decode s := do
    let (l, s) ← ops.getlong s
    return (.short (l.setWidth 16), s)

def xdrBool : Filter σ where
  encode
    | .bool b, s => ops.putlong s (if b then 1 else 0)
    | _, _ => none
  decode s := do
    let (lb, s) ← ops.getlong s
    return (.bool (lb ≠ 0), s)

/-- "round byte count to full xdr units" -/
def rndup (cnt : Nat) : Nat := if cnt % 4 ≠ 0 then 4 - cnt % 4 else 0

def putOpaque (s : σ) (cp : List Byte) (cnt : Nat) : Option σ :=
  if cnt = 0 then some s
  else do
    let s ← ops.putbytes s (cp.take cnt)
    if rndup cnt = 0 then return s
    ops.putbytes s (List.replicate (rndup cnt) 0)

def getOpaque (s : σ) (cnt : Nat) : Option (List Byte × σ) :=
  if cnt = 0 then some ([], s)
  else do
    let (bs, s) ← ops.getbytes s cnt
    if rndup cnt = 0 then return (bs, s)
    let (_, s) ← ops.getbytes s (rndup cnt)
    return (bs, s)

def xdrOpaque (cnt : Nat) : Filter σ where
  encode
    | .bytes cp, s => putOpaque ops s cp cnt
    | _, _ => none
  decode s := do
    let (bs, s) ← getOpaque ops s cnt
    return (.bytes bs, s)

def xdrBytes (maxsize : BitVec 32) : Filter σ where
  encode
    | .bytes cp, s => do
      let size := BitVec.ofNat 32 cp.length
      let s ← ops.putlong s size
      if size > maxsize then none else putOpaque ops s cp size.toNat
    | _, _ => none
  decode s := do
    let (size, s) ← ops.getlong s
    if size > maxsize then none
    else if size = 0 then return (.bytes [], s)
    else
      let (bs, s) ← getOpaque ops s size.toNat
      return (.bytes bs, s)

def strlen (sp : List Byte) : Nat := (sp.takeWhile (· ≠ 0)).length

def xdrString (maxsize : BitVec 32) : Filter σ where
  encode
    | .bytes sp, s => do
      let size := BitVec.ofNat 32 (strlen sp)
      let s ← ops.putlong s size
      if size > maxsize then none else putOpaque ops s sp size.toNat
    | _, _ => none
  decode s := do
    let (size, s) ← ops.getlong s
    if size > maxsize then none
    else if size + 1 = 0 then return (.bytes [], s)
    else
      let (sp, s) ← getOpaque ops s size.toNat
      if strlen sp ≠ size.toNat then none else return (.bytes sp, s)

def encodeAll (elproc : Filter σ) : List Val → σ → Option σ
  | [], s => some s
  | v :: vs, s => do
    let s ← elproc.encode v s
    encodeAll elproc vs s

def decodeAll (elproc : Filter σ) : Nat → σ → Option (List Val × σ)
  | 0, s => some ([], s)
  | c + 1, s => do
    let (v, s) ← elproc.decode s
    let (vs, s) ← decodeAll elproc c s
    return (v :: vs, s)

/-- The elements are decoded into `nodesize` bytes; a product that wraps leaves no room for them. -/
def xdrArray (maxsize : BitVec 32) (elsize : Nat) (elproc : Filter σ) : Filter σ where
  encode
    | .array vs, s => do
      let c := BitVec.ofNat 32 vs.length
      let s ← ops.putlong s c
      if c > maxsize then none else encodeAll elproc (vs.take c.toNat) s
    | _, _ => none
  decode s := do
    let (c, s) ← ops.getlong s
    if c > maxsize then none
    else if c = 0 then return (.array [], s)
    else if 2 ^ 32 ≤ c.toNat * elsize then none
    else
      let (vs, s) ← decodeAll elproc c.toNat s
      return (.array vs, s)

/-- "search choices for a value that matches the discriminator" -/
def findChoice (choices : List (BitVec 32 × Filter σ)) (dfault : Option (Filter σ)) (dscm : BitVec 32) :
    Option (Filter σ) :=
  match choices with
  | [] => dfault
  | (value, proc) :: rest => if value = dscm then some proc else findChoice rest dfault dscm

def xdrUnion (choices : List (BitVec 32 × Filter σ)) (dfault : Option (Filter σ)) : Filter σ where
  encode
    | .union dscm v, s => do
      let s ← (xdrEnum ops).encode (.int dscm) s
      let proc ← findChoice choices dfault dscm
      proc.encode v s
    | _, _ => none
  decode s := do
    let (dscm, s) ← ops.getlong s
    let proc ← findChoice choices dfault dscm
    let (v, s) ← proc.decode s
    return (.union dscm v, s)

end Filters

/-!
## The wire format

What the bytes of a value are, and that every filter writes them and reads them back on any stream that
appends what it is given and gives back what is ahead.
-/

section Wire

open Lib

section Types

mutual

/-- The types of values, each with the procedure that is made for it. -/
inductive Ty where
  | void
  | int
  | uInt
  | hyper
  | uHyper
  | short
  | uShort
  | bool
  | fixed (cnt : Nat)
  | counted (maxsize : BitVec 32)
  | string (maxsize : BitVec 32)
  | array (maxsize : BitVec 32) (elsize : Nat) (elem : Ty)
  | union (arms : Arms)

/-- The choices of a union in order, then the default if there is one. -/
inductive Arms where
  | stop
  | dfault (t : Ty)
  | choice (value : BitVec 32) (t : Ty) (rest : Arms)

end

variable {σ : Type}

mutual

def Ty.proc (ops : Ops σ) : Ty → Filter σ
  | .void => xdrVoid
  | .int => xdrInt ops
  | .uInt => xdrUInt ops
  | .hyper => xdrLonglongT ops
  | .uHyper => xdrULonglongT ops
  | .short => xdrShort ops
  | .uShort => xdrUShort ops
  | .bool => xdrBool ops
  | .fixed cnt => xdrOpaque ops cnt
  | .counted maxsize => xdrBytes ops maxsize
  | .string maxsize => xdrString ops maxsize
  | .array maxsize elsize elem => xdrArray ops maxsize elsize (elem.proc ops)
  | .union arms => xdrUnion ops (arms.choices ops) (arms.default ops)

def Arms.choices (ops : Ops σ) : Arms → List (BitVec 32 × Filter σ)
  | .stop => []
  | .dfault _ => []
  | .choice value t rest => (value, t.proc ops) :: rest.choices ops

def Arms.default (ops : Ops σ) : Arms → Option (Filter σ)
  | .stop => none
  | .dfault t => some (t.proc ops)
  | .choice _ _ rest => rest.default ops

end

mutual

/-- The values of a type: counts are within the maximum, an array fits in memory, and a string has no null
character. -/
def Ty.HasVal : Ty → Val → Prop
  | .void, v => v = .void
  | .int, v => ∃ w, v = .int w
  | .uInt, v => ∃ w, v = .int w
  | .hyper, v => ∃ h, v = .hyper h
  | .uHyper, v => ∃ h, v = .hyper h
  | .short, v => ∃ h, v = .short h
  | .uShort, v => ∃ h, v = .short h
  | .bool, v => ∃ b, v = .bool b
  | .fixed cnt, v => ∃ bs, v = .bytes bs ∧ bs.length = cnt
  | .counted maxsize, v => ∃ bs, v = .bytes bs ∧ bs.length ≤ maxsize.toNat
  | .string maxsize, v => ∃ bs, v = .bytes bs ∧ bs.length ≤ maxsize.toNat ∧ 0 ∉ bs
  | .array maxsize elsize elem, v =>
    ∃ vs, v = .array vs ∧ vs.length ≤ maxsize.toNat ∧ vs.length * elsize < 2 ^ 32 ∧ ∀ x ∈ vs, elem.HasVal x
  | .union arms, v => ∃ dscm x, v = .union dscm x ∧ arms.HasVal dscm x

def Arms.HasVal : Arms → BitVec 32 → Val → Prop
  | .stop, _, _ => False
  | .dfault t, _, v => t.HasVal v
  | .choice value t rest, dscm, v => (value = dscm ∧ t.HasVal v) ∨ (value ≠ dscm ∧ rest.HasVal dscm v)

end

def padded (bs : List Byte) : List Byte := bs ++ List.replicate (rndup bs.length) 0

def prefixed (n : Nat) (bs : List Byte) : List Byte := wordBytes (BitVec.ofNat 32 n) ++ bs

mutual

def Ty.wire : Ty → Val → List Byte
  | .void, _ => []
  | .int, .int w => wordBytes w
  | .uInt, .int w => wordBytes w
  | .hyper, .hyper h => wordBytes (h.extractLsb' 32 32) ++ wordBytes (h.extractLsb' 0 32)
  | .uHyper, .hyper h => wordBytes (h.extractLsb' 32 32) ++ wordBytes (h.extractLsb' 0 32)
  | .short, .short h => wordBytes (h.signExtend 32)
  | .uShort, .short h => wordBytes (h.setWidth 32)
  | .bool, .bool b => wordBytes (if b then 1 else 0)
  | .fixed _, .bytes bs => padded bs
  | .counted _, .bytes bs => prefixed bs.length (padded bs)
  | .string _, .bytes bs => prefixed bs.length (padded bs)
  | .array _ _ elem, .array vs => prefixed vs.length (vs.flatMap elem.wire)
  | .union arms, .union dscm v => wordBytes dscm ++ arms.wire dscm v
  | _, _ => []

def Arms.wire : Arms → BitVec 32 → Val → List Byte
  | .stop, _, _ => []
  | .dfault t, _, v => t.wire v
  | .choice value t rest, dscm, v => if value = dscm then t.wire v else rest.wire dscm v

end

end Types

section Laws

variable {σ : Type}

structure Appends (ops : Ops σ) (W : σ → List Byte → Nat → Prop) : Prop where
  putlong : ∀ w, Puts 4 W (fun s => ops.putlong s w) (wordBytes w)
  putbytes : ∀ bs, 0 < bs.length → bs.length < 2 ^ 31 → Puts 1 W (fun s => ops.putbytes s bs) bs

structure GivesBack (ops : Ops σ) (R : σ → List Byte → Prop) : Prop where
  getlong : ∀ w, Gets 4 R ops.getlong w (wordBytes w)
  getbytes : ∀ bs, 0 < bs.length → bs.length < 2 ^ 31 → Gets 1 R (fun s => ops.getbytes s bs.length) bs bs

end Laws

end Wire

end Solaris.Xdr
