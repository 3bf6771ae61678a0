import Solaris.Lib.Words

/-!
# Receiving data on a connection

`tcp_rput_data` on an established connection, for segments without SYN, RST, FIN and URG: the segment is trimmed to the
receive window, put on the reassembly list when it is out of order, and passed upstream or kept on the `tcp_rcv` list.
A message is the list of its blocks, a piece of the reassembly list one block with the sequence numbers kept in it.
`tcp_reass_tail` is the last piece of the list.
-/

namespace Solaris.Tcp

abbrev Byte := BitVec 8

abbrev Bytes := List Byte

abbrev Seq := BitVec 32

section Compare

def SEQ_LT (a b : Seq) : Bool := (a - b).toInt < 0

def SEQ_LEQ (a b : Seq) : Bool := (a - b).toInt ≤ 0

def SEQ_GT (a b : Seq) : Bool := (a - b).toInt > 0

def SEQ_GEQ (a b : Seq) : Bool := (a - b).toInt ≥ 0

end Compare

section Reassembly

/-- A block with `TCP_REASS_SEQ` and `TCP_REASS_END`. -/
structure Piece where
  seq : Seq
  fin : Seq
  data : Bytes
  deriving DecidableEq

/-- "Eliminate any overlap that mp may have over later mblks". -/
def elimOverlap (mp : Piece) : List Piece → Piece × List Piece
  | [] => (mp, [])
  | mp1 :: rest =>
    if SEQ_GT mp.fin mp1.seq = false then (mp, mp1 :: rest)
    else if SEQ_GEQ mp.fin mp1.fin = false then
      ({ mp with fin := mp1.seq, data := mp.data.take (mp.data.length - (mp.fin - mp1.seq).toNat) }, mp1 :: rest)
    else elimOverlap mp rest

/-- Trim the overlap with the following pieces first, then that with the preceding one. -/
def linkIn (mp mp1 : Piece) (rest : List Piece) : List Piece :=
  let r := elimOverlap mp rest
  let r1 := elimOverlap mp1 (r.1 :: r.2)
  r1.1 :: r1.2

/-- "We find our slot, where mp1 precedes us and mp2 trails." -/
def findSlot (mp mp1 : Piece) : List Piece → List Piece
  | [] => linkIn mp mp1 []
  | mp2 :: rest => if SEQ_LEQ mp.seq mp2.seq then linkIn mp mp1 (mp2 :: rest) else mp1 :: findSlot mp mp2 rest

def addPiece (mp : Piece) (l : List Piece) : List Piece :=
  match l with
  | [] => [mp]
  | head :: rest =>
    if l.getLast?.any fun tail => SEQ_GEQ mp.seq tail.fin then l ++ [mp]
    else if SEQ_LT mp.seq head.seq then
      let r := elimOverlap mp l
      r.1 :: r.2
    else findSlot mp head rest

/-- "Walk through all the new pieces." -/
def addPieces (start : Seq) : List Bytes → List Piece → List Piece
  | [], l => l
  | b :: bs, l =>
    let fin := start + BitVec.ofNat 32 b.length
    addPieces fin bs (if start = fin then l else addPiece ⟨start, fin, b⟩ l)

/-- "Eat what we can off the queue": the blocks behind the first, and what stays. -/
def eat (fin : Seq) : List Piece → List Bytes × List Piece
  | [] => ([], [])
  | mp :: rest =>
    if fin ≠ mp.seq then ([], mp :: rest)
    else
      let r := eat mp.fin rest
      (mp.data :: r.1, r.2)

/-- `tcp_reass`: the message that is ready, if there is one, and the new list. -/
def tcpReass (rnxt : Seq) (mp : List Bytes) (start : Seq) (l : List Piece) : Option (List Bytes) × List Piece :=
  match addPieces start mp l with
  | [] => (none, [])
  | head :: rest =>
    if head.seq ≠ rnxt then (none, head :: rest)
    else
      let r := eat head.fin rest
      (some (head.data :: r.1), r.2)

end Reassembly

section Trim

/-- "chew the gap off the front" -/
def chewFront : Nat → List Bytes → List Bytes
  | _, [] => []
  | n, b :: bs => if b.length > n then b.drop n :: bs else if b.length < n then chewFront (n - b.length) bs else bs

/-- "Pitch out of window stuff off the end." -/
def chopEnd : Nat → List Bytes → List Bytes
  | _, [] => []
  | n, b :: bs => if b.length > n then [b.take n] else b :: chopEnd (n - b.length) bs

def msgdsize (mp : List Bytes) : Nat := (mp.map List.length).sum

/-- A segment: `th_ack` when the ACK flag is set, the PSH flag and the data. -/
structure Segment where
  seq : Seq
  ack : Option Seq
  psh : Bool
  mp : List Bytes

/-- `tcp_t` -/
structure Conn where
  rnxt : Seq
  rwnd : BitVec 32
  reass : List Piece
  rcv : List Bytes
  rcvCnt : Nat
  upstream : Bytes
  listener : Bool
  suna : Seq
  snxt : Seq

/-- The part of a segment that lies in the window, with its sequence number and length; none when the segment is
"unacceptable". -/
def trim (t : Conn) (seg : Segment) : Option (Seq × List Bytes × Int) :=
  let gap := (seg.seq - t.rnxt).toInt
  let segLen : Int := msgdsize seg.mp
  let rgap := (t.rwnd - BitVec.ofInt 32 (gap + segLen)).toInt
  if gap < 0 ∧ segLen + gap ≤ 0 then none
  else
    let segSeq := if gap < 0 then t.rnxt else seg.seq
    let mp := if gap < 0 then chewFront (-gap).toNat seg.mp else seg.mp
    let segLen := if gap < 0 then segLen + gap else segLen
    if rgap < 0 then
      if segLen + rgap ≤ 0 then none else some (segSeq, chopEnd (segLen + rgap).toNat mp, segLen + rgap)
    else some (segSeq, mp, segLen)

end Trim

section Deliver

variable (t : Conn)

/-- The test of the acknowledgement: whether the segment goes on, and the connection then. -/
def processAck (ack : Option Seq) : Option Conn :=
  match ack with
  | none => none
  | some ack =>
    let bytesAcked := (ack - t.suna).toInt
    if bytesAcked ≤ 0 then some t
    else if SEQ_GT ack t.snxt then none
    else some { t with suna := ack }

def deliver (pushWait : Nat) (psh canput : Bool) (mp : List Bytes) (segLen : Nat) : Conn :=
  let t := { t with rnxt := t.rnxt + BitVec.ofNat 32 segLen }
  let mp := match mp with
    | [] => []
    | b :: bs => if b.length = 0 then bs else b :: bs
  if t.listener then
    { t with rcv := t.rcv ++ mp, rcvCnt := t.rcvCnt + segLen, rwnd := t.rwnd - BitVec.ofNat 32 segLen }
  else
    let t := if canput then t else { t with rwnd := t.rwnd - BitVec.ofNat 32 segLen }
    if psh ∨ t.rcvCnt + segLen ≥ pushWait then
      { t with upstream := t.upstream ++ (t.rcv ++ mp).flatten, rcv := [], rcvCnt := 0 }
    else { t with rcv := t.rcv ++ mp, rcvCnt := t.rcvCnt + segLen }

/-- What reassembly leaves: the message, its length, whether it is pushed, and the list. -/
structure Ready where
  mp : List Bytes
  segLen : Nat
  psh : Bool
  reass : List Piece

def reassemble (psh : Bool) (segSeq : Seq) (mp : List Bytes) (segLen : Int) : Ready :=
  if segSeq ≠ t.rnxt ∨ t.reass ≠ [] then
    if segLen > 0 then
      match tcpReass t.rnxt mp segSeq t.reass with
      | (some mp, reass) => ⟨mp, msgdsize mp, true, reass⟩
      | (none, reass) => ⟨[], 0, true, reass⟩
    else ⟨mp, segLen.toNat, psh, t.reass⟩
  else ⟨mp, segLen.toNat, psh, t.reass⟩

def tcpRputData (pushWait : Nat) (seg : Segment) (canput : Bool) : Conn :=
  match trim t seg with
  | none => (processAck t seg.ack).getD t
  | some (segSeq, mp, segLen) =>
    let r := reassemble t seg.psh segSeq mp segLen
    let t := { t with reass := r.reass }
    match processAck t seg.ack with
    | none => t
    | some t => if r.segLen = 0 then t else deliver t pushWait r.psh canput r.mp r.segLen

def push : Conn := { t with upstream := t.upstream ++ t.rcv.flatten, rcv := [], rcvCnt := 0 }

end Deliver

end Solaris.Tcp
