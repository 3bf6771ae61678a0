import Mathlib
import Solaris.Tcp.Receive

/-!
# Sending data on a connection

`tcp_wput`, `tcp_wput_slow`, `tcp_xmit_mp`, `tcp_xmit_end` and `tcp_wput_flush` on a connection that is established,
so that `TCP_ISS_VALID` is not set, and the part of `tcp_rput_data` that takes acknowledged bytes off the list. The
list is that of the blocks from `tcp_xmit_head` on, each with the bytes between its pointers; `tcp_xmit_tail` and
`tcp_xmit_last` are places in it, counted from the head. Times and timers are left out, and so is `tcp_drop_oob`,
which is for tests.
-/

namespace Solaris.Tcp

inductive TcpState
  | established
  | closeWait
  | finWait1
  | closing
  | lastAck
  | finWait2
  | timeWait
  deriving DecidableEq

/-- `state <= TCPS_CLOSE_WAIT` -/
def TcpState.Open (s : TcpState) : Prop := s = .established ∨ s = .closeWait

instance (s : TcpState) : Decidable s.Open := inferInstanceAs (Decidable (_ ∨ _))

/-- `tcp_t` -/
structure Sender where
  state : TcpState
  suna : Seq
  snxt : Seq
  unsent : Nat
  xmit : List Bytes
  xmitTail : Nat
  xmitLast : Nat
  tailUnsent : Int
  urgValid : Bool
  urg : Seq
  fssValid : Bool
  fss : Seq
  finSent : Bool
  finAcked : Bool
  swnd : BitVec 32
  cwnd : BitVec 32
  maxSwnd : BitVec 32
  mss : { n : Nat // 0 < n }
  naglim : Nat
  lastSentLen : BitVec 16
  hdrLen : Nat

/-- A segment passed down to IP, with the length in its IP header and its flags behind `TH_ACK`. -/
structure TxSegment where
  seq : Seq
  data : Bytes
  ipLength : BitVec 16
  psh : Bool
  fin : Bool
  urp : Option Seq

/-- The memory for one segment: whether the k-th `dupb` and `allocb` succeed, and whether the header has room in
front of the data. -/
structure Turn where
  dup : Nat → Bool
  hdr : Bool
  room : Bool

section XmitMp

/-- The loop of `tcp_xmit_mp`, with how many blocks and bytes it has; `none` when `dupb` fails. -/
def dupData (sendall : Bool) (max : Nat) (dup : Nat → Bool) : Nat → Nat → List Bytes → Option (List Bytes)
  | _, _, [] => some []
  | k, n, mp :: rest =>
    if n = max then some []
    else if k ≠ 0 ∧ sendall = false ∧ max < n + mp.length then some []
    else if dup k = false then none
    else if max < n + mp.length then some [mp.take (mp.length - (n + mp.length - max))]
    else (dupData sendall max dup (k + 1) (n + mp.length) rest).map fun l => mp :: l

/-- What `tcp_xmit_mp` changes when the FIN goes out for the first time. -/
def finGoesOut (t : Sender) : Sender :=
  { t with
    finSent := true
    state := match t.state with
      | .established => .finWait1
      | .closeWait => .lastAck
      | s => s
    snxt := t.fss + 1 }

/-- `tcp_xmit_mp`: the blocks of data, the segment, and the connection. -/
def tcpXmitMp (t : Sender) (turn : Turn) (mp : List Bytes) (max : Nat) (seq : Seq) (sendall : Bool) :
    Option (List Bytes × TxSegment × Sender) :=
  if turn.hdr = false then none
  else
    match dupData sendall max turn.dup 0 0 mp with
    | none => none
    | some l =>
      let dataLength := msgdsize l
      let atFin := t.fssValid = true ∧ seq + BitVec.ofNat 32 dataLength = t.fss
      let u1 := t.urg - seq + 1
      let seg : TxSegment := {
        seq
        data := l.flatten
        ipLength := BitVec.ofNat 16 (dataLength + t.hdrLen)
        psh := dataLength ≠ 0 ∧ t.unsent = 0
        fin := atFin ∧ t.finAcked = false
        urp := if t.urgValid = true ∧ u1.toNat < 64 * 1024 then some u1 else none }
      some (l, seg, if atFin ∧ t.finSent = false then finGoesOut t else t)

end XmitMp

section Slow

/-- The variables of the loop of `tcp_wput_slow`, with the segments passed down. -/
structure Slow where
  t : Sender
  snxt : Seq
  xmitTail : Nat
  tailUnsent : Int
  usable : Int
  out : List TxSegment

/-- "Pretend that all we were trying to send really got sent", with the blocks behind `xmit_tail`. -/
def pretend : List Bytes → Nat → Int → Nat × Int
  | [], tail, u => (tail, u)
  | mp :: rest, tail, u => if u < 0 then pretend rest (tail + 1) (u + mp.length) else (tail, u)

/-- "If we're a little short, tack on more mblks": whether there was memory, `xmit_tail` and `tail_unsent`, and the
blocks. -/
def tackOn (dup : Nat → Bool) : List Bytes → Nat → Nat → Int → List Bytes → Bool × Nat × Int × List Bytes
  | [], _, tail, u, l => (true, tail, u, l)
  | mp :: rest, k, tail, u, l =>
    if u < 0 ∧ u + mp.length ≤ 0 then
      if dup k = false then (false, tail + 1, u + mp.length, l)
      else tackOn dup rest (k + 1) (tail + 1) (u + mp.length) (l ++ [mp])
    else (true, tail, u, l)

/-- At `out_of_mem`. -/
def outOfMem (s : Slow) : Slow :=
  let r := pretend (s.t.xmit.drop (s.xmitTail + 1)) s.xmitTail s.tailUnsent
  { s with xmitTail := r.1, tailUnsent := r.2 }

/-- A turn of the loop with `tcp_valid_bits`; whether the loop goes on. -/
def validTurn (turn : Turn) (len : Nat) (s : Slow) : Bool × Slow :=
  let tail := s.t.xmit.getD s.xmitTail []
  let mp := tail.drop (tail.length - s.tailUnsent.toNat) :: s.t.xmit.drop (s.xmitTail + 1)
  let usable := s.usable - len
  match tcpXmitMp s.t turn mp len s.snxt false with
  | none => (false, outOfMem { s with usable })
  | some (l, seg, t) =>
    let len := msgdsize l
    let more := l.length - 1
    (true, {
      -- "Restore tcp_snxt so we get amount sent right."
      t := { t with snxt := s.t.snxt, lastSentLen := BitVec.ofNat 16 len }
      snxt := s.snxt + BitVec.ofNat 32 len
      xmitTail := s.xmitTail + more
      tailUnsent := ((mp.getD more []).length : Int) - (l.getLastD []).length
      usable
      out := s.out ++ [seg] })

/-- A turn of the loop without `tcp_valid_bits`. -/
def plainTurn (turn : Turn) (len : Nat) (s : Slow) : Bool × Slow :=
  let usable := s.usable - len
  let xmitTail := if s.tailUnsent ≠ 0 then s.xmitTail else s.xmitTail + 1
  let tail := s.t.xmit.getD xmitTail []
  let here := if s.tailUnsent ≠ 0 then s.tailUnsent.toNat else tail.length
  -- "Are the bytes above us in flight?"
  let inFlight := here ≠ tail.length
  let lastSentLen := if inFlight then s.t.lastSentLen else BitVec.ofNat 16 len
  let tailUnsent := (here : Int) - len
  let snxt := s.snxt + BitVec.ofNat 32 len
  let s' : Slow := { s with t := { s.t with lastSentLen }, snxt, xmitTail, tailUnsent, usable }
  if turn.dup 0 = false then (false, outOfMem s')
  else if (inFlight ∨ turn.room = false) ∧ turn.hdr = false then (false, outOfMem s')
  else
    let mp := tail.drop (tail.length - here)
    let r := tackOn turn.dup (s.t.xmit.drop (xmitTail + 1)) 1 xmitTail tailUnsent [mp]
    let u := r.2.2.1
    if r.1 = false then (false, outOfMem { s' with xmitTail := r.2.1, tailUnsent := u })
    else
      -- what was not sent to preserve the boundaries of blocks
      let short := if u < 0 then u else 0
      let seg : TxSegment := {
        seq := s.snxt
        data := r.2.2.2.flatten.take (r.2.2.2.flatten.length - u.toNat)
        ipLength := BitVec.ofInt 16 (len + s.t.hdrLen + short)
        psh := usable = 0
        fin := false
        urp := none }
      (true, {
        t := { s.t with lastSentLen := lastSentLen + BitVec.ofInt 16 short }
        snxt := snxt + BitVec.ofInt 32 short
        xmitTail := r.2.1
        tailUnsent := if u < 0 then 0 else u
        usable := usable - short
        out := s.out ++ [seg] })

/-- The loop, for the bytes that may be sent; a turn takes one of them at least. -/
def slowLoop (turns : Nat → Turn) : Nat → Slow → Slow
  | 0, s => s
  | fuel + 1, s =>
    let len : Int := if (s.t.mss : Int) > s.usable then s.usable else s.t.mss
    let waits := (s.t.mss : Int) > s.usable ∧
      (len ≤ 0 ∨ len < (s.t.maxSwnd >>> 1).toNat ∧ (s.t.unsent : Int) - (s.snxt - s.t.snxt).toNat > len ∧
        ¬(s.t.urgValid = true ∧ len = 1))
    if waits then s
    else
      let r := if s.t.urgValid = true ∨ s.t.fssValid = true then validTurn (turns fuel) len.toNat s
        else plainTurn (turns fuel) len.toNat s
      if r.1 = true then slowLoop turns fuel r.2 else r.2

variable (turns : Nat → Turn)

/-- At `done`. -/
def slowDone (s : Slow) : Sender × List TxSegment :=
  let t := { s.t with xmitTail := s.xmitTail, tailUnsent := s.tailUnsent }
  let len := (t.snxt - s.snxt).toInt
  let t := if len ≠ 0 then { t with snxt := s.snxt + (if t.finSent = true then 1 else 0) } else t
  ({ t with unsent := (len + t.unsent).toNat }, s.out)

/-- How much may be sent. `urgent` is what `usable` is first; when there is no message `tcp_state` is not set. -/
def usableBytes (t : Sender) (synRcvd : Bool) (urgent : Int) : Int :=
  if synRcvd = true then 0
  else
    let usableR := ((if t.swnd.toNat > t.cwnd.toNat then t.cwnd else t.swnd) - t.snxt + t.suna).toInt
    let usableR := if usableR > t.unsent then (t.unsent : Int) else usableR
    if usableR ≠ 0 then usableR else urgent

/-- `tcp_wput_slow` behind what it does to a message. -/
def tcpWputSlow (t : Sender) (synRcvd : Bool) (urgent : Int) : Sender × List TxSegment :=
  let usable := usableBytes t synRcvd urgent
  let s : Slow := ⟨t, t.snxt, t.xmitTail, t.tailUnsent, usable, []⟩
  if (t.mss : Int) > usable ∧ usable < t.naglim ∧ t.naglim > t.lastSentLen.toNat ∧ t.snxt ≠ t.suna ∧
      t.urgValid = false then slowDone s
  else slowDone (slowLoop turns usable.toNat s)

end Slow

section Put

variable (turns : Nat → Turn)

inductive MsgKind
  | data
  | dataReq
  | exdataReq
  deriving DecidableEq

/-- Data is not allowed after `T_ORDREL_REQ`. -/
def Sender.Accepts (t : Sender) : Prop := t.state.Open ∧ t.fssValid = false

instance (t : Sender) : Decidable t.Accepts := inferInstanceAs (Decidable (_ ∧ _))

/-- The blocks that hold something, put behind `tcp_xmit_last`. -/
def appendBlocks (t : Sender) (mp : List Bytes) : Sender :=
  if t.xmit = [] then
    { t with xmit := mp, xmitTail := 0, tailUnsent := (mp.headD []).length, xmitLast := mp.length - 1, unsent := msgdsize mp }
  else
    { t with
      xmit := t.xmit.take (t.xmitLast + 1) ++ mp
      xmitLast := t.xmitLast + mp.length
      unsent := msgdsize mp + t.unsent }

/-- `tcp_wput_slow` for a message of data; those of `M_PROTO` have an empty block first, which goes with the others
that are empty. -/
def putMessage (t : Sender) (kind : MsgKind) (mp : List Bytes) : Sender × List TxSegment :=
  if kind = .exdataReq ∧ msgdsize mp = 0 then (t, [])
  else
    let t := if kind = .exdataReq then
        { t with urg := t.snxt + BitVec.ofNat 32 (msgdsize mp - 1 + t.unsent), urgValid := true }
      else t
    if ¬t.Accepts then (t, [])
    else
      let mp := mp.filter fun b => b ≠ []
      if mp = [] then (t, [])
      else tcpWputSlow turns (appendBlocks t mp) false (if kind = .exdataReq then 1 else 0)

/-- The fast path of `tcp_wput` for a block `mp`. -/
def tcpWputFast (t : Sender) (turn : Turn) (synRcvd : Bool) (mp : Bytes) : Sender × List TxSegment :=
  let xmit := if t.xmit = [] then [mp] else t.xmit.take (t.xmitLast + 1) ++ [mp]
  let t := { t with xmit, xmitLast := xmit.length - 1, xmitTail := xmit.length - 1 }
  let len := mp.length
  let usable := ((if t.swnd.toNat > t.cwnd.toNat then t.cwnd else t.swnd) - t.snxt + t.suna).toInt
  if (len : Int) > usable then tcpWputSlow turns { t with unsent := len, tailUnsent := len } synRcvd 0
  else if len < t.mss ∧ t.snxt ≠ t.suna ∧ len < t.naglim ∧ t.lastSentLen.toNat < t.naglim then
    ({ t with unsent := len, tailUnsent := len }, [])
  else
    let snxt := t.snxt
    let t := { t with snxt := snxt + BitVec.ofNat 32 len }
    if turn.dup 0 = false then (t, [])
    else
      let t := { t with lastSentLen := BitVec.ofNat 16 len }
      if turn.room = false ∧ turn.hdr = false then (t, [])
      else (t, [{
        seq := snxt
        data := mp
        ipLength := BitVec.ofNat 16 (len + t.hdrLen)
        psh := true
        fin := false
        urp := none }])

/-- `tcp_wput` for a message of data. -/
def tcpWput (t : Sender) (turn : Turn) (synRcvd : Bool) (kind : MsgKind) (mp : List Bytes) :
    Sender × List TxSegment :=
  match kind, mp with
  | .data, [b] =>
    if t.state = .established ∧ t.unsent = 0 ∧ b ≠ [] ∧ b.length ≤ t.mss ∧ t.urgValid = false ∧ t.fssValid = false then
      tcpWputFast turns t turn synRcvd b
    else putMessage turns t .data [b]
  | kind, mp => putMessage turns t kind mp

end Put

section Ends

/-- `tcp_xmit_end`: whether the state was valid, and the connection. -/
def tcpXmitEnd (t : Sender) (turn : Turn) : Bool × Sender × List TxSegment :=
  if ¬t.state.Open then (false, t, [])
  else
    let t := { t with fss := t.snxt + BitVec.ofNat 32 t.unsent, fssValid := true }
    if t.unsent = 0 then
      match tcpXmitMp t turn [] 0 t.fss false with
      | some (_, seg, t) => (true, t, [seg])
      -- "Couldn't allocate msg. Pretend we got it out."
      | none => (true, { t with snxt := t.fss + 1 }, [])
    else (true, t, [])

/-- `tcp_wput_flush` for `FLUSHW`. -/
def tcpWputFlush (t : Sender) : Sender :=
  if t.xmit ≠ [] ∧ t.urgValid = false then
    let tail := t.xmit.getD t.xmitTail []
    let kept := tail.take (tail.length - t.tailUnsent.toNat)
    let xmit := t.xmit.set t.xmitTail kept
    let t := { t with xmit, tailUnsent := 0, unsent := 0 }
    -- where the blocks that are cut off begin
    let cut := if kept ≠ [] then t.xmitTail + 1 else t.xmitTail
    if cut < xmit.length then
      let t := { t with xmit := xmit.take cut }
      if cut ≠ 0 then { t with xmitTail := cut - 1, xmitLast := cut - 1 } else t
    else t
  else t

/-- Retransmission of the head by `tcp_rput_data` and by `tcp_timer`; `max` is what they allow. -/
def retransmit (t : Sender) (turn : Turn) (max : Nat) : Sender × List TxSegment :=
  match tcpXmitMp t turn t.xmit (min (t.snxt - t.suna).toNat max) t.suna true with
  | some (_, seg, t) => (t, [seg])
  | none => (t, [])

end Ends

section Acks

/-- What is left when acknowledged bytes have been taken off the list: how many blocks are gone, how many bytes there
were more, whether the last byte was the last of a block, and the list. -/
structure Eaten where
  blocks : Nat
  left : Nat
  whole : Bool
  rest : List Bytes

/-- "Eat acknowledged bytes off the xmit queue." -/
def eatAcked : Nat → Nat → List Bytes → Eaten
  | k, n, [] => ⟨k, n, false, []⟩
  | k, n, mp :: rest =>
    if n < mp.length then ⟨k, 0, false, mp.drop n :: rest⟩
    else if n = mp.length then ⟨k + 1, 0, true, rest⟩
    else eatAcked (k + 1) (n - mp.length) rest

/-- The part of `tcp_rput_data` on an acknowledgement. -/
def rputAck (t : Sender) (segAck : Seq) : Sender :=
  let bytesAcked := (segAck - t.suna).toInt
  if bytesAcked ≤ 0 ∨ SEQ_GT segAck t.snxt then t
  else
    let t := { t with suna := segAck }
    if t.xmit = [] then { t with finAcked := t.finAcked || t.finSent }
    else
      let t := if t.urgValid = true ∧ SEQ_GT segAck t.urg then { t with urgValid := false } else t
      let r := eatAcked 0 bytesAcked.toNat t.xmit
      let t := { t with xmit := r.rest, xmitLast := t.xmitLast - r.blocks }
      -- the block that `xmit_tail` is at may be the last one taken off
      if r.rest ≠ [] ∧ r.whole = true ∧ r.blocks = t.xmitTail + 1 then
        { t with xmitTail := 0, tailUnsent := (r.rest.headD []).length }
      else
        { t with
          xmitTail := t.xmitTail - r.blocks
          finAcked := if r.left ≠ 0 then t.finAcked || t.finSent else t.finAcked }

end Acks

section Runs

/-- What happens to a connection. What else changes is the windows and what goes with them, and the state. -/
inductive SendEvent
  | write (turns : Nat → Turn) (turn : Turn) (synRcvd : Bool) (kind : MsgKind) (mp : List Bytes)
  | push (turns : Nat → Turn) (synRcvd : Bool)
  | ack (segAck : Seq)
  | rexmit (turn : Turn) (max : Nat)
  | window (swnd cwnd maxSwnd : BitVec 32) (mss : { n : Nat // 0 < n }) (naglim hdrLen : Nat)
  | received (state : TcpState)
  | flush
  | ordrel (turn : Turn)

/-- The connection behind an event, and the segments passed down. -/
def Sender.event (t : Sender) : SendEvent → Sender × List TxSegment
  | .write turns turn synRcvd kind mp => tcpWput turns t turn synRcvd kind mp
  | .push turns synRcvd => tcpWputSlow turns t synRcvd 0
  | .ack segAck => (rputAck t segAck, [])
  | .rexmit turn max => retransmit t turn max
  | .window swnd cwnd maxSwnd mss naglim hdrLen => ({ t with swnd, cwnd, maxSwnd, mss, naglim, hdrLen }, [])
  | .received state => ({ t with state }, [])
  | .flush => (tcpWputFlush t, [])
  | .ordrel turn => (tcpXmitEnd t turn).2

/-- A connection with the bytes that have been written to it and not been flushed, the number of the first one, and
whether the FIN has been sent or, without memory for it, is taken to be. -/
structure SendRun where
  t : Sender
  start : Seq
  data : Bytes
  finOut : Bool

def SendRun.dataAfter (r : SendRun) : SendEvent → Bytes
  | .write _ _ _ _ mp => if r.t.Accepts then r.data ++ mp.flatten else r.data
  | .flush => if r.t.urgValid = true then r.data else r.data.take (r.data.length - r.t.unsent)
  | _ => r.data

/-- `T_ORDREL_REQ` comes with nothing unsent. -/
def Sender.endsNow (t : Sender) : SendEvent → Bool
  | .ordrel _ => t.state.Open ∧ t.unsent = 0
  | _ => false

def SendRun.exec (r : SendRun) (ev : SendEvent) : SendRun :=
  { r with
    t := (r.t.event ev).1
    data := r.dataAfter ev
    finOut := r.finOut || (r.t.event ev).1.finSent || r.t.endsNow ev }

end Runs

end Solaris.Tcp
