import Solaris.Vj.Compress

/-!
# Rebuilding the headers of a line

The receiving side of the line: `vjuncompress_tcp` saves the header of an uncompressed packet in the slot it names,
with the checksum field zero, and writes the changes of a compressed packet into the saved header.
-/

namespace Solaris.Vj

open Lib

inductive Received where
  /-- The call returns 0; the message is lost when the last `msgpullup` fails. -/
  | accepted (msg : Option (List Byte))
  | badTcp
  deriving DecidableEq

def rebuildUrp (changes : Byte) (t : Nat) (hdr : Memory) (cp : List Byte) : Option (Memory × List Byte) :=
  if changes &&& newU ≠ 0 then
    let hdr := putByte hdr (t + 13) (thFlags hdr t ||| flagUrg)
    (decodeu cp).map fun r => (putHalf hdr (t + 18) r.1, r.2)
  else some (putByte hdr (t + 13) (thFlags hdr t &&& ~~~flagUrg), cp)

def rebuildWin (changes : Byte) (t : Nat) (hdr : Memory) (cp : List Byte) : Option (Memory × List Byte) :=
  if changes &&& newW ≠ 0 then (decodes (thWin hdr t) cp).map fun r => (putHalf hdr (t + 14) r.1, r.2)
  else some (hdr, cp)

def rebuildAck (changes : Byte) (t : Nat) (hdr : Memory) (cp : List Byte) : Option (Memory × List Byte) :=
  if changes &&& newA ≠ 0 then (decodel (thAck hdr t) cp).map fun r => (putWord hdr (t + 8) r.1, r.2)
  else some (hdr, cp)

def rebuildSeq (changes : Byte) (t : Nat) (hdr : Memory) (cp : List Byte) : Option (Memory × List Byte) :=
  if changes &&& newS ≠ 0 then (decodel (thSeq hdr t) cp).map fun r => (putWord hdr (t + 4) r.1, r.2)
  else some (hdr, cp)

def rebuildTcp (changes : Byte) (t hlen : Nat) (hdr : Memory) (cp : List Byte) : Option (Memory × List Byte) :=
  if changes &&& specialsMask = specialI then
    let i := lastData hdr hlen
    let hdr := putWord hdr (t + 8) (thAck hdr t + i)
    some (putWord hdr (t + 4) (thSeq hdr t + i), cp)
  else if changes &&& specialsMask = specialD then
    some (putWord hdr (t + 4) (thSeq hdr t + lastData hdr hlen), cp)
  else do
    let (hdr, cp) ← rebuildUrp changes t hdr cp
    let (hdr, cp) ← rebuildWin changes t hdr cp
    let (hdr, cp) ← rebuildAck changes t hdr cp
    rebuildSeq changes t hdr cp

def rebuildId (changes : Byte) (hdr : Memory) (cp : List Byte) : Option (Memory × List Byte) :=
  if changes &&& newI ≠ 0 then (decodes (ipId hdr) cp).map fun r => (putHalf hdr 4 r.1, r.2)
  else some (putHalf hdr 4 (ipId hdr + 1), cp)

/-- The checksum of the packet and the push bit, which every compressed packet carries. -/
def rebuildPush (changes : Byte) (t : Nat) (thsum : BitVec 16) (hdr : Memory) : Memory :=
  let hdr := putHalf hdr (t + 16) thsum
  putByte hdr (t + 13)
    (if changes &&& tcpPushBit ≠ 0 then thFlags hdr t ||| flagPush else thFlags hdr t &&& ~~~flagPush)

/-- The saved header with the changes of the packet, and the data behind them. -/
def rebuild (changes : Byte) (hlen : Nat) (hdr : Memory) : List Byte → Option (Memory × List Byte)
  | h :: l :: cp => do
    let t := 4 * ipHl hdr
    let (hdr, cp) ← rebuildTcp changes t hlen (rebuildPush changes t (h ++ l) hdr) cp
    rebuildId changes hdr cp
  | _ => none

def receiveCompressed (alloc : Alloc) (comp : Vjstruct) (changes : Byte) (cp : List Byte) :
    Option (Received × Vjstruct) :=
  let slot := comp.lastRecv.toNat
  let cs := comp.rstate slot
  match rebuild changes cs.hlen cs.hdr cp with
  | none => none
  | some (hdr, cp) =>
    if alloc.allocb then
      let hdr := putHalf hdr 2 (BitVec.ofNat 16 (cp.length + cs.hlen))
      let newmp := toBytes (putHalf hdr 10 (checksum hdr (4 * ipHl cs.hdr))) cs.hlen ++ cp
      some (.accepted (if alloc.msgpullup then some newmp else none),
        { comp with rstate := setHdr comp.rstate slot hdr })
    else some (.badTcp, { comp with rstate := setHdr comp.rstate slot hdr })

def receiveUncompressed (comp : Vjstruct) (msg : List Byte) : Option (Received × Vjstruct) :=
  let slot := ipP (ofBytes msg)
  if comp.maxslotin ≤ slot.toNat then some (.badTcp, { comp with toss := true })
  else
    let msg := msg.set 9 ipprotoTcp
    let ip := ofBytes msg
    let hlen := 4 * ipHl ip + 4 * thOff ip (4 * ipHl ip)
    if msg.length < hlen then none
    else
      let cs := comp.rstate slot.toNat
      let cs := { cs with hdr := putHalf (copyBytes hlen ip cs.hdr) 10 0, hlen := hlen % 256 }
      some (.accepted (some msg),
        { comp with lastRecv := slot, toss := false, rstate := Function.update comp.rstate slot.toNat cs })

def vjuncompressTcp (alloc : Alloc) (comp : Vjstruct) (type : PacketType) (msg : List Byte) :
    Option (Received × Vjstruct) :=
  match type with
  | .uncompressedTcp => receiveUncompressed comp msg
  | .compressedTcp =>
    match msg with
    | [] => none
    | changes :: cp =>
      if changes &&& newC ≠ 0 then
        match cp with
        | [] => none
        | slot :: cp =>
          if comp.maxslotin ≤ slot.toNat then some (.badTcp, { comp with toss := true })
          else receiveCompressed alloc { comp with toss := false, lastRecv := slot } changes cp
      else if comp.toss then some (.badTcp, comp)
      else receiveCompressed alloc comp changes cp
  | _ => some (.badTcp, { comp with toss := true })

end Solaris.Vj
