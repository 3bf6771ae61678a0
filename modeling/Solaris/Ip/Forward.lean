import Solaris.Ip.Options
import Solaris.Lib.HostOrder

/-!
# Forwarding a packet

What `ip_rput_forward` makes of the header of a packet: it adjusts the checksum to the lower `ipha_ttl`, updates the
options, and passes the packet on whole, in fragments, or as the cause of an ICMP error.
-/

namespace Solaris.Ip

open Lib (Byte Memory half word putByte putHalf copyBytes bcopy halfSum foldSum ByteOrder hostHalf putHostHalf)

def iphaTtl : Nat := 8

def iphaHdrChecksum : Nat := 10

/-- `ipha_version_and_hdr_length & 0xF` -/
def hdrWords (mem : Memory) : Nat := (mem 0).toNat % 16

section Checksum

variable (o : ByteOrder) (mem : Memory)

/-- The halves that are summed: those of a simple header at least. -/
def summedHalves : Nat := 10 + 2 * (hdrWords mem - 5)

def ipCsumHdr : BitVec 16 :=
  let sum := foldSum (halfSum (o.view mem) (summedHalves mem))
  let sum := ~~~BitVec.ofNat 16 (sum + sum / 2 ^ 16)
  if sum = 0xffff then 0 else sum

/-- `ipha->ipha_hdr_checksum = ip_csum_hdr(ipha)` -/
def storeCsum : Memory := putHostHalf o mem iphaHdrChecksum (ipCsumHdr o mem)

def clearCsum : Memory := putHostHalf o mem iphaHdrChecksum 0

/-- "Adjust the checksum to reflect the ttl decrement"; `IP_HDR_CSUM_TTL_ADJUST` is what the field counts. -/
def adjustedCsum : BitVec 16 :=
  let sum := (hostHalf o mem iphaHdrChecksum).toNat + o.weight
  BitVec.ofNat 16 (sum + sum / 2 ^ 16)

def decrementTtl : Memory :=
  putByte (putHostHalf o mem iphaHdrChecksum (adjustedCsum o mem)) iphaTtl (mem iphaTtl - 1)

end Checksum

/-- The route and the machine: the order of its bytes, the largest packet for the route, whether it has a stream to
send on, room for the link header, what `icmp_pkt_err_ok` asks, and which allocations for fragments succeed, the block
for the copied header holding some bytes. -/
structure Outgoing where
  order : ByteOrder
  lookups : Lookups
  maxFrag : Nat
  stq : Bool
  linkHeader : Bool
  limited : Bool
  isBroadcast : IpAddr → Bool
  pulledUp : Bool
  headerCopied : Bool
  fresh : Memory
  sends : Nat → Bool

/-- What becomes of a packet: an ICMP error is built from it, or headers go out. -/
inductive Passage where
  | dropped
  | answered (mem : Memory)
  | forwarded (mem : Memory)
  | fragmented (hdrs : List Memory)

variable (e : Outgoing)

section Answer

def classd (addr : IpAddr) : Bool := addr &&& 0xf0000000 = 0xe0000000

def icmpDestUnreachable : Byte := 3

def icmpSourceQuench : Byte := 4

def icmpTimeExceeded : Byte := 11

def icmpParamProblem : Byte := 12

def isIcmpError (mem : Memory) : Bool :=
  let type := mem (4 * hdrWords mem)
  type = icmpDestUnreachable ∨ type = icmpSourceQuench ∨ type = icmpTimeExceeded ∨ type = icmpParamProblem

/-- The tests of `icmp_pkt_err_ok` behind the checksum. -/
def mayAnswer (mem : Memory) : Bool :=
  let dst := word mem 16
  let src := word mem 12
  if e.isBroadcast dst ∨ e.isBroadcast src ∨ classd dst ∨ classd src ∨ (half mem 6).toNat % 0x2000 ≠ 0 then false
  else if mem 9 = 1 then e.pulledUp ∧ ¬isIcmpError mem
  else true

def icmpPktErrOk (mem : Memory) : Bool := ¬e.limited ∧ ipCsumHdr e.order mem = 0 ∧ mayAnswer e mem

def answer (mem : Memory) : Passage := if icmpPktErrOk e mem then .answered mem else .dropped

end Answer

section Fragment

/-- The options with the copy bit, put at `up`. An option of no length is looked at for ever. -/
def copyOptions (src : Memory) : Nat → Memory → Nat → Nat → Nat → Option (Memory × Nat)
  | 0, _, _, _, _ => none
  | fuel + 1, mem, rptr, up, hdrLen =>
    if hdrLen = 0 ∨ src rptr = ipoptEol then some (mem, up)
    else if src rptr &&& 0x80 ≠ 0 then
      copyOptions src fuel (bcopy src rptr mem up (optLen src rptr)) (rptr + optLen src rptr) (up + optLen src rptr)
        (hdrLen - optLen src rptr)
    else copyOptions src fuel mem (rptr + optLen src rptr) up (hdrLen - optLen src rptr)

/-- "Copy the header plus those options which have the copy bit set" -/
def ipWputFragCopyhdr (fuel : Nat) (rptr : Memory) (hdrLen offset : Nat) : Option Memory :=
  if hdrLen = 20 ∨ offset ≠ 0 then some (copyBytes hdrLen rptr e.fresh)
  else (copyOptions rptr fuel (copyBytes 20 rptr e.fresh) 20 20 (hdrLen - 20)).map fun (mem, up) =>
    let pad := (4 - (up - 20) % 4) % 4
    putByte (zeroBytes mem up pad) 0 (BitVec.ofNat 8 (0x40 ||| (up + pad) / 4))

/-- The offset and flags, the length and the checksum of a fragment. -/
def fragHeader (mem : Memory) (flags length : BitVec 16) : Memory :=
  storeCsum e.order (putHalf (putHalf mem 6 flags) 2 length)

def laterFrags (hdr : Memory) (hdrLen : Nat) (dataEnd len : Int) : Nat → Nat → Int → List Memory
  | 0, _, _ => []
  | fuel + 1, k, offset =>
    let more := len < dataEnd - offset
    let len' := if more then len else dataEnd - offset
    -- "A frag of a frag might have IPH_MF non-zero"
    let flags := if more then 0x2000 else half hdr 6 &&& 0x2000
    if len' = 0 ∨ ¬e.sends k then []
    else fragHeader e hdr (flags ||| BitVec.ofInt 16 (offset / 8)) (BitVec.ofInt 16 (len' + hdrLen)) ::
      if more then laterFrags hdr hdrLen dataEnd len fuel (k + 1) (offset + len) else []

def ipWputFrag (fuel : Nat) (mem : Memory) : Option Passage :=
  let offset := (half mem 6).toNat % 0x2000
  let hdrLen := 4 * hdrWords mem
  if (half mem 6).toNat / 0x4000 % 2 = 1 then some (answer e mem)
  else if (BitVec.ofNat 32 e.maxFrag - BitVec.ofNat 32 (half mem 2).toNat) &&& ~~~7 < 8 then some (.fragmented [])
  else if ¬e.headerCopied then some (.fragmented [])
  else (ipWputFragCopyhdr e fuel (clearCsum e.order mem) hdrLen offset).map fun hdr =>
    let dataEnd : Int := 8 * offset + (half mem 2).toNat - hdrLen
    let len := ((BitVec.ofNat 32 e.maxFrag - BitVec.ofNat 32 hdrLen) &&& ~~~7).toInt
    if len + hdrLen = 0 ∨ ¬e.sends 0 then .fragmented []
    else .fragmented
      (fragHeader e (clearCsum e.order mem) (BitVec.ofNat 16 offset ||| 0x2000) (BitVec.ofInt 16 (len + hdrLen)) ::
        laterFrags e hdr (4 * hdrWords hdr) dataEnd len fuel 1 (8 * offset + len))

end Fragment

/-- The part of `ip_rput_forward` behind the options. -/
def forwardOut (fuel pktLen : Nat) (mem : Memory) : Option Passage :=
  if e.maxFrag < pktLen then
    if ipCsumHdr e.order mem ≠ 0 then some .dropped else ipWputFrag e fuel mem
  else if e.linkHeader then some (.forwarded mem)
  else some .dropped

def ipRputForward (fuel : Nat) (hdr : Memory) : Option Passage :=
  let pktLen := (half hdr 2).toNat
  let mem := decrementTtl e.order hdr
  if (hdr iphaTtl).toNat ≤ 1 then
    if ipCsumHdr e.order mem ≠ 0 then some .dropped
    else some (if e.stq then answer e mem else .dropped)
  else if mem 0 = 0x45 then forwardOut e fuel pktLen mem
  else if ipCsumHdr e.order mem ≠ 0 then some .dropped
  else match ipRputForwardOptions e.lookups mem with
    | none => none
    | some (rc, mem) =>
      if rc ≠ 0 then some (if e.stq then answer e mem else .dropped)
      else forwardOut e fuel pktLen (storeCsum e.order (clearCsum e.order mem))

end Solaris.Ip
