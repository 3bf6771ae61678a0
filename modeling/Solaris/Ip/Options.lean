import Solaris.Lib.Memory

/-!
# The options of an IP header

Three walkers go through the options of a header: `ip_rput_options` accepts it, `ip_rput_forward_options` and
`ip_rput_local_options` then write into the source route, record route and timestamp options.
-/

namespace Solaris.Ip

open Lib (Byte Memory word putByte putWord)

abbrev IpAddr := BitVec 32

def ipoptEol : Byte := 0x00

def ipoptNop : Byte := 0x01

def ipoptLsrr : Byte := 0x83

def ipoptIt : Byte := 0x44

def ipoptRr : Byte := 0x07

def ipoptSsrr : Byte := 0x89

def ipoptItTime : Byte := 0

def ipoptItTimeAddr : Byte := 1

def ipoptItSpec : Byte := 3

def ipoptItSpecBsd : Byte := 2

/-- The offset of `ipha_dst` in the header. -/
def iphaDst : Nat := 16

/-- What the walkers read besides the message: the addresses that `ire_ctable_lookup` finds under `IRE_LOCAL` and
`ire_ftable_lookup` under `IRE_INTERFACE`, the source address of the route, the clock at each option, and what a
local variable without a value holds there. -/
structure Lookups where
  isLocal : IpAddr → Bool
  isInterface : IpAddr → Bool
  forwardSrcRouted : Bool
  ireSrcAddr : IpAddr
  millis : Nat → BitVec 32
  stale : Nat → Nat

/-- The bytes of the options: `totallen`, an `u32`. -/
def optionsLength (mem : Memory) : Nat := ((mem 0).toNat + (2 ^ 32 - 0x45)) % 2 ^ 32 * 4 % 2 ^ 32

def optLen (mem : Memory) (opt : Nat) : Nat := if mem opt = ipoptNop then 1 else (mem (opt + 1)).toNat

/-- `opt[IPOPT_POS_OFF] - 1`, an `u32`. -/
def optOff (mem : Memory) (opt : Nat) : Nat := ((mem (opt + 2)).toNat + (2 ^ 32 - 1)) % 2 ^ 32

/-- `opt[IPOPT_POS_OV_FLG] & 0x0F` -/
def optFlag (mem : Memory) (opt : Nat) : Byte := mem (opt + 3) &&& 0x0F

/-- `opt + off` for the offset in the option. -/
def optPlace (mem : Memory) (opt : Nat) : Nat := (opt + optOff mem opt) % 2 ^ 32

def zeroBytes (mem : Memory) (a n : Nat) : Memory := fun i => if a ≤ i ∧ i < a + n then 0 else mem i

/-- The header and the local variable `dst`. -/
structure Header where
  mem : Memory
  dst : IpAddr

/-- The loop of the walkers, in `fuel` rounds at most. They differ in what they do with a bad length and with an
option, which may end the walk. -/
def walkOptions {ρ : Type} (bad : Header → Nat → ρ) (done : Header → ρ)
    (body : Header → Nat → Nat → Except ρ Header) : Nat → Header → Nat → Nat → Option ρ
  | 0, _, _, _ => none
  | fuel + 1, hdr, opt, totallen =>
    if totallen = 0 ∨ hdr.mem opt = ipoptEol then some (done hdr)
    else if optLen hdr.mem opt = 0 ∨ totallen < optLen hdr.mem opt then some (bad hdr opt)
    else match body hdr opt (optLen hdr.mem opt) with
      | .error result => some result
      | .ok hdr' =>
        walkOptions bad done body fuel hdr' (opt + optLen hdr.mem opt) (totallen - optLen hdr.mem opt)

def walkHeader {ρ : Type} (bad : Header → Nat → ρ) (done : Header → ρ)
    (body : Header → Nat → Nat → Except ρ Header) (mem : Memory) : Option ρ :=
  walkOptions bad done body (optionsLength mem + 1) ⟨mem, word mem iphaDst⟩ 20 (optionsLength mem)

def IsSourceRoute (mem : Memory) (opt : Nat) : Prop := mem opt = ipoptSsrr ∨ mem opt = ipoptLsrr

instance (mem : Memory) (opt : Nat) : Decidable (IsSourceRoute mem opt) := inferInstanceAs (Decidable (_ ∨ _))

section Validate

/-- What `ip_rput_options` ends with: the next hop, or an ICMP error. -/
inductive Verdict where
  | nextHop (dst : IpAddr)
  | paramProblem (code : Nat)
  | sourceRouteFailed

def Verdict.value : Verdict → IpAddr
  | .nextHop dst => dst
  | .paramProblem _ => -1
  | .sourceRouteFailed => -1

variable (r : Lookups)

def roomForStamp (mem : Memory) (opt : Nat) : Option Nat :=
  if optFlag mem opt = ipoptItTime then some 4
  else if optFlag mem opt = ipoptItTimeAddr ∨ optFlag mem opt = ipoptItSpec ∨ optFlag mem opt = ipoptItSpecBsd then
    some 8
  else none

def validateOption (hdr : Header) (opt len : Nat) : Except Verdict Header :=
  let mem := hdr.mem
  if IsSourceRoute mem opt then
    if ¬r.isLocal hdr.dst then
      if mem opt = ipoptSsrr then .error (.paramProblem iphaDst) else .ok hdr
    else if (mem (opt + 2)).toNat < 4 then .error (.paramProblem (opt + 2))
    else if len < 4 ∨ len - 4 < optOff mem opt then .ok hdr
    else
      let dst := word mem (optPlace mem opt)
      if mem opt = ipoptSsrr ∧ ¬r.isInterface dst then .error .sourceRouteFailed else .ok { hdr with dst := dst }
  else if mem opt = ipoptRr then
    if (mem (opt + 2)).toNat < 4 then .error (.paramProblem (opt + 2)) else .ok hdr
  else if mem opt = ipoptIt then
    if len < 5 then .error (.paramProblem (opt + 1))
    else match roomForStamp mem opt with
      | none => .error (.paramProblem (opt + 3))
      | some room =>
        if len < (optOff mem opt + room) % 2 ^ 32 ∧ mem (opt + 3) &&& 0xF0 = 0xF0 then .error (.paramProblem (opt + 1))
        else if (mem (opt + 2)).toNat < 5 then .error (.paramProblem (opt + 2))
        else .ok hdr
  else .ok hdr

def ipRputOptions (mem : Memory) : Option Verdict :=
  walkHeader (fun _ opt => .paramProblem (opt + 1)) (fun hdr => .nextHop hdr.dst) (validateOption r) mem

end Validate

section Write

variable (r : Lookups)

/-- `opt[IPOPT_POS_OFF] += IP_ADDR_LEN` -/
def advance (mem : Memory) (opt : Nat) : Memory := putByte mem (opt + 2) (mem (opt + 2) + 4)

def recordRoute (mem : Memory) (opt len : Nat) : Memory :=
  if len < 4 ∨ len - 4 < optOff mem opt then mem
  else advance (putWord mem (optPlace mem opt) r.ireSrcAddr) opt

/-- The flags of a timestamp option with prespecified addresses. -/
def IsSpec (mem : Memory) (opt : Nat) : Prop := optFlag mem opt = ipoptItSpec ∨ optFlag mem opt = ipoptItSpecBsd

instance (mem : Memory) (opt : Nat) : Decidable (IsSpec mem opt) := inferInstanceAs (Decidable (_ ∨ _))

def nextSpec (mem : Memory) (opt : Nat) : IpAddr := word mem (optPlace mem opt)

/-- `off` behind the first switch of a timestamp. An address of another host leaves the offset in it. -/
def stampOff (mem : Memory) (opt : Nat) : Nat :=
  if optFlag mem opt = ipoptItTime then 4
  else if IsSpec mem opt then if r.isLocal (nextSpec mem opt) then 8 else optOff mem opt
  else if optFlag mem opt = ipoptItTimeAddr then 8
  else r.stale opt

/-- "Increase overflow counter" -/
def countOverflow (mem : Memory) (opt : Nat) : Memory :=
  putByte mem (opt + 3) (optFlag mem opt ||| ((mem (opt + 3) >>> 4) + 1) <<< 4)

def stampTime (mem : Memory) (opt : Nat) : Memory := advance (putWord mem (optPlace mem opt) (r.millis opt)) opt

def stamp (mem : Memory) (opt : Nat) : Memory :=
  if IsSpec mem opt ∨ optFlag mem opt = ipoptItTimeAddr then
    stampTime r (advance (putWord mem (optPlace mem opt) r.ireSrcAddr) opt) opt
  else if optFlag mem opt = ipoptItTime then stampTime r mem opt
  else mem

/-- "Insert timestamp if there is romm" -/
def insertTimestamp (hdr : Header) (opt len : Nat) : Header where
  mem := if len < (optOff hdr.mem opt + stampOff r hdr.mem opt) % 2 ^ 32 then countOverflow hdr.mem opt
    else stamp r hdr.mem opt
  dst := if IsSpec hdr.mem opt then nextSpec hdr.mem opt else hdr.dst

def forwardOption (hdr : Header) (opt len : Nat) : Except (Int × Memory) Header :=
  let mem := hdr.mem
  if IsSourceRoute mem opt then
    if ¬r.forwardSrcRouted then .error (-1, mem)
    else if ¬r.isLocal hdr.dst then .ok hdr
    else if len < 4 ∨ len - 4 < optOff mem opt then .ok hdr
    else
      let dst := word mem (optPlace mem opt)
      .ok ⟨advance (putWord (putWord mem (optPlace mem opt) r.ireSrcAddr) iphaDst dst) opt, dst⟩
  else if mem opt = ipoptRr then .ok { hdr with mem := recordRoute r mem opt len }
  else if mem opt = ipoptIt then .ok (insertTimestamp r hdr opt len)
  else .ok hdr

def ipRputForwardOptions (mem : Memory) : Option (Int × Memory) :=
  walkHeader (fun hdr _ => (0, hdr.mem)) (fun hdr => (0, hdr.mem)) (forwardOption r) mem

def localOption (hdr : Header) (opt len : Nat) : Except (Int × Memory) Header :=
  let mem := hdr.mem
  if IsSourceRoute mem opt then
    if len < 4 ∨ len - 4 < optOff mem opt then .ok hdr
    else if mem opt = ipoptSsrr then .error (-1, mem)
    else
      -- "instead of dropping the packet truncate the source route to what has been used"
      let cut := zeroBytes mem (optPlace mem opt) (len - optOff mem opt)
      .ok { hdr with mem := putByte cut (opt + 1) (BitVec.ofNat 8 (optOff mem opt)) }
  else if mem opt = ipoptRr then .ok { hdr with mem := recordRoute r mem opt len }
  else if mem opt = ipoptIt then .ok (insertTimestamp r hdr opt len)
  else .ok hdr

def ipRputLocalOptions (mem : Memory) : Option (Int × Memory) :=
  walkHeader (fun hdr _ => (0, hdr.mem)) (fun hdr => (0, hdr.mem)) (localOption r) mem

end Write

end Solaris.Ip
