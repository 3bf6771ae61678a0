import Solaris.Lib.Checksum

/-!
# TCP/IP headers and their changes on the line

The fields of the headers are read at their offsets, the IP header at 0 and the TCP header at `t`, four times `ip_hl`.
A field that changed is sent as a delta of one byte, or of three bytes of which the first is zero.
-/

namespace Solaris.Vj

section Headers

open Lib Nat List

def ipHl (m : Memory) : Nat := (m 0).toNat % 16

def ipLen (m : Memory) : BitVec 16 := half m 2

def ipId (m : Memory) : BitVec 16 := half m 4

def ipOff (m : Memory) : BitVec 16 := half m 6

def ipP (m : Memory) : Byte := m 9

def ipSum (m : Memory) : BitVec 16 := half m 10

def ipSrc (m : Memory) : BitVec 32 := word m 12

def ipDst (m : Memory) : BitVec 32 := word m 16

def thSeq (m : Memory) (t : Nat) : BitVec 32 := word m (t + 4)

def thAck (m : Memory) (t : Nat) : BitVec 32 := word m (t + 8)

def thX2 (m : Memory) (t : Nat) : Nat := (m (t + 12)).toNat % 16

def thOff (m : Memory) (t : Nat) : Nat := (m (t + 12)).toNat / 16

def thFlags (m : Memory) (t : Nat) : Byte := m (t + 13)

def thWin (m : Memory) (t : Nat) : BitVec 16 := half m (t + 14)

def thSum (m : Memory) (t : Nat) : BitVec 16 := half m (t + 16)

def thUrp (m : Memory) (t : Nat) : BitVec 16 := half m (t + 18)

def ipprotoTcp : Byte := 6

def flagFin : Byte := 0x01

def flagSyn : Byte := 0x02

def flagRst : Byte := 0x04

def flagPush : Byte := 0x08

def flagAck : Byte := 0x10

def flagUrg : Byte := 0x20

def newC : Byte := 0x40

def newI : Byte := 0x20

def tcpPushBit : Byte := 0x10

def newS : Byte := 0x08

def newA : Byte := 0x04

def newW : Byte := 0x02

def newU : Byte := 0x01

def specialI : Byte := newS ||| newW ||| newU

def specialD : Byte := newS ||| newA ||| newW ||| newU

def specialsMask : Byte := newS ||| newA ||| newW ||| newU

def encode (n : BitVec 32) : List Byte :=
  if 256 ≤ (n.setWidth 16).toNat then [0, (n >>> 8).setWidth 8, n.setWidth 8] else [n.setWidth 8]

def encodez (n : BitVec 32) : List Byte :=
  if 256 ≤ (n.setWidth 16).toNat ∨ n.setWidth 16 = 0 then [0, (n >>> 8).setWidth 8, n.setWidth 8] else [n.setWidth 8]

/-- The number at the start of the bytes, and the bytes behind it; `none` when the bytes end inside it. -/
def decode : List Byte → Option (BitVec 16 × List Byte)
  | [] => none
  | b :: cp =>
    if b = 0 then
      match cp with
      | h :: l :: cp => some (h ++ l, cp)
      | _ => none
    else some (b.setWidth 16, cp)

def decodel (f : BitVec 32) (cp : List Byte) : Option (BitVec 32 × List Byte) :=
  (decode cp).map fun r => (f + r.1.setWidth 32, r.2)

def decodes (f : BitVec 16) (cp : List Byte) : Option (BitVec 16 × List Byte) :=
  (decode cp).map fun r => (f + r.1, r.2)

def decodeu (cp : List Byte) : Option (BitVec 16 × List Byte) := decode cp

lemma bytes_setWidth (n : BitVec 32) : ((n >>> 8).setWidth 8 : Byte) ++ (n.setWidth 8 : Byte) = n.setWidth 16 := by
  apply BitVec.eq_of_toNat_eq
  simp only [BitVec.toNat_append, BitVec.toNat_setWidth, BitVec.toNat_ushiftRight, shiftRight_eq_div_pow]
  rw [← shiftLeft_add_eq_or_of_lt (by omega), shiftLeft_eq]
  omega

lemma decode_long (n : BitVec 32) (cp : List Byte) :
    decode (([0, (n >>> 8).setWidth 8, n.setWidth 8] : List Byte) ++ cp) = some (n.setWidth 16, cp) := by
  simp only [cons_append, nil_append, decode, if_true, bytes_setWidth]

lemma decode_short {n : BitVec 32} (h : (n.setWidth 16).toNat < 256) (hne : n.setWidth 16 ≠ 0) (cp : List Byte) :
    decode ([n.setWidth 8] ++ cp) = some (n.setWidth 16, cp) := by
  have hval : (n.setWidth 8 : Byte).toNat = (n.setWidth 16).toNat := by
    simp only [BitVec.toNat_setWidth] at h ⊢
    omega
  have hb : ¬(n.setWidth 8 : Byte) = 0 := by
    intro hz
    apply hne
    apply BitVec.eq_of_toNat_eq
    rw [← hval, hz]
    rfl
  have hext : (n.setWidth 8 : Byte).setWidth 16 = n.setWidth 16 := by
    apply BitVec.eq_of_toNat_eq
    rw [BitVec.toNat_setWidth, hval, mod_eq_of_lt (by omega)]
  simp only [cons_append, nil_append, decode, if_neg hb, hext]

lemma decode_encode {n : BitVec 32} (hne : n.setWidth 16 ≠ 0) (cp : List Byte) :
    decode (encode n ++ cp) = some (n.setWidth 16, cp) := by
  unfold encode
  split
  · exact decode_long n cp
  · next h => exact decode_short (by omega) hne cp

lemma decode_encodez (n : BitVec 32) (cp : List Byte) : decode (encodez n ++ cp) = some (n.setWidth 16, cp) := by
  unfold encodez
  split
  · exact decode_long n cp
  · next h =>
    obtain ⟨hlt, hne⟩ := not_or.mp h
    exact decode_short (by omega) hne cp

end Headers

/-!
## Compressing the headers of a line

`vjcompress_tcp` keeps the header of the last packet of each of `maxslotout` connections, in a circular list ordered
by use, and `vjuncompress_tcp` keeps the headers the other side knows of, in the slots that the packets name. A
packet is sent as it is, or `uncompressed` with the slot in the protocol field, or `compressed` to the changes of
its header. `none` stands for a read past the end of the message and for a search that does not end.
-/

section Compression

open Lib Nat List

def maxStates : Nat := 16

structure Cstate where
  next : Nat
  hlen : Nat
  id : Byte
  hdr : Memory

structure Vjstruct where
  lastCs : Nat
  lastRecv : Byte
  lastXmit : Byte
  toss : Bool
  tstate : Nat → Cstate
  rstate : Nat → Cstate
  maxslotin : Nat
  compslotin : Nat
  maxslotout : Nat
  compslotout : Nat

def vjcompressInit : Vjstruct where
  lastCs := 0
  lastRecv := 255
  lastXmit := 255
  toss := true
  tstate i := { next := if i = 0 then maxStates - 1 else i - 1, hlen := 0, id := BitVec.ofNat 8 i, hdr := fun _ => 0 }
  rstate _ := { next := 0, hlen := 0, id := 0, hdr := fun _ => 0 }
  maxslotin := maxStates
  compslotin := 1
  maxslotout := maxStates
  compslotout := 1

def setNext (t : Nat → Cstate) (i n : Nat) : Nat → Cstate := Function.update t i { t i with next := n }

def setHdr (t : Nat → Cstate) (i : Nat) (h : Memory) : Nat → Cstate := Function.update t i { t i with hdr := h }

def vjsetinparms (comp : Vjstruct) (maxslot cslot : Nat) : Vjstruct :=
  { comp with maxslotin := maxslot, compslotin := cslot }

def vjsetoutparms (comp : Vjstruct) (maxslot cslot : Nat) : Vjstruct :=
  { comp with
    maxslotout := maxslot
    compslotout := cslot
    tstate := setNext comp.tstate 0 (maxslot - 1)
    lastCs := if maxslot ≤ (comp.tstate comp.lastCs).id.toNat then 0 else comp.lastCs }

inductive PacketType where
  | ip
  | uncompressedTcp
  | compressedTcp
  | badTcp
  deriving DecidableEq

structure Alloc where
  allocb : Bool
  msgpullup : Bool

def sameConnection (m c : Memory) : Prop :=
  ipSrc m = ipSrc c ∧ ipDst m = ipDst c ∧ word m (4 * ipHl m) = word c (4 * ipHl c)

instance (m c : Memory) : Decidable (sameConnection m c) := inferInstanceAs (Decidable (_ ∧ _ ∧ _))

inductive Search where
  | found (lcs cs : Nat)
  | missed (lcs cs : Nat)

def search (t : Nat → Cstate) (m : Memory) (lastcs : Nat) : Nat → Nat → Option Search
  | 0, _ => none
  | fuel + 1, lcs =>
    let cs := (t lcs).next
    if sameConnection m (t cs).hdr then some (.found lcs cs)
    else if cs = lastcs then some (.missed lcs cs)
    else search t m lastcs fuel cs

/-- The slot of the packet's connection, moved to the front of the list, or the oldest slot when there is none. -/
def locate (comp : Vjstruct) (m : Memory) : Option (Bool × Nat × Vjstruct) :=
  let cs := (comp.tstate comp.lastCs).next
  if sameConnection m (comp.tstate cs).hdr then some (true, cs, comp)
  else
    match search comp.tstate m comp.lastCs maxStates cs with
    | none => none
    | some (.missed lcs cs) => some (false, cs, { comp with lastCs := lcs })
    | some (.found lcs cs) =>
      if cs = comp.lastCs then some (true, cs, { comp with lastCs := lcs })
      else
        let t := setNext comp.tstate lcs (comp.tstate cs).next
        let t := setNext t cs (t comp.lastCs).next
        some (true, cs, { comp with tstate := setNext t comp.lastCs cs })

def bcmp (m c : Memory) (a n : Nat) : Prop := ∃ i, i < n ∧ m (a + i) ≠ c (a + i)

instance (m c : Memory) (a n : Nat) : Decidable (bcmp m c a n) := inferInstanceAs (Decidable (∃ i, i < n ∧ _))

/-- A field changed that the changes sent on the line have no place for. -/
def changedElsewhere (m c : Memory) : Prop :=
  let t := 4 * ipHl m
  half m 0 ≠ half c 0 ∨ half m 6 ≠ half c 6 ∨ half m 8 ≠ half c 8 ∨ thOff m t ≠ thOff c t ∨
    (5 < ipHl m ∧ bcmp m c 20 (4 * (ipHl m - 5))) ∨ (5 < thOff m t ∧ bcmp m c (t + 20) (4 * (thOff m t - 5)))

instance (m c : Memory) : Decidable (changedElsewhere m c) :=
  inferInstanceAs (Decidable (_ ∨ _ ∨ _ ∨ _ ∨ (_ ∧ _) ∨ (_ ∧ _)))

/-- Whether the urgent pointer is sent and its bytes; `none` when it changed without `TH_URG`. -/
def encodeUrp (m c : Memory) (t : Nat) : Option (Bool × List Byte) :=
  if thFlags m t &&& flagUrg ≠ 0 then some (true, encodez ((thUrp m t).setWidth 32))
  else if thUrp m t ≠ thUrp c t then none
  else some (false, [])

def encodeWin (m c : Memory) (t : Nat) : Bool × List Byte :=
  let deltaS := (thWin m t - thWin c t).setWidth 32
  if deltaS ≠ 0 then (true, encode deltaS) else (false, [])

def encodeLong (new old : BitVec 32) : Option (Bool × List Byte) :=
  let delta := new - old
  if delta ≠ 0 then
    if 0xffff < delta.toNat then none else some (true, encode delta)
  else some (false, [])

def encodeId (m c : Memory) : Bool × List Byte :=
  let deltaS := (ipId m).setWidth 32 - (ipId c).setWidth 32
  if deltaS ≠ 1 then (true, encodez deltaS) else (false, [])

def sent (b : Bool) (bit : Byte) : Byte := if b then bit else 0

/-- The data length of the packet before, as both sides compute it. -/
def lastData (c : Memory) (hlen : Nat) : BitVec 32 := (ipLen c).setWidth 32 - BitVec.ofNat 32 hlen

/-- What is sent for the changes found, or `none` for an uncompressed packet. -/
def chooseChanges (m c : Memory) (hlen : Nat) (changes : Byte) (newSeq : List Byte) : Option (Byte × List Byte) :=
  let t := 4 * ipHl m
  let deltaA := thAck m t - thAck c t
  let deltaS := thSeq m t - thSeq c t
  if changes = 0 then
    if ipLen m ≠ ipLen c ∧ (ipLen c).toNat = hlen then some (changes, newSeq) else none
  else if changes = specialI ∨ changes = specialD then none
  else if changes = newS ||| newA then
    if deltaS = deltaA ∧ deltaS = lastData c hlen then some (specialI, []) else some (changes, newSeq)
  else if changes = newS then
    if deltaS = lastData c hlen then some (specialD, []) else some (changes, newSeq)
  else some (changes, newSeq)

def encodeChanges (m c : Memory) (hlen : Nat) : Option (Byte × List Byte) :=
  let t := 4 * ipHl m
  match encodeUrp m c t, encodeWin m c t, encodeLong (thAck m t) (thAck c t), encodeLong (thSeq m t) (thSeq c t) with
  | some (u, us), (w, ws), some (a, as), some (s, ss) =>
    chooseChanges m c hlen (sent u newU ||| sent w newW ||| sent a newA ||| sent s newS) (us ++ ws ++ as ++ ss)
  | _, _, _, _ => none

def sendUncompressed (alloc : Alloc) (comp : Vjstruct) (cs hlen : Nat) (p : List Byte) :
    PacketType × List Byte × Vjstruct :=
  let hdr := copyBytes hlen (ofBytes p) (comp.tstate cs).hdr
  let comp := { comp with tstate := setHdr comp.tstate cs hdr }
  if alloc.msgpullup then
    (.uncompressedTcp, p.set 9 (comp.tstate cs).id, { comp with lastXmit := (comp.tstate cs).id })
  else (.badTcp, p, comp)

def sendCompressed (alloc : Alloc) (comp : Vjstruct) (cs hlen : Nat) (p : List Byte) (changes : Byte)
    (newSeq : List Byte) : PacketType × List Byte × Vjstruct :=
  let m := ofBytes p
  let c := (comp.tstate cs).hdr
  let t := 4 * ipHl m
  let (i, is) := encodeId m c
  let changes := changes ||| sent i newI ||| sent (thFlags m t &&& flagPush ≠ 0) tcpPushBit
  let deltaA := thSum m t
  let comp := { comp with tstate := setHdr comp.tstate cs (copyBytes hlen m c) }
  if alloc.allocb then
    let rest := [deltaA.extractLsb' 8 8, deltaA.extractLsb' 0 8] ++ (newSeq ++ is) ++ p.drop hlen
    let id := (comp.tstate cs).id
    if comp.compslotout = 0 ∨ comp.lastXmit ≠ id then
      (.compressedTcp, [changes ||| newC, id] ++ rest, { comp with lastXmit := id })
    else (.compressedTcp, [changes] ++ rest, comp)
  else (.badTcp, p, comp)

def vjcompressTcp (alloc : Alloc) (comp : Vjstruct) (p : List Byte) : Option (PacketType × List Byte × Vjstruct) :=
  let m := ofBytes p
  let t := 4 * ipHl m
  if ipOff m &&& 0x3fff ≠ 0 ∨ p.length < 40 then some (.ip, p, comp)
  else if ipP m ≠ ipprotoTcp then some (.ip, p, comp)
  else if p.length < t + 20 then none
  else if thFlags m t &&& (flagSyn ||| flagFin ||| flagRst ||| flagAck) ≠ flagAck then some (.ip, p, comp)
  else
    match locate comp m with
    | none => none
    | some (hit, cs, comp) =>
      let hlen := t + 4 * thOff m t
      if p.length < hlen then some (.ip, p, comp)
      else if hit = false ∨ changedElsewhere m (comp.tstate cs).hdr then some (sendUncompressed alloc comp cs hlen p)
      else
        match encodeChanges m (comp.tstate cs).hdr hlen with
        | none => some (sendUncompressed alloc comp cs hlen p)
        | some (changes, newSeq) => some (sendCompressed alloc comp cs hlen p changes newSeq)

end Compression

end Solaris.Vj
