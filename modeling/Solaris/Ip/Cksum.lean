import Solaris.Lib.HostOrder

/-!
# The checksum of a chain of blocks

`ip_cksum` adds up the halfwords of a chain of blocks. A block of one piece is left to `ip_ocsum`; else a loop goes
through the blocks, over words that are split and bytes at odd addresses. A block flagged `STRUIO_IP` holds the sum of
a part of it. `ip_cksum_copy` copies the bytes as well.
-/

namespace Solaris.Ip

open Lib (Byte Memory putByte bcopy ByteOrder swapBytes bytesFrom)

/-- A block and what `ip_cksum` reads of its `dblk_t`. -/
structure Sblk where
  rptr : Nat
  wptr : Nat
  struioIp : Bool
  struiobase : Nat
  struioptr : Nat
  struiolim : Nat
  psum : BitVec 16

/-- The running sum: `sum`, whether a byte is left from the last segment (`pmlen == -1`), and the number of carries
out of the 32 bits of `sum`, which nothing keeps. -/
structure Summing where
  sum : BitVec 32
  odd : Bool
  lost : Nat

def Summing.add (s : Summing) (x : Nat) : Summing :=
  { s with sum := s.sum + BitVec.ofNat 32 x, lost := s.lost + (s.sum.toNat + x) / 2 ^ 32 }

/-- The machine: the order of its bytes, its memory, and the routines in assembly. -/
structure Machine where
  order : ByteOrder
  mem : Memory
  ocsum : Nat → Nat → BitVec 32 → BitVec 32
  ocsumCopy : Nat → Nat → BitVec 32 → BitVec 32

variable (c : Machine)

/-- What a byte counts in the first place of a word, and in the second. -/
def Machine.high (w : Nat) : Nat := (c.mem w).toNat * c.order.weight

def Machine.low (w : Nat) : Nat := (c.mem w).toNat * (256 / c.order.weight)

/-- The halfwords of a segment, and the byte that is left. -/
def addWords (ocsum : Nat → Nat → BitVec 32 → BitVec 32) (s : Summing) (w mlen : Nat) : Summing :=
  if mlen = 0 then s
  else if w % 2 = 0 then
    let s := { s with sum := ocsum w (mlen / 2) s.sum }
    if mlen % 2 = 1 then { s.add (c.high (w + (mlen - 1))) with odd := true } else s
  else
    let s := s.add (c.high w)
    let swsum := (c.ocsum (w + 1) ((mlen - 1) / 2) 0).setWidth 16
    let s := s.add (swapBytes swsum).toNat
    if (mlen - 1) % 2 = 1 then s.add (c.low (w + 1 + (mlen - 1 - 1))) else { s with odd := true }

section Cksum

/-- A segment in the loop of `ip_cksum`. -/
def addPiece (s : Summing) (w mlen : Nat) : Summing :=
  if 0 < mlen ∧ s.odd then addWords c c.ocsum { s.add (c.low w) with odd := false } (w + 1) (mlen - 1)
  else addWords c c.ocsum s w mlen

/-- `douio`: "Add in any partial cksum (if any) and do the remainder of the uio data." -/
def douio (s : Summing) (mp : Sblk) (w mlen : Nat) : Summing :=
  let odd := decide ((mp.struioptr - mp.struiobase) % 2 = 1)
  let s := { s.add (if s.odd then (swapBytes mp.psum).toNat else mp.psum.toNat) with odd := s.odd ^^ odd }
  if mp.struiolim ≠ mp.struioptr then
    if mlen ≠ 0 then addPiece c s w (mlen + (mp.struiolim - mp.struioptr))
    else addPiece c s mp.struioptr (mp.struiolim - mp.struioptr)
  else addPiece c s w mlen

/-- The uio data of the block lies behind `w` and ends with it, else the checksum is disregarded. -/
def hasUio (mp : Sblk) (w : Nat) : Bool := mp.struioIp ∧ ¬(mp.struiobase < w ∨ mp.wptr < mp.struiolim)

def trip (s : Summing) (mp : Sblk) (w : Nat) : Summing :=
  if hasUio mp w then
    let mlen := mp.struiobase - w
    if mlen ≠ 0 ∧ mp.struiobase ≠ mp.struioptr then douio c (addPiece c s w mlen) mp mp.rptr 0
    else douio c s mp w mlen
  else addPiece c s w (mp.wptr - w)

def laterTrips (s : Summing) : List Sblk → Summing
  | [] => s
  | mp :: rest => if mp.wptr - mp.rptr = 0 then laterTrips s rest else laterTrips (trip c s mp mp.rptr) rest

def foldOnce (x : BitVec 32) : BitVec 32 := (x &&& 0xFFFF) + x >>> 16

/-- `done`, with the carries that were dropped. -/
def done (s : Summing) : BitVec 32 × Nat := (foldOnce (foldOnce s.sum), s.lost)

def slow (sum : BitVec 32) (mp : Sblk) (w : Nat) (cont : List Sblk) : BitVec 32 × Nat :=
  done (laterTrips c (trip c ⟨sum, false, 0⟩ mp w) cont)

/-- `slow1`: the second trip of a block without others. -/
def slow1 (sum : BitVec 32) (mp : Sblk) : BitVec 32 × Nat := done (douio c ⟨sum, false, 0⟩ mp mp.rptr 0)

def norm (sum : BitVec 32) (mp : Sblk) (w : Nat) : BitVec 32 × Nat :=
  let mlen := mp.wptr - w
  if mlen % 2 = 1 then slow c sum { mp with struioIp := false } w []
  else (c.ocsum w (mlen / 2) sum, 0)

def fastUio (sum : BitVec 32) (mp : Sblk) (w : Nat) : BitVec 32 × Nat :=
  let mlen := mp.struiobase - w
  let more := mp.struiolim - mp.struioptr
  if mlen % 2 = 1 then slow c sum mp w []
  else if mlen ≠ 0 ∧ mp.struiobase ≠ mp.struioptr ∧ mp.struiolim ≠ mp.struioptr then
    let sum := c.ocsum w (mlen / 2) sum
    if mp.struioptr % 2 = 1 then slow1 c sum mp
    -- `sum` holds the prefix data already
    else if more % 2 = 1 then slow c sum mp w []
    else (c.ocsum mp.struioptr (more / 2) (sum + mp.psum.setWidth 32), 0)
  else if mp.struiolim ≠ mp.struioptr then
    if mlen ≠ 0 then
      if (mlen + more) % 2 = 1 then slow c sum mp w []
      else (c.ocsum w ((mlen + more) / 2) (sum + mp.psum.setWidth 32), 0)
    else if mp.struioptr % 2 = 1 then slow c sum mp w []
    else if more % 2 = 1 then slow c sum mp w []
    else (c.ocsum mp.struioptr (more / 2) (sum + mp.psum.setWidth 32), 0)
  else if mlen = 0 then (mp.psum.setWidth 32, 0)
  else (c.ocsum w (mlen / 2) (sum + mp.psum.setWidth 32), 0)

/-- The value of `ip_cksum`, and the carries it drops. -/
def cksumRun (mp : Sblk) (cont : List Sblk) (offset : Nat) (sum : BitVec 32) : BitVec 32 × Nat :=
  let w := mp.rptr + offset
  if cont ≠ [] then slow c sum mp w cont
  else if hasUio mp w then fastUio c sum mp w
  else norm c sum mp w

def ipCksum (mp : Sblk) (cont : List Sblk) (offset : Nat) (sum : BitVec 32) : BitVec 32 :=
  (cksumRun c mp cont offset sum).1

end Cksum

section Copy

/-- The copy, at `dest`. -/
structure Copying where
  sums : Summing
  out : Memory
  dest : Nat

def Copying.put (s : Copying) (b : Byte) : Copying :=
  { s with out := putByte s.out s.dest b, dest := s.dest + 1 }

/-- The bytes that go with `addWords`. -/
def copyWords (s : Copying) (w mlen : Nat) : Copying :=
  if mlen = 0 then s
  else if w % 2 = 0 then
    let n := if s.dest % 8 = w % 8 then 2 * (mlen / 2) else mlen
    let s := { s with out := bcopy c.mem w s.out s.dest n, dest := s.dest + 2 * (mlen / 2) }
    if mlen % 2 = 1 then s.put (c.mem (w + (mlen - 1))) else s
  else
    let s := s.put (c.mem w)
    let n := mlen - 1
    let s := { s with out := bcopy c.mem (w + 1) s.out s.dest n, dest := s.dest + 2 * (n / 2) }
    if n % 2 = 1 then s.put (c.mem (w + 1 + (n - 1))) else s

/-- The routine that `ip_cksum_copy` calls for words at even addresses. -/
def copySum (dest w : Nat) : Nat → Nat → BitVec 32 → BitVec 32 :=
  if dest % 8 = w % 8 then c.ocsumCopy else c.ocsum

def copyPiece (s : Copying) (w mlen : Nat) : Copying :=
  { copyWords c s w mlen with sums := addWords c (copySum c s.dest w) s.sums w mlen }

/-- A trip of the loop of `ip_cksum_copy`. -/
def copyTrip (s : Copying) (mp : Sblk) (w : Nat) : Copying :=
  if s.sums.odd then
    let s := { s.put (c.mem w) with sums := { s.sums.add (c.low w) with odd := false } }
    copyPiece c s (w + 1) (mp.wptr - (w + 1))
  else copyPiece c s w (mp.wptr - w)

def laterCopies (s : Copying) : List Sblk → Copying
  | [] => s
  | mp :: rest => if mp.wptr - mp.rptr = 0 then laterCopies s rest else laterCopies (copyTrip c s mp mp.rptr) rest

/-- The value of `ip_cksum_copy`, the carries it drops, and the bytes at `dest` and elsewhere. -/
def cksumCopyRun (mp : Sblk) (cont : List Sblk) (offset : Nat) (sum : BitVec 32) (out : Memory) (dest : Nat) :
    (BitVec 32 × Nat) × Memory :=
  let w := mp.rptr + offset
  let mlen := mp.wptr - w
  if cont = [] ∧ mp.wptr % 2 = 0 then
    if dest % 8 = w % 8 then ((c.ocsumCopy w (mlen / 2) sum, 0), bcopy c.mem w out dest (2 * (mlen / 2)))
    else ((c.ocsum w (mlen / 2) sum, 0), bcopy c.mem w out dest mlen)
  else
    let s := laterCopies c (copyTrip c ⟨⟨sum, false, 0⟩, out, dest⟩ mp w) cont
    (done s.sums, s.out)

def ipCksumCopy (mp : Sblk) (cont : List Sblk) (offset : Nat) (sum : BitVec 32) (out : Memory) (dest : Nat) :
    BitVec 32 × Memory :=
  let ((value, _), copied) := cksumCopyRun c mp cont offset sum out dest
  (value, copied)

end Copy

end Solaris.Ip
