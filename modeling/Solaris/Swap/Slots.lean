import Solaris.Lib.Bitmap

/-!
# Swap slots

The swap areas of `vm_swap.c` with their bit maps of slots: `swap_phys_alloc`, `swap_getoff`, `swap_phys_free`, and
what `swapadd` and `swapdel` do to the list of areas. The list is a list of records with their addresses and
`silast` is such an address. A panic, a read outside of a map and a pointer that points nowhere are `none`.
-/

namespace Solaris.SwapSlots

open Lib

structure SwapInfo where
  addr : Nat
  vp : Nat
  soff : Nat
  eoff : Nat
  allocs : Int
  inDel : Bool
  doingDel : Bool
  npgs : Nat
  nfpgs : Nat
  /-- bytes of the map -/
  mapsize : Nat
  swapslots : Bitmap 32
  /-- first page to check -/
  hint : Nat
  deriving DecidableEq

/-- A range of slots handed out, `len` in bytes. -/
structure Range where
  vp : Nat
  off : Nat
  len : Nat
  deriving DecidableEq

/-- `swapinfo` and `silast`. -/
structure Areas where
  swapinfo : List SwapInfo
  silast : Option Nat
  deriving DecidableEq

section Pages

variable (pageShift : Nat)

def pageSize : Nat := 2 ^ pageShift

def ptob (n : Nat) : Nat := n * pageSize pageShift

def btop (n : Nat) : Nat := n / pageSize pageShift

def btopr (n : Nat) : Nat := (n + (pageSize pageShift - 1)) / pageSize pageShift

end Pages

section Getoff

variable (pageShift : Nat)

def wordFree (map : Bitmap 32) (k : Nat) : Option Bool := map[k]?.map fun x => x != BitVec.allOnes 32

def slotFree (map : Bitmap 32) (i : Nat) : Option Bool := (map.test? i).map not

/-- The word to take a slot from: from the hint to the end, then from the start to the hint. The
inner `none` is the return of `-1`. -/
def findWord (sip : SwapInfo) : Option (Option Nat) := do
  match ← scan (wordFree sip.swapslots) (sip.hint / 32) (sip.mapsize / 4 - sip.hint / 32) with
  | some sp => some (some sp)
  | none =>
    match ← scan (wordFree sip.swapslots) 0 (sip.hint / 32) with
    | some sp => some (some sp)
    | none =>
      -- `sp` has reached the word of the hint again
      if ← wordFree sip.swapslots (sip.hint / 32) then some (some (sip.hint / 32)) else some none

/-- The slot in the word: from the bit of the hint up, then from bit zero. -/
def findSlot (sip : SwapInfo) (aoff : Nat) : Option (Option Nat) := do
  match ← scan (slotFree sip.swapslots) (aoff + sip.hint % 32) (32 - sip.hint % 32) with
  | some slot => some (some slot)
  | none => scan (slotFree sip.swapslots) aoff (sip.hint % 32)

def swapGetoff (sip : SwapInfo) : Option (Option Nat × SwapInfo) := do
  match ← findWord sip with
  | none => some (none, sip)
  | some sp =>
    match ← findSlot sip (sp * 32) with
    | none => none
    | some slotnumber =>
      some (some (ptob pageShift slotnumber + sip.soff),
        { sip with swapslots := sip.swapslots.set slotnumber, hint := slotnumber + 1 })

end Getoff

section Alloc

/-- What `swap_phys_alloc` reads: its arguments, whether `SA_NOT` is among the flags, and the two
tunables. -/
structure Request where
  vp : Nat
  off : Nat
  lenp : Nat
  saNot : Bool
  swapMaxcontig : Int
  swapallocMaxcontig : Nat

variable (pageShift : Nat) (getoff : SwapInfo → Option (Option Nat × SwapInfo)) (q : Request)

/-- The loop that adds the slots which follow; `fuel` bounds its turns. -/
def takeMore (soff : Nat) : Nat → Nat → SwapInfo → Option (Nat × SwapInfo)
  | 0, _, _ => none
  | fuel + 1, len, sip =>
    if ¬len < q.lenp then some (len, sip)
    else if sip.nfpgs = 0 then some (len, sip)
    else if q.swapallocMaxcontig ≠ 0 ∧ q.swapallocMaxcontig ≤ len then some (len, sip)
    else
      match getoff sip with
      | none => none
      | some (none, sip) => some (len, sip)
      | some (some noff, sip) =>
        if noff ≠ (soff + len) % 2 ^ 32 then
          some (len, { sip with swapslots := sip.swapslots.unset (btop pageShift (noff - sip.soff)) })
        else takeMore soff fuel ((len + pageSize pageShift) % 2 ^ 32) { sip with nfpgs := sip.nfpgs - 1 }

/-- From `found:` on: the start, the length and the area after it. -/
def allocFrom (sip : SwapInfo) : Option (Nat × Nat × SwapInfo) :=
  match getoff sip with
  | none => none
  | some (none, _) => none
  | some (some soff, sip) =>
    (takeMore pageShift getoff q soff sip.nfpgs (pageSize pageShift) { sip with nfpgs := sip.nfpgs - 1 }).map
      fun r => (soff, r.1, r.2)

/-- `SA_NOT` excludes the area that holds the offset given. -/
def eligible (sip : SwapInfo) : Bool :=
  !q.saNot || (q.vp != sip.vp || decide (q.off < sip.soff) || decide (sip.eoff ≤ q.off))

/-- `nfpgs` is looked at as a signed number. -/
def usable (sip : SwapInfo) : Bool :=
  !sip.inDel && decide (0 < sip.nfpgs) && decide (sip.nfpgs < 2 ^ 31) && eligible q sip

def passed (sip : SwapInfo) : SwapInfo := if sip.nfpgs = 0 then { sip with allocs := 0 } else sip

/-- The search along a part of the list: what has been passed, the area found, and the rest. -/
def findArea : List SwapInfo → Option (List SwapInfo × SwapInfo × List SwapInfo)
  | [] => none
  | sip :: l =>
    if usable q sip then some ([], sip, l)
    else (findArea l).map fun r => (passed sip :: r.1, r.2)

/-- The list in two parts, the second from the address on. -/
def splitAt (p : Nat) (l : List SwapInfo) : List SwapInfo × List SwapInfo :=
  l.span fun sip => sip.addr != p

/-- `swap_phys_alloc` once the area is found: the slots are taken, and after enough of them the
next area is the one to start from. -/
def takeFrom (silast : Nat) (before : List SwapInfo) (sip : SwapInfo) (after : List SwapInfo) :
    Option (Range × Areas) :=
  match allocFrom pageShift getoff q sip with
  | none => none
  | some (soff, len, sip) =>
    let allocs := (sip.allocs + btop pageShift len).bmod (2 ^ 32)
    let full := decide (q.swapMaxcontig ≤ allocs)
    let swapinfo := before ++ { sip with allocs := if full then 0 else allocs } :: after
    some (⟨sip.vp, soff, len⟩,
      { swapinfo
        silast := if full then (after.head?.or swapinfo.head?).map SwapInfo.addr else some silast })

def swapPhysAllocWith (s : Areas) : Option (Option Range × Areas) :=
  match s.silast with
  | none => some (none, s)
  | some p =>
    match splitAt p s.swapinfo with
    | (_, []) => none
    | (front, back) =>
      match findArea q back with
      | some (before, sip, after) =>
        (takeFrom pageShift getoff q p (front ++ before) sip after).map fun r => (some r.1, r.2)
      | none =>
        match findArea q front with
        | some (before, sip, after) =>
          (takeFrom pageShift getoff q p before sip (after ++ back.map passed)).map fun r => (some r.1, r.2)
        | none => some (none, { s with swapinfo := (front ++ back).map passed })

def swapPhysAlloc (s : Areas) : Option (Option Range × Areas) :=
  swapPhysAllocWith pageShift (swapGetoff pageShift) q s

end Alloc

section Free

variable (pageShift : Nat)

/-- Clears `n` bits from a page on. -/
def freeSlots (pagenumber : Nat) : Nat → SwapInfo → Option SwapInfo
  | 0, sip => some sip
  | n + 1, sip =>
    match sip.swapslots.test? pagenumber with
    | some true =>
      freeSlots (pagenumber + 1) n
        { sip with swapslots := sip.swapslots.unset pagenumber, nfpgs := sip.nfpgs + 1 }
    | _ => none

def swapPhysFree (r : Range) : List SwapInfo → Option (List SwapInfo)
  | [] => none
  | sip :: l =>
    if sip.vp = r.vp ∧ sip.soff ≤ r.off ∧ r.off < sip.eoff then
      (freeSlots (btop pageShift (r.off - sip.soff)) (btop pageShift r.len) sip).map fun sip => sip :: l
    else (swapPhysFree r l).map fun l => sip :: l

end Free

section AddDel

variable (pageShift : Nat)

/-- The whole pages of the file between the two offsets, when they are not outside of it. -/
def swapaddBounds (soff eoff vaSize : Nat) : Option (Nat × Nat) :=
  if 2 ^ 31 - 1 < vaSize then none
  else if vaSize = 0 ∨ vaSize ≤ soff then none
  else if vaSize < eoff then none
  else
    let soff := ptob pageShift (btopr pageShift soff)
    let eoff := ptob pageShift (btop pageShift eoff)
    if eoff ≤ soff then none else some (soff, eoff)

/-- A new area; the bits that can't ever be allocated are set. -/
def newSwapInfo (addr vp soff eoff : Nat) : SwapInfo :=
  let pages := btop pageShift (eoff - soff)
  let words := (pages + 31) / 32
  { addr, vp, soff, eoff
    allocs := 0
    inDel := false
    doingDel := false
    npgs := pages
    nfpgs := pages
    mapsize := words * 4
    swapslots := (List.range' pages (words * 32 - pages)).foldl Bitmap.set (List.replicate words 0)
    hint := 0 }

/-- The search along the list: `none` at the end, else the list that is left after the area has been
kept from being deleted or found to overlap. -/
def swapaddSearch (vp soff eoff pages : Nat) : List SwapInfo → Option (List SwapInfo)
  | [] => none
  | esip :: l =>
    if esip.vp = vp ∧ esip.soff = soff ∧ esip.npgs = pages ∧ esip.doingDel = true then
      some ({ esip with doingDel := false } :: l)
    else if esip.vp = vp ∧ soff < esip.eoff ∧ esip.soff < eoff then some (esip :: l)
    else (swapaddSearch vp soff eoff pages l).map fun l => esip :: l

def swapadd (s : Areas) (addr vp soff eoff vaSize : Nat) : Areas :=
  match swapaddBounds pageShift soff eoff vaSize with
  | none => s
  | some (soff, eoff) =>
    match swapaddSearch vp soff eoff (btop pageShift (eoff - soff)) s.swapinfo with
    | some l => { s with swapinfo := l }
    | none =>
      { swapinfo := s.swapinfo ++ [newSwapInfo pageShift addr vp soff eoff], silast := some addr }

def setFlags (inDel doingDel : Bool) (p : Nat) (l : List SwapInfo) : List SwapInfo :=
  l.map fun sip => if sip.addr = p then { sip with inDel, doingDel } else sip

/-- `swapdel` up to its first lock drop: the area found, when enough other swap is free. -/
def swapdelStart (s : Areas) (vp soff : Nat) (enough : Bool) : Areas :=
  match s.swapinfo.find? fun osip => osip.vp == vp && osip.soff == soff && !osip.inDel && !osip.doingDel with
  | none => s
  | some osip => if enough then { s with swapinfo := setFlags true true osip.addr s.swapinfo } else s

def swapdelAbort (s : Areas) (p : Nat) : Areas := { s with swapinfo := setFlags false false p s.swapinfo }

def swapdelDone (s : Areas) (p : Nat) : Areas :=
  let (front, back) := splitAt p s.swapinfo
  let swapinfo := front ++ back.tail
  { swapinfo
    silast := if s.silast = some p then (back.tail.head?.or swapinfo.head?).map SwapInfo.addr else s.silast }

end AddDel

end Solaris.SwapSlots
