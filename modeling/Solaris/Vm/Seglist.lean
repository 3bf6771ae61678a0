import Mathlib

/-!
# Segments of an address space

`as_findseg`, `as_addseg` and `as_removeseg` with the linked list of segments, the skiplist it turns into, and the
caches of both. Segments and skiplist nodes stand in memory under their addresses; a null or wrong pointer that is
followed is `none`.
-/

namespace Solaris.Vm

open Function

abbrev SegPtr := Nat

/-- A `seg_skiplist *`: the node of the address space itself, or the one allocated for a segment. -/
abbrev SslPtr := Option SegPtr

/-- A `struct seg *` in a skiplist node. -/
inductive Link where
  | null
  | unused
  | seg (p : SegPtr)
  deriving DecidableEq

/-- The union `seg_next`. -/
inductive SegNext where
  | list (seg : Option SegPtr)
  | skiplist (ssl : Option SslPtr)
  deriving DecidableEq

structure Seg where
  base : Nat
  size : Nat
  next : SegNext
  prev : Option SegPtr

/-- The union `a_cache`: the last segment hit, or the last search path. -/
inductive Cache where
  | seglast (seg : Option SegPtr)
  | spath (ssls : Nat → Option SslPtr)

inductive Lrep where
  | linkedlist
  | skiplist
  deriving DecidableEq

structure As where
  seg : SegPtr → Seg
  ssl : SslPtr → Nat → Link
  segs : SegNext
  cache : Cache
  tail : Option SegPtr
  nsegs : Nat
  lrep : Lrep
  hilevel : Nat

def sslNlevels : Nat := 4

/-- `s_base + s_size` -/
def Seg.stop (s : Seg) : Nat := (s.base + s.size) % 2 ^ 32

/-- The difference of two addresses, an `int`. -/
def ptrdiff (a b : Nat) : Int := ((a : Int) - b).bmod (2 ^ 32)

def asAlloc (seg : SegPtr → Seg) (ssl : SslPtr → Nat → Link) : As where
  seg := seg
  ssl := ssl
  segs := .list none
  cache := .seglast none
  tail := none
  nsegs := 0
  lrep := .linkedlist
  hilevel := 0

def As.setPrev (as : As) (p : SegPtr) (q : Option SegPtr) : As :=
  { as with seg := update as.seg p { as.seg p with prev := q } }

def As.setNext (as : As) (p : SegPtr) (n : SegNext) : As :=
  { as with seg := update as.seg p { as.seg p with next := n } }

def As.setSsl (as : As) (ssl : SslPtr) (i : Nat) (l : Link) : As :=
  { as with ssl := fun s j => if s = ssl ∧ j = i then l else as.ssl s j }

section Search

variable (as : As) (addr : Nat)

/-- The segments of one level that end at or before the address. -/
def walkLevel (i : Nat) : Nat → SslPtr → Option (SslPtr × Option SegPtr)
  | 0, _ => none
  | fuel + 1, ssl =>
    match as.ssl ssl i with
    | .null => some (ssl, none)
    | .unused => none
    | .seg p =>
      if (as.seg p).stop ≤ addr then
        match (as.seg p).next with
        | .skiplist (some ssl) => walkLevel i fuel ssl
        | _ => none
      else some (ssl, some p)

/-- The levels from a highest one down, with the path recorded. -/
def searchLevels : Nat → SslPtr → (Nat → Option SslPtr) → Option (Option SegPtr × (Nat → Option SslPtr))
  | 0, ssl, spath =>
    (walkLevel as addr 0 (as.nsegs + 1) ssl).map fun r => (r.2, update spath 0 (some r.1))
  | i + 1, ssl, spath =>
    (walkLevel as addr (i + 1) (as.nsegs + 1) ssl).bind fun r =>
      searchLevels i r.1 (update spath (i + 1) (some r.1))

def searchHead (tail : Bool) (spath : Nat → Option SslPtr) : Option (Option SegPtr × As) :=
  match as.segs with
  | .skiplist (some ssl) =>
    (searchLevels as addr as.hilevel ssl spath).map fun r =>
      (if tail ∧ r.1 = none then as.tail else r.1, { as with cache := .spath r.2 })
  | _ => none

/-- The lower values of the path are set to a node, up to its highest level in use. -/
def patchPath (ssl : SslPtr) : Nat → Nat → (Nat → Option SslPtr) → Nat → Option SslPtr
  | 0, _, spath => spath
  | n + 1, i, spath =>
    if as.ssl ssl i = .unused then spath else patchPath ssl n (i + 1) (update spath i (some ssl))

def PrevEnds (p : SegPtr) : Prop := ∀ q, (as.seg p).prev = some q → (as.seg q).stop ≤ addr

instance (p : SegPtr) : Decidable (PrevEnds as addr p) :=
  match h : (as.seg p).prev with
  | none => isTrue fun q hq => by rw [h] at hq; cases hq
  | some q =>
    if hq : (as.seg q).stop ≤ addr then isTrue fun q' hq' => by rw [h] at hq'; cases hq'; exact hq
    else isFalse fun hall => hq (hall q h)

def sslSearch (tail : Bool) : Option (Option SegPtr × As) :=
  match as.cache with
  | .seglast _ => none
  | .spath spath =>
    match spath 0 with
    | none => searchHead as addr tail spath
    | some cssl =>
      match as.ssl cssl 0 with
      | .null => searchHead as addr tail spath
      | .unused => none
      | .seg p =>
        if addr < (as.seg p).stop ∧ PrevEnds as addr p then some (some p, as)
        else
          match (as.seg p).next with
          | .skiplist (some ssl) =>
            match as.ssl ssl 0 with
            | .null => searchHead as addr tail spath
            | .unused => none
            | .seg q =>
              if (as.seg p).stop ≤ addr ∧ addr < (as.seg q).stop then
                some (some q, { as with cache := .spath (patchPath as ssl sslNlevels 0 spath) })
              else searchHead as addr tail spath
          | _ => none

end Search

section Skiplist

/-- The new segment goes behind the nodes of the path at its levels. -/
def linkLevels (new : SegPtr) (spath : Nat → Option SslPtr) : Nat → Nat → As → Option As
  | 0, _, as => some as
  | n + 1, i, as =>
    match spath i with
    | none => none
    | some ssl => linkLevels new spath n (i + 1) ((as.setSsl (some new) i (as.ssl ssl i)).setSsl ssl i (.seg new))

/-- The levels above the old highest one begin at the head. -/
def raiseLevel (newlev : Nat) (as : As) : Option As :=
  match as.cache with
  | .seglast _ => none
  | .spath spath =>
    if as.hilevel < newlev then
      match as.segs with
      | .skiplist (some head) =>
        some { as with
          cache := .spath fun i => if as.hilevel < i ∧ i ≤ newlev then some head else spath i
          hilevel := newlev }
      | _ => none
    else some as

def unuseLevels (new : SegPtr) (newlev : Nat) (as : As) : As :=
  { as with ssl := fun s i => if s = some new ∧ newlev < i ∧ i < sslNlevels then .unused else as.ssl s i }

/-- The second half of `ssl_insert`. -/
def sslLink (newlev : Nat) (as : As) (new : SegPtr) : Option As :=
  (raiseLevel newlev as).bind fun as =>
    match as.cache with
    | .seglast _ => none
    | .spath spath =>
      (linkLevels new spath (newlev + 1) 0 (as.setNext new (.skiplist (some (some new))))).map fun as =>
        { unuseLevels new newlev as with nsegs := as.nsegs + 1 }

/-- True when the segment was inserted. `newlev` is what `ssl_newlevel` returns. -/
def sslInsert (newlev : Nat) (as : As) (new : SegPtr) : Option (Bool × As) :=
  (sslSearch as (as.seg new).base true).bind fun r =>
    let as := r.2
    match r.1 with
    | none => (sslLink newlev { as.setPrev new none with tail := some new } new).map fun as => (true, as)
    | some p =>
      let base := (as.seg p).base
      if (as.seg p).stop ≤ (as.seg new).base then
        (sslLink newlev { as.setPrev new (some p) with tail := some new } new).map fun as => (true, as)
      else if base ≤ (as.seg new).base ∨ base < (as.seg new).stop then some (false, as)
      else
        (sslLink newlev ((as.setPrev new (as.seg p).prev).setPrev p (some new)) new).map fun as => (true, as)

def unlinkLevels (p : SegPtr) (ssl : SslPtr) (spath : Nat → Option SslPtr) : Nat → Nat → As → Option As
  | 0, _, as => some as
  | n + 1, i, as =>
    match spath i with
    | none => none
    | some pred =>
      if as.ssl pred i ≠ .seg p then some as
      else unlinkLevels p ssl spath n (i + 1) (as.setSsl pred i (as.ssl ssl i))

/-- `while (hilev > 0 && as->a_segs.skiplist->segs[hilev] == NULL) hilev--` -/
def lowerLevel (as : As) (head : SslPtr) : Nat → Nat
  | 0 => 0
  | hilev + 1 => if as.ssl head (hilev + 1) = .null then lowerLevel as head hilev else hilev + 1

/-- The second half of `ssl_remove`. -/
def sslUnlink (as : As) (p : SegPtr) : Option As :=
  match as.cache, as.segs, (as.seg p).next with
  | .spath spath, .skiplist (some head), .skiplist (some ssl) =>
    (unlinkLevels p ssl spath (as.hilevel + 1) 0 as).bind fun as =>
      (match as.ssl ssl 0 with
      | .null => some { as with tail := (as.seg p).prev }
      | .unused => none
      | .seg q => some (as.setPrev q (as.seg p).prev)).map fun as : As =>
        { as.setNext p (.skiplist none) with
          hilevel := lowerLevel as head as.hilevel
          nsegs := as.nsegs - 1 }
  | _, _, _ => none

def sslRemove (as : As) (addr : Nat) : Option (Option SegPtr × As) :=
  (sslSearch as addr false).bind fun r =>
    let as := r.2
    match r.1 with
    | none => some (none, as)
    | some p => if (as.seg p).base ≠ addr then some (none, as) else (sslUnlink as p).map fun as => (some p, as)

def mutateLoop (newlev : SegPtr → Nat) : Nat → Option SegPtr → As → Option As
  | _, none, as => some as
  | 0, some _, _ => none
  | fuel + 1, some car, as =>
    (sslInsert (newlev car) as car).bind fun r => mutateLoop newlev fuel (as.seg car).prev r.2

/-- The linked list of segments is changed into a skiplist. -/
def asMutateSeglist (newlev : SegPtr → Nat) (as : As) : Option As :=
  mutateLoop newlev as.nsegs as.tail
    { as with
      tail := none
      segs := .skiplist (some none)
      ssl := fun s i => if s = none then .null else as.ssl s i
      cache := .spath fun _ => none
      lrep := .skiplist
      nsegs := 0 }

end Skiplist

section List

variable (as : As) (addr : Nat)

def findForward : Nat → Option SegPtr → Option SegPtr
  | 0, _ => none
  | _ + 1, none => none
  | fuel + 1, some p =>
    if (as.seg p).stop ≤ addr then
      match (as.seg p).next with
      | .list next => findForward fuel next
      | .skiplist _ => none
    else some p

/-- The reverse search: the first segment that begins at or before the address, and the one the
search came from. -/
def findReverse : Nat → Option SegPtr → SegPtr → Option (Option SegPtr × SegPtr)
  | 0, _, _ => none
  | fuel + 1, prev, p =>
    if addr < (as.seg p).base then
      match (as.seg p).prev with
      | none => none
      | some q => findReverse fuel (some p) q
    else some (prev, p)

/-- Where a search starts in the linked list: forward from a segment, in reverse from one, or it is
over. -/
inductive Start where
  | forward (seg : Option SegPtr)
  | reverse (seg : SegPtr)
  | found (seg : Option SegPtr)

def findStart (tail : Bool) (list hiseg seg : SegPtr) : Start :=
  if (as.seg seg).base ≤ addr then
    if addr < (as.seg seg).stop then .found (some seg)
    else if (as.seg hiseg).stop ≤ addr then .found (if tail then some hiseg else none)
    else if ptrdiff (as.seg hiseg).stop addr < ptrdiff addr (as.seg seg).base then .reverse hiseg
    else
      match (as.seg seg).next with
      | .list next => .forward next
      | .skiplist _ => .forward none
  else if addr < (as.seg list).base then .found (some list)
  else if ptrdiff addr (as.seg list).base < ptrdiff (as.seg seg).base addr then .forward (some list)
  else .reverse seg

def asFindseg (tail : Bool) : Option (Option SegPtr × As) :=
  if as.lrep = .skiplist then sslSearch as addr tail
  else
    match as.segs, as.cache with
    | .list none, _ => some (none, as)
    | .list (some list), .seglast last =>
      match as.tail with
      | none => none
      | some hiseg =>
        match findStart as addr tail list hiseg (last.getD list) with
        | .found r => some (r, as)
        | .forward seg =>
          (findForward as addr (as.nsegs + 1) seg).map fun p =>
            (some p, if (as.seg p).base ≤ addr then { as with cache := .seglast (some p) } else as)
        | .reverse seg =>
          (findReverse as addr (as.nsegs + 1) none seg).bind fun r =>
            if addr < (as.seg r.2).stop then some (some r.2, { as with cache := .seglast (some r.2) })
            else r.1.map fun prev => (some prev, as)
    | _, _ => none

end List

section Operations

/-- The new segment goes in front of a segment of the linked list. -/
def listBefore (as : As) (new p : SegPtr) : Option As :=
  let q := (as.seg p).prev
  let as := ((as.setNext new (.list (some p))).setPrev new q).setPrev p (some new)
  if as.segs = .list (some p) then some { as with segs := .list (some new) }
  else q.map fun q => as.setNext q (.list (some new))

/-- `as_addseg` in the linked list. -/
def listAdd (as : As) (new : SegPtr) : Option (Bool × As) :=
  (asFindseg as (as.seg new).base true).bind fun r =>
    let as := r.2
    let done := fun as : As => (true, { as with cache := .seglast (some new), nsegs := as.nsegs + 1 })
    match r.1 with
    | none =>
      some (done { (as.setNext new (.list none)).setPrev new none with
        segs := .list (some new)
        tail := some new })
    | some p =>
      let base := (as.seg p).base
      if (as.seg p).stop ≤ (as.seg new).base then
        some (done { ((as.setPrev new (some p)).setNext new (.list none)).setNext p (.list (some new)) with
          tail := some new })
      else if base ≤ (as.seg new).base ∨ base < (as.seg new).stop then some (false, as)
      else (listBefore as new p).map done

/-- `thresh` is `as_mutation_thresh`, and the kernel address space keeps the linked list. -/
def asAddseg (thresh : Nat) (kas : Bool) (newlev : SegPtr → Nat) (as : As) (new : SegPtr) : Option (Bool × As) :=
  (if thresh ≤ as.nsegs ∧ as.lrep ≠ .skiplist ∧ kas = false then asMutateSeglist newlev as
    else some as).bind fun as =>
      if as.lrep = .skiplist then sslInsert (newlev new) as new else listAdd as new

def listUnlink (as : As) (p : SegPtr) : Option As :=
  match (as.seg p).next with
  | .skiplist _ => none
  | .list next =>
    let as := { as with cache := .seglast next }
    (if as.tail = some p then some { as with tail := (as.seg p).prev }
      else next.map fun n => as.setPrev n (as.seg p).prev).bind fun as =>
        (if as.segs = .list (some p) then some { as with segs := .list next }
          else (as.seg p).prev.map fun q => as.setNext q (.list next)).map fun as =>
            { as with nsegs := as.nsegs - 1 }

def asRemoveseg (as : As) (addr : Nat) : Option (Option SegPtr × As) :=
  if as.lrep = .skiplist then sslRemove as addr
  else
    (asFindseg as addr false).bind fun r =>
      let as := r.2
      match r.1 with
      | none => some (none, as)
      | some p => if (as.seg p).base ≠ addr then some (none, as) else (listUnlink as p).map fun as => (some p, as)

end Operations

end Solaris.Vm
