import Mathlib

/-!
# Resource maps

The map of `rmap.c`: an array of segments in place, ended by an entry of size zero, and the operations that edit it.
The array is a list of all its entries, those behind the terminator included. An access past the end of the array
and a panic are `none`.
-/

namespace Solaris.Rmap

section Map

/-- `struct map` -/
structure Seg where
  size : Nat
  addr : Nat
  deriving DecidableEq

structure Map where
  /-- number of free slots -/
  mFree : Nat
  /-- number of slots -/
  mSize : Nat
  mMap : List Seg

def top : Nat := 2 ^ 32

def wadd (a b : Nat) : Nat := (a + b) % top

def wsub (a b : Nat) : Nat := (a + top - b) % top

/-- `mapinit` on zeroed memory: `cap` slots and the extra entry at the end. -/
def mapinit (cap size addr : Nat) : Map :=
  { mFree := if size ≠ 0 then cap - 1 else cap
    mSize := cap
    mMap := ⟨size, addr⟩ :: List.replicate cap ⟨0, 0⟩ }

/-- The entries from an entry that is given up on: the rest moves to the left, up to and including
the terminator. -/
def closeGap : List Seg → Option (List Seg)
  | _ :: next :: rest =>
    if next.size = 0 then some (next :: next :: rest)
    else (closeGap (next :: rest)).map fun l => next :: l
  | _ => none

/-- The search of `rmalloc_locked`: the address found, whether its segment was used up, and the
entries after that. -/
def rmallocFrom (size : Nat) : List Seg → Option (Option (Nat × Bool × List Seg))
  | [] => none
  | bp :: rest =>
    if bp.size = 0 then some none
    else if size ≤ bp.size then
      if bp.size - size = 0 then
        (closeGap (⟨bp.size - size, wadd bp.addr size⟩ :: rest)).map fun l => some (bp.addr, true, l)
      else some (some (bp.addr, false, ⟨bp.size - size, wadd bp.addr size⟩ :: rest))
    else (rmallocFrom size rest).map fun r => r.map fun (addr, gone, l) => (addr, gone, bp :: l)

def rmallocLocked (mp : Map) (size : Nat) : Option (Nat × Map) :=
  (rmallocFrom size mp.mMap).map fun r =>
    match r with
    | none => (0, mp)
    | some (addr, gone, l) =>
      (addr, { mp with mMap := l, mFree := if gone then mp.mFree + 1 else mp.mFree })

/-- A new entry is made and the remaining ones are pushed up, over the terminator. -/
def pushUp (size addr : Nat) : List Seg → Option (List Seg)
  | [] => none
  | bp :: rest =>
    if bp.size = 0 then some (⟨size, addr⟩ :: rest)
    else (pushUp bp.size bp.addr rest).map fun l => ⟨size, addr⟩ :: l

/-- The smaller of the last two segments is destroyed, the last one if they are equal. -/
def discard : List Seg → Option (List Seg)
  | y :: z :: t :: rest =>
    if t.size = 0 then
      if y.size < z.size then some (z :: { z with size := 0 } :: t :: rest)
      else some (y :: t :: { t with size := 0 } :: rest)
    else (discard (z :: t :: rest)).map fun l => y :: l
  | _ => none

/-- The space does not touch the piece on its left: `left` stands before `bp`. -/
def rmfreeRight (mp : Map) (size addr : Nat) (left : List Seg) (bp : Seg) (rest : List Seg) :
    Option (Bool × Map) :=
  if bp.addr ≤ wadd addr size ∧ bp.size ≠ 0 then
    if bp.addr < wadd addr size then none
    else some (false, { mp with mMap := left ++ ⟨wadd bp.size size, wsub bp.addr size⟩ :: rest })
  else if mp.mFree = 0 then
    (discard mp.mMap).map fun l => (true, { mp with mMap := l, mFree := mp.mFree + 1 })
  else
    (pushUp size addr (bp :: rest)).map fun l =>
      (false, { mp with mMap := left ++ l, mFree := mp.mFree - 1 })

/-- One pass of `rmfree` from `retry` on; the flag asks for another one. -/
def rmfreeTry (mp : Map) (size addr : Nat) : Option (Bool × Map) :=
  match mp.mMap.span (fun b => b.addr ≤ addr ∧ b.size ≠ 0) with
  | (_, []) => none
  | (left, bp :: rest) =>
    match left.getLast? with
    | none => rmfreeRight mp size addr left bp rest
    | some p =>
      if addr ≤ wadd p.addr p.size then
        if addr < wadd p.addr p.size then none
        else if bp.size ≠ 0 ∧ bp.addr ≤ wadd addr size then
          if bp.addr < wadd addr size then none
          else
            (closeGap (bp :: rest)).map fun l =>
              (false, { mp with
                mMap := left.dropLast ++ ⟨wadd (wadd p.size size) bp.size, p.addr⟩ :: l
                mFree := mp.mFree + 1 })
        else some (false, { mp with
          mMap := left.dropLast ++ ⟨wadd p.size size, p.addr⟩ :: bp :: rest })
      else rmfreeRight mp size addr left bp rest

/-- The loop through `retry`. -/
def rmfreeLoop (size addr : Nat) : Nat → Map → Option Map
  | 0, _ => none
  | fuel + 1, mp =>
    match rmfreeTry mp size addr with
    | none => none
    | some (true, mp') => rmfreeLoop size addr fuel mp'
    | some (false, mp') => some mp'

/-- The size is checked as a signed number. Every pass through `retry` gains a free slot. -/
def rmfree (mp : Map) (size addr : Nat) : Option Map :=
  if addr = 0 ∨ size = 0 ∨ 2 ^ 31 ≤ size then none else rmfreeLoop size addr (mp.mSize + 1) mp

/-- A new entry after `bp`: the entries behind it move up, and the entry behind the old terminator
becomes the terminator. -/
def openSlot (new : Seg) : List Seg → Option (List Seg)
  | [] => none
  | bp :: rest =>
    if bp.size = 0 then
      match rest with
      | [] => none
      | last :: rest => some (new :: { last with size := 0 } :: rest)
    else (openSlot bp rest).map fun l => new :: l

/-- The search of `rmget`: the change of the number of free slots, and the entries after it. -/
def rmgetFrom (size addr mfree : Nat) : List Seg → Option (Option (Int × List Seg))
  | [] => none
  | bp :: rest =>
    if bp.size = 0 then some none
    else if bp.addr ≤ addr ∧ addr < wadd bp.addr bp.size then
      if wadd bp.addr bp.size < wadd addr size then some none
      else if bp.addr = addr then
        if bp.size = size then (closeGap (bp :: rest)).map fun l => some (1, l)
        else some (some (0, ⟨wsub bp.size size, wadd bp.addr size⟩ :: rest))
      else if wadd bp.addr bp.size = wadd addr size then
        some (some (0, ⟨wsub bp.size size, bp.addr⟩ :: rest))
      else if mfree = 0 then some none
      else
        (openSlot ⟨wadd bp.addr bp.size - wadd addr size, wadd addr size⟩ rest).map fun l =>
          some (-1, ⟨addr - bp.addr, bp.addr⟩ :: l)
    else (rmgetFrom size addr mfree rest).map fun r => r.map fun (d, l) => (d, bp :: l)

def rmget (mp : Map) (size addr : Nat) : Option (Nat × Map) :=
  if size = 0 ∨ 2 ^ 31 ≤ size then none
  else
    (rmgetFrom size addr mp.mFree mp.mMap).map fun r =>
      match r with
      | none => (0, mp)
      | some (d, l) => (addr, { mp with mMap := l, mFree := (mp.mFree + d).toNat })

end Map

/-!
## Segments of a resource map

The segments before the terminator, in order and apart from one another, and what each loop over
the array does to them.
-/

section Segments

open List

/-- Segments in increasing order, with at least one address between any two of them; none is empty,
none holds the address zero and none reaches the top of the address space. -/
structure Good (segs : List Seg) : Prop where
  pos : ∀ b ∈ segs, 0 < b.size
  nonzero : ∀ b ∈ segs, 0 < b.addr
  below : ∀ b ∈ segs, b.addr + b.size < top
  spaced : segs.Pairwise fun b c => b.addr + b.size < c.addr

/-- The array holds `segs` and after them only entries of size zero, one of them at least. -/
structure Layout (mp : Map) (segs : List Seg) : Prop where
  entries : ∃ zs, mp.mMap = segs ++ zs ∧ ∀ z ∈ zs, z.size = 0
  length : mp.mMap.length = mp.mSize + 1
  slots : segs.length + mp.mFree = mp.mSize
  good : Good segs

/-- As `Good`, with segments up to the top. -/
structure Formed (segs : List Seg) : Prop where
  pos : ∀ b ∈ segs, 0 < b.size
  nonzero : ∀ b ∈ segs, 0 < b.addr
  below : ∀ b ∈ segs, b.addr + b.size ≤ top
  spaced : segs.Pairwise fun b c => b.addr + b.size < c.addr

/-- As `Layout`, with segments up to the top. -/
structure Laid (mp : Map) (segs : List Seg) : Prop where
  entries : ∃ zs, mp.mMap = segs ++ zs ∧ ∀ z ∈ zs, z.size = 0
  length : mp.mMap.length = mp.mSize + 1
  slots : segs.length + mp.mFree = mp.mSize
  formed : Formed segs

def freeSet (segs : List Seg) : Set Nat := {x | ∃ b ∈ segs, b.addr ≤ x ∧ x < b.addr + b.size}

section Good

variable {l r : List Seg} {b c : Seg}

lemma Good.left (h : Good (l ++ r)) : Good l where
  pos b hb := h.pos b (mem_append_left _ hb)
  nonzero b hb := h.nonzero b (mem_append_left _ hb)
  below b hb := h.below b (mem_append_left _ hb)
  spaced := (pairwise_append.mp h.spaced).1

lemma Good.right (h : Good (l ++ r)) : Good r where
  pos b hb := h.pos b (mem_append_right _ hb)
  nonzero b hb := h.nonzero b (mem_append_right _ hb)
  below b hb := h.below b (mem_append_right _ hb)
  spaced := (pairwise_append.mp h.spaced).2.1

section Spaced

variable (h : (l ++ b :: r).Pairwise fun b c : Seg => b.addr + b.size < c.addr)
include h

lemma spaced_before (hc : c ∈ l) : c.addr + c.size < b.addr :=
  (pairwise_append.mp h).2.2 c hc b mem_cons_self

lemma spaced_after (hc : c ∈ r) : b.addr + b.size < c.addr :=
  (pairwise_cons.mp (pairwise_append.mp h).2.1).1 c hc

end Spaced

lemma Good.before (h : Good (l ++ b :: r)) (hc : c ∈ l) : c.addr + c.size < b.addr := spaced_before h.spaced hc

lemma Good.after (h : Good (l ++ b :: r)) (hc : c ∈ r) : b.addr + b.size < c.addr := spaced_after h.spaced hc

theorem Good.replace {mid mid' : List Seg} (h : Good (l ++ mid ++ r)) (hm : Good mid')
    (hl : ∀ c ∈ l, ∀ b ∈ mid', c.addr + c.size < b.addr)
    (hr : ∀ b ∈ mid', ∀ c ∈ r, b.addr + b.size < c.addr) : Good (l ++ mid' ++ r) := by
  have hlr : ∀ c ∈ l, ∀ d ∈ r, c.addr + c.size < d.addr := by
    intro c hc d hd
    exact (pairwise_append.mp h.spaced).2.2 c (mem_append_left _ hc) d hd
  have hl' : Good l := h.left.left
  have hr' : Good r := h.right
  refine ⟨?_, ?_, ?_, ?_⟩
  · intro b hb
    simp only [mem_append] at hb
    rcases hb with (hb | hb) | hb
    · exact hl'.pos b hb
    · exact hm.pos b hb
    · exact hr'.pos b hb
  · intro b hb
    simp only [mem_append] at hb
    rcases hb with (hb | hb) | hb
    · exact hl'.nonzero b hb
    · exact hm.nonzero b hb
    · exact hr'.nonzero b hb
  · intro b hb
    simp only [mem_append] at hb
    rcases hb with (hb | hb) | hb
    · exact hl'.below b hb
    · exact hm.below b hb
    · exact hr'.below b hb
  · rw [pairwise_append, pairwise_append]
    refine ⟨⟨hl'.spaced, hm.spaced, hl⟩, hr'.spaced, ?_⟩
    intro c hc d hd
    rcases mem_append.mp hc with hc | hc
    · exact hlr c hc d hd
    · exact hr c hc d hd

lemma good_nil : Good [] := ⟨by simp, by simp, by simp, List.Pairwise.nil⟩

lemma good_singleton (hp : 0 < b.size) (hn : 0 < b.addr) (hb : b.addr + b.size < top) : Good [b] :=
  ⟨by simpa using hp, by simpa using hn, by simpa using hb, pairwise_singleton _ _⟩

end Good

section FreeSet

variable {l r : List Seg} {b : Seg} {x : Nat}

@[simp] lemma mem_freeSet_nil : x ∉ freeSet [] := by
  rintro ⟨b, hb, _⟩
  cases hb

lemma mem_freeSet_append : x ∈ freeSet (l ++ r) ↔ x ∈ freeSet l ∨ x ∈ freeSet r := by
  constructor
  · rintro ⟨b, hb, hx⟩
    rcases mem_append.mp hb with hb | hb
    · exact .inl ⟨b, hb, hx⟩
    · exact .inr ⟨b, hb, hx⟩
  · rintro (⟨b, hb, hx⟩ | ⟨b, hb, hx⟩)
    · exact ⟨b, mem_append_left _ hb, hx⟩
    · exact ⟨b, mem_append_right _ hb, hx⟩

lemma mem_freeSet_cons :
    x ∈ freeSet (b :: r) ↔ (b.addr ≤ x ∧ x < b.addr + b.size) ∨ x ∈ freeSet r := by
  constructor
  · rintro ⟨c, hc, hx⟩
    rcases mem_cons.mp hc with rfl | hc
    · exact .inl hx
    · exact .inr ⟨c, hc, hx⟩
  · rintro (hx | ⟨c, hc, hx⟩)
    · exact ⟨b, mem_cons_self, hx⟩
    · exact ⟨c, mem_cons_of_mem _ hc, hx⟩

lemma lt_of_mem_left (h : (l ++ b :: r).Pairwise fun b c : Seg => b.addr + b.size < c.addr) (hx : x ∈ freeSet l) :
    x < b.addr := by
  obtain ⟨c, hc, _, hlt⟩ := hx
  have := spaced_before h hc
  omega

lemma lt_of_mem_right (h : (l ++ b :: r).Pairwise fun b c : Seg => b.addr + b.size < c.addr) (hx : x ∈ freeSet r) :
    b.addr + b.size < x := by
  obtain ⟨c, hc, hle, _⟩ := hx
  have := spaced_after h hc
  omega

end FreeSet

section Loops

variable {l segs zs : List Seg} {b z : Seg} {size addr : Nat}

lemma closeGap_spec (hs : ∀ c ∈ segs, 0 < c.size) (hz : z.size = 0) :
    closeGap (b :: (segs ++ z :: zs)) = some (segs ++ z :: z :: zs) := by
  induction segs generalizing b with
  | nil =>
    rw [nil_append, closeGap, if_pos hz]
    rfl
  | cons c segs ih =>
    have hc : c.size ≠ 0 := (hs c mem_cons_self).ne'
    rw [cons_append, closeGap, if_neg hc, ih fun d hd => hs d (mem_cons_of_mem _ hd)]
    rfl

lemma pushUp_spec (hs : ∀ c ∈ segs, 0 < c.size) (hz : z.size = 0) :
    pushUp size addr (segs ++ z :: zs) = some (⟨size, addr⟩ :: (segs ++ zs)) := by
  induction segs generalizing size addr with
  | nil => rw [nil_append, pushUp, if_pos hz, nil_append]
  | cons c segs ih =>
    have hc : c.size ≠ 0 := (hs c mem_cons_self).ne'
    rw [cons_append, pushUp, if_neg hc, ih fun d hd => hs d (mem_cons_of_mem _ hd)]
    rfl

lemma openSlot_spec {new t : Seg} (hs : ∀ c ∈ segs, 0 < c.size) (hz : z.size = 0) :
    openSlot new (segs ++ z :: t :: zs) = some (new :: (segs ++ { t with size := 0 } :: zs)) := by
  induction segs generalizing new with
  | nil => rw [nil_append, openSlot, if_pos hz, nil_append]
  | cons c segs ih =>
    have hc : c.size ≠ 0 := (hs c mem_cons_self).ne'
    rw [cons_append]
    unfold openSlot
    rw [if_neg hc, ih fun d hd => hs d (mem_cons_of_mem _ hd)]
    rfl

lemma discard_spec {y t : Seg} (hl : ∀ c ∈ l, 0 < c.size) (hy : 0 < y.size) (hb : 0 < b.size)
    (ht : t.size = 0) :
    discard (l ++ y :: b :: t :: zs) =
      some (l ++ if y.size < b.size then b :: { b with size := 0 } :: t :: zs
        else y :: t :: { t with size := 0 } :: zs) := by
  induction l with
  | nil =>
    rw [nil_append, discard, if_pos ht]
    split <;> rfl
  | cons c l ih =>
    have ih' := ih fun d hd => hl d (mem_cons_of_mem _ hd)
    -- the two entries after `c` are segments, and a third one decides
    cases l with
    | nil =>
      rw [cons_append, nil_append, discard, if_neg hb.ne']
      rw [nil_append] at ih'
      rw [ih']
      rfl
    | cons d l =>
      cases l with
      | nil =>
        rw [cons_append, cons_append, nil_append, discard, if_neg hy.ne']
        rw [cons_append, nil_append] at ih'
        rw [ih']
        rfl
      | cons e l =>
        have he : e.size ≠ 0 := (hl e (by simp)).ne'
        rw [cons_append, cons_append, cons_append, discard, if_neg he]
        rw [cons_append, cons_append] at ih'
        rw [ih']
        rfl

end Loops

section Entries

variable {mp : Map} {segs : List Seg}

lemma Layout.laid (h : Layout mp segs) : Laid mp segs :=
  ⟨h.entries, h.length, h.slots, h.good.pos, h.good.nonzero, fun b hb => (h.good.below b hb).le, h.good.spaced⟩

lemma Laid.layout (h : Laid mp segs) (hb : ∀ b ∈ segs, b.addr + b.size < top) : Layout mp segs :=
  ⟨h.entries, h.length, h.slots, h.formed.pos, h.formed.nonzero, hb, h.formed.spaced⟩

lemma Laid.zeros (h : Laid mp segs) :
    ∃ z zs, mp.mMap = segs ++ z :: zs ∧ z.size = 0 ∧ (∀ y ∈ zs, y.size = 0) ∧ zs.length = mp.mFree := by
  obtain ⟨zs, he, hz⟩ := h.entries
  have hlen := h.length
  have hsl := h.slots
  rw [he, length_append] at hlen
  cases zs with
  | nil =>
    rw [length_nil] at hlen
    omega
  | cons z zs =>
    rw [length_cons] at hlen
    exact ⟨z, zs, he, hz z mem_cons_self, fun y hy => hz y (mem_cons_of_mem _ hy), by omega⟩

lemma Layout.zeros (h : Layout mp segs) :
    ∃ z zs, mp.mMap = segs ++ z :: zs ∧ z.size = 0 ∧ (∀ y ∈ zs, y.size = 0) ∧ zs.length = mp.mFree :=
  h.laid.zeros

lemma mapinit_layout (cap : Nat) {size addr : Nat} (hcap : 1 ≤ cap)
    (hs : size ≠ 0 → 0 < addr ∧ addr + size < top) :
    Layout (mapinit cap size addr) (if size = 0 then [] else [⟨size, addr⟩]) := by
  by_cases h0 : size = 0
  · subst h0
    refine ⟨⟨_, rfl, ?_⟩, ?_, ?_, good_nil⟩
    · refine forall_mem_cons.mpr ⟨rfl, fun z hz => ?_⟩
      rw [eq_of_mem_replicate hz]
    · simp [mapinit]
    · simp [mapinit]
  obtain ⟨ha, ht⟩ := hs h0
  rw [if_neg h0]
  refine ⟨⟨List.replicate cap ⟨0, 0⟩, rfl, ?_⟩, ?_, ?_, good_singleton (Nat.pos_of_ne_zero h0) ha ht⟩
  · intro z hz
    rw [eq_of_mem_replicate hz]
  · simp [mapinit]
  · simp [mapinit, h0]
    omega

end Entries

end Segments

end Solaris.Rmap
