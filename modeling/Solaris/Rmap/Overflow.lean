import Solaris.Rmap.Refinement

/-!
# The overflow of a full map

Without a free slot `rmfree` gives up the smaller of the last two segments. The choice looks at the entry before the last
segment, and in a map of one slot that entry is the end of the map's header.
-/

namespace Solaris.Rmap

open List Option

variable {mp : Map} {segs left right : List Seg} {b c : Seg} {size addr : Nat}

/-- The map, and the two words of `struct map_head` in front of its array. -/
structure Memory where
  head : Seg
  mp : Map

/-- The pass from `retry` on comes to the test for a map overflow, and there is no free slot. -/
def overflows (mp : Map) (size addr : Nat) : Bool :=
  match mp.mMap.span (fun b => b.addr ≤ addr ∧ b.size ≠ 0) with
  | (_, []) => false
  | (left, bp :: _) =>
    (match left.getLast? with
      | none => true
      | some p => wadd p.addr p.size < addr) &&
    !(bp.addr ≤ wadd addr size ∧ bp.size ≠ 0) && mp.mFree = 0

/-- One entry is destroyed, in the array or in front of it. -/
def overflow (m : Memory) : Option Memory :=
  match discard (m.head :: m.mp.mMap) with
  | some (head :: l) => some ⟨head, { m.mp with mMap := l, mFree := m.mp.mFree + 1 }⟩
  | _ => none

/-- One pass of `rmfree` from `retry` on. -/
def rmfreePass (m : Memory) (size addr : Nat) : Option (Bool × Memory) :=
  if overflows m.mp size addr then (overflow m).map fun m' => (true, m')
  else (rmfreeTry m.mp size addr).map fun (again, mp') => (again, { m with mp := mp' })

/-- The loop through `retry`. -/
def rmfreePasses (size addr : Nat) : Nat → Memory → Option Memory
  | 0, _ => none
  | fuel + 1, m =>
    match rmfreePass m size addr with
    | none => none
    | some (true, m') => rmfreePasses size addr fuel m'
    | some (false, m') => some m'

def rmfreeMemory (m : Memory) (size addr : Nat) : Option Memory :=
  if addr = 0 ∨ size = 0 ∨ 2 ^ 31 ≤ size then none else rmfreePasses size addr (m.mp.mSize + 1) m

def Clear (segs : List Seg) (size addr : Nat) : Prop :=
  ∀ b ∈ segs, b.addr + b.size < addr ∨ addr + size < b.addr

/-- The smaller of the last two segments has gone, or the only one. -/
def Discarded (segs kept : List Seg) : Prop :=
  (∃ l y b, segs = l ++ [y, b] ∧ kept = l ++ [if y.size < b.size then b else y]) ∨ ∃ b, segs = [b] ∧ kept = []

/-- `rmfree` gives up one segment, adds the range, and leaves a map in order and the header as it was. -/
def OverflowSafe (m : Memory) (size addr : Nat) : Prop :=
  ∃ m' kept segs', rmfreeMemory m size addr = some m' ∧ m'.head = m.head ∧ m'.mp.mSize = m.mp.mSize ∧
    Discarded m.mp.segments kept ∧ Laid m'.mp segs' ∧ segs'.Perm (⟨size, addr⟩ :: kept)

lemma span_clear (h : Laid mp segs) (hs : 0 < size) (ht : addr + size ≤ top) (hc : Clear segs size addr) :
    ∃ left right z zs, segs = left ++ right ∧ mp.mMap = left ++ right ++ z :: zs ∧ z.size = 0 ∧
      (∀ y ∈ zs, y.size = 0) ∧ zs.length = mp.mFree ∧ (∀ c ∈ left, c.addr + c.size < addr) ∧
      (∀ c ∈ right, addr + size < c.addr) ∧ ∃ bp rest, bp :: rest = right ++ z :: zs ∧
      mp.mMap.span (fun b => b.addr ≤ addr ∧ b.size ≠ 0) = (left, bp :: rest) ∧
      ¬(bp.addr ≤ wadd addr size ∧ bp.size ≠ 0) ∧
      ∀ p, left.getLast? = some p → wadd p.addr p.size < addr := by
  obtain ⟨z, zs, hmap, hz, hzs, hlen⟩ := h.zeros
  obtain ⟨left, right, rfl, hle, hgt⟩ := split_at h.formed.spaced addr
  have hleft : ∀ c ∈ left, c.addr + c.size < addr := by
    intro c hcl
    have := hle c hcl
    rcases hc c (mem_append_left _ hcl) with hlt | hlt <;> omega
  have hright : ∀ c ∈ right, addr + size < c.addr := by
    intro c hcr
    have := hgt c hcr
    rcases hc c (mem_append_right _ hcr) with hlt | hlt <;> omega
  refine ⟨left, right, z, zs, rfl, hmap, hz, hzs, hlen, hleft, hright, ?_⟩
  have hspan : ∀ {bp rest}, bp :: rest = right ++ z :: zs → (bp.size = 0 ∨ addr < bp.addr) →
      mp.mMap.span (fun b => b.addr ≤ addr ∧ b.size ≠ 0) = (left, bp :: rest) := by
    intro bp rest hbp hstop
    rw [hmap, append_assoc, ← hbp]
    apply span_split
    · intro c hcl
      have hpos := h.formed.pos c (mem_append_left _ hcl)
      have := hle c hcl
      simp only [decide_eq_true_eq]
      omega
    · simp only [decide_eq_false_iff_not, not_and]
      omega
  have hlast : ∀ p, left.getLast? = some p → wadd p.addr p.size < addr := by
    intro p hp
    have := hleft p (mem_of_getLast? hp)
    rw [wadd_eq (by omega)]
    exact this
  cases right with
  | nil => exact ⟨z, zs, rfl, hspan rfl (.inl hz), fun hno => hno.2 hz, hlast⟩
  | cons b right =>
    have hb := hright b mem_cons_self
    have hbelow := h.formed.below b (by simp)
    refine ⟨b, right ++ z :: zs, rfl, hspan rfl (.inr (by omega)), fun hno => ?_, hlast⟩
    rw [wadd_eq (by omega)] at hno
    omega

lemma overflows_clear (h : Laid mp segs) (hs : 0 < size) (ht : addr + size ≤ top) (hc : Clear segs size addr) :
    overflows mp size addr = decide (mp.mFree = 0) := by
  obtain ⟨left, right, z, zs, _, _, _, _, _, _, _, bp, rest, _, hspan, hbp, hlast⟩ := span_clear h hs ht hc
  unfold overflows
  rw [hspan]
  dsimp only
  have htouch : decide (bp.addr ≤ wadd addr size ∧ bp.size ≠ 0) = false := by simpa using hbp
  cases hl : left.getLast? with
  | none => simp [htouch]
  | some p => simp [htouch, hlast p hl]

lemma rmfreePass_room {m : Memory} (h : Laid m.mp segs) (hfree : m.mp.mFree ≠ 0) (hs : 0 < size) (ha : 0 < addr)
    (ht : addr + size ≤ top) (hc : Clear segs size addr) :
    ∃ m' segs', rmfreePass m size addr = some (false, m') ∧ m'.head = m.head ∧ m'.mp.mSize = m.mp.mSize ∧
      Laid m'.mp segs' ∧ segs'.Perm (⟨size, addr⟩ :: segs) := by
  have hover := overflows_clear h hs ht hc
  obtain ⟨left, right, z, zs, rfl, hmap, hz, hzs, hlen, hleft, hright, bp, rest, hrest, hspan, hbp, hlast⟩ :=
    span_clear h hs ht hc
  have hpass : rmfreeRight m.mp size addr left bp rest =
      some (false, { m.mp with mMap := left ++ ⟨size, addr⟩ :: (right ++ zs), mFree := m.mp.mFree - 1 }) := by
    unfold rmfreeRight
    rw [if_neg hbp, if_neg hfree, hrest, pushUp_spec (fun c hcr => h.formed.pos c (mem_append_right _ hcr)) hz]
    rfl
  have htry : rmfreeTry m.mp size addr = rmfreeRight m.mp size addr left bp rest := by
    unfold rmfreeTry
    rw [hspan]
    dsimp only
    cases hl : left.getLast? with
    | none => rfl
    | some p =>
      dsimp only
      rw [if_neg (Nat.not_le.mpr (hlast p hl))]
  have hslots := h.slots
  have hlength := h.length
  have hspaced := pairwise_append.mp h.formed.spaced
  unfold rmfreePass
  rw [hover, if_neg (by simpa using hfree), htry, hpass]
  refine ⟨_, left ++ ⟨size, addr⟩ :: right, rfl, rfl, rfl, ⟨⟨zs, by simp, hzs⟩, ?_, ?_, ?_⟩, perm_middle⟩
  · rw [hmap] at hlength
    simp only [length_append, length_cons] at hlength ⊢
    omega
  · simp only [length_append, length_cons] at hslots ⊢
    omega
  · have hcases : ∀ c ∈ left ++ ⟨size, addr⟩ :: right, c = ⟨size, addr⟩ ∨ c ∈ left ++ right := by
      intro c hcm
      simp only [mem_append, mem_cons] at hcm ⊢
      tauto
    refine ⟨?_, ?_, ?_, ?_⟩
    · intro c hcm
      rcases hcases c hcm with rfl | hcm
      · exact hs
      · exact h.formed.pos c hcm
    · intro c hcm
      rcases hcases c hcm with rfl | hcm
      · exact ha
      · exact h.formed.nonzero c hcm
    · intro c hcm
      rcases hcases c hcm with rfl | hcm
      · exact ht
      · exact h.formed.below c hcm
    · refine pairwise_append.mpr ⟨hspaced.1, pairwise_cons.mpr ⟨hright, hspaced.2.1⟩, ?_⟩
      intro c hcl d hd
      rcases mem_cons.mp hd with rfl | hd
      · exact hleft c hcl
      · exact hspaced.2.2 c hcl d hd

lemma rmfreePass_full {m : Memory} (h : Laid m.mp segs) (hfull : m.mp.mFree = 0) (hs : 0 < size)
    (ht : addr + size ≤ top) (hc : Clear segs size addr) :
    rmfreePass m size addr = (overflow m).map fun m' => (true, m') := by
  unfold rmfreePass
  rw [overflows_clear h hs ht hc, if_pos (by simpa using hfull)]

lemma overflow_inside {m : Memory} (h : Laid m.mp segs) (hfull : m.mp.mFree = 0) (hcap : 2 ≤ m.mp.mSize) :
    ∃ m' kept, overflow m = some m' ∧ m'.head = m.head ∧ m'.mp.mSize = m.mp.mSize ∧ m'.mp.mFree = 1 ∧
      Discarded segs kept ∧ Laid m'.mp kept ∧ kept ⊆ segs := by
  obtain ⟨l, y, b, hseg, entries, hres, hlaid⟩ := discard_laid h hfull hcap
  have hb : ∀ c ∈ segs, c.size ≠ 0 := fun c hcm => (h.formed.pos c hcm).ne'
  have hhead : discard (m.head :: m.mp.mMap) = (discard m.mp.mMap).map fun l => m.head :: l := by
    obtain ⟨z, zs, hmap, _⟩ := h.zeros
    rw [hmap]
    cases segs with
    | nil => simp at hseg
    | cons a segs =>
      cases segs with
      | nil =>
        have := congrArg List.length hseg
        simp at this
      | cons d segs =>
        rw [cons_append, cons_append, discard, if_neg (hb d (by simp))]
  refine ⟨⟨m.head, { m.mp with mMap := entries, mFree := 1 }⟩, l ++ [if y.size < b.size then b else y], ?_, rfl, rfl,
    rfl, .inl ⟨l, y, b, hseg, rfl⟩, hlaid, ?_⟩
  · unfold overflow
    rw [hhead, hres, hfull]
    rfl
  · intro c hcm
    rw [hseg]
    rcases mem_append.mp hcm with hcm | hcm
    · exact mem_append_left _ hcm
    · rw [mem_singleton] at hcm
      subst hcm
      split <;> simp

/-- With one segment the header takes part in the choice, and a smaller word there is overwritten. -/
theorem overflow_single {m : Memory} (h : Laid m.mp [b]) (hfull : m.mp.mFree = 0) :
    ∃ m', overflow m = some m' ∧ m'.mp.mSize = m.mp.mSize ∧ m'.mp.mFree = 1 ∧ Laid m'.mp [] ∧
      m'.head = if m.head.size < b.size then b else m.head := by
  obtain ⟨z, zs, hmap, hz, hzs, hlen⟩ := h.zeros
  obtain rfl : zs = [] := length_eq_zero_iff.mp (by omega)
  have hslots := h.slots
  simp only [length_cons, length_nil, hfull] at hslots
  have hover : overflow m = some (if m.head.size < b.size
      then ⟨b, { m.mp with mMap := [{ b with size := 0 }, z], mFree := 1 }⟩
      else ⟨m.head, { m.mp with mMap := [z, { z with size := 0 }], mFree := 1 }⟩) := by
    unfold overflow
    rw [hmap, cons_append, nil_append, discard, if_pos hz, hfull]
    by_cases hlt : m.head.size < b.size
    · rw [if_pos hlt, if_pos hlt]
    · rw [if_neg hlt, if_neg hlt]
  have hempty : Formed [] := ⟨by simp, by simp, by simp, List.Pairwise.nil⟩
  rw [hover]
  by_cases hlt : m.head.size < b.size
  · rw [if_pos hlt, if_pos hlt]
    refine ⟨_, rfl, rfl, rfl, ⟨⟨[{ b with size := 0 }, z], rfl, ?_⟩, ?_, ?_, hempty⟩, rfl⟩
    · intro y hy
      simp only [mem_cons, not_mem_nil, or_false] at hy
      rcases hy with rfl | rfl
      · rfl
      · exact hz
    · simp only [length_cons, length_nil]
      omega
    · simp only [length_nil]
      omega
  · rw [if_neg hlt, if_neg hlt]
    refine ⟨_, rfl, rfl, rfl, ⟨⟨[z, { z with size := 0 }], rfl, ?_⟩, ?_, ?_, hempty⟩, rfl⟩
    · intro y hy
      simp only [mem_cons, not_mem_nil, or_false] at hy
      rcases hy with rfl | rfl
      · exact hz
      · rfl
    · simp only [length_cons, length_nil]
      omega
    · simp only [length_nil]
      omega

lemma rmfreeMemory_overflow {m m1 : Memory} {kept : List Seg} (h : Laid m.mp segs) (hfull : m.mp.mFree = 0)
    (hcap : 1 ≤ m.mp.mSize) (hs : 0 < size) (hs' : size < 2 ^ 31) (ha : 0 < addr) (ht : addr + size ≤ top)
    (hc : Clear segs size addr) (hover : overflow m = some m1) (hsize : m1.mp.mSize = m.mp.mSize)
    (hfree : m1.mp.mFree = 1) (hlaid : Laid m1.mp kept) (hsub : kept ⊆ segs) :
    ∃ m' segs', rmfreeMemory m size addr = some m' ∧ m'.head = m1.head ∧ m'.mp.mSize = m.mp.mSize ∧
      Laid m'.mp segs' ∧ segs'.Perm (⟨size, addr⟩ :: kept) := by
  obtain ⟨m', segs', hpass, hhead, hsize', hlaid', hperm⟩ := rmfreePass_room hlaid (by omega) hs ha ht fun c hcm =>
    hc c (hsub hcm)
  refine ⟨m', segs', ?_, hhead, hsize'.trans hsize, hlaid', hperm⟩
  unfold rmfreeMemory
  obtain ⟨n, hn⟩ : ∃ n, m.mp.mSize = n + 1 := ⟨m.mp.mSize - 1, by omega⟩
  rw [if_neg (by omega), hn, rmfreePasses, rmfreePass_full h hfull hs ht hc, hover]
  dsimp only [map_some]
  rw [rmfreePasses, hpass]

/-- The overflow keeps to the array unless the only segment is larger than the word in front of it. -/
theorem rmfree_overflow_iff {m : Memory} (h : Laid m.mp m.mp.segments) (hcap : 1 ≤ m.mp.mSize)
    (hfull : m.mp.mFree = 0) (hs : 0 < size) (hs' : size < 2 ^ 31) (ha : 0 < addr) (ht : addr + size ≤ top)
    (hc : Clear m.mp.segments size addr) :
    OverflowSafe m size addr ↔ 2 ≤ m.mp.mSize ∨ ∀ b ∈ m.mp.segments, b.size ≤ m.head.size := by
  by_cases htwo : 2 ≤ m.mp.mSize
  · refine iff_of_true ?_ (.inl htwo)
    obtain ⟨m1, kept, hover, hhead, hsize, hfree, hdis, hlaid, hsub⟩ := overflow_inside h hfull htwo
    obtain ⟨m', segs', hres, hhead', hsize', hlaid', hperm⟩ :=
      rmfreeMemory_overflow h hfull hcap hs hs' ha ht hc hover hsize hfree hlaid hsub
    exact ⟨m', kept, segs', hres, hhead'.trans hhead, hsize', hdis, hlaid', hperm⟩
  have hslots := h.slots
  obtain ⟨b, hseg⟩ : ∃ b, m.mp.segments = [b] := length_eq_one_iff.mp (by omega)
  rw [hseg] at h hc
  obtain ⟨m1, hover, hsize, hfree, hlaid, hhead⟩ := overflow_single h hfull
  obtain ⟨m', segs', hres, hhead', hsize', hlaid', hperm⟩ :=
    rmfreeMemory_overflow h hfull hcap hs hs' ha ht hc hover hsize hfree hlaid (nil_subset _)
  rw [hhead] at hhead'
  constructor
  · rintro ⟨m'', _, _, hres', hkept, _⟩
    rw [hres] at hres'
    obtain rfl := some.inj hres'
    rw [hkept] at hhead'
    right
    intro c hcm
    rw [hseg, mem_singleton] at hcm
    subst hcm
    by_contra hlt
    rw [if_pos (by omega)] at hhead'
    rw [hhead'] at hlt
    exact hlt le_rfl
  · rintro (hcase | hle)
    · exact absurd hcase htwo
    · rw [if_neg (Nat.not_lt.mpr (hle b (by simp [hseg])))] at hhead'
      exact ⟨m', [], segs', hres, hhead', hsize', .inr ⟨b, hseg, rfl⟩, hlaid', hperm⟩

theorem rmfree_overflow_iff_sample : OverflowSafe ⟨⟨0, 0⟩, ⟨0, 2, [⟨5, 100⟩, ⟨9, 200⟩, ⟨0, 0⟩]⟩⟩ 10 300 ↔
    2 ≤ 2 ∨ ∀ b ∈ Map.segments ⟨0, 2, [⟨5, 100⟩, ⟨9, 200⟩, ⟨0, 0⟩]⟩, b.size ≤ 0 := by
  have hseg : Map.segments ⟨0, 2, [⟨5, 100⟩, ⟨9, 200⟩, ⟨0, 0⟩]⟩ = [⟨5, 100⟩, ⟨9, 200⟩] := by decide
  have hlaid : Laid ⟨0, 2, [⟨5, 100⟩, ⟨9, 200⟩, ⟨0, 0⟩]⟩ [⟨5, 100⟩, ⟨9, 200⟩] :=
    ⟨⟨[⟨0, 0⟩], rfl, by decide⟩, rfl, rfl, by decide, by decide, by decide, by decide⟩
  refine rmfree_overflow_iff (hseg ▸ hlaid) (by decide) rfl (by decide) (by decide) (by decide) (by decide) ?_
  unfold Clear
  decide

/-- A map of one slot: the words in front of the array, zero before, are overwritten with the segment given up. -/
theorem rmfree_overflow_header : ¬OverflowSafe ⟨⟨0, 0⟩, ⟨0, 1, [⟨5, 100⟩, ⟨0, 0⟩]⟩⟩ 10 300 := by
  rintro ⟨m', _, _, hres', hhead, _⟩
  obtain rfl := some.inj hres'
  exact absurd hhead (by decide)

end Solaris.Rmap
