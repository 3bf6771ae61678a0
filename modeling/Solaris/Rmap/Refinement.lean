import Solaris.Rmap.Free

/-!
# A resource map is a set of free addresses

Runs of a map from `mapinit` on. In every state the segments describe a set of free addresses; an
allocation takes a range out of the set, a free puts one in, and the ranges that are handed out
never overlap.
-/

namespace Solaris.Rmap

open List Option

def Map.segments (mp : Map) : List Seg := mp.mMap.takeWhile fun b => b.size ≠ 0

def Map.free (mp : Map) : Set Nat := freeSet mp.segments

lemma segments_of_entries {mp : Map} {segs zs : List Seg} {z : Seg} (he : mp.mMap = segs ++ z :: zs)
    (hp : ∀ b ∈ segs, 0 < b.size) (hz : z.size = 0) : mp.segments = segs := by
  unfold Map.segments
  rw [he, takeWhile_append_of_pos, takeWhile_cons_of_neg (by simp [hz]), append_nil]
  intro b hb
  have := hp b hb
  simp only [decide_eq_true_eq]
  omega

lemma Laid.segments_eq {mp : Map} {segs : List Seg} (h : Laid mp segs) : mp.segments = segs := by
  obtain ⟨z, zs, he, hz, _, _⟩ := h.zeros
  exact segments_of_entries he h.formed.pos hz

lemma Layout.segments_eq {mp : Map} {segs : List Seg} (h : Layout mp segs) : mp.segments = segs :=
  h.laid.segments_eq

/-- The map, and the ranges (address and size) handed out of which nothing has been freed yet. -/
structure State where
  mp : Map
  owned : List (Nat × Nat)

def span (r : Nat × Nat) : Set Nat := Set.Ico r.1 (r.1 + r.2)

inductive Event
  | rmalloc (size : Nat)
  | rmget (size addr : Nat)
  | rmfree (size addr : Nat)

def State.hand (s : State) (size : Nat) (r : Nat × Map) : State :=
  { mp := r.2, owned := if r.1 = 0 then s.owned else (r.1, size) :: s.owned }

def apartRanges (r q : Nat × Nat) : Bool := r.1 + r.2 ≤ q.1 ∨ q.1 + q.2 ≤ r.1

/-- One call; `none` is a panic or an access outside of the array. -/
def State.exec (s : State) : Event → Option State
  | .rmalloc size => (rmallocLocked s.mp size).map (s.hand size)
  | .rmget size addr => (rmget s.mp size addr).map (s.hand size)
  | .rmfree size addr => (rmfree s.mp size addr).map fun mp =>
      { mp, owned := s.owned.filter (apartRanges (addr, size)) }

/-- The calls that keep to the protocol: sizes are positive, no range reaches the top of the
address space, and a freed range is not zero and does not overlap what is free. -/
def Legal (s : State) : Event → Prop
  | .rmalloc size => 0 < size
  | .rmget size addr => 0 < size ∧ size < 2 ^ 31 ∧ addr + size < top
  | .rmfree size addr => 0 < size ∧ size < 2 ^ 31 ∧ 0 < addr ∧ addr + size < top ∧
      Disjoint (span (addr, size)) s.mp.free

inductive Reachable (cap size addr : Nat) : State → Prop
  | init : Reachable cap size addr ⟨mapinit cap size addr, []⟩
  | step {s s' : State} {e : Event} : Reachable cap size addr s → Legal s e → s.exec e = some s' →
      Reachable cap size addr s'

structure Consistent (cap : Nat) (s : State) : Prop where
  layout : Layout s.mp s.mp.segments
  slots : s.mp.mSize = cap
  apart : s.owned.Pairwise fun r q => Disjoint (span r) (span q)
  taken : ∀ r ∈ s.owned, Disjoint (span r) s.mp.free

section Exact

variable {mp : Map} {size addr : Nat}

/-- `rmalloc_locked` answers with the start of the first segment that is large enough and removes
exactly the range; it answers zero, and changes nothing, when there is none. -/
def AllocExact (mp : Map) (size : Nat) : Prop :=
  ((∀ b ∈ mp.segments, b.size < size) ∧ rmallocLocked mp size = some (0, mp)) ∨
    ∃ l b r mp', mp.segments = l ++ b :: r ∧ (∀ c ∈ l, c.size < size) ∧ size ≤ b.size ∧ b.addr ≠ 0 ∧
      rmallocLocked mp size = some (b.addr, mp') ∧ mp'.free = mp.free \ span (b.addr, size)

/-- `rmget` removes exactly the range asked for when it is free and a slot is there for a split. -/
def GetExact (mp : Map) (size addr : Nat) : Prop :=
  ((¬span (addr, size) ⊆ mp.free ∨ mp.mFree = 0) ∧ rmget mp size addr = some (0, mp)) ∨
    ∃ mp', addr ≠ 0 ∧ span (addr, size) ⊆ mp.free ∧ rmget mp size addr = some (addr, mp') ∧
      mp'.free = mp.free \ span (addr, size)

/-- `rmfree` adds exactly the range; in a full map, and when the range touches no segment, exactly
one segment is discarded first. -/
def FreeExact (mp : Map) (size addr : Nat) : Prop :=
  ∃ mp', rmfree mp size addr = some mp' ∧
    ((¬(mp.mFree = 0 ∧ Apart mp.segments addr size) ∧ mp'.free = mp.free ∪ span (addr, size)) ∨
      (mp.mFree = 0 ∧ Apart mp.segments addr size ∧ ∃ l lost r, mp.segments = l ++ lost :: r ∧
        mp'.free = freeSet (l ++ r) ∪ span (addr, size)))

def Kept (mp mp' : Map) : Prop := Layout mp' mp'.segments ∧ mp'.mSize = mp.mSize

lemma Kept.of_layout {mp' : Map} {segs' : List Seg} (h : Layout mp' segs')
    (hm : mp'.mSize = mp.mSize) : Kept mp mp' := by
  refine ⟨?_, hm⟩
  rw [h.segments_eq]
  exact h

lemma free_eq {segs : List Seg} (h : Layout mp segs) : mp.free = freeSet segs := by
  unfold Map.free
  rw [h.segments_eq]

section

variable (h : Layout mp mp.segments)

include h

lemma rmallocLocked_exact (hs : 0 < size) : AllocExact mp size := by
  rcases first_fit mp.segments size with hall | ⟨l, b, r, hseg, hl, hb⟩
  · exact .inl ⟨hall, rmallocLocked_none h hall⟩
  right
  have hmem : b ∈ mp.segments := by
    rw [hseg]
    simp
  have hg := h.good
  have h' := h
  rw [hseg] at hg h'
  obtain ⟨mp', hres, -, hlay⟩ := rmallocLocked_some h' hl hs hb
  refine ⟨l, b, r, mp', hseg, hl, hb, (h.good.nonzero b hmem).ne', hres, ?_⟩
  rw [free_eq hlay, freeSet_cut hg.spaced le_rfl (by omega), ← hseg]
  rfl

lemma rmallocLocked_kept (hs : 0 < size) {a : Nat} {mp' : Map}
    (hres : rmallocLocked mp size = some (a, mp')) : Kept mp mp' := by
  rcases first_fit mp.segments size with hall | ⟨l, b, r, hseg, hl, hb⟩
  · rw [rmallocLocked_none h hall] at hres
    cases hres
    exact ⟨h, rfl⟩
  · rw [hseg] at h
    obtain ⟨mp1, hres1, hm1, hlay⟩ := rmallocLocked_some h hl hs hb
    rw [hres1] at hres
    cases hres
    exact Kept.of_layout hlay hm1

theorem rmget_cases (hs : 0 < size) (hs' : size < 2 ^ 31)
    (ht : addr + size < top) :
    ((¬span (addr, size) ⊆ mp.free ∨ mp.mFree = 0) ∧ rmget mp size addr = some (0, mp)) ∨
      ∃ mp', Kept mp mp' ∧ addr ≠ 0 ∧ span (addr, size) ⊆ mp.free ∧ rmget mp size addr = some (addr, mp') ∧
        mp'.free = mp.free \ span (addr, size) := by
  have hstart : addr ∈ span (addr, size) := Set.mem_Ico.mpr ⟨le_rfl, by dsimp only; omega⟩
  rcases holds_or_not h.good addr with habs | ⟨l, b, r, hseg, hle, hlt⟩
  · exact .inl ⟨.inl fun hsub => habs (hsub hstart), rmget_absent h hs hs' habs⟩
  have hg := h.good
  have h' := h
  rw [hseg] at hg h'
  have hfree : mp.free = freeSet (l ++ b :: r) := by
    unfold Map.free
    rw [hseg]
  have hmem : b ∈ l ++ b :: r := by simp
  by_cases hend : addr + size ≤ b.addr + b.size
  · have hsub : span (addr, size) ⊆ mp.free := by
      intro x hx
      obtain ⟨hx1, hx2⟩ := Set.mem_Ico.mp hx
      rw [hfree]
      exact ⟨b, hmem, by omega, by omega⟩
    by_cases hfull : b.addr < addr ∧ addr + size < b.addr + b.size ∧ mp.mFree = 0
    · exact .inl ⟨.inr hfull.2.2, rmget_refused h' hs hs' ht hle hlt (.inr hfull)⟩
    right
    obtain ⟨mp', hres, hm, hlay⟩ := rmget_taken h' hs hs' hle hend
      (fun h1 h2 h3 => hfull ⟨h1, h2, h3⟩)
    have hpos := h'.good.nonzero b hmem
    refine ⟨mp', Kept.of_layout hlay hm, by omega, hsub, hres, ?_⟩
    rw [free_eq hlay, freeSet_cut hg.spaced hle hend, ← hfree]
    rfl
  · left
    refine ⟨.inl ?_, rmget_refused h' hs hs' ht hle hlt (.inl (by omega))⟩
    -- the address behind the segment is not free
    intro hsub
    have hx : b.addr + b.size ∈ span (addr, size) :=
      Set.mem_Ico.mpr ⟨by dsimp only; omega, by dsimp only; omega⟩
    have hfr := hsub hx
    rw [hfree, mem_freeSet_append, mem_freeSet_cons] at hfr
    rcases hfr with hl | hb | hr
    · have := lt_of_mem_left hg.spaced hl
      omega
    · omega
    · have := lt_of_mem_right hg.spaced hr
      omega

lemma rmget_exact (hs : 0 < size) (hs' : size < 2 ^ 31)
    (ht : addr + size < top) : GetExact mp size addr := by
  rcases rmget_cases h hs hs' ht with hno | ⟨mp', -, ha, hsub, hres, hfree⟩
  · exact .inl hno
  · exact .inr ⟨mp', ha, hsub, hres, hfree⟩

section

variable (hcap : 2 ≤ mp.mSize) (hs : 0 < size) (hs' : size < 2 ^ 31) (ha : 0 < addr) (ht : addr + size < top)
  (hd : Disjoint (span (addr, size)) mp.free)

include hcap hs hs' ha ht hd

lemma rmfree_exact : FreeExact mp size addr := by
  obtain ⟨mp', hres, hcases⟩ := rmfree_spec h hcap hs hs' ha ht hd
  refine ⟨mp', hres, ?_⟩
  rcases hcases with ⟨hnot, -, segs', hlay, hset⟩ | ⟨hfull, hap, l, lost, r, hseg, -, segs', hlay, hset⟩
  · left
    refine ⟨hnot, ?_⟩
    rw [free_eq hlay, hset]
    rfl
  · right
    refine ⟨hfull, hap, l, lost, r, hseg, ?_⟩
    rw [free_eq hlay, hset]
    rfl

lemma rmfree_kept {mp' : Map} (hr : rmfree mp size addr = some mp') :
    Kept mp mp' := by
  obtain ⟨mp1, hres, hcases⟩ := rmfree_spec h hcap hs hs' ha ht hd
  rw [hres] at hr
  cases hr
  rcases hcases with ⟨-, hm, segs', hlay, -⟩ | ⟨-, -, l, lost, r, -, hm, segs', hlay, -⟩
  · exact Kept.of_layout hlay hm
  · exact Kept.of_layout hlay hm

end

end

end Exact

section Run

variable {cap size addr : Nat} {s s' : State}

lemma Consistent.hand (h : Consistent cap s) {mp' : Map} {r : Nat × Nat} (hk : Kept s.mp mp')
    (hsub : span r ⊆ s.mp.free) (hfree : mp'.free = s.mp.free \ span r) :
    Consistent cap ⟨mp', r :: s.owned⟩ := by
  refine ⟨hk.1, hk.2.trans h.slots, ?_, ?_⟩
  · rw [pairwise_cons]
    refine ⟨?_, h.apart⟩
    intro q hq
    exact ((h.taken q hq).mono_right hsub).symm
  · intro q hq
    rw [hfree]
    rcases mem_cons.mp hq with rfl | hq
    · exact Set.disjoint_sdiff_right
    · exact (h.taken q hq).mono_right Set.sdiff_subset

lemma Consistent.exec_rmalloc (h : Consistent cap s) (hs : 0 < size) {r : Nat × Map}
    (hr : rmallocLocked s.mp size = some r) : Consistent cap (s.hand size r) := by
  have hk := rmallocLocked_kept h.layout hs hr
  unfold State.hand
  rcases rmallocLocked_exact h.layout hs with ⟨-, hres⟩ | ⟨l, b, r, mp1, hseg, -, hb, ha, hres, hfree⟩
  · rw [hr] at hres
    cases hres
    exact h
  rw [hr] at hres
  cases hres
  rw [if_neg ha]
  apply h.hand hk _ hfree
  intro x hx
  obtain ⟨hx1, hx2⟩ := Set.mem_Ico.mp hx
  unfold Map.free
  rw [hseg]
  exact ⟨b, by simp, hx1, by omega⟩

lemma Consistent.exec_rmget (h : Consistent cap s) (hs : 0 < size) (hs' : size < 2 ^ 31)
    (ht : addr + size < top) {r : Nat × Map} (hr : rmget s.mp size addr = some r) :
    Consistent cap (s.hand size r) := by
  unfold State.hand
  rcases rmget_cases h.layout hs hs' ht with ⟨-, hres⟩ | ⟨mp1, hk, ha, hsub, hres, hfree⟩
  · rw [hr] at hres
    cases hres
    exact h
  · rw [hr] at hres
    cases hres
    rw [if_neg ha]
    exact h.hand hk hsub hfree

lemma disjoint_of_apartRanges {r q : Nat × Nat} (h : apartRanges r q = true) :
    Disjoint (span q) (span r) := by
  unfold apartRanges at h
  rw [decide_eq_true_eq] at h
  rw [Set.disjoint_left]
  intro x hq hr
  obtain ⟨h1, h2⟩ := Set.mem_Ico.mp hq
  obtain ⟨h3, h4⟩ := Set.mem_Ico.mp hr
  omega

lemma Consistent.exec_rmfree (h : Consistent cap s) (hcap : 2 ≤ cap)
    (hleg : Legal s (.rmfree size addr)) {mp' : Map} (hr : rmfree s.mp size addr = some mp') :
    Consistent cap ⟨mp', s.owned.filter (apartRanges (addr, size))⟩ := by
  obtain ⟨hs, hs', ha, ht, hd⟩ := hleg
  have hcap' : 2 ≤ s.mp.mSize := by
    rw [h.slots]
    exact hcap
  have hk := rmfree_kept h.layout hcap' hs hs' ha ht hd hr
  refine ⟨hk.1, hk.2.trans h.slots, h.apart.filter _, ?_⟩
  intro q hq
  obtain ⟨hq, hap⟩ := mem_filter.mp hq
  have hsub : mp'.free ⊆ s.mp.free ∪ span (addr, size) := by
    obtain ⟨mp1, hres, hcases⟩ := rmfree_exact h.layout hcap' hs hs' ha ht hd
    rw [hr] at hres
    cases hres
    rcases hcases with ⟨-, hfree⟩ | ⟨-, -, l, lost, r, hseg, hfree⟩
    · exact hfree.le
    rw [hfree]
    apply Set.union_subset_union_left
    intro x hx
    unfold Map.free
    rw [hseg, mem_freeSet_append, mem_freeSet_cons]
    rcases mem_freeSet_append.mp hx with hx | hx
    · exact .inl hx
    · exact .inr (.inr hx)
  apply Disjoint.mono_right hsub
  rw [Set.disjoint_union_right]
  exact ⟨h.taken q hq, disjoint_of_apartRanges hap⟩

lemma Consistent.exec (h : Consistent cap s) (hcap : 2 ≤ cap) {e : Event} (hleg : Legal s e)
    (he : s.exec e = some s') : Consistent cap s' := by
  cases e with
  | rmalloc size =>
    obtain ⟨r, hr, rfl⟩ := map_eq_some_iff.mp he
    exact h.exec_rmalloc hleg hr
  | rmget size addr =>
    obtain ⟨r, hr, rfl⟩ := map_eq_some_iff.mp he
    obtain ⟨hs, hs', ht⟩ := hleg
    exact h.exec_rmget hs hs' ht hr
  | rmfree size addr =>
    obtain ⟨mp', hr, rfl⟩ := map_eq_some_iff.mp he
    exact h.exec_rmfree hcap hleg hr

lemma Reachable.consistent (hcap : 2 ≤ cap) (hseed : size ≠ 0 → 0 < addr ∧ addr + size < top)
    (h : Reachable cap size addr s) : Consistent cap s := by
  induction h with
  | init =>
    have hlay := mapinit_layout cap (by omega) hseed
    refine ⟨?_, rfl, List.Pairwise.nil, by simp⟩
    rw [hlay.segments_eq]
    exact hlay
  | step _ hleg he ih => exact ih.exec hcap hleg he

/-- In every state of every run the map stands for a set of free addresses: its segments are in
order and apart, no slot is miscounted, every operation is exact and none panics, and the ranges
handed out and not yet freed overlap neither one another nor what is free. -/
theorem resource_map_refines (hcap : 2 ≤ cap) (hseed : size ≠ 0 → 0 < addr ∧ addr + size < top)
    (h : Reachable cap size addr s) :
    Good s.mp.segments ∧ s.mp.segments.length + s.mp.mFree = s.mp.mSize ∧
    (∀ n, 0 < n → AllocExact s.mp n) ∧
    (∀ n a, Legal s (.rmget n a) → GetExact s.mp n a) ∧
    (∀ n a, Legal s (.rmfree n a) → FreeExact s.mp n a) ∧
    s.owned.Pairwise (fun r q => Disjoint (span r) (span q)) ∧
    ∀ r ∈ s.owned, Disjoint (span r) s.mp.free := by
  have hc := h.consistent hcap hseed
  refine ⟨hc.layout.good, hc.layout.slots, ?_, ?_, ?_, hc.apart, hc.taken⟩
  · intro n hn
    exact rmallocLocked_exact hc.layout hn
  · rintro n a ⟨hn, hn', ht⟩
    exact rmget_exact hc.layout hn hn' ht
  · rintro n a ⟨hn, hn', ha, ht, hd⟩
    exact rmfree_exact hc.layout (by rw [hc.slots]; exact hcap) hn hn' ha ht hd

/-- A map of two slots with the addresses 1 to 100 free, of which two ranges have been taken. -/
def twoTaken : State :=
  ⟨⟨0, 2, [⟨5, 1⟩, ⟨85, 16⟩, ⟨0, 0⟩]⟩, [(6, 10)]⟩

lemma twoTaken_reachable : Reachable 2 100 1 twoTaken := by
  have h0 : Reachable 2 100 1 ⟨mapinit 2 100 1, []⟩ := .init
  exact h0.step (e := .rmget 10 6) ⟨by decide, by decide, by decide⟩ (by rfl)

theorem resource_map_refines_twoTaken : twoTaken.mp.segments.length + twoTaken.mp.mFree = twoTaken.mp.mSize :=
  (resource_map_refines (by decide) (by decide) twoTaken_reachable).2.1

end Run

end Solaris.Rmap
