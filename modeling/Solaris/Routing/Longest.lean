import Solaris.Routing.Marks

/-!
# The longest prefix

A lookup without a mask finds, among the routes of the forwarding table that match the address and meet its
conditions, one with the longest mask.
-/

namespace Solaris.Routing

open List Option

variable {t : Tables} {r : Ire} {s : Marked} {a : Addr} {c : Criteria}

structure Eligible (t : Tables) (a : Addr) (c : Criteria) (r : Ire) : Prop where
  route : t.Route r
  covers : Covers r a
  admitted : c.admits r = true
  mask : r.mask ≠ 0 ∨ c.zeroMask = true

def Act.Masked (s : Marked) : Act → Prop
  | .add new _ => Contiguous (newRoute s.tables new).mask
  | _ => True

lemma ipMaskIndex_zero : ipMaskIndex 0 = 0 := by decide

lemma Contiguous.index_pos_iff {m : Addr} (h : Contiguous m) : 0 < ipMaskIndex m ↔ m ≠ 0 := by
  refine ⟨?_, ?_⟩
  · rintro hpos rfl
    exact Nat.lt_irrefl 0 hpos
  · intro hne
    by_contra hpos
    have hzero : ipMaskIndex m = 0 := Nat.eq_zero_of_not_pos hpos
    have hm := h.msize_index
    rw [hzero] at hm
    exact hne (hm.symm.trans (by decide))

lemma searchable_of_reached (h : Reached (fun s a => a.Masked s) s) :
    ∀ i tab k r, s.tables.ftable i = some tab → r ∈ tab k → Searchable i k r := by
  intro i tab k r htab hr
  obtain ⟨hplaced, hmask⟩ := placed_of_reached (Q := fun r => Contiguous r.mask) (fun _ _ _ hp => hp) h i tab k r htab hr
  exact ⟨hmask, hplaced.index, hplaced.hash⟩

lemma covers_of_zero (h : r.mask = 0) (a : Addr) : Covers r a := by
  have hand : ∀ b : Addr, b &&& 0 = 0 := fun b => BitVec.and_zero
  rw [Covers, h, hand, hand]

lemma matchArgs_zero (h : r.mask = 0) : c.matchArgs r a 0 = true ↔ c.admits r = true := by
  have hcov := covers_of_zero h a
  rw [Covers, h] at hcov
  rw [Criteria.matchArgs, Bool.and_eq_true, beq_iff_eq, h]
  exact ⟨And.right, fun hadm => ⟨hcov.symm, hadm⟩⟩

section Zero

variable (hplace : ∀ i tab k r, t.ftable i = some tab → r ∈ tab k → Searchable i k r)

include hplace

/-- The chain that is searched when no other route is found holds exactly the routes with a zero mask. -/
theorem mem_zero_chain {chain : List Ire} (hchain : ftableChain t a 0 = some chain) :
    r ∈ chain ↔ t.Route r ∧ r.mask = 0 := by
  rw [ftableChain, ipMaskIndex_zero] at hchain
  obtain ⟨tab, htab, rfl⟩ := map_eq_some_iff.mp hchain
  have hand : ∀ b : Addr, b &&& 0 = 0 := fun b => BitVec.and_zero
  refine ⟨?_, ?_⟩
  · intro hr
    have hp := hplace 0 tab _ r htab hr
    refine ⟨⟨0, tab, _, htab, hr⟩, ?_⟩
    by_contra hne
    have hpos := hp.contiguous.index_pos_iff.mpr hne
    rw [hp.index] at hpos
    exact Nat.lt_irrefl 0 hpos
  · rintro ⟨⟨i, tab', k, htab', hr⟩, hzero⟩
    have hp := hplace i tab' k r htab' hr
    have hi : i = 0 := by rw [← hp.index, hzero, ipMaskIndex_zero]
    subst hi
    rw [htab] at htab'
    cases htab'
    have hk := hp.hash
    rw [hzero, hand] at hk
    rw [hand, hk]
    exact hr

lemma zero_chain_of_route (hr : t.Route r) (hzero : r.mask = 0) : ∃ chain, ftableChain t a 0 = some chain := by
  obtain ⟨i, tab, k, htab, hmem⟩ := hr
  have hi := (hplace i tab k r htab hmem).index
  rw [hzero, ipMaskIndex_zero] at hi
  subst hi
  refine ⟨tab (ineAddrHash (a &&& 0) ipHashTableSize), ?_⟩
  rw [ftableChain, ipMaskIndex_zero, htab]
  rfl

theorem lookup_spec (c : Criteria) (a : Addr) :
    (∀ r, c.lookup t a = some r →
      Eligible t a c r ∧ ∀ r', Eligible t a c r' → ipMaskIndex r'.mask ≤ ipMaskIndex r.mask) ∧
      (c.lookup t a = none → ∀ r, ¬Eligible t a c r) := by
  obtain ⟨hfound, hlong⟩ := search_spec hplace a c 32
  have hcontig : ∀ r, t.Route r → Contiguous r.mask := by
    rintro r ⟨i, tab, k, htab, hr⟩
    exact (hplace i tab k r htab hr).contiguous
  unfold Criteria.lookup
  cases hs : c.searchMasks t a 32 with
  | some r0 =>
    obtain ⟨hroute, hcov, hadm, hpos⟩ := hfound r0 hs
    refine ⟨?_, fun hnone => by cases hnone⟩
    rintro r hr
    cases hr
    refine ⟨⟨hroute, hcov, hadm, .inl ((hcontig _ hroute).index_pos_iff.mp hpos)⟩, ?_⟩
    intro r' hr'
    by_cases hpos' : 0 < ipMaskIndex r'.mask
    · obtain ⟨r1, hr1, hle⟩ := hlong r' hr'.route hr'.covers hr'.admitted hpos' (hcontig r' hr'.route).index_le
      rw [hs] at hr1
      cases hr1
      exact hle
    · omega
  | none =>
    -- what is eligible has a zero mask
    have hzero : ∀ r', Eligible t a c r' → r'.mask = 0 ∧ c.zeroMask = true := by
      intro r' hr'
      have hmask : r'.mask = 0 := by
        by_contra hne
        have hpos := (hcontig r' hr'.route).index_pos_iff.mpr hne
        obtain ⟨r1, hr1, -⟩ := hlong r' hr'.route hr'.covers hr'.admitted hpos (hcontig r' hr'.route).index_le
        rw [hs] at hr1
        cases hr1
      exact ⟨hmask, hr'.mask.resolve_left fun hne => hne hmask⟩
    refine ⟨?_, ?_⟩
    · intro r hr
      by_cases hz : c.zeroMask = true
      · rw [if_pos hz] at hr
        obtain ⟨chain, hchain, hfind⟩ := bind_eq_some_iff.mp hr
        obtain ⟨hroute, hmask⟩ := (mem_zero_chain hplace hchain).mp (mem_of_find?_eq_some hfind)
        have hmatch := find?_some hfind
        refine ⟨⟨hroute, covers_of_zero hmask a, (matchArgs_zero hmask).mp hmatch, .inr hz⟩, ?_⟩
        intro r' hr'
        rw [(hzero r' hr').1, ipMaskIndex_zero]
        exact Nat.zero_le _
      · rw [if_neg hz] at hr
        cases hr
    · intro hnone r hr
      obtain ⟨hmask, hz⟩ := hzero r hr
      obtain ⟨chain, hchain⟩ := zero_chain_of_route hplace hr.route hmask
      rw [if_pos hz, hchain, bind_some, find?_eq_none] at hnone
      have hmem := (mem_zero_chain hplace hchain).mpr ⟨hr.route, hmask⟩
      exact hnone r hmem ((matchArgs_zero hmask).mpr hr.admitted)

end Zero

/-- In every table that contiguous masks lead to, a lookup finds the route with the longest mask among those
that are eligible, and nothing exactly when there is none. -/
theorem lookup_longest (h : Reached (fun s a => a.Masked s) s) (c : Criteria) (a : Addr) :
    (∀ r, c.lookup s.tables a = some r →
      Eligible s.tables a c r ∧ ∀ r', Eligible s.tables a c r' → ipMaskIndex r'.mask ≤ ipMaskIndex r.mask) ∧
      (c.lookup s.tables a = none ↔ ∀ r, ¬Eligible s.tables a c r) := by
  obtain ⟨hsome, hnone⟩ := lookup_spec (searchable_of_reached h) c a
  refine ⟨hsome, hnone, ?_⟩
  intro hall
  cases hl : c.lookup s.tables a with
  | none => rfl
  | some r => exact absurd (hsome r hl).1 (hall r)

def netRoute : NewIre := viaGateway .prefixRoute 0xc0a80000 0xffff0000 0x0a000001

def twoRoutes : Marked :=
  let s := (Act.add netRoute ⟨true, true⟩).apply Marked.initial
  (Act.add (viaGateway .defaultRoute 0 0 0x0a000002) ⟨true, true⟩).apply s

theorem lookup_longest_twoRoutes :
    Reached (fun s a => a.Masked s) twoRoutes ∧
      Criteria.dstOnly.lookup twoRoutes.tables 0xc0a80102 = some (newRoute initial netRoute) ∧
      (∀ r, Eligible twoRoutes.tables 0xc0a80102 .dstOnly r → ipMaskIndex r.mask ≤ 16) ∧
      ∀ r, ¬Eligible twoRoutes.tables 0x0a010101 .dstOnly r := by
  have hreach : Reached (fun s a => a.Masked s) twoRoutes := by
    refine .act (.add (viaGateway .defaultRoute 0 0 0x0a000002) ⟨true, true⟩) ?_ trivial ⟨0, by decide, by decide⟩
    exact .act (.add netRoute ⟨true, true⟩) .initial trivial ⟨16, by decide, by decide⟩
  have hfound : Criteria.dstOnly.lookup twoRoutes.tables 0xc0a80102 = some (newRoute initial netRoute) := by
    decide +kernel
  have hnone : Criteria.dstOnly.lookup twoRoutes.tables 0x0a010101 = none := by decide +kernel
  refine ⟨hreach, hfound, ?_, (lookup_longest hreach .dstOnly 0x0a010101).2.mp hnone⟩
  intro r hr
  exact ((lookup_longest hreach .dstOnly 0xc0a80102).1 _ hfound).2 r hr

end Solaris.Routing
