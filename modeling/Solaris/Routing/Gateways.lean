import Solaris.Routing.Marks
import Solaris.Lib.Buckets

/-!
# The number of default gateways

`ip_def_gateway_count` counts the entries of type `IRE_DEFAULT`: every act keeps the count exact but an
`ire_add` that counts a default route and then does not link it, because there is one like it already or
the table of its mask cannot be allocated.
-/

namespace Solaris.Routing

open Lib List Nat

variable {t t' : Tables} {ire r c : Ire} {s : Marked} {a : Addr}

section Chains

def IsDefault (ire : Ire) : Bool := ire.type = .defaultRoute

def Tables.rowOf (t : Tables) (i : Nat) : List Ire := (List.range ipHashTableSize).flatMap fun h => t.chain i h

lemma routes_eq (t : Tables) : t.routes = (List.range 33).flatMap t.rowOf := rfl

lemma gateways_eq (t : Tables) : t.gateways = t.routes.countP IsDefault := rfl

lemma ipMaskIndex_le (m : Addr) : ipMaskIndex m ≤ 32 := by
  unfold ipMaskIndex
  split
  · exact sub_le _ _
  · exact zero_le _

lemma ineAddrHash_lt (a : Addr) : ineAddrHash a ipHashTableSize < ipHashTableSize := Nat.mod_lt _ (by decide)

lemma mem_chain {i h : Nat} : r ∈ t.chain i h ↔ ∃ tab, t.ftable i = some tab ∧ r ∈ tab h := by
  cases htab : t.ftable i with
  | none => simp [Tables.chain, htab]
  | some tab => simp [Tables.chain, htab]

lemma mem_routes_iff : r ∈ t.routes ↔ ∃ i < 33, ∃ h < ipHashTableSize, r ∈ t.chain i h := by
  simp only [routes_eq, Tables.rowOf, mem_flatMap, mem_range]

lemma routes_congr (h : t'.ftable = t.ftable) : t'.routes = t.routes := by
  unfold Tables.routes
  rw [h]

end Chains

section Effects

lemma chain_unlink (t : Tables) (ire : Ire) (i h : Nat) :
    (unlink t ire).chain i h = (t.chain i h).filter (· ≠ ire) := by
  cases htab : t.ftable i with
  | none => simp [Tables.chain, unlink, htab]
  | some tab => simp [Tables.chain, unlink, htab]

lemma routes_unlink (t : Tables) (ire : Ire) : (unlink t ire).routes = t.routes.filter (· ≠ ire) := by
  rw [routes_eq, routes_eq, filter_flatMap]
  congr 1
  funext i
  unfold Tables.rowOf
  rw [filter_flatMap]
  congr 1
  funext h
  exact chain_unlink t ire i h

lemma chain_redirects (s : Marked) (gateway : Addr) (i h : Nat) :
    ∃ q : Ire → Bool, (∀ ire, IsDefault ire = true → q ire = true) ∧
      (s.ireDeleteHostRedirects gateway).tables.chain i h = (s.tables.chain i h).filter q := by
  by_cases hi : i = 32
  · subst hi
    refine ⟨fun ire => !(ire.type = .hostRedirect ∧ ire.gateway = gateway ∧ s.guarded ire = false), ?_, ?_⟩
    · intro ire hdef
      have htype : ire.type = .defaultRoute := of_decide_eq_true hdef
      simp [htype]
    · cases htab : s.tables.ftable 32 with
      | none => simp [Tables.chain, Marked.ireDeleteHostRedirects, htab]
      | some tab => simp [Tables.chain, Marked.ireDeleteHostRedirects, htab]
  · refine ⟨fun _ => true, fun _ _ => rfl, ?_⟩
    simp [Tables.chain, Marked.ireDeleteHostRedirects, hi]

lemma redirects_sublist (s : Marked) (gateway : Addr) :
    (s.ireDeleteHostRedirects gateway).tables.routes.Sublist s.tables.routes := by
  rw [routes_eq, routes_eq]
  refine List.Sublist.flatMap_right _ fun i _ => List.Sublist.flatMap_right _ fun h _ => ?_
  obtain ⟨q, -, hq⟩ := chain_redirects s gateway i h
  rw [hq]
  exact filter_sublist

lemma gateways_redirects (s : Marked) (gateway : Addr) :
    (s.ireDeleteHostRedirects gateway).tables.gateways = s.tables.gateways := by
  rw [gateways_eq, gateways_eq, routes_eq, routes_eq]
  refine countP_flatMap_congr fun i _ => countP_flatMap_congr fun h _ => ?_
  obtain ⟨q, hdef, hq⟩ := chain_redirects s gateway i h
  rw [hq, countP_filter]
  refine countP_congr fun ire _ => ?_
  rw [Bool.and_eq_true]
  exact ⟨And.left, fun hd => ⟨hd, hdef ire hd⟩⟩

lemma chain_insertIre_self (hf : ire.type.cachetable = false) :
    ((insertIre t ire).chain (ipMaskIndex ire.mask) (ineAddrHash (ire.addr &&& ire.mask) ipHashTableSize)) =
      chainInsert ire (t.chain (ipMaskIndex ire.mask) (ineAddrHash (ire.addr &&& ire.mask) ipHashTableSize)) := by
  rw [insertIre, if_neg (by simp [hf])]
  cases htab : t.ftable (ipMaskIndex ire.mask) with
  | none => simp [Tables.chain, htab]
  | some tab => simp [Tables.chain, htab]

lemma chain_insertIre_of_ne (hf : ire.type.cachetable = false) {i h : Nat}
    (hne : i = ipMaskIndex ire.mask → h ≠ ineAddrHash (ire.addr &&& ire.mask) ipHashTableSize) :
    (insertIre t ire).chain i h = t.chain i h := by
  rw [insertIre, if_neg (by simp [hf])]
  by_cases hi : i = ipMaskIndex ire.mask
  · subst hi
    have hh := hne rfl
    cases htab : t.ftable (ipMaskIndex ire.mask) with
    | none => simp [Tables.chain, htab, hh]
    | some tab => simp [Tables.chain, htab, hh]
  · simp [Tables.chain, hi]

lemma chainInsert_perm (ire : Ire) (l : List Ire) : (chainInsert ire l).Perm (ire :: l) := by
  unfold chainInsert
  split
  · have happ := takeWhile_append_dropWhile (p := fun old : Ire => decide (old.addr ≠ ire.addr)) (l := l)
    nth_rewrite 3 [← happ]
    exact perm_middle
  · exact List.Perm.refl _

lemma routes_insertIre (t : Tables) (hf : ire.type.cachetable = false) :
    (insertIre t ire).routes.Perm (ire :: t.routes) := by
  rw [routes_eq, routes_eq]
  refine flatMap_insert (i := ipMaskIndex ire.mask) nodup_range ?_ ?_ ?_
  · rw [mem_range]
    exact lt_succ_of_le (ipMaskIndex_le _)
  · refine flatMap_insert (i := ineAddrHash (ire.addr &&& ire.mask) ipHashTableSize) nodup_range ?_ ?_ ?_
    · rw [mem_range]
      exact ineAddrHash_lt _
    · rw [chain_insertIre_self hf]
      exact chainInsert_perm ire _
    · intro h _ hne
      exact chain_insertIre_of_ne hf fun _ => hne
  · intro i _ hne
    unfold Tables.rowOf
    refine flatMap_congr fun h _ => ?_
    exact chain_insertIre_of_ne hf fun hi => absurd hi hne

end Effects

section Exact

/-- Every entry is there once, and the count of the gateways is their number. -/
structure Exact (t : Tables) : Prop where
  nodup : t.routes.Nodup
  fresh : ∀ r ∈ t.routes, r.id < t.nextId
  cached : ∀ h, ∀ c ∈ t.ctable h, c.type.cachetable = true
  count : t.defGatewayCount = t.gateways

lemma exact_initial : Exact initial := by
  refine ⟨?_, ?_, ?_, ?_⟩
  · decide +kernel
  · decide +kernel
  · intro h c hc
    cases hc
  · decide +kernel

lemma not_default_of_cached (h : r.type.cachetable = true) : IsDefault r = false := by
  cases htype : r.type with
  | defaultRoute =>
    rw [htype] at h
    cases h
  | _ => simp [IsDefault, htype]

lemma Exact.takeOff (h : Exact t) (hlinked : t.Linked ire) : Exact (takeOff t ire true) := by
  have hroutes : (Routing.takeOff t ire true).routes = t.routes.filter (· ≠ ire) := routes_unlink t ire
  have hcount : (Routing.takeOff t ire true).gateways = if IsDefault ire then t.gateways - 1 else t.gateways := by
    have herase : t.routes.filter (· ≠ ire) = t.routes.erase ire := by
      rw [h.nodup.erase_eq_filter]
      refine filter_congr fun r _ => ?_
      simp [bne, Bool.beq_eq_decide_eq]
    rw [gateways_eq, gateways_eq, hroutes, herase, countP_erase]
    by_cases hdef : IsDefault ire = true
    · have hmem : ire ∈ t.routes := by
        rcases hlinked with hmem | ⟨k, hmem⟩
        · exact hmem
        · rw [not_default_of_cached (h.cached k ire hmem)] at hdef
          cases hdef
      rw [if_pos hdef, if_pos ⟨hmem, hdef⟩]
    · rw [if_neg hdef, if_neg fun hand => hdef hand.2, Nat.sub_zero]
  refine ⟨?_, ?_, ?_, ?_⟩
  · rw [hroutes]
    exact h.nodup.filter _
  · intro r hr
    rw [hroutes] at hr
    exact h.fresh r (mem_of_mem_filter hr)
  · intro k c hc
    exact h.cached k c (mem_of_mem_filter hc)
  · rw [hcount]
    unfold IsDefault
    by_cases hdef : ire.type = .defaultRoute
    · simp [Routing.takeOff, hdef, h.count]
    · simp [Routing.takeOff, hdef, h.count]

lemma Exact.redirects (h : Exact s.tables) (gateway : Addr) : Exact (s.ireDeleteHostRedirects gateway).tables := by
  have hsub := redirects_sublist s gateway
  refine ⟨hsub.nodup h.nodup, ?_, h.cached, ?_⟩
  · intro r hr
    exact h.fresh r (hsub.subset hr)
  · rw [gateways_redirects]
    exact h.count

lemma Exact.congr (h : Exact t) (hf : t'.ftable = t.ftable) (hc : t'.ctable = t.ctable) (hid : t.nextId ≤ t'.nextId)
    (hcount : t'.defGatewayCount = t.defGatewayCount) : Exact t' := by
  have hroutes := routes_congr hf
  refine ⟨hroutes ▸ h.nodup, ?_, hc ▸ h.cached, ?_⟩
  · intro r hr
    rw [hroutes] at hr
    exact lt_of_lt_of_le (h.fresh r hr) hid
  · rw [hcount, h.count, gateways_eq, gateways_eq, hroutes]

lemma Exact.ireDelete (h : Exact s.tables) {linked : Bool} (hlinked : linked = true → s.tables.Linked ire) :
    Exact (s.ireDelete ire linked).tables := by
  have hoff : Exact (Routing.takeOff s.tables ire linked) := by
    cases linked with
    | true => exact h.takeOff (hlinked rfl)
    | false => exact h
  unfold Marked.ireDelete
  split
  · exact h
  · split
    · exact Exact.redirects hoff ire.gateway
    · exact hoff

lemma Exact.insert (h : Exact t) (hid : ire.id < t.nextId) (hnew : ∀ r ∈ t.routes, r.id ≠ ire.id) :
    Exact (insertIre (countGateway t ire) ire) := by
  by_cases hf : ire.type.cachetable = true
  · have hdef := not_default_of_cached hf
    have hne : ire.type ≠ .defaultRoute := of_decide_eq_false hdef
    have hft := ftable_insertIre_of_cache (t := countGateway t ire) hf
    have hroutes : (insertIre (countGateway t ire) ire).routes = t.routes := routes_congr hft
    refine ⟨hroutes ▸ h.nodup, ?_, ?_, ?_⟩
    · intro r hr
      rw [hroutes] at hr
      rw [insertIre, if_pos hf]
      exact h.fresh r hr
    · intro k c hc
      rcases mem_ctable_insertIre hf hc with ⟨rfl, -⟩ | hc
      · exact hf
      · exact h.cached k c hc
    · rw [gateways_eq, hroutes, ← gateways_eq, insertIre, if_pos hf]
      simp [countGateway, hne, h.count]
  · have hf' : ire.type.cachetable = false := Bool.eq_false_iff.mpr hf
    have hperm : (insertIre (countGateway t ire) ire).routes.Perm (ire :: t.routes) :=
      routes_insertIre (countGateway t ire) hf'
    have hnotin : ire ∉ t.routes := fun hmem => hnew ire hmem rfl
    refine ⟨?_, ?_, ?_, ?_⟩
    · exact hperm.nodup_iff.mpr (nodup_cons.mpr ⟨hnotin, h.nodup⟩)
    · intro r hr
      rw [insertIre, if_neg hf]
      rcases mem_cons.mp (hperm.subset hr) with rfl | hr
      · exact hid
      · exact h.fresh r hr
    · rw [ctable_insertIre_of_route hf']
      exact h.cached
    · rw [gateways_eq, hperm.countP_eq, countP_cons, ← gateways_eq, ← h.count, insertIre, if_neg hf]
      by_cases hdef : ire.type = .defaultRoute
      · simp [countGateway, IsDefault, hdef]
      · simp [countGateway, IsDefault, hdef]

end Exact

section Acts

/-- A default route that is counted is linked: there is none like it, and the table for it is there. -/
def Act.Balanced (s : Marked) : Act → Prop
  | .add new mem =>
    new.type = .defaultRoute → mem.copy = true →
      findDuplicate s.tables (newRoute s.tables new) = none ∧ s.HasTable (newRoute s.tables new) mem
  | _ => True

lemma Exact.create (h : Exact s.tables) (new : NewIre) : Exact (s.create new).tables :=
  h.congr rfl rfl (Nat.le_succ _) rfl

lemma Exact.unlinked (h : Exact s.tables) (ire : Ire) : Exact (s.ireDelete ire false).tables :=
  h.ireDelete (by simp)

theorem Exact.addCounted {mem : Memory} (h : Exact s.tables) (hid : ire.id < s.tables.nextId)
    (hnew : ∀ r ∈ s.tables.routes, r.id ≠ ire.id)
    (hb : ire.type = .defaultRoute → findDuplicate s.tables ire = none ∧ s.HasTable ire mem) :
    Exact (Marked.addCounted { s with tables := countGateway s.tables ire } ire mem).2.tables := by
  have hinsert := h.insert hid hnew
  have hdup : findDuplicate (countGateway s.tables ire) ire = findDuplicate s.tables ire := rfl
  have htable : Marked.HasTable { s with tables := countGateway s.tables ire } ire mem ↔ s.HasTable ire mem := Iff.rfl
  unfold Marked.addCounted
  simp only [hdup, htable]
  by_cases hdef : ire.type = .defaultRoute
  · obtain ⟨hnone, hhas⟩ := hb hdef
    simp only [hnone, if_pos hhas]
    exact hinsert
  · -- nothing is counted for the other types
    have hsame : countGateway s.tables ire = s.tables := by
      rw [countGateway, if_neg hdef]
    rw [hsame] at hinsert ⊢
    split
    · exact h.unlinked ire
    · split
      · exact hinsert
      · exact h.unlinked ire

lemma Exact.add {new : NewIre} {mem : Memory} (h : Exact s.tables) (hb : (Act.add new mem).Balanced s) :
    Exact ((Act.add new mem).apply s).tables := by
  have hcreate := h.create new
  have hid : (newRoute s.tables new).id < (s.create new).tables.nextId := Nat.lt_succ_self _
  have hnew : ∀ r ∈ (s.create new).tables.routes, r.id ≠ (newRoute s.tables new).id := by
    intro r hr
    exact Nat.ne_of_lt (h.fresh r hr)
  simp only [Act.apply, Marked.ireAdd]
  split_ifs with hcopy
  · exact hcreate.unlinked _
  · refine hcreate.addCounted hid hnew ?_
    intro hdef
    exact hb (newRoute_type s.tables new ▸ hdef) (by simpa using hcopy)

lemma count_lookup (t : Tables) (a : Addr) :
    (ireFtableLookup t a).2.defGatewayCount = t.defGatewayCount ∧ (ireFtableLookup t a).2.nextId = t.nextId := by
  unfold ireFtableLookup
  split
  · exact ⟨rfl, rfl⟩
  · split
    · exact ⟨rfl, rfl⟩
    · split
      · exact ⟨rfl, rfl⟩
      · split <;> exact ⟨rfl, rfl⟩

lemma Exact.unprotect (h : Exact s.tables) (hlinked : s.tables.Linked ire) : Exact (s.unprotect ire).tables := by
  unfold Marked.unprotect
  split
  · exact Exact.ireDelete
      (s := { s with marks := Function.update s.marks ire.id { s.marks ire.id with guarded := false } }) h fun _ => hlinked
  · exact h

lemma Exact.act (h : Exact s.tables) (a : Act) (hl : a.Legal s) (hb : a.Balanced s) : Exact (a.apply s).tables := by
  cases a with
  | add new mem => exact h.add hb
  | delete ire => exact h.ireDelete fun _ => hl
  | protect ire => exact h
  | unprotect ire => exact h.unprotect hl.1
  | lookup addr =>
    obtain ⟨hcount, hid⟩ := count_lookup s.tables addr
    exact h.congr (ftable_lookup s.tables addr) (ctable_lookup s.tables addr) (le_of_eq hid.symm) hcount
  | skip gateway =>
    simp only [Act.apply, skipGateway]
    split
    · exact h.congr rfl rfl le_rfl rfl
    · exact h

end Acts

section Runs

lemma exact_of_reached (h : Reached (fun s a => a.Balanced s) s) : Exact s.tables := by
  induction h with
  | initial => exact exact_initial
  | act a _ hl hb ih => exact ih.act a hl hb

lemma Exact.walk (h : Exact t) (hplaced : ∀ i tab k r, t.ftable i = some tab → r ∈ tab k → Placed i k r)
    (hmask : ∀ r ∈ t.routes, r.type = .defaultRoute → r.mask = 0) : WalkStays t := by
  intro hcount _
  have hsub : t.routes.filter IsDefault ⊆ t.chain 0 0 := by
    intro r hr
    obtain ⟨hr, hdef⟩ := mem_filter.mp hr
    have hzero := hmask r hr (of_decide_eq_true hdef)
    obtain ⟨i, -, k, -, hmem⟩ := mem_routes_iff.mp hr
    obtain ⟨tab, htab, hmem'⟩ := mem_chain.mp hmem
    have hp := hplaced i tab k r htab hmem'
    have hi : i = 0 := by
      rw [← hp.index, hzero]
      decide
    have hk : k = 0 := by
      have hand : r.addr &&& 0 = 0 := BitVec.and_zero
      rw [← hp.hash, hzero, hand]
      decide
    rwa [hi, hk] at hmem
  have hle : t.defGatewayCount ≤ (t.chain 0 0).length := by
    rw [h.count, gateways_eq, countP_eq_length_filter]
    exact ((h.nodup.filter _).subperm hsub).length_le
  have hlt := mod_lt t.defGatewayIndex (pos_of_ne_zero hcount)
  rw [walkGateways, getElem?_eq_getElem (by omega)]
  rfl

/-- In every run in which each default route that is counted is linked, the count is the number of the
default routes, and the walk to the next of them stays on the list. -/
theorem default_gateways_counted (h : Reached (fun s a => a.Balanced s) s) :
    s.tables.defGatewayCount = s.tables.gateways ∧
      ((∀ r ∈ s.tables.routes, r.type = .defaultRoute → r.mask = 0) → WalkStays s.tables) := by
  have hexact := exact_of_reached h
  have hplaced := placed_of_reached (Q := fun _ => True) (fun _ _ _ _ => trivial) h
  exact ⟨hexact.count, hexact.walk fun i tab k r htab hr => (hplaced i tab k r htab hr).1⟩

def defaultRoute (gateway : Addr) : NewIre := viaGateway .defaultRoute 0 0 gateway

/-- A default route for which there is no memory, then one for which there is. -/
def lostGateway (enough : Bool) : Marked :=
  let s := (Act.add (defaultRoute 0x0a000001) ⟨true, enough⟩).apply Marked.initial
  let s := (Act.add (defaultRoute 0x0a000002) ⟨true, true⟩).apply s
  (Act.lookup 0xc0a80001).apply s

theorem default_gateways_counted_two :
    Reached (fun s a => a.Balanced s) (lostGateway true) ∧
      (lostGateway true).tables.defGatewayCount = (lostGateway true).tables.gateways ∧
      (lostGateway true).tables.gateways = 2 := by
  have hreach : Reached (fun s a => a.Balanced s) (lostGateway true) := by
    refine .act (.lookup 0xc0a80001) ?_ trivial trivial
    refine .act (.add (defaultRoute 0x0a000002) ⟨true, true⟩) ?_ trivial ?_
    · refine .act (.add (defaultRoute 0x0a000001) ⟨true, true⟩) .initial trivial ?_
      intro _ _
      exact ⟨by decide +kernel, .inr (.inr rfl)⟩
    · intro _ _
      exact ⟨by decide +kernel, .inr (.inr rfl)⟩
  exact ⟨hreach, (default_gateways_counted hreach).1, by decide +kernel⟩

/-- The first route is counted and not there, and the walk runs off the end of the list. -/
theorem lost_gateway_counted :
    (¬∀ s, Reached (fun _ _ => True) s → s.tables.defGatewayCount = s.tables.gateways) ∧
      ¬∀ s, Reached (fun _ _ => True) s → WalkStays s.tables := by
  have hreach : Reached (fun _ _ => True) (lostGateway false) := by
    refine .act (.lookup 0xc0a80001) ?_ trivial trivial
    refine .act (.add (defaultRoute 0x0a000002) ⟨true, true⟩) ?_ trivial trivial
    exact .act (.add (defaultRoute 0x0a000001) ⟨true, false⟩) .initial trivial trivial
  refine ⟨?_, ?_⟩
  · intro hall
    exact absurd (hall _ hreach) (by decide +kernel)
  · intro hall
    have hwalk := hall _ hreach (by decide +kernel) (by decide +kernel)
    exact absurd hwalk (by decide +kernel)

end Runs

end Solaris.Routing
