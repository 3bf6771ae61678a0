import Solaris.Routing.Steps

/-!
# Runs of the routing tables

Routes are added and deleted, cache entries created, used and expired, and the routes through a gateway
deleted, in any order. Every cache entry with a parent stays coherent as long as no redirect whose
handle a cache entry holds vanishes with a default route.
-/

namespace Solaris.Routing

open List Function Nat Option

variable {t t' : Tables} {ire r c : Ire} {a : Addr} {going : Option Addr}

section Insert

lemma mem_chainInsert {l : List Ire} : r ∈ chainInsert ire l ↔ r = ire ∨ r ∈ l := by
  unfold chainInsert
  split
  · have happ := takeWhile_append_dropWhile (p := fun old : Ire => decide (old.addr ≠ ire.addr)) (l := l)
    nth_rewrite 3 [← happ]
    simp only [mem_append, mem_cons]
    tauto
  · exact mem_cons

/-- The new entry is in the chain of its mask and its address, and every other chain is as it was. -/
theorem mem_insertIre (hf : ire.type.cachetable = false) {i h : Nat} {tab' : Nat → List Ire}
    (htab' : (insertIre t ire).ftable i = some tab') (hr : r ∈ tab' h) :
    (r = ire ∧ i = ipMaskIndex ire.mask ∧ h = ineAddrHash (ire.addr &&& ire.mask) ipHashTableSize) ∨
      ∃ tab, t.ftable i = some tab ∧ r ∈ tab h := by
  rw [insertIre, if_neg (by simp [hf])] at htab'
  by_cases hi : i = ipMaskIndex ire.mask
  · subst hi
    simp only [update_self, some.injEq] at htab'
    subst htab'
    have hold : ∀ k, r ∈ (t.ftable (ipMaskIndex ire.mask)).getD (fun _ => []) k →
        ∃ tab, t.ftable (ipMaskIndex ire.mask) = some tab ∧ r ∈ tab k := by
      intro k hk
      cases htab : t.ftable (ipMaskIndex ire.mask) with
      | none => simp [htab] at hk
      | some tab => exact ⟨tab, rfl, by simpa [htab] using hk⟩
    by_cases hh : h = ineAddrHash (ire.addr &&& ire.mask) ipHashTableSize
    · subst hh
      rw [update_self, mem_chainInsert] at hr
      rcases hr with rfl | hr
      · exact .inl ⟨rfl, rfl, rfl⟩
      · exact .inr (hold _ hr)
    · rw [update_of_ne hh] at hr
      exact .inr (hold _ hr)
  · simp only [update_of_ne hi] at htab'
    exact .inr ⟨tab', htab', hr⟩

lemma route_insertIre (hf : ire.type.cachetable = false) (hr : t.Route r) : (insertIre t ire).Route r := by
  obtain ⟨i, tab, h, htab, hmem⟩ := hr
  rw [insertIre, if_neg (by simp [hf])]
  by_cases hi : i = ipMaskIndex ire.mask
  · subst hi
    refine ⟨_, _, h, update_self .., ?_⟩
    rw [htab, getD_some]
    by_cases hh : h = ineAddrHash (ire.addr &&& ire.mask) ipHashTableSize
    · subst hh
      rw [update_self]
      exact mem_chainInsert.mpr (.inr hmem)
    · rwa [update_of_ne hh]
  · exact ⟨i, tab, h, by simpa [update_of_ne hi] using htab, hmem⟩

lemma ctable_insertIre_of_route (hf : ire.type.cachetable = false) : (insertIre t ire).ctable = t.ctable := by
  rw [insertIre, if_neg (by simp [hf])]

lemma ftable_insertIre_of_cache (hf : ire.type.cachetable = true) : (insertIre t ire).ftable = t.ftable := by
  rw [insertIre, if_pos hf]

lemma mem_ctable_insertIre (hf : ire.type.cachetable = true) {k : Nat} (hc : c ∈ (insertIre t ire).ctable k) :
    (c = ire ∧ k < ipCacheTableSize) ∨ c ∈ t.ctable k := by
  rw [insertIre, if_pos hf] at hc
  by_cases hk : k = ineAddrHash ire.addr ipCacheTableSize
  · subst hk
    simp only [update_self] at hc
    rcases mem_chainInsert.mp hc with rfl | hc
    · exact .inl ⟨rfl, mod_lt _ (by decide)⟩
    · exact .inr hc
  · simp only [update_of_ne hk] at hc
    exact .inr hc

end Insert

section Legal

/-- What the callers of `ire_add` give: a type of the forwarding table, a contiguous mask, and no mask for a
default route. -/
structure Routable (new : NewIre) : Prop where
  forward : new.type.cachetable = false
  contiguous : Contiguous new.mask
  default_mask : new.type = .defaultRoute → new.mask = 0

def newRoute (t : Tables) (new : NewIre) : Ire := normalize (ireCreate t new none).1

lemma newRoute_type (t : Tables) (new : NewIre) : (newRoute t new).type = new.type := rfl

lemma Routable.stored {new : NewIre} (h : Routable new) (t : Tables) :
    Stored (ipMaskIndex (newRoute t new).mask)
      (ineAddrHash ((newRoute t new).addr &&& (newRoute t new).mask) ipHashTableSize) (newRoute t new) := by
  refine ⟨?_, rfl, rfl, h.forward, ?_⟩
  · rcases new with ⟨type, addr, mask, gateway, reject, stq, ipif, maxFrag, createTime⟩
    cases type with
    | prefixRoute => exact h.contiguous
    | defaultRoute => exact h.contiguous
    | ifResolver => exact h.contiguous
    | ifNoresolver => exact h.contiguous
    | broadcast => exact contiguous_hostMask
    | localAddr => exact contiguous_hostMask
    | loopback => exact contiguous_hostMask
    | cache => exact contiguous_hostMask
    | hostRoute => exact contiguous_hostMask
    | hostRedirect => exact contiguous_hostMask
  · intro hdef
    rcases new with ⟨type, addr, mask, gateway, reject, stq, ipif, maxFrag, createTime⟩
    subst hdef
    exact h.default_mask rfl

end Legal

section Add

lemma Kept.congr (h : Kept t going) (hf : t'.ftable = t.ftable) (hc : t'.ctable = t.ctable) : Kept t' going := by
  refine h.shrink ⟨?_, ?_⟩ ?_
  · intro i tab k r htab hr
    exact ⟨tab, hf ▸ htab, hr⟩
  · intro k c hmem
    exact ⟨c, hc ▸ hmem, SameEntry.refl c⟩
  · rintro r c ⟨i, tab, k, htab, hr⟩ - - - - -
    exact ⟨i, tab, k, hf ▸ htab, hr⟩

lemma Kept.duplicate (h : Kept t going) (hspare : SparesRedirects t ire) : Kept (ireDelete t ire false) going := by
  have hsh := shrinks_ireDelete t ire false
  refine h.shrink hsh ?_
  rintro r c' hr ⟨htype, k, hmem⟩ hparent - hhandle -
  obtain ⟨c, hc, hsame⟩ := hsh.ctable k c' hmem
  refine route_ireDelete hr (by simp) ?_
  rintro hdef ⟨hred, hgw⟩
  exact hspare hdef r c hr hred hgw ⟨hsame.type ▸ htype, k, hc⟩ (hsame.parent ▸ hparent)
    (hsame.chandle.symm.trans hhandle.symm)

lemma flushed_of_covers (hdef : ire.type = .defaultRoute → ire.mask = 0) (hf : ire.type.cachetable = false)
    (hm : Contiguous ire.mask) (hcm : Contiguous c.cmask) (hcov : Covers ire c.addr)
    (hlt : ipMaskIndex c.cmask < ipMaskIndex ire.mask) : ¬(ireFlushCache t ire true).Cached c := by
  rintro ⟨htype, k, hmem⟩
  have hnd : ire.type ≠ .defaultRoute := by
    intro h
    rw [hdef h] at hlt
    exact absurd hlt (by rw [show ipMaskIndex 0 = 0 by decide]; exact not_lt_zero _)
  rw [ireFlushCache, if_neg (by simp [hf]), if_neg (by simp [hnd]), if_pos rfl] at hmem
  have hkeep := (mem_filter.mp hmem).2
  have hagree : c.addr &&& c.cmask = ire.addr &&& c.cmask := hcm.agree hm (le_of_lt hlt) hcov
  have hcov' : c.addr &&& ire.mask = ire.addr &&& ire.mask := hcov
  have hmask := hcm.lt hm hlt
  simp only [htype, hagree, hcov', BitVec.lt_def] at hkeep hmask
  simp at hkeep
  omega

lemma Kept.insertRoute (h : Kept t going)
    (hs : Stored (ipMaskIndex ire.mask) (ineAddrHash (ire.addr &&& ire.mask) ipHashTableSize) ire) :
    Kept (ireFlushCache (insertIre t ire) ire true) going := by
  have hsh := shrinks_ireFlushCache (insertIre t ire) ire true
  have hct := ctable_insertIre_of_route (t := t) hs.forward
  refine ⟨⟨?_, ?_⟩, ?_⟩
  · intro i tab' k r htab' hr
    obtain ⟨tab1, htab1, hr1⟩ := hsh.ftable i tab' k r htab' hr
    rcases mem_insertIre hs.forward htab1 hr1 with ⟨rfl, rfl, rfl⟩ | ⟨tab, htab, hr⟩
    · exact hs
    · exact h.wf.stored i tab k r htab hr
  · intro k c' hc'
    obtain ⟨c, hc, -⟩ := hsh.ctable k c' hc'
    rw [hct] at hc
    exact h.wf.size k c hc
  · intro c hc hparent hgo
    have hcached : t.Cached c := by
      obtain ⟨htype, k, hmem⟩ := cached_of_flush hc
      exact ⟨htype, k, hct ▸ hmem⟩
    have hp := h.parented c hcached hparent hgo
    obtain ⟨r, hr, hhandle, hgw⟩ := hp.alive
    refine ⟨hp.contiguous, ⟨r, route_ireFlushCache.mpr (route_insertIre hs.forward hr), hhandle, hgw⟩, ?_⟩
    intro r' hr' hcov
    obtain ⟨i, tab', k, htab', hmem⟩ := route_ireFlushCache.mp hr'
    rcases mem_insertIre hs.forward htab' hmem with ⟨rfl, -, -⟩ | ⟨tab, htab, hmem⟩
    · by_contra hlt
      exact flushed_of_covers hs.default_mask hs.forward hs.contiguous hp.contiguous hcov (not_le.mp hlt) hc
    · exact hp.longest r' ⟨i, tab, k, htab, hmem⟩ hcov

/-- The condition under which a route can be added: a default route that is there already spares the redirects. -/
def AddSpares (t : Tables) (new : NewIre) : Prop :=
  (findDuplicate t (newRoute t new)).isSome = true → SparesRedirects t (newRoute t new)

lemma Kept.addNormal (h : Kept t going)
    (hs : Stored (ipMaskIndex ire.mask) (ineAddrHash (ire.addr &&& ire.mask) ipHashTableSize) ire)
    (hspare : (findDuplicate t ire).isSome = true → SparesRedirects t ire) :
    Kept (ireFlushCache (addNormal t ire).2 (addNormal t ire).1 true) going := by
  unfold Routing.addNormal
  cases hd : findDuplicate t ire with
  | some old => exact (h.duplicate (hspare (by rw [hd]; rfl))).flush old true
  | none => exact h.insertRoute hs

lemma Kept.addRoute {new : NewIre} (h : Kept t going) (hnew : Routable new) (hspare : AddSpares t new) :
    Kept (addRoute t new) going := by
  have hk : Kept (countGateway (ireCreate t new none).2 (newRoute t new)) going := h.congr rfl rfl
  exact hk.addNormal (hnew.stored t) hspare

end Add

section Cache

lemma and_hostMask (a : Addr) : a &&& ipHostMask = a := BitVec.and_allOnes

lemma ftable_lookup (t : Tables) (a : Addr) : (ireFtableLookup t a).2.ftable = t.ftable := by
  unfold ireFtableLookup
  split
  · rfl
  · split
    · rfl
    · split
      · rfl
      · split <;> rfl

lemma ctable_lookup (t : Tables) (a : Addr) : (ireFtableLookup t a).2.ctable = t.ctable := by
  unfold ireFtableLookup
  split
  · rfl
  · split
    · rfl
    · split
      · rfl
      · split <;> rfl

lemma Parented.congr (h : Parented t c) (hf : t'.ftable = t.ftable) : Parented t' c := by
  have hroute : ∀ r, t'.Route r ↔ t.Route r := by
    intro r
    unfold Tables.Route
    rw [hf]
  obtain ⟨r, hr, hhandle, hgw⟩ := h.alive
  exact ⟨h.contiguous, ⟨r, (hroute r).mpr hr, hhandle, hgw⟩, fun r' hr' => h.longest r' ((hroute r').mp hr')⟩

lemma Kept.addCache (h : Kept t going) (htype : ire.type = .cache) (hp : ire.parent = true → Parented t ire) :
    Kept (Routing.addNormal t ire).2 going := by
  have hct : ire.type.cachetable = true := by
    rw [htype]
    rfl
  unfold Routing.addNormal
  cases hd : findDuplicate t ire with
  | some old =>
    -- the new entry was on no chain yet
    have hnd : ire.type ≠ .defaultRoute := by
      rw [htype]
      decide
    rw [ireDelete, if_neg hnd, takeOff, if_neg (by decide)]
    exact h
  | none =>
    have hft := ftable_insertIre_of_cache (t := t) hct
    refine ⟨⟨?_, ?_⟩, ?_⟩
    · rw [hft]
      exact h.wf.stored
    · intro k c hc
      rcases mem_ctable_insertIre hct hc with ⟨-, hk⟩ | hc
      · exact hk
      · exact h.wf.size k c hc
    · rintro c ⟨htypec, k, hmem⟩ hparent hgo
      rcases mem_ctable_insertIre hct hmem with ⟨rfl, -⟩ | hc
      · exact (hp hparent).congr hft
      · exact (h.parented c ⟨htypec, k, hc⟩ hparent hgo).congr hft

lemma Kept.createCache (h : Kept t going) (a : Addr) (way : Way) : Kept (createCache t a way) going := by
  have hk : Kept (ireFtableLookup t a).2 going := h.congr (ftable_lookup t a) (ctable_lookup t a)
  unfold Routing.createCache
  simp only
  cases hf : (ireFtableLookup t a).1.filter fun r => !r.reject with
  | none => exact hk
  | some r =>
    obtain ⟨hfound, -⟩ := filter_eq_some_iff.mp hf
    obtain ⟨hr, hlong⟩ := ireFtableLookup_spec h.wf hfound
    obtain ⟨i, k, hstored⟩ := h.wf.route hr
    refine Kept.addCache (hk.congr rfl rfl) rfl ?_
    intro hparent
    have hpar : parentOf r = some r := by
      unfold parentOf
      split
      · rename_i hi
        simp [normalize, ireCreate, parentOf, hi] at hparent
      · rfl
    refine Parented.congr ?_ (ftable_lookup t a)
    refine ⟨?_, ⟨r, hr, ?_, ?_⟩, ?_⟩
    · simpa [normalize, ireCreate, hpar] using hstored.contiguous
    · simp [normalize, ireCreate, hpar]
    · simp [normalize, ireCreate, hpar]
    · intro r' hr' hcov
      have hcov' : (a &&& ipHostMask) &&& r'.mask = r'.addr &&& r'.mask := hcov
      rw [and_hostMask] at hcov'
      have := hlong r' hr' hcov'
      simpa [normalize, ireCreate, hpar] using this

end Cache

section Runs

inductive Step where
  | add (new : NewIre)
  | delete (ire : Ire)
  | cache (addr : Addr) (way : Way)
  | packet (ire : Ire)
  | expire (e : Expiry)
  | deleteGw (gw : Addr)

def Step.apply (t : Tables) : Step → Tables
  | .add new => addRoute t new
  | .delete ire => deleteRoute t ire
  | .cache addr way => createCache t addr way
  | .packet ire => updateCache t ire { ire with pktCount := ire.pktCount + 1 }
  | .expire e => ireWalk (ireExpire e) t
  | .deleteGw gw => ireWalk (ireDeleteRouteGw gw) t

/-- A route that is added is one that a caller can give; a route that is deleted is there. -/
def Step.Legal (t : Tables) : Step → Prop
  | .add new => Routable new
  | .delete ire => t.Route ire
  | _ => True

/-- No redirect whose handle a cache entry holds vanishes with a default route. -/
def Step.Spares (t : Tables) : Step → Prop
  | .add new => AddSpares t new
  | .delete ire => SparesRedirects (ireFlushCache t ire false) ire
  | _ => True

def initial : Tables where
  ftable := fun _ => none
  ctable := fun _ => []
  defGatewayCount := 0
  defGatewayIndex := 0
  handle := 1
  nextId := 0

/-- The tables that runs lead to whose steps all satisfy a condition. -/
inductive Reaches (P : Tables → Step → Prop) : Tables → Prop
  | initial : Reaches P initial
  | step {t : Tables} (s : Step) : Reaches P t → s.Legal t → P t s → Reaches P (s.apply t)

lemma kept_initial : Kept initial none := by
  refine ⟨⟨?_, ?_⟩, ?_⟩
  · intro i tab h r htab
    cases htab
  · intro h c hc
    cases hc
  · rintro c ⟨-, h, hc⟩
    cases hc

lemma Kept.step (h : Kept t none) (s : Step) (hl : s.Legal t) (hs : s.Spares t) : Kept (s.apply t) none := by
  cases s with
  | add new => exact h.addRoute hl hs
  | delete ire =>
    obtain ⟨i, k, hstored⟩ := h.wf.route hl
    exact h.deleteRoute hstored.forward hs
  | cache addr way => exact h.createCache addr way
  | packet ire => exact h.updateCache ⟨rfl, rfl, rfl, rfl, rfl, rfl⟩
  | expire e =>
    have hvisit : ∀ t ire, Kept t none → Kept (ireExpire e t ire) none := fun t ire ht => ht.expire e ire
    exact (ireWalk_rule hvisit h).2
  | deleteGw gw => exact h.walkGw gw

lemma kept_of_reaches (h : Reaches (fun t s => s.Spares t) t) : Kept t none := by
  induction h with
  | initial => exact kept_initial
  | step s _ hl hs ih => exact ih.step s hl hs

/-- In every run in which no redirect held by a cache entry vanishes with a default route, the parent of
every cache entry is in the forwarding table and no longer mask covers the address. -/
theorem caches_coherent (h : Reaches (fun t s => s.Spares t) t) (hc : t.Cached c) (hparent : c.parent = true) :
    Coherent t c :=
  ((kept_of_reaches h).parented c hc hparent (by simp)).coherent

/-- The routes of a forwarding table whose chains are where they should be. -/
def Tables.routes (t : Tables) : List Ire :=
  (List.range 33).flatMap fun i => (List.range ipHashTableSize).flatMap fun h =>
    ((t.ftable i).map fun tab => tab h).getD []

lemma WellFormed.mem_routes (h : WellFormed t) (hr : t.Route r) : r ∈ t.routes := by
  obtain ⟨i, tab, k, htab, hmem⟩ := hr
  have hstored := h.stored i tab k r htab hmem
  have hi := hstored.index ▸ hstored.contiguous.index_le
  have hk : k < ipHashTableSize := hstored.hash ▸ mod_lt _ (by decide)
  simp only [Tables.routes, mem_flatMap, mem_range]
  exact ⟨i, by omega, k, hk, by simpa [htab] using hmem⟩

lemma route_of_mem_routes (h : r ∈ t.routes) : t.Route r := by
  simp only [Tables.routes, mem_flatMap, mem_range] at h
  obtain ⟨i, -, k, -, hmem⟩ := h
  cases htab : t.ftable i with
  | none => simp [htab] at hmem
  | some tab => exact ⟨i, tab, k, htab, by simpa [htab] using hmem⟩

def viaGateway (type : IreType) (addr mask gateway : Addr) : NewIre where
  type := type
  addr := addr
  mask := mask
  gateway := gateway
  reject := false
  stq := 0
  ipif := none
  maxFrag := 1500
  createTime := 0

/-- The cache entry of a host that a redirect is for, next to a default route. -/
def redirected (gateway : Addr) : Tables :=
  let t := addRoute initial (viaGateway .defaultRoute 0 0 0x0a000001)
  let t := addRoute t (viaGateway .hostRedirect 0xc0a80001 ipHostMask gateway)
  createCache t 0xc0a80001 ⟨0, ⟨0, 1500⟩, 1500, 0⟩

def firstRoute : Ire := newRoute initial (viaGateway .defaultRoute 0 0 0x0a000001)

def cacheEntry (gateway : Addr) : Ire where
  id := 2
  type := .cache
  addr := 0xc0a80001
  mask := ipHostMask
  gateway := gateway
  chandle := 2
  cmask := ipHostMask
  reject := false
  stq := 0
  ipif := some ⟨0, 1500⟩
  maxFrag := 1500
  pktCount := 0
  tireMark := 0
  createTime := 0
  parent := true

lemma routable_default : Routable (viaGateway .defaultRoute 0 0 0x0a000001) :=
  ⟨rfl, ⟨0, by decide, by decide⟩, fun _ => rfl⟩

lemma routable_redirect (gateway : Addr) : Routable (viaGateway .hostRedirect 0xc0a80001 ipHostMask gateway) :=
  ⟨rfl, contiguous_hostMask, fun h => by cases h⟩

lemma redirected_reached (gateway : Addr) : Reaches (fun t s => s.Spares t) (redirected gateway) := by
  refine .step (.cache 0xc0a80001 ⟨0, ⟨0, 1500⟩, 1500, 0⟩) ?_ trivial trivial
  refine .step (.add (viaGateway .hostRedirect 0xc0a80001 ipHostMask gateway)) ?_ (routable_redirect gateway) ?_
  · refine .step (.add (viaGateway .defaultRoute 0 0 0x0a000001)) .initial routable_default ?_
    intro hdup
    exact absurd hdup (by decide +kernel)
  · intro _ hdef
    cases hdef

/-- The default route goes and the cache entry stays, for the redirect is through another gateway. -/
theorem caches_coherent_redirected :
    Reaches (fun t s => s.Spares t) (deleteRoute (redirected 0x0a000002) firstRoute) ∧
      (deleteRoute (redirected 0x0a000002) firstRoute).Cached (cacheEntry 0x0a000002) ∧
      Coherent (deleteRoute (redirected 0x0a000002) firstRoute) (cacheEntry 0x0a000002) := by
  have hroute : (redirected 0x0a000002).Route firstRoute := route_of_mem_routes (by decide +kernel)
  have hspare : SparesRedirects (ireFlushCache (redirected 0x0a000002) firstRoute false) firstRoute := by
    intro _ r c hr hred hgw
    have hnone : ∀ r ∈ (ireFlushCache (redirected 0x0a000002) firstRoute false).routes,
        r.type = .hostRedirect → r.gateway ≠ firstRoute.gateway := by decide +kernel
    have hkept := (kept_of_reaches (redirected_reached 0x0a000002)).flush firstRoute false
    exact absurd hgw (hnone r (hkept.wf.mem_routes hr) hred)
  have hreach : Reaches (fun t s => s.Spares t) (deleteRoute (redirected 0x0a000002) firstRoute) :=
    .step (.delete firstRoute) (redirected_reached 0x0a000002) hroute hspare
  have hcached : (deleteRoute (redirected 0x0a000002) firstRoute).Cached (cacheEntry 0x0a000002) :=
    ⟨rfl, ineAddrHash 0xc0a80001 ipCacheTableSize, by decide +kernel⟩
  exact ⟨hreach, hcached, caches_coherent hreach hcached rfl⟩

lemma Reaches.weaken {P Q : Tables → Step → Prop} (h : Reaches P t) (hpq : ∀ t s, P t s → Q t s) : Reaches Q t := by
  induction h with
  | initial => exact .initial
  | step s _ hl hp ih => exact .step s ih hl (hpq _ s hp)

/-- The redirect vanishes with the default route through the same gateway, and the cache entry made from it
stays. -/
theorem cache_outlives_redirect :
    ¬∀ t c, Reaches (fun _ _ => True) t → t.Cached c → c.parent = true → Coherent t c := by
  intro hall
  have hwf := (kept_of_reaches (redirected_reached 0x0a000001)).wf
  have hroute : (redirected 0x0a000001).Route firstRoute := route_of_mem_routes (by decide +kernel)
  have hreach : Reaches (fun _ _ => True) (deleteRoute (redirected 0x0a000001) firstRoute) :=
    .step (.delete firstRoute) ((redirected_reached 0x0a000001).weaken fun _ _ _ => trivial) hroute trivial
  have hcached : (deleteRoute (redirected 0x0a000001) firstRoute).Cached (cacheEntry 0x0a000001) :=
    ⟨rfl, ineAddrHash 0xc0a80001 ipCacheTableSize, by decide +kernel⟩
  obtain ⟨r, hr, hhandle⟩ := (hall _ _ hreach hcached rfl).alive
  have hwf' : WellFormed (deleteRoute (redirected 0x0a000001) firstRoute) :=
    (hwf.shrink (shrinks_ireFlushCache ..)).shrink (shrinks_ireDelete ..)
  have hgone : ∀ r ∈ (deleteRoute (redirected 0x0a000001) firstRoute).routes,
      r.chandle ≠ (cacheEntry 0x0a000001).chandle := by decide +kernel
  exact hgone r (hwf'.mem_routes hr) hhandle

end Runs

end Solaris.Routing
