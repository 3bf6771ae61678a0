import Mathlib.Data.BitVec
import Mathlib.Tactic.IntervalCases

/-!
# Routing tables

The forwarding table, with a hash table for every length of mask, and the cache table, with the
functions that add, delete and flush entries. Addresses are in host order. An entry is known by
its `id`; the chains are lists. An allocation succeeds.
-/

namespace Solaris.Routing

section Table

open Nat List

abbrev Addr := BitVec 32

inductive IreType where
  | broadcast
  | defaultRoute
  | localAddr
  | loopback
  | prefixRoute
  | cache
  | ifNoresolver
  | ifResolver
  | hostRoute
  | hostRedirect
  deriving DecidableEq

/-- `IRE_CACHETABLE` -/
def IreType.cachetable : IreType → Bool
  | .cache | .broadcast | .localAddr | .loopback => true
  | _ => false

/-- `IRE_INTERFACE` -/
def IreType.interface : IreType → Bool
  | .ifNoresolver | .ifResolver => true
  | _ => false

structure Ipif where
  id : Nat
  mtu : Nat
  deriving DecidableEq

/-- `reject` is `RTF_REJECT` or `RTF_BLACKHOLE`; `parent` says that the entry was created with a parent. -/
structure Ire where
  id : Nat
  type : IreType
  addr : Addr
  mask : Addr
  gateway : Addr
  chandle : BitVec 32
  cmask : Addr
  reject : Bool
  stq : Nat
  ipif : Option Ipif
  maxFrag : Nat
  pktCount : Nat
  tireMark : Nat
  createTime : Nat
  parent : Bool
  deriving DecidableEq

structure Tables where
  ftable : Nat → Option (Nat → List Ire)
  ctable : Nat → List Ire
  defGatewayCount : Nat
  defGatewayIndex : Nat
  handle : BitVec 32
  nextId : Nat

def ipHostMask : Addr := BitVec.allOnes 32

def ipHashTableSize : Nat := 32

def ipCacheTableSize : Nat := 256

def ineAddrHash (addr : Addr) (size : Nat) : Nat :=
  (((addr >>> 16) ^^^ addr) ^^^ (((addr >>> 16) ^^^ addr) >>> 8)).toNat % size

def ipMaskIndex (mask : Addr) : Nat :=
  match (List.range 33).find? fun i => mask.getLsbD i with
  | some i => 32 - i
  | none => 0

def ipMapMsizeToMask (i : Nat) : Addr := ipHostMask <<< (32 - i)

/-- What a lookup asks for beside the address: the arguments whose flag is set. -/
structure Match where
  gateway : Option Addr
  type : Option IreType
  ipif : Option (Option Ipif)
  wrq : Option Nat

def ireMatchArgs (ire : Ire) (addr mask : Addr) (m : Match) : Bool :=
  (ire.addr &&& ire.mask == addr &&& mask) && m.gateway.all (ire.gateway == ·) && m.type.all (ire.type == ·) &&
    m.wrq.all (ire.stq == ·) && m.ipif.all (ire.ipif == ·)

/-- A lookup for any of several types: `types` are the bits of the argument `type`. -/
structure Criteria where
  gateway : Option Addr
  types : Option (List IreType)
  ipif : Option (Option Ipif)
  wrq : Option Nat

/-- `MATCH_IRE_DSTONLY` -/
def Criteria.dstOnly : Criteria := ⟨none, none, none, none⟩

def Criteria.admits (c : Criteria) (ire : Ire) : Bool :=
  c.gateway.all (ire.gateway == ·) && c.types.all (·.contains ire.type) && c.wrq.all (ire.stq == ·) &&
    c.ipif.all (ire.ipif == ·)

/-- `ire_match_args` -/
def Criteria.matchArgs (c : Criteria) (ire : Ire) (addr mask : Addr) : Bool :=
  (ire.addr &&& ire.mask == addr &&& mask) && c.admits ire

def Criteria.zeroMask (c : Criteria) : Bool :=
  c.types.any fun types => types.any fun type => type == .defaultRoute || type.interface

section Lookup

variable (t : Tables) (addr : Addr)

/-- The chain of the forwarding table for an address and a mask. -/
def ftableChain (mask : Addr) : Option (List Ire) :=
  (t.ftable (ipMaskIndex mask)).map fun tab => tab (ineAddrHash (addr &&& mask) ipHashTableSize)

/-- `ire_ftable_lookup` with `MATCH_IRE_MASK`. -/
def ireFtableLookupMask (mask : Addr) (m : Match) : Option Ire :=
  (ftableChain t addr mask).bind fun chain =>
    match chain.find? fun ire => ireMatchArgs ire addr mask m with
    | some ire => some ire
    | none =>
      if m.type.any fun type => type == .defaultRoute || type.interface then
        (ftableChain t addr 0).bind fun chain => chain.find? fun ire => ireMatchArgs ire addr 0 m
      else none

/-- "We start with 32 bit mask, we don't allow default here." -/
def searchMasks (m : Match) : Nat → Option Ire
  | 0 => none
  | i + 1 =>
    match (t.ftable (i + 1)).bind fun tab =>
        (tab (ineAddrHash (addr &&& ipMapMsizeToMask (i + 1)) ipHashTableSize)).find? fun ire =>
          ireMatchArgs ire addr ire.mask m with
    | some ire => some ire
    | none => searchMasks m i

/-- `while (ire->ire_next && index--) ire = ire->ire_next;` -/
def nthGateway : List Ire → Nat → Option Ire
  | [], _ => none
  | [ire], _ => some ire
  | ire :: _ :: _, 0 => some ire
  | _ :: ire :: rest, n + 1 => nthGateway (ire :: rest) n

/-- `ire_ftable_lookup` as `ip_newroute` calls it: any mask, then the default route. -/
def ireFtableLookup : Option Ire × Tables :=
  match searchMasks t addr ⟨none, none, none, none⟩ 32 with
  | some ire => (some ire, t)
  | none =>
    match t.ftable 0 with
    | none => (none, t)
    | some tab =>
      match tab 0 with
      | [] => (none, t)
      | ire :: rest =>
        if t.defGatewayCount = 0 then (some ire, t)
        else
          (nthGateway (ire :: rest) (t.defGatewayIndex % t.defGatewayCount),
            { t with defGatewayIndex := t.defGatewayIndex + 1 })

/-- The search of the tables with the longer masks, by the criteria. -/
def Criteria.searchMasks (c : Criteria) : Nat → Option Ire
  | 0 => none
  | i + 1 =>
    match (t.ftable (i + 1)).bind fun tab =>
        (tab (ineAddrHash (addr &&& ipMapMsizeToMask (i + 1)) ipHashTableSize)).find? fun ire =>
          c.matchArgs ire addr ire.mask with
    | some ire => some ire
    | none => Criteria.searchMasks c i

/-- `ire_ftable_lookup` without `MATCH_IRE_MASK`, `MATCH_IRE_DEFAULT` and `MATCH_IRE_RECURSIVE`. -/
def Criteria.lookup (c : Criteria) : Option Ire :=
  match c.searchMasks t addr 32 with
  | some ire => some ire
  | none =>
    if c.zeroMask then (ftableChain t addr 0).bind fun chain => chain.find? fun ire => c.matchArgs ire addr 0
    else none

def ireCtableLookup (m : Match) : Option Ire :=
  (t.ctable (ineAddrHash addr ipCacheTableSize)).find? fun ire => ireMatchArgs ire addr ire.mask m

end Lookup

section Delete

variable (t : Tables)

def unlink (ire : Ire) : Tables :=
  { t with
    ftable := fun i => (t.ftable i).map fun tab h => (tab h).filter (· ≠ ire)
    ctable := fun h => (t.ctable h).filter (· ≠ ire) }

def ireDeleteHostRedirects (gateway : Addr) : Tables :=
  { t with
    ftable := fun i =>
      if i = 32 then
        (t.ftable 32).map fun tab h => (tab h).filter fun ire => !(ire.type = .hostRedirect ∧ ire.gateway = gateway)
      else t.ftable i }

/-- "Remove IRE from whatever list it is on." "If it is a gateway, decrement the count." -/
def takeOff (ire : Ire) (linked : Bool) : Tables :=
  if linked then
    { unlink t ire with
      defGatewayCount := if ire.type = .defaultRoute then t.defGatewayCount - 1 else t.defGatewayCount }
  else t

/-- `ire_delete`; `linked` says that the entry is on a chain. -/
def ireDelete (ire : Ire) (linked : Bool) : Tables :=
  if ire.type = .defaultRoute then ireDeleteHostRedirects (takeOff t ire linked) ire.gateway else takeOff t ire linked

def deleteCaches (p : Ire → Bool) : Tables :=
  { t with ctable := fun h => (t.ctable h).filter fun cire => !(cire.type = .cache ∧ p cire) }

/-- `add` is `IRE_FLUSH_ADD`. -/
def ireFlushCache (ire : Ire) (add : Bool) : Tables :=
  if ire.type.cachetable then t
  else if ire.type = .defaultRoute ∧ add = true then t
  else if add then
    deleteCaches t fun cire =>
      !(cire.addr &&& cire.cmask ≠ ire.addr &&& cire.cmask ∨ cire.addr &&& ire.mask ≠ ire.addr &&& ire.mask ∨
        ire.mask < cire.cmask)
  else deleteCaches t fun cire => cire.chandle = ire.chandle

end Delete

section Add

/-- "Make it easy for ip_wput() to hit multiple targets by grouping identical addresses together on the
hash chain." -/
def chainInsert (ire : Ire) (chain : List Ire) : List Ire :=
  if chain.any fun old => old.addr = ire.addr then
    chain.takeWhile (fun old => old.addr ≠ ire.addr) ++ ire :: chain.dropWhile fun old => old.addr ≠ ire.addr
  else ire :: chain

/-- The mask and the address as `ire_add` sets them. -/
def normalize (ire : Ire) : Ire :=
  let mask :=
    match ire.type with
    | .prefixRoute | .defaultRoute | .ifResolver | .ifNoresolver => ire.mask
    | _ => ipHostMask
  { ire with mask := mask, addr := ire.addr &&& mask }

def findDuplicate (t : Tables) (ire : Ire) : Option Ire :=
  let m : Match := ⟨some ire.gateway, some ire.type, ire.ipif.map some, ire.ipif.map fun _ => ire.stq⟩
  if ire.type.cachetable then ireCtableLookup t ire.addr m else ireFtableLookupMask t ire.addr ire.mask m

def insertIre (t : Tables) (ire : Ire) : Tables :=
  if ire.type.cachetable then
    { t with
      ctable := Function.update t.ctable (ineAddrHash ire.addr ipCacheTableSize)
        (chainInsert ire (t.ctable (ineAddrHash ire.addr ipCacheTableSize))) }
  else
    let tab := (t.ftable (ipMaskIndex ire.mask)).getD fun _ => []
    let h := ineAddrHash (ire.addr &&& ire.mask) ipHashTableSize
    { t with
      ftable := Function.update t.ftable (ipMaskIndex ire.mask) (some (Function.update tab h (chainInsert ire (tab h)))) }

/-- "We keep a count of default gateways which is used when assigning them as routes." -/
def countGateway (t : Tables) (ire : Ire) : Tables :=
  { t with defGatewayCount := if ire.type = .defaultRoute then t.defGatewayCount + 1 else t.defGatewayCount }

/-- The entry is inserted, or the old one kept when there is one like it. -/
def addNormal (t : Tables) (ire : Ire) : Ire × Tables :=
  match findDuplicate t ire with
  | some old => (old, ireDelete t ire false)
  | none => (ire, insertIre t ire)

def ireAdd (t : Tables) (ire : Ire) : Ire × Tables :=
  addNormal (countGateway t (normalize ire)) (normalize ire)

/-- What the callers of `ire_create` give. -/
structure NewIre where
  type : IreType
  addr : Addr
  mask : Addr
  gateway : Addr
  reject : Bool
  stq : Nat
  ipif : Option Ipif
  maxFrag : Nat
  createTime : Nat

def ireCreate (t : Tables) (new : NewIre) (sire : Option Ire) : Ire × Tables :=
  let ire : Ire :=
    { id := t.nextId
      type := new.type
      addr := new.addr
      mask := new.mask
      gateway := new.gateway
      chandle := if new.type ≠ .cache then t.handle else (sire.map (·.chandle)).getD 0
      cmask := if new.type ≠ .cache then 0 else (sire.map (·.mask)).getD 0
      reject := new.reject
      stq := new.stq
      ipif := if new.type.cachetable || new.type.interface then new.ipif else none
      maxFrag := new.maxFrag
      pktCount := 0
      tireMark := 0
      createTime := new.createTime
      parent := new.type = .cache && sire.isSome }
  (ire, { t with nextId := t.nextId + 1, handle := if new.type ≠ .cache then t.handle + 1 else t.handle })

end Add

section Walk

/-- `ire_walk1`: an entry may be deleted while it is visited. -/
def ireWalk1 (f : Tables → Ire → Tables) (t : Tables) (chain : List Ire) : Tables := chain.foldl f t

def walkForward (f : Tables → Ire → Tables) (t : Tables) : Tables :=
  (List.range 33).reverse.foldl (fun t i =>
    (List.range ipHashTableSize).foldl (fun t j => ireWalk1 f t (((t.ftable i).map fun tab => tab j).getD [])) t) t

def walkCache (f : Tables → Ire → Tables) (t : Tables) : Tables :=
  (List.range ipCacheTableSize).foldl (fun t j => ireWalk1 f t (t.ctable j)) t

def ireWalk (f : Tables → Ire → Tables) (t : Tables) : Tables := walkCache f (walkForward f t)

/-- The flags and the time that `ire_expire` is called with. -/
structure Expiry where
  redirectTime : Bool
  cacheTime : Bool
  mtuTime : Bool
  now : Nat
  flushInterval : Nat
  pathMtuDiscovery : Bool

def updateCache (t : Tables) (ire new : Ire) : Tables :=
  { t with ctable := fun h => (t.ctable h).map fun cire => if cire = ire then new else cire }

/-- The age in milliseconds, a `u32`. -/
def ireAge (e : Expiry) (ire : Ire) : Nat := ((BitVec.ofNat 32 e.now - BitVec.ofNat 32 ire.createTime) * 1000).toNat

def ireExpire (e : Expiry) (t : Tables) (ire : Ire) : Tables :=
  if e.redirectTime ∧ ire.type = .hostRedirect then ireDelete (ireFlushCache t ire false) ire true
  else if ire.type ≠ .cache then t
  else if e.cacheTime ∧ e.flushInterval < ireAge e ire then ireDelete t ire true
  else if ire.pktCount = ire.tireMark ∧ ire.gateway ≠ 0 ∧ ∃ ipif, ire.ipif = some ipif ∧ ire.maxFrag = ipif.mtu then
    ireDelete t ire true
  else
    updateCache t ire
      { ire with
        tireMark := ire.pktCount
        maxFrag := if e.pathMtuDiscovery ∧ e.mtuTime then (ire.ipif.map (·.mtu)).getD ire.maxFrag else ire.maxFrag }

def ireDeleteRouteGw (gw : Addr) (t : Tables) (ire : Ire) : Tables :=
  if (ire.type = .cache ∨ ire.type = .hostRedirect) ∧ ire.gateway = gw then ireDelete t ire true else t

end Walk

section Routes

variable (t : Tables)

/-- A route is created, added and the cache flushed, as by `ip_rt_add`. -/
def addRoute (new : NewIre) : Tables :=
  let (ire, t) := ireCreate t new none
  let (ire, t) := ireAdd t ire
  ireFlushCache t ire true

/-- The cache is flushed and the route deleted, as by `ip_rt_delete` and `ire_expire`. -/
def deleteRoute (ire : Ire) : Tables := ireDelete (ireFlushCache t ire false) ire true

/-- The way to the gateway that `ip_newroute` has found. -/
structure Way where
  stq : Nat
  ipif : Ipif
  maxFrag : Nat
  createTime : Nat

/-- The parent of a cache entry and its gateway: a route to an interface is no parent. -/
def parentOf (r : Ire) : Option Ire := if r.type.interface then none else some r

/-- `ip_newroute` makes a cache entry for an address when it finds a route that does not reject it. -/
def createCache (addr : Addr) (way : Way) : Tables :=
  let (found, t) := ireFtableLookup t addr
  match found.filter fun r => !r.reject with
  | none => t
  | some r =>
    let new : NewIre :=
      { type := .cache
        addr := addr
        mask := ipHostMask
        gateway := ((parentOf r).map (·.gateway)).getD 0
        reject := false
        stq := way.stq
        ipif := some way.ipif
        maxFrag := way.maxFrag
        createTime := way.createTime }
    let (ire, t) := ireCreate t new (parentOf r)
    (ireAdd t ire).2

end Routes

end Table

/-!
## Cache entries and their routes

A cache entry with a parent is coherent when a route with its handle is in the forwarding table and no route with a
longer mask covers its address.
-/

section Cache

open Nat List

variable {t : Tables} {ire r c : Ire} {a : Addr}

section Masks

def Contiguous (m : Addr) : Prop := ∃ n, n ≤ 32 ∧ m = ipMapMsizeToMask n

lemma ipMaskIndex_msize : ∀ n : Fin 33, ipMaskIndex (ipMapMsizeToMask n) = n := by
  decide +kernel

lemma msize_and : ∀ n m : Fin 33, n ≤ m → ipMapMsizeToMask n &&& ipMapMsizeToMask m = ipMapMsizeToMask n := by
  decide +kernel

lemma msize_lt : ∀ n m : Fin 33, n < m → ipMapMsizeToMask n < ipMapMsizeToMask m := by
  decide +kernel

lemma Contiguous.msize_index {m : Addr} (h : Contiguous m) : ipMapMsizeToMask (ipMaskIndex m) = m := by
  obtain ⟨n, hn, rfl⟩ := h
  rw [ipMaskIndex_msize ⟨n, by omega⟩]

lemma Contiguous.index_le {m : Addr} (h : Contiguous m) : ipMaskIndex m ≤ 32 := by
  obtain ⟨n, hn, rfl⟩ := h
  rw [ipMaskIndex_msize ⟨n, by omega⟩]
  exact hn

lemma contiguous_hostMask : Contiguous ipHostMask := ⟨32, Nat.le_refl _, by decide⟩

lemma Contiguous.and_eq {m m' : Addr} (h : Contiguous m) (h' : Contiguous m')
    (hle : ipMaskIndex m ≤ ipMaskIndex m') : m &&& m' = m := by
  have hand := msize_and ⟨ipMaskIndex m, lt_succ_of_le h.index_le⟩ ⟨ipMaskIndex m', lt_succ_of_le h'.index_le⟩ hle
  rwa [h.msize_index, h'.msize_index] at hand

lemma Contiguous.lt {m m' : Addr} (h : Contiguous m) (h' : Contiguous m') (hlt : ipMaskIndex m < ipMaskIndex m') :
    m < m' := by
  have hm := msize_lt ⟨ipMaskIndex m, lt_succ_of_le h.index_le⟩ ⟨ipMaskIndex m', lt_succ_of_le h'.index_le⟩ hlt
  rwa [h.msize_index, h'.msize_index] at hm

lemma Contiguous.agree {m m' a b : Addr} (h : Contiguous m) (h' : Contiguous m') (hle : ipMaskIndex m ≤ ipMaskIndex m')
    (hab : a &&& m' = b &&& m') : a &&& m = b &&& m := by
  have hand := h.and_eq h' hle
  rw [BitVec.and_comm] at hand
  rw [← hand, ← BitVec.and_assoc, ← BitVec.and_assoc, hab]

end Masks

section Invariant

namespace Tables

def Route (t : Tables) (r : Ire) : Prop := ∃ i tab h, t.ftable i = some tab ∧ r ∈ tab h

def Cached (t : Tables) (c : Ire) : Prop := c.type = .cache ∧ ∃ h, c ∈ t.ctable h

end Tables

def Covers (r : Ire) (a : Addr) : Prop := a &&& r.mask = r.addr &&& r.mask

/-- A route stands in the chain of its mask and its address. -/
structure Stored (i h : Nat) (r : Ire) : Prop where
  contiguous : Contiguous r.mask
  index : ipMaskIndex r.mask = i
  hash : ineAddrHash (r.addr &&& r.mask) ipHashTableSize = h
  forward : r.type.cachetable = false
  default_mask : r.type = .defaultRoute → r.mask = 0

structure Coherent (t : Tables) (c : Ire) : Prop where
  alive : ∃ r, t.Route r ∧ r.chandle = c.chandle
  longest : ∀ r, t.Route r → Covers r c.addr → ipMaskIndex r.mask ≤ ipMaskIndex c.cmask

/-- The parent of a cache entry is there, and its gateway is the one of the entry. -/
structure Parented (t : Tables) (c : Ire) : Prop where
  contiguous : Contiguous c.cmask
  alive : ∃ r, t.Route r ∧ r.chandle = c.chandle ∧ r.gateway = c.gateway
  longest : ∀ r, t.Route r → Covers r c.addr → ipMaskIndex r.mask ≤ ipMaskIndex c.cmask

structure WellFormed (t : Tables) : Prop where
  stored : ∀ i tab h r, t.ftable i = some tab → r ∈ tab h → Stored i h r
  size : ∀ h c, c ∈ t.ctable h → h < ipCacheTableSize

/-- Every cache entry with a parent has it still, but for those of a gateway that is going. -/
structure Kept (t : Tables) (going : Option Addr) : Prop where
  wf : WellFormed t
  parented : ∀ c, t.Cached c → c.parent = true → going ≠ some c.gateway → Parented t c

lemma Parented.coherent (h : Parented t c) : Coherent t c := by
  obtain ⟨r, hr, hhandle, -⟩ := h.alive
  exact ⟨⟨r, hr, hhandle⟩, h.longest⟩

lemma WellFormed.route (h : WellFormed t) (hr : t.Route r) : ∃ i k, Stored i k r := by
  obtain ⟨i, tab, k, htab, hmem⟩ := hr
  exact ⟨i, k, h.stored i tab k r htab hmem⟩

end Invariant

section Lookup

variable {crit : Criteria}

/-- A route with a contiguous mask stands where a lookup searches for it. -/
structure Searchable (i h : Nat) (r : Ire) : Prop where
  contiguous : Contiguous r.mask
  index : ipMaskIndex r.mask = i
  hash : ineAddrHash (r.addr &&& r.mask) ipHashTableSize = h

lemma Stored.searchable {i k : Nat} (h : Stored i k r) : Searchable i k r := ⟨h.contiguous, h.index, h.hash⟩

lemma matchArgs_iff : crit.matchArgs r a r.mask = true ↔ Covers r a ∧ crit.admits r = true := by
  rw [Criteria.matchArgs, Bool.and_eq_true, beq_iff_eq, Covers, eq_comm]

theorem Searchable.chain {i k : Nat} (h : Searchable i k r) (hc : Covers r a) :
    k = ineAddrHash (a &&& ipMapMsizeToMask i) ipHashTableSize := by
  rw [← h.hash, ← h.index, h.contiguous.msize_index, hc]

theorem search_spec (h : ∀ i tab k r, t.ftable i = some tab → r ∈ tab k → Searchable i k r) (a : Addr)
    (crit : Criteria) (n : Nat) :
    (∀ r, crit.searchMasks t a n = some r →
      t.Route r ∧ Covers r a ∧ crit.admits r = true ∧ 0 < ipMaskIndex r.mask) ∧
      ∀ r', t.Route r' → Covers r' a → crit.admits r' = true → 0 < ipMaskIndex r'.mask → ipMaskIndex r'.mask ≤ n →
        ∃ r, crit.searchMasks t a n = some r ∧ ipMaskIndex r'.mask ≤ ipMaskIndex r.mask := by
  induction n with
  | zero =>
    refine ⟨fun r hr => by simp [Criteria.searchMasks] at hr, ?_⟩
    intro r' _ _ _ hpos hle
    omega
  | succ n ih =>
    obtain ⟨ihfound, ihlong⟩ := ih
    unfold Criteria.searchMasks
    cases hs : (t.ftable (n + 1)).bind fun tab =>
        (tab (ineAddrHash (a &&& ipMapMsizeToMask (n + 1)) ipHashTableSize)).find? fun ire =>
          crit.matchArgs ire a ire.mask with
    | some r =>
      obtain ⟨tab, htab, hfind⟩ := Option.bind_eq_some_iff.mp hs
      have hmem := mem_of_find?_eq_some hfind
      have hmatch := find?_some hfind
      obtain ⟨hcov, hadm⟩ := matchArgs_iff.mp hmatch
      have hindex := (h _ tab _ r htab hmem).index
      refine ⟨?_, ?_⟩
      · rintro r' hr'
        cases hr'
        exact ⟨⟨n + 1, tab, _, htab, hmem⟩, hcov, hadm, by omega⟩
      · intro r' _ _ _ _ hle
        exact ⟨r, rfl, by omega⟩
    | none =>
      refine ⟨ihfound, ?_⟩
      intro r' hr' hc hadm hpos hle
      refine ihlong r' hr' hc hadm hpos ?_
      -- a route with a mask of this length would have been found
      obtain ⟨i, tab, k, htab, hmem⟩ := hr'
      have hplace := h i tab k r' htab hmem
      have hne : i ≠ n + 1 := by
        rintro rfl
        rw [htab, Option.bind_some, find?_eq_none] at hs
        rw [hplace.chain hc] at hmem
        exact hs r' hmem (matchArgs_iff.mpr ⟨hc, hadm⟩)
      have := hplace.index
      omega

lemma searchMasks_dstOnly (t : Tables) (a : Addr) (n : Nat) :
    searchMasks t a ⟨none, none, none, none⟩ n = Criteria.dstOnly.searchMasks t a n := by
  induction n with
  | zero => rfl
  | succ n ih =>
    have hmatch : ∀ (r : Ire), ireMatchArgs r a r.mask ⟨none, none, none, none⟩ = Criteria.dstOnly.matchArgs r a r.mask := by
      intro r
      simp [ireMatchArgs, Criteria.matchArgs, Criteria.admits, Criteria.dstOnly]
    unfold searchMasks Criteria.searchMasks
    simp only [hmatch, ih]

lemma searchMasks_spec (h : WellFormed t) (a : Addr) (n : Nat) :
    (∀ r, searchMasks t a ⟨none, none, none, none⟩ n = some r → t.Route r ∧ 0 < ipMaskIndex r.mask) ∧
      ∀ r', t.Route r' → Covers r' a → 0 < ipMaskIndex r'.mask → ipMaskIndex r'.mask ≤ n →
        ∃ r, searchMasks t a ⟨none, none, none, none⟩ n = some r ∧ ipMaskIndex r'.mask ≤ ipMaskIndex r.mask := by
  rw [searchMasks_dstOnly]
  obtain ⟨hfound, hlong⟩ := search_spec (fun i tab k r htab hr => (h.stored i tab k r htab hr).searchable) a .dstOnly n
  refine ⟨?_, ?_⟩
  · intro r hr
    obtain ⟨hroute, -, -, hpos⟩ := hfound r hr
    exact ⟨hroute, hpos⟩
  · intro r' hr' hc
    exact hlong r' hr' hc rfl

lemma nthGateway_mem (l : List Ire) (n : Nat) (h : nthGateway l n = some r) : r ∈ l := by
  induction l, n using nthGateway.induct with
  | case1 n => simp [nthGateway] at h
  | case2 n ire =>
    cases h
    simp
  | case3 ire ire' rest =>
    cases h
    simp
  | case4 n ire ire' rest ih =>
    exact mem_cons_of_mem _ (ih h)

lemma ireFtableLookup_spec (h : WellFormed t) (hfound : (ireFtableLookup t a).1 = some r) :
    t.Route r ∧ ∀ r', t.Route r' → Covers r' a → ipMaskIndex r'.mask ≤ ipMaskIndex r.mask := by
  obtain ⟨hroute, hlong⟩ := searchMasks_spec h a 32
  unfold ireFtableLookup at hfound
  cases hs : searchMasks t a ⟨none, none, none, none⟩ 32 with
  | some r0 =>
    rw [hs] at hfound hroute hlong
    cases hfound
    refine ⟨(hroute r rfl).1, ?_⟩
    intro r' hr' hc
    obtain ⟨i, k, hstored⟩ := h.route hr'
    by_cases hpos : 0 < ipMaskIndex r'.mask
    · obtain ⟨r1, hr1, hle⟩ := hlong r' hr' hc hpos hstored.contiguous.index_le
      cases hr1
      exact hle
    · omega
  | none =>
    rw [hs] at hfound hlong
    have hzero : ∀ r', t.Route r' → Covers r' a → ipMaskIndex r'.mask = 0 := by
      intro r' hr' hc
      obtain ⟨i, k, hstored⟩ := h.route hr'
      by_contra hne
      obtain ⟨r1, hr1, -⟩ := hlong r' hr' hc (pos_of_ne_zero hne) hstored.contiguous.index_le
      cases hr1
    have hres : t.Route r := by
      cases htab : t.ftable 0 with
      | none => simp [htab] at hfound
      | some tab =>
        cases hchain : tab 0 with
        | nil => simp [htab, hchain] at hfound
        | cons r0 rest =>
          refine ⟨0, tab, 0, htab, ?_⟩
          rw [hchain]
          simp only [htab, hchain] at hfound
          by_cases hcount : t.defGatewayCount = 0
          · rw [if_pos hcount] at hfound
            cases hfound
            simp
          · rw [if_neg hcount] at hfound
            exact nthGateway_mem _ _ hfound
    refine ⟨hres, ?_⟩
    intro r' hr' hc
    rw [hzero r' hr' hc]
    exact zero_le _

end Lookup

end Cache

end Solaris.Routing
