import Solaris.Blocks.Block

/-!
# Counts of data blocks

Any number of data blocks, made by `allocb` and `[d]esballoc[a]`, with all the message blocks on them. A data block that
has been given back waits in its cache in the state in which its last message block has left it.
-/

namespace Solaris.Blocks

open List Function Nat

inductive Flavour where
  | allocb (index : Nat)
  | esballoc (base size : Nat) (unsafeHeld : Bool)
  | desballoc (base size : Nat)
  | esballoca (base size : Nat)
  | desballoca (base size : Nat)
  | allocbOversize (base size : Nat)

def Flavour.cache : Flavour → Option Nat
  | .allocb index => some index
  | _ => none

def Flavour.alloc (d : Nat) (dbp : Dblk) : Flavour → Mblk × Dblk
  | .allocb _ => Blocks.allocb d dbp
  | .esballoc base size unsafeHeld => Blocks.esballoc d dbp base size unsafeHeld
  | .desballoc base size => Blocks.desballoc d dbp base size
  | .esballoca base size => Blocks.esballoca d dbp base size
  | .desballoca base size => Blocks.desballoca d dbp base size
  | .allocbOversize base size => Blocks.allocbOversize d dbp base size

/-- All data blocks and message blocks, with the calls of an allocator and of `db_lastfree` so far. -/
structure State where
  heap : Heap
  cached : List (Nat × Dblk)
  live : List Mblk
  created : List Nat
  lastfreed : List Nat

/-- `kmem_cache_alloc(mblk_cache)` returns no block that is in use or attached. -/
def Fresh (s : State) (a : Nat) : Prop := a ∉ s.live.map Mblk.addr ∧ a ∉ s.cached.map fun p => p.2.dbMblk

/-- What `kmem_cache_alloc` returns of a cache of data blocks, and what is left in the caches. -/
inductive Taken (s : State) (cache : Option Nat) : Nat → Dblk → List (Nat × Dblk) → Prop
  | reused {l r : List (Nat × Dblk)} {d : Nat} {dbp : Dblk} (hl : s.cached = l ++ (d, dbp) :: r)
      (hcache : dbp.dbCache = cache) : Taken s cache d dbp (l ++ r)
  | constructed {d : Nat} (base size : Nat) {mblk : Nat} (data : Nat → UInt8) (hheap : s.heap d = none)
      (hcached : d ∉ s.cached.map Prod.fst) (hmblk : Fresh s mblk) :
      Taken s cache d (dblkConstructor cache base size mblk data) s.cached

def State.freeb (s : State) (mp : Mblk) : Option State :=
  match s.heap mp.bDatap, Blocks.freeb s.heap mp with
  | some _, some (.mblk _, h') => some { s with heap := h', live := s.live.erase mp }
  | some dbp, some (.dblk _ _, h') => some
    { s with
      heap := h'
      cached := (mp.bDatap, (dbp.free mp.addr).2) :: s.cached
      live := s.live.erase mp
      lastfreed := mp.bDatap :: s.lastfreed }
  | _, _ => none

inductive Step : State → State → Prop
  | alloc {s : State} (f : Flavour) {d : Nat} {dbp : Dblk} {cached : List (Nat × Dblk)}
      (htaken : Taken s f.cache d dbp cached) :
      Step s ⟨update s.heap d (some (f.alloc d dbp).2), cached, (f.alloc d dbp).1 :: s.live, d :: s.created,
        s.lastfreed⟩
  | dupb {s : State} {mp mp' : Mblk} {new : Option Nat} {h' : Heap} (hmp : mp ∈ s.live)
      (hnew : ∀ a, new = some a → Fresh s a) (hres : Blocks.dupb s.heap mp new = some (some mp', h')) :
      Step s { s with heap := h', live := mp' :: s.live }
  | dupbFailed {s : State} {mp : Mblk} {new : Option Nat} {h' : Heap} (hmp : mp ∈ s.live)
      (hres : Blocks.dupb s.heap mp new = some (none, h')) : Step s { s with heap := h' }
  | freeb {s s' : State} {mp : Mblk} (hmp : mp ∈ s.live) (hres : s.freeb mp = some s') : Step s s'

inductive Reachable : State → Prop
  | start : Reachable ⟨fun _ => none, [], [], [], []⟩
  | step {s s' : State} (h : Reachable s) (hstep : Step s s') : Reachable s'

def inUse : Option Dblk → Nat
  | some _ => 1
  | none => 0

def refs (live : List Mblk) (d : Nat) : Nat := live.countP fun mp => mp.bDatap = d

structure Counts (live : List Mblk) (d : Nat) (dbp : Dblk) : Prop where
  pos : 0 < refs live d
  ref : dbp.dbRef.toNat = refs live d + dbp.refmin
  method : dbp.dbFree = .dblkDecref ∨
    (dbp.dbFree = .last dbp.dbLastfree ∧ refs live d = 1 ∧ ∀ mp ∈ live, mp.bDatap = d → mp.addr = dbp.dbMblk)

structure Invariant (s : State) : Prop where
  counts : ∀ d dbp, s.heap d = some dbp → Counts s.live d dbp
  used : ∀ mp ∈ s.live, ∃ dbp, s.heap mp.bDatap = some dbp
  addrs : (s.live.map Mblk.addr ++ s.cached.map fun p => p.2.dbMblk).Nodup
  idle : (s.cached.map Prod.fst).Nodup
  ready : ∀ p ∈ s.cached, s.heap p.1 = none ∧ p.2.dbFree = .last p.2.dbLastfree
  balance : ∀ d, s.created.count d = s.lastfreed.count d + inUse (s.heap d)

variable {s s' : State} {mp mp' : Mblk} {live : List Mblk} {d : Nat} {dbp : Dblk} {f : Flavour}

lemma refs_cons (mp : Mblk) (live : List Mblk) (d : Nat) :
    refs (mp :: live) d = refs live d + if mp.bDatap = d then 1 else 0 := by
  unfold refs
  rw [countP_cons]
  simp

lemma refs_perm {live' : List Mblk} (h : live.Perm live') (d : Nat) : refs live d = refs live' d := h.countP_eq _

lemma refs_erase (hmp : mp ∈ live) (d : Nat) :
    refs live d = refs (live.erase mp) d + if mp.bDatap = d then 1 else 0 := by
  rw [refs_perm (perm_cons_erase hmp), refs_cons]

lemma refs_eq_zero : refs live d = 0 ↔ ∀ mp ∈ live, mp.bDatap ≠ d := by
  unfold refs
  simp [countP_eq_zero]

lemma setRefTypeFlag_ref {rtfu : BitVec 32} (dbp : Dblk)
    (href : (rtfu.extractLsb' 24 8).toNat = 1 + (rtfu.extractLsb' 8 8 &&& DBLK_REFMIN).toNat) :
    (dbp.setRefTypeFlag rtfu).dbRef.toNat = 1 + (dbp.setRefTypeFlag rtfu).refmin := href

lemma alloc_spec (f : Flavour) (d : Nat) (hdbp : dbp.dbFree = .last dbp.dbLastfree) :
    (f.alloc d dbp).1.bDatap = d ∧ (f.alloc d dbp).1.addr = dbp.dbMblk ∧ (f.alloc d dbp).2.dbMblk = dbp.dbMblk ∧
      (f.alloc d dbp).2.dbRef.toNat = 1 + (f.alloc d dbp).2.refmin ∧
      (f.alloc d dbp).2.dbFree = .last (f.alloc d dbp).2.dbLastfree := by
  cases f with
  | allocb index => exact ⟨rfl, rfl, rfl, setRefTypeFlag_ref _ (by decide), hdbp⟩
  | esballoc base size unsafeHeld =>
    cases unsafeHeld
    · exact ⟨rfl, rfl, rfl, setRefTypeFlag_ref _ (by decide), rfl⟩
    · exact ⟨rfl, rfl, rfl, setRefTypeFlag_ref _ (by decide), rfl⟩
  | desballoc base size => exact ⟨rfl, rfl, rfl, setRefTypeFlag_ref _ (by decide), rfl⟩
  | esballoca base size => exact ⟨rfl, rfl, rfl, setRefTypeFlag_ref _ (by decide), rfl⟩
  | desballoca base size => exact ⟨rfl, rfl, rfl, setRefTypeFlag_ref _ (by decide), rfl⟩
  | allocbOversize base size => exact ⟨rfl, rfl, rfl, setRefTypeFlag_ref _ (by decide), rfl⟩

lemma Counts.other {live' : List Mblk} (h : Counts live d dbp) (hrefs : refs live' d = refs live d)
    (hmem : ∀ mp ∈ live', mp.bDatap = d → mp ∈ live) : Counts live' d dbp := by
  refine ⟨by rw [hrefs]; exact h.pos, by rw [hrefs]; exact h.ref, ?_⟩
  rcases h.method with hm | ⟨hm, hone, hatt⟩
  · exact .inl hm
  · exact .inr ⟨hm, hrefs.trans hone, fun mp hmp hd => hatt mp (hmem mp hmp hd) hd⟩

lemma Invariant.alloc (h : Invariant s) {cached : List (Nat × Dblk)} (htaken : Taken s f.cache d dbp cached) :
    Invariant ⟨update s.heap d (some (f.alloc d dbp).2), cached, (f.alloc d dbp).1 :: s.live, d :: s.created,
      s.lastfreed⟩ := by
  -- what both ways to take a data block have in common
  have hcommon : s.heap d = none ∧ dbp.dbFree = .last dbp.dbLastfree ∧
      (dbp.dbMblk :: s.live.map Mblk.addr ++ cached.map fun p => p.2.dbMblk).Nodup ∧ (cached.map Prod.fst).Nodup ∧
      (∀ p ∈ cached, p ∈ s.cached ∧ p.1 ≠ d) := by
    cases htaken with
    | @reused l r _ _ hl hcache =>
      have hidle := h.idle
      have haddrs := h.addrs
      obtain ⟨hheap, hfree⟩ := h.ready (d, dbp) (by simp [hl])
      rw [hl] at hidle haddrs
      rw [map_append, map_cons, nodup_middle, nodup_cons, ← map_append] at hidle
      rw [map_append, map_cons, ← append_assoc, nodup_middle] at haddrs
      refine ⟨hheap, hfree, ?_, hidle.2, ?_⟩
      · rw [map_append, cons_append, ← append_assoc]
        exact haddrs
      · intro p hp
        refine ⟨?_, ?_⟩
        · rw [hl]
          rcases mem_append.mp hp with hp | hp
          · exact mem_append_left _ hp
          · exact mem_append_right _ (mem_cons_of_mem _ hp)
        · intro hpd
          exact hidle.1 (mem_map.mpr ⟨p, hp, hpd⟩)
    | constructed base size data hheap hcached hmblk =>
      refine ⟨hheap, rfl, ?_, h.idle, ?_⟩
      · rw [cons_append, nodup_cons]
        refine ⟨?_, h.addrs⟩
        rw [mem_append]
        rintro (hmem | hmem)
        · exact hmblk.1 hmem
        · exact hmblk.2 hmem
      · intro p hp
        refine ⟨hp, ?_⟩
        rintro rfl
        exact hcached (mem_map_of_mem hp)
  obtain ⟨hheap, hfree, haddrs, hidle, hcached⟩ := hcommon
  obtain ⟨hd, haddr, hmblk, href, hmethod⟩ := alloc_spec f d hfree
  have hunused : ∀ mp ∈ s.live, mp.bDatap ≠ d := by
    rintro mp hmp rfl
    obtain ⟨dbp', hdbp'⟩ := h.used mp hmp
    rw [hheap] at hdbp'
    cases hdbp'
  have hzero : refs s.live d = 0 := refs_eq_zero.mpr hunused
  have hrefs : refs ((f.alloc d dbp).1 :: s.live) d = 1 := by rw [refs_cons, hzero, if_pos hd]
  refine ⟨?_, ?_, ?_, hidle, ?_, ?_⟩
  · intro e dbp' he
    dsimp only at he ⊢
    by_cases hde : e = d
    · subst hde
      rw [update_self] at he
      obtain rfl := Option.some.inj he
      refine ⟨by omega, by rw [hrefs]; exact href, .inr ⟨hmethod, hrefs, ?_⟩⟩
      intro mp hmp hmd
      rcases mem_cons.mp hmp with rfl | hmp
      · rw [haddr, hmblk]
      · exact absurd hmd (hunused mp hmp)
    rw [update_of_ne hde] at he
    refine (h.counts e dbp' he).other ?_ ?_
    · rw [refs_cons, if_neg (by rw [hd]; exact Ne.symm hde), add_zero]
    · intro mp hmp hmd
      rcases mem_cons.mp hmp with rfl | hmp
      · exact absurd (hd.symm.trans hmd) (Ne.symm hde)
      · exact hmp
  · intro mp hmp
    dsimp only at hmp ⊢
    rcases mem_cons.mp hmp with rfl | hmp
    · exact ⟨_, by rw [hd, update_self]⟩
    · rw [update_of_ne (hunused mp hmp)]
      exact h.used mp hmp
  · dsimp only
    rw [map_cons, haddr]
    exact haddrs
  · intro p hp
    obtain ⟨hps, hpd⟩ := hcached p hp
    dsimp only
    rw [update_of_ne hpd]
    exact h.ready p hps
  · intro e
    have hbal := h.balance e
    dsimp only
    rw [count_cons]
    by_cases hde : e = d
    · subst hde
      rw [hheap] at hbal
      rw [update_self, beq_self_eq_true, if_pos rfl, hbal]
      rfl
    · rw [update_of_ne hde, if_neg (by simpa using Ne.symm hde)]
      exact hbal

/-- `dupb` fails for want of a message block, or at the limit, and then leaves the data block as it was. -/
def DupFailsOnly (s : State) : Prop :=
  ∀ mp ∈ s.live, ∀ new, ∃ dbp, s.heap mp.bDatap = some dbp ∧
    ((new = none ∨ dbp.dbRef = 255) → dupb s.heap mp new = some (none, s.heap)) ∧
    (¬(new = none ∨ dbp.dbRef = 255) → ∃ mp' dbp', dupb s.heap mp new =
      some (some mp', update s.heap mp.bDatap (some dbp')) ∧ mp'.bDatap = mp.bDatap ∧ new = some mp'.addr)

/-- The last message block takes its data block along, by `db_lastfree`; every other one goes back alone. -/
def FreesOnce (s : State) : Prop :=
  ∀ mp ∈ s.live, ∃ dbp, s.heap mp.bDatap = some dbp ∧
    freeb s.heap mp =
      if refs s.live mp.bDatap = 1 then some (.dblk dbp.dbLastfree mp.addr, update s.heap mp.bDatap none)
      else some (.mblk mp.addr, update s.heap mp.bDatap (some { dbp with dbRef := dbp.dbRef - 1 }))

lemma Invariant.dupb_cases (h : Invariant s) (hmp : mp ∈ s.live) (new : Option Nat) :
    ∃ dbp, s.heap mp.bDatap = some dbp ∧ Counts s.live mp.bDatap dbp ∧
      ((new = none ∨ dbp.dbRef = 255) ∧ dupb s.heap mp new = some (none, s.heap) ∨
        ∃ a, new = some a ∧ dbp.dbRef ≠ 255 ∧ dupb s.heap mp new = some (some { mp with addr := a },
          update s.heap mp.bDatap (some { dbp with dbFree := .dblkDecref, dbRef := dbp.dbRef + 1 }))) := by
  obtain ⟨dbp, hd⟩ := h.used mp hmp
  have hc := h.counts _ dbp hd
  have hfree : dbp.dbFree = .dblkDecref ∨ dbp.dbRef.toNat = 1 + dbp.refmin := by
    rcases hc.method with hm | ⟨_, hone, _⟩
    · exact .inl hm
    · exact .inr (by rw [hc.ref, hone])
  have heq := dupb_eq hd hfree new
  refine ⟨dbp, hd, hc, ?_⟩
  cases new with
  | none => exact .inl ⟨.inl rfl, heq⟩
  | some a =>
    dsimp only at heq
    by_cases hlim : dbp.dbRef = 255
    · rw [if_pos hlim] at heq
      exact .inl ⟨.inr hlim, heq⟩
    · rw [if_neg hlim] at heq
      exact .inr ⟨a, rfl, hlim, heq⟩

lemma Invariant.dupFailsOnly (h : Invariant s) : DupFailsOnly s := by
  intro mp hmp new
  obtain ⟨dbp, hd, _, ⟨hcase, hres⟩ | ⟨a, rfl, hlim, hres⟩⟩ := h.dupb_cases hmp new
  · exact ⟨dbp, hd, fun _ => hres, fun hno => absurd hcase hno⟩
  · refine ⟨dbp, hd, ?_, fun _ => ⟨_, _, hres, rfl, rfl⟩⟩
    rintro (hnone | hlim')
    · cases hnone
    · exact absurd hlim' hlim

lemma Invariant.dupb (h : Invariant s) (hmp : mp ∈ s.live) {new : Option Nat} {h' : Heap}
    (hnew : ∀ a, new = some a → Fresh s a) (hres : Blocks.dupb s.heap mp new = some (some mp', h')) :
    Invariant { s with heap := h', live := mp' :: s.live } := by
  obtain ⟨dbp, hd, hc, ⟨_, hres'⟩ | ⟨a, rfl, hlim, hres'⟩⟩ := h.dupb_cases hmp new
  · rw [hres] at hres'
    cases hres'
  rw [hres] at hres'
  obtain ⟨hmp', rfl⟩ := Prod.mk.inj (Option.some.inj hres')
  obtain rfl := Option.some.inj hmp'
  have hfresh := hnew a rfl
  have hlt : dbp.dbRef.toNat < 255 := by
    have hne : dbp.dbRef.toNat ≠ 255 := fun heq => hlim (BitVec.eq_of_toNat_eq heq)
    omega
  refine ⟨?_, ?_, ?_, h.idle, ?_, ?_⟩
  · intro e dbp' he
    dsimp only at he ⊢
    by_cases hde : e = mp.bDatap
    · subst hde
      rw [update_self] at he
      obtain rfl := Option.some.inj he
      have hrefs : refs ({ mp with addr := a } :: s.live) mp.bDatap = refs s.live mp.bDatap + 1 := by
        rw [refs_cons, if_pos rfl]
      refine ⟨by omega, ?_, .inl rfl⟩
      have href : (dbp.dbRef + 1).toNat = refs s.live mp.bDatap + 1 + dbp.refmin := by
        rw [ref_succ hlt, hc.ref]
        omega
      rw [hrefs]
      exact href
    · rw [update_of_ne hde] at he
      refine (h.counts e dbp' he).other ?_ ?_
      · rw [refs_cons, if_neg (Ne.symm hde), add_zero]
      · intro mp1 hmp1 hmd
        rcases mem_cons.mp hmp1 with rfl | hmp1
        · exact absurd hmd (Ne.symm hde)
        · exact hmp1
  · intro mp1 hmp1
    dsimp only at hmp1 ⊢
    by_cases hde : mp1.bDatap = mp.bDatap
    · exact ⟨_, by rw [hde, update_self]⟩
    · rw [update_of_ne hde]
      rcases mem_cons.mp hmp1 with rfl | hmp1
      · exact absurd rfl hde
      · exact h.used mp1 hmp1
  · dsimp only
    rw [map_cons, cons_append, nodup_cons, mem_append]
    refine ⟨?_, h.addrs⟩
    rintro (hmem | hmem)
    · exact hfresh.1 hmem
    · exact hfresh.2 hmem
  · intro p hp
    obtain ⟨hnone, hfree⟩ := h.ready p hp
    dsimp only
    rw [update_of_ne]
    · exact ⟨hnone, hfree⟩
    · intro heq
      rw [heq, hd] at hnone
      cases hnone
  · intro e
    have hbal := h.balance e
    dsimp only
    by_cases hde : e = mp.bDatap
    · subst hde
      rw [update_self, hbal, hd]
      rfl
    · rw [update_of_ne hde]
      exact hbal

lemma Invariant.freeb_cases (h : Invariant s) (hmp : mp ∈ s.live) :
    ∃ dbp, s.heap mp.bDatap = some dbp ∧ Counts s.live mp.bDatap dbp ∧
      ((refs s.live mp.bDatap = 1 ∧
        freeb s.heap mp = some (.dblk dbp.dbLastfree mp.addr, update s.heap mp.bDatap none) ∧
        (dbp.free mp.addr).2.dbMblk = mp.addr ∧
        (dbp.free mp.addr).2.dbFree = .last (dbp.free mp.addr).2.dbLastfree) ∨
      (refs s.live mp.bDatap ≠ 1 ∧ dbp.dbFree = .dblkDecref ∧ (dbp.dbRef - 1).toNat + 1 = dbp.dbRef.toNat ∧
        freeb s.heap mp =
          some (.mblk mp.addr, update s.heap mp.bDatap (some { dbp with dbRef := dbp.dbRef - 1 })))) := by
  obtain ⟨dbp, hd⟩ := h.used mp hmp
  have hc := h.counts _ dbp hd
  refine ⟨dbp, hd, hc, ?_⟩
  by_cases hone : refs s.live mp.bDatap = 1
  · left
    have hlast : dbp.dbRef.toNat = 1 + dbp.refmin := by rw [hc.ref, hone]
    have hfree : dbp.dbFree = .dblkDecref ∨ dbp.dbFree = .last dbp.dbLastfree := hc.method.imp_right fun hm => hm.1
    refine ⟨hone, freeb_last hd hfree hlast, ?_, ?_⟩
    · rw [free_last hfree hlast]
      rcases hc.method with hm | ⟨hm, _, hatt⟩
      · rw [if_pos hm]
      · rw [if_neg (by simp [hm]), hatt mp hmp rfl]
    · rw [free_last hfree hlast]
  · right
    have hm : dbp.dbFree = .dblkDecref := hc.method.resolve_right fun hm => hone hm.2.1
    have hpos := hc.pos
    have href := hc.ref
    have hmore : dbp.refmin + 1 < dbp.dbRef.toNat := by omega
    exact ⟨hone, hm, (free_more (a := mp.addr) hm hmore).2, freeb_more hd hm hmore⟩

lemma Invariant.freesOnce (h : Invariant s) : FreesOnce s := by
  intro mp hmp
  obtain ⟨dbp, hd, _, ⟨hone, hres, _⟩ | ⟨hmore, _, _, hres⟩⟩ := h.freeb_cases hmp
  · exact ⟨dbp, hd, by rw [if_pos hone, hres]⟩
  · exact ⟨dbp, hd, by rw [if_neg hmore, hres]⟩

lemma Invariant.freeb (h : Invariant s) (hmp : mp ∈ s.live) (hres : s.freeb mp = some s') : Invariant s' := by
  have hsub : (s.live.erase mp).Sublist s.live := erase_sublist
  have hothers : ∀ e dbp', e ≠ mp.bDatap → s.heap e = some dbp' → Counts (s.live.erase mp) e dbp' := by
    intro e dbp' hne he
    refine (h.counts e dbp' he).other ?_ fun mp1 hmp1 _ => hsub.subset hmp1
    have := refs_erase hmp e
    rw [if_neg (Ne.symm hne), add_zero] at this
    exact this.symm
  have hone' := refs_erase hmp mp.bDatap
  rw [if_pos rfl] at hone'
  unfold State.freeb at hres
  obtain ⟨dbp, hd, hc, ⟨hone, heff, hatt, hfree⟩ | ⟨hmore, hdec, href, heff⟩⟩ := h.freeb_cases hmp
  · rw [hd, heff] at hres
    obtain rfl := Option.some.inj hres
    have hgone : ∀ mp1 ∈ s.live.erase mp, mp1.bDatap ≠ mp.bDatap := refs_eq_zero.mp (by omega)
    refine ⟨?_, ?_, ?_, ?_, ?_, ?_⟩
    · intro e dbp' he
      dsimp only at he ⊢
      by_cases hde : e = mp.bDatap
      · rw [hde, update_self] at he
        cases he
      · rw [update_of_ne hde] at he
        exact hothers e dbp' hde he
    · intro mp1 hmp1
      dsimp only at hmp1 ⊢
      rw [update_of_ne (hgone mp1 hmp1)]
      exact h.used mp1 (hsub.subset hmp1)
    · dsimp only
      rw [map_cons, hatt, nodup_middle, ← cons_append, ← map_cons]
      have hperm := ((perm_cons_erase hmp).map Mblk.addr).append_right (s.cached.map fun p => p.2.dbMblk)
      exact hperm.nodup_iff.mp h.addrs
    · dsimp only
      rw [map_cons, nodup_cons]
      refine ⟨?_, h.idle⟩
      rw [mem_map]
      rintro ⟨p, hp, heq⟩
      have hnone := (h.ready p hp).1
      rw [heq, hd] at hnone
      cases hnone
    · intro p hp
      dsimp only at hp ⊢
      rcases mem_cons.mp hp with rfl | hp
      · exact ⟨update_self .., hfree⟩
      · obtain ⟨hnone, hlast⟩ := h.ready p hp
        refine ⟨?_, hlast⟩
        by_cases hde : p.1 = mp.bDatap
        · rw [hde, update_self]
        · rw [update_of_ne hde, hnone]
    · intro e
      have hbal := h.balance e
      dsimp only
      rw [count_cons]
      by_cases hde : e = mp.bDatap
      · subst hde
        rw [hd] at hbal
        rw [update_self, beq_self_eq_true, if_pos rfl, hbal]
        rfl
      · rw [update_of_ne hde, if_neg (by simpa using Ne.symm hde)]
        exact hbal
  · rw [hd, heff] at hres
    obtain rfl := Option.some.inj hres
    refine ⟨?_, ?_, ?_, h.idle, ?_, ?_⟩
    · intro e dbp' he
      dsimp only at he ⊢
      by_cases hde : e = mp.bDatap
      · subst hde
        rw [update_self] at he
        obtain rfl := Option.some.inj he
        have hold := hc.ref
        have hnew : (dbp.dbRef - 1).toNat = refs (s.live.erase mp) mp.bDatap + dbp.refmin := by omega
        exact ⟨by omega, hnew, .inl hdec⟩
      · rw [update_of_ne hde] at he
        exact hothers e dbp' hde he
    · intro mp1 hmp1
      dsimp only at hmp1 ⊢
      by_cases hde : mp1.bDatap = mp.bDatap
      · exact ⟨_, by rw [hde, update_self]⟩
      · rw [update_of_ne hde]
        exact h.used mp1 (hsub.subset hmp1)
    · exact h.addrs.sublist ((hsub.map Mblk.addr).append_right _)
    · intro p hp
      obtain ⟨hnone, hlast⟩ := h.ready p hp
      refine ⟨?_, hlast⟩
      dsimp only
      rw [update_of_ne, hnone]
      intro heq
      rw [heq, hd] at hnone
      cases hnone
    · intro e
      have hbal := h.balance e
      dsimp only
      by_cases hde : e = mp.bDatap
      · subst hde
        rw [update_self, hbal, hd]
        rfl
      · rw [update_of_ne hde]
        exact hbal

lemma Reachable.invariant (h : Reachable s) : Invariant s := by
  induction h with
  | start =>
    refine ⟨?_, by simp, by simp, by simp, by simp, fun d => rfl⟩
    rintro d dbp ⟨⟩
  | step _ hstep ih =>
    cases hstep with
    | alloc f htaken => exact ih.alloc htaken
    | dupb hmp hnew hres => exact ih.dupb hmp hnew hres
    | dupbFailed hmp hres =>
      obtain ⟨dbp, _, _, ⟨_, hres'⟩ | ⟨a, _, _, hres'⟩⟩ := ih.dupb_cases hmp _
      · rw [hres] at hres'
        obtain ⟨_, rfl⟩ := Prod.mk.inj (Option.some.inj hres')
        exact ih
      · rw [hres] at hres'
        cases hres'
    | freeb hmp hres => exact ih.freeb hmp hres

def Counted (h : Heap) (m : List Mblk) : Prop :=
  ∀ mp ∈ m, ∃ dbp, h mp.bDatap = some dbp ∧ refs m mp.bDatap + dbp.refmin ≤ dbp.dbRef.toNat ∧
    (dbp.dbFree = .dblkDecref ∨ (dbp.dbFree = .last dbp.dbLastfree ∧ dbp.dbRef.toNat = 1 + dbp.refmin))

/-- A data block in use counts its message blocks; `dupb` fails only at the limit or for want of memory; and each data
block is given back once, with its last message block. -/
theorem dblk_counted (h : Reachable s) :
    (∀ d, (∃ dbp, s.heap d = some dbp) ↔ 0 < refs s.live d) ∧
      (∀ d dbp, s.heap d = some dbp → dbp.dbRef.toNat = refs s.live d + dbp.refmin ∧ dbp.dbRef.toNat ≤ 255) ∧
      DupFailsOnly s ∧ FreesOnce s ∧ (∀ d, s.created.count d = s.lastfreed.count d + inUse (s.heap d)) := by
  have hinv := h.invariant
  refine ⟨?_, ?_, hinv.dupFailsOnly, hinv.freesOnce, hinv.balance⟩
  · intro d
    constructor
    · rintro ⟨dbp, hd⟩
      exact (hinv.counts d dbp hd).pos
    · intro hpos
      by_contra hno
      have hzero : refs s.live d = 0 := by
        refine refs_eq_zero.mpr ?_
        rintro mp hmp rfl
        exact hno (hinv.used mp hmp)
      omega
  · intro d dbp hd
    exact ⟨(hinv.counts d dbp hd).ref, by omega⟩

/-- The data block that `esballoca` makes of a new one with the message block 50. -/
def sampleDblk : Dblk := (Flavour.alloc 7 (dblkConstructor none 0 0 50 fun _ => 0) (.esballoca 1000 64)).2

/-- `esballoca` and one `dupb`. -/
def sampleState : State where
  heap := update (update (fun _ => none) 7 (some sampleDblk)) 7
    (some { sampleDblk with dbFree := .dblkDecref, dbRef := sampleDblk.dbRef + 1 })
  cached := []
  live := [⟨51, 7, 1000, 1000, 0, 0⟩, ⟨50, 7, 1000, 1000, 0, 0⟩]
  created := [7]
  lastfreed := []

lemma sampleState_reachable : Reachable sampleState := by
  have htaken : Taken ⟨fun _ => none, [], [], [], []⟩ none 7 (dblkConstructor none 0 0 50 fun _ => 0) [] :=
    Taken.constructed 0 0 (fun _ => 0) rfl (by simp) ⟨by simp, by simp⟩
  have h1 := Reachable.start.step (Step.alloc (.esballoca 1000 64) htaken)
  have hmem : (⟨50, 7, 1000, 1000, 0, 0⟩ : Mblk) ∈ [(⟨50, 7, 1000, 1000, 0, 0⟩ : Mblk)] := mem_singleton_self _
  have hdup : dupb (update (fun _ => none) 7 (some sampleDblk)) ⟨50, 7, 1000, 1000, 0, 0⟩ (some 51) =
    some (some ⟨51, 7, 1000, 1000, 0, 0⟩, sampleState.heap) := rfl
  refine h1.step (Step.dupb hmem ?_ hdup)
  rintro a ⟨⟩
  exact ⟨by decide, by simp⟩

/-- The first message block has gone back. -/
def freedOnce : State :=
  { sampleState with
    heap := update sampleState.heap 7 (some { sampleDblk with dbFree := .dblkDecref, dbRef := sampleDblk.dbRef + 1 - 1 })
    live := [⟨51, 7, 1000, 1000, 0, 0⟩] }

/-- The second one has gone back with the data block. -/
def freedTwice : State :=
  { sampleState with
    heap := update freedOnce.heap 7 none
    cached := [(7, { sampleDblk with dbMblk := 51, dbRef := sampleDblk.dbRef + 1 - 1 })]
    live := []
    lastfreed := [7] }

lemma freedOnce_reachable : Reachable freedOnce := by
  have hmem : (⟨50, 7, 1000, 1000, 0, 0⟩ : Mblk) ∈ sampleState.live := mem_cons_of_mem _ mem_cons_self
  exact sampleState_reachable.step (Step.freeb hmem rfl)

lemma freedTwice_reachable : Reachable freedTwice := by
  have hmem : (⟨51, 7, 1000, 1000, 0, 0⟩ : Mblk) ∈ freedOnce.live := mem_cons_self
  exact freedOnce_reachable.step (Step.freeb hmem rfl)

theorem dblk_counted_sample :
    ((sampleDblk.dbRef + 1).toNat = refs sampleState.live 7 + sampleDblk.refmin ∧ FreesOnce sampleState) ∧
      ((sampleDblk.dbRef + 1 - 1).toNat = refs freedOnce.live 7 + sampleDblk.refmin ∧ FreesOnce freedOnce) ∧
      freedTwice.created.count 7 = freedTwice.lastfreed.count 7 + inUse (freedTwice.heap 7) := by
  obtain ⟨-, hcount, -, hfrees, -⟩ := dblk_counted sampleState_reachable
  obtain ⟨-, hcount', -, hfrees', -⟩ := dblk_counted freedOnce_reachable
  exact ⟨⟨(hcount 7 _ rfl).1, hfrees⟩, ⟨(hcount' 7 _ rfl).1, hfrees'⟩, (dblk_counted freedTwice_reachable).2.2.2.2 7⟩

end Solaris.Blocks
