import Mathlib.Tactic

/-!
# Swap reservations

`k_anoninfo` and `availrmem`: the reservations of `vm_anon.c`, the moves between disk and memory
swap, and the parts of `swapadd` and `swapdel` that touch the counters. Every section under
`anoninfo_lock` is one step. A counter that becomes negative here is one that wraps there.
-/

namespace Solaris.Swap

section Reservations

open Option

/-- A swap area with the flag `ST_DOINGDEL`; while it is being deleted (`ST_INDEL`), also the
`adjust_swap` that the deleting thread has computed. -/
structure Area where
  vp : Nat
  soff : Nat
  npgs : Nat
  doingDel : Bool
  inDel : Option Int
  deriving DecidableEq

structure Counters where
  aniMax : Int
  aniPhysResv : Int
  aniMemResv : Int
  aniLockedSwap : Int
  availrmem : Int
  swapfsMinfree : Int
  swapfsDesfree : Int
  deriving DecidableEq

/-- The counters, the swap areas, and what clients hold: pages reserved and not locked, and pages
locked by `anon_swap_adjust`. -/
structure Sys where
  k : Counters
  areas : List Area
  resv : Int
  locked : Int
  deriving DecidableEq

section Anon

/-- `anon_resvmem(size, 1)` for `npages` pages; the flag is its answer. -/
def anonResvmem (k : Counters) (npages : Int) : Bool × Counters :=
  let pswapPages := k.aniMax - k.aniPhysResv
  if npages ≤ pswapPages then (true, { k with aniPhysResv := k.aniPhysResv + npages })
  else
    let k' := if 0 < pswapPages then { k with aniPhysResv := k.aniPhysResv + pswapPages } else k
    let mswapPages := npages - pswapPages
    if k'.availrmem < k'.swapfsMinfree + mswapPages then
      (false, { k' with aniPhysResv := k'.aniPhysResv - pswapPages })
    else
      (true, { k' with
        availrmem := k'.availrmem - mswapPages
        aniMemResv := k'.aniMemResv + mswapPages })

def anonUnresv (k : Counters) (npages : Int) : Counters :=
  let memFreePages :=
    if k.aniLockedSwap < k.aniMemResv then min (k.aniMemResv - k.aniLockedSwap) npages else 0
  let k := { k with
    availrmem := k.availrmem + memFreePages
    aniMemResv := k.aniMemResv - memFreePages }
  { k with aniPhysResv := k.aniPhysResv - (npages - memFreePages) }

/-- The flag is false for `ENOMEM`. -/
def anonSwapAdjust (k : Counters) (npages : Int) : Bool × Counters :=
  let unlockedMemSwap := k.aniMemResv - k.aniLockedSwap
  if unlockedMemSwap < npages then
    let adjustedSwap := npages - unlockedMemSwap
    if k.availrmem < adjustedSwap + k.swapfsMinfree then (false, k)
    else
      (true, { k with
        availrmem := k.availrmem - adjustedSwap
        aniMemResv := k.aniMemResv + adjustedSwap
        aniPhysResv := k.aniPhysResv - adjustedSwap
        aniLockedSwap := k.aniLockedSwap + npages })
  else (true, { k with aniLockedSwap := k.aniLockedSwap + npages })

def anonSwapRestore (k : Counters) (npages : Int) : Counters :=
  { k with aniLockedSwap := k.aniLockedSwap - npages }

end Anon

section Areas

/-- What `swapadd` finds on the list: the area is being deleted and is to stay, it overlaps another
one, or it is new. -/
inductive Found
  | readd (before : List Area) (area : Area) (after : List Area)
  | overlap
  | new

def swapaddSearch (vp soff pages : Nat) (before : List Area) : List Area → Found
  | [] => .new
  | esip :: after =>
    if esip.vp = vp then
      if esip.soff = soff ∧ esip.npgs = pages ∧ esip.doingDel = true then .readd before esip after
      else if soff < esip.soff + esip.npgs ∧ esip.soff < soff + pages then .overlap
      else swapaddSearch vp soff pages (before ++ [esip]) after
    else swapaddSearch vp soff pages (before ++ [esip]) after

def swapaddCounters (k : Counters) (pages : Nat) : Counters :=
  let k : Counters := { k with aniMax := k.aniMax + pages }
  let k : Counters :=
    if k.aniLockedSwap < k.aniMemResv then
      let returnedMem := min (k.aniMemResv - k.aniLockedSwap) (k.aniMax - k.aniPhysResv)
      { k with
        aniMemResv := k.aniMemResv - returnedMem
        aniPhysResv := k.aniPhysResv + returnedMem
        availrmem := k.availrmem + returnedMem }
    else k
  if k.swapfsMinfree < k.swapfsDesfree ∧ (k.swapfsDesfree < k.availrmem ∨ k.aniMemResv = 0) then
    { k with swapfsMinfree := k.swapfsDesfree }
  else k

def swapadd (s : Sys) (vp soff pages : Nat) : Sys :=
  match swapaddSearch vp soff pages [] s.areas with
  | .readd before area after => { s with areas := before ++ { area with doingDel := false } :: after }
  | .overlap => s
  | .new => { s with
      k := swapaddCounters s.k pages
      areas := s.areas ++ [⟨vp, soff, pages, false, none⟩] }

/-- `swapdel` up to its first lock drop, on the counters: nothing when too few pages are free, else
the adjustment made. -/
def swapdelCounters (k : Counters) (pages : Nat) : Option (Int × Counters) :=
  if (k.aniMax - k.aniPhysResv) + max (k.availrmem - k.swapfsMinfree) 0 < pages then none
  else
    let k := { k with aniMax := k.aniMax - pages }
    if k.aniMax < k.aniPhysResv then
      let adjustSwap := k.aniPhysResv - k.aniMax
      some (adjustSwap, { k with
        aniPhysResv := k.aniPhysResv - adjustSwap
        aniMemResv := k.aniMemResv + adjustSwap
        availrmem := k.availrmem - adjustSwap })
    else some (0, k)

/-- The device is added back: a slot could not be freed, or `ST_DOINGDEL` was cleared. The source clears the flags under
`swapinfo_lock` before; the two sections are one step here. -/
def swapdelAbort (k : Counters) (adjustSwap : Int) (pages : Nat) : Counters :=
  { k with
    aniPhysResv := k.aniPhysResv + adjustSwap
    aniMemResv := k.aniMemResv - adjustSwap
    aniMax := k.aniMax + pages
    availrmem := k.availrmem + adjustSwap }

end Areas

inductive Event
  | resv (npages : Nat)
  | unresv (npages : Nat)
  | adjust (npages : Nat)
  | restore (npages : Nat)
  | add (vp soff pages : Nat)
  | delStart (before : List Area) (area : Area) (after : List Area)
  | delDone (before : List Area) (area : Area) (after : List Area)
  | delAbort (before : List Area) (area : Area) (after : List Area)

/-- One step; `none` where the event cannot happen: pages are given back that are not held, or the
area is not on the list in that state. -/
def Sys.exec (s : Sys) : Event → Option Sys
  | .resv npages =>
    let (ok, k) := anonResvmem s.k npages
    some { s with k, resv := if ok then s.resv + npages else s.resv }
  | .unresv npages =>
    if (npages : Int) ≤ s.resv then
      some { s with k := anonUnresv s.k npages, resv := s.resv - npages }
    else none
  | .adjust npages =>
    if (npages : Int) ≤ s.resv then
      let (ok, k) := anonSwapAdjust s.k npages
      if ok then some { s with k, resv := s.resv - npages, locked := s.locked + npages }
      else some { s with k }
    else none
  | .restore npages =>
    if (npages : Int) ≤ s.locked then
      some { s with
        k := anonSwapRestore s.k npages
        resv := s.resv + npages
        locked := s.locked - npages }
    else none
  | .add vp soff pages => some (swapadd s vp soff pages)
  | .delStart before area after =>
    if s.areas = before ++ area :: after ∧ area.inDel = none ∧ area.doingDel = false then
      match swapdelCounters s.k area.npgs with
      | none => some s
      | some (adjustSwap, k) => some { s with
          k
          areas := before ++ { area with inDel := some adjustSwap, doingDel := true } :: after }
    else none
  | .delDone before area after =>
    if s.areas = before ++ area :: after ∧ area.inDel ≠ none then
      some { s with areas := before ++ after }
    else none
  | .delAbort before area after =>
    if s.areas = before ++ area :: after then
      match area.inDel with
      | none => none
      | some adjustSwap => some { s with
          k := swapdelAbort s.k adjustSwap area.npgs
          areas := before ++ { area with inDel := none, doingDel := false } :: after }
    else none

def Sys.init (availrmem minfree desfree : Nat) : Sys :=
  { k := ⟨0, 0, 0, 0, availrmem, minfree, desfree⟩, areas := [], resv := 0, locked := 0 }

def activePages (areas : List Area) : Int :=
  (areas.map fun a => if a.inDel = none then (a.npgs : Int) else 0).sum

end Reservations

/-!
## Swap reservations balance

The accounting holds along every run in which an aborted `swapdel` still finds, unlocked, the
memory swap that it had taken over. Other threads may have given that memory back in between, and
then the abort makes `ani_mem_resv` wrap.
-/

section Balance

open List Option

/-- The accounting of one state: `total` is what `availrmem` was at the start. -/
structure Balanced (total : Int) (s : Sys) : Prop where
  reserved : s.k.aniPhysResv + s.k.aniMemResv = s.resv + s.locked
  lockedLe : s.k.aniLockedSwap ≤ s.k.aniMemResv
  physLe : s.k.aniPhysResv ≤ s.k.aniMax
  active : s.k.aniMax = activePages s.areas
  memory : s.k.availrmem + s.k.aniMemResv = total
  nonneg : 0 ≤ s.k.aniMax ∧ 0 ≤ s.k.aniPhysResv ∧ 0 ≤ s.k.aniMemResv ∧ 0 ≤ s.k.aniLockedSwap ∧
    0 ≤ s.k.availrmem

/-- The invariant of a run: also the locked pages are those of the clients, the limits are not
negative, and a deletion has adjusted at most the pages of its area. -/
structure Inv (total : Int) (s : Sys) : Prop extends Balanced total s where
  held : s.k.aniLockedSwap = s.locked
  clients : 0 ≤ s.resv ∧ 0 ≤ s.locked
  limits : 0 ≤ s.k.swapfsMinfree ∧ 0 ≤ s.k.swapfsDesfree
  adjusted : ∀ a ∈ s.areas, ∀ x, a.inDel = some x → 0 ≤ x ∧ x ≤ a.npgs

section Areas

variable {after : List Area} {a : Area}

@[simp] lemma activePages_append (l r : List Area) :
    activePages (l ++ r) = activePages l + activePages r := by
  unfold activePages
  rw [map_append, sum_append]

@[simp] lemma activePages_cons :
    activePages (a :: after) = (if a.inDel = none then (a.npgs : Int) else 0) + activePages after := by
  unfold activePages
  rw [map_cons, sum_cons]

lemma activePages_nonneg (l : List Area) : 0 ≤ activePages l := by
  induction l with
  | nil => exact le_rfl
  | cons a l ih =>
    rw [activePages_cons]
    split <;> omega

theorem swapaddSearch_readd {vp soff pages : Nat} : ∀ {l : List Area} {pre b post : _} {e : Area},
    swapaddSearch vp soff pages pre l = .readd b e post → pre ++ l = b ++ e :: post
  | [], pre, b, post, e, h => by cases h
  | x :: l, pre, b, post, e, h => by
    unfold swapaddSearch at h
    split at h
    · split at h
      · cases h
        rfl
      · split at h
        · cases h
        · have := swapaddSearch_readd h
          simpa using this
    · have := swapaddSearch_readd h
      simpa using this

end Areas

section Steps

variable {total : Int} {s s' : Sys}

lemma anonResvmem_fails {k k' : Counters} {npages : Int} (h : anonResvmem k npages = (false, k'))
    (hp : k.aniPhysResv ≤ k.aniMax) : k' = k := by
  unfold anonResvmem at h
  by_cases h1 : npages ≤ k.aniMax - k.aniPhysResv
  · simp [h1] at h
  simp only [h1, if_false] at h
  by_cases h2 : 0 < k.aniMax - k.aniPhysResv
  · simp only [h2, if_true] at h
    by_cases h3 : k.availrmem < k.swapfsMinfree + (npages - (k.aniMax - k.aniPhysResv))
    · simp only [h3, if_true, Prod.mk.injEq, true_and] at h
      rw [← h, add_sub_cancel_right]
    · simp [h3] at h
  have hz : k.aniMax - k.aniPhysResv = 0 := by omega
  simp only [h2, if_false] at h
  by_cases h3 : k.availrmem < k.swapfsMinfree + (npages - (k.aniMax - k.aniPhysResv))
  · simp only [h3, if_true, Prod.mk.injEq, true_and] at h
    rw [← h, hz, sub_zero]
  · simp [h3] at h

lemma Inv.resv (h : Inv total s) (n : Nat) (he : s.exec (.resv n) = some s') : Inv total s' := by
  obtain ⟨⟨hres, hlock, hphys, hact, hmem, hnn⟩, hheld, hcl, hlim, hadj⟩ := h
  simp only [Sys.exec, anonResvmem, some.injEq] at he
  by_cases h1 : (n : Int) ≤ s.k.aniMax - s.k.aniPhysResv
  · simp only [h1, if_true] at he
    subst he
    refine ⟨⟨?_, hlock, ?_, hact, hmem, ?_⟩, hheld, ?_, hlim, hadj⟩ <;> dsimp only <;> omega
  simp only [h1, if_false] at he
  by_cases h2 : 0 < s.k.aniMax - s.k.aniPhysResv
  · simp only [h2, if_true] at he
    by_cases h3 : s.k.availrmem < s.k.swapfsMinfree + (n - (s.k.aniMax - s.k.aniPhysResv))
    · simp only [h3, if_true] at he
      subst he
      refine ⟨⟨?_, hlock, ?_, hact, hmem, ?_⟩, hheld, ?_, hlim, hadj⟩ <;> simp <;> omega
    · simp only [h3, if_false] at he
      subst he
      refine ⟨⟨?_, ?_, ?_, hact, ?_, ?_⟩, hheld, ?_, hlim, hadj⟩ <;> simp <;> omega
  simp only [h2, if_false] at he
  by_cases h3 : s.k.availrmem < s.k.swapfsMinfree + (n - (s.k.aniMax - s.k.aniPhysResv))
  · simp only [h3, if_true] at he
    subst he
    refine ⟨⟨?_, hlock, ?_, hact, hmem, ?_⟩, hheld, ?_, hlim, hadj⟩ <;> simp <;> omega
  · simp only [h3, if_false] at he
    subst he
    refine ⟨⟨?_, ?_, ?_, hact, ?_, ?_⟩, hheld, ?_, hlim, hadj⟩ <;> simp <;> omega

lemma Inv.unresv (h : Inv total s) (n : Nat) (he : s.exec (.unresv n) = some s') : Inv total s' := by
  obtain ⟨⟨hres, hlock, hphys, hact, hmem, hnn⟩, hheld, hcl, hlim, hadj⟩ := h
  simp only [Sys.exec, anonUnresv] at he
  split at he
  · next hn =>
    cases he
    by_cases hlt : s.k.aniLockedSwap < s.k.aniMemResv
    · simp only [hlt, if_true]
      refine ⟨⟨?_, ?_, ?_, hact, ?_, ?_⟩, hheld, ?_, hlim, hadj⟩ <;> dsimp only <;> omega
    · simp only [hlt, if_false]
      refine ⟨⟨?_, ?_, ?_, hact, ?_, ?_⟩, hheld, ?_, hlim, hadj⟩ <;> dsimp only <;> omega
  · cases he

lemma Inv.adjust (h : Inv total s) (n : Nat) (he : s.exec (.adjust n) = some s') : Inv total s' := by
  have h' := h
  obtain ⟨⟨hres, hlock, hphys, hact, hmem, hnn⟩, hheld, hcl, hlim, hadj⟩ := h
  simp only [Sys.exec, anonSwapAdjust] at he
  split at he
  · next hn =>
    by_cases h1 : s.k.aniMemResv - s.k.aniLockedSwap < n
    · by_cases h2 : s.k.availrmem < n - (s.k.aniMemResv - s.k.aniLockedSwap) + s.k.swapfsMinfree
      · simp only [h1, h2, if_true, Bool.false_eq_true, if_false, some.injEq] at he
        subst he
        exact h'
      · simp only [h1, h2, if_true, if_false, some.injEq] at he
        subst he
        refine ⟨⟨?_, ?_, ?_, hact, ?_, ?_⟩, ?_, ?_, hlim, hadj⟩ <;> dsimp only <;> omega
    · simp only [h1, if_true, if_false, some.injEq] at he
      subst he
      refine ⟨⟨?_, ?_, ?_, hact, ?_, ?_⟩, ?_, ?_, hlim, hadj⟩ <;> dsimp only <;> omega
  · cases he

lemma Inv.restore (h : Inv total s) (n : Nat) (he : s.exec (.restore n) = some s') :
    Inv total s' := by
  obtain ⟨⟨hres, hlock, hphys, hact, hmem, hnn⟩, hheld, hcl, hlim, hadj⟩ := h
  simp only [Sys.exec, anonSwapRestore] at he
  split at he
  · next hn =>
    cases he
    refine ⟨⟨?_, ?_, hphys, hact, hmem, ?_⟩, ?_, ?_, hlim, hadj⟩ <;> dsimp only <;> omega
  · cases he

lemma swapaddCounters_spec {k : Counters} (pages : Nat) (hl : k.aniLockedSwap ≤ k.aniMemResv)
    (hp : k.aniPhysResv ≤ k.aniMax) (hd : 0 ≤ k.swapfsDesfree) (hm : 0 ≤ k.swapfsMinfree) :
    ∃ m : Int, ∃ f : Int, 0 ≤ m ∧ m ≤ k.aniMemResv - k.aniLockedSwap ∧
      m ≤ k.aniMax + pages - k.aniPhysResv ∧ 0 ≤ f ∧
      swapaddCounters k pages = { k with
        aniMax := k.aniMax + pages
        aniMemResv := k.aniMemResv - m
        aniPhysResv := k.aniPhysResv + m
        availrmem := k.availrmem + m
        swapfsMinfree := f } := by
  unfold swapaddCounters
  by_cases h1 : k.aniLockedSwap < k.aniMemResv
  · simp only [h1, if_true]
    refine ⟨min (k.aniMemResv - k.aniLockedSwap) (k.aniMax + pages - k.aniPhysResv), ?_⟩
    split
    · exact ⟨k.swapfsDesfree, by omega, by omega, by omega, hd, rfl⟩
    · exact ⟨k.swapfsMinfree, by omega, by omega, by omega, hm, rfl⟩
  · simp only [h1, if_false]
    refine ⟨0, ?_⟩
    split
    · exact ⟨k.swapfsDesfree, le_rfl, by omega, by omega, hd, by simp⟩
    · exact ⟨k.swapfsMinfree, le_rfl, by omega, by omega, hm, by simp⟩

lemma adjusted_replace {l before after : List Area} {area new : Area} (hl : l = before ++ area :: after)
    (h : ∀ a ∈ l, ∀ x, a.inDel = some x → 0 ≤ x ∧ x ≤ a.npgs)
    (hnew : ∀ x, new.inDel = some x → 0 ≤ x ∧ x ≤ new.npgs) :
    ∀ a ∈ before ++ new :: after, ∀ x, a.inDel = some x → 0 ≤ x ∧ x ≤ a.npgs := by
  subst hl
  exact forall_mem_append.mpr ⟨fun a ha => h a (by simp [ha]),
    forall_mem_cons.mpr ⟨hnew, fun a ha => h a (by simp [ha])⟩⟩

lemma Inv.add (h : Inv total s) (vp soff pages : Nat)
    (he : s.exec (.add vp soff pages) = some s') : Inv total s' := by
  have h' := h
  obtain ⟨⟨hres, hlock, hphys, hact, hmem, hnn⟩, hheld, hcl, hlim, hadj⟩ := h
  simp only [Sys.exec, some.injEq] at he
  subst he
  unfold swapadd
  split
  · next before area after hfound =>
    have hsplit := swapaddSearch_readd hfound
    rw [nil_append] at hsplit
    refine ⟨⟨hres, hlock, hphys, ?_, hmem, hnn⟩, hheld, hcl, hlim, ?_⟩
    · change s.k.aniMax = _
      rw [hact, hsplit]
      simp only [activePages_append, activePages_cons]
    · exact adjusted_replace hsplit hadj (hadj area (by rw [hsplit]; simp))
  · exact h'
  · obtain ⟨m, f, hm0, hm1, hm2, hf, hk⟩ := swapaddCounters_spec pages hlock hphys hlim.2 hlim.1
    rw [hk]
    refine ⟨⟨?_, ?_, ?_, ?_, ?_, ?_⟩, hheld, hcl, ⟨hf, hlim.2⟩, ?_⟩
    · dsimp only
      omega
    · dsimp only
      omega
    · dsimp only
      omega
    · rw [activePages_append, activePages_cons, ← hact]
      simp [activePages]
    · dsimp only
      omega
    · dsimp only
      omega
    · exact forall_mem_append.mpr ⟨hadj, forall_mem_singleton.mpr nofun⟩

lemma Inv.delStart (h : Inv total s) (before : List Area) (area : Area) (after : List Area)
    (he : s.exec (.delStart before area after) = some s') : Inv total s' := by
  have h' := h
  obtain ⟨⟨hres, hlock, hphys, hact, hmem, hnn⟩, hheld, hcl, hlim, hadj⟩ := h
  simp only [Sys.exec] at he
  split at he
  · next hc =>
    obtain ⟨hareas, hidle, -⟩ := hc
    have hpages : s.k.aniMax = activePages before + (area.npgs + activePages after) := by
      rw [hact, hareas, activePages_append, activePages_cons, if_pos hidle]
    have hb := activePages_nonneg before
    have ha := activePages_nonneg after
    -- the area leaves the active ones; what it has adjusted is within its pages
    have hset : ∀ x : Int, 0 ≤ x → x ≤ area.npgs → ∀ a ∈ before ++
        { area with inDel := some x, doingDel := true } :: after, ∀ y, a.inDel = some y →
        0 ≤ y ∧ y ≤ a.npgs := by
      intro x hx0 hx1
      apply adjusted_replace hareas hadj
      rintro y ⟨⟩
      exact ⟨hx0, hx1⟩
    unfold swapdelCounters at he
    by_cases h1 : (s.k.aniMax - s.k.aniPhysResv) + max (s.k.availrmem - s.k.swapfsMinfree) 0 < area.npgs
    · simp only [h1, if_true, some.injEq] at he
      subst he
      exact h'
    simp only [h1, if_false] at he
    by_cases h2 : s.k.aniMax - area.npgs < s.k.aniPhysResv
    · simp only [h2, if_true, some.injEq] at he
      subst he
      refine ⟨⟨?_, ?_, ?_, ?_, ?_, ?_⟩, hheld, hcl, hlim, hset _ (by omega) (by omega)⟩
      · dsimp only
        omega
      · dsimp only
        omega
      · dsimp only
        omega
      · simp only [activePages_append, activePages_cons, reduceCtorEq, if_false]
        omega
      · dsimp only
        omega
      · dsimp only
        omega
    · simp only [h2, if_false, some.injEq] at he
      subst he
      refine ⟨⟨hres, hlock, ?_, ?_, hmem, ?_⟩, hheld, hcl, hlim, hset 0 le_rfl (by omega)⟩
      · dsimp only
        omega
      · simp only [activePages_append, activePages_cons, reduceCtorEq, if_false]
        omega
      · dsimp only
        omega
  · cases he

lemma Inv.delDone (h : Inv total s) (before : List Area) (area : Area) (after : List Area)
    (he : s.exec (.delDone before area after) = some s') : Inv total s' := by
  obtain ⟨⟨hres, hlock, hphys, hact, hmem, hnn⟩, hheld, hcl, hlim, hadj⟩ := h
  simp only [Sys.exec] at he
  split at he
  · next hc =>
    obtain ⟨hareas, hdel⟩ := hc
    cases he
    refine ⟨⟨hres, hlock, hphys, ?_, hmem, hnn⟩, hheld, hcl, hlim, ?_⟩
    · change s.k.aniMax = activePages (before ++ after)
      rw [hact, hareas]
      simp only [activePages_append, activePages_cons, hdel, if_false]
      omega
    · intro a ha x hx
      apply hadj a _ x hx
      rw [hareas]
      rcases mem_append.mp ha with ha | ha <;> simp [ha]
  · cases he

/-- An aborted deletion keeps the accounting when the memory swap it took over is still there and
not locked. -/
theorem Inv.delAbort (h : Inv total s) (before : List Area) (area : Area) (after : List Area)
    (hcond : ∀ x, area.inDel = some x → x ≤ s.k.aniMemResv - s.k.aniLockedSwap)
    (he : s.exec (.delAbort before area after) = some s') : Inv total s' := by
  obtain ⟨⟨hres, hlock, hphys, hact, hmem, hnn⟩, hheld, hcl, hlim, hadj⟩ := h
  simp only [Sys.exec] at he
  split at he
  · next hareas =>
    split at he
    · cases he
    · next x hx =>
      obtain ⟨hx0, hx1⟩ := hadj area (by rw [hareas]; simp) x hx
      have hx2 := hcond x hx
      have hpages : s.k.aniMax = activePages before + activePages after := by
        rw [hact, hareas, activePages_append, activePages_cons, if_neg (by rw [hx]; simp), zero_add]
      cases he
      unfold swapdelAbort
      refine ⟨⟨?_, ?_, ?_, ?_, ?_, ?_⟩, hheld, hcl, hlim, ?_⟩
      · dsimp only
        omega
      · dsimp only
        omega
      · dsimp only
        omega
      · simp only [activePages_append, activePages_cons, if_true]
        omega
      · dsimp only
        omega
      · dsimp only
        omega
      · exact adjusted_replace hareas hadj nofun
  · cases he

end Steps

section Runs

/-- The condition on an abort: the memory swap that the deletion took over is still reserved and
not locked. -/
def AbortCovered (s : Sys) : Event → Prop
  | .delAbort _ area _ => ∀ x, area.inDel = some x → x ≤ s.k.aniMemResv - s.k.aniLockedSwap
  | _ => True

inductive Reachable (availrmem minfree desfree : Nat) : Sys → Prop
  | init : Reachable availrmem minfree desfree (Sys.init availrmem minfree desfree)
  | step {s s' : Sys} (e : Event) : Reachable availrmem minfree desfree s → s.exec e = some s' →
      Reachable availrmem minfree desfree s'

inductive ReachableCovered (availrmem minfree desfree : Nat) : Sys → Prop
  | init : ReachableCovered availrmem minfree desfree (Sys.init availrmem minfree desfree)
  | step {s s' : Sys} (e : Event) : ReachableCovered availrmem minfree desfree s → AbortCovered s e →
      s.exec e = some s' → ReachableCovered availrmem minfree desfree s'

variable {availrmem minfree desfree : Nat} {s s' : Sys}

lemma Inv.init : Inv availrmem (Sys.init availrmem minfree desfree) := by
  refine ⟨⟨rfl, le_rfl, le_rfl, rfl, ?_, ?_⟩, rfl, ⟨le_rfl, le_rfl⟩, ?_, ?_⟩
  · simp [Sys.init]
  · simp [Sys.init]
  · simp [Sys.init]
  · intro a ha
    cases ha

lemma Inv.exec {total : Int} (h : Inv total s) {e : Event} (hc : AbortCovered s e)
    (he : s.exec e = some s') : Inv total s' := by
  cases e with
  | resv n => exact h.resv n he
  | unresv n => exact h.unresv n he
  | adjust n => exact h.adjust n he
  | restore n => exact h.restore n he
  | add vp soff pages => exact h.add vp soff pages he
  | delStart before area after => exact h.delStart before area after he
  | delDone before area after => exact h.delDone before area after he
  | delAbort before area after => exact h.delAbort before area after hc he

lemma ReachableCovered.inv (h : ReachableCovered availrmem minfree desfree s) : Inv availrmem s := by
  induction h with
  | init => exact Inv.init
  | step e _ hc he ih => exact ih.exec hc he

/-- Along every run with covered aborts the reservations balance, and a failing reservation leaves
the counters as they are. -/
theorem swap_reservations_balance (h : ReachableCovered availrmem minfree desfree s) :
    Balanced availrmem s ∧ ∀ (n : Nat) k', anonResvmem s.k n = (false, k') → k' = s.k := by
  have hinv := h.inv
  refine ⟨hinv.toBalanced, ?_⟩
  intro n k' hk
  exact anonResvmem_fails hk hinv.physLe

def tenReserved : Sys :=
  { k := ⟨10, 10, 0, 0, 100, 0, 0⟩, areas := [⟨1, 0, 10, false, none⟩], resv := 10, locked := 0 }

/-- Six pages are reserved on the area of ten, whose deletion is aborted. With a second area its deletion goes through, and
two of the pages move to memory swap; then three pages are locked. -/
def threeLocked : Sys :=
  { k := ⟨4, 3, 3, 3, 97, 0, 0⟩, areas := [⟨2, 0, 4, false, none⟩], resv := 3, locked := 3 }

theorem swap_reservations_balance_locked : Balanced 100 threeLocked := by
  have hadd : ReachableCovered 100 0 0 (swapadd (Sys.init 100 0 0) 1 0 10) :=
    ReachableCovered.init.step (.add 1 0 10) trivial rfl
  have hresv : ReachableCovered 100 0 0 ⟨⟨10, 6, 0, 0, 100, 0, 0⟩, [⟨1, 0, 10, false, none⟩], 6, 0⟩ :=
    hadd.step (.resv 6) trivial (by decide +kernel)
  have hstart : ReachableCovered 100 0 0 ⟨⟨0, 0, 6, 0, 94, 0, 0⟩, [⟨1, 0, 10, true, some 6⟩], 6, 0⟩ :=
    hresv.step (.delStart [] ⟨1, 0, 10, false, none⟩ []) trivial (by decide +kernel)
  have habort : ReachableCovered 100 0 0 ⟨⟨10, 6, 0, 0, 100, 0, 0⟩, [⟨1, 0, 10, false, none⟩], 6, 0⟩ :=
    hstart.step (.delAbort [] ⟨1, 0, 10, true, some 6⟩ []) (fun x hx => some.inj hx ▸ le_rfl) (by decide +kernel)
  have hsecond : ReachableCovered 100 0 0
      ⟨⟨14, 6, 0, 0, 100, 0, 0⟩, [⟨1, 0, 10, false, none⟩, ⟨2, 0, 4, false, none⟩], 6, 0⟩ :=
    habort.step (.add 2 0 4) trivial (by decide +kernel)
  have hagain : ReachableCovered 100 0 0
      ⟨⟨4, 4, 2, 0, 98, 0, 0⟩, [⟨1, 0, 10, true, some 2⟩, ⟨2, 0, 4, false, none⟩], 6, 0⟩ :=
    hsecond.step (.delStart [] ⟨1, 0, 10, false, none⟩ [⟨2, 0, 4, false, none⟩]) trivial (by decide +kernel)
  have hdone : ReachableCovered 100 0 0 ⟨⟨4, 4, 2, 0, 98, 0, 0⟩, [⟨2, 0, 4, false, none⟩], 6, 0⟩ :=
    hagain.step (.delDone [] ⟨1, 0, 10, true, some 2⟩ [⟨2, 0, 4, false, none⟩]) trivial (by decide +kernel)
  exact (swap_reservations_balance (hdone.step (.adjust 3) trivial (by decide +kernel))).1

/-- The area is deleted, its ten pages move to memory swap and are given back from there; then the
deletion is aborted, and ten pages of memory swap are taken back that are no longer reserved. -/
theorem aborted_swapdel_wraps :
    ∃ s, Reachable 100 0 0 s ∧ s.k.aniMemResv = -10 ∧ ¬Balanced 100 s := by
  have h1 : Reachable 100 0 0 (swapadd (Sys.init 100 0 0) 1 0 10) :=
    Reachable.init.step (.add 1 0 10) rfl
  have h2 : Reachable 100 0 0 tenReserved := h1.step (.resv 10) (by decide +kernel)
  have h3 : Reachable 100 0 0
      { k := ⟨0, 0, 10, 0, 90, 0, 0⟩, areas := [⟨1, 0, 10, true, some 10⟩], resv := 10, locked := 0 } :=
    h2.step (.delStart [] ⟨1, 0, 10, false, none⟩ []) (by decide +kernel)
  have h4 : Reachable 100 0 0
      { k := ⟨0, 0, 0, 0, 100, 0, 0⟩, areas := [⟨1, 0, 10, true, some 10⟩], resv := 0, locked := 0 } :=
    h3.step (.unresv 10) (by decide +kernel)
  have h5 : Reachable 100 0 0
      { k := ⟨10, 10, -10, 0, 110, 0, 0⟩, areas := [⟨1, 0, 10, false, none⟩], resv := 0, locked := 0 } :=
    h4.step (.delAbort [] ⟨1, 0, 10, true, some 10⟩ []) (by decide +kernel)
  refine ⟨_, h5, rfl, ?_⟩
  intro hb
  exact absurd hb.nonneg.2.2.1 (by decide)

end Runs

end Balance

end Solaris.Swap
