import Solaris.Lib.Chain
import Solaris.Lib.Intervals
import Solaris.Vm.Seglist

/-!
# The skiplist of segments

Every level of the skiplist is the chain of the segments that reach this level. A search path is the path to a place
in the list: at each level the last node in front of that place.
-/

namespace Solaris.Vm

open List Function Nat
open Lib

def As.start (as : As) (p : SegPtr) : Nat := (as.seg p).base

def As.stop (as : As) (p : SegPtr) : Nat := (as.seg p).stop

def toLink : Option SegPtr → Link
  | none => .null
  | some p => .seg p

lemma toLink_ne_unused {o : Option SegPtr} : toLink o ≠ .unused := by
  cases o <;> simp [toLink]

/-- The slots of the list backwards: `a_tail` and every `s_prev`. -/
def As.prevSlot (as : As) : Option SegPtr → Option SegPtr
  | none => as.tail
  | some p => (as.seg p).prev

def level (lvl : SegPtr → Nat) (i : Nat) (l : List SegPtr) : List SegPtr := l.filter fun p => decide (i ≤ lvl p)

structure Kept (as : As) (l : List SegPtr) : Prop where
  apart : Apart as.start as.stop l
  room : ∀ p ∈ l, (as.seg p).base + (as.seg p).size < 2 ^ 32
  back : Chain as.prevSlot id l.reverse
  nsegs : as.nsegs = l.length

structure Leveled (as : As) (lvl : SegPtr → Nat) (l : List SegPtr) : Prop where
  lrep : as.lrep = .skiplist
  segs : as.segs = .skiplist (some none)
  next : ∀ p ∈ l, (as.seg p).next = .skiplist (some (some p))
  chain : ∀ i < sslNlevels, Chain (fun s => as.ssl s i) toLink (level lvl i l)
  unused : ∀ p ∈ l, ∀ i, lvl p < i → i < sslNlevels → as.ssl (some p) i = .unused
  hilevel : as.hilevel < sslNlevels
  le_hilevel : ∀ p ∈ l, lvl p ≤ as.hilevel

def PathAt (as : As) (lvl : SegPtr → Nat) (spath : Nat → Option SslPtr) (pre : List SegPtr) : Prop :=
  ∀ i ≤ as.hilevel, spath i = some (level lvl i pre).getLast?

/-- A skiplist with a cached path, none yet or the path to some place. -/
structure Skips (as : As) (lvl : SegPtr → Nat) (l : List SegPtr) : Prop where
  kept : Kept as l
  leveled : Leveled as lvl l
  path : ∃ spath, as.cache = .spath spath ∧
    (spath 0 = none ∨ ∃ pre post, l = pre ++ post ∧ PathAt as lvl spath pre)

def foundAt (tail : Bool) (pre post : List SegPtr) : Option SegPtr :=
  if tail ∧ post.head? = none then pre.getLast? else post.head?

section Levels

variable {lvl : SegPtr → Nat} {i n : Nat} {p : SegPtr} {l pre post : List SegPtr}

lemma level_append : level lvl i (pre ++ post) = level lvl i pre ++ level lvl i post :=
  filter_append ..

lemma level_zero : level lvl 0 l = l := by
  unfold level
  simp

lemma mem_level : p ∈ level lvl i l ↔ p ∈ l ∧ i ≤ lvl p := by
  unfold level
  rw [mem_filter, decide_eq_true_eq]

lemma level_singleton (h : i ≤ lvl p) : level lvl i [p] = [p] := filter_cons_of_pos (by simpa using h)

lemma level_singleton_of_lt (h : lvl p < i) : level lvl i [p] = [] :=
  filter_cons_of_neg (by simpa using h)

theorem exists_level_below (lvl : SegPtr → Nat) (n : Nat) (l : List SegPtr) :
    ∃ pre post, l = pre ++ post ∧ (level lvl n pre).getLast? = (level lvl (n + 1) l).getLast? := by
  cases hlast : (level lvl (n + 1) l).getLast? with
  | none => exact ⟨[], l, rfl, rfl⟩
  | some p =>
    obtain ⟨hp, hlvl⟩ := mem_level.mp (mem_of_getLast? hlast)
    obtain ⟨pre, post, rfl⟩ := append_of_mem hp
    refine ⟨pre ++ [p], post, by simp, ?_⟩
    rw [level_append, level_singleton (by omega), getLast?_concat]

end Levels

section Walk

variable {as : As} {lvl : SegPtr → Nat} {l pre mid low high : List SegPtr} {addr i : Nat}

lemma walkLevel_spec {fuel : Nat} (hl : Leveled as lvl (low ++ high)) (hcut : CutAt as.stop addr low high)
    (hi : i < sslNlevels) (hlow : low = pre ++ mid) (hfuel : mid.length < fuel) :
    walkLevel as addr i fuel (level lvl i pre).getLast? =
      some ((level lvl i low).getLast?, (level lvl i high).head?) := by
  induction fuel generalizing pre mid with
  | zero => omega
  | succ fuel ih =>
    have hslot : as.ssl (level lvl i pre).getLast? i = toLink (level lvl i (mid ++ high)).head? := by
      refine hl.chain i hi _ _ ?_
      rw [hlow, append_assoc, level_append]
    unfold walkLevel
    rw [hslot, level_append]
    cases hmid : level lvl i mid with
    | nil =>
      have hpre : level lvl i low = level lvl i pre := by rw [hlow, level_append, hmid, append_nil]
      rw [hpre, nil_append]
      cases hhead : (level lvl i high).head? with
      | none => rfl
      | some p =>
        have hp := (mem_level.mp (mem_of_head? hhead)).1
        have hstop := hcut.high p hp
        change (if as.stop p ≤ addr then _ else _) = _
        rw [if_neg (by omega)]
    | cons p rest =>
      obtain ⟨m1, m2, rfl, hnone, hp, -⟩ := filter_eq_cons_iff.mp hmid
      have hmem : p ∈ low := by rw [hlow]; simp
      have hstop := hcut.low p hmem
      change (if as.stop p ≤ addr then _ else _) = _
      rw [if_pos hstop, hl.next p (mem_append_left _ hmem)]
      have hlast : (level lvl i (pre ++ m1 ++ [p])).getLast? = some p := by
        rw [level_append, level_singleton (by simpa using hp), getLast?_concat]
      rw [← hlast]
      refine @ih (pre ++ m1 ++ [p]) m2 ?_ ?_
      · rw [hlow]
        simp
      · simp at hfuel
        omega

lemma searchLevels_spec {n : Nat} {spath : Nat → Option SslPtr} (hk : as.nsegs = (low ++ high).length)
    (hl : Leveled as lvl (low ++ high)) (hcut : CutAt as.stop addr low high) (hn : n < sslNlevels)
    (hlow : low = pre ++ mid) :
    ∃ spath', searchLevels as addr n (level lvl n pre).getLast? spath = some (high.head?, spath') ∧
      (∀ i ≤ n, spath' i = some (level lvl i low).getLast?) ∧ ∀ i, n < i → spath' i = spath i := by
  have hfuel : mid.length < as.nsegs + 1 := by
    rw [hk, hlow]
    simp
    omega
  induction n generalizing pre mid spath with
  | zero =>
    refine ⟨update spath 0 (some (level lvl 0 low).getLast?), ?_, ?_, ?_⟩
    · unfold searchLevels
      rw [walkLevel_spec hl hcut hn hlow hfuel, level_zero (l := high)]
      rfl
    · intro i hi
      rw [le_zero.mp hi, update_self]
    · intro i hi
      rw [update_of_ne (by omega)]
  | succ n ih =>
    obtain ⟨pre', mid', hlow', hlast⟩ := exists_level_below lvl n low
    have hfuel' : mid'.length < as.nsegs + 1 := by
      rw [hk, hlow']
      simp
      omega
    obtain ⟨spath', hs, hle, hgt⟩ :=
      @ih pre' mid' (update spath (n + 1) (some (level lvl (n + 1) low).getLast?)) (by omega) hlow' hfuel'
    refine ⟨spath', ?_, ?_, ?_⟩
    · unfold searchLevels
      rw [walkLevel_spec hl hcut hn hlow hfuel, Option.bind_some, ← hlast]
      rw [← hlast] at hs
      exact hs
    · intro i hi
      rcases lt_or_ge i (n + 1) with h | h
      · exact hle i (by omega)
      · rw [hgt i (by omega), show i = n + 1 by omega, update_self]
    · intro i hi
      rw [hgt i (by omega), update_of_ne (by omega)]

end Walk

section Search

variable {as : As} {lvl : SegPtr → Nat} {l low high : List SegPtr} {addr : Nat} {tail : Bool}
  {spath : Nat → Option SslPtr}

lemma Kept.tail_eq (h : Kept as l) : as.tail = l.getLast? := by
  have := h.back.head
  rwa [head?_reverse] at this

lemma Kept.prev_eq {pre post : List SegPtr} {p : SegPtr} (h : Kept as (pre ++ p :: post)) :
    (as.seg p).prev = pre.getLast? := by
  have hback := h.back
  rw [reverse_append, reverse_cons, append_assoc] at hback
  change Chain as.prevSlot id (post.reverse ++ p :: pre.reverse) at hback
  have := hback.next
  rwa [head?_reverse] at this

lemma searchHead_spec (hk : Kept as (low ++ high)) (hl : Leveled as lvl (low ++ high))
    (hcut : CutAt as.stop addr low high) :
    ∃ spath', searchHead as addr tail spath = some (foundAt tail low high, { as with cache := .spath spath' }) ∧
      PathAt as lvl spath' low := by
  obtain ⟨spath', hs, hle, -⟩ := @searchLevels_spec as lvl [] low low high addr as.hilevel spath hk.nsegs hl hcut
    hl.hilevel rfl
  refine ⟨spath', ?_, hle⟩
  unfold searchHead
  rw [hl.segs]
  have hnil : (level lvl as.hilevel []).getLast? = none := rfl
  rw [hnil] at hs
  dsimp only
  rw [hs, Option.map_some]
  unfold foundAt
  by_cases hc : tail ∧ high.head? = none
  · rw [if_pos hc, if_pos hc, hk.tail_eq, head?_eq_none_iff.mp hc.2, append_nil]
  · rw [if_neg hc, if_neg hc]

lemma patchPath_eq {ssl : SslPtr} {k : Nat} (hused : ∀ j ≤ k, as.ssl ssl j ≠ .unused)
    (hunused : ∀ j, k < j → j < sslNlevels → as.ssl ssl j = .unused) {n i : Nat} (hn : i + n = sslNlevels)
    (j : Nat) (hj : j < sslNlevels) :
    patchPath as ssl n i spath j = if i ≤ j ∧ j ≤ k then some ssl else spath j := by
  induction n generalizing i spath with
  | zero =>
    rw [if_neg (by omega)]
    rfl
  | succ n ih =>
    unfold patchPath
    by_cases hik : i ≤ k
    · rw [if_neg (hused i hik), ih (by omega)]
      by_cases hji : j = i
      · rw [if_neg (by omega), if_pos (by omega), hji, update_self]
      · rw [update_of_ne hji]
        by_cases hin : i + 1 ≤ j ∧ j ≤ k
        · rw [if_pos hin, if_pos (by omega)]
        · rw [if_neg hin, if_neg (by omega)]
    · rw [if_pos (hunused i (by omega) (by omega)), if_neg (by omega)]

lemma PathAt.patch {pre post : List SegPtr} {p : SegPtr} (hp : PathAt as lvl spath pre)
    (hl : Leveled as lvl (pre ++ p :: post)) :
    PathAt as lvl (patchPath as (some p) sslNlevels 0 spath) (pre ++ [p]) := by
  have hmem : p ∈ pre ++ p :: post := by simp
  have hused : ∀ j ≤ lvl p, as.ssl (some p) j ≠ .unused := by
    intro j hj
    have hlt : j < sslNlevels := lt_of_le_of_lt (hj.trans (hl.le_hilevel p hmem)) hl.hilevel
    have hslot := hl.chain j hlt
    rw [show pre ++ p :: post = pre ++ ([p] ++ post) from rfl, level_append, level_append,
      level_singleton hj] at hslot
    rw [hslot.next]
    exact toLink_ne_unused
  intro i hi
  have hlt := lt_of_le_of_lt hi hl.hilevel
  rw [patchPath_eq hused (hl.unused p hmem) (zero_add _) i hlt, level_append]
  by_cases hik : i ≤ lvl p
  · rw [if_pos ⟨zero_le _, hik⟩, level_singleton hik, getLast?_concat]
  · rw [if_neg (by omega), level_singleton_of_lt (by omega), append_nil]
    exact hp i hi

lemma foundAt_cons {p : SegPtr} : foundAt tail low (p :: high) = some p := by
  unfold foundAt
  rw [if_neg (by simp)]
  rfl

lemma sslSearch_spec (h : Skips as lvl (low ++ high)) (hcut : CutAt as.stop addr low high) :
    ∃ spath', sslSearch as addr tail = some (foundAt tail low high, { as with cache := .spath spath' }) ∧
      PathAt as lvl spath' low := by
  obtain ⟨hk, hl, spath, hcache, hpath⟩ := h
  have hhead : ∃ spath', searchHead as addr tail spath =
      some (foundAt tail low high, { as with cache := .spath spath' }) ∧ PathAt as lvl spath' low :=
    searchHead_spec hk hl hcut
  unfold sslSearch
  rw [hcache]
  dsimp only
  rcases hpath with hnone | ⟨pre, post, heq, hpath⟩
  · rw [hnone]
    exact hhead
  rw [hpath 0 (zero_le _), level_zero]
  have hslot : as.ssl pre.getLast? 0 = toLink post.head? := by
    refine hl.chain 0 (by decide) _ _ ?_
    rw [level_zero]
    exact heq
  dsimp only
  rw [hslot]
  cases post with
  | nil => exact hhead
  | cons p post =>
    have hk' := hk
    have hl' := hl
    rw [heq] at hk' hl'
    change ∃ spath', (if addr < as.stop p ∧ PrevEnds as addr p then _ else _) = _ ∧ _
    split_ifs with hthis
    · have hcut' : CutAt as.stop addr pre (p :: post) := by
        refine cut_of_neighbours hk'.apart ?_ ?_
        · intro q hq
          exact hthis.2 q (hk'.prev_eq.trans hq)
        · intro q hq
          cases hq
          exact hthis.1
      obtain ⟨rfl, rfl⟩ := hcut.unique hcut' heq
      refine ⟨spath, ?_, hpath⟩
      rw [foundAt_cons, ← hcache]
    · rw [hl'.next p (by simp)]
      dsimp only
      have hslot' : as.ssl (some p) 0 = toLink post.head? := by
        have := hl'.chain 0 (by decide)
        rw [level_zero] at this
        exact this.next
      rw [hslot']
      cases post with
      | nil => exact hhead
      | cons q post =>
        change ∃ spath', (if as.stop p ≤ addr ∧ addr < as.stop q then _ else _) = _ ∧ _
        split_ifs with hnext
        · have heq' : low ++ high = (pre ++ [p]) ++ q :: post := by rw [heq]; simp
          have hcut' : CutAt as.stop addr (pre ++ [p]) (q :: post) := by
            refine cut_of_neighbours (heq' ▸ hk.apart) ?_ ?_
            · intro x hx
              rw [getLast?_concat] at hx
              cases hx
              exact hnext.1
            · intro x hx
              cases hx
              exact hnext.2
          obtain ⟨rfl, rfl⟩ := hcut.unique hcut' heq'
          refine ⟨_, ?_, hpath.patch hl'⟩
          rw [foundAt_cons]
        · exact hhead

end Search

end Solaris.Vm
