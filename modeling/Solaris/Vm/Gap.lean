import Solaris.Lib.Holes
import Solaris.Vm.SegRuns

/-!
# Holes of an address space

`as_gap` of `vm_as.c`: the holes between the segments are looked at one after the other, from the lower
bound up or from the upper bound down. `valid_va_range` belongs to the machine and is a parameter.
-/

namespace Solaris.Vm

open Lib List Nat

def ahDir : BitVec 32 := 1

def ahLo : BitVec 32 := 0

def ahHi : BitVec 32 := 1

def ahContain : BitVec 32 := 2

/-- `AS_SEGP` -/
def segp (as : As) : SegNext → Option (Option SegPtr)
  | .list seg => if as.lrep = .linkedlist then some seg else none
  | .skiplist none => none
  | .skiplist (some ssl) =>
    if as.lrep = .linkedlist then none
    else
      match as.ssl ssl 0 with
      | .null => some none
      | .unused => none
      | .seg p => some (some p)

/-- What is returned, and what is in `*basep` and `*lenp` then. -/
structure GapAnswer where
  ret : Int
  base : Nat
  len : Nat

section Code

/-- `valid_va_range` with the range, the length asked for and the direction: the answer and the range. -/
abbrev ValidVaRange := Nat → Nat → Nat → BitVec 32 → Bool × Nat × Nat

variable (validVaRange : ValidVaRange) (as : As) (minlen lobound hibound : Nat) (flags : BitVec 32) (addr : Nat)

/-- A candidate hole restricted to the bounds, when it is big enough and contains the address. -/
def gapCandidate (lo hi : Nat) : Option (Nat × Nat) :=
  let lo := max lo lobound
  let hi := min hi hibound
  let r := validVaRange lo ((hi + 2 ^ 32 - lo) % 2 ^ 32) minlen (if flags &&& ahDir = ahLo then ahLo else ahHi)
  if r.1 ∧ (flags &&& ahContain = 0 ∨ r.2.1 ≤ addr ∧ addr < (r.2.1 + r.2.2) % 2 ^ 32) then some r.2 else none

/-- The iteration over the holes; the inner `none` is the end of it. -/
def gapLoop : Nat → Option SegPtr → Option SegPtr → Option (Option (Nat × Nat))
  | 0, _, _ => none
  | fuel + 1, lseg, hseg =>
    let lo := lseg.elim 0 fun p => (as.seg p).stop
    let hi := hseg.elim hibound fun p => (as.seg p).base
    if (flags &&& ahDir = ahLo ∧ hibound < lo) ∨ (flags &&& ahDir ≠ ahLo ∧ hi < lobound) then some none
    else
      match (if hibound < lo ∨ hi < lobound then none
        else gapCandidate validVaRange minlen lobound hibound flags addr lo hi) with
      | some r => some (some r)
      | none =>
        if flags &&& ahDir = ahLo then
          match hseg with
          | none => some none
          | some p => (segp as (as.seg p).next).bind fun next => gapLoop fuel (some p) next
        else
          match lseg with
          | none => some none
          | some p => gapLoop fuel (as.seg p).prev (some p)

def gapStart (hseg : SegPtr) : Option SegPtr × Option SegPtr :=
  if flags &&& ahDir = ahLo then ((as.seg hseg).prev, some hseg)
  else if (as.seg hseg).stop < hibound then (some hseg, none)
  else ((as.seg hseg).prev, some hseg)

end Code

def gapAnswer (base len : Nat) : Option (Nat × Nat) → GapAnswer
  | some r => ⟨0, r.1, r.2⟩
  | none => ⟨-1, base, len⟩

def asGap (validVaRange : ValidVaRange) (as : As) (minlen base len : Nat) (flags : BitVec 32) (addr : Nat) :
    Option (GapAnswer × As) :=
  let hibound := (base + len) % 2 ^ 32
  match segp as as.segs with
  | none => none
  | some none =>
    let r := validVaRange base len minlen (flags &&& ahDir)
    some (gapAnswer base len (if r.1 then some r.2 else none), as)
  | some (some _) =>
    match asFindseg as (if flags &&& ahDir = ahLo then base else hibound) true with
    | none => none
    | some (none, _) => none
    | some (some hseg, as) =>
      let start := gapStart as hibound flags hseg
      (gapLoop validVaRange as minlen base hibound flags addr (as.nsegs + 1) start.1 start.2).map fun r =>
        (gapAnswer base len r, as)

section Neighbours

variable {as : As} {l pre post : List SegPtr} {p : SegPtr}

lemma segp_toLink {ssl : SslPtr} {next : Option SegPtr} (hlrep : as.lrep = .skiplist)
    (h : as.ssl ssl 0 = toLink next) : segp as (.skiplist (some ssl)) = some next := by
  have hne : ¬as.lrep = .linkedlist := by
    rw [hlrep]
    exact Lrep.noConfusion
  unfold segp
  dsimp only
  rw [if_neg hne, h]
  cases next with
  | none => rfl
  | some p => rfl

lemma segp_list {next : Option SegPtr} (hlrep : as.lrep = .linkedlist) : segp as (.list next) = some next :=
  if_pos hlrep

lemma Represents.segp_head (h : Represents as l) : segp as as.segs = some l.head? := by
  rcases h with h | ⟨lvl, h⟩
  · have hhead : as.segs = .list l.head? := h.chain.head
    rw [hhead]
    exact segp_list h.lrep
  · have hl := h.leveled
    have hchain := hl.chain 0 (by decide)
    rw [level_zero] at hchain
    rw [hl.segs]
    exact segp_toLink hl.lrep hchain.head

lemma Represents.segp_next (h : Represents as (pre ++ p :: post)) :
    segp as (as.seg p).next = some post.head? := by
  rcases h with h | ⟨lvl, h⟩
  · have hnext : (as.seg p).next = .list post.head? := h.chain.next
    rw [hnext]
    exact segp_list h.lrep
  · have hl := h.leveled
    have hchain := hl.chain 0 (by decide)
    rw [level_zero] at hchain
    rw [hl.next p (by simp)]
    exact segp_toLink hl.lrep hchain.next

end Neighbours

section Entries

variable {as : As} {m pre post : List Entry} {e : Entry} {top : Nat}

lemma Holds.segp_head (h : Holds as m) : segp as as.segs = some (m.head?.map Entry.ptr) := by
  rw [h.represents.segp_head, head?_map]

lemma Holds.segp_next (h : Holds as (pre ++ e :: post)) :
    segp as (as.seg e.ptr).next = some (post.head?.map Entry.ptr) := by
  have hrep := h.represents
  rw [map_append, map_cons] at hrep
  rw [hrep.segp_next, head?_map]

lemma Holds.low_eq (h : Holds as (pre ++ post)) :
    ((pre.getLast?.map Entry.ptr).elim 0 fun p => (as.seg p).stop) = lastStop Entry.stop pre := by
  unfold lastStop
  cases hlast : pre.getLast? with
  | none => rfl
  | some e => exact h.stop_eq (mem_append_left post (mem_of_getLast? hlast))

lemma Holds.high_eq (h : Holds as (pre ++ post)) :
    ((post.head?.map Entry.ptr).elim top fun p => (as.seg p).base) = firstStart Entry.base top post := by
  cases post with
  | nil => rfl
  | cons e post => exact h.start_eq (by simp)

lemma Holds.room (h : Holds as m) {e : Entry} (he : e ∈ m) : e.stop < 2 ^ 32 := by
  have hroom := h.represents.kept.room e.ptr (mem_map_of_mem he)
  rw [(h.entries e he).1, (h.entries e he).2] at hroom
  exact hroom

end Entries

section Loop

/-- `valid_va_range` where no part of the address space is beyond the machine. -/
def PlainVaRange (validVaRange : ValidVaRange) (minlen : Nat) : Prop :=
  ∀ base len dir, validVaRange base len minlen dir = (decide (minlen ≤ len), base, len)

/-- The hole from `lo` to `hi` restricted to the bounds is big enough and contains the address. -/
def Suits (minlen lobound hibound : Nat) (flags : BitVec 32) (addr lo hi : Nat) : Prop :=
  minlen ≤ min hi hibound - max lo lobound ∧
    (flags &&& ahContain = 0 ∨ max lo lobound ≤ addr ∧ addr < min hi hibound)

instance {minlen lobound hibound : Nat} {flags : BitVec 32} {addr lo hi : Nat} :
    Decidable (Suits minlen lobound hibound flags addr lo hi) := inferInstanceAs (Decidable (_ ∧ _))

variable {validVaRange : ValidVaRange} {as : As} {minlen lobound hibound addr lo hi fuel : Nat}
  {flags : BitVec 32} {m pre post pre' post' : List Entry} {e : Entry}

lemma Suits.within (h : Suits minlen lobound hibound flags addr lo hi) (hmin : 0 < minlen) :
    lo < hibound ∧ lobound < hi := by
  have hle := h.1
  omega

lemma gapCandidate_eq (hv : PlainVaRange validVaRange minlen) (hbound : hibound < 2 ^ 32)
    (hle : max lo lobound ≤ min hi hibound) :
    gapCandidate validVaRange minlen lobound hibound flags addr lo hi =
      if Suits minlen lobound hibound flags addr lo hi then
        some (max lo lobound, min hi hibound - max lo lobound) else none := by
  have hlen : (min hi hibound + 2 ^ 32 - max lo lobound) % 2 ^ 32 = min hi hibound - max lo lobound := by
    omega
  unfold gapCandidate
  dsimp only
  rw [hlen, hv]
  have hend : (max lo lobound + (min hi hibound - max lo lobound)) % 2 ^ 32 = min hi hibound := by
    omega
  rw [hend]
  exact if_congr (and_congr_left' decide_eq_true_iff) rfl rfl

lemma gapLoop_turn (h : Holds as (pre ++ post)) (hv : PlainVaRange validVaRange minlen) (hmin : 0 < minlen)
    (hbound : hibound < 2 ^ 32) (hlob : lobound ≤ hibound) :
    gapLoop validVaRange as minlen lobound hibound flags addr (fuel + 1) (pre.getLast?.map Entry.ptr)
        (post.head?.map Entry.ptr) =
      if (flags &&& ahDir = ahLo ∧ hibound < lastStop Entry.stop pre) ∨
          (flags &&& ahDir ≠ ahLo ∧ firstStart Entry.base hibound post < lobound) then some none
      else if Suits minlen lobound hibound flags addr (lastStop Entry.stop pre)
          (firstStart Entry.base hibound post) then
        some (some (max (lastStop Entry.stop pre) lobound, min (firstStart Entry.base hibound post) hibound -
          max (lastStop Entry.stop pre) lobound))
      else if flags &&& ahDir = ahLo then
        match post.head?.map Entry.ptr with
        | none => some none
        | some p => (segp as (as.seg p).next).bind fun next =>
          gapLoop validVaRange as minlen lobound hibound flags addr fuel (some p) next
      else
        match pre.getLast?.map Entry.ptr with
        | none => some none
        | some p => gapLoop validVaRange as minlen lobound hibound flags addr fuel (as.seg p).prev (some p) := by
  conv_lhs => unfold gapLoop
  rw [h.low_eq, h.high_eq]
  apply ite_congr rfl fun _ => rfl
  intro hpast
  have hcandidate : (if hibound < lastStop Entry.stop pre ∨ firstStart Entry.base hibound post < lobound then none
      else gapCandidate validVaRange minlen lobound hibound flags addr (lastStop Entry.stop pre)
        (firstStart Entry.base hibound post)) =
      if Suits minlen lobound hibound flags addr (lastStop Entry.stop pre) (firstStart Entry.base hibound post) then
        some (max (lastStop Entry.stop pre) lobound, min (firstStart Entry.base hibound post) hibound -
          max (lastStop Entry.stop pre) lobound)
      else none := by
    by_cases hout : hibound < lastStop Entry.stop pre ∨ firstStart Entry.base hibound post < lobound
    · rw [if_pos hout, if_neg]
      intro hsuits
      have hin := hsuits.within hmin
      omega
    rw [if_neg hout]
    apply gapCandidate_eq hv hbound
    have hle : lastStop Entry.stop pre ≤ firstStart Entry.base hibound post := by
      cases post with
      | nil =>
        rw [firstStart_nil]
        omega
      | cons e post => exact lastStop_le fun x hx => h.apart.before hx mem_cons_self
    omega
  rw [hcandidate]
  by_cases hsuits : Suits minlen lobound hibound flags addr (lastStop Entry.stop pre)
      (firstStart Entry.base hibound post)
  · rw [if_pos hsuits, if_pos hsuits]
  · rw [if_neg hsuits, if_neg hsuits]

/-- In the direction of the search the second cut comes no earlier than the first. -/
def Ahead (flags : BitVec 32) (pre pre' : List Entry) : Prop :=
  (flags &&& ahDir = ahLo → pre.length ≤ pre'.length) ∧ (flags &&& ahDir ≠ ahLo → pre'.length ≤ pre.length)

def NoneBefore (m : List Entry) (minlen lobound hibound : Nat) (flags : BitVec 32) (addr : Nat)
    (pre : List Entry) : Prop :=
  ∀ pre' post', m = pre' ++ post' →
    Suits minlen lobound hibound flags addr (lastStop Entry.stop pre') (firstStart Entry.base hibound post') →
    Ahead flags pre pre'

/-- The first suitable hole in the direction of the search, if there is one. -/
inductive Searched (m : List Entry) (minlen lobound hibound : Nat) (flags : BitVec 32) (addr : Nat) :
    Option (Nat × Nat) → Prop
  | found (pre post : List Entry) (hm : m = pre ++ post)
      (hsuits : Suits minlen lobound hibound flags addr (lastStop Entry.stop pre)
        (firstStart Entry.base hibound post))
      (hfirst : NoneBefore m minlen lobound hibound flags addr pre) :
      Searched m minlen lobound hibound flags addr (some (max (lastStop Entry.stop pre) lobound,
        min (firstStart Entry.base hibound post) hibound - max (lastStop Entry.stop pre) lobound))
  | none (hnone : ∀ pre post, m = pre ++ post →
        ¬Suits minlen lobound hibound flags addr (lastStop Entry.stop pre) (firstStart Entry.base hibound post)) :
      Searched m minlen lobound hibound flags addr none

lemma searched_past (hap : Apart Entry.base Entry.stop m) (hmin : 0 < minlen) (hlob : lobound ≤ hibound)
    (hm : m = pre ++ post)
    (hbefore : NoneBefore m minlen lobound hibound flags addr pre)
    (hpast : (flags &&& ahDir = ahLo ∧ hibound < lastStop Entry.stop pre) ∨
      (flags &&& ahDir ≠ ahLo ∧ firstStart Entry.base hibound post < lobound)) :
    Searched m minlen lobound hibound flags addr none := by
  apply Searched.none
  intro pre' post' hm' hsuits
  have hahead := hbefore pre' post' hm' hsuits
  have hin := hsuits.within hmin
  rcases hpast with ⟨hfwd, hlt⟩ | ⟨hback, hlt⟩
  · have hmono := hap.lastStop_mono hm hm' (hahead.1 hfwd)
    omega
  rcases eq_or_ne post [] with rfl | hne
  · rw [firstStart_nil] at hlt
    omega
  · have hmono : firstStart Entry.base hibound _ ≤ firstStart Entry.base hibound _ :=
      hap.firstStart_mono hm' hm (hahead.2 hback) hne
    omega

theorem gapLoop_spec (h : Holds as m) (hv : PlainVaRange validVaRange minlen) (hmin : 0 < minlen)
    (hbound : hibound < 2 ^ 32) (hlob : lobound ≤ hibound) (hm : m = pre ++ post)
    (hforward : flags &&& ahDir = ahLo → post.length < fuel)
    (hbackward : flags &&& ahDir ≠ ahLo → pre.length < fuel)
    (hbefore : NoneBefore m minlen lobound hibound flags addr pre) :
    ∃ r, gapLoop validVaRange as minlen lobound hibound flags addr fuel (pre.getLast?.map Entry.ptr)
      (post.head?.map Entry.ptr) = some r ∧ Searched m minlen lobound hibound flags addr r := by
  induction fuel generalizing pre post with
  | zero =>
    by_cases hfwd : flags &&& ahDir = ahLo
    · exact absurd (hforward hfwd) (not_lt_zero _)
    · exact absurd (hbackward hfwd) (not_lt_zero _)
  | succ fuel ih =>
    have hsplit := h
    rw [hm] at hsplit
    have hlater (pre' post' : List Entry) (hm' : m = pre' ++ post')
        (hnot : ¬Suits minlen lobound hibound flags addr (lastStop Entry.stop pre)
          (firstStart Entry.base hibound post))
        (hsuits' : Suits minlen lobound hibound flags addr (lastStop Entry.stop pre')
          (firstStart Entry.base hibound post')) :
        (flags &&& ahDir = ahLo → pre.length < pre'.length) ∧ (flags &&& ahDir ≠ ahLo → pre'.length < pre.length) ∧
          pre.length + post.length = pre'.length + post'.length := by
      have hahead := hbefore pre' post' hm' hsuits'
      have hne : pre.length ≠ pre'.length := by
        intro hlen
        obtain ⟨rfl, rfl⟩ := append_inj (hm.symm.trans hm') hlen
        exact hnot hsuits'
      have hlen := congrArg List.length (hm.symm.trans hm')
      rw [length_append, length_append] at hlen
      exact ⟨fun hfwd => lt_of_le_of_ne (hahead.1 hfwd) hne,
        fun hback => lt_of_le_of_ne (hahead.2 hback) hne.symm, hlen⟩
    rw [gapLoop_turn hsplit hv hmin hbound hlob]
    split_ifs with hpast hsuits hfwd
    · exact ⟨none, rfl, searched_past h.apart hmin hlob hm hbefore hpast⟩
    · exact ⟨_, rfl, Searched.found pre post hm hsuits hbefore⟩
    · cases post with
      | nil =>
        refine ⟨none, rfl, Searched.none fun pre' post' hm' hsuits' => ?_⟩
        obtain ⟨hlt, -, hlen⟩ := hlater pre' post' hm' hsuits hsuits'
        have hlt' := hlt hfwd
        rw [length_nil] at hlen
        omega
      | cons e post =>
        have hturns := hforward hfwd
        have hnext : NoneBefore m minlen lobound hibound flags addr (pre ++ [e]) := by
          intro pre' post' hm' hsuits'
          obtain ⟨hlt, -, -⟩ := hlater pre' post' hm' hsuits hsuits'
          refine ⟨fun _ => ?_, fun hback => absurd hfwd hback⟩
          rw [length_append]
          exact hlt hfwd
        have hm' : m = (pre ++ [e]) ++ post := by
          rw [hm, append_assoc]
          rfl
        have hrun := ih hm' (fun _ => by rw [length_cons] at hturns; omega)
          (fun hback => absurd hfwd hback) hnext
        rw [getLast?_concat] at hrun
        rw [head?_cons, Option.map_some]
        dsimp only
        rw [hsplit.segp_next]
        exact hrun
    · rcases eq_nil_or_concat' pre with rfl | ⟨pre, e, rfl⟩
      · refine ⟨none, rfl, Searched.none fun pre' post' hm' hsuits' => ?_⟩
        obtain ⟨-, hlt, -⟩ := hlater pre' post' hm' hsuits hsuits'
        exact absurd (hlt hfwd) (not_lt_zero _)
      have hturns := hbackward hfwd
      rw [length_append, length_singleton] at hturns
      have hnext : NoneBefore m minlen lobound hibound flags addr pre := by
        intro pre' post' hm' hsuits'
        obtain ⟨-, hlt, -⟩ := hlater pre' post' hm' hsuits hsuits'
        have hlt' := hlt hfwd
        rw [length_append, length_singleton] at hlt'
        exact ⟨fun hback => absurd hback hfwd, fun _ => by omega⟩
      have hm' : m = pre ++ e :: post := by
        rw [hm, append_assoc]
        rfl
      have hrun := ih hm' (fun hback => absurd hback hfwd) (fun _ => by omega) hnext
      rw [getLast?_concat, Option.map_some]
      dsimp only
      rw [h.prev pre e post hm']
      exact hrun

end Loop

section Exact

/-- A maximal unmapped interval, restricted to the bounds, that is what is asked for. -/
structure Fitting (m : List Entry) (minlen base len : Nat) (flags : BitVec 32) (addr b n : Nat) : Prop where
  hole : ∃ lo hi, IsHole Entry.base Entry.stop m (2 ^ 32) lo hi ∧ b = max lo base ∧ b + n = min hi (base + len)
  large : minlen ≤ n
  contains : flags &&& ahContain ≠ 0 → b ≤ addr ∧ addr < b + n

/-- `as_gap` finds the lowest or the highest fitting interval when there is one, and else fails. -/
structure GapExact (m : List Entry) (minlen base len : Nat) (flags : BitVec 32) (addr : Nat)
    (ans : GapAnswer) : Prop where
  found_iff : ans.ret = 0 ↔ ∃ b n, Fitting m minlen base len flags addr b n
  found : ans.ret = 0 → Fitting m minlen base len flags addr ans.base ans.len ∧
    ∀ b n, Fitting m minlen base len flags addr b n →
      if flags &&& ahDir = ahLo then ans.base ≤ b else b ≤ ans.base
  not_found : ans.ret ≠ 0 → ans = ⟨-1, base, len⟩

variable {validVaRange : ValidVaRange} {as : As} {minlen base len addr b n : Nat} {flags : BitVec 32}
  {m pre post : List Entry}

lemma min_firstStart {hibound : Nat} (hbound : hibound < 2 ^ 32) :
    min (firstStart Entry.base (2 ^ 32) post) hibound = min (firstStart Entry.base hibound post) hibound := by
  cases post with
  | nil =>
    rw [firstStart_nil, firstStart_nil, min_self]
    exact min_eq_right hbound.le
  | cons e post => rfl

lemma fitting_iff (h : Holds as m) (hmin : 0 < minlen) (hbound : base + len < 2 ^ 32) :
    Fitting m minlen base len flags addr b n ↔ ∃ pre post, m = pre ++ post ∧
      Suits minlen base (base + len) flags addr (lastStop Entry.stop pre)
        (firstStart Entry.base (base + len) post) ∧
      b = max (lastStop Entry.stop pre) base ∧
      n = min (firstStart Entry.base (base + len) post) (base + len) - max (lastStop Entry.stop pre) base := by
  constructor
  · rintro ⟨⟨lo, hi, hhole, hb, hn⟩, hlarge, hcontains⟩
    obtain ⟨-, pre, post, hm, rfl, rfl⟩ := (isHole_iff h.apart fun e he => h.room he).mp hhole
    rw [min_firstStart hbound] at hn
    refine ⟨pre, post, hm, ⟨by omega, ?_⟩, hb, by omega⟩
    by_cases hflag : flags &&& ahContain = 0
    · exact .inl hflag
    · rw [← hn, ← hb]
      exact .inr (hcontains hflag)
  · rintro ⟨pre, post, hm, hsuits, rfl, rfl⟩
    obtain ⟨hlarge, hcontains⟩ := hsuits
    have hsum : max (lastStop Entry.stop pre) base + (min (firstStart Entry.base (base + len) post) (base + len) -
        max (lastStop Entry.stop pre) base) = min (firstStart Entry.base (base + len) post) (base + len) := by
      omega
    refine ⟨⟨lastStop Entry.stop pre, firstStart Entry.base (2 ^ 32) post, ?_, rfl, ?_⟩, hlarge, fun hflag => ?_⟩
    · rw [isHole_iff h.apart fun e he => h.room he]
      have hmin' := @min_firstStart post (base + len) hbound
      exact ⟨by omega, pre, post, hm, rfl, rfl⟩
    · rw [hsum, min_firstStart hbound]
    · rw [hsum]
      exact hcontains.resolve_left hflag

lemma gapExact_none (hno : ∀ b n, ¬Fitting m minlen base len flags addr b n) :
    GapExact m minlen base len flags addr (gapAnswer base len none) := by
  have hfail : ¬(gapAnswer base len none).ret = 0 := by
    change ¬(-1 : Int) = 0
    decide
  refine ⟨⟨fun heq => absurd heq hfail, ?_⟩, fun heq => absurd heq hfail, fun _ => rfl⟩
  rintro ⟨b, n, hfit⟩
  exact absurd hfit (hno b n)

lemma gapExact_of_searched (h : Holds as m) (hmin : 0 < minlen) (hbound : base + len < 2 ^ 32)
    {r : Option (Nat × Nat)} (hr : Searched m minlen base (base + len) flags addr r) :
    GapExact m minlen base len flags addr (gapAnswer base len r) := by
  cases hr with
  | found pre post hm hsuits hfirst =>
    have hfit := (fitting_iff h hmin hbound).mpr ⟨pre, post, hm, hsuits, rfl, rfl⟩
    refine ⟨⟨fun _ => ⟨_, _, hfit⟩, fun _ => rfl⟩, fun _ => ⟨hfit, fun b n hfit' => ?_⟩, fun hne => absurd rfl hne⟩
    obtain ⟨pre', post', hm', hsuits', rfl, rfl⟩ := (fitting_iff h hmin hbound).mp hfit'
    have hahead := hfirst pre' post' hm' hsuits'
    split_ifs with hfwd
    · have hmono := h.apart.lastStop_mono hm hm' (hahead.1 hfwd)
      exact max_le_max_right base hmono
    · have hmono := h.apart.lastStop_mono hm' hm (hahead.2 hfwd)
      exact max_le_max_right base hmono
  | none hnone =>
    apply gapExact_none
    intro b n hfit
    obtain ⟨pre, post, hm, hsuits, -⟩ := (fitting_iff h hmin hbound).mp hfit
    exact hnone pre post hm hsuits

lemma noneBefore_forward {lobound hibound : Nat} (hap : Apart Entry.base Entry.stop m) (hmin : 0 < minlen)
    (hm : m = pre ++ post) (hfwd : flags &&& ahDir = ahLo) (hlow : ∀ e ∈ pre, e.stop ≤ lobound) :
    NoneBefore m minlen lobound hibound flags addr pre := by
  intro pre' post' hm' hsuits
  refine ⟨fun _ => ?_, fun hback => absurd hfwd hback⟩
  by_contra hnot
  obtain ⟨mid, rfl, rfl⟩ := cut_further hm' hm (by omega)
  cases mid with
  | nil =>
    rw [append_nil] at hnot
    exact hnot le_rfl
  | cons e mid =>
    have hin := (hsuits.within hmin).2
    rw [cons_append, firstStart_cons] at hin
    have hpos := hap.pos e (by rw [hm]; simp)
    have hstop := hlow e (by simp)
    omega

lemma noneBefore_backward {lobound hibound : Nat} (hap : Apart Entry.base Entry.stop m) (hmin : 0 < minlen)
    (hm : m = pre ++ post) (hback : flags &&& ahDir ≠ ahLo) (hhigh : ∀ e ∈ post.head?, hibound ≤ e.stop) :
    NoneBefore m minlen lobound hibound flags addr pre := by
  intro pre' post' hm' hsuits
  refine ⟨fun hfwd => absurd hfwd hback, fun _ => ?_⟩
  by_contra hnot
  obtain ⟨mid, rfl, rfl⟩ := cut_further hm hm' (by omega)
  cases mid with
  | nil =>
    rw [append_nil] at hnot
    exact hnot le_rfl
  | cons e mid =>
    have hin := (hsuits.within hmin).1
    rw [hm'] at hap
    have hlast := (hap.sublist (sublist_append_left _ _)).stop_le_lastStop (x := e) (by simp)
    have hstop := hhigh e rfl
    omega

lemma gapStart_spec {hibound : Nat} (h : Holds as m) (hne : m ≠ []) (hmin : 0 < minlen) :
    ∃ hseg as' pre post, asFindseg as (if flags &&& ahDir = ahLo then base else hibound) true =
        some (some hseg, as') ∧ Holds as' m ∧ m = pre ++ post ∧
      gapStart as' hibound flags hseg = (pre.getLast?.map Entry.ptr, post.head?.map Entry.ptr) ∧
      NoneBefore m minlen base hibound flags addr pre := by
  obtain ⟨low, high, hm, hcut⟩ := exists_cut h.apart (if flags &&& ahDir = ahLo then base else hibound)
  obtain ⟨as', hfind, h'⟩ : ∃ as', asFindseg as (if flags &&& ahDir = ahLo then base else hibound) true = _ ∧ _ :=
    find_spec h
  have hplain := @plainFind_eq _ _ _ true hcut
  rw [← hm] at hplain
  rw [hplain] at hfind
  have hstart (pre : List Entry) (e : Entry) (post : List Entry) (hsplit : m = pre ++ e :: post) :
      gapStart as' hibound flags e.ptr =
        if flags &&& ahDir ≠ ahLo ∧ e.stop < hibound then (some e.ptr, none)
        else (pre.getLast?.map Entry.ptr, some e.ptr) := by
    have hstop : (as'.seg e.ptr).stop = e.stop := h'.stop_eq (by rw [hsplit]; simp)
    unfold gapStart
    rw [h'.prev pre e post hsplit, hstop]
    by_cases hfwd : flags &&& ahDir = ahLo
    · rw [if_pos hfwd, if_neg (fun hback => hback.1 hfwd)]
    · rw [if_neg hfwd]
      by_cases hbelow : e.stop < hibound
      · rw [if_pos hbelow, if_pos ⟨hfwd, hbelow⟩]
      · rw [if_neg hbelow, if_neg (fun hback => hbelow hback.2)]
  cases high with
  | cons e high =>
    refine ⟨e.ptr, as', low, e :: high, ?_, h', hm, ?_, ?_⟩
    · rw [hfind]
      rfl
    · rw [hstart low e high hm, if_neg]
      · rfl
      · rintro ⟨hback, hlt⟩
        have habove := hcut.high e mem_cons_self
        rw [if_neg hback] at habove
        omega
    · by_cases hfwd : flags &&& ahDir = ahLo
      · rw [if_pos hfwd] at hcut
        exact noneBefore_forward h.apart hmin hm hfwd hcut.low
      · rw [if_neg hfwd] at hcut
        apply noneBefore_backward h.apart hmin hm hfwd
        rintro x ⟨⟩
        exact (hcut.high e mem_cons_self).le
  | nil =>
    rw [append_nil] at hm
    subst hm
    obtain ⟨init, e, rfl⟩ := (eq_nil_or_concat' m).resolve_left hne
    have hfound : foundAt true ((init ++ [e]).map Entry.ptr) [] = some e.ptr := by
      unfold foundAt
      rw [if_pos ⟨rfl, rfl⟩, map_append, map_singleton, getLast?_concat]
    rw [map_nil, hfound] at hfind
    by_cases hlast : flags &&& ahDir ≠ ahLo ∧ e.stop < hibound
    · refine ⟨e.ptr, as', init ++ [e], [], hfind, h', (append_nil _).symm, ?_, ?_⟩
      · rw [hstart init e [] rfl, if_pos hlast, getLast?_concat]
        rfl
      · exact noneBefore_backward h.apart hmin (append_nil _).symm hlast.1 fun x hx => by cases hx
    refine ⟨e.ptr, as', init, [e], hfind, h', rfl, ?_, ?_⟩
    · rw [hstart init e [] rfl, if_neg hlast]
      rfl
    · by_cases hfwd : flags &&& ahDir = ahLo
      · rw [if_pos hfwd] at hcut
        exact noneBefore_forward h.apart hmin rfl hfwd fun x hx => hcut.low x (mem_append_left _ hx)
      · apply noneBefore_backward h.apart hmin rfl hfwd
        rintro x ⟨⟩
        exact not_lt.mp fun hlt => hlast ⟨hfwd, hlt⟩

lemma asGap_segments (h : Holds as m) (hne : m ≠ []) (hv : PlainVaRange validVaRange minlen) (hmin : 0 < minlen)
    (hbound : base + len < 2 ^ 32) :
    ∃ ans as', asGap validVaRange as minlen base len flags addr = some (ans, as') ∧ Holds as' m ∧
      GapExact m minlen base len flags addr ans := by
  obtain ⟨hseg, as', pre, post, hfind, h', hm, hstart, hbefore⟩ :=
    @gapStart_spec as minlen base addr flags m (base + len) h hne hmin
  have hlen := congrArg List.length hm
  rw [length_append] at hlen
  obtain ⟨r, hrun, hr⟩ := @gapLoop_spec validVaRange as' minlen base (base + len) addr (as'.nsegs + 1) flags m _ _ h' hv hmin hbound (le_add_right base len) hm
    (fun _ => by rw [h'.nsegs]; omega) (fun _ => by rw [h'.nsegs]; omega) hbefore
  obtain ⟨e, m', rfl⟩ := exists_cons_of_ne_nil hne
  refine ⟨_, as', ?_, h', gapExact_of_searched h hmin hbound hr⟩
  unfold asGap
  dsimp only
  rw [h.segp_head, mod_eq_of_lt hbound]
  rw [hfind]
  dsimp only
  rw [hstart, hrun]
  rfl

lemma asGap_empty (h : Holds as []) (hv : PlainVaRange validVaRange minlen) :
    asGap validVaRange as minlen base len flags addr =
      some (gapAnswer base len (if minlen ≤ len then some (base, len) else none), as) := by
  unfold asGap
  rw [h.segp_head]
  rw [hv]
  by_cases hle : minlen ≤ len
  · rw [if_pos hle, decide_eq_true hle]
    rfl
  · rw [if_neg hle, decide_eq_false hle]
    rfl

lemma fitting_empty (h : Holds as []) (hmin : 0 < minlen) (hbound : base + len < 2 ^ 32) :
    Fitting [] minlen base len flags addr b n ↔ b = base ∧ n = len ∧ minlen ≤ len ∧
      (flags &&& ahContain ≠ 0 → base ≤ addr ∧ addr < base + len) := by
  rw [fitting_iff h hmin hbound]
  unfold Suits
  constructor
  · rintro ⟨pre, post, hm, ⟨hlarge, hcontains⟩, hb, hn⟩
    obtain ⟨rfl, rfl⟩ := append_eq_nil_iff.mp hm.symm
    rw [lastStop_nil, firstStart_nil, zero_max, min_self] at hlarge hcontains
    rw [lastStop_nil, firstStart_nil, zero_max, min_self] at hn
    refine ⟨hb, by omega, by omega, fun hflag => ?_⟩
    exact hcontains.resolve_left hflag
  · rintro ⟨rfl, rfl, hlarge, hcontains⟩
    refine ⟨[], [], rfl, ?_⟩
    rw [lastStop_nil, firstStart_nil, zero_max, min_self]
    refine ⟨⟨by omega, ?_⟩, rfl, by omega⟩
    by_cases hflag : flags &&& ahContain = 0
    · exact .inl hflag
    · exact .inr (hcontains hflag)

/-- The search is exact, unless there are no segments and the range, long enough, does not contain the
address that it has to contain. -/
theorem asGap_exact_iff (h : Holds as m) (hv : PlainVaRange validVaRange minlen) (hmin : 0 < minlen)
    (hbound : base + len < 2 ^ 32) (flags : BitVec 32) (addr : Nat) :
    (∃ ans as', asGap validVaRange as minlen base len flags addr = some (ans, as') ∧
        GapExact m minlen base len flags addr ans) ↔
      ¬(m = [] ∧ flags &&& ahContain ≠ 0 ∧ minlen ≤ len ∧ ¬(base ≤ addr ∧ addr < base + len)) := by
  rcases eq_or_ne m [] with rfl | hne
  · rw [asGap_empty h hv]
    have hfit (b n : Nat) := @fitting_empty as minlen base len addr b n flags h hmin hbound
    constructor
    · rintro ⟨ans, as', hrun, hexact⟩ ⟨-, hflag, hle, hout⟩
      rw [if_pos hle] at hrun
      cases hrun
      obtain ⟨b, n, hsome⟩ := hexact.found_iff.mp rfl
      exact hout (((hfit b n).mp hsome).2.2.2 hflag)
    · intro hcond
      refine ⟨_, as, rfl, ?_⟩
      split_ifs with hle
      · have hwhole : Fitting [] minlen base len flags addr base len :=
          (hfit base len).mpr ⟨rfl, rfl, hle, fun hflag => by_contra fun hout => hcond ⟨rfl, hflag, hle, hout⟩⟩
        refine ⟨⟨fun _ => ⟨base, len, hwhole⟩, fun _ => rfl⟩, fun _ => ⟨hwhole, fun b n hsome => ?_⟩,
          fun hne => absurd rfl hne⟩
        obtain ⟨rfl, -⟩ := (hfit b n).mp hsome
        split_ifs
        · exact le_rfl
        · exact le_rfl
      · exact gapExact_none fun b n hsome => hle ((hfit b n).mp hsome).2.2.1
  · obtain ⟨ans, as', hrun, -, hexact⟩ := asGap_segments h hne hv hmin hbound
    exact ⟨fun _ hcond => hne hcond.1, fun _ => ⟨ans, as', hrun, hexact⟩⟩

/-- `valid_va_range` of a machine without holes of its own, for a range that does not wrap. -/
def plainVaRange : ValidVaRange := fun base len minlen _ => (decide (minlen ≤ len), base, len)

theorem asGap_exact_iff_threeSegs : ∃ as, Holds as [⟨1, 0x1000, 0x1000⟩, ⟨2, 0x8000, 0x1000⟩] ∧
    ((∃ ans as', asGap plainVaRange as 0x2000 0x1800 0x8000 ahHi 0 = some (ans, as') ∧
        GapExact [⟨1, 0x1000, 0x1000⟩, ⟨2, 0x8000, 0x1000⟩] 0x2000 0x1800 0x8000 ahHi 0 ans) ↔
      ¬(([⟨1, 0x1000, 0x1000⟩, ⟨2, 0x8000, 0x1000⟩] : List Entry) = [] ∧ ahHi &&& ahContain ≠ 0 ∧
        0x2000 ≤ 0x8000 ∧ ¬(0x1800 ≤ 0 ∧ 0 < 0x1800 + 0x8000))) := by
  have hallowed : Allowed threeSegs [] := by decide +kernel
  obtain ⟨as, -, hholds⟩ := @calls_spec _ _ 2 false _ (holds_asAlloc (fun _ => noSeg) fun _ _ => .null) hallowed
  exact ⟨as, hholds, asGap_exact_iff hholds (fun _ _ _ => rfl) (by decide) (by decide) ahHi 0⟩

/-- In an empty address space a range is found that does not contain the address. -/
theorem asGap_not_contained :
    ¬∀ (as : As) (m : List Entry), Holds as m → ∀ (minlen base len : Nat), 0 < minlen → base + len < 2 ^ 32 →
      ∀ (flags : BitVec 32) (addr : Nat), ∃ ans as',
        asGap plainVaRange as minlen base len flags addr = some (ans, as') ∧
          GapExact m minlen base len flags addr ans := by
  intro h
  obtain ⟨ans, as', hrun, hexact⟩ := h _ [] (holds_asAlloc (fun _ => noSeg) fun _ _ => .null) 0x1000 0x10000 0x20000
    (by decide) (by decide) ahContain 0x100000
  have hans : ans = ⟨0, 0x10000, 0x20000⟩ := by
    cases hrun
    rfl
  subst hans
  have hcontains : 0x10000 ≤ 0x100000 ∧ 0x100000 < 0x10000 + 0x20000 := (hexact.found rfl).1.contains (by decide)
  omega

end Exact

end Solaris.Vm
