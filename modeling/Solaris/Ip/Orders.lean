import Solaris.Ip.Overlaps

/-!
# Fragments in any order

A datagram cut into fragments that do not overlap, which arrive in any order, any number of times, and in any number
of blocks. When the last fragment comes in two or more blocks and behind a gap, `ip_reassemble` does not count the
gap.
-/

namespace Solaris.Ip

open List Nat

variable {d : List UInt8} {fragSize : Nat} {parts : List (Nat × Nat)}

def CutFrom (d : List UInt8) (u : Nat) : List (Nat × Nat) → Prop
  | [] => u = d.length
  | (a, b) :: l => a = u ∧ a < b ∧ CutFrom d b l

/-- The number of maximal gaps: the offsets not received at which a gap begins. The end of the
datagram is in a gap as long as the last fragment is missing. -/
def gapCount (d : List UInt8) (seen : List Received) : Nat :=
  ((Finset.range d.length).filter fun x => ¬ Seen seen x ∧ (x = 0 ∨ Seen seen (x - 1))).card

def AllSeen (parts : List (Nat × Nat)) (seen : List Received) : Prop :=
  ∀ part ∈ parts, ∃ f ∈ seen, f.start = part.1 ∧ f.stop = part.2

/-- Runs of the fragment path over the parts of a datagram, in which every arrival meets a condition
on what was received before. -/
inductive Assembling (d : List UInt8) (fragSize : Nat) (parts : List (Nat × Nat))
    (ok : List Received → Nat → Nat → List Mblk → Prop) : List Received → Option Ipf → Prop
  | idle : Assembling d fragSize parts ok [] none
  | arrive {seen : List Received} {s : Option Ipf} {f : Received} {mp : List Mblk} {ipf : Ipf}
    (run : Assembling d fragSize parts ok seen s) (part : (f.start, f.stop) ∈ parts)
    (fragment : Fragment d f.start f.stop f.header mp) (meets : ok seen f.start f.stop mp)
    (step : ipRputFragment fragSize s mp = some (some ipf, none)) :
    Assembling d fragSize parts ok (f :: seen) (some ipf)
  | deliver {seen : List Received} {s : Option Ipf} {f : Received} {mp : List Mblk} {out : List UInt8}
    (run : Assembling d fragSize parts ok seen s) (part : (f.start, f.stop) ∈ parts)
    (fragment : Fragment d f.start f.stop f.header mp) (meets : ok seen f.start f.stop mp)
    (step : ipRputFragment fragSize s mp = some (none, some out)) : Assembling d fragSize parts ok [] none

/-- The last fragment in two or more blocks is the first of all, or a copy, or comes after the one
before it. -/
def Joined (d : List UInt8) (seen : List Received) (a b : Nat) (mp : List Mblk) : Prop :=
  b = d.length → 2 ≤ mp.length → seen = [] ∨ (∃ f ∈ seen, f.start = a ∧ f.stop = b) ∨ ∃ f ∈ seen, f.stop = a

/-- What an arrival has to come to: the whole datagram once every part was received, and the right
counts until then. -/
def Exact (d : List UInt8) (fragSize : Nat) (parts : List (Nat × Nat)) (seen : List Received)
    (r : Option Ipf × Option (List UInt8)) : Prop :=
  (AllSeen parts seen → r.1 = none ∧ ∃ out, r.2 = some out ∧ Delivered d seen out) ∧
  (¬ AllSeen parts seen → r.2 = none ∧ ∃ ipf, r.1 = some ipf ∧
    (ipf.fend = 0 → ipf.holeCnt = gapCount d seen) ∧ ipf.count = fragSize + queueSize ipf.queue)

def Reassembles (d : List UInt8) (fragSize : Nat) (parts : List (Nat × Nat))
    (ok : List Received → Nat → Nat → List Mblk → Prop) : Prop :=
  ∀ seen s, Assembling d fragSize parts ok seen s → ∀ f mp, (f.start, f.stop) ∈ parts →
    Fragment d f.start f.stop f.header mp → ok seen f.start f.stop mp →
    ∃ r, ipRputFragment fragSize s mp = some r ∧ Exact d fragSize parts (f :: seen) r

section Parts

variable {u x : Nat} {p q : Nat × Nat}

lemma CutFrom.le_length (h : CutFrom d u parts) : u ≤ d.length := by
  induction parts generalizing u with
  | nil => exact le_of_eq h
  | cons r parts ih =>
    have := ih h.2.2
    have := h.1
    have := h.2.1
    omega

lemma CutFrom.le (h : CutFrom d u parts) (hp : p ∈ parts) : u ≤ p.1 ∧ p.1 < p.2 ∧ p.2 ≤ d.length := by
  induction parts generalizing u with
  | nil => cases hp
  | cons r parts ih =>
    have hstart := h.1
    have hlt := h.2.1
    rcases mem_cons.mp hp with rfl | hp
    · exact ⟨hstart.ge, hlt, h.2.2.le_length⟩
    · have := ih h.2.2 hp
      exact ⟨by omega, this.2⟩

lemma CutFrom.apart (h : CutFrom d u parts) (hp : p ∈ parts) (hq : q ∈ parts) :
    p = q ∨ p.2 ≤ q.1 ∨ q.2 ≤ p.1 := by
  induction parts generalizing u with
  | nil => cases hp
  | cons r parts ih =>
    rcases mem_cons.mp hp with rfl | hp'
    · rcases mem_cons.mp hq with rfl | hq'
      · exact .inl rfl
      · exact .inr (.inl (h.2.2.le hq').1)
    · rcases mem_cons.mp hq with rfl | hq'
      · exact .inr (.inr (h.2.2.le hp').1)
      · exact ih h.2.2 hp' hq'

lemma CutFrom.covers (h : CutFrom d u parts) (hx : u ≤ x) (hlt : x < d.length) :
    ∃ p ∈ parts, p.1 ≤ x ∧ x < p.2 := by
  induction parts generalizing u with
  | nil =>
    change u = d.length at h
    omega
  | cons r parts ih =>
    by_cases hr : x < r.2
    · exact ⟨r, mem_cons_self .., h.1.le.trans hx, hr⟩
    · obtain ⟨p, hp, hpx⟩ := ih h.2.2 (by omega)
      exact ⟨p, mem_cons_of_mem _ hp, hpx⟩

end Parts

section Gaps

variable {hs : List (List UInt8)} {u x : Nat} {q : List Piece}

instance (q : List Piece) (x : Nat) : Decidable (Covers q x) :=
  inferInstanceAs (Decidable (∃ p ∈ q, p.start ≤ x ∧ x < p.stop))

def gapStarts (d : List UInt8) (u : Nat) (q : List Piece) : Finset Nat :=
  (Finset.Ico u d.length).filter fun x => ¬ Covers q x ∧ (x = u ∨ Covers q (x - 1))

lemma mem_gapStarts : x ∈ gapStarts d u q ↔
    (u ≤ x ∧ x < d.length) ∧ ¬ Covers q x ∧ (x = u ∨ Covers q (x - 1)) := by
  unfold gapStarts
  rw [Finset.mem_filter, Finset.mem_Ico]

lemma mem_gapStarts_cons {p : Piece} (hq : Ordered d hs u (p :: q)) :
    x ∈ gapStarts d u (p :: q) ↔ (x = u ∧ u ≠ p.start) ∨ x ∈ gapStarts d p.stop q := by
  have hle := hq.1
  have hpos := hq.2.1.pos
  have hend := hq.2.1.le
  have hlow : ∀ y, Covers q y → p.stop ≤ y := fun y hy => (hq.2.2.covers_range hy).1
  rw [mem_gapStarts, mem_gapStarts, covers_cons, covers_cons]
  constructor
  · rintro ⟨⟨h1, h2⟩, hno, hbegin⟩
    by_cases hx : x < p.start
    · refine .inl ?_
      rcases hbegin with h | h | h
      · exact ⟨h, by omega⟩
      · omega
      · have := hlow _ h
        omega
    refine .inr ⟨⟨?_, h2⟩, fun h => hno (.inr h), ?_⟩
    · by_contra hlt
      exact hno (.inl ⟨by omega, by omega⟩)
    · rcases hbegin with h | h | h
      · have : p.start ≤ x ∧ x < p.stop := by omega
        exact absurd (.inl this) hno
      · refine .inl ?_
        by_contra hne
        exact hno (.inl ⟨by omega, by omega⟩)
      · exact .inr h
  · rintro (⟨rfl, hne⟩ | ⟨⟨h1, h2⟩, hno, hbegin⟩)
    · refine ⟨⟨le_rfl, by omega⟩, ?_, .inl rfl⟩
      rintro (h | h)
      · omega
      · have := hlow _ h
        omega
    · refine ⟨⟨by omega, h2⟩, ?_, .inr ?_⟩
      · rintro (h | h)
        · omega
        · exact hno h
      · rcases hbegin with h | h
        · exact .inl ⟨by omega, by omega⟩
        · exact .inr h

lemma Ordered.card_gapStarts (hq : Ordered d hs u q) (hu : u ≤ d.length) :
    ((gapStarts d u q).card : Int) = holes d u q := by
  induction q generalizing u with
  | nil =>
    rw [holes_nil]
    by_cases heq : u = d.length
    · have hempty : gapStarts d u [] = ∅ := by
        ext x
        rw [mem_gapStarts]
        simp
        omega
      rw [if_pos heq, hempty]
      rfl
    have hone : gapStarts d u [] = {u} := by
      ext x
      rw [mem_gapStarts, Finset.mem_singleton, covers_nil, covers_nil]
      simp
      omega
    rw [if_neg heq, hone]
    rfl
  | cons p q ih =>
    have hrest := ih hq.2.2 hq.2.1.le
    have hle := hq.1
    have hpos := hq.2.1.pos
    rw [holes_cons]
    by_cases heq : u = p.start
    · have hsame : gapStarts d u (p :: q) = gapStarts d p.stop q := by
        ext x
        rw [mem_gapStarts_cons hq]
        simp [heq]
      rw [if_pos heq, hsame, hrest, zero_add]
    have hins : gapStarts d u (p :: q) = insert u (gapStarts d p.stop q) := by
      ext x
      rw [mem_gapStarts_cons hq, Finset.mem_insert]
      simp [heq]
    have hnot : u ∉ gapStarts d p.stop q := by
      rw [mem_gapStarts]
      omega
    rw [if_neg heq, hins, Finset.card_insert_of_notMem hnot, cast_succ, hrest, add_comm]

lemma gapCount_eq {seen : List Received} (hq : Ordered d hs 0 q) (hcov : ∀ x, Covers q x ↔ Seen seen x) :
    (gapCount d seen : Int) = holes d 0 q := by
  have hsame : (Finset.range d.length).filter (fun x => ¬ Seen seen x ∧ (x = 0 ∨ Seen seen (x - 1))) =
      gapStarts d 0 q := by
    ext x
    rw [mem_gapStarts, Finset.mem_filter, Finset.mem_range, hcov x, hcov (x - 1)]
    simp
  unfold gapCount
  rw [hsame, hq.card_gapStarts (zero_le _)]

end Gaps

section Reassembly

variable {seen : List Received} {s : Option Ipf} {f : Received} {mp : List Mblk}

/-- The entry holds what was received, and only parts were. -/
structure Gathers (d : List UInt8) (fragSize : Nat) (parts : List (Nat × Nat)) (seen : List Received)
    (s : Option Ipf) : Prop where
  tracks : Tracks d fragSize seen s
  parts : ∀ f ∈ seen, (f.start, f.stop) ∈ parts
  idle : seen = [] → s = none

lemma allSeen_iff (hcut : CutFrom d 0 parts) (hparts : ∀ f ∈ seen, (f.start, f.stop) ∈ parts) :
    AllSeen parts seen ↔ ∀ x < d.length, Seen seen x := by
  constructor
  · intro hall x hx
    obtain ⟨p, hp, hpx⟩ := hcut.covers (zero_le x) hx
    obtain ⟨f, hf, hstart, hstop⟩ := hall p hp
    exact ⟨f, hf, by omega⟩
  · intro hall p hp
    obtain ⟨-, hlt, hle⟩ := hcut.le hp
    obtain ⟨f, hf, hx⟩ := hall p.1 (by omega)
    refine ⟨f, hf, ?_⟩
    rcases hcut.apart (hparts f hf) hp with heq | h | h
    · exact ⟨congrArg Prod.fst heq, congrArg Prod.snd heq⟩
    · dsimp only at h
      omega
    · dsimp only at h
      omega

section

variable (hg : Gathers d fragSize parts seen s) (hcut : CutFrom d 0 parts) (hpart : (f.start, f.stop) ∈ parts)
  (hnew : ¬ ∃ g ∈ seen, g.start = f.start ∧ g.stop = f.stop)

include hg hcut hpart hnew

lemma Gathers.fresh : ∀ g ∈ seen, g.stop ≤ f.start ∨ f.stop ≤ g.start := by
  intro g hmem
  rcases hcut.apart (hg.parts g hmem) hpart with heq | h | h
  · exact absurd ⟨g, hmem, congrArg Prod.fst heq, congrArg Prod.snd heq⟩ hnew
  · exact Or.inl h
  · exact Or.inr h

lemma Gathers.ready_more (hmore : f.stop ≠ d.length) (hs : s ≠ none) :
    Ready d (decide (f.stop ≠ d.length)) f.start f.stop mp (pieces s) := by
  obtain ⟨-, hlt, hle⟩ := hcut.le hpart
  refine Or.inr (Or.inl ⟨by simp [hmore], by omega, fun h0 => ?_⟩)
  obtain ⟨ipf, rfl⟩ := Option.ne_none_iff_exists'.mp hs
  obtain ⟨p, l, hpl⟩ := exists_cons_of_ne_nil (hg.tracks.entry ipf rfl).ne
  change ∃ p ∈ ipf.toHard.queue.head?, p.start ≠ 0
  refine ⟨p, by rw [hpl]; rfl, fun hp0 => ?_⟩
  -- the first piece from offset 0 would be part of the fragment
  have hord := (hg.tracks.entry ipf rfl).queued.ordered
  have hcov : Covers (pieces (some ipf)) 0 := by
    change Covers ipf.toHard.queue 0
    rw [hpl] at hord ⊢
    have := hord.2.1.pos
    exact covers_cons.mpr (.inl ⟨by omega, by omega⟩)
  obtain ⟨g, hmem, hgx⟩ := (hg.tracks.covers 0).mp hcov
  rcases hg.fresh hcut hpart hnew g hmem with h | h
  · omega
  · omega

lemma Gathers.ready_last (hlast : f.stop = d.length) (hfirst : f.start ≠ 0) (hs : s ≠ none) (hne : mp ≠ [])
    (hjoin : Joined d seen f.start f.stop mp) :
    Ready d (decide (f.stop ≠ d.length)) f.start f.stop mp (pieces s) := by
  obtain ⟨ipf, rfl⟩ := Option.ne_none_iff_exists'.mp hs
  have hheld := hg.tracks.entry ipf rfl
  have hord := hheld.queued.ordered
  have hfresh := hg.fresh hcut hpart hnew
  have hend : endOf 0 ipf.toHard.queue ≤ f.start := by
    obtain ⟨g, hmem, hgx⟩ := (hg.tracks.covers _).mp (hord.covers_last hheld.ne)
    have hin := hcut.le (hg.parts g hmem)
    rcases hfresh g hmem with h | h
    · omega
    · omega
  refine .inr (.inr ⟨by simp [hlast], hlast, hfirst, ?_, ?_⟩)
  · change Spaced d (behind f.start ipf.toHard.queue)
    rw [behind_nil hord hend]
    trivial
  · by_cases hone : mp.length = 1
    · exact .inl hone
    have hpos : 0 < mp.length := length_pos_iff.mpr hne
    rcases hjoin hlast (by omega) with hnil | hold | ⟨g, hmem, hstop⟩
    · exact absurd (hg.idle hnil) hs
    · exact absurd hold hnew
    · refine .inr (.inr ?_)
      have hin := hcut.le (hg.parts g hmem)
      have hcov := (hg.tracks.covers (f.start - 1)).mpr ⟨g, hmem, by omega⟩
      have := hord.covers_range hcov
      change endOf 0 ipf.toHard.queue = f.start
      omega

end

lemma Gathers.ready (hg : Gathers d fragSize parts seen s) (hcut : CutFrom d 0 parts)
    (hpart : (f.start, f.stop) ∈ parts) (hf : Fragment d f.start f.stop f.header mp)
    (hjoin : Joined d seen f.start f.stop mp) (hs : s ≠ none) :
    Ready d (decide (f.stop ≠ d.length)) f.start f.stop mp (pieces s) := by
  by_cases hnew : ∃ g ∈ seen, g.start = f.start ∧ g.stop = f.stop
  · obtain ⟨g, hmem, hstart, hstop⟩ := hnew
    exact .inl fun x h1 h2 => (hg.tracks.covers x).mpr ⟨g, hmem, by omega⟩
  by_cases hmore : f.stop = d.length
  · have hfirst : f.start ≠ 0 := by
      intro h0
      have hne := hf.fragmented
      rw [hf.flags, h0] at hne
      exact hne (if_pos hmore)
    obtain ⟨m, rest, -, rfl, -⟩ := hf.blocks
    exact hg.ready_last hcut hpart hnew hmore hfirst hs (cons_ne_nil _ _) hjoin
  · exact hg.ready_more hcut hpart hnew hmore hs

lemma assembling_gathers (hne : d ≠ []) (hd : d.length ≤ 65515) (hcut : CutFrom d 0 parts)
    (hrun : Assembling d fragSize parts (Joined d) seen s) : Gathers d fragSize parts seen s := by
  induction hrun with
  | idle => exact ⟨tracks_idle, by simp, fun _ => rfl⟩
  | arrive _ hpart hf hjoin hstep ih =>
    obtain ⟨r, hr, hres⟩ := ih.tracks.arrives hne hd hf (ih.ready hcut hpart hf hjoin)
    rw [hstep] at hr
    cases hr
    cases hres with
    | waits tracks _ =>
      refine ⟨tracks, fun g hg => ?_, fun h => by cases h⟩
      rcases mem_cons.mp hg with rfl | hg
      · exact hpart
      · exact ih.parts g hg
  | deliver => exact ⟨tracks_idle, by simp, fun _ => rfl⟩

lemma Tracks.counts {ipf : Ipf} (ht : Tracks d fragSize seen (some ipf)) :
    (ipf.fend = 0 → ipf.holeCnt = gapCount d seen) ∧ ipf.count = fragSize + queueSize ipf.queue := by
  have hheld := ht.entry ipf rfl
  constructor
  · intro h0
    have hcnt := hheld.queued.counted hheld.ne
    rw [gapCount_eq hheld.queued.ordered ht.covers]
    rw [toHard_hard h0] at hcnt ⊢
    exact hcnt
  · have hsize := hheld.queued.size
    by_cases h0 : ipf.fend = 0
    · rw [toHard_hard h0] at hsize
      exact hsize
    · rw [toHard_inOrder h0] at hsize
      rw [hsize, queueSize_markQueue]

theorem fragments_reassemble (d : List UInt8) (fragSize : Nat) (parts : List (Nat × Nat)) (hne : d ≠ [])
    (hd : d.length ≤ 65515) (hcut : CutFrom d 0 parts) : Reassembles d fragSize parts (Joined d) := by
  intro seen s hrun f mp hpart hf hjoin
  have hg := assembling_gathers hne hd hcut hrun
  obtain ⟨r, hr, hres⟩ := hg.tracks.arrives hne hd hf (hg.ready hcut hpart hf hjoin)
  refine ⟨r, hr, ?_⟩
  have hparts : ∀ g ∈ f :: seen, (g.start, g.stop) ∈ parts := forall_mem_cons.mpr ⟨hpart, hg.parts⟩
  unfold Exact
  rw [allSeen_iff hcut hparts]
  cases hres with
  | @waits ipf tracks missing =>
    obtain ⟨x, hx, hno⟩ := missing
    exact ⟨fun hall => absurd (hall x hx) hno, fun _ => ⟨rfl, ipf, rfl, tracks.counts⟩⟩
  | @delivers out delivered =>
    exact ⟨fun _ => ⟨rfl, out, rfl, delivered⟩, fun hno => absurd delivered.1 hno⟩

end Reassembly

section Concrete

def threeParts : List (Nat × Nat) := [(0, 8), (8, 16), (16, 24)]

def lastInTwo : List Mblk :=
  [⟨fragmentHeader (countUp 24) 16 24 ++ slice (countUp 24) 16 20, 128⟩, ⟨slice (countUp 24) 20 24, 128⟩]

lemma lastInTwo_fragment : Fragment (countUp 24) 16 24 (fragmentHeader (countUp 24) 16 24) lastInTwo := by
  refine ⟨by unfold HeaderOk; decide, by decide, by decide, by decide, by decide, by decide, by decide, ?_⟩
  exact ⟨_, _, slice (countUp 24) 16 20, rfl, rfl, by decide, by decide, by decide⟩

def firstOnly : Ipf :=
  { queue := [⟨fragmentBlock (countUp 24) 0 8, 0, 0⟩], holeCnt := 0, fend := 8, count := 256 }

/-- The gap in front of the last part is not counted. -/
theorem last_in_blocks_behind_gap : ¬ Reassembles (countUp 24) 128 threeParts fun _ _ _ _ => True := by
  intro hall
  have hfirst : Fragment (countUp 24) 0 8 (fragmentHeader (countUp 24) 0 8) [fragmentBlock (countUp 24) 0 8] :=
    fragment_block (by unfold HeaderOk; decide)
  have hrun : Assembling (countUp 24) 128 threeParts (fun _ _ _ _ => True) [received (countUp 24) 0 8]
      (some firstOnly) := .arrive .idle (by decide) hfirst trivial
    (show ipRputFragment 128 none [fragmentBlock (countUp 24) 0 8] = some (some firstOnly, none) by decide +kernel)
  obtain ⟨r, hr, -, hopen⟩ := hall _ _ hrun (received (countUp 24) 16 24) lastInTwo (by decide)
    lastInTwo_fragment trivial
  have hdone : ((ipRputFragment 128 (some firstOnly) lastInTwo).bind Prod.snd).isSome := by decide +kernel
  rw [hr] at hdone
  have hmissing : ¬ AllSeen threeParts [received (countUp 24) 16 24, received (countUp 24) 0 8] := by
    unfold AllSeen
    decide
  have hnone := (hopen hmissing).1
  simp [hnone] at hdone

/-- The entry after the middle part, and after the last one in two blocks behind it. -/
def middleOnly : Ipf :=
  { queue := [⟨⟨slice (countUp 24) 8 16, 128⟩, 8, 16⟩], holeCnt := 2, fend := 0, count := 256 }

def firstMissing : Ipf :=
  { queue := [⟨⟨slice (countUp 24) 8 16, 128⟩, 8, 16⟩, ⟨⟨slice (countUp 24) 16 20, 128⟩, 16, 20⟩,
      ⟨⟨slice (countUp 24) 20 24, 128⟩, 20, 24⟩]
    holeCnt := 1
    fend := 0
    count := 512 }

theorem fragments_reassemble_backwards : ∃ out,
    Assembling (countUp 24) 128 threeParts (Joined (countUp 24))
      [received (countUp 24) 16 24, received (countUp 24) 8 16] (some firstMissing) ∧
    ipRputFragment 128 (some firstMissing) [fragmentBlock (countUp 24) 0 8] = some (none, some out) ∧
    Delivered (countUp 24)
      [received (countUp 24) 0 8, received (countUp 24) 16 24, received (countUp 24) 8 16] out := by
  have hfirst : Fragment (countUp 24) 0 8 (fragmentHeader (countUp 24) 0 8) [fragmentBlock (countUp 24) 0 8] :=
    fragment_block (by unfold HeaderOk; decide)
  have hmiddle : Fragment (countUp 24) 8 16 (fragmentHeader (countUp 24) 8 16) [fragmentBlock (countUp 24) 8 16] :=
    fragment_block (by unfold HeaderOk; decide)
  have hone : Assembling (countUp 24) 128 threeParts (Joined (countUp 24)) [received (countUp 24) 8 16]
      (some middleOnly) := .arrive .idle (by decide) hmiddle (fun h => absurd h (by decide))
    (show ipRputFragment 128 none [fragmentBlock (countUp 24) 8 16] = some (some middleOnly, none) by decide +kernel)
  have htwo := Assembling.arrive (f := received (countUp 24) 16 24) hone (by decide) lastInTwo_fragment
    (fun _ _ => .inr (.inr ⟨_, mem_cons_self .., rfl⟩))
    (show ipRputFragment 128 (some middleOnly) lastInTwo = some (some firstMissing, none) by decide +kernel)
  obtain ⟨r, hr, hfull, -⟩ := fragments_reassemble (countUp 24) 128 threeParts (by decide) (by decide)
    ⟨rfl, by decide, rfl, by decide, rfl, by decide, by unfold CutFrom; decide⟩ _ _ htwo
    (received (countUp 24) 0 8) _ (by decide) hfirst (fun h => absurd h (by decide))
  obtain ⟨hnone, out, hout, hdel⟩ := hfull (by unfold AllSeen; decide)
  refine ⟨out, htwo, ?_, hdel⟩
  rw [hr, ← hout, ← hnone]

end Concrete

end Solaris.Ip
