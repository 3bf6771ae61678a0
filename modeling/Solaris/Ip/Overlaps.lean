import Solaris.Ip.Arrival

/-!
# Overlapping fragments

Runs of the fragment path over fragments of one datagram that may overlap in any way, one block each. A fragment
with `IPH_MF` clear may take off a hole too many in `ip_reassemble`, and a second fragment from offset 0 leaves its
header in the data.
-/

namespace Solaris.Ip

open List Nat

variable {d : List UInt8} {fragSize : Nat}

structure Received where
  start : Nat
  stop : Nat
  header : List UInt8

def Seen (seen : List Received) (x : Nat) : Prop := ∃ f ∈ seen, f.start ≤ x ∧ x < f.stop

instance (seen : List Received) (x : Nat) : Decidable (Seen seen x) :=
  inferInstanceAs (Decidable (∃ f ∈ seen, f.start ≤ x ∧ x < f.stop))

def headers (seen : List Received) : List (List UInt8) :=
  (seen.filter fun f => f.start = 0).map Received.header

def restored (h : List UInt8) (len : Nat) : List UInt8 :=
  (((h.set 2 (UInt8.ofNat (len / 256))).set 3 (UInt8.ofNat len)).set 6 0).set 7 0

/-- The whole datagram behind a header received at offset 0, with nothing missing. -/
def Delivered (d : List UInt8) (seen : List Received) (out : List UInt8) : Prop :=
  (∀ x < d.length, Seen seen x) ∧
    ∃ f ∈ seen, f.start = 0 ∧ out = restored f.header (f.header.length + d.length) ++ d

/-- Runs of the fragment path in which every fragment meets a condition on the queue before it. The
entry may be thrown away at any time. -/
inductive Receiving (d : List UInt8) (fragSize : Nat) (ok : Nat → Nat → List Piece → Prop) :
    List Received → Option Ipf → Prop
  | idle : Receiving d fragSize ok [] none
  | arrive {seen : List Received} {s : Option Ipf} {f : Received} {mp : Mblk} {ipf : Ipf}
    (run : Receiving d fragSize ok seen s) (fragment : Fragment d f.start f.stop f.header [mp])
    (clear : ok f.start f.stop (pieces s)) (step : ipRputFragment fragSize s [mp] = some (some ipf, none)) :
    Receiving d fragSize ok (f :: seen) (some ipf)
  | deliver {seen : List Received} {s : Option Ipf} {f : Received} {mp : Mblk} {out : List UInt8}
    (run : Receiving d fragSize ok seen s) (fragment : Fragment d f.start f.stop f.header [mp])
    (clear : ok f.start f.stop (pieces s)) (step : ipRputFragment fragSize s [mp] = some (none, some out)) :
    Receiving d fragSize ok [] none
  | discard {seen : List Received} {s : Option Ipf} (run : Receiving d fragSize ok seen s) :
    Receiving d fragSize ok [] none

/-- Nothing new; or no last fragment over pieces that touch or end the datagram, and no second one
from offset 0. -/
def Clear (d : List UInt8) (a b : Nat) (q : List Piece) : Prop :=
  (∀ x, a ≤ x → x < b → Covers q x) ∨
    ((b = d.length → Spaced d (behind a q)) ∧ (a = 0 → ∀ p ∈ q.head?, p.start ≠ 0))

def Sound (d : List UInt8) (fragSize : Nat) (ok : Nat → Nat → List Piece → Prop) : Prop :=
  ∀ seen s, Receiving d fragSize ok seen s → ∀ f mp, Fragment d f.start f.stop f.header [mp] →
    ok f.start f.stop (pieces s) →
    ∃ r, ipRputFragment fragSize s [mp] = some r ∧ ∀ out, r.2 = some out → Delivered d (f :: seen) out

lemma restoreHeader_append {h : List UInt8} (hok : HeaderOk h) :
    restoreHeader (h ++ d) = restored h (h.length + d.length) ++ d := by
  have hlen := hok.1
  unfold restoreHeader restored
  rw [length_append]
  rw [set_append_left _ _ (by omega), set_append_left _ _ (by rw [length_set]; omega),
    set_append_left _ _ (by rw [length_set, length_set]; omega),
    set_append_left _ _ (by rw [length_set, length_set, length_set]; omega)]

section Headers

variable {hs hs' : List (List UInt8)} {ipf : Ipf}

lemma Queued.headers (h : Queued d hs fragSize ipf) (hsub : hs ⊆ hs') : Queued d hs' fragSize ipf :=
  ⟨h.hard, h.ordered.headers hsub, h.counted, h.size⟩

lemma Entry.headers {s : Option Ipf} (h : Entry d hs fragSize s) (hsub : hs ⊆ hs') :
    Entry d hs' fragSize s := by
  intro ipf hs
  have hheld := h ipf hs
  exact ⟨hheld.queued.headers hsub, hheld.ne, hheld.inOrder⟩

lemma headers_cons_subset {f : Received} {seen : List Received} : headers seen ⊆ headers (f :: seen) := by
  intro h hmem
  obtain ⟨g, hg, rfl⟩ := mem_map.mp hmem
  obtain ⟨hmem, h0⟩ := mem_filter.mp hg
  exact mem_map_of_mem (mem_filter.mpr ⟨mem_cons_of_mem _ hmem, h0⟩)

lemma mem_headers_self {f : Received} {seen : List Received} (h0 : f.start = 0) :
    f.header ∈ headers (f :: seen) := by
  exact mem_map_of_mem (mem_filter.mpr ⟨mem_cons_self .., by simpa using h0⟩)

end Headers

structure Tracks (d : List UInt8) (fragSize : Nat) (seen : List Received) (s : Option Ipf) : Prop where
  entry : Entry d (headers seen) fragSize s
  covers : ∀ x, Covers (pieces s) x ↔ Seen seen x

lemma tracks_idle : Tracks d fragSize [] none where
  entry := fun _ h => by cases h
  covers := fun x => by simp [pieces, Seen]

lemma seen_cons {f : Received} {seen : List Received} {x : Nat} :
    Seen (f :: seen) x ↔ (f.start ≤ x ∧ x < f.stop) ∨ Seen seen x := by
  simp [Seen]

/-- What an arrival comes to, in terms of what was received. -/
inductive Arrives (d : List UInt8) (fragSize : Nat) (seen : List Received) :
    Option Ipf × Option (List UInt8) → Prop
  | waits {ipf : Ipf} (tracks : Tracks d fragSize seen (some ipf)) (missing : ∃ x < d.length, ¬ Seen seen x) :
    Arrives d fragSize seen (some ipf, none)
  | delivers {out : List UInt8} (delivered : Delivered d seen out) : Arrives d fragSize seen (none, some out)

lemma Tracks.arrives {seen : List Received} {s : Option Ipf} {f : Received} {mp : List Mblk}
    (ht : Tracks d fragSize seen s) (hne : d ≠ []) (hd : d.length ≤ 65515)
    (hf : Fragment d f.start f.stop f.header mp)
    (hready : s ≠ none → Ready d (decide (f.stop ≠ d.length)) f.start f.stop mp (pieces s)) :
    ∃ r, ipRputFragment fragSize s mp = some r ∧ Arrives d fragSize (f :: seen) r := by
  obtain ⟨r, hr, hout⟩ := ipRputFragment_spec hd (ht.entry.headers headers_cons_subset) hf mem_headers_self hready
  refine ⟨r, hr, ?_⟩
  have hseen : ∀ l : List Piece, (∀ x, Covers l x ↔ (f.start ≤ x ∧ x < f.stop) ∨ Covers (pieces s) x) →
      ∀ x, Covers l x ↔ Seen (f :: seen) x := by
    intro l hl x
    rw [hl x, ht.covers x, seen_cons]
  cases hout with
  | @waits ipf held covers hole =>
    have hcov := hseen _ covers
    refine .waits ⟨fun ipf' h => ?_, hcov⟩ ?_
    · cases h
      exact held
    · by_contra hall
      push Not at hall
      refine hole ((held.queued.ordered.complete_iff (zero_le _)).mpr fun x _ hx => ?_)
      exact (hcov x).mpr (hall x hx)
  | @delivers l ordered covers full =>
    have hcov := hseen _ covers
    obtain ⟨h, hmem, hok, hmsg⟩ := ordered.message_eq hne full
    obtain ⟨g, hg, rfl⟩ := mem_map.mp hmem
    obtain ⟨hgmem, hg0⟩ := mem_filter.mp hg
    refine .delivers ⟨fun x hx => ?_, g, hgmem, by simpa using hg0, ?_⟩
    · exact (hcov x).mp ((ordered.complete_iff (zero_le _)).mp full x (zero_le _) hx)
    · rw [hmsg, restoreHeader_append hok]

section Soundness

variable {a b : Nat} {mp : Mblk} {s : Option Ipf} {seen : List Received}

lemma Clear.ready {h : List UInt8} (hc : Clear d a b (pieces s)) (hf : Fragment d a b h [mp])
    (hE : Entry d (headers seen) fragSize s) (hs0 : s ≠ none) :
    Ready d (decide (b ≠ d.length)) a b [mp] (pieces s) := by
  have hle := hf.le
  rcases hc with hcov | ⟨hsp, h0⟩
  · exact .inl hcov
  by_cases hb : b = d.length
  · have ha : a ≠ 0 := by
      intro ha
      have hne := hf.fragmented
      rw [hf.flags, ha] at hne
      exact hne (if_pos hb)
    exact .inr (.inr ⟨by simp [hb], hb, ha, hsp hb, .inl rfl⟩)
  refine .inr (.inl ⟨by simp [hb], by omega, fun ha => ?_⟩)
  obtain ⟨ipf, rfl⟩ := Option.ne_none_iff_exists'.mp hs0
  have hhead := h0 ha
  have hq := (hE ipf rfl).ne
  change ∃ p ∈ ipf.toHard.queue.head?, p.start ≠ 0
  obtain ⟨p, l, hpl⟩ := exists_cons_of_ne_nil hq
  refine ⟨p, ?_, hhead p ?_⟩
  · rw [hpl]
    rfl
  · change p ∈ ipf.toHard.queue.head?
    rw [hpl]
    rfl

lemma receiving_tracks (hne : d ≠ []) (hd : d.length ≤ 65515)
    (hrun : Receiving d fragSize (Clear d) seen s) : Tracks d fragSize seen s := by
  induction hrun with
  | idle => exact tracks_idle
  | arrive _ hf hclear hstep ih =>
    obtain ⟨r, hr, hres⟩ := ih.arrives hne hd hf (hclear.ready hf ih.entry)
    rw [hstep] at hr
    cases hr
    cases hres with
    | waits tracks _ => exact tracks
  | deliver => exact tracks_idle
  | discard => exact tracks_idle

theorem reassembly_sound (d : List UInt8) (fragSize : Nat) (hne : d ≠ []) (hd : d.length ≤ 65515) :
    Sound d fragSize (Clear d) := by
  intro seen s hrun f mp hf hclear
  have ht := receiving_tracks hne hd hrun
  obtain ⟨r, hr, hres⟩ := ht.arrives hne hd hf (hclear.ready hf ht.entry)
  refine ⟨r, hr, fun out hout => ?_⟩
  cases hres with
  | waits _ _ => cases hout
  | delivers delivered =>
    cases hout
    exact delivered

end Soundness

section Concrete

def shortHeader (len flags : Nat) : List UInt8 :=
  [0x45, 0, UInt8.ofNat (len / 256), UInt8.ofNat len, 0, 0, UInt8.ofNat (flags / 256), UInt8.ofNat flags,
    64, 17, 0, 0, 10, 0, 0, 1, 10, 0, 0, 2]

def countUp (n : Nat) : List UInt8 := (List.range n).map UInt8.ofNat

/-- The header of the fragment from `a` to `b`. -/
def fragmentHeader (d : List UInt8) (a b : Nat) : List UInt8 :=
  shortHeader (20 + (b - a)) ((if b = d.length then 0 else 0x2000) + a / 8)

def fragmentBlock (d : List UInt8) (a b : Nat) : Mblk := ⟨fragmentHeader d a b ++ slice d a b, 128⟩

def received (d : List UInt8) (a b : Nat) : Received := ⟨a, b, fragmentHeader d a b⟩

lemma fragment_block {d : List UInt8} {a b : Nat} (h : a < b ∧ b ≤ d.length ∧ 8 ∣ a ∧ HeaderOk (fragmentHeader d a b) ∧
      offsetAndFlags (fragmentHeader d a b) = (if b = d.length then 0 else 0x2000) + a / 8 ∧
      offsetAndFlags (fragmentHeader d a b) ≠ 0 ∧
      iphaLength (fragmentHeader d a b) = (fragmentHeader d a b).length + (b - a)) :
    Fragment d a b (fragmentHeader d a b) [fragmentBlock d a b] := by
  obtain ⟨hlt, hle, hal, hok, hflags, hfrag, hlen⟩ := h
  refine ⟨hok, hlt, hle, hal, hflags, hfrag, hlen, _, [], slice d a b, rfl, rfl, ?_, by simp, by simp⟩
  intro hnil
  have := length_slice (d := d) (a := a) hle
  rw [hnil] at this
  simp at this
  omega

def loneTail : Ipf :=
  { queue := [⟨⟨slice (countUp 40) 32 40, 128⟩, 32, 40⟩], holeCnt := 1, fend := 0, count := 256 }

lemma loneTail_eq :
    ipRputFragment 128 none [fragmentBlock (countUp 40) 32 40] = some (some loneTail, none) := by
  decide +kernel

/-- A longer last fragment over the last one closes the hole at the front. -/
theorem longer_last_fragment_unsound : ¬ Sound (countUp 40) 128 fun _ _ _ => True := by
  intro hsound
  have htail : Fragment (countUp 40) 32 40 (fragmentHeader (countUp 40) 32 40) [fragmentBlock (countUp 40) 32 40] :=
    fragment_block (by unfold HeaderOk; decide)
  have hlong : Fragment (countUp 40) 8 40 (fragmentHeader (countUp 40) 8 40) [fragmentBlock (countUp 40) 8 40] :=
    fragment_block (by unfold HeaderOk; decide)
  have hrun : Receiving (countUp 40) 128 (fun _ _ _ => True) [received (countUp 40) 32 40] (some loneTail) :=
    .arrive .idle htail trivial loneTail_eq
  obtain ⟨r, hr, hall⟩ := hsound _ _ hrun (received (countUp 40) 8 40) _ hlong trivial
  have hstep : ipRputFragment 128 (some loneTail) [fragmentBlock (countUp 40) 8 40] =
      some (none, some (restoreHeader (slice (countUp 40) 8 40))) := by decide +kernel
  rw [hstep] at hr
  cases hr
  have hcov := (hall _ rfl).1 0 (by decide)
  exact absurd hcov (by decide)

def longTail : Ipf :=
  { queue := [⟨⟨slice (countUp 24) 8 24, 128⟩, 8, 24⟩], holeCnt := 1, fend := 0, count := 256 }

theorem reassembly_sound_overlap : ∃ out,
    Receiving (countUp 24) 128 (Clear (countUp 24)) [received (countUp 24) 8 24] (some longTail) ∧
    ipRputFragment 128 (some longTail) [fragmentBlock (countUp 24) 0 16] = some (none, some out) ∧
    Delivered (countUp 24) [received (countUp 24) 0 16, received (countUp 24) 8 24] out := by
  have htail : Fragment (countUp 24) 8 24 (fragmentHeader (countUp 24) 8 24) [fragmentBlock (countUp 24) 8 24] :=
    fragment_block (by unfold HeaderOk; decide)
  have hhead : Fragment (countUp 24) 0 16 (fragmentHeader (countUp 24) 0 16) [fragmentBlock (countUp 24) 0 16] :=
    fragment_block (by unfold HeaderOk; decide)
  have hfirst : Clear (countUp 24) 8 24 (pieces none) := .inr ⟨fun _ => trivial, fun h => absurd h (by decide)⟩
  have hsecond : Clear (countUp 24) 0 16 (pieces (some longTail)) := by
    refine .inr ⟨fun h => absurd h (by decide), fun _ p hp => ?_⟩
    cases hp
    decide
  have hrun := Receiving.arrive (f := received (countUp 24) 8 24) .idle htail hfirst
    (show ipRputFragment 128 none [fragmentBlock (countUp 24) 8 24] = some (some longTail, none) by decide +kernel)
  obtain ⟨r, hr, hall⟩ := reassembly_sound (countUp 24) 128 (by decide) (by decide) _ _ hrun
    (received (countUp 24) 0 16) _ hhead hsecond
  have hdone : (ipRputFragment 128 (some longTail) [fragmentBlock (countUp 24) 0 16]).isSome ∧
      ((ipRputFragment 128 (some longTail) [fragmentBlock (countUp 24) 0 16]).bind Prod.snd).isSome ∧
      (ipRputFragment 128 (some longTail) [fragmentBlock (countUp 24) 0 16]).map Prod.fst = some none := by
    decide +kernel
  rw [hr] at hdone
  obtain ⟨s, o⟩ := r
  obtain ⟨-, ho, hs⟩ := hdone
  obtain ⟨out, rfl⟩ := Option.isSome_iff_exists.mp ho
  cases hs
  exact ⟨out, hrun, hr, hall out rfl⟩

end Concrete

end Solaris.Ip
