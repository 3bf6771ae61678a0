import Mathlib.Tactic

/-!
# IP reassembly

The fragment path of `ip_rput_local` for the fragments of one source, ident and protocol, and
`ip_reassemble`. A message is the list of its blocks; the reassembly queue is the chain behind the
frag header, and `ipf_tail_mp` its last block. A dereference of a null pointer is `none`. The
partial checksums and the statistics are left out.
-/

namespace Solaris.Ip

section Reassembly

/-- A message block: the bytes from `b_rptr` to `b_wptr`, and `db_lim - db_base`. -/
structure Mblk where
  data : List UInt8
  size : Nat
  deriving DecidableEq

structure Piece extends Mblk where
  start : Nat
  stop : Nat
  deriving DecidableEq

/-- The frag header. `fend` is the next offset expected, zero when the queue is not in order. -/
structure Ipf where
  queue : List Piece
  holeCnt : Int
  fend : Nat
  count : Int
  deriving DecidableEq

section Header

def hdrLength (data : List UInt8) : Nat := (data.headD 0).toNat % 16 * 4

def iphaLength (data : List UInt8) : Nat := (data.getD 2 0).toNat * 256 + (data.getD 3 0).toNat

/-- `IPH_MF` and `IPH_OFFSET` of the flags. -/
def offsetAndFlags (data : List UInt8) : Nat :=
  ((data.getD 6 0).toNat * 256 + (data.getD 7 0).toNat) % 0x4000

/-- The length is set again and the fragment state zeroed. -/
def restoreHeader (data : List UInt8) : List UInt8 :=
  (((data.set 2 (UInt8.ofNat (data.length / 256))).set 3 (UInt8.ofNat data.length)).set 6 0).set 7 0

end Header

section Insert

/-- What the loop over overlapped pieces leaves: the new piece, what follows it, the hole count and
the byte count. -/
structure Overlap where
  mp : Piece
  rest : List Piece
  hole : Int
  count : Int

/-- The loop `while (end > u1)` over the pieces behind the new one. -/
def overlapLoop (more : Bool) (mp : Piece) (hole count : Int) : List Piece → Overlap
  | [] => ⟨mp, [], hole, count⟩
  | mp1 :: rest =>
    if mp1.start < mp.stop then
      if mp.stop < mp1.stop then
        ⟨{ mp with
            data := mp.data.take (mp.data.length - (mp.stop - mp1.start))
            stop := mp1.start }, mp1 :: rest, hole, count⟩
      else
        -- did we cover another hole?
        let covered := match rest with
          | [] => false
          | next :: _ => mp1.stop != next.start && decide (next.start ≤ mp.stop)
        overlapLoop more mp (if covered || !more then hole - 1 else hole) (count - mp1.size) rest
    else ⟨mp, mp1 :: rest, hole, count⟩

/-- The new piece goes into the hole between `mp1` and `next`. -/
def fillHole (more : Bool) (mp1 mp next : Piece) (rest : List Piece) (hole count : Int) :
    List Piece × Int × Int :=
  let hole := if mp1.stop < mp.start then hole + 1 else hole
  if next.start ≤ mp.stop then
    let r := overlapLoop more mp (hole - 1) count (next :: rest)
    (mp1 :: r.mp :: r.rest, r.hole, r.count)
  else (mp1 :: mp :: next :: rest, hole, count)

/-- Redundant stuff is trimmed off the beginning of the new piece. -/
def Piece.trim (mp : Piece) (u : Nat) : Piece :=
  { mp with data := mp.data.drop (u - mp.start), start := u }

/-- The loop for a piece that starts between the start of the head and the end of the tail. -/
def middleLoop (more : Bool) (hole count : Int) : Piece → List Piece → Option (List Piece × Int × Int)
  | _, [] => some ([], hole, count)
  | mp, mp1 :: rest =>
    if mp.start < mp1.stop ∧ mp.stop ≤ mp1.stop then
      -- nothing new
      some (mp1 :: rest, hole, count - mp.size)
    else
      let cut := decide (mp.start < mp1.stop)
      let mp := if cut then mp.trim mp1.stop else mp
      match rest with
      | [] =>
        -- after trimming, this guy is now hanging off the end
        if cut then some ([mp1, mp], if more then hole else hole - 1, count) else none
      | next :: rest =>
        if next.start ≤ mp.start then
          (middleLoop more hole count mp (next :: rest)).map fun r => (mp1 :: r.1, r.2)
        else some (fillHole more mp1 mp next rest hole count)

def insertFirst (ipf : Ipf) (mp : Piece) (more hasNext : Bool) : Ipf :=
  { ipf with
    queue := [mp]
    holeCnt := if mp.start = 0 ∨ more = false then (if hasNext then 2 else 1) else 2
    count := ipf.count + mp.size }

/-- New stuff at the front, before `mp1`. -/
def insertFront (ipf : Ipf) (mp mp1 : Piece) (rest : List Piece) (more : Bool) : Ipf :=
  let hole :=
    if mp.start = 0 then (if mp1.start ≤ mp.stop then ipf.holeCnt - 1 else ipf.holeCnt)
    else if mp.stop < mp1.start then ipf.holeCnt + 1
    else ipf.holeCnt
  let r := overlapLoop more mp hole (ipf.count + mp.size) (mp1 :: rest)
  { ipf with queue := r.mp :: r.rest, holeCnt := r.hole, count := r.count }

/-- New stuff at or beyond the tail, which ends at `u`. -/
def insertTail (ipf : Ipf) (mp : Piece) (u : Nat) (more hasNext : Bool) : Ipf :=
  { ipf with
    queue := ipf.queue ++ [mp]
    holeCnt :=
      if more then (if mp.start ≠ u then ipf.holeCnt + 1 else ipf.holeCnt)
      else if mp.start = u ∧ hasNext = false then ipf.holeCnt - 1
      else ipf.holeCnt
    count := ipf.count + mp.size }

def insertPiece (ipf : Ipf) (mp : Piece) (more hasNext : Bool) : Option Ipf :=
  match ipf.queue with
  | [] => some (insertFirst ipf mp more hasNext)
  | mp1 :: rest =>
    let u := ((mp1 :: rest).getLast (List.cons_ne_nil mp1 rest)).stop
    if u ≤ mp.start then some (insertTail ipf mp u more hasNext)
    else if mp.start < mp1.start then some (insertFront ipf mp mp1 rest more)
    else
      (middleLoop more ipf.holeCnt (ipf.count + mp.size) mp (mp1 :: rest)).map fun r =>
        { ipf with queue := r.1, holeCnt := r.2.1, count := r.2.2 }

end Insert

section Walk

def walk (more : Bool) : Nat → List Mblk → Ipf → Option Ipf
  | _, [], ipf => some ipf
  | start, mp :: rest, ipf =>
    let stop :=
      if start = 0 then start + mp.data.length - hdrLength mp.data else start + mp.data.length
    if start = stop then walk more stop rest ipf
    else (insertPiece ipf { mp with start, stop } more (!rest.isEmpty)).bind (walk more stop rest)

/-- The queue of the in-order scheme is marked for the hard case. -/
def markQueue : Nat → List Piece → List Piece
  | _, [] => []
  | u, mp :: rest =>
    let stop := if u ≠ 0 then u + mp.data.length else mp.data.length - hdrLength mp.data
    { mp with start := u, stop } :: markQueue stop rest

def Ipf.toHard (ipf : Ipf) : Ipf :=
  if ipf.fend ≠ 0 then { ipf with queue := markQueue 0 ipf.queue, holeCnt := 1, fend := 0 } else ipf

def ipReassemble (mp : List Mblk) (ipf : Ipf) (more : Bool) (start : Nat) : Option (Bool × Ipf) :=
  (walk more start mp ipf.toHard).map fun ipf => (ipf.holeCnt == 0, ipf)

end Walk

section Input

def message (queue : List Piece) : List UInt8 := (queue.map fun p => p.data).flatten

def Mblk.plain (mp : Mblk) : Piece := { mp with start := 0, stop := 0 }

def sizes (mp : List Mblk) : Nat := (mp.map Mblk.size).sum

/-- The fragment path of `ip_rput_local`: the entry afterwards and the datagram delivered, if any.
`fragSize` is the size of the block that holds the frag header. -/
def ipRputFragment (fragSize : Nat) (s : Option Ipf) : List Mblk → Option (Option Ipf × Option (List UInt8))
  | [] => none
  | first :: rest =>
    let u1 := offsetAndFlags first.data
    let more := decide (0x2000 ≤ u1)
    let offset := u1 % 0x2000 * 8
    let hdr := hdrLength first.data
    let len := iphaLength first.data - hdr
    if len = 0 then some (s, none)
    else
      let mp := if offset ≠ 0 then { first with data := first.data.drop hdr } :: rest else first :: rest
      match s with
      | none =>
        if offset = 0 then
          some (some { queue := mp.map Mblk.plain, holeCnt := 0, fend := len, count := fragSize + sizes mp },
            none)
        else
          -- a hole at the beginning
          (ipReassemble mp { queue := [], holeCnt := 0, fend := 0, count := fragSize } more offset).map
            fun r => (some r.2, none)
      | some ipf =>
        if offset ≠ 0 ∧ ipf.fend = offset then
          let queue := ipf.queue ++ mp.map Mblk.plain
          if more then
            some (some { ipf with queue, fend := len + offset, count := ipf.count + sizes mp }, none)
          else some (none, some (restoreHeader (message queue)))
        else
          (ipReassemble mp ipf more offset).map fun r =>
            if r.1 then (none, some (restoreHeader (message r.2.queue))) else (some r.2, none)

end Input

end Reassembly

/-!
## The reassembly queue

Pieces in order, each with its bytes of the original datagram; the gaps in front of, between and
behind them; and the trimming of a piece at either end.
-/

section Held

open List

/-- The bytes from `a` to `b`. -/
def slice (d : List UInt8) (a b : Nat) : List UInt8 := (d.drop a).take (b - a)

section Slices

variable {d : List UInt8} {a b c : Nat}

lemma length_slice (hb : b ≤ d.length) : (slice d a b).length = b - a := by
  unfold slice
  rw [length_take, length_drop]
  omega

lemma slice_append (hab : a ≤ b) (hbc : b ≤ c) : slice d a b ++ slice d b c = slice d a c := by
  unfold slice
  have h1 : c - a = (b - a) + (c - b) := by omega
  have h2 : b = a + (b - a) := by omega
  rw [h1, take_add, drop_drop, ← h2]

lemma take_slice (hc : c - a ≤ b - a) : (slice d a b).take (c - a) = slice d a c := by
  unfold slice
  rw [take_take, Nat.min_eq_left hc]

lemma drop_slice (hac : a ≤ c) : (slice d a b).drop (c - a) = slice d c b := by
  unfold slice
  rw [drop_take, drop_drop]
  congr 1
  · omega
  · congr 1
    omega

lemma slice_full : slice d 0 d.length = d := by
  unfold slice
  rw [drop_zero, Nat.sub_zero, take_length]

end Slices

section Pieces

variable (d : List UInt8) (hs : List (List UInt8))

def HeaderOk (h : List UInt8) : Prop := 20 ≤ h.length ∧ hdrLength h = h.length

/-- The piece holds its bytes of the datagram, the first one behind one of the headers. -/
structure PieceOk (p : Piece) : Prop where
  pos : p.start < p.stop
  le : p.stop ≤ d.length
  first : p.start = 0 → ∃ h ∈ hs, HeaderOk h ∧ p.data = h ++ slice d 0 p.stop
  later : p.start ≠ 0 → p.data = slice d p.start p.stop

def Ordered (u : Nat) : List Piece → Prop
  | [] => True
  | p :: l => u ≤ p.start ∧ PieceOk d hs p ∧ Ordered p.stop l

def endOf (u : Nat) : List Piece → Nat
  | [] => u
  | p :: l => endOf p.stop l

def gaps (u : Nat) : List Piece → Int
  | [] => 0
  | p :: l => (if u = p.start then 0 else 1) + gaps p.stop l

def openEnd (u : Nat) (q : List Piece) : Int := if endOf u q = d.length then 0 else 1

/-- All gaps from an offset on, the unknown end among them. -/
def holes (u : Nat) (q : List Piece) : Int := gaps u q + openEnd d u q

def queueSize (q : List Piece) : Int := (q.map fun p => (p.size : Int)).sum

def Covers (q : List Piece) (x : Nat) : Prop := ∃ p ∈ q, p.start ≤ x ∧ x < p.stop

variable {d hs} {u v x : Nat} {p : Piece} {q r : List Piece}

@[simp] lemma endOf_nil : endOf u [] = u := rfl

@[simp] lemma endOf_cons : endOf u (p :: q) = endOf p.stop q := rfl

@[simp] lemma endOf_append : endOf u (q ++ r) = endOf (endOf u q) r := by
  induction q generalizing u with
  | nil => rfl
  | cons p q ih => exact ih

lemma gaps_cons : gaps u (p :: q) = (if u = p.start then 0 else 1) + gaps p.stop q := rfl

lemma holes_cons : holes d u (p :: q) = (if u = p.start then 0 else 1) + holes d p.stop q := by
  unfold holes openEnd
  rw [gaps_cons, endOf_cons, add_assoc]

lemma holes_nil : holes d u [] = if u = d.length then 0 else 1 := by
  unfold holes openEnd gaps
  rw [endOf_nil, zero_add]

lemma ordered_cons : Ordered d hs u (p :: q) ↔ u ≤ p.start ∧ PieceOk d hs p ∧ Ordered d hs p.stop q :=
  Iff.rfl

@[simp] lemma gaps_append : gaps u (q ++ r) = gaps u q + gaps (endOf u q) r := by
  induction q generalizing u with
  | nil => simp [gaps]
  | cons p q ih =>
    rw [cons_append, gaps_cons, gaps_cons, ih, endOf_cons]
    omega

@[simp] lemma queueSize_nil : queueSize [] = 0 := rfl

@[simp] lemma queueSize_cons : queueSize (p :: q) = p.size + queueSize q := rfl

@[simp] lemma queueSize_append : queueSize (q ++ r) = queueSize q + queueSize r := by
  unfold queueSize
  rw [map_append, sum_append]

@[simp] lemma covers_nil : Covers [] x ↔ False := by simp [Covers]

@[simp] lemma covers_cons : Covers (p :: q) x ↔ (p.start ≤ x ∧ x < p.stop) ∨ Covers q x := by
  simp [Covers]

@[simp] lemma covers_append : Covers (q ++ r) x ↔ Covers q x ∨ Covers r x := by
  unfold Covers
  simp only [mem_append, or_and_right, exists_or]

lemma PieceOk.mono {hs' : List (List UInt8)} (h : PieceOk d hs p) (hsub : hs ⊆ hs') : PieceOk d hs' p := by
  refine ⟨h.pos, h.le, ?_, h.later⟩
  intro h0
  obtain ⟨hd, hmem, hok⟩ := h.first h0
  exact ⟨hd, hsub hmem, hok⟩

lemma Ordered.headers {hs' : List (List UInt8)} (h : Ordered d hs u q) (hsub : hs ⊆ hs') :
    Ordered d hs' u q := by
  induction q generalizing u with
  | nil => trivial
  | cons p q ih => exact ⟨h.1, h.2.1.mono hsub, ih h.2.2⟩

lemma ordered_append :
    Ordered d hs u (q ++ r) ↔ Ordered d hs u q ∧ Ordered d hs (endOf u q) r := by
  induction q generalizing u with
  | nil => simp [Ordered]
  | cons p q ih =>
    rw [cons_append, ordered_cons, ordered_cons, ih, endOf_cons]
    tauto

lemma Ordered.le_endOf (h : Ordered d hs u q) : u ≤ endOf u q := by
  induction q generalizing u with
  | nil => exact le_rfl
  | cons p q ih =>
    have := ih h.2.2
    have := h.2.1.pos
    have := h.1
    rw [endOf_cons]
    omega

lemma Ordered.lt_endOf (h : Ordered d hs u q) (hq : q ≠ []) : u < endOf u q := by
  cases q with
  | nil => exact absurd rfl hq
  | cons p q =>
    have := h.2.2.le_endOf
    have := h.2.1.pos
    have := h.1
    rw [endOf_cons]
    omega

lemma Ordered.covers_range (h : Ordered d hs u q) (hx : Covers q x) : u ≤ x ∧ x < endOf u q := by
  induction q generalizing u with
  | nil => simp at hx
  | cons p q ih =>
    rw [covers_cons] at hx
    have hpos := h.2.1.pos
    have hle := h.1
    have hend := h.2.2.le_endOf
    rw [endOf_cons]
    rcases hx with hx | hx
    · omega
    · have := ih h.2.2 hx
      omega

lemma gaps_nonneg : 0 ≤ gaps u q := by
  induction q generalizing u with
  | nil => exact le_rfl
  | cons p q ih =>
    rw [gaps_cons]
    have := @ih p.stop
    split <;> omega

lemma Ordered.complete_iff (h : Ordered d hs u q) (hu : u ≤ d.length) :
    holes d u q = 0 ↔ ∀ x, u ≤ x → x < d.length → Covers q x := by
  unfold holes
  induction q generalizing u with
  | nil =>
    unfold gaps openEnd
    rw [endOf_nil]
    constructor
    · intro h0 x hx hlt
      split at h0
      · omega
      · omega
    · intro hall
      rw [if_pos]
      · rfl
      · by_contra hne
        have := hall u le_rfl (by omega)
        simp at this
  | cons p q ih =>
    have hrest := ih h.2.2 h.2.1.le
    have hnn : 0 ≤ gaps p.stop q := gaps_nonneg
    have hopen : 0 ≤ openEnd d p.stop q := by
      unfold openEnd
      split <;> omega
    have hopen' : openEnd d u (p :: q) = openEnd d p.stop q := rfl
    have hpos := h.2.1.pos
    rw [hopen', gaps_cons]
    constructor
    · intro h0 x hx hlt
      rw [covers_cons]
      rcases Nat.lt_or_ge x p.stop with hlow | hhigh
      · exact .inl ⟨by omega, hlow⟩
      · exact .inr (hrest.mp (by omega) x hhigh hlt)
    · intro hall
      have hstart : u = p.start := by
        have hcov := hall u le_rfl (by have := h.1; have := h.2.1.le; omega)
        rw [covers_cons] at hcov
        rcases hcov with hcov | hcov
        · have := h.1
          omega
        · have := h.2.2.covers_range hcov
          have := h.1
          omega
      have := hrest.mpr fun x hx hlt => by
        have hcov := hall x (by omega) hlt
        rw [covers_cons] at hcov
        rcases hcov with hcov | hcov
        · omega
        · exact hcov
      omega

lemma Ordered.message_later (h : Ordered d hs u q) (hu : u ≠ 0) (hg : gaps u q = 0) :
    message q = slice d u (endOf u q) := by
  induction q generalizing u with
  | nil => simp [message, slice]
  | cons p q ih =>
    rw [gaps_cons] at hg
    have hnn : 0 ≤ gaps p.stop q := gaps_nonneg
    have hstart : u = p.start := by
      by_contra hne
      omega
    subst hstart
    rw [if_pos rfl, zero_add] at hg
    have hpos := h.2.1.pos
    have hrest := ih h.2.2 (by omega) hg
    have hend := h.2.2.le_endOf
    change p.data ++ message q = _
    rw [hrest, h.2.1.later hu, slice_append (by omega) hend, endOf_cons]

lemma Ordered.message_eq (h : Ordered d hs 0 q) (hd : d ≠ []) (hg : holes d 0 q = 0) :
    ∃ hd ∈ hs, HeaderOk hd ∧ message q = hd ++ d := by
  unfold holes at hg
  have hnn : 0 ≤ gaps 0 q := gaps_nonneg
  have hlen : 0 < d.length := length_pos_iff.mpr hd
  have hend : endOf 0 q = d.length := by
    unfold openEnd at hg
    by_contra hne
    omega
  cases q with
  | nil =>
    rw [endOf_nil] at hend
    omega
  | cons p q =>
    have hg0 : gaps 0 (p :: q) = 0 := by
      unfold openEnd at hg
      omega
    rw [gaps_cons] at hg0
    have hnn' : 0 ≤ gaps p.stop q := gaps_nonneg
    have hstart : 0 = p.start := by
      by_contra hne
      omega
    rw [if_pos hstart, zero_add] at hg0
    obtain ⟨hdr, hmem, hok, hdata⟩ := h.2.1.first hstart.symm
    refine ⟨hdr, hmem, hok, ?_⟩
    have hpos := h.2.1.pos
    change p.data ++ message q = _
    rw [hdata, h.2.2.message_later (by omega) hg0, append_assoc,
      slice_append (Nat.zero_le _) h.2.2.le_endOf, ← endOf_cons, hend, slice_full]

lemma PieceOk.trimEnd (h : PieceOk d hs p) (hlo : p.start < v) (hhi : v ≤ p.stop) :
    PieceOk d hs { p with data := p.data.take (p.data.length - (p.stop - v)), stop := v } := by
  have hle := h.le
  refine ⟨hlo, by dsimp only; omega, ?_, ?_⟩
  · intro h0
    obtain ⟨hdr, hmem, hok, hdata⟩ := h.first h0
    refine ⟨hdr, hmem, hok, ?_⟩
    have hlen : p.data.length - (p.stop - v) = hdr.length + (v - 0) := by
      rw [hdata, length_append, length_slice hle]
      omega
    rw [hlen, hdata, take_append, take_of_length_le (by omega), Nat.add_sub_cancel_left,
      take_slice (by omega)]
  · intro h0
    have hdata := h.later h0
    have hlen : p.data.length - (p.stop - v) = v - p.start := by
      rw [hdata, length_slice hle]
      omega
    rw [hlen, hdata, take_slice (by omega)]

lemma PieceOk.trim (h : PieceOk d hs p) (h0 : p.start ≠ 0) (hlo : p.start ≤ v) (hhi : v < p.stop) :
    PieceOk d hs (p.trim v) := by
  refine ⟨hhi, h.le, ?_, ?_⟩
  · intro hv
    change v = 0 at hv
    omega
  · intro _
    change p.data.drop (v - p.start) = slice d v p.stop
    rw [h.later h0, drop_slice hlo]

end Pieces

end Held

end Solaris.Ip
