import Solaris.Ip.Queue

/-!
# Inserting one piece

What one turn of the walk in `ip_reassemble` does to the queue, to the hole count and to the byte count.
-/

namespace Solaris.Ip

open List Nat

variable {d : List UInt8} {hs : List (List UInt8)} {u : Nat} {hole count : Int} {more : Bool}

/-- Pieces with gaps between them, before the end of the datagram. -/
def Spaced (d : List UInt8) : List Piece → Prop
  | [] => True
  | p :: l => p.stop ≠ d.length ∧ (∀ next ∈ l.head?, p.stop ≠ next.start) ∧ Spaced d l

/-- The pieces that stand behind a new piece from an offset on: those after the run of pieces without
a gap in which the new one starts. -/
def behindFrom (start : Nat) : List Piece → List Piece
  | [] => []
  | mp1 :: rest =>
    match rest with
    | [] => []
    | next :: rest =>
      if next.start ≤ max start mp1.stop then behindFrom (max start mp1.stop) (next :: rest)
      else next :: rest

def behind (start : Nat) : List Piece → List Piece
  | [] => []
  | mp1 :: rest => if start < mp1.start then mp1 :: rest else behindFrom start (mp1 :: rest)

/-- A piece with more to come, or the end of the datagram with nothing in its way. -/
def Clean (d : List UInt8) (more : Bool) (stop : Nat) (rest : List Piece) : Prop :=
  (more = true ∧ stop < d.length) ∨ (more = false ∧ stop = d.length ∧ Spaced d rest)

section Overlap

lemma overlapLoop_stop {mp p : Piece} {l : List Piece} (hge : mp.stop ≤ p.start) :
    overlapLoop more mp hole count (p :: l) = ⟨mp, p :: l, hole, count⟩ := by
  unfold overlapLoop
  rw [if_neg (by omega)]

lemma overlapLoop_trim {mp p : Piece} {l : List Piece} (hlt : p.start < mp.stop) (hgt : mp.stop < p.stop) :
    overlapLoop more mp hole count (p :: l) =
      ⟨{ mp with data := mp.data.take (mp.data.length - (mp.stop - p.start)), stop := p.start },
        p :: l, hole, count⟩ := by
  unfold overlapLoop
  rw [if_pos hlt, if_pos hgt]

def clipped (more : Bool) (mp p : Piece) (l : List Piece) : Int :=
  if (match l with
    | [] => false
    | next :: _ => p.stop != next.start && decide (next.start ≤ mp.stop)) || !more then 1 else 0

lemma overlapLoop_clip {mp p : Piece} {l : List Piece} (hlt : p.start < mp.stop) (hle : p.stop ≤ mp.stop) :
    overlapLoop more mp hole count (p :: l) =
      overlapLoop more mp (hole - clipped more mp p l) (count - p.size) l := by
  conv_lhs => unfold overlapLoop
  rw [if_pos hlt, if_neg hle.not_gt]
  have hite : ∀ c : Bool, hole - (if c then 1 else 0) = if c then hole - 1 else hole := by
    intro c
    cases c
    · exact sub_zero hole
    · rfl
  unfold clipped
  exact congrArg (fun k => overlapLoop more mp k (count - p.size) l) (hite _).symm

/-- What the loop leaves of the pieces behind the new one. -/
structure Merged (d : List UInt8) (hs : List (List UInt8)) (mp : Piece) (q : List Piece) (u : Nat)
    (hole count : Int) (r : Overlap) : Prop where
  ok : PieceOk d hs r.mp
  start : r.mp.start = mp.start
  ordered : Ordered d hs r.mp.stop r.rest
  left : holes d r.mp.stop r.rest + (hole - r.hole) = holes d u q
  covers : ∀ x, Covers (r.mp :: r.rest) x ↔ (mp.start ≤ x ∧ x < mp.stop) ∨ Covers q x
  size : r.count - queueSize (r.mp :: r.rest) = count - mp.size - queueSize q

lemma merged_stop {mp p : Piece} {l : List Piece} (hmp : PieceOk d hs mp)
    (hq : Ordered d hs u (p :: l)) (hge : mp.stop ≤ p.start) :
    Merged d hs mp (p :: l) mp.stop hole count ⟨mp, p :: l, hole, count⟩ where
  ok := hmp
  start := rfl
  ordered := ⟨hge, hq.2⟩
  left := by
    rw [sub_self, add_zero]
  covers := fun x => covers_cons
  size := by
    dsimp only
    rw [queueSize_cons]
    omega

lemma merged_trim {mp p : Piece} {l : List Piece} (hmp : PieceOk d hs mp)
    (hq : Ordered d hs u (p :: l)) (hstart : mp.start < p.start) (hlt : p.start < mp.stop)
    (hgt : mp.stop < p.stop) :
    Merged d hs mp (p :: l) p.start hole count
      ⟨{ mp with data := mp.data.take (mp.data.length - (mp.stop - p.start)), stop := p.start },
        p :: l, hole, count⟩ where
  ok := hmp.trimEnd hstart hlt.le
  start := rfl
  ordered := ⟨le_rfl, hq.2⟩
  left := by
    dsimp only
    omega
  covers := fun x => by
    simp only [covers_cons]
    constructor
    · rintro (⟨h1, h2⟩ | h)
      · exact .inl ⟨h1, by omega⟩
      · exact .inr h
    · rintro (⟨h1, h2⟩ | h)
      · by_cases hx : x < p.start
        · exact .inl ⟨h1, hx⟩
        · exact .inr (.inl ⟨by omega, by omega⟩)
      · exact .inr h
  size := by
    simp only [queueSize_cons]
    omega

lemma Merged.clip {mp p : Piece} {l : List Piece} {v : Nat} {k : Int} {r : Overlap}
    (h : Merged d hs mp l v (hole - k) (count - p.size) r) (hstart : mp.start < p.start)
    (hle : p.stop ≤ mp.stop) (hk : holes d p.stop l = holes d v l + k) :
    Merged d hs mp (p :: l) p.start hole count r where
  ok := h.ok
  start := h.start
  ordered := h.ordered
  left := by
    have := h.left
    rw [holes_cons, if_pos rfl]
    omega
  covers := fun x => by
    rw [h.covers x, covers_cons]
    constructor
    · rintro (h | h)
      · exact .inl h
      · exact .inr (.inr h)
    · rintro (h | ⟨h1, h2⟩ | h)
      · exact .inl h
      · exact .inl ⟨by omega, by omega⟩
      · exact .inr h
  size := by
    have := h.size
    rw [queueSize_cons (q := l)]
    omega

lemma Clean.tail {stop : Nat} {p : Piece} {l : List Piece} (h : Clean d more stop (p :: l)) :
    Clean d more stop l := by
  rcases h with h | ⟨hmore, hstop, hsp⟩
  · exact .inl h
  · exact .inr ⟨hmore, hstop, hsp.2.2⟩

lemma merged_last {mp : Piece} (hmp : PieceOk d hs mp) :
    Merged d hs mp [] mp.stop hole count (overlapLoop more mp hole count []) where
  ok := hmp
  start := rfl
  ordered := trivial
  left := by
    change holes d mp.stop [] + (hole - hole) = _
    omega
  covers := fun x => covers_cons
  size := by
    change count - queueSize [mp] = _
    rw [queueSize_cons]
    omega

lemma overlapLoop_spec {mp p : Piece} {l : List Piece} (hmp : PieceOk d hs mp)
    (hclean : Clean d more mp.stop (p :: l)) (hq : Ordered d hs u (p :: l)) (hstart : mp.start < p.start)
    (hreach : p.start ≤ mp.stop) :
    Merged d hs mp (p :: l) p.start hole count (overlapLoop more mp hole count (p :: l)) := by
  induction l generalizing p u hole count with
  | nil =>
    rcases eq_or_lt_of_le hreach with heq | hlt
    · rw [overlapLoop_stop heq.ge]
      exact heq ▸ merged_stop hmp hq heq.ge
    by_cases hgt : mp.stop < p.stop
    · rw [overlapLoop_trim hlt hgt]
      exact merged_trim hmp hq hstart hlt hgt
    rw [overlapLoop_clip hlt (by omega)]
    refine (merged_last hmp).clip hstart (by omega) ?_
    rw [holes_nil, holes_nil]
    unfold clipped
    rcases hclean with ⟨rfl, hlast⟩ | ⟨rfl, hlast, hsp⟩
    · rw [if_neg (by omega), if_neg (by omega)]
      rfl
    · rw [if_neg hsp.1, if_pos hlast]
      rfl
  | cons next l ih =>
    rcases eq_or_lt_of_le hreach with heq | hlt
    · rw [overlapLoop_stop heq.ge]
      exact heq ▸ merged_stop hmp hq heq.ge
    by_cases hgt : mp.stop < p.stop
    · rw [overlapLoop_trim hlt hgt]
      exact merged_trim hmp hq hstart hlt hgt
    have hpos := hq.2.1.pos
    have hnext := hq.2.2.1
    rw [overlapLoop_clip hlt (by omega)]
    by_cases hcov : next.start ≤ mp.stop
    · refine (ih hclean.tail hq.2.2 (by omega) hcov).clip hstart (by omega) ?_
      rw [holes_cons, holes_cons, if_pos rfl]
      unfold clipped
      by_cases hgap : p.stop = next.start
      · rcases hclean with ⟨rfl, hlast⟩ | ⟨rfl, hlast, hsp⟩
        · simp [hgap]
        · exact absurd hgap (hsp.2.1 next rfl)
      · simp [hgap, hcov]
        omega
    · rw [overlapLoop_stop (by omega)]
      refine (merged_stop hmp hq.2.2 (by omega)).clip hstart (by omega) ?_
      have hmore : more = true := by
        rcases hclean with h | ⟨-, hlast, -⟩
        · exact h.1
        · have := hq.2.2.2.1.pos
          have := hq.2.2.2.1.le
          omega
      rw [holes_cons, holes_cons, if_neg (by omega), if_neg (by omega)]
      unfold clipped
      simp [hcov, hmore]

end Overlap

section Middle

/-- The piece is on the queue, and the two counts were adjusted. -/
structure Inserted (d : List UInt8) (hs : List (List UInt8)) (mp : Piece) (q : List Piece) (u : Nat)
    (hole count : Int) (r : List Piece × Int × Int) : Prop where
  ordered : Ordered d hs u r.1
  left : holes d u r.1 - r.2.1 = holes d u q - hole
  covers : ∀ x, Covers r.1 x ↔ (mp.start ≤ x ∧ x < mp.stop) ∨ Covers q x
  size : r.2.2 - queueSize r.1 = count - mp.size - queueSize q

def Covered (mp : Piece) (q : List Piece) : Prop := ∀ x, mp.start ≤ x → x < mp.stop → Covers q x

lemma inserted_covered {mp : Piece} {q : List Piece} (hq : Ordered d hs u q) (hcov : Covered mp q) :
    Inserted d hs mp q u hole count (q, hole, count - mp.size) where
  ordered := hq
  left := rfl
  covers := fun x => by
    constructor
    · exact .inr
    · rintro (⟨h1, h2⟩ | h)
      · exact hcov x h1 h2
      · exact h
  size := rfl

lemma Inserted.cons {mp mp1 : Piece} {q : List Piece} {r : List Piece × Int × Int}
    (h : Inserted d hs mp q mp1.stop hole count r) (hq : Ordered d hs u (mp1 :: q)) :
    Inserted d hs mp (mp1 :: q) u hole count (mp1 :: r.1, r.2) where
  ordered := ⟨hq.1, hq.2.1, h.ordered⟩
  left := by
    have := h.left
    dsimp only
    rw [holes_cons, holes_cons]
    omega
  covers := fun x => by
    rw [covers_cons, covers_cons, h.covers x]
    exact or_left_comm
  size := by
    have := h.size
    dsimp only
    rw [queueSize_cons, queueSize_cons]
    omega

def Piece.past (mp : Piece) (u : Nat) : Piece := if mp.start < u then mp.trim u else mp

section Past

variable {mp : Piece}

lemma past_start : (mp.past u).start = max mp.start u := by
  unfold Piece.past
  split
  · change u = max mp.start u
    omega
  · omega

@[simp] lemma past_stop : (mp.past u).stop = mp.stop := by
  unfold Piece.past
  split <;> rfl

@[simp] lemma past_size : (mp.past u).size = mp.size := by
  unfold Piece.past
  split <;> rfl

lemma PieceOk.past (h : PieceOk d hs mp) (h0 : mp.start ≠ 0) (hu : u < mp.stop) : PieceOk d hs (mp.past u) := by
  unfold Piece.past
  split
  · exact h.trim h0 (by omega) hu
  · exact h

end Past

lemma Inserted.past {mp mp1 : Piece} {q : List Piece} {r : List Piece × Int × Int}
    (h : Inserted d hs (mp.past mp1.stop) (mp1 :: q) u hole count r) (hge : mp1.start ≤ mp.start) :
    Inserted d hs mp (mp1 :: q) u hole count r where
  ordered := h.ordered
  left := h.left
  covers := fun x => by
    rw [h.covers x, covers_cons, past_start, past_stop]
    constructor
    · rintro (⟨h1, h2⟩ | h)
      · exact .inl ⟨by omega, h2⟩
      · exact .inr h
    · rintro (⟨h1, h2⟩ | h)
      · by_cases hx : x < mp1.stop
        · exact .inr (.inl ⟨by omega, hx⟩)
        · exact .inl ⟨by omega, h2⟩
      · exact .inr h
  size := by
    have := h.size
    rw [past_size] at this
    exact this

lemma Merged.inserted {mp : Piece} {q : List Piece} {v : Nat} {hole' : Int} {r : Overlap}
    (h : Merged d hs mp q v hole count r) (hu : u ≤ mp.start)
    (hk : (if u = mp.start then 0 else 1) + holes d v q - hole = holes d u q - hole') :
    Inserted d hs mp q u hole' count (r.mp :: r.rest, r.hole, r.count) where
  ordered := ⟨h.start ▸ hu, h.ok, h.ordered⟩
  left := by
    have := h.left
    dsimp only
    rw [holes_cons, h.start]
    omega
  covers := h.covers
  size := h.size

lemma fillHole_spec {mp1 mp next : Piece} {rest : List Piece} (hmp : PieceOk d hs mp)
    (hq : Ordered d hs u (mp1 :: next :: rest)) (hlo : mp1.stop ≤ mp.start) (hhi : mp.start < next.start)
    (hclean : Clean d more mp.stop (next :: rest)) :
    Inserted d hs mp (mp1 :: next :: rest) u hole count (fillHole more mp1 mp next rest hole count) := by
  have hnext : holes d mp1.stop (next :: rest) = 1 + holes d next.start (next :: rest) := by
    rw [holes_cons, holes_cons, if_neg (by omega), if_pos rfl, zero_add]
  unfold fillHole
  by_cases hreach : next.start ≤ mp.stop
  · rw [if_pos hreach]
    refine ((overlapLoop_spec hmp hclean hq.2.2 hhi hreach).inserted hlo ?_).cons hq
    split <;> split <;> omega
  rw [if_neg hreach]
  have hm : Merged d hs mp (next :: rest) mp.stop (if mp1.stop < mp.start then hole + 1 else hole) count
      ⟨mp, next :: rest, if mp1.stop < mp.start then hole + 1 else hole, count⟩ :=
    merged_stop hmp hq.2.2 (by omega)
  refine (hm.inserted hlo ?_).cons hq
  rw [holes_cons, holes_cons, if_neg (show ¬ mp.stop = next.start by omega),
    if_neg (show ¬ mp1.stop = next.start by omega)]
  split <;> split <;> omega

lemma middleLoop_in {mp mp1 : Piece} {rest : List Piece} (hin : mp.start < mp1.stop ∧ mp.stop ≤ mp1.stop) :
    middleLoop more hole count mp (mp1 :: rest) = some (mp1 :: rest, hole, count - mp.size) := by
  unfold middleLoop
  rw [if_pos hin]

lemma middleLoop_end {mp mp1 : Piece} (hlt : mp.start < mp1.stop) (hgt : mp1.stop < mp.stop) :
    middleLoop more hole count mp [mp1] =
      some ([mp1, mp.past mp1.stop], if more then hole else hole - 1, count) := by
  unfold middleLoop Piece.past
  rw [if_neg (by omega)]
  simp [hlt]

lemma middleLoop_next {mp mp1 next : Piece} {rest : List Piece}
    (hout : ¬ (mp.start < mp1.stop ∧ mp.stop ≤ mp1.stop)) (hnext : next.start ≤ max mp.start mp1.stop) :
    middleLoop more hole count mp (mp1 :: next :: rest) =
      (middleLoop more hole count (mp.past mp1.stop) (next :: rest)).map fun r => (mp1 :: r.1, r.2) := by
  rw [← past_start] at hnext
  unfold Piece.past at hnext ⊢
  conv_lhs => unfold middleLoop
  rw [if_neg hout]
  simp only [decide_eq_true_eq]
  rw [if_pos hnext]

lemma middleLoop_fill {mp mp1 next : Piece} {rest : List Piece}
    (hout : ¬ (mp.start < mp1.stop ∧ mp.stop ≤ mp1.stop)) (hnext : max mp.start mp1.stop < next.start) :
    middleLoop more hole count mp (mp1 :: next :: rest) =
      some (fillHole more mp1 (mp.past mp1.stop) next rest hole count) := by
  rw [← past_start] at hnext
  unfold Piece.past at hnext ⊢
  conv_lhs => unfold middleLoop
  rw [if_neg hout]
  simp only [decide_eq_true_eq]
  rw [if_neg (by omega)]

lemma middleLoop_covered {mp mp1 : Piece} {rest : List Piece} (hq : Ordered d hs u (mp1 :: rest))
    (hge : mp1.start ≤ mp.start) (hpos : mp.start < mp.stop) (hcov : Covered mp (mp1 :: rest)) :
    middleLoop more hole count mp (mp1 :: rest) = some (mp1 :: rest, hole, count - mp.size) := by
  induction rest generalizing mp mp1 u with
  | nil =>
    have hlast : mp.stop ≤ mp1.stop := by
      have := hcov (mp.stop - 1) (by omega) (by omega)
      simp at this
      omega
    exact middleLoop_in ⟨by omega, hlast⟩
  | cons next rest ih =>
    by_cases hin : mp.start < mp1.stop ∧ mp.stop ≤ mp1.stop
    · exact middleLoop_in hin
    · -- the first byte not in `mp1` is in the rest, which starts with `next`
      have hrest : ∀ x, max mp.start mp1.stop ≤ x → x < mp.stop → Covers (next :: rest) x := by
        intro x hx hlt
        have := hcov x (by omega) hlt
        rw [covers_cons] at this
        rcases this with h | h
        · omega
        · exact h
      have hnext : Ordered d hs next.start (next :: rest) := ⟨le_rfl, hq.2.2.2⟩
      have hfirst := hnext.covers_range (hrest _ le_rfl (by omega))
      rw [middleLoop_next hin hfirst.1, ih hnext]
      · simp
      · rw [past_start]
        exact hfirst.1
      · rw [past_start, past_stop]
        omega
      · intro x hx hlt
        rw [past_start] at hx
        rw [past_stop] at hlt
        exact hrest x hx hlt

lemma behindFrom_next {start : Nat} {mp1 next : Piece} {rest : List Piece}
    (hnext : next.start ≤ max start mp1.stop) :
    behindFrom start (mp1 :: next :: rest) = behindFrom (max start mp1.stop) (next :: rest) := by
  conv_lhs => unfold behindFrom
  dsimp only
  rw [if_pos hnext]

lemma behindFrom_fill {start : Nat} {mp1 next : Piece} {rest : List Piece}
    (hnext : max start mp1.stop < next.start) : behindFrom start (mp1 :: next :: rest) = next :: rest := by
  unfold behindFrom
  dsimp only
  rw [if_neg (by omega)]

lemma inserted_tail {mp mp1 : Piece} (hmp : PieceOk d hs mp) (hq : Ordered d hs u [mp1])
    (hstart : mp.start = mp1.stop) (hclean : Clean d more mp.stop []) :
    Inserted d hs mp [mp1] u hole count ([mp1, mp], if more then hole else hole - 1, count) where
  ordered := ⟨hq.1, hq.2.1, hstart.ge, hmp, trivial⟩
  left := by
    have hpos := hmp.pos
    rw [holes_cons, holes_cons, holes_cons, holes_nil, holes_nil, if_pos hstart.symm]
    rcases hclean with ⟨rfl, hlast⟩ | ⟨rfl, hlast, -⟩
    · rw [if_neg (show ¬ mp.stop = d.length by omega), if_neg (show ¬ mp1.stop = d.length by omega)]
      simp
    · rw [if_pos hlast, if_neg (show ¬ mp1.stop = d.length by omega)]
      simp
      omega
  covers := fun x => by
    simp only [covers_cons, covers_nil, or_false]
    exact or_comm
  size := by
    simp only [queueSize_cons, queueSize_nil]
    omega

lemma middleLoop_spec {mp mp1 : Piece} {rest : List Piece} (hmp : PieceOk d hs mp) (h0 : mp.start ≠ 0)
    (hq : Ordered d hs u (mp1 :: rest)) (hge : mp1.start ≤ mp.start) (hlt : mp.start < endOf u (mp1 :: rest))
    (hclean : Clean d more mp.stop (behindFrom mp.start (mp1 :: rest))) :
    ∃ r, middleLoop more hole count mp (mp1 :: rest) = some r ∧
      Inserted d hs mp (mp1 :: rest) u hole count r := by
  have hpos := hmp.pos
  induction rest generalizing mp mp1 u with
  | nil =>
    by_cases hin : mp.start < mp1.stop ∧ mp.stop ≤ mp1.stop
    · refine ⟨_, middleLoop_in hin, inserted_covered hq fun x h1 h2 => ?_⟩
      rw [covers_cons]
      exact .inl ⟨by omega, by omega⟩
    rw [endOf_cons, endOf_nil] at hlt
    refine ⟨_, middleLoop_end hlt (by omega), ?_⟩
    refine (inserted_tail (hmp.past h0 (by omega)) hq ?_ ?_).past hge
    · rw [past_start]
      omega
    · rw [past_stop]
      exact hclean
  | cons next rest ih =>
    by_cases hin : mp.start < mp1.stop ∧ mp.stop ≤ mp1.stop
    · refine ⟨_, middleLoop_in hin, inserted_covered hq fun x h1 h2 => ?_⟩
      rw [covers_cons]
      exact .inl ⟨by omega, by omega⟩
    have hpast := hmp.past (u := mp1.stop) h0 (by omega)
    rcases lt_or_ge (max mp.start mp1.stop) next.start with hfill | hnext
    · rw [behindFrom_fill hfill] at hclean
      refine ⟨_, middleLoop_fill hin hfill, (fillHole_spec hpast hq ?_ ?_ ?_).past hge⟩
      · rw [past_start]
        omega
      · rw [past_start]
        omega
      · rw [past_stop]
        exact hclean
    rw [behindFrom_next hnext] at hclean
    rw [middleLoop_next hin hnext]
    have hend := hq.2.2.2.2.le_endOf
    have hnpos := hq.2.2.2.1.pos
    have hrest := hq.2.2.1
    obtain ⟨r, hr, hins⟩ := ih hpast (by rw [past_start]; omega) hq.2.2 (by rw [past_start]; omega)
      (by
        rw [past_start]
        simp only [endOf_cons] at hlt hend ⊢
        omega)
      (by rw [past_start, past_stop]; exact hclean) (by rw [past_start, past_stop]; omega)
    rw [hr]
    exact ⟨_, rfl, (hins.cons hq).past hge⟩

end Middle

section Insert

/-- The hard case: the pieces in order, the holes counted, the sizes added up. -/
structure Queued (d : List UInt8) (hs : List (List UInt8)) (fragSize : Nat) (ipf : Ipf) : Prop where
  hard : ipf.fend = 0
  ordered : Ordered d hs 0 ipf.queue
  counted : ipf.queue ≠ [] → ipf.holeCnt = holes d 0 ipf.queue
  size : ipf.count = fragSize + queueSize ipf.queue

/-- The pieces the counts are right for: one that brings nothing new; one with more to come, which
is not a second piece from offset 0; the end of the datagram, where the pieces behind it are spaced;
a block of the last fragment before the end, right behind the tail or the first of all. -/
inductive Admitted (d : List UInt8) (mp : Piece) (q : List Piece) : Bool → Bool → Prop
  | covered {more hasNext : Bool} (h : Covered mp q) : Admitted d mp q more hasNext
  | more {hasNext : Bool} (hstop : mp.stop < d.length) (hstart : mp.start = 0 → ∃ p ∈ q.head?, p.start ≠ 0) :
    Admitted d mp q true hasNext
  | last (hstop : mp.stop = d.length) (hstart : mp.start ≠ 0) (hsp : Spaced d (behind mp.start q)) :
    Admitted d mp q false false
  | block (hstop : mp.stop < d.length) (hstart : mp.start ≠ 0) (htail : q = [] ∨ mp.start = endOf 0 q) :
    Admitted d mp q false true

structure Grown (d : List UInt8) (hs : List (List UInt8)) (fragSize : Nat) (mp : Piece) (ipf ipf' : Ipf) :
    Prop where
  queued : Queued d hs fragSize ipf'
  covers : ∀ x, Covers ipf'.queue x ↔ (mp.start ≤ x ∧ x < mp.stop) ∨ Covers ipf.queue x
  ne : ipf'.queue ≠ []

lemma endOf_eq_getLast {q : List Piece} (hq : q ≠ []) : endOf u q = (q.getLast hq).stop := by
  induction q generalizing u with
  | nil => exact absurd rfl hq
  | cons p q ih =>
    cases q with
    | nil => rfl
    | cons next q =>
      rw [endOf_cons, ih (cons_ne_nil _ _), getLast_cons (cons_ne_nil _ _)]

lemma Inserted.grown {fragSize : Nat} {ipf : Ipf} {mp : Piece} {r : List Piece × Int × Int}
    (h : Inserted d hs mp ipf.queue 0 ipf.holeCnt (ipf.count + mp.size) r) (hq : Queued d hs fragSize ipf)
    (hne : ipf.queue ≠ []) (hmp : mp.start < mp.stop) :
    Grown d hs fragSize mp ipf { ipf with queue := r.1, holeCnt := r.2.1, count := r.2.2 } where
  queued := {
    hard := hq.hard
    ordered := h.ordered
    counted := fun _ => by
      have := h.left
      have := hq.counted hne
      dsimp only
      omega
    size := by
      have := h.size
      have := hq.size
      dsimp only
      omega }
  covers := h.covers
  ne := by
    intro hnil
    have := (h.covers mp.start).mpr (.inl ⟨le_rfl, hmp⟩)
    rw [show r.1 = [] from hnil, covers_nil] at this
    exact this

section Cases

variable {fragSize : Nat} {ipf : Ipf} {mp mp1 : Piece} {rest : List Piece} {hasNext : Bool}

lemma insertFirst_spec (hq : Queued d hs fragSize ipf) (hmp : PieceOk d hs mp) (hnil : ipf.queue = [])
    (hadm : Admitted d mp [] more hasNext) : Grown d hs fragSize mp ipf (insertFirst ipf mp more hasNext) := by
  have hpos := hmp.pos
  have hstart : mp.start ≠ 0 := by
    cases hadm with
    | covered h => exact absurd (h mp.start le_rfl hpos) (by simp)
    | more _ h =>
      intro h0
      obtain ⟨p, hp, -⟩ := h h0
      simp at hp
    | last _ h _ => exact h
    | block _ h _ => exact h
  unfold insertFirst
  refine ⟨⟨hq.hard, ⟨zero_le _, hmp, trivial⟩, fun _ => ?_, ?_⟩, fun x => ?_, cons_ne_nil _ _⟩
  · dsimp only
    rw [holes_cons, holes_nil, if_neg (Ne.symm hstart)]
    cases hadm with
    | covered h => exact absurd (h mp.start le_rfl hpos) (by simp)
    | more h _ => simp [hstart, h.ne]
    | last h _ _ => simp [h]
    | block h _ _ => simp [h.ne]
  · have := hq.size
    rw [hnil, queueSize_nil] at this
    dsimp only
    rw [queueSize_cons, queueSize_nil]
    omega
  · rw [hnil]
    exact covers_cons

lemma insertTail_spec (hq : Queued d hs fragSize ipf) (hmp : PieceOk d hs mp) (hne : ipf.queue ≠ [])
    (htail : endOf 0 ipf.queue ≤ mp.start) (hadm : Admitted d mp ipf.queue more hasNext) :
    Grown d hs fragSize mp ipf (insertTail ipf mp (endOf 0 ipf.queue) more hasNext) := by
  have hpos := hmp.pos
  have hle := hmp.le
  unfold insertTail
  refine ⟨⟨hq.hard, ordered_append.mpr ⟨hq.ordered, htail, hmp, trivial⟩, fun _ => ?_, ?_⟩, fun x => ?_,
    append_ne_nil_of_right_ne_nil _ (cons_ne_nil _ _)⟩
  · have hcnt := hq.counted hne
    have hold : holes d 0 ipf.queue = gaps 0 ipf.queue + 1 := by
      unfold holes openEnd
      rw [if_neg (by omega)]
    have hnew : holes d 0 (ipf.queue ++ [mp]) =
        gaps 0 ipf.queue + ((if endOf 0 ipf.queue = mp.start then 0 else 1) +
          if mp.stop = d.length then 0 else 1) := by
      unfold holes openEnd
      rw [gaps_append, endOf_append, gaps_cons, endOf_cons, endOf_nil]
      change gaps 0 ipf.queue + (_ + 0) + _ = _
      omega
    rw [hnew, hcnt, hold]
    cases hadm with
    | covered h =>
      have := hq.ordered.covers_range (h mp.start le_rfl hpos)
      omega
    | more h _ =>
      rw [if_neg h.ne]
      by_cases heq : mp.start = endOf 0 ipf.queue
      · simp [heq]
      · simp [heq, Ne.symm heq]
        omega
    | last h _ _ =>
      rw [if_pos h]
      by_cases heq : mp.start = endOf 0 ipf.queue
      · simp [heq]
      · simp [heq, Ne.symm heq]
    | block h _ hend =>
      rcases hend with hnil | heq
      · exact absurd hnil hne
      · simp [heq, h.ne]
  · have := hq.size
    dsimp only
    rw [queueSize_append, queueSize_cons, queueSize_nil]
    omega
  · dsimp only
    rw [covers_append, covers_cons, or_comm]
    simp

lemma Admitted.clean (hadm : Admitted d mp ipf.queue more hasNext) (hcov : ¬ Covered mp ipf.queue)
    (hne : ipf.queue ≠ []) (hlt : mp.start < endOf 0 ipf.queue) :
    Clean d more mp.stop (behind mp.start ipf.queue) := by
  cases hadm with
  | covered h => exact absurd h hcov
  | more h _ => exact .inl ⟨rfl, h⟩
  | last h _ hsp => exact .inr ⟨rfl, h, hsp⟩
  | block _ _ hend =>
    rcases hend with hnil | heq
    · exact absurd hnil hne
    · omega

section

variable (hq : Queued d hs fragSize ipf) (hmp : PieceOk d hs mp)

include hq hmp

lemma insertFront_spec (hqueue : ipf.queue = mp1 :: rest) (hlt : mp.start < mp1.start)
    (hadm : Admitted d mp ipf.queue more hasNext) :
    Grown d hs fragSize mp ipf (insertFront ipf mp mp1 rest more) := by
  have hpos := hmp.pos
  have hne : ipf.queue ≠ [] := by
    rw [hqueue]
    exact cons_ne_nil _ _
  have hord := hq.ordered
  rw [hqueue] at hord
  have hhead : Ordered d hs mp1.start (mp1 :: rest) := ⟨le_rfl, hord.2⟩
  have hend := hhead.lt_endOf (cons_ne_nil _ _)
  have hcov : ¬ Covered mp ipf.queue := by
    intro hcov
    have := hcov mp.start le_rfl hpos
    rw [hqueue] at this
    have := hhead.covers_range this
    omega
  have hclean := hadm.clean hcov hne (by rw [hqueue]; exact hlt.trans hend)
  rw [hqueue, show behind mp.start (mp1 :: rest) = mp1 :: rest from if_pos hlt] at hclean
  have hold : holes d 0 ipf.queue = 1 + holes d mp1.start (mp1 :: rest) := by
    rw [hqueue, holes_cons, holes_cons, if_neg (by omega), if_pos rfl, zero_add]
  unfold insertFront
  refine Inserted.grown (r := (_ :: _, _, _)) ?_ hq hne hpos
  rw [hqueue] at hold ⊢
  by_cases hreach : mp1.start ≤ mp.stop
  · refine (overlapLoop_spec hmp hclean hord hlt hreach).inserted (zero_le _) ?_
    rw [hold]
    by_cases h0 : mp.start = 0
    · simp [h0, hreach]
      omega
    · simp [h0, Ne.symm h0, hreach]
  rw [overlapLoop_stop (by omega)]
  refine (merged_stop hmp hord (by omega)).inserted (zero_le _) ?_
  rw [hold, holes_cons, holes_cons, if_pos rfl, if_neg (show ¬ mp.stop = mp1.start by omega)]
  by_cases h0 : mp.start = 0
  · simp [h0, hreach]
  · simp [h0, Ne.symm h0, show mp.stop < mp1.start by omega]
    omega

lemma middle_spec (hqueue : ipf.queue = mp1 :: rest) (hge : mp1.start ≤ mp.start) (hlt : mp.start < endOf 0 ipf.queue)
    (hadm : Admitted d mp ipf.queue more hasNext) :
    ∃ r, middleLoop more ipf.holeCnt (ipf.count + mp.size) mp ipf.queue = some r ∧
      Grown d hs fragSize mp ipf { ipf with queue := r.1, holeCnt := r.2.1, count := r.2.2 } := by
  have hne : ipf.queue ≠ [] := by
    rw [hqueue]
    exact cons_ne_nil _ _
  have hord := hq.ordered
  suffices h : ∃ r, middleLoop more ipf.holeCnt (ipf.count + mp.size) mp ipf.queue = some r ∧
      Inserted d hs mp ipf.queue 0 ipf.holeCnt (ipf.count + mp.size) r by
    obtain ⟨r, hr, hins⟩ := h
    exact ⟨r, hr, hins.grown hq hne hmp.pos⟩
  by_cases hcov : Covered mp ipf.queue
  · refine ⟨_, ?_, inserted_covered hord hcov⟩
    rw [hqueue] at hord hcov ⊢
    exact middleLoop_covered hord hge hmp.pos hcov
  have hclean := hadm.clean hcov hne hlt
  have h0 : mp.start ≠ 0 := by
    cases hadm with
    | covered h => exact absurd h hcov
    | more _ h =>
      intro h0
      obtain ⟨p, hp, hp0⟩ := h h0
      rw [hqueue, head?_cons, Option.mem_some_iff] at hp
      rw [← hp] at hp0
      omega
    | last _ h _ => exact h
    | block _ h _ => exact h
  rw [hqueue] at hord hlt hclean ⊢
  rw [show behind mp.start (mp1 :: rest) = _ from if_neg (by omega)] at hclean
  exact middleLoop_spec hmp h0 hord hge hlt hclean

lemma insertPiece_spec (hadm : Admitted d mp ipf.queue more hasNext) :
    ∃ ipf', insertPiece ipf mp more hasNext = some ipf' ∧ Grown d hs fragSize mp ipf ipf' := by
  unfold insertPiece
  split
  · rename_i hnil
    exact ⟨_, rfl, insertFirst_spec hq hmp hnil (hnil ▸ hadm)⟩
  rename_i mp1 rest hqueue
  have hne : ipf.queue ≠ [] := by
    rw [hqueue]
    exact cons_ne_nil _ _
  have hlast : ((mp1 :: rest).getLast (cons_ne_nil mp1 rest)).stop = endOf 0 ipf.queue := by
    rw [hqueue, endOf_eq_getLast]
  rw [hlast]
  by_cases htail : endOf 0 ipf.queue ≤ mp.start
  · rw [if_pos htail]
    exact ⟨_, rfl, insertTail_spec hq hmp hne htail hadm⟩
  rw [if_neg htail]
  split_ifs with hlt
  · exact ⟨_, rfl, insertFront_spec hq hmp hqueue hlt hadm⟩
  · rw [← hqueue]
    obtain ⟨r, hr, hgrown⟩ := middle_spec hq hmp hqueue (by omega) (by omega) hadm
    rw [hr]
    exact ⟨_, rfl, hgrown⟩

end

end Cases

end Insert

end Solaris.Ip
