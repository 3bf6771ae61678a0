import Solaris.Ip.Insert

/-!
# The arrival of a fragment

The blocks of a fragment as pieces, the walk through them, and what the fragment path makes of the entry.
-/

namespace Solaris.Ip

open List Nat

variable {d : List UInt8} {hs : List (List UInt8)} {u : Nat} {more : Bool} {fragSize : Nat}

section Blocks

/-- Blocks that carry the bytes from `a` to `b`, each at least one, the first of all behind a header. -/
structure Carries (d : List UInt8) (hs : List (List UInt8)) (a b : Nat) (mp : List Mblk) : Prop where
  ordered : Ordered d hs a (markQueue a (mp.map Mblk.plain))
  gapless : gaps a (markQueue a (mp.map Mblk.plain)) = 0
  ends : endOf a (markQueue a (mp.map Mblk.plain)) = b

/-- The offset where a block ends that starts at an offset. -/
def stopOf (start : Nat) (data : List UInt8) : Nat :=
  if start ≠ 0 then start + data.length else data.length - hdrLength data

lemma markQueue_cons {p : Piece} {q : List Piece} :
    markQueue u (p :: q) =
      { p with start := u, stop := stopOf u p.data } :: markQueue (stopOf u p.data) q := rfl

lemma Carries.head {a b : Nat} {mp : Mblk} {rest : List Mblk} (h : Carries d hs a b (mp :: rest)) :
    PieceOk d hs { mp with start := a, stop := stopOf a mp.data } := h.ordered.2.1

lemma Carries.rest {a b : Nat} {mp : Mblk} {rest : List Mblk} (h : Carries d hs a b (mp :: rest)) :
    Carries d hs (stopOf a mp.data) b rest := by
  refine ⟨h.ordered.2.2, ?_, h.ends⟩
  have := h.gapless
  rw [map_cons, markQueue_cons, gaps_cons, if_pos rfl, zero_add] at this
  exact this

lemma Carries.le {a b : Nat} {mp : List Mblk} (h : Carries d hs a b mp) : a ≤ b :=
  h.ends ▸ h.ordered.le_endOf

lemma Carries.lt {a b : Nat} {mp : Mblk} {rest : List Mblk} (h : Carries d hs a b (mp :: rest)) : a < b :=
  h.ends ▸ h.ordered.lt_endOf (cons_ne_nil _ _)

lemma split_slice {a b : Nat} {l r : List UInt8} (hb : b ≤ d.length) (hab : a ≤ b)
    (h : l ++ r = slice d a b) :
    a + l.length ≤ b ∧ l = slice d a (a + l.length) ∧ r = slice d (a + l.length) b := by
  have hlen := congrArg List.length h
  rw [length_append, length_slice hb] at hlen
  have hle : a + l.length ≤ b := by omega
  rw [← slice_append (le_add_right a l.length) hle] at h
  have hinj := append_inj h (by rw [length_slice (by omega)]; omega)
  exact ⟨hle, hinj⟩

lemma carries_later {a b : Nat} {mp : List Mblk} (ha : a ≠ 0) (hb : b ≤ d.length) (hab : a ≤ b)
    (hne : ∀ m ∈ mp, m.data ≠ []) (hbytes : (mp.map Mblk.data).flatten = slice d a b) :
    Carries d hs a b mp := by
  induction mp generalizing a with
  | nil =>
    have hlen := congrArg List.length hbytes
    rw [length_slice hb] at hlen
    have : a = b := by
      simp at hlen
      omega
    subst this
    exact ⟨trivial, rfl, rfl⟩
  | cons m mp ih =>
    have hpos : 0 < m.data.length := length_pos_iff.mpr (hne m (mem_cons_self ..))
    obtain ⟨hle, hdata, hrest⟩ := split_slice hb hab hbytes
    have hstop : stopOf a m.data = a + m.data.length := if_pos ha
    have htail := ih (by omega) hle (fun x hx => hne x (mem_cons_of_mem _ hx)) hrest
    rw [← hstop] at htail hdata
    refine ⟨⟨le_rfl, ⟨?_, ?_, ?_, ?_⟩, htail.ordered⟩, ?_, htail.ends⟩
    · change a < stopOf a m.data
      omega
    · change stopOf a m.data ≤ d.length
      omega
    · exact fun h0 => absurd h0 ha
    · exact fun _ => hdata
    · rw [map_cons, markQueue_cons, gaps_cons, if_pos rfl, zero_add]
      exact htail.gapless

lemma hdrLength_append {h l : List UInt8} (hok : HeaderOk h) : hdrLength (h ++ l) = h.length := by
  have hlen := hok.1
  cases h with
  | nil => simp at hlen
  | cons x h => exact hok.2

lemma carries_first {b : Nat} {m : Mblk} {mp : List Mblk} {h chunk : List UInt8} (hok : HeaderOk h)
    (hmem : h ∈ hs) (hb : b ≤ d.length) (hdata : m.data = h ++ chunk) (hchunk : chunk ≠ [])
    (hne : ∀ x ∈ mp, x.data ≠ []) (hbytes : chunk ++ (mp.map Mblk.data).flatten = slice d 0 b) :
    Carries d hs 0 b (m :: mp) := by
  have hpos : 0 < chunk.length := length_pos_iff.mpr hchunk
  obtain ⟨hle, hslice, hrest⟩ := split_slice hb (zero_le b) hbytes
  rw [zero_add] at hle hslice hrest
  have hstop : stopOf 0 m.data = chunk.length := by
    unfold stopOf
    rw [if_neg (by omega), hdata, hdrLength_append hok, length_append]
    omega
  have htail : Carries d hs (stopOf 0 m.data) b mp :=
    carries_later (by omega) hb (by omega) hne (by rw [hstop]; exact hrest)
  refine ⟨⟨le_rfl, ⟨?_, ?_, ?_, ?_⟩, htail.ordered⟩, ?_, htail.ends⟩
  · change 0 < stopOf 0 m.data
    omega
  · change stopOf 0 m.data ≤ d.length
    omega
  · intro _
    refine ⟨h, hmem, hok, ?_⟩
    change m.data = h ++ slice d 0 (stopOf 0 m.data)
    rw [hstop, ← hslice, hdata]
  · exact fun h0 => absurd rfl h0
  · rw [map_cons, markQueue_cons, gaps_cons, if_pos rfl, zero_add]
    exact htail.gapless

end Blocks

section Walk

/-- When the walk through the blocks of a fragment counts right. -/
def Ready (d : List UInt8) (more : Bool) (a b : Nat) (mp : List Mblk) (q : List Piece) : Prop :=
  (∀ x, a ≤ x → x < b → Covers q x) ∨
  (more = true ∧ b < d.length ∧ (a = 0 → ∃ p ∈ q.head?, p.start ≠ 0)) ∨
  (more = false ∧ b = d.length ∧ a ≠ 0 ∧ Spaced d (behind a q) ∧ (mp.length = 1 ∨ q = [] ∨ endOf 0 q = a))

lemma behindFrom_nil {start : Nat} {q : List Piece} (hq : Ordered d hs u q) (hend : endOf u q ≤ start) :
    behindFrom start q = [] := by
  induction q generalizing u with
  | nil => rfl
  | cons p q ih =>
    cases q with
    | nil => rfl
    | cons next q =>
      have hle := hq.2.2.le_endOf
      have hpos := hq.2.2.2.1.pos
      have hnext := hq.2.2.2.2.le_endOf
      simp only [endOf_cons] at hle hnext hend
      rw [behindFrom_next (by omega), max_eq_left (by omega)]
      exact ih hq.2.2 hend

lemma behind_nil {start : Nat} {q : List Piece} (hq : Ordered d hs u q) (hend : endOf u q ≤ start) :
    behind start q = [] := by
  cases q with
  | nil => rfl
  | cons p q =>
    have hle := hq.2.2.le_endOf
    have hpos := hq.2.1.pos
    rw [endOf_cons] at hend
    unfold behind
    dsimp only
    rw [if_neg (by omega)]
    exact behindFrom_nil hq hend

lemma Ordered.covers_last {q : List Piece} (h : Ordered d hs u q) (hq : q ≠ []) :
    Covers q (endOf u q - 1) := by
  induction q generalizing u with
  | nil => exact absurd rfl hq
  | cons p q ih =>
    rw [endOf_cons, covers_cons]
    cases q with
    | nil =>
      have := h.2.1.pos
      rw [endOf_nil]
      exact .inl ⟨by omega, by omega⟩
    | cons next q => exact .inr (ih h.2.2 (cons_ne_nil _ _))

lemma Grown.endOf_eq {mp : Piece} {ipf ipf' : Ipf} (h : Grown d hs fragSize mp ipf ipf')
    (hmp : mp.start < mp.stop) (hend : ∀ x, Covers ipf.queue x → x < mp.stop) :
    endOf 0 ipf'.queue = mp.stop := by
  have hlast := (h.covers _).mp (h.queued.ordered.covers_last h.ne)
  have hle : endOf 0 ipf'.queue ≤ mp.stop := by
    rcases hlast with hin | hold
    · omega
    · have := hend _ hold
      omega
  have hstop := (h.covers (mp.stop - 1)).mpr (.inl ⟨by omega, by omega⟩)
  have := h.queued.ordered.covers_range hstop
  omega

lemma walk_cons {a : Nat} {m : Mblk} {mp : List Mblk} {ipf : Ipf} (hlt : a < stopOf a m.data) :
    walk more a (m :: mp) ipf =
      (insertPiece ipf { m with start := a, stop := stopOf a m.data } more (!mp.isEmpty)).bind
        (walk more (stopOf a m.data) mp) := by
  have hstop : (if a = 0 then a + m.data.length - hdrLength m.data else a + m.data.length) =
      stopOf a m.data := by
    unfold stopOf
    by_cases ha : a = 0
    · rw [if_pos ha, if_neg (by omega), ha, zero_add]
    · rw [if_neg ha, if_pos ha]
  conv_lhs => unfold walk
  simp only [hstop]
  rw [if_neg hlt.ne]

lemma Ready.admitted {a b : Nat} {m : Mblk} {mp : List Mblk} {q : List Piece}
    (hready : Ready d more a b (m :: mp) q) (hc : Carries d hs a b (m :: mp)) :
    Admitted d { m with start := a, stop := stopOf a m.data } q more (!mp.isEmpty) := by
  have hle := hc.rest.le
  rcases hready with hcov | ⟨rfl, hb, h0⟩ | ⟨rfl, hb, h0, hsp, hblocks⟩
  · exact .covered fun x h1 h2 => hcov x h1 (lt_of_lt_of_le h2 hle)
  · exact .more (lt_of_le_of_lt hle hb) h0
  · cases mp with
    | nil => exact .last (hc.rest.ends.trans hb) h0 hsp
    | cons next mp =>
      have hlt := hc.rest.lt
      refine .block (by dsimp only; omega) h0 ?_
      rcases hblocks with hone | hnil | heq
      · simp at hone
      · exact .inl hnil
      · exact .inr heq.symm

lemma Ready.next {a b : Nat} {m next : Mblk} {mp : List Mblk} {ipf ipf' : Ipf}
    (hready : Ready d more a b (m :: next :: mp) ipf.queue) (hc : Carries d hs a b (m :: next :: mp))
    (hq : Queued d hs fragSize ipf)
    (hg : Grown d hs fragSize { m with start := a, stop := stopOf a m.data } ipf ipf') :
    Ready d more (stopOf a m.data) b (next :: mp) ipf'.queue := by
  have hpos := hc.head.pos
  dsimp only at hpos
  rcases hready with hcov | ⟨rfl, hb, h0⟩ | ⟨rfl, hb, h0, hsp, hblocks⟩
  · exact .inl fun x h1 h2 => (hg.covers x).mpr (.inr (hcov x (by omega) h2))
  · exact .inr (.inl ⟨rfl, hb, fun h => absurd h (by omega)⟩)
  · have hend : endOf 0 ipf'.queue = stopOf a m.data := by
      refine hg.endOf_eq hpos fun x hx => ?_
      rcases hblocks with hone | hnil | heq
      · simp at hone
      · rw [hnil, covers_nil] at hx
        exact hx.elim
      · have := hq.ordered.covers_range hx
        dsimp only
        omega
    refine .inr (.inr ⟨rfl, hb, by omega, ?_, .inr (.inr hend)⟩)
    rw [behind_nil hg.queued.ordered hend.le]
    trivial

lemma walk_spec {a b : Nat} {mp : List Mblk} {ipf : Ipf} (hq : Queued d hs fragSize ipf)
    (hne : mp ≠ []) (hc : Carries d hs a b mp) (hready : Ready d more a b mp ipf.queue) :
    ∃ ipf', walk more a mp ipf = some ipf' ∧ Queued d hs fragSize ipf' ∧ ipf'.queue ≠ [] ∧
      ∀ x, Covers ipf'.queue x ↔ (a ≤ x ∧ x < b) ∨ Covers ipf.queue x := by
  induction mp generalizing a ipf with
  | nil => exact absurd rfl hne
  | cons m mp ih =>
    have hpos := hc.head.pos
    dsimp only at hpos
    have hle := hc.rest.le
    obtain ⟨ipf1, hins, hg⟩ := insertPiece_spec hq hc.head (hready.admitted hc)
    rw [walk_cons hpos, hins, Option.bind_some]
    cases mp with
    | nil =>
      have hb : stopOf a m.data = b := hc.rest.ends
      refine ⟨ipf1, rfl, hg.queued, hg.ne, fun x => ?_⟩
      rw [hg.covers x, hb]
    | cons next mp =>
      obtain ⟨ipf2, hwalk, hq2, hne2, hcov⟩ :=
        ih hg.queued (cons_ne_nil _ _) hc.rest (hready.next hc hq hg)
      refine ⟨ipf2, hwalk, hq2, hne2, fun x => ?_⟩
      rw [hcov x, hg.covers x]
      dsimp only
      constructor
      · rintro (⟨h1, h2⟩ | ⟨h1, h2⟩ | h)
        · exact .inl ⟨by omega, h2⟩
        · exact .inl ⟨h1, by omega⟩
        · exact .inr h
      · rintro (⟨h1, h2⟩ | h)
        · by_cases hx : x < stopOf a m.data
          · exact .inr (.inl ⟨h1, hx⟩)
          · exact .inl ⟨by omega, h2⟩
        · exact .inr (.inr h)

end Walk

section Fragments

/-- A fragment with the bytes from `a` to `b`: the first block holds the header, and every block at
least one byte of data. -/
structure Fragment (d : List UInt8) (a b : Nat) (h : List UInt8) (mp : List Mblk) : Prop where
  header : HeaderOk h
  lt : a < b
  le : b ≤ d.length
  aligned : 8 ∣ a
  flags : offsetAndFlags h = (if b = d.length then 0 else 0x2000) + a / 8
  fragmented : offsetAndFlags h ≠ 0
  length : iphaLength h = h.length + (b - a)
  blocks : ∃ m rest chunk, mp = m :: rest ∧ m.data = h ++ chunk ∧ chunk ≠ [] ∧ (∀ x ∈ rest, x.data ≠ []) ∧
    chunk ++ (rest.map Mblk.data).flatten = slice d a b

variable {a b : Nat} {h l : List UInt8} {mp : List Mblk}

lemma getD_append {k : Nat} (hok : HeaderOk h) (hk : k < 20) : (h ++ l).getD k 0 = h.getD k 0 := by
  have := hok.1
  rw [getD_eq_getElem?_getD, getD_eq_getElem?_getD, getElem?_append_left (by omega)]

lemma offsetAndFlags_append (hok : HeaderOk h) : offsetAndFlags (h ++ l) = offsetAndFlags h := by
  unfold offsetAndFlags
  rw [getD_append hok (by omega), getD_append hok (by omega)]

lemma iphaLength_append (hok : HeaderOk h) : iphaLength (h ++ l) = iphaLength h := by
  unfold iphaLength
  rw [getD_append hok (by omega), getD_append hok (by omega)]

lemma Fragment.fields (hf : Fragment d a b h mp) (hd : d.length ≤ 65515) :
    decide (0x2000 ≤ offsetAndFlags h) = decide (b ≠ d.length) ∧ offsetAndFlags h % 0x2000 * 8 = a := by
  have hlt := hf.lt
  have hle := hf.le
  have hal := hf.aligned
  rw [hf.flags]
  split_ifs with hb
  · constructor
    · simp [hb]
      omega
    · omega
  · constructor
    · simp [hb]
    · omega

lemma Fragment.carries (hf : Fragment d a b h mp) (hmem : a = 0 → h ∈ hs) :
    ∃ m rest, mp = m :: rest ∧ (∃ chunk, m.data = h ++ chunk) ∧
      Carries d hs a b (if a ≠ 0 then { m with data := m.data.drop h.length } :: rest else m :: rest) := by
  obtain ⟨m, rest, chunk, rfl, hdata, hchunk, hne, hbytes⟩ := hf.blocks
  refine ⟨m, rest, rfl, ⟨chunk, hdata⟩, ?_⟩
  have hlt := hf.lt
  by_cases ha : a = 0
  · subst ha
    exact carries_first hf.header (hmem rfl) hf.le hdata hchunk hne hbytes
  rw [if_pos ha]
  refine carries_later ha hf.le hlt.le ?_ ?_
  · intro x hx
    rcases mem_cons.mp hx with rfl | hx
    · change m.data.drop h.length ≠ []
      rw [hdata, drop_left]
      exact hchunk
    · exact hne x hx
  · change m.data.drop h.length ++ (rest.map Mblk.data).flatten = _
    rw [hdata, drop_left]
    exact hbytes

end Fragments

section Entries

variable {a b : Nat} {h : List UInt8} {mp : List Mblk}

def pieces : Option Ipf → List Piece
  | none => []
  | some ipf => ipf.toHard.queue

/-- A frag header in either scheme. In order, there is no gap before the next offset expected. -/
structure Held (d : List UInt8) (hs : List (List UInt8)) (fragSize : Nat) (ipf : Ipf) : Prop where
  queued : Queued d hs fragSize ipf.toHard
  ne : ipf.toHard.queue ≠ []
  inOrder : ipf.fend ≠ 0 → gaps 0 ipf.toHard.queue = 0 ∧ endOf 0 ipf.toHard.queue = ipf.fend ∧
    ipf.fend < d.length

def Entry (d : List UInt8) (hs : List (List UInt8)) (fragSize : Nat) (s : Option Ipf) : Prop :=
  ∀ ipf, s = some ipf → Held d hs fragSize ipf

/-- What the arrival of the bytes from `a` to `b` comes to: they are on the queue, and either there is
a hole left, or the queue is delivered. -/
inductive Outcome (d : List UInt8) (hs : List (List UInt8)) (fragSize : Nat) (a b : Nat) (q : List Piece) :
    Option Ipf × Option (List UInt8) → Prop
  | waits {ipf : Ipf} (held : Held d hs fragSize ipf)
    (covers : ∀ x, Covers ipf.toHard.queue x ↔ (a ≤ x ∧ x < b) ∨ Covers q x)
    (hole : holes d 0 ipf.toHard.queue ≠ 0) : Outcome d hs fragSize a b q (some ipf, none)
  | delivers {l : List Piece} (ordered : Ordered d hs 0 l)
    (covers : ∀ x, Covers l x ↔ (a ≤ x ∧ x < b) ∨ Covers q x) (full : holes d 0 l = 0) :
    Outcome d hs fragSize a b q (none, some (restoreHeader (message l)))

lemma toHard_hard {ipf : Ipf} (hh : ipf.fend = 0) : ipf.toHard = ipf := by
  unfold Ipf.toHard
  rw [if_neg (by omega)]

lemma Queued.held {ipf : Ipf} (hq : Queued d hs fragSize ipf) (hne : ipf.queue ≠ []) :
    Held d hs fragSize ipf := by
  have hh := toHard_hard hq.hard
  refine ⟨hh.symm ▸ hq, hh.symm ▸ hne, fun h0 => absurd hq.hard h0⟩

lemma markQueue_append {q r : List Piece} :
    markQueue u (q ++ r) = markQueue u q ++ markQueue (endOf u (markQueue u q)) r := by
  induction q generalizing u with
  | nil => rfl
  | cons p q ih => rw [cons_append, markQueue_cons, markQueue_cons, ih, endOf_cons, cons_append]

lemma queueSize_markQueue {q : List Piece} : queueSize (markQueue u q) = queueSize q := by
  induction q generalizing u with
  | nil => rfl
  | cons p q ih =>
    rw [markQueue_cons, queueSize_cons, queueSize_cons, ih]

lemma message_markQueue {q : List Piece} : message (markQueue u q) = message q := by
  induction q generalizing u with
  | nil => rfl
  | cons p q ih =>
    change p.data ++ message (markQueue _ q) = p.data ++ message q
    rw [ih]

lemma queueSize_plain : queueSize (mp.map Mblk.plain) = sizes mp := by
  induction mp with
  | nil => rfl
  | cons m mp ih =>
    unfold sizes at *
    rw [map_cons, queueSize_cons, ih, map_cons, sum_cons]
    rfl

lemma Ordered.covers_gapless {q : List Piece} (hq : Ordered d hs u q) (hg : gaps u q = 0) (x : Nat) :
    Covers q x ↔ u ≤ x ∧ x < endOf u q := by
  refine ⟨hq.covers_range, ?_⟩
  induction q generalizing u with
  | nil =>
    rw [endOf_nil]
    intro hx
    omega
  | cons p q ih =>
    rw [gaps_cons] at hg
    have hnn : 0 ≤ gaps p.stop q := gaps_nonneg
    have hstart : u = p.start := by
      by_contra hne
      omega
    rw [if_pos hstart, zero_add] at hg
    rw [endOf_cons, covers_cons]
    rintro ⟨hlo, hhi⟩
    by_cases hx : x < p.stop
    · exact .inl ⟨by omega, hx⟩
    · exact .inr (ih hq.2.2 hg ⟨by omega, hhi⟩)

lemma Carries.covers (hc : Carries d hs a b mp) (x : Nat) :
    Covers (markQueue a (mp.map Mblk.plain)) x ↔ a ≤ x ∧ x < b := by
  rw [hc.ordered.covers_gapless hc.gapless, hc.ends]

lemma toHard_inOrder {ipf : Ipf} (hf : ipf.fend ≠ 0) :
    ipf.toHard = { ipf with queue := markQueue 0 ipf.queue, holeCnt := 1, fend := 0 } := if_pos hf

lemma outcome_inOrder {ipf : Ipf} {q : List Piece} (hf : ipf.fend ≠ 0)
    (hord : Ordered d hs 0 (markQueue 0 ipf.queue)) (hg : gaps 0 (markQueue 0 ipf.queue) = 0)
    (hend : endOf 0 (markQueue 0 ipf.queue) = ipf.fend) (hlt : ipf.fend < d.length)
    (hsize : ipf.count = fragSize + queueSize ipf.queue)
    (hcov : ∀ x, Covers (markQueue 0 ipf.queue) x ↔ (a ≤ x ∧ x < b) ∨ Covers q x) :
    Outcome d hs fragSize a b q (some ipf, none) := by
  have hhard := toHard_inOrder hf
  have hholes : holes d 0 (markQueue 0 ipf.queue) = 1 := by
    unfold holes openEnd
    rw [hg, hend, if_neg hlt.ne, zero_add]
  refine .waits ⟨?_, ?_, ?_⟩ ?_ ?_
  · rw [hhard]
    refine ⟨rfl, hord, fun _ => hholes.symm, ?_⟩
    rw [queueSize_markQueue]
    exact hsize
  · rw [hhard]
    intro hnil
    dsimp only at hnil
    rw [hnil, endOf_nil] at hend
    exact hf hend.symm
  · rw [hhard]
    exact fun _ => ⟨hg, hend, hlt⟩
  · rw [hhard]
    exact hcov
  · rw [hhard]
    rw [hholes]
    decide

lemma holes_ne_zero {q : List Piece} (hq : Ordered d hs 0 q) (hd : 0 < d.length) (h0 : ¬ Covers q 0) :
    holes d 0 q ≠ 0 := by
  intro hz
  exact h0 ((hq.complete_iff (zero_le _)).mp hz 0 le_rfl hd)

lemma append_inOrder {ipf : Ipf} (hheld : Held d hs fragSize ipf) (ha : a ≠ 0) (hf : ipf.fend = a)
    (hc : Carries d hs a b mp) :
    Ordered d hs 0 (markQueue 0 (ipf.queue ++ mp.map Mblk.plain)) ∧
      gaps 0 (markQueue 0 (ipf.queue ++ mp.map Mblk.plain)) = 0 ∧
      endOf 0 (markQueue 0 (ipf.queue ++ mp.map Mblk.plain)) = b ∧
      ∀ x, Covers (markQueue 0 (ipf.queue ++ mp.map Mblk.plain)) x ↔
        (a ≤ x ∧ x < b) ∨ Covers ipf.toHard.queue x := by
  have hhard := toHard_inOrder (show ipf.fend ≠ 0 by omega)
  have hord := hheld.queued.ordered
  obtain ⟨hg, hend, -⟩ := hheld.inOrder (by omega)
  rw [hhard] at hord hg hend ⊢
  rw [hf] at hend
  rw [markQueue_append, hend, ordered_append, gaps_append, endOf_append, hend, hg, hc.gapless, hc.ends]
  refine ⟨⟨hord, hc.ordered⟩, rfl, rfl, fun x => ?_⟩
  rw [covers_append, hc.covers x, or_comm]

lemma ipReassemble_spec {ipf : Ipf} (hq : Queued d hs fragSize ipf.toHard) (hne : mp ≠ [])
    (hc : Carries d hs a b mp) (hready : Ready d more a b mp ipf.toHard.queue) :
    ∃ ipf', ipReassemble mp ipf more a = some (ipf'.holeCnt == 0, ipf') ∧ Queued d hs fragSize ipf' ∧
      ipf'.queue ≠ [] ∧ ∀ x, Covers ipf'.queue x ↔ (a ≤ x ∧ x < b) ∨ Covers ipf.toHard.queue x := by
  obtain ⟨ipf', hwalk, hrest⟩ := walk_spec hq hne hc hready
  refine ⟨ipf', ?_, hrest⟩
  unfold ipReassemble
  rw [hwalk]
  rfl

lemma reassemble_outcome {ipf : Ipf} {q : List Piece} (hq : Queued d hs fragSize ipf) (hne : ipf.queue ≠ [])
    (hcov : ∀ x, Covers ipf.queue x ↔ (a ≤ x ∧ x < b) ∨ Covers q x) :
    Outcome d hs fragSize a b q
      (if ipf.holeCnt == 0 then (none, some (restoreHeader (message ipf.queue))) else (some ipf, none)) := by
  have hcnt := hq.counted hne
  by_cases h0 : ipf.holeCnt = 0
  · rw [if_pos (by simp [h0])]
    exact .delivers hq.ordered hcov (hcnt ▸ h0)
  rw [if_neg (by simp [h0])]
  have hhard := toHard_hard hq.hard
  refine .waits (hq.held hne) ?_ ?_
  · rw [hhard]
    exact hcov
  · rw [hhard, ← hcnt]
    exact h0

lemma first_hard (ha : a ≠ 0) (hlt : a < b) (hle : b ≤ d.length) (hc : Carries d hs a b mp) (hne : mp ≠ []) :
    ∃ r, (ipReassemble mp { queue := [], holeCnt := 0, fend := 0, count := fragSize } (decide (b ≠ d.length))
      a).map (fun r => (some r.2, none)) = some r ∧ Outcome d hs fragSize a b [] r := by
  have hq : Queued d hs fragSize { queue := [], holeCnt := 0, fend := 0, count := fragSize } :=
    ⟨rfl, trivial, fun h => absurd rfl h, (add_zero _).symm⟩
  have hready : Ready d (decide (b ≠ d.length)) a b mp [] := by
    by_cases hb : b = d.length
    · exact .inr (.inr ⟨by simp [hb], hb, ha, trivial, .inr (.inl rfl)⟩)
    · exact .inr (.inl ⟨by simp [hb], by omega, fun h0 => absurd h0 ha⟩)
  obtain ⟨ipf, hr, hq', hne', hcov⟩ := @ipReassemble_spec _ _ _ _ _ _ _ (Ipf.mk [] 0 0 fragSize) hq hne hc hready
  rw [hr]
  have hhard := toHard_hard hq'.hard
  refine ⟨_, rfl, .waits (hq'.held hne') ?_ ?_⟩
  · rw [hhard]
    exact hcov
  · rw [hhard]
    refine holes_ne_zero hq'.ordered (by omega) ?_
    rw [hcov 0]
    rintro (⟨h0, -⟩ | h0)
    · omega
    · exact covers_nil.mp h0

lemma known_spec {ipf : Ipf} (hheld : Held d hs fragSize ipf) (hlt : a < b) (hle : b ≤ d.length)
    (hc : Carries d hs a b mp) (hne : mp ≠ [])
    (hready : Ready d (decide (b ≠ d.length)) a b mp ipf.toHard.queue) :
    ∃ r, (if a ≠ 0 ∧ ipf.fend = a then
        let queue := ipf.queue ++ mp.map Mblk.plain
        if decide (b ≠ d.length) then
          some (some { ipf with queue, fend := b - a + a, count := ipf.count + sizes mp }, none)
        else some (none, some (restoreHeader (message queue)))
      else (ipReassemble mp ipf (decide (b ≠ d.length)) a).map fun r =>
        if r.1 then (none, some (restoreHeader (message r.2.queue))) else (some r.2, none)) = some r ∧
      Outcome d hs fragSize a b ipf.toHard.queue r := by
  by_cases hfit : a ≠ 0 ∧ ipf.fend = a
  · rw [if_pos hfit]
    obtain ⟨hord, hg, hend, hcov⟩ := append_inOrder hheld hfit.1 hfit.2 hc
    have hb : b - a + a = b := by omega
    by_cases hmore : b = d.length
    · rw [if_neg (by simp [hmore]), ← message_markQueue]
      refine ⟨_, rfl, .delivers hord hcov ?_⟩
      unfold holes openEnd
      rw [hg, hend, if_pos hmore, zero_add]
    rw [if_pos (by simp [hmore]), hb]
    refine ⟨_, rfl, outcome_inOrder ?_ hord hg hend ?_ ?_ hcov⟩
    · dsimp only
      omega
    · dsimp only
      omega
    · have := hheld.queued.size
      rw [toHard_inOrder (by omega)] at this
      rw [queueSize_append, queueSize_plain, this, queueSize_markQueue, add_assoc]
  · rw [if_neg hfit]
    obtain ⟨ipf', hr, hq', hne', hcov⟩ := ipReassemble_spec hheld.queued hne hc hready
    rw [hr]
    exact ⟨_, rfl, reassemble_outcome hq' hne' hcov⟩

lemma ipRputFragment_spec {s : Option Ipf} (hd : d.length ≤ 65515) (hE : Entry d hs fragSize s)
    (hf : Fragment d a b h mp) (hmem : a = 0 → h ∈ hs)
    (hready : s ≠ none → Ready d (decide (b ≠ d.length)) a b mp (pieces s)) :
    ∃ r, ipRputFragment fragSize s mp = some r ∧ Outcome d hs fragSize a b (pieces s) r := by
  have hlt := hf.lt
  have hle := hf.le
  obtain ⟨hmore, hoff⟩ := hf.fields hd
  obtain ⟨m, rest, rfl, ⟨chunk, hdata⟩, hc⟩ := hf.carries hmem
  have hhdr : hdrLength m.data = h.length := by rw [hdata, hdrLength_append hf.header]
  have hlen : iphaLength m.data - h.length = b - a := by
    rw [hdata, iphaLength_append hf.header, hf.length]
    omega
  have hflags : offsetAndFlags m.data = offsetAndFlags h := by rw [hdata, offsetAndFlags_append hf.header]
  have hlast : a = 0 → b < d.length := by
    intro ha
    have hne := hf.fragmented
    rw [hf.flags, ha] at hne
    by_contra hge
    exact hne (if_pos (show b = d.length by omega))
  unfold ipRputFragment
  simp only [hhdr, hlen, hflags, hmore, hoff]
  rw [if_neg (by omega)]
  generalize hmp : (if a ≠ 0 then { m with data := m.data.drop h.length } :: rest else m :: rest) = mp' at hc ⊢
  have hne : mp' ≠ [] := by
    rw [← hmp]
    split <;> exact cons_ne_nil _ _
  have hlength : mp'.length = (m :: rest).length := by
    rw [← hmp]
    split <;> rfl
  cases s with
  | none =>
    by_cases ha : a = 0
    · subst ha
      refine ⟨_, rfl, outcome_inOrder ?_ hc.ordered hc.gapless ?_ ?_ ?_ ?_⟩
      · dsimp only
        omega
      · exact hc.ends
      · exact hlast rfl
      · dsimp only
        rw [queueSize_plain]
      · intro x
        rw [hc.covers x]
        simp [pieces]
    · rw [if_neg ha]
      exact first_hard ha hlt hle hc hne
  | some ipf =>
    have hr := hready (by simp)
    unfold Ready at hr
    rw [← hlength] at hr
    exact known_spec (hE ipf rfl) hlt hle hc hne hr

end Entries

end Solaris.Ip
