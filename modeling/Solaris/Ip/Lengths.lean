import Solaris.Ip.Arrival

/-!
# The length of a reassembled datagram

Whatever fragments come, the pieces on the queue lie one behind the other, and a piece has at least the bytes
between its offsets.
-/

namespace Solaris.Ip

open List Nat Option

variable {u v : Nat} {p mp mp1 : Piece} {q r rest : List Piece} {more : Bool}

section Laid

structure Full (p : Piece) : Prop where
  le : p.start ≤ p.stop
  bytes : p.stop ≤ p.start + p.data.length

/-- The bytes of a piece beyond those between its offsets. -/
def extraOf (p : Piece) : Nat := p.data.length - (p.stop - p.start)

def extra (q : List Piece) : Nat := (q.map extraOf).sum

def Laid (u : Nat) : List Piece → Prop
  | [] => True
  | p :: q => u ≤ p.start ∧ Full p ∧ Laid p.stop q

lemma extra_cons : extra (p :: q) = extraOf p + extra q := by
  unfold extra
  rw [map_cons, sum_cons]

lemma extra_append : extra (q ++ r) = extra q + extra r := by
  unfold extra
  rw [map_append, sum_append_nat]

lemma Laid.le_endOf (h : Laid u q) : u ≤ endOf u q := by
  induction q generalizing u with
  | nil => exact le_rfl
  | cons p q ih =>
    obtain ⟨hu, hp, hq⟩ := h
    have hle := hp.le
    have := ih hq
    rw [endOf_cons]
    omega

lemma laid_append : Laid u (q ++ r) ↔ Laid u q ∧ Laid (endOf u q) r := by
  induction q generalizing u with
  | nil => exact ⟨fun h => ⟨trivial, h⟩, fun h => h.2⟩
  | cons p q ih =>
    constructor
    · rintro ⟨hu, hp, hqr⟩
      obtain ⟨hq, hr⟩ := ih.mp hqr
      exact ⟨⟨hu, hp, hq⟩, hr⟩
    · rintro ⟨⟨hu, hp, hq⟩, hr⟩
      exact ⟨hu, hp, ih.mpr ⟨hq, hr⟩⟩

lemma message_cons : message (p :: q) = p.data ++ message q := rfl

lemma Laid.length_message (h : Laid u q) : (message q).length ≤ endOf u q - u + extra q := by
  induction q generalizing u with
  | nil => exact zero_le _
  | cons p q ih =>
    obtain ⟨hu, hp, hq⟩ := h
    have hih := ih hq
    have hle := hp.le
    have hend := hq.le_endOf
    rw [message_cons, length_append, endOf_cons, extra_cons]
    unfold extraOf
    omega

end Laid

section Insert

lemma Full.past (h : Full mp) (hu : u ≤ mp.stop) : Full (mp.past u) ∧ extraOf (mp.past u) = extraOf mp := by
  have hbytes := h.bytes
  unfold Piece.past
  split
  · refine ⟨⟨hu, ?_⟩, ?_⟩
    · simp only [Piece.trim, length_drop]
      omega
    · simp only [extraOf, Piece.trim, length_drop]
      omega
  · exact ⟨h, rfl⟩

/-- The new piece and what follows it, laid from an offset on, with no more extra bytes and no later end. -/
structure Grew (mp : Piece) (q : List Piece) (u e : Nat) (q' : List Piece) : Prop where
  laid : Laid u q'
  stop : endOf u q' ≤ max e mp.stop
  extra : extra q' ≤ extra q + extraOf mp

lemma Grew.cons (h : Grew mp q p.stop (endOf p.stop q) r) (hu : u ≤ p.start) (hp : Full p) :
    Grew mp (p :: q) u (endOf u (p :: q)) (p :: r) := by
  refine ⟨⟨hu, hp, h.laid⟩, h.stop, ?_⟩
  have := h.extra
  rw [extra_cons, extra_cons]
  omega

lemma overlapLoop_grew {hole count : Int} (hmp : Full mp) (hu : u ≤ mp.start) (hv : mp.start ≤ v)
    (hrest : Laid v rest) :
    Grew mp rest u (endOf v rest) ((overlapLoop more mp hole count rest).mp :: (overlapLoop more mp hole count rest).rest) := by
  induction rest generalizing v hole count with
  | nil =>
    refine ⟨⟨hu, hmp, trivial⟩, le_max_right _ _, ?_⟩
    change extra [mp] ≤ extra [] + extraOf mp
    rw [extra_cons, add_comm]
  | cons mp1 rest ih =>
    obtain ⟨hv1, hp1, hr1⟩ := hrest
    have hle := hp1.le
    by_cases hlt : mp1.start < mp.stop
    · by_cases hin : mp.stop < mp1.stop
      · rw [overlapLoop_trim hlt hin]
        have hbytes := hmp.bytes
        refine ⟨⟨hu, ⟨hv.trans hv1, ?_⟩, le_rfl, hp1, hr1⟩, le_max_left _ _, ?_⟩
        · simp only [length_take]
          omega
        · rw [extra_cons, extra_cons]
          simp only [extraOf, length_take]
          omega
      rw [overlapLoop_clip hlt (not_lt.mp hin)]
      have hg : Grew mp rest u (endOf mp1.stop rest)
          ((overlapLoop more mp (hole - clipped more mp mp1 rest) (count - mp1.size) rest).mp ::
            (overlapLoop more mp (hole - clipped more mp mp1 rest) (count - mp1.size) rest).rest) := ih (by omega) hr1
      refine ⟨hg.laid, hg.stop, ?_⟩
      have := hg.extra
      rw [extra_cons (p := mp1)]
      omega
    · rw [overlapLoop_stop (not_lt.mp hlt)]
      refine ⟨⟨hu, hmp, not_lt.mp hlt, hp1, hr1⟩, le_max_left _ _, ?_⟩
      rw [extra_cons, add_comm]

lemma fillHole_grew {next : Piece} {hole count : Int} (hmp : Full mp) (hu : u ≤ mp1.start) (h1 : Full mp1)
    (hlo : mp1.stop ≤ mp.start) (hhi : mp.start ≤ next.start) (hnext : Laid mp1.stop (next :: rest)) :
    Grew mp (mp1 :: next :: rest) u (endOf u (mp1 :: next :: rest)) (fillHole more mp1 mp next rest hole count).1 := by
  have hn : Laid next.start (next :: rest) := ⟨le_rfl, hnext.2⟩
  unfold fillHole
  dsimp only
  split
  · exact (overlapLoop_grew hmp hlo hhi hn).cons hu h1
  · refine Grew.cons ⟨⟨hlo, hmp, by omega, hnext.2⟩, le_max_left _ _, ?_⟩ hu h1
    rw [extra_cons, add_comm]

lemma Grew.past (h : Grew (mp.past v) q u (endOf u q) r) (hextra : extraOf (mp.past v) = extraOf mp) :
    Grew mp q u (endOf u q) r := by
  have hstop := h.stop
  have hle := h.extra
  rw [past_stop] at hstop
  rw [hextra] at hle
  exact ⟨h.laid, hstop, hle⟩

lemma grew_nothing (h : Laid u q) : Grew mp q u (endOf u q) q := ⟨h, le_max_left _ _, Nat.le_add_right _ _⟩

lemma middleLoop_grew {hole count : Int} {res : List Piece × Int × Int} (hmp : Full mp) (hq : Laid u (mp1 :: rest))
    (hres : middleLoop more hole count mp (mp1 :: rest) = some res) :
    Grew mp (mp1 :: rest) u (endOf u (mp1 :: rest)) res.1 := by
  induction rest generalizing u mp mp1 res with
  | nil =>
    obtain ⟨hu, h1, -⟩ := hq
    by_cases hin : mp.start < mp1.stop ∧ mp.stop ≤ mp1.stop
    · rw [middleLoop_in hin, some.injEq] at hres
      subst hres
      exact grew_nothing ⟨hu, h1, trivial⟩
    by_cases hcut : mp.start < mp1.stop
    · rw [middleLoop_end hcut (by omega), some.injEq] at hres
      subst hres
      obtain ⟨hfull, hextra⟩ := hmp.past (u := mp1.stop) (by omega)
      refine Grew.past ⟨⟨hu, h1, ?_, hfull, trivial⟩, le_max_right _ _, ?_⟩ hextra
      · rw [past_start]
        exact le_max_right _ _
      · rw [extra_cons, extra_cons, extra_cons]
        omega
    · unfold middleLoop at hres
      simp [hcut] at hres
  | cons next rest ih =>
    obtain ⟨hu, h1, hnext⟩ := hq
    by_cases hin : mp.start < mp1.stop ∧ mp.stop ≤ mp1.stop
    · rw [middleLoop_in hin, some.injEq] at hres
      subst hres
      exact grew_nothing ⟨hu, h1, hnext⟩
    have hle := hmp.le
    obtain ⟨hfull, hextra⟩ := hmp.past (u := mp1.stop) (by omega)
    by_cases hmore : next.start ≤ max mp.start mp1.stop
    · rw [middleLoop_next hin hmore] at hres
      obtain ⟨res', hres', rfl⟩ := map_eq_some_iff.mp hres
      exact ((ih hfull hnext hres').cons hu h1).past hextra
    rw [middleLoop_fill hin (not_le.mp hmore), some.injEq] at hres
    subst hres
    refine (fillHole_grew hfull hu h1 ?_ ?_ hnext).past hextra
    · rw [past_start]
      exact le_max_right _ _
    · rw [past_start]
      omega

lemma insertPiece_grew {ipf ipf' : Ipf} {hasNext : Bool} (hmp : Full mp) (hq : Laid 0 ipf.queue)
    (hres : insertPiece ipf mp more hasNext = some ipf') :
    Grew mp ipf.queue 0 (endOf 0 ipf.queue) ipf'.queue := by
  unfold insertPiece at hres
  cases hqueue : ipf.queue with
  | nil =>
    rw [hqueue] at hres
    simp only [some.injEq] at hres
    subst hres
    refine ⟨⟨zero_le _, hmp, trivial⟩, le_max_right _ _, ?_⟩
    change extra [mp] ≤ _
    rw [extra_cons, add_comm]
  | cons mp1 rest =>
    rw [hqueue] at hq
    simp only [hqueue] at hres
    split at hres
    · rename_i htail
      rw [some.injEq] at hres
      subst hres
      have hend := endOf_eq_getLast (u := 0) (cons_ne_nil mp1 rest)
      refine ⟨?_, ?_, ?_⟩
      · change Laid 0 (ipf.queue ++ [mp])
        rw [hqueue]
        exact laid_append.mpr ⟨hq, by omega, hmp, trivial⟩
      · change endOf 0 (ipf.queue ++ [mp]) ≤ _
        rw [endOf_append]
        exact le_max_right _ _
      · change extra (ipf.queue ++ [mp]) ≤ _
        rw [hqueue, extra_append]
        exact le_rfl
    · split at hres
      · rename_i hfront
        rw [some.injEq] at hres
        subst hres
        exact overlapLoop_grew (v := mp1.start) hmp (zero_le _) hfront.le ⟨le_rfl, hq.2⟩
      · obtain ⟨res, hres', rfl⟩ := map_eq_some_iff.mp hres
        exact middleLoop_grew hmp hq hres'

lemma insertPiece_same {ipf : Ipf} {hasNext : Bool} (hq : Laid 0 (mp1 :: rest)) (hqueue : ipf.queue = mp1 :: rest)
    (h0 : mp1.start ≤ mp.start) (hlt : mp.start < mp.stop) (hle : mp.stop ≤ mp1.stop) :
    ∃ ipf', insertPiece ipf mp more hasNext = some ipf' ∧ ipf'.queue = ipf.queue := by
  have hend := endOf_eq_getLast (u := 0) (cons_ne_nil mp1 rest)
  have hlast := hq.2.2.le_endOf
  rw [endOf_cons] at hend
  unfold insertPiece
  simp only [hqueue]
  rw [if_neg (by omega), if_neg (by omega), middleLoop_in ⟨by omega, hle⟩]
  exact ⟨_, rfl, rfl⟩

end Insert

section Walk

variable {mp : List Mblk} {m : Mblk} {rest : List Mblk} {ipf ipf' : Ipf}

def bytes (mp : List Mblk) : Nat := (mp.map fun m => m.data.length).sum

lemma bytes_cons : bytes (m :: rest) = m.data.length + bytes rest := by
  unfold bytes
  rw [map_cons, sum_cons]

lemma walk_grew {start : Nat} (h0 : start ≠ 0) (hq : Laid 0 ipf.queue) (hwalk : walk more start mp ipf = some ipf') :
    Laid 0 ipf'.queue ∧ endOf 0 ipf'.queue ≤ max (endOf 0 ipf.queue) (start + bytes mp) ∧
      extra ipf'.queue ≤ extra ipf.queue := by
  induction mp generalizing start ipf with
  | nil =>
    unfold walk at hwalk
    cases hwalk
    exact ⟨hq, le_max_left _ _, le_rfl⟩
  | cons m rest ih =>
    unfold walk at hwalk
    simp only [if_neg h0] at hwalk
    rw [bytes_cons]
    by_cases hempty : start = start + m.data.length
    · rw [if_pos hempty] at hwalk
      obtain ⟨hlaid, hend, hextra⟩ := ih (by omega) hq hwalk
      exact ⟨hlaid, by omega, hextra⟩
    rw [if_neg hempty] at hwalk
    obtain ⟨ipf1, hins, hrest⟩ := bind_eq_some_iff.mp hwalk
    have hfull : Full { m with start := start, stop := start + m.data.length } := ⟨le_add_right _ _, le_rfl⟩
    have hg := insertPiece_grew hfull hq hins
    obtain ⟨hlaid, hend, hextra⟩ := ih (by omega) hg.laid hrest
    have hstop := hg.stop
    have hmore := hg.extra
    have hnone : extraOf { m with start := start, stop := start + m.data.length } = 0 := by
      simp [extraOf]
    dsimp only at hstop
    exact ⟨hlaid, by omega, by omega⟩

/-- The piece of the first block of a fragment at offset 0. -/
def headPiece (m : Mblk) : Piece := { m with start := 0, stop := m.data.length - hdrLength m.data }

/-- The header bytes that a fragment at offset 0 brings: none when its first block has nothing new. -/
def newHeader (q : List Piece) (m : Mblk) : Nat :=
  if ∃ p ∈ q.head?, p.start = 0 ∧ (headPiece m).stop ≤ p.stop then 0 else hdrLength m.data

lemma walk_first_grew (hdata : hdrLength m.data < m.data.length) (hq : Laid 0 ipf.queue)
    (hwalk : walk more 0 (m :: rest) ipf = some ipf') :
    Laid 0 ipf'.queue ∧ endOf 0 ipf'.queue ≤ max (endOf 0 ipf.queue) (bytes (m :: rest) - hdrLength m.data) ∧
      extra ipf'.queue ≤ extra ipf.queue + newHeader ipf.queue m := by
  unfold walk at hwalk
  simp only [if_true, zero_add] at hwalk
  rw [if_neg (by omega)] at hwalk
  obtain ⟨ipf1, hins, hrest⟩ := bind_eq_some_iff.mp hwalk
  have hfull : Full (headPiece m) := ⟨zero_le _, by simp [headPiece]⟩
  have hhdr : extraOf (headPiece m) = hdrLength m.data := by
    simp only [extraOf, headPiece]
    omega
  have hstop : (headPiece m).stop = m.data.length - hdrLength m.data := rfl
  have hg := insertPiece_grew hfull hq hins
  obtain ⟨hlaid, hend, hextra⟩ := walk_grew (by omega) hg.laid hrest
  have hle := hg.stop
  rw [bytes_cons]
  refine ⟨hlaid, by omega, ?_⟩
  unfold newHeader
  split
  · rename_i hold
    obtain ⟨p, hp, hp0, hple⟩ := hold
    cases hqueue : ipf.queue with
    | nil =>
      rw [hqueue] at hp
      cases hp
    | cons p' q =>
      rw [hqueue, head?_cons, mem_some_iff] at hp
      subst hp
      have hpos : (headPiece m).start < (headPiece m).stop := by
        change 0 < _
        omega
      obtain ⟨ipf2, hins', hsame⟩ : ∃ ipf2, insertPiece ipf (headPiece m) more (!rest.isEmpty) = some ipf2 ∧
          ipf2.queue = ipf.queue := insertPiece_same (hqueue ▸ hq) hqueue (by rw [hp0]; exact zero_le _) hpos hple
      have heq : ipf2 = ipf1 := some.inj (hins'.symm.trans hins)
      rw [heq] at hsame
      rw [hsame, hqueue] at hextra
      exact hextra
  · have := hg.extra
    omega

lemma insertPiece_fend {mp : Piece} {hasNext : Bool} (hres : insertPiece ipf mp more hasNext = some ipf') :
    ipf'.fend = ipf.fend := by
  unfold insertPiece at hres
  split at hres
  · rw [some.injEq] at hres
    subst hres
    rfl
  simp only at hres
  split at hres
  · rw [some.injEq] at hres
    subst hres
    rfl
  split at hres
  · rw [some.injEq] at hres
    subst hres
    rfl
  · obtain ⟨res, -, rfl⟩ := map_eq_some_iff.mp hres
    rfl

lemma walk_fend {start : Nat} (hwalk : walk more start mp ipf = some ipf') : ipf'.fend = ipf.fend := by
  induction mp generalizing start ipf with
  | nil =>
    unfold walk at hwalk
    cases hwalk
    rfl
  | cons m rest ih =>
    unfold walk at hwalk
    simp only at hwalk
    generalize (if start = 0 then start + m.data.length - hdrLength m.data else start + m.data.length) = stop at hwalk
    split at hwalk
    · exact ih hwalk
    · obtain ⟨ipf1, hins, hrest⟩ := bind_eq_some_iff.mp hwalk
      exact (ih hrest).trans (insertPiece_fend hins)

end Walk

section Entries

variable {mp : List Mblk} {m : Mblk} {rest : List Mblk} {fragSize : Nat} {s : Option Ipf}

structure Sized (ipf : Ipf) : Prop where
  laid : Laid 0 ipf.toHard.queue
  inOrder : ipf.fend ≠ 0 → endOf 0 ipf.toHard.queue = ipf.fend

/-- Data stand behind the header in the first block of a queue in order. Otherwise the next block would be taken for
the header when the queue is marked. -/
def HeadedQueue (ipf : Ipf) : Prop := ipf.fend ≠ 0 → ∀ p ∈ ipf.queue.head?, hdrLength p.data < p.data.length

def SizedEntry (s : Option Ipf) : Prop := ∀ ipf, s = some ipf → HeadedQueue ipf → Sized ipf

lemma sizedEntry_none : SizedEntry none := by
  intro ipf h
  cases h

lemma markQueue_later (mp : List Mblk) {a : Nat} (ha : a ≠ 0) :
    Laid a (markQueue a (mp.map Mblk.plain)) ∧ endOf a (markQueue a (mp.map Mblk.plain)) = a + bytes mp ∧
      extra (markQueue a (mp.map Mblk.plain)) = 0 := by
  induction mp generalizing a with
  | nil => exact ⟨trivial, rfl, rfl⟩
  | cons m rest ih =>
    have hstop : stopOf a m.data = a + m.data.length := if_pos ha
    change Laid a (Piece.mk m a (stopOf a m.data) :: markQueue (stopOf a m.data) (rest.map Mblk.plain)) ∧
      endOf a (Piece.mk m a (stopOf a m.data) :: markQueue (stopOf a m.data) (rest.map Mblk.plain)) = _ ∧
      extra (Piece.mk m a (stopOf a m.data) :: markQueue (stopOf a m.data) (rest.map Mblk.plain)) = 0
    rw [hstop]
    obtain ⟨hlaid, hend, hextra⟩ := ih (a := a + m.data.length) (by omega)
    refine ⟨⟨le_rfl, ⟨le_add_right _ _, le_rfl⟩, hlaid⟩, ?_, ?_⟩
    · rw [endOf_cons, bytes_cons, hend]
      omega
    · rw [extra_cons, hextra]
      simp [extraOf]

lemma markQueue_first (rest : List Mblk) (hdata : hdrLength m.data < m.data.length) :
    Laid 0 (markQueue 0 ((m :: rest).map Mblk.plain)) ∧
      endOf 0 (markQueue 0 ((m :: rest).map Mblk.plain)) = bytes (m :: rest) - hdrLength m.data ∧
      extra (markQueue 0 ((m :: rest).map Mblk.plain)) = hdrLength m.data := by
  have hstop : stopOf 0 m.data = m.data.length - hdrLength m.data := if_neg (by omega)
  change Laid 0 (Piece.mk m 0 (stopOf 0 m.data) :: markQueue (stopOf 0 m.data) (rest.map Mblk.plain)) ∧
    endOf 0 (Piece.mk m 0 (stopOf 0 m.data) :: markQueue (stopOf 0 m.data) (rest.map Mblk.plain)) = _ ∧
    extra (Piece.mk m 0 (stopOf 0 m.data) :: markQueue (stopOf 0 m.data) (rest.map Mblk.plain)) = _
  rw [hstop]
  have hpos : m.data.length - hdrLength m.data ≠ 0 := by omega
  obtain ⟨hlaid, hend, hextra⟩ := markQueue_later rest hpos
  refine ⟨⟨le_rfl, ⟨zero_le _, by dsimp only; omega⟩, hlaid⟩, ?_, ?_⟩
  · rw [endOf_cons, bytes_cons, hend]
    omega
  · rw [extra_cons, hextra]
    simp only [extraOf]
    omega

lemma length_restoreHeader (data : List UInt8) : (restoreHeader data).length = data.length := by
  unfold restoreHeader
  simp only [length_set]

lemma toNat_ofNat_byte (n : Nat) : (UInt8.ofNat n).toNat = n % 256 := by
  simp

lemma iphaLength_restoreHeader {data : List UInt8} (h : 4 ≤ data.length) (hle : data.length ≤ 65535) :
    iphaLength (restoreHeader data) = data.length := by
  have hlt2 : 2 < data.length := by omega
  have hlt3 : 3 < data.length := by omega
  have h2 : (restoreHeader data).getD 2 0 = UInt8.ofNat (data.length / 256) := by
    simp [restoreHeader, getD_eq_getElem?_getD, hlt2]
  have h3 : (restoreHeader data).getD 3 0 = UInt8.ofNat data.length := by
    simp [restoreHeader, getD_eq_getElem?_getD, hlt3]
  rw [iphaLength, h2, h3, toNat_ofNat_byte, toNat_ofNat_byte]
  omega

/-- A fragment as `ip_rput` accepts it: the first block holds the header, and the blocks have as many bytes
as the header says. -/
structure Accepted (m : Mblk) (rest : List Mblk) : Prop where
  header : hdrLength m.data ≤ m.data.length
  length : bytes (m :: rest) = iphaLength m.data

def offsetOf (m : Mblk) : Nat := offsetAndFlags m.data % 0x2000 * 8

/-- The first bytes of the datagram stand behind the header in the first block. -/
def Headed (m : Mblk) : Prop := offsetOf m = 0 → hdrLength m.data < m.data.length

/-- The header bytes and the last offset when the fragment has come. -/
def sizeWith (q : List Piece) (m : Mblk) (rest : List Mblk) : Nat :=
  extra q + (if offsetOf m = 0 then newHeader q m else 0) +
    max (endOf 0 q) (offsetOf m + (bytes (m :: rest) - hdrLength m.data))

lemma bytes_stripped (h : hdrLength m.data ≤ m.data.length) :
    bytes ({ m with data := m.data.drop (hdrLength m.data) } :: rest) = bytes (m :: rest) - hdrLength m.data := by
  rw [bytes_cons, bytes_cons, length_drop]
  omega

lemma toHard_fend (ipf : Ipf) : ipf.toHard.fend = 0 := by
  unfold Ipf.toHard
  split
  · rfl
  · rename_i h
    exact not_not.mp h

lemma ipReassemble_sized {ipf : Ipf} {r : Bool × Ipf} (hs : Laid 0 ipf.toHard.queue) (hacc : Accepted m rest)
    (hhead : Headed m)
    (hr : ipReassemble (if offsetOf m ≠ 0 then { m with data := m.data.drop (hdrLength m.data) } :: rest else m :: rest)
      ipf more (offsetOf m) = some r) :
    Sized r.2 ∧ (message r.2.queue).length ≤ sizeWith ipf.toHard.queue m rest := by
  unfold ipReassemble at hr
  obtain ⟨ipf', hwalk, rfl⟩ := map_eq_some_iff.mp hr
  have hfend : ipf'.fend = 0 := (walk_fend hwalk).trans (toHard_fend ipf)
  have hall : Laid 0 ipf'.queue ∧ endOf 0 ipf'.queue + extra ipf'.queue ≤ sizeWith ipf.toHard.queue m rest := by
    unfold sizeWith
    by_cases h0 : offsetOf m = 0
    · rw [if_neg (not_not.mpr h0), h0] at hwalk
      obtain ⟨hlaid, hend, hextra⟩ := walk_first_grew (hhead h0) hs hwalk
      rw [if_pos h0]
      exact ⟨hlaid, by omega⟩
    · rw [if_pos h0] at hwalk
      obtain ⟨hlaid, hend, hextra⟩ := walk_grew h0 hs hwalk
      rw [bytes_stripped hacc.header] at hend
      exact ⟨hlaid, by omega⟩
  have hlen := hall.1.length_message
  refine ⟨⟨?_, fun h => absurd hfend h⟩, ?_⟩
  · rw [toHard_hard hfend]
    exact hall.1
  · dsimp only
    omega

lemma sized_first (hhead : hdrLength m.data < m.data.length) (count : Int) :
    Sized { queue := (m :: rest).map Mblk.plain, holeCnt := 0, fend := bytes (m :: rest) - hdrLength m.data, count } := by
  obtain ⟨hlaid, hend, -⟩ := markQueue_first rest hhead
  have hpos : bytes (m :: rest) - hdrLength m.data ≠ 0 := by
    rw [bytes_cons]
    omega
  refine ⟨?_, ?_⟩
  · rw [toHard_inOrder hpos]
    exact hlaid
  · intro _
    rw [toHard_inOrder hpos]
    exact hend

lemma append_sized {ipf : Ipf} (hs : Sized ipf) (hf : ipf.fend ≠ 0) (mp : List Mblk) :
    Laid 0 (markQueue 0 (ipf.queue ++ mp.map Mblk.plain)) ∧
      endOf 0 (markQueue 0 (ipf.queue ++ mp.map Mblk.plain)) = ipf.fend + bytes mp ∧
      extra (markQueue 0 (ipf.queue ++ mp.map Mblk.plain)) = extra ipf.toHard.queue := by
  have hlaid := hs.laid
  have hend := hs.inOrder hf
  rw [toHard_inOrder hf] at hlaid hend ⊢
  obtain ⟨hlaid', hend', hextra'⟩ := markQueue_later mp hf
  rw [markQueue_append, hend, laid_append, endOf_append, extra_append, hend, hend', hextra']
  exact ⟨⟨hlaid, hlaid'⟩, rfl, rfl⟩

/-- The fragment starts a queue, or is the next one of a queue in order. -/
def InOrder (s : Option Ipf) (m : Mblk) : Prop :=
  match s with
  | none => offsetOf m = 0
  | some ipf => offsetOf m ≠ 0 ∧ ipf.fend = offsetOf m

/-- The bytes on the queue. -/
def held : Option Ipf → Nat
  | none => 0
  | some ipf => (message ipf.queue).length

/-- The fragment fits into a datagram. In order, the bytes on the queue and its own make no more than 65535. Otherwise
the first bytes of the datagram stand behind the header in the first block, and the header bytes and the last offset
make no more than 65535. -/
structure Fits (s : Option Ipf) (m : Mblk) (rest : List Mblk) : Prop where
  next : InOrder s m → held s + (bytes (m :: rest) - if offsetOf m = 0 then 0 else hdrLength m.data) ≤ 65535
  hard : ¬InOrder s m → (∀ ipf ∈ s, HeadedQueue ipf) ∧ Headed m ∧ sizeWith (pieces s) m rest ≤ 65535

lemma length_message_plain (queue : List Piece) (mp : List Mblk) :
    (message (queue ++ mp.map Mblk.plain)).length = (message queue).length + bytes mp := by
  unfold message bytes
  rw [map_append, List.map_map, flatten_append, length_append, @length_flatten _ (mp.map _), List.map_map]
  rfl

lemma ipRputFragment_sized {s' : Option Ipf} {out : Option (List UInt8)} (hs : SizedEntry s) (hacc : Accepted m rest)
    (hfits : Fits s m rest) (hstep : ipRputFragment fragSize s (m :: rest) = some (s', out)) :
    SizedEntry s' ∧ ∀ o ∈ out, ∃ data, o = restoreHeader data ∧ data.length ≤ 65535 := by
  have hlen : iphaLength m.data - hdrLength m.data = bytes (m :: rest) - hdrLength m.data := by rw [hacc.length]
  unfold ipRputFragment at hstep
  simp only at hstep
  rw [show offsetAndFlags m.data % 0x2000 * 8 = offsetOf m from rfl, hlen] at hstep
  by_cases hzero : bytes (m :: rest) - hdrLength m.data = 0
  · rw [if_pos hzero] at hstep
    cases hstep
    exact ⟨hs, by simp⟩
  rw [if_neg hzero] at hstep
  cases s with
  | none =>
    by_cases h0 : offsetOf m = 0
    · rw [if_pos h0, if_neg (not_not.mpr h0)] at hstep
      cases hstep
      refine ⟨?_, by simp⟩
      rintro ipf ⟨⟩ hqueue
      exact sized_first (hqueue hzero m.plain rfl) _
    rw [if_neg h0] at hstep
    obtain ⟨r, hr, hres⟩ := map_eq_some_iff.mp hstep
    cases hres
    refine ⟨?_, by simp⟩
    rintro ipf ⟨⟩ -
    have hlaid : Laid 0 (Ipf.toHard { queue := [], holeCnt := 0, fend := 0, count := fragSize }).queue := trivial
    exact (ipReassemble_sized hlaid hacc (hfits.hard h0).2.1 hr).1
  | some ipf =>
    dsimp only at hstep
    by_cases hfit : offsetOf m ≠ 0 ∧ ipf.fend = offsetOf m
    · have hf : ipf.fend ≠ 0 := hfit.2 ▸ hfit.1
      rw [if_pos hfit, if_pos hfit.1] at hstep
      split at hstep
      · cases hstep
        refine ⟨?_, by simp⟩
        rintro ipf' ⟨⟩ hqueue
        have hne : bytes (m :: rest) - hdrLength m.data + offsetOf m ≠ 0 := by omega
        have hold : HeadedQueue ipf := by
          intro _ p hp
          refine hqueue hne p ?_
          rw [mem_def, head?_append, mem_def.mp hp]
          rfl
        obtain ⟨hlaid, hend, -⟩ :=
          append_sized (hs ipf rfl hold) hf ({ m with data := m.data.drop (hdrLength m.data) } :: rest)
        rw [bytes_stripped hacc.header] at hend
        refine ⟨?_, ?_⟩
        · rw [toHard_inOrder hne]
          exact hlaid
        · intro _
          rw [toHard_inOrder hne]
          rw [hend, hfit.2, add_comm]
      · cases hstep
        refine ⟨sizedEntry_none, ?_⟩
        intro o ho
        refine ⟨_, (mem_some_iff.mp ho).symm, ?_⟩
        have hnext := hfits.next hfit
        rw [if_neg hfit.1] at hnext
        rw [length_message_plain, bytes_stripped hacc.header]
        exact hnext
    · rw [if_neg hfit] at hstep
      obtain ⟨r, hr, hres⟩ := map_eq_some_iff.mp hstep
      obtain ⟨hqueue, hhead, hle⟩ := hfits.hard hfit
      obtain ⟨hsized', hbound⟩ := ipReassemble_sized (hs ipf rfl (hqueue ipf rfl)).laid hacc hhead hr
      split at hres
      · cases hres
        refine ⟨sizedEntry_none, ?_⟩
        intro o ho
        exact ⟨_, (mem_some_iff.mp ho).symm, hbound.trans hle⟩
      · cases hres
        refine ⟨?_, by simp⟩
        rintro ipf' ⟨⟩ -
        exact hsized'

end Entries

section Runs

variable {m : Mblk} {rest : List Mblk} {fragSize : Nat} {s s' : Option Ipf} {out : List UInt8}

/-- The entries that fragments lead to which all satisfy a condition on the entry before them. The entry may be
thrown away at any time. -/
inductive Arrived (fragSize : Nat) (ok : Option Ipf → Mblk → List Mblk → Prop) : Option Ipf → Prop
  | idle : Arrived fragSize ok none
  | arrive {s s' : Option Ipf} {m : Mblk} {rest : List Mblk} {out : Option (List UInt8)} (run : Arrived fragSize ok s)
    (accepted : Accepted m rest) (fits : ok s m rest)
    (step : ipRputFragment fragSize s (m :: rest) = some (s', out)) : Arrived fragSize ok s'
  | discard {s : Option Ipf} (run : Arrived fragSize ok s) : Arrived fragSize ok none

lemma sized_of_arrived (h : Arrived fragSize Fits s) : SizedEntry s := by
  induction h with
  | idle => exact sizedEntry_none
  | arrive _ hacc hfits hstep ih => exact (ipRputFragment_sized ih hacc hfits hstep).1
  | discard => exact sizedEntry_none

/-- In every run whose fragments all fit, a datagram that is completed has at most 65535 bytes, and the length in its
header is their number. It may be too short for a header: of two last fragments that overlap, the second completes it
without the first bytes. -/
theorem reassembled_length (h : Arrived fragSize Fits s) (hacc : Accepted m rest) (hfits : Fits s m rest)
    (hstep : ipRputFragment fragSize s (m :: rest) = some (s', some out)) :
    out.length ≤ 65535 ∧ (4 ≤ out.length → iphaLength out = out.length) := by
  obtain ⟨-, hout⟩ := ipRputFragment_sized (sized_of_arrived h) hacc hfits hstep
  obtain ⟨data, rfl, hle⟩ := hout out rfl
  rw [length_restoreHeader]
  exact ⟨hle, fun h4 => iphaLength_restoreHeader h4 hle⟩

/-- A header with a length, flags and offset, and zeros behind it. -/
def zeroBlock (len flags n : Nat) : Mblk where
  data := [0x45, 0, UInt8.ofNat (len / 256), UInt8.ofNat len, 0, 1, UInt8.ofNat (flags / 256), UInt8.ofNat flags,
    0, 0, 0, 0, 10, 0, 0, 1, 10, 0, 0, 2] ++ List.replicate n 0
  size := 0

lemma zeroBlock_fields (len flags n : Nat) :
    hdrLength (zeroBlock len flags n).data = 20 ∧ (zeroBlock len flags n).data.length = 20 + n ∧
      iphaLength (zeroBlock len flags n).data = len / 256 % 256 * 256 + len % 256 ∧
      offsetAndFlags (zeroBlock len flags n).data = (flags / 256 % 256 * 256 + flags % 256) % 0x4000 := by
  refine ⟨?_, ?_, ?_, ?_⟩
  · simp [zeroBlock, hdrLength]
  · simp [zeroBlock]
    omega
  · simp [zeroBlock, iphaLength]
  · simp [zeroBlock, offsetAndFlags]

lemma zeroBlock_accepted {len flags n : Nat} (hlen : len = 20 + n) (hle : len < 65536) :
    Accepted (zeroBlock len flags n) [] := by
  obtain ⟨hhdr, hdata, hipha, -⟩ := zeroBlock_fields len flags n
  refine ⟨by omega, ?_⟩
  rw [hipha, bytes_cons, hdata]
  change 20 + n + 0 = _
  omega

/-- Three fragments in order; the last one starts at the largest offset there is. -/
def firstBlock : Mblk := zeroBlock 65532 0x2000 65512

def nextBlock : Mblk := zeroBlock 36 0x3ffd 16

def lastBlock : Mblk := zeroBlock 120 0x1fff 100

lemma firstBlock_step : ipRputFragment 0 none [firstBlock] =
    some (some { queue := [firstBlock.plain], holeCnt := 0, fend := 65512, count := 0 }, none) := by
  obtain ⟨hhdr, -, hipha, hoff⟩ := zeroBlock_fields 65532 0x2000 65512
  have hoff' : offsetAndFlags firstBlock.data = 0x2000 := hoff
  have hipha' : iphaLength firstBlock.data = 65532 := hipha
  have hhdr' : hdrLength firstBlock.data = 20 := hhdr
  unfold ipRputFragment
  simp only [hoff', hipha', hhdr']
  have hsizes : sizes [firstBlock] = 0 := rfl
  simp [hsizes]

def nextPiece : Piece := { nextBlock with data := nextBlock.data.drop 20, start := 0, stop := 0 }

lemma nextBlock_step :
    ipRputFragment 0 (some { queue := [firstBlock.plain], holeCnt := 0, fend := 65512, count := 0 }) [nextBlock] =
      some (some { queue := [firstBlock.plain, nextPiece], holeCnt := 0, fend := 65528, count := 0 }, none) := by
  obtain ⟨hhdr, -, hipha, hoff⟩ := zeroBlock_fields 36 0x3ffd 16
  have hoff' : offsetAndFlags nextBlock.data = 0x3ffd := hoff
  have hipha' : iphaLength nextBlock.data = 36 := hipha
  have hhdr' : hdrLength nextBlock.data = 20 := hhdr
  unfold ipRputFragment
  simp only [hoff', hipha', hhdr']
  simp [sizes, nextPiece, Mblk.plain, nextBlock, zeroBlock]

def lastPiece : Piece := { lastBlock with data := lastBlock.data.drop 20, start := 0, stop := 0 }

lemma lastBlock_step :
    ipRputFragment 0 (some { queue := [firstBlock.plain, nextPiece], holeCnt := 0, fend := 65528, count := 0 })
      [lastBlock] = some (none, some (restoreHeader (message [firstBlock.plain, nextPiece, lastPiece]))) := by
  obtain ⟨hhdr, -, hipha, hoff⟩ := zeroBlock_fields 120 0x1fff 100
  have hoff' : offsetAndFlags lastBlock.data = 0x1fff := hoff
  have hipha' : iphaLength lastBlock.data = 120 := hipha
  have hhdr' : hdrLength lastBlock.data = 20 := hhdr
  unfold ipRputFragment
  simp only [hoff', hipha', hhdr']
  simp [lastPiece, Mblk.plain]

/-- The datagram has 65648 bytes. -/
theorem oversized_datagram :
    ¬∀ s s' m rest out, Arrived 0 (fun _ _ _ => True) s → Accepted m rest →
      ipRputFragment 0 s (m :: rest) = some (s', some out) →
        out.length ≤ 65535 ∧ (4 ≤ out.length → iphaLength out = out.length) := by
  intro hall
  have h0 : Arrived 0 (fun _ _ _ => True) none := .idle
  have h1 := h0.arrive (zeroBlock_accepted (n := 65512) rfl (by decide)) trivial firstBlock_step
  have h2 := h1.arrive (zeroBlock_accepted (n := 16) rfl (by decide)) trivial nextBlock_step
  have hbad := (hall _ _ _ _ _ h2 (zeroBlock_accepted (n := 100) rfl (by decide)) lastBlock_step).1
  have hfirst : firstBlock.plain.data.length = 65532 := (zeroBlock_fields 65532 0x2000 65512).2.1
  have hnext : nextPiece.data.length = 16 := by
    exact congrArg (· - 20) (zeroBlock_fields 36 0x3ffd 16).2.1
  have hlast : lastPiece.data.length = 100 := by
    exact congrArg (· - 20) (zeroBlock_fields 120 0x1fff 100).2.1
  rw [length_restoreHeader, message_cons, message_cons, message_cons, length_append, length_append,
    length_append, hfirst, hnext, hlast] at hbad
  omega

def smallFirst : Mblk := zeroBlock 28 0x2000 8

def smallNext : Mblk := zeroBlock 28 0x2001 8

def smallLast : Mblk := zeroBlock 24 0x0002 4

def smallIpf : Ipf :=
  { queue := [⟨⟨smallFirst.data, 0⟩, 0, 8⟩, ⟨⟨[0, 0, 0, 0], 0⟩, 16, 20⟩], holeCnt := 1, fend := 0, count := 0 }

/-- The last of three fragments comes before the second one. -/
theorem reassembled_length_small : ∃ out, ipRputFragment 0 (some smallIpf) [smallNext] = some (none, some out) ∧
    out.length ≤ 65535 ∧ (4 ≤ out.length → iphaLength out = out.length) := by
  have hacc1 : Accepted smallFirst [] := zeroBlock_accepted rfl (by decide)
  have hacc2 : Accepted smallLast [] := zeroBlock_accepted rfl (by decide)
  have hacc3 : Accepted smallNext [] := zeroBlock_accepted rfl (by decide)
  have hfits1 : Fits none smallFirst [] := ⟨fun _ => by decide, fun hno => absurd rfl hno⟩
  have hstep1 : ipRputFragment 0 none [smallFirst] =
      some (some { queue := [smallFirst.plain], holeCnt := 0, fend := 8, count := 0 }, none) := by decide +kernel
  have hrun1 := Arrived.idle.arrive hacc1 hfits1 hstep1
  have hfits2 : Fits (some { queue := [smallFirst.plain], holeCnt := 0, fend := 8, count := 0 }) smallLast [] := by
    refine ⟨fun hno => absurd hno.2 (by decide), fun _ => ⟨?_, fun h => absurd h (by decide), by decide⟩⟩
    rintro ipf ⟨⟩ - p ⟨⟩
    decide
  have hstep2 : ipRputFragment 0 (some { queue := [smallFirst.plain], holeCnt := 0, fend := 8, count := 0 }) [smallLast] =
      some (some smallIpf, none) := by decide +kernel
  have hrun2 := hrun1.arrive hacc2 hfits2 hstep2
  have hfits3 : Fits (some smallIpf) smallNext [] := by
    refine ⟨fun hno => absurd hno.2 (by decide), fun _ => ⟨?_, fun h => absurd h (by decide), by decide⟩⟩
    rintro ipf ⟨⟩ hno
    exact absurd rfl hno
  have hstep : ipRputFragment 0 (some smallIpf) [smallNext] = some (none, some (restoreHeader (message
      [⟨⟨smallFirst.data, 0⟩, 0, 8⟩, ⟨⟨[0, 0, 0, 0, 0, 0, 0, 0], 0⟩, 8, 16⟩, ⟨⟨[0, 0, 0, 0], 0⟩, 16, 20⟩]))) := by
    decide +kernel
  exact ⟨_, hstep, reassembled_length hrun2 hacc3 hfits3 hstep⟩

end Runs

end Solaris.Ip
