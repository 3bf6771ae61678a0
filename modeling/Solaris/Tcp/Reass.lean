import Solaris.Tcp.Receive

/-!
# Spans of the stream

Every piece on the reassembly list holds the bytes of a span of the stream.
-/

namespace Solaris.Tcp

section Stream

open Lib List Nat

section Spans

structure Span where
  start : Nat
  stop : Nat
  le : start ≤ stop

/-- The bytes of the stream from one position to another. -/
def slice (S : Nat → Byte) (a b : Nat) : Bytes := (List.range' a (b - a)).map S

variable {S : Nat → Byte} {o : Seq} {a b c n : Nat}

@[simp] lemma length_slice (S : Nat → Byte) (a b : Nat) : (slice S a b).length = b - a := by simp [slice]

lemma slice_append (hab : a ≤ b) (hbc : b ≤ c) : slice S a b ++ slice S b c = slice S a c := by
  have hb : b = a + (b - a) := by omega
  unfold slice
  rw [← map_append]
  congr 1
  conv_lhs =>
    rw [hb]
    arg 1
    rw [show a + (b - a) - a = b - a by omega]
  rw [range'_append_1]
  congr 1
  omega

lemma slice_self (S : Nat → Byte) (a : Nat) : slice S a a = [] := by simp [slice]

lemma take_slice (S : Nat → Byte) (a b n : Nat) (h : a + n ≤ b) : (slice S a b).take n = slice S a (a + n) := by
  rw [← slice_append (le_add_right a n) h, take_left' (by simp)]

lemma drop_slice (S : Nat → Byte) (a b n : Nat) (h : a + n ≤ b) : (slice S a b).drop n = slice S (a + n) b := by
  rw [← slice_append (le_add_right a n) h, drop_left' (by simp)]

def pieceOf (S : Nat → Byte) (o : Seq) (x : Span) : Piece :=
  ⟨numberOf o x.start, numberOf o x.stop, slice S x.start x.stop⟩

def Covers (l : List Span) (n : Nat) : Prop := ∃ x ∈ l, x.start ≤ n ∧ n < x.stop

@[simp] lemma covers_nil (n : Nat) : ¬Covers [] n := by
  rintro ⟨x, hx, -⟩
  cases hx

@[simp] lemma covers_cons (x : Span) (l : List Span) (n : Nat) :
    Covers (x :: l) n ↔ (x.start ≤ n ∧ n < x.stop) ∨ Covers l n := by
  simp [Covers]

lemma covers_append (l l' : List Span) (n : Nat) : Covers (l ++ l') n ↔ Covers l n ∨ Covers l' n := by
  simp [Covers, or_and_right, exists_or]

def Ordered (l : List Span) : Prop := l.Pairwise fun x y => x.stop ≤ y.start

lemma ordered_cons {x : Span} {l : List Span} : Ordered (x :: l) ↔ (∀ y ∈ l, x.stop ≤ y.start) ∧ Ordered l :=
  pairwise_cons

/-- The spans lie in a part of the stream that is less than half the sequence space. -/
def Within (lo : Nat) (l : List Span) : Prop := ∀ x ∈ l, lo ≤ x.start ∧ x.stop < lo + 2 ^ 31

lemma Within.cons {lo : Nat} {x : Span} {l : List Span} (h : Within lo (x :: l)) :
    (lo ≤ x.start ∧ x.stop < lo + 2 ^ 31) ∧ Within lo l :=
  ⟨h x (mem_cons_self ..), fun y hy => h y (mem_cons_of_mem _ hy)⟩

end Spans

section Compare

variable {o : Seq} {x y : Nat}

lemma seq_lt_iff (h : Near x y) : SEQ_LT (numberOf o x) (numberOf o y) = true ↔ x < y := by
  unfold SEQ_LT
  rw [toInt_numberOf_sub h, decide_eq_true_iff]
  omega

lemma seq_leq_iff (h : Near x y) : SEQ_LEQ (numberOf o x) (numberOf o y) = true ↔ x ≤ y := by
  unfold SEQ_LEQ
  rw [toInt_numberOf_sub h, decide_eq_true_iff]
  omega

lemma seq_gt_iff (h : Near x y) : SEQ_GT (numberOf o x) (numberOf o y) = true ↔ y < x := by
  unfold SEQ_GT
  rw [toInt_numberOf_sub h, decide_eq_true_iff]
  omega

lemma seq_geq_iff (h : Near x y) : SEQ_GEQ (numberOf o x) (numberOf o y) = true ↔ y ≤ x := by
  unfold SEQ_GEQ
  rw [toInt_numberOf_sub h, decide_eq_true_iff]
  omega

lemma toNat_numberOf_sub (hle : y ≤ x) (h : x < y + 2 ^ 32) : (numberOf o x - numberOf o y).toNat = x - y := by
  rw [numberOf_sub, ← cast_sub hle, BitVec.ofInt_natCast, BitVec.toNat_ofNat]
  exact mod_eq_of_lt (by omega)

end Compare

section Overlap

variable {S : Nat → Byte} {o : Seq} {lo : Nat}

lemma elimOverlap_spec (x : Span) (l : List Span) (hord : Ordered l) (hstart : ∀ y ∈ l, x.start ≤ y.start)
    (hin : Within lo (x :: l)) :
    ∃ x' l', elimOverlap (pieceOf S o x) (l.map (pieceOf S o)) = (pieceOf S o x', l'.map (pieceOf S o)) ∧
      x'.start = x.start ∧ x'.stop ≤ x.stop ∧ l' <:+ l ∧ Ordered (x' :: l') ∧
      ∀ n, Covers (x' :: l') n ↔ (x.start ≤ n ∧ n < x.stop) ∨ Covers l n := by
  induction l with
  | nil => exact ⟨x, [], rfl, rfl, le_rfl, suffix_refl _, by simp [Ordered], fun n => by simp⟩
  | cons y l ih =>
    obtain ⟨⟨hx1, hx2⟩, hin'⟩ := hin.cons
    obtain ⟨⟨hy1, hy2⟩, hinl⟩ := hin'.cons
    obtain ⟨hyl, hordl⟩ := ordered_cons.mp hord
    have hxy := hstart y (mem_cons_self ..)
    have hxl := x.le
    have hyle := y.le
    have hgt : SEQ_GT (pieceOf S o x).fin (pieceOf S o y).seq = true ↔ y.start < x.stop :=
      seq_gt_iff ⟨by omega, by omega⟩
    have hgeq : SEQ_GEQ (pieceOf S o x).fin (pieceOf S o y).fin = true ↔ y.stop ≤ x.stop :=
      seq_geq_iff ⟨by omega, by omega⟩
    rw [map_cons, elimOverlap]
    by_cases h1 : y.start < x.stop
    · rw [if_neg (by rw [hgt.mpr h1]; simp)]
      by_cases h2 : y.stop ≤ x.stop
      · rw [if_neg (by rw [hgeq.mpr h2]; simp)]
        obtain ⟨x', l', hrun, h3, h4, h5, h6, h7⟩ := ih hordl (fun z hz => hstart z (mem_cons_of_mem _ hz))
          (forall_mem_cons.mpr ⟨⟨hx1, hx2⟩, hinl⟩)
        refine ⟨x', l', hrun, h3, h4, h5.trans (suffix_cons y l), h6, ?_⟩
        intro n
        rw [h7 n, covers_cons]
        constructor
        · rintro (h | h)
          · exact .inl h
          · exact .inr (.inr h)
        · rintro (h | h | h)
          · exact .inl h
          · exact .inl ⟨by omega, by omega⟩
          · exact .inr h
      · rw [if_pos (by rw [Bool.eq_false_iff]; exact mt hgeq.mp h2)]
        refine ⟨⟨x.start, y.start, hxy⟩, y :: l, ?_, rfl, le_of_lt h1, suffix_refl _, ?_, ?_⟩
        · simp only [pieceOf, map_cons]
          rw [toNat_numberOf_sub (le_of_lt h1) (by omega), length_slice,
            show x.stop - x.start - (x.stop - y.start) = y.start - x.start by omega, take_slice _ _ _ _ (by omega),
            show x.start + (y.start - x.start) = y.start by omega]
        · refine ordered_cons.mpr ⟨?_, hord⟩
          refine forall_mem_cons.mpr ⟨le_rfl, fun z hz => ?_⟩
          have := hyl z hz
          exact le_trans hyle this
        · intro n
          simp only [covers_cons]
          constructor
          · rintro (⟨h, h'⟩ | h)
            · exact .inl ⟨h, by omega⟩
            · exact .inr h
          · rintro (⟨h, h'⟩ | h)
            · by_cases hn : n < y.start
              · exact .inl ⟨h, hn⟩
              · exact .inr (.inl ⟨by omega, by omega⟩)
            · exact .inr h
    · rw [if_pos (by rw [Bool.eq_false_iff]; exact mt hgt.mp h1)]
      refine ⟨x, y :: l, rfl, rfl, le_rfl, suffix_refl _, ?_, fun n => by rw [covers_cons]⟩
      refine ordered_cons.mpr ⟨?_, hord⟩
      refine forall_mem_cons.mpr ⟨by omega, fun z hz => ?_⟩
      have := hyl z hz
      omega

end Overlap

end Stream

/-!
## The reassembly list

A new span is linked in where it belongs, and its neighbours are trimmed: the list stays in order and covers the new
span besides what it covered before.
-/

section Reassembly

open Lib List Nat

variable {S : Nat → Byte} {o : Seq} {lo : Nat}

/-- A list of pieces that holds an ordered list of spans. -/
structure SpanList (S : Nat → Byte) (o : Seq) (lo : Nat) (ps : List Piece) (l : List Span) : Prop where
  eq : ps = l.map (pieceOf S o)
  ordered : Ordered l
  within : Within lo l

section Insert

lemma Within.suffix {l l' : List Span} {x x' : Span} (h : Within lo (x :: l)) (hstart : x'.start = x.start)
    (hstop : x'.stop ≤ x.stop) (hsuf : l' <:+ l) : Within lo (x' :: l') := by
  intro y hy
  rcases mem_cons.mp hy with rfl | hy
  · have := h x (mem_cons_self ..)
    omega
  · exact h y (mem_cons_of_mem _ (hsuf.subset hy))

lemma linkIn_spec (x w : Span) (l : List Span) (hord : Ordered (w :: l)) (hwx : w.start ≤ x.start)
    (hxl : ∀ y ∈ l, x.start ≤ y.start) (hin : Within lo (x :: w :: l)) :
    ∃ w' l', SpanList S o lo (linkIn (pieceOf S o x) (pieceOf S o w) (l.map (pieceOf S o))) (w' :: l') ∧
      w'.start = w.start ∧ ∀ n, Covers (w' :: l') n ↔ (x.start ≤ n ∧ n < x.stop) ∨ Covers (w :: l) n := by
  obtain ⟨hx, hin'⟩ := hin.cons
  obtain ⟨hw, hinl⟩ := hin'.cons
  obtain ⟨hwl, hordl⟩ := ordered_cons.mp hord
  have hinx : Within lo (x :: l) := forall_mem_cons.mpr ⟨hx, hinl⟩
  obtain ⟨x', l1, hrun1, hs1, hle1, hsuf1, hord1, hcov1⟩ := elimOverlap_spec (S := S) (o := o) x l hordl hxl hinx
  have hin1 := hinx.suffix hs1 hle1 hsuf1
  have hstart : ∀ y ∈ x' :: l1, w.start ≤ y.start := by
    refine forall_mem_cons.mpr ⟨by omega, fun y hy => ?_⟩
    have := hxl y (hsuf1.subset hy)
    omega
  have hinw : Within lo (w :: x' :: l1) := forall_mem_cons.mpr ⟨hw, hin1⟩
  obtain ⟨w', l2, hrun2, hs2, hle2, hsuf2, hord2, hcov2⟩ :=
    elimOverlap_spec (S := S) (o := o) w (x' :: l1) hord1 hstart hinw
  refine ⟨w', l2, ⟨?_, hord2, hinw.suffix hs2 hle2 hsuf2⟩, hs2, ?_⟩
  · unfold linkIn
    simp only [hrun1]
    rw [map_cons] at hrun2
    rw [hrun2, map_cons]
  · intro n
    rw [hcov2 n, hcov1 n, covers_cons]
    tauto

lemma findSlot_spec (x w : Span) (l : List Span) (hord : Ordered (w :: l)) (hwx : w.start ≤ x.start)
    (hin : Within lo (x :: w :: l)) :
    ∃ w' l', SpanList S o lo (findSlot (pieceOf S o x) (pieceOf S o w) (l.map (pieceOf S o))) (w' :: l') ∧
      w'.start = w.start ∧ ∀ n, Covers (w' :: l') n ↔ (x.start ≤ n ∧ n < x.stop) ∨ Covers (w :: l) n := by
  induction l generalizing w with
  | nil => exact linkIn_spec x w [] hord hwx (by simp) hin
  | cons y l ih =>
    obtain ⟨hx, hin'⟩ := hin.cons
    obtain ⟨hw, hinl⟩ := hin'.cons
    obtain ⟨hy, -⟩ := hinl.cons
    obtain ⟨hwl, hordl⟩ := ordered_cons.mp hord
    have hxle := x.le
    have hyle := y.le
    have hleq : SEQ_LEQ (pieceOf S o x).seq (pieceOf S o y).seq = true ↔ x.start ≤ y.start :=
      seq_leq_iff ⟨by omega, by omega⟩
    rw [map_cons, findSlot]
    by_cases hxy : x.start ≤ y.start
    · rw [if_pos (hleq.mpr hxy)]
      refine linkIn_spec x w (y :: l) hord hwx ?_ hin
      refine forall_mem_cons.mpr ⟨hxy, fun z hz => ?_⟩
      have := (ordered_cons.mp hordl).1 z hz
      omega
    rw [if_neg (mt hleq.mp hxy)]
    have hinx : Within lo (x :: y :: l) := forall_mem_cons.mpr ⟨hx, hinl⟩
    obtain ⟨y', l', hsp, hs, hcov⟩ := ih y hordl (by omega) hinx
    refine ⟨w, y' :: l', ⟨?_, ?_, ?_⟩, rfl, ?_⟩
    · rw [hsp.eq]
      rfl
    · refine ordered_cons.mpr ⟨?_, hsp.ordered⟩
      intro z hz
      have hwy := hwl y (mem_cons_self ..)
      rcases mem_cons.mp hz with rfl | hz
      · omega
      · have := (ordered_cons.mp hsp.ordered).1 z hz
        have := y'.le
        omega
    · exact forall_mem_cons.mpr ⟨hw, hsp.within⟩
    · intro n
      rw [covers_cons, hcov n, covers_cons w]
      tauto

lemma getLast?_stop {l : List Span} {t : Span} (hord : Ordered l) (ht : l.getLast? = some t) :
    ∀ y ∈ l, y.stop ≤ t.stop := by
  obtain ⟨init, rfl⟩ := getLast?_eq_some_iff.mp ht
  intro y hy
  rcases mem_append.mp hy with hy | hy
  · have := (pairwise_append.mp hord).2.2 y hy t (mem_singleton.mpr rfl)
    have := t.le
    omega
  · rw [mem_singleton.mp hy]

lemma addPiece_spec (x : Span) {ps : List Piece} {l : List Span} (h : SpanList S o lo ps l)
    (hx : lo ≤ x.start ∧ x.stop < lo + 2 ^ 31) :
    ∃ l', SpanList S o lo (addPiece (pieceOf S o x) ps) l' ∧
      ∀ n, Covers l' n ↔ (x.start ≤ n ∧ n < x.stop) ∨ Covers l n := by
  obtain ⟨rfl, hord, hin⟩ := h
  have hinx : Within lo (x :: l) := forall_mem_cons.mpr ⟨hx, hin⟩
  have hxle := x.le
  cases l with
  | nil =>
    refine ⟨[x], ⟨rfl, by simp [Ordered], hinx⟩, ?_⟩
    intro n
    simp
  | cons w l =>
    obtain ⟨hw, -⟩ := hin.cons
    have hwle := w.le
    obtain ⟨t, ht⟩ := Option.ne_none_iff_exists'.mp (mt getLast?_eq_none_iff.mp (cons_ne_nil w l))
    have htm := mem_of_getLast? ht
    have htin := hin t htm
    have htle := t.le
    have hgeq : SEQ_GEQ (pieceOf S o x).seq (pieceOf S o t).fin = true ↔ t.stop ≤ x.start :=
      seq_geq_iff ⟨by omega, by omega⟩
    have hlt : SEQ_LT (pieceOf S o x).seq (pieceOf S o w).seq = true ↔ x.start < w.start :=
      seq_lt_iff ⟨by omega, by omega⟩
    have hlast : ((w :: l).map (pieceOf S o)).getLast? = some (pieceOf S o t) := by
      rw [getLast?_map, ht]
      rfl
    simp only [map_cons] at hlast
    simp only [map_cons, addPiece, hlast, Option.any_some]
    by_cases hend : t.stop ≤ x.start
    · rw [if_pos (hgeq.mpr hend)]
      refine ⟨(w :: l) ++ [x], ⟨by simp, ?_, ?_⟩, ?_⟩
      · refine pairwise_append.mpr ⟨hord, pairwise_singleton _ _, ?_⟩
        intro y hy z hz
        rw [mem_singleton.mp hz]
        exact le_trans (getLast?_stop hord ht y hy) hend
      · exact forall_mem_append.mpr ⟨hin, forall_mem_singleton.mpr hx⟩
      · intro n
        rw [covers_append]
        simp
        tauto
    · rw [if_neg (mt hgeq.mp hend)]
      by_cases hfront : x.start < w.start
      · rw [if_pos (hlt.mpr hfront)]
        have hstart : ∀ y ∈ w :: l, x.start ≤ y.start := by
          refine forall_mem_cons.mpr ⟨by omega, fun y hy => ?_⟩
          have := (ordered_cons.mp hord).1 y hy
          omega
        obtain ⟨x', l', hrun, hs, hle, hsuf, hord', hcov⟩ :=
          elimOverlap_spec x (w :: l) hord hstart hinx
        rw [map_cons] at hrun
        refine ⟨x' :: l', ⟨?_, hord', hinx.suffix hs hle hsuf⟩, hcov⟩
        rw [hrun, map_cons]
      · rw [if_neg (mt hlt.mp hfront)]
        obtain ⟨w', l', hsp, -, hcov⟩ := findSlot_spec x w l hord (by omega) hinx
        exact ⟨w' :: l', hsp, hcov⟩

lemma addPieces_spec (bs : List Bytes) (a b : Nat) (hdata : bs.flatten = slice S a b) (hab : a ≤ b) (hlo : lo ≤ a)
    (hhi : b < lo + 2 ^ 31) {ps : List Piece} {l : List Span} (h : SpanList S o lo ps l) :
    ∃ l', SpanList S o lo (addPieces (numberOf o a) bs ps) l' ∧ ∀ n, Covers l' n ↔ (a ≤ n ∧ n < b) ∨ Covers l n := by
  induction bs generalizing a ps l with
  | nil =>
    have hlen := congrArg length hdata
    simp only [flatten_nil, length_nil, length_slice] at hlen
    refine ⟨l, h, fun n => ⟨.inr, ?_⟩⟩
    rintro (h | h)
    · omega
    · exact h
  | cons c bs ih =>
    have hlen := congrArg length hdata
    simp only [flatten_cons, length_append, length_slice] at hlen
    have hle : a + c.length ≤ b := by omega
    rw [flatten_cons, ← slice_append (le_add_right a c.length) hle] at hdata
    obtain ⟨hc, hrest⟩ := append_inj hdata (by simp)
    rw [addPieces, ← numberOf_add]
    have heq : numberOf o a = numberOf o (a + c.length) ↔ a = a + c.length := numberOf_inj ⟨by omega, by omega⟩
    by_cases hzero : a = a + c.length
    · simp only [if_pos (heq.mpr hzero)]
      have hcl : c.length = 0 := by omega
      obtain ⟨l', hsp, hcov⟩ := ih (a + c.length) hrest hle (by omega) h
      refine ⟨l', hsp, ?_⟩
      intro n
      rw [hcov n, hcl]
      rfl
    simp only [if_neg (mt heq.mp hzero)]
    have hpiece : (⟨numberOf o a, numberOf o (a + c.length), c⟩ : Piece) =
        pieceOf S o ⟨a, a + c.length, le_add_right a c.length⟩ := by
      rw [pieceOf, ← hc]
    rw [hpiece]
    obtain ⟨l1, hsp1, hcov1⟩ := addPiece_spec ⟨a, a + c.length, le_add_right a c.length⟩ h
      ⟨hlo, lt_of_le_of_lt hle hhi⟩
    obtain ⟨l', hsp, hcov⟩ := ih (a + c.length) hrest hle (by omega) hsp1
    refine ⟨l', hsp, ?_⟩
    intro n
    rw [hcov n, hcov1 n]
    constructor
    · rintro (h | h | h)
      · exact .inl ⟨by omega, h.2⟩
      · exact .inl ⟨h.1, lt_of_lt_of_le h.2 hle⟩
      · exact .inr h
    · rintro (h | h)
      · by_cases hn : n < a + c.length
        · exact .inr (.inl ⟨h.1, hn⟩)
        · exact .inl ⟨by omega, h.2⟩
      · exact .inr (.inr h)

end Insert

section Eat

theorem eat_spec (l : List Span) (e : Nat) (hord : Ordered l) (hin : Within lo l) (he : lo ≤ e ∧ e < lo + 2 ^ 31)
    (hle : ∀ y ∈ l, e ≤ y.start) :
    ∃ e' l', (eat (numberOf o e) (l.map (pieceOf S o))).1.flatten = slice S e e' ∧ e ≤ e' ∧ e' < lo + 2 ^ 31 ∧
      SpanList S o lo (eat (numberOf o e) (l.map (pieceOf S o))).2 l' ∧ (∀ y ∈ l', e' < y.start) ∧
      (∀ n, Covers l n ↔ (e ≤ n ∧ n < e') ∨ Covers l' n) := by
  induction l generalizing e with
  | nil =>
    refine ⟨e, [], by simp [eat, slice_self], le_rfl, he.2, ⟨rfl, List.Pairwise.nil, by simp [Within]⟩, by simp, ?_⟩
    intro n
    constructor
    · intro h
      exact absurd h (covers_nil n)
    · rintro (h | h)
      · omega
      · exact h
  | cons y l ih =>
    obtain ⟨hy, hinl⟩ := hin.cons
    obtain ⟨hyl, hordl⟩ := ordered_cons.mp hord
    have hyle := y.le
    have hey := hle y (mem_cons_self ..)
    have heq : numberOf o e = (pieceOf S o y).seq ↔ e = y.start := numberOf_inj ⟨by omega, by omega⟩
    rw [map_cons, eat]
    by_cases hcont : e = y.start
    · rw [if_neg (not_not.mpr (heq.mpr hcont))]
      obtain ⟨e', l', h1, h2, h3, h4, h5, h6⟩ := ih y.stop hordl hinl ⟨by omega, hy.2⟩ hyl
      refine ⟨e', l', ?_, by omega, h3, h4, h5, ?_⟩
      · rw [hcont, ← slice_append hyle h2, ← h1]
        rfl
      · intro n
        rw [covers_cons, h6 n]
        constructor
        · rintro (h | h | h)
          · exact .inl ⟨by omega, by omega⟩
          · exact .inl ⟨by omega, h.2⟩
          · exact .inr h
        · rintro (h | h)
          · by_cases hn : n < y.stop
            · exact .inl ⟨by omega, hn⟩
            · exact .inr (.inl ⟨by omega, h.2⟩)
          · exact .inr (.inr h)
    · rw [if_pos (mt heq.mp hcont)]
      refine ⟨e, y :: l, by simp [slice_self], le_rfl, he.2, ⟨rfl, hord, hin⟩, ?_, ?_⟩
      · refine forall_mem_cons.mpr ⟨by omega, fun z hz => ?_⟩
        have := hyl z hz
        omega
      · intro n
        constructor
        · exact .inr
        · rintro (h | h)
          · omega
          · exact h

theorem tcpReass_spec {R a b : Nat} {bs : List Bytes} {ps : List Piece} {l : List Span} (h : SpanList S o R ps l)
    (hdata : bs.flatten = slice S a b) (hab : a < b) (hlo : R ≤ a) (hhi : b < R + 2 ^ 31) :
    ∃ R' l', SpanList S o R (tcpReass (numberOf o R) bs (numberOf o a) ps).2 l' ∧ R ≤ R' ∧ R' < R + 2 ^ 31 ∧
      ((tcpReass (numberOf o R) bs (numberOf o a) ps).1.getD []).flatten = slice S R R' ∧
      (∀ y ∈ l', R' < y.start) ∧ ∀ n, ((a ≤ n ∧ n < b) ∨ Covers l n) ↔ (R ≤ n ∧ n < R') ∨ Covers l' n := by
  obtain ⟨l1, hsp, hcov⟩ := addPieces_spec (S := S) (o := o) bs a b hdata (le_of_lt hab) hlo hhi h
  unfold tcpReass
  cases l1 with
  | nil =>
    -- the new span is covered, so the list is not empty
    have := (hcov a).mpr (.inl ⟨le_rfl, hab⟩)
    exact absurd this (covers_nil a)
  | cons x l1 =>
    obtain ⟨hx, hinl⟩ := hsp.within.cons
    obtain ⟨hxl, hordl⟩ := ordered_cons.mp hsp.ordered
    have hxle := x.le
    have heq : (pieceOf S o x).seq = numberOf o R ↔ x.start = R := numberOf_inj ⟨by omega, by omega⟩
    rw [hsp.eq, map_cons]
    dsimp only
    by_cases hready : x.start = R
    · rw [if_neg (not_not.mpr (heq.mpr hready))]
      obtain ⟨R', l', h1, h2, h3, h4, h5, h6⟩ := eat_spec (S := S) (o := o) l1 x.stop hordl hinl ⟨by omega, hx.2⟩ hxl
      refine ⟨R', l', h4, by omega, h3, ?_, h5, ?_⟩
      · have hsl := slice_append (S := S) hxle h2
        rw [← hready, ← hsl, ← h1]
        rfl
      · intro n
        rw [← hcov n, covers_cons, h6 n]
        constructor
        · rintro (h | h | h)
          · exact .inl ⟨by omega, by omega⟩
          · exact .inl ⟨by omega, h.2⟩
          · exact .inr h
        · rintro (h | h)
          · by_cases hn : n < x.stop
            · exact .inl ⟨by omega, hn⟩
            · exact .inr (.inl ⟨by omega, h.2⟩)
          · exact .inr (.inr h)
    · rw [if_pos (mt heq.mp hready)]
      refine ⟨R, x :: l1, ⟨rfl, hsp.ordered, hsp.within⟩, le_rfl, by omega, by simp [slice_self], ?_, ?_⟩
      · refine forall_mem_cons.mpr ⟨by omega, fun z hz => ?_⟩
        have := hxl z hz
        omega
      · intro n
        rw [← hcov n]
        constructor
        · exact .inr
        · rintro (h | h)
          · omega
          · exact h

end Eat

end Reassembly

end Solaris.Tcp
