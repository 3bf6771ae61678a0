import Solaris.Tcp.Reass

/-!
# The stream is delivered

Segments carry parts of one stream. What has been passed upstream or waits for a push is the beginning of the stream up
to `tcp_rnxt`, and the reassembly list holds all else that was inside the window when it arrived.
-/

namespace Solaris.Tcp

section Delivery

open Lib List Int

section Trim

lemma length_flatten (mp : List Bytes) : mp.flatten.length = msgdsize mp := by
  rw [List.length_flatten]
  rfl

lemma chewFront_flatten (n : Nat) (mp : List Bytes) : (chewFront n mp).flatten = mp.flatten.drop n := by
  induction mp generalizing n with
  | nil => simp [chewFront]
  | cons b bs ih =>
    rw [chewFront, flatten_cons, drop_append]
    by_cases h1 : b.length > n
    · rw [if_pos h1, flatten_cons, Nat.sub_eq_zero_of_le (Nat.le_of_lt h1), drop_zero]
    · rw [if_neg h1, drop_eq_nil_of_le (by omega), nil_append]
      by_cases h2 : b.length < n
      · rw [if_pos h2, ih]
      · rw [if_neg h2, show n - b.length = 0 by omega, drop_zero]

lemma chopEnd_flatten (n : Nat) (mp : List Bytes) : (chopEnd n mp).flatten = mp.flatten.take n := by
  induction mp generalizing n with
  | nil => simp [chopEnd]
  | cons b bs ih =>
    rw [chopEnd, flatten_cons, take_append]
    by_cases h1 : b.length > n
    · rw [if_pos h1, Nat.sub_eq_zero_of_le (Nat.le_of_lt h1)]
      simp
    · have hb : b.take n = b := take_of_length_le (by omega)
      rw [if_neg h1, flatten_cons, ih, hb]

/-- The sequence numbers in play lie within half the sequence space. -/
structure Live (R W a n : Nat) : Prop where
  segment : n < 2 ^ 31
  ahead : a + n < R + 2 ^ 31
  behind : R + W < a + 2 ^ 31
  window : W < 2 ^ 31

variable {S : Nat → Byte} {o : Seq} {t : Conn} {seg : Segment} {R a : Nat}

lemma trim_spec (hrnxt : t.rnxt = numberOf o R) (hseq : seg.seq = numberOf o a)
    (hdata : seg.mp.flatten = slice S a (a + msgdsize seg.mp)) (hlive : Live R t.rwnd.toNat a (msgdsize seg.mp)) :
    (trim t seg = none ∧ min (a + msgdsize seg.mp) (R + t.rwnd.toNat) ≤ max a R) ∨
      ∃ mp, trim t seg = some (numberOf o (max a R), mp,
          ((min (a + msgdsize seg.mp) (R + t.rwnd.toNat) - max a R : Nat) : Int)) ∧
        max a R ≤ min (a + msgdsize seg.mp) (R + t.rwnd.toNat) ∧
        mp.flatten = slice S (max a R) (min (a + msgdsize seg.mp) (R + t.rwnd.toNat)) := by
  obtain ⟨h1, h2, h3, h4⟩ := hlive
  set n := msgdsize seg.mp with hn
  set W := t.rwnd.toNat with hW
  have hgap : (seg.seq - t.rnxt).toInt = (a : Int) - R := by
    rw [hseq, hrnxt]
    exact toInt_numberOf_sub ⟨by omega, by omega⟩
  have hrgap : (t.rwnd - BitVec.ofInt 32 ((a : Int) - R + n)).toInt = (R + W : Int) - (a + n) := by
    have hw : t.rwnd = BitVec.ofInt 32 W := by rw [BitVec.ofInt_natCast, hW, BitVec.ofNat_toNat, BitVec.setWidth_eq]
    rw [hw, BitVec.toInt_sub, BitVec.toInt_ofInt, BitVec.toInt_ofInt, bmod_sub_bmod, sub_bmod_bmod,
      bmod_eq_of_le (by omega) (by omega)]
    omega
  unfold trim
  dsimp only
  rw [hgap, ← hn, hrgap]
  by_cases hold : a < R
  · have hmax : max a R = R := by omega
    have hneg : (a : Int) - R < 0 := by omega
    have hchew : (-((a : Int) - R)).toNat = R - a := by omega
    rw [hmax]
    by_cases hnothing : a + n ≤ R
    · rw [if_pos ⟨hneg, by omega⟩]
      exact .inl ⟨rfl, by omega⟩
    rw [if_neg (by omega)]
    simp only [if_pos hneg, hchew]
    have hflat : (chewFront (R - a) seg.mp).flatten = slice S R (a + n) := by
      rw [chewFront_flatten, hdata, drop_slice _ _ _ _ (by omega), show a + (R - a) = R by omega]
    by_cases hout : (R + W : Int) - (a + n) < 0
    · rw [if_pos hout]
      by_cases hzero : W = 0
      · rw [if_pos (by omega)]
        exact .inl ⟨rfl, by omega⟩
      rw [if_neg (by omega)]
      have hmin : min (a + n) (R + W) = R + W := by omega
      have hlen : (n : Int) + (a - R) + (R + W - (a + n)) = ((R + W - R : Nat) : Int) := by omega
      rw [hmin, hlen, hrnxt, toNat_natCast, Nat.add_sub_cancel_left]
      refine .inr ⟨chopEnd W (chewFront (R - a) seg.mp), rfl, by omega, ?_⟩
      rw [chopEnd_flatten, hflat, take_slice _ _ _ _ (by omega)]
    · rw [if_neg hout]
      have hmin : min (a + n) (R + W) = a + n := by omega
      have hlen : (n : Int) + (a - R) = ((a + n - R : Nat) : Int) := by omega
      rw [hmin, hlen, hrnxt]
      exact .inr ⟨chewFront (R - a) seg.mp, rfl, by omega, hflat⟩
  · have hmax : max a R = a := by omega
    have hneg : ¬(a : Int) - R < 0 := by omega
    rw [hmax, if_neg (fun h => hneg h.1)]
    simp only [if_neg hneg]
    by_cases hout : (R + W : Int) - (a + n) < 0
    · rw [if_pos hout]
      by_cases hzero : R + W ≤ a
      · rw [if_pos (by omega)]
        exact .inl ⟨rfl, by omega⟩
      rw [if_neg (by omega)]
      have hmin : min (a + n) (R + W) = R + W := by omega
      have hlen : (n : Int) + (R + W - (a + n)) = ((R + W - a : Nat) : Int) := by omega
      rw [hmin, hlen, hseq, toNat_natCast]
      refine .inr ⟨chopEnd (R + W - a) seg.mp, rfl, by omega, ?_⟩
      rw [chopEnd_flatten, hdata, take_slice _ _ _ _ (by omega), show a + (R + W - a) = R + W by omega]
    · rw [if_neg hout]
      have hmin : min (a + n) (R + W) = a + n := by omega
      rw [hmin, hseq, Nat.add_sub_cancel_left]
      exact .inr ⟨seg.mp, rfl, by omega, hdata⟩

end Trim

section Deliver

variable {S : Nat → Byte} {o : Seq} {t : Conn} {R : Nat} {l : List Span}

def Conn.delivered (t : Conn) : Bytes := t.upstream ++ t.rcv.flatten

/-- The connection has the stream up to `R`, and the spans of the list beyond it. -/
structure Holds (S : Nat → Byte) (o : Seq) (t : Conn) (R : Nat) (l : List Span) : Prop where
  rnxt : t.rnxt = numberOf o R
  reass : SpanList S o R t.reass l
  beyond : ∀ x ∈ l, R < x.start
  delivered : t.delivered = slice S 0 R

lemma processAck_fields {ack : Option Seq} {t' : Conn} (h : processAck t ack = some t') :
    t'.rnxt = t.rnxt ∧ t'.reass = t.reass ∧ t'.delivered = t.delivered ∧ t'.rwnd = t.rwnd := by
  unfold processAck at h
  split at h
  · cases h
  dsimp only at h
  split at h
  · cases h
    exact ⟨rfl, rfl, rfl, rfl⟩
  · split at h
    · cases h
    · cases h
      exact ⟨rfl, rfl, rfl, rfl⟩

lemma flatten_dropEmpty (mp : List Bytes) :
    (match mp with
      | [] => []
      | b :: bs => if b.length = 0 then bs else b :: bs).flatten = mp.flatten := by
  cases mp with
  | nil => rfl
  | cons b bs =>
    dsimp only
    split
    · rename_i hb
      rw [flatten_cons, length_eq_zero_iff.mp hb, nil_append]
    · rfl

lemma deliver_fields (t : Conn) (pushWait : Nat) (psh canput : Bool) (mp : List Bytes) (segLen : Nat) :
    (deliver t pushWait psh canput mp segLen).rnxt = t.rnxt + BitVec.ofNat 32 segLen ∧
      (deliver t pushWait psh canput mp segLen).reass = t.reass ∧
      (deliver t pushWait psh canput mp segLen).delivered = t.delivered ++ mp.flatten := by
  have hflat := flatten_dropEmpty mp
  unfold deliver Conn.delivered
  dsimp only
  split
  · refine ⟨rfl, rfl, ?_⟩
    rw [flatten_append, append_assoc]
    exact congrArg _ (congrArg _ hflat)
  split
  · split
    · refine ⟨rfl, rfl, ?_⟩
      rw [flatten_append, flatten_nil, append_nil, append_assoc]
      exact congrArg _ (congrArg _ hflat)
    · refine ⟨rfl, rfl, ?_⟩
      rw [flatten_append, append_assoc]
      exact congrArg _ (congrArg _ hflat)
  split
  · refine ⟨rfl, rfl, ?_⟩
    rw [flatten_append, flatten_nil, append_nil, append_assoc]
    exact congrArg _ (congrArg _ hflat)
  · refine ⟨rfl, rfl, ?_⟩
    rw [flatten_append, append_assoc]
    exact congrArg _ (congrArg _ hflat)

theorem Holds.reassemble (h : Holds S o t R l) {a b : Nat} {mp : List Bytes} (psh : Bool) (hlo : R ≤ a) (hab : a ≤ b)
    (hhi : b < R + 2 ^ 31) (hdata : mp.flatten = slice S a b) :
    ∃ R' l', SpanList S o R (Tcp.reassemble t psh (numberOf o a) mp ((b - a : Nat) : Int)).reass l' ∧ R ≤ R' ∧
      (Tcp.reassemble t psh (numberOf o a) mp ((b - a : Nat) : Int)).mp.flatten = slice S R R' ∧
      (Tcp.reassemble t psh (numberOf o a) mp ((b - a : Nat) : Int)).segLen = R' - R ∧ (∀ x ∈ l', R' < x.start) ∧
      ∀ n, ((a ≤ n ∧ n < b) ∨ Covers l n) ↔ (R ≤ n ∧ n < R') ∨ Covers l' n := by
  have hnone : ∀ n, a = b → (((a ≤ n ∧ n < b) ∨ Covers l n) ↔ (R ≤ n ∧ n < R) ∨ Covers l n) := by
    intro n heq
    constructor
    · rintro (h | h)
      · omega
      · exact .inr h
    · rintro (h | h)
      · omega
      · exact .inr h
  unfold Tcp.reassemble
  by_cases hsplit : numberOf o a ≠ t.rnxt ∨ t.reass ≠ []
  · rw [if_pos hsplit]
    split_ifs with hpos
    · obtain ⟨R', l', h1, h2, h3, h4, h5, h6⟩ := tcpReass_spec h.reass hdata (by omega) hlo hhi
      rw [← h.rnxt] at h1 h4
      rcases hr : tcpReass t.rnxt mp (numberOf o a) t.reass with ⟨_ | mp', reass⟩
      · rw [hr] at h1 h4
        refine ⟨R', l', h1, h2, h4, ?_, h5, h6⟩
        have := congrArg length h4
        simpa using this
      rw [hr] at h1 h4
      refine ⟨R', l', h1, h2, h4, ?_, h5, h6⟩
      have := congrArg length h4
      rw [length_slice] at this
      rw [← this]
      exact (length_flatten mp').symm
    · have heq : a = b := by omega
      refine ⟨R, l, h.reass, le_rfl, ?_, by simp [heq], h.beyond, fun n => hnone n heq⟩
      rw [hdata, heq, slice_self, slice_self]
  · rw [if_neg hsplit]
    rw [not_or, not_not, not_not, h.rnxt] at hsplit
    have ha : a = R := (numberOf_inj ⟨by omega, by omega⟩).mp hsplit.1
    have hl : l = [] := by
      have := h.reass.eq
      rw [hsplit.2] at this
      exact map_eq_nil_iff.mp this.symm
    subst ha
    refine ⟨b, l, h.reass, hab, hdata, toNat_natCast _, ?_, fun n => Iff.rfl⟩
    rw [hl]
    simp

end Deliver

end Delivery

/-!
## Runs of a receiver

Segments arrive in any order, again and with overlaps; in between the window is opened or shrunk, data is sent, and the
list that waits for a push is passed upstream.
-/

section Receiver

open Lib List Int

variable {S : Nat → Byte} {o : Seq} {t : Conn} {seg : Segment} {R a : Nat} {l : List Span} {A : Set Nat}

section Step

/-- The segment carries the bytes of the stream from `a` on. -/
structure Carries (S : Nat → Byte) (o : Seq) (a : Nat) (seg : Segment) : Prop where
  seq : seg.seq = numberOf o a
  data : seg.mp.flatten = slice S a (a + msgdsize seg.mp)

def InWindow (t : Conn) (o : Seq) (p : Nat) : Prop := (numberOf o p - t.rnxt).toNat < t.rwnd.toNat

/-- The segment acknowledges nothing that has not been sent. -/
def AckOk (t : Conn) (seg : Segment) : Prop :=
  ∃ ack, seg.ack = some ack ∧ ((ack - t.suna).toInt ≤ 0 ∨ SEQ_GT ack t.snxt = false)

lemma processAck_isSome (h : AckOk t seg) : ∃ t', processAck t seg.ack = some t' := by
  obtain ⟨ack, hack, hok⟩ := h
  rw [hack]
  unfold processAck
  dsimp only
  by_cases hold : (ack - t.suna).toInt ≤ 0
  · exact ⟨t, if_pos hold⟩
  · rw [if_neg hold]
    rcases hok with hle | hgt
    · exact absurd hle hold
    · exact ⟨{ t with suna := ack }, by rw [hgt]; rfl⟩

lemma inWindow_iff (hrnxt : t.rnxt = numberOf o R) (hlive : Live R t.rwnd.toNat a (msgdsize seg.mp)) {p : Nat}
    (hlo : a ≤ p) (hhi : p < a + msgdsize seg.mp) : InWindow t o p ↔ R ≤ p ∧ p < R + t.rwnd.toNat := by
  obtain ⟨h1, h2, h3, h4⟩ := hlive
  unfold InWindow
  rw [hrnxt]
  by_cases hle : R ≤ p
  · rw [toNat_numberOf_sub hle (by omega)]
    omega
  · have hneg : (numberOf o p - numberOf o R).toNat = 2 ^ 32 - (R - p) := by
      have hdiff : numberOf o p - numberOf o R = -(numberOf o R - numberOf o p) := by
        rw [BitVec.neg_sub, BitVec.add_comm, BitVec.sub_eq_add_neg]
      rw [hdiff, BitVec.toNat_neg, toNat_numberOf_sub (by omega) (by omega), Nat.mod_eq_of_lt (by omega)]
    omega

lemma Holds.rput (h : Holds S o t R l) (hc : Carries S o a seg) (hlive : Live R t.rwnd.toNat a (msgdsize seg.mp))
    (hack : AckOk t seg) (pushWait : Nat) (canput : Bool) :
    ∃ R' l', Holds S o (tcpRputData t pushWait seg canput) R' l' ∧ R ≤ R' ∧
      ∀ n, (n < R' ∨ Covers l' n) ↔
        (n < R ∨ Covers l n) ∨ (a ≤ n ∧ n < a + msgdsize seg.mp ∧ R ≤ n ∧ n < R + t.rwnd.toNat) := by
  unfold tcpRputData
  rcases trim_spec h.rnxt hc.seq hc.data hlive with ⟨hnone, hempty⟩ | ⟨mp, hsome, hle, hflat⟩
  · rw [hnone]
    obtain ⟨t', ht'⟩ := processAck_isSome hack
    obtain ⟨h1, h2, h3, -⟩ := processAck_fields ht'
    rw [ht', Option.getD_some]
    refine ⟨R, l, ⟨h1.trans h.rnxt, by rw [h2]; exact h.reass, h.beyond, h3.trans h.delivered⟩, le_rfl, ?_⟩
    intro n
    constructor
    · exact .inl
    · rintro (hn | hn)
      · exact hn
      · omega
  · rw [hsome]
    dsimp only
    have hhi : min (a + msgdsize seg.mp) (R + t.rwnd.toNat) < R + 2 ^ 31 := by
      have := hlive.ahead
      omega
    obtain ⟨R', l', hsp, hR, hmp, hlen, hbeyond, hcov⟩ :=
      h.reassemble seg.psh (le_max_right a R) hle hhi hflat
    have hack' : AckOk { t with reass := (Tcp.reassemble t seg.psh (numberOf o (max a R)) mp
        ((min (a + msgdsize seg.mp) (R + t.rwnd.toNat) - max a R : Nat) : Int)).reass } seg := hack
    obtain ⟨t', ht'⟩ := processAck_isSome hack'
    obtain ⟨h1, h2, h3, -⟩ := processAck_fields ht'
    rw [ht']
    dsimp only
    have hsp' : SpanList S o R' t'.reass l' := by
      rw [h2]
      refine ⟨hsp.eq, hsp.ordered, ?_⟩
      intro x hx
      have := hsp.within x hx
      have := hbeyond x hx
      omega
    have hcov' : ∀ n, (n < R' ∨ Covers l' n) ↔
        (n < R ∨ Covers l n) ∨ (a ≤ n ∧ n < a + msgdsize seg.mp ∧ R ≤ n ∧ n < R + t.rwnd.toNat) := by
      intro n
      have := hcov n
      constructor
      · rintro (hn | hn)
        · by_cases hnR : n < R
          · exact .inl (.inl hnR)
          · rcases this.mpr (.inl ⟨by omega, hn⟩) with hin | hin
            · exact .inr ⟨by omega, by omega, by omega, by omega⟩
            · exact .inl (.inr hin)
        · rcases this.mpr (.inr hn) with hin | hin
          · exact .inr ⟨by omega, by omega, by omega, by omega⟩
          · exact .inl (.inr hin)
      · rintro ((hn | hn) | hn)
        · exact .inl (by omega)
        · rcases this.mp (.inr hn) with hin | hin
          · exact .inl hin.2
          · exact .inr hin
        · rcases this.mp (.inl ⟨by omega, by omega⟩) with hin | hin
          · exact .inl hin.2
          · exact .inr hin
    refine ⟨R', l', ?_, hR, hcov'⟩
    have hdel : t.delivered ++ slice S R R' = slice S 0 R' := by
      rw [h.delivered, slice_append (Nat.zero_le R) hR]
    split
    · rename_i hzero
      have hRR : R' = R := by omega
      refine ⟨?_, hsp', hbeyond, ?_⟩
      · rw [h1, hRR]
        exact h.rnxt
      · rw [h3, ← hdel, hRR, slice_self, append_nil]
        rfl
    obtain ⟨h4, h5, h6⟩ := deliver_fields t' pushWait
      (Tcp.reassemble t seg.psh (numberOf o (max a R)) mp
        ((min (a + msgdsize seg.mp) (R + t.rwnd.toNat) - max a R : Nat) : Int)).psh canput
      (Tcp.reassemble t seg.psh (numberOf o (max a R)) mp
        ((min (a + msgdsize seg.mp) (R + t.rwnd.toNat) - max a R : Nat) : Int)).mp
      (Tcp.reassemble t seg.psh (numberOf o (max a R)) mp
        ((min (a + msgdsize seg.mp) (R + t.rwnd.toNat) - max a R : Nat) : Int)).segLen
    refine ⟨?_, ?_, hbeyond, ?_⟩
    · rw [h4, h1, hlen]
      rw [h.rnxt, ← numberOf_add, show R + (R' - R) = R' by omega]
    · rw [h5]
      exact hsp'
    · rw [h6, h3, hmp]
      exact hdel

end Step

section Runs

structure Fresh (o : Seq) (t : Conn) : Prop where
  rnxt : t.rnxt = o
  reass : t.reass = []
  rcv : t.rcv = []
  upstream : t.upstream = []

/-- A connection after some events, with the positions of the stream that were inside the window when they arrived. -/
inductive Receives (S : Nat → Byte) (o : Seq) (pushWait : Nat) : Conn → Set Nat → Prop where
  | start {t : Conn} (h : Fresh o t) : Receives S o pushWait t ∅
  | segment {t : Conn} {A : Set Nat} (h : Receives S o pushWait t A) {a : Nat} {seg : Segment} (canput : Bool)
    (hc : Carries S o a seg) (hlive : Live t.delivered.length t.rwnd.toNat a (msgdsize seg.mp)) (hack : AckOk t seg) :
    Receives S o pushWait (tcpRputData t pushWait seg canput)
      (A ∪ { p | a ≤ p ∧ p < a + msgdsize seg.mp ∧ InWindow t o p })
  | window {t : Conn} {A : Set Nat} (h : Receives S o pushWait t A) (rwnd : BitVec 32) :
    Receives S o pushWait { t with rwnd := rwnd } A
  | sender {t : Conn} {A : Set Nat} (h : Receives S o pushWait t A) (suna snxt : Seq) :
    Receives S o pushWait { t with suna := suna, snxt := snxt } A
  | push {t : Conn} {A : Set Nat} (h : Receives S o pushWait t A) : Receives S o pushWait (Tcp.push t) A
  | accept {t : Conn} {A : Set Nat} (h : Receives S o pushWait t A) : Receives S o pushWait { t with listener := false } A

/-- The stream is delivered in order and once, the reassembly list holds what came early, and `rnxt` is the first position
that has not come. -/
theorem stream_delivered {pushWait : Nat} (h : Receives S o pushWait t A) :
    ∃ R l, Holds S o t R l ∧ (∀ p, p ∈ A ↔ p < R ∨ Covers l p) ∧ (∀ p, p < R → p ∈ A) ∧ R ∉ A := by
  have hmain : ∃ R l, Holds S o t R l ∧ ∀ p, p ∈ A ↔ p < R ∨ Covers l p := by
    induction h with
    | @start t h =>
      refine ⟨0, [], ⟨by rw [h.rnxt, numberOf_zero], ⟨h.reass, List.Pairwise.nil, by simp [Within]⟩, by simp, ?_⟩, by simp⟩
      rw [Conn.delivered, h.rcv, h.upstream]
      rfl
    | @segment t A h a seg canput hc hlive hack ih =>
      obtain ⟨R, l, hold, hA⟩ := ih
      have hlen : t.delivered.length = R := by
        rw [hold.delivered, length_slice, Nat.sub_zero]
      rw [hlen] at hlive
      obtain ⟨R', l', hold', -, hcov⟩ := hold.rput hc hlive hack pushWait canput
      refine ⟨R', l', hold', ?_⟩
      intro p
      rw [Set.mem_union, hA p, hcov p, Set.mem_ofPred_eq]
      refine or_congr Iff.rfl ⟨?_, ?_⟩
      · rintro ⟨h1, h2, h3⟩
        exact ⟨h1, h2, (inWindow_iff hold.rnxt hlive h1 h2).mp h3⟩
      · rintro ⟨h1, h2, h3⟩
        exact ⟨h1, h2, (inWindow_iff hold.rnxt hlive h1 h2).mpr h3⟩
    | window h rwnd ih =>
      obtain ⟨R, l, hold, hA⟩ := ih
      exact ⟨R, l, ⟨hold.rnxt, hold.reass, hold.beyond, hold.delivered⟩, hA⟩
    | sender h suna snxt ih =>
      obtain ⟨R, l, hold, hA⟩ := ih
      exact ⟨R, l, ⟨hold.rnxt, hold.reass, hold.beyond, hold.delivered⟩, hA⟩
    | @push t A h ih =>
      obtain ⟨R, l, hold, hA⟩ := ih
      refine ⟨R, l, ⟨hold.rnxt, hold.reass, hold.beyond, ?_⟩, hA⟩
      rw [← hold.delivered]
      simp [Conn.delivered, Tcp.push]
    | accept h ih =>
      obtain ⟨R, l, hold, hA⟩ := ih
      exact ⟨R, l, ⟨hold.rnxt, hold.reass, hold.beyond, hold.delivered⟩, hA⟩
  obtain ⟨R, l, hold, hA⟩ := hmain
  refine ⟨R, l, hold, hA, fun p hp => (hA p).mpr (.inl hp), ?_⟩
  intro hR
  rcases (hA R).mp hR with hlt | ⟨x, hx, hle, -⟩
  · exact absurd hlt (Nat.lt_irrefl R)
  · have := hold.beyond x hx
    omega

end Runs

section Concrete

/-- A connection with an empty receiver and nothing to be acknowledged. -/
def sampleConn : Conn := ⟨1, 100, [], [], 0, [], false, 5, 5⟩

def sampleStream (n : Nat) : Byte := BitVec.ofNat 8 (n + 10)

def earlySegment : Segment := ⟨3, some 5, false, [[12, 13]]⟩

def lateSegment : Segment := ⟨1, some 5, false, [[10], [11, 12]]⟩

def earlyConn : Conn := tcpRputData sampleConn 16384 earlySegment true

theorem stream_delivered_sample :
    (tcpRputData earlyConn 16384 lateSegment true).upstream = [10, 11, 12, 13] ∧
      ∃ R l, Holds sampleStream 1 (tcpRputData earlyConn 16384 lateSegment true) R l ∧ ∀ p, p < R → p ∈
        (∅ ∪ { p | 2 ≤ p ∧ p < 2 + 2 ∧ InWindow sampleConn 1 p } ∪ { p | 0 ≤ p ∧ p < 0 + 3 ∧ InWindow earlyConn 1 p } :
          Set Nat) := by
  have h0 : Receives sampleStream 1 16384 sampleConn ∅ := .start ⟨rfl, rfl, rfl, rfl⟩
  have hearly : Carries sampleStream 1 2 earlySegment := ⟨by decide, by decide⟩
  have hlate : Carries sampleStream 1 0 lateSegment := ⟨by decide, by decide⟩
  have h1 := h0.segment true hearly ⟨by decide, by decide, by decide, by decide⟩ ⟨5, rfl, by decide⟩
  have h2 := h1.segment true hlate ⟨by decide, by decide, by decide, by decide⟩ ⟨5, rfl, by decide⟩
  obtain ⟨R, l, hold, -, hall, -⟩ := stream_delivered h2
  exact ⟨by decide, R, l, hold, hall⟩

/-- The same bytes, with an acknowledgement of something that has not been sent. -/
def forgedSegment : Segment := ⟨1, some 6, false, [[10], [11, 12]]⟩

/-- The segment is dropped together with the list that it completed: bytes that came inside the window are gone. -/
theorem forged_ack_drops_list :
    earlyConn.reass = [⟨3, 5, [12, 13]⟩] ∧ InWindow sampleConn 1 2 ∧ InWindow earlyConn 1 0 ∧
      (tcpRputData earlyConn 16384 forgedSegment true).rnxt = 1 ∧
      (tcpRputData earlyConn 16384 forgedSegment true).reass = [] ∧
      (tcpRputData earlyConn 16384 forgedSegment true).delivered = [] := by
  refine ⟨by decide, ?_, ?_, by decide, by decide, by decide⟩
  · unfold InWindow
    decide
  · unfold InWindow
    decide

end Concrete

end Receiver

end Solaris.Tcp
