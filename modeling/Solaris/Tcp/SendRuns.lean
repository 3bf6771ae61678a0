import Solaris.Lib.Along
import Solaris.Tcp.Sending

/-!
# Runs of the sender

The transmit list has the bytes that have been written and not been acknowledged. The FIN is numbered when it is asked
for, behind the last byte, and goes out with that byte; a flush that takes unsent bytes off the list does not number it
again.
-/

namespace Solaris.Tcp

open List Nat BitVec Int Bool

open Lib (Along numberOf)

section Numbers

def finBit (b : Bool) : Seq := if b = true then 1 else 0

lemma numberOf_finBit (o : Seq) (x : Nat) (b : Bool) :
    numberOf o x + finBit b = numberOf o (x + if b = true then 1 else 0) := by
  cases b with
  | true => exact (Lib.numberOf_add o x 1).symm
  | false => exact add_zero _

lemma numberOf_small {o : Seq} {x k : Nat} (h : k < 2 ^ 32) : (numberOf o (x + k) - numberOf o x).toNat = k := by
  rw [Lib.numberOf_sub]
  have hdiff : ((x + k : Nat) : Int) - x = k := by omega
  rw [hdiff, ofInt_natCast, toNat_ofNat]
  exact mod_eq_of_lt h

end Numbers

section Invariant

variable {r : SendRun} {a : Nat} {e : Bool}

/-- What holds of a connection of which `a` bytes, and the FIN when `e`, have been acknowledged. -/
structure SendRun.Holds (r : SendRun) (a : Nat) (e : Bool) : Prop where
  acked : a ≤ r.data.length
  bytes : r.t.xmit.flatten = r.data.drop a
  listed : r.t.Listed
  small : r.t.xmit.flatten.length < 2 ^ 31
  snxt : r.t.snxt = numberOf r.start (r.data.length - r.t.unsent) + finBit r.finOut
  suna : r.t.suna = numberOf r.start a + finBit e
  finAcked : e = true → r.finOut = true ∧ r.t.xmit = []
  finSent : r.t.finSent = true → r.finOut = true
  finOut : r.finOut = true → r.t.fssValid = true ∧ r.t.unsent = 0
  pending : r.t.fssValid = true → r.finOut = false → 0 < r.t.unsent
  fss : r.t.fssValid = true → r.t.fss = numberOf r.start r.data.length
  flag : r.t.finAcked = true → r.t.finSent = true

lemma SendRun.Holds.length (h : r.Holds a e) : r.t.xmit.flatten.length = r.data.length - a := by
  rw [h.bytes, length_drop]

lemma SendRun.Holds.unsent_le (h : r.Holds a e) : r.t.unsent ≤ r.data.length - a := by
  rw [← h.length]
  exact h.listed.le_length

lemma SendRun.Holds.finOut_false (h : r.Holds a e) (hpos : 0 < r.t.unsent) : r.finOut = false := by
  rw [← not_eq_true]
  intro hout
  have hzero := (h.finOut hout).2
  omega

lemma SendRun.Holds.finBehind (h : r.Holds a e) (hpos : 0 < r.t.unsent) : r.t.FinBehind := by
  have hout := h.finOut_false hpos
  have hle := h.unsent_le
  constructor
  · intro hfss
    have hsum : r.data.length = r.data.length - r.t.unsent + r.t.unsent := by omega
    have hnum : numberOf r.start r.data.length =
        numberOf r.start (r.data.length - r.t.unsent) + BitVec.ofNat 32 r.t.unsent := by
      conv_lhs => rw [hsum]
      exact Lib.numberOf_add _ _ _
    rw [h.fss hfss, h.snxt, hout, hnum]
    change _ = _ + 0#32 + _
    rw [BitVec.add_zero]
  · rw [← not_eq_true]
    intro hsent
    rw [h.finSent hsent] at hout
    exact false_ne_true hout.symm
  · have hsmall := h.small
    rw [h.length] at hsmall
    omega

lemma SendRun.Holds.unsentBytes (h : r.Holds a e) : r.t.unsentBytes = r.data.drop (r.data.length - r.t.unsent) := by
  have hle := h.unsent_le
  have hacked := h.acked
  unfold Sender.unsentBytes
  rw [h.length, h.bytes, drop_drop]
  congr 1
  omega

/-- A segment with data has the bytes of its sequence number, the last ones of that number. -/
def SendRun.Carries (r : SendRun) (hdrLen : Nat) (seg : TxSegment) : Prop :=
  seg.data ≠ [] → ∃ x, r.data.length < x + 2 ^ 31 ∧ seg.seq = numberOf r.start x ∧
    seg.data = (r.data.drop x).take seg.data.length ∧ seg.ipLength = BitVec.ofNat 16 (seg.data.length + hdrLen)

def SendRun.FinLast (r : SendRun) (seg : TxSegment) : Prop :=
  seg.fin = true → seg.seq + BitVec.ofNat 32 seg.data.length = numberOf r.start r.data.length

lemma SendRun.Holds.seq (h : r.Holds a e) {x : Nat} (hpos : 0 < r.t.unsent) :
    r.t.snxt + BitVec.ofNat 32 x = numberOf r.start (r.data.length - r.t.unsent + x) := by
  rw [h.snxt, h.finOut_false hpos, Lib.numberOf_add]
  change _ + 0#32 + _ = _
  rw [BitVec.add_zero]

lemma NewSegment.carries {seg : TxSegment} {x : Nat} (hseg : NewSegment r.t seg x) (h : r.Holds a e) :
    r.Carries r.t.hdrLen seg := by
  intro _
  have hpos : 0 < r.t.unsent := by
    have hlt := hseg.lt
    omega
  refine ⟨r.data.length - r.t.unsent + x, ?_, ?_, ?_, hseg.ipLength⟩
  · have hsmall := h.small
    have hle := h.unsent_le
    rw [h.length] at hsmall
    omega
  · rw [hseg.seq, h.seq hpos]
  · rw [← drop_drop, ← h.unsentBytes]
    exact hseg.data

lemma NewSegment.finLast {seg : TxSegment} {x : Nat} (hseg : NewSegment r.t seg x) (h : r.Holds a e) :
    r.FinLast seg := by
  intro hfin
  have hpos : 0 < r.t.unsent := by
    have hlt := hseg.lt
    omega
  have hend := (hseg.fin.mp hfin).2.2
  have hle := h.unsent_le
  rw [hseg.seq, h.seq hpos, ← Lib.numberOf_add]
  congr 1
  omega

lemma Sender.Transmits.holds {t' : Sender} {segs : List TxSegment} {m : Nat} (ht : r.t.Transmits t' segs m)
    (h : r.Holds a e) : SendRun.Holds { r with t := t', finOut := r.finOut || t'.finSent } a e := by
  have hle := ht.le
  have hunsent := ht.unsent
  have hsnxt := ht.snxt
  have hfin := ht.fin
  have htail := ht.tail
  have hnonneg := ht.nonneg
  have hnone := ht.none
  obtain ⟨snxt, unsent, xmitTail, tailUnsent, lastSentLen, finSent, state, rfl⟩ := ht.same
  dsimp only at hunsent hsnxt hfin htail hnonneg hnone
  -- the FIN has been sent now when it has gone with the last byte
  have hnow : r.finOut = false → (finSent = true ↔ r.t.fssValid = true ∧ 0 < m ∧ m = r.t.unsent) := by
    intro hout
    have hno : ¬r.t.finSent = true := by
      intro hsent
      rw [h.finSent hsent] at hout
      exact false_ne_true hout.symm
    rw [hfin, or_iff_right hno]
  constructor
  · exact h.acked
  · exact h.bytes
  · constructor
    · intro hne
      rw [hunsent]
      exact htail hne
    · exact h.listed.last
    · exact hnonneg
    · intro hnil
      obtain ⟨h0, htail0⟩ := h.listed.none hnil
      rw [hnone hnil, htail0, hunsent, h0]
      exact ⟨Nat.zero_sub _, rfl⟩
  · exact h.small
  · change snxt = numberOf r.start (r.data.length - unsent) + finBit (r.finOut || finSent)
    rw [hsnxt, hunsent]
    have hdata := h.unsent_le
    cases hout : r.finOut with
    | true =>
      have h0 := (h.finOut hout).2
      have hm : m = 0 := by omega
      have hno : ¬(0 < m ∧ finSent = true) := fun hand => absurd hm hand.1.ne'
      rw [if_neg hno, hm, h.snxt, hout]
      change _ + _ + 0#32 + 0#32 = _
      rw [BitVec.add_zero, BitVec.add_zero]
      rfl
    | false =>
      have hsame : (if 0 < m ∧ finSent = true then (1 : Seq) else 0) = finBit finSent := by
        unfold finBit
        by_cases hsent : finSent = true
        · rw [if_pos hsent, if_pos ⟨((hnow hout).mp hsent).2.1, hsent⟩]
        · rw [if_neg hsent, if_neg fun hand => hsent hand.2]
      have hsum : r.data.length - (r.t.unsent - m) = r.data.length - r.t.unsent + m := by omega
      rw [hsame, Bool.false_or, hsum, Lib.numberOf_add, h.snxt, hout]
      change _ + 0#32 + _ + _ = _
      rw [BitVec.add_zero]
  · exact h.suna
  · intro he
    obtain ⟨hout, hnil⟩ := h.finAcked he
    exact ⟨by change (r.finOut || finSent) = true; rw [hout, Bool.true_or], hnil⟩
  · intro hsent
    have hsent' : finSent = true := hsent
    rw [hsent', Bool.or_true]
  · intro hor
    change r.t.fssValid = true ∧ unsent = 0
    cases hout : r.finOut with
    | true =>
      obtain ⟨hfss, h0⟩ := h.finOut hout
      exact ⟨hfss, by omega⟩
    | false =>
      rw [hout, Bool.false_or, hnow hout] at hor
      exact ⟨hor.1, by omega⟩
  · intro hfss hnor
    change 0 < unsent
    change (r.finOut || finSent) = false at hnor
    obtain ⟨hout, hsent⟩ := Bool.or_eq_false_iff.mp hnor
    have hpos := h.pending hfss hout
    by_contra hzero
    have hall := (hnow hout).mpr ⟨hfss, by omega, by omega⟩
    rw [hsent] at hall
    exact false_ne_true hall
  · exact h.fss
  · intro hflag
    exact hfin.mpr (.inl (h.flag hflag))

end Invariant

section Writes

variable {r : SendRun} {a : Nat} {e : Bool} {mp : List Bytes}

lemma SendRun.Holds.noFin (h : r.Holds a e) (hacc : r.t.fssValid = false) : r.finOut = false ∧ r.t.finSent = false := by
  have hout : r.finOut = false := by
    rw [← not_eq_true]
    intro hout
    rw [(h.finOut hout).1] at hacc
    exact false_ne_true hacc.symm
  refine ⟨hout, ?_⟩
  rw [← not_eq_true]
  intro hsent
  rw [h.finSent hsent] at hout
  exact false_ne_true hout.symm

lemma flatten_filter (mp : List Bytes) : (mp.filter fun b => b ≠ []).flatten = mp.flatten := by
  induction mp with
  | nil => rfl
  | cons b mp ih =>
    by_cases hb : b = []
    · rw [filter_cons_of_neg (by simpa using hb), ih, hb]
      rfl
    · rw [filter_cons_of_pos (by simpa using hb), flatten_cons, flatten_cons, ih]

lemma SendRun.Holds.append (h : r.Holds a e) (hacc : r.t.fssValid = false) (hsmall : (r.data.length - a) + mp.flatten.length < 2 ^ 31)
    {t' : Sender} (hsame : ∃ xmit xmitTail tailUnsent xmitLast unsent,
      t' = { r.t with xmit, xmitTail, tailUnsent, xmitLast, unsent })
    (hxmit : t'.xmit.flatten = r.t.xmit.flatten ++ mp.flatten) (hlisted : t'.Listed)
    (hunsent : t'.unsent = r.t.unsent + mp.flatten.length) :
    SendRun.Holds { r with t := t', data := r.data ++ mp.flatten } a e := by
  obtain ⟨hout, hsent⟩ := h.noFin hacc
  have hacked := h.acked
  have he : e = false := by
    rw [← not_eq_true]
    intro he
    rw [(h.finAcked he).1] at hout
    exact false_ne_true hout.symm
  obtain ⟨xmit, xmitTail, tailUnsent, xmitLast, unsent, rfl⟩ := hsame
  dsimp only at hxmit hunsent
  constructor
  · change a ≤ (r.data ++ mp.flatten).length
    rw [length_append]
    omega
  · change xmit.flatten = (r.data ++ mp.flatten).drop a
    rw [hxmit, h.bytes, drop_append_of_le_length hacked]
  · exact hlisted
  · change xmit.flatten.length < 2 ^ 31
    rw [hxmit, length_append, h.length]
    exact hsmall
  · change r.t.snxt = numberOf r.start ((r.data ++ mp.flatten).length - unsent) + finBit r.finOut
    have hsub : (r.data ++ mp.flatten).length - unsent = r.data.length - r.t.unsent := by
      rw [length_append, hunsent]
      omega
    rw [hsub]
    exact h.snxt
  · exact h.suna
  · intro htrue
    rw [he] at htrue
    exact absurd htrue false_ne_true
  · exact h.finSent
  · intro htrue
    rw [hout] at htrue
    exact absurd htrue false_ne_true
  · intro hfss
    rw [hacc] at hfss
    exact absurd hfss false_ne_true
  · intro hfss
    rw [hacc] at hfss
    exact absurd hfss false_ne_true
  · exact h.flag

lemma appendBlocks_listed {t : Sender} (h : t.Listed) (hne : mp ≠ []) : (appendBlocks t mp).Listed := by
  have hpos : 0 < mp.length := length_pos_iff.mpr hne
  unfold appendBlocks
  split_ifs with hnil
  · constructor
    · intro _
      constructor
      · exact hpos
      · cases mp with
        | nil => exact absurd rfl hne
        | cons b mp => exact le_rfl
      · cases mp with
        | nil => exact absurd rfl hne
        | cons b mp =>
          rw [msgdsize_eq, flatten_cons, length_append]
          rfl
    · intro _
      change mp.length - 1 + 1 = mp.length
      omega
    · exact natCast_nonneg _
    · exact fun hmp => absurd hmp hne
  · have hall : t.xmit.take (t.xmitLast + 1) = t.xmit := by rw [h.last hnil, take_length]
    have hat := h.tail hnil
    have hlt := hat.lt
    rw [hall]
    constructor
    · intro _
      constructor
      · change t.xmitTail < (t.xmit ++ mp).length
        rw [length_append]
        omega
      · change t.tailUnsent ≤ ((t.xmit ++ mp).getD t.xmitTail []).length
        rw [getD_append _ _ _ _ hlt]
        exact hat.le
      · have hrest := hat.rest
        have hle : t.xmitTail + 1 ≤ t.xmit.length := hlt
        change t.tailUnsent + (((t.xmit ++ mp).drop (t.xmitTail + 1)).flatten.length : Int) =
          (msgdsize mp + t.unsent : Nat)
        rw [drop_append_of_le_length hle, flatten_append, length_append, msgdsize_eq]
        omega
    · intro _
      change t.xmitLast + mp.length + 1 = (t.xmit ++ mp).length
      have hlast := h.last hnil
      rw [length_append]
      omega
    · exact h.nonneg
    · intro happ
      exact absurd (append_eq_nil_iff.mp happ).1 hnil

lemma appendBlocks_flatten {t : Sender} (h : t.Listed) : (appendBlocks t mp).xmit.flatten = t.xmit.flatten ++ mp.flatten ∧
    (appendBlocks t mp).unsent = t.unsent + mp.flatten.length := by
  unfold appendBlocks
  split_ifs with hnil
  · constructor
    · change mp.flatten = _
      rw [hnil]
      rfl
    · change msgdsize mp = _
      rw [(h.none hnil).1, zero_add, msgdsize_eq]
  · constructor
    · change (t.xmit.take (t.xmitLast + 1) ++ mp).flatten = _
      rw [h.last hnil, take_length, flatten_append]
    · change msgdsize mp + t.unsent = _
      rw [msgdsize_eq, add_comm]

/-- What an event leaves: the invariant, and segments as they are asked for. -/
structure SendRun.Kept (r : SendRun) (hdrLen : Nat) (segs : List TxSegment) : Prop where
  holds : ∃ a e, r.Holds a e
  carries : ∀ seg ∈ segs, r.Carries hdrLen seg
  finLast : ∀ seg ∈ segs, r.FinLast seg

lemma SendRun.Holds.kept (h : r.Holds a e) (hdrLen : Nat) : r.Kept hdrLen [] :=
  ⟨⟨a, e, h⟩, fun _ hseg => absurd hseg not_mem_nil, fun _ hseg => absurd hseg not_mem_nil⟩

lemma Sender.Transmits.kept {t' : Sender} {segs : List TxSegment} {m : Nat} (ht : r.t.Transmits t' segs m)
    (h : r.Holds a e) : SendRun.Kept { r with t := t', finOut := r.finOut || t'.finSent } r.t.hdrLen segs := by
  constructor
  · exact ⟨a, e, ht.holds h⟩
  · intro seg hseg
    obtain ⟨x, hx⟩ := ht.out seg hseg
    have hcarries : r.Carries r.t.hdrLen seg := hx.carries h
    exact hcarries
  · intro seg hseg
    obtain ⟨x, hx⟩ := ht.out seg hseg
    have hlast : r.FinLast seg := hx.finLast h
    exact hlast

lemma SendRun.Holds.slow {turns : Nat → Turn} {synRcvd : Bool} {urgent : Int} (h : r.Holds a e)
    (hurgent : urgent ≤ r.t.unsent) :
    SendRun.Kept { r with
      t := (tcpWputSlow turns r.t synRcvd urgent).1
      finOut := r.finOut || (tcpWputSlow turns r.t synRcvd urgent).1.finSent } r.t.hdrLen
      (tcpWputSlow turns r.t synRcvd urgent).2 := by
  obtain ⟨m, ht⟩ := @tcpWputSlow_transmits r.t turns synRcvd urgent h.listed h.finBehind hurgent
  exact ht.kept h

lemma SendRun.Holds.urgent (h : r.Holds a e) (urg : Seq) (urgValid : Bool) :
    SendRun.Holds { r with t := { r.t with urg, urgValid } } a e :=
  ⟨h.acked, h.bytes, ⟨h.listed.tail, h.listed.last, h.listed.nonneg, h.listed.none⟩, h.small, h.snxt, h.suna, h.finAcked,
    h.finSent, h.finOut, h.pending, h.fss, h.flag⟩

lemma SendRun.Holds.finOut_or (h : r.Holds a e) : (r.finOut || r.t.finSent) = r.finOut := by
  cases hsent : r.t.finSent with
  | true => rw [h.finSent hsent, Bool.true_or]
  | false => exact or_false _

lemma flatten_nil_of_msgdsize (h : msgdsize mp = 0) : mp.flatten = [] := by
  rw [msgdsize_eq] at h
  exact length_eq_zero_iff.mp h

lemma SendRun.Holds.dropped (h : r.Holds a e) {t' : Sender} {urg : Seq} {urgValid : Bool}
    (ht : t' = { r.t with urg, urgValid }) {data : Bytes} (hdata : data = r.data) (hdrLen : Nat) :
    SendRun.Kept { r with t := t', data, finOut := r.finOut || t'.finSent } hdrLen [] := by
  have hfin : t'.finSent = r.t.finSent := by rw [ht]
  rw [hfin, h.finOut_or, hdata, ht]
  exact (h.urgent urg urgValid).kept hdrLen

lemma putMessage_kept {turns : Nat → Turn} {kind : MsgKind} (h : r.Holds a e)
    (hsmall : (r.data.length - a) + mp.flatten.length < 2 ^ 31) :
    SendRun.Kept { r with
      t := (putMessage turns r.t kind mp).1
      data := if r.t.Accepts then r.data ++ mp.flatten else r.data
      finOut := r.finOut || (putMessage turns r.t kind mp).1.finSent } r.t.hdrLen (putMessage turns r.t kind mp).2 := by
  unfold putMessage
  by_cases hempty : kind = .exdataReq ∧ msgdsize mp = 0
  · rw [if_pos hempty, flatten_nil_of_msgdsize hempty.2, append_nil, ite_self]
    exact h.dropped rfl rfl _
  rw [if_neg hempty]
  obtain ⟨urg, urgValid, ht⟩ : ∃ urg urgValid, (if kind = .exdataReq then
      { r.t with urg := r.t.snxt + BitVec.ofNat 32 (msgdsize mp - 1 + r.t.unsent), urgValid := true } else r.t) =
      ({ r.t with urg, urgValid } : Sender) := by
    split_ifs
    · exact ⟨_, _, rfl⟩
    · exact ⟨_, _, rfl⟩
  rw [ht]
  have hacc : ({ r.t with urg, urgValid } : Sender).Accepts ↔ r.t.Accepts := Iff.rfl
  by_cases hno : r.t.Accepts
  · rw [if_neg (not_not.mpr (hacc.mpr hno)), if_pos hno]
    by_cases hnone : (mp.filter fun b => b ≠ []) = []
    · have hnil : mp.flatten = [] := by
        rw [← flatten_filter, hnone]
        rfl
      rw [if_pos hnone, hnil, append_nil]
      exact h.dropped rfl rfl _
    rw [if_neg hnone, ← flatten_filter mp]
    rw [← flatten_filter mp] at hsmall
    have hu := h.urgent urg urgValid
    obtain ⟨hflat, hunsent⟩ := @appendBlocks_flatten (mp.filter fun b => b ≠ []) _ hu.listed
    have hsame : ∃ xmit xmitTail tailUnsent xmitLast unsent,
        appendBlocks { r.t with urg, urgValid } (mp.filter fun b => b ≠ []) =
          { r.t with urg, urgValid, xmit, xmitTail, tailUnsent, xmitLast, unsent } := by
      unfold appendBlocks
      split_ifs
      · exact ⟨_, _, _, _, _, rfl⟩
      · exact ⟨_, _, _, _, _, rfl⟩
    have hhdr : (appendBlocks { r.t with urg, urgValid } (mp.filter fun b => b ≠ [])).hdrLen = r.t.hdrLen := by
      obtain ⟨_, _, _, _, _, heq⟩ := hsame
      rw [heq]
    have hurgent : (if kind = .exdataReq then (1 : Int) else 0) ≤
        (appendBlocks { r.t with urg, urgValid } (mp.filter fun b => b ≠ [])).unsent := by
      rw [hunsent, flatten_filter, ← msgdsize_eq]
      split_ifs with hex
      · have hpos : msgdsize mp ≠ 0 := fun hzero => hempty ⟨hex, hzero⟩
        omega
      · exact natCast_nonneg _
    have happ := hu.append hno.2 hsmall hsame hflat (appendBlocks_listed hu.listed hnone) hunsent
    have hslow := @SendRun.Holds.slow _ _ _ turns false _ happ hurgent
    rw [hhdr] at hslow
    exact hslow
  · rw [if_pos (fun hyes => hno (hacc.mp hyes)), if_neg hno]
    exact h.dropped rfl rfl _

lemma SendRun.Holds.appendFast (h : r.Holds a e) (hacc : r.t.fssValid = false) (h0 : r.t.unsent = 0) {b : Bytes}
    (hsmall : (r.data.length - a) + b.length < 2 ^ 31) :
    SendRun.Holds { r with
      t := { r.t with
        xmit := r.t.xmit ++ [b]
        xmitLast := r.t.xmit.length
        xmitTail := r.t.xmit.length
        unsent := b.length
        tailUnsent := b.length }
      data := r.data ++ b } a e := by
  have hone : [b].flatten = b := by rw [flatten_cons, flatten_nil, append_nil]
  have hgetD : (r.t.xmit ++ [b]).getD r.t.xmit.length [] = b := by
    rw [getD_append_right _ _ _ _ le_rfl, Nat.sub_self]
    rfl
  have hdrop : (r.t.xmit ++ [b]).drop (r.t.xmit.length + 1) = [] := by
    apply drop_eq_nil_of_le
    rw [length_append]
    exact le_rfl
  have happ := @SendRun.Holds.append r a e [b] h hacc
  rw [hone] at happ
  apply happ hsmall ⟨_, _, _, _, _, rfl⟩
  · change (r.t.xmit ++ [b]).flatten = _
    rw [flatten_append, hone]
  · constructor
    · intro _
      constructor
      · change r.t.xmit.length < (r.t.xmit ++ [b]).length
        rw [length_append]
        exact Nat.lt_succ_self _
      · change (b.length : Int) ≤ ((r.t.xmit ++ [b]).getD r.t.xmit.length []).length
        rw [hgetD]
      · change (b.length : Int) + (((r.t.xmit ++ [b]).drop (r.t.xmit.length + 1)).flatten.length : Int) = b.length
        rw [hdrop]
        exact add_zero _
    · intro _
      rw [length_append]
      rfl
    · exact natCast_nonneg _
    · exact fun happ => absurd happ (append_ne_nil_of_right_ne_nil _ (cons_ne_nil b []))
  · change b.length = r.t.unsent + b.length
    rw [h0, Nat.zero_add]

lemma tcpWputFast_kept {turns : Nat → Turn} {turn : Turn} {synRcvd : Bool} {b : Bytes} (h : r.Holds a e)
    (hacc : r.t.fssValid = false) (h0 : r.t.unsent = 0) (hne : b ≠ [])
    (hsmall : (r.data.length - a) + b.length < 2 ^ 31) :
    SendRun.Kept { r with
      t := (tcpWputFast turns r.t turn synRcvd b).1
      data := r.data ++ b
      finOut := r.finOut || (tcpWputFast turns r.t turn synRcvd b).1.finSent } r.t.hdrLen
      (tcpWputFast turns r.t turn synRcvd b).2 := by
  have hlen : 0 < b.length := length_pos_iff.mpr hne
  have hlist : (if r.t.xmit = [] then [b] else r.t.xmit.take (r.t.xmitLast + 1) ++ [b]) = r.t.xmit ++ [b] := by
    split_ifs with hnil
    · rw [hnil]
      rfl
    · rw [h.listed.last hnil, take_length]
  have hlast : (r.t.xmit ++ [b]).length - 1 = r.t.xmit.length := by
    rw [length_append]
    exact Nat.add_sub_cancel _ 1
  have htail0 : r.t.tailUnsent = 0 := by
    by_cases hnil : r.t.xmit = []
    · exact (h.listed.none hnil).2
    · have hrest := (h.listed.tail hnil).rest
      have hnonneg := h.listed.nonneg
      omega
  set t1 : Sender := { r.t with
    xmit := r.t.xmit ++ [b]
    xmitLast := r.t.xmit.length
    xmitTail := r.t.xmit.length } with ht1
  set t2 : Sender := { t1 with unsent := b.length, tailUnsent := b.length } with ht2
  have happ : SendRun.Holds { r with t := t2, data := r.data ++ b } a e := h.appendFast hacc h0 hsmall
  -- the block is sent, or taken to be
  have hsent (last : BitVec 16) (segs : List TxSegment)
      (hsegs : ∀ seg ∈ segs, seg = ⟨r.t.snxt, b, BitVec.ofNat 16 (b.length + r.t.hdrLen), true, false, none⟩) :
      t2.Transmits { t1 with snxt := r.t.snxt + BitVec.ofNat 32 b.length, lastSentLen := last } segs b.length := by
    constructor
    · exact ⟨_, _, _, _, _, _, _, rfl⟩
    · exact le_rfl
    · change r.t.unsent = b.length - b.length
      rw [h0, Nat.sub_self]
    · have hno : ¬(0 < b.length ∧ r.t.finSent = true) := by
        rw [(h.noFin hacc).2]
        exact fun hand => false_ne_true hand.2
      rw [if_neg hno]
      exact (BitVec.add_zero _).symm
    · intro htne
      have hat := (happ.listed.tail htne).sub le_rfl
      rw [htail0]
      exact (sub_self (b.length : Int)) ▸ hat
    · change 0 ≤ r.t.tailUnsent
      rw [htail0]
    · exact fun hnil => absurd hnil (append_ne_nil_of_right_ne_nil _ (cons_ne_nil b []))
    · have hno : ¬(r.t.fssValid = true ∧ 0 < b.length ∧ b.length = b.length) := by
        rw [hacc]
        exact fun hand => false_ne_true hand.1
      exact (or_iff_left hno).symm
    · intro seg hseg
      rw [hsegs seg hseg]
      refine ⟨0, hlen, (BitVec.add_zero _).symm, (Nat.zero_add _).le, ?_, rfl, ?_⟩
      · have hbytes := happ.unsentBytes
        have hdrop : (r.data ++ b).length - b.length = r.data.length := by
          rw [length_append, Nat.add_sub_cancel]
        rw [hdrop, drop_left] at hbytes
        rw [hbytes, drop_zero, take_length]
      · change false = true ↔ r.t.fssValid = true ∧ _
        rw [hacc]
        exact iff_of_false false_ne_true fun hand => false_ne_true hand.1
    · intro hfss
      rw [hacc] at hfss
      exact absurd hfss false_ne_true
  unfold tcpWputFast
  dsimp only
  rw [hlist, hlast]
  generalize ((if r.t.swnd.toNat > r.t.cwnd.toNat then r.t.cwnd else r.t.swnd) - r.t.snxt + r.t.suna).toInt = window
  split_ifs with hslow hnagle hdup hhdr
  · exact happ.slow (natCast_nonneg _)
  · have hor := happ.finOut_or
    have hk := happ.kept r.t.hdrLen
    rw [← hor] at hk
    exact hk
  · exact (hsent _ [] fun seg hseg => absurd hseg not_mem_nil).kept happ
  · exact (hsent _ [] fun seg hseg => absurd hseg not_mem_nil).kept happ
  · exact (hsent _ [_] fun seg hseg => mem_singleton.mp hseg).kept happ

theorem tcpWput_kept {turns : Nat → Turn} {turn : Turn} {synRcvd : Bool} {kind : MsgKind} (h : r.Holds a e)
    (hsmall : (r.data.length - a) + mp.flatten.length < 2 ^ 31) :
    SendRun.Kept { r with
      t := (tcpWput turns r.t turn synRcvd kind mp).1
      data := if r.t.Accepts then r.data ++ mp.flatten else r.data
      finOut := r.finOut || (tcpWput turns r.t turn synRcvd kind mp).1.finSent } r.t.hdrLen
      (tcpWput turns r.t turn synRcvd kind mp).2 := by
  unfold tcpWput
  split
  · next b =>
    by_cases hfast : r.t.state = .established ∧ r.t.unsent = 0 ∧ b ≠ [] ∧ b.length ≤ r.t.mss ∧ r.t.urgValid = false ∧
        r.t.fssValid = false
    · rw [if_pos hfast]
      obtain ⟨hstate, h0, hne, -, -, hfss⟩ := hfast
      have hacc : r.t.Accepts := ⟨.inl hstate, hfss⟩
      have hone : [b].flatten = b := by rw [flatten_cons, flatten_nil, append_nil]
      rw [hone] at hsmall ⊢
      rw [if_pos hacc]
      exact tcpWputFast_kept h hfss h0 hne hsmall
    · rw [if_neg hfast]
      exact putMessage_kept h hsmall
  · exact putMessage_kept h hsmall

end Writes

end Solaris.Tcp
