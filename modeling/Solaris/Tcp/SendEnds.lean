import Solaris.Tcp.SentBytes

/-!
# The end of a sender's data

The FIN gets its number when the connection is released, and keeps it. A flush that takes off bytes that the FIN is
behind leaves it where it is, and it never goes out.
-/

namespace Solaris.Tcp

open List Int

open Lib (Along numberOf)

section Release

variable {r : SendRun} {a : Nat} {e : Bool}

lemma SendRun.Holds.ended (h : r.Holds a e) (hfss : r.t.fssValid = false) (h0 : r.t.unsent = 0) (finSent : Bool)
    (state : TcpState) :
    SendRun.Holds { r with
      t := { r.t with
        fss := numberOf r.start r.data.length
        fssValid := true
        snxt := numberOf r.start r.data.length + 1
        finSent
        state }
      finOut := true } a e := by
  obtain ⟨hout, hsent⟩ := h.noFin hfss
  have he : e = false := by
    rw [← Bool.not_eq_true]
    intro he
    rw [(h.finAcked he).1] at hout
    exact Bool.false_ne_true hout.symm
  constructor
  · exact h.acked
  · exact h.bytes
  · exact ⟨h.listed.tail, h.listed.last, h.listed.nonneg, h.listed.none⟩
  · exact h.small
  · change numberOf r.start r.data.length + 1 = numberOf r.start (r.data.length - r.t.unsent) + 1
    rw [h0, Nat.sub_zero]
  · exact h.suna
  · intro htrue
    rw [he] at htrue
    exact absurd htrue Bool.false_ne_true
  · exact fun _ => rfl
  · exact fun _ => ⟨rfl, h0⟩
  · exact fun _ hno => absurd hno.symm Bool.false_ne_true
  · exact fun _ => rfl
  · intro hflag
    have hold := h.flag hflag
    rw [hsent] at hold
    exact absurd hold Bool.false_ne_true

lemma SendRun.Holds.numbered (h : r.Holds a e) (hpos : 0 < r.t.unsent) :
    SendRun.Holds { r with t := { r.t with fss := numberOf r.start r.data.length, fssValid := true } } a e := by
  have hout := h.finOut_false hpos
  refine ⟨h.acked, h.bytes, ⟨h.listed.tail, h.listed.last, h.listed.nonneg, h.listed.none⟩, h.small, h.snxt, h.suna,
    h.finAcked, h.finSent, ?_, fun _ _ => hpos, fun _ => rfl, h.flag⟩
  intro htrue
  rw [hout] at htrue
  exact absurd htrue Bool.false_ne_true

lemma SendRun.Holds.fssNumber (h : r.Holds a e) (hout : r.finOut = false) :
    r.t.snxt + BitVec.ofNat 32 r.t.unsent = numberOf r.start r.data.length := by
  have hle := h.unsent_le
  have hsum : r.data.length - r.t.unsent + r.t.unsent = r.data.length := by omega
  rw [h.snxt, hout]
  change _ + 0#32 + _ = _
  rw [BitVec.add_zero, ← Lib.numberOf_add, hsum]

lemma tcpXmitEnd_kept (h : r.Holds a e) (hfss : r.t.fssValid = false) (turn : Turn) :
    SendRun.Kept { r with
      t := (tcpXmitEnd r.t turn).2.1
      finOut := r.finOut || (tcpXmitEnd r.t turn).2.1.finSent || decide (r.t.state.Open ∧ r.t.unsent = 0) } r.t.hdrLen
      (tcpXmitEnd r.t turn).2.2 := by
  obtain ⟨hout, hsent⟩ := h.noFin hfss
  unfold tcpXmitEnd
  by_cases hopen : r.t.state.Open
  swap
  · have hno : ¬(r.t.state.Open ∧ r.t.unsent = 0) := fun hand => hopen hand.1
    rw [if_pos hopen, decide_eq_false hno, Bool.or_false]
    rw [h.finOut_or]
    exact h.kept r.t.hdrLen
  rw [if_neg (not_not.mpr hopen), h.fssNumber hout]
  by_cases h0 : r.t.unsent = 0
  swap
  · have hno : ¬(r.t.state.Open ∧ r.t.unsent = 0) := fun hand => h0 hand.2
    rw [if_neg h0, decide_eq_false hno, Bool.or_false]
    rw [h.finOut_or]
    exact (h.numbered (Nat.pos_of_ne_zero h0)).kept r.t.hdrLen
  rw [if_pos h0, decide_eq_true ⟨hopen, h0⟩, Bool.or_true]
  split
  · next seg t' hmp =>
    obtain ⟨m, hx⟩ := tcpXmitMp_spec hmp
    have hm : m = 0 := Nat.le_zero.mp hx.le
    have hlen := hx.length
    rw [hm] at hlen
    have hconn := hx.conn
    rw [hm, if_pos ⟨⟨rfl, BitVec.add_zero _⟩, hsent⟩] at hconn
    constructor
    · rw [hconn]
      exact ⟨a, e, h.ended hfss h0 _ _⟩
    · intro seg' hseg'
      rw [mem_singleton.mp hseg']
      exact fun hne => absurd (length_eq_zero_iff.mp hlen) hne
    · intro seg' hseg'
      rw [mem_singleton.mp hseg']
      intro _
      rw [hlen, hx.seq]
      exact BitVec.add_zero _
  · exact (h.ended hfss h0 r.t.finSent r.t.state).kept r.t.hdrLen

end Release

section Flush

variable {r : SendRun} {a : Nat} {e : Bool} {t : Sender}

/-- The list when the blocks behind `k` of them, and some bytes of the last one, have been cut off. -/
structure Flushed (t t' : Sender) : Prop where
  same : ∃ xmit xmitTail xmitLast, t' = { t with xmit, xmitTail, xmitLast, tailUnsent := 0, unsent := 0 }
  bytes : t'.xmit.flatten = t.xmit.flatten.take (t.xmit.flatten.length - t.unsent)
  listed : t'.Listed

lemma set_eq_take_append {l : List Bytes} {k : Nat} (b : Bytes) (hk : k < l.length) :
    l.set k b = (l.take k ++ [b]) ++ l.drop (k + 1) := by
  rw [set_eq_take_append_cons_drop, if_pos hk, append_assoc]
  rfl

lemma take_set_succ {l : List Bytes} {k : Nat} (b : Bytes) (hk : k < l.length) :
    (l.set k b).take (k + 1) = l.take k ++ [b] := by
  have hlen : (l.take k ++ [b]).length = k + 1 := by
    rw [length_append, length_take, min_eq_left hk.le]
    rfl
  rw [set_eq_take_append b hk, ← hlen, take_left]

lemma tcpWputFlush_flushed (h : t.Listed) (hne : t.xmit ≠ []) (hurg : t.urgValid = false) : Flushed t (tcpWputFlush t) := by
  have hat := h.tail hne
  have hlt := hat.lt
  have hlast := h.last hne
  have hnonneg := h.nonneg
  have hle := hat.le
  have hrest := hat.rest
  have hsplit := flatten_split hlt
  have hlength := congrArg List.length hsplit
  rw [length_append, length_append] at hlength
  set tail := t.xmit.getD t.xmitTail [] with htail
  set kept := tail.take (tail.length - t.tailUnsent.toNat) with hkept
  have hcount : t.xmit.flatten.length - t.unsent =
      (t.xmit.take t.xmitTail).flatten.length + (tail.length - t.tailUnsent.toNat) := by
    omega
  have hbytes : (t.xmit.take t.xmitTail ++ [kept]).flatten = t.xmit.flatten.take (t.xmit.flatten.length - t.unsent) := by
    rw [hcount, flatten_append, flatten_cons, flatten_nil, append_nil, hsplit,
      take_length_add_append, take_append_of_le_length (Nat.sub_le _ _)]
  unfold tcpWputFlush
  rw [if_pos ⟨hne, hurg⟩]
  dsimp only
  rw [← htail, ← hkept, length_set]
  have htake : (t.xmit.take t.xmitTail).length = t.xmitTail := by
    rw [length_take, min_eq_left hlt.le]
  have hdropNil (l : List Bytes) (k : Nat) (hk : l.length ≤ k) : ((l.drop k).flatten.length : Int) = 0 := by
    rw [drop_eq_nil_of_le hk]
    rfl
  by_cases hkeptNil : kept = []
  · -- the block has no bytes left, and goes with those behind it
    have hno : ¬kept ≠ [] := not_not.mpr hkeptNil
    have hcut : (t.xmit.set t.xmitTail kept).take t.xmitTail = t.xmit.take t.xmitTail := take_set_of_le le_rfl
    rw [if_neg hno, if_pos hlt, hcut]
    rw [hkeptNil, flatten_append, flatten_cons, flatten_nil, append_nil, append_nil] at hbytes
    by_cases h0 : t.xmitTail = 0
    · rw [if_neg (not_not.mpr h0)]
      refine ⟨⟨_, _, _, rfl⟩, hbytes, ?_⟩
      have hnil : t.xmit.take t.xmitTail = [] := by
        rw [h0]
        rfl
      exact ⟨fun hsome => absurd hnil hsome, fun hsome => absurd hnil hsome, le_rfl, fun _ => ⟨rfl, rfl⟩⟩
    rw [if_pos h0]
    refine ⟨⟨_, _, _, rfl⟩, hbytes, ?_⟩
    have hat' : At (t.xmit.take t.xmitTail) (t.xmitTail - 1) 0 0 := by
      constructor
      · rw [htake]
        omega
      · exact natCast_nonneg _
      · rw [hdropNil _ _ (by omega)]
        rfl
    refine ⟨fun _ => hat', ?_, le_rfl, fun _ => ⟨rfl, rfl⟩⟩
    intro _
    change t.xmitTail - 1 + 1 = (t.xmit.take t.xmitTail).length
    omega
  · rw [if_pos hkeptNil, take_set_succ kept hlt, Nat.add_sub_cancel]
    have hlen : (t.xmit.take t.xmitTail ++ [kept]).length = t.xmitTail + 1 := by
      rw [length_append, htake]
      rfl
    have hat' : At (t.xmit.take t.xmitTail ++ [kept]) t.xmitTail 0 0 := by
      constructor
      · omega
      · exact natCast_nonneg _
      · rw [hdropNil _ _ (by omega)]
        rfl
    by_cases hcut : t.xmitTail + 1 < t.xmit.length
    · rw [if_pos hcut, if_pos (Nat.succ_ne_zero _)]
      exact ⟨⟨_, _, _, rfl⟩, hbytes, ⟨fun _ => hat', fun _ => hlen.symm, le_rfl, fun _ => ⟨rfl, rfl⟩⟩⟩
    have hend : t.xmitTail = t.xmitLast := by omega
    have hset : t.xmit.set t.xmitTail kept = t.xmit.take t.xmitTail ++ [kept] := by
      rw [set_eq_take_append kept hlt, drop_eq_nil_of_le (by omega), append_nil]
    rw [if_neg hcut, hset]
    refine ⟨⟨_, _, _, rfl⟩, hbytes, ⟨fun _ => hat', ?_, le_rfl, fun _ => ⟨rfl, rfl⟩⟩⟩
    intro _
    change t.xmitLast + 1 = (t.xmit.take t.xmitTail ++ [kept]).length
    omega

lemma tcpWputFlush_holds (h : r.Holds a e)
    (hkeeps : ¬(r.t.fssValid = true ∧ r.t.urgValid = false ∧ r.t.unsent ≠ 0)) :
    SendRun.Holds { r with
      t := tcpWputFlush r.t
      data := if r.t.urgValid = true then r.data else r.data.take (r.data.length - r.t.unsent)
      finOut := r.finOut || (tcpWputFlush r.t).finSent } a e := by
  by_cases hurg : r.t.urgValid = true
  · have hsame : tcpWputFlush r.t = r.t := if_neg fun hand => Bool.false_ne_true (hand.2.symm.trans hurg)
    rw [hsame, if_pos hurg, h.finOut_or]
    exact h
  rw [if_neg hurg]
  by_cases hnil : r.t.xmit = []
  · have hsame : tcpWputFlush r.t = r.t := if_neg fun hand => hand.1 hnil
    rw [hsame, (h.listed.none hnil).1, Nat.sub_zero, take_length, h.finOut_or]
    exact h
  obtain ⟨⟨xmit, xmitTail, xmitLast, hsame⟩, hbytes, hlisted⟩ :=
    tcpWputFlush_flushed h.listed hnil (Bool.eq_false_of_not_eq_true hurg)
  rw [hsame] at hbytes hlisted ⊢
  rw [h.finOut_or]
  have hacked := h.acked
  have hle := h.unsent_le
  have hlength := h.length
  have htake : (r.data.take (r.data.length - r.t.unsent)).length = r.data.length - r.t.unsent :=
    length_take_of_le (Nat.sub_le _ _)
  have hzero : r.t.fssValid = true → r.t.unsent = 0 := by
    intro hfss
    by_contra hne
    exact hkeeps ⟨hfss, Bool.eq_false_of_not_eq_true hurg, hne⟩
  constructor
  · change a ≤ (r.data.take (r.data.length - r.t.unsent)).length
    omega
  · change xmit.flatten = (r.data.take (r.data.length - r.t.unsent)).drop a
    have hsum : r.data.length - r.t.unsent - a = r.data.length - a - r.t.unsent := by omega
    rw [hbytes, hlength, h.bytes, drop_take, hsum]
  · exact hlisted
  · change xmit.flatten.length < 2 ^ 31
    have hsmall := h.small
    rw [hbytes, length_take]
    omega
  · change r.t.snxt = numberOf r.start ((r.data.take (r.data.length - r.t.unsent)).length - 0) + finBit r.finOut
    rw [htake, Nat.sub_zero]
    exact h.snxt
  · exact h.suna
  · exact fun he => absurd (h.finAcked he).2 hnil
  · exact h.finSent
  · exact fun hout => ⟨(h.finOut hout).1, rfl⟩
  · intro hfss hout
    have hpos := h.pending hfss hout
    rw [hzero hfss] at hpos
    exact hpos
  · intro hfss
    rw [htake, hzero hfss, Nat.sub_zero]
    exact h.fss hfss
  · exact h.flag

lemma tcpWputFlush_behind (h : r.Holds a e) (hfss : r.t.fssValid = true) (hurg : r.t.urgValid = false)
    (hne : r.t.unsent ≠ 0) : (tcpWputFlush r.t).fssValid = true ∧ (tcpWputFlush r.t).finSent = false ∧
      (tcpWputFlush r.t).fss ≠ (tcpWputFlush r.t).snxt + BitVec.ofNat 32 (tcpWputFlush r.t).unsent := by
  have hnil : r.t.xmit ≠ [] := fun hnil => hne (h.listed.none hnil).1
  obtain ⟨⟨xmit, xmitTail, xmitLast, hsame⟩, -, -⟩ := tcpWputFlush_flushed h.listed hnil hurg
  have hbehind := h.finBehind (Nat.pos_of_ne_zero hne)
  rw [hsame]
  refine ⟨hfss, hbehind.notSent, ?_⟩
  intro heq
  have hzero := (hbehind.at_fin hfss (Nat.zero_le _)).mp heq.symm
  exact hne hzero.symm

end Flush

section Events

variable {r : SendRun} {ev : SendEvent} {a : Nat} {e : Bool}

/-- What can happen: the bytes are in memory, and there is one `T_ORDREL_REQ`. -/
def SendRun.Possible (r : SendRun) : SendEvent → Prop
  | .write _ _ _ _ mp => r.t.xmit.flatten.length + msgdsize mp < 2 ^ 31
  | .ordrel _ => r.t.fssValid = false
  | _ => True

/-- `M_FLUSH` does not come while the FIN is behind unsent bytes that it takes off. -/
def SendRun.NotFlushed (r : SendRun) : SendEvent → Prop
  | .flush => ¬(r.t.fssValid = true ∧ r.t.urgValid = false ∧ r.t.unsent ≠ 0)
  | _ => True

lemma SendRun.exec_eq (hends : r.t.endsNow ev = false) :
    r.exec ev = { r with
      t := (r.t.event ev).1
      data := r.dataAfter ev
      finOut := r.finOut || (r.t.event ev).1.finSent } := by
  unfold SendRun.exec
  rw [hends, Bool.or_false]

lemma SendRun.Holds.windows (h : r.Holds a e) (state : TcpState) (swnd cwnd maxSwnd : BitVec 32)
    (mss : { n : Nat // 0 < n }) (naglim hdrLen : Nat) :
    SendRun.Holds { r with
      t := { r.t with state, swnd, cwnd, maxSwnd, mss, naglim, hdrLen }, finOut := r.finOut || r.t.finSent } a e := by
  rw [h.finOut_or]
  exact ⟨h.acked, h.bytes, ⟨h.listed.tail, h.listed.last, h.listed.nonneg, h.listed.none⟩, h.small, h.snxt, h.suna,
    h.finAcked, h.finSent, h.finOut, h.pending, h.fss, h.flag⟩

lemma SendRun.Holds.exec (h : r.Holds a e) (hp : r.Possible ev) (hf : r.NotFlushed ev) :
    (r.exec ev).Kept r.t.hdrLen (r.t.event ev).2 := by
  cases ev with
  | write turns turn synRcvd kind mp =>
    rw [SendRun.exec_eq rfl]
    have hsmall : r.t.xmit.flatten.length + msgdsize mp < 2 ^ 31 := hp
    rw [h.length, msgdsize_eq] at hsmall
    exact tcpWput_kept h hsmall
  | push turns synRcvd =>
    rw [SendRun.exec_eq rfl]
    exact h.slow (natCast_nonneg _)
  | ack segAck =>
    rw [SendRun.exec_eq rfl]
    obtain ⟨a', e', h'⟩ := rputAck_holds h segAck
    exact h'.kept _
  | rexmit turn max =>
    rw [SendRun.exec_eq rfl]
    exact retransmit_kept h turn max
  | window swnd cwnd maxSwnd mss naglim hdrLen =>
    rw [SendRun.exec_eq rfl]
    exact (h.windows r.t.state swnd cwnd maxSwnd mss naglim hdrLen).kept _
  | received state =>
    rw [SendRun.exec_eq rfl]
    exact (h.windows state r.t.swnd r.t.cwnd r.t.maxSwnd r.t.mss r.t.naglim r.t.hdrLen).kept _
  | flush =>
    rw [SendRun.exec_eq rfl]
    exact (tcpWputFlush_holds h hf).kept _
  | ordrel turn => exact tcpXmitEnd_kept h hp turn

instance : Decidable (r.Possible ev) :=
  match ev with
  | .write _ _ _ _ _ => inferInstanceAs (Decidable (_ < _))
  | .ordrel _ => inferInstanceAs (Decidable (_ = _))
  | .push _ _ | .ack _ | .rexmit _ _ | .window _ _ _ _ _ _ | .received _ | .flush => .isTrue trivial

/-- A connection that has been established, with what was written before. -/
structure SendRun.Established (r : SendRun) : Prop where
  suna : r.t.suna = r.start
  snxt : r.t.snxt = r.start
  data : r.data = r.t.xmit.flatten
  unsent : r.t.unsent = msgdsize r.t.xmit
  tail : r.t.xmitTail = 0
  tailUnsent : r.t.tailUnsent = (r.t.xmit.headD []).length
  last : r.t.xmit ≠ [] → r.t.xmitLast + 1 = r.t.xmit.length
  small : msgdsize r.t.xmit < 2 ^ 31
  fssValid : r.t.fssValid = false
  finSent : r.t.finSent = false
  finAcked : r.t.finAcked = false
  finOut : r.finOut = false

lemma SendRun.Established.holds (h : r.Established) : r.Holds 0 false := by
  have hlength : r.t.unsent = r.data.length := by
    rw [h.unsent, h.data, msgdsize_eq]
  have hno {b : Bool} (hb : b = false) {P : Prop} : b = true → P := by
    intro htrue
    rw [hb] at htrue
    exact absurd htrue Bool.false_ne_true
  constructor
  · exact Nat.zero_le _
  · rw [h.data]
    rfl
  · constructor
    · intro hne
      rw [h.tail, h.tailUnsent, h.unsent, msgdsize_eq]
      cases hxmit : r.t.xmit with
      | nil => exact absurd hxmit hne
      | cons b l =>
        constructor
        · exact Nat.succ_pos _
        · exact le_rfl
        · change (b.length : Int) + (l.flatten.length : Int) = _
          rw [flatten_cons, length_append]
          rfl
    · exact h.last
    · rw [h.tailUnsent]
      exact natCast_nonneg _
    · intro hnil
      rw [h.unsent, h.tailUnsent, hnil]
      exact ⟨rfl, rfl⟩
  · rw [← msgdsize_eq]
    exact h.small
  · rw [h.snxt, hlength, Nat.sub_self, h.finOut, Lib.numberOf_zero]
    exact (BitVec.add_zero _).symm
  · rw [h.suna, Lib.numberOf_zero]
    exact (BitVec.add_zero _).symm
  · exact fun he => absurd he Bool.false_ne_true
  · exact hno h.finSent
  · exact hno h.finOut
  · exact hno h.fssValid
  · exact hno h.fssValid
  · exact hno h.finAcked

end Events

section Bytes

variable {r : SendRun} {ev : SendEvent} {evs : List SendEvent} {a : Nat} {e : Bool}

/-- What an event leaves: the list has the bytes from `tcp_suna` up to `tcp_snxt + tcp_unsent`, of which the places in
it leave `tcp_unsent`, and a segment with data has the bytes of its number. -/
structure SendRun.SentExact (r : SendRun) (ev : SendEvent) : Prop where
  list : ∃ a e, a ≤ (r.exec ev).data.length ∧
    (e = true → a = (r.exec ev).data.length ∧ (r.exec ev).finOut = true) ∧
    (r.exec ev).t.suna = numberOf r.start a + finBit e ∧
    (r.exec ev).t.snxt + BitVec.ofNat 32 (r.exec ev).t.unsent =
      numberOf r.start (r.exec ev).data.length + finBit (r.exec ev).finOut ∧
    (r.exec ev).t.unsent ≤ (r.exec ev).data.length - a ∧
    (r.exec ev).t.xmit.flatten = (r.exec ev).data.drop a
  places : (r.exec ev).t.Listed
  carries : ∀ seg ∈ (r.t.event ev).2, (r.exec ev).Carries r.t.hdrLen seg

lemma SendRun.Holds.upTo (h : r.Holds a e) :
    r.t.snxt + BitVec.ofNat 32 r.t.unsent = numberOf r.start r.data.length + finBit r.finOut := by
  cases hout : r.finOut with
  | false =>
    rw [h.fssNumber hout]
    exact (BitVec.add_zero _).symm
  | true =>
    rw [h.snxt, (h.finOut hout).2, hout, Nat.sub_zero]
    exact BitVec.add_zero _

lemma SendRun.Kept.sentExact (h : (r.exec ev).Kept r.t.hdrLen (r.t.event ev).2) : r.SentExact ev := by
  obtain ⟨⟨a, e, hholds⟩, hcarries, -⟩ := h
  refine ⟨⟨a, e, hholds.acked, ?_, hholds.suna, hholds.upTo, hholds.unsent_le, hholds.bytes⟩, hholds.listed, hcarries⟩
  intro he
  obtain ⟨hout, hnil⟩ := hholds.finAcked he
  have hlength := hholds.length
  have hacked := hholds.acked
  rw [hnil, flatten_nil, length_nil] at hlength
  exact ⟨by omega, hout⟩

/-- A connection with nothing written, the window that the peer offers, and segments of at most two bytes. -/
def quietConnection (swnd : BitVec 32) : SendRun where
  t := {
    state := .established
    suna := 100
    snxt := 100
    unsent := 0
    xmit := []
    xmitTail := 0
    xmitLast := 0
    tailUnsent := 0
    urgValid := false
    urg := 0
    fssValid := false
    fss := 0
    finSent := false
    finAcked := false
    swnd
    cwnd := 8
    maxSwnd := 8
    mss := ⟨2, Nat.two_pos⟩
    naglim := 2
    lastSentLen := 0
    hdrLen := 40 }
  start := 100
  data := []
  finOut := false

lemma quietConnection_established (swnd : BitVec 32) : (quietConnection swnd).Established where
  suna := rfl
  snxt := rfl
  data := rfl
  unsent := rfl
  tail := rfl
  tailUnsent := rfl
  last hne := absurd rfl hne
  small := Nat.two_pow_pos 31
  fssValid := rfl
  finSent := rfl
  finAcked := rfl
  finOut := rfl

def plenty : Turn := ⟨fun _ => true, true, true⟩

def threeBytes : SendEvent := .write (fun _ => plenty) plenty false .data [[1, 2], [3]]

theorem sent_exact (h : r.Established) (hp : Along SendRun.exec SendRun.Possible r evs) (hflush : ∀ ev ∈ evs, ev ≠ .flush) :
    Along SendRun.exec SendRun.SentExact r evs := by
  have hnot : Along SendRun.exec (fun _ ev => ev ≠ .flush) r evs := Lib.along_of_forall hflush
  refine (hp.and hnot).imp (P := fun r => ∃ a e, r.Holds a e) ⟨0, false, h.holds⟩ ?_
  rintro r ev ⟨a, e, hholds⟩ ⟨hpossible, hne⟩
  have hnf : r.NotFlushed ev := by
    cases ev with
    | flush => exact absurd rfl hne
    | _ => trivial
  have hkept := hholds.exec hpossible hnf
  exact ⟨hkept.sentExact, hkept.holds⟩

theorem sent_exact_written : Along SendRun.exec SendRun.SentExact (quietConnection 8)
    [threeBytes, .rexmit plenty 2, .ack 102, .ordrel plenty] :=
  sent_exact (quietConnection_established 8) ⟨by decide, by decide, by decide, by decide, trivial⟩
    (by
      intro ev hev
      simp only [mem_cons, not_mem_nil, or_false] at hev
      obtain rfl | rfl | rfl | rfl := hev
      · exact fun heq => nomatch heq
      · exact fun heq => nomatch heq
      · exact fun heq => nomatch heq
      · exact fun heq => nomatch heq)

end Bytes

section Fin

variable {r : SendRun} {ev : SendEvent} {evs : List SendEvent} {a : Nat} {e : Bool}

/-- What an event leaves of the FIN: it is behind the unsent bytes, goes out with the last one, and has the number
behind the last byte that is in the list or has been sent. -/
structure SendRun.FinExact (r : SendRun) (ev : SendEvent) : Prop where
  behind : (r.exec ev).t.fssValid = true → (r.exec ev).finOut = false →
    (r.exec ev).t.fss = (r.exec ev).t.snxt + BitVec.ofNat 32 (r.exec ev).t.unsent
  withLast : r.t.fssValid = true → r.t.unsent ≠ 0 → (r.exec ev).t.unsent = 0 →
    ∃ seg ∈ (r.t.event ev).2, seg.fin = true ∧ seg.data ≠ []
  number : ∀ seg ∈ (r.t.event ev).2, (r.exec ev).FinLast seg
  last : (r.exec ev).finOut = true → (r.exec ev).t.fss = numberOf r.start (r.exec ev).data.length ∧
    (r.exec ev).t.snxt = (r.exec ev).t.fss + 1 ∧ (r.exec ev).t.unsent = 0

lemma putMessage_unsent {turns : Nat → Turn} {t : Sender} {kind : MsgKind} {mp : List Bytes} (hfss : t.fssValid = true) :
    (putMessage turns t kind mp).1.unsent = t.unsent := by
  have hno (urg : Seq) (urgValid : Bool) : ¬({ t with urg, urgValid } : Sender).Accepts := by
    intro hacc
    exact Bool.false_ne_true (hacc.2.symm.trans hfss)
  unfold putMessage
  by_cases hempty : kind = .exdataReq ∧ msgdsize mp = 0
  · rw [if_pos hempty]
  rw [if_neg hempty]
  split_ifs with hex
  · rw [if_pos (hno _ _)]
  · rw [if_pos (hno t.urg t.urgValid)]

lemma tcpWput_unsent {turns : Nat → Turn} {turn : Turn} {t : Sender} {synRcvd : Bool} {kind : MsgKind} {mp : List Bytes}
    (hfss : t.fssValid = true) : (tcpWput turns t turn synRcvd kind mp).1.unsent = t.unsent := by
  unfold tcpWput
  split
  · next b =>
    have hno : ¬(t.state = .established ∧ t.unsent = 0 ∧ b ≠ [] ∧ b.length ≤ t.mss ∧ t.urgValid = false ∧
        t.fssValid = false) := by
      rintro ⟨-, -, -, -, -, hfalse⟩
      exact Bool.false_ne_true (hfalse.symm.trans hfss)
    rw [if_neg hno]
    exact putMessage_unsent hfss
  · exact putMessage_unsent hfss

lemma rputAck_unsent (t : Sender) (segAck : Seq) : (rputAck t segAck).unsent = t.unsent := by
  unfold rputAck
  dsimp only
  split_ifs <;> rfl

lemma retransmit_unsent (t : Sender) (turn : Turn) (max : Nat) : (retransmit t turn max).1.unsent = t.unsent := by
  unfold retransmit
  cases hmp : tcpXmitMp t turn t.xmit (min (t.snxt - t.suna).toNat max) t.suna true with
  | none => rfl
  | some x =>
    obtain ⟨l, seg, t'⟩ := x
    obtain ⟨m, hx⟩ := tcpXmitMp_spec hmp
    rw [hx.conn]
    split_ifs
    · rfl
    · rfl

lemma SendRun.Holds.withLast (h : r.Holds a e) (hp : r.Possible ev) (hf : r.NotFlushed ev) (hfss : r.t.fssValid = true)
    (hne : r.t.unsent ≠ 0) (hzero : (r.exec ev).t.unsent = 0) : ∃ seg ∈ (r.t.event ev).2, seg.fin = true ∧ seg.data ≠ [] := by
  cases ev with
  | write turns turn synRcvd kind mp => exact absurd ((tcpWput_unsent hfss).symm.trans hzero) hne
  | push turns synRcvd =>
    obtain ⟨m, ht⟩ := @tcpWputSlow_transmits r.t turns synRcvd 0 h.listed h.finBehind (natCast_nonneg _)
    have hleft : r.t.unsent - m = 0 := ht.unsent.symm.trans hzero
    have hle := ht.le
    obtain ⟨seg, hseg, hdata, x, hnew, hend⟩ := ht.withFin hfss (by omega) (by omega)
    have hout := h.finOut_false (Nat.pos_of_ne_zero hne)
    have hflag : r.t.finAcked = false := by
      rw [← Bool.not_eq_true]
      intro hacked
      rw [h.finSent (h.flag hacked)] at hout
      exact Bool.false_ne_true hout.symm
    exact ⟨seg, hseg, hnew.fin.mpr ⟨hfss, hflag, hend⟩, hdata⟩
  | ack segAck => exact absurd ((rputAck_unsent r.t segAck).symm.trans hzero) hne
  | rexmit turn max => exact absurd ((retransmit_unsent r.t turn max).symm.trans hzero) hne
  | window => exact absurd hzero hne
  | received => exact absurd hzero hne
  | flush =>
    have hurg : ¬r.t.urgValid = false := fun hurg => hf ⟨hfss, hurg, hne⟩
    have hsame : tcpWputFlush r.t = r.t := if_neg fun hand => hurg hand.2
    exact absurd ((congrArg Sender.unsent hsame).symm.trans hzero) hne
  | ordrel turn => exact absurd (hp.symm.trans hfss) Bool.false_ne_true

lemma SendRun.Holds.finExact (h : r.Holds a e) (hp : r.Possible ev) (hf : r.NotFlushed ev) : r.FinExact ev := by
  obtain ⟨⟨a', e', hholds⟩, -, hlast⟩ := h.exec hp hf
  refine ⟨?_, h.withLast hp hf, hlast, ?_⟩
  · intro hfss hout
    rw [hholds.fss hfss, hholds.fssNumber hout]
  · intro hout
    obtain ⟨hfss, hzero⟩ := hholds.finOut hout
    refine ⟨hholds.fss hfss, ?_, hzero⟩
    have hsnxt := hholds.snxt
    rw [hzero, hout] at hsnxt
    rw [hholds.fss hfss, hsnxt]
    rfl

lemma SendRun.Holds.not_finExact (h : r.Holds a e) (hf : ¬r.NotFlushed ev) : ¬r.FinExact ev := by
  intro hexact
  cases ev with
  | flush =>
    obtain ⟨hfss, hurg, hne⟩ := not_not.mp hf
    obtain ⟨hfss', hsent, hfar⟩ := tcpWputFlush_behind h hfss hurg hne
    refine hfar (hexact.behind hfss' ?_)
    have hout := h.finOut_false (Nat.pos_of_ne_zero hne)
    rw [SendRun.exec_eq rfl]
    change (r.finOut || (tcpWputFlush r.t).finSent) = false
    rw [hout, hsent]
    rfl
  | _ => exact hf trivial

theorem fin_exact_iff (h : r.Established) (hp : Along SendRun.exec SendRun.Possible r evs) :
    Along SendRun.exec SendRun.FinExact r evs ↔ Along SendRun.exec SendRun.NotFlushed r evs := by
  constructor
  · intro hexact
    refine (hp.and hexact).imp (P := fun r => ∃ a e, r.Holds a e) ⟨0, false, h.holds⟩ ?_
    rintro r ev ⟨a, e, hholds⟩ ⟨hpossible, hfin⟩
    have hnf : r.NotFlushed ev := by
      by_contra hno
      exact hholds.not_finExact hno hfin
    exact ⟨hnf, (hholds.exec hpossible hnf).holds⟩
  · intro hnot
    refine (hp.and hnot).imp (P := fun r => ∃ a e, r.Holds a e) ⟨0, false, h.holds⟩ ?_
    rintro r ev ⟨a, e, hholds⟩ ⟨hpossible, hnf⟩
    exact ⟨hholds.finExact hpossible hnf, (hholds.exec hpossible hnf).holds⟩

theorem fin_exact_iff_released : Along SendRun.exec SendRun.FinExact (quietConnection 8)
    [threeBytes, .ordrel plenty] ↔ Along SendRun.exec SendRun.NotFlushed (quietConnection 8) [threeBytes, .ordrel plenty] :=
  fin_exact_iff (quietConnection_established 8) ⟨by decide, by decide, trivial⟩

/-- The window is closed, and the bytes that the FIN is behind are flushed. -/
theorem fin_not_exact : ¬∀ (r : SendRun) (evs : List SendEvent), r.Established →
    Along SendRun.exec SendRun.Possible r evs → Along SendRun.exec SendRun.FinExact r evs := by
  intro hall
  have hrun := hall (quietConnection 0) [threeBytes, .ordrel plenty, .flush] (quietConnection_established 0)
    ⟨by decide, by decide, by decide, trivial⟩
  have hbehind := hrun.2.2.1.behind (by decide) (by decide)
  revert hbehind
  decide

end Fin

end Solaris.Tcp
