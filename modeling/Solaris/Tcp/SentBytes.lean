import Solaris.Tcp.SendRuns

/-!
# The bytes and the FIN of a sender

Acknowledgements, retransmissions, flushes and the end of sending, and from these whole runs: every segment has the
bytes of its number, and the FIN is behind the last byte unless a flush takes bytes off that it is behind.
-/

namespace Solaris.Tcp

open List Nat Int

open Lib (Along numberOf)

section Eat

/-- What is left of a list of blocks when `n` of its bytes have been taken off. -/
structure Eats (l : List Bytes) (n : Nat) (r : Eaten) : Prop where
  rest : r.rest.flatten = l.flatten.drop n
  left : r.left = n - l.flatten.length
  before : ∀ j < r.blocks, (l.take j).flatten.length < n
  blocks : r.blocks + r.rest.length = l.length
  whole : r.whole = true → r.rest = l.drop r.blocks ∧ (l.take r.blocks).flatten.length = n
  part : r.whole = false → r.rest ≠ [] →
    (l.take r.blocks).flatten.length < n ∧ n < (l.take (r.blocks + 1)).flatten.length ∧
      r.rest = (l.getD r.blocks []).drop (n - (l.take r.blocks).flatten.length) :: l.drop (r.blocks + 1)

lemma eatAcked_shift (k n : Nat) (l : List Bytes) :
    eatAcked k n l = { eatAcked 0 n l with blocks := k + (eatAcked 0 n l).blocks } := by
  induction l generalizing k n with
  | nil => rfl
  | cons b l ih =>
    unfold eatAcked
    split_ifs
    · rfl
    · rw [zero_add]
    · rw [ih (k + 1), ih (0 + 1)]
      dsimp only
      congr 1
      omega

lemma eatAcked_eats {n : Nat} (hn : 0 < n) (l : List Bytes) : Eats l n (eatAcked 0 n l) := by
  induction l generalizing n with
  | nil =>
    exact ⟨drop_nil.symm, (Nat.sub_zero n).symm, fun j hj => absurd hj (Nat.not_lt_zero j), rfl,
      fun hw => absurd hw Bool.false_ne_true, fun _ hne => absurd rfl hne⟩
  | cons b l ih =>
    unfold eatAcked
    by_cases hlt : n < b.length
    · rw [if_pos hlt]
      constructor
      · change (b.drop n :: l).flatten = _
        rw [flatten_cons, flatten_cons, drop_append_of_le_length hlt.le]
      · change 0 = n - (b :: l).flatten.length
        rw [flatten_cons, length_append]
        omega
      · exact fun j hj => absurd hj (Nat.not_lt_zero j)
      · exact Nat.zero_add _
      · exact fun hw => absurd hw Bool.false_ne_true
      · intro _ _
        refine ⟨hn, ?_, rfl⟩
        change n < [b].flatten.length
        rw [flatten_cons, flatten_nil, append_nil]
        exact hlt
    rw [if_neg hlt]
    by_cases heq : n = b.length
    · rw [if_pos heq]
      constructor
      · change l.flatten = _
        rw [flatten_cons, heq, drop_left]
      · change 0 = n - (b :: l).flatten.length
        rw [flatten_cons, length_append]
        omega
      · intro j hj
        have hj0 : j = 0 := by
          change j < 0 + 1 at hj
          omega
        rw [hj0]
        exact hn
      · change 0 + 1 + l.length = l.length + 1
        omega
      · intro _
        refine ⟨rfl, ?_⟩
        change [b].flatten.length = n
        rw [flatten_cons, flatten_nil, append_nil, heq]
      · exact fun hw => absurd hw.symm Bool.false_ne_true
    rw [if_neg heq, eatAcked_shift]
    have hlen : b.length ≤ n := not_lt.mp hlt
    obtain ⟨hrest, hleft, hbefore, hblocks, hwhole, hpart⟩ := ih (n := n - b.length) (by omega)
    have htake (j : Nat) : ((b :: l).take (0 + 1 + j)).flatten.length = b.length + (l.take j).flatten.length := by
      rw [Nat.add_comm (0 + 1) j, take_succ_cons, flatten_cons, length_append]
    constructor
    · change (eatAcked 0 (n - b.length) l).rest.flatten = _
      rw [hrest, flatten_cons, drop_append, drop_of_length_le hlen, nil_append]
    · change (eatAcked 0 (n - b.length) l).left = _
      rw [hleft, flatten_cons, length_append]
      omega
    · intro j hj
      cases j with
      | zero => exact hn
      | succ j =>
        have hj' : j < (eatAcked 0 (n - b.length) l).blocks := by
          change j + 1 < 0 + 1 + (eatAcked 0 (n - b.length) l).blocks at hj
          omega
        have hlt' := hbefore j hj'
        rw [take_succ_cons, flatten_cons, length_append]
        omega
    · change 0 + 1 + (eatAcked 0 (n - b.length) l).blocks + (eatAcked 0 (n - b.length) l).rest.length = l.length + 1
      omega
    · intro hw
      obtain ⟨hdrop, hsum⟩ := hwhole hw
      refine ⟨?_, ?_⟩
      · change (eatAcked 0 (n - b.length) l).rest = (b :: l).drop (0 + 1 + _)
        rw [hdrop, Nat.add_comm (0 + 1), drop_succ_cons]
      · change ((b :: l).take (0 + 1 + _)).flatten.length = n
        rw [htake, hsum]
        omega
    · intro hw hne
      obtain ⟨hlt', hltNext, hcons⟩ := hpart hw hne
      have hnext (j : Nat) : 0 + 1 + j + 1 = 0 + 1 + (j + 1) := by omega
      rw [hnext, htake, htake, Nat.add_comm (0 + 1), Nat.add_comm (0 + 1), getD_cons_succ, drop_succ_cons, hcons,
        Nat.sub_sub]
      exact ⟨by omega, by omega, rfl⟩

lemma flatten_take_le (l : List Bytes) (k : Nat) : (l.take k).flatten.length ≤ l.flatten.length := by
  conv_rhs => rw [← take_append_drop k l, flatten_append, length_append]
  exact le_add_right _ _

lemma Eats.rest_nil {l : List Bytes} {n : Nat} {x : Eaten} (hx : Eats l n x) (hlt : l.flatten.length < n) : x.rest = [] := by
  by_contra hne
  cases hwhole : x.whole with
  | true =>
    have hsum := (hx.whole hwhole).2
    have hle := flatten_take_le l x.blocks
    omega
  | false =>
    have hhigh := (hx.part hwhole hne).2.1
    have hle := flatten_take_le l (x.blocks + 1)
    omega

end Eat

section Acks

variable {r : SendRun} {a d : Nat} {e : Bool} {segAck : Seq}

lemma SendRun.Holds.ack_range (h : r.Holds a e) (hpos : 0 < (segAck - r.t.suna).toInt)
    (hgt : SEQ_GT segAck r.t.snxt = false) :
    e = false ∧ ∃ d : Nat, 0 < d ∧ (segAck - r.t.suna).toInt = d ∧ segAck = numberOf r.start (a + d) ∧
      a + d ≤ r.data.length - r.t.unsent + if r.finOut = true then 1 else 0 := by
  have hle : (segAck - r.t.snxt).toInt ≤ 0 := by
    unfold SEQ_GT at hgt
    exact not_lt.mp (of_decide_eq_false hgt)
  have hlength := h.length
  have hacked := h.acked
  have hunsent := h.unsent_le
  have hsnxt := h.snxt
  have hsuna := h.suna
  rw [numberOf_finBit] at hsnxt hsuna
  have he : e = false := by
    rw [← Bool.not_eq_true]
    intro he
    obtain ⟨hout, hnil⟩ := h.finAcked he
    have h0 := (h.finOut hout).2
    rw [hnil, flatten_nil, length_nil] at hlength
    have hsame : r.t.snxt = r.t.suna := by
      rw [hsnxt, hsuna, hout, he, h0]
      congr 2
      omega
    rw [hsame] at hle
    omega
  obtain ⟨d, hd⟩ := eq_ofNat_of_zero_le hpos.le
  have hseg : segAck = numberOf r.start (a + d) := by
    have hdiff : segAck - r.t.suna = BitVec.ofNat 32 d := by
      rw [← BitVec.ofInt_toInt (x := segAck - r.t.suna), hd]
      exact BitVec.ofInt_natCast 32 d
    rw [Lib.numberOf_add, ← hdiff, hsuna, he]
    change segAck = numberOf r.start (a + 0) + (segAck - numberOf r.start (a + 0))
    rw [add_sub_cancel]
  refine ⟨he, d, by omega, hd, hseg, ?_⟩
  by_contra hbeyond
  have hlt := BitVec.toInt_lt (x := segAck - r.t.suna)
  generalize (if r.finOut = true then 1 else 0) = fin at *
  have hnear : Lib.Near (a + d) (r.data.length - r.t.unsent + fin) := by
    unfold Lib.Near
    omega
  rw [hseg, hsnxt, Lib.toInt_numberOf_sub hnear] at hle
  omega

lemma SendRun.Holds.taken (h : r.Holds a false) (hd : a + d ≤ r.data.length - r.t.unsent + if r.finOut = true then 1 else 0)
    {t' : Sender} (hsame : ∃ suna urgValid xmit xmitTail tailUnsent xmitLast finAcked,
      t' = { r.t with suna, urgValid, xmit, xmitTail, tailUnsent, xmitLast, finAcked })
    (hsuna : t'.suna = numberOf r.start (a + d)) (hxmit : t'.xmit.flatten = r.t.xmit.flatten.drop d)
    (hnil : r.t.xmit.flatten.length < d → t'.xmit = []) (hlisted : t'.Listed)
    (hflag : t'.finAcked = true → r.t.finSent = true) :
    ∃ a' e', SendRun.Holds { r with t := t', finOut := r.finOut || t'.finSent } a' e' := by
  obtain ⟨suna, urgValid, xmit, xmitTail, tailUnsent, xmitLast, finAcked, rfl⟩ := hsame
  dsimp only at hsuna hxmit hnil hflag
  have hlength := h.length
  have hacked := h.acked
  have hsmall := h.small
  refine ⟨min (a + d) r.data.length, decide (r.data.length < a + d), ?_⟩
  rw [h.finOut_or]
  constructor
  · exact min_le_right _ _
  · change xmit.flatten = r.data.drop (min (a + d) r.data.length)
    rw [hxmit, h.bytes, drop_drop]
    rcases le_total (a + d) r.data.length with hle | hge
    · rw [min_eq_left hle]
    · rw [min_eq_right hge, drop_of_length_le hge, drop_length]
  · exact hlisted
  · change xmit.flatten.length < 2 ^ 31
    rw [hxmit, length_drop]
    omega
  · exact h.snxt
  · change suna = numberOf r.start (min (a + d) r.data.length) + finBit (decide (r.data.length < a + d))
    rw [hsuna, numberOf_finBit]
    congr 1
    by_cases hlt : r.data.length < a + d
    · rw [if_pos (decide_eq_true hlt), min_eq_right hlt.le]
      split_ifs at hd
      · omega
      · omega
    · rw [if_neg (fun htrue => hlt (of_decide_eq_true htrue)), min_eq_left (not_lt.mp hlt)]
      exact (add_zero _).symm
  · intro htrue
    have hlt := of_decide_eq_true htrue
    refine ⟨?_, hnil (by omega)⟩
    by_contra hout
    rw [if_neg hout] at hd
    omega
  · exact h.finSent
  · exact h.finOut
  · exact h.pending
  · exact h.fss
  · exact hflag

section Cut

variable {xmit : List Bytes} {tail n k : Nat} {u : Int}

lemma flatten_take_succ (h : tail < xmit.length) : (xmit.take (tail + 1)).flatten.length =
    (xmit.take tail).flatten.length + (xmit.getD tail []).length := by
  rw [take_add_one, flatten_append, length_append, getElem?_eq_getElem h, getD_eq_getElem _ _ h,
    Option.toList_some, flatten_cons, flatten_nil, append_nil]

lemma At.dropBlocks (h : At xmit tail u n) (hk : k ≤ tail) : At (xmit.drop k) (tail - k) u n := by
  have hlt := h.lt
  have hsum : k + (tail - k) = tail := by omega
  constructor
  · rw [length_drop]
    omega
  · rw [getD_eq_getElem?_getD, getElem?_drop, hsum, ← getD_eq_getElem?_getD]
    exact h.le
  · have hsum' : k + (tail - k + 1) = tail + 1 := by omega
    rw [drop_drop, hsum']
    exact h.rest

lemma At.cutBytes {b : Bytes} {rest : List Bytes} {c : Nat} (h : At (b :: rest) tail u n)
    (hc : tail = 0 → u ≤ b.length - c) (hle : c ≤ b.length) : At (b.drop c :: rest) tail u n := by
  cases tail with
  | zero =>
    constructor
    · exact h.lt
    · change u ≤ (b.drop c).length
      rw [length_drop]
      omega
    · exact h.rest
  | succ tail => exact ⟨h.lt, h.le, h.rest⟩

end Cut

lemma Eats.listed {t : Sender} {x : Eaten} (hx : Eats t.xmit d x) (h : t.Listed) (hne : t.xmit ≠ []) (hpos : 0 < d)
    (hd : d ≤ t.xmit.flatten.length - t.unsent ∨ t.unsent = 0) {t' : Sender} (hxmit : t'.xmit = x.rest)
    (hlast : t'.xmitLast = t.xmitLast - x.blocks) (hunsent : t'.unsent = t.unsent)
    (hplace : x.rest ≠ [] ∧ x.whole = true ∧ x.blocks = t.xmitTail + 1 ∧ t'.xmitTail = 0 ∧
        t'.tailUnsent = (x.rest.headD []).length ∨
      ¬(x.rest ≠ [] ∧ x.whole = true ∧ x.blocks = t.xmitTail + 1) ∧ t'.xmitTail = t.xmitTail - x.blocks ∧
        t'.tailUnsent = t.tailUnsent) : t'.Listed := by
  have hat := h.tail hne
  have hnonneg := h.nonneg
  have hlastOld := h.last hne
  have hblocks := hx.blocks
  have hbefore := hx.before
  -- the bytes up to the place have been sent
  have htotal : t.xmit.flatten.length =
      (t.xmit.take (t.xmitTail + 1)).flatten.length + (t.xmit.drop (t.xmitTail + 1)).flatten.length := by
    rw [← length_append, ← flatten_append, take_append_drop]
  by_cases hnil : x.rest = []
  · have hleft := congrArg List.length hx.rest
    rw [hnil, flatten_nil, length_nil, length_drop] at hleft
    have h0 : t.unsent = 0 := by omega
    have hrest := hat.rest
    obtain ⟨-, htail⟩ : _ ∧ t'.tailUnsent = t.tailUnsent := by
      rcases hplace with hfirst | ⟨-, hkept⟩
      · exact absurd hnil hfirst.1
      · exact hkept
    constructor
    · exact fun hne' => absurd (hxmit.trans hnil) hne'
    · exact fun hne' => absurd (hxmit.trans hnil) hne'
    · rw [htail]
      exact hnonneg
    · intro _
      rw [hunsent, htail]
      exact ⟨h0, by omega⟩
  have hposRest : 0 < x.rest.length := length_pos_iff.mpr hnil
  have hat' : At t'.xmit t'.xmitTail t'.tailUnsent t'.unsent := by
    have hrest := hat.rest
    rw [hxmit, hunsent]
    cases hwhole : x.whole with
    | true =>
      obtain ⟨hdrop, hsum⟩ := hx.whole hwhole
      have hsent : (d : Int) + t.tailUnsent ≤ (t.xmit.take (t.xmitTail + 1)).flatten.length := by
        have hle' := flatten_take_le t.xmit x.blocks
        omega
      rcases hplace with ⟨-, -, hk, htail, hu⟩ | ⟨hk, htail, hu⟩
      · rw [hk] at hsum hdrop
        rw [htail, hu, hdrop]
        have hblock : t.xmitTail + 1 < t.xmit.length := by omega
        rw [drop_tail hblock, flatten_cons, length_append] at hrest
        rw [drop_tail hblock]
        constructor
        · exact succ_pos _
        · exact le_rfl
        · change ((t.xmit.getD (t.xmitTail + 1) []).length : Int) +
            ((t.xmit.drop (t.xmitTail + 1 + 1)).flatten.length : Int) = t.unsent
          omega
      · have hk' : x.blocks ≤ t.xmitTail := by
          by_contra hgt
          have hne' : x.blocks ≠ t.xmitTail + 1 := fun heq => hk ⟨hnil, hwhole, heq⟩
          have hlt' := hbefore (t.xmitTail + 1) (by omega)
          omega
        rw [hdrop, htail, hu]
        exact hat.dropBlocks hk'
    | false =>
      obtain ⟨hlow, hhigh, hcons⟩ := hx.part hwhole hnil
      obtain ⟨-, htail, hu⟩ : _ ∧ t'.xmitTail = t.xmitTail - x.blocks ∧ t'.tailUnsent = t.tailUnsent := by
        rcases hplace with hfull | hkept
        · rw [hwhole] at hfull
          exact absurd hfull.2.1 Bool.false_ne_true
        · exact hkept
      have hsplit := flatten_take_le t.xmit (x.blocks + 1)
      have hsent : (d : Int) + t.tailUnsent ≤ (t.xmit.take (t.xmitTail + 1)).flatten.length := by omega
      have hk : x.blocks ≤ t.xmitTail := by
        by_contra hgt
        rcases lt_or_ge (t.xmitTail + 1) x.blocks with hmore | hless
        · have hlt' := hbefore _ hmore
          omega
        · have heq : x.blocks = t.xmitTail + 1 := by omega
          rw [heq] at hlow
          omega
      have hcut := hat.dropBlocks hk
      have hblock : x.blocks < t.xmit.length := by omega
      have hnext := flatten_take_succ hblock
      rw [drop_tail hblock] at hcut
      rw [hcons, htail, hu]
      refine hcut.cutBytes ?_ (by omega)
      intro h0
      have heq : x.blocks = t.xmitTail := by omega
      rw [← heq] at hsent
      omega
  constructor
  · exact fun _ => hat'
  · intro _
    rw [hlast, hxmit]
    omega
  · rcases hplace with ⟨-, -, -, -, htail⟩ | ⟨-, -, htail⟩
    · rw [htail]
      exact natCast_nonneg _
    · rw [htail]
      exact hnonneg
  · intro hnone
    exact absurd (hxmit.symm.trans hnone) hnil

lemma rputAck_holds (h : r.Holds a e) (segAck : Seq) :
    ∃ a' e', SendRun.Holds { r with t := rputAck r.t segAck, finOut := r.finOut || (rputAck r.t segAck).finSent } a' e' := by
  unfold rputAck
  by_cases hskip : (segAck - r.t.suna).toInt ≤ 0 ∨ SEQ_GT segAck r.t.snxt = true
  · rw [if_pos hskip, h.finOut_or]
    exact ⟨a, e, h⟩
  rw [if_neg hskip]
  rw [not_or, Bool.not_eq_true] at hskip
  obtain ⟨he, d, hpos, hd, hseg, hrange⟩ := h.ack_range (not_le.mp hskip.1) hskip.2
  rw [he] at h
  rw [hd, toNat_natCast]
  have hlength := h.length
  by_cases hnil : r.t.xmit = []
  · rw [if_pos hnil]
    refine h.taken hrange ⟨_, _, _, _, _, _, _, rfl⟩ hseg ?_ (fun _ => hnil) ?_ ?_
    · change r.t.xmit.flatten = _
      rw [hnil]
      exact drop_nil.symm
    · exact ⟨h.listed.tail, h.listed.last, h.listed.nonneg, h.listed.none⟩
    · intro hflag
      rcases Bool.or_eq_true_iff.mp hflag with hold | hsent
      · exact h.flag hold
      · exact hsent
  rw [if_neg hnil]
  obtain ⟨urgValid, hurg⟩ : ∃ urgValid, (if r.t.urgValid = true ∧ SEQ_GT segAck r.t.urg = true then
      { r.t with suna := segAck, urgValid := false } else { r.t with suna := segAck }) =
      ({ r.t with suna := segAck, urgValid } : Sender) := by
    split_ifs
    · exact ⟨_, rfl⟩
    · exact ⟨_, rfl⟩
  have heats := eatAcked_eats hpos r.t.xmit
  have hlisted {t' : Sender} := @Eats.listed d r.t _ heats h.listed hnil hpos
    (by
      cases hout : r.finOut with
      | true => exact .inr (h.finOut hout).2
      | false =>
        rw [hout, if_neg Bool.false_ne_true] at hrange
        exact .inl (by omega)) t'
  have hall : r.t.xmit.flatten.length < d → (eatAcked 0 d r.t.xmit).rest = [] := heats.rest_nil
  rw [hurg]
  by_cases hplace : (eatAcked 0 d r.t.xmit).rest ≠ [] ∧ (eatAcked 0 d r.t.xmit).whole = true ∧
      (eatAcked 0 d r.t.xmit).blocks = r.t.xmitTail + 1
  · rw [if_pos hplace]
    obtain ⟨hne, hwhole, hblocks⟩ := hplace
    exact h.taken hrange ⟨_, _, _, _, _, _, _, rfl⟩ hseg heats.rest hall
      (hlisted rfl rfl rfl (.inl ⟨hne, hwhole, hblocks, rfl, rfl⟩)) h.flag
  rw [if_neg hplace]
  refine h.taken hrange ⟨_, _, _, _, _, _, _, rfl⟩ hseg heats.rest hall
    (hlisted rfl rfl rfl (.inr ⟨hplace, rfl, rfl⟩)) ?_
  intro hflag
  split_ifs at hflag
  · rcases Bool.or_eq_true_iff.mp hflag with hold | hsent
    · exact h.flag hold
    · exact hsent
  · exact h.flag hflag

end Acks

section Retransmission

variable {r : SendRun} {a m : Nat} {e : Bool}

lemma SendRun.Holds.outstanding (h : r.Holds a e) :
    (r.t.snxt - r.t.suna).toNat =
      r.data.length - r.t.unsent - a + (if r.finOut = true then 1 else 0) - (if e = true then 1 else 0) := by
  have hsmall := h.small
  have hlength := h.length
  have hunsent := h.unsent_le
  have hacked := h.acked
  have hle : (if e = true then 1 else 0) ≤ if r.finOut = true then 1 else 0 := by
    by_cases he : e = true
    · rw [if_pos he, if_pos (h.finAcked he).1]
    · rw [if_neg he]
      exact zero_le _
  have hone : (if r.finOut = true then 1 else 0) ≤ 1 := by
    split_ifs
    · exact le_rfl
    · exact zero_le 1
  rw [h.snxt, h.suna, numberOf_finBit, numberOf_finBit]
  generalize (if r.finOut = true then 1 else 0) = out at *
  generalize (if e = true then 1 else 0) = got at *
  have hsum : r.data.length - r.t.unsent + out = a + got + (r.data.length - r.t.unsent - a + out - got) := by
    omega
  rw [hsum, numberOf_small (by omega)]

lemma SendRun.Holds.head_fin (h : r.Holds a e) (hm : m ≤ r.t.xmit.flatten.length) (hle : m ≤ (r.t.snxt - r.t.suna).toNat)
    (hfss : r.t.fssValid = true) (hat : r.t.suna + BitVec.ofNat 32 m = r.t.fss) : r.finOut = true := by
  have hsmall := h.small
  have hlength := h.length
  have hunsent := h.unsent_le
  by_contra hout
  have he : ¬e = true := fun he => hout (h.finAcked he).1
  have hpos := h.pending hfss (Bool.eq_false_of_not_eq_true hout)
  rw [h.outstanding, if_neg hout, if_neg he] at hle
  rw [h.suna, h.fss hfss, numberOf_finBit, if_neg he, add_zero, ← Lib.numberOf_add,
    Lib.numberOf_inj (by unfold Lib.Near; omega)] at hat
  omega

lemma SendRun.Holds.finGone (h : r.Holds a e) (hout : r.finOut = true) (state : TcpState) :
    SendRun.Holds { r with t := { r.t with finSent := true, state } } a e :=
  ⟨h.acked, h.bytes, ⟨h.listed.tail, h.listed.last, h.listed.nonneg, h.listed.none⟩, h.small, h.snxt, h.suna, h.finAcked,
    fun _ => hout, h.finOut, h.pending, h.fss, fun _ => rfl⟩

lemma retransmit_kept (h : r.Holds a e) (turn : Turn) (max : Nat) :
    SendRun.Kept { r with
      t := (retransmit r.t turn max).1
      finOut := r.finOut || (retransmit r.t turn max).1.finSent } r.t.hdrLen (retransmit r.t turn max).2 := by
  unfold retransmit
  cases hmp : tcpXmitMp r.t turn r.t.xmit (min (r.t.snxt - r.t.suna).toNat max) r.t.suna true with
  | none =>
    rw [h.finOut_or]
    exact h.kept r.t.hdrLen
  | some x =>
    obtain ⟨l, seg, t'⟩ := x
    obtain ⟨m, hx⟩ := tcpXmitMp_spec hmp
    have hm := hx.dups.le
    have hle : m ≤ (r.t.snxt - r.t.suna).toNat := le_trans hx.le (min_le_left _ _)
    have hlen := hx.length
    constructor
    · refine ⟨a, e, ?_⟩
      rw [hx.conn]
      split_ifs with hfin
      · obtain ⟨⟨hfss, hat⟩, -⟩ := hfin
        have hout := h.head_fin hm hle hfss hat
        have hsnxt : r.t.fss + 1 = r.t.snxt := by
          rw [h.fss hfss, h.snxt, hout, (h.finOut hout).2, Nat.sub_zero]
          rfl
        unfold finGoesOut
        have hor : (r.finOut || true) = r.finOut := (Bool.or_true _).trans hout.symm
        rw [hsnxt, hor]
        exact h.finGone hout _
      · rw [h.finOut_or]
        exact h
    · intro seg' hseg'
      rw [mem_singleton.mp hseg']
      intro hne
      have he : ¬e = true := by
        intro he
        have hnil := (h.finAcked he).2
        rw [hx.data, hnil] at hne
        exact hne take_nil
      refine ⟨a, ?_, ?_, ?_, ?_⟩
      · have hsmall := h.small
        have hlength := h.length
        change r.data.length < a + 2 ^ 31
        omega
      · rw [hx.seq, h.suna, numberOf_finBit, if_neg he]
        rfl
      · rw [hlen, hx.data, h.bytes]
      · rw [hlen, hx.ipLength]
    · intro seg' hseg'
      rw [mem_singleton.mp hseg']
      intro hfin
      obtain ⟨⟨hfss, hat⟩, -⟩ := hx.fin.mp hfin
      rw [hlen, hx.seq, hat]
      exact h.fss hfss

end Retransmission

end Solaris.Tcp
