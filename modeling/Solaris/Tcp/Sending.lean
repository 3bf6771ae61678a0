import Mathlib.Data.List.GetD
import Solaris.Tcp.Transmit

/-!
# What the sender's loops do

A place in the transmit list is the block of `tcp_xmit_tail` with the number of its bytes that are unsent.
-/

namespace Solaris.Tcp

open List Nat Option Int

section Places

variable {xmit : List Bytes} {tail n : Nat} {u : Int}

/-- The place in the list that has `n` bytes behind it. While a segment is put together the unsent bytes of the block
may be negative. -/
structure At (xmit : List Bytes) (tail : Nat) (u : Int) (n : Nat) : Prop where
  lt : tail < xmit.length
  le : u ≤ (xmit.getD tail []).length
  rest : u + ((xmit.drop (tail + 1)).flatten.length : Int) = n

lemma drop_tail (h : tail < xmit.length) : xmit.drop tail = xmit.getD tail [] :: xmit.drop (tail + 1) := by
  rw [drop_eq_getElem_cons h, getD_eq_getElem _ _ h]

lemma flatten_split (h : tail < xmit.length) :
    xmit.flatten = (xmit.take tail).flatten ++ (xmit.getD tail [] ++ (xmit.drop (tail + 1)).flatten) := by
  conv_lhs => rw [← take_append_drop tail xmit]
  rw [flatten_append, drop_tail h, flatten_cons]

lemma At.bytes (h : At xmit tail u n) (hu : 0 ≤ u) :
    xmit.flatten.drop (xmit.flatten.length - n) =
      (xmit.getD tail []).drop ((xmit.getD tail []).length - u.toNat) ++ (xmit.drop (tail + 1)).flatten := by
  have hsplit := flatten_split h.lt
  have hlen := congrArg length hsplit
  rw [length_append, length_append] at hlen
  have hle := h.le
  have hrest := h.rest
  have hpos : xmit.flatten.length - n = (xmit.take tail).flatten.length +
      ((xmit.getD tail []).length - u.toNat) := by
    omega
  rw [hpos, ← drop_drop, hsplit, drop_left, drop_append_of_le_length (sub_le _ _)]

lemma At.le_length (h : At xmit tail u n) : n ≤ xmit.flatten.length := by
  have hlen := congrArg length (flatten_split h.lt)
  rw [length_append, length_append] at hlen
  have hle := h.le
  have hrest := h.rest
  omega

lemma At.next (h : At xmit tail u n) (hnext : tail + 1 < xmit.length) (hu : u ≤ 0) :
    At xmit (tail + 1) (u + (xmit.getD (tail + 1) []).length) n := by
  have hrest := h.rest
  rw [drop_tail hnext, flatten_cons, length_append] at hrest
  constructor
  · exact hnext
  · omega
  · push_cast at hrest ⊢
    omega

lemma At.next_lt (h : At xmit tail u n) (hu : u < n) : tail + 1 < xmit.length := by
  by_contra hlast
  have hrest := h.rest
  rw [drop_eq_nil_of_le (by omega)] at hrest
  rw [flatten_nil, length_nil] at hrest
  omega

lemma pretend_at (h : At xmit tail u n) :
    At xmit (pretend (xmit.drop (tail + 1)) tail u).1 (pretend (xmit.drop (tail + 1)) tail u).2 n ∧
      0 ≤ (pretend (xmit.drop (tail + 1)) tail u).2 := by
  induction hrest : xmit.drop (tail + 1) generalizing tail u with
  | nil =>
    have hn := h.rest
    rw [hrest, flatten_nil, length_nil] at hn
    exact ⟨h, by change 0 ≤ u; omega⟩
  | cons mp rest ih =>
    have hlt : tail + 1 < xmit.length := by
      by_contra hlast
      rw [drop_eq_nil_of_le (by omega)] at hrest
      cases hrest
    have hcons := drop_tail hlt
    rw [hrest, cons.injEq] at hcons
    unfold pretend
    split_ifs with hu
    · rw [hcons.1]
      exact ih (h.next hlt hu.le) hcons.2.symm
    · exact ⟨h, not_lt.mp hu⟩

end Places

section Dup

variable {sendall : Bool} {max : Nat} {dup : Nat → Bool}

/-- What `tcp_xmit_mp` has put together: the first `m` bytes, and how much of the last block is left. -/
structure Dups (mp l : List Bytes) (m : Nat) : Prop where
  bytes : l.flatten = mp.flatten.take m
  count : msgdsize l = m
  le : m ≤ mp.flatten.length
  last : l ≠ [] → l.length ≤ mp.length ∧ (l.getLastD []).length ≤ (mp.getD (l.length - 1) []).length ∧
    ((mp.getD (l.length - 1) []).length : Int) - (l.getLastD []).length + (mp.drop l.length).flatten.length =
      mp.flatten.length - m

lemma Dups.nil (mp : List Bytes) : Dups mp [] 0 :=
  ⟨by simp, rfl, Nat.zero_le _, fun h => absurd rfl h⟩

lemma msgdsize_cons (b : Bytes) (l : List Bytes) : msgdsize (b :: l) = b.length + msgdsize l := rfl

lemma msgdsize_eq (l : List Bytes) : msgdsize l = l.flatten.length := by
  unfold msgdsize
  rw [List.length_flatten]

lemma Dups.cons {b : Bytes} {mp l : List Bytes} {m : Nat} (h : Dups mp l m) :
    Dups (b :: mp) (b :: l) (b.length + m) := by
  constructor
  · rw [flatten_cons, flatten_cons, h.bytes, take_length_add_append]
  · rw [msgdsize_cons, h.count]
  · rw [flatten_cons, length_append]
    have hle := h.le
    omega
  · intro _
    by_cases hl : l = []
    · subst hl
      have hm : m = 0 := by
        have hcount := h.count
        exact hcount.symm
      subst hm
      refine ⟨succ_le_succ (zero_le _), le_rfl, ?_⟩
      change (b.length : Int) - b.length + mp.flatten.length = (b :: mp).flatten.length - (b.length + 0 : Nat)
      rw [flatten_cons, length_append]
      omega
    · obtain ⟨hlen, hlast, hrest⟩ := h.last hl
      have hpos : 0 < l.length := length_pos_iff.mpr hl
      have hidx : (b :: l).length - 1 = (l.length - 1) + 1 := by
        rw [length_cons]
        omega
      have hgetLast : (b :: l).getLastD [] = l.getLastD [] := by
        cases l with
        | nil => exact absurd rfl hl
        | cons c l => rfl
      rw [hidx, getD_cons_succ, hgetLast]
      refine ⟨succ_le_succ hlen, hlast, ?_⟩
      rw [length_cons, drop_succ_cons, hrest, flatten_cons, length_append]
      omega

lemma Dups.single {b : Bytes} {mp : List Bytes} {m : Nat} (h : m ≤ b.length) : Dups (b :: mp) [b.take m] m := by
  have hlen : (b.take m).length = m := length_take_of_le h
  constructor
  · rw [flatten_cons, flatten_nil, append_nil, flatten_cons, take_append_of_le_length h]
  · rw [msgdsize_eq, flatten_cons, flatten_nil, append_nil, hlen]
  · rw [flatten_cons, length_append]
    omega
  · intro _
    refine ⟨succ_le_succ (zero_le _), ?_, ?_⟩
    · change (b.take m).length ≤ b.length
      omega
    · change (b.length : Int) - (b.take m).length + mp.flatten.length = (b :: mp).flatten.length - m
      rw [hlen, flatten_cons, length_append]
      omega

lemma dupData_dups {k n : Nat} {mp l : List Bytes} (h : dupData sendall max dup k n mp = some l) (hn : n ≤ max) :
    ∃ m, Dups mp l m ∧ n + m ≤ max ∧ (mp ≠ [] → n ≠ max → k = 0 → l ≠ []) := by
  induction mp generalizing k n l with
  | nil =>
    obtain rfl : [] = l := some_inj.mp h
    exact ⟨0, Dups.nil [], hn, fun hne => absurd rfl hne⟩
  | cons b mp ih =>
    unfold dupData at h
    by_cases hfull : n = max
    · rw [if_pos hfull] at h
      obtain rfl : [] = l := some_inj.mp h
      exact ⟨0, Dups.nil _, hn, fun _ hne => absurd hfull hne⟩
    rw [if_neg hfull] at h
    by_cases hstop : k ≠ 0 ∧ sendall = false ∧ max < n + b.length
    · rw [if_pos hstop] at h
      obtain rfl : [] = l := some_inj.mp h
      exact ⟨0, Dups.nil _, hn, fun _ _ hk => absurd hk hstop.1⟩
    rw [if_neg hstop] at h
    by_cases hmem : dup k = false
    · rw [if_pos hmem] at h
      cases h
    rw [if_neg hmem] at h
    by_cases hmore : max < n + b.length
    · rw [if_pos hmore] at h
      have hm : b.length - (n + b.length - max) = max - n := by omega
      rw [hm] at h
      obtain rfl : [b.take (max - n)] = l := some_inj.mp h
      exact ⟨max - n, Dups.single (by omega), by omega, fun _ _ _ => cons_ne_nil _ _⟩
    · rw [if_neg hmore] at h
      obtain ⟨l', hl', rfl⟩ := map_eq_some_iff.mp h
      obtain ⟨m, hdups, hle, -⟩ := ih hl' (by omega)
      exact ⟨b.length + m, hdups.cons, by omega, fun _ _ _ => cons_ne_nil _ _⟩

/-- What `tcp_xmit_mp` makes of `mp`: a segment with `m` of its bytes, and with the FIN when these are the last. -/
structure XmitMp (t : Sender) (mp : List Bytes) (max : Nat) (first : Seq) (l : List Bytes) (seg : TxSegment) (t' : Sender)
    (m : Nat) : Prop where
  dups : Dups mp l m
  le : m ≤ max
  some : mp ≠ [] → 0 ≠ max → l ≠ []
  seq : seg.seq = first
  data : seg.data = mp.flatten.take m
  ipLength : seg.ipLength = BitVec.ofNat 16 (m + t.hdrLen)
  fin : seg.fin = true ↔ (t.fssValid = true ∧ first + BitVec.ofNat 32 m = t.fss) ∧ t.finAcked = false
  conn : t' = if (t.fssValid = true ∧ first + BitVec.ofNat 32 m = t.fss) ∧ t.finSent = false then finGoesOut t else t

lemma XmitMp.length {t t' : Sender} {mp l : List Bytes} {first : Seq} {seg : TxSegment} {m : Nat}
    (h : XmitMp t mp max first l seg t' m) : seg.data.length = m := by
  rw [h.data, length_take_of_le h.dups.le]

lemma tcpXmitMp_spec {t t' : Sender} {turn : Turn} {mp l : List Bytes} {seq : Seq} {seg : TxSegment}
    (h : tcpXmitMp t turn mp max seq sendall = some (l, seg, t')) : ∃ m, XmitMp t mp max seq l seg t' m := by
  unfold tcpXmitMp at h
  by_cases hhdr : turn.hdr = false
  · rw [if_pos hhdr] at h
    cases h
  rw [if_neg hhdr] at h
  cases hdup : dupData sendall max turn.dup 0 0 mp with
  | none =>
    rw [hdup] at h
    cases h
  | some l' =>
    rw [hdup] at h
    dsimp only at h
    obtain ⟨m, hdups, hle, hsome⟩ := dupData_dups hdup (zero_le max)
    rw [hdups.count] at h
    obtain ⟨rfl, rfl, rfl⟩ := h
    exact ⟨m, {
      dups := hdups
      le := by omega
      some := fun hne hmax => hsome hne hmax rfl
      seq := rfl
      data := hdups.bytes
      ipLength := rfl
      fin := decide_eq_true_iff
      conn := rfl }⟩

end Dup

section Turns

variable {xmit : List Bytes} {tail n : Nat} {u : Int}

lemma At.sub {len : Nat} (h : At xmit tail u n) (hlen : len ≤ n) : At xmit tail (u - len) (n - len) := by
  have hrest := h.rest
  have hle := h.le
  constructor
  · exact h.lt
  · omega
  · omega

lemma tackOn_at {dup : Nat → Bool} {k : Nat} {l : List Bytes} {len : Int} (h : At xmit tail u n)
    (hlen : (l.flatten.length : Int) - u = len) :
    At xmit (tackOn dup (xmit.drop (tail + 1)) k tail u l).2.1 (tackOn dup (xmit.drop (tail + 1)) k tail u l).2.2.1 n ∧
      ((tackOn dup (xmit.drop (tail + 1)) k tail u l).1 = true →
        (tackOn dup (xmit.drop (tail + 1)) k tail u l).2.2.2.flatten ++
            (xmit.drop ((tackOn dup (xmit.drop (tail + 1)) k tail u l).2.1 + 1)).flatten =
          l.flatten ++ (xmit.drop (tail + 1)).flatten ∧
        ((tackOn dup (xmit.drop (tail + 1)) k tail u l).2.2.2.flatten.length : Int) -
          (tackOn dup (xmit.drop (tail + 1)) k tail u l).2.2.1 = len) := by
  induction hrest : xmit.drop (tail + 1) generalizing tail u k l with
  | nil =>
    refine ⟨h, fun _ => ⟨?_, hlen⟩⟩
    change l.flatten ++ (xmit.drop (tail + 1)).flatten = _
    rw [hrest]
  | cons mp rest ih =>
    have hlt : tail + 1 < xmit.length := by
      by_contra hlast
      rw [drop_eq_nil_of_le (by omega)] at hrest
      cases hrest
    have hcons := drop_tail hlt
    rw [hrest, cons.injEq] at hcons
    unfold tackOn
    by_cases hfits : u < 0 ∧ u + mp.length ≤ 0
    · rw [if_pos hfits]
      have hnext := h.next hlt hfits.1.le
      rw [← hcons.1] at hnext
      by_cases hmem : dup k = false
      · rw [if_pos hmem]
        exact ⟨hnext, fun hf => absurd hf Bool.false_ne_true⟩
      rw [if_neg hmem]
      have hl' : (((l ++ [mp]).flatten.length : Nat) : Int) - (u + mp.length) = len := by
        rw [flatten_append, flatten_cons, flatten_nil, append_nil, length_append]
        omega
      have hturn := ih (k := k + 1) hnext hl' hcons.2.symm
      rw [flatten_append, flatten_cons, flatten_nil, append_nil, append_assoc] at hturn
      exact hturn
    · rw [if_neg hfits]
      refine ⟨h, fun _ => ⟨?_, hlen⟩⟩
      rw [hrest]

def Sender.unsentBytes (t : Sender) : Bytes := t.xmit.flatten.drop (t.xmit.flatten.length - t.unsent)

/-- A segment of new data: it has the bytes of its sequence number, and the FIN goes with the last byte. -/
structure NewSegment (t : Sender) (seg : TxSegment) (x : Nat) : Prop where
  lt : x < t.unsent
  seq : seg.seq = t.snxt + BitVec.ofNat 32 x
  le : x + seg.data.length ≤ t.unsent
  data : seg.data = (t.unsentBytes.drop x).take seg.data.length
  ipLength : seg.ipLength = BitVec.ofNat 16 (seg.data.length + t.hdrLen)
  fin : seg.fin = true ↔ t.fssValid = true ∧ t.finAcked = false ∧ x + seg.data.length = t.unsent

/-- The loop with `m` bytes of those of `t` sent; the place may still be one with a negative number of bytes. -/
structure Slow.Sent (t : Sender) (m : Nat) (s : Slow) : Prop where
  same : ∃ lastSentLen finSent state, s.t = { t with lastSentLen, finSent, state }
  snxt : s.snxt = t.snxt + BitVec.ofNat 32 m
  tail : At t.xmit s.xmitTail s.tailUnsent (t.unsent - m)
  le : m ≤ t.unsent
  room : (m : Int) + s.usable ≤ t.unsent
  fin : s.t.finSent = true ↔ t.finSent = true ∨ t.fssValid = true ∧ 0 < m ∧ m = t.unsent
  out : ∀ seg ∈ s.out, ∃ x, NewSegment t seg x
  withFin : t.fssValid = true → 0 < m → m = t.unsent → ∃ seg ∈ s.out, seg.data ≠ [] ∧
    ∃ x, NewSegment t seg x ∧ x + seg.data.length = t.unsent

variable {t : Sender} {s : Slow} {m len : Nat} {turn : Turn}

section

variable (h : s.Sent t m)

include h

lemma Slow.Sent.xmit_eq : s.t.xmit = t.xmit := by
  obtain ⟨_, _, _, hst⟩ := h.same
  rw [hst]

lemma Slow.Sent.hdrLen_eq : s.t.hdrLen = t.hdrLen := by
  obtain ⟨_, _, _, hst⟩ := h.same
  rw [hst]

lemma Slow.Sent.outOfMem : (outOfMem s).Sent t m ∧ 0 ≤ (outOfMem s).tailUnsent := by
  obtain ⟨htail, hnonneg⟩ := pretend_at h.tail
  unfold Tcp.outOfMem
  rw [h.xmit_eq]
  exact ⟨⟨h.same, h.snxt, htail, h.le, h.room, h.fin, h.out, h.withFin⟩, hnonneg⟩

lemma Slow.Sent.bytes (hall : t.unsent ≤ t.xmit.flatten.length) (hu : 0 ≤ s.tailUnsent) :
    t.unsentBytes.drop m = (t.xmit.getD s.xmitTail []).drop ((t.xmit.getD s.xmitTail []).length - s.tailUnsent.toNat) ++
      (t.xmit.drop (s.xmitTail + 1)).flatten := by
  have hle := h.le
  have hsum : t.xmit.flatten.length - t.unsent + m = t.xmit.flatten.length - (t.unsent - m) := by omega
  rw [← h.tail.bytes hu, Sender.unsentBytes, drop_drop, hsum]

lemma Slow.Sent.first (hall : t.unsent ≤ t.xmit.flatten.length) (hu : 0 ≤ s.tailUnsent)
    (hmore : m < t.unsent) :
    ∃ tail here, (if s.tailUnsent ≠ 0 then s.xmitTail else s.xmitTail + 1) = tail ∧
      (if s.tailUnsent ≠ 0 then s.tailUnsent.toNat else (t.xmit.getD tail []).length) = here ∧
      At t.xmit tail here (t.unsent - m) ∧
      t.unsentBytes.drop m = (t.xmit.getD tail []).drop ((t.xmit.getD tail []).length - here) ++
        (t.xmit.drop (tail + 1)).flatten := by
  by_cases h0 : s.tailUnsent = 0
  · rw [if_neg (not_not.mpr h0)]
    have hlt : s.xmitTail + 1 < t.xmit.length := h.tail.next_lt (by omega)
    refine ⟨_, _, rfl, rfl, ?_, ?_⟩
    · rw [if_neg (not_not.mpr h0)]
      have hnext := h.tail.next hlt h0.le
      rw [h0, zero_add] at hnext
      exact hnext
    · rw [if_neg (not_not.mpr h0), h.bytes hall hu, h0, Nat.sub_self, drop_zero, toNat_zero, Nat.sub_zero,
        drop_length, nil_append, drop_tail hlt, flatten_cons]
  · rw [if_pos h0]
    refine ⟨_, _, rfl, rfl, ?_, ?_⟩
    · rw [if_pos h0, toNat_of_nonneg hu]
      exact h.tail
    · rw [if_pos h0]
      exact h.bytes hall hu

lemma Slow.Sent.moves (hno : t.fssValid = false) {k : Nat} (hk : m + k ≤ t.unsent) {s' : Slow}
    (ht : s'.t = { s.t with lastSentLen := s'.t.lastSentLen }) (hsnxt : s'.snxt = s.snxt + BitVec.ofNat 32 k)
    (hat : At t.xmit s'.xmitTail s'.tailUnsent (t.unsent - m - k)) (husable : s'.usable = s.usable - k)
    (hout : ∀ seg ∈ s'.out, seg ∈ s.out ∨ ∃ x, NewSegment t seg x) : s'.Sent t (m + k) := by
  have hroom := h.room
  have hfinSent : s'.t.finSent = s.t.finSent := by rw [ht]
  have hnoFin (n : Nat) : ¬(t.fssValid = true ∧ 0 < n ∧ n = t.unsent) := by
    rw [hno]
    exact fun hf => Bool.false_ne_true hf.1
  constructor
  · obtain ⟨_, finSent, state, hst⟩ := h.same
    refine ⟨s'.t.lastSentLen, finSent, state, ?_⟩
    rw [ht, hst]
  · rw [hsnxt, h.snxt, BitVec.ofNat_add, BitVec.add_assoc]
  · rw [← Nat.sub_sub]
    exact hat
  · exact hk
  · rw [husable]
    omega
  · rw [hfinSent, h.fin, or_iff_left (hnoFin m), or_iff_left (hnoFin (m + k))]
  · intro seg hseg
    rcases hout seg hseg with hold | hnew
    · exact h.out seg hold
    · exact hnew
  · intro hf
    rw [hno] at hf
    exact absurd hf Bool.false_ne_true

lemma plainTurn_sent (hall : t.unsent ≤ t.xmit.flatten.length) (hu : 0 ≤ s.tailUnsent)
    (hno : t.fssValid = false) (hpos : 0 < len) (hle : (len : Int) ≤ s.usable) :
    ∃ m', (plainTurn turn len s).2.Sent t m' ∧ 0 ≤ (plainTurn turn len s).2.tailUnsent := by
  have hroom := h.room
  have hxmit := h.xmit_eq.symm
  have hhdr := h.hdrLen_eq.symm
  obtain ⟨tail, here, htail, hhere, hat, hbytes⟩ := h.first hall hu (by omega)
  have hsub : At t.xmit tail (here - len) (t.unsent - m - len) := hat.sub (by omega)
  have hfirst : ([(t.xmit.getD tail []).drop ((t.xmit.getD tail []).length - here)].flatten.length : Int) -
      (here - len) = len := by
    have hin := hat.le
    rw [flatten_cons, flatten_nil, append_nil, length_drop]
    omega
  obtain ⟨hat', hdone⟩ := @tackOn_at _ _ _ _ turn.dup 1 _ _ hsub hfirst
  rw [hxmit] at hhere hat' hdone hbytes
  unfold plainTurn
  dsimp only
  rw [htail, hhere]
  by_cases hdup : turn.dup 0 = false
  · rw [if_pos hdup]
    refine ⟨m + len, Slow.Sent.outOfMem ?_⟩
    exact h.moves hno (by omega) rfl rfl hsub rfl fun seg hseg => .inl hseg
  rw [if_neg hdup]
  by_cases hhead : (here ≠ (s.t.xmit.getD tail []).length ∨ turn.room = false) ∧ turn.hdr = false
  · rw [if_pos hhead]
    refine ⟨m + len, Slow.Sent.outOfMem ?_⟩
    exact h.moves hno (by omega) rfl rfl hsub rfl fun seg hseg => .inl hseg
  rw [if_neg hhead]
  set r := tackOn turn.dup (s.t.xmit.drop (tail + 1)) 1 tail (here - len)
    [(s.t.xmit.getD tail []).drop ((s.t.xmit.getD tail []).length - here)]
  rw [← hxmit] at hat'
  by_cases hmem : r.1 = false
  · rw [if_pos hmem]
    refine ⟨m + len, Slow.Sent.outOfMem ?_⟩
    exact h.moves hno (by omega) rfl rfl hat' rfl fun seg hseg => .inl hseg
  rw [if_neg hmem]
  obtain ⟨hflat, hlen⟩ := hdone (by rw [← Bool.not_eq_false]; exact hmem)
  rw [flatten_cons, flatten_nil, append_nil, ← hbytes] at hflat
  have hnew (k : Nat) (hk : k ≤ r.2.2.2.flatten.length) (hkm : m + k ≤ t.unsent) (ip : BitVec 16)
      (hip : ip = BitVec.ofNat 16 (k + t.hdrLen)) (psh : Bool) :
      NewSegment t ⟨s.snxt, r.2.2.2.flatten.take k, ip, psh, false, none⟩ m := by
    have hk' : (r.2.2.2.flatten.take k).length = k := length_take_of_le hk
    constructor
    · omega
    · exact h.snxt
    · rw [hk']
      exact hkm
    · rw [hk', ← hflat, take_append_of_le_length hk]
    · rw [hk']
      exact hip
    · rw [hno]
      exact iff_of_false Bool.false_ne_true fun hf => Bool.false_ne_true hf.1
  have hend := hat'.rest
  by_cases hshort : r.2.2.1 < 0
  · -- the next block would have to be split
    rw [if_pos hshort, if_pos hshort, toNat_of_nonpos hshort.le, Nat.sub_zero]
    have hall' : r.2.2.2.flatten.length = (len + r.2.2.1 : Int) := by omega
    refine ⟨m + r.2.2.2.flatten.length, h.moves hno (by omega) rfl ?_ ?_ ?_ ?_, le_rfl⟩
    · change s.snxt + BitVec.ofNat 32 len + BitVec.ofInt 32 r.2.2.1 = _
      rw [← BitVec.ofInt_natCast, ← BitVec.ofInt_natCast, hall', BitVec.ofInt_add, BitVec.add_assoc]
    · constructor
      · exact hat'.lt
      · exact natCast_nonneg _
      · change (0 : Int) + ((t.xmit.drop (r.2.1 + 1)).flatten.length : Int) = _
        omega
    · change s.usable - len - r.2.2.1 = _
      omega
    · refine forall_mem_append.mpr ⟨fun _ hold => .inl hold, fun seg hlast => ?_⟩
      right
      rw [mem_singleton.mp hlast]
      refine ⟨m, hnew _ le_rfl (by omega) _ ?_ _⟩
      rw [hhdr, ← BitVec.ofInt_natCast]
      congr 1
      omega
  · rw [if_neg hshort, if_neg hshort]
    refine ⟨m + len, h.moves hno (by omega) rfl ?_ hat' ?_ ?_, not_lt.mp hshort⟩
    · change s.snxt + BitVec.ofNat 32 len + BitVec.ofInt 32 0 = _
      have hzero : BitVec.ofInt 32 0 = 0#32 := rfl
      rw [hzero, BitVec.add_zero]
    · change s.usable - len - 0 = _
      omega
    · refine forall_mem_append.mpr ⟨fun _ hold => .inl hold, fun seg hlast => ?_⟩
      right
      rw [mem_singleton.mp hlast]
      have htake : r.2.2.2.flatten.length - r.2.2.1.toNat = len := by omega
      rw [htake]
      refine ⟨m, hnew _ (by omega) (by omega) _ ?_ _⟩
      rw [hhdr, ← BitVec.ofInt_natCast, add_zero]
      rfl

end

/-- The FIN of `t` comes behind the unsent bytes. -/
structure Sender.FinBehind (t : Sender) : Prop where
  fss : t.fssValid = true → t.fss = t.snxt + BitVec.ofNat 32 t.unsent
  notSent : t.finSent = false
  small : t.unsent < 2 ^ 31

lemma Sender.FinBehind.at_fin {k : Nat} (hf : t.FinBehind) (hfss : t.fssValid = true) (hk : k ≤ t.unsent) :
    t.snxt + BitVec.ofNat 32 k = t.fss ↔ k = t.unsent := by
  have hsmall := hf.small
  rw [hf.fss hfss, BitVec.add_right_inj]
  constructor
  · intro heq
    have hnat := congrArg BitVec.toNat heq
    rw [BitVec.toNat_ofNat, BitVec.toNat_ofNat] at hnat
    omega
  · intro heq
    rw [heq]

lemma length_getD_le (xmit : List Bytes) (tail j k : Nat) :
    (((xmit.getD tail []).drop ((xmit.getD tail []).length - k) :: xmit.drop (tail + 1)).getD j []).length ≤
      (xmit.getD (tail + j) []).length := by
  cases j with
  | zero =>
    change ((xmit.getD tail []).drop _).length ≤ (xmit.getD tail []).length
    rw [length_drop]
    exact sub_le _ _
  | succ j =>
    have hidx : tail + (j + 1) = tail + 1 + j := by omega
    rw [getD_cons_succ, getD_eq_getElem?_getD, getElem?_drop, ← getD_eq_getElem?_getD, hidx]

lemma validTurn_sent (h : s.Sent t m) (hall : t.unsent ≤ t.xmit.flatten.length) (hu : 0 ≤ s.tailUnsent)
    (hf : t.FinBehind) (hpos : 0 < len) (hle : (len : Int) ≤ s.usable) :
    ∃ m', (validTurn turn len s).2.Sent t m' ∧ 0 ≤ (validTurn turn len s).2.tailUnsent := by
  have hroom := h.room
  have hxmit := h.xmit_eq.symm
  have hbytes := h.bytes hall hu
  rw [hxmit] at hbytes
  unfold validTurn
  dsimp only
  cases hcall : tcpXmitMp s.t turn ((s.t.xmit.getD s.xmitTail []).drop
      ((s.t.xmit.getD s.xmitTail []).length - s.tailUnsent.toNat) :: s.t.xmit.drop (s.xmitTail + 1)) len s.snxt false with
  | none =>
    refine ⟨m, Slow.Sent.outOfMem ?_⟩
    exact ⟨h.same, h.snxt, h.tail, h.le, by change (m : Int) + (s.usable - len) ≤ _; omega, h.fin, h.out, h.withFin⟩
  | some r =>
    obtain ⟨l, seg, t'⟩ := r
    obtain ⟨k, hk⟩ := tcpXmitMp_spec hcall
    obtain ⟨lastSentLen, finSent, state, hst⟩ := h.same
    have hk_le := hk.le
    have hle_all := hk.dups.le
    have hlen := hk.length
    have hsome : l ≠ [] := hk.some (cons_ne_nil _ _) (by omega)
    obtain ⟨hcount, hlast, hrest⟩ := hk.dups.last hsome
    -- the bytes
    rw [flatten_cons, ← hbytes] at hle_all hrest
    have hdata := hk.data
    rw [flatten_cons, ← hbytes] at hdata
    have hunsent : (t.unsentBytes.drop m).length = t.unsent - m := by
      unfold Sender.unsentBytes
      rw [length_drop, length_drop]
      omega
    -- the FIN
    have hseq : s.snxt + BitVec.ofNat 32 k = t.snxt + BitVec.ofNat 32 (m + k) := by
      rw [h.snxt, BitVec.ofNat_add, BitVec.add_assoc]
    have hatFin : s.t.fssValid = true ∧ s.snxt + BitVec.ofNat 32 k = s.t.fss ↔
        t.fssValid = true ∧ m + k = t.unsent := by
      rw [hst, hseq]
      exact and_congr_right fun hfss => hf.at_fin hfss (by omega)
    have hnotSent : s.t.finSent = false := by
      rw [← Bool.not_eq_true, h.fin, hf.notSent]
      rintro (hfalse | ⟨-, -, hm⟩)
      · exact Bool.false_ne_true hfalse
      · omega
    have hnew : NewSegment t seg m := by
      constructor
      · omega
      · rw [hk.seq, h.snxt]
      · omega
      · rw [hlen]
        exact hdata
      · rw [hlen, hk.ipLength, h.hdrLen_eq]
      · rw [hk.fin, hatFin, hlen, hst]
        tauto
    have hconn := hk.conn
    rw [hnotSent] at hconn
    have hfin' : t'.finSent = true ↔ t.fssValid = true ∧ m + k = t.unsent := by
      rw [hconn, ← hatFin]
      split_ifs with hat
      · exact iff_of_true rfl hat.1
      · rw [hnotSent]
        exact iff_of_false Bool.false_ne_true fun hno => hat ⟨hno, rfl⟩
    refine ⟨m + k, ⟨?_, ?_, ?_, ?_, ?_, ?_, ?_, ?_⟩, ?_⟩
    · rw [hconn, hst]
      split_ifs
      · exact ⟨_, _, _, rfl⟩
      · exact ⟨_, _, _, rfl⟩
    · change s.snxt + BitVec.ofNat 32 (msgdsize l) = _
      rw [hk.dups.count]
      exact hseq
    · obtain ⟨j, hj⟩ : ∃ j, l.length = j + 1 :=
        Nat.exists_eq_succ_of_ne_zero (length_pos_iff.mpr hsome).ne'
      rw [length_cons, length_drop, hj] at hcount
      rw [hj, Nat.add_sub_cancel] at hlast hrest
      rw [drop_succ_cons, drop_drop] at hrest
      change At t.xmit (s.xmitTail + (l.length - 1)) (_ - ((l.getLastD []).length : Int)) _
      rw [hj, Nat.add_sub_cancel]
      have hlt := h.tail.lt
      rw [hxmit] at hlt
      constructor
      · rw [hxmit]
        omega
      · have hblock := length_getD_le s.t.xmit s.xmitTail j s.tailUnsent.toNat
        rw [hxmit]
        refine le_trans ?_ (Int.ofNat_le.mpr hblock)
        exact sub_le_self _ (natCast_nonneg _)
      · rw [hxmit]
        have hdrop : s.xmitTail + j + 1 = s.xmitTail + 1 + j := by omega
        rw [hdrop]
        refine hrest.trans ?_
        omega
    · omega
    · change ((m + k : Nat) : Int) + (s.usable - len) ≤ _
      omega
    · change t'.finSent = true ↔ _
      rw [hfin', hf.notSent]
      constructor
      · rintro ⟨hfss, hend⟩
        exact .inr ⟨hfss, by omega, hend⟩
      · rintro (hfalse | ⟨hfss, -, hend⟩)
        · exact absurd hfalse Bool.false_ne_true
        · exact ⟨hfss, hend⟩
    · exact forall_mem_append.mpr ⟨h.out, forall_mem_singleton.mpr ⟨m, hnew⟩⟩
    · intro _ _ hend
      refine ⟨seg, mem_append_right _ mem_cons_self, ?_, m, hnew, ?_⟩
      · intro hnil
        rw [hnil] at hlen
        change 0 = k at hlen
        omega
      · rw [hlen]
        exact hend
    · exact sub_nonneg_of_le (by exact_mod_cast hlast)

end Turns

section Whole

variable {t t' : Sender} {s : Slow} {m : Nat} {turns : Nat → Turn} {segs : List TxSegment}

structure Sender.Listed (t : Sender) : Prop where
  tail : t.xmit ≠ [] → At t.xmit t.xmitTail t.tailUnsent t.unsent
  last : t.xmit ≠ [] → t.xmitLast + 1 = t.xmit.length
  nonneg : 0 ≤ t.tailUnsent
  none : t.xmit = [] → t.unsent = 0 ∧ t.tailUnsent = 0

lemma Sender.Listed.le_length (h : t.Listed) : t.unsent ≤ t.xmit.flatten.length := by
  by_cases hnil : t.xmit = []
  · rw [(h.none hnil).1]
    exact zero_le _
  · exact (h.tail hnil).le_length

lemma slowLoop_sent {fuel : Nat} (h : s.Sent t m) (hall : t.unsent ≤ t.xmit.flatten.length) (hu : 0 ≤ s.tailUnsent)
    (hf : 0 < t.unsent → t.FinBehind) :
    ∃ m', (slowLoop turns fuel s).Sent t m' ∧ 0 ≤ (slowLoop turns fuel s).tailUnsent := by
  induction fuel generalizing s m with
  | zero => exact ⟨m, h, hu⟩
  | succ fuel ih =>
    unfold slowLoop
    set len : Int := if (s.t.mss : Int) > s.usable then s.usable else s.t.mss with hlen
    by_cases hwaits : (s.t.mss : Int) > s.usable ∧ (len ≤ 0 ∨ len < (s.t.maxSwnd >>> 1).toNat ∧
        (s.t.unsent : Int) - (s.snxt - s.t.snxt).toNat > len ∧ ¬(s.t.urgValid = true ∧ len = 1))
    · rw [if_pos hwaits]
      exact ⟨m, h, hu⟩
    rw [if_neg hwaits]
    have hmss := s.t.mss.property
    have hpos : 0 < len.toNat := by omega
    have hle : (len.toNat : Int) ≤ s.usable := by omega
    have hroom := h.room
    have hready := hf (by omega)
    set r := if s.t.urgValid = true ∨ s.t.fssValid = true then validTurn (turns fuel) len.toNat s
      else plainTurn (turns fuel) len.toNat s with hr
    have hturn : ∃ m', r.2.Sent t m' ∧ 0 ≤ r.2.tailUnsent := by
      by_cases hvalid : s.t.urgValid = true ∨ s.t.fssValid = true
      · rw [hr, if_pos hvalid]
        exact validTurn_sent h hall hu hready hpos hle
      have hno : t.fssValid = false := by
        obtain ⟨_, _, _, hst⟩ := h.same
        rw [hst] at hvalid
        rw [← Bool.not_eq_true]
        exact fun hfss => hvalid (.inr hfss)
      rw [hr, if_neg hvalid]
      exact plainTurn_sent h hall hu hno hpos hle
    obtain ⟨m', hsent, hnonneg⟩ := hturn
    by_cases hmore : r.1 = true
    · rw [if_pos hmore]
      exact ih hsent hnonneg
    · rw [if_neg hmore]
      exact ⟨m', hsent, hnonneg⟩

/-- What a call of `tcp_wput_slow` does: it sends `m` bytes of those that are unsent, or pretends to. -/
structure Sender.Transmits (t t' : Sender) (segs : List TxSegment) (m : Nat) : Prop where
  same : ∃ snxt unsent xmitTail tailUnsent lastSentLen finSent state,
    t' = { t with snxt, unsent, xmitTail, tailUnsent, lastSentLen, finSent, state }
  le : m ≤ t.unsent
  unsent : t'.unsent = t.unsent - m
  snxt : t'.snxt = t.snxt + BitVec.ofNat 32 m + if 0 < m ∧ t'.finSent = true then 1 else 0
  tail : t.xmit ≠ [] → At t.xmit t'.xmitTail t'.tailUnsent (t.unsent - m)
  nonneg : 0 ≤ t'.tailUnsent
  none : t.xmit = [] → t'.tailUnsent = t.tailUnsent
  fin : t'.finSent = true ↔ t.finSent = true ∨ t.fssValid = true ∧ 0 < m ∧ m = t.unsent
  out : ∀ seg ∈ segs, ∃ x, NewSegment t seg x
  withFin : t.fssValid = true → 0 < m → m = t.unsent → ∃ seg ∈ segs, seg.data ≠ [] ∧
    ∃ x, NewSegment t seg x ∧ x + seg.data.length = t.unsent

lemma slowDone_transmits (h : s.Sent t m) (hu : 0 ≤ s.tailUnsent) (hsmall : t.unsent < 2 ^ 31) (hne : t.xmit ≠ []) :
    t.Transmits (slowDone s).1 (slowDone s).2 m := by
  obtain ⟨lastSentLen, finSent, state, hst⟩ := h.same
  have hle := h.le
  have hlen : (s.t.snxt - s.snxt).toInt = -(m : Int) := by
    have hnear : Lib.Near 0 m := by
      unfold Lib.Near
      omega
    have hdiff := Lib.toInt_numberOf_sub (o := t.snxt) hnear
    rw [Lib.numberOf_zero] at hdiff
    rw [hst, h.snxt]
    exact hdiff.trans (by push_cast; omega)
  unfold slowDone
  dsimp only
  rw [hlen]
  by_cases h0 : m = 0
  · have hzero : ¬(-(m : Int)) ≠ 0 := by omega
    rw [if_neg hzero]
    constructor
    · rw [hst]
      exact ⟨_, _, _, _, _, _, _, rfl⟩
    · exact hle
    · change (-(m : Int) + s.t.unsent).toNat = _
      rw [hst]
      change (-(m : Int) + t.unsent).toNat = _
      omega
    · have hno : ¬(0 < m ∧ s.t.finSent = true) := fun hpos => absurd h0 hpos.1.ne'
      rw [if_neg hno, hst, h0]
      change t.snxt = t.snxt + 0#32 + 0#32
      rw [BitVec.add_zero, BitVec.add_zero]
    · exact fun _ => h.tail
    · exact hu
    · exact fun hnil => absurd hnil hne
    · exact h.fin
    · exact h.out
    · exact h.withFin
  · have hpos : -(m : Int) ≠ 0 := by omega
    rw [if_pos hpos]
    constructor
    · rw [hst]
      exact ⟨_, _, _, _, _, _, _, rfl⟩
    · exact hle
    · change (-(m : Int) + s.t.unsent).toNat = _
      rw [hst]
      change (-(m : Int) + t.unsent).toNat = _
      omega
    · change s.snxt + _ = _ + if 0 < m ∧ s.t.finSent = true then 1 else 0
      rw [h.snxt]
      by_cases hsent : s.t.finSent = true
      · rw [if_pos hsent, if_pos ⟨by omega, hsent⟩]
      · rw [if_neg hsent, if_neg fun hand => hsent hand.2]
    · exact fun _ => h.tail
    · exact hu
    · exact fun hnil => absurd hnil hne
    · exact h.fin
    · exact h.out
    · exact h.withFin

lemma usableBytes_le {synRcvd : Bool} {urgent : Int} (h : urgent ≤ t.unsent) :
    usableBytes t synRcvd urgent ≤ t.unsent := by
  unfold usableBytes
  dsimp only
  generalize ((if t.swnd.toNat > t.cwnd.toNat then t.cwnd else t.swnd) - t.snxt + t.suna).toInt = window
  by_cases hsyn : synRcvd = true
  · rw [if_pos hsyn]
    exact natCast_nonneg _
  rw [if_neg hsyn]
  have hmin : (if window > t.unsent then (t.unsent : Int) else window) ≤ t.unsent := by
    split
    · exact le_rfl
    · omega
  generalize (if window > t.unsent then (t.unsent : Int) else window) = usable at hmin ⊢
  split
  · exact hmin
  · exact h

theorem tcpWputSlow_transmits {synRcvd : Bool} {urgent : Int} (h : t.Listed) (hf : 0 < t.unsent → t.FinBehind)
    (hurgent : urgent ≤ t.unsent) :
    ∃ m, t.Transmits (tcpWputSlow turns t synRcvd urgent).1 (tcpWputSlow turns t synRcvd urgent).2 m := by
  have husable : usableBytes t synRcvd urgent ≤ t.unsent := usableBytes_le hurgent
  have hsmall : t.unsent < 2 ^ 31 := by
    by_cases h0 : 0 < t.unsent
    · exact (hf h0).small
    · omega
  unfold tcpWputSlow
  dsimp only
  set s : Slow := ⟨t, t.snxt, t.xmitTail, t.tailUnsent, usableBytes t synRcvd urgent, []⟩
  have hnoFin : ¬(t.fssValid = true ∧ 0 < 0 ∧ 0 = t.unsent) := fun hand => absurd hand.2.1 (lt_irrefl 0)
  by_cases hnil : t.xmit = []
  · have hzero : (usableBytes t synRcvd urgent).toNat = 0 := by
      have h0 := (h.none hnil).1
      omega
    have hsame : slowLoop turns (usableBytes t synRcvd urgent).toNat s = s := by
      rw [hzero]
      rfl
    have hdone : t.Transmits (slowDone s).1 (slowDone s).2 0 := by
      have hlen : (s.t.snxt - s.snxt).toInt = 0 := by
        rw [BitVec.sub_self, BitVec.toInt_zero]
      unfold slowDone
      dsimp only
      rw [hlen, if_neg (fun hne => hne rfl)]
      constructor
      · exact ⟨_, _, _, _, _, _, _, rfl⟩
      · exact zero_le _
      · change ((0 : Int) + t.unsent).toNat = _
        omega
      · have hno : ¬(0 < 0 ∧ t.finSent = true) := fun hand => absurd hand.1 (lt_irrefl 0)
        change t.snxt = t.snxt + 0#32 + 0#32
        rw [BitVec.add_zero, BitVec.add_zero]
      · exact fun hne => absurd hnil hne
      · exact h.nonneg
      · exact fun _ => rfl
      · exact (or_iff_left hnoFin).symm
      · exact fun seg hseg => absurd hseg not_mem_nil
      · exact fun _ hpos => absurd hpos (lt_irrefl 0)
    rw [hsame, ite_self]
    exact ⟨0, hdone⟩
  have hstart : s.Sent t 0 := by
    constructor
    · exact ⟨_, _, _, rfl⟩
    · exact (BitVec.add_zero _).symm
    · exact h.tail hnil
    · exact zero_le _
    · change ((0 : Nat) : Int) + usableBytes t synRcvd urgent ≤ _
      omega
    · exact (or_iff_left hnoFin).symm
    · exact fun seg hseg => absurd hseg not_mem_nil
    · exact fun _ hpos => absurd hpos (lt_irrefl 0)
  split_ifs
  · exact ⟨0, slowDone_transmits hstart h.nonneg hsmall hnil⟩
  · obtain ⟨m, hsent, hnonneg⟩ := slowLoop_sent hstart h.le_length h.nonneg hf
    exact ⟨m, slowDone_transmits hsent hnonneg hsmall hnil⟩

end Whole

end Solaris.Tcp
