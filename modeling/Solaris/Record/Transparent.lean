import Solaris.Record.Framing

/-!
# The reader follows the fragments

The bytes ahead of the reader, in its buffer and in the stream, are the rest of the current fragment, the other
fragments of the record and the records after it.
-/

namespace Solaris.Record

section Reader

open Lib List

variable {s s' : In} {rest bs : List Byte}

section Input

def In.ahead (s : In) : List Byte := s.unread ++ s.wire

structure SameFragment (s s' : In) : Prop where
  fbtbc : s'.fbtbc = s.fbtbc
  lastFrag : s'.lastFrag = s.lastFrag

lemma SameFragment.refl (s : In) : SameFragment s s := ⟨rfl, rfl⟩

lemma SameFragment.trans {s'' : In} (h : SameFragment s s') (h' : SameFragment s' s'') : SameFragment s s'' :=
  ⟨h'.fbtbc.trans h.fbtbc, h'.lastFrag.trans h.lastFrag⟩

lemma piece_spec (s : In) (len : Nat) (hw : s.wire.length ≠ 0) (hlen : 0 < len) :
    1 ≤ piece s len ∧ piece s len ≤ s.wire.length := by
  unfold piece
  omega

lemma fillInputBuf_spec (hempty : s.unread.length = 0) (hahead : s.ahead.length ≠ 0) (doAlign : Bool) :
    ∃ s', fillInputBuf s doAlign = some s' ∧ s'.ahead = s.ahead ∧ SameFragment s s' ∧ s'.unread.length ≠ 0 := by
  have hnil := eq_nil_of_length_eq_zero hempty
  have hw : s.wire.length ≠ 0 := by
    simpa [In.ahead, hnil] using hahead
  obtain ⟨i, hi⟩ : ∃ i, i = if doAlign = true then 0 else s.inBoundry % 4 := ⟨_, rfl⟩
  have hlen : 0 < s.inSize.size - i := by
    have := s.inSize.large
    rw [hi]
    split <;> omega
  obtain ⟨hpos, hle⟩ := piece_spec s (s.inSize.size - i) hw hlen
  obtain ⟨n, hn⟩ : ∃ n, n = piece s (s.inSize.size - i) := ⟨_, rfl⟩
  refine ⟨{ s with inFinger := i, unread := s.wire.take n, wire := s.wire.drop n, reads := s.reads + 1 }, ?_, ?_, ?_, ?_⟩
  · simp only [fillInputBuf, hw, if_false, ← hi, ← hn]
  · simp [In.ahead, hnil]
  · exact ⟨rfl, rfl⟩
  · simp only [length_take]
    omega

lemma advance_ahead (s : In) (n : Nat) : s.unread.take n ++ (s.advance n).ahead = s.ahead := by
  simp only [In.advance, In.ahead]
  rw [← append_assoc, take_append_drop]

lemma getInputLoop_spec (fuel : Nat) (len : Nat) (doAlign : Bool) (addr : List Byte) (h : s.ahead = bs ++ rest)
    (hlen : bs.length = len) (hfuel : 2 * len + (if s.unread.length = 0 then 1 else 0) ≤ fuel ∧ 1 ≤ fuel) :
    ∃ s', getInputLoop fuel s len doAlign addr = (some (addr ++ bs), s') ∧ s'.ahead = rest ∧ SameFragment s s' := by
  induction fuel generalizing s len doAlign addr bs with
  | zero => omega
  | succ fuel ih =>
    rw [getInputLoop]
    by_cases hzero : len = 0
    · rw [if_pos hzero]
      have hnil : bs = [] := eq_nil_of_length_eq_zero (hlen.trans hzero)
      subst hnil
      exact ⟨s, by simp, by simpa using h, SameFragment.refl s⟩
    rw [if_neg hzero]
    split_ifs with hempty
    · have hne : s.ahead.length ≠ 0 := by
        rw [h, length_append]
        omega
      obtain ⟨s1, hs1, hahead1, hsame1, hun1⟩ := fillInputBuf_spec hempty hne doAlign
      rw [if_pos hempty] at hfuel
      obtain ⟨s2, hs2, hahead2, hsame2⟩ := ih len doAlign addr (hahead1.trans h) hlen
        (by rw [if_neg hun1]; omega)
      exact ⟨s2, by simp only [hs1, hs2], hahead2, hsame1.trans hsame2⟩
    obtain ⟨n, hn⟩ : ∃ n, n = min len s.unread.length := ⟨_, rfl⟩
    simp only [← hn]
    have hadv := advance_ahead s n
    rw [h] at hadv
    have htake : (s.unread.take n).length = n := by
      rw [length_take]
      omega
    have hbs : s.unread.take n = bs.take n := by
      have := congrArg (take n) hadv
      rwa [take_append_of_le_length (by omega), take_append_of_le_length (by omega), take_take,
        Nat.min_self] at this
    have hahead : (s.advance n).ahead = bs.drop n ++ rest := by
      have := congrArg (drop n) hadv
      rwa [drop_append_of_le_length (by omega), drop_append_of_le_length (by omega),
        drop_eq_nil_of_le (by omega), nil_append] at this
    obtain ⟨s2, hs2, hahead2, hsame2⟩ := ih (len - n) false (addr ++ s.unread.take n) hahead
      (by rw [length_drop]; omega) (by split <;> omega)
    refine ⟨s2, ?_, hahead2, hsame2.fbtbc, hsame2.lastFrag⟩
    rw [hs2, hbs, append_assoc, take_append_drop]

lemma getInputBytes_spec (doAlign : Bool) (h : s.ahead = bs ++ rest) :
    ∃ s', getInputBytes s bs.length doAlign = (some bs, s') ∧ s'.ahead = rest ∧ SameFragment s s' := by
  have hfuel : 2 * bs.length + (if s.unread.length = 0 then 1 else 0) ≤ 2 * bs.length + 1 ∧ 1 ≤ 2 * bs.length + 1 := by
    split <;> omega
  exact getInputLoop_spec _ bs.length doAlign [] h rfl hfuel

lemma skipLoop_eq (fuel : Nat) (s : In) (cnt : Nat) (addr : List Byte) :
    skipLoop fuel s cnt = ((getInputLoop fuel s cnt false addr).1.isSome, (getInputLoop fuel s cnt false addr).2) := by
  induction fuel generalizing s cnt addr with
  | zero => rfl
  | succ fuel ih =>
    rw [skipLoop, getInputLoop]
    by_cases hzero : cnt = 0
    · simp [hzero]
    simp only [hzero, if_false]
    by_cases hempty : s.unread.length = 0
    · simp only [hempty, if_true]
      cases fillInputBuf s false with
      | none => rfl
      | some s' => exact ih s' cnt addr
    · simp only [hempty, if_false]
      exact ih _ _ _

lemma skipInputBytes_spec (h : s.ahead = bs ++ rest) :
    ∃ s', skipInputBytes s bs.length = (true, s') ∧ s'.ahead = rest ∧ SameFragment s s' := by
  obtain ⟨s', hs', hahead, hsame⟩ := getInputBytes_spec false h
  refine ⟨s', ?_, hahead, hsame⟩
  rw [getInputBytes] at hs'
  rw [skipInputBytes, skipLoop_eq _ _ _ [], hs']
  rfl

end Input

section Fragments

variable {cur data : List Byte} {o : Option Sent} {recs : List Sent}

/-- `cur` is the rest of the current fragment, and `o` are the other fragments of the record: there are none when the
current one is the last. -/
structure Reading (s : In) (cur : List Byte) (o : Option Sent) (recs : List Sent) : Prop where
  ahead : s.ahead = cur ++ ((o.map Sent.bytes).getD [] ++ recordsBytes recs)
  fbtbc : s.fbtbc = cur.length
  lastFrag : s.lastFrag = o.isNone
  small : ∀ r, o = some r ∨ r ∈ recs → r.Small

/-- `data` is what is left of the current record, and `recs` are the records after it. -/
def Left (s : In) (data : List Byte) (recs : List Sent) : Prop :=
  ∃ cur o, Reading s cur o recs ∧ cur ++ (o.map Sent.data).getD [] = data

lemma setInputFragment_spec {d : List Byte} {last : Bool} (h : s.ahead = fragBytes d last ++ rest)
    (hlt : d.length < 2 ^ 31) :
    ∃ s', setInputFragment s = (true, s') ∧ s'.ahead = d ++ rest ∧ s'.fbtbc = d.length ∧ s'.lastFrag = last := by
  rw [fragBytes, append_assoc] at h
  obtain ⟨s1, hs1, hahead, -⟩ := getInputBytes_spec s.lastFrag h
  rw [length_wordBytes] at hs1
  have hlast : decide (fragHeader d.length last &&& lastFrag ≠ 0) = last := by
    simp only [fragHeader_last hlt last, Bool.decide_eq_true]
  refine ⟨{ s1 with lastFrag := last, fbtbc := d.length }, ?_, hahead, rfl, rfl⟩
  simp only [setInputFragment, hs1, wordOf_wordBytes, fragHeader_length hlt last, hlast]

lemma Reading.fragment {r : Sent} (h : Reading s [] (some r) recs) :
    ∃ s' cur o, setInputFragment s = (true, s') ∧ Reading s' cur o recs ∧ cur ++ (o.map Sent.data).getD [] = r.data ∧
      s'.ahead.length + 4 = s.ahead.length := by
  have hsmall := h.small r (.inl rfl)
  have hahead := h.ahead
  obtain ⟨frags, last⟩ := r
  cases frags with
  | nil =>
    have hsplit : s.ahead = fragBytes last true ++ recordsBytes recs := by
      rw [hahead]
      simp [Sent.bytes, fragsBytes]
    obtain ⟨s', hs', hahead', hfb, hlast⟩ := setInputFragment_spec hsplit hsmall.last
    refine ⟨s', last, none, hs', ⟨hahead', hfb, hlast, ?_⟩, by simp [Sent.data], ?_⟩
    · rintro r' (hr' | hr')
      · cases hr'
      · exact h.small r' (.inr hr')
    · rw [hsplit, hahead']
      simp [fragBytes]
      omega
  | cons d frags =>
    have hsplit : s.ahead = fragBytes d false ++ ((Sent.mk frags last).bytes ++ recordsBytes recs) := by
      rw [hahead]
      simp [Sent.bytes, fragsBytes]
    obtain ⟨s', hs', hahead', hfb, hlast⟩ := setInputFragment_spec hsplit (hsmall.frags d (mem_cons_self ..))
    refine ⟨s', d, some ⟨frags, last⟩, hs', ⟨hahead', hfb, hlast, ?_⟩, by simp [Sent.data], ?_⟩
    · rintro r' (hr' | hr')
      · cases hr'
        exact ⟨fun x hx => hsmall.frags x (mem_cons_of_mem _ hx), hsmall.last⟩
      · exact h.small r' (.inr hr')
    · rw [hsplit, hahead']
      simp [fragBytes]
      omega

lemma Reading.advance (h : Reading s cur o recs) (n : Nat) {s' : In}
    (hahead : s'.ahead = cur.drop n ++ ((o.map Sent.bytes).getD [] ++ recordsBytes recs)) (hsame : SameFragment s s') :
    Reading { s' with fbtbc := s'.fbtbc - n } (cur.drop n) o recs := by
  refine ⟨hahead, ?_, hsame.lastFrag.trans h.lastFrag, h.small⟩
  simp only [hsame.fbtbc, h.fbtbc, length_drop]

lemma Left.getbytesLoop (fuel : Nat) (len : Nat) (addr : List Byte) (h : Left s data recs)
    (hfuel : s.ahead.length + len < fuel) :
    ∃ s', getbytesLoop fuel s len addr = (if len ≤ data.length then some (addr ++ data.take len) else none, s') ∧
      Left s' (data.drop len) recs := by
  induction fuel generalizing s len addr data with
  | zero => omega
  | succ fuel ih =>
    obtain ⟨cur, o, hr, hdata⟩ := h
    rw [Record.getbytesLoop]
    by_cases hzero : len = 0
    · subst hzero
      refine ⟨s, by simp, cur, o, hr, by simp [hdata]⟩
    rw [if_neg hzero, hr.fbtbc]
    by_cases hcur : cur.length = 0
    · have hnil := eq_nil_of_length_eq_zero hcur
      subst hnil
      rw [if_pos hcur, hr.lastFrag]
      cases o with
      | none =>
        subst hdata
        refine ⟨s, ?_, [], none, hr, by simp⟩
        simp [hzero]
      | some r =>
        obtain ⟨s1, cur1, o1, hs1, hr1, hdata1, hlen1⟩ := hr.fragment
        obtain ⟨s2, hs2, hleft⟩ := ih len addr ⟨cur1, o1, hr1, hdata1.trans hdata⟩ (by omega)
        refine ⟨s2, ?_, hleft⟩
        simp only [Option.isNone_some, Bool.false_eq_true, if_false, hs1, hs2]
    · rw [if_neg hcur]
      obtain ⟨n, hn⟩ : ∃ n, n = min len cur.length := ⟨_, rfl⟩
      simp only [← hn]
      have hsplit : s.ahead = cur.take n ++ (cur.drop n ++ ((o.map Sent.bytes).getD [] ++ recordsBytes recs)) := by
        rw [hr.ahead, ← append_assoc (cur.take n), take_append_drop]
      have htake : (cur.take n).length = n := by
        rw [length_take]
        omega
      obtain ⟨s1, hs1, hahead1, hsame1⟩ := getInputBytes_spec false hsplit
      rw [htake] at hs1
      have hfuel1 : In.ahead { s1 with fbtbc := s1.fbtbc - n } = s1.ahead := rfl
      have hahead1' : s1.ahead.length + n = s.ahead.length := by
        rw [hahead1, hsplit, @length_append _ (cur.take n), htake]
        omega
      obtain ⟨s2, hs2, hleft⟩ := ih (len - n) (addr ++ cur.take n) ⟨cur.drop n, o, hr.advance n hahead1 hsame1, rfl⟩
        (by rw [hfuel1]; omega)
      have hdrop : cur.drop n ++ (o.map Sent.data).getD [] = data.drop n := by
        rw [← hdata, drop_append_of_le_length (by omega)]
      have htaken : cur.take n = data.take n := by
        rw [← hdata, take_append_of_le_length (by omega)]
      rw [hdrop] at hs2 hleft
      have hle : (len - n ≤ (data.drop n).length) = (len ≤ data.length) := by
        have : n ≤ data.length := by
          rw [← hdata, length_append]
          omega
        rw [length_drop]
        exact propext (by omega)
      have hall : cur.take n ++ (data.drop n).take (len - n) = data.take len := by
        rw [htaken, ← take_add, Nat.add_sub_cancel' (by omega)]
      refine ⟨s2, ?_, ?_⟩
      · simp only [hs1]
        rw [hs2, append_assoc, hall]
        simp only [hle]
      · rwa [drop_drop, Nat.add_sub_cancel' (by omega)] at hleft

lemma Left.getbytes (h : Left s data recs) (len : Nat) :
    ∃ s', xdrrecGetbytes s len = (if len ≤ data.length then some (data.take len) else none, s') ∧
      Left s' (data.drop len) recs :=
  h.getbytesLoop _ len [] (by simp only [In.ahead, length_append]; omega)

lemma unread_longAligned (s : In) : (longAligned s).unread = s.unread := by
  unfold longAligned
  split <;> rfl

lemma wire_longAligned (s : In) : (longAligned s).wire = s.wire := by
  unfold longAligned
  split <;> rfl

lemma same_longAligned (s : In) : SameFragment s (longAligned s) := by
  unfold longAligned
  split <;> exact ⟨rfl, rfl⟩

lemma Left.inPlace (h : Left s data recs) {n : Nat} (hfb : n ≤ s.fbtbc) (hun : n ≤ s.unread.length) :
    n ≤ data.length ∧ (longAligned s).unread.take n = data.take n ∧ Left ((longAligned s).take n) (data.drop n) recs := by
  obtain ⟨cur, o, hr, hdata⟩ := h
  have hsame := same_longAligned s
  rw [hr.fbtbc] at hfb
  have hahead : s.unread ++ s.wire = cur ++ ((o.map Sent.bytes).getD [] ++ recordsBytes recs) := hr.ahead
  have hdrop : ((longAligned s).advance n).ahead = cur.drop n ++ ((o.map Sent.bytes).getD [] ++ recordsBytes recs) := by
    have := congrArg (drop n) hahead
    rw [drop_append_of_le_length hun, drop_append_of_le_length hfb] at this
    simp only [In.ahead, In.advance, unread_longAligned, wire_longAligned]
    exact this
  refine ⟨?_, ?_, cur.drop n, o, hr.advance n hdrop ⟨hsame.fbtbc, hsame.lastFrag⟩, ?_⟩
  · rw [← hdata, length_append]
    omega
  · have := congrArg (take n) hahead
    rw [take_append_of_le_length hun, take_append_of_le_length hfb] at this
    rw [unread_longAligned, this, ← hdata, take_append_of_le_length hfb]
  · rw [← hdata, drop_append_of_le_length hfb]

lemma wordOf_take (l : List Byte) : wordOf (l.take 4) = wordOf l := by
  match l with
  | [] => rfl
  | [_] => rfl
  | [_, _] => rfl
  | [_, _, _] => rfl
  | _ :: _ :: _ :: _ :: _ => rfl

lemma Left.getlong (h : Left s data recs) :
    ∃ s', xdrrecGetlong s = (if 4 ≤ data.length then some (wordOf (data.take 4)) else none, s') ∧
      Left s' (data.drop 4) recs := by
  unfold xdrrecGetlong
  by_cases hfast : s.fbtbc ≥ 4 ∧ s.unread.length ≥ 4
  · rw [if_pos hfast]
    obtain ⟨hlen, htake, hleft⟩ := h.inPlace hfast.1 hfast.2
    refine ⟨_, ?_, hleft⟩
    rw [if_pos hlen, ← htake, wordOf_take]
  rw [if_neg hfast]
  obtain ⟨s', hs', hleft⟩ := h.getbytes 4
  refine ⟨s', ?_, hleft⟩
  rw [hs']
  by_cases hlen : 4 ≤ data.length
  · simp only [hlen, if_true]
  · simp only [hlen, if_false]

theorem Left.inline (h : Left s data recs) (n : Nat) :
    (xdrrecInlineDecode s n = (none, s)) ∨
      ∃ s', xdrrecInlineDecode s n = (some (data.take n), s') ∧ n ≤ data.length ∧ Left s' (data.drop n) recs := by
  unfold xdrrecInlineDecode
  split_ifs with hroom
  · have hun : n ≤ s.unread.length := by
      have := hroom.2
      simp only [In.inBoundry] at this
      omega
    obtain ⟨hlen, htake, hleft⟩ := h.inPlace hroom.1 hun
    exact .inr ⟨_, by rw [htake], hlen, hleft⟩
  · exact .inl rfl

lemma Left.skiprecordLoop {r : Sent} (fuel : Nat) (h : Left s data (r :: recs)) (hfuel : s.ahead.length < fuel) :
    ∃ s', skiprecordLoop fuel s = (true, s') ∧ Left s' r.data recs := by
  induction fuel generalizing s data with
  | zero => omega
  | succ fuel ih =>
    obtain ⟨cur, o, hr, -⟩ := h
    rw [Record.skiprecordLoop]
    by_cases hmore : s.fbtbc > 0 ∨ s.lastFrag = false
    · rw [if_pos hmore]
      obtain ⟨s1, hs1, hahead1, hsame1⟩ := skipInputBytes_spec hr.ahead
      have hr1 : Reading s1.skipped [] o (r :: recs) :=
        ⟨hahead1, rfl, hsame1.lastFrag.trans hr.lastFrag, hr.small⟩
      have hlen1 : s1.skipped.ahead.length + cur.length = s.ahead.length := by
        have : s1.skipped.ahead = s1.ahead := rfl
        rw [this, hahead1, hr.ahead, @length_append _ cur]
        omega
      rw [hr.fbtbc] at hmore ⊢
      have hlast : s1.lastFrag = o.isNone := hr1.lastFrag
      rw [hs1]
      simp only [hlast]
      cases o with
      | none =>
        have hpos : 0 < cur.length := by
          rcases hmore with hpos | hfalse
          · exact hpos
          · rw [hr.lastFrag] at hfalse
            cases hfalse
        exact ih ⟨[], none, hr1, rfl⟩ (by omega)
      | some r0 =>
        obtain ⟨s2, cur2, o2, hs2, hr2, -, hlen2⟩ := hr1.fragment
        obtain ⟨s3, hs3, hleft⟩ := ih ⟨cur2, o2, hr2, rfl⟩ (by omega)
        exact ⟨s3, by simp only [Option.isNone_some, Bool.false_eq_true, if_false, hs2, hs3], hleft⟩
    · -- the record is at its end, and the next read takes the header of the next one
      rw [if_neg hmore]
      rw [not_or, hr.fbtbc, hr.lastFrag] at hmore
      have hnil : cur = [] := eq_nil_of_length_eq_zero (by omega)
      have hnone : o = none := by simpa using hmore.2
      subst hnil hnone
      refine ⟨_, rfl, [], some r, ⟨?_, hr.fbtbc, rfl, ?_⟩, by simp⟩
      · have hahead := hr.ahead
        simpa [In.ahead, recordsBytes] using hahead
      · rintro r' (hr' | hr')
        · cases hr'
          exact hr.small r (.inr (mem_cons_self ..))
        · exact hr.small r' (.inr (mem_cons_of_mem _ hr'))

lemma Left.skiprecord {r : Sent} (h : Left s data (r :: recs)) :
    ∃ s', xdrrecSkiprecord s = (true, s') ∧ Left s' r.data recs :=
  h.skiprecordLoop _ (by simp only [In.ahead, length_append]; omega)

end Fragments

end Reader

/-!
## Record marking is transparent

A reader that moves to a record and reads gets the data that was written of it, whatever calls wrote it, whatever the
sizes of the buffers and however the stream is delivered.
-/

section Transparency

open Lib List

section Calls

inductive Call where
  | skiprecord
  | getlong
  | getbytes (len : Nat)
  | inline (len : Nat)
  deriving DecidableEq

inductive Result where
  | moved (ok : Bool)
  | word (w : Option (BitVec 32))
  | bytes (bs : Option (List Byte))
  | space (bs : Option (List Byte))

def In.call (s : In) : Call → Result × In
  | .skiprecord =>
    let (ok, s) := xdrrecSkiprecord s
    (.moved ok, s)
  | .getlong =>
    let (w, s) := xdrrecGetlong s
    (.word w, s)
  | .getbytes len =>
    let (bs, s) := xdrrecGetbytes s len
    (.bytes bs, s)
  | .inline len =>
    let (bs, s) := xdrrecInlineDecode s len
    (.space bs, s)

def In.calls (s : In) : List Call → List Result
  | [] => []
  | c :: cs => (s.call c).1 :: (s.call c).2.calls cs

/-- A reader of whole records: what is left of the current one, and those after it. -/
structure Reader where
  left : List Byte
  next : List (List Byte)

/-- What a call may give and what it leaves. Space inline may always be refused. -/
inductive Gives : Reader → Call → Result → Reader → Prop
  | skiprecord {r : Reader} {d : List Byte} {ds : List (List Byte)} (h : r.next = d :: ds) :
    Gives r .skiprecord (.moved true) ⟨d, ds⟩
  | getlong {r : Reader} (h : 4 ≤ r.left.length) :
    Gives r .getlong (.word (some (wordOf (r.left.take 4)))) { r with left := r.left.drop 4 }
  | getlongPast {r : Reader} (h : r.left.length < 4) : Gives r .getlong (.word none) { r with left := [] }
  | getbytes {r : Reader} {len : Nat} (h : len ≤ r.left.length) :
    Gives r (.getbytes len) (.bytes (some (r.left.take len))) { r with left := r.left.drop len }
  | getbytesPast {r : Reader} {len : Nat} (h : r.left.length < len) :
    Gives r (.getbytes len) (.bytes none) { r with left := [] }
  | inline {r : Reader} {len : Nat} (h : len ≤ r.left.length) :
    Gives r (.inline len) (.space (some (r.left.take len))) { r with left := r.left.drop len }
  | refused {r : Reader} {len : Nat} : Gives r (.inline len) (.space none) r

inductive GivesAll : Reader → List Call → List Result → Prop
  | nil {r : Reader} : GivesAll r [] []
  | cons {r r' : Reader} {c : Call} {cs : List Call} {x : Result} {xs : List Result} :
    Gives r c x r' → GivesAll r' cs xs → GivesAll r (c :: cs) (x :: xs)

def Moves (r : Reader) (cs : List Call) : Prop := cs.count .skiprecord ≤ r.next.length

end Calls

section Simulation

variable {s : In} {r : Reader}

def At (s : In) (r : Reader) : Prop := ∃ recs : List Sent, Left s r.left recs ∧ recs.map Sent.data = r.next

lemma At.call (h : At s r) (c : Call) (hc : c = .skiprecord → r.next ≠ []) :
    ∃ r', Gives r c (s.call c).1 r' ∧ At (s.call c).2 r' ∧ (c = .skiprecord → r'.next.length + 1 = r.next.length) ∧
      (c ≠ .skiprecord → r'.next = r.next) := by
  obtain ⟨recs, hleft, hnext⟩ := h
  cases c with
  | skiprecord =>
    cases recs with
    | nil => exact absurd hnext.symm (hc rfl)
    | cons sent recs =>
      obtain ⟨s', hs', hleft'⟩ := hleft.skiprecord
      have hnext' : r.next = sent.data :: recs.map Sent.data := by simpa using hnext.symm
      refine ⟨⟨sent.data, recs.map Sent.data⟩, ?_, ?_, ?_, by simp⟩
      · simp only [In.call, hs']
        exact .skiprecord hnext'
      · simp only [In.call, hs']
        exact ⟨recs, hleft', rfl⟩
      · simp [hnext']
  | getlong =>
    obtain ⟨s', hs', hleft'⟩ := hleft.getlong
    by_cases hlen : 4 ≤ r.left.length
    · refine ⟨{ r with left := r.left.drop 4 }, ?_, ?_, by simp, by simp⟩
      · simp only [In.call, hs', hlen, if_true]
        exact .getlong hlen
      · simp only [In.call, hs']
        exact ⟨recs, hleft', hnext⟩
    rw [drop_eq_nil_of_le (by omega)] at hleft'
    refine ⟨{ r with left := [] }, ?_, ?_, by simp, by simp⟩
    · simp only [In.call, hs', hlen, if_false]
      exact .getlongPast (by omega)
    · simp only [In.call, hs']
      exact ⟨recs, hleft', hnext⟩
  | getbytes len =>
    obtain ⟨s', hs', hleft'⟩ := hleft.getbytes len
    by_cases hlen : len ≤ r.left.length
    · refine ⟨{ r with left := r.left.drop len }, ?_, ?_, by simp, by simp⟩
      · simp only [In.call, hs', hlen, if_true]
        exact .getbytes hlen
      · simp only [In.call, hs']
        exact ⟨recs, hleft', hnext⟩
    rw [drop_eq_nil_of_le (by omega)] at hleft'
    refine ⟨{ r with left := [] }, ?_, ?_, by simp, by simp⟩
    · simp only [In.call, hs', hlen, if_false]
      exact .getbytesPast (by omega)
    · simp only [In.call, hs']
      exact ⟨recs, hleft', hnext⟩
  | inline len =>
    rcases hleft.inline len with hs' | ⟨s', hs', hlen, hleft'⟩
    · refine ⟨r, ?_, ?_, by simp, by simp⟩
      · simp only [In.call, hs']
        exact .refused
      · simp only [In.call, hs']
        exact ⟨recs, hleft, hnext⟩
    · refine ⟨{ r with left := r.left.drop len }, ?_, ?_, by simp, by simp⟩
      · simp only [In.call, hs']
        exact .inline hlen
      · simp only [In.call, hs']
        exact ⟨recs, hleft', hnext⟩

lemma At.calls (cs : List Call) (h : At s r) (hm : Moves r cs) : GivesAll r cs (s.calls cs) := by
  induction cs generalizing s r with
  | nil => exact .nil
  | cons c cs ih =>
    have hc : c = .skiprecord → r.next ≠ [] := by
      rintro rfl hnil
      simp [Moves, hnil] at hm
    obtain ⟨r', hgives, hat, hskip, hother⟩ := h.call c hc
    refine .cons hgives (ih hat ?_)
    unfold Moves at hm ⊢
    by_cases hcs : c = .skiprecord
    · have hlen := hskip hcs
      subst hcs
      rw [count_cons_self] at hm
      omega
    · rw [count_cons_of_ne hcs] at hm
      rw [hother hcs]
      exact hm

lemma at_create (recvsize : BufSize) (pieces : Nat → Nat) {recs : List Sent} (hsmall : ∀ r ∈ recs, r.Small) :
    At (createIn recvsize (recordsBytes recs) pieces) ⟨[], recs.map Sent.data⟩ := by
  refine ⟨recs, ⟨[], none, ⟨rfl, rfl, rfl, ?_⟩, rfl⟩, rfl⟩
  rintro r (hr | hr)
  · cases hr
  · exact hsmall r hr

/-- The writer succeeds, and on what it has sent every reader gets the data of its records. -/
theorem record_marking_transparent (sendsize recvsize : BufSize) (rs : List Written)
    (hlast : (rs.getLast?.any fun r => r.sendnow) = true) :
    ∃ o datas, writeRecords (createOut sendsize) rs = some (o, datas) ∧ datas.length = rs.length ∧
      ∀ pieces cs, Moves ⟨[], datas⟩ cs → GivesAll ⟨[], datas⟩ cs ((createIn recvsize o.written pieces).calls cs) := by
  obtain ⟨o, datas, recs, hwrite, hbetween, hdatas, hlen, hdone⟩ := (between_create sendsize).writeRecords rs
  rw [nil_append] at hbetween
  refine ⟨o, datas, hwrite, hlen, ?_⟩
  intro pieces cs hm
  have hat := at_create recvsize pieces hbetween.writing.small
  rw [hdatas, ← written_eq hbetween (hdone hlast)] at hat
  exact hat.calls cs hm

def sampleRecords : List Written :=
  [⟨[.putlong 7, .inline [1, 2, 3, 4]], false⟩, ⟨[.putbytes (List.replicate 120 5)], true⟩]

theorem record_marking_transparent_sample :
    ∃ o datas, writeRecords (createOut (fixBufSize 100 (by decide))) sampleRecords = some (o, datas) ∧ datas.length = 2 ∧
      ∀ pieces cs, Moves ⟨[], datas⟩ cs →
        GivesAll ⟨[], datas⟩ cs ((createIn (fixBufSize 0 (by decide)) o.written pieces).calls cs) :=
  record_marking_transparent (fixBufSize 100 (by decide)) (fixBufSize 0 (by decide)) sampleRecords rfl

end Simulation

end Transparency

end Solaris.Record
