import Solaris.Lib.Along
import Solaris.Tcp.Options

/-!
# Timestamps and wrapped sequence numbers

What `tcp_rput_data` does with the timestamps of segments: it reads them inline or through
`tcp_parse_options`, rejects a segment by the test against wrapped sequence numbers, and records the
timestamp of a segment that is in the window. `tcpopt` is a local variable, so what a segment does
not set in it is whatever was there.
-/

namespace Solaris.Tcp

open List Option Bool

open Lib (wordOf Along along_nil)

/-- `tcp_t`; `thOffset` is `th_offset_and_rsrvd[0]` of the header to be sent. -/
structure TsConn where
  sndTsOk : Bool
  tsRecent : Seq
  lastRcvLbolt : BitVec 32
  ipHdrLen : Nat
  hdrLen : Nat
  tcpHdrLen : Nat
  thOffset : BitVec 8
  rnxt : Seq
  rwnd : BitVec 32
  rack : Seq
  irs : Seq

/-- A segment with the bytes of its options, whether they are aligned, and what `tcpopt` holds when it
arrives. -/
structure TsSegment where
  seq : Seq
  len : Nat
  syn : Bool
  opts : Bytes
  aligned : Bool
  stale : TcpOpt

/-- Two tunables, and `PAWS_TIMEOUT`, which depends on `hz`. -/
structure TsParams where
  mssMin : Nat
  mssMax : Nat
  pawsTimeout : BitVec 32

section Code

variable (p : TsParams) (lbolt : BitVec 32)

/-- The options of a SYN: timestamps are used when they are wanted and the SYN carries one. -/
def synTimestamp (wanted : Bool) (opts : Bytes) (stale : TcpOpt) (t : TsConn) : TsConn :=
  let r := tcpParseOptions p.mssMin p.mssMax opts stale
  if wanted ∧ r.1 &&& optTstampPresent ≠ 0 then
    { t with
      sndTsOk := true
      tsRecent := r.2.tsVal
      lastRcvLbolt := lbolt
      hdrLen := t.hdrLen + 12
      tcpHdrLen := t.tcpHdrLen + 12
      thOffset := t.thOffset + 3 <<< 4 }
  else { t with sndTsOk := false }

/-- The part of `tcp_accept_comm` on timestamps. -/
def acceptTimestamp (opts : Bytes) (stale : TcpOpt) (t : TsConn) : TsConn := synTimestamp p lbolt true opts stale t

/-- The part of `tcp_rput_data` in `TCPS_SYN_SENT` on timestamps. -/
def synSentTimestamp (opts : Bytes) (stale : TcpOpt) (t : TsConn) : TsConn :=
  synTimestamp p lbolt t.sndTsOk opts stale t

def TsSegment.Inline (seg : TsSegment) : Prop :=
  12 ≤ seg.opts.length ∧ seg.aligned = true ∧ seg.opts.take 4 = [1, 1, 8, 10]

instance (seg : TsSegment) : Decidable seg.Inline := inferInstanceAs (Decidable (_ ∧ _ ∧ _))

def inlineTimestamp (seg : TsSegment) : Nat × TcpOpt :=
  (optTstampPresent, { seg.stale with tsVal := wordOf (seg.opts.drop 4), tsEcr := wordOf (seg.opts.drop 8) })

def readTimestamp (seg : TsSegment) : Nat × TcpOpt :=
  if seg.Inline then inlineTimestamp seg else tcpParseOptions p.mssMin p.mssMax seg.opts seg.stale

/-- From the reading of the timestamp to the test: whether the segment is rejected, and `tcpopt`. -/
def checkTimestamp (seg : TsSegment) (t : TsConn) : Bool × TcpOpt × TsConn :=
  if t.sndTsOk then
    let r := readTimestamp p seg
    -- `options & TCP_OPT_TSTAMP_PRESENT == 0`, where the comparison comes first
    if r.1 &&& (if optTstampPresent = 0 then 1 else 0) ≠ 0 then
      (false, r.2, { t with
        sndTsOk := false
        hdrLen := t.hdrLen - 12
        tcpHdrLen := t.tcpHdrLen - 12
        thOffset := t.thOffset - 3 <<< 4 })
    else (SEQ_LT r.2.tsVal t.tsRecent && SEQ_LT lbolt (t.lastRcvLbolt + p.pawsTimeout), r.2, t)
  else (false, seg.stale, t)

/-- From `try_again` on: the sequence number and the length of what is in the window. -/
def tryAgain (seq : Seq) (len : Nat) (t : TsConn) : Option (Seq × Int) :=
  let gap := (seq - t.rnxt).toInt
  let rgap := (t.rwnd - BitVec.ofInt 32 (gap + len)).toInt
  let segSeq := if gap < 0 then t.rnxt else seq
  let segLen : Int := if gap < 0 then len + gap else len
  if gap < 0 ∧ segLen ≤ 0 then none
  else if rgap < 0 then if segLen + rgap ≤ 0 then none else some (segSeq, segLen + rgap)
  else some (segSeq, segLen)

def inWindow (seg : TsSegment) (t : TsConn) : Option (Seq × Int) :=
  if (seg.seq - t.rnxt).toInt < 0 ∧ seg.seq = t.irs ∧ seg.syn = true ∧ seg.len ≠ 0 then
    tryAgain (seg.seq + 1) seg.len t
  else tryAgain seg.seq seg.len t

/-- At `ok`. -/
def recordTimestamp (o : TcpOpt) (seq : Seq) (len : Int) (t : TsConn) : TsConn :=
  if t.sndTsOk ∧ SEQ_LEQ seq t.rack ∧ SEQ_LT t.rack (seq + BitVec.ofInt 32 len) then
    { t with tsRecent := o.tsVal, lastRcvLbolt := lbolt }
  else t

/-- `tcp_rput_data` up to the update: whether the test has rejected the segment, and the connection. -/
def rputTimestamp (seg : TsSegment) (t : TsConn) : Bool × TsConn :=
  let c := checkTimestamp p lbolt seg t
  if c.1 then (true, c.2.2)
  else
    match inWindow seg c.2.2 with
    | none => (false, c.2.2)
    | some (seq, len) => (false, recordTimestamp lbolt c.2.1 seq len c.2.2)

end Code

section Runs

/-- A segment, or anything else that happens to the connection. -/
inductive TsEvent
  | segment (lbolt : BitVec 32) (seg : TsSegment)
  | other (rnxt : Seq) (rwnd : BitVec 32) (rack irs : Seq)

/-- A connection with the timestamps that its segments have carried. -/
structure TsRun where
  conn : TsConn
  seen : List Seq

def TsSegment.stampVals (seg : TsSegment) : List Seq := (stamps seg.opts).map Prod.fst

def TsRun.exec (p : TsParams) (r : TsRun) : TsEvent → TsRun
  | .segment lbolt seg => ⟨(rputTimestamp p lbolt seg r.conn).2, r.seen ++ seg.stampVals⟩
  | .other rnxt rwnd rack irs => { r with conn := { r.conn with rnxt, rwnd, rack, irs } }

/-- The lengths of a header with or without room for the timestamp option. -/
structure LensOk (t : TsConn) : Prop where
  tcp : t.tcpHdrLen = if t.sndTsOk then 32 else 20
  whole : t.hdrLen = t.ipHdrLen + t.tcpHdrLen
  offset : t.thOffset = if t.sndTsOk then 8 <<< 4 else 5 <<< 4

/-- A connection that has negotiated timestamps by a SYN. -/
inductive Negotiated (p : TsParams) : TsRun → Prop
  | accepted (lbolt : BitVec 32) (opts : Bytes) (stale : TcpOpt) (t : TsConn) (hdr : t.tcpHdrLen = 20)
      (hip : t.hdrLen = t.ipHdrLen + 20) (hoff : t.thOffset = 5 <<< 4)
      (hok : (acceptTimestamp p lbolt opts stale t).sndTsOk = true) :
      Negotiated p ⟨acceptTimestamp p lbolt opts stale t, (stamps opts).map Prod.fst⟩
  | connected (lbolt : BitVec 32) (opts : Bytes) (stale : TcpOpt) (t : TsConn) (hdr : t.tcpHdrLen = 20)
      (hip : t.hdrLen = t.ipHdrLen + 20) (hoff : t.thOffset = 5 <<< 4)
      (hok : (synSentTimestamp p lbolt opts stale t).sndTsOk = true) :
      Negotiated p ⟨synSentTimestamp p lbolt opts stale t, (stamps opts).map Prod.fst⟩

structure SegmentExact (p : TsParams) (r : TsRun) (lbolt : BitVec 32) (seg : TsSegment) : Prop where
  recent : (rputTimestamp p lbolt seg r.conn).2.tsRecent ∈ r.seen ++ seg.stampVals
  rejected : (rputTimestamp p lbolt seg r.conn).1 = true →
    ∃ v ∈ seg.stampVals, SEQ_LT v r.conn.tsRecent = true
  without : seg.stampVals = [] → (rputTimestamp p lbolt seg r.conn).2.sndTsOk = false ∧
    LensOk (rputTimestamp p lbolt seg r.conn).2
  agree : seg.Inline → (tcpParseOptions p.mssMin p.mssMax seg.opts seg.stale).1 &&& optTstampPresent ≠ 0 ∧
    (tcpParseOptions p.mssMin p.mssMax seg.opts seg.stale).2.stamp = (inlineTimestamp seg).2.stamp

def StepExact (p : TsParams) (r : TsRun) : TsEvent → Prop
  | .segment lbolt seg => SegmentExact p r lbolt seg
  | .other .. => r.conn.tsRecent ∈ r.seen

/-- As long as timestamps are in use every segment carries one, and where one is aligned the last one in
the segment repeats the first. -/
def Carried (r : TsRun) : TsEvent → Prop
  | .segment _ seg => (r.conn.sndTsOk = true → seg.stampVals ≠ []) ∧
      (seg.Inline → (stamps seg.opts).getLast? = (stamps seg.opts).head?)
  | .other .. => True

end Runs

section Reading

variable {p : TsParams} {lbolt : BitVec 32} {seg : TsSegment} {t : TsConn}

lemma TsSegment.Inline.stamps (h : seg.Inline) :
    ∃ rest, stamps seg.opts = (inlineTimestamp seg).2.stamp :: rest := by
  obtain ⟨hlen, -, htake⟩ := h
  obtain ⟨bytes, hbytes⟩ : ∃ bytes, seg.opts = [1, 1, 8, 10] ++ bytes := by
    refine ⟨seg.opts.drop 4, ?_⟩
    rw [← htake, take_append_drop]
  have hrest : seg.opts.length = bytes.length + 4 := by
    rw [hbytes, length_append, Nat.add_comm]
    rfl
  have hfuel : seg.opts.length = (bytes.length + 1) + 1 + 1 + 1 := hrest
  have hkind : byteAt (8 :: 10 :: bytes) 0 = 8 := rfl
  have htstamp : optLength (8 :: 10 :: bytes) = some 10 := by
    have h10 : ¬((8 :: 10 :: bytes).length < 10 ∨ byteAt (8 :: 10 :: bytes) 1 ≠ 10) := by
      intro hbad
      rcases hbad with hshort | hne
      · rw [length_cons, length_cons] at hshort
        omega
      · exact hne rfl
    exact if_neg h10
  refine ⟨stampsFrom (bytes.length + 1) ((8 :: 10 :: bytes).drop 10), ?_⟩
  unfold Tcp.stamps
  rw [hfuel, hbytes]
  change [] ++ ([] ++ stampsFrom (bytes.length + 1 + 1) (8 :: 10 :: bytes)) = _
  rw [stampsFrom_option htstamp, if_pos hkind]
  unfold inlineTimestamp TcpOpt.stamp
  rw [hbytes]
  rfl

lemma readTimestamp_mem (h : seg.stampVals ≠ []) : (readTimestamp p seg).2.tsVal ∈ seg.stampVals := by
  unfold readTimestamp
  split_ifs with hin
  · obtain ⟨rest, hrest⟩ := hin.stamps
    unfold TsSegment.stampVals
    rw [hrest]
    exact mem_cons_self
  have hne : stamps seg.opts ≠ [] := fun hnil => h (by unfold TsSegment.stampVals; rw [hnil, map_nil])
  have hlast := @tcpParseOptions_stamp p.mssMin p.mssMax seg.opts seg.stale
  rw [getLast?_eq_some_getLast hne, getD_some] at hlast
  have hmem := getLast_mem hne
  rw [← hlast] at hmem
  exact mem_map_of_mem hmem

lemma checkTimestamp_on (h : t.sndTsOk = true) : checkTimestamp p lbolt seg t =
    (SEQ_LT (readTimestamp p seg).2.tsVal t.tsRecent && SEQ_LT lbolt (t.lastRcvLbolt + p.pawsTimeout),
      (readTimestamp p seg).2, t) := by
  unfold checkTimestamp
  have hzero : ¬(readTimestamp p seg).1 &&& (if optTstampPresent = 0 then 1 else 0) ≠ 0 := by
    rw [if_neg (by decide), Nat.and_zero]
    exact fun hne => hne rfl
  rw [if_pos h]
  exact if_neg hzero

lemma checkTimestamp_off (h : t.sndTsOk = false) : checkTimestamp p lbolt seg t = (false, seg.stale, t) := by
  unfold checkTimestamp
  rw [if_neg (by rw [h]; exact false_ne_true)]

lemma recordTimestamp_cases (o : TcpOpt) (seq : Seq) (len : Int) (t : TsConn) :
    recordTimestamp lbolt o seq len t = t ∨
      t.sndTsOk = true ∧ recordTimestamp lbolt o seq len t = { t with tsRecent := o.tsVal, lastRcvLbolt := lbolt } := by
  unfold recordTimestamp
  split_ifs with h
  · exact .inr ⟨h.1, rfl⟩
  · exact .inl rfl

lemma checkTimestamp_conn : (checkTimestamp p lbolt seg t).2.2 = t := by
  cases hok : t.sndTsOk with
  | true => rw [checkTimestamp_on hok]
  | false => rw [checkTimestamp_off hok]

lemma rputTimestamp_cases : (rputTimestamp p lbolt seg t).2 = t ∨
    t.sndTsOk = true ∧ (rputTimestamp p lbolt seg t).2 =
      { t with tsRecent := (readTimestamp p seg).2.tsVal, lastRcvLbolt := lbolt } := by
  unfold rputTimestamp
  dsimp only
  rw [checkTimestamp_conn]
  split_ifs with hrej
  · exact .inl rfl
  cases inWindow seg t with
  | none => exact .inl rfl
  | some w =>
    rcases @recordTimestamp_cases lbolt (checkTimestamp p lbolt seg t).2.1 w.1 w.2 t with hsame | ⟨hok, hnew⟩
    · exact .inl hsame
    · refine .inr ⟨hok, ?_⟩
      rw [checkTimestamp_on hok] at hnew ⊢
      exact hnew

lemma rputTimestamp_sndTsOk : (rputTimestamp p lbolt seg t).2.sndTsOk = t.sndTsOk := by
  rcases @rputTimestamp_cases p lbolt seg t with h | ⟨-, h⟩
  · rw [h]
  · rw [h]

lemma LensOk.rputTimestamp (h : LensOk t) : LensOk (rputTimestamp p lbolt seg t).2 := by
  rcases @rputTimestamp_cases p lbolt seg t with heq | ⟨-, heq⟩
  · rw [heq]
    exact h
  · rw [heq]
    exact ⟨h.tcp, h.whole, h.offset⟩

lemma rputTimestamp_rejected (h : (rputTimestamp p lbolt seg t).1 = true) :
    t.sndTsOk = true ∧ SEQ_LT (readTimestamp p seg).2.tsVal t.tsRecent = true := by
  have hcheck : (checkTimestamp p lbolt seg t).1 = true := by
    unfold Tcp.rputTimestamp at h
    dsimp only at h
    split_ifs at h with hrej
    · exact hrej
    cases hwin : inWindow seg (checkTimestamp p lbolt seg t).2.2 with
    | none =>
      rw [hwin] at h
      exact absurd h false_ne_true
    | some w =>
      rw [hwin] at h
      exact absurd h false_ne_true
  cases hok : t.sndTsOk with
  | true =>
    rw [checkTimestamp_on hok] at hcheck
    exact ⟨rfl, (Bool.and_eq_true_iff.mp hcheck).1⟩
  | false =>
    rw [checkTimestamp_off hok] at hcheck
    exact absurd hcheck false_ne_true

lemma agree_iff (h : seg.Inline) :
    ((tcpParseOptions p.mssMin p.mssMax seg.opts seg.stale).1 &&& optTstampPresent ≠ 0 ∧
      (tcpParseOptions p.mssMin p.mssMax seg.opts seg.stale).2.stamp = (inlineTimestamp seg).2.stamp) ↔
      (stamps seg.opts).getLast? = (stamps seg.opts).head? := by
  obtain ⟨rest, hrest⟩ := h.stamps
  have hfound := (@tcpParseOptions_found p.mssMin p.mssMax seg.opts seg.stale).mpr (by
    rw [hrest]
    exact cons_ne_nil _ _)
  rw [tcpParseOptions_stamp, hrest, getLast?_cons, getD_some, head?_cons, some_inj]
  exact and_iff_right hfound

end Reading

section Exact

variable {p : TsParams} {r : TsRun}

structure TsRun.Sound (r : TsRun) : Prop where
  recent : r.conn.tsRecent ∈ r.seen
  lens : LensOk r.conn

lemma synTimestamp_sound {lbolt : BitVec 32} {wanted : Bool} {opts : Bytes} {stale : TcpOpt} {t : TsConn}
    (hdr : t.tcpHdrLen = 20) (hip : t.hdrLen = t.ipHdrLen + 20) (hoff : t.thOffset = 5 <<< 4)
    (hok : (synTimestamp p lbolt wanted opts stale t).sndTsOk = true) :
    TsRun.Sound ⟨synTimestamp p lbolt wanted opts stale t, (stamps opts).map Prod.fst⟩ := by
  unfold synTimestamp at hok ⊢
  dsimp only at hok ⊢
  split_ifs at hok ⊢ with hts
  have hne := tcpParseOptions_found.mp hts.2
  have hstamp := @tcpParseOptions_stamp p.mssMin p.mssMax opts stale
  rw [getLast?_eq_some_getLast hne, getD_some] at hstamp
  constructor
  · have hmem := getLast_mem hne
    rw [← hstamp] at hmem
    exact mem_map_of_mem hmem
  · constructor
    · change t.tcpHdrLen + 12 = 32
      omega
    · change t.hdrLen + 12 = t.ipHdrLen + (t.tcpHdrLen + 12)
      omega
    · change t.thOffset + 3 <<< 4 = 8 <<< 4
      rw [hoff]
      rfl

lemma Negotiated.sound (h : Negotiated p r) : r.Sound := by
  cases h with
  | accepted lbolt opts stale t hdr hip hoff hok => exact synTimestamp_sound hdr hip hoff hok
  | connected lbolt opts stale t hdr hip hoff hok => exact synTimestamp_sound hdr hip hoff hok

lemma segmentExact_iff (h : r.Sound) (lbolt : BitVec 32) (seg : TsSegment) :
    SegmentExact p r lbolt seg ↔ Carried r (.segment lbolt seg) := by
  constructor
  · intro he
    constructor
    · intro hok hnil
      have hoff := (he.without hnil).1
      rw [rputTimestamp_sndTsOk, hok] at hoff
      exact false_ne_true hoff.symm
    · intro hin
      exact (agree_iff hin).mp (he.agree hin)
  · rintro ⟨hcarries, hrepeats⟩
    constructor
    · rcases @rputTimestamp_cases p lbolt seg r.conn with heq | ⟨hok, heq⟩
      · rw [heq]
        exact mem_append_left _ h.recent
      · rw [heq]
        exact mem_append_right _ (readTimestamp_mem (hcarries hok))
    · intro hrej
      obtain ⟨hok, hold⟩ := rputTimestamp_rejected hrej
      exact ⟨_, readTimestamp_mem (hcarries hok), hold⟩
    · intro hnil
      have hoff : r.conn.sndTsOk = false := by
        rw [← not_eq_true]
        exact fun hok => hcarries hok hnil
      rw [rputTimestamp_sndTsOk]
      exact ⟨hoff, h.lens.rputTimestamp⟩
    · intro hin
      exact (agree_iff hin).mpr (hrepeats hin)

lemma stepExact_iff (h : r.Sound) (ev : TsEvent) : StepExact p r ev ↔ Carried r ev := by
  cases ev with
  | segment lbolt seg => exact segmentExact_iff h lbolt seg
  | other rnxt rwnd rack irs => exact iff_of_true h.recent trivial

lemma TsRun.Sound.exec (h : r.Sound) {ev : TsEvent} (hev : StepExact p r ev) : (r.exec p ev).Sound := by
  cases ev with
  | segment lbolt seg => exact ⟨hev.recent, h.lens.rputTimestamp⟩
  | other rnxt rwnd rack irs => exact ⟨h.recent, h.lens.tcp, h.lens.whole, h.lens.offset⟩

/-- On a connection that has negotiated timestamps every step is as asked if and only if every segment
carries a timestamp as long as they are in use and no aligned one is followed by another value. -/
theorem paws_exact_iff (h : Negotiated p r) (evs : List TsEvent) :
    Along (TsRun.exec p) (StepExact p) r evs ↔ Along (TsRun.exec p) Carried r evs := by
  constructor
  · intro hexact
    apply hexact.imp h.sound
    intro r ev hr hev
    exact ⟨(stepExact_iff hr ev).mp hev, hr.exec hev⟩
  · intro hcarried
    apply hcarried.imp h.sound
    intro r ev hr hev
    have hstep := (stepExact_iff (p := p) hr ev).mpr hev
    exact ⟨hstep, hr.exec hstep⟩

def sampleParams : TsParams := ⟨1, 65495, 207360000⟩

def sampleOpts (val : BitVec 8) : Bytes := [1, 1, 8, 10, 0, 0, 3, val, 0, 0, 0, 0]

def sampleListener : TsConn := ⟨false, 0, 0, 20, 40, 20, 5 <<< 4, 101, 8760, 100, 100⟩

def sampleAccepted : TsRun :=
  ⟨acceptTimestamp sampleParams 5000 (sampleOpts 232) ⟨0, 0, 0, 0⟩ sampleListener,
    (stamps (sampleOpts 232)).map Prod.fst⟩

lemma sampleAccepted_negotiated : Negotiated sampleParams sampleAccepted :=
  .accepted 5000 (sampleOpts 232) ⟨0, 0, 0, 0⟩ sampleListener rfl rfl rfl rfl

theorem paws_exact_iff_sample :
    Along (TsRun.exec sampleParams) (StepExact sampleParams) sampleAccepted
        [.segment 5010 ⟨101, 10, false, sampleOpts 233, true, ⟨0, 0, 0, 0⟩⟩] ↔
      Along (TsRun.exec sampleParams) Carried sampleAccepted
        [.segment 5010 ⟨101, 10, false, sampleOpts 233, true, ⟨0, 0, 0, 0⟩⟩] :=
  paws_exact_iff sampleAccepted_negotiated _

/-- A segment without options is rejected because `tcpopt` holds 500 when it arrives. -/
theorem paws_not_exact : ¬∀ (p : TsParams) (r : TsRun) (_ : Negotiated p r) (evs : List TsEvent),
    Along (TsRun.exec p) (StepExact p) r evs := by
  intro h
  have hrun := h sampleParams sampleAccepted sampleAccepted_negotiated
    [.segment 5010 ⟨101, 10, false, [], true, 0, 0, 500, 0⟩]
  obtain ⟨v, hmem, -⟩ := hrun.1.rejected (by decide)
  exact not_mem_nil hmem

end Exact

end Solaris.Tcp
