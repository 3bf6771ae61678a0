import Solaris.Lib.Words

/-!
# Record marking

A record is sent in fragments, each behind a header with its length and a bit for the last one. The writer cuts a
fragment when its buffer is full, the reader goes from buffer to buffer and from fragment to fragment. `writeit`
writes all it is given; `readit` delivers some bytes of the stream each time, as `pieces` decides.
-/

namespace Solaris.Record

section Marking

open Lib Nat List

/-- A buffer size, rounded up to units: the length of a buffer is passed as an `int`. -/
structure BufSize where
  size : Nat
  unit : 4 ∣ size
  large : 100 ≤ size
  lt : size < 2 ^ 31

def fixBufSize (s : Nat) (h : s ≤ 2 ^ 31 - 4) : BufSize where
  size := ((if s < 100 then 4000 else s) + 3) / 4 * 4
  unit := Nat.dvd_mul_left 4 _
  large := by
    split <;> omega
  lt := by
    split <;> omega

def lastFrag : BitVec 32 := BitVec.twoPow 32 31

/-- `htonl(len | eormask)` -/
def fragHeader (len : Nat) (eor : Bool) : BitVec 32 := BitVec.ofNat 32 len ||| if eor then lastFrag else 0

section Writer

/-- The outgoing half of `RECSTREAM`: `done` are the bytes from `out_base` to `frag_header`, `frag` those behind the
header up to `out_finger`. -/
structure Out where
  sendsize : BufSize
  done : List Byte
  frag : List Byte
  fragSent : Bool
  written : List Byte

namespace Out

def outFinger (o : Out) : Nat := o.done.length + 4 + o.frag.length

def outBoundry (o : Out) : Nat := o.sendsize.size

end Out

def createOut (sendsize : BufSize) : Out := ⟨sendsize, [], [], false, []⟩

def flushOut (o : Out) (eor : Bool) : Out :=
  { o with
    written := o.written ++ (o.done ++ wordBytes (fragHeader o.frag.length eor) ++ o.frag)
    done := []
    frag := [] }

def xdrrecPutlong (o : Out) (w : BitVec 32) : Out :=
  let o := if o.outFinger + 4 > o.outBoundry then flushOut { o with fragSent := true } false else o
  { o with frag := o.frag ++ wordBytes w }

/-- One turn of `xdrrec_putbytes`: what fits is copied, and a full buffer flushed. -/
def putTurn (o : Out) (bs : List Byte) : Out :=
  let o := { o with frag := o.frag ++ bs }
  if o.outFinger = o.outBoundry then flushOut { o with fragSent := true } false else o

def putbytesLoop : Nat → Out → List Byte → Option Out
  | 0, _, _ => none
  | n + 1, o, bs =>
    if bs.length = 0 then some o
    else
      let current := min bs.length (o.outBoundry - o.outFinger)
      putbytesLoop n (putTurn o (bs.take current)) (bs.drop current)

def xdrrecPutbytes (o : Out) (bs : List Byte) : Option Out := putbytesLoop (bs.length + 2) o bs

/-- The caller fills the space it is given with `bs`. -/
def xdrrecInlineEncode (o : Out) (bs : List Byte) : Option Out :=
  if o.outFinger + bs.length ≤ o.outBoundry then some { o with frag := o.frag ++ bs } else none

def xdrrecEndofrecord (o : Out) (sendnow : Bool) : Out :=
  if sendnow ∨ o.fragSent ∨ o.outFinger + 4 ≥ o.outBoundry then flushOut { o with fragSent := false } true
  else
    { o with
      done := o.done ++ wordBytes (fragHeader o.frag.length true) ++ o.frag
      frag := [] }

inductive Put where
  | putlong (w : BitVec 32)
  | putbytes (bs : List Byte)
  | inline (bs : List Byte)

/-- The stream after a call and the data it has written: none when there is no space inline. -/
def Put.apply (o : Out) : Put → Option (Out × List Byte)
  | .putlong w => some (xdrrecPutlong o w, wordBytes w)
  | .putbytes bs => (xdrrecPutbytes o bs).map fun o => (o, bs)
  | .inline bs =>
    match xdrrecInlineEncode o bs with
    | some o => some (o, bs)
    | none => some (o, [])

def putAll (o : Out) : List Put → Option (Out × List Byte)
  | [] => some (o, [])
  | p :: ps => do
    let (o, bs) ← p.apply o
    let (o, rest) ← putAll o ps
    return (o, bs ++ rest)

/-- The calls for a record, and whether it is sent at its end. -/
structure Written where
  puts : List Put
  sendnow : Bool

/-- Records are written one after the other; the data of each is given back. -/
def writeRecords (o : Out) : List Written → Option (Out × List (List Byte))
  | [] => some (o, [])
  | r :: rs => do
    let (o, data) ← putAll o r.puts
    let (o, rest) ← writeRecords (xdrrecEndofrecord o r.sendnow) rs
    return (o, data :: rest)

end Writer

section Reader

/-- The incoming half of `RECSTREAM`: `unread` are the bytes from `in_finger` to `in_boundry`, `wire` those that
`readit` has not delivered. -/
structure In where
  inSize : BufSize
  inFinger : Nat
  unread : List Byte
  fbtbc : Nat
  lastFrag : Bool
  wire : List Byte
  pieces : Nat → Nat
  reads : Nat

namespace In

def inBoundry (s : In) : Nat := s.inFinger + s.unread.length

end In

def createIn (recvsize : BufSize) (wire : List Byte) (pieces : Nat → Nat) : In where
  inSize := recvsize
  inFinger := recvsize.size
  unread := []
  fbtbc := 0
  lastFrag := true
  wire := wire
  pieces := pieces
  reads := 0

/-- The number of bytes of one `readit`: at least one and no more than there are or than are asked for. -/
def piece (s : In) (len : Nat) : Nat := max 1 (min (s.pieces s.reads) (min len s.wire.length))

/-- Aligned or not, the buffer is empty when it is filled. -/
def fillInputBuf (s : In) (doAlign : Bool) : Option In :=
  let i := if doAlign then 0 else s.inBoundry % 4
  if s.wire.length = 0 then none
  else
    let n := piece s (s.inSize.size - i)
    some
      { s with
        inFinger := i
        unread := s.wire.take n
        wire := s.wire.drop n
        reads := s.reads + 1 }

def In.advance (s : In) (n : Nat) : In := { s with inFinger := s.inFinger + n, unread := s.unread.drop n }

/-- The loop of `get_input_bytes`: what has been read, or nothing on a failure, and the stream. -/
def getInputLoop : Nat → In → Nat → Bool → List Byte → Option (List Byte) × In
  | 0, s, _, _, _ => (none, s)
  | n + 1, s, len, doAlign, addr =>
    if len = 0 then (some addr, s)
    else if s.unread.length = 0 then
      match fillInputBuf s doAlign with
      | none => (none, s)
      | some s => getInputLoop n s len doAlign addr
    else
      let current := min len s.unread.length
      getInputLoop n (s.advance current) (len - current) false (addr ++ s.unread.take current)

def getInputBytes (s : In) (len : Nat) (doAlign : Bool) : Option (List Byte) × In :=
  getInputLoop (2 * len + 1) s len doAlign []

def setInputFragment (s : In) : Bool × In :=
  match getInputBytes s 4 s.lastFrag with
  | (none, s) => (false, s)
  | (some header, s) =>
    (true,
      { s with
        lastFrag := wordOf header &&& Record.lastFrag ≠ 0
        fbtbc := (wordOf header &&& ~~~Record.lastFrag).toNat })

def skipLoop : Nat → In → Nat → Bool × In
  | 0, s, _ => (false, s)
  | n + 1, s, cnt =>
    if cnt = 0 then (true, s)
    else if s.unread.length = 0 then
      match fillInputBuf s false with
      | none => (false, s)
      | some s => skipLoop n s cnt
    else
      let current := min cnt s.unread.length
      skipLoop n (s.advance current) (cnt - current)

def skipInputBytes (s : In) (cnt : Nat) : Bool × In := skipLoop (2 * cnt + 1) s cnt

/-- The loop of `xdrrec_getbytes`. -/
def getbytesLoop : Nat → In → Nat → List Byte → Option (List Byte) × In
  | 0, s, _, _ => (none, s)
  | n + 1, s, len, addr =>
    if len = 0 then (some addr, s)
    else if s.fbtbc = 0 then
      if s.lastFrag then (none, s)
      else
        match setInputFragment s with
        | (false, s) => (none, s)
        | (true, s) => getbytesLoop n s len addr
    else
      let current := min len s.fbtbc
      match getInputBytes s current false with
      | (none, s) => (none, s)
      | (some bs, s) => getbytesLoop n { s with fbtbc := s.fbtbc - current } (len - current) (addr ++ bs)

def xdrrecGetbytes (s : In) (len : Nat) : Option (List Byte) × In :=
  getbytesLoop (s.unread.length + s.wire.length + len + 1) s len []

def alignInstream (s : In) : In := { s with inFinger := 0 }

/-- "Check if buflp is longword aligned. If not, align it." -/
def longAligned (s : In) : In := if s.inFinger % 4 ≠ 0 then alignInstream s else s

def In.take (s : In) (len : Nat) : In := { s.advance len with fbtbc := s.fbtbc - len }

/-- "first try the inline, fast case" -/
def xdrrecGetlong (s : In) : Option (BitVec 32) × In :=
  if s.fbtbc ≥ 4 ∧ s.unread.length ≥ 4 then
    (some (wordOf (longAligned s).unread), (longAligned s).take 4)
  else
    match xdrrecGetbytes s 4 with
    | (none, s) => (none, s)
    | (some bs, s) => (some (wordOf bs), s)

/-- The caller reads the bytes that it is given in place. -/
def xdrrecInlineDecode (s : In) (len : Nat) : Option (List Byte) × In :=
  if len ≤ s.fbtbc ∧ s.inFinger + len ≤ s.inBoundry then
    (some ((longAligned s).unread.take len), (longAligned s).take len)
  else (none, s)

def In.skipped (s : In) : In := { s with fbtbc := 0 }

def skiprecordLoop : Nat → In → Bool × In
  | 0, s => (false, s)
  | n + 1, s =>
    if s.fbtbc > 0 ∨ s.lastFrag = false then
      match skipInputBytes s s.fbtbc with
      | (false, s) => (false, s)
      | (true, s) =>
        if s.lastFrag then skiprecordLoop n s.skipped
        else
          match setInputFragment s.skipped with
          | (false, s) => (false, s)
          | (true, s) => skiprecordLoop n s
    else (true, { s with lastFrag := false })

def xdrrecSkiprecord (s : In) : Bool × In := skiprecordLoop (s.unread.length + s.wire.length + 2) s

end Reader

end Marking

/-!
## The fragments of a record

What the writer sends is the fragments of one record after the other, cut wherever its buffer was full.
-/

section Records

open Lib Nat List

section Fragments

def fragBytes (d : List Byte) (last : Bool) : List Byte := wordBytes (fragHeader d.length last) ++ d

def fragsBytes (frags : List (List Byte)) : List Byte := frags.flatMap fun d => fragBytes d false

structure Sent where
  frags : List (List Byte)
  last : List Byte

namespace Sent

def data (r : Sent) : List Byte := r.frags.flatten ++ r.last

def bytes (r : Sent) : List Byte := fragsBytes r.frags ++ fragBytes r.last true

/-- The length of every fragment fits beside the bit for the last one. -/
structure Small (r : Sent) : Prop where
  frags : ∀ d ∈ r.frags, d.length < 2 ^ 31
  last : r.last.length < 2 ^ 31

end Sent

def recordsBytes (rs : List Sent) : List Byte := rs.flatMap Sent.bytes

lemma getLsbD_lastFrag (i : Nat) : lastFrag.getLsbD i = decide (i = 31) := by
  rw [lastFrag, BitVec.getLsbD_twoPow]
  by_cases hi : i = 31
  · simp [hi]
  · simp [hi, Ne.symm hi]

lemma getLsbD_ofNat_top {n : Nat} (h : n < 2 ^ 31) : (BitVec.ofNat 32 n).getLsbD 31 = false := by
  rw [BitVec.getLsbD_ofNat, testBit_lt_two_pow h]
  simp

lemma fragHeader_last {n : Nat} (h : n < 2 ^ 31) (last : Bool) : (fragHeader n last &&& lastFrag ≠ 0) ↔ last = true := by
  cases last with
  | false =>
    have hzero : fragHeader n false &&& lastFrag = 0 := by
      apply BitVec.eq_of_getLsbD_eq
      intro i _
      rw [BitVec.getLsbD_and, getLsbD_lastFrag]
      by_cases hi : i = 31
      · subst hi
        rw [fragHeader, BitVec.getLsbD_or, getLsbD_ofNat_top h]
        rfl
      · simp [hi]
    simp [hzero]
  | true =>
    refine ⟨fun _ => rfl, fun _ hzero => ?_⟩
    have hbit := congrArg (fun x => BitVec.getLsbD x 31) hzero
    simp only [fragHeader, if_true, BitVec.getLsbD_and, BitVec.getLsbD_or, getLsbD_lastFrag, decide_true, Bool.or_true,
      Bool.and_true] at hbit
    cases hbit

lemma fragHeader_length {n : Nat} (h : n < 2 ^ 31) (last : Bool) : (fragHeader n last &&& ~~~lastFrag).toNat = n := by
  have hn : fragHeader n last &&& ~~~lastFrag = BitVec.ofNat 32 n := by
    apply BitVec.eq_of_getLsbD_eq
    intro i hi
    by_cases hi31 : i = 31
    · subst hi31
      rw [BitVec.getLsbD_and, BitVec.getLsbD_not, getLsbD_lastFrag, getLsbD_ofNat_top h]
      simp
    have hl : (if last = true then lastFrag else 0).getLsbD i = false := by
      split
      · simp [getLsbD_lastFrag, hi31]
      · simp
    simp only [fragHeader, BitVec.getLsbD_and, BitVec.getLsbD_or, BitVec.getLsbD_not, getLsbD_lastFrag, hi31, hl, hi]
    simp
  rw [hn, BitVec.toNat_ofNat]
  exact mod_eq_of_lt (by omega)

end Fragments

section Writer

variable {o : Out} {recs : List Sent} {frs : List (List Byte)} {data : List Byte}

/-- The records that have ended are `recs`, and `frs` are the fragments of the current one that have been cut. -/
structure Writing (o : Out) (recs : List Sent) (frs : List (List Byte)) : Prop where
  stream : o.written ++ o.done = recordsBytes recs ++ fragsBytes frs
  small : ∀ r ∈ recs, r.Small
  cut : ∀ d ∈ frs, d.length < 2 ^ 31
  room : o.outFinger ≤ o.outBoundry

/-- `data` has been written of the current record. -/
def Holds (o : Out) (recs : List Sent) (data : List Byte) : Prop :=
  ∃ frs, Writing o recs frs ∧ frs.flatten ++ o.frag = data

lemma Writing.frag_lt (h : Writing o recs frs) : o.frag.length < 2 ^ 31 := by
  have hroom := h.room
  have hlt := o.sendsize.lt
  simp only [Out.outFinger, Out.outBoundry] at hroom
  omega

lemma Writing.flush (h : Writing o recs frs) : Writing (flushOut o false) recs (frs ++ [o.frag]) := by
  have hlt := h.frag_lt
  refine ⟨?_, h.small, ?_, ?_⟩
  · have hs := h.stream
    simp only [flushOut, append_nil]
    rw [← append_assoc, ← append_assoc, hs]
    simp [fragsBytes, fragBytes]
  · exact forall_mem_append.mpr ⟨h.cut, forall_mem_singleton.mpr hlt⟩
  · have := o.sendsize.large
    simp only [flushOut, Out.outFinger, Out.outBoundry, length_nil]
    omega

lemma Writing.sent (h : Writing o recs frs) (b : Bool) : Writing { o with fragSent := b } recs frs :=
  ⟨h.stream, h.small, h.cut, h.room⟩

lemma Writing.add (h : Writing o recs frs) {bs : List Byte} (hroom : o.outFinger + bs.length ≤ o.outBoundry) :
    Writing { o with frag := o.frag ++ bs } recs frs := by
  refine ⟨h.stream, h.small, h.cut, ?_⟩
  simp only [Out.outFinger, Out.outBoundry, length_append] at hroom ⊢
  omega

lemma Holds.putlong (h : Holds o recs data) (w : BitVec 32) : Holds (xdrrecPutlong o w) recs (data ++ wordBytes w) := by
  obtain ⟨frs, hw, hdata⟩ := h
  unfold xdrrecPutlong
  split
  · have hf := (hw.sent true).flush
    have hlarge := o.sendsize.large
    refine ⟨frs ++ [o.frag], hf.add ?_, ?_⟩
    · simp only [flushOut, Out.outFinger, Out.outBoundry, length_nil, length_wordBytes]
      omega
    · simp [flushOut, ← hdata]
  · refine ⟨frs, hw.add ?_, ?_⟩
    · rw [length_wordBytes]
      omega
    · simp [← hdata]

/-- The loop of `xdrrec_putbytes` writes all the bytes; a turn that copies none is followed by one that does. -/
theorem Holds.putLoop (fuel : Nat) (h : Holds o recs data) (bs : List Byte)
    (hfuel : bs.length + (if o.outFinger = o.outBoundry then 1 else 0) < fuel) :
    ∃ o', putbytesLoop fuel o bs = some o' ∧ Holds o' recs (data ++ bs) := by
  induction fuel generalizing o data bs with
  | zero => omega
  | succ fuel ih =>
    obtain ⟨frs, hw, hdata⟩ := h
    have hroom := hw.room
    rw [putbytesLoop]
    split_ifs with hlen
    · have hnil := eq_nil_of_length_eq_zero hlen
      subst hnil
      exact ⟨o, rfl, frs, hw, by simp [hdata]⟩
    obtain ⟨n, hn⟩ : ∃ n, n = min bs.length (o.outBoundry - o.outFinger) := ⟨_, rfl⟩
    simp only [← hn]
    have htake : (bs.take n).length = n := by
      rw [length_take]
      omega
    have hdrop : (bs.drop n).length = bs.length - n := length_drop
    have hadd : Writing { o with frag := o.frag ++ bs.take n } recs frs := hw.add (by omega)
    have hfinger : Out.outFinger { o with frag := o.frag ++ bs.take n } = o.outFinger + n := by
      simp only [Out.outFinger, length_append, htake]
      omega
    have hholds : Holds (putTurn o (bs.take n)) recs (data ++ bs.take n) ∧
        (putTurn o (bs.take n)).outFinger ≠ (putTurn o (bs.take n)).outBoundry := by
      unfold putTurn
      simp only [hfinger]
      split
      · refine ⟨⟨frs ++ [o.frag ++ bs.take n], (hadd.sent true).flush, ?_⟩, ?_⟩
        · simp [flushOut, ← hdata]
        · have hlarge := o.sendsize.large
          intro heq
          simp only [flushOut, Out.outFinger, Out.outBoundry, length_nil] at heq
          omega
      · rename_i hne
        refine ⟨⟨frs, hadd, by simp [← hdata]⟩, ?_⟩
        rw [hfinger]
        exact hne
    have hfuel' : (bs.drop n).length +
        (if (putTurn o (bs.take n)).outFinger = (putTurn o (bs.take n)).outBoundry then 1 else 0) < fuel := by
      rw [hdrop, if_neg hholds.2]
      split at hfuel <;> omega
    obtain ⟨o', ho', hh'⟩ := ih hholds.1 (bs.drop n) hfuel'
    refine ⟨o', ho', ?_⟩
    rwa [append_assoc, take_append_drop] at hh'

lemma Holds.put (h : Holds o recs data) (p : Put) :
    ∃ o' bs, p.apply o = some (o', bs) ∧ Holds o' recs (data ++ bs) := by
  cases p with
  | putlong w => exact ⟨_, _, rfl, h.putlong w⟩
  | putbytes bs =>
    have hfuel : bs.length + (if o.outFinger = o.outBoundry then 1 else 0) < bs.length + 2 := by
      split <;> omega
    obtain ⟨o', ho', hh'⟩ := h.putLoop _ bs hfuel
    refine ⟨o', bs, ?_, hh'⟩
    simp only [Put.apply, xdrrecPutbytes, ho', Option.map_some]
  | inline bs =>
    obtain ⟨frs, hw, hdata⟩ := h
    by_cases hroom : o.outFinger + bs.length ≤ o.outBoundry
    · refine ⟨{ o with frag := o.frag ++ bs }, bs, ?_, frs, hw.add hroom, by simp [← hdata]⟩
      simp [Put.apply, xdrrecInlineEncode, hroom]
    · refine ⟨o, [], ?_, frs, hw, by simp [hdata]⟩
      simp [Put.apply, xdrrecInlineEncode, hroom]

lemma Holds.putAll (ps : List Put) (h : Holds o recs data) :
    ∃ o' bs, putAll o ps = some (o', bs) ∧ Holds o' recs (data ++ bs) := by
  induction ps generalizing o data with
  | nil => exact ⟨o, [], rfl, by simpa using h⟩
  | cons p ps ih =>
    obtain ⟨o1, bs, ho1, h1⟩ := h.put p
    obtain ⟨o2, rest, ho2, h2⟩ := ih h1
    refine ⟨o2, bs ++ rest, ?_, ?_⟩
    · simp [Record.putAll, ho1, ho2]
    · rwa [← append_assoc]

/-- Between two records: the last one has ended and nothing of the next is written. -/
structure Between (o : Out) (recs : List Sent) : Prop where
  writing : Writing o recs []
  frag : o.frag = []

lemma Between.holds (h : Between o recs) : Holds o recs [] := ⟨[], h.writing, by simp [h.frag]⟩

lemma Holds.endofrecord (h : Holds o recs data) (sendnow : Bool) :
    ∃ r : Sent, r.data = data ∧ Between (xdrrecEndofrecord o sendnow) (recs ++ [r]) ∧
      (sendnow = true → (xdrrecEndofrecord o sendnow).done = []) := by
  obtain ⟨frs, hw, hdata⟩ := h
  have hsmall : ∀ r ∈ recs ++ [⟨frs, o.frag⟩], r.Small :=
    forall_mem_append.mpr ⟨hw.small, forall_mem_singleton.mpr ⟨hw.cut, hw.frag_lt⟩⟩
  have hbytes : recordsBytes (recs ++ [⟨frs, o.frag⟩]) ++ fragsBytes [] =
      o.written ++ o.done ++ (wordBytes (fragHeader o.frag.length true) ++ o.frag) := by
    rw [hw.stream]
    simp [recordsBytes, fragsBytes, Sent.bytes, fragBytes]
  refine ⟨⟨frs, o.frag⟩, hdata, ?_⟩
  unfold xdrrecEndofrecord
  split
  · refine ⟨⟨⟨?_, hsmall, by simp, ?_⟩, rfl⟩, fun _ => rfl⟩
    · rw [hbytes]
      simp [flushOut]
    · have := o.sendsize.large
      simp only [flushOut, Out.outFinger, Out.outBoundry, length_nil]
      omega
  rename_i hstay
  simp only [not_or, not_le] at hstay
  refine ⟨⟨⟨?_, hsmall, by simp, ?_⟩, rfl⟩, fun hnow => absurd hnow hstay.1⟩
  · rw [hbytes]
    simp
  · have := hstay.2.2
    simp only [Out.outFinger, Out.outBoundry, length_append, length_wordBytes, length_nil] at this ⊢
    omega

lemma Between.writeRecords (rs : List Written) (h : Between o recs) :
    ∃ o' datas recs', writeRecords o rs = some (o', datas) ∧ Between o' (recs ++ recs') ∧ recs'.map Sent.data = datas ∧
      datas.length = rs.length ∧ ((rs.getLast?.any fun r => r.sendnow) = true → o'.done = []) := by
  induction rs generalizing o recs with
  | nil => exact ⟨o, [], [], rfl, by simpa using h, rfl, rfl, by simp⟩
  | cons r rs ih =>
    obtain ⟨o1, data, ho1, h1⟩ := h.holds.putAll r.puts
    obtain ⟨sent, hdata, hbetween, hdone⟩ := h1.endofrecord r.sendnow
    obtain ⟨o2, datas, recs', ho2, h2, hdatas, hlen, hdone2⟩ := ih hbetween
    refine ⟨o2, data :: datas, sent :: recs', ?_, ?_, ?_, by simp [hlen], ?_⟩
    · simp [Record.writeRecords, ho1, ho2]
    · simpa using h2
    · simp [hdata, hdatas]
    · intro hlast
      cases rs with
      | nil =>
        simp only [Record.writeRecords, Option.some.injEq, Prod.mk.injEq] at ho2
        rw [← ho2.1]
        exact hdone (by simpa using hlast)
      | cons r' rs => exact hdone2 (by simpa using hlast)

lemma between_create (sendsize : BufSize) : Between (createOut sendsize) [] := by
  refine ⟨⟨rfl, by simp, by simp, ?_⟩, rfl⟩
  have := sendsize.large
  simp only [createOut, Out.outFinger, Out.outBoundry, length_nil]
  omega

lemma written_eq (h : Between o recs) (hdone : o.done = []) : o.written = recordsBytes recs := by
  have := h.writing.stream
  rw [hdone] at this
  simpa [fragsBytes] using this

end Writer

end Records

end Solaris.Record
