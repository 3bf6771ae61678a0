import Solaris.Record.Transparent
import Solaris.Xdr.Sound

/-!
# Both streams append and give back

A stream in memory writes at its position while there is room. A stream over message blocks fills one block
after the other: the room of every block is a multiple of four, so a word is never cut and no byte of a block is
left out.
-/

namespace Solaris.Xdr

section Streams

open Lib List Option Nat

lemma asInt_of_lt {n : Nat} (h : n < 2 ^ 31) : asInt n = n := by
  have hmod : n % 2 ^ 32 = n := mod_eq_of_lt (by omega)
  rw [asInt, BitVec.toInt_eq_toNat_of_lt, BitVec.toNat_ofNat, hmod]
  rw [BitVec.toNat_ofNat, hmod]
  omega

section Memory

structure MemWrites (s : Mem) (out : List Byte) (n : Nat) : Prop where
  pos : s.pos = out.length
  written : s.buf.take s.pos = out
  room : (n : Int) ≤ s.handy
  bound : s.pos + s.handy ≤ s.buf.length

structure MemReads (len : Nat) (s : Mem) (ahead : List Byte) : Prop where
  rest : s.buf.drop s.pos = ahead
  handy : s.handy = ahead.length
  pos : s.pos + ahead.length = len

lemma MemWrites.store {s : Mem} {out : List Byte} {n : Nat} {bs : List Byte} (h : MemWrites s out (bs.length + n))
    (hlen : bs.length < 2 ^ 31) : MemWrites (s.store bs) (out ++ bs) n := by
  have hroom := h.room
  have hbound := h.bound
  have hpos := h.pos
  refine ⟨?_, ?_, ?_, ?_⟩
  · simp [Mem.store, hpos]
  · have hl : (out ++ bs).length = s.pos + bs.length := by simp [hpos]
    simp only [Mem.store, h.written]
    rw [← hl, take_left]
  · simp only [Mem.store, asInt_of_lt hlen]
    omega
  · simp only [Mem.store, asInt_of_lt hlen, h.written, length_append, length_drop]
    omega

lemma xdrmem_appends : Appends xdrmemOps MemWrites := by
  refine ⟨?_, ?_⟩
  · intro w s out n hs _
    have hroom := hs.room
    rw [length_wordBytes] at hroom
    refine ⟨s.store (wordBytes w), ?_, hs.store (by simp)⟩
    exact if_neg (by omega)
  · intro bs _ hlen s out n hs _
    have hroom := hs.room
    refine ⟨s.store bs, ?_, hs.store hlen⟩
    exact if_neg (by rw [asInt_of_lt hlen]; omega)

lemma MemReads.skip {len : Nat} {s : Mem} {bs ahead : List Byte} (h : MemReads len s (bs ++ ahead))
    (hlen : bs.length < 2 ^ 31) : MemReads len (s.skip bs.length) ahead := by
  refine ⟨?_, ?_, ?_⟩
  · simp only [Mem.skip]
    rw [← drop_drop, h.rest, drop_left]
  · have := h.handy
    simp only [Mem.skip, asInt_of_lt hlen]
    rw [this, length_append]
    omega
  · have := h.pos
    rw [length_append] at this
    simp only [Mem.skip]
    omega

lemma xdrmem_givesBack (len : Nat) : GivesBack xdrmemOps (MemReads len) := by
  refine ⟨?_, ?_⟩
  · intro w s rest hs _
    have hhandy := hs.handy
    rw [length_append, length_wordBytes] at hhandy
    refine ⟨s.skip 4, ?_, hs.skip (by simp)⟩
    simp only [xdrmemOps, xdrmemGetlong]
    rw [if_neg (by omega), hs.rest, wordOf_wordBytes_append]
  · intro bs _ hlen s rest hs _
    have hhandy := hs.handy
    rw [length_append] at hhandy
    refine ⟨s.skip bs.length, ?_, hs.skip hlen⟩
    simp only [xdrmemOps, xdrmemGetbytes]
    rw [if_neg (by rw [asInt_of_lt hlen]; omega), hs.rest, take_left]

end Memory

section Writing

variable {s : Mblk} {m : Block} {conts : List Block} {out : List Byte}

def contents (l : List Block) : List Byte := l.flatMap fun m => m.data

/-- The block `m` is being filled, and the blocks after it are empty. -/
structure Writing (s : Mblk) (m : Block) (conts : List Block) (out : List Byte) : Prop where
  chain : s.chain = m :: conts
  handy : s.handy = m.room
  written : contents s.before ++ m.data = out
  unit : 4 ∣ m.room + out.length
  empty : ∀ c ∈ conts, c.data = [] ∧ 0 < c.room ∧ 4 ∣ c.room
  grows : 0 < s.bufLen ∧ 4 ∣ s.bufLen
  sizes : ∀ k, 4 ∣ s.sizes k

def MblkWrites (s : Mblk) (out : List Byte) (_ : Nat) : Prop := ∃ m conts, Writing s m conts out

lemma Writing.store (h : Writing s m conts out) (bs : List Byte) (hle : bs.length ≤ m.room) :
    ∃ s', storeBytes s bs = some s' ∧ Writing s' ⟨m.data ++ bs, m.room - bs.length⟩ conts (out ++ bs) := by
  refine ⟨{ s with chain := ⟨m.data ++ bs, m.room - bs.length⟩ :: conts, handy := s.handy - bs.length }, ?_,
    ⟨rfl, ?_, ?_, ?_, h.empty, h.grows, h.sizes⟩⟩
  · simp only [storeBytes, h.chain, hle, if_true]
  · simp only [h.handy]
    omega
  · simp only
    rw [← append_assoc, h.written]
  · have := h.unit
    rw [length_append]
    simp only
    omega

lemma Writing.next (h : Writing s m conts out) (hfull : m.room = 0) :
    ∃ s' m' conts', nextBlock s = some s' ∧ Writing s' m' conts' out ∧ 0 < m'.room ∧
      conts'.length = conts.length - 1 := by
  have hdvd := h.unit
  rw [hfull, zero_add] at hdvd
  have hout : contents (s.before ++ [m]) = out := by
    rw [← h.written]
    simp [contents]
  cases conts with
  | nil =>
    obtain ⟨m', hm'⟩ : ∃ m', xdrmblkAlloc s = some m' := ⟨_, if_neg (Nat.pos_iff_ne_zero.mp h.grows.1)⟩
    have hcap : m'.data = [] ∧ 0 < m'.room ∧ 4 ∣ m'.room := by
      rw [xdrmblkAlloc, if_neg (Nat.pos_iff_ne_zero.mp h.grows.1)] at hm'
      cases hm'
      refine ⟨rfl, ?_, ?_⟩
      · simp only
        split
        · exact h.grows.1
        · omega
      · simp only
        split
        · exact h.grows.2
        · exact h.sizes _
    refine ⟨{ s with before := s.before ++ [m], chain := [m'], handy := m'.room, allocs := s.allocs + 1 }, m', [], ?_,
      ⟨rfl, rfl, ?_, ?_, ?_, h.grows, h.sizes⟩, hcap.2.1, rfl⟩
    · simp only [nextBlock, h.chain, hm', map_some]
    · simp only [hout, hcap.1, append_nil]
    · exact Nat.dvd_add hcap.2.2 hdvd
    · intro c hc
      cases hc
  | cons m' conts =>
    obtain ⟨hdata, hpos, hunit⟩ := h.empty m' (mem_cons_self ..)
    refine ⟨{ s with before := s.before ++ [m], chain := m' :: conts, handy := m'.data.length + m'.room }, m', conts, ?_,
      ⟨rfl, ?_, ?_, ?_, ?_, h.grows, h.sizes⟩, hpos, ?_⟩
    · simp only [nextBlock, h.chain]
    · simp [hdata]
    · simp only [hout, hdata, append_nil]
    · exact Nat.dvd_add hunit hdvd
    · exact fun c hc => h.empty c (mem_cons_of_mem _ hc)
    · simp

/-- The loop of `xdrmblk_putbytes` writes all the bytes: every turn either leaves a block of the chain or fills
a new one. -/
theorem Writing.loop (fuel : Nat) (h : Writing s m conts out) (bs : List Byte) (hlen : bs.length < 2 ^ 31)
    (hfuel : conts.length + bs.length + (if m.room = 0 then 1 else 0) < fuel) :
    ∃ s' m' conts', putbytesLoop fuel s bs = some s' ∧ Writing s' m' conts' (out ++ bs) := by
  induction fuel generalizing s m conts out bs with
  | zero => omega
  | succ fuel ih =>
    rw [putbytesLoop, asInt_of_lt hlen, h.handy]
    by_cases hlt : (m.room : Int) - bs.length < 0
    · rw [if_pos hlt]
      have htake : (bs.take m.room).length = m.room := by
        rw [length_take]
        omega
      obtain ⟨s1, hs1, m1, hw1, hroom1⟩ : ∃ s1, (if (0 : Int) < m.room then storeBytes s (bs.take m.room) else some s) = some s1 ∧
          ∃ m1, Writing s1 m1 conts (out ++ bs.take m.room) ∧ m1.room = 0 := by
        by_cases hpos : (0 : Int) < m.room
        · obtain ⟨s1, hs1, hw1⟩ := h.store _ (le_of_eq htake)
          refine ⟨s1, by rw [if_pos hpos, hs1], _, hw1, ?_⟩
          simp only [htake]
          omega
        · have hzero : m.room = 0 := by omega
          exact ⟨s, if_neg hpos, m, by simpa [hzero] using h, hzero⟩
      obtain ⟨s2, m2, conts2, hs2, hw2, hpos2, hconts2⟩ := hw1.next hroom1
      have hdrop : (bs.drop m.room).length = bs.length - m.room := length_drop
      have hfuel2 : conts2.length + (bs.drop m.room).length + (if m2.room = 0 then 1 else 0) < fuel := by
        rw [if_neg (by omega), hdrop, hconts2]
        split at hfuel <;> omega
      obtain ⟨s3, m3, conts3, hs3, hw3⟩ := ih hw2 (bs.drop m.room) (by omega) hfuel2
      refine ⟨s3, m3, conts3, ?_, ?_⟩
      · simp only [Int.toNat_natCast, hs1, hs2, hs3, bind_some]
      · rwa [append_assoc, take_append_drop] at hw3
    · rw [if_neg hlt]
      obtain ⟨s', hs', hw'⟩ := h.store bs (by omega)
      exact ⟨s', _, _, hs', hw'⟩

lemma xdrmblk_appends : Appends xdrmblkOps MblkWrites := by
  refine ⟨?_, ?_⟩
  · rintro w s out n ⟨m, conts, h⟩ hout
    have hne : s.chain ≠ [] := by simp [h.chain]
    have hunit := h.unit
    have hput : ∀ {s' m' conts'}, Writing s' m' conts' out → 4 ≤ m'.room →
        ∃ s'', storeBytes s' (wordBytes w) = some s'' ∧ MblkWrites s'' (out ++ wordBytes w) n := by
      intro s' m' conts' h' hroom
      obtain ⟨s'', hs'', hw''⟩ := h'.store (wordBytes w) (by simpa using hroom)
      exact ⟨s'', hs'', _, _, hw''⟩
    simp only [xdrmblkOps, xdrmblkPutlong, hne, if_false, h.handy]
    by_cases hlt : (m.room : Int) - 4 < 0
    · -- the position is a multiple of four, and so is the room that is left
      rw [if_pos hlt]
      obtain ⟨s', m', conts', hs', hw', hpos', -⟩ := h.next (by omega)
      have hunit' := hw'.unit
      obtain ⟨s'', hs'', hw''⟩ := hput hw' (by omega)
      exact ⟨s'', by rw [hs', bind_some, hs''], hw''⟩
    · rw [if_neg hlt]
      exact hput h (by omega)
  · rintro bs _ hlen s out n ⟨m, conts, h⟩ _
    have hne : s.chain ≠ [] := by simp [h.chain]
    have hfuel : conts.length + bs.length + (if m.room = 0 then 1 else 0) < s.chain.length + bs.length + 1 := by
      rw [h.chain, length_cons]
      split <;> omega
    obtain ⟨s', m', conts', hs', hw'⟩ := h.loop _ bs hlen hfuel
    refine ⟨s', ?_, m', conts', hw'⟩
    simp only [xdrmblkOps, xdrmblkPutbytes, hne, if_false, hs']

end Writing

section Reading

variable {s : Mblk} {m : Block} {conts : List Block} {ahead : List Byte}

/-- The block `m` is being read, and the chain is cut at multiples of four. -/
structure Reading (s : Mblk) (m : Block) (conts : List Block) (ahead : List Byte) : Prop where
  chain : s.chain = m :: conts
  handy : s.handy = m.data.length
  data : m.data ++ contents conts = ahead
  unit : ∀ c ∈ conts, 4 ∣ c.data.length

def MblkReads (s : Mblk) (ahead : List Byte) : Prop := ∃ m conts, Reading s m conts ahead

lemma dvd_length_contents (h : ∀ c ∈ conts, 4 ∣ c.data.length) : 4 ∣ (contents conts).length := by
  induction conts with
  | nil => exact dvd_zero 4
  | cons m conts ih =>
    have hm := h m (mem_cons_self ..)
    have hconts := ih fun c hc => h c (mem_cons_of_mem _ hc)
    rw [contents, flatMap_cons, length_append]
    exact Nat.dvd_add hm hconts

lemma split_of_append_eq {a b c d : List Byte} (h : a ++ c = b ++ d) (hle : b.length ≤ a.length) :
    a = b ++ a.drop b.length ∧ a.drop b.length ++ c = d := by
  have htake := congrArg (take b.length) h
  rw [take_append_of_le_length hle, take_left] at htake
  have hsplit : a = b ++ a.drop b.length := by
    conv_lhs => rw [← take_append_drop b.length a, htake]
  refine ⟨hsplit, ?_⟩
  rw [hsplit, append_assoc] at h
  exact append_cancel_left h

lemma reads_here (s : Mblk) (before : List Block) {bs rest : List Byte} (hdata : m.data ++ contents conts = bs ++ rest)
    (hle : bs.length ≤ m.data.length) (hunit : ∀ c ∈ conts, 4 ∣ c.data.length) :
    MblkReads { s with before := before, chain := m.drop bs.length :: conts, handy := (m.data.length : Int) - bs.length }
      rest := by
  obtain ⟨-, hrest⟩ := split_of_append_eq hdata hle
  refine ⟨m.drop bs.length, conts, rfl, ?_, hrest, hunit⟩
  simp only [Block.drop, length_drop]
  omega

lemma getlongFrom_spec (s : Mblk) (before : List Block) (w : BitVec 32) (rest : List Byte) (hrest : 4 ∣ rest.length)
    (m : Block) (conts : List Block) (hdata : m.data ++ contents conts = wordBytes w ++ rest)
    (hunit : ∀ c ∈ conts, 4 ∣ c.data.length) :
    ∃ s', getlongFrom s before m.data.length (m :: conts) = some (w, s') ∧ MblkReads s' rest := by
  induction conts generalizing m before with
  | nil =>
    have hm : m.data = wordBytes w ++ rest := by simpa [contents] using hdata
    have hle : (wordBytes w).length ≤ m.data.length := by simp [hm]
    refine ⟨_, ?_, reads_here s before hdata hle hunit⟩
    rw [length_wordBytes] at hle
    rw [getlongFrom, if_neg (by omega), hm, wordOf_wordBytes_append]
    simp [Block.drop, hm]
  | cons m' conts ih =>
    have hlen : m.data.length + (contents (m' :: conts)).length = 4 + rest.length := by
      rw [← length_append, hdata, length_append, length_wordBytes]
    have hdvd := dvd_length_contents hunit
    rw [getlongFrom]
    by_cases hlt : (m.data.length : Int) - 4 < 0
    · have hzero : m.data.length = 0 := by omega
      have hnil := eq_nil_of_length_eq_zero hzero
      rw [if_pos hlt, if_neg (by omega)]
      refine ih _ m' ?_ fun c hc => hunit c (mem_cons_of_mem _ hc)
      simpa [hnil, contents] using hdata
    have hle : (wordBytes w).length ≤ m.data.length := by
      rw [length_wordBytes]
      omega
    have hw : wordOf m.data = w := by
      rw [(split_of_append_eq hdata hle).1, wordOf_wordBytes_append]
    rw [if_neg hlt, hw]
    exact ⟨_, rfl, reads_here s before hdata hle hunit⟩

lemma getbytesFrom_spec (s : Mblk) (before : List Block) (bs rest : List Byte) (hlen : bs.length < 2 ^ 31)
    (addr : List Byte) (m : Block) (conts : List Block) (hdata : m.data ++ contents conts = bs ++ rest)
    (hunit : ∀ c ∈ conts, 4 ∣ c.data.length) :
    ∃ s', getbytesFrom s before m.data.length bs.length addr (m :: conts) = some (addr ++ bs, s') ∧ MblkReads s' rest := by
  induction conts generalizing m before bs addr with
  | nil =>
    have hm : m.data = bs ++ rest := by simpa [contents] using hdata
    have hle : bs.length ≤ m.data.length := by simp [hm]
    refine ⟨_, ?_, reads_here s before hdata hle hunit⟩
    rw [getbytesFrom, asInt_of_lt hlen, if_neg (by omega)]
    simp [hm]
  | cons m' conts ih =>
    rw [getbytesFrom, asInt_of_lt hlen]
    by_cases hlt : (m.data.length : Int) - bs.length < 0
    · obtain ⟨hsplit, hdata'⟩ := split_of_append_eq hdata.symm (by omega)
      rw [if_pos hlt, Int.toNat_natCast, take_length, ← length_drop]
      have hnext : m'.data ++ contents conts = bs.drop m.data.length ++ rest := by
        rw [hdata']
        simp [contents]
      obtain ⟨s', hs', hr'⟩ := ih (before ++ [m.drop m.data.length]) (bs.drop m.data.length)
        (by rw [length_drop]; omega) (addr ++ m.data) m' hnext fun c hc => hunit c (mem_cons_of_mem _ hc)
      refine ⟨s', ?_, hr'⟩
      rw [append_assoc, ← hsplit] at hs'
      exact hs'
    · have hle : bs.length ≤ m.data.length := by omega
      have htake : m.data.take bs.length = bs := by
        rw [(split_of_append_eq hdata hle).1, take_left]
      rw [if_neg hlt, htake]
      exact ⟨_, rfl, reads_here s before hdata hle hunit⟩

lemma xdrmblk_givesBack : GivesBack xdrmblkOps MblkReads := by
  refine ⟨?_, ?_⟩
  · rintro w s rest ⟨m, conts, h⟩ hrest
    simp only [xdrmblkOps, xdrmblkGetlong, h.chain, h.handy]
    exact getlongFrom_spec s s.before w rest hrest m conts h.data h.unit
  · rintro bs _ hlen s rest ⟨m, conts, h⟩ _
    simp only [xdrmblkOps, xdrmblkGetbytes, h.chain, h.handy]
    exact getbytesFrom_spec s s.before bs rest hlen [] m conts h.data h.unit

end Reading

end Streams

/-!
## Decoding undoes encoding

Both streams write the wire format of a value, whatever the blocks, and both read the value back from it and stop
at its end.
-/

section RoundTrip

open Lib List Option

/-- What a chain of blocks must be to be encoded onto: empty, and with room in multiples of four. -/
structure Fresh (room : Nat) (conts : List Block) (sz : Nat) (sizes : Nat → Nat) : Prop where
  first : 4 ∣ room
  conts : ∀ c ∈ conts, c.data = [] ∧ 0 < c.room ∧ 4 ∣ c.room
  grows : 0 < sz ∧ 4 ∣ sz
  sizes : ∀ k, 4 ∣ sizes k

/-- The value is written as one sequence of bytes by both streams and read back by both. -/
structure RoundTrip (t : Ty) (v : Val) : Prop where
  unit : 4 ∣ (t.wire v).length
  toMem : ∀ buf, (t.wire v).length ≤ buf.length → buf.length < 2 ^ 31 →
    ∃ s, (t.proc xdrmemOps).encode v (xdrmemCreate buf) = some s ∧ s.buf.take s.pos = t.wire v
  toMblk : ∀ room conts sz sizes, Fresh room conts sz sizes →
    ∃ s, (t.proc xdrmblkOps).encode v (xdrmblkInit ⟨[], room⟩ conts .encode sz sizes) = some s ∧
      contents (s.before ++ s.chain) = t.wire v
  fromMem : ∀ rest, 4 ∣ rest.length → (t.wire v ++ rest).length < 2 ^ 31 →
    ∃ s, (t.proc xdrmemOps).decode (xdrmemCreate (t.wire v ++ rest)) = some (v, s) ∧
      s.pos = (t.wire v).length ∧ s.handy = rest.length
  fromMblk : ∀ m conts rest sz sizes, contents (m :: conts) = t.wire v ++ rest → (∀ c ∈ m :: conts, 4 ∣ c.data.length) →
    ∃ s, (t.proc xdrmblkOps).decode (xdrmblkInit m conts .decode sz sizes) = some (v, s) ∧ contents s.chain = rest

lemma memWrites_create {buf : List Byte} (h : buf.length < 2 ^ 31) : MemWrites (xdrmemCreate buf) [] buf.length :=
  ⟨rfl, rfl, by simp [xdrmemCreate, asInt_of_lt h], by simp [xdrmemCreate, asInt_of_lt h]⟩

lemma memReads_create {buf : List Byte} (h : buf.length < 2 ^ 31) : MemReads buf.length (xdrmemCreate buf) buf :=
  ⟨rfl, asInt_of_lt h, zero_add _⟩

lemma mblkWrites_init {room sz : Nat} {conts : List Block} {sizes : Nat → Nat} (h : Fresh room conts sz sizes) (n : Nat) :
    MblkWrites (xdrmblkInit ⟨[], room⟩ conts .encode sz sizes) [] n :=
  ⟨⟨[], room⟩, conts, rfl, by simp [xdrmblkInit], rfl, by simpa using h.first, h.conts, h.grows, h.sizes⟩

lemma MblkWrites.contents {s : Mblk} {out : List Byte} {n : Nat} (h : MblkWrites s out n) :
    contents (s.before ++ s.chain) = out := by
  obtain ⟨m, conts, hw⟩ := h
  have hempty : Xdr.contents conts = [] := by
    rw [Xdr.contents, flatMap_eq_nil_iff]
    exact fun c hc => (hw.empty c hc).1
  have hsplit : Xdr.contents (s.before ++ s.chain) = Xdr.contents s.before ++ (m.data ++ Xdr.contents conts) := by
    rw [hw.chain]
    simp [Xdr.contents]
  rw [hsplit, hempty, append_nil, hw.written]

lemma mblkReads_init {m : Block} {conts : List Block} {ahead : List Byte} (hdata : contents (m :: conts) = ahead)
    (hunit : ∀ c ∈ m :: conts, 4 ∣ c.data.length) (sz : Nat) (sizes : Nat → Nat) :
    MblkReads (xdrmblkInit m conts .decode sz sizes) ahead :=
  ⟨m, conts, rfl, rfl, hdata, fun c hc => hunit c (List.mem_cons_of_mem _ hc)⟩

lemma MblkReads.contents {s : Mblk} {ahead : List Byte} (h : MblkReads s ahead) : contents s.chain = ahead := by
  obtain ⟨m, conts, hr⟩ := h
  rw [hr.chain]
  exact hr.data

/-- Every value is encoded by both streams as the same bytes, and decoded from them by both. -/
theorem decode_undoes_encode (t : Ty) (v : Val) (h : t.HasVal v) (hlen : (t.wire v).length < 2 ^ 31) : RoundTrip t v := by
  have hunit := t.dvd_length_wire v h
  have hmem : ∀ len, Codes xdrmemOps MemWrites (MemReads len) (t.proc xdrmemOps) v (t.wire v) := fun _ => t.codes v h hlen
  have hmblk : Codes xdrmblkOps MblkWrites MblkReads (t.proc xdrmblkOps) v (t.wire v) := t.codes v h hlen
  refine ⟨hunit, ?_, ?_, ?_, ?_⟩
  · intro buf hle hbuf
    have hs := memWrites_create hbuf
    rw [← Nat.add_sub_cancel' hle] at hs
    obtain ⟨s, hs, hw⟩ := (hmem 0).puts xdrmem_appends _ [] _ hs (dvd_zero 4)
    exact ⟨s, hs, hw.written⟩
  · intro room conts sz sizes hfresh
    obtain ⟨s, hs, hw⟩ := hmblk.puts xdrmblk_appends _ [] 0 (mblkWrites_init hfresh _) (dvd_zero 4)
    exact ⟨s, hs, hw.contents⟩
  · intro rest hrest hbuf
    obtain ⟨s, hs, hr⟩ := (hmem _).gets (xdrmem_givesBack _) _ rest (memReads_create hbuf) hrest
    have hpos := hr.pos
    rw [length_append] at hpos
    exact ⟨s, hs, by omega, hr.handy⟩
  · intro m conts rest sz sizes hdata hdvd
    have hrest : 4 ∣ rest.length := by
      have := dvd_length_contents hdvd
      rw [hdata, length_append] at this
      exact (Nat.dvd_add_right hunit).mp this
    obtain ⟨s, hs, hr⟩ := hmblk.gets xdrmblk_givesBack _ rest (mblkReads_init hdata hdvd sz sizes) hrest
    exact ⟨s, hs, hr.contents⟩

/-- An array of unions, of a string or by default of a hyper. -/
def sampleTy : Ty := .array 10 12 (.union (.choice 1 (.string 5) (.dfault .hyper)))

def sampleVal : Val := .array [.union 1 (.bytes [0x61, 0x62, 0x63]), .union 7 (.hyper 5)]

theorem decode_undoes_encode_sample : sampleTy.HasVal sampleVal ∧ RoundTrip sampleTy sampleVal := by
  have hval : sampleTy.HasVal sampleVal := by
    refine ⟨_, rfl, by decide, by decide, ?_⟩
    refine forall_mem_cons.mpr ⟨⟨1, _, rfl, .inl ⟨rfl, _, rfl, by decide, by decide⟩⟩, fun x hx => ?_⟩
    rw [mem_singleton.mp hx]
    exact ⟨7, _, rfl, .inr ⟨by decide, 5, rfl⟩⟩
  exact ⟨hval, decode_undoes_encode sampleTy sampleVal hval (by decide +kernel)⟩

end RoundTrip

/-!
## Values in records

The filters over the streams of `xdr_rec.c` and of `xdr_sizeof.c`.
-/

section Records

open Lib List Record

/-- `xdrrec_ops`, encoding. -/
def xdrrecEncodeOps : Ops Out := ⟨fun _ => none, fun o w => some (xdrrecPutlong o w), fun _ _ => none, xdrrecPutbytes⟩

/-- `xdrrec_ops`, decoding. -/
def xdrrecDecodeOps : Ops In where
  getlong s := (xdrrecGetlong s).1.map (·, (xdrrecGetlong s).2)
  putlong _ _ := none
  getbytes s len := (xdrrecGetbytes s len).1.map (·, (xdrrecGetbytes s len).2)
  putbytes _ _ := none

/-- `x_putlong` and `x_putbytes` count in `x_handy`. -/
def xdrSizeofOps : Ops (BitVec 32) :=
  ⟨fun _ => none, fun handy _ => some (handy + 4), fun _ _ => none, fun handy bs => some (handy + BitVec.ofNat 32 bs.length)⟩

def xdrSizeof (t : Ty) (v : Val) : Nat := (((t.proc xdrSizeofOps).encode v 0).getD 0).toNat

/-- A value of a type, which is less than 2 ^ 31 bytes long when encoded. -/
structure Message where
  type : Ty
  val : Val
  ok : type.HasVal val
  small : (type.wire val).length < 2 ^ 31

/-- A value is encoded as a record. -/
def Message.send (m : Message) (sendnow : Bool) (o : Out) : Option Out :=
  ((m.type.proc xdrrecEncodeOps).encode m.val o).map (xdrrecEndofrecord · sendnow)

def sendAll (o : Out) : List (Message × Bool) → Option Out
  | [] => some o
  | m :: ms => (m.1.send m.2 o).bind (sendAll · ms)

/-- Each value is decoded from the next record. -/
def receiveAll (s : In) : List Ty → Option (List Val)
  | [] => some []
  | t :: ts =>
    if (xdrrecSkiprecord s).1 then
      ((t.proc xdrrecDecodeOps).decode (xdrrecSkiprecord s).2).bind fun r => (receiveAll r.2 ts).map (r.1 :: ·)
    else none

variable {σ : Type} {ops : Ops σ} {W : σ → List Byte → Nat → Prop} {o : Out} {s : In} {data : List Byte} {recs : List Sent}

lemma Message.puts (m : Message) (h : Appends ops W) :
    Puts 4 W ((m.type.proc ops).encode m.val) (m.type.wire m.val) :=
  (m.type.codes (R := fun _ _ => True) m.val m.ok m.small).puts h

lemma xdrrec_appends (recs : List Sent) : Appends xdrrecEncodeOps fun o out _ => Holds o recs out where
  putlong w := fun _ _ _ h _ => ⟨_, rfl, h.putlong w⟩
  putbytes bs _ _ := fun o out n h _ => by
    obtain ⟨_, _, happly, hholds⟩ := h.put (.putbytes bs)
    obtain ⟨_, hput, heq⟩ := Option.map_eq_some_iff.mp happly
    cases heq
    exact ⟨_, hput, hholds⟩

lemma xdrrec_givesBack (recs : List Sent) : GivesBack xdrrecDecodeOps fun s ahead => Left s ahead recs where
  getlong w := fun s rest h _ => by
    obtain ⟨s', hs, hleft⟩ := h.getlong
    have htake : (wordBytes w ++ rest).take 4 = wordBytes w := take_left' (length_wordBytes w)
    have hdrop : (wordBytes w ++ rest).drop 4 = rest := drop_left' (length_wordBytes w)
    exact ⟨s', by simp [xdrrecDecodeOps, hs, htake], hdrop ▸ hleft⟩
  getbytes bs _ _ := fun s rest h _ => by
    obtain ⟨s', hs, hleft⟩ := h.getbytes bs.length
    exact ⟨s', by simp [xdrrecDecodeOps, hs], by simpa using hleft⟩

lemma Message.send_spec (m : Message) (sendnow : Bool) (h : Between o recs) : ∃ o' r, m.send sendnow o = some o' ∧
    r.data = m.type.wire m.val ∧ Between o' (recs ++ [r]) ∧ (sendnow = true → o'.done = []) := by
  obtain ⟨o', ho, hholds⟩ := m.puts (xdrrec_appends recs) o [] 0 h.holds (dvd_zero 4)
  obtain ⟨r, hr, hbetween, hdone⟩ := hholds.endofrecord sendnow
  exact ⟨_, r, congrArg _ ho, hr, hbetween, hdone⟩

lemma sendAll_spec (ms : List (Message × Bool)) (h : Between o recs) : ∃ o' sent, sendAll o ms = some o' ∧
    Between o' (recs ++ sent) ∧ sent.map Sent.data = ms.map fun m => m.1.type.wire m.1.val := by
  induction ms generalizing o recs with
  | nil => exact ⟨o, [], rfl, (append_nil recs).symm ▸ h, rfl⟩
  | cons m ms ih =>
    obtain ⟨o', r, ho, hr, hbetween, _⟩ := m.1.send_spec m.2 h
    obtain ⟨o'', sent, ho', hbetween', hsent⟩ := ih hbetween
    refine ⟨o'', r :: sent, ?_, append_cons recs r sent ▸ hbetween', congrArg₂ _ hr hsent⟩
    rw [sendAll, ho]
    exact ho'

lemma receiveAll_spec (ms : List Message) (h : Left s data recs)
    (hrecs : recs.map Sent.data = ms.map fun m => m.type.wire m.val) :
    receiveAll s (ms.map (·.type)) = some (ms.map (·.val)) := by
  induction ms generalizing s data recs with
  | nil => rfl
  | cons m ms ih =>
    obtain ⟨r, recs, rfl, hr, hrest⟩ := map_eq_cons_iff.mp hrecs
    obtain ⟨s', hs, hleft⟩ := h.skiprecord
    rw [show r.data = m.type.wire m.val from hr, ← append_nil (m.type.wire m.val)] at hleft
    obtain ⟨s'', hdecode, hleft'⟩ := (m.type.codes (W := fun _ _ _ => True) m.val m.ok m.small).gets
      (xdrrec_givesBack recs) s' [] hleft (dvd_zero 4)
    rw [map_cons, receiveAll, hs, if_pos rfl, hdecode, Option.bind_some, ih hleft' hrest]
    rfl

/-- Values sent as records are received, whatever the sizes of the buffers and however the stream is delivered. -/
theorem messages_delivered (sendsize recvsize : BufSize) (ms : List (Message × Bool)) (m : Message) :
    ∃ o o', sendAll (createOut sendsize) ms = some o ∧ m.send true o = some o' ∧
      ∀ pieces, receiveAll (createIn recvsize o'.written pieces) ((ms.map (·.1) ++ [m]).map (·.type)) =
        some ((ms.map (·.1) ++ [m]).map (·.val)) := by
  obtain ⟨o, sent, ho, hbetween, hsent⟩ := sendAll_spec ms (between_create sendsize)
  obtain ⟨o', r, ho', hr, hbetween', hdone⟩ := m.send_spec true hbetween
  refine ⟨o, o', ho, ho', fun pieces => ?_⟩
  obtain ⟨recs, hleft, hrecs⟩ := at_create recvsize pieces hbetween'.writing.small
  rw [← written_eq hbetween' (hdone rfl)] at hleft
  exact receiveAll_spec _ hleft (hrecs.trans (by simp [hsent, hr]))

/-- `xdr_sizeof` tells how many bytes the filter writes on any stream. -/
theorem xdrSizeof_exact (m : Message) : ∃ bs, xdrSizeof m.type m.val = bs.length ∧
    ∀ {σ : Type} (ops : Ops σ) W, Appends ops W → Puts 4 W ((m.type.proc ops).encode m.val) bs := by
  have hsizeof : Appends xdrSizeofOps fun handy out _ => handy = BitVec.ofNat 32 out.length := by
    refine ⟨fun w handy out n h _ => ⟨_, rfl, ?_⟩, fun bs _ _ handy out n h _ => ⟨_, rfl, ?_⟩⟩
    · rw [h, length_append, length_wordBytes, BitVec.ofNat_add]
      rfl
    · rw [h, length_append, BitVec.ofNat_add]
  refine ⟨m.type.wire m.val, ?_, fun ops W h => m.puts h⟩
  obtain ⟨handy, hencode, hhandy⟩ := m.puts hsizeof 0 [] 0 rfl (dvd_zero 4)
  have hsmall := m.small
  rw [xdrSizeof, hencode, Option.getD_some, hhandy, nil_append, BitVec.toNat_ofNat, Nat.mod_eq_of_lt (by omega)]

end Records

end Solaris.Xdr
