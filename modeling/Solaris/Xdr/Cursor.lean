import Solaris.Lib.Along
import Solaris.Xdr.Filters

/-!
# The cursor of a stream in memory

Decoding calls move `x_private` and `x_handy` as 32-bit integers, whatever count the message has. A cursor is where
`x_private` is from `x_base` on; a call has the places and the numbers of the bytes that it reads.
-/

namespace Solaris.Xdr

open BitVec List Bool

open Lib (Along Byte wordOf)

section Calls

/-- `x_private`, from `x_base` on, and `x_handy` -/
structure Cursor where
  pos : Int
  handy : BitVec 32

structure Decoded where
  ok : Bool
  cursor : Cursor
  reads : List (Int × Nat)

namespace Cursor

def getlong (s : Cursor) : Decoded :=
  let handy := s.handy - 4
  if handy.toInt < 0 then ⟨false, { s with handy }, []⟩
  else ⟨true, ⟨s.pos + 4, handy⟩, [(s.pos, 4)]⟩

/-- `bcopy` takes the length as one without a sign. -/
def getbytes (s : Cursor) (len : BitVec 32) : Decoded :=
  let handy := s.handy - len
  if handy.toInt < 0 then ⟨false, { s with handy }, []⟩
  else ⟨true, ⟨s.pos + len.toInt, handy⟩, [(s.pos, len.toNat)]⟩

/-- `RNDUP` of an `int` -/
def rndupInt (x : BitVec 32) : BitVec 32 := (x + 4 - 1).sdiv 4 * 4

/-- `XDR_SKIPBYTES` -/
def skipbytes (s : Cursor) (info : BitVec 32) : Decoded :=
  let len := rndupInt info
  let handy := s.handy - len
  if handy.toInt < 0 then ⟨false, { s with handy }, []⟩
  else ⟨true, ⟨s.pos + len.toInt, handy⟩, []⟩

/-- `XDR_PEEK`: the comparison with `sizeof (long)` is one without signs. -/
def peek (s : Cursor) : Decoded :=
  if s.handy.toNat < 4 then ⟨false, s, []⟩ else ⟨true, s, [(s.pos, 4)]⟩

def xdrOpaque (s : Cursor) (cnt : BitVec 32) : Decoded :=
  if cnt = 0 then ⟨true, s, []⟩
  else
    let r := s.getbytes cnt
    if r.ok = false then r
    else if rndup cnt.toNat = 0 then r
    else
      let crud := r.cursor.getbytes (BitVec.ofNat 32 (rndup cnt.toNat))
      { crud with reads := r.reads ++ crud.reads }

variable (mem : Int → Byte)

def longAt (pos : Int) : BitVec 32 := wordOf [mem pos, mem (pos + 1), mem (pos + 2), mem (pos + 3)]

def xdrBytes (s : Cursor) (maxsize : BitVec 32) : Decoded :=
  let r := s.getlong
  if r.ok = false then r
  else
    let nodesize := longAt mem s.pos
    if nodesize > maxsize then { r with ok := false }
    else if nodesize = 0 then r
    else
      let data := r.cursor.xdrOpaque nodesize
      { data with reads := r.reads ++ data.reads }

/-- The string ends at its first null character, which is to be the one put behind it. -/
def xdrString (s : Cursor) (maxsize : BitVec 32) : Decoded :=
  let r := s.getlong
  if r.ok = false then r
  else
    let size := longAt mem s.pos
    if size > maxsize then { r with ok := false }
    else if size + 1 = 0 then r
    else
      let data := r.cursor.xdrOpaque size
      { data with
        ok := data.ok && decide (∀ i < size.toNat, mem (r.cursor.pos + i) ≠ 0)
        reads := r.reads ++ data.reads }

end Cursor

inductive DecodeCall
  | xdrLong
  | xdrOpaque (cnt : BitVec 32)
  | xdrBytes (maxsize : BitVec 32)
  | xdrString (maxsize : BitVec 32)
  | skipbytes (info : BitVec 32)
  | peek

variable (mem : Int → Byte)

def Cursor.decode (s : Cursor) : DecodeCall → Decoded
  | .xdrLong => s.getlong
  | .xdrOpaque cnt => s.xdrOpaque cnt
  | .xdrBytes maxsize => s.xdrBytes mem maxsize
  | .xdrString maxsize => s.xdrString mem maxsize
  | .skipbytes info => s.skipbytes info
  | .peek => s.peek

def decodeStep : Option Cursor → DecodeCall → Option Cursor
  | none, _ => none
  | some s, call => if (s.decode mem call).ok = true then some (s.decode mem call).cursor else none

end Calls

section Buffer

variable (mem : Int → Byte) (size : Nat)

def InBuffer (r : Int × Nat) : Prop := 0 ≤ r.1 ∧ r.1 + r.2 ≤ size

/-- The cursor is in the buffer, and `x_handy` is the number of the bytes that are left. -/
structure Cursor.Within (s : Cursor) : Prop where
  start : 0 ≤ s.pos
  stop : s.pos ≤ size
  handy : s.handy.toInt = size - s.pos

structure Decoded.Safe (r : Decoded) : Prop where
  reads : ∀ x ∈ r.reads, InBuffer size x
  cursor : r.ok = true → r.cursor.Within size

/-- A call reads inside the buffer and leaves the cursor there. -/
def CallSafe : Option Cursor → DecodeCall → Prop
  | none, _ => True
  | some s, call => (s.decode mem call).Safe size

/-- A count that is negative as an `int`, and that `x_handy` does not overflow by. -/
def TakesNegative (handy cnt : BitVec 32) : Prop := cnt.toInt < 0 ∧ handy.toInt - cnt.toInt < 2 ^ 31

/-- No accepted count is taken as a negative one; one that is skipped may be when it does not lead before the start. -/
def CountsFit : Option Cursor → DecodeCall → Prop
  | none, _ => True
  | some _, .xdrLong => True
  | some s, .xdrOpaque cnt => ¬TakesNegative s.handy cnt
  | some s, .xdrBytes maxsize => 4 ≤ s.handy.toInt → Cursor.longAt mem s.pos ≤ maxsize →
      ¬TakesNegative (s.handy - 4) (Cursor.longAt mem s.pos)
  | some s, .xdrString maxsize => 4 ≤ s.handy.toInt → Cursor.longAt mem s.pos ≤ maxsize →
      Cursor.longAt mem s.pos + 1 ≠ 0 → ¬TakesNegative (s.handy - 4) (Cursor.longAt mem s.pos)
  | some s, .skipbytes info =>
      ¬(TakesNegative s.handy (Cursor.rndupInt info) ∧ s.pos + (Cursor.rndupInt info).toInt < 0)
  | some _, .peek => True

end Buffer

section Moves

variable {mem : Int → Byte} {size : Nat} {s : Cursor} {len cnt : BitVec 32}

lemma toInt_sub_small {a b : BitVec 32} (hlo : -2 ^ 31 ≤ a.toInt - b.toInt) (hhi : a.toInt - b.toInt < 2 ^ 31) :
    (a - b).toInt = a.toInt - b.toInt := by
  rw [toInt_sub]
  exact Int.bmod_eq_of_le (by omega) (by omega)

lemma toInt_sub_wrapped {a b : BitVec 32} (hwrap : 2 ^ 31 ≤ a.toInt - b.toInt) : (a - b).toInt < 0 := by
  have ha := toInt_lt (x := a)
  have hb := le_toInt b
  rw [toInt_sub, ← Int.sub_bmod_right]
  have hsmall : (a.toInt - b.toInt - (2 ^ 32 : Nat)).bmod (2 ^ 32) = a.toInt - b.toInt - (2 ^ 32 : Nat) :=
    Int.bmod_eq_of_le (by omega) (by omega)
  omega

lemma toNat_of_nonneg {x : BitVec 32} (h : 0 ≤ x.toInt) : (x.toNat : Int) = x.toInt := by
  rw [toInt_eq_toNat_cond] at h ⊢
  split_ifs at h ⊢
  · rfl
  · omega

lemma toNat_of_neg {x : BitVec 32} (h : x.toInt < 0) : (x.toNat : Int) = x.toInt + 2 ^ 32 := by
  rw [toInt_eq_toNat_cond] at h ⊢
  split_ifs at h ⊢
  · omega
  · push_cast
    omega

lemma Cursor.Within.handy_bounds (h : s.Within size) : 0 ≤ s.handy.toInt ∧ s.handy.toInt ≤ size := by
  have hhandy := h.handy
  have hstart := h.start
  have hstop := h.stop
  omega

lemma Cursor.Within.getbytes (h : s.Within size) (hsize : size < 2 ^ 31) (hfit : ¬TakesNegative s.handy len) :
    (s.getbytes len).Safe size := by
  have hstart := h.start
  have hstop := h.stop
  have hhandy := h.handy
  unfold Cursor.getbytes
  by_cases hneg : (s.handy - len).toInt < 0
  · rw [if_pos hneg]
    exact ⟨fun _ hx => absurd hx not_mem_nil, fun hfalse => absurd hfalse false_ne_true⟩
  rw [if_neg hneg]
  have hpos : 0 ≤ len.toInt := by
    by_contra hlen
    have hbig : ¬s.handy.toInt - len.toInt < 2 ^ 31 := fun hlt => hfit ⟨not_le.mp hlen, hlt⟩
    exact hneg (toInt_sub_wrapped (not_lt.mp hbig))
  have hlt := toInt_lt (x := len)
  have hsub := toInt_sub_small (a := s.handy) (b := len) (by omega) (by omega)
  have hnat := toNat_of_nonneg hpos
  constructor
  · intro x hx
    rw [List.mem_singleton.mp hx]
    refine ⟨hstart, ?_⟩
    omega
  · intro _
    constructor
    · change 0 ≤ s.pos + len.toInt
      omega
    · change s.pos + len.toInt ≤ size
      omega
    · change (s.handy - len).toInt = size - (s.pos + len.toInt)
      omega

lemma Cursor.Within.getbytes_taken (h : s.Within size) (hsize : size < 2 ^ 31) (htaken : TakesNegative s.handy len) :
    (s.getbytes len).reads = [(s.pos, len.toNat)] ∧ ¬InBuffer size (s.pos, len.toNat) := by
  obtain ⟨hneg, hroom⟩ := htaken
  obtain ⟨hlo, hhi⟩ := h.handy_bounds
  have hsub := toInt_sub_small (by omega) hroom
  have hnat := toNat_of_neg hneg
  constructor
  · unfold Cursor.getbytes
    rw [if_neg (by omega)]
  · rintro ⟨hstart, hstop⟩
    omega

lemma rndup_le (n : Nat) : rndup n ≤ 3 := by
  unfold rndup
  split_ifs
  · omega
  · exact Nat.zero_le 3

section

variable (h : s.Within size) (hsize : size < 2 ^ 31)

include h hsize

lemma Cursor.Within.xdrOpaque_taken (htaken : TakesNegative s.handy cnt) :
    ∃ x ∈ (s.xdrOpaque cnt).reads, ¬InBuffer size x := by
  have h0 : cnt ≠ 0 := by
    rintro rfl
    exact absurd htaken.1 (by decide)
  obtain ⟨hreads, hout⟩ := h.getbytes_taken hsize htaken
  refine ⟨_, ?_, hout⟩
  unfold Cursor.xdrOpaque
  rw [if_neg h0]
  dsimp only
  split_ifs
  · rw [hreads]
    exact mem_cons_self
  · rw [hreads]
    exact mem_cons_self
  · rw [hreads]
    exact mem_append_left _ mem_cons_self

lemma Cursor.Within.xdrOpaque (hfit : ¬TakesNegative s.handy cnt) :
    (s.xdrOpaque cnt).Safe size := by
  unfold Cursor.xdrOpaque
  by_cases h0 : cnt = 0
  · rw [if_pos h0]
    exact ⟨fun _ hx => absurd hx not_mem_nil, fun _ => h⟩
  dsimp only
  have hdata := h.getbytes hsize hfit
  split_ifs with hfail hround
  · exact hdata
  · exact hdata
  · have hwithin := hdata.cursor (eq_true_of_not_eq_false hfail)
    have hle := rndup_le cnt.toNat
    have hsmall : ¬TakesNegative (s.getbytes cnt).cursor.handy (BitVec.ofNat 32 (rndup cnt.toNat)) := by
      rintro ⟨hneg, -⟩
      rw [toInt_eq_toNat_of_lt (by rw [toNat_ofNat]; omega)] at hneg
      omega
    have hcrud := hwithin.getbytes hsize hsmall
    refine ⟨?_, hcrud.cursor⟩
    exact List.forall_mem_append.mpr ⟨hdata.reads, hcrud.reads⟩

lemma Cursor.Within.getlong :
    s.getlong.Safe size ∧ (s.getlong.ok = true ↔ 4 ≤ s.handy.toInt) ∧ s.getlong.cursor.handy = s.handy - 4 := by
  obtain ⟨hlo, hhi⟩ := h.handy_bounds
  have hhandy := h.handy
  have hstart := h.start
  have hsub : (s.handy - 4).toInt = s.handy.toInt - 4 := toInt_sub_small (by
    change _ ≤ s.handy.toInt - 4
    omega) (by
    change s.handy.toInt - 4 < _
    omega)
  unfold Cursor.getlong
  by_cases hneg : (s.handy - 4).toInt < 0
  · rw [if_pos hneg]
    refine ⟨⟨fun _ hx => absurd hx not_mem_nil, fun hfalse => absurd hfalse false_ne_true⟩, ?_, rfl⟩
    exact iff_of_false false_ne_true (by omega)
  rw [if_neg hneg]
  refine ⟨⟨?_, fun _ => ⟨?_, ?_, ?_⟩⟩, iff_of_true rfl (by omega), rfl⟩
  · intro x hx
    rw [List.mem_singleton.mp hx]
    refine ⟨hstart, ?_⟩
    omega
  · change 0 ≤ s.pos + 4
    omega
  · change s.pos + 4 ≤ size
    omega
  · change (s.handy - 4).toInt = size - (s.pos + 4)
    omega

lemma Cursor.Within.counted_iff (hlong : s.getlong.ok = true) {ok : Bool}
    (hok : ok = true → (s.getlong.cursor.xdrOpaque cnt).ok = true) :
    Decoded.Safe size { s.getlong.cursor.xdrOpaque cnt with
      ok, reads := s.getlong.reads ++ (s.getlong.cursor.xdrOpaque cnt).reads } ↔ ¬TakesNegative (s.handy - 4) cnt := by
  obtain ⟨hsafe, -, hhandy⟩ := h.getlong hsize
  have hwithin := hsafe.cursor hlong
  rw [← hhandy]
  constructor
  · intro hboth htaken
    obtain ⟨x, hx, hout⟩ := hwithin.xdrOpaque_taken hsize htaken
    exact hout (hboth.reads x (mem_append_right _ hx))
  · intro hfit
    have hdata := hwithin.xdrOpaque hsize hfit
    refine ⟨?_, fun hdone => hdata.cursor (hok hdone)⟩
    exact List.forall_mem_append.mpr ⟨hsafe.reads, hdata.reads⟩

end

lemma Cursor.Within.skipbytes_iff {info : BitVec 32} (h : s.Within size) (hsize : size < 2 ^ 31) :
    (s.skipbytes info).Safe size ↔
      ¬(TakesNegative s.handy (rndupInt info) ∧ s.pos + (rndupInt info).toInt < 0) := by
  obtain ⟨hlo, hhi⟩ := h.handy_bounds
  have hhandy := h.handy
  unfold Cursor.skipbytes
  dsimp only
  generalize rndupInt info = len
  have hmax := toInt_lt (x := len)
  by_cases hwrap : 2 ^ 31 ≤ s.handy.toInt - len.toInt
  · rw [if_pos (toInt_sub_wrapped hwrap)]
    refine iff_of_true ⟨fun _ hx => absurd hx not_mem_nil, fun hfalse => absurd hfalse false_ne_true⟩ ?_
    exact fun hand => absurd hand.1.2 (not_lt.mpr hwrap)
  have hsub := toInt_sub_small (a := s.handy) (b := len) (by omega) (not_le.mp hwrap)
  rw [hsub]
  by_cases hneg : s.handy.toInt - len.toInt < 0
  · rw [if_pos hneg]
    refine iff_of_true ⟨fun _ hx => absurd hx not_mem_nil, fun hfalse => absurd hfalse false_ne_true⟩ ?_
    rintro ⟨⟨hlen, -⟩, -⟩
    omega
  rw [if_neg hneg]
  constructor
  · rintro hsafe ⟨-, hbefore⟩
    have hafter : 0 ≤ s.pos + len.toInt := (hsafe.cursor rfl).start
    omega
  · intro hfit
    have hafter : 0 ≤ s.pos + len.toInt := by
      by_contra hbefore
      exact hfit ⟨⟨by omega, not_le.mp hwrap⟩, not_le.mp hbefore⟩
    refine ⟨fun _ hx => absurd hx not_mem_nil, fun _ => ⟨hafter, ?_, ?_⟩⟩
    · change s.pos + len.toInt ≤ size
      omega
    · change (s.handy - len).toInt = size - (s.pos + len.toInt)
      omega

lemma Cursor.Within.peek (h : s.Within size) : s.peek.Safe size := by
  have hhandy := h.handy
  have hstart := h.start
  have hnat := toNat_of_nonneg h.handy_bounds.1
  unfold Cursor.peek
  split_ifs with hfew
  · exact ⟨fun _ hx => absurd hx not_mem_nil, fun hfalse => absurd hfalse false_ne_true⟩
  · refine ⟨?_, fun _ => h⟩
    intro x hx
    rw [List.mem_singleton.mp hx]
    refine ⟨hstart, ?_⟩
    omega

/-- The length is read and compared with `maxsize`. -/
lemma Cursor.Within.limited_iff (h : s.Within size) (hsize : size < 2 ^ 31) (maxsize : BitVec 32) {r : Decoded} {P : Prop}
    (hrest : s.getlong.ok = true → (r.Safe size ↔ P)) :
    (if s.getlong.ok = false then s.getlong
      else if longAt mem s.pos > maxsize then { s.getlong with ok := false } else r).Safe size ↔
      (4 ≤ s.handy.toInt → longAt mem s.pos ≤ maxsize → P) := by
  obtain ⟨hlong, hok, -⟩ := h.getlong hsize
  by_cases hfail : s.getlong.ok = false
  · rw [if_pos hfail]
    refine iff_of_true hlong fun hfour => ?_
    exact absurd (hfail.symm.trans (hok.mpr hfour)) false_ne_true
  have hgot := eq_true_of_not_eq_false hfail
  rw [if_neg hfail, forall_prop_of_true (hok.mp hgot)]
  by_cases hmax : longAt mem s.pos > maxsize
  · rw [if_pos hmax]
    refine iff_of_true ⟨hlong.reads, fun hfalse => absurd hfalse false_ne_true⟩ ?_
    exact fun hle => absurd hle (BitVec.not_le.mpr hmax)
  rw [if_neg hmax, forall_prop_of_true (BitVec.not_lt.mp hmax)]
  exact hrest hgot

lemma Cursor.Within.decode_iff (h : s.Within size) (hsize : size < 2 ^ 31) (call : DecodeCall) :
    (s.decode mem call).Safe size ↔ CountsFit mem (some s) call := by
  obtain ⟨hlong, hok, -⟩ := h.getlong hsize
  cases call with
  | xdrLong => exact iff_of_true hlong trivial
  | xdrOpaque cnt =>
    constructor
    · intro hsafe htaken
      obtain ⟨x, hx, hout⟩ := h.xdrOpaque_taken hsize htaken
      exact hout (hsafe.reads x hx)
    · exact h.xdrOpaque hsize
  | xdrBytes maxsize =>
    refine h.limited_iff hsize maxsize fun hgot => ?_
    by_cases h0 : longAt mem s.pos = 0
    · rw [if_pos h0, h0]
      exact iff_of_true hlong fun htaken => absurd htaken.1 (by decide)
    · rw [if_neg h0]
      exact h.counted_iff hsize hgot id
  | xdrString maxsize =>
    refine h.limited_iff hsize maxsize fun hgot => ?_
    split_ifs with h0
    · exact iff_of_true hlong fun hne => absurd h0 hne
    · rw [forall_prop_of_true h0]
      exact h.counted_iff hsize hgot fun hdone => (Bool.and_eq_true_iff.mp hdone).1
  | skipbytes info => exact h.skipbytes_iff hsize
  | peek => exact iff_of_true h.peek trivial

end Moves

section Chain

def lenLoop (len : BitVec 32) : List Block → BitVec 32
  | [] => len
  | m :: conts => lenLoop (len + BitVec.ofNat 32 m.data.length) conts

/-- `xdrmblk_getmblk`: what it returns, `*lenp`, `*mm`, and the stream. -/
def xdrmblkGetmblk (s : Mblk) : Bool × BitVec 32 × List Block × Option Mblk :=
  match xdrmblkGetlong s with
  | none => (false, 0, [], none)
  | some (llen, s) =>
    let len := lenLoop 0 s.chain
    if len.toInt < llen.toInt then (false, llen, s.chain, some s)
    else (true, llen, s.chain, some { s with chain := [], handy := 0 })

def chainBytes (chain : List Block) : Nat := (chain.map fun m => m.data.length).sum

/-- The length that is reported is that of bytes in the chain. -/
def GetmblkExact (s : Mblk) : Prop :=
  (xdrmblkGetmblk s).1 = true → (xdrmblkGetmblk s).2.1.toNat ≤ chainBytes (xdrmblkGetmblk s).2.2.1

/-- The length in the message is not negative as a `long`, unless the chain has as many bytes. -/
def LengthFits (s : Mblk) : Prop :=
  ∀ llen s', xdrmblkGetlong s = some (llen, s') → 0 ≤ llen.toInt ∨ 2 ^ 31 ≤ chainBytes s'.chain

lemma lenLoop_eq (chain : List Block) (len : BitVec 32) :
    lenLoop len chain = len + BitVec.ofNat 32 (chainBytes chain) := by
  induction chain generalizing len with
  | nil => exact (add_zero len).symm
  | cons m conts ih =>
    unfold lenLoop
    have hsum : chainBytes (m :: conts) = m.data.length + chainBytes conts := rfl
    rw [ih, hsum, ofNat_add, add_assoc]

lemma toInt_ofNat_le (n : Nat) : (BitVec.ofNat 32 n).toInt ≤ n := by
  rw [toInt_eq_toNat_cond, toNat_ofNat]
  split_ifs
  · omega
  · push_cast
    omega

lemma getmblkExact_iff (s : Mblk) : GetmblkExact s ↔ LengthFits s := by
  unfold GetmblkExact LengthFits xdrmblkGetmblk
  cases hget : xdrmblkGetlong s with
  | none => exact iff_of_true (fun hfalse => absurd hfalse false_ne_true) fun _ _ heq => nomatch heq
  | some r =>
    obtain ⟨llen, s'⟩ := r
    dsimp only
    have hcond : (∀ l t, some (llen, s') = some (l, t) → 0 ≤ l.toInt ∨ 2 ^ 31 ≤ chainBytes t.chain) ↔
        (0 ≤ llen.toInt ∨ 2 ^ 31 ≤ chainBytes s'.chain) := by
      constructor
      · exact fun hall => hall llen s' rfl
      · intro hone l t heq
        obtain ⟨rfl, rfl⟩ := Prod.mk.injEq .. ▸ Option.some_inj.mp heq
        exact hone
    have hlen : lenLoop 0 s'.chain = BitVec.ofNat 32 (chainBytes s'.chain) :=
      (lenLoop_eq _ 0).trans (zero_add _)
    rw [hcond, hlen]
    generalize htotal : chainBytes s'.chain = total
    have hle := toInt_ofNat_le total
    have hsmall : total < 2 ^ 31 → (BitVec.ofNat 32 total).toInt = total := by
      intro hlt
      rw [toInt_eq_toNat_of_lt (by rw [toNat_ofNat]; omega), toNat_ofNat]
      omega
    by_cases hshort : (BitVec.ofNat 32 total).toInt < llen.toInt
    · rw [if_pos hshort]
      refine iff_of_true (fun hfalse => absurd hfalse false_ne_true) ?_
      by_contra hneither
      omega
    rw [if_neg hshort, forall_prop_of_true rfl]
    change llen.toNat ≤ chainBytes s'.chain ↔ _
    by_cases hneg : llen.toInt < 0
    · have hnat := toNat_of_neg hneg
      have hmin := le_toInt llen
      constructor
      · intro hfits
        exact .inr (by omega)
      · rintro (hpos | hmany)
        · omega
        · by_cases hwrap : total < 2 ^ 32
          · have hword : (BitVec.ofNat 32 total).toInt = (total : Int) - 2 ^ 32 := by
              rw [toInt_eq_toNat_cond, toNat_ofNat, Nat.mod_eq_of_lt hwrap, if_neg (by omega)]
              rfl
            omega
          · omega
    · have hnat := toNat_of_nonneg (not_lt.mp hneg)
      refine iff_of_true ?_ (.inl (not_lt.mp hneg))
      omega

end Chain

section Inside

variable {mem : Int → Byte} {size : Nat}

/-- `xdrmem_create` -/
def cursorCreate (size : Nat) : Cursor := ⟨0, BitVec.ofNat 32 size⟩

lemma cursorCreate_within (hsize : size < 2 ^ 31) : (cursorCreate size).Within size := by
  refine ⟨le_rfl, Int.natCast_nonneg size, ?_⟩
  change (BitVec.ofNat 32 size).toInt = size - 0
  rw [toInt_eq_toNat_of_lt (by rw [toNat_ofNat]; omega), toNat_ofNat]
  omega

/-- Decoding stays inside the message if and only if no count is taken as a negative one. -/
theorem decode_inside_iff (mem : Int → Byte) (hsize : size < 2 ^ 31) (calls : List DecodeCall) (s : Mblk) :
    Along (decodeStep mem) (CallSafe mem size) (some (cursorCreate size)) calls ∧ GetmblkExact s ↔
      Along (decodeStep mem) (CountsFit mem) (some (cursorCreate size)) calls ∧ LengthFits s := by
  refine and_congr ?_ (getmblkExact_iff s)
  have hstep (st : Option Cursor) (call : DecodeCall) (h : ∀ c, st = some c → c.Within size) :
      (CallSafe mem size st call ↔ CountsFit mem st call) ∧
        (CallSafe mem size st call → ∀ c, decodeStep mem st call = some c → c.Within size) := by
    cases st with
    | none => exact ⟨Iff.rfl, fun _ _ heq => nomatch heq⟩
    | some c =>
      refine ⟨(h c rfl).decode_iff hsize call, ?_⟩
      intro hsafe c' heq
      change (if (c.decode mem call).ok = true then some (c.decode mem call).cursor else none) = some c' at heq
      split_ifs at heq with hok
      rw [← Option.some_inj.mp heq]
      exact hsafe.cursor hok
  have hstart : ∀ c, some (cursorCreate size) = some c → c.Within size := by
    intro c heq
    rw [← Option.some_inj.mp heq]
    exact cursorCreate_within hsize
  constructor
  · intro hrun
    refine hrun.imp (P := fun st => ∀ c, st = some c → c.Within size) hstart ?_
    intro st call h hsafe
    obtain ⟨hiff, hnext⟩ := hstep st call h
    exact ⟨hiff.mp hsafe, hnext hsafe⟩
  · intro hrun
    refine hrun.imp (P := fun st => ∀ c, st = some c → c.Within size) hstart ?_
    intro st call h hfit
    obtain ⟨hiff, hnext⟩ := hstep st call h
    exact ⟨hiff.mpr hfit, hnext (hiff.mpr hfit)⟩

/-- A count of 3, the bytes and one byte of filling. -/
def threeBytes (i : Int) : Byte := if i < 3 then 0 else if i = 3 then 3 else if i < 7 then 97 else 0

theorem decode_inside_iff_eight :
    Along (decodeStep threeBytes) (CallSafe threeBytes 8) (some (cursorCreate 8)) [.xdrBytes 4] ∧
      GetmblkExact (xdrmblkInit ⟨[0, 0, 0, 2, 9, 9], 0⟩ [] .decode 0 fun _ => 0) := by
  refine (decode_inside_iff threeBytes (by decide) [.xdrBytes 4] _).mpr ⟨⟨?_, trivial⟩, ?_⟩
  · intro _ _ hno
    exact absurd hno.1 (by decide)
  · intro llen s' heq
    have hlen : (xdrmblkGetlong (xdrmblkInit ⟨[0, 0, 0, 2, 9, 9], 0⟩ [] .decode 0 fun _ => 0)).map Prod.fst = some 2 := by
      decide
    rw [heq] at hlen
    obtain rfl : llen = 2 := Option.some.inj hlen
    exact .inl (by decide)

/-- A count of `2 ^ 32 - 1` is taken as -1. -/
theorem decode_not_inside : ¬∀ (mem : Int → Byte) (size : Nat), size < 2 ^ 31 → ∀ (calls : List DecodeCall) (s : Mblk),
    Along (decodeStep mem) (CallSafe mem size) (some (cursorCreate size)) calls ∧ GetmblkExact s := by
  intro hall
  have hrun := (hall (fun _ => 255) 8 (by decide) [.xdrBytes 0xffffffff] (xdrmblkInit ⟨[], 0⟩ [] .decode 0 fun _ => 0)).1
  have hread := hrun.1.reads (4, 2 ^ 32 - 1) (by decide)
  exact absurd hread.2 (by decide)

end Inside

end Solaris.Xdr
