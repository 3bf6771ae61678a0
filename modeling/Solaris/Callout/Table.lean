import Mathlib.Data.Nat.Bitwise
import Mathlib.Tactic
import Solaris.Lib.Split

/-!
# The callout table

One table of `callout.c`: insertion, deletion, the scheduling on a clock tick, and the execution of callouts by any
number of threads. A time is kept as the number of ticks it stands for, and the code, whose times are signed 32-bit
numbers, sees it through `diff`, `same` and `bucketOf`, which depend on it only modulo `2 ^ 32`.
-/

namespace Solaris.Callouts

section Table

open Lib Nat BitVec Nat

section Times

def diff (a b : Int) : Int := (a - b).bmod (2 ^ 32)

def same (a b : Int) : Bool := (a - b) % 2 ^ 32 == 0

/-- `runtime & CALLOUT_BUCKET_MASK` -/
def bucketOf (runtime : Int) : Nat := (runtime % 256).toNat

end Times

section Ids

def executingBit : BitVec 32 := 0x80000000

def unsafeDriverBit : BitVec 32 := 0x40000000

def realtimeId : BitVec 32 := 0x20000000

def normalId : BitVec 32 := 0x10000000

def longterm : BitVec 32 := 0x08000000

def idMask : BitVec 32 := realtimeId ||| normalId ||| longterm ||| (longterm - 1)

def calloutBuckets : BitVec 32 := 256

def longtermTicks : Int := 0x4000

end Ids

/-- A callout structure. The number of the insertion that it holds stands for function and
argument. -/
structure Callout where
  addr : Nat
  xid : BitVec 32
  runtime : Int
  executor : Nat
  serial : Nat
  deriving DecidableEq

structure Bucket where
  first : List Callout
  shortId : BitVec 32
  longId : BitVec 32

structure Table where
  bucket : Nat → Bucket
  freelist : List Callout
  curtime : Int
  runtime : Int

def Callout.executing (c : Callout) : Bool := c.xid &&& executingBit != 0

def calloutSetup (tableId : BitVec 32) (lbolt : Int) : Table :=
  { bucket := fun i =>
      { first := []
        shortId := BitVec.ofNat 32 i ||| tableId
        longId := BitVec.ofNat 32 i ||| tableId ||| longterm }
    freelist := []
    curtime := lbolt
    runtime := lbolt }

def Table.setFirst (cs : Table) (i : Nat) (first : List Callout) : Table :=
  { cs with bucket := Function.update cs.bucket i { cs.bucket i with first } }

section Insert

/-- The next identifier of a bucket, and the bucket with it. -/
def Bucket.nextId (b : Bucket) (isLong : Bool) : BitVec 32 × Bucket :=
  if isLong then
    let id := (b.longId - longterm + calloutBuckets) ||| longterm
    (id, { b with longId := id })
  else
    let id := (b.shortId + calloutBuckets) &&& ~~~longterm
    (id, { b with shortId := id })

/-- `callout_insert`; `fresh` is the address of a new structure where the free list has none, and
`unsafeHeld` whether the unsafe driver lock is held. -/
def calloutInsert (cs : Table) (lbolt delta : Int) (fresh : Nat) (unsafeHeld : Bool) (serial : Nat) :
    BitVec 32 × Table :=
  let cp : Callout := cs.freelist.headD ⟨fresh, 0, 0, 0, 0⟩
  let runtime := if diff (lbolt + delta) cs.curtime ≤ 0 then cs.curtime + 1 else lbolt + delta
  let i := bucketOf runtime
  let (id, b) := (cs.bucket i).nextId (decide (longtermTicks < diff runtime cs.curtime))
  let xid := if unsafeHeld then id ||| unsafeDriverBit else id
  (id, { cs with
    bucket := Function.update cs.bucket i { b with first := { cp with xid, runtime, serial } :: b.first }
    freelist := cs.freelist.tail })

end Insert

section Delete

/-- How `callout_delete` ends: there is no such callout, it is executing (a thread other than the
executor waits for it to finish), or it is taken off the table. -/
inductive Deletion
  | bogus
  | nested
  | waits
  | deleted (timeLeft : Int) (cp : Callout) (cs : Table)

/-- What `callout_delete` returns. -/
def Deletion.value : Deletion → Int
  | .deleted timeLeft _ _ => timeLeft
  | _ => -1

def calloutDelete (cs : Table) (id : BitVec 32) (curthread : Nat) : Deletion :=
  let i := (id &&& 255).toNat
  match splitFirst (fun c => c.xid &&& idMask == id) (cs.bucket i).first with
  | none => .bogus
  | some (before, cp, after) =>
    if cp.executing then
      if cp.executor = curthread then .nested else .waits
    else
      let timeLeft := if diff cp.runtime cs.curtime < 0 then 0 else diff cp.runtime cs.curtime
      .deleted timeLeft cp { cs.setFirst i (before ++ after) with freelist := cp :: cs.freelist }

end Delete

section Run

/-- The callout is to run at this time and no thread is executing it. -/
def due (runtime : Int) (c : Callout) : Bool := same c.runtime runtime && !c.executing

/-- The number of turns that suffice for `runtime` to pass `curtime`. -/
def Table.turns (cs : Table) : Nat := (diff cs.curtime cs.runtime + 2).toNat

/-- The loop of `callout_schedule`: it stops at a time for which a thread is woken up. -/
def scheduleLoop : Nat → Table → Option Table
  | 0, _ => none
  | fuel + 1, cs =>
    if 0 < diff cs.runtime cs.curtime then some cs
    else if (cs.bucket (bucketOf cs.runtime)).first.any (due cs.runtime) then some cs
    else scheduleLoop fuel { cs with runtime := cs.runtime + 1 }

def calloutSchedule (cs : Table) (lbolt : Int) : Option Table :=
  let cs := { cs with curtime := lbolt }
  scheduleLoop cs.turns cs

/-- A thread marks a callout and is going to drop the lock for its handler. -/
def Callout.start (c : Callout) (curthread : Nat) : Callout :=
  { c with executor := curthread, xid := c.xid ||| executingBit }

/-- `callout_execute` with the lock held, up to the next handler: the time and the callout it is
called for, or nothing at the end of the function. -/
def executeLoop (curthread : Nat) : Nat → Table → Option (Table × Option (Int × Callout))
  | 0, _ => none
  | fuel + 1, cs =>
    if 0 < diff cs.runtime cs.curtime then some (cs, none)
    else
      let i := bucketOf cs.runtime
      match splitFirst (due cs.runtime) (cs.bucket i).first with
      | some (before, cp, after) =>
        some (cs.setFirst i (before ++ cp.start curthread :: after), some (cs.runtime, cp.start curthread))
      | none => executeLoop curthread fuel { cs with runtime := cs.runtime + 1 }

def calloutExecute (cs : Table) (curthread : Nat) : Option (Table × Option (Int × Callout)) :=
  executeLoop curthread cs.turns cs

/-- `callout_execute` from the end of a handler on, up to the next one. The callout is looked up in
its bucket again, and the rest of the bucket is searched from there. -/
def executeResume (cs : Table) (curthread : Nat) (runtime : Int) (addr : Nat) :
    Option (Table × Option (Int × Callout)) :=
  let i := bucketOf runtime
  match splitFirst (fun c => c.addr == addr) (cs.bucket i).first with
  | none => none
  | some (before, cp, next) =>
    let cs := { cs.setFirst i (before ++ next) with freelist := { cp with xid := 0 } :: cs.freelist }
    match splitFirst (due runtime) next with
    | some (passed, cp, after) =>
      some (cs.setFirst i (before ++ passed ++ cp.start curthread :: after),
        some (runtime, cp.start curthread))
    | none =>
      let cs := if same cs.runtime runtime then { cs with runtime := runtime + 1 } else cs
      executeLoop curthread cs.turns cs

end Run

end Table

/-!
## Times, identifiers and the parts of a step

Inside a window of `2 ^ 31` ticks the signed comparisons are those of the ticks themselves. The system keeps, next
to the table, what threads are in the middle of, and what has been inserted, executed and deleted.
-/

section Steps

open Lib Nat BitVec

section Times

variable {a b : Int}

lemma diff_eq (h1 : a - b < 2 ^ 31) (h2 : b - a ≤ 2 ^ 31) : diff a b = a - b := by
  unfold diff
  apply Int.bmod_eq_of_le_mul_two <;> push_cast <;> omega

lemma same_iff (h1 : a - b < 2 ^ 32) (h2 : b - a < 2 ^ 32) : same a b = true ↔ a = b := by
  unfold same
  rw [beq_iff_eq]
  omega

end Times

section Ids

lemma and_not_longterm {t y : Nat} (ht : t < 16) (hy : y < 2 ^ 28) :
    (2 ^ 28 * t + y) &&& (2 ^ 28 * 15 + (2 ^ 27 - 1)) = 2 ^ 28 * t + y % 2 ^ 27 := by
  have hm : y % 2 ^ 27 < 2 ^ 28 := by omega
  have ht' : t &&& 15 = t := by
    rw [show (15 : Nat) = 2 ^ 4 - 1 from rfl, and_two_pow_sub_one_eq_mod, mod_eq_of_lt ht]
  apply eq_of_testBit_eq
  intro j
  rw [testBit_and, testBit_two_pow_mul_add _ hy, testBit_two_pow_mul_add _ (by norm_num),
    testBit_two_pow_mul_add _ hm]
  by_cases hj : j < 28
  · simp only [hj, if_true, testBit_two_pow_sub_one, testBit_mod_two_pow]
    rw [Bool.and_comm]
  · simp only [hj, if_false]
    rw [← testBit_and, ht']

lemma or_longterm {t y : Nat} (hy : y < 2 ^ 28) :
    (2 ^ 28 * t + y) ||| 2 ^ 27 = 2 ^ 28 * t + (y % 2 ^ 27 + 2 ^ 27) := by
  have hm : y % 2 ^ 27 + 2 ^ 27 < 2 ^ 28 := by omega
  have hor : y % 2 ^ 27 + 2 ^ 27 = y ||| 2 ^ 27 := by
    rcases lt_or_ge y (2 ^ 27) with hlt | hge
    · rw [Nat.mod_eq_of_lt hlt, Nat.or_comm, Nat.add_comm]
      have := two_pow_add_eq_or_of_lt hlt 1
      simpa using this
    obtain ⟨z, rfl⟩ := Nat.exists_eq_add_of_le hge
    have hz : z < 2 ^ 27 := by omega
    have hzor : 2 ^ 27 + z = 2 ^ 27 ||| z := by
      have := two_pow_add_eq_or_of_lt hz 1
      simpa using this
    rw [Nat.add_mod_left, Nat.mod_eq_of_lt hz, Nat.add_comm, hzor, Nat.or_comm, Nat.or_assoc,
      Nat.or_self]
  apply eq_of_testBit_eq
  intro j
  rw [hor] at hm ⊢
  rw [testBit_or, testBit_two_pow_mul_add _ hy, testBit_two_pow_mul_add _ hm]
  by_cases hj : j < 28
  · simp only [hj, if_true, testBit_or]
  · simp only [hj, if_false]
    have : (2 ^ 27 : Nat).testBit j = false := testBit_two_pow_of_ne (by omega)
    rw [this, Bool.or_false]

/-- The identifiers of a bucket: the table in the high bits, the long-term bit below, and a counter
that wraps inside the low bits. -/
def Bucket.IdsOk (b : Bucket) : Prop :=
  ∃ t < 4, ∃ m < 2 ^ 27, ∃ m' < 2 ^ 27, b.shortId.toNat = 2 ^ 28 * t + m ∧
    b.longId.toNat = 2 ^ 28 * t + (m' + 2 ^ 27)

lemma setup_ids {tableId : BitVec 32} (ht : tableId = normalId ∨ tableId = realtimeId) :
    ∃ t, (t = 1 ∨ t = 2) ∧ tableId = BitVec.ofNat 32 (2 ^ 28 * t) ∧
      ∀ i < 256, (BitVec.ofNat 32 i ||| tableId).toNat = 2 ^ 28 * t + i ∧
        (BitVec.ofNat 32 i ||| tableId ||| longterm).toNat = 2 ^ 28 * t + (i + 2 ^ 27) := by
  rcases ht with rfl | rfl
  · exact ⟨1, .inl rfl, by decide, by decide +kernel⟩
  · exact ⟨2, .inr rfl, by decide, by decide +kernel⟩

lemma nextId_short {b : Bucket} {t m : Nat} (ht : t < 4) (hm : m < 2 ^ 27) (hs : b.shortId.toNat = 2 ^ 28 * t + m) :
    (b.nextId false).1.toNat = 2 ^ 28 * t + (m + 256) % 2 ^ 27 := by
  have hmask : (~~~longterm).toNat = 2 ^ 28 * 15 + (2 ^ 27 - 1) := by decide
  have hsum : (b.shortId + calloutBuckets).toNat = 2 ^ 28 * t + (m + 256) := by
    have hstep : calloutBuckets.toNat = 256 := by decide
    rw [toNat_add, hs, hstep]
    omega
  change ((b.shortId + calloutBuckets) &&& ~~~longterm).toNat = _
  rw [toNat_and, hmask, hsum, and_not_longterm (by omega) (by omega)]

theorem nextId_long {b : Bucket} {t m : Nat} (hm : m < 2 ^ 27)
    (hl : b.longId.toNat = 2 ^ 28 * t + (m + 2 ^ 27)) :
    (b.nextId true).1.toNat = 2 ^ 28 * t + ((m + 256) % 2 ^ 27 + 2 ^ 27) := by
  have hbit : longterm.toNat = 2 ^ 27 := by decide
  have hstep : calloutBuckets.toNat = 256 := by decide
  have hsum : (b.longId - longterm + calloutBuckets).toNat = 2 ^ 28 * t + (m + 256) := by
    rw [toNat_add, toNat_sub, hl, hbit, hstep]
    omega
  change ((b.longId - longterm + calloutBuckets) ||| longterm).toNat = _
  rw [toNat_or, hsum, hbit, or_longterm (by omega)]

lemma nextId_ok {b : Bucket} (h : b.IdsOk) (isLong : Bool) :
    (b.nextId isLong).1.toNat < 2 ^ 30 ∧ (b.nextId isLong).2.IdsOk ∧
      (b.nextId isLong).2.first = b.first := by
  obtain ⟨t, ht, m, hm, m', hm', hs, hl⟩ := h
  cases isLong with
  | false =>
    have hid := nextId_short ht hm hs
    refine ⟨?_, ⟨t, ht, (m + 256) % 2 ^ 27, by omega, m', hm', hid, hl⟩, rfl⟩
    omega
  | true =>
    have hid := nextId_long hm' hl
    refine ⟨?_, ⟨t, ht, m, hm, (m' + 256) % 2 ^ 27, by omega, hs, hid⟩, rfl⟩
    omega

lemma and_executingBit {x : BitVec 32} (hx : x.toNat < 2 ^ 31) : x &&& executingBit = 0 := by
  apply eq_of_toNat_eq
  change x.toNat &&& 2 ^ 31 = 0
  rw [and_two_pow, testBit_lt_two_pow hx]
  rfl

lemma executing_new {c : Callout} {id : BitVec 32} (hid : id.toNat < 2 ^ 30) {unsafeHeld : Bool}
    (hx : c.xid = if unsafeHeld then id ||| unsafeDriverBit else id) : c.executing = false := by
  unfold Callout.executing
  rw [hx]
  cases unsafeHeld with
  | false =>
    rw [if_neg (by simp), and_executingBit (by omega)]
    rfl
  | true =>
    have hlt : (id ||| unsafeDriverBit).toNat < 2 ^ 31 := by
      exact or_lt_two_pow (by omega) (by decide)
    rw [if_pos rfl, and_executingBit hlt]
    rfl

lemma executing_start (c : Callout) (t : Nat) : (c.start t).executing = true := by
  unfold Callout.executing Callout.start
  have h : (c.xid ||| executingBit) &&& executingBit = executingBit := by
    rw [BitVec.and_comm, BitVec.or_comm]
    apply BitVec.eq_of_getLsbD_eq
    intro i _
    simp only [BitVec.getLsbD_and, BitVec.getLsbD_or]
    cases executingBit.getLsbD i <;> rfl
  rw [h]
  decide

end Ids

section System

/-- A run of a handler: the insertion it belongs to, the time of the callout and `cs_curtime`. -/
structure Execution where
  serial : Nat
  runtime : Int
  curtime : Int

/-- The table, the clock, and for each thread inside a handler the time it is at and the structure
it executes. Kept besides: the structures allocated so far, the times asked for by the insertions,
the executions, and the insertions that were deleted. -/
structure Sys where
  cs : Table
  lbolt : Int
  threads : Nat → Option (Int × Nat)
  allocated : List Nat
  inserted : List Int
  executed : List Execution
  deleted : List Nat

/-- A thread has come to a handler or to the end of `callout_execute`. -/
def Sys.enter (s : Sys) (t : Nat) (r : Table × Option (Int × Callout)) : Sys :=
  { s with
    cs := r.1
    threads := Function.update s.threads t (r.2.map fun x => (x.1, x.2.addr))
    executed := (r.2.map fun x => ⟨x.2.serial, x.2.runtime, r.1.curtime⟩).toList ++ s.executed }

inductive Event
  | insert (delta : Int) (fresh : Nat) (unsafeHeld : Bool)
  | delete (id : BitVec 32) (curthread : Nat)
  | tick
  | schedule
  | execute (curthread : Nat)
  | resume (curthread : Nat)

def Sys.exec (s : Sys) : Event → Option Sys
  | .insert delta fresh unsafeHeld =>
    some { s with
      cs := (calloutInsert s.cs s.lbolt delta fresh unsafeHeld s.inserted.length).2
      allocated := if s.cs.freelist = [] then fresh :: s.allocated else s.allocated
      inserted := s.inserted ++ [s.lbolt + delta] }
  | .delete id curthread =>
    match calloutDelete s.cs id curthread with
    | .deleted _ cp cs => some { s with cs, deleted := cp.serial :: s.deleted }
    | _ => some s
  | .tick => some { s with lbolt := s.lbolt + 1 }
  | .schedule => (calloutSchedule s.cs s.lbolt).map fun cs => { s with cs }
  | .execute t =>
    match s.threads t with
    | some _ => none
    | none => (calloutExecute s.cs t).map (s.enter t)
  | .resume t =>
    match s.threads t with
    | none => none
    | some (runtime, addr) => (executeResume s.cs t runtime addr).map (s.enter t)

def Sys.init (tableId : BitVec 32) (lbolt : Int) : Sys :=
  { cs := calloutSetup tableId lbolt
    lbolt
    threads := fun _ => none
    allocated := []
    inserted := []
    executed := []
    deleted := [] }

def Sys.at (s : Sys) (i : Nat) : List Callout := (s.cs.bucket i).first

def Sys.Live (s : Sys) (x : Int) : Prop :=
  x = s.lbolt ∨ x = s.cs.curtime ∨ x = s.cs.runtime ∨ ∃ i, ∃ c ∈ s.at i, c.runtime = x

/-- All live times are within `2 ^ 31` ticks of each other. -/
def Window (s : Sys) : Prop := ∀ x y, s.Live x → s.Live y → x - y < 2 ^ 31

/-- A delay is positive and leads to a time inside the window; new memory is not in use; a thread
comes back only from a handler it is in. -/
def Legal (s : Sys) : Event → Prop
  | .insert delta fresh _ => 0 < delta ∧
      (∀ x, s.Live x → s.lbolt + delta - x < 2 ^ 31 ∧ x - (s.lbolt + delta) < 2 ^ 31) ∧ fresh ∉ s.allocated
  | .execute t => s.threads t = none
  | .resume t => s.threads t ≠ none
  | _ => True

/-- The table is a normal or a realtime one; the times stay inside the window. -/
inductive Reachable : Sys → Prop
  | init (tableId : BitVec 32) (lbolt : Int) :
      tableId = normalId ∨ tableId = realtimeId → Reachable (Sys.init tableId lbolt)
  | step {s s' : Sys} (e : Event) : Reachable s → Window s → Legal s e → s.exec e = some s' → Reachable s'

end System

end Steps

end Solaris.Callouts
