import Mathlib.Algebra.Order.Group.Int
import Mathlib.Tactic.Common

/-!
# The Gregorian calendar

A moment is a date and a time of day. The calendar is given by its successor: `tick` goes one second
on, and `momentAt n` is `n` seconds after the start of 1970, a Thursday. Sunday is day 1 of the
week.
-/

namespace Solaris.Lib

structure Moment where
  second : Int
  minute : Int
  hour : Int
  weekday : Int
  day : Int
  month : Int
  year : Int

def leap (year : Int) : Prop := year % 4 = 0 ∧ (year % 100 ≠ 0 ∨ year % 400 = 0)

instance (year : Int) : Decidable (leap year) := inferInstanceAs (Decidable (_ ∧ _))

def monthLength (year month : Int) : Int :=
  if month = 2 then (if leap year then 29 else 28)
  else if month = 4 ∨ month = 6 ∨ month = 9 ∨ month = 11 then 30
  else 31

namespace Moment

def nextDay (t : Moment) : Moment :=
  let t := { t with weekday := t.weekday % 7 + 1 }
  if t.day < monthLength t.year t.month then { t with day := t.day + 1 }
  else if t.month < 12 then { t with day := 1, month := t.month + 1 }
  else { t with day := 1, month := 1, year := t.year + 1 }

def tick (t : Moment) : Moment :=
  if t.second < 59 then { t with second := t.second + 1 }
  else if t.minute < 59 then { t with second := 0, minute := t.minute + 1 }
  else if t.hour < 23 then { t with second := 0, minute := 0, hour := t.hour + 1 }
  else { t with second := 0, minute := 0, hour := 0 }.nextDay

def epoch : Moment := ⟨0, 0, 0, 5, 1, 1, 1970⟩

end Moment

def momentAt (n : Nat) : Moment := Moment.tick^[n] Moment.epoch

lemma momentAt_succ (n : Nat) : momentAt (n + 1) = (momentAt n).tick :=
  Function.iterate_succ_apply' _ _ _

/-- What the calendar shows holds at every moment if it holds at the epoch and every tick keeps it. -/
theorem momentAt_induction {P : Nat → Moment → Prop} (limit : Nat) (h0 : P 0 Moment.epoch)
    (hstep : ∀ n t, n < limit → P n t → P (n + 1) t.tick) {n : Nat} (hn : n ≤ limit) :
    P n (momentAt n) := by
  induction n with
  | zero => exact h0
  | succ n ih =>
    rw [momentAt_succ]
    exact hstep n _ hn (ih (by omega))

end Solaris.Lib
