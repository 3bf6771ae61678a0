import Solaris.Lib.Along
import Solaris.Lib.Gregorian
import Mathlib.Tactic.Ring
import Mathlib.Data.BitVec

/-!
# Calendar time

`utc_to_tod` and `tod_to_utc` of `timers.c`. The conversion to a date keeps the last answer, and a call that changes
only the seconds of it is answered from there.
-/

namespace Solaris.Timers

open Lib Nat List

@[ext]
structure Todinfo where
  todSec : Int
  todMin : Int
  todHour : Int
  todDow : Int
  todDay : Int
  todMonth : Int
  todYear : Int

/-- An `int` -/
def int32 (x : Int) : Int := x.bmod (2 ^ 32)

def daysThruMonth : List Int := [
  0, 0, 31, 60, 91, 121, 152, 182, 213, 244, 274, 305, 335, 366, 0, 0,
  0, 0, 31, 59, 90, 120, 151, 181, 212, 243, 273, 304, 334, 365, 0, 0,
  0, 0, 31, 59, 90, 120, 151, 181, 212, 243, 273, 304, 334, 365, 0, 0,
  0, 0, 31, 59, 90, 120, 151, 181, 212, 243, 273, 304, 334, 365, 0, 0]

def thru (month : Nat) : Int := daysThruMonth.getD month 0

/-- `(year & 3) << 4` -/
def row (year : Int) : Nat := (year % 4 * 16).toNat

/-- `(year - 69) >> 2` -/
def leapDays (year : Int) : Int := Int.shiftRight (year - 69) 2

/-- The days from the start of 1970 to the start of `year`. -/
def yearStart (year : Int) : Int := 365 * (year - 70) + leapDays year

lemma leapDays_eq (year : Int) : leapDays year = (year - 69) / 4 :=
  Int.shiftRight_eq_div_pow (year - 69) 2

/-- The loop that looks for the year, with the day of the year. -/
def findYear (dse year : Int) : Int × Int :=
  let day := dse - 365 * (year - 1 - 70) - leapDays (year - 1)
  if day < 0 then findYear dse (year - 1) else (year - 1, day)
termination_by (yearStart year - dse).toNat
decreasing_by
  have hprev := leapDays_eq (year - 1)
  have hyear := leapDays_eq year
  unfold yearStart
  omega

/-- The loop that looks for the month. It does not pass the end of the table. -/
def findMonth (day : Int) (month : Nat) : Nat :=
  if month + 1 < 64 ∧ thru (month + 1) ≤ day then findMonth day (month + 1) else month
termination_by 64 - month

def fullTod (utc : Int) : Todinfo :=
  let dse := utc / 86400
  let (year, day) := findYear dse (dse / 365 + 72)
  let month := findMonth day (row year + 1)
  { todSec := utc % 60
    todMin := utc % 3600 / 60
    todHour := utc % 86400 / 3600
    todDow := (dse + 4) % 7 + 1
    todDay := day - thru month + 1
    todMonth := ((month % 16 : Nat) : Int)
    todYear := year }

/-- `saved_tod` and `saved_utc` -/
structure Saved where
  tod : Todinfo
  utc : Int

def firstSaved : Saved := ⟨⟨0, 0, 0, 0, 0, 0, 0⟩, -60⟩

def utcToTod (saved : Saved) (utc : Int) : Saved :=
  let utc := if utc < 0 then 0 else utc
  let sec := int32 (saved.tod.todSec + int32 (utc - saved.utc))
  if 0 ≤ sec ∧ sec < 60 then ⟨{ saved.tod with todSec := sec }, utc⟩
  else ⟨fullTod utc, utc⟩

def badTod (tod : Todinfo) : Prop :=
  let month := (tod.todMonth + row tod.todYear).toNat
  tod.todYear < 70 ∨ 138 < tod.todYear ∨ tod.todMonth < 1 ∨ 12 < tod.todMonth ∨ tod.todDay < 1 ∨
    thru (month + 1) - thru month < tod.todDay ∨ tod.todHour < 0 ∨ 23 < tod.todHour ∨
    tod.todMin < 0 ∨ 59 < tod.todMin ∨ tod.todSec < 0 ∨ 59 < tod.todSec

instance (tod : Todinfo) : Decidable (badTod tod) := by
  unfold badTod
  infer_instance

def todToUtc (debug : Bool) (tod : Todinfo) : Int :=
  let year := tod.todYear
  let month := (tod.todMonth + row year).toNat
  if debug ∧ badTod tod then 0
  else
    let utc : BitVec 32 := BitVec.ofInt 32 (year - 70)
    let utc := utc + ((utc <<< 3) + (utc <<< 6))
    let utc := utc + ((utc <<< 2) + BitVec.ofInt 32 (leapDays year))
    let utc := utc + BitVec.ofInt 32 (thru month + tod.todDay - 1)
    let utc := (utc <<< 3) + (utc <<< 4) + BitVec.ofInt 32 tod.todHour
    let utc := (utc <<< 6) - (utc <<< 2) + BitVec.ofInt 32 tod.todMin
    let utc := (utc <<< 6) - (utc <<< 2) + BitVec.ofInt 32 tod.todSec
    utc.toInt

section Tables

lemma thru_succ {year : Int} (hlo : 70 ≤ year) (hhi : year ≤ 138) (month : Nat) (h1 : 1 ≤ month)
    (h12 : month ≤ 12) :
    thru (row year + (month + 1)) = thru (row year + month) + monthLength (year + 1900) month := by
  have hleap : leap (year + 1900) ↔ year % 4 = 0 := by
    unfold leap
    omega
  have hm : month ∈ range' 1 12 := by
    rw [mem_range'_1]
    omega
  have hall : ∀ r ∈ range 4, ∀ m ∈ range' 1 12, thru (16 * r + (m + 1)) =
      thru (16 * r + m) +
        if m = 2 then (if r = 0 then 29 else 28)
        else if m = 4 ∨ m = 6 ∨ m = 9 ∨ m = 11 then 30 else 31 := by decide +kernel
  have hrow : row year = 16 * (year % 4).toNat := by
    unfold row
    omega
  have h := hall (year % 4).toNat (mem_range.mpr (by omega)) month hm
  rw [hrow, h, monthLength]
  have h0 : (year % 4).toNat = 0 ↔ leap (year + 1900) := by
    rw [hleap]
    omega
  simp only [h0]
  norm_cast

lemma row_eq (year : Int) : row year = 16 * (year % 4).toNat := by
  unfold row
  omega

lemma thru_of_row {P : Nat → Nat → Int → Prop} {m : Nat}
    (h : ∀ r ∈ List.range 4, P r m (thru (16 * r + m))) (year : Int) :
    P (year % 4).toNat m (thru (row year + m)) := by
  rw [row_eq]
  exact h _ (mem_range.mpr (by omega))

lemma thru_first (year : Int) : thru (row year + 1) = 0 :=
  thru_of_row (P := fun _ _ v => v = 0) (by decide) year

lemma yearStart_succ (year : Int) :
    yearStart (year + 1) = yearStart year + thru (row year + 13) := by
  have hlen : thru (row year + 13) = if (year % 4).toNat = 0 then 366 else 365 :=
    thru_of_row (P := fun r _ v => v = if r = 0 then 366 else 365) (by decide) year
  rw [hlen, yearStart, yearStart, leapDays_eq, leapDays_eq]
  split <;> omega

lemma monthLength_bounds (year month : Int) :
    28 ≤ monthLength year month ∧ monthLength year month ≤ 31 := by
  unfold monthLength
  split_ifs <;> omega

lemma thru_mono {year : Int} (hlo : 70 ≤ year) (hhi : year ≤ 138) {m k : Nat} (h1 : 1 ≤ m)
    (hmk : m ≤ k) (h13 : k ≤ 13) : thru (row year + m) ≤ thru (row year + k) := by
  induction k, hmk using le_induction with
  | base => exact le_rfl
  | succ k hk ih =>
    have hstep := thru_succ hlo hhi k (by omega) (by omega)
    have hlen := (monthLength_bounds (year + 1900) k).1
    omega

lemma yearStart_mono {y z : Int} (h : y ≤ z) : yearStart y ≤ yearStart z := by
  rw [yearStart, yearStart, leapDays_eq, leapDays_eq]
  omega

end Tables

section Shows

def Todinfo.moment (t : Todinfo) : Moment :=
  ⟨t.todSec, t.todMin, t.todHour, t.todDow, t.todDay, t.todMonth, t.todYear + 1900⟩

/-- The days from the start of 1970 to the day that `t` shows. -/
def dayNo (t : Todinfo) : Int :=
  yearStart t.todYear + (thru (row t.todYear + t.todMonth.toNat) + t.todDay - 1)

/-- `t` shows the second `n`. -/
structure Shows (n : Int) (t : Todinfo) : Prop where
  second : 0 ≤ t.todSec ∧ t.todSec < 60
  minute : 0 ≤ t.todMin ∧ t.todMin < 60
  hour : 0 ≤ t.todHour ∧ t.todHour < 24
  day : 1 ≤ t.todDay ∧ t.todDay ≤ monthLength (t.todYear + 1900) t.todMonth
  month : 1 ≤ t.todMonth ∧ t.todMonth ≤ 12
  year : 70 ≤ t.todYear
  weekday : t.todDow = (dayNo t + 4) % 7 + 1
  time : n = 86400 * dayNo t + 3600 * t.todHour + 60 * t.todMin + t.todSec

variable {n : Int} {t t' : Todinfo}

lemma thru_nonneg (i : Nat) : 0 ≤ thru i := by
  have hall : ∀ v ∈ daysThruMonth, 0 ≤ v := by decide
  rw [thru, getD_eq_getElem?_getD]
  cases h : daysThruMonth[i]? with
  | none => exact le_rfl
  | some v => exact hall v (mem_of_getElem? h)

lemma Shows.year_le (h : Shows n t) (hn : n < 2 ^ 31) : t.todYear ≤ 138 := by
  by_contra hgt
  have hstart := yearStart_mono (y := 139) (z := t.todYear) (by omega)
  have h139 : yearStart 139 = 25202 := by decide
  have hthru := thru_nonneg (row t.todYear + t.todMonth.toNat)
  obtain ⟨hd, -⟩ := h.day
  have htime := h.time
  have hsec := h.second
  have hmin := h.minute
  have hhour := h.hour
  unfold dayNo at htime
  omega

lemma Shows.bounds (h : Shows n t) (hn : n < 2 ^ 31) :
    thru (row t.todYear + t.todMonth.toNat) + t.todDay - 1 <
        thru (row t.todYear + (t.todMonth.toNat + 1)) ∧
      yearStart t.todYear ≤ dayNo t ∧ dayNo t < yearStart (t.todYear + 1) := by
  have hhi := h.year_le hn
  obtain ⟨hd1, hdl⟩ := h.day
  obtain ⟨hm1, hm12⟩ := h.month
  have hstep := thru_succ h.year hhi t.todMonth.toNat (by omega) (by omega)
  have hcast : ((t.todMonth.toNat : Nat) : Int) = t.todMonth := Int.toNat_of_nonneg (by omega)
  rw [hcast] at hstep
  have hmono := thru_mono h.year hhi (m := t.todMonth.toNat + 1) (k := 13) (by omega) (by omega)
    (by omega)
  have hthru := thru_nonneg (row t.todYear + t.todMonth.toNat)
  have hyear := yearStart_succ t.todYear
  unfold dayNo
  omega

lemma Shows.unique (h : Shows n t) (h' : Shows n t') (hn : n < 2 ^ 31) : t = t' := by
  obtain ⟨hs, hs'⟩ := And.intro h.second h'.second
  obtain ⟨hmi, hmi'⟩ := And.intro h.minute h'.minute
  obtain ⟨hh, hh'⟩ := And.intro h.hour h'.hour
  obtain ⟨ht, ht'⟩ := And.intro h.time h'.time
  have hday : dayNo t = dayNo t' := by omega
  have hhour : t.todHour = t'.todHour := by omega
  have hmin : t.todMin = t'.todMin := by omega
  have hsec : t.todSec = t'.todSec := by omega
  have hdow : t.todDow = t'.todDow := by rw [h.weekday, h'.weekday, hday]
  obtain ⟨hb, hlo, hup⟩ := h.bounds hn
  obtain ⟨hb', hlo', hup'⟩ := h'.bounds hn
  have hyear : t.todYear = t'.todYear := by
    by_contra hne
    rcases lt_or_gt_of_ne hne with hlt | hgt
    · have hmono := yearStart_mono (y := t.todYear + 1) (z := t'.todYear) (by omega)
      omega
    · have hmono := yearStart_mono (y := t'.todYear + 1) (z := t.todYear) (by omega)
      omega
  have hhi := h.year_le hn
  have hm := h.month
  have hm' := h'.month
  have hd := h.day.1
  have hd' := h'.day.1
  unfold dayNo at hday
  rw [← hyear] at hday hb'
  have hmonth : t.todMonth = t'.todMonth := by
    by_contra hne
    rcases lt_or_gt_of_ne hne with hlt | hgt
    · have hmono := thru_mono h.year hhi (m := t.todMonth.toNat + 1) (k := t'.todMonth.toNat)
        (by omega) (by omega) (by omega)
      omega
    · have hmono := thru_mono h.year hhi (m := t'.todMonth.toNat + 1) (k := t.todMonth.toNat)
        (by omega) (by omega) (by omega)
      omega
  rw [← hmonth] at hday
  exact Todinfo.ext hsec hmin hhour hdow (by omega) hmonth hyear

lemma Shows.nextDay (h : Shows n t) (hn : n < 2 ^ 31 - 1) (hsec : t.todSec = 59) (hmin : t.todMin = 59)
    (hhour : t.todHour = 23) :
    ∃ t', t'.moment = { t.moment with second := 0, minute := 0, hour := 0 }.nextDay ∧
      Shows (n + 1) t' := by
  have hhi := h.year_le (by omega)
  have htime := h.time
  have hmonth := h.month
  have hyear := h.year
  have hday := h.day
  have hcast : ((t.todMonth.toNat : Nat) : Int) = t.todMonth := Int.toNat_of_nonneg (by omega)
  have hstep := thru_succ h.year hhi t.todMonth.toNat (by omega) (by omega)
  rw [hcast] at hstep
  -- What is left to show of a date that is a day further on.
  have hgoal (d m y : Int) (hd : 1 ≤ d ∧ d ≤ monthLength (y + 1900) m) (hm : 1 ≤ m ∧ m ≤ 12)
      (hy : 70 ≤ y) (hno : yearStart y + (thru (row y + m.toNat) + d - 1) = dayNo t + 1) :
      Shows (n + 1) ⟨0, 0, 0, t.todDow % 7 + 1, d, m, y⟩ := by
    have hno' : dayNo ⟨0, 0, 0, t.todDow % 7 + 1, d, m, y⟩ = dayNo t + 1 := hno
    have hdow := h.weekday
    refine ⟨⟨le_rfl, by simp⟩, ⟨le_rfl, by simp⟩, ⟨le_rfl, by simp⟩, hd, hm, hy, ?_, ?_⟩
    · rw [hno']
      change t.todDow % 7 + 1 = _
      omega
    · rw [hno']
      change n + 1 = 86400 * (dayNo t + 1) + 3600 * 0 + 60 * 0 + 0
      omega
  by_cases hlast : t.todDay < monthLength (t.todYear + 1900) t.todMonth
  · refine ⟨⟨0, 0, 0, t.todDow % 7 + 1, t.todDay + 1, t.todMonth, t.todYear⟩, ?_, ?_⟩
    · exact (if_pos hlast).symm
    · apply hgoal _ _ _ ⟨by omega, by omega⟩ hmonth hyear
      unfold dayNo
      omega
  by_cases h12 : t.todMonth < 12
  · refine ⟨⟨0, 0, 0, t.todDow % 7 + 1, 1, t.todMonth + 1, t.todYear⟩, ?_, ?_⟩
    · exact ((if_neg hlast).trans (if_pos h12)).symm
    · have hlen := (monthLength_bounds (t.todYear + 1900) (t.todMonth + 1)).1
      have hnext : (t.todMonth + 1).toNat = t.todMonth.toNat + 1 := by omega
      apply hgoal _ _ _ ⟨le_rfl, by omega⟩ ⟨by omega, by omega⟩ hyear
      rw [hnext]
      unfold dayNo
      omega
  refine ⟨⟨0, 0, 0, t.todDow % 7 + 1, 1, 1, t.todYear + 1⟩, ?_, ?_⟩
  · have hy : t.todYear + 1 + 1900 = t.todYear + 1900 + 1 := by omega
    refine Eq.trans ?_ ((if_neg hlast).trans (if_neg h12)).symm
    exact congrArg (fun y => (⟨0, 0, 0, t.todDow % 7 + 1, 1, 1, y⟩ : Moment)) hy
  · have hlen := (monthLength_bounds (t.todYear + 1 + 1900) 1).1
    have hfirst : thru (row (t.todYear + 1) + (1 : Int).toNat) = 0 := thru_first _
    have hnew := yearStart_succ t.todYear
    have h13 : t.todMonth.toNat + 1 = 13 := by omega
    rw [h13] at hstep
    apply hgoal _ _ _ ⟨le_rfl, by omega⟩ ⟨le_rfl, by omega⟩ (by omega)
    unfold dayNo
    omega

lemma Shows.tick (h : Shows n t) (hn : n < 2 ^ 31 - 1) :
    ∃ t', t'.moment = t.moment.tick ∧ Shows (n + 1) t' := by
  have htime := h.time
  by_cases hsec : t.todSec < 59
  · refine ⟨{ t with todSec := t.todSec + 1 }, (if_pos hsec).symm, ?_⟩
    exact { h with
      second := ⟨by have h0 := h.second.1; change 0 ≤ t.todSec + 1; omega,
        by change t.todSec + 1 < 60; omega⟩
      time := by
        change n + 1 = 86400 * dayNo t + 3600 * t.todHour + 60 * t.todMin + (t.todSec + 1)
        omega }
  have h59 : t.todSec = 59 := by
    have hs := h.second
    omega
  by_cases hmin : t.todMin < 59
  · refine ⟨{ t with todSec := 0, todMin := t.todMin + 1 },
      ((if_neg hsec).trans (if_pos hmin)).symm, ?_⟩
    exact { h with
      second := ⟨le_rfl, by change (0 : Int) < 60; omega⟩
      minute := ⟨by have h0 := h.minute.1; change 0 ≤ t.todMin + 1; omega,
        by change t.todMin + 1 < 60; omega⟩
      time := by
        change n + 1 = 86400 * dayNo t + 3600 * t.todHour + 60 * (t.todMin + 1) + 0
        omega }
  · have hm59 : t.todMin = 59 := by
      have hm := h.minute
      omega
    by_cases hhour : t.todHour < 23
    · refine ⟨{ t with todSec := 0, todMin := 0, todHour := t.todHour + 1 },
        ((if_neg hsec).trans ((if_neg hmin).trans (if_pos hhour))).symm, ?_⟩
      exact { h with
        second := ⟨le_rfl, by change (0 : Int) < 60; omega⟩
        minute := ⟨le_rfl, by change (0 : Int) < 60; omega⟩
        hour := ⟨by have h0 := h.hour.1; change 0 ≤ t.todHour + 1; omega,
          by change t.todHour + 1 < 24; omega⟩
        time := by
          change n + 1 = 86400 * dayNo t + 3600 * (t.todHour + 1) + 60 * 0 + 0
          omega }
    · have h23 : t.todHour = 23 := by
        have hh := h.hour
        omega
      obtain ⟨t', hmom, hshow⟩ := h.nextDay hn h59 hm59 h23
      refine ⟨t', hmom.trans ?_, hshow⟩
      exact ((if_neg hsec).trans ((if_neg hmin).trans (if_neg hhour))).symm

end Shows

section Convert

lemma findYear_spec (dse year : Int) (h : dse < yearStart year) :
    yearStart (findYear dse year).1 ≤ dse ∧ dse < yearStart ((findYear dse year).1 + 1) ∧
      (findYear dse year).2 = dse - yearStart (findYear dse year).1 := by
  have hday (y : Int) : dse - 365 * (y - 70) - leapDays y = dse - yearStart y := by
    rw [yearStart]
    omega
  induction year using findYear.induct dse with
  | case1 year day hneg ih =>
    have hneg' : dse - yearStart (year - 1) < 0 := by
      rw [← hday]
      exact hneg
    rw [findYear, hday, if_pos hneg']
    exact ih (by omega)
  | case2 year day hpos =>
    have hpos' : ¬dse - yearStart (year - 1) < 0 := by
      rw [← hday]
      exact hpos
    rw [findYear, hday, if_neg hpos']
    have hyear : year - 1 + 1 = year := by omega
    refine ⟨?_, ?_, rfl⟩
    · change yearStart (year - 1) ≤ dse
      omega
    · change dse < yearStart (year - 1 + 1)
      rw [hyear]
      exact h

lemma findMonth_spec (day : Int) (base : Nat) (hbase : base ≤ 48)
    (hend : day < thru (base + 13)) (k : Nat) (hk : k ≤ 11) (hlo : thru (base + (12 - k)) ≤ day) :
    ∃ m, findMonth day (base + (12 - k)) = base + m ∧ 12 - k ≤ m ∧ m ≤ 12 ∧
      thru (base + m) ≤ day ∧ day < thru (base + (m + 1)) := by
  induction k with
  | zero =>
    refine ⟨12, ?_, le_rfl, le_rfl, hlo, hend⟩
    rw [findMonth]
    exact if_neg fun hc => absurd hc.2 (not_le.mpr hend)
  | succ k ih =>
    have hsucc : 12 - (k + 1) + 1 = 12 - k := by omega
    by_cases hnext : thru (base + (12 - k)) ≤ day
    · obtain ⟨m, hm, hge, h12, hin⟩ := ih (by omega) hnext
      refine ⟨m, ?_, by omega, h12, hin⟩
      rw [findMonth, add_assoc, hsucc, if_pos ⟨by omega, hnext⟩]
      exact hm
    · refine ⟨12 - (k + 1), ?_, le_rfl, by omega, hlo, ?_⟩
      · rw [findMonth, add_assoc, hsucc]
        exact if_neg fun hc => hnext hc.2
      · rw [hsucc]
        exact not_le.mp hnext

lemma fullTod_shows {utc : Int} (h0 : 0 ≤ utc) (hlt : utc < 2 ^ 31) : Shows utc (fullTod utc) := by
  have hguess : utc / 86400 < yearStart (utc / 86400 / 365 + 72) := by
    rw [yearStart, leapDays_eq]
    omega
  obtain ⟨hlo, hup, hday⟩ := findYear_spec _ _ hguess
  have hdef : fullTod utc = (let r := findYear (utc / 86400) (utc / 86400 / 365 + 72)
    let month := findMonth r.2 (row r.1 + 1)
    ⟨utc % 60, utc % 3600 / 60, utc % 86400 / 3600, (utc / 86400 + 4) % 7 + 1, r.2 - thru month + 1,
      ((month % 16 : Nat) : Int), r.1⟩) := rfl
  rw [hdef]
  set r := findYear (utc / 86400) (utc / 86400 / 365 + 72)
  have hyear : 70 ≤ r.1 := by
    by_contra hsmall
    have hmono := yearStart_mono (y := r.1 + 1) (z := 70) (by omega)
    have h70 : yearStart 70 = 0 := by decide
    omega
  have hyear' : r.1 ≤ 138 := by
    by_contra hbig
    have hmono := yearStart_mono (y := 139) (z := r.1) (by omega)
    have h139 : yearStart 139 = 25202 := by decide
    omega
  have hrow := row_eq r.1
  have hend := yearStart_succ r.1
  obtain ⟨m, hm, hm1, hm12, hmlo, hmup⟩ := findMonth_spec r.2 (row r.1) (by omega)
    (by omega) 11 le_rfl (by rw [thru_first]; omega)
  have hmonth : findMonth r.2 (row r.1 + 1) = row r.1 + m := hm
  have hmod : (row r.1 + m) % 16 = m := by omega
  have hstep := thru_succ hyear hyear' m hm1 hm12
  have hno : dayNo ⟨utc % 60, utc % 3600 / 60, utc % 86400 / 3600, (utc / 86400 + 4) % 7 + 1,
      r.2 - thru (row r.1 + m) + 1, (m : Int), r.1⟩ = utc / 86400 := by
    change yearStart r.1 + (thru (row r.1 + (m : Int).toNat) + (r.2 - thru (row r.1 + m) + 1) - 1) = _
    rw [Int.toNat_natCast]
    omega
  dsimp only
  rw [hmonth, hmod]
  exact {
    second := ⟨by dsimp only; omega, by dsimp only; omega⟩
    minute := ⟨by dsimp only; omega, by dsimp only; omega⟩
    hour := ⟨by dsimp only; omega, by dsimp only; omega⟩
    day := ⟨by dsimp only; omega, by dsimp only; omega⟩
    month := ⟨by dsimp only; omega, by dsimp only; omega⟩
    year := hyear
    weekday := by rw [hno]
    time := by rw [hno]; dsimp only; omega }

theorem momentAt_shows {n : Nat} (hn : n < 2 ^ 31) : ∃ t : Todinfo, t.moment = momentAt n ∧ Shows n t := by
  apply momentAt_induction (P := fun k m => ∃ t : Todinfo, t.moment = m ∧ Shows k t) (2 ^ 31 - 1)
  · refine ⟨⟨0, 0, 0, 5, 1, 1, 70⟩, rfl, ?_⟩
    have hno : dayNo ⟨0, 0, 0, 5, 1, 1, 70⟩ = 0 := by decide
    exact ⟨by decide, by decide, by decide, by decide, by decide, by decide, by rw [hno]; rfl,
      by rw [hno]; rfl⟩
  · rintro k m hk ⟨t, rfl, ht⟩
    obtain ⟨t', hmom, hshow⟩ := ht.tick (by omega)
    exact ⟨t', hmom, by exact_mod_cast hshow⟩
  · omega

lemma Shows.moment_eq {utc : Int} {t : Todinfo} (h : Shows utc t) (h0 : 0 ≤ utc)
    (hlt : utc < 2 ^ 31) : t.moment = momentAt utc.toNat := by
  obtain ⟨t', hmom, hshow⟩ := momentAt_shows (n := utc.toNat) (by omega)
  rw [Int.toNat_of_nonneg h0] at hshow
  rw [← hmom, h.unique hshow hlt]

end Convert

section Cache

/-- Nothing has been converted yet, or the saved time shows the saved second. -/
def SavedOk (saved : Saved) : Prop :=
  saved = firstSaved ∨ 0 ≤ saved.utc ∧ saved.utc < 2 ^ 31 ∧ Shows saved.utc saved.tod

lemma Shows.seconds {n m : Int} {t : Todinfo} (h : Shows n t) (h0 : 0 ≤ t.todSec + (m - n))
    (h60 : t.todSec + (m - n) < 60) : Shows m { t with todSec := t.todSec + (m - n) } := by
  have htime := h.time
  exact { h with
    second := ⟨h0, h60⟩
    time := by
      change m = 86400 * dayNo t + 3600 * t.todHour + 60 * t.todMin + (t.todSec + (m - n))
      omega }

lemma int32_cases (x : Int) (hlo : -2 ^ 31 ≤ x) (hhi : x < 2 ^ 32) :
    int32 x = x ∧ x < 2 ^ 31 ∨ int32 x < 0 ∧ 2 ^ 31 ≤ x := by
  unfold int32
  rw [Int.bmod_def]
  split <;> omega

theorem utcToTod_shows {saved : Saved} {utc : Int} (hs : SavedOk saved) (h0 : 0 ≤ utc)
    (hlt : utc < 2 ^ 31) :
    (utcToTod saved utc).utc = utc ∧ Shows utc (utcToTod saved utc).tod := by
  have hfull := fullTod_shows h0 hlt
  have hneg : ¬utc < 0 := not_lt.mpr h0
  unfold utcToTod
  simp only [if_neg hneg]
  split
  · next hshort =>
    refine ⟨rfl, ?_⟩
    rcases hs with rfl | ⟨hs0, hslt, hshow⟩
    · exfalso
      have hdiff := int32_cases (utc - firstSaved.utc)
        (by change -2 ^ 31 ≤ utc - -60; omega) (by change utc - -60 < 2 ^ 32; omega)
      have hzero : firstSaved.tod.todSec = 0 := rfl
      have hstart : firstSaved.utc = -60 := rfl
      have hagain : int32 (int32 (utc - firstSaved.utc)) = int32 (utc - firstSaved.utc) := by
        unfold int32
        exact Int.bmod_bmod
      rw [hzero, Int.zero_add, hagain, hstart] at hshort
      rw [hstart] at hdiff
      omega
    · have hsec := hshow.second
      have hdiff := int32_cases (utc - saved.utc) (by omega) (by omega)
      have hsum := int32_cases (saved.tod.todSec + (utc - saved.utc)) (by omega) (by omega)
      have hd : int32 (utc - saved.utc) = utc - saved.utc := by omega
      rw [hd] at hshort ⊢
      have hval : int32 (saved.tod.todSec + (utc - saved.utc)) =
          saved.tod.todSec + (utc - saved.utc) := by omega
      rw [hval] at hshort ⊢
      exact hshow.seconds hshort.1 hshort.2
  · exact ⟨rfl, hfull⟩

end Cache

section Back

lemma shiftLeft_eq_mul (x : BitVec 32) (k : Nat) : x <<< k = BitVec.ofNat 32 (2 ^ k) * x := by
  apply BitVec.eq_of_toNat_eq
  rw [BitVec.toNat_shiftLeft, BitVec.toNat_mul, BitVec.toNat_ofNat, shiftLeft_eq, mod_mul_mod,
    mul_comm]

theorem todToUtc_eq {n : Int} {t : Todinfo} (h : Shows n t) (h0 : 0 ≤ n) (hlt : n < 2 ^ 31)
    (debug : Bool) : todToUtc debug t = n := by
  have hmonth := h.month
  have hidx : (t.todMonth + (row t.todYear : Int)).toNat = row t.todYear + t.todMonth.toNat := by omega
  have hgood : ¬badTod t := by
    have hhi := h.year_le hlt
    have hday := h.day
    have hhour := h.hour
    have hmin := h.minute
    have hsec := h.second
    have hyear := h.year
    have hstep := thru_succ h.year hhi t.todMonth.toNat (by omega) (by omega)
    have hcast : ((t.todMonth.toNat : Nat) : Int) = t.todMonth := Int.toNat_of_nonneg (by omega)
    rw [hcast, ← add_assoc] at hstep
    unfold badTod
    simp only [hidx, not_or]
    omega
  have htime := h.time
  unfold dayNo yearStart at htime
  have hsum : n = 60 * (60 * (24 * (365 * (t.todYear - 70) + leapDays t.todYear +
      (thru (row t.todYear + t.todMonth.toNat) + t.todDay - 1)) + t.todHour) + t.todMin) +
      t.todSec := by omega
  have hback : (BitVec.ofInt 32 n).toInt = n := by
    rw [BitVec.toInt_ofInt, Int.bmod_eq_of_le (by omega) (by omega)]
  rw [todToUtc]
  dsimp only
  rw [if_neg fun hc => hgood hc.2, hidx, ← hback, hsum]
  congr 1
  simp only [shiftLeft_eq_mul, BitVec.ofInt_add, BitVec.ofInt_mul]
  generalize BitVec.ofInt 32 (t.todYear - 70) = years
  generalize BitVec.ofInt 32 (leapDays t.todYear) = leaps
  generalize BitVec.ofInt 32 (thru (row t.todYear + t.todMonth.toNat) + t.todDay - 1) = days
  change _ = 60 * (60 * (24 * (365 * years + leaps + days) + _) + _) + _
  have h2 : BitVec.ofNat 32 (2 ^ 2) = 4 := rfl
  have h3 : BitVec.ofNat 32 (2 ^ 3) = 8 := rfl
  have h4 : BitVec.ofNat 32 (2 ^ 4) = 16 := rfl
  have h6 : BitVec.ofNat 32 (2 ^ 6) = 64 := rfl
  rw [h2, h3, h4, h6]
  ring

end Back

section Runs

/-- Along every run of conversions each answer is the date and time of its argument, and converts
back to it. -/
theorem utcToTod_exact (debug : Bool) (utcs : List Int) (h : ∀ utc ∈ utcs, 0 ≤ utc ∧ utc < 2 ^ 31) :
    Along utcToTod (fun saved utc =>
      (utcToTod saved utc).tod.moment = momentAt utc.toNat ∧
        todToUtc debug (utcToTod saved utc).tod = utc) firstSaved utcs := by
  have hrange : Along utcToTod (fun _ utc => 0 ≤ utc ∧ utc < 2 ^ 31) firstSaved utcs :=
    along_of_forall h
  apply hrange.imp (P := SavedOk) (.inl rfl)
  rintro saved utc hs ⟨h0, hlt⟩
  obtain ⟨hutc, hshow⟩ := utcToTod_shows hs h0 hlt
  refine ⟨⟨hshow.moment_eq h0 hlt, todToUtc_eq hshow h0 hlt debug⟩, .inr ?_⟩
  rw [hutc]
  exact ⟨h0, hlt, hshow⟩

theorem utcToTod_exact_sample :
    Along utcToTod (fun saved utc =>
      (utcToTod saved utc).tod.moment = momentAt utc.toNat ∧
        todToUtc true (utcToTod saved utc).tod = utc)
      firstSaved [951782399, 951782400, 951782403, 2147483647, 0] :=
  utcToTod_exact true _ (by decide)

end Runs

end Solaris.Timers
