import Mathlib.Tactic.IntervalCases
import Solaris.Timers.Localtime

/-!
# The time that fields denote

`mktime` of `time_comm.c` without a zone: `timezone` and `altzone` are 0, and `localtime_u` is `offtime_u`. Sums wrap in an
`int` or a `long` of 32 bits.
-/

namespace Solaris.Timers

open Lib Int

def ydayToMonth : List Int := [0, 31, 59, 90, 120, 151, 181, 212, 243, 273, 304, 334]

def lydayToMonth : List Int := [0, 31, 60, 91, 121, 152, 182, 213, 244, 274, 305, 335]

/-- `tbl[i]`; what lies outside of the table is not known. -/
def entryAt (beyond : Int → Int) (tbl : List Int) (i : Int) : Int :=
  if 0 ≤ i ∧ i < 12 then tbl.getD i.toNat 0 else beyond i

/-- The month that is carried into the year: `tm_year` and `tm_mon`. -/
def carryMonth (year mon : Int) : Int × Int :=
  if mon ≥ 12 then (int32 (year + mon.tdiv 12), mon.tmod 12)
  else if mon < 0 then
    let temp := int32 (-mon)
    let year := int32 (year - temp.tdiv 12)
    let temp := temp.tmod 12
    if temp ≠ 0 then (int32 (year - 1), 12 - temp) else (year, 0)
  else (year, mon)

/-- The `secs` of `mktime` in the year `year`, without the month. -/
def yearSecs (tm : Tm) (year : Int) : Int :=
  let secs := int32 (tm.sec + 60 * tm.min + 3600 * tm.hour + 86400 * (tm.mday - 1))
  int32 (secs + 31536000 * (year - 70) + 86400 * ((int32 (year + 3)).tdiv 4 - 1 - 17))

def mktimeSecs (beyond : Int → Int) (tm : Tm) (year mon : Int) : Int :=
  if year.tmod 4 = 0 then int32 (yearSecs tm year + 86400 * entryAt beyond lydayToMonth mon)
  else int32 (yearSecs tm year + 86400 * entryAt beyond ydayToMonth mon)

/-- `mktime`: its answer, and the fields that it leaves. -/
def mktime (beyond : Int → Int) (tm : Tm) : Int × Tm :=
  let (year, mon) := carryMonth tm.year tm.mon
  let badYear := year < 69 ∨ year > 138
  let secs := mktimeSecs beyond tm year mon
  if secs < 0 ∨ badYear then (-1, { tm with year, mon }) else (secs, offtimeU secs 0)

/-- Every field is an `int`. -/
structure Tm.Ints (tm : Tm) : Prop where
  year : -2 ^ 31 ≤ tm.year ∧ tm.year < 2 ^ 31
  mon : -2 ^ 31 ≤ tm.mon ∧ tm.mon < 2 ^ 31
  mday : -2 ^ 31 ≤ tm.mday ∧ tm.mday < 2 ^ 31
  hour : -2 ^ 31 ≤ tm.hour ∧ tm.hour < 2 ^ 31
  min : -2 ^ 31 ≤ tm.min ∧ tm.min < 2 ^ 31
  sec : -2 ^ 31 ≤ tm.sec ∧ tm.sec < 2 ^ 31

/-- The second of the Gregorian calendar that the fields denote, with months carried into the year. -/
def Tm.seconds (tm : Tm) : Int :=
  let year := tm.year + 1900 + tm.mon / 12
  let month := ((List.range (tm.mon % 12).toNat).map fun k : Nat => monthLength year (k + 1)).sum
  (daysTo year + month + (tm.mday - 1)) * 86400 + tm.hour * 3600 + tm.min * 60 + tm.sec

/-- The answer is -1, or the second that the fields denote, with the fields of that second. -/
def NeverWrong (tm : Tm) : Prop := ∀ beyond, (mktime beyond tm).1 = -1 ∨ mktime beyond tm = (tm.seconds, offtimeU tm.seconds 0)

variable {beyond : Int → Int} {tm : Tm} {year mon x : Int}

lemma int32_spec (x : Int) : (∃ k, int32 x = x + 2 ^ 32 * k) ∧ -2 ^ 31 ≤ int32 x ∧ int32 x < 2 ^ 31 := by
  unfold int32
  rw [bmod_def]
  split_ifs
  · exact ⟨⟨-(x / 2 ^ 32), by omega⟩, by omega, by omega⟩
  · exact ⟨⟨-(x / 2 ^ 32) - 1, by omega⟩, by omega, by omega⟩

lemma int32_int (hlo : -2 ^ 31 ≤ x) (hhi : x < 2 ^ 31) : int32 x = x := by
  obtain ⟨⟨k, hk⟩, hlo', hhi'⟩ := int32_spec x
  omega

lemma int32_congr {y k : Int} (h : x = y + 2 ^ 32 * k) : int32 x = int32 y := by
  obtain ⟨⟨k', hk⟩, hlo, hhi⟩ := int32_spec x
  obtain ⟨⟨k'', hk'⟩, hlo', hhi'⟩ := int32_spec y
  omega

lemma carryMonth_spec (hyear : -2 ^ 31 ≤ year ∧ year < 2 ^ 31) (hmon : -2 ^ 31 < mon ∧ mon < 2 ^ 31) :
    (carryMonth year mon).2 = mon % 12 ∧ (∃ k, (carryMonth year mon).1 = year + mon / 12 + 2 ^ 32 * k) ∧
      -2 ^ 31 ≤ (carryMonth year mon).1 ∧ (carryMonth year mon).1 < 2 ^ 31 := by
  unfold carryMonth
  by_cases hlarge : mon ≥ 12
  · rw [if_pos hlarge, tdiv_eq_ediv_of_nonneg (by omega), tmod_eq_emod_of_nonneg (by omega)]
    exact ⟨rfl, int32_spec _⟩
  rw [if_neg hlarge]
  by_cases hneg : mon < 0
  · obtain ⟨⟨k, hk⟩, hbounds'⟩ := int32_spec (year - (-mon) / 12)
    obtain ⟨⟨k', hk'⟩, hbounds⟩ := int32_spec (int32 (year - (-mon) / 12) - 1)
    rw [if_pos hneg, int32_int (x := -mon) (by omega) (by omega)]
    dsimp only
    rw [tdiv_eq_ediv_of_nonneg (by omega), tmod_eq_emod_of_nonneg (by omega)]
    split_ifs with hrest
    · exact ⟨by dsimp only; omega, ⟨k + k', by dsimp only; omega⟩, hbounds⟩
    · exact ⟨by dsimp only; omega, ⟨k, by dsimp only; omega⟩, hbounds'⟩
  · rw [if_neg hneg]
    exact ⟨by dsimp only; omega, ⟨0, by dsimp only; omega⟩, hyear⟩

lemma entryAt_eq (beyond : Int → Int) {m : Nat} (hlo : 69 ≤ year) (hhi : year ≤ 138) (hm : m < 12) :
    (if year.tmod 4 = 0 then entryAt beyond lydayToMonth m else entryAt beyond ydayToMonth m) =
      ((List.range m).map fun k : Nat => monthLength (year + 1900) (k + 1)).sum := by
  have hleap : leap (year + 1900) ↔ year.tmod 4 = 0 := by
    rw [tmod_eq_emod_of_nonneg (by omega)]
    unfold leap
    omega
  have hin : 0 ≤ (m : Int) ∧ (m : Int) < 12 := by omega
  simp only [entryAt, if_pos hin]
  unfold monthLength
  by_cases h4 : year.tmod 4 = 0
  · rw [if_pos h4]
    simp only [if_pos (hleap.mpr h4)]
    interval_cases m <;> rfl
  · rw [if_neg h4]
    simp only [if_neg (mt hleap.mp h4)]
    interval_cases m <;> rfl

lemma mktimeSecs_eq (hlo : 69 ≤ tm.year + tm.mon / 12) (hhi : tm.year + tm.mon / 12 ≤ 138) :
    mktimeSecs beyond tm (tm.year + tm.mon / 12) (tm.mon % 12) = int32 tm.seconds := by
  obtain ⟨m, hm⟩ : ∃ m : Nat, tm.mon % 12 = m := ⟨_, (Int.toNat_of_nonneg (by omega)).symm⟩
  have hentry := entryAt_eq beyond hlo hhi (show m < 12 by omega)
  have hyear : tm.year + 1900 + tm.mon / 12 = tm.year + tm.mon / 12 + 1900 := by omega
  rw [Tm.seconds, hyear, hm, toNat_natCast, ← hentry]
  generalize tm.year + tm.mon / 12 = y at hlo hhi ⊢
  unfold mktimeSecs yearSecs daysTo
  rw [int32_int (x := y + 3) (by omega) (by omega), tdiv_eq_ediv_of_nonneg (by omega)]
  dsimp only
  obtain ⟨⟨k, hk⟩, _⟩ := int32_spec (tm.sec + 60 * tm.min + 3600 * tm.hour + 86400 * (tm.mday - 1))
  obtain ⟨⟨k', hk'⟩, _⟩ := int32_spec (int32 (tm.sec + 60 * tm.min + 3600 * tm.hour + 86400 * (tm.mday - 1)) +
    31536000 * (y - 70) + 86400 * ((y + 3) / 4 - 1 - 17))
  have hdays : 365 * (y - 70) + ((y + 3) / 4 - 18) =
    365 * (y + 1900 - 1970) + ((y + 1900 - 1) / 4 - (y + 1900 - 1) / 100 + (y + 1900 - 1) / 400 - 477) := by omega
  split_ifs
  · exact int32_congr (k := k + k') (by omega)
  · exact int32_congr (k := k + k') (by omega)

lemma mktime_of_year (hyear : (carryMonth tm.year tm.mon).1 = year) (hmon : (carryMonth tm.year tm.mon).2 = mon) :
    mktime beyond tm = if mktimeSecs beyond tm year mon < 0 ∨ year < 69 ∨ year > 138 then (-1, { tm with year, mon })
      else (mktimeSecs beyond tm year mon, offtimeU (mktimeSecs beyond tm year mon) 0) := by
  subst hyear hmon
  rfl

/-- The years that `mktime` does not refuse, when the month is carried without a slip. -/
def InYears (year : Int) : Prop := 69 ≤ year ∧ year ≤ 138

lemma mktime_eq (beyond : Int → Int) (h : tm.Ints) (hmon : tm.mon ≠ -2 ^ 31) :
    (InYears (tm.year + tm.mon / 12) → 0 ≤ int32 tm.seconds →
      mktime beyond tm = (int32 tm.seconds, offtimeU (int32 tm.seconds) 0)) ∧
    (¬ InYears (tm.year + tm.mon / 12) ∨ int32 tm.seconds < 0 → (mktime beyond tm).1 = -1) := by
  obtain ⟨hcarry, ⟨k, hk⟩, hlo, hhi⟩ := carryMonth_spec h.year ⟨lt_of_le_of_ne h.mon.1 hmon.symm, h.mon.2⟩
  obtain ⟨hy, _⟩ := h.year
  obtain ⟨hm, _⟩ := h.mon
  have hsame : InYears (tm.year + tm.mon / 12) → (carryMonth tm.year tm.mon).1 = tm.year + tm.mon / 12 := by
    rintro ⟨h69, h138⟩
    omega
  constructor
  · intro hin hpos
    rw [mktime_of_year (hsame hin) hcarry, mktimeSecs_eq hin.1 hin.2, if_neg]
    have := hin.1
    have := hin.2
    omega
  · intro hbad
    rw [mktime_of_year rfl hcarry]
    by_cases hin : InYears (tm.year + tm.mon / 12)
    · rw [hsame hin, mktimeSecs_eq hin.1 hin.2, if_pos (.inl (hbad.resolve_left (not_not.mpr hin)))]
    · rw [if_pos]
      unfold InYears at hin
      omega

/-- The condition under which the sums do not lose the second, or come out negative. -/
def Kept (tm : Tm) : Prop :=
  if tm.mon = -2 ^ 31 then ¬ InYears (tm.year + 178956969)
  else ¬ InYears (tm.year + tm.mon / 12) ∨ int32 tm.seconds < 0 ∨ 0 ≤ tm.seconds ∧ tm.seconds < 2 ^ 31

lemma carryMonth_least (year : Int) : carryMonth year (-2 ^ 31) = (int32 (int32 (year + 178956970) - 1), 20) := by
  unfold carryMonth
  rw [if_neg (by decide), if_pos (by decide)]
  have htemp : int32 (- -2 ^ 31) = -2 ^ 31 := by decide
  rw [htemp]
  rfl

lemma neverWrong_least (h : tm.Ints) (hmon : tm.mon = -2 ^ 31) : NeverWrong tm ↔ ¬ InYears (tm.year + 178956969) := by
  obtain ⟨⟨hy, hy'⟩, _, ⟨_, hd⟩, ⟨_, hh⟩, ⟨_, hmin⟩, _, hs⟩ := h
  obtain ⟨⟨k, hk⟩, hlo, hhi⟩ := int32_spec (tm.year + 178956970)
  obtain ⟨⟨k', hk'⟩, hlo', hhi'⟩ := int32_spec (int32 (tm.year + 178956970) - 1)
  have hcarry := carryMonth_least tm.year
  rw [← hmon] at hcarry
  have hyear : (carryMonth tm.year tm.mon).1 = int32 (int32 (tm.year + 178956970) - 1) := by rw [hcarry]
  have hmon' : (carryMonth tm.year tm.mon).2 = 20 := by rw [hcarry]
  unfold InYears NeverWrong
  constructor
  · rintro hright ⟨h69, h138⟩
    have hsum : ∀ beyond, mktimeSecs beyond tm (int32 (int32 (tm.year + 178956970) - 1)) 20 =
        int32 (yearSecs tm (int32 (int32 (tm.year + 178956970) - 1)) + 86400 * beyond 20) := fun beyond => by
      have hout : ¬ ((0 : Int) ≤ 20 ∧ (20 : Int) < 12) := by decide
      unfold mktimeSecs entryAt
      rw [if_neg hout, if_neg hout, ite_self]
    generalize yearSecs tm (int32 (int32 (tm.year + 178956970) - 1)) = sum at hsum
    -- the value behind the table can make the sum any second of the first day
    have hwrong := hright fun _ => -(sum / 86400)
    have hday : int32 (sum + 86400 * -(sum / 86400)) = sum % 86400 :=
      (congrArg int32 (by omega)).trans (int32_int (x := sum % 86400) (by omega) (by omega))
    rw [mktime_of_year hyear hmon', hsum, hday, if_neg (by omega)] at hwrong
    have hneg : tm.seconds < 0 := by
      have hdiv : tm.mon / 12 = -178956971 := by rw [hmon]; rfl
      have hmod : (tm.mon % 12).toNat = 4 := by rw [hmon]; rfl
      have hlen := fun k => (monthLength_bounds (tm.year + 1900 + -178956971) k).2
      have h1 := hlen 1
      have h2 := hlen 2
      have h3 := hlen 3
      have h4 := hlen 4
      have hmonths : ((List.range 4).map fun k : Nat => monthLength (tm.year + 1900 + -178956971) (k + 1)).sum =
          monthLength (tm.year + 1900 + -178956971) 1 + (monthLength (tm.year + 1900 + -178956971) 2 +
            (monthLength (tm.year + 1900 + -178956971) 3 + (monthLength (tm.year + 1900 + -178956971) 4 + 0))) := rfl
      unfold Tm.seconds daysTo
      rw [hdiv, hmod]
      dsimp only
      rw [hmonths]
      omega
    rcases hwrong with hwrong | hwrong
    · omega
    · have := congrArg Prod.fst hwrong
      dsimp only at this
      omega
  · intro hout beyond
    rw [mktime_of_year hyear hmon', if_pos]
    · exact .inl rfl
    · omega

theorem mktime_right_iff (tm : Tm) (h : tm.Ints) :
    (∀ t, 0 ≤ t → t < 2 ^ 31 → ∀ beyond, (mktime beyond (offtimeU t 0)).1 = t) ∧ (NeverWrong tm ↔ Kept tm) := by
  constructor
  · intro t h0 hlt beyond
    obtain ⟨hshows, _⟩ := offtimeU_shows t
    generalize offtimeU t 0 = tm at hshows ⊢
    obtain ⟨m, hm, hmon, hmday, hmday', hyday⟩ := hshows.mday
    have hmday31 := hmday'.trans (monthLength_bounds _ _).2
    obtain ⟨hyday0, hydayLt⟩ := hshows.yday
    have hlen := yearLength_cases (tm.year + 1900)
    obtain ⟨hsec0, hsec⟩ := hshows.sec
    obtain ⟨hmin0, hmin⟩ := hshows.min
    obtain ⟨hhour0, hhour⟩ := hshows.hour
    have hin : InYears tm.year := by
      have htime := hshows.time
      unfold daysTo at htime
      unfold InYears
      omega
    have hdiv : tm.mon / 12 = 0 := by omega
    have hmod : (tm.mon % 12).toNat = m := by omega
    have hseconds : tm.seconds = t := by
      rw [hshows.time, hyday, Tm.seconds, hdiv, hmod, add_zero]
      omega
    have hints : tm.Ints := by
      unfold InYears at hin
      constructor <;> omega
    have heq := (mktime_eq beyond hints (by omega)).1 (by rwa [hdiv, add_zero])
    rw [hseconds, int32_int (by omega) hlt] at heq
    rw [heq h0]
  · unfold Kept
    by_cases hmon : tm.mon = -2 ^ 31
    · rw [if_pos hmon]
      exact neverWrong_least h hmon
    rw [if_neg hmon]
    obtain ⟨⟨k, hk⟩, hlo, hhi⟩ := int32_spec tm.seconds
    constructor
    · intro hright
      by_contra hnot
      rw [not_or, not_not, not_or, not_lt] at hnot
      obtain ⟨hin, hpos, hout⟩ := hnot
      have heq := (mktime_eq (fun _ => 0) h hmon).1 hin hpos
      rcases hright fun _ => 0 with hwrong | hwrong
      · rw [heq] at hwrong
        dsimp only at hwrong
        omega
      · rw [heq] at hwrong
        have := congrArg Prod.fst hwrong
        dsimp only at this
        omega
    · intro hkept beyond
      by_cases hbad : ¬ InYears (tm.year + tm.mon / 12) ∨ int32 tm.seconds < 0
      · exact .inl ((mktime_eq _ h hmon).2 hbad)
      rw [not_or, not_not, not_lt] at hbad
      have heq := (mktime_eq beyond h hmon).1 hbad.1 hbad.2
      rcases hkept with hkept | hkept | hkept
      · exact absurd hbad.1 hkept
      · omega
      · rw [int32_int (by omega) hkept.2] at heq
        exact .inr heq

theorem mktime_right_iff_sample : NeverWrong ⟨61, 0, 0, 1, 0, 70, 0, 0, 0⟩ ↔ Kept ⟨61, 0, 0, 1, 0, 70, 0, 0, 0⟩ :=
  (mktime_right_iff _ (by constructor <;> decide)).2

theorem mktime_wrong : ¬ NeverWrong ⟨0, 0, 0, 49712, 0, 70, 0, 0, 0⟩ := by
  intro hright
  have hanswer : (mktime (fun _ => 0) ⟨0, 0, 0, 49712, 0, 70, 0, 0, 0⟩).1 = 63104 := by decide +kernel
  rcases hright fun _ => 0 with hwrong | hwrong
  · rw [hanswer] at hwrong
    exact absurd hwrong (by decide)
  · rw [hwrong] at hanswer
    exact absurd hanswer (by decide)

end Solaris.Timers
