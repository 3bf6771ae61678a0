import Mathlib.Data.List.Chain
import Solaris.Timers.Calendar

/-!
# Local time

`localtime_u` of `time_comm.c` for a zone whose file has been loaded, with `_ltzset_u` and `offtime_u`. The table of the
zone is walked anew for every time, into variables that stay from call to call.
-/

namespace Solaris.Timers

open Lib List Int

section Fields

structure Tm where
  sec : Int
  min : Int
  hour : Int
  mday : Int
  mon : Int
  year : Int
  wday : Int
  yday : Int
  isdst : Int

/-- `__mon_lengths[isleap(y)]` -/
def monLengths (y : Int) : List Int :=
  if leap y then [31, 29, 31, 30, 31, 30, 31, 31, 30, 31, 30, 31]
  else [31, 28, 31, 30, 31, 30, 31, 31, 30, 31, 30, 31]

/-- `__year_lengths[isleap(y)]` -/
def yearLength (y : Int) : Int := if leap y then 366 else 365

lemma yearLength_cases (y : Int) : yearLength y = 365 ∨ yearLength y = 366 := by
  unfold yearLength
  split_ifs
  · exact .inr rfl
  · exact .inl rfl

def remUp (rem days : Int) : Int × Int := if rem < 0 then remUp (rem + 86400) (days - 1) else (rem, days)
termination_by (-rem).toNat
decreasing_by omega

def remDown (rem days : Int) : Int × Int := if rem ≥ 86400 then remDown (rem - 86400) (days + 1) else (rem, days)
termination_by rem.toNat
decreasing_by omega

def yearUp (days y : Int) : Int × Int :=
  if days < yearLength y then (days, y) else yearUp (days - yearLength y) (y + 1)
termination_by days.toNat
decreasing_by
  have hlen := yearLength_cases y
  omega

def yearDown (days y : Int) : Int × Int :=
  let days := days + yearLength (y - 1)
  if days < 0 then yearDown days (y - 1) else (days, y - 1)
termination_by (-days).toNat
decreasing_by
  have hlen := yearLength_cases (y - 1)
  omega

/-- The loop that looks for the month: `tm_mon` and the rest of the days. -/
def monLoop : List Int → Int → Int × Int
  | [], days => (0, days)
  | n :: ip, days => if days ≥ n then ((monLoop ip (days - n)).1 + 1, (monLoop ip (days - n)).2) else (0, days)

def offtimeU (clock offset : Int) : Tm :=
  let (rem, days) := remUp (clock.tmod 86400 + offset) (clock.tdiv 86400)
  let (rem, days) := remDown rem days
  let wday := (4 + days).tmod 7
  let (yday, y) := if days ≥ 0 then yearUp days 1970 else yearDown days 1970
  let (mon, days) := monLoop (monLengths y) yday
  { sec := rem % 3600 % 60, min := rem % 3600 / 60, hour := rem / 3600, mday := days + 1, mon, year := y - 1900,
    wday := if wday < 0 then wday + 7 else wday, yday, isdst := 0 }

/-- The days from the start of 1970 to the start of a year. -/
def daysTo (y : Int) : Int := 365 * (y - 1970) + ((y - 1) / 4 - (y - 1) / 100 + (y - 1) / 400 - 477)

/-- The fields are those of the second `x` of the Gregorian calendar. -/
structure Tm.Shows (tm : Tm) (x : Int) : Prop where
  time : x = (daysTo (tm.year + 1900) + tm.yday) * 86400 + tm.hour * 3600 + tm.min * 60 + tm.sec
  sec : 0 ≤ tm.sec ∧ tm.sec < 60
  min : 0 ≤ tm.min ∧ tm.min < 60
  hour : 0 ≤ tm.hour ∧ tm.hour < 24
  wday : tm.wday = (4 + (daysTo (tm.year + 1900) + tm.yday)) % 7
  yday : 0 ≤ tm.yday ∧ tm.yday < yearLength (tm.year + 1900)
  mday : ∃ m < 12, tm.mon = (m : Nat) ∧ 1 ≤ tm.mday ∧ tm.mday ≤ monthLength (tm.year + 1900) (m + 1) ∧
    tm.yday = ((List.range m).map fun k : Nat => monthLength (tm.year + 1900) (k + 1)).sum + tm.mday - 1

variable {rem days y x x' : Int} {tm : Tm}

lemma Tm.Shows.unique (h : tm.Shows x) (h' : tm.Shows x') : x = x' := h.time.trans h'.time.symm

lemma daysTo_succ (y : Int) : daysTo (y + 1) = daysTo y + yearLength y := by
  unfold daysTo yearLength leap
  split_ifs <;> omega

lemma remUp_spec (h : rem < 86400) : (remUp rem days).2 * 86400 + (remUp rem days).1 = days * 86400 + rem ∧
    0 ≤ (remUp rem days).1 ∧ (remUp rem days).1 < 86400 := by
  induction rem, days using remUp.induct with
  | case1 rem days hneg ih =>
    rw [remUp, if_pos hneg]
    omega
  | case2 rem days hpos =>
    rw [remUp, if_neg hpos]
    omega

lemma remDown_eq (h : rem < 86400) : remDown rem days = (rem, days) := by
  rw [remDown, if_neg (not_le.mpr h)]

lemma yearUp_spec (h : 0 ≤ days) : daysTo (yearUp days y).2 + (yearUp days y).1 = daysTo y + days ∧
    0 ≤ (yearUp days y).1 ∧ (yearUp days y).1 < yearLength (yearUp days y).2 := by
  induction days, y using yearUp.induct with
  | case1 days y hlt =>
    rw [yearUp, if_pos hlt]
    exact ⟨rfl, h, hlt⟩
  | case2 days y hge ih =>
    rw [yearUp, if_neg hge]
    obtain ⟨hsum, hrest⟩ := ih (by omega)
    rw [daysTo_succ] at hsum
    exact ⟨by omega, hrest⟩

lemma yearDown_spec (h : days < 0) : daysTo (yearDown days y).2 + (yearDown days y).1 = daysTo y + days ∧
    0 ≤ (yearDown days y).1 ∧ (yearDown days y).1 < yearLength (yearDown days y).2 := by
  induction days, y using yearDown.induct with
  | case1 days y days' hneg ih =>
    have hsucc := daysTo_succ (y - 1)
    rw [sub_add_cancel] at hsucc
    rw [yearDown, if_pos hneg]
    obtain ⟨hsum, hrest⟩ := ih hneg
    exact ⟨hsum.trans (by omega), hrest⟩
  | case2 days y days' hpos =>
    have hsucc := daysTo_succ (y - 1)
    rw [sub_add_cancel] at hsucc
    rw [yearDown, if_neg hpos]
    exact ⟨by dsimp only; omega, by omega, by dsimp only; omega⟩

lemma monLengths_eq (y : Int) : monLengths y = (List.range 12).map fun k : Nat => monthLength y (k + 1) := by
  unfold monLengths monthLength
  split_ifs with h <;> simp [List.range, List.range.loop]

lemma monLoop_spec (f : Nat → Int) (n : Nat) (i : Nat) (h : days < ((List.range' i n).map f).sum) (h0 : 0 ≤ days) :
    ∃ m < n, (monLoop ((List.range' i n).map f) days).1 = (m : Nat) ∧
      0 ≤ (monLoop ((List.range' i n).map f) days).2 ∧ (monLoop ((List.range' i n).map f) days).2 < f (i + m) ∧
      days = ((List.range' i m).map f).sum + (monLoop ((List.range' i n).map f) days).2 := by
  induction n generalizing i days with
  | zero =>
    change days < 0 at h
    omega
  | succ n ih =>
    rw [range'_succ, map_cons] at h ⊢
    rw [sum_cons] at h
    unfold monLoop
    split_ifs with hge
    · obtain ⟨m, hm, hmon, hlo, hhi, hsum⟩ := @ih (days - f i) (i + 1) (by omega) (by omega)
      refine ⟨m + 1, by omega, ?_, hlo, ?_, ?_⟩
      · dsimp only
        omega
      · rw [show i + (m + 1) = i + 1 + m by omega]
        exact hhi
      · rw [range'_succ, map_cons, sum_cons]
        omega
    · exact ⟨0, by omega, rfl, h0, not_le.mp hge, by simp⟩

lemma yearLength_eq (y : Int) : yearLength y = ((List.range' 0 12).map fun k : Nat => monthLength y (k + 1)).sum := by
  unfold yearLength monthLength
  split_ifs with h <;> simp [range']

lemma offtimeU_shows (clock : Int) : (offtimeU clock 0).Shows clock ∧ (offtimeU clock 0).isdst = 0 := by
  refine ⟨?_, rfl⟩
  obtain ⟨hday, hrem0, hrem⟩ := @remUp_spec (clock.tmod 86400 + 0) (clock.tdiv 86400)
    (by have := tmod_lt_of_pos clock (b := 86400) (by decide); omega)
  have hsplit := mul_tdiv_add_tmod clock 86400
  unfold offtimeU
  generalize remUp (clock.tmod 86400 + 0) (clock.tdiv 86400) = p at hday hrem0 hrem
  obtain ⟨rem, days⟩ := p
  dsimp only at hday hrem0 hrem ⊢
  rw [remDown_eq hrem]
  have hyear : ∀ q : Int × Int, q = (if days ≥ 0 then yearUp days 1970 else yearDown days 1970) →
      daysTo q.2 + q.1 = days ∧ 0 ≤ q.1 ∧ q.1 < yearLength q.2 := by
    rintro q rfl
    have hzero : daysTo 1970 = 0 := by decide
    split_ifs with hpos
    · have hspec := yearUp_spec (y := 1970) hpos
      rw [hzero, zero_add] at hspec
      exact hspec
    · have hspec := yearDown_spec (y := 1970) (not_le.mp hpos)
      rw [hzero, zero_add] at hspec
      exact hspec
  generalize (if days ≥ 0 then yearUp days 1970 else yearDown days 1970) = q at hyear
  obtain ⟨hsum, hyday0, hyday⟩ := hyear q rfl
  obtain ⟨yday, y⟩ := q
  dsimp only at hsum hyday0 hyday ⊢
  have hmonth := @monLoop_spec yday (fun k : Nat => monthLength y (k + 1)) 12 0
    (by rw [← yearLength_eq]; exact hyday) hyday0
  rw [monLengths_eq, range_eq_range']
  obtain ⟨m, hm, hmon, hlo, hhi, hdays⟩ := hmonth
  have hy : y - 1900 + 1900 = y := sub_add_cancel y 1900
  rw [Nat.zero_add] at hhi
  have hweek := mul_tdiv_add_tmod (4 + days) 7
  have hweeklt := tmod_lt_of_pos (4 + days) (b := 7) (by decide)
  have hweekgt := lt_tmod_of_pos (4 + days) (b := 7) (by decide)
  refine ⟨?_, ?_, ?_, ?_, ?_, ?_, m, hm, hmon, ?_, ?_, ?_⟩
  · dsimp only
    rw [hy]
    omega
  · dsimp only
    omega
  · dsimp only
    omega
  · dsimp only
    omega
  · dsimp only
    rw [hy, hsum]
    omega
  · dsimp only
    rw [hy]
    exact ⟨hyday0, hyday⟩
  · dsimp only
    omega
  · dsimp only
    rw [hy]
    omega
  · dsimp only
    rw [hy, range_eq_range']
    omega

end Fields

section Zone

structure Ttinfo where
  gmtoff : Int
  isdst : Bool

/-- The transitions are the entries of `ats` and `types`, the type as an index into `ttis`. -/
structure TzState where
  trans : List (Int × Nat)
  ttis : List Ttinfo

def TzState.type (s : TzState) (a : Int × Nat) : Ttinfo := s.ttis.getD a.2 ⟨0, false⟩

/-- The variables that `_ltzset_u` sets. -/
structure TzVars where
  timezone : Int
  altzone : Int
  daylight : Bool
  isInDst : Bool
  startDst : Int
  endDst : Int

def intMax : Int := 2 ^ 31 - 1

/-- One turn of the loop over the transitions, with those that follow. -/
def ltzTurn (s : TzState) (a : Int × Nat) (rest : List (Int × Nat)) (g : TzVars) : TzVars :=
  if (s.type a).isdst = true then
    { g with
      daylight := true, isInDst := true, altzone := int32 (-(s.type a).gmtoff), startDst := a.1
      endDst := match rest with
        | [] => intMax
        | b :: _ => b.1 }
  else { g with timezone := int32 (-(s.type a).gmtoff), isInDst := false }

def ltzLoop (s : TzState) (tim : Int) : List (Int × Nat) → TzVars → TzVars
  | [], g => g
  | a :: rest, g => if a.1 ≤ tim then ltzLoop s tim rest (ltzTurn s a rest g) else g

/-- `_ltzset_u`; `time` is what `time(NULL)` returns. -/
def ltzsetU (s : TzState) (g : TzVars) (tim time : Int) : TzVars :=
  let tim := if tim = 0 then time else tim
  let first := s.ttis.headD ⟨0, false⟩
  ltzLoop s tim s.trans { g with timezone := int32 (-first.gmtoff), daylight := false, startDst := 0, endDst := 0 }

/-- `daybegin` and `dayend`; `getusa` gives the American rules from the fields. -/
def TzVars.bounds (g : TzVars) (getusa : Tm → Int × Int) (tmp : Tm) : Int × Int :=
  if g.startDst = -1 ∧ g.endDst = -1 then getusa tmp
  else
    let adjust := if g.isInDst = true then g.timezone else 0
    (int32 (g.startDst - adjust), int32 (g.endDst - adjust))

def InDst (b : Int × Int) (curr : Int) : Prop :=
  if b.1 ≤ b.2 then curr ≥ b.1 ∧ curr < b.2 else ¬(curr ≥ b.2 ∧ curr < b.1)

instance (b : Int × Int) (curr : Int) : Decidable (InDst b curr) :=
  inferInstanceAs (Decidable (if b.1 ≤ b.2 then curr ≥ b.1 ∧ curr < b.2 else ¬(curr ≥ b.2 ∧ curr < b.1)))

/-- `localtime_u` where `isPosix` is 0 -/
def localtimeU (s : TzState) (g : TzVars) (time : Int) (getusa : Tm → Int × Int) (timep : Int) : Tm × TzVars :=
  let g := ltzsetU s g timep time
  let t := int32 (timep - g.timezone)
  let tmp := offtimeU t 0
  if g.daylight = true ∧ InDst (g.bounds getusa tmp) t then
    ({ offtimeU (int32 (timep - g.altzone)) 0 with isdst := 1 }, g)
  else (tmp, g)

/-- A table with increasing times from 0 on, types that exist, standard and daylight time by turns, and offsets of less
than a day. -/
structure TzState.Regular (s : TzState) : Prop where
  times : ∀ a ∈ s.trans, 0 ≤ a.1 ∧ a.1 ≤ intMax
  sorted : (s.trans.map Prod.fst).Pairwise (· < ·)
  valid : ∀ a ∈ s.trans, a.2 < s.ttis.length
  turns : s.trans.IsChain fun a b => (s.type a).isdst ≠ (s.type b).isdst
  small : ∀ tt ∈ s.ttis, -86400 < tt.gmtoff ∧ tt.gmtoff < 86400

/-- The last transition that is not after a time, with those before and behind it. -/
structure TzState.Last (s : TzState) (t : Int) (pre : List (Int × Nat)) (a : Int × Nat) (post : List (Int × Nat)) :
    Prop where
  trans : s.trans = pre ++ a :: post
  le : a.1 ≤ t
  lt : ∀ b ∈ post.head?, t < b.1

/-- The fields are those of a time at the offset and with the flag of a transition. -/
def TzState.Local (s : TzState) (a : Int × Nat) (t : Int) (tm : Tm) : Prop :=
  tm.Shows (t + (s.type a).gmtoff) ∧ tm.isdst = if (s.type a).isdst = true then 1 else 0

/-- The local time is a number of seconds; in daylight time it is not the last second of all in a zone that stays in
daylight time, and in standard time the local time is not, read as Greenwich time, in the daylight time before. -/
def TzState.Clear (s : TzState) (pre : List (Int × Nat)) (a : Int × Nat) (post : List (Int × Nat)) (t : Int) : Prop :=
  t + (s.type a).gmtoff ≤ intMax ∧
    if (s.type a).isdst = true then post = [] → t ≠ intMax
    else ∀ b ∈ pre.getLast?, t + (s.type a).gmtoff < b.1 ∨ a.1 ≤ t + (s.type a).gmtoff

end Zone

section Walk

variable {s : TzState} {t : Int} {pre post : List (Int × Nat)} {a : Int × Nat} {g : TzVars}

lemma int32_eq {x : Int} (hlo : -2 ^ 31 ≤ x) (hhi : x < 2 ^ 32) : int32 x = if x < 2 ^ 31 then x else x - 2 ^ 32 := by
  unfold int32
  rw [bmod_def]
  split_ifs <;> omega

lemma TzState.Regular.offset (h : s.Regular) (a : Int × Nat) :
    -86400 < (s.type a).gmtoff ∧ (s.type a).gmtoff < 86400 := by
  unfold TzState.type
  rw [getD_eq_getElem?_getD]
  cases hget : s.ttis[a.2]? with
  | none => exact ⟨by decide, by decide⟩
  | some tt => exact h.small tt (mem_of_getElem? hget)

lemma int32_neg_gmtoff (h : s.Regular) (a : Int × Nat) : int32 (-(s.type a).gmtoff) = -(s.type a).gmtoff := by
  obtain ⟨hlo, hhi⟩ := h.offset a
  rw [int32_eq (by omega) (by omega), if_pos (by omega)]

lemma ltzTurn_dst (hdst : (s.type a).isdst = true) (rest : List (Int × Nat)) (g : TzVars) :
    ltzTurn s a rest g =
      { g with
        daylight := true, isInDst := true, altzone := int32 (-(s.type a).gmtoff), startDst := a.1
        endDst := match rest with
          | [] => intMax
          | b :: _ => b.1 } :=
  if_pos hdst

lemma ltzTurn_std (hstd : ¬(s.type a).isdst = true) (rest : List (Int × Nat)) (g : TzVars) :
    ltzTurn s a rest g = { g with timezone := int32 (-(s.type a).gmtoff), isInDst := false } :=
  if_neg hstd

lemma ltzTurn_zone (h : s.Regular) (hg : -86400 < g.timezone ∧ g.timezone < 86400) (a : Int × Nat)
    (rest : List (Int × Nat)) : -86400 < (ltzTurn s a rest g).timezone ∧ (ltzTurn s a rest g).timezone < 86400 := by
  unfold ltzTurn
  split_ifs
  · exact hg
  · obtain ⟨hlo, hhi⟩ := h.offset a
    dsimp only
    rw [int32_neg_gmtoff h]
    omega

lemma ltzLoop_append (h : s.Regular) (hpre : ∀ b ∈ pre, b.1 ≤ t) (hg : -86400 < g.timezone ∧ g.timezone < 86400)
    (rest : List (Int × Nat)) : ∃ g', ltzLoop s t (pre ++ rest) g = ltzLoop s t rest g' ∧
      (-86400 < g'.timezone ∧ g'.timezone < 86400) := by
  induction pre generalizing g with
  | nil => exact ⟨g, rfl, hg⟩
  | cons b pre ih =>
    obtain ⟨g', heq, hg'⟩ := ih (fun c hc => hpre c (mem_cons_of_mem _ hc)) (ltzTurn_zone h hg b (pre ++ rest))
    refine ⟨g', ?_, hg'⟩
    rw [cons_append, ltzLoop, if_pos (hpre b mem_cons_self)]
    exact heq

lemma ltzLoop_stop (hpost : ∀ b ∈ post.head?, t < b.1) : ltzLoop s t post g = g := by
  cases post with
  | nil => rfl
  | cons b post => exact if_neg (not_le.mpr (hpost b rfl))

lemma between_iff {z b e : Int} (hz : -86400 < z ∧ z < 86400) (hb : 0 ≤ b) (hbt : b ≤ t) (hte : t ≤ e) (he : e ≤ intMax) :
    (if int32 (b - z) ≤ int32 (e - z) then int32 (t - z) ≥ int32 (b - z) ∧ int32 (t - z) < int32 (e - z)
      else ¬(int32 (t - z) ≥ int32 (e - z) ∧ int32 (t - z) < int32 (b - z))) ↔ t < e := by
  unfold intMax at he
  rw [int32_eq (by omega) (by omega), int32_eq (by omega) (by omega),
    int32_eq (by omega) (by omega)]
  split_ifs <;> omega

lemma int32_of_le {x : Int} (hlo : 0 ≤ x) (hhi : x ≤ intMax) : int32 x = x := by
  unfold intMax at hhi
  rw [int32_eq (by omega) (by omega), if_pos (by omega)]

lemma TzVars.bounds_eq (h0 : 0 ≤ g.startDst) (getusa : Tm → Int × Int) (tmp : Tm) : g.bounds getusa tmp =
    (int32 (g.startDst - if g.isInDst = true then g.timezone else 0),
      int32 (g.endDst - if g.isInDst = true then g.timezone else 0)) :=
  if_neg fun hand => by omega

lemma inDst_std {curr : Int} {tmp : Tm} (hin : g.isInDst = false) (h0 : 0 ≤ g.startDst) (hle : g.startDst ≤ g.endDst)
    (hmax : g.endDst ≤ intMax) (getusa : Tm → Int × Int) :
    InDst (g.bounds getusa tmp) curr ↔ curr ≥ g.startDst ∧ curr < g.endDst := by
  rw [TzVars.bounds_eq h0, hin, if_neg Bool.false_ne_true, sub_zero, sub_zero, int32_of_le h0 (hle.trans hmax),
    int32_of_le (h0.trans hle) hmax]
  unfold InDst
  rw [if_pos hle]

lemma ltzsetU_eq (h : s.Regular) (hl : s.Last t pre a post) (ht : t ≠ 0) (g : TzVars) (time : Int) :
    ∃ g1 : TzVars, ltzsetU s g t time = ltzTurn s a post g1 ∧ (-86400 < g1.timezone ∧ g1.timezone < 86400) ∧
      (pre = [] → g1.daylight = false) ∧ ∀ b ∈ pre.getLast?, ∃ g2, g1 = ltzTurn s b (a :: post) g2 := by
  have hfirst : -86400 < (s.ttis.headD ⟨0, false⟩).gmtoff ∧ (s.ttis.headD ⟨0, false⟩).gmtoff < 86400 := by
    cases htt : s.ttis with
    | nil => exact ⟨by decide, by decide⟩
    | cons tt ttis => exact h.small tt (by rw [htt]; exact mem_cons_self)
  have hzone : int32 (-(s.ttis.headD ⟨0, false⟩).gmtoff) = -(s.ttis.headD ⟨0, false⟩).gmtoff := by
    rw [int32_eq (by omega) (by omega), if_pos (by omega)]
  have hbefore : ∀ b ∈ pre, b.1 ≤ t := by
    intro b hb
    have hsorted := h.sorted
    rw [hl.trans, map_append, pairwise_append] at hsorted
    have hlt := hsorted.2.2 b.1 (mem_map_of_mem hb) a.1 mem_cons_self
    exact (hlt.le).trans hl.le
  have hturn (g : TzVars) : ltzLoop s t (a :: post) g = ltzTurn s a post g :=
    (if_pos hl.le).trans (ltzLoop_stop hl.lt)
  unfold ltzsetU
  dsimp only
  rw [if_neg ht, hl.trans, hzone]
  rcases eq_nil_or_concat' pre with rfl | ⟨pre, b, rfl⟩
  · refine ⟨_, hturn _, ?_, fun _ => rfl, nofun⟩
    dsimp only
    omega
  rw [append_assoc, singleton_append]
  obtain ⟨g2, heq, hg2⟩ := ltzLoop_append h (fun c hc => hbefore c (mem_append_left _ hc))
    (g := { g with timezone := -(s.ttis.headD ⟨0, false⟩).gmtoff, daylight := false, startDst := 0, endDst := 0 })
    (by dsimp only; omega) (b :: a :: post)
  refine ⟨ltzTurn s b (a :: post) g2, ?_, ltzTurn_zone h hg2 b _, fun hnil => absurd hnil (by simp), ?_⟩
  · rw [heq, ltzLoop, if_pos (hbefore b (by simp))]
    exact hturn _
  · intro c hc
    rw [getLast?_concat] at hc
    exact ⟨g2, by rw [Option.some_inj.mp hc]⟩

lemma ltzsetU_dst (h : s.Regular) (hl : s.Last t pre a post) (ht : t ≠ 0) (hmax : t ≤ intMax)
    (hdst : (s.type a).isdst = true) (g : TzVars) (time : Int) : let g' := ltzsetU s g t time
      (-86400 < g'.timezone ∧ g'.timezone < 86400) ∧ g'.daylight = true ∧ g'.isInDst = true ∧
        g'.altzone = -(s.type a).gmtoff ∧ g'.startDst = a.1 ∧ t ≤ g'.endDst ∧ g'.endDst ≤ intMax ∧
        (t < g'.endDst ↔ (post = [] → t ≠ intMax)) := by
  obtain ⟨g1, heq, hg1, -⟩ := ltzsetU_eq h hl ht g time
  rw [heq, ltzTurn_dst hdst]
  refine ⟨hg1, rfl, rfl, int32_neg_gmtoff h a, rfl, ?_⟩
  cases hpost : post with
  | nil =>
    refine ⟨hmax, le_rfl, ?_⟩
    exact ⟨fun hlt _ => ne_of_lt hlt, fun hne => lt_of_le_of_ne hmax (hne rfl)⟩
  | cons b post =>
    rw [hpost] at hl
    have hlt := hl.lt b rfl
    have hb := h.times b (by rw [hl.trans]; simp)
    exact ⟨hlt.le, hb.2, iff_of_true hlt nofun⟩

end Walk

section Local

variable {s : TzState} {t x : Int} {pre post : List (Int × Nat)} {a : Int × Nat} {tm : Tm}

lemma Tm.Shows.isdst (h : tm.Shows x) (k : Int) : ({ tm with isdst := k } : Tm).Shows x :=
  ⟨h.time, h.sec, h.min, h.hour, h.wday, h.yday, h.mday⟩

lemma Tm.Shows.int32_iff (h : tm.Shows (int32 x)) (hlo : -2 ^ 31 ≤ x) (hhi : x < 2 ^ 32) : tm.Shows x ↔ x ≤ intMax := by
  unfold intMax
  rw [int32_eq hlo hhi] at h
  by_cases hx : x < 2 ^ 31
  · rw [if_pos hx] at h
    exact iff_of_true h (by omega)
  · rw [if_neg hx] at h
    refine iff_of_false (fun h' => ?_) (by omega)
    have hsame := h.unique h'
    omega

/-- The local time is that of the last transition if and only if it is clear. -/
theorem localtimeU_local_iff (h : s.Regular) (hl : s.Last t pre a post) (ht : t ≠ 0) (hmax : t ≤ intMax) (g : TzVars)
    (time : Int) (getusa : Tm → Int × Int) :
    s.Local a t (localtimeU s g time getusa t).1 ↔ s.Clear pre a post t := by
  have hmem : a ∈ s.trans := by
    rw [hl.trans]
    exact mem_append_right _ mem_cons_self
  obtain ⟨ha0, hmaxa⟩ := h.times a hmem
  have hle := hl.le
  obtain ⟨hofflo, hoffhi⟩ := h.offset a
  unfold TzState.Local TzState.Clear localtimeU
  by_cases hdst : (s.type a).isdst = true
  · obtain ⟨hzone, hdaylight, hin, halt, hstart, hte, hend, hlast⟩ := ltzsetU_dst h hl ht hmax hdst g time
    generalize ltzsetU s g t time = g' at hzone hdaylight hin halt hstart hte hend hlast ⊢
    have hbetween : InDst (g'.bounds getusa (offtimeU (int32 (t - g'.timezone)) 0)) (int32 (t - g'.timezone)) ↔
        t < g'.endDst := by
      have hline := between_iff hzone ha0 hle hte hend
      rw [TzVars.bounds_eq (by omega), hin, if_pos rfl, hstart]
      exact hline
    rw [if_pos hdst, if_pos hdst, ← hlast]
    by_cases hlt : t < g'.endDst
    · rw [if_pos ⟨hdaylight, hbetween.mpr hlt⟩, and_iff_left rfl, and_iff_left hlt, halt, Int.sub_neg]
      exact ((offtimeU_shows _).1.isdst 1).int32_iff (by omega) (by unfold intMax at hmax; omega)
    · rw [if_neg fun hand => hlt (hbetween.mp hand.2)]
      refine iff_of_false (fun hand => ?_) fun hand => hlt hand.2
      exact absurd ((offtimeU_shows _).2.symm.trans hand.2) (by decide)
  · obtain ⟨g1, heq, -, hnil, hlast⟩ := ltzsetU_eq h hl ht g time
    rw [ltzTurn_std hdst, int32_neg_gmtoff h] at heq
    dsimp only
    rw [heq, if_neg hdst, if_neg hdst]
    rw [Int.sub_neg]
    have hshows := (offtimeU_shows (int32 (t + (s.type a).gmtoff))).1.int32_iff (by omega)
      (by unfold intMax at hmax; omega)
    have hstd : ((offtimeU (int32 (t + (s.type a).gmtoff)) 0).Shows (t + (s.type a).gmtoff) ∧
        (offtimeU (int32 (t + (s.type a).gmtoff)) 0).isdst = 0) ↔ t + (s.type a).gmtoff ≤ intMax := by
      rw [and_iff_left (offtimeU_shows _).2]
      exact hshows
    rcases eq_nil_or_concat' pre with rfl | ⟨pre, b, rfl⟩
    · rw [if_neg fun hand => Bool.false_ne_true ((hnil rfl).symm.trans hand.1), hstd]
      exact ⟨fun hfit => ⟨hfit, nofun⟩, And.left⟩
    obtain ⟨g2, rfl⟩ := hlast b (by rw [getLast?_concat]; rfl)
    have hchain := h.turns
    have hjoin : pre ++ [b] ++ a :: post = pre ++ b :: a :: post := by rw [append_assoc, singleton_append]
    rw [hl.trans, hjoin, isChain_append_cons_cons] at hchain
    have hdstb : (s.type b).isdst = true := by
      by_contra hnot
      exact hchain.2.1 ((Bool.eq_false_of_not_eq_true hnot).trans (Bool.eq_false_of_not_eq_true hdst).symm)
    have hb := h.times b (by rw [hl.trans, hjoin]; simp)
    have hsorted := h.sorted
    rw [hl.trans, hjoin, map_append, pairwise_append] at hsorted
    have hba : b.1 < a.1 := (pairwise_cons.mp hsorted.2.1).1 a.1 mem_cons_self
    rw [ltzTurn_dst hdstb]
    generalize (s.type a).gmtoff = off at hofflo hoffhi hstd hshows ⊢
    have hcurr := int32_eq (x := t + off) (by omega) (by unfold intMax at hmax; omega)
    have hlast : (∀ c ∈ (pre ++ [b]).getLast?, t + off < c.1 ∨ a.1 ≤ t + off) ↔ t + off < b.1 ∨ a.1 ≤ t + off := by
      rw [getLast?_concat]
      exact ⟨fun hall => hall b rfl, fun hb c hc => Option.some_inj.mp hc ▸ hb⟩
    rw [hlast]
    have hiff := @inDst_std ⟨-off, int32 (-(s.type b).gmtoff), true, false, b.1, a.1⟩ (int32 (t + off))
      (offtimeU (int32 (t + off)) 0) rfl hb.1 hba.le hmaxa getusa
    by_cases hin : int32 (t + off) ≥ b.1 ∧ int32 (t + off) < a.1
    · rw [if_pos ⟨rfl, hiff.mpr hin⟩]
      refine iff_of_false (fun hand => absurd hand.2 one_ne_zero) fun hand => ?_
      rw [hcurr] at hin
      unfold intMax at hand
      split_ifs at hin <;> omega
    · rw [if_neg fun hand => hin (hiff.mp hand.2), hstd]
      refine ⟨fun hfit => ⟨hfit, ?_⟩, And.left⟩
      rw [hcurr] at hin
      unfold intMax at hfit
      split_ifs at hin <;> omega

def eastern : TzState := ⟨[(100000, 1), (200000, 0)], [⟨-18000, false⟩, ⟨-14400, true⟩]⟩

lemma eastern_regular : eastern.Regular where
  times := by decide
  sorted := by decide
  valid := by decide
  turns := by decide
  small := by decide

theorem localtimeU_local_iff_noon :
    eastern.Local (100000, 1) 150000 (localtimeU eastern ⟨0, 0, false, false, 0, 0⟩ 0 (fun _ => (0, 0)) 150000).1 ↔
      eastern.Clear [] (100000, 1) [(200000, 0)] 150000 :=
  localtimeU_local_iff eastern_regular ⟨rfl, by decide, by decide⟩ (by decide) (by decide) _ _ _

/-- An hour after the end of daylight time it still seems to last. -/
theorem localtimeU_not_local : ¬∀ (s : TzState) (t : Int) (pre post : List (Int × Nat)) (a : Int × Nat), s.Regular →
    s.Last t pre a post → t ≤ intMax → ∀ (g : TzVars) (time : Int) (getusa : Tm → Int × Int),
      s.Local a t (localtimeU s g time getusa t).1 := by
  intro hall
  have hlocal := (hall eastern 203600 [(100000, 1)] [] (200000, 0) eastern_regular ⟨rfl, by decide, by decide⟩ (by decide)
    ⟨0, 0, false, false, 0, 0⟩ 0 fun _ => (0, 0)).2
  unfold localtimeU at hlocal
  revert hlocal
  decide

end Local

end Solaris.Timers
