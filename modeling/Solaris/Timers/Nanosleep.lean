import Solaris.Timers.Timespec

/-!
# Sleeping for a time

`nanosleep` of `timers.c`. What `cv_timedwait_sig` and `gethrestime` return is taken from outside: a wake is a signal, or
it is none and the clock is read again. While there are no more wakes the call has not returned.
-/

namespace Solaris.Timers

open List BitVec

section Sleep

variable (rate : TickRate)

def Ahead (rqtime now : Timestruc) : Prop :=
  rqtime.tvSec.toInt > now.tvSec.toInt ∨ rqtime.tvSec = now.tvSec ∧ rqtime.tvNsec.toInt > now.tvNsec.toInt

instance (rqtime now : Timestruc) : Decidable (Ahead rqtime now) := inferInstanceAs (Decidable (_ ∨ _))

/-- `wait_time`, the time to go less a sixteenth of it -/
def waitTime (rqtime now : Timestruc) : Timestruc :=
  let w := timespecsub rqtime now
  timespecadd ⟨w.tvSec - w.tvSec.sshiftRight 4, w.tvNsec - w.tvNsec.sshiftRight 4⟩ now

/-- A wait: the time until which it is, the time of the clock, and the ticks from `lbolt` on. -/
structure Nap where
  wait : Timestruc
  now : Timestruc
  ticks : BitVec 32

def napFor (rqtime now : Timestruc) : Nap :=
  let t := waitTime rqtime now
  ⟨t, now, timespectohz rate t now⟩

/-- `signal` is whether `ret` is zero at the end of the loop, without a value while the call still waits. -/
structure SleepLoop where
  signal : Option Bool
  readings : List Timestruc
  naps : List Nap

def sleepLoop (rqtime : Timestruc) : Timestruc → List (Option Timestruc) → SleepLoop
  | now, [] => if Ahead rqtime now then ⟨none, [], [napFor rate rqtime now]⟩ else ⟨some false, [], []⟩
  | now, wake :: wakes =>
    if Ahead rqtime now then
      match wake with
      | none => ⟨some true, [], [napFor rate rqtime now]⟩
      | some now' =>
        let r := sleepLoop rqtime now' wakes
        ⟨r.signal, now' :: r.readings, napFor rate rqtime now :: r.naps⟩
    else ⟨some false, [], []⟩

inductive SleepEnd where
  | zero
  | efault
  | einval
  | eintr
  | asleep
deriving DecidableEq

/-- What a call leaves: `rmtime` is the time that is copied out, when it was ever set. -/
structure Slept where
  status : SleepEnd
  readings : List Timestruc
  naps : List Nap
  rmtime : Option Timestruc

/-- The end of the call. `rmtp` is null or a place, which can be written or not; `now` is the reading for it. -/
def sleepEnd (rqtime : Timestruc) (rmtp : Option Bool) (now : Timestruc) (readings : List Timestruc)
    (r : SleepLoop) : Slept :=
  match r.signal with
  | none => ⟨.asleep, readings ++ r.readings, r.naps, none⟩
  | some signal =>
    let status : SleepEnd := if signal = true then .eintr else .zero
    match rmtp with
    | none => ⟨status, readings ++ r.readings, r.naps, none⟩
    | some place =>
      let status := if place = true then status else .efault
      if signal = true then
        let rmtime := if Ahead rqtime now then timespecsub rqtime now else ⟨0, 0⟩
        ⟨status, readings ++ r.readings ++ [now], r.naps, some rmtime⟩
      else ⟨status, readings ++ r.readings, r.naps, none⟩

/-- `nanosleep`, with no request when it cannot be copied in. -/
def nanosleep (rqtp : Option Timestruc) (rmtp : Option Bool) (first : Timestruc) (wakes : List (Option Timestruc))
    (last : Timestruc) : Slept :=
  match rqtp with
  | none => ⟨.efault, [], [], none⟩
  | some rqtime =>
    match itimerspecfix rate rqtime with
    | none => ⟨.einval, [], [], none⟩
    | some rqtime =>
      if timerspecisset rqtime then
        let rqtime := timespecadd rqtime first
        sleepEnd rqtime rmtp last [first] (sleepLoop rate rqtime first wakes)
      else sleepEnd rqtime rmtp last [] ⟨some false, [], []⟩

/-- The ticks of a wait are at least one, and unless they are clamped the least that last until the time. -/
structure Nap.Least (n : Nap) : Prop where
  pos : 1 ≤ n.ticks.toInt
  least : n.now.nanos < n.wait.nanos → ¬HzClamps rate (hzParts rate n.wait n.now) →
    IsLeast {k : Int | n.wait.nanos - n.now.nanos ≤ k * rate.nsecPerTick} n.ticks.toInt

structure Slept.Full (r : Slept) (request : Timestruc) : Prop where
  late : r.status = .zero → timerspecisset request → ∃ first ∈ r.readings.head?, ∃ now ∈ r.readings,
    first.nanos + request.nanos ≤ now.nanos
  naps : ∀ n ∈ r.naps, n.Least rate

end Sleep

section Waits

variable {rate : TickRate} {rqtime now : Timestruc} {x : Int}

lemma ahead_iff (h : rqtime.Stands x) (hx0 : 0 ≤ x) (hx : x < 2 ^ 31 * 1000000000) (hnow : now.Proper) :
    Ahead rqtime now ↔ now.nanos < x := by
  have hnanos := h.nanos hx0 hx
  have hlo := h.nonneg
  have hle := h.le
  obtain ⟨hsec, h0, hlt⟩ := hnow
  have hsame : rqtime.tvSec = now.tvSec ↔ rqtime.tvSec.toInt = now.tvSec.toInt := toInt_inj.symm
  unfold Ahead
  unfold Timestruc.nanos at hnanos ⊢
  rw [hsame]
  omega

lemma toInt_less_sixteenth {y : BitVec 32} (hy : 0 ≤ y.toInt) : (y - y.sshiftRight 4).toInt = y.toInt - y.toInt / 16 := by
  have hlt := toInt_lt (x := y)
  have hshift : (y.sshiftRight 4).toInt = y.toInt / 16 := by
    rw [toInt_sshiftRight, Int.shiftRight_eq_div_pow]
    rfl
  apply toInt_of_eq
  · rw [← hshift, ofInt_sub, ofInt_toInt, ofInt_toInt]
  · omega
  · omega

lemma waitTime_stands (h : rqtime.Stands x) (hx : x < 2 ^ 31 * 1000000000) (hnow : now.Proper) (hahead : now.nanos < x) :
    ∃ y, now.nanos < y ∧ y ≤ x ∧ y - now.nanos < (2 ^ 31 - 1) * 1000000000 ∧ (waitTime rqtime now).Stands y := by
  have hnow0 := hnow.nonneg
  have hsub := timespecsub_stands h hnow.normal.stands
  have hnanos := hsub.nanos (by omega) (by omega)
  obtain ⟨hlo, hle, -⟩ := hsub
  unfold waitTime
  generalize timespecsub rqtime now = w at hnanos hlo hle ⊢
  change w.tvSec.toInt * 1000000000 + w.tvNsec.toInt = x - now.nanos at hnanos
  have hsec := toInt_less_sixteenth (y := w.tvSec) (by omega)
  have hnsec := toInt_less_sixteenth hlo
  have hless : Timestruc.Stands ⟨w.tvSec - w.tvSec.sshiftRight 4, w.tvNsec - w.tvNsec.sshiftRight 4⟩
      ((w.tvSec.toInt - w.tvSec.toInt / 16) * 1000000000 + (w.tvNsec.toInt - w.tvNsec.toInt / 16)) := by
    rw [← hsec, ← hnsec]
    refine Timestruc.stands_of_le ?_ ?_
    · change 0 ≤ (w.tvNsec - w.tvNsec.sshiftRight 4).toInt
      omega
    · change (w.tvNsec - w.tvNsec.sshiftRight 4).toInt ≤ 1000000000
      omega
  refine ⟨_, ?_, ?_, ?_, timespecadd_stands hless hnow.normal.stands⟩
  · omega
  · omega
  · omega

lemma napFor_least (h : rqtime.Stands x) (hx : x < 2 ^ 31 * 1000000000) (hnow : now.Proper) (hahead : now.nanos < x) :
    (napFor rate rqtime now).Least rate := by
  obtain ⟨y, hlo, hhi, hnear, hstands⟩ := waitTime_stands h hx hnow hahead
  have hnow0 := hnow.nonneg
  obtain ⟨hpos, hleast⟩ := @timespectohz_spec rate _ _ _ hstands hnow.normal hlo hnear
  refine ⟨hpos, fun _ hclamp => ?_⟩
  have hnanos : (napFor rate rqtime now).wait.nanos = y := hstands.nanos (by omega) (by omega)
  rw [hnanos]
  exact hleast hclamp

lemma sleepLoop_spec (h : rqtime.Stands x) (hx0 : 0 ≤ x) (hx : x < 2 ^ 31 * 1000000000) (readings : List Timestruc)
    (hread : ∀ r ∈ readings, r.Proper) (hnow : now.Proper) :
    (∀ n ∈ (sleepLoop rate rqtime now (readings.map some)).naps, n.Least rate) ∧
      (sleepLoop rate rqtime now (readings.map some)).signal ≠ some true ∧
      ((sleepLoop rate rqtime now (readings.map some)).signal = some false →
        ∃ r ∈ now :: (sleepLoop rate rqtime now (readings.map some)).readings, x ≤ r.nanos) := by
  induction readings generalizing now with
  | nil =>
    rw [map_nil]
    unfold sleepLoop
    split_ifs with hahead
    · refine ⟨?_, nofun, nofun⟩
      intro n hn
      rw [mem_singleton.mp hn]
      exact napFor_least h hx hnow ((ahead_iff h hx0 hx hnow).mp hahead)
    · rw [ahead_iff h hx0 hx hnow, not_lt] at hahead
      exact ⟨nofun, nofun, fun _ => ⟨now, mem_singleton_self _, hahead⟩⟩
  | cons r readings ih =>
    rw [map_cons]
    unfold sleepLoop
    split_ifs with hahead
    · obtain ⟨hnaps, hsignal, hlate⟩ := ih (fun r' hr' => hread r' (mem_cons_of_mem _ hr')) (hread r mem_cons_self)
      refine ⟨?_, hsignal, ?_⟩
      · exact forall_mem_cons.mpr ⟨napFor_least h hx hnow ((ahead_iff h hx0 hx hnow).mp hahead), hnaps⟩
      · intro hend
        obtain ⟨late, hmem, hle⟩ := hlate hend
        exact ⟨late, mem_cons_of_mem _ hmem, hle⟩
    · rw [ahead_iff h hx0 hx hnow, not_lt] at hahead
      exact ⟨nofun, nofun, fun _ => ⟨now, mem_singleton_self _, hahead⟩⟩

lemma timespecadd_normal (h : rqtime.Stands x) (hnow : now.Normal) : (timespecadd rqtime now).Normal := by
  obtain ⟨h0, hle, -⟩ := h
  obtain ⟨hn0, hnlt⟩ := hnow
  have hsum : rqtime.tvNsec + now.tvNsec = BitVec.ofInt 32 (rqtime.tvNsec.toInt + now.tvNsec.toInt) := by
    rw [BitVec.ofInt_add, BitVec.ofInt_toInt, BitVec.ofInt_toInt]
  have hnsec : (rqtime.tvNsec + now.tvNsec).toInt = rqtime.tvNsec.toInt + now.tvNsec.toInt :=
    toInt_of_eq hsum (by omega) (by omega)
  unfold timespecadd timespecfix
  rw [hnsec, nanosec_toInt, if_neg (by omega)]
  split_ifs with hbig
  · have hback : (rqtime.tvNsec + now.tvNsec - nanosec).toInt =
        rqtime.tvNsec.toInt + now.tvNsec.toInt - 1000000000 := by
      apply toInt_of_eq
      · rw [hsum, ofInt_sub _ 1000000000]
        rfl
      · omega
      · omega
    constructor
    · change 0 ≤ (rqtime.tvNsec + now.tvNsec - nanosec).toInt
      omega
    · change (rqtime.tvNsec + now.tvNsec - nanosec).toInt < 1000000000
      omega
  · constructor
    · change 0 ≤ (rqtime.tvNsec + now.tvNsec).toInt
      omega
    · change (rqtime.tvNsec + now.tvNsec).toInt < 1000000000
      omega

lemma not_ahead_of_wrap (h : rqtime.Stands x) (hnormal : rqtime.Normal) (hlo : 2 ^ 31 * 1000000000 ≤ x)
    (hhi : x < 2 ^ 32 * 1000000000) (hnow : now.Proper) : ¬Ahead rqtime now := by
  obtain ⟨-, -, s, hs, hx⟩ := h
  have hlt := hnormal.lt
  have h0 := hnormal.nonneg
  have hsec := hnow.sec
  have hneg : rqtime.tvSec.toInt = s - 2 ^ 32 := by
    apply toInt_of_eq
    · have hturn : BitVec.ofInt 32 (2 ^ 32) = 0#32 := by decide
      rw [hs, ofInt_sub, hturn, BitVec.sub_zero]
    · omega
    · omega
  rintro (hless | ⟨hsame, -⟩)
  · omega
  · rw [hsame] at hneg
    omega

end Waits

section Full

variable {rate : TickRate} {rqtime fixed first last : Timestruc} {readings : List Timestruc}

lemma sleepEnd_naps (rqtime : Timestruc) (rmtp : Option Bool) (now : Timestruc) (before : List Timestruc)
    (r : SleepLoop) : (sleepEnd rqtime rmtp now before r).naps = r.naps := by
  unfold sleepEnd
  rcases r with ⟨_ | _ | _, _, _⟩ <;> rcases rmtp with _ | _ <;> rfl

lemma sleepEnd_zero_iff (rqtime : Timestruc) (rmtp : Option Bool) (now : Timestruc) (before : List Timestruc)
    (r : SleepLoop) : (sleepEnd rqtime rmtp now before r).status = .zero ↔ r.signal = some false ∧ rmtp ≠ some false := by
  unfold sleepEnd
  rcases r with ⟨_ | _ | _, _, _⟩ <;> rcases rmtp with _ | _ | _ <;> simp

lemma sleepEnd_readings {rqtime now : Timestruc} {rmtp : Option Bool} {before : List Timestruc} {r : SleepLoop}
    (h : r.signal = some false) : (sleepEnd rqtime rmtp now before r).readings = before ++ r.readings := by
  unfold sleepEnd
  rw [h]
  rcases rmtp with _ | _ <;> rfl

/-- Without signals a request is slept out if and only if the time of its end is one, or the call fails at its end. -/
theorem nanosleep_full_iff (hfix : itimerspecfix rate rqtime = some fixed) (hfirst : first.Proper)
    (hread : ∀ r ∈ readings, r.Proper) (rmtp : Option Bool) :
    (nanosleep rate (some rqtime) rmtp first (readings.map some) last).Full rate rqtime ↔
      first.nanos + fixed.nanos < 2 ^ 31 * 1000000000 ∨ rmtp = some false := by
  have hproper := itimerspecfix_proper hfix
  obtain ⟨hstands, hle, hset, hmax⟩ := itimerspecfix_stands hfix
  have hfirst0 := hfirst.nonneg
  have hfirstmax : first.nanos < 2 ^ 31 * 1000000000 := by
    have hsec := toInt_lt (x := first.tvSec)
    have hnsec := hfirst.normal.lt
    unfold Timestruc.nanos
    omega
  unfold nanosleep
  dsimp only
  rw [hfix]
  dsimp only
  by_cases hunset : timerspecisset fixed
  swap
  · rw [if_neg hunset]
    have hzero : fixed.nanos = 0 := by
      obtain ⟨hsec, hnsec⟩ := not_or.mp hunset
      unfold Timestruc.nanos
      rw [not_not.mp hsec, not_not.mp hnsec]
      rfl
    refine iff_of_true ⟨fun _ hreq => absurd (hset.mpr hreq) hunset, ?_⟩ (.inl (by omega))
    rw [sleepEnd_naps]
    exact nofun
  rw [if_pos hunset]
  have hsum := timespecadd_stands hstands hfirst.normal.stands
  have hrequest : 0 < rqtime.nanos := (timerspecisset_iff hproper).mp (hset.mp hunset)
  by_cases hfit : first.nanos + fixed.nanos < 2 ^ 31 * 1000000000
  · refine iff_of_true ?_ (.inl hfit)
    obtain ⟨hnaps, -, hlate⟩ := @sleepLoop_spec rate _ _ _ hsum (by omega) (by omega) readings hread hfirst
    refine ⟨fun hzero _ => ?_, ?_⟩
    · obtain ⟨hsignal, -⟩ := (sleepEnd_zero_iff ..).mp hzero
      obtain ⟨now, hmem, hnow⟩ := hlate hsignal
      rw [sleepEnd_readings hsignal]
      exact ⟨first, rfl, now, hmem, by omega⟩
    · rw [sleepEnd_naps]
      exact hnaps
  -- the end has wrapped, and the loop is not entered
  rw [or_iff_right hfit]
  have hover : ¬Ahead (timespecadd fixed first) first :=
    not_ahead_of_wrap hsum (timespecadd_normal hstands hfirst.normal) (by omega) (by omega) hfirst
  have hloop : sleepLoop rate (timespecadd fixed first) first (readings.map some) = ⟨some false, [], []⟩ := by
    cases readings with
    | nil => exact if_neg hover
    | cons r readings => exact if_neg hover
  rw [hloop]
  constructor
  · intro hfull
    by_contra hplace
    have hzero := (sleepEnd_zero_iff (timespecadd fixed first) rmtp last [first] ⟨some false, [], []⟩).mpr ⟨rfl, hplace⟩
    obtain ⟨r, hhead, now, hmem, hnow⟩ := hfull.late hzero (hset.mp hunset)
    rw [sleepEnd_readings rfl] at hhead hmem
    rw [mem_singleton.mp hmem, ← Option.some_inj.mp hhead] at hnow
    omega
  · rintro rfl
    refine ⟨fun hzero _ => absurd ((sleepEnd_zero_iff ..).mp hzero).2 (not_not.mpr rfl), ?_⟩
    exact nofun

theorem nanosleep_full_iff_second :
    (nanosleep ⟨100, 10000000, by decide⟩ (some ⟨1, 0⟩) none ⟨5, 0⟩ ([⟨5, 970000000⟩, ⟨6, 10000000⟩].map some)
        ⟨7, 0⟩).Full ⟨100, 10000000, by decide⟩ ⟨1, 0⟩ ↔
      (⟨5, 0⟩ : Timestruc).nanos + (⟨1, 0⟩ : Timestruc).nanos < 2 ^ 31 * 1000000000 ∨ none = some false :=
  nanosleep_full_iff (by decide) ⟨by decide, by decide, by decide⟩
    (by
      intro r hr
      simp only [mem_cons, not_mem_nil, or_false] at hr
      rcases hr with rfl | rfl
      · exact ⟨by decide, by decide, by decide⟩
      · exact ⟨by decide, by decide, by decide⟩)
    none

/-- A request for `2 ^ 31 - 1` seconds ends at once. -/
theorem nanosleep_not_full : ¬∀ (rate : TickRate) (rqtime fixed first last : Timestruc) (readings : List Timestruc),
    itimerspecfix rate rqtime = some fixed → first.Proper → (∀ r ∈ readings, r.Proper) →
      (nanosleep rate (some rqtime) none first (readings.map some) last).Full rate rqtime := by
  intro hall
  have hfull := hall ⟨100, 10000000, by decide⟩ ⟨0x7fffffff, 0⟩ ⟨0x7fffffff, 0⟩ ⟨1, 0⟩ ⟨1, 0⟩ [] (by decide)
    ⟨by decide, by decide, by decide⟩ nofun
  obtain ⟨first, hfirst, now, hnow, hle⟩ := hfull.late (by decide) (by decide)
  rw [mem_singleton.mp hnow, ← Option.some_inj.mp hfirst] at hle
  revert hle
  decide

end Full

end Solaris.Timers
