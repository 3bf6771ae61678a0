import Solaris.Timers.Timespec

/-!
# Rearming a timer

`realitsexpire` of `timers.c`. The next time is searched with intervals that are doubled until one of them reaches beyond
the present, and the search starts again one interval back. A search that takes more turns than it is given is without a
result.
-/

namespace Solaris.Timers

open Int Nat

section Expire

/-- `trs_flags` by the two bits that are looked at; `callout` is the ticks of the timeout, if there is one. -/
structure Timerstr where
  pending : Bool
  signal : Bool
  overrun1 : BitVec 32
  sigq : Nat
  itValue : Timestruc
  itInterval : Timestruc
  callout : Option (BitVec 32)

/-- The inner loop: `cnt2nth`, the value and `interval2nth` at its end. -/
def searchLoop (now : Timestruc) : Nat → Nat → Timestruc → Timestruc → Option (Nat × Timestruc × Timestruc)
  | 0, _, _, _ => none
  | fuel + 1, cnt2nth, valp, interval2nth =>
    let valp := timespecadd valp interval2nth
    if timerspeccmp valp now > 0 then some (cnt2nth, valp, interval2nth)
    else searchLoop now fuel (cnt2nth + 1) valp (timespecadd interval2nth interval2nth)

/-- The outer loop, `turns` times the inner one at most. -/
def rearmLoop (turns : Nat) (now intervalp : Timestruc) : Nat → Timestruc → Option Timestruc
  | 0, _ => none
  | fuel + 1, valp =>
    match searchLoop now turns 0 valp intervalp with
    | none => none
    | some (cnt2nth, valp, interval2nth) =>
      if cnt2nth = 0 then some valp else rearmLoop turns now intervalp fuel (timespecsub valp interval2nth)

/-- The signal is queued, or counted when one is pending. -/
def Timerstr.post (timerp : Timerstr) : Timerstr :=
  if timerp.pending = true then { timerp with overrun1 := timerp.overrun1 + 1 }
  else if timerp.signal = true then { timerp with pending := true, sigq := timerp.sigq + 1 }
  else timerp

def realitsexpire (rate : TickRate) (turns fuel : Nat) (now : Timestruc) (timerp : Timerstr) : Option Timerstr :=
  let timerp := timerp.post
  if ¬timerspecisset timerp.itInterval then some { timerp with itValue := ⟨0, 0⟩, callout := none }
  else
    match rearmLoop turns now timerp.itInterval fuel timerp.itValue with
    | none => none
    | some valp => some { timerp with itValue := valp, callout := some (timespectohz rate valp now) }

/-- The search ends, with the first time after the present that is some intervals behind the value. -/
def Rearms (rate : TickRate) (now : Timestruc) (timerp : Timerstr) : Prop :=
  ∃ turns fuel timerp', realitsexpire rate turns fuel now timerp = some timerp' ∧
    IsLeast {x : Int | now.nanos < x ∧ ∃ k : Nat, 1 ≤ k ∧ x = timerp.itValue.nanos + k * timerp.itInterval.nanos}
      timerp'.itValue.nanos

def passed (now valp intervalp : Timestruc) : Nat := ((now.nanos - valp.nanos) / intervalp.nanos).toNat

/-- The most intervals that the search adds when `m` have passed. -/
def farthest (m : Nat) : Nat :=
  if h : m = 0 then 1
  else
    let p := 2 ^ Nat.log2 (m + 1)
    max (2 * p - 1) (p - 1 + farthest (m - (p - 1)))
termination_by m
decreasing_by
  have hlog : 1 ≤ Nat.log2 (m + 1) := (le_log2 (succ_ne_zero m)).mpr (by omega)
  have hpow : 2 ^ 1 ≤ 2 ^ Nat.log2 (m + 1) := Nat.pow_le_pow_right (by omega) hlog
  omega

/-- The next time is one, and no time that is compared with the present is `2 ^ 31` seconds ahead of it. -/
structure InRange (now valp intervalp : Timestruc) : Prop where
  value : valp.nanos + (passed now valp intervalp + 1 : Nat) * intervalp.nanos < 2 ^ 31 * 1000000000
  far : valp.nanos + farthest (passed now valp intervalp) * intervalp.nanos <
    (now.tvSec.toInt + 2 ^ 31) * 1000000000

end Expire

section Search

variable {now val int : Timestruc} {v i : Int} {m c k e : Nat}

lemma le_farthest (m : Nat) : 2 * 2 ^ Nat.log2 (m + 1) ≤ farthest m + 1 := by
  rw [farthest]
  by_cases hm : m = 0
  · rw [dif_pos hm, hm]
    exact le_rfl
  · rw [dif_neg hm]
    dsimp only
    omega

lemma farthest_next (hm : m ≠ 0) :
    2 ^ Nat.log2 (m + 1) - 1 + farthest (m - (2 ^ Nat.log2 (m + 1) - 1)) ≤ farthest m := by
  rw [farthest.eq_def m, dif_neg hm]
  exact le_max_right _ _

lemma search_turn (hnow : now.Normal) (hi : 0 ≤ i) (hv : 0 ≤ v) (hval : val.Stands (v + k * i))
    (hint : int.Stands ((c : Nat) * i))
    (hfar : v + (k + c : Nat) * i < (now.tvSec.toInt + 2 ^ 31) * 1000000000) :
    (timespecadd val int).Stands (v + (k + c : Nat) * i) ∧
      (timerspeccmp (timespecadd val int) now > 0 ↔ now.nanos < v + (k + c : Nat) * i) := by
  have hadd := timespecadd_stands hval hint
  have hsum : v + k * i + (c : Nat) * i = v + (k + c : Nat) * i := by
    push_cast
    ring
  rw [hsum] at hadd
  exact ⟨hadd, timerspeccmp_pos_iff hadd hnow (add_nonneg hv (mul_nonneg (natCast_nonneg _) hi)) hfar⟩

section

variable (hnow : now.Normal) (hi : 0 ≤ i) (hv : 0 ≤ v) (hle : ∀ k : Nat, 1 ≤ k → k ≤ m → v + k * i ≤ now.nanos)
  (hlt : ∀ k : Nat, m < k → now.nanos < v + k * i)

include hnow hi hv hle hlt

lemma searchLoop_spec (n : Nat) (hval : val.Stands (v + k * i))
    (hint : int.Stands ((2 ^ c : Nat) * i)) (he : c + n = e) (hlow : k + 2 ^ e ≤ m + 2 ^ c)
    (hhigh : m + 2 ^ c < k + 2 * 2 ^ e)
    (hfar : ∀ x : Nat, x + 2 ^ c ≤ k + 2 * 2 ^ e → v + x * i < (now.tvSec.toInt + 2 ^ 31) * 1000000000)
    (fuel : Nat) (hfuel : n < fuel) :
    ∃ val' int', searchLoop now fuel c val int = some (e, val', int') ∧
      val'.Stands (v + (k + 2 * 2 ^ e - 2 ^ c : Nat) * i) ∧ int'.Stands ((2 ^ e : Nat) * i) := by
  induction n generalizing c k val int fuel with
  | zero =>
    obtain rfl : c = e := he
    obtain ⟨fuel, rfl⟩ : ∃ f, fuel = f + 1 := ⟨fuel - 1, by omega⟩
    obtain ⟨hadd, hcmp⟩ := search_turn hnow hi hv hval hint (hfar (k + 2 ^ c) (by omega))
    unfold searchLoop
    rw [if_pos (hcmp.mpr (hlt (k + 2 ^ c) (by omega)))]
    have hcount : k + 2 * 2 ^ c - 2 ^ c = k + 2 ^ c := by omega
    rw [hcount]
    exact ⟨_, _, rfl, hadd, hint⟩
  | succ n ih =>
    obtain ⟨fuel, rfl⟩ : ∃ f, fuel = f + 1 := ⟨fuel - 1, by omega⟩
    have hpow : 2 ^ (c + 1) = 2 * 2 ^ c := pow_succ'
    have hnext : 2 ^ (c + 1) ≤ 2 ^ e := Nat.pow_le_pow_right (by omega) (by omega)
    have hpos := Nat.two_pow_pos c
    obtain ⟨hadd, hcmp⟩ := search_turn hnow hi hv hval hint (hfar (k + 2 ^ c) (by omega))
    have hnot : ¬timerspeccmp (timespecadd val int) now > 0 := by
      intro hgt
      exact absurd (hcmp.mp hgt) (not_lt.mpr (hle (k + 2 ^ c) (by omega) (by omega)))
    have hdouble : (timespecadd int int).Stands ((2 ^ (c + 1) : Nat) * i) := by
      have hsame := timespecadd_stands hint hint
      rw [← add_mul, ← Nat.cast_add, ← two_mul, ← hpow] at hsame
      exact hsame
    obtain ⟨val', int', heq, hval', hint'⟩ := ih hadd hdouble (by omega) (by omega) (by omega)
      (fun x hx => hfar x (by omega)) fuel (by omega)
    have hcount : k + 2 ^ c + 2 * 2 ^ e - 2 ^ (c + 1) = k + 2 * 2 ^ e - 2 ^ c := by omega
    rw [hcount] at hval'
    unfold searchLoop
    rw [if_neg hnot]
    exact ⟨val', int', heq, hval', hint'⟩

lemma rearmLoop_spec (hval : val.Stands (v + k * i)) (hint : int.Stands i)
    (hk : k ≤ m) (hfar : v + (k + farthest (m - k) : Nat) * i < (now.tvSec.toInt + 2 ^ 31) * 1000000000)
    (fuel : Nat) (hfuel : m - k < fuel) :
    ∃ val', rearmLoop (m + 1) now int fuel val = some val' ∧ val'.Stands (v + (m + 1 : Nat) * i) := by
  induction fuel generalizing k val with
  | zero => omega
  | succ fuel ih =>
    obtain ⟨r, hr⟩ : ∃ r, r = m - k := ⟨_, rfl⟩
    have hlog : 2 ^ Nat.log2 (r + 1) ≤ r + 1 := log2_self_le (succ_ne_zero r)
    have hlog' : r + 1 < 2 * 2 ^ Nat.log2 (r + 1) := by
      rw [← pow_succ']
      exact lt_log2_self
    have hmono {x : Nat} (hx : x ≤ k + farthest (m - k)) : v + x * i < (now.tvSec.toInt + 2 ^ 31) * 1000000000 := by
      have hmul : (x : Int) * i ≤ (k + farthest (m - k) : Nat) * i :=
        mul_le_mul_of_nonneg_right (by exact_mod_cast hx) hi
      omega
    have hreach := le_farthest r
    generalize he : Nat.log2 (r + 1) = e at hlog hlog' hreach
    have hturns : e < m + 1 := by
      have hlt := Nat.lt_two_pow_self (n := e)
      omega
    have hone : int.Stands ((2 ^ 0 : Nat) * i) := by
      rw [Nat.pow_zero, Nat.cast_one, one_mul]
      exact hint
    obtain ⟨val', int', heq, hval', hint'⟩ := searchLoop_spec hnow hi hv hle hlt e hval hone (Nat.zero_add e) (by omega)
      (by omega) (fun x hx => hmono (by rw [← hr]; omega)) (m + 1) hturns
    unfold rearmLoop
    rw [heq]
    dsimp only
    split_ifs with hzero
    · rw [hzero, Nat.pow_zero] at hlog' hval'
      have hcount : k + 2 * 1 - 1 = m + 1 := by omega
      rw [hcount] at hval'
      exact ⟨val', rfl, hval'⟩
    have hr0 : r ≠ 0 := by
      rintro rfl
      exact hzero he.symm
    have hnext := farthest_next hr0
    rw [he] at hnext
    have hback := timespecsub_stands hval' hint'
    have hdiff : v + (k + 2 * 2 ^ e - 2 ^ 0 : Nat) * i - (2 ^ e : Nat) * i = v + (k + (2 ^ e - 1) : Nat) * i := by
      have hcount : k + 2 * 2 ^ e - 2 ^ 0 = k + (2 ^ e - 1) + 2 ^ e := by omega
      rw [hcount, Nat.cast_add _ (2 ^ e), add_mul]
      omega
    rw [hdiff] at hback
    have hrest : m - (k + (2 ^ e - 1)) = r - (2 ^ e - 1) := by omega
    exact ih hback (by omega) (hmono (by rw [hrest, ← hr]; omega)) (by omega)

end

end Search

section Rearmed

lemma Timerstr.post_times (timerp : Timerstr) :
    timerp.post.itValue = timerp.itValue ∧ timerp.post.itInterval = timerp.itInterval := by
  unfold Timerstr.post
  split_ifs
  · exact ⟨rfl, rfl⟩
  · exact ⟨rfl, rfl⟩
  · exact ⟨rfl, rfl⟩

variable {rate : TickRate} {now value interval : Timestruc} {timerp : Timerstr}

/-- A timer is rearmed for its next time when that is one and the search stays in range. -/
theorem realitsexpire_rearms (hvalue : itimerspecfix rate value = some timerp.itValue)
    (hinterval : itimerspecfix rate interval = some timerp.itInterval) (hset : timerspecisset timerp.itInterval)
    (hnow : now.Normal) (hrange : InRange now timerp.itValue timerp.itInterval) : Rearms rate now timerp := by
  obtain ⟨hval, hval0, -, -⟩ := itimerspecfix_stands hvalue
  obtain ⟨hint, hint0, hsame, -⟩ := itimerspecfix_stands hinterval
  have hv : 0 ≤ timerp.itValue.nanos := (itimerspecfix_proper hvalue).nonneg.trans hval0
  have hi : 0 < timerp.itInterval.nanos :=
    ((timerspecisset_iff (itimerspecfix_proper hinterval)).mp (hsame.mp hset)).trans_le hint0
  obtain ⟨hfit, hfar⟩ := hrange
  generalize hm : passed now timerp.itValue timerp.itInterval = m at hfit hfar
  unfold passed at hm
  have hle : ∀ k : Nat, 1 ≤ k → k ≤ m → timerp.itValue.nanos + k * timerp.itInterval.nanos ≤ now.nanos := by
    intro k hk hkm
    have hmul := (Int.le_ediv_iff_mul_le (a := (k : Int)) (b := now.nanos - timerp.itValue.nanos) hi).mp (by omega)
    omega
  have hlt : ∀ k : Nat, m < k → now.nanos < timerp.itValue.nanos + k * timerp.itInterval.nanos := by
    intro k hk
    have hmul := (Int.ediv_lt_iff_lt_mul (a := now.nanos - timerp.itValue.nanos) (b := (k : Int)) hi).mp (by omega)
    omega
  have hstart : timerp.itValue.Stands (timerp.itValue.nanos + (0 : Nat) * timerp.itInterval.nanos) := by
    rw [Nat.cast_zero, Int.zero_mul, Int.add_zero]
    exact hval
  obtain ⟨v', heq, hv'⟩ := rearmLoop_spec hnow hi.le hv hle hlt hstart hint (zero_le m)
    (by rw [Nat.sub_zero, Nat.zero_add]; exact hfar) (m + 1) (by omega)
  have hpos := Int.mul_nonneg (Int.natCast_nonneg (m + 1)) hi.le
  have hnanos := hv'.nanos (by omega) hfit
  refine ⟨m + 1, m + 1, { timerp.post with itValue := v', callout := some (timespectohz rate v' now) }, ?_, ?_⟩
  · unfold realitsexpire
    dsimp only
    rw [timerp.post_times.1, timerp.post_times.2, if_neg (not_not.mpr hset), heq]
  · change IsLeast _ v'.nanos
    rw [hnanos]
    refine ⟨⟨hlt (m + 1) (by omega), m + 1, by omega, rfl⟩, ?_⟩
    rintro x ⟨hx, k, hk, rfl⟩
    have hkm : m + 1 ≤ k := by
      by_contra hless
      exact absurd hx (not_lt.mpr (hle k hk (by omega)))
    have hmul : ((m + 1 : Nat) : Int) * timerp.itInterval.nanos ≤ k * timerp.itInterval.nanos :=
      Int.mul_le_mul_of_nonneg_right (by exact_mod_cast hkm) hi.le
    omega

theorem realitsexpire_rearms_second :
    Rearms ⟨100, 10000000, by decide⟩ ⟨11, 500000000⟩ ⟨false, true, 0, 0, ⟨10, 0⟩, ⟨1, 0⟩, none⟩ := by
  have hpassed : passed ⟨11, 500000000⟩ ⟨10, 0⟩ ⟨1, 0⟩ = 1 := by decide
  have hfar : farthest 1 = 3 := by
    rw [farthest, dif_neg one_ne_zero]
    have hlog : Nat.log2 (1 + 1) = 1 := by decide
    have hzero : farthest 0 = 1 := by rw [farthest, dif_pos rfl]
    have hrest : 1 - (2 ^ 1 - 1) = 0 := rfl
    dsimp only
    rw [hlog, hrest, hzero]
    rfl
  refine @realitsexpire_rearms ⟨100, 10000000, by decide⟩ _ ⟨10, 0⟩ ⟨1, 0⟩ _ (by decide) (by decide) (by decide)
    ⟨by decide, by decide⟩ ⟨?_, ?_⟩
  · rw [hpassed]
    decide
  · rw [hpassed, hfar]
    decide

lemma searchLoop_stuck (h : timerspeccmp (timespecadd value ⟨0, 0⟩) now ≤ 0) (hsame : timespecadd value ⟨0, 0⟩ = value)
    (fuel cnt2nth : Nat) : searchLoop now fuel cnt2nth value ⟨0, 0⟩ = none := by
  induction fuel generalizing cnt2nth with
  | zero => rfl
  | succ fuel ih =>
    unfold searchLoop
    rw [if_neg (not_lt.mpr h), hsame]
    exact ih (cnt2nth + 1)

/-- An interval of `2 ^ 29` seconds is doubled to nothing before it reaches beyond a present three intervals later. -/
theorem not_realitsexpire_rearms : ¬∀ (rate : TickRate) (now value interval : Timestruc) (timerp : Timerstr),
    itimerspecfix rate value = some timerp.itValue → itimerspecfix rate interval = some timerp.itInterval →
      timerspecisset timerp.itInterval → now.Normal → Rearms rate now timerp := by
  intro hall
  obtain ⟨turns, fuel, timerp', heq, -⟩ := hall ⟨100, 10000000, by decide⟩ ⟨0x60000001, 0⟩ ⟨1, 0⟩ ⟨0x20000000, 0⟩
    ⟨false, true, 0, 0, ⟨1, 0⟩, ⟨0x20000000, 0⟩, none⟩ (by decide) (by decide) (by decide) ⟨by decide, by decide⟩
  have hnone : searchLoop ⟨0x60000001, 0⟩ turns 0 ⟨1, 0⟩ ⟨0x20000000, 0⟩ = none := by
    match turns with
    | 0 => rfl
    | 1 => decide
    | 2 => decide
    | turns + 3 =>
      exact @searchLoop_stuck _ ⟨0xe0000001, 0⟩ (by decide) (by decide) turns 3
  have hrearm : rearmLoop turns ⟨0x60000001, 0⟩ ⟨0x20000000, 0⟩ fuel ⟨1, 0⟩ = none := by
    cases fuel with
    | zero => rfl
    | succ fuel =>
      unfold rearmLoop
      rw [hnone]
  unfold realitsexpire at heq
  change (match rearmLoop turns ⟨0x60000001, 0⟩ ⟨0x20000000, 0⟩ fuel ⟨1, 0⟩ with
    | none => none
    | some valp => some _) = some timerp' at heq
  rw [hrearm] at heq
  cases heq

end Rearmed

end Solaris.Timers
