import Solaris.Lib.Words
import Solaris.Timers.HighRes

/-!
# Arithmetic of timespecs

`timespecadd`, `timespecsub`, `itimerspecfix` and `timespectohz` of `timers.c`, in 32 bits, and what they are while
nothing overflows.
-/

namespace Solaris.Timers

open Option Int

/-- `hz` and `nsec_per_tick` -/
structure TickRate where
  hz : Nat
  nsecPerTick : Nat
  second : hz * nsecPerTick = 1000000000

section Specs

def timerspecisset (t : Timestruc) : Prop := t.tvSec ≠ 0 ∨ t.tvNsec ≠ 0

instance (t : Timestruc) : Decidable (timerspecisset t) := inferInstanceAs (Decidable (_ ∨ _))

def timerspeccmp (tvp uvp : Timestruc) : Int :=
  if tvp.tvSec - uvp.tvSec ≠ 0 then (tvp.tvSec - uvp.tvSec).toInt else (tvp.tvNsec - uvp.tvNsec).toInt

def timespecfix (t : Timestruc) : Timestruc :=
  if t.tvNsec.toInt < 0 then ⟨t.tvSec - 1, t.tvNsec + nanosec⟩
  else if t.tvNsec.toInt ≥ nanosec.toInt then ⟨t.tvSec + 1, t.tvNsec - nanosec⟩
  else t

def timespecadd (t₁ t₂ : Timestruc) : Timestruc := timespecfix ⟨t₁.tvSec + t₂.tvSec, t₁.tvNsec + t₂.tvNsec⟩

def timespecsub (t₁ t₂ : Timestruc) : Timestruc := timespecfix ⟨t₁.tvSec - t₂.tvSec, t₁.tvNsec - t₂.tvNsec⟩

/-- `itimerspecfix`, with no value for `EINVAL`. -/
def itimerspecfix (rate : TickRate) (t : Timestruc) : Option Timestruc :=
  if t.tvSec.toInt < 0 ∨ t.tvNsec.toInt < 0 ∨ t.tvNsec.toInt ≥ nanosec.toInt then none
  else if t.tvSec = 0 ∧ t.tvNsec ≠ 0 ∧ t.tvNsec.toInt < rate.nsecPerTick then
    some { t with tvNsec := BitVec.ofNat 32 rate.nsecPerTick }
  else some t

/-- The seconds and the ticks in the nanoseconds that `timespectohz` has before it looks for overflow. -/
def hzParts (rate : TickRate) (tv now : Timestruc) : BitVec 32 × BitVec 32 :=
  let sec := tv.tvSec - now.tvSec
  let nsec := tv.tvNsec - now.tvNsec + BitVec.ofNat 32 rate.nsecPerTick - 1
  let r := if nsec.toInt < 0 then (sec - 1, nsec + nanosec)
    else if nsec.toInt > nanosec.toInt then (sec + 1, nsec - nanosec)
    else (sec, nsec)
  (r.1, r.2.sdiv (BitVec.ofNat 32 rate.nsecPerTick))

def longMax : BitVec 32 := 0x7fffffff

/-- "protect vs nonpositive" -/
def HzSoon (p : BitVec 32 × BitVec 32) : Prop := p.1.toInt < 0 ∨ p.1 = 0 ∧ p.2.toInt < 1

/-- "protect vs overflow" -/
def HzClamps (rate : TickRate) (p : BitVec 32 × BitVec 32) : Prop :=
  p.1.toInt > ((longMax - p.2).sdiv (BitVec.ofNat 32 rate.hz)).toInt

instance (p : BitVec 32 × BitVec 32) : Decidable (HzSoon p) := inferInstanceAs (Decidable (_ ∨ _))

instance (rate : TickRate) (p : BitVec 32 × BitVec 32) : Decidable (HzClamps rate p) :=
  inferInstanceAs (Decidable (_ < _))

def timespectohz (rate : TickRate) (tv now : Timestruc) : BitVec 32 :=
  let p := hzParts rate tv now
  if HzSoon p then 1 else if HzClamps rate p then longMax else p.2 + p.1 * BitVec.ofNat 32 rate.hz

end Specs

section Nanos

def Timestruc.nanos (t : Timestruc) : Int := t.tvSec.toInt * 1000000000 + t.tvNsec.toInt

structure Timestruc.Normal (t : Timestruc) : Prop where
  nonneg : 0 ≤ t.tvNsec.toInt
  lt : t.tvNsec.toInt < 1000000000

/-- The time of a number of nanoseconds, with the seconds modulo `2 ^ 32`. -/
structure Timestruc.Stands (t : Timestruc) (x : Int) : Prop where
  nonneg : 0 ≤ t.tvNsec.toInt
  le : t.tvNsec.toInt ≤ 1000000000
  sec : ∃ s : Int, t.tvSec = BitVec.ofInt 32 s ∧ s * 1000000000 + t.tvNsec.toInt = x

lemma nanosec_toInt : nanosec.toInt = 1000000000 := rfl

variable {t t₁ t₂ now : Timestruc} {x x1 x2 : Int}

lemma toInt_of_eq {x : BitVec 32} {k : Int} (hx : x = BitVec.ofInt 32 k) (hlo : -2 ^ 31 ≤ k) (hhi : k < 2 ^ 31) :
    x.toInt = k := by
  rw [hx]
  exact Lib.toInt_ofInt_of_small hlo hhi

lemma ofInt_sub (a b : Int) : BitVec.ofInt 32 (a - b) = BitVec.ofInt 32 a - BitVec.ofInt 32 b := by
  apply BitVec.eq_of_toInt_eq
  rw [BitVec.toInt_sub, BitVec.toInt_ofInt, BitVec.toInt_ofInt, BitVec.toInt_ofInt, bmod_sub_bmod, sub_bmod_bmod]

lemma Timestruc.stands_of_le (hlo : 0 ≤ t.tvNsec.toInt) (hhi : t.tvNsec.toInt ≤ 1000000000) : t.Stands t.nanos :=
  ⟨hlo, hhi, t.tvSec.toInt, (BitVec.ofInt_toInt).symm, rfl⟩

lemma Timestruc.Normal.stands (h : t.Normal) : t.Stands t.nanos := t.stands_of_le h.nonneg h.lt.le

lemma Timestruc.Stands.nanos (h : t.Stands x) (hlo : 0 ≤ x) (hhi : x < 2 ^ 31 * 1000000000) : t.nanos = x := by
  obtain ⟨h0, hle, s, hs, hx⟩ := h
  unfold Timestruc.nanos
  rw [toInt_of_eq hs (by omega) (by omega)]
  exact hx

lemma timespecfix_stands {s n : Int} (hsec : t.tvSec = BitVec.ofInt 32 s) (hnsec : t.tvNsec = BitVec.ofInt 32 n)
    (hlo : -1000000000 ≤ n) (hhi : n ≤ 2000000000) : (timespecfix t).Stands (s * 1000000000 + n) := by
  have hn : t.tvNsec.toInt = n := toInt_of_eq hnsec (by omega) (by omega)
  have hone : (1 : BitVec 32) = BitVec.ofInt 32 1 := rfl
  have hnano : nanosec = BitVec.ofInt 32 1000000000 := rfl
  unfold timespecfix
  rw [hn, nanosec_toInt]
  by_cases hneg : n < 0
  · rw [if_pos hneg]
    have hback : (t.tvNsec + nanosec).toInt = n + 1000000000 := by
      apply toInt_of_eq
      · rw [hnsec, hnano, BitVec.ofInt_add]
      · omega
      · omega
    refine ⟨?_, ?_, s - 1, ?_, ?_⟩
    · change 0 ≤ (t.tvNsec + nanosec).toInt
      omega
    · change (t.tvNsec + nanosec).toInt ≤ 1000000000
      omega
    · change t.tvSec - 1 = _
      rw [hsec, hone, ofInt_sub]
    · change (s - 1) * 1000000000 + (t.tvNsec + nanosec).toInt = _
      omega
  rw [if_neg hneg]
  split_ifs with hbig
  · have hback : (t.tvNsec - nanosec).toInt = n - 1000000000 := by
      apply toInt_of_eq
      · rw [hnsec, hnano, ofInt_sub]
      · omega
      · omega
    refine ⟨?_, ?_, s + 1, ?_, ?_⟩
    · change 0 ≤ (t.tvNsec - nanosec).toInt
      omega
    · change (t.tvNsec - nanosec).toInt ≤ 1000000000
      omega
    · change t.tvSec + 1 = _
      rw [hsec, hone, BitVec.ofInt_add]
    · change (s + 1) * 1000000000 + (t.tvNsec - nanosec).toInt = _
      omega
  · exact ⟨by omega, by omega, s, hsec, by omega⟩

lemma timespecadd_stands (h1 : t₁.Stands x1) (h2 : t₂.Stands x2) : (timespecadd t₁ t₂).Stands (x1 + x2) := by
  obtain ⟨hlo1, hhi1, s1, hs1, rfl⟩ := h1
  obtain ⟨hlo2, hhi2, s2, hs2, rfl⟩ := h2
  have hsec : t₁.tvSec + t₂.tvSec = BitVec.ofInt 32 (s1 + s2) := by rw [hs1, hs2, BitVec.ofInt_add]
  have hnsec : t₁.tvNsec + t₂.tvNsec = BitVec.ofInt 32 (t₁.tvNsec.toInt + t₂.tvNsec.toInt) := by
    rw [BitVec.ofInt_add, BitVec.ofInt_toInt, BitVec.ofInt_toInt]
  have hfix := @timespecfix_stands ⟨t₁.tvSec + t₂.tvSec, t₁.tvNsec + t₂.tvNsec⟩ _ _ hsec hnsec (by omega) (by omega)
  have hsum : s1 * 1000000000 + t₁.tvNsec.toInt + (s2 * 1000000000 + t₂.tvNsec.toInt) =
      (s1 + s2) * 1000000000 + (t₁.tvNsec.toInt + t₂.tvNsec.toInt) := by omega
  rw [hsum]
  exact hfix

lemma timespecsub_stands (h1 : t₁.Stands x1) (h2 : t₂.Stands x2) : (timespecsub t₁ t₂).Stands (x1 - x2) := by
  obtain ⟨hlo1, hhi1, s1, hs1, rfl⟩ := h1
  obtain ⟨hlo2, hhi2, s2, hs2, rfl⟩ := h2
  have hsec : t₁.tvSec - t₂.tvSec = BitVec.ofInt 32 (s1 - s2) := by rw [hs1, hs2, ofInt_sub]
  have hnsec : t₁.tvNsec - t₂.tvNsec = BitVec.ofInt 32 (t₁.tvNsec.toInt - t₂.tvNsec.toInt) := by
    rw [ofInt_sub, BitVec.ofInt_toInt, BitVec.ofInt_toInt]
  have hfix := @timespecfix_stands ⟨t₁.tvSec - t₂.tvSec, t₁.tvNsec - t₂.tvNsec⟩ _ _ hsec hnsec (by omega) (by omega)
  have hdiff : s1 * 1000000000 + t₁.tvNsec.toInt - (s2 * 1000000000 + t₂.tvNsec.toInt) =
      (s1 - s2) * 1000000000 + (t₁.tvNsec.toInt - t₂.tvNsec.toInt) := by omega
  rw [hdiff]
  exact hfix

lemma timerspeccmp_pos_iff (h : t.Stands x) (hnow : now.Normal) (hlo : 0 ≤ x)
    (hhi : x < (now.tvSec.toInt + 2 ^ 31) * 1000000000) : 0 < timerspeccmp t now ↔ now.nanos < x := by
  obtain ⟨h0, hle, s, hs, rfl⟩ := h
  obtain ⟨hn0, hnlt⟩ := hnow
  have hsmax := BitVec.toInt_lt (x := now.tvSec)
  have hsec : (t.tvSec - now.tvSec).toInt = s - now.tvSec.toInt := by
    apply toInt_of_eq
    · rw [hs, ofInt_sub, BitVec.ofInt_toInt]
    · omega
    · omega
  have hnsec : (t.tvNsec - now.tvNsec).toInt = t.tvNsec.toInt - now.tvNsec.toInt := by
    apply toInt_of_eq
    · rw [ofInt_sub, BitVec.ofInt_toInt, BitVec.ofInt_toInt]
    · omega
    · omega
  unfold timerspeccmp Timestruc.nanos
  split_ifs with hne
  · rw [hsec]
    have hdiff : s - now.tvSec.toInt ≠ 0 := by
      intro h0
      exact hne (BitVec.eq_of_toInt_eq (hsec.trans h0))
    omega
  · rw [hnsec]
    rw [not_not.mp hne] at hsec
    change (0 : Int) = _ at hsec
    omega

end Nanos

section Ticks

variable {rate : TickRate} {t tv : Timestruc}

lemma TickRate.pos (rate : TickRate) : 0 < rate.hz ∧ 0 < rate.nsecPerTick ∧ rate.hz ≤ 1000000000 ∧
    rate.nsecPerTick ≤ 1000000000 := by
  have hsecond := rate.second
  have hhz : 0 < rate.hz := by
    by_contra hzero
    rw [Nat.eq_zero_of_not_pos hzero, Nat.zero_mul] at hsecond
    omega
  have htick : 0 < rate.nsecPerTick := by
    by_contra hzero
    rw [Nat.eq_zero_of_not_pos hzero, Nat.mul_zero] at hsecond
    omega
  refine ⟨hhz, htick, ?_, ?_⟩
  · rw [← hsecond]
    exact Nat.le_mul_of_pos_right _ htick
  · rw [← hsecond]
    exact Nat.le_mul_of_pos_left _ hhz

lemma toInt_ofNat_small {k : Nat} (h : k < 2 ^ 31) : (BitVec.ofNat 32 k).toInt = k := by
  rw [← BitVec.ofInt_natCast]
  exact Lib.toInt_ofInt_of_small (by omega) (by omega)

/-- A value that passes the check, or a reading of the clock. -/
structure Timestruc.Proper (t : Timestruc) : Prop where
  sec : 0 ≤ t.tvSec.toInt
  normal : t.Normal

lemma Timestruc.Proper.nonneg (h : t.Proper) : 0 ≤ t.nanos := by
  have hsec := h.sec
  have hnsec := h.normal.nonneg
  unfold Timestruc.nanos
  omega

lemma timerspecisset_iff (h : t.Proper) : timerspecisset t ↔ 0 < t.nanos := by
  have hsec := h.sec
  have hnsec := h.normal.nonneg
  have hzero (x : BitVec 32) : x ≠ 0 ↔ x.toInt ≠ 0 := by
    constructor
    · exact fun hne heq => hne (BitVec.eq_of_toInt_eq (heq.trans rfl))
    · rintro hne rfl
      exact hne rfl
  unfold timerspecisset Timestruc.nanos
  rw [hzero, hzero]
  omega

lemma itimerspecfix_proper (h : itimerspecfix rate t = some tv) : t.Proper := by
  unfold itimerspecfix at h
  by_cases hbad : t.tvSec.toInt < 0 ∨ t.tvNsec.toInt < 0 ∨ t.tvNsec.toInt ≥ nanosec.toInt
  · rw [if_pos hbad] at h
    cases h
  rw [not_or, not_or, nanosec_toInt] at hbad
  exact ⟨by omega, by omega, by omega⟩

lemma itimerspecfix_stands (h : itimerspecfix rate t = some tv) :
    tv.Stands tv.nanos ∧ t.nanos ≤ tv.nanos ∧ (timerspecisset tv ↔ timerspecisset t) ∧ tv.nanos < 2 ^ 31 * 1000000000 := by
  have hproper := itimerspecfix_proper h
  obtain ⟨hsec, h0, hlt⟩ := id hproper
  obtain ⟨-, hpos, -, hle⟩ := rate.pos
  have hmax := BitVec.toInt_lt (x := t.tvSec)
  unfold itimerspecfix at h
  rw [nanosec_toInt, if_neg (by omega)] at h
  by_cases hsmall : t.tvSec = 0 ∧ t.tvNsec ≠ 0 ∧ t.tvNsec.toInt < rate.nsecPerTick
  · rw [if_pos hsmall] at h
    obtain ⟨hs, hn, htick⟩ := hsmall
    have hto : tv.tvNsec.toInt = rate.nsecPerTick := by
      rw [← some_inj.mp h]
      exact toInt_ofNat_small (by omega)
    have hzero : tv.tvSec = t.tvSec := by rw [← some_inj.mp h]
    refine ⟨Timestruc.stands_of_le (by omega) (by omega), ?_, ?_, ?_⟩
    · unfold Timestruc.nanos
      rw [hto, hzero]
      omega
    · refine iff_of_true (.inr ?_) (.inr hn)
      intro heq
      rw [heq] at hto
      change (0 : Int) = _ at hto
      omega
    · unfold Timestruc.nanos
      rw [hto, hzero]
      rw [hs]
      change 0 * 1000000000 + (rate.nsecPerTick : Int) < _
      omega
  · rw [if_neg hsmall] at h
    rw [← some_inj.mp h]
    refine ⟨hproper.normal.stands, le_rfl, Iff.rfl, ?_⟩
    unfold Timestruc.nanos
    omega

end Ticks

section Hz

variable {rate : TickRate} {tv now : Timestruc} {x : Int}

lemma sdiv_toInt {a b : BitVec 32} (ha : 0 ≤ a.toInt) (hb : 0 < b.toInt) : (a.sdiv b).toInt = a.toInt / b.toInt := by
  have hne : b ≠ -1#32 := by
    rintro rfl
    revert hb
    decide
  rw [BitVec.toInt_sdiv_of_ne_or_ne a b (.inr hne)]
  exact tdiv_eq_ediv_of_nonneg ha

lemma toInt_nsecPerTick (rate : TickRate) : (BitVec.ofNat 32 rate.nsecPerTick).toInt = rate.nsecPerTick := by
  obtain ⟨-, -, -, hle⟩ := rate.pos
  exact toInt_ofNat_small (by omega)

lemma toInt_hz (rate : TickRate) : (BitVec.ofNat 32 rate.hz).toInt = rate.hz := by
  obtain ⟨-, -, hle, -⟩ := rate.pos
  exact toInt_ofNat_small (by omega)

lemma hzParts_spec (h : tv.Stands x) (hnow : now.Normal) (hahead : now.nanos < x)
    (hnear : x - now.nanos < (2 ^ 31 - 1) * 1000000000) :
    ∃ N : Int, 0 ≤ N ∧ N ≤ 1000000000 ∧
      (hzParts rate tv now).1.toInt * 1000000000 + N = x - now.nanos + rate.nsecPerTick - 1 ∧
      (hzParts rate tv now).2.toInt = N / rate.nsecPerTick := by
  obtain ⟨h0, hle, s, hs, rfl⟩ := h
  obtain ⟨hn0, hnlt⟩ := hnow
  obtain ⟨-, htick, -, hticks⟩ := rate.pos
  unfold Timestruc.nanos at hahead hnear ⊢
  have hp := toInt_nsecPerTick rate
  have hone : (1 : BitVec 32) = BitVec.ofInt 32 1 := rfl
  have hsub : tv.tvSec - now.tvSec = BitVec.ofInt 32 (s - now.tvSec.toInt) := by rw [hs, ofInt_sub, BitVec.ofInt_toInt]
  obtain ⟨n, hn⟩ : ∃ n, n = tv.tvNsec.toInt - now.tvNsec.toInt + rate.nsecPerTick - 1 := ⟨_, rfl⟩
  have hword : tv.tvNsec - now.tvNsec + BitVec.ofNat 32 rate.nsecPerTick - 1 = BitVec.ofInt 32 n := by
    rw [hn, ofInt_sub, BitVec.ofInt_add, ofInt_sub, BitVec.ofInt_toInt, BitVec.ofInt_toInt, BitVec.ofInt_natCast, hone]
  have hnsec : (tv.tvNsec - now.tvNsec + BitVec.ofNat 32 rate.nsecPerTick - 1).toInt = n := toInt_of_eq hword (by omega) (by omega)
  unfold hzParts
  dsimp only
  rw [hnsec, nanosec_toInt]
  by_cases hneg : n < 0
  · rw [if_pos hneg]
    dsimp only
    have hback : (tv.tvNsec - now.tvNsec + BitVec.ofNat 32 rate.nsecPerTick - 1 + nanosec).toInt = n + 1000000000 := by
      apply toInt_of_eq
      · rw [hword, BitVec.ofInt_add]
        rfl
      · omega
      · omega
    have hsec : (tv.tvSec - now.tvSec - 1).toInt = s - now.tvSec.toInt - 1 := by
      apply toInt_of_eq
      · rw [hsub, hone, ofInt_sub _ 1]
      · omega
      · omega
    refine ⟨n + 1000000000, by omega, by omega, ?_, ?_⟩
    · rw [hsec]
      omega
    · rw [sdiv_toInt (by omega) (by omega), hback, hp]
  rw [if_neg hneg]
  split_ifs with hbig
  · dsimp only
    have hback : (tv.tvNsec - now.tvNsec + BitVec.ofNat 32 rate.nsecPerTick - 1 - nanosec).toInt = n - 1000000000 := by
      apply toInt_of_eq
      · rw [hword, ofInt_sub _ 1000000000]
        rfl
      · omega
      · omega
    have hsec : (tv.tvSec - now.tvSec + 1).toInt = s - now.tvSec.toInt + 1 := by
      apply toInt_of_eq
      · rw [hsub, hone, BitVec.ofInt_add]
      · omega
      · omega
    refine ⟨n - 1000000000, by omega, by omega, ?_, ?_⟩
    · rw [hsec]
      omega
    · rw [sdiv_toInt (by omega) (by omega), hback, hp]
  · dsimp only
    have hsec : (tv.tvSec - now.tvSec).toInt = s - now.tvSec.toInt := toInt_of_eq hsub (by omega) (by omega)
    refine ⟨n, by omega, by omega, ?_, ?_⟩
    · rw [hsec]
      omega
    · rw [sdiv_toInt (by omega) (by omega), hnsec, hp]

lemma timespectohz_spec (h : tv.Stands x) (hnow : now.Normal) (hahead : now.nanos < x)
    (hnear : x - now.nanos < (2 ^ 31 - 1) * 1000000000) :
    1 ≤ (timespectohz rate tv now).toInt ∧
      (¬HzClamps rate (hzParts rate tv now) →
        IsLeast {n : Int | x - now.nanos ≤ n * rate.nsecPerTick} (timespectohz rate tv now).toInt) := by
  obtain ⟨hhz, htick, hhzmax, htickmax⟩ := rate.pos
  obtain ⟨N, hN0, hN, hsum, hq⟩ := @hzParts_spec rate _ _ _ h hnow hahead hnear
  unfold timespectohz
  generalize hzParts rate tv now = p at hsum hq ⊢
  have hsecond : (rate.hz : Int) * rate.nsecPerTick = 1000000000 := by
    exact_mod_cast rate.second
  have hmod := Int.emod_add_mul_ediv N rate.nsecPerTick
  have hmod0 := Int.emod_nonneg N (b := rate.nsecPerTick) (by omega)
  have hmodlt := Int.emod_lt_of_pos N (b := rate.nsecPerTick) (by omega)
  have hsoon : ¬HzSoon p := by
    rintro (hneg | ⟨hzero, hless⟩)
    · omega
    · rw [hzero] at hsum
      have hq1 : 1 ≤ N / rate.nsecPerTick := by
        apply Int.le_ediv_of_mul_le (by omega)
        change (0 : Int) * 1000000000 + N = _ at hsum
        omega
      omega
  rw [if_neg hsoon]
  by_cases hclamp : HzClamps rate p
  · rw [if_pos hclamp]
    exact ⟨by decide, fun hno => absurd hclamp hno⟩
  rw [if_neg hclamp]
  have hq0 : 0 ≤ p.2.toInt := by
    rw [hq]
    exact Int.ediv_nonneg hN0 (by omega)
  have hqle : p.2.toInt ≤ rate.hz := by
    rw [hq]
    exact Int.ediv_le_of_le_mul (by omega) (by omega)
  have hroom : p.1.toInt * rate.hz ≤ 2 ^ 31 - 1 - p.2.toInt := by
    have hsub : (longMax - p.2).toInt = 2 ^ 31 - 1 - p.2.toInt := by
      apply toInt_of_eq
      · have hmax : longMax = BitVec.ofInt 32 (2 ^ 31 - 1) := by decide
        rw [ofInt_sub (2 ^ 31 - 1), BitVec.ofInt_toInt, hmax]
      · omega
      · omega
    have hpos : 0 < (BitVec.ofNat 32 rate.hz).toInt := by
      rw [toInt_hz]
      exact Int.natCast_pos.mpr hhz
    have hleft : 0 ≤ (longMax - p.2).toInt := by
      have hsmall : p.2.toInt ≤ 1000000000 := hqle.trans (by exact_mod_cast hhzmax)
      rw [hsub]
      linarith only [hsmall]
    unfold HzClamps at hclamp
    rw [sdiv_toInt hleft hpos, toInt_hz, hsub] at hclamp
    exact (Int.le_ediv_iff_mul_le (by omega)).mp (not_lt.mp hclamp)
  have hsec0 : 0 ≤ p.1.toInt := by omega
  have hprod : 0 ≤ p.1.toInt * rate.hz := Int.mul_nonneg hsec0 (by omega)
  have hticks : (p.2 + p.1 * BitVec.ofNat 32 rate.hz).toInt = p.2.toInt + p.1.toInt * rate.hz := by
    apply toInt_of_eq
    · rw [BitVec.ofInt_add, BitVec.ofInt_mul, BitVec.ofInt_toInt, BitVec.ofInt_toInt, BitVec.ofInt_natCast]
    · omega
    · omega
  -- the ticks in whole seconds are the seconds again
  have hwhole : (p.2.toInt + p.1.toInt * rate.hz) * rate.nsecPerTick =
      rate.nsecPerTick * (N / rate.nsecPerTick) + p.1.toInt * 1000000000 := by
    rw [← hsecond, hq]
    ring
  rw [hticks]
  refine ⟨?_, fun _ => ⟨?_, ?_⟩⟩
  · by_contra hnone
    have hzero : p.2.toInt + p.1.toInt * rate.hz = 0 := by omega
    rw [hzero, Int.zero_mul] at hwhole
    omega
  · change x - now.nanos ≤ (p.2.toInt + p.1.toInt * rate.hz) * rate.nsecPerTick
    omega
  · intro n hn
    change x - now.nanos ≤ n * rate.nsecPerTick at hn
    by_contra hless
    have hstep : (n + 1) * (rate.nsecPerTick : Int) ≤ (p.2.toInt + p.1.toInt * rate.hz) * rate.nsecPerTick :=
      Int.mul_le_mul_of_nonneg_right (by omega) (by omega)
    rw [Int.add_mul, Int.one_mul] at hstep
    omega

end Hz

end Solaris.Timers
