import Solaris.Lib.Along
import Solaris.Timers.HighRes

/-!
# Unique times

`uniqtime` of `timers.c`: the clock is read, its nanoseconds become microseconds, and a reading that
is not later than the last time returned is replaced by a microsecond after that. An `int` and a
`time_t` have 32 bits.
-/

namespace Solaris.Timers

open Lib Nat BitVec List BitVec

def microsec : BitVec 32 := 1000000

structure Timeval where
  tvSec : BitVec 32
  tvUsec : BitVec 32
  deriving DecidableEq

def usecs (nsec : BitVec 32) : BitVec 32 :=
  let usec := nsec + nsec.sshiftRight 2
  let usec := nsec + usec.sshiftRight 1
  let usec := nsec + usec.sshiftRight 2
  let usec := nsec + usec.sshiftRight 4
  let usec := nsec - usec.sshiftRight 3
  let usec := nsec + usec.sshiftRight 2
  let usec := nsec + usec.sshiftRight 3
  let usec := nsec + usec.sshiftRight 4
  let usec := nsec + usec.sshiftRight 1
  let usec := nsec + usec.sshiftRight 6
  usec.sshiftRight 10

/-- The reading is not later than `last`, and not far before it. -/
def notNew (last : Timeval) (sec usec : BitVec 32) : Prop :=
  sec.toInt ≤ last.tvSec.toInt ∧ (sec ≠ last.tvSec ∨ usec.toInt ≤ last.tvUsec.toInt) ∧
    (last.tvSec - sec).toInt ≤ 5

instance (last : Timeval) (sec usec : BitVec 32) : Decidable (notNew last sec usec) :=
  inferInstanceAs (Decidable (_ ∧ _ ∧ _))

/-- The time returned for the clock reading `ts`, which is kept as the next `last`. -/
def uniqtime (last : Timeval) (ts : Timestruc) : Timeval :=
  let usec := usecs ts.tvNsec
  if notNew last ts.tvSec usec then
    let usec := last.tvUsec + 1
    if microsec.toInt ≤ usec.toInt then ⟨last.tvSec + 1, usec - microsec⟩ else ⟨last.tvSec, usec⟩
  else ⟨ts.tvSec, usec⟩

section Division

lemma sshiftRight_toNat {x : BitVec 32} (h : x.toNat < 2 ^ 31) (k : Nat) :
    (x.sshiftRight k).toNat = x.toNat / 2 ^ k := by
  have hmsb : x.msb = false := by
    rw [msb_eq_false_iff_two_mul_lt]
    omega
  rw [sshiftRight_eq_of_msb_false hmsb, toNat_ushiftRight, shiftRight_eq_div_pow]

section Steps

variable {n u : BitVec 32} {k : Nat}

lemma div_pow_le (hu : u.toNat ≤ 2 * n.toNat) (hk : 1 ≤ k) : u.toNat / 2 ^ k ≤ n.toNat := by
  calc u.toNat / 2 ^ k ≤ u.toNat / 2 ^ 1 :=
        Nat.div_le_div_left (Nat.pow_le_pow_right (by omega) hk) (by omega)
    _ ≤ n.toNat := by omega

lemma add_sshift (hn : n.toNat < 1000000000) (hu : u.toNat ≤ 2 * n.toNat) (hk : 1 ≤ k) :
    (n + u.sshiftRight k).toNat = n.toNat + u.toNat / 2 ^ k ∧
      (n + u.sshiftRight k).toNat ≤ 2 * n.toNat := by
  have hdiv := div_pow_le hu hk
  have heq : (n + u.sshiftRight k).toNat = n.toNat + u.toNat / 2 ^ k := by
    rw [toNat_add, sshiftRight_toNat (by omega)]
    exact mod_eq_of_lt (by omega)
  exact ⟨heq, by omega⟩

lemma sub_sshift (hn : n.toNat < 1000000000) (hu : u.toNat ≤ 2 * n.toNat) (hk : 1 ≤ k) :
    (n - u.sshiftRight k).toNat = n.toNat - u.toNat / 2 ^ k ∧
      (n - u.sshiftRight k).toNat ≤ 2 * n.toNat := by
  have hdiv := div_pow_le hu hk
  have hs := sshiftRight_toNat (x := u) (by omega) k
  have heq : (n - u.sshiftRight k).toNat = n.toNat - u.toNat / 2 ^ k := by
    rw [toNat_sub_of_le (by rw [le_def, hs]; exact hdiv), hs]
  exact ⟨heq, by omega⟩

end Steps

lemma head_bounds {n u1 u2 u3 u4 u5 : Nat} (e1 : u1 = n + n / 4) (e2 : u2 = n + u1 / 2)
    (e3 : u3 = n + u2 / 4) (e4 : u4 = n + u3 / 16) (e5 : u5 = n - u4 / 8) :
    3539 * n ≤ 4096 * u5 ∧ 4096 * u5 < 3539 * n + 4096 := by
  have c2 : u2 = 13 * n / 8 := by omega
  omega

lemma tail_eq {n u5 u6 u7 u8 u9 u10 : Nat} (e6 : u6 = n + u5 / 4) (e7 : u7 = n + u6 / 8)
    (e8 : u8 = n + u7 / 16) (e9 : u9 = n + u8 / 2) (e10 : u10 = n + u9 / 64) :
    u10 / 1024 = (67108 * n + u5) / 67108864 := by
  omega

lemma usecs_toNat {nsec : BitVec 32} (hn : nsec.toNat < 1000000000) :
    (usecs nsec).toNat = nsec.toNat / 1000 := by
  unfold usecs
  extract_lets u1 u2 u3 u4 u5 u6 u7 u8 u9 u10
  obtain ⟨e1, b1⟩ : u1.toNat = nsec.toNat + nsec.toNat / 2 ^ 2 ∧ u1.toNat ≤ 2 * nsec.toNat :=
    add_sshift hn (by omega) (by omega)
  obtain ⟨e2, b2⟩ : u2.toNat = nsec.toNat + u1.toNat / 2 ^ 1 ∧ u2.toNat ≤ 2 * nsec.toNat :=
    add_sshift hn b1 (by omega)
  obtain ⟨e3, b3⟩ : u3.toNat = nsec.toNat + u2.toNat / 2 ^ 2 ∧ u3.toNat ≤ 2 * nsec.toNat :=
    add_sshift hn b2 (by omega)
  obtain ⟨e4, b4⟩ : u4.toNat = nsec.toNat + u3.toNat / 2 ^ 4 ∧ u4.toNat ≤ 2 * nsec.toNat :=
    add_sshift hn b3 (by omega)
  obtain ⟨e5, b5⟩ : u5.toNat = nsec.toNat - u4.toNat / 2 ^ 3 ∧ u5.toNat ≤ 2 * nsec.toNat :=
    sub_sshift hn b4 (by omega)
  obtain ⟨e6, b6⟩ : u6.toNat = nsec.toNat + u5.toNat / 2 ^ 2 ∧ u6.toNat ≤ 2 * nsec.toNat :=
    add_sshift hn b5 (by omega)
  obtain ⟨e7, b7⟩ : u7.toNat = nsec.toNat + u6.toNat / 2 ^ 3 ∧ u7.toNat ≤ 2 * nsec.toNat :=
    add_sshift hn b6 (by omega)
  obtain ⟨e8, b8⟩ : u8.toNat = nsec.toNat + u7.toNat / 2 ^ 4 ∧ u8.toNat ≤ 2 * nsec.toNat :=
    add_sshift hn b7 (by omega)
  obtain ⟨e9, b9⟩ : u9.toNat = nsec.toNat + u8.toNat / 2 ^ 1 ∧ u9.toNat ≤ 2 * nsec.toNat :=
    add_sshift hn b8 (by omega)
  obtain ⟨e10, b10⟩ : u10.toNat = nsec.toNat + u9.toNat / 2 ^ 6 ∧ u10.toNat ≤ 2 * nsec.toNat :=
    add_sshift hn b9 (by omega)
  obtain ⟨hlow, hhigh⟩ := head_bounds e1 e2 e3 e4 e5
  have htail := tail_eq e6 e7 e8 e9 e10
  calc (u10.sshiftRight 10).toNat = u10.toNat / 1024 := sshiftRight_toNat (by omega) 10
    _ = (67108 * nsec.toNat + u5.toNat) / 67108864 := htail
    _ = nsec.toNat / 1000 := by
      clear e1 e2 e3 e4 e5 e6 e7 e8 e9 e10 htail
      omega

end Division

section Times

def Timeval.Normal (tv : Timeval) : Prop := 0 ≤ tv.tvUsec.toInt ∧ tv.tvUsec.toInt < 1000000

def Timeval.Before (a b : Timeval) : Prop :=
  a.tvSec.toInt < b.tvSec.toInt ∨
    a.tvSec.toInt = b.tvSec.toInt ∧ a.tvUsec.toInt < b.tvUsec.toInt

/-- A normalised reading of the clock, before its last second. -/
def Timestruc.Reading (ts : Timestruc) : Prop :=
  0 ≤ ts.tvNsec.toInt ∧ ts.tvNsec.toInt < 10 ^ 9 ∧ ts.tvSec.toInt ≤ 2 ^ 31 - 2

def Timestruc.micros (ts : Timestruc) : Timeval :=
  ⟨ts.tvSec, BitVec.ofInt 32 (ts.tvNsec.toInt / 1000)⟩

/-- What is asked of the call that finds `last` and reads `ts`. -/
def Unique (last : Timeval) (ts : Timestruc) : Prop :=
  (uniqtime last ts).Normal ∧
    (last.tvSec.toInt - 5 ≤ ts.tvSec.toInt → last.Before (uniqtime last ts)) ∧
    (last.Before ts.micros → uniqtime last ts = ts.micros)

/-- The last microsecond that a `time_t` holds has no later one. -/
def NotLast (last : Timeval) (ts : Timestruc) : Prop :=
  ¬(last = ⟨2147483647, 999999⟩ ∧ last.tvSec.toInt - 5 ≤ ts.tvSec.toInt)

end Times

section Step

variable {last : Timeval} {ts : Timestruc}

lemma micros_eq (ht : ts.Reading) : ts.micros = ⟨ts.tvSec, usecs ts.tvNsec⟩ := by
  have hnat : ts.tvNsec.toInt = ts.tvNsec.toNat := toInt_of_nonneg ht.1
  have hlt : ts.tvNsec.toNat < 1000000000 := by
    have h := ht.2.1
    omega
  have husec : BitVec.ofInt 32 (ts.tvNsec.toInt / 1000) = usecs ts.tvNsec := by
    apply eq_of_toNat_eq
    rw [usecs_toNat hlt, hnat, toNat_ofInt]
    omega
  rw [Timestruc.micros, husec]

lemma usecs_toInt (ht : ts.Reading) :
    0 ≤ (usecs ts.tvNsec).toInt ∧ (usecs ts.tvNsec).toInt < 1000000 := by
  have hnat : ts.tvNsec.toInt = ts.tvNsec.toNat := toInt_of_nonneg ht.1
  have hlt : ts.tvNsec.toNat < 1000000000 := by
    have h := ht.2.1
    omega
  have hval := usecs_toNat hlt
  have hint : (usecs ts.tvNsec).toInt = (usecs ts.tvNsec).toNat :=
    toInt_eq_toNat_of_lt (by omega)
  omega

lemma toInt_add_one {x : BitVec 32} (h : x.toInt < 2 ^ 31 - 1) : (x + 1).toInt = x.toInt + 1 := by
  have h1 : (1 : BitVec 32).toInt = 1 := rfl
  have hlow := x.le_toInt
  rw [toInt_add, h1, Int.bmod_eq_of_le (by omega) (by omega)]

lemma notNew_iff (sec usec : BitVec 32) :
    notNew last sec usec ↔ sec.toInt ≤ last.tvSec.toInt ∧
      (sec ≠ last.tvSec ∨ usec.toInt ≤ last.tvUsec.toInt) ∧
      (last.tvSec.toInt - sec.toInt ≤ 5 ∨ 2 ^ 31 ≤ last.tvSec.toInt - sec.toInt) := by
  have hl := last.tvSec.toInt_lt
  have hs := sec.le_toInt
  have hdiff : (last.tvSec - sec).toInt = (last.tvSec.toInt - sec.toInt).bmod (2 ^ 32) :=
    toInt_sub ..
  unfold notNew
  rw [hdiff]
  refine and_congr_right fun hle => and_congr_right fun _ => ?_
  rw [Int.bmod_def]
  split <;> omega

theorem uniqtime_cases (hl : last.Normal) (ht : ts.Reading) :
    (¬notNew last ts.tvSec (usecs ts.tvNsec) ∧ uniqtime last ts = ts.micros) ∨
    (notNew last ts.tvSec (usecs ts.tvNsec) ∧ last.tvUsec.toInt < 999999 ∧
      uniqtime last ts = ⟨last.tvSec, last.tvUsec + 1⟩) ∨
    (notNew last ts.tvSec (usecs ts.tvNsec) ∧ last.tvUsec = 999999 ∧
      uniqtime last ts = ⟨last.tvSec + 1, 0⟩) := by
  by_cases hnew : notNew last ts.tvSec (usecs ts.tvNsec)
  · right
    have hnext := toInt_add_one (x := last.tvUsec) (by have h := hl.2; omega)
    have hmicro : microsec.toInt = 1000000 := rfl
    by_cases hcarry : last.tvUsec.toInt < 999999
    · left
      refine ⟨hnew, hcarry, ?_⟩
      rw [uniqtime, if_pos hnew]
      exact if_neg (by omega)
    right
    have h9 : last.tvUsec = 999999 := by
      have hv : (999999 : BitVec 32).toInt = 999999 := rfl
      obtain ⟨h0, hlt⟩ := hl
      exact eq_of_toInt_eq (by omega)
    refine ⟨hnew, h9, ?_⟩
    have hzero : last.tvUsec + 1 - microsec = 0 := by
      rw [h9]
      rfl
    rw [uniqtime, if_pos hnew]
    rw [if_pos (by omega), hzero]
  · left
    refine ⟨hnew, ?_⟩
    rw [micros_eq ht, uniqtime, if_neg hnew]

lemma uniqtime_normal (hl : last.Normal) (ht : ts.Reading) : (uniqtime last ts).Normal := by
  rcases uniqtime_cases hl ht with ⟨-, heq⟩ | ⟨-, hlt, heq⟩ | ⟨-, -, heq⟩
  · rw [heq, micros_eq ht]
    exact usecs_toInt ht
  · have hnext := toInt_add_one (x := last.tvUsec) (by omega)
    have h0 := hl.1
    rw [heq]
    constructor
    · change 0 ≤ (last.tvUsec + 1).toInt
      omega
    · change (last.tvUsec + 1).toInt < 1000000
      omega
  · rw [heq]
    simp [Timeval.Normal]

lemma before_micros_iff (ht : ts.Reading) (hnew : notNew last ts.tvSec (usecs ts.tvNsec)) :
    ¬last.Before ts.micros := by
  obtain ⟨hle, hor, -⟩ := (notNew_iff _ _).mp hnew
  have hsec : ts.tvSec.toInt = last.tvSec.toInt → ts.tvSec = last.tvSec := eq_of_toInt_eq
  rw [micros_eq ht]
  rintro (hlt | ⟨heq, hlt⟩)
  · change last.tvSec.toInt < ts.tvSec.toInt at hlt
    omega
  · change last.tvSec.toInt = ts.tvSec.toInt at heq
    change last.tvUsec.toInt < (usecs ts.tvNsec).toInt at hlt
    rcases hor with hne | hge
    · exact hne (hsec heq.symm)
    · omega

lemma before_of_new (ht : ts.Reading) (hnew : ¬notNew last ts.tvSec (usecs ts.tvNsec))
    (hwin : last.tvSec.toInt - 5 ≤ ts.tvSec.toInt) : last.Before ts.micros := by
  rw [notNew_iff] at hnew
  rw [micros_eq ht]
  by_contra hbefore
  have hle : ts.tvSec.toInt ≤ last.tvSec.toInt := by
    by_contra hgt
    exact hbefore (.inl (by change last.tvSec.toInt < ts.tvSec.toInt; omega))
  refine hnew ⟨hle, ?_, by omega⟩
  by_cases heq : ts.tvSec = last.tvSec
  · right
    by_contra hgt
    refine hbefore (.inr ⟨?_, ?_⟩)
    · rw [heq]
    · change last.tvUsec.toInt < (usecs ts.tvNsec).toInt
      omega
  · exact .inl heq

lemma unique_iff (hl : last.Normal) (ht : ts.Reading) : Unique last ts ↔ NotLast last ts := by
  have hnormal := uniqtime_normal hl ht
  rcases uniqtime_cases hl ht with ⟨hnew, heq⟩ | ⟨hnew, hlt, heq⟩ | ⟨hnew, h9, heq⟩
  · have hgood : NotLast last ts := by
      rintro ⟨rfl, hwin⟩
      have hbefore := before_of_new ht hnew hwin
      have hread := ht.2.2
      have hmax : (2147483647 : BitVec 32).toInt = 2147483647 := rfl
      rcases hbefore with h | ⟨h, -⟩
      · change (2147483647 : BitVec 32).toInt < ts.tvSec.toInt at h
        omega
      · change (2147483647 : BitVec 32).toInt = ts.tvSec.toInt at h
        omega
    have hunique : Unique last ts := by
      refine ⟨hnormal, fun hwin => ?_, fun _ => heq⟩
      rw [heq]
      exact before_of_new ht hnew hwin
    exact ⟨fun _ => hgood, fun _ => hunique⟩
  · have hgood : NotLast last ts := by
      rintro ⟨rfl, -⟩
      exact absurd hlt (by decide)
    have hnext := toInt_add_one (x := last.tvUsec) (by omega)
    have hunique : Unique last ts := by
      refine ⟨hnormal, fun _ => ?_, fun hb => absurd hb (before_micros_iff ht hnew)⟩
      rw [heq]
      refine .inr ⟨rfl, ?_⟩
      change last.tvUsec.toInt < (last.tvUsec + 1).toInt
      omega
    exact ⟨fun _ => hgood, fun _ => hunique⟩
  · have hmax : (2147483647 : BitVec 32).toInt = 2147483647 := rfl
    have hsec := last.tvSec.toInt_lt
    by_cases hlast : last.tvSec = 2147483647
    · have hl9 : last = ⟨2147483647, 999999⟩ := by
        cases last
        simp_all
      constructor
      · rintro hunique ⟨-, hwin⟩
        have hbefore := hunique.2.1 hwin
        rw [heq, hl9] at hbefore
        have hnot : ¬Timeval.Before ⟨2147483647, 999999⟩ ⟨2147483647 + 1, 0⟩ := by
          rintro (h | ⟨h, -⟩)
          · exact absurd h (by decide)
          · exact absurd h (by decide)
        exact hnot hbefore
      · intro hgood
        refine ⟨hnormal, fun hwin => absurd ⟨hl9, hwin⟩ hgood, fun hb => ?_⟩
        exact absurd hb (before_micros_iff ht hnew)
    · have hne : last.tvSec.toInt ≠ 2147483647 := fun h => hlast (eq_of_toInt_eq h)
      have hnext := toInt_add_one (x := last.tvSec) (by omega)
      have hgood : NotLast last ts := by
        rintro ⟨rfl, -⟩
        exact hlast rfl
      have hunique : Unique last ts := by
        refine ⟨hnormal, fun _ => ?_, fun hb => absurd hb (before_micros_iff ht hnew)⟩
        rw [heq]
        refine .inl ?_
        change last.tvSec.toInt < (last.tvSec + 1).toInt
        omega
      exact ⟨fun _ => hgood, fun _ => hunique⟩

end Step

section Runs

/-- `last` before the first call. -/
def firstLast : Timeval := ⟨0, 0⟩

/-- Along a run of calls every one does what is asked if and only if none has to follow the last
microsecond. -/
theorem uniqtime_unique_iff (readings : List Timestruc) (h : ∀ ts ∈ readings, ts.Reading) :
    Along uniqtime Unique firstLast readings ↔ Along uniqtime NotLast firstLast readings := by
  have hread : Along uniqtime (fun _ ts => ts.Reading) firstLast readings := along_of_forall h
  have hstart : firstLast.Normal := ⟨by decide, by decide⟩
  constructor
  · intro hu
    apply (hread.and hu).imp hstart
    intro last ts hl hc
    exact ⟨(unique_iff hl hc.1).mp hc.2, uniqtime_normal hl hc.1⟩
  · intro hn
    apply (hread.and hn).imp hstart
    intro last ts hl hc
    exact ⟨(unique_iff hl hc.1).mpr hc.2, uniqtime_normal hl hc.1⟩

theorem uniqtime_unique_iff_sample :
    Along uniqtime Unique firstLast [⟨100, 5999⟩, ⟨100, 5001⟩, ⟨107, 0⟩, ⟨101, 0⟩] ↔
      Along uniqtime NotLast firstLast [⟨100, 5999⟩, ⟨100, 5001⟩, ⟨107, 0⟩, ⟨101, 0⟩] :=
  uniqtime_unique_iff _ (by unfold Timestruc.Reading; decide)

def stuck : Timestruc := ⟨2147483646, 999999999⟩

lemma stuck_notNew (usec : BitVec 32) : notNew ⟨2147483647, usec⟩ stuck.tvSec (usecs stuck.tvNsec) := by
  have hle : stuck.tvSec.toInt ≤ (2147483647 : BitVec 32).toInt := by decide
  have hne : stuck.tvSec ≠ 2147483647 := by decide
  have hdiff : (2147483647 - stuck.tvSec).toInt ≤ 5 := by decide
  exact ⟨hle, .inl hne, hdiff⟩

lemma stuck_last (k : Nat) (hk : k < 1000000) :
    (List.replicate (k + 2) stuck).foldl uniqtime firstLast =
      ⟨2147483647, BitVec.ofNat 32 k⟩ := by
  induction k with
  | zero => decide +kernel
  | succ k ih =>
    have htoNat : (BitVec.ofNat 32 k).toNat = k := by
      rw [toNat_ofNat]
      omega
    have htoInt : (BitVec.ofNat 32 k).toInt = k := by
      rw [toInt_eq_toNat_of_lt (by omega), htoNat]
    have hnormal : Timeval.Normal ⟨2147483647, BitVec.ofNat 32 k⟩ := by
      constructor
      · change 0 ≤ (BitVec.ofNat 32 k).toInt
        omega
      · change (BitVec.ofNat 32 k).toInt < 1000000
        omega
    have hread : stuck.Reading := by
      unfold Timestruc.Reading
      decide
    rw [List.replicate_succ', List.foldl_append, ih (by omega)]
    rcases uniqtime_cases hnormal hread with ⟨hnew, -⟩ | ⟨-, -, heq⟩ | ⟨-, h9, -⟩
    · exact absurd (stuck_notNew _) hnew
    · rw [ofNat_add]
      exact heq
    · have h := congrArg BitVec.toNat h9
      change (BitVec.ofNat 32 k).toNat = 999999 at h
      omega

/-- A million and one calls after the clock has reached the end of its last second but one the time
returned wraps. -/
theorem uniqtime_not_unique :
    ¬∀ readings : List Timestruc, (∀ ts ∈ readings, ts.Reading) →
      Along uniqtime Unique firstLast readings := by
  intro h
  have hrun := h (replicate 1000001 stuck ++ [stuck]) (by
    intro ts hts
    have heq : ts = stuck := by
      rcases mem_append.mp hts with hm | hm
      · exact eq_of_mem_replicate hm
      · exact mem_singleton.mp hm
    rw [heq]
    unfold Timestruc.Reading
    decide)
  have hlast := (along_append.mp hrun).2.1
  rw [stuck_last 999999 (by omega)] at hlast
  have hbefore := hlast.2.1 (by decide)
  rcases hbefore with hlt | ⟨heq, -⟩
  · exact absurd hlt (by decide)
  · exact absurd heq (by decide)

end Runs

end Solaris.Timers
