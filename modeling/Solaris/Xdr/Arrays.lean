import Solaris.Xdr.Filters

/-!
# Decoding a counted array

`xdr_array` allocates the product of the count and the size of an element, modulo `2 ^ 32`, and decodes as many elements
as the count says. An element routine is what it makes of the stream; it writes inside its element, whose place is
counted from the allocated bytes on.
-/

namespace Solaris.Xdr

open List Nat BitVec

section Decode

variable {σ : Type} (elproc : σ → Bool × σ)

/-- The loop over the elements: the places that are decoded, the last `stat`, and the stream. -/
def arrayLoop (elsize : BitVec 32) : Nat → σ → BitVec 32 → List (BitVec 32) × Bool × σ
  | 0, s, _ => ([], true, s)
  | n + 1, s, target =>
    let r := elproc s
    if r.1 = true then
      let rest := arrayLoop elsize n r.2 (target + elsize)
      (target :: rest.1, rest.2)
    else ([target], r)

/-- What a call leaves: the bytes that are allocated, the places of the elements that are decoded, and the stream when
there is one. -/
structure ArrayCall (σ : Type) where
  stat : Bool
  nodesize : BitVec 32
  targets : List (BitVec 32)
  stream : Option σ

/-- `xdr_array` for `XDR_DECODE` with `*addrp` null. -/
def xdrArrayAlloc (ops : Ops σ) (maxsize elsize : BitVec 32) (s : σ) : ArrayCall σ :=
  match ops.getlong s with
  | none => ⟨false, 0, [], none⟩
  | some (c, s) =>
    if c > maxsize then ⟨false, 0, [], some s⟩
    else
      let nodesize := c * elsize
      if c = 0 then ⟨true, 0, [], some s⟩
      else
        let r := arrayLoop elproc elsize c.toNat s 0
        ⟨r.2.1, nodesize, r.1, some r.2.2⟩

/-- Every element that is decoded lies inside the allocated bytes. -/
def ArrayCall.Inside (r : ArrayCall σ) (elsize : BitVec 32) : Prop :=
  ∀ target ∈ r.targets, target.toNat + elsize.toNat ≤ r.nodesize.toNat

/-- One of the first `n` element routines fails. -/
def FailsWithin : Nat → σ → Prop
  | 0, _ => False
  | n + 1, s => (elproc s).1 = false ∨ FailsWithin n (elproc s).2

/-- The product of an accepted count does not wrap, or the elements end before those that the bytes hold do. -/
def Roomy (ops : Ops σ) (maxsize elsize : BitVec 32) (s : σ) : Prop :=
  ∀ c s', ops.getlong s = some (c, s') → c ≤ maxsize →
    c.toNat * elsize.toNat < 2 ^ 32 ∨ FailsWithin elproc ((c * elsize).toNat / elsize.toNat) s'

end Decode

section Inside

variable {σ : Type} {elproc : σ → Bool × σ} {elsize target : BitVec 32} {n k : Nat} {s : σ}

lemma place_succ (k : Nat) (elsize : BitVec 32) :
    BitVec.ofNat 32 k * elsize + elsize = BitVec.ofNat 32 (k + 1) * elsize := by
  rw [ofNat_add, add_mul]
  exact congrArg _ (one_mul elsize).symm

lemma toNat_place {i : Nat} (h : i * elsize.toNat < 2 ^ 32) : (BitVec.ofNat 32 i * elsize).toNat = i * elsize.toNat := by
  rw [toNat_mul, toNat_ofNat, mod_mul_mod, mod_eq_of_lt h]

lemma arrayLoop_places (h : target ∈ (arrayLoop elproc elsize n s (BitVec.ofNat 32 k * elsize)).1) :
    ∃ i, k ≤ i ∧ i < k + n ∧ target = BitVec.ofNat 32 i * elsize := by
  induction n generalizing k s with
  | zero => exact absurd h not_mem_nil
  | succ n ih =>
    unfold arrayLoop at h
    by_cases hstat : (elproc s).1 = true
    · rw [if_pos hstat, place_succ] at h
      rcases mem_cons.mp h with heq | hrest
      · exact ⟨k, le_rfl, by omega, heq⟩
      · obtain ⟨i, hlo, hhi, heq⟩ := ih hrest
        exact ⟨i, by omega, by omega, heq⟩
    · rw [if_neg hstat] at h
      exact ⟨k, le_rfl, by omega, mem_singleton.mp h⟩

lemma arrayLoop_fails {m : Nat} (hfail : FailsWithin elproc m s)
    (h : target ∈ (arrayLoop elproc elsize n s (BitVec.ofNat 32 k * elsize)).1) :
    ∃ i, k ≤ i ∧ i < k + m ∧ target = BitVec.ofNat 32 i * elsize := by
  induction m generalizing n k s with
  | zero => exact hfail.elim
  | succ m ih =>
    cases n with
    | zero => exact absurd h not_mem_nil
    | succ n =>
      unfold arrayLoop at h
      by_cases hstat : (elproc s).1 = true
      · rw [if_pos hstat, place_succ] at h
        have hlater : FailsWithin elproc m (elproc s).2 := by
          rcases hfail with hfalse | hlater
          · exact absurd (hfalse.symm.trans hstat) Bool.false_ne_true
          · exact hlater
        rcases mem_cons.mp h with heq | hrest
        · exact ⟨k, le_rfl, by omega, heq⟩
        · obtain ⟨i, hlo, hhi, heq⟩ := ih hlater hrest
          exact ⟨i, by omega, by omega, heq⟩
      · rw [if_neg hstat] at h
        exact ⟨k, le_rfl, by omega, mem_singleton.mp h⟩

lemma arrayLoop_reaches {m : Nat} (hok : ¬FailsWithin elproc m s) (hm : m < n) :
    BitVec.ofNat 32 (k + m) * elsize ∈ (arrayLoop elproc elsize n s (BitVec.ofNat 32 k * elsize)).1 := by
  induction m generalizing n k s with
  | zero =>
    obtain ⟨n, rfl⟩ : ∃ n', n = n' + 1 := exists_eq_succ_of_ne_zero hm.ne'
    unfold arrayLoop
    by_cases hstat : (elproc s).1 = true
    · rw [if_pos hstat]
      exact mem_cons_self
    · rw [if_neg hstat]
      exact mem_cons_self
  | succ m ih =>
    obtain ⟨n, rfl⟩ : ∃ n', n = n' + 1 := exists_eq_succ_of_ne_zero (ne_of_gt (zero_lt_of_lt hm))
    obtain ⟨hstat, hlater⟩ := not_or.mp hok
    unfold arrayLoop
    rw [if_pos (Bool.eq_true_of_not_eq_false hstat), place_succ]
    have hsum : k + (m + 1) = k + 1 + m := by omega
    rw [hsum]
    exact mem_cons_of_mem _ (ih hlater (by omega))

lemma inside_of_places {m : Nat} {nodesize : BitVec 32} (hroom : m * elsize.toNat ≤ nodesize.toNat)
    (hplace : ∃ i, 0 ≤ i ∧ i < 0 + m ∧ target = BitVec.ofNat 32 i * elsize) :
    target.toNat + elsize.toNat ≤ nodesize.toNat := by
  obtain ⟨i, -, hi, rfl⟩ := hplace
  have hle : (i + 1) * elsize.toNat ≤ m * elsize.toNat := Nat.mul_le_mul_right _ (by omega)
  rw [Nat.add_mul, Nat.one_mul] at hle
  by_cases h0 : elsize.toNat = 0
  · rw [toNat_place (by rw [h0]; exact Nat.two_pow_pos 32), h0, Nat.mul_zero]
    exact Nat.zero_le _
  · rw [toNat_place (by omega)]
    omega

/-- Every element that is decoded lies inside the allocated bytes if and only if they are room for them all, or one of
those that they hold fails. -/
theorem xdrArray_inside_iff (elproc : σ → Bool × σ) (ops : Ops σ) (maxsize elsize : BitVec 32) (s : σ) :
    (xdrArrayAlloc elproc ops maxsize elsize s).Inside elsize ↔ Roomy elproc ops maxsize elsize s := by
  unfold xdrArrayAlloc Roomy
  cases hget : ops.getlong s with
  | none => exact iff_of_true (fun _ hmem => absurd hmem not_mem_nil) fun _ _ heq => nomatch heq
  | some r =>
    obtain ⟨c, s'⟩ := r
    dsimp only
    by_cases hmax : c > maxsize
    · rw [if_pos hmax]
      refine iff_of_true (fun _ hmem => absurd hmem not_mem_nil) ?_
      intro c1 s1 heq hle
      obtain ⟨rfl, -⟩ := Prod.mk.injEq .. ▸ Option.some_inj.mp heq
      exact absurd hle (BitVec.not_le.mpr hmax)
    rw [if_neg hmax]
    have hcond : (∀ c1 s1, some (c, s') = some (c1, s1) → c1 ≤ maxsize →
        c1.toNat * elsize.toNat < 2 ^ 32 ∨ FailsWithin elproc ((c1 * elsize).toNat / elsize.toNat) s1) ↔
        (c.toNat * elsize.toNat < 2 ^ 32 ∨ FailsWithin elproc ((c * elsize).toNat / elsize.toNat) s') := by
      constructor
      · exact fun hall => hall c s' rfl (BitVec.not_lt.mp hmax)
      · intro hone c1 s1 heq _
        obtain ⟨rfl, rfl⟩ := Prod.mk.injEq .. ▸ Option.some_inj.mp heq
        exact hone
    rw [hcond]
    by_cases h0 : c = 0
    · rw [if_pos h0]
      refine iff_of_true (fun _ hmem => absurd hmem not_mem_nil) (.inl ?_)
      rw [h0]
      change 0 * elsize.toNat < 2 ^ 32
      rw [Nat.zero_mul]
      exact Nat.two_pow_pos 32
    rw [if_neg h0]
    have hstart : (0 : BitVec 32) = BitVec.ofNat 32 0 * elsize := (BitVec.zero_mul).symm
    rw [hstart]
    constructor
    · intro hinside
      by_contra hno
      obtain ⟨hwrap, hok⟩ := not_or.mp hno
      have hpos : 0 < elsize.toNat := by
        by_contra hzero
        rw [Nat.eq_zero_of_not_pos hzero, Nat.mul_zero] at hwrap
        exact hwrap (Nat.two_pow_pos 32)
      set m := (c * elsize).toNat / elsize.toNat with hm
      have hfits : m * elsize.toNat ≤ (c * elsize).toNat := Nat.div_mul_le_self _ _
      have hover : (c * elsize).toNat < (m + 1) * elsize.toNat := by
        rw [Nat.mul_comm]
        exact Nat.lt_mul_div_succ _ hpos
      have hmc : m < c.toNat := by
        by_contra hge
        have hmul : c.toNat * elsize.toNat ≤ m * elsize.toNat := Nat.mul_le_mul_right _ (not_lt.mp hge)
        omega
      have hlast := hinside _ (arrayLoop_reaches hok hmc)
      rw [toNat_place (by rw [Nat.zero_add]; omega), Nat.zero_add] at hlast
      change m * elsize.toNat + elsize.toNat ≤ (c * elsize).toNat at hlast
      rw [Nat.add_mul, Nat.one_mul] at hover
      omega
    · rintro (hfits | hfail) target hmem
      · have hplace := arrayLoop_places hmem
        refine inside_of_places ?_ hplace
        rw [BitVec.toNat_mul, Nat.mod_eq_of_lt hfits]
      · exact inside_of_places (Nat.div_mul_le_self _ _) (arrayLoop_fails hfail hmem)

/-- `xdr_int` as an element routine of a stream in memory. -/
def memInt (s : Mem) : Bool × Mem :=
  match xdrmemGetlong s with
  | some (_, s) => (true, s)
  | none => (false, s)

/-- A count of `2 ^ 30 + 1` integers leaves room for one, and two are decoded. -/
theorem xdrArray_not_inside : ¬∀ (elproc : Mem → Bool × Mem) (maxsize elsize : BitVec 32) (buf : List Lib.Byte),
    (xdrArrayAlloc elproc xdrmemOps maxsize elsize (xdrmemCreate buf)).Inside elsize := by
  intro hall
  have hinside := hall memInt 0xffffffff 4 [0x40, 0, 0, 1, 0, 0, 0, 7, 0, 0, 0, 8]
  have hmem : BitVec.ofNat 32 (0 + 1) * 4 ∈
      (arrayLoop memInt 4 (2 ^ 30 + 1) ((xdrmemCreate [0x40, 0, 0, 1, 0, 0, 0, 7, 0, 0, 0, 8]).skip 4)
        (BitVec.ofNat 32 0 * 4)).1 := by
    refine arrayLoop_reaches ?_ (by decide)
    rintro (hfail | hnone)
    · revert hfail
      decide
    · exact hnone
  have hlast := hinside _ hmem
  revert hlast
  decide

end Inside

end Solaris.Xdr
