import Mathlib.Tactic

/-!
# Bit maps

An array of words read and written bit by bit, the set of its clear bits, and searches that read
one entry after another.
-/

namespace Solaris.Lib

open Nat Function Option Finset

variable {w : Nat}

abbrev Bitmap (w : Nat) : Type := List (BitVec w)

namespace Bitmap

open List

/-- `none` is a read outside of the map. -/
def test? (map : Bitmap w) (i : Nat) : Option Bool := map[i / w]?.map fun x => x.getLsbD (i % w)

def set (map : Bitmap w) (i : Nat) : Bitmap w :=
  map.modify (i / w) fun x => x ||| BitVec.twoPow w (i % w)

def unset (map : Bitmap w) (i : Nat) : Bitmap w :=
  map.modify (i / w) fun x => x &&& ~~~BitVec.twoPow w (i % w)

def clear (map : Bitmap w) : Finset Nat :=
  (Finset.range (w * map.length)).filter fun i => map.test? i = some false

section Bits

variable {map : Bitmap w} {i j : Nat}

@[simp] lemma length_set : (map.set i).length = map.length := length_modify _ _ _

@[simp] lemma length_unset : (map.unset i).length = map.length := length_modify _ _ _

lemma eq_of_div_mod (hd : i / w = j / w) (hm : i % w = j % w) : i = j := by
  rw [← div_add_mod i w, ← div_add_mod j w, hd, hm]

variable [NeZero w]

lemma word_lt_iff : i / w < map.length ↔ i < w * map.length := by
  rw [div_lt_iff_lt_mul (NeZero.pos w), mul_comm]

lemma test?_inside (hi : i < w * map.length) : ∃ b, map.test? i = some b := by
  unfold test?
  rw [getElem?_eq_getElem (word_lt_iff.mpr hi)]
  exact ⟨_, rfl⟩

lemma lt_of_test? {b : Bool} (h : map.test? i = some b) : i < w * map.length := by
  unfold test? at h
  rw [map_eq_some_iff] at h
  obtain ⟨x, hx, -⟩ := h
  exact word_lt_iff.mp (List.getElem?_eq_some_iff.mp hx).1

lemma mem_clear : i ∈ map.clear ↔ map.test? i = some false := by
  unfold clear
  rw [Finset.mem_filter, Finset.mem_range]
  exact ⟨fun h => h.2, fun h => ⟨lt_of_test? h, h⟩⟩

lemma test?_set : (map.set i).test? j = (map.test? j).map fun b => b || decide (j = i) := by
  unfold test? set
  rw [getElem?_modify, Option.map_eq_map]
  have hlt : i % w < w := mod_lt _ (NeZero.pos w)
  by_cases hd : i / w = j / w
  · simp only [if_pos hd, Option.map_map]
    congr 1
    funext x
    simp only [comp_apply, BitVec.getLsbD_or, BitVec.getLsbD_twoPow, hlt, decide_true,
      Bool.true_and]
    congr 1
    rw [decide_eq_decide]
    exact ⟨fun hm => (eq_of_div_mod hd hm).symm, fun h => by rw [h]⟩
  · simp only [if_neg hd, Option.map_map]
    have hne : j ≠ i := fun h => hd (by rw [h])
    congr 1
    funext x
    simp [hne]

lemma test?_unset : (map.unset i).test? j = (map.test? j).map fun b => b && decide (j ≠ i) := by
  unfold test? unset
  rw [getElem?_modify, Option.map_eq_map]
  have hlt : i % w < w := mod_lt _ (NeZero.pos w)
  have hlt' : j % w < w := mod_lt _ (NeZero.pos w)
  by_cases hd : i / w = j / w
  · simp only [if_pos hd, Option.map_map]
    congr 1
    funext x
    simp only [comp_apply, BitVec.getLsbD_and, BitVec.getLsbD_not, BitVec.getLsbD_twoPow, hlt,
      hlt', decide_true, Bool.true_and]
    congr 1
    rw [← decide_not, decide_eq_decide]
    exact ⟨fun hm h => hm (by rw [h]), fun h hm => h (eq_of_div_mod hd hm).symm⟩
  · simp only [if_neg hd, Option.map_map]
    have hne : j ≠ i := fun h => hd (by rw [h])
    congr 1
    funext x
    simp [hne]

lemma clear_set : (map.set i).clear = map.clear.erase i := by
  ext j
  rw [mem_erase, mem_clear, mem_clear, test?_set]
  cases map.test? j with
  | none => simp
  | some b => simp [and_comm]

lemma clear_unset (hi : i < w * map.length) : (map.unset i).clear = insert i map.clear := by
  ext j
  rw [mem_insert, mem_clear, mem_clear, test?_unset]
  by_cases hj : j = i
  · subst hj
    obtain ⟨b, hb⟩ := test?_inside hi
    simp [hb]
  · cases map.test? j with
    | none => simp [hj]
    | some b => simp [hj]

lemma unset_set (hi : i ∈ map.clear) : (map.set i).unset i = map := by
  unfold set unset
  apply ext_getElem?
  intro k
  rw [getElem?_modify, getElem?_modify, Option.map_eq_map, Option.map_eq_map]
  by_cases hk : i / w = k
  · simp only [if_pos hk, Option.map_map]
    cases hx : map[k]? with
    | none => rfl
    | some x =>
      rw [mem_clear] at hi
      unfold test? at hi
      rw [hk, hx, Option.map_some, Option.some.injEq] at hi
      rw [Option.map_some, Option.some.injEq]
      apply BitVec.eq_of_getLsbD_eq
      intro m hm
      simp only [comp_apply, BitVec.getLsbD_and, BitVec.getLsbD_or, BitVec.getLsbD_not,
        BitVec.getLsbD_twoPow, hm, decide_true, Bool.true_and]
      by_cases hmi : i % w = m
      · rw [hmi] at hi
        simp [hmi, hi]
      · simp [hmi]
  · simp only [if_neg hk, Option.map_id_fun', id]

lemma exists_clear {k : Nat} {x : BitVec w} (hx : map[k]? = some x) (hne : x ≠ BitVec.allOnes w) :
    ∃ b < w, k * w + b ∈ map.clear := by
  by_contra hno
  push Not at hno
  apply hne
  apply BitVec.eq_of_getLsbD_eq
  intro b hb
  have hnot := hno b hb
  rw [mem_clear] at hnot
  unfold test? at hnot
  have hdiv : (k * w + b) / w = k := by
    rw [mul_comm, mul_add_div (NeZero.pos w), div_eq_of_lt hb, add_zero]
  have hmod : (k * w + b) % w = b := by
    rw [mul_comm, mul_add_mod, mod_eq_of_lt hb]
  rw [hdiv, hmod, hx, map_some, some.injEq, Bool.not_eq_false] at hnot
  rw [hnot, BitVec.getLsbD_allOnes, decide_eq_true hb]

lemma word_ne_allOnes (hi : i ∈ map.clear) : ∃ x, map[i / w]? = some x ∧ x ≠ BitVec.allOnes w := by
  rw [mem_clear] at hi
  unfold test? at hi
  rw [map_eq_some_iff] at hi
  obtain ⟨x, hx, hb⟩ := hi
  refine ⟨x, hx, ?_⟩
  rintro rfl
  rw [BitVec.getLsbD_allOnes, decide_eq_false_iff_not] at hb
  exact hb (mod_lt _ (NeZero.pos w))

end Bits

end Bitmap

section Scan

variable {read : Nat → Option Bool} {start n : Nat}

/-- The first place from `start` on, among `n`, where `read` answers yes. -/
def scan (read : Nat → Option Bool) (start : Nat) : Nat → Option (Option Nat)
  | 0 => some none
  | n + 1 =>
    match read start with
    | none => none
    | some true => some (some start)
    | some false => scan read (start + 1) n

lemma scan_spec (h : ∀ j, start ≤ j → j < start + n → ∃ b, read j = some b) :
    (scan read start n = some none ∧ ∀ j, start ≤ j → j < start + n → read j = some false) ∨
      ∃ j, scan read start n = some (some j) ∧ start ≤ j ∧ j < start + n ∧ read j = some true := by
  induction n generalizing start with
  | zero => exact .inl ⟨rfl, fun j h1 h2 => by omega⟩
  | succ n ih =>
    obtain ⟨b, hb⟩ := h start le_rfl (by omega)
    cases b with
    | true =>
      refine .inr ⟨start, ?_, le_rfl, by omega, hb⟩
      simp [scan, hb]
    | false =>
      have hscan : scan read start (n + 1) = scan read (start + 1) n := by simp [scan, hb]
      rw [hscan]
      rcases @ih (start + 1) (fun j h1 h2 => h j (by omega) (by omega)) with ⟨hs, hall⟩ | ⟨j, hs, h1, h2, hj⟩
      · refine .inl ⟨hs, ?_⟩
        intro j h1 h2
        rcases lt_or_ge start j with hlt | hge
        · exact hall j hlt (by omega)
        · have heq : j = start := by omega
          rw [heq, hb]
      · exact .inr ⟨j, hs, by omega, by omega, hj⟩

end Scan

end Solaris.Lib
