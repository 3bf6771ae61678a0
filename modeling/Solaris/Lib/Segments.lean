import Mathlib.Data.List.TakeWhile
import Mathlib.Tactic

/-!
# Lists kept in segments

A list whose elements carry a key is segmented when the elements of each key stand next to each other.
-/

namespace Solaris.Lib

open List

variable {α κ : Type}

/-- `mid` holds exactly the elements of `l` with key `k`. -/
structure Segment (key : α → κ) (k : κ) (l pre mid post : List α) : Prop where
  split : l = pre ++ (mid ++ post)
  mid_key : ∀ a ∈ mid, key a = k
  pre_key : ∀ a ∈ pre, key a ≠ k
  post_key : ∀ a ∈ post, key a ≠ k

variable {key : α → κ} {k k' : κ} {l pre mid mid' post p m q : List α}

lemma Segment.mem_mid (h : Segment key k l pre mid post) {a : α} : a ∈ mid ↔ a ∈ l ∧ key a = k := by
  constructor
  · intro ha
    refine ⟨?_, h.mid_key a ha⟩
    rw [h.split]
    simp [ha]
  · rintro ⟨ha, hk⟩
    rw [h.split] at ha
    rcases mem_append.mp ha with hp | hmp
    · exact absurd hk (h.pre_key a hp)
    rcases mem_append.mp hmp with hm | hp
    · exact hm
    · exact absurd hk (h.post_key a hp)

lemma Segment.empty (h : ∀ a ∈ l, key a ≠ k) : Segment key k l l [] [] :=
  ⟨by simp, by simp, h, by simp⟩

section

variable (h : Segment key k l pre mid post)

include h

lemma Segment.replace (hm : ∀ a ∈ mid', key a = k) :
    Segment key k (pre ++ (mid' ++ post)) pre mid' post :=
  ⟨rfl, hm, h.pre_key, h.post_key⟩

lemma Segment.replace_other (hne : mid ≠ [] ∨ post = [])
    (hm : ∀ a ∈ mid', key a = k) (hk : k' ≠ k) (h' : Segment key k' l p m q) :
    ∃ p' q', Segment key k' (pre ++ (mid' ++ post)) p' m q' := by
  have hmid' : ∀ a ∈ mid', key a ≠ k' := fun a ha he => hk (he.symm.trans (hm a ha))
  have hmid : ∀ a ∈ mid, key a ≠ k' := fun a ha he => hk (he.symm.trans (h.mid_key a ha))
  by_cases hm0 : m = []
  · subst hm0
    refine ⟨_, [], Segment.empty ?_⟩
    have hl : ∀ a ∈ l, key a ≠ k' := by
      intro a ha hak
      simpa using h'.mem_mid.mpr ⟨ha, hak⟩
    rw [h.split] at hl
    intro a ha
    simp only [mem_append] at ha hl
    rcases ha with ha | ha | ha
    · exact hl a (.inl ha)
    · exact hmid' a ha
    · exact hl a (.inr (.inr ha))
  have he : pre ++ (mid ++ post) = p ++ (m ++ q) := h.split.symm.trans h'.split
  rcases append_eq_append_iff.mp he with ⟨a, hp, hr⟩ | ⟨c, hpre, hr⟩
  · rcases append_eq_append_iff.mp hr with ⟨b, ha, hpost⟩ | ⟨c, hmid2, hmq⟩
    · refine ⟨pre ++ (mid' ++ b), q, ?_, h'.mid_key, ?_, h'.post_key⟩
      · rw [hpost]; simp
      · have hpk := h'.pre_key
        rw [hp, ha] at hpk
        intro x hx
        simp only [mem_append] at hx hpk
        rcases hx with hx | hx | hx
        · exact hpk x (.inl hx)
        · exact hmid' x hx
        · exact hpk x (.inr (.inr hx))
    · cases c with
      | nil =>
        simp only [nil_append] at hmq
        refine ⟨pre ++ mid', q, ?_, h'.mid_key, ?_, h'.post_key⟩
        · rw [← hmq]; simp
        · have hpk := h'.pre_key
          rw [hp] at hpk
          intro x hx
          simp only [mem_append] at hx hpk
          rcases hx with hx | hx
          · exact hpk x (.inl hx)
          · exact hmid' x hx
      | cons y c =>
        obtain ⟨z, ms, rfl⟩ := exists_cons_of_ne_nil hm0
        have hyz : z = y := by simpa using (cons.inj hmq).1
        exact absurd (h'.mid_key z (by simp)) (hyz ▸ hmid y (by simp [hmid2]))
  · rcases append_eq_append_iff.mp hr with ⟨a, hc, hq⟩ | ⟨d, hm2, hmp⟩
    · refine ⟨p, a ++ (mid' ++ post), ?_, h'.mid_key, h'.pre_key, ?_⟩
      · rw [hpre, hc]; simp
      · have hqk := h'.post_key
        rw [hq] at hqk
        intro x hx
        simp only [mem_append] at hx hqk
        rcases hx with hx | hx | hx
        · exact hqk x (.inl hx)
        · exact hmid' x hx
        · exact hqk x (.inr (.inr hx))
    · cases d with
      | nil =>
        simp only [nil_append] at hmp
        refine ⟨p, mid' ++ post, ?_, h'.mid_key, h'.pre_key, ?_⟩
        · rw [hpre, hm2]; simp
        · have hqk := h'.post_key
          rw [← hmp] at hqk
          intro x hx
          simp only [mem_append] at hx hqk
          rcases hx with hx | hx
          · exact hmid' x hx
          · exact hqk x (.inr hx)
      | cons y d =>
        have hy : key y = k' := h'.mid_key y (by simp [hm2])
        rcases hne with hne | hne
        · obtain ⟨z, ms, rfl⟩ := exists_cons_of_ne_nil hne
          have hyz : z = y := by simpa using (cons.inj hmp).1
          exact absurd hy (hyz ▸ hmid z (by simp))
        subst hne
        cases mid with
        | nil => simp at hmp
        | cons z ms =>
          have hyz : z = y := by simpa using (cons.inj hmp).1
          exact absurd hy (hyz ▸ hmid z (by simp))

lemma Segment.takeWhile_ne [DecidableEq α] {a : α} (ha : key a = k) :
    l.takeWhile (· ≠ a) = pre ++ (mid ++ post).takeWhile (· ≠ a) := by
  rw [h.split, takeWhile_append_of_pos]
  intro x hx
  have : x ≠ a := fun he => h.pre_key x hx (he ▸ ha)
  simpa using this

lemma Segment.dropWhile_ne [DecidableEq α] {a : α} (ha : key a = k) :
    l.dropWhile (· ≠ a) = (mid ++ post).dropWhile (· ≠ a) := by
  rw [h.split, dropWhile_append_of_pos]
  intro x hx
  have : x ≠ a := fun he => h.pre_key x hx (he ▸ ha)
  simpa using this

end

lemma Segment.takeWhile_key [DecidableEq κ] (hm : ∀ a ∈ mid, key a = k) (hp : ∀ a ∈ post, key a ≠ k) :
    (mid ++ post).takeWhile (fun a => key a = k) = mid := by
  rw [takeWhile_append_of_pos (by simpa using hm)]
  cases post with
  | nil => simp
  | cons b post => simp [hp b (by simp)]

lemma Segment.filter_key [DecidableEq κ] (h : Segment key k l pre mid post) : l.filter (fun a => key a = k) = mid := by
  have hpre : pre.filter (fun a => key a = k) = [] :=
    filter_eq_nil_iff.mpr (by simpa using h.pre_key)
  have hpost : post.filter (fun a => key a = k) = [] :=
    filter_eq_nil_iff.mpr (by simpa using h.post_key)
  have hmid : mid.filter (fun a => key a = k) = mid := filter_eq_self.mpr (by simpa using h.mid_key)
  rw [h.split, filter_append, filter_append, hpre, hpost, hmid]
  simp

lemma Segment.of_sorted {key : α → Nat} (k : Nat) (h : l.Pairwise (fun a b => key a ≤ key b)) :
    Segment key k l (l.filter (key · < k)) (l.filter (key · = k)) (l.filter (k < key ·)) := by
  refine ⟨?_, ?_, ?_, ?_⟩
  · induction l with
    | nil => rfl
    | cons a l ih =>
      rw [pairwise_cons] at h
      have hl := ih h.2
      have hnil : ∀ p : α → Bool, (∀ b ∈ l, p b = false) → l.filter p = [] := by
        intro p hp
        rw [filter_eq_nil_iff]
        intro b hb
        simp [hp b hb]
      rcases lt_trichotomy (key a) k with ha | ha | ha
      · have h1 : ¬key a = k := by omega
        have h2 : ¬k < key a := by omega
        simp only [ha, h1, h2, decide_true, decide_false, Bool.false_eq_true, not_false_eq_true, filter_cons_of_pos,
          filter_cons_of_neg, cons_append]
        rw [← hl]
      · have h3 := hnil (fun b => decide (key b < k)) (fun b hb => by have := h.1 b hb; simp; omega)
        rw [h3, nil_append] at hl
        simp only [ha, lt_irrefl, decide_true, decide_false, Bool.false_eq_true, not_false_eq_true,
          filter_cons_of_pos, filter_cons_of_neg, cons_append, h3, nil_append]
        rw [← hl]
      · have h1 : ¬key a < k := by omega
        have h2 : ¬key a = k := by omega
        have h3 := hnil (fun b => decide (key b < k)) (fun b hb => by have := h.1 b hb; simp; omega)
        have h4 := hnil (fun b => decide (key b = k)) (fun b hb => by have := h.1 b hb; simp; omega)
        rw [h3, h4, nil_append, nil_append] at hl
        simp only [ha, h1, h2, decide_true, decide_false, Bool.false_eq_true, not_false_eq_true,
          filter_cons_of_pos, filter_cons_of_neg, h3, h4, nil_append]
        rw [← hl]
  · intro a ha
    simpa using (mem_filter.mp ha).2
  · intro a ha
    have hk : key a < k := by simpa using (mem_filter.mp ha).2
    exact ne_of_lt hk
  · intro a ha
    have hk : k < key a := by simpa using (mem_filter.mp ha).2
    exact ne_of_gt hk

lemma Segment.find?_key [DecidableEq κ] (h : Segment key k l pre mid post) : l.find? (fun a => key a = k) = mid.head? := by
  have hpre : pre.find? (fun a => key a = k) = none := by
    simpa using h.pre_key
  have hpost : post.find? (fun a => key a = k) = none := by
    simpa using h.post_key
  rw [h.split, find?_append, find?_append, hpre, hpost]
  cases mid with
  | nil => rfl
  | cons a mid => simp [h.mid_key a (by simp)]

lemma le_of_mem_dropWhile {key : α → Nat} (k : Nat) (h : l.Pairwise (fun a b => key a ≤ key b)) {a : α}
    (ha : a ∈ l.dropWhile (key · < k)) : k ≤ key a := by
  induction l with
  | nil => simp at ha
  | cons b l ih =>
    rw [pairwise_cons] at h
    by_cases hb : key b < k
    · rw [dropWhile_cons_of_pos (by simpa using hb)] at ha
      exact ih h.2 ha
    · rw [dropWhile_cons_of_neg (by simpa using hb)] at ha
      rcases mem_cons.mp ha with rfl | ha
      · omega
      · have := h.1 a ha
        omega

end Solaris.Lib
