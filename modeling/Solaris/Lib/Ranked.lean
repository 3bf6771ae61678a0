import Mathlib.Data.List.Basic
import Mathlib.Data.List.Pairwise

/-!
# Lists in order of rank

A list whose ranks never rise, with the elements of one rank in an order of their own: the list of a queue with
priorities.
-/

namespace Solaris.Lib

open List Option Nat

variable {α : Type} {r : α → Nat} {l pre post : List α} {x : α} {k t : Nat}

def Ranked (r : α → Nat) (l : List α) : Prop := l.Pairwise fun a b => r b ≤ r a

def ofRank (r : α → Nat) (k : Nat) (l : List α) : List α := l.filter fun a => r a = k

lemma mem_ofRank {a : α} : a ∈ ofRank r k l ↔ a ∈ l ∧ r a = k := by
  simp [ofRank]

lemma ofRank_append (l l' : List α) : ofRank r k (l ++ l') = ofRank r k l ++ ofRank r k l' :=
  filter_append ..

lemma ofRank_eq_nil (h : ∀ a ∈ l, r a ≠ k) : ofRank r k l = [] := by
  refine filter_eq_nil_iff.mpr ?_
  intro a ha
  simpa using h a ha

lemma ofRank_eq_self (h : ∀ a ∈ l, r a = k) : ofRank r k l = l := by
  refine filter_eq_self.mpr ?_
  intro a ha
  simpa using h a ha

lemma Ranked.split (h : Ranked r l) (t : Nat) :
    ∃ pre post, l = pre ++ post ∧ (∀ a ∈ pre, t ≤ r a) ∧ ∀ a ∈ post, r a < t := by
  induction l with
  | nil => exact ⟨[], [], rfl, by simp, by simp⟩
  | cons a l ih =>
    obtain ⟨ha, hl⟩ := pairwise_cons.mp h
    by_cases hat : t ≤ r a
    · obtain ⟨pre, post, rfl, hpre, hpost⟩ := ih hl
      exact ⟨a :: pre, post, rfl, forall_mem_cons.mpr ⟨hat, hpre⟩, hpost⟩
    · rw [Nat.not_le] at hat
      refine ⟨[], a :: l, rfl, by simp, ?_⟩
      refine forall_mem_cons.mpr ⟨hat, ?_⟩
      intro b hb
      exact Nat.lt_of_le_of_lt (ha b hb) hat

lemma Ranked.sublist {l' : List α} (h : Ranked r l) (hl : l'.Sublist l) : Ranked r l' := List.Pairwise.sublist hl h

lemma Ranked.insert (h : Ranked r (pre ++ post)) (hpre : ∀ a ∈ pre, r x ≤ r a) (hpost : ∀ a ∈ post, r a ≤ r x) :
    Ranked r (pre ++ x :: post) := by
  obtain ⟨h1, h2, h3⟩ := pairwise_append.mp h
  refine pairwise_append.mpr ⟨h1, pairwise_cons.mpr ⟨hpost, h2⟩, ?_⟩
  intro a ha b hb
  rcases mem_cons.mp hb with rfl | hb
  · exact hpre a ha
  · exact h3 a ha b hb

lemma Ranked.before (h : Ranked r (pre ++ x :: post)) {a : α} (ha : a ∈ pre) : r x ≤ r a :=
  (pairwise_append.mp h).2.2 a ha x (mem_cons_self ..)

lemma Ranked.behind (h : Ranked r (pre ++ x :: post)) {a : α} (ha : a ∈ post) : r a ≤ r x :=
  (pairwise_cons.mp (pairwise_append.mp h).2.1).1 a ha

lemma ofRank_cons_self (x : α) (l : List α) : ofRank r (r x) (x :: l) = x :: ofRank r (r x) l :=
  filter_cons_of_pos (by simp)

lemma ofRank_cons_of_ne (h : r x ≠ k) (l : List α) : ofRank r k (x :: l) = ofRank r k l :=
  filter_cons_of_neg (by simpa using h)

lemma ofRank_middle_of_ne (h : r x ≠ k) (pre post : List α) :
    ofRank r k (pre ++ x :: post) = ofRank r k (pre ++ post) := by
  rw [ofRank_append, ofRank_cons_of_ne h, ofRank_append]

lemma ofRank_behind (hpost : ∀ a ∈ post, r a < r x) :
    ofRank r (r x) (pre ++ x :: post) = ofRank r (r x) (pre ++ post) ++ [x] := by
  have hnil : ofRank r (r x) post = [] := ofRank_eq_nil fun a ha => Nat.ne_of_lt (hpost a ha)
  rw [ofRank_append, ofRank_cons_self, ofRank_append, hnil, append_nil]

lemma ofRank_before (hpre : ∀ a ∈ pre, r x < r a) :
    ofRank r (r x) (pre ++ x :: post) = x :: ofRank r (r x) (pre ++ post) := by
  have hnil : ofRank r (r x) pre = [] := ofRank_eq_nil fun a ha => Nat.ne_of_gt (hpre a ha)
  rw [ofRank_append, ofRank_cons_self, ofRank_append, hnil]
  rfl

lemma Ranked.above (h : Ranked r (pre ++ x :: post)) (hlast : ∀ y ∈ pre.getLast?, r y ≠ r x) :
    ∀ a ∈ pre, r x < r a := by
  rcases eq_nil_or_concat' pre with rfl | ⟨pre, y, rfl⟩
  · simp
  have hxy : r x < r y := by
    have hle : r x ≤ r y := h.before (by simp)
    have hne : r y ≠ r x := hlast y (by simp)
    omega
  intro a ha
  rcases mem_append.mp ha with ha | ha
  · rw [append_assoc] at h
    exact Nat.lt_of_lt_of_le hxy (h.before ha)
  · rw [mem_singleton.mp ha]
    exact hxy

lemma Ranked.below (h : Ranked r (pre ++ x :: post)) (hhead : ∀ y ∈ post.head?, r y ≠ r x) :
    ∀ a ∈ post, r a < r x := by
  cases post with
  | nil => simp
  | cons y post =>
    have hyx : r y < r x := by
      have hle : r y ≤ r x := h.behind (mem_cons_self ..)
      have hne : r y ≠ r x := hhead y rfl
      omega
    refine forall_mem_cons.mpr ⟨hyx, fun a ha => ?_⟩
    rw [append_cons] at h
    exact Nat.lt_of_le_of_lt (h.behind ha) hyx

lemma Ranked.le_of_getLast (h : Ranked r l) (hlast : ∀ y ∈ l.getLast?, k ≤ r y) : ∀ a ∈ l, k ≤ r a := by
  rcases eq_nil_or_concat' l with rfl | ⟨l, y, rfl⟩
  · simp
  · intro a ha
    rcases mem_append.mp ha with ha | ha
    · exact Nat.le_trans (hlast y (by simp)) (h.before ha)
    · rw [mem_singleton.mp ha]
      exact hlast y (by simp)

lemma Ranked.le_of_head (h : Ranked r l) (hhead : ∀ y ∈ l.head?, r y ≤ k) : ∀ a ∈ l, r a ≤ k := by
  cases l with
  | nil => simp
  | cons y l =>
    intro a ha
    rcases mem_cons.mp ha with rfl | ha
    · exact hhead a rfl
    · exact Nat.le_trans ((pairwise_cons.mp h).1 a ha) (hhead y rfl)

lemma ofRank_between {y z : α} (hy : y ∈ pre) (hry : r y = r x) (hz : z ∈ post) (hrz : r z = r x) :
    (ofRank r (r x) (pre ++ x :: post)).head? = (ofRank r (r x) (pre ++ post)).head? ∧
      (ofRank r (r x) (pre ++ x :: post)).getLast? = (ofRank r (r x) (pre ++ post)).getLast? := by
  have hpre : ofRank r (r x) pre ≠ [] := ne_nil_of_mem (mem_ofRank.mpr ⟨hy, hry⟩)
  have hpost : ofRank r (r x) post ≠ [] := ne_nil_of_mem (mem_ofRank.mpr ⟨hz, hrz⟩)
  rw [ofRank_append, ofRank_append, ofRank_cons_self]
  refine ⟨?_, ?_⟩
  · rw [head?_append_of_ne_nil _ hpre, head?_append_of_ne_nil _ hpre]
  · rw [getLast?_append_of_ne_nil _ (cons_ne_nil _ _), getLast?_append_of_ne_nil _ hpost,
      getLast?_cons_of_ne_nil hpost]

lemma Ranked.together (h : Ranked r l) (k : Nat) :
    ∃ pre post, l = pre ++ (ofRank r k l ++ post) ∧ (∀ a ∈ pre, k < r a) ∧ ∀ a ∈ post, r a < k := by
  obtain ⟨pre, rest, hl, hpre, hrest⟩ := h.split (k + 1)
  obtain ⟨mid, post, hmid, hge, hpost⟩ := (h.sublist (hl ▸ sublist_append_right ..)).split k
  have hk : ofRank r k l = mid := by
    rw [hl, hmid, ofRank_append, ofRank_append, ofRank_eq_nil, ofRank_eq_self, ofRank_eq_nil]
    · simp
    · intro a ha
      exact Nat.ne_of_lt (hpost a ha)
    · intro a ha
      have := hge a ha
      have := hrest a (hmid ▸ mem_append_left _ ha)
      omega
    · intro a ha
      exact Nat.ne_of_gt (hpre a ha)
  rw [hk]
  exact ⟨pre, post, by rw [hl, hmid], hpre, hpost⟩

lemma Ranked.head?_behind (h : Ranked r (pre ++ x :: post)) :
    (ofRank r (r x) post).head? = post.head?.filter fun a => r a = r x := by
  cases post with
  | nil => rfl
  | cons y post =>
    have hyx : r y ≤ r x := h.behind (mem_cons_self ..)
    rw [head?_cons]
    by_cases hy : r y = r x
    · rw [filter_some_pos (by simpa using hy)]
      have hcons : ofRank r (r x) (y :: post) = y :: ofRank r (r x) post := filter_cons_of_pos (by simpa using hy)
      rw [hcons, head?_cons]
    rw [filter_some_neg (by simpa using hy), ofRank_eq_nil]
    · rfl
    · refine forall_mem_cons.mpr ⟨hy, fun a ha => ?_⟩
      rw [append_cons] at h
      have := h.behind ha
      omega

lemma Ranked.getLast?_before (h : Ranked r (pre ++ x :: post)) :
    (ofRank r (r x) pre).getLast? = pre.getLast?.filter fun a => r a = r x := by
  rcases eq_nil_or_concat' pre with rfl | ⟨pre, y, rfl⟩
  · rfl
  have hyx : r x ≤ r y := h.before (by simp)
  rw [getLast?_concat, ofRank_append]
  by_cases hy : r y = r x
  · rw [filter_some_pos (by simpa using hy), ofRank_eq_self (l := [y]), getLast?_concat]
    intro a ha
    rw [mem_singleton.mp ha, hy]
  rw [filter_some_neg (by simpa using hy), ofRank_eq_nil, ofRank_eq_nil]
  · rfl
  · intro a ha
    rw [mem_singleton.mp ha]
    exact hy
  · intro a ha
    rw [append_assoc] at h
    have := h.before (x := y) ha
    omega

end Solaris.Lib
