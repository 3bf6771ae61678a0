import Mathlib.Data.List.TakeWhile
import Mathlib.Tactic

/-!
# Sorted disjoint intervals

A list of things that each take up the points from a start to a stop, in order and apart.
-/

namespace Solaris.Lib

open List

variable {α : Type} {start stop : α → Nat} {l pre post : List α} {x y : α} {a : Nat}

structure Apart (start stop : α → Nat) (l : List α) : Prop where
  ordered : l.Pairwise fun x y => stop x ≤ start y
  pos : ∀ x ∈ l, start x < stop x

structure CutAt (stop : α → Nat) (a : Nat) (pre post : List α) : Prop where
  low : ∀ x ∈ pre, stop x ≤ a
  high : ∀ x ∈ post, a < stop x

def Overlap (start stop : α → Nat) (x y : α) : Prop := start x < stop y ∧ start y < stop x

lemma Apart.nodup (h : Apart start stop l) : l.Nodup := by
  refine List.Pairwise.imp_of_mem ?_ h.ordered
  rintro x y hx - hle rfl
  have := h.pos x hx
  omega

lemma Apart.sublist {l' : List α} (h : Apart start stop l) (hs : l'.Sublist l) : Apart start stop l' :=
  ⟨h.ordered.sublist hs, fun x hx => h.pos x (hs.subset hx)⟩

lemma Apart.congr {start' stop' : α → Nat} (h : Apart start stop l) (hs : ∀ x ∈ l, start' x = start x)
    (he : ∀ x ∈ l, stop' x = stop x) : Apart start' stop' l := by
  refine ⟨List.Pairwise.imp_of_mem ?_ h.ordered, ?_⟩
  · intro x y hx hy hle
    rw [hs y hy, he x hx]
    exact hle
  · intro x hx
    rw [hs x hx, he x hx]
    exact h.pos x hx

lemma Apart.before (h : Apart start stop (pre ++ post)) (hx : x ∈ pre) (hy : y ∈ post) : stop x ≤ start y :=
  (pairwise_append.mp h.ordered).2.2 x hx y hy

lemma Apart.head_before (h : Apart start stop (x :: l)) (hy : y ∈ l) : stop x ≤ start y :=
  (pairwise_cons.mp h.ordered).1 y hy

lemma Apart.stop_lt (h : Apart start stop (pre ++ post)) (hx : x ∈ pre) (hy : y ∈ post) : stop x < stop y := by
  have h1 := h.before hx hy
  have h2 := h.pos y (mem_append_right _ hy)
  omega

lemma exists_cut (h : Apart start stop l) (a : Nat) : ∃ pre post, l = pre ++ post ∧ CutAt stop a pre post := by
  induction l with
  | nil => exact ⟨[], [], rfl, by simp, by simp⟩
  | cons x l ih =>
    by_cases hx : stop x ≤ a
    · obtain ⟨pre, post, rfl, hc⟩ := ih (h.sublist (sublist_cons_self _ _))
      exact ⟨x :: pre, post, rfl, forall_mem_cons.mpr ⟨hx, hc.low⟩, hc.high⟩
    · refine ⟨[], x :: l, rfl, by simp, forall_mem_cons.mpr ⟨by omega, fun y hy => ?_⟩⟩
      have hbefore := h.head_before hy
      have hpos := h.pos y (mem_cons_of_mem _ hy)
      omega

lemma CutAt.unique {pre' post' : List α} (h : CutAt stop a pre post) (h' : CutAt stop a pre' post')
    (heq : pre ++ post = pre' ++ post') : pre = pre' ∧ post = post' := by
  rcases append_eq_append_iff.mp heq with ⟨c, rfl, rfl⟩ | ⟨c, rfl, rfl⟩
  · cases c with
    | nil => simp
    | cons z c =>
      have h1 := h'.low z (by simp)
      have h2 := h.high z (by simp)
      omega
  cases c with
  | nil => simp
  | cons z c =>
    have h1 := h.low z (by simp)
    have h2 := h'.high z (by simp)
    omega

lemma cut_of_neighbours (h : Apart start stop (pre ++ post)) (hlow : ∀ x ∈ pre.getLast?, stop x ≤ a)
    (hhigh : ∀ x ∈ post.head?, a < stop x) : CutAt stop a pre post := by
  constructor
  · intro x hx
    obtain ⟨l, y, rfl⟩ := (eq_nil_or_concat' pre).resolve_left (ne_nil_of_mem hx)
    have hy := hlow y (by simp)
    rcases mem_append.mp hx with hx | hx
    · have := (h.sublist (sublist_append_left _ _)).stop_lt hx (mem_singleton_self y)
      omega
    · rw [mem_singleton.mp hx]
      exact hy
  · intro x hx
    cases post with
    | nil => cases hx
    | cons y post =>
      have hy := hhigh y rfl
      rcases mem_cons.mp hx with rfl | hx
      · exact hy
      · have hbefore := (h.sublist (sublist_append_right _ _)).head_before hx
        have hpos := h.pos x (by simp [hx])
        omega

lemma CutAt.find (h : CutAt stop a pre post) :
    (pre ++ post).find? (fun x => decide (a < stop x)) = post.head? := by
  have hnone : pre.find? (fun x => decide (a < stop x)) = none := by
    rw [find?_eq_none]
    intro x hx
    have := h.low x hx
    simp
    omega
  rw [find?_append, hnone, Option.none_or]
  cases post with
  | nil => rfl
  | cons y post =>
    rw [find?_cons_of_pos (by simpa using h.high y (mem_cons_self ..))]
    rfl

lemma CutAt.overlap_iff (h : CutAt stop (start y) pre post) (hap : Apart start stop (pre ++ post)) :
    (∃ x ∈ pre ++ post, Overlap start stop y x) ↔ ∃ x ∈ post.head?, start x < stop y := by
  constructor
  · rintro ⟨x, hx, h1, h2⟩
    rcases mem_append.mp hx with hx | hx
    · have := h.low x hx
      omega
    cases post with
    | nil => cases hx
    | cons z post =>
      refine ⟨z, rfl, ?_⟩
      rcases mem_cons.mp hx with rfl | hx
      · exact h2
      · have hz := (hap.sublist (sublist_append_right _ _)).head_before hx
        have := hap.pos z (by simp)
        omega
  · rintro ⟨x, hx, hlt⟩
    have hmem : x ∈ post := mem_of_mem_head? hx
    exact ⟨x, mem_append_right _ hmem, h.high x hmem, hlt⟩

lemma Apart.insert (hap : Apart start stop (pre ++ post)) (h : CutAt stop (start y) pre post)
    (hy : start y < stop y) (hfit : ∀ x ∈ post.head?, stop y ≤ start x) : Apart start stop (pre ++ y :: post) := by
  have hpost : ∀ x ∈ post, stop y ≤ start x := by
    intro x hx
    cases post with
    | nil => cases hx
    | cons z post =>
      have hz := hfit z rfl
      rcases mem_cons.mp hx with rfl | hx
      · exact hz
      · have h1 := (hap.sublist (sublist_append_right _ _)).head_before hx
        have h2 := hap.pos z (by simp)
        omega
  obtain ⟨hp1, hp2, hp3⟩ := pairwise_append.mp hap.ordered
  constructor
  · refine pairwise_append.mpr ⟨hp1, pairwise_cons.mpr ⟨hpost, hp2⟩, ?_⟩
    intro x hx z hz
    rcases mem_cons.mp hz with rfl | hz
    · exact h.low x hx
    · exact hp3 x hx z hz
  · refine forall_mem_append.mpr ⟨fun x hx => hap.pos x (mem_append_left _ hx), fun x hx => ?_⟩
    rcases mem_cons.mp hx with rfl | hx
    · exact hy
    · exact hap.pos x (mem_append_right _ hx)

lemma Apart.start_ne (h : Apart start stop (pre ++ y :: post)) (hx : x ∈ pre ++ post) : start x ≠ start y := by
  have hy := h.pos y (by simp)
  rcases mem_append.mp hx with hx | hx
  · have h1 := h.before hx (mem_cons_self ..)
    have h2 := h.pos x (mem_append_left _ hx)
    omega
  · have h1 := (h.sublist (sublist_append_right _ _)).head_before hx
    omega

end Solaris.Lib
