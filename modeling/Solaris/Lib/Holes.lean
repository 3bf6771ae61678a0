import Solaris.Lib.Intervals

/-!
# Holes between intervals

The points that a list of sorted disjoint intervals leaves free below some top fall into maximal intervals.
-/

namespace Solaris.Lib

open List Nat

variable {α : Type} {start stop : α → Nat} {l pre post pre' post' : List α} {x : α} {top lo hi : Nat}

def Covered (start stop : α → Nat) (l : List α) (p : Nat) : Prop := ∃ x ∈ l, start x ≤ p ∧ p < stop x

/-- A maximal interval of free points below `top`. -/
structure IsHole (start stop : α → Nat) (l : List α) (top lo hi : Nat) : Prop where
  lt : lo < hi
  le_top : hi ≤ top
  free : ∀ p, lo ≤ p → p < hi → ¬Covered start stop l p
  low : lo = 0 ∨ Covered start stop l (lo - 1)
  high : hi = top ∨ Covered start stop l hi

lemma Covered.mem_unique {y : α} {p : Nat} (h : Apart start stop l) (hx : x ∈ l) (hy : y ∈ l) (hxp : start x ≤ p)
    (hpx : p < stop x) (hyp : start y ≤ p) (hpy : p < stop y) : x = y := by
  obtain ⟨pre, post, rfl⟩ := append_of_mem hx
  rcases mem_append.mp hy with hy | hy
  · have hbefore := h.before hy (mem_cons_self)
    omega
  · rcases mem_cons.mp hy with rfl | hy
    · rfl
    · have hbefore := (h.sublist (sublist_append_right _ _)).head_before hy
      omega

lemma Apart.covered_stop {y : α} (h : Apart start stop (pre ++ x :: post)) (hy : y ∈ pre ++ x :: post)
    (hstart : start y ≤ stop x) (hstop : stop x < stop y) : ∃ rest, post = y :: rest ∧ start y = stop x := by
  rcases mem_append.mp hy with hy | hy
  · have hbefore := h.before hy (mem_cons_self)
    have hpos := h.pos x (by simp)
    omega
  have htail := h.sublist (sublist_append_right pre (x :: post))
  rcases mem_cons.mp hy with rfl | hy
  · omega
  have hbefore := htail.head_before hy
  obtain ⟨z, rest, rfl⟩ := exists_cons_of_ne_nil (ne_nil_of_mem hy)
  rcases mem_cons.mp hy with rfl | hrest
  · exact ⟨rest, rfl, by omega⟩
  · have hz := htail.head_before mem_cons_self
    have hzpos := htail.pos z (by simp)
    have hzy := (htail.sublist (sublist_cons_self _ _)).head_before hrest
    omega

def lastStop (stop : α → Nat) (pre : List α) : Nat := pre.getLast?.elim 0 stop

def firstStart (start : α → Nat) (top : Nat) (post : List α) : Nat := post.head?.elim top start

@[simp] lemma lastStop_nil : lastStop stop [] = 0 := rfl

@[simp] lemma lastStop_concat : lastStop stop (pre ++ [x]) = stop x := by
  unfold lastStop
  rw [getLast?_concat]
  rfl

@[simp] lemma firstStart_nil : firstStart start top [] = top := rfl

@[simp] lemma firstStart_cons : firstStart start top (x :: post) = start x := rfl

lemma Apart.stop_le_lastStop (h : Apart start stop pre) (hx : x ∈ pre) : stop x ≤ lastStop stop pre := by
  obtain ⟨l, y, rfl⟩ := (eq_nil_or_concat' pre).resolve_left (ne_nil_of_mem hx)
  rw [lastStop_concat]
  rcases mem_append.mp hx with hx | hx
  · exact (h.stop_lt hx (mem_singleton_self y)).le
  · rw [mem_singleton.mp hx]

lemma Apart.firstStart_le (h : Apart start stop post) (hx : x ∈ post) : firstStart start top post ≤ start x := by
  cases post with
  | nil => cases hx
  | cons y post =>
    rw [firstStart_cons]
    rcases mem_cons.mp hx with rfl | hx
    · exact le_rfl
    · have hbefore := h.head_before hx
      have hpos := h.pos y mem_cons_self
      omega

lemma lastStop_of_mem (h : pre ≠ []) : ∃ x ∈ pre, lastStop stop pre = stop x := by
  obtain ⟨l, y, rfl⟩ := (eq_nil_or_concat' pre).resolve_left h
  exact ⟨y, by simp, lastStop_concat⟩

lemma lastStop_le {a : Nat} (h : ∀ x ∈ pre, stop x ≤ a) : lastStop stop pre ≤ a := by
  rcases eq_or_ne pre [] with rfl | hne
  · exact zero_le a
  · obtain ⟨x, hx, heq⟩ := @lastStop_of_mem _ stop _ hne
    rw [heq]
    exact h x hx

lemma cut_further (hl : l = pre ++ post) (hl' : l = pre' ++ post') (hle : pre.length ≤ pre'.length) :
    ∃ mid, pre' = pre ++ mid ∧ post = mid ++ post' := by
  subst hl
  rcases append_eq_append_iff.mp hl' with h | ⟨mid, rfl, rfl⟩
  · exact h
  · rw [length_append] at hle
    have hnil : mid = [] := length_eq_zero_iff.mp (by omega)
    subst hnil
    exact ⟨[], by rw [append_nil, append_nil], rfl⟩

lemma Apart.lastStop_mono (h : Apart start stop l) (hl : l = pre ++ post) (hl' : l = pre' ++ post')
    (hle : pre.length ≤ pre'.length) : lastStop stop pre ≤ lastStop stop pre' := by
  obtain ⟨mid, rfl, rfl⟩ := cut_further hl hl' hle
  rw [hl'] at h
  apply lastStop_le
  intro x hx
  exact (h.sublist (sublist_append_left _ _)).stop_le_lastStop (mem_append_left mid hx)

lemma Apart.firstStart_mono (h : Apart start stop l) (hl : l = pre ++ post) (hl' : l = pre' ++ post')
    (hle : pre.length ≤ pre'.length) (hne : post' ≠ []) :
    firstStart start top post ≤ firstStart start top post' := by
  obtain ⟨mid, rfl, rfl⟩ := cut_further hl hl' hle
  obtain ⟨x, post', rfl⟩ := exists_cons_of_ne_nil hne
  rw [hl] at h
  exact (h.sublist (sublist_append_right _ _)).firstStart_le (by simp)

lemma isHole_iff (h : Apart start stop l) (htop : ∀ x ∈ l, stop x < top) :
    IsHole start stop l top lo hi ↔
      lo < hi ∧ ∃ pre post, l = pre ++ post ∧ lo = lastStop stop pre ∧ hi = firstStart start top post := by
  constructor
  · rintro ⟨hlt, hle, hfree, hlow, hhigh⟩
    obtain ⟨pre, post, rfl, hcut⟩ := exists_cut h lo
    have hpre := h.sublist (sublist_append_left pre post)
    have hpost := h.sublist (sublist_append_right pre post)
    refine ⟨hlt, pre, post, rfl, ?_, ?_⟩
    · apply le_antisymm _ (lastStop_le hcut.low)
      rcases hlow with rfl | ⟨x, hx, hxs, hxe⟩
      · exact zero_le _
      · rcases mem_append.mp hx with hx | hx
        · have hlast := hpre.stop_le_lastStop hx
          omega
        · have habove := hcut.high x hx
          exact absurd ⟨x, mem_append_right _ hx, by omega, habove⟩ (hfree lo le_rfl hlt)
    · cases post with
      | nil =>
        rcases hhigh with heq | ⟨x, hx, -, hxe⟩
        · exact heq
        · rw [append_nil] at hx
          have hbelow := hcut.low x hx
          omega
      | cons y post =>
        have hmem : y ∈ pre ++ y :: post := by simp
        have hy := hcut.high y mem_cons_self
        have hys := h.pos y hmem
        have hyt := htop y hmem
        have hge : hi ≤ start y := by
          by_contra hnot
          by_cases hstart : start y ≤ lo
          · exact hfree lo le_rfl hlt ⟨y, hmem, hstart, hy⟩
          · exact hfree (start y) (by omega) (by omega) ⟨y, hmem, le_rfl, hys⟩
        rw [firstStart_cons]
        rcases hhigh with heq | ⟨x, hx, hxs, hxe⟩
        · omega
        rcases mem_append.mp hx with hx | hx
        · have hbelow := hcut.low x hx
          omega
        · have hfirst := @Apart.firstStart_le _ _ _ _ _ top hpost hx
          rw [firstStart_cons] at hfirst
          omega
  · rintro ⟨hlt, pre, post, rfl, rfl, rfl⟩
    have hpre := h.sublist (sublist_append_left pre post)
    have hpost := h.sublist (sublist_append_right pre post)
    refine ⟨hlt, ?_, ?_, ?_, ?_⟩
    · cases post with
      | nil => exact le_rfl
      | cons y post =>
        have hys := h.pos y (by simp)
        have hyt := htop y (by simp)
        rw [firstStart_cons]
        omega
    · rintro p hlo hhi ⟨x, hx, hxs, hxe⟩
      rcases mem_append.mp hx with hx | hx
      · have hlast := hpre.stop_le_lastStop hx
        omega
      · have hfirst := @Apart.firstStart_le _ _ _ _ _ top hpost hx
        omega
    · rcases eq_or_ne pre [] with rfl | hne
      · exact .inl rfl
      · obtain ⟨x, hx, heq⟩ := @lastStop_of_mem _ stop _ hne
        have hmem := mem_append_left post hx
        have hpos := h.pos x hmem
        exact .inr ⟨x, hmem, by omega, by omega⟩
    · cases post with
      | nil => exact .inl rfl
      | cons y post =>
        have hmem : y ∈ pre ++ y :: post := by simp
        exact .inr ⟨y, hmem, le_rfl, h.pos y hmem⟩

end Solaris.Lib
