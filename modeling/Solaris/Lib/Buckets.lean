import Mathlib.Data.List.Perm.Basic
import Mathlib.Data.List.Nodup
import Mathlib.Data.List.Flatten

/-!
# Buckets

The elements of a table are those of its buckets, one after the other.
-/

namespace Solaris.Lib

open List

variable {ι α : Type} {f g : ι → List α} {l : List ι} {i : ι} {x : α} {p : α → Bool}

lemma flatMap_insert (hl : l.Nodup) (hi : i ∈ l) (hg : (g i).Perm (x :: f i)) (hne : ∀ j ∈ l, j ≠ i → g j = f j) :
    (l.flatMap g).Perm (x :: l.flatMap f) := by
  induction l with
  | nil => cases hi
  | cons j l ih =>
    obtain ⟨hj, hl⟩ := nodup_cons.mp hl
    rw [flatMap_cons, flatMap_cons]
    by_cases hij : i = j
    · subst hij
      have hrest : l.flatMap g = l.flatMap f :=
        flatMap_congr fun k hk => hne k (mem_cons_of_mem _ hk) fun heq => hj (heq ▸ hk)
      rw [hrest]
      exact hg.append_right _
    · have hi' : i ∈ l := (mem_cons.mp hi).resolve_left hij
      have hrest := ih hl hi' fun k hk => hne k (mem_cons_of_mem _ hk)
      rw [hne j mem_cons_self (Ne.symm hij)]
      exact (hrest.append_left (f j)).trans perm_middle

lemma countP_flatMap_congr (h : ∀ i ∈ l, (g i).countP p = (f i).countP p) :
    (l.flatMap g).countP p = (l.flatMap f).countP p := by
  rw [countP_flatMap, countP_flatMap]
  congr 1
  exact map_congr_left h

end Solaris.Lib
