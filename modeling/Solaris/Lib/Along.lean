import Mathlib.Logic.Basic

/-!
# Properties along a run

A system takes one input after another. `Along step C s is` says that `C` holds of the state and
the input at every step of the run from `s` on the inputs `is`.
-/

namespace Solaris.Lib

variable {S I : Type} {step : S → I → S} {C D : S → I → Prop} {P : S → Prop}

def Along (step : S → I → S) (C : S → I → Prop) : S → List I → Prop
  | _, [] => True
  | s, i :: is => C s i ∧ Along step C (step s i) is

@[simp] lemma along_nil {s : S} : Along step C s [] := trivial

@[simp] lemma along_cons {s : S} {i : I} {is : List I} :
    Along step C s (i :: is) ↔ C s i ∧ Along step C (step s i) is := Iff.rfl

lemma along_append {s : S} {is js : List I} :
    Along step C s (is ++ js) ↔ Along step C s is ∧ Along step C (is.foldl step s) js := by
  induction is generalizing s with
  | nil => simp
  | cons i is ih => simp [ih, and_assoc]

lemma Along.and {s : S} {is : List I} (hC : Along step C s is) (hD : Along step D s is) :
    Along step (fun s i => C s i ∧ D s i) s is := by
  induction is generalizing s with
  | nil => trivial
  | cons i is ih => exact ⟨⟨hC.1, hD.1⟩, ih hC.2 hD.2⟩

theorem Along.imp {s : S} {is : List I} (h : Along step C s is) (hs : P s)
    (hstep : ∀ s i, P s → C s i → D s i ∧ P (step s i)) : Along step D s is := by
  induction is generalizing s with
  | nil => trivial
  | cons i is ih =>
    obtain ⟨hd, hp⟩ := hstep s i hs h.1
    exact ⟨hd, ih h.2 hp⟩

theorem Along.invariant {s : S} {is : List I} (h : Along step C s is) (hs : P s)
    (hstep : ∀ s i, P s → C s i → P (step s i)) : P (is.foldl step s) := by
  induction is generalizing s with
  | nil => exact hs
  | cons i is ih => exact ih h.2 (hstep s i hs h.1)

lemma along_of_forall {Q : I → Prop} {s : S} {is : List I} (h : ∀ i ∈ is, Q i) :
    Along step (fun _ i => Q i) s is := by
  induction is generalizing s with
  | nil => trivial
  | cons i is ih =>
    exact ⟨h i List.mem_cons_self, ih fun j hj => h j (List.mem_cons_of_mem i hj)⟩

end Solaris.Lib
