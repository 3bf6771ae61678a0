import Mathlib.Data.List.Basic
import Mathlib.Algebra.Order.Ring.Nat

/-!
# Writers and readers over a stream

A writer appends a sequence to what has been written, and a reader takes one off what is ahead.
-/

namespace Solaris.Lib

open List

variable {σ α γ β : Type} {k : Nat}

/-- `W s out n`: `out` has been written and there is room for `n` more. -/
def Puts (k : Nat) (W : σ → List β → Nat → Prop) (g : σ → Option σ) (bs : List β) : Prop :=
  ∀ s out n, W s out (bs.length + n) → k ∣ out.length → ∃ s', g s = some s' ∧ W s' (out ++ bs) n

/-- `R s ahead`: `ahead` is what can be read. -/
def Gets (k : Nat) (R : σ → List β → Prop) (g : σ → Option (α × σ)) (a : α) (bs : List β) : Prop :=
  ∀ s rest, R s (bs ++ rest) → k ∣ rest.length → ∃ s', g s = some (a, s') ∧ R s' rest

variable {W : σ → List β → Nat → Prop} {R : σ → List β → Prop} {bs bs' : List β}

lemma Puts.skip : Puts k W (fun s => some s) [] := by
  intro s out n hs _
  exact ⟨s, rfl, by simpa using hs⟩

lemma Puts.bind {g g' : σ → Option σ} (h : Puts k W g bs) (hk : k ∣ bs.length) (h' : Puts k W g' bs') :
    Puts k W (fun s => (g s).bind g') (bs ++ bs') := by
  intro s out n hs hout
  rw [length_append, Nat.add_assoc] at hs
  obtain ⟨s1, h1, hs1⟩ := h s out _ hs hout
  have hout1 : k ∣ (out ++ bs).length := by
    rw [length_append]
    exact Nat.dvd_add hout hk
  obtain ⟨s2, h2, hs2⟩ := h' s1 _ n hs1 hout1
  refine ⟨s2, ?_, ?_⟩
  · simp only [h1, Option.bind_some, h2]
  · rwa [← append_assoc]

lemma Puts.congr {g g' : σ → Option σ} (h : Puts k W g bs) (hg : ∀ s, g' s = g s) : Puts k W g' bs := by
  have : g' = g := funext hg
  rwa [this]

lemma Puts.weaken {g : σ → Option σ} {k' : Nat} (h : Puts k W g bs) (hk : k ∣ k') : Puts k' W g bs := by
  intro s out n hs hout
  exact h s out n hs (Nat.dvd_trans hk hout)

lemma Gets.pure (a : α) : Gets k R (fun s => some (a, s)) a [] := by
  intro s rest hs _
  exact ⟨s, rfl, by simpa using hs⟩

lemma Gets.andThen {g : σ → Option (α × σ)} {f f' : σ → Option (γ × σ)} {a : α} {c : γ} (h : Gets k R g a bs)
    (hf : ∀ s s', g s = some (a, s') → f s = f' s') (hk : k ∣ bs'.length) (h' : Gets k R f' c bs') :
    Gets k R f c (bs ++ bs') := by
  intro s rest hs hrest
  rw [append_assoc] at hs
  have hrest1 : k ∣ (bs' ++ rest).length := by
    rw [length_append]
    exact Nat.dvd_add hk hrest
  obtain ⟨s1, h1, hs1⟩ := h s _ hs hrest1
  obtain ⟨s2, h2, hs2⟩ := h' s1 rest hs1 hrest
  refine ⟨s2, ?_, hs2⟩
  rw [hf s s1 h1, h2]

lemma Gets.result {g : σ → Option (α × σ)} {f : σ → Option (γ × σ)} {a : α} {c : γ} (h : Gets k R g a bs)
    (hf : ∀ s s', g s = some (a, s') → f s = some (c, s')) : Gets k R f c bs := by
  intro s rest hs hrest
  obtain ⟨s', hget, hs'⟩ := h s rest hs hrest
  exact ⟨s', hf s s' hget, hs'⟩

lemma Gets.weaken {g : σ → Option (α × σ)} {a : α} {k' : Nat} (h : Gets k R g a bs) (hk : k ∣ k') :
    Gets k' R g a bs := by
  intro s rest hs hrest
  exact h s rest hs (Nat.dvd_trans hk hrest)

end Solaris.Lib
