import Solaris.Callout.Runs

/-!
# Checkpoints of callout tables

`callout_save` before a checkpoint and `callout_restore` at the resume. The save loop tests
`c_xid | CALLOUT_EXECUTING`, which is never zero, so that it takes every callout for one that is executing.
-/

namespace Solaris.Callouts

open List

/-- A table with the count of its busy ticks, and the flag that stops the callout threads. -/
structure Cpr where
  cs : Table
  busyticks : Int
  stopCallout : Bool

/-- The loop of `callout_save` in a bucket, behind the callouts that stay. -/
def saveLoop : List Callout → List Callout → List Callout → List Callout × List Callout
  | kept, [], saved => (kept, saved)
  | kept, cp :: rest, saved =>
    if cp.xid ||| executingBit ≠ 0 then saveLoop (kept ++ [cp]) rest saved
    else saveLoop kept rest (cp :: saved)

def saveBucket (first : List Callout) : List Callout × List Callout := saveLoop [] first []

def calloutSave (c : Cpr) : Cpr × Cpr :=
  ({ cs := { c.cs with bucket := fun i => { c.cs.bucket i with first := (saveBucket (c.cs.bucket i).first).1 } }
     busyticks := 0
     stopCallout := true },
   { c with cs := { c.cs with bucket := fun i => { c.cs.bucket i with first := (saveBucket (c.cs.bucket i).first).2 } } })

/-- The loop of `callout_restore` in a bucket. -/
def restoreLoop : List Callout → List Callout → List Callout
  | [], first => first
  | cp :: next, first => restoreLoop next (cp :: first)

def calloutRestore (c oc : Cpr) : Cpr :=
  { cs := { c.cs with
      bucket := fun i => { c.cs.bucket i with first := restoreLoop (oc.cs.bucket i).first (c.cs.bucket i).first }
      runtime := oc.cs.runtime }
    busyticks := c.busyticks + oc.busyticks
    stopCallout := false }

variable {l : List Callout}

lemma restoreLoop_eq (l kept : List Callout) : restoreLoop l kept = l.reverse ++ kept := by
  induction l generalizing kept with
  | nil => rfl
  | cons cp l ih => rw [restoreLoop, ih, reverse_cons, append_assoc, singleton_append]

lemma calloutRestore_perm (c oc : Cpr) (i : Nat) :
    ((calloutRestore c oc).cs.bucket i).first.Perm ((oc.cs.bucket i).first ++ (c.cs.bucket i).first) := by
  unfold calloutRestore
  dsimp only
  rw [restoreLoop_eq]
  exact (reverse_perm _).append_right _

lemma or_executingBit (x : BitVec 32) : x ||| executingBit ≠ 0 := by
  intro h
  have hbit : (x ||| executingBit).getLsbD 31 = true := by
    rw [BitVec.getLsbD_or, Bool.or_eq_true]
    exact .inr (by decide)
  rw [h] at hbit
  cases hbit

lemma saveLoop_eq (l kept saved : List Callout) : saveLoop kept l saved = (kept ++ l, saved) := by
  induction l generalizing kept with
  | nil => rw [saveLoop, append_nil]
  | cons cp l ih => rw [saveLoop, if_pos (or_executingBit cp.xid), ih, append_assoc, singleton_append]

lemma saveBucket_eq (l : List Callout) : saveBucket l = (l, []) := saveLoop_eq l [] []

def Homed (c : Cpr) : Prop := ∀ i < 256, ∀ cp ∈ (c.cs.bucket i).first, bucketOf cp.runtime = i

/-- What a checkpoint is to do to the callouts of a table. -/
structure Conserves (c : Cpr) : Prop where
  saved : ∀ i < 256, ((calloutSave c).2.cs.bucket i).first.Perm ((c.cs.bucket i).first.filter fun cp => !cp.executing)
  kept : ∀ i < 256, ((calloutSave c).1.cs.bucket i).first.Perm ((c.cs.bucket i).first.filter Callout.executing)
  restored : ∀ live, Homed live → Homed (calloutRestore live (calloutSave c).2) ∧ ∀ i < 256,
    ((calloutRestore live (calloutSave c).2).cs.bucket i).first.Perm
      ((c.cs.bucket i).first.filter (fun cp => !cp.executing) ++ (live.cs.bucket i).first)

lemma calloutSave_saved (c : Cpr) (i : Nat) : ((calloutSave c).2.cs.bucket i).first = [] := by
  unfold calloutSave
  dsimp only
  rw [saveBucket_eq]

lemma calloutSave_kept (c : Cpr) (i : Nat) : ((calloutSave c).1.cs.bucket i).first = (c.cs.bucket i).first := by
  unfold calloutSave
  dsimp only
  rw [saveBucket_eq]

lemma filter_executing_nil (h : ∀ cp ∈ l, cp.executing = true) : l.filter (fun cp => !cp.executing) = [] := by
  rw [filter_eq_nil_iff]
  intro cp hcp
  rw [h cp hcp]
  decide

lemma Conserves.executing {c : Cpr} (h : Conserves c) {i : Nat} (hi : i < 256) {cp : Callout}
    (hcp : cp ∈ (c.cs.bucket i).first) : cp.executing = true := by
  have hsaved := h.saved i hi
  rw [calloutSave_saved] at hsaved
  have hnone := filter_eq_nil_iff.mp (nil_perm.mp hsaved) cp hcp
  rwa [Bool.not_eq_true', Bool.not_eq_false] at hnone

/-- A checkpoint does what it is to do exactly on tables in which all callouts are executing. -/
theorem save_conserves_iff (c : Cpr) :
    Conserves c ↔ ∀ i < 256, ∀ cp ∈ (c.cs.bucket i).first, cp.executing = true := by
  constructor
  · exact fun h i hi cp hcp => h.executing hi hcp
  · intro h
    refine ⟨fun i hi => ?_, fun i hi => ?_, fun live hlive => ⟨fun i hi cp hcp => ?_, fun i hi => ?_⟩⟩
    · rw [calloutSave_saved, filter_executing_nil (h i hi)]
    · rw [calloutSave_kept, filter_eq_self.mpr (h i hi)]
    · have hmem := (calloutRestore_perm live (calloutSave c).2 i).mem_iff.mp hcp
      rw [calloutSave_saved, nil_append] at hmem
      exact hlive i hi cp hmem
    · have hperm := calloutRestore_perm live (calloutSave c).2 i
      rw [calloutSave_saved] at hperm
      rw [filter_executing_nil (h i hi)]
      exact hperm

/-- A callout has been inserted into a normal table at boot, to run after ten ticks. -/
def tenTicks : Sys :=
  { Sys.init normalId 0 with
    cs := (calloutInsert (calloutSetup normalId 0) 0 10 1 false 0).2
    allocated := [1]
    inserted := [10] }

theorem save_not_conserves : ¬ Conserves ⟨tenTicks.cs, 0, false⟩ := by
  intro h
  exact absurd (h.executing (by decide : 10 < 256) (List.mem_singleton_self _)) (by decide)

end Solaris.Callouts
