import Solaris.Ndbm.Runs

/-!
# Stores that are refused

A store that fails leaves every pair as it was, but for one case: the pair that it was to replace has gone by then.
-/

namespace Solaris.Ndbm

open Function List

namespace Dbm

variable (db : Dbm)

/-- What the keys fetch when the error flag is clear. -/
def values (key : Bytes) : Option Bytes := (db.clearerr.fetch key).1

/-- The store is refused at once, or it does not replace a pair, or there is room for the new pair. -/
def Keeps (key dat : Bytes) (replace : Bool) : Prop :=
  db.ioerr = true ∨ db.rdonly = true ∨ replace = false ∨ db.values key = none ∨ HasRoom db.values key dat

inductive Step where
  | call (c : Call)
  | clearerr
  | reopen (rdonly : Bool)

def step : Step → Answer × Dbm
  | .call c => db.call c
  | .clearerr => (.done, db.clearerr)
  | .reopen rdonly => (.done, dbmOpen rdonly db.close.1 db.close.2)

end Dbm

def steps (db : Dbm) : List Dbm.Step → List Answer × Dbm
  | [] => ([], db)
  | s :: ss => ((db.step s).1 :: (steps (db.step s).2 ss).1, (steps (db.step s).2 ss).2)

/-- Every store of the run keeps what is stored. -/
def KeepsAll (db : Dbm) : List Dbm.Step → Prop
  | [] => True
  | s :: ss => (∀ key dat replace, s = .call (.store key dat replace) → db.Keeps key dat replace) ∧
      KeepsAll (db.step s).2 ss

section Sound

variable {db : Dbm} {content : Nat → Pairs} {m : Bytes → Option Bytes} {key dat : Bytes} {replace : Bool} {f : Dbm.Failure}

/-- Without its error flag the handle holds a map. -/
structure Sound (db : Dbm) : Prop where
  contents : ∃ content m, Holds db.clearerr content ∧ Denotes content m

lemma Holds.values_eq (h : Holds db.clearerr content) (hm : Denotes content m) : db.values = m :=
  funext fun key => (h.fetch hm key).1

lemma clearerr_of_clear (h : db.ioerr = false) : db.clearerr = db := by
  cases db
  cases h
  rfl

lemma Holds.sound (h : Holds db content) (hm : Denotes content m) : Sound db :=
  ⟨content, m, (clearerr_of_clear h.ioerr).symm ▸ h, hm⟩

lemma Holds.of_clear (h : Holds db.clearerr content) (hio : db.ioerr ≠ true) : Holds db content := by
  rw [clearerr_of_clear (Bool.eq_false_of_not_eq_true hio)] at h
  exact h

lemma store_of_ioerr (h : db.ioerr = true) : (db.store key dat replace).2 = db := by
  unfold Dbm.store
  rw [if_pos h]

lemma store_of_rdonly (h : db.rdonly = true) : (db.store key dat replace).2 = db := by
  unfold Dbm.store
  split_ifs <;> rfl

lemma Sound.store (h : Sound db) (hkeeps : db.Keeps key dat replace) (hio : (db.store key dat replace).1 ≠ .failed .io) :
    Sound (db.store key dat replace).2 ∧
      ((db.store key dat replace).1 = .failed f → (db.store key dat replace).2.values = db.values) := by
  by_cases herr : db.ioerr = true
  · rw [store_of_ioerr herr]
    exact ⟨h, fun _ => rfl⟩
  by_cases hro : db.rdonly = true
  · rw [store_of_rdonly hro]
    exact ⟨h, fun _ => rfl⟩
  obtain ⟨content, m, hold, hm⟩ := h.contents
  have hvalues := hold.values_eq hm
  obtain ⟨-, hends⟩ := (hold.of_clear herr).store_ends hm (Bool.eq_false_of_not_eq_true hro) hio
  cases hends with
  | done content' result holds denotes =>
    refine ⟨holds.sound denotes, fun hfail => ?_⟩
    rw [hfail] at result
    split_ifs at result
  | refused asked result noroom kept _ =>
    have hnone : m key = none := by
      by_contra hsome
      rw [Dbm.Keeps, hvalues] at hkeeps
      rcases hkeeps with hkeeps | hkeeps | hkeeps | hkeeps | hkeeps
      · exact herr hkeeps
      · exact hro hkeeps
      · exact asked ⟨hsome, hkeeps⟩
      · exact hsome hkeeps
      · exact noroom hkeeps
    obtain ⟨content', hold', hm'⟩ := kept hnone
    exact ⟨⟨content', m, hold', hm'⟩, fun _ => (hold'.values_eq hm').trans hvalues.symm⟩

/-- Whatever the run before, a store that fails changes no value exactly when it keeps what is stored. -/
theorem Sound.store_iff (h : Sound db) (hio : (db.store key dat replace).1 ≠ .failed .io) :
    (∀ f, (db.store key dat replace).1 = .failed f → (db.store key dat replace).2.values = db.values) ↔
      db.Keeps key dat replace := by
  refine ⟨fun hsame => ?_, fun hkeeps f => (h.store hkeeps hio).2⟩
  by_contra hno
  obtain ⟨content, m, hold, hm⟩ := h.contents
  rw [Dbm.Keeps, hold.values_eq hm] at hno
  push Not at hno
  obtain ⟨herr, hro, hreplace, hsome, hroom⟩ := hno
  have hcond : ¬(m key ≠ none ∧ replace = false) := fun hc => hreplace hc.2
  obtain ⟨-, hends⟩ := (hold.of_clear herr).store_ends hm (Bool.eq_false_of_not_eq_true hro) hio
  cases hends with
  | done content' result holds denotes =>
    rw [if_neg hcond] at denotes
    exact hroom (holds.hasRoom denotes)
  | refused asked result noroom kept lost =>
    obtain ⟨f, hf⟩ : ∃ f, (db.store key dat replace).1 = .failed f :=
      result.elim (fun hres => ⟨_, hres.1⟩) fun hres => ⟨_, hres.1⟩
    have hkey := congrFun (hsame f hf) key
    rw [hold.values_eq hm] at hkey
    exact hsome (hkey.symm.trans lost)

lemma close_clearerr (db : Dbm) : db.clearerr.close = db.close := by
  unfold Dbm.close Dbm.flushpag Dbm.flushdir Dbm.writePage Dbm.clearerr
  split_ifs <;> (repeat' split) <;> simp_all

lemma Sound.step (h : Sound db) (s : Dbm.Step)
    (hkeeps : ∀ key dat replace, s = .call (.store key dat replace) → db.Keeps key dat replace)
    (hio : (db.step s).1 ≠ .result (.failed .io)) : Sound (db.step s).2 := by
  obtain ⟨content, m, hold, hm⟩ := h.contents
  cases s with
  | clearerr => exact hold.sound hm
  | reopen rdonly =>
    have hopen := (hold.reopen rdonly).1
    rw [close_clearerr] at hopen
    exact hopen.sound hm
  | call c =>
    cases c with
    | store key dat replace =>
      exact (h.store (f := .io) (hkeeps key dat replace rfl) fun heq => hio (congrArg Answer.result heq)).1
    | setdefwrite =>
      have hc := hold.cached
      exact ⟨content, m, hold.congr ⟨hc.pag, hc.clean, hc.dirty, hc.dirClean, hc.dirDirty, hc.maxbno⟩
        ⟨rfl, rfl, rfl, rfl, rfl⟩, hm⟩
    | fetch key =>
      change Sound (db.fetch key).2
      by_cases herr : db.ioerr = true
      · unfold Dbm.fetch
        rw [if_pos herr]
        exact h
      · exact ((hold.of_clear herr).fetch hm key).2.1.sound hm
    | delete key =>
      change Sound (db.delete key).2
      by_cases herr : db.ioerr = true
      · unfold Dbm.delete
        rw [if_pos herr]
        exact h
      by_cases hro : db.rdonly = true
      · unfold Dbm.delete
        rw [if_neg herr, if_pos hro]
        exact h
      obtain ⟨content', hold', -, -, ⟨-, -, hm'⟩ | ⟨-, -, hm'⟩⟩ :=
        (hold.of_clear herr).delete hm (Bool.eq_false_of_not_eq_true hro) key
      · exact hold'.sound hm'
      · exact hold'.sound hm'

lemma Sound.steps (ss : List Dbm.Step) (h : Sound db) (hkeeps : KeepsAll db ss)
    (hio : NoIoError (Ndbm.steps db ss).1) : Sound (Ndbm.steps db ss).2 := by
  induction ss generalizing db with
  | nil => exact h
  | cons s ss ih =>
    rw [Ndbm.steps, NoIoError, mem_cons, not_or] at hio
    exact ih (h.step s hkeeps.1 fun heq => hio.1 heq.symm) hkeeps.2 hio.2

lemma sound_open (rdonly : Bool) : Sound (dbmOpen rdonly .empty .empty) :=
  (holds_open rdonly).sound (m := fun _ => none) fun key v => by simp

/-- In a run of stores that keep what is stored, a store that fails changes no value. -/
theorem store_failed_keeps (rdonly : Bool) (ss : List Dbm.Step) (hkeeps : KeepsAll (dbmOpen rdonly .empty .empty) ss)
    (hio : NoIoError (steps (dbmOpen rdonly .empty .empty) ss).1) :
    let db := (steps (dbmOpen rdonly .empty .empty) ss).2
    ∀ key dat replace f, db.Keeps key dat replace → (db.store key dat replace).1 = .failed f → f ≠ .io →
      ∀ key', ((db.store key dat replace).2.clearerr.fetch key').1 = (db.clearerr.fetch key').1 := by
  intro db key dat replace f hkeep hfail hf key'
  have hsound := (sound_open rdonly).steps ss hkeeps hio
  have hne : (db.store key dat replace).1 ≠ .failed .io := by
    rw [hfail]
    exact fun heq => hf (Dbm.Result.failed.inj heq)
  exact congrFun ((hsound.store hkeep hne).2 hfail) key'

end Sound

section Concrete

theorem store_failed_keeps_sample :
    (((steps (dbmOpen false .empty .empty) [.call (.store [1] [10] false)]).2.store [2] (List.replicate 1017 0)
      true).2.clearerr.fetch [1]).1 = some [10] := by
  refine (store_failed_keeps false [.call (.store [1] [10] false)] ⟨?_, trivial⟩ ?_ [2] (replicate 1017 0) true .nospace
    (.inr (.inr (.inr (.inl ?_)))) ?_ (by decide) [1]).trans ?_
  · rintro key dat replace heq
    cases heq
    exact .inr (.inr (.inl rfl))
  · unfold NoIoError
    decide +kernel
  · decide +kernel
  · decide +kernel
  · decide +kernel

theorem store_failed_loses : ¬∀ (rdonly : Bool) (ss : List Dbm.Step),
    NoIoError (steps (dbmOpen rdonly .empty .empty) ss).1 → let db := (steps (dbmOpen rdonly .empty .empty) ss).2
    ∀ key dat replace f, (db.store key dat replace).1 = .failed f → f ≠ .io →
      ∀ key', ((db.store key dat replace).2.clearerr.fetch key').1 = (db.clearerr.fetch key').1 := by
  intro hall
  have hsame := hall false [.call (.store [1] [10] false)] (by unfold NoIoError; decide +kernel) [1] (replicate 1018 0)
    true .nospace (by decide +kernel) (by decide) [1]
  revert hsame
  decide +kernel

end Concrete

end Solaris.Ndbm
