import Solaris.Ndbm.Store

/-!
# A database is a finite map

Calls on one handle answer as a map does, and the files that are left when it is closed hold the same map.
-/

namespace Solaris.Ndbm

open Lib Dbm List

section Calls

inductive Call where
  | store (key dat : Bytes) (replace : Bool)
  | delete (key : Bytes)
  | fetch (key : Bytes)
  | setdefwrite

inductive Answer where
  | result (r : Result)
  | value (v : Option Bytes)
  | done
  deriving DecidableEq

def Dbm.call (db : Dbm) : Call → Answer × Dbm
  | .store key dat replace => (.result (db.store key dat replace).1, (db.store key dat replace).2)
  | .delete key => (.result (db.delete key).1, (db.delete key).2)
  | .fetch key => (.value (db.fetch key).1, (db.fetch key).2)
  | .setdefwrite => (.done, db.setdefwrite)

def run (db : Dbm) : List Call → List Answer × Dbm
  | [] => ([], db)
  | c :: cs => ((db.call c).1 :: (run (db.call c).2 cs).1, (run (db.call c).2 cs).2)

end Calls

section Map

def mapCall (rdonly : Bool) (m : Bytes → Option Bytes) : Call → Answer × (Bytes → Option Bytes)
  | .store key dat replace =>
    if rdonly then (.result (.failed .rdonly), m)
    else if m key ≠ none ∧ replace = false then (.result .present, m)
    else (.result .ok, Function.update m key (some dat))
  | .delete key =>
    if rdonly then (.result (.failed .rdonly), m)
    else if m key = none then (.result (.failed .absent), m)
    else (.result .ok, Function.update m key none)
  | .fetch key => (.value (m key), m)
  | .setdefwrite => (.done, m)

def mapRun (rdonly : Bool) (m : Bytes → Option Bytes) : List Call → List Answer × (Bytes → Option Bytes)
  | [] => ([], m)
  | c :: cs =>
    ((mapCall rdonly m c).1 :: (mapRun rdonly (mapCall rdonly m c).2 cs).1, (mapRun rdonly (mapCall rdonly m c).2 cs).2)

end Map

section Reopen

variable {db : Dbm} {content : Nat → Pairs}

lemma flushdir_pagf (db : Dbm) : db.flushdir.pagf = db.pagf := by
  unfold Dbm.flushdir
  split
  · split <;> rfl
  · rfl

lemma bit_lt_blocks {f : File} {n : Nat} (h : (f.read (dirBlk n) (dirByte n)).getLsbD (n % BYTESIZ) = true) :
    n < f.blocks * DBLKSIZ * BYTESIZ := by
  have hblk : dirBlk n < f.blocks := by
    by_contra hge
    unfold File.read at h
    rw [if_neg hge] at h
    simp [zeroBlock] at h
  unfold dirBlk at hblk
  simp only [BYTESIZ, DBLKSIZ] at hblk ⊢
  omega

lemma Holds.reopen (h : Holds db content) (rdonly : Bool) :
    Holds (dbmOpen rdonly db.close.1 db.close.2) content ∧ (dbmOpen rdonly db.close.1 db.close.2).rdonly = rdonly := by
  obtain ⟨hc1, hs1, -, hread1, -, -, -⟩ := h.cached.flushpag
  obtain ⟨-, -, -, -, hread2⟩ := hc1.flushdir
  have hpagf : db.close.1.read = db.page := by
    rw [← hread1, ← flushdir_pagf db.flushpag]
    rfl
  have hdirf : db.close.2.read = db.dirBlock := hread2.trans hs1.dir
  have hpage : (dbmOpen rdonly db.close.1 db.close.2).page = db.page := hpagf
  have hdir : (dbmOpen rdonly db.close.1 db.close.2).dirBlock = db.dirBlock := hdirf
  have hsplit : (dbmOpen rdonly db.close.1 db.close.2).IsSplit = db.IsSplit := by
    unfold Dbm.IsSplit Dbm.bit
    rw [hdir]
  refine ⟨⟨⟨?_, ?_, ?_, ?_, ?_, ?_⟩, ?_, ?_, ?_, h.nodup, ?_, rfl⟩, rfl⟩
  · intro b hb
    cases hb
  · intro b hb
    cases hb
  · intro hd
    cases hd
  · intro b hb
    cases hb
  · intro hd
    cases hd
  · intro n hn
    have := bit_lt_blocks hn
    simp only [dbmOpen, DBLKSIZ, BYTESIZ] at this ⊢
    omega
  · rw [hsplit]
    exact h.closed
  · unfold Shallow
    rw [hsplit]
    exact h.shallow
  · rw [hsplit, hpage]
    exact h.pages
  · rw [hsplit]
    exact h.home

lemma holds_open (rdonly : Bool) : Holds (dbmOpen rdonly .empty .empty) fun _ => [] := by
  have hbit : ∀ n, (dbmOpen rdonly .empty .empty).bit n = false := fun n => by
    simp [Dbm.bit, Dbm.dirBlock, dbmOpen, File.empty, File.read, zeroBlock]
  have hsplit : ∀ k b, ¬(dbmOpen rdonly .empty .empty).IsSplit k b := by
    rintro k b ⟨-, hb⟩
    rw [hbit] at hb
    cases hb
  refine ⟨⟨?_, ?_, ?_, ?_, ?_, ?_⟩, ?_, ?_, ?_, ?_, ?_, rfl⟩
  · intro b hb
    cases hb
  · intro b hb
    cases hb
  · intro hd
    cases hd
  · intro b hb
    cases hb
  · intro hd
    cases hd
  · intro n hn
    rw [hbit] at hn
    cases hn
  · intro k b _ hs
    exact absurd hs (hsplit _ _)
  · intro k b hs
    exact absurd hs (hsplit _ _)
  · intro g k _
    exact pageOf_zeroBlock
  · intro b
    exact nodup_nil
  · intro b kv hkv
    cases hkv

end Reopen

section Runs

variable {db : Dbm} {content : Nat → Pairs} {m : Bytes → Option Bytes} {keys : Set Bytes} {rdonly : Bool}

/-- The keys that are offered to `dbm_store`. -/
def storedKeys (cs : List Call) : Set Bytes := { key | ∃ dat replace, Call.store key dat replace ∈ cs }

def NoIoError (as : List Answer) : Prop := Answer.result (.failed .io) ∉ as

/-- No pair was refused because it is larger than a page. -/
def NoSpaceError (as : List Answer) : Prop := Answer.result (.failed .nospace) ∉ as

structure Refines (db : Dbm) (rdonly : Bool) (keys : Set Bytes) (m : Bytes → Option Bytes) : Prop where
  contents : ∃ content, Holds db content ∧ KeysIn content keys ∧ Denotes content m
  rdonly : db.rdonly = rdonly

lemma Refines.call (h : Refines db rdonly keys m) (hinj : Set.InjOn dcalchash keys) (c : Call)
    (hkey : ∀ key dat replace, c = .store key dat replace → key ∈ keys) (hio : (db.call c).1 ≠ .result (.failed .io))
    (hspace : (db.call c).1 ≠ .result (.failed .nospace)) :
    (db.call c).1 = (mapCall rdonly m c).1 ∧ Refines (db.call c).2 rdonly keys (mapCall rdonly m c).2 := by
  obtain ⟨⟨content, hold, hK, hm⟩, hro⟩ := h
  cases c with
  | store key dat replace =>
    have hmem := hkey key dat replace rfl
    cases rdonly with
    | true =>
      have hstop : db.store key dat replace = (.failed .rdonly, db) := by simp [Dbm.store, hold.ioerr, hro]
      simp only [Dbm.call, mapCall, hstop, if_true]
      exact ⟨trivial, ⟨content, hold, hK, hm⟩, hro⟩
    | false =>
      have hst : Stored m key dat replace keys (db.store key dat replace) :=
        hold.store hinj hmem hK hm hro (fun heq => hio (by simp [Dbm.call, heq]))
          (fun heq => hspace (by simp [Dbm.call, heq]))
      simp only [Dbm.call, mapCall, Bool.false_eq_true, if_false]
      rw [hst.result]
      have hcont := hst.contents
      by_cases hcond : m key ≠ none ∧ replace = false
      · rw [if_pos hcond] at hcont ⊢
        rw [if_pos hcond]
        exact ⟨rfl, hcont, hst.rdonly⟩
      · rw [if_neg hcond] at hcont ⊢
        rw [if_neg hcond]
        exact ⟨rfl, hcont, hst.rdonly⟩
  | delete key =>
    cases rdonly with
    | true =>
      have hstop : db.delete key = (.failed .rdonly, db) := by simp [Dbm.delete, hold.ioerr, hro]
      simp only [Dbm.call, mapCall, hstop, if_true]
      exact ⟨trivial, ⟨content, hold, hK, hm⟩, hro⟩
    | false =>
      obtain ⟨content', hold', hro', hsub, hcase⟩ := hold.delete hm hro key
      have hK' : KeysIn content' keys := fun b kv hkv => hK b kv (hsub b kv hkv)
      simp only [Dbm.call, mapCall, Bool.false_eq_true, if_false]
      rcases hcase with ⟨hnone, hres, hden⟩ | ⟨hsome, hres, hden⟩
      · rw [if_pos hnone, hres]
        exact ⟨rfl, ⟨content', hold', hK', hden⟩, hro'⟩
      · rw [if_neg hsome, hres]
        exact ⟨rfl, ⟨content', hold', hK', hden⟩, hro'⟩
  | fetch key =>
    obtain ⟨hval, hold', hro'⟩ := hold.fetch hm key
    simp only [Dbm.call, mapCall]
    rw [hval]
    exact ⟨rfl, ⟨content, hold', hK, hm⟩, hro'.trans hro⟩
  | setdefwrite =>
    refine ⟨rfl, ⟨content, ?_, hK, hm⟩, hro⟩
    have hc := hold.cached
    exact hold.congr ⟨hc.pag, hc.clean, hc.dirty, hc.dirClean, hc.dirDirty, hc.maxbno⟩ ⟨rfl, rfl, rfl, rfl, rfl⟩

lemma Refines.run (hinj : Set.InjOn dcalchash keys) (cs : List Call) (h : Refines db rdonly keys m)
    (hkeys : storedKeys cs ⊆ keys) (hio : NoIoError (Ndbm.run db cs).1) (hspace : NoSpaceError (Ndbm.run db cs).1) :
    (Ndbm.run db cs).1 = (mapRun rdonly m cs).1 ∧ Refines (Ndbm.run db cs).2 rdonly keys (mapRun rdonly m cs).2 := by
  induction cs generalizing db m with
  | nil => exact ⟨rfl, h⟩
  | cons c cs ih =>
    simp only [Ndbm.run, NoIoError, NoSpaceError, mem_cons, not_or] at hio hspace
    have hkey : ∀ key dat replace, c = .store key dat replace → key ∈ keys := by
      rintro key dat replace rfl
      exact hkeys ⟨dat, replace, mem_cons_self ..⟩
    obtain ⟨hans, href⟩ := h.call hinj c hkey (fun heq => hio.1 heq.symm) (fun heq => hspace.1 heq.symm)
    have hkeys' : storedKeys cs ⊆ keys := by
      rintro key ⟨dat, replace, hmem⟩
      exact hkeys ⟨dat, replace, mem_cons_of_mem _ hmem⟩
    obtain ⟨hans', href'⟩ := ih href hkeys' hio.2 hspace.2
    simp only [Ndbm.run, mapRun]
    rw [hans, hans']
    exact ⟨rfl, href'⟩

/-- The calls on a new database answer as a map does, and the files that are left hold that map. -/
theorem database_is_map (rdonly rdonly' : Bool) (cs : List Call) (hinj : Set.InjOn dcalchash (storedKeys cs))
    (hio : NoIoError (run (dbmOpen rdonly .empty .empty) cs).1)
    (hspace : NoSpaceError (run (dbmOpen rdonly .empty .empty) cs).1) :
    (run (dbmOpen rdonly .empty .empty) cs).1 = (mapRun rdonly (fun _ => none) cs).1 ∧
      ∀ key, ((dbmOpen rdonly' (run (dbmOpen rdonly .empty .empty) cs).2.close.1
        (run (dbmOpen rdonly .empty .empty) cs).2.close.2).fetch key).1 = (mapRun rdonly (fun _ => none) cs).2 key := by
  have hstart : Refines (dbmOpen rdonly .empty .empty) rdonly (storedKeys cs) fun _ => none := by
    refine ⟨⟨fun _ => [], holds_open rdonly, ?_, ?_⟩, rfl⟩
    · intro b kv hkv
      cases hkv
    · intro key v
      simp
  obtain ⟨hans, ⟨content, hold, -, hm⟩, -⟩ := hstart.run hinj cs subset_rfl hio hspace
  refine ⟨hans, ?_⟩
  intro key
  exact ((hold.reopen rdonly').1.fetch hm key).1

section Concrete

/-- The second pair does not fit beside the first one. -/
def sampleCalls : List Call :=
  [.store [1] (List.replicate 600 7) false, .setdefwrite, .store [2] (List.replicate 600 9) false, .store [1] [40] true,
    .delete [2], .fetch [1]]

theorem database_is_map_sample :
    (run (dbmOpen false .empty .empty) (sampleCalls.take 3)).2.maxbno = 0 ∧
      (run (dbmOpen false .empty .empty) sampleCalls).1 =
        [.result .ok, .done, .result .ok, .result .ok, .result .ok, .value (some [40])] ∧
      (run (dbmOpen false .empty .empty) sampleCalls).1 = (mapRun false (fun _ => none) sampleCalls).1 := by
  have hans : (run (dbmOpen false .empty .empty) sampleCalls).1 =
      [.result .ok, .done, .result .ok, .result .ok, .result .ok, .value (some [40])] := by decide +kernel
  have hkeys : storedKeys sampleCalls ⊆ {[1], [2]} := by
    rintro key ⟨dat, replace, hmem⟩
    simp only [sampleCalls, mem_cons, Call.store.injEq, reduceCtorEq, not_mem_nil, or_false, false_or] at hmem
    rcases hmem with ⟨rfl, -⟩ | ⟨rfl, -⟩ | ⟨rfl, -⟩ <;> simp
  refine ⟨by decide +kernel, hans, (database_is_map false false sampleCalls ?_ ?_ ?_).1⟩
  · refine Set.InjOn.mono hkeys ?_
    have hne : dcalchash [1] ≠ dcalchash [2] := by decide +kernel
    rintro a (rfl | rfl) b (rfl | rfl) heq
    · rfl
    · exact absurd heq hne
    · exact absurd heq.symm hne
    · rfl
  · unfold NoIoError
    decide +kernel
  · unfold NoSpaceError
    decide +kernel

def largeCalls : List Call :=
  [.store [1] [10] false, .store [2] (List.replicate 1017 0) false, .fetch [1]]

/-- After a pair that is too large was refused, nothing is found any more. -/
theorem large_pair_stops_database :
    dcalchash [1] ≠ dcalchash [2] ∧
      (run (dbmOpen false .empty .empty) largeCalls).1 = [.result .ok, .result (.failed .nospace), .value none] ∧
      (mapRun false (fun _ => none) [.store [1] [10] false, .fetch [1]]).1 = [.result .ok, .value (some [10])] := by
  decide +kernel

end Concrete

end Runs

end Solaris.Ndbm
