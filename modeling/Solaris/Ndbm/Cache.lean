import Solaris.Ndbm.Database
import Solaris.Ndbm.Items
import Solaris.Lib.HashTree

/-!
# What the buffers and the files hold together

A page is what its buffer holds when it is there, and what the file holds else; a block of the directory likewise.
-/

namespace Solaris.Ndbm

open Lib Option

lemma File.read_write_self (f : File) (b : Nat) (buf : Block) : (f.write b buf).read b = buf := by
  unfold File.read File.write
  simp

lemma File.read_write_ne (f : File) {b b' : Nat} (buf : Block) (hne : b' ≠ b) : (f.write b buf).read b' = f.read b' := by
  unfold File.write
  rw [File.read]
  split
  · simp [hne]
  · rename_i hge
    unfold File.read
    rw [if_neg (by simp at hge; omega)]

lemma seek_of_lt {b : Nat} (hb : b < 2 ^ 21) : seek b = some b := by
  unfold seek PBLKSIZ
  rw [Nat.mod_eq_of_lt (by omega), if_pos (by omega), Nat.mul_div_cancel _ (by decide)]

lemma lt_of_seek {b b' : Nat} (hb : b < 2 ^ 22) (h : seek b = some b') : b < 2 ^ 21 := by
  unfold seek PBLKSIZ at h
  dsimp only at h
  split at h
  · omega
  · cases h

namespace Dbm

variable (db : Dbm)

def page (b : Nat) : Block := if db.pagbno = some b then db.pagbuf else db.pagf.read b

def dirBlock (b : Nat) : Block := if db.dirbno = some b then db.dirbuf else db.dirf.read b

def bit (n : Nat) : Bool := (db.dirBlock (dirBlk n) (dirByte n)).getLsbD (n % BYTESIZ)

/-- The page `b` at level `k` has been split. -/
def IsSplit (k b : Nat) : Prop := b < 2 ^ k ∧ db.bit (b + (2 ^ k - 1)) = true

end Dbm

/-- The buffers agree with the files, but for what is marked as changed. -/
structure Cached (db : Dbm) : Prop where
  pag : ∀ b, db.pagbno = some b → b < 2 ^ 21
  clean : ∀ b, db.pagbno = some b → db.dirty = false → db.pagbuf = db.pagf.read b
  dirty : db.dirty = true → db.pagbno ≠ none
  dirClean : ∀ b, db.dirbno = some b → db.dirdirty = false → db.dirbuf = db.dirf.read b
  dirDirty : db.dirdirty = true → db.dirbno ≠ none
  maxbno : ∀ n, db.bit n = true → (n : Int) ≤ db.maxbno

structure Same (db db' : Dbm) : Prop where
  page : db'.page = db.page
  dir : db'.dirBlock = db.dirBlock
  maxbno : db'.maxbno = db.maxbno
  rdonly : db'.rdonly = db.rdonly
  ioerr : db'.ioerr = db.ioerr

namespace Same

variable {db db' db'' : Dbm}

lemma refl (db : Dbm) : Same db db := ⟨rfl, rfl, rfl, rfl, rfl⟩

lemma trans (h : Same db db') (h' : Same db' db'') : Same db db'' :=
  ⟨h'.page.trans h.page, h'.dir.trans h.dir, h'.maxbno.trans h.maxbno, h'.rdonly.trans h.rdonly, h'.ioerr.trans h.ioerr⟩

lemma bit (h : Same db db') (n : Nat) : db'.bit n = db.bit n := by
  unfold Dbm.bit
  rw [h.dir]

lemma isSplit (h : Same db db') : db'.IsSplit = db.IsSplit := by
  funext k b
  unfold Dbm.IsSplit
  rw [h.bit]

end Same

section Load

variable {db : Dbm}

lemma flushdir_of_dirty {b : Nat} (hd : db.dirdirty = true) (hb : db.dirbno = some b) :
    db.flushdir = { db with dirf := db.dirf.write b db.dirbuf, dirdirty := false } := by
  simp [Dbm.flushdir, hd, hb]

lemma flushdir_of_clean (hd : db.dirdirty = false) : db.flushdir = db := by simp [Dbm.flushdir, hd]

lemma flushpag_of_dirty {b : Nat} (hd : db.dirty = true) (hb : db.pagbno = some b) (hlt : b < 2 ^ 21) :
    db.flushpag = { db with pagf := db.pagf.write b db.pagbuf, dirty := false } := by
  simp [Dbm.flushpag, hd, hb, Dbm.writePage, seek_of_lt hlt]

lemma flushpag_of_clean (hd : db.dirty = false) : db.flushpag = db := by simp [Dbm.flushpag, hd]

lemma Cached.flushdir (h : Cached db) :
    Cached db.flushdir ∧ Same db db.flushdir ∧ db.flushdir.dirdirty = false ∧ db.flushdir.dirbno = db.dirbno ∧
      db.flushdir.dirf.read = db.dirBlock := by
  cases hd : db.dirdirty with
  | false =>
    rw [flushdir_of_clean hd]
    refine ⟨h, Same.refl db, hd, rfl, ?_⟩
    funext b
    unfold Dbm.dirBlock
    split
    · rename_i hb
      exact (h.dirClean b hb hd).symm
    · rfl
  | true =>
    obtain ⟨b, hb⟩ := ne_none_iff_exists'.mp (h.dirDirty hd)
    rw [flushdir_of_dirty hd hb]
    have hread : (db.dirf.write b db.dirbuf).read = db.dirBlock := by
      funext b'
      unfold Dbm.dirBlock
      rw [hb]
      by_cases hbb : b' = b
      · rw [hbb, if_pos rfl, File.read_write_self]
      · rw [if_neg (fun heq => hbb (some.inj heq).symm), File.read_write_ne _ _ hbb]
    have hdir : ({ db with dirf := db.dirf.write b db.dirbuf, dirdirty := false } : Dbm).dirBlock = db.dirBlock := by
      funext b'
      conv_lhs => unfold Dbm.dirBlock
      rw [hread]
      split
      · rename_i hbb
        unfold Dbm.dirBlock
        rw [if_pos hbb]
      · rfl
    refine ⟨⟨h.pag, h.clean, h.dirty, ?_, fun hf => absurd hf Bool.false_ne_true, ?_⟩, ⟨rfl, hdir, rfl, rfl, rfl⟩, rfl, rfl, hread⟩
    · intro b' hb' _
      rw [hread]
      unfold Dbm.dirBlock
      rw [if_pos hb']
    · intro n hn
      refine h.maxbno n ?_
      rwa [Dbm.bit, hdir] at hn

lemma Cached.loadDir (h : Cached db) (b : Nat) :
    Cached (db.loadDir b) ∧ Same db (db.loadDir b) ∧ (db.loadDir b).dirbno = some b ∧
      (db.loadDir b).dirbuf = db.dirBlock b := by
  unfold Dbm.loadDir
  split
  · rename_i hb
    refine ⟨h, Same.refl db, hb, ?_⟩
    unfold Dbm.dirBlock
    rw [if_pos hb]
  obtain ⟨hc, hsame, hclean, -, hread⟩ := h.flushdir
  dsimp only
  have hdir : ({ db.flushdir with dirbno := some b, dirbuf := db.flushdir.dirf.read b } : Dbm).dirBlock = db.dirBlock := by
    funext b'
    conv_lhs => unfold Dbm.dirBlock
    rw [hread]
    split
    · rename_i heq
      rw [some.inj heq]
    · rfl
  refine ⟨⟨hc.pag, hc.clean, hc.dirty, ?_, fun _ => by simp, ?_⟩,
    ⟨hsame.page, hdir, hsame.maxbno, hsame.rdonly, hsame.ioerr⟩, rfl, by rw [hread]⟩
  · intro b' hb' _
    rw [← some.inj hb']
  · intro n hn
    have := h.maxbno n (by rwa [Dbm.bit, hdir] at hn)
    rwa [← hsame.maxbno] at this

lemma Cached.flushpag (h : Cached db) :
    Cached db.flushpag ∧ Same db db.flushpag ∧ db.flushpag.dirty = false ∧ db.flushpag.pagf.read = db.page ∧
      db.flushpag.blkno = db.blkno ∧ db.flushpag.hmask = db.hmask ∧ db.flushpag.bitno = db.bitno := by
  cases hd : db.dirty with
  | false =>
    rw [flushpag_of_clean hd]
    refine ⟨h, Same.refl db, hd, ?_, rfl, rfl, rfl⟩
    funext b
    unfold Dbm.page
    split
    · rename_i hb
      exact (h.clean b hb hd).symm
    · rfl
  | true =>
    obtain ⟨b, hb⟩ := ne_none_iff_exists'.mp (h.dirty hd)
    rw [flushpag_of_dirty hd hb (h.pag b hb)]
    have hread : (db.pagf.write b db.pagbuf).read = db.page := by
      funext b'
      unfold Dbm.page
      rw [hb]
      by_cases hbb : b' = b
      · rw [hbb, if_pos rfl, File.read_write_self]
      · rw [if_neg (fun heq => hbb (some.inj heq).symm), File.read_write_ne _ _ hbb]
    have hpage : ({ db with pagf := db.pagf.write b db.pagbuf, dirty := false } : Dbm).page = db.page := by
      funext b'
      conv_lhs => unfold Dbm.page
      rw [hread]
      split
      · rename_i hbb
        unfold Dbm.page
        rw [if_pos hbb]
      · rfl
    refine ⟨⟨h.pag, ?_, fun hf => absurd hf Bool.false_ne_true, h.dirClean, h.dirDirty, h.maxbno⟩, ⟨hpage, rfl, rfl, rfl, rfl⟩, rfl,
      hread, rfl, rfl, rfl⟩
    intro b' hb' _
    rw [hread]
    unfold Dbm.page
    rw [if_pos hb']

lemma Cached.loadPage (h : Cached db) {b : Nat} (hb : b < 2 ^ 21) :
    Cached (db.loadPage b) ∧ Same db (db.loadPage b) ∧ (db.loadPage b).pagbno = some b ∧
      (db.loadPage b).pagbuf = db.page b ∧ (db.loadPage b).blkno = db.blkno ∧ (db.loadPage b).hmask = db.hmask ∧
        (db.loadPage b).bitno = db.bitno := by
  unfold Dbm.loadPage
  split
  · rename_i hpb
    refine ⟨h, Same.refl db, hpb, ?_, rfl, rfl, rfl⟩
    unfold Dbm.page
    rw [if_pos hpb]
  obtain ⟨hc, hsame, hclean, hread, hblk, hmask, hbit⟩ := h.flushpag
  rw [seek_of_lt hb]
  dsimp only
  have hpage : ({ db.flushpag with pagbno := some b, pagbuf := db.flushpag.pagf.read b } : Dbm).page = db.page := by
    funext b'
    conv_lhs => unfold Dbm.page
    rw [hread]
    split
    · rename_i heq
      rw [some.inj heq]
    · rfl
  refine ⟨⟨?_, ?_, fun _ => by simp, hc.dirClean, hc.dirDirty, hc.maxbno⟩,
    ⟨hpage, hsame.dir, hsame.maxbno, hsame.rdonly, hsame.ioerr⟩, rfl, by rw [hread], hblk, hmask, hbit⟩
  · intro b' hb'
    rwa [← some.inj hb']
  · intro b' hb' _
    rw [← some.inj hb']

end Load

end Solaris.Ndbm
