import Solaris.Ndbm.Page

/-!
# A database and its two files

The page file and the directory file are read and written by blocks, through one buffer each. The directory says, bit
by bit, which pages have been split. An offset in the page file is a 32-bit number, and a negative one cannot be
sought.
-/

namespace Solaris.Ndbm

def DBLKSIZ : Nat := 4096

def BYTESIZ : Nat := 8

structure File where
  blocks : Nat
  block : Nat → Block

namespace File

def empty : File := ⟨0, fun _ => zeroBlock⟩

def read (f : File) (b : Nat) : Block := if b < f.blocks then f.block b else zeroBlock

/-- A block is written; what lies between the old end of the file and the block is zeros. -/
def write (f : File) (b : Nat) (buf : Block) : File := ⟨max f.blocks (b + 1), Function.update f.read b buf⟩

end File

/-- The block at `(off_t)(bno * PBLKSIZ)`, when that can be sought. -/
def seek (bno : Nat) : Option Nat :=
  let offset := bno * PBLKSIZ % 2 ^ 32
  if offset < 2 ^ 31 then some (offset / PBLKSIZ) else none

structure Dbm where
  rdonly : Bool
  ioerr : Bool
  defwrite : Bool
  dirty : Bool
  dirdirty : Bool
  maxbno : Int
  bitno : Nat
  hmask : Nat
  blkno : Nat
  pagbno : Option Nat
  pagbuf : Block
  dirbno : Option Nat
  dirbuf : Block
  pagf : File
  dirf : File

def dbmOpen (rdonly : Bool) (pagf dirf : File) : Dbm where
  rdonly := rdonly
  ioerr := false
  defwrite := false
  dirty := false
  dirdirty := false
  maxbno := dirf.blocks * DBLKSIZ * BYTESIZ - 1
  bitno := 0
  hmask := 0
  blkno := 0
  pagbno := none
  pagbuf := zeroBlock
  dirbno := none
  dirbuf := zeroBlock
  pagf := pagf
  dirf := dirf

namespace Dbm

variable (db : Dbm)

def setdefwrite : Dbm := { db with defwrite := true }

section Blocks

/-- A page is written; the answer says whether it could be. -/
def writePage (bno : Nat) (buf : Block) : Bool × Dbm :=
  match seek bno with
  | some b => (true, { db with pagf := db.pagf.write b buf })
  | none => (false, { db with ioerr := true })

def flushpag : Dbm :=
  if db.dirty then
    match db.pagbno with
    | some b => { (db.writePage b db.pagbuf).2 with dirty := false }
    | none => { db with dirty := false, ioerr := true }
  else db

def flushdir : Dbm :=
  if db.dirdirty then
    match db.dirbno with
    | some b => { db with dirf := db.dirf.write b db.dirbuf, dirdirty := false }
    | none => { db with dirdirty := false }
  else db

def loadDir (b : Nat) : Dbm :=
  if db.dirbno = some b then db
  else
    let db := db.flushdir
    { db with dirbno := some b, dirbuf := db.dirf.read b }

def loadPage (b : Nat) : Dbm :=
  if db.pagbno = some b then db
  else
    let db := db.flushpag
    { db with
      pagbno := some b
      pagbuf := match seek b with
        | some b => db.pagf.read b
        | none => zeroBlock }

/-- The file and the buffers when the database is closed. -/
def close : File × File :=
  let db := db.flushpag.flushdir
  (db.pagf, db.dirf)

end Blocks

section Directory

def dirBlk (bitno : Nat) : Nat := bitno / BYTESIZ / DBLKSIZ

def dirByte (bitno : Nat) : Nat := bitno / BYTESIZ % DBLKSIZ

/-- A directory bit, and the database after its block is read. -/
def testbit (bitno : Nat) : Bool × Dbm :=
  if bitno > db.maxbno then (false, db)
  else
    let db := db.loadDir (dirBlk bitno)
    ((db.dirbuf (dirByte bitno)).getLsbD (bitno % BYTESIZ), db)

/-- The loop of `dbm_access`. -/
def walk (hash : Nat) : Nat → Nat → Dbm → Dbm
  | 0, hmask, db => { db with hmask := hmask }
  | j + 1, hmask, db =>
    let blkno := hash &&& hmask
    let bitno := blkno + hmask
    let r := db.testbit bitno
    let db := { r.2 with blkno := blkno, bitno := bitno, hmask := hmask }
    if r.1 then walk hash j (hmask * 2 + 1) db else db

def access (hash : Nat) : Dbm :=
  let db := walk hash 32 0 db
  db.loadPage db.blkno

def setbit : Dbm :=
  let db := { db with maxbno := max db.maxbno db.bitno }
  let db := db.loadDir (dirBlk db.bitno)
  let i := dirByte db.bitno
  let db := { db with dirbuf := Function.update db.dirbuf i (db.dirbuf i ||| BitVec.twoPow 8 (db.bitno % BYTESIZ)) }
  if db.defwrite then { db with dirdirty := true }
  else { db with dirf := db.dirf.write (dirBlk db.bitno) db.dirbuf }

end Directory

section Calls

def fetch (key : Bytes) : Option Bytes × Dbm :=
  if db.ioerr then (none, db)
  else
    let db := db.access (dcalchash key)
    match finddatum db.pagbuf key with
    | some i => (makdatum db.pagbuf (i + 1), db)
    | none => (none, db)

/-- Why a call answers -1: the error flag was set, the handle is read-only, there is no such key, the page is not well
formed, the pair is larger than a page, a page cannot be written, or all hashes are the same. -/
inductive Failure where
  | refused
  | rdonly
  | absent
  | damaged
  | nospace
  | io
  | collision
  deriving DecidableEq

inductive Result where
  | ok
  | present
  | failed (f : Failure)
  | looping
  deriving DecidableEq

def fail (f : Failure) : Result × Dbm := (.failed f, { db with ioerr := true })

/-- The page is written, or marked when writes are deferred. -/
def writeBack : Result × Dbm :=
  let db := { db with pagbno := some db.blkno }
  if db.defwrite then (.ok, { db with dirty := true })
  else
    match db.writePage db.blkno db.pagbuf with
    | (true, db) => (.ok, db)
    | (false, db) => (.failed .io, db)

def delete (key : Bytes) : Result × Dbm :=
  if db.ioerr then (.failed .refused, db)
  else if db.rdonly then (.failed .rdonly, db)
  else
    let db := db.access (dcalchash key)
    match finddatum db.pagbuf key with
    | none => (.failed .absent, db)
    | some i =>
      match delitem db.pagbuf i with
      | none => db.fail .damaged
      | some buf => writeBack { db with pagbuf := buf }

structure Split where
  page : Block
  ovfbuf : Block
  hashdiff : Nat
  err : Bool

/-- The loop that moves items; it stops with an error when an item cannot be moved. -/
def splitLoop (hmask keyHash : Nat) : Nat → Nat → Split → Option Split
  | 0, _, s => some s
  | fuel + 1, i, s =>
    match makdatum s.page i with
    | none => some s
    | some item =>
      let hash := dcalchash item
      let s := { s with hashdiff := if hash ≠ keyHash then s.hashdiff + 1 else s.hashdiff }
      if hash &&& (hmask + 1) ≠ 0 then
        match makdatum s.page (i + 1) with
        | none => some { s with err := true }
        | some item1 =>
          match additem s.ovfbuf item item1, delitem s.page i with
          | some ovfbuf, some page => splitLoop hmask keyHash fuel i { s with page := page, ovfbuf := ovfbuf }
          | some _, none => none
          | none, _ => none
      else splitLoop hmask keyHash fuel (i + 2) s

def split (keyHash : Nat) : Result × Dbm :=
  match splitLoop db.hmask keyHash (sp db.pagbuf 0 + 1) 0 ⟨db.pagbuf, zeroBlock, 0, false⟩ with
  | none => db.fail .damaged
  | some s =>
    let db := { db with pagbuf := s.page, ioerr := db.ioerr || s.err, pagbno := some db.blkno }
    match db.writePage db.blkno s.page with
    | (false, db) => (.failed .io, db)
    | (true, db) =>
      let db := { db with dirty := false }
      match db.writePage (db.blkno + db.hmask + 1) s.ovfbuf with
      | (false, db) => (.failed .io, db)
      | (true, db) =>
        let db := db.setbit
        if s.hashdiff = 0 then db.fail .collision else (.ok, db)

/-- `dbm_store` from its label `loop` on. -/
def storeLoop (key dat : Bytes) (replace : Bool) : Nat → Dbm → Result × Dbm
  | 0, db => (.looping, db)
  | fuel + 1, db =>
    let db := db.access (dcalchash key)
    let found := finddatum db.pagbuf key
    if found ≠ none ∧ replace = false then (.present, db)
    else
      match found.elim (some db.pagbuf) (delitem db.pagbuf) with
      | none => db.fail .damaged
      | some buf =>
        let db := { db with pagbuf := buf }
        match additem db.pagbuf key dat with
        | some buf => writeBack { db with pagbuf := buf }
        | none =>
          if key.length + dat.length + 3 * 2 ≥ PBLKSIZ then db.fail .nospace
          else
            match db.split (dcalchash key) with
            | (.ok, db) => storeLoop key dat replace fuel db
            | r => r

def store (key dat : Bytes) (replace : Bool) : Result × Dbm :=
  if db.ioerr then (.failed .refused, db)
  else if db.rdonly then (.failed .rdonly, db)
  else storeLoop key dat replace 33 db

end Calls

end Dbm

end Solaris.Ndbm
