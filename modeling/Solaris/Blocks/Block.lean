import Mathlib.Data.BitVec
import Mathlib.Tactic

/-!
# Message blocks and data blocks

A message block refers to a data block by its address. A data block counts its message blocks, with a minimum that is kept
in a bit of its flags, and is given back by a free method of its own. Addresses of buffers and of blocks are numbers; the
heap holds the data blocks in use, and an access to any other one is `none`.
-/

namespace Solaris.Blocks

open Function BitVec Option

/-- The values of `db_lastfree`. -/
inductive Lastfree where
  | dblkLastfree
  | dblkLastfreeDesb
  | dblkLastfreeOversize
  | freebsEnqueue
  deriving DecidableEq

/-- The values of `db_free`. -/
inductive Method where
  | dblkDecref
  | last (m : Lastfree)
  deriving DecidableEq

/-- `struct datab`; a data block belongs to `dblk_cache` at an index, or to `dblk_esb_cache`. -/
structure Dblk where
  dbCache : Option Nat
  dbBase : Nat
  dbLim : Nat
  dbRef : BitVec 8
  dbType : BitVec 8
  dbFlags : BitVec 8
  dbMblk : Nat
  dbFree : Method
  dbLastfree : Lastfree
  /-- the buffer, by address -/
  data : Nat → UInt8

/-- `struct msgb`, with its own address. -/
structure Mblk where
  addr : Nat
  bDatap : Nat
  bRptr : Nat
  bWptr : Nat
  bBand : BitVec 8
  bFlag : BitVec 16
  deriving DecidableEq

abbrev Heap := Nat → Option Dblk

def DBLK_REFMIN : BitVec 8 := 0x01

def DBLK_UNSAFE : BitVec 8 := 0x10

def M_DATA : BitVec 8 := 0x00

/-- The word that holds `db_ref`, `db_type`, `db_flags` and `db_struioflag`. -/
def dblkRtfu (ref : BitVec 32) (type flags : BitVec 8) (uioflag : BitVec 32) : BitVec 32 :=
  ref <<< 24 ||| type.setWidth 32 <<< 16 ||| (flags.setWidth 32 ||| (ref - 1)) <<< 8 ||| uioflag

def Dblk.setRefTypeFlag (dbp : Dblk) (rtfu : BitVec 32) : Dblk :=
  { dbp with
    dbRef := rtfu.extractLsb' 24 8
    dbType := rtfu.extractLsb' 16 8
    dbFlags := rtfu.extractLsb' 8 8 }

/-- What `DBLK_REFMIN` of the flags adds to the count. -/
def Dblk.refmin (dbp : Dblk) : Nat := (dbp.dbFlags &&& DBLK_REFMIN).toNat

/-- `dblk_constructor` and `dblk_esb_constructor`, with a block of `mblk_cache` attached. -/
def dblkConstructor (dbCache : Option Nat) (base size mblk : Nat) (data : Nat → UInt8) : Dblk where
  dbCache := dbCache
  dbBase := base
  dbLim := base + size
  dbRef := 0
  dbType := 0
  dbFlags := 0
  dbMblk := mblk
  dbFree := .last .dblkLastfree
  dbLastfree := .dblkLastfree
  data := data

/-- The message block attached to a data block `d`, at the start of the buffer. -/
def Dblk.attached (d : Nat) (dbp : Dblk) : Mblk := ⟨dbp.dbMblk, d, dbp.dbBase, dbp.dbBase, 0, 0⟩

/-- `allocb`, with what `kmem_cache_alloc` has returned. -/
def allocb (d : Nat) (dbp : Dblk) : Mblk × Dblk :=
  (dbp.attached d, dbp.setRefTypeFlag (dblkRtfu 1 M_DATA 0 0))

def gesballoc (d : Nat) (dbp : Dblk) (base size : Nat) (rtfu : BitVec 32) (lastfree : Lastfree) : Mblk × Dblk :=
  let dbp := { dbp with dbBase := base, dbLim := base + size, dbFree := .last lastfree, dbLastfree := lastfree }
  (dbp.attached d, dbp.setRefTypeFlag rtfu)

def esballoc (d : Nat) (dbp : Dblk) (base size : Nat) (unsafeHeld : Bool) : Mblk × Dblk :=
  gesballoc d dbp base size (if unsafeHeld then dblkRtfu 1 M_DATA DBLK_UNSAFE 0 else dblkRtfu 1 M_DATA 0 0) .freebsEnqueue

def desballoc (d : Nat) (dbp : Dblk) (base size : Nat) : Mblk × Dblk :=
  gesballoc d dbp base size (dblkRtfu 1 M_DATA 0 0) .dblkLastfreeDesb

def esballoca (d : Nat) (dbp : Dblk) (base size : Nat) : Mblk × Dblk :=
  gesballoc d dbp base size (dblkRtfu 2 M_DATA 0 0) .freebsEnqueue

def desballoca (d : Nat) (dbp : Dblk) (base size : Nat) : Mblk × Dblk :=
  gesballoc d dbp base size (dblkRtfu 2 M_DATA 0 0) .dblkLastfreeDesb

def allocbOversize (d : Nat) (dbp : Dblk) (base size : Nat) : Mblk × Dblk :=
  gesballoc d dbp base size (dblkRtfu 1 M_DATA 0 0) .dblkLastfreeOversize

/-- What is given back: a message block to `mblk_cache`, or by `db_lastfree` a data block with its message block. -/
inductive Freed where
  | mblk (mp : Nat)
  | dblk (m : Lastfree) (mp : Nat)

/-- `db_ref - 1` is an `int`. -/
def dblkDecref (mp : Nat) (dbp : Dblk) : Freed × Dblk :=
  if dbp.dbRef ≠ 1 ∧ (dbp.dbRef.toNat : Int) - 1 ≠ (dbp.dbFlags &&& DBLK_REFMIN).toNat then
    (.mblk mp, { dbp with dbRef := dbp.dbRef - 1 })
  else (.dblk dbp.dbLastfree mp, { dbp with dbMblk := mp, dbFree := .last dbp.dbLastfree })

/-- The call of `db_free`. -/
def Dblk.free (mp : Nat) (dbp : Dblk) : Freed × Dblk :=
  match dbp.dbFree with
  | .dblkDecref => dblkDecref mp dbp
  | .last m => (.dblk m mp, dbp)

/-- A data block that has been given back is out of the heap. -/
def freeb (h : Heap) (mp : Mblk) : Option (Freed × Heap) :=
  (h mp.bDatap).map fun dbp =>
    match dbp.free mp.addr with
    | (.mblk a, dbp') => (.mblk a, update h mp.bDatap (some dbp'))
    | (.dblk m a, _) => (.dblk m a, update h mp.bDatap none)

/-- `dupb`, with what `kmem_cache_alloc` returns. -/
def dupb (h : Heap) (mp : Mblk) (new : Option Nat) : Option (Option Mblk × Heap) :=
  (h mp.bDatap).map fun dbp =>
    match new with
    | none => (none, h)
    | some newMp =>
      if dbp.dbFree ≠ .dblkDecref then
        (some { mp with addr := newMp },
          update h mp.bDatap (some { dbp with dbFree := .dblkDecref, dbRef := dbp.dbRef + 1 }))
      else if dbp.dbRef = 255 then (none, h)
      else (some { mp with addr := newMp }, update h mp.bDatap (some { dbp with dbRef := dbp.dbRef + 1 }))

variable {h : Heap} {mp : Mblk} {dbp : Dblk} {a : Nat}

lemma refmin_le (dbp : Dblk) : dbp.refmin ≤ 1 := by
  exact Nat.and_le_right

theorem free_more (hfree : dbp.dbFree = .dblkDecref) (hmore : dbp.refmin + 1 < dbp.dbRef.toNat) :
    dbp.free a = (.mblk a, { dbp with dbRef := dbp.dbRef - 1 }) ∧ (dbp.dbRef - 1).toNat + 1 = dbp.dbRef.toNat := by
  have hne : dbp.dbRef ≠ 1 := by
    rintro heq
    rw [heq] at hmore
    simp at hmore
  unfold Dblk.free dblkDecref
  rw [hfree]
  rw [if_pos ⟨hne, by unfold Dblk.refmin at hmore; omega⟩]
  refine ⟨rfl, ?_⟩
  rw [toNat_sub_of_le]
  · have h1 : (1 : BitVec 8).toNat = 1 := rfl
    omega
  · rw [le_def]
    have h1 : (1 : BitVec 8).toNat = 1 := rfl
    omega

lemma free_last (hfree : dbp.dbFree = .dblkDecref ∨ dbp.dbFree = .last dbp.dbLastfree)
    (hlast : dbp.dbRef.toNat = 1 + dbp.refmin) :
    dbp.free a = (.dblk dbp.dbLastfree a, { dbp with
      dbMblk := if dbp.dbFree = .dblkDecref then a else dbp.dbMblk, dbFree := .last dbp.dbLastfree }) := by
  unfold Dblk.free
  rcases hfree with hfree | hfree
  · rw [hfree, if_pos rfl]
    unfold dblkDecref
    rw [if_neg]
    rintro ⟨_, hne⟩
    unfold Dblk.refmin at hlast
    omega
  · have hsame : { dbp with dbFree := .last dbp.dbLastfree } = dbp := by rw [← hfree]
    rw [if_neg (by simp [hfree])]
    refine Eq.trans ?_ (congrArg (Prod.mk (Freed.dblk dbp.dbLastfree a)) hsame.symm)
    rw [hfree]

lemma ref_succ (hlt : dbp.dbRef.toNat < 255) : (dbp.dbRef + 1).toNat = dbp.dbRef.toNat + 1 := by
  have h1 : (1 : BitVec 8).toNat = 1 := rfl
  rw [toNat_add, h1, Nat.mod_eq_of_lt (by omega)]

lemma freeb_more (hd : h mp.bDatap = some dbp) (hfree : dbp.dbFree = .dblkDecref)
    (hmore : dbp.refmin + 1 < dbp.dbRef.toNat) :
    freeb h mp = some (.mblk mp.addr, update h mp.bDatap (some { dbp with dbRef := dbp.dbRef - 1 })) := by
  unfold freeb
  rw [hd, map_some, (free_more hfree hmore).1]

lemma freeb_last (hd : h mp.bDatap = some dbp)
    (hfree : dbp.dbFree = .dblkDecref ∨ dbp.dbFree = .last dbp.dbLastfree)
    (hlast : dbp.dbRef.toNat = 1 + dbp.refmin) :
    freeb h mp = some (.dblk dbp.dbLastfree mp.addr, update h mp.bDatap none) := by
  unfold freeb
  rw [hd, map_some, free_last hfree hlast]

theorem dupb_eq (hd : h mp.bDatap = some dbp) (hfree : dbp.dbFree = .dblkDecref ∨ dbp.dbRef.toNat = 1 + dbp.refmin)
    (new : Option Nat) :
    dupb h mp new = some (match new with
      | none => (none, h)
      | some a =>
        if dbp.dbRef = 255 then (none, h)
        else (some { mp with addr := a },
          update h mp.bDatap (some { dbp with dbFree := .dblkDecref, dbRef := dbp.dbRef + 1 }))) := by
  unfold dupb
  rw [hd, map_some]
  cases new with
  | none => rfl
  | some a =>
    dsimp only
    by_cases hdec : dbp.dbFree = .dblkDecref
    · rw [if_neg (not_not.mpr hdec)]
      rw [← hdec]
    have hlow : dbp.dbRef.toNat = 1 + dbp.refmin := hfree.resolve_left hdec
    have hle := refmin_le dbp
    rw [if_pos hdec, if_neg]
    rintro heq
    rw [heq] at hlow
    have h255 : (255 : BitVec 8).toNat = 255 := rfl
    omega

end Solaris.Blocks
