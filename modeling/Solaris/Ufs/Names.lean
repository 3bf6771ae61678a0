import Solaris.Ufs.Geometry

/-!
# Names

`ufs_direnter` for a rename and the functions of `ufs_dir.c` that it calls, and `ufs_dirremove` for the source of a
rename. A directory has its live entries, and the record of `..` that stands behind the one of `.`.
-/

namespace Solaris.Ufs

def ufsRootIno : Nat := 2

def maxLink : Int := 32767

structure DirInode where
  isDir : Bool
  nlink : Int
  /-- the live entries, without `.` and `..` -/
  entries : List (String × Nat)
  dotdot : Nat
  /-- the second record has the name `..` -/
  dotdotName : Bool
  /-- the size is below the one of a `struct dirtemplate` -/
  short : Bool

abbrev Names := Nat → DirInode

def Names.modify (t : Names) (i : Nat) (f : DirInode → DirInode) : Names := Function.update t i (f (t i))

def DirInode.link (n : Int) (ip : DirInode) : DirInode := { ip with nlink := ip.nlink + n }

def DirInode.setDotdot (ino : Nat) (ip : DirInode) : DirInode := { ip with dotdot := ino }

def DirInode.find (ip : DirInode) (name : String) : Option Nat := (ip.entries.find? (·.1 = name)).map (·.2)

def DirInode.erase (name : String) (ip : DirInode) : DirInode :=
  { ip with entries := ip.entries.filter (·.1 ≠ name) }

/-- The name stands for `ino` from now on. -/
def DirInode.enter (name : String) (ino : Nat) (ip : DirInode) : DirInode :=
  { ip with entries := (name, ino) :: (ip.erase name).entries }

inductive Perm
  | exec
  | write
  | execWrite

structure Env where
  /-- `ufs_iaccess` -/
  access : Nat → Perm → Option Errno
  /-- the check of a directory with the sticky bit, for a file in it -/
  sticky : Nat → Nat → Option Errno
  /-- `blkatoff` of the first block of a directory -/
  blkatoff : Nat → Option Errno
  /-- the reads of `ufs_dircheckforname` -/
  search : Nat → Option Errno
  /-- `dirprepareentry` -/
  prepare : Nat → Option Errno
  iget : Nat → Option Errno
  /-- the reads of `ufs_dirempty` -/
  scan : Nat → Bool
  sameVfs : Nat → Nat → Bool
  /-- `vn_vfslock` fails -/
  vfslocked : Nat → Bool
  mountedhere : Nat → Bool

section Check

variable (e : Env) (t : Names)

/-- The loop of `ufs_dircheckpath` at `ip`. -/
def dircheckpathLoop (sourceIno : Nat) : Nat → Nat → Option (Option Errno)
  | 0, _ => none
  | fuel + 1, ip =>
    match e.blkatoff ip with
    | some err => some (some err)
    | none =>
      if (t ip).isDir = false ∨ (t ip).nlink = 0 ∨ (t ip).short then some (some .enotdir)
      else if (t ip).dotdotName = false then some (some .enotdir)
      else if (t ip).dotdot = sourceIno then some (some .einval)
      else if (t ip).dotdot = ufsRootIno then some none
      else
        match e.iget (t ip).dotdot with
        | some err => some (some err)
        | none => dircheckpathLoop sourceIno fuel (t ip).dotdot

def ufsDircheckpath (sourceIno target fuel : Nat) : Option (Option Errno) :=
  if target = sourceIno then some (some .einval)
  else if target = ufsRootIno then some none
  else dircheckpathLoop e t sourceIno fuel target

/-- `ufs_dircheckforname`: the inode that the name stands for, if there is one. -/
def ufsDircheckforname (tdp : Nat) (namep : String) : Except Errno (Option Nat) :=
  match e.search tdp with
  | some err => .error err
  | none =>
    match (t tdp).find namep with
    | none => .ok none
    | some ino =>
      if tdp = ino then .ok (some tdp)
      else
        match e.iget ino with
        | some err => .error err
        | none => .ok (some ino)

/-- `ufs_dirempty`: no entries but `.` and a `..` that names the parent. -/
def ufsDirempty (ip parentino : Nat) : Bool :=
  e.scan ip && (t ip).entries.isEmpty && (t ip).dotdot == parentino

end Check

section Change

variable (e : Env)

def ufsDirfixdotdot (t : Names) (dp opdp npdp : Nat) : Option Errno × Names :=
  match e.blkatoff dp with
  | some err => (some err, t)
  | none =>
    if (t dp).nlink = 0 ∨ (t dp).short then (none, t)
    else if (t dp).dotdot = npdp then (none, t)
    else if (t dp).dotdotName = false then (some .enotdir, t)
    else if (t npdp).nlink = maxLink then (some .emlink, t)
    else
      let t := t.modify npdp (DirInode.link 1)
      let t := t.modify dp (DirInode.setDotdot npdp)
      if (t opdp).nlink ≠ 0 then (none, t.modify opdp (DirInode.link (-1))) else (none, t)

def ufsDirrename (t : Names) (sdp sip tdp : Nat) (namep : String) (tip : Nat) : Option Errno × Names :=
  if sip = tip then (some .esame, t)
  else if e.sameVfs tip tdp = false ∨ e.sameVfs tip sip = false then (some .exdev, t)
  else
    match e.access tdp .write with
    | some err => (some err, t)
    | none =>
      match e.sticky tdp tip with
      | some err => (some err, t)
      | none =>
        let doingdirectory := (t sip).isDir
        if (t tip).isDir = true ∧ doingdirectory = false then (some .eisdir, t)
        else if (t tip).isDir = true ∧ (e.vfslocked tip = true ∨ e.mountedhere tip = true) then (some .ebusy, t)
        else if (t tip).isDir = true ∧ (ufsDirempty e t tip tdp = false ∨ 2 < (t tip).nlink) then (some .eexist, t)
        else if (t tip).isDir = false ∧ doingdirectory = true then (some .enotdir, t)
        else
          let t := t.modify tdp (DirInode.enter namep sip)
          let t := t.modify tip (DirInode.link (-1))
          if doingdirectory then
            let t := t.modify tip (DirInode.link (-1))
            if (t tip).nlink ≠ 0 then (some .fault, t)
            else
              let t := t.modify tdp (DirInode.link (-1))
              if sdp ≠ tdp then ufsDirfixdotdot e t sip sdp tdp else (none, t)
          else (none, t)

/-- `ufs_diraddentry` of a rename. -/
def ufsDiraddentry (t : Names) (tdp : Nat) (namep : String) (sip sdp : Nat) : Option Errno × Names :=
  match e.prepare tdp with
  | some err => (some err, t)
  | none =>
    if e.sameVfs tdp sip = false then (some .exdev, t)
    else if (t sip).isDir then
      match ufsDirfixdotdot e t sip sdp tdp with
      | (some err, t) => (some err, t)
      | (none, t) => (none, t.modify tdp (DirInode.enter namep sip))
    else (none, t.modify tdp (DirInode.enter namep sip))

/-- The part of `ufs_direnter` behind the bump of the link count, for a rename. -/
def direnterRename (t : Names) (tdp : Nat) (namep : String) (sdp sip fuel : Nat) :
    Option (Option Errno × Names) :=
  if (t tdp).nlink = 0 then some (some .enoent, t)
  else if (t tdp).isDir = false then some (some .enotdir, t)
  else
    match e.access tdp .exec with
    | some err => some (some err, t)
    | none =>
      if sip = tdp then some (some .einval, t)
      else
        let path : Option (Option Errno) :=
          if (t sip).isDir = true ∧ sdp ≠ tdp then
            match e.access sip .write with
            | some err => some (some err)
            | none => ufsDircheckpath e t sip tdp fuel
          else some none
        match path with
        | none => none
        | some (some err) => some (some err, t)
        | some none =>
          match ufsDircheckforname e t tdp namep with
          | .error err => some (some err, t)
          | .ok (some tip) => some (ufsDirrename e t sdp sip tdp namep tip)
          | .ok none =>
            match e.access tdp .write with
            | some err => some (some err, t)
            | none => some (ufsDiraddentry e t tdp namep sip sdp)

/-- `ufs_direnter` with `DE_RENAME`; no answer when the walk of `ufs_dircheckpath` does not end within the fuel. -/
def ufsDirenter (t : Names) (tdp : Nat) (namep : String) (sdp sip fuel : Nat) :
    Option (Option Errno × Names) :=
  if '/' ∈ namep.toList then some (some .eacces, t)
  else if namep = "" then some (some .fault, t)
  else if namep = "." ∨ namep = ".." then some (some .einval, t)
  else if (t sip).nlink = 0 then some (some .enoent, t)
  else if (t sip).nlink = maxLink then some (some .emlink, t)
  else
    match direnterRename e (t.modify sip (DirInode.link 1)) tdp namep sdp sip fuel with
    | none => none
    | some (none, t) => some (none, t)
    | some (some err, t) => some (some err, t.modify sip (DirInode.link (-1)))

/-- `ufs_dirremove` with `DR_RENAME`. -/
def ufsDirremove (t : Names) (dp : Nat) (namep : String) (oip : Nat) : Option Errno × Names :=
  if namep = "" then (some .fault, t)
  else if namep = "." then (some .einval, t)
  else if namep = ".." then (some .eexist, t)
  else if (t dp).isDir = false then (some .enotdir, t)
  else
    match e.access dp .execWrite with
    | some err => (some err, t)
    | none =>
      match ufsDircheckforname e t dp namep with
      | .error err => (some err, t)
      | .ok none => (some .enoent, t)
      | .ok (some ip) =>
        if oip ≠ ip then (some .enoent, t)
        else if e.vfslocked ip then (some .ebusy, t)
        else
          match e.sticky dp ip with
          | some err => (some err, t)
          | none =>
            let t := t.modify dp (DirInode.erase namep)
            if 0 < (t ip).nlink then (none, t.modify ip (DirInode.link (-1))) else (none, t)

end Change

end Solaris.Ufs
