import Solaris.Ufs.Cylinder

/-!
# Quotas

`chkdq` and `chkiq` of `quota_ufs.c`, on the limits and the usage of one owner. Usage is counted in sectors and in
files; a file system has less than 2^31 sectors, so that a count does not wrap. The flags `DQ_MOD`, `DQ_BLKS` and
`DQ_FILES` only decide about messages and writing back.
-/

namespace Solaris.Ufs

section Quotas

structure Dquot where
  bhardlimit : Nat
  bsoftlimit : Nat
  curblocks : Nat
  fhardlimit : Nat
  fsoftlimit : Nat
  curfiles : Nat
  btimelimit : Nat
  ftimelimit : Nat

/-- The quotas of a file system and the `dquot` that a call finds, which can be missing. -/
structure Quota where
  enabled : Bool
  /-- `hrestime.tv_sec` -/
  now : Nat
  vfsBtimelimit : Nat
  vfsFtimelimit : Nat
  dquot : Option Dquot

namespace Dquot

variable (dq : Dquot)

/-- The limits of `chkdq` for an allocation: the answer, and the time limit as it is then. -/
def checkBlocks (now grace ncurblocks : Nat) (force : Bool) : Option Errno × Nat :=
  let error := if dq.bhardlimit ≤ ncurblocks ∧ dq.bhardlimit ≠ 0 ∧ force = false then some Errno.edquot else none
  if dq.bsoftlimit ≤ ncurblocks ∧ dq.bsoftlimit ≠ 0 then
    if dq.curblocks < dq.bsoftlimit ∨ dq.btimelimit = 0 then (error, now + grace)
    else if dq.btimelimit < now ∧ force = false then (some .edquot, dq.btimelimit)
    else (error, dq.btimelimit)
  else (error, dq.btimelimit)

/-- The limits of `chkiq` for an allocation. -/
def checkFiles (now grace ncurfiles : Nat) (force : Bool) : Option Errno × Nat :=
  if dq.fhardlimit ≤ ncurfiles ∧ dq.fhardlimit ≠ 0 ∧ force = false then (some .edquot, dq.ftimelimit)
  else if dq.fsoftlimit ≤ ncurfiles ∧ dq.fsoftlimit ≠ 0 then
    if ncurfiles = dq.fsoftlimit ∨ dq.ftimelimit = 0 then (none, now + grace)
    else if dq.ftimelimit < now ∧ force = false then (some .edquot, dq.ftimelimit)
    else (none, dq.ftimelimit)
  else (none, dq.ftimelimit)

end Dquot

/-- `chkdq` on the `dquot` of an inode. -/
def chkdq (q : Quota) (change : Int) (force : Bool) (uid : Nat) : Option Errno × Quota :=
  if change = 0 then (none, q)
  else
    match q.dquot with
    | none => (none, q)
    | some dq =>
      if q.enabled = false then (none, q)
      else if change < 0 then
        let curblocks := (dq.curblocks + change).toNat
        let btimelimit := if curblocks < dq.bsoftlimit then 0 else dq.btimelimit
        (none, { q with dquot := some { dq with curblocks, btimelimit } })
      else
        let ncurblocks := dq.curblocks + change.toNat
        if uid = 0 then (none, { q with dquot := some { dq with curblocks := ncurblocks } })
        else
          match dq.checkBlocks q.now q.vfsBtimelimit ncurblocks force with
          | (some err, btimelimit) => (some err, { q with dquot := some { dq with btimelimit } })
          | (none, btimelimit) => (none, { q with dquot := some { dq with curblocks := ncurblocks, btimelimit } })

/-- `chkiq` without an inode: one file more for the owner that `getdiskquota` finds. -/
def chkiq (q : Quota) (force : Bool) (uid : Nat) : Option Errno × Quota :=
  if q.enabled = false then (none, q)
  else
    match q.dquot with
    | none => (none, q)
    | some dq =>
      if dq.fsoftlimit = 0 ∧ dq.fhardlimit = 0 then (none, q)
      else if uid = 0 then (none, { q with dquot := some { dq with curfiles := dq.curfiles + 1 } })
      else
        match dq.checkFiles q.now q.vfsFtimelimit (dq.curfiles + 1) force with
        | (some err, ftimelimit) => (some err, { q with dquot := some { dq with ftimelimit } })
        | (none, ftimelimit) => (none, { q with dquot := some { dq with curfiles := dq.curfiles + 1, ftimelimit } })

end Quotas

/-!
## Allocation

The search for space in `ufs_alloc.c`, from a block in a cylinder group up to `alloc`, `realloccg` and `ufs_ialloc`.
-/

section Allocation

open Function

variable (L : Layout)

/-- The position with a free block, from `pos` on and then from 0 on. -/
def rotSearch (cylbp : Nat → Int) (pos nrpos : Nat) : Nat :=
  match (List.range (nrpos - pos)).find? fun k => 0 < cylbp (pos + k) with
  | some k => pos + k
  | none => ((List.range pos).find? fun i => 0 < cylbp i).getD pos

/-- The blocks that the rotational tables list, from block `i` of the cycle that starts at block `bno`. -/
def rotChain (blksfree : ByteMap) (bno : Nat) : Nat → Nat → Option Nat
  | 0, _ => none
  | fuel + 1, i =>
    if isblock L.g.frag blksfree (bno + i) then some (bno + i)
    else if L.rotbl i ≤ 0 ∨ (L.fragstoblks L.fpg : Int) < L.rotbl i + i then none
    else rotChain blksfree bno fuel (i + (L.rotbl i).toNat)

/-- The block at `gotit` of `alloccgblk`. -/
def takeBlock (c bno : Nat) (d : Disk) : Nat × Disk :=
  let d := d.setCg c fun cgp => { cgp with blksfree := clrblock L.g.frag cgp.blksfree (L.fragstoblks bno) }
  let d := d.count c (-1) 0
  (c * L.fpg + bno, d.setCg c fun cgp => cgp.countBlock L bno (-1))

/-- The next free block behind `bpref`. `mapsearch` does not return a block under `TRANS_ISCANCEL`. -/
def norot (c bpref : Nat) (d : Disk) : Nat × Disk :=
  match mapsearch L d.iscancel c bpref L.g.frag (d.cg c) with
  | (none, cgp) => (0, d.setCg c fun _ => cgp)
  | (some bno, cgp) => takeBlock L c bno (d.setCg c fun _ => { cgp with rotor := bno })

def alloccgblk (c bpref : Nat) (d : Disk) : Nat × Disk :=
  let cgp := d.cg c
  if bpref = 0 then norot L c cgp.rotor d
  else
    let bpref := L.dtogd (L.blknum bpref)
    let gotit := fun bno => if d.iscancel (c * L.fpg + bno) then norot L c bpref d else takeBlock L c bno d
    if isblock L.g.frag cgp.blksfree (L.fragstoblks bpref) then gotit bpref
    else
      let cylno := L.cbtocylno bpref
      if cgp.blktot cylno = 0 then norot L c bpref d
      else if L.cpc = 0 then norot L c (howmany (L.spc * cylno) L.nspf) d
      else
        let i := rotSearch (cgp.blks cylno) (L.cbtorpos bpref) L.nrpos
        if 0 < cgp.blks cylno i then
          let pos := cylno % L.cpc
          let bno := (cylno - pos) * L.spc / L.nspb
          if L.postbl pos i = -1 then (0, d)
          else
            match rotChain L cgp.blksfree bno (L.fragstoblks L.fpg + 1) (L.postbl pos i).toNat with
            | some blk => gotit (L.blkstofrags blk)
            | none => (0, d)
        else norot L c bpref d

/-- The smallest size from `frags` on for which the group counts a run, or a whole block. -/
def allocsiz (cgp : Cg) (frags : Nat) : Nat :=
  ((List.range (L.g.frag - frags)).find? fun k => cgp.frsum (frags + k) ≠ 0).elim L.g.frag (frags + ·)

/-- The first `frags` fragments of a run of `allocsiz` at `bno`. -/
def takeFrags (c bno frags allocsiz : Nat) (d : Disk) : Nat × Disk :=
  let d := d.setCg c fun cgp =>
    let frsum := update cgp.frsum allocsiz (cgp.frsum allocsiz - 1)
    { cgp with
      blksfree := (List.range frags).foldl (fun m i => clrbit m (bno + i)) cgp.blksfree
      frsum := if frags ≠ allocsiz then
          update frsum (allocsiz - frags) (frsum (allocsiz - frags) + 1)
        else frsum }
  (c * L.fpg + bno, d.count c 0 (-frags))

/-- A whole block, of which the fragments behind the first `frags` stay free. -/
def splitBlock (c bpref frags : Nat) (d : Disk) : Nat × Disk :=
  if (d.cg c).cs.nbfree = 0 then (0, d)
  else
    match alloccgblk L c bpref d with
    | (0, d) => (0, d)
    | (bno, d) =>
      let i := L.g.frag - frags
      let d := d.setCg c fun cgp => { cgp with
        blksfree := (List.range i).foldl (fun m k => setbit m (L.dtogd bno + frags + k)) cgp.blksfree
        frsum := update cgp.frsum i (cgp.frsum i + 1) }
      (bno, d.count c 0 i)

def alloccg (c bpref size : Nat) (d : Disk) : Nat × Disk :=
  if (d.cs c).nbfree = 0 ∧ size = L.g.bsize then (0, d)
  else if (d.cg c).bad ∨ (d.cg c).cs.nbfree = 0 ∧ size = L.g.bsize then (0, d)
  else if size = L.g.bsize then alloccgblk L c bpref d
  else
    let frags := L.g.numfrags size
    let siz := allocsiz L (d.cg c) frags
    if siz = L.g.frag then splitBlock L c bpref frags d
    else
      match mapsearch L d.iscancel c bpref siz (d.cg c) with
      | (none, cgp) => splitBlock L c bpref frags (d.setCg c fun _ => cgp)
      | (some bno, cgp) => takeFrags L c bno frags siz (d.setCg c fun _ => cgp)

/-- `skpc`: the bytes left when the first one is met that is not `b`, or 0. -/
def skpc (cp : ByteMap) (b : BitVec 8) : Nat → Nat → Nat
  | 0, _ => 0
  | len + 1, first => if cp first = b then skpc cp b len (first + 1) else len + 1

/-- The inode at `gotit` of `ialloccg`. -/
def takeInode (c ipref : Nat) (dir : Bool) (d : Disk) : Nat × Disk :=
  let ndir : Int := if dir then 1 else 0
  let add := fun cs : Csum => { cs with nifree := cs.nifree - 1, ndir := cs.ndir + ndir }
  let d := d.setCg c fun cgp => { cgp with iused := setbit cgp.iused ipref, cs := add cgp.cs }
  (c * L.ipg + ipref, { d with cs := update d.cs c (add (d.cs c)), cstotal := add d.cstotal })

/-- The scans for a free inode, from the rotor on and then from 0 on: its byte. -/
def inodeByte (cgp : Cg) : Option Nat :=
  let start := cgp.irotor / nbby
  let len := howmany (L.ipg - cgp.irotor) nbby
  let loc := skpc cgp.iused 0xff len start
  if loc ≠ 0 then some (start + len - loc)
  else
    let loc := skpc cgp.iused 0xff (start + 1) 0
    if loc ≠ 0 then some (start + 1 - loc) else none

def ialloccg (c ipref : Nat) (dir : Bool) (d : Disk) : Nat × Disk :=
  if (d.cs c).nifree = 0 then (0, d)
  else if (d.cg c).bad ∨ (d.cg c).cs.nifree = 0 then (0, d)
  else if ipref ≠ 0 ∧ isset (d.cg c).iused (ipref % L.ipg) = false then takeInode L c (ipref % L.ipg) dir d
  else
    match inodeByte L (d.cg c) with
    | none => (0, d)
    | some i =>
      match (List.range nbby).find? fun k => ((d.cg c).iused i).getLsbD k = false with
      | none => (0, d)
      | some k => takeInode L c (i * nbby + k) dir (d.setCg c fun cgp => { cgp with irotor := i * nbby + k })

section Groups

variable (ncg : Nat) (allocator : Nat → Nat → Disk → Nat × Disk)

def rehash : Nat → Nat → Nat → Disk → Nat × Disk
  | 0, _, _, d => (0, d)
  | fuel + 1, i, cg, d =>
    if i < ncg then
      let cg := if ncg ≤ cg + i then cg + i - ncg else cg + i
      match allocator cg 0 d with
      | (0, d) => rehash fuel (i * 2) cg d
      | (result, d) => (result, d)
    else (0, d)

/-- The brute force search, over `n` groups from `cg` on. -/
def bruteForce : Nat → Nat → Disk → Nat × Disk
  | 0, _, d => (0, d)
  | n + 1, cg, d =>
    match allocator cg 0 d with
    | (0, d) => bruteForce n (if cg + 1 = ncg then 0 else cg + 1) d
    | (result, d) => (result, d)

def hashalloc (cg pref : Nat) (d : Disk) : Nat × Disk :=
  match allocator cg pref d with
  | (0, d) =>
    match rehash ncg allocator ncg 1 cg d with
    | (0, d) => bruteForce ncg allocator (ncg - 2) ((cg + 2) % ncg) d
    | (result, d) => (result, d)
  | (result, d) => (result, d)

end Groups

def freespace (d : Disk) (percent : Int) : Int :=
  d.cstotal.nbfree * 2 ^ L.g.fragshift + d.cstotal.nffree - (L.dsize / 100 : Nat) * percent

def itog (x : Nat) : Nat := x / L.ipg

/-- `alloc` for the inode `ino`, whose `dquot` is the one of `q`. -/
def alloc (d : Disk) (q : Quota) (ino bpref size uid : Nat) : Except Errno Nat × Disk × Quota :=
  if L.g.bsize < size ∨ L.fragoff size ≠ 0 then (.error .fault, d, q)
  else if size = L.g.bsize ∧ d.cstotal.nbfree = 0 then (.error .enospc, d, q)
  else if uid ≠ 0 ∧ freespace L d L.minfree ≤ 0 then (.error .enospc, d, q)
  else
    match chkdq q (btodb size) false uid with
    | (some err, q) => (.error err, d, q)
    | (none, q) =>
      let bpref := if L.size ≤ bpref then 0 else bpref
      let cg := if bpref = 0 then itog L ino else L.dtog bpref
      match hashalloc L.ncg (fun c pref => alloccg L c pref size) cg bpref d with
      | (0, d) => (.error .enospc, d, q)
      | (bno, d) => (.ok bno, d, q)

/-- `fragextend`: the fragments behind `bprev`, or 0. -/
def fragextend (c bprev osize nsize : Nat) (d : Disk) : Nat × Disk :=
  if (d.cs c).nffree < L.g.numfrags (nsize - osize) then (0, d)
  else
    let frags := L.g.numfrags nsize
    let bbase := L.fragnum bprev
    if L.fragnum (bprev + frags - 1) < bbase then (0, d)
    else if (d.cg c).bad then (0, d)
    else if d.iscancel (L.blknum bprev) then (0, d)
    else
      let cgp := d.cg c
      let bno := L.dtogd bprev
      let old := L.g.numfrags osize
      if ∃ i ∈ List.range (frags - old), isset cgp.blksfree (bno + (old + i)) = false then (0, d)
      else
        -- the run goes on behind the new end, up to the end of the block
        let i := ((List.range (L.g.frag - bbase - frags)).find? fun k => isset cgp.blksfree (bno + (frags + k)) = false).elim
          (max frags (L.g.frag - bbase)) (frags + ·)
        let frsum := update cgp.frsum (i - old) (cgp.frsum (i - old) - 1)
        let frsum := if i ≠ frags then update frsum (i - frags) (frsum (i - frags) + 1) else frsum
        let d := d.setCg c fun cgp => { cgp with
          blksfree := (List.range (frags - old)).foldl (fun m k => clrbit m (bno + (old + k))) cgp.blksfree
          frsum := frsum }
        (bprev, d.count c 0 (-(frags - old : Nat)))

/-- The size that `realloccg` asks for, and the optimization from then on. -/
def reallocRequest (d : Disk) (nsize : Nat) : Nat × Optim :=
  match d.optim with
  | .space =>
    (nsize, if L.minfree < 5 ∨ (L.dsize / (2 * 100) : Nat) * L.minfree < d.cstotal.nffree then .space else .time)
  | _ =>
    (L.g.bsize, if d.cstotal.nffree < (L.dsize / 100 : Nat) * (L.minfree + 2) then .time else .space)

def realloccg (d : Disk) (q : Quota) (bprev bpref osize nsize uid : Nat) : Except Errno Nat × Disk × Quota :=
  if L.g.bsize < osize ∨ L.fragoff osize ≠ 0 ∨ L.g.bsize < nsize ∨ L.fragoff nsize ≠ 0 then (.error .fault, d, q)
  else if uid ≠ 0 ∧ freespace L d L.minfree ≤ 0 then (.error .enospc, d, q)
  else if bprev = 0 then (.error .fault, d, q)
  else
    match chkdq q (btodb (nsize - osize)) false uid with
    | (some err, q) => (.error err, d, q)
    | (none, q) =>
      let cg := L.dtog bprev
      match fragextend L cg bprev osize nsize d with
      | (0, d) =>
        let bpref := if L.size ≤ bpref then 0 else bpref
        let request := (reallocRequest L d nsize).1
        let d := { d with optim := (reallocRequest L d nsize).2 }
        match hashalloc L.ncg (fun c pref => alloccg L c pref request) cg bpref d with
        | (0, d) => (.error .enospc, d, q)
        | (bno, d) =>
          if nsize < request then (.ok bno, (free L d (bno + L.g.numfrags nsize) (request - nsize)).2, q)
          else (.ok bno, d, q)
      | (bno, d) => (.ok bno, d, q)

/-- `ufs_ifree` without a mode, through the inode of the parent, which is another one than `ino`. -/
def ufsIfree (ino : Nat) (d : Disk) : Disk :=
  let c := itog L ino
  if L.ipg * L.ncg ≤ ino then d
  else if (d.cg c).bad then d
  else if isset (d.cg c).iused (ino % L.ipg) = false then d
  else
    let add := fun cs : Csum => { cs with nifree := cs.nifree + 1 }
    let d := d.setCg c fun cgp => { cgp with
      iused := clrbit cgp.iused (ino % L.ipg)
      irotor := if ino % L.ipg < cgp.irotor then ino % L.ipg else cgp.irotor
      cs := add cgp.cs }
    { d with cs := update d.cs c (add (d.cs c)), cstotal := add d.cstotal }

/-- `ufs_ialloc`, `fuel` times through its loop at most. `ufs_iget` gives an error or the mode of the inode. -/
def ufsIalloc (iget : Nat → Except Errno Nat) (dir : Bool) (uid : Nat) :
    Nat → Nat → Disk → Quota → Option (Except Errno Nat × Disk × Quota)
  | 0, _, _, _ => none
  | fuel + 1, ipref, d, q =>
    if d.cstotal.nifree = 0 then some (.error .enospc, d, q)
    else
      match chkiq q false uid with
      | (some err, q) => some (.error err, d, q)
      | (none, q) =>
        let ipref := if L.ncg * L.ipg ≤ ipref then 0 else ipref
        match hashalloc L.ncg (fun c pref => ialloccg L c pref dir) (itog L ipref) ipref d with
        | (0, d) => some (.error .enospc, d, q)
        | (ino, d) =>
          match iget ino with
          | .error err => some (.error err, ufsIfree L ino d, q)
          | .ok mode => if mode = 0 then some (.ok ino, d, q) else ufsIalloc iget dir uid fuel ipref d q

end Allocation

end Solaris.Ufs
