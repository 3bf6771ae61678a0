import Mathlib.Data.Finset.Card

/-!
# The directory entries of tmpfs

An entry is on a chain of the global hash table, through `td_link`, and on the list of its directory, through `td_next`
and `td_prev`. Addresses are numbers, and `used` and `nodes` are what the kernel allocator has given out.
-/

namespace Solaris.Tmpfs

section Entries

abbrev NodeId := Nat

abbrev EntId := Nat

abbrev MountId := Nat

abbrev Name := List UInt8

inductive Errno where
  | eperm
  | enoent
  | eacces
  | ebusy
  | eexist
  | exdev
  | enotdir
  | eisdir
  | einval
  | enospc
  | emlink
  | esame
  | panic
  deriving DecidableEq

inductive Vtype where
  | vreg
  | vdir
  | vblk
  | vchr
  | vlnk
  | vfifo
  | vsock
  deriving DecidableEq

/-- `struct tdirent`. -/
structure Tdirent where
  tmpnode : NodeId
  next : Option EntId
  prev : Option EntId
  offset : Nat
  hash : UInt32
  link : Option EntId
  parent : NodeId
  name : Name

/-- `struct tmpnode`. The counts are integers that do not wrap: there is no memory for 2^32 entries. -/
structure Tmpnode where
  type : Vtype
  mode : Nat
  uid : Nat
  gid : Nat
  nlink : Int
  size : Int
  dir : Option EntId
  vfsp : MountId

structure Fs where
  hashtable : Nat → Option EntId
  ents : EntId → Tdirent
  used : Finset EntId
  node : NodeId → Tmpnode
  nodes : Finset NodeId
  direntries : MountId → Int

namespace Fs

def setEnt (s : Fs) (e : EntId) (f : Tdirent → Tdirent) : Fs :=
  { s with ents := Function.update s.ents e (f (s.ents e)) }

def setNode (s : Fs) (n : NodeId) (f : Tmpnode → Tmpnode) : Fs :=
  { s with node := Function.update s.node n (f (s.node n)) }

def addDirentries (s : Fs) (m : MountId) (k : Int) : Fs :=
  { s with direntries := Function.update s.direntries m (s.direntries m + k) }

/-- A change of `tn_nlink`. -/
def addNlink (s : Fs) (n : NodeId) (k : Int) : Fs :=
  s.setNode n fun tp => { tp with nlink := tp.nlink + k }

/-- A change of `tn_size`. -/
def addSize (s : Fs) (n : NodeId) (k : Int) : Fs :=
  s.setNode n fun tp => { tp with size := tp.size + k }

/-- `tmp_memfree` of an entry. -/
def memfree (s : Fs) (e : EntId) : Fs := { s with used := s.used.erase e }

end Fs

def dot : Name := [46]

def dotdot : Name := [46, 46]

def slash : UInt8 := 47

def sizeofTdirent : Nat := 32

def entSize (name : Name) : Nat := sizeofTdirent + (name.length + 1)

/-- A `char` as an `int`. -/
def charInt (c : UInt8) : UInt32 := c.toInt8.toInt32.toUInt32

def tmpfsHashKey : Name → UInt32
  | [] => 0
  | c :: name => name.foldl (fun hash c => (hash <<< 3) + charInt c) (charInt c)

def tHashIndex (hash : UInt32) : Nat := hash.toNat % 1024

/-- The slot that an entry hangs in: the head of a chain or the `td_link` of another entry. -/
def linkAt (s : Fs) (index : Nat) : Option EntId → Option EntId
  | none => s.hashtable index
  | some e => (s.ents e).link

def setLinkAt (s : Fs) (index : Nat) (slot new : Option EntId) : Fs :=
  match slot with
  | none => { s with hashtable := Function.update s.hashtable index new }
  | some e => s.setEnt e fun td => { td with link := new }

/-- The first entry of a chain that satisfies `p`, `fuel` links from here at most. -/
def chainFind (s : Fs) (p : Tdirent → Bool) : Nat → Option EntId → Option EntId
  | _, none => none
  | 0, some _ => none
  | fuel + 1, some l => if p (s.ents l) then some l else chainFind s p fuel (s.ents l).link

def isEntry (hash : UInt32) (parent : NodeId) (name : Name) (td : Tdirent) : Bool :=
  td.hash = hash ∧ td.parent = parent ∧ td.name = name

def tmpfsHashIn (s : Fs) (t : EntId) : Bool × Fs :=
  let td := s.ents t
  let index := tHashIndex td.hash
  match chainFind s (isEntry td.hash td.parent td.name) s.used.card (s.hashtable index) with
  | some _ => (false, s)
  | none =>
    let s := s.setEnt t fun td => { td with link := s.hashtable index }
    (true, setLinkAt s index none (some t))

/-- The slot that holds `t`. -/
def findSlot (s : Fs) (index : Nat) (t : EntId) : Nat → Option EntId → Option (Option EntId)
  | fuel, slot =>
    match linkAt s index slot with
    | none => none
    | some e =>
      if e = t then some slot
      else
        match fuel with
        | 0 => none
        | fuel + 1 => findSlot s index t fuel (some e)

def tmpfsHashOut (s : Fs) (t : EntId) : Bool × Fs :=
  let index := tHashIndex (s.ents t).hash
  match findSlot s index t s.used.card none with
  | some slot => (true, setLinkAt s index slot (s.ents t).link)
  | none => (false, s)

def tmpfsHashLookup (s : Fs) (name : Name) (parent : NodeId) : Option EntId :=
  let hash := tmpfsHashKey name
  chainFind s (isEntry hash parent name) s.used.card (s.hashtable (tHashIndex hash))

/-- The slot of a directory's list: `tn_dir` or the `td_next` of an entry. -/
def nextAt (s : Fs) (d : NodeId) : Option EntId → Option EntId
  | none => (s.node d).dir
  | some e => (s.ents e).next

/-- "Install at first empty slot": the entry that the new one is put behind. -/
def firstGap (s : Fs) : Nat → EntId → EntId
  | 0, tpdp => tpdp
  | fuel + 1, tpdp =>
    match (s.ents tpdp).next with
    | none => tpdp
    | some next => if (s.ents next).offset - (s.ents tpdp).offset ≤ 1 then firstGap s fuel next else tpdp

def setPrevOf (s : Fs) (e : Option EntId) (prev : Option EntId) : Fs :=
  match e with
  | none => s
  | some e => s.setEnt e fun td => { td with prev := prev }

def setNextOf (s : Fs) (e : Option EntId) (next : Option EntId) : Fs :=
  match e with
  | none => s
  | some e => s.setEnt e fun td => { td with next := next }

/-- The new entry `tdp` behind `tpdp`. -/
def linkBehind (s : Fs) (tdp tpdp : EntId) : Fs :=
  let s := s.setEnt tdp fun td => { td with offset := (s.ents tpdp).offset + 1 }
  let s := s.setEnt tdp fun td => { td with next := (s.ents tpdp).next }
  let s := setPrevOf s (s.ents tdp).next (some tdp)
  let s := s.setEnt tdp fun td => { td with prev := some tpdp }
  s.setEnt tpdp fun td => { td with next := some tdp }

/-- "Take tpdp out of the directory list." -/
def unlink (s : Fs) (tpdp : EntId) : Fs :=
  let s := setNextOf s (s.ents tpdp).prev (s.ents tpdp).next
  setPrevOf s (s.ents tpdp).next (s.ents tpdp).prev

/-- `tdirtrunc`, `fuel` entries of it at most. -/
def tdirtruncLoop (tm : MountId) (dir : NodeId) : Nat → Fs → Fs
  | 0, s => s
  | fuel + 1, s =>
    match (s.node dir).dir with
    | none => s
    | some tdp =>
      let s := s.setNode dir fun tp => { tp with dir := (s.ents tdp).next }
      let s := s.addNlink (s.ents tdp).tmpnode (-1)
      match tmpfsHashOut s tdp with
      | (false, s) => s
      | (true, s) =>
        let s := s.memfree tdp
        let s := s.addSize dir (-entSize (s.ents tdp).name)
        tdirtruncLoop tm dir fuel (s.addDirentries tm (-1))

def tdirtrunc (s : Fs) (tm : MountId) (dir : NodeId) : Fs := tdirtruncLoop tm dir s.used.card s

end Entries

/-!
## `tdirenter` and `tdirdelete`

What the environment decides is an argument of a call: which allocations succeed and what they return, and whether a
directory is busy as a mount point.
-/

section Calls

inductive DeOp where
  | create
  | mkdir
  | link
  | rename
  deriving DecidableEq

inductive DrOp where
  | remove
  | rmdir
  | rename
  deriving DecidableEq

structure Cred where
  uid : Nat
  gid : Nat
  groups : List Nat

def groupmember (gid : Nat) (cred : Cred) : Bool := gid = cred.gid ∨ gid ∈ cred.groups

def VWRITE : Nat := 0o200

def VEXEC : Nat := 0o100

def VSGID : Nat := 0o2000

def S_ISVTX : Nat := 0o1000

def MAXLINK : Int := 32767

def tmpTaccess (tp : Tmpnode) (mode : Nat) (cred : Cred) : Option Errno :=
  let mode :=
    if cred.uid ≠ tp.uid then
      if groupmember tp.gid cred = false then mode >>> 3 >>> 3 else mode >>> 3
    else mode
  if cred.uid = 0 then none
  else if tp.mode &&& mode = mode then none
  else some .eacces

/-- The user may not change an entry of a sticky directory. -/
def stickyError (dir tp : Tmpnode) (cred : Cred) : Option Errno :=
  if dir.mode &&& S_ISVTX ≠ 0 ∧ cred.uid ≠ 0 ∧ cred.uid ≠ dir.uid ∧ tp.uid ≠ cred.uid then tmpTaccess tp VWRITE cred
  else none

def vttoif : Vtype → Nat
  | .vreg => 0x8000
  | .vdir => 0x4000
  | .vblk => 0x6000
  | .vchr => 0x2000
  | .vlnk => 0xA000
  | .vfifo => 0x1000
  | .vsock => 0xC000

/-- `struct vattr`, with the group when `AT_GID` is in the mask. -/
structure Vattr where
  type : Vtype
  mode : Nat
  gid : Option Nat

/-- What `tmp_memalloc` returns for the node, for `.` and `..` and for the entry. -/
structure Memory where
  node : Option NodeId
  dot : Option EntId
  dotdot : Option EntId
  entry : Option EntId

/-- The mount of a directory, `VTOTM`. -/
def vtotm (s : Fs) (dir : NodeId) : MountId := (s.node dir).vfsp

def tdirlookup (s : Fs) (parent : NodeId) (name : Name) (cred : Cred) : Except Errno NodeId :=
  if (s.node parent).type ≠ .vdir then .error .enotdir
  else
    match tmpTaccess (s.node parent) VEXEC cred with
    | some error => .error error
    | none =>
      if name = [] then .ok parent
      else
        match tmpfsHashLookup s name parent with
        | some tdp => .ok (s.ents tdp).tmpnode
        | none => .error .enoent

def tdircheckforname (s : Fs) (parent : NodeId) (name : Name) (cred : Cred) : Except Errno EntId :=
  match tmpTaccess (s.node parent) VEXEC cred with
  | some error => .error error
  | none =>
    match tmpfsHashLookup s name parent with
    | some tdp => .ok tdp
    | none => .error .enoent

/-- The loop of `tdircheckpath`, `fuel` directories up at most. -/
def tdircheckpathLoop (s : Fs) (fromtp : NodeId) (cred : Cred) : Nat → NodeId → Option (Option Errno)
  | 0, _ => none
  | fuel + 1, dir =>
    match tdirlookup s dir dotdot cred with
    | .error error => some (some error)
    | .ok up =>
      if up = fromtp then some (some .einval)
      else if dir = up then some none
      else tdircheckpathLoop s fromtp cred fuel up

def tdircheckpath (s : Fs) (fromtp toparent : NodeId) (cred : Cred) (fuel : Nat) : Option (Option Errno) :=
  match tdircheckforname s toparent dotdot cred with
  | .error error => some (some error)
  | .ok tdp =>
    let up := (s.ents tdp).tmpnode
    if up = toparent then some none
    else if up = fromtp then some none
    else tdircheckpathLoop s fromtp cred fuel up

/-- The entries of a list, as far as `tdirempty` counts them. -/
def countEntries (s : Fs) : Nat → Option EntId → Nat
  | 0, _ => 0
  | _ + 1, none => 0
  | fuel + 1, some dp => countEntries s fuel (s.ents dp).next + 1

def tdirempty (s : Fs) (dir : NodeId) : Bool := countEntries s 3 (s.node dir).dir ≤ 2

def newEntry (tp parent : NodeId) (name : Name) (offset : Nat) : Tdirent where
  tmpnode := tp
  next := none
  prev := none
  offset := offset
  hash := tmpfsHashKey name
  link := none
  parent := parent
  name := name

/-- `tmp_memalloc` of an entry, and its fields. -/
def memalloc (s : Fs) (e : EntId) (td : Tdirent) : Fs :=
  { s with used := insert e s.used, ents := Function.update s.ents e td }

/-- `tdirinit` with the memory for both entries. -/
def initEntries (s : Fs) (tm : MountId) (parent dir : NodeId) (dotEnt dotdotEnt : EntId) : Fs :=
  let s := memalloc s dotEnt (newEntry dir dir dot 0)
  let s := memalloc s dotdotEnt (newEntry parent dir dotdot 1)
  let s := (tmpfsHashIn s dotEnt).2
  let s := (tmpfsHashIn s dotdotEnt).2
  let s := s.addNlink dir 1
  let s := s.addNlink parent 1
  let s := s.setEnt dotEnt fun td => { td with next := some dotdotEnt, prev := none }
  let s := s.setEnt dotdotEnt fun td => { td with next := none, prev := some dotEnt }
  let s := s.setNode dir fun tp => { tp with dir := some dotEnt }
  let s := s.addDirentries tm 2
  s.setNode dir fun tp => { tp with size := 2 * sizeofTdirent + 5 }

def tdirinit (s : Fs) (tm : MountId) (parent dir : NodeId) (mem : Memory) : Option Errno × Fs :=
  match mem.dot, mem.dotdot with
  | some dotEnt, some dotdotEnt => (none, initEntries s tm parent dir dotEnt dotdotEnt)
  | _, _ => (some .enospc, s)

/-- The node of `tmpnode_alloc`, with the group and the mode that `tdirmaketnode` gives it. -/
def newTmpnode (tm : MountId) (dir : Tmpnode) (va : Vattr) (cred : Cred) : Tmpnode :=
  let own := if dir.mode &&& VSGID ≠ 0 then dir.gid else cred.gid
  let gid :=
    match va.gid with
    | some gid => if cred.uid = 0 ∨ gid = dir.gid ∨ groupmember gid cred = true then gid else own
    | none => own
  let mode := vttoif va.type ||| va.mode
  { type := va.type
    mode :=
      if dir.mode &&& VSGID ≠ 0 ∧ va.type = .vdir then mode ||| VSGID
      else if mode &&& VSGID ≠ 0 ∧ groupmember gid cred = false ∧ cred.uid ≠ 0 then mode - VSGID
      else mode
    uid := cred.uid
    gid := gid
    nlink := 1
    size := 0
    dir := none
    vfsp := tm }

/-- `tmpnode_alloc`: the node is put on the list of nodes of the mount. -/
def tmpnodeAlloc (s : Fs) (t : NodeId) (tp : Tmpnode) : Fs :=
  { s with nodes := insert t s.nodes, node := Function.update s.node t tp }

/-- `tdirmaketnode`. `tmpnode_free`, for a directory that cannot be initialized, leaves the node on the list. -/
def tdirmaketnode (s : Fs) (dir : NodeId) (va : Vattr) (op : DeOp) (cred : Cred) (mem : Memory) :
    Except Errno NodeId × Fs :=
  match mem.node with
  | none => (.error .enospc, s)
  | some t =>
    let s := tmpnodeAlloc s t (newTmpnode (vtotm s dir) (s.node dir) va cred)
    if op = .mkdir then
      match tdirinit s (vtotm s dir) dir t mem with
      | (some error, s) => (.error error, s)
      | (none, s) => (.ok t, s)
    else (.ok t, s)

/-- `tdirfixdotdot`; without an entry for `..` a null pointer is followed. -/
def tdirfixdotdot (s : Fs) (fromtp fromparent toparent : NodeId) : Option Errno × Fs :=
  let s := s.addNlink toparent 1
  match tmpfsHashLookup s dotdot fromtp with
  | none => (some .panic, s)
  | some tdp =>
    let s := s.setEnt tdp fun td => { td with tmpnode := toparent }
    if (s.node fromparent).nlink ≠ 0 then (none, s.addNlink fromparent (-1)) else (none, s)

/-- What `tdiraddentry` checks before it changes anything. -/
def addentryError (s : Fs) (dir tp : NodeId) : Option Errno :=
  if (s.node dir).dir = none then some .enoent
  else if (s.node tp).vfsp ≠ (s.node dir).vfsp then some .exdev
  else none

/-- `tdiraddentry` from the allocation on. -/
def installEntry (s : Fs) (dir tp : NodeId) (name : Name) (entry : Option EntId) : Option Errno × Fs :=
  match entry with
  | none => (some .enospc, s)
  | some tdp =>
    let s := memalloc s tdp (newEntry tp dir name 0)
    let s := s.addSize dir (entSize name)
    match tmpfsHashIn s tdp with
    | (false, s) => (some .panic, s)
    | (true, s) =>
      match (s.node dir).dir with
      | none => (some .panic, s)
      | some first =>
        let s := linkBehind s tdp (firstGap s s.used.card first)
        (none, s.addDirentries (vtotm s dir) 1)

def tdiraddentry (s : Fs) (dir tp : NodeId) (name : Name) (op : DeOp) (fromparent : NodeId) (entry : Option EntId) :
    Option Errno × Fs :=
  match addentryError s dir tp with
  | some error => (some error, s)
  | none =>
    if op = .rename ∧ (s.node tp).type = .vdir then
      match tdirfixdotdot s tp fromparent dir with
      | (some error, s) => (some error, s)
      | (none, s) => installEntry s dir tp name entry
    else installEntry s dir tp name entry

/-- What `tdirrename` checks. The target is `busy` when it is locked by a mount or is a mount point. -/
def renameError (s : Fs) (cred : Cred) (fromparent fromtp toparent target : NodeId) (busy : Bool) : Option Errno :=
  if (s.node target).vfsp ≠ (s.node toparent).vfsp ∨ (s.node target).vfsp ≠ (s.node fromtp).vfsp then some .exdev
  else if fromtp = target then some .esame
  else
    match tmpTaccess (s.node fromparent) VWRITE cred with
    | some error => some error
    | none =>
      match stickyError (s.node toparent) (s.node target) cred with
      | some error => some error
      | none =>
        if (s.node target).type = .vdir then
          if (s.node fromtp).type ≠ .vdir then some .eisdir
          else if busy = true then some .ebusy
          else if tdirempty s target = false ∨ 2 < (s.node target).nlink then some .eexist
          else none
        else if (s.node fromtp).type = .vdir then some .enotdir
        else none

/-- `tdirrename` behind its checks. -/
def replaceEntry (s : Fs) (fromparent fromtp toparent target : NodeId) (tdp : EntId) : Option Errno × Fs :=
  let s := s.setEnt tdp fun td => { td with tmpnode := fromtp }
  let s := s.addNlink target (-1)
  if (s.node fromtp).type = .vdir then
    let s := tdirtrunc s (vtotm s toparent) target
    if fromparent ≠ toparent then tdirfixdotdot s fromtp fromparent toparent else (none, s)
  else (none, s)

/-- The arguments of `tdirenter`; `tpp` says that the caller wants the node. -/
structure Enter where
  cred : Cred
  dir : NodeId
  name : Name
  op : DeOp
  fromparent : NodeId
  tp : NodeId
  va : Vattr
  tpp : Bool
  mem : Memory
  busy : Bool
  fuel : Nat

/-- The error, the node put into `*tpp`, and the state. -/
structure Entered where
  error : Option Errno
  tp : Option NodeId
  fs : Fs

/-- A link or a rename: the entry will name a node that exists. -/
def DeOp.links (op : DeOp) : Bool := op = .link ∨ op = .rename

def nameError (op : DeOp) (name : Name) : Option Errno :=
  if slash ∈ name then some .eacces
  else if name = [] then some .panic
  else if (name = dot ∨ name = dotdot) ∧ op = .rename then some .einval
  else none

def linkError (s : Fs) (a : Enter) : Option Errno :=
  if a.op.links = true then
    if (s.node a.tp).nlink = 0 then some .enoent
    else if (s.node a.tp).nlink = MAXLINK then some .emlink
    else none
  else none

def bumpLink (s : Fs) (a : Enter) (k : Int) : Fs := if a.op.links = true then s.addNlink a.tp k else s

def searchError (s : Fs) (a : Enter) : Option (Option Errno) :=
  if (s.node a.dir).nlink = 0 then some (some .enoent)
  else
    match tmpTaccess (s.node a.dir) VEXEC a.cred with
    | some error => some (some error)
    | none =>
      if a.op = .rename then
        if a.tp = a.dir then some (some .einval)
        else if (s.node a.tp).type = .vdir ∧ a.fromparent ≠ a.dir then
          tdircheckpath s a.tp a.dir a.cred a.fuel
        else some none
      else some none

def enterFound (s : Fs) (a : Enter) (tdp : EntId) : Entered :=
  let found := (s.ents tdp).tmpnode
  match a.op with
  | .create | .mkdir => if a.tpp = true then ⟨some .eexist, some found, s⟩ else ⟨none, none, s⟩
  | .rename =>
    match renameError s a.cred a.fromparent a.tp a.dir found a.busy with
    | some error => ⟨some error, none, s⟩
    | none =>
      let r := replaceEntry s a.fromparent a.tp a.dir found tdp
      ⟨r.1, none, r.2⟩
  | .link => ⟨some .eexist, none, s⟩

/-- "Unmake the inode we just made." -/
def unmake (s : Fs) (tm : MountId) (tp : NodeId) : Fs :=
  let s := if (s.node tp).type = .vdir then tdirtrunc s tm tp else s
  s.setNode tp fun t => { t with nlink := 0 }

def enterNew (s : Fs) (a : Enter) : Entered :=
  match tmpTaccess (s.node a.dir) VWRITE a.cred with
  | some error => ⟨some error, none, s⟩
  | none =>
    if a.op.links = true then
      match tdiraddentry s a.dir a.tp a.name a.op a.fromparent a.mem.entry with
      | (some error, s) => ⟨some error, none, s⟩
      | (none, s) => ⟨none, if a.tpp = true then some a.tp else none, s⟩
    else
      match tdirmaketnode s a.dir a.va a.op a.cred a.mem with
      | (.error error, s) => ⟨some error, none, s⟩
      | (.ok tp, s) =>
        match tdiraddentry s a.dir tp a.name a.op a.fromparent a.mem.entry with
        | (some error, s) => ⟨some error, none, unmake s (vtotm s a.dir) tp⟩
        | (none, s) => ⟨none, if a.tpp = true then some tp else none, s⟩

/-- "Undo bumped link count." -/
def enterOut (a : Enter) (r : Entered) : Entered :=
  match r.error with
  | some _ => { r with fs := bumpLink r.fs a (-1) }
  | none => r

def enterSearched (s : Fs) (a : Enter) : Entered :=
  match tdircheckforname s a.dir a.name a.cred with
  | .ok tdp => enterFound s a tdp
  | .error .enoent => enterNew s a
  | .error error => ⟨some error, none, s⟩

/-- `tdirenter`. There is no answer when the walk of `tdircheckpath` does not end. -/
def tdirenter (s : Fs) (a : Enter) : Option Entered :=
  match nameError a.op a.name with
  | some error => some ⟨some error, none, s⟩
  | none =>
    match linkError s a with
    | some error => some ⟨some error, none, s⟩
    | none =>
      let s := bumpLink s a 1
      match searchError s a with
      | none => none
      | some (some error) => some (enterOut a ⟨some error, none, s⟩)
      | some none => some (enterOut a (enterSearched s a))

structure Delete where
  cred : Cred
  dir : NodeId
  tp : NodeId
  name : Name
  op : DrOp

/-- What `tdirdelete` checks before it looks up the name. In a sticky directory the answer is the one of `!= 0`. -/
def deleteError (s : Fs) (a : Delete) : Option Errno :=
  if a.name = [] then some .panic
  else if a.name = dot then some .einval
  else if a.name = dotdot then some .eexist
  else
    match tmpTaccess (s.node a.dir) (VEXEC ||| VWRITE) a.cred with
    | some error => some error
    | none =>
      match stickyError (s.node a.dir) (s.node a.tp) a.cred with
      | some _ => some .eperm
      | none => if (s.node a.dir).dir = none then some .enoent else none

def tdirdelete (s : Fs) (a : Delete) : Option Errno × Fs :=
  match deleteError s a with
  | some error => (some error, s)
  | none =>
    match tmpfsHashLookup s a.name a.dir with
    | none => (some .enoent, s)
    | some tpdp =>
      if a.tp ≠ (s.ents tpdp).tmpnode then (some .enoent, s)
      else
        match tmpfsHashOut s tpdp with
        | (false, s) => (some .panic, s)
        | (true, s) =>
          let s := unlink s tpdp
          let s := s.memfree tpdp
          let s := s.addSize a.dir (-entSize (s.ents tpdp).name)
          let s := s.addNlink a.tp (-1)
          let s := if a.op = .rmdir ∧ (s.node a.tp).type = .vdir then tdirtrunc s (vtotm s a.dir) a.tp else s
          (none, s.addDirentries (vtotm s a.dir) (-1))

end Calls

end Solaris.Tmpfs
