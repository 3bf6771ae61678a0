import Mathlib.Data.BitVec

/-!
# Pages of a database

A page has a table of offsets at its front and the items packed against its end, keys and data in turn. The table
begins with the number of items; the offset of an item is where the item starts, and it ends where the one before it
starts.
-/

namespace Solaris.Ndbm

abbrev Byte := BitVec 8

abbrev Bytes := List Byte

abbrev Block := Nat → Byte

def PBLKSIZ : Nat := 1024

def zeroBlock : Block := fun _ => 0

section Memory

/-- `((short *)buf)[i]` -/
def sp (buf : Block) (i : Nat) : Nat := (buf (2 * i)).toNat * 256 + (buf (2 * i + 1)).toNat

/-- `((short *)buf)[i] = v` -/
def setSp (buf : Block) (i v : Nat) : Block := fun j =>
  if j = 2 * i then BitVec.ofNat 8 (v / 256) else if j = 2 * i + 1 then BitVec.ofNat 8 v else buf j

/-- The bytes from `a` on. -/
def bytesAt (buf : Block) (a n : Nat) : Bytes := (List.range n).map fun j => buf (a + j)

/-- `memmove` of bytes from outside. -/
def copyTo (buf : Block) (a : Nat) (bs : Bytes) : Block := fun j =>
  if a ≤ j ∧ j < a + bs.length then bs.getD (j - a) 0 else buf j

/-- `memmove` inside the page. -/
def moveUp (buf : Block) (a n d : Nat) : Block := fun j =>
  if a + d ≤ j ∧ j < a + d + n then buf (j - d) else buf j

end Memory

section Items

def makdatum (buf : Block) (n : Nat) : Option Bytes :=
  if n ≥ sp buf 0 then none
  else
    let t := if n > 0 then sp buf n else PBLKSIZ
    some (bytesAt buf (sp buf (n + 1)) (t - sp buf (n + 1)))

/-- The loop of `finddatum`; `n` is where the item ends. -/
def findLoop (buf : Block) (item : Bytes) : Nat → Nat → Nat → Option Nat
  | 0, _, _ => none
  | fuel + 1, i, n =>
    if i < sp buf 0 then
      if n = sp buf (i + 1) + item.length ∧ (item.length = 0 ∨ bytesAt buf (sp buf (i + 1)) item.length = item) then some i
      else findLoop buf item fuel (i + 2) (sp buf (i + 2))
    else none

def finddatum (buf : Block) (item : Bytes) : Option Nat := findLoop buf item (sp buf 0) 0 PBLKSIZ

/-- The loop of `delitem`: `sp[0] = sp[2] + i1`, from `sp[m]` on. -/
def shiftTable (i1 : Nat) : Nat → Nat → Block → Block
  | 0, _, buf => buf
  | n + 1, m, buf => shiftTable i1 n (m + 1) (setSp buf m (sp buf (m + 2) + i1))

/-- "Delete pairs of items (n & n+1)." -/
def delitem (buf : Block) (n : Nat) : Option Block :=
  let i2 := sp buf 0
  if n ≥ i2 ∨ n % 2 = 1 then none
  else if n + 2 = i2 then some (setSp buf 0 (i2 - 2))
  else
    let i1 := (if n > 0 then sp buf n else PBLKSIZ) - sp buf (n + 2)
    let low := sp buf i2
    let moved := if i1 > 0 then moveUp buf low (sp buf (n + 2) - low) i1 else buf
    some (shiftTable i1 (i2 - 2 - n) (n + 1) (setSp moved 0 (i2 - 2)))

/-- "Add pairs of items (item & item1)." -/
def additem (buf : Block) (item item1 : Bytes) : Option Block :=
  let i2 := sp buf 0
  let top := if i2 > 0 then sp buf i2 else PBLKSIZ
  if top ≤ (i2 + 3) * 2 + (item.length + item1.length) then none
  else
    let i1 := top - (item.length + item1.length)
    let buf₁ := copyTo (setSp (setSp buf 0 (i2 + 2)) (i2 + 1) (i1 + item1.length)) (i1 + item1.length) item
    some (copyTo (setSp buf₁ (i2 + 2) i1) i1 item1)

end Items

section Hash

def hitab : Array (BitVec 32) := #[61, 57, 53, 49, 45, 41, 37, 33, 29, 25, 21, 17, 13, 9, 5, 1]

def hltab : Array (BitVec 32) := #[
  0o6100151277, 0o6106161736, 0o6452611562, 0o5001724107, 0o2614772546, 0o4120731531, 0o4665262210, 0o7347467531,
  0o6735253126, 0o6042345173, 0o3072226605, 0o1464164730, 0o3247435524, 0o7652510057, 0o1546775256, 0o5714532133,
  0o6173260402, 0o7517101630, 0o2431460343, 0o1743245566, 0o0261675137, 0o2433103631, 0o3421772437, 0o4447707466,
  0o4435620103, 0o3757017115, 0o3641531772, 0o6767633246, 0o2673230344, 0o0260612216, 0o4133454451, 0o0615531516,
  0o6137717526, 0o2574116560, 0o2304023373, 0o7061702261, 0o5153031405, 0o5322056705, 0o7401116734, 0o6552375715,
  0o6165233473, 0o5311063631, 0o1212221723, 0o1052267235, 0o6000615237, 0o1075222665, 0o6330216006, 0o4402355630,
  0o1451177262, 0o2000133436, 0o6025467062, 0o7121076461, 0o3123433522, 0o1010635225, 0o1716177066, 0o5161746527,
  0o1736635071, 0o6243505026, 0o3637211610, 0o1756474365, 0o4723077174, 0o3642763134, 0o5750130273, 0o3655541561]

/-- One half of a character: `c & 017` and the two sums. -/
def hashNibble (acc : BitVec 32 × BitVec 32) (c : Nat) : BitVec 32 × BitVec 32 :=
  let hashi := acc.1 + hitab.getD c 0
  (hashi, acc.2 + hltab.getD (hashi &&& 63).toNat 0)

def hashByte (acc : BitVec 32 × BitVec 32) (c : Byte) : BitVec 32 × BitVec 32 :=
  hashNibble (hashNibble acc (c.toNat % 16)) (c.toNat / 16)

def dcalchash (item : Bytes) : Nat := ((item.foldl hashByte (0, 0)).2 &&& 0x7fffffff).toNat

end Hash

end Solaris.Ndbm
