import Mathlib.Tactic.Ring
import Solaris.Ip.Cksum

/-!
# What the checksum loop covers

Each step of the loops adds the bytes of a piece to the running sum, modulo 2 ^ 16 - 1, and takes the parity along;
the pieces of a block and of a chain follow each other.
-/

namespace Solaris.Ip

section Loop

open Lib (Byte Memory putByte bcopy ByteOrder swapBytes bytesFrom byteSum halfwordSum Sum16 length_bytesFrom
  bytesFrom_add bytesFrom_split bytesFrom_cons byteSum_append byteSum_not swapBytes_cast halfwordSum_eq)

/-- What the code relies on of the routines in assembly: at an even address they add the halfwords, and the result has
16 bits. -/
def Adds (c : Machine) (ocsum : Nat → Nat → BitVec 32 → BitVec 32) : Prop :=
  ∀ a n s, a % 2 = 0 → (ocsum a n s).toNat < 2 ^ 16 ∧
    (ocsum a n s).toNat % 65535 = (s.toNat + halfwordSum c.order c.mem a n) % 65535

variable {c : Machine} {s s' s'' : Summing} {w mlen : Nat} {l l' : List Byte}

def Summing.total (s : Summing) : Sum16 := s.sum.toNat + s.lost

/-- From one state to another the bytes of `l` have been added. -/
structure Summed (c : Machine) (s s' : Summing) (l : List Byte) : Prop where
  total : s'.total = s.total + (byteSum c.order s.odd l : Sum16)
  odd : s'.odd = (s.odd ^^ decide (l.length % 2 = 1))

lemma Summed.refl : Summed c s s [] := ⟨by simp [byteSum], by simp⟩

lemma parity_add (m n : Nat) : (decide (m % 2 = 1) ^^ decide (n % 2 = 1)) = decide ((m + n) % 2 = 1) := by
  rcases Nat.mod_two_eq_zero_or_one m with hm | hm <;> rcases Nat.mod_two_eq_zero_or_one n with hn | hn <;>
    simp [hm, hn, Nat.add_mod]

lemma parity_append (p : Bool) : ((p ^^ decide (l.length % 2 = 1)) ^^ decide (l'.length % 2 = 1)) =
    (p ^^ decide ((l ++ l').length % 2 = 1)) := by
  rw [List.length_append, Bool.xor_assoc, parity_add]

lemma Summed.trans (h : Summed c s s' l) (h' : Summed c s' s'' l') : Summed c s s'' (l ++ l') := by
  refine ⟨?_, ?_⟩
  · rw [h'.total, h.total, byteSum_append, h.odd]
    push_cast
    ring
  · rw [h'.odd, h.odd, parity_append]

lemma add_total (x : Nat) : (s.add x).total = s.total + (x : Sum16) := by
  have hsum : (s.sum + BitVec.ofNat 32 x).toNat = (s.sum.toNat + x) % 2 ^ 32 := by
    rw [BitVec.toNat_add, BitVec.toNat_ofNat]
    omega
  have hsplit : ((2 ^ 32 * ((s.sum.toNat + x) / 2 ^ 32) + (s.sum.toNat + x) % 2 ^ 32 : Nat) : Sum16) =
      ((s.sum.toNat + x : Nat) : Sum16) := by rw [Nat.div_add_mod]
  have hone : (2 : Sum16) ^ 32 = 1 := by decide
  simp only [Summing.total, Summing.add, hsum]
  push_cast at hsplit ⊢
  linear_combination hsplit - (((s.sum.toNat + x) / 2 ^ 32 : Nat) : Sum16) * hone

lemma ocsum_total {ocsum : Nat → Nat → BitVec 32 → BitVec 32} (h : Adds c ocsum) {n : Nat} (hw : w % 2 = 0)
    (sum : BitVec 32) : ((ocsum w n sum).toNat : Sum16) =
      sum.toNat + (byteSum c.order false (bytesFrom c.mem w (2 * n)) : Sum16) := by
  have hmod := (h w n sum hw).2
  rw [halfwordSum_eq, ← ZMod.natCast_eq_natCast_iff'] at hmod
  rw [hmod]
  push_cast
  rfl

lemma add_high (hodd : s.odd = false) : Summed c s { s.add (c.high w) with odd := true } [c.mem w] := by
  refine ⟨?_, by simp [hodd]⟩
  have h := add_total (s := s) (c.high w)
  rw [hodd]
  exact h

lemma add_low (hodd : s.odd = true) : Summed c s { s.add (c.low w) with odd := false } [c.mem w] := by
  refine ⟨?_, by simp [hodd]⟩
  have h := add_total (s := s) (c.low w)
  rw [hodd]
  exact h

lemma add_halfwords {ocsum : Nat → Nat → BitVec 32 → BitVec 32} (h : Adds c ocsum) {n : Nat} (hodd : s.odd = false)
    (hw : w % 2 = 0) : Summed c s { s with sum := ocsum w n s.sum } (bytesFrom c.mem w (2 * n)) := by
  refine ⟨?_, by simp [length_bytesFrom]⟩
  simp only [Summing.total]
  rw [ocsum_total h hw, hodd]
  ring

lemma add_swapped (h : Adds c c.ocsum) {n : Nat} (hodd : s.odd = true) (hw : w % 2 = 0) :
    Summed c s (s.add (swapBytes ((c.ocsum w n 0).setWidth 16)).toNat) (bytesFrom c.mem w (2 * n)) := by
  refine ⟨?_, by simp [length_bytesFrom, Summing.add]⟩
  have hsum := ocsum_total h (n := n) hw 0
  have hwidth : ((c.ocsum w n 0).setWidth 16).toNat = (c.ocsum w n 0).toNat := by
    exact Nat.mod_eq_of_lt (h w n 0 hw).1
  have hnot := byteSum_not c.order false (bytesFrom c.mem w (2 * n))
  rw [Bool.not_false] at hnot
  rw [add_total, swapBytes_cast, hwidth, hsum, hodd, hnot]
  simp

lemma addWords_summed {ocsum : Nat → Nat → BitVec 32 → BitVec 32} (h : Adds c ocsum) (h' : Adds c c.ocsum)
    (hodd : mlen ≠ 0 → s.odd = false) : Summed c s (addWords c ocsum s w mlen) (bytesFrom c.mem w mlen) := by
  rw [addWords]
  by_cases hzero : mlen = 0
  · rw [if_pos hzero, hzero]
    exact .refl
  have hfalse := hodd hzero
  rw [if_neg hzero]
  by_cases hw : w % 2 = 0
  · rw [if_pos hw]
    have hwords := add_halfwords h (n := mlen / 2) hfalse hw
    split
    · rename_i hlast
      have hlen : mlen = 2 * (mlen / 2) + 1 := by omega
      rw [bytesFrom_split hlen, show mlen - 1 = 2 * (mlen / 2) by omega]
      exact hwords.trans (add_high hfalse)
    · rename_i hlast
      rwa [show 2 * (mlen / 2) = mlen by omega] at hwords
  · rw [if_neg hw]
    have hfirst : Summed c s { s.add (c.high w) with odd := true } [c.mem w] := add_high hfalse
    have hwords := add_swapped h' (n := (mlen - 1) / 2) (s := { s.add (c.high w) with odd := true }) (w := w + 1) rfl
      (by omega)
    have hcons : mlen = mlen - 1 + 1 := by omega
    rw [bytesFrom_cons hcons]
    split
    · rename_i hlast
      have hlen : mlen - 1 = 2 * ((mlen - 1) / 2) + 1 := by omega
      rw [bytesFrom_split hlen, show mlen - 1 - 1 = 2 * ((mlen - 1) / 2) by omega]
      have hend := (hfirst.trans hwords).trans (add_low (w := w + 1 + 2 * ((mlen - 1) / 2)) rfl)
      exact ⟨hend.total, hfalse.trans hend.odd⟩
    · rename_i hlast
      rw [show 2 * ((mlen - 1) / 2) = mlen - 1 by omega] at hwords
      exact hfirst.trans hwords

lemma addPiece_summed (h : Adds c c.ocsum) : Summed c s (addPiece c s w mlen) (bytesFrom c.mem w mlen) := by
  rw [addPiece]
  split
  · rename_i hleft
    have hcons : mlen = mlen - 1 + 1 := by omega
    have hfirst : Summed c s { s.add (c.low w) with odd := false } [c.mem w] := add_low hleft.2
    rw [bytesFrom_cons hcons]
    exact hfirst.trans (addWords_summed h h fun _ => rfl)
  · rename_i hleft
    refine addWords_summed h h fun hne => ?_
    rw [not_and, Bool.not_eq_true] at hleft
    exact hleft (by omega)

section Trips

variable {mp : Sblk} {cont : List Sblk}

/-- The bytes of a block from `w` on. -/
def bytesOf (c : Machine) (mp : Sblk) (w : Nat) : List Byte := bytesFrom c.mem w (mp.wptr - w)

/-- The bytes of the chain from an offset in the first block on. -/
def chainBytes (c : Machine) (mp : Sblk) (cont : List Sblk) (offset : Nat) : List Byte :=
  bytesOf c mp (mp.rptr + offset) ++ cont.flatMap fun mp => bytesOf c mp mp.rptr

/-- The uio data of a block: a part of it has been summed, and it ends with the block. -/
structure UioOk (c : Machine) (mp : Sblk) : Prop where
  base : mp.struiobase ≤ mp.struioptr
  ptr : mp.struioptr ≤ mp.struiolim
  lim : mp.struiolim = mp.wptr
  psum : mp.psum.toNat % 65535 =
    Lib.wordSum c.order (bytesFrom c.mem mp.struiobase (mp.struioptr - mp.struiobase)) % 65535

def summedBytes (c : Machine) (mp : Sblk) : List Byte :=
  bytesFrom c.mem mp.struiobase (mp.struioptr - mp.struiobase)

lemma UioOk.cast (h : UioOk c mp) : (mp.psum.toNat : Sum16) = byteSum c.order false (summedBytes c mp) := by
  rw [Lib.byteSum_false, ZMod.natCast_eq_natCast_iff']
  exact h.psum

lemma add_psum (h : UioOk c mp) :
    Summed c s { s.add (if s.odd then (swapBytes mp.psum).toNat else mp.psum.toNat) with
      odd := s.odd ^^ decide ((mp.struioptr - mp.struiobase) % 2 = 1) } (summedBytes c mp) := by
  refine ⟨?_, by rw [summedBytes, length_bytesFrom]⟩
  have htotal := add_total (s := s) (if s.odd then (swapBytes mp.psum).toNat else mp.psum.toNat)
  refine htotal.trans ?_
  congr 1
  cases hodd : s.odd with
  | false =>
    exact h.cast
  | true =>
    have hnot := byteSum_not c.order false (summedBytes c mp)
    rw [Bool.not_false] at hnot
    simp only [if_true]
    rw [swapBytes_cast, h.cast, hnot]

lemma douio_summed (ha : Adds c c.ocsum) (h : UioOk c mp) :
    Summed c s (douio c s mp w 0) (bytesOf c mp mp.struiobase) := by
  obtain ⟨hbase, hptr, hlim, -⟩ := id h
  have hsplit : bytesOf c mp mp.struiobase =
      summedBytes c mp ++ bytesFrom c.mem mp.struioptr (mp.struiolim - mp.struioptr) := by
    have hlen : mp.wptr - mp.struiobase =
        mp.struioptr - mp.struiobase + (mp.struiolim - mp.struioptr) := by omega
    have hplace : mp.struiobase + (mp.struioptr - mp.struiobase) = mp.struioptr := by omega
    rw [bytesOf, hlen, bytesFrom_add, hplace, summedBytes]
  rw [hsplit, douio]
  split
  · exact (add_psum h).trans (addPiece_summed ha)
  · rename_i hall
    rw [not_not] at hall
    rw [hall, Nat.sub_self]
    exact (add_psum h).trans (addPiece_summed ha)

lemma douio_prefix_summed (ha : Adds c c.ocsum) (h : UioOk c mp) (hnone : mp.struiobase = mp.struioptr)
    (hmlen : mlen ≠ 0) (hw : w + mlen = mp.struiobase) : Summed c s (douio c s mp w mlen) (bytesOf c mp w) := by
  obtain ⟨-, hptr, hlim, -⟩ := id h
  have hpsum := add_psum (s := s) h
  have hempty : summedBytes c mp = [] := by
    rw [summedBytes, hnone, Nat.sub_self]
    rfl
  rw [hempty] at hpsum
  rw [douio]
  split
  · rw [bytesOf, show mp.wptr - w = mlen + (mp.struiolim - mp.struioptr) by omega]
    exact hpsum.trans (addPiece_summed ha)
  · rename_i hall
    rw [bytesOf, show mp.wptr - w = mlen by omega]
    exact hpsum.trans (addPiece_summed ha)

lemma hasUio_iff : hasUio mp w = true ↔ mp.struioIp = true ∧ w ≤ mp.struiobase ∧ mp.struiolim ≤ mp.wptr := by
  simp only [hasUio, decide_eq_true_eq, not_or, not_lt]

lemma bytesOf_split {a : Nat} (hwa : w ≤ a) (ha : a ≤ mp.wptr) :
    bytesOf c mp w = bytesFrom c.mem w (a - w) ++ bytesOf c mp a := by
  have hlen : mp.wptr - w = a - w + (mp.wptr - a) := by omega
  have hplace : w + (a - w) = a := by omega
  rw [bytesOf, hlen, bytesFrom_add, hplace, bytesOf]

lemma trip_summed (ha : Adds c c.ocsum) (h : mp.struioIp → UioOk c mp) :
    Summed c s (trip c s mp w) (bytesOf c mp w) := by
  rw [trip]
  split
  · rename_i huio
    obtain ⟨hflag, hw, -⟩ := hasUio_iff.mp huio
    have hok := h hflag
    obtain ⟨hbase, hptr, hlim, -⟩ := id hok
    dsimp only
    split
    · rw [bytesOf_split hw (by omega)]
      exact (addPiece_summed ha).trans (douio_summed ha hok)
    rename_i hno
    by_cases hmlen : mp.struiobase - w = 0
    · have heq : w = mp.struiobase := by omega
      rw [hmlen, heq]
      exact douio_summed ha hok
    · have hnone : mp.struiobase = mp.struioptr := by
        by_contra hne
        exact hno ⟨hmlen, hne⟩
      exact douio_prefix_summed ha hok hnone hmlen (by omega)
  · exact addPiece_summed ha

lemma laterTrips_summed (cont : List Sblk) (ha : Adds c c.ocsum) (h : ∀ mp ∈ cont, mp.struioIp → UioOk c mp) :
    Summed c s (laterTrips c s cont) (cont.flatMap fun mp => bytesOf c mp mp.rptr) := by
  induction cont generalizing s with
  | nil => exact .refl
  | cons mp cont ih =>
    have hrest := fun m hm => h m (List.mem_cons_of_mem _ hm)
    rw [laterTrips, List.flatMap_cons]
    split
    · rename_i hempty
      rw [bytesOf, hempty]
      exact ih hrest
    · exact (trip_summed ha (h mp (List.mem_cons_self ..))).trans (ih hrest)

lemma foldOnce_mod (x : BitVec 32) : ((foldOnce x).toNat : Sum16) = (x.toNat : Sum16) := by
  have hval : (foldOnce x).toNat = Lib.foldSum x.toNat := by
    have hand : (x &&& 65535#32).toNat = x.toNat % 2 ^ 16 := by
      exact Nat.and_two_pow_sub_one_eq_mod _ 16
    have hadd : (foldOnce x).toNat = ((x &&& 65535#32).toNat + (x >>> 16).toNat) % 2 ^ 32 :=
      BitVec.toNat_add ..
    rw [hadd, hand, BitVec.toNat_ushiftRight, Nat.shiftRight_eq_div_pow, Lib.foldSum]
    omega
  rw [hval, ZMod.natCast_eq_natCast_iff']
  exact Lib.foldSum_mod _

lemma done_total : ((done s).1.toNat : Sum16) + (done s).2 = s.total := by
  rw [done, foldOnce_mod, foldOnce_mod, Summing.total]

lemma slow_total (ha : Adds c c.ocsum) (w : Nat) (h : ∀ b ∈ mp :: cont, b.struioIp → UioOk c b) (sum : BitVec 32) :
    ((slow c sum mp w cont).1.toNat : Sum16) + (slow c sum mp w cont).2 = sum.toNat +
      byteSum c.order false (bytesOf c mp w ++ cont.flatMap fun mp => bytesOf c mp mp.rptr) := by
  have hcovers := (trip_summed (s := ⟨sum, false, 0⟩) (w := w) ha (h mp (List.mem_cons_self ..))).trans
    (laterTrips_summed cont ha fun b hb => h b (List.mem_cons_of_mem _ hb))
  rw [slow, done_total, hcovers.total]
  simp [Summing.total]

lemma slow1_total (ha : Adds c c.ocsum) (h : UioOk c mp) (sum : BitVec 32) :
    ((slow1 c sum mp).1.toNat : Sum16) + (slow1 c sum mp).2 =
      sum.toNat + byteSum c.order false (bytesOf c mp mp.struiobase) := by
  have hcovers := douio_summed (s := ⟨sum, false, 0⟩) (w := mp.rptr) ha h
  rw [slow1, done_total, hcovers.total]
  simp [Summing.total]

end Trips

end Loop

/-!
## What the checksum of a chain comes to

The fast path for a single block and the loop agree on what they add up, but for two ways through the fast path:
`return (psum)` leaves the initial sum out, and a `goto slow` after the prefix data was added has it added again.
-/

section Chain

open List Nat

open Lib (Byte ByteOrder swapBytes bytesFrom byteSum Sum16 length_bytesFrom byteSum_append)

variable {c : Machine} {s : Summing} {mp : Sblk} {cont : List Sblk} {w mlen : Nat} {sum : BitVec 32}

/-- `return (psum)`: all the data of a single block has been summed before, and there is no prefix data. -/
def LeavesSumOut (mp : Sblk) (cont : List Sblk) (w : Nat) : Prop :=
  cont = [] ∧ hasUio mp w ∧ mp.struiobase = w ∧ mp.struiolim = mp.struioptr

/-- `goto slow` with the prefix data of a single block in the sum: the rest has an odd number of bytes. -/
def AddsPrefixTwice (mp : Sblk) (cont : List Sblk) (w : Nat) : Prop :=
  cont = [] ∧ hasUio mp w ∧ mp.struiobase ≠ w ∧ (mp.struiobase - w) % 2 = 0 ∧ mp.struiobase ≠ mp.struioptr ∧
    mp.struiolim ≠ mp.struioptr ∧ mp.struioptr % 2 = 0 ∧ (mp.struiolim - mp.struioptr) % 2 = 1

instance : Decidable (LeavesSumOut mp cont w) := inferInstanceAs (Decidable (_ ∧ _))

instance : Decidable (AddsPrefixTwice mp cont w) := inferInstanceAs (Decidable (_ ∧ _))

def prefixBytes (c : Machine) (mp : Sblk) (w : Nat) : List Byte := bytesFrom c.mem w (mp.struiobase - w)

/-- How many additions to the sum there can be before `ip_ocsum` folds it: `n` since the last time, and the blocks are
`before` bytes into the chain. A block is not folded where its words are at odd addresses, or when all of it completes a
word; the data of a flagged block may come in two pieces, with what was summed before. -/
def unfolded (n before : Nat) : List Sblk → Nat
  | [] => n
  | mp :: rest =>
    let mlen := mp.wptr - mp.rptr
    if mlen = 0 then unfolded n before rest
    else if mp.struioIp then unfolded (n + 9) (before + mlen) rest
    else if (mp.rptr + before) % 2 = 1 ∨ before % 2 = 1 ∧ mlen = 1 then unfolded (n + 4) (before + mlen) rest
    else max (n + 1) (unfolded 1 (before + mlen) rest)

/-- The 32 bits of the sum are enough for the chain, whatever its bytes are. -/
def Folded (mp : Sblk) (cont : List Sblk) (offset : Nat) : Prop :=
  unfolded (if mp.struioIp then 9 else 1) (mp.wptr - (mp.rptr + offset)) cont ≤ 65536

instance {offset : Nat} : Decidable (Folded mp cont offset) := inferInstanceAs (Decidable (_ ≤ _))

lemma le_unfolded (n before : Nat) (cont : List Sblk) : n ≤ unfolded n before cont := by
  induction cont generalizing n before with
  | nil => exact le_rfl
  | cons mp cont ih =>
    rw [unfolded]
    split_ifs
    · exact ih ..
    · exact le_trans (Nat.le_add_right ..) (ih ..)
    · exact le_trans (Nat.le_add_right ..) (ih ..)
    · exact le_trans (Nat.le_succ n) (le_max_left ..)

/-- `v` is a value for the bytes of `l`, with its dropped carries; the sum is left out, or the prefix is in twice. -/
def Comes (c : Machine) (mp : Sblk) (cont : List Sblk) (w : Nat) (sum : BitVec 32) (l : List Byte)
    (v : BitVec 32 × Nat) : Prop :=
  (v.1.toNat : Sum16) + v.2 + (if LeavesSumOut mp cont w then (sum.toNat : Sum16) else 0) =
    sum.toNat + byteSum c.order false l +
      (if AddsPrefixTwice mp cont w then (byteSum c.order false (prefixBytes c mp w) : Sum16) else 0)

lemma Comes.plain {l : List Byte} {v : BitVec 32 × Nat} (hno : ¬LeavesSumOut mp cont w)
    (hno' : ¬AddsPrefixTwice mp cont w) (h : (v.1.toNat : Sum16) + v.2 = sum.toNat + byteSum c.order false l) :
    Comes c mp cont w sum l v := by
  rw [Comes, if_neg hno, if_neg hno', add_zero, add_zero]
  exact h

lemma byteSum_append_even {l l' : List Byte} {o : ByteOrder} (h : l.length % 2 = 0) :
    (byteSum o false (l ++ l') : Sum16) = byteSum o false l + byteSum o false l' := by
  rw [byteSum_append, h]
  push_cast
  rfl

lemma add_psum_toNat (hsum : sum.toNat < 2 ^ 16) (p : BitVec 16) :
    ((sum + p.setWidth 32).toNat : Sum16) = sum.toNat + p.toNat := by
  have hwidth : (p.setWidth 32).toNat = p.toNat := by
    rw [BitVec.toNat_setWidth]
    exact Nat.mod_eq_of_lt (by omega)
  have hval : (sum + p.setWidth 32).toNat = sum.toNat + p.toNat := by
    exact Nat.mod_eq_of_lt (by omega)
  rw [hval]
  push_cast
  rfl

section Fast

variable (ha : Adds c c.ocsum)

include ha

lemma ocsum_even {n : Nat} (hw : w % 2 = 0) (hn : n % 2 = 0) :
    ((c.ocsum w (n / 2) sum).toNat : Sum16) = sum.toNat + (byteSum c.order false (bytesFrom c.mem w n) : Sum16) := by
  have hlen : 2 * (n / 2) = n := by omega
  rw [ocsum_total ha hw, hlen]

lemma slow_single (mp : Sblk) (w : Nat) (h : mp.struioIp → UioOk c mp) (sum : BitVec 32) :
    ((slow c sum mp w []).1.toNat : Sum16) + (slow c sum mp w []).2 =
      sum.toNat + byteSum c.order false (bytesOf c mp w) := by
  have hall : ∀ b ∈ [mp], b.struioIp → UioOk c b := by
    intro b hb
    rw [mem_singleton.mp hb]
    exact h
  have htotal := slow_total ha w hall sum
  rwa [flatMap_nil, append_nil] at htotal

lemma fastUio_comes (h : UioOk c mp) (hhas : hasUio mp w) (hw : w % 2 = 0) (hsum : sum.toNat < 2 ^ 16) :
    Comes c mp [] w sum (bytesOf c mp w) (fastUio c sum mp w) := by
  obtain ⟨hflag, hle, -⟩ := hasUio_iff.mp hhas
  obtain ⟨hbase, hptr, hlim, -⟩ := id h
  have hslow := slow_single ha mp w (fun _ => h)
  have hP : bytesOf c mp w = prefixBytes c mp w ++ bytesOf c mp mp.struiobase := bytesOf_split hle (by omega)
  have hS : bytesOf c mp mp.struiobase =
      summedBytes c mp ++ bytesFrom c.mem mp.struioptr (mp.struiolim - mp.struioptr) := by
    rw [bytesOf_split hbase (by omega), summedBytes, bytesOf, hlim]
  have hPlen : (prefixBytes c mp w).length = mp.struiobase - w := length_bytesFrom
  have hSlen : (summedBytes c mp).length = mp.struioptr - mp.struiobase := length_bytesFrom
  rw [fastUio]
  by_cases hodd : (mp.struiobase - w) % 2 = 1
  · rw [if_pos hodd]
    refine .plain ?_ ?_ (hslow sum)
    · rintro ⟨-, -, hnone, -⟩
      omega
    · rintro ⟨-, -, -, heven, -⟩
      omega
  have hPeven : (prefixBytes c mp w).length % 2 = 0 := by omega
  rw [if_neg hodd]
  by_cases hthree : mp.struiobase - w ≠ 0 ∧ mp.struiobase ≠ mp.struioptr ∧ mp.struiolim ≠ mp.struioptr
  · rw [if_pos hthree]
    have hno : ¬LeavesSumOut mp [] w := fun hleaves => hthree.2.2 hleaves.2.2.2
    have hprefix : ((c.ocsum w ((mp.struiobase - w) / 2) sum).toNat : Sum16) =
        sum.toNat + byteSum c.order false (prefixBytes c mp w) := ocsum_even ha hw (by omega)
    have hsmall := (ha w ((mp.struiobase - w) / 2) sum hw).1
    split
    · rename_i hptrodd
      refine .plain hno (fun htwice => ?_) ?_
      · obtain ⟨-, -, -, -, -, -, hptreven, -⟩ := htwice
        omega
      · rw [slow1_total ha h, hprefix, hP, byteSum_append_even hPeven]
        ring
    rename_i hptreven
    split
    · rename_i hmore
      -- the loop starts at `w` again
      have htwice : AddsPrefixTwice mp [] w :=
        ⟨rfl, hhas, by omega, by omega, hthree.2.1, hthree.2.2, by omega, hmore⟩
      rw [Comes, if_neg hno, if_pos htwice, hslow, hprefix]
      ring
    rename_i hmore
    refine .plain hno (fun htwice => hmore htwice.2.2.2.2.2.2.2) ?_
    have hSeven : (summedBytes c mp).length % 2 = 0 := by omega
    rw [ocsum_even ha (by omega) (by omega), add_psum_toNat hsmall, hprefix, h.cast, hP,
      byteSum_append_even hPeven, hS, byteSum_append_even hSeven, cast_zero]
    ring
  rw [if_neg hthree]
  have hno' : ¬AddsPrefixTwice mp [] w := by
    rintro ⟨-, -, hne, -, hsome, hmore, -⟩
    exact hthree ⟨by omega, hsome, hmore⟩
  by_cases hmore : mp.struiolim ≠ mp.struioptr
  · rw [if_pos hmore]
    have hno : ¬LeavesSumOut mp [] w := fun hleaves => hmore hleaves.2.2.2
    by_cases hzero : mp.struiobase - w ≠ 0
    · rw [if_pos hzero]
      split
      · exact .plain hno hno' (hslow sum)
      rename_i hevenall
      refine .plain hno hno' ?_
      have hnone : mp.struiobase = mp.struioptr := by
        by_contra hne
        exact hthree ⟨hzero, hne, hmore⟩
      have hempty : summedBytes c mp = [] := by
        rw [summedBytes, hnone, Nat.sub_self]
        rfl
      have hlen : mp.struiobase - w + (mp.struiolim - mp.struioptr) = mp.wptr - w := by omega
      rw [hlen] at hevenall ⊢
      rw [ocsum_even ha hw (by omega), add_psum_toNat hsum, h.cast, hempty, bytesOf]
      simp [byteSum]
    · rw [if_neg hzero]
      have hwbase : w = mp.struiobase := by omega
      split
      · exact .plain hno hno' (hslow sum)
      rename_i hptreven
      split
      · exact .plain hno hno' (hslow sum)
      rename_i hmoreeven
      refine .plain hno hno' ?_
      have hSeven : (summedBytes c mp).length % 2 = 0 := by omega
      rw [ocsum_even ha (by omega) (by omega), add_psum_toNat hsum, h.cast, hwbase, hS,
        byteSum_append_even hSeven, cast_zero]
      ring
  · rw [if_neg hmore]
    rw [not_not] at hmore
    have hrest : bytesFrom c.mem mp.struioptr (mp.struiolim - mp.struioptr) = [] := by
      rw [hmore, Nat.sub_self]
      rfl
    rw [hrest, append_nil] at hS
    split_ifs with hzero
    · have hwbase : mp.struiobase = w := by omega
      have hleaves : LeavesSumOut mp [] w := ⟨rfl, hhas, hwbase, hmore⟩
      have hwidth : (mp.psum.setWidth 32).toNat = mp.psum.toNat := by
        rw [BitVec.toNat_setWidth]
        exact Nat.mod_eq_of_lt (by have := mp.psum.isLt; omega)
      rw [Comes, if_pos hleaves, if_neg hno', hwidth, h.cast, ← hwbase, hS, cast_zero]
      ring
    refine .plain (fun hleaves => hzero (by have := hleaves.2.2.1; omega)) hno' ?_
    have hpre : ((c.ocsum w ((mp.struiobase - w) / 2) (sum + mp.psum.setWidth 32)).toNat : Sum16) =
        (sum + mp.psum.setWidth 32).toNat + byteSum c.order false (prefixBytes c mp w) :=
      ocsum_even ha hw (by omega)
    rw [hpre, add_psum_toNat hsum, h.cast, hP, byteSum_append_even hPeven, hS, cast_zero]
    ring

lemma norm_total (hw : w % 2 = 0) :
    ((norm c sum mp w).1.toNat : Sum16) + (norm c sum mp w).2 = sum.toNat + byteSum c.order false (bytesOf c mp w) := by
  rw [norm]
  split
  · exact slow_single ha { mp with struioIp := false } w Bool.noConfusion sum
  · rename_i heven
    rw [ocsum_even ha hw (by omega), cast_zero, add_zero, bytesOf]

theorem cksumRun_comes {offset : Nat} (h : ∀ b ∈ mp :: cont, b.struioIp → UioOk c b)
    (hw : (mp.rptr + offset) % 2 = 0) (hsum : sum.toNat < 2 ^ 16) :
    Comes c mp cont (mp.rptr + offset) sum (chainBytes c mp cont offset) (cksumRun c mp cont offset sum) := by
  rw [cksumRun]
  split
  · rename_i hcont
    exact .plain (fun hleaves => hcont hleaves.1) (fun htwice => hcont htwice.1) (slow_total ha _ h sum)
  rename_i hcont
  rw [not_not] at hcont
  have hchain : chainBytes c mp cont offset = bytesOf c mp (mp.rptr + offset) := by
    rw [chainBytes, hcont, flatMap_nil, append_nil]
  rw [hchain, hcont]
  split
  · rename_i hhas
    exact fastUio_comes ha (h mp (mem_cons_self ..) (hasUio_iff.mp hhas).1) hhas hw hsum
  · rename_i hhas
    exact .plain (fun hleaves => hhas hleaves.2.1) (fun htwice => hhas htwice.2.1) (norm_total ha hw)

end Fast

section Carries

/-- No carry has been lost, and at most `n` numbers of 16 bits have been added to one of them. -/
structure Summing.Small (n : Nat) (s : Summing) : Prop where
  lost : s.lost = 0
  sum : s.sum.toNat ≤ 65535 * (n + 1)

variable {m n : Nat}

lemma Summing.Small.mono (h : s.Small m) (hle : m ≤ n) : s.Small n :=
  ⟨h.lost, h.sum.trans (Nat.mul_le_mul_left 65535 (Nat.succ_le_succ hle))⟩

lemma Summing.Small.odd (h : s.Small n) (odd : Bool) : Summing.Small n { s with odd } := ⟨h.lost, h.sum⟩

/-- The largest sum of 65537 numbers of 16 bits is `2 ^ 32 - 1`. -/
lemma Summing.Small.add {x : Nat} (h : s.Small n) (hx : x ≤ 65535) (hn : n < 65536) : (s.add x).Small (n + 1) := by
  have hsmall := h.sum
  have hsum : (s.sum + BitVec.ofNat 32 x).toNat = (s.sum.toNat + x) % 2 ^ 32 := by
    rw [BitVec.toNat_add, BitVec.toNat_ofNat]
    omega
  refine ⟨?_, ?_⟩
  · rw [Summing.add, h.lost]
    dsimp only
    omega
  · rw [Summing.add, hsum]
    omega

lemma Summing.Small.start (hsum : sum.toNat < 2 ^ 16) : Summing.Small 0 ⟨sum, false, 0⟩ := ⟨rfl, by dsimp only; omega⟩

lemma high_le (c : Machine) (w : Nat) : c.high w ≤ 65535 := by
  cases horder : c.order <;> simp only [Machine.high, horder, Lib.ByteOrder.weight] <;> omega

lemma low_le (c : Machine) (w : Nat) : c.low w ≤ 65535 := by
  cases horder : c.order <;> simp only [Machine.low, horder, Lib.ByteOrder.weight] <;> omega

/-- Words at an even address are added by `ip_ocsum`, whose value has 16 bits. -/
lemma addWords_fold {ocsum : Nat → Nat → BitVec 32 → BitVec 32} (h : Adds c ocsum) (hlost : s.lost = 0) (hw : w % 2 = 0)
    (hmlen : mlen ≠ 0) : (addWords c ocsum s w mlen).Small 1 := by
  have hwords : Summing.Small 0 { s with sum := ocsum w (mlen / 2) s.sum } :=
    ⟨hlost, by have := (h w (mlen / 2) s.sum hw).1; dsimp only; omega⟩
  rw [addWords, if_neg hmlen, if_pos hw]
  dsimp only
  split
  · exact (hwords.add (high_le c _) (by decide)).odd true
  · exact hwords.mono zero_le_one

lemma addWords_small {ocsum : Nat → Nat → BitVec 32 → BitVec 32} (h : Adds c ocsum) (hs : s.Small n) (hn : n + 3 ≤ 65536) :
    (addWords c ocsum s w mlen).Small (n + 3) := by
  by_cases hmlen : mlen = 0
  · rw [addWords, if_pos hmlen]
    exact hs.mono (by omega)
  by_cases hw : w % 2 = 0
  · exact (addWords_fold h hs.lost hw hmlen).mono (by omega)
  have hswapped : (swapBytes ((c.ocsum (w + 1) ((mlen - 1) / 2) 0).setWidth 16)).toNat ≤ 65535 := by omega
  have htwo := (hs.add (high_le c w) (by omega)).add hswapped (by omega)
  rw [addWords, if_neg hmlen, if_neg hw]
  dsimp only
  split
  · exact htwo.add (low_le c _) (by omega)
  · exact (htwo.mono (by omega)).odd true

variable (ha : Adds c c.ocsum)

include ha

lemma addPiece_small (hs : s.Small n) (hn : n + 4 ≤ 65536) : (addPiece c s w mlen).Small (n + 4) := by
  rw [addPiece]
  split
  · exact addWords_small ha ((hs.add (low_le c w) (by omega)).odd false) hn
  · exact (addWords_small ha hs (by omega)).mono (by omega)

/-- A piece whose words are at even addresses of the chain and of the memory alike is folded. -/
lemma addPiece_fold {before : Nat} (hs : s.Small n) (hn : n < 65536) (hodd : s.odd = decide (before % 2 = 1))
    (hw : (w + before) % 2 = 0) (hmlen : mlen ≠ 0) (hone : ¬(before % 2 = 1 ∧ mlen = 1)) : (addPiece c s w mlen).Small 1 := by
  rw [addPiece]
  split
  · rename_i hleft
    have hbefore := of_decide_eq_true (hodd.symm.trans hleft.2)
    exact addWords_fold ha (hs.add (low_le c w) hn).lost (by omega) (by omega)
  · rename_i hleft
    have hbefore : before % 2 ≠ 1 := fun hbefore => hleft ⟨Nat.pos_of_ne_zero hmlen, hodd.trans (decide_eq_true hbefore)⟩
    exact addWords_fold ha hs.lost (by omega) hmlen

lemma douio_small (hs : s.Small n) (hn : n + 5 ≤ 65536) : (douio c s mp w mlen).Small (n + 5) := by
  have hpsum : (if s.odd then (swapBytes mp.psum).toNat else mp.psum.toNat) ≤ 65535 := by
    split <;> omega
  have hadd := hs.add hpsum (by omega)
  rw [douio]
  dsimp only
  split
  · split
    · exact addPiece_small ha (hadd.odd _) hn
    · exact addPiece_small ha (hadd.odd _) hn
  · exact addPiece_small ha (hadd.odd _) hn

lemma trip_small (hs : s.Small n) (hn : n + 9 ≤ 65536) : (trip c s mp w).Small (n + 9) := by
  rw [trip]
  split
  · dsimp only
    split
    · exact douio_small ha (addPiece_small ha hs (by omega)) hn
    · exact (douio_small ha hs (by omega)).mono (by omega)
  · exact (addPiece_small ha hs (by omega)).mono (by omega)

omit ha in
lemma trip_plain (hplain : mp.struioIp = false) : trip c s mp w = addPiece c s w (mp.wptr - w) := by
  rw [trip, if_neg fun huio => by rw [(hasUio_iff.mp huio).1] at hplain; exact Bool.noConfusion hplain]

lemma laterTrips_lost {before : Nat} (h : ∀ b ∈ cont, b.struioIp → UioOk c b) (hs : s.Small n)
    (hodd : s.odd = decide (before % 2 = 1)) (hfew : unfolded n before cont ≤ 65536) : (laterTrips c s cont).lost = 0 := by
  induction cont generalizing s n before with
  | nil => exact hs.lost
  | cons mp cont ih =>
    have hrest := fun b hb => h b (mem_cons_of_mem _ hb)
    have htrip := trip_summed (s := s) (w := mp.rptr) ha (h mp (mem_cons_self ..))
    have hparity : (trip c s mp mp.rptr).odd = decide ((before + (mp.wptr - mp.rptr)) % 2 = 1) := by
      rw [htrip.odd, hodd, bytesOf, length_bytesFrom, parity_add]
    rw [unfolded] at hfew
    rw [laterTrips]
    split
    · rename_i hempty
      rw [if_pos hempty] at hfew
      exact ih hrest hs hodd hfew
    rename_i hsome
    rw [if_neg hsome] at hfew
    by_cases hflag : mp.struioIp = true
    · rw [if_pos hflag] at hfew
      have hn := (le_unfolded _ _ cont).trans hfew
      exact ih hrest (trip_small ha hs hn) hparity hfew
    rw [if_neg hflag] at hfew
    rw [Bool.not_eq_true] at hflag
    by_cases hloose : (mp.rptr + before) % 2 = 1 ∨ before % 2 = 1 ∧ mp.wptr - mp.rptr = 1
    · rw [if_pos hloose] at hfew
      have hn := (le_unfolded _ _ cont).trans hfew
      refine ih hrest ?_ hparity hfew
      rw [trip_plain hflag]
      exact addPiece_small ha hs hn
    · rw [if_neg hloose, max_le_iff] at hfew
      obtain ⟨haligned, hone⟩ := not_or.mp hloose
      refine ih hrest ?_ hparity hfew.2
      rw [trip_plain hflag]
      exact addPiece_fold ha hs (by omega) hodd (by omega) hsome hone

lemma slow_lost {first : Sblk} (h : ∀ b ∈ first :: cont, b.struioIp → UioOk c b) (hw : w % 2 = 0) (hsum : sum.toNat < 2 ^ 16)
    (hfew : unfolded (if first.struioIp then 9 else 1) (first.wptr - w) cont ≤ 65536) : (slow c sum first w cont).2 = 0 := by
  have hfirst : (trip c ⟨sum, false, 0⟩ first w).Small (if first.struioIp then 9 else 1) := by
    have hstart := Summing.Small.start hsum
    split
    · exact trip_small ha hstart (by decide)
    · rename_i hplain
      rw [Bool.not_eq_true] at hplain
      rw [trip_plain hplain]
      by_cases hmlen : first.wptr - w = 0
      · rw [addPiece, if_neg (by simp), addWords, if_pos hmlen]
        exact hstart.mono zero_le_one
      · exact @addPiece_fold _ _ _ _ _ ha 0 hstart (by decide) rfl hw hmlen (by simp)
  refine laterTrips_lost ha (fun b hb => h b (mem_cons_of_mem _ hb)) hfirst ?_ hfew
  rw [(trip_summed ha (h first (mem_cons_self ..))).odd, bytesOf, length_bytesFrom]
  exact Bool.false_xor _

lemma slow_lost_single (mp : Sblk) (w : Nat) (hsum : sum.toNat < 2 ^ 16) : (slow c sum mp w []).2 = 0 :=
  (trip_small ha (Summing.Small.start hsum) (by decide)).lost

lemma fastUio_lost (hw : w % 2 = 0) (hsum : sum.toNat < 2 ^ 16) : (fastUio c sum mp w).2 = 0 := by
  have hslow : ∀ x : BitVec 32, x.toNat < 2 ^ 16 → (slow c x mp w []).2 = 0 := fun x => slow_lost_single ha mp w
  have hprefix := (ha w ((mp.struiobase - w) / 2) sum hw).1
  rw [fastUio]
  split
  · exact hslow sum hsum
  split
  · split
    · exact (douio_small ha (Summing.Small.start hprefix) (by decide)).lost
    split
    · exact hslow _ hprefix
    · rfl
  split
  · split
    · split
      · exact hslow sum hsum
      · rfl
    split
    · exact hslow sum hsum
    split
    · exact hslow sum hsum
    · rfl
  split
  · rfl
  · rfl

lemma cksumRun_lost {offset : Nat} (h : ∀ b ∈ mp :: cont, b.struioIp → UioOk c b) (hw : (mp.rptr + offset) % 2 = 0)
    (hsum : sum.toNat < 2 ^ 16) (hfew : Folded mp cont offset) : (cksumRun c mp cont offset sum).2 = 0 := by
  rw [cksumRun]
  split
  · exact slow_lost ha h hw hsum hfew
  split
  · exact fastUio_lost ha hw hsum
  rw [norm]
  split
  · exact slow_lost_single ha _ _ hsum
  · rfl

end Carries

end Chain

end Solaris.Ip
