import Solaris.Ip.CksumValue

/-!
# The checksum and the copy of a chain

`ip_cksum_copy` adds up a chain as `ip_cksum` does one without `STRUIO_IP`, and its copy holds the bytes of the
chain one after the other.
-/

namespace Solaris.Ip

open Nat

open Lib (Byte Memory putByte bcopy ByteOrder bytesFrom byteSum wordSum halfwordSum Sum16 putBytes
  length_bytesFrom bytesFrom_split bytesFrom_cons byteSum_false bcopy_eq putBytes_append putBytes_nil putBytes_one
  putBytes_last)

variable {c : Machine} {s s' s'' : Copying} {mp : Sblk} {cont : List Sblk} {w mlen : Nat} {sum : BitVec 32}
  {l l' : List Byte}

/-- From one state to another the bytes of `l` have been laid out. -/
structure Copied (s s' : Copying) (l : List Byte) : Prop where
  out : s'.out = putBytes s.out s.dest l
  dest : s'.dest = s.dest + l.length

lemma Copied.refl : Copied s s [] := ⟨(putBytes_nil ..).symm, rfl⟩

lemma Copied.trans (h : Copied s s' l) (h' : Copied s' s'' l') : Copied s s'' (l ++ l') := by
  refine ⟨?_, ?_⟩
  · rw [h'.out, h.out, h.dest, putBytes_append]
  · rw [h'.dest, h.dest, List.length_append, add_assoc]

lemma put_laid (b : Byte) : Copied s (s.put b) [b] := ⟨(putBytes_one ..).symm, rfl⟩

lemma bcopy_laid (n : Nat) :
    Copied s { s with out := bcopy c.mem w s.out s.dest n, dest := s.dest + n } (bytesFrom c.mem w n) := by
  refine ⟨bcopy_eq .., ?_⟩
  rw [length_bytesFrom]

lemma bcopy_put_laid (n : Nat) :
    Copied s (Copying.put { s with out := bcopy c.mem w s.out s.dest (n + 1), dest := s.dest + n } (c.mem (w + n)))
      (bytesFrom c.mem w (n + 1)) := by
  have hlast := putBytes_last s.out s.dest (bytesFrom c.mem w n) (c.mem (w + n))
  rw [length_bytesFrom, ← bytesFrom_split rfl] at hlast
  refine ⟨?_, ?_⟩
  · simp only [Copying.put, bcopy_eq]
    exact hlast
  · simp only [Copying.put, length_bytesFrom]
    omega

lemma copyWords_laid (c : Machine) (s : Copying) (w mlen : Nat) : Copied s (copyWords c s w mlen) (bytesFrom c.mem w mlen) := by
  rw [copyWords]
  by_cases hzero : mlen = 0
  · rw [if_pos hzero, hzero]
    exact .refl
  rw [if_neg hzero]
  by_cases hw : w % 2 = 0
  · rw [if_pos hw]
    by_cases hlast : mlen % 2 = 1
    · have hlen : mlen = 2 * (mlen / 2) + 1 := by omega
      rw [if_pos hlast, show mlen - 1 = 2 * (mlen / 2) by omega]
      split
      · rw [bytesFrom_split hlen]
        exact (bcopy_laid _).trans (put_laid _)
      · have hput := bcopy_put_laid (c := c) (s := s) (w := w) (2 * (mlen / 2))
        rwa [← hlen] at hput
    · have hlen : 2 * (mlen / 2) = mlen := by omega
      rw [if_neg hlast, hlen, ite_self]
      exact bcopy_laid _
  · rw [if_neg hw, bytesFrom_cons (show mlen = mlen - 1 + 1 by omega)]
    refine (put_laid (c.mem w)).trans ?_
    by_cases hlast : (mlen - 1) % 2 = 1
    · have hlen : mlen - 1 = 2 * ((mlen - 1) / 2) + 1 := by omega
      have hput := bcopy_put_laid (c := c) (s := s.put (c.mem w)) (w := w + 1) (2 * ((mlen - 1) / 2))
      rw [if_pos hlast, show mlen - 1 - 1 = 2 * ((mlen - 1) / 2) by omega]
      rwa [← hlen] at hput
    · have hlen : 2 * ((mlen - 1) / 2) = mlen - 1 := by omega
      rw [if_neg hlast, hlen]
      exact bcopy_laid _

section Trips

variable (ha : Adds c c.ocsum) (ha' : Adds c c.ocsumCopy)

include ha ha'

lemma copySum_adds (dest w : Nat) : Adds c (copySum c dest w) := by
  rw [copySum]
  split
  · exact ha'
  · exact ha

lemma copyTrip_spec (s : Copying) (mp : Sblk) (w : Nat) (hodd : s.sums.odd → w < mp.wptr) :
    Summed c s.sums (copyTrip c s mp w).sums (bytesOf c mp w) ∧ Copied s (copyTrip c s mp w) (bytesOf c mp w) := by
  rw [copyTrip]
  split
  · rename_i hleft
    have hcons : mp.wptr - w = mp.wptr - (w + 1) + 1 := by
      have := hodd hleft
      omega
    have hfirst : Summed c s.sums { s.sums.add (c.low w) with odd := false } [c.mem w] := add_low hleft
    rw [bytesOf, bytesFrom_cons hcons]
    refine ⟨hfirst.trans (addWords_summed (copySum_adds ha ha' _ _) ha fun _ => rfl), ?_⟩
    have hput : Copied s { s.put (c.mem w) with sums := { s.sums.add (c.low w) with odd := false } } [c.mem w] :=
      ⟨(put_laid _).out, (put_laid _).dest⟩
    have hrest := copyWords_laid c { s.put (c.mem w) with sums := { s.sums.add (c.low w) with odd := false } }
      (w + 1) (mp.wptr - (w + 1))
    exact hput.trans ⟨hrest.out, hrest.dest⟩
  · rename_i hleft
    rw [Bool.not_eq_true] at hleft
    refine ⟨addWords_summed (copySum_adds ha ha' _ _) ha fun _ => hleft, ?_⟩
    have hrest := copyWords_laid c s w (mp.wptr - w)
    exact ⟨hrest.out, hrest.dest⟩

lemma laterCopies_spec (s : Copying) (cont : List Sblk) :
    Summed c s.sums (laterCopies c s cont).sums (cont.flatMap fun mp => bytesOf c mp mp.rptr) ∧
      Copied s (laterCopies c s cont) (cont.flatMap fun mp => bytesOf c mp mp.rptr) := by
  induction cont generalizing s with
  | nil => exact ⟨.refl, .refl⟩
  | cons mp cont ih =>
    rw [laterCopies, List.flatMap_cons]
    split
    · rename_i hempty
      rw [bytesOf, hempty]
      exact ih s
    · rename_i hsome
      obtain ⟨hsum, hlaid⟩ := copyTrip_spec ha ha' s mp mp.rptr fun _ => by omega
      obtain ⟨hsums, hlaids⟩ := ih (copyTrip c s mp mp.rptr)
      exact ⟨hsum.trans hsums, hlaid.trans hlaids⟩

lemma copyTrip_small {n : Nat} (hs : s.sums.Small n) (hn : n + 4 ≤ 65536) : (copyTrip c s mp w).sums.Small (n + 4) := by
  rw [copyTrip]
  split
  · exact addWords_small (copySum_adds ha ha' _ _) ((hs.add (low_le c w) (by omega)).odd false) hn
  · exact (addWords_small (copySum_adds ha ha' _ _) hs (by omega)).mono (by omega)

lemma copyTrip_fold {n before : Nat} (hs : s.sums.Small n) (hn : n < 65536) (hodd : s.sums.odd = decide (before % 2 = 1))
    (hw : (w + before) % 2 = 0) (hmlen : mp.wptr - w ≠ 0) (hone : ¬(before % 2 = 1 ∧ mp.wptr - w = 1)) :
    (copyTrip c s mp w).sums.Small 1 := by
  rw [copyTrip]
  split
  · rename_i hleft
    have hbefore := of_decide_eq_true (hodd.symm.trans hleft)
    exact addWords_fold (copySum_adds ha ha' _ _) (hs.add (low_le c w) hn).lost (by omega) (by omega)
  · rename_i hleft
    have hbefore : before % 2 ≠ 1 := fun hbefore => hleft (hodd.trans (decide_eq_true hbefore))
    exact addWords_fold (copySum_adds ha ha' _ _) hs.lost (by omega) hmlen

lemma laterCopies_lost {n before : Nat} (hs : s.sums.Small n) (hodd : s.sums.odd = decide (before % 2 = 1))
    (hfew : unfolded n before cont ≤ 65536) : (laterCopies c s cont).sums.lost = 0 := by
  induction cont generalizing s n before with
  | nil => exact hs.lost
  | cons mp cont ih =>
    rw [unfolded] at hfew
    rw [laterCopies]
    split
    · rename_i hempty
      rw [if_pos hempty] at hfew
      exact ih hs hodd hfew
    rename_i hsome
    rw [if_neg hsome] at hfew
    have hparity : (copyTrip c s mp mp.rptr).sums.odd = decide ((before + (mp.wptr - mp.rptr)) % 2 = 1) := by
      rw [(copyTrip_spec ha ha' s mp mp.rptr fun _ => by omega).1.odd, hodd, bytesOf, length_bytesFrom, parity_add]
    by_cases hflag : mp.struioIp = true
    · rw [if_pos hflag] at hfew
      have hn := (le_unfolded _ _ cont).trans hfew
      exact ih ((copyTrip_small ha ha' hs (by omega)).mono (by omega)) hparity hfew
    rw [if_neg hflag] at hfew
    by_cases hloose : (mp.rptr + before) % 2 = 1 ∨ before % 2 = 1 ∧ mp.wptr - mp.rptr = 1
    · rw [if_pos hloose] at hfew
      have hn := (le_unfolded _ _ cont).trans hfew
      exact ih (copyTrip_small ha ha' hs hn) hparity hfew
    · rw [if_neg hloose, max_le_iff] at hfew
      obtain ⟨haligned, hone⟩ := not_or.mp hloose
      exact ih (copyTrip_fold ha ha' hs (by omega) hodd (by omega) hsome hone) hparity hfew.2

variable {offset dest : Nat} {out : Memory} (hw : (mp.rptr + offset) % 2 = 0)

include hw

theorem cksumCopyRun_spec (cont : List Sblk) (sum : BitVec 32) (dest : Nat) (out : Memory) :
    ((cksumCopyRun c mp cont offset sum out dest).1.1.toNat : Sum16) +
      (cksumCopyRun c mp cont offset sum out dest).1.2 =
        sum.toNat + byteSum c.order false (chainBytes c mp cont offset) ∧
    (cksumCopyRun c mp cont offset sum out dest).2 = putBytes out dest (chainBytes c mp cont offset) := by
  rw [cksumCopyRun]
  split
  · rename_i hone
    have hlen : 2 * ((mp.wptr - (mp.rptr + offset)) / 2) = mp.wptr - (mp.rptr + offset) := by omega
    have hchain : chainBytes c mp cont offset = bytesOf c mp (mp.rptr + offset) := by
      rw [chainBytes, hone.1, List.flatMap_nil, List.append_nil]
    rw [hchain, bytesOf]
    split
    · refine ⟨?_, ?_⟩
      · have htotal := ocsum_total ha' (n := (mp.wptr - (mp.rptr + offset)) / 2) hw sum
        rw [hlen] at htotal
        rw [htotal, cast_zero, add_zero]
      · rw [hlen]
        exact bcopy_eq ..
    · refine ⟨?_, bcopy_eq ..⟩
      rw [ocsum_even ha hw (by omega), cast_zero, add_zero]
  · obtain ⟨hsum, hlaid⟩ := copyTrip_spec ha ha' ⟨⟨sum, false, 0⟩, out, dest⟩ mp (mp.rptr + offset)
      Bool.noConfusion
    obtain ⟨hsums, hlaids⟩ := laterCopies_spec ha ha'
      (copyTrip c ⟨⟨sum, false, 0⟩, out, dest⟩ mp (mp.rptr + offset)) cont
    refine ⟨?_, (hlaid.trans hlaids).out⟩
    rw [done_total, (hsum.trans hsums).total]
    simp [Summing.total, chainBytes]

lemma cksumCopyRun_lost (hsum : sum.toNat < 2 ^ 16) (hfew : Folded mp cont offset) :
    (cksumCopyRun c mp cont offset sum out dest).1.2 = 0 := by
  rw [cksumCopyRun]
  dsimp only
  split
  · split <;> rfl
  have hstart : (Copying.sums ⟨⟨sum, false, 0⟩, out, dest⟩).Small 0 := .start hsum
  have hparity := (copyTrip_spec ha ha' ⟨⟨sum, false, 0⟩, out, dest⟩ mp (mp.rptr + offset) Bool.noConfusion).1.odd
  rw [bytesOf, length_bytesFrom, Bool.false_xor] at hparity
  have hfirst : (copyTrip c ⟨⟨sum, false, 0⟩, out, dest⟩ mp (mp.rptr + offset)).sums.Small 1 := by
    by_cases hmlen : mp.wptr - (mp.rptr + offset) = 0
    · rw [copyTrip, if_neg Bool.false_ne_true]
      dsimp only [copyPiece]
      rw [addWords, if_pos hmlen]
      exact hstart.mono zero_le_one
    · exact @copyTrip_fold _ _ _ _ ha ha' _ 0 hstart (by decide) rfl hw hmlen (by simp)
  exact laterCopies_lost ha ha' (hfirst.mono (by split <;> decide)) hparity hfew

end Trips

section Chain

/-- A chain whose sum is asked for: the first byte is at an even address, and what was summed before is in `psum`. -/
structure Summable (c : Machine) (mp : Sblk) (cont : List Sblk) (offset : Nat) (sum : BitVec 32) : Prop where
  calls : Adds c c.ocsum
  callsCopy : Adds c c.ocsumCopy
  inside : mp.rptr + offset ≤ mp.wptr
  even : (mp.rptr + offset) % 2 = 0
  blocks : ∀ b ∈ mp :: cont, b.rptr ≤ b.wptr
  uio : ∀ b ∈ mp :: cont, b.struioIp → UioOk c b
  sum : sum.toNat < 2 ^ 16

/-- `v` is congruent to the sum and the words of the chain. -/
def SumOf (c : Machine) (mp : Sblk) (cont : List Sblk) (offset : Nat) (sum v : BitVec 32) : Prop :=
  v.toNat % 65535 = (sum.toNat + wordSum c.order (chainBytes c mp cont offset)) % 65535

/-- Both routines return the sum of the chain, and the copy is the chain's bytes. -/
structure ChainSummed (c : Machine) (mp : Sblk) (cont : List Sblk) (offset : Nat) (sum : BitVec 32) (out : Memory)
    (dest : Nat) : Prop where
  cksum : SumOf c mp cont offset sum (ipCksum c mp cont offset sum)
  copy : (∀ b ∈ mp :: cont, b.struioIp = false) →
    SumOf c mp cont offset sum (ipCksumCopy c mp cont offset sum out dest).1 ∧
      (ipCksumCopy c mp cont offset sum out dest).2 = putBytes out dest (chainBytes c mp cont offset)

/-- What is left out and what is added twice counts nothing. -/
structure SumKept (c : Machine) (mp : Sblk) (cont : List Sblk) (offset : Nat) (sum : BitVec 32) : Prop where
  leaves : LeavesSumOut mp cont (mp.rptr + offset) → sum.toNat % 65535 = 0
  twice : AddsPrefixTwice mp cont (mp.rptr + offset) →
    wordSum c.order (prefixBytes c mp (mp.rptr + offset)) % 65535 = 0

variable {offset dest : Nat} {out : Memory}

lemma sumOf_iff (v : BitVec 32) : SumOf c mp cont offset sum v ↔
    (v.toNat : Sum16) = sum.toNat + byteSum c.order false (chainBytes c mp cont offset) := by
  rw [SumOf, ← ZMod.natCast_eq_natCast_iff', byteSum_false]
  push_cast
  rfl

lemma natCast_zero_iff {n : Nat} : (n : Sum16) = 0 ↔ n % 65535 = 0 := by
  rw [ZMod.natCast_eq_zero_iff]
  exact dvd_iff_mod_eq_zero

lemma LeavesSumOut.lost (h : Summable c mp cont offset sum) (hcont : cont = []) : (cksumRun c mp cont offset sum).2 = 0 := by
  refine cksumRun_lost h.calls h.uio h.even h.sum ?_
  rw [Folded, hcont, unfolded]
  split <;> decide

lemma cksum_iff (h : Summable c mp cont offset sum) (hlost : cont = [] ∨ (cksumRun c mp cont offset sum).2 = 0) :
    SumOf c mp cont offset sum (ipCksum c mp cont offset sum) ↔ SumKept c mp cont offset sum := by
  have hcomes := cksumRun_comes h.calls h.uio h.even h.sum
  replace hlost := hlost.elim (LeavesSumOut.lost h) id
  rw [Comes, hlost, cast_zero, add_zero] at hcomes
  rw [sumOf_iff, ipCksum]
  by_cases hleaves : LeavesSumOut mp cont (mp.rptr + offset)
  · have hno : ¬AddsPrefixTwice mp cont (mp.rptr + offset) := fun htwice => htwice.2.2.1 hleaves.2.2.1
    rw [if_pos hleaves, if_neg hno, add_zero] at hcomes
    rw [← hcomes]
    constructor
    · intro heq
      exact ⟨fun _ => natCast_zero_iff.mp (by linear_combination -heq), fun htwice => absurd htwice hno⟩
    · intro hkept
      rw [natCast_zero_iff.mpr (hkept.leaves hleaves), add_zero]
  by_cases htwice : AddsPrefixTwice mp cont (mp.rptr + offset)
  · rw [if_neg hleaves, if_pos htwice, add_zero] at hcomes
    rw [hcomes]
    constructor
    · intro heq
      refine ⟨fun hno => absurd hno hleaves, fun _ => natCast_zero_iff.mp ?_⟩
      rw [← byteSum_false]
      linear_combination heq
    · intro hkept
      have htwo := natCast_zero_iff.mpr (hkept.twice htwice)
      rw [← byteSum_false] at htwo
      rw [htwo, add_zero]
  rw [if_neg hleaves, if_neg htwice, add_zero, add_zero] at hcomes
  exact iff_of_true hcomes ⟨fun hno => absurd hno hleaves, fun hno => absurd hno htwice⟩

lemma copy_right (h : Summable c mp cont offset sum) (hfew : Folded mp cont offset) :
    SumOf c mp cont offset sum (ipCksumCopy c mp cont offset sum out dest).1 ∧
      (ipCksumCopy c mp cont offset sum out dest).2 = putBytes out dest (chainBytes c mp cont offset) := by
  obtain ⟨htotal, hout⟩ := cksumCopyRun_spec h.calls h.callsCopy h.even cont sum dest out
  rw [cksumCopyRun_lost h.calls h.callsCopy h.even h.sum hfew, cast_zero, add_zero] at htotal
  exact ⟨(sumOf_iff _).mpr htotal, hout⟩

def carriedSum (o : ByteOrder) (m : Memory) (a n : Nat) (s : BitVec 32) : BitVec 32 :=
  let x := s.toNat + halfwordSum o m a n
  if x = 0 then 0 else BitVec.ofNat 32 ((x - 1) % 65535 + 1)

def filled (b : Byte) : Machine where
  order := .big
  mem _ := b
  ocsum := carriedSum .big fun _ => b
  ocsumCopy := carriedSum .big fun _ => b

lemma carriedSum_adds (b : Byte) : Adds (filled b) (carriedSum .big fun _ => b) := by
  intro a n s _
  rw [carriedSum]
  dsimp only [filled]
  split
  · rename_i hzero
    rw [hzero]
    decide
  rename_i hsome
  have hval : (BitVec.ofNat 32 ((s.toNat + halfwordSum .big (fun _ => b) a n - 1) % 65535 + 1)).toNat =
      (s.toNat + halfwordSum .big (fun _ => b) a n - 1) % 65535 + 1 := by
    rw [BitVec.toNat_ofNat]
    omega
  omega

/-- A block of four bytes, the last `n` of them to be summed. -/
def uioBlock (n : Nat) (psum : BitVec 16) : Sblk where
  rptr := 100
  wptr := 104
  struioIp := true
  struiobase := 100
  struioptr := 104 - n
  struiolim := 104
  psum := psum

lemma uioBlock_summable {n : Nat} (hn : n ≤ 4) {psum : BitVec 16} (hpsum : psum.toNat % 65535 =
      wordSum .big (bytesFrom (filled 1).mem 100 (104 - n - 100)) % 65535) (hsum : sum.toNat < 2 ^ 16) :
    Summable (filled 1) (uioBlock n psum) [] 0 sum := by
  have hlist : ∀ b ∈ [uioBlock n psum], b = uioBlock n psum := fun b hb => List.mem_singleton.mp hb
  refine ⟨carriedSum_adds 1, carriedSum_adds 1, ?_, ?_, fun b hb => ?_, fun b hb _ => ?_, hsum⟩
  · simp only [uioBlock]
    omega
  · simp only [uioBlock]
  · rw [hlist b hb]
    simp only [uioBlock]
    omega
  · rw [hlist b hb]
    refine ⟨?_, ?_, rfl, hpsum⟩
    · simp only [uioBlock]
      omega
    · simp only [uioBlock]
      omega

/-- Two bytes at an odd address, and no bytes at an even one. -/
def oddBlock : Sblk := ⟨101, 103, false, 0, 0, 0, 0⟩

def emptyBlock : Sblk := ⟨100, 100, false, 0, 0, 0, 0⟩

lemma laterTrips_replicate {s : Summing} {x : BitVec 32} (hmlen : mp.wptr - mp.rptr ≠ 0)
    (htrip : ∀ s : Summing, s.odd = false → (trip c s mp mp.rptr).odd = false ∧ (trip c s mp mp.rptr).sum = s.sum + x)
    (hodd : s.odd = false) (n : Nat) : (laterTrips c s (List.replicate n mp)).sum = s.sum + BitVec.ofNat 32 n * x := by
  induction n generalizing s with
  | zero =>
    rw [BitVec.zero_mul, BitVec.add_zero]
    rfl
  | succ n ih =>
    obtain ⟨hodd', hsum⟩ := htrip s hodd
    rw [List.replicate_succ, laterTrips, if_neg hmlen, ih hodd', hsum, BitVec.ofNat_add, BitVec.add_mul, BitVec.add_assoc,
      BitVec.add_comm x, BitVec.one_mul]

lemma add_odd (s : Summing) (x : Nat) : (s.add x).odd = s.odd := rfl

lemma add_sum (s : Summing) (x : Nat) : (s.add x).sum = s.sum + BitVec.ofNat 32 x := rfl

lemma trip_oddBlock {s : Summing} (hodd : s.odd = false) : (trip (filled 0xFF) s oddBlock oddBlock.rptr).odd = false ∧
    (trip (filled 0xFF) s oddBlock oddBlock.rptr).sum = s.sum + 65535 := by
  have htrip : trip (filled 0xFF) s oddBlock oddBlock.rptr = ((s.add 65280).add 0).add 255 := by
    rw [trip, if_neg (by decide), addPiece, if_neg (by simp [hodd])]
    rfl
  have hsum : 65280#32 + (0#32 + 255#32) = 65535 := by decide
  rw [htrip, add_odd, add_odd, add_odd, add_sum, add_sum, add_sum, BitVec.add_assoc, BitVec.add_assoc, hsum]
  exact ⟨hodd, rfl⟩

lemma ones_sum (n : Nat) : (byteSum (filled 0xFF).order false
    ((List.replicate n oddBlock).flatMap fun b => bytesOf (filled 0xFF) b b.rptr) : Sum16) = 0 := by
  induction n with
  | zero => exact natCast_zero_iff.mpr rfl
  | succ n ih =>
    rw [List.replicate_succ, List.flatMap_cons, byteSum_append_even (by decide), ih, add_zero]
    exact natCast_zero_iff.mpr (by decide)

/-- Nothing folds the sum of blocks at odd addresses, and a carry out of it is lost. -/
theorem carries_dropped : Summable (filled 0xFF) emptyBlock (List.replicate 65538 oddBlock) 0 0 ∧
    SumKept (filled 0xFF) emptyBlock (List.replicate 65538 oddBlock) 0 0 ∧
    ¬ SumOf (filled 0xFF) emptyBlock (List.replicate 65538 oddBlock) 0 0
      (ipCksum (filled 0xFF) emptyBlock (List.replicate 65538 oddBlock) 0 0) := by
  have hblocks : ∀ b ∈ emptyBlock :: List.replicate 65538 oddBlock, b = emptyBlock ∨ b = oddBlock := by
    intro b hb
    exact (List.mem_cons.mp hb).imp id List.eq_of_mem_replicate
  have hcont : List.replicate 65538 oddBlock ≠ [] := fun hnil => absurd (List.replicate_eq_nil_iff _ |>.mp hnil) (by decide)
  refine ⟨⟨carriedSum_adds _, carriedSum_adds _, le_rfl, rfl, fun b hb => ?_, fun b hb hflag => ?_, by decide⟩,
    ⟨fun hleaves => absurd hleaves.1 hcont, fun htwice => absurd htwice.1 hcont⟩, fun hright => ?_⟩
  · rcases hblocks b hb with rfl | rfl <;> decide
  · rcases hblocks b hb with rfl | rfl <;> cases hflag
  · have hvalue : ipCksum (filled 0xFF) emptyBlock (List.replicate 65538 oddBlock) 0 0 = 65534 := by
      have hsum := @laterTrips_replicate _ _ ⟨0, false, 0⟩ _ (by decide) (fun _ => trip_oddBlock) rfl 65538
      rw [ipCksum, cksumRun, if_pos hcont, slow, done]
      dsimp only
      have hfirst : trip (filled 0xFF) ⟨0, false, 0⟩ emptyBlock (emptyBlock.rptr + 0) = ⟨0, false, 0⟩ := rfl
      rw [hfirst, hsum]
      decide
    rw [sumOf_iff, hvalue, chainBytes] at hright
    have hnone : bytesOf (filled 0xFF) emptyBlock (emptyBlock.rptr + 0) = [] := rfl
    rw [hnone, List.nil_append, ones_sum 65538] at hright
    exact absurd hright (by decide)

end Chain

end Solaris.Ip
