import Solaris.Vj.Line

/-!
# The line is transparent

A packet that the sender takes comes out of the receiver as it was, and the two ends mirror each other again. This
holds for every packet but two that are compressed: the one that clears the urgent bit of a stale slot, and the one
whose header checksum is 0xffff, the second way to write zero.
-/

namespace Solaris.Vj

section Transparency

open Lib Function Nat List

variable {n cs : Nat} {l : Line} {p : List Byte}

lemma ofBytes_set_self (p : List Byte) (b : Byte) {i : Nat} (h : i < p.length) : ofBytes (p.set i b) i = b := by
  simp [ofBytes, h]

lemma set_protocol (hlen : 9 < p.length) (hp : ipP (ofBytes p) = ipprotoTcp) (b : Byte) :
    (p.set 9 b).set 9 ipprotoTcp = p := by
  have hget : p[9] = ipprotoTcp := by
    rw [← hp]
    simp [ipP, ofBytes, hlen]
  rw [set_set, ← hget, set_getElem_self]

lemma Mirror.id_toNat (h : Mirror n l) (hcs : cs < n) : (l.sender.tstate cs).id.toNat = cs := by
  have := h.bound
  unfold maxStates at this
  rw [h.ids cs hcs, BitVec.toNat_ofNat]
  omega

lemma Mirror.id_ne (h : Mirror n l) (hcs : cs < n) : (l.sender.tstate cs).id ≠ 255 := by
  intro heq
  have := h.bound
  have hid := h.id_toNat hcs
  rw [heq] at hid
  unfold maxStates at this
  simp at hid
  omega

lemma Mirror.locate (h : Mirror n l) (m : Memory) :
    ∃ hit cs sender, Vj.locate l.sender m = some (hit, cs, sender) ∧ cs < n ∧ Mirror n ⟨sender, l.receiver⟩ ∧
      (hit = true → sameConnection m (sender.tstate cs).hdr) ∧ sender.lastXmit = l.sender.lastXmit := by
  obtain ⟨order, hring, hperm⟩ := h.ring
  have hlength : order.length ≤ maxStates := by
    rw [hperm.length_eq, length_range]
    exact h.bound
  obtain ⟨hit, cs, lastcs, t, order', heq, hloc⟩ := locate_spec hring hlength m
  have hcs : cs < n := mem_range.mp (hperm.mem_iff.mp hloc.mem)
  refine ⟨hit, cs, _, heq, hcs, ⟨h.bound, ⟨order', hloc.ring, hloc.perm.trans hperm⟩, h.slots, ?_, ?_, ?_, h.last⟩,
    fun hh => ?_, rfl⟩
  · intro i hi
    exact (hloc.slots i).2.trans (h.ids i hi)
  · intro i hi
    rw [h.saved i hi]
    exact congrArg zeroSum (hloc.slots i).1.symm
  · intro i hi
    rw [(hloc.slots i).1]
    exact h.kept i hi
  · dsimp only
    rw [(hloc.slots cs).1]
    exact hloc.same hh

lemma Mirror.save (h : Mirror n l) (hcs : cs < n) {hdr : Memory} {hlen : Nat} {c : Cstate} {x : Byte}
    (hkept : Kept hdr hlen) (hsaved : c.hdr = zeroSum hdr) (hc : c.hlen = hlen) (hx : x = (l.sender.tstate cs).id) :
    Mirror n ⟨{ l.sender with tstate := setHdr l.sender.tstate cs hdr, lastXmit := x },
      { l.receiver with lastRecv := x, toss := false, rstate := update l.receiver.rstate cs c }⟩ := by
  obtain ⟨order, hring, hperm⟩ := h.ring
  refine ⟨h.bound, ⟨order, ?_, hperm⟩, h.slots, ?_, ?_, ?_, .inr ⟨rfl, rfl⟩⟩
  · rw [links_setHdr]
    exact hring
  · intro i hi
    by_cases hic : i = cs
    · subst hic
      simp only [setHdr, update_self]
      exact h.ids i hi
    · simp only [setHdr, update_of_ne hic]
      exact h.ids i hi
  · intro i hi
    by_cases hic : i = cs
    · subst hic
      simp only [setHdr, update_self]
      exact hsaved
    · simp only [setHdr, update_of_ne hic]
      exact h.saved i hi
  · intro i hi
    by_cases hic : i = cs
    · subst hic
      simp only [setHdr, update_self]
      exact .inr (hc ▸ hkept)
    · simp only [setHdr, update_of_ne hic]
      exact h.kept i hi

lemma setHdr_id (t : Nat → Cstate) (i : Nat) (h : Memory) : (setHdr t i h i).id = (t i).id := by
  rw [setHdr, update_self]

lemma zeroSum_copy (hlen : Nat) (m S : Memory) :
    zeroSum (copyBytes hlen m (zeroSum S)) = zeroSum (copyBytes hlen m S) := by
  funext i
  by_cases hi : i = 10 ∨ i = 11
  · rw [zeroSum_sum hi, zeroSum_sum hi]
  · rw [zeroSum_of_ne (by omega) (by omega), zeroSum_of_ne (by omega) (by omega), copyBytes, copyBytes,
      zeroSum_of_ne (by omega) (by omega)]

def Carries (n : Nat) (receiver : Vjstruct) (out : PacketType × List Byte × Vjstruct) (p : List Byte) : Prop :=
  ∃ receiver', deliver receiver out.1 out.2.1 = some (.accepted (some p), receiver') ∧
    Mirror n ⟨out.2.2, receiver'⟩

lemma Mirror.carries_uncompressed (h : Mirror n l) (hcs : cs < n) {hlen : Nat} (hk : Kept (ofBytes p) hlen)
    (hp : ipP (ofBytes p) = ipprotoTcp) (hlen' : hlen ≤ p.length) :
    Carries n l.receiver (sendUncompressed .ok l.sender cs hlen p) p := by
  obtain ⟨h0, h1, h2⟩ := hk.bounds
  have hid := h.id_toNat hcs
  have hslot : ipP (ofBytes (p.set 9 (l.sender.tstate cs).id)) = (l.sender.tstate cs).id :=
    ofBytes_set_self p _ (by omega)
  have hset := set_protocol (by omega) hp (l.sender.tstate cs).id
  unfold Carries sendUncompressed
  simp only [Alloc.ok, if_true, setHdr_id]
  refine ⟨_, ?_, h.save hcs (hk.copy (l.sender.tstate cs).hdr)
    (c := { l.receiver.rstate cs with hdr := zeroSum (copyBytes hlen (ofBytes p) (l.receiver.rstate cs).hdr), hlen := hlen })
    ?_ rfl rfl⟩
  · rw [deliver, vjuncompressTcp, receiveUncompressed]
    · dsimp only
      rw [hslot, hset, ← hk.size, hid, if_neg (by rw [h.slots]; omega), if_neg (by omega), mod_eq_of_lt (by omega)]
      rfl
    · simp
  · rw [h.saved cs hcs]
    exact zeroSum_copy ..

lemma checksum_savedHeader {S m : Memory} {hlen : Nat} (hk : Kept m hlen) (hsum : checksum m (4 * ipHl m) = 0)
    (hne : ipSum m ≠ 0xffff) : checksum (savedHeader S m hlen) (4 * ipHl m) = ipSum m := by
  obtain ⟨h0, h1, h2⟩ := hk.bounds
  have hhalf : ∀ i, i < 4 * ipHl m / 2 → i ≠ 5 → half (savedHeader S m hlen) (2 * i) = half m (2 * i) := by
    intro i hi hi5
    exact half_eq_iff.mpr ⟨savedHeader_of_lt (by omega) (by omega) (by omega),
      savedHeader_of_lt (by omega) (by omega) (by omega)⟩
  refine checksum_recomputed (j := 5) (by omega) (by omega) ?_ hhalf hsum ?_ hne
  · exact half_putHalf_self 0
  · have hfirst := le_halfSum (m := savedHeader S m hlen) (k := 4 * ipHl m / 2) (j := 0) (by omega)
    rw [hhalf 0 (by omega) (by omega), mul_zero] at hfirst
    have hpos : 0 < (half m 0).toNat := by
      have hihl := hk.ihl
      unfold ipHl at hihl
      rw [half, BitVec.toNat_append, ← shiftLeft_add_eq_or_of_lt (m (0 + 1)).isLt, shiftLeft_eq]
      omega
    omega

lemma toBytes_savedHeader {S : Memory} {hlen : Nat} (hlen' : hlen ≤ p.length) :
    toBytes (putHalf (savedHeader S (ofBytes p) hlen) 10 (ipSum (ofBytes p))) hlen ++ p.drop hlen = p := by
  have hbytes : toBytes (putHalf (savedHeader S (ofBytes p) hlen) 10 (ipSum (ofBytes p))) hlen = p.take hlen := by
    rw [← toBytes_ofBytes p hlen hlen']
    apply toBytes_congr
    intro i hi
    by_cases hsum : i = 10 ∨ i = 11
    · have hsame := half_putHalf_self (m := savedHeader S (ofBytes p) hlen) (a := 10) (ipSum (ofBytes p))
      obtain ⟨h0, h1⟩ := half_eq_iff.mp hsame
      rcases hsum with rfl | rfl
      · exact h0
      · exact h1
    · rw [putHalf_of_ne (by omega) (by omega)]
      exact savedHeader_of_lt hi (by omega) (by omega)
  rw [hbytes, take_append_drop]

lemma vjuncompressTcp_named {alloc : Alloc} {comp : Vjstruct} {changes slot : Byte} {cp : List Byte}
    (hbit : changes &&& newC ≠ 0) (hslot : slot.toNat < comp.maxslotin) :
    vjuncompressTcp alloc comp .compressedTcp (changes :: slot :: cp) =
      receiveCompressed alloc { comp with toss := false, lastRecv := slot } changes cp := by
  rw [vjuncompressTcp, if_pos hbit, if_neg (by omega)]

lemma vjuncompressTcp_implicit {alloc : Alloc} {comp : Vjstruct} {changes : Byte} {cp : List Byte}
    (hbit : ¬changes &&& newC ≠ 0) (htoss : comp.toss = false) :
    vjuncompressTcp alloc comp .compressedTcp (changes :: cp) = receiveCompressed alloc comp changes cp := by
  unfold vjuncompressTcp
  dsimp only
  rw [if_neg hbit, if_neg (by rw [htoss]; exact Bool.false_ne_true)]

section

variable (h : Mirror n l) (hcs : cs < n) {hlen : Nat} {changes : Byte} {newSeq : List Byte} (hp : WellFormed p)
  (hk : Kept (ofBytes p) hlen) (hlen' : hlen ≤ p.length) (hne : ipSum (ofBytes p) ≠ 0xffff)
  (hf : Follows (l.sender.tstate cs).hdr (ofBytes p) (4 * ipHl (ofBytes p)) hlen)
  (hsize : (l.receiver.rstate cs).hlen = hlen)
  (he : encodeChanges (ofBytes p) (l.sender.tstate cs).hdr hlen = some (changes, newSeq))
  (hurg : KeepsUrg (l.sender.tstate cs).hdr (ofBytes p) (4 * ipHl (ofBytes p)) changes)

include h hcs hp hk hlen' hne hf hsize he hurg

/-- The changes of a packet on the line, with the bit and the slot number when the slot is named. -/
theorem Mirror.receiveCompressed (c : Bool) :
    let m := ofBytes p
    let S := (l.sender.tstate cs).hdr
    let t := 4 * ipHl m
    Vj.receiveCompressed .ok { l.receiver with toss := false, lastRecv := (l.sender.tstate cs).id }
        (changes ||| sent (encodeId m S).1 newI ||| sent (thFlags m t &&& flagPush ≠ 0) tcpPushBit ||| sent c newC)
        ([(thSum m t).extractLsb' 8 8, (thSum m t).extractLsb' 0 8] ++ (newSeq ++ (encodeId m S).2) ++ p.drop hlen) =
      some (.accepted (some p), { l.receiver with
        toss := false
        lastRecv := (l.sender.tstate cs).id
        rstate := setHdr l.receiver.rstate cs (savedHeader S m hlen) }) := by
  have hdata : (ipLen (ofBytes p)).toNat = hlen + (p.drop hlen).length := by
    rw [hp.length, length_drop]
    omega
  obtain ⟨hdr, hr, hlast⟩ := hf.rebuild (c := c) he hurg hdata
  have hhl : ipHl (zeroSum (l.sender.tstate cs).hdr) = ipHl (ofBytes p) := by
    obtain ⟨ht, hl⟩ := hf.bounds
    rw [ipHl, zeroSum_of_ne (by omega) (by omega), hf.unchanged 0 (by omega) (by unfold Varies; omega)]
    rfl
  unfold Vj.receiveCompressed
  dsimp only
  rw [h.id_toNat hcs, hsize, h.saved cs hcs, hr]
  dsimp only
  rw [hlast, hhl, checksum_savedHeader hk hp.sum hne, toBytes_savedHeader hlen']
  rfl

lemma Mirror.carries_compressed : Carries n l.receiver (sendCompressed .ok l.sender cs hlen p changes newSeq) p := by
  have hrecv := h.receiveCompressed hcs hp hk hlen' hne hf hsize he hurg
  have hbit := fun i b c => (encodeChanges_bits rfl he i b c).2.2
  have hsave := h.save hcs (hk.copy (l.sender.tstate cs).hdr)
    (c := { l.receiver.rstate cs with hdr := savedHeader (l.sender.tstate cs).hdr (ofBytes p) hlen }) rfl hsize rfl
  unfold Carries sendCompressed
  simp only [Alloc.ok, if_true, setHdr_id]
  split_ifs with hnew
  · refine ⟨_, ?_, hsave⟩
    have hslot : (l.sender.tstate cs).id.toNat < l.receiver.maxslotin := by
      rw [h.id_toNat hcs, h.slots]
      exact hcs
    exact (vjuncompressTcp_named ((hbit _ _ true).mpr rfl) hslot).trans (hrecv true)
  obtain ⟨-, hsame⟩ := not_or.mp hnew
  have hxmit : l.sender.lastXmit = (l.sender.tstate cs).id := not_not.mp hsame
  obtain hnone | ⟨hlast, htoss⟩ := h.last
  · exact absurd (hxmit.symm.trans hnone) (h.id_ne hcs)
  have hreceiver : { l.receiver with toss := false, lastRecv := (l.sender.tstate cs).id } = l.receiver := by
    rw [← hxmit, ← hlast, ← htoss]
  have himplicit := hrecv false
  have hzero : ∀ x : Byte, x ||| sent false newC = x := by
    decide
  rw [← hxmit] at hsave
  refine ⟨_, ?_, hsave⟩
  dsimp only at himplicit
  rw [hreceiver, hzero] at himplicit
  rw [hxmit]
  refine Eq.trans (vjuncompressTcp_implicit ?_ htoss) himplicit
  intro hset
  have hno := (hbit (encodeId (ofBytes p) (l.sender.tstate cs).hdr).1
    (thFlags (ofBytes p) (4 * ipHl (ofBytes p)) &&& flagPush ≠ 0) false)
  rw [hzero] at hno
  exact Bool.false_ne_true (hno.mp hset)

end

lemma Mirror.carries_ip (h : Mirror n l) (p : List Byte) : Carries n l.receiver (.ip, p, l.sender) p :=
  ⟨l.receiver, rfl, h⟩

lemma sendCompressed_type (comp : Vjstruct) (cs hlen : Nat) (p : List Byte) (changes : Byte) (newSeq : List Byte) :
    (sendCompressed .ok comp cs hlen p changes newSeq).1 = .compressedTcp := by
  unfold sendCompressed
  simp only [Alloc.ok, if_true]
  split_ifs <;> rfl

lemma Mirror.carries (h : Mirror n l) (hp : WellFormed p) (hclean : ¬Distorts l.sender p) :
    ∃ out, vjcompressTcp .ok l.sender p = some out ∧ Carries n l.receiver out p := by
  unfold vjcompressTcp
  dsimp only
  split
  · exact ⟨_, rfl, h.carries_ip p⟩
  · next hfrag =>
    obtain ⟨hoff, hmin⟩ := not_or.mp hfrag
    split
    · exact ⟨_, rfl, h.carries_ip p⟩
    · next hproto =>
      have htcp := hp.tcp (not_not.mp hoff) (not_not.mp hproto)
      rw [if_neg (not_lt.mpr htcp.complete)]
      split
      · exact ⟨_, rfl, h.carries_ip p⟩
      · next hflags =>
        obtain ⟨hit, cs, sender, hloc, hcs, hmirror, hsame, -⟩ := h.locate (ofBytes p)
        have hk := htcp.kept rfl hp.ihl (not_not.mp hflags)
        have hproto' := not_not.mp hproto
        rw [hloc]
        dsimp only
        split
        · exact ⟨_, rfl, hmirror.carries_ip p⟩
        · next hlen =>
          split
          · exact ⟨_, rfl, hmirror.carries_uncompressed hcs hk hproto' (by omega)⟩
          · next helse =>
            obtain ⟨hhit, hno⟩ := not_or.mp helse
            have hhit' : hit = true := Bool.eq_true_of_not_eq_false hhit
            subst hhit'
            split
            · exact ⟨_, rfl, hmirror.carries_uncompressed hcs hk hproto' (by omega)⟩
            · next changes newSeq he =>
              obtain ⟨hf, hsize⟩ := hk.follows (hmirror.kept cs hcs) (hsame rfl) hno
              have hout : (vjcompressTcp .ok l.sender p).map Prod.fst = some .compressedTcp := by
                unfold vjcompressTcp
                dsimp only
                rw [if_neg hfrag, if_neg hproto, if_neg (not_lt.mpr htcp.complete), if_neg hflags, hloc]
                dsimp only
                rw [if_neg hlen, if_neg helse, he]
                exact congrArg some (sendCompressed_type ..)
              obtain ⟨hne, hstale⟩ := not_or.mp fun hor => hclean ⟨hout, hor⟩
              exact ⟨_, rfl, hmirror.carries_compressed hcs hp hk (by omega) hne hf hsize he
                (hf.keepsUrg hno he fun hurg => hstale (by rw [hloc]; exact decide_eq_true hurg))⟩

lemma Mirror.transfer (h : Mirror n l) (hp : WellFormed p) (hclean : ¬Distorts l.sender p) :
    ∃ l', Vj.transfer l p = some (.accepted (some p), l') ∧ Mirror n l' := by
  obtain ⟨⟨type, msg, sender⟩, hout, receiver, hrecv, hmirror⟩ := h.carries hp hclean
  refine ⟨⟨sender, receiver⟩, ?_, hmirror⟩
  unfold Vj.transfer
  rw [hout]
  dsimp only at hrecv ⊢
  rw [hrecv]

end Transparency

/-!
## Runs of a line

Any sequence of packets crosses a line that was set up with the same parameters at both ends.
-/

section Runs

open Lib List Nat Function

variable {n cslot : Nat} {l : Line}

lemma reverse_range_succ (k : Nat) : (List.range (k + 1)).reverse = k :: (List.range k).reverse := by
  rw [range_succ, reverse_append]
  rfl

lemma isChain_reverse_range (n k : Nat) :
    ((List.range (k + 1)).reverse).IsChain fun a b => (if a = 0 then n else a - 1) = b := by
  induction k with
  | zero => exact isChain_singleton 0
  | succ k ih =>
    rw [reverse_range_succ] at ih ⊢
    rw [reverse_range_succ, isChain_cons_cons]
    refine ⟨?_, ih⟩
    rw [if_neg (by omega)]
    omega

lemma links_start (n cslot : Nat) :
    links (Line.start (n + 1) cslot).sender.tstate = fun i => if i = 0 then n else i - 1 := by
  funext i
  by_cases hi : i = 0
  · subst hi
    rfl
  · simp only [links, Line.start, vjsetoutparms, setNext, update_of_ne hi, vjcompressInit, if_neg hi]

lemma mirror_start (hn : 1 ≤ n) (hmax : n ≤ maxStates) (cslot : Nat) : Mirror n (Line.start n cslot) := by
  obtain ⟨n, rfl⟩ : ∃ k, n = k + 1 := ⟨n - 1, by omega⟩
  have hdr : ∀ i, ((Line.start (n + 1) cslot).sender.tstate i).hdr = (fun _ => 0) := by
    intro i
    by_cases hi : i = 0
    · subst hi
      rfl
    · simp only [Line.start, vjsetoutparms, setNext, update_of_ne hi, vjcompressInit]
  refine ⟨hmax, ⟨(range (n + 1)).reverse, ⟨?_, ?_, ?_⟩, reverse_perm _⟩, rfl, ?_, ?_, ?_, .inl rfl⟩
  · exact nodup_reverse.mpr nodup_range
  · rw [getLast?_reverse, range_succ_eq_map]
    rfl
  · rw [links_start]
    have hchain := isChain_reverse_range n n
    rw [reverse_range_succ] at hchain ⊢
    exact isChain_cons_cons.mpr ⟨rfl, hchain⟩
  · intro i hi
    by_cases hi0 : i = 0
    · subst hi0
      rfl
    · simp only [Line.start, vjsetoutparms, setNext, update_of_ne hi0, vjcompressInit]
  · intro i hi
    rw [hdr i]
    funext j
    by_cases hj : j = 10 ∨ j = 11
    · rw [zeroSum_sum hj]
      rfl
    · rw [zeroSum_of_ne (by omega) (by omega)]
      rfl
  · intro i hi
    exact .inl (by rw [hdr i])

def cleanRun : Line → List (List Byte) → Bool
  | _, [] => true
  | l, p :: ps =>
    decide (¬Distorts l.sender p) &&
      match transfer l p with
      | none => true
      | some (_, l) => cleanRun l ps

lemma Mirror.run (h : Mirror n l) {ps : List (List Byte)} (hps : ∀ p ∈ ps, WellFormed p)
    (hclean : cleanRun l ps = true) :
    ∃ l', Vj.run l ps = some (ps.map fun p => .accepted (some p), l') ∧ Mirror n l' := by
  induction ps generalizing l with
  | nil => exact ⟨l, rfl, h⟩
  | cons p ps ih =>
    unfold cleanRun at hclean
    rw [Bool.and_eq_true, decide_eq_true_iff] at hclean
    obtain ⟨hclean, hrest⟩ := hclean
    obtain ⟨l1, ht, h1⟩ := h.transfer (hps p (mem_cons_self ..)) hclean
    rw [ht] at hrest
    obtain ⟨l2, hr, h2⟩ := ih h1 (fun q hq => hps q (mem_cons_of_mem _ hq)) hrest
    refine ⟨l2, ?_, h2⟩
    unfold Vj.run
    rw [ht]
    dsimp only
    rw [hr]
    rfl

/-- Every packet comes out as it went in, and each slot of the receiver then holds the sender's header, with the
checksum field zero. -/
theorem line_transparent (maxslot cslot : Nat) (ps : List (List Byte)) (hmin : 1 ≤ maxslot)
    (hmax : maxslot ≤ maxStates) (hps : ∀ p ∈ ps, WellFormed p)
    (hclean : cleanRun (Line.start maxslot cslot) ps = true) :
    ∃ l, run (Line.start maxslot cslot) ps = some (ps.map fun p => .accepted (some p), l) ∧
      ∀ i, i < maxslot → (l.receiver.rstate i).hdr = zeroSum (l.sender.tstate i).hdr := by
  obtain ⟨l, hrun, hmirror⟩ := (mirror_start hmin hmax cslot).run hps hclean
  exact ⟨l, hrun, hmirror.saved⟩

def samplePacket (id sum : BitVec 16) (seq flags urp : Byte) (data : List Byte) : List Byte :=
  [69, 0, 0, BitVec.ofNat 8 (40 + data.length), id.extractLsb' 8 8, id.extractLsb' 0 8, 0, 0, 64, 6,
    sum.extractLsb' 8 8, sum.extractLsb' 0 8, 10, 0, 0, 1, 10, 0, 0, 2, 3, 255, 2, 1, 0, 0, 0, seq, 0, 0, 0, 200,
    80, flags, 2, 0, 18, 52, 0, urp] ++ data

theorem line_transparent_sample :
    ∃ l, run (Line.start maxStates 1) [samplePacket 1 0x66ca 100 0x18 0 [1, 2, 3], samplePacket 2 0x66ca 103 0x18 0 [4, 5]] =
      some ([samplePacket 1 0x66ca 100 0x18 0 [1, 2, 3], samplePacket 2 0x66ca 103 0x18 0 [4, 5]].map
        fun p => .accepted (some p), l) ∧
      ∀ i, i < maxStates → (l.receiver.rstate i).hdr = zeroSum (l.sender.tstate i).hdr :=
  line_transparent maxStates 1 _ (by decide) (by decide) (by decide +kernel) (by decide +kernel)

/-- The saved headers differ in the checksum field; a packet that clears the urgent bit comes out with the bit set; and
a checksum of 0xffff comes out as zero. -/
theorem line_changes_packets :
    (∃ l, run (Line.start maxStates 1) [samplePacket 1 0x66ca 100 0x18 0 [1, 2, 3]] =
      some ([.accepted (some (samplePacket 1 0x66ca 100 0x18 0 [1, 2, 3]))], l) ∧
      (l.receiver.rstate 0).hdr 10 ≠ (l.sender.tstate 0).hdr 10) ∧
    ((∀ p ∈ [samplePacket 1 0x66ca 100 0x38 3 [1, 2, 3], samplePacket 2 0x66ca 103 0x18 3 [4, 5]], WellFormed p) ∧
      (run (Line.start maxStates 1)
        [samplePacket 1 0x66ca 100 0x38 3 [1, 2, 3], samplePacket 2 0x66ca 103 0x18 3 [4, 5]]).map Prod.fst =
        some [.accepted (some (samplePacket 1 0x66ca 100 0x38 3 [1, 2, 3])),
          .accepted (some (samplePacket 2 0x66ca 103 0x38 3 [4, 5]))]) ∧
    ((∀ p ∈ [samplePacket 1 0x66ca 100 0x18 0 [1, 2, 3], samplePacket 0x66cc 0xffff 103 0x18 0 [4, 5]], WellFormed p) ∧
      (run (Line.start maxStates 1)
        [samplePacket 1 0x66ca 100 0x18 0 [1, 2, 3], samplePacket 0x66cc 0xffff 103 0x18 0 [4, 5]]).map Prod.fst =
        some [.accepted (some (samplePacket 1 0x66ca 100 0x18 0 [1, 2, 3])),
          .accepted (some (samplePacket 0x66cc 0 103 0x18 0 [4, 5]))]) := by
  refine ⟨⟨_, rfl, ?_⟩, ⟨?_, ?_⟩, ?_, ?_⟩
  · decide +kernel
  · decide +kernel
  · decide +kernel
  · decide +kernel
  · decide +kernel

end Runs

end Solaris.Vj
