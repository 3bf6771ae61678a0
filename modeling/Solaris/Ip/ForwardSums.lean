import Solaris.Ip.Forward
import Solaris.Ip.OptionBounds

/-!
# The checksum of a forwarded header

The adjustment keeps the sum of the header, except where `ipha_ttl` wraps around from zero. What goes out verifies
when what came in did, and nothing that did not verify is cut up or answered, except there.
-/

namespace Solaris.Ip

open Lib (Byte Memory half word putByte putHalf copyBytes bcopy halfSum foldSum ByteOrder hostHalf putHostHalf
  putByte_of_ne putByte_self putHalf_of_ne putHostHalf_of_ne hostHalf_putHostHalf_self hostHalf_congr)

section Sums

variable {o : ByteOrder} {m p : Memory} {i : Nat}

def headerSum (o : ByteOrder) (m : Memory) : Nat := halfSum (o.view m) (summedHalves m)

lemma headerSum_le : headerSum o m ≤ 65535 * 30 := by
  have := Lib.halfSum_le (o.view m) (summedHalves m)
  have hk : summedHalves m ≤ 30 := by
    have : hdrWords m < 16 := Nat.mod_lt _ (by omega)
    simp only [summedHalves]
    omega
  exact this.trans (Nat.mul_le_mul_left _ hk)

lemma carry_once {y : Nat} (hy : y < 131071) : (y + y / 2 ^ 16) % 2 ^ 16 = y ∨
    65536 ≤ y ∧ (y + y / 2 ^ 16) % 2 ^ 16 + 65535 = y := by
  by_cases hlt : y < 65536
  · left
    have hzero : y / 2 ^ 16 = 0 := Nat.div_eq_of_lt hlt
    rw [hzero, Nat.add_zero]
    exact Nat.mod_eq_of_lt hlt
  · right
    omega

lemma mod_of_carry {x y : Nat} (h : x = y ∨ x + 65535 = y) : x % 65535 = y % 65535 := by
  rcases h with rfl | rfl
  · rfl
  · rw [Nat.add_mod_right]

lemma fold_twice {x : Nat} (hx : x ≤ 65535 * 30) :
    (foldSum x + foldSum x / 2 ^ 16) % 2 ^ 16 % 65535 = x % 65535 ∧
      ((foldSum x + foldSum x / 2 ^ 16) % 2 ^ 16 = 0 → x = 0) := by
  have hfold : foldSum x = x % 65536 + x / 65536 := rfl
  have hsum : x = foldSum x + 65535 * (x / 65536) := by omega
  have hcarry := carry_once (y := foldSum x) (by omega)
  constructor
  · calc (foldSum x + foldSum x / 2 ^ 16) % 2 ^ 16 % 65535 = foldSum x % 65535 :=
          mod_of_carry (hcarry.imp id And.right)
      _ = (foldSum x + 65535 * (x / 65536)) % 65535 := (Nat.add_mul_mod_self_left ..).symm
      _ = x % 65535 := by rw [← hsum]
  · intro hzero
    omega

lemma ipCsumHdr_mod : (ipCsumHdr o m).toNat < 65535 ∧ ((ipCsumHdr o m).toNat + headerSum o m) % 65535 = 0 := by
  have hle := headerSum_le (o := o) (m := m)
  obtain ⟨hmod, hzero⟩ := fold_twice (hle.trans (by decide))
  have hlt : (foldSum (headerSum o m) + foldSum (headerSum o m) / 2 ^ 16) % 2 ^ 16 < 65536 := Nat.mod_lt _ (by decide)
  have hval : (~~~BitVec.ofNat 16 (foldSum (headerSum o m) + foldSum (headerSum o m) / 2 ^ 16)).toNat =
      65535 - (foldSum (headerSum o m) + foldSum (headerSum o m) / 2 ^ 16) % 2 ^ 16 := by
    rw [BitVec.toNat_not, BitVec.toNat_ofNat]
  have hunfold : ipCsumHdr o m =
      if ~~~BitVec.ofNat 16 (foldSum (headerSum o m) + foldSum (headerSum o m) / 2 ^ 16) = 0xffff then 0
      else ~~~BitVec.ofNat 16 (foldSum (headerSum o m) + foldSum (headerSum o m) / 2 ^ 16) := rfl
  generalize (foldSum (headerSum o m) + foldSum (headerSum o m) / 2 ^ 16) % 2 ^ 16 = y at *
  rw [hunfold]
  split
  · rename_i hall
    have hy : 65535 = 65535 - y := by
      rw [hall] at hval
      exact hval
    have hsum := hzero (by omega)
    rw [hsum]
    decide
  · rename_i hne
    have hy : 65535 - y ≠ 65535 := fun h => hne (BitVec.eq_of_toNat_eq (by rw [hval, h]; rfl))
    omega

lemma ipCsumHdr_eq_zero : ipCsumHdr o m = 0 ↔ headerSum o m % 65535 = 0 := by
  obtain ⟨hlt, hmod⟩ := ipCsumHdr_mod
  constructor
  · intro h
    rw [h] at hmod
    simpa using hmod
  · intro h
    apply BitVec.eq_of_toNat_eq
    simp only [BitVec.ofNat_eq_ofNat, BitVec.toNat_ofNat]
    omega

lemma headerSum_replace {j : Nat} (hj : 0 < j) (hj10 : j < 10)
    (h : ∀ i, i ≠ 2 * j → i ≠ 2 * j + 1 → p i = m i) :
    headerSum o m + (hostHalf o p (2 * j)).toNat = headerSum o p + (hostHalf o m (2 * j)).toNat := by
  have hk : summedHalves p = summedHalves m := by
    rw [summedHalves, summedHalves, hdrWords, hdrWords, h 0 (by omega) (by omega)]
  have hreplace := Lib.halfSum_replace (m := o.view m) (p := o.view p) (k := summedHalves m) (j := j)
    (by simp only [summedHalves]; omega) fun i _ hij => by
      rw [Lib.half_view, Lib.half_view]
      exact hostHalf_congr (h _ (by omega) (by omega)) (h _ (by omega) (by omega))
  rw [Lib.half_view, Lib.half_view] at hreplace
  rw [headerSum, headerSum, hk]
  exact hreplace

lemma headerSum_field {v : BitVec 16} :
    headerSum o m + v.toNat =
      headerSum o (putHostHalf o m iphaHdrChecksum v) + (hostHalf o m iphaHdrChecksum).toNat := by
  have h := headerSum_replace (o := o) (m := m) (p := putHostHalf o m iphaHdrChecksum v) (j := 5) (by omega) (by omega)
    fun i h0 h1 => putHostHalf_of_ne h0 h1
  have hself : hostHalf o (putHostHalf o m iphaHdrChecksum v) (2 * 5) = v := hostHalf_putHostHalf_self
  rw [hself] at h
  exact h

lemma storeCsum_verifies (hzero : hostHalf o m iphaHdrChecksum = 0) : ipCsumHdr o (storeCsum o m) = 0 := by
  obtain ⟨-, hmod⟩ := ipCsumHdr_mod (o := o) (m := m)
  have hsum := headerSum_field (o := o) (m := m) (v := ipCsumHdr o m)
  rw [hzero] at hsum
  rw [ipCsumHdr_eq_zero, storeCsum]
  simp only [BitVec.ofNat_eq_ofNat, BitVec.toNat_ofNat] at hsum
  omega

lemma verifies_iff_recomputed : ipCsumHdr o m = 0 ↔
    (hostHalf o m iphaHdrChecksum).toNat % 65535 = (ipCsumHdr o (clearCsum o m)).toNat % 65535 := by
  obtain ⟨-, hmod⟩ := ipCsumHdr_mod (o := o) (m := clearCsum o m)
  have hsum : headerSum o m = headerSum o (clearCsum o m) + (hostHalf o m iphaHdrChecksum).toNat :=
    headerSum_field (o := o) (m := m) (v := 0)
  rw [ipCsumHdr_eq_zero, hsum, Nat.add_comm]
  constructor
  · intro h
    exact Nat.ModEq.add_right_cancel' _ (h.trans hmod.symm)
  · intro h
    have hadd : ((hostHalf o m iphaHdrChecksum).toNat + headerSum o (clearCsum o m)) % 65535 =
        ((ipCsumHdr o (clearCsum o m)).toNat + headerSum o (clearCsum o m)) % 65535 := Nat.ModEq.add_right _ h
    exact hadd.trans hmod

lemma decrementTtl_of_ne (h₈ : i ≠ 8) (h10 : i ≠ 10) (h11 : i ≠ 11) : decrementTtl o m i = m i := by
  exact (putByte_of_ne h₈).trans (putHostHalf_of_ne h10 h11)

lemma decrementTtl_ttl : decrementTtl o m 8 = m 8 - 1 := putByte_self _

lemma decrementTtl_csum : hostHalf o (decrementTtl o m) iphaHdrChecksum = adjustedCsum o m := by
  exact hostHalf_putHostHalf_self

theorem headerSum_decrementTtl : headerSum o (decrementTtl o m) % 65535 =
    (headerSum o m + if (m iphaTtl).toNat = 0 then 256 * o.weight else 0) % 65535 := by
  have hfield := headerSum_field (o := o) (m := m) (v := adjustedCsum o m)
  have httl := headerSum_replace (o := o) (m := putHostHalf o m iphaHdrChecksum (adjustedCsum o m))
    (p := decrementTtl o m) (j := 4) (by omega) (by omega) fun i h0 _ => putByte_of_ne h0
  have hnew := Lib.hostHalf_toNat (o := o) (m := decrementTtl o m) (a := 2 * 4)
  have hold :=
    Lib.hostHalf_toNat (o := o) (m := putHostHalf o m iphaHdrChecksum (adjustedCsum o m)) (a := 2 * 4)
  have h8 : putHostHalf o m iphaHdrChecksum (adjustedCsum o m) (2 * 4) = m iphaTtl :=
    putHostHalf_of_ne (by decide) (by decide)
  have h9 : putHostHalf o m iphaHdrChecksum (adjustedCsum o m) (2 * 4 + 1) = m 9 :=
    putHostHalf_of_ne (by decide) (by decide)
  have h8' : decrementTtl o m (2 * 4) = m iphaTtl - 1 := decrementTtl_ttl
  have h9' : decrementTtl o m (2 * 4 + 1) = m 9 := decrementTtl_of_ne (by decide) (by decide) (by decide)
  rw [h8, h9] at hold
  rw [h8', h9'] at hnew
  have htoNat : (m iphaTtl - 1).toNat = ((m iphaTtl).toNat + 255) % 256 := by
    rw [BitVec.toNat_sub]
    simp only [BitVec.ofNat_eq_ofNat, BitVec.toNat_ofNat]
    omega
  rw [htoNat] at hnew
  have hw : o.weight = 256 ∨ o.weight = 1 := by
    cases o
    · exact .inl rfl
    · exact .inr rfl
  -- one carry at most comes out of the field
  have hcarry : (adjustedCsum o m).toNat = (hostHalf o m iphaHdrChecksum).toNat + o.weight ∨
      (adjustedCsum o m).toNat + 65535 = (hostHalf o m iphaHdrChecksum).toNat + o.weight := by
    exact (carry_once (by omega)).imp id And.right
  apply mod_of_carry
  split_ifs with hzero
  · have hwrap : ((m iphaTtl).toNat + 255) % 256 = 255 := by omega
    rw [hwrap] at hnew
    rw [hzero] at hold
    omega
  have hdown : ((m iphaTtl).toNat + 255) % 256 = (m iphaTtl).toNat - 1 := by omega
  have hmul : ((m iphaTtl).toNat - 1) * o.weight + o.weight = (m iphaTtl).toNat * o.weight := by
    rw [← Nat.succ_mul]
    congr 1
    omega
  rw [hdown] at hnew
  omega

end Sums

section Fragments

variable {e : Outgoing} {mem rptr hdr : Memory} {fuel i : Nat}

lemma clearCsum_field (mem : Memory) : hostHalf e.order (clearCsum e.order mem) iphaHdrChecksum = 0 := hostHalf_putHostHalf_self

lemma fragHeader_verifies {flags length : BitVec 16} (hzero : hostHalf e.order mem iphaHdrChecksum = 0) :
    ipCsumHdr e.order (fragHeader e mem flags length) = 0 := by
  apply storeCsum_verifies
  rw [← hzero]
  refine hostHalf_congr ?_ ?_
  · rw [putHalf_of_ne (by decide) (by decide), putHalf_of_ne (by decide) (by decide)]
  · rw [putHalf_of_ne (by decide) (by decide), putHalf_of_ne (by decide) (by decide)]

lemma copyOptions_front {src mem' : Memory} {pos up up' hdrLen : Nat} (hup : 20 ≤ up)
    (h : copyOptions src fuel mem pos up hdrLen = some (mem', up')) (hi : i < 20) : mem' i = mem i ∧ 20 ≤ up' := by
  induction fuel generalizing mem pos up hdrLen with
  | zero => exact absurd h (by simp [copyOptions])
  | succ fuel ih =>
    rw [copyOptions] at h
    split at h
    · simp only [Option.some.injEq, Prod.mk.injEq] at h
      rw [← h.1, ← h.2]
      exact ⟨rfl, hup⟩
    · split at h
      · obtain ⟨hsame, hle⟩ := ih (by omega) h
        rw [hsame, bcopy, if_neg (by omega)]
        exact ⟨rfl, hle⟩
      · exact ih hup h

lemma copyhdr_front {hdrLen offset : Nat} (hlen : 20 ≤ hdrLen)
    (h : ipWputFragCopyhdr e fuel rptr hdrLen offset = some hdr) (hi : 0 < i) (hi20 : i < 20) : hdr i = rptr i := by
  rw [ipWputFragCopyhdr] at h
  split at h
  · rw [← Option.some.inj h, copyBytes, if_pos (by omega)]
  · obtain ⟨⟨mem', up⟩, hcopy, hpad⟩ := Option.map_eq_some_iff.mp h
    obtain ⟨hsame, hup⟩ := copyOptions_front le_rfl hcopy hi20
    subst hpad
    simp only
    rw [putByte_of_ne (by omega), zeroBytes, if_neg (by omega), hsame, copyBytes, if_pos hi20]

lemma laterFrags_verify {hdrLen k : Nat} {dataEnd len offset : Int}
    (hzero : hostHalf e.order hdr iphaHdrChecksum = 0) :
    ∀ h ∈ laterFrags e hdr hdrLen dataEnd len fuel k offset, ipCsumHdr e.order h = 0 := by
  induction fuel generalizing k offset with
  | zero => exact fun h hmem => absurd hmem (by simp [laterFrags])
  | succ fuel ih =>
    intro h hmem
    rw [laterFrags] at hmem
    split at hmem
    · split at hmem
      · exact absurd hmem (by simp)
      · rcases List.mem_cons.mp hmem with rfl | hrest
        · exact fragHeader_verifies hzero
        · exact ih h hrest
    · split at hmem
      · exact absurd hmem (by simp)
      · rw [List.mem_singleton.mp hmem]
        exact fragHeader_verifies hzero

def Passage.headers : Passage → List Memory
  | .forwarded mem => [mem]
  | .fragmented hdrs => hdrs
  | _ => []

def Passage.Checked : Passage → Prop
  | .answered _ => True
  | .fragmented _ => True
  | _ => False

lemma answer_headers : (answer e mem).headers = [] := by
  rw [answer]
  split <;> rfl

lemma ipWputFrag_verify {out : Passage} (hlen : 20 ≤ 4 * hdrWords mem) (h : ipWputFrag e fuel mem = some out) :
    ∀ f ∈ out.headers, ipCsumHdr e.order f = 0 := by
  intro f hf
  rw [ipWputFrag] at h
  dsimp only at h
  split at h
  · rw [← Option.some.inj h, answer_headers] at hf
    exact absurd hf (by simp)
  split at h
  · rw [← Option.some.inj h] at hf
    exact absurd hf (by simp [Passage.headers])
  split at h
  · rw [← Option.some.inj h] at hf
    exact absurd hf (by simp [Passage.headers])
  obtain ⟨hdr, hcopy, hout⟩ := Option.map_eq_some_iff.mp h
  have hzero : hostHalf e.order hdr iphaHdrChecksum = 0 := by
    rw [← clearCsum_field mem]
    exact hostHalf_congr (copyhdr_front hlen hcopy (by decide) (by decide))
      (copyhdr_front hlen hcopy (by decide) (by decide))
  rw [← hout] at hf
  split at hf
  · exact absurd hf (by simp [Passage.headers])
  · rcases List.mem_cons.mp hf with rfl | hrest
    · exact fragHeader_verifies (clearCsum_field mem)
    · exact laterFrags_verify hzero f hrest

end Fragments

section Passing

variable {e : Outgoing} {hdr mem : Memory} {fuel pktLen : Nat} {out : Passage}

/-- What goes out verifies exactly when what came in did, and only what did is answered or cut up. -/
structure Faithful (o : ByteOrder) (hdr : Memory) (out : Passage) : Prop where
  emitted : ∀ h ∈ out.headers, (ipCsumHdr o h = 0 ↔ ipCsumHdr o hdr = 0)
  checked : out.Checked → ipCsumHdr o hdr = 0

lemma faithful_dropped {o : ByteOrder} : Faithful o hdr .dropped :=
  ⟨fun _ h => absurd h (by simp [Passage.headers]), False.elim⟩

lemma faithful_of_verified {o : ByteOrder} (hdr_ok : ipCsumHdr o hdr = 0)
    (h : ∀ f ∈ out.headers, ipCsumHdr o f = 0) : Faithful o hdr out :=
  ⟨fun f hf => iff_of_true (h f hf) hdr_ok, fun _ => hdr_ok⟩

lemma faithful_answer {o : ByteOrder} (hdr_ok : ipCsumHdr o hdr = 0) : Faithful o hdr (answer e mem) :=
  faithful_of_verified hdr_ok fun f hf => by
    rw [answer_headers] at hf
    exact absurd hf (by simp)

lemma forwardOut_faithful (hlen : 20 ≤ 4 * hdrWords mem)
    (hsame : ipCsumHdr e.order mem = 0 ↔ ipCsumHdr e.order hdr = 0) (h : forwardOut e fuel pktLen mem = some out) :
    Faithful e.order hdr out := by
  rw [forwardOut] at h
  split at h
  · split at h
    · rw [← Option.some.inj h]
      exact faithful_dropped
    · rename_i hok
      exact faithful_of_verified (hsame.mp (not_not.mp hok)) (ipWputFrag_verify hlen h)
  split at h
  · rw [← Option.some.inj h]
    refine ⟨fun f hf => ?_, False.elim⟩
    rw [List.mem_singleton.mp hf]
    exact hsame
  · rw [← Option.some.inj h]
    exact faithful_dropped

lemma hdrWords_congr {p : Memory} (h : p 0 = mem 0) : hdrWords p = hdrWords mem := by
  rw [hdrWords, hdrWords, h]

lemma IpHeader.words (h : IpHeader hdr) : 20 ≤ 4 * hdrWords hdr := by
  obtain ⟨hlo, hhi⟩ := h
  rw [hdrWords]
  omega

lemma forwardOptions_first {r : Lookups} {rc : Int} {mem' : Memory} (hhdr : IpHeader mem)
    (h : ipRputForwardOptions r mem = some (rc, mem')) : mem' 0 = mem 0 := by
  have hle := optionsLength_le hhdr
  exact walkWriter_low (forward_follows) (by omega) (by omega) h 0 (by omega) (by simp [IsDst, iphaDst])

theorem ipRputForward_faithful (hhdr : IpHeader hdr) (httl : (hdr iphaTtl).toNat ≠ 0)
    (h : ipRputForward e fuel hdr = some out) : Faithful e.order hdr out := by
  have hsame : ipCsumHdr e.order (decrementTtl e.order hdr) = 0 ↔ ipCsumHdr e.order hdr = 0 := by
    rw [ipCsumHdr_eq_zero, ipCsumHdr_eq_zero, headerSum_decrementTtl, if_neg httl, Nat.add_zero]
  have hfirst : decrementTtl e.order hdr 0 = hdr 0 := decrementTtl_of_ne (by decide) (by decide) (by decide)
  have hlen : 20 ≤ 4 * hdrWords (decrementTtl e.order hdr) := by
    rw [hdrWords_congr hfirst]
    exact hhdr.words
  rw [ipRputForward] at h
  split at h
  · split at h
    · rw [← Option.some.inj h]
      exact faithful_dropped
    · rename_i hok
      rw [← Option.some.inj h]
      split
      · exact faithful_answer (hsame.mp (not_not.mp hok))
      · exact faithful_dropped
  split at h
  · exact forwardOut_faithful hlen hsame h
  split at h
  · rw [← Option.some.inj h]
    exact faithful_dropped
  rename_i hok
  have hdr_ok := hsame.mp (not_not.mp hok)
  split at h
  · exact absurd h (by simp)
  rename_i rc mem' hopts
  have hfirst' : mem' 0 = decrementTtl e.order hdr 0 := by
    refine forwardOptions_first ?_ hopts
    rw [IpHeader, hfirst]
    exact hhdr
  split at h
  · rw [← Option.some.inj h]
    split
    · exact faithful_answer hdr_ok
    · exact faithful_dropped
  have hstored : storeCsum e.order (clearCsum e.order mem') 0 = mem' 0 :=
    (putHostHalf_of_ne (by decide) (by decide)).trans (putHostHalf_of_ne (by decide) (by decide))
  have hlen' : 20 ≤ 4 * hdrWords (storeCsum e.order (clearCsum e.order mem')) := by
    rw [hdrWords_congr (hstored.trans hfirst')]
    exact hlen
  exact forwardOut_faithful hlen' (iff_of_true (storeCsum_verifies (clearCsum_field mem')) hdr_ok) h

end Passing

section Wrap

variable {e : Outgoing} {hdr mem : Memory} {fuel : Nat}

lemma word_of_bytes {p : Memory} {a : Nat} (h : ∀ i, a ≤ i → i < a + 4 → p i = mem i) : word p a = word mem a := by
  rw [Lib.word_eq_iff, Lib.half_eq_iff, Lib.half_eq_iff]
  exact ⟨⟨h _ (by omega) (by omega), h _ (by omega) (by omega)⟩, h _ (by omega) (by omega), h _ (by omega) (by omega)⟩

theorem mayAnswer_decrementTtl (hhdr : IpHeader hdr) : mayAnswer e (decrementTtl e.order hdr) = mayAnswer e hdr := by
  have hsame : ∀ i, i ≠ 8 → i ≠ 10 → i ≠ 11 → decrementTtl e.order hdr i = hdr i := fun i h₈ h10 h11 =>
    decrementTtl_of_ne h₈ h10 h11
  have hwords : hdrWords (decrementTtl e.order hdr) = hdrWords hdr :=
    hdrWords_congr (hsame 0 (by decide) (by decide) (by decide))
  have hlen := hhdr.words
  have hdst : word (decrementTtl e.order hdr) 16 = word hdr 16 :=
    word_of_bytes fun i _ _ => hsame i (by omega) (by omega) (by omega)
  have hsrc : word (decrementTtl e.order hdr) 12 = word hdr 12 :=
    word_of_bytes fun i _ _ => hsame i (by omega) (by omega) (by omega)
  have hoff : half (decrementTtl e.order hdr) 6 = half hdr 6 :=
    Lib.half_eq_iff.mpr
      ⟨hsame _ (by decide) (by decide) (by decide), hsame _ (by decide) (by decide) (by decide)⟩
  have hicmp : isIcmpError (decrementTtl e.order hdr) = isIcmpError hdr := by
    rw [isIcmpError, isIcmpError, hwords, hsame _ (by omega) (by omega) (by omega)]
  rw [mayAnswer, mayAnswer, hdst, hsrc, hoff, hicmp, hsame 9 (by decide) (by decide) (by decide)]

/-- `ipha_ttl` is zero, and the sum of the header becomes that of a good one by the wrap; an ICMP error may be sent. -/
def WrapsToValid (e : Outgoing) (hdr : Memory) : Prop :=
  (hdr iphaTtl).toNat = 0 ∧ (headerSum e.order hdr + 256 * e.order.weight) % 65535 = 0 ∧ e.stq ∧ ¬e.limited ∧
    mayAnswer e hdr

/-- The incremental adjustment is a full recomputation, up to the two zeros, of a header that verified. -/
theorem adjustedCsum_recomputed (httl : 1 < (hdr iphaTtl).toNat) :
    (adjustedCsum e.order hdr).toNat % 65535 =
        (ipCsumHdr e.order (clearCsum e.order (decrementTtl e.order hdr))).toNat % 65535 ↔
      ipCsumHdr e.order hdr = 0 := by
  rw [← decrementTtl_csum, ← verifies_iff_recomputed, ipCsumHdr_eq_zero, ipCsumHdr_eq_zero, headerSum_decrementTtl,
    if_neg (by omega), Nat.add_zero]

lemma ipRputForward_wrapped (fuel : Nat) (hhdr : IpHeader hdr) (h : WrapsToValid e hdr) :
    ipRputForward e fuel hdr = some (.answered (decrementTtl e.order hdr)) ∧ ipCsumHdr e.order hdr ≠ 0 := by
  obtain ⟨httl, hsum, hstq, hlimited, hmay⟩ := h
  have hok : ipCsumHdr e.order (decrementTtl e.order hdr) = 0 := by
    rw [ipCsumHdr_eq_zero, headerSum_decrementTtl, if_pos httl]
    exact hsum
  constructor
  · have herr : icmpPktErrOk e (decrementTtl e.order hdr) = true := by
      rw [icmpPktErrOk, mayAnswer_decrementTtl hhdr]
      simp [hlimited, hok, hmay]
    rw [ipRputForward, if_pos (by omega), if_neg (not_not.mpr hok), if_pos hstq, answer, if_pos herr]
  · rw [Ne, ipCsumHdr_eq_zero]
    intro hzero
    cases ho : e.order <;> rw [ho] at hsum hzero <;> simp only [ByteOrder.weight] at hsum <;> omega

/-- What goes out verifies exactly when what came in did, nothing else is answered or cut up, and the adjustment is
right, unless the wrap of `ipha_ttl` makes the header good. -/
theorem forwarded_sums (hhdr : IpHeader hdr) :
    ((∀ out, ipRputForward e fuel hdr = some out → Faithful e.order hdr out) ∧
      (1 < (hdr iphaTtl).toNat →
        ((adjustedCsum e.order hdr).toNat % 65535 =
            (ipCsumHdr e.order (clearCsum e.order (decrementTtl e.order hdr))).toNat % 65535 ↔
          ipCsumHdr e.order hdr = 0))) ↔
      ¬WrapsToValid e hdr := by
  constructor
  · rintro ⟨hall, -⟩ hwraps
    obtain ⟨hrun, hbad⟩ := ipRputForward_wrapped fuel hhdr hwraps
    exact hbad ((hall _ hrun).checked trivial)
  · intro hno
    refine ⟨fun out h => ?_, adjustedCsum_recomputed⟩
    by_cases httl : (hdr iphaTtl).toNat = 0
    · rw [ipRputForward, if_pos (by omega)] at h
      split at h
      · rw [← Option.some.inj h]
        exact faithful_dropped
      rename_i hok
      rw [not_not, ipCsumHdr_eq_zero, headerSum_decrementTtl, if_pos httl] at hok
      rw [← Option.some.inj h]
      split
      · rename_i hstq
        have hdropped : answer e (decrementTtl e.order hdr) = .dropped := by
          rw [answer, if_neg]
          rw [icmpPktErrOk, mayAnswer_decrementTtl hhdr]
          intro hgo
          simp only [Bool.decide_and, Bool.and_eq_true, decide_eq_true_eq] at hgo
          exact hno ⟨httl, hok, hstq, hgo.1, hgo.2.2⟩
        rw [hdropped]
        exact faithful_dropped
      · exact faithful_dropped
    · exact ipRputForward_faithful hhdr httl h

def openRoute : Outgoing where
  order := .big
  lookups := strangers
  maxFrag := 1500
  stq := true
  linkHeader := true
  limited := false
  isBroadcast _ := false
  pulledUp := true
  headerCopied := true
  fresh _ := 0
  sends _ := true

def plainHeader (ttl : Byte) (csum : BitVec 16) : Memory :=
  putHalf (putByte (Lib.ofBytes
    [0x45, 0, 0, 20, 0, 0, 0, 0, 0, 17, 0, 0, 10, 0, 0, 9, 10, 0, 0, 8]) iphaTtl ttl) iphaHdrChecksum csum

theorem forwarded_sums_plain :
    ((∀ out, ipRputForward openRoute 1 (plainHeader 64 0x66c9) = some out →
        Faithful .big (plainHeader 64 0x66c9) out) ∧
      (1 < (plainHeader 64 0x66c9 iphaTtl).toNat →
        ((adjustedCsum .big (plainHeader 64 0x66c9)).toNat % 65535 =
            (ipCsumHdr .big (clearCsum .big (decrementTtl .big (plainHeader 64 0x66c9)))).toNat % 65535 ↔
          ipCsumHdr .big (plainHeader 64 0x66c9) = 0))) ↔
      ¬WrapsToValid openRoute (plainHeader 64 0x66c9) :=
  forwarded_sums (e := openRoute) ⟨by decide, by decide⟩

/-- A bad header with `ipha_ttl` zero is answered. -/
theorem zero_ttl_answered :
    ¬∀ (e : Outgoing) (fuel : Nat) (hdr : Memory), IpHeader hdr →
      (∀ out, ipRputForward e fuel hdr = some out → Faithful e.order hdr out) ∧
        (1 < (hdr iphaTtl).toNat →
          ((adjustedCsum e.order hdr).toNat % 65535 =
              (ipCsumHdr e.order (clearCsum e.order (decrementTtl e.order hdr))).toNat % 65535 ↔
            ipCsumHdr e.order hdr = 0)) := by
  intro hall
  have hhdr : IpHeader (plainHeader 0 0xa6c8) := ⟨by decide, by decide⟩
  have hwraps : WrapsToValid openRoute (plainHeader 0 0xa6c8) :=
    ⟨by decide, by decide +kernel, rfl, by decide, by decide +kernel⟩
  obtain ⟨hrun, hbad⟩ := ipRputForward_wrapped 0 hhdr hwraps
  exact hbad (((hall openRoute 0 _ hhdr).1 _ hrun).checked trivial)

end Wrap

end Solaris.Ip
