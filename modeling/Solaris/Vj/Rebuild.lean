import Solaris.Vj.Uncompress

/-!
# The header rebuilt is the header sent

`S` is the saved header of the sender and `m` the packet it compresses. The receiver starts from `zeroSum S`, and ends
with the header the sender saves now, the checksum field zero again.
-/

namespace Solaris.Vj

open Lib Nat

variable {S m B Q hdr : Memory} {F : Set Nat} {t hlen : Nat} {changes : Byte} {r : List Byte}

def zeroSum (h : Memory) : Memory := putHalf h 10 0

lemma zeroSum_of_ne {i : Nat} (h0 : i ≠ 10) (h1 : i ≠ 11) : zeroSum S i = S i := putHalf_of_ne h0 h1

lemma zeroSum_sum {i : Nat} (hi : i = 10 ∨ i = 11) : zeroSum S i = 0 := by
  rcases hi with rfl | rfl
  · rfl
  · rfl

/-- The offsets of the fields that a compressed packet can change. -/
def Varies (t i : Nat) : Prop :=
  (2 ≤ i ∧ i < 6) ∨ i = 10 ∨ i = 11 ∨ (t + 4 ≤ i ∧ i < t + 12) ∨ (t + 13 ≤ i ∧ i < t + 20)

def FlagsPlain (f : Byte) : Prop :=
  f &&& (flagSyn ||| flagFin ||| flagRst ||| flagAck) = flagAck ∧ f &&& 0xc0 = 0

/-- The packet `m` differs from the saved header `S` in the fields that vary only. -/
structure Follows (S m : Memory) (t hlen : Nat) : Prop where
  start : t = 4 * ipHl m
  size : hlen = t + 4 * thOff m t
  ihl : 5 ≤ ipHl m
  off : 5 ≤ thOff m t
  unchanged : ∀ i, i < hlen → ¬Varies t i → S i = m i
  flags : FlagsPlain (thFlags m t)
  oldFlags : FlagsPlain (thFlags S t)

lemma Follows.bounds (h : Follows S m t hlen) : 20 ≤ t ∧ t + 20 ≤ hlen := by
  have := h.start
  have := h.size
  have := h.ihl
  have := h.off
  omega

/-- The fields that a compressed packet rewrites, in the header before and in the header after. -/
structure Fields (S m B Q : Memory) (t : Nat) : Prop where
  seq : thSeq B t = thSeq S t ∧ thSeq Q t = thSeq m t
  ack : thAck B t = thAck S t ∧ thAck Q t = thAck m t
  win : thWin B t = thWin S t ∧ thWin Q t = thWin m t
  urp : thUrp B t = thUrp S t ∧ thUrp Q t = thUrp m t
  ident : ipId B = ipId S ∧ ipId Q = ipId m
  flags : thFlags Q t = thFlags m t

lemma rebuildWin_encodeWin (hf : Fields S m B Q t) (hm : Merged F B Q hdr) (h0 : t + 14 ∉ F) (h1 : t + 15 ∉ F)
    (hbit : changes &&& newW ≠ 0 ↔ (encodeWin m S t).1 = true) :
    ∃ hdr', rebuildWin changes t hdr ((encodeWin m S t).2 ++ r) = some (hdr', r) ∧
      Merged {i | i ∈ F ∨ i = t + 14 ∨ i = t + 15} B Q hdr' := by
  have hold : thWin hdr t = thWin S t := (hm.half_eq h0 h1).trans hf.win.1
  have hwide : ((thWin m t - thWin S t).setWidth 32).setWidth 16 = thWin m t - thWin S t := by
    exact BitVec.setWidth_setWidth_of_le _ (by omega)
  unfold rebuildWin
  unfold encodeWin at hbit ⊢
  by_cases hd : (thWin m t - thWin S t).setWidth 32 = 0
  · have heq : half B (t + 14) = half Q (t + 14) := by
      rw [hd] at hwide
      have hsame := sub_eq_zero.mp hwide.symm
      exact hf.win.1.trans (hsame.symm.trans hf.win.2.symm)
    rw [if_neg (not_not.mpr hd)] at hbit ⊢
    rw [if_neg (fun h => Bool.false_ne_true (hbit.mp h))]
    exact ⟨hdr, rfl, hm.keepHalf heq⟩
  have hne : ((thWin m t - thWin S t).setWidth 32).setWidth 16 ≠ 0 := by
    intro hz
    rw [hwide] at hz
    exact hd (by rw [hz]; rfl)
  rw [if_pos hd] at hbit ⊢
  rw [if_pos (hbit.mpr rfl), decodes, decode_encode hne]
  refine ⟨_, rfl, hm.putHalf ?_⟩
  rw [hwide, hold]
  exact (add_sub_cancel (thWin S t) (thWin m t)).trans hf.win.2.symm

lemma decodel_encodeLong {new old : BitVec 32} {b : Bool} {bs : List Byte} (h : encodeLong new old = some (b, bs)) :
    (b = true → decodel old (bs ++ r) = some (new, r)) ∧ (b = false → bs = [] ∧ old = new) := by
  unfold encodeLong at h
  by_cases hd : new - old = 0
  · rw [if_neg (not_not.mpr hd)] at h
    obtain ⟨rfl, rfl⟩ := Prod.mk.injEq .. ▸ Option.some.inj h
    refine ⟨fun hb => absurd hb Bool.false_ne_true, fun _ => ⟨rfl, ?_⟩⟩
    exact (sub_eq_zero.mp hd).symm
  rw [if_pos hd] at h
  split at h
  · exact absurd h (by simp)
  · next hsmall =>
    obtain ⟨rfl, rfl⟩ := Prod.mk.injEq .. ▸ Option.some.inj h
    refine ⟨fun _ => ?_, fun hb => absurd hb.symm Bool.false_ne_true⟩
    have hwide : ((new - old).setWidth 16).setWidth 32 = new - old := by
      apply BitVec.eq_of_toNat_eq
      simp only [BitVec.toNat_setWidth]
      omega
    have hne : (new - old).setWidth 16 ≠ 0 := by
      intro hz
      rw [hz] at hwide
      exact hd hwide.symm
    rw [decodel, decode_encode hne, Option.map_some, hwide, add_sub_cancel]

lemma rebuildAck_encodeLong {b : Bool} {bs : List Byte} (hf : Fields S m B Q t) (hm : Merged F B Q hdr)
    (hF : ∀ i, i < 4 → t + 8 + i ∉ F) (he : encodeLong (thAck m t) (thAck S t) = some (b, bs))
    (hbit : changes &&& newA ≠ 0 ↔ b = true) :
    ∃ hdr', rebuildAck changes t hdr (bs ++ r) = some (hdr', r) ∧
      Merged {i | i ∈ F ∨ (t + 8 ≤ i ∧ i < t + 8 + 4)} B Q hdr' := by
  have hold : thAck hdr t = thAck S t := (hm.word_eq hF).trans hf.ack.1
  obtain ⟨hsent, hkept⟩ := decodel_encodeLong he
  unfold rebuildAck
  cases b with
  | false =>
    obtain ⟨rfl, heq⟩ := hkept rfl
    rw [if_neg (fun h => Bool.false_ne_true (hbit.mp h))]
    exact ⟨hdr, rfl, hm.keepWord (hf.ack.1.trans (heq.trans hf.ack.2.symm))⟩
  | true =>
    rw [if_pos (hbit.mpr rfl), hold, hsent rfl]
    exact ⟨_, rfl, hm.putWord hf.ack.2.symm⟩

lemma rebuildSeq_encodeLong {b : Bool} {bs : List Byte} (hf : Fields S m B Q t) (hm : Merged F B Q hdr)
    (hF : ∀ i, i < 4 → t + 4 + i ∉ F) (he : encodeLong (thSeq m t) (thSeq S t) = some (b, bs))
    (hbit : changes &&& newS ≠ 0 ↔ b = true) :
    ∃ hdr', rebuildSeq changes t hdr (bs ++ r) = some (hdr', r) ∧
      Merged {i | i ∈ F ∨ (t + 4 ≤ i ∧ i < t + 4 + 4)} B Q hdr' := by
  have hold : thSeq hdr t = thSeq S t := (hm.word_eq hF).trans hf.seq.1
  obtain ⟨hsent, hkept⟩ := decodel_encodeLong he
  unfold rebuildSeq
  cases b with
  | false =>
    obtain ⟨rfl, heq⟩ := hkept rfl
    rw [if_neg (fun h => Bool.false_ne_true (hbit.mp h))]
    exact ⟨hdr, rfl, hm.keepWord (hf.seq.1.trans (heq.trans hf.seq.2.symm))⟩
  | true =>
    rw [if_pos (hbit.mpr rfl), hold, hsent rfl]
    exact ⟨_, rfl, hm.putWord hf.seq.2.symm⟩

lemma rebuildId_encodeId (hf : Fields S m B Q t) (hm : Merged F B Q hdr) (h0 : 4 ∉ F) (h1 : 5 ∉ F)
    (hbit : changes &&& newI ≠ 0 ↔ (encodeId m S).1 = true) :
    ∃ hdr', rebuildId changes hdr ((encodeId m S).2 ++ r) = some (hdr', r) ∧
      Merged {i | i ∈ F ∨ i = 4 ∨ i = 5} B Q hdr' := by
  have hold : ipId hdr = ipId S := (hm.half_eq h0 h1).trans hf.ident.1
  have hnarrow : ((ipId m).setWidth 32 - (ipId S).setWidth 32).setWidth 16 = ipId m - ipId S := by
    bv_omega
  unfold rebuildId
  unfold encodeId at hbit ⊢
  by_cases hd : (ipId m).setWidth 32 - (ipId S).setWidth 32 = 1
  · rw [if_neg (not_not.mpr hd)] at hbit ⊢
    rw [if_neg (fun h => Bool.false_ne_true (hbit.mp h))]
    refine ⟨_, rfl, hm.putHalf ?_⟩
    rw [hd] at hnarrow
    rw [hold]
    refine Eq.trans ?_ hf.ident.2.symm
    rw [← add_sub_cancel (ipId S) (ipId m), ← hnarrow]
    rfl
  · rw [if_pos hd] at hbit ⊢
    rw [if_pos (hbit.mpr rfl), decodes, decode_encodez]
    refine ⟨_, rfl, hm.putHalf ?_⟩
    rw [hnarrow, hold]
    exact (add_sub_cancel (ipId S) (ipId m)).trans hf.ident.2.symm

instance (f : Byte) : Decidable (FlagsPlain f) := inferInstanceAs (Decidable (_ ∧ _))

lemma or_flagUrg {f : Byte} (h : f &&& flagUrg ≠ 0) : f ||| flagUrg = f := by
  revert f
  decide

lemma and_not_flagUrg {f : Byte} (h : ¬f &&& flagUrg ≠ 0) : f &&& ~~~flagUrg = f := by
  revert f
  decide

lemma FlagsPlain.cases {f : Byte} (h : FlagsPlain f) :
    f = flagAck ∨ f = flagAck ||| flagPush ∨ f = flagAck ||| flagUrg ∨ f = flagAck ||| flagPush ||| flagUrg := by
  revert f
  decide

def pushed (b : Prop) [Decidable b] (f : Byte) : Byte := if b then f ||| flagPush else f &&& ~~~flagPush

lemma pushed_or_urg {f g : Byte} (hf : FlagsPlain f) (hg : FlagsPlain g) :
    pushed (g &&& flagPush ≠ 0) f ||| flagUrg = g ||| flagUrg ∧
      pushed (g &&& flagPush ≠ 0) f &&& ~~~flagUrg = g &&& ~~~flagUrg := by
  rcases hf.cases with rfl | rfl | rfl | rfl <;> rcases hg.cases with rfl | rfl | rfl | rfl <;> decide

lemma pushed_eq {f g : Byte} (hf : FlagsPlain f) (hg : FlagsPlain g)
    (hurg : f &&& flagUrg ≠ 0 ↔ g &&& flagUrg ≠ 0) : pushed (g &&& flagPush ≠ 0) f = g := by
  revert hurg
  rcases hf.cases with rfl | rfl | rfl | rfl <;> rcases hg.cases with rfl | rfl | rfl | rfl <;> decide

lemma rebuildUrp_encodeUrp {b : Bool} {bs : List Byte} (hf : Fields S m B Q t) (hm : Merged F B Q hdr)
    (hF : ∀ i, i = t + 13 ∨ i = t + 18 ∨ i = t + 19 → i ∉ F) (he : encodeUrp m S t = some (b, bs))
    (hbit : changes &&& newU ≠ 0 ↔ b = true) (hor : thFlags B t ||| flagUrg = thFlags m t ||| flagUrg)
    (hand : thFlags B t &&& ~~~flagUrg = thFlags m t &&& ~~~flagUrg) :
    ∃ hdr', rebuildUrp changes t hdr (bs ++ r) = some (hdr', r) ∧
      Merged {i | i ∈ {i | i ∈ F ∨ i = t + 13} ∨ i = t + 18 ∨ i = t + 19} B Q hdr' := by
  have hold : thFlags hdr t = thFlags B t := (hm (t + 13)).2 (hF _ (.inl rfl))
  unfold encodeUrp at he
  unfold rebuildUrp
  by_cases hurg : thFlags m t &&& flagUrg ≠ 0
  · rw [if_pos hurg] at he
    obtain ⟨rfl, rfl⟩ := Prod.mk.injEq .. ▸ Option.some.inj he
    rw [if_pos (hbit.mpr rfl), decodeu, decode_encodez]
    have hmf : Merged {i | i ∈ F ∨ i = t + 13} B Q (putByte hdr (t + 13) (thFlags hdr t ||| flagUrg)) := by
      apply hm.putByte
      rw [hold, hor, or_flagUrg hurg]
      exact hf.flags.symm
    refine ⟨_, rfl, hmf.putHalf ?_⟩
    rw [BitVec.setWidth_setWidth_of_le _ (by omega), BitVec.setWidth_eq]
    exact hf.urp.2.symm
  · rw [if_neg hurg] at he
    split at he
    · exact absurd he (by simp)
    · next hsame =>
      obtain ⟨rfl, rfl⟩ := Prod.mk.injEq .. ▸ Option.some.inj he
      rw [if_neg (fun h => Bool.false_ne_true (hbit.mp h))]
      have hmf : Merged {i | i ∈ F ∨ i = t + 13} B Q (putByte hdr (t + 13) (thFlags hdr t &&& ~~~flagUrg)) := by
        apply hm.putByte
        rw [hold, hand, and_not_flagUrg hurg]
        exact hf.flags.symm
      refine ⟨_, rfl, hmf.keepHalf ?_⟩
      exact hf.urp.1.trans ((not_not.mp hsame).symm.trans hf.urp.2.symm)

lemma mask_bits (u w a s i p c : Bool) :
    let core := sent u newU ||| sent w newW ||| sent a newA ||| sent s newS
    let changes := core ||| sent i newI ||| sent p tcpPushBit ||| sent c newC
    (changes &&& newU ≠ 0 ↔ u = true) ∧ (changes &&& newW ≠ 0 ↔ w = true) ∧ (changes &&& newA ≠ 0 ↔ a = true) ∧
      (changes &&& newS ≠ 0 ↔ s = true) ∧ (changes &&& newI ≠ 0 ↔ i = true) ∧
      (changes &&& tcpPushBit ≠ 0 ↔ p = true) ∧ (changes &&& newC ≠ 0 ↔ c = true) ∧
      changes &&& specialsMask = core := by
  revert u w a s i p c
  decide

lemma mask_echo {u w a s : Bool} (h : sent u newU ||| sent w newW ||| sent a newA ||| sent s newS = newS ||| newA) :
    u = false ∧ w = false ∧ a = true ∧ s = true := by
  revert u w a s
  decide

lemma mask_data {u w a s : Bool} (h : sent u newU ||| sent w newW ||| sent a newA ||| sent s newS = newS) :
    u = false ∧ w = false ∧ a = false ∧ s = true := by
  revert u w a s
  decide

structure Parts (m S : Memory) (t : Nat) where
  urp : Bool × List Byte
  win : Bool × List Byte
  ack : Bool × List Byte
  seq : Bool × List Byte
  urpSent : encodeUrp m S t = some urp
  winSent : encodeWin m S t = win
  ackSent : encodeLong (thAck m t) (thAck S t) = some ack
  seqSent : encodeLong (thSeq m t) (thSeq S t) = some seq

def Parts.mask (P : Parts m S t) : Byte :=
  sent P.urp.1 newU ||| sent P.win.1 newW ||| sent P.ack.1 newA ||| sent P.seq.1 newS

def Parts.bytes (P : Parts m S t) : List Byte := P.urp.2 ++ P.win.2 ++ P.ack.2 ++ P.seq.2

theorem encodeChanges_cases {newSeq : List Byte} (ht : t = 4 * ipHl m)
    (h : encodeChanges m S hlen = some (changes, newSeq)) :
    ∃ P : Parts m S t,
      (changes = P.mask ∧ newSeq = P.bytes ∧ changes ≠ specialI ∧ changes ≠ specialD) ∨
      (changes = specialI ∧ newSeq = [] ∧ P.urp.1 = false ∧ P.win.1 = false ∧
        thAck m t - thAck S t = lastData S hlen ∧ thSeq m t - thSeq S t = lastData S hlen ∧ P.seq.1 = true) ∨
      (changes = specialD ∧ newSeq = [] ∧ P.urp.1 = false ∧ P.win.1 = false ∧ P.ack.1 = false ∧
        thSeq m t - thSeq S t = lastData S hlen ∧ P.seq.1 = true) := by
  subst ht
  unfold encodeChanges at h
  dsimp only at h
  split at h
  · next u us w ws a as s ss hu hw ha hs =>
    let P : Parts m S (4 * ipHl m) := ⟨(u, us), (w, ws), (a, as), (s, ss), hu, hw, ha, hs⟩
    refine ⟨P, ?_⟩
    unfold chooseChanges at h
    dsimp only at h
    split at h
    · next hzero =>
      split at h
      · obtain ⟨rfl, rfl⟩ := Prod.mk.injEq .. ▸ Option.some.inj h
        refine .inl ⟨rfl, rfl, ?_, ?_⟩
        · rw [hzero]
          decide
        · rw [hzero]
          decide
      · exact absurd h (by simp)
    · split at h
      · exact absurd h (by simp)
      · next hspecial =>
        obtain ⟨hI, hD⟩ := not_or.mp hspecial
        split at h
        · next hecho =>
          obtain ⟨hpu, hpw, -, hps⟩ := mask_echo hecho
          split at h
          · next heq =>
            obtain ⟨rfl, rfl⟩ := Prod.mk.injEq .. ▸ Option.some.inj h
            exact .inr (.inl ⟨rfl, rfl, hpu, hpw, heq.1.symm.trans heq.2, heq.2, hps⟩)
          · obtain ⟨rfl, rfl⟩ := Prod.mk.injEq .. ▸ Option.some.inj h
            exact .inl ⟨rfl, rfl, hI, hD⟩
        split at h
        · next hdata =>
          obtain ⟨hpu, hpw, hpa, hps⟩ := mask_data hdata
          split at h
          · next heq =>
            obtain ⟨rfl, rfl⟩ := Prod.mk.injEq .. ▸ Option.some.inj h
            exact .inr (.inr ⟨rfl, rfl, hpu, hpw, hpa, heq, hps⟩)
          · obtain ⟨rfl, rfl⟩ := Prod.mk.injEq .. ▸ Option.some.inj h
            exact .inl ⟨rfl, rfl, hI, hD⟩
        · obtain ⟨rfl, rfl⟩ := Prod.mk.injEq .. ▸ Option.some.inj h
          exact .inl ⟨rfl, rfl, hI, hD⟩
  · exact absurd h (by simp)

theorem encodeChanges_bits {newSeq : List Byte} (ht : t = 4 * ipHl m)
    (h : encodeChanges m S hlen = some (changes, newSeq)) (i p c : Bool) :
    let sentChanges := changes ||| sent i newI ||| sent p tcpPushBit ||| sent c newC
    (sentChanges &&& newI ≠ 0 ↔ i = true) ∧ (sentChanges &&& tcpPushBit ≠ 0 ↔ p = true) ∧
      (sentChanges &&& newC ≠ 0 ↔ c = true) := by
  have hbits : ∀ u w a s : Bool, changes = sent u newU ||| sent w newW ||| sent a newA ||| sent s newS →
      let sentChanges := changes ||| sent i newI ||| sent p tcpPushBit ||| sent c newC
      (sentChanges &&& newI ≠ 0 ↔ i = true) ∧ (sentChanges &&& tcpPushBit ≠ 0 ↔ p = true) ∧
        (sentChanges &&& newC ≠ 0 ↔ c = true) := by
    rintro u w a s rfl
    obtain ⟨-, -, -, -, hi, hp, hc, -⟩ := mask_bits u w a s i p c
    exact ⟨hi, hp, hc⟩
  obtain ⟨P, ⟨hmask, -⟩ | ⟨hecho, -⟩ | ⟨hdata, -⟩⟩ := encodeChanges_cases ht h
  · exact hbits _ _ _ _ hmask
  · exact hbits true true false true hecho
  · exact hbits true true true true hdata

def tcpFields (t : Nat) : Set Nat := {i | (t + 4 ≤ i ∧ i < t + 12) ∨ (t + 13 ≤ i ∧ i < t + 20)}

def sumField (t : Nat) : Set Nat := {i | i = t + 16 ∨ i = t + 17}

lemma rebuildTcp_plain (P : Parts m S t) (hf : Fields S m B Q t) (hm : Merged (sumField t) B Q hdr)
    (hor : thFlags B t ||| flagUrg = thFlags m t ||| flagUrg)
    (hand : thFlags B t &&& ~~~flagUrg = thFlags m t &&& ~~~flagUrg) (hI : P.mask ≠ specialI) (hD : P.mask ≠ specialD)
    (hmask : changes &&& specialsMask = P.mask) (hu : changes &&& newU ≠ 0 ↔ P.urp.1 = true)
    (hw : changes &&& newW ≠ 0 ↔ P.win.1 = true) (ha : changes &&& newA ≠ 0 ↔ P.ack.1 = true)
    (hs : changes &&& newS ≠ 0 ↔ P.seq.1 = true) :
    ∃ hdr', rebuildTcp changes t hlen hdr (P.bytes ++ r) = some (hdr', r) ∧ Merged (tcpFields t) B Q hdr' := by
  have hbytes : P.bytes ++ r = P.urp.2 ++ (P.win.2 ++ (P.ack.2 ++ (P.seq.2 ++ r))) := by
    simp only [Parts.bytes, List.append_assoc]
  obtain ⟨hdr1, he1, hm1⟩ := rebuildUrp_encodeUrp (r := P.win.2 ++ (P.ack.2 ++ (P.seq.2 ++ r))) hf hm
    (by simp only [sumField, Set.mem_ofPred_eq]; omega) P.urpSent hu hor hand
  obtain ⟨hdr2, he2, hm2⟩ := rebuildWin_encodeWin (r := P.ack.2 ++ (P.seq.2 ++ r)) hf hm1
    (by simp only [sumField, Set.mem_ofPred_eq]; omega) (by simp only [sumField, Set.mem_ofPred_eq]; omega)
    (by rw [P.winSent]; exact hw)
  rw [P.winSent] at he2
  obtain ⟨hdr3, he3, hm3⟩ := rebuildAck_encodeLong (r := P.seq.2 ++ r) hf hm2
    (by simp only [sumField, Set.mem_ofPred_eq]; omega) P.ackSent ha
  obtain ⟨hdr4, he4, hm4⟩ := rebuildSeq_encodeLong (r := r) hf hm3
    (by simp only [sumField, Set.mem_ofPred_eq]; omega) P.seqSent hs
  refine ⟨hdr4, ?_, hm4.congr fun i => ?_⟩
  · rw [rebuildTcp, hmask, if_neg hI, if_neg hD, hbytes, he1]
    simp only [Option.bind_eq_bind, Option.bind_some, he2, he3, he4]
  · simp only [sumField, tcpFields, Set.mem_ofPred_eq]
    omega

lemma encodeLong_sent {new old : BitVec 32} {b : Bool × List Byte} (h : encodeLong new old = some b) (hb : b.1 = true) :
    new ≠ old := by
  rintro rfl
  simp [encodeLong] at h
  simp [← h] at hb

lemma encodeUrp_unsent {b : Bool × List Byte} (h : encodeUrp m S t = some b) (hb : b.1 = false) :
    thUrp m t = thUrp S t := by
  unfold encodeUrp at h
  split at h
  · rw [← Option.some.inj h] at hb
    exact absurd hb.symm Bool.false_ne_true
  · split at h
    · exact absurd h (by simp)
    · next hsame => exact not_not.mp hsame

lemma encodeWin_unsent (h : (encodeWin m S t).1 = false) : thWin m t = thWin S t := by
  unfold encodeWin at h
  dsimp only at h
  split at h
  · exact absurd h.symm Bool.false_ne_true
  · next hd =>
    have hwide : ((thWin m t - thWin S t).setWidth 32).setWidth 16 = thWin m t - thWin S t :=
      BitVec.setWidth_setWidth_of_le _ (by omega)
    rw [not_not.mp hd] at hwide
    exact sub_eq_zero.mp hwide.symm

lemma Fields.keepRest (hf : Fields S m B Q t) (hm : Merged F B Q hdr) (P : Parts m S t) (hu : P.urp.1 = false)
    (hw : P.win.1 = false) (hflags : thFlags B t = thFlags m t) :
    Merged {i | i ∈ F ∨ i = t + 13 ∨ i = t + 14 ∨ i = t + 15 ∨ i = t + 18 ∨ i = t + 19} B Q hdr := by
  have hurp : half B (t + 18) = half Q (t + 18) :=
    hf.urp.1.trans ((encodeUrp_unsent P.urpSent hu).symm.trans hf.urp.2.symm)
  have hwin : half B (t + 14) = half Q (t + 14) :=
    hf.win.1.trans ((encodeWin_unsent (P.winSent ▸ hw)).symm.trans hf.win.2.symm)
  have hkept := ((hm.keep (G := {i | i = t + 13}) fun i hi => hi ▸ hflags.trans hf.flags.symm).keepHalf hwin).keepHalf
    hurp
  refine hkept.congr fun i => ?_
  simp only [Set.mem_ofPred_eq, or_assoc, add_assoc, reduceAdd]

section

variable (P : Parts m S t) (hf : Fields S m B Q t) (hm : Merged (sumField t) B Q hdr) (ht : 2 ≤ t)
  (hlast : lastData B hlen = lastData S hlen) (hflags : thFlags B t = thFlags m t) (hu : P.urp.1 = false)
  (hw : P.win.1 = false)

include P hf hm ht hlast hflags hu hw

lemma rebuildTcp_echo (hA : thAck m t - thAck S t = lastData S hlen)
    (hS : thSeq m t - thSeq S t = lastData S hlen) (hmask : changes &&& specialsMask = specialI) :
    ∃ hdr', rebuildTcp changes t hlen hdr r = some (hdr', r) ∧ Merged (tcpFields t) B Q hdr' := by
  have hack : thAck hdr t = thAck S t :=
    (hm.word_eq (by simp only [sumField, Set.mem_ofPred_eq]; omega)).trans hf.ack.1
  have hlen' : lastData hdr hlen = lastData S hlen := by
    rw [← hlast, lastData, lastData, ipLen, ipLen, hm.half_eq (by simp only [sumField, Set.mem_ofPred_eq]; omega)
      (by simp only [sumField, Set.mem_ofPred_eq]; omega)]
  have hm1 : Merged {i | i ∈ sumField t ∨ (t + 8 ≤ i ∧ i < t + 8 + 4)} B Q
      (putWord hdr (t + 8) (thAck hdr t + lastData hdr hlen)) := by
    apply hm.putWord
    rw [hack, hlen', ← hA, add_sub_cancel]
    exact hf.ack.2.symm
  have hseq : thSeq (putWord hdr (t + 8) (thAck hdr t + lastData hdr hlen)) t = thSeq S t :=
    (hm1.word_eq (by simp only [sumField, Set.mem_ofPred_eq]; omega)).trans hf.seq.1
  have hm2 := hm1.putWord (v := thSeq S t + lastData S hlen) (a := t + 4) (by
    rw [← hS, add_sub_cancel]
    exact hf.seq.2.symm)
  refine ⟨_, ?_, (hf.keepRest hm2 P hu hw hflags).congr fun i => ?_⟩
  · rw [rebuildTcp, hmask, if_pos rfl]
    dsimp only
    rw [hseq, hlen']
  · simp only [sumField, tcpFields, Set.mem_ofPred_eq]
    omega

lemma rebuildTcp_data (ha : P.ack.1 = false) (hS : thSeq m t - thSeq S t = lastData S hlen)
    (hmask : changes &&& specialsMask = specialD) :
    ∃ hdr', rebuildTcp changes t hlen hdr r = some (hdr', r) ∧ Merged (tcpFields t) B Q hdr' := by
  have hlen' : lastData hdr hlen = lastData S hlen := by
    rw [← hlast, lastData, lastData, ipLen, ipLen, hm.half_eq (by simp only [sumField, Set.mem_ofPred_eq]; omega)
      (by simp only [sumField, Set.mem_ofPred_eq]; omega)]
  have hseq : thSeq hdr t = thSeq S t :=
    (hm.word_eq (by simp only [sumField, Set.mem_ofPred_eq]; omega)).trans hf.seq.1
  have hack : word B (t + 8) = word Q (t + 8) := by
    have heq := (decodel_encodeLong (r := r) P.ackSent).2 ha
    exact hf.ack.1.trans (heq.2.trans hf.ack.2.symm)
  have hm2 := (hm.keepWord hack).putWord (v := thSeq S t + lastData S hlen) (a := t + 4) (by
    rw [← hS, add_sub_cancel]
    exact hf.seq.2.symm)
  refine ⟨_, ?_, (hf.keepRest hm2 P hu hw hflags).congr fun i => ?_⟩
  · rw [rebuildTcp, hmask, if_neg (by decide), if_pos rfl, hseq, hlen']
  · simp only [sumField, tcpFields, Set.mem_ofPred_eq]
    omega

end

/-- The header that the receiver holds when the TCP checksum is not counted. -/
def pushedHeader (S m : Memory) (t : Nat) : Memory :=
  putByte (zeroSum S) (t + 13) (pushed (thFlags m t &&& flagPush ≠ 0) (thFlags S t))

def savedHeader (S m : Memory) (hlen : Nat) : Memory := zeroSum (copyBytes hlen m S)

lemma pushedHeader_of_ne {i : Nat} (h0 : i ≠ 10) (h1 : i ≠ 11) (h2 : i ≠ t + 13) : pushedHeader S m t i = S i := by
  rw [pushedHeader, putByte_of_ne h2, zeroSum_of_ne h0 h1]

lemma savedHeader_of_lt {i : Nat} (hi : i < hlen) (h0 : i ≠ 10) (h1 : i ≠ 11) : savedHeader S m hlen i = m i := by
  rw [savedHeader, zeroSum_of_ne h0 h1, copyBytes, if_pos hi]

lemma Follows.fields (h : Follows S m t hlen) : Fields S m (pushedHeader S m t) (savedHeader S m hlen) t := by
  obtain ⟨ht, hl⟩ := h.bounds
  have hb : ∀ i, i ≠ 10 → i ≠ 11 → i ≠ t + 13 → pushedHeader S m t i = S i := fun i => pushedHeader_of_ne
  have hq : ∀ i, i < hlen → i ≠ 10 → i ≠ 11 → savedHeader S m hlen i = m i := fun i => savedHeader_of_lt
  have hbhalf : ∀ a, 12 ≤ a ∨ a < 9 → a ≠ t + 13 → a ≠ t + 12 → half (pushedHeader S m t) a = half S a := by
    intro a ha h0 h1
    exact half_eq_iff.mpr ⟨hb a (by omega) (by omega) h0, hb (a + 1) (by omega) (by omega) (by omega)⟩
  have hqhalf : ∀ a, 12 ≤ a ∨ a < 9 → a + 1 < hlen → half (savedHeader S m hlen) a = half m a := by
    intro a ha hlt
    exact half_eq_iff.mpr ⟨hq a (by omega) (by omega) (by omega), hq (a + 1) hlt (by omega) (by omega)⟩
  refine ⟨⟨?_, ?_⟩, ⟨?_, ?_⟩, ⟨?_, ?_⟩, ⟨?_, ?_⟩, ⟨?_, ?_⟩, ?_⟩
  · exact word_eq_iff.mpr ⟨hbhalf _ (by omega) (by omega) (by omega), hbhalf _ (by omega) (by omega) (by omega)⟩
  · exact word_eq_iff.mpr ⟨hqhalf _ (by omega) (by omega), hqhalf _ (by omega) (by omega)⟩
  · exact word_eq_iff.mpr ⟨hbhalf _ (by omega) (by omega) (by omega), hbhalf _ (by omega) (by omega) (by omega)⟩
  · exact word_eq_iff.mpr ⟨hqhalf _ (by omega) (by omega), hqhalf _ (by omega) (by omega)⟩
  · exact hbhalf _ (by omega) (by omega) (by omega)
  · exact hqhalf _ (by omega) (by omega)
  · exact hbhalf _ (by omega) (by omega) (by omega)
  · exact hqhalf _ (by omega) (by omega)
  · exact hbhalf _ (by omega) (by omega) (by omega)
  · exact hqhalf _ (by omega) (by omega)
  · exact hq _ (by omega) (by omega) (by omega)

lemma lastData_pushedHeader (ht : 20 ≤ t) : lastData (pushedHeader S m t) hlen = lastData S hlen := by
  have hlen' : ipLen (pushedHeader S m t) = ipLen S :=
    half_eq_iff.mpr ⟨pushedHeader_of_ne (by omega) (by omega) (by omega),
      pushedHeader_of_ne (by omega) (by omega) (by omega)⟩
  rw [lastData, lastData, hlen']

/-- An encoding with a special mask says nothing of the urgent bit: it has to be as it was. -/
def KeepsUrg (S m : Memory) (t : Nat) (changes : Byte) : Prop :=
  changes = specialI ∨ changes = specialD → (thFlags S t &&& flagUrg ≠ 0 ↔ thFlags m t &&& flagUrg ≠ 0)

lemma Follows.rebuildTcp (h : Follows S m t hlen) {i p c : Bool} {newSeq : List Byte}
    (he : encodeChanges m S hlen = some (changes, newSeq)) (hurg : KeepsUrg S m t changes)
    (hm : Merged (sumField t) (pushedHeader S m t) (savedHeader S m hlen) hdr) :
    ∃ hdr', Vj.rebuildTcp (changes ||| sent i newI ||| sent p tcpPushBit ||| sent c newC) t hlen hdr (newSeq ++ r) =
      some (hdr', r) ∧ Merged (tcpFields t) (pushedHeader S m t) (savedHeader S m hlen) hdr' := by
  obtain ⟨ht, hl⟩ := h.bounds
  have hflags : thFlags (pushedHeader S m t) t = pushed (thFlags m t &&& flagPush ≠ 0) (thFlags S t) :=
    putByte_self _
  obtain ⟨P, hplain | hecho | hdata⟩ := encodeChanges_cases h.start he
  · obtain ⟨rfl, rfl, hI, hD⟩ := hplain
    obtain ⟨hu, hw, ha, hs, -, -, -, hmask⟩ := mask_bits P.urp.1 P.win.1 P.ack.1 P.seq.1 i p c
    obtain ⟨hor, hand⟩ := pushed_or_urg h.oldFlags h.flags
    rw [← hflags] at hor hand
    exact rebuildTcp_plain P h.fields hm hor hand hI hD hmask hu hw ha hs
  · obtain ⟨rfl, rfl, hu, hw, hA, hS, -⟩ := hecho
    have hkeep := pushed_eq h.oldFlags h.flags (hurg (.inl rfl))
    refine rebuildTcp_echo P h.fields hm (by omega) (lastData_pushedHeader ht) (hflags.trans hkeep) hu hw hA hS ?_
    exact (mask_bits true true false true i p c).2.2.2.2.2.2.2
  · obtain ⟨rfl, rfl, hu, hw, ha, hS, -⟩ := hdata
    have hkeep := pushed_eq h.oldFlags h.flags (hurg (.inr rfl))
    refine rebuildTcp_data P h.fields hm (by omega) (lastData_pushedHeader ht) (hflags.trans hkeep) hu hw ha hS ?_
    exact (mask_bits true true true true i p c).2.2.2.2.2.2.2

lemma putByte_putHalf {b : Byte} {a j : Nat} {v : BitVec 16} (h0 : j ≠ a) (h1 : j ≠ a + 1) :
    putByte (putHalf m a v) j b = putHalf (putByte m j b) a v := by
  funext i
  by_cases hi : i = j
  · subst hi
    rw [putByte_self, putHalf_of_ne h0 h1, putByte_self]
  · rw [putByte_of_ne hi]
    simp only [putHalf, putByte, if_neg hi]

lemma rebuildPush_eq {p : Bool} (hp : changes &&& tcpPushBit ≠ 0 ↔ p = true)
    (hm : p = true ↔ thFlags m t &&& flagPush ≠ 0) (v : BitVec 16) (ht : 20 ≤ t) :
    rebuildPush changes t v (zeroSum S) = putHalf (pushedHeader S m t) (t + 16) v := by
  have hflags : thFlags (putHalf (zeroSum S) (t + 16) v) t = thFlags S t := by
    rw [thFlags, putHalf_of_ne (by omega) (by omega), zeroSum_of_ne (by omega) (by omega)]
    rfl
  have hbit : (if changes &&& tcpPushBit ≠ 0 then thFlags S t ||| flagPush else thFlags S t &&& ~~~flagPush) =
      pushed (thFlags m t &&& flagPush ≠ 0) (thFlags S t) := by
    unfold pushed
    exact if_congr (hp.trans hm) rfl rfl
  rw [rebuildPush, hflags, hbit, putByte_putHalf (by omega) (by omega)]
  rfl

lemma Follows.rest_eq (h : Follows S m t hlen) {i : Nat} (hi : i ∉ tcpFields t) (hip : i < 2 ∨ 6 ≤ i) :
    pushedHeader S m t i = savedHeader S m hlen i := by
  simp only [tcpFields, Set.mem_ofPred_eq] at hi
  by_cases hsum : i = 10 ∨ i = 11
  · rw [savedHeader, zeroSum_sum hsum, pushedHeader, putByte_of_ne (by omega), zeroSum_sum hsum]
  have hv : ¬Varies t i := by
    unfold Varies
    omega
  rw [pushedHeader_of_ne (by omega) (by omega) (by omega)]
  by_cases hlt : i < hlen
  · rw [savedHeader_of_lt hlt (by omega) (by omega)]
    exact h.unchanged i hlt hv
  · rw [savedHeader, zeroSum_of_ne (by omega) (by omega), copyBytes, if_neg hlt]

/-- The receiver's header, with the changes and the length of the packet, is the header that the sender saves. -/
theorem Follows.rebuild (h : Follows S m t hlen) {c : Bool} {newSeq data : List Byte}
    (he : encodeChanges m S hlen = some (changes, newSeq)) (hurg : KeepsUrg S m t changes)
    (hlength : (ipLen m).toNat = hlen + data.length) :
    ∃ hdr', Vj.rebuild (changes ||| sent (encodeId m S).1 newI |||
        sent (thFlags m t &&& flagPush ≠ 0) tcpPushBit ||| sent c newC) hlen (zeroSum S)
        ([(thSum m t).extractLsb' 8 8, (thSum m t).extractLsb' 0 8] ++ (newSeq ++ (encodeId m S).2) ++ data) =
      some (hdr', data) ∧ putHalf hdr' 2 (BitVec.ofNat 16 (data.length + hlen)) = savedHeader S m hlen := by
  obtain ⟨ht, hl⟩ := h.bounds
  have hfirst : zeroSum S 0 = m 0 := by
    exact h.unchanged 0 (by omega) (by unfold Varies; omega)
  have hstart : 4 * ipHl (zeroSum S) = t := by
    rw [ipHl, hfirst, h.start]
    rfl
  have hsum : ((thSum m t).extractLsb' 8 8 : Byte) ++ ((thSum m t).extractLsb' 0 8 : Byte) = thSum m t :=
    BitVec.extractLsb'_append_extractLsb'
  obtain ⟨hi, hp, -⟩ := encodeChanges_bits h.start he (encodeId m S).1 (thFlags m t &&& flagPush ≠ 0) c
  have hm1 : Merged (sumField t) (pushedHeader S m t) (savedHeader S m hlen)
      (putHalf (pushedHeader S m t) (t + 16) (thSum m t)) := by
    refine ((merged_empty (pushedHeader S m t) (savedHeader S m hlen)).putHalf ?_).congr fun i => ?_
    · exact half_eq_iff.mpr ⟨(savedHeader_of_lt (by omega) (by omega) (by omega)).symm,
        (savedHeader_of_lt (by omega) (by omega) (by omega)).symm⟩
    · simp only [sumField, Set.mem_ofPred_eq, Set.mem_empty_iff_false, false_or, add_assoc, reduceAdd]
  obtain ⟨hdr2, he2, hm2⟩ := h.rebuildTcp
    he hurg hm1
  obtain ⟨hdr3, he3, hm3⟩ := rebuildId_encodeId h.fields hm2
    (by simp only [tcpFields, Set.mem_ofPred_eq]; omega) (by simp only [tcpFields, Set.mem_ofPred_eq]; omega) hi
  refine ⟨hdr3, ?_, ?_⟩
  · rw [show [(thSum m t).extractLsb' 8 8, (thSum m t).extractLsb' 0 8] ++ (newSeq ++ (encodeId m S).2) ++ data =
      (thSum m t).extractLsb' 8 8 :: (thSum m t).extractLsb' 0 8 :: (newSeq ++ ((encodeId m S).2 ++ data)) by simp]
    rw [Vj.rebuild, hstart, hsum, rebuildPush_eq hp decide_eq_true_iff (thSum m t) ht, he2]
    exact he3
  · have hval : BitVec.ofNat 16 (data.length + hlen) = half (savedHeader S m hlen) 2 := by
      have hsaved : half (savedHeader S m hlen) 2 = ipLen m :=
        half_eq_iff.mpr ⟨savedHeader_of_lt (by omega) (by omega) (by omega),
          savedHeader_of_lt (by omega) (by omega) (by omega)⟩
      rw [hsaved, add_comm, ← hlength, BitVec.ofNat_toNat, BitVec.setWidth_eq]
    apply (hm3.putHalf hval).eq
    intro i hi
    simp only [Set.mem_ofPred_eq, not_or] at hi
    exact h.rest_eq hi.1.1 (by omega)

end Solaris.Vj
