import Solaris.Stream.Queue
import Solaris.Lib.Ranked
import Mathlib.Algebra.BigOperators.Group.List.Basic

/-!
# What a queue keeps

The messages stand in order of their rank: high-priority messages first, then the bands from the highest
down. Every band knows its first and its last message; the queue counts the bytes of the messages of band
zero, high-priority ones among them, and every other band those of its own.
-/

namespace Solaris.Stream

open Lib Queue Nat List

variable {q : Queue} {l l' : List MsgPtr} {bp : MsgPtr}

def Msg.rank (m : Msg) : Nat := if QPCTL ≤ m.type then 256 else m.band.toNat

def Msg.bytes (m : Msg) : Nat := m.blocks.sum

namespace Queue

variable (q)

def rank (p : MsgPtr) : Nat := (q.msg p).rank

def bytes (p : MsgPtr) : Nat := (q.msg p).bytes

def normal (l : List MsgPtr) : List MsgPtr := l.filter fun p => (q.msg p).band = 0

end Queue

/-- The count and the flag of a flow of messages. Without a high water mark the flag may be clear as long as
there are no messages. -/
structure Flow (bytes : MsgPtr → Nat) (c : List MsgPtr) (count hiwat : Nat) (full : Bool) : Prop where
  count_eq : count = (c.map bytes).sum
  le_of_full : full = true → hiwat ≤ count
  full_of_le : hiwat ≤ count → full = true ∨ (hiwat = 0 ∧ c = [])

/-- What the order of the messages and their bands must be. -/
structure Shape (q : Queue) (l : List MsgPtr) : Prop where
  ranked : Ranked q.rank l
  high : ∀ p ∈ l, QPCTL ≤ (q.msg p).type → (q.msg p).band = 0
  get : ∀ p ∈ l, (q.msg p).noget = false
  band_le : ∀ p ∈ l, (q.msg p).band.toNat ≤ q.nband

structure Bands (q : Queue) : Prop where
  nband_eq : q.nband = q.bands.length
  nband_le : q.nband ≤ 255

def Ends (q : Queue) (l : List MsgPtr) : Prop :=
  ∀ i qb, q.bands[i]? = some qb →
    qb.first = (ofRank q.rank (i + 1) l).head? ∧ qb.last = (ofRank q.rank (i + 1) l).getLast?

structure Flows (q : Queue) (l : List MsgPtr) : Prop where
  normal : Flow q.bytes (q.normal l) q.count q.hiwat q.full
  band : ∀ i qb, q.bands[i]? = some qb → Flow q.bytes (ofRank q.rank (i + 1) l) qb.count qb.hiwat qb.full

structure Queued (q : Queue) (l : List MsgPtr) : Prop where
  linked : Linked q l
  shape : Shape q l
  bands : Bands q
  ends : Ends q l
  flows : Flows q l
  turns : l.length ≤ q.turns

section Rank

lemma Msg.rank_of_high {m : Msg} (h : QPCTL ≤ m.type) : m.rank = 256 := if_pos h

lemma Msg.rank_of_ordinary {m : Msg} (h : ¬QPCTL ≤ m.type) : m.rank = m.band.toNat := if_neg h

lemma Msg.rank_le (m : Msg) : m.rank ≤ 256 := by
  have := m.band.toNat_lt
  unfold Msg.rank
  split <;> omega

lemma Msg.high_iff_rank {m : Msg} : QPCTL ≤ m.type ↔ m.rank = 256 := by
  refine ⟨Msg.rank_of_high, ?_⟩
  intro hr
  by_contra h
  rw [Msg.rank_of_ordinary h] at hr
  have := m.band.toNat_lt
  omega

lemma queclass_of_high {m : Msg} (h : QPCTL ≤ m.type) : queclass m = QPCTL := if_pos h

lemma queclass_of_ordinary {m : Msg} (h : ¬QPCTL ≤ m.type) : queclass m = QNORM := if_neg h

lemma queclass_eq_iff {m : Msg} : queclass m = QPCTL ↔ QPCTL ≤ m.type := by
  by_cases h : QPCTL ≤ m.type
  · simp [queclass_of_high h, h]
  · rw [queclass_of_ordinary h]
    refine ⟨fun heq => absurd heq (by decide), fun hh => absurd hh h⟩

lemma band_eq_zero_iff {m : Msg} : m.band = 0 ↔ m.band.toNat = 0 := by
  rw [← UInt8.toNat_inj]
  rfl

lemma rank_of_band (hhigh : QPCTL ≤ (q.msg bp).type → (q.msg bp).band = 0) (hb : (q.msg bp).band ≠ 0) :
    q.rank bp = q.bandIdx bp + 1 := by
  have hord : ¬QPCTL ≤ (q.msg bp).type := fun h => hb (hhigh h)
  have hrank : q.rank bp = (q.msg bp).band.toNat := Msg.rank_of_ordinary hord
  have hne : (q.msg bp).band.toNat ≠ 0 := fun h => hb (band_eq_zero_iff.mpr h)
  rw [hrank, Queue.bandIdx]
  omega

lemma rank_of_band_zero (hb : (q.msg bp).band = 0) : q.rank bp = 0 ∨ q.rank bp = 256 := by
  by_cases h : QPCTL ≤ (q.msg bp).type
  · exact .inr (Msg.rank_of_high h)
  · have hrank : q.rank bp = (q.msg bp).band.toNat := Msg.rank_of_ordinary h
    rw [hrank, hb]
    exact .inl rfl

end Rank

section Flow

variable {bytes : MsgPtr → Nat} {c c' : List MsgPtr} {count hiwat : Nat} {full : Bool}

lemma Flow.perm (h : Flow bytes c count hiwat full) (hc : c.Perm c') : Flow bytes c' count hiwat full := by
  refine ⟨?_, h.le_of_full, ?_⟩
  · rw [h.count_eq]
    exact (hc.map bytes).sum_eq
  · intro hle
    refine (h.full_of_le hle).imp_right (And.imp_right ?_)
    rintro rfl
    exact hc.nil_eq.symm

lemma Flow.nil : Flow bytes [] 0 hiwat false :=
  ⟨rfl, by simp, fun hle => .inr ⟨Nat.le_zero.mp hle, rfl⟩⟩

lemma Flow.put (h : Flow bytes c count hiwat full) (p : MsgPtr) :
    Flow bytes (p :: c) (count + bytes p) hiwat (if hiwat ≤ count + bytes p then true else full) := by
  refine ⟨?_, ?_, ?_⟩
  · rw [map_cons, sum_cons, h.count_eq, add_comm]
  · intro hfull
    by_cases hle : hiwat ≤ count + bytes p
    · exact hle
    · rw [if_neg hle] at hfull
      exact (h.le_of_full hfull).trans (Nat.le_add_right ..)
  · intro hle
    exact .inl (if_pos hle)

lemma Flow.take {p : MsgPtr} (h : Flow bytes (p :: c) count hiwat full) :
    Flow bytes c (count - bytes p) hiwat (if count - bytes p < hiwat then false else full) := by
  have hcount := h.count_eq
  rw [map_cons, sum_cons] at hcount
  refine ⟨by omega, ?_, ?_⟩
  · intro hfull
    by_cases hlt : count - bytes p < hiwat
    · rw [if_pos hlt] at hfull
      cases hfull
    · exact not_lt.mp hlt
  · intro hle
    rw [if_neg (not_lt.mpr hle)]
    -- a message was there, so the flag was set if the count was high enough
    rcases h.full_of_le (hle.trans (sub_le ..)) with hfull | ⟨-, hnil⟩
    · exact .inl hfull
    · cases hnil

end Flow

lemma foldl_add_eq (l : List Nat) (n : Nat) : l.foldl (· + ·) n = n + l.sum := by
  induction l generalizing n with
  | nil => rfl
  | cons a l ih => rw [foldl_cons, ih, sum_cons, add_assoc]

lemma foldl_sub_eq (l : List Nat) (n : Nat) : l.foldl (· - ·) n = n - l.sum := by
  induction l generalizing n with
  | nil => rfl
  | cons a l ih => rw [foldl_cons, ih, sum_cons, Nat.sub_sub]

lemma band_modify {bands : List Qband} {i j : Nat} {f : Qband → Qband} {qb : Qband}
    (h : (bands.modify i f)[j]? = some qb) :
    (i = j ∧ ∃ qb', bands[j]? = some qb' ∧ qb = f qb') ∨ (i ≠ j ∧ bands[j]? = some qb) := by
  rw [getElem?_modify] at h
  by_cases hij : i = j
  · simp only [hij, if_true] at h
    cases hj : bands[j]? with
    | none => simp [hj] at h
    | some qb' =>
      refine .inl ⟨hij, qb', rfl, ?_⟩
      simpa [hj] using h.symm
  · simp only [hij, if_false] at h
    exact .inr ⟨hij, by simpa using h⟩

section Accounts

lemma normal_perm (h : l'.Perm (bp :: l)) :
    (q.normal l').Perm (if (q.msg bp).band = 0 then bp :: q.normal l else q.normal l) := by
  refine (h.filter _).trans ?_
  split_ifs with hb
  · rw [filter_cons_of_pos (by simpa using hb)]
    exact List.Perm.refl _
  · rw [filter_cons_of_neg (by simpa using hb)]
    exact List.Perm.refl _

lemma ofRank_perm {r : MsgPtr → Nat} (h : l'.Perm (bp :: l)) (k : Nat) :
    (ofRank r k l').Perm (if r bp = k then bp :: ofRank r k l else ofRank r k l) := by
  refine (h.filter _).trans ?_
  by_cases hb : r bp = k
  · rw [if_pos hb, filter_cons_of_pos (by simpa using hb)]
    exact List.Perm.refl _
  · rw [if_neg hb, filter_cons_of_neg (by simpa using hb)]
    exact List.Perm.refl _

lemma ofRank_perm_of_band_zero (h : l'.Perm (bp :: l)) (hb : (q.msg bp).band = 0) {i : Nat} (hi : i < 255) :
    (ofRank q.rank (i + 1) l').Perm (ofRank q.rank (i + 1) l) := by
  have hperm := ofRank_perm (r := q.rank) h (i + 1)
  rwa [if_neg] at hperm
  rcases rank_of_band_zero hb with h0 | h256
  · omega
  · omega

lemma Bands.lt_255 (h : Bands q) {i : Nat} {qb : Qband} (hqb : q.bands[i]? = some qb) : i < 255 := by
  obtain ⟨hi, -⟩ := List.getElem?_eq_some_iff.mp hqb
  have := h.nband_eq
  have := h.nband_le
  omega

lemma Flows.account (h : Flows q l) (hbands : Bands q) (hl : l'.Perm (bp :: l))
    (hhigh : QPCTL ≤ (q.msg bp).type → (q.msg bp).band = 0) : Flows (q.account bp) l' := by
  have hnormal := normal_perm (q := q) hl
  unfold Queue.account
  by_cases hb : (q.msg bp).band = 0
  · rw [if_neg (not_not_intro hb)]
    rw [if_pos hb] at hnormal
    refine ⟨?_, ?_⟩
    · have hput := h.normal.put bp
      simp only [foldl_add_eq]
      exact hput.perm hnormal.symm
    · intro i qb hqb
      exact (h.band i qb hqb).perm (ofRank_perm_of_band_zero hl hb (hbands.lt_255 hqb)).symm
  rw [if_pos hb]
  rw [if_neg hb] at hnormal
  refine ⟨h.normal.perm hnormal.symm, ?_⟩
  intro i qb hqb
  have hrank := rank_of_band hhigh hb
  have hperm := ofRank_perm (r := q.rank) hl (i + 1)
  rcases band_modify hqb with ⟨rfl, qb', hqb', rfl⟩ | ⟨hne, hqb'⟩
  · rw [if_pos hrank] at hperm
    have hput := (h.band _ qb' hqb').put bp
    simp only [foldl_add_eq]
    exact hput.perm hperm.symm
  · rw [if_neg (by omega)] at hperm
    exact (h.band i qb hqb').perm hperm.symm

lemma Flows.discount (h : Flows q l) (hbands : Bands q) (hl : l.Perm (bp :: l'))
    (hhigh : QPCTL ≤ (q.msg bp).type → (q.msg bp).band = 0) : Flows (q.discount bp) l' := by
  have hnormal := normal_perm (q := q) hl
  unfold Queue.discount
  split_ifs with hb
  · rw [if_pos hb] at hnormal
    refine ⟨?_, ?_⟩
    · have htake := (h.normal.perm hnormal).take
      simp only [foldl_sub_eq]
      exact htake
    · intro i qb hqb
      exact (h.band i qb hqb).perm (ofRank_perm_of_band_zero hl hb (hbands.lt_255 hqb))
  rw [if_neg hb] at hnormal
  refine ⟨h.normal.perm hnormal, ?_⟩
  intro i qb hqb
  have hrank := rank_of_band hhigh hb
  have hperm := ofRank_perm (r := q.rank) hl (i + 1)
  rcases band_modify hqb with ⟨rfl, qb', hqb', rfl⟩ | ⟨hne, hqb'⟩
  · rw [if_pos hrank] at hperm
    have htake := ((h.band _ qb' hqb').perm hperm).take
    simp only [foldl_sub_eq]
    exact htake
  · rw [if_neg (by omega)] at hperm
    exact (h.band i qb hqb').perm hperm

end Accounts

end Solaris.Stream
