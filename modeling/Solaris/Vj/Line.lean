import Solaris.Lib.Ring
import Solaris.Vj.Rebuild

/-!
# The slots of the sender

The states of the sender are in a circular list, the most recently used first. The search ends at the last state, a
state that is used is moved to the front, and in a miss the last state becomes the first.
-/

namespace Solaris.Vj

section Slots

open Lib List Function Option

variable {t : Nat → Cstate} {comp : Vjstruct} {m : Memory} {last x : Nat} {pre post l : List Nat}

def links (t : Nat → Cstate) : Nat → Nat := fun i => (t i).next

def SameSlots (t t' : Nat → Cstate) : Prop := ∀ i, (t' i).hdr = (t i).hdr ∧ (t' i).id = (t i).id

lemma sameSlots_setNext (t : Nat → Cstate) (i n : Nat) : SameSlots t (setNext t i n) := by
  intro j
  by_cases hj : j = i
  · subst hj
    rw [setNext, update_self]
    exact ⟨rfl, rfl⟩
  · rw [setNext, update_of_ne hj]
    exact ⟨rfl, rfl⟩

lemma SameSlots.trans {t t' t'' : Nat → Cstate} (h : SameSlots t t') (h' : SameSlots t' t'') : SameSlots t t'' := by
  intro i
  exact ⟨(h' i).1.trans (h i).1, (h' i).2.trans (h i).2⟩

lemma links_setNext (t : Nat → Cstate) (i n : Nat) : links (setNext t i n) = update (links t) i n := by
  funext j
  by_cases hj : j = i
  · subst hj
    simp only [links, setNext, update_self]
  · simp only [links, setNext, update_of_ne hj]

lemma links_setHdr (t : Nat → Cstate) (i : Nat) (h : Memory) : links (setHdr t i h) = links t := by
  funext j
  by_cases hj : j = i
  · subst hj
    simp only [links, setHdr, update_self]
  · simp only [links, setHdr, update_of_ne hj]

/-- Where a search that starts behind the first state ends. -/
def Search.At (t : Nat → Cstate) (m : Memory) (last : Nat) (l : List Nat) : Search → Prop
  | .found lcs cs => (∃ pre post, l = pre ++ lcs :: cs :: post) ∧ sameConnection m (t cs).hdr
  | .missed lcs cs => (∃ pre, l = pre ++ [lcs, cs]) ∧ cs = last

lemma search_at (hring : Ring (links t) last l) {y fuel : Nat} (hl : l = pre ++ x :: y :: post)
    (hfuel : post.length < fuel) (m : Memory) : ∃ r, search t m last fuel x = some r ∧ r.At t m last l := by
  induction post generalizing pre x y fuel with
  | nil =>
    obtain ⟨fuel, rfl⟩ : ∃ k, fuel = k + 1 := ⟨fuel - 1, by simp at hfuel; omega⟩
    have hnext : (t x).next = y := Ring.next_mem (hl ▸ hring)
    have hlast : y = last := by
      have hends := hring.ends
      rw [hl, show pre ++ [x, y] = pre ++ [x] ++ [y] by simp, getLast?_concat] at hends
      exact some.inj hends
    unfold search
    rw [hnext]
    by_cases hsame : sameConnection m (t y).hdr
    · exact ⟨.found x y, if_pos hsame, ⟨pre, [], hl⟩, hsame⟩
    · rw [if_neg hsame, if_pos hlast]
      exact ⟨.missed x y, rfl, ⟨pre, hl⟩, hlast⟩
  | cons z post ih =>
    obtain ⟨fuel, rfl⟩ : ∃ k, fuel = k + 1 := ⟨fuel - 1, by simp at hfuel; omega⟩
    have hnext : (t x).next = y := Ring.next_mem (hl ▸ hring)
    have hne : y ≠ last := by
      have hnd := hring.nodup
      have hends := hring.ends
      have htail : l = (pre ++ [x]) ++ y :: z :: post := by
        rw [hl]
        simp
      rw [htail, getLast?_append_of_ne_nil _ (by simp), getLast?_cons_cons] at hends
      rw [htail, nodup_append, nodup_cons] at hnd
      rintro rfl
      exact hnd.2.1.1 (mem_of_getLast? hends)
    unfold search
    rw [hnext]
    by_cases hsame : sameConnection m (t y).hdr
    · exact ⟨.found x y, if_pos hsame, ⟨pre, z :: post, hl⟩, hsame⟩
    rw [if_neg hsame, if_neg hne]
    have htail : l = (pre ++ [x]) ++ y :: z :: post := by
      rw [hl]
      simp
    rw [length_cons] at hfuel
    exact ih htail (by omega)

/-- What `locate` leaves: the same states in another order, and the state it returns among them. -/
structure Located (comp : Vjstruct) (m : Memory) (l : List Nat) (hit : Bool) (cs lastcs : Nat) (t : Nat → Cstate)
    (l' : List Nat) : Prop where
  ring : Ring (links t) lastcs l'
  perm : l'.Perm l
  slots : SameSlots comp.tstate t
  mem : cs ∈ l
  same : hit = true → sameConnection m (comp.tstate cs).hdr

lemma locate_spec (hring : Ring (links comp.tstate) comp.lastCs l) (hfuel : l.length ≤ maxStates) (m : Memory) :
    ∃ hit cs lastcs t l', locate comp m = some (hit, cs, { comp with lastCs := lastcs, tstate := t }) ∧
      Located comp m l hit cs lastcs t l' := by
  have hrefl : SameSlots comp.tstate comp.tstate := fun i => ⟨rfl, rfl⟩
  cases l with
  | nil => exact absurd hring.last_mem (by simp)
  | cons x l =>
    have hhead : (comp.tstate comp.lastCs).next = x := hring.head
    unfold locate
    rw [hhead]
    by_cases hsame : sameConnection m (comp.tstate x).hdr
    · rw [if_pos hsame]
      exact ⟨true, x, comp.lastCs, comp.tstate, x :: l, rfl, hring, List.Perm.refl _, hrefl, by simp, fun _ => hsame⟩
    rw [if_neg hsame]
    cases l with
    | nil =>
      -- with one state only the search comes back to it
      have hlast : x = comp.lastCs := by simpa using hring.ends
      have hsearch : search comp.tstate m comp.lastCs maxStates x = some (.missed x x) := by
        have hnext : (comp.tstate x).next = x := by
          rw [hlast] at hhead ⊢
          exact hhead
        unfold maxStates search
        rw [hnext, if_neg hsame, if_pos hlast]
      rw [hsearch]
      refine ⟨false, x, x, comp.tstate, [x], rfl, ?_, List.Perm.refl _, hrefl, by simp, fun h => ?_⟩
      · rw [hlast] at hring ⊢
        exact hring
      · exact absurd h Bool.false_ne_true
    | cons y l =>
      simp only [length_cons] at hfuel
      obtain ⟨r, hr, hat⟩ := search_at hring (nil_append (x :: y :: l)).symm
        (show l.length < maxStates by omega) m
      rw [hr]
      cases r with
      | missed lcs cs =>
        obtain ⟨⟨pre, hl⟩, rfl⟩ := hat
        exact ⟨false, comp.lastCs, lcs, comp.tstate, _, rfl, (hl ▸ hring).rotate, hl ▸ perm_rotate pre lcs comp.lastCs,
          hrefl, hring.last_mem, fun h => absurd h Bool.false_ne_true⟩
      | found lcs cs =>
        obtain ⟨⟨pre, post, hl⟩, hcs⟩ := hat
        have hmem : cs ∈ x :: y :: l := by
          rw [hl]
          simp
        dsimp only
        rcases eq_nil_or_concat' post with rfl | ⟨post, z, rfl⟩
        · have hlast : cs = comp.lastCs := by
            have hends := hring.ends
            rw [hl, append_cons, getLast?_concat] at hends
            exact some.inj hends
          rw [if_pos hlast]
          have hl' : x :: y :: l = pre ++ [lcs, comp.lastCs] := by rw [hl, hlast]
          exact ⟨true, cs, lcs, comp.tstate, _, rfl, (hl' ▸ hring).rotate, hl' ▸ perm_rotate pre lcs comp.lastCs,
            hrefl, hmem, fun _ => hcs⟩
        obtain rfl : z = comp.lastCs := by
          have hends := hring.ends
          rw [hl, show pre ++ lcs :: cs :: (post ++ [z]) = pre ++ lcs :: cs :: post ++ [z] by simp,
            getLast?_concat] at hends
          exact some.inj hends
        have hne : cs ≠ comp.lastCs := by
          have hnd := hring.nodup
          rw [hl, nodup_append, nodup_cons, nodup_cons] at hnd
          rintro rfl
          exact hnd.2.1.2.1 (by simp)
        rw [if_neg hne]
        refine ⟨true, cs, comp.lastCs, _, _, rfl, ?_, hl ▸ perm_moveFront pre (post ++ [comp.lastCs]) lcs cs, ?_,
          hmem, fun _ => hcs⟩
        · have hmove := (hl ▸ hring).moveFront
          rw [← links_setNext, ← links_setNext, ← links_setNext] at hmove
          exact hmove
        · exact ((sameSlots_setNext _ _ _).trans (sameSlots_setNext _ _ _)).trans (sameSlots_setNext _ _ _)

end Slots

/-!
## Both ends of a line

The outputs of the sender reach the receiver in order. `Mirror` ties the two ends together: each slot of the receiver
holds the header of the sender's slot, with the checksum field zero.
-/

section Line

open Lib Option

variable {S m : Memory} {n hlen : Nat} {p : List Byte}

structure Line where
  sender : Vjstruct
  receiver : Vjstruct

def Alloc.ok : Alloc := ⟨true, true⟩

def Line.start (maxslot cslot : Nat) : Line where
  sender := vjsetoutparms vjcompressInit maxslot cslot
  receiver := vjsetinparms vjcompressInit maxslot cslot

/-- The protocol field of the frame tells the type; a packet sent as it is does not pass through `vjuncompress_tcp`. -/
def deliver (comp : Vjstruct) (type : PacketType) (msg : List Byte) : Option (Received × Vjstruct) :=
  match type with
  | .ip => some (.accepted (some msg), comp)
  | type => vjuncompressTcp .ok comp type msg

def transfer (l : Line) (p : List Byte) : Option (Received × Line) :=
  match vjcompressTcp .ok l.sender p with
  | none => none
  | some (type, msg, sender) =>
    match deliver l.receiver type msg with
    | none => none
    | some (r, receiver) => some (r, ⟨sender, receiver⟩)

def run : Line → List (List Byte) → Option (List Received × Line)
  | l, [] => some ([], l)
  | l, p :: ps =>
    match transfer l p with
    | none => none
    | some (r, l) =>
      match run l ps with
      | none => none
      | some (rs, l) => some (r :: rs, l)

/-- The TCP header of a packet lies in the packet, and its reserved bits are zero. -/
structure TcpHeader (p : List Byte) (t : Nat) : Prop where
  complete : t + 20 ≤ p.length
  off : 5 ≤ thOff (ofBytes p) t
  x2 : thX2 (ofBytes p) t = 0
  reserved : thFlags (ofBytes p) t &&& 0xc0 = 0

/-- The packets that the line carries. A header checksum is valid when the sum of the header verifies. -/
structure WellFormed (p : List Byte) : Prop where
  ihl : 5 ≤ ipHl (ofBytes p)
  complete : 4 * ipHl (ofBytes p) ≤ p.length
  length : (ipLen (ofBytes p)).toNat = p.length
  sum : checksum (ofBytes p) (4 * ipHl (ofBytes p)) = 0
  tcp : ipOff (ofBytes p) &&& 0x3fff = 0 → ipP (ofBytes p) = ipprotoTcp → TcpHeader p (4 * ipHl (ofBytes p))

instance (p : List Byte) (t : Nat) : Decidable (TcpHeader p t) :=
  decidable_of_iff (t + 20 ≤ p.length ∧ 5 ≤ thOff (ofBytes p) t ∧ thX2 (ofBytes p) t = 0 ∧
    thFlags (ofBytes p) t &&& 0xc0 = 0) ⟨fun h => ⟨h.1, h.2.1, h.2.2.1, h.2.2.2⟩, fun h => ⟨h.1, h.2, h.3, h.4⟩⟩

instance (p : List Byte) : Decidable (WellFormed p) :=
  decidable_of_iff (5 ≤ ipHl (ofBytes p) ∧ 4 * ipHl (ofBytes p) ≤ p.length ∧ (ipLen (ofBytes p)).toNat = p.length ∧
    checksum (ofBytes p) (4 * ipHl (ofBytes p)) = 0 ∧ (ipOff (ofBytes p) &&& 0x3fff = 0 →
      ipP (ofBytes p) = ipprotoTcp → TcpHeader p (4 * ipHl (ofBytes p))))
    ⟨fun h => ⟨h.1, h.2.1, h.2.2.1, h.2.2.2.1, h.2.2.2.2⟩, fun h => ⟨h.1, h.2, h.3, h.4, h.5⟩⟩

/-- The packet clears the urgent bit of the saved header and differs from it otherwise as a special mask says, which
tells of new data. -/
def StaleUrg (S m : Memory) : Prop :=
  let t := 4 * ipHl m
  let data := lastData S (t + 4 * thOff m t)
  ¬changedElsewhere m S ∧ thFlags S t &&& flagUrg ≠ 0 ∧ ¬thFlags m t &&& flagUrg ≠ 0 ∧ thUrp m t = thUrp S t ∧
    thWin m t = thWin S t ∧ thSeq m t ≠ thSeq S t ∧ thSeq m t - thSeq S t = data ∧
    (thAck m t = thAck S t ∨ thAck m t - thAck S t = data)

instance (S m : Memory) : Decidable (StaleUrg S m) :=
  inferInstanceAs (Decidable (¬_ ∧ _ ∧ _ ∧ _ ∧ _ ∧ _ ∧ _ ∧ (_ ∨ _)))

/-- The packet is sent compressed, and clears the urgent bit of its slot without telling or has the checksum 0xffff. -/
def Distorts (comp : Vjstruct) (p : List Byte) : Prop :=
  (vjcompressTcp .ok comp p).map Prod.fst = some .compressedTcp ∧
    (ipSum (ofBytes p) = 0xffff ∨
      (locate comp (ofBytes p)).any fun (_, cs, comp) => StaleUrg (comp.tstate cs).hdr (ofBytes p))

instance (comp : Vjstruct) (p : List Byte) : Decidable (Distorts comp p) :=
  inferInstanceAs (Decidable (_ ∧ (_ ∨ _)))

structure Kept (h : Memory) (hlen : Nat) : Prop where
  ihl : 5 ≤ ipHl h
  off : 5 ≤ thOff h (4 * ipHl h)
  x2 : thX2 h (4 * ipHl h) = 0
  flags : FlagsPlain (thFlags h (4 * ipHl h))
  size : hlen = 4 * ipHl h + 4 * thOff h (4 * ipHl h)

structure Mirror (n : Nat) (l : Line) : Prop where
  bound : n ≤ maxStates
  ring : ∃ order, Ring (links l.sender.tstate) l.sender.lastCs order ∧ order.Perm (List.range n)
  slots : l.receiver.maxslotin = n
  ids : ∀ i, i < n → (l.sender.tstate i).id = BitVec.ofNat 8 i
  saved : ∀ i, i < n → (l.receiver.rstate i).hdr = zeroSum (l.sender.tstate i).hdr
  kept : ∀ i, i < n → (l.sender.tstate i).hdr 0 = 0 ∨ Kept (l.sender.tstate i).hdr (l.receiver.rstate i).hlen
  last : l.sender.lastXmit = 255 ∨ (l.receiver.lastRecv = l.sender.lastXmit ∧ l.receiver.toss = false)

lemma TcpHeader.kept {t : Nat} (h : TcpHeader p t) (ht : t = 4 * ipHl (ofBytes p)) (hihl : 5 ≤ ipHl (ofBytes p))
    (hflags : thFlags (ofBytes p) t &&& (flagSyn ||| flagFin ||| flagRst ||| flagAck) = flagAck) :
    Kept (ofBytes p) (t + 4 * thOff (ofBytes p) t) := by
  subst ht
  exact ⟨hihl, h.off, h.x2, ⟨hflags, h.reserved⟩, rfl⟩

lemma Kept.bounds (h : Kept m hlen) : 20 ≤ 4 * ipHl m ∧ 4 * ipHl m + 20 ≤ hlen ∧ hlen ≤ 120 := by
  have hihl := h.ihl
  have hoff := h.off
  have hsize := h.size
  have hhl : ipHl m < 16 := Nat.mod_lt _ (by omega)
  have hlt : thOff m (4 * ipHl m) < 16 := by
    unfold thOff
    omega
  omega

lemma Kept.copy (h : Kept m hlen) (S : Memory) : Kept (copyBytes hlen m S) hlen := by
  obtain ⟨h0, h1, -⟩ := h.bounds
  have hcopy : ∀ i, i < hlen → copyBytes hlen m S i = m i := fun i hi => if_pos hi
  have hhl : ipHl (copyBytes hlen m S) = ipHl m := by
    rw [ipHl, hcopy 0 (by omega)]
    rfl
  obtain ⟨hihl, hoff, hx2, hflags, hsize⟩ := h
  have hoffByte := hcopy (4 * ipHl m + 12) (by omega)
  refine ⟨?_, ?_, ?_, ?_, ?_⟩
  · rw [hhl]
    exact hihl
  · rw [hhl, thOff, hoffByte]
    exact hoff
  · rw [hhl, thX2, hoffByte]
    exact hx2
  · rw [hhl, thFlags, hcopy _ (by omega)]
    exact hflags
  · rw [hhl, thOff, hoffByte]
    exact hsize

lemma byte_eq_of_nibbles {b c : Byte} (hhi : b.toNat / 16 = c.toNat / 16) (hlo : b.toNat % 16 = c.toNat % 16) :
    b = c := by
  apply BitVec.eq_of_toNat_eq
  omega

lemma Kept.follows {k : Nat} (hm : Kept m hlen) (hS : S 0 = 0 ∨ Kept S k) (hsame : sameConnection m S)
    (hne : ¬changedElsewhere m S) : Follows S m (4 * ipHl m) hlen ∧ k = hlen := by
  simp only [changedElsewhere, not_or, not_not, not_and] at hne
  obtain ⟨h0, h6, h8, hoff, hipopt, hthopt⟩ := hne
  obtain ⟨hsrc, hdst, hports⟩ := hsame
  have hfirst : m 0 = S 0 := (half_eq_iff.mp h0).1
  have hhl : ipHl m = ipHl S := by rw [ipHl, ipHl, hfirst]
  obtain hzero | hk := hS
  · have := hm.ihl
    rw [ipHl, hfirst, hzero] at this
    exact absurd this (by decide)
  have hx2 : thX2 m (4 * ipHl m) = thX2 S (4 * ipHl m) := by
    rw [hm.x2, hhl, hk.x2]
  have hsize := hm.size
  refine ⟨⟨rfl, hm.size, hm.ihl, hm.off, ?_, hm.flags, ?_⟩, ?_⟩
  · intro i hi hv
    unfold Varies at hv
    obtain rfl | rfl | rfl | rfl | rfl | rfl | hi | hi | hi | hi | rfl | hi : i = 0 ∨ i = 1 ∨ i = 6 ∨ i = 7 ∨ i = 8 ∨
        i = 9 ∨ (12 ≤ i ∧ i < 12 + 4) ∨ (16 ≤ i ∧ i < 16 + 4) ∨ (20 ≤ i ∧ i < 4 * ipHl m) ∨
        (4 * ipHl m ≤ i ∧ i < 4 * ipHl m + 4) ∨ i = 4 * ipHl m + 12 ∨ 4 * ipHl m + 20 ≤ i := by omega
    · exact hfirst.symm
    · exact (half_eq_iff.mp h0).2.symm
    · exact (half_eq_iff.mp h6).1.symm
    · exact (half_eq_iff.mp h6).2.symm
    · exact (half_eq_iff.mp h8).1.symm
    · exact (half_eq_iff.mp h8).2.symm
    · obtain ⟨j, rfl⟩ := Nat.exists_eq_add_of_le hi.1
      exact (byte_of_word_eq hsrc (by omega)).symm
    · obtain ⟨j, rfl⟩ := Nat.exists_eq_add_of_le hi.1
      exact (byte_of_word_eq hdst (by omega)).symm
    · obtain ⟨j, rfl⟩ := Nat.exists_eq_add_of_le hi.1
      have hopt := hipopt (by omega)
      unfold bcmp at hopt
      by_contra hdiff
      exact hopt ⟨j, by omega, fun heq => hdiff heq.symm⟩
    · obtain ⟨j, rfl⟩ := Nat.exists_eq_add_of_le hi.1
      rw [← hhl] at hports
      exact (byte_of_word_eq hports (by omega)).symm
    · exact (byte_eq_of_nibbles hoff hx2).symm
    · obtain ⟨j, rfl⟩ := Nat.exists_eq_add_of_le hi
      have hopt := hthopt (by omega)
      unfold bcmp at hopt
      by_contra hdiff
      exact hopt ⟨j, by omega, fun heq => hdiff heq.symm⟩
  · rw [hhl]
    exact hk.flags
  · rw [hk.size, hm.size, hoff, hhl]

theorem Follows.keepsUrg {changes : Byte} {newSeq : List Byte} (h : Follows S m (4 * ipHl m) hlen)
    (hne : ¬changedElsewhere m S) (he : encodeChanges m S hlen = some (changes, newSeq)) (hstale : ¬StaleUrg S m) :
    KeepsUrg S m (4 * ipHl m) changes := by
  have hclear : ∀ b : Bool × List Byte, encodeUrp m S (4 * ipHl m) = some b → b.1 = false →
      ¬thFlags m (4 * ipHl m) &&& flagUrg ≠ 0 := by
    intro b hb hb' hurg
    rw [encodeUrp, if_pos hurg] at hb
    rw [← some.inj hb] at hb'
    exact Bool.false_ne_true hb'.symm
  have hsize := h.size
  intro hspecial
  obtain ⟨P, ⟨-, -, hI, hD⟩ | ⟨-, -, hu, hw, hA, hS, hs⟩ | ⟨-, -, hu, hw, ha, hS, hs⟩⟩ := encodeChanges_cases rfl he
  · exact absurd hspecial (not_or.mpr ⟨hI, hD⟩)
  · have hm := hclear _ P.urpSent hu
    refine ⟨fun hold => absurd ?_ hstale, fun hnew => absurd hnew hm⟩
    exact ⟨hne, hold, hm, encodeUrp_unsent P.urpSent hu, encodeWin_unsent (P.winSent ▸ hw),
      encodeLong_sent P.seqSent hs, hsize ▸ hS, .inr (hsize ▸ hA)⟩
  · have hm := hclear _ P.urpSent hu
    have hack := ((decodel_encodeLong (r := []) P.ackSent).2 ha).2
    refine ⟨fun hold => absurd ?_ hstale, fun hnew => absurd hnew hm⟩
    exact ⟨hne, hold, hm, encodeUrp_unsent P.urpSent hu, encodeWin_unsent (P.winSent ▸ hw),
      encodeLong_sent P.seqSent hs, hsize ▸ hS, .inl hack.symm⟩

end Line

end Solaris.Vj
