import Solaris.Blocks.Message

/-!
# Trimming a message

`adjmsg` takes bytes off the front or off the back of the leading blocks and frees the blocks that it empties, but the first
one. Its lengths are numbers of 32 bits with a sign, and `-len` may wrap.
-/

namespace Solaris.Blocks

open List Int

/-- A pointer moved by an `int`. -/
def shift (p : Nat) (n : Int) : Nat := ((p + n) % 2 ^ 32).toNat

/-- `-len` of a `ssize_t`. -/
def negate (len : Int) : Int := (-len).bmod (2 ^ 32)

/-- The difference of the pointers, an `int`. -/
def length (b : Mblk) : Int := (b.bWptr : Int) - b.bRptr

/-- The loop from the head: `mp` and the blocks behind it. The end of the message with bytes left over is a null pointer
followed. -/
def adjHead (h : Heap) : Bool → List Mblk → Int → Option (Heap × List Mblk)
  | _, [], len => if len = 0 then some (h, []) else none
  | first, mp :: rest, len =>
    if len = 0 then some (h, mp :: rest)
    else
      let n := min (length mp) len
      let mp := { mp with bRptr := shift mp.bRptr n }
      if first = false ∧ mp.bWptr = mp.bRptr then
        match freeb h mp with
        | none => none
        | some (_, h) => adjHead h false rest (len - n)
      else (adjHead h false rest (len - n)).map fun (h, l) => (h, mp :: l)

/-- The loop from the tail, which begins at the front each time. -/
def adjTail (type : Option (BitVec 8)) (h : Heap) : Nat → List Mblk → Int → Option (Heap × List Mblk)
  | 0, _, _ => none
  | fuel + 1, m, len =>
    if len = 0 then some (h, m)
    else
      let run := m.takeWhile fun b => typeOf h b = type
      let rest := m.dropWhile fun b => typeOf h b = type
      match run.getLast? with
      | none => some (h, m)
      | some saveBp =>
        let n := min (length saveBp) len
        let saveBp := { saveBp with bWptr := shift saveBp.bWptr (-n) }
        -- the first block stays
        if run.length ≠ 1 ∧ saveBp.bWptr = saveBp.bRptr then
          match freeb h saveBp with
          | none => none
          | some (_, h) => adjTail type h fuel (run.dropLast ++ rest) (len - n)
        else adjTail type h fuel (run.dropLast ++ saveBp :: rest) (len - n)

/-- `xmsgsize(mp) < len` compares unsigned numbers. Every turn of the loop from the tail but the last one frees a block. -/
def adjmsg (h : Heap) (m : List Mblk) (len : Int) : Option (Nat × Heap × List Mblk) :=
  let len' := if len < 0 then negate len else len
  if xmsgsize h m < (len' % 2 ^ 32).toNat then some (0, h, m)
  else if len < 0 then
    (adjTail (m.head?.bind (typeOf h)) h (m.length + 1) m len').map fun (h, m) => (1, h, m)
  else (adjHead h true m len').map fun (h, m) => (1, h, m)

def trimmed (len : Int) (l : List UInt8) : List UInt8 :=
  if len < 0 then l.take (l.length - len.natAbs) else l.drop len.natAbs

/-- `adjmsg` refuses a length beyond the leading bytes, and trims by any other one. -/
def AdjustsExactly (h : Heap) (m : List Mblk) (len : Int) : Prop :=
  if (leadingBytes h m).length < len.natAbs then adjmsg h m len = some (0, h, m)
  else ∃ h' m', adjmsg h m len = some (1, h', m') ∧ Counted h' m' ∧ leadingBytes h' m' = trimmed len (leadingBytes h m) ∧
    others h' m' = others h m ∧ ∀ b ∈ others h m, view h' b = view h b

variable {h h' : Heap} {b mp : Mblk} {m m' run rest frame : List Mblk} {t : Option (BitVec 8)} {n fuel : Nat} {first : Bool}

lemma WellFormed.length_eq (hw : WellFormed b) : length b = size b := by
  have := hw.order
  unfold length size
  omega

lemma shift_forward (hw : WellFormed b) (hn : n ≤ size b) : shift b.bRptr n = b.bRptr + n := by
  have := hw.order
  have := hw.below
  unfold size at hn
  unfold shift
  omega

lemma shift_back (hw : WellFormed b) (hn : n ≤ size b) : shift b.bWptr (-n) = b.bWptr - n := by
  have := hw.below
  unfold size at hn
  unfold shift
  omega

lemma Counted.map_rptr {p : Nat} (hc : Counted h (mp :: m)) : Counted h ({ mp with bRptr := p } :: m) :=
  hc.congr rfl

lemma Counted.map_wptr {p : Nat} (hc : Counted h (mp :: m)) : Counted h ({ mp with bWptr := p } :: m) :=
  hc.congr rfl

lemma adjHead_zero (first : Bool) (m : List Mblk) : adjHead h first m 0 = some (h, m) := by
  cases m with
  | nil =>
    unfold adjHead
    rfl
  | cons mp m =>
    unfold adjHead
    rfl

theorem adjHead_spec (hc : Counted h (run ++ frame)) (hw : ∀ b ∈ run, WellFormed b) (ht : ∀ b ∈ run, typeOf h b = t)
    (hn : n ≤ (run.flatMap (bytes h)).length) :
    ∃ h' run', adjHead h first (run ++ rest) n = some (h', run' ++ rest) ∧ Counted h' (run' ++ frame) ∧
      run'.flatMap (bytes h') = (run.flatMap (bytes h)).drop n ∧ (∀ b ∈ run', typeOf h' b = t) ∧
      (first = true → run ≠ [] → run' ≠ []) ∧ ∀ b ∈ frame, view h' b = view h b := by
  induction run generalizing h n first frame with
  | nil =>
    obtain rfl : n = 0 := Nat.le_zero.mp hn
    exact ⟨h, [], adjHead_zero first rest, hc, rfl, by simp, fun _ hno => absurd rfl hno, fun _ _ => rfl⟩
  | cons mp run ih =>
    obtain ⟨hwmp, hwrun⟩ := forall_mem_cons.mp hw
    obtain ⟨htmp, htrun⟩ := forall_mem_cons.mp ht
    have hsome : (h mp.bDatap).isSome := hc.isSome (by simp)
    have hlen := bytes_length hsome
    rw [flatMap_cons, length_append, hlen] at hn
    by_cases hzero : n = 0
    · subst hzero
      exact ⟨h, mp :: run, adjHead_zero first _, hc, rfl, ht, fun _ _ => by simp, fun _ _ => rfl⟩
    rw [cons_append]
    unfold adjHead
    rw [if_neg (by omega), hwmp.length_eq]
    dsimp only
    by_cases hall : size mp ≤ n
    · -- the block is emptied
      have hmin : min (size mp : Int) n = (size mp : Nat) := by omega
      have hsub : (n : Int) - (size mp : Nat) = ((n - size mp : Nat) : Int) := by omega
      have hend : mp.bWptr = mp.bRptr + size mp := by
        have := hwmp.order
        unfold size
        omega
      have hnone : (bytes h mp).drop n = [] := drop_eq_nil_of_le (hlen.le.trans hall)
      have hempty : (bytes h mp).drop (size mp) = [] := drop_eq_nil_of_le hlen.le
      rw [hmin, hsub, shift_forward hwmp le_rfl]
      cases first with
      | false =>
        rw [if_pos ⟨rfl, hend⟩]
        obtain ⟨e, h1, hfree, hc1, hview⟩ := freeb_counted (hc.map_rptr (p := mp.bRptr + size mp))
        rw [hfree]
        have hbytes : run.flatMap (bytes h1) = run.flatMap (bytes h) :=
          flatMap_view fun b hb => hview b (mem_append_left _ hb)
        obtain ⟨h', run', hres, hc', hdrop, ht', _, hframe⟩ := ih (h := h1) (n := n - size mp) hc1 hwrun
          (fun b hb => by rw [typeOf_view (hview b (mem_append_left _ hb)), htrun b hb]) (by rw [hbytes]; omega)
        refine ⟨h', run', hres, hc', ?_, ht', fun hno => absurd hno (by simp), ?_⟩
        · rw [hdrop, hbytes, flatMap_cons, drop_append, hlen, hnone, nil_append]
        · intro b hb
          rw [hframe b hb, hview b (mem_append_right _ hb)]
      | true =>
        have hc1 : Counted h (run ++ { mp with bRptr := mp.bRptr + size mp } :: frame) :=
          (hc.map_rptr (p := mp.bRptr + size mp)).perm perm_middle.symm
        obtain ⟨h', run', hres, hc', hdrop, ht', _, hframe⟩ := ih (n := n - size mp) hc1 hwrun htrun (by omega)
        have hmp := hframe _ mem_cons_self
        rw [hres]
        refine ⟨h', { mp with bRptr := mp.bRptr + size mp } :: run', rfl, hc'.perm perm_middle, ?_, ?_,
          fun _ _ => by simp, fun b hb => hframe b (mem_cons_of_mem _ hb)⟩
        · rw [flatMap_cons, hdrop, bytes_view hmp, bytes_forward, flatMap_cons, drop_append, hlen, hnone,
            hempty]
        · refine forall_mem_cons.mpr ⟨?_, ht'⟩
          rw [typeOf_view hmp]
          exact htmp
    · -- the block holds more than is asked for
      have hmin : min (size mp : Int) n = (n : Nat) := by omega
      rw [hmin, shift_forward hwmp (by omega), if_neg, sub_self, adjHead_zero]
      · refine ⟨h, { mp with bRptr := mp.bRptr + n } :: run, rfl, hc.map_rptr, ?_, ?_, fun _ _ => by simp, fun _ _ => rfl⟩
        · rw [flatMap_cons, bytes_forward, flatMap_cons, drop_append, hlen,
            Nat.sub_eq_zero_of_le (by omega), drop_zero]
        · exact forall_mem_cons.mpr ⟨htmp, htrun⟩
      · rintro ⟨_, hend⟩
        unfold size at hall
        omega

lemma adjTail_zero (type : Option (BitVec 8)) (h : Heap) (fuel : Nat) (m : List Mblk) :
    adjTail type h (fuel + 1) m 0 = some (h, m) := by
  unfold adjTail
  rfl

lemma adjTail_turn (fuel : Nat) {pre : List Mblk} {len : Int} (ht : ∀ b ∈ pre ++ [mp], typeOf h b = t)
    (hrest : ∀ b, rest.head? = some b → typeOf h b ≠ t) (hlen : len ≠ 0) :
    adjTail t h (fuel + 1) (pre ++ [mp] ++ rest) len =
      if pre ≠ [] ∧ shift mp.bWptr (-(min (length mp) len)) = mp.bRptr then
        match freeb h { mp with bWptr := shift mp.bWptr (-(min (length mp) len)) } with
        | none => none
        | some (_, h) => adjTail t h fuel (pre ++ rest) (len - min (length mp) len)
      else adjTail t h fuel (pre ++ { mp with bWptr := shift mp.bWptr (-(min (length mp) len)) } :: rest)
        (len - min (length mp) len) := by
  obtain ⟨htake, hdrop⟩ := takeWhile_run ht hrest
  have hone : (pre ++ [mp]).length ≠ 1 ↔ pre ≠ [] := by
    cases pre <;> simp
  conv_lhs => unfold adjTail
  rw [if_neg hlen, htake, hdrop]
  dsimp only
  rw [getLast?_concat]
  rw [dropLast_concat]
  simp only [hone]

lemma adjTail_spec (hc : Counted h (run ++ rest)) (hw : ∀ b ∈ run, WellFormed b) (hne : run ≠ [])
    (ht : ∀ b ∈ run, typeOf h b = t) (hrest : ∀ b, rest.head? = some b → typeOf h b ≠ t)
    (hn : n ≤ (run.flatMap (bytes h)).length) (hfuel : run.length < fuel) :
    ∃ h' run', adjTail t h fuel (run ++ rest) n = some (h', run' ++ rest) ∧ Counted h' (run' ++ rest) ∧
      run'.flatMap (bytes h') = (run.flatMap (bytes h)).take ((run.flatMap (bytes h)).length - n) ∧
      (∀ b ∈ run', typeOf h' b = t) ∧ run' ≠ [] ∧ ∀ b ∈ rest, view h' b = view h b := by
  induction fuel generalizing h n run with
  | zero => omega
  | succ fuel ih =>
    by_cases hzero : n = 0
    · subst hzero
      refine ⟨h, run, adjTail_zero .., hc, ?_, ht, hne, fun _ _ => rfl⟩
      rw [Nat.sub_zero, take_length]
    obtain ⟨pre, mp, rfl⟩ := (eq_nil_or_concat' run).resolve_left hne
    have hwmp : WellFormed mp := hw mp (by simp)
    have htmp : typeOf h mp = t := ht mp (by simp)
    have hsome : (h mp.bDatap).isSome := hc.isSome (by simp)
    have hlen := bytes_length hsome
    have hflat : (pre ++ [mp]).flatMap (bytes h) = pre.flatMap (bytes h) ++ bytes h mp := by simp
    rw [hflat, length_append, hlen] at hn
    rw [hflat, length_append, hlen, adjTail_turn fuel ht hrest (by omega), hwmp.length_eq]
    rw [length_append, length_singleton] at hfuel
    by_cases hall : size mp ≤ n
    · have hmin : min (size mp : Int) n = (size mp : Nat) := by omega
      have hsub : (n : Int) - (size mp : Nat) = ((n - size mp : Nat) : Int) := by omega
      have hend : mp.bWptr - size mp = mp.bRptr := by
        have := hwmp.order
        unfold size
        omega
      rw [hmin, hsub, shift_back hwmp le_rfl]
      by_cases hpre : pre = []
      · -- the first block is emptied and stays
        subst hpre
        rw [flatMap_nil, length_nil] at hn
        obtain rfl : n = size mp := by omega
        rw [if_neg (fun hno => hno.1 rfl), Nat.sub_self]
        obtain ⟨fuel, rfl⟩ : ∃ k, fuel = k + 1 := ⟨fuel - 1, by rw [length_nil] at hfuel; omega⟩
        refine ⟨h, [{ mp with bWptr := mp.bWptr - size mp }], adjTail_zero .., hc.congr (by simp), ?_, ?_, by simp,
          fun _ _ => rfl⟩
        · rw [flatMap_singleton, bytes_back, flatMap_nil, nil_append, length_nil, Nat.zero_add]
        · intro b hb
          rw [mem_singleton] at hb
          subst hb
          exact htmp
      · rw [if_pos ⟨hpre, hend⟩]
        have hc1 : Counted h ({ mp with bWptr := mp.bWptr - size mp } :: (pre ++ rest)) := by
          have hperm : (pre ++ [mp] ++ rest).Perm (mp :: (pre ++ rest)) := by
            rw [append_assoc]
            exact perm_middle
          exact (hc.perm hperm).map_wptr
        obtain ⟨e, h1, hfree, hc2, hview⟩ := freeb_counted hc1
        rw [hfree]
        have hbytes : pre.flatMap (bytes h1) = pre.flatMap (bytes h) :=
          flatMap_view fun b hb => hview b (mem_append_left _ hb)
        obtain ⟨h', run', hres, hc', htake, ht', hne', hrest'⟩ := ih (n := n - size mp) hc2
          (fun b hb => hw b (mem_append_left _ hb)) hpre
          (fun b hb => by rw [typeOf_view (hview b (mem_append_left _ hb)), ht b (mem_append_left _ hb)])
          (fun b hb => by rw [typeOf_view (hview b (mem_append_right _ (mem_of_head? hb)))]; exact hrest b hb)
          (by rw [hbytes]; omega) (by omega)
        refine ⟨h', run', hres, hc', ?_, ht', hne', ?_⟩
        · rw [htake, hbytes, take_append_of_le_length (by omega)]
          congr 1
          omega
        · intro b hb
          rw [hrest' b hb, hview b (mem_append_right _ hb)]
    · -- the block holds more than is asked for
      have hmin : min (size mp : Int) n = (n : Nat) := by omega
      rw [hmin, shift_back hwmp (by omega), if_neg, sub_self]
      · obtain ⟨fuel, rfl⟩ : ∃ k, fuel = k + 1 := ⟨fuel - 1, by omega⟩
        refine ⟨h, pre ++ [{ mp with bWptr := mp.bWptr - n }], ?_, hc.congr (by simp), ?_, ?_, by simp, fun _ _ => rfl⟩
        · rw [adjTail_zero, append_assoc]
          rfl
        · have hflat' : (pre ++ [{ mp with bWptr := mp.bWptr - n }]).flatMap (bytes h) =
              pre.flatMap (bytes h) ++ (bytes h mp).take (size mp - n) := by
            rw [flatMap_append, flatMap_singleton, bytes_back]
          have hle : (pre.flatMap (bytes h)).length ≤ (pre.flatMap (bytes h)).length + size mp - n := by omega
          have hrem : (pre.flatMap (bytes h)).length + size mp - n - (pre.flatMap (bytes h)).length = size mp - n := by
            omega
          rw [hflat', take_append, take_of_length_le hle, hrem]
        · exact forall_mem_append.mpr ⟨fun b hb => ht b (mem_append_left _ hb), forall_mem_singleton.mpr htmp⟩
      · rintro ⟨_, hend⟩
        unfold size at hall
        omega

variable {len : Int}

lemma negate_eq (hlo : -2 ^ 31 < len) (hneg : len < 0) : negate len = len.natAbs := by
  unfold negate
  rw [bmod_eq_of_le (by omega) (by omega)]
  omega

lemma negate_min : negate (-2 ^ 31) = -2 ^ 31 := by decide

lemma adjmsg_test (hlo : -2 ^ 31 ≤ len) (hhi : len < 2 ^ 31) :
    ((if len < 0 then negate len else len) % 2 ^ 32).toNat = len.natAbs := by
  by_cases hmin : len = -2 ^ 31
  · subst hmin
    decide
  · by_cases hneg : len < 0
    · rw [if_pos hneg, negate_eq (by omega) hneg, emod_eq_of_lt (by omega) (by omega)]
      omega
    · rw [if_neg hneg, emod_eq_of_lt (by omega) (by omega)]
      omega

lemma leading_kept (hne : run ≠ []) (ht : ∀ b ∈ run, typeOf h' b = m.head?.bind (typeOf h))
    (hview : ∀ b ∈ others h m, view h' b = view h b) :
    leadingBytes h' (run ++ others h m) = run.flatMap (bytes h') ∧ others h' (run ++ others h m) = others h m := by
  have hrest : ∀ b, (others h m).head? = some b → typeOf h' b ≠ m.head?.bind (typeOf h) := by
    intro b hb
    rw [typeOf_view (hview b (mem_of_head? hb))]
    exact others_head hb
  obtain ⟨hlead, hothers⟩ := leading_split ht hne hrest
  refine ⟨?_, hothers⟩
  unfold leadingBytes
  rw [hlead]

lemma adjmsg_exact (hne : m ≠ []) (hc : Counted h m) (hw : ∀ b ∈ m, WellFormed b) (hlo : -2 ^ 31 ≤ len)
    (hhi : len < 2 ^ 31) (hsize : xmsgsize h m = (leadingBytes h m).length)
    (hmin : ¬(len = -2 ^ 31 ∧ 2 ^ 31 ≤ (leadingBytes h m).length)) : AdjustsExactly h m len := by
  have htest := adjmsg_test hlo hhi
  unfold AdjustsExactly
  split_ifs with hshort
  · unfold adjmsg
    dsimp only
    rw [htest, if_pos (by omega)]
  have hm := leading_append_others h m
  have hcm : Counted h (leading h m ++ others h m) := by rwa [hm]
  have hwl : ∀ b ∈ leading h m, WellFormed b := fun b hb => hw b (hm ▸ mem_append_left _ hb)
  have htl : ∀ b ∈ leading h m, typeOf h b = m.head?.bind (typeOf h) := fun b hb => leading_type hb
  have hnl := leading_ne_nil (h := h) hne
  have hle : len.natAbs ≤ ((leading h m).flatMap (bytes h)).length := Nat.not_lt.mp hshort
  unfold adjmsg
  dsimp only
  rw [htest, if_neg (by omega)]
  by_cases hneg : len < 0
  · have hfuel : (leading h m).length < m.length + 1 := by
      have := congrArg List.length hm
      rw [length_append] at this
      omega
    have hlen : negate len = len.natAbs := negate_eq (by omega) hneg
    obtain ⟨h', run', hres, hc', htake, ht', hne', hview⟩ :=
      adjTail_spec hcm hwl hnl htl (fun b hb => others_head hb) hle hfuel
    obtain ⟨hbytes, hothers⟩ := leading_kept hne' ht' hview
    rw [hm] at hres
    rw [if_pos hneg, if_pos hneg, hlen, hres]
    refine ⟨h', _, rfl, hc', ?_, hothers, hview⟩
    rw [hbytes, htake, trimmed, if_pos hneg]
    rfl
  · have hlen : len = len.natAbs := by omega
    obtain ⟨h', run', hres, hc', hdrop, ht', hne', hview⟩ :=
      adjHead_spec hcm hwl htl hle
    obtain ⟨hbytes, hothers⟩ := leading_kept (hne' rfl hnl) ht' hview
    rw [hm, ← hlen] at hres
    rw [if_neg hneg, if_neg hneg, hres]
    refine ⟨h', _, rfl, hc', ?_, hothers, hview⟩
    rw [hbytes, hdrop, trimmed, if_neg hneg]
    rfl

/-- The smallest length stays negative, and moves the last write pointer by half of the address space. -/
theorem adjmsg_min (hne : m ≠ []) (hc : Counted h m) (hw : ∀ b ∈ m, WellFormed b)
    (hsize : xmsgsize h m = (leadingBytes h m).length) (hlong : 2 ^ 31 ≤ (leadingBytes h m).length) :
    ¬AdjustsExactly h m (-2 ^ 31) := by
  have hm := leading_append_others h m
  obtain ⟨pre, mp, hlead⟩ := (eq_nil_or_concat' (leading h m)).resolve_left (leading_ne_nil hne)
  have hwmp : WellFormed mp := hw mp (hm ▸ mem_append_left _ (by simp [hlead]))
  have hsome : (h mp.bDatap).isSome := hc.isSome (hm ▸ mem_append_left _ (by simp [hlead]))
  have htl : ∀ b ∈ pre ++ [mp], typeOf h b = m.head?.bind (typeOf h) := fun b hb => leading_type (hlead ▸ hb)
  have hshort := hwmp.short
  have horder := hwmp.order
  have hbytes : leadingBytes h m = pre.flatMap (bytes h) ++ bytes h mp := by
    unfold leadingBytes
    rw [hlead, flatMap_append, flatMap_singleton]
  have hmin : min (length mp) (-2 ^ 31) = -2 ^ 31 := by
    unfold length
    omega
  have hkept : shift mp.bWptr (-(-2 ^ 31)) ≠ mp.bRptr := by
    unfold shift
    omega
  have hres : adjmsg h m (-2 ^ 31) = some (1, h, pre ++ { mp with bWptr := shift mp.bWptr (-(-2 ^ 31)) } :: others h m) := by
    have htest := adjmsg_test le_rfl (by decide)
    have hturn := adjTail_turn m.length htl (fun b hb => others_head hb) (show (-2 ^ 31 : Int) ≠ 0 by decide)
    rw [← hlead, hm, hmin, if_neg (fun hno => hkept hno.2), sub_self] at hturn
    obtain ⟨k, hk⟩ : ∃ k, m.length = k + 1 := ⟨m.length - 1, by have := length_pos_of_ne_nil hne; omega⟩
    rw [hk, adjTail_zero, ← hk] at hturn
    unfold adjmsg
    dsimp only
    rw [htest, if_neg (by omega), if_pos (by decide), if_pos (by decide), negate_min, hturn]
    rfl
  unfold AdjustsExactly
  rw [if_neg (by omega)]
  rintro ⟨h', m', hres', _, htrim, _⟩
  rw [hres] at hres'
  obtain ⟨rfl, rfl⟩ := Prod.mk.inj (Prod.mk.inj (Option.some.inj hres')).2
  have hmoved : ∀ p, leadingBytes h (pre ++ { mp with bWptr := p } :: others h m) =
      (pre ++ [{ mp with bWptr := p }]).flatMap (bytes h) := by
    intro p
    have ht : ∀ b ∈ pre ++ [{ mp with bWptr := p }], typeOf h b = m.head?.bind (typeOf h) :=
      forall_mem_append.mpr ⟨fun b hb => htl b (mem_append_left _ hb), forall_mem_singleton.mpr (htl mp (by simp))⟩
    have hsplit := (leading_kept (by simp) ht fun _ _ => rfl).1
    rwa [append_assoc, singleton_append] at hsplit
  have hcount := congrArg List.length htrim
  rw [hmoved, trimmed, if_pos (by decide), length_take, flatMap_append, length_append] at hcount
  have hlen := bytes_length hsome
  have htotal := congrArg List.length hbytes
  rw [length_append, hlen] at htotal
  unfold size at htotal
  omega

/-- `adjmsg` is exact but for the smallest length and half of the address space. -/
theorem adjmsg_exact_iff (hne : m ≠ []) (hc : Counted h m) (hw : ∀ b ∈ m, WellFormed b) (hlo : -2 ^ 31 ≤ len)
    (hhi : len < 2 ^ 31) (hsize : xmsgsize h m = (leadingBytes h m).length) :
    AdjustsExactly h m len ↔ ¬(len = -2 ^ 31 ∧ 2 ^ 31 ≤ (leadingBytes h m).length) := by
  refine ⟨?_, adjmsg_exact hne hc hw hlo hhi hsize⟩
  rintro hexact ⟨rfl, hlong⟩
  exact adjmsg_min hne hc hw hsize hlong hexact

/-- Ten bytes and thirty bytes of the data block that `esballoca` has made. -/
def sampleMessage : List Mblk := [⟨51, 7, 1000, 1010, 0, 0⟩, ⟨50, 7, 1020, 1050, 0, 0⟩]

lemma sampleMessage_counted : Counted sampleState.heap sampleMessage := by
  intro b hb
  have hd : b.bDatap = 7 := by
    revert b
    decide
  rw [hd]
  exact ⟨_, rfl, by decide, .inl rfl⟩

theorem adjmsg_exact_iff_sample : AdjustsExactly sampleState.heap sampleMessage (-35) ↔
    ¬((-35 : Int) = -2 ^ 31 ∧ 2 ^ 31 ≤ (leadingBytes sampleState.heap sampleMessage).length) :=
  adjmsg_exact_iff (by decide) sampleMessage_counted
    (fun b hb => by revert b; exact forall_mem_cons.mpr ⟨⟨by decide, by decide, by decide⟩,
      forall_mem_singleton.mpr ⟨by decide, by decide, by decide⟩⟩)
    (by decide) (by decide) (by decide +kernel)

def sharedHeap : Heap := Function.update (fun _ => none) 7
  (some ⟨none, 0xe8000000, 0xe9000000, 128, M_DATA, 0, 100, .dblkDecref, .freebsEnqueue, fun _ => 0⟩)

def sharedMessage : List Mblk := (List.range 128).map fun i => ⟨100 + i, 7, 0xe8000000, 0xe9000000, 0, 0⟩

/-- `adjmsg(mp, -2147483648)` on a message of that many bytes. -/
theorem adjmsg_not_exact : sharedMessage ≠ [] ∧ Counted sharedHeap sharedMessage ∧ (∀ b ∈ sharedMessage, WellFormed b) ∧
    xmsgsize sharedHeap sharedMessage = (leadingBytes sharedHeap sharedMessage).length ∧
    ¬AdjustsExactly sharedHeap sharedMessage (-2 ^ 31) := by
  have hall : ∀ b ∈ sharedMessage, b.bDatap = 7 ∧ b.bRptr = 0xe8000000 ∧ b.bWptr = 0xe9000000 := by
    intro b hb
    obtain ⟨i, _, rfl⟩ := mem_map.mp hb
    exact ⟨rfl, rfl, rfl⟩
  have hne : sharedMessage ≠ [] := by decide
  have hc : Counted sharedHeap sharedMessage := by
    intro b hb
    rw [(hall b hb).1]
    exact ⟨_, rfl, by decide +kernel, .inl rfl⟩
  have hw : ∀ b ∈ sharedMessage, WellFormed b := by
    intro b hb
    obtain ⟨_, hr, hw⟩ := hall b hb
    constructor <;> omega
  have hsome : ∀ b ∈ sharedMessage, (sharedHeap b.bDatap).isSome := fun b hb => hc.isSome hb
  have hlen : (leadingBytes sharedHeap sharedMessage).length = 2 ^ 31 := by
    rw [leadingBytes_length hsome]
    decide +kernel
  have hsize : xmsgsize sharedHeap sharedMessage = (leadingBytes sharedHeap sharedMessage).length := by
    rw [xmsgsize_eq hsome, hlen]
    rfl
  exact ⟨hne, hc, hw, hsize, adjmsg_min hne hc hw hsize hlen.ge⟩

end Solaris.Blocks
