import Solaris.Swap.Slots

/-!
# What the slot operations do to one area

`swap_getoff` finds a clear bit wherever the hint points, as long as there is one; an allocation
takes consecutive clear bits, and a free clears exactly the bits of its range.
-/

namespace Solaris.SwapSlots

open Lib Nat Option Finset Bitmap Nat

/-- The area fits its map, and its count is the number of clear bits, all of them inside. -/
structure SwapInfo.Wf (pageShift : Nat) (sip : SwapInfo) : Prop where
  pages : 0 < sip.npgs
  size : sip.eoff = sip.soff + ptob pageShift sip.npgs
  top : sip.eoff < 2 ^ 31
  words : sip.npgs ≤ 32 * sip.swapslots.length
  mapsize : sip.mapsize = sip.swapslots.length * 4
  hint : sip.hint ≤ sip.npgs
  free : sip.nfpgs = sip.swapslots.clear.card
  inside : ∀ i ∈ sip.swapslots.clear, i < sip.npgs

section Pages

variable {pageShift : Nat} {i j : Nat}

lemma pageSize_pos : 0 < pageSize pageShift := Nat.two_pow_pos pageShift

@[simp] lemma btop_ptob : btop pageShift (ptob pageShift i) = i :=
  Nat.mul_div_cancel i pageSize_pos

lemma ptob_le_iff : ptob pageShift i ≤ ptob pageShift j ↔ i ≤ j :=
  Nat.mul_le_mul_right_iff pageSize_pos

lemma ptob_lt_iff : ptob pageShift i < ptob pageShift j ↔ i < j :=
  Nat.mul_lt_mul_right pageSize_pos

lemma ptob_add : ptob pageShift (i + j) = ptob pageShift i + ptob pageShift j :=
  add_mul i j _

lemma ptob_one : ptob pageShift 1 = pageSize pageShift := one_mul _

lemma ptob_inj (h : ptob pageShift i = ptob pageShift j) : i = j := by
  have := congrArg (btop pageShift) h
  simpa using this

end Pages

section Getoff

variable {pageShift : Nat} {sip : SwapInfo}

lemma wordFree_inside {map : Bitmap 32} {k : Nat} (hk : k < map.length) :
    ∃ b, wordFree map k = some b := by
  unfold wordFree
  rw [List.getElem?_eq_getElem hk]
  exact ⟨_, rfl⟩

lemma wordFree_true {map : Bitmap 32} {k : Nat} (h : wordFree map k = some true) :
    ∃ x, map[k]? = some x ∧ x ≠ BitVec.allOnes 32 := by
  unfold wordFree at h
  rw [map_eq_some_iff] at h
  obtain ⟨x, hx, hne⟩ := h
  exact ⟨x, hx, by simpa using hne⟩

lemma wordFree_of_clear {map : Bitmap 32} {i : Nat} (hi : i ∈ map.clear) :
    wordFree map (i / 32) = some true := by
  obtain ⟨x, hx, hne⟩ := word_ne_allOnes hi
  unfold wordFree
  rw [hx, map_some, bne_iff_ne.mpr hne]

lemma findWord_spec (h : sip.Wf pageShift) (hne : sip.swapslots.clear.Nonempty) :
    ∃ sp x, findWord sip = some (some sp) ∧ sip.swapslots[sp]? = some x ∧ x ≠ BitVec.allOnes 32 := by
  obtain ⟨i, hi⟩ := hne
  have hwords := h.words
  have hhint := h.hint
  have hmap := h.mapsize
  have hfree := wordFree_of_clear hi
  have hlt : i / 32 < sip.swapslots.length := Bitmap.word_lt_iff.mpr (lt_of_test? (Bitmap.mem_clear.mp hi))
  have hup := @scan_spec (wordFree sip.swapslots) (sip.hint / 32) (sip.mapsize / 4 - sip.hint / 32)
    fun j h1 h2 => wordFree_inside (by omega)
  have hdown := @scan_spec (wordFree sip.swapslots) 0 (sip.hint / 32)
    fun j h1 h2 => wordFree_inside (by omega)
  unfold findWord
  rcases hup with ⟨hs, hall⟩ | ⟨sp, hs, -, -, hsp⟩
  · rcases hdown with ⟨hs', hall'⟩ | ⟨sp, hs', -, -, hsp⟩
    · exfalso
      rcases lt_or_ge (i / 32) (sip.hint / 32) with hlow | hhigh
      · rw [hall' _ (zero_le _) (by omega)] at hfree
        cases hfree
      · rw [hall _ hhigh (by omega)] at hfree
        cases hfree
    · obtain ⟨x, hx, hne⟩ := wordFree_true hsp
      exact ⟨sp, x, by simp [hs, hs'], hx, hne⟩
  · obtain ⟨x, hx, hne⟩ := wordFree_true hsp
    exact ⟨sp, x, by simp [hs], hx, hne⟩

lemma slotFree_inside {map : Bitmap 32} {i : Nat} (hi : i < 32 * map.length) :
    ∃ b, slotFree map i = some b := by
  obtain ⟨b, hb⟩ := test?_inside hi
  unfold slotFree
  rw [hb]
  exact ⟨_, rfl⟩

lemma slotFree_true {map : Bitmap 32} {i : Nat} : slotFree map i = some true ↔ i ∈ map.clear := by
  unfold slotFree
  rw [mem_clear]
  cases map.test? i with
  | none => simp
  | some b => simp

lemma findSlot_spec {sp : Nat} {x : BitVec 32} (hx : sip.swapslots[sp]? = some x)
    (hne : x ≠ BitVec.allOnes 32) :
    ∃ slot ∈ sip.swapslots.clear, findSlot sip (sp * 32) = some (some slot) := by
  obtain ⟨b, hb, hclear⟩ := exists_clear hx hne
  have hlt : sp < sip.swapslots.length := (List.getElem?_eq_some_iff.mp hx).1
  have hup := @scan_spec (slotFree sip.swapslots) (sp * 32 + sip.hint % 32) (32 - sip.hint % 32)
    fun j h1 h2 => slotFree_inside (by omega)
  have hdown := @scan_spec (slotFree sip.swapslots) (sp * 32) (sip.hint % 32)
    fun j h1 h2 => slotFree_inside (by omega)
  unfold findSlot
  rcases hup with ⟨hs, hall⟩ | ⟨slot, hs, -, -, hslot⟩
  · rcases hdown with ⟨-, hall'⟩ | ⟨slot, hs', -, -, hslot⟩
    · exfalso
      rw [← slotFree_true] at hclear
      rcases lt_or_ge b (sip.hint % 32) with hlow | hhigh
      · rw [hall' _ (by omega) (by omega)] at hclear
        cases hclear
      · rw [hall _ (by omega) (by omega)] at hclear
        cases hclear
    · exact ⟨slot, slotFree_true.mp hslot, by simp [hs, hs']⟩
  · exact ⟨slot, slotFree_true.mp hslot, by simp [hs]⟩

lemma swapGetoff_spec (h : sip.Wf pageShift) (hne : sip.swapslots.clear.Nonempty) :
    ∃ slot ∈ sip.swapslots.clear, swapGetoff pageShift sip =
      some (some (ptob pageShift slot + sip.soff),
        { sip with swapslots := sip.swapslots.set slot, hint := slot + 1 }) := by
  obtain ⟨sp, x, hsp, hx, hx1⟩ := findWord_spec h hne
  obtain ⟨slot, hslot, hfind⟩ := findSlot_spec hx hx1
  refine ⟨slot, hslot, ?_⟩
  unfold swapGetoff
  simp [hsp, hfind]

end Getoff

section Alloc

variable {pageShift : Nat} {q : Request} {sip a : SwapInfo} {k n : Nat}

/-- `swap_getoff` with `-1` as a failure of its caller. -/
def insist (getoff : SwapInfo → Option (Option Nat × SwapInfo)) (sip : SwapInfo) :
    Option (Option Nat × SwapInfo) :=
  match getoff sip with
  | some (none, _) => none
  | r => r

lemma insist_le {getoff : SwapInfo → Option (Option Nat × SwapInfo)} {r : Option Nat × SwapInfo}
    (h : insist getoff sip = some r) : getoff sip = some r ∧ r.1 ≠ none := by
  unfold insist at h
  split at h
  · cases h
  · next hno =>
    refine ⟨h, ?_⟩
    intro hr
    apply hno r.2
    rw [h, ← hr]

/-- The area `a` after the slots from `k` on, `n` of them, have been taken. -/
structure Taken (a : SwapInfo) (k n : Nat) (sip : SwapInfo) : Prop where
  eq : sip = { a with swapslots := sip.swapslots, nfpgs := sip.nfpgs, hint := sip.hint }
  wereFree : Finset.Ico k (k + n) ⊆ a.swapslots.clear
  clear : sip.swapslots.clear = a.swapslots.clear \ Finset.Ico k (k + n)
  length : sip.swapslots.length = a.swapslots.length
  free : sip.nfpgs = sip.swapslots.clear.card
  hint : sip.hint ≤ a.npgs

lemma Taken.npgs (h : Taken a k n sip) : sip.npgs = a.npgs := by rw [h.eq]

lemma Taken.soff (h : Taken a k n sip) : sip.soff = a.soff := by rw [h.eq]

lemma Taken.wf (h : Taken a k n sip) (ha : a.Wf pageShift) : sip.Wf pageShift := by
  have hlen := h.length
  rw [h.eq]
  refine ⟨ha.pages, ha.size, ha.top, ?_, ?_, h.hint, h.free, ?_⟩
  · dsimp only
    rw [hlen]
    exact ha.words
  · dsimp only
    rw [hlen]
    exact ha.mapsize
  · dsimp only
    intro i hi
    rw [h.clear, mem_sdiff] at hi
    exact ha.inside i hi.1

lemma Taken.inside (h : Taken a k n sip) (ha : a.Wf pageShift) (hn : 0 < n) : k + n ≤ a.npgs := by
  have := ha.inside (k + n - 1) (h.wereFree (mem_Ico.mpr ⟨by omega, by omega⟩))
  omega

lemma ico_succ : Finset.Ico k (k + (n + 1)) = insert (k + n) (Finset.Ico k (k + n)) := by
  ext i
  simp only [mem_Ico, mem_insert]
  omega

lemma Taken.next (h : Taken a k n sip) (ha : a.Wf pageShift) (hslot : k + n ∈ sip.swapslots.clear) :
    Taken a k (n + 1)
      { sip with swapslots := sip.swapslots.set (k + n), hint := k + n + 1, nfpgs := sip.nfpgs - 1 } := by
  have hmem := hslot
  rw [h.clear, mem_sdiff] at hmem
  refine ⟨?_, ?_, ?_, ?_, ?_, ?_⟩
  · dsimp only
    rw [h.eq]
  · rw [ico_succ]
    exact insert_subset hmem.1 h.wereFree
  · dsimp only
    rw [clear_set, h.clear, ico_succ, sdiff_insert]
  · dsimp only
    rw [length_set, h.length]
  · dsimp only
    rw [clear_set, card_erase_of_mem hslot, h.free]
  · exact ha.inside _ hmem.1

lemma Taken.back (h : Taken a k n sip) (ha : a.Wf pageShift) {slot : Nat}
    (hslot : slot ∈ sip.swapslots.clear) :
    Taken a k n { sip with swapslots := (sip.swapslots.set slot).unset slot, hint := slot + 1 } := by
  have hmem := hslot
  rw [h.clear, mem_sdiff] at hmem
  rw [unset_set hslot]
  refine ⟨?_, h.wereFree, h.clear, h.length, h.free, ha.inside _ hmem.1⟩
  rw [h.eq]

theorem takeMore_spec (ha : a.Wf pageShift) {fuel : Nat} (hn : 0 < n) (h : Taken a k n sip)
    (hfuel : sip.nfpgs < fuel) :
    ∃ m sip', takeMore pageShift (insist (swapGetoff pageShift)) q (ptob pageShift k + a.soff) fuel
      (ptob pageShift n) sip = some (ptob pageShift m, sip') ∧ 0 < m ∧ Taken a k m sip' := by
  induction fuel generalizing n sip with
  | zero => omega
  | succ fuel ih =>
    unfold takeMore
    by_cases hlen : ptob pageShift n < q.lenp
    swap
    · rw [if_pos hlen]
      exact ⟨n, sip, rfl, hn, h⟩
    rw [if_neg (not_not.mpr hlen)]
    by_cases hfree : sip.nfpgs = 0
    · rw [if_pos hfree]
      exact ⟨n, sip, rfl, hn, h⟩
    rw [if_neg hfree]
    by_cases hmax : q.swapallocMaxcontig ≠ 0 ∧ q.swapallocMaxcontig ≤ ptob pageShift n
    · rw [if_pos hmax]
      exact ⟨n, sip, rfl, hn, h⟩
    rw [if_neg hmax]
    have hne : sip.swapslots.clear.Nonempty := by
      rw [← card_pos, ← h.free]
      omega
    obtain ⟨slot, hslot, hget⟩ := swapGetoff_spec (h.wf ha) hne
    have hin : insist (swapGetoff pageShift) sip = swapGetoff pageShift sip := by
      unfold insist
      rw [hget]
    have hkn := h.inside ha hn
    have hsize := ha.size
    have htop := ha.top
    have hle : ptob pageShift (k + n) ≤ ptob pageShift a.npgs := ptob_le_iff.mpr hkn
    rw [ptob_add] at hle
    have hmod : (ptob pageShift k + a.soff + ptob pageShift n) % 2 ^ 32 =
        ptob pageShift (k + n) + sip.soff := by
      rw [mod_eq_of_lt (by omega), ptob_add, h.soff]
      omega
    rw [hin, hget]
    dsimp only
    rw [hmod]
    by_cases hnext : slot = k + n
    · -- the loop goes on with one slot more
      subst hnext
      rw [if_neg (not_not.mpr rfl)]
      have hlt : k + n < a.npgs := by
        have := (h.wf ha).inside _ hslot
        rw [h.npgs] at this
        exact this
      have hle' : ptob pageShift (k + n + 1) ≤ ptob pageShift a.npgs := ptob_le_iff.mpr hlt
      rw [ptob_add, ptob_add, ptob_one] at hle'
      have hlen' : (ptob pageShift n + pageSize pageShift) % 2 ^ 32 = ptob pageShift (n + 1) := by
        rw [mod_eq_of_lt (by omega), ptob_add, ptob_one]
      rw [hlen']
      apply ih (by omega) (h.next ha hslot)
      dsimp only
      omega
    · have hoff : ptob pageShift slot + sip.soff ≠ ptob pageShift (k + n) + sip.soff := by
        intro heq
        exact hnext (ptob_inj (add_right_cancel heq))
      rw [if_pos hoff, Nat.add_sub_cancel, btop_ptob]
      exact ⟨n, _, rfl, hn, h.back ha hslot⟩

lemma allocFrom_spec (ha : a.Wf pageShift) (hfree : 0 < a.nfpgs) :
    ∃ k n sip, allocFrom pageShift (insist (swapGetoff pageShift)) q a =
      some (ptob pageShift k + a.soff, ptob pageShift n, sip) ∧ 0 < n ∧ Taken a k n sip := by
  have hne : a.swapslots.clear.Nonempty := by
    rw [← card_pos, ← ha.free]
    exact hfree
  obtain ⟨slot, hslot, hget⟩ := swapGetoff_spec ha hne
  have hin : insist (swapGetoff pageShift) a = swapGetoff pageShift a := by
    unfold insist
    rw [hget]
  have h0 : Taken a slot 0 a := by
    refine ⟨rfl, by simp, by simp, rfl, ha.free, ha.hint⟩
  have h1 := h0.next ha hslot
  obtain ⟨m, sip, hrun, hm, ht⟩ := @takeMore_spec pageShift q _ a slot 1 ha a.nfpgs one_pos h1 (by
    dsimp only
    omega)
  refine ⟨slot, m, sip, ?_, hm, ht⟩
  unfold allocFrom
  rw [hin, hget]
  dsimp only
  rw [ptob_one] at hrun
  rw [add_zero] at hrun
  rw [hrun]
  rfl

theorem takeMore_insist {getoff : SwapInfo → Option (Option Nat × SwapInfo)} {soff : Nat}
    {r : Nat × SwapInfo} {fuel len : Nat}
    (h : takeMore pageShift (insist getoff) q soff fuel len sip = some r) :
    takeMore pageShift getoff q soff fuel len sip = some r := by
  induction fuel generalizing len sip with
  | zero => cases h
  | succ fuel ih =>
    unfold takeMore at h ⊢
    split_ifs at h ⊢ with h1 h2 h3
    · exact h
    · exact h
    · cases hg : insist getoff sip with
      | none =>
        rw [hg] at h
        cases h
      | some x =>
        rw [(insist_le hg).1]
        rw [hg] at h
        obtain ⟨_ | noff, sip'⟩ := x
        · exact h
        dsimp only at h ⊢
        by_cases h4 : noff ≠ (soff + len) % 2 ^ 32
        · rw [if_pos h4] at h ⊢
          exact h
        · rw [if_neg h4] at h ⊢
          exact ih h
    · exact h

lemma allocFrom_insist {getoff : SwapInfo → Option (Option Nat × SwapInfo)} {r : Nat × Nat × SwapInfo}
    (h : allocFrom pageShift (insist getoff) q sip = some r) :
    allocFrom pageShift getoff q sip = some r := by
  unfold allocFrom at h ⊢
  cases hg : insist getoff sip with
  | none =>
    rw [hg] at h
    cases h
  | some x =>
    rw [(insist_le hg).1]
    rw [hg] at h
    obtain ⟨_ | soff, sip'⟩ := x
    · exact h
    · dsimp only at h ⊢
      rw [map_eq_some_iff] at h ⊢
      obtain ⟨y, hy, rfl⟩ := h
      exact ⟨y, takeMore_insist hy, rfl⟩

end Alloc

section Free

variable {sip : SwapInfo}

lemma freeSlots_spec {k n : Nat} (hin : k + n ≤ 32 * sip.swapslots.length)
    (hset : Disjoint (Finset.Ico k (k + n)) sip.swapslots.clear)
    (hfree : sip.nfpgs = sip.swapslots.clear.card) :
    ∃ map, freeSlots k n sip = some { sip with swapslots := map, nfpgs := map.clear.card } ∧
      map.length = sip.swapslots.length ∧ map.clear = sip.swapslots.clear ∪ Finset.Ico k (k + n) := by
  induction n generalizing k sip with
  | zero =>
    refine ⟨sip.swapslots, ?_, rfl, by simp⟩
    rw [← hfree]
    rfl
  | succ n ih =>
    have hk : k ∉ sip.swapslots.clear :=
      disjoint_left.mp hset (mem_Ico.mpr ⟨le_rfl, by omega⟩)
    obtain ⟨b, hb⟩ : ∃ b, sip.swapslots.test? k = some b := test?_inside (by omega)
    have hbt : b = true := by
      rw [mem_clear, hb] at hk
      simpa using hk
    subst hbt
    unfold freeSlots
    rw [hb]
    have hclear : (sip.swapslots.unset k).clear = insert k sip.swapslots.clear :=
      clear_unset (by omega)
    obtain ⟨map, hrun, hlen, hcl⟩ := @ih { sip with
      swapslots := sip.swapslots.unset k, nfpgs := sip.nfpgs + 1 } (k + 1) (by
        rw [length_unset]
        omega) (by
        rw [hclear, disjoint_insert_right]
        refine ⟨by simp, ?_⟩
        apply disjoint_of_subset_left _ hset
        intro i hi
        rw [mem_Ico] at hi ⊢
        omega) (by
        rw [hclear, card_insert_of_notMem hk, hfree])
    refine ⟨map, hrun, ?_, ?_⟩
    · rw [hlen]
      exact length_unset
    · rw [hcl, hclear]
      ext i
      simp only [mem_union, mem_insert, mem_Ico]
      constructor
      · rintro ((h | h) | h)
        · right
          omega
        · exact .inl h
        · right
          omega
      · rintro (h | h)
        · exact .inl (.inr h)
        · rcases eq_or_lt_of_le h.1 with heq | hlt
          · exact .inl (.inl heq.symm)
          · exact .inr ⟨hlt, by omega⟩

end Free

end Solaris.SwapSlots
