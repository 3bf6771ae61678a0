import Mathlib.Data.List.TakeWhile
import Solaris.Swap.SlotAreas

/-!
# Swap slots are handed out once

Runs of `swapadd`, `swap_phys_alloc`, `swap_phys_free` and `swapdel` from an empty list of areas.
-/

namespace Solaris.SwapSlots

open Lib List

section Search

variable {pageShift : Nat} {q : Request} {l : List SwapInfo} {p : Nat}

lemma splitAt_spec (hp : p ∈ l.map SwapInfo.addr) :
    ∃ front a back, splitAt p l = (front, a :: back) ∧ l = front ++ a :: back ∧ a.addr = p := by
  unfold splitAt
  rw [span_eq_takeWhile_dropWhile]
  cases hd : l.dropWhile fun sip => sip.addr != p with
  | nil =>
    exfalso
    rw [dropWhile_eq_nil_iff] at hd
    obtain ⟨a, ha, rfl⟩ := mem_map.mp hp
    have := hd a ha
    simp at this
  | cons a back =>
    refine ⟨_, a, back, rfl, ?_, ?_⟩
    · rw [← hd, takeWhile_append_dropWhile]
    · have hne : l.dropWhile (fun sip => sip.addr != p) ≠ [] := by simp [hd]
      have hhead := head_dropWhile_not (fun sip : SwapInfo => sip.addr != p) hne
      simpa [hd] using hhead

@[simp] lemma core_passed (a : SwapInfo) : (passed a).core = a.core := by
  unfold passed
  split <;> rfl

lemma map_core_passed (l : List SwapInfo) : (l.map passed).map SwapInfo.core = l.map SwapInfo.core := by
  rw [map_map]
  apply map_congr_left
  intro a _
  exact core_passed a

lemma findArea_spec (q : Request) (l : List SwapInfo) :
    (findArea q l = none ∧ ∀ a ∈ l, usable q a = false) ∨
      ∃ before a after, l = before ++ a :: after ∧ usable q a = true ∧
        findArea q l = some (before.map passed, a, after) := by
  induction l with
  | nil => exact .inl ⟨rfl, by simp⟩
  | cons b l ih =>
    unfold findArea
    split_ifs with hb
    · exact .inr ⟨[], b, l, rfl, hb, rfl⟩
    · rcases ih with ⟨hnone, hall⟩ | ⟨before, a, after, rfl, ha, hsome⟩
      · refine .inl ⟨by rw [hnone]; rfl, ?_⟩
        exact forall_mem_cons.mpr ⟨Bool.eq_false_iff.mpr hb, hall⟩
      · exact .inr ⟨b :: before, a, after, rfl, ha, by rw [hsome]; rfl⟩

def Available (q : Request) (a : SwapInfo) : Prop :=
  a.inDel = false ∧ eligible q a = true ∧ a.swapslots.clear.Nonempty

lemma usable_iff {a : SwapInfo} (h : a.Wf pageShift) : usable q a = true ↔ Available q a := by
  have hcard : a.swapslots.clear.card ≤ a.npgs := by
    have hsub : a.swapslots.clear ⊆ Finset.range a.npgs :=
      fun i hi => Finset.mem_range.mpr (h.inside i hi)
    simpa using Finset.card_le_card hsub
  have hlt : a.npgs < 2 ^ 31 := by
    have htop := h.top
    have hsize := h.size
    have hle : a.npgs ≤ ptob pageShift a.npgs := Nat.le_mul_of_pos_right _ pageSize_pos
    omega
  unfold usable Available
  rw [← Finset.card_pos, ← h.free]
  simp only [Bool.and_eq_true, Bool.not_eq_true', decide_eq_true_eq]
  constructor
  · rintro ⟨⟨⟨h1, h2⟩, -⟩, h4⟩
    exact ⟨h1, h4, h2⟩
  · rintro ⟨h1, h2, h3⟩
    exact ⟨⟨⟨h1, h3⟩, by rw [h.free]; omega⟩, h2⟩

end Search

section Alloc

variable {pageShift : Nat} {q : Request}

/-- `silast` is on the list, which is empty only when there is no `silast`. -/
def SilastOk (s : Areas) : Prop :=
  match s.silast with
  | none => s.swapinfo = []
  | some p => p ∈ s.swapinfo.map SwapInfo.addr

/-- Both with the code's `swap_getoff` and with one that must not fail, the call has this result. -/
def Allocates (pageShift : Nat) (q : Request) (s : Areas) (r : Option Range × Areas) : Prop :=
  swapPhysAllocWith pageShift (insist (swapGetoff pageShift)) q s = some r ∧
    swapPhysAlloc pageShift q s = some r

lemma head_addr_mem {after l : List SwapInfo} (hne : l ≠ []) (hsub : after ⊆ l) :
    ∃ p ∈ l.map SwapInfo.addr, (after.head?.or l.head?).map SwapInfo.addr = some p := by
  cases after with
  | nil =>
    cases l with
    | nil => exact absurd rfl hne
    | cons b l => exact ⟨b.addr, by simp, rfl⟩
  | cons b after => exact ⟨b.addr, mem_map_of_mem (hsub (mem_cons_self ..)), rfl⟩

lemma takeFrom_spec {p : Nat} {before after : List SwapInfo} {a : SwapInfo} (ha : a.Wf pageShift)
    (hfree : 0 < a.nfpgs) (hp : p ∈ (before ++ a :: after).map SwapInfo.addr) :
    ∃ k n a' s', 0 < n ∧ Taken a k n a' ∧
      (∀ getoff, getoff = swapGetoff pageShift ∨ getoff = insist (swapGetoff pageShift) →
        takeFrom pageShift getoff q p before a after = some (a.range pageShift k n, s')) ∧
      s'.swapinfo.map SwapInfo.core = (before ++ a' :: after).map SwapInfo.core ∧ SilastOk s' := by
  obtain ⟨k, n, a', hrun, hn, ht⟩ := @allocFrom_spec pageShift q a ha hfree
  have hrange : a.range pageShift k n = ⟨a'.vp, ptob pageShift k + a.soff, ptob pageShift n⟩ := by
    rw [ht.eq]
    rfl
  have haddr : a'.addr = a.addr := by rw [ht.eq]
  let allocs := (a'.allocs + btop pageShift (ptob pageShift n)).bmod (2 ^ 32)
  let full := decide (q.swapMaxcontig ≤ allocs)
  let last := { a' with allocs := if full then 0 else allocs }
  let swapinfo := before ++ last :: after
  let s' : Areas :=
    { swapinfo
      silast := if full then (after.head?.or swapinfo.head?).map SwapInfo.addr else some p }
  refine ⟨k, n, a', s', hn, ht, ?_, ?_, ?_⟩
  · intro getoff hget
    have hrun' : allocFrom pageShift getoff q a = some (ptob pageShift k + a.soff, ptob pageShift n, a') := by
      rcases hget with rfl | rfl
      · exact allocFrom_insist hrun
      · exact hrun
    unfold takeFrom
    rw [hrun', hrange]
  · change (before ++ last :: after).map SwapInfo.core = _
    rw [map_append, map_append, map_cons, map_cons]
    rfl
  · have hmem : swapinfo.map SwapInfo.addr = (before ++ a :: after).map SwapInfo.addr := by
      rw [map_append, map_append, map_cons, map_cons]
      congr 2
    unfold SilastOk
    change match (if full then (after.head?.or swapinfo.head?).map SwapInfo.addr else some p) with
      | none => swapinfo = []
      | some p => p ∈ swapinfo.map SwapInfo.addr
    split_ifs with hf
    · obtain ⟨p', hp', he⟩ := @head_addr_mem after swapinfo (by simp [swapinfo]) (by
        intro b hb
        simp [swapinfo, hb])
      rw [he]
      exact hp'
    · rw [hmem]
      exact hp

lemma swapPhysAllocWith_eq {s : Areas} {p : Nat} {front back : List SwapInfo} {b : SwapInfo}
    (getoff : SwapInfo → Option (Option Nat × SwapInfo)) (hs : s.silast = some p)
    (hsplit : splitAt p s.swapinfo = (front, b :: back)) :
    swapPhysAllocWith pageShift getoff q s =
      match findArea q (b :: back) with
      | some (before, sip, after) =>
        (takeFrom pageShift getoff q p (front ++ before) sip after).map fun r => (some r.1, r.2)
      | none =>
        match findArea q front with
        | some (before, sip, after) =>
          (takeFrom pageShift getoff q p before sip (after ++ (b :: back).map passed)).map
            fun r => (some r.1, r.2)
        | none => some (none, { s with swapinfo := (front ++ b :: back).map passed }) := by
  unfold swapPhysAllocWith
  rw [hs]
  dsimp only
  generalize hsp : splitAt p s.swapinfo = r
  rw [hsplit] at hsp
  subst hsp
  rfl

lemma SilastOk.of_addrs {s s' : Areas} (h : SilastOk s) (hlast : s'.silast = s.silast)
    (hc : s'.swapinfo.map SwapInfo.core = s.swapinfo.map SwapInfo.core) : SilastOk s' := by
  have haddr : s'.swapinfo.map SwapInfo.addr = s.swapinfo.map SwapInfo.addr := by
    have := congrArg (map SwapInfo.addr) hc
    rw [map_map, map_map] at this
    exact this
  unfold SilastOk at h ⊢
  rw [hlast]
  cases hs : s.silast with
  | none =>
    rw [hs] at h
    rw [h] at haddr
    exact map_eq_nil_iff.mp haddr
  | some p =>
    rw [hs] at h
    rw [haddr]
    exact h

theorem SilastOk.removed {s : Areas} {p : Nat} {front back : List SwapInfo} {b : SwapInfo} (h : SilastOk s)
    (hl : s.swapinfo = front ++ b :: back) (hb : b.addr = p) :
    SilastOk { swapinfo := front ++ back
               silast := if s.silast = some p then (back.head?.or (front ++ back).head?).map SwapInfo.addr
                 else s.silast } := by
  unfold SilastOk at h ⊢
  split_ifs with hp
  · by_cases hnil : front ++ back = []
    · obtain ⟨rfl, rfl⟩ := append_eq_nil_iff.mp hnil
      rfl
    · obtain ⟨p', hp', he⟩ := @head_addr_mem back (front ++ back) hnil (subset_append_right _ _)
      rw [he]
      exact hp'
  cases hs : s.silast with
  | none =>
    rw [hs] at h
    rw [h] at hl
    simp at hl
  | some p' =>
    rw [hs] at h hp
    dsimp only at h ⊢
    rw [hl, map_append, map_cons, mem_append, mem_cons, hb] at h
    rw [map_append, mem_append]
    rcases h with h | rfl | h
    · exact .inl h
    · exact absurd rfl hp
    · exact .inr h

/-- The call of `swap_phys_alloc`: either no area is available, or slots of one that is are taken. -/
theorem swapPhysAlloc_spec {s : Areas} (hwf : ∀ a ∈ s.swapinfo, a.Wf pageShift) (hlast : SilastOk s) :
    ((∀ a ∈ s.swapinfo, ¬Available q a) ∧ ∃ s', Allocates pageShift q s (none, s') ∧
        s'.swapinfo.map SwapInfo.core = s.swapinfo.map SwapInfo.core ∧ SilastOk s') ∨
      ∃ pre a post k n a' s', s.swapinfo = pre ++ a :: post ∧ Available q a ∧ 0 < n ∧ Taken a k n a' ∧
        Allocates pageShift q s (some (a.range pageShift k n), s') ∧
        s'.swapinfo.map SwapInfo.core = (pre ++ a' :: post).map SwapInfo.core ∧ SilastOk s' := by
  cases hs : s.silast with
  | none =>
    have hnil : s.swapinfo = [] := by
      unfold SilastOk at hlast
      rw [hs] at hlast
      exact hlast
    have hrun : ∀ getoff, swapPhysAllocWith pageShift getoff q s = some (none, s) := by
      intro getoff
      unfold swapPhysAllocWith
      rw [hs]
    exact .inl ⟨by rw [hnil]; simp, s, ⟨hrun _, hrun _⟩, rfl, hlast⟩
  | some p =>
    have hp : p ∈ s.swapinfo.map SwapInfo.addr := by
      unfold SilastOk at hlast
      rw [hs] at hlast
      exact hlast
    obtain ⟨front, b, back, hsplit, hl, hbp⟩ := splitAt_spec hp
    have hrun := fun getoff => @swapPhysAllocWith_eq pageShift q s p front back b getoff hs hsplit
    rw [hl] at hp
    -- an area found, with what stands before and after it on the list
    have hfound : ∀ pre a post pre' post', s.swapinfo = pre ++ a :: post → usable q a = true →
        pre'.map SwapInfo.core = pre.map SwapInfo.core → post'.map SwapInfo.core = post.map SwapInfo.core →
        (∀ getoff, swapPhysAllocWith pageShift getoff q s =
          (takeFrom pageShift getoff q p pre' a post').map fun r => (some r.1, r.2)) →
        ∃ pre a post k n a' s', s.swapinfo = pre ++ a :: post ∧ Available q a ∧ 0 < n ∧ Taken a k n a' ∧
          Allocates pageShift q s (some (a.range pageShift k n), s') ∧
          s'.swapinfo.map SwapInfo.core = (pre ++ a' :: post).map SwapInfo.core ∧ SilastOk s' := by
      intro pre a post pre' post' hsplit ha hpre hpost heq
      have hav := (usable_iff (hwf a (by simp [hsplit]))).mp ha
      have haddrs : (pre' ++ a :: post').map SwapInfo.addr = s.swapinfo.map SwapInfo.addr := by
        have hc : (pre' ++ a :: post').map SwapInfo.core = s.swapinfo.map SwapInfo.core := by
          rw [hsplit, map_append, map_append, map_cons, map_cons, hpre, hpost]
        have := congrArg (map SwapInfo.addr) hc
        rw [map_map, map_map] at this
        exact this
      have hfree : 0 < a.nfpgs := by
        rw [(hwf a (by simp [hsplit])).free]
        exact Finset.card_pos.mpr hav.2.2
      obtain ⟨k, n, a', s', hn, ht, hres, hcore, hok⟩ := @takeFrom_spec pageShift q p pre' post' a
        (hwf a (by simp [hsplit])) hfree (by rw [haddrs, hl]; exact hp)
      refine ⟨pre, a, post, k, n, a', s', hsplit, hav, hn, ht, ⟨?_, ?_⟩, ?_, hok⟩
      · rw [heq, hres _ (.inr rfl)]
        rfl
      · unfold swapPhysAlloc
        rw [heq, hres _ (.inl rfl)]
        rfl
      · rw [hcore, map_append, map_append, map_cons, map_cons, hpre, hpost]
    rcases findArea_spec q (b :: back) with ⟨hnone, hall⟩ | ⟨before, a, after, hback, ha, hsome⟩
    · rcases findArea_spec q front with ⟨hnone', hall'⟩ | ⟨before, a, after, hfront, ha, hsome⟩
      · -- no area on the list
        rw [hnone, hnone'] at hrun
        have hcore : ((front ++ b :: back).map passed).map SwapInfo.core = s.swapinfo.map SwapInfo.core := by
          rw [map_core_passed, hl]
        refine .inl ⟨?_, _, ⟨hrun _, hrun _⟩, hcore, hlast.of_addrs rfl hcore⟩
        intro a ha hav
        rw [← usable_iff (hwf a ha)] at hav
        rw [hl, mem_append] at ha
        rcases ha with ha | ha
        · rw [hall' a ha] at hav
          cases hav
        · rw [hall a ha] at hav
          cases hav
      · right
        rw [hnone, hsome] at hrun
        apply hfound before a (after ++ b :: back) _ _ _ ha (map_core_passed before) _ hrun
        · rw [hl, hfront, append_assoc, cons_append]
        · rw [map_append, map_append, map_core_passed]
    · right
      rw [hsome] at hrun
      apply hfound (front ++ before) a after _ _ _ ha _ rfl hrun
      · rw [hl, hback, append_assoc]
      · rw [map_append, map_append, map_core_passed]

end Alloc

section FreeSpec

variable {pageShift : Nat} {out : List Range} {pre post : List SwapInfo} {a : SwapInfo}

theorem swapPhysFree_spec {k n j m : Nat} (h : AreasOk pageShift (pre ++ a :: post) out)
    (hr : a.range pageShift k n ∈ out) (hkn : k + n ≤ a.npgs) (hm : 0 < m) (hjm : j + m ≤ n) :
    ∃ map, swapPhysFree pageShift ⟨a.vp, (a.range pageShift k n).off + ptob pageShift j, ptob pageShift m⟩
        (pre ++ a :: post) = some (pre ++ { a with swapslots := map, nfpgs := map.clear.card } :: post) ∧
      map.length = a.swapslots.length ∧
      map.clear = a.swapslots.clear ∪ Finset.Ico (k + j) (k + j + m) := by
  have hwf := h.wf a (by simp)
  have hoff : (a.range pageShift k n).off + ptob pageShift j = ptob pageShift (k + j) + a.soff := by
    rw [ptob_add]
    unfold SwapInfo.range
    dsimp only
    omega
  have hlt : ptob pageShift (k + j) < ptob pageShift a.npgs := ptob_lt_iff.mpr (by omega)
  have hsize := hwf.size
  have hwords := hwf.words
  have hset : Disjoint (Finset.Ico (k + j) (k + j + m)) a.swapslots.clear := by
    rw [Finset.disjoint_left]
    intro i hi hclear
    rw [Finset.mem_Ico] at hi
    have hno := (h.slots a (by simp) i (by omega)).mp hclear _ hr
    exact hno (range_holds.mpr ⟨by omega, by omega⟩)
  obtain ⟨map, hrun, hlen, hcl⟩ := freeSlots_spec (by omega) hset hwf.free
  refine ⟨map, ?_, hlen, hcl⟩
  rw [hoff]
  -- the areas before it do not contain the offset
  have hpre : ∀ b ∈ pre, ¬(b.vp = a.vp ∧ b.soff ≤ ptob pageShift (k + j) + a.soff ∧
      ptob pageShift (k + j) + a.soff < b.eoff) := by
    rintro b hb ⟨hvp, h1, h2⟩
    rcases h.apart_other (.inl hb) hvp with hle | hle <;> omega
  clear h hr
  induction pre with
  | nil =>
    rw [nil_append, nil_append]
    unfold swapPhysFree
    rw [if_pos ⟨rfl, by dsimp only; omega, by dsimp only; omega⟩]
    rw [Nat.add_sub_cancel, btop_ptob, btop_ptob, hrun]
    rfl
  | cons b pre ih =>
    rw [cons_append]
    unfold swapPhysFree
    rw [if_neg (hpre b (mem_cons_self ..)), ih (fun c hc => hpre c (mem_cons_of_mem _ hc))]
    rfl

end FreeSpec

section AddSpec

variable {pageShift : Nat}

lemma foldl_set_length (is : List Nat) (map : Bitmap 32) : (is.foldl Bitmap.set map).length = map.length := by
  induction is generalizing map with
  | nil => rfl
  | cons i is ih =>
    rw [foldl_cons, ih]
    exact Bitmap.length_set

lemma foldl_set_clear (is : List Nat) (map : Bitmap 32) :
    (is.foldl Bitmap.set map).clear = map.clear \ is.toFinset := by
  induction is generalizing map with
  | nil => simp
  | cons i is ih =>
    rw [foldl_cons, ih, Bitmap.clear_set, toFinset_cons]
    ext j
    simp only [Finset.mem_sdiff, Finset.mem_erase, Finset.mem_insert]
    tauto

lemma clear_zero (words : Nat) : Bitmap.clear (List.replicate words (0 : BitVec 32)) = Finset.range (32 * words) := by
  ext i
  rw [Bitmap.mem_clear, Finset.mem_range]
  unfold Bitmap.test?
  rw [getElem?_replicate]
  constructor
  · intro h
    by_contra hge
    rw [if_neg (by omega)] at h
    cases h
  · intro h
    rw [if_pos (by omega)]
    simp

lemma newSwapInfo_clear (addr vp soff eoff : Nat) :
    (newSwapInfo pageShift addr vp soff eoff).swapslots.clear =
      Finset.range (newSwapInfo pageShift addr vp soff eoff).npgs := by
  unfold newSwapInfo
  dsimp only
  rw [foldl_set_clear, clear_zero]
  ext i
  rw [Finset.mem_sdiff, Finset.mem_range, Finset.mem_range, mem_toFinset, mem_range'_1]
  omega

theorem swapaddBounds_spec {soff eoff vaSize soff' eoff' : Nat}
    (h : swapaddBounds pageShift soff eoff vaSize = some (soff', eoff')) :
    eoff' < 2 ^ 31 ∧ ∃ n, 0 < n ∧ eoff' = soff' + ptob pageShift n := by
  unfold swapaddBounds at h
  dsimp only at h
  split_ifs at h with h1 h2 h3 h4
  obtain ⟨rfl, rfl⟩ := h
  have hle : ptob pageShift (btop pageShift eoff) ≤ eoff := Nat.div_mul_le_self _ _
  refine ⟨by omega, btop pageShift eoff - btopr pageShift soff, ?_, ?_⟩
  · have := ptob_lt_iff.mp (Nat.lt_of_not_le h4)
    omega
  · have hlt := ptob_lt_iff.mp (Nat.lt_of_not_le h4)
    rw [← ptob_add]
    congr 1
    omega

lemma newSwapInfo_wf {addr vp soff eoff n : Nat} (htop : eoff < 2 ^ 31) (hn : 0 < n)
    (he : eoff = soff + ptob pageShift n) : (newSwapInfo pageShift addr vp soff eoff).Wf pageShift := by
  have hpages : btop pageShift (eoff - soff) = n := by
    rw [he, Nat.add_sub_cancel_left, btop_ptob]
  have hclear := @newSwapInfo_clear pageShift addr vp soff eoff
  have hlen : (newSwapInfo pageShift addr vp soff eoff).swapslots.length =
      (btop pageShift (eoff - soff) + 31) / 32 := by
    unfold newSwapInfo
    rw [foldl_set_length, length_replicate]
  refine ⟨?_, ?_, htop, ?_, ?_, Nat.zero_le _, ?_, ?_⟩
  · change 0 < btop pageShift (eoff - soff)
    omega
  · change eoff = soff + ptob pageShift (btop pageShift (eoff - soff))
    rw [hpages, he]
  · rw [hlen]
    change btop pageShift (eoff - soff) ≤ _
    omega
  · rw [hlen]
    rfl
  · rw [hclear, Finset.card_range]
    rfl
  · intro i hi
    rw [hclear, Finset.mem_range] at hi
    exact hi

lemma swapaddSearch_spec {vp soff eoff pages : Nat} (l : List SwapInfo) :
    (swapaddSearch vp soff eoff pages l = none ∧ ∀ b ∈ l, b.vp = vp → b.eoff ≤ soff ∨ eoff ≤ b.soff) ∨
      ∃ l', swapaddSearch vp soff eoff pages l = some l' ∧ l'.map SwapInfo.core = l.map SwapInfo.core := by
  induction l with
  | nil => exact .inl ⟨rfl, by simp⟩
  | cons b l ih =>
    unfold swapaddSearch
    split_ifs with h1 h2
    · exact .inr ⟨_, rfl, rfl⟩
    · exact .inr ⟨_, rfl, rfl⟩
    · rcases ih with ⟨hnone, hall⟩ | ⟨l', hsome, hcore⟩
      · refine .inl ⟨by rw [hnone]; rfl, ?_⟩
        intro c hc hvp
        rcases mem_cons.mp hc with rfl | hc
        · by_contra hover
          exact h2 ⟨hvp, by omega, by omega⟩
        · exact hall c hc hvp
      · refine .inr ⟨b :: l', by rw [hsome]; rfl, ?_⟩
        rw [map_cons, map_cons, hcore]

lemma core_setFlags (inDel doingDel : Bool) (p : Nat) (l : List SwapInfo) :
    (setFlags inDel doingDel p l).map SwapInfo.core = l.map SwapInfo.core := by
  unfold setFlags
  rw [map_map]
  apply map_congr_left
  intro a _
  rw [Function.comp_apply]
  split <;> rfl

end AddSpec

section Runs

structure Sys where
  areas : Areas
  out : List Range
  deriving DecidableEq

/-- Calls and parts of calls: `free` gives back `n` pages, from the `j`-th on, of an outstanding
range, and `add` has got memory at `addr` for its new area. -/
inductive Event
  | alloc (q : Request)
  | free (before : List Range) (r : Range) (after : List Range) (j n : Nat)
  | add (addr vp soff eoff vaSize : Nat)
  | delStart (vp soff : Nat) (enough : Bool)
  | delAbort (p : Nat)
  | delDone (p : Nat)

variable (pageShift : Nat)

def Sys.exec (s : Sys) : Event → Option Sys
  | .alloc q => (swapPhysAlloc pageShift q s.areas).map fun r => ⟨r.2, r.1.toList ++ s.out⟩
  | .free before r after j n =>
    (swapPhysFree pageShift ⟨r.vp, r.off + ptob pageShift j, ptob pageShift n⟩ s.areas.swapinfo).map
      fun swapinfo => ⟨{ s.areas with swapinfo },
        before ++ r.cut (ptob pageShift j) (ptob pageShift (j + n)) ++ after⟩
  | .add addr vp soff eoff vaSize => some { s with areas := swapadd pageShift s.areas addr vp soff eoff vaSize }
  | .delStart vp soff enough => some { s with areas := swapdelStart s.areas vp soff enough }
  | .delAbort p => some { s with areas := swapdelAbort s.areas p }
  | .delDone p => some { s with areas := swapdelDone s.areas p }

/-- What is freed has been handed out, memory for an area is new, and a deletion ends with all slots
of its area free. -/
def Legal (s : Sys) : Event → Prop
  | .alloc _ => True
  | .free before r after j n =>
    s.out = before ++ r :: after ∧ 0 < n ∧ ptob pageShift (j + n) ≤ r.len
  | .add addr _ _ _ _ => ∀ a ∈ s.areas.swapinfo, a.addr ≠ addr
  | .delStart _ _ _ => True
  | .delAbort p => ∃ a ∈ s.areas.swapinfo, a.addr = p ∧ a.inDel = true
  | .delDone p => ∃ a ∈ s.areas.swapinfo, a.addr = p ∧ a.inDel = true ∧ a.nfpgs = a.npgs

inductive Reachable : Sys → Prop
  | init : Reachable ⟨⟨[], none⟩, []⟩
  | step {s s' : Sys} (e : Event) : Reachable s → Legal pageShift s e → s.exec pageShift e = some s' →
      Reachable s'

structure Inv (s : Sys) : Prop where
  ok : AreasOk pageShift s.areas.swapinfo s.out
  last : SilastOk s.areas

variable {pageShift} {s s' : Sys}

section

variable (h : Inv pageShift s)

include h

lemma Inv.alloc (q : Request) :
    ∃ s', s.exec pageShift (.alloc q) = some s' ∧ Inv pageShift s' := by
  rcases @swapPhysAlloc_spec pageShift q s.areas h.ok.wf h.last with
    ⟨-, a', ⟨-, hrun⟩, hcore, hlast⟩ | ⟨pre, a, post, k, n, a', t, hl, -, hn, ht, ⟨-, hrun⟩, hcore, hlast⟩
  · refine ⟨⟨a', s.out⟩, ?_, h.ok.of_core hcore, hlast⟩
    simp only [Sys.exec, hrun]
    rfl
  refine ⟨⟨t, a.range pageShift k n :: s.out⟩, ?_, ?_, hlast⟩
  · simp only [Sys.exec, hrun]
    rfl
  · have hok := h.ok
    rw [hl] at hok
    exact (hok.take hn ht).of_core hcore

lemma Inv.free_spec {before after : List Range} {r : Range} {j m : Nat}
    (hleg : Legal pageShift s (.free before r after j m)) :
    ∃ pre a post k n map, s.areas.swapinfo = pre ++ a :: post ∧ k + n ≤ a.npgs ∧ j + m ≤ n ∧
      r = a.range pageShift k n ∧ map.length = a.swapslots.length ∧
      map.clear = a.swapslots.clear ∪ Finset.Ico (k + j) (k + j + m) ∧
      swapPhysFree pageShift ⟨r.vp, r.off + ptob pageShift j, ptob pageShift m⟩ s.areas.swapinfo =
        some (pre ++ { a with swapslots := map, nfpgs := map.clear.card } :: post) := by
  obtain ⟨hout, hm, hlen⟩ := hleg
  have hr : r ∈ s.out := by
    rw [hout]
    simp
  obtain ⟨a, ha, k, n, hn, hkn, rfl⟩ := h.ok.ranges r hr
  obtain ⟨pre, post, hl⟩ := append_of_mem ha
  have hjm : j + m ≤ n := ptob_le_iff.mp hlen
  have hok := h.ok
  rw [hl] at hok
  obtain ⟨map, hrun, hlen', hclear⟩ := swapPhysFree_spec hok hr hkn hm hjm
  refine ⟨pre, a, post, k, n, map, hl, hkn, hjm, rfl, hlen', hclear, ?_⟩
  rw [hl]
  exact hrun

lemma Inv.free {before after : List Range} {r : Range} {j m : Nat}
    (hleg : Legal pageShift s (.free before r after j m)) :
    ∃ s', s.exec pageShift (.free before r after j m) = some s' ∧ Inv pageShift s' := by
  obtain ⟨pre, a, post, k, n, map, hl, hkn, hjm, rfl, hlen, hclear, hrun⟩ := h.free_spec hleg
  obtain ⟨hout, -, -⟩ := hleg
  refine ⟨⟨{ s.areas with swapinfo := pre ++ { a with swapslots := map, nfpgs := map.clear.card } :: post },
    before ++ (a.range pageShift k n).cut (ptob pageShift j) (ptob pageShift (j + m)) ++ after⟩, ?_, ?_, ?_⟩
  · simp only [Sys.exec, hrun]
    rfl
  · have hok := h.ok
    rw [hl, hout] at hok
    exact hok.give hkn hjm hlen hclear
  · have haddr : (pre ++ { a with swapslots := map, nfpgs := map.clear.card } :: post).map SwapInfo.addr =
        s.areas.swapinfo.map SwapInfo.addr := by
      rw [hl, map_append, map_append, map_cons, map_cons]
    have hlast := h.last
    unfold SilastOk at hlast ⊢
    cases hs : s.areas.silast with
    | none =>
      rw [hs] at hlast
      rw [hlast] at hl
      simp at hl
    | some p =>
      rw [hs] at hlast
      rw [haddr]
      exact hlast

lemma Inv.add {addr vp soff eoff vaSize : Nat}
    (hleg : ∀ a ∈ s.areas.swapinfo, a.addr ≠ addr) :
    Inv pageShift { s with areas := swapadd pageShift s.areas addr vp soff eoff vaSize } := by
  unfold swapadd
  cases hb : swapaddBounds pageShift soff eoff vaSize with
  | none => exact h
  | some x =>
    obtain ⟨soff', eoff'⟩ := x
    obtain ⟨htop, n, hn, he⟩ := swapaddBounds_spec hb
    dsimp only
    rcases @swapaddSearch_spec vp soff' eoff' (btop pageShift (eoff' - soff')) s.areas.swapinfo with
      ⟨hnone, hap⟩ | ⟨l', hsome, hcore⟩
    · rw [hnone]
      refine ⟨?_, ?_⟩
      · apply h.ok.join (newSwapInfo_wf htop hn he) hleg hap
        intro i hi
        rw [newSwapInfo_clear, Finset.mem_range]
        exact hi
      · change addr ∈ (s.areas.swapinfo ++ [newSwapInfo pageShift addr vp soff' eoff']).map SwapInfo.addr
        rw [map_append]
        exact mem_append_right _ (by simp [newSwapInfo])
    · rw [hsome]
      exact ⟨h.ok.of_core hcore, h.last.of_addrs rfl hcore⟩

lemma Inv.flags (inDel doingDel : Bool) (p : Nat) :
    Inv pageShift { s with areas := { s.areas with
      swapinfo := setFlags inDel doingDel p s.areas.swapinfo } } := by
  have hcore := core_setFlags inDel doingDel p s.areas.swapinfo
  exact ⟨h.ok.of_core hcore, h.last.of_addrs rfl hcore⟩

lemma Inv.delStart (vp soff : Nat) (enough : Bool) :
    Inv pageShift { s with areas := swapdelStart s.areas vp soff enough } := by
  unfold swapdelStart
  split
  · exact h
  · split
    · exact h.flags true true _
    · exact h

lemma Inv.delDone {p : Nat}
    (hleg : ∃ a ∈ s.areas.swapinfo, a.addr = p ∧ a.inDel = true ∧ a.nfpgs = a.npgs) :
    Inv pageShift { s with areas := swapdelDone s.areas p } := by
  obtain ⟨a, ha, hap, -, hfree⟩ := hleg
  obtain ⟨front, b, back, hsplit, hl, hbp⟩ := @splitAt_spec s.areas.swapinfo p (by
    rw [← hap]
    exact mem_map_of_mem ha)
  have hnd := h.ok.addrs
  have hba : b = a := inj_on_of_nodup_map hnd (by rw [hl]; simp) ha (by rw [hbp, hap])
  subst hba
  have hok := h.ok
  rw [hl] at hok
  have hwf := h.ok.wf b ha
  unfold swapdelDone
  rw [hsplit]
  refine ⟨?_, ?_⟩
  · apply hok.remove
    have hsub : b.swapslots.clear ⊆ Finset.range b.npgs := fun i hi => Finset.mem_range.mpr (hwf.inside i hi)
    have heq := Finset.eq_of_subset_of_card_le hsub (by rw [Finset.card_range, ← hfree, hwf.free])
    intro i hi
    rw [heq]
    exact Finset.mem_range.mpr hi
  · exact h.last.removed hl hbp

lemma Inv.exec {e : Event} (hleg : Legal pageShift s e) :
    ∃ s', s.exec pageShift e = some s' ∧ Inv pageShift s' := by
  cases e with
  | alloc q => exact h.alloc q
  | free before r after j n => exact h.free hleg
  | add addr vp soff eoff vaSize => exact ⟨_, rfl, h.add hleg⟩
  | delStart vp soff enough => exact ⟨_, rfl, h.delStart vp soff enough⟩
  | delAbort p => exact ⟨_, rfl, h.flags false false p⟩
  | delDone p => exact ⟨_, rfl, h.delDone hleg⟩

end

lemma Reachable.inv (h : Reachable pageShift s) : Inv pageShift s := by
  induction h with
  | init =>
    refine ⟨⟨?_, ?_, ?_, ?_, ?_, ?_⟩, rfl⟩ <;> simp
  | step e _ hleg hexec ih =>
    obtain ⟨t, ht, hinv⟩ := ih.exec hleg
    rw [hexec] at ht
    cases ht
    exact hinv

/-- `swap_phys_alloc` answers zero exactly when no area is available; otherwise the range lies in an
available area, is apart from what is outstanding, and its bits are the ones newly set. In neither
case has `swap_getoff` failed. -/
def AllocExact (pageShift : Nat) (s : Sys) (q : Request) : Prop :=
  ((∀ a ∈ s.areas.swapinfo, ¬Available q a) ∧ ∃ t, Allocates pageShift q s.areas (none, t) ∧
      t.swapinfo.map SwapInfo.core = s.areas.swapinfo.map SwapInfo.core) ∨
    ∃ pre a post k n a' t, s.areas.swapinfo = pre ++ a :: post ∧ Available q a ∧ 0 < n ∧
      a.soff ≤ (a.range pageShift k n).off ∧
      (a.range pageShift k n).off + (a.range pageShift k n).len ≤ a.eoff ∧
      (∀ r ∈ s.out, (a.range pageShift k n).Apart r) ∧
      Allocates pageShift q s.areas (some (a.range pageShift k n), t) ∧
      Finset.Ico k (k + n) ⊆ a.swapslots.clear ∧
      a'.swapslots.clear = a.swapslots.clear \ Finset.Ico k (k + n) ∧
      t.swapinfo.map SwapInfo.core = (pre ++ a' :: post).map SwapInfo.core

structure SlotsExact (pageShift : Nat) (s : Sys) : Prop where
  counted : ∀ a ∈ s.areas.swapinfo, a.nfpgs = a.swapslots.clear.card
  beyond : ∀ a ∈ s.areas.swapinfo, ∀ i, a.npgs ≤ i → i < 32 * a.swapslots.length →
    a.swapslots.test? i = some true
  inside : ∀ r ∈ s.out, ∃ a ∈ s.areas.swapinfo, r.vp = a.vp ∧ a.soff ≤ r.off ∧ r.off + r.len ≤ a.eoff
  disjoint : s.out.Pairwise Range.Apart
  outstanding : ∀ a ∈ s.areas.swapinfo, ∀ i < a.npgs, a.swapslots.test? i = some true ↔
    ∃ r ∈ s.out, r.Holds a.vp (ptob pageShift i + a.soff)
  alloc : ∀ q, AllocExact pageShift s q
  defined : ∀ e, Legal pageShift s e → ∃ s', s.exec pageShift e = some s'

lemma Inv.allocExact (h : Inv pageShift s) (q : Request) : AllocExact pageShift s q := by
  rcases @swapPhysAlloc_spec pageShift q s.areas h.ok.wf h.last with
    ⟨hnone, t, hrun, hcore, -⟩ | ⟨pre, a, post, k, n, a', t, hl, hav, hn, ht, hrun, hcore, -⟩
  · exact .inl ⟨hnone, t, hrun, hcore⟩
  have hok := h.ok
  rw [hl] at hok
  have hwf := hok.wf a (by simp)
  have hin := range_inside hwf (ht.inside hwf hn)
  exact .inr ⟨pre, a, post, k, n, a', t, hl, hav, hn, hin.1, hin.2,
    fun r hr => hok.clear_apart hn ht.wereFree hr, hrun, ht.wereFree, ht.clear, hcore⟩

/-- In every run each slot is handed out at most once, and only slots of the areas are. -/
theorem swap_slots_exact (h : Reachable pageShift s) : SlotsExact pageShift s := by
  have hinv := h.inv
  have htest : ∀ a ∈ s.areas.swapinfo, ∀ i < 32 * a.swapslots.length,
      a.swapslots.test? i = some true ↔ i ∉ a.swapslots.clear := by
    intro a _ i hi
    obtain ⟨b, hb⟩ := Bitmap.test?_inside hi
    rw [Bitmap.mem_clear, hb]
    simp
  refine ⟨fun a ha => (hinv.ok.wf a ha).free, ?_, ?_, hinv.ok.disjoint, ?_, hinv.allocExact, ?_⟩
  · intro a ha i hle hlt
    rw [htest a ha i hlt]
    intro hi
    have := (hinv.ok.wf a ha).inside i hi
    omega
  · intro r hr
    obtain ⟨a, ha, k, n, -, hkn, rfl⟩ := hinv.ok.ranges r hr
    exact ⟨a, ha, rfl, range_inside (hinv.ok.wf a ha) hkn⟩
  · intro a ha i hi
    have hwords := (hinv.ok.wf a ha).words
    rw [htest a ha i (by omega), hinv.ok.slots a ha i hi]
    push Not
    rfl
  · intro e hleg
    obtain ⟨s', hs', -⟩ := hinv.exec hleg
    exact ⟨s', hs'⟩

/-- An area of four pages, the first two of which have been handed out. -/
def twoOfFour : Sys :=
  { areas :=
      { swapinfo := [⟨1, 7, 4096, 20480, 2, false, false, 4, 2, 4, [4294967283], 2⟩]
        silast := some 1 }
    out := [⟨7, 4096, 8192⟩] }

lemma twoOfFour_reachable : Reachable 12 twoOfFour := by
  have h1 : Reachable 12 ⟨swapadd 12 ⟨[], none⟩ 1 7 512 20480 20480, []⟩ :=
    Reachable.init.step (.add 1 7 512 20480 20480) (by simp [Legal]) rfl
  exact h1.step (.alloc ⟨0, 0, 8192, false, 256, 0⟩) trivial (by decide +kernel)

theorem swap_slots_exact_twoOfFour : SlotsExact 12 twoOfFour := swap_slots_exact twoOfFour_reachable

end Runs

end Solaris.SwapSlots
