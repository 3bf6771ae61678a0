import Solaris.Swap.SlotSpec

/-!
# The areas and the ranges handed out

The ranges that are outstanding are disjoint, each lies in one area, and the bits that are set are exactly theirs.
-/

namespace Solaris.SwapSlots

open Lib List

section Ranges

variable {vp x : Nat} {r : Range}

/-- The byte at an offset of a vnode belongs to the range. -/
def Range.Holds (r : Range) (vp x : Nat) : Prop := r.vp = vp ∧ r.off ≤ x ∧ x < r.off + r.len

def Range.Apart (r r' : Range) : Prop := r.vp = r'.vp → r.off + r.len ≤ r'.off ∨ r'.off + r'.len ≤ r.off

/-- The slots from `k` on, `n` of them. -/
def SwapInfo.range (pageShift : Nat) (a : SwapInfo) (k n : Nat) : Range :=
  ⟨a.vp, ptob pageShift k + a.soff, ptob pageShift n⟩

/-- What is left of a range when the part from `lo` to `hi` is freed. -/
def Range.cut (r : Range) (lo hi : Nat) : List Range :=
  (if lo = 0 then [] else [⟨r.vp, r.off, lo⟩]) ++
    if r.len = hi then [] else [⟨r.vp, r.off + hi, r.len - hi⟩]

lemma Range.Apart.symm {r' : Range} (h : r.Apart r') : r'.Apart r := fun hvp => (h hvp.symm).symm

lemma Range.Apart.not_holds {r' : Range} (h : r.Apart r') (hr : r.Holds vp x) : ¬r'.Holds vp x := by
  rintro ⟨hvp', hlo', hhi'⟩
  obtain ⟨hvp, hlo, hhi⟩ := hr
  rcases h (hvp.trans hvp'.symm) with hle | hle <;> omega

lemma Range.cut_holds {lo hi : Nat} (hlo : lo ≤ hi) (hhi : hi ≤ r.len) :
    (∃ p ∈ r.cut lo hi, p.Holds vp x) ↔ r.Holds vp x ∧ ¬(r.off + lo ≤ x ∧ x < r.off + hi) := by
  unfold Range.cut
  by_cases h1 : lo = 0
  · by_cases h2 : r.len = hi
    · simp only [h1, h2, if_true, append_nil, not_mem_nil, Range.Holds]
      simp only [false_and, exists_false, false_iff]
      omega
    · simp only [h1, h2, if_true, if_false, nil_append, mem_singleton, exists_eq_left, Range.Holds]
      omega
  by_cases h2 : r.len = hi
  · simp only [h1, h2, if_true, if_false, append_nil, mem_singleton, exists_eq_left, Range.Holds]
    omega
  · simp only [h1, h2, if_false, cons_append, nil_append, mem_cons, not_mem_nil,
      or_false, exists_eq_or_imp, exists_eq_left, Range.Holds]
    omega

lemma Range.cut_apart {lo hi : Nat} (hlo : lo ≤ hi) : (r.cut lo hi).Pairwise Range.Apart := by
  unfold Range.cut
  split
  · split <;> simp
  split
  · simp
  · rw [cons_append, nil_append, pairwise_pair]
    intro _
    left
    dsimp only
    omega

lemma Range.mem_cut {lo hi : Nat} {p : Range} (hp : p ∈ r.cut lo hi) :
    (lo ≠ 0 ∧ p = ⟨r.vp, r.off, lo⟩) ∨ (r.len ≠ hi ∧ p = ⟨r.vp, r.off + hi, r.len - hi⟩) := by
  unfold Range.cut at hp
  rw [mem_append] at hp
  rcases hp with hp | hp
  · split at hp
    · cases hp
    · next hne => exact .inl ⟨hne, mem_singleton.mp hp⟩
  · split at hp
    · cases hp
    · next hne => exact .inr ⟨hne, mem_singleton.mp hp⟩

lemma Range.cut_apart_other {lo hi : Nat} (hlo : lo ≤ hi) (hhi : hi ≤ r.len) {p r' : Range}
    (hp : p ∈ r.cut lo hi) (hap : r.Apart r') : p.Apart r' := by
  intro hvp
  rcases Range.mem_cut hp with ⟨-, rfl⟩ | ⟨-, rfl⟩
  · dsimp only at hvp ⊢
    rcases hap hvp with hle | hle <;> omega
  · dsimp only at hvp ⊢
    rcases hap hvp with hle | hle <;> omega

end Ranges

/-- An area without what the accounting does not look at. -/
def SwapInfo.core (a : SwapInfo) : SwapInfo := { a with allocs := 0, inDel := false, doingDel := false }

structure AreasOk (pageShift : Nat) (l : List SwapInfo) (out : List Range) : Prop where
  addrs : (l.map SwapInfo.addr).Nodup
  wf : ∀ a ∈ l, a.Wf pageShift
  apart : l.Pairwise fun a b => a.vp = b.vp → a.eoff ≤ b.soff ∨ b.eoff ≤ a.soff
  slots : ∀ a ∈ l, ∀ i < a.npgs, i ∈ a.swapslots.clear ↔
    ∀ r ∈ out, ¬r.Holds a.vp (ptob pageShift i + a.soff)
  ranges : ∀ r ∈ out, ∃ a ∈ l, ∃ k n, 0 < n ∧ k + n ≤ a.npgs ∧ r = a.range pageShift k n
  disjoint : out.Pairwise Range.Apart

section Core

variable {pageShift : Nat} {l l' : List SwapInfo} {out : List Range}

lemma SwapInfo.wf_core {a : SwapInfo} : a.core.Wf pageShift ↔ a.Wf pageShift := by
  constructor
  · rintro ⟨h1, h2, h3, h4, h5, h6, h7, h8⟩
    exact ⟨h1, h2, h3, h4, h5, h6, h7, h8⟩
  · rintro ⟨h1, h2, h3, h4, h5, h6, h7, h8⟩
    exact ⟨h1, h2, h3, h4, h5, h6, h7, h8⟩

lemma mem_of_core (h : l.map SwapInfo.core = l'.map SwapInfo.core) {a : SwapInfo} (ha : a ∈ l) :
    ∃ b ∈ l', b.core = a.core := by
  have hm : a.core ∈ l'.map SwapInfo.core := by
    rw [← h]
    exact mem_map_of_mem ha
  exact mem_map.mp hm

lemma AreasOk.of_core (h : AreasOk pageShift l out) (hc : l'.map SwapInfo.core = l.map SwapInfo.core) :
    AreasOk pageShift l' out := by
  obtain ⟨haddr, hwf, hapart, hslots, hranges, hdis⟩ := h
  refine ⟨?_, ?_, ?_, ?_, ?_, hdis⟩
  · have he : l'.map SwapInfo.addr = l.map SwapInfo.addr := by
      have := congrArg (List.map SwapInfo.addr) hc
      rw [map_map, map_map] at this
      exact this
    rw [he]
    exact haddr
  · intro a ha
    obtain ⟨b, hb, he⟩ := mem_of_core hc ha
    have hb' := SwapInfo.wf_core.mpr (hwf b hb)
    rw [he] at hb'
    exact SwapInfo.wf_core.mp hb'
  · have hp : (l.map SwapInfo.core).Pairwise fun a b => a.vp = b.vp → a.eoff ≤ b.soff ∨ b.eoff ≤ a.soff := by
      rw [pairwise_map]
      exact hapart
    rw [← hc, pairwise_map] at hp
    exact hp
  · intro a ha
    obtain ⟨b, hb, he⟩ := mem_of_core hc ha
    have hb' := hslots b hb
    change ∀ i < b.core.npgs, i ∈ b.core.swapslots.clear ↔
      ∀ r ∈ out, ¬r.Holds b.core.vp (ptob pageShift i + b.core.soff) at hb'
    rw [he] at hb'
    exact hb'
  · intro r hr
    obtain ⟨a, ha, k, n, hn, hkn, hre⟩ := hranges r hr
    obtain ⟨b, hb, he⟩ := mem_of_core hc.symm ha
    refine ⟨b, hb, k, n, hn, ?_, ?_⟩
    · change k + n ≤ b.core.npgs
      rw [he]
      exact hkn
    · change r = b.core.range pageShift k n
      rw [he]
      exact hre

end Core

section Steps

variable {pageShift : Nat} {pre post l : List SwapInfo} {a : SwapInfo} {out : List Range} {k n : Nat}

lemma range_holds {i : Nat} :
    (a.range pageShift k n).Holds a.vp (ptob pageShift i + a.soff) ↔ k ≤ i ∧ i < k + n := by
  unfold SwapInfo.range Range.Holds
  have h1 : ptob pageShift k ≤ ptob pageShift i ↔ k ≤ i := ptob_le_iff
  have h2 : ptob pageShift i < ptob pageShift (k + n) ↔ i < k + n := ptob_lt_iff
  rw [ptob_add] at h2
  constructor
  · rintro ⟨-, h3, h4⟩
    dsimp only at h3 h4
    exact ⟨h1.mp (by omega), h2.mp (by omega)⟩
  · rintro ⟨h3, h4⟩
    exact ⟨rfl, by dsimp only; omega, by dsimp only; omega⟩

lemma range_inside (hwf : a.Wf pageShift) (hkn : k + n ≤ a.npgs) :
    a.soff ≤ (a.range pageShift k n).off ∧
      (a.range pageShift k n).off + (a.range pageShift k n).len ≤ a.eoff := by
  have h1 : ptob pageShift (k + n) ≤ ptob pageShift a.npgs := ptob_le_iff.mpr hkn
  have h2 := hwf.size
  rw [ptob_add] at h1
  unfold SwapInfo.range
  dsimp only
  omega

lemma AreasOk.apart_other (h : AreasOk pageShift (pre ++ a :: post) out) {b : SwapInfo}
    (hb : b ∈ pre ∨ b ∈ post) (hvp : b.vp = a.vp) : b.eoff ≤ a.soff ∨ a.eoff ≤ b.soff := by
  have hp := h.apart
  rw [pairwise_append, pairwise_cons] at hp
  obtain ⟨-, ⟨hpost, -⟩, hpre⟩ := hp
  rcases hb with hb | hb
  · exact hpre b hb a (mem_cons_self ..) hvp
  · rcases hpost b hb hvp.symm with hle | hle
    · exact .inr hle
    · exact .inl hle

lemma not_holds_of_apart {b : SwapInfo} (ha : a.Wf pageShift) (hb : b.Wf pageShift)
    (hap : b.vp = a.vp → b.eoff ≤ a.soff ∨ a.eoff ≤ b.soff) (hkn : k + n ≤ b.npgs) {i : Nat}
    (hi : i < a.npgs) : ¬(b.range pageShift k n).Holds a.vp (ptob pageShift i + a.soff) := by
  rintro ⟨hvp, hlo, hhi⟩
  have hin := range_inside hb hkn
  have hsize := ha.size
  have hlt : ptob pageShift i < ptob pageShift a.npgs := ptob_lt_iff.mpr hi
  rcases hap hvp with hle | hle <;> omega

lemma range_apart {k' n' : Nat} (h : k + n ≤ k' ∨ k' + n' ≤ k) :
    (a.range pageShift k n).Apart (a.range pageShift k' n') := by
  intro _
  unfold SwapInfo.range
  dsimp only
  rcases h with h | h
  · have : ptob pageShift (k + n) ≤ ptob pageShift k' := ptob_le_iff.mpr h
    rw [ptob_add] at this
    left
    omega
  · have : ptob pageShift (k' + n') ≤ ptob pageShift k := ptob_le_iff.mpr h
    rw [ptob_add] at this
    right
    omega

lemma mem_split {b : SwapInfo} (hb : b ∈ pre ++ a :: post) : b = a ∨ b ∈ pre ∨ b ∈ post := by
  rw [mem_append, mem_cons] at hb
  tauto

lemma AreasOk.clear_apart (h : AreasOk pageShift (pre ++ a :: post) out) (hn : 0 < n)
    (hclear : Finset.Ico k (k + n) ⊆ a.swapslots.clear) {r : Range} (hr : r ∈ out) :
    (a.range pageShift k n).Apart r := by
  have hwf := h.wf a (by simp)
  have hkn : k + n ≤ a.npgs := by
    have := hwf.inside (k + n - 1) (hclear (Finset.mem_Ico.mpr ⟨by omega, by omega⟩))
    omega
  obtain ⟨b, hb, k', n', hn', hkn', rfl⟩ := h.ranges r hr
  rcases mem_split hb with rfl | hb
  · apply range_apart
    by_contra hover
    -- the larger of the two starts is a common slot
    have hmem : max k k' ∈ b.swapslots.clear := hclear (Finset.mem_Ico.mpr ⟨by omega, by omega⟩)
    have hnot := (h.slots b (by simp) _ (hwf.inside _ hmem)).mp hmem _ hr
    exact hnot (range_holds.mpr ⟨by omega, by omega⟩)
  intro hvp
  have hin := range_inside hwf hkn
  have hmem : b ∈ pre ++ a :: post := by
    rcases hb with hb | hb <;> simp [hb]
  have hin' := range_inside (h.wf b hmem) hkn'
  rcases h.apart_other hb hvp.symm with hle | hle
  · right
    omega
  · left
    omega

lemma AreasOk.replace (h : AreasOk pageShift (pre ++ a :: post) out) {a' : SwapInfo} {out' : List Range}
    (hplace : a'.addr = a.addr ∧ a'.vp = a.vp ∧ a'.soff = a.soff ∧ a'.eoff = a.eoff ∧ a'.npgs = a.npgs)
    (hwf : a'.Wf pageShift)
    (hslots : ∀ i < a.npgs, i ∈ a'.swapslots.clear ↔ ∀ r ∈ out', ¬r.Holds a.vp (ptob pageShift i + a.soff))
    (hothers : ∀ b, b ∈ pre ∨ b ∈ post → ∀ i < b.npgs,
      (∀ r ∈ out', ¬r.Holds b.vp (ptob pageShift i + b.soff)) ↔
        ∀ r ∈ out, ¬r.Holds b.vp (ptob pageShift i + b.soff))
    (hranges : ∀ r ∈ out', ∃ b ∈ pre ++ a :: post, ∃ k n, 0 < n ∧ k + n ≤ b.npgs ∧
      r = b.range pageShift k n)
    (hdis : out'.Pairwise Range.Apart) : AreasOk pageShift (pre ++ a' :: post) out' := by
  obtain ⟨haddr, hvp, hsoff, heoff, hnpgs⟩ := hplace
  have hback : ∀ b, b ∈ pre ∨ b ∈ post → b ∈ pre ++ a :: post := by
    rintro b (hb | hb) <;> simp [hb]
  refine ⟨?_, ?_, ?_, ?_, ?_, hdis⟩
  · have := h.addrs
    rw [map_append, map_cons] at this ⊢
    rw [haddr]
    exact this
  · intro b hb
    rcases mem_split hb with rfl | hb
    · exact hwf
    · exact h.wf b (hback b hb)
  · have := h.apart
    rw [pairwise_append, pairwise_cons] at this ⊢
    obtain ⟨hpre, ⟨hpost, hpp⟩, hcross⟩ := this
    refine ⟨hpre, ⟨?_, hpp⟩, ?_⟩
    · intro b hb
      rw [hvp, hsoff, heoff]
      exact hpost b hb
    · intro b hb c hc
      rcases mem_cons.mp hc with rfl | hc
      · rw [hvp, hsoff, heoff]
        exact hcross b hb a (mem_cons_self ..)
      · exact hcross b hb c (mem_cons_of_mem _ hc)
  · intro b hb i hi
    rcases mem_split hb with rfl | hb
    · rw [hvp, hsoff]
      rw [hnpgs] at hi
      exact hslots i hi
    · rw [hothers b hb i hi]
      exact h.slots b (hback b hb) i hi
  · intro r hr
    obtain ⟨b, hb, k, n, hn, hkn, hre⟩ := hranges r hr
    rcases mem_split hb with rfl | hb
    · refine ⟨a', by simp, k, n, hn, by rw [hnpgs]; exact hkn, ?_⟩
      rw [hre]
      unfold SwapInfo.range
      rw [hvp, hsoff]
    · refine ⟨b, ?_, k, n, hn, hkn, hre⟩
      rcases hb with hb | hb <;> simp [hb]

lemma AreasOk.take (h : AreasOk pageShift (pre ++ a :: post) out) {a' : SwapInfo} (hn : 0 < n)
    (ht : Taken a k n a') : AreasOk pageShift (pre ++ a' :: post) (a.range pageShift k n :: out) := by
  have hwf := h.wf a (by simp)
  have hkn := ht.inside hwf hn
  apply h.replace
  · rw [ht.eq]
    exact ⟨rfl, rfl, rfl, rfl, rfl⟩
  · exact ht.wf hwf
  · intro i hi
    rw [ht.clear, Finset.mem_sdiff, h.slots a (by simp) i hi, forall_mem_cons, range_holds,
      Finset.mem_Ico]
    tauto
  · intro b hb i hi
    rw [forall_mem_cons]
    refine ⟨fun hall => hall.2, fun hall => ⟨?_, hall⟩⟩
    have hmem : b ∈ pre ++ a :: post := by
      rcases hb with hb | hb <;> simp [hb]
    exact not_holds_of_apart (h.wf b hmem) hwf (fun hvp => (h.apart_other hb hvp.symm).symm) hkn hi
  · exact forall_mem_cons.mpr ⟨⟨a, by simp, k, n, hn, hkn, rfl⟩, h.ranges⟩
  · rw [pairwise_cons]
    exact ⟨fun r hr => h.clear_apart hn ht.wereFree hr, h.disjoint⟩

lemma AreasOk.give {before after : List Range} {j m : Nat} {map : Bitmap 32}
    (h : AreasOk pageShift (pre ++ a :: post) (before ++ a.range pageShift k n :: after))
    (hkn : k + n ≤ a.npgs) (hjm : j + m ≤ n) (hlen : map.length = a.swapslots.length)
    (hclear : map.clear = a.swapslots.clear ∪ Finset.Ico (k + j) (k + j + m)) :
    AreasOk pageShift (pre ++ { a with swapslots := map, nfpgs := map.clear.card } :: post)
      (before ++ (a.range pageShift k n).cut (ptob pageShift j) (ptob pageShift (j + m)) ++ after) := by
  have hwf := h.wf a (by simp)
  have hlo : ptob pageShift j ≤ ptob pageShift (j + m) := ptob_le_iff.mpr (by omega)
  have hhi : ptob pageShift (j + m) ≤ (a.range pageShift k n).len := ptob_le_iff.mpr hjm
  -- what the parts hold: the slots of the range that stay
  have hholds : ∀ vp x, (∀ r ∈ before ++ (a.range pageShift k n).cut (ptob pageShift j)
      (ptob pageShift (j + m)) ++ after, ¬r.Holds vp x) ↔
      (∀ r ∈ before ++ after, ¬r.Holds vp x) ∧ ¬((a.range pageShift k n).Holds vp x ∧
        ¬((a.range pageShift k n).off + ptob pageShift j ≤ x ∧
          x < (a.range pageShift k n).off + ptob pageShift (j + m))) := by
    intro vp x
    rw [← Range.cut_holds hlo hhi]
    simp only [mem_append]
    constructor
    · intro hall
      refine ⟨?_, ?_⟩
      · rintro r (hr | hr)
        · exact hall r (.inl (.inl hr))
        · exact hall r (.inr hr)
      · rintro ⟨p, hp, hpx⟩
        exact hall p (.inl (.inr hp)) hpx
    · rintro ⟨hall, hno⟩ r ((hr | hr) | hr)
      · exact hall r (.inl hr)
      · exact fun hx => hno ⟨r, hr, hx⟩
      · exact hall r (.inr hr)
  have hout : ∀ vp x, (∀ r ∈ before ++ a.range pageShift k n :: after, ¬r.Holds vp x) ↔
      (∀ r ∈ before ++ after, ¬r.Holds vp x) ∧ ¬(a.range pageShift k n).Holds vp x := by
    intro vp x
    simp only [mem_append, mem_cons]
    constructor
    · intro hall
      refine ⟨?_, hall _ (.inr (.inl rfl))⟩
      rintro r (hr | hr)
      · exact hall r (.inl hr)
      · exact hall r (.inr (.inr hr))
    · rintro ⟨hall, hno⟩ r (hr | rfl | hr)
      · exact hall r (.inl hr)
      · exact hno
      · exact hall r (.inr hr)
  have hdis := h.disjoint
  rw [pairwise_middle Range.Apart.symm, pairwise_cons] at hdis
  obtain ⟨hapart, hothers⟩ := hdis
  apply h.replace
  · exact ⟨rfl, rfl, rfl, rfl, rfl⟩
  · refine ⟨hwf.pages, hwf.size, hwf.top, ?_, ?_, hwf.hint, rfl, ?_⟩
    · dsimp only
      rw [hlen]
      exact hwf.words
    · dsimp only
      rw [hlen]
      exact hwf.mapsize
    · dsimp only
      intro i hi
      rw [hclear, Finset.mem_union, Finset.mem_Ico] at hi
      rcases hi with hi | hi
      · exact hwf.inside i hi
      · omega
  · intro i hi
    have hpart : ((a.range pageShift k n).off + ptob pageShift j ≤ ptob pageShift i + a.soff ∧
        ptob pageShift i + a.soff < (a.range pageShift k n).off + ptob pageShift (j + m)) ↔
        k + j ≤ i ∧ i < k + j + m := by
      have h1 : ptob pageShift (k + j) ≤ ptob pageShift i ↔ k + j ≤ i := ptob_le_iff
      have h2 : ptob pageShift i < ptob pageShift (k + (j + m)) ↔ i < k + (j + m) := ptob_lt_iff
      rw [ptob_add] at h1 h2
      unfold SwapInfo.range
      dsimp only
      omega
    rw [hclear, Finset.mem_union, h.slots a (by simp) i hi, hout, hholds, Finset.mem_Ico, range_holds, hpart]
    constructor
    · rintro (⟨hall, hno⟩ | hin)
      · exact ⟨hall, fun hc => hno hc.1⟩
      · refine ⟨?_, fun hc => hc.2 hin⟩
        intro r hr
        exact (hapart r hr).not_holds (range_holds.mpr ⟨by omega, by omega⟩)
    · rintro ⟨hall, hno⟩
      by_cases hin : k + j ≤ i ∧ i < k + j + m
      · exact .inr hin
      · exact .inl ⟨hall, fun hc => hno ⟨hc, hin⟩⟩
  · intro b hb i hi
    have hmem : b ∈ pre ++ a :: post := by
      rcases hb with hb | hb <;> simp [hb]
    have hno := not_holds_of_apart (h.wf b hmem) hwf (fun hvp => (h.apart_other hb hvp.symm).symm) hkn hi
    rw [hholds, hout]
    tauto
  · intro r hr
    rw [mem_append, mem_append] at hr
    rcases hr with (hr | hr) | hr
    · exact h.ranges r (by simp [hr])
    · refine ⟨a, by simp, ?_⟩
      rcases Range.mem_cut hr with ⟨hne, rfl⟩ | ⟨hne, rfl⟩
      · have hj : j ≠ 0 := by
          rintro rfl
          exact hne (Nat.zero_mul _)
        exact ⟨k, j, by omega, by omega, rfl⟩
      have hjm' : n ≠ j + m := by
        rintro rfl
        exact hne rfl
      refine ⟨k + (j + m), n - (j + m), by omega, by omega, ?_⟩
      unfold SwapInfo.range
      dsimp only
      have hn : n = n - (j + m) + (j + m) := by omega
      rw [ptob_add (i := k)]
      have hsub : ptob pageShift n - ptob pageShift (j + m) = ptob pageShift (n - (j + m)) := by
        rw [hn, ptob_add, Nat.add_sub_cancel, Nat.add_sub_cancel]
      congr 1
      omega
    · exact h.ranges r (by simp [hr])
  · rw [append_assoc, pairwise_append, pairwise_append]
    rw [pairwise_append] at hothers
    obtain ⟨hb, ha, hba⟩ := hothers
    refine ⟨hb, ⟨Range.cut_apart hlo, ha, ?_⟩, ?_⟩
    · intro p hp r hr
      exact Range.cut_apart_other hlo hhi hp (hapart r (by simp [hr]))
    · intro r hr p hp
      rcases mem_append.mp hp with hp | hp
      · exact (Range.cut_apart_other hlo hhi hp (hapart r (by simp [hr]))).symm
      · exact hba r hr p hp

lemma AreasOk.remove (h : AreasOk pageShift (pre ++ a :: post) out)
    (hfree : ∀ i < a.npgs, i ∈ a.swapslots.clear) : AreasOk pageShift (pre ++ post) out := by
  have hsub : (pre ++ post).Sublist (pre ++ a :: post) :=
    List.Sublist.append_left (sublist_cons_self a post) pre
  refine ⟨?_, ?_, h.apart.sublist hsub, ?_, ?_, h.disjoint⟩
  · exact h.addrs.sublist (hsub.map _)
  · exact fun b hb => h.wf b (hsub.subset hb)
  · exact fun b hb => h.slots b (hsub.subset hb)
  · intro r hr
    obtain ⟨b, hb, k, n, hn, hkn, rfl⟩ := h.ranges r hr
    rcases mem_split hb with rfl | hb
    · exfalso
      have hk := (h.slots b (by simp) k (by omega)).mp (hfree k (by omega)) _ hr
      exact hk (range_holds.mpr ⟨le_rfl, by omega⟩)
    · exact ⟨b, mem_append.mpr hb, k, n, hn, hkn, rfl⟩

lemma AreasOk.join (h : AreasOk pageShift l out) (hwf : a.Wf pageShift)
    (haddr : ∀ b ∈ l, b.addr ≠ a.addr)
    (hap : ∀ b ∈ l, b.vp = a.vp → b.eoff ≤ a.soff ∨ a.eoff ≤ b.soff)
    (hfree : ∀ i < a.npgs, i ∈ a.swapslots.clear) : AreasOk pageShift (l ++ [a]) out := by
  refine ⟨?_, ?_, ?_, ?_, ?_, h.disjoint⟩
  · rw [map_append, nodup_append]
    refine ⟨h.addrs, nodup_singleton _, ?_⟩
    intro x hx y hy
    obtain ⟨b, hb, rfl⟩ := mem_map.mp hx
    rw [map_singleton, mem_singleton] at hy
    rw [hy]
    exact haddr b hb
  · exact forall_mem_append.mpr ⟨h.wf, forall_mem_singleton.mpr hwf⟩
  · rw [pairwise_append]
    refine ⟨h.apart, pairwise_singleton _ _, ?_⟩
    intro b hb c hc
    rw [mem_singleton.mp hc]
    exact hap b hb
  · refine forall_mem_append.mpr ⟨h.slots, fun b hb => ?_⟩
    rw [mem_singleton.mp hb]
    intro i hi
    refine ⟨fun _ r hr => ?_, fun _ => hfree i hi⟩
    obtain ⟨c, hc, k, n, -, hkn, rfl⟩ := h.ranges r hr
    exact not_holds_of_apart hwf (h.wf c hc) (hap c hc) hkn hi
  · intro r hr
    obtain ⟨b, hb, hex⟩ := h.ranges r hr
    exact ⟨b, mem_append_left _ hb, hex⟩

end Steps

end Solaris.SwapSlots
