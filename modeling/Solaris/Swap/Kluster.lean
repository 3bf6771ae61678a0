import Solaris.Swap.SlotRuns

/-!
# Backing a kluster

`swap_newphysname` of `vm_swap.c`: slots are allocated in one piece and given to the anons of as many
pages of a vnode, which may already have slots, or may be missing. The anon table is a function from
the name of a page, a vnode and an offset, to what its anon records, if there is one.
-/

namespace Solaris.SwapSlots

open Lib List Function Option

abbrev Page := Nat × Nat

/-- For each name with an anon the slot it records, if it has one. -/
abbrev Anons := Page → Option (Option Page)

inductive SwapErr
  | ok
  | noanon
  | noswap

/-- The error, and what is returned in `*offp`, `*lenp`, and in `*pvpp` with `*poffp`. -/
structure Newphys where
  error : SwapErr
  off : Nat
  len : Nat
  slot : Option Page

variable (pageShift : Nat)

def freeOld : Option Page → List SwapInfo → Option (List SwapInfo)
  | none, l => some l
  | some (pvp, poff), l => swapPhysFree pageShift ⟨pvp, poff, pageSize pageShift⟩ l

/-- The loop over the pages of the kluster, with the number of turns left. -/
def klusterLoop (vp offset pvp start pstart plen : Nat) :
    Nat → Nat → Nat → Anons → List SwapInfo → Option (Newphys × Anons × List SwapInfo)
  | 0, _, _, anons, l => some (⟨.ok, start, plen, some (pvp, pstart)⟩, anons, l)
  | turns + 1, off, poff, anons, l =>
    match anons (vp, off) with
    | some old =>
      match freeOld pageShift old l with
      | none => none
      | some l =>
        klusterLoop vp offset pvp start pstart plen turns (off + pageSize pageShift)
          (poff + pageSize pageShift) (update anons (vp, off) (some (some (pvp, poff)))) l
    | none =>
      let prem := pstart + plen - poff
      if offset < off then
        (swapPhysFree pageShift ⟨pvp, poff, prem⟩ l).map fun l =>
          (⟨.ok, start, poff - pstart, some (pvp, pstart)⟩, anons, l)
      else if off = offset then
        (swapPhysFree pageShift ⟨pvp, poff, prem⟩ l).map fun l =>
          (⟨.noanon, start, plen, some (pvp, pstart)⟩, anons, l)
      else
        match anons (vp, offset) with
        | none =>
          (swapPhysFree pageShift ⟨pvp, poff, prem⟩ l).map fun l =>
            (⟨.noanon, start, plen, some (pvp, pstart)⟩, anons, l)
        | some old =>
          match freeOld pageShift old l with
          | none => none
          | some l =>
            (swapPhysFree pageShift
              ⟨pvp, poff + pageSize pageShift, prem - pageSize pageShift⟩ l).map fun l =>
              (⟨.ok, offset, pageSize pageShift, some (pvp, poff)⟩,
                update anons (vp, offset) (some (some (pvp, poff))), l)

/-- Without a slot to be had the requested page may still be backed. -/
def alreadyBacked (vp offset offp lenp : Nat) (anons : Anons) : Newphys :=
  match anons (vp, offset) with
  | none => ⟨.noanon, offp, lenp, none⟩
  | some none => ⟨.noswap, offset, pageSize pageShift, none⟩
  | some (some slot) => ⟨.ok, offset, pageSize pageShift, some slot⟩

/-- `swap_newphysname`, with the two tunables that `swap_phys_alloc` reads. -/
def swapNewphysname (maxcontig : Int) (allocMaxcontig vp offset offp lenp : Nat) (anons : Anons)
    (s : Areas) : Option (Newphys × Anons × Areas) :=
  match swapPhysAlloc pageShift ⟨0, 0, lenp, false, maxcontig, allocMaxcontig⟩ s with
  | none => none
  | some (none, s) => some (alreadyBacked pageShift vp offset offp lenp anons, anons, s)
  | some (some r, s) =>
    let start := max offp (if r.len < (offset + pageSize pageShift) % 2 ^ 32 then
      (offset + pageSize pageShift) % 2 ^ 32 - r.len else 0)
    (klusterLoop pageShift vp offset r.vp start r.off r.len (btopr pageShift r.len) start r.off anons
      s.swapinfo).map fun x => (x.1, x.2.1, { s with swapinfo := x.2.2 })

section Held

def held (l : List SwapInfo) : Set Page :=
  {p | ∃ a ∈ l, a.vp = p.1 ∧ ∃ i < a.npgs, i ∉ a.swapslots.clear ∧ p.2 = ptob pageShift i + a.soff}

/-- The slots from `k` on of an area, `n` of them. -/
def slots (a : SwapInfo) (k n : Nat) : Set Page :=
  {p | p.1 = a.vp ∧ ∃ i, k ≤ i ∧ i < k + n ∧ p.2 = ptob pageShift i + a.soff}

structure AreasWf (l : List SwapInfo) : Prop where
  wf : ∀ a ∈ l, a.Wf pageShift
  apart : l.Pairwise fun a b => a.vp = b.vp → a.eoff ≤ b.soff ∨ b.eoff ≤ a.soff

def SwapInfo.site (a : SwapInfo) : Nat × Nat × Nat := (a.vp, a.soff, a.npgs)

variable {pageShift} {l pre post : List SwapInfo} {a b : SwapInfo} {k n : Nat}

lemma AreasWf.apart_other (h : AreasWf pageShift (pre ++ a :: post)) (hb : b ∈ pre ∨ b ∈ post)
    (hvp : b.vp = a.vp) : a.eoff ≤ b.soff ∨ b.eoff ≤ a.soff := by
  obtain ⟨-, hpost, hpre⟩ := pairwise_append.mp h.apart
  rcases hb with hb | hb
  · exact (hpre b hb a mem_cons_self hvp).symm
  · exact (pairwise_cons.mp hpost).1 b hb hvp.symm

lemma slot_lt (h : a.Wf pageShift) {i : Nat} (hi : i < a.npgs) :
    a.soff ≤ ptob pageShift i + a.soff ∧ ptob pageShift i + a.soff < a.eoff := by
  have hlt : ptob pageShift i < ptob pageShift a.npgs := ptob_lt_iff.mpr hi
  have hsize := h.size
  omega

lemma AreasWf.not_other (h : AreasWf pageShift (pre ++ a :: post)) {i : Nat} (hi : i < a.npgs)
    (hb : b ∈ pre ∨ b ∈ post) :
    ¬(b.vp = a.vp ∧ b.soff ≤ ptob pageShift i + a.soff ∧ ptob pageShift i + a.soff < b.eoff) := by
  rintro ⟨hvp, hlo, hhi⟩
  have ha := slot_lt (h.wf a (by simp)) hi
  rcases h.apart_other hb hvp with hle | hle
  · omega
  · omega

def SwapInfo.heldSlots (pageShift : Nat) (a : SwapInfo) : Set Page :=
  {p | p.1 = a.vp ∧ ∃ i < a.npgs, i ∉ a.swapslots.clear ∧ p.2 = ptob pageShift i + a.soff}

lemma held_cons : held pageShift (a :: l) = a.heldSlots pageShift ∪ held pageShift l := by
  ext p
  constructor
  · rintro ⟨b, hb, hvp, hi⟩
    rcases mem_cons.mp hb with rfl | hb
    · exact .inl ⟨hvp.symm, hi⟩
    · exact .inr ⟨b, hb, hvp, hi⟩
  · rintro (⟨hvp, hi⟩ | ⟨b, hb, hvp, hi⟩)
    · exact ⟨a, mem_cons_self, hvp.symm, hi⟩
    · exact ⟨b, mem_cons_of_mem a hb, hvp, hi⟩

lemma held_append {l' : List SwapInfo} : held pageShift (l ++ l') = held pageShift l ∪ held pageShift l' := by
  induction l with
  | nil =>
    have hnil : held pageShift [] = ∅ := by
      ext p
      constructor
      · rintro ⟨b, hb, -⟩
        cases hb
      · exact fun h => absurd h (Set.notMem_empty p)
    rw [hnil, Set.empty_union, nil_append]
  | cons b l ih => rw [cons_append, held_cons, held_cons, ih, Set.union_assoc]

lemma AreasWf.slots_other (h : AreasWf pageShift (pre ++ a :: post)) (hkn : k + n ≤ a.npgs) {p : Page}
    (hp : p ∈ slots pageShift a k n) : p ∉ held pageShift pre ∧ p ∉ held pageShift post := by
  obtain ⟨hvp, i, -, hi, hoff⟩ := hp
  have hnot (b : SwapInfo) (hb : b ∈ pre ∨ b ∈ post) (hbvp : b.vp = p.1) (j : Nat) (hj : j < b.npgs)
      (hjoff : p.2 = ptob pageShift j + b.soff) : False := by
    have hbmem : b ∈ pre ++ a :: post := by
      rcases hb with hb | hb
      · exact mem_append_left _ hb
      · exact mem_append_right _ (mem_cons_of_mem a hb)
    have hlt := slot_lt (h.wf b hbmem) hj
    refine h.not_other (i := i) (by omega) hb ⟨hbvp.trans hvp, by omega, by omega⟩
  constructor
  · rintro ⟨b, hb, hbvp, j, hj, -, hjoff⟩
    exact hnot b (.inl hb) hbvp j hj hjoff
  · rintro ⟨b, hb, hbvp, j, hj, -, hjoff⟩
    exact hnot b (.inr hb) hbvp j hj hjoff

lemma ptob_soff_inj {i j : Nat} (h : ptob pageShift i + a.soff = ptob pageShift j + a.soff) : i = j :=
  ptob_inj (Nat.add_right_cancel h)

lemma heldSlots_free {map : Bitmap 32} {nfpgs : Nat}
    (hclear : map.clear = a.swapslots.clear ∪ Finset.Ico k (k + n)) :
    SwapInfo.heldSlots pageShift { a with swapslots := map, nfpgs := nfpgs } =
      a.heldSlots pageShift \ slots pageShift a k n := by
  ext p
  constructor
  · rintro ⟨hvp, i, hi, hset, hoff⟩
    rw [hclear, Finset.mem_union, Finset.mem_Ico, not_or] at hset
    refine ⟨⟨hvp, i, hi, hset.1, hoff⟩, ?_⟩
    rintro ⟨-, j, hkj, hjn, hjoff⟩
    have hij : i = j := ptob_soff_inj (hoff.symm.trans hjoff)
    omega
  · rintro ⟨⟨hvp, i, hi, hset, hoff⟩, hnot⟩
    refine ⟨hvp, i, hi, ?_, hoff⟩
    rw [hclear, Finset.mem_union, Finset.mem_Ico]
    rintro (hc | ⟨hlo, hhi⟩)
    · exact hset hc
    · exact hnot ⟨hvp, i, hlo, hhi, hoff⟩

lemma heldSlots_take {a' : SwapInfo} (ht : Taken a k n a') (hkn : k + n ≤ a.npgs) :
    a'.heldSlots pageShift = a.heldSlots pageShift ∪ slots pageShift a k n := by
  have hvp : a'.vp = a.vp := by rw [ht.eq]
  have hnpgs := ht.npgs
  have hsoff := ht.soff
  ext p
  constructor
  · rintro ⟨hp, i, hi, hset, hoff⟩
    rw [hvp] at hp
    rw [hnpgs] at hi
    rw [hsoff] at hoff
    rw [ht.clear, Finset.mem_sdiff] at hset
    by_cases hin : i ∈ Finset.Ico k (k + n)
    · obtain ⟨hlo, hhi⟩ := Finset.mem_Ico.mp hin
      exact .inr ⟨hp, i, hlo, hhi, hoff⟩
    · exact .inl ⟨hp, i, hi, fun hc => hset ⟨hc, hin⟩, hoff⟩
  · rintro (⟨hp, i, hi, hc, hoff⟩ | ⟨hp, i, hlo, hhi, hoff⟩)
    · refine ⟨hvp ▸ hp, i, hnpgs ▸ hi, ?_, hsoff ▸ hoff⟩
      rw [ht.clear, Finset.mem_sdiff]
      exact fun h => hc h.1
    · refine ⟨hvp ▸ hp, i, by omega, ?_, hsoff ▸ hoff⟩
      rw [ht.clear, Finset.mem_sdiff]
      exact fun h => h.2 (Finset.mem_Ico.mpr ⟨hlo, hhi⟩)

end Held

section Operations

variable {pageShift : Nat} {l pre post : List SwapInfo} {a : SwapInfo} {k n : Nat}

lemma AreasWf.replace {a' : SwapInfo} (h : AreasWf pageShift (pre ++ a :: post)) (hwf : a'.Wf pageShift)
    (hvp : a'.vp = a.vp) (hsoff : a'.soff = a.soff) (heoff : a'.eoff = a.eoff) :
    AreasWf pageShift (pre ++ a' :: post) := by
  refine ⟨fun b hb => ?_, ?_⟩
  · rcases mem_append.mp hb with hb | hb
    · exact h.wf b (mem_append_left _ hb)
    · rcases mem_cons.mp hb with rfl | hb
      · exact hwf
      · exact h.wf b (mem_append_right _ (mem_cons_of_mem a hb))
  · obtain ⟨hpre, hpost, hcross⟩ := pairwise_append.mp h.apart
    obtain ⟨ha, hpost⟩ := pairwise_cons.mp hpost
    refine pairwise_append.mpr ⟨hpre, pairwise_cons.mpr ⟨fun b hb => ?_, hpost⟩, ?_⟩
    · rw [hvp, hsoff, heoff]
      exact ha b hb
    · intro b hb c hc
      rcases mem_cons.mp hc with rfl | hc
      · rw [hvp, hsoff, heoff]
        exact hcross b hb a mem_cons_self
      · exact hcross b hb c (mem_cons_of_mem a hc)

lemma swapPhysFree_append {l' : List SwapInfo} {r : Range} {a' : SwapInfo} (hvp : a.vp = r.vp)
    (hlo : a.soff ≤ r.off) (hhi : r.off < a.eoff)
    (hpre : ∀ b ∈ pre, ¬(b.vp = r.vp ∧ b.soff ≤ r.off ∧ r.off < b.eoff))
    (hfree : freeSlots (btop pageShift (r.off - a.soff)) (btop pageShift r.len) a = some a')
    (hl' : l' = pre ++ a' :: post) : swapPhysFree pageShift r (pre ++ a :: post) = some l' := by
  subst hl'
  induction pre with
  | nil =>
    rw [nil_append, nil_append]
    unfold swapPhysFree
    rw [if_pos ⟨hvp, hlo, hhi⟩, hfree]
    rfl
  | cons b pre ih =>
    rw [cons_append]
    unfold swapPhysFree
    rw [if_neg (hpre b mem_cons_self), ih fun c hc => hpre c (mem_cons_of_mem _ hc)]
    rfl

/-- The list after slots have been freed: the same areas, with fewer slots held. -/
structure Frees (pageShift : Nat) (l l' : List SwapInfo) (S : Set Page) : Prop where
  wf : AreasWf pageShift l'
  held : held pageShift l' = held pageShift l \ S
  sites : l'.map SwapInfo.site = l.map SwapInfo.site

lemma swapPhysFree_held (h : AreasWf pageShift l) (ha : a ∈ l) (k n : Nat) (hn : 0 < n) (hkn : k + n ≤ a.npgs)
    (hheld : slots pageShift a k n ⊆ held pageShift l) :
    ∃ l', swapPhysFree pageShift ⟨a.vp, ptob pageShift k + a.soff, ptob pageShift n⟩ l = some l' ∧
      Frees pageShift l l' (slots pageShift a k n) := by
  obtain ⟨pre, post, rfl⟩ := append_of_mem ha
  have hwf := h.wf a ha
  have hset : Disjoint (Finset.Ico k (k + n)) a.swapslots.clear := by
    rw [Finset.disjoint_left]
    intro i hi hclear
    obtain ⟨hlo, hhi⟩ := Finset.mem_Ico.mp hi
    have hp : (a.vp, ptob pageShift i + a.soff) ∈ slots pageShift a k n := ⟨rfl, i, hlo, hhi, rfl⟩
    obtain ⟨hnpre, hnpost⟩ := h.slots_other hkn hp
    have hmem := hheld hp
    rw [held_append, held_cons] at hmem
    rcases hmem with hpre | ⟨-, j, -, hj, hoff⟩ | hpost
    · exact hnpre hpre
    · have hij : i = j := ptob_soff_inj (a := a) hoff
      rw [← hij] at hj
      exact hj hclear
    · exact hnpost hpost
  obtain ⟨map, hfree, hlen, hclear⟩ := freeSlots_spec (by have hw := hwf.words; omega) hset hwf.free
  have hlt := slot_lt hwf (i := k) (by omega)
  have hbtop : btop pageShift (ptob pageShift k + a.soff - a.soff) = k := by
    rw [Nat.add_sub_cancel, btop_ptob]
  have hwf' : SwapInfo.Wf pageShift { a with swapslots := map, nfpgs := map.clear.card } := by
    refine ⟨hwf.pages, hwf.size, hwf.top, ?_, ?_, hwf.hint, rfl, ?_⟩
    · change a.npgs ≤ 32 * map.length
      rw [hlen]
      exact hwf.words
    · change a.mapsize = map.length * 4
      rw [hlen]
      exact hwf.mapsize
    · intro i hi
      rw [hclear, Finset.mem_union, Finset.mem_Ico] at hi
      rcases hi with hi | hi
      · exact hwf.inside i hi
      · change i < a.npgs
        omega
  refine ⟨pre ++ { a with swapslots := map, nfpgs := map.clear.card } :: post, ?_, ?_, ?_, ?_⟩
  · apply swapPhysFree_append rfl hlt.1 hlt.2 (fun b hb => h.not_other (by omega) (.inl hb)) _ rfl
    rw [hbtop, btop_ptob]
    exact hfree
  · exact h.replace hwf' rfl rfl rfl
  · rw [held_append, held_cons, held_append, held_cons, heldSlots_free hclear, Set.union_sdiff_distrib,
      Set.union_sdiff_distrib]
    have hpre : held pageShift pre \ slots pageShift a k n = held pageShift pre :=
      sdiff_eq_left.mpr (Set.disjoint_left.mpr fun p hp hs => (h.slots_other hkn hs).1 hp)
    have hpost : held pageShift post \ slots pageShift a k n = held pageShift post :=
      sdiff_eq_left.mpr (Set.disjoint_left.mpr fun p hp hs => (h.slots_other hkn hs).2 hp)
    rw [hpre, hpost]
  · rw [map_append, map_cons, map_append, map_cons]
    rfl

end Operations

section Ledger

variable {pageShift : Nat} {anons anons' : Anons} {l l' : List SwapInfo} {H S : Set Page}
  {g : Page → Option Page} {sites : List (Nat × Nat × Nat)}

/-- Every slot that an anon records is held, and no other anon records it. -/
structure Recorded (anons : Anons) (H : Set Page) : Prop where
  held : ∀ name p, anons name = some (some p) → p ∈ H
  once : ∀ name name' p, anons name = some (some p) → anons name' = some (some p) → name = name'

/-- The anons in `g` have been given new slots and what they had is free; the slots `S` are allocated
and not given to an anon. Before the allocation `H` was held. -/
structure Reassigned (pageShift : Nat) (sites : List (Nat × Nat × Nat)) (anons : Anons) (H : Set Page)
    (g : Page → Option Page) (S : Set Page) (anons' : Anons) (l' : List SwapInfo) : Prop where
  wf : AreasWf pageShift l'
  sites : l'.map SwapInfo.site = sites
  table : ∀ name, anons' name = match g name with
    | some p => some (some p)
    | none => anons name
  present : ∀ name, g name ≠ none → anons name ≠ none
  fresh : ∀ name p, g name = some p → p ∉ H ∧ p ∉ S
  rest : ∀ p ∈ S, p ∉ H
  once : ∀ name name' p, g name = some p → g name' = some p → name = name'
  held : ∀ p, p ∈ SwapSlots.held pageShift l' ↔
    (p ∈ H ∧ ¬∃ name, g name ≠ none ∧ anons name = some (some p)) ∨ (∃ name, g name = some p) ∨ p ∈ S

lemma freeOld_spec (hwf : AreasWf pageShift l) (old : Option Page)
    (hold : ∀ p, old = some p → p ∈ held pageShift l) :
    ∃ l', freeOld pageShift old l = some l' ∧ AreasWf pageShift l' ∧
      l'.map SwapInfo.site = l.map SwapInfo.site ∧
      ∀ p, p ∈ held pageShift l' ↔ p ∈ held pageShift l ∧ old ≠ some p := by
  cases old with
  | none => exact ⟨l, rfl, hwf, rfl, fun p => by simp⟩
  | some q =>
    obtain ⟨a, ha, hvp, k, hk, hset, hoff⟩ := hold q rfl
    have hslots : slots pageShift a k 1 = {q} := by
      ext p
      constructor
      · rintro ⟨hp, i, hlo, hhi, hpoff⟩
        have hik : i = k := by omega
        subst hik
        exact Prod.ext (hp.trans hvp) (hpoff.trans hoff.symm)
      · rintro rfl
        exact ⟨hvp.symm, k, le_rfl, by omega, hoff⟩
    obtain ⟨l', hfree, hfrees⟩ := swapPhysFree_held hwf ha k 1 (by omega) (by omega) (by
      rw [hslots, Set.singleton_subset_iff]
      exact hold q rfl)
    refine ⟨l', ?_, hfrees.wf, hfrees.sites, fun p => ?_⟩
    · rw [ptob_one, hvp, ← hoff] at hfree
      exact hfree
    · rw [hfrees.held, hslots, Set.mem_sdiff, Set.mem_singleton_iff, Ne, some_inj]
      exact and_congr_right fun _ => ⟨fun h hq => h hq.symm, fun h hq => h hq.symm⟩

lemma Reassigned.assign (h : Reassigned pageShift sites anons H g S anons' l') (hrec : Recorded anons H)
    {name p : Page} {old : Option Page} (hp : p ∈ S) (hg : g name = none) (hold : anons name = some old) :
    ∃ l'', freeOld pageShift old l' = some l'' ∧
      Reassigned pageShift sites anons H (update g name (some p)) (S \ {p})
        (update anons' name (some (some p))) l'' := by
  have hdisplaced (q : Page) (hq : old = some q) : q ∈ H ∧ ¬∃ m, g m ≠ none ∧ anons m = some (some q) := by
    subst hq
    refine ⟨hrec.held name q hold, ?_⟩
    rintro ⟨m, hm, hmq⟩
    have hsame := hrec.once m name q hmq hold
    rw [hsame] at hm
    exact hm hg
  obtain ⟨l'', hfree, hwf, hsites, hheld⟩ := freeOld_spec h.wf old
    (fun q hq => (h.held q).mpr (.inl (hdisplaced q hq)))
  have hpH := h.rest p hp
  refine ⟨l'', hfree, hwf, hsites.trans h.sites, ?_, ?_, ?_, ?_, ?_, ?_⟩
  · intro m
    by_cases hm : m = name
    · rw [hm, update_self, update_self]
    · rw [update_of_ne hm, update_of_ne hm]
      exact h.table m
  · intro m hgm
    by_cases hm : m = name
    · rw [hm, hold]
      exact some_ne_none _
    · rw [update_of_ne hm] at hgm
      exact h.present m hgm
  · intro m q hgm
    by_cases hm : m = name
    · rw [hm, update_self] at hgm
      cases hgm
      exact ⟨hpH, fun hq => hq.2 rfl⟩
    · rw [update_of_ne hm] at hgm
      exact ⟨(h.fresh m q hgm).1, fun hq => (h.fresh m q hgm).2 hq.1⟩
  · exact fun q hq => h.rest q hq.1
  · have hnew (m : Page) (hm : m ≠ name) (hgm : g m = some p) : False := (h.fresh m p hgm).2 hp
    intro m m' q hgm hgm'
    by_cases hm : m = name
    · by_cases hm' : m' = name
      · rw [hm, hm']
      · rw [hm, update_self] at hgm
        rw [update_of_ne hm'] at hgm'
        cases hgm
        exact absurd hgm' (hnew m' hm')
    rw [update_of_ne hm] at hgm
    by_cases hm' : m' = name
    · rw [hm', update_self] at hgm'
      cases hgm'
      exact absurd hgm (hnew m hm)
    · rw [update_of_ne hm'] at hgm'
      exact h.once m m' q hgm hgm'
  · intro q
    rw [hheld, h.held]
    constructor
    · rintro ⟨⟨hqH, hno⟩ | ⟨m, hm⟩ | hqS, hne⟩
      · refine .inl ⟨hqH, ?_⟩
        rintro ⟨m, hgm, hmq⟩
        by_cases hm : m = name
        · rw [hm, hold] at hmq
          exact hne (some.inj hmq)
        · rw [update_of_ne hm] at hgm
          exact hno ⟨m, hgm, hmq⟩
      · refine .inr (.inl ⟨m, ?_⟩)
        have hmn : m ≠ name := by
          rintro rfl
          rw [hg] at hm
          cases hm
        rw [update_of_ne hmn]
        exact hm
      · by_cases hqp : q = p
        · exact .inr (.inl ⟨name, by rw [update_self, hqp]⟩)
        · exact .inr (.inr ⟨hqS, hqp⟩)
    · have hnotOld (hq : q ∉ H) : old ≠ some q := fun ho => hq (hdisplaced q ho).1
      rintro (⟨hqH, hno⟩ | ⟨m, hm⟩ | ⟨hqS, hqp⟩)
      · refine ⟨.inl ⟨hqH, ?_⟩, ?_⟩
        · rintro ⟨m, hgm, hmq⟩
          have hmn : m ≠ name := by
            rintro rfl
            exact hgm hg
          exact hno ⟨m, by rw [update_of_ne hmn]; exact hgm, hmq⟩
        · rintro rfl
          exact hno ⟨name, by rw [update_self]; exact some_ne_none _, hold⟩
      · by_cases hmn : m = name
        · rw [hmn, update_self] at hm
          cases hm
          exact ⟨.inr (.inr hp), hnotOld hpH⟩
        · rw [update_of_ne hmn] at hm
          exact ⟨.inr (.inl ⟨m, hm⟩), hnotOld (h.fresh m q hm).1⟩
      · exact ⟨.inr (.inr hqS), hnotOld (h.rest q hqS)⟩

lemma Reassigned.drop (h : Reassigned pageShift sites anons H g S anons' l') {a : SwapInfo} {k n : Nat}
    (ha : a.site ∈ sites) (hn : 0 < n) (hkn : k + n ≤ a.npgs) (hS : slots pageShift a k n ⊆ S) :
    ∃ l'', swapPhysFree pageShift ⟨a.vp, ptob pageShift k + a.soff, ptob pageShift n⟩ l' = some l'' ∧
      Reassigned pageShift sites anons H g (S \ slots pageShift a k n) anons' l'' := by
  obtain ⟨b, hb, hsite⟩ : ∃ b ∈ l', b.site = a.site := by
    rw [← h.sites] at ha
    exact mem_map.mp ha
  have hvp : b.vp = a.vp := congrArg (fun x => x.1) hsite
  have hsoff : b.soff = a.soff := congrArg (fun x => x.2.1) hsite
  have hnpgs : b.npgs = a.npgs := congrArg (fun x => x.2.2) hsite
  have hslots : slots pageShift b k n = slots pageShift a k n := by
    unfold slots
    rw [hvp, hsoff]
  obtain ⟨l'', hfree, hfrees⟩ := swapPhysFree_held h.wf hb k n hn (by omega) (by
    rw [hslots]
    exact fun p hp => (h.held p).mpr (.inr (.inr (hS hp))))
  rw [hvp, hsoff] at hfree
  rw [hslots] at hfrees
  refine ⟨l'', hfree, hfrees.wf, hfrees.sites.trans h.sites, h.table, h.present, ?_, ?_, h.once, ?_⟩
  · exact fun name p hg => ⟨(h.fresh name p hg).1, fun hp => (h.fresh name p hg).2 hp.1⟩
  · exact fun p hp => h.rest p hp.1
  · intro p
    rw [hfrees.held, Set.mem_sdiff, h.held]
    constructor
    · rintro ⟨hp | hp | hp, hnot⟩
      · exact .inl hp
      · exact .inr (.inl hp)
      · exact .inr (.inr ⟨hp, hnot⟩)
    · rintro (hp | ⟨name, hg⟩ | hp)
      · exact ⟨.inl hp, fun hs => h.rest p (hS hs) hp.1⟩
      · exact ⟨.inr (.inl ⟨name, hg⟩), fun hs => (h.fresh name p hg).2 (hS hs)⟩
      · exact ⟨.inr (.inr hp.1), hp.2⟩

end Ledger

end Solaris.SwapSlots
