import Solaris.Rmap.Operations

/-!
# Returning a range

`rmfree` joins a range with the pieces it touches, makes a new piece for it, or drops a piece of a
full map first. The freed range must not overlap what is free already.
-/

namespace Solaris.Rmap

open List

variable {mp : Map} {segs : List Seg} {size addr : Nat}

section Split

theorem split_at (hs : segs.Pairwise fun b c => b.addr + b.size < c.addr) (addr : Nat) :
    ∃ left right, segs = left ++ right ∧ (∀ c ∈ left, c.addr ≤ addr) ∧ ∀ c ∈ right, addr < c.addr := by
  induction segs with
  | nil => exact ⟨[], [], rfl, by simp, by simp⟩
  | cons c segs ih =>
    by_cases hc : c.addr ≤ addr
    · obtain ⟨left, right, rfl, hl, hr⟩ := ih (pairwise_cons.mp hs).2
      refine ⟨c :: left, right, rfl, ?_, hr⟩
      exact forall_mem_cons.mpr ⟨hc, hl⟩
    · refine ⟨[], c :: segs, rfl, by simp, ?_⟩
      refine forall_mem_cons.mpr ⟨by omega, fun d hd => ?_⟩
      have := (pairwise_cons.mp hs).1 d hd
      omega

lemma span_split {p : Seg → Bool} {l t : List Seg} {x : Seg} (hl : ∀ c ∈ l, p c = true)
    (hx : p x = false) : (l ++ x :: t).span p = (l, x :: t) := by
  rw [span_eq_takeWhile_dropWhile, takeWhile_append_of_pos hl, dropWhile_append_of_pos hl,
    takeWhile_cons_of_neg (by simp [hx]), dropWhile_cons_of_neg (by simp [hx]), append_nil]

end Split

def Apart (segs : List Seg) (addr size : Nat) : Prop :=
  ∀ b ∈ segs, b.addr + b.size ≠ addr ∧ b.addr ≠ addr + size

section Exchange

variable {l r mid mid' : List Seg} {I : Set Nat}

lemma freeSet_exchange (h : freeSet mid' = freeSet mid ∪ I) :
    freeSet (l ++ mid' ++ r) = freeSet (l ++ mid ++ r) ∪ I := by
  ext x
  have hx : x ∈ freeSet mid' ↔ x ∈ freeSet mid ∨ x ∈ I := by
    rw [h]
    rfl
  simp only [Set.mem_union, mem_freeSet_append, hx]
  tauto

lemma Layout.grown {mp' : Map} {d : Seg} (h : Layout mp (l ++ mid ++ r)) (zs : List Seg)
    (he : mp'.mMap = l ++ d :: r ++ zs) (hz : ∀ z ∈ zs, z.size = 0) (hm : mp'.mSize = mp.mSize)
    (hf : 1 + mp'.mFree = mid.length + mp.mFree) (hl : zs.length = mp'.mFree + 1)
    (hd : 0 < d.size ∧ 0 < d.addr ∧ d.addr + d.size < top)
    (hbefore : ∀ c ∈ l, c.addr + c.size < d.addr) (hafter : ∀ c ∈ r, d.addr + d.size < c.addr) :
    Layout mp' (l ++ [d] ++ r) := by
  have hgood : Good (l ++ [d] ++ r) := by
    apply h.good.replace (good_singleton hd.1 hd.2.1 hd.2.2)
    · intro c hc b hb
      rw [mem_singleton] at hb
      subst hb
      exact hbefore c hc
    · intro b hb c hc
      rw [mem_singleton] at hb
      subst hb
      exact hafter c hc
  refine h.edited zs (by simpa using he) hz hm ?_ hl hgood
  simp only [length_append, length_cons, length_nil]
  omega

end Exchange

/-- What a pass of `rmfree` that ends leaves: the range has been added. -/
def Added (mp mp' : Map) (segs : List Seg) (addr size : Nat) : Prop :=
  mp'.mSize = mp.mSize ∧ ∃ segs', Layout mp' segs' ∧
    freeSet segs' = freeSet segs ∪ Set.Ico addr (addr + size)

section Right

variable {left right zs : List Seg} {z : Seg}

theorem rmfreeRight_spec (h : Layout mp (left ++ right)) (hs : 0 < size) (ha : 0 < addr)
    (ht : addr + size < top) (hleft : ∀ c ∈ left, c.addr + c.size < addr)
    (hright : ∀ c ∈ right, addr + size ≤ c.addr) {bp : Seg} {rest : List Seg}
    (hbp : bp :: rest = right ++ z :: zs) (hmap : mp.mMap = left ++ right ++ z :: zs) (hz : z.size = 0)
    (hzs : ∀ y ∈ zs, y.size = 0) (hlen : zs.length = mp.mFree) :
    (∃ mp', rmfreeRight mp size addr left bp rest = some (false, mp') ∧
      Added mp mp' (left ++ right) addr size ∧ (mp.mFree = 0 → ¬Apart (left ++ right) addr size)) ∨
    (mp.mFree = 0 ∧ Apart (left ++ right) addr size ∧
      rmfreeRight mp size addr left bp rest =
        (discard mp.mMap).map fun l => (true, { mp with mMap := l, mFree := mp.mFree + 1 })) := by
  have hz' : ∀ y ∈ z :: zs, y.size = 0 := forall_mem_cons.mpr ⟨hz, hzs⟩
  unfold rmfreeRight
  rw [wadd_eq ht]
  by_cases htouch : bp.addr ≤ addr + size ∧ bp.size ≠ 0
  · -- a piece on the right begins where the range ends
    rw [if_pos htouch]
    left
    cases right with
    | nil =>
      obtain ⟨rfl, rfl⟩ := cons.inj hbp
      exact absurd hz htouch.2
    | cons b right =>
      obtain ⟨rfl, rfl⟩ := cons.inj hbp
      have hb : addr + size ≤ bp.addr := hright bp mem_cons_self
      have hbe : bp.addr = addr + size := by omega
      have hmem : bp ∈ left ++ bp :: right := by simp
      have hbelow := h.good.below bp hmem
      rw [if_neg (by omega), wadd_eq (by omega), wsub_eq (by omega) (by omega)]
      refine ⟨_, rfl, ⟨rfl, left ++ [⟨bp.size + size, bp.addr - size⟩] ++ right, ?_, ?_⟩, ?_⟩
      · have h' : Layout mp (left ++ [bp] ++ right) := by simpa using h
        refine h'.grown (z :: zs) (by simp) hz' rfl (by simp) (by simp [hlen]) ?_ ?_ ?_
        · dsimp only
          omega
        · intro c hc
          have := hleft c hc
          dsimp only
          omega
        · intro c hc
          have := h.good.after hc
          dsimp only
          omega
      · have hmid : freeSet [⟨bp.size + size, bp.addr - size⟩] =
            freeSet [bp] ∪ Set.Ico addr (addr + size) := by
          ext x
          simp only [mem_freeSet_cons, mem_freeSet_nil, or_false, Set.mem_union, Set.mem_Ico]
          omega
        have := freeSet_exchange (l := left) (r := right) hmid
        simpa using this
      · intro _ hap
        exact (hap bp hmem).2 hbe
  · rw [if_neg htouch]
    have hapart : Apart (left ++ right) addr size := by
      intro c hc
      rcases mem_append.mp hc with hc | hc
      · have := hleft c hc
        omega
      have hle := hright c hc
      refine ⟨by have := h.good.right.pos c hc; omega, ?_⟩
      intro he
      cases right with
      | nil => cases hc
      | cons b right =>
        obtain ⟨rfl, rfl⟩ := cons.inj hbp
        have hb0 : bp.size ≠ 0 := (h.good.right.pos bp mem_cons_self).ne'
        rcases mem_cons.mp hc with rfl | hc
        · exact htouch ⟨by omega, hb0⟩
        · have := (pairwise_cons.mp h.good.right.spaced).1 c hc
          omega
    by_cases hfull : mp.mFree = 0
    · right
      rw [if_pos hfull]
      exact ⟨hfull, hapart, rfl⟩
    left
    rw [if_neg hfull, hbp, pushUp_spec h.good.right.pos hz]
    refine ⟨_, rfl, ⟨rfl, left ++ [⟨size, addr⟩] ++ right, ?_, ?_⟩, fun h0 => absurd h0 hfull⟩
    · have h' : Layout mp (left ++ [] ++ right) := by simpa using h
      refine h'.grown zs (by simp) hzs rfl ?_ ?_ ⟨hs, ha, ht⟩ hleft ?_
      · simp only [length_nil]
        omega
      · dsimp only
        omega
      · intro c hc
        have hle := hright c hc
        have hne := (hapart c (mem_append_right _ hc)).2
        dsimp only
        omega
    · have hmid : freeSet [⟨size, addr⟩] = freeSet [] ∪ Set.Ico addr (addr + size) := by
        ext x
        simp only [mem_freeSet_cons, mem_freeSet_nil, or_false, false_or, Set.mem_union, Set.mem_Ico]
      have := freeSet_exchange (l := left) (r := right) hmid
      simpa using this

end Right

section Pass

lemma Formed.sublist {l l' : List Seg} (h : Formed l) (hsub : l'.Sublist l) : Formed l' :=
  ⟨fun c hc => h.pos c (hsub.subset hc), fun c hc => h.nonzero c (hsub.subset hc),
    fun c hc => h.below c (hsub.subset hc), h.spaced.sublist hsub⟩

lemma discard_laid (h : Laid mp segs) (hfull : mp.mFree = 0) (hcap : 2 ≤ mp.mSize) :
    ∃ l y b, segs = l ++ [y, b] ∧ ∃ entries, discard mp.mMap = some entries ∧
      Laid { mp with mMap := entries, mFree := 1 } (l ++ [if y.size < b.size then b else y]) := by
  obtain ⟨z, zs, he, hz, hzs, hlen⟩ := h.zeros
  have hslots := h.slots
  have hlength := h.length
  obtain ⟨l, y, b, rfl⟩ : ∃ l y b, segs = l ++ [y, b] := by
    rcases eq_nil_or_concat segs with rfl | ⟨l1, b, rfl⟩
    · rw [length_nil] at hslots
      omega
    · rcases eq_nil_or_concat l1 with rfl | ⟨l, y, rfl⟩
      · simp only [concat_eq_append, nil_append, length_cons, length_nil] at hslots
        omega
      · exact ⟨l, y, b, by simp⟩
  have hmap : mp.mMap = l ++ y :: b :: z :: zs := by simpa using he
  have hy : 0 < y.size := h.formed.pos y (by simp)
  have hb : 0 < b.size := h.formed.pos b (by simp)
  have hl : ∀ c ∈ l, 0 < c.size := fun c hc => h.formed.pos c (mem_append_left _ hc)
  have hformed : Formed (l ++ [if y.size < b.size then b else y]) := by
    refine h.formed.sublist (List.Sublist.append_left ?_ l)
    split
    · exact sublist_cons_self _ _
    · simp
  rw [hmap] at hlength ⊢
  rw [discard_spec hl hy hb hz]
  simp only [length_append, length_cons, length_nil] at hslots hlength
  refine ⟨l, y, b, rfl, _, rfl, ?_, ?_, ?_, hformed⟩
  · by_cases hlt : y.size < b.size
    · simp only [hlt, if_true]
      refine ⟨{ b with size := 0 } :: z :: zs, by simp, ?_⟩
      intro c hc
      simp only [mem_cons] at hc
      rcases hc with rfl | rfl | hc
      · rfl
      · exact hz
      · exact hzs c hc
    simp only [hlt, if_false]
    refine ⟨z :: { z with size := 0 } :: zs, by simp, ?_⟩
    intro c hc
    simp only [mem_cons] at hc
    rcases hc with rfl | rfl | hc
    · exact hz
    · rfl
    · exact hzs c hc
  · dsimp only
    rw [length_append]
    split <;> simp only [length_cons] <;> omega
  · simp only [length_append, length_cons, length_nil]
    omega

lemma discard_layout (h : Layout mp segs) (hfull : mp.mFree = 0) (hcap : 2 ≤ mp.mSize) :
    ∃ l y b mp', segs = l ++ [y, b] ∧
      (discard mp.mMap).map (fun l => (true, { mp with mMap := l, mFree := mp.mFree + 1 })) =
        some (true, mp') ∧ mp'.mSize = mp.mSize ∧ mp'.mFree = 1 ∧
      Layout mp' (l ++ [if y.size < b.size then b else y]) := by
  obtain ⟨l, y, b, rfl, entries, hres, hlaid⟩ := discard_laid h.laid hfull hcap
  rw [hres, hfull]
  refine ⟨l, y, b, _, rfl, rfl, rfl, rfl, hlaid.layout fun c hc => h.good.below c ?_⟩
  rcases mem_append.mp hc with hc | hc
  · exact mem_append_left _ hc
  · rw [mem_singleton] at hc
    subst hc
    split <;> simp

lemma rmfreeTry_spec (h : Layout mp segs) (hs : 0 < size) (ha : 0 < addr) (ht : addr + size < top)
    (hd : Disjoint (Set.Ico addr (addr + size)) (freeSet segs)) :
    (∃ mp', rmfreeTry mp size addr = some (false, mp') ∧ Added mp mp' segs addr size ∧
      (mp.mFree = 0 → ¬Apart segs addr size)) ∨
    (mp.mFree = 0 ∧ Apart segs addr size ∧
      rmfreeTry mp size addr =
        (discard mp.mMap).map fun l => (true, { mp with mMap := l, mFree := mp.mFree + 1 })) := by
  obtain ⟨z, zs, hmap, hz, hzs, hlen⟩ := h.zeros
  obtain ⟨left, right, rfl, hle, hgt⟩ := split_at h.good.spaced addr
  have hdisj := Set.disjoint_left.mp hd
  -- a piece before the range ends at its start at the latest, one behind begins at its end
  have hleft : ∀ c ∈ left, c.addr + c.size ≤ addr := by
    intro c hc
    by_contra hlt
    apply hdisj (Set.mem_Ico.mpr ⟨le_rfl, by omega⟩)
    exact ⟨c, mem_append_left _ hc, hle c hc, by omega⟩
  have hright : ∀ c ∈ right, addr + size ≤ c.addr := by
    intro c hc
    by_contra hlt
    have hc0 := h.good.right.pos c hc
    apply hdisj (Set.mem_Ico.mpr ⟨(hgt c hc).le, by omega⟩)
    exact ⟨c, mem_append_right _ hc, le_rfl, by omega⟩
  obtain ⟨bp, rest, hbp⟩ : ∃ bp rest, bp :: rest = right ++ z :: zs := by
    cases right with
    | nil => exact ⟨z, zs, rfl⟩
    | cons b right => exact ⟨b, right ++ z :: zs, rfl⟩
  have hspan : mp.mMap.span (fun b => b.addr ≤ addr ∧ b.size ≠ 0) = (left, bp :: rest) := by
    rw [hmap, append_assoc, ← hbp]
    apply span_split
    · intro c hc
      have hc0 := h.good.left.pos c hc
      have := hle c hc
      simp only [decide_eq_true_eq]
      omega
    · cases right with
      | nil =>
        obtain ⟨rfl, rfl⟩ := cons.inj hbp
        simp [hz]
      | cons b right =>
        obtain ⟨rfl, -⟩ := cons.inj hbp
        have := hgt bp mem_cons_self
        simp only [decide_eq_false_iff_not, not_and]
        omega
  have hz' : ∀ y ∈ z :: zs, y.size = 0 := forall_mem_cons.mpr ⟨hz, hzs⟩
  unfold rmfreeTry
  rw [hspan]
  rcases eq_nil_or_concat left with rfl | ⟨left', p, rfl⟩
  · exact rmfreeRight_spec h hs ha ht (by simp) hright hbp hmap hz hzs hlen
  rw [concat_eq_append] at *
  have hmemp : p ∈ left' ++ [p] ++ right := by simp
  have hpe : p.addr + p.size ≤ addr := hleft p (by simp)
  have hpa := h.good.nonzero p hmemp
  have hbefore : ∀ c ∈ left', c.addr + c.size < p.addr := fun c hc => h.good.left.before hc
  simp only [getLast?_append, getLast?_singleton, Option.some_or, dropLast_concat]
  rw [wadd_eq (h.good.below p hmemp)]
  by_cases htouch : addr ≤ p.addr + p.size
  · rw [if_pos htouch, if_neg (by omega), wadd_eq ht]
    left
    have hnot : ¬Apart (left' ++ [p] ++ right) addr size := fun hap => (hap p hmemp).1 (by omega)
    by_cases hboth : bp.size ≠ 0 ∧ bp.addr ≤ addr + size
    · -- the range fills the gap between two pieces
      rw [if_pos hboth]
      cases right with
      | nil =>
        obtain ⟨rfl, rfl⟩ := cons.inj hbp
        exact absurd hz hboth.1
      | cons b right =>
        rw [cons_append] at hbp
        obtain ⟨rfl, rfl⟩ := cons.inj hbp
        have hb := hright bp mem_cons_self
        have hmemb : bp ∈ left' ++ [p] ++ bp :: right := by simp
        have hbelow := h.good.below bp hmemb
        have hrpos : ∀ c ∈ right, 0 < c.size := fun c hc => h.good.right.pos c (by simp [hc])
        rw [if_neg (by omega), closeGap_spec hrpos hz, wadd_eq (show p.size + size < top by omega),
          wadd_eq (by omega)]
        refine ⟨_, rfl, ⟨rfl, left' ++ [⟨p.size + size + bp.size, p.addr⟩] ++ right, ?_, ?_⟩, fun _ => hnot⟩
        · have h' : Layout mp (left' ++ [p, bp] ++ right) := by simpa using h
          refine h'.grown (z :: z :: zs) (by simp) ?_ rfl ?_ (by simp [hlen]) ?_ hbefore ?_
          · exact forall_mem_cons.mpr ⟨hz, hz'⟩
          · simp only [length_cons, length_nil]
            omega
          · dsimp only
            omega
          · intro c hc
            have := h.good.after hc
            dsimp only
            omega
        · have hmid : freeSet [⟨p.size + size + bp.size, p.addr⟩] =
              freeSet [p, bp] ∪ Set.Ico addr (addr + size) := by
            ext x
            simp only [mem_freeSet_cons, mem_freeSet_nil, or_false, Set.mem_union, Set.mem_Ico]
            omega
          have := freeSet_exchange (l := left') (r := right) hmid
          simpa using this
    · rw [if_neg hboth, wadd_eq (show p.size + size < top by omega)]
      refine ⟨_, rfl, ⟨rfl, left' ++ [⟨p.size + size, p.addr⟩] ++ right, ?_, ?_⟩, fun _ => hnot⟩
      · refine h.grown (z :: zs) (by simp [hbp]) hz' rfl (by simp) (by simp [hlen]) ?_ hbefore ?_
        · dsimp only
          omega
        · intro c hc
          cases right with
          | nil => cases hc
          | cons b right =>
            obtain ⟨rfl, rfl⟩ := cons.inj hbp
            have hb0 := h.good.right.pos bp mem_cons_self
            dsimp only
            rcases mem_cons.mp hc with rfl | hc
            · omega
            · have := (pairwise_cons.mp h.good.right.spaced).1 c hc
              omega
      · have hmid : freeSet [⟨p.size + size, p.addr⟩] = freeSet [p] ∪ Set.Ico addr (addr + size) := by
          ext x
          simp only [mem_freeSet_cons, mem_freeSet_nil, or_false, Set.mem_union, Set.mem_Ico]
          omega
        exact freeSet_exchange hmid
  · rw [if_neg htouch]
    apply rmfreeRight_spec h hs ha ht _ hright hbp hmap hz hzs hlen
    intro c hc
    rcases mem_append.mp hc with hc | hc
    · have := hbefore c hc
      omega
    · rw [mem_singleton] at hc
      subst hc
      omega

end Pass

section Whole

/-- `rmfree` adds the range; when the map is full and the range touches nothing, exactly one piece
is discarded before. -/
theorem rmfree_spec (h : Layout mp segs) (hcap : 2 ≤ mp.mSize) (hs : 0 < size) (hs' : size < 2 ^ 31)
    (ha : 0 < addr) (ht : addr + size < top)
    (hd : Disjoint (Set.Ico addr (addr + size)) (freeSet segs)) :
    ∃ mp', rmfree mp size addr = some mp' ∧
      ((¬(mp.mFree = 0 ∧ Apart segs addr size) ∧ Added mp mp' segs addr size) ∨
        (mp.mFree = 0 ∧ Apart segs addr size ∧
          ∃ l lost r, segs = l ++ lost :: r ∧ Added mp mp' (l ++ r) addr size)) := by
  unfold rmfree
  rw [if_neg (by omega)]
  rcases rmfreeTry_spec h hs ha ht hd with ⟨mp', hres, hadd, hnot⟩ | ⟨hfull, hap, hres⟩
  · refine ⟨mp', ?_, .inl ⟨fun hc => hnot hc.1 hc.2, hadd⟩⟩
    rw [rmfreeLoop, hres]
  obtain ⟨l, y, b, mp1, rfl, hdis, hm1, hf1, h1⟩ := discard_layout h hfull hcap
  obtain ⟨l', lost, r, hsplit, hkept⟩ : ∃ l' lost r, l ++ [y, b] = l' ++ lost :: r ∧
      l ++ [if y.size < b.size then b else y] = l' ++ r := by
    by_cases hlt : y.size < b.size
    · exact ⟨l, y, [b], rfl, by rw [if_pos hlt]⟩
    · exact ⟨l ++ [y], b, [], by simp, by simp [hlt]⟩
  have hsub : freeSet (l ++ [if y.size < b.size then b else y]) ⊆ freeSet (l ++ [y, b]) := by
    rw [hkept, hsplit]
    intro x hx
    rw [mem_freeSet_append, mem_freeSet_cons]
    rcases mem_freeSet_append.mp hx with hx | hx
    · exact .inl hx
    · exact .inr (.inr hx)
  rcases rmfreeTry_spec h1 hs ha ht (hd.mono_right hsub) with ⟨mp', hres', hadd, -⟩ | ⟨hfull', -, -⟩
  · refine ⟨mp', ?_, .inr ⟨hfull, hap, l', lost, r, hsplit, ?_⟩⟩
    · obtain ⟨k, hk⟩ : ∃ k, mp.mSize = k + 1 := ⟨mp.mSize - 1, by omega⟩
      rw [rmfreeLoop, hres, hdis]
      dsimp only
      rw [hk, rmfreeLoop, hres']
    · rw [← hkept]
      exact ⟨hadd.1.trans hm1, hadd.2⟩
  · omega

end Whole

end Solaris.Rmap
