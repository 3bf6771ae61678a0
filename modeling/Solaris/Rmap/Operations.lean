import Solaris.Rmap.Map

/-!
# The operations on segments

What `rmalloc_locked`, `rmget` and `rmfree` do to the segments of a map and, from that, to the set
of free addresses.
-/

namespace Solaris.Rmap

open List

variable {mp : Map} {segs : List Seg} {size addr : Nat}

lemma wadd_eq {a b : Nat} (h : a + b < top) : wadd a b = a + b := Nat.mod_eq_of_lt h

lemma wsub_eq {a b : Nat} (h : b ≤ a) (ha : a < top) : wsub a b = a - b := by
  unfold wsub
  rw [Nat.sub_add_comm h, Nat.add_mod_right, Nat.mod_eq_of_lt (by omega)]

section Cut

variable {l r : List Seg} {b : Seg}

/-- What is left of a segment when `[addr, addr + size)` is taken out of it. -/
def cut (b : Seg) (addr size : Nat) : List Seg :=
  (if b.addr = addr then [] else [⟨addr - b.addr, b.addr⟩]) ++
    if b.addr + b.size = addr + size then [] else [⟨b.addr + b.size - (addr + size), addr + size⟩]

lemma mem_cut {c : Seg} (h : c ∈ cut b addr size) :
    (b.addr ≠ addr ∧ c = ⟨addr - b.addr, b.addr⟩) ∨
      (b.addr + b.size ≠ addr + size ∧ c = ⟨b.addr + b.size - (addr + size), addr + size⟩) := by
  unfold cut at h
  rcases mem_append.mp h with h | h
  · split at h
    · cases h
    · next hne => exact .inl ⟨hne, mem_singleton.mp h⟩
  · split at h
    · cases h
    · next hne => exact .inr ⟨hne, mem_singleton.mp h⟩

lemma cut_good (h : Good (l ++ b :: r)) (ha : b.addr ≤ addr) (hs : 0 < size)
    (hb : addr + size ≤ b.addr + b.size) : Good (l ++ cut b addr size ++ r) := by
  have hmem : b ∈ l ++ b :: r := by simp
  have hbelow := h.below b hmem
  have hpos := h.nonzero b hmem
  have hsplit : Good (l ++ [b] ++ r) := by simpa using h
  apply hsplit.replace
  · refine ⟨?_, ?_, ?_, ?_⟩
    · intro c hc
      rcases mem_cut hc with ⟨hne, rfl⟩ | ⟨hne, rfl⟩ <;> dsimp only <;> omega
    · intro c hc
      rcases mem_cut hc with ⟨hne, rfl⟩ | ⟨hne, rfl⟩ <;> dsimp only <;> omega
    · intro c hc
      rcases mem_cut hc with ⟨hne, rfl⟩ | ⟨hne, rfl⟩ <;> dsimp only <;> omega
    · unfold cut
      rw [pairwise_append]
      refine ⟨by split <;> simp, by split <;> simp, ?_⟩
      intro c hc d hd
      split at hc
      · cases hc
      split at hd
      · cases hd
      · rw [mem_singleton] at hc hd
        subst hc hd
        dsimp only
        omega
  · intro c hc d hd
    have := h.before hc
    rcases mem_cut hd with ⟨hne, rfl⟩ | ⟨hne, rfl⟩ <;> dsimp only <;> omega
  · intro d hd c hc
    have := h.after hc
    rcases mem_cut hd with ⟨hne, rfl⟩ | ⟨hne, rfl⟩ <;> dsimp only <;> omega

lemma freeSet_cut (h : (l ++ b :: r).Pairwise fun b c : Seg => b.addr + b.size < c.addr) (ha : b.addr ≤ addr)
    (hb : addr + size ≤ b.addr + b.size) :
    freeSet (l ++ cut b addr size ++ r) = freeSet (l ++ b :: r) \ Set.Ico addr (addr + size) := by
  ext x
  have hmid : x ∈ freeSet (cut b addr size) ↔
      (b.addr ≤ x ∧ x < addr) ∨ (addr + size ≤ x ∧ x < b.addr + b.size) := by
    unfold cut
    rw [mem_freeSet_append]
    apply or_congr
    · split
      · simp only [mem_freeSet_nil, false_iff, not_and]
        omega
      · rw [mem_freeSet_cons]
        simp only [mem_freeSet_nil, or_false]
        omega
    · split
      · simp only [mem_freeSet_nil, false_iff, not_and]
        omega
      · rw [mem_freeSet_cons]
        simp only [mem_freeSet_nil, or_false]
        omega
  rw [Set.mem_sdiff, Set.mem_Ico, mem_freeSet_append, mem_freeSet_append, mem_freeSet_append,
    mem_freeSet_cons, hmid]
  by_cases h1 : x ∈ freeSet l
  · have := lt_of_mem_left h h1
    simp only [h1, true_or, true_and, true_iff]
    omega
  by_cases h2 : x ∈ freeSet r
  · have := lt_of_mem_right h h2
    simp only [h2, or_true, true_and, true_iff]
    omega
  · simp only [h1, h2, false_or, or_false]
    omega

end Cut

theorem Layout.edited {mp' : Map} {segs' : List Seg} (h : Layout mp segs) (zs : List Seg)
    (he : mp'.mMap = segs' ++ zs) (hz : ∀ z ∈ zs, z.size = 0) (hm : mp'.mSize = mp.mSize)
    (hf : segs'.length + mp'.mFree = segs.length + mp.mFree) (hl : zs.length = mp'.mFree + 1)
    (hg : Good segs') : Layout mp' segs' := by
  have hslots := h.slots
  refine ⟨⟨zs, he, hz⟩, ?_, by omega, hg⟩
  rw [he, length_append]
  omega

section Alloc

lemma rmallocFrom_none {zs : List Seg} {z : Seg} (hp : ∀ c ∈ segs, 0 < c.size)
    (hs : ∀ c ∈ segs, c.size < size) (hz : z.size = 0) :
    rmallocFrom size (segs ++ z :: zs) = some none := by
  induction segs with
  | nil => rw [nil_append, rmallocFrom, if_pos hz]
  | cons c segs ih =>
    have hc : c.size < size := hs c mem_cons_self
    have hc0 : c.size ≠ 0 := (hp c mem_cons_self).ne'
    rw [cons_append, rmallocFrom, if_neg hc0, if_neg (by omega),
      ih (fun d hd => hp d (mem_cons_of_mem _ hd)) fun d hd => hs d (mem_cons_of_mem _ hd)]
    rfl

lemma rmallocFrom_some {l r : List Seg} {b z : Seg} (zs : List Seg) (hp : ∀ c ∈ l, 0 < c.size)
    (hl : ∀ c ∈ l, c.size < size) (hb : size ≤ b.size) (hb0 : 0 < b.size) (hr : ∀ c ∈ r, 0 < c.size)
    (hz : z.size = 0) (ht : b.addr + size < top) :
    rmallocFrom size (l ++ b :: r ++ z :: zs) =
      some (some (b.addr, decide (b.size = size),
        l ++ cut b b.addr size ++ r ++ z :: if b.size = size then z :: zs else zs)) := by
  induction l with
  | nil =>
    rw [nil_append, cons_append, rmallocFrom, if_neg hb0.ne', if_pos hb, wadd_eq ht]
    by_cases he : b.size = size
    · rw [if_pos (by omega), closeGap_spec hr hz]
      simp [cut, he]
    · rw [if_neg (by omega)]
      simp only [cut, he, if_true, if_false, nil_append, Nat.add_right_inj, Nat.add_sub_add_left]
      rfl
  | cons c l ih =>
    have hc : c.size < size := hl c mem_cons_self
    have hc0 : c.size ≠ 0 := (hp c mem_cons_self).ne'
    rw [cons_append, cons_append, rmallocFrom, if_neg hc0, if_neg (by omega),
      ih (fun d hd => hp d (mem_cons_of_mem _ hd)) fun d hd => hl d (mem_cons_of_mem _ hd)]
    rfl

lemma first_fit (segs : List Seg) (size : Nat) :
    (∀ c ∈ segs, c.size < size) ∨
      ∃ l b r, segs = l ++ b :: r ∧ (∀ c ∈ l, c.size < size) ∧ size ≤ b.size := by
  induction segs with
  | nil => exact .inl (by simp)
  | cons c segs ih =>
    by_cases hc : size ≤ c.size
    · exact .inr ⟨[], c, segs, rfl, by simp, hc⟩
    · rcases ih with hall | ⟨l, b, r, rfl, hl, hb⟩
      · left
        exact forall_mem_cons.mpr ⟨by omega, hall⟩
      · refine .inr ⟨c :: l, b, r, rfl, ?_, hb⟩
        exact forall_mem_cons.mpr ⟨by omega, hl⟩

lemma rmallocLocked_none (h : Layout mp segs) (hs : ∀ c ∈ segs, c.size < size) :
    rmallocLocked mp size = some (0, mp) := by
  obtain ⟨z, zs, he, hz, -, -⟩ := h.zeros
  unfold rmallocLocked
  rw [he, rmallocFrom_none h.good.pos hs hz]
  rfl

theorem rmallocLocked_some {l r : List Seg} {b : Seg} (h : Layout mp (l ++ b :: r))
    (hl : ∀ c ∈ l, c.size < size) (hs : 0 < size) (hb : size ≤ b.size) :
    ∃ mp', rmallocLocked mp size = some (b.addr, mp') ∧ mp'.mSize = mp.mSize ∧
      Layout mp' (l ++ cut b b.addr size ++ r) := by
  obtain ⟨z, zs, he, hz, hzs, hlen⟩ := h.zeros
  have hmem : b ∈ l ++ b :: r := by simp
  have hbelow := h.good.below b hmem
  have hr : ∀ c ∈ r, 0 < c.size := fun c hc => h.good.pos c (by simp [hc])
  have hres := rmallocFrom_some zs h.good.left.pos hl hb (h.good.pos b hmem) hr hz (by omega)
  unfold rmallocLocked
  rw [he, hres]
  refine ⟨_, rfl, rfl, ?_⟩
  apply h.edited _ rfl
  · refine forall_mem_cons.mpr ⟨hz, fun y hy => ?_⟩
    split at hy
    · rcases mem_cons.mp hy with rfl | hy
      · exact hz
      · exact hzs y hy
    · exact hzs y hy
  · rfl
  · simp only [length_append, length_cons, cut, if_true, nil_append, Nat.add_right_inj]
    by_cases hbs : b.size = size
    · simp only [hbs, if_true, length_nil, decide_true]
      omega
    · simp only [hbs, if_false, length_cons, length_nil, decide_false, Bool.false_eq_true]
      omega
  · by_cases hbs : b.size = size
    · simp only [hbs, if_true, decide_true, length_cons]
      omega
    · simp only [hbs, if_false, decide_false, length_cons, Bool.false_eq_true]
      omega
  · exact cut_good h.good le_rfl hs (by omega)

end Alloc

section Get

lemma holds_or_not (hg : Good segs) (addr : Nat) :
    addr ∉ freeSet segs ∨ ∃ l b r, segs = l ++ b :: r ∧ b.addr ≤ addr ∧ addr < b.addr + b.size := by
  by_cases h : addr ∈ freeSet segs
  · obtain ⟨b, hb, hle, hlt⟩ := h
    obtain ⟨l, r, rfl⟩ := append_of_mem hb
    exact .inr ⟨l, b, r, rfl, hle, hlt⟩
  · exact .inl h

lemma rmgetFrom_skip {l rest : List Seg} {mfree : Nat} (hp : ∀ c ∈ l, 0 < c.size)
    (hl : ∀ c ∈ l, ¬(c.addr ≤ addr ∧ addr < wadd c.addr c.size)) :
    rmgetFrom size addr mfree (l ++ rest) =
      (rmgetFrom size addr mfree rest).map fun r => r.map fun (d, l') => (d, l ++ l') := by
  induction l with
  | nil =>
    rw [nil_append]
    cases rmgetFrom size addr mfree rest with
    | none => rfl
    | some r => cases r <;> rfl
  | cons c l ih =>
    rw [cons_append, rmgetFrom, if_neg (hp c mem_cons_self).ne', if_neg (hl c mem_cons_self),
      ih (fun d hd => hp d (mem_cons_of_mem _ hd)) fun d hd => hl d (mem_cons_of_mem _ hd)]
    cases rmgetFrom size addr mfree rest with
    | none => rfl
    | some r => cases r <;> rfl

lemma Good.skip (h : Good segs) (ha : addr ∉ freeSet segs) : ∀ c ∈ segs, ¬(c.addr ≤ addr ∧ addr < wadd c.addr c.size) := by
  intro c hc hin
  rw [wadd_eq (h.below c hc)] at hin
  exact ha ⟨c, hc, hin⟩

theorem rmget_absent (h : Layout mp segs) (hs : 0 < size) (hs' : size < 2 ^ 31)
    (ha : addr ∉ freeSet segs) : rmget mp size addr = some (0, mp) := by
  obtain ⟨z, zs, he, hz, -, -⟩ := h.zeros
  unfold rmget
  rw [if_neg (by omega), he, rmgetFrom_skip h.good.pos (h.good.skip ha), rmgetFrom, if_pos hz]
  rfl

theorem rmget_refused {l r : List Seg} {b : Seg} (h : Layout mp (l ++ b :: r)) (hs : 0 < size)
    (hs' : size < 2 ^ 31) (ht : addr + size < top) (ha : b.addr ≤ addr) (hb : addr < b.addr + b.size)
    (hno : b.addr + b.size < addr + size ∨
      (b.addr < addr ∧ addr + size < b.addr + b.size ∧ mp.mFree = 0)) :
    rmget mp size addr = some (0, mp) := by
  obtain ⟨z, zs, he, hz, -, -⟩ := h.zeros
  have hmem : b ∈ l ++ b :: r := by simp
  have hl : addr ∉ freeSet l := by
    intro hx
    have := lt_of_mem_left h.good.spaced hx
    omega
  unfold rmget
  rw [if_neg (by omega), he, append_assoc, rmgetFrom_skip h.good.left.pos (h.good.left.skip hl),
    cons_append, rmgetFrom, if_neg (h.good.pos b hmem).ne', wadd_eq (h.good.below b hmem),
    wadd_eq ht, if_pos ⟨ha, hb⟩]
  rcases hno with hlt | ⟨h1, h2, h3⟩
  · rw [if_pos hlt]
    rfl
  · rw [if_neg (by omega), if_neg (by omega), if_neg (by omega), if_pos h3]
    rfl

theorem rmget_array {l r zs : List Seg} {b z : Seg} (he : mp.mMap = l ++ b :: (r ++ z :: zs)) (hl : ∀ c ∈ l, 0 < c.size)
    (hskip : ∀ c ∈ l, ¬(c.addr ≤ addr ∧ addr < wadd c.addr c.size)) (hpos : 0 < b.size) (hr : ∀ c ∈ r, 0 < c.size)
    (hz : ∀ y ∈ z :: zs, y.size = 0) (hlen : zs.length = mp.mFree) (hbelow : b.addr + b.size < top) (hs : 0 < size)
    (hs' : size < 2 ^ 31) (ha : b.addr ≤ addr) (hb : addr + size ≤ b.addr + b.size)
    (hfree : b.addr < addr → addr + size < b.addr + b.size → mp.mFree ≠ 0) :
    ∃ mp' zs', rmget mp size addr = some (addr, mp') ∧ mp'.mSize = mp.mSize ∧
      mp'.mMap = l ++ cut b addr size ++ r ++ zs' ∧ (∀ y ∈ zs', y.size = 0) ∧ zs'.length = mp'.mFree + 1 ∧
      (cut b addr size).length + mp'.mFree = mp.mFree + 1 := by
  have hz0 : z.size = 0 := hz z mem_cons_self
  unfold rmget
  rw [if_neg (by omega), he, rmgetFrom_skip hl hskip, rmgetFrom, if_neg hpos.ne', wadd_eq hbelow,
    wadd_eq (show addr + size < top by omega), if_pos ⟨ha, by omega⟩, if_neg (by omega)]
  by_cases hstart : b.addr = addr
  · rw [if_pos hstart]
    split_ifs with hall
    · rw [closeGap_spec hr hz0]
      have hcut : cut b addr size = [] := by
        unfold cut
        rw [if_pos hstart, if_pos (by omega), nil_append]
      rw [hcut]
      refine ⟨_, z :: z :: zs, rfl, rfl, by simp, ?_, ?_, ?_⟩
      · exact forall_mem_cons.mpr ⟨hz0, hz⟩
      · simp only [length_cons]
        omega
      · simp only [length_nil]
        omega
    · rw [wsub_eq (by omega) (by omega)]
      have hcut : cut b addr size = [⟨b.size - size, wadd b.addr size⟩] := by
        unfold cut
        rw [if_pos hstart, if_neg (by omega), nil_append, wadd_eq (by omega), hstart,
          Nat.add_sub_add_left]
      rw [hcut]
      refine ⟨_, z :: zs, rfl, rfl, by simp, hz, ?_, ?_⟩
      · simp only [length_cons]
        omega
      · simp only [length_singleton]
        omega
  · rw [if_neg hstart]
    by_cases hend : b.addr + b.size = addr + size
    · rw [if_pos hend, wsub_eq (by omega) (by omega)]
      have hcut : cut b addr size = [⟨b.size - size, b.addr⟩] := by
        unfold cut
        rw [if_neg hstart, if_pos hend, append_nil, show addr - b.addr = b.size - size by omega]
      rw [hcut]
      refine ⟨_, z :: zs, rfl, rfl, by simp, hz, ?_, ?_⟩
      · simp only [length_cons]
        omega
      · simp only [length_singleton]
        omega
    · have hfree' := hfree (by omega) (by omega)
      rw [if_neg hend, if_neg hfree']
      -- a slot is free, so another zero stands behind the terminator
      cases zs with
      | nil =>
        rw [length_nil] at hlen
        omega
      | cons t zs =>
        rw [openSlot_spec hr hz0]
        have hcut : cut b addr size = [⟨addr - b.addr, b.addr⟩,
            ⟨b.addr + b.size - (addr + size), addr + size⟩] := by
          unfold cut
          rw [if_neg hstart, if_neg hend]
          rfl
        rw [hcut]
        rw [length_cons] at hlen
        refine ⟨_, { t with size := 0 } :: zs, rfl, rfl, by simp, ?_, ?_, ?_⟩
        · exact forall_mem_cons.mpr ⟨rfl, fun y hy => hz y (by simp [hy])⟩
        · simp only [length_cons]
          omega
        · simp only [length_cons, length_nil]
          omega

theorem rmget_taken {l r : List Seg} {b : Seg} (h : Layout mp (l ++ b :: r)) (hs : 0 < size)
    (hs' : size < 2 ^ 31) (ha : b.addr ≤ addr) (hb : addr + size ≤ b.addr + b.size)
    (hfree : b.addr < addr → addr + size < b.addr + b.size → mp.mFree ≠ 0) :
    ∃ mp', rmget mp size addr = some (addr, mp') ∧ mp'.mSize = mp.mSize ∧
      Layout mp' (l ++ cut b addr size ++ r) := by
  obtain ⟨z, zs, he, hz, hzs, hlen⟩ := h.zeros
  have hmem : b ∈ l ++ b :: r := by simp
  have hl : addr ∉ freeSet l := by
    intro hx
    have := lt_of_mem_left h.good.spaced hx
    omega
  have hz' : ∀ y ∈ z :: zs, y.size = 0 := forall_mem_cons.mpr ⟨hz, hzs⟩
  have he' : mp.mMap = l ++ b :: (r ++ z :: zs) := by
    rw [he, append_assoc]
    rfl
  obtain ⟨mp', zs', hres, hsize, hmap, hzero, hlen', hfree'⟩ := rmget_array he'
    h.good.left.pos (h.good.left.skip hl) (h.good.pos b hmem) (fun c hc => h.good.pos c (by simp [hc])) hz' hlen
    (h.good.below b hmem) hs hs' ha hb hfree
  refine ⟨mp', hres, hsize, h.edited zs' hmap hzero hsize ?_ hlen' (cut_good h.good ha hs hb)⟩
  simp only [length_append, length_cons]
  omega

end Get

end Solaris.Rmap
