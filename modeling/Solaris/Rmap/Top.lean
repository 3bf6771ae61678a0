import Solaris.Rmap.Refinement

/-!
# Maps that reach the top of the address space

The tests of `rmget` are sums that wrap. A segment that ends at the top is never found, and a range that would reach the
top passes the test for the end of its segment.
-/

namespace Solaris.Rmap

open List

variable {mp mp' : Map} {segs l r : List Seg} {b c : Seg} {size addr : Nat}

lemma spaced_holds (h : (l ++ b :: r).Pairwise fun b c : Seg => b.addr + b.size < c.addr)
    (hb : b.addr ≤ addr ∧ addr < b.addr + b.size) (hc : c ∈ l ++ b :: r)
    (hin : c.addr ≤ addr ∧ addr < c.addr + c.size) : c = b := by
  rcases mem_append.mp hc with hc | hc
  · have := spaced_before h hc
    omega
  · rcases mem_cons.mp hc with rfl | hc
    · rfl
    · have := spaced_after h hc
      omega

theorem rmget_finds (h : Laid mp segs) (addr : Nat) :
    (∀ c ∈ segs, ¬(c.addr ≤ addr ∧ addr < wadd c.addr c.size)) ∨
      ∃ l b r, segs = l ++ b :: r ∧ b.addr ≤ addr ∧ addr < b.addr + b.size ∧ b.addr + b.size < top ∧
        ∀ c ∈ l, ¬(c.addr ≤ addr ∧ addr < wadd c.addr c.size) := by
  by_cases hno : ∀ c ∈ segs, ¬(c.addr ≤ addr ∧ addr < wadd c.addr c.size)
  · exact .inl hno
  right
  push Not at hno
  obtain ⟨b, hb, hle, hlt⟩ := hno
  have hbelow := h.formed.below b hb
  have htop : b.addr + b.size < top := by
    refine lt_of_le_of_ne hbelow fun heq => ?_
    rw [wadd, heq, Nat.mod_self] at hlt
    omega
  rw [wadd_eq htop] at hlt
  obtain ⟨l, r, rfl⟩ := append_of_mem hb
  refine ⟨l, b, r, rfl, hle, hlt, htop, fun c hc hin => ?_⟩
  have := spaced_before h.formed.spaced hc
  have hw : wadd c.addr c.size = c.addr + c.size := wadd_eq (by omega)
  omega

lemma rmget_not_found (h : Laid mp segs) (hs : 0 < size) (hs' : size < 2 ^ 31)
    (hno : ∀ c ∈ segs, ¬(c.addr ≤ addr ∧ addr < wadd c.addr c.size)) : rmget mp size addr = some (0, mp) := by
  obtain ⟨z, zs, he, hz, _, _⟩ := h.zeros
  unfold rmget
  rw [if_neg (by omega), he, rmgetFrom_skip h.formed.pos hno, rmgetFrom, if_pos hz]
  rfl

lemma rmgetFrom_found {zs : List Seg} (h : Laid mp (l ++ b :: r)) (hl : ∀ c ∈ l, ¬(c.addr ≤ addr ∧ addr < wadd c.addr c.size))
    (hle : b.addr ≤ addr) (hlt : addr < b.addr + b.size) (htop : b.addr + b.size < top) :
    rmgetFrom size addr mp.mFree (l ++ b :: zs) =
      (if b.addr + b.size < wadd addr size then some none
        else if b.addr = addr then
          if b.size = size then (closeGap (b :: zs)).map fun l => some (1, l)
          else some (some (0, ⟨wsub b.size size, wadd b.addr size⟩ :: zs))
        else if b.addr + b.size = wadd addr size then some (some (0, ⟨wsub b.size size, b.addr⟩ :: zs))
        else if mp.mFree = 0 then some none
        else (openSlot ⟨b.addr + b.size - wadd addr size, wadd addr size⟩ zs).map fun l =>
          some (-1, ⟨addr - b.addr, b.addr⟩ :: l)).map fun r => r.map fun (d, l') => (d, l ++ l') := by
  have hpos : ∀ c ∈ l, 0 < c.size := fun c hc => h.formed.pos c (mem_append_left _ hc)
  have hb : 0 < b.size := h.formed.pos b (by simp)
  rw [rmgetFrom_skip hpos hl, rmgetFrom, if_neg hb.ne', wadd_eq htop, if_pos ⟨hle, hlt⟩]

/-- `rmget` returns the address only where one segment holds the range, which is then gone; otherwise nothing changes. -/
def GetSound (mp : Map) (size addr : Nat) : Prop :=
  ∃ a mp', rmget mp size addr = some (a, mp') ∧ ((a = 0 ∧ mp' = mp) ∨ (a = addr ∧ addr ≠ 0 ∧
    (∃ b ∈ mp.segments, b.addr ≤ addr ∧ addr + size ≤ b.addr + b.size) ∧ mp'.free = mp.free \ span (addr, size)))

/-- The end of the range wraps, and a segment below the top holds its start; the start of the segment is asked for, or
there is a slot for a split. -/
def Wraps (mp : Map) (size addr : Nat) : Prop :=
  top ≤ addr + size ∧ ∃ b ∈ mp.segments, b.addr ≤ addr ∧ addr < b.addr + b.size ∧ b.addr + b.size < top ∧
    (b.addr = addr ∨ mp.mFree ≠ 0)

lemma rmget_sound_low (h : Laid mp (l ++ b :: r)) (hs : 0 < size) (hs' : size < 2 ^ 31) (hlow : addr + size < top)
    (hl : ∀ c ∈ l, ¬(c.addr ≤ addr ∧ addr < wadd c.addr c.size)) (hle : b.addr ≤ addr) (hlt : addr < b.addr + b.size)
    (htop : b.addr + b.size < top) : GetSound mp size addr := by
  obtain ⟨z, zs, he, hz, hzs, hlen⟩ := h.zeros
  have hmem : b ∈ l ++ b :: r := by simp
  have hr : ∀ c ∈ r, 0 < c.size := fun c hc => h.formed.pos c (by simp [hc])
  have hpos : ∀ c ∈ l, 0 < c.size := fun c hc => h.formed.pos c (mem_append_left _ hc)
  have he' : mp.mMap = l ++ b :: (r ++ z :: zs) := by
    rw [he, append_assoc]
    rfl
  have hseg := h.segments_eq
  have hrefused : (b.addr + b.size < addr + size ∨ (b.addr < addr ∧ addr + size < b.addr + b.size ∧ mp.mFree = 0)) →
      GetSound mp size addr := by
    intro hno
    refine ⟨0, mp, ?_, .inl ⟨rfl, rfl⟩⟩
    unfold rmget
    rw [if_neg (by omega), he', rmgetFrom_found h hl hle hlt htop, wadd_eq hlow]
    rcases hno with hlong | ⟨hstart, hend, hfull⟩
    · rw [if_pos hlong]
      rfl
    · rw [if_neg (by omega), if_neg (by omega), if_neg (by omega), if_pos hfull]
      rfl
  by_cases hfit : addr + size ≤ b.addr + b.size
  · by_cases hfull : b.addr < addr ∧ addr + size < b.addr + b.size ∧ mp.mFree = 0
    · exact hrefused (.inr hfull)
    have hz' : ∀ y ∈ z :: zs, y.size = 0 := forall_mem_cons.mpr ⟨hz, hzs⟩
    obtain ⟨mp', zs', hres, _, hmap, hzero, hlen', _⟩ := rmget_array he' hpos hl (h.formed.pos b hmem) hr hz' hlen htop
      hs hs' hle hfit fun h1 h2 h3 => hfull ⟨h1, h2, h3⟩
    have hba := h.formed.nonzero b hmem
    refine ⟨addr, mp', hres, .inr ⟨rfl, by omega, ⟨b, hseg ▸ hmem, hle, hfit⟩, ?_⟩⟩
    obtain ⟨y, ys, rfl⟩ : ∃ y ys, zs' = y :: ys := by
      cases zs' with
      | nil => cases hlen'
      | cons y ys => exact ⟨y, ys, rfl⟩
    have hcut : ∀ c ∈ l ++ cut b addr size ++ r, 0 < c.size := by
      intro c hc
      rcases mem_append.mp hc with hc | hc
      · rcases mem_append.mp hc with hc | hc
        · exact hpos c hc
        · rcases mem_cut hc with ⟨hne, rfl⟩ | ⟨hne, rfl⟩ <;> dsimp only <;> omega
      · exact hr c hc
    unfold Map.free
    rw [segments_of_entries hmap hcut (hzero y mem_cons_self), hseg, freeSet_cut h.formed.spaced hle hfit]
    rfl
  · exact hrefused (.inl (by omega))

lemma rmget_high (h : Laid mp (l ++ b :: r)) (hs' : size < 2 ^ 31) (hhigh : top ≤ addr + size)
    (hl : ∀ c ∈ l, ¬(c.addr ≤ addr ∧ addr < wadd c.addr c.size)) (hle : b.addr ≤ addr) (hlt : addr < b.addr + b.size)
    (htop : b.addr + b.size < top) : GetSound mp size addr ↔ ¬(b.addr = addr ∨ mp.mFree ≠ 0) := by
  obtain ⟨z, zs, he, hz, hzs, hlen⟩ := h.zeros
  have hmem : b ∈ l ++ b :: r := by simp
  have hba := h.formed.nonzero b hmem
  have he' : mp.mMap = l ++ b :: (r ++ z :: zs) := by
    rw [he, append_assoc]
    rfl
  have hwrap : wadd addr size = addr + size - top := by
    unfold wadd
    unfold top at *
    omega
  have hseg := h.segments_eq
  -- no segment holds a range that begins in one that ends below the top
  have hno : ¬∃ c ∈ mp.segments, c.addr ≤ addr ∧ addr + size ≤ c.addr + c.size := by
    rintro ⟨c, hc, hca, hcb⟩
    rw [hseg] at hc
    obtain rfl := spaced_holds h.formed.spaced ⟨hle, hlt⟩ hc ⟨hca, by unfold top at *; omega⟩
    omega
  have hfirst : ¬b.addr + b.size < wadd addr size := by
    unfold top at *
    omega
  have hlast : b.addr + b.size ≠ wadd addr size := by
    unfold top at *
    omega
  have hkept : ∀ {a mp'}, rmget mp size addr = some (a, mp') → GetSound mp size addr → a = 0 := by
    rintro a mp' hres ⟨a', mp'', hres', hcase⟩
    rw [hres] at hres'
    obtain ⟨rfl, rfl⟩ := Prod.mk.inj (Option.some.inj hres')
    rcases hcase with ⟨hzero, _⟩ | ⟨_, _, hin, _⟩
    · exact hzero
    · exact absurd hin hno
  have hsize : ¬(size = 0 ∨ 2 ^ 31 ≤ size) := by
    omega
  have hget : rmget mp size addr = _ := if_neg hsize
  rw [he', rmgetFrom_found h hl hle hlt htop, if_neg hfirst, if_neg hlast] at hget
  by_cases hstart : b.addr = addr
  · rw [if_pos hstart, if_neg (by unfold top at *; omega)] at hget
    refine iff_of_false (fun hsound => ?_) (not_not.mpr (.inl hstart))
    have := hkept hget hsound
    omega
  rw [if_neg hstart] at hget
  by_cases hfull : mp.mFree = 0
  · rw [if_pos hfull] at hget
    refine iff_of_true ⟨0, mp, hget, .inl ⟨rfl, rfl⟩⟩ ?_
    rintro (hb | hf)
    · exact hstart hb
    · exact hf hfull
  rw [if_neg hfull] at hget
  refine iff_of_false (fun hsound => ?_) (not_not.mpr (.inr hfull))
  cases zs with
  | nil =>
    rw [length_nil] at hlen
    omega
  | cons y zs =>
    have hr : ∀ c ∈ r, 0 < c.size := fun c hc => h.formed.pos c (by simp [hc])
    rw [openSlot_spec hr hz] at hget
    have := hkept hget hsound
    omega

/-- `rmget` is sound exactly on the ranges that do not wrap past the end of a segment found. -/
theorem rmget_sound_iff (h : Laid mp mp.segments) (hs : 0 < size) (hs' : size < 2 ^ 31) :
    GetSound mp size addr ↔ ¬Wraps mp size addr := by
  rcases rmget_finds h addr with hno | ⟨l, b, r, hseg, hle, hlt, htop, hl⟩
  · refine iff_of_true ⟨0, mp, rmget_not_found h hs hs' hno, .inl ⟨rfl, rfl⟩⟩ ?_
    rintro ⟨_, b, hb, hle, hlt, htop, _⟩
    exact hno b hb ⟨hle, by rw [wadd_eq htop]; exact hlt⟩
  have h' := h
  rw [hseg] at h'
  rcases Nat.lt_or_ge (addr + size) top with hlow | hhigh
  · refine iff_of_true (rmget_sound_low h' hs hs' hlow hl hle hlt htop) ?_
    rintro ⟨hhigh, _⟩
    omega
  rw [rmget_high h' hs' hhigh hl hle hlt htop]
  refine not_congr ⟨fun hcase => ⟨hhigh, b, by rw [hseg]; simp, hle, hlt, htop, hcase⟩, ?_⟩
  rintro ⟨_, c, hc, hca, hcb, _, hcase⟩
  rw [hseg] at hc
  obtain rfl := spaced_holds h'.formed.spaced ⟨hle, hlt⟩ hc ⟨hca, hcb⟩
  exact hcase

theorem rmget_sound_iff_sample : GetSound (mapinit 10 500 (2 ^ 32 - 1000)) 300 (2 ^ 32 - 900) ↔
    ¬Wraps (mapinit 10 500 (2 ^ 32 - 1000)) 300 (2 ^ 32 - 900) := by
  have hlaid : Laid (mapinit 10 500 (2 ^ 32 - 1000)) [⟨500, 2 ^ 32 - 1000⟩] :=
    (mapinit_layout 10 (by decide) (fun _ => by decide)).laid
  have hseg := hlaid.segments_eq
  exact rmget_sound_iff (hseg ▸ hlaid) (by decide) (by decide)

/-- A segment of 500 units that ends 500 below the top, and a request of 2000 units at its start. -/
theorem rmget_not_sound : ¬GetSound (mapinit 10 500 (2 ^ 32 - 1000)) 2000 (2 ^ 32 - 1000) := by
  rintro ⟨a, mp', hres, hcase⟩
  obtain ⟨rfl, rfl⟩ := Prod.mk.inj (Option.some.inj hres)
  rcases hcase with ⟨hzero, _⟩ | ⟨_, _, ⟨b, hb, hlow, hhigh⟩, _⟩
  · exact absurd hzero (by decide)
  · have hseg : (mapinit 10 500 (2 ^ 32 - 1000)).segments = [⟨500, 2 ^ 32 - 1000⟩] := by decide +kernel
    rw [hseg, mem_singleton] at hb
    subst hb
    revert hhigh
    decide

end Solaris.Rmap
