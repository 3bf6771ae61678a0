import Solaris.Swap.Kluster

/-!
# Backing a kluster, every way out

The loop of `swap_newphysname` gives slots to anons one after the other until the kluster is backed or
an anon is missing. Whichever exit it takes, the slots that no anon has been given are freed.
-/

namespace Solaris.SwapSlots

open Lib Function Nat List Nat

section Slots

variable {pageShift : Nat} {a : SwapInfo} {k n : Nat}

lemma slots_zero : slots pageShift a k 0 = ∅ := by
  ext p
  constructor
  · rintro ⟨-, i, hlo, hhi, -⟩
    omega
  · exact fun h => absurd h (Set.notMem_empty p)

lemma slots_first : (a.vp, ptob pageShift k + a.soff) ∈ slots pageShift a k (n + 1) :=
  ⟨rfl, k, le_rfl, by omega, rfl⟩

lemma slots_succ :
    slots pageShift a k (n + 1) \ {(a.vp, ptob pageShift k + a.soff)} = slots pageShift a (k + 1) n := by
  ext p
  constructor
  · rintro ⟨⟨hvp, i, hlo, hhi, hoff⟩, hne⟩
    have hik : i ≠ k := by
      rintro rfl
      exact hne (Prod.ext hvp hoff)
    exact ⟨hvp, i, by omega, by omega, hoff⟩
  · rintro ⟨hvp, i, hlo, hhi, hoff⟩
    refine ⟨⟨hvp, i, by omega, by omega, hoff⟩, ?_⟩
    rintro rfl
    have hik : i = k := ptob_soff_inj hoff.symm
    omega

end Slots

/-- The pages of the vnode from `off` on, `len` bytes of them, are backed by the slots from `slot` on. -/
def Backed (pageShift vp : Nat) (anons : Anons) (off len : Nat) (slot : Page) : Prop :=
  ∀ j, ptob pageShift j < len →
    anons (vp, off + ptob pageShift j) = some (some (slot.1, slot.2 + ptob pageShift j))

lemma backed_one {pageShift vp off : Nat} {anons : Anons} {slot : Page}
    (h : anons (vp, off) = some (some slot)) : Backed pageShift vp anons off (pageSize pageShift) slot := by
  intro j hj
  have hlt : ptob pageShift j < ptob pageShift 1 := by
    rw [ptob_one]
    exact hj
  have hj0 : j = 0 := by
    have hj1 := ptob_lt_iff.mp hlt
    omega
  have hzero : ptob pageShift 0 = 0 := zero_mul _
  rw [hj0, hzero]
  exact h

/-- A successful answer: a range around the offset, inside the one asked for, that is backed. -/
structure Answers (pageShift vp offset offp lenp : Nat) (anons : Anons) (ans : Newphys) : Prop where
  around : ans.off ≤ offset ∧ offset < ans.off + ans.len
  inside : offp ≤ ans.off ∧ ans.off + ans.len ≤ offp + lenp
  backed : ∃ slot, ans.slot = some slot ∧ Backed pageShift vp anons ans.off ans.len slot

section Loop

variable {pageShift : Nat} {anons anons' : Anons} {l' : List SwapInfo} {H : Set Page}
  {g : Page → Option Page} {sites : List (Nat × Nat × Nat)} {a : SwapInfo}
  {vp offset offp lenp start k n : Nat}

/-- The kluster lies around the offset inside the range asked for. -/
structure Placed (pageShift offset offp lenp start n : Nat) : Prop where
  page : ∃ j < n, offset = start + ptob pageShift j
  low : offp ≤ start
  high : start + ptob pageShift n ≤ offp + lenp

/-- The first `i` pages of the kluster, and no others, have been given their slots. -/
structure Given (pageShift vp start : Nat) (a : SwapInfo) (k i : Nat) (g : Page → Option Page) : Prop where
  given : ∀ j < i, g (vp, start + ptob pageShift j) = some (a.vp, ptob pageShift (k + j) + a.soff)
  only : ∀ name, g name ≠ none → name.1 = vp ∧ ∃ j < i, name.2 = start + ptob pageShift j

lemma page_inj {i j : Nat} (h : start + ptob pageShift i = start + ptob pageShift j) : i = j :=
  ptob_inj (add_left_cancel h)

lemma Given.not_given {i j : Nat} (h : Given pageShift vp start a k i g) (hij : i ≤ j) :
    g (vp, start + ptob pageShift j) = none := by
  by_contra hne
  obtain ⟨-, j', hj', heq⟩ := h.only _ hne
  have hjj : j = j' := page_inj heq
  omega

lemma Given.next {i : Nat} (h : Given pageShift vp start a k i g) :
    Given pageShift vp start a k (i + 1)
      (update g (vp, start + ptob pageShift i) (some (a.vp, ptob pageShift (k + i) + a.soff))) := by
  refine ⟨fun j hj => ?_, fun name hname => ?_⟩
  · by_cases hji : j = i
    · rw [hji, update_self]
    · have hne : (vp, start + ptob pageShift j) ≠ (vp, start + ptob pageShift i) :=
        fun heq => hji (page_inj (congrArg Prod.snd heq))
      rw [update_of_ne hne]
      exact h.given j (by omega)
  · by_cases heq : name = (vp, start + ptob pageShift i)
    · rw [heq]
      exact ⟨rfl, i, by omega, rfl⟩
    · rw [update_of_ne heq] at hname
      obtain ⟨hvp, j, hj, hoff⟩ := h.only name hname
      exact ⟨hvp, j, by omega, hoff⟩

lemma Given.backed {i : Nat} {S : Set Page} (h : Given pageShift vp start a k i g)
    (hre : Reassigned pageShift sites anons H g S anons' l') :
    Backed pageShift vp anons' start (ptob pageShift i) (a.vp, ptob pageShift k + a.soff) := by
  intro j hj
  have hji := ptob_lt_iff.mp hj
  rw [hre.table, h.given j hji, ptob_add]
  have hsum : ptob pageShift k + ptob pageShift j + a.soff = ptob pageShift k + a.soff + ptob pageShift j := by
    omega
  rw [hsum]

structure LoopEnds (pageShift vp offset offp lenp start n : Nat) (sites : List (Nat × Nat × Nat))
    (anons : Anons) (H : Set Page) (x : Newphys × Anons × List SwapInfo) : Prop where
  reassigned : ∃ g, Reassigned pageShift sites anons H g ∅ x.2.1 x.2.2 ∧
    ∀ name, g name ≠ none → name.1 = vp ∧ ∃ j < n, name.2 = start + ptob pageShift j
  answers : x.1.error = .ok → Answers pageShift vp offset offp lenp x.2.1 x.1

theorem klusterLoop_ends (hrec : Recorded anons H) (ha : a.site ∈ sites) (hkn : k + n ≤ a.npgs)
    (hplace : Placed pageShift offset offp lenp start n) (turns i : Nat) (hi : i + turns = n)
    (hre : Reassigned pageShift sites anons H g (slots pageShift a (k + i) turns) anons' l')
    (hg : Given pageShift vp start a k i g) :
    ∃ x, klusterLoop pageShift vp offset a.vp start (ptob pageShift k + a.soff) (ptob pageShift n) turns
        (start + ptob pageShift i) (ptob pageShift (k + i) + a.soff) anons' l' = some x ∧
      LoopEnds pageShift vp offset offp lenp start n sites anons H x := by
  obtain ⟨⟨jo, hjo, hoffset⟩, hlow, hhigh⟩ := hplace
  have honly (m : Nat) (hm : m ≤ n) (g' : Page → Option Page) (hg' : Given pageShift vp start a k m g')
      (name : Page) (hname : g' name ≠ none) :
      name.1 = vp ∧ ∃ j < n, name.2 = start + ptob pageShift j := by
    obtain ⟨hvp, j, hj, hoff⟩ := hg'.only name hname
    exact ⟨hvp, j, by omega, hoff⟩
  induction turns generalizing i g anons' l' with
  | zero =>
    rw [slots_zero] at hre
    have hin : i = n := by omega
    subst hin
    refine ⟨_, rfl, ⟨g, hre, honly i le_rfl g hg⟩, fun _ => ⟨⟨?_, ?_⟩, ⟨hlow, hhigh⟩, _, rfl, hg.backed hre⟩⟩
    · change start ≤ offset
      omega
    · change offset < start + ptob pageShift i
      have hlt : ptob pageShift jo < ptob pageShift i := ptob_lt_iff.mpr hjo
      omega
  | succ turns ih =>
    have hprem : ptob pageShift k + a.soff + ptob pageShift n - (ptob pageShift (k + i) + a.soff) =
        ptob pageShift (turns + 1) := by
      have hsum : ptob pageShift (k + n) = ptob pageShift (k + i) + ptob pageShift (turns + 1) := by
        rw [← ptob_add]
        congr 1
        omega
      rw [ptob_add] at hsum
      omega
    have hnot := hg.not_given (le_refl i)
    have htable : anons' (vp, start + ptob pageShift i) = anons (vp, start + ptob pageShift i) := by
      rw [hre.table, hnot]
    unfold klusterLoop
    rw [htable, hprem]
    -- Everything that is left is freed, and only the given pages keep new slots.
    obtain ⟨l1, hfree, hdrop⟩ := hre.drop ha (succ_pos turns) (by omega) le_rfl
    rw [sdiff_self] at hdrop
    cases hanon : anons (vp, start + ptob pageShift i) with
    | some old =>
      obtain ⟨l2, hold, hassign⟩ := hre.assign hrec slots_first hnot hanon
      rw [slots_succ] at hassign
      dsimp only
      rw [hold]
      have hoff : start + ptob pageShift i + pageSize pageShift = start + ptob pageShift (i + 1) := by
        rw [ptob_add, ptob_one, add_assoc]
      have hpoff : ptob pageShift (k + i) + a.soff + pageSize pageShift =
          ptob pageShift (k + (i + 1)) + a.soff := by
        rw [← add_assoc, ptob_add (i := k + i) (j := 1), ptob_one]
        omega
      rw [hoff, hpoff]
      exact ih (i + 1) (by omega) hassign hg.next
    | none =>
      dsimp only
      rw [hfree]
      split_ifs with hpast hat
      · have hji : ptob pageShift jo < ptob pageShift i := by omega
        have hlen : ptob pageShift (k + i) + a.soff - (ptob pageShift k + a.soff) = ptob pageShift i := by
          rw [ptob_add]
          omega
        have hi_n : ptob pageShift i ≤ ptob pageShift n := ptob_le_iff.mpr (by omega)
        rw [hlen]
        refine ⟨_, rfl, ⟨g, hdrop, honly i (by omega) g hg⟩, fun _ => ⟨⟨?_, hpast⟩, ⟨hlow, ?_⟩, _, rfl,
          hg.backed hdrop⟩⟩
        · change start ≤ offset
          omega
        · change start + ptob pageShift i ≤ offp + lenp
          omega
      · exact ⟨_, rfl, ⟨g, hdrop, honly i (by omega) g hg⟩, fun h => by cases h⟩
      · have hlt : ptob pageShift i < ptob pageShift jo := by omega
        have hij : i < jo := ptob_lt_iff.mp hlt
        have hnot' := hg.not_given hij.le
        have htable' : anons' (vp, offset) = anons (vp, offset) := by
          rw [hre.table, hoffset, hnot']
        rw [htable']
        cases hreq : anons (vp, offset) with
        | none => exact ⟨_, rfl, ⟨g, hdrop, honly i (by omega) g hg⟩, fun h => by cases h⟩
        | some old =>
          rw [hoffset] at hreq
          obtain ⟨l2, hold, hassign⟩ := hre.assign hrec slots_first hnot' hreq
          rw [slots_succ] at hassign
          obtain ⟨l3, hfree3, hdrop3⟩ := hassign.drop (k := k + i + 1) (n := turns) ha (by omega) (by omega)
            le_rfl
          rw [sdiff_self] at hdrop3
          have hpoff : ptob pageShift (k + i) + a.soff + pageSize pageShift =
              ptob pageShift (k + i + 1) + a.soff := by
            rw [ptob_add (i := k + i) (j := 1), ptob_one]
            omega
          have hrest : ptob pageShift (turns + 1) - pageSize pageShift = ptob pageShift turns := by
            rw [ptob_add, ptob_one, Nat.add_sub_cancel]
          dsimp only
          rw [hold]
          dsimp only
          rw [hpoff, hrest, hfree3, hoffset]
          have hsucc : ptob pageShift (jo + 1) = ptob pageShift jo + pageSize pageShift := by
            rw [ptob_add, ptob_one]
          have hjo_n : ptob pageShift (jo + 1) ≤ ptob pageShift n := ptob_le_iff.mpr hjo
          have hpos : 0 < pageSize pageShift := pageSize_pos
          refine ⟨_, rfl, ⟨_, hdrop3, fun name hname => ?_⟩, fun _ => ⟨⟨le_rfl, ?_⟩, ⟨?_, ?_⟩, _, rfl, ?_⟩⟩
          · by_cases heq : name = (vp, start + ptob pageShift jo)
            · rw [heq]
              exact ⟨rfl, jo, hjo, rfl⟩
            · rw [update_of_ne heq] at hname
              exact honly i (by omega) g hg name hname
          · change start + ptob pageShift jo < start + ptob pageShift jo + pageSize pageShift
            omega
          · change offp ≤ start + ptob pageShift jo
            omega
          · change start + ptob pageShift jo + pageSize pageShift ≤ offp + lenp
            omega
          · apply backed_one
            exact update_self ..

end Loop

section Length

variable {pageShift : Nat} {getoff : SwapInfo → Option (Option Nat × SwapInfo)} {q : Request}

lemma takeMore_len (hq : pageSize pageShift ∣ q.lenp) (hlt : q.lenp < 2 ^ 32) {soff fuel len : Nat}
    {sip : SwapInfo} {r : Nat × SwapInfo} (hd : pageSize pageShift ∣ len) (hle : len ≤ q.lenp)
    (h : takeMore pageShift getoff q soff fuel len sip = some r) : r.1 ≤ q.lenp := by
  induction fuel generalizing len sip with
  | zero => cases h
  | succ fuel ih =>
    have hstop (sip' : SwapInfo) (h' : some (len, sip') = some r) : r.1 ≤ q.lenp := by
      cases h'
      exact hle
    unfold takeMore at h
    split at h
    · exact hstop _ h
    · next hmore =>
      split at h
      · exact hstop _ h
      split at h
      · exact hstop _ h
      split at h
      · cases h
      · exact hstop _ h
      · split at h
        · exact hstop _ h
        have hnext : len + pageSize pageShift ≤ q.lenp := by
          obtain ⟨c, hc⟩ := hq
          obtain ⟨d, hd'⟩ := hd
          rw [hc, hd'] at hmore ⊢
          have hdc : d < c := Nat.lt_of_mul_lt_mul_left (not_not.mp hmore)
          exact Nat.mul_le_mul_left _ hdc
        have hmod : (len + pageSize pageShift) % 2 ^ 32 = len + pageSize pageShift :=
          mod_eq_of_lt (by omega)
        rw [hmod] at h
        exact ih (dvd_add hd (dvd_refl _)) hnext h

lemma takeFrom_len (hq : pageSize pageShift ∣ q.lenp) (hpos : 0 < q.lenp) (hlt : q.lenp < 2 ^ 32)
    {p : Nat} {before after : List SwapInfo} {sip : SwapInfo} {r : Range × Areas}
    (h : takeFrom pageShift getoff q p before sip after = some r) : r.1.len ≤ q.lenp := by
  unfold takeFrom at h
  cases hal : allocFrom pageShift getoff q sip with
  | none =>
    rw [hal] at h
    cases h
  | some x =>
    rw [hal] at h
    cases h
    unfold allocFrom at hal
    split at hal
    · cases hal
    · cases hal
    · obtain ⟨y, hy, heq⟩ := Option.map_eq_some_iff.mp hal
      cases heq
      exact takeMore_len hq hlt (dvd_refl _) (le_of_dvd hpos hq) hy

lemma swapPhysAlloc_len (hq : pageSize pageShift ∣ q.lenp) (hpos : 0 < q.lenp) (hlt : q.lenp < 2 ^ 32)
    {s s' : Areas} {r : Range} (h : swapPhysAlloc pageShift q s = some (some r, s')) : r.len ≤ q.lenp := by
  unfold swapPhysAlloc swapPhysAllocWith at h
  split at h
  · cases h
  split at h
  · cases h
  split at h
  · obtain ⟨y, hy, heq⟩ := Option.map_eq_some_iff.mp h
    cases heq
    exact takeFrom_len hq hpos hlt hy
  · split at h
    · obtain ⟨y, hy, heq⟩ := Option.map_eq_some_iff.mp h
      cases heq
      exact takeFrom_len hq hpos hlt hy
    · cases h

end Length

section Exact

variable {pageShift : Nat}

lemma held_of_core {l l' : List SwapInfo} (h : l'.map SwapInfo.core = l.map SwapInfo.core) :
    held pageShift l' = held pageShift l := by
  have hsub (x y : List SwapInfo) (hxy : x.map SwapInfo.core = y.map SwapInfo.core) :
      held pageShift x ⊆ held pageShift y := by
    rintro p ⟨b, hb, hvp, i, hi, hset, hoff⟩
    obtain ⟨d, hd, he⟩ := mem_of_core hxy hb
    have hp : p ∈ d.core.heldSlots pageShift := by
      rw [he]
      exact ⟨hvp.symm, i, hi, hset, hoff⟩
    exact ⟨d, hd, hp.1.symm, hp.2⟩
  exact Set.Subset.antisymm (hsub l' l h) (hsub l l' h.symm)

lemma placed_start {offset offp lenp n : Nat} (hn : 0 < n) (ho : pageSize pageShift ∣ offset)
    (hp : pageSize pageShift ∣ offp) (hl : pageSize pageShift ∣ lenp) (hlo : offp ≤ offset)
    (hhi : offset < offp + lenp) (hwrap : offp + lenp < 2 ^ 32) (hlen : ptob pageShift n ≤ lenp) :
    Placed pageShift offset offp lenp (max offp
      (if ptob pageShift n < (offset + pageSize pageShift) % 2 ^ 32 then
        (offset + pageSize pageShift) % 2 ^ 32 - ptob pageShift n else 0)) n := by
  have hmul (x : Nat) (hx : pageSize pageShift ∣ x) : ∃ c, x = ptob pageShift c := by
    obtain ⟨c, hc⟩ := hx
    exact ⟨c, hc.trans (mul_comm _ _)⟩
  obtain ⟨o, rfl⟩ := hmul offset ho
  obtain ⟨b, rfl⟩ := hmul offp hp
  obtain ⟨c, rfl⟩ := hmul lenp hl
  have hnext : ptob pageShift o + pageSize pageShift = ptob pageShift (o + 1) := by
    rw [ptob_add, ptob_one]
  have hbo : b ≤ o := ptob_le_iff.mp hlo
  have hoc : o < b + c := by
    rw [← ptob_add] at hhi
    exact ptob_lt_iff.mp hhi
  have hend : ptob pageShift (o + 1) ≤ ptob pageShift (b + c) := ptob_le_iff.mpr hoc
  rw [ptob_add (i := b)] at hend
  rw [hnext, mod_eq_of_lt (by omega)]
  by_cases hlast : b + n ≤ o + 1
  · have hsum : ptob pageShift (o + 1) = ptob pageShift (o + 1 - n) + ptob pageShift n := by
      rw [← ptob_add]
      congr 1
      omega
    have hge : ptob pageShift b ≤ ptob pageShift (o + 1 - n) := ptob_le_iff.mpr (by omega)
    have hstart : max (ptob pageShift b) (if ptob pageShift n < ptob pageShift (o + 1) then
        ptob pageShift (o + 1) - ptob pageShift n else 0) = ptob pageShift (o + 1 - n) := by
      split <;> omega
    rw [hstart]
    refine ⟨⟨n - 1, by omega, ?_⟩, hge, ?_⟩
    · rw [← ptob_add]
      congr 1
      omega
    · omega
  · have hlt : ptob pageShift (o + 1) < ptob pageShift (b + n) := ptob_lt_iff.mpr (by omega)
    rw [ptob_add (i := b)] at hlt
    have hstart : max (ptob pageShift b) (if ptob pageShift n < ptob pageShift (o + 1) then
        ptob pageShift (o + 1) - ptob pageShift n else 0) = ptob pageShift b := by
      split <;> omega
    rw [hstart]
    refine ⟨⟨o - b, by omega, ?_⟩, le_rfl, ?_⟩
    · rw [← ptob_add]
      congr 1
      omega
    · omega

/-- What is asked of a call that goes from `anons` and the areas `l` to `anons'` and `l'`. -/
structure KlusterExact (pageShift vp offset offp lenp : Nat) (anons : Anons) (l : List SwapInfo)
    (ans : Newphys) (anons' : Anons) (l' : List SwapInfo) : Prop where
  success : ans.error = .ok → Answers pageShift vp offset offp lenp anons' ans
  recorded : Recorded anons' (held pageShift l')
  new : ∀ p ∈ held pageShift l', p ∉ held pageShift l → ∃ name, anons' name = some (some p)
  displaced : ∀ name p, anons name = some (some p) → anons' name ≠ some (some p) →
    p ∉ held pageShift l'
  freed : ∀ p ∈ held pageShift l, p ∉ held pageShift l' →
    ∃ name, anons name = some (some p) ∧ anons' name ≠ some (some p)
  others : ∀ name, anons' name = anons name ∨
    (name.1 = vp ∧ offp ≤ name.2 ∧ name.2 < offp + lenp ∧ anons name ≠ none ∧
      ∃ p, anons' name = some (some p) ∧ p ∉ held pageShift l)

lemma klusterExact_of_reassigned {vp offset offp lenp : Nat} {anons anons' : Anons} {l l' : List SwapInfo}
    {g : Page → Option Page} {sites : List (Nat × Nat × Nat)} {ans : Newphys}
    (h : Reassigned pageShift sites anons (held pageShift l) g ∅ anons' l')
    (hrec : Recorded anons (held pageShift l))
    (honly : ∀ name, g name ≠ none → name.1 = vp ∧ offp ≤ name.2 ∧ name.2 < offp + lenp)
    (hans : ans.error = .ok → Answers pageShift vp offset offp lenp anons' ans) :
    KlusterExact pageShift vp offset offp lenp anons l ans anons' l' := by
  have hcases (name : Page) : (g name = none ∧ anons' name = anons name) ∨
      ∃ p, g name = some p ∧ anons' name = some (some p) := by
    have ht := h.table name
    cases hg : g name with
    | none =>
      rw [hg] at ht
      exact .inl ⟨rfl, ht⟩
    | some p =>
      rw [hg] at ht
      exact .inr ⟨p, rfl, ht⟩
  have hrecord (name p : Page) (hname : anons' name = some (some p)) :
      (g name = none ∧ anons name = some (some p) ∧ p ∈ held pageShift l) ∨ g name = some p := by
    rcases hcases name with ⟨hg, heq⟩ | ⟨q, hg, heq⟩
    · rw [heq] at hname
      exact .inl ⟨hg, hname, hrec.held name p hname⟩
    · rw [heq] at hname
      cases hname
      exact .inr hg
  have hdisplaced (name p : Page) (hold : anons name = some (some p)) (hg : g name ≠ none) :
      p ∉ held pageShift l' := by
    have hp := hrec.held name p hold
    rw [h.held]
    rintro (⟨-, hno⟩ | ⟨m, hm⟩ | hm)
    · exact hno ⟨name, hg, hold⟩
    · exact (h.fresh m p hm).1 hp
    · exact hm
  refine ⟨hans, ⟨fun name p hname => ?_, fun name name' p hname hname' => ?_⟩, fun p hp hnot => ?_,
    fun name p hold hne => ?_, fun p hp hnot => ?_, fun name => ?_⟩
  · rcases hrecord name p hname with ⟨hg, hold, hp⟩ | hg
    · refine (h.held p).mpr (.inl ⟨hp, ?_⟩)
      rintro ⟨m, hm, hmp⟩
      have hsame := hrec.once m name p hmp hold
      rw [hsame] at hm
      exact hm hg
    · exact (h.held p).mpr (.inr (.inl ⟨name, hg⟩))
  · rcases hrecord name p hname with ⟨-, hold, hp⟩ | hg
    · rcases hrecord name' p hname' with ⟨-, hold', -⟩ | hg'
      · exact hrec.once name name' p hold hold'
      · exact absurd hp (h.fresh name' p hg').1
    · rcases hrecord name' p hname' with ⟨-, -, hp⟩ | hg'
      · exact absurd hp (h.fresh name p hg).1
      · exact h.once name name' p hg hg'
  · rcases (h.held p).mp hp with ⟨hold, -⟩ | ⟨name, hg⟩ | hp
    · exact absurd hold hnot
    · refine ⟨name, ?_⟩
      rcases hcases name with ⟨hnone, -⟩ | ⟨q, hq, heq⟩
      · rw [hnone] at hg
        cases hg
      · rw [hq] at hg
        cases hg
        exact heq
    · exact absurd hp (Set.notMem_empty p)
  · apply hdisplaced name p hold
    intro hg
    rcases hcases name with ⟨-, heq⟩ | ⟨q, hq, -⟩
    · exact hne (heq.trans hold)
    · rw [hg] at hq
      cases hq
  · by_contra hno
    apply hnot
    refine (h.held p).mpr (.inl ⟨hp, ?_⟩)
    rintro ⟨name, hg, hold⟩
    refine hno ⟨name, hold, fun heq => ?_⟩
    rcases hrecord name p heq with ⟨hnone, -, -⟩ | hgp
    · exact hg hnone
    · exact (h.fresh name p hgp).1 hp
  · rcases hcases name with ⟨-, heq⟩ | ⟨p, hg, heq⟩
    · exact .inl heq
    · have hne : g name ≠ none := by
        rw [hg]
        exact Option.some_ne_none p
      obtain ⟨hvp, hlo, hhi⟩ := honly name hne
      exact .inr ⟨hvp, hlo, hhi, h.present name hne, p, heq, (h.fresh name p hg).1⟩

lemma alreadyBacked_exact {vp offset offp lenp : Nat} {anons : Anons} {l l' : List SwapInfo}
    (hrec : Recorded anons (held pageShift l)) (hheld : held pageShift l' = held pageShift l)
    (hlo : offp ≤ offset) (hhi : offset + pageSize pageShift ≤ offp + lenp) :
    KlusterExact pageShift vp offset offp lenp anons l
      (alreadyBacked pageShift vp offset offp lenp anons) anons l' := by
  refine ⟨fun hok => ?_, by rw [hheld]; exact hrec, fun p hp hnot => ?_, fun name p hold hne => ?_,
    fun p hp hnot => ?_, fun name => .inl rfl⟩
  · unfold alreadyBacked at hok ⊢
    have hpos : 0 < pageSize pageShift := pageSize_pos
    cases hanon : anons (vp, offset) with
    | none =>
      rw [hanon] at hok
      cases hok
    | some old =>
      rw [hanon] at hok
      cases old with
      | none => cases hok
      | some slot =>
        refine ⟨⟨le_rfl, ?_⟩, ⟨hlo, hhi⟩, slot, rfl, backed_one hanon⟩
        change offset < offset + pageSize pageShift
        omega
  · rw [hheld] at hp
    exact absurd hp hnot
  · exact absurd hold hne
  · rw [hheld] at hnot
    exact absurd hp hnot

/-- For every anon table whose slots are allocated, each to one anon, `swap_newphysname` ends, and every
slot it has allocated is recorded once or free, whatever it answers. -/
theorem swapNewphysname_exact {s : Sys} (hs : Reachable pageShift s) (anons : Anons)
    (hrec : Recorded anons (held pageShift s.areas.swapinfo)) (maxcontig : Int)
    (allocMaxcontig vp offset offp lenp : Nat) (ho : pageSize pageShift ∣ offset)
    (hp : pageSize pageShift ∣ offp) (hl : pageSize pageShift ∣ lenp) (hlo : offp ≤ offset)
    (hhi : offset < offp + lenp) (hwrap : offp + lenp < 2 ^ 32) :
    ∃ ans anons' areas', swapNewphysname pageShift maxcontig allocMaxcontig vp offset offp lenp anons
        s.areas = some (ans, anons', areas') ∧
      KlusterExact pageShift vp offset offp lenp anons s.areas.swapinfo ans anons' areas'.swapinfo := by
  have hinv := hs.inv
  have hstart (n : Nat) (hn : 0 < n) := placed_start hn ho hp hl hlo hhi hwrap
  unfold swapNewphysname
  rcases @swapPhysAlloc_spec pageShift ⟨0, 0, lenp, false, maxcontig, allocMaxcontig⟩ s.areas
      hinv.ok.wf hinv.last with
    ⟨-, t, ⟨-, hrun⟩, hcore, -⟩ | ⟨pre, a, post, k, n, a', t, hlist, -, hn, ht, ⟨-, hrun⟩, hcore, -⟩
  · rw [hrun]
    have hend : offset + pageSize pageShift ≤ offp + lenp := by
      obtain ⟨c, hc⟩ := ho
      obtain ⟨d, hd⟩ := dvd_add hp hl
      rw [hc, hd] at hhi ⊢
      exact Nat.mul_le_mul_left _ (Nat.lt_of_mul_lt_mul_left hhi)
    exact ⟨_, _, _, rfl, alreadyBacked_exact hrec (held_of_core hcore) hlo hend⟩
  have hlen : ptob pageShift n ≤ lenp := swapPhysAlloc_len
    hl (by change 0 < lenp; omega) (by change lenp < 2 ^ 32; omega) hrun
  have hok := hinv.ok
  rw [hlist] at hok
  have hawf := hok.wf a (by simp)
  have hkn := ht.inside hawf hn
  have hoks := (hok.take hn ht).of_core hcore
  have hwf0 : AreasWf pageShift (pre ++ a :: post) := ⟨hok.wf, hok.apart⟩
  have hvp : a'.vp = a.vp := by rw [ht.eq]
  have hsite : a'.site = a.site := by
    unfold SwapInfo.site
    rw [hvp, ht.soff, ht.npgs]
  have hheld : held pageShift t.swapinfo =
      held pageShift s.areas.swapinfo ∪ slots pageShift a k n := by
    rw [held_of_core hcore, hlist, held_append, held_cons, held_append, held_cons,
      heldSlots_take ht hkn]
    ext p
    simp only [Set.mem_union]
    tauto
  have hfresh (p : Page) (hp : p ∈ slots pageShift a k n) : p ∉ held pageShift s.areas.swapinfo := by
    rw [hlist, held_append, held_cons]
    rintro (hpre | ⟨-, i, hi, hset, hoff⟩ | hpost)
    · exact (hwf0.slots_other hkn hp).1 hpre
    · obtain ⟨-, j, hlo, hhi, hjoff⟩ := hp
      have hij : i = j := ptob_soff_inj (hoff.symm.trans hjoff)
      exact hset (ht.wereFree (Finset.mem_Ico.mpr ⟨by omega, by omega⟩))
    · exact (hwf0.slots_other hkn hp).2 hpost
  have hsites : a.site ∈ t.swapinfo.map SwapInfo.site := by
    have hcongr := congrArg (map SwapInfo.site) hcore
    rw [map_map, map_map] at hcongr
    have hmap : t.swapinfo.map SwapInfo.site = (pre ++ a' :: post).map SwapInfo.site := hcongr
    rw [hmap, map_append, map_cons, hsite]
    simp
  have hre : Reassigned pageShift (t.swapinfo.map SwapInfo.site) anons
      (held pageShift s.areas.swapinfo) (fun _ => none) (slots pageShift a (k + 0) n) anons t.swapinfo := by
    refine ⟨⟨hoks.wf, hoks.apart⟩, rfl, fun _ => rfl, fun _ h => absurd rfl h, fun _ _ h => (by cases h),
      hfresh, fun _ _ _ h => (by cases h), fun p => ?_⟩
    rw [hheld, add_zero, Set.mem_union]
    simp
  have hplace := hstart n hn hlen
  obtain ⟨x, hloop, hends⟩ := klusterLoop_ends hrec hsites hkn hplace n 0
    (zero_add n) hre ⟨fun j hj => absurd hj (by omega), fun _ h => absurd rfl h⟩
  have hzero : ptob pageShift 0 = 0 := zero_mul _
  have hturns : btopr pageShift (ptob pageShift n) = n := by
    have hpos : 0 < pageSize pageShift := pageSize_pos
    unfold btopr ptob
    rw [mul_comm, mul_add_div hpos, div_eq_of_lt (by omega), add_zero]
  rw [hzero, add_zero, add_zero] at hloop
  rw [hrun]
  refine ⟨x.1, x.2.1, { t with swapinfo := x.2.2 }, ?_, ?_⟩
  · unfold SwapInfo.range
    dsimp only
    rw [hturns, hloop]
    rfl
  · obtain ⟨⟨g, hg, honly⟩, hans⟩ := hends
    apply klusterExact_of_reassigned hg hrec _ hans
    intro name hname
    obtain ⟨hvp', j, hj, hoff⟩ := honly name hname
    have hjn : ptob pageShift j < ptob pageShift n := ptob_lt_iff.mpr hj
    have hhigh := hplace.high
    exact ⟨hvp', by omega, by omega⟩

/-- A vnode with an anon for its second page only, which has a slot. -/
def secondPage : Anons := fun name => if name = (3, 4096) then some (some (7, 4096)) else none

lemma secondPage_recorded : Recorded secondPage (held 12 twoOfFour.areas.swapinfo) := by
  have hname (name p : Page) (h : secondPage name = some (some p)) : name = (3, 4096) ∧ p = (7, 4096) := by
    unfold secondPage at h
    split at h
    · next heq => exact ⟨heq, by cases h; rfl⟩
    · cases h
  constructor
  · intro name p h
    rw [(hname name p h).2]
    exact ⟨_, mem_singleton_self _, rfl, 0, by decide, by decide +kernel, rfl⟩
  · intro name name' p h h'
    rw [(hname name p h).1, (hname name' p h').1]

theorem swapNewphysname_exact_secondPage :
    ∃ ans anons' areas', swapNewphysname 12 256 0 3 4096 0 8192 secondPage twoOfFour.areas =
        some (ans, anons', areas') ∧
      KlusterExact 12 3 4096 0 8192 secondPage twoOfFour.areas.swapinfo ans anons' areas'.swapinfo :=
  swapNewphysname_exact twoOfFour_reachable secondPage secondPage_recorded 256 0 3 4096 0 8192
    (by decide) (by decide) (by decide) (by decide) (by decide) (by decide)

end Exact

end Solaris.SwapSlots
