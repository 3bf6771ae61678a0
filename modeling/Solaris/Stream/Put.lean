import Solaris.Stream.Invariant

/-!
# Putting a message on a queue

`putq` puts a message behind those of its rank and `putbq` before them.
-/

namespace Solaris.Stream

open Lib Queue List Function Nat Option

variable {q q' : Queue} {l pre post : List MsgPtr} {bp tmp : MsgPtr}

section Frame

/-- The order and the counts do not look at the flags for writers and readers. -/
structure SameBand (qb qb' : Qband) : Prop where
  first : qb'.first = qb.first
  last : qb'.last = qb.last
  count : qb'.count = qb.count
  hiwat : qb'.hiwat = qb.hiwat
  full : qb'.full = qb.full

structure SameQueue (q : Queue) (l : List MsgPtr) (q' : Queue) : Prop where
  nextAt : q'.nextAt = q.nextAt
  prevAt : q'.prevAt = q.prevAt
  msg : ∀ p ∈ l, q'.msg p = q.msg p
  count : q'.count = q.count
  hiwat : q'.hiwat = q.hiwat
  full : q'.full = q.full
  nband : q'.nband = q.nband
  length : q'.bands.length = q.bands.length
  band : ∀ (i : Nat) (qb' : Qband), q'.bands[i]? = some qb' → ∃ qb, q.bands[i]? = some qb ∧ SameBand qb qb'
  turns : q.turns ≤ q'.turns

lemma SameBand.refl (qb : Qband) : SameBand qb qb := ⟨rfl, rfl, rfl, rfl, rfl⟩

lemma ofRank_congr {r r' : MsgPtr → Nat} (h : ∀ p ∈ l, r' p = r p) (k : Nat) : ofRank r' k l = ofRank r k l := by
  refine filter_congr ?_
  intro p hp
  rw [h p hp]

lemma Flow.congr {bytes bytes' : MsgPtr → Nat} {c : List MsgPtr} {count hiwat : Nat} {full : Bool}
    (h : Flow bytes c count hiwat full) (hb : ∀ p ∈ c, bytes' p = bytes p) : Flow bytes' c count hiwat full := by
  refine ⟨?_, h.le_of_full, h.full_of_le⟩
  rw [h.count_eq, map_congr_left hb]

lemma SameQueue.rank (h : SameQueue q l q') : ∀ p ∈ l, q'.rank p = q.rank p := by
  intro p hp
  rw [Queue.rank, Queue.rank, h.msg p hp]

lemma SameQueue.flow (h : SameQueue q l q') {c : List MsgPtr} (hc : ∀ p ∈ c, p ∈ l) {count hiwat : Nat} {full : Bool}
    (hflow : Flow q.bytes c count hiwat full) : Flow q'.bytes c count hiwat full := by
  refine hflow.congr ?_
  intro p hp
  rw [Queue.bytes, Queue.bytes, h.msg p (hc p hp)]

lemma SameQueue.shape (h : SameQueue q l q') (hs : Shape q l) : Shape q' l := by
  refine ⟨?_, ?_, ?_, ?_⟩
  · refine hs.ranked.imp_of_mem ?_
    intro a b ha hb hab
    rwa [h.rank a ha, h.rank b hb]
  · intro p hp
    rw [h.msg p hp]
    exact hs.high p hp
  · intro p hp
    rw [h.msg p hp]
    exact hs.get p hp
  · intro p hp
    rw [h.msg p hp, h.nband]
    exact hs.band_le p hp

theorem Queued.congr (hq : Queued q l) (h : SameQueue q l q') : Queued q' l := by
  refine ⟨hq.linked.congr h.nextAt h.prevAt, h.shape hq.shape, ⟨?_, ?_⟩, ?_, ⟨?_, ?_⟩, hq.turns.trans h.turns⟩
  · rw [h.nband, h.length]
    exact hq.bands.nband_eq
  · rw [h.nband]
    exact hq.bands.nband_le
  · intro i qb' hqb'
    obtain ⟨qb, hqb, hsame⟩ := h.band i qb' hqb'
    rw [hsame.first, hsame.last, ofRank_congr h.rank]
    exact hq.ends i qb hqb
  · have hnormal : q'.normal l = q.normal l := by
      refine filter_congr ?_
      intro p hp
      rw [h.msg p hp]
    rw [hnormal, h.count, h.hiwat, h.full]
    exact h.flow (fun p hp => mem_of_mem_filter hp) hq.flows.normal
  · intro i qb' hqb'
    obtain ⟨qb, hqb, hsame⟩ := h.band i qb' hqb'
    rw [hsame.count, hsame.hiwat, hsame.full, ofRank_congr h.rank]
    exact h.flow (fun p hp => (mem_ofRank.mp hp).1) (hq.flows.band i qb hqb)

end Frame

section Sanity

structure Puttable (q : Queue) (bp : MsgPtr) : Prop where
  high : QPCTL ≤ (q.msg bp).type → (q.msg bp).band = 0
  get : (q.msg bp).noget = false
  band_le : (q.msg bp).band.toNat ≤ q.nband

lemma Queued.addBand (h : Queued q l) (hlt : q.nband < 255) :
    Queued
      { q with
        bands := q.bands ++ [⟨0, none, none, q.hiwat, q.lowat, false, false⟩]
        nband := q.nband + 1 } l := by
  have hlen := h.bands.nband_eq
  have hnil : ofRank q.rank (q.bands.length + 1) l = [] := by
    refine ofRank_eq_nil ?_
    intro p hp hr
    by_cases hhigh : QPCTL ≤ (q.msg p).type
    · have : q.rank p = 256 := Msg.rank_of_high hhigh
      omega
    · have : q.rank p = (q.msg p).band.toNat := Msg.rank_of_ordinary hhigh
      have := h.shape.band_le p hp
      omega
  have hband : ∀ i qb, (q.bands ++ [⟨0, none, none, q.hiwat, q.lowat, false, false⟩])[i]? = some qb →
      q.bands[i]? = some qb ∨
        (i = q.bands.length ∧ qb = ⟨0, none, none, q.hiwat, q.lowat, false, false⟩) := by
    intro i qb hqb
    rcases lt_trichotomy i q.bands.length with hi | hi | hi
    · rw [getElem?_append_left hi] at hqb
      exact .inl hqb
    · subst hi
      rw [getElem?_concat_length] at hqb
      exact .inr ⟨rfl, (some.inj hqb).symm⟩
    · rw [getElem?_eq_none (by simp; omega)] at hqb
      cases hqb
  refine ⟨h.linked.congr rfl rfl, ⟨h.shape.ranked, h.shape.high, h.shape.get, ?_⟩, ⟨?_, hlt⟩, ?_,
    ⟨h.flows.normal, ?_⟩, h.turns⟩
  · intro p hp
    exact (h.shape.band_le p hp).trans (le_succ _)
  · simp [hlen]
  · intro i qb hqb
    rcases hband i qb hqb with hqb | ⟨rfl, rfl⟩
    · exact h.ends i qb hqb
    · exact ⟨congrArg List.head? hnil.symm, congrArg List.getLast? hnil.symm⟩
  · intro i qb hqb
    rcases hband i qb hqb with hqb | ⟨rfl, rfl⟩
    · exact h.flows.band i qb hqb
    · have hrank : ofRank q.rank (q.bands.length + 1) l = [] := hnil
      change Flow q.bytes (ofRank q.rank (q.bands.length + 1) l) _ _ _
      rw [hrank]
      exact Flow.nil

lemma allocBands_spec (h : Queued q l) {band : Nat} (hband : band ≤ 255) (avail : Nat) :
    ∃ ok q₁, allocBands band avail q = (ok, q₁) ∧ Queued q₁ l ∧ q₁.msg = q.msg ∧ q₁.next = q.next ∧
      (ok = true → band ≤ q₁.nband) := by
  induction avail generalizing q with
  | zero => exact ⟨_, q, rfl, h, rfl, rfl, of_decide_eq_true⟩
  | succ avail ih =>
    unfold allocBands
    split_ifs with hle
    · exact ⟨true, q, rfl, h, rfl, rfl, fun _ => hle⟩
    · exact ih (h.addBand (by omega))

lemma rank_force (q : Queue) (bp : MsgPtr) (h : QPCTL ≤ (q.msg bp).type) :
    ({ q with msg := update q.msg bp { q.msg bp with band := 0 } } : Queue).rank = q.rank := by
  ext p
  by_cases hp : p = bp
  · subst hp
    have hmsg : update q.msg p { q.msg p with band := 0 } p = { q.msg p with band := 0 } :=
      update_self ..
    change (update q.msg p { q.msg p with band := 0 } p).rank = (q.msg p).rank
    rw [hmsg, Msg.rank_of_high h, Msg.rank_of_high (m := { q.msg p with band := 0 }) h]
  · change (update q.msg bp { q.msg bp with band := 0 } p).rank = (q.msg p).rank
    rw [update_of_ne hp]

lemma sanity_spec (h : Queued q l) (hbp : bp ∉ l) (hget : (q.msg bp).noget = false) (avail : Nat) :
    ∃ ok q₁, q.sanity avail bp = (ok, q₁) ∧ Queued q₁ l ∧ q₁.rank = q.rank ∧ q₁.next = q.next ∧
      (∀ p, p ≠ bp → q₁.msg p = q.msg p) ∧ (ok = true → Puttable q₁ bp) := by
  unfold Queue.sanity
  by_cases hhigh : queclass (q.msg bp) = QPCTL
  · rw [if_pos hhigh]
    have hforced : update q.msg bp { q.msg bp with band := 0 } bp = { q.msg bp with band := 0 } :=
      update_self ..
    refine ⟨true, _, rfl, h.congr ?_, rank_force q bp (queclass_eq_iff.mp hhigh), rfl, ?_, ?_⟩
    · refine ⟨rfl, rfl, ?_, rfl, rfl, rfl, rfl, rfl, fun _ qb hqb => ⟨qb, hqb, SameBand.refl qb⟩, le_refl _⟩
      intro p hp
      have hne : p ≠ bp := by
        rintro rfl
        exact hbp hp
      exact update_of_ne hne ..
    · intro p hp
      exact update_of_ne hp ..
    · intro _
      refine ⟨?_, ?_, ?_⟩
      · intro _
        exact congrArg Msg.band hforced
      · exact (congrArg Msg.noget hforced).trans hget
      · have hz : (update q.msg bp { q.msg bp with band := 0 } bp).band = 0 := congrArg Msg.band hforced
        rw [hz]
        exact zero_le _
  · rw [if_neg hhigh]
    have hord : ¬QPCTL ≤ (q.msg bp).type := fun hh => hhigh (queclass_of_high hh)
    by_cases hb : (q.msg bp).band = 0
    · rw [if_neg (not_not_intro hb)]
      refine ⟨true, q, rfl, h, rfl, rfl, fun _ _ => rfl, fun _ => ⟨fun hh => absurd hh hord, hget, ?_⟩⟩
      rw [hb]
      exact zero_le _
    rw [if_pos hb]
    have hlt := (q.msg bp).band.toNat_lt
    obtain ⟨ok, q₁, heq, hq1, hmsg, hnext, hok⟩ := allocBands_spec h (le_of_lt_succ hlt) avail
    refine ⟨ok, q₁, heq, hq1, ?_, hnext, fun p _ => congrFun hmsg p, ?_⟩
    · ext p
      rw [Queue.rank, Queue.rank, hmsg]
    · intro hok'
      refine ⟨?_, ?_, ?_⟩
      · rw [hmsg]
        exact fun hh => absurd hh hord
      · rw [hmsg]
        exact hget
      · rw [hmsg]
        exact hok hok'

end Sanity

section Place

variable {q₁ : Queue} {i : Nat} {f : Qband → Qband} {k : Nat}

lemma Bands.setBand (h : Bands q) (i : Nat) (f : Qband → Qband) : Bands (q.setBand i f) :=
  ⟨h.nband_eq.trans (length_modify ..).symm, h.nband_le⟩

lemma Ends.setBand (h : Ends q l) {l' : List MsgPtr}
    (hother : ∀ k, k ≠ i + 1 → ofRank q.rank k l' = ofRank q.rank k l)
    (hf : ∀ qb, qb.first = (ofRank q.rank (i + 1) l).head? → qb.last = (ofRank q.rank (i + 1) l).getLast? →
      (f qb).first = (ofRank q.rank (i + 1) l').head? ∧ (f qb).last = (ofRank q.rank (i + 1) l').getLast?) :
    Ends (q.setBand i f) l' := by
  intro j qb hqb
  rcases band_modify hqb with ⟨rfl, qb', hqb', rfl⟩ | ⟨hne, hqb'⟩
  · obtain ⟨hfirst, hlast⟩ := h i qb' hqb'
    exact hf qb' hfirst hlast
  · have hk := hother (j + 1) (by omega)
    have := h j qb hqb'
    rw [← hk] at this
    exact this

lemma Flows.setBand (h : Flows q l)
    (hf : ∀ qb, (f qb).count = qb.count ∧ (f qb).hiwat = qb.hiwat ∧ (f qb).full = qb.full) :
    Flows (q.setBand i f) l := by
  refine ⟨h.normal, ?_⟩
  intro j qb hqb
  rcases band_modify hqb with ⟨rfl, qb', hqb', rfl⟩ | ⟨hne, hqb'⟩
  · obtain ⟨hcount, hhiwat, hfull⟩ := hf qb'
    rw [hcount, hhiwat, hfull]
    exact h.band i qb' hqb'
  · exact h.band j qb hqb'

lemma account_frame (q : Queue) (bp : MsgPtr) :
    (q.account bp).nextAt = q.nextAt ∧ (q.account bp).prevAt = q.prevAt ∧ (q.account bp).msg = q.msg ∧
      (q.account bp).nband = q.nband ∧ (q.account bp).turns = q.turns := by
  unfold Queue.account
  split <;> exact ⟨rfl, rfl, rfl, rfl, rfl⟩

lemma Shape.congr (h : Shape q l) (hmsg : q'.msg = q.msg) (hnband : q'.nband = q.nband) : Shape q' l := by
  have hrank : q'.rank = q.rank := by
    ext p
    rw [Queue.rank, Queue.rank, hmsg]
  refine ⟨hrank ▸ h.ranked, hmsg ▸ h.high, hmsg ▸ h.get, ?_⟩
  rw [hmsg, hnband]
  exact h.band_le

lemma Bands.account (h : Bands q) (bp : MsgPtr) : Bands (q.account bp) := by
  unfold Queue.account
  split
  · exact h.setBand ..
  · exact ⟨h.nband_eq, h.nband_le⟩

lemma Ends.account (h : Ends q l) (bp : MsgPtr) : Ends (q.account bp) l := by
  unfold Queue.account
  split
  · exact h.setBand (fun _ _ => rfl) fun qb hfirst hlast => ⟨hfirst, hlast⟩
  · exact h

lemma Shape.insert (h : Shape q (pre ++ post)) (hbp : Puttable q bp) (hpre : ∀ a ∈ pre, q.rank bp ≤ q.rank a)
    (hpost : ∀ a ∈ post, q.rank a ≤ q.rank bp) : Shape q (pre ++ bp :: post) := by
  have hall : ∀ P : MsgPtr → Prop, P bp → (∀ a ∈ pre ++ post, P a) → ∀ a ∈ pre ++ bp :: post, P a := by
    intro P hP hrest a ha
    rcases mem_cons.mp (perm_middle.mem_iff.mp ha) with rfl | ha
    · exact hP
    · exact hrest a ha
  exact ⟨h.ranked.insert hpre hpost, hall _ hbp.high h.high, hall _ hbp.get h.get, hall _ hbp.band_le h.band_le⟩

/-- A message between two parts of the list, with the ends of its band set. -/
def Placed (q : Queue) (bp : MsgPtr) (pre post : List MsgPtr) (q₂ : Queue) : Prop :=
  ∃ q₁ f, Relinked q (pre ++ bp :: post) q₁ ∧
    (∀ qb : Qband, (f qb).count = qb.count ∧ (f qb).hiwat = qb.hiwat ∧ (f qb).full = qb.full) ∧
    (∀ qb : Qband, qb.first = (ofRank q.rank (q.rank bp) (pre ++ post)).head? →
      qb.last = (ofRank q.rank (q.rank bp) (pre ++ post)).getLast? →
      (f qb).first = (ofRank q.rank (q.rank bp) (pre ++ bp :: post)).head? ∧
        (f qb).last = (ofRank q.rank (q.rank bp) (pre ++ bp :: post)).getLast?) ∧
    q₂ = if (q.msg bp).band ≠ 0 then q₁.setBand (q₁.bandIdx bp) f else q₁

theorem Queued.place {q₂ : Queue} (h : Queued q (pre ++ post)) (hbp : Puttable q bp) (hp : Placed q bp pre post q₂)
    (hpre : ∀ a ∈ pre, q.rank bp ≤ q.rank a) (hpost : ∀ a ∈ post, q.rank a ≤ q.rank bp) (wake : Bool) :
    Queued ((q₂.account bp).enableIf wake) (pre ++ bp :: post) := by
  obtain ⟨q₁, f, hr, hsame, hf, rfl⟩ := hp
  have hmsg := hr.msg
  have hdata := hr.data
  have hrank : q₁.rank = q.rank := by
    ext p
    rw [Queue.rank, Queue.rank, hmsg]
  have hlen : (pre ++ bp :: post).length ≤ q₁.turns + 1 := by
    have := h.turns
    have := hr.turns
    rw [perm_middle.length_eq, length_cons]
    omega
  have hshape : Shape q₁ (pre ++ bp :: post) := (h.shape.insert hbp hpre hpost).congr hmsg hr.nband
  have hends1 : Ends q₁ (pre ++ post) := by
    rw [hdata]
    exact h.ends
  have hflows1 : Flows q₁ (pre ++ post) := by
    rw [hdata]
    exact ⟨h.flows.normal, h.flows.band⟩
  have hbands1 : Bands q₁ := by
    rw [hdata]
    exact ⟨h.bands.nband_eq, h.bands.nband_le⟩
  have hhigh : QPCTL ≤ (q₁.msg bp).type → (q₁.msg bp).band = 0 := hmsg ▸ hbp.high
  -- the ends first, then the bytes
  have hput : ∀ q₂ : Queue, q₂.nextAt = q₁.nextAt → q₂.prevAt = q₁.prevAt → q₂.msg = q₁.msg →
      q₂.nband = q₁.nband → q₂.turns = q₁.turns → Bands q₂ → Ends q₂ (pre ++ bp :: post) → Flows q₂ (pre ++ post) →
      Queued ((q₂.account bp).enableIf wake) (pre ++ bp :: post) := by
    intro q₂ hn2 hp2 hm2 hb2 ht2 hbands2 hends2 hflows2
    obtain ⟨hn, hp, hm, hb, ht⟩ := account_frame q₂ bp
    have hflows := hflows2.account hbands2 (perm_middle : (pre ++ bp :: post).Perm _) (hm2 ▸ hhigh)
    have hbands := hbands2.account bp
    refine ⟨?_, ?_, ⟨hbands.nband_eq, hbands.nband_le⟩, hends2.account bp, ⟨hflows.normal, hflows.band⟩, ?_⟩
    · exact hr.linked.congr (hn.trans hn2) (hp.trans hp2)
    · exact hshape.congr (hm.trans hm2) (hb.trans hb2)
    · change _ ≤ (q₂.account bp).turns + 1
      rw [ht, ht2]
      exact hlen
  by_cases hb : (q.msg bp).band = 0
  · rw [if_neg (not_not_intro hb)]
    refine hput q₁ rfl rfl rfl rfl rfl hbands1 ?_ hflows1
    intro i qb hqb
    have hi := hbands1.lt_255 hqb
    have hne : q₁.rank bp ≠ i + 1 := by
      rcases rank_of_band_zero (hmsg ▸ hb) with h0 | h256
      · omega
      · omega
    rw [ofRank_middle_of_ne hne]
    exact hends1 i qb hqb
  · rw [if_pos hb]
    have hidx := rank_of_band hhigh (hmsg ▸ hb : (q₁.msg bp).band ≠ 0)
    refine hput (q₁.setBand (q₁.bandIdx bp) f) rfl rfl rfl rfl rfl (hbands1.setBand ..) ?_ (hflows1.setBand hsame)
    refine hends1.setBand ?_ ?_
    · intro k hk
      exact ofRank_middle_of_ne (by omega) ..
    · rw [← hidx, hrank]
      exact hf

section

variable (hr : Relinked q (pre ++ bp :: post) q₁)

include hr

lemma Relinked.placed_only (hnil : ofRank q.rank (q.rank bp) (pre ++ post) = []) :
    Placed q bp pre post (if (q.msg bp).band ≠ 0 then
      q₁.setBand (q₁.bandIdx bp) fun qb => { qb with first := some bp, last := some bp } else q₁) := by
  have hone : ofRank q.rank (q.rank bp) (pre ++ bp :: post) = [bp] := by
    rw [ofRank_append, append_eq_nil_iff] at hnil
    rw [ofRank_append, ofRank_cons_self, hnil.1, hnil.2]
    rfl
  refine ⟨q₁, fun qb => { qb with first := some bp, last := some bp }, hr, fun _ => ⟨rfl, rfl, rfl⟩, ?_, rfl⟩
  intro qb _ _
  rw [hone]
  exact ⟨rfl, rfl⟩

lemma Relinked.placed_last (hb : (q.msg bp).band ≠ 0)
    (hne : ofRank q.rank (q.rank bp) (pre ++ post) ≠ []) (hpost : ∀ a ∈ post, q.rank a < q.rank bp) :
    Placed q bp pre post (q₁.setBand (q₁.bandIdx bp) fun qb => { qb with last := some bp }) := by
  refine ⟨q₁, fun qb => { qb with last := some bp }, hr, fun _ => ⟨rfl, rfl, rfl⟩, ?_, (if_pos hb).symm⟩
  intro qb hfirst _
  rw [ofRank_behind hpost]
  refine ⟨?_, ?_⟩
  · rw [head?_append_of_ne_nil _ hne]
    exact hfirst
  · rw [getLast?_concat]

lemma Relinked.placed_first (hb : (q.msg bp).band ≠ 0)
    (hne : ofRank q.rank (q.rank bp) (pre ++ post) ≠ []) (hpre : ∀ a ∈ pre, q.rank bp < q.rank a) :
    Placed q bp pre post (q₁.setBand (q₁.bandIdx bp) fun qb => { qb with first := some bp }) := by
  refine ⟨q₁, fun qb => { qb with first := some bp }, hr, fun _ => ⟨rfl, rfl, rfl⟩, ?_, (if_pos hb).symm⟩
  intro qb _ hlast
  rw [ofRank_before hpre]
  refine ⟨rfl, ?_⟩
  rw [getLast?_cons, ← hlast]
  obtain ⟨x, hx⟩ := ne_none_iff_exists'.mp (mt getLast?_eq_none_iff.mp hne)
  rw [hlast.trans hx]
  rfl

lemma Relinked.placed_normal (hb : (q.msg bp).band = 0) :
    Placed q bp pre post q₁ :=
  ⟨q₁, fun qb =>
    { qb with
      first := (ofRank q.rank (q.rank bp) (pre ++ bp :: post)).head?
      last := (ofRank q.rank (q.rank bp) (pre ++ bp :: post)).getLast? },
    hr, fun _ => ⟨rfl, rfl, rfl⟩, fun _ _ _ => ⟨rfl, rfl⟩, (if_neg (not_not_intro hb)).symm⟩

end

end Place

section Position

lemma Queued.seek_rank (h : Queued q l) {t : Nat} (ht : t ≤ 256) (pass : Msg → Bool)
    (hpass : ∀ p ∈ l, q.rank p < 256 → (pass (q.msg p) = true ↔ t ≤ q.rank p)) (hex : ∃ p ∈ l, q.rank p < t) :
    ∃ pre y post, l = pre ++ y :: post ∧ (∀ a ∈ pre, t ≤ q.rank a) ∧ (∀ a ∈ y :: post, q.rank a < t) ∧
      ((q.seek (fun m => QPCTL ≤ m.type) q.turns q.first).bind fun tmp => q.seek pass q.turns (some tmp)) = some y := by
  obtain ⟨high, ord, hl, hhigh, hord⟩ := h.shape.ranked.split 256
  obtain ⟨pre, post, hsplit, hpre, hpost⟩ := (h.shape.ranked.sublist (hl ▸ sublist_append_right ..)).split t
  obtain ⟨p, hp, hpt⟩ := hex
  have hlen := h.turns
  -- the message of a lower rank is in the last part
  have hpp : p ∈ post := by
    rw [hl, hsplit] at hp
    rcases mem_append.mp hp with hp | hp
    · have := hhigh p hp
      omega
    · rcases mem_append.mp hp with hp | hp
      · have := hpre p hp
        omega
      · exact hp
  cases post with
  | nil => cases hpp
  | cons y post =>
    have hlinked := h.linked
    subst hl
    rw [hsplit] at hlinked hlen hpass hord ⊢
    simp only [length_append, length_cons] at hlen
    refine ⟨high ++ pre, y, post, by simp, ?_, hpost, ?_⟩
    · exact forall_mem_append.mpr ⟨fun a ha => ht.trans (hhigh a ha), hpre⟩
    · obtain ⟨x, rest, hx⟩ := exists_cons_of_ne_nil (l := pre ++ y :: post) (by simp)
      have hfirst : q.first = (high ++ x :: rest).head? := by
        rw [hlinked.first, hx]
      have hxlt : q.rank x < 256 := hord x (by rw [hx]; exact mem_cons_self ..)
      have hseek : q.seek (fun m => QPCTL ≤ m.type) q.turns q.first = some x := by
        rw [hfirst]
        have hlx : Linked q ([] ++ (high ++ x :: rest)) := by
          rw [← hx]
          exact hlinked
        refine hlx.seek _ ?_ ?_ _ (by omega)
        · intro p hp
          have : q.rank p = 256 := le_antisymm (Msg.rank_le _) (hhigh p hp)
          simpa using Msg.high_iff_rank.mpr this
        · have : ¬QPCTL ≤ (q.msg x).type := by
            intro hhx
            have : q.rank x = 256 := Msg.rank_of_high hhx
            omega
          simpa using this
      rw [hseek, bind_some]
      have hsome : some x = (pre ++ y :: post).head? := by
        rw [hx]
        rfl
      rw [hsome]
      refine hlinked.seek pass ?_ ?_ _ (by omega)
      · intro p hp
        have hmem : p ∈ pre ++ y :: post := mem_append_left _ hp
        exact (hpass p (mem_append_right _ hmem) (hord p hmem)).mpr (hpre p hp)
      · have hmem : y ∈ pre ++ y :: post := by simp
        rw [← Bool.not_eq_true, hpass y (mem_append_right _ hmem) (hord y hmem)]
        exact not_le.mpr (hpost y (mem_cons_self ..))

lemma Queued.rank_last (h : Queued q (pre ++ [tmp])) {a : MsgPtr} (ha : a ∈ pre ++ [tmp]) : q.rank tmp ≤ q.rank a := by
  rcases mem_append.mp ha with ha | ha
  · exact h.shape.ranked.before ha
  · rw [mem_singleton.mp ha]

lemma Queued.band_of (h : Queued q l) (hput : Puttable q bp) (hb : (q.msg bp).band ≠ 0) :
    ∃ qb, q.bands[q.bandIdx bp]? = some qb ∧ qb.first = (ofRank q.rank (q.rank bp) l).head? ∧
      qb.last = (ofRank q.rank (q.rank bp) l).getLast? := by
  have hidx := rank_of_band hput.high hb
  have hne : (q.msg bp).band.toNat ≠ 0 := fun h0 => hb (band_eq_zero_iff.mpr h0)
  have hlt : q.bandIdx bp < q.bands.length := by
    have := hput.band_le
    have := h.bands.nband_eq
    rw [Queue.bandIdx]
    omega
  have hqb : q.bands[q.bandIdx bp]? = some q.bands[q.bandIdx bp] := getElem?_eq_getElem hlt
  obtain ⟨hfirst, hlast⟩ := h.ends _ _ hqb
  rw [← hidx] at hfirst hlast
  exact ⟨_, hqb, hfirst, hlast⟩

end Position

end Solaris.Stream
