import Solaris.Stream.Put

/-!
# Where `putq` and `putbq` put a message

A message goes behind the messages of its rank with `putq` and before them with `putbq`.
-/

namespace Solaris.Stream

open Lib Queue List Nat Option Msg

variable {q : Queue} {l : List MsgPtr} {bp tmp : MsgPtr}

lemma ordinary_of_band (hput : Puttable q bp) (hb : (q.msg bp).band ≠ 0) : ¬QPCTL ≤ (q.msg bp).type :=
  fun h => hb (hput.high h)

lemma rank_lt_of_ordinary (h : ¬QPCTL ≤ (q.msg bp).type) : q.rank bp < 256 := by
  have hrank : q.rank bp = (q.msg bp).band.toNat := rank_of_ordinary h
  rw [hrank]
  exact (q.msg bp).band.toNat_lt

lemma band_le_iff_rank {p : MsgPtr} (hbp : ¬QPCTL ≤ (q.msg bp).type) (hp : q.rank p < 256) :
    (q.msg bp).band ≤ (q.msg p).band ↔ q.rank bp ≤ q.rank p := by
  have hord : ¬QPCTL ≤ (q.msg p).type := fun hh => Nat.ne_of_lt hp (rank_of_high hh)
  have hr : q.rank p = (q.msg p).band.toNat := rank_of_ordinary hord
  have hr' : q.rank bp = (q.msg bp).band.toNat := rank_of_ordinary hbp
  rw [hr, hr', UInt8.le_iff_toNat_le]

lemma band_lt_iff_rank {p : MsgPtr} (hbp : ¬QPCTL ≤ (q.msg bp).type) (hp : q.rank p < 256) :
    (q.msg bp).band < (q.msg p).band ↔ q.rank bp < q.rank p := by
  have hord : ¬QPCTL ≤ (q.msg p).type := fun hh => Nat.ne_of_lt hp (rank_of_high hh)
  have hr : q.rank p = (q.msg p).band.toNat := rank_of_ordinary hord
  have hr' : q.rank bp = (q.msg bp).band.toNat := rank_of_ordinary hbp
  rw [hr, hr', UInt8.lt_iff_toNat_lt]

lemma Queued.tackOn (h : Queued q l) (hbp : bp ∉ l) (hlast : l.getLast? = some tmp) :
    Relinked q (l ++ bp :: []) (q.tackOn bp tmp) := by
  obtain ⟨l, rfl⟩ := getLast?_eq_some_iff.mp hlast
  exact relinked_tackOn h.linked hbp

lemma Queued.rank_getLast (h : Queued q l) (hlast : l.getLast? = some tmp) : ∀ a ∈ l, q.rank tmp ≤ q.rank a := by
  obtain ⟨l, rfl⟩ := getLast?_eq_some_iff.mp hlast
  intro a ha
  exact h.rank_last ha

section New

lemma putNew_spec (P : Msg → Prop) [DecidablePred P] {t : Nat} (ht : t ≤ 256)
    (hP : ∀ p, q.rank p < 256 → (P (q.msg p) ↔ t ≤ q.rank p)) (h : Queued q l) (hbp : bp ∉ l) (hl : l ≠ [])
    (hord : ¬QPCTL ≤ (q.msg bp).type) :
    ∃ pre post q1, l = pre ++ post ∧ (∀ a ∈ pre, t ≤ q.rank a) ∧ (∀ a ∈ post, q.rank a < t) ∧
      Relinked q (pre ++ bp :: post) q1 ∧ (q.last.bind fun tmp =>
        if queclass (q.msg bp) < queclass (q.msg tmp) ∨ P (q.msg tmp) then some (q.tackOn bp tmp)
        else
          (q.seek (fun m => QPCTL ≤ m.type) q.turns q.first).bind fun tmp =>
            (q.seek (fun m => P m) q.turns (some tmp)).map fun tmp => q.insertBefore bp tmp) = some q1 := by
  obtain ⟨tmp, htmp⟩ := ne_none_iff_exists'.mp (mt getLast?_eq_none_iff.mp hl)
  have hlast : q.last = some tmp := h.linked.last.trans htmp
  rw [hlast, bind_some]
  split_ifs with hend
  · refine ⟨l, [], _, by simp, ?_, by simp, h.tackOn hbp htmp, rfl⟩
    intro a ha
    refine le_trans ?_ (h.rank_getLast htmp a ha)
    by_cases hhigh : QPCTL ≤ (q.msg tmp).type
    · have : q.rank tmp = 256 := rank_of_high hhigh
      omega
    · rcases hend with hend | hend
      · rw [queclass_of_ordinary hord, queclass_of_ordinary hhigh] at hend
        exact absurd hend (by decide)
      · exact (hP tmp (rank_lt_of_ordinary hhigh)).mp hend
  · rw [not_or] at hend
    have hhigh : ¬QPCTL ≤ (q.msg tmp).type := by
      intro hhigh
      rw [queclass_of_ordinary hord, queclass_of_high hhigh] at hend
      exact hend.1 (by decide)
    have hlt : q.rank tmp < t := by
      rw [hP tmp (rank_lt_of_ordinary hhigh)] at hend
      exact not_le.mp hend.2
    obtain ⟨pre, y, post, hsplit, hpre, hpost, hseek⟩ := h.seek_rank ht (fun m => P m)
      (fun p _ hp => by simpa using hP p hp) ⟨tmp, mem_of_getLast? htmp, hlt⟩
    subst hsplit
    refine ⟨pre, y :: post, _, rfl, hpre, hpost, relinked_insertBefore h.linked hbp, ?_⟩
    obtain ⟨x, hx, hy⟩ := bind_eq_some_iff.mp hseek
    rw [hx, bind_some, hy]
    rfl

end New

section Putq

lemma putqNew_spec (h : Queued q l) (hbp : bp ∉ l) (hl : l ≠ []) (hord : ¬QPCTL ≤ (q.msg bp).type) :
    ∃ pre post q1, l = pre ++ post ∧ (∀ a ∈ pre, q.rank bp ≤ q.rank a) ∧ (∀ a ∈ post, q.rank a < q.rank bp) ∧
      Relinked q (pre ++ bp :: post) q1 ∧ putqNew q bp = some q1 :=
  putNew_spec (fun m => (q.msg bp).band ≤ m.band) (le_of_lt (rank_lt_of_ordinary hord))
    (fun _ hp => band_le_iff_rank hord hp) h hbp hl hord

lemma putqLink_spec (h : Queued q l) (hbp : bp ∉ l) (hput : Puttable q bp) :
    ∃ pre post q2, l = pre ++ post ∧ (∀ a ∈ pre, q.rank bp ≤ q.rank a) ∧ (∀ a ∈ post, q.rank a < q.rank bp) ∧
      Placed q bp pre post q2 ∧ putqLink q bp = some q2 := by
  have hfirst := h.linked.first
  unfold putqLink
  cases l with
  | nil =>
    rw [hfirst]
    refine ⟨[], [], _, rfl, by simp, by simp, ?_, rfl⟩
    have hr := relinked_front h.linked hbp
    rw [Queue.insertFront, hfirst] at hr
    exact @Relinked.placed_only q [] [] bp _ hr rfl
  | cons head rest =>
    rw [head?_cons] at hfirst
    have hl : head :: rest ≠ [] := cons_ne_nil _ _
    generalize head :: rest = l at h hbp hl
    simp only [hfirst]
    split_ifs with hb
    · obtain ⟨tmp, htmp⟩ := ne_none_iff_exists'.mp (mt getLast?_eq_none_iff.mp hl)
      have hlast : q.last = some tmp := h.linked.last.trans htmp
      rw [hlast, bind_some]
      split_ifs with hend
      · refine ⟨l, [], _, by simp, ?_, by simp, (h.tackOn hbp htmp).placed_normal hb, rfl⟩
        intro a ha
        refine le_trans ?_ (h.rank_getLast htmp a ha)
        by_cases hhigh : QPCTL ≤ (q.msg bp).type
        · have htop : QPCTL ≤ (q.msg tmp).type := by
            by_contra hno
            rw [queclass_of_high hhigh, queclass_of_ordinary hno] at hend
            exact absurd hend (by decide)
          have : q.rank tmp = 256 := rank_of_high htop
          rw [this]
          exact rank_le _
        · have : q.rank bp = (q.msg bp).band.toNat := rank_of_ordinary hhigh
          rw [this, hb]
          exact zero_le _
      · have hhigh : QPCTL ≤ (q.msg bp).type := by
          by_contra hno
          rw [queclass_of_ordinary hno] at hend
          exact hend (UInt8.le_iff_toNat_le.mpr (zero_le _))
        have hlow : ¬QPCTL ≤ (q.msg tmp).type := by
          intro hlow
          rw [queclass_of_high hhigh, queclass_of_high hlow] at hend
          exact hend (UInt8.le_refl _)
        have hrank : q.rank bp = 256 := rank_of_high hhigh
        -- the first message that is not of high priority
        obtain ⟨pre, post, hsplit, hpre, hpost⟩ := h.shape.ranked.split 256
        have hmem : tmp ∈ post := by
          have hmem : tmp ∈ pre ++ post := hsplit ▸ mem_of_getLast? htmp
          rcases mem_append.mp hmem with hmem | hmem
          · have := hpre tmp hmem
            have := rank_lt_of_ordinary hlow
            omega
          · exact hmem
        subst hsplit
        cases post with
        | nil => cases hmem
        | cons y post =>
          have hlen := h.turns
          simp only [length_append, length_cons] at hlen
          have hlinked : Linked q ([] ++ (pre ++ y :: post)) := h.linked
          have hseek : q.seek (fun m => queclass (q.msg bp) ≤ queclass m) q.turns (some head) = some y := by
            rw [← hfirst, h.linked.first]
            refine hlinked.seek _ ?_ ?_ _ (by omega)
            · intro p hp
              have hp256 : q.rank p = 256 := le_antisymm (rank_le _) (hpre p hp)
              rw [queclass_of_high hhigh, queclass_of_high (Msg.high_iff_rank.mpr hp256)]
              rfl
            · have hy : ¬QPCTL ≤ (q.msg y).type := by
                intro hy
                have := hpost y (mem_cons_self ..)
                have : q.rank y = 256 := rank_of_high hy
                omega
              rw [queclass_of_high hhigh, queclass_of_ordinary hy]
              rfl
          refine ⟨pre, y :: post, _, rfl, ?_, ?_, (relinked_insertBefore h.linked hbp).placed_normal hb, ?_⟩
          · rw [hrank]
            exact hpre
          · rw [hrank]
            exact hpost
          · rw [hseek]
            rfl
    · obtain ⟨qb, hqb, hqfirst, hqlast⟩ := h.band_of hput hb
      rw [hqb, bind_some]
      have hord := ordinary_of_band hput hb
      obtain ⟨pre, post, hsplit, hpre, hpost⟩ := h.shape.ranked.together (q.rank bp)
      generalize hc : ofRank q.rank (q.rank bp) l = c at hsplit hqfirst hqlast
      rcases eq_nil_or_concat' c with rfl | ⟨c, tmp, rfl⟩
      · rw [head?_nil] at hqfirst
        simp only [hqfirst]
        obtain ⟨pre, post, q1, rfl, hpre, hpost, hr, hnew⟩ := putqNew_spec h hbp hl hord
        refine ⟨pre, post, _, rfl, hpre, hpost, hr.placed_only hc, ?_⟩
        rw [hnew, if_pos hb]
        rfl
      rw [getLast?_concat] at hqlast
      obtain ⟨x, hx⟩ := ne_none_iff_exists'.mp (mt head?_eq_none_iff.mp (by simp : c ++ [tmp] ≠ []))
      rw [hx] at hqfirst
      simp only [hqfirst, hqlast]
      have hl' : l = (pre ++ c) ++ tmp :: post := by
        rw [hsplit]
        simp
      have hlinked := h.linked
      rw [hl'] at hlinked
      have hr := relinked_insertAfter hlinked (hl' ▸ hbp)
      have hl'' : l = (pre ++ c ++ [tmp]) ++ post := by
        rw [hl']
        simp
      refine ⟨pre ++ c ++ [tmp], post, _, hl'', ?_, hpost, ?_, rfl⟩
      · intro a ha
        rw [append_assoc] at ha
        rcases mem_append.mp ha with ha | ha
        · exact le_of_lt (hpre a ha)
        · exact le_of_eq (mem_ofRank.mp (hc ▸ ha : a ∈ ofRank q.rank (q.rank bp) l)).2.symm
      · have hne : ofRank q.rank (q.rank bp) (pre ++ c ++ [tmp] ++ post) ≠ [] := by
          rw [← hl'', hc]
          simp
        have hplaced := hr.placed_last hb hne hpost
        rw [hr.bandIdx] at hplaced
        exact hplaced

end Putq

section Putbq

lemma putbqNew_spec (h : Queued q l) (hbp : bp ∉ l) (hl : l ≠ []) (hord : ¬QPCTL ≤ (q.msg bp).type) :
    ∃ pre post q1, l = pre ++ post ∧ (∀ a ∈ pre, q.rank bp < q.rank a) ∧ (∀ a ∈ post, q.rank a ≤ q.rank bp) ∧
      Relinked q (pre ++ bp :: post) q1 ∧ putbqNew q bp = some q1 := by
  obtain ⟨pre, post, q1, hsplit, hpre, hpost, hnew⟩ := putNew_spec (fun m => (q.msg bp).band < m.band)
    (rank_lt_of_ordinary hord) (fun _ hp => band_lt_iff_rank hord hp) h hbp hl hord
  exact ⟨pre, post, q1, hsplit, hpre, fun a ha => le_of_lt_succ (hpost a ha), hnew⟩

lemma putbqLink_spec (h : Queued q l) (hbp : bp ∉ l) (hput : Puttable q bp) :
    ∃ pre post q2, l = pre ++ post ∧ (∀ a ∈ pre, q.rank bp < q.rank a) ∧ (∀ a ∈ post, q.rank a ≤ q.rank bp) ∧
      Placed q bp pre post q2 ∧ putbqLink q bp = some q2 := by
  have hfirst := h.linked.first
  unfold putbqLink
  by_cases hfront : q.first = none ∨ queclass (q.msg bp) = QPCTL
  · rw [if_pos hfront]
    have hr := relinked_front h.linked hbp
    refine ⟨[], l, _, rfl, by simp, ?_, ?_, rfl⟩
    · intro a ha
      rcases hfront with hnone | hhigh
      · rw [hfirst, head?_eq_none_iff] at hnone
        rw [hnone] at ha
        cases ha
      · have : q.rank bp = 256 := rank_of_high (queclass_eq_iff.mp hhigh)
        rw [this]
        exact rank_le _
    · rcases hfront with hnone | hhigh
      · rw [hfirst, head?_eq_none_iff] at hnone
        subst hnone
        have hplaced := @Relinked.placed_only q [] [] bp _ hr rfl
        rw [hr.bandIdx] at hplaced
        exact hplaced
      · have hb : (q.msg bp).band = 0 := hput.high (queclass_eq_iff.mp hhigh)
        rw [if_neg (not_not_intro hb)]
        exact @Relinked.placed_normal q [] l bp _ hr hb
  · rw [if_neg hfront]
    rw [not_or] at hfront
    have hord : ¬QPCTL ≤ (q.msg bp).type := fun hh => hfront.2 (queclass_of_high hh)
    have hl : l ≠ [] := by
      rintro rfl
      exact hfront.1 hfirst
    by_cases hb : (q.msg bp).band = 0
    · rw [if_neg (not_not_intro hb)]
      obtain ⟨pre, post, q1, rfl, hpre, hpost, hr, hnew⟩ := putbqNew_spec h hbp hl hord
      exact ⟨pre, post, q1, rfl, hpre, hpost, hr.placed_normal hb, hnew⟩
    rw [if_pos hb]
    obtain ⟨qb, hqb, hqfirst, -⟩ := h.band_of hput hb
    rw [hqb, bind_some]
    obtain ⟨pre, post, hsplit, hpre, hpost⟩ := h.shape.ranked.together (q.rank bp)
    generalize hc : ofRank q.rank (q.rank bp) l = c at hsplit hqfirst
    cases c with
    | nil =>
      simp only [hqfirst]
      obtain ⟨pre, post, q1, rfl, hpre, hpost, hr, hnew⟩ := putbqNew_spec h hbp hl hord
      refine ⟨pre, post, _, rfl, hpre, hpost, hr.placed_only hc, ?_⟩
      rw [hnew, if_pos hb]
      rfl
    | cons tmp c =>
      simp only [hqfirst]
      have hlinked := h.linked
      rw [hsplit] at hlinked
      have hr := relinked_insertBefore hlinked (hsplit ▸ hbp)
      have hne : ofRank q.rank (q.rank bp) (pre ++ (tmp :: c ++ post)) ≠ [] := by
        rw [← hsplit, hc]
        exact cons_ne_nil _ _
      have hplaced := hr.placed_first hb hne hpre
      rw [hr.bandIdx] at hplaced
      refine ⟨pre, tmp :: c ++ post, _, hsplit, hpre, ?_, hplaced, rfl⟩
      intro a ha
      rcases mem_append.mp ha with ha | ha
      · exact le_of_eq (mem_ofRank.mp (hc ▸ ha : a ∈ ofRank q.rank (q.rank bp) l)).2
      · exact le_of_lt (hpost a ha)

end Putbq

section Spec

variable {pre post : List MsgPtr} {q2 : Queue}

theorem Placed.finish (hp : Placed q bp pre post q2) (h : Queued q (pre ++ post)) (hput : Puttable q bp)
    (hpre : ∀ a ∈ pre, q.rank bp ≤ q.rank a) (hpost : ∀ a ∈ post, q.rank a ≤ q.rank bp) (wake : Bool) :
    Queued ((q2.account bp).enableIf wake) (pre ++ bp :: post) ∧ ((q2.account bp).enableIf wake).msg = q.msg ∧
      ((q2.account bp).enableIf wake).nband = q.nband ∧
      ∀ p, p ∉ pre ++ bp :: post → ((q2.account bp).enableIf wake).next p = q.next p := by
  have hplace := h.place hput hp hpre hpost wake
  obtain ⟨q1, f, hr, -, -, rfl⟩ := hp
  obtain ⟨hnext, -, hmsg, hnband, -⟩ := account_frame (if (q.msg bp).band ≠ 0 then q1.setBand (q1.bandIdx bp) f else q1) bp
  have hnext2 : (if (q.msg bp).band ≠ 0 then q1.setBand (q1.bandIdx bp) f else q1).nextAt = q1.nextAt := by
    split <;> rfl
  have hmsg2 : (if (q.msg bp).band ≠ 0 then q1.setBand (q1.bandIdx bp) f else q1).msg = q1.msg := by
    split <;> rfl
  have hnband2 : (if (q.msg bp).band ≠ 0 then q1.setBand (q1.bandIdx bp) f else q1).nband = q1.nband := by
    split <;> rfl
  refine ⟨hplace, (hmsg.trans hmsg2).trans hr.msg,
    (hnband.trans hnband2).trans hr.nband, ?_⟩
  intro p hp
  have hnp := congrFun (hnext.trans hnext2) (some p)
  exact hnp.trans (hr.frame p hp)

/-- What becomes of the list in a `putq` or `putbq` that ends with `ok`. -/
def PutResult (q : Queue) (l : List MsgPtr) (bp : MsgPtr) (Before Behind : Nat → Nat → Prop) (ok : Bool) (q' : Queue) :
    Prop :=
  q'.rank = q.rank ∧ (∀ p, p ≠ bp → q'.msg p = q.msg p) ∧ (∀ p, p ∉ bp :: l → q'.next p = q.next p) ∧
    ((ok = false ∧ Queued q' l) ∨
      (ok = true ∧ ∃ pre post, l = pre ++ post ∧ (∀ a ∈ pre, Before (q.rank a) (q.rank bp)) ∧
        (∀ a ∈ post, Behind (q.rank a) (q.rank bp)) ∧ Queued q' (pre ++ bp :: post)))

section Link

variable {link : Queue → MsgPtr → Option Queue} {Before Behind : Nat → Nat → Prop}
  (hbefore : ∀ a b, Before a b → b ≤ a) (hbehind : ∀ a b, Behind a b → a ≤ b)
  (hlink : ∀ {q l}, Queued q l → bp ∉ l → Puttable q bp → ∃ pre post q2, l = pre ++ post ∧
    (∀ a ∈ pre, Before (q.rank a) (q.rank bp)) ∧ (∀ a ∈ post, Behind (q.rank a) (q.rank bp)) ∧
      Placed q bp pre post q2 ∧ link q bp = some q2)

include hbefore hbehind hlink

lemma link_puttable (h : Queued q l) (hbp : bp ∉ l) (hput : Puttable q bp) :
    ∃ pre post q2, link q bp = some q2 ∧ l = pre ++ post ∧ (∀ a ∈ pre, Before (q.rank a) (q.rank bp)) ∧
      (∀ a ∈ post, Behind (q.rank a) (q.rank bp)) ∧ ∀ wake, Queued ((q2.account bp).enableIf wake) (pre ++ bp :: post) ∧
        ((q2.account bp).enableIf wake).msg = q.msg ∧ ((q2.account bp).enableIf wake).nband = q.nband ∧
          ∀ p, p ∉ bp :: l → ((q2.account bp).enableIf wake).next p = q.next p := by
  obtain ⟨pre, post, q2, rfl, hpre, hpost, hplaced, heq⟩ := hlink h hbp hput
  refine ⟨pre, post, q2, heq, rfl, hpre, hpost, ?_⟩
  intro wake
  obtain ⟨hq, hmsg, hnband, hnext⟩ := hplaced.finish h hput (fun a ha => hbefore _ _ (hpre a ha))
    (fun a ha => hbehind _ _ (hpost a ha)) wake
  refine ⟨hq, hmsg, hnband, fun p hp => hnext p ?_⟩
  rwa [perm_middle.mem_iff]

lemma put_spec (h : Queued q l) (hbp : bp ∉ l) (hget : (q.msg bp).noget = false) (avail : Nat) (wake : Queue → Bool) :
    ∃ ok q', (match q.sanity avail bp with
      | (false, q) => some (false, q)
      | (true, q) => (link q bp).map fun q => (true, (q.account bp).enableIf (wake (q.account bp)))) = some (ok, q') ∧
      PutResult q l bp Before Behind ok q' := by
  obtain ⟨ok, q1, hsan, hq1, hrank, hnext, hmsg, hput⟩ := sanity_spec h hbp hget avail
  simp only [hsan]
  cases ok with
  | false => exact ⟨false, q1, rfl, hrank, hmsg, fun p _ => congrFun hnext p, .inl ⟨rfl, hq1⟩⟩
  | true =>
    obtain ⟨pre, post, q2, heq, hl, hpre, hpost, hfin⟩ := link_puttable hbefore hbehind hlink hq1 hbp (hput rfl)
    simp only [heq, map_some]
    obtain ⟨hq, hm, -, hn⟩ := hfin (wake (q2.account bp))
    rw [hrank] at hpre hpost
    refine ⟨true, _, rfl, ?_, ?_, ?_, .inr ⟨rfl, pre, post, hl, hpre, hpost, hq⟩⟩
    · rw [← hrank]
      ext p
      rw [Queue.rank, Queue.rank, hm]
    · intro p hp
      rw [hm]
      exact hmsg p hp
    · intro p hp
      rw [hn p hp, hnext]

end Link

lemma sanity_puttable (hput : Puttable q bp) (avail : Nat) : q.sanity avail bp = (true, q) := by
  unfold Queue.sanity
  by_cases hhigh : queclass (q.msg bp) = QPCTL
  · rw [if_pos hhigh]
    have hb := hput.high (queclass_eq_iff.mp hhigh)
    have hsame : ({ q.msg bp with band := 0 } : Msg) = q.msg bp := by
      rw [← hb]
    rw [hsame, Function.update_eq_self]
  rw [if_neg hhigh]
  by_cases hb : (q.msg bp).band = 0
  · rw [if_neg (not_not_intro hb)]
  · rw [if_pos hb]
    have hle := hput.band_le
    cases avail with
    | zero => simp [allocBands, hle]
    | succ avail => simp [allocBands, hle]

lemma putq_spec (h : Queued q l) (hbp : bp ∉ l) (hget : (q.msg bp).noget = false) (avail : Nat) :
    ∃ ok q', putq avail q bp = some (ok, q') ∧ PutResult q l bp (· ≥ ·) (· < ·) ok q' :=
  put_spec (fun _ _ => id) (fun _ _ => le_of_lt) putqLink_spec h hbp hget avail fun q =>
    decide (QNORM < queclass (q.msg bp)) || (!q.noenb && (q.wantr || decide ((q.msg bp).band ≠ 0)))

lemma putbq_spec (h : Queued q l) (hbp : bp ∉ l) (hget : (q.msg bp).noget = false) (avail : Nat) :
    ∃ ok q', putbq avail q bp = some (ok, q') ∧ PutResult q l bp (· > ·) (· ≤ ·) ok q' :=
  put_spec (fun _ _ => le_of_lt) (fun _ _ => id) putbqLink_spec h hbp hget avail fun q =>
    decide (QNORM < queclass (q.msg bp)) || (!q.noenb && q.wantr)

lemma putq_again (h : Queued q l) (hbp : bp ∉ l) (hput : Puttable q bp) (avail : Nat) :
    ∃ pre post q', putq avail q bp = some (true, q') ∧ l = pre ++ post ∧ (∀ a ∈ pre, q.rank a ≥ q.rank bp) ∧
      (∀ a ∈ post, q.rank a < q.rank bp) ∧ Queued q' (pre ++ bp :: post) ∧ q'.msg = q.msg ∧
        q'.nband = q.nband ∧ ∀ p, p ∉ bp :: l → q'.next p = q.next p := by
  obtain ⟨pre, post, q2, hlink, hl, hpre, hpost, hfin⟩ :=
    link_puttable (fun _ _ => id) (fun _ _ => le_of_lt) putqLink_spec h hbp hput
  unfold putq
  simp only [sanity_puttable hput, hlink, map_some]
  obtain ⟨hq, hm, hnb, hn⟩ := hfin (decide (QNORM < queclass ((q2.account bp).msg bp)) ||
        (!(q2.account bp).noenb && ((q2.account bp).wantr || decide (((q2.account bp).msg bp).band ≠ 0))))
  exact ⟨pre, post, _, rfl, hl, hpre, hpost, hq, hm, hnb, hn⟩

end Spec

end Solaris.Stream
