import Solaris.Stream.Put

/-!
# Taking a message off a queue

`rmvq` takes any message off the queue and `getq` the first one.
-/

namespace Solaris.Stream

open Lib Queue Nat Option

variable {q q' : Queue} {l pre post : List MsgPtr} {mp bp : MsgPtr}

section Frame

lemma Linked.congr_off (h : Linked q l) (hbp : bp ∉ l) (hnext : ∀ s, s ≠ some bp → q'.nextAt s = q.nextAt s)
    (hprev : ∀ s, s ≠ some bp → q'.prevAt s = q.prevAt s) : Linked q' l := by
  have hmem : ∀ p ∈ l, some p ≠ some bp := by
    intro p hp heq
    exact hbp (some.inj heq ▸ hp)
  refine ⟨h.nodup, h.forward.congr (hnext none (by simp)) fun p hp => hnext _ (hmem p hp),
    h.backward.congr (hprev none (by simp)) fun p hp => hprev _ (hmem p (List.mem_reverse.mp hp))⟩

lemma Queued.relink_off (h : Queued q l) (hbp : bp ∉ l) (n p : Option MsgPtr) :
    Queued ((q.setNext bp n).setPrev bp p) l := by
  refine ⟨h.linked.congr_off hbp ?_ ?_, ⟨h.shape.ranked, h.shape.high, h.shape.get, h.shape.band_le⟩,
    ⟨h.bands.nband_eq, h.bands.nband_le⟩, h.ends, ⟨h.flows.normal, h.flows.band⟩, h.turns⟩
  · intro s hs
    simp [Function.update_of_ne hs]
  · intro s hs
    simp [Function.update_of_ne hs]

lemma SameQueue.qbackenable (q : Queue) (l : List MsgPtr) (band : UInt8) : SameQueue q l (q.qbackenable band) := by
  have hsame : ∀ (i : Nat) (qb : Qband), q.bands[i]? = some qb → ∃ qb', q.bands[i]? = some qb' ∧ SameBand qb' qb :=
    fun _ qb hqb => ⟨qb, hqb, SameBand.refl qb⟩
  have hrefl : SameQueue q l q := ⟨rfl, rfl, fun _ _ => rfl, rfl, rfl, rfl, rfl, rfl, hsame, le_refl _⟩
  unfold Queue.qbackenable
  split
  · split
    · exact ⟨rfl, rfl, fun _ _ => rfl, rfl, rfl, rfl, rfl, rfl, hsame, le_refl _⟩
    · exact hrefl
  split
  · exact hrefl
  split
  · refine ⟨rfl, rfl, fun _ _ => rfl, rfl, rfl, rfl, rfl, List.length_modify .., ?_, le_refl _⟩
    intro i qb hqb
    rcases band_modify hqb with ⟨rfl, qb', hqb', rfl⟩ | ⟨-, hqb'⟩
    · exact ⟨qb', hqb', rfl, rfl, rfl, rfl, rfl⟩
    · exact ⟨qb, hqb', SameBand.refl qb⟩
  · exact hrefl

lemma qbackenable_msg (q : Queue) (band : UInt8) : (q.qbackenable band).msg = q.msg := by
  unfold Queue.qbackenable
  split
  · split <;> rfl
  · split
    · rfl
    · split <;> rfl

lemma discount_frame (q : Queue) (bp : MsgPtr) :
    (q.discount bp).nextAt = q.nextAt ∧ (q.discount bp).prevAt = q.prevAt ∧ (q.discount bp).msg = q.msg ∧
      (q.discount bp).nband = q.nband ∧ (q.discount bp).turns = q.turns := by
  unfold Queue.discount
  split <;> exact ⟨rfl, rfl, rfl, rfl, rfl⟩

lemma Bands.discount (h : Bands q) (bp : MsgPtr) : Bands (q.discount bp) := by
  unfold Queue.discount
  split
  · exact ⟨h.nband_eq, h.nband_le⟩
  · exact h.setBand ..

lemma Ends.discount (h : Ends q l) (bp : MsgPtr) : Ends (q.discount bp) l := by
  unfold Queue.discount
  split
  · exact h
  · exact h.setBand (fun _ _ => rfl) fun qb hfirst hlast => ⟨hfirst, hlast⟩

end Frame

section Take

lemma Shape.remove (h : Shape q (pre ++ mp :: post)) : Shape q (pre ++ post) := by
  have hsub : (pre ++ post).Sublist (pre ++ mp :: post) := (List.sublist_cons_self ..).append_left _
  exact ⟨h.ranked.sublist hsub, fun p hp => h.high p (hsub.mem hp), fun p hp => h.get p (hsub.mem hp),
    fun p hp => h.band_le p (hsub.mem hp)⟩

lemma queued_discount (hlinked : Linked q (pre ++ post)) (hshape : Shape q (pre ++ mp :: post)) (hbands : Bands q)
    (hends : Ends q (pre ++ post)) (hflows : Flows q (pre ++ mp :: post))
    (hturns : (pre ++ mp :: post).length ≤ q.turns) : Queued (q.discount mp) (pre ++ post) := by
  obtain ⟨hn, hp, hm, hb, ht⟩ := discount_frame q mp
  refine ⟨hlinked.congr hn hp, hshape.remove.congr hm hb, hbands.discount mp, hends.discount mp,
    hflows.discount hbands List.perm_middle (hshape.high mp (by simp)), ?_⟩
  rw [ht]
  rw [List.perm_middle.length_eq, List.length_cons] at hturns
  exact le_of_succ_le hturns

lemma Ends.remove_normal (h : Ends q (pre ++ mp :: post)) (hbands : Bands q) (hb : (q.msg mp).band = 0) :
    Ends q (pre ++ post) := by
  intro i qb hqb
  have hi := hbands.lt_255 hqb
  have hne : q.rank mp ≠ i + 1 := by
    rcases rank_of_band_zero hb with h0 | h256
    · omega
    · omega
  rw [← ofRank_middle_of_ne hne]
  exact h i qb hqb

lemma Shape.band_eq_iff (h : Shape q l) {p p' : MsgPtr} (hp : p ∈ l) (hp' : p' ∈ l) (hb : (q.msg p).band ≠ 0) :
    (q.msg p).band = (q.msg p').band ↔ q.rank p' = q.rank p := by
  have hord : ¬QPCTL ≤ (q.msg p).type := fun hh => hb (h.high p hp hh)
  have hrank : q.rank p = (q.msg p).band.toNat := Msg.rank_of_ordinary hord
  rw [← UInt8.toNat_inj, hrank]
  by_cases hhigh : QPCTL ≤ (q.msg p').type
  · have hz := h.high p' hp' hhigh
    have hr : q.rank p' = 256 := Msg.rank_of_high hhigh
    have hne : (q.msg p).band.toNat ≠ 0 := fun h0 => hb (band_eq_zero_iff.mpr h0)
    have hlt := (q.msg p).band.toNat_lt
    rw [hz, hr]
    change (q.msg p).band.toNat = 0 ↔ _
    omega
  · have hr : q.rank p' = (q.msg p').band.toNat := Msg.rank_of_ordinary hhigh
    rw [hr]
    exact eq_comm

lemma Queued.next_in_band (h : Queued q (pre ++ mp :: post)) (hb : (q.msg mp).band ≠ 0) :
    ((q.next mp).filter fun n => (q.msg mp).band = (q.msg n).band) = (ofRank q.rank (q.rank mp) post).head? := by
  rw [h.linked.next, h.shape.ranked.head?_behind]
  cases post with
  | nil => rfl
  | cons y post =>
    have hiff : (q.msg mp).band = (q.msg y).band ↔ q.rank y = q.rank mp :=
      h.shape.band_eq_iff (by simp) (by simp) hb
    simp [Option.filter, hiff]

lemma Queued.prev_in_band (h : Queued q (pre ++ mp :: post)) (hb : (q.msg mp).band ≠ 0) :
    ((q.prev mp).filter fun p => (q.msg mp).band = (q.msg p).band) = (ofRank q.rank (q.rank mp) pre).getLast? := by
  rw [h.linked.prev, h.shape.ranked.getLast?_before]
  rcases List.eq_nil_or_concat' pre with rfl | ⟨pre, y, rfl⟩
  · rfl
  · have hiff : (q.msg mp).band = (q.msg y).band ↔ q.rank y = q.rank mp :=
      h.shape.band_eq_iff (by simp) (by simp) hb
    simp [Option.filter, hiff]

lemma ends_middle {c1 c2 : List MsgPtr} (hnd : (c1 ++ mp :: c2).Nodup) :
    (c1 ++ c2).head? = (if (c1 ++ mp :: c2).head? = some mp then c2.head? else (c1 ++ mp :: c2).head?) ∧
      (c1 ++ c2).getLast? =
        if (c1 ++ mp :: c2).getLast? = some mp then c1.getLast? else (c1 ++ mp :: c2).getLast? := by
  have hmem := (List.nodup_cons.mp (List.nodup_middle.mp hnd)).1
  constructor
  · cases c1 with
    | nil => simp
    | cons x c1 =>
      have hne : x ≠ mp := by
        rintro rfl
        exact hmem (by simp)
      simp [hne]
  · rcases List.eq_nil_or_concat' c2 with rfl | ⟨c2, x, rfl⟩
    · simp
    have hne : x ≠ mp := by
      rintro rfl
      exact hmem (by simp)
    have hlast : (c1 ++ mp :: (c2 ++ [x])).getLast? = some x := by
      rw [getLast?_append_cons, ← List.cons_append, List.getLast?_concat]
    rw [hlast, if_neg (by simpa using hne), ← List.append_assoc, List.getLast?_concat]

lemma Queued.ends_rmvqBand (h : Queued q (pre ++ mp :: post)) (hb : (q.msg mp).band ≠ 0) :
    Ends (rmvqBand q mp) (pre ++ post) := by
  have hidx := rank_of_band (h.shape.high mp (by simp)) hb
  have hmid : ofRank q.rank (q.rank mp) (pre ++ mp :: post) =
      ofRank q.rank (q.rank mp) pre ++ mp :: ofRank q.rank (q.rank mp) post := by
    rw [ofRank_append, ofRank_cons_self]
  have hnd : (ofRank q.rank (q.rank mp) pre ++ mp :: ofRank q.rank (q.rank mp) post).Nodup :=
    hmid ▸ h.linked.nodup.filter _
  obtain ⟨hhead, hlast⟩ := ends_middle hnd
  refine h.ends.setBand ?_ ?_
  · intro k hk
    exact (ofRank_middle_of_ne (by omega) ..).symm
  · rw [← hidx, hmid, ofRank_append]
    intro qb hqf hql
    rw [hhead, hlast, h.next_in_band hb, h.prev_in_band hb, hqf, hql]
    exact ⟨rfl, rfl⟩

lemma rmvqNoenab_spec (h : Queued q (pre ++ mp :: post)) :
    ∃ q', rmvqNoenab q mp = some q' ∧ Queued q' (pre ++ post) ∧ q'.msg = q.msg := by
  have hhigh := h.shape.high mp (by simp)
  have hfin : ∀ q1 : Queue, q1.nextAt = q.nextAt → q1.prevAt = q.prevAt → q1.msg = q.msg → q1.nband = q.nband →
      q1.turns = q.turns → Bands q1 → Ends q1 (pre ++ post) → Flows q1 (pre ++ mp :: post) →
      Queued ((rmvqLink q1 mp).discount mp) (pre ++ post) ∧ ((rmvqLink q1 mp).discount mp).msg = q.msg := by
    intro q1 hn hp hm hnb ht hbands hends hflows
    obtain ⟨hlinked, hdata⟩ := relinked_rmvqLink (h.linked.congr hn hp)
    have hmsg : (rmvqLink q1 mp).msg = q.msg := by
      rw [hdata]
      exact hm
    refine ⟨queued_discount hlinked ?_ ?_ ?_ ?_ ?_, (discount_frame _ _).2.2.1.trans hmsg⟩
    · refine h.shape.congr hmsg ?_
      rw [hdata]
      exact hnb
    · rw [hdata]
      exact ⟨hbands.nband_eq, hbands.nband_le⟩
    · rw [hdata]
      exact hends
    · rw [hdata]
      exact ⟨hflows.normal, hflows.band⟩
    · rw [hdata]
      exact ht ▸ h.turns
  unfold rmvqNoenab
  by_cases hb : (q.msg mp).band = 0
  · rw [if_neg (not_not_intro hb)]
    exact ⟨_, rfl, hfin q rfl rfl rfl rfl rfl h.bands (h.ends.remove_normal h.bands hb) h.flows⟩
  · rw [if_pos hb]
    obtain ⟨qb, hqb, -⟩ := h.band_of ⟨hhigh, h.shape.get mp (by simp), h.shape.band_le mp (by simp)⟩ hb
    rw [hqb]
    refine ⟨_, rfl, hfin (rmvqBand q mp) rfl rfl rfl rfl rfl (h.bands.setBand ..) (h.ends_rmvqBand hb) ?_⟩
    exact h.flows.setBand fun _ => ⟨rfl, rfl, rfl⟩

lemma rmvq_spec (h : Queued q (pre ++ mp :: post)) :
    ∃ q', rmvq q mp = some q' ∧ Queued q' (pre ++ post) ∧ q'.msg = q.msg := by
  obtain ⟨q1, heq, hq1, hmsg⟩ := rmvqNoenab_spec h
  refine ⟨q1.qbackenable (q1.msg mp).band, ?_, hq1.congr (SameQueue.qbackenable ..), ?_⟩
  · rw [rmvq, heq]
    rfl
  · rw [qbackenable_msg, hmsg]

end Take

section Getq

lemma Queued.ends_getqBand (h : Queued q (mp :: post)) (hb : (q.msg mp).band ≠ 0) (hq' : q'.bands = q.bands)
    (hmsg : q'.msg = q.msg) (hnext : q'.next mp = q.next mp) : Ends (getqBand q' mp) post := by
  have hmid : Queued q ([] ++ mp :: post) := h
  have hidx := rank_of_band (h.shape.high mp (by simp)) hb
  have hrank : q'.rank = q.rank := by
    ext p
    rw [Queue.rank, Queue.rank, hmsg]
  have hidx' : q'.bandIdx mp = q.bandIdx mp := by
    rw [Queue.bandIdx, Queue.bandIdx, hmsg]
  have hends : Ends q' (mp :: post) := by
    intro i qb hqb
    rw [hrank]
    exact h.ends i qb (hq' ▸ hqb)
  have hcons := ofRank_cons_self (r := q.rank) mp post
  have hnd : (mp :: ofRank q.rank (q.rank mp) post).Nodup := hcons ▸ h.linked.nodup.filter _
  have hsecond := hmid.shape.ranked.head?_behind
  refine hends.setBand ?_ ?_
  · intro k hk
    rw [hrank, ofRank_cons_of_ne (by omega)]
  · rw [hidx', ← hidx, hrank, hcons, hnext]
    intro qb hqf hql
    rw [hqf, hql, hmid.linked.next]
    cases hc : ofRank q.rank (q.rank mp) post with
    | nil => simp
    | cons x c =>
      rw [hc] at hnd hsecond
      have hne : some mp ≠ (mp :: x :: c).getLast? := by
        intro heq
        have hmem : mp ∈ x :: c := by
          exact List.mem_of_getLast? heq.symm
        exact (List.nodup_cons.mp hnd).1 hmem
      rw [List.head?_cons, if_neg hne]
      refine ⟨?_, ?_⟩
      · -- the next message in the band is the next one on the queue
        have hfilter : post.head?.filter (fun a => decide (q.rank a = q.rank mp)) = some x := hsecond.symm
        exact (eq_some_of_filter_eq_some hfilter).symm ▸ rfl
      · exact List.getLast?_cons_cons ..

lemma getqNoenab_spec (h : Queued q l) :
    ∃ q', getqNoenab q = some (l.head?, q') ∧ Queued q' l.tail ∧ q'.msg = q.msg := by
  have hfirst := h.linked.first
  unfold getqNoenab
  cases l with
  | nil =>
    split
    case h_2 bp hsome => exact absurd (hfirst.symm.trans hsome) (by simp)
    refine ⟨_, rfl, h.congr ?_, rfl⟩
    exact ⟨rfl, rfl, fun _ _ => rfl, rfl, rfl, rfl, rfl, rfl, fun _ qb hqb => ⟨qb, hqb, SameBand.refl qb⟩, le_refl _⟩
  | cons mp post =>
    rw [List.head?_cons] at hfirst
    have hnext : q.next mp = post.head? := @Linked.next q [] post mp h.linked
    have hget := h.shape.get mp (by simp)
    have hnd := List.nodup_cons.mp h.linked.nodup
    have hhigh := h.shape.high mp (by simp)
    simp only [hfirst, hget, Bool.false_eq_true, if_false]
    generalize hlink : ({ q with first := q.next mp } : Queue).linkPrev (q.next mp) none = link
    have hdata : link = { q with first := post.head?, prev := link.prev, last := link.last } := by
      rw [← hlink, hnext]
      cases post.head? <;> rfl
    have hmsg : link.msg = q.msg := by
      rw [hdata]
    have hbandsEq : link.bands = q.bands := by
      rw [hdata]
    have hlinked : Linked link post := by
      have hcons : Linked q ([] ++ mp :: post) := h.linked
      refine @Linked.remove q link [] post mp hcons ?_ ?_
      · intro s _
        rw [← hlink, nextAt_linkPrev, nextAt_first, hnext]
        rfl
      · intro s _
        rw [← hlink, prevAt_linkPrev, hnext]
        rfl
    have hfin : ∀ q1 : Queue, q1.nextAt = link.nextAt → q1.prevAt = link.prevAt → q1.msg = q.msg →
        q1.nband = q.nband → q1.turns = q.turns → Bands q1 → Ends q1 post → Flows q1 (mp :: post) →
        Queued { ((q1.discount mp).setNext mp none).setPrev mp none with wantr := false } post ∧
          (q1.discount mp).msg = q.msg := by
      intro q1 hn hp hm hnb ht hbands hends hflows
      have hq : Queued (q1.discount mp) ([] ++ post) := by
        refine queued_discount (hlinked.congr hn hp) ?_ hbands hends hflows ?_
        · exact h.shape.congr hm hnb
        · exact ht ▸ h.turns
      refine ⟨(hq.relink_off hnd.1 none none).congr ?_, (discount_frame q1 mp).2.2.1.trans hm⟩
      exact ⟨rfl, rfl, fun _ _ => rfl, rfl, rfl, rfl, rfl, rfl, fun _ qb hqb => ⟨qb, hqb, SameBand.refl qb⟩,
        le_refl _⟩
    have hbands : Bands link := by
      rw [hdata]
      exact ⟨h.bands.nband_eq, h.bands.nband_le⟩
    have hflows : Flows link (mp :: post) := by
      rw [hdata]
      exact ⟨h.flows.normal, h.flows.band⟩
    have hnband : link.nband = q.nband := by
      rw [hdata]
    have hturns : link.turns = q.turns := by
      rw [hdata]
    split_ifs with hb
    · rw [map_some]
      have hends : Ends link post := by
        have hmid : Queued q ([] ++ mp :: post) := h
        rw [hdata]
        exact hmid.ends.remove_normal h.bands hb
      obtain ⟨hq, hm⟩ := hfin link rfl rfl hmsg hnband hturns hbands hends hflows
      exact ⟨_, rfl, hq, hm⟩
    obtain ⟨qb, hqb, -⟩ := h.band_of ⟨hhigh, hget, h.shape.band_le mp (by simp)⟩ hb
    have hidx : link.bandIdx mp = q.bandIdx mp := by
      rw [Queue.bandIdx, Queue.bandIdx, hmsg]
    have hnextLink : link.next mp = q.next mp := by
      rw [hdata]
    rw [hbandsEq, hidx, hqb, map_some, map_some]
    obtain ⟨hq, hm⟩ := hfin (getqBand link mp) rfl rfl hmsg hnband hturns (hbands.setBand ..)
      (h.ends_getqBand hb hbandsEq hmsg hnextLink) (hflows.setBand fun qb => by split <;> exact ⟨rfl, rfl, rfl⟩)
    exact ⟨_, rfl, hq, hm⟩

lemma getq_spec (h : Queued q l) :
    ∃ q', getq q = some (l.head?, q') ∧ Queued q' l.tail ∧ q'.msg = q.msg := by
  obtain ⟨q1, heq, hq1, hmsg⟩ := getqNoenab_spec h
  unfold getq
  rw [heq, map_some]
  exact ⟨_, rfl, hq1.congr (SameQueue.qbackenable ..), (qbackenable_msg ..).trans hmsg⟩

end Getq

end Solaris.Stream
