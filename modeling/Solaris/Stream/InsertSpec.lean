import Solaris.Stream.Insert
import Solaris.Stream.Runs

/-!
# When `insq` keeps the order

The checks look at the two neighbours only, and at their class only in places. What they leave out is left to
the caller, and no more.
-/

namespace Solaris.Stream

open Lib Queue List Nat Option Msg Bool

variable {q q' : Queue} {l pre post : List MsgPtr} {mp : MsgPtr} {emp : Option MsgPtr} {avail k : Nat}

section Checks

lemma ordinary_iff {m : Msg} : m.type < QPCTL ↔ ¬QPCTL ≤ m.type := UInt8.not_le.symm

/-- Where `insq` may insert a message, it goes between messages of no lower and of no higher rank. -/
theorem Ordered.between (h : Ordered q (pre ++ post)) (hbad : insqBadord q post.head? mp = false)
    (hhigh : QPCTL ≤ (q.msg mp).type → post = [] → ∀ y ∈ pre.getLast?, QPCTL ≤ (q.msg y).type)
    (hord : ¬QPCTL ≤ (q.msg mp).type → ∀ e ∈ post.head?, ¬QPCTL ≤ (q.msg e).type) :
    (∀ a ∈ pre, q.rank mp ≤ q.rank a) ∧ ∀ a ∈ post, q.rank a ≤ q.rank mp := by
  have hpre : Ranked q.rank pre := h.ranked.sublist (sublist_append_left ..)
  have hpost : Ranked q.rank post := h.ranked.sublist (sublist_append_right ..)
  -- an ordinary message behind one that is ordinary too and of no lower band
  have hlow : ∀ y, ¬QPCTL ≤ (q.msg mp).type → (¬QPCTL ≤ (q.msg y).type → ¬(q.msg y).band < (q.msg mp).band) →
      q.rank mp ≤ q.rank y := by
    intro y hmp hy
    have hrank : q.rank mp = (q.msg mp).band.toNat := rank_of_ordinary hmp
    have hlt := (q.msg mp).band.toNat_lt
    by_cases hyh : QPCTL ≤ (q.msg y).type
    · have hry : q.rank y = 256 := rank_of_high hyh
      omega
    · have hry : q.rank y = (q.msg y).band.toNat := rank_of_ordinary hyh
      have hle := UInt8.le_iff_toNat_le.mp (UInt8.not_lt.mp (hy hyh))
      omega
  cases post with
  | nil =>
    refine ⟨hpre.le_of_getLast ?_, by simp⟩
    intro y hy
    have hlast : q.last = some y := by
      rw [h.linked.last, append_nil]
      exact hy
    by_cases hmp : QPCTL ≤ (q.msg mp).type
    · have hry : q.rank y = 256 := rank_of_high (hhigh hmp rfl y hy)
      rw [hry]
      exact rank_le _
    · refine hlow y hmp fun _ => ?_
      simpa [insqBadord, hlast, queclass_of_ordinary hmp] using hbad
  | cons e post =>
    have hprev : q.prev e = pre.getLast? := h.linked.prev
    simp only [insqBadord, head?_cons, hprev, or_eq_false_iff] at hbad
    obtain ⟨hctl, hnorm, hbehind⟩ := hbad
    refine ⟨hpre.le_of_getLast ?_, hpost.le_of_head ?_⟩
    · intro y hy
      by_cases hmp : QPCTL ≤ (q.msg mp).type
      · have hyh : QPCTL ≤ (q.msg y).type := by
          rw [mem_def.mp hy, any_some, queclass_of_high hmp] at hctl
          by_contra hno
          simp [ordinary_iff.mpr hno] at hctl
        have hry : q.rank y = 256 := rank_of_high hyh
        rw [hry]
        exact rank_le _
      · refine hlow y hmp fun hyh => ?_
        rw [mem_def.mp hy, any_some] at hbehind
        simpa [ordinary_iff.mpr hyh] using hbehind
    · intro y hy
      obtain rfl : e = y := some.inj hy
      by_cases hmp : QPCTL ≤ (q.msg mp).type
      · have hrank : q.rank mp = 256 := rank_of_high hmp
        rw [hrank]
        exact rank_le _
      have hrank : q.rank mp = (q.msg mp).band.toNat := rank_of_ordinary hmp
      have hre : q.rank e = (q.msg e).band.toNat := rank_of_ordinary (hord hmp e rfl)
      have hle : ¬(q.msg mp).band < (q.msg e).band := by
        simpa [queclass_of_ordinary hmp] using hnorm
      rw [hrank, hre]
      exact UInt8.le_iff_toNat_le.mp (UInt8.not_lt.mp hle)

lemma badord_of_front (hmp : ¬QPCTL ≤ (q.msg mp).type)
    (hle : ∀ e ∈ emp, (q.msg e).band.toNat ≤ (q.msg mp).band.toNat)
    (hprev : ∀ e ∈ emp, ∀ p ∈ q.prev e, QPCTL ≤ (q.msg p).type) (hlast : emp = none → q.last = none) :
    insqBadord q emp mp = false := by
  have hcls : queclass (q.msg mp) ≠ QPCTL := fun hc => hmp (queclass_eq_iff.mp hc)
  cases emp with
  | none => simp [insqBadord, hlast rfl]
  | some e =>
    have hband : ¬(q.msg mp).band < (q.msg e).band :=
      UInt8.not_lt.mpr (UInt8.le_iff_toNat_le.mpr (hle e rfl))
    have hany : ((q.prev e).any fun p => decide ((q.msg p).type < QPCTL) && decide ((q.msg p).band < (q.msg mp).band)) =
        false := by
      rw [Option.any_eq_false]
      intro p hp
      have hno : ¬(q.msg p).type < QPCTL := fun hlt => ordinary_iff.mp hlt (hprev e rfl p hp)
      simp [hno]
    simp only [insqBadord, hcls, hband, hany, decide_false, Bool.false_and, Bool.and_false, Bool.or_false]

end Checks

section Outcome

theorem insq_eq (h : Bands q) (avail : Nat) (emp : Option MsgPtr) (mp : MsgPtr) :
    insq avail q emp mp =
      let q1 := insqForce q mp
      let q2 := q1.grow (min avail ((q1.msg mp).band.toNat - q.nband))
      let q3 := if (q2.msg mp).band ≠ 0 then insqEnds (insqLink q2 emp mp) mp else insqLink q2 emp mp
      if insqBadord q1 emp mp then some (false, q1)
      else if (q1.msg mp).band.toNat ≤ q.nband + avail then
        some (true, (q3.account mp).enableIf (!(q3.account mp).noenb && (q3.account mp).wantr))
      else some (false, q2) := by
  have hnband : (insqForce q mp).nband = q.nband := by
    rw [(force_untouched q mp).data]
  have hlen : (insqForce q mp).bands = q.bands := by
    rw [(force_untouched q mp).data]
  have hlen := h.nband_eq.trans (congrArg List.length hlen).symm
  unfold insq
  generalize insqForce q mp = q1 at hnband hlen
  by_cases hbad : insqBadord q1 emp mp = true
  · rw [if_pos hbad, if_pos hbad]
  rw [if_neg hbad, if_neg hbad, ← hnband]
  by_cases hb : (q1.msg mp).band = 0
  · have hz : (q1.msg mp).band.toNat = 0 := band_eq_zero_iff.mp hb
    rw [if_neg (not_not_intro hb), hz, Nat.zero_sub, Nat.min_zero, grow_zero,
      if_pos (Nat.zero_le _)]
    dsimp only
    rw [if_neg (not_not_intro hb), if_neg (not_not_intro hb), map_some]
  rw [if_pos hb, allocBands_eq]
  by_cases hle : (q1.msg mp).band.toNat ≤ q1.nband + avail
  · rw [if_pos hle, decide_eq_true hle]
    generalize hk : min avail ((q1.msg mp).band.toNat - q1.nband) = k
    have hidx : (q1.grow k).bandIdx mp < (q1.grow k).bands.length := by
      have hlen' : (q1.grow k).bands.length = q1.nband + k := by
        simp only [Queue.grow, length_append, length_replicate]
        omega
      have hne : (q1.msg mp).band.toNat ≠ 0 := fun h0 => hb (band_eq_zero_iff.mpr h0)
      change (q1.msg mp).band.toNat - 1 < _
      omega
    have hqb := getElem?_eq_getElem hidx
    have hb' : ((q1.grow k).msg mp).band ≠ 0 := hb
    dsimp only
    rw [if_pos hb', if_pos hb', hqb, map_some, map_some]
  · rw [if_neg hle, decide_eq_false hle]

lemma grow_untouched (h : Untouched q mp (q.grow k)) : k = 0 := by
  have hnband := congrArg Queue.nband h.data
  change q.nband + k = q.nband at hnband
  omega

lemma Ordered.force (h : Ordered q l) (hmp : mp ∉ l) : Ordered (insqForce q mp) l :=
  h.congr ((force_untouched q mp).sameQueue hmp)

lemma force_nband (q : Queue) (mp : MsgPtr) : (insqForce q mp).nband = q.nband := by
  rw [(force_untouched q mp).data]

lemma charged_of_grown {n : Nat} (h : Charged ((insqForce q mp).grow n) mp q') : Charged q mp q' := by
  have hdata := (force_untouched q mp).data
  have hcount : ((insqForce q mp).grow n).count = q.count := by
    rw [hdata]
    rfl
  have hbc : ∀ i, ((insqForce q mp).grow n).bandCount i = q.bandCount i := by
    intro i
    rw [grow_bandCount, hdata]
    rfl
  refine ⟨?_, ?_⟩
  · rw [← hcount]
    exact h.normal
  · intro i
    rw [← hbc]
    exact h.band i

lemma Insertable.end_high (hi : Insertable avail q post.head? mp) (h : Ordered q (pre ++ post))
    (hmp : mp ∉ pre ++ post) : QPCTL ≤ ((insqForce q mp).msg mp).type → post = [] →
      ∀ y ∈ pre.getLast?, QPCTL ≤ ((insqForce q mp).msg y).type := by
  rw [force_type]
  rintro hhigh rfl y hy
  rw [force_type]
  refine hi.high hhigh rfl y ?_
  rw [h.linked.last, append_nil]
  exact hy

lemma Insertable.before_ordinary (hi : Insertable avail q emp mp)
    (hle : ((insqForce q mp).msg mp).band.toNat ≤ q.nband + avail) :
    ¬QPCTL ≤ ((insqForce q mp).msg mp).type → ∀ e ∈ emp, ¬QPCTL ≤ ((insqForce q mp).msg e).type := by
  rw [force_type]
  intro hord e he
  rw [force_type]
  intro hhigh
  rw [force_of_ordinary hord] at hle
  obtain ⟨hav, hlt⟩ := hi.ordinary hord e he hhigh
  omega

lemma Insertable.none_of_missing (hi : Insertable avail q post.head? mp) (h : Ordered q (pre ++ post))
    (hbad : insqBadord (insqForce q mp) post.head? mp = false)
    (hlt : q.nband + avail < ((insqForce q mp).msg mp).band.toNat) : avail = 0 := by
  have hord : ¬QPCTL ≤ (q.msg mp).type := by
    intro hhigh
    rw [force_of_high hhigh] at hlt
    exact not_lt_zero _ hlt
  rw [force_of_ordinary hord] at hbad hlt
  have hmem : ∀ a ∈ pre ++ post, (q.msg a).band < (q.msg mp).band := by
    intro a ha
    have := h.band_le a ha
    exact UInt8.lt_iff_toNat_lt.mpr (by omega)
  refine hi.alloc hord hlt ?_ ?_
  · intro e he p hp
    obtain ⟨post, rfl⟩ := head?_eq_some_iff.mp he
    have hprev : q.prev e = pre.getLast? := h.linked.prev
    by_contra hno
    have hpm : p ∈ pre := mem_of_getLast? (hprev ▸ hp)
    have hlow := hmem p (mem_append_left _ hpm)
    simp [insqBadord, mem_def.mp hp, ordinary_iff.mpr hno, hlow] at hbad
  · intro hnil
    obtain rfl := head?_eq_none_iff.mp hnil
    by_contra hno
    obtain ⟨y, hy⟩ := ne_none_iff_exists'.mp hno
    have hym : y ∈ pre ++ [] := mem_of_getLast? (h.linked.last ▸ hy)
    simp [insqBadord, hy, queclass_of_ordinary hord, hmem y hym] at hbad

lemma insq_inOrder (h : Ordered q (pre ++ post)) (hmp : mp ∉ pre ++ post) (hi : Insertable avail q post.head? mp) :
    ∃ ok q', insq avail q post.head? mp = some (ok, q') ∧ InOrder q (pre ++ post) post.head? mp ok q' := by
  have hforce := h.force hmp
  have hhigh := force_high q mp
  have hle255 := h.bands.nband_le
  have hlt := ((insqForce q mp).msg mp).band.toNat_lt
  rw [insq_eq h.bands]
  by_cases hbad : insqBadord (insqForce q mp) post.head? mp = true
  · rw [if_pos hbad]
    exact ⟨false, _, rfl, .inl ⟨rfl, force_untouched q mp⟩⟩
  rw [if_neg hbad]
  rw [not_eq_true] at hbad
  generalize hk : min avail (((insqForce q mp).msg mp).band.toNat - q.nband) = k
  have hnband : (insqForce q mp).nband + k = q.nband + k := congrArg (· + k) (force_nband q mp)
  by_cases hle : ((insqForce q mp).msg mp).band.toNat ≤ q.nband + avail
  · rw [if_pos hle]
    obtain ⟨hpre, hpost⟩ := hforce.between hbad (hi.end_high h hmp) (hi.before_ordinary hle)
    have hgrown := hforce.grow (show (insqForce q mp).nband + k ≤ 255 by omega)
    have hband : (((insqForce q mp).grow k).msg mp).band.toNat ≤ ((insqForce q mp).grow k).nband := by
      change ((insqForce q mp).msg mp).band.toNat ≤ (insqForce q mp).nband + k
      omega
    have hplaced := hgrown.placed_insq hmp hhigh hpre hpost
    refine ⟨true, _, rfl, .inr ⟨rfl, hplaced.msg _, ?_, pre, post, rfl, rfl, ?_⟩⟩
    · exact charged_of_grown (hplaced.charged hgrown.bands hband _)
    · exact hgrown.place hplaced hhigh hband hpre hpost _
  · rw [if_neg hle]
    refine ⟨false, _, rfl, .inl ⟨rfl, ?_⟩⟩
    have hav := hi.none_of_missing h hbad (not_le.mp hle)
    have hk0 : k = 0 := by omega
    rw [hk0, grow_zero]
    exact force_untouched q mp

lemma Ordered.rank_of_inserted {mp : MsgPtr} (h : Ordered q' (pre ++ mp :: post)) (hmsg : q'.msg = (insqForce q mp).msg) :
    (∀ a ∈ pre, q.rank mp ≤ q.rank a) ∧ ∀ a ∈ post, q.rank a ≤ q.rank mp := by
  have hrank : q'.rank = q.rank := by
    rw [← force_rank q mp]
    ext p
    rw [Queue.rank, Queue.rank, hmsg]
  have hranked := h.ranked
  rw [hrank] at hranked
  exact ⟨fun a ha => hranked.before ha, fun a ha => hranked.behind ha⟩

/-- An ordinary message that passes the checks and is left out for want of a band finds none of the missing. -/
theorem avail_of_inOrder (h : Ordered q l) (hord : ¬QPCTL ≤ (q.msg mp).type) (hbad : insqBadord q emp mp = false)
    (hout : ∃ ok q', insq avail q emp mp = some (ok, q') ∧ InOrder q l emp mp ok q')
    (hlt : q.nband + avail < (q.msg mp).band.toNat) : avail = 0 := by
  obtain ⟨ok, q', heq, hin⟩ := hout
  rw [insq_eq h.bands] at heq
  simp only [force_of_ordinary hord, hbad, false_eq_true, if_false, if_neg (not_le.mpr hlt),
    some.injEq, Prod.mk.injEq] at heq
  obtain ⟨rfl, rfl⟩ := heq
  rcases hin with ⟨-, huntouched⟩ | ⟨hno, -⟩
  · have := grow_untouched huntouched
    omega
  · cases hno

lemma insertable_of_inOrder (h : Ordered q l) (hemp : ∀ e ∈ emp, e ∈ l)
    (hout : ∃ ok q', insq avail q emp mp = some (ok, q') ∧ InOrder q l emp mp ok q') :
    Insertable avail q emp mp := by
  have hord : ¬QPCTL ≤ (q.msg mp).type → ∀ e ∈ emp, QPCTL ≤ (q.msg e).type →
      avail = 0 ∧ q.nband < (q.msg mp).band.toNat := by
    intro hmp e he hhigh
    obtain ⟨pre, post, rfl⟩ := append_of_mem (hemp e he)
    have hre : q.rank e = 256 := rank_of_high hhigh
    have hprev : q.prev e = pre.getLast? := h.linked.prev
    have hbad : insqBadord q emp mp = false := by
      refine badord_of_front hmp ?_ ?_ ?_
      · intro e' he'
        obtain rfl : e = e' := some.inj (he.symm.trans he')
        rw [h.high e (by simp) hhigh]
        exact zero_le _
      · intro e' he' p hp
        obtain rfl : e = e' := some.inj (he.symm.trans he')
        have hrp : q.rank e ≤ q.rank p := h.ranked.before (mem_of_getLast? (hprev ▸ hp))
        exact Msg.high_iff_rank.mpr (le_antisymm (rank_le _) (hre ▸ hrp))
      · rintro rfl
        cases he
    by_cases hle : (q.msg mp).band.toNat ≤ q.nband + avail
    · -- the message goes in, before one that ranks above it
      exfalso
      obtain ⟨ok, q', heq, hin⟩ := hout
      rw [insq_eq h.bands] at heq
      simp only [force_of_ordinary hmp, hbad, false_eq_true, if_false, if_pos hle,
        some.injEq, Prod.mk.injEq] at heq
      rcases hin with ⟨hno, -⟩ | ⟨-, hmsg, -, pre', post', hl, hhead, hq'⟩
      · rw [hno] at heq
        cases heq.1
      · have hrank := (hq'.rank_of_inserted hmsg).2 e (mem_of_head? (hhead.trans he))
        have hrm : q.rank mp = (q.msg mp).band.toNat := rank_of_ordinary hmp
        have hlt := (q.msg mp).band.toNat_lt
        omega
    · have hav := avail_of_inOrder h hmp hbad hout (not_le.mp hle)
      omega
  refine ⟨?_, hord, ?_⟩
  · rintro hhigh rfl tmp htmp
    have hz : ((insqForce q mp).msg mp).band.toNat = 0 := by
      rw [force_of_high hhigh]
      rfl
    have hcls : queclass ((insqForce q mp).msg mp) ≠ QNORM := by
      rw [queclass_of_high (by rw [force_type]; exact hhigh)]
      decide
    have hbad : insqBadord (insqForce q mp) none mp = false := by
      simp [insqBadord, hcls]
    obtain ⟨ok, q', heq, hin⟩ := hout
    rw [insq_eq h.bands] at heq
    simp only [hbad, false_eq_true, if_false, hz, zero_le, if_true, some.injEq, Prod.mk.injEq] at heq
    rcases hin with ⟨hno, -⟩ | ⟨-, hmsg, -, pre, post, rfl, hhead, hq'⟩
    · rw [hno] at heq
      cases heq.1
    obtain rfl := head?_eq_none_iff.mp hhead
    have hmem : tmp ∈ pre ++ [] := mem_of_getLast? (h.linked.last ▸ htmp)
    rw [append_nil] at hmem
    have hrank := (hq'.rank_of_inserted hmsg).1 tmp hmem
    have hrm : q.rank mp = 256 := rank_of_high hhigh
    exact Msg.high_iff_rank.mpr (le_antisymm (rank_le _) (hrm ▸ hrank))
  · intro hmp hlt hprev hlast
    have hbad : insqBadord q emp mp = false := by
      refine badord_of_front hmp ?_ hprev hlast
      intro e he
      have := h.band_le e (hemp e he)
      omega
    exact avail_of_inOrder h hmp hbad hout hlt

/-- On a queue in order, for a message on it or none and a new message, `insq` refuses the new message and
leaves the queue alone or puts it before the other with the queue still in order, just when its caller sees to
what the checks leave out. -/
theorem insq_inOrder_iff (h : Ordered q l) (hemp : ∀ e ∈ emp, e ∈ l) (hmp : mp ∉ l) (avail : Nat) :
    (∃ ok q', insq avail q emp mp = some (ok, q') ∧ InOrder q l emp mp ok q') ↔ Insertable avail q emp mp := by
  refine ⟨insertable_of_inOrder h hemp, ?_⟩
  intro hi
  have hsplit : ∃ pre post, l = pre ++ post ∧ post.head? = emp := by
    cases emp with
    | none => exact ⟨l, [], by simp, rfl⟩
    | some e =>
      obtain ⟨pre, post, rfl⟩ := append_of_mem (hemp e rfl)
      exact ⟨pre, e :: post, rfl, rfl⟩
  obtain ⟨pre, post, rfl, rfl⟩ := hsplit
  exact insq_inOrder h hmp hi

end Outcome

section Concrete

lemma notMem_append {d : Classes} {k₀ : Nat} {p x : MsgPtr} (h : ∀ k, p ∉ d k) (hne : p ≠ x) :
    ∀ k, p ∉ d.append k₀ x k := by
  intro k
  unfold Classes.append
  by_cases hk : k = k₀
  · subst hk
    rw [Function.update_self]
    exact fun hp => (mem_append.mp hp).elim (h k) fun hx => hne (mem_singleton.mp hx)
  · rw [Function.update_of_ne hk]
    exact h k

/-- On the queue a message of high priority, one of band 2 and one of band 0, and off it another of high priority. -/
theorem reaches_banded : ∃ q d, Reaches (openQueue 4) q d ∧ (∀ k, 7 ∉ d k) ∧ 8 ∈ d 256 ∧ 5 ∈ d 2 ∧ q.last = some 6 ∧
    q.msg 6 = ⟨0, 0, false, [4]⟩ ∧ q.msg 7 = ⟨0, 0x83, false, [3]⟩ := by
  have h8 : ∀ k, 8 ∉ (fun _ => [] : Classes) k := fun _ => not_mem_nil
  have h5 : ∀ k, 5 ∉ Classes.append (fun _ => []) 256 8 k := notMem_append (fun _ => not_mem_nil) (by decide)
  have h6 : ∀ k, 6 ∉ (Classes.append (fun _ => []) 256 8).append 2 5 k :=
    notMem_append (notMem_append (fun _ => not_mem_nil) (by decide)) (by decide)
  refine ⟨_, _, .next (.putq 6 0) (.next (.putq 5 2) (.next (.putq 8 0) (.next (.write 8 ⟨0, 0x89, false, [9]⟩ none none)
    (.next (.write 5 ⟨2, 0, false, [1, 2]⟩ none none) (.next (.write 6 ⟨0, 0, false, [4]⟩ none none)
      (.next (.write 7 ⟨0, 0x83, false, [3]⟩ none none) .start (fun _ => not_mem_nil) rfl) (fun _ => not_mem_nil) rfl)
        (fun _ => not_mem_nil) rfl) (fun _ => not_mem_nil) rfl) ⟨h8, rfl⟩ rfl) ⟨h5, rfl⟩ rfl) ⟨h6, rfl⟩ rfl,
    notMem_append (notMem_append (notMem_append (fun _ => not_mem_nil) (by decide)) (by decide)) (by decide),
    ?_, ?_, rfl, rfl, rfl⟩
  · decide
  · decide

theorem insq_inOrder_iff_before : ∃ q l, Ordered q l ∧ 8 ∈ l ∧ 5 ∈ l ∧ 6 ∈ l ∧ 7 ∉ l ∧
    ((∃ ok q', insq 0 q (some 5) 7 = some (ok, q') ∧ InOrder q l (some 5) 7 ok q') ↔ Insertable 0 q (some 5) 7) ∧
      Insertable 0 q (some 5) 7 := by
  obtain ⟨q, d, hr, h7, h8, h5, hlast, hm6, hm7⟩ := reaches_banded
  obtain ⟨l, hq, hd⟩ := reaches_holds (openQueue_empty 4) hr
  have h8l : 8 ∈ l := (mem_filter.mp (hd 256 ▸ h8)).1
  have h5l : 5 ∈ l := (mem_filter.mp (hd 2 ▸ h5)).1
  have h6l : 6 ∈ l := mem_of_getLast? (hq.linked.last ▸ hlast)
  have h7l : 7 ∉ l := notMem_of_classes hd h7
  have hemp : ∀ e ∈ some 5, e ∈ l := by
    intro e he
    obtain rfl : 5 = e := some.inj he
    exact h5l
  refine ⟨q, l, hq.ordered, h8l, h5l, h6l, h7l, insq_inOrder_iff hq.ordered hemp h7l 0, ?_, ?_, ?_⟩
  · simp
  · intro hno
    rw [hm7] at hno
    exact absurd (by decide) hno
  · intro hno
    rw [hm7] at hno
    exact absurd (by decide) hno

/-- At the end of the queue the message of high priority goes in behind the others. -/
theorem insq_out_of_order : ¬∀ (avail : Nat) (q : Queue) (l : List MsgPtr) (emp : Option MsgPtr) (mp : MsgPtr),
    Ordered q l → (∀ e ∈ emp, e ∈ l) → mp ∉ l →
      ∃ ok q', insq avail q emp mp = some (ok, q') ∧ InOrder q l emp mp ok q' := by
  intro hall
  obtain ⟨q, d, hr, h7, -, -, hlast, hm6, hm7⟩ := reaches_banded
  obtain ⟨l, hq, hd⟩ := reaches_holds (openQueue_empty 4) hr
  have hi := insertable_of_inOrder hq.ordered (by simp) (hall 0 q l none 7 hq.ordered (by simp) (notMem_of_classes hd h7))
  have hhigh : QPCTL ≤ (q.msg 7).type := by
    rw [hm7]
    decide
  have hno := hi.high hhigh rfl 6 hlast
  rw [hm6] at hno
  exact absurd hno (by decide)

end Concrete

end Solaris.Stream
