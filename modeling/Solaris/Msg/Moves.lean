import Solaris.Msg.Conserve

/-!
# Messages leave and join a queue

`msgfree` takes a message off its queue, gives its segments back and puts its header on the free list. `msgsnd` puts
a message at the end of its queue, with the segments it holds.
-/

namespace Solaris.Msg

open Lib List Function

variable {p : Params} {s : Msgs} {place : Nat → Place} {seg : Nat → SegPlace} {free : List Nat}
  {lists : Nat → List Nat} {q x : Nat}

section Unlink

lemma unlink_msgh (s : Msgs) (q : Nat) (pmp : Option Nat) (x y : Nat) :
    ((unlink s q pmp x).msgh y).next = if pmp = some y then (s.msgh x).next else (s.msgh y).next := by
  unfold unlink
  cases pmp with
  | none => simp [Msgs.setQueue]
  | some z =>
    by_cases hy : y = z
    · subst hy
      simp [Msgs.setQueue, Msgs.setNext, Msgs.setHeader]
    · have : z ≠ y := fun h => hy h.symm
      simp [Msgs.setQueue, Msgs.setNext, Msgs.setHeader, hy, this]

lemma unlink_text (s : Msgs) (q : Nat) (pmp : Option Nat) (x : Nat) : SameText s (unlink s q pmp x) := by
  unfold unlink
  cases pmp with
  | none => exact ⟨fun _ => rfl, fun _ => rfl, fun _ => rfl⟩
  | some z =>
    have h := sameText_setNext s z (s.msgh x).next
    exact ⟨h.ts, h.spot, h.type⟩

lemma unlink_queue (s : Msgs) (q : Nat) (pmp : Option Nat) (x : Nat) :
    (unlink s q pmp x).msgque q =
      { s.msgque q with
        first := if pmp = none then (s.msgh x).next else (s.msgque q).first
        last := if (s.msgh x).next = none then pmp else (s.msgque q).last
        qnum := (s.msgque q).qnum - 1
        wwait := false } := by
  unfold unlink
  cases pmp with
  | none => simp [Msgs.setQueue]
  | some z => simp [Msgs.setQueue, Msgs.setNext, Msgs.setHeader]

lemma unlink_queue_ne (s : Msgs) {q q' : Nat} (hne : q' ≠ q) (pmp : Option Nat) (x : Nat) :
    (unlink s q pmp x).msgque q' = s.msgque q' := by
  unfold unlink
  cases pmp with
  | none => simp [Msgs.setQueue, hne]
  | some z => simp [Msgs.setQueue, Msgs.setNext, Msgs.setHeader, hne]

lemma unlink_fixed (s : Msgs) (q : Nat) (pmp : Option Nat) (x : Nat) :
    (unlink s q pmp x).msgfp = s.msgfp ∧ (unlink s q pmp x).segFree = s.segFree := by
  unfold unlink
  cases pmp with
  | none => exact ⟨rfl, rfl⟩
  | some z => exact ⟨rfl, rfl⟩

variable {pre post : List Nat}

lemma unlink_keeps (hl : lists q = pre ++ x :: post) {y : Nat} (hy : y ∉ lists q) :
    ((unlink s q pre.getLast? x).msgh y).next = (s.msgh y).next := by
  rw [unlink_msgh, if_neg]
  intro heq
  apply hy
  rw [hl]
  exact mem_append_left _ (mem_of_getLast? heq)

lemma chain_unlink (hchain : Chain (s.slots q) id (pre ++ x :: post)) (hnd : (pre ++ x :: post).Nodup) :
    Chain ((unlink s q pre.getLast? x).slots q) id (pre ++ post) := by
  have hnext : (s.msgh x).next = post.head? := hchain.next
  refine hchain.remove hnd ?_ ?_
  · cases hlp : pre.getLast? with
    | none => simp [Msgs.slots, unlink_queue, hnext]
    | some y => simp [Msgs.slots, unlink_msgh, hnext]
  · intro o _ hop
    cases o with
    | none =>
      simp only [Msgs.slots, unlink_queue]
      rw [if_neg fun heq => hop heq.symm]
    | some y =>
      simp only [Msgs.slots, unlink_msgh]
      rw [if_neg fun heq => hop heq.symm]

lemma last_unlink (hchain : Chain (s.slots q) id (pre ++ x :: post))
    (hlast : (s.msgque q).last = (pre ++ x :: post).getLast?) :
    ((unlink s q pre.getLast? x).msgque q).last = (pre ++ post).getLast? := by
  have hnext : (s.msgh x).next = post.head? := hchain.next
  rw [unlink_queue, hnext]
  cases post with
  | nil => simp
  | cons z post =>
    simp only [head?_cons, reduceCtorEq, if_false, hlast]
    simp [getLast?_append, getLast?_cons]

lemma Linked.unlink (h : Linked s free lists) (hp : Placed p place free lists) (hl : lists q = pre ++ x :: post) :
    Linked (Msg.unlink s q pre.getLast? x) free (update lists q (pre ++ post)) := by
  have hnd := h.nodup q
  have hchain := h.chain q
  have hlast := h.last q
  have hqnum := h.qnum q
  rw [hl] at hnd hchain hlast hqnum
  refine ⟨?_, ?_, ?_, h.nodupFree, ?_, ?_, ?_⟩
  · refine h.freeChain.congr (unlink_fixed s q _ x).1 ?_
    intro y hy
    exact unlink_keeps hl fun hq => hp.not_mem_free hq hy
  · intro q'
    by_cases hq : q' = q
    · subst hq
      rw [update_self]
      exact chain_unlink hchain hnd
    · rw [update_of_ne hq]
      refine (h.chain q').congr ?_ ?_
      · simp only [Msgs.slots, unlink_queue_ne s hq]
      · intro y hy
        exact unlink_keeps hl fun hyq => hq (hp.queue_unique hy hyq)
  · intro q'
    by_cases hq : q' = q
    · subst hq
      rw [update_self]
      exact last_unlink hchain hlast
    · rw [update_of_ne hq, unlink_queue_ne s hq]
      exact h.last q'
  · intro q'
    by_cases hq : q' = q
    · subst hq
      rw [update_self]
      exact hnd.sublist (List.Sublist.append_left (sublist_cons_self x post) pre)
    · rw [update_of_ne hq]
      exact h.nodup q'
  · intro q'
    by_cases hq : q' = q
    · subst hq
      rw [update_self, unlink_queue]
      simp only [hqnum, length_append, length_cons]
      omega
    · rw [update_of_ne hq, unlink_queue_ne s hq]
      exact h.qnum q'
  · intro q' ha
    by_cases hq : q' = q
    · subst hq
      rw [unlink_queue] at ha
      have hnil := h.unused q' ha
      rw [hl] at hnil
      simp at hnil
    · rw [unlink_queue_ne s hq] at ha
      rw [update_of_ne hq]
      exact h.unused q' ha

lemma Placed.unlink (h : Placed p place free lists) (hnd : (lists q).Nodup) (hl : lists q = pre ++ x :: post) :
    Placed p (update place x .held) free (update lists q (pre ++ post)) := by
  have hmem : x ∈ lists q := by
    rw [hl]
    simp
  rw [hl] at hnd
  have hx : x ∉ pre ++ post := (nodup_cons.mp (hnd.perm perm_middle)).1
  refine ⟨?_, ?_⟩
  · intro z
    by_cases hzx : z = x
    · subst hzx
      simp [h.not_mem_free hmem]
    · rw [update_of_ne hzx]
      exact h.free z
  · intro q' z
    by_cases hzx : z = x
    · subst hzx
      rw [update_self]
      by_cases hq : q' = q
      · subst hq
        simpa using hx
      · rw [update_of_ne hq]
        simp only [reduceCtorEq, and_false, iff_false]
        exact fun hz => hq (h.queue_unique hz hmem)
    rw [update_of_ne hzx]
    by_cases hq : q' = q
    · subst hq
      rw [update_self, ← h.queue q' z, hl]
      simp [hzx]
    · rw [update_of_ne hq]
      exact h.queue q' z

lemma mem_lists_of_unlink (hl : lists q = pre ++ x :: post) {y q' : Nat} (hy : y ∈ update lists q (pre ++ post) q') :
    y ∈ lists q' := by
  by_cases hq : q' = q
  · subst hq
    rw [update_self] at hy
    rw [hl]
    rcases mem_append.mp hy with hy | hy
    · exact mem_append_left _ hy
    · exact mem_append_right _ (mem_cons_of_mem _ hy)
  · rwa [update_of_ne hq] at hy

lemma Segmented.unlink (h : Segmented p s seg lists) (hp : Placed p place free lists) (hnd : (lists q).Nodup)
    (hl : lists q = pre ++ x :: post) :
    Segmented p (Msg.unlink s q pre.getLast? x) (relocate seg (.msg x) .held) (update lists q (pre ++ post)) := by
  have hx : ∀ q', x ∉ update lists q (pre ++ post) q' :=
    ((hp.unlink hnd hl).held_not_mem (update_self ..)).2
  refine ⟨?_, ?_, ?_⟩
  · intro i
    rw [(unlink_fixed s q _ x).2, h.free]
    unfold relocate
    by_cases hi : seg i = .msg x
    · simp [hi]
    · simp [hi]
  · intro q' y i hy
    have hne : y ≠ x := by
      rintro rfl
      exact hx q' hy
    rw [(unlink_text s q _ x).owns, h.owned q' y i (mem_lists_of_unlink hl hy)]
    unfold relocate
    by_cases hi : seg i = .msg x
    · simp [hi, hne.symm]
    · simp [hi]
  · intro i y hlt hseg
    unfold relocate at hseg
    split at hseg
    · cases hseg
    rename_i hne
    obtain ⟨q', hy⟩ := h.queued i y hlt hseg
    refine ⟨q', ?_⟩
    by_cases hq : q' = q
    · subst hq
      rw [hl] at hy
      have hyx : y ≠ x := by
        rintro rfl
        exact hne hseg
      simpa [hyx] using hy
    · rwa [update_of_ne hq]

lemma Conserved.unlink (h : Conserved p s place seg free lists) (hl : lists q = pre ++ x :: post) :
    Conserved p (Msg.unlink s q pre.getLast? x) (update place x .held) (relocate seg (.msg x) .held) free
      (update lists q (pre ++ post)) :=
  ⟨h.linked.unlink h.placed hl, h.placed.unlink (h.linked.nodup q) hl, h.segs.unlink h.placed (h.linked.nodup q) hl⟩

end Unlink

section Free

variable {pre post : List Nat}

lemma Conserved.free_msg (h : Conserved p s place seg free lists) (hnone : ∀ i, seg i ≠ .held)
    (hl : lists q = pre ++ x :: post) :
    ∃ place' seg', Conserved p (msgfree p s q pre.getLast? x) place' seg' (x :: free) (update lists q (pre ++ post)) ∧
      (∀ i, seg' i ≠ .held) ∧ (∀ y, y ≠ x → place' y = place y) ∧ place' x = .free := by
  have hmem : x ∈ lists q := by
    rw [hl]
    simp
  have hlt := ((h.placed.queue q x).mp hmem).1
  have hu := h.unlink hl
  have htext := unlink_text s q pre.getLast? x
  -- the segments that are held now are those that the message owned
  have hheld : ∀ i, (i < p.msgseg ∧ relocate seg (.msg x) .held i = .held) ↔ s.Owns p x i := by
    intro i
    rw [h.segs.owned q x i hmem]
    unfold relocate
    by_cases hi : seg i = .msg x
    · simp [hi]
    · simp [hi, hnone i]
  have hfree : Conserved p (freeText p (Msg.unlink s q pre.getLast? x) x) (update place x .held)
      (relocate (relocate seg (.msg x) .held) .held .free) free (update lists q (pre ++ post)) := by
    unfold freeText
    rw [htext.ts, htext.spot]
    split
    · rename_i hts
      refine hu.giveSegs ?_
      intro i
      rw [hheld i, Msgs.Owns]
      simp [hts]
    · rename_i hts
      -- a message without text owns nothing
      refine ⟨hu.linked, hu.placed, hu.segs.congr_seg ?_⟩
      intro i hi
      exact relocate_of_ne fun heq => hts ((hheld i).mp ⟨hi, heq⟩).1
  refine ⟨update (update place x .held) x .free, _, hfree.put (update_self ..) hlt, ?_, ?_,
    update_self ..⟩
  · exact relocate_ne (by simp)
  · intro y hy
    rw [update_of_ne hy, update_of_ne hy]

theorem msgfree_text (p : Params) (s : Msgs) (q : Nat) (pmp : Option Nat) (x : Nat) : SameText s (msgfree p s q pmp x) := by
  have h1 := unlink_text s q pmp x
  have h2 : SameText (unlink s q pmp x) (freeText p (unlink s q pmp x) x) := by
    unfold freeText
    split <;> exact ⟨fun _ => rfl, fun _ => rfl, fun _ => rfl⟩
  exact (h1.trans h2).trans (sameText_putHeader _ x)

lemma msgfree_msgque (p : Params) (s : Msgs) (q : Nat) (pmp : Option Nat) (x : Nat) :
    (msgfree p s q pmp x).msgque = (unlink s q pmp x).msgque := by
  unfold msgfree freeText
  split <;> rfl

end Free

section Enqueue

variable {a : SendArgs} {spot : Int}

lemma enqueue_self (hlast : (s.msgque q).last ≠ some x) :
    (enqueue s q x a spot).msgh x = ⟨none, a.type, a.cnt % 65536, spot⟩ := by
  simp only [enqueue]
  generalize hl : (s.msgque q).last = last at hlast
  cases last with
  | none => simp [linkLast, Msgs.setQueue, Msgs.setHeader]
  | some z =>
    have hz : x ≠ z := by
      rintro rfl
      exact hlast rfl
    simp [linkLast, Msgs.setQueue, Msgs.setNext, Msgs.setHeader, hz]

lemma enqueue_other {y : Nat} (hy : y ≠ x) :
    (enqueue s q x a spot).msgh y =
      { s.msgh y with next := if (s.msgque q).last = some y then some x else (s.msgh y).next } := by
  simp only [enqueue]
  generalize hl : (s.msgque q).last = last
  cases last with
  | none => simp [linkLast, Msgs.setQueue, Msgs.setHeader, hy]
  | some z =>
    by_cases hz : y = z
    · subst hz
      simp [linkLast, Msgs.setQueue, Msgs.setNext, Msgs.setHeader, hy]
    · simp [linkLast, Msgs.setQueue, Msgs.setNext, Msgs.setHeader, hy, hz, Ne.symm hz]

lemma enqueue_queue (s : Msgs) (q x : Nat) (a : SendArgs) (spot : Int) :
    (enqueue s q x a spot).msgque q =
      { s.msgque q with
        qnum := (s.msgque q).qnum + 1
        cbytes := (s.msgque q).cbytes + a.cnt
        first := if (s.msgque q).last = none then some x else (s.msgque q).first
        last := some x
        rwait := false } := by
  simp only [enqueue]
  simp [Msgs.setQueue]

lemma enqueue_queue_ne (s : Msgs) {q q' : Nat} (hne : q' ≠ q) (x : Nat) (a : SendArgs) (spot : Int) :
    (enqueue s q x a spot).msgque q' = s.msgque q' := by
  simp only [enqueue]
  cases (s.msgque q).last with
  | none => simp [linkLast, Msgs.setQueue, Msgs.setHeader, hne]
  | some z => simp [linkLast, Msgs.setQueue, Msgs.setNext, Msgs.setHeader, hne]

lemma enqueue_fixed (s : Msgs) (q x : Nat) (a : SendArgs) (spot : Int) :
    (enqueue s q x a spot).msgfp = s.msgfp ∧ (enqueue s q x a spot).segFree = s.segFree := by
  simp only [enqueue]
  cases (s.msgque q).last with
  | none => exact ⟨rfl, rfl⟩
  | some z => exact ⟨rfl, rfl⟩

lemma chain_enqueue {l : List Nat} (hchain : Chain (s.slots q) id l) (hnd : (l ++ [x]).Nodup)
    (hlast : (s.msgque q).last = l.getLast?) : Chain ((enqueue s q x a spot).slots q) id (l ++ [x]) := by
  have hx : x ∉ l := by
    have := (nodup_append.mp hnd).2.2
    exact fun hx => this x hx x (mem_singleton.mpr rfl) rfl
  have hne : (s.msgque q).last ≠ some x := by
    rw [hlast]
    exact fun heq => hx (mem_of_getLast? heq)
  have hchain' : Chain (s.slots q) id (l ++ []) := by rwa [append_nil]
  refine hchain'.insert hnd ?_ ?_ ?_
  · simp [Msgs.slots, enqueue_self hne]
  · cases hl : l.getLast? with
    | none => simp [Msgs.slots, enqueue_queue, hlast, hl]
    | some y =>
      have hy : y ≠ x := by
        rintro rfl
        exact hx (mem_of_getLast? hl)
      simp [Msgs.slots, enqueue_other hy, hlast, hl]
  · intro o hox hol
    cases o with
    | none =>
      simp only [Msgs.slots, enqueue_queue, hlast]
      rw [if_neg fun heq => hol heq.symm]
    | some y =>
      have hy : y ≠ x := fun heq => hox (by rw [heq])
      simp only [Msgs.slots, enqueue_other hy, hlast]
      rw [if_neg fun heq => hol heq.symm]

lemma Linked.enqueue (h : Linked s free lists) (hp : Placed p place free lists) (hx : place x = .held)
    (halloc : (s.msgque q).alloc = true) :
    Linked (Msg.enqueue s q x a spot) free (update lists q (lists q ++ [x])) := by
  obtain ⟨hnf, hnq⟩ := hp.held_not_mem hx
  have hnd : (lists q ++ [x]).Nodup := by
    rw [nodup_append]
    refine ⟨h.nodup q, nodup_singleton x, ?_⟩
    intro y hy z hz heq
    rw [mem_singleton.mp hz] at heq
    exact hnq q (heq ▸ hy)
  have hkeep : ∀ y, y ≠ x → y ∉ lists q → ((Msg.enqueue s q x a spot).msgh y).next = (s.msgh y).next := by
    intro y hyx hyq
    rw [enqueue_other hyx, h.last]
    rw [if_neg fun heq => hyq (mem_of_getLast? heq)]
  refine ⟨?_, ?_, ?_, h.nodupFree, ?_, ?_, ?_⟩
  · refine h.freeChain.congr (enqueue_fixed ..).1 ?_
    intro y hy
    refine hkeep y ?_ fun hyq => hp.not_mem_free hyq hy
    rintro rfl
    exact hnf hy
  · intro q'
    by_cases hq : q' = q
    · subst hq
      rw [update_self]
      exact chain_enqueue (h.chain q') hnd (h.last q')
    rw [update_of_ne hq]
    refine (h.chain q').congr ?_ ?_
    · simp only [Msgs.slots, enqueue_queue_ne s hq]
    · intro y hy
      refine hkeep y ?_ fun hyq => hq (hp.queue_unique hy hyq)
      rintro rfl
      exact hnq q' hy
  · intro q'
    by_cases hq : q' = q
    · subst hq
      rw [update_self, enqueue_queue]
      simp
    · rw [update_of_ne hq, enqueue_queue_ne s hq]
      exact h.last q'
  · intro q'
    by_cases hq : q' = q
    · subst hq
      rwa [update_self]
    · rw [update_of_ne hq]
      exact h.nodup q'
  · intro q'
    by_cases hq : q' = q
    · subst hq
      rw [update_self, enqueue_queue]
      simp [h.qnum]
    · rw [update_of_ne hq, enqueue_queue_ne s hq]
      exact h.qnum q'
  · intro q' ha
    by_cases hq : q' = q
    · subst hq
      rw [enqueue_queue] at ha
      rw [halloc] at ha
      cases ha
    · rw [enqueue_queue_ne s hq] at ha
      rw [update_of_ne hq]
      exact h.unused q' ha

lemma Placed.enqueue (h : Placed p place free lists) (hx : place x = .held) (hlt : x < p.msgtql) :
    Placed p (update place x (.queue q)) free (update lists q (lists q ++ [x])) := by
  obtain ⟨hnf, hnq⟩ := h.held_not_mem hx
  refine ⟨?_, ?_⟩
  · intro z
    by_cases hzx : z = x
    · subst hzx
      simp [hnf]
    · rw [update_of_ne hzx]
      exact h.free z
  · intro q' z
    by_cases hzx : z = x
    · subst hzx
      by_cases hq : q' = q
      · subst hq
        simp [hlt]
      · rw [update_of_ne hq]
        simp [hnq q', Ne.symm hq]
    · rw [update_of_ne hzx, ← h.queue q' z]
      by_cases hq : q' = q
      · subst hq
        simp [hzx]
      · rw [update_of_ne hq]

def textRange (p : Params) (cnt : Nat) (spot : Int) (i : Nat) : Prop :=
  cnt ≠ 0 ∧ spot.toNat ≤ i ∧ i < spot.toNat + btoq p cnt

lemma Segmented.enqueue (h : Segmented p s seg lists) (hp : Placed p place free lists) (hx : place x = .held)
    (hlast : (s.msgque q).last = (lists q).getLast?)
    (hheld : ∀ i, (i < p.msgseg ∧ seg i = .held) ↔ textRange p a.cnt spot i) :
    Segmented p (Msg.enqueue s q x a spot) (relocate seg .held (.msg x)) (update lists q (lists q ++ [x])) := by
  obtain ⟨hnf, hnq⟩ := hp.held_not_mem hx
  have hne : (s.msgque q).last ≠ some x := by
    rw [hlast]
    exact fun heq => hnq q (mem_of_getLast? heq)
  have hmod : a.cnt % 65536 = a.cnt := Nat.mod_eq_of_lt (Nat.lt_succ_of_le a.small)
  have hnone : ∀ i, i < p.msgseg → seg i ≠ .msg x := by
    intro i hi heq
    obtain ⟨q', hq'⟩ := h.queued i x hi heq
    exact hnq q' hq'
  refine ⟨?_, ?_, ?_⟩
  · intro i
    rw [(enqueue_fixed s q x a spot).2, h.free]
    unfold relocate
    by_cases hi : seg i = .held
    · simp [hi]
    · simp [hi]
  · intro q' y i hy
    by_cases hyx : y = x
    · subst hyx
      have hown : (Msg.enqueue s q y a spot).Owns p y i ↔ textRange p a.cnt spot i := by
        unfold Msgs.Owns textRange
        rw [enqueue_self hne, hmod]
      rw [hown, ← hheld i]
      refine and_congr_right fun hi => ?_
      unfold relocate
      by_cases hh : seg i = .held
      · simp [hh]
      · simp [hh, hnone i hi]
    · have hyq : y ∈ lists q' := by
        by_cases hq : q' = q
        · subst hq
          simpa [hyx] using hy
        · rwa [update_of_ne hq] at hy
      have hown : (Msg.enqueue s q x a spot).Owns p y i ↔ s.Owns p y i := by
        unfold Msgs.Owns
        rw [enqueue_other hyx]
      rw [hown, h.owned q' y i hyq]
      unfold relocate
      by_cases hh : seg i = .held
      · simp [hh, Ne.symm hyx]
      · simp [hh]
  · intro i y hi hseg
    unfold relocate at hseg
    split at hseg
    · cases hseg
      exact ⟨q, by simp⟩
    obtain ⟨q', hy⟩ := h.queued i y hi hseg
    refine ⟨q', ?_⟩
    by_cases hq : q' = q
    · subst hq
      rw [update_self]
      exact mem_append_left _ hy
    · rwa [update_of_ne hq]

lemma Conserved.enqueue (h : Conserved p s place seg free lists) (hx : place x = .held) (hlt : x < p.msgtql)
    (halloc : (s.msgque q).alloc = true) (hheld : ∀ i, (i < p.msgseg ∧ seg i = .held) ↔ textRange p a.cnt spot i) :
    Conserved p (Msg.enqueue s q x a spot) (update place x (.queue q)) (relocate seg .held (.msg x)) free
      (update lists q (lists q ++ [x])) :=
  ⟨h.linked.enqueue h.placed hx halloc, h.placed.enqueue hx hlt, h.segs.enqueue h.placed hx (h.linked.last q) hheld⟩

end Enqueue

end Solaris.Msg
