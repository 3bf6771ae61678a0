import Solaris.Msg.Queue
import Solaris.Lib.Chain

/-!
# Every header and every segment has one place

A header is on the free list, on one queue or in the hands of a running `msgsnd`; a segment is free, part of one
queued message or in the hands of a running `msgsnd`.
-/

namespace Solaris.Msg

open Lib Function List Function

section Places

inductive Place where
  | free
  | queue (q : Nat)
  | held

inductive SegPlace where
  | free
  | msg (x : Nat)
  | held
  deriving DecidableEq

namespace Msgs

variable (s : Msgs)

def freeSlots : Option Nat → Option Nat
  | none => s.msgfp
  | some x => (s.msgh x).next

def slots (q : Nat) : Option Nat → Option Nat
  | none => (s.msgque q).first
  | some x => (s.msgh x).next

def Owns (p : Params) (x i : Nat) : Prop :=
  (s.msgh x).ts ≠ 0 ∧ (s.msgh x).spot.toNat ≤ i ∧ i < (s.msgh x).spot.toNat + btoq p (s.msgh x).ts

end Msgs

structure Linked (s : Msgs) (free : List Nat) (lists : Nat → List Nat) : Prop where
  freeChain : Chain s.freeSlots id free
  chain : ∀ q, Chain (s.slots q) id (lists q)
  last : ∀ q, (s.msgque q).last = (lists q).getLast?
  nodupFree : free.Nodup
  nodup : ∀ q, (lists q).Nodup
  qnum : ∀ q, (s.msgque q).qnum = (lists q).length
  unused : ∀ q, (s.msgque q).alloc = false → lists q = []

structure Placed (p : Params) (place : Nat → Place) (free : List Nat) (lists : Nat → List Nat) : Prop where
  free : ∀ x, x ∈ free ↔ x < p.msgtql ∧ place x = .free
  queue : ∀ q x, x ∈ lists q ↔ x < p.msgtql ∧ place x = .queue q

structure Segmented (p : Params) (s : Msgs) (seg : Nat → SegPlace) (lists : Nat → List Nat) : Prop where
  free : ∀ i, s.segFree i = true ↔ i < p.msgseg ∧ seg i = .free
  owned : ∀ q x i, x ∈ lists q → (s.Owns p x i ↔ i < p.msgseg ∧ seg i = .msg x)
  queued : ∀ i x, i < p.msgseg → seg i = .msg x → ∃ q, x ∈ lists q

structure Conserved (p : Params) (s : Msgs) (place : Nat → Place) (seg : Nat → SegPlace) (free : List Nat)
    (lists : Nat → List Nat) : Prop where
  linked : Linked s free lists
  placed : Placed p place free lists
  segs : Segmented p s seg lists

/-- The count of bytes of a queue is that of its messages. -/
def CountsBytes (s : Msgs) (lists : Nat → List Nat) (q : Nat) : Prop :=
  (s.msgque q).cbytes = ((lists q).map fun x => (s.msgh x).ts).sum

variable {p : Params} {s s' : Msgs} {place : Nat → Place} {seg : Nat → SegPlace} {free : List Nat}
  {lists : Nat → List Nat} {q x : Nat}

lemma Placed.not_mem_free (h : Placed p place free lists) (hx : x ∈ lists q) : x ∉ free := by
  intro hf
  have h1 := ((h.free x).mp hf).2
  have h2 := ((h.queue q x).mp hx).2
  rw [h1] at h2
  cases h2

lemma Placed.queue_unique (h : Placed p place free lists) {q' : Nat} (hx : x ∈ lists q) (hx' : x ∈ lists q') :
    q = q' := by
  have h1 := ((h.queue q x).mp hx).2
  have h2 := ((h.queue q' x).mp hx').2
  rw [h1] at h2
  cases h2
  rfl

lemma Placed.held_not_mem (h : Placed p place free lists) (hx : place x = .held) : x ∉ free ∧ ∀ q, x ∉ lists q := by
  refine ⟨fun hf => ?_, fun q hq => ?_⟩
  · have := ((h.free x).mp hf).2
    rw [hx] at this
    cases this
  · have := ((h.queue q x).mp hq).2
    rw [hx] at this
    cases this

structure SameText (s s' : Msgs) : Prop where
  ts : ∀ x, (s'.msgh x).ts = (s.msgh x).ts
  spot : ∀ x, (s'.msgh x).spot = (s.msgh x).spot
  type : ∀ x, (s'.msgh x).type = (s.msgh x).type

lemma SameText.owns (h : SameText s s') (x i : Nat) : s'.Owns p x i ↔ s.Owns p x i := by
  unfold Msgs.Owns
  rw [h.ts, h.spot]

lemma SameText.trans {s'' : Msgs} (h : SameText s s') (h' : SameText s' s'') : SameText s s'' :=
  ⟨fun x => (h'.ts x).trans (h.ts x), fun x => (h'.spot x).trans (h.spot x), fun x => (h'.type x).trans (h.type x)⟩

lemma sameText_setNext (s : Msgs) (x : Nat) (next : Option Nat) : SameText s (s.setNext x next) := by
  refine ⟨fun y => ?_, fun y => ?_, fun y => ?_⟩ <;>
  · by_cases hy : y = x
    · subst hy
      simp [Msgs.setNext, Msgs.setHeader]
    · simp [Msgs.setNext, Msgs.setHeader, hy]

lemma sameText_putHeader (s : Msgs) (x : Nat) : SameText s (s.putHeader x) :=
  ⟨(sameText_setNext s x _).ts, (sameText_setNext s x _).spot, (sameText_setNext s x _).type⟩

lemma Segmented.congr (h : Segmented p s seg lists) (htext : SameText s s') (hfree : s'.segFree = s.segFree) :
    Segmented p s' seg lists := by
  refine ⟨?_, ?_, h.queued⟩
  · rw [hfree]
    exact h.free
  · intro q x i hx
    rw [htext.owns]
    exact h.owned q x i hx

end Places

section Headers

variable {p : Params} {s : Msgs} {place : Nat → Place} {seg : Nat → SegPlace} {free : List Nat}
  {lists : Nat → List Nat} {x : Nat}

lemma Linked.take (h : Linked s (x :: free) lists) : Linked (s.takeHeader x) free lists := by
  refine ⟨?_, h.chain, h.last, (nodup_cons.mp h.nodupFree).2, h.nodup, h.qnum, h.unused⟩
  have hchain : Chain s.freeSlots id ([] ++ x :: free) := h.freeChain
  refine hchain.remove h.nodupFree hchain.next ?_
  intro o _ hnone
  cases o with
  | none => exact absurd rfl hnone
  | some z => rfl

lemma Placed.takeFree (h : Placed p place (x :: free) lists) (hx : x ∉ free) :
    Placed p (update place x .held) free lists := by
  have hplace := ((h.free x).mp (mem_cons_self ..)).2
  refine ⟨?_, ?_⟩
  · intro z
    by_cases hzx : z = x
    · subst hzx
      simp [hx]
    · rw [update_of_ne hzx, ← h.free z, mem_cons]
      simp [hzx]
  · intro q z
    by_cases hzx : z = x
    · subst hzx
      rw [h.queue q z, hplace]
      simp
    · rw [update_of_ne hzx]
      exact h.queue q z

lemma Conserved.take (h : Conserved p s place seg free lists) (hfp : s.msgfp = some x) :
    ∃ free', free = x :: free' ∧ x < p.msgtql ∧
      Conserved p (s.takeHeader x) (update place x .held) seg free' lists := by
  have hhead := h.linked.freeChain.head
  rw [Msgs.freeSlots, hfp] at hhead
  cases free with
  | nil => cases hhead
  | cons y free' =>
    have hy : x = y := Option.some.inj hhead
    subst hy
    have hx := (nodup_cons.mp h.linked.nodupFree).1
    have hlt := ((h.placed.free x).mp (mem_cons_self ..)).1
    exact ⟨free', rfl, hlt, h.linked.take, h.placed.takeFree hx,
      h.segs.congr ⟨fun _ => rfl, fun _ => rfl, fun _ => rfl⟩ rfl⟩

lemma Linked.put (h : Linked s free lists) (hnf : x ∉ free) (hnq : ∀ q, x ∉ lists q) :
    Linked (s.putHeader x) (x :: free) lists := by
  have hnext : ∀ y, y ≠ x → ((s.putHeader x).msgh y).next = (s.msgh y).next := by
    intro y hy
    simp [Msgs.putHeader, Msgs.setNext, Msgs.setHeader, hy]
  have hnd : (x :: free).Nodup := nodup_cons.mpr ⟨hnf, h.nodupFree⟩
  refine ⟨?_, ?_, h.last, hnd, h.nodup, h.qnum, h.unused⟩
  · have hchain : Chain s.freeSlots id ([] ++ free) := h.freeChain
    refine hchain.insert hnd ?_ rfl ?_
    · have := h.freeChain.head
      simpa [Msgs.freeSlots, Msgs.putHeader, Msgs.setNext, Msgs.setHeader] using this
    · intro o hne hnone
      cases o with
      | none => exact absurd rfl hnone
      | some z => exact hnext z fun heq => hne (by rw [heq])
  · intro q
    refine (h.chain q).congr rfl ?_
    intro y hy
    refine hnext y ?_
    rintro rfl
    exact hnq q hy

lemma Placed.putFree (h : Placed p place free lists) (hlt : x < p.msgtql) (hnq : ∀ q, x ∉ lists q) :
    Placed p (update place x .free) (x :: free) lists := by
  refine ⟨?_, ?_⟩
  · intro z
    by_cases hzx : z = x
    · subst hzx
      simp [hlt]
    · rw [update_of_ne hzx, ← h.free z, mem_cons]
      simp [hzx]
  · intro q z
    by_cases hzx : z = x
    · subst hzx
      simp [hnq q]
    · rw [update_of_ne hzx]
      exact h.queue q z

lemma Conserved.put (h : Conserved p s place seg free lists) (hx : place x = .held) (hlt : x < p.msgtql) :
    Conserved p (s.putHeader x) (update place x .free) seg (x :: free) lists := by
  obtain ⟨hnf, hnq⟩ := h.placed.held_not_mem hx
  exact ⟨h.linked.put hnf hnq, h.placed.putFree hlt hnq, h.segs.congr (sameText_putHeader s x) rfl⟩

end Headers

section Segments

variable {p : Params} {s : Msgs} {place : Nat → Place} {seg : Nat → SegPlace} {free : List Nat}
  {lists : Nat → List Nat}

def relocate (seg : Nat → SegPlace) (a b : SegPlace) : Nat → SegPlace := fun i => if seg i = a then b else seg i

lemma relocate_of_ne {a b : SegPlace} {i : Nat} (h : seg i ≠ a) : relocate seg a b i = seg i := if_neg h

lemma relocate_ne {a b : SegPlace} (h : b ≠ a) (i : Nat) : relocate seg a b i ≠ a := by
  unfold relocate
  split
  · exact h
  · assumption

lemma Segmented.congr_seg (h : Segmented p s seg lists) {seg' : Nat → SegPlace}
    (hseg : ∀ i, i < p.msgseg → seg' i = seg i) : Segmented p s seg' lists := by
  refine ⟨?_, ?_, ?_⟩
  · intro i
    rw [h.free i]
    exact and_congr_right fun hi => by rw [hseg i hi]
  · intro q x i hx
    rw [h.owned q x i hx]
    exact and_congr_right fun hi => by rw [hseg i hi]
  · intro i x hi hx
    rw [hseg i hi] at hx
    exact h.queued i x hi hx

def HoldsRange (p : Params) (seg : Nat → SegPlace) (first n : Nat) : Prop :=
  ∀ i, (i < p.msgseg ∧ seg i = .held) ↔ first ≤ i ∧ i < first + n

lemma Conserved.setSegs (h : Conserved p s place seg free lists) {seg' : Nat → SegPlace} {first n : Nat} {b : Bool}
    (hseg : Segmented p (s.setSegs first n b) seg' lists) : Conserved p (s.setSegs first n b) place seg' free lists :=
  ⟨⟨h.linked.freeChain, h.linked.chain, h.linked.last, h.linked.nodupFree, h.linked.nodup, h.linked.qnum, h.linked.unused⟩,
    h.placed, hseg⟩

lemma Conserved.takeSegs (h : Conserved p s place seg free lists) {first n : Nat}
    (hfree : ∀ i, first ≤ i → i < first + n → s.segFree i = true) (hnone : ∀ i, seg i ≠ .held) :
    ∃ seg', Conserved p (s.setSegs first n false) place seg' free lists ∧ HoldsRange p seg' first n ∧
      relocate seg' .held .free = seg := by
  have hin : ∀ i, first ≤ i ∧ i < first + n → i < p.msgseg ∧ seg i = .free := fun i hi =>
    (h.segs.free i).mp (hfree i hi.1 hi.2)
  refine ⟨fun i => if first ≤ i ∧ i < first + n then .held else seg i, h.setSegs ⟨?_, ?_, ?_⟩, ?_, ?_⟩
  · intro i
    by_cases hi : first ≤ i ∧ i < first + n
    · simp [Msgs.setSegs, hi]
    · simp only [Msgs.setSegs, if_neg hi]
      exact h.segs.free i
  · intro q x i hx
    have hown : (s.setSegs first n false).Owns p x i ↔ i < p.msgseg ∧ seg i = .msg x := h.segs.owned q x i hx
    rw [hown]
    by_cases hi : first ≤ i ∧ i < first + n
    · simp [hi, (hin i hi).2]
    · simp only [if_neg hi]
  · intro i x hlt hseg
    by_cases hi : first ≤ i ∧ i < first + n
    · simp only [if_pos hi] at hseg
      cases hseg
    · simp only [if_neg hi] at hseg
      exact h.segs.queued i x hlt hseg
  · intro i
    by_cases hi : first ≤ i ∧ i < first + n
    · simp [hi, (hin i hi).1]
    · simp [hi, hnone i]
  · funext i
    by_cases hi : first ≤ i ∧ i < first + n
    · simp [relocate, hi, (hin i hi).2]
    · simp [relocate, hi, hnone i]

lemma Conserved.giveSegs (h : Conserved p s place seg free lists) {first n : Nat} (hr : HoldsRange p seg first n) :
    Conserved p (s.setSegs first n true) place (relocate seg .held .free) free lists := by
  refine h.setSegs ⟨?_, ?_, ?_⟩
  · intro i
    simp only [Msgs.setSegs, relocate]
    by_cases hi : first ≤ i ∧ i < first + n
    · have := (hr i).mpr hi
      simp [hi, this.1, this.2]
    rw [if_neg hi]
    by_cases hheld : seg i = .held
    · have hge : ¬i < p.msgseg := fun hlt => hi ((hr i).mp ⟨hlt, hheld⟩)
      rw [h.segs.free]
      simp [hge]
    · rw [if_neg hheld]
      exact h.segs.free i
  · intro q x i hx
    have hown : (s.setSegs first n true).Owns p x i ↔ i < p.msgseg ∧ seg i = .msg x := h.segs.owned q x i hx
    rw [hown]
    unfold relocate
    by_cases hheld : seg i = .held
    · simp [hheld]
    · simp [hheld]
  · intro i x hi hseg
    unfold relocate at hseg
    split at hseg
    · cases hseg
    · exact h.segs.queued i x hi hseg

end Segments

end Solaris.Msg
