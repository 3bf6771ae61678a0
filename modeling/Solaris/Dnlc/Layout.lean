import Solaris.Lib.Ring
import Solaris.Dnlc.Cache

/-!
# The links of the cache

What the routines on links do to the circular list of a chain, and which links they leave alone.
-/

namespace Solaris.Dnlc

open Lib List Function

variable {s s' : Cache} {i j : Nat} {e x : EntId} {l m pre post : List EntId} {p : Ptr}

/-- The element `none` of a chain is its head. -/
def node (i : Nat) : Option EntId → Ptr
  | none => .head i
  | some e => .entry e

lemma node_inj {a b : Option EntId} : node i a = node i b ↔ a = b := by
  cases a <;> cases b <;> simp [node]

lemma node_eq_entry {a : Option EntId} : node i a = .entry e ↔ a = some e := by
  cases a <;> simp [node]

lemma node_eq_head {a : Option EntId} : node i a = .head j ↔ a = none ∧ i = j := by
  cases a <;> simp [node]

/-- The chain `i` is the circular list `l`. -/
def Chained (s : Cache) (i : Nat) (l : List EntId) : Prop := Circular (node i) s.hashNext s.hashPrev l

def OnChain (i : Nat) (l : List EntId) (p : Ptr) : Prop := ∃ a : Option EntId, (∀ x ∈ a, x ∈ l) ∧ p = node i a

lemma onChain_head : OnChain i l (.head i) := ⟨none, by simp, rfl⟩

lemma onChain_entry (hx : x ∈ l) : OnChain i l (.entry x) := ⟨some x, by simpa using hx, rfl⟩

lemma onChain_head_iff : OnChain i l (.head j) ↔ i = j := by
  constructor
  · rintro ⟨a, _, ha⟩
    exact (node_eq_head.mp ha.symm).2
  · rintro rfl
    exact onChain_head

lemma onChain_entry_iff : OnChain i l (.entry x) ↔ x ∈ l := by
  constructor
  · rintro ⟨a, hmem, ha⟩
    exact hmem x (node_eq_entry.mp ha.symm)
  · exact onChain_entry

lemma OnChain.mono (h : OnChain i l p) (hsub : l ⊆ m) : OnChain i m p := by
  obtain ⟨a, hmem, rfl⟩ := h
  exact ⟨a, fun x hx => hsub (hmem x hx), rfl⟩

/-- Only the links of the chain's own pointers have changed, and entries outside stay as they are. -/
structure Relinked (s s' : Cache) (i : Nat) (l l' : List EntId) : Prop where
  chained : Chained s' i l'
  next : ∀ p, ¬ OnChain i l p → s'.hashNext p = s.hashNext p
  prev : ∀ p, ¬ OnChain i l p → s'.hashPrev p = s.hashPrev p
  rest : ∃ hashNext hashPrev, s' = { s with hashNext := hashNext, hashPrev := hashPrev }

lemma Chained.apart (h : Chained s i l) (hnext : ∀ p, OnChain i l p → s'.hashNext p = s.hashNext p)
    (hprev : ∀ p, OnChain i l p → s'.hashPrev p = s.hashPrev p) : Chained s' i l :=
  Circular.congr h (fun a ha => hnext _ ⟨a, ha, rfl⟩) fun a ha => hprev _ ⟨a, ha, rfl⟩

lemma Relinked.other {l' : List EntId} (h : Relinked s s' i l l') (hj : Chained s j m) (hne : i ≠ j)
    (hdis : ∀ x ∈ m, x ∉ l) : Chained s' j m := by
  have hout : ∀ p, OnChain j m p → ¬ OnChain i l p := by
    rintro p ⟨a, hmem, rfl⟩
    cases a with
    | none => exact mt onChain_head_iff.mp hne
    | some x => exact mt onChain_entry_iff.mp (hdis x (hmem x rfl))
  exact hj.apart (fun p hp => h.next p (hout p hp)) fun p hp => h.prev p (hout p hp)

lemma last_ne (h : (pre ++ e :: post).Nodup) : pre.getLast? ≠ some e := fun hlast =>
  (nodup_append.mp h).2.2 e (mem_of_getLast? hlast) e (mem_cons_self ..) rfl

lemma head_ne (h : (pre ++ e :: post).Nodup) : post.head? ≠ some e := fun hhead =>
  (nodup_cons.mp (nodup_append.mp h).2.1).1 (mem_of_head? hhead)

lemma onChain_last : OnChain i (pre ++ m) (node i pre.getLast?) :=
  ⟨_, fun _ hx => mem_append_left _ (mem_of_getLast? hx), rfl⟩

lemma onChain_next : OnChain i (pre ++ e :: post) (node i post.head?) :=
  ⟨_, fun _ hx => mem_append_right _ (mem_cons_of_mem _ (mem_of_head? hx)), rfl⟩

lemma onChain_first : OnChain i l (node i l.head?) := ⟨_, fun _ hx => mem_of_head? hx, rfl⟩

theorem ncRmhash_eq (h : Chained s i (pre ++ e :: post)) :
    ncRmhash s e = { s with
      hashNext := update (update s.hashNext (node i pre.getLast?) (some (node i post.head?))) (.entry e) none
      hashPrev := update (update s.hashPrev (node i post.head?) (some (node i pre.getLast?))) (.entry e) none } := by
  have hnext : s.hashNext (.entry e) = some (node i post.head?) := h.next_of_mem
  have hprev : s.hashPrev (.entry e) = some (node i pre.getLast?) := h.prev_of_mem
  have hne : Ptr.entry e ≠ node i pre.getLast? := fun heq => last_ne h.nodup (node_eq_entry.mp heq.symm)
  simp only [ncRmhash, hnext, hprev, Cache.setNext, Cache.setPrev, update_of_ne hne]

lemma ncRmhash_relinked (h : Chained s i (pre ++ e :: post)) :
    Relinked s (ncRmhash s e) i (pre ++ e :: post) (pre ++ post) := by
  have hlast : node i pre.getLast? ≠ .entry e := mt node_eq_entry.mp (last_ne h.nodup)
  have hhead : node i post.head? ≠ .entry e := mt node_eq_entry.mp (head_ne h.nodup)
  rw [ncRmhash_eq h]
  refine ⟨Circular.remove h ?_ ?_ ?_ ?_, ?_, ?_, _, _, rfl⟩
  · dsimp only
    rw [update_of_ne hlast, update_self]
  · intro a hae hal
    dsimp only
    rw [update_of_ne (mt node_eq_entry.mp hae), update_of_ne (mt node_inj.mp hal)]
  · dsimp only
    rw [update_of_ne hhead, update_self]
  · intro a hae hah
    dsimp only
    rw [update_of_ne (mt node_eq_entry.mp hae), update_of_ne (mt node_inj.mp hah)]
  · intro p hp
    dsimp only
    rw [update_of_ne, update_of_ne]
    · rintro rfl
      exact hp onChain_last
    · rintro rfl
      exact hp (onChain_entry (by simp))
  · intro p hp
    dsimp only
    rw [update_of_ne, update_of_ne]
    · rintro rfl
      exact hp onChain_next
    · rintro rfl
      exact hp (onChain_entry (by simp))

lemma ncRmhash_self (h : Chained s i (pre ++ e :: post)) : (ncRmhash s e).hashNext (.entry e) = none := by
  exact update_self ..

lemma ncInshash_eq (h : Chained s i l) :
    ncInshash s e i = { s with
      hashNext := update (update s.hashNext (.entry e) (some (node i l.head?))) (.head i) (some (.entry e))
      hashPrev := update (update s.hashPrev (.entry e) (some (.head i))) (node i l.head?) (some (.entry e)) } := by
  have hnext : s.hashNext (.head i) = some (node i l.head?) := h.first
  have hne : Ptr.head i ≠ .entry e := by simp
  simp only [ncInshash, hnext, Cache.setNext, Cache.setPrev, update_of_ne hne]

lemma ncInshash_relinked (h : Chained s i l) (he : e ∉ l) : Relinked s (ncInshash s e i) i (e :: l) (e :: l) := by
  have hhead : Ptr.entry e ≠ node i l.head? := fun heq =>
    he (mem_of_head? (node_eq_entry.mp heq.symm))
  rw [ncInshash_eq h]
  refine ⟨Circular.front h he ?_ ?_ ?_ ?_ ?_ ?_, ?_, ?_, _, _, rfl⟩
  · dsimp only [node]
    rw [update_of_ne (by simp), update_self]
  · exact update_self ..
  · intro a hae hah
    dsimp only
    rw [update_of_ne, update_of_ne (mt node_eq_entry.mp hae)]
    exact fun heq => hah (node_eq_head.mp heq).1
  · exact (update_of_ne hhead ..).trans (update_self ..)
  · exact update_self ..
  · intro a hae hal
    dsimp only
    rw [update_of_ne (mt node_inj.mp hal), update_of_ne (mt node_eq_entry.mp hae)]
  · intro p hp
    dsimp only
    rw [update_of_ne, update_of_ne]
    · rintro rfl
      exact hp (onChain_entry (by simp))
    · rintro rfl
      exact hp onChain_head
  · intro p hp
    dsimp only
    rw [update_of_ne, update_of_ne]
    · rintro rfl
      exact hp (onChain_entry (by simp))
    · rintro rfl
      exact hp (onChain_first.mono (subset_cons_self ..))

theorem ncMoveToFront_eq (h : Chained s i (pre ++ e :: post)) :
    ncMoveToFront s i e = ncInshash ((s.setNext (some (node i pre.getLast?)) (some (node i post.head?))).setPrev
      (some (node i post.head?)) (some (node i pre.getLast?))) e i := by
  have hnext : s.hashNext (.entry e) = some (node i post.head?) := h.next_of_mem
  have hprev : s.hashPrev (.entry e) = some (node i pre.getLast?) := h.prev_of_mem
  have hne : Ptr.head i ≠ .entry e := by simp
  simp only [ncMoveToFront, ncInshash, hnext, hprev, Cache.setNext, Cache.setPrev, update_of_ne hne]

lemma ncMoveToFront_relinked (h : Chained s i (pre ++ e :: post)) :
    Relinked s (ncMoveToFront s i e) i (pre ++ e :: post) (e :: (pre ++ post)) := by
  have hnodup := nodup_middle.mp h.nodup
  have hout : Chained ((s.setNext (some (node i pre.getLast?)) (some (node i post.head?))).setPrev
      (some (node i post.head?)) (some (node i pre.getLast?))) i (pre ++ post) := by
    refine Circular.remove h (update_self ..) ?_ (update_self ..) ?_
    · intro a _ hal
      exact update_of_ne (mt node_inj.mp hal) ..
    · intro a _ hah
      exact update_of_ne (mt node_inj.mp hah) ..
  have hin := ncInshash_relinked hout (nodup_cons.mp hnodup).1
  have hsub : e :: (pre ++ post) ⊆ pre ++ e :: post := fun x hx => (perm_middle).symm.subset hx
  rw [ncMoveToFront_eq h]
  obtain ⟨next, prev, hrest⟩ := hin.rest
  refine ⟨hin.chained, ?_, ?_, next, prev, hrest⟩
  · intro p hp
    rw [hin.next p fun hon => hp (hon.mono hsub)]
    refine update_of_ne ?_ ..
    rintro rfl
    exact hp onChain_last
  · intro p hp
    rw [hin.prev p fun hon => hp (hon.mono hsub)]
    refine update_of_ne ?_ ..
    rintro rfl
    exact hp onChain_next

def freeLink (s : Cache) : Option EntId → Option EntId
  | none => s.freelist
  | some e => s.nextFree e

structure Freed (s : Cache) (l : List EntId) : Prop where
  chain : Chain (freeLink s) id l
  nodup : l.Nodup

lemma Freed.congr (h : Freed s l) (hlist : s'.freelist = s.freelist) (hnext : s'.nextFree = s.nextFree) : Freed s' l := by
  refine ⟨h.chain.congr hlist fun x _ => ?_, h.nodup⟩
  unfold freeLink
  rw [hnext]

lemma popFree_some (hlist : s.freelist = some e) :
    popFree s = (some e, { s with freelist := s.nextFree e, nextFree := update s.nextFree e none }) := by
  unfold popFree
  rw [hlist]

lemma popFree_freed (h : Freed s l) (hlist : s.freelist = some e) :
    ∃ rest, l = e :: rest ∧ Freed (popFree s).2 rest := by
  have hhead : l.head? = some e := h.chain.head.symm.trans hlist
  obtain ⟨rest, rfl⟩ : ∃ rest, l = e :: rest := head?_eq_some_iff.mp hhead
  rw [popFree_some hlist]
  refine ⟨rest, rfl, h.chain.tail h.nodup ?_ ?_, (nodup_cons.mp h.nodup).2⟩
  · exact h.chain.second
  · intro a hae hnone
    cases a with
    | none => exact absurd rfl hnone
    | some x => exact update_of_ne (fun heq => hae (congrArg some heq)) ..

lemma dnlcFree_freed (h : Freed s l) (he : e ∉ l) : Freed (dnlcFree s e) (e :: l) := by
  have hnodup := nodup_cons.mpr ⟨he, h.nodup⟩
  refine ⟨h.chain.cons hnodup ?_ rfl ?_, hnodup⟩
  · exact (update_self ..).trans h.chain.head
  · intro a hae hnone
    cases a with
    | none => exact absurd rfl hnone
    | some x => exact update_of_ne (fun heq => hae (congrArg some heq)) ..

end Solaris.Dnlc
