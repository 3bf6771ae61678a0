import Solaris.Flock.System
import Solaris.Lib.Segments

/-!
# The active list

The active locks of a vnode form one segment of the active list, sorted by `l_start`, and
`v_filocks` points at its head.
-/

namespace Solaris.Flock

open Lib List Function Segment

abbrev VpSegment (lock : Nat → LockDescriptor) (vp : Nat) (l pre mid post : List Nat) : Prop :=
  Segment (fun a => (lock a).lVnode) vp l pre mid post

abbrev startLe (lock : Nat → LockDescriptor) (a b : Nat) : Prop := (lock a).lStart ≤ (lock b).lStart

structure ActiveOk (lock : Nat → LockDescriptor) (active : List Nat) (vFilocks : Nat → Option Nat) : Prop where
  nodup : active.Nodup
  segment : ∀ vp, ∃ pre mid post, VpSegment lock vp active pre mid post ∧
    mid.Pairwise (startLe lock) ∧ vFilocks vp = mid.head?

def Graph.ActiveOk (g : Graph) : Prop := Flock.ActiveOk g.lock g.active g.vFilocks

variable {lock lock' : Nat → LockDescriptor} {active : List Nat} {vFilocks : Nat → Option Nat}

lemma Segment.congr {vp : Nat} {pre mid post : List Nat} (hl : ∀ a ∈ active, (lock a).lVnode = (lock' a).lVnode)
    (h : VpSegment lock vp active pre mid post) : VpSegment lock' vp active pre mid post := by
  have hmem := h.split ▸ hl
  refine ⟨h.split, fun a ha => ?_, fun a ha => ?_, fun a ha => ?_⟩
  · rw [← hmem a (by simp [ha])]; exact h.mid_key a ha
  · rw [← hmem a (by simp [ha])]; exact h.pre_key a ha
  · rw [← hmem a (by simp [ha])]; exact h.post_key a ha

lemma ActiveOk.congr (h : ActiveOk lock active vFilocks) (hl : ∀ a ∈ active, lock a = lock' a) :
    ActiveOk lock' active vFilocks := by
  refine ⟨h.nodup, fun vp => ?_⟩
  obtain ⟨pre, mid, post, hs, hp, hv⟩ := h.segment vp
  refine ⟨pre, mid, post, Segment.congr (fun a ha => by rw [hl a ha]) hs, ?_, hv⟩
  refine hp.imp_of_mem ?_
  intro a b ha hb hab
  rw [startLe, ← hl a (hs.mem_mid.mp ha).1, ← hl b (hs.mem_mid.mp hb).1]
  exact hab

lemma walkVp_head {vp first : Nat} {rest pre post : List Nat}
    (h : VpSegment lock vp active pre (first :: rest) post) :
    walkVp lock vp first active = first :: rest := by
  have hf : (lock first).lVnode = vp := h.mid_key first (by simp)
  unfold walkVp
  rw [dropWhile_ne h hf]
  simp only [cons_append, ne_eq, not_true_eq_false, decide_false, Bool.false_eq_true,
    not_false_eq_true, dropWhile_cons_of_neg]
  have ht : (rest ++ post).takeWhile (fun a => (lock a).lVnode = vp) = rest :=
    takeWhile_key (fun a ha => h.mid_key a (by simp [ha])) h.post_key
  rw [ht]

lemma ActiveOk.walk (h : ActiveOk lock active vFilocks) (vp : Nat) :
    (match vFilocks vp with
      | none => []
      | some first => walkVp lock vp first active) = active.filter (fun a => (lock a).lVnode = vp) := by
  obtain ⟨pre, mid, post, hs, -, hv⟩ := h.segment vp
  rw [hs.filter_key, hv]
  cases mid with
  | nil => rfl
  | cons first rest => exact walkVp_head hs

lemma Graph.ActiveOk.activeVp {g : Graph} (h : g.ActiveOk) (vp : Nat) :
    g.activeVp vp = g.active.filter (fun a => (g.lock a).lVnode = vp) :=
  Flock.ActiveOk.walk h vp

lemma Graph.ActiveOk.mem_activeVp {g : Graph} (h : g.ActiveOk) {vp a : Nat} :
    a ∈ g.activeVp vp ↔ a ∈ g.active ∧ (g.lock a).lVnode = vp := by
  simp [h.activeVp]

lemma ActiveOk.sorted (h : ActiveOk lock active vFilocks) {vp : Nat} {pre mid post : List Nat}
    (hs : VpSegment lock vp active pre mid post) : mid.Pairwise (startLe lock) ∧ vFilocks vp = mid.head? := by
  obtain ⟨pre', mid', post', hs', hp, hv⟩ := h.segment vp
  have hm : mid = mid' := by rw [← hs.filter_key, hs'.filter_key]
  rw [hm]
  exact ⟨hp, hv⟩

lemma insertByStart_append {new : Nat} {mid post : List Nat}
    (hm : ∀ a ∈ mid, (lock a).lVnode = (lock new).lVnode) (hp : ∀ a ∈ post, (lock a).lVnode ≠ (lock new).lVnode) :
    insertByStart lock new (mid ++ post) = mid.orderedInsert (startLe lock) new ++ post := by
  induction mid with
  | nil =>
    cases post with
    | nil => simp [insertByStart]
    | cons b post => simp [insertByStart, hp b (by simp)]
  | cons a mid ih =>
    have ha := hm a (by simp)
    rw [cons_append, insertByStart, orderedInsert_cons]
    by_cases hlt : (lock a).lStart < (lock new).lStart
    · rw [if_pos ⟨ha, hlt⟩, if_neg (by simpa using hlt), ih (fun b hb => hm b (by simp [hb]))]
      rfl
    · rw [if_neg (by simp [hlt]), if_pos (by simpa using hlt)]
      rfl

lemma orderedInsert_append {new : Nat} {xs ys : List Nat} (h : ∀ y ∈ ys, startLe lock new y) :
    (xs ++ ys).orderedInsert (startLe lock) new = xs.orderedInsert (startLe lock) new ++ ys := by
  induction xs with
  | nil =>
    cases ys with
    | nil => rfl
    | cons y ys =>
      rw [nil_append, orderedInsert_cons, if_pos (h y (by simp))]
      rfl
  | cons x xs ih =>
    rw [cons_append, orderedInsert_cons, orderedInsert_cons, ih]
    split <;> rfl

lemma flkInsertActiveLock_shape {g : Graph} (h : g.ActiveOk) (new : Nat) :
    ∃ pre mid post, VpSegment g.lock (g.lock new).lVnode g.active pre mid post ∧
      mid.Pairwise (startLe g.lock) ∧ (mid ≠ [] ∨ post = []) ∧
      (flkInsertActiveLock g new).active = pre ++ (mid.orderedInsert (startLe g.lock) new ++ post) ∧
      (flkInsertActiveLock g new).vFilocks = update g.vFilocks (g.lock new).lVnode
        (mid.orderedInsert (startLe g.lock) new).head? := by
  obtain ⟨pre, mid, post, hs, hp, hv⟩ := h.segment (g.lock new).lVnode
  cases mid with
  | nil =>
    have hl : ∀ a ∈ g.active, (g.lock a).lVnode ≠ (g.lock new).lVnode := by
      intro a ha hk
      simpa using hs.mem_mid.mpr ⟨ha, hk⟩
    refine ⟨g.active, [], [], Segment.empty hl, List.Pairwise.nil, .inr rfl, ?_, ?_⟩
    · simp [flkInsertActiveLock, hv]
    · simp [flkInsertActiveLock, hv]
  | cons first rest =>
    refine ⟨pre, first :: rest, post, hs, hp, .inl (by simp), ?_, ?_⟩
    · have hf : (g.lock first).lVnode = (g.lock new).lVnode := hs.mid_key first (by simp)
      simp only [flkInsertActiveLock, hv, head?_cons]
      rw [dropWhile_ne hs hf, takeWhile_ne hs hf]
      simp only [cons_append, ne_eq, not_true_eq_false, decide_false, Bool.false_eq_true,
        not_false_eq_true, takeWhile_cons_of_neg, append_nil, dropWhile_cons_of_neg]
      rw [← cons_append, insertByStart_append hs.mid_key hs.post_key]
    · simp only [flkInsertActiveLock, hv, head?_cons, orderedInsert_cons]
      by_cases hle : (g.lock new).lStart ≤ (g.lock first).lStart
      · simp [hle]
      · rw [if_neg hle, if_neg hle, head?_cons, ← head?_cons, ← hv, update_eq_self]

lemma flkInsertActiveLock_perm {g : Graph} (h : g.ActiveOk) (new : Nat) :
    (flkInsertActiveLock g new).active.Perm (new :: g.active) := by
  obtain ⟨pre, mid, post, hs, -, -, ha, -⟩ := flkInsertActiveLock_shape h new
  rw [ha, hs.split]
  have hp := (perm_orderedInsert (startLe g.lock) new mid).append_right post
  exact (hp.append_left pre).trans perm_middle

lemma mem_flkInsertActiveLock {g : Graph} (h : g.ActiveOk) (new : Nat) {a : Nat} :
    a ∈ (flkInsertActiveLock g new).active ↔ a = new ∨ a ∈ g.active := by
  rw [(flkInsertActiveLock_perm h new).mem_iff, mem_cons]

section

variable (g : Graph) (new : Nat)

include g new

@[simp] lemma flkInsertActiveLock_lock : (flkInsertActiveLock g new).lock = g.lock := by
  simp only [flkInsertActiveLock]
  split <;> rfl

@[simp] lemma flkInsertActiveLock_next : (flkInsertActiveLock g new).next = g.next := by
  simp only [flkInsertActiveLock]
  split <;> rfl

@[simp] lemma flkInsertActiveLock_sleeping :
    (flkInsertActiveLock g new).sleeping = g.sleeping := by
  simp only [flkInsertActiveLock]
  split <;> rfl

@[simp] lemma flkInsertActiveLock_deps : (flkInsertActiveLock g new).deps = g.deps := by
  simp only [flkInsertActiveLock]
  split <;> rfl

@[simp] lemma flkInsertActiveLock_lState :
    (flkInsertActiveLock g new).lState = g.lState := by
  simp only [flkInsertActiveLock]
  split <;> rfl

@[simp] lemma flkInsertActiveLock_ps : (flkInsertActiveLock g new).ps = g.ps := by
  simp only [flkInsertActiveLock]
  split <;> rfl

end

structure SameRest (g' g : Graph) : Prop where
  lock : g'.lock = g.lock
  next : g'.next = g.next
  sleeping : g'.sleeping = g.sleeping
  deps : g'.deps = g.deps
  lState : g'.lState = g.lState
  ps : g'.ps = g.ps

lemma foldl_insert_frame (ids : List Nat) (g : Graph) : SameRest (ids.foldl flkInsertActiveLock g) g := by
  induction ids generalizing g with
  | nil => exact ⟨rfl, rfl, rfl, rfl, rfl, rfl⟩
  | cons i ids ih =>
    have h := ih (flkInsertActiveLock g i)
    exact ⟨by simpa using h.lock, by simpa using h.next, by simpa using h.sleeping, by simpa using h.deps,
      by simpa using h.lState, by simpa using h.ps⟩

lemma flkInsertActiveLock_ok {g : Graph} (h : g.ActiveOk) {new : Nat} (hn : new ∉ g.active) :
    (flkInsertActiveLock g new).ActiveOk := by
  obtain ⟨pre, mid, post, hs, hp, hne, ha, hv⟩ := flkInsertActiveLock_shape h new
  have hkey : ∀ a ∈ mid.orderedInsert (startLe g.lock) new, (g.lock a).lVnode = (g.lock new).lVnode := by
    intro a hm
    rcases (mem_orderedInsert _).mp hm with rfl | hm
    · rfl
    · exact hs.mid_key a hm
  constructor
  · exact (flkInsertActiveLock_perm h new).nodup_iff.mpr (nodup_cons.mpr ⟨hn, h.nodup⟩)
  intro vp
  rw [flkInsertActiveLock_lock, ha, hv]
  by_cases hvp : vp = (g.lock new).lVnode
  · subst hvp
    refine ⟨pre, _, post, hs.replace hkey, ?_, by simp⟩
    exact hp.orderedInsert new mid
  · obtain ⟨p, m, q, hs', hp', hv'⟩ := h.segment vp
    obtain ⟨p2, q2, hs2⟩ := hs.replace_other hne hkey hvp hs'
    exact ⟨p2, m, q2, hs2, hp', by rw [update_of_ne hvp, hv']⟩

lemma flkDeleteActiveLock_shape {g : Graph} (h : g.ActiveOk) {l : Nat} (hl : l ∈ g.active) :
    ∃ pre mid post, VpSegment g.lock (g.lock l).lVnode g.active pre mid post ∧ mid ≠ [] ∧
      mid.Pairwise (startLe g.lock) ∧
      (flkDeleteActiveLock g l).active = pre ++ (mid.erase l ++ post) ∧
      (flkDeleteActiveLock g l).vFilocks = update g.vFilocks (g.lock l).lVnode (mid.erase l).head? := by
  obtain ⟨pre, mid, post, hs, hp, hv⟩ := h.segment (g.lock l).lVnode
  have hm : l ∈ mid := hs.mem_mid.mpr ⟨hl, rfl⟩
  refine ⟨pre, mid, post, hs, ne_nil_of_mem hm, hp, ?_, ?_⟩
  · have hpre : l ∉ pre := fun hx => hs.pre_key l hx rfl
    simp only [flkDeleteActiveLock]
    rw [hs.split, erase_append_right _ hpre, erase_append_left _ hm]
  · cases mid with
    | nil => simp at hm
    | cons first rest =>
      simp only [flkDeleteActiveLock, hv, head?_cons, Option.some.injEq]
      by_cases hf : first = l
      · subst hf
        rw [if_pos rfl, erase_cons_head]
        unfold nextOnVnode
        rw [dropWhile_ne hs rfl]
        simp only [cons_append, ne_eq, not_true_eq_false, decide_false, Bool.false_eq_true,
          not_false_eq_true, dropWhile_cons_of_neg, tail_cons]
        cases rest with
        | nil =>
          cases post with
          | nil => rfl
          | cons b post => simp [hs.post_key b (by simp)]
        | cons b rest => simp [hs.mid_key b (by simp)]
      · rw [if_neg hf, erase_cons_tail (by simpa using hf), head?_cons,
          ← head?_cons, ← hv, update_eq_self]

@[simp] lemma flkDeleteActiveLock_lock (g : Graph) (l : Nat) : (flkDeleteActiveLock g l).lock = g.lock := rfl

@[simp] lemma flkDeleteActiveLock_active (g : Graph) (l : Nat) :
    (flkDeleteActiveLock g l).active = g.active.erase l := rfl

lemma flkDeleteActiveLock_ok {g : Graph} (h : g.ActiveOk) {l : Nat} (hl : l ∈ g.active) :
    (flkDeleteActiveLock g l).ActiveOk := by
  obtain ⟨pre, mid, post, hs, hne, hp, ha, hv⟩ := flkDeleteActiveLock_shape h hl
  have hkey : ∀ a ∈ mid.erase l, (g.lock a).lVnode = (g.lock l).lVnode :=
    fun a hm => hs.mid_key a (mem_of_mem_erase hm)
  constructor
  · exact h.nodup.erase l
  intro vp
  rw [flkDeleteActiveLock_lock, ha, hv]
  by_cases hvp : vp = (g.lock l).lVnode
  · subst hvp
    exact ⟨pre, _, post, hs.replace hkey, hp.sublist erase_sublist, by simp⟩
  · obtain ⟨p, m, q, hs', hp', hv'⟩ := h.segment vp
    obtain ⟨p2, q2, hs2⟩ := hs.replace_other (.inl hne) hkey hvp hs'
    exact ⟨p2, m, q2, hs2, hp', by rw [update_of_ne hvp, hv']⟩

end Solaris.Flock
