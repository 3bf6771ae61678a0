import Solaris.Lib.Ranked
import Mathlib.Tactic

/-!
# Seek sort for disks

`disksort` keeps the requests of a drive in two runs, the second of which lies behind the head of the drive. Where
the second run begins is not stored: it is found again as an inversion.
-/

namespace Solaris.Disk

open Lib List Nat

structure Buf where
  id : Nat
  /-- `b_resid` -/
  cylin : Nat
  deriving DecidableEq

structure Diskhd where
  bActf : List Buf
  bActl : Option Nat

/-- In the second list, from `ap` on: the requests with `bp` among them, and the one that `bp` is put behind. -/
def disksortSecond (bp ap : Buf) : List Buf → List Buf × Buf
  | [] => ([ap, bp], ap)
  | next :: rest =>
    if bp.cylin < next.cylin then (ap :: bp :: next :: rest, ap)
    else
      let (l, prev) := disksortSecond bp next rest
      (ap :: l, prev)

def disksortBelow (bp ap : Buf) : List Buf → List Buf × Buf
  | [] => ([ap, bp], ap)
  | next :: rest =>
    if next.cylin < ap.cylin then disksortSecond bp ap (next :: rest)
    else
      let (l, prev) := disksortBelow bp next rest
      (ap :: l, prev)

def disksortFirst (bp ap : Buf) : List Buf → List Buf × Buf
  | [] => ([ap, bp], ap)
  | next :: rest =>
    if next.cylin < ap.cylin ∨ bp.cylin < next.cylin then (ap :: bp :: next :: rest, ap)
    else
      let (l, prev) := disksortFirst bp next rest
      (ap :: l, prev)

def disksort (dp : Diskhd) (bp : Buf) : Diskhd :=
  match dp.bActf with
  | [] => ⟨[bp], some bp.id⟩
  | ap :: rest =>
    let (l, prev) := if bp.cylin < ap.cylin then disksortBelow bp ap rest else disksortFirst bp ap rest
    ⟨l, if some prev.id = dp.bActl then some bp.id else dp.bActl⟩

/-- The driver takes the first request and leaves `b_actl` alone. -/
def removeHead (dp : Diskhd) : Option (Buf × Diskhd) :=
  match dp.bActf with
  | [] => none
  | bp :: rest => some (bp, { dp with bActf := rest })

/-- The queue, and its requests in the order of their arrival. -/
structure State where
  dp : Diskhd
  arrived : List Buf

inductive Step : State → State → Prop
  | insert {s : State} (bp : Buf) (hnew : ∀ b ∈ s.dp.bActf, b.id ≠ bp.id) :
    Step s ⟨disksort s.dp bp, s.arrived ++ [bp]⟩
  | remove {s : State} {bp : Buf} {dp' : Diskhd} (hres : removeHead s.dp = some (bp, dp')) :
    Step s ⟨dp', s.arrived.erase bp⟩

inductive Reachable : State → Prop
  | start (l : Option Nat) : Reachable ⟨⟨[], l⟩, []⟩
  | step {s s' : State} (h : Reachable s) (hstep : Step s s') : Reachable s'

def Ascending (l : List Buf) : Prop := l.Pairwise fun a b => a.cylin ≤ b.cylin

/-- Two runs, the second of them below the head of the first. -/
structure TwoRuns (q first second : List Buf) : Prop where
  queue : q = first ++ second
  first_ascending : Ascending first
  second_ascending : Ascending second
  below : ∀ a, first.head? = some a → ∀ b ∈ second, b.cylin < a.cylin
  nonempty : first = [] → second = []

/-- Requests for one cylinder stand in the order of their arrival. -/
def InOrder (run arrived : List Buf) : Prop := ∀ c, (ofRank Buf.cylin c run).Sublist arrived

/-- `b_actl` points at the last request. -/
def LastKept (dp : Diskhd) : Prop := ∀ b, dp.bActf.getLast? = some b → dp.bActl = some b.id

structure Inserted (dp dp' : Diskhd) (bp : Buf) : Prop where
  perm : dp'.bActf.Perm (bp :: dp.bActf)
  kept : dp.bActf.Sublist dp'.bActf
  head : ∀ a, dp.bActf.head? = some a → dp'.bActf.head? = some a
  last : dp'.bActf ≠ [] ∧ LastKept dp'

variable {bp ap : Buf} {pre post first second arrived : List Buf} {dp : Diskhd} {s : State}

lemma Ascending.insert (h : Ascending (pre ++ post)) (hpre : ∀ a ∈ pre, a.cylin ≤ bp.cylin)
    (hpost : ∀ b ∈ post, bp.cylin < b.cylin) : Ascending (pre ++ bp :: post) := by
  obtain ⟨h1, h2, h3⟩ := pairwise_append.mp h
  refine pairwise_append.mpr ⟨h1, pairwise_cons.mpr ⟨fun b hb => (hpost b hb).le, h2⟩, ?_⟩
  intro a ha b hb
  rcases mem_cons.mp hb with rfl | hb
  · exact hpre a ha
  · exact h3 a ha b hb

lemma InOrder.grow (h : InOrder first arrived) (bp : Buf) : InOrder first (arrived ++ [bp]) :=
  fun c => (h c).trans (sublist_append_left _ _)

lemma InOrder.insert (h : InOrder (pre ++ post) arrived) (hpost : ∀ b ∈ post, bp.cylin < b.cylin) :
    InOrder (pre ++ bp :: post) (arrived ++ [bp]) := by
  intro c
  by_cases hc : bp.cylin = c
  · subst hc
    have hnil : ofRank Buf.cylin bp.cylin post = [] := ofRank_eq_nil fun b hb => (hpost b hb).ne'
    have hold := h bp.cylin
    rw [ofRank_append, hnil, append_nil] at hold
    rw [ofRank_append, ofRank_cons_self, hnil]
    exact hold.append_right [bp]
  · rw [ofRank_middle_of_ne hc]
    exact h.grow bp c

lemma InOrder.erase (h : InOrder first arrived) (hbp : bp ∉ first) : InOrder first (arrived.erase bp) := by
  intro c
  have hsub := (h c).erase bp
  rwa [erase_of_not_mem fun hmem => hbp (mem_ofRank.mp hmem).1] at hsub

lemma InOrder.tail (h : InOrder (bp :: first) arrived) (hbp : bp ∉ first) : InOrder first (arrived.erase bp) := by
  intro c
  by_cases hc : bp.cylin = c
  · subst hc
    have hsub := (h bp.cylin).erase bp
    rwa [ofRank_cons_self, erase_cons_head] at hsub
  · have hall := h c
    rw [ofRank_cons_of_ne hc] at hall
    have hsub := hall.erase bp
    rwa [erase_of_not_mem fun hmem => hbp (mem_ofRank.mp hmem).1] at hsub

lemma disksortSecond_spec (h : Ascending second) :
    ∃ pre post, second = pre ++ post ∧ (disksortSecond bp ap second).1 = ap :: (pre ++ bp :: post) ∧
      (ap :: pre).getLast? = some (disksortSecond bp ap second).2 ∧ (∀ a ∈ pre, a.cylin ≤ bp.cylin) ∧
      ∀ b ∈ post, bp.cylin < b.cylin := by
  induction second generalizing ap with
  | nil => exact ⟨[], [], rfl, rfl, rfl, by simp, by simp⟩
  | cons next rest ih =>
    obtain ⟨hnext, hrest⟩ := pairwise_cons.mp h
    unfold disksortSecond
    split_ifs with hlt
    · refine ⟨[], next :: rest, rfl, rfl, rfl, by simp, ?_⟩
      exact forall_mem_cons.mpr ⟨hlt, fun b hb => hlt.trans_le (hnext b hb)⟩
    obtain ⟨pre, post, hsplit, hl, hprev, hpre, hpost⟩ := ih hrest
    refine ⟨next :: pre, post, by rw [hsplit]; rfl, ?_, ?_, ?_, hpost⟩
    · dsimp only
      rw [hl]
      rfl
    · rw [getLast?_cons_cons]
      exact hprev
    · exact forall_mem_cons.mpr ⟨not_lt.mp hlt, hpre⟩

lemma disksortBelow_spec (bp : Buf) (hfirst : Ascending (ap :: first)) (hsecond : Ascending second)
    (hbelow : ∀ b ∈ second, b.cylin < ap.cylin) :
    ∃ pre post, second = pre ++ post ∧
      (disksortBelow bp ap (first ++ second)).1 = ap :: first ++ (pre ++ bp :: post) ∧
      (ap :: first ++ pre).getLast? = some (disksortBelow bp ap (first ++ second)).2 ∧
      (∀ a ∈ pre, a.cylin ≤ bp.cylin) ∧ ∀ b ∈ post, bp.cylin < b.cylin := by
  induction first generalizing ap with
  | nil =>
    rw [nil_append]
    cases second with
    | nil => exact ⟨[], [], rfl, rfl, rfl, by simp, by simp⟩
    | cons next rest =>
      unfold disksortBelow
      rw [if_pos (hbelow next mem_cons_self)]
      exact disksortSecond_spec hsecond
  | cons next first ih =>
    obtain ⟨hap, hrest⟩ := pairwise_cons.mp hfirst
    have hle : ap.cylin ≤ next.cylin := hap next mem_cons_self
    obtain ⟨pre, post, hsplit, hl, hprev, hpre, hpost⟩ := ih hrest fun b hb => (hbelow b hb).trans_le hle
    rw [cons_append]
    unfold disksortBelow
    rw [if_neg (not_lt.mpr hle)]
    refine ⟨pre, post, hsplit, ?_, ?_, hpre, hpost⟩
    · dsimp only
      rw [hl]
      rfl
    · exact hprev

lemma disksortFirst_spec (bp : Buf) (hfirst : Ascending (ap :: first)) (hbelow : ∀ b ∈ second, b.cylin < ap.cylin) :
    ∃ pre post, first = pre ++ post ∧
      (disksortFirst bp ap (first ++ second)).1 = ap :: pre ++ bp :: (post ++ second) ∧
      (ap :: pre).getLast? = some (disksortFirst bp ap (first ++ second)).2 ∧
      (∀ a ∈ pre, a.cylin ≤ bp.cylin) ∧ ∀ b ∈ post, bp.cylin < b.cylin := by
  induction first generalizing ap with
  | nil =>
    rw [nil_append]
    cases second with
    | nil => exact ⟨[], [], rfl, rfl, rfl, by simp, by simp⟩
    | cons next rest =>
      unfold disksortFirst
      rw [if_pos (.inl (hbelow next mem_cons_self))]
      exact ⟨[], [], rfl, rfl, rfl, by simp, by simp⟩
  | cons next first ih =>
    obtain ⟨hap, hrest⟩ := pairwise_cons.mp hfirst
    have hle : ap.cylin ≤ next.cylin := hap next mem_cons_self
    rw [cons_append]
    unfold disksortFirst
    by_cases hlt : bp.cylin < next.cylin
    · rw [if_pos (.inr hlt)]
      refine ⟨[], next :: first, rfl, rfl, rfl, by simp, ?_⟩
      exact forall_mem_cons.mpr ⟨hlt, fun b hb => hlt.trans_le ((pairwise_cons.mp hrest).1 b hb)⟩
    rw [if_neg (by omega)]
    obtain ⟨pre, post, hsplit, hl, hprev, hpre, hpost⟩ := ih hrest fun b hb => (hbelow b hb).trans_le hle
    refine ⟨next :: pre, post, by rw [hsplit]; rfl, ?_, hprev, ?_, hpost⟩
    · dsimp only
      rw [hl]
      rfl
    · exact forall_mem_cons.mpr ⟨not_lt.mp hlt, hpre⟩

lemma disksort_runs (hq : TwoRuns dp.bActf (ap :: first) second) (hf : InOrder (ap :: first) arrived)
    (hs : InOrder second arrived) (bp : Buf) :
    ∃ pre post prev first' second', dp.bActf = pre ++ post ∧ pre.getLast? = some prev ∧
      disksort dp bp = ⟨pre ++ bp :: post, if some prev.id = dp.bActl then some bp.id else dp.bActl⟩ ∧
      TwoRuns (pre ++ bp :: post) first' second' ∧ InOrder first' (arrived ++ [bp]) ∧
      InOrder second' (arrived ++ [bp]) := by
  have hbelow := hq.below ap rfl
  have hqueue : dp.bActf = ap :: (first ++ second) := hq.queue
  unfold disksort
  rw [hqueue]
  dsimp only
  by_cases hlt : bp.cylin < ap.cylin
  · rw [if_pos hlt]
    obtain ⟨pre, post, rfl, hl, hprev, hpre, hpost⟩ :=
      disksortBelow_spec bp hq.first_ascending hq.second_ascending hbelow
    refine ⟨ap :: first ++ pre, post, _, ap :: first, pre ++ bp :: post, by simp, hprev, ?_, ?_, hf.grow bp,
      hs.insert hpost⟩
    · rw [hl, append_assoc]
    · refine ⟨by simp, hq.first_ascending, hq.second_ascending.insert hpre hpost, ?_, fun hnil => by cases hnil⟩
      rintro a ⟨⟩ b hb
      rcases mem_append.mp hb with hb | hb
      · exact hbelow b (mem_append_left _ hb)
      · rcases mem_cons.mp hb with rfl | hb
        · exact hlt
        · exact hbelow b (mem_append_right _ hb)
  · rw [if_neg hlt]
    obtain ⟨pre, post, rfl, hl, hprev, hpre, hpost⟩ :=
      disksortFirst_spec bp hq.first_ascending hbelow
    have hpre' : ∀ a ∈ ap :: pre, a.cylin ≤ bp.cylin := forall_mem_cons.mpr ⟨not_lt.mp hlt, hpre⟩
    have hasc : Ascending ((ap :: pre) ++ post) := hq.first_ascending
    have hf' : InOrder ((ap :: pre) ++ post) arrived := hf
    refine ⟨ap :: pre, post ++ second, _, ap :: pre ++ bp :: post, second, by simp, hprev, ?_, ?_, hf'.insert hpost,
      hs.grow bp⟩
    · rw [hl]
    · refine ⟨by simp, hasc.insert hpre' hpost, hq.second_ascending, ?_, fun hnil => by cases hnil⟩
      rintro a ⟨⟩ b hb
      exact hbelow b hb

structure Invariant (s : State) : Prop where
  runs : ∃ first second, TwoRuns s.dp.bActf first second ∧ InOrder first s.arrived ∧ InOrder second s.arrived
  last : LastKept s.dp
  distinct : (s.dp.bActf.map Buf.id).Nodup

theorem lastKept_insert (bp : Buf) {prev : Buf} (hlast : LastKept dp) (hdistinct : (dp.bActf.map Buf.id).Nodup)
    (hsplit : dp.bActf = pre ++ post) (hprev : pre.getLast? = some prev) :
    LastKept ⟨pre ++ bp :: post, if some prev.id = dp.bActl then some bp.id else dp.bActl⟩ := by
  intro b hb
  rcases eq_nil_or_concat' post with rfl | ⟨post, z, rfl⟩
  · rw [getLast?_concat] at hb
    obtain rfl := Option.some.inj hb
    rw [if_pos]
    rw [append_nil] at hsplit
    exact (hlast prev (by rw [hsplit, hprev])).symm
  rw [← cons_append, ← append_assoc, getLast?_concat] at hb
  obtain rfl := Option.some.inj hb
  have hz : dp.bActl = some z.id := hlast z (by rw [hsplit, ← append_assoc, getLast?_concat])
  rw [if_neg, hz]
  rw [hz, Option.some_inj]
  intro heq
  rw [hsplit, map_append, nodup_append] at hdistinct
  refine hdistinct.2.2 prev.id (mem_map_of_mem (mem_of_getLast? hprev)) z.id ?_ heq
  exact mem_map_of_mem (by simp)

lemma Invariant.inserted (h : Invariant s) (hnew : ∀ b ∈ s.dp.bActf, b.id ≠ bp.id) :
    Invariant ⟨disksort s.dp bp, s.arrived ++ [bp]⟩ ∧ Inserted s.dp (disksort s.dp bp) bp := by
  obtain ⟨first, second, hq, hf, hs⟩ := h.runs
  cases first with
  | nil =>
    obtain rfl := hq.nonempty rfl
    have hnil : s.dp.bActf = [] := hq.queue
    have hres : disksort s.dp bp = ⟨[bp], some bp.id⟩ := by
      unfold disksort
      rw [hnil]
    have hempty : InOrder ([] ++ []) s.arrived := hf
    have hlast : LastKept ⟨[bp], some bp.id⟩ := by
      rintro b ⟨⟩
      rfl
    rw [hres]
    refine ⟨⟨⟨[bp], [], ?_, hempty.insert (by simp), hs.grow bp⟩, hlast, by simp⟩, ?_⟩
    · exact ⟨rfl, pairwise_singleton _ _, List.Pairwise.nil, by simp, fun _ => rfl⟩
    · refine ⟨by rw [hnil], by rw [hnil]; exact nil_sublist _, ?_, by simp, hlast⟩
      rw [hnil]
      rintro a ⟨⟩
  | cons ap first =>
    obtain ⟨pre, post, prev, first', second', hsplit, hprev, hres, hq', hf', hs'⟩ := disksort_runs hq hf hs bp
    have hlast := lastKept_insert bp h.last h.distinct hsplit hprev
    have hperm : (pre ++ bp :: post).Perm (bp :: s.dp.bActf) := by
      rw [hsplit]
      exact perm_middle
    rw [hres]
    refine ⟨⟨⟨first', second', hq', hf', hs'⟩, hlast, ?_⟩, hperm, ?_, ?_, by simp, hlast⟩
    · refine (hperm.map Buf.id).nodup_iff.mpr (nodup_cons.mpr ⟨?_, h.distinct⟩)
      rw [mem_map]
      rintro ⟨b, hb, hid⟩
      exact hnew b hb hid
    · rw [hsplit]
      exact (sublist_cons_self bp post).append_left pre
    · intro a ha
      rw [hsplit] at ha
      cases pre with
      | nil => cases hprev
      | cons c pre => exact ha

lemma Invariant.removed (h : Invariant s) {dp' : Diskhd} (hres : removeHead s.dp = some (bp, dp')) :
    Invariant ⟨dp', s.arrived.erase bp⟩ := by
  obtain ⟨first, second, hq, hf, hs⟩ := h.runs
  obtain ⟨rest, hrest, rfl⟩ : ∃ rest, s.dp.bActf = bp :: rest ∧ dp' = { s.dp with bActf := rest } := by
    unfold removeHead at hres
    cases hl : s.dp.bActf with
    | nil => simp [hl] at hres
    | cons c rest =>
      rw [hl] at hres
      obtain ⟨rfl, rfl⟩ := Prod.mk.inj (Option.some.inj hres)
      exact ⟨rest, rfl, rfl⟩
  have hdistinct := h.distinct
  rw [hrest, map_cons, nodup_cons] at hdistinct
  have hgone : bp ∉ rest := fun hmem => hdistinct.1 (mem_map_of_mem hmem)
  have hlast : LastKept { s.dp with bActf := rest } := by
    intro b hb
    refine h.last b ?_
    cases rest with
    | nil => cases hb
    | cons c rest =>
      rw [hrest, getLast?_cons_cons]
      exact hb
  refine ⟨?_, hlast, hdistinct.2⟩
  cases first with
  | nil =>
    obtain rfl := hq.nonempty rfl
    have := hq.queue
    rw [hrest] at this
    cases this
  | cons c first =>
    have hqueue := hq.queue
    rw [hrest, cons_append] at hqueue
    obtain ⟨rfl, rfl⟩ := List.cons.inj hqueue
    have hasc := pairwise_cons.mp hq.first_ascending
    have hf' : InOrder first (s.arrived.erase bp) := hf.tail fun hmem => hgone (mem_append_left _ hmem)
    have hs' : InOrder second (s.arrived.erase bp) := hs.erase fun hmem => hgone (mem_append_right _ hmem)
    cases first with
    | nil =>
      -- the second run becomes the first
      refine ⟨second, [], ⟨by simp, hq.second_ascending, List.Pairwise.nil, by simp, fun _ => rfl⟩, hs', ?_⟩
      exact fun c => nil_sublist _
    | cons d first =>
      refine ⟨d :: first, second, ⟨rfl, hasc.2, hq.second_ascending, ?_, fun hnil => by cases hnil⟩, hf', hs'⟩
      rintro a ⟨⟩ b hb
      exact (hq.below bp rfl b hb).trans_le (hasc.1 d mem_cons_self)

lemma Reachable.invariant (h : Reachable s) : Invariant s := by
  induction h with
  | start l =>
    refine ⟨⟨[], [], ⟨rfl, List.Pairwise.nil, List.Pairwise.nil, by simp, fun _ => rfl⟩, ?_, ?_⟩, ?_, by simp⟩
    · exact fun c => nil_sublist _
    · exact fun c => nil_sublist _
    · rintro b ⟨⟩
  | step _ hstep ih =>
    cases hstep with
    | insert bp hnew => exact (ih.inserted hnew).1
    | remove hres => exact ih.removed hres

/-- The queue is two runs at all times, equal cylinders of a run in the order of arrival; an insertion keeps all requests
and their order, leaves the head, and keeps `b_actl`. -/
theorem disksort_elevator (h : Reachable s) :
    (∃ first second, TwoRuns s.dp.bActf first second ∧ InOrder first s.arrived ∧ InOrder second s.arrived) ∧
      LastKept s.dp ∧
      ∀ bp, (∀ b ∈ s.dp.bActf, b.id ≠ bp.id) → Inserted s.dp (disksort s.dp bp) bp :=
  ⟨h.invariant.runs, h.invariant.last, fun _ hnew => (h.invariant.inserted hnew).2⟩

def sampleQueue : State :=
  ⟨⟨[⟨5, 50⟩, ⟨3, 70⟩, ⟨2, 20⟩, ⟨4, 20⟩], some 4⟩, [⟨2, 20⟩, ⟨3, 70⟩, ⟨4, 20⟩, ⟨5, 50⟩]⟩

lemma sampleQueue_reachable : Reachable sampleQueue := by
  have h0 : Reachable ⟨⟨[], none⟩, []⟩ := Reachable.start none
  have h1 := h0.step (Step.insert ⟨1, 50⟩ (by decide))
  have h2 := h1.step (Step.insert ⟨2, 20⟩ (by decide))
  have h3 := h2.step (Step.insert ⟨3, 70⟩ (by decide))
  have h4 := h3.step (Step.insert ⟨4, 20⟩ (by decide))
  have h5 : Reachable ⟨⟨[⟨1, 50⟩, ⟨5, 50⟩, ⟨3, 70⟩, ⟨2, 20⟩, ⟨4, 20⟩], some 4⟩, ⟨1, 50⟩ :: sampleQueue.arrived⟩ :=
    h4.step (Step.insert ⟨5, 50⟩ (by decide))
  have hres : removeHead ⟨[⟨1, 50⟩, ⟨5, 50⟩, ⟨3, 70⟩, ⟨2, 20⟩, ⟨4, 20⟩], some 4⟩ = some (⟨1, 50⟩, sampleQueue.dp) := rfl
  have h6 := h5.step (Step.remove hres)
  exact h6

theorem disksort_elevator_sample : Inserted sampleQueue.dp (disksort sampleQueue.dp ⟨6, 60⟩) ⟨6, 60⟩ :=
  (disksort_elevator sampleQueue_reachable).2.2 ⟨6, 60⟩ (by decide)

end Solaris.Disk
