import Solaris.Callout.Invariant

/-!
# Callouts run once, at their time

The loops of `callout_schedule` and `callout_execute` in terms of the single changes.
-/

namespace Solaris.Callouts

open Lib List Function

section Near

/-- The times of the table are close enough to `cs_curtime`. -/
def Near (cs : Table) : Prop :=
  cs.curtime - cs.runtime < 2 ^ 31 ∧
    ∀ i, ∀ c ∈ (cs.bucket i).first, c.runtime - cs.curtime < 2 ^ 31 ∧ cs.curtime - c.runtime < 2 ^ 31

variable {s : Sys} {r : Int}

lemma Window.near (h : Window s) : Near s.cs := by
  refine ⟨h _ _ (.inr (.inl rfl)) (.inr (.inr (.inl rfl))), ?_⟩
  intro i c hc
  have hlive : s.Live c.runtime := .inr (.inr (.inr ⟨i, c, hc, rfl⟩))
  have hcur : s.Live s.cs.curtime := .inr (.inl rfl)
  exact ⟨h _ _ hlive hcur, h _ _ hcur hlive⟩

section

variable {cs : Table} (h : Near cs) (hle : r ≤ cs.curtime) (hr : cs.curtime - r < 2 ^ 31) {i : Nat} {c : Callout}
  (hc : c ∈ (cs.bucket i).first)

include h hle hr hc

lemma due_iff : due r c = true ↔ c.runtime = r ∧ c.executing = false := by
  have hnear := h.2 i c hc
  unfold due
  rw [Bool.and_eq_true, same_iff (by omega) (by omega), Bool.not_eq_true']

lemma due_false (hdue : due r c = false) (heq : c.runtime = r) :
    c.executing = true := by
  by_contra hx
  rw [Bool.not_eq_true] at hx
  rw [(due_iff h hle hr hc).mpr ⟨heq, hx⟩] at hdue
  cases hdue

end

lemma Near.advance {cs : Table} (h : Near cs) : Near { cs with runtime := cs.runtime + 1 } := by
  refine ⟨?_, h.2⟩
  have := h.1
  dsimp only
  omega

lemma late_iff (h : Inv s) (hn : Near s.cs) :
    0 < diff s.cs.runtime s.cs.curtime ↔ s.cs.curtime < s.cs.runtime := by
  have horder := h.timed.order.1
  have hnear := hn.1
  rw [diff_eq (by omega) (by omega)]
  omega

lemma turns_eq (h : Inv s) (hn : Near s.cs) : s.cs.turns = (s.cs.curtime - s.cs.runtime + 2).toNat := by
  have horder := h.timed.order.1
  have hnear := hn.1
  unfold Table.turns
  rw [diff_eq (by omega) (by omega)]

end Near

section Loops

variable {s : Sys} {t fuel : Nat}

lemma scheduleLoop_spec (h : Inv s) (hn : Near s.cs)
    (hfuel : (s.cs.curtime - s.cs.runtime + 2).toNat ≤ fuel) :
    ∃ cs, scheduleLoop fuel s.cs = some cs ∧ Inv { s with cs } := by
  induction fuel generalizing s with
  | zero =>
    have := h.timed.order.1
    omega
  | succ fuel ih =>
    unfold scheduleLoop
    by_cases hlate : 0 < diff s.cs.runtime s.cs.curtime
    · rw [if_pos hlate]
      exact ⟨s.cs, rfl, h⟩
    rw [if_neg hlate]
    by_cases hany : (s.cs.bucket (bucketOf s.cs.runtime)).first.any (due s.cs.runtime) = true
    · rw [if_pos hany]
      exact ⟨s.cs, rfl, h⟩
    rw [if_neg hany]
    rw [late_iff h hn] at hlate
    have hle : s.cs.runtime ≤ s.cs.curtime := by omega
    rw [any_eq_true] at hany
    push Not at hany
    have hadv := h.advance hle fun c hc heq =>
      due_false hn hle hn.1 hc (Bool.eq_false_iff.mpr (hany c hc)) heq
    obtain ⟨cs, hcs, hinv⟩ := ih hadv hn.advance (by
      dsimp only
      omega)
    exact ⟨cs, hcs, hinv⟩

lemma enter_none (s : Sys) (ht : s.threads t = none) : s.enter t (s.cs, none) = s := by
  unfold Sys.enter
  have hupd : update s.threads t none = s.threads := by
    rw [← ht]
    exact update_eq_self t s.threads
  dsimp only [Option.map_none, Option.toList_none, nil_append]
  rw [hupd]

lemma executeLoop_spec (h : Inv s) (hn : Near s.cs) (ht : s.threads t = none)
    (hfuel : (s.cs.curtime - s.cs.runtime + 2).toNat ≤ fuel) :
    ∃ r, executeLoop t fuel s.cs = some r ∧ Inv (s.enter t r) := by
  induction fuel generalizing s with
  | zero =>
    have := h.timed.order.1
    omega
  | succ fuel ih =>
    unfold executeLoop
    by_cases hlate : 0 < diff s.cs.runtime s.cs.curtime
    · rw [if_pos hlate]
      refine ⟨_, rfl, ?_⟩
      rw [enter_none s ht]
      exact h
    rw [if_neg hlate]
    rw [late_iff h hn] at hlate
    have hle : s.cs.runtime ≤ s.cs.curtime := by omega
    dsimp only
    rcases splitFirst_spec (due s.cs.runtime) (s.cs.bucket (bucketOf s.cs.runtime)).first with
      ⟨hnone, hall⟩ | ⟨pre, c, post, hsome, hs, hc, hpre⟩
    · -- nothing is due: the next time
      rw [hnone]
      have hadv := h.advance hle fun c hc heq => due_false hn hle hn.1 hc (hall c hc) heq
      obtain ⟨r, hr, hinv⟩ := ih hadv hn.advance ht (by
        dsimp only
        omega)
      exact ⟨r, hr, hinv⟩
    rw [hsome]
    have hmem : ∀ d ∈ pre ++ c :: post, d ∈ (s.cs.bucket (bucketOf s.cs.runtime)).first := by
      rw [← hs]
      exact fun d hd => hd
    obtain ⟨hrun, hx⟩ := (due_iff hn hle hn.1 (hmem c (by simp))).mp hc
    refine ⟨_, rfl, h.mark hs hrun hx hle ?_ ht⟩
    intro d hd heq
    exact due_false hn hle hn.1 (hmem d (by simp [hd])) (hpre d hd) heq

lemma calloutExecute_spec (h : Inv s) (hn : Near s.cs) (ht : s.threads t = none) :
    ∃ r, executeLoop t s.cs.turns s.cs = some r ∧ Inv (s.enter t r) :=
  executeLoop_spec h hn ht (turns_eq h hn).ge

lemma executeResume_spec (h : Inv s) (hn : Near s.cs) {runtime : Int} {addr : Nat}
    (ht : s.threads t = some (runtime, addr)) :
    ∃ r, executeResume s.cs t runtime addr = some r ∧ Inv (s.enter t r) := by
  obtain ⟨hle, c, hci, hca, hcr, hcx, hct, hpass⟩ := h.threaded.running t runtime addr ht
  have hnear := hn.2 _ c hci
  rw [hcr] at hnear
  unfold executeResume
  dsimp only
  rcases splitFirst_spec (fun c => c.addr == addr) (s.cs.bucket (bucketOf runtime)).first with
    ⟨-, hall⟩ | ⟨before, cp, next, hsome, hs, hcp, -⟩
  · -- the callout is still in its bucket
    have := hall c hci
    simp [hca] at this
  rw [hsome]
  dsimp only
  have hcpi : cp ∈ s.at (bucketOf runtime) := by
    change cp ∈ (s.cs.bucket (bucketOf runtime)).first
    rw [hs]
    simp
  obtain ⟨-, rfl⟩ := h.placed.eq_of_addr hcpi hci (by rw [hca]; simpa using hcp)
  have hs' : s.at (bucketOf runtime) = before ++ cp :: next := hs
  have hbefore : ∀ d ∈ before, d.runtime = runtime → d.executing = true := by
    intro d hd
    apply hpass d
    rw [hs']
    exact (singleton_sublist.mpr hd).append (singleton_sublist.mpr (mem_cons_self ..))
  -- the callout leaves the bucket
  have hfin := h.finish hs' hcx hct
  let s1 : Sys := { s with
    cs := { s.cs.setFirst (bucketOf runtime) (before ++ next) with
      freelist := { cp with xid := 0 } :: s.cs.freelist }
    threads := update s.threads t none }
  have hat : ∀ j, s1.at j = if j = bucketOf runtime then before ++ next else s.at j :=
    fun j => setFirst_at _ _ j
  have hat' : s1.at (bucketOf runtime) = before ++ next := by rw [hat, if_pos rfl]
  have hn1 : Near s1.cs := by
    refine ⟨hn.1, ?_⟩
    intro j d hd
    exact hn.2 j d ((removed_sublist hs' hat j).subset hd)
  have ht1 : s1.threads t = none := update_self ..
  have henter : ∀ r, s1.enter t r = s.enter t r := by
    intro r
    unfold Sys.enter
    simp only [s1, update_idem]
  rcases splitFirst_spec (due runtime) next with ⟨hnone, hall⟩ | ⟨passed, c, after, hsome', hnext, hc, hpre⟩
  · rw [hnone]
    have hall' : ∀ d ∈ s1.at (bucketOf runtime), d.runtime = runtime → d.executing = true := by
      intro d hd heq
      have hd' := hd
      rw [hat', mem_append] at hd'
      rcases hd' with hd' | hd'
      · exact hbefore d hd' heq
      · exact due_false hn1 hle hnear.2 hd (hall d hd') heq
    by_cases hsame : same s1.cs.runtime runtime = true
    · have horder := h.timed.order.1
      have hnear' := hn.1
      have heq : s1.cs.runtime = runtime := (same_iff (by
        change s.cs.runtime - runtime < 2 ^ 32
        omega) (by
        change runtime - s.cs.runtime < 2 ^ 32
        omega)).mp hsame
      have hadv := hfin.advance (by rw [heq]; exact hle) (by rw [heq]; exact hall')
      obtain ⟨r, hr, hinv⟩ := calloutExecute_spec hadv hn1.advance ht1
      refine ⟨r, ?_, ?_⟩
      · rw [heq] at hr
        rw [if_pos hsame]
        exact hr
      · rw [← henter]
        exact hinv
    · obtain ⟨r, hr, hinv⟩ := calloutExecute_spec hfin hn1 ht1
      refine ⟨r, ?_, ?_⟩
      · rw [if_neg hsame]
        exact hr
      · rw [← henter]
        exact hinv
  · rw [hsome']
    refine ⟨_, rfl, ?_⟩
    have hsplit : s1.at (bucketOf runtime) = (before ++ passed) ++ c :: after := by
      rw [hat', hnext, append_assoc]
    have hmem : ∀ d ∈ next, d ∈ s1.at (bucketOf runtime) := by
      intro d hd
      rw [hat']
      exact mem_append_right _ hd
    obtain ⟨hrun, hx⟩ := (due_iff hn1 hle hnear.2 (hmem c (by simp [hnext]))).mp hc
    have hmark := hfin.mark hsplit hrun hx hle (by
      intro d hd heq
      rcases mem_append.mp hd with hd | hd
      · exact hbefore d hd heq
      · exact due_false hn1 hle hnear.2 (hmem d (by simp [hnext, hd])) (hpre d hd) heq) ht1
    rw [henter] at hmark
    exact hmark

end Loops

section Runs

variable {s s' : Sys}

lemma Inv.delete_exec (h : Inv s) (id : BitVec 32) (t : Nat) :
    ∃ s', s.exec (.delete id t) = some s' ∧ Inv s' := by
  simp only [Sys.exec, calloutDelete]
  rcases splitFirst_spec (fun c : Callout => c.xid &&& idMask == id) (s.cs.bucket (id &&& 255).toNat).first with
    ⟨hnone, -⟩ | ⟨pre, c, post, hsome, hs, -, -⟩
  · rw [hnone]
    exact ⟨s, rfl, h⟩
  rw [hsome]
  dsimp only
  by_cases hx : c.executing = true
  · rw [if_pos hx]
    split_ifs <;> exact ⟨s, rfl, h⟩
  · rw [if_neg hx]
    exact ⟨_, rfl, h.delete hs (Bool.eq_false_iff.mpr hx)⟩

lemma Inv.schedule_exec (h : Inv s) (hw : Window s) : ∃ s', s.exec .schedule = some s' ∧ Inv s' := by
  let s1 : Sys := { s with cs := { s.cs with curtime := s.lbolt } }
  have hn : Near s1.cs := by
    have hlb : s.Live s.lbolt := .inl rfl
    refine ⟨hw _ _ hlb (.inr (.inr (.inl rfl))), ?_⟩
    intro i c hc
    have hlive : s.Live c.runtime := .inr (.inr (.inr ⟨i, c, hc, rfl⟩))
    exact ⟨hw _ _ hlive hlb, hw _ _ hlb hlive⟩
  have hinv : Inv s1 := h.now
  obtain ⟨cs, hcs, hinv'⟩ := scheduleLoop_spec hinv hn (turns_eq hinv hn).ge
  refine ⟨{ s with cs }, ?_, hinv'⟩
  change (scheduleLoop s1.cs.turns s1.cs).map _ = _
  rw [hcs]
  rfl

lemma Inv.init {tableId : BitVec 32} {lbolt : Int} (ht : tableId = normalId ∨ tableId = realtimeId) :
    Inv (Sys.init tableId lbolt) := by
  have hempty : ∀ i, (Sys.init tableId lbolt).at i = [] := fun _ => rfl
  refine ⟨⟨?_, ?_, nodup_nil, ?_, ?_, ?_⟩, ⟨⟨?_, le_rfl⟩, ?_⟩, ⟨?_, ?_⟩, ⟨?_, ?_, ?_, nodup_nil, ?_, ?_⟩, ?_⟩
  all_goals try simp [hempty]
  · simp [Sys.init, calloutSetup]
  · simp [Sys.init, calloutSetup]
  · simp [Sys.init]
  · simp [Sys.init]
  · simp [Sys.init]
  · intro i hi
    obtain ⟨t, hval, _, hids⟩ := setup_ids ht
    exact ⟨t, by omega, i, by omega, i, by omega, hids i hi⟩

lemma Inv.exec (h : Inv s) (hw : Window s) {e : Event} (hl : Legal s e) :
    ∃ s', s.exec e = some s' ∧ Inv s' := by
  cases e with
  | insert delta fresh unsafeHeld =>
    obtain ⟨hpos, hwin, hfresh⟩ := hl
    exact ⟨_, rfl, h.insert hpos (hwin _ (.inr (.inl rfl))).1 hfresh⟩
  | delete id t => exact h.delete_exec id t
  | tick => exact ⟨_, rfl, h.tick⟩
  | schedule => exact h.schedule_exec hw
  | execute t =>
    obtain ⟨r, hr, hinv⟩ := calloutExecute_spec h hw.near hl
    refine ⟨s.enter t r, ?_, hinv⟩
    change s.threads t = none at hl
    simp only [Sys.exec, hl, calloutExecute, hr]
    rfl
  | resume t =>
    obtain ⟨⟨runtime, addr⟩, ht⟩ := Option.ne_none_iff_exists'.mp hl
    obtain ⟨r, hr, hinv⟩ := executeResume_spec h hw.near ht
    refine ⟨s.enter t r, ?_, hinv⟩
    simp only [Sys.exec, ht, hr]
    rfl

lemma Reachable.inv (h : Reachable s) : Inv s := by
  induction h with
  | init tableId lbolt ht => exact Inv.init ht
  | step e _ hw hl he ih =>
    obtain ⟨t, ht, hinv⟩ := ih.exec hw hl
    rw [he] at ht
    cases ht
    exact hinv

structure CalloutsExact (s : Sys) : Prop where
  once : (s.executed.map Execution.serial).Nodup
  timely : ∀ e ∈ s.executed, e.runtime ≤ e.curtime ∧
    ∃ x, s.inserted[e.serial]? = some x ∧ x ≤ e.runtime
  answers : ∀ id t, 0 ≤ (calloutDelete s.cs id t).value ↔
    ∃ timeLeft cp cs, calloutDelete s.cs id t = .deleted timeLeft cp cs
  deleted : ∀ n ∈ s.deleted, n ∉ s.executed.map Execution.serial
  waiting : ∀ i, ∀ c ∈ s.at i, c.executing = false → s.cs.runtime ≤ c.runtime
  placed : Placed s
  defined : Window s → ∀ e, Legal s e → ∃ s', s.exec e = some s'

lemma calloutDelete_answers (cs : Table) (id : BitVec 32) (t : Nat) :
    0 ≤ (calloutDelete cs id t).value ↔
      ∃ timeLeft cp cs', calloutDelete cs id t = .deleted timeLeft cp cs' := by
  constructor
  · intro hv
    cases hd : calloutDelete cs id t with
    | deleted timeLeft cp cs' => exact ⟨timeLeft, cp, cs', rfl⟩
    | bogus | nested | waits =>
      rw [hd] at hv
      simp [Deletion.value] at hv
  · rintro ⟨timeLeft, cp, cs', hd⟩
    have hd' := hd
    unfold calloutDelete at hd'
    dsimp only at hd'
    split at hd'
    · cases hd'
    split_ifs at hd' with h1 h2 h3
    · cases hd'
      rw [hd]
      exact le_rfl
    · cases hd'
      rw [hd]
      change 0 ≤ diff _ _
      omega

/-- Callouts run at most once, not before their time, never after they have been deleted, and none
is passed over. -/
theorem callouts_run_exactly (h : Reachable s) : CalloutsExact s := by
  have hinv := h.inv
  refine ⟨hinv.ledger.once, hinv.ledger.ran, calloutDelete_answers s.cs, ?_, hinv.timed.waiting,
    hinv.placed, ?_⟩
  · intro n hn
    exact (hinv.ledger.gone n hn).2.1
  · intro hw e hl
    obtain ⟨s', hs', -⟩ := hinv.exec hw hl
    exact ⟨s', hs'⟩

/-- A thousand ticks after boot at most, as far as buckets are looked at. -/
def Sys.early (s : Sys) : Bool :=
  [s.lbolt, s.cs.curtime, s.cs.runtime].all (fun x => 0 ≤ x && x ≤ 1000) &&
    (range 256).all fun i => (s.at i).all fun c => 0 ≤ c.runtime && c.runtime ≤ 1000

def Sys.allows (s : Sys) : Event → Bool
  | .insert delta fresh _ => 0 < delta && delta ≤ 1000 && fresh ∉ s.allocated
  | .execute t => (s.threads t).isNone
  | .resume t => (s.threads t).isSome
  | _ => true

def Sys.soon (s : Sys) : List Event → Option Sys
  | [] => some s
  | e :: es => if s.early && s.allows e then (s.exec e).bind (·.soon es) else none

lemma Reachable.live_early (h : Reachable s) (he : s.early = true) {x : Int} (hx : s.Live x) : 0 ≤ x ∧ x ≤ 1000 := by
  unfold Sys.early at he
  simp only [Bool.and_eq_true, all_eq_true, mem_cons, not_mem_nil, or_false, decide_eq_true_eq, forall_eq_or_imp, forall_eq,
    mem_range] at he
  obtain ⟨⟨hlbolt, hcur, hrun⟩, hbuckets⟩ := he
  rcases hx with rfl | rfl | rfl | ⟨i, c, hc, rfl⟩
  · exact hlbolt
  · exact hcur
  · exact hrun
  · refine hbuckets i ?_ c hc
    rw [← h.inv.placed.home i c hc]
    exact bucketOf_lt c.runtime

lemma Reachable.soon {es : List Event} (h : Reachable s) (hs : s.soon es = some s') : Reachable s' := by
  induction es generalizing s with
  | nil => exact Option.some.inj hs ▸ h
  | cons e es ih =>
    unfold Sys.soon at hs
    split_ifs at hs with hok
    obtain ⟨hearly, hallows⟩ := Bool.and_eq_true_iff.mp hok
    obtain ⟨t, ht, hs⟩ := Option.bind_eq_some_iff.mp hs
    refine ih (h.step e ?_ ?_ ht) hs
    · intro x y hx hy
      have := h.live_early hearly hx
      have := h.live_early hearly hy
      omega
    · have hlbolt := h.live_early hearly (.inl rfl)
      cases e with
      | insert delta fresh unsafeHeld =>
        simp only [Sys.allows, Bool.and_eq_true, decide_eq_true_eq] at hallows
        refine ⟨hallows.1.1, fun x hx => ?_, hallows.2⟩
        have := h.live_early hearly hx
        omega
      | execute t => exact Option.isNone_iff_eq_none.mp hallows
      | resume t => exact Option.ne_none_iff_isSome.mpr hallows
      | delete | tick | schedule => exact trivial

/-- Three callouts for the first tick. The second has been deleted, a thread runs the handler of the third, and the first
waits in the same bucket. -/
theorem callouts_run_exactly_handler : ∃ s, CalloutsExact s ∧ s.executed.map Execution.serial = [2] ∧ s.deleted = [1] ∧
    (s.at 1).map Callout.serial = [2, 0] ∧ s.threads 5 = some (1, 3) := by
  have hrun : ((Sys.init normalId 0).soon [.insert 1 1 false, .insert 1 2 true, .insert 1 3 false, .delete 0x10000201 4, .tick,
      .schedule, .execute 5]).map (fun s => (s.executed.map Execution.serial, s.deleted, (s.at 1).map Callout.serial,
        s.threads 5)) = some ([2], [1], [2, 0], some (1, 3)) := by
    decide +kernel
  obtain ⟨s, hs, hstate⟩ := Option.map_eq_some_iff.mp hrun
  simp only [Prod.mk.injEq] at hstate
  exact ⟨s, callouts_run_exactly ((Reachable.init normalId 0 (.inl rfl)).soon hs), hstate⟩

end Runs

end Solaris.Callouts
