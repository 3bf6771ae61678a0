import Solaris.Flock.ProcGraph

/-!
# The search for a deadlock

`flk_check_deadlock` marks a vertex as arrived only when it pushes a child, so a vertex
whose children are all done is never marked and may be pushed again.
-/

namespace Solaris.Flock

open Lib List Function

variable {succ : Nat → List Nat} {start : Nat} {s : ProcDfs}

lemma procScan_spec (arrived departed ws : List Nat) :
    match procScan arrived departed ws with
    | .push d rest => ∃ pre, ws = pre ++ d :: rest ∧ d ∉ arrived ∧ ∀ w ∈ pre, w ∈ arrived ∧ w ∈ departed
    | .deadlock => ∃ d ∈ ws, d ∈ arrived ∧ d ∉ departed
    | .depart => ∀ w ∈ ws, w ∈ arrived ∧ w ∈ departed := by
  induction ws with
  | nil => simp [procScan]
  | cons d rest ih =>
    by_cases ha : d ∈ arrived
    · by_cases hd : d ∈ departed
      · have heq : procScan arrived departed (d :: rest) = procScan arrived departed rest := by
          simp [procScan, ha, hd]
        rw [heq]
        cases hs : procScan arrived departed rest with
        | push e rest' =>
          rw [hs] at ih
          obtain ⟨pre, hpre, he, hall⟩ := ih
          refine ⟨d :: pre, by rw [hpre]; rfl, he, ?_⟩
          exact forall_mem_cons.mpr ⟨⟨ha, hd⟩, hall⟩
        | deadlock =>
          rw [hs] at ih
          obtain ⟨e, he, hx⟩ := ih
          exact ⟨e, by simp [he], hx⟩
        | depart =>
          rw [hs] at ih
          exact forall_mem_cons.mpr ⟨⟨ha, hd⟩, ih⟩
      · simp only [procScan, ha, hd, not_true_eq_false, not_false_eq_true, if_false, if_true]
        exact ⟨d, by simp, ha, hd⟩
    · have heq : procScan arrived departed (d :: rest) = .push d rest := by simp [procScan, ha]
      rw [heq]
      exact ⟨[], rfl, ha, by simp⟩

/-- What holds before each turn. All but the top of the stack are marked arrived, what is
arrived and not on the stack has departed, and a departed vertex is on no cycle. -/
structure DfsInv (succ : Nat → List Nat) (start : Nat) (s : ProcDfs) : Prop where
  begun : start ∈ s.stack ∨ start ∈ s.departed
  nodup : s.stack.Nodup
  above : s.stack.Pairwise (fun u v => Relation.TransGen (Step succ) v u)
  reached : ∀ v ∈ s.stack, Relation.ReflTransGen (Step succ) start v
  below : ∀ v ∈ s.stack.tail, v ∈ s.arrived
  arrived : ∀ v ∈ s.arrived, v ∈ s.stack ∨ v ∈ s.departed
  followed : ∀ pre v post, s.stack = pre ++ v :: post → ∀ w ∈ succ v,
    w ∈ s.pSedge v ∨ w ∈ s.departed ∨ w ∈ pre
  sedge : ∀ v ∈ s.stack, ∀ w ∈ s.pSedge v, w ∈ succ v
  fresh : ∀ v ∈ s.stack, v ∉ s.arrived → s.pSedge v = succ v
  closed : ∀ v ∈ s.departed, ∀ w ∈ succ v, w ∈ s.departed
  acyclic : ∀ v ∈ s.departed, ¬ Relation.TransGen (Step succ) v v

lemma DfsInv.closed_path (h : DfsInv succ start s) {v w : Nat} (hv : v ∈ s.departed)
    (hp : Relation.ReflTransGen (Step succ) v w) : w ∈ s.departed := by
  induction hp with
  | refl => exact hv
  | tail _ hst ih => exact h.closed _ ih _ hst

lemma DfsInv.init (succ : Nat → List Nat) (start : Nat) :
    DfsInv succ start ⟨[start], update (fun _ => []) start (succ start), [], []⟩ := by
  have hs : update (fun _ => ([] : List Nat)) start (succ start) start = succ start := update_self ..
  refine ⟨by simp, nodup_singleton _, pairwise_singleton _ _, ?_, by simp, by simp, ?_, ?_, ?_, by simp,
    by simp⟩
  · intro v hv
    rw [mem_singleton] at hv
    exact hv ▸ Relation.ReflTransGen.refl
  · intro pre v post hsplit w hw
    simp only at hsplit
    have hv : v ∈ [start] := by rw [hsplit]; simp
    rw [mem_singleton] at hv
    subst hv
    simp only
    rw [hs]
    exact .inl hw
  · intro v hv w hw
    rw [mem_singleton] at hv
    subst hv
    simpa using hw
  · intro v hv _
    rw [mem_singleton] at hv
    subst hv
    exact hs

lemma DfsInv.push (h : DfsInv succ start s) (hloop : ∀ v, v ∉ succ v) {v d : Nat} {st pre rest : List Nat}
    (hst : s.stack = v :: st) (hed : s.pSedge v = pre ++ d :: rest) (hd : d ∉ s.arrived)
    (hpre : ∀ w ∈ pre, w ∈ s.departed) :
    DfsInv succ start ⟨d :: v :: st, update (update s.pSedge d (succ d)) v rest,
      v :: s.arrived, s.departed⟩ := by
  have hvs : v ∈ s.stack := by simp [hst]
  have hdv : d ∈ succ v := h.sedge v hvs d (by simp [hed])
  have hne : d ≠ v := fun he => hloop v (he ▸ hdv)
  have hdst : d ∉ st := by
    intro hm
    apply hd
    apply h.below
    rw [hst]
    exact hm
  have hnd := h.nodup
  have hab := h.above
  rw [hst, nodup_cons] at hnd
  rw [hst, pairwise_cons] at hab
  have hself : update (update s.pSedge d (succ d)) v rest v = rest := update_self ..
  have hchild : update (update s.pSedge d (succ d)) v rest d = succ d := by
    rw [update_of_ne hne, update_self]
  have hother : ∀ u ∈ st, update (update s.pSedge d (succ d)) v rest u = s.pSedge u := by
    intro u hu
    have huv : u ≠ v := fun he => hnd.1 (he ▸ hu)
    have hud : u ≠ d := fun he => hdst (he ▸ hu)
    rw [update_of_ne huv, update_of_ne hud]
  have hbegun := h.begun
  rw [hst] at hbegun
  refine ⟨?_, ?_, ?_, ?_, ?_, ?_, ?_, ?_, ?_, h.closed, h.acyclic⟩
  · rcases hbegun with hb | hb
    · exact .inl (mem_cons_of_mem _ hb)
    · exact .inr hb
  · rw [nodup_cons, nodup_cons]
    refine ⟨?_, hnd⟩
    rw [mem_cons]
    rintro (he | hm)
    · exact hne he
    · exact hdst hm
  · rw [pairwise_cons, pairwise_cons]
    refine ⟨?_, hab⟩
    exact forall_mem_cons.mpr ⟨Relation.TransGen.single hdv, fun u hu => Relation.TransGen.tail (hab.1 u hu) hdv⟩
  · exact forall_mem_cons.mpr ⟨(h.reached v hvs).tail hdv, fun u hu => h.reached u (by rw [hst]; exact hu)⟩
  · refine forall_mem_cons.mpr ⟨by simp, fun u hu => ?_⟩
    apply mem_cons_of_mem
    apply h.below
    rw [hst]
    exact hu
  · refine forall_mem_cons.mpr ⟨.inl (by simp), fun u hu => ?_⟩
    rcases h.arrived u hu with hu | hu
    · rw [hst] at hu
      exact .inl (mem_cons_of_mem _ hu)
    · exact .inr hu
  · intro pre' u post hsplit w hw
    simp only at hsplit ⊢
    cases pre' with
    | nil =>
      simp only [nil_append, cons.injEq] at hsplit
      rw [← hsplit.1] at hw ⊢
      rw [hchild]
      exact .inl hw
    | cons a pre' =>
      simp only [cons_append, cons.injEq] at hsplit
      obtain ⟨rfl, hsplit⟩ := hsplit
      have hold := h.followed pre' u post (hst.trans hsplit) w hw
      cases pre' with
      | nil =>
        simp only [nil_append, cons.injEq] at hsplit
        rw [← hsplit.1] at hold ⊢
        rw [hself]
        rw [hed, mem_append, mem_cons] at hold
        rcases hold with (hw | rfl | hw) | hw | hw
        · exact .inr (.inl (hpre w hw))
        · exact .inr (.inr (by simp))
        · exact .inl hw
        · exact .inr (.inl hw)
        · exact absurd hw not_mem_nil
      | cons b pre' =>
        simp only [cons_append, cons.injEq] at hsplit
        rw [hother u (by rw [hsplit.2]; simp)]
        rcases hold with hw | hw | hw
        · exact .inl hw
        · exact .inr (.inl hw)
        · exact .inr (.inr (mem_cons_of_mem _ hw))
  · intro u hu w hw
    simp only at hw
    rcases mem_cons.mp hu with rfl | hu
    · rw [hchild] at hw
      exact hw
    rcases mem_cons.mp hu with rfl | hu
    · rw [hself] at hw
      exact h.sedge u hvs w (by rw [hed]; simp [hw])
    · rw [hother u hu] at hw
      exact h.sedge u (by rw [hst]; simp [hu]) w hw
  · intro u hu hna
    simp only at hna ⊢
    rcases mem_cons.mp hu with rfl | hu
    · exact hchild
    rcases mem_cons.mp hu with rfl | hu
    · exact absurd (mem_cons_self ..) hna
    · rw [hother u hu]
      exact h.fresh u (by rw [hst]; simp [hu]) fun ha => hna (mem_cons_of_mem _ ha)

lemma DfsInv.depart (h : DfsInv succ start s) {v : Nat} {st : List Nat} (hst : s.stack = v :: st)
    (hall : ∀ w ∈ s.pSedge v, w ∈ s.departed) :
    DfsInv succ start ⟨st, s.pSedge, s.arrived, v :: s.departed⟩ := by
  have hsucc : ∀ w ∈ succ v, w ∈ s.departed := by
    intro w hw
    rcases h.followed [] v st hst w hw with hw | hw | hw
    · exact hall w hw
    · exact hw
    · exact absurd hw not_mem_nil
  have hnd := h.nodup
  have hab := h.above
  rw [hst, nodup_cons] at hnd
  rw [hst, pairwise_cons] at hab
  have hmem : ∀ u ∈ st, u ∈ s.stack := by
    intro u hu
    rw [hst]
    exact mem_cons_of_mem _ hu
  refine ⟨?_, hnd.2, hab.2, fun u hu => h.reached u (hmem u hu), ?_, ?_, ?_, fun u hu => h.sedge u (hmem u hu),
    fun u hu => h.fresh u (hmem u hu), ?_, ?_⟩
  · have hbegun := h.begun
    rw [hst] at hbegun
    rcases hbegun with hb | hb
    · rcases mem_cons.mp hb with rfl | hb
      · exact .inr (by simp)
      · exact .inl hb
    · exact .inr (mem_cons_of_mem _ hb)
  · intro u hu
    apply h.below
    rw [hst]
    exact mem_of_mem_tail hu
  · intro u hu
    rcases h.arrived u hu with hu | hu
    · rw [hst] at hu
      rcases mem_cons.mp hu with rfl | hu
      · exact .inr (by simp)
      · exact .inl hu
    · exact .inr (mem_cons_of_mem _ hu)
  · intro pre u post hsplit w hw
    have hsplit' : s.stack = (v :: pre) ++ u :: post := by
      rw [hst]
      exact congrArg (cons v) hsplit
    rcases h.followed (v :: pre) u post hsplit' w hw with hw | hw | hw
    · exact .inl hw
    · exact .inr (.inl (mem_cons_of_mem _ hw))
    · rcases mem_cons.mp hw with rfl | hw
      · exact .inr (.inl (by simp))
      · exact .inr (.inr hw)
  · intro u hu w hw
    apply mem_cons_of_mem
    rcases mem_cons.mp hu with rfl | hu
    · exact hsucc w hw
    · exact h.closed u hu w hw
  · intro u hu hc
    rcases mem_cons.mp hu with rfl | hu
    · -- a cycle through the vertex would lead back to it among the departed ones
      obtain ⟨w, hw, hp⟩ := Relation.TransGen.head'_iff.mp hc
      exact h.acyclic u (h.closed_path (hsucc w hw) hp) hc
    · exact h.acyclic u hu hc

def dfsPotential (succ : Nat → List Nat) (n : Nat) (s : ProcDfs) : Nat :=
  ∑ i ∈ Finset.range n, if i ∈ s.arrived then (s.pSedge i).length else (succ i).length

lemma dfsPotential_push (h : DfsInv succ start s) {n : Nat} (hn : ∀ v, succ v ≠ [] → v < n) {v d : Nat}
    {st pre rest : List Nat} (hst : s.stack = v :: st) (hed : s.pSedge v = pre ++ d :: rest) (hd : d ∉ s.arrived)
    (stack : List Nat) :
    dfsPotential succ n ⟨stack, update (update s.pSedge d (succ d)) v rest,
      v :: s.arrived, s.departed⟩ < dfsPotential succ n s := by
  have hvs : v ∈ s.stack := by simp [hst]
  have hdv : d ∈ succ v := h.sedge v hvs d (by simp [hed])
  have hvn : v ∈ Finset.range n := Finset.mem_range.mpr (hn v (ne_nil_of_mem hdv))
  have hterm : rest.length < if v ∈ s.arrived then (s.pSedge v).length else (succ v).length := by
    have hlen : rest.length < (s.pSedge v).length := by
      rw [hed, length_append, length_cons]
      omega
    split
    · exact hlen
    · next ha =>
      rw [← h.fresh v hvs ha]
      exact hlen
  have hrest : ∀ i, i ≠ v → (if i ∈ v :: s.arrived then
      (update (update s.pSedge d (succ d)) v rest i).length else (succ i).length) =
      if i ∈ s.arrived then (s.pSedge i).length else (succ i).length := by
    intro i hi
    rw [update_of_ne hi]
    by_cases ha : i ∈ s.arrived
    · have hid : i ≠ d := fun he => hd (he ▸ ha)
      rw [if_pos (mem_cons_of_mem _ ha), if_pos ha, update_of_ne hid]
    · rw [if_neg (by simp [hi, ha]), if_neg ha]
  apply Finset.sum_lt_sum
  · intro i _
    by_cases hi : i = v
    · subst hi
      simp only [mem_cons_self, if_true, update_self]
      exact le_of_lt hterm
    · exact le_of_eq (hrest i hi)
  · refine ⟨v, hvn, ?_⟩
    simp only [mem_cons_self, if_true, update_self]
    exact hterm

lemma procDfs_spec (hloop : ∀ v, v ∉ succ v) {n : Nat} (hn : ∀ v, succ v ≠ [] → v < n) (fuel : Nat)
    (h : DfsInv succ start s) (hf : 2 * dfsPotential succ n s + s.stack.length < fuel) :
    ∃ b, procDfs succ fuel s = some b ∧
      (b = true ↔ ∃ v, Relation.ReflTransGen (Step succ) start v ∧ Relation.TransGen (Step succ) v v) := by
  induction fuel generalizing s with
  | zero => omega
  | succ fuel ih =>
    cases hst : s.stack with
    | nil =>
      refine ⟨false, by simp [procDfs, hst], ?_⟩
      simp only [Bool.false_eq_true, false_iff, not_exists, not_and]
      intro v hv
      have hbegun := h.begun
      rw [hst] at hbegun
      rcases hbegun with hb | hb
      · exact absurd hb not_mem_nil
      · exact h.acyclic v (h.closed_path hb hv)
    | cons v st =>
      have hvs : v ∈ s.stack := by simp [hst]
      have hscan := procScan_spec s.arrived s.departed (s.pSedge v)
      cases hs : procScan s.arrived s.departed (s.pSedge v) with
      | push d rest =>
        rw [hs] at hscan
        obtain ⟨pre, hed, hd, hpre⟩ := hscan
        have hpot := dfsPotential_push h hn hst hed hd (d :: v :: st)
        have hinv := h.push hloop hst hed hd (fun w hw => (hpre w hw).2)
        simp only [procDfs, hst, hs]
        apply ih hinv
        simp only [hst, length_cons] at hf ⊢
        omega
      | deadlock =>
        rw [hs] at hscan
        obtain ⟨d, hd, ha, hnd⟩ := hscan
        refine ⟨true, by simp [procDfs, hst, hs], ?_⟩
        simp only [true_iff]
        have hdv : d ∈ succ v := h.sedge v hvs d hd
        have hds : d ∈ s.stack := (h.arrived d ha).resolve_right hnd
        refine ⟨d, h.reached d hds, ?_⟩
        have hab := h.above
        rw [hst, pairwise_cons] at hab
        rw [hst] at hds
        rcases mem_cons.mp hds with rfl | hds
        · exact Relation.TransGen.single hdv
        · exact Relation.TransGen.tail (hab.1 d hds) hdv
      | depart =>
        rw [hs] at hscan
        simp only [procDfs, hst, hs]
        apply ih (h.depart hst (fun w hw => (hscan w hw).2))
        simp only [hst, length_cons] at hf ⊢
        have hpot : dfsPotential succ n ⟨st, s.pSedge, s.arrived, v :: s.departed⟩ = dfsPotential succ n s := rfl
        omega

end Solaris.Flock
