import Solaris.Flock.ProcCounts

/-!
# Updates of the process graph

`flk_update_proc_graph` and `flk_check_deadlock` on a process graph that represents
counts of lock edges.
-/

namespace Solaris.Flock

open Lib List Function Nat ProcGraph

variable {pg : ProcGraph} {m : Owner → Owner → Nat} {X : Nat → Prop} {vx vx' : Slots} {f t i j : Nat} {a b o : Owner}
  {v w : ProcVertex} {lock : Nat → LockDescriptor} {ps : ProcState}

lemma Got.at_slot (h : Got vx i o vx') : vx'.At i o := by
  cases h with
  | found h => exact h
  | made hn hno => exact ⟨newVertex o, update_self .., rfl⟩

lemma Got.kept (h : Got vx i o vx') {k : Nat} {u : ProcVertex} (hu : vx k = some u) : vx' k = some u := by
  cases h with
  | found _ => exact hu
  | made hn hno =>
    rw [update_of_ne]
    · exact hu
    · rintro rfl
      rw [hn] at hu
      simp at hu

lemma procEdgeAdd_vertex (hv : pg.vertex f = some v) (hw : pg.vertex t = some w) (hne : f ≠ t) :
    (procEdgeAdd pg f t).vertex = Slots.edit pg.vertex f t v w (edgesAdd v.edge t)
      (w.incount + if t ∈ v.edge.map (·.toProc) then 0 else 1) := by
  unfold procEdgeAdd Slots.edit edgesAdd
  rw [edges_of_vertex hv]
  simp only [any_toProc]
  by_cases hm : t ∈ v.edge.map (·.toProc)
  · simp only [hm, if_true]
    funext k
    rw [vertex_modify, update_apply, update_apply, hv]
    by_cases hk : k = f
    · simp [hk, recount]
    · by_cases hkt : k = t
      · simp [hkt, Ne.symm hne, hw]
      · simp [hk, hkt]
  simp only [hm, if_false]
  funext k
  rw [vertex_modify, vertex_modify, vertex_modify, update_apply,
    update_apply, hw]
  by_cases hk : k = f
  · simp [hk, hne, hv]
  · by_cases hkt : k = t
    · simp [hkt, Ne.symm hne]
    · simp [hk, hkt]

lemma procEdgeDelete_vertex (hv : pg.vertex f = some v) (hw : pg.vertex t = some w) (hne : f ≠ t)
    (hm : t ∈ v.edge.map (·.toProc)) (rel : Nat) :
    ∃ pg1 : ProcGraph, pg1.vertex = Slots.edit pg.vertex f t v w (edgesDelete v.edge t)
        (w.incount - if refcountTo v.edge t ≤ 1 then 1 else 0) ∧
      procEdgeDelete pg f t rel = if refcountTo v.edge t ≤ 1 then flkProcRelease pg1 rel else pg1 := by
  obtain ⟨e, hfind⟩ : ∃ e, v.edge.find? (·.toProc == t) = some e := by
    rw [← Option.isSome_iff_exists, find?_isSome]
    obtain ⟨e, he, rfl⟩ := mem_map.mp hm
    exact ⟨e, he, by simp⟩
  have hcount : refcountTo v.edge t = e.refcount := by simp [refcountTo, hfind]
  unfold procEdgeDelete
  rw [edges_of_vertex hv, hfind, hcount]
  by_cases hle : e.refcount ≤ 1
  · have hz : e.refcount - 1 = 0 := by omega
    simp only [hz, hle, if_true]
    refine ⟨_, ?_, rfl⟩
    funext k
    unfold Slots.edit edgesDelete
    rw [hcount, if_pos hle, vertex_modify, vertex_modify, vertex_modify,
      update_apply, update_apply, hv]
    by_cases hk : k = f
    · simp [hk, hne]
    · by_cases hkt : k = t
      · simp [hkt, Ne.symm hne, hw]
      · simp [hk, hkt]
  · have hz : ¬ e.refcount - 1 = 0 := by omega
    simp only [hz, hle, if_false]
    refine ⟨_, ?_, rfl⟩
    funext k
    unfold Slots.edit edgesDelete
    rw [hcount, if_neg hle, vertex_modify, update_apply, update_apply, hv]
    by_cases hk : k = f
    · simp [hk, recount]
    · by_cases hkt : k = t
      · simp [hkt, Ne.symm hne, hw]
      · simp [hk, hkt]

lemma flkProcRelease_vertex (pg : ProcGraph) (i : Nat) :
    ((flkProcRelease pg i).vertex = pg.vertex ∧ ∀ v, pg.vertex i = some v → ¬(v.edge = [] ∧ v.incount = 0)) ∨
      ((flkProcRelease pg i).vertex = update pg.vertex i none ∧
        ∃ v, pg.vertex i = some v ∧ v.edge = [] ∧ v.incount = 0) := by
  unfold flkProcRelease
  cases hv : pg.vertex i with
  | none => exact .inl ⟨rfl, by simp⟩
  | some v =>
    simp only
    by_cases he : v.edge = [] ∧ v.incount = 0
    · right
      refine ⟨?_, v, rfl, he⟩
      rw [if_pos he]
      funext k
      rw [vertex_set pg _ _ (lt_of_vertex hv), update_apply]
    left
    rw [if_neg he]
    refine ⟨rfl, ?_⟩
    intro u hu
    rw [← Option.some_inj.mp hu]
    exact he

lemma Slots.at_edit (hv : vx f = some v) (hw : vx t = some w) (es : List ProcEdge) (c : Nat) {k : Nat} {a : Owner}
    (h : vx.At k a) : (vx.edit f t v w es c).At k a := by
  obtain ⟨u, hu, rfl⟩ := h
  exact Slots.edit_some hv hw es c hu

lemma Slots.At.ne (hf : vx.At f a) (ht : vx.At t b) (hab : a ≠ b) : f ≠ t := by
  obtain ⟨v, hv, rfl⟩ := hf
  obtain ⟨w, hw, rfl⟩ := ht
  rintro rfl
  rw [hv, Option.some_inj] at hw
  exact hab (by rw [hw])

lemma Got.at_mono (h : Got vx i o vx') {k : Nat} {c : Owner} (hk : vx.At k c) : vx'.At k c := by
  obtain ⟨u, hu, rfl⟩ := hk
  exact ⟨u, h.kept hu, rfl⟩

/-- Every vertex of `vx₀` is still in its slot, with the edges it had. -/
def Kept (vx₀ vx : Slots) : Prop :=
  ∀ i v, vx₀ i = some v → ∃ u, vx i = some u ∧ u.owner = v.owner ∧
    (v.edge.map (·.toProc)).Sublist (u.edge.map (·.toProc))

variable {vx₀ : Slots} {m0 : Owner → Owner → Nat}

lemma Kept.refl (vx : Slots) : Kept vx vx := fun _ v hv => ⟨v, hv, rfl, List.Sublist.refl _⟩

lemma Kept.got (h : Kept vx₀ vx) (hg : Got vx i o vx') : Kept vx₀ vx' := by
  intro k v hv
  obtain ⟨u, hu, ho, hs⟩ := h k v hv
  exact ⟨u, hg.kept hu, ho, hs⟩

lemma Kept.edit (h : Kept vx₀ vx) (hv : vx f = some v) (hw : vx t = some w) {es : List ProcEdge} {c : Nat}
    (hs : ∀ x, vx₀ f = some x → (x.edge.map (·.toProc)).Sublist (v.edge.map (·.toProc)) →
      (x.edge.map (·.toProc)).Sublist (es.map (·.toProc))) : Kept vx₀ (vx.edit f t v w es c) := by
  intro k x hx
  obtain ⟨u, hu, ho, hsub⟩ := h k x hx
  unfold Slots.edit
  by_cases hkf : k = f
  · subst hkf
    rw [update_self]
    rw [hv, Option.some_inj] at hu
    subst hu
    exact ⟨_, rfl, ho, hs x hx hsub⟩
  rw [update_of_ne hkf]
  by_cases hkt : k = t
  · subst hkt
    rw [update_self]
    rw [hw, Option.some_inj] at hu
    subst hu
    exact ⟨_, rfl, ho, hsub⟩
  · rw [update_of_ne hkt]
    exact ⟨u, hu, ho, hsub⟩

lemma Kept.edit_add (h : Kept vx₀ vx) (hv : vx f = some v) (hw : vx t = some w) (c : Nat) :
    Kept vx₀ (vx.edit f t v w (edgesAdd v.edge t) c) := by
  apply h.edit hv hw
  intro x _ hsub
  rw [edgesAdd_toProc]
  split
  · exact hsub
  · exact hsub.cons t

lemma Kept.edit_delete (h : Kept vx₀ vx) (h0 : Counts m0 X vx₀) (hle : ∀ a b, m0 a b ≤ m a b)
    (hv : vx f = some v) (hw : vx t = some w) (hcount : refcountTo v.edge t = m v.owner w.owner + 1) (c : Nat) :
    Kept vx₀ (vx.edit f t v w (edgesDelete v.edge t) c) := by
  apply h.edit hv hw
  intro x hx hsub
  rw [edgesDelete_toProc]
  split
  · next hone =>
    have hz : m0 v.owner w.owner = 0 := by
      have := hle v.owner w.owner
      omega
    have hnot : t ∉ x.edge.map (·.toProc) := by
      intro hm
      have hok := h0.ok f x hx
      have hpos := hok.pos_iff.mpr hm
      obtain ⟨e, he, rfl⟩ := mem_map.mp hm
      obtain ⟨y, hy⟩ := h0.target f x hx e he
      obtain ⟨u, hu, ho, -⟩ := h f x hx
      obtain ⟨u', hu', ho', -⟩ := h e.toProc y hy
      rw [hv, Option.some_inj] at hu
      rw [hw, Option.some_inj] at hu'
      rw [h0.refcount f x _ y hx hy, ← ho, ← ho', ← hu, ← hu', hz] at hpos
      exact lt_irrefl _ hpos
    have her := hsub.erase t
    rw [erase_of_not_mem hnot] at her
    exact her
  · exact hsub

lemma Kept.release (h : Kept vx₀ vx) (h0 : Counts m0 (fun _ => False) vx₀) (hc : Counts m X vx)
    (hle : ∀ a b, m0 a b ≤ m a b) (hv : vx i = some v) (hnil : v.edge = []) (hz : v.incount = 0) :
    Kept vx₀ (update vx i none) := by
  intro k x hx
  obtain ⟨u, hu, ho, hsub⟩ := h k x hx
  refine ⟨u, ?_, ho, hsub⟩
  rw [update_of_ne]
  · exact hu
  rintro rfl
  rw [hv, Option.some_inj] at hu
  subst hu
  apply h0.used k x hx
  · rw [h0.edge_eq_nil hx]
    intro b
    have hb := (hc.edge_eq_nil hv).mp hnil b
    have := hle v.owner b
    rw [← ho]
    omega
  · rw [h0.incount_eq_zero hx]
    intro a
    have ha := (hc.incount_eq_zero hv).mp hz a
    have := hle a v.owner
    rw [← ho]
    omega

lemma Kept.eq (h : Kept vx₀ vx) (h0 : Counts m (fun _ => False) vx₀) (hc : Counts m (fun _ => False) vx) :
    vx = vx₀ := by
  have hslot : ∀ k u, vx k = some u → ∃ x, vx₀ k = some x := by
    intro k u hu
    have hlive : ∃ l, vx₀.At l u.owner := by
      by_contra hno
      apply hc.used k u hu
      · rw [hc.edge_eq_nil hu]
        intro b
        by_contra hb
        exact hno (h0.present u.owner b (by omega)).1
      · rw [hc.incount_eq_zero hu]
        intro a
        by_contra ha
        exact hno (h0.present a u.owner (by omega)).2
    obtain ⟨l, x, hx, ho⟩ := hlive
    obtain ⟨u', hu', ho', -⟩ := h l x hx
    have hkl : k = l := hc.unique k l u.owner ⟨u, hu, rfl⟩ ⟨u', hu', ho'.trans ho⟩
    exact ⟨x, hkl ▸ hx⟩
  funext k
  cases hx : vx₀ k with
  | none =>
    cases hu : vx k with
    | none => rfl
    | some u =>
      obtain ⟨x, hx'⟩ := hslot k u hu
      rw [hx] at hx'
      simp at hx'
  | some x =>
    obtain ⟨u, hu, ho, hsub⟩ := h k x hx
    have hokx := h0.ok k x hx
    have hoku := hc.ok k u hu
    -- the same targets, and in the same order
    have htargets : ∀ j ∈ u.edge.map (·.toProc), j ∈ x.edge.map (·.toProc) := by
      intro j hj
      have hpos := hoku.pos_iff.mpr hj
      obtain ⟨e, he, rfl⟩ := mem_map.mp hj
      obtain ⟨y, hy⟩ := hc.target k u hu e he
      obtain ⟨y0, hy0⟩ := hslot _ y hy
      obtain ⟨y', hy', hyo, -⟩ := h _ y0 hy0
      rw [hy, Option.some_inj] at hy'
      rw [← hokx.pos_iff, h0.refcount k x _ y0 hx hy0, ← ho, ← hyo, ← hy', ← hc.refcount k u _ y hu hy]
      exact hpos
    have hmap : x.edge.map (·.toProc) = u.edge.map (·.toProc) := by
      apply hsub.eq_of_length_le
      exact (hoku.nodup.subperm htargets).length_le
    have hedge : u.edge = x.edge := by
      apply hoku.ext hokx hmap.symm
      intro j hj
      obtain ⟨e, he, rfl⟩ := mem_map.mp hj
      obtain ⟨y, hy⟩ := hc.target k u hu e he
      obtain ⟨y0, hy0⟩ := hslot _ y hy
      obtain ⟨y', hy', hyo, -⟩ := h _ y0 hy0
      rw [hy, Option.some_inj] at hy'
      rw [hc.refcount k u _ y hu hy, h0.refcount k x _ y0 hx hy0, ho, hy', hyo]
    have hin : u.incount = x.incount := by
      obtain ⟨S, hS, hcS⟩ := hc.incount k u hu
      obtain ⟨T, hT, hcT⟩ := h0.incount k x hx
      have hST : S = T := by
        ext a
        rw [hS, hT, ho]
      rw [hcS, hcT, hST]
    have hux : u = x := by
      cases u
      cases x
      simp only [ProcVertex.owner, Prod.mk.injEq] at ho hedge hin
      rw [ho.1, ho.2, hedge, hin]
    rw [hu, hux]

/-- The slots represent `m`, and nothing of `vx₀` is gone. -/
structure Tracks (vx₀ : Slots) (m : Owner → Owner → Nat) (X : Nat → Prop) (vx : Slots) : Prop where
  counts : Counts m X vx
  kept : Kept vx₀ vx

lemma Tracks.mono {Y : Nat → Prop} (h : Tracks vx₀ m X vx) (hXY : ∀ i, X i → Y i) : Tracks vx₀ m Y vx :=
  ⟨h.counts.mono hXY, h.kept⟩

lemma Tracks.congr {m' : Owner → Owner → Nat} (h : Tracks vx₀ m X vx) (hm : ∀ a b, m' a b = m a b) :
    Tracks vx₀ m' X vx := ⟨h.counts.congr hm, h.kept⟩

lemma Tracks.got (h : Tracks vx₀ m X vx) (hg : Got vx i o vx') : Tracks vx₀ m (fun k => X k ∨ k = i) vx' :=
  ⟨h.counts.get hg, h.kept.got hg⟩

lemma Tracks.add (h : Tracks vx₀ m X pg.vertex) (hf : Slots.At pg.vertex f a) (ht : Slots.At pg.vertex t b)
    (hab : a ≠ b) :
    Tracks vx₀ (plusOne m a b) (fun k => X k ∧ k ≠ f ∧ k ≠ t) (procEdgeAdd pg f t).vertex ∧
      ∀ k c, Slots.At pg.vertex k c → Slots.At (procEdgeAdd pg f t).vertex k c := by
  have hne := hf.ne ht hab
  obtain ⟨v, hv, rfl⟩ := hf
  obtain ⟨w, hw, rfl⟩ := ht
  rw [procEdgeAdd_vertex hv hw hne]
  exact ⟨⟨h.counts.add hv hw hne, h.kept.edit_add hv hw _⟩, fun k c hk => Slots.at_edit hv hw _ _ hk⟩

lemma Tracks.release (h : Tracks vx₀ m X pg.vertex) (h0 : Counts m0 (fun _ => False) vx₀)
    (hle : ∀ a b, m0 a b ≤ m a b) (i : Nat) :
    Tracks vx₀ m (fun k => X k ∧ k ≠ i) (flkProcRelease pg i).vertex ∧
      ∀ k c, k ≠ i → Slots.At pg.vertex k c → Slots.At (flkProcRelease pg i).vertex k c := by
  rcases flkProcRelease_vertex pg i with ⟨heq, hno⟩ | ⟨heq, v, hv, he, hc⟩
  · rw [heq]
    have hX := h.counts
    refine ⟨⟨⟨hX.unique, hX.ok, hX.target, hX.refcount, hX.present, hX.incount, ?_⟩, h.kept⟩, fun k c _ hk => hk⟩
    intro k u hu hu1 hu2
    refine ⟨hX.used k u hu hu1 hu2, ?_⟩
    rintro rfl
    exact hno u hu ⟨hu1, hu2⟩
  · rw [heq]
    refine ⟨⟨h.counts.release hv he hc, h.kept.release h0 h.counts hle hv he hc⟩, ?_⟩
    rintro k c hk ⟨u, hu, ho⟩
    exact ⟨u, by rw [update_of_ne hk]; exact hu, ho⟩

lemma Tracks.delete (h : Tracks vx₀ (plusOne m a b) X pg.vertex) (h0 : Counts m0 (fun _ => False) vx₀)
    (hle : ∀ a b, m0 a b ≤ m a b) (hf : Slots.At pg.vertex f a) (ht : Slots.At pg.vertex t b) (hab : a ≠ b)
    {rel : Nat} (hrel : rel = f ∨ rel = t) :
    Tracks vx₀ m (fun k => (X k ∨ k = f ∨ k = t) ∧ k ≠ rel) (procEdgeDelete pg f t rel).vertex ∧
      ∀ k c, k ≠ rel → Slots.At pg.vertex k c → Slots.At (procEdgeDelete pg f t rel).vertex k c := by
  have hne := hf.ne ht hab
  obtain ⟨v, hv, rfl⟩ := hf
  obtain ⟨w, hw, rfl⟩ := ht
  obtain ⟨hmem, hcount, hc⟩ := h.counts.delete hv hw hne
  obtain ⟨pg1, hpg1, heq⟩ := procEdgeDelete_vertex hv hw hne hmem rel
  have hk := h.kept.edit_delete h0 hle hv hw hcount (w.incount - if refcountTo v.edge t ≤ 1 then 1 else 0)
  have hat : ∀ k c, Slots.At pg.vertex k c → Slots.At pg1.vertex k c := by
    intro k c hkc
    rw [hpg1]
    exact Slots.at_edit hv hw _ _ hkc
  rw [← hpg1] at hc hk
  rw [heq]
  split_ifs with hone
  · obtain ⟨h1, h2⟩ := Tracks.release ⟨hc, hk⟩ h0 hle rel
    refine ⟨h1.mono ?_, fun k c hkr hkc => h2 k c hkr (hat k c hkc)⟩
    rintro k ⟨hx | ⟨-, hx⟩, hkr⟩
    · exact ⟨.inl hx, hkr⟩
    · exact ⟨.inr hx, hkr⟩
  have hpos : m v.owner w.owner ≠ 0 := by omega
  refine ⟨⟨⟨hc.unique, hc.ok, hc.target, hc.refcount, hc.present, hc.incount, ?_⟩, hk⟩, fun k c _ => hat k c⟩
  intro k u hu he hz
  have hX : X k := by
    rcases hc.used k u hu he hz with hx | ⟨hx, -⟩
    · exact hx
    · exact absurd hx hpos
  refine ⟨.inl hX, ?_⟩
  -- both ends still have the edge
  have hne0 := (hc.edge_eq_nil hu).mp he
  have hin0 := (hc.incount_eq_zero hu).mp hz
  obtain ⟨x, hx, hxo⟩ := hat f v.owner ⟨v, hv, rfl⟩
  obtain ⟨y, hy, hyo⟩ := hat t w.owner ⟨w, hw, rfl⟩
  rintro rfl
  rcases hrel with rfl | rfl
  · rw [hx, Option.some_inj] at hu
    rw [← hu, hxo] at hne0
    exact hpos (hne0 w.owner)
  · rw [hy, Option.some_inj] at hu
    rw [← hu, hyo] at hin0
    exact hpos (hin0 v.owner)

lemma ProcState.get_got (ps : ProcState) (lock : Nat → LockDescriptor) (l : Nat) :
    Got ps.pg.vertex (ps.get lock l).1 (lock l).owner (ps.get lock l).2.pg.vertex :=
  flkGetProcVertex_got ps.pg (ps.pvertex l) (lock l).owner

lemma Counts.empty : Counts (fun _ _ => 0) (fun _ => False) (fun _ => none) := by
  refine ⟨?_, ?_, ?_, ?_, ?_, ?_, ?_⟩ <;> simp [Slots.At]

lemma Counts.tracks (h : Counts m X vx) : Tracks (fun _ => none) m X vx := ⟨h, by intro i v hv; simp at hv⟩

lemma flkUpdateProcGraph_add (h : Counts m X ps.pg.vertex) (hne : (lock f).owner ≠ (lock t).owner) :
    Counts (plusOne m (lock f).owner (lock t).owner) X (flkUpdateProcGraph lock ps f t false).pg.vertex := by
  have hgt := ps.get_got lock t
  have hgf := (ps.get lock t).2.get_got lock f
  obtain ⟨h1, -⟩ := ((h.tracks.got hgt).got hgf).add hgf.at_slot (hgf.at_mono hgt.at_slot) hne
  apply h1.counts.mono
  rintro k ⟨(hk | hk) | hk, hkf, hkt⟩
  · exact hk
  · exact absurd hk hkt
  · exact absurd hk hkf

lemma flkUpdateProcGraph_delete (h : Counts (plusOne m (lock f).owner (lock t).owner) X ps.pg.vertex)
    (hne : (lock f).owner ≠ (lock t).owner) : Counts m X (flkUpdateProcGraph lock ps f t true).pg.vertex := by
  have hgt := ps.get_got lock t
  have hgf := (ps.get lock t).2.get_got lock f
  obtain ⟨h1, -⟩ := ((h.tracks.got hgt).got hgf).delete Counts.empty (fun _ _ => zero_le _) hgf.at_slot
    (hgf.at_mono hgt.at_slot) hne (.inr rfl)
  obtain ⟨h2, -⟩ := h1.release Counts.empty (fun _ _ => zero_le _) ((ps.get lock t).2.get lock f).1
  apply h2.counts.mono
  rintro k ⟨⟨((hk | hk) | hk) | hk | hk, hkt⟩, hkf⟩
  · exact hk
  · exact absurd hk hkt
  · exact absurd hk hkf
  · exact absurd hk hkf
  · exact absurd hk hkt

def plusAll (m : Owner → Owner → Nat) (es : List (Owner × Owner)) : Owner → Owner → Nat :=
  fun x y => m x y + es.count (x, y)

lemma plusAll_cons (m : Owner → Owner → Nat) (a b : Owner) (es : List (Owner × Owner)) :
    plusAll m ((a, b) :: es) = plusOne (plusAll m es) a b := by
  funext x y
  unfold plusAll plusOne
  by_cases h : x = a ∧ y = b
  · simp [h, add_assoc]
  · have hne : ¬((a, b) = (x, y)) := by
      rintro ⟨rfl, rfl⟩
      exact h ⟨rfl, rfl⟩
    simp [h, hne]

lemma plusAll_append (m : Owner → Owner → Nat) (es es' : List (Owner × Owner)) :
    plusAll m (es ++ es') = plusAll (plusAll m es') es := by
  funext x y
  unfold plusAll
  rw [count_append]
  omega

/-- The edges of `l` to the locks `adj` and from the locks `inn`. -/
def edgesOf (lock : Nat → LockDescriptor) (l : Nat) (adj inn : List Nat) : List (Owner × Owner) :=
  inn.map (fun s => ((lock s).owner, (lock l).owner)) ++ adj.map (fun t => ((lock l).owner, (lock t).owner))

variable {l start : Nat}

lemma procEdges_addOut (adj : List Nat) (hne : ∀ t ∈ adj, (lock t).owner ≠ o)
    (h : Tracks vx₀ m (· = start) ps.pg.vertex) (hst : Slots.At ps.pg.vertex start o) :
    let ps' := adj.foldl (fun ps t =>
      let r := ps.get lock t
      { r.2 with pg := procEdgeAdd r.2.pg start r.1 }) ps
    Tracks vx₀ (plusAll m (adj.map (fun t => (o, (lock t).owner)))) (· = start) ps'.pg.vertex ∧
      Slots.At ps'.pg.vertex start o := by
  induction adj generalizing ps m with
  | nil => exact ⟨h, hst⟩
  | cons t adj ih =>
    have hg := ps.get_got lock t
    obtain ⟨h1, h2⟩ := (h.got hg).add (hg.at_mono hst) hg.at_slot (Ne.symm (hne t (by simp)))
    let ps1 : ProcState := { (ps.get lock t).2 with pg := procEdgeAdd (ps.get lock t).2.pg start (ps.get lock t).1 }
    have htr : Tracks vx₀ (plusOne m o (lock t).owner) (· = start) ps1.pg.vertex := by
      apply h1.mono
      rintro k ⟨hk | hk, -, hkt⟩
      · exact hk
      · exact absurd hk hkt
    have hsl : Slots.At ps1.pg.vertex start o := h2 start o (hg.at_mono hst)
    have hnext := ih (fun k hk => hne k (by simp [hk])) htr hsl
    refine ⟨hnext.1.congr ?_, hnext.2⟩
    intro x y
    rw [map_cons, plusAll_cons]
    simp only [plusAll, plusOne]
    omega

lemma procEdges_addIn (inn : List Nat) (hne : ∀ t ∈ inn, (lock t).owner ≠ o)
    (h : Tracks vx₀ m (· = start) ps.pg.vertex) (hst : Slots.At ps.pg.vertex start o) :
    let ps' := inn.foldl (fun ps f =>
      let r := ps.get lock f
      { r.2 with pg := procEdgeAdd r.2.pg r.1 start }) ps
    Tracks vx₀ (plusAll m (inn.map (fun t => ((lock t).owner, o)))) (· = start) ps'.pg.vertex ∧
      Slots.At ps'.pg.vertex start o := by
  induction inn generalizing ps m with
  | nil => exact ⟨h, hst⟩
  | cons f inn ih =>
    have hg := ps.get_got lock f
    obtain ⟨h1, h2⟩ := (h.got hg).add hg.at_slot (hg.at_mono hst) (hne f (by simp))
    let ps1 : ProcState := { (ps.get lock f).2 with pg := procEdgeAdd (ps.get lock f).2.pg (ps.get lock f).1 start }
    have htr : Tracks vx₀ (plusOne m (lock f).owner o) (· = start) ps1.pg.vertex := by
      apply h1.mono
      rintro k ⟨hk | hk, hkf, -⟩
      · exact hk
      · exact absurd hk hkf
    have hsl : Slots.At ps1.pg.vertex start o := h2 start o (hg.at_mono hst)
    have hnext := ih (fun k hk => hne k (by simp [hk])) htr hsl
    refine ⟨hnext.1.congr ?_, hnext.2⟩
    intro x y
    rw [map_cons, plusAll_cons]
    simp only [plusAll, plusOne]
    omega

lemma procEdges_deleteOut (h0 : Counts m0 (fun _ => False) vx₀) (hle : ∀ a b, m0 a b ≤ m a b) (adj : List Nat)
    (hne : ∀ t ∈ adj, (lock t).owner ≠ o)
    (h : Tracks vx₀ (plusAll m (adj.map (fun t => (o, (lock t).owner)))) (· = start) ps.pg.vertex)
    (hst : Slots.At ps.pg.vertex start o) :
    let ps' := adj.foldl (fun ps t =>
      let r := ps.get lock t
      { r.2 with pg := procEdgeDelete r.2.pg start r.1 r.1 }) ps
    Tracks vx₀ m (· = start) ps'.pg.vertex ∧ Slots.At ps'.pg.vertex start o := by
  induction adj generalizing ps with
  | nil => exact ⟨h, hst⟩
  | cons t adj ih =>
    have hg := ps.get_got lock t
    rw [map_cons, plusAll_cons] at h
    have hle' : ∀ a b, m0 a b ≤ plusAll m (adj.map (fun t => (o, (lock t).owner))) a b :=
      fun a b => le_trans (hle a b) (le_add_right _ _)
    have hno := Ne.symm (hne t (by simp))
    obtain ⟨h1, h2⟩ := (h.got hg).delete h0 hle' (hg.at_mono hst) hg.at_slot hno (.inr rfl)
    have hsl := (hg.at_mono hst).ne hg.at_slot hno
    apply ih fun k hk => hne k (by simp [hk])
    · apply h1.mono
      rintro k ⟨(hk | hk) | hk | hk, hkt⟩
      · exact hk
      · exact absurd hk hkt
      · exact hk
      · exact absurd hk hkt
    · exact h2 start o hsl (hg.at_mono hst)

lemma procEdges_deleteIn (h0 : Counts m0 (fun _ => False) vx₀) (hle : ∀ a b, m0 a b ≤ m a b) (inn : List Nat)
    (hne : ∀ t ∈ inn, (lock t).owner ≠ o)
    (h : Tracks vx₀ (plusAll m (inn.map (fun t => ((lock t).owner, o)))) (· = start) ps.pg.vertex)
    (hst : Slots.At ps.pg.vertex start o) :
    let ps' := inn.foldl (fun ps f =>
      let r := ps.get lock f
      { r.2 with pg := procEdgeDelete r.2.pg r.1 start r.1 }) ps
    Tracks vx₀ m (· = start) ps'.pg.vertex ∧ Slots.At ps'.pg.vertex start o := by
  induction inn generalizing ps with
  | nil => exact ⟨h, hst⟩
  | cons f inn ih =>
    have hg := ps.get_got lock f
    rw [map_cons, plusAll_cons] at h
    have hle' : ∀ a b, m0 a b ≤ plusAll m (inn.map (fun t => ((lock t).owner, o))) a b :=
      fun a b => le_trans (hle a b) (le_add_right _ _)
    have hno := hne f (by simp)
    obtain ⟨h1, h2⟩ := (h.got hg).delete h0 hle' hg.at_slot (hg.at_mono hst) hno (.inl rfl)
    have hsl := hg.at_slot.ne (hg.at_mono hst) hno
    apply ih fun k hk => hne k (by simp [hk])
    · apply h1.mono
      rintro k ⟨(hk | hk) | hk | hk, hkt⟩
      · exact hk
      · exact absurd hk hkt
      · exact absurd hk hkt
      · exact hk
    · exact h2 start o (Ne.symm hsl) (hg.at_mono hst)

section

variable {adj inn : List Nat} (hadj : ∀ t ∈ adj, (lock t).owner ≠ (lock l).owner)
  (hinn : ∀ s ∈ inn, (lock s).owner ≠ (lock l).owner)

include hadj hinn

lemma procEdgesAdd_tracks (h : Tracks vx₀ m (· = start) ps.pg.vertex)
    (hst : Slots.At ps.pg.vertex start (lock l).owner) :
    Tracks vx₀ (plusAll m (edgesOf lock l adj inn)) (· = start) (procEdgesAdd lock start ps adj inn).pg.vertex ∧
      Slots.At (procEdgesAdd lock start ps adj inn).pg.vertex start (lock l).owner := by
  have h1 := procEdges_addOut adj hadj h hst
  have h2 := procEdges_addIn inn hinn h1.1 h1.2
  unfold edgesOf
  rw [plusAll_append]
  exact h2

lemma procEdgesUndo_eq (h0 : Counts m (fun _ => False) vx₀)
    (h : Tracks vx₀ (plusAll m (edgesOf lock l adj inn)) (· = start) ps.pg.vertex)
    (hst : Slots.At ps.pg.vertex start (lock l).owner) :
    (procEdgesUndo lock start ps adj inn).pg.vertex = vx₀ := by
  have hle : ∀ a b, m a b ≤ plusAll m (inn.map (fun s => ((lock s).owner, (lock l).owner))) a b :=
    fun a b => le_add_right _ _
  have hperm : ∀ a b, plusAll (plusAll m (inn.map (fun s => ((lock s).owner, (lock l).owner))))
      (adj.map (fun t => ((lock l).owner, (lock t).owner))) a b = plusAll m (edgesOf lock l adj inn) a b := by
    intro a b
    unfold plusAll edgesOf
    rw [count_append]
    omega
  have h1 := procEdges_deleteOut h0 hle adj hadj (h.congr hperm) hst
  have h2 := procEdges_deleteIn h0 (fun _ _ => le_refl _) inn hinn h1.1 h1.2
  obtain ⟨h3, -⟩ := h2.1.release h0 (fun _ _ => le_refl _) start
  have hclean := h3.mono (fun k hk => hk.2 hk.1)
  exact hclean.kept.eq h0 hclean.counts

end

/-- Some lock of `a` waits for a lock of `b`. -/
def WaitsFor (m : Owner → Owner → Nat) (a b : Owner) : Prop := 0 < m a b

def Acyclic (R : Owner → Owner → Prop) : Prop := ∀ a, ¬ Relation.TransGen R a a

lemma ProcGraph.succ_of_vertex (hv : pg.vertex i = some v) : pg.succ i = v.edge.map (·.toProc) := by
  unfold ProcGraph.succ
  rw [edges_of_vertex hv]

lemma Counts.step_iff (h : Counts m X pg.vertex) (hv : pg.vertex i = some v) (hw : pg.vertex j = some w) :
    Step pg.succ i j ↔ WaitsFor m v.owner w.owner := by
  unfold Step WaitsFor
  rw [succ_of_vertex hv, ← (h.ok i v hv).pos_iff, h.refcount i v j w hv hw]

lemma Counts.step_vertex (h : Counts m X pg.vertex) (hij : Step pg.succ i j) :
    ∃ v w, pg.vertex i = some v ∧ pg.vertex j = some w := by
  obtain ⟨e, he, rfl⟩ := mem_map.mp hij
  obtain ⟨v, hv, hev⟩ := vertex_of_mem_edges he
  obtain ⟨w, hw⟩ := h.target i v hv e hev
  exact ⟨v, w, hv, hw⟩

lemma Counts.path_owner (h : Counts m X pg.vertex) (hp : Relation.TransGen (Step pg.succ) i j)
    (hi : Slots.At pg.vertex i a) (hj : Slots.At pg.vertex j b) : Relation.TransGen (WaitsFor m) a b := by
  obtain ⟨v, hv, rfl⟩ := hi
  induction hp generalizing b with
  | single hst =>
    obtain ⟨w, hw, rfl⟩ := hj
    exact Relation.TransGen.single ((h.step_iff hv hw).mp hst)
  | tail _ hst ih =>
    obtain ⟨w, hw, rfl⟩ := hj
    obtain ⟨x, -, hx, -⟩ := h.step_vertex hst
    exact Relation.TransGen.tail (ih ⟨x, hx, rfl⟩) ((h.step_iff hx hw).mp hst)

lemma Counts.path_slot (h : Counts m X pg.vertex) (hp : Relation.TransGen (WaitsFor m) a b)
    (hi : Slots.At pg.vertex i a) (hj : Slots.At pg.vertex j b) : Relation.TransGen (Step pg.succ) i j := by
  obtain ⟨v, hv, rfl⟩ := hi
  induction hp generalizing j with
  | single hst =>
    obtain ⟨w, hw, rfl⟩ := hj
    exact Relation.TransGen.single ((h.step_iff hv hw).mpr hst)
  | tail _ hst ih =>
    obtain ⟨w, hw, rfl⟩ := hj
    obtain ⟨⟨k, x, hx, rfl⟩, -⟩ := h.present _ _ hst
    exact Relation.TransGen.tail (ih ⟨x, hx, rfl⟩) ((h.step_iff hx hw).mpr hst)

lemma ProcGraph.edgeCount_eq (pg : ProcGraph) :
    pg.edgeCount = ∑ i ∈ Finset.range pg.proc.length, (pg.succ i).length := by
  simp [ProcGraph.edgeCount, Finset.sum, Finset.range, Multiset.range]

theorem procDeadlock_iff (h : Counts m X pg.vertex) (hloop : ∀ a, m a a = 0) (start : Nat) :
    procDeadlock pg start = true ↔
      ∃ v, Relation.ReflTransGen (Step pg.succ) start v ∧ Relation.TransGen (Step pg.succ) v v := by
  have hno : ∀ v, v ∉ pg.succ v := by
    intro i hi
    obtain ⟨v, -, hv, -⟩ := h.step_vertex hi
    have hw := (h.step_iff hv hv).mp hi
    unfold WaitsFor at hw
    rw [hloop] at hw
    exact lt_irrefl _ hw
  have hn : ∀ v, pg.succ v ≠ [] → v < pg.proc.length := by
    intro i hi
    obtain ⟨k, hk⟩ := exists_mem_of_ne_nil _ hi
    obtain ⟨v, -, hv, -⟩ := h.step_vertex hk
    exact lt_of_vertex hv
  obtain ⟨r, hr, hiff⟩ := procDfs_spec hno hn (2 * pg.edgeCount + 3) (DfsInv.init pg.succ start) (by
    simp only [dfsPotential, not_mem_nil, if_false, length_singleton]
    rw [edgeCount_eq]
    omega)
  unfold procDeadlock
  rw [hr]
  exact hiff

lemma cycle_through {R R' : Owner → Owner → Prop} {x : Owner} (hR : Acyclic R)
    (hnew : ∀ a b, R' a b → R a b ∨ a = x ∨ b = x) (h : Relation.TransGen R' a a) : Relation.TransGen R' x x := by
  have hsplit : ∀ {c d}, Relation.TransGen R' c d → Relation.TransGen R c d ∨
      (Relation.ReflTransGen R' c x ∧ Relation.ReflTransGen R' x d) := by
    intro c d hcd
    induction hcd with
    | single hst =>
      rcases hnew _ _ hst with hR | rfl | rfl
      · exact .inl (.single hR)
      · exact .inr ⟨.refl, .single hst⟩
      · exact .inr ⟨.single hst, .refl⟩
    | tail hp hst ih =>
      rcases ih with ih | ⟨h1, h2⟩
      · rcases hnew _ _ hst with hR | rfl | rfl
        · exact .inl (ih.tail hR)
        · exact .inr ⟨hp.to_reflTransGen, .single hst⟩
        · exact .inr ⟨(hp.tail hst).to_reflTransGen, .refl⟩
      · exact .inr ⟨h1, h2.tail hst⟩
  rcases hsplit h with hc | ⟨h1, h2⟩
  · exact absurd hc (hR a)
  · exact Relation.TransGen.trans_right h2 (Relation.TransGen.trans_left h h1)

lemma mem_edgesOf {adj inn : List Nat} {p : Owner × Owner} : p ∈ edgesOf lock l adj inn ↔
    (∃ s ∈ inn, p = ((lock s).owner, (lock l).owner)) ∨ ∃ t ∈ adj, p = ((lock l).owner, (lock t).owner) := by
  unfold edgesOf
  rw [mem_append, mem_map, mem_map]
  simp only [eq_comm]

lemma waitsFor_plusAll {es : List (Owner × Owner)} :
    WaitsFor (plusAll m es) a b ↔ WaitsFor m a b ∨ (a, b) ∈ es := by
  unfold WaitsFor plusAll
  rw [← count_pos_iff]
  omega

section CheckDeadlock

variable {adj inn : List Nat}

section

variable (h : Counts m (fun _ => False) ps.pg.vertex) (hadj : ∀ t ∈ adj, (lock t).owner ≠ (lock l).owner)
  (hinn : ∀ s ∈ inn, (lock s).owner ≠ (lock l).owner)

include h hadj hinn

lemma procCheck_tracks :
    let r := ps.get lock l
    Tracks ps.pg.vertex (plusAll m (edgesOf lock l adj inn)) (· = r.1) (procEdgesAdd lock r.1 r.2 adj inn).pg.vertex ∧
      Slots.At (procEdgesAdd lock r.1 r.2 adj inn).pg.vertex r.1 (lock l).owner := by
  have hg := ps.get_got lock l
  have htr : Tracks ps.pg.vertex m (fun k => False ∨ k = (ps.get lock l).1) (ps.get lock l).2.pg.vertex :=
    Tracks.got ⟨h, Kept.refl _⟩ hg
  apply procEdgesAdd_tracks hadj hinn (htr.mono _) hg.at_slot
  rintro k (hk | hk)
  · exact hk.elim
  · exact hk

lemma procCheckDeadlock_undone (hd : (procCheckDeadlock lock ps l adj inn).1 = true) :
    (procCheckDeadlock lock ps l adj inn).2.pg.vertex = ps.pg.vertex := by
  have htr := procCheck_tracks h hadj hinn
  unfold procCheckDeadlock at hd ⊢
  simp only at hd ⊢
  split at hd
  · exact Bool.noConfusion hd
  · next hin =>
    rw [if_neg hin]
    split at hd
    · next hdead =>
      rw [if_pos hdead]
      exact procEdgesUndo_eq hadj hinn h htr.1 htr.2
    · exact Bool.noConfusion hd

lemma procCheckDeadlock_counts (hsome : adj ≠ [] ∨ inn ≠ []) (hd : (procCheckDeadlock lock ps l adj inn).1 = false) :
    Counts (plusAll m (edgesOf lock l adj inn)) (fun _ => False) (procCheckDeadlock lock ps l adj inn).2.pg.vertex := by
  obtain ⟨htr, hat⟩ := procCheck_tracks h hadj hinn
  have heq : (procCheckDeadlock lock ps l adj inn).2 =
      procEdgesAdd lock (ps.get lock l).1 (ps.get lock l).2 adj inn := by
    unfold procCheckDeadlock at hd ⊢
    simp only at hd ⊢
    split at hd
    · next hin => rw [if_pos hin]
    · next hin =>
      rw [if_neg hin]
      split at hd
      · exact Bool.noConfusion hd
      · next hdead => rw [if_neg hdead]
  rw [heq]
  have hc := htr.counts
  refine ⟨hc.unique, hc.ok, hc.target, hc.refcount, hc.present, hc.incount, ?_⟩
  -- the vertex of the request has got an edge
  intro k v hv he hz
  have hk : k = (ps.get lock l).1 := hc.used k v hv he hz
  have ho : v.owner = (lock l).owner := by
    obtain ⟨u, hu, huo⟩ := hat
    have hv' := hv
    rw [hk, hu, Option.some_inj] at hv'
    rw [← hv', huo]
  have hout := (hc.edge_eq_nil hv).mp he
  have hinc := (hc.incount_eq_zero hv).mp hz
  rw [ho] at hout hinc
  have hwait : ∀ a b, (a, b) ∈ edgesOf lock l adj inn → plusAll m (edgesOf lock l adj inn) a b ≠ 0 := by
    intro a b hab
    exact pos_iff_ne_zero.mp (waitsFor_plusAll.mpr (.inr hab))
  rcases hsome with hne | hne
  · obtain ⟨t, ht⟩ := exists_mem_of_ne_nil _ hne
    exact hwait _ _ (mem_edgesOf.mpr (.inr ⟨t, ht, rfl⟩)) (hout _)
  · obtain ⟨s, hs⟩ := exists_mem_of_ne_nil _ hne
    exact hwait _ _ (mem_edgesOf.mpr (.inl ⟨s, hs, rfl⟩)) (hinc _)

end

lemma procCheckDeadlock_iff (h : Counts m (fun _ => False) ps.pg.vertex) (hac : Acyclic (WaitsFor m))
    (hadj : ∀ t ∈ adj, (lock t).owner ≠ (lock l).owner) (hinn : ∀ s ∈ inn, (lock s).owner ≠ (lock l).owner) :
    (procCheckDeadlock lock ps l adj inn).1 = true ↔
      ¬ Acyclic (WaitsFor (plusAll m (edgesOf lock l adj inn))) := by
  obtain ⟨htr, hat⟩ := procCheck_tracks h hadj hinn
  have hc := htr.counts
  have hloop : ∀ a, plusAll m (edgesOf lock l adj inn) a a = 0 := by
    intro a
    by_contra hne
    rcases waitsFor_plusAll.mp (pos_iff_ne_zero.mpr hne) with hm | hm
    · exact hac a (.single hm)
    · rcases mem_edgesOf.mp hm with ⟨s, hs, heq⟩ | ⟨t, ht, heq⟩
      · rw [Prod.mk.injEq] at heq
        exact hinn s hs (heq.1.symm.trans heq.2)
      · rw [Prod.mk.injEq] at heq
        exact hadj t ht (heq.2.symm.trans heq.1)
  have hthrough : ∀ a, Relation.TransGen (WaitsFor (plusAll m (edgesOf lock l adj inn))) a a →
      Relation.TransGen (WaitsFor (plusAll m (edgesOf lock l adj inn))) (lock l).owner (lock l).owner := by
    intro a ha
    apply cycle_through hac _ ha
    intro c d hcd
    rcases waitsFor_plusAll.mp hcd with hm | hm
    · exact .inl hm
    · rcases mem_edgesOf.mp hm with ⟨s, -, heq⟩ | ⟨t, -, heq⟩
      · rw [Prod.mk.injEq] at heq
        exact .inr (.inr heq.2)
      · rw [Prod.mk.injEq] at heq
        exact .inr (.inl heq.1)
  have hcyc : ¬ Acyclic (WaitsFor (plusAll m (edgesOf lock l adj inn))) ↔
      Relation.TransGen (WaitsFor (plusAll m (edgesOf lock l adj inn))) (lock l).owner (lock l).owner := by
    unfold Acyclic
    rw [not_forall]
    constructor
    · rintro ⟨a, ha⟩
      exact hthrough a (not_not.mp ha)
    · intro hx
      exact ⟨_, not_not.mpr hx⟩
  rw [hcyc]
  unfold procCheckDeadlock
  simp only
  set r := ps.get lock l with hr
  set ps1 := procEdgesAdd lock r.1 r.2 adj inn with hps1
  split
  · next hin =>
    simp only [Bool.false_eq_true, false_iff]
    intro hx
    -- nobody waits for the request
    obtain ⟨b, -, hb⟩ := Relation.TransGen.tail'_iff.mp hx
    obtain ⟨v, hv, ho⟩ := hat
    rw [hv] at hin
    have hz := (hc.incount_eq_zero hv).mp hin b
    rw [ho] at hz
    exact pos_iff_ne_zero.mp hb hz
  · have hiff := procDeadlock_iff hc hloop r.1
    have hslot : (∃ v, Relation.ReflTransGen (Step ps1.pg.succ) r.1 v ∧ Relation.TransGen (Step ps1.pg.succ) v v) ↔
        Relation.TransGen (WaitsFor (plusAll m (edgesOf lock l adj inn))) (lock l).owner (lock l).owner := by
      constructor
      · rintro ⟨k, -, hk⟩
        obtain ⟨j, hj, -⟩ := Relation.TransGen.head'_iff.mp hk
        obtain ⟨v, -, hv, -⟩ := hc.step_vertex hj
        exact hthrough v.owner (hc.path_owner hk ⟨v, hv, rfl⟩ ⟨v, hv, rfl⟩)
      · intro hx
        exact ⟨r.1, .refl, hc.path_slot hx hat hat⟩
    rw [← hslot, ← hiff]
    split
    · next hdead => simp [hdead]
    · next hdead => simpa using hdead

end CheckDeadlock

end Solaris.Flock
