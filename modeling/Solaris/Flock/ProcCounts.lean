import Solaris.Flock.ProcSearch

/-!
# Counting in the process graph

A process graph that represents the counts `m`: its edge from the vertex of `a` to the
vertex of `b` has the refcount `m a b`.
-/

namespace Solaris.Flock

open Lib List Function Nat

variable {pg : ProcGraph} {m : Owner → Owner → Nat} {X : Nat → Prop} {f t i j : Nat} {a b o : Owner}

lemma ProcGraph.vertex_modify (pg : ProcGraph) (i k : Nat) (h : ProcVertex → ProcVertex) :
    (pg.modify i h).vertex k = if k = i then (pg.vertex i).map h else pg.vertex k := by
  simp only [ProcGraph.modify, ProcGraph.vertex, getElem?_modify]
  by_cases hk : k = i
  · subst hk
    cases hx : pg.proc[k]? with
    | none => simp
    | some v => simp
  · rw [if_neg hk]
    cases hx : pg.proc[k]? with
    | none => rfl
    | some v => simp [Ne.symm hk]

lemma ProcGraph.vertex_set (pg : ProcGraph) (v : Option ProcVertex) (n : Nat) (hi : i < pg.proc.length) (k : Nat) :
    ProcGraph.vertex ⟨pg.proc.set i v, n⟩ k = if k = i then v else pg.vertex k := by
  simp only [ProcGraph.vertex, getElem?_set]
  by_cases hk : k = i
  · subst hk
    simp [hi]
  · rw [if_neg (Ne.symm hk), if_neg hk]

lemma ProcGraph.lt_of_vertex {v : ProcVertex} (h : pg.vertex i = some v) : i < pg.proc.length := by
  by_contra hn
  rw [ProcGraph.vertex, getElem?_eq_none (by omega)] at h
  simp at h

lemma ProcGraph.edges_of_vertex {v : ProcVertex} (h : pg.vertex i = some v) : pg.edges i = v.edge := by
  simp [ProcGraph.edges, h]

lemma ProcGraph.vertex_of_mem_edges {e : ProcEdge} (h : e ∈ pg.edges i) : ∃ v, pg.vertex i = some v ∧ e ∈ v.edge := by
  unfold ProcGraph.edges at h
  cases hv : pg.vertex i with
  | none => simp [hv] at h
  | some v => exact ⟨v, rfl, by simpa [hv] using h⟩

abbrev Slots := Nat → Option ProcVertex

/-- The slot `i` holds the vertex of the owner `a`. -/
def Slots.At (vx : Slots) (i : Nat) (a : Owner) : Prop := ∃ v, vx i = some v ∧ v.owner = a

def newVertex (o : Owner) : ProcVertex := ⟨o.1, o.2, [], 0⟩

/-- What `flk_get_proc_vertex` does: the slot of the owner is found, or a new vertex is
put in an empty slot because the owner has none. -/
inductive Got (vx : Slots) (i : Nat) (o : Owner) : Slots → Prop
  | found (h : Slots.At vx i o) : Got vx i o vx
  | made (hn : vx i = none) (hno : ∀ k, ¬ Slots.At vx k o) : Got vx i o (update vx i (some (newVertex o)))

lemma procSameOwner_iff {v : Option ProcVertex} : procSameOwner o v = true ↔ ∃ w, v = some w ∧ w.owner = o := by
  cases v with
  | none => simp [procSameOwner]
  | some w => simp [procSameOwner]

lemma vertex_of_findIdx? {p : Option ProcVertex → Bool} (h : pg.proc.findIdx? p = some i) :
    i < pg.proc.length ∧ p (pg.vertex i) = true := by
  obtain ⟨hi, hp, -⟩ := findIdx?_eq_some_iff_getElem.mp h
  refine ⟨hi, ?_⟩
  have hv : pg.vertex i = pg.proc[i] := by simp [ProcGraph.vertex, hi]
  rw [hv]
  exact hp

lemma not_at_of_findIdx?_none (h : pg.proc.findIdx? (procSameOwner o) = none) (k : Nat) :
    ¬ Slots.At pg.vertex k o := by
  rintro ⟨v, hv, ho⟩
  have hk := ProcGraph.lt_of_vertex hv
  have hv' : pg.proc[k] = some v := by
    simpa [ProcGraph.vertex, hk] using hv
  have hno := findIdx?_eq_none_iff.mp h (pg.proc[k]) (getElem_mem hk)
  rw [hv'] at hno
  simp [procSameOwner, ho] at hno

lemma flkGetProcVertex_got (pg : ProcGraph) (pvertex : Option Nat) (o : Owner) :
    Got pg.vertex (flkGetProcVertex pg pvertex o).1 o (flkGetProcVertex pg pvertex o).2.vertex := by
  unfold flkGetProcVertex
  split
  · next i hi =>
    apply Got.found
    apply procSameOwner_iff.mp
    cases pvertex with
    | none => simp at hi
    | some k =>
      simp only [Option.filter_some] at hi
      split at hi
      · next hk =>
        rw [← Option.some_inj.mp hi]
        exact hk
      · simp at hi
  split
  · next i hi => exact Got.found (procSameOwner_iff.mp (vertex_of_findIdx? hi).2)
  next hnone =>
  have hno := not_at_of_findIdx?_none hnone
  split
  · next i hi =>
    have hi' : pg.proc.findIdx? (·.isNone) = some i := by
      split at hi
      · exact hi
      · simp at hi
    obtain ⟨hlt, hn⟩ := vertex_of_findIdx? hi'
    have hset : ProcGraph.vertex ⟨pg.proc.set i (some (newVertex o)), pg.free - 1⟩ =
        update pg.vertex i (some (newVertex o)) := by
      funext k
      rw [ProcGraph.vertex_set pg _ _ hlt, update_apply]
    exact hset ▸ Got.made (Option.isNone_iff_eq_none.mp hn) hno
  · have hnew : ProcGraph.vertex
        ⟨pg.proc ++ some (newVertex o) :: replicate (procChunk - 1) none, pg.free + (procChunk - 1)⟩ =
        update pg.vertex pg.proc.length (some (newVertex o)) := by
      funext k
      rw [update_apply]
      simp only [ProcGraph.vertex]
      rcases lt_trichotomy k pg.proc.length with hk | hk | hk
      · rw [getElem?_append_left hk, if_neg (by omega)]
      · subst hk
        simp
      · obtain ⟨c, hc⟩ := Nat.exists_eq_add_of_lt hk
        have hsub : k - pg.proc.length = c + 1 := by omega
        have hold : pg.proc[k]? = none := getElem?_eq_none (by omega)
        rw [getElem?_append_right (by omega), if_neg (by omega), hold, hsub, getElem?_cons_succ]
        cases hr : (replicate (procChunk - 1) (none : Option ProcVertex))[c]? with
        | none => rfl
        | some v =>
          have hm := mem_of_getElem? hr
          rw [mem_replicate] at hm
          rw [hm.2]
          rfl
    exact hnew ▸ Got.made (by simp [ProcGraph.vertex]) hno

/-- The refcount of the edge to `j`, 0 if there is none. -/
def refcountTo (es : List ProcEdge) (j : Nat) : Nat := ((es.find? (·.toProc == j)).map (·.refcount)).getD 0

/-- An edge list with one edge for each target, and no count 0. -/
structure EdgesOk (es : List ProcEdge) : Prop where
  nodup : (es.map (·.toProc)).Nodup
  pos : ∀ e ∈ es, 0 < e.refcount

lemma refcountTo_cons (e : ProcEdge) (es : List ProcEdge) (k : Nat) :
    refcountTo (e :: es) k = if e.toProc = k then e.refcount else refcountTo es k := by
  by_cases hk : e.toProc = k
  · simp [refcountTo, hk]
  · simp [refcountTo, hk]

lemma EdgesOk.tail {e : ProcEdge} {es : List ProcEdge} (h : EdgesOk (e :: es)) : EdgesOk es :=
  ⟨(nodup_cons.mp h.nodup).2, fun x hx => h.pos x (mem_cons_of_mem _ hx)⟩

lemma EdgesOk.refcount {es : List ProcEdge} (h : EdgesOk es) {e : ProcEdge} (he : e ∈ es) :
    refcountTo es e.toProc = e.refcount := by
  induction es with
  | nil => exact absurd he not_mem_nil
  | cons x es ih =>
    rw [refcountTo_cons]
    rcases mem_cons.mp he with rfl | he
    · rw [if_pos rfl]
    have hx : x.toProc ≠ e.toProc := by
      intro hx
      have hm : e.toProc ∈ es.map (·.toProc) := mem_map_of_mem he
      rw [← hx] at hm
      exact (nodup_cons.mp h.nodup).1 hm
    rw [if_neg hx]
    exact ih h.tail he

lemma refcountTo_eq_zero {es : List ProcEdge} (h : j ∉ es.map (·.toProc)) : refcountTo es j = 0 := by
  induction es with
  | nil => rfl
  | cons e es ih =>
    rw [map_cons, mem_cons, not_or] at h
    rw [refcountTo_cons, if_neg (Ne.symm h.1)]
    exact ih h.2

lemma EdgesOk.pos_iff {es : List ProcEdge} (h : EdgesOk es) : 0 < refcountTo es j ↔ j ∈ es.map (·.toProc) := by
  constructor
  · intro hp
    by_contra hn
    rw [refcountTo_eq_zero hn] at hp
    exact lt_irrefl _ hp
  · intro hm
    obtain ⟨e, he, rfl⟩ := mem_map.mp hm
    rw [h.refcount he]
    exact h.pos e he

lemma EdgesOk.ext {es es' : List ProcEdge} (h : EdgesOk es) (h' : EdgesOk es')
    (hm : es.map (·.toProc) = es'.map (·.toProc))
    (hr : ∀ j ∈ es.map (·.toProc), refcountTo es j = refcountTo es' j) : es = es' := by
  have hlen : es.length = es'.length := by
    have := congrArg length hm
    simpa using this
  apply ext_getElem hlen
  intro n hn hn'
  have hto : es[n].toProc = es'[n].toProc := by
    have := getElem_of_eq hm (by simpa using hn)
    simpa using this
  have hcnt : es[n].refcount = es'[n].refcount := by
    rw [← h.refcount (getElem_mem hn), ← h'.refcount (getElem_mem hn'), ← hto]
    exact hr _ (mem_map_of_mem (getElem_mem hn))
  cases hes : es[n]
  cases hes' : es'[n]
  rw [hes, hes'] at hto hcnt
  simp only at hto hcnt
  rw [hto, hcnt]

/-- Change the refcount of the edge to `j`. -/
def recount (g : Nat → Nat) (j : Nat) (es : List ProcEdge) : List ProcEdge :=
  es.map (fun e => if e.toProc = j then { e with refcount := g e.refcount } else e)

lemma recount_toProc (g : Nat → Nat) (j : Nat) (es : List ProcEdge) :
    (recount g j es).map (·.toProc) = es.map (·.toProc) := by
  unfold recount
  rw [map_map]
  apply map_congr_left
  intro e _
  simp only [comp_apply]
  split <;> rfl

lemma refcountTo_recount (g : Nat → Nat) {es : List ProcEdge} (hj : j ∈ es.map (·.toProc)) (k : Nat) :
    refcountTo (recount g j es) k = if k = j then g (refcountTo es j) else refcountTo es k := by
  have hcons : ∀ (e : ProcEdge) (es : List ProcEdge), refcountTo (recount g j (e :: es)) k =
      if e.toProc = k then (if e.toProc = j then g e.refcount else e.refcount) else refcountTo (recount g j es) k := by
    intro e es
    unfold recount
    rw [map_cons, refcountTo_cons]
    by_cases he : e.toProc = j
    · simp only [he, if_true]
    · simp only [he, if_false]
  -- an edge to another vertex keeps its count, wherever the edge to `j` is
  have hother : k ≠ j → ∀ es : List ProcEdge, refcountTo (recount g j es) k = refcountTo es k := by
    intro hk es
    induction es with
    | nil => rfl
    | cons e es ih =>
      rw [hcons, refcountTo_cons, ih]
      by_cases he : e.toProc = k
      · rw [if_pos he, if_pos he, if_neg (fun hej => hk (he.symm.trans hej))]
      · rw [if_neg he, if_neg he]
  by_cases hk : k = j
  · subst hk
    rw [if_pos rfl]
    induction es with
    | nil => exact absurd hj not_mem_nil
    | cons e es ih =>
      rw [hcons, refcountTo_cons]
      by_cases he : e.toProc = k
      · simp only [he, if_true]
      · rw [map_cons, mem_cons] at hj
        simp only [he, if_false]
        exact ih (hj.resolve_left (Ne.symm he))
  · rw [if_neg hk]
    exact hother hk es

/-- The edge list of the source after `procEdgeAdd`. -/
def edgesAdd (es : List ProcEdge) (j : Nat) : List ProcEdge :=
  if es.any (·.toProc == j) then recount (· + 1) j es else ⟨1, j⟩ :: es

/-- The edge list of the source after `procEdgeDelete`. -/
def edgesDelete (es : List ProcEdge) (j : Nat) : List ProcEdge :=
  if refcountTo es j ≤ 1 then es.eraseP (·.toProc == j) else recount (· - 1) j es

lemma any_toProc {es : List ProcEdge} : es.any (·.toProc == j) = true ↔ j ∈ es.map (·.toProc) := by
  rw [any_eq_true, mem_map]
  simp only [beq_iff_eq]

lemma edgesAdd_toProc (es : List ProcEdge) (j : Nat) : (edgesAdd es j).map (·.toProc) =
    if j ∈ es.map (·.toProc) then es.map (·.toProc) else j :: es.map (·.toProc) := by
  unfold edgesAdd
  simp only [any_toProc]
  split
  · exact recount_toProc ..
  · rfl

lemma refcountTo_edgesAdd (es : List ProcEdge) (j k : Nat) :
    refcountTo (edgesAdd es j) k = refcountTo es k + if k = j then 1 else 0 := by
  unfold edgesAdd
  simp only [any_toProc]
  split
  · next hj =>
    rw [refcountTo_recount _ hj]
    by_cases hk : k = j
    · simp [hk]
    · simp [hk]
  · next hj =>
    rw [refcountTo_cons]
    by_cases hk : k = j
    · subst hk
      simp [refcountTo_eq_zero hj]
    · simp [hk, Ne.symm hk]

lemma EdgesOk.recount {es : List ProcEdge} (h : EdgesOk es) {g : Nat → Nat}
    (hg : 0 < g (refcountTo es j)) : EdgesOk (recount g j es) := by
  refine ⟨by rw [recount_toProc]; exact h.nodup, ?_⟩
  intro e he
  obtain ⟨x, hx, rfl⟩ := mem_map.mp he
  split
  · next hj =>
    rw [← hj, h.refcount hx] at hg
    exact hg
  · exact h.pos x hx

lemma EdgesOk.add {es : List ProcEdge} (h : EdgesOk es) (j : Nat) : EdgesOk (edgesAdd es j) := by
  unfold edgesAdd
  simp only [any_toProc]
  split
  · exact h.recount (succ_pos _)
  · next hj =>
    refine ⟨nodup_cons.mpr ⟨hj, h.nodup⟩, ?_⟩
    exact forall_mem_cons.mpr ⟨one_pos, h.pos⟩

lemma eraseP_toProc (es : List ProcEdge) (j : Nat) :
    (es.eraseP (·.toProc == j)).map (·.toProc) = (es.map (·.toProc)).erase j := by
  induction es with
  | nil => rfl
  | cons e es ih =>
    by_cases he : e.toProc = j
    · simp [he]
    · simp [he, ih]

lemma edgesDelete_toProc (es : List ProcEdge) (j : Nat) : (edgesDelete es j).map (·.toProc) =
    if refcountTo es j ≤ 1 then (es.map (·.toProc)).erase j else es.map (·.toProc) := by
  unfold edgesDelete
  split
  · exact eraseP_toProc es j
  · exact recount_toProc ..

lemma refcountTo_eraseP {es : List ProcEdge} (h : EdgesOk es) (k : Nat) :
    refcountTo (es.eraseP (·.toProc == j)) k = if k = j then 0 else refcountTo es k := by
  by_cases hk : k = j
  · subst hk
    rw [if_pos rfl]
    apply refcountTo_eq_zero
    rw [eraseP_toProc]
    exact h.nodup.not_mem_erase
  rw [if_neg hk]
  clear h
  induction es with
  | nil => rfl
  | cons e es ih =>
    by_cases he : e.toProc = j
    · have hek : e.toProc ≠ k := fun hek => hk (hek.symm.trans he)
      rw [eraseP_cons_of_pos (by simp [he]), refcountTo_cons, if_neg hek]
    · rw [eraseP_cons_of_neg (by simp [he]), refcountTo_cons, refcountTo_cons, ih]

lemma refcountTo_edgesDelete {es : List ProcEdge} (h : EdgesOk es) (hj : j ∈ es.map (·.toProc)) (k : Nat) :
    refcountTo (edgesDelete es j) k = refcountTo es k - if k = j then 1 else 0 := by
  unfold edgesDelete
  by_cases hle : refcountTo es j ≤ 1
  · rw [if_pos hle, refcountTo_eraseP h]
    by_cases hk : k = j
    · subst hk
      simp only [if_true]
      omega
    · simp [hk]
  · rw [if_neg hle, refcountTo_recount _ hj]
    by_cases hk : k = j
    · simp [hk]
    · simp [hk]

lemma EdgesOk.delete {es : List ProcEdge} (h : EdgesOk es) (j : Nat) : EdgesOk (edgesDelete es j) := by
  unfold edgesDelete
  split
  · refine ⟨by rw [eraseP_toProc]; exact h.nodup.erase j, ?_⟩
    intro e he
    exact h.pos e (mem_of_mem_eraseP he)
  · next hle => exact h.recount (by omega)

/-- The slots represent the counts `m`. Only the vertices in `X` may be without edges. -/
structure Counts (m : Owner → Owner → Nat) (X : Nat → Prop) (vx : Slots) : Prop where
  unique : ∀ i j a, vx.At i a → vx.At j a → i = j
  ok : ∀ i v, vx i = some v → EdgesOk v.edge
  target : ∀ i v, vx i = some v → ∀ e ∈ v.edge, ∃ w, vx e.toProc = some w
  refcount : ∀ i v j w, vx i = some v → vx j = some w → refcountTo v.edge j = m v.owner w.owner
  present : ∀ a b, 0 < m a b → (∃ i, vx.At i a) ∧ ∃ j, vx.At j b
  incount : ∀ j w, vx j = some w → ∃ S : Finset Owner, (∀ a, a ∈ S ↔ 0 < m a w.owner) ∧ w.incount = S.card
  used : ∀ i v, vx i = some v → v.edge = [] → v.incount = 0 → X i

variable {vx : Slots} {v w : ProcVertex}

lemma Counts.mono {Y : Nat → Prop} (h : Counts m X vx) (hXY : ∀ i, X i → Y i) : Counts m Y vx :=
  ⟨h.unique, h.ok, h.target, h.refcount, h.present, h.incount, fun i v hv he hc => hXY i (h.used i v hv he hc)⟩

lemma Counts.congr {m' : Owner → Owner → Nat} (h : Counts m X vx) (hm : ∀ a b, m' a b = m a b) : Counts m' X vx := by
  have he : m' = m := by
    funext a b
    exact hm a b
  exact he ▸ h

lemma Counts.incount_eq_zero (h : Counts m X vx) (hw : vx j = some w) : w.incount = 0 ↔ ∀ a, m a w.owner = 0 := by
  obtain ⟨S, hS, hc⟩ := h.incount j w hw
  rw [hc, Finset.card_eq_zero, Finset.eq_empty_iff_forall_notMem]
  apply forall_congr'
  intro a
  rw [hS]
  omega

lemma Counts.edge_eq_nil (h : Counts m X vx) (hv : vx i = some v) : v.edge = [] ↔ ∀ b, m v.owner b = 0 := by
  constructor
  · intro hnil b
    by_contra hb
    obtain ⟨-, j, w, hw, rfl⟩ := h.present v.owner b (by omega)
    rw [← h.refcount i v j w hv hw, hnil] at hb
    exact hb rfl
  · intro hz
    rw [eq_nil_iff_forall_not_mem]
    intro e he
    obtain ⟨w, hw⟩ := h.target i v hv e he
    have hpos := (h.ok i v hv).pos e he
    rw [← (h.ok i v hv).refcount he, h.refcount i v _ w hv hw, hz] at hpos
    exact lt_irrefl _ hpos

lemma Counts.fresh (h : Counts m X vx) (hn : vx i = none) (hno : ∀ k, ¬ vx.At k o) :
    Counts m (fun k => X k ∨ k = i) (update vx i (some (newVertex o))) := by
  have hmo : ∀ a, m a o = 0 ∧ m o a = 0 := by
    intro a
    constructor
    · by_contra hm
      obtain ⟨-, j, hj⟩ := h.present a o (by omega)
      exact hno j hj
    · by_contra hm
      obtain ⟨⟨j, hj⟩, -⟩ := h.present o a (by omega)
      exact hno j hj
  have hcase : ∀ k u, update vx i (some (newVertex o)) k = some u →
      (k = i ∧ u = newVertex o) ∨ (k ≠ i ∧ vx k = some u) := by
    intro k u hu
    rw [update_apply] at hu
    split at hu
    · next hk => exact .inl ⟨hk, (Option.some_inj.mp hu).symm⟩
    · next hk => exact .inr ⟨hk, hu⟩
  have hkeep : ∀ k u, vx k = some u → update vx i (some (newVertex o)) k = some u := by
    intro k u hu
    rw [update_of_ne]
    · exact hu
    · rintro rfl
      rw [hn] at hu
      simp at hu
  have hat : ∀ k c, vx.At k c → Slots.At (update vx i (some (newVertex o))) k c := by
    rintro k c ⟨u, hu, hc⟩
    exact ⟨u, hkeep k u hu, hc⟩
  refine ⟨?_, ?_, ?_, ?_, ?_, ?_, ?_⟩
  · rintro k l c ⟨u, hu, hk⟩ ⟨x, hx, hl⟩
    rcases hcase k u hu with ⟨rfl, rfl⟩ | ⟨-, hu⟩
    · rcases hcase l x hx with ⟨rfl, rfl⟩ | ⟨-, hx⟩
      · rfl
      · exact absurd ⟨x, hx, hl.trans hk.symm⟩ (hno l)
    · rcases hcase l x hx with ⟨-, rfl⟩ | ⟨-, hx⟩
      · exact absurd ⟨u, hu, hk.trans hl.symm⟩ (hno k)
      · exact h.unique k l c ⟨u, hu, hk⟩ ⟨x, hx, hl⟩
  · intro k u hu
    rcases hcase k u hu with ⟨-, rfl⟩ | ⟨-, hu⟩
    · exact ⟨nodup_nil, by simp [newVertex]⟩
    · exact h.ok k u hu
  · intro k u hu e he
    rcases hcase k u hu with ⟨-, rfl⟩ | ⟨-, hu⟩
    · exact absurd he not_mem_nil
    · obtain ⟨x, hx⟩ := h.target k u hu e he
      exact ⟨x, hkeep _ x hx⟩
  · intro k u l x hu hx
    rcases hcase k u hu with ⟨-, rfl⟩ | ⟨-, hu⟩
    · exact (hmo x.owner).2.symm
    rcases hcase l x hx with ⟨hl, rfl⟩ | ⟨-, hx⟩
    · rw [show (newVertex o).owner = o from rfl, (hmo u.owner).1]
      apply refcountTo_eq_zero
      intro hm
      obtain ⟨e, he, heq⟩ := mem_map.mp hm
      obtain ⟨y, hy⟩ := h.target k u hu e he
      rw [heq, hl, hn] at hy
      simp at hy
    · exact h.refcount k u l x hu hx
  · intro a b hab
    obtain ⟨⟨k, hk⟩, l, hl⟩ := h.present a b hab
    exact ⟨⟨k, hat k a hk⟩, l, hat l b hl⟩
  · intro l x hx
    rcases hcase l x hx with ⟨-, rfl⟩ | ⟨-, hx⟩
    · refine ⟨∅, ?_, rfl⟩
      intro a
      rw [show (newVertex o).owner = o from rfl, (hmo a).1]
      simp
    · exact h.incount l x hx
  · intro k u hu he hc
    rcases hcase k u hu with ⟨rfl, -⟩ | ⟨-, hu⟩
    · exact .inr rfl
    · exact .inl (h.used k u hu he hc)

lemma Counts.get {vx' : Slots} (h : Counts m X vx) (hg : Got vx i o vx') : Counts m (fun k => X k ∨ k = i) vx' := by
  cases hg with
  | found _ => exact h.mono (fun k hk => .inl hk)
  | made hn hno => exact h.fresh hn hno

/-- The slots after the edge list of `f` and the `incount` of `t` were changed. -/
def Slots.edit (vx : Slots) (f t : Nat) (v w : ProcVertex) (es : List ProcEdge) (c : Nat) : Slots :=
  update (update vx t (some { w with incount := c })) f (some { v with edge := es })

lemma Slots.edit_some (hv : vx f = some v) (hw : vx t = some w) (es : List ProcEdge) (c : Nat) {k : Nat} {x : ProcVertex}
    (hx : vx k = some x) : ∃ u, vx.edit f t v w es c k = some u ∧ u.owner = x.owner := by
  unfold Slots.edit
  by_cases hkf : k = f
  · subst hkf
    rw [update_self]
    rw [hv, Option.some_inj] at hx
    exact ⟨_, rfl, by rw [← hx]; rfl⟩
  rw [update_of_ne hkf]
  by_cases hkt : k = t
  · subst hkt
    rw [update_self]
    rw [hw, Option.some_inj] at hx
    exact ⟨_, rfl, by rw [← hx]; rfl⟩
  · rw [update_of_ne hkt]
    exact ⟨x, hx, rfl⟩

lemma Counts.edit {m' : Owner → Owner → Nat} {X' : Nat → Prop} {es : List ProcEdge} {c : Nat} (h : Counts m X vx)
    (hv : vx f = some v) (hw : vx t = some w) (hne : f ≠ t) (hok : EdgesOk es)
    (htarget : ∀ e ∈ es, e.toProc = t ∨ e.toProc ∈ v.edge.map (·.toProc))
    (hcount : ∀ j, refcountTo es j = if j = t then m' v.owner w.owner else refcountTo v.edge j)
    (hm : ∀ a b, ¬(a = v.owner ∧ b = w.owner) → m' a b = m a b)
    (hin : ∃ S : Finset Owner, (∀ a, a ∈ S ↔ 0 < m' a w.owner) ∧ c = S.card)
    (hX : ∀ i, i ≠ f → i ≠ t → X i → X' i) (hXf : es = [] → v.incount = 0 → X' f)
    (hXt : w.edge = [] → c = 0 → X' t) : Counts m' X' (vx.edit f t v w es c) := by
  have hcase : ∀ k u, vx.edit f t v w es c k = some u → (k = f ∧ u = { v with edge := es }) ∨
      (k = t ∧ u = { w with incount := c }) ∨ (k ≠ f ∧ k ≠ t ∧ vx k = some u) := by
    intro k u hu
    unfold Slots.edit at hu
    by_cases hkf : k = f
    · rw [hkf, update_self, Option.some_inj] at hu
      exact .inl ⟨hkf, hu.symm⟩
    rw [update_of_ne hkf] at hu
    by_cases hkt : k = t
    · rw [hkt, update_self, Option.some_inj] at hu
      exact .inr (.inl ⟨hkt, hu.symm⟩)
    · rw [update_of_ne hkt] at hu
      exact .inr (.inr ⟨hkf, hkt, hu⟩)
  -- every vertex is where it was, with its owner
  have hback : ∀ k u, vx.edit f t v w es c k = some u → ∃ x, vx k = some x ∧ x.owner = u.owner := by
    intro k u hu
    rcases hcase k u hu with ⟨rfl, rfl⟩ | ⟨rfl, rfl⟩ | ⟨-, -, hu⟩
    · exact ⟨v, hv, rfl⟩
    · exact ⟨w, hw, rfl⟩
    · exact ⟨u, hu, rfl⟩
  have hforth := fun k x => Slots.edit_some (k := k) (x := x) hv hw es c
  have hat : ∀ k a, Slots.At (vx.edit f t v w es c) k a ↔ vx.At k a := by
    intro k a
    constructor
    · rintro ⟨u, hu, rfl⟩
      exact hback k u hu
    · rintro ⟨x, hx, rfl⟩
      exact hforth k x hx
  have howner : ∀ k x, vx k = some x → k ≠ f → x.owner ≠ v.owner := by
    intro k x hx hk ho
    exact hk (h.unique k f v.owner ⟨x, hx, ho⟩ ⟨v, hv, rfl⟩)
  have hownerT : ∀ k x, vx k = some x → k ≠ t → x.owner ≠ w.owner := by
    intro k x hx hk ho
    exact hk (h.unique k t w.owner ⟨x, hx, ho⟩ ⟨w, hw, rfl⟩)
  refine ⟨?_, ?_, ?_, ?_, ?_, ?_, ?_⟩
  · intro i j a hi hj
    exact h.unique i j a ((hat i a).mp hi) ((hat j a).mp hj)
  · intro k u hu
    rcases hcase k u hu with ⟨-, rfl⟩ | ⟨-, rfl⟩ | ⟨-, -, hu⟩
    · exact hok
    · exact h.ok t w hw
    · exact h.ok k u hu
  · intro k u hu e he
    have hold : ∃ x, vx e.toProc = some x := by
      rcases hcase k u hu with ⟨-, rfl⟩ | ⟨-, rfl⟩ | ⟨-, -, hu⟩
      · rcases htarget e he with het | het
        · exact ⟨w, het ▸ hw⟩
        · obtain ⟨e', he', heq⟩ := mem_map.mp het
          rw [← heq]
          exact h.target f v hv e' he'
      · exact h.target t w hw e he
      · exact h.target k u hu e he
    obtain ⟨x, hx⟩ := hold
    obtain ⟨y, hy, -⟩ := hforth _ x hx
    exact ⟨y, hy⟩
  · intro k u l x hu hx
    obtain ⟨y, hy, hyo⟩ := hback l x hx
    rw [← hyo]
    rcases hcase k u hu with ⟨-, rfl⟩ | ⟨hkt, rfl⟩ | ⟨hkf, -, hu⟩
    · rw [hcount l]
      split
      · next hl =>
        rw [hl, hw, Option.some_inj] at hy
        rw [hy]
        rfl
      · next hl =>
        rw [h.refcount f v l y hv hy]
        exact (hm _ _ (fun hc => hownerT l y hy hl hc.2)).symm
    · change refcountTo w.edge l = m' w.owner y.owner
      rw [hm _ _ (fun hc => howner t w hw (Ne.symm hne) hc.1)]
      exact h.refcount t w l y hw hy
    · rw [hm _ _ (fun hc => howner k u hu hkf hc.1)]
      exact h.refcount k u l y hu hy
  · intro a b hab
    by_cases hc : a = v.owner ∧ b = w.owner
    · exact ⟨⟨f, (hat f a).mpr ⟨v, hv, hc.1.symm⟩⟩, t, (hat t b).mpr ⟨w, hw, hc.2.symm⟩⟩
    · rw [hm a b hc] at hab
      obtain ⟨⟨k, hk⟩, l, hl⟩ := h.present a b hab
      exact ⟨⟨k, (hat k a).mpr hk⟩, l, (hat l b).mpr hl⟩
  · intro l x hx
    have hsame : ∀ y, vx l = some y → l ≠ t → ∃ S : Finset Owner, (∀ a, a ∈ S ↔ 0 < m' a y.owner) ∧
        y.incount = S.card := by
      intro y hy hl
      obtain ⟨S, hS, hc⟩ := h.incount l y hy
      refine ⟨S, ?_, hc⟩
      intro a
      rw [hS, hm _ _ (fun hc => hownerT l y hy hl hc.2)]
    rcases hcase l x hx with ⟨hlf, rfl⟩ | ⟨-, rfl⟩ | ⟨-, hlt, hx⟩
    · rw [← hlf] at hv
      exact hsame v hv (hlf ▸ hne)
    · exact hin
    · exact hsame x hx hlt
  · intro k u hu he hc
    rcases hcase k u hu with ⟨rfl, rfl⟩ | ⟨rfl, rfl⟩ | ⟨hkf, hkt, hu⟩
    · exact hXf he hc
    · exact hXt he hc
    · exact hX k hkf hkt (h.used k u hu he hc)

/-- One lock edge more from `a` to `b`. -/
def plusOne (m : Owner → Owner → Nat) (a b : Owner) : Owner → Owner → Nat :=
  fun x y => m x y + if x = a ∧ y = b then 1 else 0

lemma plusOne_self (m : Owner → Owner → Nat) (a b : Owner) : plusOne m a b a b = m a b + 1 := by simp [plusOne]

lemma plusOne_of_ne (m : Owner → Owner → Nat) {x y : Owner} (h : ¬(x = a ∧ y = b)) : plusOne m a b x y = m x y := by
  simp [plusOne, h]

lemma Counts.add (h : Counts m X vx) (hv : vx f = some v) (hw : vx t = some w) (hne : f ≠ t) :
    Counts (plusOne m v.owner w.owner) (fun k => X k ∧ k ≠ f ∧ k ≠ t) (vx.edit f t v w (edgesAdd v.edge t)
      (w.incount + if t ∈ v.edge.map (·.toProc) then 0 else 1)) := by
  have hok := h.ok f v hv
  have hft := h.refcount f v t w hv hw
  have hmem : t ∈ (edgesAdd v.edge t).map (·.toProc) := by
    rw [← (hok.add t).pos_iff, refcountTo_edgesAdd, if_pos rfl]
    omega
  obtain ⟨S, hS, hc⟩ := h.incount t w hw
  have hin : ∃ S : Finset Owner, (∀ a, a ∈ S ↔ 0 < plusOne m v.owner w.owner a w.owner) ∧
      (w.incount + if t ∈ v.edge.map (·.toProc) then 0 else 1) = S.card := by
    by_cases ht : t ∈ v.edge.map (·.toProc)
    · refine ⟨S, ?_, by simp [ht, hc]⟩
      intro a
      rw [hS]
      by_cases ha : a = v.owner
      · have hpos := hok.pos_iff.mpr ht
        subst ha
        rw [plusOne_self]
        omega
      · rw [plusOne_of_ne m (fun hx => ha hx.1)]
    · have hzero : m v.owner w.owner = 0 := by
        rw [← hft]
        exact refcountTo_eq_zero ht
      have hns : v.owner ∉ S := by
        rw [hS, hzero]
        exact lt_irrefl 0
      refine ⟨insert v.owner S, ?_, ?_⟩
      · intro a
        rw [Finset.mem_insert, hS]
        by_cases ha : a = v.owner
        · subst ha
          simp [plusOne_self]
        · rw [plusOne_of_ne m (fun hx => ha hx.1)]
          simp [ha]
      · rw [Finset.card_insert_of_notMem hns, if_neg ht, hc]
  apply h.edit hv hw hne (hok.add t)
  · intro e he
    have hm : e.toProc ∈ (edgesAdd v.edge t).map (·.toProc) := mem_map_of_mem he
    rw [edgesAdd_toProc] at hm
    split at hm
    · exact .inr hm
    · exact mem_cons.mp hm
  · intro j
    rw [refcountTo_edgesAdd]
    by_cases hj : j = t
    · subst hj
      rw [if_pos rfl, if_pos rfl, plusOne_self, hft]
    · rw [if_neg hj, if_neg hj, add_zero]
  · intro a b hab
    exact plusOne_of_ne m hab
  · exact hin
  · intro i hif hit hi
    exact ⟨hi, hif, hit⟩
  · intro hnil
    rw [hnil] at hmem
    exact absurd hmem not_mem_nil
  · intro _ hz
    obtain ⟨S', hS', hc'⟩ := hin
    rw [hc', Finset.card_eq_zero] at hz
    have hmem' : v.owner ∈ S' := by
      rw [hS', plusOne_self]
      omega
    rw [hz] at hmem'
    exact absurd hmem' (Finset.notMem_empty _)

lemma Counts.delete (h : Counts (plusOne m v.owner w.owner) X vx) (hv : vx f = some v) (hw : vx t = some w)
    (hne : f ≠ t) :
    t ∈ v.edge.map (·.toProc) ∧ (refcountTo v.edge t = m v.owner w.owner + 1) ∧
    Counts m (fun k => X k ∨ (m v.owner w.owner = 0 ∧ (k = f ∨ k = t))) (vx.edit f t v w (edgesDelete v.edge t)
      (w.incount - if refcountTo v.edge t ≤ 1 then 1 else 0)) := by
  have hok := h.ok f v hv
  have hft := h.refcount f v t w hv hw
  rw [plusOne_self] at hft
  have hmem : t ∈ v.edge.map (·.toProc) := by
    rw [← hok.pos_iff, hft]
    omega
  have hcount : ∀ j, refcountTo (edgesDelete v.edge t) j =
      if j = t then m v.owner w.owner else refcountTo v.edge j := by
    intro j
    rw [refcountTo_edgesDelete hok hmem]
    by_cases hj : j = t
    · subst hj
      rw [if_pos rfl, if_pos rfl, hft]
      omega
    · rw [if_neg hj, if_neg hj, Nat.sub_zero]
  obtain ⟨S, hS, hc⟩ := h.incount t w hw
  have hvS : v.owner ∈ S := by
    rw [hS, plusOne_self]
    omega
  have hin : ∃ S : Finset Owner, (∀ a, a ∈ S ↔ 0 < m a w.owner) ∧
      (w.incount - if refcountTo v.edge t ≤ 1 then 1 else 0) = S.card := by
    by_cases hz : m v.owner w.owner = 0
    · refine ⟨S.erase v.owner, ?_, ?_⟩
      · intro a
        rw [Finset.mem_erase, hS]
        by_cases ha : a = v.owner
        · subst ha
          simp [hz]
        · rw [plusOne_of_ne m (fun hx => ha hx.1)]
          simp [ha]
      · rw [Finset.card_erase_of_mem hvS, hft, if_pos (by omega), hc]
    · refine ⟨S, ?_, ?_⟩
      · intro a
        rw [hS]
        by_cases ha : a = v.owner
        · subst ha
          rw [plusOne_self]
          omega
        · rw [plusOne_of_ne m (fun hx => ha hx.1)]
      · rw [hft, if_neg (by omega), hc, Nat.sub_zero]
  refine ⟨hmem, hft, h.edit hv hw hne (hok.delete t) ?_ hcount ?_ hin ?_ ?_ ?_⟩
  · intro e he
    have hm : e.toProc ∈ (edgesDelete v.edge t).map (·.toProc) := mem_map_of_mem he
    rw [edgesDelete_toProc] at hm
    split at hm
    · exact .inr (mem_of_mem_erase hm)
    · exact .inr hm
  · intro a b hab
    exact (plusOne_of_ne m hab).symm
  · intro i _ _ hi
    exact .inl hi
  · intro hnil _
    have hz := hcount t
    rw [hnil, if_pos rfl] at hz
    exact .inr ⟨hz.symm, .inl rfl⟩
  · intro _ hz
    obtain ⟨S', hS', hc'⟩ := hin
    rw [hc', Finset.card_eq_zero] at hz
    refine .inr ⟨?_, .inr rfl⟩
    have hn : v.owner ∉ S' := by
      rw [hz]
      exact Finset.notMem_empty _
    rw [hS'] at hn
    omega

lemma Counts.release (h : Counts m X vx) (hv : vx i = some v) (he : v.edge = []) (hc : v.incount = 0) :
    Counts m (fun k => X k ∧ k ≠ i) (update vx i none) := by
  have hout := (h.edge_eq_nil hv).mp he
  have hinc := (h.incount_eq_zero hv).mp hc
  have hcase : ∀ k u, update vx i none k = some u ↔ k ≠ i ∧ vx k = some u := by
    intro k u
    rw [update_apply]
    split
    · next hk => simp [hk]
    · next hk => simp [hk]
  have hat : ∀ k a, Slots.At (update vx i none) k a ↔ k ≠ i ∧ vx.At k a := by
    intro k a
    unfold Slots.At
    simp only [hcase, and_assoc, exists_and_left]
  refine ⟨?_, ?_, ?_, ?_, ?_, ?_, ?_⟩
  · intro k l a hk hl
    exact h.unique k l a ((hat k a).mp hk).2 ((hat l a).mp hl).2
  · intro k u hu
    exact h.ok k u ((hcase k u).mp hu).2
  · intro k u hu e hee
    obtain ⟨-, hu⟩ := (hcase k u).mp hu
    obtain ⟨x, hx⟩ := h.target k u hu e hee
    refine ⟨x, (hcase _ x).mpr ⟨?_, hx⟩⟩
    -- the count of an edge to the released vertex would be 0
    intro hei
    have hpos := (h.ok k u hu).pos e hee
    rw [← (h.ok k u hu).refcount hee, hei, h.refcount k u i v hu hv, hinc] at hpos
    exact lt_irrefl _ hpos
  · intro k u l x hu hx
    exact h.refcount k u l x ((hcase k u).mp hu).2 ((hcase l x).mp hx).2
  · intro a b hab
    obtain ⟨⟨k, hk⟩, l, hl⟩ := h.present a b hab
    refine ⟨⟨k, (hat k a).mpr ⟨?_, hk⟩⟩, l, (hat l b).mpr ⟨?_, hl⟩⟩
    · rintro rfl
      obtain ⟨x, hx, rfl⟩ := hk
      rw [hv, Option.some_inj] at hx
      rw [← hx, hout] at hab
      exact lt_irrefl _ hab
    · rintro rfl
      obtain ⟨x, hx, rfl⟩ := hl
      rw [hv, Option.some_inj] at hx
      rw [← hx, hinc] at hab
      exact lt_irrefl _ hab
  · intro l x hx
    exact h.incount l x ((hcase l x).mp hx).2
  · intro k u hu hee hcc
    obtain ⟨hk, hu⟩ := (hcase k u).mp hu
    exact ⟨h.used k u hu hee hcc, hk⟩

end Solaris.Flock
