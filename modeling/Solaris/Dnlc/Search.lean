import Mathlib.Data.Finset.Card
import Solaris.Dnlc.Places

/-!
# What the cache says

Chained entries have names and vnodes of an insertion, and no remove or purge that began after it has come to its end.
-/

namespace Solaris.Dnlc

section Names

open List Option Ghost

variable {c : Config} {n : Nat} {s s' s'' : Cache} {g g' g'' : Ghost n} {t u : Fin n}
  {i : Nat} {e e' : EntId} {k k' : Key} {vp vp' : Vnode} {ev : Event} {evs : List Event}

/-- The event is the end of a remove of the name or of a purge of one of the vnodes that began at `b`. -/
def Event.Ends (k : Key) (vp : Vnode) (b : Nat) : Event → Prop
  | .removed began dp name => began = b ∧ dp = k.dp ∧ name = k.name
  | .purged began v => began = b ∧ (v = k.dp ∨ v = vp)
  | _ => False

def identOf (k : Key) (vp : Vnode) : Ident := ⟨some vp, some k.dp, k.name, k.cred, dnlcHash k.name k.dp⟩

lemma identOf_inj (h : identOf k vp = identOf k' vp') : k = k' ∧ vp = vp' := by
  obtain ⟨dp, name, cred⟩ := k
  simp only [identOf, Ident.mk.injEq, some.injEq] at h
  obtain ⟨hvp, hdp, hname, hcred, _⟩ := h
  exact ⟨by rw [hdp, hname, hcred], hvp⟩

/-- The entry is in a chain, under the key and with the vnode. -/
structure Cached (s : Cache) (g : Ghost n) (e : EntId) (k : Key) (vp : Vnode) : Prop where
  chain : ∃ i, g.place e = .chain i
  ident : s.ident e = identOf k vp

structure Named (c : Config) (s : Cache) (g : Ghost n) : Prop where
  ident : ∀ e i, g.place e = .chain i →
    ∃ k vp, s.ident e = identOf k vp ∧ k.name.length ≤ NC_NAMLEN ∧ chainOf c (dnlcHash k.name k.dp) = i
  unique : ∀ e e' k vp vp', Cached s g e k vp → Cached s g e' k vp' → e = e'
  entered : ∀ e k vp, Cached s g e k vp → s.history[g.born e]? = some (.entered k vp)
  ended : ∀ e k vp, Cached s g e k vp → ∀ ev ∈ s.history, ∀ b, ev.Ends k vp b → b ≤ g.born e

/-- Ends come after the beginnings that they name, and an answer is one of an insertion that nothing has ended. -/
structure Story (h : List Event) : Prop where
  began : ∀ (q : Nat) ev k vp b, h[q]? = some ev → ev.Ends k vp b → b < q ∧ h[b]? = some .begun
  looked : ∀ (m : Nat) k vp, h[m]? = some (.looked k (some vp)) → ∃ j < m, h[j]? = some (.entered k vp) ∧
    ∀ q < m, ∀ ev b, h[q]? = some ev → ev.Ends k vp b → b ≤ j

lemma getElem?_append_some {h : List Event} {q : Nat} (hq : h[q]? = some ev) : (h ++ evs)[q]? = some ev := by
  rw [List.getElem?_append_left (List.getElem?_eq_some_iff.mp hq).1]
  exact hq

lemma getElem?_concat_some {h : List Event} {new : Event} {q : Nat} (hq : (h ++ [new])[q]? = some ev) :
    (q < h.length ∧ h[q]? = some ev) ∨ (q = h.length ∧ ev = new) := by
  rcases Nat.lt_or_ge q h.length with hlt | hge
  · rw [List.getElem?_append_left hlt] at hq
    exact .inl ⟨hlt, hq⟩
  rw [getElem?_append_right hge] at hq
  obtain ⟨hlen, hev⟩ := List.getElem?_eq_some_iff.mp hq
  simp only [length_singleton] at hlen
  have hzero : q - h.length = 0 := by omega
  simp only [hzero, getElem_cons_zero] at hev
  exact .inr ⟨by omega, hev.symm⟩

lemma Story.record {h : List Event} (hs : Story h)
    (hends : ∀ k vp b, ev.Ends k vp b → b < h.length ∧ h[b]? = some .begun)
    (hlooked : ∀ k vp, ev = .looked k (some vp) → ∃ j : Nat, h[j]? = some (.entered k vp) ∧
      ∀ ev ∈ h, ∀ b, ev.Ends k vp b → b ≤ j) : Story (h ++ [ev]) where
  began q ev' k vp b hq hev := by
    rcases getElem?_concat_some hq with ⟨_, hq⟩ | ⟨rfl, rfl⟩
    · obtain ⟨hlt, hb⟩ := hs.began q ev' k vp b hq hev
      exact ⟨hlt, getElem?_append_some hb⟩
    · obtain ⟨hlt, hb⟩ := hends k vp b hev
      exact ⟨hlt, getElem?_append_some hb⟩
  looked m k vp hm := by
    have hearlier : ∀ q < m, ∀ ev', (h ++ [ev])[q]? = some ev' → h[q]? = some ev' := by
      intro q hq ev' hev
      have hlen := (List.getElem?_eq_some_iff.mp hm).1
      rw [length_append, length_singleton] at hlen
      rwa [List.getElem?_append_left (by omega)] at hev
    rcases getElem?_concat_some hm with ⟨_, hm⟩ | ⟨rfl, hev⟩
    · obtain ⟨j, hj, hentered, hended⟩ := hs.looked m k vp hm
      exact ⟨j, hj, getElem?_append_some hentered, fun q hq ev' b hev =>
        hended q hq ev' b (hearlier q hq ev' hev)⟩
    · obtain ⟨j, hentered, hended⟩ := hlooked k vp hev.symm
      exact ⟨j, (List.getElem?_eq_some_iff.mp hentered).1, getElem?_append_some hentered, fun q hq ev' b hev =>
        hended ev' (mem_of_getElem? (hearlier q hq ev' hev)) b⟩

/-- A step of the thread `t` leaves chained entries as they are or takes them off, and does not touch other hands. -/
structure Fewer (t : Fin n) (s : Cache) (g : Ghost n) (s' : Cache) (g' : Ghost n) : Prop where
  history : s'.history = s.history
  chain : ∀ e i, g'.place e = .chain i → g.place e = .chain i ∧ s'.ident e = s.ident e ∧ g'.born e = g.born e
  hand : ∀ u, u ≠ t → ∀ e, g.place e = .hand u → g'.place e = .hand u ∧ s'.ident e = s.ident e

lemma Fewer.trans (h : Fewer t s g s' g') (h' : Fewer t s' g' s'' g'') : Fewer t s g s'' g'' where
  history := h'.history.trans h.history
  chain e i he := by
    obtain ⟨he', hident', hborn'⟩ := h'.chain e i he
    obtain ⟨he, hident, hborn⟩ := h.chain e i he'
    exact ⟨he, hident'.trans hident, hborn'.trans hborn⟩
  hand u hu e he := by
    obtain ⟨he', hident⟩ := h.hand u hu e he
    obtain ⟨he'', hident'⟩ := h'.hand u hu e he'
    exact ⟨he'', hident'.trans hident⟩

lemma Fewer.cached (h : Fewer t s g s' g') (he : Cached s' g' e k vp) : Cached s g e k vp ∧ g'.born e = g.born e := by
  obtain ⟨i, hi⟩ := he.chain
  obtain ⟨hi, hident, hborn⟩ := h.chain e i hi
  exact ⟨⟨⟨i, hi⟩, hident.symm.trans he.ident⟩, hborn⟩

lemma Named.fewer (hs : Named c s g) (h : Fewer t s g s' g') : Named c s' g' where
  ident e i he := by
    obtain ⟨hi, hident, _⟩ := h.chain e i he
    rw [hident]
    exact hs.ident e i hi
  unique e e' k vp vp' he he' := hs.unique e e' k vp vp' (h.cached he).1 (h.cached he').1
  entered e k vp he := by
    rw [h.history, (h.cached he).2]
    exact hs.entered e k vp (h.cached he).1
  ended e k vp he := by
    rw [h.history, (h.cached he).2]
    exact hs.ended e k vp (h.cached he).1

lemma Fewer.of_change (hhistory : s'.history = s.history) (hborn : g'.born = g.born)
    (hsame : ∀ e', e' ≠ e → g'.place e' = g.place e' ∧ s'.ident e' = s.ident e')
    (hchain : ∀ i, g'.place e ≠ .chain i) (hhand : ∀ u, u ≠ t → g.place e ≠ .hand u) : Fewer t s g s' g' where
  history := hhistory
  chain e' i he' := by
    have hee : e' ≠ e := by
      rintro rfl
      exact hchain i he'
    exact ⟨(hsame e' hee).1.symm.trans he', (hsame e' hee).2, congrFun hborn e'⟩
  hand u hu e' he' := by
    have hee : e' ≠ e := by
      rintro rfl
      exact hhand u hu he'
    exact ⟨(hsame e' hee).1.trans he', (hsame e' hee).2⟩

lemma Fewer.congr (hhistory : s'.history = s.history) (hborn : g'.born = g.born) (hplace : g'.place = g.place)
    (hident : s'.ident = s.ident) : Fewer t s g s' g' where
  history := hhistory
  chain e _ he := ⟨(congrFun hplace e).symm.trans he, congrFun hident e, congrFun hborn e⟩
  hand _ _ e he := ⟨(congrFun hplace e).trans he, congrFun hident e⟩

lemma Named.record (hs : Named c s g) (hev : ∀ e k vp, Cached s g e k vp → ∀ b, ev.Ends k vp b → b ≤ g.born e) :
    Named c (s.record ev) g where
  ident := hs.ident
  unique e e' k vp vp' he he' := hs.unique e e' k vp vp' ⟨he.chain, he.ident⟩ ⟨he'.chain, he'.ident⟩
  entered e k vp he := getElem?_append_some (hs.entered e k vp ⟨he.chain, he.ident⟩)
  ended e k vp he ev' hmem b hb := by
    rcases mem_append.mp hmem with hmem | hmem
    · exact hs.ended e k vp ⟨he.chain, he.ident⟩ ev' hmem b hb
    · rw [mem_singleton.mp hmem] at hb
      exact hev e k vp ⟨he.chain, he.ident⟩ b hb

lemma Named.insert (hs : Named c s g) (hstory : Story s.history) (hident : s.ident e = identOf k vp)
    (hlen : k.name.length ≤ NC_NAMLEN) (hold : ∀ i, g.place e ≠ .chain i) (hnone : ∀ e' vp', ¬ Cached s g e' k vp')
    (hident' : s'.ident = s.ident) (hhistory : s'.history = s.history ++ [.entered k vp]) :
    Named c s' (g.insert (chainOf c (dnlcHash k.name k.dp)) e s.history.length) := by
  have hcases : ∀ e' k' vp', Cached s' (g.insert (chainOf c (dnlcHash k.name k.dp)) e s.history.length) e' k' vp' →
      (e' = e ∧ k' = k ∧ vp' = vp) ∨ (e' ≠ e ∧ Cached s g e' k' vp') := by
    rintro e' k' vp' ⟨⟨i, hi⟩, he'⟩
    rw [hident'] at he'
    rcases eq_or_ne e' e with rfl | hee
    · obtain ⟨hk, hvp⟩ := identOf_inj (he'.symm.trans hident)
      exact .inl ⟨rfl, hk, hvp⟩
    · exact .inr ⟨hee, ⟨i, (insert_place_ne hee).symm.trans hi⟩, he'⟩
  refine ⟨?_, ?_, ?_, ?_⟩
  · intro e' i he'
    rw [hident']
    rcases eq_or_ne e' e with rfl | hee
    · exact ⟨k, vp, hident, hlen, Place.chain.inj (Ghost.insert_place_self.symm.trans he')⟩
    · exact hs.ident e' i ((insert_place_ne hee).symm.trans he')
  · intro e1 e2 k' vp1 vp2 h1 h2
    rcases hcases e1 k' vp1 h1 with ⟨he1, hk1, _⟩ | ⟨_, hold1⟩ <;>
      rcases hcases e2 k' vp2 h2 with ⟨he2, hk2, _⟩ | ⟨_, hold2⟩
    · rw [he1, he2]
    · exact absurd (hk1 ▸ hold2) (hnone e2 vp2)
    · exact absurd (hk2 ▸ hold1) (hnone e1 vp1)
    · exact hs.unique e1 e2 k' vp1 vp2 hold1 hold2
  · intro e' k' vp' he'
    rw [hhistory]
    rcases hcases e' k' vp' he' with ⟨rfl, rfl, rfl⟩ | ⟨hee, he'⟩
    · rw [insert_born_self, getElem?_append_right le_rfl, Nat.sub_self]
      rfl
    · rw [insert_born_ne hee]
      exact getElem?_append_some (hs.entered e' k' vp' he')
  · intro e' k' vp' he' ev hmem b hb
    rw [hhistory] at hmem
    have hmem' : ev ∈ s.history := by
      rcases mem_append.mp hmem with hmem | hmem
      · exact hmem
      · rw [mem_singleton.mp hmem] at hb
        exact hb.elim
    rcases hcases e' k' vp' he' with ⟨rfl, rfl, rfl⟩ | ⟨hee, he'⟩
    · rw [insert_born_self]
      obtain ⟨q, hq⟩ := getElem?_of_mem hmem'
      have hbq := (hstory.began q ev k' vp' b hq hb).1
      have hlen' := (List.getElem?_eq_some_iff.mp hq).1
      omega
    · rw [insert_born_ne hee]
      exact hs.ended e' k' vp' he' ev hmem' b hb

end Names

/-!
## Walks along a chain

What the loops over the entries of a chain find there.
-/

section Walks

open Lib List Option

variable {c : Config} {n : Nat} {s : Cache} {g : Ghost n} {th : Fin n → Thread} {i : Nat} {e : EntId} {k : Key} {vp : Vnode}
  {next : Ptr → Option Ptr} {q : EntId → Bool} {pre post : List EntId} {fuel depth d : Nat}

lemma findFrom_some (h : Chain (fun a => next (node i a)) (fun a => some (node i a)) (pre ++ post))
    (hfind : findFrom next q fuel depth (some (node i post.head?)) = some (e, d)) : e ∈ post ∧ q e = true := by
  induction post generalizing pre fuel depth with
  | nil => cases fuel <;> cases hfind
  | cons x post ih =>
    cases fuel with
    | zero => cases hfind
    | succ fuel =>
      rw [head?_cons, node, findFrom] at hfind
      split_ifs at hfind with hq
      · obtain ⟨rfl, _⟩ := Prod.mk.inj (some.inj hfind)
        exact ⟨mem_cons_self .., hq⟩
      · have hnext : next (.entry x) = some (node i post.head?) := h.next
        rw [hnext] at hfind
        rw [← singleton_append, ← append_assoc] at h
        obtain ⟨hmem, hqe⟩ := ih h hfind
        exact ⟨mem_cons_of_mem _ hmem, hqe⟩

lemma findFrom_none (h : Chain (fun a => next (node i a)) (fun a => some (node i a)) (pre ++ post))
    (hfuel : post.length ≤ fuel) (hfind : findFrom next q fuel depth (some (node i post.head?)) = none) :
    ∀ x ∈ post, q x = false := by
  induction post generalizing pre fuel depth with
  | nil => exact fun x hx => absurd hx (not_mem_nil)
  | cons x post ih =>
    cases fuel with
    | zero => cases hfuel
    | succ fuel =>
      rw [head?_cons, node, findFrom] at hfind
      split_ifs at hfind with hq
      have hnext : next (.entry x) = some (node i post.head?) := h.next
      rw [hnext] at hfind
      rw [← singleton_append, ← append_assoc] at h
      have hrest := ih h (Nat.le_of_succ_le_succ hfuel) hfind
      exact forall_mem_cons.mpr ⟨Bool.eq_false_iff.mpr hq, hrest⟩

lemma Placed.lt_of_chain (h : Placed c s g th) (he : g.place e = .chain i) : e < c.ncsize := by
  by_contra hge
  have := (h.outside e).mpr (Nat.le_of_not_lt hge)
  rw [he] at this
  cases this

lemma Placed.length_le (h : Placed c s g th) (hi : i < c.ncHashsz) : (g.chain i).length ≤ c.ncsize := by
  rw [← toFinset_card_of_nodup (h.chained i hi).nodup, ← Finset.card_range c.ncsize]
  refine Finset.card_le_card fun e he => ?_
  rw [List.mem_toFinset, h.mem_chain] at he
  exact Finset.mem_range.mpr (h.lt_of_chain he)

lemma Placed.find_some (h : Placed c s g th) (hi : i < c.ncHashsz)
    (hfind : findFrom s.hashNext q c.ncsize 0 (s.hashNext (.head i)) = some (e, d)) : g.place e = .chain i ∧ q e = true := by
  have hchained := h.chained i hi
  have hfirst : s.hashNext (.head i) = some (node i (g.chain i).head?) := hchained.first
  rw [hfirst] at hfind
  obtain ⟨hmem, hq⟩ := findFrom_some (nil_append (g.chain i) ▸ hchained.forward) hfind
  exact ⟨(h.mem_chain i e).mp hmem, hq⟩

lemma Placed.find_none (h : Placed c s g th) (hi : i < c.ncHashsz)
    (hfind : findFrom s.hashNext q c.ncsize 0 (s.hashNext (.head i)) = none) (he : g.place e = .chain i) : q e = false := by
  have hchained := h.chained i hi
  have hfirst : s.hashNext (.head i) = some (node i (g.chain i).head?) := hchained.first
  rw [hfirst] at hfind
  exact findFrom_none (nil_append (g.chain i) ▸ hchained.forward) (h.length_le hi) hfind e ((h.mem_chain i e).mpr he)

theorem steal_some {idle : Vnode → Bool} {vs : List Vnode} (h : Placed c s g th) (hi : i < c.ncHashsz)
    (hs : (steal c idle s i).1 = some (e, vs)) :
    g.place e = .chain i ∧ vs = dpOf s e ++ vpOf s e ∧ (steal c idle s i).2 = ncRmhash s e := by
  have hchained := h.chained i hi
  have hlast : s.hashPrev (.head i) = some (node i (g.chain i).reverse.head?) := by
    rw [head?_reverse]
    exact hchained.last
  unfold steal at hs ⊢
  dsimp only at hs ⊢
  split at hs
  · rename_i victim hvictim
    obtain ⟨rfl, rfl⟩ := Prod.mk.inj (some.inj hs)
    refine ⟨(h.mem_chain i victim).mp ?_, rfl, rfl⟩
    split at hvictim
    · rename_i found _ hfound
      obtain rfl := some.inj hvictim
      obtain ⟨⟨e', d⟩, hfind, rfl⟩ := map_eq_some_iff.mp hfound
      rw [hlast] at hfind
      obtain ⟨hmem, _⟩ := findFrom_some (nil_append (g.chain i).reverse ▸ hchained.backward) hfind
      exact mem_reverse.mp hmem
    · rename_i last _ hentry
      obtain rfl := some.inj hvictim
      rw [hlast] at hentry
      exact mem_reverse.mp (mem_of_head? (node_eq_entry.mp (some.inj hentry)))
    · cases hvictim
  · cases hs

lemma steal_none {idle : Vnode → Bool} (hs : (steal c idle s i).1 = none) : (steal c idle s i).2 = s := by
  unfold steal at hs ⊢
  dsimp only at hs ⊢
  split at hs
  · cases hs
  · rfl

lemma chainOf_lt (c : Config) (hash : UInt32) : chainOf c hash < c.ncHashsz := Nat.mod_lt _ (Nat.two_pow_pos _)

lemma isIdent_identOf {k' : Key} : isIdent k.dp k.name (dnlcHash k.name k.dp) (some k.cred) (identOf k' vp) = true ↔ k' = k := by
  obtain ⟨dp, name, cred⟩ := k
  obtain ⟨dp', name', cred'⟩ := k'
  simp only [isIdent, identOf, mem_def, some.injEq, forall_eq', decide_eq_true_eq, Key.mk.injEq]
  constructor
  · rintro ⟨_, hdp, hcred, hname⟩
    exact ⟨hdp, hname, hcred⟩
  · rintro ⟨rfl, rfl, rfl⟩
    exact ⟨rfl, rfl, rfl, rfl⟩

lemma isIdent_any {dp : Vnode} {name : Name} :
    isIdent dp name (dnlcHash name dp) none (identOf k vp) = true ↔ k.dp = dp ∧ k.name = name := by
  simp only [isIdent, identOf, mem_def, some.injEq, decide_eq_true_eq, reduceCtorEq, false_implies,
    implies_true, true_and]
  constructor
  · rintro ⟨_, hdp, hname⟩
    exact ⟨hdp, hname⟩
  · rintro ⟨rfl, rfl⟩
    exact ⟨rfl, rfl, rfl⟩

lemma Named.chain_eq (hn : Named c s g) (he : Cached s g e k vp) : g.place e = .chain (chainOf c (dnlcHash k.name k.dp)) := by
  obtain ⟨i, hi⟩ := he.chain
  obtain ⟨k', vp', hident, _, hchain⟩ := hn.ident e i hi
  obtain ⟨rfl, rfl⟩ := identOf_inj (hident.symm.trans he.ident)
  rw [hi, hchain]

lemma Named.length_le (hn : Named c s g) (he : Cached s g e k vp) : k.name.length ≤ NC_NAMLEN := by
  obtain ⟨i, hi⟩ := he.chain
  obtain ⟨k', vp', hident, hlen, _⟩ := hn.ident e i hi
  obtain ⟨rfl, rfl⟩ := identOf_inj (hident.symm.trans he.ident)
  exact hlen

lemma Named.cached (hn : Named c s g) (he : g.place e = .chain i) :
    ∃ k vp, Cached s g e k vp ∧ chainOf c (dnlcHash k.name k.dp) = i := by
  obtain ⟨k, vp, hident, _, hchain⟩ := hn.ident e i he
  exact ⟨k, vp, ⟨⟨i, he⟩, hident⟩, hchain⟩

lemma dnlcSearch_none (h : Placed c s g th) (hn : Named c s g)
    (hnone : dnlcSearch c s k.dp k.name (dnlcHash k.name k.dp) (some k.cred) = none) : ∀ e vp, ¬ Cached s g e k vp := by
  intro e vp he
  have hfind := h.find_none (chainOf_lt c _) (map_eq_none_iff.mp hnone) (hn.chain_eq he)
  rw [he.ident, isIdent_identOf.mpr rfl] at hfind
  cases hfind

lemma dnlcSearch_any_none {dp : Vnode} {name : Name} (h : Placed c s g th) (hn : Named c s g)
    (hnone : dnlcSearch c s dp name (dnlcHash name dp) none = none) : ∀ e k vp, Cached s g e k vp → ¬ (k.dp = dp ∧ k.name = name) := by
  rintro e k vp he ⟨rfl, rfl⟩
  have hfind := h.find_none (chainOf_lt c _) (map_eq_none_iff.mp hnone) (hn.chain_eq he)
  rw [he.ident, isIdent_any.mpr ⟨rfl, rfl⟩] at hfind
  cases hfind

lemma dnlcSearch_some {dp : Vnode} {name : Name} {hash : UInt32} {cred : Option Cred} (h : Placed c s g th)
    (hsome : dnlcSearch c s dp name hash cred = some e) : ∃ i, g.place e = .chain i := by
  obtain ⟨⟨e', d⟩, hfind, rfl⟩ := map_eq_some_iff.mp hsome
  exact ⟨_, (h.find_some (chainOf_lt c _) hfind).1⟩

end Walks

end Solaris.Dnlc
