import Mathlib.Algebra.BigOperators.Fin
import Solaris.Dnlc.Search
import Solaris.Lib.Sums

/-!
# The holds of the cache

Every hold that was taken is released, given to a caller, owned by a chained entry, or owed by a thread.
-/

namespace Solaris.Dnlc

section Holds

open Finset Function

variable {c : Config} {n : Nat} {s s' : Cache} {g g' : Ghost n} {th : Fin n → Thread} {t : Fin n} {x : Thread} {i : Nat}
  {e : EntId} {v : Vnode}

/-- The holds on `v` that an entry owns. -/
def owns (s : Cache) (g : Ghost n) (v : Vnode) (e : EntId) : Nat :=
  match g.place e with
  | .chain _ => (dpOf s e ++ vpOf s e).count v
  | _ => 0

def owned (c : Config) (s : Cache) (g : Ghost n) (v : Vnode) : Nat := ∑ e ∈ range c.ncsize, owns s g v e

/-- The holds on `v` that threads have yet to release. -/
def owed (th : Fin n → Thread) (v : Vnode) : Nat := ∑ t, (th t).rele.count v

def Ledger (c : Config) (s : Cache) (g : Ghost n) (th : Fin n → Thread) : Prop :=
  ∀ v, s.taken v = s.released v + s.given v + owned c s g v + owed th v

lemma owed_update (th : Fin n → Thread) (t : Fin n) (x : Thread) (v : Vnode) : owed (update th t x) v + (th t).rele.count v = owed th v + x.rele.count v := by
  have hother : ∀ u ∈ univ, u ≠ t → (update th t x u).rele.count v = (th u).rele.count v := by
    intro u _ hu
    rw [update_of_ne hu]
  have hsum := Lib.sum_change (mem_univ t) hother
  rw [update_self] at hsum
  exact hsum

lemma owed_keep (hx : x.rele = (th t).rele) : owed (update th t x) v = owed th v := by
  have := owed_update th t x v
  rw [hx] at this
  omega

lemma owned_congr (h : ∀ e, owns s' g' v e = owns s g v e) : owned c s' g' v = owned c s g v :=
  sum_congr rfl fun e _ => h e

lemma owned_change (he : e < c.ncsize) (h : ∀ e', e' ≠ e → owns s' g' v e' = owns s g v e') :
    owned c s' g' v + owns s g v e = owned c s g v + owns s' g' v e :=
  Lib.sum_change (mem_range.mpr he) fun e' _ => h e'

lemma owns_chain (he : g.place e = .chain i) : owns s g v e = (dpOf s e ++ vpOf s e).count v := by
  unfold owns
  rw [he]

lemma owns_other (he : ∀ i, g.place e ≠ .chain i) : owns s g v e = 0 := by
  unfold owns
  cases hp : g.place e with
  | chain i => exact absurd hp (he i)
  | _ => rfl

lemma owns_congr (hplace : g'.place e = g.place e) (hident : s'.ident e = s.ident e) : owns s' g' v e = owns s g v e := by
  unfold owns dpOf vpOf
  rw [hplace, hident]

lemma Ledger.outside (h : Ledger c s g th) (htaken : s'.taken = s.taken) (hreleased : s'.released = s.released)
    (hgiven : s'.given = s.given) (hsame : ∀ e', e' ≠ e → g'.place e' = g.place e' ∧ s'.ident e' = s.ident e')
    (hold : ∀ i, g.place e ≠ .chain i) (hnew : ∀ i, g'.place e ≠ .chain i) (hx : x.rele = (th t).rele) :
    Ledger c s' g' (update th t x) := by
  intro v
  rw [htaken, hreleased, hgiven, owed_keep hx, h v]
  congr 2
  refine (owned_congr fun e' => ?_).symm
  rcases eq_or_ne e' e with rfl | hee
  · rw [owns_other hold, owns_other hnew]
  · exact owns_congr (hsame e' hee).1 (hsame e' hee).2

lemma Ledger.congr (h : Ledger c s g th) (htaken : s'.taken = s.taken) (hreleased : s'.released = s.released)
    (hgiven : s'.given = s.given) (hplace : g'.place = g.place) (hident : s'.ident = s.ident)
    (hx : x.rele = (th t).rele) : Ledger c s' g' (update th t x) := by
  intro v
  rw [htaken, hreleased, hgiven, owed_keep hx, h v]
  congr 2
  exact (owned_congr fun e => owns_congr (congrFun hplace e) (congrFun hident e)).symm

lemma Ledger.unchain (h : Ledger c s g th) (he : e < c.ncsize) (hchain : g.place e = .chain i)
    (hident : s'.ident = s.ident) (htaken : s'.taken = s.taken) (hreleased : s'.released = s.released)
    (hgiven : s'.given = s.given) (hx : x.rele.Perm ((th t).rele ++ (dpOf s e ++ vpOf s e))) :
    Ledger c s' (g.unchain t i e) (update th t x) := by
  intro v
  have howned : owned c s' (g.unchain t i e) v + owns s g v e = owned c s g v + owns s' (g.unchain t i e) v e :=
    owned_change he fun e' hee => owns_congr (update_of_ne hee ..) (congrFun hident e')
  have hnew : owns s' (g.unchain t i e) v e = 0 := by
    refine owns_other fun j hj => ?_
    have hself : (g.unchain t i e).place e = .hand t := update_self ..
    rw [hself] at hj
    cases hj
  have howed := owed_update th t x v
  rw [hx.count_eq, List.count_append] at howed
  rw [hnew, owns_chain hchain] at howned
  rw [htaken, hreleased, hgiven, h v]
  omega

lemma Ledger.insert {b : Nat} (h : Ledger c s g th) (he : e < c.ncsize) (hold : ∀ j, g.place e ≠ .chain j)
    (hident : s'.ident = s.ident) (htaken : s'.taken = s.taken) (hreleased : s'.released = s.released)
    (hgiven : s'.given = s.given) (hth : (th t).rele = dpOf s e ++ vpOf s e) (hx : x.rele = []) :
    Ledger c s' (g.insert i e b) (update th t x) := by
  intro v
  have howned : owned c s' (g.insert i e b) v + owns s g v e = owned c s g v + owns s' (g.insert i e b) v e :=
    owned_change he fun e' hee => owns_congr (update_of_ne hee ..) (congrFun hident e')
  have hnew : owns s' (g.insert i e b) v e = (dpOf s e ++ vpOf s e).count v := by
    rw [owns_chain (update_self ..)]
    unfold dpOf vpOf
    rw [hident]
  have howed := owed_update th t x v
  rw [hth, hx, List.count_nil] at howed
  rw [hnew, owns_other hold] at howned
  rw [htaken, hreleased, hgiven, h v]
  omega

lemma count_cons_update {w : Vnode} (f : Vnode → Nat) :
    update f w (f w + 1) v = f v + [w].count v := by
  rcases eq_or_ne v w with rfl | hne
  · rw [update_self, List.count_singleton_self]
  · rw [update_of_ne hne, List.count_eq_zero_of_not_mem (by simpa using hne)]
    rfl

lemma Ledger.rele {w : Vnode} (h : Ledger c s g th) (hth : (th t).rele = w :: x.rele) :
    Ledger c (s.rele w) g (update th t x) := by
  intro v
  have howed := owed_update th t x v
  have hreleased : (s.rele w).released v = s.released v + [w].count v := count_cons_update ..
  have howned : owned c (s.rele w) g v = owned c s g v := rfl
  rw [hth, ← List.singleton_append, List.count_append] at howed
  show s.taken v = _ + s.given v + _ + _
  have := h v
  omega

lemma Ledger.lookup {w : Vnode} (h : Ledger c s g th) (hx : x.rele = (th t).rele) :
    Ledger c ((s.hold w).give w) g (update th t x) := by
  intro v
  have htaken : ((s.hold w).give w).taken v = s.taken v + [w].count v := count_cons_update ..
  have hgiven : ((s.hold w).give w).given v = s.given v + [w].count v := count_cons_update ..
  have howned : owned c ((s.hold w).give w) g v = owned c s g v := rfl
  rw [htaken, hgiven, howned, owed_keep hx]
  show _ = s.released v + _ + _ + _
  have := h v
  omega

lemma Ledger.initEntry {k : Key} {vp : Vnode} (h : Ledger c s g th) (hold : ∀ i, g.place e ≠ .chain i)
    (hth : (th t).rele = []) (hx : x.rele = [k.dp, vp]) :
    Ledger c (initEntry s k vp e) g (update th t x) := by
  intro v
  have htaken : (Dnlc.initEntry s k vp e).taken v = s.taken v + [k.dp].count v + [vp].count v := by
    unfold Dnlc.initEntry Cache.hold Cache.setIdent
    dsimp only
    rw [count_cons_update, count_cons_update]
  have howned : owned c (Dnlc.initEntry s k vp e) g v = owned c s g v := by
    refine owned_congr fun e' => ?_
    rcases eq_or_ne e' e with rfl | hee
    · rw [owns_other hold, owns_other hold]
    · exact owns_congr rfl (update_of_ne hee ..)
  have howed := owed_update th t x v
  rw [hth, hx, ← List.singleton_append, List.count_append, List.count_nil] at howed
  show _ = s.released v + s.given v + _ + _
  have := h v
  omega

end Holds

/-!
## The sections of the cache

What each section does to the invariant of the cache, and what the other threads see of it.
-/

section Sections

open Function

variable {c : Config} {n : Nat} {s s' s'' : Cache} {g g' g'' : Ghost n} {th : Fin n → Thread} {t u : Fin n} {x : Thread}
  {i : Nat} {e : EntId} {k : Key} {vp v : Vnode} {ev : Event}

structure Core (c : Config) (s : Cache) (g : Ghost n) (th : Fin n → Thread) : Prop where
  placed : Placed c s g th
  named : Named c s g
  ledger : Ledger c s g th
  story : Story s.history
  rotor : s.freeRotor < c.ncHashsz

/-- What the other threads see of a step of the thread `t`. -/
structure Moves (t : Fin n) (s : Cache) (g : Ghost n) (s' : Cache) (g' : Ghost n) : Prop where
  history : s.history <+: s'.history
  cached : ∀ e k vp, Cached s' g' e k vp → (Cached s g e k vp ∧ g'.born e = g.born e) ∨ s.history.length ≤ g'.born e
  hand : ∀ u, u ≠ t → ∀ e, g.place e = .hand u → s'.ident e = s.ident e

lemma Fewer.moves (h : Fewer t s g s' g') : Moves t s g s' g' where
  history := h.history ▸ List.prefix_refl _
  cached _ _ _ he := .inl (h.cached he)
  hand u hu e he := (h.hand u hu e he).2

lemma Fewer.then (h : Fewer t s g s' g') (h' : Moves t s' g' s'' g'') : Moves t s g s'' g'' where
  history := h.history ▸ h'.history
  cached e k vp he := by
    rcases h'.cached e k vp he with ⟨he, hborn⟩ | hnew
    · exact .inl ⟨(h.cached he).1, hborn.trans (h.cached he).2⟩
    · exact .inr (h.history ▸ hnew)
  hand u hu e he := by
    obtain ⟨he', hident⟩ := h.hand u hu e he
    exact (h'.hand u hu e he').trans hident

lemma moves_record : Moves t s g (s.record ev) g where
  history := List.prefix_append ..
  cached _ _ _ he := .inl ⟨⟨he.chain, he.ident⟩, rfl⟩
  hand _ _ _ _ := rfl

section

variable (h : Core c s g th)

include h

lemma Core.pop (hlist : s.freelist = some e) (hnone : (th t).hand = none) (hx : x.hand = some e)
    (hrele : x.rele = (th t).rele) :
    Core c (popFree s).2 (g.pop t e) (update th t x) ∧ Fewer t s g (popFree s).2 (g.pop t e) := by
  have hplace : g.place e = .free := by
    obtain ⟨rest, hl, _⟩ := popFree_freed h.placed.freed hlist
    exact (h.placed.mem_free e).mp (hl ▸ List.mem_cons_self ..)
  have hnew : (g.pop t e).place e = .hand t := update_self ..
  have hsame : ∀ e', e' ≠ e → (g.pop t e).place e' = g.place e' := fun e' hee => update_of_ne hee ..
  have hplaced := h.placed.pop hlist hnone hx
  rw [popFree_some hlist] at hplaced ⊢
  have hfewer : Fewer t s g { s with freelist := s.nextFree e, nextFree := update s.nextFree e none } (g.pop t e) :=
    Fewer.of_change rfl rfl (fun e' hee => ⟨hsame e' hee, rfl⟩) (fun i => hnew ▸ nofun) fun u _ => hplace ▸ nofun
  refine ⟨⟨hplaced, h.named.fewer hfewer, ?_, h.story, h.rotor⟩, hfewer⟩
  exact h.ledger.outside rfl rfl rfl (fun e' hee => ⟨hsame e' hee, rfl⟩) (fun i => hplace ▸ nofun)
    (fun i => hnew ▸ nofun) hrele

lemma Core.unchain (he : g.place e = .chain i) (hnone : (th t).hand = none) (hx : x.hand = some e)
    (hrele : x.rele.Perm ((th t).rele ++ (dpOf s e ++ vpOf s e))) :
    Core c (ncRmhash s e) (g.unchain t i e) (update th t x) ∧
      Fewer t s g (ncRmhash s e) (g.unchain t i e) := by
  have hplaced := h.placed.unchain he hnone hx
  obtain ⟨pre, post, _, hchained, _⟩ := h.placed.split he
  have hnew : (g.unchain t i e).place e = .hand t := update_self ..
  have hsame : ∀ e', e' ≠ e → (g.unchain t i e).place e' = g.place e' := fun e' hee => update_of_ne hee ..
  obtain ⟨next, prev, hrest⟩ := (ncRmhash_relinked hchained).rest
  rw [hrest] at hplaced ⊢
  have hfewer : Fewer t s g { s with hashNext := next, hashPrev := prev } (g.unchain t i e) :=
    Fewer.of_change rfl rfl (fun e' hee => ⟨hsame e' hee, rfl⟩) (fun i => hnew ▸ nofun) fun u _ => he ▸ nofun
  refine ⟨⟨hplaced, h.named.fewer hfewer, ?_, h.story, h.rotor⟩, hfewer⟩
  exact h.ledger.unchain (h.placed.lt_of_chain he) he rfl rfl rfl rfl hrele

lemma Core.discard (he : (th t).hand = some e) (hx : x.hand = none) (hrele : x.rele = (th t).rele) :
    Core c (dnlcFree s e) (g.discard e) (update th t x) ∧ Fewer t s g (dnlcFree s e) (g.discard e) := by
  have hplace := (h.placed.hands t e).mp he
  have hnew : (g.discard e).place e = .free := update_self ..
  have hsame : ∀ e', e' ≠ e → (g.discard e).place e' = g.place e' ∧ (dnlcFree s e).ident e' = s.ident e' :=
    fun e' hee => ⟨update_of_ne hee .., update_of_ne hee ..⟩
  have hfewer : Fewer t s g (dnlcFree s e) (g.discard e) :=
    Fewer.of_change rfl rfl hsame (fun i => hnew ▸ nofun) fun u hu heq =>
      hu (Place.hand.inj (heq.symm.trans hplace))
  refine ⟨⟨h.placed.discard he hx, h.named.fewer hfewer, ?_, h.story, h.rotor⟩, hfewer⟩
  exact h.ledger.outside rfl rfl rfl hsame (fun i => hplace ▸ nofun) (fun i => hnew ▸ nofun) hrele

lemma Core.rele (hth : (th t).rele = v :: x.rele) (hx : x.hand = (th t).hand) :
    Core c (s.rele v) g (update th t x) ∧ Fewer t s g (s.rele v) g := by
  have hfewer : Fewer t s g (s.rele v) g := Fewer.congr rfl rfl rfl rfl
  exact ⟨⟨h.placed.congr rfl rfl rfl rfl hx, h.named.fewer hfewer, h.ledger.rele hth, h.story, h.rotor⟩, hfewer⟩

lemma Core.initEntry (he : (th t).hand = some e) (hnil : (th t).rele = []) (hx : x.hand = (th t).hand)
    (hrele : x.rele = [k.dp, vp]) :
    Core c (initEntry s k vp e) g (update th t x) ∧ Fewer t s g (initEntry s k vp e) g := by
  have hplace := (h.placed.hands t e).mp he
  have hsame : ∀ e', e' ≠ e → g.place e' = g.place e' ∧ (Dnlc.initEntry s k vp e).ident e' = s.ident e' :=
    fun e' hee => ⟨rfl, update_of_ne hee ..⟩
  have hfewer : Fewer t s g (Dnlc.initEntry s k vp e) g :=
    Fewer.of_change rfl rfl hsame (fun i => hplace ▸ nofun) fun u hu heq =>
      hu (Place.hand.inj (heq.symm.trans hplace))
  refine ⟨⟨h.placed.congr rfl rfl rfl rfl hx, h.named.fewer hfewer, ?_, h.story, h.rotor⟩, hfewer⟩
  exact h.ledger.initEntry (fun i => hplace ▸ nofun) hnil hrele

lemma Core.keep (hs : ∃ free purge lock, free < c.ncHashsz ∧
      s' = { s with freeRotor := free, purgeRotor := purge, releLock := lock })
    (hx : x.hand = (th t).hand) (hrele : x.rele = (th t).rele) :
    Core c s' g (update th t x) ∧ Fewer t s g s' g := by
  obtain ⟨free, purge, lock, hfree, rfl⟩ := hs
  have hfewer : Fewer t s g { s with freeRotor := free, purgeRotor := purge, releLock := lock } g :=
    Fewer.congr rfl rfl rfl rfl
  exact ⟨⟨h.placed.congr rfl rfl rfl rfl hx, h.named.fewer hfewer, h.ledger.congr rfl rfl rfl rfl rfl hrele, h.story,
    hfree⟩, hfewer⟩

lemma Core.front (he : g.place e = .chain i) (hx : x.hand = (th t).hand) (hrele : x.rele = (th t).rele) :
    Core c (ncMoveToFront s i e) (g.front i e) (update th t x) ∧
      Fewer t s g (ncMoveToFront s i e) (g.front i e) := by
  have hplaced := h.placed.front he hx
  obtain ⟨pre, post, _, hchained, _⟩ := h.placed.split he
  obtain ⟨next, prev, hrest⟩ := (ncMoveToFront_relinked hchained).rest
  rw [hrest] at hplaced ⊢
  have hfewer : Fewer t s g { s with hashNext := next, hashPrev := prev } (g.front i e) := Fewer.congr rfl rfl rfl rfl
  exact ⟨⟨hplaced, h.named.fewer hfewer, h.ledger.congr rfl rfl rfl rfl rfl hrele, h.story, h.rotor⟩, hfewer⟩

lemma Core.give (hx : x.hand = (th t).hand) (hrele : x.rele = (th t).rele) :
    Core c ((s.hold v).give v) g (update th t x) ∧ Fewer t s g ((s.hold v).give v) g := by
  have hfewer : Fewer t s g ((s.hold v).give v) g := Fewer.congr rfl rfl rfl rfl
  exact ⟨⟨h.placed.congr rfl rfl rfl rfl hx, h.named.fewer hfewer, h.ledger.lookup hrele, h.story, h.rotor⟩, hfewer⟩

lemma Core.insert (he : (th t).hand = some e) (hident : s.ident e = identOf k vp)
    (hlen : k.name.length ≤ NC_NAMLEN) (hnone : ∀ e' vp', ¬ Cached s g e' k vp') (hth : (th t).rele = [k.dp, vp])
    (hx : x.hand = none) (hrele : x.rele = []) :
    Core c ((ncInshash s e (chainOf c (dnlcHash k.name k.dp))).record (.entered k vp))
        (g.insert (chainOf c (dnlcHash k.name k.dp)) e s.history.length) (update th t x) ∧
      Moves t s g ((ncInshash s e (chainOf c (dnlcHash k.name k.dp))).record (.entered k vp))
        (g.insert (chainOf c (dnlcHash k.name k.dp)) e s.history.length) := by
  have hplace := (h.placed.hands t e).mp he
  have hlt := chainOf_lt c (dnlcHash k.name k.dp)
  have hplaced := h.placed.insert (b := s.history.length) he hlt hx
  obtain ⟨next, prev, hrest⟩ := (ncInshash_relinked (e := e) (h.placed.chained _ hlt)
    (mt (h.placed.mem_chain _ e).mp (hplace ▸ nofun))).rest
  rw [hrest] at hplaced ⊢
  have hin : e < c.ncsize := by
    by_contra hge
    have := (h.placed.outside e).mpr (Nat.le_of_not_lt hge)
    rw [hplace] at this
    cases this
  have hrele' : (th t).rele = dpOf s e ++ vpOf s e := by
    rw [hth, dpOf, vpOf, hident]
    rfl
  refine ⟨⟨?_, ?_, ?_, ?_, h.rotor⟩, ?_, ?_, ?_⟩
  · rw [← update_idem (a := t) x x th]
    exact hplaced.congr rfl rfl rfl rfl (by rw [update_self])
  · exact h.named.insert h.story hident hlen (fun i => hplace ▸ nofun) hnone rfl rfl
  · exact h.ledger.insert hin (fun i => hplace ▸ nofun) rfl rfl rfl rfl hrele' hrele
  · exact h.story.record (fun _ _ _ hev => hev.elim) nofun
  · exact List.prefix_append ..
  · rintro e' k' vp' ⟨⟨j, hj⟩, hident'⟩
    rcases eq_or_ne e' e with rfl | hee
    · exact .inr Ghost.insert_born_self.ge
    · exact .inl ⟨⟨⟨j, (Ghost.insert_place_ne hee).symm.trans hj⟩, hident'⟩, Ghost.insert_born_ne hee⟩
  · exact fun _ _ _ _ => rfl

lemma Core.record (hends : ∀ k vp b, ev.Ends k vp b → s.history[b]? = some .begun)
    (hcached : ∀ e k vp, Cached s g e k vp → ∀ b, ev.Ends k vp b → b ≤ g.born e)
    (hlooked : ∀ k vp, ev = .looked k (some vp) → ∃ e, Cached s g e k vp) (hx : x.hand = (th t).hand)
    (hrele : x.rele = (th t).rele) : Core c (s.record ev) g (update th t x) := by
  refine ⟨h.placed.congr rfl rfl rfl rfl hx, h.named.record hcached, h.ledger.congr rfl rfl rfl rfl rfl hrele, ?_, h.rotor⟩
  refine h.story.record (fun k vp b hb => ?_) fun k vp hev => ?_
  · have hb := hends k vp b hb
    exact ⟨(List.getElem?_eq_some_iff.mp hb).1, hb⟩
  · obtain ⟨e, he⟩ := hlooked k vp hev
    exact ⟨g.born e, h.named.entered e k vp he, h.named.ended e k vp he⟩

end

end Sections

end Solaris.Dnlc
