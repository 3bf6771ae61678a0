import Mathlib.Data.List.Perm.Basic
import Solaris.Dnlc.Layout

/-!
# The places of entries

Each entry is on one chain, on the freelist or in the hands of one thread, and the links agree with that.
-/

namespace Solaris.Dnlc

open Lib Function List Function

variable {c : Config} {n : Nat} {s s' : Cache} {th : Fin n → Thread} {t u : Fin n} {x : Thread} {i j : Nat} {e e' : EntId}

inductive Place (n : Nat) where
  | chain (i : Nat)
  | free
  | hand (t : Fin n)
  | outside

/-- The places of entries, the lists that the links spell, and for each entry the place of its insertion in the history. -/
structure Ghost (n : Nat) where
  place : EntId → Place n
  chain : Nat → List EntId
  free : List EntId
  born : EntId → Nat

variable {g : Ghost n} {place : EntId → Place n}

namespace Ghost

def pop (g : Ghost n) (t : Fin n) (e : EntId) : Ghost n :=
  { g with place := update g.place e (.hand t), free := g.free.tail }

def unchain (g : Ghost n) (t : Fin n) (i : Nat) (e : EntId) : Ghost n :=
  { g with place := update g.place e (.hand t), chain := update g.chain i ((g.chain i).erase e) }

def discard (g : Ghost n) (e : EntId) : Ghost n :=
  { g with place := update g.place e .free, free := e :: g.free }

def insert (g : Ghost n) (i : Nat) (e : EntId) (b : Nat) : Ghost n :=
  { g with
    place := update g.place e (.chain i)
    chain := update g.chain i (e :: g.chain i)
    born := update g.born e b }

def front (g : Ghost n) (i : Nat) (e : EntId) : Ghost n :=
  { g with chain := update g.chain i (e :: (g.chain i).erase e) }

lemma insert_place_self {b : Nat} : (g.insert i e b).place e = .chain i := update_self ..

lemma insert_place_ne {b : Nat} (h : e' ≠ e) : (g.insert i e b).place e' = g.place e' := update_of_ne h ..

lemma insert_born_self {b : Nat} : (g.insert i e b).born e = b := update_self ..

lemma insert_born_ne {b : Nat} (h : e' ≠ e) : (g.insert i e b).born e' = g.born e' := update_of_ne h ..

end Ghost

def Hands (place : EntId → Place n) (th : Fin n → Thread) : Prop :=
  ∀ t e, (th t).hand = some e ↔ place e = .hand t

lemma Hands.keep (h : Hands place th) (hx : x.hand = (th t).hand) : Hands place (update th t x) := by
  intro u e
  rw [← h u e]
  rcases eq_or_ne u t with rfl | hne
  · rw [update_self, hx]
  · rw [update_of_ne hne]

lemma Hands.take (h : Hands place th) (hfree : ∀ u, place e ≠ .hand u) (hnone : (th t).hand = none)
    (hx : x.hand = some e) : Hands (update place e (.hand t)) (update th t x) := by
  intro u e'
  rcases eq_or_ne e' e with rfl | hee
  · rw [update_self]
    rcases eq_or_ne u t with rfl | hne
    · rw [update_self]
      exact iff_of_true hx rfl
    · rw [update_of_ne hne, h u e']
      exact iff_of_false (hfree u) fun heq => hne (Place.hand.inj heq).symm
  · rw [update_of_ne hee, ← h u e']
    rcases eq_or_ne u t with rfl | hne
    · rw [update_self, hx, hnone]
      exact iff_of_false (fun heq => hee (Option.some.inj heq).symm) nofun
    · rw [update_of_ne hne]

lemma Hands.drop {p : Place n} (h : Hands place th) (hhand : (th t).hand = some e) (hp : ∀ u, p ≠ .hand u)
    (hx : x.hand = none) : Hands (update place e p) (update th t x) := by
  intro u e'
  rcases eq_or_ne e' e with rfl | hee
  · rw [update_self]
    rcases eq_or_ne u t with rfl | hne
    · rw [update_self, hx]
      exact iff_of_false nofun (hp u)
    · rw [update_of_ne hne, h u e', (h t e').mp hhand]
      exact iff_of_false (fun heq => hne (Place.hand.inj heq).symm) (hp u)
  · rw [update_of_ne hee, ← h u e']
    rcases eq_or_ne u t with rfl | hne
    · rw [update_self, hx, hhand]
      exact iff_of_false nofun fun heq => hee (Option.some.inj heq).symm
    · rw [update_of_ne hne]

structure Placed (c : Config) (s : Cache) (g : Ghost n) (th : Fin n → Thread) : Prop where
  chained : ∀ i < c.ncHashsz, Chained s i (g.chain i)
  freed : Freed s g.free
  mem_chain : ∀ i e, e ∈ g.chain i ↔ g.place e = .chain i
  mem_free : ∀ e, e ∈ g.free ↔ g.place e = .free
  hands : Hands g.place th
  outside : ∀ e, g.place e = .outside ↔ c.ncsize ≤ e
  chain_lt : ∀ e i, g.place e = .chain i → i < c.ncHashsz
  unlinked : ∀ e, (∀ i, g.place e ≠ .chain i) → s.hashNext (.entry e) = none

lemma Placed.congr (h : Placed c s g th) (hnext : s'.hashNext = s.hashNext) (hprev : s'.hashPrev = s.hashPrev)
    (hlist : s'.freelist = s.freelist) (hfree : s'.nextFree = s.nextFree) (hx : x.hand = (th t).hand) :
    Placed c s' g (update th t x) where
  chained i hi := (h.chained i hi).apart (fun p _ => congrFun hnext p) fun p _ => congrFun hprev p
  freed := h.freed.congr hlist hfree
  mem_chain := h.mem_chain
  mem_free := h.mem_free
  hands := h.hands.keep hx
  outside := h.outside
  chain_lt := h.chain_lt
  unlinked e he := (congrFun hnext _).trans (h.unlinked e he)

lemma Placed.split (h : Placed c s g th) (he : g.place e = .chain i) :
    ∃ pre post, g.chain i = pre ++ e :: post ∧ Chained s i (pre ++ e :: post) ∧ (g.chain i).erase e = pre ++ post := by
  obtain ⟨pre, post, hl⟩ := append_of_mem ((h.mem_chain i e).mpr he)
  have hchained := h.chained i (h.chain_lt e i he)
  rw [hl] at hchained
  refine ⟨pre, post, hl, hchained, ?_⟩
  have hpre : e ∉ pre := fun hmem =>
    (nodup_append.mp hchained.nodup).2.2 e hmem e (mem_cons_self ..) rfl
  rw [hl, erase_append_right _ hpre, erase_cons_head]

lemma mem_update {q : EntId → Prop} {p p' : Place n} (hq : ∀ e', e' ≠ e → (q e' ↔ place e' = p)) (he : q e ↔ p' = p)
    (e' : EntId) : q e' ↔ update place e p' e' = p := by
  rcases eq_or_ne e' e with rfl | hee
  · rw [update_self]
    exact he
  · rw [update_of_ne hee]
    exact hq e' hee

lemma Placed.chained_update {l' : List EntId} (h : Placed c s g th) (hi : i < c.ncHashsz)
    (hre : Relinked s s' i (g.chain i) l') : ∀ j < c.ncHashsz, Chained s' j (update g.chain i l' j) := by
  intro j hj
  rcases eq_or_ne j i with rfl | hne
  · rw [update_self]
    exact hre.chained
  · rw [update_of_ne hne]
    refine hre.other (h.chained j hj) hne.symm fun x hxj hxi => hne ?_
    exact Place.chain.inj (((h.mem_chain j x).mp hxj).symm.trans ((h.mem_chain i x).mp hxi))

lemma Placed.outside_update {p : Place n} (h : Placed c s g th) (he : g.place e ≠ .outside) (hp : p ≠ .outside) :
    ∀ e', update g.place e p e' = .outside ↔ c.ncsize ≤ e' :=
  fun e' => ((mem_update (fun e' _ => (h.outside e').symm) (iff_of_false (fun hle => he ((h.outside e).mpr hle)) hp)) e').symm

lemma Placed.lt_update {p : Place n} (h : Placed c s g th) (hp : ∀ i, p = .chain i → i < c.ncHashsz) :
    ∀ e' i, update g.place e p e' = .chain i → i < c.ncHashsz := by
  intro e' i he'
  rcases eq_or_ne e' e with rfl | hee
  · rw [update_self] at he'
    exact hp i he'
  · rw [update_of_ne hee] at he'
    exact h.chain_lt e' i he'

lemma Placed.unlinked_update {p : Place n} (h : Placed c s g th) (hnext : s'.hashNext = s.hashNext)
    (he : ∀ i, g.place e ≠ .chain i) :
    ∀ e', (∀ i, update g.place e p e' ≠ .chain i) → s'.hashNext (.entry e') = none := by
  intro e' he'
  rw [hnext]
  refine h.unlinked e' fun i hi => ?_
  have hee : e' ≠ e := by
    rintro rfl
    exact he i hi
  exact he' i ((update_of_ne hee ..).trans hi)

lemma Placed.pop (h : Placed c s g th) (hlist : s.freelist = some e) (hnone : (th t).hand = none)
    (hx : x.hand = some e) : Placed c (popFree s).2 (g.pop t e) (update th t x) := by
  obtain ⟨rest, hl, hfreed⟩ := popFree_freed h.freed hlist
  have hplace : g.place e = .free := (h.mem_free e).mp (hl ▸ mem_cons_self ..)
  have htail : g.free.tail = rest := by rw [hl, tail_cons]
  have hnodup := h.freed.nodup
  rw [hl, nodup_cons] at hnodup
  have hnext : (popFree s).2.hashNext = s.hashNext := by rw [popFree_some hlist]
  have hprev : (popFree s).2.hashPrev = s.hashPrev := by rw [popFree_some hlist]
  refine ⟨?_, ?_, ?_, ?_, ?_, ?_, ?_, ?_⟩
  · exact fun i hi => (h.chained i hi).apart (fun p _ => congrFun hnext p) fun p _ => congrFun hprev p
  · dsimp only [Ghost.pop]
    rw [htail]
    exact hfreed
  · intro i
    refine mem_update (fun e' _ => h.mem_chain i e') ?_
    dsimp only [Ghost.pop]
    rw [h.mem_chain, hplace]
    exact iff_of_false nofun nofun
  · dsimp only [Ghost.pop]
    rw [htail]
    refine mem_update (fun e' hee => ?_) (iff_of_false hnodup.1 nofun)
    rw [← h.mem_free e', hl]
    exact ⟨mem_cons_of_mem _, fun hmem => (mem_cons.mp hmem).resolve_left hee⟩
  · exact h.hands.take (fun u => hplace ▸ nofun) hnone hx
  · exact h.outside_update (hplace ▸ nofun) nofun
  · exact h.lt_update nofun
  · exact h.unlinked_update hnext fun i => hplace ▸ nofun

lemma Placed.unchain (h : Placed c s g th) (he : g.place e = .chain i) (hnone : (th t).hand = none)
    (hx : x.hand = some e) : Placed c (ncRmhash s e) (g.unchain t i e) (update th t x) := by
  obtain ⟨pre, post, hl, hchained, herase⟩ := h.split he
  have hre := ncRmhash_relinked hchained
  rw [← hl, ← herase] at hre
  obtain ⟨next, prev, hrest⟩ := hre.rest
  refine ⟨?_, ?_, ?_, ?_, ?_, ?_, ?_, ?_⟩
  · exact h.chained_update (h.chain_lt e i he) hre
  · rw [hrest]
    exact h.freed.congr rfl rfl
  · intro j
    dsimp only [Ghost.unchain]
    rcases eq_or_ne j i with rfl | hne
    · rw [update_self]
      have hnodup := (h.chained j (h.chain_lt e j he)).nodup
      refine mem_update (fun e' hee => ?_) (iff_of_false (hnodup.not_mem_erase) nofun)
      rw [mem_erase_of_ne hee, h.mem_chain]
    · rw [update_of_ne hne]
      refine mem_update (fun e' _ => h.mem_chain j e') ?_
      rw [h.mem_chain, he]
      exact iff_of_false (fun heq => hne (Place.chain.inj heq).symm) nofun
  · refine mem_update (fun e' _ => h.mem_free e') ?_
    dsimp only [Ghost.unchain]
    rw [h.mem_free, he]
    exact iff_of_false nofun nofun
  · exact h.hands.take (fun u => he ▸ nofun) hnone hx
  · exact h.outside_update (he ▸ nofun) nofun
  · exact h.lt_update nofun
  · intro e' he'
    dsimp only [Ghost.unchain] at he'
    rcases eq_or_ne e' e with rfl | hee
    · exact ncRmhash_self hchained
    · rw [update_of_ne hee] at he'
      rw [hre.next _ (mt onChain_entry_iff.mp (mt (h.mem_chain i e').mp (he' i)))]
      exact h.unlinked e' he'

lemma Placed.discard (h : Placed c s g th) (he : (th t).hand = some e) (hx : x.hand = none) :
    Placed c (dnlcFree s e) (g.discard e) (update th t x) := by
  have hplace := (h.hands t e).mp he
  have hout : e ∉ g.free := by
    rw [h.mem_free, hplace]
    exact nofun
  refine ⟨?_, ?_, ?_, ?_, ?_, ?_, ?_, ?_⟩
  · exact fun i hi => (h.chained i hi).apart (fun p _ => rfl) fun p _ => rfl
  · exact dnlcFree_freed h.freed hout
  · intro i
    refine mem_update (fun e' _ => h.mem_chain i e') ?_
    dsimp only [Ghost.discard]
    rw [h.mem_chain, hplace]
    exact iff_of_false nofun nofun
  · refine mem_update (fun e' hee => ?_) (iff_of_true (mem_cons_self ..) rfl)
    rw [← h.mem_free e']
    exact ⟨fun hmem => (mem_cons.mp hmem).resolve_left hee, mem_cons_of_mem _⟩
  · exact h.hands.drop he nofun hx
  · exact h.outside_update (hplace ▸ nofun) nofun
  · exact h.lt_update nofun
  · exact h.unlinked_update rfl fun i => hplace ▸ nofun

lemma Placed.insert {b : Nat} (h : Placed c s g th) (he : (th t).hand = some e) (hi : i < c.ncHashsz)
    (hx : x.hand = none) : Placed c (ncInshash s e i) (g.insert i e b) (update th t x) := by
  have hplace := (h.hands t e).mp he
  have hout : e ∉ g.chain i := by
    rw [h.mem_chain, hplace]
    exact nofun
  have hre := ncInshash_relinked (h.chained i hi) hout
  obtain ⟨next, prev, hrest⟩ := hre.rest
  refine ⟨?_, ?_, ?_, ?_, ?_, ?_, ?_, ?_⟩
  · intro j hj
    dsimp only [Ghost.insert]
    rcases eq_or_ne j i with rfl | hne
    · rw [update_self]
      exact hre.chained
    rw [update_of_ne hne]
    refine hre.other (h.chained j hj) hne.symm fun x hxj hxi => ?_
    rw [h.mem_chain] at hxj
    rcases mem_cons.mp hxi with rfl | hxi
    · rw [hplace] at hxj
      cases hxj
    · rw [h.mem_chain, hxj] at hxi
      exact hne (Place.chain.inj hxi)
  · rw [hrest]
    exact h.freed.congr rfl rfl
  · intro j
    dsimp only [Ghost.insert]
    rcases eq_or_ne j i with rfl | hne
    · rw [update_self]
      refine mem_update (fun e' hee => ?_) (iff_of_true (mem_cons_self ..) rfl)
      rw [← h.mem_chain j e']
      exact ⟨fun hmem => (mem_cons.mp hmem).resolve_left hee, mem_cons_of_mem _⟩
    · rw [update_of_ne hne]
      refine mem_update (fun e' _ => h.mem_chain j e') ?_
      rw [h.mem_chain, hplace]
      exact iff_of_false nofun fun heq => hne (Place.chain.inj heq).symm
  · refine mem_update (fun e' _ => h.mem_free e') ?_
    dsimp only [Ghost.insert]
    rw [h.mem_free, hplace]
    exact iff_of_false nofun nofun
  · exact h.hands.drop he nofun hx
  · exact h.outside_update (hplace ▸ nofun) nofun
  · exact h.lt_update fun j hj => Place.chain.inj hj ▸ hi
  · intro e' he'
    dsimp only [Ghost.insert] at he'
    rcases eq_or_ne e' e with rfl | hee
    · rw [update_self] at he'
      exact absurd rfl (he' i)
    · rw [update_of_ne hee] at he'
      rw [hre.next]
      · exact h.unlinked e' he'
      · rw [onChain_entry_iff, mem_cons, h.mem_chain]
        exact not_or.mpr ⟨hee, he' i⟩

lemma Placed.front (h : Placed c s g th) (he : g.place e = .chain i) (hx : x.hand = (th t).hand) :
    Placed c (ncMoveToFront s i e) (g.front i e) (update th t x) := by
  obtain ⟨pre, post, hl, hchained, herase⟩ := h.split he
  have hre := ncMoveToFront_relinked hchained
  rw [← hl, ← herase] at hre
  obtain ⟨next, prev, hrest⟩ := hre.rest
  refine ⟨?_, ?_, ?_, h.mem_free, h.hands.keep hx, h.outside, h.chain_lt, ?_⟩
  · exact h.chained_update (h.chain_lt e i he) hre
  · rw [hrest]
    exact h.freed.congr rfl rfl
  · intro j e'
    dsimp only [Ghost.front]
    rw [← h.mem_chain j e']
    rcases eq_or_ne j i with rfl | hne
    · rw [update_self]
      exact (perm_cons_erase ((h.mem_chain j e).mpr he)).symm.mem_iff
    · rw [update_of_ne hne]
  · intro e' he'
    rw [hre.next _ (mt onChain_entry_iff.mp (mt (h.mem_chain i e').mp (he' i)))]
    exact h.unlinked e' he'

end Solaris.Dnlc
