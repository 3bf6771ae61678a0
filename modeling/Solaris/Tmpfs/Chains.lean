import Solaris.Lib.Chain
import Solaris.Tmpfs.Enter

/-!
# The chains of the hash table

`U` is the set of the entries that are in the table: it is smaller than what is allocated while an entry is being made.
-/

namespace Solaris.Tmpfs

open Lib Function Finset

variable {s s' : Fs} {U : Finset EntId} {i : Nat} {t : EntId} {l pre post : List EntId}

/-- The entries of a chain, and that these are all with its index. -/
structure OnChain (s : Fs) (U : Finset EntId) (i : Nat) (l : List EntId) : Prop where
  links : Chain (linkAt s i) id l
  nodup : l.Nodup
  mem : ∀ e, e ∈ l ↔ e ∈ U ∧ tHashIndex (s.ents e).hash = i

structure Hashed (s : Fs) (U : Finset EntId) : Prop where
  sub : U ⊆ s.used
  hash : ∀ e ∈ U, (s.ents e).hash = tmpfsHashKey (s.ents e).name
  chain : ∀ i, ∃ l, OnChain s U i l
  distinct : ∀ e ∈ U, ∀ e' ∈ U, (s.ents e).parent = (s.ents e').parent → (s.ents e).name = (s.ents e').name → e = e'

/-- Everything but the links of the hash table is as before. -/
structure Rehashed (s s' : Fs) : Prop where
  used : s'.used = s.used
  node : s'.node = s.node
  nodes : s'.nodes = s.nodes
  direntries : s'.direntries = s.direntries
  tmpnode : ∀ e, (s'.ents e).tmpnode = (s.ents e).tmpnode
  next : ∀ e, (s'.ents e).next = (s.ents e).next
  prev : ∀ e, (s'.ents e).prev = (s.ents e).prev
  offset : ∀ e, (s'.ents e).offset = (s.ents e).offset
  hash : ∀ e, (s'.ents e).hash = (s.ents e).hash
  parent : ∀ e, (s'.ents e).parent = (s.ents e).parent
  name : ∀ e, (s'.ents e).name = (s.ents e).name

lemma Fs.setEnt_field {A : Type} (g : Tdirent → A) {f : Tdirent → Tdirent} (h : ∀ td, g (f td) = g td) (s : Fs)
    (t e : EntId) : g ((s.setEnt t f).ents e) = g (s.ents e) := by
  unfold Fs.setEnt
  by_cases he : e = t
  · rw [he]
    exact (congrArg g (update_self ..)).trans (h _)
  · exact congrArg g (update_of_ne he ..)

lemma Fs.setEnt_self (s : Fs) (t : EntId) (f : Tdirent → Tdirent) : (s.setEnt t f).ents t = f (s.ents t) :=
  update_self ..

lemma Fs.setEnt_of_ne (s : Fs) {t e : EntId} (f : Tdirent → Tdirent) (h : e ≠ t) : (s.setEnt t f).ents e = s.ents e :=
  update_of_ne h ..

lemma setLinkAt_field {A : Type} (g : Tdirent → A) (h : ∀ td new, g { td with link := new } = g td) (s : Fs) (i : Nat)
    (slot new : Option EntId) (e : EntId) : g ((setLinkAt s i slot new).ents e) = g (s.ents e) := by
  cases slot with
  | none => rfl
  | some t => exact Fs.setEnt_field g (fun td => h td new) s t e

lemma Rehashed.trans {s'' : Fs} (h : Rehashed s s') (h' : Rehashed s' s'') : Rehashed s s'' :=
  ⟨h'.used.trans h.used, h'.node.trans h.node, h'.nodes.trans h.nodes, h'.direntries.trans h.direntries,
    fun e => (h'.tmpnode e).trans (h.tmpnode e), fun e => (h'.next e).trans (h.next e),
    fun e => (h'.prev e).trans (h.prev e), fun e => (h'.offset e).trans (h.offset e),
    fun e => (h'.hash e).trans (h.hash e), fun e => (h'.parent e).trans (h.parent e),
    fun e => (h'.name e).trans (h.name e)⟩

lemma setLinkAt_rehashed (s : Fs) (i : Nat) (slot new : Option EntId) : Rehashed s (setLinkAt s i slot new) where
  used := by cases slot <;> rfl
  node := by cases slot <;> rfl
  nodes := by cases slot <;> rfl
  direntries := by cases slot <;> rfl
  tmpnode := setLinkAt_field Tdirent.tmpnode (fun _ _ => rfl) s i slot new
  next := setLinkAt_field Tdirent.next (fun _ _ => rfl) s i slot new
  prev := setLinkAt_field Tdirent.prev (fun _ _ => rfl) s i slot new
  offset := setLinkAt_field Tdirent.offset (fun _ _ => rfl) s i slot new
  hash := setLinkAt_field Tdirent.hash (fun _ _ => rfl) s i slot new
  parent := setLinkAt_field Tdirent.parent (fun _ _ => rfl) s i slot new
  name := setLinkAt_field Tdirent.name (fun _ _ => rfl) s i slot new

lemma linkAt_setLinkAt (s : Fs) (i : Nat) (slot new : Option EntId) :
    linkAt (setLinkAt s i slot new) i = update (linkAt s i) slot new := by
  funext x
  by_cases hx : x = slot
  · subst hx
    rw [update_self]
    cases x with
    | none => exact update_self ..
    | some e => exact congrArg Tdirent.link (Fs.setEnt_self s e fun td => { td with link := new })
  rw [update_of_ne hx]
  cases slot with
  | none =>
    cases x with
    | none => exact absurd rfl hx
    | some e => rfl
  | some t =>
    cases x with
    | none => rfl
    | some e =>
      refine congrArg Tdirent.link (update_of_ne ?_ ..)
      rintro rfl
      exact hx rfl

lemma linkAt_setLinkAt_of_ne (s : Fs) {i j : Nat} (hij : j ≠ i) {slot x : Option EntId} (new : Option EntId)
    (hx : x ≠ slot ∨ x = none) : linkAt (setLinkAt s i slot new) j x = linkAt s j x := by
  cases slot with
  | none =>
    cases x with
    | none => exact update_of_ne hij ..
    | some e => rfl
  | some t =>
    cases x with
    | none => rfl
    | some e =>
      refine congrArg Tdirent.link (update_of_ne ?_ ..)
      rintro rfl
      rcases hx with hx | hx
      · exact hx rfl
      · cases hx

lemma OnChain.length_le (h : OnChain s U i l) (hsub : U ⊆ s.used) : l.length ≤ s.used.card := by
  rw [← List.toFinset_card_of_nodup h.nodup]
  refine card_le_card fun e he => hsub ?_
  exact ((h.mem e).mp (List.mem_toFinset.mp he)).1

lemma chainFind_eq (p : Tdirent → Bool) {fuel : Nat} (h : Chain (linkAt s i) id (pre ++ post))
    (hfuel : post.length ≤ fuel) : chainFind s p fuel post.head? = post.find? fun e => p (s.ents e) := by
  induction post generalizing pre fuel with
  | nil => cases fuel <;> rfl
  | cons e post ih =>
    obtain ⟨fuel, rfl⟩ : ∃ n, fuel = n + 1 := ⟨fuel - 1, by simp only [List.length_cons] at hfuel; omega⟩
    have hlink : (s.ents e).link = post.head? := h.next
    have hrest : Chain (linkAt s i) id ((pre ++ [e]) ++ post) := by rwa [List.append_assoc]
    rw [List.head?_cons, chainFind, hlink, ih hrest (by simpa using hfuel), List.find?_cons]
    cases p (s.ents e) <;> rfl

lemma findSlot_eq {fuel : Nat} {a b : List EntId} (h : Chain (linkAt s i) id (a ++ b ++ t :: post))
    (hnd : (a ++ b ++ t :: post).Nodup) (hfuel : b.length ≤ fuel) :
    findSlot s i t fuel a.getLast? = some (a ++ b).getLast? := by
  induction b generalizing a fuel with
  | nil =>
    rw [List.append_nil] at h ⊢
    have hlink : linkAt s i a.getLast? = some t := h.split
    rw [findSlot, hlink]
    exact if_pos rfl
  | cons e b ih =>
    obtain ⟨fuel, rfl⟩ : ∃ n, fuel = n + 1 := ⟨fuel - 1, by simp only [List.length_cons] at hfuel; omega⟩
    have hlink : linkAt s i a.getLast? = some e := by
      rw [List.append_assoc] at h
      exact h.split
    have hne : e ≠ t := by
      rintro rfl
      have hdisj := (List.nodup_append.mp hnd).2.2 e (by simp) e (by simp)
      exact hdisj rfl
    have hmove : a ++ e :: b = (a ++ [e]) ++ b := by simp
    rw [findSlot, hlink]
    dsimp only
    rw [if_neg hne]
    rw [hmove] at h hnd ⊢
    have := ih h hnd (by simpa using hfuel)
    rwa [List.getLast?_concat] at this

lemma isEntry_iff {hash : UInt32} {parent : NodeId} {name : Name} {td : Tdirent} :
    isEntry hash parent name td = true ↔ td.hash = hash ∧ td.parent = parent ∧ td.name = name := by
  unfold isEntry
  exact decide_eq_true_iff

lemma Hashed.chainFind_head (h : Hashed s U) (p : Tdirent → Bool) (i : Nat) :
    ∃ l, OnChain s U i l ∧ chainFind s p s.used.card (s.hashtable i) = l.find? fun e => p (s.ents e) := by
  obtain ⟨l, hl⟩ := h.chain i
  refine ⟨l, hl, ?_⟩
  have hhead : s.hashtable i = l.head? := hl.links.head
  rw [hhead]
  exact chainFind_eq p (show Chain _ _ ([] ++ l) from hl.links) (hl.length_le h.sub)

lemma tmpfsHashLookup_some (h : Hashed s U) {name : Name} {parent : NodeId} {e : EntId}
    (hlookup : tmpfsHashLookup s name parent = some e) :
    e ∈ U ∧ (s.ents e).parent = parent ∧ (s.ents e).name = name := by
  obtain ⟨l, hl, hfind⟩ := h.chainFind_head (isEntry (tmpfsHashKey name) parent name) (tHashIndex (tmpfsHashKey name))
  unfold tmpfsHashLookup at hlookup
  rw [hfind] at hlookup
  have hmem := List.mem_of_find?_eq_some hlookup
  have hentry := List.find?_some hlookup
  exact ⟨((hl.mem e).mp hmem).1, (isEntry_iff.mp hentry).2⟩

lemma tmpfsHashLookup_of_mem (h : Hashed s U) {e : EntId} (he : e ∈ U) :
    tmpfsHashLookup s (s.ents e).name (s.ents e).parent = some e := by
  obtain ⟨l, hl, hfind⟩ := h.chainFind_head (isEntry (tmpfsHashKey (s.ents e).name) (s.ents e).parent (s.ents e).name)
    (tHashIndex (tmpfsHashKey (s.ents e).name))
  have hmem : e ∈ l := (hl.mem e).mpr ⟨he, by rw [h.hash e he]⟩
  have hsome : (l.find? fun x => isEntry (tmpfsHashKey (s.ents e).name) (s.ents e).parent (s.ents e).name (s.ents x)).isSome := by
    rw [List.find?_isSome]
    exact ⟨e, hmem, isEntry_iff.mpr ⟨h.hash e he, rfl, rfl⟩⟩
  obtain ⟨e', he'⟩ := Option.isSome_iff_exists.mp hsome
  have hlookup : tmpfsHashLookup s (s.ents e).name (s.ents e).parent = some e' := hfind.trans he'
  obtain ⟨hU, hparent, hname⟩ := tmpfsHashLookup_some h hlookup
  rw [hlookup, h.distinct e' hU e he hparent hname]

lemma tmpfsHashLookup_none (h : Hashed s U) {name : Name} {parent : NodeId}
    (hlookup : tmpfsHashLookup s name parent = none) :
    ∀ e ∈ U, (s.ents e).parent = parent → (s.ents e).name ≠ name := by
  intro e he hparent hname
  have := tmpfsHashLookup_of_mem h he
  rw [hparent, hname, hlookup] at this
  cases this

lemma OnChain.congr {U' : Finset EntId} (h : OnChain s U i l) (hhead : s'.hashtable i = s.hashtable i)
    (hlink : ∀ e ∈ l, (s'.ents e).link = (s.ents e).link)
    (hmem : ∀ e, e ∈ U' ∧ tHashIndex (s'.ents e).hash = i ↔ e ∈ U ∧ tHashIndex (s.ents e).hash = i) :
    OnChain s' U' i l where
  links := h.links.congr hhead hlink
  nodup := h.nodup
  mem := fun e => (h.mem e).trans (hmem e).symm

lemma tmpfsHashIn_spec (h : Hashed s U) (ht : t ∈ s.used) (hnew : t ∉ U)
    (hhash : (s.ents t).hash = tmpfsHashKey (s.ents t).name)
    (hfree : ∀ e ∈ U, (s.ents e).parent = (s.ents t).parent → (s.ents e).name ≠ (s.ents t).name) :
    (tmpfsHashIn s t).1 = true ∧ Hashed (tmpfsHashIn s t).2 (insert t U) ∧ Rehashed s (tmpfsHashIn s t).2 := by
  obtain ⟨l, hl, hfind⟩ := h.chainFind_head (isEntry (s.ents t).hash (s.ents t).parent (s.ents t).name)
    (tHashIndex (s.ents t).hash)
  have hnone : (l.find? fun e => isEntry (s.ents t).hash (s.ents t).parent (s.ents t).name (s.ents e)) = none := by
    rw [List.find?_eq_none]
    intro e he hentry
    obtain ⟨-, hparent, hname⟩ := isEntry_iff.mp hentry
    exact hfree e ((hl.mem e).mp he).1 hparent hname
  have heq : tmpfsHashIn s t = (true, setLinkAt (setLinkAt s (tHashIndex (s.ents t).hash) (some t)
      (s.hashtable (tHashIndex (s.ents t).hash))) (tHashIndex (s.ents t).hash) none (some t)) := by
    unfold tmpfsHashIn
    dsimp only
    rw [hfind, hnone]
    rfl
  rw [heq]
  have hre : Rehashed s (setLinkAt (setLinkAt s (tHashIndex (s.ents t).hash) (some t)
      (s.hashtable (tHashIndex (s.ents t).hash))) (tHashIndex (s.ents t).hash) none (some t)) :=
    (setLinkAt_rehashed ..).trans (setLinkAt_rehashed ..)
  refine ⟨rfl, ⟨?_, ?_, ?_, ?_⟩, hre⟩
  · rw [hre.used]
    intro e he
    rcases mem_insert.mp he with rfl | he
    · exact ht
    · exact h.sub he
  · intro e he
    rw [hre.hash, hre.name]
    rcases mem_insert.mp he with rfl | he
    · exact hhash
    · exact h.hash e he
  · intro j
    by_cases hj : j = tHashIndex (s.ents t).hash
    · subst hj
      have htl : t ∉ l := fun htl => hnew ((hl.mem t).mp htl).1
      refine ⟨t :: l, ?_, List.nodup_cons.mpr ⟨htl, hl.nodup⟩, ?_⟩
      · have hlinks : Chain (linkAt s (tHashIndex (s.ents t).hash)) id ([] ++ l) := hl.links
        refine Chain.insert hlinks (List.nodup_cons.mpr ⟨htl, hl.nodup⟩) ?_ ?_ ?_
        · rw [linkAt_setLinkAt, linkAt_setLinkAt, update_of_ne (Option.some_ne_none t), update_self]
          exact hl.links.head
        · rw [linkAt_setLinkAt]
          exact update_self ..
        · intro x hx (hnone : x ≠ none)
          rw [linkAt_setLinkAt, linkAt_setLinkAt, update_of_ne hnone, update_of_ne hx]
      · intro e
        rw [hre.hash, List.mem_cons, hl.mem, mem_insert]
        constructor
        · rintro (rfl | ⟨he, hi⟩)
          · exact ⟨.inl rfl, rfl⟩
          · exact ⟨.inr he, hi⟩
        · rintro ⟨rfl | he, hi⟩
          · exact .inl rfl
          · exact .inr ⟨he, hi⟩
    · obtain ⟨l', hl'⟩ := h.chain j
      refine ⟨l', hl'.congr ?_ ?_ ?_⟩
      · exact update_of_ne hj ..
      · intro e he
        have hne : e ≠ t := by
          rintro rfl
          exact hnew ((hl'.mem e).mp he).1
        exact congrArg Tdirent.link (Fs.setEnt_of_ne s (fun td => { td with link := _ }) hne)
      · intro e
        rw [hre.hash, mem_insert]
        constructor
        · rintro ⟨rfl | he, hi⟩
          · exact absurd hi.symm hj
          · exact ⟨he, hi⟩
        · rintro ⟨he, hi⟩
          exact ⟨.inr he, hi⟩
  · intro e he e' he'
    rw [hre.parent, hre.parent, hre.name, hre.name]
    intro hparent hname
    rcases mem_insert.mp he with heq1 | hU
    · rcases mem_insert.mp he' with heq2 | hU'
      · rw [heq1, heq2]
      · rw [heq1] at hparent hname
        exact absurd hname.symm (hfree e' hU' hparent.symm)
    · rcases mem_insert.mp he' with heq2 | hU'
      · rw [heq2] at hparent hname
        exact absurd hname (hfree e hU hparent)
      · exact h.distinct e hU e' hU' hparent hname

lemma tmpfsHashOut_spec (h : Hashed s U) (ht : t ∈ U) :
    (tmpfsHashOut s t).1 = true ∧ Hashed (tmpfsHashOut s t).2 (U.erase t) ∧ Rehashed s (tmpfsHashOut s t).2 := by
  obtain ⟨l, hl⟩ := h.chain (tHashIndex (s.ents t).hash)
  obtain ⟨pre, post, rfl⟩ := List.append_of_mem ((hl.mem t).mpr ⟨ht, rfl⟩)
  have hfuel : pre.length ≤ s.used.card := by
    have := hl.length_le h.sub
    rw [List.length_append] at this
    omega
  have hslot := findSlot_eq (a := []) (b := pre) hl.links hl.nodup hfuel
  have heq : tmpfsHashOut s t = (true, setLinkAt s (tHashIndex (s.ents t).hash) pre.getLast? (s.ents t).link) := by
    unfold tmpfsHashOut
    dsimp only
    rw [List.getLast?_nil, List.nil_append] at hslot
    rw [hslot]
  rw [heq]
  have hre := setLinkAt_rehashed s (tHashIndex (s.ents t).hash) pre.getLast? (s.ents t).link
  have hlinkt : (s.ents t).link = post.head? := hl.links.next
  refine ⟨rfl, ⟨?_, ?_, ?_, ?_⟩, hre⟩
  · rw [hre.used]
    exact (erase_subset t U).trans h.sub
  · intro e he
    rw [hre.hash, hre.name]
    exact h.hash e (mem_of_mem_erase he)
  · intro j
    by_cases hj : j = tHashIndex (s.ents t).hash
    · subst hj
      refine ⟨pre ++ post, ?_, ?_, ?_⟩
      · refine Chain.remove hl.links hl.nodup ?_ ?_
        · rw [linkAt_setLinkAt, update_self, hlinkt]
          rfl
        · intro x _ hx
          rw [linkAt_setLinkAt, update_of_ne hx]
      · exact hl.nodup.sublist (List.Sublist.append_left (List.sublist_cons_self ..) _)
      · intro e
        have hmem := hl.mem e
        have hnodup := hl.nodup
        rw [List.nodup_middle, List.nodup_cons] at hnodup
        rw [hre.hash, mem_erase]
        constructor
        · intro he
          have hne : e ≠ t := by
            rintro rfl
            exact hnodup.1 he
          have hin : e ∈ pre ++ t :: post := by
            rcases List.mem_append.mp he with he | he
            · exact List.mem_append_left _ he
            · exact List.mem_append_right _ (List.mem_cons_of_mem _ he)
          obtain ⟨hU, hi⟩ := hmem.mp hin
          exact ⟨⟨hne, hU⟩, hi⟩
        · rintro ⟨⟨hne, hU⟩, hi⟩
          have hin := hmem.mpr ⟨hU, hi⟩
          rcases List.mem_append.mp hin with he | he
          · exact List.mem_append_left _ he
          · rcases List.mem_cons.mp he with rfl | he
            · exact absurd rfl hne
            · exact List.mem_append_right _ he
    · obtain ⟨l', hl'⟩ := h.chain j
      -- an entry of this chain has another index than those of the chain that changes
      have hslot' : ∀ e ∈ l', some e ≠ pre.getLast? := by
        intro e he heq'
        have hmem := List.mem_of_getLast? heq'.symm
        have hindex := ((hl.mem e).mp (List.mem_append_left _ hmem)).2
        exact hj (((hl'.mem e).mp he).2.symm.trans hindex)
      refine ⟨l', hl'.congr ?_ ?_ ?_⟩
      · exact linkAt_setLinkAt_of_ne s hj _ (.inr rfl)
      · intro e he
        exact linkAt_setLinkAt_of_ne s hj _ (.inl (hslot' e he))
      · intro e
        rw [hre.hash, mem_erase]
        constructor
        · rintro ⟨⟨-, he⟩, hi⟩
          exact ⟨he, hi⟩
        · rintro ⟨he, hi⟩
          refine ⟨⟨?_, he⟩, hi⟩
          rintro rfl
          exact hj hi.symm
  · intro e he e' he'
    rw [hre.parent, hre.parent, hre.name, hre.name]
    exact h.distinct e (mem_of_mem_erase he) e' (mem_of_mem_erase he')

lemma Hashed.congr (h : Hashed s U) (hused : U ⊆ s'.used) (htable : s'.hashtable = s.hashtable)
    (hlink : ∀ e ∈ U, (s'.ents e).link = (s.ents e).link) (hhash : ∀ e ∈ U, (s'.ents e).hash = (s.ents e).hash)
    (hparent : ∀ e ∈ U, (s'.ents e).parent = (s.ents e).parent)
    (hname : ∀ e ∈ U, (s'.ents e).name = (s.ents e).name) : Hashed s' U where
  sub := hused
  hash := by
    intro e he
    rw [hhash e he, hname e he]
    exact h.hash e he
  chain := by
    intro i
    obtain ⟨l, hl⟩ := h.chain i
    refine ⟨l, hl.congr (congrFun htable i) (fun e he => hlink e ((hl.mem e).mp he).1) ?_⟩
    intro e
    constructor
    · rintro ⟨he, hi⟩
      exact ⟨he, hhash e he ▸ hi⟩
    · rintro ⟨he, hi⟩
      exact ⟨he, (hhash e he).symm ▸ hi⟩
  distinct := by
    intro e he e' he'
    rw [hparent e he, hparent e' he', hname e he, hname e' he']
    exact h.distinct e he e' he'

end Solaris.Tmpfs
