import Solaris.Tmpfs.Chains

/-!
# The lists of the directories

A list is linked in both directions and ordered by the offsets of its entries.
-/

namespace Solaris.Tmpfs

open Lib Option Finset

variable {s s' : Fs} {U : Finset EntId} {d : NodeId} {t p : EntId} {l pre post : List EntId}

/-- The entries of a list, and that these are all of the directory. -/
structure Listed (s : Fs) (U : Finset EntId) (d : NodeId) (l : List EntId) : Prop where
  forward : Chain (nextAt s d) id l
  nodup : l.Nodup
  mem : ∀ e, e ∈ l ↔ e ∈ U ∧ (s.ents e).parent = d

/-- The list begins with `.` at offset 0 and `..` at offset 1. -/
def Starts (s : Fs) (l : List EntId) : Prop :=
  ∃ a b rest, l = a :: b :: rest ∧ (s.ents a).name = dot ∧ (s.ents a).offset = 0 ∧
    (s.ents b).name = dotdot ∧ (s.ents b).offset = 1

structure Ordered (s : Fs) (l : List EntId) : Prop where
  backward : ∀ pre x post, l = pre ++ x :: post → (s.ents x).prev = pre.getLast?
  sorted : l.Pairwise fun a b => (s.ents a).offset < (s.ents b).offset
  starts : l = [] ∨ Starts s l

lemma Listed.head (h : Listed s U d l) : (s.node d).dir = l.head? := h.forward.head

lemma Listed.next (h : Listed s U d (pre ++ t :: post)) : (s.ents t).next = post.head? := h.forward.next

lemma Listed.length_le (h : Listed s U d l) (hsub : U ⊆ s.used) : l.length ≤ s.used.card := by
  rw [← List.toFinset_card_of_nodup h.nodup]
  refine card_le_card fun e he => hsub ?_
  exact ((h.mem e).mp (List.mem_toFinset.mp he)).1

lemma Listed.congr {U' : Finset EntId} (h : Listed s U d l) (hdir : (s'.node d).dir = (s.node d).dir)
    (hnext : ∀ e ∈ l, (s'.ents e).next = (s.ents e).next)
    (hmem : ∀ e, e ∈ U' ∧ (s'.ents e).parent = d ↔ e ∈ U ∧ (s.ents e).parent = d) : Listed s' U' d l where
  forward := h.forward.congr hdir hnext
  nodup := h.nodup
  mem := fun e => (h.mem e).trans (hmem e).symm

lemma Ordered.congr (h : Ordered s l) (hprev : ∀ e ∈ l, (s'.ents e).prev = (s.ents e).prev)
    (hoffset : ∀ e ∈ l, (s'.ents e).offset = (s.ents e).offset)
    (hname : ∀ e ∈ l, (s'.ents e).name = (s.ents e).name) : Ordered s' l where
  backward := by
    intro pre x post hl
    rw [hprev x (by rw [hl]; simp)]
    exact h.backward pre x post hl
  sorted := by
    refine h.sorted.imp_of_mem ?_
    intro a b ha hb hlt
    rw [hoffset a ha, hoffset b hb]
    exact hlt
  starts := by
    rcases h.starts with hnil | ⟨a, b, rest, rfl, hstart⟩
    · exact .inl hnil
    · refine .inr ⟨a, b, rest, rfl, ?_⟩
      rw [hname a (by simp), hoffset a (by simp), hname b (by simp), hoffset b (by simp)]
      exact hstart

lemma Listed.starts (h : Listed s U d l) (hord : Ordered s l) (hdir : (s.node d).dir ≠ none) : Starts s l := by
  rcases hord.starts with rfl | hstarts
  · exact absurd h.head hdir
  · exact hstarts

lemma setNextOf_field {A : Type} (g : Tdirent → A) (h : ∀ td n, g { td with next := n } = g td) (s : Fs)
    (x n : Option EntId) (e : EntId) : g ((setNextOf s x n).ents e) = g (s.ents e) := by
  cases x with
  | none => rfl
  | some x => exact Fs.setEnt_field g (fun td => h td n) s x e

lemma setPrevOf_field {A : Type} (g : Tdirent → A) (h : ∀ td n, g { td with prev := n } = g td) (s : Fs)
    (x n : Option EntId) (e : EntId) : g ((setPrevOf s x n).ents e) = g (s.ents e) := by
  cases x with
  | none => rfl
  | some x => exact Fs.setEnt_field g (fun td => h td n) s x e

section

variable (s : Fs) (x n : Option EntId) (e : EntId)

lemma setNextOf_next : ((setNextOf s x n).ents e).next = if x = some e then n else (s.ents e).next := by
  cases x with
  | none => rfl
  | some x =>
    by_cases he : e = x
    · subst he
      rw [if_pos rfl]
      exact congrArg Tdirent.next (Fs.setEnt_self s e fun td => { td with next := n })
    · rw [if_neg fun h => he (some.inj h).symm]
      exact congrArg Tdirent.next (Fs.setEnt_of_ne s (fun td => { td with next := n }) he)

lemma setPrevOf_prev : ((setPrevOf s x n).ents e).prev = if x = some e then n else (s.ents e).prev := by
  cases x with
  | none => rfl
  | some x =>
    by_cases he : e = x
    · subst he
      rw [if_pos rfl]
      exact congrArg Tdirent.prev (Fs.setEnt_self s e fun td => { td with prev := n })
    · rw [if_neg fun h => he (some.inj h).symm]
      exact congrArg Tdirent.prev (Fs.setEnt_of_ne s (fun td => { td with prev := n }) he)

lemma setPrevOf_next :
    ((setPrevOf s x n).ents e).next = (s.ents e).next := setPrevOf_field Tdirent.next (fun _ _ => rfl) s x n e

lemma setNextOf_prev :
    ((setNextOf s x n).ents e).prev = (s.ents e).prev := setNextOf_field Tdirent.prev (fun _ _ => rfl) s x n e

end

lemma setOffset_field {A : Type} (g : Tdirent → A) (h : ∀ td n, g { td with offset := n } = g td) (s : Fs)
    (t : EntId) (n : Nat) (e : EntId) : g ((s.setEnt t fun td => { td with offset := n }).ents e) = g (s.ents e) :=
  Fs.setEnt_field g (fun td => h td n) s t e

theorem linkBehind_eq : linkBehind s t p =
    setNextOf (setPrevOf (setPrevOf (setNextOf (s.setEnt t fun td => { td with offset := (s.ents p).offset + 1 })
      (some t) (s.ents p).next) (s.ents p).next (some t)) (some t) (some p)) (some p) (some t) := by
  have hp := setOffset_field Tdirent.next (fun _ _ => rfl) s t ((s.ents p).offset + 1) p
  have ht := setNextOf_next (s.setEnt t fun td => { td with offset := (s.ents p).offset + 1 }) (some t) (s.ents p).next t
  rw [if_pos rfl] at ht
  have hunfold : linkBehind s t p = setNextOf (setPrevOf (setPrevOf
      (setNextOf (s.setEnt t fun td => { td with offset := (s.ents p).offset + 1 }) (some t)
        ((s.setEnt t fun td => { td with offset := (s.ents p).offset + 1 }).ents p).next)
      ((setNextOf (s.setEnt t fun td => { td with offset := (s.ents p).offset + 1 }) (some t)
        ((s.setEnt t fun td => { td with offset := (s.ents p).offset + 1 }).ents p).next).ents t).next (some t))
      (some t) (some p)) (some p) (some t) := rfl
  rw [hunfold, hp, ht]

lemma linkBehind_field {A : Type} (g : Tdirent → A) (hnext : ∀ td n, g { td with next := n } = g td)
    (hprev : ∀ td n, g { td with prev := n } = g td) (hoffset : ∀ td n, g { td with offset := n } = g td)
    (s : Fs) (t p e : EntId) : g ((linkBehind s t p).ents e) = g (s.ents e) := by
  rw [linkBehind_eq, setNextOf_field g hnext, setPrevOf_field g hprev, setPrevOf_field g hprev,
    setNextOf_field g hnext]
  exact setOffset_field g hoffset ..

lemma linkBehind_next (s : Fs) (t p e : EntId) : ((linkBehind s t p).ents e).next =
    if some p = some e then some t else if some t = some e then (s.ents p).next else (s.ents e).next := by
  rw [linkBehind_eq, setNextOf_next, setPrevOf_next, setPrevOf_next, setNextOf_next]
  congr 2
  exact setOffset_field Tdirent.next (fun _ _ => rfl) ..

lemma linkBehind_prev (s : Fs) (t p e : EntId) : ((linkBehind s t p).ents e).prev =
    if some t = some e then some p else if (s.ents p).next = some e then some t else (s.ents e).prev := by
  rw [linkBehind_eq, setNextOf_prev, setPrevOf_prev, setPrevOf_prev, setNextOf_prev]
  congr 2
  exact setOffset_field Tdirent.prev (fun _ _ => rfl) ..

lemma linkBehind_offset (s : Fs) (t p e : EntId) : ((linkBehind s t p).ents e).offset =
    if e = t then (s.ents p).offset + 1 else (s.ents e).offset := by
  rw [linkBehind_eq, setNextOf_field Tdirent.offset fun _ _ => rfl, setPrevOf_field Tdirent.offset fun _ _ => rfl,
    setPrevOf_field Tdirent.offset fun _ _ => rfl, setNextOf_field Tdirent.offset fun _ _ => rfl]
  by_cases he : e = t
  · rw [if_pos he, he, Fs.setEnt_self]
  · rw [if_neg he, Fs.setEnt_of_ne s _ he]

lemma unlink_field {A : Type} (g : Tdirent → A) (hnext : ∀ td n, g { td with next := n } = g td)
    (hprev : ∀ td n, g { td with prev := n } = g td) (s : Fs) (t e : EntId) :
    g ((unlink s t).ents e) = g (s.ents e) :=
  (setPrevOf_field g hprev ..).trans (setNextOf_field g hnext ..)

lemma unlink_next (s : Fs) (t e : EntId) : ((unlink s t).ents e).next =
    if (s.ents t).prev = some e then (s.ents t).next else (s.ents e).next := by
  rw [← setNextOf_next]
  exact setPrevOf_next ..

lemma unlink_prev (hne : (s.ents t).prev ≠ some t) (e : EntId) : ((unlink s t).ents e).prev =
    if (s.ents t).next = some e then (s.ents t).prev else (s.ents e).prev := by
  have hnext := setNextOf_next s (s.ents t).prev (s.ents t).next t
  rw [if_neg hne] at hnext
  unfold unlink
  rw [setPrevOf_prev, hnext, setNextOf_prev, setNextOf_prev]

/-- Everything but the links of the lists and the offset of the new entry is as before. -/
structure Relisted (s s' : Fs) : Prop where
  used : s'.used = s.used
  node : s'.node = s.node
  nodes : s'.nodes = s.nodes
  direntries : s'.direntries = s.direntries
  hashtable : s'.hashtable = s.hashtable
  tmpnode : ∀ e, (s'.ents e).tmpnode = (s.ents e).tmpnode
  hash : ∀ e, (s'.ents e).hash = (s.ents e).hash
  link : ∀ e, (s'.ents e).link = (s.ents e).link
  parent : ∀ e, (s'.ents e).parent = (s.ents e).parent
  name : ∀ e, (s'.ents e).name = (s.ents e).name

lemma linkBehind_relisted (s : Fs) (t p : EntId) : Relisted s (linkBehind s t p) := by
  have hfield {A : Type} (g : Tdirent → A) (hnext : ∀ td n, g { td with next := n } = g td)
      (hprev : ∀ td n, g { td with prev := n } = g td) (hoffset : ∀ td n, g { td with offset := n } = g td) :=
    linkBehind_field g hnext hprev hoffset s t p
  refine ⟨?_, ?_, ?_, ?_, ?_, hfield _ ?_ ?_ ?_, hfield _ ?_ ?_ ?_, hfield _ ?_ ?_ ?_, hfield _ ?_ ?_ ?_,
    hfield _ ?_ ?_ ?_⟩
  all_goals first | exact fun _ _ => rfl | (rw [linkBehind_eq]; cases (s.ents p).next <;> rfl)

lemma unlink_relisted (s : Fs) (t : EntId) : Relisted s (unlink s t) := by
  have hfield {A : Type} (g : Tdirent → A) (hnext : ∀ td n, g { td with next := n } = g td)
      (hprev : ∀ td n, g { td with prev := n } = g td) := unlink_field g hnext hprev s t
  have hset (x n : Option EntId) (s : Fs) : (setPrevOf s x n).used = s.used ∧ (setPrevOf s x n).node = s.node ∧
      (setPrevOf s x n).nodes = s.nodes ∧ (setPrevOf s x n).direntries = s.direntries ∧
      (setPrevOf s x n).hashtable = s.hashtable := by cases x <;> exact ⟨rfl, rfl, rfl, rfl, rfl⟩
  have hset' (x n : Option EntId) (s : Fs) : (setNextOf s x n).used = s.used ∧ (setNextOf s x n).node = s.node ∧
      (setNextOf s x n).nodes = s.nodes ∧ (setNextOf s x n).direntries = s.direntries ∧
      (setNextOf s x n).hashtable = s.hashtable := by cases x <;> exact ⟨rfl, rfl, rfl, rfl, rfl⟩
  unfold unlink
  obtain ⟨h1, h2, h3, h4, h5⟩ := hset' (s.ents t).prev (s.ents t).next s
  obtain ⟨h1', h2', h3', h4', h5'⟩ := hset ((setNextOf s (s.ents t).prev (s.ents t).next).ents t).next
    ((setNextOf s (s.ents t).prev (s.ents t).next).ents t).prev (setNextOf s (s.ents t).prev (s.ents t).next)
  exact ⟨h1'.trans h1, h2'.trans h2, h3'.trans h3, h4'.trans h4, h5'.trans h5,
    hfield _ (fun _ _ => rfl) (fun _ _ => rfl), hfield _ (fun _ _ => rfl) (fun _ _ => rfl),
    hfield _ (fun _ _ => rfl) (fun _ _ => rfl), hfield _ (fun _ _ => rfl) (fun _ _ => rfl),
    hfield _ (fun _ _ => rfl) (fun _ _ => rfl)⟩

lemma firstGap_spec {fuel : Nat} (h : Listed s U d (pre ++ p :: post)) (hfuel : post.length ≤ fuel) :
    ∃ pre' post', pre ++ p :: post = pre' ++ firstGap s fuel p :: post' ∧
      ∀ q ∈ post'.head?, 1 < (s.ents q).offset - (s.ents (firstGap s fuel p)).offset := by
  induction post generalizing pre p fuel with
  | nil =>
    have hstop : firstGap s fuel p = p := by
      cases fuel with
      | zero => rfl
      | succ fuel => rw [firstGap, show (s.ents p).next = none from h.next]
    exact ⟨pre, [], by rw [hstop], by simp⟩
  | cons q post ih =>
    obtain ⟨fuel, rfl⟩ : ∃ n, fuel = n + 1 := ⟨fuel - 1, by simp only [List.length_cons] at hfuel; omega⟩
    have hnext : (s.ents p).next = some q := h.next
    rw [firstGap, hnext]
    dsimp only
    split_ifs with hgap
    · have hmove : pre ++ p :: q :: post = (pre ++ [p]) ++ q :: post := by simp
      rw [hmove] at h ⊢
      exact ih h (by simpa using hfuel)
    · refine ⟨pre, q :: post, rfl, ?_⟩
      intro q' hq'
      obtain rfl : q = q' := some.inj hq'
      omega

lemma Listed.behind (h : Listed s U d (pre ++ p :: post)) (ht : t ∉ U) (hparent : (s.ents t).parent = d) :
    Listed (linkBehind s t p) (insert t U) d (pre ++ p :: t :: post) := by
  have hmove : ∀ r : List EntId, pre ++ p :: r = (pre ++ [p]) ++ r := by simp
  have htl : t ∉ pre ++ p :: post := fun htl => ht ((h.mem t).mp htl).1
  have hnodup : (pre ++ p :: t :: post).Nodup := by
    rw [hmove] at htl ⊢
    rw [List.nodup_middle, List.nodup_cons]
    exact ⟨htl, (hmove post) ▸ h.nodup⟩
  have hre := linkBehind_relisted s t p
  refine ⟨?_, hnodup, ?_⟩
  · have hforward := h.forward
    rw [hmove] at hforward hnodup ⊢
    refine hforward.insert hnodup ?_ ?_ ?_
    · have hne : some p ≠ some t := fun heq => htl (by rw [some.inj heq]; simp)
      change ((linkBehind s t p).ents t).next = _
      rw [linkBehind_next, if_neg hne, if_pos rfl]
      exact h.next
    · rw [List.getLast?_concat]
      change ((linkBehind s t p).ents p).next = _
      rw [linkBehind_next, if_pos rfl]
      rfl
    · intro x hxt hxp
      rw [List.getLast?_concat] at hxp
      cases x with
      | none => exact congrArg Tmpnode.dir (congrFun hre.node d)
      | some x =>
        change ((linkBehind s t p).ents x).next = _
        rw [linkBehind_next, if_neg hxp.symm, if_neg hxt.symm]
        rfl
  · intro e
    have hmem := h.mem e
    rw [hre.parent, mem_insert]
    constructor
    · intro he
      by_cases het : e = t
      · exact ⟨.inl het, by rw [het]; exact hparent⟩
      · have hold : e ∈ pre ++ p :: post := by
          simp only [List.mem_append, List.mem_cons] at he ⊢
          tauto
        exact ⟨.inr (hmem.mp hold).1, (hmem.mp hold).2⟩
    · rintro ⟨rfl | he, hd⟩
      · simp
      · have hold := hmem.mpr ⟨he, hd⟩
        simp only [List.mem_append, List.mem_cons] at hold ⊢
        tauto

lemma Ordered.behind (hlist : Listed s U d (pre ++ p :: post)) (h : Ordered s (pre ++ p :: post)) (ht : t ∉ U)
    (hgap : ∀ q ∈ post.head?, 1 < (s.ents q).offset - (s.ents p).offset) :
    Ordered (linkBehind s t p) (pre ++ p :: t :: post) := by
  have hmove : ∀ r : List EntId, pre ++ p :: r = (pre ++ [p]) ++ r := by simp
  have htl : t ∉ pre ++ p :: post := fun htl => ht ((hlist.mem t).mp htl).1
  have hnext : (s.ents p).next = post.head? := hlist.next
  have hold : ∀ e ∈ pre ++ p :: post, ((linkBehind s t p).ents e).offset = (s.ents e).offset := by
    intro e he
    rw [linkBehind_offset, if_neg]
    rintro rfl
    exact htl he
  have hsorted := h.sorted
  rw [List.pairwise_append, List.pairwise_cons] at hsorted
  obtain ⟨hpre, ⟨hp, hpost⟩, hcross⟩ := hsorted
  -- the offsets behind the gap
  have hbehind : ∀ q ∈ post, (s.ents p).offset + 1 < (s.ents q).offset := by
    cases post with
    | nil => simp
    | cons r post =>
      have hr := hgap r rfl
      refine List.forall_mem_cons.mpr ⟨by omega, fun q hq => ?_⟩
      have := (List.pairwise_cons.mp hpost).1 q hq
      omega
  refine ⟨?_, ?_, ?_⟩
  · intro a x b hab
    have hnd := hlist.nodup
    rw [hmove] at hab hnd
    rcases append_cons_eq_append hab with ⟨c, ha, hb⟩ | ⟨c, rfl, hc⟩
    · cases c with
      | nil =>
        obtain ⟨rfl, rfl⟩ := List.cons.inj hb
        rw [List.append_nil] at ha
        rw [linkBehind_prev, if_pos rfl, ← ha, List.getLast?_concat]
      | cons y c =>
        obtain ⟨rfl, hb⟩ := List.cons.inj hb
        have hxmem : x ∈ pre ++ [p] := by rw [ha]; simp
        have hne : some t ≠ some x := by
          intro heq
          exact htl (by rw [hmove, some.inj heq]; exact List.mem_append_left _ hxmem)
        have hnot : ¬(s.ents p).next = some x := by
          rw [hnext]
          intro hx
          exact (List.nodup_append.mp hnd).2.2 x hxmem x (List.mem_of_head? hx) rfl
        rw [linkBehind_prev, if_neg hne, if_neg hnot]
        refine h.backward a x (c ++ post) ?_
        rw [hmove, ha]
        simp
    · have hne : some t ≠ some x := by
        intro heq
        exact htl (by rw [hmove, hc, some.inj heq]; simp)
      rw [linkBehind_prev, if_neg hne, hnext, hc, getLast?_append_cons]
      rcases List.eq_nil_or_concat' c with rfl | ⟨c, y, rfl⟩
      · exact if_pos rfl
      have hnot : ¬((c ++ [y]) ++ x :: b).head? = some x := by
        intro hx
        rw [hc] at hnd
        have hin : x ∈ c ++ [y] := by
          cases c with
          | nil =>
            obtain rfl : y = x := some.inj hx
            simp
          | cons z c =>
            obtain rfl : z = x := some.inj hx
            simp
        have hright := (List.nodup_append.mp hnd).2.1
        exact (List.nodup_append.mp hright).2.2 x hin x (by simp) rfl
      rw [if_neg hnot, h.backward (pre ++ p :: (c ++ [y])) x b (by rw [hc]; simp), getLast?_append_cons,
        ← List.cons_append, ← List.cons_append, List.getLast?_concat, List.getLast?_concat]
  · have hself : ((linkBehind s t p).ents t).offset = (s.ents p).offset + 1 := by
      rw [linkBehind_offset, if_pos rfl]
    rw [List.pairwise_append, List.pairwise_cons, List.pairwise_cons]
    refine ⟨?_, ⟨?_, ?_, ?_⟩, ?_⟩
    · refine hpre.imp_of_mem ?_
      intro a b ha hb hlt
      rw [hold a (by simp [ha]), hold b (by simp [hb])]
      exact hlt
    · intro q hq
      rw [hold p (by simp)]
      rcases List.mem_cons.mp hq with rfl | hq
      · rw [hself]
        omega
      · rw [hold q (by simp [hq])]
        exact hp q hq
    · intro q hq
      rw [hself, hold q (by simp [hq])]
      exact hbehind q hq
    · refine hpost.imp_of_mem ?_
      intro a b ha hb hlt
      rw [hold a (by simp [ha]), hold b (by simp [hb])]
      exact hlt
    · intro a ha q hq
      have hap := hcross a ha p (by simp)
      rw [hold a (by simp [ha])]
      rcases List.mem_cons.mp hq with rfl | hq
      · rw [hold q (by simp)]
        exact hap
      · rcases List.mem_cons.mp hq with rfl | hq
        · rw [hself]
          omega
        · rw [hold q (by simp [hq])]
          exact hcross a ha q (List.mem_cons_of_mem _ hq)
  · right
    have hname := (linkBehind_relisted s t p).name
    obtain hnil | ⟨a, b, rest, hl, hda, hoa, hdb, hob⟩ := h.starts
    · simp at hnil
    match pre with
    | [] =>
      -- the gap is not behind the first entry
      obtain ⟨rfl, rfl⟩ := hl
      have := hgap b rfl
      omega
    | [a'] =>
      simp only [List.cons_append, List.nil_append, List.cons.injEq] at hl
      obtain ⟨rfl, rfl, -⟩ := hl
      refine ⟨a', p, t :: post, rfl, ?_⟩
      rw [hname, hname, hold a' (by simp), hold p (by simp)]
      exact ⟨hda, hoa, hdb, hob⟩
    | a' :: b' :: pre =>
      simp only [List.cons_append, List.cons.injEq] at hl
      obtain ⟨rfl, rfl, -⟩ := hl
      refine ⟨a', b', pre ++ p :: t :: post, rfl, ?_⟩
      rw [hname, hname, hold a' (by simp), hold b' (by simp)]
      exact ⟨hda, hoa, hdb, hob⟩

lemma Listed.without (h : Listed s U d (pre ++ t :: post)) (hprev : (s.ents t).prev = pre.getLast?)
    (hne : pre ≠ []) : Listed (unlink s t) (U.erase t) d (pre ++ post) := by
  have hre := unlink_relisted s t
  have hnodup := h.nodup
  rw [List.nodup_middle, List.nodup_cons] at hnodup
  refine ⟨?_, hnodup.2, ?_⟩
  · refine h.forward.remove h.nodup ?_ ?_
    · obtain ⟨p, hp⟩ := ne_none_iff_exists'.mp (mt List.getLast?_eq_none_iff.mp hne)
      rw [hp]
      change ((unlink s t).ents p).next = _
      rw [unlink_next, if_pos (hprev.trans hp)]
      exact h.next
    · intro x _ hx
      cases x with
      | none => exact congrArg Tmpnode.dir (congrFun hre.node d)
      | some x =>
        change ((unlink s t).ents x).next = _
        rw [unlink_next, hprev, if_neg hx.symm]
        rfl
  · intro e
    have hmem := h.mem e
    rw [hre.parent, mem_erase]
    constructor
    · intro he
      have hold : e ∈ pre ++ t :: post := by
        simp only [List.mem_append, List.mem_cons] at he ⊢
        tauto
      refine ⟨⟨?_, (hmem.mp hold).1⟩, (hmem.mp hold).2⟩
      rintro rfl
      exact hnodup.1 he
    · rintro ⟨⟨het, he⟩, hd⟩
      have hold := hmem.mpr ⟨he, hd⟩
      simp only [List.mem_append, List.mem_cons] at hold ⊢
      tauto

lemma Ordered.without (hlist : Listed s U d (pre ++ t :: post)) (h : Ordered s (pre ++ t :: post))
    (hdot : (s.ents t).name ≠ dot) (hdotdot : (s.ents t).name ≠ dotdot) : Ordered (unlink s t) (pre ++ post) := by
  have hre := unlink_relisted s t
  have hoffset : ∀ e, ((unlink s t).ents e).offset = (s.ents e).offset :=
    unlink_field Tdirent.offset (fun _ _ => rfl) (fun _ _ => rfl) s t
  have hprev : (s.ents t).prev = pre.getLast? := h.backward pre t post rfl
  have hnext : (s.ents t).next = post.head? := hlist.next
  have hnodup := hlist.nodup
  have hself : (s.ents t).prev ≠ some t := by
    rw [hprev]
    intro hlast
    exact (List.nodup_append.mp hnodup).2.2 t (List.mem_of_getLast? hlast) t (by simp) rfl
  refine ⟨?_, ?_, ?_⟩
  · intro a x b hab
    rw [unlink_prev hself, hnext, hprev]
    rcases List.append_eq_append_iff.mp hab with ⟨c, rfl, hb⟩ | ⟨c, rfl, hb⟩
    · rcases List.eq_nil_or_concat' c with rfl | ⟨c, y, rfl⟩
      · rw [hb, List.append_nil]
        exact if_pos rfl
      have hnot : ¬post.head? = some x := by
        rw [hb]
        intro hx
        rw [hb] at hnodup
        have hin : x ∈ c ++ [y] := by
          cases c with
          | nil =>
            obtain rfl : y = x := some.inj hx
            simp
          | cons z c =>
            obtain rfl : z = x := some.inj hx
            simp
        have hright := (List.nodup_cons.mp (List.nodup_append.mp hnodup).2.1).2
        exact (List.nodup_append.mp hright).2.2 x hin x (by simp) rfl
      rw [if_neg hnot, h.backward (pre ++ t :: (c ++ [y])) x b (by rw [hb]; simp), getLast?_append_cons,
        ← List.cons_append, List.getLast?_concat, ← List.append_assoc, List.getLast?_concat]
    · cases c with
      | nil =>
        rw [List.append_nil] at hprev ⊢
        rw [List.nil_append] at hb
        rw [← hb]
        exact if_pos rfl
      | cons y c =>
        obtain ⟨rfl, hb⟩ := List.cons.inj hb
        have hnot : ¬post.head? = some x := by
          intro hx
          refine (List.nodup_append.mp hnodup).2.2 x (by simp) x ?_ rfl
          exact List.mem_cons_of_mem _ (List.mem_of_head? hx)
        rw [if_neg hnot]
        exact h.backward a x (c ++ t :: post) (by simp)
  · have hsub : (pre ++ post).Sublist (pre ++ t :: post) := List.Sublist.append_left (List.sublist_cons_self ..) _
    refine (h.sorted.sublist hsub).imp ?_
    intro a b hlt
    rw [hoffset, hoffset]
    exact hlt
  · right
    obtain hnil | ⟨a, b, rest, hl, hda, hoa, hdb, hob⟩ := h.starts
    · simp at hnil
    match pre with
    | [] =>
      rw [List.nil_append, List.cons.injEq] at hl
      exact absurd (hl.1 ▸ hda) hdot
    | [a'] =>
      simp only [List.cons_append, List.nil_append, List.cons.injEq] at hl
      exact absurd (hl.2.1 ▸ hdb) hdotdot
    | a' :: b' :: pre =>
      simp only [List.cons_append, List.cons.injEq] at hl
      obtain ⟨rfl, rfl, -⟩ := hl
      refine ⟨a', b', pre ++ post, rfl, ?_⟩
      rw [hre.name, hre.name, hoffset, hoffset]
      exact ⟨hda, hoa, hdb, hob⟩

theorem Ordered.not_first (h : Ordered s (pre ++ t :: post)) (hdot : (s.ents t).name ≠ dot) : pre ≠ [] := by
  rintro rfl
  obtain hnil | ⟨a, b, rest, hl, hda, -⟩ := h.starts
  · simp at hnil
  · rw [List.nil_append, List.cons.injEq] at hl
    exact hdot (hl.1 ▸ hda)

end Solaris.Tmpfs
