import Solaris.Callout.Table

/-!
# The invariant of a callout table

What holds between the sections under the lock, and that it is kept by each of the changes a section is made of.
-/

namespace Solaris.Callouts

open Lib List Function

/-- Every structure is on one list, and in a bucket at the place of its time. -/
structure Placed (s : Sys) : Prop where
  home : ∀ i, ∀ c ∈ s.at i, bucketOf c.runtime = i
  nodup : ∀ i, ((s.at i).map Callout.addr).Nodup
  free : (s.cs.freelist.map Callout.addr).Nodup
  used : ∀ i, ∀ c ∈ s.at i, ∀ f ∈ s.cs.freelist, c.addr ≠ f.addr
  apart : ∀ i j, ∀ c ∈ s.at i, ∀ d ∈ s.at j, c.addr = d.addr → i = j
  allocated : ∀ a, a ∈ s.allocated ↔ (∃ i, ∃ c ∈ s.at i, c.addr = a) ∨ ∃ f ∈ s.cs.freelist, f.addr = a

/-- No callout that waits lies before `cs_runtime`. -/
structure Timed (s : Sys) : Prop where
  order : s.cs.runtime ≤ s.cs.curtime + 1 ∧ s.cs.curtime ≤ s.lbolt
  waiting : ∀ i, ∀ c ∈ s.at i, c.executing = false → s.cs.runtime ≤ c.runtime

/-- A thread inside a handler has marked its callout, and it has passed over no callout of its time
that is not marked. -/
structure Threaded (s : Sys) : Prop where
  running : ∀ t r a, s.threads t = some (r, a) → r ≤ s.cs.curtime ∧ ∃ c ∈ s.at (bucketOf r),
    c.addr = a ∧ c.runtime = r ∧ c.executing = true ∧ c.executor = t ∧
    ∀ d, [d, c].Sublist (s.at (bucketOf r)) → d.runtime = r → d.executing = true
  owned : ∀ i, ∀ c ∈ s.at i, c.executing = true → s.threads c.executor = some (c.runtime, c.addr)

/-- The callouts against the insertions, executions and deletions made so far. -/
structure Ledger (s : Sys) : Prop where
  asked : ∀ i, ∀ c ∈ s.at i, ∃ x, s.inserted[c.serial]? = some x ∧ x ≤ c.runtime
  serial : ∀ i j, ∀ c ∈ s.at i, ∀ d ∈ s.at j, c.serial = d.serial → c.addr = d.addr
  ran : ∀ e ∈ s.executed, e.runtime ≤ e.curtime ∧ ∃ x, s.inserted[e.serial]? = some x ∧ x ≤ e.runtime
  once : (s.executed.map Execution.serial).Nodup
  pending : ∀ i, ∀ c ∈ s.at i, c.executing = false → c.serial ∉ s.executed.map Execution.serial
  gone : ∀ n ∈ s.deleted, n < s.inserted.length ∧ n ∉ s.executed.map Execution.serial ∧
    ∀ i, ∀ c ∈ s.at i, c.serial ≠ n

structure Inv (s : Sys) : Prop where
  placed : Placed s
  timed : Timed s
  threaded : Threaded s
  ledger : Ledger s
  ids : ∀ i < 256, (s.cs.bucket i).IdsOk

section Basics

variable {s : Sys} {i j : Nat} {c d : Callout}

lemma bucketOf_lt (r : Int) : bucketOf r < 256 := by
  unfold bucketOf
  omega

lemma Placed.eq_of_addr (h : Placed s) (hc : c ∈ s.at i) (hd : d ∈ s.at j) (ha : c.addr = d.addr) :
    i = j ∧ c = d := by
  have hij := h.apart i j c hc d hd ha
  subst hij
  exact ⟨rfl, inj_on_of_nodup_map (h.nodup i) hc hd ha⟩

lemma setFirst_at (i : Nat) (l : List Callout) (j : Nat) :
    ((s.cs.setFirst i l).bucket j).first = if j = i then l else s.at j := by
  unfold Table.setFirst Sys.at
  by_cases h : j = i
  · subst h
    simp
  · simp [h]

lemma setFirst_ids (i : Nat) (l : List Callout) (h : ∀ j < 256, (s.cs.bucket j).IdsOk) :
    ∀ j < 256, ((s.cs.setFirst i l).bucket j).IdsOk := by
  intro j hj
  unfold Table.setFirst
  by_cases hji : j = i
  · subst hji
    simp only [update_self]
    exact h j hj
  · simp only [ne_eq, hji, not_false_eq_true, update_of_ne]
    exact h j hj

end Basics

section Remove

variable {s s' : Sys} {i : Nat} {pre post : List Callout} {c c' : Callout}

lemma removed_sublist (hs : s.at i = pre ++ c :: post)
    (hat : ∀ j, s'.at j = if j = i then pre ++ post else s.at j) (j : Nat) : (s'.at j).Sublist (s.at j) := by
  rw [hat]
  split
  · next h =>
    rw [h, hs]
    exact List.Sublist.append_left (sublist_cons_self c post) pre
  · exact List.Sublist.refl _

lemma removed_mem (hs : s.at i = pre ++ c :: post)
    (hat : ∀ j, s'.at j = if j = i then pre ++ post else s.at j) {j : Nat} {d : Callout} (hd : d ∈ s.at j)
    (hne : d ≠ c) : d ∈ s'.at j := by
  rw [hat]
  split
  · next h =>
    rw [h, hs, mem_append, mem_cons] at hd
    rw [mem_append]
    rcases hd with hd | hd | hd
    · exact .inl hd
    · exact absurd hd hne
    · exact .inr hd
  · exact hd

section

variable (h : Placed s) (hs : s.at i = pre ++ c :: post) (hat : ∀ j, s'.at j = if j = i then pre ++ post else s.at j)

include h hs hat

lemma removed_addr {j : Nat} {d : Callout} (hd : d ∈ s'.at j) :
    d.addr ≠ c.addr := by
  intro haddr
  have hci : c ∈ s.at i := by
    rw [hs]
    simp
  obtain ⟨rfl, rfl⟩ := h.eq_of_addr ((removed_sublist hs hat j).subset hd) hci haddr
  have hnd := h.nodup j
  rw [hs, map_append, map_cons, nodup_middle, nodup_cons] at hnd
  rw [hat, if_pos rfl] at hd
  apply hnd.1
  rw [← map_append]
  exact mem_map_of_mem hd

lemma Placed.remove (hc : c'.addr = c.addr)
    (hfree : s'.cs.freelist = c' :: s.cs.freelist) (halloc : s'.allocated = s.allocated) : Placed s' := by
  have hsub := removed_sublist hs hat
  have hci : c ∈ s.at i := by
    rw [hs]
    simp
  refine ⟨?_, ?_, ?_, ?_, ?_, ?_⟩
  · exact fun j d hd => h.home j d ((hsub j).subset hd)
  · exact fun j => (h.nodup j).sublist ((hsub j).map _)
  · rw [hfree, map_cons, nodup_cons, hc]
    refine ⟨?_, h.free⟩
    intro hmem
    obtain ⟨f, hf, hfa⟩ := mem_map.mp hmem
    exact h.used i c hci f hf hfa.symm
  · intro j d hd f hf
    rw [hfree, mem_cons] at hf
    rcases hf with rfl | hf
    · rw [hc]
      exact removed_addr h hs hat hd
    · exact h.used j d ((hsub j).subset hd) f hf
  · exact fun j k d hd e he => h.apart j k d ((hsub j).subset hd) e ((hsub k).subset he)
  · intro a
    rw [halloc, h.allocated, hfree]
    constructor
    · rintro (⟨j, d, hd, rfl⟩ | ⟨f, hf, rfl⟩)
      · by_cases hdc : d = c
        · right
          exact ⟨c', mem_cons_self .., by rw [hc, hdc]⟩
        · left
          exact ⟨j, d, removed_mem hs hat hd hdc, rfl⟩
      · exact .inr ⟨f, mem_cons_of_mem _ hf, rfl⟩
    · rintro (⟨j, d, hd, rfl⟩ | ⟨f, hf, rfl⟩)
      · exact .inl ⟨j, d, (hsub j).subset hd, rfl⟩
      · rcases mem_cons.mp hf with rfl | hf
        · exact .inl ⟨i, c, hci, hc.symm⟩
        · exact .inr ⟨f, hf, rfl⟩

end

lemma Threaded.remove (h : Threaded s) (hp : Placed s) (hs : s.at i = pre ++ c :: post)
    (hat : ∀ j, s'.at j = if j = i then pre ++ post else s.at j) (hcur : s'.cs.curtime = s.cs.curtime)
    (hthreads : ∀ t r a, s'.threads t = some (r, a) → s.threads t = some (r, a) ∧ a ≠ c.addr)
    (howned : ∀ t r a, s.threads t = some (r, a) → a ≠ c.addr → s'.threads t = some (r, a)) :
    Threaded s' := by
  have hsub := removed_sublist hs hat
  refine ⟨?_, ?_⟩
  · intro t r a ht
    obtain ⟨ht', hne⟩ := hthreads t r a ht
    obtain ⟨hr, d, hd, hda, hdr, hdx, hdt, hpass⟩ := h.running t r a ht'
    rw [hcur]
    have hdc : d ≠ c := by
      rintro rfl
      exact hne hda.symm
    exact ⟨hr, d, removed_mem hs hat hd hdc, hda, hdr, hdx, hdt,
      fun e he => hpass e (he.trans (hsub _))⟩
  · intro j d hd hex
    exact howned _ _ _ (h.owned j d ((hsub j).subset hd) hex) (removed_addr hp hs hat hd)

lemma Timed.sublist (h : Timed s) (hsub : ∀ j, (s'.at j).Sublist (s.at j))
    (hcs : s'.cs.runtime = s.cs.runtime ∧ s'.cs.curtime = s.cs.curtime) (hlb : s'.lbolt = s.lbolt) :
    Timed s' := by
  refine ⟨?_, ?_⟩
  · rw [hcs.1, hcs.2, hlb]
    exact h.order
  · intro j d hd hex
    rw [hcs.1]
    exact h.waiting j d ((hsub j).subset hd) hex

lemma Ledger.sublist (h : Ledger s) (hsub : ∀ j, (s'.at j).Sublist (s.at j))
    (hin : s'.inserted = s.inserted) (hex : s'.executed = s.executed)
    (hgone : ∀ n ∈ s'.deleted, n < s.inserted.length ∧ n ∉ s.executed.map Execution.serial ∧
      ∀ j, ∀ d ∈ s'.at j, d.serial ≠ n) : Ledger s' := by
  refine ⟨?_, ?_, ?_, ?_, ?_, ?_⟩
  · intro j d hd
    rw [hin]
    exact h.asked j d ((hsub j).subset hd)
  · exact fun j k d hd e he => h.serial j k d ((hsub j).subset hd) e ((hsub k).subset he)
  · rw [hex, hin]
    exact h.ran
  · rw [hex]
    exact h.once
  · rw [hex]
    exact fun j d hd => h.pending j d ((hsub j).subset hd)
  · rw [hin, hex]
    exact hgone

end Remove

section Delete

variable {s : Sys}

lemma Inv.delete (h : Inv s) {i : Nat} {pre post : List Callout} {c : Callout}
    (hs : s.at i = pre ++ c :: post) (hx : c.executing = false) :
    Inv { s with
      cs := { s.cs.setFirst i (pre ++ post) with freelist := c :: s.cs.freelist }
      deleted := c.serial :: s.deleted } := by
  have hci : c ∈ s.at i := by
    rw [hs]
    simp
  let s' : Sys := { s with
    cs := { s.cs.setFirst i (pre ++ post) with freelist := c :: s.cs.freelist }
    deleted := c.serial :: s.deleted }
  have hat : ∀ j, s'.at j = if j = i then pre ++ post else s.at j := fun j => setFirst_at i _ j
  have hsub := removed_sublist hs hat
  refine ⟨h.placed.remove hs hat rfl rfl rfl, ?_, ?_, ?_, setFirst_ids i _ h.ids⟩
  · exact h.timed.sublist hsub ⟨rfl, rfl⟩ rfl
  · apply h.threaded.remove h.placed hs hat rfl
    · intro t r a ht
      refine ⟨ht, ?_⟩
      rintro rfl
      obtain ⟨-, d, hd, hda, -, hdx, -, -⟩ := h.threaded.running t r _ ht
      obtain ⟨-, rfl⟩ := h.placed.eq_of_addr hd hci hda
      rw [hx] at hdx
      cases hdx
    · exact fun t r a ht _ => ht
  · apply h.ledger.sublist hsub rfl rfl
    intro n hn
    rcases mem_cons.mp hn with rfl | hn
    · obtain ⟨x, hx', -⟩ := h.ledger.asked i c hci
      refine ⟨(List.getElem?_eq_some_iff.mp hx').1, h.ledger.pending i c hci hx, ?_⟩
      intro j d hd hser
      exact removed_addr h.placed hs hat hd (h.ledger.serial j i d ((hsub j).subset hd) c hci hser)
    · obtain ⟨h1, h2, h3⟩ := h.ledger.gone n hn
      exact ⟨h1, h2, fun j d hd => h3 j d ((hsub j).subset hd)⟩

end Delete

section Finish

variable {s : Sys}

theorem Inv.finish (h : Inv s) {i t : Nat} {pre post : List Callout} {c : Callout}
    (hs : s.at i = pre ++ c :: post) (hx : c.executing = true) (ht : c.executor = t) :
    Inv { s with
      cs := { s.cs.setFirst i (pre ++ post) with freelist := { c with xid := 0 } :: s.cs.freelist }
      threads := update s.threads t none } := by
  have hci : c ∈ s.at i := by
    rw [hs]
    simp
  let s' : Sys := { s with
    cs := { s.cs.setFirst i (pre ++ post) with freelist := { c with xid := 0 } :: s.cs.freelist }
    threads := update s.threads t none }
  have hat : ∀ j, s'.at j = if j = i then pre ++ post else s.at j := fun j => setFirst_at i _ j
  have hsub := removed_sublist hs hat
  have hown := h.threaded.owned i c hci hx
  rw [ht] at hown
  have hfreed : ({ c with xid := 0 } : Callout).addr = c.addr := rfl
  refine ⟨h.placed.remove hs hat hfreed rfl rfl, ?_, ?_, ?_, setFirst_ids i _ h.ids⟩
  · exact h.timed.sublist hsub ⟨rfl, rfl⟩ rfl
  · apply h.threaded.remove h.placed hs hat rfl
    · intro u r a hu
      have hut : u ≠ t := by
        rintro rfl
        change update s.threads u none u = _ at hu
        rw [update_self] at hu
        cases hu
      change update s.threads t none u = _ at hu
      rw [update_of_ne hut] at hu
      refine ⟨hu, ?_⟩
      -- two threads on one structure would both be its executor
      rintro rfl
      obtain ⟨-, d, hd, hda, -, -, hdu, -⟩ := h.threaded.running u r _ hu
      obtain ⟨-, rfl⟩ := h.placed.eq_of_addr hd hci hda
      exact hut (hdu.symm.trans ht)
    · intro u r a hu hne
      have hut : u ≠ t := by
        rintro rfl
        rw [hown] at hu
        cases hu
        exact hne rfl
      change update s.threads t none u = _
      rw [update_of_ne hut]
      exact hu
  · apply h.ledger.sublist hsub rfl rfl
    intro n hn
    obtain ⟨h1, h2, h3⟩ := h.ledger.gone n hn
    exact ⟨h1, h2, fun j d hd => h3 j d ((hsub j).subset hd)⟩

end Finish

section Clock

variable {s : Sys}

lemma Inv.tick (h : Inv s) : Inv { s with lbolt := s.lbolt + 1 } := by
  refine ⟨⟨h.placed.home, h.placed.nodup, h.placed.free, h.placed.used, h.placed.apart, h.placed.allocated⟩,
    ⟨⟨h.timed.order.1, ?_⟩, h.timed.waiting⟩, ⟨h.threaded.running, h.threaded.owned⟩,
    ⟨h.ledger.asked, h.ledger.serial, h.ledger.ran, h.ledger.once, h.ledger.pending, h.ledger.gone⟩, h.ids⟩
  have := h.timed.order.2
  dsimp only
  omega

theorem Inv.now (h : Inv s) : Inv { s with cs := { s.cs with curtime := s.lbolt } } := by
  have hcur := h.timed.order.2
  refine ⟨⟨h.placed.home, h.placed.nodup, h.placed.free, h.placed.used, h.placed.apart, h.placed.allocated⟩,
    ⟨⟨?_, le_rfl⟩, h.timed.waiting⟩, ⟨?_, h.threaded.owned⟩,
    ⟨h.ledger.asked, h.ledger.serial, h.ledger.ran, h.ledger.once, h.ledger.pending, h.ledger.gone⟩, h.ids⟩
  · have := h.timed.order.1
    dsimp only
    omega
  · intro t r a ht
    obtain ⟨hr, hex⟩ := h.threaded.running t r a ht
    exact ⟨hr.trans hcur, hex⟩

theorem Inv.advance (h : Inv s) (hle : s.cs.runtime ≤ s.cs.curtime)
    (hdue : ∀ c ∈ s.at (bucketOf s.cs.runtime), c.runtime = s.cs.runtime → c.executing = true) :
    Inv { s with cs := { s.cs with runtime := s.cs.runtime + 1 } } := by
  refine ⟨⟨h.placed.home, h.placed.nodup, h.placed.free, h.placed.used, h.placed.apart, h.placed.allocated⟩,
    ⟨⟨?_, h.timed.order.2⟩, ?_⟩, ⟨h.threaded.running, h.threaded.owned⟩,
    ⟨h.ledger.asked, h.ledger.serial, h.ledger.ran, h.ledger.once, h.ledger.pending, h.ledger.gone⟩, h.ids⟩
  · dsimp only
    omega
  · intro i c hc hx
    have hw := h.timed.waiting i c hc hx
    have hne : c.runtime ≠ s.cs.runtime := by
      intro heq
      have hhome := h.placed.home i c hc
      rw [heq] at hhome
      subst hhome
      rw [hdue c hc heq] at hx
      cases hx
    dsimp only
    omega

end Clock

section Insert

variable {s s' : Sys} {i : Nat} {c : Callout}

lemma inserted_mem (hat : ∀ j, s'.at j = if j = i then c :: s.at i else s.at j) (j : Nat) (d : Callout) :
    d ∈ s'.at j ↔ (j = i ∧ d = c) ∨ d ∈ s.at j := by
  rw [hat]
  split
  · next hj =>
    subst hj
    simp
  · next hj => simp [hj]

lemma Placed.insert (h : Placed s) (hat : ∀ j, s'.at j = if j = i then c :: s.at i else s.at j)
    (hhome : bucketOf c.runtime = i)
    (hnew : (∀ j, ∀ d ∈ s.at j, d.addr ≠ c.addr) ∧ ∀ f ∈ s'.cs.freelist, f.addr ≠ c.addr)
    (hfree : s'.cs.freelist.Sublist s.cs.freelist)
    (halloc : ∀ a, a ∈ s'.allocated ↔ a = c.addr ∨ (∃ j, ∃ d ∈ s.at j, d.addr = a) ∨
      ∃ f ∈ s'.cs.freelist, f.addr = a) : Placed s' := by
  have hmem := inserted_mem hat
  refine ⟨?_, ?_, ?_, ?_, ?_, ?_⟩
  · intro j d hd
    rcases (hmem j d).mp hd with ⟨rfl, rfl⟩ | hd
    · exact hhome
    · exact h.home j d hd
  · intro j
    rw [hat]
    split
    · next hj =>
      rw [map_cons, nodup_cons]
      refine ⟨?_, h.nodup i⟩
      intro hin
      obtain ⟨d, hd, hda⟩ := mem_map.mp hin
      exact hnew.1 i d hd hda
    · exact h.nodup j
  · exact h.free.sublist (hfree.map _)
  · intro j d hd f hf
    rcases (hmem j d).mp hd with ⟨rfl, rfl⟩ | hd
    · exact (hnew.2 f hf).symm
    · exact h.used j d hd f (hfree.subset hf)
  · intro j k d hd e he hde
    rcases (hmem j d).mp hd with ⟨rfl, rfl⟩ | hd
    · rcases (hmem k e).mp he with ⟨rfl, rfl⟩ | he
      · rfl
      · exact absurd hde.symm (hnew.1 k e he)
    · rcases (hmem k e).mp he with ⟨rfl, rfl⟩ | he
      · exact absurd hde (hnew.1 j d hd)
      · exact h.apart j k d hd e he hde
  · intro a
    rw [halloc]
    constructor
    · rintro (rfl | ⟨j, d, hd, rfl⟩ | hf)
      · exact .inl ⟨i, c, (hmem i c).mpr (.inl ⟨rfl, rfl⟩), rfl⟩
      · exact .inl ⟨j, d, (hmem j d).mpr (.inr hd), rfl⟩
      · exact .inr hf
    · rintro (⟨j, d, hd, rfl⟩ | hf)
      · rcases (hmem j d).mp hd with ⟨-, rfl⟩ | hd
        · exact .inl rfl
        · exact .inr (.inl ⟨j, d, hd, rfl⟩)
      · exact .inr (.inr hf)

theorem Threaded.insert (h : Threaded s) (hat : ∀ j, s'.at j = if j = i then c :: s.at i else s.at j)
    (hlate : s.cs.curtime < c.runtime) (hx : c.executing = false) (hcur : s'.cs.curtime = s.cs.curtime)
    (hthreads : s'.threads = s.threads) : Threaded s' := by
  have hmem := inserted_mem hat
  refine ⟨?_, ?_⟩
  · intro t r a ht
    rw [hthreads] at ht
    obtain ⟨hr, d, hd, hda, hdr, hdx, hdt, hpass⟩ := h.running t r a ht
    rw [hcur]
    refine ⟨hr, d, (hmem _ d).mpr (.inr hd), hda, hdr, hdx, hdt, ?_⟩
    intro e he her
    rw [hat] at he
    split at he
    · next hj =>
      rw [sublist_cons_iff] at he
      rcases he with he | ⟨l, hl, -⟩
      · rw [← hj] at he
        exact hpass e he her
      · cases hl
        omega
    · exact hpass e he her
  · intro j d hd hdx
    rw [hthreads]
    rcases (hmem j d).mp hd with ⟨-, rfl⟩ | hd
    · rw [hx] at hdx
      cases hdx
    · exact h.owned j d hd hdx

lemma Ledger.insert (h : Ledger s) (hat : ∀ j, s'.at j = if j = i then c :: s.at i else s.at j)
    {x : Int} (hx : x ≤ c.runtime) (hserial : c.serial = s.inserted.length)
    (hin : s'.inserted = s.inserted ++ [x]) (hex : s'.executed = s.executed)
    (hdel : s'.deleted = s.deleted) : Ledger s' := by
  have hmem := inserted_mem hat
  have hkeep : ∀ (n : Nat) (y : Int), s.inserted[n]? = some y → s'.inserted[n]? = some y := by
    intro n y hn
    rw [hin, List.getElem?_append_left (List.getElem?_eq_some_iff.mp hn).1]
    exact hn
  have hold : ∀ j, ∀ d ∈ s.at j, d.serial < s.inserted.length := by
    intro j d hd
    obtain ⟨y, hy, -⟩ := h.asked j d hd
    exact (List.getElem?_eq_some_iff.mp hy).1
  have hran : ∀ n ∈ s.executed.map Execution.serial, n < s.inserted.length := by
    intro n hn
    obtain ⟨e, he, rfl⟩ := mem_map.mp hn
    obtain ⟨-, y, hy, -⟩ := h.ran e he
    exact (List.getElem?_eq_some_iff.mp hy).1
  refine ⟨?_, ?_, ?_, ?_, ?_, ?_⟩
  · intro j d hd
    rcases (hmem j d).mp hd with ⟨-, rfl⟩ | hd
    · refine ⟨x, ?_, hx⟩
      rw [hin, hserial]
      simp
    · obtain ⟨y, hy, hle⟩ := h.asked j d hd
      exact ⟨y, hkeep _ _ hy, hle⟩
  · intro j k d hd e he hde
    rcases (hmem j d).mp hd with ⟨-, rfl⟩ | hd
    · rcases (hmem k e).mp he with ⟨-, rfl⟩ | he
      · rfl
      · have := hold k e he
        omega
    · rcases (hmem k e).mp he with ⟨-, rfl⟩ | he
      · have := hold j d hd
        omega
      · exact h.serial j k d hd e he hde
  · rw [hex]
    intro e he
    obtain ⟨h1, y, hy, hle⟩ := h.ran e he
    exact ⟨h1, y, hkeep _ _ hy, hle⟩
  · rw [hex]
    exact h.once
  · rw [hex]
    intro j d hd hdx
    rcases (hmem j d).mp hd with ⟨-, rfl⟩ | hd
    · intro hn
      have := hran _ hn
      omega
    · exact h.pending j d hd hdx
  · rw [hdel, hex, hin]
    intro n hn
    obtain ⟨h1, h2, h3⟩ := h.gone n hn
    refine ⟨by rw [length_append]; omega, h2, ?_⟩
    intro j d hd
    rcases (hmem j d).mp hd with ⟨-, rfl⟩ | hd
    · omega
    · exact h3 j d hd

theorem calloutInsert_eq {cs : Table} {lbolt delta : Int} {fresh serial : Nat} {unsafeHeld : Bool}
    (hlate : cs.curtime < lbolt + delta) (hwin : lbolt + delta - cs.curtime < 2 ^ 31)
    (hids : ∀ i < 256, (cs.bucket i).IdsOk) :
    ∃ (c : Callout) (b : Bucket), c.executing = false ∧ c.runtime = lbolt + delta ∧ c.serial = serial ∧
      c.addr = (cs.freelist.headD ⟨fresh, 0, 0, 0, 0⟩).addr ∧ b.IdsOk ∧
      (calloutInsert cs lbolt delta fresh unsafeHeld serial).2 = { cs with
        bucket := update cs.bucket (bucketOf (lbolt + delta))
          { b with first := c :: (cs.bucket (bucketOf (lbolt + delta))).first }
        freelist := cs.freelist.tail } := by
  have hdiff : ¬diff (lbolt + delta) cs.curtime ≤ 0 := by
    rw [diff_eq hwin (by omega)]
    omega
  let isLong := decide (longtermTicks < diff (lbolt + delta) cs.curtime)
  obtain ⟨hid, hok, hfirst⟩ := nextId_ok (hids _ (bucketOf_lt (lbolt + delta))) isLong
  let b := (cs.bucket (bucketOf (lbolt + delta))).nextId isLong
  let c : Callout := { cs.freelist.headD ⟨fresh, 0, 0, 0, 0⟩ with
    xid := if unsafeHeld then b.1 ||| unsafeDriverBit else b.1
    runtime := lbolt + delta
    serial }
  refine ⟨c, b.2, executing_new hid rfl, rfl, rfl, rfl, hok, ?_⟩
  unfold calloutInsert
  simp only [if_neg hdiff]
  rw [hfirst]

lemma Inv.insert (h : Inv s) {delta : Int} {fresh : Nat} {unsafeHeld : Bool} (hpos : 0 < delta)
    (hwin : s.lbolt + delta - s.cs.curtime < 2 ^ 31) (hfresh : fresh ∉ s.allocated) :
    Inv { s with
      cs := (calloutInsert s.cs s.lbolt delta fresh unsafeHeld s.inserted.length).2
      allocated := if s.cs.freelist = [] then fresh :: s.allocated else s.allocated
      inserted := s.inserted ++ [s.lbolt + delta] } := by
  have hcur := h.timed.order
  obtain ⟨c, b, hx, hrun, hserial, haddr, hok, heq⟩ := @calloutInsert_eq s.cs s.lbolt delta fresh
    s.inserted.length unsafeHeld (by omega) hwin h.ids
  rw [heq]
  rw [← hrun]
  let s' : Sys := { s with
    cs := { s.cs with
      bucket := update s.cs.bucket (bucketOf c.runtime)
        { b with first := c :: (s.cs.bucket (bucketOf c.runtime)).first }
      freelist := s.cs.freelist.tail }
    allocated := if s.cs.freelist = [] then fresh :: s.allocated else s.allocated
    inserted := s.inserted ++ [c.runtime] }
  change Inv s'
  have hat : ∀ j, s'.at j = if j = bucketOf c.runtime then c :: s.at (bucketOf c.runtime) else s.at j := by
    intro j
    change (update s.cs.bucket (bucketOf c.runtime) _ j).first = _
    by_cases hj : j = bucketOf c.runtime
    · subst hj
      rw [update_self, if_pos rfl]
      rfl
    · rw [update_of_ne hj, if_neg hj]
      rfl
  refine ⟨?_, ⟨hcur, ?_⟩, h.threaded.insert hat (by omega) hx rfl rfl,
    h.ledger.insert hat le_rfl hserial rfl rfl rfl, ?_⟩
  · -- the structure comes from the free list or is new
    cases hf : s.cs.freelist with
    | nil =>
      rw [hf] at haddr
      change c.addr = fresh at haddr
      have halloc : s'.allocated = fresh :: s.allocated := if_pos hf
      have htail : s'.cs.freelist = [] := by
        change s.cs.freelist.tail = []
        rw [hf]
        rfl
      apply h.placed.insert hat rfl
      · rw [htail]
        refine ⟨?_, by simp⟩
        intro j d hd hda
        apply hfresh
        rw [h.placed.allocated]
        exact .inl ⟨j, d, hd, hda.trans haddr⟩
      · rw [htail]
        exact nil_sublist _
      · intro a
        rw [halloc, htail, mem_cons, h.placed.allocated, hf, haddr]
    | cons f rest =>
      rw [hf] at haddr
      change c.addr = f.addr at haddr
      have halloc : s'.allocated = s.allocated := if_neg (by rw [hf]; simp)
      have htail : s'.cs.freelist = rest := by
        change s.cs.freelist.tail = rest
        rw [hf]
        rfl
      have hnd := h.placed.free
      rw [hf, map_cons, nodup_cons] at hnd
      apply h.placed.insert hat rfl
      · rw [htail, haddr]
        refine ⟨fun j d hd => h.placed.used j d hd f (by rw [hf]; simp), ?_⟩
        intro g hg hgf
        apply hnd.1
        rw [← hgf]
        exact mem_map_of_mem hg
      · rw [htail, hf]
        exact sublist_cons_self f rest
      · intro a
        rw [halloc, htail, h.placed.allocated, hf, haddr]
        simp only [mem_cons, exists_eq_or_imp]
        rw [@eq_comm _ a]
        exact or_left_comm
  · intro j d hd hdx
    rcases (inserted_mem hat j d).mp hd with ⟨-, rfl⟩ | hd
    · change s.cs.runtime ≤ d.runtime
      omega
    · exact h.timed.waiting j d hd hdx
  · intro j hj
    change (update s.cs.bucket (bucketOf c.runtime) _ j).IdsOk
    by_cases hjc : j = bucketOf c.runtime
    · subst hjc
      rw [update_self]
      exact hok
    · rw [update_of_ne hjc]
      exact h.ids j hj

end Insert

section Mark

variable {s s' : Sys} {i t : Nat} {pre post : List Callout} {c d : Callout} {r : Int}

def startAt (t a : Nat) (d : Callout) : Callout := if d.addr = a then d.start t else d

lemma startAt_keeps (t a : Nat) (d : Callout) : (startAt t a d).addr = d.addr ∧
    (startAt t a d).runtime = d.runtime ∧ (startAt t a d).serial = d.serial := by
  unfold startAt
  split <;> exact ⟨rfl, rfl, rfl⟩

lemma startAt_self (t : Nat) (d : Callout) : startAt t d.addr d = d.start t := if_pos rfl

lemma startAt_of_ne {a : Nat} (h : d.addr ≠ a) : startAt t a d = d := if_neg h

lemma marked_at (h : Placed s) (hs : s.at i = pre ++ c :: post)
    (hat : ∀ j, s'.at j = if j = i then pre ++ c.start t :: post else s.at j) (j : Nat) :
    s'.at j = (s.at j).map (startAt t c.addr) := by
  have hci : c ∈ s.at i := by
    rw [hs]
    simp
  have hother : ∀ l : List Callout, (∀ d ∈ l, ∃ j, d ∈ s.at j ∧ d ≠ c) → l.map (startAt t c.addr) = l := by
    intro l hl
    apply (map_congr_left _).trans (map_id l)
    intro d hd
    obtain ⟨j, hdj, hne⟩ := hl d hd
    apply startAt_of_ne
    intro hda
    exact hne (h.eq_of_addr hdj hci hda).2
  rw [hat]
  split
  · next hj =>
    subst hj
    have hnd := (h.nodup j).of_map
    rw [hs, nodup_middle, nodup_cons, mem_append, not_or] at hnd
    rw [hs, map_append, map_cons, startAt_self, hother pre, hother post]
    · intro d hd
      refine ⟨j, by rw [hs]; simp [hd], ?_⟩
      rintro rfl
      exact hnd.1.2 hd
    · intro d hd
      refine ⟨j, by rw [hs]; simp [hd], ?_⟩
      rintro rfl
      exact hnd.1.1 hd
  · next hj =>
    rw [hother]
    intro d hd
    refine ⟨j, hd, ?_⟩
    rintro rfl
    exact hj (h.eq_of_addr hd hci rfl).1

lemma Placed.mark (h : Placed s) (hat : ∀ j, s'.at j = (s.at j).map (startAt t c.addr))
    (hfree : s'.cs.freelist = s.cs.freelist) (halloc : s'.allocated = s.allocated) : Placed s' := by
  have hback : ∀ j, ∀ d ∈ s'.at j, ∃ e ∈ s.at j, d.addr = e.addr ∧ d.runtime = e.runtime := by
    intro j d hd
    rw [hat] at hd
    obtain ⟨e, he, rfl⟩ := mem_map.mp hd
    exact ⟨e, he, (startAt_keeps t c.addr e).1, (startAt_keeps t c.addr e).2.1⟩
  refine ⟨?_, ?_, ?_, ?_, ?_, ?_⟩
  · intro j d hd
    obtain ⟨e, he, -, hr⟩ := hback j d hd
    rw [hr]
    exact h.home j e he
  · intro j
    have heq : (s'.at j).map Callout.addr = (s.at j).map Callout.addr := by
      rw [hat, map_map]
      apply map_congr_left
      intro d _
      exact (startAt_keeps t c.addr d).1
    rw [heq]
    exact h.nodup j
  · rw [hfree]
    exact h.free
  · rw [hfree]
    intro j d hd f hf
    obtain ⟨e, he, ha, -⟩ := hback j d hd
    rw [ha]
    exact h.used j e he f hf
  · intro j k d hd e he hde
    obtain ⟨d', hd', ha, -⟩ := hback j d hd
    obtain ⟨e', he', ha', -⟩ := hback k e he
    exact h.apart j k d' hd' e' he' (by rw [← ha, ← ha', hde])
  · intro a
    rw [halloc, h.allocated, hfree]
    apply or_congr_left
    constructor
    · rintro ⟨j, d, hd, rfl⟩
      refine ⟨j, startAt t c.addr d, ?_, (startAt_keeps t c.addr d).1⟩
      rw [hat]
      exact mem_map_of_mem hd
    · rintro ⟨j, d, hd, rfl⟩
      obtain ⟨e, he, ha, -⟩ := hback j d hd
      exact ⟨j, e, he, ha.symm⟩

lemma mem_of_sublist_pair (hc : c ∉ post) (h : [d, c].Sublist (pre ++ c :: post)) : d ∈ pre := by
  obtain ⟨l1, l2, heq, h₁, h₂⟩ := sublist_append_iff.mp h
  cases l1 with
  | nil =>
    subst heq
    rcases sublist_cons_iff.mp h₂ with hsub | ⟨l, hl, hsub⟩
    · exact absurd (hsub.subset (by simp)) hc
    · cases hl
      exact absurd (hsub.subset (by simp)) hc
  | cons e l1 =>
    rw [cons_append, cons.injEq] at heq
    rw [heq.1]
    exact h₁.subset (mem_cons_self ..)

lemma marked_mem (h : Placed s) (hci : c ∈ s.at i) (hat : ∀ j, s'.at j = (s.at j).map (startAt t c.addr))
    {j : Nat} (hd : d ∈ s'.at j) : (j = i ∧ d = c.start t) ∨ (d ∈ s.at j ∧ d.addr ≠ c.addr) := by
  rw [hat] at hd
  obtain ⟨e, he, rfl⟩ := mem_map.mp hd
  by_cases hea : e.addr = c.addr
  · obtain ⟨rfl, rfl⟩ := h.eq_of_addr he hci hea
    exact .inl ⟨rfl, startAt_self t e⟩
  · rw [startAt_of_ne hea]
    exact .inr ⟨he, hea⟩

lemma Threaded.mark (h : Threaded s) (hp : Placed s) (hs : s.at (bucketOf r) = pre ++ c :: post)
    (hat : ∀ j, s'.at j = (s.at j).map (startAt t c.addr)) (hr : c.runtime = r) (hx : c.executing = false)
    (hle : r ≤ s.cs.curtime) (hpass : ∀ d ∈ pre, d.runtime = r → d.executing = true)
    (ht : s.threads t = none) (hcur : s'.cs.curtime = s.cs.curtime)
    (hthreads : s'.threads = update s.threads t (some (r, c.addr))) : Threaded s' := by
  have hci : c ∈ s.at (bucketOf r) := by
    rw [hs]
    simp
  have hstart : startAt t c.addr c = c.start t := startAt_self t c
  refine ⟨?_, ?_⟩
  · intro u r' a hu
    rw [hthreads] at hu
    rw [hcur]
    by_cases hut : u = t
    · -- the thread that has marked the callout
      subst hut
      rw [update_self, Option.some.injEq, Prod.mk.injEq] at hu
      obtain ⟨rfl, rfl⟩ := hu
      have hmem : c.start u ∈ s'.at (bucketOf r) := by
        rw [hat, ← hstart]
        exact mem_map_of_mem hci
      refine ⟨hle, c.start u, hmem, rfl, hr, executing_start c u, rfl, ?_⟩
      intro d hd hdr
      rw [hat, hs, map_append, map_cons, hstart] at hd
      have hnd := hp.nodup (bucketOf r)
      rw [hs, map_append, map_cons, nodup_middle, nodup_cons, mem_append, not_or] at hnd
      have hnot : c.start u ∉ post.map (startAt u c.addr) := by
        intro hin
        obtain ⟨e, he, heq⟩ := mem_map.mp hin
        apply hnd.1.2
        have haddr : e.addr = c.addr := by
          rw [← (startAt_keeps u c.addr e).1, heq]
          rfl
        rw [← haddr]
        exact mem_map_of_mem he
      obtain ⟨e, he, rfl⟩ := mem_map.mp (mem_of_sublist_pair hnot hd)
      have hne : e.addr ≠ c.addr := by
        intro heq
        apply hnd.1.1
        rw [← heq]
        exact mem_map_of_mem he
      rw [startAt_of_ne hne] at hdr ⊢
      exact hpass e he hdr
    · rw [update_of_ne hut] at hu
      obtain ⟨hr', e, he, hea, her, hex, heu, hpass'⟩ := h.running u r' a hu
      have hec : e.addr ≠ c.addr := by
        intro heq
        obtain ⟨-, rfl⟩ := hp.eq_of_addr he hci heq
        rw [hx] at hex
        cases hex
      refine ⟨hr', e, ?_, hea, her, hex, heu, ?_⟩
      · rw [hat]
        exact mem_map.mpr ⟨e, he, startAt_of_ne hec⟩
      · intro d hd hdr
        rw [hat, sublist_map_iff] at hd
        obtain ⟨l, hl, heq⟩ := hd
        obtain ⟨d0, l, rfl⟩ : ∃ d0 l', l = d0 :: l' := by
          cases l with
          | nil => cases heq
          | cons d0 l' => exact ⟨d0, l', rfl⟩
        obtain ⟨e0, rfl⟩ : ∃ e0, l = [e0] := by
          rw [map_cons, cons.injEq] at heq
          exact map_eq_singleton_iff.mp heq.2.symm |>.imp fun _ h => h.1
        simp only [map_cons, map_nil, cons.injEq, and_true] at heq
        obtain ⟨rfl, heq⟩ := heq
        have he0 : e0 = e := by
          apply (hp.eq_of_addr (hl.subset (by simp)) he _).2
          rw [heq]
          exact (startAt_keeps t c.addr e0).1.symm
        subst he0
        rw [(startAt_keeps t c.addr d0).2.1] at hdr
        have hdx := hpass' d0 hl hdr
        by_cases hdc : d0.addr = c.addr
        · unfold startAt
          rw [if_pos hdc]
          exact executing_start d0 t
        · rw [startAt_of_ne hdc]
          exact hdx
  · intro j d hd hdx
    rw [hthreads]
    rcases marked_mem hp hci hat hd with ⟨-, rfl⟩ | ⟨hd, -⟩
    · change update s.threads t _ t = some (c.runtime, c.addr)
      rw [update_self, hr]
    have hown := h.owned j d hd hdx
    have hne : d.executor ≠ t := by
      intro heq
      rw [heq, ht] at hown
      cases hown
    rw [update_of_ne hne]
    exact hown

lemma Ledger.mark (h : Ledger s) (hp : Placed s) (hci : c ∈ s.at i)
    (hat : ∀ j, s'.at j = (s.at j).map (startAt t c.addr)) (hx : c.executing = false) {now : Int}
    (hle : c.runtime ≤ now) (hin : s'.inserted = s.inserted)
    (hex : s'.executed = ⟨c.serial, c.runtime, now⟩ :: s.executed) (hdel : s'.deleted = s.deleted) :
    Ledger s' := by
  have hback : ∀ j, ∀ d ∈ s'.at j, ∃ e ∈ s.at j, d.addr = e.addr ∧ d.runtime = e.runtime ∧
      d.serial = e.serial := by
    intro j d hd
    rw [hat] at hd
    obtain ⟨e, he, rfl⟩ := mem_map.mp hd
    exact ⟨e, he, startAt_keeps t c.addr e⟩
  have hpend := h.pending i c hci hx
  refine ⟨?_, ?_, ?_, ?_, ?_, ?_⟩
  · intro j d hd
    obtain ⟨e, he, -, hr, hser⟩ := hback j d hd
    rw [hin, hr, hser]
    exact h.asked j e he
  · intro j k d hd e he hde
    obtain ⟨d', hd', ha, -, hs⟩ := hback j d hd
    obtain ⟨e', he', ha', -, hs'⟩ := hback k e he
    rw [ha, ha']
    exact h.serial j k d' hd' e' he' (by rw [← hs, ← hs', hde])
  · rw [hex, hin]
    exact forall_mem_cons.mpr ⟨⟨hle, h.asked i c hci⟩, h.ran⟩
  · rw [hex, map_cons, nodup_cons]
    exact ⟨hpend, h.once⟩
  · intro j d hd hdx
    rw [hex, map_cons, mem_cons, not_or]
    rcases marked_mem hp hci hat hd with ⟨-, rfl⟩ | ⟨hd, hne⟩
    · rw [executing_start] at hdx
      cases hdx
    · exact ⟨fun hser => hne (h.serial j i d hd c hci hser), h.pending j d hd hdx⟩
  · rw [hdel, hin, hex]
    intro n hn
    obtain ⟨h1, h2, h3⟩ := h.gone n hn
    refine ⟨h1, ?_, ?_⟩
    · rw [map_cons, mem_cons, not_or]
      exact ⟨(h3 i c hci).symm, h2⟩
    · intro j d hd
      obtain ⟨e, he, -, -, hser⟩ := hback j d hd
      rw [hser]
      exact h3 j e he

theorem Inv.mark (h : Inv s) (hs : s.at (bucketOf r) = pre ++ c :: post) (hr : c.runtime = r)
    (hx : c.executing = false) (hle : r ≤ s.cs.curtime)
    (hpass : ∀ d ∈ pre, d.runtime = r → d.executing = true) (ht : s.threads t = none) :
    Inv (s.enter t (s.cs.setFirst (bucketOf r) (pre ++ c.start t :: post), some (r, c.start t))) := by
  have hci : c ∈ s.at (bucketOf r) := by
    rw [hs]
    simp
  let s' := s.enter t (s.cs.setFirst (bucketOf r) (pre ++ c.start t :: post), some (r, c.start t))
  have hat : ∀ j, s'.at j = (s.at j).map (startAt t c.addr) :=
    marked_at h.placed hs fun j => setFirst_at (bucketOf r) _ j
  refine ⟨h.placed.mark hat rfl rfl, ⟨h.timed.order, ?_⟩, ?_, ?_, setFirst_ids _ _ h.ids⟩
  · intro j d hd hdx
    rcases marked_mem h.placed hci hat hd with ⟨-, rfl⟩ | ⟨hd, -⟩
    · rw [executing_start] at hdx
      cases hdx
    · exact h.timed.waiting j d hd hdx
  · exact h.threaded.mark h.placed hs hat hr hx hle hpass ht rfl rfl
  · have hle' : c.runtime ≤ s.cs.curtime := by omega
    exact h.ledger.mark h.placed hci hat hx hle' rfl rfl rfl

end Mark

end Solaris.Callouts
