import Solaris.Vm.SegSkip

/-!
# Insertion and removal in the skiplist

`ssl_insert` and `ssl_remove` behind the path that `ssl_search` left, and the change of the linked
list into a skiplist.
-/

namespace Solaris.Vm

open List Function Nat
open Lib

section Link

variable {as : As} {lvl : SegPtr → Nat} {low high : List SegPtr} {new : SegPtr} {newlev : Nat}
  {spath : Nat → Option SslPtr}

@[simp] lemma setSsl_ssl {ssl s : SslPtr} {i j : Nat} {l : Link} :
    (as.setSsl ssl i l).ssl s j = if s = ssl ∧ j = i then l else as.ssl s j := rfl

lemma linkLevels_spec {pth : Nat → SslPtr} {n i : Nat} (hp : ∀ j, i ≤ j → j < i + n → spath j = some (pth j))
    (hne : ∀ j, pth j ≠ some new) :
    ∃ ssl', linkLevels new spath n i as = some { as with ssl := ssl' } ∧
      (∀ s j, ¬ (i ≤ j ∧ j < i + n) → ssl' s j = as.ssl s j) ∧
      ∀ j, i ≤ j → j < i + n → ssl' (pth j) j = .seg new ∧ ssl' (some new) j = as.ssl (pth j) j ∧
        ∀ s, s ≠ some new → s ≠ pth j → ssl' s j = as.ssl s j := by
  induction n generalizing i as with
  | zero => exact ⟨as.ssl, rfl, fun _ _ _ => rfl, fun j h1 h2 => by omega⟩
  | succ n ih =>
    unfold linkLevels
    rw [hp i le_rfl (by omega)]
    obtain ⟨ssl', hlink, hout, hin⟩ :=
      @ih ((as.setSsl (some new) i (as.ssl (pth i) i)).setSsl (pth i) i (.seg new)) (i + 1)
        fun j h1 h2 => hp j (by omega) (by omega)
    refine ⟨ssl', hlink, ?_, ?_⟩
    · intro s j hj
      rw [hout s j (by omega), setSsl_ssl, setSsl_ssl, if_neg (by omega), if_neg (by omega)]
    · intro j h1 h2
      rcases eq_or_lt_of_le h1 with rfl | hlt
      · have hslot : ∀ s, ssl' s i = if s = pth i then .seg new else if s = some new then as.ssl (pth i) i
            else as.ssl s i := by
          intro s
          rw [hout s i (by omega), setSsl_ssl, setSsl_ssl]
          simp only [and_true]
        refine ⟨?_, ?_, fun s hs1 hs2 => ?_⟩
        · rw [hslot, if_pos rfl]
        · rw [hslot, if_neg (hne i).symm, if_pos rfl]
        · rw [hslot, if_neg hs2, if_neg hs1]
      · obtain ⟨hpth, hnew, hrest⟩ := hin j hlt (by omega)
        have hsame : ∀ s, ((as.setSsl (some new) i (as.ssl (pth i) i)).setSsl (pth i) i (.seg new)).ssl s j =
            as.ssl s j := by
          intro s
          rw [setSsl_ssl, setSsl_ssl, if_neg (by omega), if_neg (by omega)]
        refine ⟨hpth, hnew.trans (hsame _), fun s hs1 hs2 => (hrest s hs1 hs2).trans (hsame _)⟩

lemma level_update (hnew : new ∉ low) (i : Nat) : level (update lvl new newlev) i low = level lvl i low := by
  unfold level
  refine filter_congr fun p hp => ?_
  rw [update_of_ne]
  rintro rfl
  exact hnew hp

lemma raiseLevel_spec (hl : Leveled as lvl (low ++ high)) (hcache : as.cache = .spath spath)
    (hp : PathAt as lvl spath low) :
    ∃ spath', raiseLevel newlev as = some { as with
        cache := .spath spath'
        hilevel := max as.hilevel newlev } ∧
      ∀ i ≤ max as.hilevel newlev, spath' i = some (level lvl i low).getLast? := by
  unfold raiseLevel
  rw [hcache]
  dsimp only
  by_cases hlt : as.hilevel < newlev
  · rw [if_pos hlt, hl.segs, max_eq_right hlt.le]
    refine ⟨_, rfl, fun i hi => ?_⟩
    split_ifs with hhi
    · have hnil : level lvl i low = [] := by
        rw [eq_nil_iff_forall_not_mem]
        intro p hmem
        obtain ⟨hpl, hle⟩ := mem_level.mp hmem
        have := hl.le_hilevel p (mem_append_left _ hpl)
        omega
      rw [hnil]
      rfl
    · exact hp i (by omega)
  · rw [if_neg hlt, max_eq_left (by omega)]
    exact ⟨spath, by rw [← hcache], hp⟩

lemma mem_of_mem_middle {p : SegPtr} (hp : p ∈ low ++ new :: high) (hne : p ≠ new) : p ∈ low ++ high := by
  simp only [mem_append, mem_cons] at hp ⊢
  tauto

/-- What `ssl_insert` leaves in the nodes: the new segment behind the path at its levels. -/
structure Linked (ssl ssl' : SslPtr → Nat → Link) (lvl : SegPtr → Nat) (low : List SegPtr) (new : SegPtr)
    (newlev : Nat) : Prop where
  above : ∀ s i, newlev < i → s ≠ some new → ssl' s i = ssl s i
  unused : ∀ i, newlev < i → i < sslNlevels → ssl' (some new) i = .unused
  pred : ∀ i ≤ newlev, ssl' (level lvl i low).getLast? i = .seg new
  self : ∀ i ≤ newlev, ssl' (some new) i = ssl (level lvl i low).getLast? i
  other : ∀ i ≤ newlev, ∀ s, s ≠ some new → s ≠ (level lvl i low).getLast? → ssl' s i = ssl s i

lemma Linked.chain {ssl' : SslPtr → Nat → Link} (h : Linked as.ssl ssl' lvl low new newlev)
    (hl : Leveled as lvl (low ++ high)) (hnd : (low ++ new :: high).Nodup) {i : Nat} (hi : i < sslNlevels) :
    Chain (fun s => ssl' s i) toLink (level (update lvl new newlev) i (low ++ new :: high)) := by
  have hnotlow : new ∉ low := fun h => (nodup_append.mp hnd).2.2 new h new (by simp) rfl
  have hnothigh : new ∉ high := (nodup_cons.mp (nodup_append.mp hnd).2.1).1
  have hold := hl.chain i hi
  rw [level_append] at hold
  rw [level_append, show new :: high = [new] ++ high from rfl, level_append, level_update hnotlow,
    level_update hnothigh]
  by_cases hle : i ≤ newlev
  · rw [level_singleton (by rw [update_self]; exact hle)]
    refine hold.insert ?_ ?_ (h.pred i hle) (h.other i hle)
    · refine hnd.sublist (List.Sublist.append filter_sublist ?_)
      exact filter_sublist.cons_cons _
    · exact (h.self i hle).trans hold.split
  rw [level_singleton_of_lt (by rw [update_self]; omega), nil_append]
  refine hold.congr (h.above none i (by omega) (by simp)) fun p hp => h.above (some p) i (by omega) ?_
  rintro heq
  cases heq
  rw [← level_append] at hp
  exact (mem_append.mp (mem_level.mp hp).1).elim hnotlow hnothigh

lemma Linked.unused_eq {ssl' : SslPtr → Nat → Link} (h : Linked as.ssl ssl' lvl low new newlev)
    (hl : Leveled as lvl (low ++ high)) {p : SegPtr} (hp : p ∈ low ++ new :: high) {i : Nat}
    (hlt : update lvl new newlev p < i) (hi : i < sslNlevels) : ssl' (some p) i = .unused := by
  by_cases hpn : p = new
  · subst hpn
    rw [update_self] at hlt
    exact h.unused i hlt hi
  rw [update_of_ne hpn] at hlt
  have hold := mem_of_mem_middle hp hpn
  have hne : some p ≠ some new := fun heq => hpn (Option.some.inj heq)
  rw [← hl.unused p hold i hlt hi]
  by_cases hle : i ≤ newlev
  · refine h.other i hle _ hne fun heq => ?_
    have := (mem_level.mp (mem_of_getLast? heq.symm)).2
    omega
  · exact h.above _ i (by omega) hne

lemma sslLink_spec (hl : Leveled as lvl (low ++ high)) (hcache : as.cache = .spath spath)
    (hp : PathAt as lvl spath low) (hnew : newlev < sslNlevels) (hnd : (low ++ new :: high).Nodup) :
    ∃ as' spath', sslLink newlev as new = some as' ∧
      Leveled as' (update lvl new newlev) (low ++ new :: high) ∧
      as'.cache = .spath spath' ∧ PathAt as' (update lvl new newlev) spath' low ∧
      as'.seg = update as.seg new { as.seg new with next := .skiplist (some (some new)) } ∧
      as'.tail = as.tail ∧ as'.nsegs = as.nsegs + 1 := by
  obtain ⟨spath', hraise, hp'⟩ := @raiseLevel_spec as lvl low high newlev spath hl hcache hp
  have hnotlow : new ∉ low := fun h => (nodup_append.mp hnd).2.2 new h new (by simp) rfl
  have hne : ∀ j, (level lvl j low).getLast? ≠ some new := fun j heq =>
    hnotlow (mem_level.mp (mem_of_getLast? heq)).1
  unfold sslLink
  rw [hraise, Option.bind_some]
  dsimp only
  obtain ⟨ssl', hlink, hout, hin⟩ := @linkLevels_spec
    (As.setNext { as with cache := .spath spath', hilevel := max as.hilevel newlev } new
      (.skiplist (some (some new))))
    new spath' (fun j => (level lvl j low).getLast?) (newlev + 1) 0 (fun j _ hj => hp' j (by omega)) hne
  rw [hlink, Option.map_some]
  have hssl : Linked as.ssl (fun s i => if s = some new ∧ newlev < i ∧ i < sslNlevels then .unused else ssl' s i)
      lvl low new newlev := by
    constructor
    · intro s i hi hs
      rw [if_neg (by tauto)]
      exact hout s i (by omega)
    · intro i hi hlt
      rw [if_pos ⟨rfl, hi, hlt⟩]
    · intro i hi
      rw [if_neg (by omega)]
      exact (hin i (zero_le _) (by omega)).1
    · intro i hi
      rw [if_neg (by omega)]
      exact (hin i (zero_le _) (by omega)).2.1
    · intro i hi s hs1 hs2
      rw [if_neg (by omega)]
      exact (hin i (zero_le _) (by omega)).2.2 s hs1 hs2
  refine ⟨_, spath', rfl, ⟨hl.lrep, hl.segs, ?_, fun i hi => hssl.chain hl hnd hi,
    fun p hp i hlt hi => hssl.unused_eq hl hp hlt hi, ?_, ?_⟩, rfl, ?_, rfl, rfl, rfl⟩
  · intro p hp
    change (update as.seg new _ p).next = _
    by_cases hpn : p = new
    · subst hpn
      rw [update_self]
    · rw [update_of_ne hpn]
      exact hl.next p (mem_of_mem_middle hp hpn)
  · have := hl.hilevel
    change max as.hilevel newlev < sslNlevels
    omega
  · intro p hp
    change update lvl new newlev p ≤ max as.hilevel newlev
    by_cases hpn : p = new
    · subst hpn
      rw [update_self]
      omega
    · rw [update_of_ne hpn]
      have := hl.le_hilevel p (mem_of_mem_middle hp hpn)
      omega
  · intro i hi
    rw [level_update hnotlow]
    exact hp' i hi

end Link

section Insert

variable {as as' : As} {lvl : SegPtr → Nat} {l low high : List SegPtr} {new : SegPtr} {newlev : Nat}
  {spath : Nat → Option SslPtr}

def SameSegs (as as' : As) : Prop := ∀ p, (as'.seg p).base = (as.seg p).base ∧ (as'.seg p).size = (as.seg p).size

lemma SameSegs.refl : SameSegs as as := fun _ => ⟨rfl, rfl⟩

lemma SameSegs.trans {as'' : As} (h : SameSegs as as') (h' : SameSegs as' as'') : SameSegs as as'' := fun p =>
  ⟨(h' p).1.trans (h p).1, (h' p).2.trans (h p).2⟩

lemma SameSegs.start_eq (h : SameSegs as as') : as'.start = as.start := funext fun p => (h p).1

lemma SameSegs.stop_eq (h : SameSegs as as') : as'.stop = as.stop := by
  funext p
  unfold As.stop Seg.stop
  rw [(h p).1, (h p).2]

structure Fits (as : As) (new : SegPtr) : Prop where
  pos : 0 < (as.seg new).size
  room : (as.seg new).base + (as.seg new).size < 2 ^ 32

lemma Fits.start_lt (h : Fits as new) : as.start new < as.stop new := by
  have := h.pos
  unfold As.start As.stop Seg.stop
  rw [mod_eq_of_lt h.room]
  omega

lemma Kept.insert (h : Kept as (low ++ high)) (hcut : CutAt as.stop (as.start new) low high) (hnew : Fits as new)
    (hfit : ∀ x ∈ high.head?, as.stop new ≤ as.start x) (hsame : SameSegs as as')
    (hself : (as'.seg new).prev = low.getLast?) (hnext : as'.prevSlot high.head? = some new)
    (hrest : ∀ s, s ≠ some new → s ≠ high.head? → as'.prevSlot s = as.prevSlot s)
    (hnsegs : as'.nsegs = as.nsegs + 1) : Kept as' (low ++ new :: high) := by
  have hap := h.apart.insert hcut hnew.start_lt hfit
  have hrev : (low ++ new :: high).reverse = high.reverse ++ new :: low.reverse := by simp
  refine ⟨?_, ?_, ?_, ?_⟩
  · rw [hsame.start_eq, hsame.stop_eq]
    exact hap
  · intro p hp
    rw [(hsame p).1, (hsame p).2]
    by_cases hpn : p = new
    · subst hpn
      exact hnew.room
    · exact h.room p (mem_of_mem_middle hp hpn)
  · have hback := h.back
    rw [reverse_append] at hback
    rw [hrev]
    refine hback.insert ?_ ?_ ?_ ?_
    · rw [← hrev, nodup_reverse]
      exact hap.nodup
    · rw [head?_reverse]
      exact hself
    · rw [getLast?_reverse]
      exact hnext
    · intro s hs1 hs2
      rw [getLast?_reverse] at hs2
      exact hrest s hs1 hs2
  · rw [hnsegs, h.nsegs]
    simp
    omega

lemma skips_path (hk : Kept as (low ++ high)) (hl : Leveled as lvl (low ++ high)) (hp : PathAt as lvl spath low) :
    Skips { as with cache := .spath spath } lvl (low ++ high) where
  kept := ⟨hk.apart, hk.room, hk.back, hk.nsegs⟩
  leveled := ⟨hl.lrep, hl.segs, hl.next, hl.chain, hl.unused, hl.hilevel, hl.le_hilevel⟩
  path := ⟨spath, rfl, .inr ⟨low, high, rfl, hp⟩⟩

lemma update_next_same {seg : SegPtr → Seg} {p q : SegPtr} {n : SegNext} :
    (update seg p { seg p with next := n } q).base = (seg q).base ∧
      (update seg p { seg p with next := n } q).size = (seg q).size ∧
      (update seg p { seg p with next := n } q).prev = (seg q).prev := by
  by_cases h : q = p
  · subst h
    rw [update_self]
    exact ⟨rfl, rfl, rfl⟩
  · rw [update_of_ne h]
    exact ⟨rfl, rfl, rfl⟩

lemma update_prev_same {seg : SegPtr → Seg} {p q : SegPtr} {n : Option SegPtr} :
    (update seg p { seg p with prev := n } q).base = (seg q).base ∧
      (update seg p { seg p with prev := n } q).size = (seg q).size ∧
      (update seg p { seg p with prev := n } q).next = (seg q).next := by
  by_cases h : q = p
  · subst h
    rw [update_self]
    exact ⟨rfl, rfl, rfl⟩
  · rw [update_of_ne h]
    exact ⟨rfl, rfl, rfl⟩

theorem sslLink_skips {seg1 : SegPtr → Seg} {tail1 : Option SegPtr} (hk : Kept as (low ++ high))
    (hl : Leveled as lvl (low ++ high)) (hcut : CutAt as.stop (as.start new) low high) (hnew : Fits as new)
    (hfit : ∀ x ∈ high.head?, as.stop new ≤ as.start x) (hlev : newlev < sslNlevels)
    (hp : PathAt as lvl spath low) (hnext : ∀ p, (seg1 p).next = (as.seg p).next)
    (hsame : SameSegs as { as with seg := seg1 }) (hself : (seg1 new).prev = low.getLast?)
    (hprev : As.prevSlot { as with seg := seg1, tail := tail1 } high.head? = some new)
    (hrest : ∀ s, s ≠ some new → s ≠ high.head? →
      As.prevSlot { as with seg := seg1, tail := tail1 } s = as.prevSlot s) :
    ∃ as', sslLink newlev { as with seg := seg1, tail := tail1, cache := .spath spath } new = some as' ∧
      SameSegs as as' ∧ (∀ p, p ≠ new → as'.seg p = seg1 p) ∧
      Skips as' (update lvl new newlev) (low ++ new :: high) := by
  have hl1 : Leveled { as with seg := seg1, tail := tail1, cache := .spath spath } lvl (low ++ high) :=
    ⟨hl.lrep, hl.segs, fun p hp => (hnext p).trans (hl.next p hp), hl.chain, hl.unused, hl.hilevel, hl.le_hilevel⟩
  have hnd := (hk.apart.insert hcut hnew.start_lt hfit).nodup
  obtain ⟨as', spath', hlink, hl', hcache', hp', hseg', htail', hnsegs'⟩ := sslLink_spec hl1 rfl hp hlev hnd
  have hsame' : SameSegs as as' := by
    intro p
    rw [hseg']
    exact ⟨update_next_same.1.trans (hsame p).1, update_next_same.2.1.trans (hsame p).2⟩
  have hslot : ∀ s, as'.prevSlot s = As.prevSlot { as with seg := seg1, tail := tail1 } s := by
    intro s
    cases s with
    | none => exact htail'
    | some p =>
      unfold As.prevSlot
      rw [hseg']
      exact update_next_same.2.2
  have hframe : ∀ p, p ≠ new → as'.seg p = seg1 p := by
    intro p hpn
    rw [hseg', update_of_ne hpn]
  refine ⟨as', hlink, hsame', hframe, ⟨?_, hl', spath', hcache', .inr ⟨low, new :: high, rfl, hp'⟩⟩⟩
  refine hk.insert hcut hnew hfit hsame' ?_ ?_ ?_ hnsegs'
  · rw [hseg']
    exact update_next_same.2.2.trans hself
  · rw [hslot, hprev]
  · intro s h1 h2
    rw [hslot, hrest s h1 h2]

/-- What `as_addseg` comes to: the new segment overlaps one, or it goes to its place. -/
def Added (as : As) (l low high : List SegPtr) (new : SegPtr) (R : As → List SegPtr → Prop)
    (r : Option (Bool × As)) : Prop :=
  ∃ as', SameSegs as as' ∧ (∀ p, p ∉ l → p ≠ new → as'.seg p = as.seg p) ∧
    ((∃ x ∈ l, Overlap as.start as.stop new x) ∧ r = some (false, as') ∧ R as' l ∨
      (¬ ∃ x ∈ l, Overlap as.start as.stop new x) ∧ r = some (true, as') ∧ R as' (low ++ new :: high))

lemma insert_last (h : Skips as lvl low) (hnew : Fits as new) (hlev : newlev < sslNlevels)
    (hcut : CutAt as.stop (as.start new) low []) (hp : PathAt as lvl spath low) :
    ∃ as', sslLink newlev { As.setPrev { as with cache := .spath spath } new low.getLast? with
        tail := some new } new = some as' ∧
      SameSegs as as' ∧ (∀ p, p ≠ new → as'.seg p = as.seg p) ∧
      Skips as' (update lvl new newlev) (low ++ [new]) := by
  obtain ⟨hk, hl, -⟩ := h
  rw [← append_nil low] at hk hl
  have hset : ∀ p, p ≠ new → update as.seg new { as.seg new with prev := low.getLast? } p = as.seg p :=
    fun p hpn => update_of_ne hpn ..
  suffices hres : ∃ as', sslLink newlev _ new = some as' ∧ SameSegs as as' ∧ (∀ p, p ≠ new → as'.seg p = _) ∧
      Skips as' (update lvl new newlev) (low ++ [new]) by
    obtain ⟨as', hlink, hsame, hframe, hskips⟩ := hres
    exact ⟨as', hlink, hsame, fun p hpn => (hframe p hpn).trans (hset p hpn), hskips⟩
  refine sslLink_skips hk hl hcut hnew (by simp) hlev hp ?_ ?_ ?_ rfl ?_
  · exact fun p => update_prev_same.2.2
  · exact fun p => ⟨update_prev_same.1, update_prev_same.2.1⟩
  · change (update as.seg new _ new).prev = _
    rw [update_self]
  · intro s h1 h2
    cases s with
    | none => exact absurd rfl h2
    | some p =>
      change (update as.seg new _ p).prev = _
      rw [update_of_ne fun heq => h1 (congrArg some heq)]
      rfl

lemma insert_before {q : SegPtr} (h : Skips as lvl (low ++ q :: high)) (hnew : Fits as new)
    (hnot : new ∉ low ++ q :: high) (hlev : newlev < sslNlevels)
    (hcut : CutAt as.stop (as.start new) low (q :: high)) (hfit : as.stop new ≤ as.start q)
    (hp : PathAt as lvl spath low) :
    ∃ as', sslLink newlev ((As.setPrev { as with cache := .spath spath } new (as.seg q).prev).setPrev q
        (some new)) new = some as' ∧
      SameSegs as as' ∧ (∀ p, p ∉ low ++ q :: high → p ≠ new → as'.seg p = as.seg p) ∧
      Skips as' (update lvl new newlev) (low ++ new :: q :: high) := by
  obtain ⟨hk, hl, -⟩ := h
  have hqn : q ≠ new := by
    rintro rfl
    exact hnot (by simp)
  suffices hres : ∃ as', sslLink newlev ((As.setPrev { as with cache := .spath spath } new (as.seg q).prev).setPrev q
        (some new)) new = some as' ∧ SameSegs as as' ∧
      (∀ p, p ≠ new → as'.seg p = ((as.setPrev new (as.seg q).prev).setPrev q (some new)).seg p) ∧
      Skips as' (update lvl new newlev) (low ++ new :: q :: high) by
    obtain ⟨as', hlink, hsame, hframe, hskips⟩ := hres
    refine ⟨as', hlink, hsame, fun p hp hpn => ?_, hskips⟩
    have hpq : p ≠ q := fun heq => hp (by rw [heq]; simp)
    rw [hframe p hpn]
    dsimp only [As.setPrev]
    rw [update_of_ne hpq, update_of_ne hpn]
  refine sslLink_skips hk hl hcut hnew ?_ hlev hp ?_ ?_ ?_ ?_ ?_
  · intro x hx
    cases hx
    exact hfit
  · exact fun p => update_prev_same.2.2.trans update_prev_same.2.2
  · exact fun p => ⟨update_prev_same.1.trans update_prev_same.1,
      update_prev_same.2.1.trans update_prev_same.2.1⟩
  · dsimp only [As.setPrev]
    rw [update_of_ne hqn.symm, update_self]
    exact hk.prev_eq
  · dsimp only [As.setPrev, As.prevSlot, head?_cons]
    rw [update_self]
  · intro s h1 h2
    cases s with
    | none => rfl
    | some p =>
      dsimp only [As.setPrev, As.prevSlot]
      rw [update_of_ne fun heq => h2 (congrArg some heq),
        update_of_ne fun heq => h1 (congrArg some heq)]

lemma sslInsert_spec (h : Skips as lvl (low ++ high)) (hnew : Fits as new) (hnot : new ∉ low ++ high)
    (hlev : newlev < sslNlevels) (hcut : CutAt as.stop (as.start new) low high) :
    Added as (low ++ high) low high new (fun as' l => ∃ lvl, Skips as' lvl l) (sslInsert newlev as new) := by
  obtain ⟨spath, hs, hp⟩ : ∃ spath, sslSearch as (as.seg new).base true = _ ∧ _ := sslSearch_spec h hcut
  have hk := h.kept
  unfold sslInsert
  rw [hs, Option.bind_some]
  cases high with
  | nil =>
    have hover : ¬ ∃ x ∈ low ++ [], Overlap as.start as.stop new x := by
      rw [hcut.overlap_iff hk.apart]
      simp
    obtain ⟨as', hlink, hsame, hframe, hskips⟩ := insert_last (append_nil low ▸ h) hnew hlev hcut hp
    refine ⟨as', hsame, fun p _ hpn => hframe p hpn, .inr ⟨hover, ?_, _, hskips⟩⟩
    have hfound : foundAt true low [] = low.getLast? := rfl
    rw [hfound]
    cases hlast : low.getLast? with
    | none =>
      rw [hlast] at hlink
      dsimp only
      rw [hlink, Option.map_some]
    | some p =>
      have hle : (as.seg p).stop ≤ (as.seg new).base := hcut.low p (mem_of_getLast? hlast)
      rw [hlast] at hlink
      dsimp only
      rw [if_pos hle, hlink, Option.map_some]
  | cons q high =>
    have hgt : (as.seg new).base < (as.seg q).stop := hcut.high q (mem_cons_self ..)
    have hpos : (as.seg new).base < (as.seg new).stop := hnew.start_lt
    rw [foundAt_cons]
    dsimp only
    rw [if_neg (by omega)]
    by_cases hover : (as.seg q).base < (as.seg new).stop
    · rw [if_pos (.inr hover)]
      refine ⟨{ as with cache := .spath spath }, fun _ => ⟨rfl, rfl⟩, fun _ _ _ => rfl,
        .inl ⟨?_, rfl, lvl, skips_path hk h.leveled hp⟩⟩
      rw [hcut.overlap_iff hk.apart]
      exact ⟨q, rfl, hover⟩
    rw [if_neg (by omega)]
    obtain ⟨as', hlink, hsame, hframe, hskips⟩ :=
      insert_before h hnew hnot hlev hcut (Nat.le_of_not_lt hover) hp
    refine ⟨as', hsame, hframe, .inr ⟨?_, ?_, _, hskips⟩⟩
    · rw [hcut.overlap_iff hk.apart]
      rintro ⟨x, hx, hlt⟩
      cases hx
      exact hover hlt
    · rw [hlink, Option.map_some]

end Insert

section Remove

variable {as as' : As} {lvl : SegPtr → Nat} {l low high : List SegPtr} {p : SegPtr}
  {spath : Nat → Option SslPtr}

lemma unlinkLevels_spec {ssl : SslPtr} {pth : Nat → SslPtr} {n i k : Nat} (hik : i ≤ k) (hkn : k ≤ i + n)
    (hp : ∀ j, i ≤ j → j < i + n → spath j = some (pth j))
    (hon : ∀ j, i ≤ j → j < k → as.ssl (pth j) j = .seg p) (hend : k < i + n → as.ssl (pth k) k ≠ .seg p) :
    ∃ ssl', unlinkLevels p ssl spath n i as = some { as with ssl := ssl' } ∧
      (∀ s j, ¬ (i ≤ j ∧ j < k) → ssl' s j = as.ssl s j) ∧
      ∀ j, i ≤ j → j < k → ssl' (pth j) j = as.ssl ssl j ∧ ∀ s, s ≠ pth j → ssl' s j = as.ssl s j := by
  induction n generalizing i as with
  | zero => exact ⟨as.ssl, rfl, fun _ _ _ => rfl, fun j h1 h2 => by omega⟩
  | succ n ih =>
    unfold unlinkLevels
    rw [hp i le_rfl (by omega)]
    dsimp only
    rcases eq_or_lt_of_le hik with rfl | hlt
    · rw [if_pos (hend (by omega))]
      exact ⟨as.ssl, rfl, fun _ _ _ => rfl, fun j h1 h2 => by omega⟩
    rw [if_neg (by rw [hon i le_rfl hlt]; simp)]
    have hsame : ∀ s j, j ≠ i → (as.setSsl (pth i) i (as.ssl ssl i)).ssl s j = as.ssl s j := by
      intro s j hj
      rw [setSsl_ssl, if_neg (by tauto)]
    obtain ⟨ssl', hun, hout, hin⟩ := @ih (as.setSsl (pth i) i (as.ssl ssl i)) (i + 1) (by omega) (by omega)
      (fun j h1 h2 => hp j (by omega) (by omega))
      (fun j h1 h2 => by rw [hsame _ _ (by omega)]; exact hon j (by omega) h2)
      (fun hlt' => by rw [hsame _ _ (by omega)]; exact hend (by omega))
    refine ⟨ssl', hun, ?_, ?_⟩
    · intro s j hj
      rw [hout s j (by omega), hsame _ _ (by omega)]
    · intro j h1 h2
      rcases eq_or_lt_of_le h1 with rfl | hlt'
      · have hslot : ∀ s, ssl' s i = if s = pth i then as.ssl ssl i else as.ssl s i := by
          intro s
          rw [hout s i (by omega), setSsl_ssl]
          simp only [and_true]
        refine ⟨?_, fun s hs => ?_⟩
        · rw [hslot, if_pos rfl]
        · rw [hslot, if_neg hs]
      · obtain ⟨hpred, hrest⟩ := hin j hlt' h2
        refine ⟨hpred.trans (hsame _ _ (by omega)), fun s hs => (hrest s hs).trans (hsame _ _ (by omega))⟩

lemma lowerLevel_le {n : Nat} : lowerLevel as none n ≤ n := by
  induction n with
  | zero => exact le_rfl
  | succ n ih =>
    unfold lowerLevel
    split
    · omega
    · exact le_rfl

lemma lowerLevel_null {n i : Nat} (hlt : lowerLevel as none n < i) (hle : i ≤ n) : as.ssl none i = .null := by
  induction n with
  | zero => omega
  | succ n ih =>
    unfold lowerLevel at hlt
    split at hlt
    · rename_i hnull
      rcases eq_or_lt_of_le hle with rfl | hlt'
      · exact hnull
      · exact ih hlt (by omega)
    · omega

lemma Kept.remove (h : Kept as (low ++ p :: high)) (hsame : SameSegs as as')
    (hnext : as'.prevSlot high.head? = low.getLast?)
    (hrest : ∀ s, s ≠ some p → s ≠ high.head? → as'.prevSlot s = as.prevSlot s)
    (hnsegs : as'.nsegs = as.nsegs - 1) : Kept as' (low ++ high) := by
  have hsub : (low ++ high).Sublist (low ++ p :: high) :=
    List.Sublist.append_left (sublist_cons_self _ _) _
  have hrev : (low ++ p :: high).reverse = high.reverse ++ p :: low.reverse := by simp
  refine ⟨?_, ?_, ?_, ?_⟩
  · rw [hsame.start_eq, hsame.stop_eq]
    exact h.apart.sublist hsub
  · intro q hq
    rw [(hsame q).1, (hsame q).2]
    exact h.room q (hsub.subset hq)
  · have hback := h.back
    rw [hrev] at hback
    rw [reverse_append]
    refine hback.remove ?_ ?_ ?_
    · rw [← hrev, nodup_reverse]
      exact h.apart.nodup
    · rw [getLast?_reverse, head?_reverse]
      exact hnext
    · intro s hs1 hs2
      rw [getLast?_reverse] at hs2
      exact hrest s hs1 hs2
  · rw [hnsegs, h.nsegs]
    simp

/-- What `ssl_remove` leaves in the nodes. -/
structure Unlinked (ssl ssl' : SslPtr → Nat → Link) (lvl : SegPtr → Nat) (low : List SegPtr) (p : SegPtr) : Prop where
  above : ∀ s i, lvl p < i → ssl' s i = ssl s i
  pred : ∀ i ≤ lvl p, ssl' (level lvl i low).getLast? i = ssl (some p) i
  other : ∀ i ≤ lvl p, ∀ s, s ≠ (level lvl i low).getLast? → ssl' s i = ssl s i

lemma Unlinked.chain {ssl' : SslPtr → Nat → Link} (h : Unlinked as.ssl ssl' lvl low p)
    (hl : Leveled as lvl (low ++ p :: high)) (hnd : (low ++ p :: high).Nodup) {i : Nat} (hi : i < sslNlevels) :
    Chain (fun s => ssl' s i) toLink (level lvl i (low ++ high)) := by
  have hold := hl.chain i hi
  rw [level_append, show p :: high = [p] ++ high from rfl, level_append] at hold
  rw [level_append]
  by_cases hle : i ≤ lvl p
  · rw [level_singleton hle] at hold
    refine hold.remove ?_ ?_ fun s _ hs => h.other i hle s hs
    · refine hnd.sublist (List.Sublist.append filter_sublist ?_)
      exact filter_sublist.cons_cons _
    · exact (h.pred i hle).trans hold.next
  · rw [level_singleton_of_lt (by omega), nil_append] at hold
    exact hold.congr (h.above none i (by omega)) fun q _ => h.above (some q) i (by omega)

lemma unlinkLevels_unlinked (hl : Leveled as lvl (low ++ p :: high))
    (hp : PathAt as lvl spath low) :
    ∃ ssl', unlinkLevels p (some p) spath (as.hilevel + 1) 0 as = some { as with ssl := ssl' } ∧
      Unlinked as.ssl ssl' lvl low p := by
  have hmem : p ∈ low ++ p :: high := by simp
  have hpl := hl.le_hilevel p hmem
  have hhi := hl.hilevel
  have hslot : ∀ i < sslNlevels, as.ssl (level lvl i low).getLast? i = toLink (level lvl i (p :: high)).head? := by
    intro i hi
    refine hl.chain i hi _ _ ?_
    rw [level_append]
  obtain ⟨ssl', hun, hout, hin⟩ := @unlinkLevels_spec as p spath (some p) (fun j => (level lvl j low).getLast?)
    (as.hilevel + 1) 0 (lvl p + 1) (by omega) (by omega) (fun j _ hj => hp j (by omega))
    (fun j _ hj => by
      rw [hslot j (by omega), show p :: high = [p] ++ high from rfl, level_append, level_singleton (by omega)]
      rfl)
    (fun hlt => by
      rw [hslot _ (by omega), show p :: high = [p] ++ high from rfl, level_append,
        level_singleton_of_lt (by omega), nil_append]
      cases hhead : (level lvl (lvl p + 1) high).head? with
      | none => simp [toLink]
      | some q =>
        have := (mem_level.mp (mem_of_head? hhead)).2
        intro heq
        cases heq
        omega)
  refine ⟨ssl', hun, fun s i hi => hout s i (by omega), ?_, ?_⟩
  · exact fun i hi => (hin i (zero_le _) (by omega)).1
  · exact fun i hi => (hin i (zero_le _) (by omega)).2

lemma Unlinked.leveled {ssl' : SslPtr → Nat → Link} {as1 : As} (h : Unlinked as.ssl ssl' lvl low p)
    (hl : Leveled as lvl (low ++ p :: high)) (hnd : (low ++ p :: high).Nodup) (has : as'.ssl = ssl')
    (hlrep : as'.lrep = as.lrep) (hsegs : as'.segs = as.segs)
    (hnext : ∀ q, q ≠ p → (as'.seg q).next = (as.seg q).next)
    (hhi : as'.hilevel = lowerLevel as1 none as.hilevel) (h1 : as1.ssl = ssl') : Leveled as' lvl (low ++ high) := by
  have hnotlow : p ∉ low := fun h => (nodup_append.mp hnd).2.2 p h p (by simp) rfl
  have hnothigh : p ∉ high := (nodup_cons.mp (nodup_append.mp hnd).2.1).1
  have hsub : (low ++ high).Sublist (low ++ p :: high) :=
    List.Sublist.append_left (sublist_cons_self _ _) _
  refine ⟨hlrep.trans hl.lrep, hsegs.trans hl.segs, ?_, ?_, ?_, ?_, ?_⟩
  · intro q hq
    rw [hnext q, hl.next q (hsub.subset hq)]
    rintro rfl
    exact (mem_append.mp hq).elim hnotlow hnothigh
  · intro i hi
    rw [has]
    exact h.chain hl hnd hi
  · intro q hq i hlt hi
    rw [has, ← hl.unused q (hsub.subset hq) i hlt hi]
    by_cases hle : i ≤ lvl p
    · refine h.other i hle _ fun heq => ?_
      have := (mem_level.mp (mem_of_getLast? heq.symm)).2
      omega
    · exact h.above _ i (by omega)
  · rw [hhi]
    exact lt_of_le_of_lt lowerLevel_le hl.hilevel
  · intro q hq
    by_contra hlt
    have hle := hl.le_hilevel q (hsub.subset hq)
    have hlv : lvl q < sslNlevels := lt_of_le_of_lt hle hl.hilevel
    have hnull : ssl' none (lvl q) = .null :=
      h1 ▸ lowerLevel_null (by omega) hle
    rw [(h.chain hl hnd hlv).head] at hnull
    have hin : q ∈ level lvl (lvl q) (low ++ high) := mem_level.mpr ⟨hq, le_rfl⟩
    cases hlevel : level lvl (lvl q) (low ++ high) with
    | nil => rw [hlevel] at hin; cases hin
    | cons x rest => rw [hlevel] at hnull; cases hnull

lemma sslUnlink_spec (hk : Kept as (low ++ p :: high)) (hl : Leveled as lvl (low ++ p :: high))
    (hcache : as.cache = .spath spath) (hp : PathAt as lvl spath low) :
    ∃ as', sslUnlink as p = some as' ∧ SameSegs as as' ∧ Skips as' lvl (low ++ high) := by
  have hnd := hk.apart.nodup
  have hmem : p ∈ low ++ p :: high := by simp
  have hnotlow : p ∉ low := fun h => (nodup_append.mp hnd).2.2 p h p (by simp) rfl
  obtain ⟨ssl', hun, hssl⟩ := unlinkLevels_unlinked hl hp
  have hfirst : ssl' (some p) 0 = toLink high.head? := by
    have hold := hl.chain 0 (by decide)
    rw [level_zero] at hold
    rw [hssl.other 0 (zero_le _), hold.next]
    rw [level_zero]
    exact fun heq => hnotlow (mem_of_getLast? heq.symm)
  have hprev := hk.prev_eq
  unfold sslUnlink
  rw [hcache, hl.segs, hl.next p hmem]
  dsimp only
  rw [hun, Option.bind_some]
  dsimp only
  rw [hfirst]
  cases high with
  | nil =>
    refine ⟨_, rfl, fun q => ⟨update_next_same.1, update_next_same.2.1⟩, ?_, ?_,
      spath, hcache, .inr ⟨low, [], rfl, fun i hi => hp i (hi.trans lowerLevel_le)⟩⟩
    · refine hk.remove (fun q => ⟨update_next_same.1, update_next_same.2.1⟩) hprev ?_ rfl
      intro s h1 h2
      cases s with
      | none => exact absurd rfl h2
      | some q => exact update_next_same.2.2
    · refine hssl.leveled hl hnd rfl rfl rfl ?_ rfl rfl
      intro q hq
      change (update as.seg p _ q).next = _
      rw [update_of_ne hq]
  | cons q high =>
    refine ⟨_, rfl, ?_, ?_, ?_, spath, hcache, .inr ⟨low, q :: high, rfl, fun i hi => hp i (hi.trans lowerLevel_le)⟩⟩
    · exact fun x => ⟨update_next_same.1.trans update_prev_same.1,
        update_next_same.2.1.trans update_prev_same.2.1⟩
    · refine hk.remove (fun x => ⟨update_next_same.1.trans update_prev_same.1,
        update_next_same.2.1.trans update_prev_same.2.1⟩) ?_ ?_ rfl
      · refine update_next_same.2.2.trans ?_
        dsimp only [As.setPrev]
        rw [update_self]
        exact hprev
      · intro s h1 h2
        cases s with
        | none => rfl
        | some x =>
          refine update_next_same.2.2.trans ?_
          dsimp only [As.setPrev]
          rw [update_of_ne fun heq => h2 (congrArg some heq)]
          rfl
    · refine hssl.leveled hl hnd rfl rfl rfl ?_ rfl rfl
      intro x hx
      dsimp only [As.setNext, As.setPrev]
      rw [update_of_ne hx]
      exact update_prev_same.2.2

/-- What `as_removeseg` comes to: no segment has this base, or it is taken out. -/
def Removed (as : As) (l : List SegPtr) (addr : Nat) (R : As → List SegPtr → Prop)
    (r : Option (Option SegPtr × As)) : Prop :=
  ∃ as', SameSegs as as' ∧
    ((∀ x ∈ l, as.start x ≠ addr) ∧ r = some (none, as') ∧ R as' l ∨
      ∃ low p high, l = low ++ p :: high ∧ as.start p = addr ∧ r = some (some p, as') ∧ R as' (low ++ high))

lemma start_ne_of_cut {addr : Nat} (hap : Apart as.start as.stop (low ++ high)) (hcut : CutAt as.stop addr low high)
    (hhead : ∀ x ∈ high.head?, as.start x ≠ addr) : ∀ x ∈ low ++ high, as.start x ≠ addr := by
  intro x hx
  have hpos := hap.pos x hx
  rcases mem_append.mp hx with hx | hx
  · have := hcut.low x hx
    omega
  cases high with
  | nil => cases hx
  | cons q high =>
    rcases mem_cons.mp hx with rfl | hx
    · exact hhead x rfl
    · have h1 := (hap.sublist (sublist_append_right _ _)).head_before hx
      have h2 := hcut.high q (by simp)
      omega

lemma sslRemove_spec {addr : Nat} (h : Skips as lvl (low ++ high)) (hcut : CutAt as.stop addr low high) :
    Removed as (low ++ high) addr (fun as' l => ∃ lvl, Skips as' lvl l) (sslRemove as addr) := by
  obtain ⟨spath, hs, hp⟩ : ∃ spath, sslSearch as addr false = _ ∧ _ := sslSearch_spec h hcut
  have hk := h.kept
  unfold sslRemove
  rw [hs, Option.bind_some]
  have hstay : (∀ x ∈ high.head?, as.start x ≠ addr) → Removed as (low ++ high) addr
      (fun as' l => ∃ lvl, Skips as' lvl l) (some (none, { as with cache := .spath spath })) := by
    intro hhead
    exact ⟨{ as with cache := .spath spath }, fun _ => ⟨rfl, rfl⟩,
      .inl ⟨start_ne_of_cut hk.apart hcut hhead, rfl, lvl, skips_path hk h.leveled hp⟩⟩
  cases high with
  | nil => exact hstay (by simp)
  | cons p high =>
    rw [foundAt_cons]
    dsimp only
    by_cases hbase : (as.seg p).base = addr
    · rw [if_neg (by simpa using hbase)]
      have hskip := skips_path hk h.leveled hp
      obtain ⟨as', hun, hsame, hres⟩ := sslUnlink_spec hskip.kept hskip.leveled rfl hp
      rw [hun]
      exact ⟨as', hsame, .inr ⟨low, p, high, rfl, hbase, rfl, lvl, hres⟩⟩
    · rw [if_pos hbase]
      refine hstay fun x hx => ?_
      cases hx
      exact hbase

end Remove

end Solaris.Vm
