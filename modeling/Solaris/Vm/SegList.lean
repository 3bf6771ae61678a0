import Solaris.Vm.SegUpdate

/-!
# The linked list of segments

Searches from the cached segment in either direction, insertion, removal, and the change into a
skiplist.
-/

namespace Solaris.Vm

open Function Nat Option
open Lib

variable {as as' : As} {l low high : List SegPtr} {addr : Nat} {tail : Bool}

/-- The slots of the linked list forwards: `a_segs.list` and every `s_next.list`. -/
def As.nextSlot (as : As) : Option SegPtr → SegNext
  | none => as.segs
  | some p => (as.seg p).next

structure Listed (as : As) (l : List SegPtr) : Prop where
  kept : Kept as l
  lrep : as.lrep = .linkedlist
  chain : Chain as.nextSlot .list l
  cache : ∃ last, as.cache = .seglast last ∧ ∀ p, last = some p → p ∈ l
  hilevel : as.hilevel = 0

section Find

lemma findForward_spec {pre mid : List SegPtr} {q : SegPtr} {fuel : Nat} (h : Listed as (low ++ q :: high))
    (hcut : CutAt as.stop addr low (q :: high)) (hlow : low = pre ++ mid) (hfuel : mid.length < fuel) :
    findForward as addr fuel (mid ++ q :: high).head? = some q := by
  induction mid generalizing pre fuel with
  | nil =>
    obtain ⟨fuel, rfl⟩ := exists_eq_succ_of_ne_zero (show fuel ≠ 0 by omega)
    have hstop := hcut.high q (List.mem_cons_self ..)
    change (if as.stop q ≤ addr then _ else _) = _
    rw [if_neg (by omega)]
  | cons x mid ih =>
    obtain ⟨fuel, rfl⟩ := exists_eq_succ_of_ne_zero (show fuel ≠ 0 by omega)
    have hstop := hcut.low x (by rw [hlow]; simp)
    have hnext : (as.seg x).next = .list (mid ++ q :: high).head? := by
      have hchain := h.chain
      rw [hlow, List.append_assoc] at hchain
      exact hchain.next
    change (if as.stop x ≤ addr then _ else _) = _
    rw [if_pos hstop, hnext]
    refine @ih (pre ++ [x]) fuel ?_ ?_
    · rw [hlow]
      simp
    · simp at hfuel
      omega

lemma findReverse_spec {h1 h2 : List SegPtr} {p : SegPtr} {prev : Option SegPtr} {fuel : Nat}
    (h : Kept as (low ++ (h1 ++ p :: h2))) (hcut : CutAt as.stop addr low (h1 ++ p :: h2))
    (hfirst : ∀ x ∈ (low ++ (h1 ++ p :: h2)).head?, as.start x ≤ addr) (hfuel : h1.length + 2 ≤ fuel) :
    ∃ r, findReverse as addr fuel prev p = some r ∧
      ((addr < as.stop r.2 ∧ (h1 ++ p :: h2).head? = some r.2) ∨
        (as.stop r.2 ≤ addr ∧ r.1 = (h1 ++ p :: h2).head?)) := by
  induction h1 using List.reverseRecOn generalizing p h2 prev fuel with
  | nil =>
    obtain ⟨fuel, rfl⟩ := exists_eq_succ_of_ne_zero (show fuel ≠ 0 by omega)
    unfold findReverse
    split_ifs with hbase
    · have hprev := h.prev_eq
      rw [hprev]
      cases hlast : low.getLast? with
      | none =>
        have := hfirst p (by rw [List.getLast?_eq_none_iff.mp hlast]; rfl)
        unfold As.start at this
        omega
      | some q =>
        have hmem := List.mem_of_getLast? hlast
        have hstop := hcut.low q hmem
        have hpos := h.apart.pos q (List.mem_append_left _ hmem)
        obtain ⟨fuel, rfl⟩ := exists_eq_succ_of_ne_zero (show fuel ≠ 0 by omega)
        refine ⟨(some p, q), ?_, .inr ⟨hstop, rfl⟩⟩
        change (if addr < as.start q then _ else _) = _
        rw [if_neg (by omega)]
    · exact ⟨_, rfl, .inl ⟨hcut.high p (by simp), rfl⟩⟩
  | append_singleton h1 q ih =>
    obtain ⟨fuel, rfl⟩ := exists_eq_succ_of_ne_zero (show fuel ≠ 0 by simp at hfuel; omega)
    have heq : low ++ ((h1 ++ [q]) ++ p :: h2) = low ++ (h1 ++ q :: p :: h2) := by simp
    have hlast : (low ++ (h1 ++ [q])).getLast? = some q := by
      rw [← List.append_assoc, List.getLast?_concat]
    have hprev : (as.seg p).prev = some q := by
      rw [← List.append_assoc] at h
      rw [h.prev_eq, hlast]
    have hbefore : as.stop q ≤ as.start p := by
      have hap := h.apart
      rw [← List.append_assoc] at hap
      exact hap.before (by simp) (by simp)
    have hbehind := hcut.high q (by simp)
    unfold findReverse
    rw [if_pos (show addr < (as.seg p).base from lt_of_lt_of_le hbehind hbefore), hprev]
    have hhead : (h1 ++ [q] ++ p :: h2).head? = (h1 ++ q :: p :: h2).head? := by simp
    rw [hhead]
    have hcut' : CutAt as.stop addr low (h1 ++ q :: p :: h2) := by
      have := hcut
      rwa [List.append_assoc] at this
    refine ih (heq ▸ h) hcut' (by rw [← heq]; exact hfirst) ?_
    simp at hfuel
    omega

lemma head_of_around {p : SegPtr} (hap : Apart as.start as.stop (low ++ high)) (hcut : CutAt as.stop addr low high)
    (hp : p ∈ low ++ high) (hstart : as.start p ≤ addr) (hstop : addr < as.stop p) : high.head? = some p := by
  rcases List.mem_append.mp hp with hp | hp
  · have := hcut.low p hp
    omega
  cases high with
  | nil => cases hp
  | cons q high =>
    rcases List.mem_cons.mp hp with rfl | hp
    · rfl
    · have h1 := (hap.sublist (List.sublist_append_right _ _)).head_before hp
      have h2 := hcut.high q (List.mem_cons_self ..)
      omega

inductive StartOk (as : As) (addr : Nat) (tail : Bool) (low high : List SegPtr) : Start → Prop
  | found : StartOk as addr tail low high (.found (foundAt tail low high))
  | forward {pre mid : List SegPtr} (hlow : low = pre ++ mid) (hne : high ≠ []) :
    StartOk as addr tail low high (.forward (mid ++ high).head?)
  | reverse {h1 h2 : List SegPtr} {p : SegPtr} (hhigh : high = h1 ++ p :: h2)
    (hfirst : ∀ x ∈ (low ++ high).head?, as.start x ≤ addr) : StartOk as addr tail low high (.reverse p)

lemma start_head_le {list p : SegPtr} (hap : Apart as.start as.stop l) (hhead : l.head? = some list) (hp : p ∈ l) :
    as.start list ≤ as.start p := by
  cases l with
  | nil => cases hp
  | cons q l =>
    obtain rfl : q = list := some.inj hhead
    rcases List.mem_cons.mp hp with rfl | hp
    · exact le_rfl
    · have h1 := hap.head_before hp
      have h2 := hap.pos q (List.mem_cons_self ..)
      omega

lemma findStart_spec {list hiseg seg : SegPtr} (h : Listed as (low ++ high))
    (hcut : CutAt as.stop addr low high) (hlist : (low ++ high).head? = some list)
    (htail : (low ++ high).getLast? = some hiseg) (hseg : seg ∈ low ++ high) :
    StartOk as addr tail low high (findStart as addr tail list hiseg seg) := by
  have hap := h.kept.apart
  have hle := start_head_le hap hlist hseg
  unfold findStart
  by_cases hbase : (as.seg seg).base ≤ addr
  · have hfirst : ∀ x ∈ (low ++ high).head?, as.start x ≤ addr := by
      intro x hx
      rw [hlist] at hx
      cases hx
      exact hle.trans hbase
    rw [if_pos hbase]
    by_cases hin : addr < (as.seg seg).stop
    · rw [if_pos hin]
      have hhead := head_of_around hap hcut hseg hbase hin
      have hfound : foundAt tail low high = some seg := by
        unfold foundAt
        rw [hhead, if_neg (by simp)]
      rw [← hfound]
      exact .found
    rw [if_neg hin]
    have hseglow : seg ∈ low := by
      rcases List.mem_append.mp hseg with hs | hs
      · exact hs
      · exact absurd (hcut.high seg hs) hin
    obtain ⟨pre, mid, rfl⟩ := List.append_of_mem hseglow
    cases high with
    | nil =>
      have hmem : hiseg ∈ pre ++ seg :: mid := by
        rw [List.append_nil] at htail
        exact List.mem_of_getLast? htail
      have hout : (as.seg hiseg).stop ≤ addr := hcut.low hiseg hmem
      rw [if_pos hout]
      have hfound : foundAt tail (pre ++ seg :: mid) [] = if tail then some hiseg else none := by
        unfold foundAt
        rw [List.append_nil] at htail
        cases tail with
        | false => rfl
        | true => exact htail
      rw [← hfound]
      exact .found
    | cons q high =>
      have hlast : (pre ++ seg :: mid ++ q :: high).getLast? = (q :: high).getLast? := getLast?_append_cons _ _ _
      rw [hlast] at htail
      have hmem := List.mem_of_getLast? htail
      have hout : addr < (as.seg hiseg).stop := hcut.high hiseg hmem
      rw [if_neg (by omega)]
      split
      · obtain ⟨h1, h2, heq⟩ := List.append_of_mem hmem
        exact .reverse heq hfirst
      have hnext : (as.seg seg).next = .list (mid ++ q :: high).head? := by
        have hchain := h.chain
        rw [List.append_assoc] at hchain
        exact hchain.next
      rw [hnext]
      exact .forward (show _ = (pre ++ [seg]) ++ mid by simp) (List.cons_ne_nil _ _)
  · rw [if_neg hbase]
    have hseghigh : seg ∈ high := by
      rcases List.mem_append.mp hseg with hs | hs
      · have h1 := hcut.low seg hs
        have h2 := hap.pos seg hseg
        unfold As.start at h2
        omega
      · exact hs
    by_cases hlow : addr < (as.seg list).base
    · rw [if_pos hlow]
      have hnil : low = [] := by
        cases low with
        | nil => rfl
        | cons x low =>
          obtain rfl : x = list := some.inj hlist
          have h1 := hcut.low x (List.mem_cons_self ..)
          have h2 := hap.pos x (by simp)
          unfold As.start at h2
          omega
      have hfound : foundAt tail low high = some list := by
        subst hnil
        unfold foundAt
        rw [show high.head? = some list from hlist, if_neg (by simp)]
      rw [← hfound]
      exact .found
    · rw [if_neg hlow]
      split
      · rw [← hlist]
        exact .forward (show low = [] ++ low from rfl) (List.ne_nil_of_mem hseghigh)
      · obtain ⟨h1, h2, heq⟩ := List.append_of_mem hseghigh
        refine .reverse heq fun x hx => ?_
        rw [hlist] at hx
        cases hx
        exact Nat.le_of_not_lt hlow

lemma findFrom_spec {start : Start} {last : Option SegPtr} (h : Listed as (low ++ high))
    (hcut : CutAt as.stop addr low high) (hcache : as.cache = .seglast last)
    (hlast : ∀ p, last = some p → p ∈ low ++ high) (hstart : StartOk as addr tail low high start) :
    ∃ last', (match start with
      | .found r => some (r, as)
      | .forward seg =>
        (findForward as addr (as.nsegs + 1) seg).map fun p =>
          (some p, if (as.seg p).base ≤ addr then { as with cache := .seglast (some p) } else as)
      | .reverse seg =>
        (findReverse as addr (as.nsegs + 1) none seg).bind fun r =>
          if addr < (as.seg r.2).stop then some (some r.2, { as with cache := .seglast (some r.2) })
          else r.1.map fun prev => (some prev, as)) =
        some (foundAt tail low high, { as with cache := .seglast last' }) ∧
      ∀ p, last' = some p → p ∈ low ++ high := by
  have hk := h.kept
  have hself : as = { as with cache := .seglast last } := by rw [← hcache]
  have hfuel : low.length + high.length = as.nsegs := by rw [hk.nsegs, List.length_append]
  have hfound : ∀ q, high.head? = some q → foundAt tail low high = some q := by
    intro q hq
    unfold foundAt
    rw [hq, if_neg (by simp)]
  cases hstart with
  | found => exact ⟨last, congrArg (fun a => some (_, a)) hself, hlast⟩
  | @forward pre mid hlow hne =>
    obtain ⟨q, high, rfl⟩ := List.exists_cons_of_ne_nil hne
    have hmid : mid.length < as.nsegs + 1 := by
      rw [← hfuel, hlow]
      simp
      omega
    dsimp only
    rw [findForward_spec h hcut hlow hmid, map_some, hfound q rfl]
    split_ifs with hin
    · refine ⟨some q, rfl, fun p hp => ?_⟩
      cases hp
      simp
    · exact ⟨last, congrArg (fun a => some (_, a)) hself, hlast⟩
  | @reverse h1 h2 p hhigh hfirst =>
    subst hhigh
    have hlen : h1.length + 2 ≤ as.nsegs + 1 := by
      rw [← hfuel]
      simp
      omega
    obtain ⟨r, hr, hres⟩ : ∃ r, findReverse as addr (as.nsegs + 1) none p = some r ∧ _ :=
      findReverse_spec hk hcut hfirst hlen
    dsimp only
    rw [hr, bind_some]
    rcases hres with ⟨hin, hhead⟩ | ⟨hout, hprev⟩
    · rw [if_pos (show addr < (as.seg r.2).stop from hin), hfound _ hhead]
      refine ⟨some r.2, rfl, fun p hp => ?_⟩
      cases hp
      exact List.mem_append_right _ (List.mem_of_head? hhead)
    · rw [if_neg (show ¬ addr < (as.seg r.2).stop from not_lt.mpr hout), hprev]
      obtain ⟨q, hq⟩ := ne_none_iff_exists'.mp
        (mt List.head?_eq_none_iff.mp (List.append_ne_nil_of_right_ne_nil h1 (List.cons_ne_nil p h2)))
      rw [hfound q hq, hq]
      exact ⟨last, congrArg (fun a => some (_, a)) hself, hlast⟩

lemma asFindseg_list (h : Listed as (low ++ high)) (hcut : CutAt as.stop addr low high) :
    ∃ last, asFindseg as addr tail = some (foundAt tail low high, { as with cache := .seglast last }) ∧
      ∀ p, last = some p → p ∈ low ++ high := by
  obtain ⟨last, hcache, hlast⟩ := h.cache
  have hk := h.kept
  have hsegs : as.segs = .list (low ++ high).head? := h.chain.head
  unfold asFindseg
  rw [if_neg (by rw [h.lrep]; decide)]
  split
  · rename_i hnone
    rw [hsegs] at hnone
    obtain ⟨rfl, rfl⟩ := List.append_eq_nil_iff.mp (List.head?_eq_none_iff.mp (SegNext.list.inj hnone))
    refine ⟨last, ?_, hlast⟩
    rw [← hcache]
    cases tail <;> rfl
  · rename_i list last' hlist hcache'
    rw [hsegs] at hlist
    have hlist := SegNext.list.inj hlist
    obtain rfl : last' = last := Cache.seglast.inj (hcache'.symm.trans hcache)
    have hmem : list ∈ low ++ high := List.mem_of_head? hlist
    have hseg : last'.getD list ∈ low ++ high := by
      cases last' with
      | none => exact hmem
      | some p => exact hlast p rfl
    split
    · rename_i hnone
      rw [hk.tail_eq, List.getLast?_eq_none_iff] at hnone
      rw [hnone] at hmem
      cases hmem
    · rename_i hiseg htail
      rw [hk.tail_eq] at htail
      exact findFrom_spec h hcut hcache hlast (findStart_spec h hcut hlist htail hseg)
  · rename_i hno hno'
    cases hhead : (low ++ high).head? with
    | none => exact absurd (hsegs.trans (congrArg SegNext.list hhead)) (hno · )
    | some list => exact absurd hcache (hno' list last (hsegs.trans (congrArg SegNext.list hhead)))

end Find

section Add

variable {new : SegPtr}

lemma Listed.insert (h : Listed as (low ++ high)) (hcut : CutAt as.stop (as.start new) low high)
    (hnew : Fits as new) (hfit : ∀ x ∈ high.head?, as.stop new ≤ as.start x) (hsame : SameSegs as as')
    (hself : (as'.seg new).prev = low.getLast?) (hprev : as'.prevSlot high.head? = some new)
    (hrestprev : ∀ s, s ≠ some new → s ≠ high.head? → as'.prevSlot s = as.prevSlot s)
    (hselfnext : (as'.seg new).next = .list high.head?) (hnext : as'.nextSlot low.getLast? = .list (some new))
    (hrestnext : ∀ s, s ≠ some new → s ≠ low.getLast? → as'.nextSlot s = as.nextSlot s)
    (hnsegs : as'.nsegs = as.nsegs + 1) (hcache : as'.cache = .seglast (some new)) (hlrep : as'.lrep = as.lrep)
    (hhi : as'.hilevel = as.hilevel) : Listed as' (low ++ new :: high) where
  kept := h.kept.insert hcut hnew hfit hsame hself hprev hrestprev hnsegs
  lrep := hlrep.trans h.lrep
  chain := h.chain.insert (h.kept.apart.insert hcut hnew.start_lt hfit).nodup hselfnext hnext hrestnext
  cache := by
    refine ⟨some new, hcache, fun p hp => ?_⟩
    cases hp
    simp
  hilevel := hhi.trans h.hilevel

section Slots

variable {p : SegPtr} {q s : Option SegPtr} {n : SegNext}

lemma prevSlot_setPrev : (as.setPrev p q).prevSlot s = if s = some p then q else as.prevSlot s := by
  cases s with
  | none => rfl
  | some x =>
    change (update as.seg p _ x).prev = _
    by_cases hx : x = p
    · subst hx
      rw [update_self, if_pos rfl]
    · rw [update_of_ne hx, if_neg fun heq => hx (some.inj heq)]
      rfl

lemma prevSlot_setNext : (as.setNext p n).prevSlot s = as.prevSlot s := by
  cases s with
  | none => rfl
  | some x => exact update_next_same.2.2

lemma nextSlot_setNext : (as.setNext p n).nextSlot s = if s = some p then n else as.nextSlot s := by
  cases s with
  | none => rfl
  | some x =>
    change (update as.seg p _ x).next = _
    by_cases hx : x = p
    · subst hx
      rw [update_self, if_pos rfl]
    · rw [update_of_ne hx, if_neg fun heq => hx (some.inj heq)]
      rfl

lemma nextSlot_setPrev : (as.setPrev p q).nextSlot s = as.nextSlot s := by
  cases s with
  | none => rfl
  | some x => exact update_prev_same.2.2

lemma SameSegs.setPrev (h : SameSegs as as') : SameSegs as (as'.setPrev p q) := fun _ =>
  ⟨update_prev_same.1.trans (h _).1, update_prev_same.2.1.trans (h _).2⟩

lemma SameSegs.setNext (h : SameSegs as as') : SameSegs as (as'.setNext p n) := fun _ =>
  ⟨update_next_same.1.trans (h _).1, update_next_same.2.1.trans (h _).2⟩

lemma setPrev_seg_of_ne {x : SegPtr} (hx : x ≠ p) : (as.setPrev p q).seg x = as.seg x :=
  update_of_ne hx ..

lemma setNext_seg_of_ne {x : SegPtr} (hx : x ≠ p) : (as.setNext p n).seg x = as.seg x :=
  update_of_ne hx ..

end Slots

/-- What `as_addseg` writes behind every insertion into the linked list. -/
def As.counted (as : As) (new : SegPtr) : As := { as with cache := .seglast (some new), nsegs := as.nsegs + 1 }

lemma add_first (h : Listed as []) (hnew : Fits as new) :
    let as1 := As.counted { (as.setNext new (.list none)).setPrev new none with
      segs := .list (some new)
      tail := some new } new
    SameSegs as as1 ∧ (∀ p, p ≠ new → as1.seg p = as.seg p) ∧ Listed as1 [new] := by
  intro as1
  have hsame : SameSegs as as1 := (SameSegs.refl.setNext).setPrev
  have hframe : ∀ p, p ≠ new → as1.seg p = as.seg p := fun p hp =>
    (setPrev_seg_of_ne hp).trans (setNext_seg_of_ne hp)
  refine ⟨hsame, hframe, ?_⟩
  refine @Listed.insert as as1 [] [] new h ⟨by simp, by simp⟩ hnew (by simp) hsame ?_ rfl ?_ ?_ rfl ?_ rfl rfl rfl rfl
  · change ((as.setNext new (.list none)).setPrev new none).prevSlot (some new) = _
    rw [prevSlot_setPrev, if_pos rfl]
    rfl
  · intro s h1 h2
    cases s with
    | none => exact absurd rfl h2
    | some p => exact congrArg Seg.prev (hframe p fun heq => h1 (congrArg some heq))
  · change ((as.setNext new (.list none)).setPrev new none).nextSlot (some new) = _
    rw [nextSlot_setPrev, nextSlot_setNext, if_pos rfl]
    rfl
  · intro s h1 h2
    cases s with
    | none => exact absurd rfl h2
    | some p => exact congrArg Seg.next (hframe p fun heq => h1 (congrArg some heq))

lemma add_last {p : SegPtr} (h : Listed as low) (hnew : Fits as new) (hnot : new ∉ low)
    (hcut : CutAt as.stop (as.start new) low []) (hlast : low.getLast? = some p) :
    let as1 := As.counted { ((as.setPrev new (some p)).setNext new (.list none)).setNext p (.list (some new)) with
      tail := some new } new
    SameSegs as as1 ∧ (∀ q, q ∉ low → q ≠ new → as1.seg q = as.seg q) ∧ Listed as1 (low ++ [new]) := by
  intro as1
  have hsame : SameSegs as as1 := ((SameSegs.refl.setPrev).setNext).setNext
  have hmem := List.mem_of_getLast? hlast
  have hpn : some new ≠ some p := fun heq => hnot (some.inj heq ▸ hmem)
  have hprev : ∀ s, s ≠ none → as1.prevSlot s = if s = some new then some p else as.prevSlot s := by
    intro s hs
    obtain ⟨x, rfl⟩ := ne_none_iff_exists'.mp hs
    change (((as.setPrev new (some p)).setNext new (.list none)).setNext p (.list (some new))).prevSlot (some x) = _
    rw [prevSlot_setNext, prevSlot_setNext, prevSlot_setPrev]
  have hnext : ∀ s, as1.nextSlot s = if s = some p then .list (some new) else if s = some new then .list none
      else as.nextSlot s := by
    intro s
    have hstep : as1.nextSlot s =
        (((as.setPrev new (some p)).setNext new (.list none)).setNext p (.list (some new))).nextSlot s := by
      cases s <;> rfl
    rw [hstep, nextSlot_setNext, nextSlot_setNext, nextSlot_setPrev]
  refine ⟨hsame, fun q hq hqn => ?_, ?_⟩
  · have hqp : q ≠ p := fun heq => hq (heq ▸ hmem)
    exact (setNext_seg_of_ne hqp).trans ((setNext_seg_of_ne hqn).trans (setPrev_seg_of_ne hqn))
  · rw [← List.append_nil low] at h
    refine @Listed.insert as as1 low [] new h hcut hnew (by simp) hsame ?_ rfl ?_ ?_ ?_ ?_ rfl rfl rfl rfl
    · rw [hlast]
      have := hprev (some new) (by simp)
      rwa [if_pos rfl] at this
    · intro s h1 h2
      rw [hprev s h2, if_neg h1]
    · have := hnext (some new)
      rwa [if_neg hpn, if_pos rfl] at this
    · rw [hlast, hnext, if_pos rfl]
    · intro s h1 h2
      rw [hlast] at h2
      rw [hnext, if_neg h2, if_neg h1]

lemma head_eq_iff {q : SegPtr} (hnd : (low ++ q :: high).Nodup) :
    (low ++ q :: high).head? = some q ↔ low = [] := by
  cases low with
  | nil => simp
  | cons x low =>
    have hne : x ≠ q := by
      rintro rfl
      exact (List.nodup_append.mp hnd).2.2 x (by simp) x (by simp) rfl
    simp [hne]

lemma add_before {q : SegPtr} (h : Listed as (low ++ q :: high)) (hnew : Fits as new)
    (hnot : new ∉ low ++ q :: high) (hcut : CutAt as.stop (as.start new) low (q :: high))
    (hfit : as.stop new ≤ as.start q) :
    ∃ as1, listBefore as new q = some as1 ∧ SameSegs as (as1.counted new) ∧
      (∀ p, p ∉ low ++ q :: high → p ≠ new → (as1.counted new).seg p = as.seg p) ∧
      Listed (as1.counted new) (low ++ new :: q :: high) := by
  have hnd := h.kept.apart.nodup
  have hnq : some new ≠ some q := fun heq => hnot (by rw [some.inj heq]; simp)
  have hprev := h.kept.prev_eq
  have hsegs : as.segs = .list (low ++ q :: high).head? := h.chain.head
  let as0 := ((as.setNext new (.list (some q))).setPrev new (as.seg q).prev).setPrev q (some new)
  have hprev0 : ∀ s, as0.prevSlot s = if s = some q then some new else if s = some new then low.getLast?
      else as.prevSlot s := by
    intro s
    rw [prevSlot_setPrev, prevSlot_setPrev, prevSlot_setNext, hprev]
  have hnext0 : ∀ s, as0.nextSlot s = if s = some new then .list (some q) else as.nextSlot s := by
    intro s
    rw [nextSlot_setPrev, nextSlot_setPrev, nextSlot_setNext]
  have hframe0 : ∀ p, p ∉ low ++ q :: high → p ≠ new → as0.seg p = as.seg p := by
    intro p hp hpn
    have hpq : p ≠ q := fun heq => hp (by rw [heq]; simp)
    exact (setPrev_seg_of_ne hpq).trans ((setPrev_seg_of_ne hpn).trans (setNext_seg_of_ne hpn))
  -- the slot that pointed at `q` is that of the head or of the segment before
  have hslot : ∃ as1, listBefore as new q = some as1 ∧ SameSegs as as1 ∧
      (∀ p, p ∉ low ++ q :: high → p ≠ new → as1.seg p = as.seg p) ∧ (∀ s, as1.prevSlot s = as0.prevSlot s) ∧
      (∀ s, as1.nextSlot s = if s = low.getLast? then .list (some new) else as0.nextSlot s) ∧
      as1.nsegs = as.nsegs ∧ as1.lrep = as.lrep ∧ as1.hilevel = as.hilevel := by
    unfold listBefore
    change ∃ as1, (if as.segs = .list (some q) then some { as0 with segs := .list (some new) } else _) = _ ∧ _
    by_cases hlow : low = []
    · subst hlow
      rw [if_pos (show as.segs = .list (some q) from hsegs)]
      refine ⟨_, rfl, ((SameSegs.refl.setNext).setPrev).setPrev, hframe0, fun s => ?_, fun s => ?_, rfl, rfl, rfl⟩
      · cases s <;> rfl
      · cases s <;> rfl
    have hne : as.segs ≠ .list (some q) := by
      rw [hsegs]
      intro heq
      exact hlow ((head_eq_iff hnd).mp (SegNext.list.inj heq))
    obtain ⟨x, hx⟩ := ne_none_iff_exists'.mp (mt List.getLast?_eq_none_iff.mp hlow)
    have hxmem : x ∈ low := List.mem_of_getLast? hx
    rw [if_neg hne]
    have hmap : ((as.seg q).prev.map fun q => as0.setNext q (.list (some new))) =
        some (as0.setNext x (.list (some new))) := by rw [hprev, hx, map_some]
    rw [hmap, hx]
    refine ⟨_, rfl, (((SameSegs.refl.setNext).setPrev).setPrev).setNext, fun p hp hpn => ?_,
      fun s => prevSlot_setNext, fun s => nextSlot_setNext, rfl, rfl, rfl⟩
    have hpx : p ≠ x := fun heq => hp (by rw [heq]; exact List.mem_append_left _ hxmem)
    exact (setNext_seg_of_ne hpx).trans (hframe0 p hp hpn)
  obtain ⟨as1, has1, hsame, hframe, hprev1, hnext1, hn1, hl1, hh1⟩ := hslot
  refine ⟨as1, has1, hsame, hframe, ?_⟩
  have hnewlast : some new ≠ low.getLast? := fun heq =>
    hnot (List.mem_append_left _ (List.mem_of_getLast? heq.symm))
  have hcp : ∀ s, (as1.counted new).prevSlot s = as0.prevSlot s := fun s => by
    rw [← hprev1 s]
    cases s <;> rfl
  have hcn : ∀ s, (as1.counted new).nextSlot s = if s = low.getLast? then .list (some new) else as0.nextSlot s :=
    fun s => by
      rw [← hnext1 s]
      cases s <;> rfl
  refine h.insert hcut hnew ?_ hsame ?_ ?_ ?_ ?_ ?_ ?_ (congrArg (· + 1) hn1) rfl hl1 hh1
  · intro x hx
    cases hx
    exact hfit
  · have := hcp (some new)
    rwa [hprev0, if_neg hnq, if_pos rfl] at this
  · rw [hcp, hprev0]
    exact if_pos rfl
  · intro s h1 h2
    rw [hcp, hprev0, if_neg (show s ≠ some q from h2), if_neg h1]
  · have := hcn (some new)
    rwa [if_neg hnewlast, hnext0, if_pos rfl] at this
  · rw [hcn, if_pos rfl]
  · intro s h1 h2
    rw [hcn, if_neg h2, hnext0, if_neg h1]

lemma listAdd_spec (h : Listed as (low ++ high)) (hnew : Fits as new) (hnot : new ∉ low ++ high)
    (hcut : CutAt as.stop (as.start new) low high) :
    Added as (low ++ high) low high new Listed (listAdd as new) := by
  obtain ⟨last, hs, hlast⟩ : ∃ last, asFindseg as (as.seg new).base true = _ ∧ _ := asFindseg_list h hcut
  have hap := h.kept.apart
  have h0 : Listed { as with cache := .seglast last } (low ++ high) :=
    ⟨⟨hap, h.kept.room, h.kept.back, h.kept.nsegs⟩, h.lrep, h.chain, ⟨last, rfl, hlast⟩, h.hilevel⟩
  have hnew0 : Fits { as with cache := .seglast last } new := ⟨hnew.pos, hnew.room⟩
  unfold listAdd
  rw [hs, bind_some]
  cases high with
  | nil =>
    have hover : ¬ ∃ x ∈ low ++ [], Overlap as.start as.stop new x := by
      rw [hcut.overlap_iff hap]
      simp
    have hfound : foundAt true low [] = low.getLast? := rfl
    rw [hfound]
    rw [List.append_nil] at h0 hnot
    cases hlow : low.getLast? with
    | none =>
      obtain rfl := List.getLast?_eq_none_iff.mp hlow
      obtain ⟨hsame, hframe, hlisted⟩ := add_first h0 hnew0
      exact ⟨_, hsame, fun p _ hpn => hframe p hpn, .inr ⟨hover, rfl, hlisted⟩⟩
    | some p =>
      have hle : (as.seg p).stop ≤ (as.seg new).base := hcut.low p (List.mem_of_getLast? hlow)
      obtain ⟨hsame, hframe, hlisted⟩ := add_last h0 hnew0 hnot hcut hlow
      dsimp only
      rw [if_pos hle]
      refine ⟨_, hsame, fun q hq hqn => hframe q ?_ hqn, .inr ⟨hover, rfl, hlisted⟩⟩
      rwa [List.append_nil] at hq
  | cons q high =>
    have hgt : (as.seg new).base < (as.seg q).stop := hcut.high q (List.mem_cons_self ..)
    have hpos : (as.seg new).base < (as.seg new).stop := hnew.start_lt
    rw [foundAt_cons]
    dsimp only
    rw [if_neg (by omega)]
    by_cases hover : (as.seg q).base < (as.seg new).stop
    · rw [if_pos (.inr hover)]
      refine ⟨{ as with cache := .seglast last }, fun _ => ⟨rfl, rfl⟩, fun _ _ _ => rfl, .inl ⟨?_, rfl, h0⟩⟩
      rw [hcut.overlap_iff hap]
      exact ⟨q, rfl, hover⟩
    rw [if_neg (by omega)]
    obtain ⟨as1, hbefore, hsame, hframe, hlisted⟩ := add_before h0 hnew0 hnot hcut (Nat.le_of_not_lt hover)
    rw [hbefore]
    refine ⟨_, hsame, hframe, .inr ⟨?_, rfl, hlisted⟩⟩
    rw [hcut.overlap_iff hap]
    rintro ⟨x, hx, hlt⟩
    cases hx
    exact hover hlt

end Add

section Remove

variable {p : SegPtr}

lemma getLast_eq_iff (hnd : (low ++ p :: high).Nodup) : (low ++ p :: high).getLast? = some p ↔ high = [] := by
  rw [getLast?_append_cons]
  cases high with
  | nil => simp
  | cons x high =>
    have hlast : (p :: x :: high).getLast? = (x :: high).getLast? := by simp
    rw [hlast]
    constructor
    · intro heq
      have := (List.nodup_cons.mp (List.nodup_append.mp hnd).2.1).1
      exact absurd (List.mem_of_getLast? heq) this
    · intro hnil
      cases hnil

lemma listUnlink_spec (h : Listed as (low ++ p :: high)) :
    ∃ as', listUnlink as p = some as' ∧ SameSegs as as' ∧ Listed as' (low ++ high) := by
  have hnd := h.kept.apart.nodup
  have hprev := h.kept.prev_eq
  have htail := h.kept.tail_eq
  have hsegs : as.segs = .list (low ++ p :: high).head? := h.chain.head
  have hnext : (as.seg p).next = .list high.head? := h.chain.next
  have hnothigh : p ∉ high := (List.nodup_cons.mp (List.nodup_append.mp hnd).2.1).1
  let as0 : As := { as with cache := .seglast high.head? }
  -- the slot backwards that pointed at `p`
  have hfirst : ∃ as1, (if as0.tail = some p then some { as0 with tail := (as0.seg p).prev }
        else high.head?.map fun n => as0.setPrev n (as0.seg p).prev) = some as1 ∧ SameSegs as as1 ∧
      (∀ s, as1.prevSlot s = if s = high.head? then low.getLast? else as.prevSlot s) ∧
      (∀ s, as1.nextSlot s = as.nextSlot s) ∧ as1.cache = .seglast high.head? ∧ as1.nsegs = as.nsegs ∧
      as1.lrep = as.lrep ∧ as1.hilevel = as.hilevel ∧ as1.segs = as.segs ∧ (as1.seg p).prev = low.getLast? := by
    cases high with
    | nil =>
      rw [if_pos (by rw [htail, getLast_eq_iff hnd])]
      refine ⟨_, rfl, SameSegs.refl, fun s => ?_, fun s => ?_, rfl, rfl, rfl, rfl, rfl, hprev⟩
      · cases s with
        | none => exact hprev
        | some x => rfl
      · cases s <;> rfl
    | cons q high =>
      have hqp : p ≠ q := fun heq => hnothigh (by rw [heq]; simp)
      have hne : as.tail ≠ some p := by
        rw [htail]
        intro heq
        cases (getLast_eq_iff hnd).mp heq
      rw [if_neg hne]
      refine ⟨as0.setPrev q (as0.seg p).prev, rfl, SameSegs.refl.setPrev, fun s => ?_, fun s => ?_,
        rfl, rfl, rfl, rfl, rfl, ?_⟩
      · rw [prevSlot_setPrev]
        rw [hprev]
        cases s <;> rfl
      · rw [nextSlot_setPrev]
        cases s <;> rfl
      · rw [setPrev_seg_of_ne hqp]
        exact hprev
  obtain ⟨as1, has1, hsame1, hprev1, hnext1, hcache1, hn1, hl1, hh1, hsegs1, hself1⟩ := hfirst
  -- the slot forwards that pointed at `p`
  have hsecond : ∃ as2, (if as1.segs = .list (some p) then some { as1 with segs := .list high.head? }
        else (as1.seg p).prev.map fun q => as1.setNext q (.list high.head?)) = some as2 ∧ SameSegs as as2 ∧
      (∀ s, as2.prevSlot s = as1.prevSlot s) ∧
      (∀ s, as2.nextSlot s = if s = low.getLast? then .list high.head? else as1.nextSlot s) ∧
      as2.cache = as1.cache ∧ as2.nsegs = as1.nsegs ∧ as2.lrep = as1.lrep ∧ as2.hilevel = as1.hilevel := by
    by_cases hlow : low = []
    · subst hlow
      rw [if_pos (by rw [hsegs1, hsegs]; rfl)]
      refine ⟨_, rfl, hsame1, fun s => ?_, fun s => ?_, rfl, rfl, rfl, rfl⟩
      · cases s <;> rfl
      · cases s <;> rfl
    have hne : as1.segs ≠ .list (some p) := by
      rw [hsegs1, hsegs]
      intro heq
      exact hlow ((head_eq_iff hnd).mp (SegNext.list.inj heq))
    obtain ⟨x, hx⟩ := Option.ne_none_iff_exists'.mp (mt List.getLast?_eq_none_iff.mp hlow)
    rw [if_neg hne, hself1, hx]
    exact ⟨_, rfl, hsame1.setNext, fun s => prevSlot_setNext, fun s => nextSlot_setNext, rfl, rfl, rfl, rfl⟩
  obtain ⟨as2, has2, hsame2, hprev2, hnext2, hcache2, hn2, hl2, hh2⟩ := hsecond
  refine ⟨{ as2 with nsegs := as2.nsegs - 1 }, ?_, hsame2, ?_, hl2.trans (hl1.trans h.lrep), ?_, ?_,
    hh2.trans (hh1.trans h.hilevel)⟩
  · unfold listUnlink
    rw [hnext]
    change (Option.bind (if as0.tail = some p then some { as0 with tail := (as0.seg p).prev }
        else high.head?.map fun n => as0.setPrev n (as0.seg p).prev) _) = _
    rw [has1, Option.bind_some, has2]
    rfl
  · refine h.kept.remove hsame2 ?_ ?_ (by dsimp only; rw [hn2, hn1])
    · have := (hprev2 high.head?).trans (hprev1 high.head?)
      rw [if_pos rfl] at this
      rw [← this]
      cases high.head? <;> rfl
    · intro s h1 h2
      have := (hprev2 s).trans (hprev1 s)
      rw [if_neg h2] at this
      rw [← this]
      cases s <;> rfl
  · refine h.chain.remove hnd ?_ ?_
    · have := hnext2 low.getLast?
      rw [if_pos rfl] at this
      rw [← this]
      cases low.getLast? <;> rfl
    · intro s h1 h2
      have := hnext2 s
      rw [if_neg h2, hnext1] at this
      rw [← this]
      cases s <;> rfl
  · refine ⟨high.head?, hcache2.trans hcache1, fun x hx => ?_⟩
    exact List.mem_append_right _ (List.mem_of_head? hx)

end Remove

end Solaris.Vm
