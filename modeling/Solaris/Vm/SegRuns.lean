import Solaris.Vm.SegList

/-!
# Runs over an address space

The plain list of segments, sorted and disjoint, and the refinement: whatever the representation,
the caches and the levels drawn, every call answers as the plain list does.
-/

namespace Solaris.Vm

open List Function Nat Option
open Lib

def Represents (as : As) (l : List SegPtr) : Prop := Listed as l ∨ ∃ lvl, Skips as lvl l

section Mutate

variable {as : As} {lvl : SegPtr → Nat} {l rest done : List SegPtr} {newlev : SegPtr → Nat}

lemma mutateLoop_spec {fuel : Nat} (hlev : ∀ p, newlev p < sslNlevels) (h : Skips as lvl done)
    (hap : Apart as.start as.stop (rest ++ done)) (hroom : ∀ p ∈ rest, (as.seg p).base + (as.seg p).size < 2 ^ 32)
    (hprev : ∀ pre p post, rest = pre ++ p :: post → (as.seg p).prev = pre.getLast?) (hfuel : rest.length ≤ fuel) :
    ∃ as', mutateLoop newlev fuel rest.getLast? as = some as' ∧ SameSegs as as' ∧
      ∃ lvl, Skips as' lvl (rest ++ done) := by
  induction rest using List.reverseRecOn generalizing as lvl done fuel with
  | nil =>
    refine ⟨as, ?_, SameSegs.refl, lvl, h⟩
    cases fuel <;> rfl
  | append_singleton r car ih =>
    obtain ⟨fuel, rfl⟩ := exists_eq_succ_of_ne_zero (show fuel ≠ 0 by simp at hfuel; omega)
    rw [append_assoc] at hap
    have hcar : Apart as.start as.stop (car :: done) := hap.sublist (sublist_append_right _ _)
    have hpos := hcar.pos car (mem_cons_self ..)
    have hroomcar := hroom car (by simp)
    have hfits : Fits as car := by
      refine ⟨?_, hroomcar⟩
      unfold As.start As.stop Seg.stop at hpos
      omega
    have hcut : CutAt as.stop (as.start car) [] done := by
      refine ⟨by simp, fun x hx => ?_⟩
      have h1 := hcar.head_before hx
      have h2 := hcar.pos x (mem_cons_of_mem _ hx)
      omega
    have hnot : car ∉ [] ++ done := (nodup_cons.mp hcar.nodup).1
    have hover : ¬ ∃ x ∈ [] ++ done, Overlap as.start as.stop car x := by
      rintro ⟨x, hx, -, hlt⟩
      have := hcar.head_before hx
      omega
    obtain ⟨as1, hsame, hframe, hres⟩ := @sslInsert_spec as lvl [] done car (newlev car) h hfits hnot (hlev car) hcut
    rcases hres with ⟨hyes, -⟩ | ⟨-, hins, lvl1, hskips⟩
    · exact absurd hyes hover
    rw [getLast?_concat]
    unfold mutateLoop
    rw [hins, bind_some, hprev r car [] rfl]
    -- the segments still to come keep their links backwards
    have hkeep : ∀ p ∈ r, as1.seg p = as.seg p := by
      intro p hp
      have hnd := hap.nodup
      refine hframe p (fun hd => ?_) ?_
      · exact (nodup_append.mp hnd).2.2 p hp p (mem_cons_of_mem _ hd) rfl
      · rintro rfl
        exact (nodup_append.mp hnd).2.2 p hp p (mem_cons_self ..) rfl
    obtain ⟨as', hloop, hsame', lvl', hskips'⟩ := @ih as1 lvl1 (car :: done) fuel hskips
      (by rw [hsame.start_eq, hsame.stop_eq]; exact hap)
      (fun p hp => by rw [hkeep p hp]; exact hroom p (by simp [hp]))
      (fun pre p post heq => by
        rw [hkeep p (by rw [heq]; simp)]
        exact hprev pre p (post ++ [car]) (by rw [heq]; simp))
      (by simp at hfuel; omega)
    refine ⟨as', hloop, hsame.trans hsame', lvl', ?_⟩
    rw [append_assoc]
    exact hskips'

lemma asMutateSeglist_spec (hlev : ∀ p, newlev p < sslNlevels) (h : Listed as l) :
    ∃ as', asMutateSeglist newlev as = some as' ∧ SameSegs as as' ∧ ∃ lvl, Skips as' lvl l := by
  have hk := h.kept
  unfold asMutateSeglist
  rw [hk.tail_eq]
  have hempty : Skips { as with
      tail := none
      segs := .skiplist (some none)
      ssl := fun s i => if s = none then .null else as.ssl s i
      cache := .spath fun _ => none
      lrep := .skiplist
      nsegs := 0 } (fun _ => 0) [] := by
    refine ⟨⟨⟨List.Pairwise.nil, by simp⟩, by simp, chain_nil rfl, rfl⟩, ⟨rfl, rfl, by simp, ?_, by simp, ?_, by simp⟩,
      _, rfl, .inl rfl⟩
    · exact fun i _ => chain_nil rfl
    · dsimp only
      rw [h.hilevel]
      decide
  refine mutateLoop_spec hlev hempty ?_ hk.room ?_ hk.nsegs.ge |>.imp fun as' hres => ?_
  · rw [append_nil]
    exact hk.apart
  · rintro pre p post rfl
    exact hk.prev_eq
  · obtain ⟨hrun, hsame, lvl, hskips⟩ := hres
    rw [append_nil] at hskips
    exact ⟨hrun, hsame, lvl, hskips⟩

end Mutate

section Calls

variable {as : As} {l low high : List SegPtr} {addr : Nat} {new : SegPtr}

lemma Represents.kept (h : Represents as l) : Kept as l := by
  rcases h with h | ⟨lvl, h⟩
  · exact h.kept
  · exact h.kept

lemma Represents.lrep_eq (h : Represents as l) :
    (as.lrep ≠ .skiplist ∧ Listed as l) ∨ (as.lrep = .skiplist ∧ ∃ lvl, Skips as lvl l) := by
  rcases h with h | ⟨lvl, h⟩
  · exact .inl ⟨by rw [h.lrep]; decide, h⟩
  · exact .inr ⟨h.leveled.lrep, lvl, h⟩

lemma Represents.write (h : Represents as l) {seg : Seg} (hnot : new ∉ l) :
    Represents { as with seg := update as.seg new seg } l := by
  have hsame : ∀ p ∈ l, update as.seg new seg p = as.seg p := by
    intro p hp
    refine update_of_ne ?_ ..
    rintro rfl
    exact hnot hp
  have hkept : ∀ hk : Kept as l, Kept { as with seg := update as.seg new seg } l := by
    intro hk
    refine ⟨hk.apart.congr (fun p hp => ?_) (fun p hp => ?_), fun p hp => ?_, hk.back.congr rfl fun p hp => ?_, hk.nsegs⟩
    · exact congrArg Seg.base (hsame p hp)
    · exact congrArg Seg.stop (hsame p hp)
    · dsimp only
      rw [hsame p hp]
      exact hk.room p hp
    · exact congrArg Seg.prev (hsame p (mem_reverse.mp hp))
  rcases h with h | ⟨lvl, h⟩
  · exact .inl ⟨hkept h.kept, h.lrep, h.chain.congr rfl fun p hp => congrArg Seg.next (hsame p hp), h.cache, h.hilevel⟩
  · have hl := h.leveled
    exact .inr ⟨lvl, hkept h.kept, ⟨hl.lrep, hl.segs, fun p hp => (congrArg Seg.next (hsame p hp)).trans (hl.next p hp),
      hl.chain, hl.unused, hl.hilevel, hl.le_hilevel⟩, h.path⟩

lemma asFindseg_spec {tail : Bool} (h : Represents as (low ++ high)) (hcut : CutAt as.stop addr low high) :
    ∃ as', asFindseg as addr tail = some (foundAt tail low high, as') ∧ SameSegs as as' ∧
      Represents as' (low ++ high) := by
  rcases h.lrep_eq with ⟨-, hl⟩ | ⟨hrep, lvl, hs⟩
  · obtain ⟨last, hfind, hlast⟩ : ∃ last, asFindseg as addr tail = _ ∧ _ := asFindseg_list hl hcut
    have hk := hl.kept
    exact ⟨_, hfind, SameSegs.refl, .inl
      ⟨⟨hk.apart, hk.room, hk.back, hk.nsegs⟩, hl.lrep, hl.chain, ⟨last, rfl, hlast⟩, hl.hilevel⟩⟩
  · obtain ⟨spath, hfind, hp⟩ : ∃ spath, sslSearch as addr tail = _ ∧ _ := sslSearch_spec hs hcut
    refine ⟨{ as with cache := .spath spath }, ?_, SameSegs.refl, .inr ⟨lvl, skips_path hs.kept hs.leveled hp⟩⟩
    unfold asFindseg
    rw [if_pos hrep, hfind]

lemma Added.imp {R R' : As → List SegPtr → Prop} {r : Option (Bool × As)} (h : Added as l low high new R r)
    (himp : ∀ as l, R as l → R' as l) : Added as l low high new R' r := by
  obtain ⟨as', hsame, hframe, hres⟩ := h
  refine ⟨as', hsame, hframe, ?_⟩
  rcases hres with ⟨h1, h2, h3⟩ | ⟨h1, h2, h3⟩
  · exact .inl ⟨h1, h2, himp _ _ h3⟩
  · exact .inr ⟨h1, h2, himp _ _ h3⟩

lemma asAddseg_spec {thresh : Nat} {kas : Bool} {newlev : SegPtr → Nat} (hlev : ∀ p, newlev p < sslNlevels)
    (h : Represents as (low ++ high)) (hnew : Fits as new) (hnot : new ∉ low ++ high)
    (hcut : CutAt as.stop (as.start new) low high) :
    ∃ as', SameSegs as as' ∧
      ((∃ x ∈ low ++ high, Overlap as.start as.stop new x) ∧
          asAddseg thresh kas newlev as new = some (false, as') ∧ Represents as' (low ++ high) ∨
        (¬ ∃ x ∈ low ++ high, Overlap as.start as.stop new x) ∧
          asAddseg thresh kas newlev as new = some (true, as') ∧ Represents as' (low ++ new :: high)) := by
  have hskip : ∀ as1 lvl, SameSegs as as1 → Skips as1 lvl (low ++ high) →
      ∃ as', SameSegs as as' ∧
        ((∃ x ∈ low ++ high, Overlap as.start as.stop new x) ∧
            sslInsert (newlev new) as1 new = some (false, as') ∧ Represents as' (low ++ high) ∨
          (¬ ∃ x ∈ low ++ high, Overlap as.start as.stop new x) ∧
            sslInsert (newlev new) as1 new = some (true, as') ∧ Represents as' (low ++ new :: high)) := by
    intro as1 lvl hsame hs
    have hfits : Fits as1 new := ⟨by rw [(hsame new).2]; exact hnew.pos, by
      rw [(hsame new).1, (hsame new).2]
      exact hnew.room⟩
    have hcut1 : CutAt as1.stop (as1.start new) low high := by
      rw [hsame.stop_eq, hsame.start_eq]
      exact hcut
    obtain ⟨as', hsame', -, hres⟩ :=
      (sslInsert_spec hs hfits hnot (hlev new) hcut1).imp fun as l hR => (.inr hR : Represents as l)
    rw [hsame.start_eq, hsame.stop_eq] at hres
    exact ⟨as', hsame.trans hsame', hres⟩
  unfold asAddseg
  rcases h.lrep_eq with ⟨hrep, hl⟩ | ⟨hrep, lvl, hs⟩
  · by_cases hmut : thresh ≤ as.nsegs ∧ as.lrep ≠ .skiplist ∧ kas = false
    · obtain ⟨as1, hmutate, hsame, lvl, hs⟩ := asMutateSeglist_spec hlev hl
      rw [if_pos hmut, hmutate, bind_some, if_pos hs.leveled.lrep]
      exact hskip as1 lvl hsame hs
    · rw [if_neg hmut, bind_some, if_neg hrep]
      obtain ⟨as', hsame, -, hres⟩ := (listAdd_spec hl hnew hnot hcut).imp fun as l hR => (.inl hR : Represents as l)
      exact ⟨as', hsame, hres⟩
  · rw [if_neg (by tauto), bind_some, if_pos hrep]
    exact hskip as lvl SameSegs.refl hs

lemma asRemoveseg_spec (h : Represents as (low ++ high)) (hcut : CutAt as.stop addr low high) :
    Removed as (low ++ high) addr Represents (asRemoveseg as addr) := by
  unfold asRemoveseg
  rcases h.lrep_eq with ⟨hrep, hl⟩ | ⟨hrep, lvl, hs⟩
  · rw [if_neg hrep]
    obtain ⟨last, hfind, hlast⟩ : ∃ last, asFindseg as addr false = _ ∧ _ := asFindseg_list hl hcut
    have hk := hl.kept
    have h0 : Listed { as with cache := .seglast last } (low ++ high) :=
      ⟨⟨hk.apart, hk.room, hk.back, hk.nsegs⟩, hl.lrep, hl.chain, ⟨last, rfl, hlast⟩, hl.hilevel⟩
    rw [hfind, bind_some]
    have hstay : (∀ x ∈ high.head?, as.start x ≠ addr) → Removed as (low ++ high) addr Represents
        (some (none, { as with cache := .seglast last })) := by
      intro hhead
      exact ⟨{ as with cache := .seglast last }, SameSegs.refl,
        .inl ⟨start_ne_of_cut hk.apart hcut hhead, rfl, .inl h0⟩⟩
    cases high with
    | nil => exact hstay (by simp)
    | cons p high =>
      rw [foundAt_cons]
      dsimp only
      by_cases hbase : (as.seg p).base = addr
      · rw [if_neg (by simpa using hbase)]
        obtain ⟨as', hun, hsame, hres⟩ := listUnlink_spec h0
        rw [hun]
        exact ⟨as', hsame, .inr ⟨low, p, high, rfl, hbase, rfl, .inl hres⟩⟩
      · rw [if_pos hbase]
        refine hstay fun x hx => ?_
        cases hx
        exact hbase
  · rw [if_pos hrep]
    obtain ⟨as', hsame, hres⟩ := sslRemove_spec hs hcut
    refine ⟨as', hsame, ?_⟩
    rcases hres with ⟨h1, h2, h3⟩ | ⟨low', p, high', h1, h2, h3, h4⟩
    · exact .inl ⟨h1, h2, .inr h3⟩
    · exact .inr ⟨low', p, high', h1, h2, h3, .inr h4⟩

end Calls

section Plain

structure Entry where
  ptr : SegPtr
  base : Nat
  size : Nat
  deriving DecidableEq

def Entry.stop (e : Entry) : Nat := e.base + e.size

/-- The lowest segment whose end is above the address; else the last one when `tail` is set. -/
def plainFind (m : List Entry) (addr : Nat) (tail : Bool) : Option SegPtr :=
  match m.find? fun e => decide (addr < e.stop) with
  | some e => some e.ptr
  | none => if tail then m.getLast?.map Entry.ptr else none

instance (x y : Entry) : Decidable (Overlap Entry.base Entry.stop x y) :=
  inferInstanceAs (Decidable (x.base < y.stop ∧ y.base < x.stop))

/-- The segment goes to its place unless it overlaps one. -/
def plainAdd (m : List Entry) (e : Entry) : Bool × List Entry :=
  if ∃ x ∈ m, Overlap Entry.base Entry.stop e x then (false, m)
  else (true, (m.takeWhile fun x => decide (x.stop ≤ e.base)) ++ e :: m.dropWhile fun x => decide (x.stop ≤ e.base))

def plainRemove (m : List Entry) (addr : Nat) : Option SegPtr × List Entry :=
  ((m.find? fun e => decide (e.base = addr)).map Entry.ptr, m.filter fun e => decide (e.base ≠ addr))

/-- What `ssl_newlevel` makes of a random number. -/
def newlevelLoop : Nat → Nat → Nat → Nat
  | 0, _, newlev => newlev
  | n + 1, r, newlev => if r % 4 = 0 ∧ newlev < sslNlevels then newlevelLoop n (r / 4) (newlev + 1) else newlev

def sslNewlevel (r : Nat) : Nat := newlevelLoop sslNlevels r 1 - 1

/-- A call on the address space. A new segment comes with its memory as it is, and a call that may
insert segments with the random numbers it draws. -/
inductive Call where
  | find (addr : Nat) (tail : Bool)
  | add (new : SegPtr) (seg : Seg) (random : SegPtr → Nat)
  | remove (addr : Nat)

inductive Answer where
  | seg (p : Option SegPtr)
  | added (ok : Bool)

def call (thresh : Nat) (kas : Bool) (as : As) : Call → Option (Answer × As)
  | .find addr tail => (asFindseg as addr tail).map fun r => (.seg r.1, r.2)
  | .add new seg random =>
    (asAddseg thresh kas (fun p => sslNewlevel (random p)) { as with seg := update as.seg new seg } new).map
      fun r => (.added r.1, r.2)
  | .remove addr => (asRemoveseg as addr).map fun r => (.seg r.1, r.2)

def plainCall (m : List Entry) : Call → Answer × List Entry
  | .find addr tail => (.seg (plainFind m addr tail), m)
  | .add new seg _ => let r := plainAdd m ⟨new, seg.base, seg.size⟩; (.added r.1, r.2)
  | .remove addr => let r := plainRemove m addr; (.seg r.1, r.2)

def calls (thresh : Nat) (kas : Bool) : List Call → As → Option (List Answer × As)
  | [], as => some ([], as)
  | c :: cs, as => (call thresh kas as c).bind fun r => (calls thresh kas cs r.2).map fun r' => (r.1 :: r'.1, r'.2)

def plainCalls : List Call → List Entry → List Answer × List Entry
  | [], m => ([], m)
  | c :: cs, m => let r := plainCall m c; let r' := plainCalls cs r.2; (r.1 :: r'.1, r'.2)

/-- A segment that is added is not on the list, is not empty and ends below the top of the address
space. -/
def AllowedCall (m : List Entry) : Call → Prop
  | .add new seg _ => (∀ e ∈ m, e.ptr ≠ new) ∧ 0 < seg.size ∧ seg.base + seg.size < 2 ^ 32
  | _ => True

def Allowed : List Call → List Entry → Prop
  | [], _ => True
  | c :: cs, m => AllowedCall m c ∧ Allowed cs (plainCall m c).2

/-- The address space holds the segments of the plain list: sorted and disjoint, each linked to the
one before, the last one at `a_tail`, as many as `a_nsegs` says. -/
structure Holds (as : As) (m : List Entry) : Prop where
  represents : Represents as (m.map Entry.ptr)
  entries : ∀ e ∈ m, (as.seg e.ptr).base = e.base ∧ (as.seg e.ptr).size = e.size
  apart : Apart Entry.base Entry.stop m
  prev : ∀ pre e post, m = pre ++ e :: post → (as.seg e.ptr).prev = pre.getLast?.map Entry.ptr
  tail : as.tail = m.getLast?.map Entry.ptr
  nsegs : as.nsegs = m.length

end Plain

section Refinement

variable {as as' : As} {m low high : List Entry} {addr : Nat}

lemma newlevelLoop_le {n r k : Nat} (hk : k ≤ sslNlevels) : newlevelLoop n r k ≤ sslNlevels := by
  induction n generalizing r k with
  | zero => exact hk
  | succ n ih =>
    unfold newlevelLoop
    split
    · rename_i hc
      exact ih hc.2
    · exact hk

lemma sslNewlevel_lt (r : Nat) : sslNewlevel r < sslNlevels := by
  have := @newlevelLoop_le sslNlevels r 1 (by decide)
  unfold sslNewlevel
  have : sslNlevels = 4 := rfl
  omega

lemma holds_of_represents (h : Represents as (m.map Entry.ptr))
    (he : ∀ e ∈ m, (as.seg e.ptr).base = e.base ∧ (as.seg e.ptr).size = e.size) : Holds as m := by
  have hk := h.kept
  have hstop : ∀ e ∈ m, as.stop e.ptr = e.stop := by
    intro e hmem
    have hroom := hk.room e.ptr (mem_map_of_mem hmem)
    unfold As.stop Seg.stop Entry.stop
    rw [mod_eq_of_lt hroom, (he e hmem).1, (he e hmem).2]
  refine ⟨h, he, ⟨?_, ?_⟩, ?_, ?_, ?_⟩
  · refine List.Pairwise.imp_of_mem ?_ (pairwise_map.mp hk.apart.ordered)
    intro x y hx hy hle
    rw [hstop x hx] at hle
    exact hle.trans (he y hy).1.le
  · intro e hmem
    have := hk.apart.pos e.ptr (mem_map_of_mem hmem)
    rw [hstop e hmem] at this
    exact (he e hmem).1 ▸ this
  · rintro pre e post rfl
    rw [map_append, map_cons] at hk
    rw [hk.prev_eq, getLast?_map]
  · rw [hk.tail_eq, getLast?_map]
  · rw [hk.nsegs, length_map]

lemma Holds.stop_eq (h : Holds as m) {e : Entry} (he : e ∈ m) : as.stop e.ptr = e.stop := by
  have hroom := h.represents.kept.room e.ptr (mem_map_of_mem he)
  unfold As.stop Seg.stop Entry.stop
  rw [mod_eq_of_lt hroom, (h.entries e he).1, (h.entries e he).2]

lemma Holds.start_eq (h : Holds as m) {e : Entry} (he : e ∈ m) : as.start e.ptr = e.base := (h.entries e he).1

lemma Holds.cut (h : Holds as (low ++ high)) (hcut : CutAt Entry.stop addr low high) :
    CutAt as.stop addr (low.map Entry.ptr) (high.map Entry.ptr) := by
  constructor
  · intro p hp
    obtain ⟨e, he, rfl⟩ := mem_map.mp hp
    rw [h.stop_eq (mem_append_left _ he)]
    exact hcut.low e he
  · intro p hp
    obtain ⟨e, he, rfl⟩ := mem_map.mp hp
    rw [h.stop_eq (mem_append_right _ he)]
    exact hcut.high e he

lemma SameSegs.entries (h : SameSegs as as')
    (he : ∀ e ∈ m, (as.seg e.ptr).base = e.base ∧ (as.seg e.ptr).size = e.size) :
    ∀ e ∈ m, (as'.seg e.ptr).base = e.base ∧ (as'.seg e.ptr).size = e.size := fun e hmem =>
  ⟨(h e.ptr).1.trans (he e hmem).1, (h e.ptr).2.trans (he e hmem).2⟩

lemma plainFind_eq {tail : Bool} (hcut : CutAt Entry.stop addr low high) :
    plainFind (low ++ high) addr tail = foundAt tail (low.map Entry.ptr) (high.map Entry.ptr) := by
  unfold plainFind foundAt
  rw [hcut.find, head?_map, getLast?_map]
  cases high with
  | nil =>
    rw [append_nil]
    cases tail <;> rfl
  | cons e high => simp

lemma find_spec {tail : Bool} (h : Holds as m) :
    ∃ as', asFindseg as addr tail = some (plainFind m addr tail, as') ∧ Holds as' m := by
  obtain ⟨low, high, rfl, hcut⟩ := exists_cut h.apart addr
  have hrep := h.represents
  rw [map_append] at hrep
  obtain ⟨as', hfind, hsame, hres⟩ : ∃ as', asFindseg as addr tail = _ ∧ _ := asFindseg_spec hrep (h.cut hcut)
  rw [plainFind_eq hcut]
  refine ⟨as', hfind, holds_of_represents ?_ (hsame.entries h.entries)⟩
  rw [map_append]
  exact hres

lemma cut_takeWhile (hcut : CutAt Entry.stop addr low high) :
    (low ++ high).takeWhile (fun x => decide (x.stop ≤ addr)) = low ∧
      (low ++ high).dropWhile (fun x => decide (x.stop ≤ addr)) = high := by
  have hlow : ∀ x ∈ low, decide (x.stop ≤ addr) = true := fun x hx => decide_eq_true (hcut.low x hx)
  have hhigh : ∀ x ∈ high, ¬ decide (x.stop ≤ addr) = true := fun x hx => by
    have := hcut.high x hx
    simp
    omega
  rw [takeWhile_append_of_pos hlow, dropWhile_append_of_pos hlow]
  cases high with
  | nil => simp
  | cons e high =>
    have hne := hhigh e (mem_cons_self ..)
    simp only [takeWhile_cons, dropWhile_cons, if_neg hne, append_nil, and_self]

lemma Holds.overlap_iff {new : SegPtr} (h : Holds as m) (e : Entry) (hstart : as.start new = e.base)
    (hstop : as.stop new = e.stop) :
    (∃ x ∈ m.map Entry.ptr, Overlap as.start as.stop new x) ↔ ∃ x ∈ m, Overlap Entry.base Entry.stop e x := by
  have hone : ∀ x ∈ m, Overlap as.start as.stop new x.ptr ↔ Overlap Entry.base Entry.stop e x := by
    intro x hx
    unfold Overlap
    rw [hstart, hstop, h.start_eq hx, h.stop_eq hx]
  constructor
  · rintro ⟨p, hp, hov⟩
    obtain ⟨x, hx, rfl⟩ := mem_map.mp hp
    exact ⟨x, hx, (hone x hx).mp hov⟩
  · rintro ⟨x, hx, hov⟩
    exact ⟨x.ptr, mem_map_of_mem hx, (hone x hx).mpr hov⟩

lemma add_spec {thresh : Nat} {kas : Bool} {new : SegPtr} {newlev : SegPtr → Nat} (h : Holds as m)
    (hlev : ∀ p, newlev p < sslNlevels) (hfresh : ∀ e ∈ m, e.ptr ≠ new) (hfits : Fits as new) :
    ∃ as', asAddseg thresh kas newlev as new =
        some ((plainAdd m ⟨new, (as.seg new).base, (as.seg new).size⟩).1, as') ∧
      Holds as' (plainAdd m ⟨new, (as.seg new).base, (as.seg new).size⟩).2 := by
  have hnot : new ∉ m.map Entry.ptr := by
    intro hmem
    obtain ⟨e, he, heq⟩ := mem_map.mp hmem
    exact hfresh e he heq
  have hstop : as.stop new = (as.seg new).base + (as.seg new).size := mod_eq_of_lt hfits.room
  have hover := h.overlap_iff ⟨new, (as.seg new).base, (as.seg new).size⟩ rfl hstop
  obtain ⟨low, high, rfl, hcut⟩ := exists_cut h.apart (as.seg new).base
  have hrep := h.represents
  rw [map_append] at hrep hnot hover
  obtain ⟨as', hsame, hres⟩ : ∃ as', SameSegs as as' ∧ (_ ∧ asAddseg thresh kas newlev as new = _ ∧ _ ∨ _) :=
    asAddseg_spec hlev hrep hfits hnot (h.cut hcut)
  refine ⟨as', ?_⟩
  unfold plainAdd
  rcases hres with ⟨hyes, hadd, hrep'⟩ | ⟨hno, hadd, hrep'⟩
  · rw [if_pos (hover.mp hyes)]
    refine ⟨hadd, holds_of_represents ?_ (hsame.entries h.entries)⟩
    rw [map_append]
    exact hrep'
  rw [if_neg (mt hover.mpr hno)]
  rw [(cut_takeWhile hcut).1, (cut_takeWhile hcut).2]
  refine ⟨hadd, holds_of_represents ?_ fun e he => ?_⟩
  · rw [map_append, map_cons]
    exact hrep'
  · rcases mem_append.mp he with he | he
    · exact hsame.entries h.entries e (mem_append_left _ he)
    · rcases mem_cons.mp he with rfl | he
      · exact hsame new
      · exact hsame.entries h.entries e (mem_append_right _ he)

lemma remove_spec (h : Holds as m) :
    ∃ as', asRemoveseg as addr = some ((plainRemove m addr).1, as') ∧ Holds as' (plainRemove m addr).2 := by
  obtain ⟨low, high, hm, hcut⟩ := exists_cut h.apart addr
  have hrep := h.represents
  have h' := h
  rw [hm] at h'
  rw [hm, map_append] at hrep
  obtain ⟨as', hsame, hres⟩ := asRemoveseg_spec hrep (h'.cut hcut)
  rw [← map_append, ← hm] at hres
  refine ⟨as', ?_⟩
  unfold plainRemove
  rcases hres with ⟨hnone, hrem, hrep'⟩ | ⟨l1, p, l2, heq, hstart, hrem, hrep'⟩
  · have hall : ∀ e ∈ m, e.base ≠ addr := fun e he => by
      rw [← h.start_eq he]
      exact hnone e.ptr (mem_map_of_mem he)
    have hfind : m.find? (fun e => decide (e.base = addr)) = none := by
      rw [find?_eq_none]
      intro e he
      simpa using hall e he
    have hfilter : m.filter (fun e => decide (e.base ≠ addr)) = m := by
      rw [filter_eq_self]
      intro e he
      simpa using hall e he
    rw [hfind, hfilter]
    exact ⟨hrem, holds_of_represents hrep' (hsame.entries h.entries)⟩
  · obtain ⟨m1, mrest, rfl, rfl, hmap⟩ := map_eq_append_iff.mp heq
    obtain ⟨e, m2, rfl, rfl, rfl⟩ := map_eq_cons_iff.mp hmap
    have hbase : e.base = addr := by rw [← hstart, h.start_eq (by simp)]
    have hothers : ∀ x ∈ m1 ++ m2, x.base ≠ addr := fun x hx => hbase ▸ h.apart.start_ne hx
    have hfind : (m1 ++ e :: m2).find? (fun e => decide (e.base = addr)) = some e := by
      rw [find?_append, find?_cons_of_pos (by simpa using hbase)]
      have hnone : m1.find? (fun e => decide (e.base = addr)) = none := by
        rw [find?_eq_none]
        intro x hx
        simpa using hothers x (mem_append_left _ hx)
      rw [hnone]
      rfl
    have hfilter : (m1 ++ e :: m2).filter (fun e => decide (e.base ≠ addr)) = m1 ++ m2 := by
      rw [filter_append, filter_cons_of_neg (by simpa using hbase)]
      congr 1
      · rw [filter_eq_self]
        intro x hx
        simpa using hothers x (mem_append_left _ hx)
      · rw [filter_eq_self]
        intro x hx
        simpa using hothers x (mem_append_right _ hx)
    rw [hfind, hfilter]
    refine ⟨hrem, holds_of_represents ?_ fun x hx => hsame.entries h.entries x ?_⟩
    · rw [map_append]
      exact hrep'
    · rcases mem_append.mp hx with hx | hx
      · exact mem_append_left _ hx
      · exact mem_append_right _ (mem_cons_of_mem _ hx)

theorem call_spec {thresh : Nat} {kas : Bool} {c : Call} (h : Holds as m) (hc : AllowedCall m c) :
    ∃ as', call thresh kas as c = some ((plainCall m c).1, as') ∧ Holds as' (plainCall m c).2 := by
  cases c with
  | find addr tail =>
    obtain ⟨as', hfind, hres⟩ : ∃ as', asFindseg as addr tail = _ ∧ _ := find_spec h
    refine ⟨as', ?_, hres⟩
    change (asFindseg as addr tail).map _ = _
    rw [hfind]
    rfl
  | remove addr =>
    obtain ⟨as', hrem, hres⟩ : ∃ as', asRemoveseg as addr = _ ∧ _ := remove_spec h
    refine ⟨as', ?_, hres⟩
    change (asRemoveseg as addr).map _ = _
    rw [hrem]
    rfl
  | add new seg random =>
    obtain ⟨hfresh, hpos, hroom⟩ := hc
    have hself : (As.seg { as with seg := update as.seg new seg }) new = seg := update_self ..
    have hnot : new ∉ m.map Entry.ptr := by
      intro hmem
      obtain ⟨e, he, heq⟩ := mem_map.mp hmem
      exact hfresh e he heq
    have h0 : Holds { as with seg := update as.seg new seg } m := by
      refine holds_of_represents (h.represents.write hnot) fun e he => ?_
      dsimp only
      rw [update_of_ne (hfresh e he)]
      exact h.entries e he
    change ∃ as', (asAddseg thresh kas (fun p => sslNewlevel (random p))
      { as with seg := update as.seg new seg } new).map (fun r => (Answer.added r.1, r.2)) =
        some ((plainCall m (.add new seg random)).1, as') ∧ Holds as' (plainCall m (.add new seg random)).2
    generalize { as with seg := update as.seg new seg } = as0 at h0 hself ⊢
    subst hself
    obtain ⟨as', hadd, hres⟩ : ∃ as', asAddseg thresh kas (fun p => sslNewlevel (random p)) as0 new = _ ∧ _ :=
      add_spec h0 (fun p => sslNewlevel_lt (random p)) hfresh ⟨hpos, hroom⟩
    refine ⟨as', ?_, hres⟩
    rw [hadd]
    rfl

lemma calls_spec {thresh : Nat} {kas : Bool} {cs : List Call} (h : Holds as m) (hc : Allowed cs m) :
    ∃ as', calls thresh kas cs as = some ((plainCalls cs m).1, as') ∧ Holds as' (plainCalls cs m).2 := by
  induction cs generalizing as m with
  | nil => exact ⟨as, rfl, h⟩
  | cons c cs ih =>
    obtain ⟨as1, hone, h1⟩ : ∃ as', call thresh kas as c = _ ∧ _ := call_spec h hc.1
    obtain ⟨as', hrest, h'⟩ := ih h1 hc.2
    refine ⟨as', ?_, h'⟩
    unfold calls
    rw [hone, bind_some, hrest]
    rfl

lemma holds_asAlloc (seg : SegPtr → Seg) (ssl : SslPtr → Nat → Link) : Holds (asAlloc seg ssl) [] := by
  refine holds_of_represents (.inl ⟨⟨⟨List.Pairwise.nil, by simp⟩, by simp, chain_nil rfl, rfl⟩, rfl,
    chain_nil rfl, ⟨none, rfl, by simp⟩, rfl⟩) (by simp)

theorem seglist_refines_plain (thresh : Nat) (kas : Bool) (seg : SegPtr → Seg) (ssl : SslPtr → Nat → Link)
    (cs : List Call) (hc : Allowed cs []) :
    ∃ as, calls thresh kas cs (asAlloc seg ssl) = some ((plainCalls cs []).1, as) ∧ Holds as (plainCalls cs []).2 :=
  calls_spec (holds_asAlloc seg ssl) hc

instance (m : List Entry) : (c : Call) → Decidable (AllowedCall m c)
  | .find _ _ => isTrue trivial
  | .remove _ => isTrue trivial
  | .add new seg _ =>
    inferInstanceAs (Decidable ((∀ e ∈ m, e.ptr ≠ new) ∧ 0 < seg.size ∧ seg.base + seg.size < 2 ^ 32))

def decideAllowed : (cs : List Call) → (m : List Entry) → Decidable (Allowed cs m)
  | [], _ => isTrue trivial
  | c :: cs, m =>
    have := decideAllowed cs (plainCall m c).2
    inferInstanceAs (Decidable (AllowedCall m c ∧ Allowed cs (plainCall m c).2))

instance (cs : List Call) (m : List Entry) : Decidable (Allowed cs m) := decideAllowed cs m

def noSeg : Seg := ⟨0, 0, .list none, none⟩

/-- Three segments with the change into a skiplist at the third, an overlap, searches and a removal. -/
def threeSegs : List Call :=
  [.add 1 { noSeg with base := 0x1000, size := 0x1000 } fun _ => 0,
    .add 2 { noSeg with base := 0x8000, size := 0x1000 } fun _ => 1,
    .add 3 { noSeg with base := 0x4000, size := 0x2000 } fun p => 4 * p,
    .add 4 { noSeg with base := 0x5000, size := 0x4000 } fun _ => 0,
    .find 0x2000 false, .find 0x9000 true, .remove 0x4000, .find 0x2000 false, .remove 0x1800]

theorem seglist_refines_plain_threeSegs : ∃ as,
    calls 2 false threeSegs (asAlloc (fun _ => noSeg) fun _ _ => .null) =
      some ([.added true, .added true, .added true, .added false, .seg (some 3), .seg (some 2), .seg (some 3),
        .seg (some 2), .seg none], as) ∧ Holds as [⟨1, 0x1000, 0x1000⟩, ⟨2, 0x8000, 0x1000⟩] := by
  obtain ⟨as, hrun, hholds⟩ :=
    seglist_refines_plain 2 false (fun _ => noSeg) (fun _ _ => .null) threeSegs (by decide +kernel)
  exact ⟨as, hrun, hholds⟩

end Refinement

end Solaris.Vm
