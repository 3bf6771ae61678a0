import Solaris.Ndbm.Directory
import Mathlib.Data.Nat.Bitwise

/-!
# Splitting a page and storing a pair

A split moves the pairs of a page that have one more bit of their hash set to a new page. `dbm_store` splits the page of
its key until there is room on it.
-/

namespace Solaris.Ndbm

open Lib Dbm List Function Option

def Dbm.clearerr (db : Dbm) : Dbm := { db with ioerr := false }

section Loop

variable {s : Split} {keyHash k : Nat}

lemma and_two_pow_ne_zero (n k : Nat) : n &&& 2 ^ k ≠ 0 ↔ n.testBit k = true := by
  rw [Nat.and_two_pow]
  cases n.testBit k with
  | false => simp
  | true => simp

def moves (k : Nat) (kv : Bytes × Bytes) : Bool := (dcalchash kv.1).testBit k

theorem splitLoop_spec (k keyHash : Nat) (rest kept moved : Pairs) (fuel : Nat) (s : Split)
    (hpage : PageOf s.page (flat (kept ++ rest))) (hovf : PageOf s.ovfbuf (flat moved)) (hfuel : rest.length < fuel)
    (hroom : 2 * ((flat moved).length + (flat rest).length + 1) + (size (flat moved) + size (flat rest)) < PBLKSIZ) :
    ∃ s', splitLoop (2 ^ k - 1) keyHash fuel (2 * kept.length) s = some s' ∧
      PageOf s'.page (flat (kept ++ rest.filter fun kv => !moves k kv)) ∧
      PageOf s'.ovfbuf (flat (moved ++ rest.filter (moves k))) ∧
      s'.hashdiff = s.hashdiff + rest.countP (fun kv => dcalchash kv.1 ≠ keyHash) ∧ s'.err = s.err := by
  have hpow : 2 ^ k - 1 + 1 = 2 ^ k := Nat.sub_add_cancel (Nat.two_pow_pos k)
  induction rest generalizing kept moved fuel s with
  | nil =>
    cases fuel with
    | zero => cases hfuel
    | succ fuel =>
      have hend : makdatum s.page (2 * kept.length) = none := hpage.makdatum_end (by simp)
      rw [splitLoop, hend]
      exact ⟨s, rfl, by simpa using hpage, by simpa using hovf, rfl, rfl⟩
  | cons kv rest ih =>
    cases fuel with
    | zero => cases hfuel
    | succ fuel =>
      have hkey : makdatum s.page (2 * kept.length) = some kv.1 := hpage.makdatum_key
      have hdat : makdatum s.page (2 * kept.length + 1) = some kv.2 := hpage.makdatum_dat
      have hcount : ∀ hd, (if dcalchash kv.1 ≠ keyHash then hd + 1 else hd) +
          rest.countP (fun kv => dcalchash kv.1 ≠ keyHash) =
          hd + (kv :: rest).countP (fun kv => dcalchash kv.1 ≠ keyHash) := by
        intro hd
        rw [countP_cons]
        by_cases heq : dcalchash kv.1 = keyHash
        · simp [heq]
        · simp [heq]
          omega
      simp only [flat, length_cons, size_cons] at hroom
      rw [splitLoop, hkey]
      dsimp only
      rw [hpow]
      by_cases hbit : moves k kv = true
      · rw [if_pos ((and_two_pow_ne_zero _ _).mpr hbit), hdat]
        dsimp only
        obtain ⟨ovf', hadd, hovf'⟩ := hovf.add (show Fits _ kv.1 kv.2 by unfold Fits; omega)
        obtain ⟨page', hdel, hpage'⟩ := hpage.delete
        rw [hadd, hdel]
        dsimp only
        obtain ⟨s', hrun, h1, h2, h3, h4⟩ := ih kept (moved ++ [kv]) fuel
          ⟨page', ovf', if dcalchash kv.1 ≠ keyHash then s.hashdiff + 1 else s.hashdiff, s.err⟩ hpage' hovf'
          (by simpa using hfuel) (by simp only [flat_append, flat, length_append, length_cons, length_nil,
            size_append, size_cons, size_nil]; omega)
        refine ⟨s', hrun, ?_, ?_, ?_, h4⟩
        · simpa [hbit] using h1
        · rw [filter_cons_of_pos hbit]
          simpa using h2
        · rw [h3]
          exact hcount s.hashdiff
      · rw [if_neg (mt (and_two_pow_ne_zero _ _).mp hbit)]
        have hlen : 2 * kept.length + 2 = 2 * (kept ++ [kv]).length := by
          simp
          omega
        have hpage' : PageOf s.page (flat ((kept ++ [kv]) ++ rest)) := by
          rw [append_assoc, singleton_append]
          exact hpage
        rw [hlen]
        obtain ⟨s', hrun, h1, h2, h3, h4⟩ := ih (kept ++ [kv]) moved fuel
          { s with hashdiff := if dcalchash kv.1 ≠ keyHash then s.hashdiff + 1 else s.hashdiff } hpage' hovf
          (by simpa using hfuel) (by omega)
        refine ⟨s', hrun, ?_, ?_, ?_, h4⟩
        · rw [filter_cons_of_pos (by simpa using hbit)]
          simpa using h1
        · rw [filter_cons_of_neg hbit]
          exact h2
        · rw [h3]
          exact hcount s.hashdiff

end Loop

section Split

variable {db db' : Dbm} {content : Nat → Pairs} {m : Bytes → Option Bytes} {k hash : Nat} {ps : Pairs}

/-- The pairs after a split of the page `b` at level `k`. -/
def splitContent (content : Nat → Pairs) (b k : Nat) (ps : Pairs) : Nat → Pairs :=
  update (update content b (ps.filter fun kv => !moves k kv)) (b + 2 ^ k) (ps.filter (moves k))

lemma splitContent_new (b k : Nat) : splitContent content b k ps (b + 2 ^ k) = ps.filter (moves k) :=
  update_self ..

lemma splitContent_old (b k : Nat) : splitContent content b k ps b = ps.filter fun kv => !moves k kv := by
  unfold splitContent
  rw [update_of_ne (by have := Nat.two_pow_pos k; omega), update_self]

lemma splitContent_other {b k c : Nat} (h1 : c ≠ b) (h2 : c ≠ b + 2 ^ k) : splitContent content b k ps c = content c := by
  unfold splitContent
  rw [update_of_ne h2, update_of_ne h1]

variable (hacc : Accessed db content hash k)
  (hsub : ∀ kv ∈ ps, kv ∈ content (hash % 2 ^ k)) (hnd : (ps.map Prod.fst).Nodup)

include hacc hsub in
lemma Accessed.mod_eq {kv : Bytes × Bytes} (hkv : kv ∈ ps) : dcalchash kv.1 % 2 ^ k = hash % 2 ^ k := by
  obtain ⟨j, hleaf, heq⟩ := hacc.holds.home _ kv (hsub kv hkv)
  have hj : j = k := hleaf.level_eq hacc.leaf heq
  rwa [hj] at heq

include hacc in
lemma Denotes.split (hm : Denotes (update content (hash % 2 ^ k) ps) m) :
    Denotes (splitContent content (hash % 2 ^ k) k ps) m := by
  have hempty : content (hash % 2 ^ k + 2 ^ k) = [] := by
    rw [eq_nil_iff_forall_not_mem]
    intro kv hkv
    obtain ⟨j, hleaf, heq⟩ := hacc.holds.home _ kv hkv
    exact hacc.leaf.new_ne hleaf heq
  have hpos := Nat.two_pow_pos k
  intro key v
  rw [hm key v]
  constructor
  · rintro ⟨b, hb⟩
    by_cases hbb : b = hash % 2 ^ k
    · rw [hbb, update_self] at hb
      cases hmv : moves k (key, v) with
      | false =>
        refine ⟨hash % 2 ^ k, ?_⟩
        rw [splitContent_old, mem_filter]
        exact ⟨hb, by simp [hmv]⟩
      | true =>
        refine ⟨hash % 2 ^ k + 2 ^ k, ?_⟩
        rw [splitContent_new, mem_filter]
        exact ⟨hb, hmv⟩
    · rw [update_of_ne hbb] at hb
      have hne : b ≠ hash % 2 ^ k + 2 ^ k := by
        rintro rfl
        rw [hempty] at hb
        cases hb
      refine ⟨b, ?_⟩
      rwa [splitContent_other hbb hne]
  · rintro ⟨b, hb⟩
    by_cases hb1 : b = hash % 2 ^ k
    · rw [hb1, splitContent_old] at hb
      refine ⟨hash % 2 ^ k, ?_⟩
      rw [update_self]
      exact mem_of_mem_filter hb
    by_cases hb2 : b = hash % 2 ^ k + 2 ^ k
    · rw [hb2, splitContent_new] at hb
      refine ⟨hash % 2 ^ k, ?_⟩
      rw [update_self]
      exact mem_of_mem_filter hb
    · rw [splitContent_other hb1 hb2] at hb
      refine ⟨b, ?_⟩
      rwa [update_of_ne hb1]

include hacc hsub hnd in
lemma Accessed.split_holds {page ovf : Block} (hc : Cached db')
    (hsplit : db'.IsSplit = splitNode db.IsSplit k (hash % 2 ^ k)) (hk : k ≤ 20) (hio : db'.ioerr = false)
    (hpages : db'.page = update (update db.page (hash % 2 ^ k) page) (hash % 2 ^ k + 2 ^ k) ovf)
    (hpage : PageOf page (flat (ps.filter fun kv => !moves k kv))) (hovf : PageOf ovf (flat (ps.filter (moves k)))) :
    Holds db' (splitContent content (hash % 2 ^ k) k ps) := by
  have hpos := Nat.two_pow_pos k
  have hleaf := hacc.leaf
  have hcl := hacc.holds.closed
  have hne : hash % 2 ^ k ≠ hash % 2 ^ k + 2 ^ k := by omega
  refine ⟨hc, ?_, ?_, ?_, ?_, ?_, hio⟩
  · rw [hsplit]
    exact splitNode_closed hcl hleaf
  · unfold Shallow
    rw [hsplit]
    rintro j b (hs | ⟨rfl, -⟩)
    · exact hacc.holds.shallow j b hs
    · exact hk
  · rw [hsplit, hpages]
    intro g j hg
    by_cases hgk : g % 2 ^ k = hash % 2 ^ k
    · have hj := hg.unique (hleaf.split_self hcl hgk)
      subst hj
      rcases mod_two_pow_succ_cases hgk with ⟨-, heq⟩ | ⟨-, heq⟩
      · rw [heq, splitContent_old, update_of_ne hne, update_self]
        exact hpage
      · rw [heq, splitContent_new, update_self]
        exact hovf
    obtain ⟨j', -, hg'⟩ := exists_leaf hacc.holds.shallow g
    have hj := hg.unique (hleaf.split_other hg' hgk)
    subst hj
    have hne1 : g % 2 ^ j ≠ hash % 2 ^ k := by
      intro heq
      have := hg'.level_eq hleaf heq
      subst this
      exact hgk heq
    have hne2 := hleaf.new_ne hg'
    rw [splitContent_other hne1 hne2, update_of_ne hne2, update_of_ne hne1]
    exact hacc.holds.pages g j hg'
  · intro b
    by_cases hb1 : b = hash % 2 ^ k
    · rw [hb1, splitContent_old]
      exact hnd.sublist (filter_sublist.map _)
    · by_cases hb2 : b = hash % 2 ^ k + 2 ^ k
      · rw [hb2, splitContent_new]
        exact hnd.sublist (filter_sublist.map _)
      · rw [splitContent_other hb1 hb2]
        exact hacc.holds.nodup b
  · intro b kv hkv
    rw [hsplit]
    by_cases hb1 : b = hash % 2 ^ k
    · rw [hb1, splitContent_old, mem_filter] at hkv
      have hmod := hacc.mod_eq hsub hkv.1
      refine ⟨k + 1, hleaf.split_self hcl hmod, ?_⟩
      rcases mod_two_pow_succ_cases hmod with ⟨-, heq⟩ | ⟨hbit, -⟩
      · rw [heq, hb1]
      · simp [moves, hbit] at hkv
    by_cases hb2 : b = hash % 2 ^ k + 2 ^ k
    · rw [hb2, splitContent_new, mem_filter] at hkv
      have hmod := hacc.mod_eq hsub hkv.1
      refine ⟨k + 1, hleaf.split_self hcl hmod, ?_⟩
      rcases mod_two_pow_succ_cases hmod with ⟨hbit, -⟩ | ⟨-, heq⟩
      · simp [moves, hbit] at hkv
      · rw [heq, hb2]
    rw [splitContent_other hb1 hb2] at hkv
    obtain ⟨j, hg, heq⟩ := hacc.holds.home b kv hkv
    refine ⟨j, hleaf.split_other hg ?_, heq⟩
    intro hgk
    have hj := hg.unique (hleaf.of_mod_eq hgk)
    subst hj
    exact hb1 (heq.symm.trans hgk)

include hacc hsub hnd in
lemma Accessed.split {buf : Block} (hbuf : PageOf buf (flat ps)) :
    (∃ db', Dbm.split { db with pagbuf := buf } hash = (.failed .io, db')) ∨
      ∃ db', Dbm.split { db with pagbuf := buf } hash =
          (if ∃ kv ∈ ps, dcalchash kv.1 ≠ hash then (.ok, db') else db'.fail .collision) ∧ k ≤ 20 ∧ db'.rdonly = db.rdonly ∧
        Holds db' (splitContent content (hash % 2 ^ k) k ps) ∧ LeafAt db'.IsSplit hash (k + 1) := by
  have hpos := Nat.two_pow_pos k
  have hmod : hash % 2 ^ k < 2 ^ k := Nat.mod_lt _ hpos
  have hlt : hash % 2 ^ k < 2 ^ 21 := leaf_lt hacc.level
  have hle : 2 ^ k ≤ 2 ^ 21 := Nat.pow_le_pow_right (by decide) hacc.level
  have hc := hacc.holds.cached
  have hroom := hbuf.room
  obtain ⟨s, hrun, hpage, hovf, hcount, herr⟩ := splitLoop_spec k hash ps [] [] (sp buf 0 + 1) ⟨buf, zeroBlock, 0, false⟩
    hbuf pageOf_zeroBlock (by rw [hbuf.count, length_flat]; omega)
    (by simp only [flat, length_nil, size_nil, Nat.zero_add]; exact hroom)
  rw [nil_append] at hpage hovf
  have herr' : s.err = false := herr
  have hdiff : s.hashdiff = 0 ↔ ¬∃ kv ∈ ps, dcalchash kv.1 ≠ hash := by
    rw [hcount]
    simp
  have hnew : hash % 2 ^ k + (2 ^ k - 1) + 1 = hash % 2 ^ k + 2 ^ k := by omega
  unfold Dbm.split
  simp only [hacc.at_.hmask, hacc.at_.blkno]
  rw [length_nil, Nat.mul_zero] at hrun
  rw [hrun]
  simp only [Dbm.writePage, seek_of_lt hlt, hnew]
  cases hseek : seek (hash % 2 ^ k + 2 ^ k) with
  | none => exact Or.inl ⟨_, rfl⟩
  | some b' =>
    have hlow := lt_of_seek (by omega) hseek
    rw [seek_of_lt hlow] at hseek
    have hb' := some.inj hseek
    subst hb'
    have hk : k ≤ 20 := by
      by_contra hgt
      have : 2 ^ 21 ≤ 2 ^ k := Nat.pow_le_pow_right (by decide) (by omega)
      omega
    set db1 : Dbm := { db with
      ioerr := db.ioerr || s.err
      dirty := false
      hmask := 2 ^ k - 1
      blkno := hash % 2 ^ k
      pagbno := some (hash % 2 ^ k)
      pagbuf := s.page
      pagf := (db.pagf.write (hash % 2 ^ k) s.page).write (hash % 2 ^ k + 2 ^ k) s.ovfbuf } with hdb1
    refine Or.inr ⟨db1.setbit, ?_, hk, ?_⟩
    · by_cases hd : ∃ kv ∈ ps, dcalchash kv.1 ≠ hash
      · exact (if_neg fun hzero => hdiff.mp hzero hd).trans (if_pos hd).symm
      · exact (if_pos (hdiff.mpr hd)).trans (if_neg hd).symm
    have hpage1 : db1.page = update (update db.page (hash % 2 ^ k) s.page) (hash % 2 ^ k + 2 ^ k) s.ovfbuf := by
      funext c
      by_cases hc1 : c = hash % 2 ^ k
      · subst hc1
        rw [update_of_ne (by omega), update_self, Dbm.page, if_pos rfl]
      have hne1 : ¬some (hash % 2 ^ k) = some c := fun heq => hc1 (some.inj heq).symm
      rw [Dbm.page, if_neg hne1]
      by_cases hc2 : c = hash % 2 ^ k + 2 ^ k
      · subst hc2
        rw [update_self]
        exact File.read_write_self _ _ _
      · rw [update_of_ne hc2, update_of_ne hc1, Dbm.page, hacc.pagbno, if_neg hne1]
        exact (File.read_write_ne _ _ hc2).trans (File.read_write_ne _ _ hc1)
    have hc1 : Cached db1 := by
      refine ⟨?_, ?_, fun hf => absurd hf Bool.false_ne_true, hc.dirClean, hc.dirDirty, hc.maxbno⟩
      · intro c hcb
        rwa [← some.inj hcb]
      · intro c hcb _
        rw [← some.inj hcb]
        exact ((File.read_write_ne _ _ (by omega)).trans (File.read_write_self _ _ _)).symm
    have hat1 : At db1 hash k := ⟨rfl, hacc.at_.bitno, rfl⟩
    obtain ⟨hc2, hpage2, hro2, hio2, -⟩ := hc1.setbit
    have hsplit2 : db1.setbit.IsSplit = splitNode db.IsSplit k (hash % 2 ^ k) := hat1.setbit hc1
    have hio1 : db1.ioerr = false := by
      rw [hdb1]
      simp [hacc.holds.ioerr, herr']
    refine ⟨hro2, ?_, ?_⟩
    · exact hacc.split_holds hsub hnd hc2 hsplit2 hk (hio2.trans hio1) (hpage2.trans hpage1) hpage hovf
    · rw [hsplit2]
      exact hacc.leaf.split_self hacc.holds.closed rfl

end Split

section Store

variable {db : Dbm} {content : Nat → Pairs} {m : Bytes → Option Bytes} {key dat : Bytes} {replace : Bool} {keys : Set Bytes}

def KeysIn (content : Nat → Pairs) (keys : Set Bytes) : Prop := ∀ b kv, kv ∈ content b → kv.1 ∈ keys

/-- What a store leaves: the old map when the key was there and is not to be replaced, and the new map else. -/
structure Stored (m : Bytes → Option Bytes) (key dat : Bytes) (replace : Bool) (keys : Set Bytes) (r : Result × Dbm) : Prop where
  rdonly : r.2.rdonly = false
  result : r.1 = if m key ≠ none ∧ replace = false then .present else .ok
  contents : ∃ content, Holds r.2 content ∧ KeysIn content keys ∧
    Denotes content (if m key ≠ none ∧ replace = false then m else update m key (some dat))

lemma Accessed.without {k : Nat} (hacc : Accessed db content (dcalchash key) k) (hm : Denotes content m) :
    ∃ buf ps, (finddatum db.pagbuf key).elim (some db.pagbuf) (delitem db.pagbuf) = some buf ∧ PageOf buf (flat ps) ∧
      ps.Sublist (content (dcalchash key % 2 ^ k)) ∧ (∀ kv ∈ ps, kv.1 ≠ key) ∧
      Denotes (update content (dcalchash key % 2 ^ k) ps) (update m key none) ∧
      (finddatum db.pagbuf key ≠ none ↔ m key ≠ none) := by
  have hmem := hacc.holds.mem_iff hm hacc.leaf
  have hpage := hacc.page
  rcases hpage.finddatum key with ⟨hnone, hall⟩ | ⟨pre, v, post, hps, hfind⟩
  · have hm0 : m key = none := by
      cases hv : m key with
      | none => rfl
      | some v => exact absurd rfl (hall _ ((hmem v).mp hv))
    refine ⟨db.pagbuf, content (dcalchash key % 2 ^ k), by rw [hnone]; rfl, hpage, List.Sublist.refl _, hall, ?_, ?_⟩
    · rw [update_eq_self, ← hm0, update_eq_self]
      exact hm
    · rw [hnone, hm0]
      simp
  · rw [hps] at hpage
    obtain ⟨buf, hdel, hbuf⟩ := hpage.delete
    have hsub : (pre ++ post).Sublist (content (dcalchash key % 2 ^ k)) := by
      rw [hps]
      exact List.Sublist.append_left (sublist_cons_self _ _) _
    have hden := hm.erase hacc hps
    refine ⟨buf, pre ++ post, by rw [hfind]; exact hdel, hbuf, hsub, ?_, hden, ?_⟩
    · intro kv hkv heq
      have := (hden key kv.2).mpr ⟨dcalchash key % 2 ^ k, by rw [update_self, ← heq]; exact hkv⟩
      rw [update_self] at this
      cases this
    · rw [hfind, (hmem v).mpr (by rw [hps]; simp)]
      simp

/-- Whatever pairs of the map have the hash of the key, the new pair fits on a page with them. -/
def HasRoom (m : Bytes → Option Bytes) (key dat : Bytes) : Prop :=
  ∀ others : Pairs, others.Nodup →
    (∀ kv ∈ others, m kv.1 = some kv.2 ∧ kv.1 ≠ key ∧ dcalchash kv.1 = dcalchash key) → Fits (flat others) key dat

/-- A store ends as it should, or is refused because there is no room for the pair. -/
inductive Ends (m : Bytes → Option Bytes) (key dat : Bytes) (replace : Bool) (r : Result × Dbm) : Prop where
  | done (content : Nat → Pairs) (result : r.1 = if m key ≠ none ∧ replace = false then .present else .ok)
      (holds : Holds r.2 content)
      (denotes : Denotes content (if m key ≠ none ∧ replace = false then m else update m key (some dat)))
  | refused (asked : ¬(m key ≠ none ∧ replace = false))
      (result : (r.1 = .failed .nospace ∧ PBLKSIZ ≤ key.length + dat.length + 3 * 2) ∨
        (r.1 = .failed .collision ∧ ∃ kv : Bytes × Bytes, m kv.1 = some kv.2 ∧ kv.1 ≠ key ∧ dcalchash kv.1 = dcalchash key))
      (noroom : ¬HasRoom m key dat)
      (kept : m key = none → ∃ content, Holds r.2.clearerr content ∧ Denotes content m)
      (lost : (r.2.clearerr.fetch key).1 = none)

lemma fail_clearerr (h : db.ioerr = false) (f : Failure) : (db.fail f).2.clearerr = db := by
  cases db
  cases h
  rfl

lemma walk_pagbuf (hash j hmask : Nat) (buf : Block) : walk hash j hmask { db with pagbuf := buf } =
    { walk hash j hmask db with pagbuf := buf } ∧ (walk hash j hmask db).pagbno = db.pagbno := by
  have hbit : ∀ (db : Dbm) n, Dbm.testbit { db with pagbuf := buf } n =
      ((db.testbit n).1, { (db.testbit n).2 with pagbuf := buf }) ∧ (db.testbit n).2.pagbno = db.pagbno := by
    intro db n
    unfold Dbm.testbit Dbm.loadDir Dbm.flushdir
    dsimp only
    split_ifs <;> (try split) <;> exact ⟨rfl, rfl⟩
  induction j generalizing hmask db with
  | zero => exact ⟨rfl, rfl⟩
  | succ j ih =>
    obtain ⟨hsame, hbno⟩ := hbit db ((hash &&& hmask) + hmask)
    rw [walk, walk, hsame]
    dsimp only
    split
    · obtain ⟨hwalk, hbno'⟩ := @ih { (db.testbit ((hash &&& hmask) + hmask)).2 with
        blkno := hash &&& hmask, bitno := (hash &&& hmask) + hmask, hmask := hmask } (hmask * 2 + 1)
      exact ⟨hwalk, hbno'.trans hbno⟩
    · exact ⟨rfl, hbno⟩

/-- A key that is not in the buffer of its page is not found, whatever the file holds. -/
lemma Accessed.fetch_none {k : Nat} {buf : Block} {ps : Pairs} (hacc : Accessed db content (dcalchash key) k)
    (hbuf : PageOf buf (flat ps)) (hnot : ∀ kv ∈ ps, kv.1 ≠ key) : (Dbm.fetch { db with pagbuf := buf } key).1 = none := by
  obtain ⟨hwalk, hbno⟩ := @walk_pagbuf db (dcalchash key) 32 0 buf
  obtain ⟨-, -, hat⟩ := hacc.holds.cached.walk hacc.leaf 32 0 (Nat.zero_le k) (by have := hacc.level; omega)
  have hpage : (walk (dcalchash key) 32 0 db).pagbno = some (walk (dcalchash key) 32 0 db).blkno := by
    rw [hbno, hacc.pagbno]
    exact congrArg some hat.blkno.symm
  have hsame : Dbm.access { db with pagbuf := buf } (dcalchash key) =
      { walk (dcalchash key) 32 0 db with pagbuf := buf } := by
    unfold Dbm.access
    rw [hwalk]
    exact if_pos hpage
  have hnone : finddatum buf key = none := by
    rcases hbuf.finddatum key with ⟨hnone, -⟩ | ⟨pre, v, post, rfl, -⟩
    · exact hnone
    · exact absurd rfl (hnot (key, v) (by simp))
  unfold Dbm.fetch
  rw [hsame]
  dsimp only
  rw [hnone, hacc.holds.ioerr]
  rfl

lemma HasRoom.erase (h : HasRoom m key dat) : HasRoom (update m key none) key dat := by
  intro others hnd hmem
  refine h others hnd fun kv hkv => ?_
  obtain ⟨hv, hne, hhash⟩ := hmem kv hkv
  rw [update_of_ne hne] at hv
  exact ⟨hv, hne, hhash⟩

lemma Ends.of_erase {r : Result × Dbm} (h : Ends (update m key none) key dat replace r)
    (hcond : ¬(m key ≠ none ∧ replace = false)) : Ends m key dat replace r := by
  have hnew : ¬(update m key none key ≠ none ∧ replace = false) := by
    rw [update_self]
    exact fun hand => hand.1 rfl
  cases h with
  | done content result holds denotes =>
    rw [if_neg hnew] at result denotes
    rw [update_idem] at denotes
    refine .done content ?_ holds ?_
    · rw [if_neg hcond]
      exact result
    · rw [if_neg hcond]
      exact denotes
  | refused asked result noroom kept lost =>
    refine .refused hcond (result.imp_right ?_) (fun hroom => noroom hroom.erase) ?_ lost
    · rintro ⟨hres, kv, hv, hne, hhash⟩
      rw [update_of_ne hne] at hv
      exact ⟨hres, kv, hv, hne, hhash⟩
    · intro hnone
      rw [update_self, ← hnone, update_eq_self] at kept
      exact kept rfl

lemma not_hasRoom_of_large (h : PBLKSIZ ≤ key.length + dat.length + 3 * 2) : ¬HasRoom m key dat := by
  intro hroom
  have hfit := hroom [] nodup_nil (by simp)
  simp only [Fits, flat, length_nil, size_nil] at hfit
  omega

lemma size_flat (ps : Pairs) : size (flat ps) = (ps.map fun kv => kv.1.length + kv.2.length).sum := by
  induction ps with
  | nil => rfl
  | cons kv ps ih =>
    rw [flat, size_cons, size_cons, ih, map_cons, sum_cons, add_assoc]

/-- A pair that is stored shares a page with all pairs of its hash. -/
lemma Holds.hasRoom (h : Holds db content) (hm : Denotes content (update m key (some dat))) : HasRoom m key dat := by
  intro others hnd hmem
  obtain ⟨k, -, hleaf⟩ := exists_leaf h.shallow (dcalchash key)
  have hpage := (h.pages _ k hleaf).room
  have hin : ∀ kv ∈ (key, dat) :: others, kv ∈ content (dcalchash key % 2 ^ k) := by
    refine forall_mem_cons.mpr ⟨(h.mem_iff hm hleaf dat).mp (update_self ..), fun kv hkv => ?_⟩
    obtain ⟨hv, hne, hhash⟩ := hmem kv hkv
    rw [← hhash] at hleaf ⊢
    exact (h.mem_iff hm hleaf kv.2).mp ((update_of_ne hne ..).trans hv)
  have hnew : ((key, dat) :: others).Nodup := nodup_cons.mpr ⟨fun hkv => (hmem _ hkv).2.1 rfl, hnd⟩
  obtain ⟨l, hperm, hsub⟩ := hnew.subperm hin
  obtain ⟨l', hall⟩ := hsub.exists_perm_append
  replace hall := hall.trans (hperm.append_right l')
  have hlen := hall.length_eq
  have hsum := (hall.map fun kv : Bytes × Bytes => kv.1.length + kv.2.length).sum_nat
  rw [length_append, length_cons] at hlen
  rw [map_append, sum_append_nat, map_cons, sum_cons, ← size_flat, ← size_flat] at hsum
  rw [length_flat] at hpage
  rw [Fits, length_flat]
  dsimp only at hsum
  omega

lemma Holds.storeLoop (fuel k : Nat) (hk : k ≤ 21) (hfuel : 22 - k ≤ fuel) (h : Holds db content) (hm : Denotes content m)
    (hro : db.rdonly = false) (hleaf : LeafAt db.IsSplit (dcalchash key) k)
    (hio : (Dbm.storeLoop key dat replace fuel db).1 ≠ .failed .io) :
    (Dbm.storeLoop key dat replace fuel db).2.rdonly = false ∧
      Ends m key dat replace (Dbm.storeLoop key dat replace fuel db) := by
  induction fuel generalizing k db content m with
  | zero => omega
  | succ fuel ih =>
    obtain ⟨hacc, hro'⟩ := h.access hk hleaf
    rw [hro] at hro'
    obtain ⟨buf, ps, hdel, hbuf, hsub, hnot, hden, hfound⟩ := hacc.without hm
    have hnd := (hacc.holds.nodup (dcalchash key % 2 ^ k)).sublist (hsub.map Prod.fst)
    rw [Dbm.storeLoop] at hio ⊢
    dsimp only at hio ⊢
    by_cases hpres : finddatum (db.access (dcalchash key)).pagbuf key ≠ none ∧ replace = false
    · have hcond : m key ≠ none ∧ replace = false := ⟨hfound.mp hpres.1, hpres.2⟩
      rw [if_pos hpres]
      refine ⟨hro', .done content (by rw [if_pos hcond]) hacc.holds ?_⟩
      rw [if_pos hcond]
      exact hm
    have hcond : ¬(m key ≠ none ∧ replace = false) := fun hc => hpres ⟨hfound.mpr hc.1, hc.2⟩
    rw [if_neg hpres, hdel] at hio ⊢
    dsimp only at hio ⊢
    by_cases hfit : Fits (flat ps) key dat
    · obtain ⟨buf', hadd, hbuf'⟩ := hbuf.add hfit
      rw [hadd]
      dsimp only
      have hnd' : ((ps ++ [(key, dat)]).map Prod.fst).Nodup := by
        rw [map_append, nodup_append]
        refine ⟨hnd, nodup_singleton _, ?_⟩
        intro x hx y hy heq
        obtain ⟨kv, hkv, rfl⟩ := mem_map.mp hx
        rw [map_singleton, mem_singleton] at hy
        exact hnot kv hkv (heq.trans hy)
      have hhome : ∀ kv ∈ ps ++ [(key, dat)], kv ∈ content (dcalchash key % 2 ^ k) ∨ dcalchash kv.1 = dcalchash key :=
        forall_mem_append.mpr ⟨fun _ hkv => .inl (hsub.subset hkv), forall_mem_singleton.mpr (.inr rfl)⟩
      obtain ⟨db', hwb, hholds, hro''⟩ := hacc.writeBack hbuf' hnd' hhome
      have hwb' : Dbm.writeBack { db.access (dcalchash key) with pagbuf := buf' } = (.ok, db') := hwb
      rw [hwb']
      refine ⟨hro''.trans hro', .done _ (by rw [if_neg hcond]) hholds ?_⟩
      rw [if_neg hcond]
      have hadd := hden.add (b := dcalchash key % 2 ^ k) (update_self ..) dat
      rwa [update_self, update_idem, update_idem] at hadd
    · rw [hbuf.additem_none hfit] at hio ⊢
      dsimp only at hio ⊢
      by_cases hlarge : key.length + dat.length + 3 * 2 ≥ PBLKSIZ
      · rw [if_pos hlarge]
        refine ⟨hro', .refused hcond (.inl ⟨rfl, hlarge⟩) (not_hasRoom_of_large hlarge) (fun hnone => ?_) ?_⟩
        swap
        · have hclear := @fail_clearerr { db.access (dcalchash key) with pagbuf := buf } hacc.holds.ioerr .nospace
          exact (congrArg (fun db => (Dbm.fetch db key).1) hclear).trans (hacc.fetch_none hbuf hnot)
        have hsame : some (db.access (dcalchash key)).pagbuf = some buf := by
          rw [← hdel, not_not.mp fun hne => hfound.mp hne hnone]
          rfl
        rw [← some.inj hsame]
        exact ⟨content, (fail_clearerr hacc.holds.ioerr _).symm ▸ hacc.holds, hm⟩
      rw [if_neg hlarge] at hio ⊢
      rcases hacc.split (fun kv hkv => hsub.subset hkv) hnd hbuf with
        ⟨db', hsplit⟩ | ⟨db', hsplit, hk', hro2, hholds, hleaf'⟩
      · rw [hsplit] at hio
        exact absurd rfl hio
      have hm' := hden.split hacc
      by_cases hdiff : ∃ kv ∈ ps, dcalchash kv.1 ≠ dcalchash key
      · -- there are other hashes on the page, and the key goes down one level
        rw [hsplit, if_pos hdiff] at hio ⊢
        obtain ⟨hro3, hends⟩ := ih (k + 1) (by omega) (by omega) hholds hm' (hro2.trans hro') hleaf' hio
        exact ⟨hro3, hends.of_erase hcond⟩
      rw [hsplit, if_neg hdiff]
      have hsame : ∀ kv ∈ ps, m kv.1 = some kv.2 ∧ kv.1 ≠ key ∧ dcalchash kv.1 = dcalchash key := by
        intro kv hkv
        have hv := (hden kv.1 kv.2).mpr ⟨dcalchash key % 2 ^ k, by rw [update_self]; exact hkv⟩
        rw [update_of_ne (hnot kv hkv)] at hv
        exact ⟨hv, hnot kv hkv, not_not.mp fun hne => hdiff ⟨kv, hkv, hne⟩⟩
      refine ⟨hro2.trans hro', .refused hcond (.inr ⟨rfl, ?_⟩) (fun hroom => hfit (hroom ps hnd.of_map hsame)) ?_ ?_⟩
      · cases ps with
        | nil =>
          refine absurd ?_ hfit
          simp only [Fits, flat, length_nil, size_nil]
          omega
        | cons kv ps => exact ⟨kv, hsame kv mem_cons_self⟩
      · intro hnone
        rw [← hnone, update_eq_self] at hm'
        exact ⟨_, (fail_clearerr hholds.ioerr _).symm ▸ hholds, hm'⟩
      · have hclear := fail_clearerr hholds.ioerr .collision
        refine (congrArg (fun db => (Dbm.fetch db key).1) hclear).trans ?_
        rw [(hholds.fetch hm' key).1, update_self]

lemma Holds.store_ends (h : Holds db content) (hm : Denotes content m) (hro : db.rdonly = false)
    (hio : (db.store key dat replace).1 ≠ .failed .io) :
    (db.store key dat replace).2.rdonly = false ∧ Ends m key dat replace (db.store key dat replace) := by
  obtain ⟨k, hk, hleaf⟩ := exists_leaf h.shallow (dcalchash key)
  unfold Dbm.store at hio ⊢
  rw [h.ioerr, hro] at hio ⊢
  simp only [Bool.false_eq_true, if_false] at hio ⊢
  exact h.storeLoop 33 k hk (by omega) hm hro hleaf hio

lemma Holds.store (h : Holds db content) (hinj : Set.InjOn dcalchash keys) (hkey : key ∈ keys)
    (hK : KeysIn content keys) (hm : Denotes content m) (hro : db.rdonly = false)
    (hio : (db.store key dat replace).1 ≠ .failed .io) (hspace : (db.store key dat replace).1 ≠ .failed .nospace) :
    Stored m key dat replace keys (db.store key dat replace) := by
  have hmK : ∀ {key' v}, m key' = some v → key' ∈ keys := by
    intro key' v hv
    obtain ⟨b, hb⟩ := (hm key' v).mp hv
    exact hK b _ hb
  obtain ⟨hro', hends⟩ := h.store_ends hm hro hio
  cases hends with
  | done content' result holds denotes =>
    refine ⟨hro', result, content', holds, fun b kv hkv => ?_, denotes⟩
    have hv := (denotes kv.1 kv.2).mpr ⟨b, hkv⟩
    split_ifs at hv
    · exact hmK hv
    · by_cases heq : kv.1 = key
      · rw [heq]
        exact hkey
      · rw [update_of_ne heq] at hv
        exact hmK hv
  | refused asked result =>
    rcases result with ⟨hres, -⟩ | ⟨-, kv, hv, hne, hhash⟩
    · exact absurd hres hspace
    · exact absurd (hinj (hmK hv) hkey hhash) hne

end Store

end Solaris.Ndbm
