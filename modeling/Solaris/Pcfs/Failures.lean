import Solaris.Pcfs.Walks

/-!
# Allocations that fail

`pc_balloc` links one cluster after the other before it knows that all of them can be had, and `pc_bfree` counts the
clusters of a file by its size.
-/

namespace Solaris.Fat

variable {fs fs' : Pcfs} {c cn clsize lcn : Nat} {pcp : Pcnode} {bad : Nat → Bool} {cs : List Nat} {e : Errno}

/-- The chain from `cn` has the clusters `cs`. -/
def ChainOf (fs : Pcfs) : Nat → List Nat → Prop
  | cn, [] => PCF_LASTCLUSTER ≤ cn
  | cn, c :: cs => cn = c ∧ fs.Valid c ∧ ChainOf fs (pcGetcluster fs c) cs

/-- `cs` are the clusters of a regular file, as many as its size needs. -/
structure FileChain (fs : Pcfs) (clsize : Nat) (pcp : Pcnode) (cs : List Nat) : Prop where
  regular : pcp.dir = false
  count : (cs.length : Int) = howmany pcp.size clsize
  empty : cs = [] ↔ pcp.size = 0
  nodup : cs.Nodup
  chain : cs ≠ [] → ChainOf fs pcp.scluster cs

/-- The table can hold the number of every cluster, and none of them is reserved. -/
def Formatted (fs : Pcfs) : Prop :=
  fs.ncluster + PCF_FIRSTCLUSTER ≤ if fs.fat16 then PCF_RESCLUSTER else PCF_12BCLUSTER

/-- What was free is free, and what is neither free nor one of `cs` is as it was. -/
structure Restored (fs fs' : Pcfs) (cs : List Nat) : Prop where
  free : ∀ c, fs.Valid c → pcGetcluster fs c = PCF_FREECLUSTER → pcGetcluster fs' c = PCF_FREECLUSTER
  others : ∀ c, fs.Valid c → pcGetcluster fs c ≠ PCF_FREECLUSTER → c ∉ cs → pcGetcluster fs' c = pcGetcluster fs c

/-- The block is out of range, or the first search for a cluster finds none. -/
def Unspent (fs : Pcfs) (lcn : Int) : Prop := lcn < 0 ∨ fs.ncluster ≤ lcn ∨ NoneFree fs

/-- What an allocation that fails leaves: links and clusters in use stay, and a cluster is lost unless none was free. -/
structure Failed (fs fs' : Pcfs) : Prop where
  kept : ∀ c, pcGetcluster fs c ≠ PCF_FREECLUSTER → pcGetcluster fs c < PCF_LASTCLUSTER →
    pcGetcluster fs' c = pcGetcluster fs c
  used : ∀ c, pcGetcluster fs c ≠ PCF_FREECLUSTER → pcGetcluster fs' c ≠ PCF_FREECLUSTER
  lost : NoneFree fs ∨ ∃ c, fs.Valid c ∧ pcGetcluster fs c = PCF_FREECLUSTER ∧ pcGetcluster fs' c ≠ PCF_FREECLUSTER

lemma Formatted.valid (hf : Formatted fs) (hc : fs.Valid c) : fs.Allowed c ∧ c < PCF_LASTCLUSTER ∧ c ≠ PCF_FREECLUSTER := by
  obtain ⟨hlow, hlt⟩ := hc
  unfold Formatted at hf
  unfold Pcfs.Allowed
  unfold PCF_FIRSTCLUSTER PCF_RESCLUSTER PCF_12BCLUSTER PCF_LASTCLUSTER PCF_FREECLUSTER at *
  cases hfat : fs.fat16 with
  | true =>
    rw [hfat, if_pos rfl] at hf
    exact ⟨⟨by omega, .inl rfl⟩, by omega, by omega⟩
  | false =>
    rw [hfat, if_neg Bool.false_ne_true] at hf
    exact ⟨⟨by omega, .inr (.inl (by omega))⟩, by omega, by omega⟩

lemma set_last_used (d : Nat) (hd : pcGetcluster fs d ≠ PCF_FREECLUSTER) :
    pcGetcluster (pcSetcluster fs c PCF_LASTCLUSTER) d ≠ PCF_FREECLUSTER := by
  rw [pcGetcluster_set allowed_last]
  split_ifs
  · decide
  · exact hd

lemma Taken.failed {t : Pcfs} (h : Taken fs t c) : Failed fs (pcSetcluster fs c PCF_LASTCLUSTER) := by
  refine ⟨fun d hd _ => ?_, set_last_used, .inr ⟨c, h.valid, h.free, ?_⟩⟩
  · rw [pcGetcluster_set allowed_last, if_neg fun heq : d = c => hd (heq ▸ h.free)]
  · rw [pcGetcluster_set allowed_last, if_pos rfl]
    decide

lemma failed_none (h : NoneFree fs) : Failed fs fs := ⟨fun _ _ _ => rfl, fun _ hd => hd, .inl h⟩

/-- A failure after a cluster has been taken, which hangs behind `cn` or begins a file. -/
lemma Failed.after {t : Pcfs} (hrest : Failed t fs') (hc : fs.Valid c) (hfree : pcGetcluster fs c = PCF_FREECLUSTER)
    (hlast : pcGetcluster t c = PCF_LASTCLUSTER) (hused : ∀ d, pcGetcluster fs d ≠ PCF_FREECLUSTER →
      pcGetcluster t d ≠ PCF_FREECLUSTER ∧ (pcGetcluster fs d < PCF_LASTCLUSTER → pcGetcluster t d = pcGetcluster fs d)) :
    Failed fs fs' := by
  refine ⟨fun d hd hlt => ?_, fun d hd => hrest.used d (hused d hd).1, .inr ⟨c, hc, hfree, hrest.used c ?_⟩⟩
  · have hsame := (hused d hd).2 hlt
    rw [hrest.kept d (hsame ▸ hd) (hsame ▸ hlt), hsame]
  · rw [hlast]
    decide

lemma Formatted.congr {t : Pcfs} (hf : Formatted fs) (hfat : t.fat16 = fs.fat16) (hn : t.ncluster = fs.ncluster) :
    Formatted t := by
  rw [Formatted, hfat, hn]
  exact hf

/-- At the last cluster of a file every turn takes a cluster, up to the one that fails. -/
lemma ballocLoop_failed (hf : Formatted fs) (h : InRange fs) (hcn : fs.Valid cn)
    (hlast : PCF_LASTCLUSTER ≤ pcGetcluster fs cn) (hr : ballocLoop bad lcn fs cn = some (.error e, fs')) :
    Failed fs fs' := by
  induction lcn generalizing fs cn with
  | zero => cases hr
  | succ lcn ih =>
    rcases ballocLoop_extend h hcn hlast hr with ⟨c, t, hlink, hr⟩ | ⟨c, e', heq, ⟨_, htaken⟩, _⟩ | ⟨⟨e', heq⟩, _, hnone⟩
    · obtain ⟨_, htaken⟩ := hlink.taken
      obtain ⟨hallowed, _, hne⟩ := hf.valid htaken.valid
      have hrest := ih (hf.congr hlink.fat16 hlink.ncluster) hlink.range
        (htaken.valid.imp_right (hlink.ncluster ▸ ·)) hlink.last.ge hr
      refine hrest.after htaken.valid htaken.free hlink.last fun d hd => ?_
      have hdc : d ≠ c := fun heq => hd (heq ▸ htaken.free)
      obtain rfl | hdcn := eq_or_ne d cn
      · rw [hlink.link hallowed]
        exact ⟨hne, fun hlt => absurd hlast (Nat.not_le.mpr hlt)⟩
      · rw [hlink.rest d hdc hdcn]
        exact ⟨hd, fun _ => rfl⟩
    · cases heq
      exact htaken.failed
    · cases heq
      exact failed_none hnone

lemma ChainOf.used (hchain : ChainOf fs cn cs) : ∀ c ∈ cs, pcGetcluster fs c ≠ PCF_FREECLUSTER := by
  induction cs generalizing cn with
  | nil => simp
  | cons c cs ih =>
    obtain ⟨rfl, _, hrest⟩ := hchain
    refine List.forall_mem_cons.mpr ⟨fun heq => ?_, ih hrest⟩
    rw [heq] at hrest
    cases cs with
    | nil =>
      have hle : PCF_LASTCLUSTER ≤ PCF_FREECLUSTER := hrest
      exact absurd hle (by decide)
    | cons d cs => exact absurd (hrest.1 ▸ hrest.2.1.1 : PCF_FIRSTCLUSTER ≤ PCF_FREECLUSTER) (by decide)

lemma ChainOf.inner (hf : Formatted fs) (hchain : ChainOf fs cn cs) :
    ∀ c ∈ cs.dropLast, pcGetcluster fs c < PCF_LASTCLUSTER := by
  induction cs generalizing cn with
  | nil => simp
  | cons c cs ih =>
    obtain ⟨rfl, _, hrest⟩ := hchain
    cases cs with
    | nil => simp
    | cons d cs =>
      rw [List.dropLast_cons_cons]
      exact List.forall_mem_cons.mpr ⟨hrest.1 ▸ (hf.valid hrest.2.1).2.1, ih hrest⟩

/-- The walk comes to the last cluster of the file, and goes on from there. -/
lemma ChainOf.failed (hf : Formatted fs) (h : InRange fs) (hchain : ChainOf fs cn cs) (hne : cs ≠ [])
    (hr : ballocLoop bad lcn fs cn = some (.error e, fs')) : Failed fs fs' := by
  induction cs generalizing cn lcn with
  | nil => exact absurd rfl hne
  | cons c cs ih =>
    obtain ⟨rfl, hc, hrest⟩ := hchain
    cases cs with
    | nil => exact ballocLoop_failed hf h hc hrest hr
    | cons d cs =>
      obtain ⟨hlt, -⟩ := (hf.valid hrest.2.1).2
      cases lcn with
      | zero => cases hr
      | succ lcn =>
        rw [ballocLoop, getcluster_valid hc, Option.bind_some, hrest.1, if_neg (Nat.not_le.mpr hlt),
          if_pos hrest.2.1] at hr
        exact ih (hrest.1 ▸ hrest) (by simp) hr

/-- When no cluster is free, the table is left alone. -/
lemma ballocLoop_none (h : InRange fs) (hnone : NoneFree fs) (hr : ballocLoop bad lcn fs cn = some (.error e, fs')) :
    fs' = fs := by
  induction lcn generalizing cn with
  | zero => cases hr
  | succ lcn ih =>
    by_cases hcn : fs.Valid cn
    · by_cases hlast : PCF_LASTCLUSTER ≤ pcGetcluster fs cn
      · rcases ballocLoop_extend h hcn hlast hr with ⟨c, t, hlink, _⟩ | ⟨c, _, _, ⟨_, ht⟩, _⟩ | ⟨⟨e', heq⟩, _⟩
        · obtain ⟨_, ht⟩ := hlink.taken
          exact absurd ht.free (hnone c ht.above ht.valid)
        · exact absurd ht.free (hnone c ht.above ht.valid)
        · cases heq
          rfl
      · rw [ballocLoop, getcluster_valid hcn, Option.bind_some, if_neg hlast] at hr
        split_ifs at hr
        · exact ih hr
        · cases hr
          rfl
    · rw [ballocLoop, getcluster, if_neg hcn] at hr
      cases hr

section

variable {lcn : Int} {zwrite : Bool} {scluster : Nat} (h : InRange fs) (hfile : FileChain fs clsize pcp cs)
  (hfail : pcBalloc fs pcp lcn zwrite bad = some ((.error e, fs'), scluster))

include h hfile hfail

/-- A call that fails has searched for the first cluster of a file, or gone on behind the last one. -/
lemma pcBalloc_cases : ((lcn < 0 ∨ fs.ncluster ≤ lcn) ∧ fs' = fs ∧ scluster = pcp.scluster) ∨
    (¬ (lcn < 0 ∨ fs.ncluster ≤ lcn) ∧ cs = [] ∧ ((∃ c t bad n, Taken fs t c ∧ ballocLoop bad n t c = some (.error e, fs')) ∨
      (∃ c t, Taken fs t c ∧ fs' = pcSetcluster fs c PCF_LASTCLUSTER) ∨ fs' = fs ∧ NoneFree fs)) ∨
    (¬ (lcn < 0 ∨ fs.ncluster ≤ lcn) ∧ cs ≠ [] ∧ scluster = pcp.scluster ∧ ∃ bad n, ballocLoop bad n fs pcp.scluster = some (.error e, fs')) := by
  unfold pcBalloc at hfail
  dsimp only at hfail
  split_ifs at hfail with hneg hbig hnew hcn
  · cases hfail
    exact .inl ⟨.inl hneg, rfl, rfl⟩
  · cases hfail
    exact .inl ⟨.inr hbig, rfl, rfl⟩
  · have hsize : pcp.size = 0 := by
      rcases hnew with hnew | hnew
      · exact hnew.2
      · rw [hfile.regular] at hnew
        cases hnew.1
    refine .inr (.inl ⟨not_or.mpr ⟨hneg, hbig⟩, hfile.empty.mpr hsize, ?_⟩)
    obtain ⟨⟨ans, t⟩, ha, hr⟩ := Option.bind_eq_some_iff.mp hfail
    rcases allocZeroed_cases h ha with ⟨c, hok, htaken⟩ | ⟨c, e', heq, ⟨_, htaken⟩, _⟩ | ⟨⟨e', heq⟩, _, hnone⟩
    · cases hok
      obtain ⟨q, hq, heq⟩ := Option.map_eq_some_iff.mp hr
      cases heq
      exact .inl ⟨_, t, _, _, htaken, hq⟩
    · cases heq
      cases hr
      exact .inr (.inl ⟨c, _, htaken, rfl⟩)
    · cases heq
      cases hr
      exact .inr (.inr ⟨rfl, hnone⟩)
  · obtain ⟨q, hq, heq⟩ := Option.map_eq_some_iff.mp hfail
    cases heq
    refine .inr (.inr ⟨not_or.mpr ⟨hneg, hbig⟩, fun hcs => hnew (.inl ⟨hfile.regular, hfile.empty.mp hcs⟩), rfl, _, _, hq⟩)
  · have hcs : cs ≠ [] := fun hcs => hnew (.inl ⟨hfile.regular, hfile.empty.mp hcs⟩)
    have hchain := hfile.chain hcs
    cases cs with
    | nil => exact absurd rfl hcs
    | cons c cs => exact absurd (hchain.1 ▸ hchain.2.1) hcn

lemma pcBalloc_unspent (hunspent : Unspent fs lcn) : fs' = fs ∧ (cs ≠ [] → scluster = pcp.scluster) := by
  have hnone : ¬ (lcn < 0 ∨ fs.ncluster ≤ lcn) → NoneFree fs := fun hin =>
    (hunspent.resolve_left fun hneg => hin (.inl hneg)).resolve_left fun hbig => hin (.inr hbig)
  rcases pcBalloc_cases h hfile hfail with ⟨_, hsame, hsc⟩ | ⟨hin, hcs, hcases⟩ | ⟨hin, hcs, hsc, bad, n, hr⟩
  · exact ⟨hsame, fun _ => hsc⟩
  · refine ⟨?_, fun hne => absurd hcs hne⟩
    rcases hcases with ⟨c, t, bad, n, ht, _⟩ | ⟨c, t, ht, _⟩ | ⟨hsame, _⟩
    · exact absurd ht.free (hnone hin c ht.above ht.valid)
    · exact absurd ht.free (hnone hin c ht.above ht.valid)
    · exact hsame
  · exact ⟨ballocLoop_none h (hnone hin) hr, fun _ => hsc⟩

lemma pcBalloc_failed (hf : Formatted fs) (hspent : ¬ Unspent fs lcn) :
    Failed fs fs' ∧ (cs ≠ [] → scluster = pcp.scluster) := by
  rcases pcBalloc_cases h hfile hfail with ⟨hout, _⟩ | ⟨_, hcs, hcases⟩ | ⟨_, hcs, hsc, bad, n, hr⟩
  · exact absurd (hout.imp_right .inl) hspent
  · refine ⟨?_, fun hne => absurd hcs hne⟩
    rcases hcases with ⟨c, t, bad, n, ht, hr⟩ | ⟨c, t, ht, rfl⟩ | ⟨rfl, hnone⟩
    · obtain ⟨hfat, hn, _⟩ := ht.same
      have hlast : pcGetcluster t c = PCF_LASTCLUSTER := by rw [ht.get, if_pos rfl]
      have hrest := ballocLoop_failed (hf.congr hfat hn) ht.inRange (ht.valid.imp_right (hn ▸ ·)) hlast.ge hr
      refine hrest.after ht.valid ht.free hlast fun d hd => ?_
      rw [ht.get, if_neg fun heq : d = c => hd (heq ▸ ht.free)]
      exact ⟨hd, fun _ => rfl⟩
    · exact ht.failed
    · exact failed_none hnone
  · exact ⟨(hfile.chain hcs).failed hf h hcs hr, fun _ => hsc⟩

end

/-- As many turns as the file has clusters free these and no others. -/
lemma bfreeLoop_chain {r : Except Errno Unit × Pcfs} (hreg : pcp.dir = false) (hchain : ChainOf fs cn cs) (hnd : cs.Nodup)
    (hkept : ∀ c ∈ cs.dropLast, pcGetcluster fs' c = pcGetcluster fs c)
    (hr : bfreeLoop pcp cs.length fs' cn 0 = some r) (d : Nat) :
    pcGetcluster r.2 d = pcGetcluster fs' d ∨ d ∈ cs ∧ pcGetcluster r.2 d = PCF_FREECLUSTER := by
  induction cs generalizing fs' cn with
  | nil =>
    cases hr
    exact .inl rfl
  | cons c cs ih =>
    obtain ⟨rfl, _, hrest⟩ := hchain
    obtain ⟨hnotin, hnd⟩ := List.nodup_cons.mp hnd
    have hset : ∀ d, pcGetcluster (pcSetcluster fs' cn PCF_FREECLUSTER) d =
        if d = cn then PCF_FREECLUSTER else pcGetcluster fs' d := fun d =>
      pcGetcluster_set ⟨by decide, .inr (.inl (by decide))⟩
    rw [List.length_cons, bfreeLoop] at hr
    by_cases hcn : fs'.Valid cn
    · rw [if_pos hcn, getcluster_valid hcn, Option.bind_some, if_pos rfl, setcluster, if_pos hcn, Option.bind_some,
        if_neg (by rw [hreg]; simp)] at hr
      have hstep : pcGetcluster r.2 d = pcGetcluster (pcSetcluster fs' cn PCF_FREECLUSTER) d ∨
          d ∈ cs ∧ pcGetcluster r.2 d = PCF_FREECLUSTER := by
        cases cs with
        | nil =>
          cases hr
          exact .inl rfl
        | cons c cs =>
          rw [List.dropLast_cons_cons, List.forall_mem_cons] at hkept
          refine ih (hkept.1 ▸ hrest) hnd (fun x hx => ?_) hr
          rw [hset, if_neg fun heq : x = cn => hnotin (heq ▸ List.mem_of_mem_dropLast hx)]
          exact hkept.2 x hx
      rcases hstep with heq | ⟨hin, hfree⟩
      · rw [heq, hset]
        split_ifs with hd
        · exact .inr ⟨hd ▸ List.mem_cons_self .., rfl⟩
        · exact .inl rfl
      · exact .inr ⟨List.mem_cons_of_mem _ hin, hfree⟩
    · rw [if_neg hcn] at hr
      cases hr
      exact .inl rfl

lemma howmany_lt (x : Int) (y : Nat) : howmany x y < 2 ^ 32 := by
  have hle := Int.natAbs_tdiv_le_natAbs ((x + ((y : Int) - 1)).bmod (2 ^ 32)) y
  have hlow := Int.le_bmod (x := x + ((y : Int) - 1)) (m := 2 ^ 32) (by decide)
  have hhigh := Int.bmod_lt (x := x + ((y : Int) - 1)) (m := 2 ^ 32) (by decide)
  unfold howmany
  omega

lemma FileChain.pcBfree {r : Except Errno Unit × Pcfs} {scluster scluster' : Nat} (hfile : FileChain fs clsize pcp cs)
    (hkept : ∀ c ∈ cs.dropLast, pcGetcluster fs' c = pcGetcluster fs c) (hsc : cs ≠ [] → scluster = pcp.scluster)
    (hr : pcBfree fs' clsize { pcp with scluster } 0 = some (r, scluster')) (d : Nat) :
    pcGetcluster r.2 d = pcGetcluster fs' d ∨ d ∈ cs ∧ pcGetcluster r.2 d = PCF_FREECLUSTER := by
  unfold Fat.pcBfree at hr
  dsimp only at hr
  rw [hfile.regular, if_neg Bool.false_ne_true] at hr
  split_ifs at hr with hzero hmany hskip
  · cases hr
    exact .inl rfl
  · cases hr
    exact .inl rfl
  · obtain ⟨q, hq, heq⟩ := Option.map_eq_some_iff.mp hr
    cases heq
    have hne : cs ≠ [] := fun hcs => hzero ⟨hfile.empty.mp hcs, rfl⟩
    have hlt := howmany_lt pcp.size clsize
    rw [← hfile.count] at hq hlt
    rw [Int.emod_eq_of_lt (Int.natCast_nonneg _) hlt, Int.toNat_natCast, hsc hne] at hq
    exact bfreeLoop_chain rfl (hfile.chain hne) hfile.nodup hkept hq d
  · exact absurd rfl hskip

/-- A file of one cluster; the other cluster is another file's. -/
def full : Pcfs := ⟨true, 2, fun _ => 0xFF, 3, false⟩

end Solaris.Fat
