import Solaris.Pcfs.Fat

/-!
# Walks along the chain of a file

The root directory has no chain. A walk is `none` when `pc_getcluster` panics or the turns do not suffice.
-/

namespace Solaris.Fat

open Function

inductive Errno where
  | enoent
  | eio
  | enospc
  | efbig

structure Pcnode where
  dir : Bool
  size : Int
  scluster : Nat

def howmany (x y : Int) : Int := ((x + (y - 1)).bmod (2 ^ 32)).tdiv y

/-- `pc_setcluster` and its panic. -/
def setcluster (fs : Pcfs) (cn ncn : Nat) : Option Pcfs := if fs.Valid cn then some (pcSetcluster fs cn ncn) else none

section Walks

variable (fs : Pcfs) (clsize : Nat) (pcp : Pcnode)

def bmapLoop (lcn cn : Nat) : Option (Except Errno (Nat × Nat)) :=
  if fs.Valid cn then
    (getcluster fs cn).bind fun ncn =>
      match lcn with
      | 0 => some (.ok (cn, ncn))
      | lcn + 1 => bmapLoop lcn ncn
  else some (.error (if PCF_LASTCLUSTER ≤ cn ∧ pcp.dir then .enoent else .eio))

def contigLoop (want : Nat) : Nat → Nat → Nat → Nat → Option Nat
  | 0, _, _, _ => none
  | fuel + 1, cn, ncn, count =>
    if cn + 1 = ncn ∧ count < want ∧ fs.Valid ncn then
      (getcluster fs ncn).bind fun next => contigLoop want fuel ncn next ((count + clsize) % 2 ^ 32)
    else some count

/-- `pc_bmap`; `contig` is 0 when it is not wanted. -/
def pcBmap (lcn : Int) (contig : Nat) : Option (Except Errno (Nat × Nat)) :=
  if lcn < 0 ∨ fs.ncluster ≤ lcn then some (.error .enoent)
  else if pcp.dir = false ∧ (pcp.size = 0 ∨ howmany pcp.size clsize ≤ lcn) then some (.error .enoent)
  else
    (bmapLoop fs pcp lcn.toNat pcp.scluster).bind fun
      | .error e => some (.error e)
      | .ok (cn, ncn) =>
        (if clsize < contig then contigLoop fs clsize contig (2 ^ 17) cn ncn clsize else some contig).map fun count =>
          .ok (cn, count)

/-- `pc_alloccluster` with what `pc_balloc` makes of its answer, when zeroes cannot be written to the clusters of `bad`. -/
def allocZeroed (bad : Nat → Bool) : Option (Except Errno Nat × Pcfs) :=
  (pcAlloccluster fs).map fun r =>
    if r.1 = PCF_FREECLUSTER then (.error .enospc, r.2)
    else if bad r.1 then (.error .eio, pcSetcluster fs r.1 PCF_LASTCLUSTER) else (.ok r.1, r.2)

def ballocLoop (bad : Nat → Bool) : Nat → Pcfs → Nat → Option (Except Errno Nat × Pcfs)
  | 0, fs, cn => some (.ok cn, fs)
  | lcn + 1, fs, cn =>
    (getcluster fs cn).bind fun ncn =>
      if PCF_LASTCLUSTER ≤ ncn then
        (allocZeroed fs bad).bind fun
          | (.error e, fs) => some (.error e, fs)
          | (.ok ncn, fs) => (setcluster fs cn ncn).bind fun fs => ballocLoop bad lcn fs ncn
      else if fs.Valid ncn then ballocLoop bad lcn fs ncn else some (.error .eio, fs)

/-- `pc_balloc`: the answer, the table and the first cluster. -/
def pcBalloc (lcn : Int) (zwrite : Bool) (bad : Nat → Bool) : Option ((Except Errno Nat × Pcfs) × Nat) :=
  let walk (fs : Pcfs) (cn : Nat) := (ballocLoop (fun c => zwrite && bad c) lcn.toNat fs cn).map (·, cn)
  if lcn < 0 then some ((.error .efbig, fs), pcp.scluster)
  else if fs.ncluster ≤ lcn then some ((.error .enospc, fs), pcp.scluster)
  else if (pcp.dir = false ∧ pcp.size = 0) ∨ (pcp.dir = true ∧ lcn = 0) then
    (allocZeroed fs bad).bind fun
      | (.error e, fs) => some ((.error e, fs), pcp.scluster)
      | (.ok cn, fs) => walk fs cn
  else if fs.Valid pcp.scluster then walk fs pcp.scluster else some ((.error .eio, fs), pcp.scluster)

def bfreeLoop : Nat → Pcfs → Nat → Nat → Option (Except Errno Unit × Pcfs)
  | 0, fs, _, _ => some (.ok (), fs)
  | n + 1, fs, cn, skipcl =>
    if fs.Valid cn then
      (getcluster fs cn).bind fun ncn =>
        (if skipcl = 0 then setcluster fs cn PCF_FREECLUSTER
          else if skipcl = 1 then setcluster fs cn PCF_LASTCLUSTER else some fs).bind fun fs =>
        if PCF_LASTCLUSTER ≤ ncn ∧ pcp.dir then some (.ok (), fs) else bfreeLoop n fs ncn (skipcl - 1)
    else some (.error .eio, fs)

/-- `pc_bfree`; `while (n--)` has `n` turns, modulo 2 ^ 32 when `n` is negative. -/
def pcBfree (skipcl : Nat) : Option ((Except Errno Unit × Pcfs) × Nat) :=
  let n : Int := if pcp.dir then fs.ncluster else howmany pcp.size clsize
  if pcp.size = 0 ∧ pcp.dir = false then some ((.ok (), fs), pcp.scluster)
  else if fs.ncluster < n then some ((.error .eio, fs), pcp.scluster)
  else
    (bfreeLoop pcp (n % 2 ^ 32).toNat fs pcp.scluster skipcl).map
      (·, if skipcl = 0 then PCF_LASTCLUSTER else pcp.scluster)

def pcFileclsize : Nat → Nat → Nat → Option Nat
  | 0, _, _ => none
  | fuel + 1, cn, count =>
    if fs.Valid cn then (getcluster fs cn).bind fun ncn => pcFileclsize fuel ncn (count + 1) else some count

end Walks

variable {fs fs' : Pcfs} {c cn ncn clsize skipcl lcn : Nat} {pcp : Pcnode} {bad : Nat → Bool}

lemma bmapLoop_ends : ∃ r, bmapLoop fs pcp lcn cn = some r ∧ ∀ x, r = .ok x → x.2 < 2 ^ 16 := by
  induction lcn generalizing cn with
  | zero =>
    rw [bmapLoop]
    split_ifs with hcn
    · rw [getcluster_valid hcn]
      exact ⟨.ok (cn, _), rfl, fun x hx => Except.ok.inj hx ▸ pcGetcluster_lt ..⟩
    · exact ⟨_, rfl, fun x hx => by cases hx⟩
    · exact ⟨_, rfl, fun x hx => by cases hx⟩
  | succ lcn ih =>
    rw [bmapLoop]
    split_ifs with hcn
    · rw [getcluster_valid hcn]
      exact ih
    · exact ⟨_, rfl, fun x hx => by cases hx⟩
    · exact ⟨_, rfl, fun x hx => by cases hx⟩

/-- The clusters of a run follow each other, and end below 2 ^ 16. -/
lemma contigLoop_isSome {want count fuel : Nat} (hncn : ncn < 2 ^ 16) (h : 2 ^ 16 ≤ cn + fuel) (hfuel : 0 < fuel) :
    (contigLoop fs clsize want fuel cn ncn count).isSome := by
  induction fuel generalizing cn ncn count with
  | zero => omega
  | succ fuel ih =>
    rw [contigLoop]
    split_ifs with hnext
    · rw [getcluster_valid hnext.2.2]
      exact ih (pcGetcluster_lt ..) (by omega) (by omega)
    · rfl

lemma pcBmap_isSome (lcn : Int) (contig : Nat) : (pcBmap fs clsize pcp lcn contig).isSome := by
  obtain ⟨r, hr, hlt⟩ := @bmapLoop_ends fs pcp.scluster lcn.toNat pcp
  rw [pcBmap, hr]
  rcases r with e | ⟨cn, ncn⟩
  · split_ifs <;> rfl
  · split_ifs
    · rfl
    · rfl
    · exact Option.isSome_map.trans (contigLoop_isSome (hlt _ rfl) (by omega) (by decide))
    · rfl

/-- The hint is a cluster or one beyond, as every mount and every allocation leaves it. -/
structure InRange (fs : Pcfs) : Prop where
  low : PCF_FIRSTCLUSTER ≤ fs.nxfrecls
  high : fs.nxfrecls ≤ fs.ncluster + PCF_FIRSTCLUSTER
  short : fs.nxfrecls ≤ 2 ^ 16

lemma InRange.set (h : InRange fs) (cn v : Nat) : InRange (pcSetcluster fs cn v) := by
  obtain ⟨_, hncluster, hnext⟩ := pcSetcluster_rest fs cn v
  constructor
  · rw [hnext]
    split_ifs
    · exact le_rfl
    · exact h.low
  · rw [hnext, hncluster]
    split_ifs
    · exact Nat.le_add_left ..
    · exact h.high
  · rw [hnext]
    split_ifs
    · decide
    · exact h.short

/-- `fs'` is `fs` with the first free cluster from the hint on taken, which is now the last one of a file. -/
structure Taken (fs fs' : Pcfs) (c : Nat) : Prop where
  valid : fs.Valid c
  short : c < 2 ^ 16
  above : fs.nxfrecls ≤ c
  free : pcGetcluster fs c = PCF_FREECLUSTER
  first : ∀ d, fs.nxfrecls ≤ d → d < c → pcGetcluster fs d ≠ PCF_FREECLUSTER
  table : fs' = { pcSetcluster fs c PCF_LASTCLUSTER with nxfrecls := c + 1 }

lemma Taken.get (h : Taken fs fs' c) (d : Nat) :
    pcGetcluster fs' d = if d = c then PCF_LASTCLUSTER else pcGetcluster fs d := by
  rw [h.table]
  exact pcGetcluster_set allowed_last

lemma Taken.same (h : Taken fs fs' c) : fs'.fat16 = fs.fat16 ∧ fs'.ncluster = fs.ncluster ∧ fs'.nxfrecls = c + 1 := by
  obtain ⟨hfat, hncluster, _⟩ := pcSetcluster_rest fs c PCF_LASTCLUSTER
  rw [h.table]
  exact ⟨hfat, hncluster, rfl⟩

lemma Taken.inRange (h : Taken fs fs' c) : InRange fs' := by
  obtain ⟨_, hncluster, hnext⟩ := h.same
  exact ⟨hnext ▸ Nat.le_succ_of_le h.valid.1, hnext ▸ hncluster ▸ h.valid.2, hnext ▸ h.short⟩

/-- The search takes a cluster, or there is none; then cluster numbers have stopped short of 2 ^ 16. -/
lemma allocLoop_cases {fuel : Nat} {r : Nat × Pcfs} (hcn : cn < 2 ^ 16) (h : allocLoop fs fuel cn = some r) :
    PCF_FIRSTCLUSTER ≤ cn ∧ ((fs.Valid r.1 ∧ r.1 < 2 ^ 16 ∧ cn ≤ r.1 ∧ pcGetcluster fs r.1 = PCF_FREECLUSTER ∧
        (∀ d, cn ≤ d → d < r.1 → pcGetcluster fs d ≠ PCF_FREECLUSTER) ∧
        r.2 = { pcSetcluster fs r.1 PCF_LASTCLUSTER with nxfrecls := r.1 + 1 }) ∨
      (r = (PCF_FREECLUSTER, fs) ∧ fs.ncluster + PCF_FIRSTCLUSTER < 2 ^ 16 ∧
        ∀ c, cn ≤ c → fs.Valid c → pcGetcluster fs c ≠ PCF_FREECLUSTER)) := by
  induction fuel generalizing cn with
  | zero => cases h
  | succ fuel ih =>
    rw [allocLoop] at h
    split_ifs at h with hlt hvalid hfree
    · cases h
      exact ⟨hvalid.1, .inl ⟨hvalid, hcn, le_rfl, hfree, fun d hd hd' => absurd hd (Nat.not_le.mpr hd'), rfl⟩⟩
    · obtain ⟨hlow, hcases⟩ := ih (Nat.mod_lt _ (by decide)) h
      have hshort : cn + 1 < 2 ^ 16 := by
        by_contra hwrap
        rw [show cn + 1 = 2 ^ 16 by omega] at hlow
        exact absurd hlow (by decide)
      rw [Nat.mod_eq_of_lt hshort] at hcases
      have hskip : ∀ d, cn ≤ d → (cn + 1 ≤ d → pcGetcluster fs d ≠ PCF_FREECLUSTER) →
          pcGetcluster fs d ≠ PCF_FREECLUSTER := by
        intro d hd hbehind
        rcases hd.lt_or_eq with hd | rfl
        · exact hbehind hd
        · exact hfree
      refine ⟨hvalid.1, hcases.imp ?_ ?_⟩
      · rintro ⟨hv, hs, hle, hf, hfirst, ht⟩
        exact ⟨hv, hs, by omega, hf, fun d hd hd' => hskip d hd (hfirst d · hd'), ht⟩
      · rintro ⟨hr, hfits, hnone⟩
        exact ⟨hr, hfits, fun d hd hv => hskip d hd (hnone d · hv)⟩
    · cases h
      have hlow : PCF_FIRSTCLUSTER ≤ cn := (Nat.le_add_left ..).trans (Nat.le_of_not_lt hlt)
      exact ⟨hlow, .inr ⟨rfl, by omega, fun c hc hv => absurd (hc.trans_lt hv.2) hlt⟩⟩

/-- No cluster that `pc_alloccluster` looks at is free. -/
def NoneFree (fs : Pcfs) : Prop := ∀ c, fs.nxfrecls ≤ c → fs.Valid c → pcGetcluster fs c ≠ PCF_FREECLUSTER

lemma pcAlloccluster_cases {r : Nat × Pcfs} (h : InRange fs) (hr : pcAlloccluster fs = some r) :
    Taken fs r.2 r.1 ∨ (r = (PCF_FREECLUSTER, fs) ∧ fs.ncluster + PCF_FIRSTCLUSTER < 2 ^ 16 ∧ NoneFree fs) := by
  obtain ⟨hlow, hcases⟩ := allocLoop_cases (Nat.mod_lt _ (by decide)) hr
  have hmod : fs.nxfrecls % 2 ^ 16 = fs.nxfrecls := by
    refine Nat.mod_eq_of_lt (h.short.lt_of_ne fun heq => ?_)
    rw [heq] at hlow
    exact absurd hlow (by decide)
  rw [hmod] at hcases
  exact hcases.imp_left fun ⟨hv, hs, ha, hf, hfirst, ht⟩ => ⟨hv, hs, ha, hf, hfirst, ht⟩

/-- What `pc_balloc` gets: a cluster that has been taken, one that could not be zeroed, or none. -/
lemma allocZeroed_cases {r : Except Errno Nat × Pcfs} (h : InRange fs) (hr : allocZeroed fs bad = some r) :
    (∃ c, r.1 = .ok c ∧ Taken fs r.2 c) ∨
    (∃ c e, r = (.error e, pcSetcluster fs c PCF_LASTCLUSTER) ∧ (∃ t, Taken fs t c) ∧ bad c = true) ∨
    ((∃ e, r = (.error e, fs)) ∧ fs.ncluster + PCF_FIRSTCLUSTER < 2 ^ 16 ∧ NoneFree fs) := by
  obtain ⟨⟨c, fs'⟩, ha, rfl⟩ := Option.map_eq_some_iff.mp hr
  rcases pcAlloccluster_cases h ha with htaken | ⟨heq, hnone⟩
  · have hne : c ≠ PCF_FREECLUSTER := fun heq => absurd (heq ▸ htaken.valid.1 : PCF_FIRSTCLUSTER ≤ PCF_FREECLUSTER) (by decide)
    dsimp only
    rw [if_neg hne]
    split_ifs with hbad
    · exact .inr (.inl ⟨c, _, rfl, ⟨_, htaken⟩, hbad⟩)
    · exact .inl ⟨c, rfl, htaken⟩
  · cases heq
    exact .inr (.inr ⟨⟨_, if_pos rfl⟩, hnone⟩)

lemma allocLoop_isSome {fuel : Nat} (hfits : fs.ncluster + PCF_FIRSTCLUSTER < 2 ^ 16) (hlow : PCF_FIRSTCLUSTER ≤ cn)
    (hfuel : fs.ncluster + PCF_FIRSTCLUSTER < cn + fuel) (hcn : cn ≤ fs.ncluster + PCF_FIRSTCLUSTER) :
    (allocLoop fs fuel cn).isSome := by
  induction fuel generalizing cn with
  | zero => omega
  | succ fuel ih =>
    rw [allocLoop]
    by_cases hlt : cn < fs.ncluster + PCF_FIRSTCLUSTER
    · rw [if_pos hlt, if_neg (not_not.mpr ⟨hlow, hlt⟩), Nat.mod_eq_of_lt (by omega)]
      split_ifs
      · rfl
      · exact ih (Nat.le_succ_of_le hlow) (by omega) hlt
    · rw [if_neg hlt]
      rfl

lemma allocZeroed_isSome (hfits : fs.ncluster + PCF_FIRSTCLUSTER < 2 ^ 16) (h : InRange fs) :
    (allocZeroed fs bad).isSome := by
  have hhigh := h.high
  rw [allocZeroed, Option.isSome_map, pcAlloccluster, Nat.mod_eq_of_lt (by omega)]
  exact allocLoop_isSome hfits h.low (by omega) hhigh

lemma pcBfree_isSome : (pcBfree fs clsize pcp skipcl).isSome := by
  have hloop : ∀ n fs cn skipcl, (bfreeLoop pcp n fs cn skipcl).isSome := by
    intro n
    induction n with
    | zero => exact fun _ _ _ => rfl
    | succ n ih =>
      intro fs cn skipcl
      rw [bfreeLoop]
      by_cases hcn : fs.Valid cn
      · rw [if_pos hcn, getcluster_valid hcn, Option.bind_some, setcluster, setcluster, if_pos hcn, if_pos hcn]
        split_ifs <;> first | rfl | exact ih ..
      · rw [if_neg hcn]
        rfl
  rw [pcBfree]
  split_ifs <;> first | rfl | exact Option.isSome_map.trans (hloop ..)

/-- The taken cluster `c` hangs behind `cn`, which was the last one of a file. -/
structure Linked (fs fs' : Pcfs) (cn c : Nat) : Prop where
  taken : ∃ t, Taken fs t c
  range : InRange fs'
  fat16 : fs'.fat16 = fs.fat16
  ncluster : fs'.ncluster = fs.ncluster
  next : fs'.nxfrecls = c + 1
  last : pcGetcluster fs' c = PCF_LASTCLUSTER
  link : fs.Allowed c → pcGetcluster fs' cn = c
  rest : ∀ d, d ≠ c → d ≠ cn → pcGetcluster fs' d = pcGetcluster fs d

lemma Taken.linked (h : Taken fs fs' c) (hlast : PCF_LASTCLUSTER ≤ pcGetcluster fs cn) :
    Linked fs (pcSetcluster fs' cn c) cn c := by
  have hne : c ≠ cn := by
    rintro rfl
    rw [h.free] at hlast
    exact absurd hlast (by decide)
  have hc : c ≠ PCF_FREECLUSTER := fun heq => absurd (heq ▸ h.valid.1 : PCF_FIRSTCLUSTER ≤ PCF_FREECLUSTER) (by decide)
  obtain ⟨hfat, hncluster, hnext⟩ := h.same
  obtain ⟨hfat', hncluster', hnext'⟩ := pcSetcluster_rest fs' cn c
  rw [if_neg hc] at hnext'
  refine ⟨⟨fs', h⟩, h.inRange.set .., hfat'.trans hfat, hncluster'.trans hncluster, hnext'.trans hnext, ?_, ?_, ?_⟩
  · rw [pcGetcluster_set_ne h.short hne, h.get, if_pos rfl]
  · intro hallowed
    rw [pcGetcluster_set (hallowed.congr hfat), if_pos rfl]
  · intro d hd hd'
    rw [pcGetcluster_set_ne h.short hd', h.get, if_neg hd]

/-- One turn of `pc_balloc` at the last cluster of a file. -/
lemma ballocLoop_extend {r : Except Errno Nat × Pcfs} (h : InRange fs) (hcn : fs.Valid cn)
    (hlast : PCF_LASTCLUSTER ≤ pcGetcluster fs cn) (hr : ballocLoop bad (lcn + 1) fs cn = some r) :
    (∃ c fs', Linked fs fs' cn c ∧ ballocLoop bad lcn fs' c = some r) ∨
    (∃ c e, r = (.error e, pcSetcluster fs c PCF_LASTCLUSTER) ∧ (∃ t, Taken fs t c) ∧ bad c = true) ∨
    ((∃ e, r = (.error e, fs)) ∧ fs.ncluster + PCF_FIRSTCLUSTER < 2 ^ 16 ∧ NoneFree fs) := by
  rw [ballocLoop, getcluster_valid hcn, Option.bind_some, if_pos hlast] at hr
  obtain ⟨⟨ans, t⟩, ha, hr⟩ := Option.bind_eq_some_iff.mp hr
  rcases allocZeroed_cases h ha with ⟨c, hok, htaken⟩ | ⟨c, e, heq, hbad⟩ | ⟨⟨e, heq⟩, hnone⟩
  · cases hok
    dsimp only at hr
    rw [setcluster, if_pos (show t.Valid cn from hcn.imp_right fun hlt => htaken.same.2.1.symm ▸ hlt)] at hr
    exact .inl ⟨c, _, htaken.linked hlast, hr⟩
  · cases heq
    exact .inr (.inl ⟨c, e, (Option.some.inj hr).symm, hbad⟩)
  · cases heq
    exact .inr (.inr ⟨⟨e, (Option.some.inj hr).symm⟩, hnone⟩)

/-- When cluster numbers do not stop short of 2 ^ 16, as many turns succeed as there are numbers left, if all are free. -/
lemma ballocLoop_wide {r : Except Errno Nat × Pcfs} (hbad : ∀ c, bad c = false)
    (hwide : ¬ fs.ncluster + PCF_FIRSTCLUSTER < 2 ^ 16) (h : InRange fs) (hcn : fs.Valid cn) (hlt : cn < fs.nxfrecls)
    (hlast : PCF_LASTCLUSTER ≤ pcGetcluster fs cn) (hr : ballocLoop bad lcn fs cn = some r) :
    fs.nxfrecls + lcn ≤ 2 ^ 16 ∧ (fs.nxfrecls + lcn = 2 ^ 16 →
      ∀ c, fs.nxfrecls ≤ c → c < 2 ^ 16 → pcGetcluster fs c = PCF_FREECLUSTER) := by
  induction lcn generalizing fs cn with
  | zero => exact ⟨h.short, fun heq c hc hc' => absurd (hc'.trans_le (heq.symm.le.trans hc)) (Nat.lt_irrefl c)⟩
  | succ lcn ih =>
    rcases ballocLoop_extend h hcn hlast hr with ⟨c, fs', hlink, hr⟩ | ⟨c, e, heq, _, hbad'⟩ | ⟨_, hfits, _⟩
    · obtain ⟨t, htaken⟩ := hlink.taken
      have hnext := hlink.next
      have habove := htaken.above
      obtain ⟨hle, hall⟩ := ih (hlink.ncluster ▸ hwide) hlink.range (htaken.valid.imp_right (hlink.ncluster ▸ ·))
        (by omega) hlink.last.ge hr
      refine ⟨by omega, fun heq d hd hd' => ?_⟩
      obtain rfl | hne := eq_or_ne d c
      · exact htaken.free
      · rw [← hlink.rest d hne (by omega)]
        exact hall (by omega) d (by omega) hd'
    · rw [hbad c] at hbad'
      cases hbad'
    · exact absurd hfits hwide

lemma allocZeroed_here (hshort : fs.nxfrecls < 2 ^ 16) (hv : fs.Valid fs.nxfrecls)
    (hfree : pcGetcluster fs fs.nxfrecls = PCF_FREECLUSTER) : (allocZeroed fs bad).isSome := by
  rw [allocZeroed, Option.isSome_map, pcAlloccluster, Nat.mod_eq_of_lt hshort, show 2 ^ 16 = 65535 + 1 from rfl, allocLoop,
    if_pos hv.2, if_neg (not_not.mpr hv), if_pos hfree]
  rfl

/-- A turn at the last cluster of a file ends with its search. -/
lemma ballocLoop_turn (h : InRange fs) (hcn : fs.Valid cn) (hlast : PCF_LASTCLUSTER ≤ pcGetcluster fs cn)
    (halloc : (allocZeroed fs bad).isSome)
    (hnext : ∀ c fs', Linked fs fs' cn c → (ballocLoop bad lcn fs' c).isSome) :
    (ballocLoop bad (lcn + 1) fs cn).isSome := by
  obtain ⟨⟨ans, t⟩, ha⟩ := Option.isSome_iff_exists.mp halloc
  rw [ballocLoop, getcluster_valid hcn, Option.bind_some, if_pos hlast, ha]
  rcases allocZeroed_cases h ha with ⟨c, hok, htaken⟩ | ⟨c, e, heq, _⟩ | ⟨⟨e, heq⟩, _⟩
  · cases hok
    dsimp only [Option.bind_some]
    rw [setcluster, if_pos (show t.Valid cn from hcn.imp_right fun hlt => htaken.same.2.1.symm ▸ hlt)]
    exact hnext c _ (htaken.linked hlast)
  · cases heq
    rfl
  · cases heq
    rfl

lemma ballocLoop_isSome (hfits : fs.ncluster + PCF_FIRSTCLUSTER < 2 ^ 16) (h : InRange fs) (hcn : fs.Valid cn) :
    (ballocLoop bad lcn fs cn).isSome := by
  induction lcn generalizing fs cn with
  | zero => rfl
  | succ lcn ih =>
    by_cases hlast : PCF_LASTCLUSTER ≤ pcGetcluster fs cn
    · refine ballocLoop_turn h hcn hlast (allocZeroed_isSome hfits h) fun c fs' hlink => ?_
      obtain ⟨t, htaken⟩ := hlink.taken
      exact ih (hlink.ncluster ▸ hfits) hlink.range (htaken.valid.imp_right (hlink.ncluster ▸ ·))
    · rw [ballocLoop, getcluster_valid hcn, Option.bind_some, if_neg hlast]
      split_ifs with hnext
      · exact ih hfits h hnext
      · rfl

lemma ballocLoop_roomy (hn : fs.ncluster + PCF_FIRSTCLUSTER = 2 ^ 16) (h : InRange fs) (hcn : fs.Valid cn)
    (hlt : cn < fs.nxfrecls) (hlast : PCF_LASTCLUSTER ≤ pcGetcluster fs cn) (hroom : fs.nxfrecls + lcn ≤ 2 ^ 16)
    (hfree : ∀ c, fs.nxfrecls ≤ c → fs.Valid c → pcGetcluster fs c = PCF_FREECLUSTER) :
    (ballocLoop bad lcn fs cn).isSome := by
  induction lcn generalizing fs cn with
  | zero => rfl
  | succ lcn ih =>
    have hv : fs.Valid fs.nxfrecls := ⟨h.low, by omega⟩
    refine ballocLoop_turn h hcn hlast (allocZeroed_here (by omega) hv (hfree _ le_rfl hv)) fun c fs' hlink => ?_
    obtain ⟨t, htaken⟩ := hlink.taken
    have hnext := hlink.next
    have hc : c = fs.nxfrecls := by
      by_contra hne
      exact htaken.first _ le_rfl (by have := htaken.above; omega) (hfree _ le_rfl hv)
    refine ih (hlink.ncluster.symm ▸ hn) hlink.range (htaken.valid.imp_right (hlink.ncluster ▸ ·)) (by omega)
      hlink.last.ge (by omega) fun d hd hv' => ?_
    rw [hlink.rest d (by omega) (by omega)]
    exact hfree d (by omega) (hv'.imp_right (hlink.ncluster ▸ ·))

lemma pcBalloc_isSome_of (halloc : ∀ bad, (allocZeroed fs bad).isSome) (h : InRange fs)
    (hnew : ∀ bad fs' c lcn, Taken fs fs' c → lcn < fs.ncluster → (ballocLoop bad lcn fs' c).isSome)
    (hold : ∀ bad cn lcn, fs.Valid cn → (ballocLoop bad lcn fs cn).isSome) (lcn : Int) (zwrite : Bool) :
    (pcBalloc fs pcp lcn zwrite bad).isSome := by
  unfold pcBalloc
  dsimp only
  split_ifs with _ hlcn _ hcn
  · rfl
  · rfl
  · obtain ⟨⟨ans, t⟩, ha⟩ := Option.isSome_iff_exists.mp (halloc bad)
    rw [ha]
    rcases allocZeroed_cases h ha with ⟨c, hok, htaken⟩ | ⟨c, e, heq, _⟩ | ⟨⟨e, heq⟩, _⟩
    · cases hok
      dsimp only [Option.bind_some]
      rw [Option.isSome_map]
      exact hnew _ _ _ _ htaken (by omega)
    · cases heq
      rfl
    · cases heq
      rfl
  · rw [Option.isSome_map]
    exact hold _ _ _ hcn
  · rfl

/-- Cluster numbers stop short of 2 ^ 16; or the last one is 2 ^ 16 - 1, and all clusters are free. -/
def Numbered (fs : Pcfs) : Prop :=
  fs.ncluster + PCF_FIRSTCLUSTER < 2 ^ 16 ∨
    fs.ncluster + PCF_FIRSTCLUSTER = 2 ^ 16 ∧ fs.nxfrecls = PCF_FIRSTCLUSTER ∧
      ∀ c, fs.Valid c → pcGetcluster fs c = PCF_FREECLUSTER

/-- A new file as large as the file system finds a cluster for each number, or the search runs past the last number. -/
lemma Numbered.of_isSome (h : InRange fs)
    (hr : (pcBalloc fs ⟨false, 0, 0⟩ (fs.ncluster - 1) false fun _ => false).isSome) : Numbered fs := by
  by_contra hno
  obtain ⟨hwide, hno⟩ := not_or.mp hno
  have hbig := hwide
  unfold PCF_FIRSTCLUSTER at hbig
  obtain ⟨r, hr⟩ := Option.isSome_iff_exists.mp hr
  rw [pcBalloc] at hr
  dsimp only at hr
  rw [if_neg (by omega), if_neg (by omega), if_pos (.inl ⟨rfl, rfl⟩)] at hr
  obtain ⟨⟨ans, t⟩, ha, hr⟩ := Option.bind_eq_some_iff.mp hr
  rcases allocZeroed_cases h ha with ⟨c, hok, htaken⟩ | ⟨c, e, heq, _, hbad⟩ | ⟨_, hfits, _⟩
  · cases hok
    obtain ⟨q, hq, _⟩ := Option.map_eq_some_iff.mp hr
    obtain ⟨_, hncluster, hnext⟩ := htaken.same
    obtain ⟨hle, hall⟩ := ballocLoop_wide (fun _ => rfl) (hncluster ▸ hwide) htaken.inRange
      (htaken.valid.imp_right (hncluster ▸ ·)) (by omega) (by rw [htaken.get, if_pos rfl]) hq
    have hc := htaken.valid.1
    have habove := htaken.above
    have hlow := h.low
    have hhigh := h.high
    unfold PCF_FIRSTCLUSTER at hc hlow hhigh
    refine hno ⟨by unfold PCF_FIRSTCLUSTER; omega, by unfold PCF_FIRSTCLUSTER; omega, fun d hd => ?_⟩
    obtain ⟨hd, hd'⟩ := hd
    unfold PCF_FIRSTCLUSTER at hd hd'
    obtain rfl | hne := eq_or_ne d c
    · exact htaken.free
    · have hfree := hall (by omega) d (by omega) (by omega)
      rwa [htaken.get, if_neg hne] at hfree
  · cases hbad
  · exact hwide hfits

lemma pcBalloc_isSome_iff (h : InRange fs) :
    (∀ pcp lcn zwrite bad, (pcBalloc fs pcp lcn zwrite bad).isSome) ↔ Numbered fs := by
  refine ⟨fun hall => .of_isSome h (hall ..), ?_⟩
  rintro (hfits | ⟨hn, hnext, hfree⟩) pcp lcn zwrite bad
  · refine pcBalloc_isSome_of (fun _ => allocZeroed_isSome hfits h) h (fun _ _ _ _ ht _ => ?_)
      (fun _ _ _ hcn => ballocLoop_isSome hfits h hcn) lcn zwrite
    have hsame := ht.same.2.1
    exact ballocLoop_isSome (hsame ▸ hfits) ht.inRange (ht.valid.imp_right (hsame ▸ ·))
  · have hv : fs.Valid fs.nxfrecls := hnext ▸ ⟨le_rfl, by unfold PCF_FIRSTCLUSTER at hn ⊢; omega⟩
    have hshort : fs.nxfrecls < 2 ^ 16 := by
      rw [hnext]
      decide
    refine pcBalloc_isSome_of (fun _ => allocZeroed_here hshort hv (hfree _ hv)) h (fun _ fs' c _ ht hlt => ?_)
      (fun _ cn lcn hcn => ?_) lcn zwrite
    · obtain ⟨_, hncluster, hnext'⟩ := ht.same
      have hc : c = fs.nxfrecls := by
        by_contra hne
        exact ht.first _ le_rfl (by have := ht.above; omega) (hfree _ hv)
      refine ballocLoop_roomy (hncluster.symm ▸ hn) ht.inRange (ht.valid.imp_right (hncluster ▸ ·)) (by omega)
        (by rw [ht.get, if_pos rfl]) (by omega) fun d hd hd' => ?_
      rw [ht.get, if_neg (by omega)]
      exact hfree d (hd'.imp_right (hncluster ▸ ·))
    · cases lcn with
      | zero => rfl
      | succ lcn =>
        rw [ballocLoop, getcluster_valid hcn, hfree cn hcn]
        rfl

/-- The cluster that a walk has come to after some turns. -/
def chainAt (fs : Pcfs) (cn k : Nat) : Nat := (pcGetcluster fs)^[k] cn

lemma pcFileclsize_isSome_iff {count : Nat} :
    (∃ fuel, (pcFileclsize fs fuel cn count).isSome) ↔ ∃ k, ¬ fs.Valid (chainAt fs cn k) := by
  constructor
  · rintro ⟨fuel, h⟩
    induction fuel generalizing cn count with
    | zero => cases h
    | succ fuel ih =>
      rw [pcFileclsize] at h
      split_ifs at h with hcn
      · rw [getcluster_valid hcn] at h
        exact (ih h).imp' Nat.succ fun _ hk => hk
      · exact ⟨0, hcn⟩
  · rintro ⟨k, h⟩
    induction k generalizing cn count with
    | zero => exact ⟨1, by rw [pcFileclsize, if_neg (show ¬ fs.Valid cn from h)]; rfl⟩
    | succ k ih =>
      by_cases hcn : fs.Valid cn
      · obtain ⟨fuel, hfuel⟩ := @ih (pcGetcluster fs cn) (count + 1) h
        exact ⟨fuel + 1, by rw [pcFileclsize, if_pos hcn, getcluster_valid hcn]; exact hfuel⟩
      · exact ⟨1, by rw [pcFileclsize, if_neg hcn]; rfl⟩

/-- The chain from `cn` comes back to one of its clusters. -/
def ComesBack (fs : Pcfs) (cn : Nat) : Prop :=
  ∃ i j, i < j ∧ (∀ k ≤ j, fs.Valid (chainAt fs cn k)) ∧ chainAt fs cn i = chainAt fs cn j

lemma chain_ends_iff : (∃ k, ¬ fs.Valid (chainAt fs cn k)) ↔ ¬ ComesBack fs cn := by
  constructor
  · rintro ⟨k, hk⟩ ⟨i, j, hij, hall, heq⟩
    have hback : ∀ m, ∃ n ≤ j, chainAt fs cn m = chainAt fs cn n := by
      intro m
      induction m with
      | zero => exact ⟨0, j.zero_le, rfl⟩
      | succ m ih =>
        obtain ⟨n, hn, hmn⟩ := ih
        have hnext : chainAt fs cn (m + 1) = chainAt fs cn (n + 1) := by
          simp only [chainAt, iterate_succ_apply'] at hmn ⊢
          rw [hmn]
        rcases hn.lt_or_eq with hlt | rfl
        · exact ⟨n + 1, hlt, hnext⟩
        · refine ⟨i + 1, hij, hnext.trans ?_⟩
          simp only [chainAt, iterate_succ_apply'] at heq ⊢
          rw [heq]
    obtain ⟨n, hn, hkn⟩ := hback k
    exact hk (hkn ▸ hall n hn)
  · intro h
    by_contra hall
    push Not at hall
    have hlt : ∀ k ∈ Finset.range (2 ^ 16 + 1), chainAt fs cn (k + 1) ∈ Finset.range (2 ^ 16) := by
      intro k _
      rw [chainAt, iterate_succ_apply']
      exact Finset.mem_range.mpr (pcGetcluster_lt ..)
    obtain ⟨i, _, j, _, hne, heq⟩ := Finset.exists_ne_map_eq_of_card_lt_of_maps_to (by simp) hlt
    rcases Nat.lt_or_gt_of_ne hne with hij | hij
    · exact h ⟨i + 1, j + 1, Nat.succ_lt_succ hij, fun k _ => hall k, heq⟩
    · exact h ⟨j + 1, i + 1, Nat.succ_lt_succ hij, fun k _ => hall k, heq.symm⟩

/-- The walks end on every table, but for two: that of `pc_fileclsize` when the chain comes back to one of its clusters,
and the search of `pc_balloc` when the numbers of clusters do not stop short of 2 ^ 16. -/
theorem walks_end_iff (fs : Pcfs) (h : InRange fs) (clsize : Nat) :
    (∀ pcp lcn contig, (pcBmap fs clsize pcp lcn contig).isSome) ∧
    (∀ pcp skipcl, (pcBfree fs clsize pcp skipcl).isSome) ∧
    ((∀ pcp lcn zwrite bad, (pcBalloc fs pcp lcn zwrite bad).isSome) ↔ Numbered fs) ∧
    ∀ cn, (∃ fuel, (pcFileclsize fs fuel cn 0).isSome) ↔ ¬ ComesBack fs cn :=
  ⟨fun _ => pcBmap_isSome, fun _ _ => pcBfree_isSome, pcBalloc_isSome_iff h,
    fun _ => pcFileclsize_isSome_iff.trans chain_ends_iff⟩

/-- The first cluster of a table of 16 bits follows itself. -/
def knot : Pcfs := ⟨true, 1, fun a => if a = 4 then 2 else 0, 3, false⟩

theorem walks_end_knot : (pcBalloc knot ⟨false, 0, 0⟩ 0 true fun _ => true).isSome ∧ (pcBfree knot 512 ⟨false, 1024, 2⟩ 0).isSome :=
  have hwalks := walks_end_iff knot ⟨by decide, by decide, by decide⟩ 512
  ⟨hwalks.2.2.1.mpr (.inl (by decide)) .., hwalks.2.1 ..⟩

theorem fileclsize_never_ends : ¬ ∃ fuel, (pcFileclsize knot fuel 2 0).isSome := by
  rw [pcFileclsize_isSome_iff]
  rintro ⟨k, hk⟩
  have hself : chainAt knot 2 k = 2 := iterate_fixed (by decide) k
  rw [hself] at hk
  exact hk (by decide)

/-- Every number is taken, so the search of `pc_balloc` runs past the last one. -/
theorem balloc_panics : ¬ ∀ pcp lcn zwrite bad, (pcBalloc ⟨true, 65534, fun _ => 1, 2, false⟩ pcp lcn zwrite bad).isSome := by
  rw [pcBalloc_isSome_iff ⟨by decide, by decide, by decide⟩]
  rintro (h | ⟨_, _, h⟩)
  · exact absurd h (by decide)
  · exact absurd (h 2 ⟨by decide, by decide⟩) (by decide)

end Solaris.Fat
