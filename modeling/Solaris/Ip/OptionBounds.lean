import Solaris.Ip.OptionWalk

/-!
# Where the options are written

What the steps of the walkers change, for an option that `ip_rput_options` let through, and from it where
both walkers keep to the options they should write into.
-/

namespace Solaris.Ip

open Lib (Byte Memory word putByte putWord putByte_of_ne putByte_self putWord_of_ne putWord_byte)

section Bytes

variable {r : Lookups} {mem : Memory} {opt len i : Nat} {v : BitVec 32}

lemma appendWord_pointer (hopt : 20 ≤ opt) (hle : opt ≤ 60) (hptr : 4 ≤ (mem (opt + 2)).toNat) :
    advance (putWord mem (optPlace mem opt) v) opt (opt + 2) = mem (opt + 2) + 4 := by
  rw [advance, putByte_self, putWord_of_ne]
  rw [optPlace_eq (by omega) hle]
  omega

lemma appendWord_frame (hopt : 20 ≤ opt) (hle : opt ≤ 60) (hi : i ≠ opt + 2)
    (hout : i + 1 < opt + (mem (opt + 2)).toNat ∨ opt + (mem (opt + 2)).toNat + 3 ≤ i) :
    advance (putWord mem (optPlace mem opt) v) opt i = mem i := by
  rw [advance, putByte_of_ne hi, putWord_of_ne]
  rw [optPlace_eq (by omega) hle]
  omega

lemma appendWord_low (hopt : 20 ≤ opt) (hle : opt ≤ 60) (hi : i + 1 < opt) :
    advance (putWord mem (optPlace mem opt) v) opt i = mem i :=
  appendWord_frame hopt hle (by omega) (by omega)

lemma toNat_add_four {b : Byte} (h : b.toNat + 4 < 256) : (b + 4).toNat = b.toNat + 4 := by
  exact Nat.mod_eq_of_lt h

section

variable (hopt : 20 ≤ opt) (hle : opt ≤ 60) (hi : i + 1 < opt)

include hopt hle hi

lemma recordRoute_low : recordRoute r mem opt len i = mem i := by
  rw [recordRoute]
  split
  · rfl
  · exact appendWord_low hopt hle hi

lemma stampTime_low : stampTime r mem opt i = mem i :=
  appendWord_low hopt hle hi

lemma stamp_low : stamp r mem opt i = mem i := by
  rw [stamp]
  split
  · rw [stampTime_low hopt hle hi, appendWord_low hopt hle hi]
  · split
    · exact stampTime_low hopt hle hi
    · rfl

end

lemma insertTimestamp_low {hdr : Header} (hopt : 20 ≤ opt) (hle : opt ≤ 60) (hi : i + 1 < opt) :
    (insertTimestamp r hdr opt len).mem i = hdr.mem i := by
  rw [insertTimestamp]
  split
  · exact putByte_of_ne (by omega)
  · exact stamp_low hopt hle hi

lemma stampBoth_pointer (hopt : 20 ≤ opt) (hle : opt ≤ 60) (hptr : 4 ≤ (mem (opt + 2)).toNat)
    (hmax : (mem (opt + 2)).toNat ≤ 200) :
    stampTime r (advance (putWord mem (optPlace mem opt) v) opt) opt (opt + 2) = mem (opt + 2) + 4 + 4 := by
  have hfirst := appendWord_pointer (v := v) hopt hle hptr
  have hnat := toNat_add_four (b := mem (opt + 2)) (by omega)
  rw [stampTime, appendWord_pointer hopt hle (by rw [hfirst, hnat]; omega), hfirst]

lemma stampBoth_frame (hopt : 20 ≤ opt) (hle : opt ≤ 60) (hptr : 4 ≤ (mem (opt + 2)).toNat)
    (hmax : (mem (opt + 2)).toNat ≤ 200) (hi : i ≠ opt + 2)
    (hout : i + 1 < opt + (mem (opt + 2)).toNat ∨ opt + (mem (opt + 2)).toNat + 7 ≤ i) :
    stampTime r (advance (putWord mem (optPlace mem opt) v) opt) opt i = mem i := by
  have hfirst := appendWord_pointer (v := v) hopt hle hptr
  have hnat := toNat_add_four (b := mem (opt + 2)) (by omega)
  rw [stampTime, appendWord_frame hopt hle hi (by rw [hfirst, hnat]; omega), appendWord_frame hopt hle hi (by omega)]

lemma countOverflow_ne : countOverflow mem opt (opt + 3) ≠ mem (opt + 3) := by
  have hall : ∀ b : Byte, (b &&& 0x0F) ||| ((b >>> 4) + 1) <<< 4 ≠ b := by decide
  rw [countOverflow, putByte_self, optFlag]
  exact hall _

end Bytes

section Steps

variable {r : Lookups} {mem : Memory} {hdr : Header} {opt : Nat}

lemma recordRoute_clean (hopt : 20 ≤ opt) (hle : opt + optLen mem opt ≤ 60) (hrr : mem opt = ipoptRr)
    (hv : Valid mem opt) : CleanStep r mem (recordRoute r mem opt (optLen mem opt)) opt := by
  have hspec : mem opt = ipoptIt → IsSpec mem opt → r.isLocal (nextSpec mem opt) := fun hit =>
    absurd (hrr.symm.trans hit) (by decide)
  have hwr : Written mem opt := .inr (.inr (.inl hrr))
  have hptr := hv.1 hrr
  rw [recordRoute]
  split
  · exact ⟨fun _ _ _ => rfl, fun _ _ => hwr, hspec, fun _ => Iff.rfl⟩
  · rename_i hroom
    obtain ⟨-, hlen⟩ := pointer_of_optOff (by omega) hroom
    refine ⟨fun i hi _ => appendWord_frame hopt (by omega) (by omega) (by omega), fun _ _ => hwr, hspec, fun _ => ?_⟩
    rw [appendWord_pointer hopt (by omega) hptr, toNat_add_four (by omega)]
    omega

lemma address_of_room (hroom : (roomForStamp mem opt).isSome) (htime : optFlag mem opt ≠ ipoptItTime) :
    IsSpec mem opt ∨ optFlag mem opt = ipoptItTimeAddr := by
  rw [roomForStamp, if_neg htime] at hroom
  by_contra hno
  have hnone : ¬(optFlag mem opt = ipoptItTimeAddr ∨ optFlag mem opt = ipoptItSpec ∨
      optFlag mem opt = ipoptItSpecBsd) := fun h => hno (Or.symm h)
  rw [if_neg hnone] at hroom
  exact absurd hroom (by simp)

lemma stampOff_eq (hroom : (roomForStamp mem opt).isSome) (hspec : IsSpec mem opt → r.isLocal (nextSpec mem opt)) :
    stampOff r mem opt = if optFlag mem opt = ipoptItTime then 4 else 8 := by
  rw [stampOff]
  by_cases htime : optFlag mem opt = ipoptItTime
  · rw [if_pos htime, if_pos htime]
  · rw [if_neg htime, if_neg htime]
    by_cases hs : IsSpec mem opt
    · rw [if_pos hs, if_pos (hspec hs)]
    · rw [if_neg hs, if_pos ((address_of_room hroom htime).resolve_left hs)]

lemma optOff_add (mem : Memory) (opt k : Nat) (hptr : (mem (opt + 2)).toNat ≠ 0) (hk : k ≤ 1000) :
    (optOff mem opt + k) % 2 ^ 32 = (mem (opt + 2)).toNat - 1 + k := by
  rw [optOff_eq hptr]
  omega

section

variable (hopt : 20 ≤ opt) (hle : opt + optLen hdr.mem opt ≤ 60) (hit : hdr.mem opt = ipoptIt) (hv : Valid hdr.mem opt)

include hopt hle hit hv

lemma insertTimestamp_clean (hspec : IsSpec hdr.mem opt → r.isLocal (nextSpec hdr.mem opt)) :
    CleanStep r hdr.mem (insertTimestamp r hdr opt (optLen hdr.mem opt)).mem opt := by
  have hwr : Written hdr.mem opt := .inr (.inr (.inr hit))
  obtain ⟨h5, hptr, hroom⟩ := hv.2 hit
  have hoff := stampOff_eq hroom hspec
  have hadd := optOff_add hdr.mem opt (stampOff r hdr.mem opt) (by omega)
    (by rw [hoff]; split <;> omega)
  rw [insertTimestamp]
  dsimp only
  split
  · refine ⟨fun i hi _ => putByte_of_ne (by omega), fun _ _ => hwr, fun _ => hspec, fun _ => ?_⟩
    rw [countOverflow, putByte_of_ne (by omega)]
  rename_i hfull
  rw [hadd, hoff, Nat.not_lt] at hfull
  rw [stamp]
  by_cases htime : optFlag hdr.mem opt = ipoptItTime
  · have hnot : ¬(IsSpec hdr.mem opt ∨ optFlag hdr.mem opt = ipoptItTimeAddr) := by
      rw [IsSpec, htime]
      decide
    rw [if_pos htime] at hfull
    rw [if_neg hnot, if_pos htime]
    refine ⟨fun i hi _ => appendWord_frame hopt (by omega) (by omega) (by omega), fun _ _ => hwr, fun _ => hspec,
      fun _ => ?_⟩
    rw [stampTime, appendWord_pointer hopt (by omega) (by omega), toNat_add_four (by omega)]
    omega
  · rw [if_neg htime] at hfull
    rw [if_pos (address_of_room hroom htime)]
    refine ⟨fun i hi _ => stampBoth_frame hopt (by omega) (by omega) (by omega) (by omega) (by omega),
      fun _ _ => hwr, fun _ => hspec, fun _ => ?_⟩
    rw [stampBoth_pointer hopt (by omega) (by omega) (by omega), toNat_add_four, toNat_add_four (by omega)]
    · omega
    · rw [toNat_add_four (by omega)]
      omega

lemma insertTimestamp_dirty (hs : IsSpec hdr.mem opt) (hlocal : ¬r.isLocal (nextSpec hdr.mem opt)) {out : Memory}
    (hout : ∀ i, 20 ≤ i → i + 1 < opt + optLen hdr.mem opt →
      out i = (insertTimestamp r hdr opt (optLen hdr.mem opt)).mem i) : ¬KeptOption r hdr.mem out opt := by
  obtain ⟨h5, hptr, -⟩ := hv.2 hit
  have htime : optFlag hdr.mem opt ≠ ipoptItTime := by
    rcases hs with hs | hs <;> rw [hs] <;> decide
  have hoff : stampOff r hdr.mem opt = optOff hdr.mem opt := by
    rw [stampOff, if_neg htime, if_pos hs, if_neg hlocal]
  have hadd := optOff_add hdr.mem opt (optOff hdr.mem opt) (by omega) (by
    rw [optOff_eq (by omega)]
    omega)
  have hchanged : ∃ i, opt ≤ i ∧ i + 1 < opt + optLen hdr.mem opt ∧
      (insertTimestamp r hdr opt (optLen hdr.mem opt)).mem i ≠ hdr.mem i := by
    rw [insertTimestamp]
    dsimp only
    split
    · exact ⟨opt + 3, by omega, by omega, countOverflow_ne⟩
    · rename_i hfull
      refine ⟨opt + 2, by omega, by omega, ?_⟩
      rw [stamp, if_pos (.inl hs), stampBoth_pointer hopt (by omega) (by omega) (by omega)]
      have hall : ∀ b : Byte, b + 4 + 4 ≠ b := by decide
      exact hall _
  obtain ⟨i, hi, hlt, hne⟩ := hchanged
  intro hk
  exact hlocal (hk.spec hit hs i hi (by omega) (by rw [hout i (by omega) hlt]; exact hne))

end

end Steps

section Courses

variable (r : Lookups)

/-- The pointer leaves room for an address: not the end of the source route. -/
def HasHop (mem : Memory) (opt : Nat) : Prop := ¬(optLen mem opt < 4 ∨ optLen mem opt - 4 < optOff mem opt)

instance (mem : Memory) (opt : Nat) : Decidable (HasHop mem opt) := inferInstanceAs (Decidable (¬_))

/-- The next prespecified address of a timestamp is local. -/
def SpecLocal (mem : Memory) (opt : Nat) : Prop :=
  mem opt = ipoptIt → IsSpec mem opt → r.isLocal (nextSpec mem opt)

/-- A source route with a pointer into its first three bytes: the byte that the route's address leaves there as the
pointer fits, if the option is processed. -/
def RouteFits (mem : Memory) (dst : IpAddr) (opt : Nat) : Prop :=
  IsSourceRoute mem opt → r.isLocal dst → HasHop mem opt → (mem (opt + 2)).toNat < 4 →
    (r.ireSrcAddr.extractLsb' (8 * (mem (opt + 2)).toNat) 8 + 4).toNat ≤ optLen mem opt + 1

def forwardCourse : Course where
  stops mem opt := IsSourceRoute mem opt ∧ ¬r.forwardSrcRouted
  next mem dst opt :=
    if IsSourceRoute mem opt then if r.isLocal dst ∧ HasHop mem opt then word mem (optPlace mem opt) else dst
    else if mem opt = ipoptIt ∧ IsSpec mem opt then nextSpec mem opt
    else dst
  clean mem dst opt := SpecLocal r mem opt ∧ RouteFits r mem dst opt

def localCourse : Course where
  stops mem opt := mem opt = ipoptSsrr ∧ HasHop mem opt
  next mem dst opt := if mem opt = ipoptIt ∧ IsSpec mem opt then nextSpec mem opt else dst
  clean mem _ opt := SpecLocal r mem opt

variable {r} {mem m : Memory} {opt : Nat} {hdr : Header} {dst : IpAddr}

lemma isSourceRoute_congr (h : ∀ i, opt ≤ i → m i = mem i) : IsSourceRoute m opt ↔ IsSourceRoute mem opt := by
  rw [IsSourceRoute, IsSourceRoute, h opt le_rfl]

lemma hasHop_congr (h : ∀ i, opt ≤ i → m i = mem i) : HasHop m opt ↔ HasHop mem opt := by
  rw [HasHop, HasHop, optLen_congr h, optOff_congr h]

lemma HasHop.pointer (h : HasHop mem opt) (hle : optLen mem opt ≤ 60) :
    (mem (opt + 2)).toNat ≠ 0 ∧ (mem (opt + 2)).toNat + 3 ≤ optLen mem opt := pointer_of_optOff hle h

section

variable (h : ∀ i, opt ≤ i → m i = mem i)

include h

lemma spec_congr (hopt : 20 ≤ opt) (hle : opt + optLen mem opt ≤ 60)
    (hv : Valid mem opt) (hit : mem opt = ipoptIt) : nextSpec m opt = nextSpec mem opt :=
  nextSpec_congr h (by omega) (by omega) (by have := (hv.2 hit).2.1; omega)

lemma specLocal_congr (hopt : 20 ≤ opt) (hle : opt + optLen mem opt ≤ 60)
    (hv : Valid mem opt) : SpecLocal r m opt ↔ SpecLocal r mem opt := by
  rw [SpecLocal, SpecLocal, h opt le_rfl, isSpec_congr h]
  constructor
  · intro hs hit hspec
    exact spec_congr h hopt hle hv hit ▸ hs hit hspec
  · intro hs hit hspec
    exact (spec_congr h hopt hle hv hit).symm ▸ hs hit hspec

lemma routeFits_congr : RouteFits r m dst opt ↔ RouteFits r mem dst opt := by
  rw [RouteFits, RouteFits, isSourceRoute_congr h, hasHop_congr h, optLen_congr h, h (opt + 2) (by omega)]

lemma specNext_congr (hopt : 20 ≤ opt) (hle : opt + optLen mem opt ≤ 60)
    (hv : Valid mem opt) :
    (if m opt = ipoptIt ∧ IsSpec m opt then nextSpec m opt else dst) =
      if mem opt = ipoptIt ∧ IsSpec mem opt then nextSpec mem opt else dst := by
  simp only [h opt le_rfl, isSpec_congr h]
  by_cases hit : mem opt = ipoptIt ∧ IsSpec mem opt
  · rw [if_pos hit, if_pos hit, spec_congr h hopt hle hv hit.1]
  · rw [if_neg hit, if_neg hit]

end

lemma route_frame {v : IpAddr} {i : Nat} (hopt : 20 ≤ opt) (hle : opt + optLen mem opt ≤ 60) (hop : HasHop mem opt)
    (hi : i < opt ∨ opt + optLen mem opt ≤ i) (hdst : ¬IsDst i) :
    advance (putWord (putWord mem (optPlace mem opt) v) iphaDst dst) opt i = mem i := by
  obtain ⟨hne, hlen⟩ := hop.pointer (by omega)
  simp only [IsDst, iphaDst] at hdst
  rw [advance, putByte_of_ne (by omega), putWord_of_ne (by rw [iphaDst]; omega), putWord_of_ne]
  rw [optPlace_eq (by omega) (by omega)]
  omega

lemma route_pointer {v : IpAddr} (hopt : 20 ≤ opt) (hle : opt + optLen mem opt ≤ 60)
    (hptr : 4 ≤ (mem (opt + 2)).toNat) :
    advance (putWord (putWord mem (optPlace mem opt) v) iphaDst dst) opt (opt + 2) = mem (opt + 2) + 4 := by
  rw [advance, putByte_self, putWord_of_ne (by rw [iphaDst]; omega), putWord_of_ne]
  rw [optPlace_eq (by omega) (by omega)]
  omega

lemma route_overwritten {v : IpAddr} (hopt : 20 ≤ opt) (hle : opt + optLen mem opt ≤ 60) (hop : HasHop mem opt)
    (hptr : (mem (opt + 2)).toNat < 4) :
    advance (putWord (putWord mem (optPlace mem opt) v) iphaDst dst) opt (opt + 2) =
      v.extractLsb' (8 * (mem (opt + 2)).toNat) 8 + 4 := by
  have hplace : opt + 2 = optPlace mem opt + (3 - (mem (opt + 2)).toNat) := by
    rw [optPlace_eq (by omega) (by omega)]
    omega
  have hbyte := putWord_byte (m := mem) (a := optPlace mem opt) (v := v) (k := 3 - (mem (opt + 2)).toNat) (by omega)
  rw [← hplace] at hbyte
  rw [advance, putByte_self, putWord_of_ne (by rw [iphaDst]; omega), hbyte]
  congr 2
  omega

lemma forward_low {hdr' : Header} {len i : Nat} (h : forwardOption r hdr opt len = .ok hdr') (hopt : 20 ≤ opt)
    (hle : opt + len ≤ 60) (hi : i + 1 < opt) (hdst : ¬IsDst i) : hdr'.mem i = hdr.mem i := by
  simp only [forwardOption] at h
  split at h
  · split at h
    · exact absurd h (by simp)
    split at h
    · obtain rfl : hdr = hdr' := by simpa using h
      rfl
    split at h
    · obtain rfl : hdr = hdr' := by simpa using h
      rfl
    simp only [Except.ok.injEq] at h
    simp only [IsDst, iphaDst] at hdst
    rw [← h]
    dsimp only
    rw [advance, putByte_of_ne (by omega), putWord_of_ne (by rw [iphaDst]; omega), putWord_of_ne]
    rw [optPlace_eq (by omega) (by omega)]
    omega
  · split at h
    · simp only [Except.ok.injEq] at h
      rw [← h]
      exact recordRoute_low hopt (by omega) hi
    split at h
    · simp only [Except.ok.injEq] at h
      rw [← h]
      exact insertTimestamp_low hopt (by omega) hi
    · obtain rfl : hdr = hdr' := by simpa using h
      rfl

lemma forward_error {len : Nat} {result : Int × Memory} (h : forwardOption r hdr opt len = .error result) :
    result.2 = hdr.mem := by
  simp only [forwardOption] at h
  split at h
  · split at h
    · simp only [Except.error.injEq] at h
      rw [← h]
    · split at h
      · exact absurd h (by simp)
      · split at h <;> exact absurd h (by simp)
  · split at h
    · exact absurd h (by simp)
    · split at h <;> exact absurd h (by simp)

lemma CleanStep.refl (hspec : SpecLocal r mem opt) : CleanStep r mem mem opt :=
  ⟨fun _ _ _ => rfl, fun _ h => absurd rfl h, hspec, fun _ => Iff.rfl⟩

lemma specLocal_of_ne (h : mem opt ≠ ipoptIt) : SpecLocal r mem opt := fun hit => absurd hit h

lemma IsSourceRoute.ne (h : IsSourceRoute mem opt) : mem opt ≠ ipoptRr ∧ mem opt ≠ ipoptIt := by
  rcases h with h | h <;> rw [h] <;> decide

lemma forward_route (hgo : r.forwardSrcRouted) (hopt : 20 ≤ opt) (hle : opt + optLen hdr.mem opt ≤ 60)
    (hroute : IsSourceRoute hdr.mem opt) :
    ∃ mem', forwardOption r hdr opt (optLen hdr.mem opt) = .ok ⟨mem', (forwardCourse r).next hdr.mem hdr.dst opt⟩ ∧
      (RouteFits r hdr.mem hdr.dst opt → CleanStep r hdr.mem mem' opt) ∧
      (¬RouteFits r hdr.mem hdr.dst opt →
        ∀ out : Memory, (∀ i, 20 ≤ i → i + 1 < opt + optLen hdr.mem opt → out i = mem' i) →
          ¬KeptOption r hdr.mem out opt) := by
  have hspec : SpecLocal r hdr.mem opt := specLocal_of_ne hroute.ne.2
  have hwr : Written hdr.mem opt := hroute.elim .inl fun h => .inr (.inl h)
  have hnext : (forwardCourse r).next hdr.mem hdr.dst opt =
      if r.isLocal hdr.dst ∧ HasHop hdr.mem opt then word hdr.mem (optPlace hdr.mem opt) else hdr.dst := if_pos hroute
  by_cases hhop : r.isLocal hdr.dst ∧ HasHop hdr.mem opt
  · obtain ⟨hlocal, hhop⟩ := hhop
    obtain ⟨hne, hlen⟩ := hhop.pointer (by omega)
    refine ⟨advance (putWord (putWord hdr.mem (optPlace hdr.mem opt) r.ireSrcAddr) iphaDst
        (word hdr.mem (optPlace hdr.mem opt))) opt, ?_, fun hfits =>
      ⟨fun i hi hdst => route_frame hopt hle hhop hi hdst, fun _ _ => hwr, hspec, fun _ => ?_⟩,
      fun hfits out hout hk => ?_⟩
    · rw [hnext, if_pos ⟨hlocal, hhop⟩, forwardOption]
      rw [if_pos hroute, if_neg (not_not.mpr hgo), if_neg (not_not.mpr hlocal), if_neg hhop]
    · by_cases hptr : 4 ≤ (hdr.mem (opt + 2)).toNat
      · rw [route_pointer hopt hle hptr, toNat_add_four (by omega)]
        omega
      · rw [route_overwritten hopt hle hhop (by omega)]
        have := hfits hroute hlocal hhop (by omega)
        omega
    · have hptr : (hdr.mem (opt + 2)).toNat < 4 := by
        by_contra hge
        exact hfits fun _ _ _ hlt => absurd hlt hge
      have hbad := hk.pointer hwr (by omega)
      rw [hout _ (by omega) (by omega), route_overwritten hopt hle hhop hptr] at hbad
      exact hfits fun _ _ _ _ => hbad
  · refine ⟨hdr.mem, ?_, fun _ => .refl hspec, fun hfits => absurd (fun _ hl hh => absurd ⟨hl, hh⟩ hhop) hfits⟩
    rw [hnext, if_neg hhop, forwardOption]
    rw [if_pos hroute, if_neg (not_not.mpr hgo)]
    by_cases hlocal : r.isLocal hdr.dst
    · rw [if_neg (not_not.mpr hlocal), if_pos (not_not.mp fun h => hhop ⟨hlocal, h⟩)]
    · rw [if_pos hlocal]

/-- A record route or timestamp option, or one that the walkers pass by: both walkers do the same. -/
theorem other_step (body : Header → Nat → Nat → Except (Int × Memory) Header) (next : IpAddr)
    (hbody : body hdr opt (optLen hdr.mem opt) =
      if hdr.mem opt = ipoptRr then .ok { hdr with mem := recordRoute r hdr.mem opt (optLen hdr.mem opt) }
      else if hdr.mem opt = ipoptIt then .ok (insertTimestamp r hdr opt (optLen hdr.mem opt))
      else .ok hdr)
    (hnext : next = if hdr.mem opt = ipoptIt ∧ IsSpec hdr.mem opt then nextSpec hdr.mem opt else hdr.dst)
    (hopt : 20 ≤ opt) (hle : opt + optLen hdr.mem opt ≤ 60) (hv : Valid hdr.mem opt) :
    ∃ mem', body hdr opt (optLen hdr.mem opt) = .ok ⟨mem', next⟩ ∧
      (SpecLocal r hdr.mem opt → CleanStep r hdr.mem mem' opt) ∧
      (¬SpecLocal r hdr.mem opt →
        ∀ out : Memory, (∀ i, 20 ≤ i → i + 1 < opt + optLen hdr.mem opt → out i = mem' i) →
          ¬KeptOption r hdr.mem out opt) := by
  by_cases hrr : hdr.mem opt = ipoptRr
  · have hne : hdr.mem opt ≠ ipoptIt := by
      rw [hrr]
      decide
    rw [hbody, if_pos hrr, hnext, if_neg (fun h => hne h.1)]
    exact ⟨_, rfl, fun _ => recordRoute_clean hopt hle hrr hv, fun h => absurd (specLocal_of_ne hne) h⟩
  rw [hbody, if_neg hrr]
  split_ifs with hit
  · refine ⟨(insertTimestamp r hdr opt (optLen hdr.mem opt)).mem, ?_,
      fun hs => insertTimestamp_clean hopt hle hit hv (hs hit), fun hs out hout => ?_⟩
    · rw [hnext]
      by_cases hs : IsSpec hdr.mem opt
      · rw [if_pos ⟨hit, hs⟩, insertTimestamp]
        rw [if_pos hs]
      · rw [if_neg fun h => hs h.2, insertTimestamp]
        rw [if_neg hs]
    · simp only [SpecLocal, Classical.not_imp] at hs
      obtain ⟨-, hs, hlocal⟩ := hs
      exact insertTimestamp_dirty hopt hle hit hv hs hlocal hout
  · rw [hnext, if_neg (fun h => hit h.1)]
    exact ⟨hdr.mem, rfl, .refl, fun h => absurd (specLocal_of_ne hit) h⟩

lemma forward_follows : Follows r (forwardCourse r) (forwardOption r) where
  congr dst h hopt hle hv := by
    refine ⟨and_congr_left' (isSourceRoute_congr h), ?_, and_congr (specLocal_congr h hopt hle hv) (routeFits_congr h)⟩
    simp only [forwardCourse, isSourceRoute_congr h, hasHop_congr h, specNext_congr h hopt hle hv]
    refine ite_congr rfl (fun _ => ite_congr rfl (fun hhop => ?_) fun _ => rfl) fun _ => rfl
    obtain ⟨hne, -⟩ := hhop.2.pointer (by omega)
    rw [optPlace_congr h]
    exact word_congr h (by rw [optPlace_eq (by omega) (by omega)]; omega)
  stop := by
    rintro hdr opt ⟨hroute, hprohibited⟩
    refine ⟨-1, ?_⟩
    rw [forwardOption]
    rw [if_pos hroute, if_pos hprohibited]
  go := by
    intro hdr opt hgo hopt hle hv
    by_cases hroute : IsSourceRoute hdr.mem opt
    · obtain ⟨mem', hbody, hclean, hdirty⟩ := forward_route (not_not.mp fun h => hgo ⟨hroute, h⟩) hopt hle hroute
      refine ⟨mem', hbody, fun hc => hclean hc.2, fun hc => hdirty fun hfits => hc ⟨?_, hfits⟩⟩
      exact specLocal_of_ne hroute.ne.2
    obtain ⟨mem', hbody, hclean, hdirty⟩ := other_step (forwardOption r)
      ((forwardCourse r).next hdr.mem hdr.dst opt)
      (by
        exact if_neg hroute) (if_neg hroute) hopt hle hv
    refine ⟨mem', hbody, fun hc => hclean hc.1, fun hc => hdirty fun hs => hc ⟨hs, ?_⟩⟩
    exact fun h => absurd h hroute
  low h hopt hle i hi hdst := forward_low h hopt hle hi hdst
  error h := forward_error h

lemma local_low {hdr' : Header} {len i : Nat} (h : localOption r hdr opt len = .ok hdr') (hopt : 20 ≤ opt)
    (hle : opt + len ≤ 60) (hi : i + 1 < opt) : hdr'.mem i = hdr.mem i := by
  simp only [localOption] at h
  split at h
  · split at h
    · obtain rfl : hdr = hdr' := by simpa using h
      rfl
    split at h
    · exact absurd h (by simp)
    simp only [Except.ok.injEq] at h
    rw [← h]
    dsimp only
    rw [putByte_of_ne (by omega), zeroBytes, if_neg]
    rw [optPlace_eq (by omega) (by omega)]
    omega
  · split at h
    · simp only [Except.ok.injEq] at h
      rw [← h]
      exact recordRoute_low hopt (by omega) hi
    split at h
    · simp only [Except.ok.injEq] at h
      rw [← h]
      exact insertTimestamp_low hopt (by omega) hi
    · obtain rfl : hdr = hdr' := by simpa using h
      rfl

lemma local_error {len : Nat} {result : Int × Memory} (h : localOption r hdr opt len = .error result) :
    result.2 = hdr.mem := by
  simp only [localOption] at h
  split at h
  · split at h
    · exact absurd h (by simp)
    · split at h
      · simp only [Except.error.injEq] at h
        rw [← h]
      · exact absurd h (by simp)
  · split at h
    · exact absurd h (by simp)
    · split at h <;> exact absurd h (by simp)

lemma cutRoute_clean (hopt : 20 ≤ opt) (hle : opt + optLen mem opt ≤ 60) (hroute : IsSourceRoute mem opt)
    (hhop : HasHop mem opt) {b : Byte} :
    CleanStep r mem
      (putByte (zeroBytes mem (optPlace mem opt) (optLen mem opt - optOff mem opt)) (opt + 1) b) opt := by
  obtain ⟨hne, hlen⟩ := hhop.pointer (by omega)
  have hplace : optPlace mem opt = _ := optPlace_eq (by omega) (by omega)
  have hoff := optOff_eq hne
  refine ⟨fun i hi _ => ?_, fun _ _ => hroute.elim .inl fun h => .inr (.inl h), specLocal_of_ne hroute.ne.2,
    fun _ => ?_⟩
  · rw [putByte_of_ne (by omega), zeroBytes, if_neg (by omega)]
  · rw [putByte_of_ne (by omega), zeroBytes]
    split
    · simp only [BitVec.ofNat_eq_ofNat, BitVec.toNat_ofNat, Nat.zero_mod]
      omega
    · exact Iff.rfl

lemma local_follows : Follows r (localCourse r) (localOption r) where
  congr dst h hopt hle hv :=
    ⟨and_congr (by rw [h _ le_rfl]) (hasHop_congr h), specNext_congr h hopt hle hv, specLocal_congr h hopt hle hv⟩
  stop := by
    rintro hdr opt ⟨hss, hhop⟩
    refine ⟨-1, ?_⟩
    rw [localOption]
    have hroute : IsSourceRoute hdr.mem opt := .inl hss
    rw [if_pos hroute, if_neg hhop, if_pos hss]
  go := by
    intro hdr opt hgo hopt hle hv
    by_cases hroute : IsSourceRoute hdr.mem opt
    · have hspec : SpecLocal r hdr.mem opt := specLocal_of_ne hroute.ne.2
      have hnext : (localCourse r).next hdr.mem hdr.dst opt = hdr.dst := if_neg fun h => hroute.ne.2 h.1
      rw [hnext, localOption]
      rw [if_pos hroute]
      by_cases hhop : HasHop hdr.mem opt
      · rw [if_neg hhop, if_neg fun hss => hgo ⟨hss, hhop⟩]
        exact ⟨_, rfl, fun _ => cutRoute_clean hopt hle hroute hhop, fun hc => absurd hspec hc⟩
      · rw [if_pos (not_not.mp hhop)]
        exact ⟨hdr.mem, rfl, fun _ => .refl hspec, fun hc => absurd hspec hc⟩
    · exact other_step (localOption r) ((localCourse r).next hdr.mem hdr.dst opt)
        (by
          exact if_neg hroute) rfl hopt hle hv
  low h hopt hle i hi _ := local_low h hopt hle hi
  error h := local_error h

end Courses

section Acceptance

variable {r₀ r : Lookups} {mem : Memory} {hdr hdr' : Header} {opt totallen fuel : Nat} {v : Verdict}

theorem validateOption_valid (h : validateOption r₀ hdr opt (optLen hdr.mem opt) = .ok hdr') :
    hdr'.mem = hdr.mem ∧ Valid hdr.mem opt := by
  simp only [validateOption] at h
  by_cases hroute : IsSourceRoute hdr.mem opt
  · have hvalid : Valid hdr.mem opt := ⟨fun h => absurd h hroute.ne.1, fun h => absurd h hroute.ne.2⟩
    rw [if_pos hroute] at h
    refine ⟨?_, hvalid⟩
    split at h
    · split at h
      · exact absurd h (by simp)
      · rw [Except.ok.inj h]
    split at h
    · exact absurd h (by simp)
    · split at h
      · rw [Except.ok.inj h]
      · split at h
        · exact absurd h (by simp)
        · rw [← Except.ok.inj h]
  · rw [if_neg hroute] at h
    by_cases hrr : hdr.mem opt = ipoptRr
    · rw [if_pos hrr] at h
      split at h
      · exact absurd h (by simp)
      rename_i hptr
      obtain rfl := Except.ok.inj h
      have hne : hdr.mem opt ≠ ipoptIt := by
        rw [hrr]
        decide
      exact ⟨rfl, fun _ => by omega, fun hit => absurd hit hne⟩
    · rw [if_neg hrr] at h
      by_cases hit : hdr.mem opt = ipoptIt
      · rw [if_pos hit] at h
        split at h
        · exact absurd h (by simp)
        split at h
        · exact absurd h (by simp)
        rename_i h5 room hroom
        split at h
        · exact absurd h (by simp)
        · split at h
          · exact absurd h (by simp)
          · rename_i hptr
            obtain rfl := Except.ok.inj h
            exact ⟨rfl, fun h => absurd h hrr, fun _ => ⟨by omega, by omega, by rw [hroom]; rfl⟩⟩
      · rw [if_neg hit] at h
        obtain rfl := Except.ok.inj h
        exact ⟨rfl, fun h => absurd h hrr, fun h => absurd h hit⟩

lemma validateOption_error {len : Nat} (h : validateOption r₀ hdr opt len = .error v) : v.value = -1 := by
  cases v with
  | nextHop dst =>
    simp only [validateOption] at h
    repeat' split at h
    all_goals exact absurd h (by simp)
  | paramProblem code => rfl
  | sourceRouteFailed => rfl

theorem valid_of_walk (h : walkOptions (fun _ opt => .paramProblem (opt + 1)) (fun hdr => .nextHop hdr.dst)
    (validateOption r₀) fuel hdr opt totallen = some v) (hv : v.value ≠ -1) :
    ∀ o, Listed hdr.mem opt totallen o → Valid hdr.mem o := by
  induction fuel generalizing hdr opt totallen with
  | zero => exact absurd h (by simp [walkOptions])
  | succ fuel ih =>
    intro o ho
    have hw := ho.whole
    obtain ⟨hne, heol, hpos, hle⟩ := id hw
    rw [walkOptions, if_neg (by simp [hne, heol]), if_neg (by simp [hpos]; omega)] at h
    cases hbody : validateOption r₀ hdr opt (optLen hdr.mem opt) with
    | error result =>
      rw [hbody] at h
      obtain rfl : result = v := Option.some.inj h
      exact absurd (validateOption_error hbody) hv
    | ok hdr' =>
      rw [hbody] at h
      obtain ⟨hmem, hvalid⟩ := validateOption_valid hbody
      rcases (listed_iff hw).mp ho with rfl | hrest
      · exact hvalid
      · have := ih h o (by rwa [hmem])
        rwa [hmem] at this

/-- A header with or without options, as `ip_rput` passes it on. -/
def IpHeader (mem : Memory) : Prop := 0x45 ≤ (mem 0).toNat ∧ (mem 0).toNat ≤ 0x4f

/-- The header that `ip_rput_options` lets through: it returns other than -1. -/
def OptionsAccepted (r : Lookups) (mem : Memory) : Prop := ∃ v, ipRputOptions r mem = some v ∧ v.value ≠ -1

lemma optionsLength_le (h : IpHeader mem) : optionsLength mem ≤ 40 := by
  obtain ⟨hlo, hhi⟩ := h
  rw [optionsLength]
  omega

lemma OptionsAccepted.synced (hhdr : IpHeader mem) (h : OptionsAccepted r₀ mem) :
    Synced mem ⟨mem, word mem iphaDst⟩ 20 (optionsLength mem) := by
  obtain ⟨v, hrun, hv⟩ := h
  refine ⟨fun _ _ => rfl, le_rfl, ?_, valid_of_walk hrun hv⟩
  have := optionsLength_le hhdr
  omega

/-- What both walkers need of a header: the pointers are at most one beyond their options, and the options that a
walk comes to are clean. -/
def Orderly (c : Course) (mem : Memory) : Prop :=
  (∀ o, Listed mem 20 (optionsLength mem) o → PointerFits mem o) ∧
    ∀ dst o, Visited c mem (word mem iphaDst) 20 (optionsLength mem) dst o → c.clean mem dst o

/-- Both walkers end, and each keeps to the options of an accepted header exactly when it is orderly for it. -/
theorem options_kept (hhdr : IpHeader mem) (hacc : OptionsAccepted r₀ mem) :
    (∃ rc out, ipRputForwardOptions r mem = some (rc, out) ∧
      (Kept r mem out 20 (optionsLength mem) ↔ Orderly (forwardCourse r) mem)) ∧
    ∃ rc out, ipRputLocalOptions r mem = some (rc, out) ∧
      (Kept r mem out 20 (optionsLength mem) ↔ Orderly (localCourse r) mem) := by
  have hsync := hacc.synced hhdr
  constructor
  · obtain ⟨⟨rc, out⟩, hrun⟩ := walkWriter_ends (forwardOption r) ⟨mem, word mem iphaDst⟩ 20
      (Nat.lt_succ_self (optionsLength mem))
    exact ⟨rc, out, hrun, walkWriter_kept forward_follows hsync hrun⟩
  · obtain ⟨⟨rc, out⟩, hrun⟩ := walkWriter_ends (localOption r) ⟨mem, word mem iphaDst⟩ 20
      (Nat.lt_succ_self (optionsLength mem))
    exact ⟨rc, out, hrun, walkWriter_kept local_follows hsync hrun⟩

def strangers : Lookups where
  isLocal _ := false
  isInterface _ := false
  forwardSrcRouted := true
  ireSrcAddr := 0x0a000001
  millis _ := 0xffffffff
  stale _ := 0

/-- A header of 28 bytes with a timestamp option, the pointer at its first entry. -/
def stampHeader (flag : Byte) : Memory :=
  Lib.ofBytes
    [0x47, 0, 0, 40, 0, 0, 0, 0, 64, 17, 0, 0, 10, 0, 0, 9, 10, 0, 0, 8, 0x44, 8, 5, flag, 10, 0, 0, 7]

lemma stampHeader_accepted (flag : Byte) (h : flag = ipoptItTime ∨ flag = ipoptItSpec) :
    IpHeader (stampHeader flag) ∧ OptionsAccepted strangers (stampHeader flag) := by
  have hvalue : (ipRputOptions strangers (stampHeader flag)).map Verdict.value = some 0x0a000008 := by
    rcases h with rfl | rfl <;> decide +kernel
  obtain ⟨v, hrun, hv⟩ := Option.map_eq_some_iff.mp hvalue
  have hfirst : stampHeader flag 0 = 0x47 := rfl
  exact ⟨⟨by rw [hfirst]; decide, by rw [hfirst]; decide⟩, v, hrun, by rw [hv]; decide⟩

theorem options_kept_stamp :
    (∃ rc out, ipRputForwardOptions strangers (stampHeader 0) = some (rc, out) ∧
      (Kept strangers (stampHeader 0) out 20 (optionsLength (stampHeader 0)) ↔
        Orderly (forwardCourse strangers) (stampHeader 0))) ∧
    ∃ rc out, ipRputLocalOptions strangers (stampHeader 0) = some (rc, out) ∧
      (Kept strangers (stampHeader 0) out 20 (optionsLength (stampHeader 0)) ↔
        Orderly (localCourse strangers) (stampHeader 0)) :=
  options_kept (stampHeader_accepted 0 (.inl rfl)).1 (stampHeader_accepted 0 (.inl rfl)).2

/-- The address of another host gets the stamp, which runs over the end of the header. -/
theorem foreign_stamp_overruns :
    ¬∀ (r₀ r : Lookups) (mem : Memory), IpHeader mem → OptionsAccepted r₀ mem →
      (∃ rc out, ipRputForwardOptions r mem = some (rc, out) ∧ Kept r mem out 20 (optionsLength mem)) ∧
      ∃ rc out, ipRputLocalOptions r mem = some (rc, out) ∧ Kept r mem out 20 (optionsLength mem) := by
  intro hall
  obtain ⟨hhdr, hacc⟩ := stampHeader_accepted ipoptItSpec (.inr rfl)
  obtain ⟨⟨rc, out, hrun, hkept⟩, -⟩ := hall strangers strangers _ hhdr hacc
  have hlast : (ipRputForwardOptions strangers (stampHeader ipoptItSpec)).map (fun result => result.2 28) =
      some 0xff := by decide +kernel
  rw [hrun, Option.map_some, Option.some.injEq] at hlast
  have hbyte : out 28 = 0xff := hlast
  have hlen : optionsLength (stampHeader ipoptItSpec) = 8 := by decide
  have hold : stampHeader ipoptItSpec 28 = 0 := by decide
  obtain ⟨o, ho, -, -, hlt⟩ := hkept.inside 28 (by omega) (by rw [hbyte, hold]; decide)
  have := ho.bounds
  omega

end Acceptance

end Solaris.Ip
