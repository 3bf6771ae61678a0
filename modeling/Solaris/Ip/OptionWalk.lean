import Solaris.Ip.Options

/-!
# Walks through options

The options that the bytes of a header name, and what the walkers may change of them.
-/

namespace Solaris.Ip

open Lib (Byte Memory word putByte putWord)

section Listing

/-- The walk goes into the option at `opt`. -/
def Whole (mem : Memory) (opt totallen : Nat) : Prop :=
  totallen ≠ 0 ∧ mem opt ≠ ipoptEol ∧ optLen mem opt ≠ 0 ∧ optLen mem opt ≤ totallen

/-- The options from `opt` on. -/
inductive Listed (mem : Memory) : Nat → Nat → Nat → Prop
  | here {opt totallen : Nat} (whole : Whole mem opt totallen) : Listed mem opt totallen opt
  | later {opt totallen o : Nat} (whole : Whole mem opt totallen)
      (rest : Listed mem (opt + optLen mem opt) (totallen - optLen mem opt) o) : Listed mem opt totallen o

def Written (mem : Memory) (o : Nat) : Prop :=
  mem o = ipoptSsrr ∨ mem o = ipoptLsrr ∨ mem o = ipoptRr ∨ mem o = ipoptIt

/-- Every change from `opt` on lies in an option that may be written into, one with prespecified addresses changes
only if the next of them is local, and the pointers end at most one beyond their options. -/
structure Kept (r : Lookups) (mem out : Memory) (opt totallen : Nat) : Prop where
  inside : ∀ i, opt ≤ i → out i ≠ mem i →
    ∃ o, Listed mem opt totallen o ∧ Written mem o ∧ o ≤ i ∧ i < o + optLen mem o
  spec : ∀ o i, Listed mem opt totallen o → mem o = ipoptIt → IsSpec mem o → o ≤ i → i < o + optLen mem o →
    out i ≠ mem i → r.isLocal (nextSpec mem o)
  pointer : ∀ o, Listed mem opt totallen o → Written mem o → 3 ≤ optLen mem o →
    (out (o + 2)).toNat ≤ optLen mem o + 1

structure KeptOption (r : Lookups) (mem out : Memory) (opt : Nat) : Prop where
  inside : ∀ i, opt ≤ i → i < opt + optLen mem opt → out i ≠ mem i → Written mem opt
  spec : mem opt = ipoptIt → IsSpec mem opt → ∀ i, opt ≤ i → i < opt + optLen mem opt → out i ≠ mem i →
    r.isLocal (nextSpec mem opt)
  pointer : Written mem opt → 3 ≤ optLen mem opt → (out (opt + 2)).toNat ≤ optLen mem opt + 1

def PointerFits (mem : Memory) (o : Nat) : Prop :=
  Written mem o → 3 ≤ optLen mem o → (mem (o + 2)).toNat ≤ optLen mem o + 1

variable {r : Lookups} {mem out : Memory} {opt totallen o : Nat}

lemma Listed.whole (h : Listed mem opt totallen o) : Whole mem opt totallen := by
  cases h with
  | here hw => exact hw
  | later hw => exact hw

lemma Listed.bounds (h : Listed mem opt totallen o) : opt ≤ o ∧ o + optLen mem o ≤ opt + totallen := by
  induction h with
  | here hw =>
    obtain ⟨-, -, -, hle⟩ := hw
    omega
  | later hw _ ih =>
    obtain ⟨-, -, -, hle⟩ := hw
    omega

lemma listed_iff (hw : Whole mem opt totallen) :
    Listed mem opt totallen o ↔
      o = opt ∨ Listed mem (opt + optLen mem opt) (totallen - optLen mem opt) o := by
  constructor
  · intro h
    cases h with
    | here => exact .inl rfl
    | later _ hrest => exact .inr hrest
  · rintro (rfl | hrest)
    · exact .here hw
    · exact .later hw hrest

lemma kept_whole (hw : Whole mem opt totallen) :
    Kept r mem out opt totallen ↔
      KeptOption r mem out opt ∧ Kept r mem out (opt + optLen mem opt) (totallen - optLen mem opt) := by
  constructor
  · intro h
    refine ⟨⟨fun i hi hlt hne => ?_, fun hit hs i hi hlt => h.spec opt i (.here hw) hit hs hi hlt,
      h.pointer opt (.here hw)⟩, ⟨fun i hi hne => ?_, fun o i ho => h.spec o i (.later hw ho),
      fun o ho => h.pointer o (.later hw ho)⟩⟩
    · obtain ⟨o, ho, hwr, hoi, -⟩ := h.inside i hi hne
      rcases (listed_iff hw).mp ho with rfl | hrest
      · exact hwr
      · have := hrest.bounds.1
        omega
    · obtain ⟨o, ho, hwr, hoi, hlt⟩ := h.inside i (by omega) hne
      rcases (listed_iff hw).mp ho with rfl | hrest
      · omega
      · exact ⟨o, hrest, hwr, hoi, hlt⟩
  · rintro ⟨hown, hrest⟩
    refine ⟨fun i hi hne => ?_, fun o i ho => ?_, fun o ho => ?_⟩
    · by_cases hlt : i < opt + optLen mem opt
      · exact ⟨opt, .here hw, hown.inside i hi hlt hne, hi, hlt⟩
      · obtain ⟨o, ho, hrest⟩ := hrest.inside i (by omega) hne
        exact ⟨o, .later hw ho, hrest⟩
    · rcases (listed_iff hw).mp ho with rfl | ho
      · exact fun hit hs => hown.spec hit hs i
      · exact hrest.spec o i ho
    · rcases (listed_iff hw).mp ho with rfl | ho
      · exact hown.pointer
      · exact hrest.pointer o ho

lemma kept_same (h : ∀ i, opt ≤ i → out i = mem i) :
    Kept r mem out opt totallen ↔ ∀ o, Listed mem opt totallen o → PointerFits mem o := by
  have hsame : ∀ {o}, Listed mem opt totallen o → out (o + 2) = mem (o + 2) := fun ho =>
    h _ (by have := ho.bounds.1; omega)
  constructor
  · intro hk o ho hwr hlen
    exact hsame ho ▸ hk.pointer o ho hwr hlen
  · intro hp
    refine ⟨fun i hi hne => absurd (h i hi) hne, fun o i ho _ _ hi _ hne => ?_, fun o ho hwr hlen => ?_⟩
    · exact absurd (h i (ho.bounds.1.trans hi)) hne
    · exact hsame ho ▸ hp o ho hwr hlen

end Listing

section Agreement

variable {mem m : Memory} {opt : Nat}

section

variable (h : ∀ i, opt ≤ i → m i = mem i)

include h

lemma optLen_congr : optLen m opt = optLen mem opt := by
  rw [optLen, optLen, h opt le_rfl, h (opt + 1) (by omega)]

lemma optOff_congr : optOff m opt = optOff mem opt := by
  rw [optOff, optOff, h (opt + 2) (by omega)]

lemma optFlag_congr : optFlag m opt = optFlag mem opt := by
  rw [optFlag, optFlag, h (opt + 3) (by omega)]

lemma optPlace_congr : optPlace m opt = optPlace mem opt := by
  rw [optPlace, optPlace, optOff_congr h]

lemma isSpec_congr : IsSpec m opt ↔ IsSpec mem opt := by
  rw [IsSpec, IsSpec, optFlag_congr h]

lemma written_congr : Written m opt ↔ Written mem opt := by
  rw [Written, Written, h opt le_rfl]

lemma whole_congr {totallen : Nat} :
    Whole m opt totallen ↔ Whole mem opt totallen := by
  rw [Whole, Whole, h opt le_rfl, optLen_congr h]

end

lemma word_congr {a : Nat} (h : ∀ i, opt ≤ i → m i = mem i) (ha : opt ≤ a) : word m a = word mem a := by
  rw [Lib.word_eq_iff, Lib.half_eq_iff, Lib.half_eq_iff]
  exact ⟨⟨h _ ha, h _ (by omega)⟩, h _ (by omega), h _ (by omega)⟩

lemma optPlace_eq (hopt : 0 < opt) (hle : opt ≤ 60) :
    optPlace mem opt = opt + (mem (opt + 2)).toNat - 1 := by
  simp only [optPlace, optOff]
  omega

lemma optOff_eq (h : (mem (opt + 2)).toNat ≠ 0) : optOff mem opt = (mem (opt + 2)).toNat - 1 := by
  simp only [optOff]
  omega

lemma pointer_of_optOff {len : Nat} (hlen : len ≤ 60) (h : ¬(len < 4 ∨ len - 4 < optOff mem opt)) :
    (mem (opt + 2)).toNat ≠ 0 ∧ (mem (opt + 2)).toNat + 3 ≤ len := by
  simp only [optOff] at h
  omega

lemma nextSpec_congr (h : ∀ i, opt ≤ i → m i = mem i) (hopt : 0 < opt) (hle : opt ≤ 60)
    (hptr : (mem (opt + 2)).toNat ≠ 0) : nextSpec m opt = nextSpec mem opt := by
  rw [nextSpec, nextSpec, optPlace_congr h]
  exact word_congr h (by rw [optPlace_eq hopt hle]; omega)

end Agreement

section Walker

/-- What `ip_rput_options` makes sure of for an option. -/
def Valid (mem : Memory) (opt : Nat) : Prop :=
  (mem opt = ipoptRr → 4 ≤ (mem (opt + 2)).toNat) ∧
    (mem opt = ipoptIt → 5 ≤ optLen mem opt ∧ 5 ≤ (mem (opt + 2)).toNat ∧ (roomForStamp mem opt).isSome)

lemma valid_congr {mem m : Memory} {opt : Nat} (h : ∀ i, opt ≤ i → m i = mem i) : Valid m opt ↔ Valid mem opt := by
  rw [Valid, Valid, h opt le_rfl, h (opt + 2) (by omega), optLen_congr h, roomForStamp, roomForStamp, optFlag_congr h]

/-- What a walker does with bytes that it has not changed: the options it ends at, the next `dst`, and the options
it deals with as it should. -/
structure Course where
  stops : Memory → Nat → Prop
  next : Memory → IpAddr → Nat → IpAddr
  clean : Memory → IpAddr → Nat → Prop

/-- The options that a walk comes to, with `dst` there. -/
inductive Visited (c : Course) (mem : Memory) : IpAddr → Nat → Nat → IpAddr → Nat → Prop
  | here {dst : IpAddr} {opt totallen : Nat} (whole : Whole mem opt totallen) (goes : ¬c.stops mem opt) :
      Visited c mem dst opt totallen dst opt
  | later {dst d : IpAddr} {opt totallen o : Nat} (whole : Whole mem opt totallen) (goes : ¬c.stops mem opt)
      (rest : Visited c mem (c.next mem dst opt) (opt + optLen mem opt) (totallen - optLen mem opt) d o) :
      Visited c mem dst opt totallen d o

/-- The bytes of `ipha_dst`. -/
def IsDst (i : Nat) : Prop := iphaDst ≤ i ∧ i < iphaDst + 4

/-- A clean step: it changes nothing outside the option, nothing at all in options of other kinds, and leaves the
pointer alone or inside. -/
structure CleanStep (r : Lookups) (mem mem' : Memory) (opt : Nat) : Prop where
  frame : ∀ i, i < opt ∨ opt + optLen mem opt ≤ i → ¬IsDst i → mem' i = mem i
  written : ∀ i, mem' i ≠ mem i → Written mem opt
  spec : mem opt = ipoptIt → IsSpec mem opt → r.isLocal (nextSpec mem opt)
  pointer : 3 ≤ optLen mem opt →
    ((mem' (opt + 2)).toNat ≤ optLen mem opt + 1 ↔ (mem (opt + 2)).toNat ≤ optLen mem opt + 1)

/-- A body follows a course: on a valid option it stops where the course does, and its step is clean exactly where
the course is. Whatever it is given, it writes nothing far below the option. -/
structure Follows (r : Lookups) (c : Course) (body : Header → Nat → Nat → Except (Int × Memory) Header) : Prop where
  congr : ∀ {mem m : Memory} {opt : Nat} (dst : IpAddr), (∀ i, opt ≤ i → m i = mem i) → 20 ≤ opt →
    opt + optLen mem opt ≤ 60 → Valid mem opt →
      (c.stops m opt ↔ c.stops mem opt) ∧ c.next m dst opt = c.next mem dst opt ∧
        (c.clean m dst opt ↔ c.clean mem dst opt)
  stop : ∀ (hdr : Header) {opt : Nat}, c.stops hdr.mem opt →
    ∃ rc, body hdr opt (optLen hdr.mem opt) = .error (rc, hdr.mem)
  go : ∀ {hdr : Header} {opt : Nat}, ¬c.stops hdr.mem opt → 20 ≤ opt → opt + optLen hdr.mem opt ≤ 60 →
    Valid hdr.mem opt → ∃ mem', body hdr opt (optLen hdr.mem opt) = .ok ⟨mem', c.next hdr.mem hdr.dst opt⟩ ∧
      (c.clean hdr.mem hdr.dst opt → CleanStep r hdr.mem mem' opt) ∧
      (¬c.clean hdr.mem hdr.dst opt →
        ∀ out : Memory, (∀ i, 20 ≤ i → i + 1 < opt + optLen hdr.mem opt → out i = mem' i) →
          ¬KeptOption r hdr.mem out opt)
  low : ∀ {hdr hdr' : Header} {opt len : Nat}, body hdr opt len = .ok hdr' → 20 ≤ opt → opt + len ≤ 60 →
    ∀ i, i + 1 < opt → ¬IsDst i → hdr'.mem i = hdr.mem i
  error : ∀ {hdr : Header} {opt len : Nat} {result : Int × Memory}, body hdr opt len = .error result →
    result.2 = hdr.mem

end Walker

section Runs

variable {r : Lookups} {c : Course} {body : Header → Nat → Nat → Except (Int × Memory) Header}
  {mem out : Memory} {opt totallen fuel : Nat} {hdr : Header}

def walkWriter (body : Header → Nat → Nat → Except (Int × Memory) Header) (fuel : Nat) (hdr : Header)
    (opt totallen : Nat) : Option (Int × Memory) :=
  walkOptions (fun hdr _ => (0, hdr.mem)) (fun hdr => (0, hdr.mem)) body fuel hdr opt totallen

lemma walkWriter_stop (hw : ¬Whole hdr.mem opt totallen) :
    walkWriter body (fuel + 1) hdr opt totallen = some (0, hdr.mem) := by
  rw [walkWriter, walkOptions]
  by_cases hend : totallen = 0 ∨ hdr.mem opt = ipoptEol
  · rw [if_pos hend]
  · rw [if_neg hend, if_pos]
    rw [not_or] at hend
    by_contra hbad
    rw [not_or, Nat.not_lt] at hbad
    exact hw ⟨hend.1, hend.2, hbad.1, hbad.2⟩

lemma walkWriter_whole (hw : Whole hdr.mem opt totallen) :
    walkWriter body (fuel + 1) hdr opt totallen =
      match body hdr opt (optLen hdr.mem opt) with
      | .error result => some result
      | .ok hdr' =>
        walkWriter body fuel hdr' (opt + optLen hdr.mem opt) (totallen - optLen hdr.mem opt) := by
  obtain ⟨hne, heol, hpos, hle⟩ := hw
  rw [walkWriter, walkOptions, if_neg (by simp [hne, heol]), if_neg (by simp [hpos]; omega)]
  cases body hdr opt (optLen hdr.mem opt) with
  | error result => rfl
  | ok hdr' => rfl

lemma walkWriter_ends (body : Header → Nat → Nat → Except (Int × Memory) Header) (hdr : Header) (opt : Nat)
    (hfuel : totallen < fuel) : ∃ result, walkWriter body fuel hdr opt totallen = some result := by
  induction fuel generalizing hdr opt totallen with
  | zero => omega
  | succ fuel ih =>
    by_cases hw : Whole hdr.mem opt totallen
    · rw [walkWriter_whole hw]
      cases hbody : body hdr opt (optLen hdr.mem opt) with
      | error result => exact ⟨result, rfl⟩
      | ok hdr' =>
        obtain ⟨hne, -, hpos, hle⟩ := hw
        exact ih _ _ (by omega)
    · exact ⟨_, walkWriter_stop hw⟩

lemma walkWriter_low (hf : Follows r c body) (hopt : 20 ≤ opt) (hle : opt + totallen ≤ 60) {rc : Int}
    (hrun : walkWriter body fuel hdr opt totallen = some (rc, out)) :
    ∀ i, i + 1 < opt → ¬IsDst i → out i = hdr.mem i := by
  induction fuel generalizing hdr opt totallen with
  | zero => exact absurd hrun (by simp [walkWriter, walkOptions])
  | succ fuel ih =>
    intro i hi hdst
    by_cases hw : Whole hdr.mem opt totallen
    · rw [walkWriter_whole hw] at hrun
      obtain ⟨-, -, hpos, hlen⟩ := hw
      cases hbody : body hdr opt (optLen hdr.mem opt) with
      | error result =>
        rw [hbody] at hrun
        obtain rfl : result = (rc, out) := by simpa using hrun
        exact congrFun (hf.error hbody) i
      | ok hdr' =>
        rw [hbody] at hrun
        have hrest := ih (by omega) (by omega) hrun i (by omega) hdst
        exact hrest.trans (hf.low hbody hopt (by omega) i hi hdst)
    · rw [walkWriter_stop hw] at hrun
      simp only [Option.some.injEq, Prod.mk.injEq] at hrun
      rw [← hrun.2]

lemma keptOption_congr {m : Memory} (h : ∀ i, opt ≤ i → m i = mem i) (hopt : 20 ≤ opt)
    (hle : opt + optLen mem opt ≤ 60) (hv : Valid mem opt) :
    KeptOption r m out opt ↔ KeptOption r mem out opt := by
  have hlen := optLen_congr h
  have hnext : mem opt = ipoptIt → nextSpec m opt = nextSpec mem opt := fun hit =>
    nextSpec_congr h (by omega) (by omega) (by have := (hv.2 hit).2.1; omega)
  constructor
  · intro hk
    refine ⟨fun i hi hlt hne => ?_, fun hit hs i hi hlt hne => ?_, fun hwr h3 => ?_⟩
    · exact (written_congr h).mp (hk.inside i hi (by omega) (by rwa [h i hi]))
    · rw [← hnext hit]
      exact hk.spec (by rwa [h opt le_rfl]) ((isSpec_congr h).mpr hs) i hi (by omega) (by rwa [h i hi])
    · have := hk.pointer ((written_congr h).mpr hwr) (by omega)
      omega
  · intro hk
    refine ⟨fun i hi hlt hne => ?_, fun hit hs i hi hlt hne => ?_, fun hwr h3 => ?_⟩
    · exact (written_congr h).mpr (hk.inside i hi (by omega) (by rwa [← h i hi]))
    · rw [h opt le_rfl] at hit
      rw [hnext hit]
      exact hk.spec hit ((isSpec_congr h).mp hs) i hi (by omega) (by rwa [← h i hi])
    · have := hk.pointer ((written_congr h).mp hwr) (by omega)
      omega

lemma pointerFits_congr {m : Memory} (h : ∀ i, opt ≤ i → m i = mem i) :
    PointerFits m opt ↔ PointerFits mem opt := by
  rw [PointerFits, PointerFits, written_congr h, optLen_congr h, h (opt + 2) (by omega)]

lemma CleanStep.keptOption {mem' : Memory} (h : CleanStep r mem mem' opt)
    (hout : ∀ i, opt ≤ i → i < opt + optLen mem opt → out i = mem' i) :
    KeptOption r mem out opt ↔ PointerFits mem opt := by
  constructor
  · intro hk hwr h3
    have := hk.pointer hwr h3
    rw [hout _ (by omega) (by omega)] at this
    exact (h.pointer h3).mp this
  · intro hp
    refine ⟨fun i hi hlt hne => ?_, fun hit hs _ _ _ _ => h.spec hit hs, fun hwr h3 => ?_⟩
    · rw [hout i hi hlt] at hne
      exact h.written i hne
    · rw [hout _ (by omega) (by omega)]
      exact (h.pointer h3).mpr (hp hwr h3)

lemma visited_cons {dst : IpAddr} {P : IpAddr → Nat → Prop} (hw : Whole mem opt totallen)
    (hgo : ¬c.stops mem opt) :
    (∀ d o, Visited c mem dst opt totallen d o → P d o) ↔
      P dst opt ∧ ∀ d o, Visited c mem (c.next mem dst opt) (opt + optLen mem opt) (totallen - optLen mem opt) d o →
        P d o := by
  constructor
  · intro h
    exact ⟨h _ _ (.here hw hgo), fun d o hv => h d o (.later hw hgo hv)⟩
  · rintro ⟨hhere, hrest⟩ d o hv
    cases hv with
    | here => exact hhere
    | later _ _ hv => exact hrest d o hv

lemma visited_stop {dst d : IpAddr} {o : Nat} (h : Visited c mem dst opt totallen d o) :
    Whole mem opt totallen ∧ ¬c.stops mem opt := by
  cases h with
  | here hw hgo => exact ⟨hw, hgo⟩
  | later hw hgo _ => exact ⟨hw, hgo⟩

end Runs

section Kept

variable {r : Lookups} {c : Course} {body : Header → Nat → Nat → Except (Int × Memory) Header}
  {mem out : Memory} {opt totallen fuel : Nat} {hdr : Header}

/-- The state of a walk whose bytes from `opt` on are those that came in. -/
structure Synced (mem : Memory) (hdr : Header) (opt totallen : Nat) : Prop where
  same : ∀ i, opt ≤ i → hdr.mem i = mem i
  front : 20 ≤ opt
  ends : opt + totallen ≤ 60
  valid : ∀ o, Listed mem opt totallen o → Valid mem o

lemma Synced.next {mem' : Memory} (h : Synced mem hdr opt totallen) (dst : IpAddr) (hw : Whole mem opt totallen)
    (hclean : CleanStep r hdr.mem mem' opt) :
    Synced mem ⟨mem', dst⟩ (opt + optLen mem opt) (totallen - optLen mem opt) := by
  have hfront := h.front
  have hends := h.ends
  obtain ⟨-, -, -, hlen⟩ := id hw
  refine ⟨fun i hi => ?_, by omega, by omega, fun o ho => h.valid o (.later hw ho)⟩
  have hframe : mem' i = hdr.mem i := hclean.frame i (.inr (by rw [optLen_congr h.same]; exact hi))
    (by simp only [IsDst, iphaDst]; omega)
  exact hframe.trans (h.same i (by omega))

lemma Synced.go (fuel : Nat) (hf : Follows r c body) (h : Synced mem hdr opt totallen) (hw : Whole mem opt totallen)
    (hgo : ¬c.stops mem opt) :
    ∃ mem', walkWriter body (fuel + 1) hdr opt totallen =
        walkWriter body fuel ⟨mem', c.next mem hdr.dst opt⟩ (opt + optLen mem opt) (totallen - optLen mem opt) ∧
      (c.clean mem hdr.dst opt → CleanStep r hdr.mem mem' opt) ∧
      (¬c.clean mem hdr.dst opt → ∀ out : Memory, (∀ i, 20 ≤ i → i + 1 < opt + optLen mem opt → out i = mem' i) →
        ¬KeptOption r mem out opt) := by
  have hlen := optLen_congr h.same
  have hle : opt + optLen mem opt ≤ 60 := by
    have := h.ends
    have := hw.2.2.2
    omega
  have hv := h.valid opt (.here hw)
  obtain ⟨hstops, hnext, hcleans⟩ := hf.congr hdr.dst h.same h.front hle hv
  obtain ⟨mem', hbody, hyes, hno⟩ := hf.go (mt hstops.mp hgo) h.front (by omega) ((valid_congr h.same).mpr hv)
  refine ⟨mem', ?_, fun hc => hyes (hcleans.mpr hc), fun hc out hout hk => ?_⟩
  · rw [walkWriter_whole ((whole_congr h.same).mpr hw), hbody, hlen, hnext]
  · exact hno (mt hcleans.mp hc) out (by rwa [hlen]) ((keptOption_congr h.same h.front hle hv).mpr hk)

lemma walkWriter_frame (hf : Follows r c body) (h : Synced mem hdr opt totallen)
    (hclean : ∀ d o, Visited c mem hdr.dst opt totallen d o → c.clean mem d o) {rc : Int}
    (hrun : walkWriter body fuel hdr opt totallen = some (rc, out)) :
    ∀ i, i < opt → ¬IsDst i → out i = hdr.mem i := by
  induction fuel generalizing hdr opt totallen with
  | zero => exact absurd hrun (by simp [walkWriter, walkOptions])
  | succ fuel ih =>
    intro i hi hdst
    by_cases hw : Whole mem opt totallen
    · by_cases hstop : c.stops mem opt
      · obtain ⟨rc', hbody⟩ := hf.stop hdr
          ((hf.congr hdr.dst h.same h.front (by have := h.ends; have := hw.2.2.2; omega)
            (h.valid opt (.here hw))).1.mpr hstop)
        rw [walkWriter_whole ((whole_congr h.same).mpr hw), hbody] at hrun
        simp only [Option.some.injEq, Prod.mk.injEq] at hrun
        rw [← hrun.2]
      obtain ⟨mem', hstep, hyes, -⟩ := h.go fuel hf hw hstop
      obtain ⟨hhere, hrest⟩ := (visited_cons hw hstop).mp hclean
      rw [hstep] at hrun
      have hstep' := hyes hhere
      have htail := ih (h.next _ hw hstep') hrest hrun i (by omega) hdst
      exact htail.trans (hstep'.frame i (.inl hi) hdst)
    · rw [walkWriter_stop (mt (whole_congr h.same).mp hw)] at hrun
      simp only [Option.some.injEq, Prod.mk.injEq] at hrun
      rw [← hrun.2]

/-- A walk keeps the options exactly when their pointers fit and each option it comes to is clean. -/
theorem walkWriter_kept (hf : Follows r c body) (h : Synced mem hdr opt totallen) {rc : Int}
    (hrun : walkWriter body fuel hdr opt totallen = some (rc, out)) :
    Kept r mem out opt totallen ↔ (∀ o, Listed mem opt totallen o → PointerFits mem o) ∧
      ∀ d o, Visited c mem hdr.dst opt totallen d o → c.clean mem d o := by
  induction fuel generalizing hdr opt totallen with
  | zero => exact absurd hrun (by simp [walkWriter, walkOptions])
  | succ fuel ih =>
    by_cases hw : Whole mem opt totallen
    · by_cases hstop : c.stops mem opt
      · obtain ⟨rc', hbody⟩ := hf.stop hdr
          ((hf.congr hdr.dst h.same h.front (by have := h.ends; have := hw.2.2.2; omega)
            (h.valid opt (.here hw))).1.mpr hstop)
        rw [walkWriter_whole ((whole_congr h.same).mpr hw), hbody] at hrun
        simp only [Option.some.injEq, Prod.mk.injEq] at hrun
        rw [kept_same fun i hi => hrun.2 ▸ h.same i hi]
        exact ⟨fun hp => ⟨hp, fun d o hv => absurd hstop (visited_stop hv).2⟩, And.left⟩
      obtain ⟨mem', hstep, hyes, hno⟩ := h.go fuel hf hw hstop
      rw [hstep] at hrun
      have hends : opt + optLen mem opt + (totallen - optLen mem opt) ≤ 60 := by
        have := h.ends
        have := hw.2.2.2
        omega
      have hlow := walkWriter_low hf (by have := h.front; omega) hends hrun
      rw [kept_whole hw, visited_cons hw hstop]
      by_cases hc : c.clean mem hdr.dst opt
      · have hstep' := hyes hc
        have hsync := h.next (c.next mem hdr.dst opt) hw hstep'
        rw [ih hsync hrun]
        have hlisted : (∀ o, Listed mem opt totallen o → PointerFits mem o) ↔ PointerFits mem opt ∧
            ∀ o, Listed mem (opt + optLen mem opt) (totallen - optLen mem opt) o → PointerFits mem o := by
          simp only [listed_iff hw, forall_eq_or_imp]
        rw [hlisted]
        -- the rest of a clean walk leaves this option alone
        have hown : (∀ d o, Visited c mem (c.next mem hdr.dst opt) (opt + optLen mem opt)
            (totallen - optLen mem opt) d o → c.clean mem d o) →
              (KeptOption r mem out opt ↔ PointerFits mem opt) := by
          intro hrest
          have hframe := walkWriter_frame hf hsync hrest hrun
          have hle : opt + optLen mem opt ≤ 60 := by omega
          rw [← keptOption_congr h.same h.front hle (h.valid opt (.here hw)), ← pointerFits_congr h.same]
          refine hstep'.keptOption fun i hi hlt => hframe i (by rwa [← optLen_congr h.same]) ?_
          have := h.front
          simp only [IsDst, iphaDst]
          omega
        constructor
        · rintro ⟨hk, hp, hrest⟩
          exact ⟨⟨(hown hrest).mp hk, hp⟩, hc, hrest⟩
        · rintro ⟨⟨hk, hp⟩, -, hrest⟩
          exact ⟨(hown hrest).mpr hk, hp, hrest⟩
      · constructor
        · rintro ⟨hk, -⟩
          refine absurd hk (hno hc out fun i hi hlt => hlow i hlt ?_)
          simp only [IsDst, iphaDst]
          omega
        · rintro ⟨-, hc', -⟩
          exact absurd hc' hc
    · rw [walkWriter_stop (mt (whole_congr h.same).mp hw)] at hrun
      simp only [Option.some.injEq, Prod.mk.injEq] at hrun
      rw [kept_same fun i hi => hrun.2 ▸ h.same i hi]
      exact ⟨fun hp => ⟨hp, fun d o hv => absurd (visited_stop hv).1 hw⟩, And.left⟩

end Kept

end Solaris.Ip
