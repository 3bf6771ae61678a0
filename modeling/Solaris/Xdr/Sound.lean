import Solaris.Xdr.Filters
import Mathlib.Data.List.TakeWhile
import Mathlib.Algebra.Order.BigOperators.Group.List

/-!
# Every filter writes and reads the wire format

Over a stream that appends what it is given, and over one that gives back what is ahead.
-/

namespace Solaris.Xdr

open Lib List Nat BitVec Option

variable {σ : Type}

section Lengths

lemma length_padded (bs : List Byte) : 4 ∣ (padded bs).length := by
  simp only [padded, rndup, length_append, length_replicate]
  split <;> omega

lemma length_prefixed (n : Nat) (bs : List Byte) : (prefixed n bs).length = 4 + bs.length := by
  simp [prefixed]

lemma dvd_length_flatMap (vs : List Val) (f : Val → List Byte) (h : ∀ v ∈ vs, 4 ∣ (f v).length) :
    4 ∣ (vs.flatMap f).length := by
  induction vs with
  | nil => exact Nat.dvd_zero 4
  | cons v vs ih =>
    have hv := h v (mem_cons_self ..)
    have hvs := ih fun x hx => h x (mem_cons_of_mem _ hx)
    rw [flatMap_cons, length_append]
    exact Nat.dvd_add hv hvs

mutual

lemma Ty.dvd_length_wire (t : Ty) (v : Val) (h : t.HasVal v) : 4 ∣ (t.wire v).length := by
  cases t with
  | void => simp [Ty.wire]
  | int =>
    obtain ⟨w, rfl⟩ := h
    simp [Ty.wire]
  | uInt =>
    obtain ⟨w, rfl⟩ := h
    simp [Ty.wire]
  | hyper =>
    obtain ⟨w, rfl⟩ := h
    simp [Ty.wire]
  | uHyper =>
    obtain ⟨w, rfl⟩ := h
    simp [Ty.wire]
  | short =>
    obtain ⟨w, rfl⟩ := h
    simp [Ty.wire]
  | uShort =>
    obtain ⟨w, rfl⟩ := h
    simp [Ty.wire]
  | bool =>
    obtain ⟨w, rfl⟩ := h
    simp [Ty.wire]
  | fixed cnt =>
    obtain ⟨bs, rfl, -⟩ := h
    exact length_padded bs
  | counted maxsize =>
    obtain ⟨bs, rfl, -⟩ := h
    have := length_padded bs
    simp only [Ty.wire, length_prefixed]
    omega
  | string maxsize =>
    obtain ⟨bs, rfl, -⟩ := h
    have := length_padded bs
    simp only [Ty.wire, length_prefixed]
    omega
  | array maxsize elsize elem =>
    obtain ⟨vs, rfl, -, -, hvs⟩ := h
    have := dvd_length_flatMap vs elem.wire fun v hv => elem.dvd_length_wire v (hvs v hv)
    simp only [Ty.wire, length_prefixed]
    omega
  | union arms =>
    obtain ⟨dscm, x, rfl, hx⟩ := h
    have := arms.dvd_length_wire dscm x hx
    simp only [Ty.wire, length_append, length_wordBytes]
    omega

lemma Arms.dvd_length_wire (arms : Arms) (dscm : BitVec 32) (v : Val) (h : arms.HasVal dscm v) :
    4 ∣ (arms.wire dscm v).length := by
  cases arms with
  | stop => exact dvd_zero 4
  | dfault t => exact t.dvd_length_wire v h
  | choice value t rest =>
    rw [Arms.wire]
    rcases h with ⟨heq, h⟩ | ⟨hne, h⟩
    · rw [if_pos heq]
      exact t.dvd_length_wire v h
    · rw [if_neg hne]
      exact rest.dvd_length_wire dscm v h

end

end Lengths

section Words

lemma gets_word (h : GivesBack ops R) {f : Filter σ} {v : Val} {w : BitVec 32}
    (hf : ∀ s s', ops.getlong s = some (w, s') → f.decode s = some (v, s')) : Gets 4 R f.decode v (wordBytes w) :=
  (h.getlong w).result hf

lemma puts_hyper (h : Appends ops W) (x : BitVec 64) :
    Puts 4 W ((xdrLonglongT ops).encode (.hyper x))
      (wordBytes (x.extractLsb' 32 32) ++ wordBytes (x.extractLsb' 0 32)) :=
  (h.putlong _).bind (by simp) (h.putlong _)

lemma gets_hyper (h : GivesBack ops R) (x : BitVec 64) :
    Gets 4 R (xdrLonglongT ops).decode (.hyper x)
      (wordBytes (x.extractLsb' 32 32) ++ wordBytes (x.extractLsb' 0 32)) := by
  have hx : x.extractLsb' 32 32 ++ x.extractLsb' 0 32 = x := by
    rw [@extractLsb'_append_extractLsb'_eq_extractLsb' 64 32 0 32 32 x rfl]
    simp
  have hlow : Gets 4 R (fun s => (ops.getlong s).bind fun r => some (Val.hyper (x.extractLsb' 32 32 ++ r.1), r.2))
      (.hyper x) (wordBytes (x.extractLsb' 0 32)) := by
    refine (h.getlong (x.extractLsb' 0 32)).result ?_
    intro s s' hs
    rw [hs, bind_some, hx]
  refine (h.getlong (x.extractLsb' 32 32)).andThen ?_ (by simp) hlow
  intro s s' hs
  simp only [xdrLonglongT, hs]
  rfl

lemma setWidth_signExtend (x : BitVec 16) : (x.signExtend 32).setWidth 16 = x := by
  ext i hi
  simp only [getElem_setWidth, getLsbD_signExtend]
  simp only [show i < 32 by omega, hi, decide_true, if_true, Bool.true_and]
  exact getLsbD_eq_getElem hi

end Words

section Opaque

lemma rndup_lt (n : Nat) : rndup n < 2 ^ 31 := by
  unfold rndup
  split <;> omega

lemma puts_opaqueBytes (h : Appends ops W) (bs : List Byte) (hlen : bs.length < 2 ^ 31) :
    Puts 4 W (fun s => putOpaque ops s bs bs.length) (padded bs) := by
  by_cases hzero : bs.length = 0
  · have hnil := eq_nil_of_length_eq_zero hzero
    subst hnil
    exact Puts.skip
  have hput := h.putbytes bs (pos_of_ne_zero hzero) hlen
  refine Puts.weaken ?_ (one_dvd 4)
  by_cases hr : rndup bs.length = 0
  · have hpad : padded bs = bs := by simp [padded, hr]
    rw [hpad]
    refine hput.congr ?_
    intro s
    simp [putOpaque, hzero, hr]
  · have hput' := h.putbytes (replicate (rndup bs.length) 0) (by simpa using pos_of_ne_zero hr)
      (by simpa using rndup_lt bs.length)
    refine (hput.bind (one_dvd _) hput').congr ?_
    intro s
    simp [putOpaque, hzero, hr]

lemma gets_opaqueBytes (h : GivesBack ops R) (bs : List Byte) (hlen : bs.length < 2 ^ 31) :
    Gets 4 R (fun s => getOpaque ops s bs.length) bs (padded bs) := by
  by_cases hzero : bs.length = 0
  · have hnil := eq_nil_of_length_eq_zero hzero
    subst hnil
    exact Gets.pure []
  have hget := h.getbytes bs (pos_of_ne_zero hzero) hlen
  refine Gets.weaken ?_ (one_dvd 4)
  by_cases hr : rndup bs.length = 0
  · have hpad : padded bs = bs := by simp [padded, hr]
    rw [hpad]
    refine hget.result ?_
    intro s s' hs
    simp [getOpaque, hzero, hr, hs]
  have hget' := h.getbytes (replicate (rndup bs.length) 0) (by simpa using pos_of_ne_zero hr)
    (by simpa using rndup_lt bs.length)
  rw [length_replicate] at hget'
  have hpad : Gets 1 R (fun s => (ops.getbytes s (rndup bs.length)).bind fun r => some (bs, r.2)) bs
      (replicate (rndup bs.length) 0) := by
    refine hget'.result ?_
    intro s s' hs
    rw [hs, bind_some]
  refine hget.andThen ?_ (one_dvd _) hpad
  intro s s' hs
  simp only [getOpaque, hzero, hr, if_false, hs]
  rfl

end Opaque

section Counted

variable {maxsize : BitVec 32} {n : Nat}

lemma toNat_count (h : n ≤ maxsize.toNat) : (BitVec.ofNat 32 n).toNat = n := by
  exact mod_eq_of_lt (lt_of_le_of_lt h maxsize.isLt)

lemma not_count_gt (h : n ≤ maxsize.toNat) : ¬BitVec.ofNat 32 n > maxsize := by
  rw [gt_iff_lt, lt_def, toNat_count h]
  omega

lemma count_eq_zero (h : n ≤ maxsize.toNat) : BitVec.ofNat 32 n = 0 ↔ n = 0 := by
  rw [← toNat_inj, toNat_count h]
  rfl

lemma puts_bytes (h : Appends ops W) (bs : List Byte) (hmax : bs.length ≤ maxsize.toNat) (hlen : bs.length < 2 ^ 31) :
    Puts 4 W ((xdrBytes ops maxsize).encode (.bytes bs)) (prefixed bs.length (padded bs)) := by
  refine ((h.putlong (BitVec.ofNat 32 bs.length)).bind (by simp) (puts_opaqueBytes h bs hlen)).congr ?_
  intro s
  simp only [xdrBytes, not_count_gt hmax, toNat_count hmax, if_false]
  rfl

lemma gets_bytes (h : GivesBack ops R) (bs : List Byte) (hmax : bs.length ≤ maxsize.toNat) (hlen : bs.length < 2 ^ 31) :
    Gets 4 R (xdrBytes ops maxsize).decode (.bytes bs) (prefixed bs.length (padded bs)) := by
  by_cases hzero : bs.length = 0
  · have hnil := eq_nil_of_length_eq_zero hzero
    subst hnil
    refine (h.getlong 0).result ?_
    intro s s' hs
    simp [xdrBytes, hs]
  have hopaque : Gets 4 R (fun s => (getOpaque ops s bs.length).bind fun r => some (Val.bytes r.1, r.2)) (.bytes bs)
      (padded bs) := by
    refine (gets_opaqueBytes h bs hlen).result ?_
    intro s s' hs
    rw [hs, bind_some]
  refine (h.getlong (BitVec.ofNat 32 bs.length)).andThen ?_ (length_padded bs) hopaque
  intro s s' hs
  simp only [xdrBytes, hs, bind_eq_bind, bind_some, not_count_gt hmax, count_eq_zero hmax,
    toNat_count hmax, hzero, if_false]
  rfl

lemma strlen_eq {bs : List Byte} (h : 0 ∉ bs) : strlen bs = bs.length := by
  have hall : ∀ b ∈ bs, decide (b ≠ 0) = true := by
    intro b hb
    rw [decide_eq_true_eq]
    rintro rfl
    exact h hb
  rw [strlen, takeWhile_eq_self_iff.mpr hall]

lemma puts_string (h : Appends ops W) (bs : List Byte) (hmax : bs.length ≤ maxsize.toNat) (hnull : 0 ∉ bs)
    (hlen : bs.length < 2 ^ 31) :
    Puts 4 W ((xdrString ops maxsize).encode (.bytes bs)) (prefixed bs.length (padded bs)) := by
  refine ((h.putlong (BitVec.ofNat 32 bs.length)).bind (by simp) (puts_opaqueBytes h bs hlen)).congr ?_
  intro s
  simp only [xdrString, strlen_eq hnull, not_count_gt hmax, toNat_count hmax, if_false]
  rfl

lemma gets_string (h : GivesBack ops R) (bs : List Byte) (hmax : bs.length ≤ maxsize.toNat) (hnull : 0 ∉ bs)
    (hlen : bs.length < 2 ^ 31) :
    Gets 4 R (xdrString ops maxsize).decode (.bytes bs) (prefixed bs.length (padded bs)) := by
  have hsucc : BitVec.ofNat 32 bs.length + 1 ≠ 0 := by
    intro heq
    have := congrArg BitVec.toNat heq
    rw [BitVec.toNat_add, toNat_count hmax, show (1 : BitVec 32).toNat = 1 from rfl,
      show (0 : BitVec 32).toNat = 0 from rfl] at this
    omega
  have hopaque : Gets 4 R (fun s => (getOpaque ops s bs.length).bind fun r =>
      if strlen r.1 ≠ bs.length then none else some (Val.bytes r.1, r.2)) (.bytes bs) (padded bs) := by
    refine (gets_opaqueBytes h bs hlen).result ?_
    intro s s' hs
    rw [hs, bind_some, if_neg (not_not.mpr (strlen_eq hnull))]
  refine (h.getlong (BitVec.ofNat 32 bs.length)).andThen ?_ (length_padded bs) hopaque
  intro s s' hs
  simp only [xdrString, hs, bind_eq_bind, bind_some, not_count_gt hmax, toNat_count hmax, hsucc, if_false]
  rfl

end Counted

section Compound

lemma puts_all {f : Filter σ} {wire : Val → List Byte} (vs : List Val)
    (h : ∀ v ∈ vs, Puts 4 W (f.encode v) (wire v)) (hlen : ∀ v ∈ vs, 4 ∣ (wire v).length) :
    Puts 4 W (encodeAll f vs) (vs.flatMap wire) := by
  induction vs with
  | nil => exact Puts.skip
  | cons v vs ih =>
    refine (h v (mem_cons_self ..)).bind (hlen v (mem_cons_self ..)) ?_
    exact ih (fun x hx => h x (mem_cons_of_mem _ hx)) fun x hx => hlen x (mem_cons_of_mem _ hx)

lemma gets_all {f : Filter σ} {wire : Val → List Byte} (vs : List Val)
    (h : ∀ v ∈ vs, Gets 4 R f.decode v (wire v)) (hlen : ∀ v ∈ vs, 4 ∣ (wire v).length) :
    Gets 4 R (decodeAll f vs.length) vs (vs.flatMap wire) := by
  induction vs with
  | nil => exact Gets.pure _
  | cons v vs ih =>
    have hvs := ih (fun x hx => h x (mem_cons_of_mem _ hx)) fun x hx => hlen x (mem_cons_of_mem _ hx)
    have hrest : Gets 4 R (fun s => (decodeAll f vs.length s).bind fun r => some (v :: r.1, r.2)) (v :: vs)
        (vs.flatMap wire) := by
      refine hvs.result ?_
      intro s s' hs
      rw [hs, bind_some]
    refine (h v (mem_cons_self ..)).andThen ?_ ?_ hrest
    · intro s s' hs
      simp only [length_cons, decodeAll, hs]
      rfl
    · exact dvd_length_flatMap vs wire fun x hx => hlen x (mem_cons_of_mem _ hx)

lemma puts_array (h : Appends ops W) {maxsize : BitVec 32} {elsize : Nat} {f : Filter σ} {wire : Val → List Byte}
    (vs : List Val) (hmax : vs.length ≤ maxsize.toNat) (hf : ∀ v ∈ vs, Puts 4 W (f.encode v) (wire v))
    (hlen : ∀ v ∈ vs, 4 ∣ (wire v).length) :
    Puts 4 W ((xdrArray ops maxsize elsize f).encode (.array vs)) (prefixed vs.length (vs.flatMap wire)) := by
  refine ((h.putlong (BitVec.ofNat 32 vs.length)).bind (by simp) (puts_all vs hf hlen)).congr ?_
  intro s
  simp only [xdrArray, not_count_gt hmax, toNat_count hmax, if_false, take_length]
  rfl

lemma gets_array (h : GivesBack ops R) {maxsize : BitVec 32} {elsize : Nat} {f : Filter σ} {wire : Val → List Byte}
    (vs : List Val) (hmax : vs.length ≤ maxsize.toNat) (hsize : vs.length * elsize < 2 ^ 32)
    (hf : ∀ v ∈ vs, Gets 4 R f.decode v (wire v)) (hlen : ∀ v ∈ vs, 4 ∣ (wire v).length) :
    Gets 4 R (xdrArray ops maxsize elsize f).decode (.array vs) (prefixed vs.length (vs.flatMap wire)) := by
  by_cases hzero : vs.length = 0
  · have hnil := eq_nil_of_length_eq_zero hzero
    subst hnil
    refine (h.getlong 0).result ?_
    intro s s' hs
    simp [xdrArray, hs]
  have hall : Gets 4 R (fun s => (decodeAll f vs.length s).bind fun r => some (Val.array r.1, r.2)) (.array vs)
      (vs.flatMap wire) := by
    refine (gets_all vs hf hlen).result ?_
    intro s s' hs
    rw [hs, bind_some]
  refine (h.getlong (BitVec.ofNat 32 vs.length)).andThen ?_ (dvd_length_flatMap vs wire hlen) hall
  intro s s' hs
  simp only [xdrArray, hs, bind_eq_bind, bind_some, not_count_gt hmax, count_eq_zero hmax,
    toNat_count hmax, hzero, not_le.mpr hsize, if_false]
  rfl

lemma puts_union (h : Appends ops W) {choices : List (BitVec 32 × Filter σ)} {dfault : Option (Filter σ)} {f : Filter σ}
    {dscm : BitVec 32} {v : Val} {bs : List Byte} (hfind : findChoice choices dfault dscm = some f)
    (hf : Puts 4 W (f.encode v) bs) :
    Puts 4 W ((xdrUnion ops choices dfault).encode (.union dscm v)) (wordBytes dscm ++ bs) := by
  refine ((h.putlong dscm).bind (by simp) hf).congr ?_
  intro s
  simp only [xdrUnion, hfind]
  rfl

lemma gets_union (h : GivesBack ops R) {choices : List (BitVec 32 × Filter σ)} {dfault : Option (Filter σ)}
    {f : Filter σ} {dscm : BitVec 32} {v : Val} {bs : List Byte} (hfind : findChoice choices dfault dscm = some f)
    (hlen : 4 ∣ bs.length) (hf : Gets 4 R f.decode v bs) :
    Gets 4 R (xdrUnion ops choices dfault).decode (.union dscm v) (wordBytes dscm ++ bs) := by
  have harm : Gets 4 R (fun s => (f.decode s).bind fun r => some (Val.union dscm r.1, r.2)) (.union dscm v) bs := by
    refine hf.result ?_
    intro s s' hs
    rw [hs, bind_some]
  refine (h.getlong dscm).andThen ?_ hlen harm
  intro s s' hs
  simp only [xdrUnion, hs, bind_eq_bind, bind_some, hfind]
  rfl

end Compound

section Main

/-- The filter writes these bytes for a value on every stream that appends, and reads it back from them. -/
structure Codes (ops : Ops σ) (W : σ → List Byte → Nat → Prop) (R : σ → List Byte → Prop) (f : Filter σ) (v : Val)
    (bs : List Byte) : Prop where
  puts : Appends ops W → Puts 4 W (f.encode v) bs
  gets : GivesBack ops R → Gets 4 R f.decode v bs

lemma length_le_flatMap {vs : List Val} {f : Val → List Byte} {v : Val} (hv : v ∈ vs) :
    (f v).length ≤ (vs.flatMap f).length := by
  rw [length_flatMap]
  exact le_sum_of_mem (mem_map.mpr ⟨v, hv, rfl⟩)

lemma length_le_padded (bs : List Byte) : bs.length ≤ (padded bs).length := by
  simp [padded]

mutual

lemma Ty.codes (t : Ty) (v : Val) (h : t.HasVal v) (hlen : (t.wire v).length < 2 ^ 31) :
    Codes ops W R (t.proc ops) v (t.wire v) := by
  cases t with
  | void =>
    obtain rfl := h
    exact ⟨fun _ => Puts.skip, fun _ => Gets.pure _⟩
  | int =>
    obtain ⟨w, rfl⟩ := h
    exact ⟨fun ha => ha.putlong w, fun hg => gets_word hg fun s s' hs => by simp [Ty.proc, xdrInt, xdrLong, hs]⟩
  | uInt =>
    obtain ⟨w, rfl⟩ := h
    exact ⟨fun ha => ha.putlong w, fun hg => gets_word hg fun s s' hs => by simp [Ty.proc, xdrUInt, xdrULong, hs]⟩
  | hyper =>
    obtain ⟨x, rfl⟩ := h
    exact ⟨fun ha => puts_hyper ha x, fun hg => gets_hyper hg x⟩
  | uHyper =>
    obtain ⟨x, rfl⟩ := h
    exact ⟨fun ha => puts_hyper ha x, fun hg => gets_hyper hg x⟩
  | short =>
    obtain ⟨x, rfl⟩ := h
    refine ⟨fun ha => ha.putlong _, fun hg => gets_word hg fun s s' hs => ?_⟩
    simp [Ty.proc, xdrShort, hs, setWidth_signExtend]
  | uShort =>
    obtain ⟨x, rfl⟩ := h
    exact ⟨fun ha => ha.putlong _, fun hg => gets_word hg fun s s' hs => by simp [Ty.proc, xdrUShort, hs]⟩
  | bool =>
    obtain ⟨b, rfl⟩ := h
    refine ⟨fun ha => ha.putlong _, fun hg => gets_word hg fun s s' hs => ?_⟩
    cases b <;> simp_all [Ty.proc, xdrBool]
  | fixed cnt =>
    obtain ⟨bs, rfl, rfl⟩ := h
    have hlt := lt_of_le_of_lt (length_le_padded bs) hlen
    refine ⟨fun ha => puts_opaqueBytes ha bs hlt, fun hg => (gets_opaqueBytes hg bs hlt).result fun s s' hs => ?_⟩
    simp [Ty.proc, xdrOpaque, hs]
  | counted maxsize =>
    obtain ⟨bs, rfl, hmax⟩ := h
    have hlt : bs.length < 2 ^ 31 := by
      have := length_le_padded bs
      simp only [Ty.wire, length_prefixed] at hlen
      omega
    exact ⟨fun ha => puts_bytes ha bs hmax hlt, fun hg => gets_bytes hg bs hmax hlt⟩
  | string maxsize =>
    obtain ⟨bs, rfl, hmax, hnull⟩ := h
    have hlt : bs.length < 2 ^ 31 := by
      have := length_le_padded bs
      simp only [Ty.wire, length_prefixed] at hlen
      omega
    exact ⟨fun ha => puts_string ha bs hmax hnull hlt, fun hg => gets_string hg bs hmax hnull hlt⟩
  | array maxsize elsize elem =>
    obtain ⟨vs, rfl, hmax, hsize, hvs⟩ := h
    have hcode : ∀ x ∈ vs, Codes ops W R (elem.proc ops) x (elem.wire x) := by
      intro x hx
      have := length_le_flatMap (f := elem.wire) hx
      simp only [Ty.wire, length_prefixed] at hlen
      exact elem.codes x (hvs x hx) (by omega)
    have hdvd : ∀ x ∈ vs, 4 ∣ (elem.wire x).length := fun x hx => elem.dvd_length_wire x (hvs x hx)
    exact ⟨fun ha => puts_array ha vs hmax (fun x hx => (hcode x hx).puts ha) hdvd,
      fun hg => gets_array hg vs hmax hsize (fun x hx => (hcode x hx).gets hg) hdvd⟩
  | union arms =>
    obtain ⟨dscm, x, rfl, hx⟩ := h
    have hlt : (arms.wire dscm x).length < 2 ^ 31 := by
      simp only [Ty.wire, length_append] at hlen
      omega
    obtain ⟨f, hfind, hf⟩ := arms.codes dscm x hx hlt
    exact ⟨fun ha => puts_union ha hfind (hf.puts ha),
      fun hg => gets_union hg hfind (arms.dvd_length_wire dscm x hx) (hf.gets hg)⟩

lemma Arms.codes (arms : Arms) (dscm : BitVec 32) (v : Val) (h : arms.HasVal dscm v)
    (hlen : (arms.wire dscm v).length < 2 ^ 31) :
    ∃ f, findChoice (arms.choices ops) (arms.default ops) dscm = some f ∧ Codes ops W R f v (arms.wire dscm v) := by
  cases arms with
  | stop => exact absurd h (by simp [Arms.HasVal])
  | dfault t => exact ⟨t.proc ops, rfl, t.codes v h hlen⟩
  | choice value t rest =>
    rw [Arms.wire] at hlen ⊢
    rw [Arms.choices, Arms.default, findChoice]
    rcases h with ⟨heq, h⟩ | ⟨hne, h⟩
    · rw [if_pos heq] at hlen ⊢
      rw [if_pos heq]
      exact ⟨t.proc ops, rfl, t.codes v h hlen⟩
    · rw [if_neg hne] at hlen ⊢
      rw [if_neg hne]
      exact rest.codes dscm v h hlen

end

end Main

end Solaris.Xdr
