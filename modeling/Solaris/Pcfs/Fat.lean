import Mathlib.Algebra.Order.Interval.Finset.SuccPred
import Mathlib.Data.Nat.Bitwise
import Mathlib.Data.Nat.SuccPred
import Mathlib.Order.Interval.Finset.Nat

/-!
# The file allocation table of a DOS file system

An entry of the table has 16 bits or 12, and two entries of 12 bits share a byte. Clusters are allocated from the first
one on that may be free.
-/

namespace Solaris.Fat

open Function

def PCF_FREECLUSTER : Nat := 0

def PCF_12BCLUSTER : Nat := 0xFF0

def PCF_RESCLUSTER : Nat := 0xFFF0

def PCF_LASTCLUSTER : Nat := 0xFFF8

def PCF_FIRSTCLUSTER : Nat := 2

/-- A mounted file system with its table in core; the boot block gives `pcfs_ncluster`. -/
structure Pcfs where
  fat16 : Bool
  ncluster : Nat
  fatp : Nat → BitVec 8
  nxfrecls : Nat
  fatmod : Bool

def Pcfs.byte (fs : Pcfs) (a : Nat) : Nat := (fs.fatp a).toNat

/-- `*fp = v`. -/
def Pcfs.put (fs : Pcfs) (a v : Nat) : Pcfs := { fs with fatp := update fs.fatp a (BitVec.ofNat 8 v) }

/-- `pc_validcl`. -/
def Pcfs.Valid (fs : Pcfs) (cn : Nat) : Prop := PCF_FIRSTCLUSTER ≤ cn ∧ cn < fs.ncluster + PCF_FIRSTCLUSTER

instance (fs : Pcfs) (cn : Nat) : Decidable (fs.Valid cn) := inferInstanceAs (Decidable (_ ∧ _))

/-- `pc_getcluster` of a valid cluster. -/
def pcGetcluster (fs : Pcfs) (cn : Nat) : Nat :=
  if fs.fat16 then fs.byte (cn <<< 1) + fs.byte (cn <<< 1 + 1) <<< 8
  else
    let fp := cn + cn >>> 1
    let cn :=
      if cn &&& 1 ≠ 0 then (fs.byte fp &&& 0xf0) >>> 4 + fs.byte (fp + 1) <<< 4
      else fs.byte fp + (fs.byte (fp + 1) &&& 0x0f) <<< 8
    if PCF_12BCLUSTER ≤ cn then cn ||| PCF_RESCLUSTER else cn

/-- `pc_setcluster` of a valid cluster. -/
def pcSetcluster (fs : Pcfs) (cn ncn : Nat) : Pcfs :=
  let fs := { fs with fatmod := true }
  let fs :=
    if fs.fat16 then (fs.put (cn <<< 1) (ncn &&& 0xff)).put (cn <<< 1 + 1) (ncn >>> 8)
    else
      let fp := cn + cn >>> 1
      if cn &&& 1 ≠ 0 then
        let fs := fs.put fp ((fs.byte fp &&& 0x0f) ||| ((ncn <<< 4) &&& 0xf0))
        fs.put (fp + 1) ((ncn >>> 4) &&& 0xff)
      else
        let fs := fs.put fp (ncn &&& 0xff)
        fs.put (fp + 1) ((fs.byte (fp + 1) &&& 0xf0) ||| ((ncn >>> 8) &&& 0x0f))
  if ncn = PCF_FREECLUSTER then { fs with nxfrecls := PCF_FIRSTCLUSTER } else fs

/-- The loop of `pc_alloccluster`; a cluster number is an `unsigned short`, and `none` a panic. -/
def allocLoop (fs : Pcfs) : Nat → Nat → Option (Nat × Pcfs)
  | 0, _ => none
  | fuel + 1, cn =>
    if cn < fs.ncluster + PCF_FIRSTCLUSTER then
      if ¬ fs.Valid cn then none
      else if pcGetcluster fs cn = PCF_FREECLUSTER then
        some (cn, { pcSetcluster fs cn PCF_LASTCLUSTER with nxfrecls := cn + 1 })
      else allocLoop fs fuel ((cn + 1) % 2 ^ 16)
    else some (PCF_FREECLUSTER, fs)

/-- `pc_alloccluster`, when the cluster is not to be zeroed or the write succeeds. -/
def pcAlloccluster (fs : Pcfs) : Option (Nat × Pcfs) := allocLoop fs (2 ^ 16) (fs.nxfrecls % 2 ^ 16)

/-- The values that a table of its kind can hold. -/
def Pcfs.Allowed (fs : Pcfs) (ncn : Nat) : Prop :=
  ncn < 2 ^ 16 ∧ (fs.fat16 = true ∨ ncn < PCF_12BCLUSTER ∨ PCF_RESCLUSTER ≤ ncn)

variable {fs : Pcfs} {c cn ncn a b v : Nat}

lemma low_nibble : a &&& 0x0f = a % 16 := Nat.and_two_pow_sub_one_eq_mod a 4

lemma low_byte : a &&& 0xff = a % 256 := Nat.and_two_pow_sub_one_eq_mod a 8

lemma high_nibble : a &&& 0xf0 = a / 16 % 16 * 16 := by
  have hshift : a &&& 0x0f <<< 4 = (a >>> 4 &&& 0x0f) <<< 4 := by
    apply Nat.eq_of_testBit_eq
    intro i
    rw [Nat.testBit_shiftLeft, Nat.testBit_and, Nat.testBit_and, Nat.testBit_shiftRight, Nat.testBit_shiftLeft]
    by_cases hi : 4 ≤ i
    · simp [hi]
    · simp [hi]
  change a &&& 0x0f <<< 4 = _
  rw [hshift, low_nibble, Nat.shiftRight_eq_div_pow, Nat.shiftLeft_eq]

lemma join_nibbles (ha : a < 16) : a ||| b * 16 = a + b * 16 := by
  have hor := Nat.two_pow_add_eq_or_of_lt (i := 4) ha b
  rw [Nat.or_comm, Nat.mul_comm, Nat.add_comm]
  exact hor.symm

lemma join_reserved (ha : a < 2 ^ 12) (hres : PCF_12BCLUSTER ≤ a) : a ||| PCF_RESCLUSTER = a + 0xF000 := by
  have hlast : ∀ r < 16, (0xFF0 + r) ||| PCF_RESCLUSTER = 0xFF0 + r + 0xF000 := by decide
  obtain ⟨r, rfl⟩ : ∃ r, a = 0xFF0 + r := Nat.exists_eq_add_of_le hres
  exact hlast r (by omega)

lemma Pcfs.byte_lt (fs : Pcfs) (a : Nat) : fs.byte a < 256 := (fs.fatp a).isLt

lemma Pcfs.byte_put : (fs.put a v).byte b = if b = a then v % 256 else fs.byte b := by
  unfold Pcfs.byte Pcfs.put
  dsimp only
  by_cases hb : b = a
  · rw [if_pos hb, hb, update_self, BitVec.toNat_ofNat]
  · rw [if_neg hb, update_of_ne hb]

/-- The value of an entry of 12 bits whose bytes are `a` and `b`. -/
def entry12 (cn a b : Nat) : Nat := if cn % 2 = 1 then a / 16 + b * 16 else a + b % 16 * 256

lemma entry12_lt (ha : a < 256) (hb : b < 256) : entry12 cn a b < 2 ^ 12 := by
  unfold entry12
  split_ifs <;> omega

/-- A value from `PCF_12BCLUSTER` on is one of the reserved values of 16 bits. -/
def widen (v : Nat) : Nat := if PCF_12BCLUSTER ≤ v then v + 0xF000 else v

lemma pcGetcluster_16 (h : fs.fat16 = true) : pcGetcluster fs c = fs.byte (2 * c) + fs.byte (2 * c + 1) * 256 := by
  rw [pcGetcluster, if_pos h, Nat.shiftLeft_eq, Nat.shiftLeft_eq, Nat.mul_comm c]

lemma pcGetcluster_12 (h : fs.fat16 = false) :
    pcGetcluster fs c = widen (entry12 c (fs.byte (c + c / 2)) (fs.byte (c + c / 2 + 1))) := by
  have ha := fs.byte_lt (c + c / 2)
  have hentry : (if c &&& 1 ≠ 0 then (fs.byte (c + c / 2) &&& 0xf0) >>> 4 + fs.byte (c + c / 2 + 1) <<< 4
      else fs.byte (c + c / 2) + (fs.byte (c + c / 2 + 1) &&& 0x0f) <<< 8) =
      entry12 c (fs.byte (c + c / 2)) (fs.byte (c + c / 2 + 1)) := by
    rw [entry12, Nat.and_one_is_mod, high_nibble, low_nibble, Nat.shiftLeft_eq, Nat.shiftLeft_eq,
      Nat.shiftRight_eq_div_pow]
    split_ifs <;> omega
  have hhalf : c >>> 1 = c / 2 := Nat.shiftRight_eq_div_pow c 1
  rw [pcGetcluster, if_neg (by rw [h]; exact Bool.false_ne_true)]
  dsimp only
  rw [hhalf, hentry, widen]
  by_cases hres : PCF_12BCLUSTER ≤ entry12 c (fs.byte (c + c / 2)) (fs.byte (c + c / 2 + 1))
  · rw [if_pos hres, if_pos hres, join_reserved (entry12_lt ha (fs.byte_lt _)) hres]
  · rw [if_neg hres, if_neg hres]

lemma pcSetcluster_16 (h : fs.fat16 = true) (hv : v < 2 ^ 16) : (pcSetcluster fs cn v).byte a =
    if a = 2 * cn + 1 then v / 256 else if a = 2 * cn then v % 256 else fs.byte a := by
  have hbyte : (pcSetcluster fs cn v).byte a =
      ((fs.put (cn <<< 1) (v &&& 0xff)).put (cn <<< 1 + 1) (v >>> 8)).byte a := by
    unfold pcSetcluster
    dsimp only
    split_ifs <;> rfl
  rw [hbyte, Pcfs.byte_put, Pcfs.byte_put, low_byte, Nat.shiftLeft_eq, Nat.shiftRight_eq_div_pow, Nat.mul_comm cn]
  split_ifs <;> omega

lemma pcSetcluster_12 (cn v a : Nat) (h : fs.fat16 = false) : (pcSetcluster fs cn v).byte a =
    if a = cn + cn / 2 + 1 then
      if cn % 2 = 1 then v / 16 % 256 else fs.byte a / 16 * 16 + v / 256 % 16
    else if a = cn + cn / 2 then if cn % 2 = 1 then fs.byte a % 16 + v % 16 * 16 else v % 256
    else fs.byte a := by
  have hbyte : (pcSetcluster fs cn v).byte a = (if cn &&& 1 ≠ 0 then
        (fs.put (cn + cn / 2) ((fs.byte (cn + cn / 2) &&& 0x0f) ||| ((v <<< 4) &&& 0xf0))).put (cn + cn / 2 + 1)
          ((v >>> 4) &&& 0xff)
      else (fs.put (cn + cn / 2) (v &&& 0xff)).put (cn + cn / 2 + 1)
          (((fs.put (cn + cn / 2) (v &&& 0xff)).byte (cn + cn / 2 + 1) &&& 0xf0) ||| ((v >>> 8) &&& 0x0f))).byte a := by
    have hno : ¬ fs.fat16 = true := by rw [h]; exact Bool.false_ne_true
    unfold pcSetcluster
    dsimp only
    split_ifs <;> rfl
  have hsnd := fs.byte_lt (cn + cn / 2 + 1)
  rw [hbyte, Nat.and_one_is_mod]
  by_cases hodd : cn % 2 = 1
  · rw [if_pos (by rw [hodd]; decide), Pcfs.byte_put, Pcfs.byte_put, low_nibble, high_nibble, join_nibbles (Nat.mod_lt _ (by decide)),
      low_byte, Nat.shiftRight_eq_div_pow, Nat.shiftLeft_eq]
    split_ifs <;> subst_vars <;> omega
  · have heven : ¬ cn % 2 ≠ 0 := by omega
    have hne : ¬ cn + cn / 2 + 1 = cn + cn / 2 := by omega
    rw [if_neg heven, Pcfs.byte_put, Pcfs.byte_put, Pcfs.byte_put, if_neg hne, low_nibble, high_nibble, Nat.or_comm,
      join_nibbles (Nat.mod_lt _ (by decide)), low_byte, Nat.shiftRight_eq_div_pow]
    split_ifs <;> subst_vars <;> omega

lemma pcSetcluster_rest (fs : Pcfs) (cn v : Nat) : (pcSetcluster fs cn v).fat16 = fs.fat16 ∧ (pcSetcluster fs cn v).ncluster = fs.ncluster ∧
    (pcSetcluster fs cn v).nxfrecls = if v = PCF_FREECLUSTER then PCF_FIRSTCLUSTER else fs.nxfrecls := by
  unfold pcSetcluster
  dsimp only
  split_ifs <;> exact ⟨rfl, rfl, rfl⟩

/-- No other entry changes, whatever value is set. -/
lemma pcGetcluster_set_ne (hlt : v < 2 ^ 16) (hc : c ≠ cn) : pcGetcluster (pcSetcluster fs cn v) c = pcGetcluster fs c := by
  cases hfat : fs.fat16 with
  | true =>
    rw [pcGetcluster_16 ((pcSetcluster_rest ..).1.trans hfat), pcGetcluster_16 hfat, pcSetcluster_16 hfat hlt,
      pcSetcluster_16 hfat hlt]
    split_ifs <;> omega
  | false =>
    rw [pcGetcluster_12 ((pcSetcluster_rest ..).1.trans hfat), pcGetcluster_12 hfat, pcSetcluster_12 _ _ _ hfat,
      pcSetcluster_12 _ _ _ hfat]
    congr 1
    unfold entry12
    split_ifs <;> omega

/-- An entry that is set answers its value, and no other entry changes. -/
theorem pcGetcluster_set (hv : fs.Allowed v) : pcGetcluster (pcSetcluster fs cn v) c = if c = cn then v else pcGetcluster fs c := by
  obtain ⟨hlt, hkind⟩ := hv
  by_cases hc : c = cn
  · subst hc
    rw [if_pos rfl]
    cases hfat : fs.fat16 with
    | true =>
      rw [pcGetcluster_16 ((pcSetcluster_rest ..).1.trans hfat), pcSetcluster_16 hfat hlt, pcSetcluster_16 hfat hlt]
      split_ifs <;> omega
    | false =>
      have hrange : v < 0xFF0 ∨ 0xFFF0 ≤ v := hkind.resolve_left (by rw [hfat]; exact Bool.false_ne_true)
      rw [pcGetcluster_12 ((pcSetcluster_rest ..).1.trans hfat), pcSetcluster_12 _ _ _ hfat, pcSetcluster_12 _ _ _ hfat,
        widen, entry12]
      unfold PCF_12BCLUSTER
      split_ifs <;> omega
  · rw [if_neg hc, pcGetcluster_set_ne hlt hc]

lemma pcGetcluster_lt (fs : Pcfs) (c : Nat) : pcGetcluster fs c < 2 ^ 16 := by
  cases hfat : fs.fat16 with
  | true =>
    rw [pcGetcluster_16 hfat]
    have := fs.byte_lt (2 * c)
    have := fs.byte_lt (2 * c + 1)
    omega
  | false =>
    have hlt := @entry12_lt c _ _ (fs.byte_lt (c + c / 2)) (fs.byte_lt (c + c / 2 + 1))
    rw [pcGetcluster_12 hfat, widen]
    split_ifs <;> omega

lemma Pcfs.Allowed.congr {fs' : Pcfs} (h : fs.Allowed v) (hfat : fs'.fat16 = fs.fat16) : fs'.Allowed v := by
  unfold Pcfs.Allowed
  rw [hfat]
  exact h

/-- The entry that the last of the calls has set. -/
def lastSet (c : Nat) : List (Nat × Nat) → Option Nat
  | [] => none
  | (cn, ncn) :: sets => (lastSet c sets).or (if c = cn then some ncn else none)

def setAll (fs : Pcfs) (sets : List (Nat × Nat)) : Pcfs := sets.foldl (fun fs set => pcSetcluster fs set.1 set.2) fs

theorem pcGetcluster_setAll {sets : List (Nat × Nat)} (hok : ∀ set ∈ sets, fs.Allowed set.2) :
    pcGetcluster (setAll fs sets) c = (lastSet c sets).getD (pcGetcluster fs c) := by
  induction sets generalizing fs with
  | nil => rfl
  | cons set sets ih =>
    refine (ih fun x hx => (hok x (List.mem_cons_of_mem _ hx)).congr (pcSetcluster_rest ..).1).trans ?_
    rw [pcGetcluster_set (hok set (List.mem_cons_self ..)), lastSet]
    cases lastSet c sets with
    | some v => rfl
    | none =>
      split_ifs <;> rfl

/-- No cluster below the hint is free, the hint is a cluster or one beyond, and cluster numbers stop short of 2 ^ 16. -/
structure Hinted (fs : Pcfs) : Prop where
  fits : fs.ncluster + PCF_FIRSTCLUSTER < 2 ^ 16
  low : PCF_FIRSTCLUSTER ≤ fs.nxfrecls
  high : fs.nxfrecls ≤ fs.ncluster + PCF_FIRSTCLUSTER
  used : ∀ c, fs.Valid c → c < fs.nxfrecls → pcGetcluster fs c ≠ PCF_FREECLUSTER

/-- What an allocation answers: a cluster that was free and is now the last one of a file, or that there is none. -/
def Allocated (fs : Pcfs) (r : Nat × Pcfs) : Prop :=
  (fs.Valid r.1 ∧ pcGetcluster fs r.1 = PCF_FREECLUSTER ∧
    ∀ c, pcGetcluster r.2 c = if c = r.1 then PCF_LASTCLUSTER else pcGetcluster fs c) ∨
  (r = (PCF_FREECLUSTER, fs) ∧ ∀ c, fs.Valid c → pcGetcluster fs c ≠ PCF_FREECLUSTER)

lemma Hinted.set (h : Hinted fs) (hv : fs.Allowed v) : Hinted (pcSetcluster fs cn v) := by
  obtain ⟨_, hncluster, hnext⟩ := pcSetcluster_rest fs cn v
  by_cases hfree : v = PCF_FREECLUSTER
  · rw [if_pos hfree] at hnext
    refine ⟨hncluster ▸ h.fits, hnext.ge, hnext ▸ Nat.le_add_left .., fun c hc hlt => ?_⟩
    rw [hnext] at hlt
    exact absurd hc.1 (Nat.not_le.mpr hlt)
  rw [if_neg hfree] at hnext
  refine ⟨hncluster ▸ h.fits, hnext ▸ h.low, hnext ▸ hncluster ▸ h.high, fun c hc hlt => ?_⟩
  rw [pcGetcluster_set hv]
  split_ifs
  · exact hfree
  · exact h.used c ⟨hc.1, hncluster ▸ hc.2⟩ (hnext ▸ hlt)

lemma allowed_last : fs.Allowed PCF_LASTCLUSTER := ⟨by decide, .inr (.inr (by decide))⟩

/-- The search goes up from a cluster below which none is free, and comes to an end. -/
lemma allocLoop_spec {fuel : Nat} (h : Hinted fs) (hlow : PCF_FIRSTCLUSTER ≤ cn) (hhigh : cn ≤ fs.ncluster + PCF_FIRSTCLUSTER)
    (hused : ∀ c, fs.Valid c → c < cn → pcGetcluster fs c ≠ PCF_FREECLUSTER)
    (hfuel : fs.ncluster + PCF_FIRSTCLUSTER < cn + fuel) :
    ∃ r, allocLoop fs fuel cn = some r ∧ Allocated fs r ∧ Hinted r.2 ∧ r.2.fat16 = fs.fat16 ∧ r.2.ncluster = fs.ncluster := by
  have hsmall := h.fits
  induction fuel generalizing cn with
  | zero => omega
  | succ fuel ih =>
    rw [allocLoop]
    by_cases hlt : cn < fs.ncluster + PCF_FIRSTCLUSTER
    · rw [if_pos hlt, if_neg (not_not.mpr ⟨hlow, hlt⟩)]
      split_ifs with hfree
      · have hset : ∀ c, pcGetcluster (pcSetcluster fs cn PCF_LASTCLUSTER) c =
          if c = cn then PCF_LASTCLUSTER else pcGetcluster fs c := fun c => pcGetcluster_set allowed_last
        obtain ⟨hfat, hncluster, _⟩ := pcSetcluster_rest fs cn PCF_LASTCLUSTER
        refine ⟨_, rfl, .inl ⟨⟨hlow, hlt⟩, hfree, hset⟩, ⟨hncluster ▸ h.fits, Nat.le_succ_of_le hlow, hncluster ▸ hlt, fun c hc hc' => ?_⟩,
          hfat, hncluster⟩
        change pcGetcluster (pcSetcluster fs cn PCF_LASTCLUSTER) c ≠ _
        rw [hset]
        split_ifs with heq
        · decide
        · exact hused c ⟨hc.1, hncluster ▸ hc.2⟩ (lt_of_le_of_ne (Nat.lt_succ_iff.mp hc') heq)
      · rw [Nat.mod_eq_of_lt (by omega)]
        refine ih (Nat.le_succ_of_le hlow) hlt (fun c hc hc' => ?_) (by omega)
        rcases Nat.lt_succ_iff_lt_or_eq.mp hc' with hc' | rfl
        · exact hused c hc hc'
        · exact hfree
    · rw [if_neg hlt]
      exact ⟨_, rfl, .inr ⟨rfl, fun c hc => hused c hc (hc.2.trans_le (Nat.le_of_not_lt hlt))⟩, h, rfl, rfl⟩

lemma pcAlloccluster_spec (h : Hinted fs) : ∃ r, pcAlloccluster fs = some r ∧ Allocated fs r ∧ Hinted r.2 ∧
    r.2.fat16 = fs.fat16 ∧ r.2.ncluster = fs.ncluster := by
  have hsmall := h.fits
  have hhigh := h.high
  rw [pcAlloccluster, Nat.mod_eq_of_lt (by omega)]
  exact allocLoop_spec h h.low hhigh h.used (by omega)

inductive Act where
  | set (cn ncn : Nat)
  | alloc

def Act.Ok (fs : Pcfs) : Act → Prop
  | .set cn ncn => fs.Valid cn ∧ fs.Allowed ncn
  | .alloc => True

def Pcfs.act (fs : Pcfs) : Act → Pcfs
  | .set cn ncn => pcSetcluster fs cn ncn
  | .alloc => match pcAlloccluster fs with
    | some r => r.2
    | none => fs

lemma Hinted.run {acts : List Act} (h : Hinted fs) (hok : ∀ a ∈ acts, a.Ok fs) : Hinted (acts.foldl Pcfs.act fs) := by
  induction acts generalizing fs with
  | nil => exact h
  | cons a acts ih =>
    have hnext : Hinted (fs.act a) ∧ (fs.act a).fat16 = fs.fat16 ∧ (fs.act a).ncluster = fs.ncluster := by
      cases a with
      | set cn ncn => exact ⟨h.set (hok _ (List.mem_cons_self ..)).2, (pcSetcluster_rest ..).1, (pcSetcluster_rest ..).2.1⟩
      | alloc =>
        obtain ⟨r, hr, _, hhint, hsame⟩ := pcAlloccluster_spec h
        rw [Pcfs.act, hr]
        exact ⟨hhint, hsame⟩
    refine ih hnext.1 fun b hb => ?_
    have hb' := hok b (List.mem_cons_of_mem _ hb)
    cases b with
    | set cn ncn => exact ⟨⟨hb'.1.1, hnext.2.2 ▸ hb'.1.2⟩, hb'.2.congr hnext.2.1⟩
    | alloc => trivial

/-- The table is an array, and every free cluster is found. -/
theorem fat_array (fs : Pcfs) (hfits : fs.ncluster + PCF_FIRSTCLUSTER < 2 ^ 16) :
    (∀ sets : List (Nat × Nat), (∀ set ∈ sets, fs.Valid set.1 ∧ fs.Allowed set.2) → ∀ c, fs.Valid c →
      pcGetcluster (setAll fs sets) c = (lastSet c sets).getD (pcGetcluster fs c)) ∧
    (fs.nxfrecls = PCF_FIRSTCLUSTER → ∀ acts : List Act, (∀ a ∈ acts, a.Ok fs) →
      (∀ c, (acts.foldl Pcfs.act fs).Valid c → c < (acts.foldl Pcfs.act fs).nxfrecls →
        pcGetcluster (acts.foldl Pcfs.act fs) c ≠ PCF_FREECLUSTER) ∧
      ∃ r, pcAlloccluster (acts.foldl Pcfs.act fs) = some r ∧ Allocated (acts.foldl Pcfs.act fs) r) := by
  refine ⟨fun sets hok c _ => pcGetcluster_setAll fun set hset => (hok set hset).2, fun hnext acts hok => ?_⟩
  have hstart : Hinted fs := by
    refine ⟨hfits, hnext.ge, hnext ▸ Nat.le_add_left .., fun c hc hlt => ?_⟩
    rw [hnext] at hlt
    exact absurd hc.1 (Nat.not_le.mpr hlt)
  have hrun := hstart.run hok
  obtain ⟨r, hr, halloc, _⟩ := pcAlloccluster_spec hrun
  exact ⟨hrun.used, r, hr, halloc⟩

/-- A table of 12 bits with four clusters, in which the first two are taken and one of them is freed again. -/
theorem fat_array_sample :
    let fs : Pcfs := ⟨false, 4, fun _ => 0, 2, false⟩
    pcGetcluster (setAll fs [(2, 3), (3, 0xFFF8)]) 2 = 3 ∧
      ∃ r, pcAlloccluster ([.alloc, .alloc, .set 2 0].foldl Pcfs.act fs) = some r ∧
        Allocated ([.alloc, .alloc, .set 2 0].foldl Pcfs.act fs) r := by
  intro fs
  have harray := fat_array fs (by decide)
  refine ⟨harray.1 _ ?_ 2 (by decide), (harray.2 rfl _ ?_).2⟩
  · exact List.forall_mem_cons.mpr ⟨⟨by decide, by decide, .inr (.inl (by decide))⟩,
      List.forall_mem_singleton.mpr ⟨by decide, by decide, .inr (.inr (by decide))⟩⟩
  · refine List.forall_mem_cons.mpr ⟨trivial, List.forall_mem_cons.mpr ⟨trivial, List.forall_mem_singleton.mpr ?_⟩⟩
    exact ⟨by decide, by decide, .inr (.inl (by decide))⟩

/-- `pc_getcluster` and its panic. -/
def getcluster (fs : Pcfs) (cn : Nat) : Option Nat := if fs.Valid cn then some (pcGetcluster fs cn) else none

lemma getcluster_valid (h : fs.Valid cn) : getcluster fs cn = some (pcGetcluster fs cn) := if_pos h

def freeLoop (fs : Pcfs) : Nat → Nat → Nat → Option Nat
  | 0, _, _ => none
  | fuel + 1, cn, free =>
    if cn < fs.ncluster + PCF_FIRSTCLUSTER then
      (getcluster fs cn).bind fun ncn =>
        freeLoop fs fuel ((cn + 1) % 2 ^ 16) (if ncn = PCF_FREECLUSTER then free + 1 else free)
    else some free

def pcFreeclusters (fs : Pcfs) : Option Nat := freeLoop fs (2 ^ 16) PCF_FIRSTCLUSTER 0

/-- The free clusters from `cn` on. -/
def freeFrom (fs : Pcfs) (cn : Nat) : Finset Nat :=
  (Finset.Ico cn (fs.ncluster + PCF_FIRSTCLUSTER)).filter (pcGetcluster fs · = PCF_FREECLUSTER)

lemma card_freeFrom (hcn : cn < fs.ncluster + PCF_FIRSTCLUSTER) : (freeFrom fs cn).card =
    (if pcGetcluster fs cn = PCF_FREECLUSTER then 1 else 0) + (freeFrom fs (cn + 1)).card := by
  rw [freeFrom, freeFrom, ← Finset.insert_Ico_add_one_left_eq_Ico hcn, Finset.filter_insert]
  split_ifs
  · rw [Finset.card_insert_of_notMem (by simp), Nat.add_comm]
  · rw [Nat.zero_add]

lemma freeLoop_eq {fuel free : Nat} (hfits : fs.ncluster + PCF_FIRSTCLUSTER < 2 ^ 16) (hlow : PCF_FIRSTCLUSTER ≤ cn)
    (hhigh : cn ≤ fs.ncluster + PCF_FIRSTCLUSTER) (hfuel : fs.ncluster + PCF_FIRSTCLUSTER < cn + fuel) :
    freeLoop fs fuel cn free = some (free + (freeFrom fs cn).card) := by
  induction fuel generalizing cn free with
  | zero => omega
  | succ fuel ih =>
    rw [freeLoop]
    by_cases hlt : cn < fs.ncluster + PCF_FIRSTCLUSTER
    · rw [if_pos hlt, getcluster_valid ⟨hlow, hlt⟩, Option.bind_some, Nat.mod_eq_of_lt (by omega),
        ih (Nat.le_succ_of_le hlow) hlt (by omega), card_freeFrom hlt]
      split_ifs
      · rw [Nat.add_assoc]
      · rw [Nat.zero_add]
    · rw [if_neg hlt, freeFrom, Finset.Ico_eq_empty hlt]
      rfl

lemma freeFrom_alloc (h : Hinted fs) : ∃ r, pcAlloccluster fs = some r ∧ Hinted r.2 ∧
    (freeFrom r.2 PCF_FIRSTCLUSTER).card = (freeFrom fs PCF_FIRSTCLUSTER).card - 1 ∧
      (r.1 = PCF_FREECLUSTER ↔ (freeFrom fs PCF_FIRSTCLUSTER).card = 0) := by
  obtain ⟨⟨cn, fs'⟩, hr, ⟨hvalid, hfree, hget⟩ | ⟨heq, hnone⟩, hhint, _, hsame⟩ := pcAlloccluster_spec h
  · have hin := Finset.mem_filter (p := (pcGetcluster fs · = PCF_FREECLUSTER)).mpr ⟨Finset.mem_Ico.mpr hvalid, hfree⟩
    refine ⟨_, hr, hhint, ?_, iff_of_false ?_ (Finset.card_pos.mpr ⟨cn, hin⟩).ne'⟩
    · dsimp only at hget hsame hin ⊢
      rw [freeFrom, freeFrom, hsame, ← Finset.card_erase_of_mem hin]
      congr 1
      ext c
      rw [Finset.mem_filter, Finset.mem_erase, Finset.mem_filter, hget]
      split_ifs with hc <;> simp [hc, PCF_LASTCLUSTER, PCF_FREECLUSTER]
    · exact fun heq => absurd (heq ▸ hvalid.1 : PCF_FIRSTCLUSTER ≤ PCF_FREECLUSTER) (by decide)
  · cases heq
    have hzero : (freeFrom fs PCF_FIRSTCLUSTER).card = 0 :=
      Finset.card_filter_eq_zero_iff.mpr fun c hc => hnone c (Finset.mem_Ico.mp hc)
    rw [hzero]
    exact ⟨_, hr, h, hzero, iff_of_true rfl rfl⟩

lemma freeFrom_allocs (h : Hinted fs) (k : Nat) : ∃ r, pcAlloccluster ((·.act .alloc)^[k] fs) = some r ∧
    (r.1 = PCF_FREECLUSTER ↔ (freeFrom fs PCF_FIRSTCLUSTER).card ≤ k) := by
  induction k generalizing fs with
  | zero =>
    obtain ⟨r, hr, _, _, hfree⟩ := freeFrom_alloc h
    exact ⟨r, hr, hfree.trans Nat.le_zero.symm⟩
  | succ k ih =>
    obtain ⟨r, hr, hhint, hcount, _⟩ := freeFrom_alloc h
    have hact : fs.act .alloc = r.2 := by rw [Pcfs.act, hr]
    rw [iterate_succ_apply, hact, ← Nat.sub_le_iff_le_add, ← hcount]
    exact ih hhint

/-- After `k` allocations the next one finds a cluster when `pc_freeclusters` had counted more than `k`. -/
theorem pcFreeclusters_exact (h : Hinted fs) : ∃ n, pcFreeclusters fs = some n ∧
    ∀ k, ∃ r, pcAlloccluster ((·.act .alloc)^[k] fs) = some r ∧ (r.1 = PCF_FREECLUSTER ↔ n ≤ k) := by
  have hfits := h.fits
  refine ⟨_, ?_, freeFrom_allocs h⟩
  rw [pcFreeclusters, freeLoop_eq hfits le_rfl (Nat.le_add_left ..) (Nat.lt_add_left _ hfits), Nat.zero_add]

theorem pcFreeclusters_exact_sample :
    let fs : Pcfs := ⟨false, 4, fun _ => 0, 2, false⟩
    ∃ n, pcFreeclusters fs = some n ∧ ∃ r, pcAlloccluster ((·.act .alloc)^[3] fs) = some r ∧
      (r.1 = PCF_FREECLUSTER ↔ n ≤ 3) := by
  intro fs
  obtain ⟨n, hn, hk⟩ := @pcFreeclusters_exact fs
    ⟨by decide, le_rfl, by decide, fun _ hc hlt => absurd hc.1 (Nat.not_le.mpr hlt)⟩
  exact ⟨n, hn, hk 3⟩

end Solaris.Fat
