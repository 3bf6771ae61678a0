import Mathlib.Data.List.Pairwise
import Solaris.Lib.Along
import Solaris.Share.Shares

/-!
# Shares that exclude each other

Of two shares that are not in compatibility mode none has what the other denies. A compatibility share with write access
is to be alone with its owner, but `add_share` asks the oldest share only.
-/

namespace Solaris.Share

open List Option

open Lib (Along)

section Calls

inductive Call
  | add (readonly : Bool) (shr : ShrLock)
  | del (shr : ShrLock)

def step (l : List ShrLock) : Call → List ShrLock
  | .add readonly shr => (addShare readonly shr l).2
  | .del shr => (delShare l shr).2

structure Exclusive (l : List ShrLock) : Prop where
  modes : ∀ a ∈ l, ∀ b ∈ l, ¬a.SameOwner b → ¬a.Compat → ¬b.Compat → a.access &&& b.deny = 0
  compat : ∀ a ∈ l, a.Compat → a.Writes → ∀ b ∈ l, b.SameOwner a

/-- A valid request that is taken because of the oldest share `f`, in compatibility mode itself: it asks to write in
compatibility mode, and `f` is of its owner while others have shares too; or another owner has a compatibility share
with write access while `f` has read access, and the request has read access, in compatibility mode or on a file system
that is read only. -/
def Overlooked (readonly : Bool) (shr : ShrLock) (l : List ShrLock) : Prop :=
  shr.Valid ∧ ∃ f, l.getLast? = some f ∧ f.Compat ∧
    (shr.Compat ∧ shr.Writes ∧ f.SameOwner shr ∧ (∀ s ∈ l, s.Compat) ∧ (∃ s ∈ l, ¬s.SameOwner shr) ∨
      f.access = F_RDACC ∧ ¬shr.Writes ∧ (∃ s ∈ l, s.Compat ∧ s.Writes ∧ ¬s.SameOwner shr) ∧
        (shr.Compat ∧ (∀ s ∈ l, ¬s.Compat → ¬s.DeniesRead ∧ ¬s.Writes) ∨
          ¬shr.Compat ∧ ¬shr.DeniesRead ∧ readonly = true ∧ ∀ s ∈ l.dropLast, ¬shr.Clashes s))

def NotOverlooked (l : List ShrLock) : Call → Prop
  | .add readonly shr => ¬Overlooked readonly shr l
  | .del _ => True

end Calls

section Scan

variable {readonly : Bool} {shr : ShrLock} {l : List ShrLock}

lemma ShrLock.SameOwner.symm {a b : ShrLock} (h : a.SameOwner b) : b.SameOwner a := ⟨h.1.symm, h.2.1.symm, h.2.2.symm⟩

lemma ShrLock.SameOwner.trans {a b c : ShrLock} (h : a.SameOwner b) (h' : b.SameOwner c) : a.SameOwner c :=
  ⟨h.1.trans h'.1, h.2.1.trans h'.2.1, h.2.2.trans h'.2.2⟩

lemma scanShares_plain (hplain : ¬shr.Compat) (h : scanShares readonly shr l = none) :
    (∀ s ∈ l, ¬s.Compat → ¬shr.Clashes s) ∧ (∀ s ∈ l.dropLast, ¬shr.Clashes s) ∧
      ∀ f, l.getLast? = some f → f.Compat → ¬shr.Writes ∧ ¬shr.DeniesRead ∧ ¬f.Writes ∧ readonly = true := by
  induction l with
  | nil => exact ⟨fun _ hs => absurd hs not_mem_nil, fun _ hs => absurd hs not_mem_nil, fun _ hf => nomatch hf⟩
  | cons s next ih =>
    unfold scanShares at h
    by_cases hexact : s.SameOwner shr ∧ s.access = shr.access ∧ s.deny = shr.deny
    · rw [if_pos hexact] at h
      cases h
    have hcompat : ¬(s.SameOwner shr ∧ s.Compat ∧ shr.Compat ∧ (next = [] ∨ s.Writes)) := fun hand => hplain hand.2.2.1
    rw [if_neg hexact, if_neg hcompat] at h
    by_cases hlast : s.Compat ∧ next = []
    · obtain ⟨hs, rfl⟩ := hlast
      rw [if_pos ⟨hs, rfl⟩, if_pos hplain] at h
      by_cases hno : shr.Writes ∨ shr.DeniesRead ∨ s.Writes
      · rw [if_pos hno] at h
        cases h
      rw [if_neg hno] at h
      by_cases hro : readonly = true
      swap
      · rw [if_neg hro] at h
        cases h
      rw [not_or, not_or] at hno
      refine ⟨?_, fun _ hs' => absurd hs' not_mem_nil, ?_⟩
      · intro s' hs' hplain'
        rw [mem_singleton.mp hs'] at hplain'
        exact absurd hs hplain'
      · intro f hf _
        obtain rfl : s = f := some_inj.mp hf
        exact ⟨hno.1, hno.2.1, hno.2.2, hro⟩
    rw [if_neg hlast, if_neg fun hand => hplain hand.2, if_neg hplain] at h
    by_cases hclash : shr.Clashes s
    · rw [if_pos hclash] at h
      cases h
    rw [if_neg hclash] at h
    obtain ⟨hall, hdrop, hold⟩ := ih h
    refine ⟨?_, ?_, ?_⟩
    · rw [forall_mem_cons]
      exact ⟨fun _ => hclash, hall⟩
    · cases next with
      | nil => exact fun _ hs' => absurd hs' not_mem_nil
      | cons s2 next =>
        rw [dropLast_cons_cons, forall_mem_cons]
        exact ⟨hclash, hdrop⟩
    · intro f hf hfc
      cases next with
      | nil =>
        obtain rfl : s = f := some_inj.mp hf
        exact absurd ⟨hfc, rfl⟩ hlast
      | cons s2 next => exact hold f hf hfc

lemma scanShares_compat (hc : shr.Compat) (h : scanShares readonly shr l = none) (hne : l ≠ []) :
    (∃ s ∈ l, s.SameOwner shr ∧ s.Compat ∧ s.Writes) ∨ ∃ f, l.getLast? = some f ∧
      (f.SameOwner shr ∧ f.Compat ∧ (shr.Writes → ∀ s ∈ l, s.Compat) ∨
        ¬shr.Writes ∧ (f.Compat → f.access = F_RDACC) ∧ ∀ s ∈ l, ¬s.Compat → ¬s.DeniesRead ∧ ¬s.Writes) := by
  induction l with
  | nil => exact absurd rfl hne
  | cons s next ih =>
    unfold scanShares at h
    by_cases hexact : s.SameOwner shr ∧ s.access = shr.access ∧ s.deny = shr.deny
    · rw [if_pos hexact] at h
      cases h
    rw [if_neg hexact] at h
    by_cases hbreak : s.SameOwner shr ∧ s.Compat ∧ shr.Compat ∧ (next = [] ∨ s.Writes)
    · obtain ⟨hsame, hs, -, hnil | hwrites⟩ := hbreak
      · refine .inr ⟨s, by rw [hnil]; rfl, .inl ⟨hsame, hs, fun _ => ?_⟩⟩
        rw [hnil]
        intro s' hs'
        rw [mem_singleton.mp hs']
        exact hs
      · exact .inl ⟨s, mem_cons_self, hsame, hs, hwrites⟩
    rw [if_neg hbreak] at h
    by_cases hlast : s.Compat ∧ next = []
    · obtain ⟨hs, hnil⟩ := hlast
      rw [if_pos ⟨hs, hnil⟩, if_neg (not_not.mpr hc)] at h
      by_cases hread : shr.access = F_RDACC ∧ s.access = F_RDACC
      swap
      · rw [if_neg hread] at h
        cases h
      refine .inr ⟨s, by rw [hnil]; rfl, .inr ⟨?_, fun _ => hread.2, ?_⟩⟩
      · unfold ShrLock.Writes
        rw [hread.1]
        decide
      · rw [hnil]
        intro s' hs' hplain
        rw [mem_singleton.mp hs'] at hplain
        exact absurd hs hplain
    rw [if_neg hlast] at h
    by_cases hs : s.Compat
    · have hnext : next ≠ [] := fun hnil => hlast ⟨hs, hnil⟩
      rw [if_pos ⟨hs, hc⟩] at h
      rcases ih h hnext with ⟨s', hs', hfound⟩ | ⟨f, hf, hcase⟩
      · exact .inl ⟨s', mem_cons_of_mem s hs', hfound⟩
      · refine .inr ⟨f, by rw [getLast?_cons_of_ne_nil hnext, hf], ?_⟩
        rcases hcase with ⟨hsame, hfc, hall⟩ | ⟨hread, hfr, hall⟩
        · exact .inl ⟨hsame, hfc, fun hw => forall_mem_cons.mpr ⟨hs, hall hw⟩⟩
        · exact .inr ⟨hread, hfr, forall_mem_cons.mpr ⟨fun hplain => absurd hs hplain, hall⟩⟩
    rw [if_neg fun hand => hs hand.1, if_pos hc] at h
    by_cases hno : shr.Writes ∨ s.DeniesRead ∨ s.Writes
    · rw [if_pos hno] at h
      cases h
    rw [if_neg hno] at h
    rw [not_or, not_or] at hno
    by_cases hnil : next = []
    · refine .inr ⟨s, by rw [hnil]; rfl, .inr ⟨hno.1, fun hfc => absurd hfc hs, ?_⟩⟩
      rw [hnil]
      intro s' hs' _
      rw [mem_singleton.mp hs']
      exact hno.2
    rw [if_neg hnil] at h
    rcases ih h hnil with ⟨s', hs', hfound⟩ | ⟨f, hf, hcase⟩
    · exact .inl ⟨s', mem_cons_of_mem s hs', hfound⟩
    · refine .inr ⟨f, by rw [getLast?_cons_of_ne_nil hnil, hf], ?_⟩
      rcases hcase with ⟨hsame, hfc, -⟩ | ⟨hread, hfr, hall⟩
      · exact .inl ⟨hsame, hfc, fun hw => absurd hw hno.1⟩
      · exact .inr ⟨hread, hfr, forall_mem_cons.mpr ⟨fun _ => hno.2, hall⟩⟩

lemma scanShares_last {f : ShrLock} (hlast : l.getLast? = some f)
    (hpass : ∀ s ∈ l.dropLast, ∀ next, next ≠ [] → scanShares readonly shr (s :: next) = scanShares readonly shr next) :
    scanShares readonly shr l = scanShares readonly shr [f] := by
  induction l with
  | nil => cases hlast
  | cons s next ih =>
    cases next with
    | nil =>
      obtain rfl : s = f := some_inj.mp hlast
      rfl
    | cons s2 next =>
      rw [dropLast_cons_cons, forall_mem_cons] at hpass
      rw [hpass.1 _ (cons_ne_nil s2 next)]
      exact ih hlast hpass.2

end Scan

section Invariant

variable {readonly : Bool} {shr : ShrLock} {l : List ShrLock}

/-- Neither of two shares that are not in compatibility mode has what the other denies. -/
def Agree (a b : ShrLock) : Prop := ¬a.Compat → ¬b.Compat → a.access &&& b.deny = 0 ∧ b.access &&& a.deny = 0

instance : Std.Symm Agree where
  symm _ _ hab hbc hac := (hab hac hbc).symm

/-- What holds of the shares while no request is overlooked: a compatibility share with write access comes from an
oldest one. -/
structure Kept (l : List ShrLock) : Prop where
  access : ∀ s ∈ l, ¬s.Writes → s.access = F_RDACC
  modes : l.Pairwise Agree
  compat : ∀ a ∈ l, a.Compat → a.Writes → ∀ b ∈ l, b.SameOwner a
  oldest : (∃ a ∈ l, a.Compat ∧ a.Writes) → ∃ f, l.getLast? = some f ∧ f.Compat

lemma Kept.exclusive (h : Kept l) : Exclusive l := by
  refine ⟨?_, h.compat⟩
  intro a ha b hb hother hac hbc
  have hne : a ≠ b := by
    rintro rfl
    exact hother ⟨rfl, rfl, rfl⟩
  exact (h.modes.forall ha hb hne hac hbc).1

lemma Kept.nil : Kept [] :=
  ⟨fun _ hs => absurd hs not_mem_nil, List.Pairwise.nil, fun _ ha => absurd ha not_mem_nil,
    fun ⟨_, ha, _⟩ => absurd ha not_mem_nil⟩

lemma ShrLock.Valid.read (h : shr.Valid) (hread : ¬shr.Writes) : shr.access = F_RDACC := by
  obtain ⟨hzero, hmask⟩ := not_or.mp h.1
  have hmask' : shr.access &&& 0xfffc = 0#16 := not_not.mp hmask
  have hread' : shr.access &&& 2 = 0#16 := not_not.mp hread
  have hsplit : shr.access = (shr.access &&& 0xfffc) ||| (shr.access &&& 2) ||| (shr.access &&& 1) := by
    rw [← BitVec.and_or_distrib_left, ← BitVec.and_or_distrib_left]
    exact (BitVec.and_allOnes).symm
  rw [hmask', hread', BitVec.zero_or, BitVec.zero_or] at hsplit
  have hbit : shr.access &&& 1 = 0 ∨ shr.access &&& 1 = 1 := by
    rw [← BitVec.toNat_inj, ← BitVec.toNat_inj, BitVec.toNat_and]
    change shr.access.toNat &&& 1 = 0 ∨ shr.access.toNat &&& 1 = 1
    rw [Nat.and_one_is_mod]
    omega
  rcases hbit with h0 | h1
  · rw [h0] at hsplit
    exact absurd hsplit hzero
  · rw [h1] at hsplit
    exact hsplit

lemma stored_compat : shr.stored.Compat ↔ shr.Compat := by
  unfold ShrLock.stored
  split_ifs with hc
  · refine iff_of_true ?_ hc
    change F_COMPAT &&& F_COMPAT ≠ 0
    decide
  · rfl

lemma delShare_kept (h : Kept l) : Kept (delShare l shr).2 := by
  have hkept : (delShare l shr).2 = l.filter fun s => ¬shr.Matches s := delLoop_kept shr l
  rw [hkept]
  refine ⟨fun s hs => h.access s (mem_of_mem_filter hs), h.modes.filter _,
    fun a ha hac haw b hb => h.compat a (mem_of_mem_filter ha) hac haw b (mem_of_mem_filter hb), ?_⟩
  rintro ⟨a, ha, hac, haw⟩
  have hmem := mem_of_mem_filter ha
  have hstays : ¬shr.Matches a := of_decide_eq_true (mem_filter.mp ha).2
  -- the shares are all of one owner, and stay all
  have hall : ∀ s ∈ l, ¬shr.Matches s := by
    intro s hs hmatch
    obtain ⟨hsys, hpid, howner⟩ := h.compat a hmem hac haw s hs
    apply hstays
    unfold ShrLock.Matches at hmatch ⊢
    rw [← hsys, ← hpid, ← howner]
    exact hmatch
  have hsame : (l.filter fun s => ¬shr.Matches s) = l := filter_eq_self.mpr fun s hs => decide_eq_true (hall s hs)
  rw [hsame]
  exact h.oldest ⟨a, hmem, hac, haw⟩

lemma Kept.foreign (h : Kept l) (hv : shr.Valid) (hscan : scanShares readonly shr l = none)
    (hno : ¬Overlooked readonly shr l) {a : ShrLock} (ha : a ∈ l) (hac : a.Compat) (haw : a.Writes) :
    shr.SameOwner a := by
  by_contra hother
  have hall := h.compat a ha hac haw
  have hnone : ∀ s ∈ l, ¬s.SameOwner shr := fun s hs hsame => hother (hsame.symm.trans (hall s hs))
  obtain ⟨f, hf, hfc⟩ := h.oldest ⟨a, ha, hac, haw⟩
  have hfl : f ∈ l := mem_of_getLast? hf
  have hforeign : ∃ s ∈ l, s.Compat ∧ s.Writes ∧ ¬s.SameOwner shr := ⟨a, ha, hac, haw, hnone a ha⟩
  by_cases hc : shr.Compat
  · rcases scanShares_compat hc hscan (ne_nil_of_mem ha) with ⟨s, hs, hsame, -⟩ | ⟨g, hg, hcase⟩
    · exact hnone s hs hsame
    · obtain rfl : g = f := some_inj.mp (hg.symm.trans hf)
      rcases hcase with ⟨hsame, -⟩ | ⟨hread, hfr, hplain⟩
      · exact hnone g hfl hsame
      · exact hno ⟨hv, g, hf, hfc, .inr ⟨hfr hfc, hread, hforeign, .inl ⟨hc, hplain⟩⟩⟩
  · obtain ⟨-, hdrop, hold⟩ := scanShares_plain hc hscan
    obtain ⟨hread, hdeny, hfread, hro⟩ := hold f hf hfc
    exact hno ⟨hv, f, hf, hfc, .inr ⟨h.access f hfl hfread, hread, hforeign, .inr ⟨hc, hdeny, hro, hdrop⟩⟩⟩

lemma Kept.alone (h : Kept l) (hv : shr.Valid) (hscan : scanShares readonly shr l = none)
    (hno : ¬Overlooked readonly shr l) (hc : shr.Compat) (hw : shr.Writes) :
    (∀ b ∈ l, b.SameOwner shr) ∧ (l ≠ [] → ∃ f, l.getLast? = some f ∧ f.Compat) := by
  by_cases hnil : l = []
  · rw [hnil]
    exact ⟨fun _ hb => absurd hb not_mem_nil, fun hne => absurd rfl hne⟩
  rcases scanShares_compat hc hscan hnil with ⟨s, hs, hsame, hsc, hsw⟩ | ⟨f, hf, ⟨hsame, hfc, hall⟩ | ⟨hread, -⟩⟩
  · exact ⟨fun b hb => (h.compat s hs hsc hsw b hb).trans hsame, fun _ => h.oldest ⟨s, hs, hsc, hsw⟩⟩
  · refine ⟨?_, fun _ => ⟨f, hf, hfc⟩⟩
    intro b hb
    by_contra hother
    exact hno ⟨hv, f, hf, hfc, .inl ⟨hc, hw, hsame, hall hw, b, hb, hother⟩⟩
  · exact absurd hw hread

lemma addShare_kept (h : Kept l) (hno : ¬Overlooked readonly shr l) : Kept (addShare readonly shr l).2 := by
  unfold addShare
  by_cases hv : shr.Valid
  swap
  · rw [if_pos hv]
    exact h
  rw [if_neg (not_not.mpr hv)]
  cases hscan : scanShares readonly shr l with
  | some e => exact h
  | none =>
    constructor
    · rw [forall_mem_cons]
      exact ⟨hv.read, h.access⟩
    · refine pairwise_cons.mpr ⟨?_, h.modes⟩
      intro s hs hplain hsplain
      have hc : ¬shr.Compat := fun hc => hplain (stored_compat.mpr hc)
      have hclash := (scanShares_plain hc hscan).1 s hs hsplain
      obtain ⟨haccess, hdeny⟩ := not_or.mp hclash
      have hmode : shr.stored.deny = shr.deny := if_neg hc
      refine ⟨not_not.mp haccess, ?_⟩
      rw [hmode, BitVec.and_comm]
      exact not_not.mp hdeny
    · rw [forall_mem_cons]
      constructor
      · intro hc hw
        rw [forall_mem_cons]
        have halone := (h.alone hv hscan hno (stored_compat.mp hc) hw).1
        exact ⟨⟨rfl, rfl, rfl⟩, halone⟩
      · intro a ha hac haw
        rw [forall_mem_cons]
        exact ⟨h.foreign hv hscan hno ha hac haw, h.compat a ha hac haw⟩
    · rintro ⟨a, ha, hac, haw⟩
      by_cases hnil : l = []
      · rw [hnil] at ha ⊢
        rw [mem_singleton.mp ha] at hac
        exact ⟨shr.stored, rfl, hac⟩
      · change ∃ f, (shr.stored :: l).getLast? = some f ∧ f.Compat
        rw [getLast?_cons_of_ne_nil hnil]
        rcases mem_cons.mp ha with rfl | ha'
        · exact (h.alone hv hscan hno (stored_compat.mp hac) haw).2 hnil
        · exact h.oldest ⟨a, ha', hac, haw⟩

end Invariant

section Overlooked

variable {readonly : Bool} {shr f : ShrLock} {l : List ShrLock}

lemma not_exact (hother : shr.Writes ∧ ¬f.Writes ∨ ¬f.SameOwner shr) :
    ¬(f.SameOwner shr ∧ f.access = shr.access ∧ f.deny = shr.deny) := by
  rintro ⟨hsame, haccess, -⟩
  rcases hother with ⟨hw, hread⟩ | hother
  · unfold ShrLock.Writes at hw hread
    rw [haccess] at hread
    exact hread hw
  · exact hother hsame

lemma scanShares_owner (hc : shr.Compat) (hw : shr.Writes) (hf : l.getLast? = some f) (hsame : f.SameOwner shr)
    (hall : ∀ s ∈ l, s.Compat ∧ ¬s.Writes) : scanShares readonly shr l = none := by
  rw [scanShares_last hf]
  · obtain ⟨hfc, hread⟩ := hall f (mem_of_getLast? hf)
    unfold scanShares
    rw [if_neg (not_exact (.inl ⟨hw, hread⟩)), if_pos ⟨hsame, hfc, hc, .inl rfl⟩]
  · intro s hs next hnext
    obtain ⟨hsc, hread⟩ := hall s (mem_of_mem_dropLast hs)
    have hbreak : ¬(s.SameOwner shr ∧ s.Compat ∧ shr.Compat ∧ (next = [] ∨ s.Writes)) := by
      rintro ⟨-, -, -, hnil | hsw⟩
      · exact hnext hnil
      · exact hread hsw
    conv_lhs => unfold scanShares
    rw [if_neg (not_exact (.inl ⟨hw, hread⟩)), if_neg hbreak, if_neg fun hand => hnext hand.2, if_pos ⟨hsc, hc⟩]

lemma scanShares_read (hc : shr.Compat) (hread : shr.access = F_RDACC) (hf : l.getLast? = some f) (hfc : f.Compat)
    (hfr : f.access = F_RDACC) (hother : ∀ s ∈ l, ¬s.SameOwner shr)
    (hplain : ∀ s ∈ l, ¬s.Compat → ¬s.DeniesRead ∧ ¬s.Writes) : scanShares readonly shr l = none := by
  have hw : ¬shr.Writes := by
    unfold ShrLock.Writes
    rw [hread]
    decide
  rw [scanShares_last hf]
  · have hnot := hother f (mem_of_getLast? hf)
    unfold scanShares
    rw [if_neg (not_exact (.inr hnot)), if_neg fun hand => hnot hand.1, if_pos ⟨hfc, rfl⟩, if_neg (not_not.mpr hc),
      if_pos ⟨hread, hfr⟩]
  · intro s hs next hnext
    have hmem := mem_of_mem_dropLast hs
    have hnot := hother s hmem
    conv_lhs => unfold scanShares
    rw [if_neg (not_exact (.inr hnot)), if_neg fun hand => hnot hand.1, if_neg fun hand => hnext hand.2]
    by_cases hsc : s.Compat
    · rw [if_pos ⟨hsc, hc⟩]
    · obtain ⟨hdeny, hsw⟩ := hplain s hmem hsc
      have hpass : ¬(shr.Writes ∨ s.DeniesRead ∨ s.Writes) := not_or.mpr ⟨hw, not_or.mpr ⟨hdeny, hsw⟩⟩
      rw [if_neg fun hand => hsc hand.1, if_pos hc, if_neg hpass, if_neg hnext]

lemma scanShares_readonly (hc : ¬shr.Compat) (hread : ¬shr.Writes) (hdeny : ¬shr.DeniesRead) (hro : readonly = true)
    (hf : l.getLast? = some f) (hfc : f.Compat) (hfr : ¬f.Writes) (hother : ∀ s ∈ l, ¬s.SameOwner shr)
    (hplain : ∀ s ∈ l.dropLast, ¬shr.Clashes s) : scanShares readonly shr l = none := by
  rw [scanShares_last hf]
  · have hnot := hother f (mem_of_getLast? hf)
    have hpass : ¬(shr.Writes ∨ shr.DeniesRead ∨ f.Writes) := not_or.mpr ⟨hread, not_or.mpr ⟨hdeny, hfr⟩⟩
    unfold scanShares
    rw [if_neg (not_exact (.inr hnot)), if_neg fun hand => hnot hand.1, if_pos ⟨hfc, rfl⟩, if_pos hc, if_neg hpass,
      if_pos hro]
  · intro s hs next hnext
    have hnot := hother s (mem_of_mem_dropLast hs)
    conv_lhs => unfold scanShares
    rw [if_neg (not_exact (.inr hnot)), if_neg fun hand => hnot hand.1, if_neg fun hand => hnext hand.2,
      if_neg fun hand => hc hand.2, if_neg hc, if_neg (hplain s hs)]

lemma Kept.not_exclusive (h : Kept l) (ho : Overlooked readonly shr l) : ¬Exclusive (addShare readonly shr l).2 := by
  obtain ⟨hv, f, hf, hfc, hcase⟩ := ho
  have htaken (hscan : scanShares readonly shr l = none) : (addShare readonly shr l).2 = shr.stored :: l := by
    unfold addShare
    rw [if_neg (not_not.mpr hv), hscan]
  rcases hcase with ⟨hc, hw, hsame, hall, s, hs, hother⟩ | ⟨hfr, hread, ⟨a, ha, hac, haw, hother⟩, hcase⟩
  · have hreads : ∀ s ∈ l, s.Compat ∧ ¬s.Writes := by
      intro s' hs'
      refine ⟨hall s' hs', ?_⟩
      intro hsw
      have hone := h.compat s' hs' (hall s' hs') hsw
      exact hother ((hone s hs).trans ((hone f (mem_of_getLast? hf)).symm.trans hsame))
    rw [htaken (scanShares_owner hc hw hf hsame hreads)]
    intro hexcl
    exact hother (hexcl.compat shr.stored mem_cons_self (stored_compat.mpr hc) hw s (mem_cons_of_mem _ hs))
  · have hone := h.compat a ha hac haw
    have hnone : ∀ s ∈ l, ¬s.SameOwner shr := fun s hs hsame => hother ((hone s hs).symm.trans hsame)
    have hscan : scanShares readonly shr l = none := by
      rcases hcase with ⟨hc, hplain⟩ | ⟨hc, hdeny, hro, hplain⟩
      · exact scanShares_read hc (hv.read hread) hf hfc hfr hnone hplain
      · have hfread : ¬f.Writes := by
          unfold ShrLock.Writes
          rw [hfr]
          decide
        exact scanShares_readonly hc hread hdeny hro hf hfc hfread hnone hplain
    rw [htaken hscan]
    intro hexcl
    have hsame := hexcl.compat a (mem_cons_of_mem _ ha) hac haw shr.stored mem_cons_self
    exact hother hsame.symm

/-- The shares exclude each other in every state of a run if and only if no request of it is overlooked. -/
theorem exclusive_along_iff (calls : List Call) :
    Along step (fun l c => Exclusive (step l c)) [] calls ↔ Along step NotOverlooked [] calls := by
  have hstep (l : List ShrLock) (c : Call) (h : Kept l) (hno : NotOverlooked l c) : Kept (step l c) := by
    cases c with
    | add readonly shr => exact addShare_kept h hno
    | del shr => exact delShare_kept h
  constructor
  · intro hrun
    refine hrun.imp Kept.nil ?_
    intro l c h hexcl
    have hno : NotOverlooked l c := by
      cases c with
      | add readonly shr => exact fun ho => h.not_exclusive ho hexcl
      | del shr => trivial
    exact ⟨hno, hstep l c h hno⟩
  · intro hrun
    refine hrun.imp Kept.nil ?_
    intro l c h hno
    have hnext := hstep l c h hno
    exact ⟨hnext.exclusive, hnext⟩

/-- Two processes have shares with read access in compatibility mode, and the first asks to write. -/
theorem shares_not_exclusive : ¬∀ calls : List Call, Along step (fun l c => Exclusive (step l c)) [] calls := by
  intro hall
  have hrun := hall [.add false ⟨F_RDACC, F_COMPAT, 0, 1, [1]⟩, .add false ⟨F_RDACC, F_COMPAT, 0, 2, [2]⟩,
    .add false ⟨F_WRACC, F_COMPAT, 0, 1, [1]⟩]
  have hsame := hrun.2.2.1.compat ⟨F_WRACC, F_COMPAT, 0, 1, [1]⟩ (by decide) (by decide) (by decide)
    ⟨F_RDACC, F_COMPAT, 0, 2, [2]⟩ (by decide)
  revert hsame
  decide

end Overlooked

end Solaris.Share
