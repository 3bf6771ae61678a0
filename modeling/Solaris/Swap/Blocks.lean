import Solaris.Swap.SlotRuns

/-!
# Swap areas by block numbers

`swapadd` and `swapdel` are given block numbers, which they turn into offsets by 32-bit shifts and
sums. What `swapadd` accepts is compared with what it was asked for, over all the integers, and with
what `swapdel` finds for the same block.
-/

namespace Solaris.SwapSlots

open Lib BitVec List Option Nat

def sctrshft : Nat := 9

def minirootsize : Nat := 12000

/-- The arguments of `swapadd`, the memory it gets for a new area, whether the vnode is `rootdir`,
and the size of the file. -/
structure AddCall where
  vp : Nat
  lowblk : BitVec 32
  nblks : BitVec 32
  addr : Nat
  root : Bool
  klustsize : Nat
  vaSize : Nat

namespace AddCall

/-- The miniroot is left out of the root file system, the label of the disk out of the others. -/
def startblk (c : AddCall) : BitVec 32 :=
  if c.root then
    BitVec.ofNat 32 ((minirootsize <<< sctrshft + (c.klustsize - 1)) / c.klustsize * c.klustsize)
      >>> sctrshft
  else if c.lowblk ≠ 0 then c.lowblk else 1

def soff (c : AddCall) : BitVec 32 := c.startblk <<< sctrshft

def eoff (c : AddCall) : BitVec 32 :=
  if c.nblks ≠ 0 then c.soff + ((c.nblks - (c.startblk - c.lowblk)) <<< sctrshft)
  else BitVec.ofNat 32 c.vaSize

/-- `swapadd` -/
def run (pageShift : Nat) (c : AddCall) (s : Areas) : Areas :=
  swapadd pageShift s c.addr c.vp c.soff.toNat c.eoff.toNat c.vaSize

end AddCall

/-- The area that `swapadd` finds being deleted, and keeps. -/
def keptArea (vp soff eoff pages : Nat) : List SwapInfo → Option SwapInfo
  | [] => none
  | esip :: l =>
    if esip.vp = vp ∧ esip.soff = soff ∧ esip.npgs = pages ∧ esip.doingDel = true then
      some { esip with doingDel := false }
    else if esip.vp = vp ∧ soff < esip.eoff ∧ esip.soff < eoff then none
    else keptArea vp soff eoff pages l

/-- The area that a successful `swapadd` answers for: a new one, or one that it keeps. -/
def AddCall.accepted (pageShift : Nat) (c : AddCall) (s : Areas) : Option SwapInfo :=
  match swapaddBounds pageShift c.soff.toNat c.eoff.toNat c.vaSize with
  | none => none
  | some (soff, eoff) =>
    match swapaddSearch c.vp soff eoff (btop pageShift (eoff - soff)) s.swapinfo with
    | none => some (newSwapInfo pageShift c.addr c.vp soff eoff)
    | some _ => keptArea c.vp soff eoff (btop pageShift (eoff - soff)) s.swapinfo

/-- The offset that `swapdel` looks for. -/
def swapdelSoff (pageShift : Nat) (lowblk : BitVec 32) : Nat :=
  let lowblk := if lowblk ≠ 0 then lowblk else 1
  ptob pageShift
    (((lowblk <<< sctrshft).toNat + (pageSize pageShift - 1)) % 2 ^ 32 / pageSize pageShift)

/-- The search at the start of `swapdel`. -/
def swapdelFind (vp soff : Nat) (l : List SwapInfo) : Option SwapInfo :=
  l.find? fun osip => osip.vp == vp && osip.soff == soff && !osip.inDel && !osip.doingDel

section Asked

variable (pageShift : Nat)

/-- The area lies inside what was asked for and inside the file, after the label, in whole pages. -/
structure AsAsked (c : AddCall) (a : SwapInfo) : Prop where
  low : 512 * c.lowblk.toNat ≤ a.soff
  nonempty : a.soff < a.eoff
  size : a.eoff ≤ c.vaSize
  high : c.nblks ≠ 0 → a.eoff ≤ 512 * (c.lowblk.toNat + c.nblks.toNat)
  label : 512 ≤ a.soff
  aligned : pageSize pageShift ∣ a.soff ∧ pageSize pageShift ∣ a.eoff

/-- `swapdel` finds the area by the same block, an area that was being deleted once its deletion has
put it back. -/
def FoundAgain (c : AddCall) (a : SwapInfo) (s : Areas) : Prop :=
  swapdelFind c.vp (swapdelSoff pageShift c.lowblk) (setFlags false false a.addr s.swapinfo) =
      some { a with inDel := false, doingDel := false } ∧
    (a.inDel = false → swapdelFind c.vp (swapdelSoff pageShift c.lowblk) s.swapinfo = some a)

end Asked

section Offsets

variable {pageShift : Nat} {c : AddCall} {soff eoff vaSize soff' eoff' : Nat}

lemma swapaddBounds_eq (h : swapaddBounds pageShift soff eoff vaSize = some (soff', eoff')) :
    vaSize < 2 ^ 31 ∧ soff < vaSize ∧ eoff ≤ vaSize ∧ soff' = ptob pageShift (btopr pageShift soff) ∧
      eoff' = ptob pageShift (btop pageShift eoff) ∧ soff' < eoff' := by
  unfold swapaddBounds at h
  dsimp only at h
  split_ifs at h with h1 h2 h3 h4
  obtain ⟨rfl, rfl⟩ := h
  exact ⟨by omega, by omega, by omega, rfl, rfl, by omega⟩

lemma toNat_shift {b : BitVec 32} (h : b.toNat < 2 ^ 23) : (b <<< sctrshft).toNat = 512 * b.toNat := by
  rw [toNat_shiftLeft, Nat.shiftLeft_eq, sctrshft]
  omega

lemma startblk_toNat (hroot : c.root = false) :
    c.startblk.toNat = if c.lowblk = 0 then 1 else c.lowblk.toNat := by
  unfold AddCall.startblk
  rw [hroot, if_neg (by decide)]
  by_cases h : c.lowblk = 0
  · rw [if_neg (not_not.mpr h), if_pos h]
    rfl
  · rw [if_pos h, if_neg h]

lemma eoff_le (hroot : c.root = false) (hlow : c.lowblk.toNat < 2 ^ 23) (hn : c.nblks ≠ 0) :
    c.eoff.toNat ≤ 512 * (c.lowblk.toNat + c.nblks.toNat) := by
  have hstart := startblk_toNat hroot
  have hpos : c.nblks.toNat ≠ 0 := fun h => hn (eq_of_toNat_eq h)
  have hcount : (c.nblks - (c.startblk - c.lowblk)).toNat + c.startblk.toNat =
      c.lowblk.toNat + c.nblks.toNat := by
    rw [toNat_sub, toNat_sub, hstart]
    split
    · next h0 =>
      have hzero : c.lowblk.toNat = 0 := by
        rw [h0]
        rfl
      omega
    · omega
  have hsoff : c.soff.toNat = 512 * c.startblk.toNat := by
    apply toNat_shift
    rw [hstart]
    split <;> omega
  rw [AddCall.eoff, if_pos hn, toNat_add, toNat_shiftLeft, Nat.shiftLeft_eq, hsoff, sctrshft]
  calc (512 * c.startblk.toNat + (c.nblks - (c.startblk - c.lowblk)).toNat * 2 ^ 9 % 2 ^ 32) % 2 ^ 32
      ≤ 512 * c.startblk.toNat + (c.nblks - (c.startblk - c.lowblk)).toNat * 2 ^ 9 % 2 ^ 32 :=
        Nat.mod_le _ _
    _ ≤ 512 * c.startblk.toNat + (c.nblks - (c.startblk - c.lowblk)).toNat * 2 ^ 9 :=
        Nat.add_le_add_left (Nat.mod_le _ _) _
    _ = 512 * (c.lowblk.toNat + c.nblks.toNat) := by omega

lemma swapdelSoff_eq (hshift : pageShift ≤ 16) (hroot : c.root = false) (hsoff : c.soff.toNat < 2 ^ 31) :
    swapdelSoff pageShift c.lowblk = ptob pageShift (btopr pageShift c.soff.toNat) := by
  have hpage : pageSize pageShift ≤ 2 ^ 16 := Nat.pow_le_pow_right (by omega) hshift
  have hblk : c.startblk = if c.lowblk ≠ 0 then c.lowblk else 1 := by
    rw [AddCall.startblk, hroot]
    rfl
  unfold swapdelSoff
  rw [← hblk]
  change ptob pageShift ((c.soff.toNat + (pageSize pageShift - 1)) % 2 ^ 32 / pageSize pageShift) = _
  rw [mod_eq_of_lt (by omega)]
  rfl

end Offsets

section Search

variable {pageShift : Nat} {vp soff eoff pages : Nat}

lemma keptArea_spec {l : List SwapInfo} {a : SwapInfo} (hwf : ∀ b ∈ l, b.Wf pageShift)
    (hlt : soff < eoff) (h : keptArea vp soff eoff pages l = some a) :
    a.vp = vp ∧ a.soff = soff ∧ a.npgs = pages ∧ a.Wf pageShift ∧ a.doingDel = false ∧ ∃ pre post,
      swapaddSearch vp soff eoff pages l = some (pre ++ a :: post) ∧
      ∀ b ∈ pre, ¬(b.vp = vp ∧ b.soff = soff) := by
  induction l with
  | nil => cases h
  | cons b l ih =>
    have hb := hwf b mem_cons_self
    unfold keptArea at h
    split_ifs at h with h1 h2
    · obtain ⟨hvp, hs, hp, -⟩ := id h1
      have ha : { b with doingDel := false } = a := some.inj h
      subst ha
      exact ⟨hvp, hs, hp, ⟨hb.pages, hb.size, hb.top, hb.words, hb.mapsize, hb.hint, hb.free, hb.inside⟩,
        rfl, [], l, by rw [swapaddSearch, if_pos h1]; rfl, by simp⟩
    obtain ⟨hvp, hs, hp, hwf', hdo, pre, post, hsearch, hpre⟩ :=
      ih (fun d hd => hwf d (mem_cons_of_mem _ hd)) h
    refine ⟨hvp, hs, hp, hwf', hdo, b :: pre, post, ?_, fun d hd => ?_⟩
    · rw [swapaddSearch, if_neg h1, if_neg h2, hsearch]
      rfl
    rcases mem_cons.mp hd with rfl | hd
    · rintro ⟨hdvp, hds⟩
      have hne : 0 < ptob pageShift d.npgs := Nat.mul_pos hb.pages (Nat.two_pow_pos _)
      have hsize := hb.size
      exact h2 ⟨hdvp, by omega, by omega⟩
    · exact hpre d hd

lemma swapdelFind_append {pre post : List SwapInfo} {a : SwapInfo} (hvp : a.vp = vp) (hs : a.soff = soff)
    (hin : a.inDel = false) (hdo : a.doingDel = false)
    (hpre : ∀ b ∈ pre, ¬(b.vp = vp ∧ b.soff = soff)) :
    swapdelFind vp soff (pre ++ a :: post) = some a := by
  have hnone : pre.find? (fun osip => osip.vp == vp && osip.soff == soff && !osip.inDel && !osip.doingDel) =
      none := by
    rw [find?_eq_none]
    intro b hb hc
    have hno := hpre b hb
    simp only [Bool.and_eq_true, beq_iff_eq] at hc
    exact hno ⟨hc.1.1.1, hc.1.1.2⟩
  unfold swapdelFind
  rw [find?_append, hnone, none_or, find?_cons_of_pos]
  simp [hvp, hs, hin, hdo]

lemma setFlags_append (inDel doingDel : Bool) (a : SwapInfo) (pre post : List SwapInfo) :
    setFlags inDel doingDel a.addr (pre ++ a :: post) = setFlags inDel doingDel a.addr pre ++
      { a with inDel, doingDel } :: setFlags inDel doingDel a.addr post := by
  unfold setFlags
  rw [map_append, map_cons, if_pos rfl]

lemma mem_setFlags {inDel doingDel : Bool} {p : Nat} {l : List SwapInfo} {b : SwapInfo}
    (h : b ∈ setFlags inDel doingDel p l) : ∃ d ∈ l, b.vp = d.vp ∧ b.soff = d.soff := by
  unfold setFlags at h
  obtain ⟨d, hd, rfl⟩ := mem_map.mp h
  refine ⟨d, hd, ?_⟩
  split
  · exact ⟨rfl, rfl⟩
  · exact ⟨rfl, rfl⟩

theorem accepted_spec {c : AddCall} {s : Areas} {a : SwapInfo} (hwf : ∀ b ∈ s.swapinfo, b.Wf pageShift)
    (h : c.accepted pageShift s = some a) :
    swapaddBounds pageShift c.soff.toNat c.eoff.toNat c.vaSize = some (a.soff, a.eoff) ∧
      a.vp = c.vp ∧ a.doingDel = false ∧ ∃ pre post, (c.run pageShift s).swapinfo = pre ++ a :: post ∧
      ∀ b ∈ pre, ¬(b.vp = c.vp ∧ b.soff = a.soff) := by
  unfold AddCall.accepted at h
  unfold AddCall.run swapadd
  cases hb : swapaddBounds pageShift c.soff.toNat c.eoff.toNat c.vaSize with
  | none =>
    rw [hb] at h
    cases h
  | some x =>
    obtain ⟨soff', eoff'⟩ := x
    rw [hb] at h
    obtain ⟨-, -, -, -, -, hlt⟩ := swapaddBounds_eq hb
    obtain ⟨htop, n, hn, he⟩ := swapaddBounds_spec hb
    dsimp only at h ⊢
    cases hsearch : swapaddSearch c.vp soff' eoff' (btop pageShift (eoff' - soff')) s.swapinfo with
    | none =>
      rw [hsearch] at h
      have ha : newSwapInfo pageShift c.addr c.vp soff' eoff' = a := some.inj h
      subst ha
      refine ⟨rfl, rfl, rfl, s.swapinfo, [], rfl, ?_⟩
      rintro b hb' ⟨hvp, hs⟩
      have hbwf := hwf b hb'
      have hpos : 0 < ptob pageShift b.npgs := Nat.mul_pos hbwf.pages (Nat.two_pow_pos _)
      have hsize := hbwf.size
      have hs' : b.soff = soff' := hs
      rcases @swapaddSearch_spec c.vp soff' eoff' (btop pageShift (eoff' - soff')) s.swapinfo with
        ⟨-, hap⟩ | ⟨l', hsome, -⟩
      · have hside := hap b hb' hvp
        omega
      · rw [hsearch] at hsome
        cases hsome
    | some l' =>
      rw [hsearch] at h
      obtain ⟨hvp, hs, hp, hawf, hdo, pre, post, hsearch', hpre⟩ := keptArea_spec hwf hlt h
      rw [hsearch] at hsearch'
      have hl := some.inj hsearch'
      have heoff : a.eoff = eoff' := by
        rw [hawf.size, hs, hp, he, Nat.add_sub_cancel_left, btop_ptob]
      rw [hs, heoff]
      exact ⟨rfl, hvp, hdo, pre, post, hl, hpre⟩

end Search

section Accepted

variable {pageShift : Nat}

/-- An area that `swapadd` answers for lies inside what was asked for, and is found again, if and only if
the offset of the first block fits into 32 bits. -/
theorem swapadd_inside_iff (hshift : pageShift ≤ 16) {s : Sys} (hs : Reachable pageShift s) (c : AddCall)
    (hroot : c.root = false) {a : SwapInfo} (h : c.accepted pageShift s.areas = some a) :
    AsAsked pageShift c a ∧ FoundAgain pageShift c a (c.run pageShift s.areas) ↔
      c.lowblk.toNat < 2 ^ 23 := by
  obtain ⟨hbounds, hvp, hdo, pre, post, hlist, hpre⟩ := accepted_spec hs.inv.ok.wf h
  obtain ⟨hva, hsva, heva, hsoff, heoff, hlt⟩ := swapaddBounds_eq hbounds
  have hpos : 0 < pageSize pageShift := Nat.two_pow_pos pageShift
  have hele : a.eoff ≤ c.eoff.toNat := by
    rw [heoff]
    exact div_mul_le_self _ _
  have hsle : c.soff.toNat ≤ a.soff := by
    have hdiv := div_add_mod (c.soff.toNat + (pageSize pageShift - 1)) (pageSize pageShift)
    have hmod := mod_lt (c.soff.toNat + (pageSize pageShift - 1)) hpos
    rw [hsoff, ptob, btopr]
    rw [mul_comm] at hdiv
    omega
  constructor
  · rintro ⟨hask, -⟩
    have hlow := hask.low
    omega
  · intro hlow
    have hstart := startblk_toNat hroot
    have hstart1 : 1 ≤ c.startblk.toNat ∧ c.lowblk.toNat ≤ c.startblk.toNat ∧
        c.startblk.toNat < 2 ^ 23 := by
      rw [hstart]
      split
      · next h0 =>
        have hzero : c.lowblk.toNat = 0 := by
          rw [h0]
          rfl
        omega
      · next h0 =>
        have hne : c.lowblk.toNat ≠ 0 := fun h => h0 (eq_of_toNat_eq h)
        omega
    have hval : c.soff.toNat = 512 * c.startblk.toNat := toNat_shift hstart1.2.2
    have hdel := swapdelSoff_eq hshift hroot (by omega)
    rw [← hsoff] at hdel
    refine ⟨⟨by omega, hlt, by omega, ?_, by omega, ?_, ?_⟩, ?_, ?_⟩
    · intro hn
      exact hele.trans (eoff_le hroot hlow hn)
    · rw [hsoff]
      exact dvd_mul_left _ _
    · rw [heoff]
      exact dvd_mul_left _ _
    · rw [hdel, hlist, setFlags_append]
      refine swapdelFind_append hvp rfl rfl rfl ?_
      rintro b hb ⟨hbvp, hbs⟩
      obtain ⟨d, hd, hdvp, hds⟩ := mem_setFlags hb
      exact hpre d hd ⟨hdvp ▸ hbvp, hds ▸ hbs⟩
    · intro hin
      rw [hdel, hlist]
      exact swapdelFind_append hvp rfl hin hdo hpre

/-- Vnode 7 has an area on the list already, with two of its slots handed out. -/
theorem swapadd_inside_iff_sample :
    AsAsked 12 ⟨7, 40, 64, 100, false, 1, 1048576⟩ (newSwapInfo 12 100 7 20480 53248) ∧
        FoundAgain 12 ⟨7, 40, 64, 100, false, 1, 1048576⟩ (newSwapInfo 12 100 7 20480 53248)
          (AddCall.run 12 ⟨7, 40, 64, 100, false, 1, 1048576⟩ twoOfFour.areas) ↔
      (40 : BitVec 32).toNat < 2 ^ 23 :=
  swapadd_inside_iff (by omega) twoOfFour_reachable ⟨7, 40, 64, 100, false, 1, 1048576⟩ rfl (by decide +kernel)

/-- Block 8388616 is asked for, and the area starts at block 8. -/
theorem swapadd_not_inside :
    ¬∀ (s : Sys), Reachable 12 s → ∀ c : AddCall, c.root = false → ∀ a,
      c.accepted 12 s.areas = some a →
        AsAsked 12 c a ∧ FoundAgain 12 c a (c.run 12 s.areas) := by
  intro h
  have hacc : AddCall.accepted 12 ⟨7, 8388616, 0, 100, false, 1, 1048576⟩ ⟨[], none⟩ =
      some (newSwapInfo 12 100 7 4096 1048576) := by decide +kernel
  have hask := (h ⟨⟨[], none⟩, []⟩ .init _ rfl _ hacc).1.low
  exact absurd hask (by decide +kernel)

end Accepted

end Solaris.SwapSlots
