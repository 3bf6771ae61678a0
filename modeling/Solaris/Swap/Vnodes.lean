import Solaris.Lib.Along
import Solaris.Swap.Blocks

/-!
# Vnodes with swap areas

What `swapadd` and `swapdel` do to the `VISSWAP` flag of a vnode and how often they open and close it,
next to what they do to the list of areas. A deletion is a call in two parts: between marking the
area and taking it off the list, or putting it back, other calls may run.
-/

namespace Solaris.SwapSlots

open Lib Function List

/-- The swap list, the vnodes with `VISSWAP`, and the opens minus the closes of each vnode. -/
structure Vnodes where
  areas : Areas
  visswap : Nat → Bool
  opens : Nat → Int

namespace Vnodes

def setFlag (s : Vnodes) (vp : Nat) (b : Bool) : Vnodes :=
  { s with visswap := Function.update s.visswap vp b }

def vopOpen (s : Vnodes) (vp : Nat) : Vnodes :=
  { s with opens := Function.update s.opens vp (s.opens vp + 1) }

def vopClose (s : Vnodes) (vp : Nat) : Vnodes :=
  { s with opens := Function.update s.opens vp (s.opens vp - 1) }

end Vnodes

structure Failures where
  vopOpen : Bool
  vopGetattr : Bool
  vopSetattr : Bool
  vopPageio : Bool

/-- The label `out` of `swapadd`, after an error or with an area found on the list. -/
def swapaddOut (vp : Nat) (wasswap : Bool) (s : Vnodes) : Vnodes :=
  (if wasswap then s else s.setFlag vp false).vopClose vp

variable (pageShift : Nat)

def swapaddCall (c : AddCall) (f : Failures) (s : Vnodes) : Vnodes :=
  let wasswap := s.visswap c.vp
  let s := s.setFlag c.vp true
  if f.vopOpen then (if wasswap then s else s.setFlag c.vp false)
  else
    let s := s.vopOpen c.vp
    if f.vopGetattr then swapaddOut c.vp wasswap s
    -- the return of `EINVAL`
    else if 2 ^ 31 - 1 < c.vaSize then s
    else if f.vopSetattr then swapaddOut c.vp wasswap s
    else if f.vopPageio then swapaddOut c.vp wasswap s
    else
      match swapaddBounds pageShift c.soff.toNat c.eoff.toNat c.vaSize with
      | none => swapaddOut c.vp wasswap s
      | some (soff, eoff) =>
        let s := s.setFlag c.vp true
        match swapaddSearch c.vp soff eoff (btop pageShift (eoff - soff)) s.areas.swapinfo with
        | some _ => swapaddOut c.vp wasswap { s with areas := c.run pageShift s.areas }
        | none => { s with areas := c.run pageShift s.areas }

/-- The end of a deletion, which takes the area at `p` off the list. -/
def swapdelEnd (p : Nat) (s : Vnodes) : Vnodes :=
  match s.areas.swapinfo.find? fun osip => osip.addr == p with
  | none => s
  | some osip =>
    (({ s with areas := swapdelDone s.areas p } : Vnodes).vopClose osip.vp).setFlag osip.vp false

/-- A call of `swapadd`, and the parts of a call of `swapdel`: the mark, unless the area is not found or
too little swap would be left, and the end, at which the area at `p` is put back or gone. -/
inductive VnodeEvent
  | add (c : AddCall) (f : Failures)
  | delStart (vp : Nat) (lowblk : BitVec 32) (enough : Bool)
  | delAbort (p : Nat)
  | delDone (p : Nat)

def Vnodes.step (s : Vnodes) : VnodeEvent → Vnodes
  | .add c f => swapaddCall pageShift c f s
  | .delStart vp lowblk enough =>
    { s with areas := swapdelStart s.areas vp (swapdelSoff pageShift lowblk) enough }
  | .delAbort p => { s with areas := swapdelAbort s.areas p }
  | .delDone p => swapdelEnd p s

/-- The memory for an area is new, and a deletion ends that has started. -/
def Vnodes.Allows (s : Vnodes) : VnodeEvent → Prop
  | .add c _ => ∀ a ∈ s.areas.swapinfo, a.addr ≠ c.addr
  | .delStart _ _ _ => True
  | .delAbort p => ∃ a ∈ s.areas.swapinfo, a.addr = p ∧ a.inDel = true
  | .delDone p => ∃ a ∈ s.areas.swapinfo, a.addr = p ∧ a.inDel = true

/-- No file that is too large is opened, and the last area of its vnode is the one that goes. -/
def Vnodes.Safe (s : Vnodes) : VnodeEvent → Prop
  | .add c f => f.vopOpen = false → f.vopGetattr = false → c.vaSize < 2 ^ 31
  | .delStart _ _ _ => True
  | .delAbort _ => True
  | .delDone p => ∀ a ∈ s.areas.swapinfo, a.addr = p →
      ∀ b ∈ s.areas.swapinfo, b.vp = a.vp → b.addr = p

instance (s : Vnodes) : ∀ e, Decidable (s.Allows e)
  | .add c _ => inferInstanceAs (Decidable (∀ a ∈ s.areas.swapinfo, a.addr ≠ c.addr))
  | .delStart _ _ _ => inferInstanceAs (Decidable True)
  | .delAbort p => inferInstanceAs (Decidable (∃ a ∈ s.areas.swapinfo, a.addr = p ∧ a.inDel = true))
  | .delDone p => inferInstanceAs (Decidable (∃ a ∈ s.areas.swapinfo, a.addr = p ∧ a.inDel = true))

def areasOn (l : List SwapInfo) (vp : Nat) : Nat := l.countP fun a => a.vp == vp

/-- Exactly the vnodes with areas are marked, and each is open once for each area. -/
def Vnodes.Exact (s : Vnodes) : Prop :=
  ∀ vp, (s.visswap vp = true ↔ ∃ a ∈ s.areas.swapinfo, a.vp = vp) ∧
    s.opens vp = areasOn s.areas.swapinfo vp

def noVnodes : Vnodes := ⟨⟨[], none⟩, fun _ => false, fun _ => 0⟩

section Lists

variable {l l' : List SwapInfo} {vp : Nat}

def sites (l : List SwapInfo) : List (Nat × Nat) := l.map fun a => (a.addr, a.vp)

lemma sites_of_core (h : l'.map SwapInfo.core = l.map SwapInfo.core) : sites l' = sites l := by
  have hcongr := congrArg (map fun a : SwapInfo => (a.addr, a.vp)) h
  rw [map_map, map_map] at hcongr
  exact hcongr

lemma areasOn_sites : areasOn l vp = (sites l).countP fun x => x.2 == vp := by
  unfold areasOn sites
  rw [countP_map]
  rfl

lemma exists_sites : (∃ a ∈ l, a.vp = vp) ↔ ∃ x ∈ sites l, x.2 = vp := by
  unfold sites
  simp

lemma Vnodes.Exact.congr {s s' : Vnodes} (h : s.Exact)
    (hsites : sites s'.areas.swapinfo = sites s.areas.swapinfo) (hflag : s'.visswap = s.visswap)
    (hopens : s'.opens = s.opens) : s'.Exact := by
  intro v
  rw [areasOn_sites, exists_sites, hsites, hflag, hopens, ← areasOn_sites, ← exists_sites]
  exact h v

end Lists

section Step

variable {pageShift} {s : Vnodes}

structure Vnodes.Ok (s : Vnodes) : Prop where
  addrs : (s.areas.swapinfo.map SwapInfo.addr).Nodup
  exact : s.Exact

lemma Vnodes.Ok.congr {s' : Vnodes} (h : s.Ok)
    (hsites : sites s'.areas.swapinfo = sites s.areas.swapinfo) (hflag : s'.visswap = s.visswap)
    (hopens : s'.opens = s.opens) : s'.Ok := by
  refine ⟨?_, h.exact.congr hsites hflag hopens⟩
  have haddr (l : List SwapInfo) : l.map SwapInfo.addr = (sites l).map Prod.fst := by
    unfold sites
    rw [map_map]
    rfl
  rw [haddr, hsites, ← haddr]
  exact h.addrs

lemma setFlag_visswap {vp : Nat} {b : Bool} (h : s.visswap vp = b) : (s.setFlag vp b) = s := by
  unfold Vnodes.setFlag
  rw [← h, update_eq_self]

lemma setFlag_setFlag {vp : Nat} {b c : Bool} : (s.setFlag vp b).setFlag vp c = s.setFlag vp c := by
  unfold Vnodes.setFlag
  rw [update_idem]

lemma swapaddOut_eq (vp : Nat) (areas : Areas) :
    swapaddOut vp (s.visswap vp) { (s.setFlag vp true).vopOpen vp with areas } =
      { s with areas } := by
  have hopens : update (update s.opens vp (s.opens vp + 1)) vp
      (update s.opens vp (s.opens vp + 1) vp - 1) = s.opens := by
    rw [update_idem, update_self, Int.add_sub_cancel, update_eq_self]
  unfold swapaddOut
  cases hw : s.visswap vp with
  | true =>
    rw [if_pos rfl, setFlag_visswap hw]
    unfold Vnodes.vopClose Vnodes.vopOpen
    rw [hopens]
  | false =>
    rw [if_neg (by decide)]
    have hflag : update (update s.visswap vp true) vp false = s.visswap := by
      rw [update_idem, ← hw, update_eq_self]
    unfold Vnodes.vopClose Vnodes.vopOpen Vnodes.setFlag
    rw [hopens, hflag]

lemma Vnodes.Ok.append (h : s.Ok) {a : SwapInfo} (haddr : ∀ b ∈ s.areas.swapinfo, b.addr ≠ a.addr)
    {areas : Areas} (hareas : areas.swapinfo = s.areas.swapinfo ++ [a]) :
    ({ (s.setFlag a.vp true).vopOpen a.vp with areas } : Vnodes).Ok := by
  refine ⟨?_, fun v => ?_⟩
  · dsimp only
    rw [hareas, map_append, nodup_append]
    refine ⟨h.addrs, by simp, ?_⟩
    intro x hx y hy
    obtain ⟨b, hb, rfl⟩ := mem_map.mp hx
    rw [map_singleton, mem_singleton] at hy
    rw [hy]
    exact haddr b hb
  · obtain ⟨hflag, hcount⟩ := h.exact v
    unfold Vnodes.vopOpen Vnodes.setFlag areasOn
    dsimp only
    unfold areasOn at hcount
    rw [hareas, countP_append]
    by_cases hv : v = a.vp
    · subst hv
      rw [update_self, update_self, hcount]
      exact ⟨iff_of_true rfl ⟨a, by simp, rfl⟩, by simp⟩
    · have hne : ¬a.vp = v := fun h => hv h.symm
      rw [update_of_ne hv, update_of_ne hv, hcount]
      refine ⟨hflag.trans ?_, by simp [hne]⟩
      simp [hne]

lemma Vnodes.Ok.remove (h : s.Ok) {front back : List SwapInfo} {a : SwapInfo}
    (hl : s.areas.swapinfo = front ++ a :: back) {areas : Areas} (hareas : areas.swapinfo = front ++ back)
    (hlast : ∀ b ∈ front ++ back, b.vp ≠ a.vp) :
    ((({ s with areas } : Vnodes).vopClose a.vp).setFlag a.vp false).Ok := by
  refine ⟨?_, fun v => ?_⟩
  · have hnd := h.addrs
    rw [hl] at hnd
    change (areas.swapinfo.map SwapInfo.addr).Nodup
    rw [hareas]
    exact hnd.sublist (((sublist_cons_self a back).append_left front).map _)
  · obtain ⟨hflag, hcount⟩ := h.exact v
    unfold Vnodes.vopClose Vnodes.setFlag
    dsimp only
    unfold areasOn at hcount ⊢
    rw [hl, countP_append, countP_cons] at hcount
    rw [hareas, countP_append]
    by_cases hv : v = a.vp
    · subst hv
      rw [update_self, update_self, hcount]
      refine ⟨iff_of_false (by decide) ?_, by rw [if_pos (beq_self_eq_true _)]; push_cast; omega⟩
      rintro ⟨b, hb, hvp⟩
      exact hlast b hb hvp
    have hne : ¬a.vp = v := fun h => hv h.symm
    rw [update_of_ne hv, update_of_ne hv, hcount, hflag, hl]
    refine ⟨⟨?_, ?_⟩, by simp [hne]⟩
    · rintro ⟨b, hb, hbv⟩
      rcases mem_append.mp hb with hf | hc
      · exact ⟨b, mem_append_left _ hf, hbv⟩
      · rcases mem_cons.mp hc with rfl | hc
        · exact absurd hbv hne
        · exact ⟨b, mem_append_right _ hc, hbv⟩
    · rintro ⟨b, hb, hbv⟩
      rcases mem_append.mp hb with hf | hc
      · exact ⟨b, mem_append_left _ hf, hbv⟩
      · exact ⟨b, mem_append_right _ (mem_cons_of_mem a hc), hbv⟩

theorem Vnodes.Ok.add (h : s.Ok) {c : AddCall} {f : Failures}
    (haddr : ∀ a ∈ s.areas.swapinfo, a.addr ≠ c.addr)
    (hsize : f.vopOpen = false → f.vopGetattr = false → c.vaSize < 2 ^ 31) :
    (swapaddCall pageShift c f s).Ok := by
  have hout : (swapaddOut c.vp (s.visswap c.vp) ((s.setFlag c.vp true).vopOpen c.vp)).Ok := by
    have heq := swapaddOut_eq (s := s) c.vp s.areas
    exact heq ▸ h
  unfold swapaddCall
  cases ho : f.vopOpen with
  | true =>
    rw [if_pos rfl]
    split
    · next hw =>
      rw [setFlag_visswap hw]
      exact h
    · next hw =>
      rw [setFlag_setFlag, setFlag_visswap (by simpa using hw)]
      exact h
  | false =>
    rw [if_neg (by decide)]
    cases hg : f.vopGetattr with
    | true =>
      exact hout
    | false =>
      have hsmall := hsize ho hg
      rw [if_neg (by decide), if_neg (by omega)]
      split_ifs with hset hpage
      · exact hout
      · exact hout
      · cases hb : swapaddBounds pageShift c.soff.toNat c.eoff.toNat c.vaSize with
        | none => exact hout
        | some x =>
          obtain ⟨soff, eoff⟩ := x
          have htwice : ((s.setFlag c.vp true).vopOpen c.vp).setFlag c.vp true =
              (s.setFlag c.vp true).vopOpen c.vp :=
            setFlag_visswap (update_self ..)
          rw [htwice]
          cases hsearch : swapaddSearch c.vp soff eoff (btop pageShift (eoff - soff))
              s.areas.swapinfo with
          | some l =>
            have hrun : (c.run pageShift s.areas).swapinfo = l := by
              unfold AddCall.run swapadd
              simp only [hb, hsearch]
            have hcore : l.map SwapInfo.core = s.areas.swapinfo.map SwapInfo.core := by
              rcases @swapaddSearch_spec c.vp soff eoff (btop pageShift (eoff - soff))
                s.areas.swapinfo with ⟨hnone, -⟩ | ⟨l', hsome, hcore⟩
              · rw [hnone] at hsearch
                cases hsearch
              · rw [hsearch] at hsome
                cases hsome
                exact hcore
            change (match swapaddSearch c.vp soff eoff (btop pageShift (eoff - soff))
              s.areas.swapinfo with
              | some _ => _
              | none => _ : Vnodes).Ok
            rw [hsearch]
            have heq := swapaddOut_eq (s := s) c.vp (c.run pageShift s.areas)
            refine Eq.mpr (congrArg Vnodes.Ok heq) (h.congr ?_ rfl rfl)
            rw [hrun]
            exact sites_of_core hcore
          | none =>
            change (match swapaddSearch c.vp soff eoff (btop pageShift (eoff - soff))
              s.areas.swapinfo with
              | some _ => _
              | none => _ : Vnodes).Ok
            rw [hsearch]
            have hrun : (c.run pageShift s.areas).swapinfo =
                s.areas.swapinfo ++ [newSwapInfo pageShift c.addr c.vp soff eoff] := by
              unfold AddCall.run swapadd
              simp only [hb, hsearch]
            exact h.append (a := newSwapInfo pageShift c.addr c.vp soff eoff) haddr hrun

lemma sites_setFlags (inDel doingDel : Bool) (p : Nat) (l : List SwapInfo) :
    sites (setFlags inDel doingDel p l) = sites l := by
  unfold sites setFlags
  rw [map_map]
  apply map_congr_left
  intro a _
  rw [comp_apply]
  split <;> rfl

lemma Vnodes.Ok.delDone (h : s.Ok) {p : Nat} (hp : ∃ a ∈ s.areas.swapinfo, a.addr = p ∧ a.inDel = true)
    (hsafe : s.Safe (.delDone p)) : (swapdelEnd p s).Ok := by
  obtain ⟨a, ha, hap, -⟩ := hp
  obtain ⟨front, b, back, hsplit, hl, hbp⟩ := @splitAt_spec s.areas.swapinfo p (by
    rw [← hap]
    exact mem_map_of_mem ha)
  have hnd := h.addrs
  rw [hl, map_append, map_cons, nodup_middle] at hnd
  obtain ⟨hnot, -⟩ := nodup_cons.mp hnd
  rw [← map_append] at hnot
  have hother : ∀ d ∈ front ++ back, d.addr ≠ p := by
    intro d hd heq
    exact hnot (mem_map.mpr ⟨d, hd, heq.trans hbp.symm⟩)
  have hfind : s.areas.swapinfo.find? (fun osip => osip.addr == p) = some b := by
    have hfront : front.find? (fun osip => osip.addr == p) = none := by
      rw [find?_eq_none]
      intro d hd hc
      exact hother d (mem_append_left _ hd) (by simpa using hc)
    rw [hl, find?_append, hfront, Option.none_or, find?_cons_of_pos]
    rw [hbp]
    exact beq_self_eq_true p
  unfold swapdelEnd
  rw [hfind]
  apply h.remove hl
  · unfold swapdelDone
    rw [hsplit]
    rfl
  · intro d hd hvp
    have hmem : d ∈ s.areas.swapinfo := by
      rw [hl]
      rcases mem_append.mp hd with hf | hb
      · exact mem_append_left _ hf
      · exact mem_append_right _ (mem_cons_of_mem b hb)
    have hb : b ∈ s.areas.swapinfo := by
      rw [hl]
      simp
    exact hother d hd (hsafe b hb hbp d hmem hvp)

lemma Vnodes.Ok.step (h : s.Ok) {e : VnodeEvent} (hallow : s.Allows e) (hsafe : s.Safe e) :
    (s.step pageShift e).Ok := by
  cases e with
  | add c f => exact h.add hallow hsafe
  | delStart vp lowblk enough =>
    have hsites : sites (swapdelStart s.areas vp (swapdelSoff pageShift lowblk) enough).swapinfo =
        sites s.areas.swapinfo := by
      unfold swapdelStart
      split
      · rfl
      · split
        · exact sites_setFlags _ _ _ _
        · rfl
    exact h.congr hsites rfl rfl
  | delAbort p => exact h.congr (sites_setFlags _ _ _ _) rfl rfl
  | delDone p => exact h.delDone hallow hsafe

end Step

section Runs

/-- Along every run without the two defects each call leaves exactly the vnodes with areas marked, and
open as often as they have areas. -/
theorem visswap_exact (pageShift : Nat) (events : List VnodeEvent)
    (hallow : Along (Vnodes.step pageShift) Vnodes.Allows noVnodes events)
    (hsafe : Along (Vnodes.step pageShift) Vnodes.Safe noVnodes events) :
    Along (Vnodes.step pageShift) (fun s e => (s.step pageShift e).Exact) noVnodes events := by
  have hstart : noVnodes.Ok := by
    refine ⟨by simp [noVnodes], fun vp => ?_⟩
    simp [noVnodes, areasOn]
  apply (hallow.and hsafe).imp hstart
  rintro s e hok ⟨ha, hs⟩
  exact ⟨(hok.step ha hs).exact, hok.step ha hs⟩

/-- Sixteen blocks of a file of 128, from block `lowblk` on. -/
def addSixteen (lowblk : BitVec 32) (addr : Nat) : VnodeEvent :=
  .add ⟨7, lowblk, 16, addr, false, 1, 65536⟩ ⟨false, false, false, false⟩

theorem visswap_exact_sample :
    Along (Vnodes.step 12) (fun s e => (s.step 12 e).Exact) noVnodes
      [addSixteen 16 100, addSixteen 16 101, .delStart 7 16 true, .delDone 100] := by
  apply visswap_exact 12
  · exact ⟨by decide, by decide +kernel, trivial, by decide +kernel, trivial⟩
  · refine ⟨fun _ _ => by decide, fun _ _ => by decide, trivial, ?_, trivial⟩
    unfold Vnodes.Safe
    decide +kernel

/-- A file that is too large stays open and marked, and a deletion takes the mark from a vnode that has
another area. -/
theorem visswap_not_exact :
    (¬∀ events, Along (Vnodes.step 12) Vnodes.Allows noVnodes events →
      (∀ e ∈ events, ∃ c f, e = .add c f) →
      Along (Vnodes.step 12) (fun s e => (s.step 12 e).Exact) noVnodes events) ∧
    ¬∀ events, Along (Vnodes.step 12) Vnodes.Allows noVnodes events →
      (∀ c f, VnodeEvent.add c f ∈ events → c.vaSize < 2 ^ 31) →
      Along (Vnodes.step 12) (fun s e => (s.step 12 e).Exact) noVnodes events := by
  constructor
  · intro h
    have hrun := h [.add ⟨7, 16, 16, 100, false, 1, 2147483648⟩ ⟨false, false, false, false⟩]
      ⟨by decide, trivial⟩ (by simp)
    have hflag := (hrun.1 7).1.mp (by decide +kernel)
    exact absurd hflag (by decide +kernel)
  · intro h
    have hrun := h [addSixteen 16 100, addSixteen 48 101, .delStart 7 16 true, .delDone 100]
      ⟨by decide, by decide +kernel, trivial, by decide +kernel, trivial⟩ (by
      intro c f hmem
      simp only [addSixteen, mem_cons, VnodeEvent.add.injEq, reduceCtorEq, not_mem_nil,
        or_false] at hmem
      rcases hmem with ⟨rfl, -⟩ | ⟨rfl, -⟩
      · decide
      · decide)
    have hlast := hrun.2.2.2.1
    have hflag := (hlast 7).1.mpr ⟨newSwapInfo 12 101 7 24576 32768, by decide +kernel, rfl⟩
    exact absurd hflag (by decide +kernel)

end Runs

end Solaris.SwapSlots
