import Solaris.Vm.RangesExact

/-!
# Faults on ranges

`as_fault` with the loop that unlocks again, `as_faulta`, and all five functions together.
-/

namespace Solaris.Vm

open Lib List Nat

section Unlock

variable {σ : Type} {op : Piece → σ → Option Int × σ} {as : As} {m pre post : List Entry} {e : Entry}
  {ps : List Piece} {hi b stop fuel : Nat} {s s' : σ} {l : Left}

/-- `F_SOFTUNLOCK` on a piece. -/
def unlockCall (p : Piece) : FaultCall := ⟨p, .softunlock, .other⟩

lemma unlockLoop_stop (hpos : 0 < fuel) (p : SegPtr) (calls : List FaultCall) :
    unlockLoop as b fuel p b calls = some calls := by
  obtain ⟨fuel, rfl⟩ := exists_eq_succ_of_ne_zero hpos.ne'
  unfold unlockLoop
  rw [if_neg (lt_irrefl _)]

lemma unlockLoop_walked (h : Holds as m) (hw : Walked m op hi b s ps l stop s') (hm : m = pre ++ e :: post)
    (hle : e.base ≤ b) (hend : b ≤ e.stop) (hpos : 0 < fuel)
    (hfuel : b < stop → (post.length + if b < e.stop then 1 else 0) < fuel) (calls : List FaultCall) :
    unlockLoop as stop fuel e.ptr b calls = some (calls ++ ps.map unlockCall) := by
  induction hw generalizing pre e post fuel calls with
  | done s => rw [unlockLoop_stop hpos, map_nil, append_nil]
  | hole b s => rw [unlockLoop_stop hpos, map_nil, append_nil]
  | failed b s s' x code => rw [unlockLoop_stop hpos, map_nil, append_nil]
  | piece b stop s s' s'' ps l x hx hxle hxlt hb hop hrest ih =>
    obtain ⟨fuel, rfl⟩ := Nat.exists_eq_succ_of_ne_zero hpos.ne'
    have hnext := hrest.tiles.1.le
    have hstop := hrest.tiles.2
    have hbs : b < stop := by omega
    have hmem : e ∈ m := by
      rw [hm]
      simp
    have hcross : (if (as.seg e.ptr).stop ≤ b then segp as (as.seg e.ptr).next else some (some e.ptr)) =
          some (some x.ptr) ∧
        ∃ pre' post', m = pre' ++ x :: post' ∧
          post'.length + 1 = post.length + if b < e.stop then 1 else 0 := by
      have heq : (as.seg e.ptr).stop = e.stop := h.stop_eq hmem
      rw [heq]
      by_cases hin : b < e.stop
      · have hxe : x = e := Covered.mem_unique h.apart hx hmem hxle hxlt hle hin
        subst hxe
        rw [if_neg (by omega), if_pos hin]
        exact ⟨rfl, pre, post, hm, rfl⟩
      have hbe : b = e.stop := by omega
      subst hbe
      have hap := h.apart
      rw [hm] at hap hx h
      obtain ⟨rest, rfl, -⟩ := hap.covered_stop hx hxle hxlt
      rw [if_pos le_rfl, h.segp_next, if_neg (lt_irrefl _)]
      exact ⟨rfl, pre ++ [e], rest, by rw [hm, append_assoc]; rfl, rfl⟩
    obtain ⟨hseg, pre', post', hm', hturns⟩ := hcross
    have hxstop : (as.seg x.ptr).stop = x.stop := h.stop_eq hx
    have hsize : (if x.stop < stop then x.stop - b else stop - b) = min x.stop hi - b := by
      split
      · omega
      · omega
    unfold unlockLoop
    rw [if_pos hbs, hseg]
    dsimp only
    rw [hxstop, hsize, Nat.add_sub_cancel' (by omega : b ≤ min x.stop hi)]
    rw [ih hm' (by omega) (min_le_left _ _) (by omega) (fun hmore => by rw [if_neg (by omega)]; omega)]
    rw [map_cons, append_assoc]
    rfl

end Unlock

section Fault

variable {as : As} {m pre post : List Entry} {e : Entry} {pageshift addr size : Nat} {type : FaultType} {rw : SegRw}
  {segop : List FaultCall → Int}

/-- The calls of `SEGOP_FAULT` on the pieces: first those for the fault, and when one of them fails after
`F_SOFTLOCK`, an unlock of every piece that has been locked. -/
def FaultExact (m : List Entry) (segop : List FaultCall → Int) (lo hi : Nat) (type : FaultType) (rw : SegRw)
    (ret : Int) (calls : List FaultCall) : Prop :=
  ∃ ps qs, RangeExact m (fun ps => segop (ps.map fun p => ⟨p, type, rw⟩) = 0) lo hi qs ret ∧
    Before (fun ps => segop (ps.map fun p => ⟨p, type, rw⟩) = 0) ps qs ∧
    calls = (qs.map fun p => ⟨p, type, rw⟩) ++ if ret ≠ 0 ∧ type = .softlock then ps.map unlockCall else []

section

variable (h : Holds as m) {segkmap : Option SegPtr} (hmap : ∀ p, segkmap = some p → ∃ e ∈ m, e.ptr = p)
  (hwrap : addr + size + (pagesize pageshift - 1) < 2 ^ 32)

include h hmap hwrap

lemma faultSeg_spec :
    ∃ as' start, faultSeg as segkmap (pageDown pageshift addr) size = some (start, as') ∧ Holds as' m ∧
      ((∃ pre e post, m = pre ++ e :: post ∧ e.base ≤ pageDown pageshift addr ∧
        pageDown pageshift addr < e.stop ∧ start = some e.ptr) ∨
        (¬Mapped m (pageDown pageshift addr) ∧ start = none)) := by
  have hsearch : ∃ as' start, asSegat as (pageDown pageshift addr) = some (start, as') ∧ Holds as' m ∧
      ((∃ pre e post, m = pre ++ e :: post ∧ e.base ≤ pageDown pageshift addr ∧
        pageDown pageshift addr < e.stop ∧ start = some e.ptr) ∨
        (¬Mapped m (pageDown pageshift addr) ∧ start = none)) := by
    obtain ⟨as', h', ⟨pre, e, post, hm, hle, hlt, hseg⟩ | ⟨hhole, hseg⟩⟩ :=
      @asSegat_spec _ _ (pageDown pageshift addr) h
    · exact ⟨as', _, hseg, h', .inl ⟨pre, e, post, hm, hle, hlt, rfl⟩⟩
    · exact ⟨as', _, hseg, h', .inr ⟨hhole, rfl⟩⟩
  cases segkmap with
  | none => exact hsearch
  | some seg =>
    unfold faultSeg
    dsimp only
    split_ifs with hin
    · obtain ⟨e, he, rfl⟩ := hmap seg rfl
      obtain ⟨pre, post, hm⟩ := append_of_mem he
      have hbase : (as.seg e.ptr).base = e.base := (h.entries e he).1
      have hstop : (as.seg e.ptr).stop = e.stop := h.stop_eq he
      have hdown : pageDown pageshift addr ≤ addr := pageDown_le
      rw [hbase, hstop, mod_eq_of_lt (by omega)] at hin
      exact ⟨as, _, rfl, h, .inl ⟨pre, e, post, hm, hin.1, by omega, rfl⟩⟩
    · exact hsearch

theorem asFault_exact :
    ∃ ret calls as', asFault pageshift segop as segkmap addr size type rw = some (ret, calls, as') ∧
      FaultExact m segop (pageDown pageshift addr) (rangeEnd pageshift addr size) type rw ret calls := by
  obtain ⟨as', start, hstart, h', hcases⟩ := faultSeg_spec h hmap hwrap
  obtain ⟨hlo, -, -⟩ := rangeEnd_spec hwrap
  unfold asFault
  dsimp only
  rw [hstart]
  rcases hcases with ⟨pre, e, post, hm, hle, hlt, rfl⟩ | ⟨hhole, rfl⟩
  · obtain ⟨ps, l, b, s', qs, hrun, hwalk, hout, hview, hbefore⟩ := rangeLoop_outcome h'
      (follows_logged segop fun p => ⟨p, type, rw⟩) fcNomap_ne hwrap hm hle hlt
    have hlen := congrArg List.length hm
    rw [length_append, length_cons] at hlen
    have hunlock := unlockLoop_walked h' hwalk hm hle hlt.le (succ_pos as'.nsegs)
      (fun _ => by rw [if_pos hlt, h'.nsegs]; omega) s'
    have hs' : s' = qs.map fun p => ⟨p, type, rw⟩ := hview
    dsimp only
    rw [show ([] : List FaultCall) = ([] : List Piece).map fun p => ⟨p, type, rw⟩ from rfl, hrun]
    rw [Option.bind_some]
    rw [hunlock]
    split_ifs with hlocked
    · refine ⟨_, _, as', rfl, ps, qs, hout.exact, hbefore, ?_⟩
      rw [if_pos hlocked, hs']
    · refine ⟨_, _, as', rfl, ps, qs, hout.exact, hbefore, ?_⟩
      rw [if_neg hlocked, hs', append_nil]
  · have hnone : Succeeds (fun ps => segop (ps.map fun p => ⟨p, type, rw⟩) = 0) [] :=
      fun k hk => absurd hk (not_lt_zero k)
    refine ⟨_, _, as', rfl, [], [], (outcome_unmapped fcNomap_ne hlo hhole).exact, ⟨hnone, .inl rfl⟩, ?_⟩
    split_ifs <;> rfl

end

end Fault

section Faulta

variable {as : As} {m pre post : List Entry} {e : Entry} {pageshift addr lo n k fuel : Nat}
  {segop : List Piece → Int}

/-- The first `n` pages from `lo` on. -/
def pages (pageshift : Nat) (seg : SegPtr) (lo n : Nat) : List Piece :=
  (List.range n).map fun i => ⟨seg, lo + i * pagesize pageshift, pagesize pageshift⟩

@[simp] lemma pages_length {seg : SegPtr} : (pages pageshift seg lo n).length = n := by
  unfold pages
  rw [length_map, length_range]

lemma pages_succ {seg : SegPtr} : pages pageshift seg lo (n + 1) =
    pages pageshift seg lo n ++ [⟨seg, lo + n * pagesize pageshift, pagesize pageshift⟩] := by
  unfold pages
  rw [range_succ, map_append, map_singleton]

lemma pages_take {seg : SegPtr} (hk : k ≤ n) : (pages pageshift seg lo n).take k = pages pageshift seg lo k := by
  unfold pages
  rw [← map_take, take_range, min_eq_left hk]

lemma pages_tiles (he : e ∈ m) (hle : e.base ≤ lo) (hin : lo + n * pagesize pageshift ≤ e.stop) :
    Tiles m lo (pages pageshift e.ptr lo n) (lo + n * pagesize pageshift) := by
  induction n with
  | zero =>
    rw [zero_mul]
    exact Tiles.nil lo
  | succ n ih =>
    rw [add_one_mul] at hin
    rw [pages_succ, add_one_mul, ← add_assoc]
    exact (ih (by omega)).append (Tiles.single he (by omega) pagesize_pos (by omega))

/-- The ways the loop of `as_faulta` ends, with `n` pages in the range and `inSeg` pages of the first
segment. -/
inductive FaultaEnds (pageshift : Nat) (segop : List Piece → Int) (seg : SegPtr) (lo n inSeg : Nat) :
    Int × List Piece → Prop
  | failed (k : Nat) (hk : k < n) (hin : k < inSeg)
      (hgood : Succeeds (fun ps => segop ps = 0) (pages pageshift seg lo k))
      (hbad : segop (pages pageshift seg lo (k + 1)) ≠ 0) :
      FaultaEnds pageshift segop seg lo n inSeg
        (segop (pages pageshift seg lo (k + 1)), pages pageshift seg lo (k + 1))
  | whole (hle : n ≤ inSeg) (hgood : Succeeds (fun ps => segop ps = 0) (pages pageshift seg lo n)) :
      FaultaEnds pageshift segop seg lo n inSeg (0, pages pageshift seg lo n)
  | segment (hlt : inSeg < n) (hgood : Succeeds (fun ps => segop ps = 0) (pages pageshift seg lo inSeg)) :
      FaultaEnds pageshift segop seg lo n inSeg (fcNomap, pages pageshift seg lo inSeg)

lemma faultaLoop_ends (h : Holds as m) (hm : m = pre ++ e :: post) (haddr : addr < e.stop) {inSeg : Nat}
    (hstop : e.stop = lo + inSeg * pagesize pageshift) (hhi : lo + n * pagesize pageshift < 2 ^ 32)
    (hkn : k ≤ n) (hks : k ≤ inSeg) (hfuel : n - k < fuel)
    (hgood : Succeeds (fun ps => segop ps = 0) (pages pageshift e.ptr lo k)) :
    ∃ r, faultaLoop pageshift segop as addr fuel e.ptr (lo + k * pagesize pageshift)
        ((n - k) * pagesize pageshift) (pages pageshift e.ptr lo k) = some r ∧
      FaultaEnds pageshift segop e.ptr lo n inSeg r := by
  induction fuel generalizing k with
  | zero => exact absurd hfuel (Nat.not_lt_zero _)
  | succ fuel ih =>
    have hpos : 0 < pagesize pageshift := pagesize_pos
    unfold faultaLoop
    by_cases hzero : (n - k) * pagesize pageshift = 0
    · have hnk : n - k = 0 := (Nat.mul_eq_zero.mp hzero).resolve_right hpos.ne'
      have heq : k = n := by omega
      subst heq
      rw [if_pos hzero]
      exact ⟨_, rfl, FaultaEnds.whole hks hgood⟩
    have hlt : k < n := by
      by_contra hnot
      exact hzero (by rw [Nat.sub_eq_zero_of_le (by omega), Nat.zero_mul])
    rw [if_neg hzero]
    rcases Nat.lt_or_ge k inSeg with hin | hout
    · have hmem : e ∈ m := by
        rw [hm]
        simp
      have hraddr : lo + k * pagesize pageshift < e.stop := by
        rw [hstop]
        exact Nat.add_lt_add_left (Nat.mul_lt_mul_of_pos_right hin hpos) lo
      rw [pieceSeg_inside h hmem hraddr]
      dsimp only
      unfold logged errorOf
      rw [← pages_succ]
      by_cases hbad : segop (pages pageshift e.ptr lo (k + 1)) = 0
      · have hnext : (lo + k * pagesize pageshift + pagesize pageshift) % 2 ^ 32 =
            lo + (k + 1) * pagesize pageshift := by
          have hle : (k + 1) * pagesize pageshift ≤ n * pagesize pageshift := Nat.mul_le_mul_right _ hlt
          rw [Nat.add_assoc, ← Nat.add_one_mul]
          exact Nat.mod_eq_of_lt (by omega)
        have hrest : ((n - k) * pagesize pageshift + 2 ^ 32 - pagesize pageshift) % 2 ^ 32 =
            (n - (k + 1)) * pagesize pageshift := by
          have hsplit : (n - k) * pagesize pageshift =
              (n - (k + 1)) * pagesize pageshift + pagesize pageshift := by
            rw [← Nat.add_one_mul]
            congr 1
            omega
          have hle : (n - (k + 1)) * pagesize pageshift ≤ n * pagesize pageshift :=
            Nat.mul_le_mul_right _ (Nat.sub_le n _)
          omega
        rw [if_pos hbad]
        rw [hnext, hrest]
        have hgood' : Succeeds (fun ps => segop ps = 0) (pages pageshift e.ptr lo (k + 1)) := by
          rw [pages_succ] at hbad ⊢
          exact hgood.concat hbad
        exact ih (by omega) (by omega) (by omega) hgood'
      · rw [if_neg hbad]
        exact ⟨_, rfl, FaultaEnds.failed k hlt hin hgood hbad⟩
    · have heq : k = inSeg := by omega
      subst heq
      have hap := h.apart
      have hh := h
      rw [hm] at hap hh
      have hnone : post.head?.filter (fun x => decide (addr = x.base)) = none := by
        cases post with
        | nil => rfl
        | cons x post =>
          have hbase := (hap.sublist (sublist_append_right _ _)).head_before mem_cons_self
          have hne : ¬addr = x.base := by omega
          rw [head?_cons, Option.filter_some, decide_eq_false hne]
          rfl
      rw [← hstop, pieceSeg_end hh, hnone]
      exact ⟨_, rfl, FaultaEnds.segment hlt hgood⟩

/-- The range goes on into a segment that begins where the first one ends, and all operations on pages of
the first succeed. -/
def GoesOn (m : List Entry) (pageshift : Nat) (segop : List Piece → Int) (lo hi : Nat) : Prop :=
  ∃ e ∈ m, e.base ≤ lo ∧ lo < e.stop ∧ e.stop < hi ∧ Mapped m e.stop ∧
    ∀ k, lo + k * pagesize pageshift < e.stop → segop (pages pageshift e.ptr lo (k + 1)) = 0

lemma FaultaEnds.exact_iff {r : Int × List Piece} {hi inSeg : Nat}
    (hr : FaultaEnds pageshift segop e.ptr lo n inSeg r) (h : Holds as m) (he : e ∈ m) (hle : e.base ≤ lo)
    (hlt : lo < e.stop) (hstop : e.stop = lo + inSeg * pagesize pageshift)
    (hhi : hi = lo + n * pagesize pageshift) :
    RangeExact m (fun ps => segop ps = 0) lo hi r.2 r.1 ↔ ¬GoesOn m pageshift segop lo hi := by
  have hpos : 0 < pagesize pageshift := pagesize_pos
  have hmapped : Mapped m lo := ⟨e, he, hle, hlt⟩
  have hpage (k : Nat) : lo + k * pagesize pageshift < e.stop ↔ k < inSeg := by
    rw [hstop, Nat.add_lt_add_iff_left, Nat.mul_lt_mul_right hpos]
  have hfirst {x : Entry} (hx : x ∈ m) (hxle : x.base ≤ lo) (hxlt : lo < x.stop) : x = e :=
    Covered.mem_unique h.apart hx he hxle hxlt hle hlt
  cases hr with
  | failed k hk hin hgood hbad =>
    have hmul : (k + 1) * pagesize pageshift ≤ n * pagesize pageshift := Nat.mul_le_mul_right _ hk
    have hmul' : (k + 1) * pagesize pageshift ≤ inSeg * pagesize pageshift := Nat.mul_le_mul_right _ hin
    have htiles := @pages_tiles m e pageshift lo (k + 1) he hle (by omega)
    have hexact : Outcome m (fun ps => segop ps = 0) lo hi (pages pageshift e.ptr lo (k + 1))
        (segop (pages pageshift e.ptr lo (k + 1))) := by
      rw [pages_succ] at htiles hbad ⊢
      exact Outcome.failed _ _ _ _ hbad htiles (by omega) hgood hbad
    refine ⟨fun _ => ?_, fun _ => hexact.exact⟩
    rintro ⟨x, hx, hxle, hxlt, -, -, hall⟩
    obtain rfl := hfirst hx hxle hxlt
    exact hbad (hall k ((hpage k).mpr hin))
  | whole hsmall hgood =>
    have hmul : n * pagesize pageshift ≤ inSeg * pagesize pageshift := Nat.mul_le_mul_right _ hsmall
    have htiles := @pages_tiles m e pageshift lo n he hle (by omega)
    rw [← hhi] at htiles
    refine ⟨fun _ => ?_, fun _ => (Outcome.whole _ hmapped htiles hgood).exact⟩
    rintro ⟨x, hx, hxle, hxlt, hmore, -⟩
    obtain rfl := hfirst hx hxle hxlt
    omega
  | segment hless hgood =>
    have hmul : inSeg * pagesize pageshift < n * pagesize pageshift := Nat.mul_lt_mul_of_pos_right hless hpos
    have htiles := @pages_tiles m e pageshift lo inSeg he hle hstop.ge
    rw [← hstop] at htiles
    by_cases hnext : Mapped m e.stop
    · have hgoes : GoesOn m pageshift segop lo hi := by
        refine ⟨e, he, hle, hlt, by omega, hnext, fun k hk => ?_⟩
        have hkin := (hpage k).mp hk
        have hk' := hgood k (by rw [pages_length]; exact hkin)
        rw [pages_take (by omega)] at hk'
        exact hk'
      refine ⟨fun hexact => ?_, fun hnot => absurd hgoes hnot⟩
      have hend {b : Nat} (hb : Tiles m lo (pages pageshift e.ptr lo inSeg) b) : b = e.stop :=
        hb.end_eq.trans htiles.end_eq.symm
      by_cases hall : (∀ x, lo ≤ x → x < hi → Mapped m x)
      · have heq := hend (hexact.whole hall hgood)
        omega
      · rcases hexact.stops fun hc => hall hc.1 with ⟨hne, hbad⟩ | ⟨b, hb, hbtiles, hhole⟩
        · exact absurd (hgood.last hne) hbad
        · rw [hend hbtiles] at hhole
          exact absurd hnext hhole
    · refine ⟨fun _ => ?_, fun _ => (Outcome.hole _ _ _ fcNomap_ne htiles hgood hnext (.inl (by omega))).exact⟩
      rintro ⟨x, hx, hxle, hxlt, -, hmap, -⟩
      obtain rfl := hfirst hx hxle hxlt
      exact hnext hmap

theorem asFaulta_exact_iff (h : Holds as m)
    (haligned : ∀ e ∈ m, pagesize pageshift ∣ e.base ∧ pagesize pageshift ∣ e.size) {size : Nat}
    (hwrap : addr + size + (pagesize pageshift - 1) < 2 ^ 32) :
    (∃ ret calls as', asFaulta pageshift segop as addr size = some (ret, calls, as') ∧
        RangeExact m (fun ps => segop ps = 0) (pageDown pageshift addr) (rangeEnd pageshift addr size) calls ret) ↔
      ¬GoesOn m pageshift segop (pageDown pageshift addr) (rangeEnd pageshift addr size) := by
  obtain ⟨hlo, hhi, hsize⟩ := rangeEnd_spec hwrap
  have hpos : 0 < pagesize pageshift := pagesize_pos
  have hdown (x : Nat) : pagesize pageshift ∣ pageDown pageshift x := Nat.dvd_mul_left _ _
  obtain ⟨as', h', ⟨pre, e, post, hm, hle, hlt, hseg⟩ | ⟨hhole, hseg⟩⟩ :=
    @asSegat_spec _ _ (pageDown pageshift addr) h
  · have hmem : e ∈ m := by
      rw [hm]
      simp
    obtain ⟨n, hn⟩ := Nat.dvd_sub (hdown (addr + size + (pagesize pageshift - 1))) (hdown addr)
    obtain ⟨inSeg, hin⟩ := Nat.dvd_sub (Nat.dvd_add (haligned e hmem).1 (haligned e hmem).2) (hdown addr)
    rw [Nat.mul_comm] at hn hin
    have hend : rangeEnd pageshift addr size = pageDown pageshift addr + n * pagesize pageshift := by
      change rangeEnd pageshift addr size - pageDown pageshift addr = n * pagesize pageshift at hn
      omega
    have hstop : e.stop = pageDown pageshift addr + inSeg * pagesize pageshift := by
      change e.stop - pageDown pageshift addr = inSeg * pagesize pageshift at hin
      omega
    have haddr : addr < e.stop := by
      have hnext : addr < pageDown pageshift addr + pagesize pageshift := lt_pageDown
      have hone : 0 < inSeg := by
        by_contra hnot
        rw [Nat.eq_zero_of_not_pos hnot, Nat.zero_mul] at hstop
        omega
      have hpage : 1 * pagesize pageshift ≤ inSeg * pagesize pageshift := Nat.mul_le_mul_right _ hone
      omega
    have hnsize : rangeSize pageshift addr size = n * pagesize pageshift := by omega
    have hturns : rangeSize pageshift addr size / pagesize pageshift = n := by
      rw [hnsize]
      exact Nat.mul_div_cancel n hpos
    obtain ⟨r, hrun, hr⟩ := @faultaLoop_ends _ _ _ _ _ pageshift _ _ _ _ (n + 1) segop h' hm haddr _ hstop
      (by omega) (Nat.zero_le n) (Nat.zero_le inSeg) (by omega) (fun k hk => absurd hk (Nat.not_lt_zero k))
    simp only [Nat.zero_mul, Nat.add_zero, Nat.sub_zero] at hrun
    rw [← hnsize] at hrun
    have hcall : asFaulta pageshift segop as addr size = some (r.1, r.2, as') := by
      unfold asFaulta
      dsimp only
      rw [hseg, hturns]
      dsimp only
      rw [show ([] : List Piece) = pages pageshift e.ptr (pageDown pageshift addr) 0 from rfl, hrun]
      rfl
    have hiff := hr.exact_iff h' hmem hle hlt hstop hend
    constructor
    · rintro ⟨ret, calls, as'', hcall', hexact⟩
      rw [hcall] at hcall'
      cases hcall'
      exact hiff.mp hexact
    · exact fun hnot => ⟨_, _, _, hcall, hiff.mpr hnot⟩
  · have hcall : asFaulta pageshift segop as addr size = some (fcNomap, [], as') := by
      unfold asFaulta
      dsimp only
      rw [hseg]
    have hexact : RangeExact m (fun ps => segop ps = 0) (pageDown pageshift addr) (rangeEnd pageshift addr size)
      [] fcNomap := (outcome_unmapped fcNomap_ne hlo hhole).exact
    constructor
    · rintro - ⟨e, he, hle, hlt, -⟩
      exact hhole ⟨e, he, hle, hlt⟩
    · exact fun _ => ⟨_, _, _, hcall, hexact⟩

end Faulta

section Calls

variable {as : As} {m : List Entry} {pageshift addr size : Nat}

/-- What `as_incore` has done when all pages of the pieces have been looked at. -/
def incoreState (pageshift : Nat) (ps : List Piece) : Incore :=
  ps.foldl (fun s p => ⟨s.calls ++ [⟨p, s.vec⟩], (s.sizep + p.size) % 2 ^ 32,
    s.vec + (p.size + (pagesize pageshift - 1)) / pagesize pageshift⟩) ⟨[], 0, 0⟩

def IncoreGood (pageshift : Nat) (segop : List IncoreCall → Nat) (ps : List Piece) : Prop :=
  ∀ p, ps.getLast? = some p → segop (incoreState pageshift ps).calls = p.size

lemma incoreState_concat {ps : List Piece} {p : Piece} : incoreState pageshift (ps ++ [p]) =
    ⟨(incoreState pageshift ps).calls ++ [⟨p, (incoreState pageshift ps).vec⟩],
      ((incoreState pageshift ps).sizep + p.size) % 2 ^ 32,
      (incoreState pageshift ps).vec + (p.size + (pagesize pageshift - 1)) / pagesize pageshift⟩ := by
  unfold incoreState
  rw [foldl_append]
  rfl

lemma follows_incore (segop : List IncoreCall → Nat) :
    Follows (incorePiece pageshift segop) (IncoreGood pageshift segop) (incoreState pageshift) Incore.calls := by
  have hgood (ps : List Piece) (p : Piece) : IncoreGood pageshift segop (ps ++ [p]) ↔
      segop ((incoreState pageshift ps).calls ++ [⟨p, (incoreState pageshift ps).vec⟩]) = p.size := by
    unfold IncoreGood
    rw [getLast?_concat, incoreState_concat]
    exact ⟨fun h => h p rfl, fun h q hq => by cases hq; exact h⟩
  constructor
  · intro ps p hps
    have hsize := (hgood ps p).mp hps
    rw [incoreState_concat]
    unfold incorePiece
    dsimp only
    rw [hsize, if_neg (not_not.mpr rfl)]
  · intro ps p hps
    have hsize := mt (hgood ps p).mpr hps
    refine ⟨-1, ⟨(incoreState pageshift ps).calls ++ [⟨p, (incoreState pageshift ps).vec⟩],
      ((incoreState pageshift ps).sizep + segop ((incoreState pageshift ps).calls ++
        [⟨p, (incoreState pageshift ps).vec⟩])) % 2 ^ 32, (incoreState pageshift ps).vec⟩, (by decide), ?_, ?_⟩
    · unfold incorePiece
      rw [if_pos hsize]
    · rw [incoreState_concat]

lemma rangeCall_logged {as : As} {m : List Entry} (h : Holds as m) (segop : List Piece → Int)
    (hwrap : addr + size + (pagesize pageshift - 1) < 2 ^ 32) :
    ∃ ret ps as', rangeCall pageshift (logged segop) enomem [] as addr size = some (ret, ps, as') ∧
      Outcome m (fun ps => segop ps = 0) (pageDown pageshift addr) (rangeEnd pageshift addr size) ps ret := by
  have hf := follows_logged segop fun p => p
  simp only [map_id_fun', id_eq] at hf
  obtain ⟨ret, ps, s', as', hcall, hout, hview⟩ := rangeCall_outcome h hf (show enomem ≠ 0 by decide) hwrap
  have hs' : s' = ps := hview
  rw [hs'] at hcall
  exact ⟨ret, ps, as', hcall, hout⟩

/-- The attempts of `as_setprot`, each on the address space of its time: all but the last are told to
try again, and the last one is not unless there are as many as have been waited for. -/
structure SetprotExact (m : Nat → List Entry) (segop : Nat → List Piece → Int) (lo hi waited : Nat)
    (turn : Nat) (l : List (Int × List Piece)) : Prop where
  exact : ∀ i ret ps, l[i]? = some (ret, ps) → RangeExact (m (turn + i)) (fun ps => segop (turn + i) ps = 0) lo hi ps ret
  again : ∀ i x, l[i]? = some x → i + 1 < l.length → x.1 = eagain
  answered : l.length < waited → ∃ x, l.getLast? = some x ∧ x.1 ≠ eagain

lemma asSetprot_exact {as : Nat → As} {m : Nat → List Entry} (h : ∀ n, Holds (as n) (m n))
    (segop : Nat → List Piece → Int) (hwrap : addr + size + (pagesize pageshift - 1) < 2 ^ 32)
    (waited turn : Nat) :
    ∃ l, asSetprot pageshift segop as addr size waited turn = some l ∧
      SetprotExact m segop (pageDown pageshift addr) (rangeEnd pageshift addr size) waited turn l := by
  induction waited generalizing turn with
  | zero =>
    refine ⟨[], rfl, fun i ret ps hi => ?_, fun i x hi => ?_, fun hlt => absurd hlt (not_lt_zero _)⟩
    · cases hi
    · cases hi
  | succ waited ih =>
    obtain ⟨ret, s', as', hcall, hout⟩ := rangeCall_logged (h turn) (segop turn) hwrap
    unfold asSetprot
    rw [hcall, Option.bind_some]
    by_cases hagain : ret = eagain
    · obtain ⟨rest, hrest, hexact⟩ := ih (turn + 1)
      rw [if_pos hagain, hrest]
      refine ⟨_, rfl, fun i ret' ps hi => ?_, fun i x hi hlt => ?_, fun hlt => ?_⟩
      · cases i with
        | zero =>
          cases hi
          exact hout.exact
        | succ i =>
          have hi' := hexact.exact i ret' ps hi
          rwa [add_right_comm] at hi'
      · cases i with
        | zero =>
          cases hi
          exact hagain
        | succ i => exact hexact.again i x hi (lt_of_succ_lt_succ hlt)
      · obtain ⟨x, hx, hne⟩ := hexact.answered (lt_of_succ_lt_succ hlt)
        refine ⟨x, ?_, hne⟩
        rw [getLast?_cons, hx]
        rfl
    · rw [if_neg hagain]
      refine ⟨_, rfl, ⟨fun i ret' ps hi => ?_, fun i x hi hlt => ?_, fun _ => ⟨_, rfl, hagain⟩⟩⟩
      · cases i with
        | zero =>
          cases hi
          exact hout.exact
        | succ i => cases hi
      · exact absurd hlt (by rw [length_singleton]; omega)

/-- The operations of the segment layer; those of `as_setprot` also by the attempt. -/
structure SegOps where
  fault : List FaultCall → Int
  faulta : List Piece → Int
  setprot : Nat → List Piece → Int
  checkprot : List Piece → Int
  incore : List IncoreCall → Nat

/-- The five functions visit the range from `addr` on exactly. -/
structure RangesExact (m : Nat → List Entry) (pageshift : Nat) (ops : SegOps) (as : Nat → As)
    (segkmap : Option SegPtr) (addr size : Nat) (type : FaultType) (rw : SegRw) : Prop where
  fault : ∃ ret calls as', asFault pageshift ops.fault (as 0) segkmap addr size type rw = some (ret, calls, as') ∧
    FaultExact (m 0) ops.fault (pageDown pageshift addr) (rangeEnd pageshift addr size) type rw ret calls
  faulta : ∃ ret calls as', asFaulta pageshift ops.faulta (as 0) addr size = some (ret, calls, as') ∧
    RangeExact (m 0) (fun ps => ops.faulta ps = 0) (pageDown pageshift addr) (rangeEnd pageshift addr size) calls ret
  setprot : ∀ waited, ∃ l, asSetprot pageshift ops.setprot as addr size waited 0 = some l ∧
    SetprotExact m ops.setprot (pageDown pageshift addr) (rangeEnd pageshift addr size) waited 0 l
  checkprot : ∃ ret calls as', asCheckprot pageshift ops.checkprot (as 0) addr size = some (ret, calls, as') ∧
    RangeExact (m 0) (fun ps => ops.checkprot ps = 0) (pageDown pageshift addr) (rangeEnd pageshift addr size)
      calls ret
  incore : ∃ ret ps s as', asIncore pageshift ops.incore (as 0) addr size = some (ret, s, as') ∧
    s.calls = (incoreState pageshift ps).calls ∧ RangeExact (m 0) (IncoreGood pageshift ops.incore)
      (pageDown pageshift addr) (rangeEnd pageshift addr size) ps ret

/-- The five functions visit every range exactly that `as_faulta` does not follow into a second segment. -/
theorem range_operations_exact_iff {as : Nat → As} {m : Nat → List Entry} (h : ∀ n, Holds (as n) (m n))
    (haligned : ∀ e ∈ m 0, pagesize pageshift ∣ e.base ∧ pagesize pageshift ∣ e.size) (ops : SegOps)
    {segkmap : Option SegPtr} (hmap : ∀ p, segkmap = some p → ∃ e ∈ m 0, e.ptr = p)
    (hwrap : addr + size + (pagesize pageshift - 1) < 2 ^ 32) (type : FaultType) (rw : SegRw) :
    RangesExact m pageshift ops as segkmap addr size type rw ↔
      ¬GoesOn (m 0) pageshift ops.faulta (pageDown pageshift addr) (rangeEnd pageshift addr size) := by
  have hfaulta := @asFaulta_exact_iff _ _ _ _ ops.faulta (h 0) haligned _ hwrap
  constructor
  · exact fun hexact => hfaulta.mp hexact.faulta
  · intro hnot
    refine ⟨asFault_exact (h 0) hmap hwrap, hfaulta.mpr hnot,
      fun waited => asSetprot_exact h ops.setprot hwrap waited 0, ?_, ?_⟩
    · obtain ⟨ret, s', as', hcall, hout⟩ := rangeCall_logged (h 0) ops.checkprot hwrap
      exact ⟨ret, s', as', hcall, hout.exact⟩
    · obtain ⟨ret, qs, s', as', hcall, hout, hview⟩ := rangeCall_outcome (h 0) (follows_incore ops.incore)
        (show (-1 : Int) ≠ 0 by decide) hwrap
      exact ⟨ret, qs, s', as', hcall, hview, hout.exact⟩

def twoSegs : List Entry := [⟨1, 0x1000, 0x2000⟩, ⟨2, 0x3000, 0x2000⟩]

lemma twoSegs_holds : ∃ as, Holds as twoSegs := by
  have hallowed : Allowed [.add 1 { noSeg with base := 0x1000, size := 0x2000 } fun _ => 0,
      .add 2 { noSeg with base := 0x3000, size := 0x2000 } fun _ => 0] [] := by decide +kernel
  obtain ⟨as, -, hholds⟩ := @calls_spec _ _ 2 false _ (holds_asAlloc (fun _ => noSeg) fun _ _ => .null) hallowed
  exact ⟨as, hholds⟩

lemma twoSegs_aligned : ∀ e ∈ twoSegs, pagesize 12 ∣ e.base ∧ pagesize 12 ∣ e.size := by decide

def allSucceed : SegOps where
  fault := fun _ => 0
  faulta := fun _ => 0
  setprot := fun _ _ => 0
  checkprot := fun _ => 0
  incore := fun calls => (calls.getLast?.map fun c => c.piece.size).getD 0

/-- A range from the second page of the first segment on into the second one, which `as_faulta` does not reach: its first
page cannot be read ahead. -/
theorem range_operations_exact_iff_twoSegs : ∃ as, Holds as twoSegs ∧
    RangesExact (fun _ => twoSegs) 12 { allSucceed with faulta := fun _ => 5 } (fun _ => as) none 0x2800 0x2000 .softlock
      .read := by
  obtain ⟨as, h⟩ := twoSegs_holds
  refine ⟨as, h, (range_operations_exact_iff (fun _ => h) twoSegs_aligned _ (fun _ hnone => by cases hnone)
    (by decide) .softlock .read).mpr ?_⟩
  rintro ⟨e, -, -, hlt, -, -, hzero⟩
  have hfails : (5 : Int) = 0 := hzero 0 (by rw [Nat.zero_mul, Nat.add_zero]; exact hlt)
  exact absurd hfails (by decide)

/-- Both segments are asked for, and `as_faulta` stops at the end of the first. -/
theorem range_operations_not_exact :
    ¬∀ (as : Nat → As) (m : Nat → List Entry), (∀ n, Holds (as n) (m n)) →
      (∀ e ∈ m 0, pagesize 12 ∣ e.base ∧ pagesize 12 ∣ e.size) → ∀ (ops : SegOps) (addr size : Nat),
      addr + size + (pagesize 12 - 1) < 2 ^ 32 →
      ∀ (type : FaultType) (rw : SegRw), RangesExact m 12 ops as none addr size type rw := by
  intro hall
  obtain ⟨as, h⟩ := twoSegs_holds
  have hexact := hall (fun _ => as) (fun _ => twoSegs) (fun _ => h) twoSegs_aligned allSucceed 0x1000 0x4000
    (by decide) .inval .read
  apply (asFaulta_exact_iff h twoSegs_aligned (by decide)).mp hexact.faulta
  exact ⟨⟨1, 0x1000, 0x2000⟩, by decide, by decide, by decide, by decide,
    ⟨⟨2, 0x3000, 0x2000⟩, by decide, by decide, by decide⟩, fun _ _ => rfl⟩

end Calls

end Solaris.Vm
