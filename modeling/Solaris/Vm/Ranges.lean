import Solaris.Vm.Gap

/-!
# Operations on address ranges

`as_fault`, `as_faulta`, `as_setprot`, `as_checkprot` and `as_incore` of `vm_as.c` apply an operation of
the segment layer to a range, one piece after the other. The operations are parameters: each answers
by the calls made so far, the present one last. What `as_setprot` and `as_checkprot` do about watched
pages around each operation is left out.
-/

namespace Solaris.Vm

open Lib List Nat Option

def fcNomap : Int := 5

def enomem : Int := 12

def eagain : Int := 11

/-- A segment with an address and a size, as the operations get them. -/
structure Piece where
  seg : SegPtr
  addr : Nat
  size : Nat

inductive FaultType
  | inval
  | prot
  | softlock
  | softunlock
  deriving DecidableEq

inductive SegRw
  | other
  | read
  | write
  | exec
  | create

/-- A call of `SEGOP_FAULT`. -/
structure FaultCall where
  piece : Piece
  type : FaultType
  rw : SegRw

/-- A call of `SEGOP_INCORE`; `vec` counts from the caller's. -/
structure IncoreCall where
  piece : Piece
  vec : Nat

section Code

variable (pageshift : Nat)

def pagesize : Nat := 2 ^ pageshift

/-- `addr & PAGEMASK` -/
def pageDown (addr : Nat) : Nat := addr / pagesize pageshift * pagesize pageshift

def rangeSize (addr size : Nat) : Nat :=
  (pageDown pageshift (((addr + size) % 2 ^ 32 + (pagesize pageshift - 1)) % 2 ^ 32) + 2 ^ 32 -
    pageDown pageshift addr) % 2 ^ 32

def asSegat (as : As) (addr : Nat) : Option (Option SegPtr × As) :=
  (asFindseg as addr false).map fun r =>
    (r.1.filter fun p => decide ((as.seg p).base ≤ addr ∧ addr < (as.seg p).stop), r.2)

/-- The segment for `raddr`: behind the end of the present one the next is it if it begins at `here`. -/
def pieceSeg (as : As) (here : Nat) (seg : SegPtr) (raddr : Nat) : Option (Option SegPtr) :=
  if (as.seg seg).stop ≤ raddr then
    (segp as (as.seg seg).next).map fun next => next.filter fun p => decide (here = (as.seg p).base)
  else some (some seg)

inductive Left
  | done
  | hole
  | failed (code : Int)

/-- The loop over the pieces of a range: where it is left, and at which address. The operation gives
an error code, or `none`, and keeps what it likes. -/
def rangeLoop {σ : Type} (as : As) (op : Piece → σ → Option Int × σ) :
    Nat → SegPtr → Nat → Nat → σ → Option (Left × Nat × σ)
  | 0, _, _, _, _ => none
  | fuel + 1, seg, raddr, rsize, s =>
    if rsize = 0 then some (.done, raddr, s)
    else
      match pieceSeg as raddr seg raddr with
      | none => none
      | some none => some (.hole, raddr, s)
      | some (some seg) =>
        let ssize := if (as.seg seg).stop < (raddr + rsize) % 2 ^ 32 then (as.seg seg).stop - raddr else rsize
        match op ⟨seg, raddr, ssize⟩ s with
        | (some code, s) => some (.failed code, raddr, s)
        | (none, s) => rangeLoop as op fuel seg ((raddr + ssize) % 2 ^ 32) (rsize - ssize) s

def Left.code (nomap : Int) : Left → Int
  | .done => 0
  | .hole => nomap
  | .failed code => code

def errorOf (code : Int) : Option Int := if code = 0 then none else some code

/-- A call that is added to those made and answered by its error code. -/
def logged {α : Type} (segop : List α → Int) (c : α) (calls : List α) : Option Int × List α :=
  (errorOf (segop (calls ++ [c])), calls ++ [c])

/-- The loop of `as_fault` that unlocks what has been locked. -/
def unlockLoop (as : As) (raddr : Nat) : Nat → SegPtr → Nat → List FaultCall → Option (List FaultCall)
  | 0, _, _, _ => none
  | fuel + 1, seg, addrsav, calls =>
    if addrsav < raddr then
      match (if (as.seg seg).stop ≤ addrsav then segp as (as.seg seg).next else some (some seg)) with
      | none => none
      | some none => none
      | some (some seg) =>
        let ssize := if (as.seg seg).stop < raddr then (as.seg seg).stop - addrsav else raddr - addrsav
        unlockLoop as raddr fuel seg (addrsav + ssize) (calls ++ [⟨⟨seg, addrsav, ssize⟩, .softunlock, .other⟩])
    else some calls

/-- The segment that `as_fault` starts with; `segkmap` is given when the address space is the kernel's. -/
def faultSeg (as : As) (segkmap : Option SegPtr) (raddr size : Nat) : Option (Option SegPtr × As) :=
  match segkmap with
  | some seg =>
    if (as.seg seg).base ≤ raddr ∧ (raddr + size) % 2 ^ 32 < (as.seg seg).stop then some (some seg, as)
    else asSegat as raddr
  | none => asSegat as raddr

def asFault (segopFault : List FaultCall → Int) (as : As) (segkmap : Option SegPtr) (addr size : Nat)
    (type : FaultType) (rw : SegRw) : Option (Int × List FaultCall × As) :=
  let raddr := pageDown pageshift addr
  match faultSeg as segkmap raddr size with
  | none => none
  | some (none, as) => some (fcNomap, [], as)
  | some (some seg, as) =>
    (rangeLoop as (fun p => logged segopFault ⟨p, type, rw⟩) (as.nsegs + 1) seg raddr
      (rangeSize pageshift addr size) []).bind fun r =>
        let res := r.1.code fcNomap
        if res ≠ 0 ∧ type = .softlock then
          (unlockLoop as r.2.1 (as.nsegs + 1) seg raddr r.2.2).map fun calls => (res, calls, as)
        else some (res, r.2.2, as)

/-- The loop of `as_faulta`, page by page; the operation does not get the size. -/
def faultaLoop (segopFaulta : List Piece → Int) (as : As) (addr : Nat) :
    Nat → SegPtr → Nat → Nat → List Piece → Option (Int × List Piece)
  | 0, _, _, _, _ => none
  | fuel + 1, seg, raddr, rsize, calls =>
    if rsize = 0 then some (0, calls)
    else
      match pieceSeg as addr seg raddr with
      | none => none
      | some none => some (fcNomap, calls)
      | some (some seg) =>
        match logged segopFaulta ⟨seg, raddr, pagesize pageshift⟩ calls with
        | (some code, calls) => some (code, calls)
        | (none, calls) =>
          faultaLoop segopFaulta as addr fuel seg ((raddr + pagesize pageshift) % 2 ^ 32)
            ((rsize + 2 ^ 32 - pagesize pageshift) % 2 ^ 32) calls

def asFaulta (segopFaulta : List Piece → Int) (as : As) (addr size : Nat) : Option (Int × List Piece × As) :=
  let raddr := pageDown pageshift addr
  let rsize := rangeSize pageshift addr size
  match asSegat as raddr with
  | none => none
  | some (none, as) => some (fcNomap, [], as)
  | some (some seg, as) =>
    (faultaLoop pageshift segopFaulta as addr (rsize / pagesize pageshift + 1) seg raddr rsize []).map fun r =>
      (r.1, r.2, as)

/-- What the functions that check for a wraparound have in common. -/
def rangeCall {σ : Type} (op : Piece → σ → Option Int × σ) (nomap : Int) (s : σ) (as : As) (addr size : Nat) :
    Option (Int × σ × As) :=
  let raddr := pageDown pageshift addr
  let rsize := rangeSize pageshift addr size
  if (raddr + rsize) % 2 ^ 32 < raddr then some (enomem, s, as)
  else
    match asSegat as raddr with
    | none => none
    | some (none, as) => some (nomap, s, as)
    | some (some seg, as) =>
      (rangeLoop as op (as.nsegs + 1) seg raddr rsize s).map fun r => (r.1.code nomap, r.2.2, as)

/-- `as_setprot` from `setprot_top` on: the `turn`-th attempt and those after it, each with its error
and its calls. The lock is released between two attempts, so the address space may be another one. -/
def asSetprot (segopSetprot : Nat → List Piece → Int) (as : Nat → As) (addr size : Nat) :
    Nat → Nat → Option (List (Int × List Piece))
  | 0, _ => some []
  | fuel + 1, turn =>
    (rangeCall pageshift (logged (segopSetprot turn)) enomem [] (as turn) addr size).bind fun r =>
      if r.1 = eagain then
        (asSetprot segopSetprot as addr size fuel (turn + 1)).map fun rest => (r.1, r.2.1) :: rest
      else some [(r.1, r.2.1)]

def asCheckprot (segopCheckprot : List Piece → Int) (as : As) (addr size : Nat) : Option (Int × List Piece × As) :=
  rangeCall pageshift (logged segopCheckprot) enomem [] as addr size

/-- The calls made, `*sizep` and `vec`. -/
structure Incore where
  calls : List IncoreCall
  sizep : Nat
  vec : Nat

/-- `SEGOP_INCORE` on a piece, which fails when it does not answer the whole size. -/
def incorePiece (segopIncore : List IncoreCall → Nat) (p : Piece) (s : Incore) : Option Int × Incore :=
  let calls := s.calls ++ [⟨p, s.vec⟩]
  let isize := segopIncore calls
  if isize ≠ p.size then (some (-1), ⟨calls, (s.sizep + isize) % 2 ^ 32, s.vec⟩)
  else (none, ⟨calls, (s.sizep + isize) % 2 ^ 32, s.vec + (p.size + (pagesize pageshift - 1)) / pagesize pageshift⟩)

def asIncore (segopIncore : List IncoreCall → Nat) (as : As) (addr size : Nat) : Option (Int × Incore × As) :=
  rangeCall pageshift (incorePiece pageshift segopIncore) (-1) ⟨[], 0, 0⟩ as addr size

end Code

section Search

variable {as : As} {m pre post : List Entry} {e : Entry} {addr raddr : Nat}

/-- An address below `2 ^ 32` is mapped. -/
abbrev Mapped (m : List Entry) (addr : Nat) : Prop := Covered Entry.base Entry.stop m addr

lemma asSegat_spec (h : Holds as m) :
    ∃ as', Holds as' m ∧ ((∃ pre e post, m = pre ++ e :: post ∧ e.base ≤ addr ∧ addr < e.stop ∧
        asSegat as addr = some (some e.ptr, as')) ∨
      (¬Mapped m addr ∧ asSegat as addr = some (none, as'))) := by
  obtain ⟨low, high, hm, hcut⟩ := exists_cut h.apart addr
  obtain ⟨as', hfind, h'⟩ : ∃ as', asFindseg as addr false = _ ∧ _ := find_spec h
  have hplain := @plainFind_eq _ _ _ false hcut
  rw [← hm] at hplain
  have hfound : foundAt false (low.map Entry.ptr) (high.map Entry.ptr) = high.head?.map Entry.ptr := by
    unfold foundAt
    rw [if_neg (fun hc => Bool.noConfusion hc.1), head?_map]
  rw [hplain, hfound] at hfind
  have hbelow (e : Entry) (he : e ∈ low) : ¬addr < e.stop := not_lt.mpr (hcut.low e he)
  refine ⟨as', h', ?_⟩
  unfold asSegat
  rw [hfind]
  cases high with
  | nil =>
    refine .inr ⟨?_, rfl⟩
    rintro ⟨e, he, -, hlt⟩
    rw [hm, append_nil] at he
    exact hbelow e he hlt
  | cons e high =>
    have hmem : e ∈ m := by
      rw [hm]
      simp
    have hbase : (as.seg e.ptr).base = e.base := (h.entries e hmem).1
    have hstop : (as.seg e.ptr).stop = e.stop := h.stop_eq hmem
    have hlt := hcut.high e mem_cons_self
    by_cases hle : e.base ≤ addr
    · refine .inl ⟨low, e, high, hm, hle, hlt, ?_⟩
      rw [head?_cons, map_some, map_some, filter_some, hbase, hstop,
        decide_eq_true ⟨hle, hlt⟩]
      rfl
    refine .inr ⟨?_, ?_⟩
    · rintro ⟨x, hx, hxs, hxe⟩
      rw [hm] at hx
      rcases mem_append.mp hx with hx | hx
      · exact hbelow x hx hxe
      · have hap := h.apart
        rw [hm] at hap
        have hfirst := @Apart.firstStart_le _ _ _ _ _ 0 (hap.sublist (sublist_append_right _ _)) hx
        rw [firstStart_cons] at hfirst
        omega
    · rw [head?_cons, map_some, map_some, filter_some, hbase, hstop,
        decide_eq_false fun hc => hle hc.1]
      rfl

lemma pieceSeg_inside (h : Holds as m) (he : e ∈ m) (hlt : raddr < e.stop) {here : Nat} :
    pieceSeg as here e.ptr raddr = some (some e.ptr) := by
  have hstop : (as.seg e.ptr).stop = e.stop := h.stop_eq he
  unfold pieceSeg
  rw [hstop, if_neg (by omega)]

lemma pieceSeg_end (h : Holds as (pre ++ e :: post)) {here : Nat} :
    pieceSeg as here e.ptr e.stop =
      some ((post.head?.filter fun x => decide (here = x.base)).map Entry.ptr) := by
  have hstop : (as.seg e.ptr).stop = e.stop := h.stop_eq (by simp)
  unfold pieceSeg
  rw [hstop, if_pos le_rfl, h.segp_next, map_some]
  cases post with
  | nil => rfl
  | cons x post =>
    have hbase : (as.seg x.ptr).base = x.base := (h.entries x (by simp)).1
    rw [head?_cons, map_some, filter_some, filter_some, hbase]
    by_cases hc : here = x.base
    · rw [decide_eq_true hc]
      rfl
    · rw [decide_eq_false hc]
      rfl

lemma pieceSeg_spec (h : Holds as m) (hm : m = pre ++ e :: post) (hle : e.base ≤ raddr) (hend : raddr ≤ e.stop) :
    (∃ pre' x post', m = pre' ++ x :: post' ∧ x.base ≤ raddr ∧ raddr < x.stop ∧
        pieceSeg as raddr e.ptr raddr = some (some x.ptr) ∧
        post'.length + 1 = post.length + if raddr < e.stop then 1 else 0) ∨
      (¬Mapped m raddr ∧ pieceSeg as raddr e.ptr raddr = some none) := by
  have hmem : e ∈ m := by
    rw [hm]
    simp
  by_cases hlt : raddr < e.stop
  · rw [if_pos hlt]
    exact .inl ⟨pre, e, post, hm, hle, hlt, pieceSeg_inside h hmem hlt, rfl⟩
  have heq : raddr = e.stop := by omega
  subst heq
  have hap := h.apart
  rw [hm] at h hap
  rw [if_neg (lt_irrefl _), pieceSeg_end h]
  by_cases hnext : ∃ x rest, post = x :: rest ∧ e.stop = x.base
  · obtain ⟨x, rest, rfl, hx⟩ := hnext
    refine .inl ⟨pre ++ [e], x, rest, by rw [hm, append_assoc]; rfl, hx.ge, ?_, ?_, rfl⟩
    · rw [hx]
      exact hap.pos x (by simp)
    · rw [head?_cons, filter_some, decide_eq_true hx]
      rfl
  refine .inr ⟨?_, ?_⟩
  · rintro ⟨y, hy, hys, hye⟩
    rw [hm] at hy
    obtain ⟨rest, hpost, hstart⟩ := hap.covered_stop hy hys hye
    exact hnext ⟨y, rest, hpost, hstart.symm⟩
  · cases post with
    | nil => rfl
    | cons x post =>
      rw [head?_cons, filter_some, decide_eq_false fun hc => hnext ⟨x, post, rfl, hc⟩]
      rfl

end Search

section Walk

variable {σ : Type}

/-- The run of a loop over the pieces up to `hi`: from an address, with what the operation keeps, over
the pieces that succeed, to the way the loop is left. -/
inductive Walked (m : List Entry) (op : Piece → σ → Option Int × σ) (hi : Nat) :
    Nat → σ → List Piece → Left → Nat → σ → Prop
  | done (s : σ) : Walked m op hi hi s [] .done hi s
  | hole (b : Nat) (s : σ) (hlt : b < hi) (hhole : ¬Mapped m b) : Walked m op hi b s [] .hole b s
  | failed (b : Nat) (s s' : σ) (e : Entry) (code : Int) (he : e ∈ m) (hle : e.base ≤ b) (hlt : b < e.stop)
      (hb : b < hi) (hop : op ⟨e.ptr, b, min e.stop hi - b⟩ s = (some code, s')) :
      Walked m op hi b s [] (.failed code) b s'
  | piece (b b' : Nat) (s s' s'' : σ) (ps : List Piece) (l : Left) (e : Entry) (he : e ∈ m) (hle : e.base ≤ b)
      (hlt : b < e.stop) (hb : b < hi) (hop : op ⟨e.ptr, b, min e.stop hi - b⟩ s = (none, s'))
      (hrest : Walked m op hi (min e.stop hi) s' ps l b' s'') :
      Walked m op hi b s (⟨e.ptr, b, min e.stop hi - b⟩ :: ps) l b' s''

variable {op : Piece → σ → Option Int × σ} {as : As} {m pre post : List Entry} {e : Entry} {raddr hi fuel : Nat}

lemma rangeLoop_walked (h : Holds as m) (hm : m = pre ++ e :: post) (hle : e.base ≤ raddr)
    (hend : raddr ≤ e.stop) (hhi : hi < 2 ^ 32) (hlo : raddr ≤ hi) (hpos : 0 < fuel)
    (hfuel : raddr < hi → (post.length + if raddr < e.stop then 1 else 0) < fuel) (s : σ) :
    ∃ ps l b s', rangeLoop as op fuel e.ptr raddr (hi - raddr) s = some (l, b, s') ∧
      Walked m op hi raddr s ps l b s' := by
  induction fuel generalizing pre e post raddr s with
  | zero => exact absurd hpos (lt_irrefl 0)
  | succ fuel ih =>
    unfold rangeLoop
    by_cases hzero : hi - raddr = 0
    · have heq : raddr = hi := by omega
      subst heq
      rw [if_pos hzero]
      exact ⟨_, _, _, _, rfl, Walked.done s⟩
    have hlt : raddr < hi := by omega
    rw [if_neg hzero]
    rcases pieceSeg_spec h hm hle hend with ⟨pre', x, post', hm', hxle, hxlt, hseg, hturns⟩ | ⟨hhole, hseg⟩
    · rw [hseg]
      have hmem : x ∈ m := by
        rw [hm']
        simp
      have hstop : (as.seg x.ptr).stop = x.stop := h.stop_eq hmem
      have hsize : (if (as.seg x.ptr).stop < (raddr + (hi - raddr)) % 2 ^ 32 then (as.seg x.ptr).stop - raddr
          else hi - raddr) = min x.stop hi - raddr := by
        split
        · omega
        · omega
      dsimp only
      rw [hsize]
      cases hop : op ⟨x.ptr, raddr, min x.stop hi - raddr⟩ s with
      | mk code s' =>
        cases code with
        | some code => exact ⟨_, _, _, _, rfl, Walked.failed raddr s s' x code hmem hxle hxlt hlt hop⟩
        | none =>
          have hnext : (raddr + (min x.stop hi - raddr)) % 2 ^ 32 = min x.stop hi := by
            rw [Nat.add_sub_cancel' (by omega), Nat.mod_eq_of_lt (by omega)]
          have hrest : hi - raddr - (min x.stop hi - raddr) = hi - min x.stop hi := by omega
          have hfuel' := hfuel hlt
          rw [hnext, hrest]
          obtain ⟨ps, l, b, s'', hrun, hwalk⟩ := ih hm' (by omega) (min_le_left _ _) (min_le_right _ _)
            (by omega) (fun hmore => by rw [if_neg (by omega)]; omega) s'
          exact ⟨_, l, b, s'', hrun, Walked.piece raddr b s s' s'' ps l x hmem hxle hxlt hlt hop hwalk⟩
    · rw [hseg]
      exact ⟨_, _, _, _, rfl, Walked.hole raddr s hlt hhole⟩

end Walk

section Tiles

inductive Tiles (m : List Entry) : Nat → List Piece → Nat → Prop
  | nil (b : Nat) : Tiles m b [] b
  | cons (e : Entry) (b c size : Nat) (ps : List Piece) (he : e ∈ m) (hle : e.base ≤ b) (hpos : 0 < size)
      (hin : b + size ≤ e.stop) (hrest : Tiles m (b + size) ps c) : Tiles m b (⟨e.ptr, b, size⟩ :: ps) c

variable {m : List Entry} {b c d size : Nat} {ps qs : List Piece} {e : Entry}

lemma Tiles.append (h : Tiles m b ps c) (h' : Tiles m c qs d) : Tiles m b (ps ++ qs) d := by
  induction h with
  | nil b => exact h'
  | cons e b c size ps he hle hpos hin _ ih => exact Tiles.cons e b d size _ he hle hpos hin (ih h')

lemma Tiles.single (he : e ∈ m) (hle : e.base ≤ b) (hpos : 0 < size) (hin : b + size ≤ e.stop) :
    Tiles m b [⟨e.ptr, b, size⟩] (b + size) := Tiles.cons e b _ size [] he hle hpos hin (Tiles.nil _)

lemma Tiles.end_eq (h : Tiles m b ps c) : c = b + (ps.map Piece.size).sum := by
  induction h with
  | nil b => rfl
  | cons e b c size ps _ _ _ _ _ ih =>
    rw [ih, map_cons, sum_cons, add_assoc]

lemma Tiles.mapped (h : Tiles m b ps c) {x : Nat} (hlo : b ≤ x) (hhi : x < c) : Mapped m x := by
  induction h with
  | nil b => omega
  | cons e b c size ps he hle hpos hin _ ih =>
    by_cases hx : x < b + size
    · exact ⟨e, he, by omega, by omega⟩
    · exact ih (by omega) hhi

lemma Walked.tiles {σ : Type} {op : Piece → σ → Option Int × σ} {hi b b' : Nat} {s s' : σ} {l : Left}
    (h : Walked m op hi b s ps l b' s') : Tiles m b ps b' ∧ b' ≤ hi := by
  induction h with
  | done s => exact ⟨Tiles.nil _, le_rfl⟩
  | hole b s hlt => exact ⟨Tiles.nil _, hlt.le⟩
  | failed b s s' e code he hle hlt hb hop => exact ⟨Tiles.nil _, hb.le⟩
  | piece b b' s s' s'' ps l e he hle hlt hb hop _ ih =>
    obtain ⟨htiles, hend⟩ := ih
    have hnext : b + (min e.stop hi - b) = min e.stop hi := Nat.add_sub_cancel' (by omega)
    refine ⟨Tiles.cons e b b' _ ps he hle (by omega) (by omega) ?_, hend⟩
    rw [hnext]
    exact htiles

lemma Tiles.le (h : Tiles m b ps c) : b ≤ c := by
  rw [h.end_eq]
  exact le_add_right b _

end Tiles

end Solaris.Vm
