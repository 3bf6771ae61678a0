import Mathlib
import Solaris.Lib.Along
import Solaris.Lib.Arenas

/-!
# Permanent kernel memory

`kmem_perm_alloc` of `kmem.c`. A page run starts with its header, a `kmem_perm_t`, and is given away from there on;
the runs with room left are on a list, of which the smallest that fits is taken.
-/

namespace Solaris.Kmem

open Lib List Nat Int Nat

def kmemAlign : Nat := 8

def kmemPermMinfree : Int := 32

/-- `sizeof (kmem_perm_t)` -/
def permSize : Nat := 12

def intMax : Int := 2 ^ 31 - 1

/-- A header, with the page run it stands at the start of. -/
structure Perm where
  base : Nat
  len : Nat
  permCurrent : Nat
  permAvail : Int

/-- The list of the runs with room, and those that have left it. -/
structure Pool where
  freelist : List Perm
  full : List Perm

/-- A call, and the page run that `kmem_page_alloc` returns if it is asked. A debugging kernel may
refuse the call at random. -/
structure Call where
  size : Nat
  align : Nat
  page : Option Nat
  refused : Bool

variable (pageShift : Nat)

def pageSize : Nat := 2 ^ pageShift

def ptob (n : Nat) : Nat := n * pageSize pageShift

def btopr (n : Nat) : Nat := (n + (pageSize pageShift - 1)) / pageSize pageShift

def permAlign (align : Nat) : Nat := if align < kmemAlign then kmemAlign else align

/-- `(x + align - 1) & -align` -/
def roundUp (align x : Nat) : Nat := (x + align - 1) % 2 ^ 32 / align * align

/-- `-(int)perm_current & (align - 1)` -/
def padding (align permCurrent : Nat) : Nat := (2 ^ 32 - permCurrent) % align

/-- The difference is signed, and becomes unsigned for the comparison. -/
def fits (size align : Nat) (pp : Perm) : Bool :=
  decide (size ≤ ((pp.permAvail - padding align pp.permCurrent) % 2 ^ 32).toNat)

/-- The loop over the list, at place `i`. -/
def search (size align : Nat) : List Perm → Nat → Option Nat → Int → Option Nat
  | [], _, best, _ => best
  | pp :: pps, i, best, bestAvail =>
    if fits size align pp ∧ pp.permAvail < bestAvail then
      search size align pps (i + 1) (some i) pp.permAvail
    else search size align pps (i + 1) best bestAvail

/-- The block is taken from the run at place `i`, which leaves the list with too little room. -/
def take (size align : Nat) (pool : Pool) (i : Nat) : Option Nat × Pool :=
  match pool.freelist[i]? with
  | none => (none, pool)
  | some pp =>
    let buf := roundUp align pp.permCurrent
    let avail := (pp.permAvail - ((buf + size : Nat) - pp.permCurrent : Int)).bmod (2 ^ 32)
    let pp := { pp with permAvail := avail, permCurrent := (buf + size) % 2 ^ 32 }
    if avail < kmemPermMinfree then
      (some buf, ⟨pool.freelist.eraseIdx i, pp :: pool.full⟩)
    else (some buf, { pool with freelist := pool.freelist.set i pp })

def kmemPermAlloc (pool : Pool) (c : Call) : Option Nat × Pool :=
  if c.refused then (none, pool)
  else
    let align := permAlign c.align
    if align &&& (align - 1) ≠ 0 ∨ pageSize pageShift < align then (none, pool)
    else
      let size := roundUp align c.size
      match search size align pool.freelist 0 none intMax with
      | some i => take size align pool i
      | none =>
        let npages := btopr pageShift (size + permSize)
        match c.page with
        | none => (none, pool)
        | some buf =>
          let pp : Perm := ⟨buf, ptob pageShift npages, buf + permSize, ptob pageShift npages - permSize⟩
          take size align { pool with freelist := pp :: pool.freelist } 0

section Rounding

variable {align x : Nat}

lemma padding_lt (ha : 0 < align) : padding align x < align := mod_lt _ ha

lemma dvd_add_padding (hd : align ∣ 2 ^ 32) (hx : x ≤ 2 ^ 32) : align ∣ x + padding align x := by
  obtain ⟨m, hm⟩ := hd
  have hdiv : align * ((2 ^ 32 - x) / align) + padding align x = 2 ^ 32 - x := div_add_mod _ _
  refine ⟨m - (2 ^ 32 - x) / align, ?_⟩
  rw [Nat.mul_sub, ← hm]
  omega

lemma add_padding_le {e : Nat} (ha : 0 < align) (hd : align ∣ 2 ^ 32) (he : align ∣ e) (hx : x ≤ e)
    (hlt : e ≤ 2 ^ 32) : x + padding align x ≤ e := by
  have hp := padding_lt (x := x) ha
  obtain ⟨s, hs⟩ := dvd_add_padding hd (Nat.le_trans hx hlt)
  obtain ⟨q, rfl⟩ := he
  rw [hs]
  apply Nat.mul_le_mul_left
  by_contra hgt
  have hstep : align * (q + 1) ≤ align * s := Nat.mul_le_mul_left _ (by omega)
  rw [mul_succ] at hstep
  omega

lemma roundUp_eq (ha : 0 < align) (hd : align ∣ 2 ^ 32) (h : x + padding align x < 2 ^ 32) :
    roundUp align x = x + padding align x := by
  have hp := padding_lt (x := x) ha
  obtain ⟨s, hs⟩ := dvd_add_padding (x := x) hd (by omega)
  have hnext : x + padding align x + align ≤ 2 ^ 32 := by
    obtain ⟨m, hm⟩ := hd
    rw [hs, hm] at h ⊢
    have hlt : s < m := Nat.lt_of_mul_lt_mul_left h
    calc align * s + align = align * (s + 1) := (mul_succ _ _).symm
      _ ≤ align * m := Nat.mul_le_mul_left _ hlt
  have hsum : x + align - 1 = align * s + (align - 1 - padding align x) := by omega
  have hdiv : (align * s + (align - 1 - padding align x)) / align = s := by
    rw [mul_add_div ha, div_eq_of_lt (by omega), Nat.add_zero]
  rw [roundUp, mod_eq_of_lt (by omega), hsum, hdiv, hs, Nat.mul_comm]

lemma roundUp_size (ha : 0 < align) (h : x + align ≤ 2 ^ 32) :
    x ≤ roundUp align x ∧ roundUp align x < x + align ∧ align ∣ roundUp align x := by
  have hdiv := div_add_mod (x + align - 1) align
  have hmod := mod_lt (x + align - 1) ha
  rw [roundUp, mod_eq_of_lt (by omega), Nat.mul_comm]
  exact ⟨by omega, by omega, Nat.dvd_mul_right _ _⟩

end Rounding

section Search

variable {size align : Nat}

lemma search_fits (pps : List Perm) (i : Nat) (best : Option Nat) (bestAvail : Int) {k : Nat}
    (h : search size align pps i best bestAvail = some k) :
    best = some k ∨ ∃ j pp, pps[j]? = some pp ∧ k = i + j ∧ fits size align pp = true := by
  induction pps generalizing i best bestAvail with
  | nil => exact .inl h
  | cons pp pps ih =>
    rw [search] at h
    split at h
    · next hc =>
      rcases ih _ _ _ h with hk | ⟨j, qq, hj, rfl, hq⟩
      · exact .inr ⟨0, pp, rfl, (Option.some.inj hk).symm, hc.1⟩
      · exact .inr ⟨j + 1, qq, hj, by omega, hq⟩
    · rcases ih _ _ _ h with hk | ⟨j, qq, hj, rfl, hq⟩
      · exact .inl hk
      · exact .inr ⟨j + 1, qq, hj, by omega, hq⟩

end Search

section Pools

def Pool.runs (pool : Pool) : List Perm := pool.freelist ++ pool.full

def Perm.arena (pp : Perm) : Arena := ⟨pp.base + permSize, pp.permCurrent, pp.base + pp.len⟩

/-- What is free of a run reaches to its end, which is the end of a page. -/
structure Perm.Ok (pp : Perm) : Prop where
  avail : 0 ≤ pp.permAvail ∧ pp.permAvail ≤ intMax
  reach : (pp.permCurrent : Int) + pp.permAvail = (pp.base + pp.len : Nat)
  base : pageSize pageShift ∣ pp.base
  len : pageSize pageShift ∣ pp.len
  range : pp.base + pp.len < 2 ^ 32

variable {pageShift}
variable {size align : Nat} {pp : Perm}

lemma fits_iff (h : pp.Ok pageShift) (ha : 0 < align) (hd : align ∣ 2 ^ 32)
    (hpage : align ∣ pageSize pageShift) :
    fits size align pp = true ↔
      pp.permCurrent + padding align pp.permCurrent + size ≤ pp.base + pp.len := by
  have havail := h.avail
  have hreach := h.reach
  have hrange := h.range
  have hend : align ∣ pp.base + pp.len :=
    Nat.dvd_add (Nat.dvd_trans hpage h.base) (Nat.dvd_trans hpage h.len)
  have hpad := add_padding_le (x := pp.permCurrent) ha hd hend (by omega) (by omega)
  have hmod : (pp.permAvail - padding align pp.permCurrent) % 2 ^ 32 =
      pp.permAvail - padding align pp.permCurrent := emod_eq_of_lt (by omega) (by omega)
  unfold fits
  rw [decide_eq_true_eq, hmod]
  omega

lemma take_spec {pool : Pool} {i : Nat} (hi : pool.freelist[i]? = some pp) (h : pp.Ok pageShift)
    (ha : 0 < align) (hd : align ∣ 2 ^ 32)
    (hfit : pp.permCurrent + padding align pp.permCurrent + size ≤ pp.base + pp.len) :
    ∃ pp' pool' rest, take size align pool i =
        (some (pp.permCurrent + padding align pp.permCurrent), pool') ∧
      pool.runs.Perm (pp :: rest) ∧ pool'.runs.Perm (pp' :: rest) ∧ pp'.base = pp.base ∧
      pp'.len = pp.len ∧ pp'.permCurrent = pp.permCurrent + padding align pp.permCurrent + size ∧
      pp'.Ok pageShift := by
  have hrange := h.range
  have hreach := h.reach
  obtain ⟨hpos, hmax⟩ := h.avail
  unfold intMax at hmax
  have hround := roundUp_eq (x := pp.permCurrent) ha hd (by omega)
  have havail : (pp.permAvail - ((pp.permCurrent + padding align pp.permCurrent + size : Nat) -
      pp.permCurrent : Int)).bmod (2 ^ 32) = pp.permAvail - (padding align pp.permCurrent + size : Nat) := by
    rw [bmod_eq_of_le (by omega) (by omega)]
    omega
  have hcur : (pp.permCurrent + padding align pp.permCurrent + size) % 2 ^ 32 =
      pp.permCurrent + padding align pp.permCurrent + size := mod_eq_of_lt (by omega)
  have hlen : i < pool.freelist.length := (List.getElem?_eq_some_iff.mp hi).1
  have hget : pool.freelist[i] = pp := (List.getElem?_eq_some_iff.mp hi).2
  have hbefore : pool.runs.Perm (pp :: (pool.freelist.eraseIdx i ++ pool.full)) := by
    rw [← hget]
    exact (getElem_cons_eraseIdx_perm hlen).symm.append_right pool.full
  set pp' : Perm := { pp with
    permAvail := pp.permAvail - (padding align pp.permCurrent + size : Nat)
    permCurrent := pp.permCurrent + padding align pp.permCurrent + size } with hpp'
  have hok : pp'.Ok pageShift := by
    refine ⟨⟨?_, ?_⟩, ?_, h.base, h.len, h.range⟩
    · change 0 ≤ pp.permAvail - (padding align pp.permCurrent + size : Nat)
      omega
    · change pp.permAvail - (padding align pp.permCurrent + size : Nat) ≤ 2 ^ 31 - 1
      omega
    · change ((pp.permCurrent + padding align pp.permCurrent + size : Nat) : Int) +
        (pp.permAvail - (padding align pp.permCurrent + size : Nat)) = (pp.base + pp.len : Nat)
      omega
  have htake : take size align pool i =
      if pp'.permAvail < kmemPermMinfree then
        (some (pp.permCurrent + padding align pp.permCurrent),
          ⟨pool.freelist.eraseIdx i, pp' :: pool.full⟩)
      else (some (pp.permCurrent + padding align pp.permCurrent),
        { pool with freelist := pool.freelist.set i pp' }) := by
    unfold take
    simp only [hi, hround, havail, hcur, hpp']
  rw [htake]
  split
  · exact ⟨pp', _, _, rfl, hbefore, perm_middle, rfl, rfl, rfl, hok⟩
  · exact ⟨pp', _, _, rfl, hbefore, (set_perm_cons_eraseIdx hlen pp').append_right pool.full,
      rfl, rfl, rfl, hok⟩

end Pools

section Histories

/-- A block returned for a call of size `want`. -/
structure Block where
  addr : Nat
  size : Nat
  want : Nat
  align : Nat

def Block.extent (b : Block) : Extent := ⟨b.addr, b.addr + b.size⟩

structure History where
  pool : Pool
  blocks : List Block

def firstHistory : History := ⟨⟨[], []⟩, []⟩

def History.step (h : History) (c : Call) : History :=
  match kmemPermAlloc pageShift h.pool c with
  | (none, pool) => ⟨pool, h.blocks⟩
  | (some buf, pool) =>
    ⟨pool, ⟨buf, roundUp (permAlign c.align) c.size, c.size, permAlign c.align⟩ :: h.blocks⟩

/-- The bytes that a call asks `kmem_page_alloc` for. -/
def Call.pageBytes (c : Call) : Nat :=
  ptob pageShift (btopr pageShift (roundUp (permAlign c.align) c.size + permSize))

def Call.newRun (c : Call) (buf : Nat) : Perm :=
  ⟨buf, c.pageBytes pageShift, buf + permSize, c.pageBytes pageShift - permSize⟩

/-- The size and the alignment of a call are allowed, and a page run is a fresh one: its end is an
address, and it does not overlap the runs there are. -/
structure History.Allows (h : History) (c : Call) : Prop where
  size : c.size < 2 ^ 30
  power : ∃ k, c.align = 2 ^ k
  page : c.align ≤ pageSize pageShift
  fresh : ∀ buf ∈ c.page, pageSize pageShift ∣ buf ∧ buf + c.pageBytes pageShift < 2 ^ 32 ∧
    ∀ pp ∈ h.pool.runs, buf + c.pageBytes pageShift ≤ pp.base ∨ pp.base + pp.len ≤ buf

structure History.Sound (h : History) : Prop where
  aligned : ∀ b ∈ h.blocks, b.align ∣ b.addr ∧ b.want ≤ b.size
  inside : ∀ b ∈ h.blocks, ∃ pp ∈ h.pool.runs,
    pp.base + permSize ≤ b.addr ∧ b.addr + b.size ≤ pp.base + pp.len
  disjoint : h.blocks.Pairwise fun b c => b.addr + b.size ≤ c.addr ∨ c.addr + c.size ≤ b.addr
  avail : ∀ pp ∈ h.pool.runs, 0 ≤ pp.permAvail ∧
    (pp.permCurrent : Int) + pp.permAvail ≤ (pp.base + pp.len : Nat)

structure History.Ok (h : History) : Prop where
  arenas : Arenas (h.pool.runs.map Perm.arena) (h.blocks.map Block.extent)
  runs : ∀ pp ∈ h.pool.runs, pp.Ok pageShift
  aligned : ∀ b ∈ h.blocks, b.align ∣ b.addr ∧ b.want ≤ b.size

variable {pageShift}
variable {h : History} {c : Call}

lemma History.Ok.sound (hok : h.Ok pageShift) : h.Sound := by
  refine ⟨hok.aligned, fun b hb => ?_, ?_, fun pp hpp => ?_⟩
  · obtain ⟨r, hr, hlo, hhi⟩ := hok.arenas.inside _ (mem_map_of_mem hb)
    obtain ⟨pp, hpp, rfl⟩ := mem_map.mp hr
    have hbound := (hok.arenas.bounds _ hr).2
    exact ⟨pp, hpp, hlo, Nat.le_trans hhi hbound⟩
  · exact pairwise_map.mp hok.arenas.disjoint
  · have hpok := hok.runs pp hpp
    exact ⟨hpok.avail.1, Int.le_of_eq hpok.reach⟩

lemma History.Ok.take (hok : h.Ok pageShift) {i : Nat} {pp : Perm}
    (hi : h.pool.freelist[i]? = some pp) {size align want : Nat} (ha : 0 < align)
    (hd : align ∣ 2 ^ 32) (hwant : want ≤ size)
    (hfit : pp.permCurrent + padding align pp.permCurrent + size ≤ pp.base + pp.len) :
    ∃ buf pool', Kmem.take size align h.pool i = (some buf, pool') ∧
      History.Ok pageShift ⟨pool', ⟨buf, size, want, align⟩ :: h.blocks⟩ := by
  have hmem : pp ∈ h.pool.runs := mem_append_left _ (mem_of_getElem? hi)
  have hpok := hok.runs pp hmem
  obtain ⟨pp', pool', rest, htake, hbefore, hafter, hbase, hlen, hcur, hpok'⟩ :=
    take_spec hi hpok ha hd hfit
  refine ⟨_, pool', htake, ?_, ?_, ?_⟩
  · have harenas := hok.arenas.perm (hbefore.map Perm.arena)
    have hcarve := harenas.carve (pp.permCurrent + padding align pp.permCurrent)
      (pp.permCurrent + padding align pp.permCurrent + size) (le_add_right _ _) (le_add_right _ _) hfit
    have harena : pp'.arena = ⟨pp.base + permSize,
        pp.permCurrent + padding align pp.permCurrent + size, pp.base + pp.len⟩ := by
      rw [Perm.arena, hbase, hlen, hcur]
    refine Arenas.perm ?_ (hafter.map Perm.arena).symm
    rw [map_cons, harena]
    exact hcarve
  · intro qq hqq
    rcases mem_cons.mp (hafter.mem_iff.mp hqq) with rfl | hrest
    · exact hpok'
    · exact hok.runs qq (hbefore.mem_iff.mpr (mem_cons_of_mem _ hrest))
  · exact forall_mem_cons.mpr ⟨⟨dvd_add_padding hd (by have hr := hpok.range; omega), hwant⟩, hok.aligned⟩

lemma permAlign_dvd (hlo : 3 ≤ pageShift) (hhi : pageShift ≤ 16) (hpow : ∃ k, c.align = 2 ^ k)
    (hpage : c.align ≤ pageSize pageShift) :
    0 < permAlign c.align ∧ permAlign c.align ∣ pageSize pageShift ∧ permAlign c.align ∣ 2 ^ 32 := by
  obtain ⟨k, hk⟩ := hpow
  have hdvd : ∃ j ≤ pageShift, permAlign c.align = 2 ^ j := by
    unfold permAlign
    split
    · exact ⟨3, hlo, rfl⟩
    · refine ⟨k, ?_, hk⟩
      rw [hk] at hpage
      exact (Nat.pow_le_pow_iff_right (by omega)).mp hpage
  obtain ⟨j, hj, hval⟩ := hdvd
  rw [hval]
  exact ⟨Nat.two_pow_pos j, Nat.pow_dvd_pow 2 hj, Nat.pow_dvd_pow 2 (by omega)⟩

lemma pageBytes_spec (c : Call) (hhi : pageShift ≤ 16)
    (hsize : roundUp (permAlign c.align) c.size < 2 ^ 30 + 2 ^ 16) :
    roundUp (permAlign c.align) c.size + permSize ≤ c.pageBytes pageShift ∧
      c.pageBytes pageShift < 2 ^ 31 ∧ pageSize pageShift ∣ c.pageBytes pageShift := by
  have hpos : 0 < pageSize pageShift := Nat.two_pow_pos _
  have hle : pageSize pageShift ≤ 2 ^ 16 := Nat.pow_le_pow_right (by omega) hhi
  unfold Call.pageBytes ptob btopr permSize
  set n := roundUp (permAlign c.align) c.size + 12 with hn
  have hdiv := div_add_mod (n + (pageSize pageShift - 1)) (pageSize pageShift)
  have hmod := mod_lt (n + (pageSize pageShift - 1)) hpos
  rw [Nat.mul_comm] at hdiv
  exact ⟨by omega, by omega, Nat.dvd_mul_left _ _⟩

lemma History.Ok.addRun (hok : h.Ok pageShift) {pp : Perm} (hpp : pp.Ok pageShift)
    (hcur : pp.permCurrent = pp.base + permSize) (hlen : permSize ≤ pp.len)
    (hfresh : ∀ qq ∈ h.pool.runs, pp.base + pp.len ≤ qq.base ∨ qq.base + qq.len ≤ pp.base) :
    History.Ok pageShift ⟨{ h.pool with freelist := pp :: h.pool.freelist }, h.blocks⟩ := by
  refine ⟨?_, ?_, hok.aligned⟩
  · apply hok.arenas.add hcur.symm
    · change pp.permCurrent ≤ pp.base + pp.len
      omega
    · intro r hr
      obtain ⟨qq, hqq, rfl⟩ := mem_map.mp hr
      have hapart := hfresh qq hqq
      unfold Perm.arena
      dsimp only
      omega
  · exact forall_mem_cons.mpr ⟨hpp, hok.runs⟩

lemma kmemPermAlloc_cases (pool : Pool) (c : Call) :
    kmemPermAlloc pageShift pool c = (none, pool) ∨
    (∃ i pp, pool.freelist[i]? = some pp ∧
      fits (roundUp (permAlign c.align) c.size) (permAlign c.align) pp = true ∧
      kmemPermAlloc pageShift pool c =
        Kmem.take (roundUp (permAlign c.align) c.size) (permAlign c.align) pool i) ∨
    ∃ buf ∈ c.page, kmemPermAlloc pageShift pool c =
      Kmem.take (roundUp (permAlign c.align) c.size) (permAlign c.align)
        { pool with freelist := c.newRun pageShift buf :: pool.freelist } 0 := by
  unfold kmemPermAlloc
  dsimp only
  split_ifs with hrefused hbad
  · exact .inl rfl
  · exact .inl rfl
  · cases hs : search (roundUp (permAlign c.align) c.size) (permAlign c.align) pool.freelist 0 none
        intMax with
    | some i =>
      rcases search_fits _ _ _ _ hs with hnone | ⟨j, pp, hj, hij, hfit⟩
      · cases hnone
      · have heq : i = j := hij.trans (Nat.zero_add j)
        subst heq
        exact .inr (.inl ⟨i, pp, hj, hfit, rfl⟩)
    | none =>
      cases hp : c.page with
      | none => exact .inl rfl
      | some buf => exact .inr (.inr ⟨buf, rfl, rfl⟩)

lemma History.Ok.step (hlo : 3 ≤ pageShift) (hhi : pageShift ≤ 16) (hok : h.Ok pageShift)
    (hc : h.Allows pageShift c) : (h.step pageShift c).Ok pageShift := by
  obtain ⟨ha, hpage, hd⟩ := permAlign_dvd hlo hhi hc.power hc.page
  have hpage16 : pageSize pageShift ≤ 2 ^ 16 := Nat.pow_le_pow_right (by omega) hhi
  have hale : permAlign c.align ≤ pageSize pageShift :=
    Nat.le_of_dvd (Nat.two_pow_pos _) hpage
  have hsmall := hc.size
  obtain ⟨hwant, hup, hdsize⟩ := roundUp_size (x := c.size) ha (by omega)
  rcases kmemPermAlloc_cases h.pool c with
    hnone | ⟨i, pp, hi, hfit, htake⟩ | ⟨buf, hbuf, htake⟩
  · rw [History.step, hnone]
    exact hok
  · have hpp := hok.runs pp (mem_append_left _ (mem_of_getElem? hi))
    obtain ⟨b, pool', heq, hok'⟩ := hok.take hi ha hd hwant ((fits_iff hpp ha hd hpage).mp hfit)
    rw [History.step, htake, heq]
    exact hok'
  · obtain ⟨hbase, hrange, hfresh⟩ := hc.fresh buf hbuf
    obtain ⟨hroom, hbytes, hdbytes⟩ := pageBytes_spec c hhi (by omega)
    unfold permSize at hroom
    have hrun : (c.newRun pageShift buf).Ok pageShift := by
      refine ⟨⟨?_, ?_⟩, ?_, hbase, hdbytes, hrange⟩
      · change 0 ≤ (c.pageBytes pageShift : Int) - (12 : Nat)
        omega
      · change (c.pageBytes pageShift : Int) - (12 : Nat) ≤ 2 ^ 31 - 1
        omega
      · change ((buf + 12 : Nat) : Int) + ((c.pageBytes pageShift : Int) - (12 : Nat)) =
          (buf + c.pageBytes pageShift : Nat)
        omega
    have hadd := hok.addRun hrun rfl (by change 12 ≤ c.pageBytes pageShift; omega) hfresh
    -- The end of the block that ends with the run is a multiple of the alignment too.
    have hend : permAlign c.align ∣
        buf + c.pageBytes pageShift - roundUp (permAlign c.align) c.size :=
      dvd_sub (Nat.dvd_add (Nat.dvd_trans hpage hbase) (Nat.dvd_trans hpage hdbytes)) hdsize
    have hpad := add_padding_le (x := buf + permSize) ha hd hend (by unfold permSize; omega) (by omega)
    have hfit : (c.newRun pageShift buf).permCurrent +
        padding (permAlign c.align) (c.newRun pageShift buf).permCurrent +
        roundUp (permAlign c.align) c.size ≤ buf + c.pageBytes pageShift := by
      change buf + permSize + padding (permAlign c.align) (buf + permSize) +
        roundUp (permAlign c.align) c.size ≤ buf + c.pageBytes pageShift
      omega
    obtain ⟨b, pool', heq, hok'⟩ := hadd.take (i := 0) rfl ha hd hwant hfit
    rw [History.step, htake, heq]
    exact hok'

/-- Along every run of calls the blocks returned are aligned, lie each inside one page run after its
header and do not overlap, and no run counts more room than it has. -/
theorem kmemPermAlloc_sound (pageShift : Nat) (hlo : 3 ≤ pageShift) (hhi : pageShift ≤ 16)
    (calls : List Call)
    (hallow : Along (History.step pageShift) (History.Allows pageShift) firstHistory calls) :
    (calls.foldl (History.step pageShift) firstHistory).Sound := by
  have hok : History.Ok pageShift (calls.foldl (History.step pageShift) firstHistory) := by
    apply hallow.invariant
    · exact ⟨Arenas.nil, by simp [firstHistory, Pool.runs], by simp [firstHistory]⟩
    · intro h c hok hc
      exact hok.step hlo hhi hc
  exact hok.sound

theorem kmemPermAlloc_sound_sample :
    ([⟨4000, 8, some 65536, false⟩, ⟨8, 4096, some 131072, false⟩, ⟨40, 16, none, false⟩].foldl
      (History.step 12) firstHistory).Sound := by
  apply kmemPermAlloc_sound 12 (by omega) (by omega)
  refine ⟨⟨by decide, ⟨3, rfl⟩, by decide, ?_⟩, ⟨by decide, ⟨12, rfl⟩, by decide, ?_⟩,
    ⟨by decide, ⟨4, rfl⟩, by decide, ?_⟩, trivial⟩
  · intro buf hbuf
    cases hbuf
    decide
  · intro buf hbuf
    cases hbuf
    decide +kernel
  · intro buf hbuf
    cases hbuf

end Histories

end Solaris.Kmem
