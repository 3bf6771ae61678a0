import Solaris.Ufs.Accounting

/-!
# Searching the map of a group

`mapsearch` scans the bytes of the map for one that the table names, from its start to the end and then from 0 up to
its start, and sifts the blocks of that byte.
-/

namespace Solaris.Ufs

open List Nat Option Nat

variable {L : Layout} {m : ByteMap} {c : Nat}

theorem scanc_hit {table : Nat → Nat} {mask size first : Nat} (h : scanc table m mask size first ≠ 0) :
    table (m (first + size - scanc table m mask size first)).toNat &&& mask ≠ 0 := by
  induction size generalizing first with
  | zero => exact absurd rfl h
  | succ size ih =>
    unfold scanc at h ⊢
    split at h
    · next hmiss =>
      rw [if_pos hmiss]
      have := ih h
      rwa [show first + 1 + size = first + (size + 1) by omega] at this
    · next hhit =>
      rw [if_neg hhit, Nat.add_sub_cancel]
      exact hhit

theorem scanc_miss {table : Nat → Nat} {mask size first : Nat} (h : scanc table m mask size first = 0) {k : Nat}
    (hk : first ≤ k) (hlt : k < first + size) : table (m k).toNat &&& mask = 0 := by
  induction size generalizing first with
  | zero => omega
  | succ size ih =>
    unfold scanc at h
    split at h
    · next hmiss =>
      rcases eq_or_lt_of_le hk with rfl | hlt'
      · exact hmiss
      · exact ih h hlt' (by omega)
    · exact absurd h (by omega)

lemma siftBlock_some {frag siz blk pos : Nat} (hsiz : siz ≤ 8) (hle : siz ≤ frag) (h : siftBlock frag siz blk = some pos) :
    IsRun frag blk siz pos := by
  have hmem := mem_of_find?_eq_some h
  have hfound := find?_some h
  rw [mem_range] at hmem
  exact (pattern_iff_isRun hsiz (by omega)).mp (by simpa using hfound)

lemma siftBlock_isSome {frag siz blk pos : Nat} (hsiz : siz ≤ 8) (hrun : IsRun frag blk siz pos) :
    (siftBlock frag siz blk).isSome = true := by
  unfold siftBlock
  rw [find?_isSome]
  have hle : pos + siz ≤ frag := hrun.1
  refine ⟨pos, mem_range.mpr (by omega), ?_⟩
  simpa using (pattern_iff_isRun hsiz hle).mpr hrun

/-- A block of the map has a free run of exactly `siz` fragments at `bno`. -/
def RunAt (frag : Nat) (m : ByteMap) (siz bno : Nat) : Prop :=
  IsRun frag (blkmap frag m (bno / frag * frag)) siz (bno % frag)

lemma RunAt.isset (hf : FragSize L.g.frag) {siz bno : Nat} (hsiz : 1 ≤ siz) (h : RunAt L.g.frag m siz bno) :
    isset m bno = true := by
  have hbit := h.2.1 0 hsiz
  rw [add_zero, testBit_blkmap hf (Dvd.intro_left _ rfl) (mod_lt _ hf.pos), mul_comm, div_add_mod] at hbit
  exact hbit

lemma siftByte_run (hf : FragSize L.g.frag) {siz i : Nat} (hone : 1 ≤ siz) (hle : siz ≤ L.g.frag)
    (hhit : fragtbl L.g.frag (m i).toNat &&& 1 <<< (siz - 1 + L.g.frag % nbby) ≠ 0) :
    RunAt L.g.frag m siz (siftByte L.g.frag siz m (i * nbby)) := by
  have hdvd := hf.dvd
  have hpos := hf.pos
  have h8 : siz ≤ 8 := le_trans hle (le_of_dvd (by omega) hdvd)
  obtain ⟨k, hk, pos, hpos', hrun⟩ := (fragtbl_iff_isRun L.g.frag hf (m i) siz hle hone).mp hhit
  have hbyte : ∀ k, k < nbby / L.g.frag → blkmap L.g.frag m (i * nbby + k * L.g.frag) =
      blkbits L.g.frag (m i) (k * L.g.frag) := by
    intro k hk
    have hmul : k * L.g.frag + L.g.frag ≤ nbby := by
      have := (le_div_iff_mul_le hpos).mp (succ_le_of_lt hk)
      rwa [succ_mul] at this
    unfold blkmap blkbits nbby at *
    rw [show (i * 8 + k * L.g.frag) / 8 = i by omega, show (i * 8 + k * L.g.frag) % 8 = k * L.g.frag % 8 by omega]
  have hsome : ((List.range (nbby / L.g.frag)).findSome? fun k =>
      (siftBlock L.g.frag siz (blkmap L.g.frag m (i * nbby + k * L.g.frag))).map fun pos =>
        i * nbby + k * L.g.frag + pos).isSome = true := by
    rw [findSome?_isSome_iff]
    refine ⟨k, mem_range.mpr hk, ?_⟩
    rw [isSome_map, hbyte k hk]
    exact siftBlock_isSome h8 hrun
  obtain ⟨bno, hbno⟩ := isSome_iff_exists.mp hsome
  have hres : siftByte L.g.frag siz m (i * nbby) = bno := by
    unfold siftByte
    rw [hbno]
    rfl
  rw [hres]
  obtain ⟨j, hj, hmap⟩ := exists_of_findSome?_eq_some hbno
  obtain ⟨p, hp, rfl⟩ := map_eq_some_iff.mp hmap
  have hr := siftBlock_some h8 hle hp
  have hplt : p < L.g.frag := by
    have := hr.1
    omega
  have hbase : (i * nbby + j * L.g.frag + p) / L.g.frag * L.g.frag = i * nbby + j * L.g.frag ∧
      (i * nbby + j * L.g.frag + p) % L.g.frag = p := by
    obtain ⟨n, hn⟩ := hdvd
    have hsplit : i * nbby + j * L.g.frag = (i * n + j) * L.g.frag := by
      unfold nbby
      rw [hn, add_mul, mul_comm L.g.frag n, mul_assoc]
    rw [hsplit]
    have hdiv : ((i * n + j) * L.g.frag + p) / L.g.frag = i * n + j := by
      rw [add_comm, add_mul_div_right _ _ hpos, div_eq_of_lt hplt, zero_add]
    refine ⟨by rw [hdiv], ?_⟩
    rw [add_comm, add_mul_mod_self_right, mod_eq_of_lt hplt]
  unfold RunAt
  rw [hbase.1, hbase.2]
  exact hr

section Loop

variable {iscancel : Nat → Bool} {start siz : Nat} {cgp : Cg}

/-- What `mapsearch` finds: a run of exactly `siz` fragments, and only the rotor has moved. -/
def Found (L : Layout) (siz : Nat) (cgp : Cg) (r : Option Nat × Cg) : Prop :=
  ∃ bno frotor, r = (some bno, { cgp with frotor := frotor }) ∧ RunAt L.g.frag cgp.blksfree siz bno

variable (hno : ∀ b, iscancel b = false) (hone : 1 ≤ siz) (hle : siz ≤ L.g.frag)

def Named (L : Layout) (m : ByteMap) (siz k : Nat) : Prop :=
  fragtbl L.g.frag (m k).toNat &&& 1 <<< (siz - 1 + L.g.frag % nbby) ≠ 0

include hno hone hle in
lemma mapsearchLoop_scan {fuel first last : Nat} {secondtime : Bool} (hlt : first < last) :
    Found L siz cgp (mapsearchLoop L iscancel c start siz (fuel + 1) first last secondtime cgp) ∨
      (∀ k, first ≤ k → k < last → ¬Named L cgp.blksfree siz k) ∧
        mapsearchLoop L iscancel c start siz (fuel + 1) first last secondtime cgp =
          if secondtime then (none, cgp) else mapsearchLoop L iscancel c start siz fuel 0 (start + 1) true cgp := by
  rw [mapsearchLoop, if_pos hlt]
  dsimp only
  generalize hloc : scanc (fragtbl L.g.frag) cgp.blksfree (1 <<< (siz - 1 + L.g.frag % nbby)) (last - first) first = loc
  by_cases hz : loc = 0
  · right
    rw [if_neg (not_not.mpr hz)]
    refine ⟨fun k hk hkl => ?_, rfl⟩
    rw [hz] at hloc
    exact not_not.mpr (scanc_miss hloc hk (by omega))
  · left
    have hhit := scanc_hit (hloc ▸ hz)
    rw [hloc, show first + (last - first) - loc = last - loc by omega] at hhit
    rw [if_pos hz, hno, if_pos (by rfl)]
    exact ⟨_, _, rfl, siftByte_run L.g.fragSize hone hle hhit⟩

include hno hone hle in
lemma mapsearch_spec (hrotor : cgp.frotor < L.fpg) (bpref : Nat) :
    Found L siz cgp (mapsearch L iscancel c bpref siz cgp) ∨
      (∀ k, k < howmany L.fpg nbby → ¬Named L cgp.blksfree siz k) ∧
        mapsearch L iscancel c bpref siz cgp = (none, cgp) := by
  have hstart : ∀ x, x < L.fpg → x / nbby < howmany L.fpg nbby := by
    intro x hx
    rw [lt_howmany (by decide)]
    exact lt_of_le_of_lt (div_mul_le_self x nbby) hx
  have hbegin : (if bpref ≠ 0 then L.dtogd bpref / nbby else cgp.frotor / nbby) < howmany L.fpg nbby := by
    split
    · exact hstart _ (mod_lt _ L.fpg_pos)
    · exact hstart _ hrotor
  unfold mapsearch
  generalize (if bpref ≠ 0 then L.dtogd bpref / nbby else cgp.frotor / nbby) = start at hbegin ⊢
  rcases mapsearchLoop_scan
    hno hone hle hbegin with hfound | ⟨hfirst, heq⟩
  · exact Or.inl hfound
  rw [heq, if_neg Bool.false_ne_true]
  rcases mapsearchLoop_scan
    hno hone hle (succ_pos start) with hfound | ⟨hsecond, heq'⟩
  · exact Or.inl hfound
  · refine Or.inr ⟨fun k hk => ?_, ?_⟩
    · rcases lt_or_ge k start with hks | hks
      · exact hsecond k (zero_le k) (by omega)
      · exact hfirst k hks hk
    · rw [heq', if_pos rfl]

end Loop

lemma named_of_isRun {siz b pos : Nat} (hone : 1 ≤ siz) (hle : siz ≤ L.g.frag)
    (hrun : IsRun L.g.frag (L.bits m b) siz pos) : Named L m siz (b * L.g.frag / nbby) := by
  have hf := L.g.fragSize
  have hpos := hf.pos
  obtain ⟨n, hn⟩ := hf.dvd
  have hnpos : 0 < n := by
    apply pos_of_ne_zero
    rintro rfl
    omega
  have hdiv : nbby / L.g.frag = n := by
    unfold nbby
    rw [hn, Nat.mul_div_cancel_left n hpos]
  have hsplit : b * L.g.frag = b / n * 8 + b % n * L.g.frag := by
    rw [hn, ← mul_assoc, mul_right_comm, ← add_mul, mul_comm (b / n), div_add_mod]
  have hmod : b * L.g.frag % 8 = b % n * L.g.frag % 8 := by omega
  refine (fragtbl_iff_isRun L.g.frag hf (m (b * L.g.frag / nbby)) siz hle hone).mpr ⟨b % n, ?_, pos, ?_, ?_⟩
  · rw [hdiv]
    exact mod_lt b hnpos
  · have := hrun.1
    omega
  · unfold blkbits
    rw [← show b * L.g.frag % nbby = b % n * L.g.frag % nbby from hmod]
    exact hrun

theorem mapsearch_found {iscancel : Nat → Bool} {siz b pos : Nat} {cgp : Cg} (hno : ∀ x, iscancel x = false)
    (hone : 1 ≤ siz) (hle : siz ≤ L.g.frag) (hrotor : cgp.frotor < L.fpg) (hb : b < L.blocks)
    (hrun : IsRun L.g.frag (L.bits cgp.blksfree b) siz pos) (bpref : Nat) :
    Found L siz cgp (mapsearch L iscancel c bpref siz cgp) := by
  rcases mapsearch_spec hno hone hle hrotor bpref with hfound | ⟨hnone, -⟩
  · exact hfound
  refine absurd (named_of_isRun hone hle hrun) (hnone _ ?_)
  rw [lt_howmany (by decide)]
  have hmul : b * L.g.frag < L.fpg := by
    rw [← blocks_mul L]
    exact mul_lt_mul_of_pos_right hb L.g.fragSize.pos
  exact lt_of_le_of_lt (div_mul_le_self _ _) hmul

end Solaris.Ufs
