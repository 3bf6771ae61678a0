import Solaris.Blocks.Count
import Mathlib.Data.List.TakeWhile

/-!
# Messages

A message is the list of its blocks along `b_cont`. Its leading blocks are those of the type of the first one.
-/

namespace Solaris.Blocks

open List Function Nat Option

/-- The `db_type` that a message block refers to. -/
def typeOf (h : Heap) (b : Mblk) : Option (BitVec 8) := (h b.bDatap).map Dblk.dbType

def view (h : Heap) (b : Mblk) : Option (BitVec 8 × (Nat → UInt8)) := (h b.bDatap).map fun dbp => (dbp.dbType, dbp.data)

def size (b : Mblk) : Nat := b.bWptr - b.bRptr

def bytes (h : Heap) (b : Mblk) : List UInt8 :=
  match h b.bDatap with
  | none => []
  | some dbp => (List.range' b.bRptr (size b)).map dbp.data

/-- The blocks of the type of the first one, and the blocks behind them. -/
def leading (h : Heap) (m : List Mblk) : List Mblk := m.takeWhile fun b => typeOf h b = m.head?.bind (typeOf h)

def others (h : Heap) (m : List Mblk) : List Mblk := m.dropWhile fun b => typeOf h b = m.head?.bind (typeOf h)

def leadingBytes (h : Heap) (m : List Mblk) : List UInt8 := (leading h m).flatMap (bytes h)

/-- Pointers within the address space, in order, and their difference an `int`. -/
structure WellFormed (b : Mblk) : Prop where
  order : b.bRptr ≤ b.bWptr
  below : b.bWptr < 2 ^ 32
  short : b.bWptr < b.bRptr + 2 ^ 31

def xmsgsizeFrom (h : Heap) (type : Option (BitVec 8)) : List Mblk → Nat
  | [] => 0
  | bp :: rest => if type ≠ typeOf h bp then 0 else (size bp + xmsgsizeFrom h type rest) % 2 ^ 32

def xmsgsize (h : Heap) (m : List Mblk) : Nat := xmsgsizeFrom h (m.head?.bind (typeOf h)) m

variable {h h' : Heap} {b c mp : Mblk} {m m' run rest : List Mblk} {t : Option (BitVec 8)} {n : Nat}

lemma typeOf_view (hv : view h' b = view h b) : typeOf h' b = typeOf h b := by
  have := congrArg (Option.map Prod.fst) hv
  simpa [view, typeOf, comp_def] using this

lemma bytes_view (hv : view h' b = view h b) : bytes h' b = bytes h b := by
  unfold view at hv
  unfold bytes
  cases hd : h b.bDatap with
  | none =>
    rw [hd, map_none, map_eq_none_iff] at hv
    rw [hv]
  | some dbp =>
    rw [hd, map_some, map_eq_some_iff] at hv
    obtain ⟨dbp', hd', heq⟩ := hv
    rw [hd']
    dsimp only
    rw [(Prod.mk.inj heq).2]

lemma flatMap_view (hv : ∀ b ∈ m, view h' b = view h b) : m.flatMap (bytes h') = m.flatMap (bytes h) :=
  flatMap_congr fun b hb => bytes_view (hv b hb)

lemma bytes_length (hd : (h b.bDatap).isSome) : (bytes h b).length = size b := by
  obtain ⟨dbp, hd⟩ := isSome_iff_exists.mp hd
  unfold bytes
  rw [hd]
  simp

lemma bytes_forward (n : Nat) : bytes h { b with bRptr := b.bRptr + n } = (bytes h b).drop n := by
  unfold bytes
  cases h b.bDatap with
  | none => rw [drop_nil]
  | some dbp =>
    have hsize : size { b with bRptr := b.bRptr + n } = size b - n := by
      unfold size
      dsimp only
      omega
    rw [hsize, ← map_drop, drop_range', mul_one]

lemma bytes_back (n : Nat) : bytes h { b with bWptr := b.bWptr - n } = (bytes h b).take (size b - n) := by
  unfold bytes
  cases h b.bDatap with
  | none => rw [take_nil]
  | some dbp =>
    have hsize : size { b with bWptr := b.bWptr - n } = size b - n := by
      unfold size
      dsimp only
      omega
    rw [hsize, ← map_take, take_range'_of_length_ge (sub_le _ _)]

lemma takeWhile_run (ht : ∀ b ∈ run, typeOf h b = t) (hrest : ∀ b, rest.head? = some b → typeOf h b ≠ t) :
    (run ++ rest).takeWhile (fun b => typeOf h b = t) = run ∧ (run ++ rest).dropWhile (fun b => typeOf h b = t) = rest := by
  have ht' : ∀ b ∈ run, decide (typeOf h b = t) = true := by simpa using ht
  rw [takeWhile_append_of_pos ht', dropWhile_append_of_pos ht']
  cases rest with
  | nil => simp
  | cons c rest =>
    have hc : typeOf h c ≠ t := hrest c rfl
    rw [takeWhile_cons_of_neg (by simpa using hc), dropWhile_cons_of_neg (by simpa using hc), append_nil]
    exact ⟨rfl, rfl⟩

lemma leading_split (hrun : ∀ b ∈ run, typeOf h b = t) (hne : run ≠ []) (hrest : ∀ b, rest.head? = some b → typeOf h b ≠ t) :
    leading h (run ++ rest) = run ∧ others h (run ++ rest) = rest := by
  have hhead : (run ++ rest).head?.bind (typeOf h) = t := by
    cases run with
    | nil => exact absurd rfl hne
    | cons c run => exact hrun c mem_cons_self
  unfold leading others
  rw [hhead]
  exact takeWhile_run hrun hrest

lemma leading_append_others (h : Heap) (m : List Mblk) : leading h m ++ others h m = m := takeWhile_append_dropWhile

lemma drop_leading {k : Nat} (hk : k ≤ (leading h m).length) :
    m.drop k = (leading h m).drop k ++ others h m := by
  conv_lhs => rw [← leading_append_others h m]
  exact drop_append_of_le_length hk

lemma leading_type (hb : b ∈ leading h m) : typeOf h b = m.head?.bind (typeOf h) := by
  simpa using mem_takeWhile_imp (p := fun b => decide (typeOf h b = m.head?.bind (typeOf h))) hb

lemma leading_ne_nil (hne : m ≠ []) : leading h m ≠ [] := by
  cases m with
  | nil => exact absurd rfl hne
  | cons c m =>
    unfold leading
    simp

lemma others_head (hb : (others h m).head? = some b) : typeOf h b ≠ m.head?.bind (typeOf h) := by
  have := head?_dropWhile_not (fun b => decide (typeOf h b = m.head?.bind (typeOf h))) m
  unfold others at hb
  rw [hb] at this
  simpa using this

lemma flatMap_length (hd : ∀ b ∈ m, (h b.bDatap).isSome) : (m.flatMap (bytes h)).length = (m.map size).sum := by
  rw [length_flatMap]
  congr 1
  exact map_congr_left fun b hb => bytes_length (hd b hb)

lemma xmsgsizeFrom_eq (h : Heap) (t : Option (BitVec 8)) (m : List Mblk) :
    xmsgsizeFrom h t m = ((m.takeWhile fun b => typeOf h b = t).map size).sum % 2 ^ 32 := by
  induction m with
  | nil => rfl
  | cons b m ih =>
    unfold xmsgsizeFrom
    by_cases hb : typeOf h b = t
    · rw [if_neg (not_not.mpr hb.symm), takeWhile_cons_of_pos (by simpa using hb), map_cons, sum_cons, ih,
        add_mod_mod]
    · rw [if_pos (Ne.symm hb), takeWhile_cons_of_neg (by simpa using hb)]
      rfl

lemma leadingBytes_length (hd : ∀ b ∈ m, (h b.bDatap).isSome) :
    (leadingBytes h m).length = ((leading h m).map size).sum :=
  flatMap_length fun b hb => hd b ((takeWhile_sublist _).subset hb)

lemma xmsgsize_eq (hd : ∀ b ∈ m, (h b.bDatap).isSome) : xmsgsize h m = (leadingBytes h m).length % 2 ^ 32 := by
  rw [leadingBytes_length hd]
  exact xmsgsizeFrom_eq ..

lemma refs_congr (hm : m.map Mblk.bDatap = m'.map Mblk.bDatap) (d : Nat) : refs m d = refs m' d := by
  have hcount : ∀ l : List Mblk, refs l d = (l.map Mblk.bDatap).count d := by
    intro l
    rw [List.count, countP_map]
    exact countP_congr fun mp _ => by simp
  rw [hcount, hcount, hm]

lemma Counted.congr (hc : Counted h m) (hm : m'.map Mblk.bDatap = m.map Mblk.bDatap) : Counted h m' := by
  intro b hb
  obtain ⟨c, hcm, hcd⟩ := mem_map.mp (hm ▸ mem_map_of_mem hb : b.bDatap ∈ m.map Mblk.bDatap)
  rw [← hcd, refs_congr hm]
  exact hc c hcm

lemma Counted.perm (hc : Counted h m) (hp : m.Perm m') : Counted h m' := by
  intro b hb
  rw [← refs_perm hp]
  exact hc b (hp.mem_iff.mpr hb)

lemma Counted.sublist (hc : Counted h m) (hs : m'.Sublist m) : Counted h m' := by
  intro b hb
  obtain ⟨dbp, hd, hle, hfree⟩ := hc b (hs.subset hb)
  have hle' : refs m' b.bDatap ≤ refs m b.bDatap := hs.countP_le
  exact ⟨dbp, hd, by omega, hfree⟩

lemma Counted.isSome (hc : Counted h m) (hb : b ∈ m) : (h b.bDatap).isSome := by
  obtain ⟨dbp, hd, _⟩ := hc b hb
  rw [hd]
  rfl

lemma freeb_counted (hc : Counted h (b :: m)) :
    ∃ e h', freeb h b = some (e, h') ∧ Counted h' m ∧ ∀ c ∈ m, view h' c = view h c := by
  obtain ⟨dbp, hd, hle, hfree⟩ := hc b mem_cons_self
  rw [refs_cons, if_pos rfl] at hle
  have hm : Counted h m := hc.sublist (sublist_cons_self b m)
  by_cases hlast : dbp.dbRef.toNat = 1 + dbp.refmin
  · -- no other block of the message is on the data block
    have hgone : ∀ c ∈ m, c.bDatap ≠ b.bDatap := refs_eq_zero.mp (by omega)
    refine ⟨_, _, freeb_last hd (hfree.imp_right And.left) hlast, ?_, ?_⟩
    · intro c hcm
      obtain ⟨dbp', hd', hrest⟩ := hm c hcm
      exact ⟨dbp', by rw [update_of_ne (hgone c hcm), hd'], hrest⟩
    · intro c hcm
      unfold view
      rw [update_of_ne (hgone c hcm)]
  · have hdec : dbp.dbFree = .dblkDecref := hfree.resolve_right fun hno => hlast hno.2
    have hmore : dbp.refmin + 1 < dbp.dbRef.toNat := by omega
    have href := (free_more (a := b.addr) hdec hmore).2
    refine ⟨_, _, freeb_more hd hdec hmore, ?_, ?_⟩
    · intro c hcm
      obtain ⟨dbp', hd', hle', hfree'⟩ := hm c hcm
      by_cases hcd : c.bDatap = b.bDatap
      · rw [hcd, update_self]
        exact ⟨_, rfl, by change _ + dbp.refmin ≤ (dbp.dbRef - 1).toNat; omega, .inl hdec⟩
      · exact ⟨dbp', by rw [update_of_ne hcd, hd'], hle', hfree'⟩
    · intro c _
      unfold view
      by_cases hcd : c.bDatap = b.bDatap
      · rw [hcd, update_self, hd]
        rfl
      · rw [update_of_ne hcd]

end Solaris.Blocks
