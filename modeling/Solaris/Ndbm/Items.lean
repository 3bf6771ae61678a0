import Solaris.Ndbm.Page
import Solaris.Lib.Chain

/-!
# The items of a page

A page holds a list of items when its table and its bytes say so and the table stays clear of the items.
-/

namespace Solaris.Ndbm

open Lib List Nat

section Memory

variable {buf : Block} {i j v a n d : Nat}

lemma sp_setSp_self (hv : v < 65536) : sp (setSp buf i v) i = v := by
  have h1 : (BitVec.ofNat 8 (v / 256)).toNat = v / 256 := by
    exact mod_eq_of_lt (by omega)
  have h2 : (BitVec.ofNat 8 v).toNat = v % 256 := BitVec.toNat_ofNat ..
  simp only [sp, setSp, if_true]
  rw [if_neg (by omega), h1, h2]
  omega

lemma sp_setSp_ne (hij : j ≠ i) : sp (setSp buf i v) j = sp buf j := by
  simp only [sp, setSp]
  rw [if_neg (by omega), if_neg (by omega), if_neg (by omega), if_neg (by omega)]

lemma setSp_above (hj : 2 * i + 1 < j) : setSp buf i v j = buf j := by
  simp only [setSp]
  rw [if_neg (by omega), if_neg (by omega)]

lemma sp_congr {buf' : Block} (h : ∀ j, j < a → buf' j = buf j) (hi : 2 * i + 1 < a) : sp buf' i = sp buf i := by
  simp only [sp]
  rw [h _ (by omega), h _ (by omega)]

lemma length_bytesAt (buf : Block) (a n : Nat) : (bytesAt buf a n).length = n := by simp [bytesAt]

lemma bytesAt_congr {buf' : Block} {a' : Nat} (h : ∀ j, j < n → buf' (a' + j) = buf (a + j)) :
    bytesAt buf' a' n = bytesAt buf a n := by
  unfold bytesAt
  refine map_congr_left ?_
  intro j hj
  exact h j (mem_range.mp hj)

lemma bytesAt_copyTo (buf : Block) (a : Nat) (bs : Bytes) : bytesAt (copyTo buf a bs) a bs.length = bs := by
  refine ext_getElem (length_bytesAt ..) ?_
  intro j hj hj'
  simp [bytesAt, copyTo, hj']

lemma copyTo_below {bs : Bytes} (hj : j < a) : copyTo buf a bs j = buf j := by
  simp only [copyTo]
  rw [if_neg (by omega)]

lemma copyTo_above {bs : Bytes} (hj : a + bs.length ≤ j) : copyTo buf a bs j = buf j := by
  simp only [copyTo]
  rw [if_neg (by omega)]

lemma moveUp_zero (buf : Block) (a n : Nat) : moveUp buf a n 0 = buf := by
  funext j
  simp [moveUp]

lemma moveUp_outside (hj : j < a + d ∨ a + d + n ≤ j) : moveUp buf a n d j = buf j := by
  simp only [moveUp]
  rw [if_neg (by omega)]

lemma moveUp_inside (hlo : a ≤ j) (hhi : j < a + n) : moveUp buf a n d (j + d) = buf j := by
  simp only [moveUp]
  rw [if_pos (by omega), Nat.add_sub_cancel]

end Memory

section Table

variable {buf : Block} {i1 n m j : Nat}

lemma shiftTable_above (hj : 2 * (m + n) ≤ j) : shiftTable i1 n m buf j = buf j := by
  induction n generalizing m buf with
  | zero => rfl
  | succ n ih =>
    rw [shiftTable, ih (by omega), setSp_above (by omega)]

lemma sp_shiftTable_below (hj : j < m) : sp (shiftTable i1 n m buf) j = sp buf j := by
  induction n generalizing m buf with
  | zero => rfl
  | succ n ih => rw [shiftTable, ih (by omega), sp_setSp_ne (by omega)]

lemma sp_shiftTable (hbound : ∀ j, m ≤ j → j < m + n → sp buf (j + 2) + i1 < 65536) (hlo : m ≤ j) (hhi : j < m + n) :
    sp (shiftTable i1 n m buf) j = sp buf (j + 2) + i1 := by
  induction n generalizing m buf with
  | zero => omega
  | succ n ih =>
    rw [shiftTable]
    rcases eq_or_lt_of_le hlo with rfl | hlt
    · rw [sp_shiftTable_below (by omega), sp_setSp_self (hbound m le_rfl (by omega))]
    · have hb : ∀ j, m + 1 ≤ j → j < m + 1 + n → sp (setSp buf m (sp buf (m + 2) + i1)) (j + 2) + i1 < 65536 := by
        intro j h1 h2
        rw [sp_setSp_ne (by omega)]
        exact hbound j (by omega) (by omega)
      rw [ih hb (by omega) (by omega), sp_setSp_ne (by omega)]

end Table

section Pages

def size (l : List Bytes) : Nat := (l.map List.length).sum

@[simp] lemma size_nil : size [] = 0 := rfl

@[simp] lemma size_cons (x : Bytes) (l : List Bytes) : size (x :: l) = x.length + size l := by simp [size]

@[simp] lemma size_append (l l' : List Bytes) : size (l ++ l') = size l + size l' := by simp [size]

structure PageOf (buf : Block) (l : List Bytes) : Prop where
  count : sp buf 0 = l.length
  offset : ∀ pre x post, l = pre ++ x :: post → sp buf (pre.length + 1) + size (pre ++ [x]) = PBLKSIZ
  bytes : ∀ pre x post, l = pre ++ x :: post → bytesAt buf (sp buf (pre.length + 1)) x.length = x
  room : 2 * (l.length + 1) + size l < PBLKSIZ

lemma pageOf_zeroBlock : PageOf zeroBlock [] := by
  refine ⟨rfl, ?_, ?_, by decide⟩
  · intro pre x post h
    simp at h
  · intro pre x post h
    simp at h

variable {buf : Block} {l pre post : List Bytes} {x : Bytes}

lemma PageOf.top (h : PageOf buf l) (hl : l = pre ++ post) :
    (if pre.length > 0 then sp buf pre.length else PBLKSIZ) + size pre = PBLKSIZ := by
  rcases eq_nil_or_concat' pre with rfl | ⟨init, x, rfl⟩
  · rfl
  · have := h.offset init x post (by rw [hl, append_assoc, singleton_append])
    simpa using this

lemma PageOf.makdatum (h : PageOf buf l) (hl : l = pre ++ x :: post) : Ndbm.makdatum buf pre.length = some x := by
  have htop := h.top hl
  have hoff := h.offset pre x post hl
  have hlen : ¬pre.length ≥ sp buf 0 := by
    rw [h.count, hl]
    simp
  simp only [size_append, size_cons, size_nil] at hoff
  unfold Ndbm.makdatum
  rw [if_neg hlen]
  dsimp only
  have hdiff : (if pre.length > 0 then sp buf pre.length else PBLKSIZ) - sp buf (pre.length + 1) = x.length := by omega
  rw [hdiff, h.bytes pre x post hl]

lemma PageOf.makdatum_end (h : PageOf buf l) {n : Nat} (hn : l.length ≤ n) : Ndbm.makdatum buf n = none := by
  unfold Ndbm.makdatum
  rw [if_pos (by rw [h.count]; exact hn)]

theorem PageOf.match_iff (h : PageOf buf l) (hl : l = pre ++ x :: post) (item : Bytes) {n : Nat}
    (hn : n + size pre = PBLKSIZ) :
    (n = sp buf (pre.length + 1) + item.length ∧
      (item.length = 0 ∨ bytesAt buf (sp buf (pre.length + 1)) item.length = item)) ↔ x = item := by
  have hoff := h.offset pre x post hl
  have hbytes := h.bytes pre x post hl
  simp only [size_append, size_cons, size_nil] at hoff
  constructor
  · rintro ⟨hlen, heq⟩
    have hxl : x.length = item.length := by omega
    rcases heq with hz | heq
    · rw [length_eq_zero_iff.mp hz, length_eq_zero_iff.mp (hxl.trans hz)]
    · rw [← hxl] at heq
      exact hbytes.symm.trans heq
  · rintro rfl
    exact ⟨by omega, .inr hbytes⟩

end Pages

section Changes

variable {buf : Block} {l pre post : List Bytes} {k d : Bytes}

lemma PageOf.low (h : PageOf buf l) (hne : l ≠ []) : sp buf l.length + size l = PBLKSIZ := by
  have := h.top (append_nil l).symm
  rwa [if_pos (length_pos_iff.mpr hne)] at this

lemma PageOf.dropLast (h : PageOf buf (pre ++ [k, d])) : PageOf (setSp buf 0 pre.length) pre := by
  have hroom := h.room
  simp only [length_append, length_cons, length_nil, size_append, size_cons, size_nil] at hroom
  have hsp : ∀ i, sp (setSp buf 0 pre.length) (i + 1) = sp buf (i + 1) := fun i => sp_setSp_ne (succ_ne_zero i)
  have hpb : PBLKSIZ = 1024 := rfl
  refine ⟨sp_setSp_self (by omega), ?_, ?_, by omega⟩
  · intro a x c hl
    exact h.offset a x (c ++ [k, d]) (by rw [hl, append_assoc, cons_append])
  · intro a x c hl
    have hl' : pre ++ [k, d] = a ++ x :: (c ++ [k, d]) := by rw [hl, append_assoc, cons_append]
    have hoff := h.offset a x _ hl'
    rw [hsp, ← h.bytes a x _ hl']
    have hsize : size (a ++ [x]) ≤ size pre := by
      rw [hl]
      simp
    rw [length_bytesAt]
    refine bytesAt_congr ?_
    intro j hj
    exact setSp_above (by omega)

/-- A pair before others goes: the items behind it move up, and so do their entries in the table. -/
theorem PageOf.dropMiddle (h : PageOf buf (pre ++ k :: d :: post)) :
    PageOf (shiftTable (k.length + d.length) post.length (pre.length + 1)
      (setSp (moveUp buf (sp buf (pre ++ k :: d :: post).length) (size post) (k.length + d.length)) 0
        (pre ++ post).length)) (pre ++ post) := by
  have hroom := h.room
  have hlow := h.low (by simp)
  simp only [length_append, length_cons, size_append, size_cons] at hroom hlow ⊢
  have hpb : PBLKSIZ = 1024 := rfl
  set low := sp buf (pre.length + (post.length + 1 + 1)) with hlowdef
  set moved := moveUp buf low (size post) (k.length + d.length) with hmoved
  have hbelow : ∀ j, j < low → moved j = buf j := fun j hj => moveUp_outside (by omega)
  have hspm : ∀ i, i ≠ 0 → i ≤ pre.length + post.length + 2 →
      sp (setSp moved 0 (pre.length + post.length)) i = sp buf i := by
    intro i hi hle
    rw [sp_setSp_ne hi]
    exact sp_congr hbelow (by omega)
  -- the entries of the items behind the pair
  have hoffpost : ∀ c x e, post = c ++ x :: e →
      sp buf (pre.length + c.length + 1 + 2) + (size pre + (k.length + d.length) + size c + x.length) = PBLKSIZ := by
    intro c x e hp
    have := h.offset (pre ++ k :: d :: c) x e (by rw [hp]; simp)
    simp only [length_append, length_cons, size_append, size_cons, size_nil] at this
    rw [show pre.length + (c.length + 1 + 1) + 1 = pre.length + c.length + 1 + 2 by omega] at this
    omega
  have hnth : ∀ j, pre.length + 1 ≤ j → j < pre.length + 1 + post.length → ∃ c x e, post = c ++ x :: e ∧
      j = pre.length + c.length + 1 := by
    intro j h1 h2
    have hlt : j - (pre.length + 1) < post.length := by omega
    refine ⟨post.take (j - (pre.length + 1)), post[j - (pre.length + 1)], post.drop (j - (pre.length + 1) + 1), ?_, ?_⟩
    · rw [← drop_eq_getElem_cons hlt, take_append_drop]
    · rw [length_take]
      omega
  have hbound : ∀ j, pre.length + 1 ≤ j → j < pre.length + 1 + post.length →
      sp (setSp moved 0 (pre.length + post.length)) (j + 2) + (k.length + d.length) < 65536 := by
    intro j h1 h2
    obtain ⟨c, x, e, hp, rfl⟩ := hnth j h1 h2
    have := hoffpost c x e hp
    rw [hspm _ (by omega) (by omega)]
    omega
  refine ⟨?_, ?_, ?_, by simp only [length_append, size_append]; omega⟩
  · rw [sp_shiftTable_below (by omega), sp_setSp_self (by omega), length_append]
  · intro a x c hl
    rcases append_cons_eq_append hl.symm with ⟨e, rfl, hp⟩ | ⟨e, rfl, rfl⟩
    · have := hoffpost e x c hp
      have hlenp : post.length = e.length + c.length + 1 := by
        rw [hp]
        simp
        omega
      rw [length_append, sp_shiftTable hbound (by omega) (by omega), hspm _ (by omega) (by omega)]
      simp only [size_append, size_cons, size_nil]
      omega
    · rw [sp_shiftTable_below (by simp), hspm _ (by omega) (by simp; omega)]
      exact h.offset a x (e ++ k :: d :: post) (by simp)
  · intro a x c hl
    rcases append_cons_eq_append hl.symm with ⟨e, rfl, hp⟩ | ⟨e, rfl, rfl⟩
    · have hoff := hoffpost e x c hp
      have hlenp : post.length = e.length + c.length + 1 := by
        rw [hp]
        simp
        omega
      have hsizep : size post = size e + (x.length + size c) := by
        rw [hp]
        simp
      rw [length_append, sp_shiftTable hbound (by omega) (by omega), hspm _ (by omega) (by omega)]
      have hb := h.bytes (pre ++ k :: d :: e) x c (by rw [hp]; simp)
      simp only [length_append, length_cons] at hb
      refine Eq.trans ?_ hb
      refine bytesAt_congr ?_
      intro j hj
      rw [shiftTable_above (by omega), setSp_above (by omega), hmoved,
        show sp buf (pre.length + e.length + 1 + 2) + (k.length + d.length) + j =
          sp buf (pre.length + e.length + 1 + 2) + j + (k.length + d.length) by omega]
      exact moveUp_inside (by omega) (by omega)
    · have hl' : a ++ x :: e ++ k :: d :: post = a ++ x :: (e ++ k :: d :: post) := by simp
      have hoff := h.offset a x _ hl'
      simp only [length_append, length_cons, size_append, size_cons, size_nil] at hoff hlow hroom
      rw [sp_shiftTable_below (by simp), hspm _ (by omega) (by simp; omega)]
      refine Eq.trans ?_ (h.bytes a x _ hl')
      refine bytesAt_congr ?_
      intro j hj
      simp only [length_append, length_cons]
      rw [shiftTable_above (by omega), setSp_above (by omega), hmoved]
      exact moveUp_outside (by simp only [length_append, length_cons] at hlowdef; omega)

lemma PageOf.delitem (h : PageOf buf (pre ++ k :: d :: post)) (heven : pre.length % 2 = 0) :
    ∃ buf', Ndbm.delitem buf pre.length = some buf' ∧ PageOf buf' (pre ++ post) := by
  have hcount := h.count
  have hlen : (pre ++ k :: d :: post).length = pre.length + post.length + 2 := by
    simp
    omega
  unfold Ndbm.delitem
  rw [hcount, hlen, if_neg (by omega)]
  cases post with
  | nil =>
    rw [if_pos (by simp)]
    refine ⟨_, rfl, ?_⟩
    have := h.dropLast
    simpa using this
  | cons y post =>
    rw [if_neg (by simp)]
    refine ⟨_, rfl, ?_⟩
    have htop := h.top rfl
    have hd := h.offset (pre ++ [k]) d (y :: post) (by simp)
    have hlow := h.low (by simp)
    rw [hlen] at hlow
    simp only [length_append, length_cons, length_nil, size_append, size_cons, size_nil] at hd hlow htop
    have hi1 : (if pre.length > 0 then sp buf pre.length else PBLKSIZ) - sp buf (pre.length + 2) = k.length + d.length := by
      rw [show pre.length + (0 + 1) + 1 = pre.length + 2 by omega] at hd
      omega
    have hmove : sp buf (pre.length + 2) - sp buf (pre.length + (y :: post).length + 2) = size (y :: post) := by
      rw [show pre.length + (0 + 1) + 1 = pre.length + 2 by omega] at hd
      simp only [size_cons, length_cons]
      omega
    rw [hi1, hmove]
    have hsame : (if k.length + d.length > 0 then
        moveUp buf (sp buf (pre.length + (y :: post).length + 2)) (size (y :: post)) (k.length + d.length) else buf) =
        moveUp buf (sp buf (pre.length + (y :: post).length + 2)) (size (y :: post)) (k.length + d.length) := by
      split
      · rfl
      · rw [show k.length + d.length = 0 by omega, moveUp_zero]
    rw [hsame]
    have := h.dropMiddle
    rw [hlen, length_append] at this
    have hn : pre.length + (y :: post).length + 2 - 2 - pre.length = (y :: post).length := by omega
    rw [hn, Nat.add_sub_cancel]
    exact this

def Fits (l : List Bytes) (k d : Bytes) : Prop := 2 * (l.length + 3) + size l + (k.length + d.length) < PBLKSIZ

lemma PageOf.additem_none (h : PageOf buf l) (hfit : ¬Fits l k d) : Ndbm.additem buf k d = none := by
  have htop := h.top (append_nil l).symm
  unfold Ndbm.additem Fits at *
  rw [h.count, if_pos (by omega)]

/-- A split of a list with a new pair is one of the old list, or stands at the key or at the data. -/
theorem append_pair_cases {a c : List Bytes} {x : Bytes} (hl : l ++ [k, d] = a ++ x :: c) :
    (∃ c', l = a ++ x :: c') ∨ (a = l ∧ x = k) ∨ (a = l ++ [k] ∧ x = d) := by
  rcases append_cons_eq_append hl.symm with ⟨e, rfl, hp⟩ | ⟨e, rfl, -⟩
  · cases e with
    | nil =>
      obtain ⟨rfl, -⟩ := cons.inj hp
      exact .inr (.inl ⟨append_nil l, rfl⟩)
    | cons y e =>
      obtain ⟨rfl, hp'⟩ := cons.inj hp
      cases e with
      | nil =>
        obtain ⟨rfl, -⟩ := cons.inj hp'
        exact .inr (.inr ⟨rfl, rfl⟩)
      | cons z e => simp at hp'
  · exact .inl ⟨e, rfl⟩

lemma PageOf.additem (h : PageOf buf l) (hfit : Fits l k d) :
    ∃ buf', Ndbm.additem buf k d = some buf' ∧ PageOf buf' (l ++ [k, d]) := by
  have htop := h.top (append_nil l).symm
  have hpb : PBLKSIZ = 1024 := rfl
  unfold Fits at hfit
  unfold Ndbm.additem
  rw [h.count, if_neg (by omega)]
  refine ⟨_, rfl, ?_⟩
  set top := if l.length > 0 then sp buf l.length else PBLKSIZ with htopdef
  set i1 := top - (k.length + d.length) with hi1
  set b1 := setSp (setSp buf 0 (l.length + 2)) (l.length + 1) (i1 + d.length) with hb1
  set b2 := copyTo b1 (i1 + d.length) k with hb2
  set b3 := setSp b2 (l.length + 2) i1 with hb3
  -- the table of the new page
  have hcopy : ∀ i, i ≤ l.length + 2 → sp (copyTo b3 i1 d) i = sp b3 i := by
    intro i hi
    exact sp_congr (fun j hj => copyTo_below hj) (by omega)
  have hcopy2 : ∀ i, i ≤ l.length + 2 → sp b2 i = sp b1 i := by
    intro i hi
    refine sp_congr (a := i1) (fun j hj => copyTo_below ?_) (by omega)
    omega
  have hold : ∀ i, i ≠ 0 → i ≤ l.length → sp (copyTo b3 i1 d) i = sp buf i := by
    intro i hi hle
    rw [hcopy i (by omega), hb3, sp_setSp_ne (by omega), hcopy2 i (by omega), hb1, sp_setSp_ne (by omega), sp_setSp_ne hi]
  have hzero : sp (copyTo b3 i1 d) 0 = l.length + 2 := by
    rw [hcopy 0 (by omega), hb3, sp_setSp_ne (by omega), hcopy2 0 (by omega), hb1, sp_setSp_ne (by omega),
      sp_setSp_self (by omega)]
  have hkey : sp (copyTo b3 i1 d) (l.length + 1) = i1 + d.length := by
    rw [hcopy _ (by omega), hb3, sp_setSp_ne (by omega), hcopy2 _ (by omega), hb1, sp_setSp_self (by omega)]
  have hdat : sp (copyTo b3 i1 d) (l.length + 2) = i1 := by
    rw [hcopy _ (by omega), hb3, sp_setSp_self (by omega)]
  refine ⟨?_, ?_, ?_, ?_⟩
  · rw [hzero]
    simp
  · intro a x c hl
    rcases append_pair_cases hl with ⟨c', hl'⟩ | ⟨rfl, rfl⟩ | ⟨rfl, rfl⟩
    · rw [hold _ (by omega) (by rw [hl']; simp)]
      exact h.offset a x c' hl'
    · rw [hkey]
      simp only [size_append, size_cons, size_nil]
      omega
    · rw [length_append, length_singleton, hdat]
      simp only [size_append, size_cons, size_nil]
      omega
  · intro a x c hl
    rcases append_pair_cases hl with ⟨c', hl'⟩ | ⟨rfl, rfl⟩ | ⟨rfl, rfl⟩
    · have hoff := h.offset a x c' hl'
      have hsize : size (a ++ [x]) ≤ size l := by
        rw [hl']
        simp
      rw [hold _ (by omega) (by rw [hl']; simp)]
      refine Eq.trans ?_ (h.bytes a x c' hl')
      refine bytesAt_congr ?_
      intro j hj
      rw [copyTo_above (by omega), hb3, setSp_above (by omega), hb2, copyTo_above (by omega), hb1, setSp_above (by omega),
        setSp_above (by omega)]
    · rw [hkey]
      refine Eq.trans ?_ (bytesAt_copyTo b1 (i1 + d.length) x)
      refine bytesAt_congr ?_
      intro j hj
      rw [copyTo_above (by omega), hb3, setSp_above (by omega)]
    · rw [length_append, length_singleton, hdat]
      exact bytesAt_copyTo b3 i1 x
  · simp only [length_append, length_cons, length_nil, size_append, size_cons, size_nil]
    omega

end Changes

section Pairs

abbrev Pairs := List (Bytes × Bytes)

def flat : Pairs → List Bytes
  | [] => []
  | kv :: ps => kv.1 :: kv.2 :: flat ps

@[simp] lemma length_flat (ps : Pairs) : (flat ps).length = 2 * ps.length := by
  induction ps with
  | nil => rfl
  | cons kv ps ih =>
    simp only [flat, length_cons, ih]
    omega

@[simp] lemma flat_append (ps ps' : Pairs) : flat (ps ++ ps') = flat ps ++ flat ps' := by
  induction ps with
  | nil => rfl
  | cons kv ps ih => simp [flat, ih]

variable {buf : Block} {ps pre post : Pairs} {key dat : Bytes}

theorem PageOf.findLoop (h : PageOf buf (flat ps)) (pre rest : Pairs) (hps : ps = pre ++ rest) (fuel n : Nat)
    (hn : n + size (flat pre) = PBLKSIZ) (hfuel : rest.length < fuel) :
    (Ndbm.findLoop buf key fuel (2 * pre.length) n = none ∧ ∀ kv ∈ rest, kv.1 ≠ key) ∨
      ∃ a v c, ps = a ++ (key, v) :: c ∧ Ndbm.findLoop buf key fuel (2 * pre.length) n = some (2 * a.length) := by
  induction rest generalizing pre fuel n with
  | nil =>
    left
    cases fuel with
    | zero => exact ⟨rfl, by simp⟩
    | succ fuel =>
      rw [Ndbm.findLoop, h.count, length_flat, hps, if_neg (by simp)]
      exact ⟨rfl, by simp⟩
  | cons kv rest ih =>
    cases fuel with
    | zero => omega
    | succ fuel =>
      have hl : flat ps = flat pre ++ kv.1 :: (kv.2 :: flat rest) := by rw [hps, flat_append, flat]
      have hiff := h.match_iff hl key hn
      rw [length_flat] at hiff
      rw [Ndbm.findLoop, h.count, length_flat, if_pos (by rw [hps]; simp)]
      by_cases heq : kv.1 = key
      · rw [if_pos (hiff.mpr heq)]
        right
        refine ⟨pre, kv.2, rest, ?_, rfl⟩
        rw [hps, ← heq]
      rw [if_neg (mt hiff.mp heq)]
      have hd := h.offset (flat pre ++ [kv.1]) kv.2 (flat rest) (by rw [hl]; simp)
      have hps' : ps = (pre ++ [kv]) ++ rest := by rw [hps, append_assoc, singleton_append]
      have hn' : sp buf (2 * pre.length + 2) + size (flat (pre ++ [kv])) = PBLKSIZ := by
        simpa [flat, add_assoc] using hd
      have hlen : 2 * (pre ++ [kv]).length = 2 * pre.length + 2 := by
        simp
        omega
      have hrest := ih (pre ++ [kv]) hps' fuel _ hn' (by simpa using hfuel)
      rw [hlen] at hrest
      rcases hrest with ⟨hnone, hall⟩ | hsome
      · refine .inl ⟨hnone, ?_⟩
        exact forall_mem_cons.mpr ⟨heq, hall⟩
      · exact .inr hsome

theorem PageOf.finddatum (h : PageOf buf (flat ps)) (key : Bytes) :
    (Ndbm.finddatum buf key = none ∧ ∀ kv ∈ ps, kv.1 ≠ key) ∨
      ∃ pre v post, ps = pre ++ (key, v) :: post ∧ Ndbm.finddatum buf key = some (2 * pre.length) := by
  cases ps with
  | nil =>
    left
    unfold Ndbm.finddatum
    rw [h.count]
    exact ⟨rfl, by simp⟩
  | cons kv ps =>
    exact h.findLoop [] (kv :: ps) rfl (sp buf 0) PBLKSIZ rfl (by rw [h.count, length_flat]; simp)

section

variable (h : PageOf buf (flat (pre ++ (key, dat) :: post)))

include h

lemma PageOf.makdatum_key : Ndbm.makdatum buf (2 * pre.length) = some key := by
  have := h.makdatum (by rw [flat_append, flat])
  rwa [length_flat] at this

lemma PageOf.makdatum_dat : Ndbm.makdatum buf (2 * pre.length + 1) = some dat := by
  have hl : flat (pre ++ (key, dat) :: post) = (flat pre ++ [key]) ++ dat :: flat post := by
    rw [flat_append, flat]
    simp
  have := h.makdatum hl
  rwa [length_append, length_flat, length_singleton] at this

lemma PageOf.delete : ∃ buf', Ndbm.delitem buf (2 * pre.length) = some buf' ∧ PageOf buf' (flat (pre ++ post)) := by
  rw [flat_append, flat] at h
  have := h.delitem (by rw [length_flat]; omega)
  rwa [length_flat, ← flat_append] at this

end

lemma PageOf.add (h : PageOf buf (flat ps)) (hfit : Fits (flat ps) key dat) :
    ∃ buf', Ndbm.additem buf key dat = some buf' ∧ PageOf buf' (flat (ps ++ [(key, dat)])) := by
  have := h.additem hfit
  rwa [show flat ps ++ [key, dat] = flat (ps ++ [(key, dat)]) by rw [flat_append]; rfl] at this

end Pairs

end Solaris.Ndbm
