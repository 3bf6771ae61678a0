import Solaris.Blocks.Adjust

/-!
# Pulling a message up

`pullupmsg` moves the first bytes of a message into one block, `msgpullup` makes a message of which the first block holds
all leading bytes. A copy past the end of a buffer is `none`.
-/

namespace Solaris.Blocks

open Nat Function List

/-- What `allocb` gets from the allocator: a data block of a cache, or one for a buffer of its own. -/
inductive New where
  | cached (index d : Nat) (dbp : Dblk)
  | oversize (d : Nat) (dbp : Dblk) (buf size : Nat)

def New.datap : New → Nat
  | .cached _ d _ => d
  | .oversize d _ _ _ => d

def New.alloc : New → Mblk × Dblk
  | .cached _ d dbp => allocb d dbp
  | .oversize d dbp buf size => allocbOversize d dbp buf size

/-- A data block that is not in use, as its constructor or its last free has left it, with room for `size` bytes. -/
structure New.Serves (new : New) (h : Heap) (size : Nat) : Prop where
  unused : h new.datap = none
  ready : match new with
    | .cached _ _ dbp => dbp.dbFree = .last dbp.dbLastfree
    | .oversize _ dbp _ _ => dbp.dbFree = .last dbp.dbLastfree
  room : new.alloc.2.dbBase + size ≤ new.alloc.2.dbLim
  below : new.alloc.2.dbLim < 2 ^ 32

/-- The bytes at `src` of one data block to `dst` in another one. -/
def bcopy (h : Heap) (srcDblk src dstDblk dst n : Nat) : Option Heap :=
  match h srcDblk, h dstDblk with
  | some s, some d =>
    if dst + n ≤ d.dbLim then
      some (Function.update h dstDblk (some
        { d with data := fun a => if dst ≤ a ∧ a < dst + n then s.data (src + (a - dst)) else d.data a }))
    else none
  | _, _ => none

/-- The loop of `pullupmsg`; `mp` heads the new message and `bp` the old one. -/
def pullLoop (h : Heap) (mp bp : Mblk) : List Mblk → Int → Option (Heap × Mblk × List Mblk)
  | rest, len =>
    let n := min (length bp) len
    match bcopy h bp.bDatap bp.bRptr mp.bDatap mp.bWptr (n % 2 ^ 32).toNat with
    | none => none
    | some h =>
      let mp := { mp with bWptr := shift mp.bWptr n }
      let bp := { bp with bRptr := shift bp.bRptr n }
      if bp.bRptr ≠ bp.bWptr then some (h, mp, bp :: rest)
      else
        match freeb h bp with
        | none => none
        | some (_, h) =>
          match rest with
          | [] => some (h, mp, [])
          | next :: rest => if len - n = 0 then some (h, mp, next :: rest) else pullLoop h mp next rest (len - n)

/-- A `size_t` read as a `ssize_t`. -/
def ssize (n : Nat) : Int := (n : Int).bmod (2 ^ 32)

/-- The checks of `pullupmsg`: its answer, or the number of bytes to copy. -/
def pullupLen (h : Heap) (mp : Mblk) (rest : List Mblk) (len : Int) : Nat ⊕ Int :=
  if len = -1 then
    if rest = [] ∧ mp.bRptr % 4 = 0 then .inl 1 else .inr (ssize (xmsgsize h (mp :: rest)))
  else if len ≤ length mp then
    if mp.bRptr % 4 = 0 then .inl 1 else .inr (length mp)
  else if xmsgsize h (mp :: rest) < (len % 2 ^ 32).toNat then .inl 0
  else .inr len

def pullupmsg (h : Heap) (m : List Mblk) (len : Int) (new : Nat → Option New) : Option (Nat × Heap × List Mblk) :=
  match m with
  | [] => none
  | mp :: rest =>
    match pullupLen h mp rest len with
    | .inl r => some (r, h, m)
    | .inr len =>
      match new (len % 2 ^ 32).toNat, h mp.bDatap with
      | _, none => none
      | none, some _ => some (0, h, m)
      | some new, some old =>
        let (attached, dbp) := new.alloc
        -- the blocks are swapped: `bp` heads the old message and `mp` the new one
        let bp := { mp with addr := attached.addr }
        let h := Function.update h new.datap (some { dbp with dbType := old.dbType, dbMblk := mp.addr })
        let h := Function.update h mp.bDatap (some { old with dbMblk := bp.addr })
        let mp := { mp with bDatap := new.datap, bRptr := dbp.dbBase, bWptr := dbp.dbBase }
        (pullLoop h mp bp rest len).map fun (h, mp, rest) => (1, h, mp :: rest)

def freemsg (h : Heap) : List Mblk → Option Heap
  | [] => some h
  | mp :: rest =>
    match freeb h mp with
    | none => none
    | some (_, h) => freemsg h rest

/-- The loop of `dupmsg`, with the blocks duplicated so far. -/
def dupmsgFrom (h : Heap) (head : List Mblk) : List Mblk → List (Option Nat) → Option (Option (List Mblk) × Heap)
  | [], _ => some (some head, h)
  | bp :: rest, news =>
    match dupb h bp (news.headD none) with
    | none => none
    | some (none, h) => (freemsg h head).map fun h => (none, h)
    | some (some nbp, h) => dupmsgFrom h (head ++ [nbp]) rest news.tail

/-- `dupmsg` of a message that is not empty, with what `kmem_cache_alloc` returns for each of its blocks. -/
def dupmsg (h : Heap) (bp : List Mblk) (news : List (Option Nat)) : Option (Option (List Mblk) × Heap) :=
  dupmsgFrom h [] bp news

/-- The loop of `msgpullup`. -/
def copyLoop (h : Heap) (newBp : Mblk) : List Mblk → Int → Option (Heap × Mblk × List Mblk)
  | [], len => if 0 < len then none else some (h, newBp, [])
  | mp :: rest, len =>
    if 0 < len then
      match bcopy h mp.bDatap mp.bRptr newBp.bDatap newBp.bWptr (length mp % 2 ^ 32).toNat with
      | none => none
      | some h => copyLoop h { newBp with bWptr := shift newBp.bWptr (length mp) } rest (len - length mp)
    else some (h, newBp, mp :: rest)

/-- `msgpullup` behind its check, with `len` the number of leading bytes; a duplicate of the rest that could not be made is
a null `b_cont`. -/
def msgpullupAll (h : Heap) (mp : Mblk) (m : List Mblk) (len : Int) (new : Nat → Option New) (news : List (Option Nat)) :
    Option (Option (List Mblk) × Heap) :=
  match new (len % 2 ^ 32).toNat, h mp.bDatap with
  | _, none => none
  | none, some _ => some (none, h)
  | some new, some old =>
    let (newBp, dbp) := new.alloc
    let h := Function.update h new.datap (some { dbp with dbType := old.dbType })
    match copyLoop h { newBp with bFlag := mp.bFlag, bBand := mp.bBand } m len with
    | none => none
    | some (h, newBp, []) => some (some [newBp], h)
    | some (h, newBp, rest) => (dupmsg h rest news).map fun (cont, h) => (some (newBp :: cont.getD []), h)

def msgpullup (h : Heap) (m : List Mblk) (len : Int) (new : Nat → Option New) (news : List (Option Nat)) :
    Option (Option (List Mblk) × Heap) :=
  match m with
  | [] => none
  | mp :: _ =>
    if 0 < len ∧ ssize (xmsgsize h m) < len then some (none, h)
    else msgpullupAll h mp m (ssize (xmsgsize h m)) new news

def content (h : Heap) (b : Mblk) : Option (BitVec 8) × List UInt8 × BitVec 8 × BitVec 16 :=
  (typeOf h b, bytes h b, b.bBand, b.bFlag)

def dropFirst (j : Nat) :
    List (Option (BitVec 8) × List UInt8 × BitVec 8 × BitVec 16) → List (Option (BitVec 8) × List UInt8 × BitVec 8 × BitVec 16)
  | [] => []
  | (type, l, rest) :: blocks => (type, l.drop j, rest) :: blocks

/-- The leading bytes are the same, the first block holds those asked for, and behind it stand the blocks that have not been
used up, in order. -/
def Pulled (h h' : Heap) (m m' : List Mblk) (len : Int) : Prop :=
  leadingBytes h' m' = leadingBytes h m ∧
    ∃ first tail k j, m' = first :: tail ∧ len ≤ size first ∧ (len = -1 → size first = (leadingBytes h m).length) ∧
      k ≤ (leading h m).length ∧ tail.map (content h') = dropFirst j ((m.drop k).map (content h))

/-- `pullupmsg` fails without a change, or pulls the message up. -/
def PullupSafe (h : Heap) (m : List Mblk) (len : Int) (new : Nat → Option New) : Prop :=
  ∃ r h' m', pullupmsg h m len new = some (r, h', m') ∧
    ((r = 0 ∧ h' = h ∧ m' = m) ∨ (r = 1 ∧ Counted h' m' ∧ Pulled h h' m m' len))

/-- `msgpullup` leaves the message, and fails or makes one that is pulled up. -/
def MsgpullupSafe (h : Heap) (m : List Mblk) (len : Int) (new : Nat → Option New) (news : List (Option Nat)) : Prop :=
  ∃ r h', msgpullup h m len new news = some (r, h') ∧ Counted h' m ∧ (∀ b ∈ m, view h' b = view h b) ∧
    ∀ m', r = some m' → Counted h' (m' ++ m) ∧ Pulled h h' m m' len

/-- The blocks behind the first `n` bytes. -/
def behind : Nat → List Mblk → List Mblk
  | 0, m => m
  | _, [] => []
  | n + 1, b :: m => behind (n + 1 - size b) m

def refOf (h : Heap) (b : Mblk) : Nat := (h b.bDatap).elim 0 fun dbp => dbp.dbRef.toNat

/-- Every block can be duplicated, after the blocks before it. -/
def Dupable (h : Heap) (done : List Mblk) : List Mblk → List (Option Nat) → Prop
  | [], _ => True
  | b :: rest, news => (news.headD none).isSome ∧ refOf h b + refs done b.bDatap < 255 ∧ Dupable h (b :: done) rest news.tail

/-- The new block is made, and blocks of other types cannot be duplicated. -/
def LosesOthers (h : Heap) (m : List Mblk) (len : Int) (new : Nat → Option New) (news : List (Option Nat)) : Prop :=
  len ≤ (leadingBytes h m).length ∧ (new (leadingBytes h m).length).isSome ∧ others h m ≠ [] ∧
    ¬Dupable h [] (behind (leadingBytes h m).length m) news

variable {h h' : Heap} {b bp mp : Mblk} {dbp : Dblk} {m run rest : List Mblk} {t : Option (BitVec 8)} {n : Nat}

lemma ssize_eq (hn : n < 2 ^ 31) : ssize n = n := by
  unfold ssize
  rw [Int.bmod_eq_of_le (by omega) (by omega)]

lemma content_view (hv : view h' b = view h b) : content h' b = content h b := by
  unfold content
  rw [typeOf_view hv, bytes_view hv]

lemma map_content_view (hv : ∀ b ∈ m, view h' b = view h b) : m.map (content h') = m.map (content h) :=
  List.map_congr_left fun b hb => content_view (hv b hb)

lemma view_congr (hd : h' b.bDatap = h b.bDatap) : view h' b = view h b := by
  unfold view
  rw [hd]

lemma Counted.update {d : Nat} {old : Dblk} (hc : Counted h m) (hd : h d = some old) (hr : dbp.dbRef = old.dbRef)
    (hf : dbp.dbFlags = old.dbFlags) (hfree : dbp.dbFree = old.dbFree) (hlast : dbp.dbLastfree = old.dbLastfree) :
    Counted (Function.update h d (some dbp)) m := by
  intro b hb
  obtain ⟨dbp', hd', hle, hmethod⟩ := hc b hb
  by_cases hbd : b.bDatap = d
  · subst hbd
    rw [hd] at hd'
    obtain rfl := Option.some.inj hd'
    unfold Dblk.refmin at hle hmethod
    refine ⟨dbp, update_self .., ?_, ?_⟩
    · rw [Dblk.refmin, hf, hr]
      exact hle
    · rw [Dblk.refmin, hf, hr, hfree, hlast]
      exact hmethod
  · exact ⟨dbp', by rw [update_of_ne hbd, hd'], hle, hmethod⟩

theorem bcopy_spec (hmp : h mp.bDatap = some dbp) (hbp : (h bp.bDatap).isSome) (horder : mp.bRptr ≤ mp.bWptr)
    (hroom : mp.bWptr + n ≤ dbp.dbLim) (hn : n ≤ size bp) :
    ∃ h' dbp', bcopy h bp.bDatap bp.bRptr mp.bDatap mp.bWptr n = some h' ∧ h' mp.bDatap = some dbp' ∧
      dbp'.dbLim = dbp.dbLim ∧ (∀ d, d ≠ mp.bDatap → h' d = h d) ∧ (∀ l, Counted h l → Counted h' l) ∧
      bytes h' { mp with bWptr := mp.bWptr + n } = bytes h mp ++ (bytes h bp).take n ∧ typeOf h' mp = typeOf h mp := by
  obtain ⟨src, hsrc⟩ := Option.isSome_iff_exists.mp hbp
  have hres : bcopy h bp.bDatap bp.bRptr mp.bDatap mp.bWptr n = some (update h mp.bDatap (some
      { dbp with data := fun a => if mp.bWptr ≤ a ∧ a < mp.bWptr + n then src.data (bp.bRptr + (a - mp.bWptr))
        else dbp.data a })) := by
    unfold bcopy
    rw [hsrc, hmp]
    exact if_pos hroom
  refine ⟨_, _, hres, update_self .., rfl, fun d hd => update_of_ne hd ..,
    fun l hc => hc.update hmp rfl rfl rfl rfl, ?_, ?_⟩
  · have hsize : size { mp with bWptr := mp.bWptr + n } = size mp + n := by
      unfold size
      dsimp only
      omega
    have hend : mp.bRptr + size mp = mp.bWptr := by
      unfold size
      omega
    unfold bytes
    rw [hsize]
    rw [update_self, hsrc, hmp]
    dsimp only
    rw [← range'_append_1, map_append, hend, ← map_take, take_range'_of_length_ge hn]
    congr 1
    · -- what stands before the copy
      refine map_congr_left fun a ha => ?_
      obtain ⟨_, hlt⟩ := mem_range'_1.mp ha
      rw [if_neg (by omega)]
    · rw [range'_eq_map_range, range'_eq_map_range, map_map, map_map]
      refine map_congr_left fun i hi => ?_
      rw [mem_range] at hi
      dsimp only [comp_apply]
      rw [if_pos (by omega), Nat.add_sub_cancel_left]
  · unfold typeOf
    rw [update_self, hmp]
    rfl

/-- The block that receives has room for what is still to be copied. -/
structure Room (h : Heap) (mp : Mblk) (n : Nat) : Prop where
  order : mp.bRptr ≤ mp.bWptr
  room : ∃ dbp, h mp.bDatap = some dbp ∧ mp.bWptr + n ≤ dbp.dbLim ∧ dbp.dbLim < 2 ^ 32

lemma shift_room (hr : Room h mp n) {k : Nat} (hk : k ≤ n) : shift mp.bWptr k = mp.bWptr + k := by
  obtain ⟨dbp, _, hle, hlt⟩ := hr.room
  unfold shift
  omega

lemma emod_size (hw : WellFormed b) (hn : n ≤ size b) : ((n : Int) % 2 ^ 32).toNat = n := by
  have := hw.below
  unfold size at hn
  omega

theorem Room.copy {k : Nat} (hr : Room h mp n) (hbp : (h bp.bDatap).isSome) (hk : k ≤ n) (hkb : k ≤ size bp) :
    ∃ h', bcopy h bp.bDatap bp.bRptr mp.bDatap mp.bWptr k = some h' ∧
      Room h' { mp with bWptr := mp.bWptr + k } (n - k) ∧ (∀ d, d ≠ mp.bDatap → h' d = h d) ∧
      (∀ l, Counted h l → Counted h' l) ∧
      bytes h' { mp with bWptr := mp.bWptr + k } = bytes h mp ++ (bytes h bp).take k ∧ typeOf h' mp = typeOf h mp := by
  obtain ⟨dbp, hmp, hle, hlt⟩ := hr.room
  obtain ⟨h', dbp', hres, hmp', hlim, hother, hcount, hbytes, htype⟩ :=
    bcopy_spec hmp hbp hr.order (by omega) hkb
  refine ⟨h', hres, ⟨?_, dbp', hmp', ?_, by omega⟩, hother, hcount, hbytes, htype⟩
  · have := hr.order
    dsimp only
    omega
  · dsimp only
    omega

lemma dropFirst_zero (l : List (Option (BitVec 8) × List UInt8 × BitVec 8 × BitVec 16)) : dropFirst 0 l = l := by
  cases l <;> rfl

lemma freeb_other {e : Freed} {d : Nat} (hres : freeb h b = some (e, h')) (hd : d ≠ b.bDatap) : h' d = h d := by
  unfold freeb at hres
  obtain ⟨dbp, _, heq⟩ := Option.map_eq_some_iff.mp hres
  revert heq
  split
  · rintro heq
    rw [← (Prod.mk.inj heq).2, update_of_ne hd]
  · rintro heq
    rw [← (Prod.mk.inj heq).2, update_of_ne hd]

theorem pullLoop_turn (hc : Counted h (mp :: bp :: rest)) (hapart : ∀ b ∈ bp :: rest, b.bDatap ≠ mp.bDatap)
    (hr : Room h mp n) (hw : WellFormed bp) :
    (n < size bp ∧ ∃ h', pullLoop h mp bp rest n =
        some (h', { mp with bWptr := mp.bWptr + n }, { bp with bRptr := bp.bRptr + n } :: rest) ∧
      Counted h' ({ mp with bWptr := mp.bWptr + n } :: { bp with bRptr := bp.bRptr + n } :: rest) ∧
      bytes h' { mp with bWptr := mp.bWptr + n } = bytes h mp ++ (bytes h bp).take n ∧ typeOf h' mp = typeOf h mp ∧
      ∀ b ∈ bp :: rest, view h' b = view h b) ∨
    (size bp ≤ n ∧ ∃ h', Room h' { mp with bWptr := mp.bWptr + size bp } (n - size bp) ∧
      Counted h' ({ mp with bWptr := mp.bWptr + size bp } :: rest) ∧
      bytes h' { mp with bWptr := mp.bWptr + size bp } = bytes h mp ++ bytes h bp ∧ typeOf h' mp = typeOf h mp ∧
      (∀ b ∈ rest, view h' b = view h b) ∧
      (rest = [] → pullLoop h mp bp rest n = some (h', { mp with bWptr := mp.bWptr + size bp }, [])) ∧
      ∀ next rest', rest = next :: rest' → pullLoop h mp bp rest n =
        if n - size bp = 0 then some (h', { mp with bWptr := mp.bWptr + size bp }, next :: rest')
        else pullLoop h' { mp with bWptr := mp.bWptr + size bp } next rest' ((n - size bp : Nat) : Int)) := by
  have hsome : (h bp.bDatap).isSome := hc.isSome (by simp)
  have hlen := bytes_length hsome
  have horder := hw.order
  by_cases hlt : n < size bp
  · left
    obtain ⟨h', hcopy, _, hother, hcount, hbytes, htype⟩ := hr.copy hsome le_rfl hlt.le
    refine ⟨hlt, h', ?_, (hcount _ hc).congr (by simp), hbytes, htype, ?_⟩
    · unfold pullLoop
      have hmin : min (size bp : Int) n = (n : Nat) := by omega
      have hleft : bp.bRptr + n ≠ bp.bWptr := by
        unfold size at hlt
        omega
      rw [hw.length_eq, hmin]
      dsimp only
      rw [emod_size hw hlt.le, hcopy]
      dsimp only
      rw [shift_forward hw hlt.le, shift_room hr le_rfl, if_pos hleft]
    · exact fun b hb => view_congr (hother _ (hapart b hb))
  · right
    rw [not_lt] at hlt
    obtain ⟨h1, hcopy, hr1, hother, hcount, hbytes, htype⟩ := hr.copy hsome hlt le_rfl
    rw [take_of_length_le hlen.le] at hbytes
    have hc1 : Counted h1 ({ bp with bRptr := bp.bRptr + size bp } :: { mp with bWptr := mp.bWptr + size bp } :: rest) :=
      ((hcount _ hc).perm (List.Perm.swap ..)).congr (by simp)
    obtain ⟨e, h', hfree, hc', hview⟩ := freeb_counted hc1
    have hmpd : h' mp.bDatap = h1 mp.bDatap := freeb_other hfree (hapart bp mem_cons_self).symm
    refine ⟨hlt, h', ⟨hr1.order, by rw [hmpd]; exact hr1.room⟩, hc', ?_, ?_, ?_, ?_⟩
    · rw [bytes_view (hview _ mem_cons_self), hbytes]
    · rw [← htype]
      unfold typeOf
      rw [hmpd]
    · intro b hb
      rw [hview b (mem_cons_of_mem _ hb)]
      exact view_congr (hother _ (hapart b (mem_cons_of_mem _ hb)))
    · have hmin : min (size bp : Int) n = (size bp : Nat) := by omega
      have hend : bp.bRptr + size bp = bp.bWptr := by
        unfold size
        omega
      have hsub : (n : Int) - (size bp : Nat) = ((n - size bp : Nat) : Int) := by omega
      have hzero : ((n - size bp : Nat) : Int) = 0 ↔ n - size bp = 0 := by omega
      constructor
      · rintro rfl
        unfold pullLoop
        rw [hw.length_eq, hmin]
        dsimp only
        rw [emod_size hw le_rfl, hcopy]
        dsimp only
        rw [shift_forward hw le_rfl, shift_room hr hlt, if_neg (not_not.mpr hend), hfree]
      · rintro next rest' rfl
        conv_lhs => unfold pullLoop
        rw [hw.length_eq, hmin]
        dsimp only
        rw [emod_size hw le_rfl, hcopy]
        dsimp only
        rw [shift_forward hw le_rfl, shift_room hr hlt, if_neg (not_not.mpr hend), hfree]
        rw [hsub]
        simp only [hzero]

lemma pullLoop_spec (hc : Counted h (mp :: (bp :: run ++ rest))) (hapart : ∀ b ∈ bp :: run ++ rest, b.bDatap ≠ mp.bDatap)
    (hr : Room h mp n) (hw : ∀ b ∈ bp :: run, WellFormed b) (ht : ∀ b ∈ bp :: run, typeOf h b = t)
    (hn : n ≤ ((bp :: run).flatMap (bytes h)).length) :
    ∃ h' run' k j, pullLoop h mp bp (run ++ rest) n = some (h', { mp with bWptr := mp.bWptr + n }, run' ++ rest) ∧
      Counted h' ({ mp with bWptr := mp.bWptr + n } :: (run' ++ rest)) ∧
      bytes h' { mp with bWptr := mp.bWptr + n } = bytes h mp ++ ((bp :: run).flatMap (bytes h)).take n ∧
      typeOf h' mp = typeOf h mp ∧ run'.flatMap (bytes h') = ((bp :: run).flatMap (bytes h)).drop n ∧
      (∀ b ∈ run', typeOf h' b = t) ∧ (∀ b ∈ rest, view h' b = view h b) ∧ k ≤ (bp :: run).length ∧
      (run' ++ rest).map (content h') = dropFirst j (((bp :: run).drop k ++ rest).map (content h)) := by
  -- on the number of leading blocks behind `bp`
  obtain ⟨count, hcount⟩ : ∃ c, run.length = c := ⟨_, rfl⟩
  induction count using Nat.strong_induction_on generalizing h mp bp run n with
  | _ count ih =>
    have hlen := bytes_length (hc.isSome (show bp ∈ _ by simp))
    rw [flatMap_cons, length_append, hlen] at hn
    obtain ⟨hwbp, hwrun⟩ := forall_mem_cons.mp hw
    obtain ⟨htbp, htrun⟩ := forall_mem_cons.mp ht
    rw [cons_append] at hc
    rcases pullLoop_turn hc hapart hr hwbp with ⟨hlt, h', hres, hc', hbytes, htype, hview⟩ |
        ⟨hle, h1, hr1, hc1, hbytes, htype, hview, hresnil, hrescons⟩
    · -- the loop stops inside `bp`
      have hviewbp := hview bp mem_cons_self
      have hviewrun : ∀ b ∈ run ++ rest, view h' b = view h b := fun b hb => hview b (mem_cons_of_mem _ hb)
      have hmoved : view h' { bp with bRptr := bp.bRptr + n } = view h { bp with bRptr := bp.bRptr + n } := hviewbp
      refine ⟨h', { bp with bRptr := bp.bRptr + n } :: run, 0, n, hres, hc', ?_, htype, ?_, ?_,
        fun b hb => hviewrun b (mem_append_right _ hb), by simp, ?_⟩
      · rw [hbytes, flatMap_cons, take_append_of_le_length (hlt.le.trans hlen.ge)]
      · rw [flatMap_cons, flatMap_cons, drop_append_of_le_length (hlt.le.trans hlen.ge), bytes_view hmoved,
          bytes_forward, flatMap_view fun b hb => hviewrun b (mem_append_left _ hb)]
      · refine forall_mem_cons.mpr ⟨?_, ?_⟩
        · rw [typeOf_view hmoved]
          exact htbp
        · intro b hb
          rw [typeOf_view (hviewrun b (mem_append_left _ hb)), htrun b hb]
      · rw [drop_zero, cons_append, cons_append, map_cons, map_cons, content_view hmoved,
          map_content_view hviewrun]
        unfold content dropFirst
        rw [bytes_forward]
        rfl
    · have htake : (bytes h bp).take n = bytes h bp := take_of_length_le (hlen.le.trans hle)
      have hdrop : (bytes h bp).drop n = [] := drop_eq_nil_of_le (hlen.le.trans hle)
      have hviewrun : ∀ b ∈ run, view h1 b = view h b := fun b hb => hview b (mem_append_left _ hb)
      have htrun1 : ∀ b ∈ run, typeOf h1 b = t := fun b hb => (typeOf_view (hviewrun b hb)).trans (htrun b hb)
      have hbytesrun : run.flatMap (bytes h1) = run.flatMap (bytes h) := flatMap_view hviewrun
      by_cases hstop : n - size bp = 0
      · -- the loop stops behind `bp`
        obtain rfl : n = size bp := by omega
        refine ⟨h1, run, 1, 0, ?_, hc1, ?_, htype, ?_, htrun1, fun b hb => hview b (mem_append_right _ hb), by simp, ?_⟩
        · cases hall : run ++ rest with
          | nil => rw [← hall, hresnil hall, hall]
          | cons next rest' => rw [← hall, hrescons next rest' hall, if_pos hstop, hall]
        · rw [hbytes, flatMap_cons, ← hlen, take_left]
        · rw [hbytesrun, flatMap_cons, ← hlen, drop_left]
        · rw [dropFirst_zero, map_content_view hview]
          rfl
      · cases run with
        | nil =>
          rw [flatMap_nil, length_nil] at hn
          omega
        | cons next run =>
          rw [cons_append] at hc1 hview
          obtain ⟨h', run', k, j, hres, hc', hbytes', htype', hdrop', ht', hrest', hk, hmap⟩ :=
            ih run.length (by rw [← hcount]; simp) hc1 (fun b hb => hapart b (mem_cons_of_mem _ hb)) hr1 hwrun htrun1
              (by rw [hbytesrun]; omega) rfl
          have hsum : mp.bWptr + size bp + (n - size bp) = mp.bWptr + n := by omega
          have hall : (bp :: next :: run).flatMap (bytes h) = bytes h bp ++ (next :: run).flatMap (bytes h) :=
            flatMap_cons
          rw [hsum] at hres hc' hbytes'
          refine ⟨h', run', k + 1, j, ?_, hc', ?_, htype'.trans htype, ?_, ht', ?_, ?_, ?_⟩
          · rw [hrescons next (run ++ rest) rfl, if_neg hstop, hres]
          · rw [hbytes', hbytes, hbytesrun, append_assoc, hall, take_append, htake, hlen]
          · rw [hdrop', hbytesrun, hall, drop_append, hdrop, hlen, nil_append]
          · exact fun b hb => (hrest' b hb).trans (hview b (by simp [hb]))
          · rw [length_cons]
            omega
          · rw [hmap, drop_succ_cons]
            congr 1
            refine map_content_view fun b hb => hview b ?_
            rw [← cons_append]
            rcases mem_append.mp hb with hb | hb
            · exact mem_append_left _ (mem_of_mem_drop hb)
            · exact mem_append_right _ hb

lemma New.alloc_spec {new : New} (hs : new.Serves h n) :
    new.alloc.2.dbRef.toNat = 1 + new.alloc.2.refmin ∧ new.alloc.2.dbFree = .last new.alloc.2.dbLastfree := by
  have hready := hs.ready
  cases new with
  | cached index d dbp => exact (Blocks.alloc_spec (.allocb index) d hready).2.2.2
  | oversize d dbp buf size => exact (Blocks.alloc_spec (.allocbOversize buf size) d hready).2.2.2

lemma Counted.add {d : Nat} (hc : Counted h m) (hd : h d = none) (hb : b.bDatap = d)
    (href : dbp.dbRef.toNat = 1 + dbp.refmin) (hfree : dbp.dbFree = .last dbp.dbLastfree) :
    Counted (Function.update h d (some dbp)) (b :: m) := by
  have hother : ∀ c ∈ m, c.bDatap ≠ d := by
    rintro c hcm rfl
    have := hc.isSome hcm
    rw [hd] at this
    cases this
  intro c hcm
  rcases mem_cons.mp hcm with rfl | hcm
  · have hzero : refs m c.bDatap = 0 := refs_eq_zero.mpr fun c' hc' => by rw [hb]; exact hother c' hc'
    refine ⟨dbp, by rw [hb, update_self], ?_, .inr ⟨hfree, href⟩⟩
    rw [refs_cons, hzero, if_pos rfl]
    omega
  · obtain ⟨dbp', hd', hle, hmethod⟩ := hc c hcm
    refine ⟨dbp', by rw [update_of_ne (hother c hcm), hd'], ?_, hmethod⟩
    rw [refs_cons, if_neg (by rw [hb]; exact (hother c hcm).symm), add_zero]
    exact hle

lemma pulled_same {len : Int} (hlen : len ≤ size mp)
    (hall : len = -1 → size mp = (leadingBytes h (mp :: rest)).length) : Pulled h h (mp :: rest) (mp :: rest) len := by
  refine ⟨rfl, mp, rest, 1, 0, rfl, hlen, hall, ?_, ?_⟩
  · exact length_pos_iff.mpr (leading_ne_nil (by simp))
  · rw [dropFirst_zero]
    rfl

lemma pullupmsg_copy {len : Int} {new : Nat → Option New} (hc : Counted h (mp :: rest))
    (hw : ∀ b ∈ mp :: rest, WellFormed b) (hnew : ∀ size x, new size = some x → x.Serves h size)
    (hlen : pullupLen h mp rest len = .inr (n : Int)) (hn : n ≤ (leadingBytes h (mp :: rest)).length) (hsmall : n < 2 ^ 31)
    (hreq : len ≤ n) (hall : len = -1 → n = (leadingBytes h (mp :: rest)).length) :
    PullupSafe h (mp :: rest) len new := by
  obtain ⟨old, hold⟩ := Option.isSome_iff_exists.mp (hc.isSome mem_cons_self)
  have hmod : ((n : Int) % 2 ^ 32).toNat = n := by omega
  have hcall : pullupmsg h (mp :: rest) len new = match new n with
      | none => some (0, h, mp :: rest)
      | some x => (pullLoop
          (update
            (update h x.datap (some { x.alloc.2 with dbType := old.dbType, dbMblk := mp.addr }))
            mp.bDatap (some { old with dbMblk := x.alloc.1.addr }))
          { mp with bDatap := x.datap, bRptr := x.alloc.2.dbBase, bWptr := x.alloc.2.dbBase }
          { mp with addr := x.alloc.1.addr } rest n).map fun (h, mp, rest) => (1, h, mp :: rest) := by
    unfold pullupmsg
    dsimp only
    rw [hlen]
    dsimp only
    rw [hmod, hold]
    cases new n <;> rfl
  unfold PullupSafe
  rw [hcall]
  cases hx : new n with
  | none => exact ⟨0, h, mp :: rest, rfl, .inl ⟨rfl, rfl, rfl⟩⟩
  | some x =>
    have hs := hnew n x hx
    obtain ⟨href, hfree⟩ := x.alloc_spec hs
    have hunused : ∀ b ∈ mp :: rest, b.bDatap ≠ x.datap := by
      intro b hb heq
      have := hc.isSome hb
      rw [heq, hs.unused] at this
      cases this
    have hmpd : mp.bDatap ≠ x.datap := hunused mp mem_cons_self
    obtain ⟨h1, hh1⟩ : ∃ h1, h1 = update
      (update h x.datap (some { x.alloc.2 with dbType := old.dbType, dbMblk := mp.addr }))
      mp.bDatap (some { old with dbMblk := x.alloc.1.addr }) := ⟨_, rfl⟩
    have hx1 : h1 x.datap = some { x.alloc.2 with dbType := old.dbType, dbMblk := mp.addr } := by
      rw [hh1, update_of_ne hmpd.symm, update_self]
    have hview1 : ∀ b ∈ mp :: rest, view h1 b = view h b := by
      intro b hb
      unfold view
      by_cases hbd : b.bDatap = mp.bDatap
      · rw [hh1, hbd, update_self, hold]
        rfl
      · rw [hh1, update_of_ne hbd, update_of_ne (hunused b hb)]
    -- the leading blocks, with the swapped one in front
    have hm := leading_append_others h (mp :: rest)
    obtain ⟨run, hrun⟩ : ∃ run, leading h (mp :: rest) = mp :: run := by
      unfold leading
      rw [takeWhile_cons_of_pos (by simp)]
      exact ⟨_, rfl⟩
    have hrest : rest = run ++ others h (mp :: rest) := by
      rw [hrun, cons_append] at hm
      exact (cons.inj hm).2.symm
    have hinrun : ∀ b ∈ mp :: run, b ∈ mp :: rest := fun b hb => hm ▸ mem_append_left _ (hrun ▸ hb)
    have htype : ∀ b ∈ mp :: run, typeOf h b = typeOf h mp := fun b hb => leading_type (hrun ▸ hb)
    have hbytes : leadingBytes h (mp :: rest) = (mp :: run).flatMap (bytes h) := by
      unfold leadingBytes
      rw [hrun]
    have hc1 : Counted h1 ({ mp with bDatap := x.datap, bRptr := x.alloc.2.dbBase, bWptr := x.alloc.2.dbBase } ::
        ({ mp with addr := x.alloc.1.addr } :: run ++ others h (mp :: rest))) := by
      have hsame : Counted h ({ mp with addr := x.alloc.1.addr } :: run ++ others h (mp :: rest)) :=
        hc.congr (by rw [cons_append, ← hrest]; rfl)
      have hadd := hsame.add (b := { mp with bDatap := x.datap, bRptr := x.alloc.2.dbBase, bWptr := x.alloc.2.dbBase })
        hs.unused rfl (show ({ x.alloc.2 with dbType := old.dbType, dbMblk := mp.addr } : Dblk).dbRef.toNat = _ from href) hfree
      have hold1 : ∀ y, update h x.datap y mp.bDatap = some old := fun y => by
        rw [update_of_ne hmpd, hold]
      rw [hh1]
      exact hadd.update (hold1 _) rfl rfl rfl rfl
    have hapart : ∀ b ∈ { mp with addr := x.alloc.1.addr } :: run ++ others h (mp :: rest), b.bDatap ≠ x.datap := by
      rw [cons_append, ← hrest]
      exact forall_mem_cons.mpr ⟨hmpd, fun b hb => hunused b (mem_cons_of_mem _ hb)⟩
    have hroom : Room h1 { mp with bDatap := x.datap, bRptr := x.alloc.2.dbBase, bWptr := x.alloc.2.dbBase } n :=
      ⟨le_rfl, _, hx1, hs.room, hs.below⟩
    have hwmp := hw mp mem_cons_self
    have hw1 : ∀ b ∈ { mp with addr := x.alloc.1.addr } :: run, WellFormed b :=
      forall_mem_cons.mpr ⟨⟨hwmp.order, hwmp.below, hwmp.short⟩,
        fun b hb => hw b (hinrun b (mem_cons_of_mem _ hb))⟩
    have ht1 : ∀ b ∈ { mp with addr := x.alloc.1.addr } :: run, typeOf h1 b = typeOf h mp :=
      forall_mem_cons.mpr ⟨typeOf_view (hview1 mp mem_cons_self), fun b hb =>
        (typeOf_view (hview1 b (hinrun b (mem_cons_of_mem _ hb)))).trans (htype b (mem_cons_of_mem _ hb))⟩
    have hbytes1 : ({ mp with addr := x.alloc.1.addr } :: run).flatMap (bytes h1) = leadingBytes h (mp :: rest) := by
      rw [hbytes]
      exact flatMap_view (m := mp :: run) fun b hb => hview1 b (hinrun b hb)
    obtain ⟨h', run', k, j, hres, hc', hfirst, htype', hdrop, ht', hview', hk, hmap⟩ :=
      pullLoop_spec hc1 hapart hroom hw1 ht1 (by rw [hbytes1]; exact hn)
    rw [← hrest] at hres
    dsimp only
    rw [← hh1, hres]
    have hempty : bytes h1 { mp with bDatap := x.datap, bRptr := x.alloc.2.dbBase, bWptr := x.alloc.2.dbBase } = [] := by
      unfold bytes size
      rw [hx1, Nat.sub_self]
      rfl
    rw [hempty, nil_append, hbytes1] at hfirst
    rw [hbytes1] at hdrop
    have htfirst : typeOf h' { mp with bDatap := x.datap, bRptr := x.alloc.2.dbBase, bWptr := x.alloc.2.dbBase + n } =
        typeOf h mp := by
      refine htype'.trans ?_
      unfold typeOf
      rw [hx1, hold]
      rfl
    have hview' : ∀ b ∈ others h (mp :: rest), view h' b = view h b := fun b hb =>
      (hview' b hb).trans (hview1 b (hm ▸ mem_append_right _ hb))
    have hkept := (leading_kept (h := h) (m := mp :: rest) (cons_ne_nil _ run')
      (forall_mem_cons.mpr ⟨htfirst, ht'⟩) hview').1
    have hsize : size { mp with bDatap := x.datap, bRptr := x.alloc.2.dbBase, bWptr := x.alloc.2.dbBase + n } = n :=
      Nat.add_sub_cancel_left ..
    refine ⟨1, h', _, rfl, .inr ⟨rfl, hc', ?_, _, _, k, j, rfl, ?_, ?_, ?_, ?_⟩⟩
    · rw [cons_append] at hkept
      rw [hkept, flatMap_cons, hfirst, hdrop, take_append_drop]
    · rw [hsize]
      exact hreq
    · rw [hsize]
      exact hall
    · rw [hrun]
      exact hk
    · rw [hmap]
      congr 1
      rw [← drop_append_of_le_length hk, cons_append, ← hrest, map_drop, map_drop]
      -- the address of a block is not part of its content
      have hcontent := map_content_view hview1
      exact congrArg (drop k) hcontent

theorem pullupmsg_safe {len : Int} {new : Nat → Option New} (hne : m ≠ []) (hc : Counted h m)
    (hw : ∀ b ∈ m, WellFormed b) (hlo : -2 ^ 31 ≤ len) (hhi : len < 2 ^ 31) (hsmall : (leadingBytes h m).length < 2 ^ 31)
    (hnew : ∀ size x, new size = some x → x.Serves h size) : PullupSafe h m len new := by
  obtain ⟨mp, rest, rfl⟩ := exists_cons_of_ne_nil hne
  have hsize : xmsgsize h (mp :: rest) = (leadingBytes h (mp :: rest)).length := by
    rw [xmsgsize_eq fun b hb => hc.isSome hb, mod_eq_of_lt (by omega)]
  have hwmp := hw mp mem_cons_self
  have hlength := hwmp.length_eq
  have hlen := bytes_length (hc.isSome mem_cons_self)
  have hfirst : size mp ≤ (leadingBytes h (mp :: rest)).length := by
    unfold leadingBytes leading
    rw [takeWhile_cons_of_pos (by simp), flatMap_cons, length_append, hlen]
    omega
  have hstay : ∀ {r}, pullupLen h mp rest len = .inl r → pullupmsg h (mp :: rest) len new = some (r, h, mp :: rest) := by
    intro r hr
    unfold pullupmsg
    dsimp only
    rw [hr]
  by_cases hall : len = -1
  · by_cases hone : rest = [] ∧ mp.bRptr % 4 = 0
    · have hres : pullupLen h mp rest len = .inl 1 := by
        unfold pullupLen
        rw [if_pos hall, if_pos hone]
      refine ⟨1, h, mp :: rest, hstay hres, .inr ⟨rfl, hc, pulled_same (by omega) fun _ => ?_⟩⟩
      rw [hone.1, leadingBytes, leading, takeWhile_cons_of_pos (by simp), takeWhile_nil, flatMap_singleton,
        hlen]
    · have hres : pullupLen h mp rest len = .inr ((leadingBytes h (mp :: rest)).length : Int) := by
        unfold pullupLen
        rw [if_pos hall, if_neg hone, hsize, ssize_eq hsmall]
      exact pullupmsg_copy hc hw hnew hres le_rfl hsmall (by omega) fun _ => rfl
  · by_cases hshorter : len ≤ size mp
    · by_cases haligned : mp.bRptr % 4 = 0
      · have hres : pullupLen h mp rest len = .inl 1 := by
          unfold pullupLen
          rw [if_neg hall, hlength, if_pos hshorter, if_pos haligned]
        exact ⟨1, h, mp :: rest, hstay hres, .inr ⟨rfl, hc, pulled_same hshorter fun hno => absurd hno hall⟩⟩
      · have hres : pullupLen h mp rest len = .inr (size mp : Int) := by
          unfold pullupLen
          rw [if_neg hall, hlength, if_pos hshorter, if_neg haligned]
        exact pullupmsg_copy hc hw hnew hres hfirst (by omega) hshorter fun hno => absurd hno hall
    · have hmod : (len % 2 ^ 32).toNat = len.toNat := by omega
      by_cases hlong : xmsgsize h (mp :: rest) < len.toNat
      · have hres : pullupLen h mp rest len = .inl 0 := by
          unfold pullupLen
          rw [if_neg hall, hlength, if_neg hshorter, hmod, if_pos hlong]
        exact ⟨0, h, mp :: rest, hstay hres, .inl ⟨rfl, rfl, rfl⟩⟩
      have hres : pullupLen h mp rest len = .inr (len.toNat : Int) := by
        unfold pullupLen
        rw [if_neg hall, hlength, if_neg hshorter, hmod, if_neg hlong]
        congr 1
        omega
      exact pullupmsg_copy hc hw hnew hres (by omega) (by omega) (by omega) fun hno => absurd hno hall

end Solaris.Blocks
