import Solaris.Blocks.Pullup

/-!
# Pulling up a copy

`msgpullup` copies the leading blocks and duplicates those behind them. What it makes of a message is right as long as the
duplicate can be made; otherwise the blocks of other types are missing.
-/

namespace Solaris.Blocks

open List Function Nat

variable {h h' : Heap} {b mp : Mblk} {m m' l run rest frame : List Mblk} {n : Nat} {new : Option Nat}

lemma dupb_counted (hc : Counted h l) (hb : b ∈ l) (new : Option Nat) :
    (new.isSome ∧ refOf h b < 255 ∧ ∃ a h', dupb h b new = some (some { b with addr := a }, h') ∧
      Counted h' ({ b with addr := a } :: l) ∧ (∀ c, view h' c = view h c) ∧
      ∀ c, refOf h' c = refOf h c + if c.bDatap = b.bDatap then 1 else 0) ∨
    (¬(new.isSome ∧ refOf h b < 255) ∧ dupb h b new = some (none, h)) := by
  obtain ⟨dbp, hd, hle, hfree⟩ := hc b hb
  have hres := dupb_eq hd (hfree.imp_right And.right) new
  have href : refOf h b = dbp.dbRef.toNat := by
    unfold refOf
    rw [hd]
    rfl
  cases new with
  | none =>
    right
    exact ⟨by simp, hres⟩
  | some a =>
    dsimp only at hres
    by_cases hlim : dbp.dbRef = 255
    · right
      rw [if_pos hlim] at hres
      refine ⟨?_, hres⟩
      rintro ⟨_, hlt⟩
      rw [href, hlim] at hlt
      exact absurd hlt (by decide)
    left
    rw [if_neg hlim] at hres
    have hlt : dbp.dbRef.toNat < 255 := by
      have hne : dbp.dbRef.toNat ≠ 255 := fun heq => hlim (BitVec.eq_of_toNat_eq heq)
      omega
    have hsucc := ref_succ hlt
    refine ⟨rfl, by omega, a, _, hres, ?_, ?_, ?_⟩
    · intro c hcm
      by_cases hcd : c.bDatap = b.bDatap
      · refine ⟨_, by rw [hcd, update_self], ?_, .inl rfl⟩
        rw [refs_cons, if_pos hcd.symm, hcd]
        change refs l b.bDatap + 1 + dbp.refmin ≤ (dbp.dbRef + 1).toNat
        omega
      have hcl : c ∈ l := by
        rcases mem_cons.mp hcm with rfl | hcl
        · exact absurd rfl hcd
        · exact hcl
      obtain ⟨dbp', hd', hrest⟩ := hc c hcl
      refine ⟨dbp', by rw [update_of_ne hcd, hd'], ?_⟩
      rw [refs_cons, if_neg (Ne.symm hcd), add_zero]
      exact hrest
    · intro c
      unfold view
      by_cases hcd : c.bDatap = b.bDatap
      · rw [hcd, update_self, hd]
        rfl
      · rw [update_of_ne hcd]
    · intro c
      unfold refOf
      by_cases hcd : c.bDatap = b.bDatap
      · rw [hcd, update_self, hd, if_pos rfl]
        exact hsucc
      · rw [update_of_ne hcd, if_neg hcd, add_zero]

lemma freemsg_counted (hc : Counted h (l ++ frame)) :
    ∃ h', freemsg h l = some h' ∧ Counted h' frame ∧ ∀ b ∈ frame, view h' b = view h b := by
  induction l generalizing h with
  | nil => exact ⟨h, rfl, hc, fun _ _ => rfl⟩
  | cons b l ih =>
    obtain ⟨e, h1, hfree, hc1, hview1⟩ := freeb_counted hc
    obtain ⟨h', hres, hc', hview'⟩ := ih hc1
    refine ⟨h', ?_, hc', fun c hcm => (hview' c hcm).trans (hview1 c (mem_append_right _ hcm))⟩
    unfold freemsg
    rw [hfree]
    exact hres

lemma dupmsgFrom_spec {h0 : Heap} {head done : List Mblk} {news : List (Option Nat)} (hc : Counted h (head ++ m))
    (hsub : rest ⊆ m) (href : ∀ c, refOf h c = refOf h0 c + refs done c.bDatap) :
    (Dupable h0 done rest news ∧ ∃ h' dup, dupmsgFrom h head rest news = some (some (head ++ dup), h') ∧
      Counted h' (head ++ dup ++ m) ∧ (∀ b, view h' b = view h b) ∧ ∀ g, dup.map (content g) = rest.map (content g)) ∨
    (¬Dupable h0 done rest news ∧ ∃ h', dupmsgFrom h head rest news = some (none, h') ∧ Counted h' m ∧
      ∀ b ∈ m, view h' b = view h b) := by
  induction rest generalizing h head done news with
  | nil =>
    left
    refine ⟨trivial, h, [], ?_, ?_, fun _ => rfl, fun _ => rfl⟩
    · rw [append_nil]
      rfl
    · rw [append_nil]
      exact hc
  | cons b rest ih =>
    obtain ⟨hbm, hrest⟩ := cons_subset.mp hsub
    unfold dupmsgFrom Dupable
    rcases dupb_counted hc (mem_append_right _ hbm) (news.headD none) with
      ⟨hsome, hlt, a, h1, hres, hc1, hview1, href1⟩ | ⟨hno, hres⟩
    · rw [hres]
      dsimp only
      have hc1' : Counted h1 (head ++ [{ b with addr := a }] ++ m) := by
        refine hc1.perm ?_
        rw [append_assoc]
        exact perm_middle.symm
      have href1' : ∀ c, refOf h1 c = refOf h0 c + refs (b :: done) c.bDatap := by
        intro c
        rw [href1, href, refs_cons, add_assoc]
        congr 2
        exact if_congr eq_comm rfl rfl
      rw [href] at hlt
      rcases ih hc1' hrest href1' with
        ⟨hdup, h', dup, hres', hc', hview', hcontent⟩ | ⟨hno, h', hres', hc', hview'⟩
      · left
        refine ⟨⟨hsome, hlt, hdup⟩, h', { b with addr := a } :: dup, ?_, ?_, fun c => (hview' c).trans (hview1 c), ?_⟩
        · rw [hres', append_assoc]
          rfl
        · rw [append_assoc head] at hc'
          exact hc'
        · intro g
          rw [map_cons, map_cons, hcontent g]
          rfl
      · right
        exact ⟨fun hd => hno hd.2.2, h', hres', hc', fun c hcm => (hview' c hcm).trans (hview1 c)⟩
    · right
      rw [hres]
      obtain ⟨h', hfree, hc', hview'⟩ := freemsg_counted hc
      refine ⟨fun hd => hno ⟨hd.1, ?_⟩, h', ?_, hc', hview'⟩
      · rw [href]
        exact hd.2.1
      · dsimp only
        rw [hfree]
        rfl

lemma dupable_congr {done : List Mblk} {news : List (Option Nat)} (hr : ∀ b ∈ rest, refOf h' b = refOf h b) :
    Dupable h' done rest news ↔ Dupable h done rest news := by
  induction rest generalizing done news with
  | nil => exact Iff.rfl
  | cons b rest ih =>
    obtain ⟨hb, hrest⟩ := forall_mem_cons.mp hr
    unfold Dupable
    rw [hb, ih hrest]

lemma behind_cons (hn : n ≠ 0) (b : Mblk) (m : List Mblk) : behind n (b :: m) = behind (n - size b) m := by
  obtain ⟨k, rfl⟩ := exists_eq_succ_of_ne_zero hn
  rfl

lemma behind_zero (m : List Mblk) : behind 0 m = m := by
  cases m <;> rfl

lemma copyLoop_zero (h : Heap) (newBp : Mblk) (m : List Mblk) : copyLoop h newBp m 0 = some (h, newBp, m) := by
  cases m <;> rfl

lemma copyLoop_spec (hr : Room h mp n) (hsome : ∀ b ∈ run, (h b.bDatap).isSome) (hapart : ∀ b ∈ run, b.bDatap ≠ mp.bDatap)
    (hw : ∀ b ∈ run, WellFormed b) (hn : n = (run.flatMap (bytes h)).length) :
    ∃ h' k, copyLoop h mp (run ++ rest) n = some (h', { mp with bWptr := mp.bWptr + n }, run.drop k ++ rest) ∧
      behind n (run ++ rest) = run.drop k ++ rest ∧ k ≤ run.length ∧
      bytes h' { mp with bWptr := mp.bWptr + n } = bytes h mp ++ run.flatMap (bytes h) ∧
      (run.drop k).flatMap (bytes h) = [] ∧ (∀ d, d ≠ mp.bDatap → h' d = h d) ∧ (∀ l, Counted h l → Counted h' l) ∧
      typeOf h' mp = typeOf h mp := by
  induction run generalizing h mp n with
  | nil =>
    obtain rfl : n = 0 := hn
    refine ⟨h, 0, copyLoop_zero .., behind_zero _, le_rfl, ?_, rfl, fun _ _ => rfl, fun _ hc => hc, rfl⟩
    rw [flatMap_nil, append_nil]
    rfl
  | cons b run ih =>
    by_cases hzero : n = 0
    · -- the blocks left over are empty
      subst hzero
      have hempty := eq_nil_of_length_eq_zero hn.symm
      refine ⟨h, 0, copyLoop_zero .., behind_zero _, zero_le _, ?_, hempty, fun _ _ => rfl, fun _ hc => hc, rfl⟩
      rw [hempty, append_nil]
      rfl
    have hb : (h b.bDatap).isSome := hsome b mem_cons_self
    have hlen := bytes_length hb
    have hwb := hw b mem_cons_self
    rw [flatMap_cons, length_append, hlen] at hn
    obtain ⟨h1, hcopy, hr1, hother, hcount, hbytes, htype⟩ := hr.copy hb (by omega) le_rfl
    rw [take_of_length_le hlen.le] at hbytes
    have hother' : ∀ c ∈ run, h1 c.bDatap = h c.bDatap := fun c hcm => hother _ (hapart c (mem_cons_of_mem _ hcm))
    have hflat : run.flatMap (bytes h1) = run.flatMap (bytes h) := flatMap_view fun c hcm => view_congr (hother' c hcm)
    obtain ⟨h', k, hres, hbehind, hk, hbytes', hnil, hother'', hcount', htype'⟩ :=
      ih hr1 (fun c hcm => by rw [hother' c hcm]; exact hsome c (mem_cons_of_mem _ hcm))
        (fun c hcm => hapart c (mem_cons_of_mem _ hcm)) (fun c hcm => hw c (mem_cons_of_mem _ hcm))
        (by rw [hflat]; omega)
    have hsum : mp.bWptr + size b + (n - size b) = mp.bWptr + n := by omega
    have hsub : (n : Int) - (size b : Nat) = ((n - size b : Nat) : Int) := by omega
    rw [hsum] at hres hbytes'
    refine ⟨h', k + 1, ?_, ?_, by rw [length_cons]; omega, ?_, ?_, ?_, fun l hc => hcount' l (hcount l hc),
      htype'.trans htype⟩
    · rw [cons_append]
      unfold copyLoop
      rw [if_pos (by omega), hwb.length_eq, emod_size hwb le_rfl, hcopy]
      dsimp only
      rw [shift_room hr (by omega), hsub, hres]
      rfl
    · rw [cons_append, behind_cons hzero, hbehind]
      rfl
    · rw [hbytes', hbytes, hflat, flatMap_cons, append_assoc]
    · rw [drop_succ_cons, ← hnil]
      exact (flatMap_view fun c hcm => view_congr (hother' c (mem_of_mem_drop hcm))).symm
    · exact fun d hd => (hother'' d hd).trans (hother d hd)

lemma leadingBytes_content (hm : m'.map (content h') = m.map (content h)) : leadingBytes h' m' = leadingBytes h m := by
  have hread : ∀ g l, leadingBytes g l = (((l.map (content g)).takeWhile fun c =>
      c.1 = (l.map (content g)).head?.bind Prod.fst).map fun c => c.2.1).flatten := by
    intro g l
    have hhead : (l.map (content g)).head?.bind Prod.fst = l.head?.bind (typeOf g) := by
      cases l <;> rfl
    rw [hhead, takeWhile_map, map_map]
    rfl
  rw [hread, hread, hm]

lemma pulled_copied {len : Int} {k : Nat} {dup : List Mblk} (hk : k ≤ (leading h m).length)
    (hview : ∀ b ∈ m, view h' b = view h b) (hdup : dup.map (content h') = (m.drop k).map (content h'))
    (hempty : ((leading h m).drop k).flatMap (bytes h) = []) (hbytes : bytes h' mp = leadingBytes h m)
    (htype : typeOf h' mp = m.head?.bind (typeOf h)) (hsize : size mp = (leadingBytes h m).length)
    (hlen : len ≤ (leadingBytes h m).length) : Pulled h h' m (mp :: dup) len := by
  have hm := leading_append_others h m
  have hdrop := drop_leading hk
  have hlead : ∀ b ∈ leading h m, view h' b = view h b := fun b hb => hview b (hm ▸ mem_append_left _ hb)
  have htypes : ∀ b ∈ mp :: (leading h m).drop k, typeOf h' b = m.head?.bind (typeOf h) := by
    refine forall_mem_cons.mpr ⟨htype, fun b hb => ?_⟩
    have hbl := mem_of_mem_drop hb
    rw [typeOf_view (hlead b hbl)]
    exact leading_type hbl
  refine ⟨?_, mp, dup, k, 0, rfl, by rw [hsize]; exact hlen, fun _ => hsize, hk, ?_⟩
  · have hsame : leadingBytes h' (mp :: dup) = leadingBytes h' (mp :: m.drop k) :=
      leadingBytes_content (by rw [map_cons, map_cons, hdup])
    have hkept := (leading_kept (cons_ne_nil _ _) htypes
      fun b hb => hview b (hm ▸ mem_append_right _ hb)).1
    rw [cons_append, ← hdrop] at hkept
    rw [hsame, hkept, flatMap_cons, hbytes,
      flatMap_view fun b hb => hlead b (mem_of_mem_drop hb), hempty, append_nil]
  · rw [dropFirst_zero, hdup]
    exact map_content_view fun b hb => hview b (mem_of_mem_drop hb)

lemma msgpullup_cons (h : Heap) (mp : Mblk) (rest : List Mblk) (len : Int) (alloc : Nat → Option New)
    (news : List (Option Nat)) : msgpullup h (mp :: rest) len alloc news =
      if 0 < len ∧ ssize (xmsgsize h (mp :: rest)) < len then some (none, h)
      else msgpullupAll h mp (mp :: rest) (ssize (xmsgsize h (mp :: rest))) alloc news := rfl

/-- The new block of `msgpullup`, of the type of the old one and empty. -/
lemma newBp_spec {x : New} {old : Dblk} (hc : Counted h (mp :: rest)) (hold : h mp.bDatap = some old) (hs : x.Serves h n) :
    ∃ h1 newBp, h1 = update h x.datap (some { x.alloc.2 with dbType := old.dbType }) ∧
      newBp = { x.alloc.1 with bFlag := mp.bFlag, bBand := mp.bBand } ∧ Room h1 newBp n ∧ Counted h1 (newBp :: mp :: rest) ∧
      (∀ b ∈ mp :: rest, h1 b.bDatap = h b.bDatap) ∧ (∀ b ∈ mp :: rest, b.bDatap ≠ newBp.bDatap) ∧ size newBp = 0 ∧
      bytes h1 newBp = [] ∧ typeOf h1 newBp = typeOf h mp := by
  obtain ⟨href, hfree⟩ := x.alloc_spec hs
  have hunused : ∀ b ∈ mp :: rest, b.bDatap ≠ x.datap := by
    intro b hb heq
    have := hc.isSome hb
    rw [heq, hs.unused] at this
    cases this
  have hfirst : x.alloc.1.bDatap = x.datap ∧ x.alloc.1.bRptr = x.alloc.2.dbBase ∧ x.alloc.1.bWptr = x.alloc.2.dbBase := by
    cases x <;> exact ⟨rfl, rfl, rfl⟩
  obtain ⟨hdatap, hrptr, hwptr⟩ := hfirst
  obtain ⟨newBp, hnewBp⟩ : ∃ newBp, newBp = { x.alloc.1 with bFlag := mp.bFlag, bBand := mp.bBand } := ⟨_, rfl⟩
  have hx1 : update h x.datap (some { x.alloc.2 with dbType := old.dbType }) newBp.bDatap =
      some { x.alloc.2 with dbType := old.dbType } := by
    rw [hnewBp, hdatap, update_self]
  have hsize : size newBp = 0 := by
    unfold size
    rw [hnewBp]
    rw [hrptr, hwptr, Nat.sub_self]
  refine ⟨_, newBp, rfl, hnewBp, ⟨?_, _, hx1, ?_, hs.below⟩, ?_, ?_, ?_, hsize, ?_, ?_⟩
  · rw [hnewBp]
    exact (hrptr.trans hwptr.symm).le
  · rw [hnewBp]
    rw [hwptr]
    exact hs.room
  · exact hc.add hs.unused (by rw [hnewBp]; exact hdatap) href hfree
  · exact fun b hb => update_of_ne (hunused b hb) ..
  · intro b hb
    rw [hnewBp]
    rw [hdatap]
    exact hunused b hb
  · unfold bytes
    rw [hx1, hsize]
    rfl
  · unfold typeOf
    rw [hx1, hold]
    rfl

theorem msgpullup_copied {x : New} {len : Int} {alloc : Nat → Option New} {news : List (Option Nat)} (hne : m ≠ [])
    (hc : Counted h m) (hw : ∀ b ∈ m, WellFormed b) (hsmall : (leadingBytes h m).length < 2 ^ 31)
    (hlen : len ≤ (leadingBytes h m).length) (hx : alloc (leadingBytes h m).length = some x)
    (hs : x.Serves h (leadingBytes h m).length) :
    ∃ h' first k, msgpullup h m len alloc news =
        (if behind (leadingBytes h m).length m = [] then some (some [first], h')
        else (dupmsg h' (behind (leadingBytes h m).length m) news).map fun (cont, h) => (some (first :: cont.getD []), h)) ∧
      behind (leadingBytes h m).length m = m.drop k ∧ k ≤ (leading h m).length ∧ Counted h' (first :: m) ∧
      (∀ b ∈ m, view h' b = view h b) ∧ (∀ b ∈ m, refOf h' b = refOf h b) ∧ bytes h' first = leadingBytes h m ∧
      ((leading h m).drop k).flatMap (bytes h) = [] ∧ typeOf h' first = m.head?.bind (typeOf h) ∧
      size first = (leadingBytes h m).length := by
  obtain ⟨mp, rest, rfl⟩ := exists_cons_of_ne_nil hne
  obtain ⟨n, hn⟩ : ∃ n, (leadingBytes h (mp :: rest)).length = n := ⟨_, rfl⟩
  rw [hn] at hsmall hlen hx hs ⊢
  obtain ⟨old, hold⟩ := Option.isSome_iff_exists.mp (hc.isSome mem_cons_self)
  have hxsize : xmsgsize h (mp :: rest) = n := by
    rw [xmsgsize_eq fun b hb => hc.isSome hb, hn, Nat.mod_eq_of_lt (by omega)]
  obtain ⟨h1, newBp, hh1, hnewBp, hroom, hc1, hsame, hapart, hzero, hnone, htype1⟩ := newBp_spec hc hold hs
  have hm := leading_append_others h (mp :: rest)
  have hinm : ∀ b ∈ leading h (mp :: rest), b ∈ mp :: rest := fun b hb => hm ▸ mem_append_left _ hb
  have hflat : (leading h (mp :: rest)).flatMap (bytes h1) = leadingBytes h (mp :: rest) :=
    flatMap_view fun b hb => view_congr (hsame b (hinm b hb))
  obtain ⟨h', k, hres, hbehind, hk, hbytes, hempty, hother, hcount, htype⟩ :=
    copyLoop_spec hroom
      (fun b hb => by rw [hsame b (hinm b hb)]; exact hc.isSome (hinm b hb)) (fun b hb => hapart b (hinm b hb))
      (fun b hb => hw b (hinm b hb)) (by rw [hflat, hn])
  have hdrop := drop_leading hk
  rw [hm, ← hdrop] at hres hbehind
  have hview : ∀ b ∈ mp :: rest, h' b.bDatap = h b.bDatap := fun b hb => (hother _ (hapart b hb)).trans (hsame b hb)
  refine ⟨h', { newBp with bWptr := newBp.bWptr + n }, k, ?_, hbehind, hk, (hcount _ hc1).congr rfl,
    fun b hb => view_congr (hview b hb), ?_, ?_, ?_, ?_, ?_⟩
  · have hmod : ((n : Int) % 2 ^ 32).toNat = n := by omega
    have hcheck : ¬(0 < len ∧ (n : Int) < len) := by omega
    rw [msgpullup_cons, hxsize, ssize_eq hsmall, if_neg hcheck]
    unfold msgpullupAll
    rw [hmod, hx, hold]
    dsimp only
    rw [← hh1, ← hnewBp, hres, hbehind]
    cases (mp :: rest).drop k <;> rfl
  · intro b hb
    unfold refOf
    rw [hview b hb]
  · rw [hbytes, hflat, hnone, nil_append]
  · rw [← hempty]
    exact (flatMap_view fun b hb => view_congr (hsame b (hinm b (mem_of_mem_drop hb)))).symm
  · exact htype.trans htype1
  · have horder := hroom.order
    unfold size at hzero ⊢
    dsimp only
    omega

section Answer

variable {len : Int} {alloc : Nat → Option New} {news : List (Option Nat)} {x : New} {first : Mblk} {k : Nat}

lemma MsgpullupSafe.of_dup {h2 : Heap} {dup : List Mblk} (hres : msgpullup h m len alloc news = some (some (mp :: dup), h2))
    (hc : Counted h2 (mp :: dup ++ m)) (hk : k ≤ (leading h m).length) (hview : ∀ b ∈ m, view h2 b = view h b)
    (hdup : dup.map (content h2) = (m.drop k).map (content h2)) (hempty : ((leading h m).drop k).flatMap (bytes h) = [])
    (hbytes : bytes h2 mp = leadingBytes h m) (htype : typeOf h2 mp = m.head?.bind (typeOf h))
    (hsize : size mp = (leadingBytes h m).length) (hlen : len ≤ (leadingBytes h m).length) :
    MsgpullupSafe h m len alloc news := by
  refine ⟨_, h2, hres, hc.sublist (sublist_append_right _ m), hview, ?_⟩
  rintro m' ⟨⟩
  exact ⟨hc, pulled_copied hk hview hdup hempty hbytes htype hsize hlen⟩

lemma MsgpullupSafe.of_failed (hc : Counted h m) (hres : msgpullup h m len alloc news = some (none, h)) :
    MsgpullupSafe h m len alloc news :=
  ⟨none, h, hres, hc, fun _ _ => rfl, fun m' hm' => by cases hm'⟩

lemma MsgpullupSafe.pulled (hsafe : MsgpullupSafe h m len alloc news)
    (hres : msgpullup h m len alloc news = some (some m', h')) : Pulled h h' m m' len := by
  obtain ⟨r, h2, hres', -, -, hpulled⟩ := hsafe
  rw [hres] at hres'
  obtain ⟨rfl, rfl⟩ := Prod.mk.inj (Option.some.inj hres')
  exact (hpulled _ rfl).2

lemma not_pulled_alone (hothers : others h m ≠ []) : ¬Pulled h h' m [first] len := by
  rintro ⟨_, first', tail, j, i, hcons, _, _, hj, htail⟩
  obtain ⟨_, rfl⟩ := List.cons.inj hcons
  have hlost : (m.drop j).map (content h) = [] := by
    cases hl : (m.drop j).map (content h) with
    | nil => rfl
    | cons c l =>
      rw [hl] at htail
      cases htail
  rw [map_eq_nil_iff, drop_leading hj] at hlost
  exact hothers (append_eq_nil_iff.mp hlost).2

lemma msgpullup_made (hne : m ≠ []) (hc : Counted h m) (hw : ∀ b ∈ m, WellFormed b)
    (hsmall : (leadingBytes h m).length < 2 ^ 31) (hlen : len ≤ (leadingBytes h m).length)
    (hx : alloc (leadingBytes h m).length = some x) (hs : x.Serves h (leadingBytes h m).length) :
    MsgpullupSafe h m len alloc news ↔ ¬LosesOthers h m len alloc news := by
  obtain ⟨h', first, k, hres, hbehind, hk, hc', hview, href, hbytes, hempty, htype, hsize⟩ :=
    msgpullup_copied hne hc hw hsmall hlen hx hs
  by_cases hnil : behind (leadingBytes h m).length m = []
  · -- the message ends with its leading blocks
    rw [if_pos hnil] at hres
    have hothers : others h m = [] := by
      rw [hbehind, drop_leading hk] at hnil
      exact (append_eq_nil_iff.mp hnil).2
    refine iff_of_true (.of_dup hres hc' hk hview ?_ hempty hbytes htype hsize hlen)
      fun hlose => hlose.2.2.1 hothers
    rw [← hbehind, hnil]
  rw [if_neg hnil] at hres
  unfold dupmsg at hres
  have hcall : Counted h' ([] ++ (first :: m)) := hc'
  have hsub : behind (leadingBytes h m).length m ⊆ first :: m := by
    rw [hbehind]
    exact fun b hb => mem_cons_of_mem _ (mem_of_mem_drop hb)
  -- the counts of the rest are those before the call
  have hdupable : Dupable h' [] (behind (leadingBytes h m).length m) news ↔
      Dupable h [] (behind (leadingBytes h m).length m) news := by
    refine dupable_congr ?_
    rw [hbehind]
    exact fun b hb => href b (mem_of_mem_drop hb)
  have hstart : ∀ c, refOf h' c = refOf h' c + refs [] c.bDatap := fun c => (add_zero _).symm
  rcases dupmsgFrom_spec hcall hsub hstart with
    ⟨hdup, h2, dup, hres2, hc2, hview2, hcontent⟩ | ⟨hno, h2, hres2, hc2, hview2⟩
  · rw [hres2, nil_append] at hres
    have hview' : ∀ b ∈ m, view h2 b = view h b := fun b hb => (hview2 b).trans (hview b hb)
    refine iff_of_true (.of_dup hres (hc2.perm perm_middle) hk hview' ?_ hempty ?_ ?_ hsize hlen)
      fun hlose => hlose.2.2.2 (hdupable.mp hdup)
    · rw [← hbehind]
      exact hcontent h2
    · rw [bytes_view (hview2 first), hbytes]
    · rw [typeOf_view (hview2 first), htype]
  rw [hres2] at hres
  have hview' : ∀ b ∈ m, view h2 b = view h b := fun b hb =>
    (hview2 b (mem_cons_of_mem _ hb)).trans (hview b hb)
  have hfirst := hview2 first mem_cons_self
  by_cases hothers : others h m = []
  · -- only empty blocks of the leading type are missing
    have hend : m.drop (leading h m).length = [] := by
      rw [drop_leading le_rfl, hothers, append_nil, drop_length]
    refine iff_of_true (.of_dup hres hc2 le_rfl hview' ?_ ?_ ?_ ?_ hsize hlen)
      fun hlose => hlose.2.2.1 hothers
    · rw [hend]
      rfl
    · rw [drop_length]
      rfl
    · rw [bytes_view hfirst, hbytes]
    · rw [typeOf_view hfirst, htype]
  · refine iff_of_false ?_ (not_not.mpr ⟨hlen, by rw [hx]; rfl, hothers, fun hd => hno (hdupable.mpr hd)⟩)
    exact fun hsafe => not_pulled_alone hothers (hsafe.pulled hres)

lemma msgpullup_safe_iff (hne : m ≠ []) (hc : Counted h m) (hw : ∀ b ∈ m, WellFormed b)
    (hsmall : (leadingBytes h m).length < 2 ^ 31) (hnew : ∀ size x, alloc size = some x → x.Serves h size) :
    MsgpullupSafe h m len alloc news ↔ ¬LosesOthers h m len alloc news := by
  obtain ⟨mp, rest, rfl⟩ := exists_cons_of_ne_nil hne
  have hxsize : xmsgsize h (mp :: rest) = (leadingBytes h (mp :: rest)).length := by
    rw [xmsgsize_eq fun b hb => hc.isSome hb, mod_eq_of_lt (by omega)]
  by_cases hlen : len ≤ (leadingBytes h (mp :: rest)).length
  · cases hx : alloc (leadingBytes h (mp :: rest)).length with
    | none =>
      refine iff_of_true (.of_failed hc ?_) ?_
      · obtain ⟨old, hold⟩ := Option.isSome_iff_exists.mp (hc.isSome mem_cons_self)
        have hmod : (((leadingBytes h (mp :: rest)).length : Int) % 2 ^ 32).toNat = (leadingBytes h (mp :: rest)).length := by
          omega
        have hcheck : ¬(0 < len ∧ ((leadingBytes h (mp :: rest)).length : Int) < len) := by omega
        rw [msgpullup_cons, hxsize, ssize_eq hsmall, if_neg hcheck]
        unfold msgpullupAll
        rw [hmod, hx, hold]
      · rintro ⟨_, hsome, _⟩
        rw [hx] at hsome
        cases hsome
    | some x => exact msgpullup_made hne hc hw hsmall hlen hx (hnew _ x hx)
  · refine iff_of_true (.of_failed hc ?_) fun hlose => hlen hlose.1
    have hcheck : 0 < len ∧ ((leadingBytes h (mp :: rest)).length : Int) < len := by omega
    rw [msgpullup_cons, hxsize, ssize_eq hsmall, if_pos hcheck]

lemma ssize_wrapped {n : Nat} (hlo : 2 ^ 31 ≤ n) (hhi : n < 2 ^ 32) : ssize n = n - 2 ^ 32 := by
  unfold ssize
  rw [Int.bmod_def]
  split_ifs <;> omega

lemma copyLoop_nonpos (h : Heap) (newBp : Mblk) (m : List Mblk) (hlen : ¬0 < len) :
    copyLoop h newBp m len = some (h, newBp, m) := by
  cases m with
  | nil => exact if_neg hlen
  | cons b m => exact if_neg hlen

lemma pulled_empty {dup : List Mblk} (hlen : ¬0 < len) (hone : len ≠ -1) (hview : ∀ c ∈ m, view h' c = view h c)
    (hnone : bytes h' b = []) (htype : typeOf h' b = m.head?.bind (typeOf h)) (hdup : ∀ g, dup.map (content g) = m.map (content g)) :
    Pulled h h' m (b :: dup) len := by
  refine ⟨?_, b, dup, 0, 0, rfl, by omega, fun h1 => absurd h1 hone, zero_le _, ?_⟩
  · have hm := leading_append_others h m
    have hlead : ∀ c ∈ leading h m, view h' c = view h c := fun c hc => hview c (hm ▸ mem_append_left _ hc)
    have htypes : ∀ c ∈ b :: leading h m, typeOf h' c = m.head?.bind (typeOf h) := by
      refine forall_mem_cons.mpr ⟨htype, fun c hc => ?_⟩
      rw [typeOf_view (hlead c hc)]
      exact leading_type hc
    have hsame : leadingBytes h' (b :: dup) = leadingBytes h' (b :: m) :=
      leadingBytes_content (by rw [map_cons, map_cons, hdup h'])
    have hkept := (leading_kept (cons_ne_nil _ _) htypes fun c hc => hview c (hm ▸ mem_append_right _ hc)).1
    rw [cons_append, hm] at hkept
    rw [hsame, hkept, flatMap_cons, hnone, nil_append, flatMap_view hlead]
    rfl
  · rw [hdup h', map_content_view hview, drop_zero, dropFirst_zero]

lemma not_pulled_empty (hne : leadingBytes h m ≠ []) (hnone : bytes h' b = []) : ¬Pulled h h' m [b] len := by
  rintro ⟨hbytes, -⟩
  have hlead : leadingBytes h' [b] = bytes h' b := by
    unfold leadingBytes leading
    rw [takeWhile_cons_of_pos (by simp), takeWhile_nil, flatMap_singleton]
  rw [hlead, hnone] at hbytes
  exact hne hbytes.symm

lemma msgpullup_uncopied (hne : leadingBytes h m ≠ []) (hlen : ¬0 < len) (hc : Counted h' (b :: m))
    (hview : ∀ c ∈ m, view h' c = view h c) (href : ∀ c ∈ m, refOf h' c = refOf h c) (hsize : size b = 0)
    (hnone : bytes h' b = []) (htype : typeOf h' b = m.head?.bind (typeOf h))
    (hres : msgpullup h m len alloc news =
      (dupmsg h' m news).map fun (cont, g) => (some (b :: cont.getD []), g)) :
    MsgpullupSafe h m len alloc news ↔ len ≠ -1 ∧ Dupable h [] m news := by
  unfold dupmsg at hres
  have hcall : Counted h' ([] ++ (b :: m)) := hc
  have hstart : ∀ c, refOf h' c = refOf h' c + refs [] c.bDatap := fun c => (add_zero _).symm
  rcases @dupmsgFrom_spec _ _ _ _ [] [] news hcall (subset_cons_self b m) hstart with
    ⟨hdup, h2, dup, hres2, hc2, hview2, hcontent⟩ | ⟨hno, h2, hres2, hc2, hview2⟩
  · replace hres : msgpullup h m len alloc news = some (some (b :: dup), h2) := by
      rw [hres, hres2]
      rfl
    have hview' : ∀ c ∈ m, view h2 c = view h c := fun c hc => (hview2 c).trans (hview c hc)
    rw [and_iff_left ((dupable_congr href).mp hdup)]
    constructor
    · -- the first block should hold all leading bytes
      rintro hsafe hone
      obtain ⟨-, first, tail, -, -, hcons, -, hall, -, -⟩ := hsafe.pulled hres
      obtain ⟨rfl, -⟩ := List.cons.inj hcons
      rw [hsize] at hall
      exact hne (length_eq_zero_iff.mp (hall hone).symm)
    · intro hone
      refine ⟨_, h2, hres, (hc2.perm perm_middle).sublist (sublist_append_right (b :: dup) _), hview', ?_⟩
      rintro m' ⟨⟩
      refine ⟨hc2.perm perm_middle, pulled_empty hlen hone hview' ?_ ?_ hcontent⟩
      · rw [bytes_view (hview2 b), hnone]
      · rw [typeOf_view (hview2 b), htype]
  · replace hres : msgpullup h m len alloc news = some (some [b], h2) := by
      rw [hres, hres2]
      rfl
    refine iff_of_false (fun hsafe => not_pulled_empty hne ?_ (hsafe.pulled hres)) fun hboth =>
      hno ((dupable_congr href).mpr hboth.2)
    rw [bytes_view (hview2 b mem_cons_self), hnone]

/-- From `2 ^ 31` leading bytes on `totlen` is negative, and nothing is copied: the new block is empty, with a duplicate of the
whole message behind it. -/
theorem msgpullup_wrapped_iff (hne : m ≠ []) (hc : Counted h m) (hlo : 2 ^ 31 ≤ (leadingBytes h m).length)
    (hhi : (leadingBytes h m).length < 2 ^ 32) (hnew : ∀ size x, alloc size = some x → x.Serves h size) :
    MsgpullupSafe h m len alloc news ↔
      0 < len ∨ alloc (leadingBytes h m).length = none ∨ (len ≠ -1 ∧ Dupable h [] m news) := by
  obtain ⟨mp, rest, rfl⟩ := exists_cons_of_ne_nil hne
  have hsome : leadingBytes h (mp :: rest) ≠ [] := ne_nil_of_length_pos (by omega)
  obtain ⟨n, hn⟩ : ∃ n, (leadingBytes h (mp :: rest)).length = n := ⟨_, rfl⟩
  rw [hn] at hlo hhi ⊢
  have hxsize : xmsgsize h (mp :: rest) = n := by
    rw [xmsgsize_eq fun b hb => hc.isSome hb, hn, mod_eq_of_lt hhi]
  have hssize := ssize_wrapped hlo hhi
  by_cases hlen : 0 < len
  · refine iff_of_true (.of_failed hc ?_) (.inl hlen)
    rw [msgpullup_cons, hxsize, if_pos ⟨hlen, by omega⟩]
  obtain ⟨totlen, htotlen⟩ : ∃ totlen, ssize n = totlen := ⟨_, rfl⟩
  rw [htotlen] at hssize
  have hall : msgpullup h (mp :: rest) len alloc news = msgpullupAll h mp (mp :: rest) totlen alloc news := by
    rw [msgpullup_cons, hxsize, if_neg fun hcheck => hlen hcheck.1, htotlen]
  obtain ⟨old, hold⟩ := Option.isSome_iff_exists.mp (hc.isSome mem_cons_self)
  have hmod : (totlen % 2 ^ 32).toNat = n := by omega
  unfold msgpullupAll at hall
  rw [hmod, hold] at hall
  cases hx : alloc n with
  | none =>
    rw [hx] at hall
    exact iff_of_true (.of_failed hc hall) (.inr (.inl rfl))
  | some x =>
    obtain ⟨h1, newBp, hh1, hnewBp, -, hc1, hsame, -, hzero, hnone, htype⟩ := newBp_spec hc hold (hnew n x hx)
    have href : ∀ b ∈ mp :: rest, refOf h1 b = refOf h b := by
      intro b hb
      unfold refOf
      rw [hsame b hb]
    have hneg : ¬0 < totlen := by omega
    dsimp only at hh1 hnewBp
    rw [hx] at hall
    dsimp only at hall
    rw [← hh1, ← hnewBp, copyLoop_nonpos h1 newBp (mp :: rest) hneg] at hall
    rw [msgpullup_uncopied hsome hlen hc1 (fun b hb => view_congr (hsame b hb)) href hzero hnone htype hall,
      or_iff_right hlen]
    exact (or_iff_right fun hfail => by cases hfail).symm

/-- `pullupmsg` keeps a message whole, and so do both ways to pull it up but for blocks of other types that `msgpullup` cannot
duplicate. -/
theorem pullup_safe_iff (hne : m ≠ []) (hc : Counted h m) (hw : ∀ b ∈ m, WellFormed b) (hlo : -2 ^ 31 ≤ len)
    (hhi : len < 2 ^ 31) (hsmall : (leadingBytes h m).length < 2 ^ 31)
    (hnew : ∀ size x, alloc size = some x → x.Serves h size) :
    PullupSafe h m len alloc ∧
      ((PullupSafe h m len alloc ∧ MsgpullupSafe h m len alloc news) ↔ ¬LosesOthers h m len alloc news) := by
  have hpullup := pullupmsg_safe hne hc hw hlo hhi hsmall hnew
  refine ⟨hpullup, ?_⟩
  rw [and_iff_right hpullup]
  exact msgpullup_safe_iff hne hc hw hsmall hnew

end Answer

/-- A block of 10 bytes of one type and one of 20 bytes of another type. -/
def protoHeap : Heap := update (update (fun _ => none) 7
    (some ⟨some 0, 1000, 1100, 1, 1, 0, 50, .last .dblkLastfree, .dblkLastfree, fun _ => 1⟩)) 8
  (some ⟨some 0, 2000, 2100, 1, 0, 0, 51, .last .dblkLastfree, .dblkLastfree, fun _ => 2⟩)

def protoMessage : List Mblk := [⟨50, 7, 1000, 1010, 0, 0⟩, ⟨51, 8, 2000, 2020, 0, 0⟩]

def protoAlloc (size : Nat) : Option New :=
  if size ≤ 100 then some (.cached 0 9 (dblkConstructor (some 0) 3000 100 52 fun _ => 0)) else none

lemma protoMessage_counted : Counted protoHeap protoMessage := by
  intro b hb
  simp only [protoMessage, mem_cons, not_mem_nil, or_false] at hb
  rcases hb with rfl | rfl
  · exact ⟨_, rfl, by decide, .inr ⟨rfl, by decide⟩⟩
  · exact ⟨_, rfl, by decide, .inr ⟨rfl, by decide⟩⟩

lemma protoMessage_wellFormed : ∀ b ∈ protoMessage, WellFormed b := by
  refine forall_mem_cons.mpr ⟨⟨by decide, by decide, by decide⟩, ?_⟩
  exact forall_mem_singleton.mpr ⟨by decide, by decide, by decide⟩

lemma protoAlloc_serves : ∀ size x, protoAlloc size = some x → x.Serves protoHeap size := by
  intro size x hx
  unfold protoAlloc at hx
  by_cases hsize : size ≤ 100
  · rw [if_pos hsize] at hx
    obtain rfl := Option.some.inj hx
    refine ⟨rfl, rfl, ?_, by decide⟩
    change 3000 + size ≤ 3100
    omega
  · rw [if_neg hsize] at hx
    cases hx

lemma protoMessage_bytes : (leadingBytes protoHeap protoMessage).length = 10 := by decide +kernel

theorem pullup_safe_iff_sample :
    PullupSafe protoHeap protoMessage (-1) protoAlloc ∧
      ((PullupSafe protoHeap protoMessage (-1) protoAlloc ∧ MsgpullupSafe protoHeap protoMessage (-1) protoAlloc [some 60]) ↔
        ¬LosesOthers protoHeap protoMessage (-1) protoAlloc [some 60]) :=
  pullup_safe_iff (by decide) protoMessage_counted protoMessage_wellFormed (by decide) (by decide)
    (by rw [protoMessage_bytes]; decide) protoAlloc_serves

theorem msgpullup_not_safe :
    ¬(PullupSafe protoHeap protoMessage (-1) protoAlloc ∧ MsgpullupSafe protoHeap protoMessage (-1) protoAlloc [none]) := by
  rintro ⟨_, hsafe⟩
  refine (msgpullup_safe_iff (by decide) protoMessage_counted protoMessage_wellFormed
    (by rw [protoMessage_bytes]; decide) protoAlloc_serves).mp hsafe ⟨?_, ?_, ?_, ?_⟩
  · rw [protoMessage_bytes]
    decide
  · rw [protoMessage_bytes]
    rfl
  · decide
  · rw [protoMessage_bytes]
    rintro ⟨hsome, _⟩
    cases hsome

end Solaris.Blocks
