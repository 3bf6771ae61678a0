import Solaris.Tmpfs.Runs

/-!
# Calls that fail

A call of `tdirenter` that fails gives back what it has counted and made, but not what `tdirfixdotdot` has done before
there was no memory for the entry.
-/

namespace Solaris.Tmpfs

open Function Finset

variable {s s' s1 s2 : Fs} {a : Enter} {d t : NodeId} {x y e tdp : EntId} {err : Errno} {r : Entered}

/-- The table finds every entry, the entries lie in directories that exist, and no count is negative. -/
structure Intact (s : Fs) : Prop where
  hashed : Hashed s s.used
  parent : ∀ e ∈ s.used, (s.ents e).parent ∈ s.nodes
  nlink : ∀ n ∈ s.nodes, 0 ≤ (s.node n).nlink

lemma Sane.intact (h : Sane s) : Intact s where
  hashed := h.shape.hashed
  parent := h.shape.sited.parent
  nlink := fun n hn => (h.tally.nlink n hn).symm ▸ add_nonneg (naming_nonneg s s.used n) (le_refl 0)

structure Unchanged (s s' : Fs) : Prop where
  used : s'.used = s.used
  ents : ∀ e ∈ s.used, s'.ents e = s.ents e
  nlink : ∀ n ∈ s.nodes, (s'.node n).nlink = (s.node n).nlink
  size : ∀ n ∈ s.nodes, (s'.node n).size = (s.node n).size
  direntries : s'.direntries = s.direntries

/-- A directory gets an entry under a free name, as far as `tdirenter` and `tdiraddentry` check it. -/
def AddsDirectory (s : Fs) (a : Enter) : Prop :=
  a.op = .rename ∧ (s.node a.tp).type = .vdir ∧ EntersNew s a ∧ addentryError (bumpLink s a 1) a.dir a.tp = none

lemma Unchanged.refl (s : Fs) : Unchanged s s := ⟨rfl, fun _ _ => rfl, fun _ _ => rfl, fun _ _ => rfl, rfl⟩

lemma addNlink_undo (s : Fs) (n : NodeId) : (s.addNlink n 1).addNlink n (-1) = s := by
  unfold Fs.addNlink Fs.setNode
  simp only [update_self, update_idem, Int.add_neg_cancel_right, update_eq_self]

lemma bumpLink_undo (s : Fs) (a : Enter) : bumpLink (bumpLink s a 1) a (-1) = s := by
  unfold bumpLink
  split_ifs
  · exact addNlink_undo s a.tp
  · rfl

lemma chainFind_addNlink (s : Fs) (n : NodeId) (k : Int) (p : Tdirent → Bool) (fuel : Nat) (l : Option EntId) :
    chainFind (s.addNlink n k) p fuel l = chainFind s p fuel l := by
  induction fuel generalizing l with
  | zero => cases l <;> rfl
  | succ fuel ih =>
    cases l with
    | none => rfl
    | some e =>
      rw [chainFind, chainFind, ih]
      rfl

lemma tmpfsHashLookup_addNlink (s : Fs) (n : NodeId) (k : Int) (name : Name) (parent : NodeId) :
    tmpfsHashLookup (s.addNlink n k) name parent = tmpfsHashLookup s name parent := chainFind_addNlink ..

/-! ### Directories that are unmade -/

/-- `tdirtrunc` takes an entry off that is the first of its chain too. -/
def dropHead (s : Fs) (tm : MountId) (d : NodeId) (t : EntId) : Fs :=
  dropEntry (setLinkAt (dropFirst s d t) (tHashIndex (s.ents t).hash) none (s.ents t).link) tm d t

lemma tdirtruncLoop_head (hdir : (s.node d).dir = some x) (hhead : s.hashtable (tHashIndex (s.ents x).hash) = some x)
    (tm : MountId) (fuel : Nat) : tdirtruncLoop tm d (fuel + 1) s = tdirtruncLoop tm d fuel (dropHead s tm d x) := by
  have hslot : findSlot (dropFirst s d x) (tHashIndex (s.ents x).hash) x s.used.card none = some none := by
    unfold findSlot
    rw [show linkAt (dropFirst s d x) (tHashIndex (s.ents x).hash) none = some x from hhead]
    exact if_pos rfl
  have hout : tmpfsHashOut (dropFirst s d x) x =
      (true, setLinkAt (dropFirst s d x) (tHashIndex (s.ents x).hash) none (s.ents x).link) := by
    unfold tmpfsHashOut
    dsimp only
    rw [show findSlot (dropFirst s d x) (tHashIndex ((dropFirst s d x).ents x).hash) x (dropFirst s d x).used.card
      none = some none from hslot]
    rfl
  rw [tdirtruncLoop_succ hdir, hout]
  rfl

lemma dropHead_nlink (s : Fs) (tm : MountId) (d : NodeId) (t : EntId) (n : NodeId) :
    ((dropHead s tm d t).node n).nlink = (s.node n).nlink + only (s.ents t).tmpnode (-1) n := by
  rw [dropHead, dropEntry_field Tmpnode.nlink fun _ _ => rfl]
  change ((dropFirst s d t).node n).nlink = _
  rw [dropFirst, addNlink_nlink, setDir_field Tmpnode.nlink fun _ _ => rfl]

lemma dropHead_of_ne (s : Fs) (tm : MountId) {d n : NodeId} (t : EntId) (h : n ≠ d) :
    ((dropHead s tm d t).node n).size = (s.node n).size := by
  rw [dropHead, dropEntry, Fs.addDirentries, addSize_size, only, if_neg h, add_zero]
  exact dropFirst_field Tmpnode.size (fun _ _ => rfl) (fun _ _ => rfl) s d t n

lemma unmake_init {node : Tmpnode} (h : Intact s) (ht : t ∉ s.nodes) (hx : x ∉ s.used) (hy : y ∉ s.used) (hxy : x ≠ y)
    (htype : node.type = .vdir) :
    let S := initEntries (tmpnodeAlloc s t node) (vtotm (tmpnodeAlloc s t node) d) d t x y
    Unchanged s (unmake S (vtotm S d) t) := by
  have hempty : ∀ e ∈ s.used, (s.ents e).parent ≠ t := by
    rintro e he rfl
    exact ht (h.parent e he)
  have hhashed : Hashed (tmpnodeAlloc s t node) s.used :=
    h.hashed.congr (fun _ he => he) rfl (fun _ _ => rfl) (fun _ _ => rfl) (fun _ _ => rfl) fun _ _ => rfl
  have hi := initEntries_inited d hhashed hx hy hxy hempty (vtotm (tmpnodeAlloc s t node) d)
  dsimp only
  set m := vtotm (tmpnodeAlloc s t node) d
  set S := initEntries (tmpnodeAlloc s t node) m d t x y
  obtain ⟨-, hused, -, htable, hents, ⟨lx, hentx⟩, ⟨ly, henty⟩, hfield, hdir, hnlink, hsize, hdirentries⟩ := hi
  have hused : S.used = insert y (insert x s.used) := hused
  have hold : ∀ n, n ≠ t → (tmpnodeAlloc s t node).node n = s.node n := fun n hn => update_of_ne hn ..
  have hcard : S.used.card = s.used.card + 2 := by
    have hnot : y ∉ insert x s.used := by
      rw [mem_insert, not_or]
      exact ⟨hxy.symm, hy⟩
    rw [hused, card_insert_of_notMem hnot, card_insert_of_notMem hx]
  have hne : tHashIndex (tmpfsHashKey dotdot) ≠ tHashIndex (tmpfsHashKey dot) := by decide
  have hheadx : S.hashtable (tHashIndex (S.ents x).hash) = some x := by
    rw [hentx, htable]
    exact (update_of_ne hne.symm ..).trans (update_self ..)
  have hheady : (dropHead S m t x).hashtable (tHashIndex (S.ents y).hash) = some y := by
    have hy' : (dropHead S m t x).hashtable = update S.hashtable (tHashIndex (S.ents x).hash) (S.ents x).link := rfl
    rw [hy', hentx, henty, htable]
    exact (update_of_ne hne ..).trans (update_self ..)
  have htypeS : (S.node t).type = .vdir := by
    rw [hfield Tmpnode.type (fun _ _ => rfl) (fun _ _ => rfl) fun _ _ => rfl]
    exact (congrArg Tmpnode.type (update_self ..)).trans htype
  have hdirS : ∀ (s : Fs) (e : EntId), ((dropHead s m t e).node t).dir = (s.ents e).next := by
    intro s e
    rw [dropHead, dropEntry_field Tmpnode.dir fun _ _ => rfl]
    exact (dropFirst_dir ..).trans (if_pos rfl)
  rw [show vtotm S d = m from hfield Tmpnode.vfsp (fun _ _ => rfl) (fun _ _ => rfl) (fun _ _ => rfl) d, unmake,
    if_pos htypeS, tdirtrunc, hcard, tdirtruncLoop_head ((hdir t).trans (if_pos rfl)) hheadx,
    tdirtruncLoop_head ((hdirS S x).trans (congrArg Tdirent.next hentx)) hheady,
    tdirtruncLoop_nil ((hdirS (dropHead S m t x) y).trans (congrArg Tdirent.next henty))]
  refine ⟨?_, hents, ?_, ?_, ?_⟩
  · have herase : (S.used.erase x).erase y = s.used := by
      rw [hused, Finset.insert_comm, erase_insert, erase_insert hy]
      rw [mem_insert, not_or]
      exact ⟨hxy, hx⟩
    exact herase
  · intro n hn
    have hnt : n ≠ t := ne_of_mem_of_not_mem hn ht
    rw [Fs.setNode_of_ne _ _ hnt, dropHead_nlink, dropHead_nlink, hnlink, hold n hnt, hentx]
    rw [show (dropHead S m t x).ents y = S.ents y from rfl, henty]
    unfold only newEntry
    split_ifs <;> omega
  · intro n hn
    have hnt : n ≠ t := ne_of_mem_of_not_mem hn ht
    rw [Fs.setNode_of_ne _ _ hnt, dropHead_of_ne _ _ _ hnt, dropHead_of_ne _ _ _ hnt, hsize, if_neg hnt, hold n hnt]
  · funext k
    have hsame : (tmpnodeAlloc s t node).direntries k = s.direntries k := rfl
    have hk : ((Fs.addDirentries (Fs.addDirentries S m (-1)) m (-1)).direntries k) = s.direntries k := by
      rw [addDirentries_direntries, addDirentries_direntries, hdirentries, hsame]
      unfold only
      split_ifs <;> omega
    exact hk

/-! ### Which calls change something -/

lemma tdirfixdotdot_error {fromtp fromparent toparent : NodeId}
    (h : (tdirfixdotdot s fromtp fromparent toparent).1 = some err) : err = .panic := by
  unfold tdirfixdotdot at h
  dsimp only at h
  split at h
  · exact (Option.some.inj h).symm
  · split_ifs at h

lemma replaceEntry_error {fromparent fromtp toparent target : NodeId}
    (h : (replaceEntry s fromparent fromtp toparent target tdp).1 = some err) : err = .panic := by
  unfold replaceEntry at h
  dsimp only at h
  split_ifs at h
  exact tdirfixdotdot_error h

lemma installEntry_error {name : Name} {entry : Option EntId} (h : (installEntry s d t name entry).1 = some err)
    (herr : err ≠ .panic) : (installEntry s d t name entry).2 = s := by
  cases entry with
  | none => rfl
  | some tdp =>
    unfold installEntry at h
    dsimp only at h
    split at h
    · exact absurd (Option.some.inj h).symm herr
    · split at h
      · exact absurd (Option.some.inj h).symm herr
      · cases h

lemma tdiraddentry_error {name : Name} {op : DeOp} {fromparent : NodeId} {entry : Option EntId}
    (hmove : ¬(op = .rename ∧ (s.node t).type = .vdir ∧ addentryError s d t = none))
    (h : tdiraddentry s d t name op fromparent entry = (some err, s')) (herr : err ≠ .panic) : s' = s := by
  unfold tdiraddentry at h
  split at h
  · exact (Prod.mk.inj h).2.symm
  next hcheck =>
  rw [if_neg fun hboth => hmove ⟨hboth.1, hboth.2, hcheck⟩] at h
  have hsame := installEntry_error (congrArg Prod.fst h) herr
  rwa [h] at hsame

lemma enterFound_error (h : (enterFound s a tdp).error = some err) (herr : err ≠ .panic) :
    (enterFound s a tdp).fs = s := by
  unfold enterFound at h ⊢
  dsimp only at h ⊢
  split
  · split_ifs <;> rfl
  · split_ifs <;> rfl
  · split
    · rfl
    · next hop _ hcheck =>
      rw [hop] at h
      dsimp only at h
      rw [hcheck] at h
      exact absurd (replaceEntry_error h) herr
  · rfl

lemma enterNew_links_error (hlinks : a.op.links = true)
    (hmove : tmpTaccess (s.node a.dir) VWRITE a.cred = none →
      ¬(a.op = .rename ∧ (s.node a.tp).type = .vdir ∧ addentryError s a.dir a.tp = none))
    (hr : enterNew s a = r) (he : r.error = some err) (herr : err ≠ .panic) : r.fs = s := by
  unfold enterNew at hr
  split at hr
  · rw [← hr]
  next haccess =>
  rw [if_pos hlinks] at hr
  split at hr
  · next error s2 hadd =>
    subst hr
    rw [Option.some.inj he] at hadd
    exact tdiraddentry_error (hmove haccess) hadd herr
  · subst hr
    cases he

lemma unchanged_alloc (ht : t ∉ s.nodes) (node : Tmpnode) : Unchanged s (tmpnodeAlloc s t node) := by
  have hold : ∀ n ∈ s.nodes, (tmpnodeAlloc s t node).node n = s.node n := fun n hn =>
    update_of_ne (ne_of_mem_of_not_mem hn ht) ..
  exact ⟨rfl, fun _ _ => rfl, fun n hn => congrArg _ (hold n hn), fun n hn => congrArg _ (hold n hn), rfl⟩

lemma unchanged_unmake {node : Tmpnode} (ht : t ∉ s.nodes) (htype : node.type ≠ .vdir) (m : MountId) :
    Unchanged s (unmake (tmpnodeAlloc s t node) m t) := by
  have hself : (tmpnodeAlloc s t node).node t = node := update_self ..
  unfold unmake
  rw [hself, if_neg htype]
  have hold : ∀ n ∈ s.nodes, ((tmpnodeAlloc s t node).setNode t fun t => { t with nlink := 0 }).node n = s.node n := by
    intro n hn
    have hne := ne_of_mem_of_not_mem hn ht
    rw [Fs.setNode_of_ne _ _ hne]
    exact update_of_ne hne ..
  exact ⟨rfl, fun _ _ => rfl, fun n hn => congrArg _ (hold n hn), fun n hn => congrArg _ (hold n hn), rfl⟩

lemma enterNew_makes_error (hs : Intact s) (hlegal : a.Legal s) (hlinks : a.op.links ≠ true) (hr : enterNew s a = r)
    (he : r.error = some err) (herr : err ≠ .panic) : Unchanged s r.fs := by
  have hrename : a.op ≠ .rename := fun hop => hlinks (by rw [hop]; rfl)
  unfold enterNew at hr
  split at hr
  · exact hr ▸ Unchanged.refl s
  rw [if_neg hlinks] at hr
  split at hr
  · next error s1 hmake =>
    subst hr
    unfold tdirmaketnode at hmake
    split at hmake
    · cases hmake
      exact Unchanged.refl s
    next t hnode =>
    dsimp only at hmake
    split_ifs at hmake
    · unfold tdirinit at hmake
      split at hmake
      · next heq =>
        split at heq <;> cases heq
        cases hmake
        exact unchanged_alloc (hlegal.node t hnode) _
      · cases hmake
    · cases hmake
  next t s1 hmake =>
  split at hr
  · next error s2 hadd =>
    subst hr
    rw [Option.some.inj he] at hadd
    rw [tdiraddentry_error (fun hm => hrename hm.1) hadd herr]
    unfold tdirmaketnode at hmake
    split at hmake
    · cases hmake
    next t hnode =>
    dsimp only at hmake
    split_ifs at hmake with hop
    · unfold tdirinit at hmake
      split at hmake
      · cases hmake
      next heq =>
      split at heq
      · next x y hx hy =>
        cases heq
        cases hmake
        have hy' := hlegal.dotdot y hy
        exact unmake_init hs (hlegal.node t hnode) (hlegal.dot x hx) hy'.1 (fun hxy => hy'.2 (hxy ▸ hx))
          (hlegal.mkdir hop)
      · cases heq
    · cases hmake
      refine unchanged_unmake (hlegal.node t hnode) (hlegal.create ?_) _
      cases hcase : a.op with
      | create => rfl
      | mkdir => exact absurd hcase hop
      | link => exact absurd (by rw [hcase]; rfl) hlinks
      | rename => exact absurd hcase hrename
  · subst hr
    cases he

lemma tdirfixdotdot_unchanged_iff {fromparent : NodeId} (hs : Intact s) (hd : d ∈ s.nodes) (htp : d ≠ t)
    (hlookup : tmpfsHashLookup s dotdot t = some tdp)
    (hfix : tdirfixdotdot (s.addNlink t 1) t fromparent d = (none, s')) :
    Unchanged s (s'.addNlink t (-1)) ↔ fromparent = d ∧ (s.ents tdp).tmpnode = d := by
  have htdp := (tmpfsHashLookup_some hs.hashed hlookup).1
  have hnd := hs.nlink d hd
  unfold tdirfixdotdot at hfix
  dsimp only at hfix
  rw [tmpfsHashLookup_addNlink, tmpfsHashLookup_addNlink, hlookup] at hfix
  dsimp only at hfix
  set s1 := ((s.addNlink t 1).addNlink d 1).setEnt tdp fun td => { td with tmpnode := d } with hs1
  have hnlink1 : ∀ n, (s1.node n).nlink = (s.node n).nlink + only t 1 n + only d 1 n := fun n =>
    (addNlink_nlink (s.addNlink t 1) d 1 n).trans (by rw [addNlink_nlink])
  have hsize1 : ∀ n, (s1.node n).size = (s.node n).size := fun n =>
    (addNlink_field Tmpnode.size (fun _ _ => rfl) (s.addNlink t 1) d 1 n).trans (addNlink_field _ (fun _ _ => rfl) ..)
  obtain ⟨k, hk, hnlink, hsize, hents, hrest⟩ : ∃ k : Int, (k = if (s1.node fromparent).nlink ≠ 0 then -1 else 0) ∧
      (∀ n, (s'.node n).nlink = (s1.node n).nlink + only fromparent k n) ∧
      (∀ n, (s'.node n).size = (s1.node n).size) ∧ s'.ents = s1.ents ∧ s'.used = s.used ∧
      s'.direntries = s.direntries := by
    split_ifs at hfix with hzero <;> rw [← (Prod.mk.inj hfix).2]
    · exact ⟨-1, (if_pos hzero).symm, addNlink_nlink s1 fromparent (-1),
        addNlink_field Tmpnode.size (fun _ _ => rfl) s1 fromparent (-1), rfl, rfl, rfl⟩
    · refine ⟨0, (if_neg hzero).symm, fun n => ?_, fun _ => rfl, rfl, rfl, rfl⟩
      rw [only, ite_self, add_zero]
  constructor
  · intro h
    have hn := h.nlink d hd
    have he := h.ents tdp htdp
    rw [addNlink_nlink, hnlink, hnlink1] at hn
    unfold only at hn
    rw [if_neg htp, if_neg htp, if_pos rfl] at hn
    refine ⟨?_, ?_⟩
    · by_contra hne
      rw [if_neg fun heq => hne heq.symm] at hn
      omega
    · rw [← he, show (s'.addNlink t (-1)).ents = s1.ents from hents, hs1, Fs.setEnt_self]
  · rintro ⟨rfl, htmpnode⟩
    refine ⟨hrest.1, fun e _ => ?_, fun n _ => ?_, fun n _ => ?_, hrest.2⟩
    · rw [show (s'.addNlink t (-1)).ents = s1.ents from hents, hs1]
      by_cases he : e = tdp
      · rw [he, Fs.setEnt_self]
        exact congrArg (fun k => { s.ents tdp with tmpnode := k }) htmpnode.symm
      · exact Fs.setEnt_of_ne _ _ he
    · rw [if_pos (by rw [hnlink1, only, if_neg htp, only, if_pos rfl]; omega)] at hk
      rw [addNlink_nlink, hnlink, hnlink1, hk]
      unfold only
      split_ifs <;> omega
    · rw [addNlink_field Tmpnode.size fun _ _ => rfl, hsize, hsize1]

lemma enterOut_error {q : Entered} (hr : enterOut a q = r) (he : r.error = some err) :
    q.error = some err ∧ r.fs = bumpLink q.fs a (-1) := by
  unfold enterOut at hr
  split at hr
  · subst hr
    exact ⟨he, rfl⟩
  · next hnone =>
    rw [hr, he] at hnone
    cases hnone

lemma addsDirectory_iff (hs : Intact s) (hlegal : a.Legal s) (hadds : AddsDirectory s a)
    (hq : enterSearched (bumpLink s a 1) a = r) (he : r.error = some err) (herr : err ≠ .panic) :
    Unchanged s (bumpLink r.fs a (-1)) ↔ a.fromparent = a.dir ∧ DotdotNames s a.tp a.dir := by
  obtain ⟨hop, htype, ⟨⟨-, -, hsearch⟩, hcheck, haccess⟩, hadd⟩ := hadds
  have hlinks : a.op.links = true := by rw [hop]; rfl
  have hbump : ∀ s k, bumpLink s a k = s.addNlink a.tp k := fun s k => if_pos hlinks
  rw [hbump] at hsearch hcheck haccess hadd hq ⊢
  have htp : a.dir ≠ a.tp := by
    intro heq
    unfold searchError at hsearch
    split at hsearch
    · cases hsearch
    split at hsearch
    · cases hsearch
    rw [if_pos heq.symm] at hsearch
    cases hsearch
  have htype' : ((s.addNlink a.tp 1).node a.tp).type = .vdir := by rwa [addNlink_field Tmpnode.type fun _ _ => rfl]
  unfold enterSearched at hq
  rw [hcheck] at hq
  dsimp only at hq
  unfold enterNew at hq
  rw [haccess] at hq
  dsimp only at hq
  rw [if_pos hlinks] at hq
  unfold tdiraddentry at hq
  rw [hadd] at hq
  dsimp only at hq
  rw [if_pos ⟨hop, htype'⟩] at hq
  split at hq
  · next error s' hadd =>
    subst hq
    rw [Option.some.inj he] at hadd
    split at hadd
    · next hfix =>
      have hpanic := tdirfixdotdot_error (congrArg Prod.fst hfix)
      exact absurd ((Option.some.inj (Prod.mk.inj hadd).1).symm.trans hpanic) herr
    · next s3 hfix =>
      have hsame := installEntry_error (congrArg Prod.fst hadd) herr
      rw [hadd] at hsame
      have hsome : tmpfsHashLookup s dotdot a.tp ≠ none := by
        intro hnone
        unfold tdirfixdotdot at hfix
        dsimp only at hfix
        rw [tmpfsHashLookup_addNlink, tmpfsHashLookup_addNlink, hnone] at hfix
        cases hfix
      obtain ⟨tdp, hlookup⟩ := Option.ne_none_iff_exists'.mp hsome
      dsimp only at hsame ⊢
      rw [hsame, tdirfixdotdot_unchanged_iff hs hlegal.dir htp hlookup hfix]
      refine and_congr_right fun _ => ⟨fun h => ⟨tdp, hlookup, h⟩, ?_⟩
      rintro ⟨e, he, hnames⟩
      rwa [Option.some.inj (hlookup.symm.trans he)]
  · subst hq
    cases he

/-- A call that fails leaves everything as it was, but for a directory whose `..` has been changed. -/
theorem tdirenter_unchanged_iff (hs : Intact s) (hlegal : a.Legal s) (hr : tdirenter s a = some r)
    (he : r.error = some err) (herr : err ≠ .panic) :
    Unchanged s r.fs ↔ (AddsDirectory s a → a.fromparent = a.dir ∧ DotdotNames s a.tp a.dir) := by
  have hearly : (¬Searches s a) → r.fs = s → (Unchanged s r.fs ↔ (AddsDirectory s a →
      a.fromparent = a.dir ∧ DotdotNames s a.tp a.dir)) := fun hnot heq =>
    iff_of_true (heq ▸ Unchanged.refl s) fun h => absurd h.2.2.1.1 hnot
  unfold tdirenter at hr
  split at hr
  · next hname =>
    cases hr
    exact hearly (fun h => by simp [h.1] at hname) rfl
  split at hr
  · next hlink =>
    cases hr
    exact hearly (fun h => by simp [h.2.1] at hlink) rfl
  next hname hlink =>
  dsimp only at hr
  split at hr
  · cases hr
  · next hsearch =>
    cases hr
    refine hearly (fun h => by simp [h.2.2] at hsearch) ?_
    exact (enterOut_error rfl he).2.trans (bumpLink_undo s a)
  next hsearch =>
  obtain ⟨hq, hfs⟩ := enterOut_error (Option.some.inj hr) he
  rw [hfs]
  by_cases hadds : AddsDirectory s a
  · rw [forall_prop_of_true hadds]
    exact addsDirectory_iff hs hlegal hadds rfl hq herr
  refine iff_of_true ?_ fun h => absurd h hadds
  have hsame : ∀ q : Entered, q.fs = bumpLink s a 1 → Unchanged s (bumpLink q.fs a (-1)) := fun q hq =>
    (congrArg (bumpLink · a (-1)) hq).trans (bumpLink_undo s a) ▸ Unchanged.refl s
  unfold enterSearched at hq ⊢
  split at hq
  · exact hsame _ (enterFound_error hq herr)
  · next hcheck =>
    by_cases hlinks : a.op.links = true
    · have hbump : bumpLink s a 1 = s.addNlink a.tp 1 := if_pos hlinks
      refine hsame _ (enterNew_links_error hlinks (fun haccess hm => hadds ?_) rfl hq herr)
      have htype := hm.2.1
      rw [hbump, addNlink_field Tmpnode.type fun _ _ => rfl] at htype
      exact ⟨hm.1, htype, ⟨⟨by assumption, by assumption, hsearch⟩, hcheck, haccess⟩, hm.2.2⟩
    · have hbump : ∀ s k, bumpLink s a k = s := fun _ _ => if_neg hlinks
      rw [hbump] at hq ⊢
      rw [hbump]
      exact enterNew_makes_error hs hlegal hlinks rfl hq herr
  · exact hsame _ rfl

/-- A directory `a/y` is made, but there is no memory for its entry in `a`, and it is unmade. -/
theorem tdirenter_unchanged_iff_sample :
    ∃ r, tdirenter sampleX { mkdirCall 2 121 5 12 with mem := ⟨some 5, some 12, some 13, none⟩ } = some r ∧
      Unchanged sampleX r.fs := by
  have hfails : (tdirenter sampleX { mkdirCall 2 121 5 12 with mem := ⟨some 5, some 12, some 13, none⟩ }).map Entered.error =
    some (some .enospc) := by decide +kernel
  obtain ⟨r, hr, he⟩ := Option.map_eq_some_iff.mp hfails
  refine ⟨r, hr, (tdirenter_unchanged_iff sampleX_reached.sane.intact ?_ hr he (by decide)).mpr
    fun h => absurd h.1 (by decide)⟩
  exact ⟨by decide +kernel, by decide +kernel, by decide, by decide, by decide, by decide +kernel, by decide +kernel,
    by decide +kernel, by decide⟩

/-- `a/x` is renamed to `b/x`, and there is no memory for the entry: `b` keeps the link that it has got. -/
theorem failed_rename_changes : ¬∀ s a r err, Intact s → a.Legal s → tdirenter s a = some r → r.error = some err →
    err ≠ .panic → err ≠ .esame → Unchanged s r.fs := by
  intro hall
  have hfails : (tdirenter sampleX (renameCall 2 4 3 120 none)).map (fun r => (r.error, (r.fs.node 3).nlink)) =
    some (some .enospc, 3) := by decide +kernel
  obtain ⟨r, hr, heq⟩ := Option.map_eq_some_iff.mp hfails
  have hun := hall _ _ r .enospc sampleX_reached.sane.intact ⟨by decide +kernel, by decide +kernel, by decide +kernel,
    by decide, by decide, by decide, by decide, by decide, by decide⟩ hr (Prod.mk.inj heq).1 (by decide) (by decide)
  have hlink := (Prod.mk.inj heq).2.symm.trans (hun.nlink 3 (by decide +kernel))
  exact absurd hlink (by decide +kernel)

end Solaris.Tmpfs
