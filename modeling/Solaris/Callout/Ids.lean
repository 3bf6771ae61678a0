import Solaris.Callout.Runs

/-!
# Callout identifiers

What `callout_insert` returns over any number of calls. The counter of a bucket and a class wraps after `2 ^ 19` of its
insertions, and until then an identifier leads `callout_delete` to the callout that was given it.
-/

namespace Solaris.Callouts

open Lib Nat Function BitVec List List Bool

/-- An identifier that has been returned, the time at which its callout is to run, and how far ahead that was. -/
structure Issue where
  id : BitVec 32
  runtime : Int
  ahead : Int

namespace Issue

def bucket (x : Issue) : Nat := bucketOf x.runtime

def isLong (x : Issue) : Bool := longtermTicks < x.ahead

def sameClass (x y : Issue) : Bool := x.bucket = y.bucket ∧ x.isLong = y.isLong

end Issue

/-- `c_runtime` of the new callout. -/
def runtimeOf (cs : Table) (lbolt delta : Int) : Int :=
  if diff (lbolt + delta) cs.curtime ≤ 0 then cs.curtime + 1 else lbolt + delta

def issue (cs : Table) (lbolt delta : Int) (fresh : Nat) (unsafeHeld : Bool) (serial : Nat) : Issue :=
  ⟨(calloutInsert cs lbolt delta fresh unsafeHeld serial).1, runtimeOf cs lbolt delta,
    diff (runtimeOf cs lbolt delta) cs.curtime⟩

/-- Tables after any insertions, with the identifiers returned and the insertions whose callouts have left the table. In
between, callouts leave their buckets or are marked as executing, and times and freelist change. -/
inductive Issued (tableId : BitVec 32) : Table → List Issue → List Nat → Prop
  | setup (lbolt : Int) : Issued tableId (calloutSetup tableId lbolt) [] []
  | insert {cs : Table} {log : List Issue} {gone : List Nat} (lbolt delta : Int) (fresh : Nat) (unsafeHeld : Bool) :
      Issued tableId cs log gone →
      Issued tableId (calloutInsert cs lbolt delta fresh unsafeHeld log.length).2
        (log ++ [issue cs lbolt delta fresh unsafeHeld log.length]) gone
  | leave {cs : Table} {log : List Issue} {gone : List Nat} {i : Nat} {pre post : List Callout} {c : Callout} :
      Issued tableId cs log gone → (cs.bucket i).first = pre ++ c :: post →
      Issued tableId (cs.setFirst i (pre ++ post)) log (c.serial :: gone)
  | start {cs : Table} {log : List Issue} {gone : List Nat} {i : Nat} {pre post : List Callout} {c : Callout} (t : Nat) :
      Issued tableId cs log gone → (cs.bucket i).first = pre ++ c :: post →
      Issued tableId (cs.setFirst i (pre ++ c.start t :: post)) log gone
  | change {cs : Table} {log : List Issue} {gone : List Nat} (curtime runtime : Int) (freelist : List Callout) :
      Issued tableId cs log gone → Issued tableId { cs with curtime, runtime, freelist } log gone

def counted (i : Nat) (isLong : Bool) (log : List Issue) : Nat :=
  log.countP fun x => x.bucket = i ∧ x.isLong = isLong

/-- The identifier that a counter shows in the table `2 ^ 28 * t`. -/
def idValue (t i : Nat) (isLong : Bool) (count : Nat) : Nat :=
  2 ^ 28 * t + ((if isLong then 2 ^ 27 else 0) + (i + 256 * (count % 2 ^ 19)))

variable {tableId : BitVec 32} {cs cs' : Table} {log : List Issue} {gone : List Nat} {t i j k m n y : Nat} {isLong isLong' : Bool}
  {x x' z : Issue} {c cp : Callout} {id : BitVec 32}

lemma and_high (hy : y < 2 ^ 28) (k : Nat) : (2 ^ 28 * t + y) &&& (2 ^ 28 * k) = 2 ^ 28 * (t &&& k) := by
  have hzero : ∀ a : Nat, 2 ^ 28 * a = 2 ^ 28 * a + 0 := fun a => rfl
  apply Nat.eq_of_testBit_eq
  intro j
  rw [hzero k, hzero (t &&& k), Nat.testBit_and, Nat.testBit_two_pow_mul_add _ hy,
    Nat.testBit_two_pow_mul_add _ (Nat.two_pow_pos 28), Nat.testBit_two_pow_mul_add _ (Nat.two_pow_pos 28)]
  by_cases hj : j < 28
  · simp only [hj, if_true, Nat.zero_testBit, Bool.and_false]
  · simp only [hj, if_false, Nat.testBit_and]

lemma idValue_low (isLong : Bool) (k : Nat) (hi : i < 256) : (if isLong then 2 ^ 27 else 0) + (i + 256 * (k % 2 ^ 19)) < 2 ^ 28 := by
  split_ifs <;> omega

lemma idValue_inj (hi : i < 256) (hj : j < 256) (h : idValue t i isLong k = idValue t j isLong' m) :
    i = j ∧ isLong = isLong' ∧ k % 2 ^ 19 = m % 2 ^ 19 := by
  have hlow : i = j := by
    have hmod := congrArg (· % 256) h
    unfold idValue at hmod
    cases isLong <;> cases isLong' <;> simp only [if_true, if_false, false_eq_true] at hmod <;> omega
  subst hlow
  unfold idValue at h
  cases isLong <;> cases isLong' <;> simp only [if_true, if_false, false_eq_true] at h
  · exact ⟨rfl, rfl, by omega⟩
  · omega
  · omega
  · exact ⟨rfl, rfl, by omega⟩

theorem id_bits (ht : t < 4) (hi : i < 256) (hid : id.toNat = idValue t i isLong k) :
    id &&& (realtimeId ||| normalId) = BitVec.ofNat 32 (2 ^ 28 * (t &&& 3)) ∧ id &&& (executingBit ||| unsafeDriverBit) = 0 ∧
      (id &&& longterm ≠ 0 ↔ isLong = true) ∧ (id &&& 255).toNat = i := by
  have hlow := idValue_low isLong k hi
  refine ⟨?_, ?_, ?_, ?_⟩
  · apply eq_of_toNat_eq
    have hmask : (realtimeId ||| normalId).toNat = 2 ^ 28 * 3 := by decide
    have h3 : t &&& 3 < 4 := lt_of_le_of_lt and_le_right (by decide)
    rw [toNat_and, hid, hmask, idValue, and_high hlow, toNat_ofNat, mod_eq_of_lt (by omega)]
  · apply eq_of_toNat_eq
    have hmask : (executingBit ||| unsafeDriverBit).toNat = 2 ^ 28 * 12 := by decide
    have hnone : t &&& 12 = 0 := by
      interval_cases t <;> rfl
    rw [toNat_and, hid, hmask, idValue, and_high hlow, hnone]
    rfl
  · have hbit : longterm.toNat = 2 ^ 27 := by decide
    have htest : (idValue t i isLong k).testBit 27 = isLong := by
      rw [testBit_eq_decide_div_mod_eq]
      unfold idValue
      cases isLong <;> simp only [if_true, if_false, false_eq_true, decide_eq_true_eq, decide_eq_false_iff_not] <;> omega
    have hval : (id &&& longterm).toNat = isLong.toNat * 2 ^ 27 := by
      rw [toNat_and, hid, hbit, and_two_pow, htest]
    rw [Ne, ← toNat_inj, hval]
    cases isLong <;> decide
  · have hmask : (255 : BitVec 32).toNat = 2 ^ 8 - 1 := by decide
    rw [toNat_and, hid, hmask, and_two_pow_sub_one_eq_mod]
    unfold idValue
    cases isLong <;> simp only [if_true, if_false, false_eq_true] <;> omega

/-- The mask of `callout_delete` takes away what `callout_insert` and `callout_execute` have put in. -/
theorem and_idMask (hid : id.toNat < 2 ^ 30) : id &&& idMask = id := by
  apply eq_of_toNat_eq
  have hmask : idMask.toNat = 2 ^ 30 - 1 := by decide
  rw [toNat_and, hmask, and_two_pow_sub_one_eq_mod, mod_eq_of_lt hid]

lemma or_and_idMask {b : BitVec 32} (hb : b &&& idMask = 0) : (id ||| b) &&& idMask = id &&& idMask := by
  rw [BitVec.and_or_distrib_right, hb]
  exact BitVec.or_zero

def Counts (t : Nat) (cs : Table) (log : List Issue) : Prop :=
  ∀ i < 256, (cs.bucket i).shortId.toNat = idValue t i false (counted i false log) ∧
    (cs.bucket i).longId.toNat = idValue t i true (counted i true log)

def Genuine (t : Nat) (log : List Issue) : Prop :=
  ∀ (n : Nat) x, log[n]? = some x → x.id.toNat = idValue t x.bucket x.isLong (counted x.bucket x.isLong (log.take (n + 1)))

lemma counted_concat : counted i isLong (log ++ [x]) =
    counted i isLong log + if x.bucket = i ∧ x.isLong = isLong then 1 else 0 := by
  unfold counted
  rw [countP_append, countP_singleton]
  simp only [decide_eq_true_eq]

lemma nextId_value {b : Bucket} (isLong : Bool) (ht : t < 4) (hi : i < 256) (hs : b.shortId.toNat = idValue t i false k)
    (hl : b.longId.toNat = idValue t i true m) :
    (b.nextId isLong).1.toNat = idValue t i isLong ((if isLong then m else k) + 1) := by
  unfold idValue at hs hl ⊢
  cases isLong with
  | false =>
    have hid := nextId_short (b := b) (m := i + 256 * (k % 2 ^ 19)) ht (by omega) (by simpa using hs)
    simp only [if_false, false_eq_true]
    omega
  | true =>
    have hid := nextId_long (b := b) (m := i + 256 * (m % 2 ^ 19)) (t := t) (by omega)
      (by simp only [if_true] at hl; omega)
    simp only [if_true]
    omega

def newCallout (cs : Table) (lbolt delta : Int) (fresh : Nat) (unsafeHeld : Bool) (serial : Nat) : Callout :=
  { cs.freelist.headD ⟨fresh, 0, 0, 0, 0⟩ with
    xid := if unsafeHeld then (issue cs lbolt delta fresh unsafeHeld serial).id ||| unsafeDriverBit
      else (issue cs lbolt delta fresh unsafeHeld serial).id
    runtime := runtimeOf cs lbolt delta
    serial }

variable {lbolt delta : Int} {fresh serial : Nat} {unsafeHeld : Bool}

lemma nextId_first (b : Bucket) (isLong : Bool) : (b.nextId isLong).2.first = b.first := by
  cases isLong <;> rfl

lemma issue_id : (issue cs lbolt delta fresh unsafeHeld serial).id =
    ((cs.bucket (issue cs lbolt delta fresh unsafeHeld serial).bucket).nextId
      (issue cs lbolt delta fresh unsafeHeld serial).isLong).1 := by
  unfold issue calloutInsert Issue.bucket Issue.isLong runtimeOf
  rfl

lemma calloutInsert_bucket (j : Nat) : (calloutInsert cs lbolt delta fresh unsafeHeld serial).2.bucket j =
    if j = (issue cs lbolt delta fresh unsafeHeld serial).bucket then
      { ((cs.bucket j).nextId (issue cs lbolt delta fresh unsafeHeld serial).isLong).2 with
        first := newCallout cs lbolt delta fresh unsafeHeld serial :: (cs.bucket j).first }
    else cs.bucket j := by
  split_ifs with hj
  · subst hj
    rw [← nextId_first (cs.bucket _) (issue cs lbolt delta fresh unsafeHeld serial).isLong]
    unfold issue newCallout calloutInsert Issue.bucket Issue.isLong runtimeOf
    exact update_self ..
  · unfold issue Issue.bucket runtimeOf at hj
    unfold calloutInsert
    exact update_of_ne hj ..

lemma Issue.bucket_lt (x : Issue) : x.bucket < 256 := bucketOf_lt x.runtime

lemma Counts.insert (h : Counts t cs log) (ht : t < 4) :
    Counts t (calloutInsert cs lbolt delta fresh unsafeHeld serial).2
      (log ++ [issue cs lbolt delta fresh unsafeHeld serial]) := by
  intro i hi
  rw [calloutInsert_bucket, counted_concat, counted_concat]
  obtain ⟨hs, hl⟩ := h i hi
  by_cases hb : i = (issue cs lbolt delta fresh unsafeHeld serial).bucket
  · have hid := nextId_value (issue cs lbolt delta fresh unsafeHeld serial).isLong ht hi hs hl
    rw [if_pos hb]
    cases hlong : (issue cs lbolt delta fresh unsafeHeld serial).isLong with
    | false =>
      rw [hlong] at hid
      rw [if_pos ⟨hb.symm, rfl⟩, if_neg (by simp)]
      exact ⟨hid, hl⟩
    | true =>
      rw [hlong] at hid
      rw [if_neg (by simp), if_pos ⟨hb.symm, rfl⟩]
      exact ⟨hs, hid⟩
  · rw [if_neg hb, if_neg fun hx => hb hx.1.symm, if_neg fun hx => hb hx.1.symm]
    exact ⟨hs, hl⟩

lemma Genuine.insert (h : Genuine t log) (hc : Counts t cs log) (ht : t < 4) :
    Genuine t (log ++ [issue cs lbolt delta fresh unsafeHeld serial]) := by
  intro n x hx
  rcases lt_or_ge n log.length with hn | hn
  · rw [getElem?_append_left hn] at hx
    rw [take_append_of_le_length (by omega)]
    exact h n x hx
  rw [List.getElem?_append_right hn] at hx
  obtain ⟨hlen, hx⟩ := List.getElem?_eq_some_iff.mp hx
  rw [length_singleton] at hlen
  have hzero : n - log.length = 0 := by omega
  simp only [hzero, getElem_cons_zero] at hx
  subst hx
  have hlt := Issue.bucket_lt (issue cs lbolt delta fresh unsafeHeld serial)
  obtain ⟨hs, hl⟩ := hc _ hlt
  rw [take_of_length_le (by rw [length_append, length_singleton]; omega), counted_concat, if_pos ⟨rfl, rfl⟩,
    issue_id, nextId_value _ ht hlt hs hl]
  cases hlong : (issue cs lbolt delta fresh unsafeHeld serial).isLong <;> rfl

/-- The callouts of a bucket carry the identifiers of their insertions, the last one first. -/
structure Kept (cs : Table) (log : List Issue) (gone : List Nat) : Prop where
  issued : ∀ i, ∀ c ∈ (cs.bucket i).first, ∃ x, log[c.serial]? = some x ∧ x.bucket = i ∧ c.xid &&& idMask = x.id
  order : ∀ i, ((cs.bucket i).first.map Callout.serial).Pairwise (· > ·)
  present : ∀ (n : Nat) x, log[n]? = some x → n ∉ gone → ∃ c ∈ (cs.bucket x.bucket).first, c.serial = n

lemma setFirst_bucket (cs : Table) (i : Nat) (l : List Callout) (j : Nat) :
    ((cs.setFirst i l).bucket j).first = if j = i then l else (cs.bucket j).first := by
  unfold Table.setFirst
  dsimp only
  rcases eq_or_ne j i with rfl | hne
  · rw [if_pos rfl, update_self]
  · rw [if_neg hne, update_of_ne hne]

lemma Counts.setFirst (h : Counts t cs log) (l : List Callout) : Counts t (cs.setFirst i l) log := by
  intro j hj
  unfold Table.setFirst
  dsimp only
  rcases eq_or_ne j i with rfl | hne
  · rw [update_self]
    exact h j hj
  · rw [update_of_ne hne]
    exact h j hj

lemma newCallout_xid (ht : t < 4) (hid : (issue cs lbolt delta fresh unsafeHeld serial).id.toNat = idValue t i isLong k)
    (hi : i < 256) :
    (newCallout cs lbolt delta fresh unsafeHeld serial).xid &&& idMask = (issue cs lbolt delta fresh unsafeHeld serial).id := by
  have hlt : (issue cs lbolt delta fresh unsafeHeld serial).id.toNat < 2 ^ 30 := by
    have := idValue_low isLong k hi
    rw [hid, idValue]
    omega
  unfold newCallout
  split_ifs
  · rw [or_and_idMask (by decide), and_idMask hlt]
  · exact and_idMask hlt

lemma Kept.insert (h : Kept cs log gone) (hg : Genuine t (log ++ [issue cs lbolt delta fresh unsafeHeld log.length]))
    (ht : t < 4) : Kept (calloutInsert cs lbolt delta fresh unsafeHeld log.length).2
      (log ++ [issue cs lbolt delta fresh unsafeHeld log.length]) gone := by
  have hlast : (log ++ [issue cs lbolt delta fresh unsafeHeld log.length])[log.length]? =
      some (issue cs lbolt delta fresh unsafeHeld log.length) := by
    rw [List.getElem?_append_right le_rfl, Nat.sub_self]
    rfl
  have hold : ∀ {n : Nat} {x}, log[n]? = some x →
      (log ++ [issue cs lbolt delta fresh unsafeHeld log.length])[n]? = some x := by
    intro n x hx
    rw [getElem?_append_left (List.getElem?_eq_some_iff.mp hx).1]
    exact hx
  have hfirst : ∀ j, ((calloutInsert cs lbolt delta fresh unsafeHeld log.length).2.bucket j).first =
      if j = (issue cs lbolt delta fresh unsafeHeld log.length).bucket then
        newCallout cs lbolt delta fresh unsafeHeld log.length :: (cs.bucket j).first
      else (cs.bucket j).first := by
    intro j
    rw [calloutInsert_bucket]
    split_ifs <;> rfl
  refine ⟨?_, ?_, ?_⟩
  · intro j c hc
    rw [hfirst] at hc
    split_ifs at hc with hj
    · rcases List.mem_cons.mp hc with rfl | hc
      · exact ⟨_, hlast, hj.symm, newCallout_xid ht (hg _ _ hlast) (Issue.bucket_lt _)⟩
      · obtain ⟨x, hx, hb, hid⟩ := h.issued j c hc
        exact ⟨x, hold hx, hb, hid⟩
    · obtain ⟨x, hx, hb, hid⟩ := h.issued j c hc
      exact ⟨x, hold hx, hb, hid⟩
  · intro j
    rw [hfirst]
    split_ifs
    · rw [map_cons, pairwise_cons]
      refine ⟨fun m hm => ?_, h.order j⟩
      obtain ⟨c, hc, rfl⟩ := List.mem_map.mp hm
      obtain ⟨x, hx, _, _⟩ := h.issued j c hc
      exact (List.getElem?_eq_some_iff.mp hx).1
    · exact h.order j
  · intro n x hx hn
    rw [hfirst]
    rcases Nat.lt_or_ge n log.length with hlt | hge
    · rw [getElem?_append_left hlt] at hx
      obtain ⟨c, hc, hser⟩ := h.present n x hx hn
      split_ifs
      · exact ⟨c, mem_cons_of_mem _ hc, hser⟩
      · exact ⟨c, hc, hser⟩
    have hlen := (List.getElem?_eq_some_iff.mp hx).1
    rw [length_append, length_singleton] at hlen
    obtain rfl : n = log.length := by omega
    obtain rfl := Option.some.inj (hlast.symm.trans hx)
    rw [if_pos rfl]
    exact ⟨_, mem_cons_self .., rfl⟩

/-- A bucket in which one callout has left, or has changed into one with its number and its identifier. -/
theorem Kept.edit {pre post : List Callout} {gone' : List Nat} (h : Kept cs log gone) (new : List Callout)
    (hs : (cs.bucket i).first = pre ++ c :: post) (hsub : (new.map Callout.serial).Sublist [c.serial])
    (hid : ∀ d ∈ new, d.xid &&& idMask = c.xid &&& idMask) (hgone : gone ⊆ gone')
    (hleft : c.serial ∉ gone' → ∃ d ∈ new, d.serial = c.serial) : Kept (cs.setFirst i (pre ++ (new ++ post))) log gone' := by
  have hserial : ∀ d ∈ new, d.serial = c.serial := fun d hd =>
    mem_singleton.mp (hsub.subset (mem_map_of_mem hd))
  refine ⟨?_, ?_, ?_⟩
  · intro j d hd
    rw [setFirst_bucket] at hd
    split_ifs at hd with hj
    · subst hj
      rcases mem_append.mp hd with hd | hd
      · exact h.issued j d (by rw [hs]; exact mem_append_left _ hd)
      · rcases mem_append.mp hd with hd | hd
        · obtain ⟨x, hx, hb, hxid⟩ := h.issued j c (by rw [hs]; simp)
          exact ⟨x, (hserial d hd) ▸ hx, hb, (hid d hd).trans hxid⟩
        · exact h.issued j d (by rw [hs]; simp [hd])
    · exact h.issued j d hd
  · intro j
    rw [setFirst_bucket]
    split_ifs with hj
    · subst hj
      refine (h.order j).sublist ?_
      rw [hs, map_append, map_append, map_append, map_cons]
      exact List.Sublist.append_left (List.Sublist.append_right hsub _) _
    · exact h.order j
  · intro n x hx hn
    obtain ⟨d, hd, hser⟩ := h.present n x hx fun hmem => hn (hgone hmem)
    rw [setFirst_bucket]
    split_ifs with hj
    · rw [hj, hs] at hd
      rcases mem_append.mp hd with hd | hd
      · exact ⟨d, mem_append_left _ hd, hser⟩
      · rcases mem_cons.mp hd with rfl | hd
        · obtain ⟨d', hd', hser'⟩ := hleft (hser ▸ hn)
          exact ⟨d', by simp [hd'], hser'.trans hser⟩
        · exact ⟨d, by simp [hd], hser⟩
    · exact ⟨d, hd, hser⟩

lemma Issued.kept (h : Issued tableId cs log gone) (ht : tableId = normalId ∨ tableId = realtimeId) :
    ∃ t, (t = 1 ∨ t = 2) ∧ tableId = BitVec.ofNat 32 (2 ^ 28 * t) ∧ Counts t cs log ∧ Genuine t log ∧ Kept cs log gone := by
  obtain ⟨t, htv, htid, hids⟩ := setup_ids ht
  have hlt : t < 4 := by omega
  refine ⟨t, htv, htid, ?_⟩
  induction h with
  | setup lbolt =>
    refine ⟨?_, nofun, ?_, ?_, nofun⟩
    · intro i hi
      obtain ⟨hs, hl⟩ := hids i hi
      refine ⟨hs.trans ?_, hl.trans ?_⟩
      · unfold idValue counted
        rw [if_neg (by simp), countP_nil, zero_mod]
        omega
      · unfold idValue counted
        rw [if_pos rfl, countP_nil, zero_mod]
        omega
    · intro i c hc
      cases hc
    · intro i
      exact List.Pairwise.nil
  | @insert cs log gone lbolt delta fresh unsafeHeld _ ih =>
    obtain ⟨hc, hg, hk⟩ := ih
    have hg' : Genuine t (log ++ [issue cs lbolt delta fresh unsafeHeld log.length]) := hg.insert hc hlt
    exact ⟨hc.insert hlt, hg', hk.insert hg' hlt⟩
  | leave _ hs ih =>
    obtain ⟨hc, hg, hk⟩ := ih
    refine ⟨hc.setFirst _, hg, ?_⟩
    exact hk.edit [] hs (nil_sublist _) nofun (subset_cons_self ..) fun hn => absurd (mem_cons_self ..) hn
  | start u _ hs ih =>
    obtain ⟨hc, hg, hk⟩ := ih
    refine ⟨hc.setFirst _, hg, ?_⟩
    refine hk.edit [_] hs (List.Sublist.refl _) ?_ (List.Subset.refl _) fun _ => ⟨_, mem_singleton_self _, rfl⟩
    intro d hd
    rw [mem_singleton.mp hd]
    exact or_and_idMask (by decide)
  | change curtime runtime freelist _ ih =>
    obtain ⟨hc, hg, hk⟩ := ih
    exact ⟨hc, hg, hk.issued, hk.order, hk.present⟩

/-- The properties of the identifiers that have been returned, and of deletions by them. -/
structure IdsExact (tableId : BitVec 32) (cs : Table) (log : List Issue) (gone : List Nat) : Prop where
  nonzero : ∀ x ∈ log, x.id ≠ 0
  table : ∀ x ∈ log, x.id &&& (realtimeId ||| normalId) = tableId
  long : ∀ x ∈ log, x.id &&& longterm ≠ 0 ↔ longtermTicks < x.ahead
  clear : ∀ x ∈ log, x.id &&& (executingBit ||| unsafeDriverBit) = 0
  low : ∀ x ∈ log, (x.id &&& 255).toNat = bucketOf x.runtime
  apart : ∀ (m n : Nat) x z, m < n → log[m]? = some x → log[n]? = some z → x.sameClass z = true → x.id = z.id →
    2 ^ 19 ∣ ((log.take (n + 1)).drop (m + 1)).countP x.sameClass
  given : ∀ id t timeLeft cp cs', calloutDelete cs id t = .deleted timeLeft cp cs' → ∃ x, log[cp.serial]? = some x ∧ x.id = id
  untimeout : ∀ (n : Nat) x t timeLeft cp cs', log[n]? = some x → (log.drop (n + 1)).countP x.sameClass < 2 ^ 19 →
    calloutDelete cs x.id t = .deleted timeLeft cp cs' → cp.serial ≤ n ∧ (n ∉ gone → cp.serial = n)

lemma counted_class (l : List Issue) : counted x.bucket x.isLong l = l.countP x.sameClass := by
  refine countP_congr fun z _ => ?_
  unfold Issue.sameClass
  rw [decide_eq_true_eq, decide_eq_true_eq]
  exact ⟨fun h => ⟨h.1.symm, h.2.symm⟩, fun h => ⟨h.1.symm, h.2.symm⟩⟩

lemma Genuine.apart (h : Genuine t log) (hmn : m < n) (hx : log[m]? = some x) (hz : log[n]? = some z) (hid : x.id = z.id) :
    x.sameClass z = true ∧ 2 ^ 19 ∣ ((log.take (n + 1)).drop (m + 1)).countP x.sameClass := by
  have heq := (h m x hx).symm.trans ((congrArg BitVec.toNat hid).trans (h n z hz))
  obtain ⟨hb, hl, hmod⟩ := idValue_inj (Issue.bucket_lt x) (Issue.bucket_lt z) heq
  rw [← hb, ← hl, counted_class, counted_class] at hmod
  have hsplit : (log.take (n + 1)).countP x.sameClass =
      (log.take (m + 1)).countP x.sameClass + ((log.take (n + 1)).drop (m + 1)).countP x.sameClass := by
    conv_lhs => rw [← take_append_drop (m + 1) (log.take (n + 1)), countP_append, take_take,
      min_eq_left (succ_le_succ hmn.le)]
  refine ⟨decide_eq_true ⟨hb, hl⟩, ?_⟩
  omega

theorem calloutDelete_first {u : Nat} {timeLeft : Int} (hd : calloutDelete cs id u = .deleted timeLeft cp cs') :
    ∃ pre post, (cs.bucket (id &&& 255).toNat).first = pre ++ cp :: post ∧ cp.xid &&& idMask = id ∧
      ∀ c ∈ pre, c.xid &&& idMask ≠ id := by
  unfold calloutDelete at hd
  dsimp only at hd
  rcases splitFirst_spec (fun c : Callout => c.xid &&& idMask == id) (cs.bucket (id &&& 255).toNat).first with
    ⟨hnone, _⟩ | ⟨pre, c, post, hsome, hl, hc, hpre⟩
  · rw [hnone] at hd
    cases hd
  rw [hsome] at hd
  dsimp only at hd
  have hcp : c = cp := by
    split_ifs at hd <;> exact (Deletion.deleted.inj hd).2.1
  subst hcp
  exact ⟨pre, post, hl, eq_of_beq hc, fun b hb => ne_of_beq_false (hpre b hb)⟩

/-- The last insertion of an identifier is the one that is deleted, as long as its callout is there; after that, an
earlier one is. -/
theorem Kept.untimeout {u : Nat} {timeLeft : Int} (h : Kept cs log gone) (hg : Genuine t log)
    (hlow : (x.id &&& 255).toNat = x.bucket) (hx : log[n]? = some x) (hfew : (log.drop (n + 1)).countP x.sameClass < 2 ^ 19)
    (hd : calloutDelete cs x.id u = .deleted timeLeft cp cs') : cp.serial ≤ n ∧ (n ∉ gone → cp.serial = n) := by
  obtain ⟨pre, post, hl, hid, hpre⟩ := calloutDelete_first hd
  rw [hlow] at hl
  obtain ⟨z, hz, _, hzid⟩ := h.issued x.bucket cp (by rw [hl]; simp)
  have hle : cp.serial ≤ n := by
    -- a later insertion of the same identifier would be as many insertions away as the counter has values
    by_contra hlate
    have hlt : n < cp.serial := Nat.lt_of_not_le hlate
    obtain ⟨hclass, hdvd⟩ := hg.apart hlt hx hz (hid.symm.trans hzid)
    have hsub : ((log.take (cp.serial + 1)).drop (n + 1)).Sublist (log.drop (n + 1)) :=
      (take_sublist _ _).drop _
    have hcount := hsub.countP_le (p := x.sameClass)
    have hmem : z ∈ (log.take (cp.serial + 1)).drop (n + 1) := by
      refine mem_of_getElem? (i := cp.serial - (n + 1)) ?_
      rw [getElem?_drop, Nat.add_sub_cancel' hlt, getElem?_take_of_lt (Nat.lt_succ_self _)]
      exact hz
    have hpos := countP_pos_iff.mpr ⟨z, hmem, hclass⟩
    omega
  refine ⟨hle, fun hn => ?_⟩
  obtain ⟨c, hc, hser⟩ := h.present n x hx hn
  obtain ⟨x', hx', _, hcid⟩ := h.issued x.bucket c hc
  rw [hser, hx] at hx'
  obtain rfl := Option.some.inj hx'
  have horder := h.order x.bucket
  rw [hl] at hc horder
  rcases mem_append.mp hc with hc | hc
  · exact absurd hcid (hpre c hc)
  rcases mem_cons.mp hc with rfl | hc
  · exact hser
  · rw [map_append, map_cons, pairwise_append, pairwise_cons] at horder
    have hlt : n < cp.serial := hser ▸ horder.2.1.1 c.serial (mem_map_of_mem hc)
    omega

theorem callout_ids (h : Issued tableId cs log gone) (ht : tableId = normalId ∨ tableId = realtimeId) :
    IdsExact tableId cs log gone := by
  obtain ⟨t, htv, htid, _, hg, hk⟩ := h.kept ht
  have hlt : t < 4 := by omega
  have hmask : t &&& 3 = t := by
    rcases htv with rfl | rfl <;> rfl
  have hbits : ∀ x ∈ log, x.id &&& (realtimeId ||| normalId) = BitVec.ofNat 32 (2 ^ 28 * (t &&& 3)) ∧
      x.id &&& (executingBit ||| unsafeDriverBit) = 0 ∧ (x.id &&& longterm ≠ 0 ↔ x.isLong = true) ∧
      (x.id &&& 255).toNat = x.bucket := by
    intro x hx
    obtain ⟨n, hn⟩ := getElem?_of_mem hx
    exact id_bits hlt (Issue.bucket_lt x) (hg n x hn)
  have htable : ∀ x ∈ log, x.id &&& (realtimeId ||| normalId) = tableId := by
    intro x hx
    rw [(hbits x hx).1, hmask, htid]
  refine ⟨?_, htable, ?_, fun x hx => (hbits x hx).2.1, fun x hx => (hbits x hx).2.2.2, ?_, ?_, ?_⟩
  · intro x hx hzero
    have hid := htable x hx
    rw [hzero] at hid
    rcases ht with rfl | rfl <;> revert hid <;> decide
  · intro x hx
    rw [(hbits x hx).2.2.1]
    exact decide_eq_true_iff
  · exact fun m n x z hmn hx hz _ hid => (hg.apart hmn hx hz hid).2
  · intro id u timeLeft cp cs' hd
    obtain ⟨pre, post, hl, hid, _⟩ := calloutDelete_first hd
    obtain ⟨x, hx, _, hxid⟩ := hk.issued _ cp (by rw [hl]; simp)
    exact ⟨x, hx, hxid.symm.trans hid⟩
  · intro n x u timeLeft cp cs' hx hfew hd
    exact hk.untimeout hg (hbits x (mem_of_getElem? hx)).2.2.2 hx hfew hd

/-- Two callouts for the same tick and a long-term one in the same bucket; the second of them has left. -/
theorem callout_ids_sample : ∃ cs log, IdsExact normalId cs log [1] ∧
    log.map Issue.id = [0x1000010a, 0x1000020a, 0x1800010a] ∧ log.map Issue.ahead = [10, 10, 40970] := by
  have hissued := Issued.insert 0 40970 3 true (Issued.insert 0 10 2 false (Issued.insert 0 10 1 false
    (@Issued.setup normalId 0)))
  have hleft := @Issued.leave normalId _ _ _ 10 [_] [_] _ hissued rfl
  exact ⟨_, _, callout_ids hleft (.inl rfl), by decide, by decide⟩

/-- A callout waits for the tenth tick, and as many as `k` later ones for the same tick have left. -/
structure Waiting (k : Nat) (cs : Table) (log : List Issue) (gone : List Nat) : Prop where
  issued : Issued normalId cs log gone
  length : log.length = k + 1
  log : ∀ x ∈ log, x.runtime = 10 ∧ x.ahead = 10
  curtime : cs.curtime = 0
  waits : ∃ c, (cs.bucket 10).first = [c] ∧ c.serial = 0 ∧ c.executing = false

lemma issue_ten (hcur : cs.curtime = 0) (fresh serial : Nat) : (issue cs 0 10 fresh false serial).runtime = 10 ∧
    (issue cs 0 10 fresh false serial).ahead = 10 := by
  unfold issue runtimeOf
  rw [hcur]
  exact ⟨rfl, rfl⟩

lemma Waiting.exists (k : Nat) : ∃ cs log gone, Waiting k cs log gone := by
  induction k with
  | zero =>
    exact ⟨_, _, _, .insert 0 10 1 false (.setup 0), rfl, fun x hx => mem_singleton.mp hx ▸ issue_ten rfl 1 0, rfl,
      _, rfl, rfl, by decide⟩
  | succ k ih =>
    obtain ⟨cs, log, gone, hissued, hlength, hlog, hcur, c, hfirst, hser, hexec⟩ := ih
    have hnew := issue_ten hcur 2 log.length
    have hbucket : ((calloutInsert cs 0 10 2 false log.length).2.bucket 10).first =
        [newCallout cs 0 10 2 false log.length, c] := by
      rw [calloutInsert_bucket, if_pos (by rw [Issue.bucket, hnew.1]; rfl)]
      exact congrArg (_ :: ·) hfirst
    refine ⟨_, _, _, @Issued.leave _ _ _ _ 10 [] [c] _ (.insert 0 10 2 false hissued) hbucket, ?_, ?_, hcur, c, ?_, hser,
      hexec⟩
    · rw [length_append, hlength]
      rfl
    · intro x hx
      rcases mem_append.mp hx with hx | hx
      · exact hlog x hx
      · exact mem_singleton.mp hx ▸ hnew
    · rw [setFirst_bucket, if_pos rfl, nil_append]

/-- All identifiers of the log are of the one bucket and class, so the numbers of two of them tell when they are equal. -/
lemma Waiting.ids (h : Waiting k cs log gone) (hg : Genuine t log) (hx : log[n]? = some x) :
    x.id.toNat = idValue t 10 false (n + 1) := by
  have hclass : ∀ z ∈ log, z.bucket = 10 ∧ z.isLong = false := by
    intro z hz
    obtain ⟨hrun, hahead⟩ := h.log z hz
    rw [Issue.bucket, hrun, Issue.isLong, hahead]
    exact ⟨rfl, rfl⟩
  obtain ⟨hb, hl⟩ := hclass x (mem_of_getElem? hx)
  have hcount : counted 10 false (log.take (n + 1)) = n + 1 := by
    have hlt := (List.getElem?_eq_some_iff.mp hx).1
    unfold counted
    rw [countP_eq_length.mpr, length_take, min_eq_left hlt]
    exact fun z hz => decide_eq_true (hclass z (take_subset _ _ hz))
  rw [hg n x hx, hb, hl, hcount]

/-- The counter has come round: the identifier of a callout that has left removes the first one, which waits. -/
theorem callout_id_repeats : ¬ ∀ tableId cs log gone, (tableId = normalId ∨ tableId = realtimeId) → Issued tableId cs log gone →
    ∀ (n : Nat) x t timeLeft cp cs', log[n]? = some x → (log.drop (n + 1)).countP x.sameClass < 2 ^ 19 →
      calloutDelete cs x.id t = .deleted timeLeft cp cs' → cp.serial = n := by
  intro h
  obtain ⟨cs, log, gone, hw⟩ := Waiting.exists (2 ^ 19)
  obtain ⟨t, htv, _, _, hg, hk⟩ := hw.issued.kept (.inl rfl)
  obtain ⟨z, hz⟩ : ∃ z, log[2 ^ 19]? = some z := ⟨_, List.getElem?_eq_getElem (hw.length.symm ▸ Nat.lt_succ_self (2 ^ 19))⟩
  obtain ⟨c, hfirst, hser, hexec⟩ := hw.waits
  obtain ⟨x, hx, _, hxid⟩ := hk.issued 10 c (by rw [hfirst]; exact mem_singleton_self c)
  rw [hser] at hx
  have hid : c.xid &&& idMask = z.id := by
    rw [hxid, ← toNat_inj, hw.ids hg hx, hw.ids hg hz]
    rfl
  have hlow : (z.id &&& 255).toNat = 10 := (id_bits (by omega) (by decide) (hw.ids hg hz)).2.2.2
  have hdelete : ∃ timeLeft cs', calloutDelete cs z.id 0 = .deleted timeLeft c cs' := by
    have hsplit : splitFirst (fun c => c.xid &&& idMask == z.id) (cs.bucket 10).first = some ([], c, []) := by
      rw [hfirst, splitFirst, if_pos (beq_iff_eq.mpr hid)]
    unfold calloutDelete
    dsimp only
    rw [hlow, hsplit]
    dsimp only
    rw [if_neg (by rw [hexec]; exact Bool.false_ne_true)]
    exact ⟨_, _, rfl⟩
  obtain ⟨timeLeft, cs', hdelete⟩ := hdelete
  have hnone : log.drop (2 ^ 19 + 1) = [] := drop_eq_nil_of_le hw.length.le
  have hzero := h _ cs log gone (.inl rfl) hw.issued (2 ^ 19) z 0 timeLeft c cs' hz (by rw [hnone]; exact Nat.two_pow_pos 19) hdelete
  rw [hser] at hzero
  exact absurd hzero (by decide)

end Solaris.Callouts
