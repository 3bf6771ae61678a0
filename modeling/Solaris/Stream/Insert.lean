import Solaris.Stream.Put

/-!
# Inserting a message before another

`insq` puts a message before one that is on the queue, or at its end.
-/

namespace Solaris.Stream

open Lib Queue Nat Function List

/-- "Force to be correct." -/
def insqForce (q : Queue) (mp : MsgPtr) : Queue :=
  if queclass (q.msg mp) = QPCTL then
    { q with msg := Function.update q.msg mp { q.msg mp with band := 0 } }
  else q

/-- The checks that end in `badord`. -/
def insqBadord (q : Queue) (emp : Option MsgPtr) (mp : MsgPtr) : Bool :=
  let mcls := queclass (q.msg mp)
  match emp with
  | some emp =>
    (decide (mcls = QPCTL) && (q.prev emp).any fun p => (q.msg p).type < QPCTL) ||
      ((decide (mcls = QNORM) && decide ((q.msg mp).band < (q.msg emp).band)) ||
        (q.prev emp).any fun p => decide ((q.msg p).type < QPCTL) && decide ((q.msg p).band < (q.msg mp).band))
  | none => q.last.any fun tmp => decide (mcls = QNORM) && decide ((q.msg tmp).band < (q.msg mp).band)

def insqLink (q : Queue) (emp : Option MsgPtr) (mp : MsgPtr) : Queue :=
  match emp with
  | some emp => q.insertBefore mp emp
  | none => { ((q.setNext mp none).setPrev mp q.last).linkNext q.last (some mp) with last := some mp }

/-- The ends of the band of a message that is in the list. -/
def insqBand (q : Queue) (mp : MsgPtr) (qbp : Qband) : Qband :=
  match qbp.first with
  | none => { qbp with first := some mp, last := some mp }
  | some _ =>
    if (q.prev mp).all fun p => (q.msg p).band ≠ (q.msg mp).band then { qbp with first := some mp }
    else if (q.next mp).all fun n => (q.msg n).band ≠ (q.msg mp).band then { qbp with last := some mp }
    else qbp

def insqEnds (q : Queue) (mp : MsgPtr) : Queue := q.setBand (q.bandIdx mp) (insqBand q mp)

def insq (avail : Nat) (q : Queue) (emp : Option MsgPtr) (mp : MsgPtr) : Option (Bool × Queue) :=
  let q := insqForce q mp
  if insqBadord q emp mp then some (false, q)
  else
    match (if (q.msg mp).band ≠ 0 then allocBands (q.msg mp).band.toNat avail q else (true, q)) with
    | (false, q) => some (false, q)
    | (true, q) =>
      (if (q.msg mp).band ≠ 0 then
        (q.bands[q.bandIdx mp]?).map fun _ => insqEnds (insqLink q emp mp) mp
      else some (insqLink q emp mp)).map fun q =>
        let q := q.account mp
        (true, q.enableIf (!q.noenb && q.wantr))

variable {q q' q1 : Queue} {l pre post : List MsgPtr} {mp e p : MsgPtr} {emp : Option MsgPtr} {avail k : Nat}

namespace Queue

/-- The bytes that a band counts; a band without a structure counts none. -/
def bandCount (q : Queue) (i : Nat) : Nat := ((q.bands[i]?).map Qband.count).getD 0

def freshBand (q : Queue) : Qband := ⟨0, none, none, q.hiwat, q.lowat, false, false⟩

/-- Bands without messages at the end of the list of bands. -/
def grow (q : Queue) (k : Nat) : Queue :=
  { q with
    bands := q.bands ++ List.replicate k q.freshBand
    nband := q.nband + k }

end Queue

/-- The queue counts the bytes of the messages of band zero, and every other band those of its own. -/
structure Counted (q : Queue) (l : List MsgPtr) : Prop where
  normal : q.count = ((q.normal l).map q.bytes).sum
  band : ∀ i qb, q.bands[i]? = some qb → qb.count = ((ofRank q.rank (i + 1) l).map q.bytes).sum

/-- A queue in order: high-priority messages first, then the bands from the highest down, the ends of the
bands and the counts exact. -/
structure Ordered (q : Queue) (l : List MsgPtr) : Prop where
  linked : Linked q l
  ranked : Ranked q.rank l
  high : ∀ p ∈ l, QPCTL ≤ (q.msg p).type → (q.msg p).band = 0
  band_le : ∀ p ∈ l, (q.msg p).band.toNat ≤ q.nband
  bands : Bands q
  ends : Ends q l
  counted : Counted q l

lemma Queued.ordered (h : Queued q l) : Ordered q l :=
  ⟨h.linked, h.shape.ranked, h.shape.high, h.shape.band_le, h.bands, h.ends,
    h.flows.normal.count_eq, fun i qb hqb => (h.flows.band i qb hqb).count_eq⟩

/-- Nothing but the message that was to be inserted has changed. -/
structure Untouched (q : Queue) (mp : MsgPtr) (q' : Queue) : Prop where
  data : q' = { q with msg := q'.msg }
  msg : ∀ p, p ≠ mp → q'.msg p = q.msg p

/-- The bytes of the message are added to what its own band counts, and no other count changes. -/
structure Charged (q : Queue) (mp : MsgPtr) (q' : Queue) : Prop where
  normal : q'.count = q.count + if (q'.msg mp).band = 0 then q'.bytes mp else 0
  band : ∀ i, q'.bandCount i = q.bandCount i + if (q'.msg mp).band.toNat = i + 1 then q'.bytes mp else 0

/-- The outcome that the queue is to have: refused and left alone, or in the list before `emp`, in order. -/
def InOrder (q : Queue) (l : List MsgPtr) (emp : Option MsgPtr) (mp : MsgPtr) (ok : Bool) (q' : Queue) : Prop :=
  (ok = false ∧ Untouched q mp q') ∨
    (ok = true ∧ q'.msg = (insqForce q mp).msg ∧ Charged q mp q' ∧
      ∃ pre post, l = pre ++ post ∧ post.head? = emp ∧ Ordered q' (pre ++ mp :: post))

/-- What the checks of `insq` leave to its caller. -/
structure Insertable (avail : Nat) (q : Queue) (emp : Option MsgPtr) (mp : MsgPtr) : Prop where
  /-- A high-priority message is not put behind an ordinary one at the end of the queue. -/
  high : QPCTL ≤ (q.msg mp).type → emp = none → ∀ tmp ∈ q.last, QPCTL ≤ (q.msg tmp).type
  /-- An ordinary message is not put before a high-priority one, unless its band cannot be had at all. -/
  ordinary : ¬QPCTL ≤ (q.msg mp).type → ∀ e ∈ emp, QPCTL ≤ (q.msg e).type →
    avail = 0 ∧ q.nband < (q.msg mp).band.toNat
  /-- In front of all ordinary messages the bands up to that of the message can be had, or none of them. -/
  alloc : ¬QPCTL ≤ (q.msg mp).type → q.nband + avail < (q.msg mp).band.toNat →
    (∀ e ∈ emp, ∀ p ∈ q.prev e, QPCTL ≤ (q.msg p).type) → (emp = none → q.last = none) → avail = 0

section Force

lemma force_msg_of_ne (q : Queue) (h : p ≠ mp) : (insqForce q mp).msg p = q.msg p := by
  unfold insqForce
  split
  · exact update_of_ne h ..
  · rfl

lemma force_untouched (q : Queue) (mp : MsgPtr) : Untouched q mp (insqForce q mp) := by
  refine ⟨?_, fun p hp => force_msg_of_ne q hp⟩
  unfold insqForce
  split <;> rfl

lemma force_of_high (h : QPCTL ≤ (q.msg mp).type) :
    (insqForce q mp).msg mp = { q.msg mp with band := 0 } := by
  unfold insqForce
  rw [if_pos (queclass_of_high h)]
  exact update_self ..

lemma force_of_ordinary (h : ¬QPCTL ≤ (q.msg mp).type) : insqForce q mp = q :=
  if_neg fun hc => h (queclass_eq_iff.mp hc)

lemma force_rank (q : Queue) (mp : MsgPtr) : (insqForce q mp).rank = q.rank := by
  by_cases h : QPCTL ≤ (q.msg mp).type
  · unfold insqForce
    rw [if_pos (queclass_of_high h)]
    exact rank_force q mp h
  · rw [force_of_ordinary h]

lemma force_type (q : Queue) (mp p : MsgPtr) : ((insqForce q mp).msg p).type = (q.msg p).type := by
  by_cases hp : p = mp
  · subst hp
    by_cases h : QPCTL ≤ (q.msg p).type
    · rw [force_of_high h]
    · rw [force_of_ordinary h]
  · rw [force_msg_of_ne q hp]

lemma force_high (q : Queue) (mp : MsgPtr) :
    QPCTL ≤ ((insqForce q mp).msg mp).type → ((insqForce q mp).msg mp).band = 0 := by
  rw [force_type]
  intro h
  rw [force_of_high h]

lemma Untouched.sameQueue (h : Untouched q mp q') (hmp : mp ∉ l) : SameQueue q l q' := by
  have hmsg : ∀ p ∈ l, q'.msg p = q.msg p := by
    intro p hp
    refine h.msg p ?_
    rintro rfl
    exact hmp hp
  rw [h.data]
  exact ⟨rfl, rfl, hmsg, rfl, rfl, rfl, rfl, rfl, fun _ qb hqb => ⟨qb, hqb, SameBand.refl qb⟩, le_refl _⟩

lemma Ordered.congr (h : Ordered q l) (hs : SameQueue q l q') : Ordered q' l := by
  have hbytes : ∀ {c : List MsgPtr}, (∀ p ∈ c, p ∈ l) → (c.map q'.bytes).sum = (c.map q.bytes).sum := by
    intro c hc
    refine congrArg sum (map_congr_left ?_)
    intro p hp
    rw [Queue.bytes, Queue.bytes, hs.msg p (hc p hp)]
  refine ⟨h.linked.congr hs.nextAt hs.prevAt, ?_, ?_, ?_, ⟨?_, ?_⟩, ?_, ?_, ?_⟩
  · refine h.ranked.imp_of_mem ?_
    intro a b ha hb hab
    rwa [hs.rank a ha, hs.rank b hb]
  · intro p hp
    rw [hs.msg p hp]
    exact h.high p hp
  · intro p hp
    rw [hs.msg p hp, hs.nband]
    exact h.band_le p hp
  · rw [hs.nband, hs.length]
    exact h.bands.nband_eq
  · rw [hs.nband]
    exact h.bands.nband_le
  · intro i qb' hqb'
    obtain ⟨qb, hqb, hsame⟩ := hs.band i qb' hqb'
    rw [hsame.first, hsame.last, ofRank_congr hs.rank]
    exact h.ends i qb hqb
  · have hnormal : q'.normal l = q.normal l := by
      refine filter_congr ?_
      intro p hp
      rw [hs.msg p hp]
    rw [hnormal, hs.count, hbytes (c := q.normal l) fun p hp => mem_of_mem_filter hp]
    exact h.counted.normal
  · intro i qb' hqb'
    obtain ⟨qb, hqb, hsame⟩ := hs.band i qb' hqb'
    rw [hsame.count, ofRank_congr hs.rank, hbytes (c := ofRank q.rank (i + 1) l) fun p hp => (mem_ofRank.mp hp).1]
    exact h.counted.band i qb hqb

end Force

section Grow

lemma grow_zero (q : Queue) : q.grow 0 = q := by
  simp [Queue.grow]

lemma grow_succ (q : Queue) (k : Nat) : (q.grow 1).grow k = q.grow (k + 1) := by
  simp [Queue.grow, Queue.freshBand, replicate_succ]
  omega

lemma allocBands_eq (band avail : Nat) (q : Queue) :
    allocBands band avail q = (decide (band ≤ q.nband + avail), q.grow (min avail (band - q.nband))) := by
  induction avail generalizing q with
  | zero =>
    rw [Nat.zero_min, grow_zero]
    rfl
  | succ avail ih =>
    unfold allocBands
    by_cases hle : band ≤ q.nband
    · have hmin : min (avail + 1) (band - q.nband) = 0 := by omega
      rw [if_pos hle, hmin, grow_zero, decide_eq_true (hle.trans (Nat.le_add_right ..))]
    · have hmin : min (avail + 1) (band - q.nband) = min avail (band - (q.nband + 1)) + 1 := by omega
      have hsum : q.nband + (avail + 1) = (q.nband + 1) + avail := by omega
      rw [if_neg hle, hmin, hsum, ← grow_succ]
      exact ih (q.grow 1)

lemma grow_band {i : Nat} {qb : Qband} (h : (q.grow k).bands[i]? = some qb) :
    q.bands[i]? = some qb ∨ (q.bands.length ≤ i ∧ qb = q.freshBand) := by
  change (q.bands ++ replicate k _)[i]? = some qb at h
  rcases lt_or_ge i q.bands.length with hi | hi
  · rw [getElem?_append_left hi] at h
    exact .inl h
  · rw [getElem?_append_right hi] at h
    exact .inr ⟨hi, eq_of_mem_replicate (mem_of_getElem? h)⟩

lemma grow_bandCount (q : Queue) (k i : Nat) : (q.grow k).bandCount i = q.bandCount i := by
  unfold Queue.bandCount
  change (((q.bands ++ replicate k _)[i]?).map Qband.count).getD 0 = _
  rcases lt_or_ge i q.bands.length with hi | hi
  · rw [getElem?_append_left hi]
  · rw [getElem?_append_right hi, getElem?_eq_none hi, getElem?_replicate]
    split <;> rfl

lemma Ordered.ofRank_beyond (h : Ordered q l) {i : Nat} (hi : q.bands.length ≤ i) (hlt : i < 255) :
    ofRank q.rank (i + 1) l = [] := by
  have hlen := h.bands.nband_eq
  refine ofRank_eq_nil ?_
  intro p hp hr
  by_cases hhigh : QPCTL ≤ (q.msg p).type
  · have : q.rank p = 256 := Msg.rank_of_high hhigh
    omega
  · have : q.rank p = (q.msg p).band.toNat := Msg.rank_of_ordinary hhigh
    have := h.band_le p hp
    omega

lemma Ordered.grow (h : Ordered q l) (hk : q.nband + k ≤ 255) : Ordered (q.grow k) l := by
  have hlen : q.nband + k = (q.bands ++ List.replicate k q.freshBand).length := by
    simp [h.bands.nband_eq]
  have hnew : ∀ i qb, (q.grow k).bands[i]? = some qb → i < 255 := by
    intro i qb hqb
    obtain ⟨hi, -⟩ := List.getElem?_eq_some_iff.mp hqb
    have : i < (q.bands ++ List.replicate k q.freshBand).length := hi
    omega
  refine ⟨h.linked.congr rfl rfl, h.ranked, h.high, ?_, ⟨hlen, hk⟩, ?_, h.counted.normal, ?_⟩
  · intro p hp
    exact (h.band_le p hp).trans (Nat.le_add_right ..)
  · intro i qb hqb
    rcases grow_band hqb with hold | ⟨hi, rfl⟩
    · exact h.ends i qb hold
    · have hnil : ofRank (q.grow k).rank (i + 1) l = [] := h.ofRank_beyond hi (hnew i _ hqb)
      rw [hnil]
      exact ⟨rfl, rfl⟩
  · intro i qb hqb
    rcases grow_band hqb with hold | ⟨hi, rfl⟩
    · exact h.counted.band i qb hold
    · have hnil : ofRank (q.grow k).rank (i + 1) l = [] := h.ofRank_beyond hi (hnew i _ hqb)
      rw [hnil]
      rfl

end Grow

section Link

lemma relinked_insqLink (h : Linked q (pre ++ post)) (hmp : mp ∉ pre ++ post) :
    Relinked q (pre ++ mp :: post) (insqLink q post.head? mp) := by
  cases post with
  | cons e post => exact relinked_insertBefore h hmp
  | nil =>
    rw [append_nil] at h hmp
    have hlast := h.last
    unfold insqLink
    rcases eq_nil_or_concat' pre with rfl | ⟨pre, tmp, rfl⟩
    · have hfirst : q.first = none := h.first
      have hr := relinked_front h hmp
      rw [Queue.insertFront, hfirst] at hr
      simp only [head?_nil, hlast]
      exact hr
    · rw [getLast?_concat] at hlast
      simp only [head?_nil, hlast]
      exact relinked_tackOn h hmp

lemma band_eq_iff_rank (hhigh : QPCTL ≤ (q.msg mp).type → (q.msg mp).band = 0) (hb : (q.msg mp).band ≠ 0)
    (hp : QPCTL ≤ (q.msg p).type → (q.msg p).band = 0) :
    (q.msg p).band = (q.msg mp).band ↔ q.rank p = q.rank mp := by
  have hord : ¬QPCTL ≤ (q.msg mp).type := fun h => hb (hhigh h)
  have hrank : q.rank mp = (q.msg mp).band.toNat := Msg.rank_of_ordinary hord
  have hlt := (q.msg mp).band.toNat_lt
  rw [hrank]
  by_cases h : QPCTL ≤ (q.msg p).type
  · have hrp : q.rank p = 256 := Msg.rank_of_high h
    refine iff_of_false ?_ (by omega)
    rw [hp h]
    exact Ne.symm hb
  · have hrp : q.rank p = (q.msg p).band.toNat := Msg.rank_of_ordinary h
    rw [hrp, UInt8.toNat_inj]

lemma insqBand_same (q : Queue) (mp : MsgPtr) (qb : Qband) :
    (insqBand q mp qb).count = qb.count ∧ (insqBand q mp qb).hiwat = qb.hiwat ∧
      (insqBand q mp qb).full = qb.full := by
  unfold insqBand
  split
  · exact ⟨rfl, rfl, rfl⟩
  · split
    · exact ⟨rfl, rfl, rfl⟩
    · split <;> exact ⟨rfl, rfl, rfl⟩

lemma Ordered.placed_insqEnds (h : Ordered q (pre ++ post)) (hmp : mp ∉ pre ++ post)
    (hhigh : QPCTL ≤ (q.msg mp).type → (q.msg mp).band = 0) (hb : (q.msg mp).band ≠ 0)
    (hpre : ∀ a ∈ pre, q.rank mp ≤ q.rank a) (hpost : ∀ a ∈ post, q.rank a ≤ q.rank mp) :
    Placed q mp pre post (insqEnds (insqLink q post.head? mp) mp) := by
  have hr := relinked_insqLink h.linked hmp
  generalize insqLink q post.head? mp = q1 at hr
  have hranked : Ranked q.rank (pre ++ mp :: post) := h.ranked.insert hpre hpost
  have hband : ∀ p ∈ pre ++ post, ((q.msg p).band = (q.msg mp).band ↔ q.rank p = q.rank mp) :=
    fun p hp => band_eq_iff_rank hhigh hb (h.high p hp)
  refine ⟨q1, insqBand q1 mp, hr, insqBand_same q1 mp, ?_, (if_pos hb).symm⟩
  intro qb hfirst hlast
  unfold insqBand
  rw [hr.linked.prev, hr.linked.next, hr.msg]
  by_cases hnil : ofRank q.rank (q.rank mp) (pre ++ post) = []
  · rw [hnil, head?_nil] at hfirst
    have hone : ofRank q.rank (q.rank mp) (pre ++ mp :: post) = [mp] := by
      rw [ofRank_append, append_eq_nil_iff] at hnil
      rw [ofRank_append, ofRank_cons_self, hnil.1, hnil.2]
      rfl
    rw [hone]
    simp only [hfirst]
    exact ⟨rfl, rfl⟩
  obtain ⟨x, hx⟩ := Option.ne_none_iff_exists'.mp (mt head?_eq_none_iff.mp hnil)
  have hsome : qb.first = some x := hfirst.trans hx
  simp only [hsome]
  by_cases hprev : ∀ y ∈ pre.getLast?, q.rank y ≠ q.rank mp
  · have hall : (pre.getLast?.all fun p => decide ((q.msg p).band ≠ (q.msg mp).band)) = true := by
      rw [Option.all_eq_true]
      intro y hy
      have hmem : y ∈ pre ++ post := mem_append_left _ (mem_of_getLast? hy)
      exact decide_eq_true (mt (hband y hmem).mp (hprev y hy))
    have hbefore : ofRank q.rank (q.rank mp) (pre ++ mp :: post) = mp :: ofRank q.rank (q.rank mp) (pre ++ post) :=
      ofRank_before (hranked.above hprev)
    rw [if_pos hall, hbefore]
    refine ⟨rfl, ?_⟩
    rw [getLast?_cons_of_ne_nil hnil]
    exact hlast
  · push Not at hprev
    obtain ⟨y, hy, hry⟩ := hprev
    have hmem : y ∈ pre := mem_of_getLast? hy
    have hall : (pre.getLast?.all fun p => decide ((q.msg p).band ≠ (q.msg mp).band)) = false := by
      rw [hy, Option.all_some]
      exact decide_eq_false (not_not_intro ((hband y (mem_append_left _ hmem)).mpr hry))
    rw [if_neg (Bool.eq_false_iff.mp hall)]
    by_cases hnext : ∀ z ∈ post.head?, q.rank z ≠ q.rank mp
    · have hall : (post.head?.all fun p => decide ((q.msg p).band ≠ (q.msg mp).band)) = true := by
        rw [Option.all_eq_true]
        intro z hz
        have hmem : z ∈ pre ++ post := mem_append_right _ (mem_of_head? hz)
        exact decide_eq_true (mt (hband z hmem).mp (hnext z hz))
      have hbehind : ofRank q.rank (q.rank mp) (pre ++ mp :: post) = ofRank q.rank (q.rank mp) (pre ++ post) ++ [mp] :=
        ofRank_behind (hranked.below hnext)
      rw [if_pos hall, hbehind]
      refine ⟨?_, ?_⟩
      · rw [head?_append_of_ne_nil _ hnil]
        exact hx.symm
      · rw [getLast?_concat]
    · push Not at hnext
      obtain ⟨z, hz, hrz⟩ := hnext
      have hmemz : z ∈ post := mem_of_head? hz
      have hall : (post.head?.all fun p => decide ((q.msg p).band ≠ (q.msg mp).band)) = false := by
        rw [hz, Option.all_some]
        exact decide_eq_false (not_not_intro ((hband z (mem_append_right _ hmemz)).mpr hrz))
      obtain ⟨hhead, hgetLast⟩ := ofRank_between hmem hry hmemz hrz
      rw [if_neg (Bool.eq_false_iff.mp hall), hhead, hgetLast]
      exact ⟨hfirst, hlast⟩

end Link

section Place

variable {q2 : Queue}

lemma bandCount_eq {i : Nat} {qb : Qband} (h : q.bands[i]? = some qb) : q.bandCount i = qb.count := by
  unfold Queue.bandCount
  rw [h]
  rfl

lemma bandCount_beyond {i : Nat} (h : q.bands.length ≤ i) : q.bandCount i = 0 := by
  unfold Queue.bandCount
  rw [getElem?_eq_none h]
  rfl

lemma bandCount_setBand (q : Queue) (j i : Nat) (f : Qband → Qband) (n : Nat)
    (hf : ∀ qb : Qband, (f qb).count = qb.count + n) :
    (q.setBand j f).bandCount i = q.bandCount i + if j = i ∧ i < q.bands.length then n else 0 := by
  rcases lt_or_ge i q.bands.length with hi | hi
  · have hqb := getElem?_eq_getElem hi
    rw [bandCount_eq hqb]
    by_cases hj : j = i
    · subst hj
      have hset : (q.setBand j f).bands[j]? = some (f q.bands[j]) := by
        change (q.bands.modify j f)[j]? = _
        rw [getElem?_modify_eq, hqb]
        rfl
      rw [bandCount_eq hset, hf, if_pos ⟨rfl, hi⟩]
    · have hset : (q.setBand j f).bands[i]? = some q.bands[i] := by
        change (q.bands.modify j f)[i]? = _
        simp [hj]
      rw [bandCount_eq hset, if_neg fun h => hj h.1]
      rfl
  · have hset : (q.setBand j f).bands.length ≤ i := by
      change (q.bands.modify j f).length ≤ i
      rwa [length_modify]
    rw [bandCount_beyond hset, bandCount_beyond hi, if_neg fun h => not_lt.mpr hi h.2]

lemma account_count (q : Queue) (mp : MsgPtr) :
    (q.account mp).count = q.count + if (q.msg mp).band = 0 then q.bytes mp else 0 := by
  unfold Queue.account
  by_cases hb : (q.msg mp).band = 0
  · rw [if_neg (not_not_intro hb), if_pos hb]
    exact foldl_add_eq ..
  · rw [if_pos hb, if_neg hb]
    rfl

lemma account_bandCount (hlen : (q.msg mp).band.toNat ≤ q.bands.length) (i : Nat) :
    (q.account mp).bandCount i = q.bandCount i + if (q.msg mp).band.toNat = i + 1 then q.bytes mp else 0 := by
  unfold Queue.account
  by_cases hb : (q.msg mp).band = 0
  · have hne : ¬((0 : UInt8).toNat = i + 1) := (succ_ne_zero i).symm
    rw [if_neg (not_not_intro hb), hb, if_neg hne]
    rfl
  rw [if_pos hb, bandCount_setBand q _ i _ (q.bytes mp) fun qb => foldl_add_eq ..]
  have hne : (q.msg mp).band.toNat ≠ 0 := fun h0 => hb (band_eq_zero_iff.mpr h0)
  have hiff : (q.bandIdx mp = i ∧ i < q.bands.length) ↔ (q.msg mp).band.toNat = i + 1 := by
    unfold Queue.bandIdx
    omega
  rw [if_congr hiff rfl rfl]

lemma account_length (q : Queue) (mp : MsgPtr) : (q.account mp).bands.length = q.bands.length := by
  unfold Queue.account
  split
  · exact length_modify ..
  · rfl

lemma Counted.charge (h : Counted q l) (hbands : Bands q) (hmsg : q'.msg = q.msg)
    (hlen : q'.bands.length = q.bands.length) (hc : Charged q mp q')
    (hhigh : QPCTL ≤ (q.msg mp).type → (q.msg mp).band = 0) {l' : List MsgPtr} (hl : l'.Perm (mp :: l)) :
    Counted q' l' := by
  have hrank : q'.rank = q.rank := by
    ext p
    rw [Queue.rank, Queue.rank, hmsg]
  have hbytes : q'.bytes = q.bytes := by
    ext p
    rw [Queue.bytes, Queue.bytes, hmsg]
  have hnormal : q'.normal l' = q.normal l' := by
    unfold Queue.normal
    rw [hmsg]
  refine ⟨?_, ?_⟩
  · have hperm := (normal_perm (q := q) hl).map q.bytes
    rw [hc.normal, hmsg, hnormal, hbytes, hperm.sum_eq, h.normal]
    split
    · rw [List.map_cons, List.sum_cons, add_comm]
    · rfl
  · intro i qb' hqb'
    obtain ⟨hi, -⟩ := List.getElem?_eq_some_iff.mp hqb'
    rw [hlen] at hi
    have hqb := List.getElem?_eq_getElem hi
    have hcount := hc.band i
    rw [bandCount_eq hqb', bandCount_eq hqb, hmsg, hbytes] at hcount
    rw [hcount, hrank, hbytes, h.band i _ hqb]
    have hlt := hbands.lt_255 hqb
    have hperm := ((ofRank_perm (r := q.rank) hl (i + 1)).map q.bytes).sum_eq
    have hiff : (q.msg mp).band.toNat = i + 1 ↔ q.rank mp = i + 1 := by
      by_cases hb : (q.msg mp).band = 0
      · rw [hb]
        refine iff_of_false (succ_ne_zero i).symm ?_
        rcases rank_of_band_zero hb with h0 | h256
        · omega
        · omega
      · have hord : ¬QPCTL ≤ (q.msg mp).type := fun h => hb (hhigh h)
        have hrank : q.rank mp = (q.msg mp).band.toNat := Msg.rank_of_ordinary hord
        rw [hrank]
    rw [hperm, if_congr hiff rfl rfl]
    split
    · rw [List.map_cons, List.sum_cons, add_comm]
    · rfl

lemma Placed.data (hp : Placed q mp pre post q2) :
    Linked q2 (pre ++ mp :: post) ∧ q2.msg = q.msg ∧ q2.nband = q.nband ∧ q2.bands.length = q.bands.length ∧
      q2.count = q.count ∧ ∀ i, q2.bandCount i = q.bandCount i := by
  obtain ⟨q1, f, hr, hsame, -, rfl⟩ := hp
  have hdata := hr.data
  have hbc : ∀ i, q1.bandCount i = q.bandCount i := by
    intro i
    rw [hdata]
    rfl
  have hlen : q1.bands.length = q.bands.length := congrArg length hr.bands
  have hcount : q1.count = q.count := by
    rw [hdata]
  split_ifs with hb
  · refine ⟨hr.linked.congr rfl rfl, hr.msg, hr.nband, (length_modify ..).trans hlen, hcount, ?_⟩
    intro i
    rw [bandCount_setBand q1 _ i f 0 fun qb => (hsame qb).1, hbc, ite_self]
    rfl
  · exact ⟨hr.linked, hr.msg, hr.nband, hlen, hcount, hbc⟩

lemma Placed.ends (hp : Placed q mp pre post q2) (h : Ends q (pre ++ post)) (hbands : Bands q)
    (hhigh : QPCTL ≤ (q.msg mp).type → (q.msg mp).band = 0) : Ends q2 (pre ++ mp :: post) := by
  obtain ⟨q1, f, hr, -, hf, rfl⟩ := hp
  have hrank : q1.rank = q.rank := by
    ext p
    rw [Queue.rank, Queue.rank, hr.msg]
  have hends1 : Ends q1 (pre ++ post) := by
    intro i qb hqb
    rw [hrank]
    exact h i qb (hr.bands ▸ hqb)
  split_ifs with hb
  · rw [hr.bandIdx]
    have hidx := rank_of_band hhigh hb
    refine hends1.setBand ?_ ?_
    · intro k hk
      rw [hrank]
      exact ofRank_middle_of_ne (by omega) ..
    · rw [← hidx, hrank]
      exact hf
  rw [not_not] at hb
  intro i qb hqb
  have hi := hbands.lt_255 (hr.bands ▸ hqb : q.bands[i]? = some qb)
  have hne : q.rank mp ≠ i + 1 := by
    rcases rank_of_band_zero hb with h0 | h256
    · omega
    · omega
  rw [hrank, ofRank_middle_of_ne hne, ← hrank]
  exact hends1 i qb hqb

lemma Placed.charged (hp : Placed q mp pre post q2) (hbands : Bands q)
    (hband : (q.msg mp).band.toNat ≤ q.nband) (wake : Bool) : Charged q mp ((q2.account mp).enableIf wake) := by
  obtain ⟨-, hmsg, -, hlen, hcount, hbc⟩ := hp.data
  have hm : ((q2.account mp).enableIf wake).msg = q2.msg := (account_frame q2 mp).2.2.1
  have hbytes : ((q2.account mp).enableIf wake).bytes mp = q2.bytes mp := by
    rw [Queue.bytes, Queue.bytes, hm]
  refine ⟨?_, ?_⟩
  · rw [hm, hbytes, ← hcount]
    exact account_count q2 mp
  · intro i
    have hle : (q2.msg mp).band.toNat ≤ q2.bands.length := by
      rw [hmsg, hlen, ← hbands.nband_eq]
      exact hband
    rw [hm, hbytes, ← hbc i]
    exact account_bandCount hle i

lemma Placed.msg (hp : Placed q mp pre post q2) (wake : Bool) : ((q2.account mp).enableIf wake).msg = q.msg := by
  have hm : ((q2.account mp).enableIf wake).msg = q2.msg := (account_frame q2 mp).2.2.1
  exact hm.trans hp.data.2.1

lemma Ordered.place (h : Ordered q (pre ++ post)) (hp : Placed q mp pre post q2)
    (hhigh : QPCTL ≤ (q.msg mp).type → (q.msg mp).band = 0) (hband : (q.msg mp).band.toNat ≤ q.nband)
    (hpre : ∀ a ∈ pre, q.rank mp ≤ q.rank a) (hpost : ∀ a ∈ post, q.rank a ≤ q.rank mp) (wake : Bool) :
    Ordered ((q2.account mp).enableIf wake) (pre ++ mp :: post) := by
  obtain ⟨hlinked, hmsg, hnband, hlen, -, -⟩ := hp.data
  have hends := (hp.ends h.ends h.bands hhigh).account mp
  have hcharged := hp.charged h.bands hband wake
  obtain ⟨hnext, hprev, hm, hnb, -⟩ := account_frame q2 mp
  have hall : ∀ P : MsgPtr → Prop, P mp → (∀ a ∈ pre ++ post, P a) → ∀ a ∈ pre ++ mp :: post, P a := by
    intro P hP hrest a ha
    rcases mem_cons.mp (perm_middle.mem_iff.mp ha) with rfl | ha
    · exact hP
    · exact hrest a ha
  have hmsg' : ((q2.account mp).enableIf wake).msg = q.msg := hm.trans hmsg
  have hnband' : ((q2.account mp).enableIf wake).nband = q.nband := hnb.trans hnband
  have hlen' : ((q2.account mp).enableIf wake).bands.length = q.bands.length := (account_length q2 mp).trans hlen
  have hrank : ((q2.account mp).enableIf wake).rank = q.rank := by
    ext p
    rw [Queue.rank, Queue.rank, hmsg']
  refine ⟨hlinked.congr hnext hprev, ?_, ?_, ?_, ⟨?_, ?_⟩, hends, ?_⟩
  · rw [hrank]
    exact h.ranked.insert hpre hpost
  · rw [hmsg']
    exact hall _ hhigh h.high
  · rw [hmsg', hnband']
    exact hall _ hband h.band_le
  · rw [hnband', hlen']
    exact h.bands.nband_eq
  · rw [hnband']
    exact h.bands.nband_le
  · exact h.counted.charge h.bands hmsg' hlen' hcharged hhigh perm_middle

lemma Ordered.placed_insq (h : Ordered q (pre ++ post)) (hmp : mp ∉ pre ++ post)
    (hhigh : QPCTL ≤ (q.msg mp).type → (q.msg mp).band = 0)
    (hpre : ∀ a ∈ pre, q.rank mp ≤ q.rank a) (hpost : ∀ a ∈ post, q.rank a ≤ q.rank mp) :
    Placed q mp pre post (if (q.msg mp).band ≠ 0 then insqEnds (insqLink q post.head? mp) mp
      else insqLink q post.head? mp) := by
  by_cases hb : (q.msg mp).band = 0
  · rw [if_neg (not_not_intro hb)]
    exact (relinked_insqLink h.linked hmp).placed_normal hb
  · rw [if_pos hb]
    exact h.placed_insqEnds hmp hhigh hb hpre hpost

end Place

end Solaris.Stream
