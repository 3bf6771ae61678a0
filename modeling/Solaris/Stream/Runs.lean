import Solaris.Stream.PutSpec
import Solaris.Stream.Remove

/-!
# Flushing a queue

`flushq` and `flushband` of band zero take everything off the queue and put back what stays; `flushband`
of another band takes the messages off one by one.
-/

namespace Solaris.Stream

section Flush

open Lib Queue List Nat Function

variable {q q' : Queue} {l pre post : List MsgPtr} {mp : MsgPtr}

lemma ofRank_filter {r : MsgPtr → Nat} (keep : MsgPtr → Bool) (k : Nat) (l : List MsgPtr) :
    ofRank r k (l.filter keep) = (ofRank r k l).filter keep := by
  rw [ofRank, ofRank, filter_filter, filter_filter]
  refine filter_congr ?_
  intro p _
  exact Bool.and_comm ..

section Loop

lemma queued_clear (h : Queued q l) : Queued q.clear [] := by
  have hmap : ∀ (i : Nat) (qb : Qband), q.clear.bands[i]? = some qb →
      qb.first = none ∧ qb.last = none ∧ qb.count = 0 ∧ qb.full = false := by
    intro i qb hqb
    rw [Queue.clear, getElem?_map, Option.map_eq_some_iff] at hqb
    obtain ⟨qb', -, rfl⟩ := hqb
    exact ⟨rfl, rfl, rfl, rfl⟩
  refine ⟨linked_nil rfl rfl, ⟨List.Pairwise.nil, by simp, by simp, by simp⟩, ⟨?_, h.bands.nband_le⟩, ?_,
    ⟨Flow.nil, ?_⟩, zero_le _⟩
  · exact h.bands.nband_eq.trans (length_map ..).symm
  · intro i qb hqb
    obtain ⟨hfirst, hlast, -⟩ := hmap i qb hqb
    exact ⟨hfirst, hlast⟩
  · intro i qb hqb
    obtain ⟨-, -, hcount, hfull⟩ := hmap i qb hqb
    rw [hcount, hfull]
    exact Flow.nil

/-- The messages still to be looked at hang together by `b_next` as before. -/
def Hangs (q : Queue) (rest : List MsgPtr) : Prop := ∀ a x b, rest = a ++ x :: b → q.next x = b.head?

lemma Hangs.tail {x : MsgPtr} {rest : List MsgPtr} (h : Hangs q (x :: rest))
    (hnext : ∀ p ∈ rest, q'.next p = q.next p) : Hangs q' rest := by
  intro a y b hab
  rw [hnext y (by simp [hab])]
  exact h (x :: a) y b (by rw [hab]; rfl)

lemma Puttable.congr (h : Puttable q mp) (hmsg : q'.msg = q.msg) (hnband : q'.nband = q.nband) : Puttable q' mp :=
  ⟨hmsg ▸ h.high, hmsg ▸ h.get, hmsg ▸ hnband ▸ h.band_le⟩

lemma rank_congr (hmsg : q'.msg = q.msg) : q'.rank = q.rank := by
  ext p
  rw [Queue.rank, Queue.rank, hmsg]

lemma flushLoop_spec (avail : Nat) (drop : Msg → Bool) (rest : List MsgPtr) (q : Queue) (l : List MsgPtr)
    (h : Queued q l) (hrest : ∀ x ∈ rest, Puttable q x) (hnd : rest.Nodup) (hoff : ∀ x ∈ rest, x ∉ l)
    (hhang : Hangs q rest) (fuel : Nat) (hfuel : rest.length ≤ fuel) :
    ∃ q' l', flushLoop avail drop fuel rest.head? q = some q' ∧ Queued q' l' ∧ q'.msg = q.msg ∧
      ∀ k, ofRank q.rank k l' = ofRank q.rank k l ++ ofRank q.rank k (rest.filter fun p => !drop (q.msg p)) := by
  induction rest generalizing q l fuel with
  | nil =>
    refine ⟨q, l, ?_, h, rfl, fun k => (append_nil _).symm⟩
    cases fuel <;> rfl
  | cons x rest ih =>
    obtain ⟨hx, hrest⟩ := forall_mem_cons.mp hrest
    obtain ⟨hxl, hoff⟩ := forall_mem_cons.mp hoff
    obtain ⟨hxrest, hnd⟩ := nodup_cons.mp hnd
    cases fuel with
    | zero => exact absurd hfuel (not_succ_le_zero _)
    | succ fuel =>
      have hfuel' : rest.length ≤ fuel := le_of_succ_le_succ hfuel
      have hnext : q.next x = rest.head? := hhang [] x rest rfl
      have hne : ∀ p ∈ rest, p ≠ x := by
        rintro p hp rfl
        exact hxrest hp
      rw [head?_cons, flushLoop]
      simp only [hnext]
      obtain ⟨q1, hq1⟩ : ∃ q1, q1 = (q.setNext x none).setPrev x none := ⟨_, rfl⟩
      have hmsg1 : q1.msg = q.msg := by rw [hq1]; rfl
      have hnb1 : q1.nband = q.nband := by rw [hq1]; rfl
      have hrank1 : q1.rank = q.rank := rank_congr hmsg1
      have hnext1 : ∀ p ∈ rest, q1.next p = q.next p := by
        intro p hp
        rw [hq1]
        exact update_of_ne (hne p hp) ..
      have hqueued : Queued q1 l := hq1 ▸ h.relink_off hxl none none
      have hrest1 : ∀ p ∈ rest, Puttable q1 p := fun p hp => (hrest p hp).congr hmsg1 hnb1
      rw [← hq1, hmsg1]
      by_cases hdrop : drop (q.msg x) = true
      · rw [if_pos hdrop, filter_cons_of_neg (by simpa using hdrop), ← hmsg1, ← hrank1]
        exact ih q1 l hqueued hrest1 hnd hoff (hhang.tail hnext1) fuel hfuel'
      rw [if_neg hdrop, filter_cons_of_pos (by simpa using hdrop)]
      obtain ⟨pre, post, q2, hput, rfl, -, hpost, hq2, hmsg, hnb, hnext2⟩ :=
        putq_again hqueued hxl (hx.congr hmsg1 hnb1) avail
      rw [hrank1] at hpost
      rw [hput, Option.bind_some]
      have hhang2 : Hangs q2 rest := by
        refine hhang.tail ?_
        intro p hp
        rw [hnext2 p ?_, hnext1 p hp]
        rw [mem_cons, not_or]
        exact ⟨hne p hp, hoff p hp⟩
      have hoff2 : ∀ p ∈ rest, p ∉ pre ++ x :: post := by
        intro p hp hmem
        rw [perm_middle.mem_iff, mem_cons] at hmem
        exact hmem.elim (hne p hp) (hoff p hp)
      obtain ⟨q', l', heq, hq', hmsg', hclass⟩ := ih q2 (pre ++ x :: post) hq2
        (fun p hp => (hrest1 p hp).congr hmsg hnb) hnd hoff2 hhang2 fuel hfuel'
      have hmsg2 : q2.msg = q.msg := hmsg.trans hmsg1
      rw [rank_congr hmsg2, hmsg2] at hclass
      refine ⟨q', l', heq, hq', hmsg'.trans hmsg2, ?_⟩
      intro k
      rw [hclass k]
      by_cases hxk : q.rank x = k
      · subst hxk
        rw [ofRank_behind hpost, ofRank_cons_self, append_assoc]
        rfl
      · rw [ofRank_middle_of_ne hxk, ofRank_cons_of_ne hxk]

lemma flush_clear (h : Queued q l) (avail : Nat) (drop : Msg → Bool) :
    ∃ q' l', flushLoop avail drop q.turns q.first q.clear = some q' ∧ Queued q' l' ∧ q'.msg = q.msg ∧
      ∀ k, ofRank q.rank k l' = (ofRank q.rank k l).filter fun p => !drop (q.msg p) := by
  have hputs : ∀ x ∈ l, Puttable q.clear x :=
    fun x hx => ⟨h.shape.high x hx, h.shape.get x hx, h.shape.band_le x hx⟩
  have hhang : Hangs q.clear l := by
    rintro a x b rfl
    exact h.linked.next
  obtain ⟨q', l', heq, hq', hmsg, hclass⟩ := flushLoop_spec avail drop l q.clear [] (queued_clear h) hputs
    h.linked.nodup (by simp) hhang q.turns h.turns
  rw [h.linked.first]
  refine ⟨q', l', heq, hq', hmsg, ?_⟩
  intro k
  rw [← ofRank_filter]
  exact hclass k

end Loop

section Flushq

lemma SameQueue.flushqWake (q : Queue) (l : List MsgPtr) : SameQueue q l (flushqWake q) := by
  refine ⟨rfl, rfl, fun _ _ => rfl, rfl, rfl, rfl, rfl, length_map .., ?_, le_refl _⟩
  intro i qb' hqb'
  rw [Stream.flushqWake, getElem?_map, Option.map_eq_some_iff] at hqb'
  obtain ⟨qb, hqb, rfl⟩ := hqb'
  refine ⟨qb, hqb, ?_⟩
  split
  · exact ⟨rfl, rfl, rfl, rfl, rfl⟩
  · exact SameBand.refl qb

lemma flushq_spec (h : Queued q l) (avail : Nat) (flag : Bool) :
    ∃ q' l', flushq avail q flag = some q' ∧ Queued q' l' ∧ q'.msg = q.msg ∧
      ∀ k, ofRank q.rank k l' = (ofRank q.rank k l).filter fun p => !(flag || datamsg (q.msg p).type) := by
  obtain ⟨q', l', heq, hq', hmsg, hclass⟩ := flush_clear h avail fun m => flag || datamsg m.type
  have hfirst := h.linked.first
  unfold flushq
  cases l with
  | nil =>
    rw [hfirst]
    exact ⟨q, [], rfl, h, rfl, fun k => rfl⟩
  | cons x rest =>
    rw [head?_cons] at hfirst
    rw [hfirst] at heq ⊢
    simp only [heq, Option.map_some]
    exact ⟨_, l', rfl, hq'.congr (SameQueue.flushqWake q' l'), hmsg, hclass⟩

end Flushq

section Flushband

variable {pri : UInt8}

lemma bandLoop_spec (pri : UInt8) (flag : Bool) (a b pre : List MsgPtr) (q : Queue)
    (h : Queued q (pre ++ (a ++ b))) (ha : ∀ p ∈ a, (q.msg p).band = pri) (fuel : Nat) (hfuel : a.length < fuel) :
    ∃ q', bandLoop pri flag b.head? fuel (a ++ b).head? q = some (b.head?, q') ∧
      Queued q' (pre ++ ((a.filter fun p => !(flag || datamsg (q.msg p).type)) ++ b)) ∧ q'.msg = q.msg := by
  induction a generalizing pre q fuel with
  | nil =>
    obtain ⟨fuel, rfl⟩ := Nat.exists_eq_add_of_lt hfuel
    refine ⟨q, ?_, h, rfl⟩
    rw [nil_append, bandLoop, if_pos rfl]
  | cons x a ih =>
    obtain ⟨hx, ha⟩ := forall_mem_cons.mp ha
    cases fuel with
    | zero => exact absurd hfuel (Nat.not_lt_zero _)
    | succ fuel =>
      have hfuel' : a.length < fuel := Nat.lt_of_succ_lt_succ hfuel
      have hne : (x :: a ++ b).head? ≠ b.head? := by
        intro heq
        have hmem : x ∈ b := mem_of_head? heq.symm
        have hnd := (nodup_append.mp h.linked.nodup).2.1
        exact (nodup_append.mp hnd).2.2 x (by simp) x hmem rfl
      have hnext : q.next x = (a ++ b).head? := h.linked.next
      rw [bandLoop, if_neg hne, cons_append, head?_cons, Option.bind_some]
      by_cases hdrop : (flag || datamsg (q.msg x).type) = true
      · rw [if_pos ⟨hx, hdrop⟩, filter_cons_of_neg (by rw [hdrop]; exact Bool.false_ne_true)]
        obtain ⟨q1, heq, hq1, hmsg⟩ := rmvq_spec (h : Queued q (pre ++ x :: (a ++ b)))
        rw [heq, Option.bind_some, hnext]
        obtain ⟨q', heq', hq', hmsg'⟩ := ih pre q1 hq1 (hmsg ▸ ha) fuel hfuel'
        rw [hmsg] at hq' hmsg'
        exact ⟨q', heq', hq', hmsg'⟩
      rw [if_neg (fun hc => hdrop hc.2), filter_cons_of_pos (by simpa using hdrop), Option.bind_some, hnext]
      have hq1 : Queued q ((pre ++ [x]) ++ (a ++ b)) := by
        rw [append_assoc]
        exact h
      obtain ⟨q', heq', hq', hmsg'⟩ := ih (pre ++ [x]) q hq1 ha fuel hfuel'
      rw [append_assoc] at hq'
      exact ⟨q', heq', hq', hmsg'⟩

lemma bandStop_spec (flag : Bool) (h : Queued q (pre ++ (mp :: post))) (hmp : (q.msg mp).band = pri) :
    ∃ q', (if (q.msg mp).band = pri ∧ (flag || datamsg (q.msg mp).type) = true then rmvq q mp else some q) = some q' ∧
      Queued q' (pre ++ (([mp].filter fun p => !(flag || datamsg (q.msg p).type)) ++ post)) ∧ q'.msg = q.msg := by
  by_cases hdrop : (flag || datamsg (q.msg mp).type) = true
  · rw [if_pos ⟨hmp, hdrop⟩, filter_cons_of_neg (by rw [hdrop]; exact Bool.false_ne_true)]
    exact rmvq_spec h
  · rw [if_neg (fun hc => hdrop hc.2), filter_cons_of_pos (by simpa using hdrop)]
    exact ⟨q, rfl, h, rfl⟩

lemma Shape.band_of_rank (h : Shape q l) {p : MsgPtr} (hp : p ∈ l) (hpri : pri ≠ 0) :
    (q.msg p).band = pri ↔ q.rank p = pri.toNat := by
  have hlt := pri.toNat_lt
  by_cases hhigh : QPCTL ≤ (q.msg p).type
  · have hr : q.rank p = 256 := Msg.rank_of_high hhigh
    rw [h.high p hp hhigh, hr]
    refine ⟨fun heq => absurd heq.symm hpri, fun heq => ?_⟩
    omega
  · have hr : q.rank p = (q.msg p).band.toNat := Msg.rank_of_ordinary hhigh
    rw [hr, UInt8.toNat_inj]

lemma flushband_list (flag : Bool) (h : Queued q l) (hpri : pri ≠ 0) {c : List MsgPtr} (hl : l = pre ++ (c ++ post))
    (hc : ∀ p ∈ c, (q.msg p).band = pri) (hpre : ∀ p ∈ pre, pri.toNat < q.rank p)
    (hpost : ∀ p ∈ post, q.rank p < pri.toNat) :
    (l.filter fun p => !((q.msg p).band = pri && (flag || datamsg (q.msg p).type))) =
      pre ++ ((c.filter fun p => !(flag || datamsg (q.msg p).type)) ++ post) := by
  have hother : ∀ p ∈ l, q.rank p ≠ pri.toNat → (q.msg p).band ≠ pri := by
    intro p hp hne hb
    exact hne ((h.shape.band_of_rank hp hpri).mp hb)
  rw [hl, filter_append, filter_append]
  congr 1
  · refine filter_eq_self.mpr ?_
    intro p hp
    have := hother p (by simp [hl, hp]) (Nat.ne_of_gt (hpre p hp))
    simp [this]
  congr 1
  · refine filter_congr ?_
    intro p hp
    simp [hc p hp]
  · refine filter_eq_self.mpr ?_
    intro p hp
    have := hother p (by simp [hl, hp]) (Nat.ne_of_lt (hpost p hp))
    simp [this]

lemma flushband_band_spec (h : Queued q l) (hpri : pri ≠ 0) (hle : pri.toNat ≤ q.nband) (avail : Nat) (flag : Bool) :
    ∃ q', flushband avail q pri flag = some q' ∧ q'.msg = q.msg ∧
      Queued q' (l.filter fun p => !((q.msg p).band = pri && (flag || datamsg (q.msg p).type))) := by
  have hpos : pri.toNat ≠ 0 := by
    intro h0
    exact hpri (UInt8.toNat_inj.mp h0)
  have hlt : pri.toNat - 1 < q.bands.length := by
    have := h.bands.nband_eq
    omega
  have hqb : q.bands[pri.toNat - 1]? = some q.bands[pri.toNat - 1] := getElem?_eq_getElem hlt
  obtain ⟨hqfirst, hqlast⟩ := h.ends _ _ hqb
  have hsucc : pri.toNat - 1 + 1 = pri.toNat := by omega
  rw [hsucc] at hqfirst hqlast
  obtain ⟨pre, post, hl, hpre, hpost⟩ := h.shape.ranked.together pri.toNat
  have hc : ∀ p ∈ ofRank q.rank pri.toNat l, (q.msg p).band = pri := by
    intro p hp
    obtain ⟨hp, hr⟩ := mem_ofRank.mp hp
    exact (h.shape.band_of_rank hp hpri).mpr hr
  generalize ofRank q.rank pri.toNat l = c at hqfirst hqlast hl hc
  have hlist := flushband_list flag h hpri hl hc hpre hpost
  have hlen := h.turns
  rw [hl] at hlen
  simp only [length_append] at hlen
  unfold flushband
  rw [if_neg (Nat.not_lt.mpr hle), if_neg hpri, hqb, Option.bind_some, hlist]
  have hpostBand : ∀ p ∈ post, (q.msg p).band ≠ pri := by
    intro p hp hb
    have hr := (h.shape.band_of_rank (by simp [hl, hp]) hpri).mp hb
    exact Nat.ne_of_lt (hpost p hp) hr
  rw [hl] at h
  cases c with
  | nil =>
    simp only [hqfirst]
    exact ⟨q, rfl, rfl, h⟩
  | cons x c =>
    rw [head?_cons] at hqfirst
    simp only [hqfirst]
    have hnd : (x :: c).Nodup := (nodup_append.mp (nodup_append.mp h.linked.nodup).2.1).1
    rcases eq_nil_or_concat' c with rfl | ⟨c, z, rfl⟩
    · -- the only message of the band: the loop stops at the message behind it
      rw [getLast?_singleton] at hqlast
      have hnext : q.next x = post.head? := h.linked.next
      rw [if_pos hqlast, hnext]
      obtain ⟨q1, heq, hq1, hmsg⟩ := bandLoop_spec pri flag [x] post pre q h hc (q.turns + 1)
        (by simp only [length_cons, length_nil] at hlen ⊢; omega)
      have heq' : bandLoop pri flag post.head? (q.turns + 1) (some x) q = some (post.head?, q1) := heq
      rw [heq', Option.bind_some]
      refine ⟨q1, ?_, hmsg, hq1⟩
      cases post with
      | nil => rfl
      | cons y post =>
        refine if_neg ?_
        rw [hmsg]
        exact fun hcond => hpostBand y (by simp) hcond.1
    · have hzlast : (x :: (c ++ [z])).getLast? = some z := by
        rw [← cons_append, getLast?_concat]
      rw [hzlast] at hqlast
      have hzx : z ≠ x := by
        rintro rfl
        exact (nodup_cons.mp hnd).1 (by simp)
      rw [if_neg (by rw [hqlast]; simpa using hzx), hqlast]
      have hassoc : pre ++ (x :: (c ++ [z]) ++ post) = pre ++ ((x :: c) ++ (z :: post)) := by simp
      have hcx : ∀ p ∈ x :: c, (q.msg p).band = pri := by
        intro p hp
        refine hc p ?_
        exact mem_append_left _ hp
      have hz : (q.msg z).band = pri := hc z (by simp)
      obtain ⟨q1, heq, hq1, hmsg⟩ := bandLoop_spec pri flag (x :: c) (z :: post) pre q (hassoc ▸ h) hcx
        (q.turns + 1) (by simp only [length_cons, length_append] at hlen ⊢; omega)
      have heq' : bandLoop pri flag (some z) (q.turns + 1) (some x) q = some (some z, q1) := heq
      rw [heq', Option.bind_some]
      rw [← append_assoc] at hq1
      obtain ⟨q', hstop, hq', hmsg'⟩ := bandStop_spec flag hq1 (hmsg ▸ hz)
      refine ⟨q', hstop, hmsg'.trans hmsg, ?_⟩
      rw [← cons_append, filter_append]
      rw [hmsg] at hq'
      simpa only [append_assoc] using hq'

lemma flushband_spec (h : Queued q l) (avail : Nat) (pri : UInt8) (flag : Bool) :
    ∃ q' l', flushband avail q pri flag = some q' ∧ Queued q' l' ∧ q'.msg = q.msg ∧
      ∀ k, ofRank q.rank k l' = (ofRank q.rank k l).filter fun p =>
        !((q.msg p).band = pri && (flag || datamsg (q.msg p).type)) := by
  by_cases hlt : q.nband < pri.toNat
  · refine ⟨q, l, if_pos hlt, h, rfl, ?_⟩
    intro k
    refine (filter_eq_self.mpr ?_).symm
    intro p hp
    have hle := h.shape.band_le p (mem_ofRank.mp hp).1
    have hne : (q.msg p).band ≠ pri := by
      rintro rfl
      omega
    simp [hne]
  · by_cases hpri : pri = 0
    · subst hpri
      obtain ⟨q', l', heq, hq', hmsg, hclass⟩ := flush_clear h avail fun m => m.band = 0 && (flag || datamsg m.type)
      unfold flushband
      rw [if_neg hlt, if_pos rfl, heq, Option.map_some]
      split_ifs with hwake
      · refine ⟨_, l', rfl, hq'.congr ?_, hmsg, hclass⟩
        exact ⟨rfl, rfl, fun _ _ => rfl, rfl, rfl, rfl, rfl, rfl, fun _ qb hqb => ⟨qb, hqb, SameBand.refl qb⟩,
          le_refl _⟩
      · exact ⟨q', l', rfl, hq', hmsg, hclass⟩
    · obtain ⟨q', heq, hmsg, hq'⟩ := flushband_band_spec h hpri (not_lt.mp hlt) avail flag
      exact ⟨q', _, heq, hq', hmsg, fun k => ofRank_filter ..⟩

end Flushband

end Flush

/-!
## Runs of a queue

For every rank there is a list of messages of its own: `putq` puts a message at its end, `putbq` at its front.
-/

section Runs

open Lib Queue Nat Function List

abbrev Classes := Nat → List MsgPtr

namespace Classes

def append (d : Classes) (k : Nat) (p : MsgPtr) : Classes := Function.update d k (d k ++ [p])

def prepend (d : Classes) (k : Nat) (p : MsgPtr) : Classes := Function.update d k (p :: d k)

def keep (d : Classes) (f : MsgPtr → Bool) : Classes := fun k => (d k).filter f

end Classes

/-- The operations on the queue. Between them the owner of a message that is not on the queue fills it in,
and the flags of readers and writers change. -/
inductive Op where
  | write (p : MsgPtr) (m : Msg) (next prev : Option MsgPtr)
  | flags (wantr wantw wantwsync noenb : Bool)
  | wantBand (i : Nat)
  | putq (p : MsgPtr) (avail : Nat)
  | putbq (p : MsgPtr) (avail : Nat)
  | getq
  | rmvq (p : MsgPtr)
  | flushq (flag : Bool) (avail : Nat)
  | flushband (pri : UInt8) (flag : Bool) (avail : Nat)

/-- A message is filled in and put only while it is not on the queue, and removed only while it is. -/
def Legal (q : Queue) (d : Classes) : Op → Prop
  | .write p _ _ _ => ∀ k, p ∉ d k
  | .putq p _ => (∀ k, p ∉ d k) ∧ (q.msg p).noget = false
  | .putbq p _ => (∀ k, p ∉ d k) ∧ (q.msg p).noget = false
  | .rmvq p => ∃ k, p ∈ d k
  | _ => True

def writeMsg (q : Queue) (p : MsgPtr) (m : Msg) (next prev : Option MsgPtr) : Queue :=
  { (q.setNext p next).setPrev p prev with msg := Function.update q.msg p m }

def step (q : Queue) (d : Classes) : Op → Option (Queue × Classes)
  | .write p m fwd bwd => some (writeMsg q p m fwd bwd, d)
  | .flags wantr wantw wantwsync noenb =>
    some ({ q with wantr := wantr, wantw := wantw, wantwsync := wantwsync, noenb := noenb }, d)
  | .wantBand i => some (q.setBand i fun qb => { qb with wantw := true }, d)
  | .putq p avail => (putq avail q p).map fun r => (r.2, if r.1 then d.append (q.rank p) p else d)
  | .putbq p avail => (putbq avail q p).map fun r => (r.2, if r.1 then d.prepend (q.rank p) p else d)
  | .getq => (getq q).map fun r => (r.2, d.keep fun p => some p ≠ r.1)
  | .rmvq p => (rmvq q p).map fun q' => (q', d.keep fun p' => p' ≠ p)
  | .flushq flag avail => (flushq avail q flag).map fun q' => (q', d.keep fun p => !(flag || datamsg (q.msg p).type))
  | .flushband pri flag avail =>
    (flushband avail q pri flag).map fun q' =>
      (q', d.keep fun p => !((q.msg p).band = pri && (flag || datamsg (q.msg p).type)))

structure Empty (q : Queue) : Prop where
  first : q.first = none
  last : q.last = none
  count : q.count = 0
  full : q.full = false
  nband_eq : q.nband = q.bands.length
  nband_le : q.nband ≤ 255
  band : ∀ qb ∈ q.bands, qb.first = none ∧ qb.last = none ∧ qb.count = 0 ∧ qb.full = false

inductive Reaches (q₀ : Queue) : Queue → Classes → Prop where
  | start : Reaches q₀ q₀ fun _ => []
  | next {q d q' d'} (op : Op) : Reaches q₀ q d → Legal q d op → step q d op = some (q', d') → Reaches q₀ q' d'

/-- The queue holds the messages of every rank in their order. -/
def Holds (q : Queue) (d : Classes) : Prop := ∃ l, Queued q l ∧ ∀ k, ofRank q.rank k l = d k

variable {q q' q₀ : Queue} {d : Classes} {l pre post : List MsgPtr} {p : MsgPtr}

lemma queued_empty (h : Empty q) : Queued q [] := by
  refine ⟨linked_nil h.first h.last, ⟨List.Pairwise.nil, by simp, by simp, by simp⟩, ⟨h.nband_eq, h.nband_le⟩, ?_,
    ⟨?_, ?_⟩, zero_le _⟩
  · intro i qb hqb
    obtain ⟨hfirst, hlast, -⟩ := h.band qb (mem_of_getElem? hqb)
    exact ⟨hfirst, hlast⟩
  · rw [h.count, h.full]
    exact Flow.nil
  · intro i qb hqb
    obtain ⟨-, -, hcount, hfull⟩ := h.band qb (mem_of_getElem? hqb)
    rw [hcount, hfull]
    exact Flow.nil

lemma notMem_of_classes (hd : ∀ k, ofRank q.rank k l = d k) (hp : ∀ k, p ∉ d k) : p ∉ l := by
  intro hmem
  refine hp (q.rank p) ?_
  rw [← hd]
  exact mem_ofRank.mpr ⟨hmem, rfl⟩

lemma filter_ne_middle (hnd : (pre ++ p :: post).Nodup) :
    (pre ++ p :: post).filter (fun p' => p' ≠ p) = pre ++ post := by
  have hmem := (nodup_cons.mp (nodup_middle.mp hnd)).1
  have hself : ∀ l : List MsgPtr, p ∉ l → l.filter (fun p' => p' ≠ p) = l := by
    intro l hl
    refine filter_eq_self.mpr ?_
    intro a ha
    have : a ≠ p := by
      rintro rfl
      exact hl ha
    simpa using this
  rw [filter_append, filter_cons_of_neg (by simp), hself pre (fun h => hmem (by simp [h])),
    hself post (fun h => hmem (by simp [h]))]

lemma Holds.sameQueue (h : Holds q d) (hsame : ∀ l, SameQueue q l q') : Holds q' d := by
  obtain ⟨l, hq, hd⟩ := h
  refine ⟨l, hq.congr (hsame l), ?_⟩
  intro k
  rw [ofRank_congr (hsame l).rank]
  exact hd k

lemma Holds.write (h : Holds q d) (hp : ∀ k, p ∉ d k) (m : Msg) (next prev : Option MsgPtr) :
    Holds (writeMsg q p m next prev) d := by
  obtain ⟨l, hq, hd⟩ := h
  have hpl := notMem_of_classes hd hp
  have hsame : SameQueue ((q.setNext p next).setPrev p prev) l (writeMsg q p m next prev) := by
    refine ⟨rfl, rfl, ?_, rfl, rfl, rfl, rfl, rfl, fun _ qb hqb => ⟨qb, hqb, SameBand.refl qb⟩, le_refl _⟩
    intro p' hp'
    have hne : p' ≠ p := by
      rintro rfl
      exact hpl hp'
    exact update_of_ne hne ..
  refine ⟨l, (hq.relink_off hpl next prev).congr hsame, ?_⟩
  intro k
  rw [ofRank_congr hsame.rank]
  exact hd k

lemma Holds.keep (hd : ∀ k, ofRank q.rank k l = d k) (hmsg : q'.msg = q.msg) {l' : List MsgPtr} (hq' : Queued q' l')
    {f : MsgPtr → Bool} (hf : ∀ k, ofRank q.rank k l' = (ofRank q.rank k l).filter f) : Holds q' (d.keep f) := by
  refine ⟨l', hq', ?_⟩
  intro k
  rw [rank_congr hmsg, hf, hd]
  rfl

lemma step_holds (h : Holds q d) (op : Op) (hlegal : Legal q d op) :
    ∃ q' d', step q d op = some (q', d') ∧ Holds q' d' := by
  cases op with
  | write p m next prev => exact ⟨_, _, rfl, h.write hlegal m next prev⟩
  | flags wantr wantw wantwsync noenb =>
    refine ⟨_, _, rfl, h.sameQueue fun l => ?_⟩
    exact ⟨rfl, rfl, fun _ _ => rfl, rfl, rfl, rfl, rfl, rfl, fun _ qb hqb => ⟨qb, hqb, SameBand.refl qb⟩, le_refl _⟩
  | wantBand i =>
    refine ⟨_, _, rfl, h.sameQueue fun l => ?_⟩
    refine ⟨rfl, rfl, fun _ _ => rfl, rfl, rfl, rfl, rfl, length_modify .., ?_, le_refl _⟩
    intro j qb hqb
    rcases band_modify hqb with ⟨rfl, qb', hqb', rfl⟩ | ⟨-, hqb'⟩
    · exact ⟨qb', hqb', rfl, rfl, rfl, rfl, rfl⟩
    · exact ⟨qb, hqb', SameBand.refl qb⟩
  | putq p avail =>
    obtain ⟨l, hq, hd⟩ := h
    obtain ⟨ok, q', heq, hrank, -, -, hres⟩ := putq_spec hq (notMem_of_classes hd hlegal.1) hlegal.2 avail
    refine ⟨q', _, by rw [step, heq]; rfl, ?_⟩
    rcases hres with ⟨rfl, hq'⟩ | ⟨rfl, pre, post, rfl, -, hpost, hq'⟩
    · refine ⟨l, hq', ?_⟩
      rw [hrank]
      exact hd
    refine ⟨_, hq', ?_⟩
    intro k
    rw [hrank, if_pos rfl, Classes.append]
    by_cases hk : k = q.rank p
    · subst hk
      rw [update_self, ofRank_behind hpost, hd]
    · rw [update_of_ne hk, ofRank_middle_of_ne (Ne.symm hk), hd]
  | putbq p avail =>
    obtain ⟨l, hq, hd⟩ := h
    obtain ⟨ok, q', heq, hrank, -, -, hres⟩ := putbq_spec hq (notMem_of_classes hd hlegal.1) hlegal.2 avail
    refine ⟨q', _, by rw [step, heq]; rfl, ?_⟩
    rcases hres with ⟨rfl, hq'⟩ | ⟨rfl, pre, post, rfl, hpre, -, hq'⟩
    · refine ⟨l, hq', ?_⟩
      rw [hrank]
      exact hd
    refine ⟨_, hq', ?_⟩
    intro k
    rw [hrank, if_pos rfl, Classes.prepend]
    by_cases hk : k = q.rank p
    · subst hk
      rw [update_self, ofRank_before hpre, hd]
    · rw [update_of_ne hk, ofRank_middle_of_ne (Ne.symm hk), hd]
  | getq =>
    obtain ⟨l, hq, hd⟩ := h
    obtain ⟨q', heq, hq', hmsg⟩ := getq_spec hq
    refine ⟨q', _, by rw [step, heq]; rfl, Holds.keep hd hmsg hq' ?_⟩
    intro k
    rw [← ofRank_filter]
    refine congrArg (ofRank q.rank k) ?_
    cases l with
    | nil => rfl
    | cons x post =>
      have hne := @filter_ne_middle [] post x hq.linked.nodup
      simpa using hne.symm
  | rmvq p =>
    obtain ⟨l, hq, hd⟩ := h
    obtain ⟨k, hk⟩ := hlegal
    rw [← hd] at hk
    obtain ⟨pre, post, rfl⟩ := append_of_mem (mem_ofRank.mp hk).1
    obtain ⟨q', heq, hq', hmsg⟩ := rmvq_spec hq
    refine ⟨q', _, by rw [step, heq]; rfl, Holds.keep hd hmsg hq' ?_⟩
    intro k
    rw [← ofRank_filter, filter_ne_middle hq.linked.nodup]
  | flushq flag avail =>
    obtain ⟨l, hq, hd⟩ := h
    obtain ⟨q', l', heq, hq', hmsg, hclass⟩ := flushq_spec hq avail flag
    exact ⟨q', _, by rw [step, heq]; rfl, Holds.keep hd hmsg hq' hclass⟩
  | flushband pri flag avail =>
    obtain ⟨l, hq, hd⟩ := h
    obtain ⟨q', l', heq, hq', hmsg, hclass⟩ := flushband_spec hq avail pri flag
    exact ⟨q', _, by rw [step, heq]; rfl, Holds.keep hd hmsg hq' hclass⟩

lemma reaches_holds (h₀ : Empty q₀) (h : Reaches q₀ q d) : Holds q d := by
  induction h with
  | start => exact ⟨[], queued_empty h₀, fun _ => rfl⟩
  | next op _ hlegal hstep ih =>
    obtain ⟨q', d', heq, hholds⟩ := step_holds ih op hlegal
    rw [hstep, Option.some.injEq, Prod.mk.injEq] at heq
    rw [heq.1, heq.2]
    exact hholds

/-- From an empty queue on, every run of operations keeps the list of messages, its order, the ends of the
bands, the counts and the flags, and no operation follows a null pointer. -/
theorem queue_holds_classes (h₀ : Empty q₀) (h : Reaches q₀ q d) :
    (∃ l, Queued q l ∧ ∀ k, ofRank q.rank k l = d k) ∧
      ∀ op, Legal q d op → ∃ q' d', step q d op = some (q', d') :=
  ⟨reaches_holds h₀ h, fun op hlegal =>
    let ⟨q', d', heq, _⟩ := step_holds (reaches_holds h₀ h) op hlegal
    ⟨q', d', heq⟩⟩

section Concrete

def openQueue (hiwat : Nat) : Queue where
  next := fun _ => none
  prev := fun _ => none
  msg := fun _ => ⟨0, 0, false, []⟩
  first := none
  last := none
  count := 0
  hiwat := hiwat
  lowat := 0
  full := false
  wantr := true
  wantw := false
  wantwsync := false
  noenb := false
  nband := 0
  bands := []
  wakes := []
  turns := 0

lemma openQueue_empty (hiwat : Nat) : Empty (openQueue hiwat) :=
  ⟨rfl, rfl, rfl, rfl, rfl, Nat.zero_le _, by simp [openQueue]⟩

theorem queue_holds_classes_two : ∃ q d, Reaches (openQueue 4) q d ∧ d 256 = [7] ∧ d 2 = [5] ∧ q.last = some 5 ∧
    ∃ l, Queued q l ∧ ∀ k, ofRank q.rank k l = d k := by
  have hrun : ∃ q d, Reaches (openQueue 4) q d ∧ d 256 = [7] ∧ d 2 = [5] ∧ q.last = some 5 := by
    refine ⟨_, _, .next (.putq 7 0) (.next (.putq 5 2) (.next (.write 7 ⟨0, 0x83, false, [3]⟩ none none)
      (.next (.write 5 ⟨2, 0, false, [1, 2]⟩ none none) .start ?_ rfl) ?_ rfl) ?_ rfl) ?_ rfl, rfl, rfl, rfl⟩
    · simp [Legal]
    · simp [Legal]
    · exact ⟨by simp, rfl⟩
    · refine ⟨fun k => ?_, rfl⟩
      by_cases hk : k = 2
      · subst hk
        decide
      · change 7 ∉ update (fun _ => []) 2 [5] k
        rw [update_of_ne hk]
        simp
  obtain ⟨q, d, hr, h256, h2, hlast⟩ := hrun
  exact ⟨q, d, hr, h256, h2, hlast, (queue_holds_classes (openQueue_empty 4) hr).1⟩

/-- Without a high water mark the queue is not full when it is empty. -/
theorem empty_queue_not_full : ¬∀ q₀ q d, Empty q₀ → Reaches q₀ q d → (q.full = true ↔ q.hiwat ≤ q.count) := by
  intro hall
  have hrun : ∃ q d, Reaches (openQueue 0) q d ∧ q.full = false ∧ q.hiwat ≤ q.count := by
    refine ⟨_, _, .next (.flushq true 0) (.next (.putq 5 0) .start ?_ rfl) ?_ rfl, rfl, le_refl 0⟩
    all_goals simp [Legal, openQueue]
  obtain ⟨q, d, hr, hfull, hle⟩ := hrun
  have := (hall _ q d (openQueue_empty 0) hr).mpr hle
  rw [hfull] at this
  cases this

end Concrete

end Runs

end Solaris.Stream
