import Mathlib.Data.UInt
import Solaris.Lib.Chain

/-!
# The queue of a stream

`putq`, `putbq`, `getq`, `rmvq`, `flushq` and `flushband` on one queue. A message is known by the address of its
first block; the fields of all messages are maps from addresses. A null pointer that is followed is `none`.
-/

namespace Solaris.Stream

section Links

open Function List Function

abbrev MsgPtr := Nat

/-- What a message says of itself: `b_band`, `db_type`, `MSGNOGET`, and the bytes of each of its blocks. -/
structure Msg where
  band : UInt8
  type : UInt8
  noget : Bool
  blocks : List Nat

structure Qband where
  count : Nat
  first : Option MsgPtr
  last : Option MsgPtr
  hiwat : Nat
  lowat : Nat
  full : Bool
  wantw : Bool

inductive Wake where
  | qenable
  | backenable (band : Nat)
  | strwakeq

structure Queue where
  next : MsgPtr → Option MsgPtr
  prev : MsgPtr → Option MsgPtr
  msg : MsgPtr → Msg
  first : Option MsgPtr
  last : Option MsgPtr
  count : Nat
  hiwat : Nat
  lowat : Nat
  full : Bool
  wantr : Bool
  wantw : Bool
  wantwsync : Bool
  noenb : Bool
  nband : Nat
  bands : List Qband
  wakes : List Wake
  turns : Nat

def QNORM : UInt8 := 0x00

def QPCTL : UInt8 := 0x80

def queclass (m : Msg) : UInt8 := if QPCTL ≤ m.type then QPCTL else QNORM

/-- `M_DATA`, `M_PROTO`, `M_PCPROTO` and `M_DELAY`. -/
def datamsg (type : UInt8) : Bool := type = 0x00 ∨ type = 0x01 ∨ type = 0x83 ∨ type = 0x0c

namespace Queue

variable (q : Queue)

def setNext (p : MsgPtr) (n : Option MsgPtr) : Queue := { q with next := update q.next p n }

def setPrev (p : MsgPtr) (n : Option MsgPtr) : Queue := { q with prev := update q.prev p n }

/-- The link to what follows a message, or to the first one. -/
def linkNext (s : Option MsgPtr) (n : Option MsgPtr) : Queue :=
  match s with
  | some p => q.setNext p n
  | none => { q with first := n }

/-- The link to what comes before a message, or to the last one. -/
def linkPrev (s : Option MsgPtr) (n : Option MsgPtr) : Queue :=
  match s with
  | some p => q.setPrev p n
  | none => { q with last := n }

def setBand (i : Nat) (f : Qband → Qband) : Queue := { q with bands := q.bands.modify i f }

/-- The band structure of a message: the head of `q_bandp` is that of band one. -/
def bandIdx (p : MsgPtr) : Nat := (q.msg p).band.toNat - 1

/-- "Insert bp before tmp." -/
def insertBefore (bp tmp : MsgPtr) : Queue :=
  ((((q.setNext bp (some tmp)).setPrev bp (q.prev tmp)).linkNext (q.prev tmp) (some bp))).setPrev tmp (some bp)

/-- "Insert bp after the last message in this band." -/
def insertAfter (bp tmp : MsgPtr) : Queue :=
  ((((q.setNext bp (q.next tmp)).linkPrev (q.next tmp) (some bp))).setPrev bp (some tmp)).setNext tmp (some bp)

/-- "Tack bp on end of queue." -/
def tackOn (bp tmp : MsgPtr) : Queue :=
  { ((q.setNext bp none).setPrev bp (some tmp)).setNext tmp (some bp) with last := some bp }

/-- "Place on the front of the queue." -/
def insertFront (bp : MsgPtr) : Queue :=
  { ((q.setNext bp q.first).linkPrev q.first (some bp)).setPrev bp none with first := some bp }

/-- The first message from `tmp` on that the loop does not pass over. -/
def seek (pass : Msg → Bool) : Nat → Option MsgPtr → Option MsgPtr
  | 0, _ => none
  | _ + 1, none => none
  | fuel + 1, some p => if pass (q.msg p) then seek pass fuel (q.next p) else some p

/-- Bands are allocated up to that of a message; `avail` of the allocations succeed. -/
def allocBands (band : Nat) : Nat → Queue → Bool × Queue
  | 0, q => (decide (band ≤ q.nband), q)
  | avail + 1, q =>
    if band ≤ q.nband then (true, q)
    else allocBands band avail
      { q with
        bands := q.bands ++ [⟨0, none, none, q.hiwat, q.lowat, false, false⟩]
        nband := q.nband + 1 }

/-- "Make sanity checks and if qband structure is not yet allocated, do so." -/
def sanity (avail : Nat) (bp : MsgPtr) : Bool × Queue :=
  if queclass (q.msg bp) = QPCTL then
    (true, { q with msg := update q.msg bp { q.msg bp with band := 0 } })
  else if (q.msg bp).band ≠ 0 then allocBands (q.msg bp).band.toNat avail q
  else (true, q)

/-- The bytes of a message are added to its band, or to the queue. -/
def account (bp : MsgPtr) : Queue :=
  if (q.msg bp).band ≠ 0 then
    q.setBand (q.bandIdx bp) fun qb =>
      let count := (q.msg bp).blocks.foldl (· + ·) qb.count
      { qb with count := count, full := if qb.hiwat ≤ count then true else qb.full }
  else
    let count := (q.msg bp).blocks.foldl (· + ·) q.count
    { q with count := count, full := if q.hiwat ≤ count then true else q.full }

/-- The bytes of a message are taken off its band, or off the queue. -/
def discount (bp : MsgPtr) : Queue :=
  if (q.msg bp).band = 0 then
    let count := (q.msg bp).blocks.foldl (· - ·) q.count
    { q with count := count, full := if count < q.hiwat then false else q.full }
  else
    q.setBand (q.bandIdx bp) fun qb =>
      let count := (q.msg bp).blocks.foldl (· - ·) qb.count
      { qb with count := count, full := if count < qb.hiwat then false else qb.full }

/-- `qenable_locked`, and the message counts as put. -/
def enableIf (wake : Bool) : Queue :=
  { q with
    wakes := if wake then q.wakes ++ [.qenable] else q.wakes
    turns := q.turns + 1 }

def Low (count lowat : Nat) : Bool := count < lowat ∨ lowat = 0

def qbackenable (band : UInt8) : Queue :=
  if band = 0 then
    if Low q.count q.lowat then
      { q with
        wantw := false
        wantwsync := false
        wakes := q.wakes ++ (if q.wantwsync then [.strwakeq] else []) ++ if q.wantw then [.backenable 0] else [] }
    else q
  else
    match q.bands[band.toNat - 1]? with
    | none => q
    | some qbp =>
      if Low qbp.count qbp.lowat && qbp.wantw then
        { q.setBand (band.toNat - 1) fun qb => { qb with wantw := false } with
          wakes := q.wakes ++ [.backenable band.toNat] }
      else q

def clear : Queue :=
  { q with
    first := none
    last := none
    count := 0
    bands := q.bands.map fun qb => { qb with first := none, last := none, count := 0, full := false }
    full := false }

end Queue

open Queue

/-- Where `putq` puts a message of a band that has none. -/
def putqNew (q : Queue) (bp : MsgPtr) : Option Queue :=
  q.last.bind fun tmp =>
    if queclass (q.msg bp) < queclass (q.msg tmp) ∨ (q.msg bp).band ≤ (q.msg tmp).band then some (q.tackOn bp tmp)
    else
      (q.seek (fun m => QPCTL ≤ m.type) q.turns q.first).bind fun tmp =>
        (q.seek (fun m => (q.msg bp).band ≤ m.band) q.turns (some tmp)).map fun tmp => q.insertBefore bp tmp

/-- The list, and the ends of the band, in `putq`. -/
def putqLink (q : Queue) (bp : MsgPtr) : Option Queue :=
  let mcls := queclass (q.msg bp)
  match q.first with
  | none =>
    let q := { (q.setNext bp none).setPrev bp none with first := some bp, last := some bp }
    some (if (q.msg bp).band ≠ 0 then
      q.setBand (q.bandIdx bp) fun qb => { qb with first := some bp, last := some bp } else q)
  | some _ =>
    if (q.msg bp).band = 0 then
      q.last.bind fun tmp =>
        if mcls ≤ queclass (q.msg tmp) then some (q.tackOn bp tmp)
        else (q.seek (fun m => mcls ≤ queclass m) q.turns q.first).map fun tmp => q.insertBefore bp tmp
    else
      (q.bands[q.bandIdx bp]?).bind fun qbp =>
        match qbp.first with
        | some _ =>
          qbp.last.map fun tmp =>
            (q.insertAfter bp tmp).setBand (q.bandIdx bp) fun qb => { qb with last := some bp }
        | none =>
          (putqNew q bp).map fun q =>
            q.setBand (q.bandIdx bp) fun qb => { qb with first := some bp, last := some bp }

def putq (avail : Nat) (q : Queue) (bp : MsgPtr) : Option (Bool × Queue) :=
  match q.sanity avail bp with
  | (false, q) => some (false, q)
  | (true, q) =>
    (putqLink q bp).map fun q =>
      let q := q.account bp
      (true, q.enableIf (decide (QNORM < queclass (q.msg bp)) ||
        (!q.noenb && (q.wantr || decide ((q.msg bp).band ≠ 0)))))

/-- Where `putbq` puts a message in front of which none of its band stands. -/
def putbqNew (q : Queue) (bp : MsgPtr) : Option Queue :=
  q.last.bind fun tmp =>
    if queclass (q.msg bp) < queclass (q.msg tmp) ∨ (q.msg bp).band < (q.msg tmp).band then some (q.tackOn bp tmp)
    else
      (q.seek (fun m => QPCTL ≤ m.type) q.turns q.first).bind fun tmp =>
        (q.seek (fun m => (q.msg bp).band < m.band) q.turns (some tmp)).map fun tmp => q.insertBefore bp tmp

/-- The list, and the ends of the band, in `putbq`. -/
def putbqLink (q : Queue) (bp : MsgPtr) : Option Queue :=
  if q.first = none ∨ queclass (q.msg bp) = QPCTL then
    some (if (q.msg bp).band ≠ 0 then
      (q.insertFront bp).setBand (q.bandIdx bp) fun qb => { qb with first := some bp, last := some bp }
      else q.insertFront bp)
  else if (q.msg bp).band ≠ 0 then
    (q.bands[q.bandIdx bp]?).bind fun qbp =>
      match qbp.first with
      | some tmp =>
        some ((q.insertBefore bp tmp).setBand (q.bandIdx bp) fun qb => { qb with first := some bp })
      | none =>
        (putbqNew q bp).map fun q =>
          q.setBand (q.bandIdx bp) fun qb => { qb with first := some bp, last := some bp }
  else putbqNew q bp

def putbq (avail : Nat) (q : Queue) (bp : MsgPtr) : Option (Bool × Queue) :=
  match q.sanity avail bp with
  | (false, q) => some (false, q)
  | (true, q) =>
    (putbqLink q bp).map fun q =>
      let q := q.account bp
      (true, q.enableIf (decide (QNORM < queclass (q.msg bp)) || (!q.noenb && q.wantr)))

/-- The ends of the band of a message that is taken off the queue. -/
def rmvqBand (q : Queue) (mp : MsgPtr) : Queue :=
  q.setBand (q.bandIdx mp) fun qb =>
    { qb with
      first := if qb.first = some mp then (q.next mp).filter fun n => (q.msg mp).band = (q.msg n).band else qb.first
      last := if qb.last = some mp then (q.prev mp).filter fun p => (q.msg mp).band = (q.msg p).band else qb.last }

/-- "Remove the message from the list." -/
def rmvqLink (q : Queue) (mp : MsgPtr) : Queue :=
  (((q.linkNext (q.prev mp) (q.next mp)).linkPrev (q.next mp) (q.prev mp)).setNext mp none).setPrev mp none

def rmvqNoenab (q : Queue) (mp : MsgPtr) : Option Queue :=
  if (q.msg mp).band ≠ 0 then
    (q.bands[q.bandIdx mp]?).map fun _ => (rmvqLink (rmvqBand q mp) mp).discount mp
  else some ((rmvqLink q mp).discount mp)

def rmvq (q : Queue) (mp : MsgPtr) : Option Queue :=
  (rmvqNoenab q mp).map fun q => q.qbackenable (q.msg mp).band

/-- The messages with `MSGNOGET` are passed over. -/
def skipNoget (q : Queue) : Nat → Option MsgPtr → Option (Option MsgPtr)
  | _, none => some none
  | 0, some _ => none
  | fuel + 1, some p => if (q.msg p).noget then skipNoget q fuel (q.next p) else some (some p)

def getqBand (q : Queue) (bp : MsgPtr) : Queue :=
  q.setBand (q.bandIdx bp) fun qb =>
    if qb.first = qb.last then { qb with first := none, last := none } else { qb with first := q.next bp }

def getqNoenab (q : Queue) : Option (Option MsgPtr × Queue) :=
  match q.first with
  | none => some (none, { q with wantr := true })
  | some bp =>
    if (q.msg bp).noget then
      (skipNoget q q.turns (some bp)).bind fun r =>
        match r with
        | none => some (none, q)
        | some bp => (rmvqNoenab q bp).map fun q => (some bp, q)
    else
      let link := { q with first := q.next bp }.linkPrev (q.next bp) none
      (if (q.msg bp).band = 0 then some link
        else (link.bands[link.bandIdx bp]?).map fun _ => getqBand link bp).map fun link =>
          (some bp, { ((link.discount bp).setNext bp none).setPrev bp none with wantr := false })

def getq (q : Queue) : Option (Option MsgPtr × Queue) :=
  (getqNoenab q).map fun r =>
    (r.1, r.2.qbackenable (match r.1 with
      | some bp => (r.2.msg bp).band
      | none => 0))

def flushLoop (avail : Nat) (drop : Msg → Bool) : Nat → Option MsgPtr → Queue → Option Queue
  | _, none, q => some q
  | 0, some _, _ => none
  | fuel + 1, some mp, q =>
    let nmp := q.next mp
    let q := (q.setNext mp none).setPrev mp none
    if drop (q.msg mp) then flushLoop avail drop fuel nmp q
    else (putq avail q mp).bind fun r => flushLoop avail drop fuel nmp r.2

/-- The writers that `flushq` wakes, from the highest band down. -/
def flushqWake (q : Queue) : Queue :=
  let due := fun qb : Qband => qb.wantw && Low qb.count qb.lowat
  let due0 := q.wantw && Low q.count q.lowat
  { q with
    bands := q.bands.map fun qb => if due qb then { qb with wantw := false } else qb
    wantw := q.wantw && !due0
    wakes := q.wakes ++ (((List.range q.nband).reverse.filter fun i => (q.bands[i]?).any due).map fun i =>
      .backenable (i + 1)) ++ if due0 then [.backenable 0] else [] }

def flushq (avail : Nat) (q : Queue) (flag : Bool) : Option Queue :=
  match q.first with
  | none => some q
  | some mp => (flushLoop avail (fun m => flag || datamsg m.type) q.turns (some mp) q.clear).map flushqWake

/-- The messages of a band up to `last`. -/
def bandLoop (pri : UInt8) (flag : Bool) (last : Option MsgPtr) : Nat → Option MsgPtr → Queue →
    Option (Option MsgPtr × Queue)
  | 0, _, _ => none
  | fuel + 1, mp, q =>
    if mp = last then some (mp, q)
    else
      mp.bind fun mp =>
        let nmp := q.next mp
        (if (q.msg mp).band = pri ∧ (flag || datamsg (q.msg mp).type) then rmvq q mp else some q).bind fun q =>
          bandLoop pri flag last fuel nmp q

def flushband (avail : Nat) (q : Queue) (pri : UInt8) (flag : Bool) : Option Queue :=
  if q.nband < pri.toNat then some q
  else if pri = 0 then
    (flushLoop avail (fun m => m.band = 0 && (flag || datamsg m.type)) q.turns q.first q.clear).map fun q =>
      if q.wantw && Low q.count q.lowat then { q with wantw := false, wakes := q.wakes ++ [.backenable 0] } else q
  else
    (q.bands[pri.toNat - 1]?).bind fun qbp =>
      match qbp.first with
      | none => some q
      | some mp =>
        let last := if qbp.last = some mp then q.next mp else qbp.last
        (bandLoop pri flag last (q.turns + 1) (some mp) q).bind fun r =>
          match r.1 with
          | none => some r.2
          | some mp =>
            if (r.2.msg mp).band = pri ∧ (flag || datamsg (r.2.msg mp).type) then rmvq r.2 mp else some r.2

end Links

/-!
## The list of messages

The messages of a queue hang together forwards by `b_next` from `q_first` and backwards by `b_prev` from
`q_last`.
-/

section Messages

open Lib Queue Function List

variable {q q' : Queue} {l pre post : List MsgPtr} {bp tmp : MsgPtr} {s n : Option MsgPtr}

namespace Queue

def nextAt (q : Queue) : Option MsgPtr → Option MsgPtr
  | some p => q.next p
  | none => q.first

def prevAt (q : Queue) : Option MsgPtr → Option MsgPtr
  | some p => q.prev p
  | none => q.last

section

variable (q : Queue) (p : MsgPtr) (n : Option MsgPtr)

@[simp] lemma nextAt_setNext :
    (q.setNext p n).nextAt = update q.nextAt (some p) n := by
  ext1 s
  cases s with
  | none => rfl
  | some p' =>
    by_cases hp : p' = p
    · subst hp
      rw [update_self]
      exact update_self ..
    · rw [update_of_ne (by simpa using hp)]
      exact update_of_ne hp ..

@[simp] lemma prevAt_setPrev :
    (q.setPrev p n).prevAt = update q.prevAt (some p) n := by
  ext1 s
  cases s with
  | none => rfl
  | some p' =>
    by_cases hp : p' = p
    · subst hp
      rw [update_self]
      exact update_self ..
    · rw [update_of_ne (by simpa using hp)]
      exact update_of_ne hp ..

@[simp] lemma nextAt_setPrev : (q.setPrev p n).nextAt = q.nextAt := rfl

@[simp] lemma prevAt_setNext : (q.setNext p n).prevAt = q.prevAt := rfl

end

lemma nextAt_first (q : Queue) (n : Option MsgPtr) :
    ({ q with first := n } : Queue).nextAt = update q.nextAt none n := by
  ext1 s
  cases s <;> simp [nextAt]

lemma prevAt_last (q : Queue) (n : Option MsgPtr) :
    ({ q with last := n } : Queue).prevAt = update q.prevAt none n := by
  ext1 s
  cases s <;> simp [prevAt]

@[simp] lemma nextAt_linkNext (q : Queue) (s n : Option MsgPtr) :
    (q.linkNext s n).nextAt = update q.nextAt s n := by
  cases s with
  | none => exact nextAt_first q n
  | some p => exact nextAt_setNext q p n

@[simp] lemma prevAt_linkPrev (q : Queue) (s n : Option MsgPtr) :
    (q.linkPrev s n).prevAt = update q.prevAt s n := by
  cases s with
  | none => exact prevAt_last q n
  | some p => exact prevAt_setPrev q p n

@[simp] lemma prevAt_linkNext (q : Queue) (s n : Option MsgPtr) : (q.linkNext s n).prevAt = q.prevAt := by
  cases s <;> rfl

@[simp] lemma nextAt_linkPrev (q : Queue) (s n : Option MsgPtr) : (q.linkPrev s n).nextAt = q.nextAt := by
  cases s <;> rfl

end Queue

structure Linked (q : Queue) (l : List MsgPtr) : Prop where
  nodup : l.Nodup
  forward : Chain q.nextAt id l
  backward : Chain q.prevAt id l.reverse

lemma Linked.first (h : Linked q l) : q.first = l.head? := h.forward.head

lemma Linked.last (h : Linked q l) : q.last = l.getLast? := by
  have := h.backward.head
  rwa [head?_reverse] at this

lemma Linked.next (h : Linked q (pre ++ bp :: post)) : q.next bp = post.head? := h.forward.next

lemma Linked.prev (h : Linked q (pre ++ bp :: post)) : q.prev bp = pre.getLast? := by
  have hb := h.backward
  have hrev : (pre ++ bp :: post).reverse = post.reverse ++ bp :: pre.reverse := by simp
  rw [hrev] at hb
  have := hb.next
  rwa [head?_reverse] at this

lemma linked_nil (hfirst : q.first = none) (hlast : q.last = none) : Linked q [] :=
  ⟨List.nodup_nil, chain_nil hfirst, chain_nil hlast⟩

lemma Linked.congr (h : Linked q l) (hnext : q'.nextAt = q.nextAt) (hprev : q'.prevAt = q.prevAt) : Linked q' l := by
  refine ⟨h.nodup, ?_, ?_⟩
  · rw [hnext]
    exact h.forward
  · rw [hprev]
    exact h.backward

lemma Linked.insert (h : Linked q (pre ++ post)) (hbp : bp ∉ pre ++ post)
    (hnext : q'.nextAt = update (update q.nextAt (some bp) post.head?) pre.getLast? (some bp))
    (hprev : q'.prevAt = update (update q.prevAt (some bp) pre.getLast?) post.head? (some bp)) :
    Linked q' (pre ++ bp :: post) := by
  have hnd : (pre ++ bp :: post).Nodup := nodup_middle.mpr (nodup_cons.mpr ⟨hbp, h.nodup⟩)
  have hpre : some bp ≠ pre.getLast? := by
    intro heq
    exact hbp (mem_append_left _ (mem_of_getLast? heq.symm))
  have hpost : some bp ≠ post.head? := by
    intro heq
    exact hbp (mem_append_right _ (mem_of_head? heq.symm))
  refine ⟨hnd, ?_, ?_⟩
  · refine h.forward.insert hnd ?_ ?_ ?_
    · rw [hnext, update_of_ne hpre, update_self]
      rfl
    · rw [hnext, update_self]
      rfl
    · intro s hs hs'
      rw [hnext, update_of_ne hs', update_of_ne hs]
  · have hb := h.backward
    rw [reverse_append] at hb
    have hrev : (pre ++ bp :: post).reverse = post.reverse ++ bp :: pre.reverse := by simp
    rw [hrev]
    refine hb.insert (hrev ▸ nodup_reverse.mpr hnd) ?_ ?_ ?_
    · rw [hprev, update_of_ne hpost, update_self, head?_reverse]
      rfl
    · rw [hprev, getLast?_reverse, update_self]
      rfl
    · intro s hs hs'
      rw [getLast?_reverse] at hs'
      rw [hprev, update_of_ne hs', update_of_ne hs]

lemma Linked.remove (h : Linked q (pre ++ bp :: post))
    (hnext : ∀ s, s ≠ some bp → q'.nextAt s = update q.nextAt pre.getLast? post.head? s)
    (hprev : ∀ s, s ≠ some bp → q'.prevAt s = update q.prevAt post.head? pre.getLast? s) :
    Linked q' (pre ++ post) := by
  have hnd := nodup_cons.mp (nodup_middle.mp h.nodup)
  have hpre : pre.getLast? ≠ some bp := by
    intro heq
    exact hnd.1 (mem_append_left _ (mem_of_getLast? heq))
  have hpost : post.head? ≠ some bp := by
    intro heq
    exact hnd.1 (mem_append_right _ (mem_of_head? heq))
  refine ⟨hnd.2, ?_, ?_⟩
  · refine h.forward.remove h.nodup ?_ ?_
    · rw [hnext _ hpre, update_self]
      rfl
    · intro s hs hs'
      rw [hnext s hs, update_of_ne hs']
  · have hb := h.backward
    have hrev : (pre ++ bp :: post).reverse = post.reverse ++ bp :: pre.reverse := by simp
    rw [hrev] at hb
    rw [reverse_append]
    refine hb.remove (hrev ▸ nodup_reverse.mpr h.nodup) ?_ ?_
    · rw [getLast?_reverse, hprev _ hpost, update_self, head?_reverse]
      rfl
    · intro s hs hs'
      rw [getLast?_reverse] at hs'
      rw [hprev s hs, update_of_ne hs']

/-- Only links have changed, those of messages of `l` among them. -/
structure Relinked (q : Queue) (l : List MsgPtr) (q' : Queue) : Prop where
  linked : Linked q' l
  data : q' = { q with next := q'.next, prev := q'.prev, first := q'.first, last := q'.last }
  frame : ∀ p, p ∉ l → q'.next p = q.next p

section Relinked

lemma Relinked.msg (h : Relinked q l q') : q'.msg = q.msg := by
  rw [h.data]

lemma Relinked.bandIdx (h : Relinked q l q') (p : MsgPtr) : q'.bandIdx p = q.bandIdx p := by
  rw [Queue.bandIdx, Queue.bandIdx, h.msg]

lemma Relinked.bands (h : Relinked q l q') : q'.bands = q.bands := by
  rw [h.data]

lemma Relinked.nband (h : Relinked q l q') : q'.nband = q.nband := by
  rw [h.data]

lemma Relinked.turns (h : Relinked q l q') : q'.turns = q.turns := by
  rw [h.data]

lemma next_of_update {s : Option MsgPtr} {p : MsgPtr} (hnext : q'.nextAt = update (update q.nextAt (some bp) n) s (some bp))
    (hp : p ≠ bp) (hs : some p ≠ s) : q'.next p = q.next p := by
  have := congrFun hnext (some p)
  rwa [update_of_ne hs, update_of_ne (by simpa using hp)] at this

lemma relinked_insertBefore (h : Linked q (pre ++ tmp :: post)) (hbp : bp ∉ pre ++ tmp :: post) :
    Relinked q (pre ++ bp :: tmp :: post) (q.insertBefore bp tmp) := by
  have hprev := h.prev
  have hnext : (q.insertBefore bp tmp).nextAt =
      update (update q.nextAt (some bp) (some tmp)) pre.getLast? (some bp) := by
    simp [Queue.insertBefore, hprev]
  refine ⟨h.insert hbp hnext ?_, ?_, ?_⟩
  · simp [Queue.insertBefore, hprev]
  · unfold Queue.insertBefore
    cases q.prev tmp <;> rfl
  · intro p hp
    refine next_of_update hnext ?_ ?_
    · rintro rfl
      exact hp (by simp)
    · intro hs
      exact hp (mem_append_left _ (mem_of_getLast? hs.symm))

lemma relinked_insertAfter (h : Linked q (pre ++ tmp :: post)) (hbp : bp ∉ pre ++ tmp :: post) :
    Relinked q ((pre ++ [tmp]) ++ bp :: post) (q.insertAfter bp tmp) := by
  have hnext := h.next
  rw [append_cons] at h hbp
  have hnextAt : (q.insertAfter bp tmp).nextAt =
      update (update q.nextAt (some bp) post.head?) (pre ++ [tmp]).getLast? (some bp) := by
    simp [Queue.insertAfter, hnext]
  refine ⟨h.insert hbp hnextAt ?_, ?_, ?_⟩
  · have hpost : some bp ≠ post.head? := by
      intro heq
      exact hbp (mem_append_right _ (mem_of_head? heq.symm))
    rw [getLast?_concat, update_comm hpost]
    simp [Queue.insertAfter, hnext]
  · unfold Queue.insertAfter
    cases q.next tmp <;> rfl
  · intro p hp
    refine next_of_update hnextAt ?_ ?_
    · rintro rfl
      exact hp (by simp)
    · intro hs
      exact hp (mem_append_left _ (mem_of_getLast? hs.symm))

lemma relinked_tackOn (h : Linked q (pre ++ [tmp])) (hbp : bp ∉ pre ++ [tmp]) :
    Relinked q ((pre ++ [tmp]) ++ [bp]) (q.tackOn bp tmp) := by
  have heq : q.tackOn bp tmp = q.insertAfter bp tmp := by
    have hnext : q.next tmp = none := h.next
    simp only [Queue.tackOn, Queue.insertAfter, hnext]
    rfl
  rw [heq]
  exact relinked_insertAfter h hbp

lemma relinked_front (h : Linked q l) (hbp : bp ∉ l) :
    Relinked q (bp :: l) (q.insertFront bp) := by
  have hfirst := h.first
  have hne : some bp ≠ l.head? := by
    intro heq
    exact hbp (mem_of_head? heq.symm)
  have hnext : (q.insertFront bp).nextAt =
      update (update q.nextAt (some bp) l.head?) ([] : List MsgPtr).getLast? (some bp) := by
    rw [Queue.insertFront, nextAt_first]
    simp [hfirst]
  have hlinked : Linked q ([] ++ l) := h
  refine ⟨hlinked.insert hbp hnext ?_, ?_, ?_⟩
  · change (((q.setNext bp q.first).linkPrev q.first (some bp)).setPrev bp none).prevAt = _
    rw [getLast?_nil, update_comm hne]
    simp [hfirst]
  · unfold Queue.insertFront
    cases q.first <;> rfl
  · intro p hp
    refine next_of_update hnext ?_ (by simp)
    rintro rfl
    exact hp (by simp)

lemma relinked_rmvqLink (h : Linked q (pre ++ bp :: post)) :
    Linked (rmvqLink q bp) (pre ++ post) ∧ rmvqLink q bp =
      { q with
        next := (rmvqLink q bp).next
        prev := (rmvqLink q bp).prev
        first := (rmvqLink q bp).first
        last := (rmvqLink q bp).last } := by
  have hnext := h.next
  have hprev := h.prev
  refine ⟨h.remove ?_ ?_, ?_⟩
  · intro s hs
    simp [rmvqLink, hnext, hprev, update_of_ne hs]
  · intro s hs
    simp [rmvqLink, hnext, hprev, update_of_ne hs]
  · unfold rmvqLink
    cases q.prev bp <;> cases q.next bp <;> rfl

end Relinked

lemma Linked.seek (h : Linked q (pre ++ (l ++ bp :: post))) (pass : Msg → Bool)
    (hl : ∀ p ∈ l, pass (q.msg p) = true) (hbp : pass (q.msg bp) = false) (fuel : Nat) (hfuel : l.length < fuel) :
    q.seek pass fuel (l ++ bp :: post).head? = some bp := by
  induction l generalizing pre fuel with
  | nil =>
    obtain ⟨fuel, rfl⟩ := Nat.exists_eq_add_of_lt hfuel
    simp [Queue.seek, hbp]
  | cons p l ih =>
    obtain ⟨hp, hl⟩ := forall_mem_cons.mp hl
    cases fuel with
    | zero => exact absurd hfuel (Nat.not_lt_zero _)
    | succ fuel =>
      have hnext : q.next p = (l ++ bp :: post).head? := h.next
      rw [cons_append, head?_cons, Queue.seek, if_pos hp, hnext]
      rw [cons_append, append_cons] at h
      exact ih h hl fuel (Nat.lt_of_succ_lt_succ hfuel)

end Messages

end Solaris.Stream
