import Mathlib
import Solaris.Msg.Sections

/-!
# Sending and receiving

A section of `msgsnd` takes a header and text space, and either puts the message on its queue or gives both back. A
section of `msgrcv` takes the message that is asked for off its queue, or leaves the queues alone.
-/

namespace Solaris.Msg

section Delivery

open Lib Function Nat List

variable {p : Params} {s : Msgs} {place : Nat → Place} {seg : Nat → SegPlace} {free : List Nat}
  {lists : Nat → List Nat} {q x : Nat}

section Send

variable {a : SendArgs} {env : Env}

/-- A running `msgsnd` has the header `x`, and nothing else is held. -/
structure Holding (p : Params) (s : Msgs) (place : Nat → Place) (seg : Nat → SegPlace) (free : List Nat)
    (lists : Nat → List Nat) (x : Nat) : Prop where
  conserved : Conserved p s (update place x .held) seg free lists
  placed : ∀ y, place y ≠ .held
  header : x < p.msgtql
  type_pos : ∀ q y, y ∈ lists q → 1 ≤ (s.msgh y).type
  bytes : ∀ q, CountsBytes s lists q

lemma Holding.not_queued (h : Holding p s place seg free lists x) (q : Nat) : x ∉ lists q :=
  (h.conserved.placed.held_not_mem (update_self ..)).2 q

lemma Settled.takeHeader (h : Settled p s place seg free lists) (hc : ∀ q, CountsBytes s lists q)
    (hfp : s.msgfp = some x) : ∃ free', Holding p (s.takeHeader x) place seg free' lists x := by
  obtain ⟨free', -, hlt, hcons⟩ := h.conserved.take hfp
  exact ⟨free', hcons, h.placed, hlt, h.type_pos, hc⟩

lemma Holding.putHeader (h : Holding p s place seg free lists x) (hseg : ∀ i, seg i ≠ .held) :
    Holds p (s.putHeader x) (x :: free) lists := by
  have hput := h.conserved.put (update_self ..) h.header
  have htext := sameText_putHeader s x
  refine ⟨_, seg, ⟨hput, ?_, hseg, ?_⟩, ?_⟩
  · intro y hy
    by_cases hyx : y = x
    · rw [hyx, update_self] at hy
      cases hy
    · rw [update_of_ne hyx, update_of_ne hyx] at hy
      exact h.placed y hy
  · intro q y hy
    rw [htext.type]
    exact h.type_pos q y hy
  · intro q
    refine Eq.trans (h.bytes q) ?_
    congr 2
    funext y
    exact (htext.ts y).symm

lemma Holding.takeSegs (h : Holding p s place seg free lists x) (hseg : ∀ i, seg i ≠ .held) {first n : Nat}
    (hfree : ∀ i, first ≤ i → i < first + n → s.segFree i = true) :
    ∃ seg', Holding p (s.setSegs first n false) place seg' free lists x ∧ HoldsRange p seg' first n := by
  obtain ⟨seg', hcons, hrange, -⟩ := h.conserved.takeSegs hfree hseg
  exact ⟨seg', ⟨hcons, h.placed, h.header, h.type_pos, h.bytes⟩, hrange⟩

lemma Holding.giveSegs (h : Holding p s place seg free lists x) {first n : Nat} (hr : HoldsRange p seg first n) :
    ∃ seg', Holding p (s.setSegs first n true) place seg' free lists x ∧ ∀ i, seg' i ≠ .held :=
  ⟨_, ⟨h.conserved.giveSegs hr, h.placed, h.header, h.type_pos, h.bytes⟩, relocate_ne (by simp)⟩

lemma countsBytes_enqueue {spot : Int} (hc : CountsBytes s lists q) (hx : x ∉ lists q)
    (hlast : (s.msgque q).last ≠ some x) :
    CountsBytes (enqueue s q x a spot) (update lists q (lists q ++ [x])) q := by
  have hmod : a.cnt % 65536 = a.cnt := mod_eq_of_lt (lt_succ_of_le a.small)
  have hmap : (lists q).map (fun y => ((enqueue s q x a spot).msgh y).ts) = (lists q).map fun y => (s.msgh y).ts := by
    refine map_congr_left ?_
    intro y hy
    have hyx : y ≠ x := by
      rintro rfl
      exact hx hy
    rw [enqueue_other hyx]
  unfold CountsBytes at hc ⊢
  rw [update_self, enqueue_queue, map_append, sum_append_nat, hmap, ← hc]
  simp [enqueue_self hlast, hmod]

lemma countsBytes_enqueue_ne {q' : Nat} {spot : Int} (hc : CountsBytes s lists q') (hx : x ∉ lists q') (hq : q' ≠ q) :
    CountsBytes (enqueue s q x a spot) (update lists q (lists q ++ [x])) q' := by
  unfold CountsBytes at hc ⊢
  rw [update_of_ne hq, enqueue_queue_ne s hq, hc]
  congr 1
  refine map_congr_left ?_
  intro y hy
  have hyx : y ≠ x := by
    rintro rfl
    exact hx hy
  rw [enqueue_other hyx]

lemma Holding.enqueue {spot : Int} (h : Holding p s place seg free lists x) (halloc : (s.msgque q).alloc = true)
    (hheld : ∀ i, (i < p.msgseg ∧ seg i = .held) ↔ textRange p a.cnt spot i) :
    Holds p (Msg.enqueue s q x a spot) free (update lists q (lists q ++ [x])) := by
  have hself : update place x Place.held x = .held := update_self ..
  have hcons := h.conserved.enqueue hself h.header halloc hheld
  have hlast : (s.msgque q).last ≠ some x := by
    rw [h.conserved.linked.last]
    exact fun heq => h.not_queued q (mem_of_getLast? heq)
  refine ⟨_, _, ⟨hcons, ?_, relocate_ne (by simp), ?_⟩, ?_⟩
  · intro y hy
    by_cases hyx : y = x
    · rw [hyx, update_self] at hy
      cases hy
    · rw [update_of_ne hyx, update_of_ne hyx] at hy
      exact h.placed y hy
  · intro q' y hy
    by_cases hyx : y = x
    · rw [hyx, enqueue_self hlast]
      exact a.type_pos
    rw [enqueue_other hyx]
    refine h.type_pos q' y ?_
    by_cases hq : q' = q
    · subst hq
      simpa [hyx] using hy
    · rwa [update_of_ne hq] at hy
  · intro q'
    by_cases hq : q' = q
    · subst hq
      exact countsBytes_enqueue (h.bytes q') (h.not_queued q') hlast
    · exact countsBytes_enqueue_ne (h.bytes q') (h.not_queued q') hq

/-- One message more on its queue when `msgsnd` succeeds, and no change else. -/
inductive Sent (slot : Option Nat) (lists : Nat → List Nat) : Outcome → (Nat → List Nat) → Prop where
  | sent {q : Nat} (hq : slot = some q) (x : Nat) :
    Sent slot lists (.returned (.ok 0)) (update lists q (lists q ++ [x]))
  | failed (e : Errno) : Sent slot lists (.returned (.error e)) lists
  | waits (t : Thread) : Sent slot lists (.sleeps t) lists

lemma btoq_pos {n : Nat} (hn : n ≠ 0) : 0 < btoq p n := by
  have := p.ssz_pos
  exact div_pos (by omega) this

theorem spot_toNat {n : Nat} (hn : n < 32768) : (BitVec.ofNat 16 n).toInt.toNat = n := by
  rw [BitVec.toInt_eq_toNat_of_lt]
  · simp
    omega
  · simp
    omega

lemma Holding.sendText (h : Holding p s place seg free lists x) (hseg : ∀ i, seg i ≠ .held)
    (halloc : (s.msgque q).alloc = true) :
    ∃ free' lists', Holds p (Msg.sendText p s q x a env).2 free' lists' ∧
      Sent (some q) lists (Msg.sendText p s q x a env).1 lists' := by
  unfold Msg.sendText
  split
  · rename_i hzero
    refine ⟨free, _, h.enqueue halloc ?_, .sent rfl x⟩
    intro i
    simp [hseg i, textRange, hzero]
  rename_i hcnt
  split
  · split
    · exact ⟨x :: free, lists, h.putHeader hseg, .failed _⟩
    · exact ⟨x :: free, lists, h.putHeader hseg, .waits _⟩
  rename_i spot hspot
  obtain ⟨hpos, hfree⟩ := env.rm.lawful s.segFree (btoq p a.cnt) spot hspot
  obtain ⟨seg', h', hrange⟩ := h.takeSegs hseg hfree
  have hlt : spot - 1 < 32768 := by
    have hb := btoq_pos (p := p) hcnt
    have := (h.conserved.segs.free (spot - 1)).mp (hfree (spot - 1) le_rfl (by omega))
    have := p.seg_lt
    omega
  split
  · refine ⟨free, _, h'.enqueue halloc ?_, .sent rfl x⟩
    intro i
    rw [hrange i, textRange, spot_toNat hlt]
    simp [hcnt]
  · obtain ⟨seg'', h'', hnone⟩ := h'.giveSegs hrange
    exact ⟨x :: free, lists, h''.putHeader hnone, .failed _⟩

lemma Holds.getres (h : Holds p s free lists) (halloc : (s.msgque q).alloc = true) :
    ∃ free' lists', Holds p (Msg.getres p s q a env).2 free' lists' ∧ Sent (some q) lists (Msg.getres p s q a env).1 lists' := by
  unfold Msg.getres
  dsimp only
  split
  · split
    · exact ⟨free, lists, h, .failed _⟩
    · exact ⟨free, lists, h.setQueue rfl rfl rfl rfl rfl, .waits _⟩
  split
  · split
    · exact ⟨free, lists, h, .failed _⟩
    · exact ⟨free, lists, h, .waits _⟩
  · rename_i mp hfp
    obtain ⟨place, seg, hs, hc⟩ := h
    obtain ⟨free', h'⟩ := hs.takeHeader hc hfp
    exact h'.sendText hs.segs halloc

lemma msgconv_alloc {msqid : Int} (h : msgconv p s msqid = some q) : (s.msgque q).alloc = true := by
  unfold msgconv at h
  split at h
  · cases h
  dsimp only at h
  split at h
  · rename_i hq
    cases h
    exact hq.1
  · cases h

lemma Holds.msgsnd (h : Holds p s free lists) (msqid msgsz : Int) (type : Option Int) (nowait : Bool) (env : Env) :
    ∃ free' lists', Holds p (Msg.msgsnd p s msqid msgsz type nowait env).2 free' lists' ∧
      Sent (msgconv p s msqid) lists (Msg.msgsnd p s msqid msgsz type nowait env).1 lists' := by
  unfold Msg.msgsnd
  split
  · exact ⟨free, lists, h, .failed _⟩
  rename_i q hq
  split
  · exact ⟨free, lists, h, .failed _⟩
  split
  · exact ⟨free, lists, h, .failed _⟩
  split
  · exact ⟨free, lists, h, .failed _⟩
  · split
    · exact ⟨free, lists, h, .failed _⟩
    · rw [hq]
      exact h.getres (msgconv_alloc hq)

lemma Holds.resumeSend (h : Holds p s free lists) (w : Wait) (a : SendArgs) (interrupted : Bool) (env : Env) :
    ∃ free' lists', Holds p (Msg.resumeSend p s w a interrupted env).2 free' lists' ∧
      Sent (msgconv p s a.msqid) lists (Msg.resumeSend p s w a interrupted env).1 lists' := by
  unfold Msg.resumeSend
  split
  · exact ⟨free, lists, h, .failed _⟩
  rename_i q hq
  split
  · refine ⟨free, lists, ?_, .failed _⟩
    split
    · exact h.setQueue rfl rfl rfl rfl rfl
    · exact h
  · rw [hq]
    exact h.getres (msgconv_alloc hq)

end Send

section Receive

/-- The message that is asked for leaves its queue when `msgrcv` succeeds, and no change else. -/
inductive Received (h : Nat → Header) (msgtyp : Int) (slot : Option Nat) (free : List Nat) (lists : Nat → List Nat) :
    Outcome → List Nat → (Nat → List Nat) → Prop where
  | received (sz : Nat) {q x : Nat} {pre post : List Nat} (hq : slot = some q) (hl : lists q = pre ++ x :: post)
    (hsel : Selected h msgtyp pre x post) :
    Received h msgtyp slot free lists (.returned (.ok sz)) (x :: free) (update lists q (pre ++ post))
  | failed (e : Errno) : Received h msgtyp slot free lists (.returned (.error e)) free lists
  | waits (t : Thread) : Received h msgtyp slot free lists (.sleeps t) free lists

lemma Holds.receive (h : Holds p s free lists) (q : Nat) (a : RecvArgs) (env : Env) :
    ∃ free' lists', Holds p (Msg.receive p s q a env).2 free' lists' ∧
      Received s.msgh a.msgtyp (some q) free lists (Msg.receive p s q a env).1 free' lists' := by
  unfold Msg.receive
  split
  · rename_i x spmp hfind
    dsimp only
    split
    · exact ⟨free, lists, h, .failed _⟩
    split
    · exact ⟨free, lists, h, .failed _⟩
    obtain ⟨place, seg, hs, hc⟩ := h
    obtain ⟨pre, post, hl, rfl, hsel⟩ := findmsg_some (hs.conserved.linked.chain q)
      (le_succ_of_le (hs.length_le q)) (fun y hy => hs.type_pos q y hy) hfind
    have hset : Settled p (s.setQueue q { s.msgque q with cbytes := (s.msgque q).cbytes - (s.msgh x).ts }) place seg free
        lists := hs.setQueue rfl rfl rfl (hs.conserved.linked.unused q)
    obtain ⟨place', seg', hfree⟩ := hset.msgfree hl
    refine ⟨x :: free, _, ⟨place', seg', hfree, ?_⟩, .received _ rfl hl hsel⟩
    intro q'
    by_cases hq : q' = q
    · subst hq
      have hbytes := hc q'
      unfold CountsBytes at hbytes ⊢
      rw [msgfree_msgque, unlink_queue, update_self]
      have hsum := msgfree_bytes (p := p)
        (s := s.setQueue q' { s.msgque q' with cbytes := (s.msgque q').cbytes - (s.msgh x).ts }) hl
      simp only [Msgs.setQueue, update_self]
      simp only [Msgs.setQueue] at hsum
      omega
    · refine CountsBytes.msgfree_ne ?_ hq _ _
      refine Eq.trans ?_ (hc q')
      simp [Msgs.setQueue, hq]
  · split
    · exact ⟨free, lists, h, .failed _⟩
    · exact ⟨free, lists, h.setQueue rfl rfl rfl rfl rfl, .waits _⟩

lemma Holds.msgrcv (h : Holds p s free lists) (msqid msgsz msgtyp : Int) (noerror nowait : Bool) (env : Env) :
    ∃ free' lists', Holds p (Msg.msgrcv p s msqid msgsz msgtyp noerror nowait env).2 free' lists' ∧
      Received s.msgh msgtyp (msgconv p s msqid) free lists (Msg.msgrcv p s msqid msgsz msgtyp noerror nowait env).1 free'
        lists' := by
  unfold Msg.msgrcv
  split
  · exact ⟨free, lists, h, .failed _⟩
  rename_i q hq
  split
  · exact ⟨free, lists, h, .failed _⟩
  · split
    · exact ⟨free, lists, h, .failed _⟩
    · rw [hq]
      exact h.receive q ⟨msqid, msgsz.toNat, msgtyp, noerror, nowait⟩ env

lemma Holds.resumeReceive (h : Holds p s free lists) (a : RecvArgs) (interrupted : Bool) (env : Env) :
    ∃ free' lists', Holds p (Msg.resumeReceive p s a interrupted env).2 free' lists' ∧
      Received s.msgh a.msgtyp (msgconv p s a.msqid) free lists (Msg.resumeReceive p s a interrupted env).1 free' lists' := by
  unfold Msg.resumeReceive
  split
  · exact ⟨free, lists, h, .failed _⟩
  · split
    · exact ⟨free, lists, h, .failed _⟩
    · rename_i q hq
      rw [hq]
      exact h.receive q a env

end Receive

end Delivery

/-!
## Runs of the message system

Threads call, wait and go on in any order. What holds between two sections holds in every state that is reached.
-/

section Reached

open Lib List Nat

section Initial

lemma chain_range {slots : Option Nat → Option Nat} {n : Nat} (hnone : slots none = if 0 < n then some 0 else none)
    (hsome : ∀ i, slots (some i) = if i + 1 < n then some (i + 1) else none) : Chain slots id (List.range n) := by
  intro pre post hl
  have hhead : post.head? = (List.range n)[pre.length]? := by
    rw [hl, getElem?_append_right le_rfl, Nat.sub_self, head?_eq_getElem?]
  rw [id, hhead]
  rcases eq_nil_or_concat' pre with rfl | ⟨init, i, rfl⟩
  · rw [getLast?_nil, hnone, length_nil]
    by_cases hn : 0 < n
    · simp [hn]
    · simp [hn]
  have hi : (List.range n)[init.length]? = some i := by
    rw [hl]
    simp
  obtain ⟨hlt, heq⟩ := List.getElem?_eq_some_iff.mp hi
  rw [getLast?_concat, hsome, length_append, length_singleton, ← heq]
  by_cases hn : init.length + 1 < n
  · simp [hn]
  · simp [hn]

lemma holds_initial (p : Params) : Holds p (initial p).msgs (List.range p.msgtql) fun _ => [] := by
  refine ⟨fun _ => .free, fun _ => .free, ⟨⟨⟨chain_range rfl fun _ => rfl, fun _ => chain_nil rfl, fun _ => rfl,
    nodup_range, fun _ => nodup_nil, fun _ => rfl, fun _ _ => rfl⟩, ⟨?_, ?_⟩, ?_, ?_, ?_⟩, ?_, ?_, ?_⟩, ?_⟩
  · intro x
    simp
  · intro q x
    simp
  · intro i
    simp [initial]
  · intro q x i hx
    cases hx
  · intro i x _ hseg
    cases hseg
  · intro x hx
    cases hx
  · intro i hi
    cases hi
  · intro q x hx
    cases hx
  · intro q
    rfl

end Initial

section Runs

variable {p : Params} {sys : System}

inductive Reachable (p : Params) : System → Prop where
  | initial : Reachable p (initial p)
  | step {sys : System} (h : Reachable p sys) (e : Event) : Reachable p (sys.step p e)

lemma Holds.resume {s : Msgs} {free : List Nat} {lists : Nat → List Nat} (h : Holds p s free lists) (t : Thread)
    (interrupted : Bool) (env : Env) : ∃ free' lists', Holds p (t.resume p s interrupted env).2 free' lists' := by
  cases t with
  | send w a =>
    obtain ⟨free', lists', h', -⟩ := h.resumeSend w a interrupted env
    exact ⟨free', lists', h'⟩
  | receive a =>
    obtain ⟨free', lists', h', -⟩ := h.resumeReceive a interrupted env
    exact ⟨free', lists', h'⟩

lemma holds_step {free : List Nat} {lists : Nat → List Nat} (h : Holds p sys.msgs free lists) (e : Event) :
    ∃ free' lists', Holds p (sys.step p e).msgs free' lists' := by
  cases e with
  | msgget key flag => exact ⟨free, lists, h.msgget key flag⟩
  | rmid msqid permitted => exact h.msgctlRmid msqid permitted
  | set msqid permitted perms qbytes => exact ⟨free, lists, h.msgctlSet msqid permitted perms qbytes⟩
  | msgsnd tid msqid msgsz type nowait env =>
    simp only [System.step]
    split
    · obtain ⟨free', lists', h', -⟩ := h.msgsnd msqid msgsz type nowait env
      exact ⟨free', lists', h'⟩
    · exact ⟨free, lists, h⟩
  | msgrcv tid msqid msgsz msgtyp noerror nowait env =>
    simp only [System.step]
    split
    · obtain ⟨free', lists', h', -⟩ := h.msgrcv msqid msgsz msgtyp noerror nowait env
      exact ⟨free', lists', h'⟩
    · exact ⟨free, lists, h⟩
  | resume tid interrupted env =>
    simp only [System.step]
    split
    · exact ⟨free, lists, h⟩
    · exact h.resume _ interrupted env

lemma Reachable.holds (h : Reachable p sys) : ∃ free lists, Holds p sys.msgs free lists := by
  induction h with
  | initial => exact ⟨_, _, holds_initial p⟩
  | step h e ih =>
    obtain ⟨free, lists, hold⟩ := ih
    exact holds_step hold e

lemma Reachable.run (h : Reachable p sys) (es : List Event) : Reachable p (es.foldl (System.step p) sys) := by
  induction es generalizing sys with
  | nil => exact h
  | cons e es ih => exact ih (h.step e)

/-- Every header and every segment is in its one place, none of them is held, and the counts are right. -/
structure Accounted (p : Params) (s : Msgs) (place : Nat → Place) (seg : Nat → SegPlace) (free : List Nat)
    (lists : Nat → List Nat) : Prop where
  conserved : Conserved p s place seg free lists
  placed : ∀ x, place x ≠ .held
  segs : ∀ i, seg i ≠ .held
  bytes : ∀ q, CountsBytes s lists q

lemma Holds.accounted {s : Msgs} {free : List Nat} {lists : Nat → List Nat} (h : Holds p s free lists) :
    ∃ place seg, Accounted p s place seg free lists := by
  obtain ⟨place, seg, hs, hc⟩ := h
  exact ⟨place, seg, hs.conserved, hs.placed, hs.segs, hc⟩

/-- A `msgrcv` that is called, or goes on after a wait, and what it does. -/
inductive Receives (p : Params) (sys : System) : Int → Int → Outcome × Msgs → Prop where
  | call (msqid msgsz msgtyp : Int) (noerror nowait : Bool) (env : Env) :
    Receives p sys msqid msgtyp (msgrcv p sys.msgs msqid msgsz msgtyp noerror nowait env)
  | resume {tid : Nat} {a : RecvArgs} (h : sys.threads tid = some (.receive a)) (interrupted : Bool) (env : Env) :
    Receives p sys a.msqid a.msgtyp (resumeReceive p sys.msgs a interrupted env)

/-- In every state that is reached, messages are conserved, and `msgrcv` takes the one that is asked for. -/
theorem messages_conserved (h : Reachable p sys) :
    ∃ place seg free lists, Accounted p sys.msgs place seg free lists ∧
      ∀ msqid msgtyp r, Receives p sys msqid msgtyp r → ∃ free' lists',
        (∃ place' seg', Accounted p r.2 place' seg' free' lists') ∧
          Received sys.msgs.msgh msgtyp (msgconv p sys.msgs msqid) free lists r.1 free' lists' := by
  obtain ⟨free, lists, hold⟩ := h.holds
  obtain ⟨place, seg, hacc⟩ := hold.accounted
  refine ⟨place, seg, free, lists, hacc, ?_⟩
  intro msqid msgtyp r hr
  cases hr with
  | call _ msgsz _ noerror nowait env =>
    obtain ⟨free', lists', h', hrec⟩ := hold.msgrcv msqid msgsz msgtyp noerror nowait env
    exact ⟨free', lists', h'.accounted, hrec⟩
  | resume _ interrupted env =>
    obtain ⟨free', lists', h', hrec⟩ := hold.resumeReceive _ interrupted env
    exact ⟨free', lists', h'.accounted, hrec⟩

section Concrete

def sampleParams : Params where
  msgmni := 2
  msgtql := 4
  msgseg := 8
  msgssz := 8
  msgmax := 64
  msgmnb := 64
  mni_pos := Nat.two_pos
  ssz_pos := by decide
  max_le := by decide
  seg_lt := by decide

def firstFit : Allocator where
  alloc free n := ((List.range 8).find? fun k => (List.range n).all fun j => free (k + j)).map (· + 1)
  lawful := by
    intro free n spot h
    obtain ⟨k, hk, rfl⟩ := Option.map_eq_some_iff.mp h
    refine ⟨Nat.succ_pos k, ?_⟩
    intro i hle hlt
    have hall := find?_some hk
    have := all_eq_true.mp hall (i - k) (mem_range.mpr (by omega))
    rwa [show k + (i - k) = i by omega] at this

def sampleEnv : Env := ⟨true, true, true, true, firstFit⟩

def sampleEvents : List Event :=
  [.msgget 0 ⟨true, false, 0⟩, .msgsnd 1 0 20 (some 5) false sampleEnv, .msgsnd 1 0 9 (some 3) false sampleEnv,
    .msgsnd 2 0 0 (some 3) false sampleEnv]

def sample : System := sampleEvents.foldl (System.step sampleParams) (initial sampleParams)

lemma sample_reachable : Reachable sampleParams sample := Reachable.initial.run sampleEvents

def sampleReceive : Outcome × Msgs := msgrcv sampleParams sample.msgs 0 100 (-4) false false sampleEnv

theorem messages_conserved_sample :
    sampleReceive.1 = .returned (.ok 9) ∧ ∃ place seg free lists, Accounted sampleParams sample.msgs place seg free lists ∧
      ∃ free' lists', (∃ place' seg', Accounted sampleParams sampleReceive.2 place' seg' free' lists') ∧
        Received sample.msgs.msgh (-4) (msgconv sampleParams sample.msgs 0) free lists sampleReceive.1 free' lists' := by
  obtain ⟨place, seg, free, lists, hacc, hrec⟩ := messages_conserved sample_reachable
  refine ⟨rfl, place, seg, free, lists, hacc, ?_⟩
  exact hrec 0 (-4) sampleReceive (.call 0 100 (-4) false false sampleEnv)

end Concrete

end Runs

end Reached

end Solaris.Msg
