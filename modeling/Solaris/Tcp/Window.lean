import Solaris.Tcp.Receive
import Mathlib.Tactic.Ring

/-!
# The advertised window

The receive window shrinks while data waits, before the accept or with the queue above blocked, and opens
again when the read side is served or a larger one is set. Every change goes to `th_win` of the header
template, which has 16 bits and is scaled by `tcp_rcv_ws`.
-/

namespace Solaris.Tcp

open Nat

section Model

/-- The window of a connection; `synSent` says that `tcp_state >= TCPS_SYN_SENT`. -/
structure Window where
  conn : Conn
  rwndMax : BitVec 32
  mss : BitVec 32
  rcvWs : Nat
  thWin : BitVec 16
  synSent : Bool

namespace Window

variable (w : Window)

/-- `U32_TO_ABE16(tcp->tcp_rwnd >> tcp->tcp_rcv_ws, ...)` -/
def storeScaled : Window := { w with thWin := (w.conn.rwnd >>> w.rcvWs).setWidth 16 }

/-- `U32_TO_ABE16(tcp->tcp_rwnd, ...)` -/
def storeUnscaled : Window := { w with thWin := w.conn.rwnd.setWidth 16 }

/-- The delivery of `tcp_rput_data`. -/
def arrive (pushWait : Nat) (psh canput : Bool) (mp : List Bytes) (segLen : Nat) : Window :=
  let w' := { w with conn := deliver w.conn pushWait psh canput mp segLen }
  if w.conn.listener then w'.storeScaled
  else if canput then w'
  else w'.storeUnscaled

/-- The part of `tcp_rsrv` behind the queued messages; nothing is done for the default queue, which a
connection is on until it is accepted. -/
def tcpRsrv (canput : Bool) : Window :=
  if w.conn.listener then w
  else if canput then storeScaled { w with conn := { w.conn with rwnd := w.rwndMax } }
  else w

/-- "Insist on a receive window that is a multiple of mss." -/
def roundUp (rwnd : BitVec 32) : BitVec 32 := ((rwnd - 1) / w.mss + 1) * w.mss

/-- "Monotonically increasing tcp_rwnd ensures no reneg" -/
def wanted (rwnd : BitVec 32) : BitVec 32 :=
  if w.roundUp rwnd < w.rwndMax then w.roundUp w.rwndMax else w.roundUp rwnd

def maxTransmittable : BitVec 32 := 65535#32 <<< w.rcvWs

def clamp : BitVec 32 :=
  if w.maxTransmittable - w.maxTransmittable % w.mss < w.mss then w.maxTransmittable
  else w.maxTransmittable - w.maxTransmittable % w.mss

/-- The window that is asked for is too large to be transmitted. -/
def Clamped (rwnd : BitVec 32) : Prop := w.synSent = true ∧ w.maxTransmittable < w.wanted rwnd

instance (rwnd : BitVec 32) : Decidable (w.Clamped rwnd) := inferInstanceAs (Decidable (_ ∧ _))

def tcpRwndSet (rwnd : BitVec 32) : Window :=
  if w.Clamped rwnd then storeScaled { w with conn := { w.conn with rwnd := w.clamp }, rwndMax := w.clamp }
  else
    storeScaled
      { w with
        conn := { w.conn with rwnd := w.conn.rwnd + (w.wanted rwnd - w.rwndMax) }
        rwndMax := w.wanted rwnd }

/-- The connection is accepted: the parameters of the new stream are set, and the data that waited is passed up. -/
def accept (hiwat : BitVec 32) : Window :=
  let w' := tcpRwndSet { w with conn := { w.conn with listener := false } } hiwat
  { w' with conn := push w'.conn }

def edge : Seq := w.conn.rnxt + w.conn.rwnd

end Window

end Model

section Events

inductive Event where
  | arrive (pushWait : Nat) (psh canput : Bool) (mp : List Bytes) (segLen : Nat)
  | accept (hiwat : BitVec 32)
  | service (canput : Bool)
  | rwndSet (rwnd : BitVec 32)

namespace Event

variable (w : Window)

def apply : Event → Window
  | .arrive pushWait psh canput mp segLen => w.arrive pushWait psh canput mp segLen
  | .accept hiwat => w.accept hiwat
  | .service canput => w.tcpRsrv canput
  | .rwndSet rwnd => w.tcpRwndSet rwnd

def InWindow : Event → Prop
  | .arrive _ _ _ _ segLen => segLen ≤ w.conn.rwnd.toNat
  | _ => True

/-- Data that finds the queue above blocked comes to a connection without a scale. -/
def Scaled : Event → Prop
  | .arrive _ _ canput _ _ => w.conn.listener = false → canput = false → w.rcvWs = 0
  | _ => True

/-- The window is cut to the largest that can be transmitted. -/
def Cuts : Event → Prop
  | .accept hiwat => w.Clamped hiwat
  | .rwndSet rwnd => w.Clamped rwnd
  | _ => False

end Event

/-- The windows that a connection comes to by events that all satisfy a condition. -/
inductive Windows (P : Window → Event → Prop) (start : Window) : Window → Prop
  | start : Windows P start start
  | event {w : Window} (e : Event) : Windows P start w → e.InWindow w → P w e → Windows P start (e.apply w)

end Events

section Bounds

/-- A connection past `SYN_SENT` whose window can be transmitted. -/
structure Open (w : Window) : Prop where
  scale : w.rcvWs ≤ 14
  mss_pos : 0 < w.mss.toNat
  mss_lt : w.mss.toNat < 2 ^ 31
  sent : w.synSent = true
  le_max : w.conn.rwnd.toNat ≤ w.rwndMax.toNat
  max_le : w.rwndMax.toNat ≤ 65535 * 2 ^ w.rcvWs

/-- `th_win` promises no more than there is. -/
def Honest (w : Window) : Prop := w.thWin.toNat * 2 ^ w.rcvWs ≤ w.conn.rwnd.toNat

variable {w : Window}

lemma scale_le {n : Nat} (h : n ≤ 14) : 65535 * 2 ^ n ≤ 65535 * 2 ^ 14 :=
  Nat.mul_le_mul_left _ (Nat.pow_le_pow_right (by decide) h)

lemma Open.rwnd_le (h : Open w) : w.conn.rwnd.toNat ≤ 65535 * 2 ^ w.rcvWs := h.le_max.trans h.max_le

lemma Open.max_small (h : Open w) : w.rwndMax.toNat < 2 ^ 30 := by
  have := scale_le h.scale
  have := h.max_le
  omega

lemma Open.rwnd_small (h : Open w) : w.conn.rwnd.toNat < 2 ^ 30 := Nat.lt_of_le_of_lt h.le_max h.max_small

lemma toNat_maxTransmittable (h : w.rcvWs ≤ 14) : w.maxTransmittable.toNat = 65535 * 2 ^ w.rcvWs := by
  have := scale_le h
  have hnum : (65535#32).toNat = 65535 := rfl
  rw [Window.maxTransmittable, BitVec.toNat_shiftLeft, shiftLeft_eq, hnum]
  exact mod_eq_of_lt (by omega)

lemma storeScaled_honest (h : w.conn.rwnd.toNat ≤ 65535 * 2 ^ w.rcvWs) : Honest w.storeScaled := by
  have hdiv : w.conn.rwnd.toNat / 2 ^ w.rcvWs ≤ 65535 :=
    Nat.div_le_of_le_mul (by rw [Nat.mul_comm]; exact h)
  have hwin : w.storeScaled.thWin.toNat = w.conn.rwnd.toNat / 2 ^ w.rcvWs := by
    rw [Window.storeScaled, BitVec.toNat_setWidth, BitVec.toNat_ushiftRight, Nat.shiftRight_eq_div_pow]
    exact Nat.mod_eq_of_lt (by omega)
  rw [Honest, hwin]
  exact Nat.div_mul_le_self _ _

lemma le_roundUp {x : BitVec 32} (hpos : 0 < w.mss.toNat) (hx : 0 < x.toNat) (hlt : x.toNat + w.mss.toNat < 2 ^ 32) :
    x.toNat ≤ (w.roundUp x).toNat := by
  have hpred : (x - 1).toNat = x.toNat - 1 := BitVec.toNat_sub_of_le (BitVec.le_def.mpr hx)
  have hdm := div_add_mod (x.toNat - 1) w.mss.toNat
  have hmod := mod_lt (x.toNat - 1) hpos
  have hle : ((x.toNat - 1) / w.mss.toNat + 1) * w.mss.toNat ≤ x.toNat - 1 + w.mss.toNat := by
    rw [add_mul, one_mul, mul_comm]
    omega
  have hge : x.toNat ≤ ((x.toNat - 1) / w.mss.toNat + 1) * w.mss.toNat := by
    rw [add_mul, one_mul, mul_comm]
    omega
  have hquot : (x.toNat - 1) / w.mss.toNat ≤ x.toNat - 1 := div_le_self _ _
  have hsucc : ((x - 1) / w.mss + 1).toNat = (x.toNat - 1) / w.mss.toNat + 1 := by
    rw [BitVec.toNat_add, BitVec.toNat_udiv, hpred]
    exact mod_eq_of_lt (by simp; omega)
  rw [Window.roundUp, BitVec.toNat_mul, hsucc, mod_eq_of_lt (by omega)]
  exact hge

lemma max_le_wanted (hpos : 0 < w.mss.toNat) (hlt : w.rwndMax.toNat + w.mss.toNat < 2 ^ 32) (rwnd : BitVec 32) :
    w.rwndMax.toNat ≤ (w.wanted rwnd).toNat := by
  unfold Window.wanted
  split
  · rename_i hless
    have hmax : 0 < w.rwndMax.toNat := lt_of_le_of_lt (zero_le _) (BitVec.lt_def.mp hless)
    exact le_roundUp hpos hmax hlt
  · rename_i hless
    exact not_lt.mp hless

lemma clamp_le (h : w.rcvWs ≤ 14) : w.clamp.toNat ≤ 65535 * 2 ^ w.rcvWs := by
  have hmax := toNat_maxTransmittable h
  unfold Window.clamp
  split
  · exact le_of_eq hmax
  · have hle : w.maxTransmittable % w.mss ≤ w.maxTransmittable := by
      exact mod_le _ _
    rw [BitVec.toNat_sub_of_le hle, hmax]
    exact sub_le _ _

end Bounds

section Steps

variable {w : Window}

lemma deliver_window (t : Conn) (pushWait : Nat) (psh canput : Bool) (mp : List Bytes) (segLen : Nat) :
    (deliver t pushWait psh canput mp segLen).rnxt = t.rnxt + BitVec.ofNat 32 segLen ∧
      (deliver t pushWait psh canput mp segLen).rwnd =
        if t.listener = true ∨ canput = false then t.rwnd - BitVec.ofNat 32 segLen else t.rwnd := by
  unfold deliver
  cases hl : t.listener with
  | true => simp
  | false =>
    by_cases hpush : psh = true ∨ t.rcvCnt + segLen ≥ pushWait
    · cases canput with
      | true => simp [hpush]
      | false => simp [hpush]
    · cases canput with
      | true => simp [hpush]
      | false => simp [hpush]

/-- What every event keeps, and what it does to the right edge of the window. -/
structure Kept (w w' : Window) (grown : Nat) : Prop where
  opened : Open w'
  scale : w'.rcvWs = w.rcvWs
  edge : w'.edge = w.edge + BitVec.ofNat 32 grown
  small : grown < 2 ^ 30

lemma toNat_sub_ofNat {x : BitVec 32} {n : Nat} (h : n ≤ x.toNat) : (x - BitVec.ofNat 32 n).toNat = x.toNat - n := by
  have hn : (BitVec.ofNat 32 n).toNat = n := BitVec.toNat_ofNat n 32 ▸ mod_eq_of_lt (by omega)
  rw [BitVec.toNat_sub_of_le (by rw [BitVec.le_def, hn]; exact h), hn]

theorem edge_arrive (rnxt rwnd d : BitVec 32) : rnxt + d + (rwnd - d) = rnxt + rwnd := by
  rw [BitVec.add_assoc, BitVec.add_comm d, BitVec.sub_add_cancel]

lemma Open.arrive (h : Open w) (pushWait : Nat) (psh canput : Bool) (mp : List Bytes) {segLen : Nat}
    (hin : segLen ≤ w.conn.rwnd.toNat) :
    ∃ grown, Kept w (w.arrive pushWait psh canput mp segLen) grown := by
  obtain ⟨hrnxt, hrwnd⟩ := deliver_window w.conn pushWait psh canput mp segLen
  have hsame : (w.arrive pushWait psh canput mp segLen).conn = deliver w.conn pushWait psh canput mp segLen ∧
      (w.arrive pushWait psh canput mp segLen).rwndMax = w.rwndMax ∧
      (w.arrive pushWait psh canput mp segLen).mss = w.mss ∧
      (w.arrive pushWait psh canput mp segLen).rcvWs = w.rcvWs ∧
      (w.arrive pushWait psh canput mp segLen).synSent = w.synSent := by
    unfold Window.arrive
    split
    · exact ⟨rfl, rfl, rfl, rfl, rfl⟩
    · split <;> exact ⟨rfl, rfl, rfl, rfl, rfl⟩
  obtain ⟨hconn, hmax, hmss, hws, hsent⟩ := hsame
  have hsmall := h.rwnd_small
  have hle : (deliver w.conn pushWait psh canput mp segLen).rwnd.toNat ≤ w.conn.rwnd.toNat := by
    rw [hrwnd]
    split
    · rw [toNat_sub_ofNat hin]
      exact sub_le _ _
    · exact le_refl _
  have hopen : Open (w.arrive pushWait psh canput mp segLen) := by
    refine ⟨hws ▸ h.scale, hmss ▸ h.mss_pos, hmss ▸ h.mss_lt, hsent ▸ h.sent, ?_, ?_⟩
    · rw [hconn, hmax]
      exact hle.trans h.le_max
    · rw [hmax, hws]
      exact h.max_le
  by_cases hwait : w.conn.listener = true ∨ canput = false
  · refine ⟨0, hopen, hws, ?_, by decide⟩
    rw [Window.edge, hconn, hrnxt, hrwnd, if_pos hwait, edge_arrive]
    exact (BitVec.add_zero _).symm
  · refine ⟨segLen, hopen, hws, ?_, by omega⟩
    rw [Window.edge, hconn, hrnxt, hrwnd, if_neg hwait, Window.edge, BitVec.add_assoc, BitVec.add_assoc,
      BitVec.add_comm (BitVec.ofNat 32 segLen)]

lemma Open.tcpRsrv (h : Open w) (canput : Bool) : ∃ grown, Kept w (w.tcpRsrv canput) grown := by
  have hstay : Kept w w 0 := ⟨h, rfl, (BitVec.add_zero _).symm, by decide⟩
  unfold Window.tcpRsrv
  split
  · exact ⟨0, hstay⟩
  split
  · have hle : w.conn.rwnd ≤ w.rwndMax := BitVec.le_def.mpr h.le_max
    have hmax := h.max_small
    refine ⟨w.rwndMax.toNat - w.conn.rwnd.toNat, ⟨h.scale, h.mss_pos, h.mss_lt, h.sent, le_refl _, h.max_le⟩, rfl,
      ?_, by omega⟩
    rw [← BitVec.toNat_sub_of_le hle, BitVec.ofNat_toNat, BitVec.setWidth_eq]
    change w.conn.rnxt + w.rwndMax = w.conn.rnxt + w.conn.rwnd + (w.rwndMax - w.conn.rwnd)
    rw [BitVec.add_assoc, BitVec.add_comm w.conn.rwnd, BitVec.sub_add_cancel]
  · exact ⟨0, hstay⟩

/-- What `tcp_rwnd_set` needs of a connection whose peer is known. -/
structure Settable (w : Window) : Prop where
  scale : w.rcvWs ≤ 14
  mss_pos : 0 < w.mss.toNat
  mss_lt : w.mss.toNat < 2 ^ 31
  sent : w.synSent = true
  le_max : w.conn.rwnd.toNat ≤ w.rwndMax.toNat
  room : w.rwndMax.toNat + w.mss.toNat < 2 ^ 32

lemma Open.settable (h : Open w) : Settable w := by
  have hmax := h.max_small
  have hmss := h.mss_lt
  exact ⟨h.scale, h.mss_pos, h.mss_lt, h.sent, h.le_max, by omega⟩

lemma Settable.wanted_le (h : Settable w) {rwnd : BitVec 32} (hclamp : ¬w.Clamped rwnd) :
    (w.wanted rwnd).toNat ≤ 65535 * 2 ^ w.rcvWs := by
  rw [← toNat_maxTransmittable h.scale]
  exact not_lt.mp fun hlt => hclamp ⟨h.sent, BitVec.lt_def.mpr hlt⟩

lemma Settable.toNat_grown (h : Settable w) (rwnd : BitVec 32) :
    (w.conn.rwnd + (w.wanted rwnd - w.rwndMax)).toNat =
      w.conn.rwnd.toNat + ((w.wanted rwnd).toNat - w.rwndMax.toNat) := by
  have hge := max_le_wanted h.mss_pos h.room rwnd
  have hmax := h.le_max
  rw [BitVec.toNat_add, BitVec.toNat_sub_of_le (BitVec.le_def.mpr hge), mod_eq_of_lt (by omega)]

lemma Settable.tcpRwndSet (h : Settable w) (rwnd : BitVec 32) :
    Open (w.tcpRwndSet rwnd) ∧ (w.tcpRwndSet rwnd).rcvWs = w.rcvWs ∧ Honest (w.tcpRwndSet rwnd) := by
  unfold Window.tcpRwndSet
  split
  · have hle := clamp_le h.scale
    exact ⟨⟨h.scale, h.mss_pos, h.mss_lt, h.sent, le_refl _, hle⟩, rfl, storeScaled_honest hle⟩
  rename_i hclamp
  have hwanted := h.wanted_le hclamp
  have hge := max_le_wanted h.mss_pos h.room rwnd
  have hmax := h.le_max
  have hle : (w.conn.rwnd + (w.wanted rwnd - w.rwndMax)).toNat ≤ (w.wanted rwnd).toNat := by
    rw [h.toNat_grown rwnd]
    omega
  exact ⟨⟨h.scale, h.mss_pos, h.mss_lt, h.sent, hle, hwanted⟩, rfl, storeScaled_honest (hle.trans hwanted)⟩

lemma Open.tcpRwndSet (h : Open w) {rwnd : BitVec 32} (hclamp : ¬w.Clamped rwnd) :
    ∃ grown, Kept w (w.tcpRwndSet rwnd) grown := by
  have hset := h.settable
  obtain ⟨hopen, hscale, -⟩ := hset.tcpRwndSet rwnd
  have hwanted := hset.wanted_le hclamp
  have hge := max_le_wanted hset.mss_pos hset.room rwnd
  have hsmall := scale_le h.scale
  have hsub : (w.wanted rwnd - w.rwndMax).toNat = (w.wanted rwnd).toNat - w.rwndMax.toNat :=
    BitVec.toNat_sub_of_le (BitVec.le_def.mpr hge)
  refine ⟨(w.wanted rwnd - w.rwndMax).toNat, hopen, hscale, ?_, by omega⟩
  rw [BitVec.ofNat_toNat, BitVec.setWidth_eq, Window.tcpRwndSet, if_neg hclamp]
  change w.conn.rnxt + (w.conn.rwnd + (w.wanted rwnd - w.rwndMax)) =
    w.conn.rnxt + w.conn.rwnd + (w.wanted rwnd - w.rwndMax)
  rw [BitVec.add_assoc]

lemma Open.detach (h : Open w) : Open { w with conn := { w.conn with listener := false } } :=
  ⟨h.scale, h.mss_pos, h.mss_lt, h.sent, h.le_max, h.max_le⟩

lemma Open.event (h : Open w) (e : Event) (hin : e.InWindow w) :
    Open (e.apply w) ∧ (e.apply w).rcvWs = w.rcvWs ∧ (¬e.Cuts w → ∃ grown, Kept w (e.apply w) grown) := by
  cases e with
  | arrive pushWait psh canput mp segLen =>
    obtain ⟨grown, hkept⟩ := h.arrive pushWait psh canput mp hin
    exact ⟨hkept.opened, hkept.scale, fun _ => ⟨grown, hkept⟩⟩
  | service canput =>
    obtain ⟨grown, hkept⟩ := h.tcpRsrv canput
    exact ⟨hkept.opened, hkept.scale, fun _ => ⟨grown, hkept⟩⟩
  | rwndSet rwnd =>
    obtain ⟨hopen, hscale, -⟩ := h.settable.tcpRwndSet rwnd
    exact ⟨hopen, hscale, h.tcpRwndSet⟩
  | accept hiwat =>
    obtain ⟨hopen, hscale, -⟩ := h.detach.settable.tcpRwndSet hiwat
    have hopen' : Open (w.accept hiwat) :=
      ⟨hopen.scale, hopen.mss_pos, hopen.mss_lt, hopen.sent, hopen.le_max, hopen.max_le⟩
    refine ⟨hopen', hscale, ?_⟩
    intro hcut
    have hcut' : ¬Window.Clamped { w with conn := { w.conn with listener := false } } hiwat := hcut
    obtain ⟨grown, hkept⟩ := h.detach.tcpRwndSet hcut'
    exact ⟨grown, hopen', hscale, hkept.edge, hkept.small⟩

/-- The window that is advertised stays honest as long as no data finds the queue blocked on a connection with
a scale. -/
theorem Honest.event (hh : Honest w) (h : Open w) (e : Event) (hin : e.InWindow w) (hscaled : e.Scaled w) :
    Honest (e.apply w) := by
  cases e with
  | arrive pushWait psh canput mp segLen =>
    obtain ⟨grown, hkept⟩ := h.arrive pushWait psh canput mp hin
    obtain ⟨-, hrwnd⟩ := deliver_window w.conn pushWait psh canput mp segLen
    have hle := hkept.opened.rwnd_le
    change Honest (w.arrive pushWait psh canput mp segLen)
    unfold Window.arrive at hle ⊢
    cases hl : w.conn.listener with
    | true =>
      rw [hl, if_pos rfl] at hle
      exact storeScaled_honest hle
    | false =>
      rw [if_neg (by decide)]
      cases canput with
      | true =>
        have hsame : (deliver w.conn pushWait psh true mp segLen).rwnd = w.conn.rwnd := by
          rw [hrwnd, if_neg (by simp [hl])]
        rw [if_pos rfl]
        unfold Honest
        rw [hsame]
        exact hh
      | false =>
        -- without a scale the low half of the window is part of it
        have hzero : w.rcvWs = 0 := hscaled hl rfl
        rw [if_neg (by decide)]
        unfold Honest Window.storeUnscaled
        rw [hzero, pow_zero, mul_one, BitVec.toNat_setWidth]
        exact mod_le _ _
  | service canput =>
    change Honest (w.tcpRsrv canput)
    unfold Window.tcpRsrv
    split
    · exact hh
    · split
      · exact storeScaled_honest h.max_le
      · exact hh
  | rwndSet rwnd => exact (h.settable.tcpRwndSet rwnd).2.2
  | accept hiwat => exact (h.detach.settable.tcpRwndSet hiwat).2.2

end Steps

section Runs

variable {start w : Window}

lemma open_of_windows {P : Window → Event → Prop} (hopen : Open start) (h : Windows P start w) :
    Open w ∧ w.rcvWs = start.rcvWs := by
  induction h with
  | start => exact ⟨hopen, rfl⟩
  | event e _ hin _ ih =>
    obtain ⟨hopen', hscale, -⟩ := ih.1.event e hin
    exact ⟨hopen', hscale.trans ih.2⟩

lemma SEQ_GEQ_of_grown {a b : Seq} {n : Nat} (h : a = b + BitVec.ofNat 32 n) (hn : n < 2 ^ 30) : SEQ_GEQ a b = true := by
  have hsub : a - b = BitVec.ofNat 32 n := by
    rw [h, BitVec.add_comm, BitVec.add_sub_cancel]
  have hpos : (BitVec.ofNat 32 n).toInt = n := by
    rw [← BitVec.ofInt_natCast]
    exact Lib.toInt_ofInt_of_small (by omega) (by omega)
  rw [SEQ_GEQ, hsub, hpos]
  exact decide_eq_true (by omega)

/-- The window that is advertised is never larger than the window there is, which never exceeds what can be
transmitted and does not underflow, and its right edge only moves back when it is cut. -/
theorem window_advertised (hopen : Open start) (hhonest : Honest start)
    (h : Windows (fun w e => e.Scaled w) start w) :
    w.thWin.toNat * 2 ^ start.rcvWs ≤ w.conn.rwnd.toNat ∧ w.conn.rwnd.toNat ≤ 65535 * 2 ^ start.rcvWs ∧
      (∀ pushWait psh canput mp segLen, segLen ≤ w.conn.rwnd.toNat →
        (w.arrive pushWait psh canput mp segLen).conn.rwnd.toNat ≤ w.conn.rwnd.toNat) ∧
      ∀ e : Event, e.InWindow w → ¬e.Cuts w → SEQ_GEQ (e.apply w).edge w.edge = true := by
  obtain ⟨hw, hscale⟩ := open_of_windows hopen h
  have hh : Honest w := by
    induction h with
    | start => exact hhonest
    | event e hprev hin hscaled ih =>
      obtain ⟨hopen', hscale'⟩ := open_of_windows hopen hprev
      exact (ih hopen' hscale').event hopen' e hin hscaled
  refine ⟨hscale ▸ hh, hscale ▸ hw.rwnd_le, ?_, ?_⟩
  · intro pushWait psh canput mp segLen hin
    have hconn : (w.arrive pushWait psh canput mp segLen).conn = deliver w.conn pushWait psh canput mp segLen := by
      unfold Window.arrive
      split
      · rfl
      · split <;> rfl
    obtain ⟨-, hrwnd⟩ := deliver_window w.conn pushWait psh canput mp segLen
    rw [hconn, hrwnd]
    split
    · rw [toNat_sub_ofNat hin]
      exact sub_le _ _
    · exact le_refl _
  · intro e hin hcut
    obtain ⟨grown, hkept⟩ := (hw.event e hin).2.2 hcut
    exact SEQ_GEQ_of_grown hkept.edge hkept.small

def synSentWindow : Window where
  conn := ⟨1, 67160, [], [], 0, [], false, 5, 5⟩
  rwndMax := 67160
  mss := 1460
  rcvWs := 1
  thWin := 0
  synSent := true

def openWindow : Window := synSentWindow.tcpRwndSet 67160

lemma openWindow_open : Open openWindow ∧ Honest openWindow := by
  have hset : Settable synSentWindow := ⟨by decide, by decide, by decide, rfl, by decide, by decide⟩
  obtain ⟨hopen, -, hhonest⟩ := hset.tcpRwndSet 67160
  exact ⟨hopen, hhonest⟩

/-- A connection that has not been accepted. -/
def waitingWindow : Window := { openWindow with conn := { openWindow.conn with listener := true } }

lemma waitingWindow_open : Open waitingWindow ∧ Honest waitingWindow := by
  obtain ⟨hopen, hhonest⟩ := openWindow_open
  exact ⟨⟨hopen.scale, hopen.mss_pos, hopen.mss_lt, hopen.sent, hopen.le_max, hopen.max_le⟩, hhonest⟩

/-- Three bytes come before it is accepted. -/
def filledWindow : Window := waitingWindow.arrive 16384 true true [[1, 2, 3]] 3

theorem window_advertised_free :
    filledWindow.conn.rwnd = waitingWindow.conn.rwnd - 3 ∧
      filledWindow.thWin.toNat * 2 ^ 1 ≤ filledWindow.conn.rwnd.toNat ∧
      SEQ_GEQ (filledWindow.accept 67160).edge filledWindow.edge = true ∧
      (filledWindow.accept 67160).thWin.toNat * 2 ^ 1 ≤ (filledWindow.accept 67160).conn.rwnd.toNat := by
  have hrun : Windows (fun w e => e.Scaled w) waitingWindow filledWindow := by
    refine .event (.arrive 16384 true true [[1, 2, 3]] 3) .start ?_ ?_
    · change 3 ≤ waitingWindow.conn.rwnd.toNat
      decide
    · intro hlistener
      cases hlistener
  have hrun' : Windows (fun w e => e.Scaled w) waitingWindow (filledWindow.accept 67160) :=
    hrun.event (.accept 67160) trivial trivial
  obtain ⟨hle, -, -, hedge⟩ := window_advertised waitingWindow_open.1 waitingWindow_open.2 hrun
  have hcut : ¬Event.Cuts filledWindow (.accept 67160) := by
    change ¬Window.Clamped filledWindow 67160
    decide
  have hle' := (window_advertised waitingWindow_open.1 waitingWindow_open.2 hrun').1
  exact ⟨rfl, hle, hedge (.accept 67160) trivial hcut, hle'⟩

/-- Two segments that come while the queue above is blocked: 64240 is stored where 32120 was meant. -/
theorem window_unscaled :
    ¬∀ start w, Open start → Honest start → Windows (fun _ _ => True) start w → Honest w := by
  intro hall
  have hrun : Windows (fun _ _ => True) openWindow
      ((openWindow.arrive 16384 true false [] 1460).arrive 16384 true false [] 1460) := by
    refine .event (.arrive 16384 true false [] 1460) (.event (.arrive 16384 true false [] 1460) .start ?_ ?_) ?_ ?_
    · change 1460 ≤ openWindow.conn.rwnd.toNat
      decide
    · trivial
    · change 1460 ≤ (openWindow.arrive 16384 true false [] 1460).conn.rwnd.toNat
      decide
    · trivial
  have hhonest := hall _ _ openWindow_open.1 openWindow_open.2 hrun
  exact absurd hhonest (by unfold Honest; decide)

end Runs

end Solaris.Tcp
