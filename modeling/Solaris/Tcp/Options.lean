import Solaris.Tcp.Receive

/-!
# Options of a segment

`tcp_parse_options` over the bytes of a header behind the first twenty, and the timestamp options that
these bytes hold. Of several the last one counts.
-/

namespace Solaris.Tcp

open Lib (wordOf)

/-- `tcp_opt_t` -/
structure TcpOpt where
  mss : Nat
  wscale : Nat
  tsVal : Seq
  tsEcr : Seq

/-- `TCP_OPT_MSS_PRESENT` -/
def optMssPresent : Nat := 1

/-- `TCP_OPT_WSCALE_PRESENT` -/
def optWscalePresent : Nat := 2

/-- `TCP_OPT_TSTAMP_PRESENT` -/
def optTstampPresent : Nat := 4

/-- `up[i]` -/
def byteAt (up : Bytes) (i : Nat) : Nat := (up.getD i 0).toNat

/-- The switch of `tcp_parse_options` with `up` as the bytes from `up` to `endp`: what the loop goes on with,
or `none` when it is left. `mssMin` and `mssMax` are the tunables. -/
def parseOption (mssMin mssMax : Nat) (up : Bytes) (o : TcpOpt) (found : Nat) : Option (Bytes × TcpOpt × Nat) :=
  let len := up.length
  if len = 0 ∨ byteAt up 0 = 0 then none
  else if byteAt up 0 = 1 then some (up.drop 1, o, found)
  else if byteAt up 0 = 2 then
    if len < 4 ∨ byteAt up 1 ≠ 4 then none
    else
      let mss := byteAt up 2 * 256 + byteAt up 3
      let mss := if mss < mssMin then mssMin else if mss > mssMax then mssMax else mss
      some (up.drop 4, { o with mss }, found ||| optMssPresent)
  else if byteAt up 0 = 3 then
    if len < 3 ∨ byteAt up 1 ≠ 3 then none
    else
      let wscale := if byteAt up 2 > 14 then 14 else byteAt up 2
      some (up.drop 3, { o with wscale }, found ||| optWscalePresent)
  else if byteAt up 0 = 8 then
    if len < 10 ∨ byteAt up 1 ≠ 10 then none
    else
      some (up.drop 10, { o with tsVal := wordOf (up.drop 2), tsEcr := wordOf (up.drop 6) },
        found ||| optTstampPresent)
  else if len ≤ 1 ∨ len < byteAt up 1 ∨ byteAt up 1 = 0 then none
  else some (up.drop (byteAt up 1), o, found)

def parseLoop (mssMin mssMax : Nat) : Nat → Bytes → TcpOpt → Nat → Nat × TcpOpt
  | 0, _, o, found => (found, o)
  | fuel + 1, up, o, found =>
    match parseOption mssMin mssMax up o found with
    | none => (found, o)
    | some (up, o, found) => parseLoop mssMin mssMax fuel up o found

/-- `tcp_parse_options`; what the options do not set stays as it is in `o`. -/
def tcpParseOptions (mssMin mssMax : Nat) (up : Bytes) (o : TcpOpt) : Nat × TcpOpt :=
  parseLoop mssMin mssMax up.length up o 0

section Stamps

/-- How many bytes the first option takes, unless it ends the list or has a bad length. -/
def optLength (up : Bytes) : Option Nat :=
  let len := up.length
  if len = 0 ∨ byteAt up 0 = 0 then none
  else if byteAt up 0 = 1 then some 1
  else if byteAt up 0 = 2 then if len < 4 ∨ byteAt up 1 ≠ 4 then none else some 4
  else if byteAt up 0 = 3 then if len < 3 ∨ byteAt up 1 ≠ 3 then none else some 3
  else if byteAt up 0 = 8 then if len < 10 ∨ byteAt up 1 ≠ 10 then none else some 10
  else if len ≤ 1 ∨ len < byteAt up 1 ∨ byteAt up 1 = 0 then none else some (byteAt up 1)

def stampsFrom : Nat → Bytes → List (Seq × Seq)
  | 0, _ => []
  | fuel + 1, up =>
    match optLength up with
    | none => []
    | some n =>
      (if byteAt up 0 = 8 then [(wordOf (up.drop 2), wordOf (up.drop 6))] else []) ++ stampsFrom fuel (up.drop n)

def stamps (up : Bytes) : List (Seq × Seq) := stampsFrom up.length up

variable {mssMin mssMax fuel found n : Nat} {up : Bytes} {o : TcpOpt}

lemma stampsFrom_end (h : optLength up = none) : stampsFrom (fuel + 1) up = [] := by
  unfold stampsFrom
  rw [h]

lemma stampsFrom_option (h : optLength up = some n) : stampsFrom (fuel + 1) up =
    (if byteAt up 0 = 8 then [(wordOf (up.drop 2), wordOf (up.drop 6))] else []) ++ stampsFrom fuel (up.drop n) := by
  conv_lhs => unfold stampsFrom
  rw [h]

def TcpOpt.stamp (o : TcpOpt) : Seq × Seq := (o.tsVal, o.tsEcr)

lemma or_and_tstamp {a b : Nat} (hb : b &&& optTstampPresent = 0) :
    (a ||| b) &&& optTstampPresent = a &&& optTstampPresent := by
  rw [Nat.and_or_distrib_right, hb, Nat.or_zero]

lemma or_tstamp {a : Nat} : (a ||| optTstampPresent) &&& optTstampPresent = optTstampPresent := by
  rw [Nat.and_comm, Nat.and_or_distrib_left, Nat.and_self, Nat.or_comm]
  apply Nat.eq_of_testBit_eq
  intro i
  rw [Nat.testBit_or, Nat.testBit_and]
  cases Nat.testBit optTstampPresent i <;> rfl

lemma parseOption_stamp : match parseOption mssMin mssMax up o found with
    | none => optLength up = none
    | some (up', o', found') => ∃ n, optLength up = some n ∧ up' = up.drop n ∧
        if byteAt up 0 = 8 then
          o'.stamp = (wordOf (up.drop 2), wordOf (up.drop 6)) ∧ found' &&& optTstampPresent = optTstampPresent
        else o'.stamp = o.stamp ∧ found' &&& optTstampPresent = found &&& optTstampPresent := by
  unfold parseOption optLength
  by_cases hend : up.length = 0 ∨ byteAt up 0 = 0
  · rw [if_pos hend, if_pos hend]
  rw [if_neg hend, if_neg hend]
  by_cases hnop : byteAt up 0 = 1
  · rw [if_pos hnop, if_pos hnop]
    refine ⟨1, rfl, rfl, ?_⟩
    rw [if_neg (by omega)]
    exact ⟨rfl, rfl⟩
  rw [if_neg hnop, if_neg hnop]
  by_cases hmss : byteAt up 0 = 2
  · rw [if_pos hmss, if_pos hmss]
    by_cases hbad : up.length < 4 ∨ byteAt up 1 ≠ 4
    · rw [if_pos hbad, if_pos hbad]
    · rw [if_neg hbad, if_neg hbad]
      refine ⟨4, rfl, rfl, ?_⟩
      rw [if_neg (by omega)]
      exact ⟨rfl, or_and_tstamp rfl⟩
  rw [if_neg hmss, if_neg hmss]
  by_cases hws : byteAt up 0 = 3
  · rw [if_pos hws, if_pos hws]
    by_cases hbad : up.length < 3 ∨ byteAt up 1 ≠ 3
    · rw [if_pos hbad, if_pos hbad]
    · rw [if_neg hbad, if_neg hbad]
      refine ⟨3, rfl, rfl, ?_⟩
      rw [if_neg (by omega)]
      exact ⟨rfl, or_and_tstamp rfl⟩
  by_cases hts : byteAt up 0 = 8
  · split_ifs with hbad
    · rfl
    · exact ⟨10, rfl, rfl, rfl, or_tstamp⟩
  split_ifs with hbad
  · rfl
  · exact ⟨_, rfl, rfl, rfl, rfl⟩

lemma parseLoop_stamps (up : Bytes) (o : TcpOpt) (found : Nat) :
    ((stampsFrom fuel up = [] ∧ (parseLoop mssMin mssMax fuel up o found).1 &&& optTstampPresent =
        found &&& optTstampPresent) ∨
      (stampsFrom fuel up ≠ [] ∧ (parseLoop mssMin mssMax fuel up o found).1 &&& optTstampPresent =
        optTstampPresent)) ∧
      (parseLoop mssMin mssMax fuel up o found).2.stamp = (stampsFrom fuel up).getLast?.getD o.stamp := by
  induction fuel generalizing up o found with
  | zero => exact ⟨.inl ⟨rfl, rfl⟩, rfl⟩
  | succ fuel ih =>
    have hturn := @parseOption_stamp mssMin mssMax found up o
    unfold parseLoop
    cases hopt : parseOption mssMin mssMax up o found with
    | none =>
      rw [hopt] at hturn
      rw [stampsFrom_end hturn]
      exact ⟨.inl ⟨rfl, rfl⟩, rfl⟩
    | some r =>
      obtain ⟨up', o', found'⟩ := r
      rw [hopt] at hturn
      obtain ⟨n, hlen, rfl, hkept⟩ := hturn
      obtain ⟨hfound, hstamp⟩ := ih (up.drop n) o' found'
      rw [stampsFrom_option hlen]
      rw [hstamp]
      by_cases h8 : byteAt up 0 = 8
      · rw [if_pos h8] at hkept ⊢
        rw [hkept.1, List.singleton_append, List.getLast?_cons]
        refine ⟨.inr ⟨List.cons_ne_nil _ _, ?_⟩, rfl⟩
        rcases hfound with ⟨-, heq⟩ | ⟨-, heq⟩
        · rw [heq, hkept.2]
        · exact heq
      · rw [if_neg h8] at hkept ⊢
        rw [hkept.1, List.nil_append]
        rw [hkept.2] at hfound
        exact ⟨hfound, rfl⟩

theorem tcpParseOptions_found : (tcpParseOptions mssMin mssMax up o).1 &&& optTstampPresent ≠ 0 ↔ stamps up ≠ [] := by
  have hfound := (@parseLoop_stamps mssMin mssMax up.length up o 0).1
  change (stamps up = [] ∧ (tcpParseOptions mssMin mssMax up o).1 &&& optTstampPresent = 0 &&& optTstampPresent) ∨
    (stamps up ≠ [] ∧ (tcpParseOptions mssMin mssMax up o).1 &&& optTstampPresent = optTstampPresent) at hfound
  rcases hfound with ⟨hnil, heq⟩ | ⟨hne, heq⟩
  · rw [heq, Nat.zero_and]
    exact ⟨fun h => absurd rfl h, fun h => absurd hnil h⟩
  · rw [heq]
    exact ⟨fun _ => hne, fun _ => by decide⟩

lemma tcpParseOptions_stamp : (tcpParseOptions mssMin mssMax up o).2.stamp = (stamps up).getLast?.getD o.stamp :=
  (parseLoop_stamps up o 0).2

end Stamps

end Solaris.Tcp
