import Solaris.Vm.Ranges

/-!
# Ranges visited exactly

What the five functions have to do with a range, and that four of them do it. `as_faulta` compares the
base of the next segment with the address it was called with and not with the one it has come to, so it
stops at the end of the first segment.
-/

namespace Solaris.Vm

open Lib List Nat

section Outcome

variable {m : List Entry} {good : List Piece → Prop} {lo hi b : Nat} {ps : List Piece} {p : Piece} {ret : Int}

def Succeeds (good : List Piece → Prop) (ps : List Piece) : Prop := ∀ k < ps.length, good (ps.take (k + 1))

/-- What is asked of a call on the range from `lo` to `hi` that applies its operation to `ps` and returns
`ret`. -/
structure RangeExact (m : List Entry) (good : List Piece → Prop) (lo hi : Nat) (ps : List Piece) (ret : Int) :
    Prop where
  pieces : ∃ b ≤ hi, Tiles m lo ps b
  before : ∀ k, k + 1 < ps.length → good (ps.take (k + 1))
  whole : (∀ x, lo ≤ x → x < hi → Mapped m x) → Succeeds good ps → Tiles m lo ps hi
  stops : ¬((∀ x, lo ≤ x → x < hi → Mapped m x) ∧ Succeeds good ps) →
    (ps ≠ [] ∧ ¬good ps) ∨ ∃ b < hi, Tiles m lo ps b ∧ ¬Mapped m b
  error : ret = 0 ↔ Succeeds good ps ∧ Mapped m lo ∧ ∀ x, lo ≤ x → x < hi → Mapped m x

inductive Outcome (m : List Entry) (good : List Piece → Prop) (lo hi : Nat) : List Piece → Int → Prop
  | whole (ps : List Piece) (hmapped : Mapped m lo) (ht : Tiles m lo ps hi) (hgood : Succeeds good ps) :
      Outcome m good lo hi ps 0
  | hole (ps : List Piece) (b : Nat) (ret : Int) (hret : ret ≠ 0) (ht : Tiles m lo ps b) (hgood : Succeeds good ps)
      (hhole : ¬Mapped m b) (hlt : b < hi ∨ b = lo ∧ b = hi) : Outcome m good lo hi ps ret
  | failed (ps : List Piece) (p : Piece) (b : Nat) (ret : Int) (hret : ret ≠ 0) (ht : Tiles m lo (ps ++ [p]) b)
      (hb : b ≤ hi) (hgood : Succeeds good ps) (hbad : ¬good (ps ++ [p])) : Outcome m good lo hi (ps ++ [p]) ret

lemma Succeeds.before (h : Succeeds good ps) (k : Nat) (hk : k + 1 < (ps ++ [p]).length) :
    good ((ps ++ [p]).take (k + 1)) := by
  rw [length_append, length_singleton] at hk
  rw [take_append_of_le_length (by omega)]
  exact h k (by omega)

lemma Succeeds.concat (h : Succeeds good ps) (hp : good (ps ++ [p])) : Succeeds good (ps ++ [p]) := by
  intro k hk
  by_cases hlast : k + 1 < (ps ++ [p]).length
  · exact h.before k hlast
  · rw [take_of_length_le (by omega)]
    exact hp

lemma not_succeeds (hbad : ¬good (ps ++ [p])) : ¬Succeeds good (ps ++ [p]) := by
  intro h
  apply hbad
  have hlast := h ps.length (by rw [length_append, length_singleton]; omega)
  rwa [take_of_length_le (by rw [length_append, length_singleton])] at hlast

lemma Succeeds.last (h : Succeeds good ps) (hne : ps ≠ []) : good ps := by
  have hpos := length_pos_iff.mpr hne
  have hlast := h (ps.length - 1) (by omega)
  rwa [take_of_length_le (by omega)] at hlast

lemma Outcome.exact (h : Outcome m good lo hi ps ret) : RangeExact m good lo hi ps ret := by
  cases h with
  | whole _ hmapped ht hgood =>
    have hall (x : Nat) (hlo : lo ≤ x) (hhi : x < hi) : Mapped m x := ht.mapped hlo hhi
    exact ⟨⟨hi, le_rfl, ht⟩, fun k hk => hgood k (by omega), fun _ _ => ht, fun hnot => absurd ⟨hall, hgood⟩ hnot,
      ⟨fun _ => ⟨hgood, hmapped, hall⟩, fun _ => rfl⟩⟩
  | hole _ b _ hret ht hgood hhole hlt =>
    refine ⟨⟨b, by omega, ht⟩, fun k hk => hgood k (by omega), fun hall _ => ?_, fun hnot => ?_,
      ⟨fun heq => absurd heq hret, ?_⟩⟩
    · rcases hlt with hlt | ⟨-, rfl⟩
      · exact absurd (hall b ht.le hlt) hhole
      · exact ht
    · rcases hlt with hlt | ⟨rfl, rfl⟩
      · exact .inr ⟨b, hlt, ht, hhole⟩
      · exact absurd ⟨fun x hlo hhi => absurd hhi (by omega), hgood⟩ hnot
    · rintro ⟨-, hmapped, hall⟩
      rcases hlt with hlt | ⟨rfl, -⟩
      · exact absurd (hall b ht.le hlt) hhole
      · exact absurd hmapped hhole
  | failed ps p b _ hret ht hb hgood hbad =>
    have hnot := not_succeeds hbad
    exact ⟨⟨b, hb, ht⟩, hgood.before, fun _ hall => absurd hall hnot,
      fun _ => .inl ⟨append_ne_nil_of_right_ne_nil ps (cons_ne_nil p []), hbad⟩,
      ⟨fun heq => absurd heq hret, fun hall => absurd hall.1 hnot⟩⟩

end Outcome

lemma fcNomap_ne : fcNomap ≠ 0 := by decide

section Walks

variable {σ γ : Type} {op : Piece → σ → Option Int × σ} {good : List Piece → Prop} {state : List Piece → σ}
  {view : σ → γ} {m : List Entry} {lo hi b b' : Nat} {done ps : List Piece} {l : Left} {s s' : σ} {nomap : Int}

/-- The operation succeeds by the pieces so far: it goes from `state` to `state`, and in `view` even when
it fails. -/
structure Follows (op : Piece → σ → Option Int × σ) (good : List Piece → Prop) (state : List Piece → σ)
    (view : σ → γ) : Prop where
  ok : ∀ ps p, good (ps ++ [p]) → op p (state ps) = (none, state (ps ++ [p]))
  fail : ∀ ps p, ¬good (ps ++ [p]) → ∃ code s', code ≠ 0 ∧ op p (state ps) = (some code, s') ∧
    view s' = view (state (ps ++ [p]))

/-- The pieces that have succeeded: all, or all but the last. -/
def Before (good : List Piece → Prop) (ps qs : List Piece) : Prop :=
  Succeeds good ps ∧ (qs = ps ∨ ∃ p, qs = ps ++ [p] ∧ ¬good qs)

theorem Walked.outcome (hf : Follows op good state view) (hnomap : nomap ≠ 0)
    (h : Walked m op hi b s ps l b' s') (hs : s = state done) (hdone : Succeeds good done)
    (ht : Tiles m lo done b) (hmapped : Mapped m lo) :
    ∃ qs, Outcome m good lo hi qs (l.code nomap) ∧ view s' = view (state qs) ∧ Before good (done ++ ps) qs := by
  induction h generalizing done with
  | done s =>
    rw [append_nil]
    subst hs
    exact ⟨done, Outcome.whole done hmapped ht hdone, rfl, hdone, .inl rfl⟩
  | hole b s hlt hhole =>
    rw [append_nil]
    subst hs
    exact ⟨done, Outcome.hole done b _ hnomap ht hdone hhole (.inl hlt), rfl, hdone, .inl rfl⟩
  | failed b s s' e code he hle hlt hb hop =>
    rw [append_nil]
    subst hs
    have hnext := @Tiles.single m b (min e.stop hi - b) e he hle (by omega) (by omega)
    by_cases hgood : good (done ++ [⟨e.ptr, b, min e.stop hi - b⟩])
    · rw [hf.ok done _ hgood] at hop
      cases hop
    · obtain ⟨code', s'', hcode, hop', hview⟩ := hf.fail done _ hgood
      rw [hop] at hop'
      cases hop'
      exact ⟨_, Outcome.failed done _ _ code hcode (ht.append hnext) (by omega) hdone hgood, hview, hdone,
        .inr ⟨_, rfl, hgood⟩⟩
  | piece b b' s s' s'' ps l e he hle hlt hb hop _ ih =>
    subst hs
    have hnext := @Tiles.single m b (min e.stop hi - b) e he hle (by omega) (by omega)
    rw [Nat.add_sub_cancel' (by omega)] at hnext
    have hgood : good (done ++ [⟨e.ptr, b, min e.stop hi - b⟩]) := by
      by_contra hbad
      obtain ⟨code, s1, -, hop', -⟩ := hf.fail done _ hbad
      rw [hop] at hop'
      cases hop'
    rw [hf.ok done _ hgood] at hop
    cases hop
    have hrest := ih rfl (hdone.concat hgood) (ht.append hnext)
    rw [append_assoc] at hrest
    exact hrest

lemma follows_logged {α : Type} (segop : List α → Int) (call : Piece → α) :
    Follows (fun p => logged segop (call p)) (fun ps => segop (ps.map call) = 0) (List.map call) id := by
  have hmap (ps : List Piece) (p : Piece) : (ps ++ [p]).map call = ps.map call ++ [call p] := map_append
  constructor
  · intro ps p hgood
    unfold logged errorOf
    rw [hmap] at hgood ⊢
    rw [if_pos hgood]
  · intro ps p hbad
    rw [hmap] at hbad ⊢
    refine ⟨_, _, hbad, ?_, rfl⟩
    unfold logged errorOf
    rw [if_neg hbad]

end Walks

section Pages

variable {pageshift addr size : Nat}

lemma pagesize_pos : 0 < pagesize pageshift := Nat.two_pow_pos pageshift

lemma pageDown_le : pageDown pageshift addr ≤ addr := Nat.div_mul_le_self addr _

lemma lt_pageDown : addr < pageDown pageshift addr + pagesize pageshift := by
  have hmod := mod_lt addr (@pagesize_pos pageshift)
  have hdiv := div_add_mod' addr (pagesize pageshift)
  unfold pageDown
  omega

lemma pageDown_mono {addr' : Nat} (h : addr ≤ addr') : pageDown pageshift addr ≤ pageDown pageshift addr' :=
  Nat.mul_le_mul_right _ (Nat.div_le_div_right h)

def rangeEnd (pageshift addr size : Nat) : Nat := pageDown pageshift (addr + size + (pagesize pageshift - 1))

lemma rangeEnd_spec (h : addr + size + (pagesize pageshift - 1) < 2 ^ 32) :
    pageDown pageshift addr ≤ rangeEnd pageshift addr size ∧ rangeEnd pageshift addr size < 2 ^ 32 ∧
      rangeSize pageshift addr size = rangeEnd pageshift addr size - pageDown pageshift addr := by
  have hle : pageDown pageshift addr ≤ rangeEnd pageshift addr size := pageDown_mono (by omega)
  have hend : rangeEnd pageshift addr size ≤ addr + size + (pagesize pageshift - 1) := pageDown_le
  refine ⟨hle, by omega, ?_⟩
  unfold rangeSize
  rw [mod_eq_of_lt (a := addr + size) (by omega), mod_eq_of_lt h]
  change (rangeEnd pageshift addr size + 2 ^ 32 - pageDown pageshift addr) % 2 ^ 32 = _
  omega

end Pages

section Calls

variable {σ γ : Type} {op : Piece → σ → Option Int × σ} {good : List Piece → Prop} {state : List Piece → σ}
  {view : σ → γ} {as : As} {m pre post : List Entry} {e : Entry} {pageshift addr size : Nat} {nomap : Int}

lemma outcome_unmapped {lo hi : Nat} (hnomap : nomap ≠ 0) (hle : lo ≤ hi) (h : ¬Mapped m lo) :
    Outcome m good lo hi [] nomap :=
  Outcome.hole [] lo nomap hnomap (Tiles.nil lo) (fun k hk => absurd hk (Nat.not_lt_zero k)) h (by omega)

section

variable (h : Holds as m) (hf : Follows op good state view) (hnomap : nomap ≠ 0)
  (hwrap : addr + size + (pagesize pageshift - 1) < 2 ^ 32)

include h hf hnomap hwrap

lemma rangeLoop_outcome (hm : m = pre ++ e :: post)
    (hle : e.base ≤ pageDown pageshift addr) (hlt : pageDown pageshift addr < e.stop) :
    ∃ ps l b s' qs, rangeLoop as op (as.nsegs + 1) e.ptr (pageDown pageshift addr)
        (rangeSize pageshift addr size) (state []) = some (l, b, s') ∧
      Walked m op (rangeEnd pageshift addr size) (pageDown pageshift addr) (state []) ps l b s' ∧
      Outcome m good (pageDown pageshift addr) (rangeEnd pageshift addr size) qs (l.code nomap) ∧
      view s' = view (state qs) ∧ Before good ps qs := by
  obtain ⟨hlo, hhi, hsize⟩ := rangeEnd_spec hwrap
  have hlen := congrArg List.length hm
  rw [length_append, length_cons] at hlen
  obtain ⟨ps, l, b, s', hrun, hwalk⟩ := @rangeLoop_walked _ op as m _ _ _ _ _ (as.nsegs + 1) h hm hle hlt.le hhi hlo
    (succ_pos _) (fun _ => by rw [if_pos hlt, h.nsegs]; omega) (state [])
  have hmem : e ∈ m := by
    rw [hm]
    simp
  obtain ⟨qs, hout, hview, hbefore⟩ := hwalk.outcome hf hnomap rfl
    (fun k hk => absurd hk (not_lt_zero k)) (Tiles.nil _) ⟨e, hmem, hle, hlt⟩
  rw [hsize]
  exact ⟨ps, l, b, s', qs, hrun, hwalk, hout, hview, hbefore⟩

lemma rangeCall_outcome :
    ∃ ret qs s' as', rangeCall pageshift op nomap (state []) as addr size = some (ret, s', as') ∧
      Outcome m good (pageDown pageshift addr) (rangeEnd pageshift addr size) qs ret ∧
      view s' = view (state qs) := by
  obtain ⟨hlo, hhi, hsize⟩ := rangeEnd_spec hwrap
  have hsum : ¬(pageDown pageshift addr + rangeSize pageshift addr size) % 2 ^ 32 < pageDown pageshift addr := by
    omega
  unfold rangeCall
  rw [if_neg hsum]
  obtain ⟨as', h', ⟨pre, e, post, hm, hle, hlt, hseg⟩ | ⟨hhole, hseg⟩⟩ :=
    asSegat_spec h
  · obtain ⟨ps, l, b, s', qs, hrun, -, hout, hview, -⟩ := rangeLoop_outcome h' hf hnomap hwrap hm hle hlt
    rw [hseg]
    dsimp only
    rw [hrun]
    exact ⟨_, qs, s', as', rfl, hout, hview⟩
  · rw [hseg]
    exact ⟨nomap, [], state [], as', rfl, outcome_unmapped hnomap hlo hhole, rfl⟩

end

end Calls

end Solaris.Vm
