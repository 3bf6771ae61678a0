import Mathlib.Data.List.Perm.Basic

/-!
# Arenas

An arena is a stretch of memory that is given away from its start on. `Arenas runs blocks` says that the arenas do
not overlap and that the blocks given away lie in the used parts of arenas without overlapping.
-/

namespace Solaris.Lib

open List

/-- `start` to `fill` is used, `fill` to `stop` is free. -/
structure Arena where
  start : Nat
  fill : Nat
  stop : Nat

structure Extent where
  start : Nat
  stop : Nat

structure Arenas (runs : List Arena) (blocks : List Extent) : Prop where
  bounds : ∀ r ∈ runs, r.start ≤ r.fill ∧ r.fill ≤ r.stop
  apart : runs.Pairwise fun r q => r.stop ≤ q.start ∨ q.stop ≤ r.start
  inside : ∀ b ∈ blocks, ∃ r ∈ runs, r.start ≤ b.start ∧ b.stop ≤ r.fill
  disjoint : blocks.Pairwise fun b c => b.stop ≤ c.start ∨ c.stop ≤ b.start

variable {runs runs' : List Arena} {blocks : List Extent} {r : Arena}

lemma Arenas.nil : Arenas [] [] := ⟨by simp, .nil, by simp, .nil⟩

lemma Arenas.perm (h : Arenas runs blocks) (hp : runs.Perm runs') : Arenas runs' blocks := by
  refine ⟨fun q hq => h.bounds q (hp.mem_iff.mpr hq), ?_, ?_, h.disjoint⟩
  · exact (hp.pairwise_iff fun hab => hab.symm).mp h.apart
  · intro b hb
    obtain ⟨q, hq, hin⟩ := h.inside b hb
    exact ⟨q, hp.mem_iff.mp hq, hin⟩

lemma Arenas.add (h : Arenas runs blocks) (hr : r.start = r.fill) (hfill : r.fill ≤ r.stop)
    (hfresh : ∀ q ∈ runs, r.stop ≤ q.start ∨ q.stop ≤ r.start) : Arenas (r :: runs) blocks := by
  refine ⟨?_, pairwise_cons.mpr ⟨hfresh, h.apart⟩, ?_, h.disjoint⟩
  · exact forall_mem_cons.mpr ⟨⟨Nat.le_of_eq hr, hfill⟩, h.bounds⟩
  · intro b hb
    obtain ⟨q, hq, hin⟩ := h.inside b hb
    exact ⟨q, mem_cons_of_mem r hq, hin⟩

lemma Arenas.carve (h : Arenas (r :: runs) blocks) (start stop : Nat) (hstart : r.fill ≤ start)
    (hlen : start ≤ stop) (hstop : stop ≤ r.stop) :
    Arenas (⟨r.start, stop, r.stop⟩ :: runs) (⟨start, stop⟩ :: blocks) := by
  obtain ⟨hlo, hhi⟩ := h.bounds r mem_cons_self
  obtain ⟨hap, haps⟩ := pairwise_cons.mp h.apart
  refine ⟨?_, pairwise_cons.mpr ⟨hap, haps⟩, ?_, pairwise_cons.mpr ⟨?_, h.disjoint⟩⟩
  · exact forall_mem_cons.mpr ⟨⟨by dsimp only; omega, hstop⟩, fun q hq => h.bounds q (mem_cons_of_mem r hq)⟩
  · refine forall_mem_cons.mpr ⟨⟨_, mem_cons_self, by dsimp only; omega, Nat.le_refl _⟩, fun b hb => ?_⟩
    obtain ⟨q, hq, hin⟩ := h.inside b hb
    rcases mem_cons.mp hq with rfl | hq
    · exact ⟨_, mem_cons_self, hin.1, by dsimp only; omega⟩
    · exact ⟨q, mem_cons_of_mem _ hq, hin⟩
  · intro b hb
    obtain ⟨q, hq, hbl, hbr⟩ := h.inside b hb
    rcases mem_cons.mp hq with rfl | hq
    · right
      dsimp only
      omega
    · have hq' := h.bounds q (mem_cons_of_mem r hq)
      have hapart := hap q hq
      dsimp only
      omega

end Solaris.Lib
