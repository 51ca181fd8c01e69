import Mathlib

/-!
# Replaying a log

A log of writes is replayed on the state it led to.  If each write makes
earlier copies of itself irrelevant, whatever came in between, the replay
changes nothing: every write of the first pass comes again in the second.

* `Absorbs` — a later copy of a write makes an earlier one irrelevant.
* `Absorbs.foldl_cons_of_mem` — one write that comes again.
* `Absorbs.foldl_append_of_subset` — a log all of whose writes come again.
* `Absorbs.foldl_replay` — **replaying a log changes nothing.**
-/

namespace EveIndustryPlanner

variable {σ α : Type*} {write : σ → α → σ}

/-- A later copy of a write makes an earlier one irrelevant. -/
structure Absorbs (write : σ → α → σ) : Prop where
  twice : ∀ a s, write (write s a) a = write s a
  between : ∀ a b s, write (write (write s a) b) a = write (write s b) a

namespace Absorbs

/-- A write that comes again can be left out. -/
theorem foldl_cons_of_mem (h : Absorbs write) {a : α} {l : List α} (ha : a ∈ l) (s : σ) :
    (a :: l).foldl write s = l.foldl write s := by
  induction l generalizing s with
  | nil => exact absurd ha List.not_mem_nil
  | cons b l ih =>
    rcases List.mem_cons.mp ha with rfl | ha
    · show l.foldl write (write (write s a) a) = l.foldl write (write s a)
      rw [h.twice]
    · -- the copy further on also absorbs one put behind `b`, which absorbs the first one
      calc (a :: b :: l).foldl write s
          = l.foldl write (write (write s a) b) := rfl
        _ = (a :: l).foldl write (write (write s a) b) := (ih ha _).symm
        _ = l.foldl write (write (write (write s a) b) a) := rfl
        _ = l.foldl write (write (write s b) a) := by rw [h.between]
        _ = (a :: l).foldl write (write s b) := rfl
        _ = l.foldl write (write s b) := ih ha _

/-- Writes all of which come again can be left out. -/
theorem foldl_append_of_subset (h : Absorbs write) {l l' : List α} (hsub : l ⊆ l') (s : σ) :
    (l ++ l').foldl write s = l'.foldl write s := by
  induction l generalizing s with
  | nil => rfl
  | cons a l ih =>
    obtain ⟨ha, hl⟩ := List.cons_subset.mp hsub
    rw [List.cons_append, h.foldl_cons_of_mem (List.mem_append_right l ha), ih hl]

/-- **Replaying a log changes nothing.** -/
theorem foldl_replay (h : Absorbs write) (l : List α) (s : σ) :
    l.foldl write (l.foldl write s) = l.foldl write s := by
  rw [← List.foldl_append]
  exact h.foldl_append_of_subset (List.Subset.refl l) s

end Absorbs

end EveIndustryPlanner
