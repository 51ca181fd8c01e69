import Mathlib

/-!
# Largest and smallest elements by a comparison

The two searches of the standard library walk over a range once and compare by
a function that says which of two elements comes first.

## Main definitions

* `maxElement`, `minElement` — the first largest and the first smallest element.

## Main results

* `minElement_spec` — **what is found is an element, and no element is below it.**
* `maxElement_eq_minElement` — the largest element by one comparison is the
  smallest by the reversed one.
-/

namespace EveIndustryPlanner

section Extremum

variable {α κ : Type*}

/-- The first element that is not before any other. -/
def maxElement (before : α → α → Bool) : List α → Option α
  | [] => none
  | a :: l => some (l.foldl (fun largest b => if before largest b then b else largest) a)

/-- The first element that no other is before. -/
def minElement (before : α → α → Bool) : List α → Option α
  | [] => none
  | a :: l => some (l.foldl (fun smallest b => if before b smallest then b else smallest) a)

theorem maxElement_eq_minElement (before : α → α → Bool) (l : List α) :
    maxElement before l = minElement (fun a b => before b a) l := by cases l <;> rfl

theorem minElement_isSome {before : α → α → Bool} {l : List α} :
    (minElement before l).isSome ↔ l ≠ [] := by
  cases l with
  | nil => simp [minElement]
  | cons a l => simp [minElement]

variable [LinearOrder κ] (key : α → κ)

/-- The walk keeps the smallest element so far. -/
theorem foldl_smallest (l : List α) (a : α) :
    let m := l.foldl (fun smallest b => if key b < key smallest then b else smallest) a
    (m = a ∨ m ∈ l) ∧ key m ≤ key a ∧ ∀ b ∈ l, key m ≤ key b := by
  induction l generalizing a with
  | nil => exact ⟨Or.inl rfl, le_refl _, fun b hb => absurd hb List.not_mem_nil⟩
  | cons b l ih =>
    simp only [List.foldl_cons]
    by_cases h : key b < key a
    · rw [if_pos h]
      obtain ⟨hmem, hle, hall⟩ := ih b
      refine ⟨?_, hle.trans h.le, List.forall_mem_cons.mpr ⟨hle, hall⟩⟩
      rcases hmem with hmem | hmem
      · exact Or.inr (by rw [hmem]; exact List.mem_cons_self)
      · exact Or.inr (List.mem_cons_of_mem b hmem)
    · rw [if_neg h]
      obtain ⟨hmem, hle, hall⟩ := ih a
      refine ⟨?_, hle, List.forall_mem_cons.mpr ⟨hle.trans (not_lt.mp h), hall⟩⟩
      rcases hmem with hmem | hmem
      · exact Or.inl hmem
      · exact Or.inr (List.mem_cons_of_mem b hmem)

/-- **What is found is an element, and no element is below it.** -/
theorem minElement_spec {l : List α} {m : α}
    (h : minElement (fun a b => decide (key a < key b)) l = some m) :
    m ∈ l ∧ ∀ b ∈ l, key m ≤ key b := by
  cases l with
  | nil => exact absurd h (by simp [minElement])
  | cons a l =>
    obtain ⟨hmem, hle, hall⟩ := foldl_smallest key l a
    simp only [minElement, decide_eq_true_eq] at h
    obtain rfl := Option.some.inj h
    refine ⟨?_, List.forall_mem_cons.mpr ⟨hle, hall⟩⟩
    rcases hmem with hmem | hmem
    · rw [hmem]
      exact List.mem_cons_self
    · exact List.mem_cons_of_mem a hmem

end Extremum

end EveIndustryPlanner
