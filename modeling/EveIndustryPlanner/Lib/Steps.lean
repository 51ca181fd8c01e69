import Mathlib

/-!
# States that steps lead to

A system takes one step after the other; which one is next is not determined, as
with threads that are scheduled in any order.  Its actions are functions that
have no result where the action is not possible.

## Main definitions

* `Steps` — the states that can be reached.
* `Throughout`, `AtSteps` — what holds of all states of a run, or of all its steps.

## Main results

* `Steps.keeps` — what holds at the beginning and is kept by each step holds
  of all states that can be reached.
* `Steps.run` — a list of actions leads to a state that can be reached.
* `Steps.length_le_of_measure` — a run is no longer than what there is to do.
* `throughout_iff_atSteps` — **an invariant holds in all states of a run exactly if
  each of its steps keeps it.**
-/

namespace EveIndustryPlanner

/-- The states that can be reached from `s₀`. -/
inductive Steps {S A : Type*} (step : S → A → Option S) (s₀ : S) : S → Prop
  | init : Steps step s₀ s₀
  | step {s s' : S} {a : A} (h : Steps step s₀ s) (hstep : step s a = some s') :
    Steps step s₀ s'

namespace Steps

variable {S A : Type*} {step : S → A → Option S} {s₀ s s' : S}

/-- What holds at the beginning and is kept by each step always holds. -/
theorem keeps {p : S → Prop} (h : Steps step s₀ s) (hinit : p s₀)
    (hkeep : ∀ s s' a, Steps step s₀ s → p s → step s a = some s' → p s') : p s := by
  induction h with
  | init => exact hinit
  | step h hstep ih => exact hkeep _ _ _ h ih hstep

/-- The state after some actions can be reached. -/
theorem run (h : Steps step s₀ s) {actions : List A} (hrun : actions.foldlM step s = some s') :
    Steps step s₀ s' := by
  induction actions generalizing s with
  | nil => exact Option.some.inj hrun ▸ h
  | cons a actions ih =>
    rw [List.foldlM_cons] at hrun
    obtain ⟨s₁, hs₁, hrun⟩ := Option.bind_eq_some_iff.mp hrun
    exact ih (h.step hs₁) hrun

/-- **A run is no longer than what there is to do**, steps apart that do nothing of it. -/
theorem length_le_of_measure {μ : S → ℕ} {works : A → Bool}
    (hworks : ∀ s s' a, Steps step s₀ s → step s a = some s' → works a = true → μ s' < μ s)
    (hidles : ∀ s s' a, Steps step s₀ s → step s a = some s' → works a = false → μ s' ≤ μ s)
    (h : Steps step s₀ s) {actions : List A} (hrun : actions.foldlM step s = some s') :
    (actions.filter works).length + μ s' ≤ μ s := by
  induction actions generalizing s with
  | nil =>
    obtain rfl := Option.some.inj hrun
    simp
  | cons a actions ih =>
    rw [List.foldlM_cons] at hrun
    obtain ⟨s₁, hs₁, hrun⟩ := Option.bind_eq_some_iff.mp hrun
    have hrest := ih (h.step hs₁) hrun
    cases ha : works a with
    | true =>
      have hless := hworks s s₁ a h hs₁ ha
      rw [List.filter_cons_of_pos ha, List.length_cons]
      omega
    | false =>
      have hle := hidles s s₁ a h hs₁ ha
      rw [List.filter_cons_of_neg (by simp [ha])]
      omega

end Steps

/-! ### Runs -/

section Runs

variable {S A : Type*} (step : S → A → Option S)

/-- It holds in all states that the actions lead to, as far as they are possible. -/
def Throughout (P : S → Prop) : S → List A → Prop
  | s, [] => P s
  | s, a :: actions => P s ∧ ∀ s', step s a = some s' → Throughout P s' actions

/-- It holds of all actions that are taken, in the states they are taken in. -/
def AtSteps (Q : S → A → Prop) : S → List A → Prop
  | _, [] => True
  | s, a :: actions => ∀ s', step s a = some s' → Q s a ∧ AtSteps Q s' actions

variable {step}

theorem Throughout.head {P : S → Prop} {s : S} {actions : List A}
    (h : Throughout step P s actions) : P s := by
  cases actions with
  | nil => exact h
  | cons a actions => exact h.1

/-- What holds throughout a run holds at its end. -/
theorem Throughout.last {P : S → Prop} {s s' : S} {actions : List A}
    (h : Throughout step P s actions) (hrun : actions.foldlM step s = some s') : P s' := by
  induction actions generalizing s with
  | nil => exact Option.some.inj hrun ▸ h
  | cons a actions ih =>
    rw [List.foldlM_cons] at hrun
    obtain ⟨s₁, hs₁, hrun⟩ := Option.bind_eq_some_iff.mp hrun
    exact ih (h.2 s₁ hs₁) hrun

/-- **An invariant holds in all states of a run exactly if each of its steps keeps it.** -/
theorem throughout_iff_atSteps {P : S → Prop} {Q : S → A → Prop}
    (hkeep : ∀ s a s', P s → step s a = some s' → (P s' ↔ Q s a)) {s : S} (hs : P s)
    (actions : List A) : Throughout step P s actions ↔ AtSteps step Q s actions := by
  induction actions generalizing s with
  | nil => exact iff_of_true hs trivial
  | cons a actions ih =>
    constructor
    · intro h s' hs'
      have hrest := h.2 s' hs'
      exact ⟨(hkeep s a s' hs hs').mp hrest.head, (ih hrest.head).mp hrest⟩
    · intro h
      refine ⟨hs, fun s' hs' => ?_⟩
      obtain ⟨hstep, hrest⟩ := h s' hs'
      exact (ih ((hkeep s a s' hs hs').mpr hstep)).mpr hrest

end Runs

end EveIndustryPlanner
