import EveIndustryPlanner.Fault

/-!
# Two fallible runs that agree

A run on a state as the code keeps it and one on a state as it is meant agree if
both come to related ends or both fail, for related reasons.  Runs that agree at
every step agree as a whole.

## Main definitions

* `Agree` — related ends or related failures.

## Main results

* `Agree.bind` — one run after another.
* `Agree.foldlM` — **loops whose steps agree agree**, from related states on.
* `Agree.exists_ok` — where one run succeeds the other does.
-/

namespace EveIndustryPlanner

variable {ε δ α β α' β' σ τ : Type}

/-- Related ends or related failures. -/
def Agree (E : ε → δ → Prop) (R : α → β → Prop) : Except ε α → Except δ β → Prop
  | .ok a, .ok b => R a b
  | .error e, .error d => E e d
  | _, _ => False

namespace Agree

variable {E : ε → δ → Prop} {R : α → β → Prop} {R' : α' → β' → Prop}
  {x : Except ε α} {y : Except δ β}

theorem ok {a : α} {b : β} (h : R a b) : Agree E R (.ok a) (.ok b) := h

theorem error {e : ε} {d : δ} (h : E e d) : Agree E R (.error e) (.error d) := h

/-- One run after another. -/
theorem bind {f : α → Except ε α'} {g : β → Except δ β'} (h : Agree E R x y)
    (hfg : ∀ a b, R a b → Agree E R' (f a) (g b)) : Agree E R' (x >>= f) (y >>= g) := by
  cases x with
  | ok a =>
    cases y with
    | ok b => exact hfg a b h
    | error d => exact absurd h id
  | error e =>
    cases y with
    | ok b => exact absurd h id
    | error d => exact h

/-- Where one run succeeds the other does. -/
theorem exists_ok {b : β} (h : Agree E R x (.ok b)) : ∃ a, x = .ok a ∧ R a b := by
  cases x with
  | ok a => exact ⟨a, rfl, h⟩
  | error e => exact absurd h id

/-- **Loops whose steps agree agree.** -/
theorem foldlM {S : σ → τ → Prop} {step : σ → α → Except ε σ} {step' : τ → β → Except δ τ}
    {l : List α} {l' : List β} {s : σ} {t : τ} (hl : List.Forall₂ R l l')
    (hstep : ∀ s t a b, R a b → S s t → Agree E S (step s a) (step' t b)) (h : S s t) :
    Agree E S (l.foldlM step s) (l'.foldlM step' t) := by
  induction hl generalizing s t with
  | nil => exact h
  | cons hab _ ih =>
    rw [List.foldlM_cons, List.foldlM_cons]
    exact (hstep s t _ _ hab h).bind fun s₁ t₁ h₁ => ih h₁

end Agree

end EveIndustryPlanner
