import Mathlib

/-!
# How a run ends early

A function of the program that does not return either throws an exception,
whose text is kept, or does something the language leaves undefined (a read
past the end of a text, an index out of range).

* `Fault` — the two ways.
* `Succeeds` — a run that came to its end.
* `deref` — what an iterator points to.
-/

namespace EveIndustryPlanner

/-- Why a function did not return. -/
inductive Fault where
  /-- An exception and its text. -/
  | runtimeError (what : String)
  /-- An access the language leaves undefined. -/
  | undefined
  deriving DecidableEq, Repr

/-- The run came to its end. -/
def Succeeds {α : Type} (x : Except Fault α) : Prop := ∃ a, x = .ok a

@[simp] theorem succeeds_ok {α : Type} (a : α) : Succeeds (.ok a : Except Fault α) := ⟨a, rfl⟩

@[simp] theorem not_succeeds_error {α : Type} (e : Fault) :
    ¬ Succeeds (.error e : Except Fault α) := by
  rintro ⟨a, h⟩
  exact absurd h (by simp)

/-- `*it`, of an iterator that may be at the end. -/
def deref {α : Type} : Option α → Except Fault α
  | some a => .ok a
  | none => .error .undefined

/-! ### Sequences -/

section Sequences

variable {ε α β : Type}

/-- A sequence that came to its end passed through its first half. -/
theorem bind_eq_ok {x : Except ε α} {f : α → Except ε β} {b : β}
    (h : (x >>= f) = .ok b) : ∃ a, x = .ok a ∧ f a = .ok b := by
  cases x with
  | error e => exact absurd h (by simp [bind, Except.bind])
  | ok a => exact ⟨a, rfl, h⟩

/-- A sequence that failed did so in its first half or after it. -/
theorem bind_eq_error {x : Except ε α} {f : α → Except ε β} {e : ε}
    (h : (x >>= f) = .error e) : x = .error e ∨ ∃ a, x = .ok a ∧ f a = .error e := by
  cases x with
  | error e' => exact Or.inl (congrArg Except.error (Except.error.inj h))
  | ok a => exact Or.inr ⟨a, rfl, h⟩

@[simp] theorem ok_bind (a : α) (f : α → Except ε β) : ((.ok a : Except ε α) >>= f) = f a := rfl

@[simp] theorem error_bind (e : ε) (f : α → Except ε β) :
    ((.error e : Except ε α) >>= f) = .error e := rfl

end Sequences

/-! ### Runs of a fallible step -/

section Runs

variable {ε σ α : Type} {step : σ → α → Except ε σ}

/-- An invariant of every step is one of every run. -/
theorem foldlM_invariant {P : σ → Prop}
    (hstep : ∀ s a s', P s → step s a = .ok s' → P s') {l : List α} {s s' : σ} (hs : P s)
    (h : l.foldlM step s = .ok s') : P s' := by
  induction l generalizing s with
  | nil =>
    obtain rfl : s = s' := Except.ok.inj h
    exact hs
  | cons a l ih =>
    rw [List.foldlM_cons] at h
    obtain ⟨s₁, h₁, h⟩ := bind_eq_ok h
    exact ih (hstep s a s₁ hs h₁) h

/-- A run over a list that starts with `l₁` passes through the end of `l₁`. -/
theorem foldlM_append_eq_ok {l₁ l₂ : List α} {s s' : σ}
    (h : (l₁ ++ l₂).foldlM step s = .ok s') :
    ∃ s₁, l₁.foldlM step s = .ok s₁ ∧ l₂.foldlM step s₁ = .ok s' := by
  rw [List.foldlM_append] at h
  exact bind_eq_ok h

/-- A run that failed did so in one of its steps. -/
theorem foldlM_eq_error {l : List α} {s : σ} {e : ε} (h : l.foldlM step s = .error e) :
    ∃ s' a, a ∈ l ∧ step s' a = .error e := by
  induction l generalizing s with
  | nil => exact absurd h (by simp [pure, Except.pure])
  | cons a l ih =>
    rw [List.foldlM_cons] at h
    rcases bind_eq_error h with h | ⟨s₁, -, h⟩
    · exact ⟨s, a, List.mem_cons_self, h⟩
    · obtain ⟨s', a', ha', h⟩ := ih h
      exact ⟨s', a', List.mem_cons_of_mem a ha', h⟩

end Runs

end EveIndustryPlanner
