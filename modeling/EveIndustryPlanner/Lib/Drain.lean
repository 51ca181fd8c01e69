import Mathlib

/-!
# Loops that eat up their input

A reader that takes one item after another off its input until nothing is left
is a partial step on its state under which some size shrinks.  `Drain` packs
the step with the size; `Drain.run` is the loop and `Drain.trace` the states it
passes through.

## Main definitions

* `Drain` — a partial step and a size it shrinks.
* `Drain.run`, `Drain.trace` — the loop, and the states after each step of it.
* `Drain.logged` — the loop with a note on each step.

## Main results

* `Drain.trace_of_path` — the trace is the one path to an empty state.
* `Drain.run_encoded` — **a stream of encoded items is consumed exactly, item by item.**
-/

namespace EveIndustryPlanner

/-- A partial step on states that shrinks a size. -/
structure Drain (σ : Type*) where
  /-- What is left of the input. -/
  size : σ → ℕ
  /-- Take one item off the input. -/
  step : σ → Option σ
  size_lt : ∀ {s s' : σ}, step s = some s' → size s' < size s

namespace Drain

variable {σ : Type*} (p : Drain σ)

/-- Step until the input is empty. -/
def run (s : σ) : Option σ :=
  if p.size s = 0 then some s
  else
    match _h : p.step s with
    | none => none
    | some s' => run s'
termination_by p.size s
decreasing_by exact p.size_lt _h

/-- The state after each step of `run`. -/
def trace (s : σ) : Option (List σ) :=
  if p.size s = 0 then some []
  else
    match _h : p.step s with
    | none => none
    | some s' => (trace s').map (s' :: ·)
termination_by p.size s
decreasing_by exact p.size_lt _h

variable {p}

theorem size_ne_zero_of_step {s s' : σ} (h : p.step s = some s') : p.size s ≠ 0 := by
  have := p.size_lt h
  omega

theorem run_of_size_eq_zero {s : σ} (h : p.size s = 0) : p.run s = some s := by
  rw [run, if_pos h]

theorem run_of_step {s s' : σ} (h : p.step s = some s') : p.run s = p.run s' := by
  rw [run, if_neg (size_ne_zero_of_step h)]
  split
  · next hn => rw [h] at hn; exact absurd hn (by simp)
  · next s₁ hs => rw [h] at hs; rw [Option.some.inj hs]

theorem run_of_step_eq_none {s : σ} (hs : p.size s ≠ 0) (h : p.step s = none) : p.run s = none := by
  rw [run, if_neg hs]
  split
  · rfl
  · next s₁ hs₁ => rw [h] at hs₁; exact absurd hs₁ (by simp)

theorem trace_of_size_eq_zero {s : σ} (h : p.size s = 0) : p.trace s = some [] := by
  rw [trace, if_pos h]

theorem trace_of_step {s s' : σ} (h : p.step s = some s') :
    p.trace s = (p.trace s').map (s' :: ·) := by
  rw [trace, if_neg (size_ne_zero_of_step h)]
  split
  · next hn => rw [h] at hn; exact absurd hn (by simp)
  · next s₁ hs => rw [h] at hs; rw [Option.some.inj hs]

/-- A loop that got through either had nothing to do or took a step. -/
theorem trace_eq_some_cases {s : σ} {l : List σ} (h : p.trace s = some l) :
    (p.size s = 0 ∧ l = []) ∨
      ∃ s' l', p.step s = some s' ∧ p.trace s' = some l' ∧ l = s' :: l' := by
  by_cases hz : p.size s = 0
  · rw [trace_of_size_eq_zero hz] at h
    exact Or.inl ⟨hz, (Option.some.inj h).symm⟩
  · cases hs : p.step s with
    | none =>
      rw [trace, if_neg hz] at h
      split at h
      · exact absurd h (by simp)
      · next s₁ hs₁ => rw [hs] at hs₁; exact absurd hs₁ (by simp)
    | some s' =>
      rw [trace_of_step hs, Option.map_eq_some_iff] at h
      obtain ⟨l', hl', rfl⟩ := h
      exact Or.inr ⟨s', l', rfl, hl', rfl⟩

/-- `l` lists the states after the steps from `s`, the last of them empty. -/
def Path (p : Drain σ) : σ → List σ → Prop
  | s, [] => p.size s = 0
  | s, s' :: l => p.step s = some s' ∧ Path p s' l

theorem trace_of_path {s : σ} {l : List σ} (h : p.Path s l) : p.trace s = some l := by
  induction l generalizing s with
  | nil => exact trace_of_size_eq_zero h
  | cons s' l ih => rw [trace_of_step h.1, ih h.2, Option.map_some]

/-! ### Notes on steps -/

/-- The same steps, each with a note. -/
def logged {α : Type*} (p : Drain σ) (note : σ → σ → α) : Drain (σ × List α) where
  size s := p.size s.1
  step s := (p.step s.1).map fun s' => (s', s.2 ++ [note s.1 s'])
  size_lt := by
    intro s s' h
    obtain ⟨s₁, hs₁, rfl⟩ := Option.map_eq_some_iff.mp h
    exact p.size_lt hs₁

section Logged

variable {α : Type*} {note : σ → σ → α}

/-- The notes change nothing. -/
theorem run_logged_map_fst (s : σ) (log : List α) :
    ((p.logged note).run (s, log)).map Prod.fst = p.run s := by
  induction hn : p.size s using Nat.strong_induction_on generalizing s log with
  | h n ih =>
    have hsize : (p.logged note).size (s, log) = p.size s := rfl
    by_cases hz : p.size s = 0
    · rw [run_of_size_eq_zero hz, run_of_size_eq_zero (hsize.trans hz)]
      rfl
    · cases hs : p.step s with
      | none =>
        have hs' : (p.logged note).step (s, log) = none := by simp [logged, hs]
        rw [run_of_step_eq_none hz hs, run_of_step_eq_none (hsize ▸ hz) hs']
        rfl
      | some s' =>
        have hs' : (p.logged note).step (s, log) = some (s', log ++ [note s s']) := by
          simp [logged, hs]
        rw [run_of_step hs, run_of_step hs']
        exact ih (p.size s') (hn ▸ p.size_lt hs) s' _ rfl

/-- Each note is about a step, and there is none only if there was nothing to do. -/
theorem notes_of_run_logged {s s' : σ} {log log' : List α}
    (h : (p.logged note).run (s, log) = some (s', log')) :
    ∃ notes, log' = log ++ notes ∧ (notes = [] ↔ p.size s = 0) ∧
      ∀ a ∈ notes, ∃ s₁ s₂, p.step s₁ = some s₂ ∧ a = note s₁ s₂ := by
  induction hn : p.size s using Nat.strong_induction_on generalizing s log with
  | h n ih =>
    have hsize : (p.logged note).size (s, log) = p.size s := rfl
    by_cases hz : p.size s = 0
    · rw [run_of_size_eq_zero (hsize.trans hz)] at h
      obtain ⟨rfl, rfl⟩ := Prod.mk.injEq .. ▸ Option.some.inj h
      exact ⟨[], by simp, by simp [← hn, hz], by simp⟩
    · cases hs : p.step s with
      | none =>
        have hs' : (p.logged note).step (s, log) = none := by simp [logged, hs]
        rw [run_of_step_eq_none (hsize ▸ hz) hs'] at h
        exact absurd h (by simp)
      | some s₁ =>
        have hs' : (p.logged note).step (s, log) = some (s₁, log ++ [note s s₁]) := by
          simp [logged, hs]
        rw [run_of_step hs'] at h
        obtain ⟨notes, rfl, -, hnotes⟩ := ih (p.size s₁) (hn ▸ p.size_lt hs) h rfl
        refine ⟨note s s₁ :: notes, by simp, by simp [← hn, hz], ?_⟩
        intro a ha
        rcases List.mem_cons.mp ha with rfl | ha
        · exact ⟨s, s₁, hs, rfl⟩
        · exact hnotes a ha

end Logged

/-! ### Encoded streams -/

/-- **A stream of encoded items is consumed exactly, item by item**: if a step
takes one encoded item `a` off the front and moves the rest of the state by
`f`, the loop over a stream of encoded items folds `f` over them. -/
theorem run_encoded {τ β α : Type*} {q : Drain (τ × List β)}
    (hsize : ∀ t data, q.size (t, data) = data.length)
    (encode : α → List β) (hne : ∀ a, encode a ≠ []) (f : τ → α → Option τ) {as : List α}
    (hstep : ∀ a ∈ as, ∀ t rest, q.step (t, encode a ++ rest) = (f t a).map (·, rest)) (t : τ) :
    q.run (t, as.flatMap encode) = (as.foldlM f t).map (·, []) := by
  -- Induction on the items, with the state free: each step changes it.
  induction as generalizing t with
  | nil =>
    rw [List.flatMap_nil, run_of_size_eq_zero (by rw [hsize]; rfl), List.foldlM_nil]
    rfl
  | cons a as ih =>
    rw [List.flatMap_cons, List.foldlM_cons]
    have h := hstep a List.mem_cons_self t (as.flatMap encode)
    have ih := ih fun b hb => hstep b (List.mem_cons_of_mem a hb)
    cases hf : f t a with
    | some t' =>
      rw [hf, Option.map_some] at h
      rw [run_of_step h, ih]
      rfl
    | none =>
      rw [hf, Option.map_none] at h
      -- an encoded item is not empty, so the loop does not end before the failing step
      have hpos : q.size (t, encode a ++ as.flatMap encode) ≠ 0 := by
        have := List.length_pos_iff.mpr (hne a)
        rw [hsize, List.length_append]
        omega
      rw [run_of_step_eq_none hpos h]
      rfl

end Drain

end EveIndustryPlanner
