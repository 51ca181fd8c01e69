import EveIndustryPlanner.Lib.Steps

/-!
# Threads that wait for a condition

Threads share a state that is guarded by a lock.  An operation waits, if it has to,
until its condition holds of the state, changes the state, and may notify the
threads that wait, which marks all of them to look at their conditions again.  A
thread that waits may also wake up without a reason.

## Main definitions

* `Operation` — what an operation waits for and what it does.
* `Monitor`, `Monitor.step` — the threads, and what they may do next.
* `Monitor.NoLostWakeup` — nobody sleeps whose condition holds.
* `Monitor.Harmless` — a step without a notification that makes no condition true.

## Main results

* `Monitor.noLostWakeup_step` — **a step loses no wake-up exactly if it is harmless.**
-/

namespace EveIndustryPlanner

/-- What an operation does. -/
structure Effect (σ ρ : Type*) where
  state : σ
  notify : Bool
  result : ρ

/-- What an operation waits for and what it does then. -/
structure Operation (σ ρ : Type*) where
  condition : σ → Bool
  effect : σ → Effect σ ρ

/-- What a thread is doing. -/
inductive Status (O ρ : Type*) where
  /-- It waits for nothing; its last operation had a result. -/
  | outside (last : Option ρ)
  | blocked (op : O) (marked : Bool)

/-- A thread that waits looks at its condition again. -/
def Status.mark {O ρ : Type*} : Status O ρ → Status O ρ
  | outside last => outside last
  | blocked op _ => blocked op true

theorem Status.mark_ne {O ρ : Type*} {status : Status O ρ} {op : O} :
    status.mark ≠ .blocked op false := by
  cases status with
  | outside last => exact fun h => by cases h
  | blocked op' marked => exact fun h => by cases h

/-- The shared state and the threads. -/
structure Monitor (ι σ O ρ : Type*) where
  shared : σ
  threads : ι → Status O ρ

namespace Monitor

variable {ι σ O ρ : Type*} [DecidableEq ι] (operation : O → Operation σ ρ)

/-- A thread calls an operation, or wakes up in the one it is blocked in. -/
inductive Action (ι O : Type*) where
  | call (i : ι) (op : O)
  | wake (i : ι)

/-- All threads are outside. -/
def initial (shared : σ) : Monitor ι σ O ρ := ⟨shared, fun _ => .outside none⟩

/-- A thread has the lock and looks at the condition of its operation. -/
def attempt (s : Monitor ι σ O ρ) (i : ι) (op : O) : Monitor ι σ O ρ :=
  if (operation op).condition s.shared then
    let e := (operation op).effect s.shared
    let threads := if e.notify then fun j => (s.threads j).mark else s.threads
    ⟨e.state, Function.update threads i (.outside (some e.result))⟩
  else { s with threads := Function.update s.threads i (.blocked op false) }

/-- The operation that an action is about, if the action is possible. -/
def attempted (s : Monitor ι σ O ρ) : Action ι O → Option (ι × O)
  | .call i op =>
    match s.threads i with
    | .outside _ => some (i, op)
    | .blocked _ _ => none
  | .wake i =>
    match s.threads i with
    | .outside _ => none
    | .blocked op _ => some (i, op)

/-- One step. -/
def step (s : Monitor ι σ O ρ) (a : Action ι O) : Option (Monitor ι σ O ρ) :=
  (s.attempted a).map fun e => s.attempt operation e.1 e.2

/-- Nobody sleeps whose condition holds. -/
def NoLostWakeup (s : Monitor ι σ O ρ) : Prop :=
  ∀ i op, s.threads i = .blocked op false → (operation op).condition s.shared = false

/-- If the thread goes on without a notification, nobody else could go on now. -/
def HarmlessAttempt (s : Monitor ι σ O ρ) (i : ι) (op : O) : Prop :=
  (operation op).condition s.shared = true → ((operation op).effect s.shared).notify = false →
    ∀ j op', j ≠ i → s.threads j = .blocked op' false →
      (operation op').condition ((operation op).effect s.shared).state = false

/-- A step after which nobody sleeps for nothing. -/
def Harmless (s : Monitor ι σ O ρ) (a : Action ι O) : Prop :=
  ∀ i op, s.attempted a = some (i, op) → s.HarmlessAttempt operation i op

variable {operation} {s : Monitor ι σ O ρ}

omit [DecidableEq ι] in
theorem noLostWakeup_initial (shared : σ) :
    (initial shared : Monitor ι σ O ρ).NoLostWakeup operation := by
  intro i op h
  cases h

/-- What an attempt does to the other threads. -/
theorem noLostWakeup_attempt (h : s.NoLostWakeup operation) (i : ι) (op : O) :
    (s.attempt operation i op).NoLostWakeup operation ↔ s.HarmlessAttempt operation i op := by
  unfold HarmlessAttempt attempt
  by_cases hcondition : (operation op).condition s.shared = true
  · rw [if_pos hcondition]
    constructor
    · intro hkept _ hnotify j op' hne hblocked
      apply hkept j op'
      simp only [hnotify, Bool.false_eq_true, if_false]
      rwa [Function.update_of_ne hne]
    · intro hharmless j op' hblocked
      have hne : j ≠ i := by
        rintro rfl
        simp only [Function.update_self] at hblocked
        cases hblocked
      cases hnotify : ((operation op).effect s.shared).notify with
      | true =>
        -- everyone who waits is marked
        simp only [hnotify, if_true, Function.update_of_ne hne] at hblocked
        exact absurd hblocked Status.mark_ne
      | false =>
        simp only [hnotify, Bool.false_eq_true, if_false, Function.update_of_ne hne] at hblocked
        exact hharmless hcondition hnotify j op' hne hblocked
  · rw [if_neg hcondition]
    refine iff_of_true (fun j op' hblocked => ?_) fun hcondition' => absurd hcondition' hcondition
    by_cases hj : j = i
    · subst hj
      simp only [Function.update_self] at hblocked
      obtain ⟨rfl, -⟩ := Status.blocked.inj hblocked
      exact Bool.eq_false_iff.mpr hcondition
    · simp only [Function.update_of_ne hj] at hblocked
      exact h j op' hblocked

/-- **A step loses no wake-up exactly if it is harmless.** -/
theorem noLostWakeup_step {a : Action ι O} {s' : Monitor ι σ O ρ}
    (h : s.NoLostWakeup operation) (hstep : s.step operation a = some s') :
    s'.NoLostWakeup operation ↔ s.Harmless operation a := by
  obtain ⟨⟨i, op⟩, hattempted, rfl⟩ := Option.map_eq_some_iff.mp hstep
  rw [noLostWakeup_attempt h]
  constructor
  · rintro hharmless i' op' hattempted'
    obtain ⟨rfl, rfl⟩ := Prod.mk.inj (Option.some.inj (hattempted.symm.trans hattempted'))
    exact hharmless
  · exact fun hharmless => hharmless i op hattempted

end Monitor

end EveIndustryPlanner
