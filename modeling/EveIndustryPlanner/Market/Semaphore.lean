import EveIndustryPlanner.Lib.Monitor

/-!
# The semaphore

Threads count, and wait for conditions on the count.  Conditions are arbitrary:
some callers wait for a count of zero.  Every operation that changes the count
notifies the threads that wait, but the two that acquire.

## Main definitions

* `release`, `acquire`, … — the operations, each what it waits for and what it does.
* `Call`, `Call.operation` — their calls.
* `Quiet` — a step in which nothing is acquired that others wait to be gone.

## Main results

* `noLostWakeup_iff` — **when no wake-up is lost in a run.**
-/

namespace EveIndustryPlanner
namespace Market
namespace Semaphore

/-! ### The operations -/

/-- The cast of a number of units; the assertion in front of it only ends the program. -/
def toInt (n : UInt64) : Int64 := n.toInt64

/-- What an operation does: the new count, whether it notifies, and what it returns. -/
abbrev Op := Operation Int64 (Option Bool)

/-- An operation that waits for nothing. -/
def always (effect : Int64 → Effect Int64 (Option Bool)) : Op := ⟨fun _ => true, effect⟩

def release (n : UInt64) : Op := always fun count => ⟨count + toInt n, true, none⟩

def acquire (n : UInt64) : Op :=
  ⟨fun count => toInt n ≤ count, fun count => ⟨count - toInt n, false, none⟩⟩

/-- What is done with the lock held has no access to the count. -/
def acquireAndDo (n : UInt64) : Op :=
  ⟨fun count => toInt n ≤ count, fun count => ⟨count - toInt n, false, none⟩⟩

def waitFor (p : Int64 → Bool) : Op := ⟨p, fun count => ⟨count, false, none⟩⟩

def setTo (n : Int64) : Op := always fun _ => ⟨n, true, none⟩

def when (p : Int64 → Bool) (f : Int64 → Int64) : Op :=
  always fun count => if p count then ⟨f count, true, some true⟩ else ⟨count, false, some false⟩

def ifThenSetTo (p : Int64 → Bool) (n : Int64) : Op :=
  always fun count => if p count then ⟨n, true, some true⟩ else ⟨count, false, some false⟩

def waitAndDo (p : Int64 → Bool) (f : Int64 → Int64) : Op :=
  ⟨p, fun count => ⟨f count, true, none⟩⟩

def waitAndSetTo (p : Int64 → Bool) (n : Int64) : Op := ⟨p, fun _ => ⟨n, true, none⟩⟩

/-- Calls of the operations. -/
inductive Call where
  | release (n : UInt64)
  | acquire (n : UInt64)
  | acquireAndDo (n : UInt64)
  | waitFor (p : Int64 → Bool)
  | setTo (n : Int64)
  | when (p : Int64 → Bool) (f : Int64 → Int64)
  | ifThenSetTo (p : Int64 → Bool) (n : Int64)
  | waitAndDo (p : Int64 → Bool) (f : Int64 → Int64)
  | waitAndSetTo (p : Int64 → Bool) (n : Int64)

/-- The operation that is called. -/
def Call.operation : Call → Op
  | release n => Semaphore.release n
  | acquire n => Semaphore.acquire n
  | acquireAndDo n => Semaphore.acquireAndDo n
  | waitFor p => Semaphore.waitFor p
  | setTo n => Semaphore.setTo n
  | when p f => Semaphore.when p f
  | ifThenSetTo p n => Semaphore.ifThenSetTo p n
  | waitAndDo p f => Semaphore.waitAndDo p f
  | waitAndSetTo p n => Semaphore.waitAndSetTo p n

/-- The units that a call acquires. -/
def Call.acquired? : Call → Option UInt64
  | acquire n => some n
  | acquireAndDo n => some n
  | _ => none

/-! ### Wake-ups -/

/-- A count and the threads that use it. -/
abbrev State (ι : Type) := Monitor ι Int64 Call (Option Bool)

/-- A step of one of the threads. -/
abbrev Action (ι : Type) := Monitor.Action ι Call

section Wakeups

variable {ι : Type} [DecidableEq ι]

/-- Nobody sleeps whose condition holds of the count. -/
abbrev NoLostWakeup (s : State ι) : Prop := s.NoLostWakeup Call.operation

/-- One step. -/
abbrev step (s : State ι) (a : Action ι) : Option (State ι) := s.step Call.operation a

/-- The count at the beginning. -/
def start (n : Int64) : State ι := Monitor.initial n

/-- If units are acquired in this step, no thread that is asleep waits for a condition
that holds of the count without them. -/
def Quiet (s : State ι) (a : Action ι) : Prop :=
  ∀ i call n, s.attempted a = some (i, call) → call.acquired? = some n → toInt n ≤ s.shared →
    ∀ j call', j ≠ i → s.threads j = .blocked call' false →
      call'.operation.condition (s.shared - toInt n) = false

/-- An operation that does not notify acquires units or leaves the count alone. -/
theorem Call.effect_of_not_notify (call : Call) {count : Int64}
    (h : (call.operation.effect count).notify = false) :
    (∃ n, call.acquired? = some n ∧ (call.operation.condition count = true ↔ toInt n ≤ count) ∧
      (call.operation.effect count).state = count - toInt n) ∨
    call.acquired? = none ∧ (call.operation.effect count).state = count := by
  cases call with
  | release n => exact absurd h (by simp [operation, Semaphore.release, always])
  | acquire n => exact Or.inl ⟨n, rfl, decide_eq_true_iff, rfl⟩
  | acquireAndDo n => exact Or.inl ⟨n, rfl, decide_eq_true_iff, rfl⟩
  | waitFor p => exact Or.inr ⟨rfl, rfl⟩
  | setTo n => exact absurd h (by simp [operation, Semaphore.setTo, always])
  | when p f =>
    refine Or.inr ⟨rfl, ?_⟩
    simp only [operation, Semaphore.when, always] at h ⊢
    split at h
    · exact absurd h (by simp)
    · next hp => rw [if_neg hp]
  | ifThenSetTo p n =>
    refine Or.inr ⟨rfl, ?_⟩
    simp only [operation, Semaphore.ifThenSetTo, always] at h ⊢
    split at h
    · exact absurd h (by simp)
    · next hp => rw [if_neg hp]
  | waitAndDo p f => exact absurd h (by simp [operation, Semaphore.waitAndDo])
  | waitAndSetTo p n => exact absurd h (by simp [operation, Semaphore.waitAndSetTo])

/-- Units are acquired without a notification. -/
theorem Call.effect_of_acquired {call : Call} {n : UInt64} (h : call.acquired? = some n)
    (count : Int64) :
    (call.operation.condition count = true ↔ toInt n ≤ count) ∧
      (call.operation.effect count).notify = false ∧
        (call.operation.effect count).state = count - toInt n := by
  cases call with
  | acquire m =>
    obtain rfl := Option.some.inj h
    exact ⟨decide_eq_true_iff, rfl, rfl⟩
  | acquireAndDo m =>
    obtain rfl := Option.some.inj h
    exact ⟨decide_eq_true_iff, rfl, rfl⟩
  | _ => exact absurd h (by simp [acquired?])

omit [DecidableEq ι] in
/-- While no wake-up was lost, the harmless steps are the quiet ones. -/
theorem harmless_iff_quiet {s : State ι} (h : NoLostWakeup s) (a : Action ι) :
    s.Harmless Call.operation a ↔ Quiet s a := by
  constructor
  · intro hharmless i call n hattempted hacquired hle j call' hne hblocked
    obtain ⟨hcondition, hnotify, hstate⟩ := Call.effect_of_acquired hacquired s.shared
    have hsleeps := hharmless i call hattempted (hcondition.mpr hle) hnotify j call' hne hblocked
    rwa [hstate] at hsleeps
  · intro hquiet i call hattempted hcondition hnotify j call' hne hblocked
    rcases call.effect_of_not_notify hnotify with ⟨n, hacquired, hwaits, hstate⟩ | ⟨-, hstate⟩
    · rw [hstate]
      exact hquiet i call n hattempted hacquired (hwaits.mp hcondition) j call' hne hblocked
    · -- the count is what it was
      rw [hstate]
      exact h j call' hblocked

/-- **No wake-up is lost in a run exactly if all its steps are quiet.** -/
theorem noLostWakeup_iff (n : Int64) (actions : List (Action ι)) :
    Throughout step NoLostWakeup (start n) actions ↔ AtSteps step Quiet (start n) actions := by
  refine throughout_iff_atSteps (fun s a s' hs hstep => ?_)
    (Monitor.noLostWakeup_initial n) actions
  exact (Monitor.noLostWakeup_step hs hstep).trans (harmless_iff_quiet hs a)

end Wakeups

/-- One thread waits for a count of zero, and another takes the last unit. -/
def lastUnit : List (Action Bool) :=
  [.call false (.waitFor fun count => count == 0), .call true (.acquire 1)]

/-- The thread that waits is not woken. -/
theorem not_noLostWakeup_lastUnit :
    ¬ ∀ n (actions : List (Action Bool)), Throughout step NoLostWakeup (start n) actions := by
  intro h
  have hrun : lastUnit.foldlM step (start 1) =
      some ⟨0, Function.update (Function.update (fun _ => .outside none) false
        (.blocked (.waitFor fun count => count == 0) false)) true (.outside (some none))⟩ := rfl
  have hlost := (h 1 lastUnit).last hrun false (.waitFor fun count => count == 0) rfl
  exact absurd hlost (by decide)

end Semaphore
end Market
end EveIndustryPlanner
