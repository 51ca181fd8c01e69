import Mathlib

/-!
# Chains that may not end

From each place there may be a next one.  A chain ends where there is none, or it
goes on forever.

## Main definitions

* `follow` — the place after some steps.
* `EndsAfter`, `Endless` — the chain ends, or goes on forever.
* `visited` — the places on the way.

## Main results

* `endless_iff` — a chain that does not go on forever ends.
* `endless_of_loop` — **a chain that comes back to a place goes on forever.**
-/

namespace EveIndustryPlanner

section Chase

variable {α : Type*} (move : α → Option α)

/-- The place after some steps. -/
def follow : ℕ → α → Option α
  | 0, a => some a
  | n + 1, a => (move a).bind (follow n)

/-- The chain ends after some steps. -/
def EndsAfter (n : ℕ) (a b : α) : Prop := follow move n a = some b ∧ move b = none

/-- The chain goes on forever. -/
def Endless (a : α) : Prop := ∀ n, (follow move n a).isSome = true

/-- The places on the way, as far as the chain goes. -/
def visited : ℕ → α → List α
  | 0, a => [a]
  | n + 1, a => a :: ((move a).map (visited n)).getD []

variable {move} {a b : α}

theorem follow_succ_of_some (h : move a = some b) (n : ℕ) :
    follow move (n + 1) a = follow move n b := by rw [follow, h, Option.bind_some]

theorem follow_add (n m : ℕ) (a : α) :
    follow move (n + m) a = (follow move n a).bind (follow move m) := by
  induction n generalizing a with
  | zero => rw [Nat.zero_add, follow, Option.bind_some]
  | succ n ih =>
    rw [Nat.succ_add, follow, follow, Option.bind_assoc]
    exact congrArg _ (funext ih)

theorem visited_succ_of_some (h : move a = some b) (n : ℕ) :
    visited move (n + 1) a = a :: visited move n b := by
  rw [visited, h, Option.map_some, Option.getD_some]

/-- Where there is no next place, none other is visited. -/
theorem visited_of_last (h : move a = none) (n : ℕ) : visited move n a = [a] := by
  cases n with
  | zero => rfl
  | succ n => rw [visited, h]; rfl

/-- One more place. -/
theorem visited_succ {n : ℕ} (h : follow move n a = some b) :
    visited move (n + 1) a = visited move n a ++ (move b).toList := by
  induction n generalizing a with
  | zero =>
    obtain rfl := Option.some.inj h
    cases hnext : move a with
    | none => rw [visited_of_last hnext]; rfl
    | some c => rw [visited_succ_of_some hnext]; rfl
  | succ n ih =>
    obtain ⟨c, hc, hfollow⟩ := Option.bind_eq_some_iff.mp h
    rw [visited_succ_of_some hc, ih hfollow, visited_succ_of_some hc, List.cons_append]

theorem follow_succ {n : ℕ} (h : follow move n a = some b) :
    follow move (n + 1) a = move b := by
  rw [follow_add, h, Option.bind_some, follow]
  cases move b with
  | none => rfl
  | some c => rfl

theorem Endless.step (h : Endless move a) : ∃ b, move a = some b ∧ Endless move b := by
  obtain ⟨b, hb⟩ := Option.isSome_iff_exists.mp (h 1)
  obtain ⟨b', hb', -⟩ := Option.bind_eq_some_iff.mp hb
  refine ⟨b', hb', fun n => ?_⟩
  rw [← follow_succ_of_some hb' n]
  exact h (n + 1)

theorem EndsAfter.zero (h : EndsAfter move 0 a b) : a = b ∧ move a = none := by
  obtain rfl := Option.some.inj h.1
  exact ⟨rfl, h.2⟩

theorem EndsAfter.succ {n : ℕ} (h : EndsAfter move (n + 1) a b) :
    ∃ a', move a = some a' ∧ EndsAfter move n a' b := by
  obtain ⟨a', ha', hfollow⟩ := Option.bind_eq_some_iff.mp h.1
  exact ⟨a', ha', hfollow, h.2⟩

/-- Behind its end a chain has no places. -/
theorem EndsAfter.follow_eq_none {n : ℕ} (h : EndsAfter move n a b) {m : ℕ} (hm : n < m) :
    follow move m a = none := by
  obtain ⟨k, rfl⟩ := Nat.exists_eq_add_of_lt hm
  rw [Nat.add_assoc, follow_add, h.1, Option.bind_some, follow, h.2, Option.bind_none]

/-- Behind its end a chain has no more places to visit. -/
theorem EndsAfter.visited_eq {n m : ℕ} (h : EndsAfter move n a b) (hm : n ≤ m) :
    visited move m a = visited move n a := by
  induction n generalizing a m with
  | zero =>
    obtain ⟨-, hnone⟩ := h.zero
    rw [visited_of_last hnone, visited_of_last hnone]
  | succ n ih =>
    obtain ⟨a', ha', hends⟩ := h.succ
    obtain ⟨m, rfl⟩ := Nat.exists_eq_succ_of_ne_zero (by omega : m ≠ 0)
    rw [visited_succ_of_some ha', visited_succ_of_some ha', ih hends (by omega)]

/-- A chain that does not go on forever ends. -/
theorem endless_iff : Endless move a ↔ ¬ ∃ n b, EndsAfter move n a b := by
  constructor
  · rintro h ⟨n, b, hends⟩
    have hsome := h (n + 1)
    rw [hends.follow_eq_none (Nat.lt_succ_self n)] at hsome
    exact absurd hsome (by simp)
  · intro h n
    induction n with
    | zero => rfl
    | succ n ih =>
      obtain ⟨b, hb⟩ := Option.isSome_iff_exists.mp ih
      rw [follow_add, hb, Option.bind_some]
      cases hnext : move b with
      | none => exact absurd ⟨n, b, hb, hnext⟩ h
      | some b' => rw [follow_succ_of_some hnext]; rfl

/-- A chain that goes on forever has a place for every step. -/
theorem Endless.length_visited (h : Endless move a) (n : ℕ) :
    (visited move n a).length = n + 1 := by
  induction n generalizing a with
  | zero => rfl
  | succ n ih =>
    obtain ⟨b, hb, hendless⟩ := h.step
    rw [visited_succ_of_some hb, List.length_cons, ih hendless]

/-- **A chain that comes back to a place goes on forever.** -/
theorem endless_of_loop {i j : ℕ} (hij : i < j) (hi : follow move i a = some b)
    (hj : follow move j a = some b) : Endless move a := by
  obtain ⟨d, rfl⟩ := Nat.exists_eq_add_of_lt hij
  rw [Nat.add_assoc, follow_add, hi, Option.bind_some] at hj
  -- the loop can be followed any number of times
  have hround : ∀ k, follow move (i + k * (d + 1)) a = some b := by
    intro k
    induction k with
    | zero => rw [Nat.zero_mul, Nat.add_zero, hi]
    | succ k ih => rw [Nat.succ_mul, ← Nat.add_assoc, follow_add, ih, Option.bind_some, hj]
  rw [endless_iff]
  rintro ⟨n, c, hends⟩
  have hlt : n < i + (n + 1) * (d + 1) := by nlinarith
  have hnone := (hround (n + 1)).symm.trans (hends.follow_eq_none hlt)
  exact absurd hnone (by simp)

end Chase

end EveIndustryPlanner
