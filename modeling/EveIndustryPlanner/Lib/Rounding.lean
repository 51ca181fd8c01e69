import Mathlib

/-!
# Natural numbers as doubles

A double has 53 significant bits.  A natural number that needs more is rounded
to the nearest number that has no more, and to the one with an even last digit
if two are equally near.

## Main definitions

* `unitInLastPlace` — the distance of the doubles around a number.
* `nearestDouble` — what a number is converted to.

## Main results

* `nearestDouble_of_le` — **numbers up to `2 ^ 53` are doubles.**
* `nearestDouble_pos` — no positive number is rounded to zero.
-/

namespace EveIndustryPlanner

/-- The distance of the doubles around a number. -/
def unitInLastPlace (n : ℕ) : ℕ := 2 ^ (n.log2 - 52)

/-- The double nearest to a natural number. -/
def nearestDouble (n : ℕ) : ℕ :=
  let unit := unitInLastPlace n
  let significand := n / unit
  let rest := 2 * (n % unit)
  if rest < unit ∨ rest = unit ∧ significand % 2 = 0 then significand * unit
  else (significand + 1) * unit

theorem unitInLastPlace_pos (n : ℕ) : 0 < unitInLastPlace n := Nat.two_pow_pos _

theorem unitInLastPlace_of_lt {n : ℕ} (h : n < 2 ^ 53) : unitInLastPlace n = 1 := by
  have hlog : n.log2 ≤ 52 := by
    by_cases hn : n = 0
    · simp [hn]
    · have := (Nat.log2_lt hn).mpr h
      omega
  rw [unitInLastPlace, Nat.sub_eq_zero_of_le hlog, pow_zero]

theorem nearestDouble_of_dvd {n : ℕ} (h : unitInLastPlace n ∣ n) : nearestDouble n = n := by
  have hrest : n % unitInLastPlace n = 0 := Nat.mod_eq_zero_of_dvd h
  simp only [nearestDouble, hrest, Nat.mul_zero]
  rw [if_pos (Or.inl (unitInLastPlace_pos n)), Nat.div_mul_cancel h]

/-- **Numbers up to `2 ^ 53` are doubles.** -/
theorem nearestDouble_of_le {n : ℕ} (h : n ≤ 2 ^ 53) : nearestDouble n = n := by
  apply nearestDouble_of_dvd
  rcases h.lt_or_eq with h | rfl
  · rw [unitInLastPlace_of_lt h]
    exact one_dvd n
  · rw [unitInLastPlace, Nat.log2_two_pow]
    exact Nat.pow_dvd_pow 2 (by omega)

@[simp] theorem nearestDouble_zero : nearestDouble 0 = 0 := nearestDouble_of_le (Nat.zero_le _)

/-- No positive number is rounded to zero. -/
theorem nearestDouble_pos {n : ℕ} (h : 0 < n) : 0 < nearestDouble n := by
  have hunit : unitInLastPlace n ≤ n := by
    refine le_trans ?_ (Nat.log2_self_le h.ne')
    exact Nat.pow_le_pow_right Nat.two_pos (Nat.sub_le _ _)
  have hdiv : 0 < n / unitInLastPlace n := Nat.div_pos hunit (unitInLastPlace_pos n)
  simp only [nearestDouble]
  split
  · exact Nat.mul_pos hdiv (unitInLastPlace_pos n)
  · exact Nat.mul_pos (Nat.succ_pos _) (unitInLastPlace_pos n)

/-- Halfway between two doubles the even one is taken. -/
example : nearestDouble (2 ^ 53 + 1) = 2 ^ 53 ∧ nearestDouble (2 ^ 53 + 3) = 2 ^ 53 + 4 := by
  decide +kernel

end EveIndustryPlanner
