import Mathlib

/-!
# Production networks and their surplus

Activities consume and produce resources and have a value each.  A plan says
how much of every activity is done.  Where an activity produces at most one
resource and only activities that produce nothing earn anything, nothing is
lost by not producing a surplus: some plan below a given one is worth as much
and uses up exactly what it makes of every resource that has no stock.

Removing the surplus of one resource may create one of another, so surplus is
not removed step by step: a smallest plan among those that are worth enough has
none.

## Main definitions

* `Network` — activities, with what they consume, produce and earn.
* `Network.use`, `Network.worth`, `Network.spent` — what a plan amounts to.
* `Network.Affordable`, `Network.Exact` — plans within stock and budget, and those
  among them without surplus.

## Main results

* `Network.exists_smaller` — a plan with a surplus can be made smaller.
* `Network.exists_exact` — **below every affordable plan there is an exact one
  that is worth as much.**
* `Network.worth_le` — earnings bounded activity by activity bound the worth.
-/

namespace EveIndustryPlanner

/-- Activities that produce at most one resource each, and earn nothing if they
produce any. -/
structure Network (J R : Type*) where
  value : J → ℝ
  consumed : J → R → ℝ
  produced : J → R → ℝ
  consumed_nonneg : ∀ j r, 0 ≤ consumed j r
  produced_nonneg : ∀ j r, 0 ≤ produced j r
  produced_single : ∀ j r r', produced j r ≠ 0 → produced j r' ≠ 0 → r = r'
  value_nonpos : ∀ j r, produced j r ≠ 0 → value j ≤ 0

namespace Network

variable {J R : Type*} [Fintype J] (N : Network J R)

/-- What a plan uses of a resource beyond what it makes. -/
def use (x : J → ℝ) (r : R) : ℝ := ∑ j, (N.consumed j r - N.produced j r) * x j

/-- What a plan earns. -/
def worth (x : J → ℝ) : ℝ := ∑ j, N.value j * x j

/-- What a plan costs to buy in. -/
def spent (x : J → ℝ) : ℝ := ∑ j, max (-N.value j) 0 * x j

/-- A plan within stock and budget. -/
structure Affordable (stock : R → ℝ) (budget : ℝ) (x : J → ℝ) : Prop where
  nonneg : ∀ j, 0 ≤ x j
  spent : N.spent x ≤ budget
  use : ∀ r, N.use x r ≤ stock r

/-- A plan without surplus of any resource that has no stock. -/
structure Exact (stock : R → ℝ) (budget : ℝ) (x : J → ℝ) : Prop extends
    N.Affordable stock budget x where
  exact : ∀ r, stock r = 0 → N.use x r = 0

/-! ### Doing less of one activity -/

/-- A weighted sum after one of its terms is lowered. -/
theorem sum_mul_update [DecidableEq J] (f x : J → ℝ) (j : J) (δ : ℝ) :
    ∑ k, f k * Function.update x j (x j - δ) k = (∑ k, f k * x k) - f j * δ := by
  have hterm : ∀ k, f k * Function.update x j (x j - δ) k =
      f k * x k - if k = j then f j * δ else 0 := by
    intro k
    by_cases hk : k = j
    · subst hk
      rw [Function.update_self, if_pos rfl]
      ring
    · rw [Function.update_of_ne hk, if_neg hk, sub_zero]
  rw [Finset.sum_congr rfl fun k _ => hterm k, Finset.sum_sub_distrib]
  simp

variable {N} {stock : R → ℝ} {budget : ℝ}

/-- A resource with a surplus has an activity that makes more of it than it takes. -/
theorem exists_producer {x : J → ℝ} {r : R} (hx : ∀ j, 0 ≤ x j) (hr : N.use x r < 0) :
    ∃ j, 0 < x j ∧ N.consumed j r < N.produced j r := by
  -- otherwise every term of the use is at least zero
  by_contra hnone
  refine absurd hr (not_lt.mpr (Finset.sum_nonneg fun j _ => ?_))
  rcases (hx j).lt_or_eq with hj | hj
  · have hle : N.produced j r ≤ N.consumed j r := by
      rw [← not_lt]
      intro hlt
      exact hnone ⟨j, hj, hlt⟩
    exact mul_nonneg (sub_nonneg.mpr hle) hj.le
  · rw [← hj, mul_zero]

/-- A plan with a surplus can be made smaller: do a little less of an activity
that produces it. -/
theorem exists_smaller [DecidableEq J] {x : J → ℝ} (h : N.Affordable stock budget x) {r : R}
    (hstock : stock r = 0) (hr : N.use x r ≠ 0) :
    ∃ y, N.Affordable stock budget y ∧ y ≤ x ∧ N.worth x ≤ N.worth y ∧ ∑ j, y j < ∑ j, x j := by
  have hneg : N.use x r < 0 := lt_of_le_of_ne (hstock ▸ h.use r) hr
  obtain ⟨j, hxj, hmakes⟩ := exists_producer h.nonneg hneg
  have hproduced : N.produced j r ≠ 0 := ne_of_gt ((N.consumed_nonneg j r).trans_lt hmakes)
  have hgain : 0 < N.produced j r - N.consumed j r := sub_pos.mpr hmakes
  -- small enough to keep the amount nonnegative and the surplus a surplus
  obtain ⟨δ, hδ, hδx, hδr⟩ : ∃ δ, 0 < δ ∧ δ ≤ x j ∧
      (N.produced j r - N.consumed j r) * δ ≤ -N.use x r := by
    refine ⟨min (x j) (-N.use x r / (N.produced j r - N.consumed j r)), ?_, min_le_left _ _, ?_⟩
    · exact lt_min hxj (div_pos (neg_pos.mpr hneg) hgain)
    · calc (N.produced j r - N.consumed j r) *
            min (x j) (-N.use x r / (N.produced j r - N.consumed j r))
          ≤ (N.produced j r - N.consumed j r) *
            (-N.use x r / (N.produced j r - N.consumed j r)) :=
            mul_le_mul_of_nonneg_left (min_le_right _ _) hgain.le
        _ = -N.use x r := mul_div_cancel₀ _ hgain.ne'
  refine ⟨Function.update x j (x j - δ), ⟨?_, ?_, ?_⟩, ?_, ?_, ?_⟩
  · intro k
    by_cases hk : k = j
    · subst hk
      rw [Function.update_self]
      linarith
    · rw [Function.update_of_ne hk]
      exact h.nonneg k
  · -- less is done, so no more is spent
    have hcost : 0 ≤ max (-N.value j) 0 * δ := mul_nonneg (le_max_right _ _) hδ.le
    have := h.spent
    rw [spent, sum_mul_update]
    rw [spent] at this
    linarith
  · intro r'
    have hr' := h.use r'
    rw [use, sum_mul_update]
    rw [use] at hr'
    by_cases hrr : r' = r
    · subst hrr
      rw [use] at hδr
      linarith
    · -- the activity produces nothing but `r`, so doing less of it uses less of the rest
      have hnone : N.produced j r' = 0 := by
        by_contra hne
        exact hrr (N.produced_single j r' r hne hproduced)
      have htakes : 0 ≤ N.consumed j r' * δ := mul_nonneg (N.consumed_nonneg j r') hδ.le
      rw [hnone]
      linarith
  · intro k
    by_cases hk : k = j
    · subst hk
      rw [Function.update_self]
      linarith
    · rw [Function.update_of_ne hk]
  · -- what produces earns nothing, so less of it is worth no less
    have hvalue : N.value j * δ ≤ 0 :=
      mul_nonpos_of_nonpos_of_nonneg (N.value_nonpos j r hproduced) hδ.le
    rw [worth, worth, sum_mul_update]
    linarith
  · have hsum := sum_mul_update (fun _ => (1 : ℝ)) x j δ
    simp only [one_mul] at hsum
    linarith

/-! ### The smallest plan that is worth enough -/

/-- The affordable plans below `x` that are worth as much are a compact set. -/
theorem isCompact_below (x : J → ℝ) :
    IsCompact {y | N.Affordable stock budget y ∧ y ≤ x ∧ N.worth x ≤ N.worth y} := by
  have hsum : ∀ f : J → ℝ, Continuous fun y : J → ℝ => ∑ j, f j * y j := by
    intro f
    exact continuous_finsetSum _ fun j _ => continuous_const.mul (continuous_apply j)
  have hclosed : IsClosed {y : J → ℝ | N.spent y ≤ budget ∧ (∀ r, N.use y r ≤ stock r) ∧
      N.worth x ≤ N.worth y} := by
    have huse : IsClosed {y : J → ℝ | ∀ r, N.use y r ≤ stock r} := by
      have hinter : {y : J → ℝ | ∀ r, N.use y r ≤ stock r} =
          ⋂ r, {y : J → ℝ | N.use y r ≤ stock r} := by
        ext y
        simp
      rw [hinter]
      exact isClosed_iInter fun r => isClosed_le (hsum _) continuous_const
    exact (isClosed_le (hsum _) continuous_const).inter
      (huse.inter (isClosed_le continuous_const (hsum _)))
  have heq : {y | N.Affordable stock budget y ∧ y ≤ x ∧ N.worth x ≤ N.worth y} =
      Set.Icc 0 x ∩ {y : J → ℝ | N.spent y ≤ budget ∧ (∀ r, N.use y r ≤ stock r) ∧
        N.worth x ≤ N.worth y} := by
    ext y
    constructor
    · rintro ⟨hy, hyx, hworth⟩
      exact ⟨⟨hy.nonneg, hyx⟩, hy.spent, hy.use, hworth⟩
    · rintro ⟨⟨hnonneg, hyx⟩, hspent, huse, hworth⟩
      exact ⟨⟨hnonneg, hspent, huse⟩, hyx, hworth⟩
  rw [heq]
  exact isCompact_Icc.inter_right hclosed

/-- **Below every affordable plan there is an exact one that is worth as much.** -/
theorem exists_exact [DecidableEq J] {x : J → ℝ} (h : N.Affordable stock budget x) :
    ∃ y, N.Exact stock budget y ∧ y ≤ x ∧ N.worth x ≤ N.worth y := by
  have hne : {y | N.Affordable stock budget y ∧ y ≤ x ∧ N.worth x ≤ N.worth y}.Nonempty :=
    ⟨x, h, le_rfl, le_rfl⟩
  have hcont : Continuous fun y : J → ℝ => ∑ j, y j :=
    continuous_finsetSum _ fun j _ => continuous_apply j
  obtain ⟨y, ⟨hy, hyx, hworth⟩, hmin⟩ :=
    (isCompact_below (N := N) x).exists_isMinOn hne hcont.continuousOn
  refine ⟨y, ⟨hy, ?_⟩, hyx, hworth⟩
  intro r hr
  -- a surplus of the smallest plan would leave room for a smaller one
  by_contra hsurplus
  obtain ⟨z, hz, hzy, hworth', hlt⟩ := exists_smaller hy hr hsurplus
  have := hmin (a := z) ⟨hz, hzy.trans hyx, hworth.trans hworth'⟩
  exact absurd hlt (not_lt.mpr this)

/-- Earnings bounded activity by activity bound the worth. -/
theorem worth_le {x u : J → ℝ} (hx : ∀ j, 0 ≤ x j) (hu : ∀ j, 0 < N.value j → x j ≤ u j) :
    N.worth x ≤ ∑ j, max (N.value j) 0 * u j := by
  refine Finset.sum_le_sum fun j _ => ?_
  by_cases hj : 0 < N.value j
  · rw [max_eq_left hj.le]
    exact mul_le_mul_of_nonneg_left (hu j hj) hj.le
  · have hj := not_lt.mp hj
    rw [max_eq_right hj, zero_mul]
    exact mul_nonpos_of_nonpos_of_nonneg hj (hx j)

end Network

end EveIndustryPlanner
