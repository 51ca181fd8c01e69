import Mathlib

/-!
# Trades between two places

Goods are bought from some orders at one place and sold to some orders at
another one, within what the orders want, what can be carried and what can be
spent.

## Main definitions

* `Trade` — the orders of both places.
* `Trade.Feasible`, `Trade.gain` — amounts that can be traded, and what they earn.

## Main results

* `Trade.gain_nonpos` — **nothing is earned where no order buys for more than
  another one sells.**
* `Trade.exists_gain` — something is earned where goods are given away with money.
-/

namespace EveIndustryPlanner

/-- Orders of two places: those that are bought from, and those that are sold to. -/
structure Trade (J I K : Type*) where
  item : J → I
  /-- The order is sold to. -/
  sold : J → Bool
  quantity : J → K
  price : J → K
  /-- What one unit takes up. -/
  volume : J → K

namespace Trade

variable {J I K : Type*} [Fintype J] [DecidableEq I] [Field K] [LinearOrder K]
  (T : Trade J I K)

/-- How much of an item one side trades. -/
def amount (sold : Bool) (x : J → K) (i : I) : K :=
  ∑ j, if T.sold j = sold ∧ T.item j = i then x j else 0

/-- What one side amounts to, with a weight for each order. -/
def total (sold : Bool) (weight : J → K) (x : J → K) : K :=
  ∑ j, if T.sold j = sold then weight j * x j else 0

/-- Amounts that can be traded. -/
structure Feasible (capacity wealth : K) (x : J → K) : Prop where
  bounds : ∀ j, 0 ≤ x j ∧ x j ≤ T.quantity j
  stock : ∀ i, T.amount true x i ≤ T.amount false x i
  capacity : T.total false T.volume x ≤ capacity
  wealth : T.total false T.price x ≤ wealth

/-- What is earned. -/
def gain (x : J → K) : K := T.total true T.price x - T.total false T.price x

variable {T}

omit [LinearOrder K] in
/-- What one side amounts to where the weight of an order is that of its item. -/
theorem total_item (sold : Bool) (t : I → K) (x : J → K) :
    T.total sold (fun j => t (T.item j)) x =
      ∑ i ∈ Finset.univ.image T.item, t i * T.amount sold x i := by
  simp only [amount, Finset.mul_sum]
  rw [Finset.sum_comm, total]
  refine Finset.sum_congr rfl fun j _ => ?_
  rw [Finset.sum_eq_single (T.item j)]
  · by_cases h : T.sold j = sold <;> simp [h]
  · intro i _ hi
    simp [hi.symm]
  · intro hj
    exact absurd (Finset.mem_image_of_mem T.item (Finset.mem_univ j)) hj

omit [DecidableEq I] [LinearOrder K] in
/-- An amount from one order alone. -/
theorem total_single [DecidableEq J] {sold : Bool} (weight : J → K) (j : J) (δ : K) :
    T.total sold weight (Function.update 0 j δ) = if T.sold j = sold then weight j * δ else 0 := by
  rw [total, Finset.sum_eq_single j]
  · rw [Function.update_self]
  · intro j' _ hj'
    rw [Function.update_of_ne hj', Pi.zero_apply, mul_zero, ite_self]
  · exact fun hj => absurd (Finset.mem_univ j) hj

omit [LinearOrder K] in
theorem amount_single [DecidableEq J] {sold : Bool} (i : I) (j : J) (δ : K) :
    T.amount sold (Function.update 0 j δ) i = if T.sold j = sold ∧ T.item j = i then δ else 0 := by
  rw [amount, Finset.sum_eq_single j]
  · rw [Function.update_self]
  · intro j' _ hj'
    rw [Function.update_of_ne hj', Pi.zero_apply, ite_self]
  · exact fun hj => absurd (Finset.mem_univ j) hj

/-- Some price lies between what an item is sold for and what it is bought for. -/
theorem exists_between (hprices : ∀ j j', T.sold j = false → T.sold j' = true →
      T.item j = T.item j' → T.price j' ≤ T.price j)
    (hnonneg : ∀ j, T.sold j = false → 0 < T.quantity j → 0 ≤ T.price j) (i : I) :
    ∃ t : K, 0 ≤ t ∧ (∀ j, T.sold j = true → T.item j = i → T.price j ≤ t) ∧
      ∀ j, T.sold j = false → T.item j = i → 0 < T.quantity j → t ≤ T.price j := by
  by_cases h : ∃ j, T.sold j = true ∧ T.item j = i
  · obtain ⟨j, hj⟩ := h
    -- the highest price that is paid for the item
    have hne : (Finset.univ.filter fun j => T.sold j = true ∧ T.item j = i).Nonempty :=
      ⟨j, by simpa using hj⟩
    obtain ⟨m, hm, hmax⟩ := Finset.exists_max_image _ T.price hne
    simp only [Finset.mem_filter, Finset.mem_univ, true_and] at hm hmax
    refine ⟨max (T.price m) 0, le_max_right _ _, ?_, ?_⟩
    · exact fun j hsold hitem => (hmax j ⟨hsold, hitem⟩).trans (le_max_left _ _)
    · intro j hsold hitem hquantity
      exact max_le (hprices j m hsold hm.1 (hitem.trans hm.2.symm)) (hnonneg j hsold hquantity)
  · refine ⟨0, le_refl 0, fun j hsold hitem => absurd ⟨j, hsold, hitem⟩ h, ?_⟩
    exact fun j hsold _ hquantity => hnonneg j hsold hquantity

variable [IsStrictOrderedRing K]

omit [DecidableEq I] in
/-- A higher weight of each order is a higher total. -/
theorem total_mono {sold : Bool} {weight weight' x : J → K}
    (h : ∀ j, T.sold j = sold → weight j * x j ≤ weight' j * x j) :
    T.total sold weight x ≤ T.total sold weight' x := by
  refine Finset.sum_le_sum fun j _ => ?_
  split
  · next hj => exact h j hj
  · exact le_refl 0

/-- **Nothing is earned where no order buys for more than another one sells**, and
nothing that is there is given away with money. -/
theorem gain_nonpos {capacity wealth : K} (hprices : ∀ j j', T.sold j = false →
      T.sold j' = true → T.item j = T.item j' → T.price j' ≤ T.price j)
    (hnonneg : ∀ j, T.sold j = false → 0 < T.quantity j → 0 ≤ T.price j) {x : J → K}
    (hx : T.Feasible capacity wealth x) : T.gain x ≤ 0 := by
  choose t ht hbelow habove using exists_between hprices hnonneg
  have hsold : T.total true T.price x ≤ T.total true (fun j => t (T.item j)) x :=
    total_mono fun j hj => mul_le_mul_of_nonneg_right (hbelow _ j hj rfl) (hx.bounds j).1
  have hbought : T.total false (fun j => t (T.item j)) x ≤ T.total false T.price x := by
    refine total_mono fun j hj => ?_
    -- nothing can be bought from an order for nothing
    by_cases hquantity : 0 < T.quantity j
    · exact mul_le_mul_of_nonneg_right (habove _ j hj rfl hquantity) (hx.bounds j).1
    · have hzero : x j = 0 :=
        le_antisymm ((hx.bounds j).2.trans (not_lt.mp hquantity)) (hx.bounds j).1
      rw [hzero, mul_zero, mul_zero]
  have hstock : T.total true (fun j => t (T.item j)) x ≤
      T.total false (fun j => t (T.item j)) x := by
    rw [total_item, total_item]
    exact Finset.sum_le_sum fun i _ => mul_le_mul_of_nonneg_left (hx.stock i) (ht i)
  rw [gain, sub_nonpos]
  exact hsold.trans (hstock.trans hbought)

/-- Something is earned where goods are given away with money. -/
theorem exists_gain {capacity wealth : K} (hcapacity : 0 < capacity) (hwealth : 0 ≤ wealth)
    (hquantity : ∀ j, 0 ≤ T.quantity j) {j : J} (hsold : T.sold j = false)
    (hpos : 0 < T.quantity j) (hprice : T.price j < 0) :
    ∃ x, T.Feasible capacity wealth x ∧ 0 < T.gain x := by
  classical
  -- as much as there is and as can be carried
  let δ := min (T.quantity j) (capacity / (1 + |T.volume j|))
  have hden : 0 < 1 + |T.volume j| := add_pos_of_pos_of_nonneg one_pos (abs_nonneg _)
  have hδ : 0 < δ := lt_min hpos (div_pos hcapacity hden)
  have hcarried : T.volume j * δ ≤ capacity := by
    calc T.volume j * δ ≤ (1 + |T.volume j|) * δ := by
          refine mul_le_mul_of_nonneg_right ?_ hδ.le
          exact (le_abs_self _).trans (le_add_of_nonneg_left zero_le_one)
      _ ≤ (1 + |T.volume j|) * (capacity / (1 + |T.volume j|)) :=
          mul_le_mul_of_nonneg_left (min_le_right _ _) hden.le
      _ = capacity := mul_div_cancel₀ _ hden.ne'
  refine ⟨Function.update 0 j δ, ⟨?_, ?_, ?_, ?_⟩, ?_⟩
  · intro j'
    by_cases hj' : j' = j
    · subst hj'
      rw [Function.update_self]
      exact ⟨hδ.le, min_le_left _ _⟩
    · rw [Function.update_of_ne hj', Pi.zero_apply]
      exact ⟨le_refl 0, hquantity j'⟩
  · intro i
    rw [amount_single, amount_single, if_neg (by simp [hsold])]
    split
    · exact hδ.le
    · exact le_refl 0
  · rw [total_single, if_pos hsold]
    exact hcarried
  · rw [total_single, if_pos hsold]
    exact (mul_neg_of_neg_of_pos hprice hδ).le.trans hwealth
  · rw [gain, total_single, total_single, if_neg (by simp [hsold]), if_pos hsold, zero_sub]
    exact neg_pos.mpr (mul_neg_of_neg_of_pos hprice hδ)

omit [IsStrictOrderedRing K] in
/-- Nothing can be traded. -/
theorem feasible_zero {capacity wealth : K} (hquantity : ∀ j, 0 ≤ T.quantity j)
    (hcapacity : 0 ≤ capacity) (hwealth : 0 ≤ wealth) : T.Feasible capacity wealth 0 := by
  have htotal : ∀ sold weight, T.total sold weight 0 = 0 := by simp [total]
  refine ⟨fun j => ⟨le_refl 0, hquantity j⟩, ?_, ?_, ?_⟩
  · simp [amount]
  · rwa [htotal]
  · rwa [htotal]

omit [DecidableEq I] [LinearOrder K] [IsStrictOrderedRing K] in
theorem gain_zero : T.gain 0 = 0 := by simp [gain, total]

end Trade

end EveIndustryPlanner
