import EveIndustryPlanner.Lib.Network
import EveIndustryPlanner.Planning.Planner

/-!
# Equations lose no profit

The planner asks for an equation wherever a resource has no stock, so that no
surplus of it may be left over.  The jobs of a planner are a production network
and its linear program is that of the network, so whatever a plan with a
surplus earns, a smaller one without earns as well.

## Main definitions

* `Job.Shaped` — the shape all generators give their jobs.
* `Planner.network` — the network of a planner.

## Main results

* `Planner.activity_zero`, `Planner.activity_rowID`, `Planner.objective_eq` — the
  rows and the objective are those of the network.
* `Planner.feasible_program_iff` — what a feasible plan is.
* `Planner.equations_lose_no_profit` — **the program of the planner is feasible
  and bounded, and below every plan that leaves a surplus there is one without
  that earns as much.**
-/

namespace EveIndustryPlanner
namespace Planning

variable {R : Type} [DecidableEq R]

omit [DecidableEq R] in
/-- The shape all generators give their jobs. -/
structure Job.Shaped (job : Job R ℝ) : Prop where
  lower : job.lowerLimit = 0
  upper : 0 ≤ job.upperLimit
  inputs : ∀ o ∈ job.inputs, 0 ≤ o.2
  outputs : ∀ o ∈ job.outputs, 0 ≤ o.2
  single : job.outputs.length ≤ 1
  cost : job.outputs ≠ [] → job.cost ≤ 0
  finite : 0 < job.cost → job.upperLimit < infinity

theorem infinity_pos : (0 : ℝ) < infinity := pow_pos (by norm_num) 100

namespace Planner

theorem amount_nonneg {ms : Materials R ℝ} (h : ∀ o ∈ ms, 0 ≤ o.2) (r : R) : 0 ≤ amount ms r := by
  refine List.sum_nonneg fun v hv => ?_
  obtain ⟨o, ho, rfl⟩ := List.mem_map.mp hv
  exact h o (List.mem_filter.mp ho).1

/-- A resource with an amount is in the list. -/
theorem exists_mem_of_amount_ne_zero {ms : Materials R ℝ} {r : R} (h : amount ms r ≠ 0) :
    ∃ o ∈ ms, o.1 = r := by
  by_contra hnone
  apply h
  have hfilter : ms.filter (·.1 = r) = [] := by
    rw [List.filter_eq_nil_iff]
    intro o ho
    simp only [decide_eq_true_eq]
    intro e
    exact hnone ⟨o, ho, e⟩
  rw [amount, hfilter]
  rfl

theorem eq_of_mem_of_length_le_one {α : Type} {l : List α} (h : l.length ≤ 1) {a b : α}
    (ha : a ∈ l) (hb : b ∈ l) : a = b := by
  cases l with
  | nil => exact absurd ha List.not_mem_nil
  | cons c l =>
    obtain rfl : l = [] := List.length_eq_zero_iff.mp (Nat.le_zero.mp (Nat.le_of_succ_le_succ h))
    rw [List.mem_singleton.mp ha, List.mem_singleton.mp hb]

/-! ### The network of a planner -/

section Network

variable {p : Planner R ℝ} (h : WellFormed p) (hshaped : ∀ job ∈ p.jobs, job.Shaped)

omit [DecidableEq R] in
include h in
theorem WellFormed.length_cols : p.cols.length = p.jobs.length := by
  rw [h.cols, List.length_map]

/-- The job of a column. -/
def jobAt (j : Fin p.cols.length) : Job R ℝ := p.jobs.get (j.cast h.length_cols)

omit [DecidableEq R] in
theorem jobAt_mem (j : Fin p.cols.length) : jobAt h j ∈ p.jobs := List.get_mem _ _

omit [DecidableEq R] in
theorem get_cols (j : Fin p.cols.length) : p.cols.get j = column p.rowID (jobAt h j) := by
  -- with the list of columns free, it can be replaced by the list it is equal to
  have hget : ∀ (cols : List (Col ℝ)) (hcols : cols = p.jobs.map (column p.rowID))
      (j : Fin cols.length) (hj : j.1 < p.jobs.length),
      cols.get j = column p.rowID (p.jobs.get ⟨j.1, hj⟩) := by
    intro cols hcols j hj
    subst hcols
    simp
  exact hget p.cols h.cols j _

/-- The jobs of a planner and the resources that have a row. -/
noncomputable def network : Network (Fin p.cols.length) {r // r ∈ p.resources} where
  value j := (jobAt h j).cost
  consumed j r := amount (jobAt h j).inputs r.1
  produced j r := amount (jobAt h j).outputs r.1
  consumed_nonneg j r := amount_nonneg (hshaped _ (jobAt_mem h j)).inputs r.1
  produced_nonneg j r := amount_nonneg (hshaped _ (jobAt_mem h j)).outputs r.1
  produced_single j r r' hr hr' := by
    obtain ⟨o, ho, hor⟩ := exists_mem_of_amount_ne_zero hr
    obtain ⟨o', ho', hor'⟩ := exists_mem_of_amount_ne_zero hr'
    have hlen := (hshaped _ (jobAt_mem h j)).single
    have hoo : o = o' := eq_of_mem_of_length_le_one hlen ho ho'
    exact Subtype.ext (hor.symm.trans (hoo ▸ hor'))
  value_nonpos j r hr := by
    obtain ⟨o, ho, -⟩ := exists_mem_of_amount_ne_zero hr
    exact (hshaped _ (jobAt_mem h j)).cost (List.ne_nil_of_mem ho)

variable (buyIn : ℝ) (range : R → ℝ × ℝ) (x : Fin p.cols.length → ℝ)

/-- The buy-in row is what the plan costs. -/
theorem activity_zero : (p.program buyIn range).activity x 0 = (network h hshaped).spent x := by
  refine Finset.sum_congr rfl fun j _ => ?_
  show (p.cols.get j).coeff 0 * x j = max (-(jobAt h j).cost) 0 * x j
  rw [get_cols h, h.coeff_zero (jobAt_mem h j)]
  split
  · next hcost => rw [max_eq_left (by linarith)]
  · next hcost => rw [max_eq_right (by linarith)]

/-- The row of a resource is what the plan uses of it. -/
theorem activity_rowID {r : R} (hr : r ∈ p.resources) :
    (p.program buyIn range).activity x (p.rowID r) = (network h hshaped).use x ⟨r, hr⟩ := by
  refine Finset.sum_congr rfl fun j _ => ?_
  show (p.cols.get j).coeff (p.rowID r) * x j = _
  rw [get_cols h, h.coeff_rowID (jobAt_mem h j) hr]
  rfl

/-- The objective is what the plan earns. -/
theorem objective_eq : (p.program buyIn range).objective x = (network h hshaped).worth x := by
  refine Finset.sum_congr rfl fun j _ => ?_
  show (p.cols.get j).obj * x j = _
  rw [get_cols h]
  rfl

/-- What a feasible plan is. -/
theorem feasible_program_iff :
    (p.program buyIn range).Feasible x ↔
      (∀ j, 0 ≤ x j ∧ Below (x j) (jobAt h j).upperLimit) ∧
        Below ((network h hshaped).spent x) buyIn ∧
        ∀ r : {r // r ∈ p.resources}, Above ((network h hshaped).use x r) (range r.1).1 ∧
          Below ((network h hshaped).use x r) (range r.1).2 := by
  have hlower : ∀ j, Above (x j) (p.cols.get j).lower ↔ 0 ≤ x j := by
    intro j
    have hzero : (p.cols.get j).lower = 0 := by
      rw [get_cols h]
      exact (hshaped _ (jobAt_mem h j)).lower
    rw [hzero, Above]
    -- zero is a finite limit
    have := infinity_pos
    constructor
    · rintro (hneg | hx)
      · linarith
      · exact hx
    · exact Or.inr
  have hupper : ∀ j, (p.cols.get j).upper = (jobAt h j).upperLimit := by
    intro j
    rw [get_cols h]
    rfl
  constructor
  · intro hfeasible
    refine ⟨fun j => ⟨(hlower j).mp (hfeasible.lower j), hupper j ▸ hfeasible.upper j⟩, ?_, ?_⟩
    · have := (hfeasible.range _ List.mem_cons_self).2
      rwa [activity_zero h hshaped] at this
    · -- the row of a resource is in the program once the resource is known
      rintro ⟨r, hr⟩
      have := hfeasible.range (p.rowID r, range r)
        (List.mem_cons_of_mem _ (List.mem_map_of_mem hr))
      rwa [activity_rowID h hshaped buyIn range x hr] at this
  · rintro ⟨hcols, hbuyIn, hrows⟩
    refine ⟨fun j => (hlower j).mpr (hcols j).1, ?_, ?_⟩
    · intro j
      show Below (x j) (p.cols.get j).upper
      rw [hupper]
      exact (hcols j).2
    · intro row hrow
      rcases List.mem_cons.mp hrow with rfl | hrow
      · refine ⟨Or.inl le_rfl, ?_⟩
        rw [activity_zero h hshaped]
        exact hbuyIn
      · obtain ⟨r, hr, rfl⟩ := List.mem_map.mp hrow
        rw [activity_rowID h hshaped buyIn range x hr]
        exact hrows ⟨r, hr⟩

end Network

/-! ### Plans without surplus -/

section Surplus

variable {res : Resources R ℝ} {p : Planner R ℝ} (h : WellFormed p)
  (hshaped : ∀ job ∈ p.jobs, job.Shaped) {buyIn : ℝ} {x y : Fin p.cols.length → ℝ}

/-- The stock of a resource; an infinite one is as much as the plan at hand needs. -/
noncomputable def stock (res : Resources R ℝ) (use : ℝ) (r : R) : ℝ :=
  if infinity ≤ -res.lowerLimit r then max use 1 else -res.lowerLimit r

omit [DecidableEq R] in
theorem below_of_le_stock {use v : ℝ} {r : R} (hv : v ≤ stock res use r) :
    Below v (-res.lowerLimit r) := by
  unfold stock at hv
  split at hv
  · next hinf => exact Or.inl hinf
  · exact Or.inr hv

/-- A plan that leaves a surplus is affordable. -/
theorem affordable_of_feasible (hx : (p.surplusLP res buyIn).Feasible x) :
    (network h hshaped).Affordable
      (fun r => stock res ((network h hshaped).use x r) r.1)
      (max buyIn ((network h hshaped).spent x)) x := by
  obtain ⟨hcols, -, hrows⟩ := (feasible_program_iff h hshaped buyIn (surplusRange res) x).mp hx
  refine ⟨fun j => (hcols j).1, le_max_right _ _, ?_⟩
  intro r
  show _ ≤ stock res _ r.1
  unfold stock
  split
  · exact le_max_left _ _
  · next hfinite =>
    rcases (hrows r).2 with hinf | hle
    · exact absurd hinf hfinite
    · exact hle

/-- What lies below a plan and uses up its resources is feasible for the planner. -/
theorem feasible_of_exact (hx : (p.surplusLP res buyIn).Feasible x)
    (hy : (network h hshaped).Exact (fun r => stock res ((network h hshaped).use x r) r.1)
      (max buyIn ((network h hshaped).spent x)) y) (hyx : y ≤ x) :
    (p.lp res buyIn).Feasible y := by
  obtain ⟨hcols, hbuyIn, -⟩ :=
    (feasible_program_iff h hshaped buyIn (surplusRange res) x).mp hx
  refine (feasible_program_iff h hshaped buyIn (Planner.range res) y).mpr ⟨?_, ?_, ?_⟩
  · intro j
    refine ⟨hy.nonneg j, ?_⟩
    rcases (hcols j).2 with hinf | hle
    · exact Or.inl hinf
    · exact Or.inr ((hyx j).trans hle)
  · rcases hbuyIn with hinf | hle
    · exact Or.inl hinf
    · exact Or.inr (hy.spent.trans_eq (max_eq_left hle))
  · intro r
    refine ⟨?_, below_of_le_stock (hy.use r)⟩
    show Above _ (if -res.lowerLimit r.1 = 0 then -res.lowerLimit r.1 else -infinity)
    split
    · -- without stock the row is an equation, and the plan has no surplus there
      next hzero =>
      have hstock : stock res ((network h hshaped).use x r) r.1 = 0 := by
        rw [stock, hzero, if_neg (not_le.mpr infinity_pos)]
      exact Or.inr (hzero.trans (hy.exact r hstock).symm).le
    · exact Or.inl le_rfl

include h hshaped in
/-- Doing nothing is feasible. -/
theorem feasible_zero (hstock : ∀ r, res.lowerLimit r ≤ 0) (hbuyIn : 0 ≤ buyIn) :
    (p.lp res buyIn).Feasible fun _ => 0 := by
  have hspent : (network h hshaped).spent (fun _ => 0) = 0 := by simp [Network.spent]
  have huse : ∀ r, (network h hshaped).use (fun _ => 0) r = 0 := by simp [Network.use]
  refine (feasible_program_iff h hshaped buyIn (Planner.range res) _).mpr ⟨?_, ?_, ?_⟩
  · intro j
    exact ⟨le_rfl, Or.inr (hshaped _ (jobAt_mem h j)).upper⟩
  · rw [hspent]
    exact Or.inr hbuyIn
  · intro r
    rw [huse]
    refine ⟨?_, Or.inr (neg_nonneg.mpr (hstock r.1))⟩
    show Above 0 (if -res.lowerLimit r.1 = 0 then -res.lowerLimit r.1 else -infinity)
    split
    · next hzero => exact Or.inr hzero.le
    · exact Or.inl le_rfl

include h hshaped in
/-- What feasible plans earn is bounded by the jobs that earn anything. -/
theorem objective_le (hx : (p.lp res buyIn).Feasible x) :
    (p.lp res buyIn).objective x ≤
      ∑ j, max (jobAt h j).cost 0 * (jobAt h j).upperLimit := by
  obtain ⟨hcols, -, -⟩ := (feasible_program_iff h hshaped buyIn (Planner.range res) x).mp hx
  refine (objective_eq h hshaped buyIn (Planner.range res) x).trans_le
    (Network.worth_le (fun j => (hcols j).1) ?_)
  intro j hj
  rcases (hcols j).2 with hinf | hle
  · exact absurd ((hshaped _ (jobAt_mem h j)).finite hj) (not_lt.mpr hinf)
  · exact hle

end Surplus

/-- **The program of the planner is feasible and bounded, and below every plan
that leaves a surplus there is one without that earns as much.** -/
theorem equations_lose_no_profit {res : Resources R ℝ} (hstock : ∀ r, res.lowerLimit r ≤ 0)
    {jobs : List (Job R ℝ)} (hjobs : ∀ job ∈ jobs, job.Shaped) {p : Planner R ℝ}
    (hp : addJobs res empty jobs = .ok p) {buyIn : ℝ} (hbuyIn : 0 ≤ buyIn) :
    (∃ x, (p.lp res buyIn).Feasible x) ∧
      (∃ bound, ∀ x, (p.lp res buyIn).Feasible x → (p.lp res buyIn).objective x ≤ bound) ∧
      ∀ x, (p.surplusLP res buyIn).Feasible x →
        ∃ y, (p.lp res buyIn).Feasible y ∧ (∀ j, 0 ≤ y j ∧ y j ≤ x j) ∧
          (p.lp res buyIn).objective x ≤ (p.lp res buyIn).objective y := by
  obtain ⟨h, hadded⟩ := wellFormed_empty.addJobs hp
  have hshaped : ∀ job ∈ p.jobs, job.Shaped := by
    rw [hadded]
    exact hjobs
  refine ⟨⟨_, feasible_zero h hshaped hstock hbuyIn⟩, ⟨_, fun x hx => objective_le h hshaped hx⟩,
    ?_⟩
  intro x hx
  obtain ⟨y, hy, hyx, hworth⟩ := Network.exists_exact (affordable_of_feasible h hshaped hx)
  refine ⟨y, feasible_of_exact h hshaped hx hy hyx, fun j => ⟨hy.nonneg j, hyx j⟩, ?_⟩
  calc (p.lp res buyIn).objective x = (network h hshaped).worth x :=
        objective_eq h hshaped buyIn (Planner.range res) x
    _ ≤ (network h hshaped).worth y := hworth
    _ = (p.lp res buyIn).objective y := (objective_eq h hshaped buyIn (Planner.range res) y).symm

/-- One job that makes at most a unit of the only resource, for nothing. -/
def makeOne : Job Unit ℝ := ⟨[], [((), 1)], 0, "Make", 0, 1⟩

theorem equations_lose_no_profit_makeOne :
    ∃ p, addJobs ⟨fun _ => "Item", fun _ => 0⟩ empty [makeOne] = .ok p ∧
      (∃ x, (p.lp ⟨fun _ => "Item", fun _ => 0⟩ 1).Feasible x) ∧
      (∃ bound, ∀ x, (p.lp ⟨fun _ => "Item", fun _ => 0⟩ 1).Feasible x →
        (p.lp ⟨fun _ => "Item", fun _ => 0⟩ 1).objective x ≤ bound) ∧
      ∀ x, (p.surplusLP ⟨fun _ => "Item", fun _ => 0⟩ 1).Feasible x →
        ∃ y, (p.lp ⟨fun _ => "Item", fun _ => 0⟩ 1).Feasible y ∧
          (∀ j, 0 ≤ y j ∧ y j ≤ x j) ∧
          (p.lp ⟨fun _ => "Item", fun _ => 0⟩ 1).objective x ≤
            (p.lp ⟨fun _ => "Item", fun _ => 0⟩ 1).objective y := by
  have hshaped : ∀ job ∈ [makeOne], job.Shaped := by
    intro job hjob
    obtain rfl := List.mem_singleton.mp hjob
    exact ⟨rfl, by norm_num [makeOne], by simp [makeOne], by simp [makeOne], by simp [makeOne],
      by simp [makeOne], by simp [makeOne]⟩
  obtain ⟨p, hp⟩ : ∃ p, addJobs ⟨fun _ => "Item", fun _ => 0⟩ empty [makeOne] = .ok p := by
    simp [addJobs, addJob, makeOne, empty, materials, buyInEntry, addEntry, ensureResource]
    exact ⟨_, rfl⟩
  exact ⟨p, hp, equations_lose_no_profit (by simp) hshaped hp (by norm_num)⟩

end Planner
end Planning
end EveIndustryPlanner
