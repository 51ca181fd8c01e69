import EveIndustryPlanner.Lib.Collect
import EveIndustryPlanner.Lib.Placement
import EveIndustryPlanner.Pricing.Reader

/-!
# Differences of the lowest prices

For each view the lowest price of tritanium is kept in a table with one slot for
each type, `-1` for a type that is not for sale.  The differences from view to
view are taken unless the price is missing in both of two neighbours, and so also
where it is missing in one of them.

## Main definitions

* `MinimumPrices`, `collectMinimumPrices` — the table of a view.
* `analyze` — the differences from view to view.
* `minimumPrice`, `expectedSamples` — the lowest price, and the differences there are.

## Main results

* `collectMinimumPrices_eq` — the table of a view holds its lowest price.
* `minimumPrice_spec` — no order for sale is below it.
* `sampled_iff` — **when the differences are taken where both prices exist.**
-/

namespace EveIndustryPlanner
namespace Pricing

/-! ### The table of a view -/

/-- Values with a slot for each key. -/
structure MinimumPrices where
  values : List (Int32 × Double)
  slots : List Int32
  deriving DecidableEq

/-- `std::min`. -/
def stdMin (a b : Double) : Double := if b.lt a then b else a

/-- The order is no live order to sell tritanium. -/
def skipped (o : Order) : Bool := o.buy == 1 || o.volume == 0 || o.type != 34

/-- One round of the loop over the orders of a view. -/
def collectOrder (x : MinimumPrices) (o : Order) : Except Fault MinimumPrices :=
  if skipped o then .ok x
  else do
    let t := o.type.toNat
    let slots := extendTo (-1) x.slots (t + 1)
    let s ← deref slots[t]?
    if s = -1 then
      return ⟨x.values ++ [(o.type.toInt32, o.price)], slots.set t (Int32.ofNat x.values.length)⟩
    else do
      let current ← deref x.values[toSizeT s]?
      return ⟨x.values.set (toSizeT s) (current.1, stdMin o.price current.2), slots⟩

/-- The lowest price of tritanium of a view. -/
def collectMinimumPrices (view : List Order) : Except Fault MinimumPrices :=
  view.foldlM collectOrder ⟨[], List.replicate 35 (-1)⟩

/-! ### The differences -/

/-- What `analyze` makes of the prices. -/
structure Analysis where
  tritaniumPrices : List Double
  samples : List Double

/-- `samples.reserve(size - 1)`: without a view the difference wraps around to more than
a vector can hold. -/
def reserve (size : ℕ) : Except Fault Unit :=
  if size = 0 then .error (.runtimeError "vector::reserve") else .ok ()

section Samples

-- the subtraction of doubles is left open
variable (sub : Double → Double → Double)

/-- One round of the loop over neighbours: the price that is written, and the difference. -/
def sampleRound (e : MinimumPrices × MinimumPrices) : Except Fault (List (Double × Double)) := do
  let aSlot ← deref e.1.slots[34]?
  let bSlot ← deref e.2.slots[34]?
  if aSlot = -1 ∧ bSlot = -1 then return []
  else do
    let a ← deref e.1.values[toSizeT aSlot]?
    let b ← deref e.2.values[toSizeT bSlot]?
    return [(a.2, sub b.2 a.2)]

/-- The differences from view to view; `none` is nothing to predict. -/
def analyze (minimumPrices : List MinimumPrices) : Except Fault (Option Analysis) := do
  reserve minimumPrices.length
  if minimumPrices.length < 2 then return none
  else do
    let rounds ← collectM (sampleRound sub) (minimumPrices.zip minimumPrices.tail)
    return some ⟨rounds.map Prod.fst, rounds.map Prod.snd⟩

/-- All views. -/
def analyzeViews (views : List (List Order)) : Except Fault (Option Analysis) := do
  let minimumPrices ← views.mapM collectMinimumPrices
  analyze sub minimumPrices

/-! ### The lowest price -/

/-- The prices of the live orders to sell tritanium. -/
def sellPrices (view : List Order) : List Double :=
  (view.filter fun o => !skipped o).map Order.price

/-- The lowest of some prices. -/
def minimumPrice (view : List Order) : Option Double :=
  match sellPrices view with
  | [] => none
  | p :: ps => some (ps.foldl (fun current p => stdMin p current) p)

/-- The difference of the lowest prices, if there are both. -/
def sampleOf (e : List Order × List Order) : Option Double :=
  match minimumPrice e.1, minimumPrice e.2 with
  | some a, some b => some (sub b a)
  | _, _ => none

/-- The differences for the neighbours that both have a price. -/
def expectedSamples (views : List (List Order)) : List Double :=
  (views.zip views.tail).filterMap (sampleOf sub)

/-- The differences are taken where both prices exist, and nothing else happens. -/
def Sampled (views : List (List Order)) : Prop :=
  ∃ r, analyzeViews sub views = .ok r ∧
    r.map Analysis.samples = if views.length < 2 then none else some (expectedSamples sub views)

/-- Both views have a live order to sell, or none has. -/
def BothOrNone (e : List Order × List Order) : Prop :=
  sellPrices e.1 = [] ↔ sellPrices e.2 = []

variable {sub}

/-- The table with one price or none. -/
def tableOf : Option Double → MinimumPrices
  | none => ⟨[], List.replicate 35 (-1)⟩
  | some p => ⟨[(34, p)], (List.replicate 35 (-1)).set 34 0⟩

/-- The lowest price with one more order. -/
def withOrder (m : Option Double) (o : Order) : Option Double :=
  if skipped o then m else some (m.elim o.price (stdMin o.price))

theorem collectOrder_tableOf (m : Option Double) (o : Order) :
    collectOrder (tableOf m) o = .ok (tableOf (withOrder m o)) := by
  rw [collectOrder, withOrder]
  cases hskipped : skipped o with
  | true => rfl
  | false =>
    have htype : o.type = 34 := by
      simp [skipped] at hskipped
      exact hskipped.2
    rw [if_neg (by simp), if_neg (by simp), htype]
    cases m <;> rfl

theorem foldl_withOrder (m : Option Double) (view : List Order) :
    view.foldl withOrder m = (sellPrices view).foldl
      (fun m p => some (m.elim p (stdMin p))) m := by
  induction view generalizing m with
  | nil => rfl
  | cons o view ih =>
    rw [List.foldl_cons, ih, withOrder, sellPrices, sellPrices, List.filter_cons]
    cases skipped o <;> rfl

theorem foldl_some (p : Double) (ps : List Double) :
    ps.foldl (fun m p => some (m.elim p (stdMin p))) (some p) =
      some (ps.foldl (fun current p => stdMin p current) p) := by
  induction ps generalizing p with
  | nil => rfl
  | cons q ps ih => exact ih (stdMin q p)

/-- The table of a view holds its lowest price. -/
theorem collectMinimumPrices_eq (view : List Order) :
    collectMinimumPrices view = .ok (tableOf (minimumPrice view)) := by
  have hrun : ∀ (view : List Order) (m : Option Double),
      view.foldlM collectOrder (tableOf m) = .ok (tableOf (view.foldl withOrder m)) := by
    intro view
    induction view with
    | nil => exact fun m => rfl
    | cons o view ih =>
      intro m
      rw [List.foldlM_cons, collectOrder_tableOf, ok_bind, ih, List.foldl_cons]
  have hall := hrun view none
  rw [foldl_withOrder] at hall
  rw [collectMinimumPrices, minimumPrice]
  cases hprices : sellPrices view with
  | nil =>
    rw [hprices] at hall
    exact hall
  | cons p ps =>
    rw [hprices, List.foldl_cons] at hall
    exact hall.trans (congrArg (fun m => Except.ok (tableOf m)) (foldl_some p ps))

theorem stdMin_eq {a b : Double} (ha : a.isNaN = false) (hb : b.isNaN = false) :
    stdMin a b = if b.rank < a.rank then b else a := by simp [stdMin, Double.lt, ha, hb]

/-- The price that is kept is one of the prices, and none is below it. -/
theorem foldl_stdMin {p : Double} {ps : List Double} (h : ∀ q ∈ p :: ps, q.isNaN = false) :
    let m := ps.foldl (fun current q => stdMin q current) p
    m ∈ p :: ps ∧ ∀ q ∈ p :: ps, m.rank ≤ q.rank := by
  induction ps generalizing p with
  | nil => simp
  | cons q ps ih =>
    obtain ⟨hp, hq, hps⟩ : p.isNaN = false ∧ q.isNaN = false ∧ ∀ q ∈ ps, q.isNaN = false := by
      simpa using h
    simp only [List.foldl_cons, stdMin_eq hq hp]
    by_cases hlt : p.rank < q.rank
    · rw [if_pos hlt]
      obtain ⟨hmem, hle⟩ := ih (List.forall_mem_cons.mpr ⟨hp, hps⟩)
      have hfirst := hle p List.mem_cons_self
      refine ⟨?_, List.forall_mem_cons.mpr ⟨hfirst, List.forall_mem_cons.mpr
        ⟨hfirst.trans hlt.le, fun q' hq' => hle q' (List.mem_cons_of_mem p hq')⟩⟩⟩
      rcases List.mem_cons.mp hmem with hmem | hmem
      · rw [hmem]
        exact List.mem_cons_self
      · exact List.mem_cons_of_mem p (List.mem_cons_of_mem q hmem)
    · rw [if_neg hlt]
      obtain ⟨hmem, hle⟩ := ih (List.forall_mem_cons.mpr ⟨hq, hps⟩)
      have hfirst := hle q List.mem_cons_self
      exact ⟨List.mem_cons_of_mem p hmem, List.forall_mem_cons.mpr
        ⟨hfirst.trans (not_lt.mp hlt), hle⟩⟩

/-- The lowest price is that of a live order to sell, and none is below it. -/
theorem minimumPrice_spec {view : List Order} {m : Double} (h : minimumPrice view = some m)
    (hprices : ∀ p ∈ sellPrices view, p.isNaN = false) :
    m ∈ sellPrices view ∧ ∀ p ∈ sellPrices view, p.lt m = false := by
  rw [minimumPrice] at h
  cases hsells : sellPrices view with
  | nil => simp [hsells] at h
  | cons p ps =>
    rw [hsells] at h hprices
    obtain rfl := Option.some.inj h
    obtain ⟨hmem, hle⟩ := foldl_stdMin hprices
    refine ⟨hmem, fun q hq => ?_⟩
    have hrank := hle q hq
    simp only [Double.lt, Bool.and_eq_false_iff, decide_eq_false_iff_not, not_lt]
    exact Or.inr hrank

/-! ### When the differences are right -/

theorem minimumPrice_eq_none_iff {view : List Order} :
    minimumPrice view = none ↔ sellPrices view = [] := by
  rw [minimumPrice]
  cases sellPrices view <;> simp

/-- The tables of two views. -/
def tables (e : List Order × List Order) : MinimumPrices × MinimumPrices :=
  (tableOf (minimumPrice e.1), tableOf (minimumPrice e.2))

/-- A round with two prices or none. -/
theorem sampleRound_of_bothOrNone (sub : Double → Double → Double) {e : List Order × List Order}
    (h : BothOrNone e) :
    ∃ rounds, sampleRound sub (tables e) = .ok rounds ∧
      rounds.map Prod.snd = (sampleOf sub e).toList := by
  rw [BothOrNone, ← minimumPrice_eq_none_iff, ← minimumPrice_eq_none_iff] at h
  rw [tables, sampleOf]
  cases hfirst : minimumPrice e.1 with
  | none =>
    rw [h.mp hfirst]
    exact ⟨[], rfl, rfl⟩
  | some a =>
    cases hsecond : minimumPrice e.2 with
    | none => exact absurd (h.mpr hsecond) (by simp [hfirst])
    | some b => exact ⟨[(a, sub b a)], rfl, rfl⟩

/-- A round with one price looks for the other one behind all values. -/
theorem bothOrNone_of_sampleRound {e : List Order × List Order} {rounds : List (Double × Double)}
    (h : sampleRound sub (tables e) = .ok rounds) : BothOrNone e := by
  rw [BothOrNone, ← minimumPrice_eq_none_iff, ← minimumPrice_eq_none_iff]
  rw [tables] at h
  cases hfirst : minimumPrice e.1 with
  | none =>
    cases hsecond : minimumPrice e.2 with
    | none => simp
    | some b =>
      rw [hfirst, hsecond] at h
      exact absurd h (by simp [sampleRound, tableOf, deref, toSizeT])
  | some a =>
    cases hsecond : minimumPrice e.2 with
    | none =>
      rw [hfirst, hsecond] at h
      exact absurd h (by simp [sampleRound, tableOf, deref, toSizeT])
    | some b => simp

/-- The loop over neighbours of which each has two prices or none. -/
theorem collectM_sampleRound (sub : Double → Double → Double)
    {es : List (List Order × List Order)} (h : ∀ e ∈ es, BothOrNone e) :
    ∃ rounds, collectM (sampleRound sub) (es.map tables) = .ok rounds ∧
      rounds.map Prod.snd = es.filterMap (sampleOf sub) := by
  induction es with
  | nil => exact ⟨[], rfl, rfl⟩
  | cons e es ih =>
    obtain ⟨he, hes⟩ := List.forall_mem_cons.mp h
    obtain ⟨rounds, hrounds, hsamples⟩ := sampleRound_of_bothOrNone sub he
    obtain ⟨rest, hrest, hrestSamples⟩ := ih hes
    refine ⟨rounds ++ rest, ?_, ?_⟩
    · rw [List.map_cons, collectM_cons_ok hrounds, hrest]
      rfl
    · rw [List.map_append, hsamples, hrestSamples, List.filterMap_cons]
      cases sampleOf sub e <;> rfl

theorem analyzeViews_eq (views : List (List Order)) :
    analyzeViews sub views = analyze sub (views.map fun view => tableOf (minimumPrice view)) := by
  have hcollect : views.mapM collectMinimumPrices =
      .ok (views.map fun view => tableOf (minimumPrice view)) := by
    rw [mapM_eq_ok_iff, List.forall₂_map_right_iff, List.forall₂_same]
    exact fun view _ => collectMinimumPrices_eq view
  rw [analyzeViews, hcollect, ok_bind]

/-- **When the differences are taken where both prices exist**: there is a view, and of
two neighbours both have a price or none has. -/
theorem sampled_iff (sub : Double → Double → Double) (views : List (List Order)) :
    Sampled sub views ↔ views ≠ [] ∧ ∀ e ∈ views.zip views.tail, BothOrNone e := by
  have hzip : (views.map fun view => tableOf (minimumPrice view)).zip
      (views.map fun view => tableOf (minimumPrice view)).tail =
        (views.zip views.tail).map tables := by
    rw [← List.map_tail, List.zip_map]
    rfl
  rw [Sampled, analyzeViews_eq, analyze, List.length_map, hzip]
  cases views with
  | nil => simp [reserve]
  | cons view views =>
    rw [reserve, if_neg (by simp), ok_bind]
    by_cases hlength : (view :: views).length < 2
    · have hnil : views = [] := List.length_eq_zero_iff.mp (by simpa using hlength)
      subst hnil
      simp [pure, Except.pure]
    rw [if_neg hlength, if_neg hlength]
    constructor
    · rintro ⟨r, hr, -⟩
      obtain ⟨rounds, hrounds, -⟩ := bind_eq_ok hr
      refine ⟨List.cons_ne_nil _ _, fun e he => ?_⟩
      obtain ⟨round, hround⟩ := collectM_ok_of_mem hrounds (List.mem_map_of_mem he)
      exact bothOrNone_of_sampleRound hround
    · rintro ⟨-, hall⟩
      obtain ⟨rounds, hrounds, hsamples⟩ := collectM_sampleRound sub hall
      refine ⟨some ⟨rounds.map Prod.fst, rounds.map Prod.snd⟩, by rw [hrounds]; rfl, ?_⟩
      exact congrArg some hsamples

end Samples

/-- A live order to sell tritanium. -/
def tritaniumOrder : Order := { Order.single 7 with type := 34 }

/-- A price is looked for where there is none, and no views are too few to be told so. -/
theorem not_sampled_missing :
    (¬ ∃ sub, Sampled sub [[tritaniumOrder], []]) ∧ ¬ ∃ sub, Sampled sub [] := by
  constructor
  · rintro ⟨sub, r, hr, -⟩
    have hundefined : analyzeViews sub [[tritaniumOrder], []] = .error .undefined := rfl
    exact absurd (hr.symm.trans hundefined) (by simp)
  · rintro ⟨sub, r, hr, -⟩
    have hthrown : analyzeViews sub [] = .error (.runtimeError "vector::reserve") := rfl
    exact absurd (hr.symm.trans hthrown) (by simp)

end Pricing
end EveIndustryPlanner
