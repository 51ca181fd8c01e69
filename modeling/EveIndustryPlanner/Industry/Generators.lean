import EveIndustryPlanner.Industry.Manufacturing

/-!
# The other jobs

Inventions, copies, trades and planetary production.

## Main definitions

* `inventionJobs`, `getT2InventionJobs`, `getT3InventionJobs` — inventions; the
  two technologies differ in what is researched.
* `getCopyJobs` — copies.
* `Order`, `getMarketJobs` — trades.
* `Planetary`, `getPlanetaryJobs` — planetary production, with jobs that bring
  each item to the surface and back.
* `generateJobs` — all jobs in the order in which they are added.
-/

namespace EveIndustryPlanner
namespace Industry

open Planning

section Generators

variable {K : Type} [Field K] [LinearOrder K] [FloorRing K] (x : PlannerAndStuff K)

/-! ### Inventions -/

/-- The name of an invention. -/
def researchJobName (bp : TypeID) (decryptor : Option TypeID) (pId : TypeID) : String :=
  "Research_" ++ toString bp ++ "_" ++ (decryptor.map toString).getD "none" ++ "_" ++ toString pId

/-- An item and an amount of it. -/
def ingredient (m : TypeID × ℕ) : Except Failure (List (Resource × K)) := do
  let resource ← getResource x m.1
  return [(resource, (m.2 : K))]

/-- The job of an invention with a decryptor, or with none; there is no job
without a job value. -/
def inventionJobs (getBlueprint : TypeID → Except Failure Resource) (r : Research K)
    (decryptor : DecryptorProperty) : Except Failure (List (Job Resource K)) :=
  match x.values r.product with
  | none => .ok []
  | some jobValue => do
    let materials ← collectM (ingredient x) r.materials
    let d ← collectM (ingredient x) (decryptor.decryptor.toList.map fun d => (d, 1))
    let bp ← getBlueprint r.blueprint
    let product ← getBPC x r.product decryptor.efficiency
    let _ ← x.names.getName r.product
    return [unlimited
      (materials ++ d ++ [(bp, 1), (.labTime, x.skills.researchTimeReduction * r.duration)])
      [(product, tenths decryptor.probabilityModifier * r.baseProbability *
        ((r.producedQuantity + decryptor.runModifier : ℕ) : K))]
      (-jobValue * x.settings.inventionTax)
      (researchJobName r.blueprint decryptor.decryptor r.product)]

/-- Inventions of the second technology start from a copy. -/
def getT2InventionJobs (t2Blueprints : List (Research K)) :
    Except Failure (List (Job Resource K)) :=
  collectM (fun r => collectM (inventionJobs x (getBPC x · ⟨100, 100⟩) r) decryptors) t2Blueprints

/-- Inventions of the third technology start from a relic. -/
def getT3InventionJobs (t3Blueprints : List (Research K)) :
    Except Failure (List (Job Resource K)) :=
  collectM (fun r => collectM (inventionJobs x (getResource x) r) decryptors) t3Blueprints

/-! ### Copies -/

/-- The job that copies a blueprint; there is none without a job value. -/
def copyJobs (c : Copying) : Except Failure (List (Job Resource K)) :=
  match x.values c.blueprint with
  | none => .ok []
  | some jobValue => do
    let duration := x.skills.copyTimeReduction * (c.duration : K)
    let bpo ← getBPO x c.blueprint
    let bpc ← getBPC x c.blueprint ⟨100, 100⟩
    return [unlimited [(bpo, duration), (.labTime, duration)] [(bpc, 1)]
      (-jobValue * x.settings.copyTax) ("Copy_" ++ toString c.blueprint)]

/-- The jobs that copy blueprints. -/
def getCopyJobs (t1Copies : List Copying) : Except Failure (List (Job Resource K)) :=
  collectM (copyJobs x) t1Copies

/-! ### Trades -/

/-- An order on the market. -/
structure Order (K : Type) where
  id : ℕ
  type : TypeID
  price : K
  volume : ℕ
  stationID : ℕ
  stationName : String

/-- A trade, up to the volume of its order; blueprints are not traded. -/
def tradeJobs (trade : Resource → Order K → Job Resource K) (o : Order K) :
    Except Failure (List (Job Resource K)) := do
  if ← x.types.isBP o.type then return []
  else do
    let resource ← getResource x o.type
    return [trade resource o]

/-- Buy from a sell order. -/
def buy (r : Resource) (o : Order K) : Job Resource K where
  inputs := []
  outputs := [(r, 1)]
  cost := -o.price * (1 + x.settings.brokersFee)
  name := "Buy_" ++ r.name ++ "_" ++ toString o.id
  lowerLimit := 0
  upperLimit := o.volume

/-- Sell to a buy order. -/
def sell (r : Resource) (o : Order K) : Job Resource K where
  inputs := [(r, 1)]
  outputs := []
  cost := o.price * (1 - x.settings.brokersFee - x.settings.salesTax)
  name := "Sell_" ++ r.name ++ "_" ++ toString o.id
  lowerLimit := 0
  upperLimit := o.volume

/-- The orders of the market. -/
structure Orders (K : Type) where
  sellorders : List (Order K)
  buyorders : List (Order K)

/-- All trades. -/
def getMarketJobs (orders : Orders K) : Except Failure (List (Job Resource K)) := do
  let buys ← collectM (tradeJobs x (buy x)) orders.sellorders
  let sells ← collectM (tradeJobs x (sell x)) orders.buyorders
  return buys ++ sells

/-! ### Planetary production -/

/-- A schematic; a tier above the fourth is refused when schematics are loaded. -/
structure Planetary where
  product : TypeID
  producedQuantity : ℕ
  materials : Materials
  /-- In seconds. -/
  duration : ℕ
  tier : Fin 4

/-- The tier of an item: one above that of its schematic, zero for what is mined. -/
def materialTier (schematics : List Planetary) (id : TypeID) : ℕ :=
  match schematics.find? fun p => p.product = id with
  | some p => p.tier + 1
  | none => 0

/-- The fee for an item of a tier. -/
def materialFee (tier : ℕ) : K :=
  percent 17 * (([5, 400, 7200, 60000, 1200000] : List ℕ).getD tier 0 : ℕ)

/-- The facility that makes something of a tier. -/
def tierTime (tier : Fin 4) : Resource :=
  match tier with
  | 0 => .basicIndustryTime
  | 1 => .advancedIndustryTime
  | 2 => .advancedIndustryTime
  | 3 => .highTechIndustryTime

/-- The jobs that build facilities. -/
def facilityJobs : List (Job Resource K) :=
  [unlimited [(.cpu, 222), (.power, 815)] [(.basicIndustryTime, x.settings.timeFrame)] 0
      "Build_Basic_Industry_Facility",
    unlimited [(.cpu, 522), (.power, 715)] [(.advancedIndustryTime, x.settings.timeFrame)] 0
      "Build_Advanced_Industry_Facility",
    unlimited [(.cpu, 1122), (.power, 415)] [(.highTechIndustryTime, x.settings.timeFrame)] 0
      "Build_High_Tech_Production_Plant"]

/-- The items on planets so far, and the jobs so far. -/
structure PlanetaryState (K : Type) where
  planetaryItems : Finset TypeID
  jobs : List (Job Resource K)

/-- An item on a planet; when it is first used it gets jobs that bring it to the
surface and back. -/
def getPlanetaryResource (schematics : List Planetary) (id : TypeID) (name : String)
    (s : PlanetaryState K) : Except Failure (PlanetaryState K) :=
  if id ∈ s.planetaryItems then .ok s
  else do
    -- bringing an item down costs half of what bringing it up does
    let tier := materialTier schematics id
    let fee : K := materialFee tier
    let resource ← getResource x id
    return {
      planetaryItems := insert id s.planetaryItems
      jobs := s.jobs ++
        [unlimited [(resource, 1)] [(.planetaryItem id, 1)] (-(1 / 2) * fee)
            ("P" ++ toString tier ++ "_Import_" ++ name),
          unlimited [(.planetaryItem id, 1)] [(resource, 1)] (-fee)
            ("P" ++ toString tier ++ "_Export_" ++ name)] }

/-- One material of a schematic. -/
def planetaryMaterial (schematics : List Planetary) (s : PlanetaryState K) (m : TypeID × ℕ) :
    Except Failure (PlanetaryState K) := do
  let name ← x.names.getName m.1
  getPlanetaryResource x schematics m.1 name s

/-- One schematic: its materials, its product, and the job itself. -/
def planetaryJob (schematics : List Planetary) (s : PlanetaryState K) (p : Planetary) :
    Except Failure (PlanetaryState K) := do
  let s ← p.materials.foldlM (planetaryMaterial x schematics) s
  let pName ← x.names.getName p.product
  let s ← getPlanetaryResource x schematics p.product pName s
  let inputs := p.materials.map fun m => (Resource.planetaryItem m.1, (m.2 : K))
  return { s with
    jobs := s.jobs ++ [unlimited (inputs ++ [(tierTime p.tier, (p.duration : K))])
      [(.planetaryItem p.product, (p.producedQuantity : K))] 0
      ("P" ++ toString (p.tier + 1 : ℕ) ++ "_Produce_" ++ pName)] }

/-- All planetary jobs. -/
def getPlanetaryJobs (schematics : List Planetary) : Except Failure (List (Job Resource K)) := do
  let s ← schematics.foldlM (planetaryJob x schematics) ⟨∅, facilityJobs x⟩
  return s.jobs

/-! ### All jobs -/

/-- All jobs in the order in which they are added to the planner. -/
def generateJobs (schematics : List Planetary) (orders : Orders K) (jobs : Jobs K) :
    Except Failure (List (Job Resource K)) := do
  let planetary ← getPlanetaryJobs x schematics
  let market ← getMarketJobs x orders
  let production ← getManufacturingJobs x jobs.products
  let t2 ← getT2InventionJobs x jobs.inventions.t2Blueprints
  let t3 ← getT3InventionJobs x jobs.inventions.t3Blueprints
  let copy ← getCopyJobs x jobs.t1Copies
  return planetary ++ market ++ production ++ t2 ++ t3 ++ copy

end Generators

end Industry
end EveIndustryPlanner
