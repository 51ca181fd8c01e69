import EveIndustryPlanner.Industry.Workspace
import EveIndustryPlanner.Lib.Collect
import EveIndustryPlanner.Planning.Planner

/-!
# Resources

Resources are made when they are first asked for and are the same ever after, so
they are known from what was asked for.

## Main definitions

* `BlueprintEfficiency`, `DecryptorProperty`, `bpes`, `decryptors` — the tables.
* `Resource`, `Resource.name` — the resources of the jobs.
* `PlannerAndStuff` — what the jobs are made with.
* `getResource`, `getBPO`, `getBPC` — the resources, as far as they have names.
-/

namespace EveIndustryPlanner
namespace Industry

open Planning

/-! ### Tables -/

/-- Efficiencies in hundredths. -/
structure BlueprintEfficiency where
  materialEfficiency : ℕ
  timeEfficiency : ℕ
  deriving DecidableEq, Repr

/-- A decryptor; the factor of the probability is in tenths. -/
structure DecryptorProperty where
  decryptor : Option TypeID
  efficiency : BlueprintEfficiency
  runModifier : ℕ
  probabilityModifier : ℕ
  deriving DecidableEq, Repr

/-- Hundredths as a number. -/
def percent {K : Type} [Field K] (n : ℕ) : K := n / (100 : ℕ)

/-- Tenths as a number. -/
def tenths {K : Type} [Field K] (n : ℕ) : K := n / (10 : ℕ)

/-- The efficiencies of the blueprints that decryptors lead to. -/
def bpes : List BlueprintEfficiency :=
  [⟨98, 96⟩, ⟨100, 94⟩, ⟨96, 96⟩, ⟨97, 88⟩, ⟨95, 90⟩, ⟨96, 86⟩, ⟨97, 98⟩, ⟨99, 92⟩]

/-- The decryptors, and none. -/
def decryptors : List DecryptorProperty :=
  [⟨none, ⟨98, 96⟩, 0, 10⟩, ⟨some 34203, ⟨100, 94⟩, 9, 6⟩, ⟨some 34208, ⟨96, 96⟩, 7, 9⟩,
    ⟨some 34206, ⟨97, 88⟩, 2, 10⟩, ⟨some 34205, ⟨95, 90⟩, 0, 11⟩, ⟨some 34201, ⟨96, 86⟩, 1, 12⟩,
    ⟨some 34204, ⟨97, 98⟩, 3, 15⟩, ⟨some 34202, ⟨99, 92⟩, 4, 18⟩, ⟨some 34207, ⟨97, 98⟩, 2, 19⟩]

/-- Every blueprint that an invention leads to is one that products are made with. -/
theorem efficiency_mem_bpes : ∀ d ∈ decryptors, d.efficiency ∈ bpes := by decide

/-- An efficiency as it is printed, with six digits. -/
def hundredths (n : ℕ) : String :=
  toString (n / 100) ++ "." ++ toString (n / 10 % 10) ++ toString (n % 10) ++ "0000"

/-- Both efficiencies of a blueprint as they are printed. -/
def makeBpeString (bpe : BlueprintEfficiency) : String :=
  hundredths bpe.materialEfficiency ++ "_" ++ hundredths bpe.timeEfficiency

example : makeBpeString ⟨100, 94⟩ = "1.000000_0.940000" := by decide

/-- What jobs take and make. -/
inductive Resource where
  | item (id : TypeID)
  | planetaryItem (id : TypeID)
  | bpoTime (id : TypeID)
  | bpc (id : TypeID) (bpe : BlueprintEfficiency)
  | labTime
  | productionLineTime
  | cpu
  | power
  | basicIndustryTime
  | advancedIndustryTime
  | highTechIndustryTime
  deriving DecidableEq, Repr

/-- The names of the resources. -/
def Resource.name : Resource → String
  | item id => toString id
  | planetaryItem id => "Planetary_" ++ toString id
  | bpoTime id => toString id ++ "_BPO_Time"
  | bpc id bpe => toString id ++ "_" ++ makeBpeString bpe ++ "_BPC"
  | labTime => "LabTime"
  | productionLineTime => "ProductionLineTime"
  | cpu => "CPU"
  | power => "Power"
  | basicIndustryTime => "BasicIndustryTime"
  | advancedIndustryTime => "AdvancedIndustryTime"
  | highTechIndustryTime => "HighTechIndustryTime"

/-- The resources with their stocks. -/
def resources {K : Type} (lowerLimit : Resource → K) : Resources Resource K where
  name := Resource.name
  lowerLimit := lowerLimit

/-! ### What the jobs are made with -/

/-- The settings. -/
structure Settings (K : Type) where
  ignoreList : Finset TypeID
  bpoPriceLimit : K
  productionTax : K
  copyTax : K
  inventionTax : K
  brokersFee : K
  salesTax : K
  timeFrame : K

/-- What the jobs are made with. -/
structure PlannerAndStuff (K : Type) where
  settings : Settings K
  skills : Skills K
  avgPrices : Prices K
  values : TypeID → Option K
  names : Names
  types : Types

section Lookups

variable {K : Type} (x : PlannerAndStuff K)

/-- The item. -/
def getResource (id : TypeID) : Except Failure Resource := do
  let _ ← x.names.getName id
  return .item id

/-- The time of a blueprint. -/
def getBPO (id : TypeID) : Except Failure Resource := do
  let _ ← x.names.getName id
  return .bpoTime id

/-- A copy of a blueprint; which runs of it are in stock depends on its technology. -/
def getBPC (id : TypeID) (bpe : BlueprintEfficiency) : Except Failure Resource := do
  -- the answer only chooses the stock, but the check may throw
  let _ ← x.types.isT1BP id
  let _ ← x.names.getName id
  return .bpc id bpe

/-- `values.at`. -/
def valueAt (id : TypeID) : Except Failure K :=
  match x.values id with
  | some v => .ok v
  | none => .error (.noJobValue id)

/-- A job without a limit. -/
def unlimited [Field K] (inputs outputs : Planning.Materials Resource K) (cost : K)
    (name : String) : Job Resource K :=
  ⟨inputs, outputs, cost, name, 0, Planning.infinity⟩

end Lookups

end Industry
end EveIndustryPlanner
