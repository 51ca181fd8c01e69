import EveIndustryPlanner.Emdr.HaulData
import EveIndustryPlanner.Lib.Collect
import EveIndustryPlanner.Lib.DenseProgram
import EveIndustryPlanner.Lib.Extremum
import EveIndustryPlanner.Lib.Rounding

/-!
# The haul between two stations

What is bought at one station and sold at another one is decided by a linear
program with one variable for each order.  Its rows are numbered by counters:
two for each order from the start, then one for each item, and the last two for
the capacity of the ship and for the wealth of the pilot.

## Main definitions

* `ItemOrders` — one side of a station.
* `profitable` — the scan that lets a pair of stations pass.
* `countItem`, `counts`, `addBuy`, `addSell`, `addItem`, `buildProgram` — the program.
* `helper`, `printSolution` — a pair of stations, and the solution of its program.
* `maxIskHaul` — all pairs of stations.
-/

namespace EveIndustryPlanner
namespace Emdr

/-! ### One side of a station -/

/-- The orders of one side of a station by item and order id, as the hash maps are
traversed. -/
abbrev ItemOrders (P : Type) := AList fun _ : UInt64 => AList fun _ : UInt64 => HaulOrder P

/-- What `at` throws where there is no entry. -/
def outOfRange : Fault := .runtimeError "unordered_map::at"

/-- `map.at(key)`. -/
def lookupAt {V : Type} (m : Map UInt64 V) (key : UInt64) : Except Fault V :=
  match m key with
  | some value => .ok value
  | none => .error outOfRange

/-- A 32-bit counter. -/
def unsigned (n : ℕ) : ℕ := n % 2 ^ 32

section Helper

variable {K : Type}

/-- `side.at(itemID).orders`. -/
def ItemOrders.at (side : ItemOrders K) (itemID : UInt64) :
    Except Fault (AList fun _ : UInt64 => HaulOrder K) := lookupAt (fun k => side.lookup k) itemID

/-- The orders of an item, in the order of the traversal. -/
def entries (orders : AList fun _ : UInt64 => HaulOrder K) : List (UInt64 × HaulOrder K) :=
  orders.entries.map fun e => (e.1, e.2)

/-- The items of both stations. -/
def intersection (itemsA itemsB : Finset UInt64) : List UInt64 := sortIDs (itemsA ∩ itemsB)

/-! ### The scan -/

section Scan

variable [LinearOrder K]

/-- The order to buy that is compared, by the comparison of the source. -/
def maxBuy (buyOrders : List (UInt64 × HaulOrder K)) : Option (UInt64 × HaulOrder K) :=
  maxElement (fun a b => a.2.price > b.2.price) buyOrders

/-- The order to sell that is compared. -/
def minSell (sellOrders : List (UInt64 × HaulOrder K)) : Option (UInt64 × HaulOrder K) :=
  minElement (fun a b => a.2.price < b.2.price) sellOrders

/-- The scan of the items, up to the first one that is found profitable. -/
def profitable (sellOrders buyOrders : ItemOrders K) : List UInt64 → Except Fault Bool
  | [] => .ok false
  | itemID :: items => do
    let maxBuy ← deref (maxBuy (entries (← buyOrders.at itemID)))
    let minSell ← deref (minSell (entries (← sellOrders.at itemID)))
    if minSell.2.price < maxBuy.2.price then return true
    else profitable sellOrders buyOrders items

end Scan

/-! ### The program -/

/-- Whether a variable is what is bought or what is sold. -/
inductive OrderType where
  | BUY
  | SELL
  deriving DecidableEq, Repr

/-- The order a variable stands for. -/
structure VariableInfo where
  itemID : UInt64
  orderID : UInt64
  type : OrderType
  deriving DecidableEq, Repr

/-- The constraints of the program. -/
inductive Constraint where
  | upper (v : ℕ)
  | lower (v : ℕ)
  | item (itemID : UInt64)
  | capacity
  | wealth
  deriving DecidableEq, Repr

/-- The constraints and the variables for the orders of an item. -/
def countItem (sellOrders buyOrders : ItemOrders K) (count : ℕ × ℕ) (itemID : UInt64) :
    Except Fault (ℕ × ℕ) := do
  let sells ← sellOrders.at itemID
  let buys ← buyOrders.at itemID
  let orderCount := (entries sells).length + (entries buys).length
  return (count.1 + 2 * orderCount, unsigned (count.2 + 2 * orderCount))

/-- The loop that counts the constraints and the variables. -/
def counts (sellOrders buyOrders : ItemOrders K) (items : List UInt64) : Except Fault (ℕ × ℕ) :=
  items.foldlM (countItem sellOrders buyOrders) (2 + items.length, 0)

/-- The program while it is built. -/
structure Building (K : Type) where
  program : DenseProgram Constraint K
  v : ℕ
  constr : ℕ
  currentTypeConstraint : ℕ
  variableMap : List VariableInfo

section Build

variable [Field K]

/-- The bounds of a variable. -/
def boundWrites (v constr : ℕ) (order : HaulOrder K) : List (Write Constraint K) :=
  [.a (.upper v) constr v 1, .b (.upper v) constr (nearestDouble order.quantity.toNat : ℕ),
    .a (.lower v) (unsigned (constr + 1)) v (-1), .b (.lower v) (unsigned (constr + 1)) 0]

/-- One more variable: its bounds, and what else is written for it. -/
def Building.add (s : Building K) (info : VariableInfo) (order : HaulOrder K)
    (others : List (Write Constraint K)) : Except Fault (Building K) := do
  let program ← s.program.writes (boundWrites s.v s.constr order ++ others)
  return { s with
    program := program
    v := unsigned (s.v + 1)
    constr := unsigned (unsigned (s.constr + 1) + 1)
    variableMap := s.variableMap ++ [info] }

/-- A sell order of the first station. -/
def addBuy (itemID : UInt64) (vol : K) (capacityConstraint wealthConstraint : ℕ)
    (s : Building K) (order : UInt64 × HaulOrder K) : Except Fault (Building K) :=
  s.add ⟨itemID, order.1, .BUY⟩ order.2
    [.a (.item itemID) s.currentTypeConstraint s.v (-1), .a .capacity capacityConstraint s.v vol,
      .a .wealth wealthConstraint s.v order.2.price, .c s.v (-order.2.price)]

/-- A buy order of the second station. -/
def addSell (itemID : UInt64) (s : Building K) (order : UInt64 × HaulOrder K) :
    Except Fault (Building K) :=
  s.add ⟨itemID, order.1, .SELL⟩ order.2
    [.a (.item itemID) s.currentTypeConstraint s.v 1, .c s.v order.2.price]

/-- All orders for an item. -/
def addItem (sellOrders buyOrders : ItemOrders K) (volume : Map UInt64 K)
    (capacityConstraint wealthConstraint : ℕ) (s : Building K) (itemID : UInt64) :
    Except Fault (Building K) := do
  let vol ← lookupAt volume itemID
  let sells ← sellOrders.at itemID
  let s ← (entries sells).foldlM (addBuy itemID vol capacityConstraint wealthConstraint) s
  let buys ← buyOrders.at itemID
  let s ← (entries buys).foldlM (addSell itemID) s
  return { s with currentTypeConstraint := s.currentTypeConstraint + 1 }

/-- The program of a pair of stations. -/
def buildProgram (sellOrders buyOrders : ItemOrders K) (volume : Map UInt64 K)
    (items : List UInt64) : Except Fault (Building K) := do
  let (constraintCount, variableCount) ← counts sellOrders buyOrders items
  let currentTypeConstraint := constraintCount - items.length - 2
  let capacityConstraint := constraintCount - 2
  let wealthConstraint := constraintCount - 1
  let program ← (DenseProgram.zeros constraintCount variableCount).writes
    [.b .capacity capacityConstraint 3900, .b .wealth wealthConstraint 75000000]
  items.foldlM (addItem sellOrders buyOrders volume capacityConstraint wealthConstraint)
    ⟨program, 0, 0, currentTypeConstraint, []⟩

end Build

/-! ### A pair of stations -/

/-- How far a pair of stations gets. -/
inductive Haul (K : Type) where
  /-- No item is bought and sold. -/
  | disjoint
  /-- No item was found profitable. -/
  | unprofitable
  /-- The program goes to the optimizer. -/
  | built (s : Building K)

variable [Field K] [LinearOrder K]

/-- A pair of stations, up to its program. -/
def helper (sellOrders : ItemOrders K) (itemsA : Finset UInt64) (buyOrders : ItemOrders K)
    (itemsB : Finset UInt64) (volume : Map UInt64 K) : Except Fault (Haul K) :=
  let items := intersection itemsA itemsB
  if items.isEmpty then .ok .disjoint
  else do
    if ← profitable sellOrders buyOrders items then
      return .built (← buildProgram sellOrders buyOrders volume items)
    else return .unprofitable

/-- The orders that are traded with: what is bought was for sale. -/
def sideOf (sellOrders buyOrders : ItemOrders K) : OrderType → ItemOrders K
  | .BUY => sellOrders
  | .SELL => buyOrders

/-- The price of the order a variable stands for. -/
def priceAt (sellOrders buyOrders : ItemOrders K) (info : VariableInfo) : Except Fault K := do
  let orders ← (sideOf sellOrders buyOrders info.type).at info.itemID
  let order ← lookupAt (fun k => orders.lookup k) info.orderID
  return order.price

/-- A line of the solution: what to do, how much of what, and the price. -/
structure SolutionLine (K : Type) where
  type : OrderType
  amount : K
  name : String
  price : K

/-- One round of the loop that prints the solution. -/
def printVariable (sellOrders buyOrders : ItemOrders K) (name : Map UInt64 String)
    (variableMap : List VariableInfo) (solution : ℕ → K) (v : ℕ) :
    Except Fault (List (SolutionLine K)) := do
  let info ← deref variableMap[v]?
  if 0 < solution v then do
    let itemName ← lookupAt name info.itemID
    let price ← priceAt sellOrders buyOrders info
    return [⟨info.type, solution v, itemName, price⟩]
  else return []

/-- The loop that prints the solution. -/
def printSolution (sellOrders buyOrders : ItemOrders K) (name : Map UInt64 String)
    (s : Building K) (solution : ℕ → K) : Except Fault (List (SolutionLine K)) :=
  collectM (printVariable sellOrders buyOrders name s.variableMap solution)
    (List.range s.program.cols)

/-- The orders of a station. -/
structure Station (K : Type) where
  buyOrders : ItemOrders K
  sellOrders : ItemOrders K

/-- The items of which a station has orders on one side. -/
def itemsOf (side : ItemOrders K) : Finset UInt64 :=
  ((side.entries.filter fun e => !e.2.entries.isEmpty).map Sigma.fst).toFinset

/-- All pairs of stations. -/
def maxIskHaul (stations : List (UInt64 × Station K)) (volume : Map UInt64 K) :
    Except Fault (List (Haul K)) :=
  (stations.product stations).mapM fun (stationA, stationB) =>
    helper stationA.2.sellOrders (itemsOf stationA.2.sellOrders) stationB.2.buyOrders
      (itemsOf stationB.2.buyOrders) volume

end Helper

end Emdr
end EveIndustryPlanner
