import EveIndustryPlanner.Lib.Attempt
import EveIndustryPlanner.Lib.Chase
import EveIndustryPlanner.Lib.Steps
import EveIndustryPlanner.Lib.Table
import EveIndustryPlanner.Lib.Worker
import EveIndustryPlanner.Market.Response

/-!
# Updating the orders of a region

The orders of a region come in pages, each of which names the next one.  The thread
that reads them posts a query for each order to the connection of the database and
goes on; at the end it waits until as many queries have reported as were made.  The
connection executes its queries one after the other, while pages are still read.
Every query has three statements without a transaction.

What the threads print is left out, and the numbers of pages, which are only counted.

## Main definitions

* `Tables`, `Tables.setInactive` — the database, and the orders that are no longer active.
* `SingleOrderHandler`, `run`, `execute` — a query, without and with its error handler.
* `Page`, `nextPage` — the pages, and the one behind a page.
* `State`, `step`, `Reachable` — the thread, the connection and the semaphore.
* `Integrity` — every row that belongs to an order has its order.

## Main results

* `execute_orders` — what a query does to the orders, however it ends.
* `Integrity.execute` — **no query leaves a row without its order.**
-/

namespace EveIndustryPlanner
namespace Market

open Pricing (Double)

/-- What else can be asked of JSON values. -/
class OrderJson (J : Type) extends Json J where
  isNull : J → Bool
  asBool : J → Option Bool

namespace OrderHandler3

/-! ### The database -/

/-- A row of the table `orders`. -/
structure OrderRow where
  orderid : ℤ
  typeid : ℤ
  station : ℤ
  volume_entered : ℤ
  duration : ℤ
  min_volume : ℤ
  active : ℤ
  deriving DecidableEq

/-- A row of the table `buy_orders`. -/
structure BuyOrderRow where
  orderid : ℤ
  range : String

/-- A row of the table `order_views`. -/
structure OrderViewRow where
  viewtime : ℤ
  orderid : ℤ
  price : Double
  volume : ℤ
  start_date : ℤ

/-- The primary key of `order_views`. -/
def OrderViewRow.key (r : OrderViewRow) : ℤ × ℤ := (r.viewtime, r.orderid)

/-- The tables that are written. -/
structure Tables where
  orders : Table OrderRow.orderid
  buyOrders : Table BuyOrderRow.orderid
  sellOrders : Table (id : ℤ → ℤ)
  orderViews : Table OrderViewRow.key

/-- `update orders set active = 0` for the orders of some stations. -/
def Tables.setInactive (db : Tables) (inRegion : ℤ → Bool) : Tables :=
  { db with
    orders := db.orders.update
      (fun row => if inRegion row.station then { row with active := 0 } else row)
      fun row => by split <;> rfl }

/-! ### Queries -/

variable {J : Type}

structure SingleOrderHandler (J : Type) where
  /-- The place in `singleOrderHandlers`. -/
  place : ℕ
  order : J
  id : ℕ
  type : ℕ
  station : ℕ
  volume_entered : ℕ
  start_date : ℤ
  duration : ℕ
  range : String
  price : Double
  volume : ℕ
  min_volume : ℕ
  buy : Bool

/-- The constructor. -/
def SingleOrderHandler.make [OrderJson J] (place : ℕ) (order : J) :
    Option (SingleOrderHandler J) := do
  let id ← asUInt64 (← member order "id")
  let type ← asUInt64 (← member order "type")
  let station ← asUInt64 (← member order "stationID")
  let volume_entered ← asUInt64 (← member order "volumeEntered")
  let (start_date, _) ← matchTime (← asString (← member order "issued")).toList
  let duration ← asUInt64 (← member order "duration")
  let range ← asString (← member order "range")
  let price ← asDouble (← member order "price")
  let volume ← asUInt64 (← member order "volume")
  let min_volume ← asUInt64 (← member order "minVolume")
  let buy ← OrderJson.asBool (← member order "buy")
  return { place, order, id, type, station, volume_entered, start_date, duration, range, price,
           volume, min_volume, buy }

/-- How a request for a page ends. -/
inductive Fetched where
  | body (text : String)
  /-- The response has another status. -/
  | httpException
  /-- There is no response. -/
  | otherException

/-- What a run of the program meets. -/
structure Setting where
  region : ℕ
  /-- How the requests end; they are counted. -/
  response : ℕ → String → Fetched
  hasType : ℤ → Bool
  hasStation : ℤ → Bool
  /-- The station is in the region. -/
  inRegion : ℤ → Bool
  /-- The database fails to execute a statement of a query. -/
  sqlError : ℕ → ℕ → Bool
  /-- The time at which a query is executed. -/
  viewtime : ℕ → ℤ

/-- Bind a statement and insert its row, unless the database refuses it. -/
def statement {R : Type} (row : Option R) (allowed : Tables → R → Bool)
    (write : Tables → R → Tables) : Attempt Unit Tables PUnit := do
  let db ← get
  match row with
  | none => throw ()
  | some row => if allowed db row then set (write db row) else throw ()

section Run

variable (env : Setting) (q : SingleOrderHandler J)

/-- The parameters of `insertOrder_`. -/
def SingleOrderHandler.orderRow : Option OrderRow := do
  let orderid ← bind q.id
  let typeid ← bind q.type
  let station ← bind q.station
  let volume_entered ← bind q.volume_entered
  let duration ← bind q.duration
  let min_volume ← bind q.min_volume
  return { orderid, typeid, station, volume_entered, duration, min_volume, active := 1 }

def insOrder : Attempt Unit Tables PUnit :=
  statement q.orderRow
    (fun _ row => env.hasType row.typeid && env.hasStation row.station && !env.sqlError q.place 0)
    fun db row => { db with orders := db.orders.insertOrReplace row }

/-- The order that a row of another table belongs to is there. -/
def hasOrder (db : Tables) (orderid : ℤ) : Bool := (db.orders.find orderid).isSome

def insBuyOrder : Attempt Unit Tables PUnit :=
  statement ((bind q.id).map fun orderid => (⟨orderid, q.range⟩ : BuyOrderRow))
    (fun db row => hasOrder db row.orderid && !env.sqlError q.place 1)
    fun db row => { db with buyOrders := db.buyOrders.insertOrIgnore row }

def insSellOrder : Attempt Unit Tables PUnit :=
  statement (bind q.id) (fun db orderid => hasOrder db orderid && !env.sqlError q.place 1)
    fun db orderid => { db with sellOrders := db.sellOrders.insertOrIgnore orderid }

/-- The parameters of `insertOrderView_`. -/
def SingleOrderHandler.orderViewRow : Option OrderViewRow := do
  let orderid ← bind q.id
  let volume ← bind q.volume
  return { viewtime := env.viewtime q.place, orderid, price := q.price, volume,
           start_date := q.start_date }

def insOrderView : Attempt Unit Tables PUnit :=
  statement (q.orderViewRow env)
    (fun db row => hasOrder db row.orderid && decide (0 ≤ row.volume) && !env.sqlError q.place 2)
    fun db row => { db with orderViews := db.orderViews.insertOrReplace row }

/-- `run` of a query, which may throw. -/
def run : Attempt Unit Tables PUnit := do
  insOrder env q
  (if q.buy then insBuyOrder env q else insSellOrder env q : Attempt Unit Tables PUnit)
  insOrderView env q

/-- A query as the connection executes it: `onSqlError` changes no table. -/
def execute (db : Tables) : Tables := ((run env q).exec db).2

end Run

/-! ### What a query does -/

section Spec

open Attempt

/-- How a statement ends. -/
theorem statement_ends {R : Type} {row : Option R} {allowed : Tables → R → Bool}
    {write : Tables → R → Tables} {Q : PUnit → Tables → Prop} {E : Unit → Tables → Prop}
    {db : Tables} (hok : ∀ r, row = some r → allowed db r = true → Q ⟨⟩ (write db r))
    (herror : row.filter (allowed db) = none → E () db) :
    (statement row allowed write).Ends Q E db := by
  unfold statement
  rw [ends_bind, ends_get]
  cases row with
  | none => exact herror rfl
  | some r =>
    dsimp only
    cases hallowed : allowed db r with
    | true =>
      rw [if_pos rfl]
      exact hok r rfl hallowed
    | false =>
      rw [if_neg (by simp)]
      exact herror (by simp [hallowed])

/-- What each statement keeps where it inserts its row. -/
theorem statement_keeps {R : Type} {row : Option R} {allowed : Tables → R → Bool}
    {write : Tables → R → Tables} {P : Tables → Prop}
    (h : ∀ db r, P db → row = some r → allowed db r = true → P (write db r)) :
    Keeps P (statement row allowed write) := fun db hdb =>
  statement_ends (fun r hr hallowed => h db r hdb hr hallowed) fun _ => hdb

variable (env : Setting)

/-- The row that a query inserts into `orders`, unless it is refused. -/
def SingleOrderHandler.inserted (q : SingleOrderHandler J) : Option OrderRow :=
  q.orderRow.filter fun row =>
    env.hasType row.typeid && env.hasStation row.station && !env.sqlError q.place 0

/-- The table `orders` with the row of a query. -/
def storeOrder (orders : Table OrderRow.orderid) (row : Option OrderRow) :
    Table OrderRow.orderid :=
  (row.map orders.insertOrReplace).getD orders

variable {env} {q : SingleOrderHandler J}

variable (env q) in
/-- The statements behind the first keep what they do not write. -/
theorem rest_keeps {P : Tables → Prop}
    (hbuy : ∀ db row, P db → hasOrder db row.orderid = true →
      P { db with buyOrders := db.buyOrders.insertOrIgnore row })
    (hsell : ∀ db orderid, P db → hasOrder db orderid = true →
      P { db with sellOrders := db.sellOrders.insertOrIgnore orderid })
    (hview : ∀ db row, P db → hasOrder db row.orderid = true →
      P { db with orderViews := db.orderViews.insertOrReplace row }) :
    Keeps P (if q.buy then insBuyOrder env q else insSellOrder env q) ∧
      Keeps P (insOrderView env q) := by
  constructor
  · cases q.buy with
    | true =>
      exact statement_keeps fun db row hdb _ hallowed =>
        hbuy db row hdb (Bool.and_eq_true_iff.mp hallowed).1
    | false =>
      exact statement_keeps fun db orderid hdb _ hallowed =>
        hsell db orderid hdb (Bool.and_eq_true_iff.mp hallowed).1
  · refine statement_keeps fun db row hdb _ hallowed => hview db row hdb ?_
    rw [Bool.and_eq_true, Bool.and_eq_true] at hallowed
    exact hallowed.1.1

/-- **A query stores its order before anything else**, and nothing behind it changes
`orders`. -/
theorem execute_orders (db : Tables) :
    (execute env q db).orders = storeOrder db.orders (q.inserted env) := by
  refine Ends.left (P := fun db' : Tables => db'.orders = storeOrder db.orders (q.inserted env)) ?_
  unfold run
  rw [ends_bind]
  refine statement_ends (fun row hrow hallowed => ?_) fun hnone => ?_
  · have hinserted : q.inserted env = some row :=
      Option.filter_eq_some_iff.mpr ⟨hrow, hallowed⟩
    obtain ⟨hsecond, hthird⟩ := rest_keeps env q
      (P := fun db' : Tables => db'.orders = db.orders.insertOrReplace row) (fun _ _ h _ => h)
      (fun _ _ h _ => h) fun _ _ h _ => h
    rw [hinserted]
    exact hsecond.bind (fun _ => hthird) { db with orders := db.orders.insertOrReplace row } rfl
  · have hinserted : q.inserted env = none := hnone
    rw [hinserted]
    rfl

/-- Every row that belongs to an order has its order. -/
structure Integrity (db : Tables) : Prop where
  buyOrders : ∀ row ∈ db.buyOrders.rows, hasOrder db row.orderid = true
  sellOrders : ∀ orderid ∈ db.sellOrders.rows, hasOrder db orderid = true
  orderViews : ∀ row ∈ db.orderViews.rows, hasOrder db row.orderid = true

/-- No order is lost where one is stored. -/
theorem hasOrder_insertOrReplace {db : Tables} {orderid : ℤ} (h : hasOrder db orderid = true)
    (row : OrderRow) :
    hasOrder { db with orders := db.orders.insertOrReplace row } orderid = true := by
  unfold hasOrder
  rw [Table.find_insertOrReplace]
  split
  · rfl
  · exact h

/-- **No query leaves a row without its order.** -/
theorem Integrity.execute {db : Tables} (h : Integrity db) : Integrity (execute env q db) := by
  refine Ends.left ?_
  have hfirst : Keeps Integrity (insOrder env q) := by
    refine statement_keeps fun db row hdb _ _ => ⟨?_, ?_, ?_⟩
    · exact fun r hr => hasOrder_insertOrReplace (hdb.buyOrders r hr) row
    · exact fun r hr => hasOrder_insertOrReplace (hdb.sellOrders r hr) row
    · exact fun r hr => hasOrder_insertOrReplace (hdb.orderViews r hr) row
  obtain ⟨hsecond, hthird⟩ := rest_keeps env q (P := Integrity)
    (fun db row hdb horder => { hdb with
      buyOrders := fun r hr => (Table.mem_of_mem_insertOrIgnore hr).elim (hdb.buyOrders r)
        fun heq => heq ▸ horder })
    (fun db orderid hdb horder => { hdb with
      sellOrders := fun r hr => (Table.mem_of_mem_insertOrIgnore hr).elim (hdb.sellOrders r)
        fun heq => heq ▸ horder })
    fun db row hdb horder => { hdb with
      orderViews := fun r hr => (Table.mem_of_mem_insertOrReplace hr).elim (hdb.orderViews r)
        fun heq => heq ▸ horder }
  unfold run
  exact (hfirst.bind fun _ => hsecond.bind fun _ => hthird) db h

/-- The id of the row of a query. -/
theorem SingleOrderHandler.orderid_of_orderRow {row : OrderRow} (h : q.orderRow = some row) :
    bind q.id = some row.orderid := by
  unfold orderRow at h
  obtain ⟨orderid, hid, h⟩ := Option.bind_eq_some_iff.mp h
  simp only [Option.bind_eq_bind, Option.bind_eq_some_iff, Option.pure_def, Option.some.injEq] at h
  obtain ⟨_, -, _, -, _, -, _, -, _, -, rfl⟩ := h
  exact hid

/-- The key of the view of a query, which passes the check of the table. -/
theorem SingleOrderHandler.orderViewRow_spec {orderid : ℤ} {view : OrderViewRow}
    (hid : bind q.id = some orderid) (h : q.orderViewRow env = some view) :
    view.viewtime = env.viewtime q.place ∧ view.orderid = orderid ∧ 0 ≤ view.volume := by
  unfold orderViewRow at h
  obtain ⟨orderid', hid', h⟩ := Option.bind_eq_some_iff.mp h
  obtain ⟨volume, hvolume, h⟩ := Option.bind_eq_some_iff.mp h
  obtain rfl := Option.some.inj h
  obtain rfl := Option.some.inj (hid.symm.trans hid')
  refine ⟨rfl, rfl, ?_⟩
  show 0 ≤ volume
  rw [eq_of_bind_eq_some hvolume]
  exact Int.natCast_nonneg _

/-- An order is there as one to buy or as one to sell. -/
def hasSide (db : Tables) (orderid : ℤ) : Bool → Bool
  | true => (db.buyOrders.find orderid).isSome
  | false => (db.sellOrders.find orderid).isSome

theorem hasSide_insertBuy {db : Tables} {orderid : ℤ} {buy : Bool}
    (h : hasSide db orderid buy = true) (row : BuyOrderRow) :
    hasSide { db with buyOrders := db.buyOrders.insertOrIgnore row } orderid buy = true := by
  cases buy with
  | true => exact Table.isSome_find_insertOrIgnore h row
  | false => exact h

theorem hasSide_insertSell {db : Tables} {orderid : ℤ} {buy : Bool}
    (h : hasSide db orderid buy = true) (row : ℤ) :
    hasSide { db with sellOrders := db.sellOrders.insertOrIgnore row } orderid buy = true := by
  cases buy with
  | true => exact h
  | false => exact Table.isSome_find_insertOrIgnore h row

variable (env q) in
/-- The order, its side and its view are there. -/
structure StoredAs (orderid : ℤ) (db : Tables) : Prop where
  order : hasOrder db orderid = true
  side : hasSide db orderid q.buy = true
  view : (db.orderViews.find (env.viewtime q.place, orderid)).isSome

variable (env q) in
/-- What a query should store is there. -/
def Stored (db : Tables) : Prop :=
  ∃ orderid, bind q.id = some orderid ∧ StoredAs env q orderid db

/-- The second statement ends without an exception if its order is there. -/
theorem side_ends {orderid : ℤ} {db : Tables} (hid : bind q.id = some orderid)
    (horder : hasOrder db orderid = true) (herror : env.sqlError q.place 1 = false) :
    (if q.buy then insBuyOrder env q else insSellOrder env q).Ends
      (fun _ db' => hasOrder db' orderid = true ∧ hasSide db' orderid q.buy = true)
      (fun _ _ => False) db := by
  cases hbuy : q.buy with
  | true =>
    refine statement_ends (fun row hrow _ => ⟨horder, ?_⟩) fun hnone => ?_
    · rw [hid] at hrow
      obtain rfl := Option.some.inj hrow
      simp [hasSide, Table.find_insertOrIgnore]
    · simp [hid, horder, herror] at hnone
  | false =>
    refine statement_ends (fun row hrow _ => ⟨horder, ?_⟩) fun hnone => ?_
    · rw [hid] at hrow
      obtain rfl := Option.some.inj hrow
      simp [hasSide, Table.find_insertOrIgnore]
    · simp [hid, horder, herror] at hnone

/-- **A query that is not refused stores its order, its side and its view.** -/
theorem stored_execute (db : Tables) {row : OrderRow} {view : OrderViewRow}
    (hrow : q.inserted env = some row) (hview : q.orderViewRow env = some view)
    (hside : env.sqlError q.place 1 = false) (hlast : env.sqlError q.place 2 = false) :
    Stored env q (execute env q db) := by
  have horder : q.orderRow = some row := (Option.filter_eq_some_iff.mp hrow).1
  have hid := SingleOrderHandler.orderid_of_orderRow horder
  obtain ⟨htime, hviewid, hvolume⟩ := SingleOrderHandler.orderViewRow_spec hid hview
  refine Ends.left (P := Stored env q) (Ends.mono (E := fun _ _ => False) ?_ (fun _ _ h => h)
    fun _ _ hfalse => hfalse.elim)
  unfold run
  rw [ends_bind]
  refine statement_ends (fun r hr _ => ?_) fun hnone => ?_
  · obtain rfl := Option.some.inj (horder.symm.trans hr)
    have hfound : hasOrder { db with orders := db.orders.insertOrReplace row } row.orderid = true := by
      unfold hasOrder
      rw [Table.find_insertOrReplace, if_pos rfl]
      rfl
    rw [ends_bind]
    refine (side_ends hid hfound hside).mono (fun _ db' hdb' => ?_) fun _ _ hfalse => hfalse
    refine statement_ends (fun r' hr' _ => ⟨row.orderid, hid, hdb'.1, hdb'.2, ?_⟩) fun hnone => ?_
    · obtain rfl := Option.some.inj (hview.symm.trans hr')
      rw [Table.find_insertOrReplace, if_pos (Prod.ext htime hviewid)]
      rfl
    · simp [hview, hviewid, hdb'.1, hlast] at hnone
      omega
  · rw [SingleOrderHandler.inserted, hnone] at hrow
    exact absurd hrow (by simp)

/-- What was stored stays. -/
theorem Stored.execute {q' : SingleOrderHandler J} {db : Tables} (h : Stored env q' db) :
    Stored env q' (execute env q db) := by
  obtain ⟨orderid, hid, hstored⟩ := h
  have hfirst : Keeps (StoredAs env q' orderid) (insOrder env q) :=
    statement_keeps fun db row hdb _ _ => { hdb with
      order := hasOrder_insertOrReplace hdb.order row }
  obtain ⟨hsecond, hthird⟩ := rest_keeps env q (P := StoredAs env q' orderid)
    (fun db row hdb _ => { hdb with side := hasSide_insertBuy hdb.side row })
    (fun db row hdb _ => { hdb with side := hasSide_insertSell hdb.side row })
    fun db row hdb _ => { hdb with
      view := Table.isSome_find_insertOrReplace hdb.view row }
  refine ⟨orderid, hid, Ends.left ?_⟩
  exact (hfirst.bind fun _ => hsecond.bind fun _ => hthird) db hstored

end Spec

/-! ### Pages -/

variable [OrderJson J]

/-- `stream >> root` and `root["items"]`. -/
def readPage (J : Type) [OrderJson J] (body : String) : Option (J × List J) := do
  let root ← parse body
  let orders ← items root
  return (root, orders)

/-- `root["next"]["href"]`, if the next page is not null; both may throw. -/
def nextHref (root : J) : Option (Option String) := do
  let next ← member root "next"
  if OrderJson.isNull next then return none
  else return some (← asString (← member next "href"))

def firstUrl (env : Setting) : String :=
  "https://esi.evetech.net/latest/markets/" ++ toString env.region ++ "/orders/?page=1"

/-! ### The threads -/

/-- How far the thread is. -/
inductive Phase (J : Type) where
  /-- Before the first request. -/
  | starting
  /-- A page was received. -/
  | reading (body : String)
  /-- The loop over the orders of a page has come to the given ones. -/
  | posting (root : J) (rest : List J)
  | fetching (url : String)
  /-- The last `waitFor`. -/
  | waiting
  /-- The destructor. -/
  | destroying
  | ended
  /-- A query was moved in memory while the connection may refer to it. -/
  | undefined

/-- The thread, the connection and the semaphore. -/
structure State (J : Type) where
  phase : Phase J
  /-- How many requests were sent. -/
  requests : ℕ
  sig_caught : Bool
  singleOrderHandlers : List (SingleOrderHandler J)
  writer : Worker (SingleOrderHandler J)
  db : Tables
  /-- The count of the semaphore. -/
  count : ℕ

/-- The handler was constructed. -/
def State.init (db : Tables) : State J := ⟨.starting, 0, false, [], .idle, db, 0⟩

/-- The number of queries for which there is room. -/
def reserved : ℕ := 1000000

/-- The next step of the thread that reads the pages, unless it has to wait. -/
def State.read (env : Setting) (s : State J) : Option (State J) :=
  match s.phase with
  | .starting =>
    match env.response s.requests (firstUrl env) with
    | .body text => some { s with phase := .reading text, requests := s.requests + 1 }
    | _ => some { s with phase := .destroying, requests := s.requests + 1 }
  | .reading body =>
    match readPage J body with
    | some (root, orders) => some { s with phase := .posting root orders }
    | none => some { s with phase := .waiting }
  | .posting root (order :: rest) =>
    match SingleOrderHandler.make s.singleOrderHandlers.length order with
    | some q =>
      if s.singleOrderHandlers.length < reserved then
        some { s with
          phase := .posting root rest
          singleOrderHandlers := s.singleOrderHandlers ++ [q]
          writer := s.writer.post q }
      else some { s with phase := .undefined }
    | none => some { s with phase := .posting root rest }
  | .posting root [] =>
    match nextHref root with
    | some (some url) => some { s with phase := .fetching url }
    | _ => some { s with phase := .waiting }
  | .fetching url =>
    match env.response s.requests url with
    | .body text =>
      if text ≠ "" ∧ s.sig_caught = false then
        some { s with phase := .reading text, requests := s.requests + 1 }
      else some { s with phase := .waiting, requests := s.requests + 1 }
    | .httpException => some { s with phase := .waiting, requests := s.requests + 1 }
    | .otherException => some { s with phase := .destroying, requests := s.requests + 1 }
  | .waiting =>
    if s.count = s.singleOrderHandlers.length then some { s with phase := .destroying } else none
  | .destroying =>
    if s.singleOrderHandlers.length ≤ s.count then
      some { s with phase := .ended, count := s.count - s.singleOrderHandlers.length }
    else none
  | .ended => none
  | .undefined => none

/-- Who takes the next step. -/
inductive Action where
  /-- The thread that reads the pages. -/
  | read
  /-- The connection takes a query off its queue and executes it. -/
  | execute
  /-- The query that was executed releases the semaphore. -/
  | release
  /-- The handler of a signal. -/
  | signal

/-- One step of one of the threads. -/
def step (env : Setting) (s : State J) : Action → Option (State J)
  | .read => s.read env
  | .execute => do
    let (q, writer) ← s.writer.start
    return { s with writer, db := execute env q s.db }
  | .release => do
    let (_, writer) ← s.writer.finish
    return { s with writer, count := s.count + 1 }
  | .signal => some { s with sig_caught := true }

/-- The states of the runs on a database, over all orders of steps: `main` has made
the orders of the region inactive before. -/
def Reachable (env : Setting) (db : Tables) (s : State J) : Prop :=
  Steps (step env) (State.init (db.setInactive env.inRegion)) s

end OrderHandler3
end Market
end EveIndustryPlanner
