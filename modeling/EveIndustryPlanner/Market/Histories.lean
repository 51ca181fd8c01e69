import EveIndustryPlanner.Lib.Steps
import EveIndustryPlanner.Lib.Table
import EveIndustryPlanner.Lib.Worker
import EveIndustryPlanner.Market.Response

/-!
# Saving the histories of the market

Each type whose history is out of date has a request.  A thread that handles a
response posts a query for each record to the connection of the database, waits
until they are done, posts the query that marks the type as up to date, and
waits again.  The threads and the connection take their steps in any order.

## Main definitions

* `Tables`, `outdatedHistories` — the database and the types that are out of date.
* `HistoryQuery`, `Query` — what is posted to the connection.
* `Setting` — the responses, the failures and the clock of one run.
* `Setting.run`, `Setting.execute` — a query, without and with its error handler.
* `Request`, `Request.step` — a request and the next step of the thread that
  handles it.
* `State`, `step`, `Reachable` — all requests with the connection they share.
-/

namespace EveIndustryPlanner
namespace Market

open Pricing (Double)

/-! ### The database -/

/-- A row of the table `history`. -/
structure HistoryRow where
  typeid : ℤ
  date : ℤ
  region : ℤ
  orders : ℤ
  low : Double
  high : Double
  average : Double
  quantity : ℤ
  deriving DecidableEq

/-- The primary key of `history`. -/
def HistoryRow.key (r : HistoryRow) : ℤ × ℤ × ℤ := (r.typeid, r.date, r.region)

/-- A row of the table `last_history_update`. -/
structure UpdateRow where
  typeid : ℤ
  region : ℤ
  date : ℤ
  deriving DecidableEq

/-- The primary key of `last_history_update`. -/
def UpdateRow.key (r : UpdateRow) : ℤ × ℤ := (r.typeid, r.region)

/-- The region whose market is asked for. -/
def theForge : ℤ := 10000002

/-- The tables that are used. -/
structure Tables where
  types : List ℕ
  /-- `typeid` is the primary key of `types`. -/
  nodup : types.Nodup
  history : Table HistoryRow.key
  lastHistoryUpdate : Table UpdateRow.key

/-- The date of an update is a day ago, or it is null. -/
def outdated (now : ℤ) : Option UpdateRow → Bool
  | some row => row.date ≤ now - 86400
  | none => true

/-- The rows of `types left outer join last_history_update` for one type. -/
def Tables.updates (db : Tables) (typeid : ℕ) : List (Option UpdateRow) :=
  match db.lastHistoryUpdate.rows.filter fun row => row.typeid = (typeid : ℤ) with
  | [] => [none]
  | rows => rows.map some

/-- The types whose history is out of date. -/
def outdatedHistories (db : Tables) (now : ℤ) : List ℕ :=
  db.types.flatMap fun typeid =>
    ((db.updates typeid).filter (outdated now)).map fun _ => typeid

/-! ### Queries -/

variable {ι J : Type}

/-- A record of the response to a request. -/
structure HistoryQuery (ι J : Type) where
  parent : ι
  type : ℕ
  /-- The place of the record in the response. -/
  place : ℕ
  item : J
  volume : ℕ
  then_time_t : ℤ
  orderCount : ℕ
  avg : Double
  low : Double
  high : Double

/-- What is posted to the connection. -/
inductive Query (ι J : Type) where
  | history (q : HistoryQuery ι J)
  | update (parent : ι)

/-- The request whose lock a query releases. -/
def Query.parent : Query ι J → ι
  | history q => q.parent
  | update parent => parent

/-- The constructor of `HistoryQuery`. -/
def HistoryQuery.make [Json J] (parent : ι) (type place : ℕ) (item : J) :
    Option (HistoryQuery ι J) := do
  let time ← strptime (← asString (← member item "date"))
  let volume ← asUInt64 (← member item "volume")
  let then_time_t := timegm time
  let orderCount ← asUInt64 (← member item "orderCount")
  let avg ← asDouble (← member item "avgPrice")
  let low ← asDouble (← member item "lowPrice")
  let high ← asDouble (← member item "highPrice")
  return { parent, type, place, item, volume, then_time_t, orderCount, avg, low, high }

/-- The parameters of `insertStmt_`, in the order of the columns. -/
def HistoryQuery.row (q : HistoryQuery ι J) : Option HistoryRow := do
  let typeid ← bind q.type
  let orders ← bind q.orderCount
  let quantity ← bind q.volume
  return { typeid, date := q.then_time_t, region := theForge, orders, low := q.low,
           high := q.high, average := q.avg, quantity }

/-- What a run of the program meets. -/
structure Setting (ι J : Type) where
  types : ι → ℕ
  response : ι → Response
  /-- The database fails to execute a query. -/
  sqlError : Query ι J → Bool
  /-- The constraints of `history`: a row that violates one is ignored. -/
  accepts : HistoryRow → Bool
  /-- The time at which a type is marked. -/
  now : ι → ℤ

namespace Setting

variable (env : Setting ι J)

/-- `run` of a query, which may throw. -/
def run (db : Tables) : Query ι J → Option Tables
  | .history q => do
    let row ← q.row
    if env.sqlError (.history q) then none
    else if env.accepts row then return { db with history := db.history.insertOrIgnore row }
    else return db
  | .update parent => do
    let typeid ← bind (env.types parent)
    if env.sqlError (.update parent) then none
    else return { db with
      lastHistoryUpdate := db.lastHistoryUpdate.insertOrReplace
        ⟨typeid, theForge, env.now parent⟩ }

/-- A query as the connection executes it: `onSqlError` changes no table. -/
def execute (db : Tables) (q : Query ι J) : Tables := (env.run db q).getD db

/-- The body of the response to a request. -/
def body (i : ι) : Option String := (env.response i).body

end Setting

/-! ### Requests -/

/-- How far a request is. -/
inductive Phase (J : Type) where
  /-- The response is not there. -/
  | waiting
  /-- The loop over the records has come to the given one. -/
  | posting (place : ℕ) (rest : List J)
  /-- The first `waitFor`. -/
  | firstWait
  /-- Behind the first `waitFor`. -/
  | updating
  /-- The second `waitFor`. -/
  | secondWait
  /-- Before `finalize`. -/
  | finalizing
  | finished

/-- A request. -/
structure Request (ι J : Type) where
  phase : Phase J
  queries : List (HistoryQuery ι J)
  /-- The semaphore of the request. -/
  lock : ℕ
  /-- How often the request released the semaphore of the handler. -/
  released : ℕ

/-- A request that was sent. -/
def Request.sent : Request ι J := ⟨.waiting, [], 0, 0⟩

/-- What a step of a request does: the request afterwards, the queries it posts,
and how often it releases the semaphore of the handler. -/
structure Effect (ι J : Type) where
  request : Request ι J
  posts : List (Query ι J)
  releases : ℕ

/-- The next step of the thread that handles a request, unless it has to wait. -/
def Request.step [Json J] (env : Setting ι J) (i : ι) (r : Request ι J) : Option (Effect ι J) :=
  match r.phase with
  | .waiting =>
    match env.body i with
    | some body => some ⟨{ r with phase := .posting 0 (readItems J body) }, [], 0⟩
    | none => some ⟨{ r with phase := .finalizing }, [], 0⟩
  | .posting _ [] => some ⟨{ r with phase := .firstWait }, [], 0⟩
  | .posting place (item :: rest) =>
    match HistoryQuery.make i (env.types i) place item with
    | some q =>
      some ⟨{ r with phase := .posting (place + 1) rest, queries := r.queries ++ [q] },
        [.history q], 0⟩
    | none => some ⟨{ r with phase := .posting (place + 1) rest }, [], 0⟩
  | .firstWait =>
    if r.lock = r.queries.length then some ⟨{ r with phase := .updating }, [], 0⟩ else none
  | .updating => some ⟨{ r with phase := .secondWait }, [.update i], 0⟩
  | .secondWait =>
    if r.lock = r.queries.length + 1 then some ⟨{ r with phase := .finalizing }, [], 0⟩ else none
  | .finalizing => some ⟨{ r with phase := .finished, released := r.released + 1 }, [], 1⟩
  | .finished => none

/-! ### Runs -/

/-- The requests, the connection they share, and the semaphore of the handler. -/
structure State (ι J : Type) where
  requests : ι → Request ι J
  writer : Worker (Query ι J)
  db : Tables
  count : ℕ

/-- All requests were sent. -/
def State.init (db : Tables) : State ι J := ⟨fun _ => .sent, .idle, db, 0⟩

/-- Who takes the next step. -/
inductive Action (ι : Type) where
  /-- The thread that handles a request. -/
  | request (i : ι)
  /-- The connection takes a query off its queue and executes it. -/
  | execute
  /-- The query that was executed releases the lock of its request. -/
  | release

variable [DecidableEq ι] [Json J]

/-- One step of one of the threads. -/
def step (env : Setting ι J) (s : State ι J) : Action ι → Option (State ι J)
  | .request i => do
    let e ← (s.requests i).step env i
    return { s with
      requests := Function.update s.requests i e.request
      writer := e.posts.foldl Worker.post s.writer
      count := s.count + e.releases }
  | .execute => do
    let (q, writer) ← s.writer.start
    return { s with writer, db := env.execute s.db q }
  | .release => do
    let (q, writer) ← s.writer.finish
    let r := s.requests q.parent
    return { s with
      writer
      requests := Function.update s.requests q.parent { r with lock := r.lock + 1 } }

/-- The states of the runs on a database, over all orders of steps. -/
def Reachable (env : Setting ι J) (db : Tables) (s : State ι J) : Prop :=
  Steps (step env) (State.init db) s

end Market
end EveIndustryPlanner
