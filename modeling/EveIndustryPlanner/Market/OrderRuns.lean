import EveIndustryPlanner.Market.OrderUpdates

/-!
# Runs of the update of orders

The thread that reads pages and the connection take their steps in any order.  What is
known of a state are the pages that were read and the queries that were made of their
orders; the queries that the connection is done with are a prefix of those, and the
semaphore counts them.  So the handler is only destroyed when all queries were
executed, also if it is left by an exception.

## Main definitions

* `firstPage`, `nextPage`, `Received` — the pages that are received, one after the other.
* `handlersOf` — the queries of some orders.
* `Inv` — what is known of every state.
* `AllRead` — all pages were read, or those before a signal.
* `work` — what there is left to do.

## Main results

* `Reachable.inv` — every state has the invariant.
* `updateOrders_result` — **every order of every page was executed once, in order.**
* `updateOrders_proceeds` — **no thread waits forever**, and a run ends if the pages do.
* `active_iff` — **which orders are active in the end.**
* `integrity_run`, `stored_run` — no row is without its order, and no order is lost.
-/

namespace EveIndustryPlanner
namespace Market
namespace OrderHandler3

variable {J : Type} [OrderJson J]

/-! ### Pages -/

/-- A page: its number and its text. -/
abbrev Page := ℕ × String

/-- The page that a request is answered with, unless it is empty. -/
def answer (env : Setting) (requests : ℕ) (url : String) : Option Page :=
  match env.response requests url with
  | .body text => if text ≠ "" then some (requests + 1, text) else none
  | _ => none

/-- The page behind the one with the given root. -/
def pageBehind (env : Setting) (requests : ℕ) (root : J) : Option Page :=
  (nextHref root).join.bind (answer env requests)

variable (J) in
/-- The page behind a page. -/
def nextPage (env : Setting) (page : Page) : Option Page :=
  (readPage J page.2).bind fun read => pageBehind env page.1 read.1

/-- The first page. -/
def firstPage (env : Setting) : Option Page :=
  match env.response 0 (firstUrl env) with
  | .body text => some (1, text)
  | _ => none

variable (J) in
/-- The orders of a page. -/
def pageOrders (page : Page) : List J := ((readPage J page.2).map Prod.snd).getD []

/-- The queries with the one for another order. -/
def addHandler (handlers : List (SingleOrderHandler J)) (order : J) :
    List (SingleOrderHandler J) :=
  handlers ++ (SingleOrderHandler.make handlers.length order).toList

/-- The queries of some orders. -/
def handlersOf (orders : List J) : List (SingleOrderHandler J) := orders.foldl addHandler []

variable (J) in
/-- Some pages were received, one after the other; the last one is given. -/
def Received (env : Setting) (pages : List Page) (page : Page) : Prop :=
  ∃ n first, firstPage env = some first ∧ follow (nextPage J env) n first = some page ∧
    visited (nextPage J env) n first = pages

section Pages

variable {env : Setting} {pages : List Page} {page page' : Page}

theorem Received.first (h : firstPage env = some page) : Received J env [page] page :=
  ⟨0, page, h, rfl, rfl⟩

theorem Received.next (h : Received J env pages page) (hnext : nextPage J env page = some page') :
    Received J env (pages ++ [page']) page' := by
  obtain ⟨n, first, hfirst, hfollow, rfl⟩ := h
  refine ⟨n + 1, first, hfirst, ?_, ?_⟩
  · rw [follow_succ hfollow, hnext]
  · rw [visited_succ hfollow, hnext, Option.toList_some]

theorem nextPage_of_readPage {root : J} {orders : List J}
    (h : readPage J page.2 = some (root, orders)) :
    nextPage J env page = pageBehind env page.1 root := by
  rw [nextPage, h, Option.bind_some]

theorem pageOrders_of_readPage {root : J} {orders : List J}
    (h : readPage J page.2 = some (root, orders)) : pageOrders J page = orders := by
  rw [pageOrders, h]
  rfl

theorem handlersOf_concat (orders : List J) (order : J) :
    handlersOf (orders ++ [order]) = addHandler (handlersOf orders) order := by
  rw [handlersOf, List.foldl_concat]
  rfl

end Pages

/-! ### The invariant -/

/-- The handler was destroyed. -/
def Phase.isEnded : Phase J → Bool
  | .ended => true
  | _ => false

/-- There was no more room for a query. -/
def Phase.isUndefined : Phase J → Bool
  | .undefined => true
  | _ => false

/-- All pages were read, or those before a signal was seen. -/
def AllRead (env : Setting) (s : State J) : Prop :=
  firstPage env = none ∧ s.singleOrderHandlers = [] ∨
    ∃ pages page, Received J env pages page ∧
      s.singleOrderHandlers = handlersOf (pages.flatMap (pageOrders J)) ∧
      (s.sig_caught = false → nextPage J env page = none)

/-- What was read in each phase. -/
def State.Reads (env : Setting) (s : State J) : Prop :=
  match s.phase with
  | .starting => s.requests = 0 ∧ s.singleOrderHandlers = []
  | .reading body => ∃ pages, Received J env (pages ++ [(s.requests, body)]) (s.requests, body) ∧
      s.singleOrderHandlers = handlersOf (pages.flatMap (pageOrders J))
  | .posting root rest => ∃ pages body done,
      Received J env (pages ++ [(s.requests, body)]) (s.requests, body) ∧
      readPage J body = some (root, done ++ rest) ∧
      s.singleOrderHandlers = handlersOf (pages.flatMap (pageOrders J) ++ done)
  | .fetching url => ∃ pages page, Received J env pages page ∧
      nextPage J env page = answer env s.requests url ∧
      s.singleOrderHandlers = handlersOf (pages.flatMap (pageOrders J))
  | .waiting | .destroying | .ended => AllRead env s
  | .undefined => True

/-- What is known of every state of a run. -/
structure Inv (env : Setting) (db : Tables) (s : State J) : Prop where
  reads : s.Reads env
  room : s.singleOrderHandlers.length ≤ reserved
  full : s.phase.isUndefined = true → s.singleOrderHandlers.length = reserved
  posted : s.writer.posted = s.singleOrderHandlers
  count : s.count + (if s.phase.isEnded then s.singleOrderHandlers.length else 0) =
    s.writer.finished.length
  db : s.db = s.writer.started.foldl (fun db q => execute env q db) (db.setInactive env.inRegion)

variable {env : Setting} {s s' : State J} {db : Tables}

/-- The thread reads on as it should. -/
theorem State.Reads.read (h : s.Reads env) (hread : s.read env = some s') : s'.Reads env := by
  obtain ⟨phase, requests, sig_caught, handlers, writer, db, count⟩ := s
  cases phase <;> simp only [State.read] at hread
  case starting =>
    obtain ⟨rfl, rfl⟩ := h
    cases hresponse : env.response 0 (firstUrl env) with
    | body text =>
      rw [hresponse] at hread
      obtain rfl := Option.some.inj hread
      exact ⟨[], .first (by rw [firstPage, hresponse]), rfl⟩
    | httpException =>
      rw [hresponse] at hread
      obtain rfl := Option.some.inj hread
      exact Or.inl ⟨by rw [firstPage, hresponse], rfl⟩
    | otherException =>
      rw [hresponse] at hread
      obtain rfl := Option.some.inj hread
      exact Or.inl ⟨by rw [firstPage, hresponse], rfl⟩
  case reading body =>
    obtain ⟨pages, hreceived, hhandlers⟩ := h
    cases hpage : readPage J body with
    | some read =>
      obtain ⟨root, orders⟩ := read
      rw [hpage] at hread
      obtain rfl := Option.some.inj hread
      exact ⟨pages, body, [], hreceived, hpage, by rwa [List.append_nil]⟩
    | none =>
      rw [hpage] at hread
      obtain rfl := Option.some.inj hread
      refine Or.inr ⟨_, _, hreceived, ?_, fun _ => by rw [nextPage, hpage]; rfl⟩
      rw [List.flatMap_append, List.flatMap_singleton, pageOrders, hpage, Option.map_none,
        Option.getD_none, List.append_nil]
      exact hhandlers
  case posting root rest =>
    obtain ⟨pages, body, done, hreceived, hpage, hhandlers⟩ := h
    cases rest with
    | cons order rest =>
      have hsplit : readPage J body = some (root, (done ++ [order]) ++ rest) := by
        rw [hpage, List.append_assoc, List.singleton_append]
      have hadd : handlersOf (pages.flatMap (pageOrders J) ++ (done ++ [order])) =
          addHandler handlers order := by
        rw [← List.append_assoc, handlersOf_concat, ← hhandlers]
      cases hmake : SingleOrderHandler.make handlers.length order with
      | some q =>
        simp only [hmake] at hread
        rw [addHandler, hmake] at hadd
        split at hread
        · obtain rfl := Option.some.inj hread
          exact ⟨pages, body, done ++ [order], hreceived, hsplit, hadd.symm⟩
        · obtain rfl := Option.some.inj hread
          trivial
      | none =>
        simp only [hmake] at hread
        rw [addHandler, hmake, Option.toList_none, List.append_nil] at hadd
        obtain rfl := Option.some.inj hread
        exact ⟨pages, body, done ++ [order], hreceived, hsplit, hadd.symm⟩
    | nil =>
      rw [List.append_nil] at hpage
      have hall : handlers =
          handlersOf ((pages ++ [(requests, body)]).flatMap (pageOrders J)) := by
        rw [List.flatMap_append, List.flatMap_singleton, pageOrders_of_readPage hpage]
        exact hhandlers
      have hbehind : nextPage J env (requests, body) = pageBehind env requests root :=
        nextPage_of_readPage hpage
      cases hhref : nextHref root with
      | none =>
        simp only [hhref] at hread
        obtain rfl := Option.some.inj hread
        exact Or.inr ⟨_, _, hreceived, hall, fun _ => by rw [hbehind, pageBehind, hhref]; rfl⟩
      | some href =>
        cases href with
        | none =>
          simp only [hhref] at hread
          obtain rfl := Option.some.inj hread
          exact Or.inr ⟨_, _, hreceived, hall, fun _ => by rw [hbehind, pageBehind, hhref]; rfl⟩
        | some url =>
          simp only [hhref] at hread
          obtain rfl := Option.some.inj hread
          exact ⟨_, _, hreceived, by rw [hbehind, pageBehind, hhref]; rfl, hall⟩
  case fetching url =>
    obtain ⟨pages, page, hreceived, hnext, hhandlers⟩ := h
    have hlast : answer env requests url = none → AllRead env
        (⟨.waiting, requests + 1, sig_caught, handlers, writer, db, count⟩ : State J) :=
      fun hnone => Or.inr ⟨pages, page, hreceived, hhandlers, fun _ => hnext.trans hnone⟩
    cases hresponse : env.response requests url with
    | body text =>
      simp only [hresponse] at hread
      split at hread
      · next hgoes =>
        obtain rfl := Option.some.inj hread
        have hanswer : answer env requests url = some (requests + 1, text) := by
          rw [answer, hresponse]
          exact if_pos hgoes.1
        exact ⟨pages, hreceived.next (hnext.trans hanswer), hhandlers⟩
      · next hstops =>
        obtain rfl := Option.some.inj hread
        refine Or.inr ⟨pages, page, hreceived, hhandlers, fun hsignal => ?_⟩
        have htext : text = "" := by
          by_contra htext
          exact hstops ⟨htext, hsignal⟩
        rw [hnext, answer, hresponse, htext]
        rfl
    | httpException =>
      simp only [hresponse] at hread
      obtain rfl := Option.some.inj hread
      exact hlast (by rw [answer, hresponse])
    | otherException =>
      simp only [hresponse] at hread
      obtain rfl := Option.some.inj hread
      exact hlast (by rw [answer, hresponse])
  case waiting =>
    split at hread
    · obtain rfl := Option.some.inj hread
      exact h
    · exact absurd hread (by simp)
  case destroying =>
    split at hread
    · obtain rfl := Option.some.inj hread
      exact h
    · exact absurd hread (by simp)
  case ended => exact absurd hread (by simp)
  case undefined => exact absurd hread (by simp)

/-- What the thread does to the rest of the state: it posts a query, or takes the units
that the queries have released, or nothing. -/
theorem State.read_cases (hread : s.read env = some s') :
    s'.db = s.db ∧ (s'.phase.isUndefined = true → reserved ≤ s'.singleOrderHandlers.length) ∧
      (s.phase.isEnded = false ∧ s'.phase.isEnded = false ∧ s'.count = s.count ∧
          (s'.singleOrderHandlers = s.singleOrderHandlers ∧ s'.writer = s.writer ∨
            ∃ q, s'.singleOrderHandlers = s.singleOrderHandlers ++ [q] ∧
              s'.writer = s.writer.post q ∧ s.singleOrderHandlers.length < reserved) ∨
        s.phase.isEnded = false ∧ s.singleOrderHandlers.length ≤ s.count ∧
          s' = { s with phase := .ended, count := s.count - s.singleOrderHandlers.length }) := by
  obtain ⟨phase, requests, sig_caught, handlers, writer, db, count⟩ := s
  cases phase <;> simp only [State.read] at hread
  case destroying =>
    split at hread
    · next hcount =>
      obtain rfl := Option.some.inj hread
      exact ⟨rfl, Bool.noConfusion, Or.inr ⟨rfl, hcount, rfl⟩⟩
    · exact absurd hread (by simp)
  case posting root rest =>
    cases rest with
    | cons order rest =>
      dsimp only at hread
      split at hread
      · next q hmake =>
        split at hread
        · next hroom =>
          obtain rfl := Option.some.inj hread
          exact ⟨rfl, Bool.noConfusion, Or.inl ⟨rfl, rfl, rfl, Or.inr ⟨q, rfl, rfl, hroom⟩⟩⟩
        · next hfull =>
          obtain rfl := Option.some.inj hread
          exact ⟨rfl, fun _ => Nat.le_of_not_lt hfull,
            Or.inl ⟨rfl, rfl, rfl, Or.inl ⟨rfl, rfl⟩⟩⟩
      · obtain rfl := Option.some.inj hread
        exact ⟨rfl, Bool.noConfusion, Or.inl ⟨rfl, rfl, rfl, Or.inl ⟨rfl, rfl⟩⟩⟩
    | nil =>
      dsimp only at hread
      split at hread
      · obtain rfl := Option.some.inj hread
        exact ⟨rfl, Bool.noConfusion, Or.inl ⟨rfl, rfl, rfl, Or.inl ⟨rfl, rfl⟩⟩⟩
      · obtain rfl := Option.some.inj hread
        exact ⟨rfl, Bool.noConfusion, Or.inl ⟨rfl, rfl, rfl, Or.inl ⟨rfl, rfl⟩⟩⟩
  case ended => exact absurd hread (by simp)
  case undefined => exact absurd hread (by simp)
  case starting =>
    split at hread
    all_goals
      obtain rfl := Option.some.inj hread
      exact ⟨rfl, Bool.noConfusion, Or.inl ⟨rfl, rfl, rfl, Or.inl ⟨rfl, rfl⟩⟩⟩
  case reading body =>
    split at hread
    all_goals
      obtain rfl := Option.some.inj hread
      exact ⟨rfl, Bool.noConfusion, Or.inl ⟨rfl, rfl, rfl, Or.inl ⟨rfl, rfl⟩⟩⟩
  case waiting =>
    split at hread
    · obtain rfl := Option.some.inj hread
      exact ⟨rfl, Bool.noConfusion, Or.inl ⟨rfl, rfl, rfl, Or.inl ⟨rfl, rfl⟩⟩⟩
    · exact absurd hread (by simp)
  case fetching url =>
    split at hread
    · split at hread
      all_goals
        obtain rfl := Option.some.inj hread
        exact ⟨rfl, Bool.noConfusion, Or.inl ⟨rfl, rfl, rfl, Or.inl ⟨rfl, rfl⟩⟩⟩
    all_goals
      obtain rfl := Option.some.inj hread
      exact ⟨rfl, Bool.noConfusion, Or.inl ⟨rfl, rfl, rfl, Or.inl ⟨rfl, rfl⟩⟩⟩

/-- A signal only cuts what is read. -/
theorem State.Reads.signal (h : s.Reads env) :
    ({ s with sig_caught := true } : State J).Reads env := by
  have hcut : AllRead env s → AllRead env ({ s with sig_caught := true } : State J) := by
    rintro (hnone | ⟨pages, page, hreceived, hhandlers, -⟩)
    · exact Or.inl hnone
    · exact Or.inr ⟨pages, page, hreceived, hhandlers, fun hfalse => absurd hfalse (by simp)⟩
  obtain ⟨phase, requests, sig_caught, handlers, writer, db, count⟩ := s
  cases phase with
  | waiting => exact hcut h
  | destroying => exact hcut h
  | ended => exact hcut h
  | starting => exact h
  | reading body => exact h
  | posting root rest => exact h
  | fetching url => exact h
  | undefined => exact h

/-- **Every state of a run has the invariant.** -/
theorem Reachable.inv (h : Reachable env db s) : Inv env db s := by
  refine h.keeps ⟨⟨rfl, rfl⟩, Nat.zero_le _, Bool.noConfusion, rfl, rfl, rfl⟩
    fun s s' a _ ih hstep => ?_
  cases a with
  | read =>
    obtain ⟨hdb, hfull, ⟨hended, hended', hcount, hsame | ⟨q, hhandlers, hwriter, hroom⟩⟩ |
      ⟨hended, hle, rfl⟩⟩ := State.read_cases hstep
    · have hroom : s'.singleOrderHandlers.length ≤ reserved := hsame.1 ▸ ih.room
      refine ⟨ih.reads.read hstep, hroom, fun h => hroom.antisymm (hfull h), ?_, ?_, ?_⟩
      · rw [hsame.1, hsame.2, ih.posted]
      · rw [hended', hsame.2, hcount, ← ih.count, hended]
        rfl
      · rw [hdb, hsame.2, ih.db]
    · have hroom' : s'.singleOrderHandlers.length ≤ reserved := by
        rw [hhandlers, List.length_append, List.length_singleton]
        exact hroom
      refine ⟨ih.reads.read hstep, hroom', fun h => hroom'.antisymm (hfull h), ?_, ?_, ?_⟩
      · rw [hhandlers, hwriter, Worker.posted_post, ih.posted]
      · rw [hended', hwriter, Worker.finished_post, hcount, ← ih.count, hended]
        rfl
      · rw [hdb, hwriter, Worker.started_post, ih.db]
    · refine ⟨ih.reads.read hstep, ih.room, Bool.noConfusion, ih.posted, ?_, ih.db⟩
      have hcount := ih.count
      rw [hended] at hcount
      show s.count - s.singleOrderHandlers.length + s.singleOrderHandlers.length =
        s.writer.finished.length
      rw [Nat.sub_add_cancel hle]
      exact hcount
  | execute =>
    obtain ⟨⟨q, writer⟩, hq, hs'⟩ := Option.bind_eq_some_iff.mp hstep
    obtain rfl := Option.some.inj hs'
    obtain ⟨hfinished, hstarted, hposted⟩ := Worker.start_eq_some hq
    refine ⟨ih.reads, ih.room, ih.full, hposted.trans ih.posted, ?_, ?_⟩
    · exact ih.count.trans (congrArg _ hfinished.symm)
    · show execute env q s.db = _
      rw [hstarted, List.foldl_concat, ← ih.db]
  | release =>
    obtain ⟨⟨q, writer⟩, hq, hs'⟩ := Option.bind_eq_some_iff.mp hstep
    obtain rfl := Option.some.inj hs'
    obtain ⟨hfinished, hstarted, hposted, -⟩ := Worker.finish_eq_some hq
    refine ⟨ih.reads, ih.room, ih.full, hposted.trans ih.posted, ?_, ih.db.trans ?_⟩
    · show s.count + 1 + _ = writer.finished.length
      rw [hfinished, List.length_append, List.length_singleton, ← ih.count]
      exact Nat.add_right_comm _ _ _
    · show _ = writer.started.foldl _ _
      rw [hstarted]
  | signal =>
    obtain rfl := Option.some.inj hstep
    exact ⟨ih.reads.signal, ih.room, ih.full, ih.posted, ih.count, ih.db⟩

/-! ### A run of two pages -/

/-- JSON values with a reader that knows the texts of two pages. -/
structure PageValue where
  value : Value

/-- An order that is there on both pages, with another volume. -/
def orderValue (volume : ℕ) : Value :=
  .object [("id", .unsigned 4700000000), ("type", .unsigned 34), ("stationID", .unsigned 60003760),
    ("volumeEntered", .unsigned 9), ("issued", .string "2016-12-04T10:00:00"),
    ("duration", .unsigned 90), ("range", .string "region"), ("price", .real ⟨0x4016000000000000⟩),
    ("volume", .unsigned volume), ("minVolume", .unsigned 1), ("buy", .unsigned 1)]

/-- The text of the order. -/
def orderText (volume : String) : String :=
  "\x7b\"id\": 4700000000, \"type\": 34, \"stationID\": 60003760, \"volumeEntered\": 9, " ++
  "\"issued\": \"2016-12-04T10:00:00\", \"duration\": 90, \"range\": \"region\", " ++
  "\"price\": 5.5, \"volume\": " ++ volume ++ ", \"minVolume\": 1, \"buy\": 1\x7d"

def firstText : String :=
  "\x7b\"items\": [" ++ orderText "9" ++ "], \"next\": \x7b\"href\": \"https://a/?page=2\"\x7d\x7d"

def secondText : String := "\x7b\"items\": [" ++ orderText "7" ++ "]\x7d"

/-- The two pages as values. -/
def pageTexts : List (String × Value) :=
  [(firstText, .object [("items", .array [orderValue 9]),
      ("next", .object [("href", .string "https://a/?page=2")])]),
    (secondText, .object [("items", .array [orderValue 7])])]

instance : OrderJson PageValue where
  parse s := (pageTexts.lookup s).map .mk
  member v key := (v.value.member key).map .mk
  elements v := v.value.elements.map .mk
  asString v := asString v.value
  asUInt64 v := asUInt64 v.value
  asDouble v := asDouble v.value
  isNull
    | ⟨.null⟩ => true
    | _ => false
  asBool
    | ⟨.null⟩ => some false
    | ⟨.unsigned n⟩ => some (n != 0)
    | _ => none

/-- The second page is answered with the order of the first one. -/
def sampleSetting : Setting where
  region := 10000002
  response requests _ := if requests = 0 then .body firstText else .body secondText
  hasType _ := true
  hasStation _ := true
  inRegion _ := true
  sqlError _ _ := false
  viewtime place := 1480845600 + place

def sampleTables : Tables := ⟨.empty, .empty, .empty, .empty⟩

theorem integrity_sampleTables : Integrity sampleTables where
  buyOrders _ h := absurd h List.not_mem_nil
  sellOrders _ h := absurd h List.not_mem_nil
  orderViews _ h := absurd h List.not_mem_nil

/-- The steps of the thread, with those of the connection between. -/
def sampleSteps : List Action :=
  [.read, .read, .read, .execute, .read, .read, .release, .read, .read, .read, .execute, .release,
    .read, .read]

/-- The run gets to its end. -/
theorem exists_sampleRun : ∃ s : State PageValue, Reachable sampleSetting sampleTables s ∧
    s.phase.isEnded = true := by
  have hrun : ((sampleSteps.foldlM (step sampleSetting)
      (State.init (J := PageValue) (sampleTables.setInactive sampleSetting.inRegion))).map
        fun s => s.phase.isEnded) = some true := by decide +kernel
  obtain ⟨s, hs, hended⟩ := Option.map_eq_some_iff.mp hrun
  exact ⟨s, Steps.init.run hs, hended⟩

/-! ### The result -/

/-- The connection has executed all queries when the handler is destroyed. -/
theorem Inv.all_executed (h : Inv env db s) (hended : s.phase.isEnded = true) :
    s.writer.finished = s.singleOrderHandlers ∧ s.writer.started = s.singleOrderHandlers := by
  have hcount := h.count
  rw [if_pos hended] at hcount
  have hall := Worker.finished_eq_of_length (w := s.writer) (by rw [h.posted]; omega)
  rwa [h.posted] at hall

/-- What the handler leaves behind. -/
structure Result (env : Setting) (db : Tables) (s : State J) : Prop where
  pages : AllRead env s
  executed : s.writer.finished = s.singleOrderHandlers
  posted : s.writer.posted = s.singleOrderHandlers
  db : s.db =
    s.singleOrderHandlers.foldl (fun db q => execute env q db) (db.setInactive env.inRegion)

/-- **Every order of every page that was read was executed once, in order**, in whatever
order the threads took their steps, and nothing is executed any more. -/
theorem updateOrders_result (h : Reachable env db s) (hended : s.phase.isEnded = true) :
    Result env db s := by
  obtain ⟨hfinished, hstarted⟩ := h.inv.all_executed hended
  refine ⟨?_, hfinished, h.inv.posted, ?_⟩
  · have hreads := h.inv.reads
    unfold State.Reads at hreads
    cases hphase : s.phase with
    | ended =>
      rw [hphase] at hreads
      exact hreads
    | _ =>
      rw [hphase] at hended
      exact absurd hended (by simp [Phase.isEnded])
  · rw [h.inv.db, hstarted]

theorem updateOrders_result_sample : ∃ s : State PageValue,
    Reachable sampleSetting sampleTables s ∧ s.phase.isEnded = true ∧
      Result sampleSetting sampleTables s := by
  obtain ⟨s, hs, hended⟩ := exists_sampleRun
  exact ⟨s, hs, hended, updateOrders_result hs hended⟩

/-! ### The orders -/

omit [OrderJson J] in
/-- What some queries do to the orders. -/
theorem orders_foldl (queries : List (SingleOrderHandler J)) (db : Tables) :
    (queries.foldl (fun db q => execute env q db) db).orders =
      (queries.filterMap (SingleOrderHandler.inserted env)).foldl Table.insertOrReplace
        db.orders := by
  induction queries generalizing db with
  | nil => rfl
  | cons q queries ih =>
    rw [List.foldl_cons, ih, execute_orders]
    cases hrow : q.inserted env with
    | none => rw [List.filterMap_cons_none hrow]; rfl
    | some row => rw [List.filterMap_cons_some hrow, List.foldl_cons]; rfl

omit [OrderJson J] in
/-- A row that is inserted is active. -/
theorem SingleOrderHandler.active_of_inserted {q : SingleOrderHandler J} {row : OrderRow}
    (h : q.inserted env = some row) : row.active = 1 := by
  have horder : q.orderRow = some row := (Option.filter_eq_some_iff.mp h).1
  unfold orderRow at horder
  simp only [Option.bind_eq_bind, Option.bind_eq_some_iff, Option.pure_def, Option.some.injEq]
    at horder
  obtain ⟨_, -, _, -, _, -, _, -, _, -, _, -, rfl⟩ := horder
  rfl

/-- What the update makes of an old row. -/
def deactivate (env : Setting) (row : OrderRow) : OrderRow :=
  if env.inRegion row.station then { row with active := 0 } else row

/-- **Which orders there are in the end**: the row of an order is that of its last query
that was not refused, or the old one.  **Active are those that were inserted and those
that were active at other stations.** -/
theorem orders_result (h : Reachable env db s) (hended : s.phase.isEnded = true) (orderid : ℤ) :
    s.db.orders.find orderid =
        ((s.singleOrderHandlers.filterMap (SingleOrderHandler.inserted env)).reverse.find?
          fun row => row.orderid = orderid).or ((db.orders.find orderid).map (deactivate env)) ∧
      ((∃ row, s.db.orders.find orderid = some row ∧ row.active ≠ 0) ↔
        (∃ q ∈ s.singleOrderHandlers, ∃ row, q.inserted env = some row ∧ row.orderid = orderid) ∨
          ∃ row, db.orders.find orderid = some row ∧ row.active ≠ 0 ∧
            env.inRegion row.station = false) := by
  have hfind : s.db.orders.find orderid =
      ((s.singleOrderHandlers.filterMap (SingleOrderHandler.inserted env)).reverse.find?
        fun row => row.orderid = orderid).or ((db.orders.find orderid).map (deactivate env)) := by
    rw [h.inv.db, (h.inv.all_executed hended).2, orders_foldl, Table.find_foldl_insertOrReplace,
      Tables.setInactive, Table.find_update]
    rfl
  refine ⟨hfind, ?_⟩
  rw [hfind]
  cases hlast : (s.singleOrderHandlers.filterMap (SingleOrderHandler.inserted env)).reverse.find?
      fun row => row.orderid = orderid with
  | some row =>
    have hid : row.orderid = orderid := by simpa using List.find?_some hlast
    obtain ⟨q, hq, hrow⟩ := List.mem_filterMap.mp
      (List.mem_reverse.mp (List.mem_of_find?_eq_some hlast))
    refine iff_of_true ⟨row, rfl, ?_⟩ (Or.inl ⟨q, hq, row, hrow, hid⟩)
    rw [SingleOrderHandler.active_of_inserted hrow]
    exact one_ne_zero
  | none =>
    have hnone : ¬ ∃ q ∈ s.singleOrderHandlers, ∃ row, q.inserted env = some row ∧
        row.orderid = orderid := by
      rintro ⟨q, hq, row, hrow, hid⟩
      have hne := List.find?_eq_none.mp hlast row
        (List.mem_reverse.mpr (List.mem_filterMap.mpr ⟨q, hq, hrow⟩))
      exact hne (decide_eq_true hid)
    rw [or_iff_right hnone, Option.none_or]
    constructor
    · rintro ⟨row, hrow, hactive⟩
      obtain ⟨old, hold, rfl⟩ := Option.map_eq_some_iff.mp hrow
      unfold deactivate at hactive
      split at hactive
      · exact absurd rfl hactive
      · next hregion => exact ⟨old, hold, hactive, Bool.not_eq_true _ ▸ hregion⟩
    · rintro ⟨row, hrow, hactive, hregion⟩
      refine ⟨row, ?_, hactive⟩
      rw [hrow, Option.map_some, deactivate, hregion]
      rfl

theorem orders_result_sample : ∃ s : State PageValue, Reachable sampleSetting sampleTables s ∧
    s.phase.isEnded = true ∧
    s.db.orders.find 4700000000 =
        ((s.singleOrderHandlers.filterMap (SingleOrderHandler.inserted sampleSetting)).reverse.find?
          fun row => row.orderid = 4700000000).or
            ((sampleTables.orders.find 4700000000).map (deactivate sampleSetting)) ∧
      ((∃ row, s.db.orders.find 4700000000 = some row ∧ row.active ≠ 0) ↔
        (∃ q ∈ s.singleOrderHandlers, ∃ row, q.inserted sampleSetting = some row ∧
          row.orderid = 4700000000) ∨
          ∃ row, sampleTables.orders.find 4700000000 = some row ∧ row.active ≠ 0 ∧
            sampleSetting.inRegion row.station = false) := by
  obtain ⟨s, hs, hended⟩ := exists_sampleRun
  exact ⟨s, hs, hended, orders_result hs hended 4700000000⟩

/-! ### Rows of orders -/

theorem Integrity.setInactive (h : Integrity db) (inRegion : ℤ → Bool) :
    Integrity (db.setInactive inRegion) := by
  have hsame : ∀ orderid, hasOrder (db.setInactive inRegion) orderid = hasOrder db orderid := by
    intro orderid
    unfold hasOrder Tables.setInactive
    rw [Table.find_update, Option.isSome_map]
  refine ⟨fun row hrow => ?_, fun orderid hrow => ?_, fun row hrow => ?_⟩
  · rw [hsame]
    exact h.buyOrders row hrow
  · rw [hsame]
    exact h.sellOrders orderid hrow
  · rw [hsame]
    exact h.orderViews row hrow

/-- A query is not refused. -/
def SingleOrderHandler.Accepted (env : Setting) (q : SingleOrderHandler J) : Prop :=
  (q.inserted env).isSome ∧ (q.orderViewRow env).isSome ∧ env.sqlError q.place 1 = false ∧
    env.sqlError q.place 2 = false

/-- **In every state no row is without its order**, and what was not refused is stored
with its side and its view. -/
theorem rows_run (h : Reachable env db s) (hdb : Integrity db) :
    Integrity s.db ∧ ∀ q ∈ s.writer.finished, q.Accepted env → Stored env q s.db := by
  rw [h.inv.db]
  constructor
  · exact List.foldlRecOn _ _ (hdb.setInactive env.inRegion) fun _ h q _ => h.execute
  · rintro q hq ⟨hrow, hview, hside, hlast⟩
    obtain ⟨row, hrow⟩ := Option.isSome_iff_exists.mp hrow
    obtain ⟨view, hview⟩ := Option.isSome_iff_exists.mp hview
    obtain ⟨before, after, hsplit⟩ :=
      List.append_of_mem (Worker.finished_prefix_started.subset hq)
    rw [hsplit, List.foldl_append, List.foldl_cons]
    -- what comes later leaves it
    exact List.foldlRecOn _ _ (stored_execute _ hrow hview hside hlast) fun _ h q' _ => h.execute

theorem rows_run_sample : ∃ s : State PageValue, Reachable sampleSetting sampleTables s ∧
    s.phase.isEnded = true ∧ Integrity s.db ∧
      ∀ q ∈ s.writer.finished, q.Accepted sampleSetting → Stored sampleSetting q s.db := by
  obtain ⟨s, hs, hended⟩ := exists_sampleRun
  exact ⟨s, hs, hended, rows_run hs integrity_sampleTables⟩

/-! ### No thread waits forever -/

/-- The actions that get a run further. -/
def Action.works : Action → Bool
  | .signal => false
  | _ => true

/-- A thread can take a step until the handler is destroyed, or there is no more room. -/
theorem exists_step (h : Inv env db s) : s.phase.isEnded = true ∨ s.phase.isUndefined = true ∨
    ∃ a s', a.works = true ∧ step env s a = some s' := by
  have hread : ∀ s', s.read env = some s' →
      ∃ a s', Action.works a = true ∧ step env s a = some s' := fun s' hs' => ⟨.read, s', rfl, hs'⟩
  -- while the thread waits, the connection goes on or is done
  have hwait : s.phase.isEnded = false →
      (s.count = s.singleOrderHandlers.length → ∃ s', s.read env = some s') →
      ∃ a s', Action.works a = true ∧ step env s a = some s' := by
    intro hended hall
    rcases s.writer.goes_on with hdone | ⟨p, hp⟩ | ⟨p, hp⟩
    · have hcount := h.count
      rw [hended, hdone, h.posted] at hcount
      obtain ⟨s', hs'⟩ := hall hcount
      exact hread s' hs'
    · exact ⟨.execute, _, rfl, by rw [step, hp]; rfl⟩
    · exact ⟨.release, _, rfl, by rw [step, hp]; rfl⟩
  unfold State.read at hread hwait
  cases hphase : s.phase with
  | ended => exact Or.inl rfl
  | undefined => exact Or.inr (Or.inl rfl)
  | waiting =>
    simp only [hphase] at hwait
    exact Or.inr (Or.inr (hwait rfl fun hcount => ⟨_, if_pos hcount⟩))
  | destroying =>
    simp only [hphase] at hwait
    exact Or.inr (Or.inr (hwait rfl fun hcount => ⟨_, if_pos hcount.ge⟩))
  | starting =>
    simp only [hphase] at hread
    refine Or.inr (Or.inr ?_)
    split at hread
    all_goals exact hread _ rfl
  | reading body =>
    simp only [hphase] at hread
    refine Or.inr (Or.inr ?_)
    split at hread
    all_goals exact hread _ rfl
  | posting root rest =>
    simp only [hphase] at hread
    refine Or.inr (Or.inr ?_)
    cases rest with
    | nil =>
      dsimp only at hread
      split at hread
      all_goals exact hread _ rfl
    | cons order rest =>
      dsimp only at hread
      split at hread
      · split at hread
        all_goals exact hread _ rfl
      · exact hread _ rfl
  | fetching url =>
    simp only [hphase] at hread
    refine Or.inr (Or.inr ?_)
    split at hread
    · split at hread
      all_goals exact hread _ rfl
    all_goals exact hread _ rfl

/-! ### What there is to do -/

variable (J) in
/-- The steps for a page: each order is posted, executed and reported. -/
def pageCost (page : Page) : ℕ := 3 * (pageOrders J page).length + 3

variable (J) in
/-- The steps for a page and those behind it, of which there are at most `m`. -/
def pagesCost (env : Setting) (m : ℕ) (page : Page) : ℕ :=
  ((visited (nextPage J env) m page).map (pageCost J)).sum

variable (J) in
/-- At most `m` pages are behind a page. -/
def EndsWithin (env : Setting) (m : ℕ) (page : Page) : Prop :=
  ∃ n, n ≤ m ∧ ∃ last, EndsAfter (nextPage J env) n page last

/-- The page that is read next has at most `m` pages behind it. -/
def State.Finite (env : Setting) (m : ℕ) (s : State J) : Prop :=
  match s.phase with
  | .starting => s.requests = 0 ∧ ∀ page ∈ firstPage env, EndsWithin J env m page
  | .reading body => EndsWithin J env m (s.requests, body)
  | .posting root _ => ∀ page ∈ pageBehind env s.requests root, EndsWithin J env m page
  | .fetching url => ∀ page ∈ answer env s.requests url, EndsWithin J env m page
  | _ => True

/-- The steps that are left to the thread. -/
def State.toRead (env : Setting) (m : ℕ) (s : State J) : ℕ :=
  match s.phase with
  | .starting => (firstPage env).elim 0 (pagesCost J env m) + 3
  | .reading body => pagesCost J env m (s.requests, body) + 2
  | .posting root rest =>
    3 * rest.length + (pageBehind env s.requests root).elim 0 (pagesCost J env m) + 4
  | .fetching url => (answer env s.requests url).elim 0 (pagesCost J env m) + 3
  | .waiting => 2
  | .destroying => 1
  | .ended | .undefined => 0

section Finite

variable {m : ℕ} {page page' : Page}

theorem EndsWithin.next (h : EndsWithin J env m page) (hnext : nextPage J env page = some page') :
    EndsWithin J env m page' := by
  obtain ⟨n, hn, last, hends⟩ := h
  cases n with
  | zero =>
    rw [hends.zero.2] at hnext
    exact absurd hnext (by simp)
  | succ n =>
    obtain ⟨page'', hpage, hends'⟩ := hends.succ
    obtain rfl := Option.some.inj (hnext.symm.trans hpage)
    exact ⟨n, by omega, last, hends'⟩

/-- The steps for a page and for those behind it. -/
theorem pagesCost_eq (h : EndsWithin J env m page) : pagesCost J env m page =
    pageCost J page + (nextPage J env page).elim 0 (pagesCost J env m) := by
  cases hnext : nextPage J env page with
  | none =>
    rw [pagesCost, visited_of_last hnext]
    rfl
  | some page' =>
    obtain ⟨n, hn, last, hends⟩ := h
    cases n with
    | zero =>
      rw [hends.zero.2] at hnext
      exact absurd hnext (by simp)
    | succ n =>
      obtain ⟨page'', hpage, hends'⟩ := hends.succ
      obtain rfl := Option.some.inj (hnext.symm.trans hpage)
      have hle : n ≤ m := by omega
      rw [pagesCost, hends.visited_eq hn, visited_succ_of_some hnext, List.map_cons, List.sum_cons,
        Option.elim_some, pagesCost, hends'.visited_eq hle]

/-- **Each step of the thread leaves less to do.** -/
theorem State.Finite.read (h : s.Finite env m) (hread : s.read env = some s') :
    s'.Finite env m ∧ s'.toRead env m + s'.writer.left < s.toRead env m + s.writer.left := by
  obtain ⟨phase, requests, sig_caught, handlers, writer, db, count⟩ := s
  cases phase <;> simp only [State.read] at hread
  case starting =>
    obtain ⟨rfl, hfirst⟩ := h
    simp only [toRead]
    split at hread
    · next text hresponse =>
      obtain rfl := Option.some.inj hread
      have hpage : firstPage env = some (1, text) := by rw [firstPage, hresponse]
      exact ⟨hfirst _ hpage, by simp [hpage]⟩
    · obtain rfl := Option.some.inj hread
      exact ⟨trivial, by dsimp only; omega⟩
  case reading body =>
    have hcost := pagesCost_eq h
    simp only [toRead]
    split at hread
    · next root orders hpage =>
      obtain rfl := Option.some.inj hread
      have hnext : nextPage J env (requests, body) = pageBehind env requests root :=
        nextPage_of_readPage hpage
      refine ⟨fun page hbehind => h.next (hnext.trans hbehind), ?_⟩
      rw [hcost, pageCost, pageOrders_of_readPage hpage, hnext]
      dsimp only
      omega
    · obtain rfl := Option.some.inj hread
      refine ⟨trivial, ?_⟩
      rw [hcost, pageCost]
      dsimp only
      omega
  case posting root rest =>
    cases rest with
    | cons order rest =>
      simp only [toRead, List.length_cons]
      dsimp only at hread
      split at hread
      · split at hread
        · obtain rfl := Option.some.inj hread
          refine ⟨h, ?_⟩
          rw [Worker.left_post]
          dsimp only
          omega
        · obtain rfl := Option.some.inj hread
          exact ⟨trivial, by dsimp only; omega⟩
      · obtain rfl := Option.some.inj hread
        exact ⟨h, by dsimp only; omega⟩
    | nil =>
      simp only [toRead]
      dsimp only at hread
      split at hread
      · next url hhref =>
        obtain rfl := Option.some.inj hread
        have hbehind : pageBehind env requests root = answer env requests url := by
          rw [pageBehind, hhref]
          rfl
        rw [hbehind]
        exact ⟨fun page hpage => h page (hbehind.trans hpage), by dsimp only; omega⟩
      · obtain rfl := Option.some.inj hread
        exact ⟨trivial, by dsimp only; omega⟩
  case fetching url =>
    simp only [toRead]
    split at hread
    · next text hresponse =>
      split at hread
      · next hgoes =>
        obtain rfl := Option.some.inj hread
        have hanswer : answer env requests url = some (requests + 1, text) := by
          rw [answer, hresponse]
          exact if_pos hgoes.1
        exact ⟨h _ hanswer, by simp [hanswer]⟩
      · obtain rfl := Option.some.inj hread
        exact ⟨trivial, by dsimp only; omega⟩
    all_goals
      obtain rfl := Option.some.inj hread
      exact ⟨trivial, by dsimp only; omega⟩
  case waiting =>
    split at hread
    · obtain rfl := Option.some.inj hread
      exact ⟨trivial, by simp only [toRead]; omega⟩
    · exact absurd hread (by simp)
  case destroying =>
    split at hread
    · obtain rfl := Option.some.inj hread
      exact ⟨trivial, by simp only [toRead]; omega⟩
    · exact absurd hread (by simp)
  case ended => exact absurd hread (by simp)
  case undefined => exact absurd hread (by simp)

/-- The pages behind the first one end. -/
theorem Reachable.finite (hm : ∀ page ∈ firstPage env, EndsWithin J env m page)
    (h : Reachable env db s) : s.Finite env m := by
  refine h.keeps ⟨rfl, hm⟩ fun s s' a _ ih hstep => ?_
  cases a with
  | read => exact (ih.read hstep).1
  | execute =>
    obtain ⟨⟨q, writer⟩, -, hs'⟩ := Option.bind_eq_some_iff.mp hstep
    obtain rfl := Option.some.inj hs'
    exact ih
  | release =>
    obtain ⟨⟨q, writer⟩, -, hs'⟩ := Option.bind_eq_some_iff.mp hstep
    obtain rfl := Option.some.inj hs'
    exact ih
  | signal =>
    obtain rfl := Option.some.inj hstep
    exact ih

end Finite

/-- **No thread waits forever, and a run ends if the pages do**: there is a bound on the
steps of all runs, and whatever was done so far, a step can be taken until the handler is
destroyed or there are a million queries. -/
theorem updateOrders_ends (env : Setting) (db : Tables)
    (hpages : ∀ page ∈ firstPage env, ∃ n last, EndsAfter (nextPage J env) n page last) :
    ∃ bound, ∀ (actions : List Action) (s : State J),
      actions.foldlM (step env) (State.init (db.setInactive env.inRegion)) = some s →
      (actions.filter Action.works).length ≤ bound ∧
        (s.phase.isEnded = true ∨
          s.phase.isUndefined = true ∧ s.singleOrderHandlers.length = reserved ∨
          ∃ a s', Action.works a = true ∧ step env s a = some s') := by
  obtain ⟨m, hm⟩ : ∃ m, ∀ page ∈ firstPage env, EndsWithin J env m page := by
    cases hfirst : firstPage env with
    | none => exact ⟨0, fun _ h => absurd h (by simp)⟩
    | some page =>
      obtain ⟨n, last, hends⟩ := hpages page hfirst
      refine ⟨n, fun page' hpage' => ?_⟩
      obtain rfl := Option.some.inj hpage'
      exact ⟨n, le_rfl, last, hends⟩
  let start : State J := State.init (db.setInactive env.inRegion)
  refine ⟨start.toRead env m + start.writer.left, fun actions s hrun => ⟨?_, ?_⟩⟩
  · refine le_of_add_le_left (Steps.length_le_of_measure
      (μ := fun s : State J => s.toRead env m + s.writer.left) ?_ ?_ Steps.init hrun)
    · intro s s' a hreach hstep hworks
      cases a with
      | read => exact ((Reachable.finite hm hreach).read hstep).2
      | execute =>
        obtain ⟨⟨q, writer⟩, hq, hs'⟩ := Option.bind_eq_some_iff.mp hstep
        obtain rfl := Option.some.inj hs'
        have hleft := Worker.left_of_start hq
        exact Nat.add_lt_add_left (by dsimp only; omega) _
      | release =>
        obtain ⟨⟨q, writer⟩, hq, hs'⟩ := Option.bind_eq_some_iff.mp hstep
        obtain rfl := Option.some.inj hs'
        have hleft := Worker.left_of_finish hq
        exact Nat.add_lt_add_left (by dsimp only; omega) _
      | signal => exact absurd hworks (by simp [Action.works])
    · intro s s' a hreach hstep hidles
      cases a with
      | signal =>
        obtain rfl := Option.some.inj hstep
        exact le_rfl
      | _ => exact absurd hidles (by simp [Action.works])
  · have hinv := Reachable.inv (Steps.init.run hrun : Reachable env db s)
    rcases exists_step hinv with hended | hfull | hstep
    · exact Or.inl hended
    · exact Or.inr (Or.inl ⟨hfull, hinv.full hfull⟩)
    · exact Or.inr (Or.inr hstep)

theorem updateOrders_ends_sample :
    (∀ page ∈ firstPage sampleSetting, ∃ n last,
      EndsAfter (nextPage PageValue sampleSetting) n page last) ∧
    ∃ bound, ∀ (actions : List Action) (s : State PageValue),
      actions.foldlM (step sampleSetting)
        (State.init (sampleTables.setInactive sampleSetting.inRegion)) = some s →
      (actions.filter Action.works).length ≤ bound ∧
        (s.phase.isEnded = true ∨
          s.phase.isUndefined = true ∧ s.singleOrderHandlers.length = reserved ∨
          ∃ a s', Action.works a = true ∧ step sampleSetting s a = some s') := by
  have hpages : ∀ page ∈ firstPage sampleSetting, ∃ n last,
      EndsAfter (nextPage PageValue sampleSetting) n page last := by
    intro page hpage
    obtain rfl : (1, firstText) = page := Option.some.inj hpage
    exact ⟨1, (2, secondText), by decide +kernel, by decide +kernel⟩
  exact ⟨hpages, updateOrders_ends sampleSetting sampleTables hpages⟩

end OrderHandler3
end Market
end EveIndustryPlanner
