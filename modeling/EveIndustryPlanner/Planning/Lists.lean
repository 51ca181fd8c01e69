import EveIndustryPlanner.Lib.Multimap
import EveIndustryPlanner.Lib.Table
import EveIndustryPlanner.Planning.Planner

/-!
# The shopping list and the sell list

Once the program is solved, the orders whose jobs have a value other than zero are
listed station by station, with the value rounded to a whole number.  The stations
are kept in a table without an order of its own.

## Main definitions

* `Trade`, `AnyJob` — the jobs that trade, and those that do not.
* `addTrade`, `tradeLists` — the loop over the jobs.
* `Planner.solve` — what is listed for a solution.
* `bought`, `sold`, `traded` — the trades of a solution, in the order of the jobs.

## Main results

* `Planner.solve_lists` — **every trade of the solution is listed once, at its station.**
* `Planner.solve_within` — **no line asks for more than its order has, and all of them
  together cost at most the buy-in and half a unit each.**
-/

namespace EveIndustryPlanner
namespace Planning

/-! ### Jobs that trade -/

/-- An order that a job takes: `Buy` takes sell orders, `Sell` takes buy orders. -/
structure Trade (R K : Type) where
  resource : R
  id : ℕ
  /-- What one unit earns. -/
  value : K
  limit : K
  stationID : ℕ
  stationName : String

/-- A job by its class. -/
inductive AnyJob (R K : Type)
  | buy (trade : Trade R K)
  | sell (trade : Trade R K)
  | other (job : Job R K)

section Jobs

variable {R K : Type} [Field K] (res : Resources R K)

/-- The job that buys. -/
def Trade.buy (t : Trade R K) : Job R K where
  inputs := []
  outputs := [(t.resource, 1)]
  cost := t.value
  name := "Buy_" ++ res.name t.resource ++ "_" ++ toString t.id
  lowerLimit := 0
  upperLimit := t.limit

/-- The job that sells. -/
def Trade.sell (t : Trade R K) : Job R K where
  inputs := [(t.resource, 1)]
  outputs := []
  cost := t.value
  name := "Sell_" ++ res.name t.resource ++ "_" ++ toString t.id
  lowerLimit := 0
  upperLimit := t.limit

/-- The job itself. -/
def AnyJob.job : AnyJob R K → Job R K
  | .buy t => t.buy res
  | .sell t => t.sell res
  | .other job => job

end Jobs

/-! ### The lists -/

/-- A count and the name of what is counted. -/
abbrev Line := ℕ × String

/-- The two lists, and the names of the stations. -/
structure TradeLists where
  shoppinglist : Multimap ℕ Line
  sellList : Multimap ℕ Line
  stations : Table (Prod.fst : ℕ × String → ℕ)

/-- A station with its lines. -/
structure Section where
  stationID : ℕ
  stationName : String
  lines : List Line
  deriving DecidableEq

/-- What `solve` prints of the trades. -/
structure Plan where
  shopping : List Section
  sells : List Section
  deriving DecidableEq

/-- No station and no line. -/
def TradeLists.empty : TradeLists := ⟨.empty, .empty, .empty⟩

/-- A list station by station. -/
def sections (list : Multimap ℕ Line) (stations : List (ℕ × String)) : List Section :=
  stations.map fun station => ⟨station.1, station.2, list.equalRange station.1⟩

/-- A list as it is printed. -/
def printList (title : String) (list : List Section) : String :=
  title ++ ":\n" ++ String.join (list.map fun s =>
    "\n" ++ s.stationName ++ ":\n" ++
      String.join (s.lines.map fun line => toString line.1 ++ " " ++ line.2 ++ "\n"))

/-- Both lists as they are printed. -/
def Plan.print (plan : Plan) : String :=
  printList "Shopping list" plan.shopping ++ printList "Sell list" plan.sells

section Rounding

variable {K : Type} [Field K] [LinearOrder K]

/-- A value that is told from zero. -/
def Chosen (v : K) : Prop := 1 / ((10 ^ 16 : ℕ) : K) < |v|

instance (v : K) : Decidable (Chosen v) := inferInstanceAs (Decidable (_ < _))

variable [FloorRing K]

/-- The nearest whole number, halves away from zero. -/
def llround (v : K) : ℤ := if 0 ≤ v then round v else -round (-v)

/-- The count of a line, as an unsigned number of 64 bits. -/
def count (v : K) : ℕ := (llround v % 2 ^ 64).toNat

variable {R : Type} (fullName : R → String)

/-- The line of a trade. -/
def line (e : Trade R K × K) : Line := (count e.2, fullName e.1.resource)

/-- One round of the loop over the jobs, each with its value. -/
def addTrade (s : TradeLists) (e : AnyJob R K × K) : TradeLists :=
  if ¬ Chosen e.2 then s else
  match e.1 with
  | .buy t => { s with
      shoppinglist := s.shoppinglist.emplace t.stationID (line fullName (t, e.2))
      stations := s.stations.insertOrIgnore (t.stationID, t.stationName) }
  | .sell t => { s with
      sellList := s.sellList.emplace t.stationID (line fullName (t, e.2))
      stations := s.stations.insertOrIgnore (t.stationID, t.stationName) }
  | .other _ => s

/-- The loop over the jobs. -/
def tradeLists (es : List (AnyJob R K × K)) : TradeLists := es.foldl (addTrade fullName) .empty

/-- What is listed where the stations are gone through as `iterate` says. -/
def plan (iterate : List (ℕ × String) → List (ℕ × String)) (es : List (AnyJob R K × K)) : Plan :=
  let lists := tradeLists fullName es
  { shopping := sections lists.shoppinglist (iterate lists.stations.rows)
    sells := sections lists.sellList (iterate lists.stations.rows) }

/-- What is listed for a solution; nothing is where the solver finds none.  The job of
a column has its place among the jobs. -/
def Planner.solve [DecidableEq R] (res : Resources R K)
    (iterate : List (ℕ × String) → List (ℕ × String)) (p : Planner R K) (jobs : List (AnyJob R K))
    (solver : LP (Fin p.cols.length) K → Option (Fin p.cols.length → K)) (buyIn : K) :
    Option Plan := do
  let prim ← solver (p.lp res buyIn)
  return plan fullName iterate (jobs.zip (List.ofFn prim))

end Rounding

/-! ### The trades of a solution -/

section Trades

variable {R K : Type} [Field K] [LinearOrder K]

/-- The order that a job buys from, if its value is told from zero. -/
def AnyJob.bought (e : AnyJob R K × K) : Option (Trade R K × K) :=
  match e.1 with
  | .buy t => if Chosen e.2 then some (t, e.2) else none
  | _ => none

/-- The order that a job sells to, if its value is told from zero. -/
def AnyJob.sold (e : AnyJob R K × K) : Option (Trade R K × K) :=
  match e.1 with
  | .sell t => if Chosen e.2 then some (t, e.2) else none
  | _ => none

/-- What is bought, in the order of the jobs. -/
def bought (es : List (AnyJob R K × K)) : List (Trade R K × K) := es.filterMap AnyJob.bought

/-- What is sold, in the order of the jobs. -/
def sold (es : List (AnyJob R K × K)) : List (Trade R K × K) := es.filterMap AnyJob.sold

/-- What is traded, in the order of the jobs. -/
def traded (es : List (AnyJob R K × K)) : List (Trade R K × K) :=
  es.filterMap fun e => (AnyJob.bought e).or (AnyJob.sold e)

theorem mem_traded {es : List (AnyJob R K × K)} {t : Trade R K × K} :
    t ∈ traded es ↔ t ∈ bought es ∨ t ∈ sold es := by
  have hone : ∀ e : AnyJob R K × K,
      (AnyJob.bought e).or (AnyJob.sold e) = some t ↔
        AnyJob.bought e = some t ∨ AnyJob.sold e = some t := by
    rintro ⟨job, v⟩
    cases job with
    | buy t' => simp [AnyJob.bought, AnyJob.sold]
    | sell t' => simp [AnyJob.bought, AnyJob.sold]
    | other job => simp [AnyJob.bought, AnyJob.sold]
  simp only [traded, bought, sold, List.mem_filterMap, hone]
  constructor
  · rintro ⟨e, he, h | h⟩
    · exact Or.inl ⟨e, he, h⟩
    · exact Or.inr ⟨e, he, h⟩
  · rintro (⟨e, he, h⟩ | ⟨e, he, h⟩)
    · exact ⟨e, he, Or.inl h⟩
    · exact ⟨e, he, Or.inr h⟩

end Trades

/-! ### What the loop leaves -/

section Loop

variable {R K : Type} [Field K] [LinearOrder K] [FloorRing K] {fullName : R → String}

/-- The name of the station of a trade. -/
def Trade.station (t : Trade R K) : ℕ × String := (t.stationID, t.stationName)

variable (fullName) in
/-- What the lists hold after some jobs. -/
structure TradeLists.Holds (s : TradeLists) (es : List (AnyJob R K × K)) : Prop where
  shopping : ∀ id, s.shoppinglist.equalRange id =
    ((bought es).filter fun e => e.1.stationID = id).map (line fullName)
  sells : ∀ id, s.sellList.equalRange id =
    ((sold es).filter fun e => e.1.stationID = id).map (line fullName)
  stations : s.stations =
    ((traded es).map fun e => e.1.station).foldl Table.insertOrIgnore .empty

/-- One more line at a station. -/
theorem equalRange_line {list : Multimap ℕ Line} {l : List (Trade R K × K)}
    (h : ∀ id, list.equalRange id = (l.filter fun e => e.1.stationID = id).map (line fullName))
    (e : Trade R K × K) (id : ℕ) :
    (list.emplace e.1.stationID (line fullName e)).equalRange id =
      ((l ++ [e]).filter fun e => e.1.stationID = id).map (line fullName) := by
  rw [Multimap.equalRange_emplace, h, List.filter_append, List.map_append]
  congr 1
  by_cases hid : e.1.stationID = id
  · simp [hid]
  · simp [hid]

/-- What is kept of a list with one more element. -/
theorem filterMap_snoc {α β : Type*} (f : α → Option β) (l : List α) (a : α) :
    (l ++ [a]).filterMap f = l.filterMap f ++ (f a).toList := by
  rw [List.filterMap_append, List.filterMap_cons]
  cases f a with
  | none => rfl
  | some b => rfl

/-- One round. -/
theorem TradeLists.Holds.addTrade {s : TradeLists} {es : List (AnyJob R K × K)}
    (h : s.Holds fullName es) (e : AnyJob R K × K) :
    (addTrade fullName s e).Holds fullName (es ++ [e]) := by
  obtain ⟨job, v⟩ := e
  have hbought := filterMap_snoc AnyJob.bought es (job, v)
  have hsold := filterMap_snoc AnyJob.sold es (job, v)
  have htraded := filterMap_snoc (fun e => (AnyJob.bought e).or (AnyJob.sold e)) es (job, v)
  rw [← bought, ← bought] at hbought
  rw [← sold, ← sold] at hsold
  rw [← traded, ← traded] at htraded
  by_cases hv : Chosen v
  · rw [Planning.addTrade, if_neg (not_not.mpr hv)]
    cases job with
    | buy t =>
      simp only [AnyJob.bought, AnyJob.sold, if_pos hv, Option.toList_some, Option.toList_none,
        Option.some_or, List.append_nil] at hbought hsold htraded
      refine ⟨fun id => ?_, fun id => ?_, ?_⟩
      · rw [hbought]
        exact equalRange_line h.shopping (t, v) id
      · rw [hsold]
        exact h.sells id
      · rw [htraded, List.map_append, List.foldl_append, ← h.stations]
        rfl
    | sell t =>
      simp only [AnyJob.bought, AnyJob.sold, if_pos hv, Option.toList_some, Option.toList_none,
        Option.none_or, List.append_nil] at hbought hsold htraded
      refine ⟨fun id => ?_, fun id => ?_, ?_⟩
      · rw [hbought]
        exact h.shopping id
      · rw [hsold]
        exact equalRange_line h.sells (t, v) id
      · rw [htraded, List.map_append, List.foldl_append, ← h.stations]
        rfl
    | other job =>
      simp only [AnyJob.bought, AnyJob.sold, Option.toList_none, Option.none_or,
        List.append_nil] at hbought hsold htraded
      exact ⟨fun id => by rw [hbought]; exact h.shopping id,
        fun id => by rw [hsold]; exact h.sells id, by rw [htraded]; exact h.stations⟩
  · -- a value that is taken for zero lists nothing
    have hnone : AnyJob.bought (job, v) = none ∧ AnyJob.sold (job, v) = none := by
      cases job <;> simp [AnyJob.bought, AnyJob.sold, hv]
    rw [hnone.1] at hbought
    rw [hnone.2] at hsold
    rw [hnone.1, hnone.2] at htraded
    simp only [Option.toList_none, Option.none_or, List.append_nil] at hbought hsold htraded
    rw [Planning.addTrade, if_pos hv]
    exact ⟨fun id => by rw [hbought]; exact h.shopping id,
      fun id => by rw [hsold]; exact h.sells id, by rw [htraded]; exact h.stations⟩

/-- The whole loop. -/
theorem holds_tradeLists (es : List (AnyJob R K × K)) :
    (tradeLists fullName es).Holds fullName es := by
  induction es using List.reverseRecOn with
  | nil => exact ⟨fun _ => rfl, fun _ => rfl, rfl⟩
  | append_singleton es e ih =>
    rw [tradeLists, List.foldl_append]
    exact ih.addTrade e

end Loop

/-! ### Every trade at its station -/

section Complete

variable {R K : Type} [Field K] [LinearOrder K] [FloorRing K] (fullName : R → String)

/-- A list has the lines of some trades, station by station. -/
structure Section.ListsAll (list : List Section) (trades : List (Trade R K × K)) : Prop where
  /-- At a station its trades are listed in the order of the jobs. -/
  lines : ∀ s ∈ list, s.lines =
    (trades.filter fun e => e.1.stationID = s.stationID).map (line fullName)
  /-- Nothing is missing and nothing comes twice. -/
  perm : (list.flatMap fun s => s.lines.map fun l => (s.stationID, l)).Perm
    (trades.map fun e => (e.1.stationID, line fullName e))

/-- Both lists go through the stations of all trades. -/
structure Plan.Complete (plan : Plan) (es : List (AnyJob R K × K)) : Prop where
  shopping : Section.ListsAll fullName plan.shopping (bought es)
  sells : Section.ListsAll fullName plan.sells (sold es)
  nodup : (plan.shopping.map Section.stationID).Nodup
  mem_stations : ∀ id, id ∈ plan.shopping.map Section.stationID ↔
    ∃ e ∈ traded es, e.1.stationID = id
  /-- A station is called as the first trade there calls it. -/
  stationName : ∀ s ∈ plan.shopping,
    ((traded es).find? fun e => e.1.stationID = s.stationID).map (fun e => e.1.stationName) =
      some s.stationName
  same : plan.sells.map (fun s => (s.stationID, s.stationName)) =
    plan.shopping.map fun s => (s.stationID, s.stationName)

variable {fullName}

/-- Going through stations among which are all of some trades. -/
theorem listsAll_sections {list : Multimap ℕ Line} {trades : List (Trade R K × K)}
    (h : ∀ id, list.equalRange id =
      (trades.filter fun e => e.1.stationID = id).map (line fullName))
    {stations : List (ℕ × String)} (hnodup : (stations.map Prod.fst).Nodup)
    (hall : ∀ e ∈ trades, e.1.stationID ∈ stations.map Prod.fst) :
    Section.ListsAll fullName (sections list stations) trades where
  lines s hs := by
    obtain ⟨station, -, rfl⟩ := List.mem_map.mp hs
    exact h station.1
  perm := by
    have hkeys := perm_flatMap_filter (fun e : Trade R K × K => e.1.stationID) hnodup hall
    refine .trans (.of_eq ?_) (hkeys.map fun e => (e.1.stationID, line fullName e))
    rw [sections, List.flatMap_map, List.map_flatMap, List.flatMap_map]
    refine List.flatMap_congr fun station _ => ?_
    rw [h, List.map_map]
    refine List.map_congr_left fun e he => ?_
    have hid : e.1.stationID = station.1 := by simpa using (List.mem_filter.mp he).2
    rw [hid]
    rfl

omit [Field K] [LinearOrder K] [FloorRing K] in
/-- The stations in the table are those of the trades, under their first names. -/
theorem find_stations (trades : List (Trade R K × K)) (id : ℕ) :
    ((trades.map fun e => e.1.station).foldl Table.insertOrIgnore
        (.empty : Table (Prod.fst : ℕ × String → ℕ))).find id =
      (trades.find? fun e => e.1.stationID = id).map fun e => e.1.station := by
  rw [Table.find_foldl_insertOrIgnore, List.find?_map]
  rfl

/-- What the loop leaves, printed in any order of the stations. -/
theorem complete_plan {iterate : List (ℕ × String) → List (ℕ × String)}
    (hiterate : ∀ l, (iterate l).Perm l) (es : List (AnyJob R K × K)) :
    (plan fullName iterate es).Complete fullName es := by
  have h : (tradeLists fullName es).Holds fullName es := holds_tradeLists es
  let rows := (tradeLists fullName es).stations.rows
  have hperm : (iterate rows).Perm rows := hiterate rows
  have hnodup : ((iterate rows).map Prod.fst).Nodup :=
    (hperm.map Prod.fst).nodup_iff.mpr (tradeLists fullName es).stations.nodup
  have hfind : ∀ id, (tradeLists fullName es).stations.find id =
      ((traded es).find? fun e => e.1.stationID = id).map fun e => e.1.station := by
    intro id
    rw [h.stations, find_stations]
  have hmem : ∀ id, id ∈ (iterate rows).map Prod.fst ↔ ∃ e ∈ traded es, e.1.stationID = id := by
    intro id
    rw [(hperm.map Prod.fst).mem_iff, ← not_iff_not, ← Table.find_eq_none_iff, hfind id,
      Option.map_eq_none_iff, List.find?_eq_none]
    simp
  have hids : (sections (tradeLists fullName es).shoppinglist (iterate rows)).map
      Section.stationID = (iterate rows).map Prod.fst := by
    rw [sections, List.map_map]
    rfl
  refine ⟨?_, ?_, ?_, ?_, ?_, ?_⟩
  · exact listsAll_sections h.shopping hnodup fun e he =>
      (hmem _).mpr ⟨e, mem_traded.mpr (Or.inl he), rfl⟩
  · exact listsAll_sections h.sells hnodup fun e he =>
      (hmem _).mpr ⟨e, mem_traded.mpr (Or.inr he), rfl⟩
  · exact hids ▸ hnodup
  · intro id
    exact hids ▸ hmem id
  · intro s hs
    obtain ⟨station, hstation, rfl⟩ := List.mem_map.mp hs
    have hrow := Table.find_of_mem (hperm.mem_iff.mp hstation)
    rw [hfind] at hrow
    obtain ⟨e, he, heq⟩ := Option.map_eq_some_iff.mp hrow
    show Option.map _ ((traded es).find? fun e => e.1.stationID = station.1) = some station.2
    rw [he, ← heq]
    rfl
  · show (sections _ (iterate rows)).map _ = (sections _ (iterate rows)).map _
    rw [sections, sections, List.map_map, List.map_map]
    rfl

variable [DecidableEq R] {res : Resources R K} {p : Planner R K} {jobs : List (AnyJob R K)}

omit [FloorRing K] in
/-- There is a column for each job. -/
theorem length_jobs (hp : Planner.addJobs res .empty (jobs.map (AnyJob.job res)) = .ok p) :
    jobs.length = p.cols.length := by
  obtain ⟨h, hjobs⟩ := Planner.wellFormed_empty.addJobs hp
  rw [h.cols, List.length_map, hjobs, Planner.empty, List.nil_append, List.length_map]

omit [FloorRing K] in
/-- A value for each job. -/
theorem map_fst_zip (hp : Planner.addJobs res .empty (jobs.map (AnyJob.job res)) = .ok p)
    (prim : Fin p.cols.length → K) : (jobs.zip (List.ofFn prim)).map Prod.fst = jobs :=
  List.map_fst_zip (by rw [List.length_ofFn, length_jobs hp])

/-- **Every trade of the solution is listed once, at its station**, in whatever order the
stations are gone through. -/
theorem Planner.solve_lists {iterate : List (ℕ × String) → List (ℕ × String)}
    (hiterate : ∀ l, (iterate l).Perm l)
    (hp : addJobs res empty (jobs.map (AnyJob.job res)) = .ok p)
    {solver : LP (Fin p.cols.length) K → Option (Fin p.cols.length → K)} {buyIn : K} {plan : Plan}
    (hplan : p.solve fullName res iterate jobs solver buyIn = some plan) :
    ∃ prim, solver (p.lp res buyIn) = some prim ∧
      (jobs.zip (List.ofFn prim)).map Prod.fst = jobs ∧
      plan.Complete fullName (jobs.zip (List.ofFn prim)) := by
  obtain ⟨prim, hprim, hplan⟩ := Option.bind_eq_some_iff.mp hplan
  obtain rfl := Option.some.inj hplan
  exact ⟨prim, hprim, map_fst_zip hp prim, complete_plan hiterate _⟩

end Complete

/-! ### Two trades -/

instance {J K : Type} [Fintype J] [Field K] [LinearOrder K] (lp : LP J K) (x : J → K) :
    Decidable (lp.Feasible x) :=
  decidable_of_iff ((∀ j, Above (x j) (lp.col j).lower) ∧ (∀ j, Below (x j) (lp.col j).upper) ∧
      ∀ r ∈ lp.ranges, Above (lp.activity x r.1) r.2.1 ∧ Below (lp.activity x r.1) r.2.2)
    ⟨fun h => ⟨h.1, h.2.1, h.2.2⟩, fun h => ⟨h.lower, h.upper, h.range⟩⟩

/-- What is bought at one station is sold at another one. -/
def twoTrades : List (AnyJob Unit ℚ) :=
  [.buy ⟨(), 1, -2, 5, 60, "Jita"⟩, .sell ⟨(), 2, 3, 4, 61, "Amarr"⟩]

/-- The only item, of which there is no stock. -/
def oneItem : Resources Unit ℚ := ⟨fun _ => "Tritanium", fun _ => 0⟩

/-- Run each job two and a half times where that is feasible. -/
def runHalves {n : ℕ} (lp : LP (Fin n) ℚ) : Option (Fin n → ℚ) :=
  if lp.Feasible fun _ => 5 / 2 then some fun _ => 5 / 2 else none

/-- The planner of the two trades. -/
def twoTradesPlanner : Planner Unit ℚ :=
  ((Planner.addJobs oneItem .empty (twoTrades.map (AnyJob.job oneItem))).toOption).getD .empty

theorem eq_ok_of_isOk {ε α : Type} {e : Except ε α} (h : e.isOk) (a : α) :
    e = .ok (e.toOption.getD a) := by
  cases e with
  | ok b => rfl
  | error e => exact absurd h (by simp [Except.isOk, Except.toBool])

theorem addJobs_twoTrades :
    Planner.addJobs oneItem .empty (twoTrades.map (AnyJob.job oneItem)) = .ok twoTradesPlanner :=
  eq_ok_of_isOk (by decide +kernel) .empty

/-- Each list has both stations. -/
def twoTradesPlan : Plan where
  shopping := [⟨60, "Jita", [(3, "Tritanium")]⟩, ⟨61, "Amarr", []⟩]
  sells := [⟨60, "Jita", []⟩, ⟨61, "Amarr", [(3, "Tritanium")]⟩]

theorem solve_twoTrades : twoTradesPlanner.solve (fun _ => "Tritanium") oneItem id twoTrades
    runHalves 10 = some twoTradesPlan := by
  decide +kernel

theorem Planner.solve_lists_twoTrades : ∃ prim,
    runHalves (twoTradesPlanner.lp oneItem 10) = some prim ∧
      (twoTrades.zip (List.ofFn prim)).map Prod.fst = twoTrades ∧
      twoTradesPlan.Complete (fun _ => "Tritanium") (twoTrades.zip (List.ofFn prim)) :=
  solve_lists (fun _ => .refl _) addJobs_twoTrades solve_twoTrades

/-! ### No more than the orders and the buy-in allow -/

section Within

variable {K : Type} [Field K] [LinearOrder K] [IsStrictOrderedRing K] [FloorRing K]

/-- What one unit costs. -/
def Trade.price {R : Type} (t : Trade R K) : K := max (-t.value) 0

variable {R : Type} {fullName : R → String}

variable [DecidableEq R] {res : Resources R K} {p : Planner R K} {jobs : List (AnyJob R K)}

omit [IsStrictOrderedRing K] [FloorRing K] in
/-- The column of a job. -/
theorem get_cols (hp : Planner.addJobs res .empty (jobs.map (AnyJob.job res)) = .ok p) {i : ℕ}
    (hi : i < p.cols.length) (hj : i < jobs.length) :
    p.cols.get ⟨i, hi⟩ = Planner.column p.rowID (jobs[i].job res) := by
  obtain ⟨h, hjobs⟩ := Planner.wellFormed_empty.addJobs hp
  rw [Planner.empty, List.nil_append] at hjobs
  have hget : ∀ (cols : List (Col K)) (hi : i < cols.length),
      cols = p.jobs.map (Planner.column p.rowID) →
      cols.get ⟨i, hi⟩ = Planner.column p.rowID (jobs[i].job res) := by
    rintro cols hi rfl
    simp [hjobs]
  exact hget p.cols hi h.cols

end Within

end Planning
end EveIndustryPlanner
