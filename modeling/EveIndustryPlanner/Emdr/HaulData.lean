import EveIndustryPlanner.Lib.Pod

/-!
# Order messages and what they update

Order messages arrive in any order.  A rowset holds all orders of one type in
one region at one time; it is written to the database unless a time that is not
older is found in `last_update`.  That table has an entry for each region and
type, but the query asks for the region alone, so any type of the region may
answer.  An order that the database does not take ends the update where it is.

## Main definitions

* `Rowset`, `HaulState`, `Tables` — messages, what they update, and the rest of
  the database.
* `insertOrders`, `applyRowset` — what a rowset that is not skipped leaves behind.
* `updateRowset`, `Step` — the decision on a selected row, and a step over any row
  the query may return.

## Main results

* `Step.cases` — **what a step can do.**
* `stations_insertOrders`, `orders_insertOrders` — what the loop over the orders
  leaves in memory and in the database.
* `lastUpdate_applyRowset`, `orders_applyRowset` — the tables behind a rowset.
-/

namespace EveIndustryPlanner
namespace Emdr

/-- A hash map. -/
abbrev Map (K V : Type) := K → Option V

/-! ### Messages and tables -/

section Haul

variable (P : Type)

/-- One order of a rowset; `P` are the prices. -/
structure Orders where
  price : P
  volRemaining : UInt64
  orderID : UInt64
  bid : Bool
  issueDate : ℤ
  duration : ℤ
  stationID : UInt64

/-- All orders of a type in a region at a time. -/
structure Rowset where
  x : List (Orders P)
  generatedAt : ℤ
  regionID : UInt64
  typeID : UInt64

/-- The part of a message that is written to the database. -/
structure Message where
  rowsets : List (Rowset P)

/-- An order as the haul search keeps it. -/
structure HaulOrder where
  quantity : UInt64
  price : P

/-- A row of the table `orders`, whose key is the order id. -/
structure OrderRow where
  typeID : UInt64
  bid : Bool
  price : P
  volRemaining : UInt64
  stationID : UInt64
  availableUntil : ℤ

/-- The orders of a station by item and order id. -/
structure StationData where
  buyOrders : Map UInt64 (Map UInt64 (HaulOrder P))
  sellOrders : Map UInt64 (Map UInt64 (HaulOrder P))

/-- What a rowset updates. -/
structure HaulState where
  /-- The table `last_update`, by the number of a region and a type. -/
  lastUpdate : Map (ℕ × UInt64) ℤ
  /-- The table `orders`. -/
  orders : Map UInt64 (OrderRow P)
  stations : Map UInt64 (StationData P)
  freshData : Map UInt64 (Finset UInt64)

/-- The rest of the database. -/
structure Tables where
  /-- The number that the text of a region's id is read as; from `2 ^ 63` on it is rounded. -/
  number : UInt64 → ℕ
  number_eq : ∀ {id : UInt64}, id.toNat < 2 ^ 63 → number id = id.toNat
  /-- The stations of a region, in `staStations` or in `regions`. -/
  inRegion : ℕ → UInt64 → Bool
  /-- The checks of the table `orders`. -/
  accepts : UInt64 → OrderRow P → Bool

/-- A database that reads the ids of regions as they are. -/
def Tables.exact (inRegion : ℕ → UInt64 → Bool) (accepts : UInt64 → OrderRow P → Bool) :
    Tables P where
  number := UInt64.toNat
  number_eq _ := rfl
  inRegion := inRegion
  accepts := accepts

end Haul

section Update

variable {P : Type}

/-- Nothing received yet. -/
def HaulState.empty : HaulState P where
  lastUpdate _ := none
  orders _ := none
  stations _ := none
  freshData _ := none

/-- The ids of the stations of a rowset. -/
def Rowset.stationIDs (rs : Rowset P) : Finset UInt64 := (rs.x.map Orders.stationID).toFinset

/-- `stations[id]`. -/
def HaulState.station (s : HaulState P) (id : UInt64) : StationData P :=
  (s.stations id).getD ⟨fun _ => none, fun _ => none⟩

/-- Forget the orders for an item at a station and mark the item as fresh. -/
def clearStation (itemId : UInt64) (s : HaulState P) (id : UInt64) : HaulState P :=
  let station := s.station id
  let station := { station with
    buyOrders := Function.update station.buyOrders itemId (some fun _ => none)
    sellOrders := Function.update station.sellOrders itemId (some fun _ => none) }
  { s with
    stations := Function.update s.stations id (some station)
    freshData := Function.update s.freshData id
      (some (insert itemId ((s.freshData id).getD ∅))) }

/-- The rows that are deleted for a rowset: those of its item in its region and at its stations. -/
def Rowset.deletes (tables : Tables P) (rs : Rowset P) (row : OrderRow P) : Bool :=
  (tables.inRegion (tables.number rs.regionID) row.stationID ||
    decide (row.stationID ∈ rs.stationIDs)) && row.typeID == rs.typeID

/-- Delete the orders for an item in a region and at some stations. -/
def deleteOrders (tables : Tables P) (rs : Rowset P) (s : HaulState P) : HaulState P :=
  { s with orders := fun id => (s.orders id).filter fun row => !rs.deletes tables row }

/-- The row of an order. -/
def Orders.row (itemId : UInt64) (o : Orders P) : OrderRow P :=
  ⟨itemId, o.bid, o.price, o.volRemaining, o.stationID, o.issueDate + o.duration⟩

/-- A parameter of a statement has to fit into 64 bits with a sign. -/
def bindable (n : UInt64) : Bool := decide (n.toNat < 2 ^ 63)

/-- The parameters can be bound, and the row passes the checks. -/
def Tables.takes (tables : Tables P) (itemId : UInt64) (o : Orders P) : Bool :=
  bindable o.orderID && bindable itemId && bindable o.volRemaining && bindable o.stationID &&
    tables.accepts o.orderID (o.row itemId)

/-- An order goes to its station. -/
def keepOrder (itemId : UInt64) (s : HaulState P) (o : Orders P) : HaulState P :=
  let station := s.station o.stationID
  let order : HaulOrder P := ⟨o.volRemaining, o.price⟩
  let into (orders : Map UInt64 (Map UInt64 (HaulOrder P))) :=
    Function.update orders itemId
      (some (Function.update ((orders itemId).getD fun _ => none) o.orderID (some order)))
  let station :=
    if o.bid then { station with buyOrders := into station.buyOrders }
    else { station with sellOrders := into station.sellOrders }
  { s with stations := Function.update s.stations o.stationID (some station) }

/-- The row of an order is inserted, or replaces the one under its id. -/
def insertRow (itemId : UInt64) (s : HaulState P) (o : Orders P) : HaulState P :=
  { s with orders := Function.update s.orders o.orderID (some (o.row itemId)) }

/-- The loop over the orders, and whether it gets to its end.  An order that the database
does not take throws, but it has gone to its station before. -/
def insertOrders (tables : Tables P) (itemId : UInt64) :
    HaulState P → List (Orders P) → Bool × HaulState P
  | s, [] => (true, s)
  | s, o :: l =>
    let s := keepOrder itemId s o
    if tables.takes itemId o then insertOrders tables itemId (insertRow itemId s o) l
    else (false, s)

/-- A region and a type. -/
def Rowset.key (rs : Rowset P) : UInt64 × UInt64 := (rs.regionID, rs.typeID)

/-- The entry of a rowset in `last_update`. -/
def Tables.entry (tables : Tables P) (rs : Rowset P) : ℕ × UInt64 :=
  (tables.number rs.regionID, rs.typeID)

/-- What becomes of a rowset. -/
inductive Outcome where
  | empty
  | tooOld
  | applied
  /-- An order was not taken; nothing that follows is looked at. -/
  | thrown
  deriving DecidableEq, Repr

/-- What a rowset that is not skipped leaves behind.  The loop over the station
ids starts at the second one: the first was taken for the text of the query. -/
def applyRowset (tables : Tables P) (s : HaulState P) (rs : Rowset P) : Outcome × HaulState P :=
  let s := (rs.stationIDs.sort (· ≤ ·)).tail.foldl (clearStation rs.typeID) s
  -- what the database has of the item in the region goes before the new orders come
  let s := deleteOrders tables rs s
  match insertOrders tables rs.typeID s rs.x with
  | (true, s) =>
    (.applied,
      { s with lastUpdate := Function.update s.lastUpdate (tables.entry rs) (some rs.generatedAt) })
  | (false, s) => (.thrown, s)

/-- Ids in their order. -/
abbrev sortIDs (ids : Finset UInt64) : List UInt64 := ids.sort (· ≤ ·)

/-! ### The decision -/

/-- One rowset, given the first row of the query for its region. -/
def updateRowset (tables : Tables P) (s : HaulState P) (rs : Rowset P) (row : Option ℤ) :
    Outcome × HaulState P :=
  if rs.x.isEmpty then (.empty, s)
  else
    match row with
    | some lastUpdate =>
      if rs.generatedAt ≤ lastUpdate then (.tooOld, s) else applyRowset tables s rs
    | none => applyRowset tables s rs

/-- The first row of `select lastupdate from last_update where regionid = …`: any
row of the region, or none if there is none. -/
def Selects (tables : Tables P) (s : HaulState P) (regionID : UInt64) : Option ℤ → Prop
  | some u => ∃ typeID, s.lastUpdate (tables.number regionID, typeID) = some u
  | none => ∀ typeID, s.lastUpdate (tables.number regionID, typeID) = none

/-- One rowset, over any row the query may return. -/
def Step (tables : Tables P) (s : HaulState P) (rs : Rowset P) (o : Outcome)
    (s' : HaulState P) : Prop :=
  ∃ row, Selects tables s rs.regionID row ∧ updateRowset tables s rs row = (o, s')

variable {tables : Tables P}

/-- The query may always return something. -/
theorem exists_selects (tables : Tables P) (s : HaulState P) (regionID : UInt64) :
    ∃ row, Selects tables s regionID row := by
  by_cases h : ∃ typeID u, s.lastUpdate (tables.number regionID, typeID) = some u
  · obtain ⟨typeID, u, hu⟩ := h
    exact ⟨some u, typeID, hu⟩
  · refine ⟨none, ?_⟩
    intro typeID
    cases hu : s.lastUpdate (tables.number regionID, typeID) with
    | none => rfl
    | some u => exact absurd ⟨typeID, u, hu⟩ h

/-- **What a step can do.** -/
theorem Step.cases {s s' : HaulState P} {rs : Rowset P} {o : Outcome}
    (h : Step tables s rs o s') :
    (rs.x = [] ∧ o = .empty ∧ s' = s) ∨
      (rs.x ≠ [] ∧ o = .tooOld ∧ s' = s ∧
        ∃ typeID u, s.lastUpdate (tables.number rs.regionID, typeID) = some u ∧
          rs.generatedAt ≤ u) ∨
      (rs.x ≠ [] ∧ applyRowset tables s rs = (o, s') ∧
        ((∀ typeID, s.lastUpdate (tables.number rs.regionID, typeID) = none) ∨
          ∃ typeID u, s.lastUpdate (tables.number rs.regionID, typeID) = some u ∧
            u < rs.generatedAt)) := by
  obtain ⟨row, hrow, h⟩ := h
  unfold updateRowset at h
  split at h
  · next hempty =>
    obtain ⟨rfl, rfl⟩ := Prod.mk.injEq .. ▸ h
    exact Or.inl ⟨List.isEmpty_iff.mp hempty, rfl, rfl⟩
  · next hempty =>
    have hne : rs.x ≠ [] := by
      intro e
      exact hempty (List.isEmpty_iff.mpr e)
    cases row with
    | none => exact Or.inr (Or.inr ⟨hne, h, Or.inl hrow⟩)
    | some u =>
      obtain ⟨typeID, hu⟩ := hrow
      simp only at h
      split at h
      · next hle =>
        obtain ⟨rfl, rfl⟩ := Prod.mk.injEq .. ▸ h
        exact Or.inr (Or.inl ⟨hne, rfl, rfl, typeID, u, hu, hle⟩)
      · next hlt => exact Or.inr (Or.inr ⟨hne, h, Or.inr ⟨typeID, u, hu, not_le.mp hlt⟩⟩)

/-! ### The loop over the orders -/

/-- The orders that the loop looks at: up to the first one that is not taken. -/
def Tables.reached (tables : Tables P) (itemId : UInt64) : List (Orders P) → List (Orders P)
  | [] => []
  | o :: l => o :: if tables.takes itemId o then tables.reached itemId l else []

theorem Tables.reached_eq {itemId : UInt64} {l : List (Orders P)}
    (h : ∀ o ∈ l, tables.takes itemId o = true) : tables.reached itemId l = l := by
  induction l with
  | nil => rfl
  | cons o l ih =>
    obtain ⟨ho, hl⟩ := List.forall_mem_cons.mp h
    rw [Tables.reached, if_pos ho, ih hl]

theorem Tables.mem_of_mem_reached {itemId : UInt64} {l : List (Orders P)} {o : Orders P}
    (h : o ∈ tables.reached itemId l) : o ∈ l := by
  induction l with
  | nil => exact h
  | cons o' l ih =>
    rw [Tables.reached] at h
    rcases List.mem_cons.mp h with rfl | h
    · exact List.mem_cons_self
    · split at h
      · exact List.mem_cons_of_mem o' (ih h)
      · exact absurd h List.not_mem_nil

/-- The loop gets to its end if the database takes all orders. -/
theorem insertOrders_fst (itemId : UInt64) (s : HaulState P) (l : List (Orders P)) :
    (insertOrders tables itemId s l).1 = l.all (tables.takes itemId) := by
  induction l generalizing s with
  | nil => rfl
  | cons o l ih =>
    rw [insertOrders, List.all_cons]
    cases htakes : tables.takes itemId o with
    | true => exact ih _
    | false => rfl

/-- The loop changes neither the times nor the fresh items. -/
theorem frame_insertOrders (itemId : UInt64) (s : HaulState P) (l : List (Orders P)) :
    (insertOrders tables itemId s l).2.lastUpdate = s.lastUpdate ∧
      (insertOrders tables itemId s l).2.freshData = s.freshData := by
  induction l generalizing s with
  | nil => exact ⟨rfl, rfl⟩
  | cons o l ih =>
    rw [insertOrders]
    split
    · exact ih _
    · exact ⟨rfl, rfl⟩

theorem stations_foldl_keepOrder {itemId : UInt64} {s t : HaulState P}
    (h : s.stations = t.stations) (l : List (Orders P)) :
    (l.foldl (keepOrder itemId) s).stations = (l.foldl (keepOrder itemId) t).stations := by
  induction l generalizing s t with
  | nil => exact h
  | cons o l ih => exact ih (by simp only [keepOrder, HaulState.station, h])

/-- In memory the loop leaves the orders that it has looked at. -/
theorem stations_insertOrders (itemId : UInt64) (s : HaulState P) (l : List (Orders P)) :
    (insertOrders tables itemId s l).2.stations =
      ((tables.reached itemId l).foldl (keepOrder itemId) s).stations := by
  induction l generalizing s with
  | nil => rfl
  | cons o l ih =>
    rw [insertOrders, Tables.reached, List.foldl_cons]
    split
    · rw [ih]
      have hrow : (insertRow itemId (keepOrder itemId s o) o).stations =
          (keepOrder itemId s o).stations := rfl
      exact stations_foldl_keepOrder hrow _
    · rfl

/-- The row of the last of some orders under an id. -/
def lastRow (itemId : UInt64) (l : List (Orders P)) (orderID : UInt64) : Option (OrderRow P) :=
  ((l.filter fun o => o.orderID = orderID).getLast?).map (Orders.row itemId)

theorem lastRow_cons (itemId : UInt64) (o : Orders P) (l : List (Orders P)) (orderID : UInt64) :
    lastRow itemId (o :: l) orderID =
      (lastRow itemId l orderID).or
        (if o.orderID = orderID then some (o.row itemId) else none) := by
  by_cases h : o.orderID = orderID
  · rw [lastRow, List.filter_cons_of_pos (by simpa using h), List.getLast?_cons, if_pos h, lastRow]
    cases (l.filter fun o => o.orderID = orderID).getLast? <;> rfl
  · rw [lastRow, List.filter_cons_of_neg (by simpa using h), if_neg h, Option.or_none]
    rfl

/-- In the database the loop leaves the last order under each id, if all are taken. -/
theorem orders_insertOrders {itemId : UInt64} {l : List (Orders P)}
    (h : ∀ o ∈ l, tables.takes itemId o = true) (s : HaulState P) (orderID : UInt64) :
    (insertOrders tables itemId s l).2.orders orderID =
      (lastRow itemId l orderID).or (s.orders orderID) := by
  induction l generalizing s with
  | nil => rfl
  | cons o l ih =>
    obtain ⟨ho, hl⟩ := List.forall_mem_cons.mp h
    rw [insertOrders]
    rw [if_pos ho, ih hl, lastRow_cons, Option.or_assoc]
    congr 1
    show Function.update s.orders o.orderID (some (o.row itemId)) orderID = _
    by_cases hid : o.orderID = orderID
    · rw [if_pos hid, ← hid, Function.update_self]
      rfl
    · rw [if_neg hid, Function.update_of_ne (fun e => hid e.symm)]
      rfl

/-! ### Behind a rowset -/

/-- The loop over the stations does not change the database. -/
theorem frame_clearStations (itemId : UInt64) (s : HaulState P) (ids : List UInt64) :
    (ids.foldl (clearStation itemId) s).lastUpdate = s.lastUpdate ∧
      (ids.foldl (clearStation itemId) s).orders = s.orders := by
  induction ids generalizing s with
  | nil => exact ⟨rfl, rfl⟩
  | cons id ids ih => exact ih (clearStation itemId s id)

/-- The state in front of the loop over the orders. -/
def cleared (tables : Tables P) (s : HaulState P) (rs : Rowset P) : HaulState P :=
  deleteOrders tables rs ((rs.stationIDs.sort (· ≤ ·)).tail.foldl (clearStation rs.typeID) s)

/-- What becomes of a rowset is what becomes of its orders. -/
theorem applyRowset_eq (tables : Tables P) (s : HaulState P) (rs : Rowset P) :
    applyRowset tables s rs =
      if rs.x.all (tables.takes rs.typeID) then
        (.applied, { (insertOrders tables rs.typeID (cleared tables s rs) rs.x).2 with
          lastUpdate := Function.update s.lastUpdate (tables.entry rs) (some rs.generatedAt) })
      else (.thrown, (insertOrders tables rs.typeID (cleared tables s rs) rs.x).2) := by
  have hlast : (insertOrders tables rs.typeID (cleared tables s rs) rs.x).2.lastUpdate =
      s.lastUpdate := by
    rw [(frame_insertOrders ..).1]
    exact (frame_clearStations ..).1
  rw [← insertOrders_fst rs.typeID (cleared tables s rs), ← hlast, applyRowset]
  show (match insertOrders tables rs.typeID (cleared tables s rs) rs.x with
    | (true, s) => _
    | (false, s) => _) = _
  generalize insertOrders tables rs.typeID (cleared tables s rs) rs.x = r
  obtain ⟨ok, s'⟩ := r
  cases ok <;> rfl

/-- A rowset is applied if all its orders are taken, and throws if not. -/
theorem applyRowset_fst (tables : Tables P) (s : HaulState P) (rs : Rowset P) :
    (applyRowset tables s rs).1 =
      if rs.x.all (tables.takes rs.typeID) then .applied else .thrown := by
  rw [applyRowset_eq]
  split <;> rfl

/-- A rowset that is applied writes its own time and no other. -/
theorem lastUpdate_applyRowset {rs : Rowset P} (h : ∀ o ∈ rs.x, tables.takes rs.typeID o = true)
    (s : HaulState P) : (applyRowset tables s rs).2.lastUpdate =
      Function.update s.lastUpdate (tables.entry rs) (some rs.generatedAt) := by
  rw [applyRowset_eq, if_pos (List.all_eq_true.mpr h)]

/-- One that throws writes none. -/
theorem lastUpdate_applyRowset_of_thrown {s : HaulState P} {rs : Rowset P}
    (h : (applyRowset tables s rs).1 = .thrown) :
    (applyRowset tables s rs).2.lastUpdate = s.lastUpdate := by
  rw [applyRowset_eq] at h ⊢
  split at h
  · cases h
  · next hall =>
    rw [if_neg hall, (frame_insertOrders ..).1]
    exact (frame_clearStations ..).1

/-- The row of a rowset under an id. -/
def Rowset.row (rs : Rowset P) (orderID : UInt64) : Option (OrderRow P) :=
  lastRow rs.typeID rs.x orderID

/-- A rowset that is applied writes its orders, and deletes others. -/
theorem orders_applyRowset {rs : Rowset P} (h : ∀ o ∈ rs.x, tables.takes rs.typeID o = true)
    (s : HaulState P) (orderID : UInt64) : (applyRowset tables s rs).2.orders orderID =
      (rs.row orderID).or ((s.orders orderID).filter fun row => !rs.deletes tables row) := by
  rw [applyRowset_eq, if_pos (List.all_eq_true.mpr h)]
  apply (orders_insertOrders h _ _).trans
  rw [cleared, deleteOrders, (frame_clearStations ..).2]
  rfl

end Update

end Emdr
end EveIndustryPlanner
