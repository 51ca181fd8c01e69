import EveIndustryPlanner.Emdr.Staleness

/-!
# The orders of the stations

A rowset that is not skipped should replace what is known of its item at all of its
stations.  The loop that forgets the old orders also writes the list of stations
for the query, and it starts behind the first station; the old orders of that
station stay, and the item does not become fresh there.  An order that the database
does not take ends the loop that puts the new orders to their stations.

## Main definitions

* `StationData.orders`, `HaulState.held` — the orders of one side of a station.
* `Rowset.last` — the last order of a rowset under an id.
* `Replaced` — the rowset has replaced what was known.
* `Rowset.Covers` — nothing is left to forget at the first station, and nothing to
  learn behind an order that is not taken.

## Main results

* `held_keep`, `held_clear` — what the two loops leave behind.
* `Rowset.covers_iff_of_taken` — what is left if the database takes all orders.
* `replaced_iff` — **a rowset replaces what was known exactly if nothing was left
  to forget at its first station, and nothing to learn behind an order that is not
  taken.**
-/

namespace EveIndustryPlanner
namespace Emdr

section Stations

variable {P : Type}

/-! ### One side of a station -/

/-- The orders of a station: those to buy, or those to sell. -/
def StationData.orders (station : StationData P) (bid : Bool) :
    Map UInt64 (Map UInt64 (HaulOrder P)) :=
  if bid then station.buyOrders else station.sellOrders

/-- The order that is known under an id for an item at a station. -/
def HaulState.held (s : HaulState P) (id : UInt64) (bid : Bool) (itemId orderID : UInt64) :
    Option (HaulOrder P) :=
  ((s.station id).orders bid itemId).getD (fun _ => none) orderID

/-- The items that are fresh at a station. -/
def HaulState.fresh (s : HaulState P) (id : UInt64) : Finset UInt64 := (s.freshData id).getD ∅

/-- What is kept of an order. -/
def Orders.haul (o : Orders P) : HaulOrder P := ⟨o.volRemaining, o.price⟩

/-- The order goes to a side of a station under an id. -/
def Orders.Goes (o : Orders P) (id : UInt64) (bid : Bool) (orderID : UInt64) : Prop :=
  o.stationID = id ∧ o.bid = bid ∧ o.orderID = orderID

instance (o : Orders P) (id : UInt64) (bid : Bool) (orderID : UInt64) :
    Decidable (o.Goes id bid orderID) := inferInstanceAs (Decidable (_ ∧ _))

/-- The last of some orders that goes to a side of a station under an id. -/
def lastOf (l : List (Orders P)) (id : UInt64) (bid : Bool) (orderID : UInt64) :
    Option (HaulOrder P) :=
  ((l.filter fun o => o.Goes id bid orderID).getLast?).map Orders.haul

/-- The last order of a rowset under an id. -/
def Rowset.last (rs : Rowset P) (id : UInt64) (bid : Bool) (orderID : UInt64) :
    Option (HaulOrder P) := lastOf rs.x id bid orderID

theorem lastOf_snoc (l : List (Orders P)) (o : Orders P) (id : UInt64) (bid : Bool)
    (orderID : UInt64) : lastOf (l ++ [o]) id bid orderID =
      if o.Goes id bid orderID then some o.haul else lastOf l id bid orderID := by
  by_cases h : o.Goes id bid orderID
  · simp [lastOf, List.filter_append, h]
  · simp [lastOf, List.filter_append, h]

theorem lastOf_eq_none_iff {l : List (Orders P)} {id : UInt64} {bid : Bool} {orderID : UInt64} :
    lastOf l id bid orderID = none ↔ ∀ o ∈ l, ¬ o.Goes id bid orderID := by
  simp [lastOf]

theorem Rowset.mem_stationIDs {rs : Rowset P} {id : UInt64} :
    id ∈ rs.stationIDs ↔ ∃ o ∈ rs.x, o.stationID = id := by simp [Rowset.stationIDs]

/-! ### The loops -/

variable {tables : Tables P} {s : HaulState P}

/-- The sides of a station after one order was put there. -/
theorem orders_keepOrder (itemId : UInt64) (o : Orders P) (id : UInt64) (bid : Bool) :
    ((keepOrder itemId s o).station id).orders bid =
      if o.stationID = id ∧ o.bid = bid then
        Function.update ((s.station id).orders bid) itemId
          (some (Function.update (((s.station id).orders bid itemId).getD fun _ => none) o.orderID
            (some o.haul)))
      else (s.station id).orders bid := by
  by_cases hid : o.stationID = id
  · subst hid
    cases hbid : o.bid <;> cases bid <;>
      simp [keepOrder, HaulState.station, StationData.orders, hbid, Orders.haul]
  · have hne : id ≠ o.stationID := fun e => hid e.symm
    simp [keepOrder, HaulState.station, hne, hid]

/-- One order is put where it goes. -/
theorem held_keepOrder (itemId : UInt64) (o : Orders P) (id : UInt64) (bid : Bool)
    (orderID : UInt64) : (keepOrder itemId s o).held id bid itemId orderID =
      if o.Goes id bid orderID then some o.haul else s.held id bid itemId orderID := by
  rw [HaulState.held, orders_keepOrder]
  by_cases hside : o.stationID = id ∧ o.bid = bid
  · rw [if_pos hside, Function.update_self, Option.getD_some]
    by_cases horder : o.orderID = orderID
    · rw [if_pos ⟨hside.1, hside.2, horder⟩, ← horder, Function.update_self]
    · have hgoes : ¬ o.Goes id bid orderID := fun h => horder h.2.2
      rw [if_neg hgoes, Function.update_of_ne (fun e => horder e.symm), HaulState.held]
  · have hgoes : ¬ o.Goes id bid orderID := fun h => hside ⟨h.1, h.2.1⟩
    rw [if_neg hside, if_neg hgoes, HaulState.held]

/-- All orders are put where they go, later ones over earlier ones. -/
theorem held_keep (s : HaulState P) (itemId : UInt64) (l : List (Orders P)) (id : UInt64)
    (bid : Bool) (orderID : UInt64) :
    (l.foldl (keepOrder itemId) s).held id bid itemId orderID =
      (lastOf l id bid orderID).or (s.held id bid itemId orderID) := by
  induction l using List.reverseRecOn with
  | nil => rfl
  | append_singleton l o ih =>
    rw [List.foldl_append, List.foldl_cons, List.foldl_nil, held_keepOrder, ih, lastOf_snoc]
    by_cases hgoes : o.Goes id bid orderID
    · rw [if_pos hgoes, if_pos hgoes]
      rfl
    · rw [if_neg hgoes, if_neg hgoes]

/-- Orders for an item leave the other items alone. -/
theorem orders_keep_of_ne (s : HaulState P) {itemId itemId' : UInt64} (h : itemId' ≠ itemId)
    (l : List (Orders P)) (id : UInt64) (bid : Bool) :
    ((l.foldl (keepOrder itemId) s).station id).orders bid itemId' =
      (s.station id).orders bid itemId' := by
  induction l using List.reverseRecOn with
  | nil => rfl
  | append_singleton l o ih =>
    rw [List.foldl_append, List.foldl_cons, List.foldl_nil, orders_keepOrder, ← ih]
    split
    · rw [Function.update_of_ne h]
    · rfl

/-- Orders for other stations leave a station alone. -/
theorem stations_keep (s : HaulState P) {id : UInt64} (itemId : UInt64)
    {l : List (Orders P)} (h : ∀ o ∈ l, o.stationID ≠ id) :
    (l.foldl (keepOrder itemId) s).stations id = s.stations id := by
  induction l using List.reverseRecOn with
  | nil => rfl
  | append_singleton l o ih =>
    rw [List.foldl_append, List.foldl_cons, List.foldl_nil]
    have hne : id ≠ o.stationID := fun e => h o (by simp) e.symm
    have hrest := ih fun o ho => h o (by simp [ho])
    simpa [keepOrder, hne] using hrest

/-- The sides of a station after one station was cleared. -/
theorem orders_clearStation (itemId cleared id : UInt64) (bid : Bool) :
    ((clearStation itemId s cleared).station id).orders bid =
      if id = cleared then Function.update ((s.station id).orders bid) itemId (some fun _ => none)
      else (s.station id).orders bid := by
  by_cases hid : id = cleared
  · subst hid
    cases bid <;> simp [clearStation, HaulState.station, StationData.orders]
  · simp [clearStation, HaulState.station, hid]

/-- Nothing is known of the item at the stations that were cleared. -/
theorem held_clear (itemId : UInt64) (ids : List UInt64) (id : UInt64) (bid : Bool)
    (orderID : UInt64) : (ids.foldl (clearStation itemId) s).held id bid itemId orderID =
      if id ∈ ids then none else s.held id bid itemId orderID := by
  induction ids using List.reverseRecOn with
  | nil => rfl
  | append_singleton ids cleared ih =>
    rw [List.foldl_append, List.foldl_cons, List.foldl_nil, HaulState.held, orders_clearStation]
    by_cases hid : id = cleared
    · rw [if_pos hid, Function.update_self, if_pos (by simp [hid])]
      rfl
    · have hmem : id ∈ ids ++ [cleared] ↔ id ∈ ids := by simp [hid]
      simp only [if_neg hid, hmem]
      exact ih

/-- Clearing an item leaves the other items alone. -/
theorem orders_clear_of_ne {itemId itemId' : UInt64} (h : itemId' ≠ itemId) (ids : List UInt64)
    (id : UInt64) (bid : Bool) :
    ((ids.foldl (clearStation itemId) s).station id).orders bid itemId' =
      (s.station id).orders bid itemId' := by
  induction ids using List.reverseRecOn with
  | nil => rfl
  | append_singleton ids cleared ih =>
    rw [List.foldl_append, List.foldl_cons, List.foldl_nil, orders_clearStation, ← ih]
    split
    · rw [Function.update_of_ne h]
    · rfl

/-- Clearing other stations leaves a station alone. -/
theorem stations_clear {id : UInt64} (itemId : UInt64) {ids : List UInt64} (h : id ∉ ids) :
    (ids.foldl (clearStation itemId) s).stations id = s.stations id ∧
      (ids.foldl (clearStation itemId) s).freshData id = s.freshData id := by
  induction ids using List.reverseRecOn with
  | nil => exact ⟨rfl, rfl⟩
  | append_singleton ids cleared ih =>
    rw [List.foldl_append, List.foldl_cons, List.foldl_nil]
    have hne : id ≠ cleared := fun e => h (by simp [e])
    have hrest := ih fun hid => h (by simp [hid])
    simpa [clearStation, hne] using hrest

/-- The item becomes fresh at the stations that were cleared. -/
theorem fresh_clear (itemId : UInt64) (ids : List UInt64) (id : UInt64) :
    (ids.foldl (clearStation itemId) s).fresh id =
      if id ∈ ids then insert itemId (s.fresh id) else s.fresh id := by
  induction ids using List.reverseRecOn with
  | nil => rfl
  | append_singleton ids cleared ih =>
    rw [List.foldl_append, List.foldl_cons, List.foldl_nil]
    by_cases hid : id = cleared
    · subst hid
      have hclear : (clearStation itemId (ids.foldl (clearStation itemId) s) id).fresh id =
          insert itemId ((ids.foldl (clearStation itemId) s).fresh id) := by
        simp [clearStation, HaulState.fresh]
      have hmem : id ∈ ids ++ [id] := by simp
      rw [hclear, ih, if_pos hmem]
      split
      · rw [Finset.insert_idem]
      · rfl
    · have hmem : id ∈ ids ++ [cleared] ↔ id ∈ ids := by simp [hid]
      have hclear : (clearStation itemId (ids.foldl (clearStation itemId) s) cleared).fresh id =
          (ids.foldl (clearStation itemId) s).fresh id := by
        simp [clearStation, HaulState.fresh, hid]
      simp only [hclear, ih, hmem]

/-! ### What is left behind -/

/-- The rowset has replaced what was known of its item at its stations, and has
left everything else alone. -/
structure Replaced (rs : Rowset P) (s s' : HaulState P) : Prop where
  held : ∀ id ∈ rs.stationIDs, ∀ bid orderID,
    s'.held id bid rs.typeID orderID = rs.last id bid orderID
  fresh : ∀ id ∈ rs.stationIDs, rs.typeID ∈ s'.fresh id
  otherItems : ∀ id itemId, itemId ≠ rs.typeID →
    (∀ bid, (s'.station id).orders bid itemId = (s.station id).orders bid itemId) ∧
      (itemId ∈ s'.fresh id ↔ itemId ∈ s.fresh id)
  otherStations : ∀ id, id ∉ rs.stationIDs →
    s'.stations id = s.stations id ∧ s'.freshData id = s.freshData id

/-- Nothing is left to forget at the first station: the item is fresh there, and every
order that is known has its successor in the rowset.  And nothing is left to learn behind
an order that is not taken. -/
structure Rowset.Covers (tables : Tables P) (rs : Rowset P) (s : HaulState P) (first : UInt64) :
    Prop where
  fresh : rs.typeID ∈ s.fresh first
  orders : ∀ bid orderID, (s.held first bid rs.typeID orderID).isSome →
    ∃ o ∈ rs.x, o.Goes first bid orderID
  rest : ∀ id ∈ rs.stationIDs, ∀ bid orderID,
    lastOf (tables.reached rs.typeID rs.x) id bid orderID = rs.last id bid orderID ∨
      id = first ∧ lastOf (tables.reached rs.typeID rs.x) id bid orderID = none ∧
        s.held first bid rs.typeID orderID = rs.last id bid orderID

/-- Where all orders are taken, nothing is left to learn. -/
theorem Rowset.covers_iff_of_taken {rs : Rowset P} {first : UInt64}
    (h : ∀ o ∈ rs.x, tables.takes rs.typeID o = true) :
    rs.Covers tables s first ↔ rs.typeID ∈ s.fresh first ∧
      ∀ bid orderID, (s.held first bid rs.typeID orderID).isSome →
        ∃ o ∈ rs.x, o.Goes first bid orderID := by
  constructor
  · exact fun hcovers => ⟨hcovers.fresh, hcovers.orders⟩
  · rintro ⟨hfresh, horders⟩
    refine ⟨hfresh, horders, fun id _ bid orderID => Or.inl ?_⟩
    rw [Tables.reached_eq h, Rowset.last]

/-- The stations that are cleared: all but the first. -/
def Rowset.cleared (rs : Rowset P) : List UInt64 := (sortIDs rs.stationIDs).tail

/-- The stations of a rowset in their order: the first one, then those that are cleared. -/
theorem Rowset.sort_stationIDs {rs : Rowset P} {first : UInt64}
    (h : IsLeast (rs.stationIDs : Set UInt64) first) :
    rs.stationIDs.sort (· ≤ ·) = first :: rs.cleared := by
  obtain ⟨hmem, hleast⟩ := h
  have hsorted := rs.stationIDs.pairwise_sort (· ≤ ·)
  have hfirst : first ∈ rs.stationIDs.sort (· ≤ ·) := (Finset.mem_sort _).mpr hmem
  rw [Rowset.cleared, sortIDs]
  cases hsort : rs.stationIDs.sort (· ≤ ·) with
  | nil => simp [hsort] at hfirst
  | cons id ids =>
    rw [hsort] at hsorted hfirst
    have hid : id ∈ rs.stationIDs := by
      rw [← Finset.mem_sort (· ≤ ·), hsort]
      exact List.mem_cons_self
    have hle : id ≤ first := by
      rcases List.mem_cons.mp hfirst with rfl | hfirst
      · exact le_refl first
      · exact List.rel_of_pairwise_cons hsorted hfirst
    rw [le_antisymm (hleast hid) hle, List.tail_cons]

theorem Rowset.mem_stationIDs_iff {rs : Rowset P} {first : UInt64}
    (h : IsLeast (rs.stationIDs : Set UInt64) first) (id : UInt64) :
    id ∈ rs.stationIDs ↔ id = first ∨ id ∈ rs.cleared := by
  rw [← Finset.mem_sort (· ≤ ·), Rowset.sort_stationIDs h, List.mem_cons]

theorem Rowset.not_mem_cleared {rs : Rowset P} {first : UInt64}
    (h : IsLeast (rs.stationIDs : Set UInt64) first) : first ∉ rs.cleared := by
  have hnodup := rs.stationIDs.sort_nodup (· ≤ ·)
  rw [Rowset.sort_stationIDs h] at hnodup
  exact (List.nodup_cons.mp hnodup).1

theorem Rowset.exists_isLeast {rs : Rowset P} (h : rs.x ≠ []) :
    ∃ first, IsLeast (rs.stationIDs : Set UInt64) first := by
  obtain ⟨o, ho⟩ := List.exists_mem_of_ne_nil rs.x h
  have hne : rs.stationIDs.Nonempty := ⟨o.stationID, Rowset.mem_stationIDs.mpr ⟨o, ho, rfl⟩⟩
  exact ⟨rs.stationIDs.min' hne, rs.stationIDs.isLeast_min' hne⟩

/-- The stations and the fresh items behind a rowset. -/
theorem memory_applyRowset (tables : Tables P) (s : HaulState P) (rs : Rowset P) :
    (applyRowset tables s rs).2.stations = ((tables.reached rs.typeID rs.x).foldl
        (keepOrder rs.typeID) (rs.cleared.foldl (clearStation rs.typeID) s)).stations ∧
      (applyRowset tables s rs).2.freshData =
        (rs.cleared.foldl (clearStation rs.typeID) s).freshData := by
  have hcleared : (cleared tables s rs).stations =
      (rs.cleared.foldl (clearStation rs.typeID) s).stations := rfl
  rw [← stations_foldl_keepOrder hcleared, ← stations_insertOrders, applyRowset_eq]
  obtain ⟨-, hfresh⟩ := @frame_insertOrders _ tables rs.typeID (cleared tables s rs) rs.x
  split
  · exact ⟨rfl, hfresh⟩
  · exact ⟨rfl, hfresh⟩

/-- What is known at the stations depends on the stations only. -/
theorem held_congr {s t : HaulState P} (h : s.stations = t.stations) : s.held = t.held := by
  funext id bid itemId orderID
  simp only [HaulState.held, HaulState.station, h]

/-- What a rowset leaves of its item. -/
theorem held_applyRowset (rs : Rowset P) (id : UInt64) (bid : Bool) (orderID : UInt64) :
    (applyRowset tables s rs).2.held id bid rs.typeID orderID =
      (lastOf (tables.reached rs.typeID rs.x) id bid orderID).or
        (if id ∈ rs.cleared then none else s.held id bid rs.typeID orderID) := by
  rw [held_congr (memory_applyRowset tables s rs).1, held_keep, held_clear]

/-- Where the item is fresh after a rowset. -/
theorem fresh_applyRowset (rs : Rowset P) (id : UInt64) :
    (applyRowset tables s rs).2.fresh id =
      if id ∈ rs.cleared then insert rs.typeID (s.fresh id) else s.fresh id := by
  rw [← fresh_clear, HaulState.fresh, (memory_applyRowset tables s rs).2]
  rfl

/-- A rowset leaves the other items alone. -/
theorem orders_applyRowset_of_ne (rs : Rowset P) {itemId : UInt64} (h : itemId ≠ rs.typeID)
    (id : UInt64) (bid : Bool) :
    ((applyRowset tables s rs).2.station id).orders bid itemId =
      (s.station id).orders bid itemId := by
  have hclear := orders_clear_of_ne (s := s) h rs.cleared id bid
  rw [← hclear, HaulState.station, (memory_applyRowset tables s rs).1]
  exact orders_keep_of_ne _ h (tables.reached rs.typeID rs.x) id bid

/-- A rowset leaves the other stations alone. -/
theorem stations_applyRowset (rs : Rowset P) {id : UInt64} (h : id ∉ rs.stationIDs) :
    (applyRowset tables s rs).2.stations id = s.stations id ∧
      (applyRowset tables s rs).2.freshData id = s.freshData id := by
  have hcleared : id ∉ rs.cleared := by
    intro hid
    exact h ((Finset.mem_sort (· ≤ ·)).mp (List.mem_of_mem_tail hid))
  have hgoes : ∀ o ∈ tables.reached rs.typeID rs.x, o.stationID ≠ id := by
    intro o ho hid
    exact h (Rowset.mem_stationIDs.mpr ⟨o, Tables.mem_of_mem_reached ho, hid⟩)
  have hclear := stations_clear (s := s) rs.typeID hcleared
  obtain ⟨hstations, hfresh⟩ := memory_applyRowset tables s rs
  rw [hstations, hfresh, stations_keep _ _ hgoes]
  exact hclear

/-- Where a rowset has replaced what was known, nothing was left to forget or to learn. -/
theorem covers_of_replaced {rs : Rowset P} {first : UInt64}
    (hfirst : IsLeast (rs.stationIDs : Set UInt64) first)
    (h : Replaced rs s (applyRowset tables s rs).2) : rs.Covers tables s first := by
  have hnot := Rowset.not_mem_cleared hfirst
  constructor
  case fresh =>
    have hfresh := h.fresh first hfirst.1
    rwa [fresh_applyRowset, if_neg hnot] at hfresh
  case orders =>
    intro bid orderID hheld
    -- what was known and is not replaced would still be known
    by_contra hno
    have hreached : lastOf (tables.reached rs.typeID rs.x) first bid orderID = none := by
      rw [lastOf_eq_none_iff]
      exact fun o ho hgoes => hno ⟨o, Tables.mem_of_mem_reached ho, hgoes⟩
    have hlast : rs.last first bid orderID = none := by
      rw [Rowset.last, lastOf_eq_none_iff]
      exact fun o ho hgoes => hno ⟨o, ho, hgoes⟩
    have hkept := h.held first hfirst.1 bid orderID
    rw [held_applyRowset, if_neg hnot, hreached, hlast, Option.none_or] at hkept
    rw [hkept] at hheld
    exact absurd hheld (by simp)
  case rest =>
    intro id hid bid orderID
    have hkept := h.held id hid bid orderID
    rw [held_applyRowset] at hkept
    rcases (Rowset.mem_stationIDs_iff hfirst id).mp hid with rfl | hid
    · rw [if_neg hnot] at hkept
      cases hreached : lastOf (tables.reached rs.typeID rs.x) id bid orderID with
      | some v =>
        rw [hreached, Option.some_or] at hkept
        exact Or.inl hkept
      | none =>
        rw [hreached, Option.none_or] at hkept
        exact Or.inr ⟨rfl, rfl, hkept⟩
    · rw [if_pos hid, Option.or_none] at hkept
      exact Or.inl hkept

/-- Where nothing is left to forget or to learn, a rowset has replaced what was known. -/
theorem replaced_of_covers {rs : Rowset P} {first : UInt64}
    (hfirst : IsLeast (rs.stationIDs : Set UInt64) first) (h : rs.Covers tables s first) :
    Replaced rs s (applyRowset tables s rs).2 := by
  have hnot := Rowset.not_mem_cleared hfirst
  constructor
  case held =>
    intro id hid bid orderID
    rw [held_applyRowset]
    rcases h.rest id hid bid orderID with hreached | ⟨rfl, hreached, hheld⟩
    · rw [hreached]
      rcases (Rowset.mem_stationIDs_iff hfirst id).mp hid with rfl | hid
      · rw [if_neg hnot]
        cases hlast : rs.last id bid orderID with
        | some o => rfl
        | none =>
          rw [Option.none_or, ← Option.not_isSome_iff_eq_none]
          intro hheld
          obtain ⟨o, ho, hgoes⟩ := h.orders bid orderID hheld
          exact lastOf_eq_none_iff.mp hlast o ho hgoes
      · rw [if_pos hid, Option.or_none]
    · rw [hreached, Option.none_or, if_neg hnot, hheld]
  case fresh =>
    intro id hid
    rw [fresh_applyRowset]
    rcases (Rowset.mem_stationIDs_iff hfirst id).mp hid with rfl | hid
    · rw [if_neg hnot]
      exact h.fresh
    · rw [if_pos hid]
      exact Finset.mem_insert_self ..
  case otherItems =>
    intro id itemId hitem
    refine ⟨fun bid => orders_applyRowset_of_ne rs hitem id bid, ?_⟩
    rw [fresh_applyRowset]
    split
    · rw [Finset.mem_insert, or_iff_right hitem]
    · rfl
  case otherStations => exact fun id => stations_applyRowset rs

/-- **A rowset that is not skipped replaces what was known exactly if nothing was left to
forget at its first station, and nothing to learn behind an order that is not taken.** -/
theorem replaced_iff {rs : Rowset P} {s' : HaulState P} {o : Outcome} (h : Step tables s rs o s')
    (ho : o ≠ .empty ∧ o ≠ .tooOld) :
    Replaced rs s s' ↔
      ∃ first, IsLeast (rs.stationIDs : Set UInt64) first ∧ rs.Covers tables s first := by
  obtain ⟨hne, rfl⟩ : rs.x ≠ [] ∧ s' = (applyRowset tables s rs).2 := by
    rcases h.cases with ⟨-, hempty, -⟩ | ⟨-, hold, -⟩ | ⟨hne, happly, -⟩
    · exact absurd hempty ho.1
    · exact absurd hold ho.2
    · exact ⟨hne, by rw [happly]⟩
  constructor
  · intro hreplaced
    obtain ⟨first, hfirst⟩ := Rowset.exists_isLeast hne
    exact ⟨first, hfirst, covers_of_replaced hfirst hreplaced⟩
  · rintro ⟨first, hfirst, hcovers⟩
    exact replaced_of_covers hfirst hcovers

end Stations

/-! ### Two stations -/

/-- An ask at each of two stations. -/
def twoAsks : Rowset Unit :=
  ⟨[⟨(), 1, 7, false, 0, 0, 1⟩, ⟨(), 1, 8, false, 0, 0, 2⟩], 10, 1, 34⟩

/-- A station where one ask for the item is known. -/
def oneAsk (orderID : UInt64) : StationData Unit where
  buyOrders _ := none
  sellOrders := Function.update (fun _ => none) 34
    (some (Function.update (fun _ => none) orderID (some ⟨5, ()⟩)))

/-- The item is fresh at the first station, where an ask is known under an id of the
rowset; at the other one an ask is known under another id. -/
def asksKnown : HaulState Unit :=
  { HaulState.empty with
    stations := Function.update (Function.update (fun _ => none) 1 (some (oneAsk 7))) 2
      (some (oneAsk 9))
    freshData := Function.update (fun _ => none) 1 (some {34}) }

/-- The last order of the rowset is not taken. -/
def refusing : Tables Unit := { openTables with accepts := fun orderID _ => orderID != 8 }

theorem isLeast_twoAsks : IsLeast (twoAsks.stationIDs : Set UInt64) 1 := by
  refine ⟨by decide, fun id hid => ?_⟩
  have hid : id = 1 ∨ id = 2 := by simpa [twoAsks, Rowset.stationIDs] using hid
  rcases hid with rfl | rfl
  · decide
  · decide

/-- The loop looks at the last order even if it is not taken. -/
theorem covers_twoAsks {tables : Tables Unit}
    (h : tables.reached twoAsks.typeID twoAsks.x = twoAsks.x) :
    twoAsks.Covers tables asksKnown 1 where
  fresh := by simp [twoAsks, asksKnown, HaulState.fresh]
  orders bid orderID hheld := by
    cases bid with
    | true =>
      simp [HaulState.held, HaulState.station, asksKnown, oneAsk, StationData.orders] at hheld
    | false =>
      by_cases hid : orderID = 7
      · exact ⟨⟨(), 1, 7, false, 0, 0, 1⟩, by simp [twoAsks], rfl, rfl, hid.symm⟩
      · simp [HaulState.held, HaulState.station, asksKnown, oneAsk, StationData.orders, twoAsks,
          hid] at hheld
  rest id _ bid orderID := Or.inl (by rw [h, Rowset.last])

/-- Both stations have what the rowset says, also where its last order is not taken. -/
theorem replaced_iff_twoAsks :
    (∃ s', Step openTables asksKnown twoAsks .applied s' ∧ Replaced twoAsks asksKnown s') ∧
      ∃ s', Step refusing asksKnown twoAsks .thrown s' ∧ Replaced twoAsks asksKnown s' := by
  have hstep : ∀ tables : Tables Unit, Step tables asksKnown twoAsks
      (applyRowset tables asksKnown twoAsks).1 (applyRowset tables asksKnown twoAsks).2 :=
    fun tables => ⟨none, fun _ => rfl, rfl⟩
  have happlied : (applyRowset openTables asksKnown twoAsks).1 = .applied := by
    rw [applyRowset_fst]
    decide
  have hthrown : (applyRowset refusing asksKnown twoAsks).1 = .thrown := by
    rw [applyRowset_fst]
    decide
  constructor
  · refine ⟨_, happlied ▸ hstep openTables, ?_⟩
    exact (replaced_iff (hstep openTables) (by rw [happlied]; decide)).mpr
      ⟨1, isLeast_twoAsks, covers_twoAsks rfl⟩
  · refine ⟨_, hthrown ▸ hstep refusing, ?_⟩
    exact (replaced_iff (hstep refusing) (by rw [hthrown]; decide)).mpr
      ⟨1, isLeast_twoAsks, covers_twoAsks rfl⟩

/-! ### The first station -/

/-- One order for an item was known at a station. -/
def oneKnown : HaulState Unit :=
  { HaulState.empty with stations := Function.update (fun _ => none) 1 (some (oneAsk 9)) }

/-- The rowset of the one order has one station. -/
theorem isLeast_oneOrder : IsLeast ((oneOrder 1 34 10).stationIDs : Set UInt64) 1 := by
  simp [oneOrder, Rowset.stationIDs]

/-- The known order outlives a rowset that has another one. -/
theorem not_replaced_oneOrder :
    ∃ s', Step openTables oneKnown (oneOrder 1 34 10) .applied s' ∧
      (s'.held 1 false 34 9).isSome ∧ (oneOrder 1 34 10).last 1 false 9 = none ∧
        ¬ Replaced (oneOrder 1 34 10) oneKnown s' := by
  have happlied : (applyRowset openTables oneKnown (oneOrder 1 34 10)).1 = .applied := by
    rw [applyRowset_fst]
    decide
  have hlast : (oneOrder 1 34 10).last 1 false 9 = none := by
    rw [Rowset.last, lastOf_eq_none_iff]
    decide
  have hheld :
      ((applyRowset openTables oneKnown (oneOrder 1 34 10)).2.held 1 false 34 9).isSome := by
    have happly := @held_applyRowset _ openTables oneKnown (oneOrder 1 34 10) 1 false 9
    have hreached : lastOf (openTables.reached 34 (oneOrder 1 34 10).x) 1 false 9 = none := hlast
    rw [show (oneOrder 1 34 10).typeID = 34 from rfl, hreached,
      if_neg (Rowset.not_mem_cleared isLeast_oneOrder)] at happly
    exact congrArg Option.isSome happly
  refine ⟨_, ⟨none, fun _ => rfl, Prod.ext happlied rfl⟩, hheld, hlast, ?_⟩
  intro hreplaced
  have hkept := hreplaced.held 1 isLeast_oneOrder.1 false 9
  rw [hlast] at hkept
  exact absurd ((congrArg Option.isSome hkept).symm.trans hheld) (by simp)

end Emdr
end EveIndustryPlanner
