import EveIndustryPlanner.Emdr.HaulPrefilter

/-!
# How the solution is read back

The loop that prints the solution looks up the order of every variable of the
program.  There is one variable for each order, but the program was made twice
as wide, so that the second half of its variables has no order to look up.

## Main definitions

* `ReadBack` — every variable has an order that is found.
* `Reached` — a program is built at all.

## Main results

* `exists_priceAt` — the order of a variable is found.
* `printSolution_eq_undefined` — **the loop reads past the end of the map.**
* `readBack_iff` — **when every variable has its order.**
-/

namespace EveIndustryPlanner
namespace Emdr

section Solution

variable {K : Type} [Field K]

/-- Every variable of the program has an order that is found. -/
def ReadBack (sellOrders buyOrders : ItemOrders K) (s : Building K) : Prop :=
  s.program.cols = s.variableMap.length ∧
    ∀ v < s.program.cols, ∃ info price, s.variableMap[v]? = some info ∧
      priceAt sellOrders buyOrders info = .ok price

/-! ### The orders of the variables -/

omit [Field K] in
/-- An order is found by its item and its id. -/
theorem priceAt_of_mem {sellOrders buyOrders : ItemOrders K} {info : VariableInfo}
    {order : HaulOrder K}
    (h : (info.orderID, order) ∈ ordersOf (sideOf sellOrders buyOrders info.type) info.itemID) :
    priceAt sellOrders buyOrders info = .ok order.price := by
  obtain ⟨orders, horders, hentries⟩ := at_of_isSome (isSome_of_ordersOf (List.ne_nil_of_mem h))
  rw [← hentries] at h
  obtain ⟨e, he, heq⟩ := List.mem_map.mp h
  obtain ⟨horderID, rfl⟩ := Prod.mk.inj heq
  have hlookup : orders.lookup info.orderID = some e.2 :=
    AList.mem_lookup_iff.mpr (horderID ▸ he)
  simp only [priceAt, horders, ok_bind, lookupAt, hlookup]
  rfl

/-- The order of a variable is found. -/
theorem exists_priceAt {sellOrders buyOrders : ItemOrders K} {volume : Map UInt64 K}
    {items : List UInt64} {info : VariableInfo}
    (h : info ∈ (columns sellOrders buyOrders volume items).map Column.info) :
    info.itemID ∈ items ∧ ∃ price, priceAt sellOrders buyOrders info = .ok price := by
  obtain ⟨col, hcol, rfl⟩ := List.mem_map.mp h
  obtain ⟨hitem, -, horder⟩ := mem_columns_iff.mp hcol
  exact ⟨List.mem_of_getElem? hitem, _, priceAt_of_mem horder⟩

/-- One round of the loop for a variable with an order. -/
theorem exists_printVariable [LinearOrder K] {sellOrders buyOrders : ItemOrders K}
    {name : Map UInt64 String} {variableMap : List VariableInfo} {v : ℕ} {info : VariableInfo}
    {price : K} (hinfo : variableMap[v]? = some info) (hname : (name info.itemID).isSome)
    (hprice : priceAt sellOrders buyOrders info = .ok price) (solution : ℕ → K) :
    ∃ lines, printVariable sellOrders buyOrders name variableMap solution v = .ok lines := by
  obtain ⟨itemName, hitemName⟩ := Option.isSome_iff_exists.mp hname
  simp only [printVariable, hinfo, deref, ok_bind, lookupAt, hitemName, hprice]
  split
  · exact ⟨_, rfl⟩
  · exact ⟨_, rfl⟩

/-- **The loop reads past the end of the map.** -/
theorem printSolution_eq_undefined [LinearOrder K] {sellOrders buyOrders : ItemOrders K}
    {volume : Map UInt64 K} {name : Map UInt64 String} {items : List UInt64} {s : Building K}
    (hs : buildProgram sellOrders buyOrders volume items = .ok s)
    (hcount : 0 < orderCount sellOrders buyOrders items)
    (hnames : ∀ itemID ∈ items, (name itemID).isSome) (solution : ℕ → K) :
    printSolution sellOrders buyOrders name s solution = .error .undefined := by
  obtain ⟨hlisted, hvolume, hn⟩ := buildProgram_isOk_iff.mp ⟨s, hs⟩
  obtain ⟨s', hs', hassembled⟩ := assembled_of_buildProgram hlisted hvolume hn
  obtain rfl : s = s' := Except.ok.inj (hs.symm.trans hs')
  have hlength : s.variableMap.length = orderCount sellOrders buyOrders items := by
    rw [hassembled.variableMap, List.length_map, length_columns]
  have hcols := hassembled.cols
  generalize orderCount sellOrders buyOrders items = n at hcount hlength hcols
  -- the first variable behind the orders is not in the map
  refine collectM_eq_error.mpr ⟨List.range n, n, (List.range' (n + 1) (n - 1)), ?_, ?_, ?_⟩
  · have happend := @List.range'_append_1 0 n (n - 1 + 1)
    rw [Nat.zero_add, show n + (n - 1 + 1) = 2 * n by omega] at happend
    rw [hcols, List.range_eq_range', List.range_eq_range', ← List.range'_succ, happend]
  · intro v hv
    have hlt : v < s.variableMap.length := hlength ▸ List.mem_range.mp hv
    have hmem : s.variableMap[v] ∈ (columns sellOrders buyOrders volume items).map Column.info :=
      hassembled.variableMap ▸ List.getElem_mem hlt
    obtain ⟨hitem, price, hprice⟩ := exists_priceAt hmem
    exact exists_printVariable (List.getElem?_eq_getElem hlt) (hnames _ hitem) hprice solution
  · rw [printVariable, List.getElem?_eq_none hlength.le]
    rfl

/-! ### When every variable has its order -/

variable [LinearOrder K]

/-- A program is built at all. -/
def Reached (sellOrders buyOrders : ItemOrders K) (volume : Map UInt64 K)
    (items : List UInt64) : Prop :=
  profitable sellOrders buyOrders items = .ok true ∧ Buildable sellOrders buyOrders volume items

/-- The pairs of stations that have a program. -/
theorem exists_built_iff {sellOrders buyOrders : ItemOrders K} {itemsA itemsB : Finset UInt64}
    {volume : Map UInt64 K} {s : Building K} :
    helper sellOrders itemsA buyOrders itemsB volume = .ok (.built s) ↔
      profitable sellOrders buyOrders (intersection itemsA itemsB) = .ok true ∧
        buildProgram sellOrders buyOrders volume (intersection itemsA itemsB) = .ok s := by
  simp only [helper, List.isEmpty_iff]
  by_cases hempty : intersection itemsA itemsB = []
  · simp [hempty, profitable]
  · rw [if_neg hempty]
    constructor
    · intro h
      obtain ⟨found, hfound, h⟩ := bind_eq_ok h
      cases found with
      | false => exact absurd (Except.ok.inj h) (by simp)
      | true =>
        obtain ⟨s', hs', h⟩ := bind_eq_ok h
        obtain rfl := Haul.built.inj (Except.ok.inj h)
        exact ⟨hfound, hs'⟩
    · rintro ⟨hfound, hs⟩
      rw [hfound, ok_bind, if_pos rfl, hs]
      rfl

omit [Field K] in
/-- A pair of stations that is found profitable has an order. -/
theorem orderCount_pos {sellOrders buyOrders : ItemOrders K} {items : List UInt64}
    (h : profitable sellOrders buyOrders items = .ok true) :
    0 < orderCount sellOrders buyOrders items := by
  cases items with
  | nil => exact absurd h (by simp [profitable])
  | cons itemID items =>
    have hsells := List.length_pos_iff.mpr (ordersOf_of_profitable h).1
    rw [orderCount, List.map_cons, List.sum_cons]
    omega

/-- A program is wider than its map of variables. -/
theorem not_readBack {sellOrders buyOrders : ItemOrders K} {volume : Map UInt64 K}
    {items : List UInt64} {s : Building K} (h : Reached sellOrders buyOrders volume items)
    (hs : buildProgram sellOrders buyOrders volume items = .ok s) :
    ¬ ReadBack sellOrders buyOrders s := by
  rintro ⟨hcols, -⟩
  obtain ⟨s', hs', hassembled⟩ := assembled_of_buildProgram h.2.1 h.2.2.1 h.2.2.2
  obtain rfl : s = s' := Except.ok.inj (hs.symm.trans hs')
  rw [hassembled.cols, hassembled.variableMap, List.length_map, length_columns] at hcols
  have hpos := orderCount_pos h.1
  omega

/-- **When every variable has its order**: when there is no program. -/
theorem readBack_iff (sellOrders : ItemOrders K) (itemsA : Finset UInt64)
    (buyOrders : ItemOrders K) (itemsB : Finset UInt64) (volume : Map UInt64 K) :
    (∀ s, helper sellOrders itemsA buyOrders itemsB volume = .ok (.built s) →
        ReadBack sellOrders buyOrders s) ↔
      ¬ Reached sellOrders buyOrders volume (intersection itemsA itemsB) := by
  constructor
  · intro h hreached
    obtain ⟨s, hs⟩ := buildProgram_isOk_iff.mpr hreached.2
    exact not_readBack hreached hs (h s (exists_built_iff.mpr ⟨hreached.1, hs⟩))
  · intro hreached s hs
    obtain ⟨hfound, hs⟩ := exists_built_iff.mp hs
    exact absurd ⟨hfound, buildProgram_isOk_iff.mp ⟨s, hs⟩⟩ hreached

end Solution

/-- One order is bought from and one is sold to, but the program has four variables. -/
theorem not_readBack_oneOffer :
    ¬ ∀ s, helper (oneOffer 2 5) {34} (oneOffer 2 10) {34} (sized 1) = .ok (.built s) →
      ReadBack (oneOffer 2 5) (oneOffer 2 10) s := by
  intro h
  have hfound : profitable (oneOffer 2 5) (oneOffer 2 10) (intersection {34} {34}) = .ok true := by
    rw [intersection_single]
    decide +kernel
  have hbuildable := buildable_oneOffer 2 2 5 10 1
  obtain ⟨s, hs⟩ := buildProgram_isOk_iff.mpr hbuildable
  exact not_readBack ⟨hfound, hbuildable⟩ hs (h s (exists_built_iff.mpr ⟨hfound, hs⟩))

end Emdr
end EveIndustryPlanner
