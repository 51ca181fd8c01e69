import EveIndustryPlanner.Emdr.HaulEncoding

/-!
# Which pairs of stations are left out

Before a program is built the items are scanned for one that is sold for less
than it is bought for.  The comparison that should pick the highest order to buy
picks the lowest one, so that a pair of stations is left out unless some order
to sell is below all orders to buy of its item.

## Main definitions

* `Undercut`, `Fair` — how the prices of an item compare.
* `NeverDiscards` — nothing is earned with a pair that is left out.
* `Detects` — the prices for which the scan is right.

## Main results

* `profitable_eq_false_iff` — what the scan finds.
* `isGreatest_zero_iff` — when nothing is earned at fair prices.
* `neverDiscards_iff` — **when nothing is lost with the pairs that are left out.**
-/

namespace EveIndustryPlanner
namespace Emdr

section Prefilter

variable {K : Type} [LinearOrder K]

/-! ### The scan -/

/-- Some order to sell is below all orders to buy of an item. -/
def Undercut (sellOrders buyOrders : ItemOrders K) (itemID : UInt64) : Prop :=
  ∃ sell ∈ ordersOf sellOrders itemID, ∀ buy ∈ ordersOf buyOrders itemID,
    sell.2.price < buy.2.price

/-- No order to buy is above an order to sell of its item. -/
def Fair (sellOrders buyOrders : ItemOrders K) (items : List UInt64) : Prop :=
  ∀ itemID ∈ items, ∀ sell ∈ ordersOf sellOrders itemID, ∀ buy ∈ ordersOf buyOrders itemID,
    buy.2.price ≤ sell.2.price

omit [LinearOrder K] in
theorem isSome_of_ordersOf {side : ItemOrders K} {itemID : UInt64}
    (h : ordersOf side itemID ≠ []) : (side.lookup itemID).isSome := by
  by_contra hnone
  rw [Option.not_isSome_iff_eq_none] at hnone
  exact h (by rw [ordersOf, hnone]; rfl)

/-- The order to buy that the comparison picks is the lowest one. -/
theorem maxBuy_spec {l : List (UInt64 × HaulOrder K)} {buy : UInt64 × HaulOrder K}
    (h : maxBuy l = some buy) : buy ∈ l ∧ ∀ buy' ∈ l, buy.2.price ≤ buy'.2.price := by
  rw [maxBuy, maxElement_eq_minElement] at h
  exact minElement_spec (fun e : UInt64 × HaulOrder K => e.2.price) h

theorem minSell_spec {l : List (UInt64 × HaulOrder K)} {sell : UInt64 × HaulOrder K}
    (h : minSell l = some sell) : sell ∈ l ∧ ∀ sell' ∈ l, sell.2.price ≤ sell'.2.price :=
  minElement_spec (fun e : UInt64 × HaulOrder K => e.2.price) h

/-- The two orders of an item that are compared. -/
theorem compared_iff {sellOrders buyOrders : ItemOrders K} {itemID : UInt64}
    {sell buy : UInt64 × HaulOrder K} (hsell : minSell (ordersOf sellOrders itemID) = some sell)
    (hbuy : maxBuy (ordersOf buyOrders itemID) = some buy) :
    sell.2.price < buy.2.price ↔ Undercut sellOrders buyOrders itemID := by
  obtain ⟨hsellMem, hsellMin⟩ := minSell_spec hsell
  obtain ⟨hbuyMem, hbuyMin⟩ := maxBuy_spec hbuy
  constructor
  · intro hlt
    exact ⟨sell, hsellMem, fun buy' hbuy' => hlt.trans_le (hbuyMin buy' hbuy')⟩
  · rintro ⟨sell', hsell', hbelow⟩
    exact (hsellMin sell' hsell').trans_lt (hbelow buy hbuyMem)

theorem exists_minSell {l : List (UInt64 × HaulOrder K)} (h : l ≠ []) :
    ∃ sell, minSell l = some sell := Option.isSome_iff_exists.mp (minElement_isSome.mpr h)

theorem exists_maxBuy {l : List (UInt64 × HaulOrder K)} (h : l ≠ []) :
    ∃ buy, maxBuy l = some buy := by
  rw [maxBuy, maxElement_eq_minElement]
  exact Option.isSome_iff_exists.mp (minElement_isSome.mpr h)

/-- One round of the scan. -/
theorem profitable_cons {sellOrders buyOrders : ItemOrders K} {itemID : UInt64}
    (items : List UInt64) (hsells : ordersOf sellOrders itemID ≠ [])
    (hbuys : ordersOf buyOrders itemID ≠ []) [Decidable (Undercut sellOrders buyOrders itemID)] :
    profitable sellOrders buyOrders (itemID :: items) =
      if Undercut sellOrders buyOrders itemID then .ok true
      else profitable sellOrders buyOrders items := by
  obtain ⟨sells, hsellsAt, hsellsEntries⟩ := at_of_isSome (isSome_of_ordersOf hsells)
  obtain ⟨buys, hbuysAt, hbuysEntries⟩ := at_of_isSome (isSome_of_ordersOf hbuys)
  obtain ⟨sell, hsell⟩ := exists_minSell hsells
  obtain ⟨buy, hbuy⟩ := exists_maxBuy hbuys
  simp only [profitable, hsellsAt, hbuysAt, ok_bind, hsellsEntries, hbuysEntries, hsell, hbuy,
    deref, compared_iff hsell hbuy]
  rfl

/-- A round that came to its end found orders on both sides. -/
theorem ordersOf_of_profitable {sellOrders buyOrders : ItemOrders K} {itemID : UInt64}
    {items : List UInt64} {found : Bool}
    (h : profitable sellOrders buyOrders (itemID :: items) = .ok found) :
    ordersOf sellOrders itemID ≠ [] ∧ ordersOf buyOrders itemID ≠ [] := by
  obtain ⟨buys, hbuys, h⟩ := bind_eq_ok h
  obtain ⟨buy, hbuy, h⟩ := bind_eq_ok h
  obtain ⟨sells, hsells, h⟩ := bind_eq_ok h
  obtain ⟨sell, hsell, h⟩ := bind_eq_ok h
  rw [(isSome_of_at hbuys).2] at hbuy
  rw [(isSome_of_at hsells).2] at hsell
  constructor
  · intro hnil
    rw [hnil] at hsell
    exact absurd hsell (by simp [minSell, minElement, deref])
  · intro hnil
    rw [hnil] at hbuy
    exact absurd hbuy (by simp [maxBuy, maxElement, deref])

/-- **What the scan finds.** -/
theorem profitable_eq_false_iff {sellOrders buyOrders : ItemOrders K} {items : List UInt64} :
    profitable sellOrders buyOrders items = .ok false ↔
      ∀ itemID ∈ items, ordersOf sellOrders itemID ≠ [] ∧ ordersOf buyOrders itemID ≠ [] ∧
        ¬ Undercut sellOrders buyOrders itemID := by
  classical
  induction items with
  | nil => simp [profitable]
  | cons itemID items ih =>
    rw [List.forall_mem_cons, ← ih]
    constructor
    · intro h
      obtain ⟨hsells, hbuys⟩ := ordersOf_of_profitable h
      rw [profitable_cons items hsells hbuys] at h
      by_cases hundercut : Undercut sellOrders buyOrders itemID
      · rw [if_pos hundercut] at h
        exact absurd h (by simp)
      · rw [if_neg hundercut] at h
        exact ⟨⟨hsells, hbuys, hundercut⟩, h⟩
    · rintro ⟨⟨hsells, hbuys, hundercut⟩, h⟩
      rw [profitable_cons items hsells hbuys, if_neg hundercut, h]

variable [Field K]

/-- The pairs that are left out. -/
theorem helper_eq_unprofitable_iff {sellOrders buyOrders : ItemOrders K}
    {itemsA itemsB : Finset UInt64} {volume : Map UInt64 K} :
    helper sellOrders itemsA buyOrders itemsB volume = .ok .unprofitable ↔
      intersection itemsA itemsB ≠ [] ∧
        profitable sellOrders buyOrders (intersection itemsA itemsB) = .ok false := by
  simp only [helper, List.isEmpty_iff]
  by_cases hempty : intersection itemsA itemsB = []
  · simp [hempty]
  · rw [if_neg hempty]
    constructor
    · intro h
      obtain ⟨found, hfound, h⟩ := bind_eq_ok h
      cases found with
      | false => exact ⟨hempty, hfound⟩
      | true =>
        obtain ⟨s, -, h⟩ := bind_eq_ok h
        exact absurd (Except.ok.inj h) (by simp)
    · rintro ⟨-, hfound⟩
      rw [hfound]
      rfl

/-! ### What the program would earn -/

/-- No order gives something away and money with it. -/
def NoGift (sellOrders : ItemOrders K) (items : List UInt64) : Prop :=
  ∀ itemID ∈ items, ∀ sell ∈ ordersOf sellOrders itemID, sell.2.quantity ≠ 0 → 0 ≤ sell.2.price

/-- Nothing is earned with a pair of stations that is left out. -/
def NeverDiscards (sellOrders : ItemOrders K) (itemsA : Finset UInt64) (buyOrders : ItemOrders K)
    (itemsB : Finset UInt64) (volume : Map UInt64 K) : Prop :=
  helper sellOrders itemsA buyOrders itemsB volume = .ok .unprofitable →
    Fair sellOrders buyOrders (intersection itemsA itemsB) ∧
      ∀ s, buildProgram sellOrders buyOrders volume (intersection itemsA itemsB) = .ok s →
        IsGreatest (s.program.objective '' {x | s.program.Feasible x}) 0

/-- The scan does not lose anything: it does not leave the pair out, or the prices are fair. -/
def Detects (sellOrders buyOrders : ItemOrders K) (volume : Map UInt64 K)
    (items : List UInt64) : Prop :=
  (∃ itemID ∈ items, ordersOf sellOrders itemID = [] ∨ ordersOf buyOrders itemID = [] ∨
      Undercut sellOrders buyOrders itemID) ∨
    (Fair sellOrders buyOrders items ∧
      (Buildable sellOrders buyOrders volume items → NoGift sellOrders items))

/-- Amounts for all variables, of which only the first ones are for orders. -/
def extend {n : ℕ} (x : Fin n → K) (v : ℕ) : K := if h : v < n then x ⟨v, h⟩ else 0

omit [LinearOrder K] in
theorem extend_val {n : ℕ} (x : Fin n → K) : (fun j : Fin n => extend x j) = x := by
  funext j
  rw [extend, dif_pos j.isLt]

omit [LinearOrder K] in
theorem sold_eq_false_iff {cols : List (Column K)} (j : Fin cols.length) :
    (tradeOf cols).sold j = false ↔ (cols.get j).info.type = .BUY := by
  rw [tradeOf, decide_eq_false_iff_not]
  cases (cols.get j).info.type <;> decide

omit [LinearOrder K] in
theorem sold_eq_true_iff {cols : List (Column K)} (j : Fin cols.length) :
    (tradeOf cols).sold j = true ↔ (cols.get j).info.type = .SELL := by
  rw [tradeOf, decide_eq_true_eq]

/-- The prices of the columns are the prices of the orders. -/
theorem prices_haulTrade {sellOrders buyOrders : ItemOrders K} (volume : Map UInt64 K)
    {items : List UInt64} (hfair : Fair sellOrders buyOrders items) :
    ∀ j j', (haulTrade sellOrders buyOrders volume items).sold j = false →
      (haulTrade sellOrders buyOrders volume items).sold j' = true →
      (haulTrade sellOrders buyOrders volume items).item j =
        (haulTrade sellOrders buyOrders volume items).item j' →
      (haulTrade sellOrders buyOrders volume items).price j' ≤
        (haulTrade sellOrders buyOrders volume items).price j := by
  intro j j' hbought hsold hitem
  have hbought := (sold_eq_false_iff j).mp hbought
  have hsold := (sold_eq_true_iff j').mp hsold
  have hitem : ((columns sellOrders buyOrders volume items).get j).info.itemID =
      ((columns sellOrders buyOrders volume items).get j').info.itemID := hitem
  obtain ⟨hat, -, hsell⟩ := mem_columns_iff.mp (List.get_mem _ j)
  obtain ⟨-, -, hbuy⟩ := mem_columns_iff.mp (List.get_mem _ j')
  rw [hbought] at hsell
  rw [hsold, ← hitem] at hbuy
  exact hfair _ (List.mem_of_getElem? hat) _ hsell _ hbuy

variable [IsStrictOrderedRing K]

theorem quantity_nonneg (sellOrders buyOrders : ItemOrders K) (volume : Map UInt64 K)
    (items : List UInt64) (j : Fin (columns sellOrders buyOrders volume items).length) :
    0 ≤ (haulTrade sellOrders buyOrders volume items).quantity j := Nat.cast_nonneg _

/-- The amount of a column is that of its order. -/
theorem bound_pos_iff (col : Column K) : 0 < col.bound ↔ col.order.quantity ≠ 0 := by
  rw [Column.bound, Nat.cast_pos]
  constructor
  · intro hpos hzero
    rw [hzero] at hpos
    exact absurd hpos (by simp [nearestDouble_zero])
  · intro hquantity
    refine nearestDouble_pos (Nat.pos_of_ne_zero fun hzero => hquantity ?_)
    exact UInt64.toNat_inj.mp hzero

omit [LinearOrder K] [IsStrictOrderedRing K] in
/-- An order for an item has a column. -/
theorem exists_column (sellOrders buyOrders : ItemOrders K) (volume : Map UInt64 K)
    {items : List UInt64} {itemID : UInt64} (hitem : itemID ∈ items) (type : OrderType)
    {e : UInt64 × HaulOrder K} (he : e ∈ ordersOf (sideOf sellOrders buyOrders type) itemID) :
    ∃ j, ((columns sellOrders buyOrders volume items).get j).info.type = type ∧
      ((columns sellOrders buyOrders volume items).get j).order = e.2 := by
  obtain ⟨k, hk, rfl⟩ := List.getElem_of_mem hitem
  have hmem : (⟨⟨items[k], e.1, type⟩, e.2, (volume items[k]).getD 0, k⟩ : Column K) ∈
      columns sellOrders buyOrders volume items :=
    mem_columns_iff.mpr ⟨List.getElem?_eq_getElem hk, rfl, he⟩
  obtain ⟨j, hj⟩ := List.get_of_mem hmem
  exact ⟨j, by rw [hj], by rw [hj]⟩

/-- An order that pays for its units can be traded with a gain. -/
theorem exists_gain_haulTrade {sellOrders buyOrders : ItemOrders K} (volume : Map UInt64 K)
    {items : List UInt64} {itemID : UInt64} (hitem : itemID ∈ items)
    {sell : UInt64 × HaulOrder K} (hsell : sell ∈ ordersOf sellOrders itemID)
    (hpos : sell.2.quantity ≠ 0) (hprice : sell.2.price < 0) :
    ∃ x, (haulTrade sellOrders buyOrders volume items).Feasible 3900 75000000 x ∧
      0 < (haulTrade sellOrders buyOrders volume items).gain x := by
  obtain ⟨j, htype, horder⟩ := exists_column sellOrders buyOrders volume hitem .BUY hsell
  have hbought : (haulTrade sellOrders buyOrders volume items).sold j = false :=
    (sold_eq_false_iff j).mpr htype
  have hamount : 0 < (haulTrade sellOrders buyOrders volume items).quantity j :=
    (bound_pos_iff _).mpr (by rwa [horder])
  have hnegative : (haulTrade sellOrders buyOrders volume items).price j < 0 := by
    simpa only [haulTrade, tradeOf, horder] using hprice
  exact Trade.exists_gain (by norm_num) (by norm_num)
    (quantity_nonneg sellOrders buyOrders volume items) hbought hamount hnegative

/-- Where nothing is given away, fair prices leave no gain. -/
theorem gain_nonpos_haulTrade {sellOrders buyOrders : ItemOrders K} (volume : Map UInt64 K)
    {items : List UInt64} (hfair : Fair sellOrders buyOrders items)
    (hgift : NoGift sellOrders items)
    {x : Fin (columns sellOrders buyOrders volume items).length → K}
    (hx : (haulTrade sellOrders buyOrders volume items).Feasible 3900 75000000 x) :
    (haulTrade sellOrders buyOrders volume items).gain x ≤ 0 := by
  refine Trade.gain_nonpos (prices_haulTrade volume hfair) ?_ hx
  intro j hbought hpos
  obtain ⟨hat, -, hsell⟩ := mem_columns_iff.mp
    (List.get_mem (columns sellOrders buyOrders volume items) j)
  rw [(sold_eq_false_iff j).mp hbought] at hsell
  exact hgift _ (List.mem_of_getElem? hat) _ hsell ((bound_pos_iff _).mp hpos)

/-- **At fair prices nothing is earned unless something is given away.** -/
theorem isGreatest_zero_iff {sellOrders buyOrders : ItemOrders K} {itemsA itemsB : Finset UInt64}
    {volume : Map UInt64 K}
    (h : Buildable sellOrders buyOrders volume (intersection itemsA itemsB))
    (hfair : Fair sellOrders buyOrders (intersection itemsA itemsB)) :
    (∀ s, buildProgram sellOrders buyOrders volume (intersection itemsA itemsB) = .ok s →
      IsGreatest (s.program.objective '' {x | s.program.Feasible x}) 0) ↔
      NoGift sellOrders (intersection itemsA itemsB) := by
  obtain ⟨s, hs, hassembled⟩ := assembled_of_buildProgram h.1 h.2.1 h.2.2
  rw [← length_columns sellOrders buyOrders volume] at hassembled
  have hplaced := placed_columns sellOrders buyOrders volume itemsA itemsB
  have hfeasible := hassembled.feasible_iff hplaced
  have hobjective := hassembled.objective_eq
  have hquantity := quantity_nonneg sellOrders buyOrders volume (intersection itemsA itemsB)
  constructor
  · intro hgreatest itemID hitem sell hsell hpos
    by_contra hprice
    obtain ⟨x, hx, hgain⟩ := exists_gain_haulTrade volume hitem hsell hpos (not_le.mp hprice)
    have hle := (hgreatest s hs).2 ⟨extend x, ?_, rfl⟩
    · rw [hobjective, extend_val] at hle
      exact absurd hgain (not_lt.mpr hle)
    · apply (hfeasible _).mpr
      rw [extend_val]
      exact hx
  · intro hgift s' hs'
    obtain rfl : s = s' := Except.ok.inj (hs.symm.trans hs')
    constructor
    · refine ⟨0, ?_, ?_⟩
      · exact (hfeasible 0).mpr (Trade.feasible_zero hquantity (by norm_num) (by norm_num))
      · rw [hobjective]
        exact Trade.gain_zero
    · rintro value ⟨x, hx, rfl⟩
      rw [hobjective]
      exact gain_nonpos_haulTrade volume hfair hgift ((hfeasible x).mp hx)

/-- **When nothing is lost with the pairs of stations that are left out.** -/
theorem neverDiscards_iff (sellOrders : ItemOrders K) (itemsA : Finset UInt64)
    (buyOrders : ItemOrders K) (itemsB : Finset UInt64) (volume : Map UInt64 K) :
    NeverDiscards sellOrders itemsA buyOrders itemsB volume ↔
      Detects sellOrders buyOrders volume (intersection itemsA itemsB) := by
  rw [NeverDiscards, helper_eq_unprofitable_iff, profitable_eq_false_iff, Detects]
  constructor
  · intro h
    by_cases hscan : ∀ itemID ∈ intersection itemsA itemsB, ordersOf sellOrders itemID ≠ [] ∧
        ordersOf buyOrders itemID ≠ [] ∧ ¬ Undercut sellOrders buyOrders itemID
    · apply Or.inr
      by_cases hempty : intersection itemsA itemsB = []
      · simp [hempty, Fair, NoGift]
      · obtain ⟨hfair, hgreatest⟩ := h ⟨hempty, hscan⟩
        exact ⟨hfair, fun hbuildable => (isGreatest_zero_iff hbuildable hfair).mp hgreatest⟩
    · left
      push Not at hscan
      obtain ⟨itemID, hitem, hscan⟩ := hscan
      refine ⟨itemID, hitem, ?_⟩
      by_contra hno
      simp only [not_or] at hno
      exact hno.2.2 (hscan hno.1 hno.2.1)
  · rintro (⟨itemID, hitem, hfound⟩ | ⟨hfair, hgift⟩) ⟨-, hscan⟩
    · obtain ⟨hsells, hbuys, hundercut⟩ := hscan itemID hitem
      rcases hfound with hfound | hfound | hfound
      · exact absurd hfound hsells
      · exact absurd hfound hbuys
      · exact absurd hfound hundercut
    · refine ⟨hfair, fun s hs => ?_⟩
      have hbuildable := buildProgram_isOk_iff.mp ⟨s, hs⟩
      exact (isGreatest_zero_iff hbuildable hfair).mpr (hgift hbuildable) s hs

end Prefilter

/-- Two units are sold for less than they are bought for. -/
theorem neverDiscards_iff_oneOffer :
    NeverDiscards (oneOffer 2 5) {34} (oneOffer 2 10) {34} (sized 1) ↔
      Detects (oneOffer 2 5) (oneOffer 2 10) (sized 1) (intersection {34} {34}) :=
  neverDiscards_iff (oneOffer 2 5) {34} (oneOffer 2 10) {34} (sized 1)

/-- Orders to buy for two prices. -/
def twoBids : ItemOrders ℚ :=
  oneItem ((AList.singleton 2 ⟨2, 15⟩).insert 1 ⟨2, 5⟩)

/-- What is sold for 10 and bought for 5 by one and for 15 by another one is left out. -/
theorem not_neverDiscards : ¬ NeverDiscards (oneOffer 2 10) {34} twoBids {34} (sized 1) := by
  intro h
  rw [NeverDiscards, intersection_single] at h
  have hleft : helper (oneOffer 2 10) {34} twoBids {34} (sized 1) = .ok .unprofitable := by
    rw [helper_eq_unprofitable_iff, intersection_single]
    exact ⟨List.cons_ne_nil _ _, by decide +kernel⟩
  have hfair := (h hleft).1 34 (List.mem_singleton.mpr rfl) (1, ⟨2, 10⟩)
    (List.mem_singleton.mpr rfl) (2, ⟨2, 15⟩)
    (List.Mem.tail _ (List.Mem.head _))
  exact absurd hfair (by norm_num)

end Emdr
end EveIndustryPlanner
