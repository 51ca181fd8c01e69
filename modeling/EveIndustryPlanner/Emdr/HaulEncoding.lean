import EveIndustryPlanner.Emdr.HaulAssembly
import EveIndustryPlanner.Lib.Trade

/-!
# What the haul program says

Row by row the program says what can be traded between the stations: what an
order wants, that no more of an item is sold than was bought, what the ship can
carry and what the pilot can spend.  An amount an order wants is stored as a
double, which has no room for all 64-bit numbers.

## Main definitions

* `haulTrade` — the trade between the two stations.

## Main results

* `Assembled.feasible_iff`, `Assembled.objective_eq` — the rows one by one.
* `encodes_haul` — **the program says what can be traded and what it earns.**
-/

namespace EveIndustryPlanner
namespace Emdr

section Encoding

variable {K : Type} [Field K]

/-! ### What the rows say -/

/-- The columns are the orders of both sides for the items. -/
theorem mem_columns_iff {sellOrders buyOrders : ItemOrders K} {volume : Map UInt64 K}
    {items : List UInt64} {col : Column K} :
    col ∈ columns sellOrders buyOrders volume items ↔
      items[col.position]? = some col.info.itemID ∧
        col.vol = (volume col.info.itemID).getD 0 ∧
          (col.info.orderID, col.order) ∈
            ordersOf (sideOf sellOrders buyOrders col.info.type) col.info.itemID := by
  obtain ⟨⟨itemID, orderID, type⟩, order, vol, position⟩ := col
  rw [columns, columnsFrom, List.mem_flatMap]
  constructor
  · rintro ⟨⟨itemID', position'⟩, he, hcol⟩
    have hitem := List.mem_zipIdx_iff_getElem?.mp he
    rcases List.mem_append.mp hcol with hcol | hcol
    all_goals
      obtain ⟨e, hmem, heq⟩ := List.mem_map.mp hcol
      simp only [Column.mk.injEq, VariableInfo.mk.injEq] at heq
      obtain ⟨⟨rfl, rfl, rfl⟩, rfl, rfl, rfl⟩ := heq
      exact ⟨hitem, rfl, hmem⟩
  · rintro ⟨hitem, hvol, horder⟩
    dsimp only at hitem hvol horder
    subst hvol
    refine ⟨(itemID, position), List.mem_zipIdx_iff_getElem?.mpr hitem, ?_⟩
    cases type
    · exact List.mem_append_left _ (List.mem_map.mpr ⟨(orderID, order), horder, rfl⟩)
    · exact List.mem_append_right _ (List.mem_map.mpr ⟨(orderID, order), horder, rfl⟩)

section Entries

variable {n m v j position : ℕ} {col : Column K}

theorem entry_upper (hv : v < n) :
    col.entry n m j (2 * v) = if v = j then 1 else 0 := by
  cases htype : col.info.type <;> simp only [Column.entry, htype] <;> split_ifs <;>
    first | rfl | omega

theorem entry_lower (hv : v < n) :
    col.entry n m j (2 * v + 1) = if v = j then -1 else 0 := by
  cases htype : col.info.type <;> simp only [Column.entry, htype] <;> split_ifs <;>
    first | rfl | omega

theorem entry_item (hj : j < n) (hposition : position < m) :
    col.entry n m j (2 * n + position) =
      if col.position = position then (if col.info.type = .SELL then 1 else -1) else 0 := by
  cases htype : col.info.type <;> simp only [Column.entry, htype] <;> split_ifs <;>
    first | rfl | omega | simp_all

theorem entry_capacity (hj : j < n) (hcol : col.position < m) :
    col.entry n m j (2 * n + m) = if col.info.type = .SELL then 0 else col.vol := by
  cases htype : col.info.type <;> simp only [Column.entry, htype] <;> split_ifs <;>
    first | rfl | omega | simp_all

theorem entry_wealth (hj : j < n) (hcol : col.position < m) :
    col.entry n m j (2 * n + m + 1) = if col.info.type = .SELL then 0 else col.order.price := by
  cases htype : col.info.type <;> simp only [Column.entry, htype] <;> split_ifs <;>
    first | rfl | omega | simp_all

end Entries

/-! ### The trade -/

/-- The trade between the orders of some columns. -/
def tradeOf (cols : List (Column K)) : Trade (Fin cols.length) UInt64 K where
  item j := (cols.get j).info.itemID
  sold j := (cols.get j).info.type = .SELL
  quantity j := (cols.get j).bound
  price j := (cols.get j).order.price
  volume j := (cols.get j).vol

/-- The trade between the two stations; an amount is the double nearest to it. -/
def haulTrade (sellOrders buyOrders : ItemOrders K) (volume : Map UInt64 K)
    (items : List UInt64) :
    Trade (Fin (columns sellOrders buyOrders volume items).length) UInt64 K :=
  tradeOf (columns sellOrders buyOrders volume items)

/-- The columns have the items at their positions, and those are distinct. -/
structure Placed (items : List UInt64) (cols : List (Column K)) : Prop where
  nodup : items.Nodup
  item : ∀ col ∈ cols, items[col.position]? = some col.info.itemID

variable {items : List UInt64} {cols : List (Column K)} {position : ℕ} {s : Building K}

/-- The columns of the items of both stations. -/
theorem placed_columns (sellOrders buyOrders : ItemOrders K) (volume : Map UInt64 K)
    (itemsA itemsB : Finset UInt64) :
    Placed (intersection itemsA itemsB)
      (columns sellOrders buyOrders volume (intersection itemsA itemsB)) :=
  ⟨Finset.sort_nodup _ _, fun _ hcol => (mem_columns_iff.mp hcol).1⟩

/-- A row has one constraint. -/
theorem RowOf.unique {n row : ℕ} {items : List UInt64} {e e' : Constraint}
    (h : RowOf n items e row) (h' : RowOf n items e' row) : e = e' := by
  cases e <;> cases e' <;> simp only [RowOf] at h h' <;>
    grind [List.getElem?_eq_some_iff]

/-- The rows of a program of `n` orders for `m` items. -/
theorem row_cases {n m row : ℕ} (h : row < 2 * n + m + 2) :
    (∃ j : Fin n, row = 2 * j) ∨ (∃ j : Fin n, row = 2 * j + 1) ∨
      (∃ k < m, row = 2 * n + k) ∨ row = 2 * n + m ∨ row = 2 * n + m + 1 := by
  by_cases hbounds : row < 2 * n
  · have hj : row / 2 < n := by omega
    rcases Nat.mod_two_eq_zero_or_one row with heven | hodd
    · exact Or.inl ⟨⟨row / 2, hj⟩, by simp only; omega⟩
    · exact Or.inr (Or.inl ⟨⟨row / 2, hj⟩, by simp only; omega⟩)
  · by_cases hitem : row < 2 * n + m
    · exact Or.inr (Or.inr (Or.inl ⟨row - 2 * n, by omega, by omega⟩))
    · omega

namespace Placed

omit [Field K] in
theorem position_lt (h : Placed items cols) (j : Fin cols.length) :
    (cols.get j).position < items.length :=
  (List.getElem?_eq_some_iff.mp (h.item _ (List.get_mem cols j))).1

omit [Field K] in
/-- A column is at the position of its item. -/
theorem position_eq_iff (h : Placed items cols) (j : Fin cols.length) {k : ℕ}
    (hk : k < items.length) : (cols.get j).position = k ↔ (cols.get j).info.itemID = items[k] := by
  have hitem := h.item _ (List.get_mem cols j)
  obtain ⟨hlt, hitem⟩ := List.getElem?_eq_some_iff.mp hitem
  rw [← hitem]
  exact (h.nodup.getElem_inj_iff).symm

end Placed

namespace Assembled

/-- A row of the program, as a sum over the columns. -/
theorem activity_eq (h : Assembled cols.length items cols position s) (x : ℕ → K) (row : ℕ) :
    s.program.activity x row =
      ∑ j : Fin cols.length, (cols.get j).entry cols.length items.length j row * x j := by
  rw [DenseProgram.activity, h.cols,
    DenseProgram.sum_cols_eq (f := fun v => s.program.A row v * x v) (n := cols.length) (by omega)]
  · refine Finset.sum_congr rfl fun j _ => ?_
    rw [h.A, List.getElem?_eq_getElem j.isLt]
    rfl
  · intro v hv
    rw [h.A, List.getElem?_eq_none hv]
    exact zero_mul _

/-- The objective is what is earned. -/
theorem objective_eq (h : Assembled cols.length items cols position s) (x : ℕ → K) :
    s.program.objective x = (tradeOf cols).gain fun j => x j := by
  rw [DenseProgram.objective, h.cols,
    DenseProgram.sum_cols_eq (f := fun v => s.program.c v * x v) (n := cols.length) (by omega)]
  · rw [Trade.gain, Trade.total, Trade.total, ← Finset.sum_sub_distrib]
    refine Finset.sum_congr rfl fun j _ => ?_
    rw [h.c, List.getElem?_eq_getElem j.isLt]
    cases htype : (cols.get j).info.type <;>
      simp_all [tradeOf, Column.worth]
  · intro v hv
    rw [h.c, List.getElem?_eq_none hv]
    exact zero_mul _

theorem activity_upper (h : Assembled cols.length items cols position s) (x : ℕ → K)
    (j : Fin cols.length) : s.program.activity x (2 * j) = x j := by
  rw [h.activity_eq]
  simp only [entry_upper j.isLt, Fin.val_inj, ite_mul, one_mul, zero_mul]
  rw [Finset.sum_ite_eq, if_pos (Finset.mem_univ j)]

theorem activity_lower (h : Assembled cols.length items cols position s) (x : ℕ → K)
    (j : Fin cols.length) : s.program.activity x (2 * j + 1) = -x j := by
  rw [h.activity_eq]
  simp only [entry_lower j.isLt, Fin.val_inj, ite_mul, neg_one_mul, zero_mul]
  rw [Finset.sum_ite_eq, if_pos (Finset.mem_univ j)]

theorem activity_item (h : Assembled cols.length items cols position s)
    (hplaced : Placed items cols) (x : ℕ → K) {k : ℕ} (hk : k < items.length) :
    s.program.activity x (2 * cols.length + k) =
      (tradeOf cols).amount true (fun j => x j) items[k] -
        (tradeOf cols).amount false (fun j => x j) items[k] := by
  rw [h.activity_eq, Trade.amount, Trade.amount, ← Finset.sum_sub_distrib]
  refine Finset.sum_congr rfl fun j _ => ?_
  rw [entry_item j.isLt hk]
  simp only [hplaced.position_eq_iff j hk]
  by_cases hitem : (cols.get j).info.itemID = items[k]
  · cases htype : (cols.get j).info.type <;> simp_all [tradeOf]
  · simp_all [tradeOf]

theorem activity_capacity (h : Assembled cols.length items cols position s)
    (hplaced : Placed items cols) (x : ℕ → K) :
    s.program.activity x (2 * cols.length + items.length) =
      (tradeOf cols).total false (tradeOf cols).volume fun j => x j := by
  rw [h.activity_eq, Trade.total]
  refine Finset.sum_congr rfl fun j _ => ?_
  rw [entry_capacity j.isLt (hplaced.position_lt j)]
  cases htype : (cols.get j).info.type <;> simp_all [tradeOf]

theorem activity_wealth (h : Assembled cols.length items cols position s)
    (hplaced : Placed items cols) (x : ℕ → K) :
    s.program.activity x (2 * cols.length + items.length + 1) =
      (tradeOf cols).total false (tradeOf cols).price fun j => x j := by
  rw [h.activity_eq, Trade.total]
  refine Finset.sum_congr rfl fun j _ => ?_
  rw [entry_wealth j.isLt (hplaced.position_lt j)]
  cases htype : (cols.get j).info.type <;> simp_all [tradeOf]

/-! ### The right sides -/

theorem b_upper (h : Assembled cols.length items cols position s) (j : Fin cols.length) :
    s.program.b (2 * j) = (tradeOf cols).quantity j := by
  have hj := j.isLt
  rw [h.b, rightSide, if_neg (by omega), if_neg (by omega), if_pos (by omega),
    Nat.mul_div_cancel_left _ Nat.two_pos, List.getElem?_eq_getElem hj]
  rfl

theorem b_lower (h : Assembled cols.length items cols position s) (j : Fin cols.length) :
    s.program.b (2 * j + 1) = 0 := by
  have hj := j.isLt
  rw [h.b, rightSide, if_neg (by omega), if_neg (by omega), if_neg (by omega)]

theorem b_item (h : Assembled cols.length items cols position s) {k : ℕ}
    (hk : k < items.length) : s.program.b (2 * cols.length + k) = 0 := by
  rw [h.b, rightSide, if_neg (by omega), if_neg (by omega)]
  split
  · rw [List.getElem?_eq_none (by omega)]
    rfl
  · rfl

theorem b_capacity (h : Assembled cols.length items cols position s) :
    s.program.b (2 * cols.length + items.length) = 3900 := by
  rw [h.b, rightSide, if_neg (by omega), if_pos rfl, Nat.cast_ofNat]

theorem b_wealth (h : Assembled cols.length items cols position s) :
    s.program.b (2 * cols.length + items.length + 1) = 75000000 := by
  rw [h.b, rightSide, if_pos rfl, Nat.cast_ofNat]

variable [LinearOrder K] [IsStrictOrderedRing K]

/-- The rows say what can be traded. -/
theorem feasible_iff (h : Assembled cols.length items cols position s)
    (hplaced : Placed items cols) (x : ℕ → K) :
    s.program.Feasible x ↔ (tradeOf cols).Feasible 3900 75000000 fun j => x j := by
  have hrows := h.rows
  constructor
  · intro hx
    refine ⟨fun j => ⟨?_, ?_⟩, fun i => ?_, ?_, ?_⟩
    · have hrow := hx (2 * j + 1) (by omega)
      rwa [h.activity_lower, h.b_lower, neg_nonpos] at hrow
    · have hrow := hx (2 * j) (by omega)
      rwa [h.activity_upper, h.b_upper] at hrow
    · by_cases hi : i ∈ items
      · obtain ⟨k, hk, rfl⟩ := List.getElem_of_mem hi
        have hrow := hx (2 * cols.length + k) (by omega)
        rwa [h.activity_item hplaced x hk, h.b_item hk, sub_nonpos] at hrow
      · -- no order is for such an item
        have hno : ∀ sold, (tradeOf cols).amount sold (fun j => x j) i = 0 := by
          intro sold
          refine Finset.sum_eq_zero fun j _ => if_neg fun hj => hi ?_
          rw [← hj.2]
          exact List.mem_of_getElem? (hplaced.item _ (List.get_mem cols j))
        rw [hno, hno]
    · have hrow := hx (2 * cols.length + items.length) (by omega)
      rwa [h.activity_capacity hplaced, h.b_capacity] at hrow
    · have hrow := hx (2 * cols.length + items.length + 1) (by omega)
      rwa [h.activity_wealth hplaced, h.b_wealth] at hrow
  · intro hx row hrow
    rw [hrows] at hrow
    rcases row_cases hrow with ⟨j, rfl⟩ | ⟨j, rfl⟩ | ⟨k, hk, rfl⟩ | rfl | rfl
    · rw [h.activity_upper, h.b_upper]
      exact (hx.bounds j).2
    · rw [h.activity_lower, h.b_lower, neg_nonpos]
      exact (hx.bounds j).1
    · rw [h.activity_item hplaced x hk, h.b_item hk, sub_nonpos]
      exact hx.stock _
    · rw [h.activity_capacity hplaced, h.b_capacity]
      exact hx.capacity
    · rw [h.activity_wealth hplaced, h.b_wealth]
      exact hx.wealth

omit [LinearOrder K] [IsStrictOrderedRing K] in
/-- No row was used for two constraints. -/
theorem apart (h : Assembled cols.length items cols position s) : s.program.Apart := by
  intro e he e' he' hrow
  have hused := h.used e he
  have hused' := h.used e' he'
  rw [← hrow] at hused'
  exact RowOf.unique hused hused'

end Assembled

/-- **The program says what can be traded and what it earns.** -/
theorem encodes_haul [LinearOrder K] [IsStrictOrderedRing K] {sellOrders buyOrders : ItemOrders K}
    {itemsA itemsB : Finset UInt64} {volume : Map UInt64 K}
    (h : Buildable sellOrders buyOrders volume (intersection itemsA itemsB)) :
    ∃ s, buildProgram sellOrders buyOrders volume (intersection itemsA itemsB) = .ok s ∧
      s.program.Apart ∧
      (∀ x, s.program.Feasible x ↔
        (haulTrade sellOrders buyOrders volume (intersection itemsA itemsB)).Feasible
          3900 75000000 fun j => x j) ∧
      ∀ x, s.program.objective x =
        (haulTrade sellOrders buyOrders volume (intersection itemsA itemsB)).gain fun j => x j := by
  obtain ⟨s, hs, hassembled⟩ := assembled_of_buildProgram h.1 h.2.1 h.2.2
  rw [← length_columns sellOrders buyOrders volume] at hassembled
  have hplaced := placed_columns sellOrders buyOrders volume itemsA itemsB
  exact ⟨s, hs, hassembled.apart, hassembled.feasible_iff hplaced, hassembled.objective_eq⟩

/-! ### What a double has no room for -/

/-- The trade with the amounts the orders want. -/
def exactTrade (sellOrders buyOrders : ItemOrders K) (volume : Map UInt64 K)
    (items : List UInt64) :
    Trade (Fin (columns sellOrders buyOrders volume items).length) UInt64 K :=
  { haulTrade sellOrders buyOrders volume items with
    quantity := fun j =>
      (((columns sellOrders buyOrders volume items).get j).order.quantity.toNat : K) }

/-- Up to `2 ^ 53` units there is room. -/
theorem haulTrade_eq_exactTrade {sellOrders buyOrders : ItemOrders K} {volume : Map UInt64 K}
    {items : List UInt64} (h : ∀ col ∈ columns sellOrders buyOrders volume items,
      col.order.quantity.toNat ≤ 2 ^ 53) :
    haulTrade sellOrders buyOrders volume items = exactTrade sellOrders buyOrders volume items := by
  have hquantity : (haulTrade sellOrders buyOrders volume items).quantity =
      (exactTrade sellOrders buyOrders volume items).quantity := by
    funext j
    exact congrArg Nat.cast (nearestDouble_of_le (h _ (List.get_mem _ j)))
  exact congrArg (fun quantity => { haulTrade sellOrders buyOrders volume items with quantity })
    hquantity

end Encoding

/-- Orders for one item. -/
def oneItem (orders : AList fun _ : UInt64 => HaulOrder ℚ) : ItemOrders ℚ :=
  AList.singleton 34 orders

theorem lookup_oneItem (orders : AList fun _ : UInt64 => HaulOrder ℚ) :
    (oneItem orders).lookup 34 = some orders := rfl

/-- One order. -/
def oneOffer (quantity : UInt64) (price : ℚ) : ItemOrders ℚ :=
  oneItem (AList.singleton 1 ⟨quantity, price⟩)

/-- An item that takes up a volume. -/
def sized (vol : ℚ) : Map UInt64 ℚ := Function.update (fun _ => none) 34 (some vol)

theorem sized_isSome (vol : ℚ) : ∀ itemID ∈ [34], (sized vol itemID).isSome := by
  intro itemID hitem
  obtain rfl := List.mem_singleton.mp hitem
  rfl

theorem intersection_single : intersection {34} {34} = [34] := by
  rw [intersection, sortIDs, Finset.inter_self, Finset.sort_singleton]

theorem buildable_oneOffer (quantity quantity' : UInt64) (price price' vol : ℚ) :
    Buildable (oneOffer quantity price) (oneOffer quantity' price') (sized vol)
      (intersection {34} {34}) := by
  rw [intersection_single]
  refine ⟨?_, sized_isSome vol, (by decide : 2 < 2 ^ 31)⟩
  intro itemID hitem
  obtain rfl := List.mem_singleton.mp hitem
  exact ⟨rfl, rfl⟩

/-- Two units are bought for five each and sold for ten. -/
theorem encodes_haul_oneOffer :
    ∃ s, buildProgram (oneOffer 2 5) (oneOffer 2 10) (sized 1) (intersection {34} {34}) = .ok s ∧
      s.program.Apart ∧
      (∀ x, s.program.Feasible x ↔
        (haulTrade (oneOffer 2 5) (oneOffer 2 10) (sized 1) (intersection {34} {34})).Feasible
          3900 75000000 fun j => x j) ∧
      ∀ x, s.program.objective x =
        (haulTrade (oneOffer 2 5) (oneOffer 2 10) (sized 1) (intersection {34} {34})).gain
          fun j => x j :=
  encodes_haul (buildable_oneOffer 2 2 5 10 1)

/-- Different orders, as many as there are ids. -/
def manyOffers (n : ℕ) (h : n ≤ 2 ^ 64) : AList fun _ : UInt64 => HaulOrder ℚ where
  entries := (List.range n).map fun i => ⟨UInt64.ofNat i, ⟨1, 0⟩⟩
  nodupKeys := by
    rw [List.NodupKeys, List.keys, List.map_map]
    refine List.Nodup.map_on ?_ List.nodup_range
    intro i hi j hj hij
    have hlt := List.mem_range.mp hi
    have hlt' := List.mem_range.mp hj
    have hmod : i % 2 ^ 64 = j % 2 ^ 64 := by simpa using congrArg UInt64.toNat hij
    rwa [Nat.mod_eq_of_lt (by omega), Nat.mod_eq_of_lt (by omega)] at hmod

theorem length_manyOffers (n : ℕ) (h : n ≤ 2 ^ 64) : (entries (manyOffers n h)).length = n := by
  simp [entries, manyOffers]

/-- Too many orders for the counter of the variables. -/
theorem buildProgram_manyOffers {n : ℕ} (h : n ≤ 2 ^ 64) (hn : 2 ^ 31 ≤ n) :
    buildProgram (oneItem (manyOffers n h)) (oneOffer 1 1) (sized 0) [34] = .error .undefined := by
  have hlisted : Listed (oneItem (manyOffers n h)) (oneOffer 1 1) [34] := by
    intro itemID hitem
    obtain rfl := List.mem_singleton.mp hitem
    exact ⟨rfl, rfl⟩
  have hvolume := sized_isSome 0
  have hcount : n ≤ orderCount (oneItem (manyOffers n h)) (oneOffer 1 1) [34] := by
    simp only [orderCount, ordersOf, lookup_oneItem, List.map_cons, List.map_nil, List.sum_cons,
      List.sum_nil, Option.map_some, Option.getD_some, length_manyOffers]
    omega
  cases hbuild : buildProgram (oneItem (manyOffers n h)) (oneOffer 1 1) (sized 0) [34] with
  | error e => rw [undefined_of_buildProgram hlisted hvolume hbuild]
  | ok s =>
    have hlt := (buildProgram_isOk_iff.mp ⟨s, hbuild⟩).2.2
    exact absurd (hcount.trans_lt hlt) (not_lt.mpr hn)

/-- An order for `2 ^ 53 + 1` units is entered as one for `2 ^ 53`, and `2 ^ 31`
orders are too many for the counter of the variables. -/
theorem not_exact :
    (∃ s, buildProgram (oneOffer (2 ^ 53 + 1) 0) (oneOffer 1 1) (sized 0)
        (intersection {34} {34}) = .ok s ∧
      ∃ x : ℕ → ℚ, (exactTrade (oneOffer (2 ^ 53 + 1) 0) (oneOffer 1 1) (sized 0)
        (intersection {34} {34})).Feasible 3900 75000000 (fun j => x j) ∧
          ¬ s.program.Feasible x) ∧
      buildProgram (oneItem (manyOffers (2 ^ 31) (by decide))) (oneOffer 1 1) (sized 0)
        (intersection {34} {34}) = .error .undefined := by
  rw [intersection_single]
  refine ⟨?_, buildProgram_manyOffers _ le_rfl⟩
  obtain ⟨hlisted, hvolume, hn⟩ := intersection_single ▸ buildable_oneOffer (2 ^ 53 + 1) 1 0 1 0
  obtain ⟨s, hs, hassembled⟩ := assembled_of_buildProgram hlisted hvolume hn
  rw [← length_columns _ _ (sized 0)] at hassembled
  refine ⟨s, hs, Function.update 0 0 (2 ^ 53 + 1), ?_, ?_⟩
  · refine ⟨by decide +kernel, ?_, by decide +kernel, by decide +kernel⟩
    -- nothing is sold
    intro i
    have hsold : ∀ j, (exactTrade (oneOffer (2 ^ 53 + 1) 0) (oneOffer 1 1) (sized 0) [34]).sold j =
        true → Function.update (0 : ℕ → ℚ) 0 (2 ^ 53 + 1) j = 0 := by decide +kernel
    rw [Trade.amount, Trade.amount, Finset.sum_eq_zero]
    · refine Finset.sum_nonneg fun j _ => ?_
      split
      · exact (by decide +kernel : ∀ j : Fin 2, 0 ≤ Function.update (0 : ℕ → ℚ) 0 (2 ^ 53 + 1) j) j
      · exact le_refl 0
    · intro j _
      split
      · next hj => exact hsold j hj.1
      · rfl
  · intro hx
    have hplaced := intersection_single ▸
      placed_columns (oneOffer (2 ^ 53 + 1) 0) (oneOffer 1 1) (sized 0) {34} {34}
    have hbound := (((hassembled.feasible_iff hplaced _).mp hx).bounds ⟨0, by decide⟩).2
    exact absurd hbound (by decide +kernel)

end Emdr
end EveIndustryPlanner
