import EveIndustryPlanner.Emdr.HaulProgram

/-!
# How the haul program is filled

The rows of the program tile its matrix: every variable gets the next two rows
and every item the next one behind those, so that nothing is written out of
range as long as the 32-bit counters do not wrap.

## Main definitions

* `Column`, `columns` — the variables, with the orders they stand for.
* `Column.entry`, `rightSide`, `RowOf` — what is written where.
* `Assembled` — the program when some columns have been written.
* `Buildable` — there are entries for all items, and not too many orders.

## Main results

* `Assembled.add` — one more column.
* `assembled_of_buildProgram` — **what the loops leave behind.**
* `buildProgram_isOk_iff` — **when they come to their end.**
-/

namespace EveIndustryPlanner
namespace Emdr

section Assembly

variable {K : Type}

/-! ### The columns -/

/-- A variable with the order it stands for. -/
structure Column (K : Type) where
  info : VariableInfo
  order : HaulOrder K
  vol : K
  /-- The position of its item. -/
  position : ℕ

/-- The orders of an item on one side. -/
def ordersOf (side : ItemOrders K) (itemID : UInt64) : List (UInt64 × HaulOrder K) :=
  ((side.lookup itemID).map entries).getD []

/-- The columns of an item. -/
def itemColumns (sellOrders buyOrders : ItemOrders K) (vol : K) (itemID : UInt64)
    (position : ℕ) : List (Column K) :=
  (ordersOf sellOrders itemID).map (fun e => ⟨⟨itemID, e.1, .BUY⟩, e.2, vol, position⟩) ++
    (ordersOf buyOrders itemID).map fun e => ⟨⟨itemID, e.1, .SELL⟩, e.2, vol, position⟩

/-- The columns of the items from a position on. -/
def columnsFrom [Zero K] (sellOrders buyOrders : ItemOrders K) (volume : Map UInt64 K)
    (items : List UInt64) (position : ℕ) : List (Column K) :=
  (items.zipIdx position).flatMap fun e =>
    itemColumns sellOrders buyOrders ((volume e.1).getD 0) e.1 e.2

/-- All columns. -/
def columns [Zero K] (sellOrders buyOrders : ItemOrders K) (volume : Map UInt64 K)
    (items : List UInt64) : List (Column K) := columnsFrom sellOrders buyOrders volume items 0

/-- The number of orders for some items. -/
def orderCount (sellOrders buyOrders : ItemOrders K) (items : List UInt64) : ℕ :=
  (items.map fun itemID =>
    (ordersOf sellOrders itemID).length + (ordersOf buyOrders itemID).length).sum

/-- There is an entry for every item on both sides. -/
def Listed (sellOrders buyOrders : ItemOrders K) (items : List UInt64) : Prop :=
  ∀ itemID ∈ items, (sellOrders.lookup itemID).isSome ∧ (buyOrders.lookup itemID).isSome

theorem length_columns [Zero K] (sellOrders buyOrders : ItemOrders K) (volume : Map UInt64 K)
    (items : List UInt64) :
    (columns sellOrders buyOrders volume items).length = orderCount sellOrders buyOrders items := by
  have hmap : items = items.zipIdx.map Prod.fst := by simp
  rw [columns, columnsFrom, List.length_flatMap, orderCount]
  conv_rhs => rw [hmap, List.map_map]
  congr 1
  refine List.map_congr_left fun e _ => ?_
  simp [itemColumns]

theorem at_of_isSome {side : ItemOrders K} {itemID : UInt64} (h : (side.lookup itemID).isSome) :
    ∃ orders, side.at itemID = .ok orders ∧ entries orders = ordersOf side itemID := by
  obtain ⟨orders, horders⟩ := Option.isSome_iff_exists.mp h
  refine ⟨orders, ?_, ?_⟩
  · simp only [ItemOrders.at, lookupAt, horders]
  · simp only [ordersOf, horders, Option.map_some, Option.getD_some]

theorem isSome_of_at {side : ItemOrders K} {itemID : UInt64}
    {orders : AList fun _ : UInt64 => HaulOrder K} (h : side.at itemID = .ok orders) :
    (side.lookup itemID).isSome ∧ entries orders = ordersOf side itemID := by
  cases hlookup : side.lookup itemID with
  | none =>
    simp only [ItemOrders.at, lookupAt, hlookup] at h
    exact absurd h (by simp)
  | some orders' =>
    simp only [ItemOrders.at, lookupAt, hlookup] at h
    obtain rfl := Except.ok.inj h
    exact ⟨rfl, by simp only [ordersOf, hlookup, Option.map_some, Option.getD_some]⟩

/-! ### The counts -/

theorem unsigned_of_lt {n : ℕ} (h : n < 2 ^ 32) : unsigned n = n := Nat.mod_eq_of_lt h

theorem unsigned_lt (n : ℕ) : unsigned n < 2 ^ 32 := Nat.mod_lt n (by decide)

theorem unsigned_unsigned_add (a b : ℕ) : unsigned (unsigned a + b) = unsigned (a + b) :=
  Nat.mod_add_mod a (2 ^ 32) b

/-- What the loop counts, from any counts. -/
theorem counts_from {sellOrders buyOrders : ItemOrders K} {items : List UInt64}
    (h : Listed sellOrders buyOrders items) (constraintCount variableCount : ℕ) :
    items.foldlM (countItem sellOrders buyOrders) (constraintCount, unsigned variableCount) =
      .ok (constraintCount + 2 * orderCount sellOrders buyOrders items,
        unsigned (variableCount + 2 * orderCount sellOrders buyOrders items)) := by
  induction items generalizing constraintCount variableCount with
  | nil => rfl
  | cons itemID items ih =>
    obtain ⟨hitem, hitems⟩ := List.forall_mem_cons.mp h
    obtain ⟨sells, hsells, hsellEntries⟩ := at_of_isSome hitem.1
    obtain ⟨buys, hbuys, hbuyEntries⟩ := at_of_isSome hitem.2
    simp only [List.foldlM_cons, countItem, hsells, hbuys, ok_bind, pure_bind,
      unsigned_unsigned_add]
    rw [ih hitems]
    simp only [orderCount, List.map_cons, List.sum_cons, hsellEntries, hbuyEntries, Nat.mul_add]
    congr 2
    · omega
    · congr 1
      omega

/-- The counts of the constraints and of the variables. -/
theorem counts_eq {sellOrders buyOrders : ItemOrders K} {items : List UInt64}
    (h : Listed sellOrders buyOrders items) :
    counts sellOrders buyOrders items =
      .ok (2 + items.length + 2 * orderCount sellOrders buyOrders items,
        unsigned (2 * orderCount sellOrders buyOrders items)) := by
  have hfrom := counts_from h (2 + items.length) 0
  rwa [Nat.zero_add] at hfrom

/-- Without an entry for an item the count does not come to its end. -/
theorem listed_of_counts {sellOrders buyOrders : ItemOrders K} {items : List UInt64}
    {count : ℕ × ℕ} (h : counts sellOrders buyOrders items = .ok count) :
    Listed sellOrders buyOrders items := by
  unfold counts at h
  generalize (2 + items.length, 0) = start at h
  induction items generalizing start with
  | nil => exact fun itemID hitem => absurd hitem List.not_mem_nil
  | cons itemID items ih =>
    rw [List.foldlM_cons] at h
    obtain ⟨next, hnext, h⟩ := bind_eq_ok h
    obtain ⟨sells, hsells, hnext⟩ := bind_eq_ok hnext
    obtain ⟨buys, hbuys, -⟩ := bind_eq_ok hnext
    exact List.forall_mem_cons.mpr ⟨⟨(isSome_of_at hsells).1, (isSome_of_at hbuys).1⟩, ih next h⟩

/-! ### One more column -/

theorem getElem?_snoc {α : Type} (l : List α) (a : α) (j : ℕ) :
    (l ++ [a])[j]? = if j = l.length then some a else l[j]? := by
  by_cases h : j = l.length
  · subst h
    rw [if_pos rfl, List.getElem?_concat_length]
  · rw [if_neg h]
    rcases Nat.lt_or_gt_of_ne h with hlt | hgt
    · rw [List.getElem?_append_left hlt]
    · rw [List.getElem?_eq_none (by simpa using hgt), List.getElem?_eq_none hgt.le]

variable [Field K]

/-- What is written for a column besides its bounds. -/
def Column.others (col : Column K) (capacityConstraint wealthConstraint current v : ℕ) :
    List (Write Constraint K) :=
  match col.info.type with
  | .BUY =>
    [.a (.item col.info.itemID) current v (-1), .a .capacity capacityConstraint v col.vol,
      .a .wealth wealthConstraint v col.order.price, .c v (-col.order.price)]
  | .SELL => [.a (.item col.info.itemID) current v 1, .c v col.order.price]

/-- The entries of column `v` in a program of `n` orders for `m` items. -/
def Column.entry (n m : ℕ) (col : Column K) (v row : ℕ) : K :=
  match col.info.type with
  | .BUY =>
    if row = 2 * n + m + 1 then col.order.price
    else if row = 2 * n + m then col.vol
    else if row = 2 * n + col.position then -1
    else if row = 2 * v + 1 then -1
    else if row = 2 * v then 1 else 0
  | .SELL =>
    if row = 2 * n + col.position then 1
    else if row = 2 * v + 1 then -1
    else if row = 2 * v then 1 else 0

/-- The entry of a column in the objective. -/
def Column.worth (col : Column K) : K :=
  match col.info.type with
  | .BUY => -col.order.price
  | .SELL => col.order.price

/-- The upper bound of a column. -/
def Column.bound (col : Column K) : K := (nearestDouble col.order.quantity.toNat : ℕ)

/-- The right side of a row. -/
def rightSide (n m : ℕ) (done : List (Column K)) (row : ℕ) : K :=
  if row = 2 * n + m + 1 then (75000000 : ℕ)
  else if row = 2 * n + m then (3900 : ℕ)
  else if row % 2 = 0 then (done[row / 2]?).elim 0 Column.bound else 0

/-- The row of a constraint in a program of `n` orders for some items. -/
def RowOf (n : ℕ) (items : List UInt64) : Constraint → ℕ → Prop
  | .upper v, row => v < n ∧ row = 2 * v
  | .lower v, row => v < n ∧ row = 2 * v + 1
  | .item itemID, row => ∃ position, items[position]? = some itemID ∧ row = 2 * n + position
  | .capacity, row => row = 2 * n + items.length
  | .wealth, row => row = 2 * n + items.length + 1

/-- Some columns have been written; the next one is for the item at a position. -/
structure Assembled (n : ℕ) (items : List UInt64) (done : List (Column K)) (position : ℕ)
    (s : Building K) : Prop where
  rows : s.program.rows = 2 * n + items.length + 2
  cols : s.program.cols = 2 * n
  A : ∀ row v, s.program.A row v =
    (done[v]?).elim 0 fun col => col.entry n items.length v row
  b : ∀ row, s.program.b row = rightSide n items.length done row
  c : ∀ v, s.program.c v = (done[v]?).elim 0 Column.worth
  v : s.v = done.length
  constr : s.constr = 2 * done.length
  current : s.currentTypeConstraint = 2 * n + position
  variableMap : s.variableMap = done.map Column.info
  used : ∀ e ∈ s.program.used, RowOf n items e.1 e.2

/-- What is written for column `v`. -/
def Column.writes (n m : ℕ) (col : Column K) (v : ℕ) : List (Write Constraint K) :=
  [.a (.upper v) (2 * v) v 1, .b (.upper v) (2 * v) col.bound, .a (.lower v) (2 * v + 1) v (-1),
      .b (.lower v) (2 * v + 1) 0] ++
    col.others (2 * n + m) (2 * n + m + 1) (2 * n + col.position) v

section Written

variable (n m : ℕ) (col : Column K) (v : ℕ) (p : DenseProgram Constraint K)

theorem inRange_writes (hposition : col.position < m) (hv : v < n) (hrows : p.rows = 2 * n + m + 2)
    (hcols : p.cols = 2 * n) : ∀ w ∈ col.writes n m v, p.InRange w := by
  intro w hw
  simp only [Column.writes, Column.others] at hw
  cases htype : col.info.type
  all_goals
    simp only [htype, List.cons_append, List.nil_append, List.mem_cons, List.not_mem_nil,
      or_false] at hw
    rcases hw with rfl | rfl | rfl | rfl | hw <;> try rcases hw with rfl | rfl | rfl | rfl
  all_goals
    simp only [DenseProgram.InRange, hrows, hcols]
    omega

theorem A_written (hzero : ∀ row, p.A row v = 0) (row v' : ℕ) :
    ((col.writes n m v).foldl DenseProgram.set p).A row v' =
      if v' = v then col.entry n m v row else p.A row v' := by
  by_cases hv : v' = v
  · subst hv
    cases htype : col.info.type <;>
      simp [Column.writes, Column.others, htype, DenseProgram.set, Column.entry, hzero]
  · cases htype : col.info.type <;>
      simp [Column.writes, Column.others, htype, DenseProgram.set, hv]

theorem b_written (row : ℕ) :
    ((col.writes n m v).foldl DenseProgram.set p).b row =
      if row = 2 * v + 1 then 0 else if row = 2 * v then col.bound else p.b row := by
  cases htype : col.info.type <;>
    simp [Column.writes, Column.others, htype, DenseProgram.set]

theorem c_written (v' : ℕ) :
    ((col.writes n m v).foldl DenseProgram.set p).c v' =
      if v' = v then col.worth else p.c v' := by
  cases htype : col.info.type <;>
    simp [Column.writes, Column.others, htype, DenseProgram.set, Column.worth]

theorem used_written {items : List UInt64} (hv : v < n)
    (hitem : items[col.position]? = some col.info.itemID)
    (hused : ∀ e ∈ p.used, RowOf n items e.1 e.2) :
    ∀ e ∈ ((col.writes n items.length v).foldl DenseProgram.set p).used,
      RowOf n items e.1 e.2 := by
  intro e he
  have hcol : RowOf n items (.item col.info.itemID) (2 * n + col.position) := ⟨_, hitem, rfl⟩
  cases htype : col.info.type
  all_goals
    simp only [Column.writes, Column.others, htype, DenseProgram.set, List.cons_append,
      List.nil_append, List.foldl_cons, List.foldl_nil, List.mem_append, List.mem_singleton] at he
  case SELL =>
    rcases he with ((((he | rfl) | rfl) | rfl) | rfl) | rfl
    exacts [hused e he, ⟨hv, rfl⟩, ⟨hv, rfl⟩, ⟨hv, rfl⟩, ⟨hv, rfl⟩, hcol]
  case BUY =>
    rcases he with ((((((he | rfl) | rfl) | rfl) | rfl) | rfl) | rfl) | rfl
    exacts [hused e he, ⟨hv, rfl⟩, ⟨hv, rfl⟩, ⟨hv, rfl⟩, ⟨hv, rfl⟩, hcol, rfl, rfl]

end Written

theorem rightSide_snoc {n m : ℕ} {done : List (Column K)} (h : done.length < n)
    (col : Column K) (row : ℕ) : rightSide n m (done ++ [col]) row =
      if row = 2 * done.length + 1 then 0
      else if row = 2 * done.length then col.bound else rightSide n m done row := by
  simp only [rightSide, getElem?_snoc]
  by_cases hodd : row = 2 * done.length + 1
  · rw [if_pos hodd, if_neg (by omega), if_neg (by omega), if_neg (by omega)]
  by_cases heven : row = 2 * done.length
  · rw [if_neg hodd, if_pos heven, if_neg (by omega), if_neg (by omega), if_pos (by omega),
      if_pos (by omega)]
    rfl
  · rw [if_neg hodd, if_neg heven]
    by_cases hrow : row % 2 = 0
    · have hhalf : row / 2 ≠ done.length := by omega
      rw [if_neg hhalf]
    · rw [if_neg hrow, if_neg hrow]

/-- One more column. -/
theorem Assembled.add {n : ℕ} {items : List UInt64} {done : List (Column K)} {s : Building K}
    (col : Column K) (h : Assembled n items done col.position s) (hdone : done.length < n)
    (hn : n < 2 ^ 31) (hitem : items[col.position]? = some col.info.itemID) :
    ∃ s', s.add col.info col.order (col.others (2 * n + items.length) (2 * n + items.length + 1)
        s.currentTypeConstraint s.v) = .ok s' ∧
      Assembled n items (done ++ [col]) col.position s' := by
  obtain ⟨program, v, constr, current, variableMap⟩ := s
  obtain ⟨hrows, hcols, hA, hb, hc, hv, hconstr, hcurrent, hmap, hused⟩ := h
  dsimp only at hrows hcols hA hb hc hv hconstr hcurrent hmap hused
  subst hv hconstr hcurrent hmap
  have hposition : col.position < items.length := (List.getElem?_eq_some_iff.mp hitem).1
  -- the counters do not wrap
  have hlower : unsigned (2 * done.length + 1) = 2 * done.length + 1 := unsigned_of_lt (by omega)
  have hconstr : unsigned (2 * done.length + 1 + 1) = 2 * (done.length + 1) :=
    (unsigned_of_lt (by omega)).trans (by omega)
  have hv : unsigned (done.length + 1) = done.length + 1 := unsigned_of_lt (by omega)
  have hrange := inRange_writes n items.length col done.length program hposition hdone hrows hcols
  have hwrites : boundWrites done.length (2 * done.length) col.order ++
      col.others (2 * n + items.length) (2 * n + items.length + 1) (2 * n + col.position)
        done.length = col.writes n items.length done.length := by
    rw [boundWrites, hlower]
    rfl
  have hzero : ∀ row, program.A row done.length = 0 := by
    intro row
    rw [hA, List.getElem?_eq_none (le_refl _)]
    rfl
  refine ⟨⟨(col.writes n items.length done.length).foldl DenseProgram.set program,
    done.length + 1, 2 * (done.length + 1), 2 * n + col.position,
    done.map Column.info ++ [col.info]⟩, ?_, ?_⟩
  · simp only [Building.add, hwrites, DenseProgram.writes_eq_ok hrange, ok_bind, hlower, hconstr,
      hv]
    rfl
  constructor
  case rows => rw [DenseProgram.rows_foldl_set, hrows]
  case cols => rw [DenseProgram.cols_foldl_set, hcols]
  case A =>
    intro row v
    rw [A_written _ _ _ _ _ hzero, getElem?_snoc]
    by_cases h : v = done.length
    · rw [if_pos h, if_pos h, h]
      rfl
    · rw [if_neg h, if_neg h, hA]
  case b =>
    intro row
    rw [b_written, hb, rightSide_snoc hdone]
  case c =>
    intro v
    rw [c_written, getElem?_snoc]
    by_cases h : v = done.length
    · rw [if_pos h, if_pos h]
      rfl
    · rw [if_neg h, if_neg h, hc]
  case v => simp
  case constr => simp
  case current => rfl
  case variableMap => simp
  case used => exact used_written _ _ _ _ hdone hitem hused

/-! ### All columns -/

/-- The columns of one side of an item. -/
theorem Assembled.foldl_add {n : ℕ} {items : List UInt64} {α : Type}
    {f : Building K → α → Except Fault (Building K)} (toColumn : α → Column K) {position : ℕ}
    (hf : ∀ s a, f s a = s.add (toColumn a).info (toColumn a).order
      ((toColumn a).others (2 * n + items.length) (2 * n + items.length + 1)
        s.currentTypeConstraint s.v))
    (hposition : ∀ a, (toColumn a).position = position)
    (hitem : ∀ a, items[position]? = some (toColumn a).info.itemID) (hn : n < 2 ^ 31)
    {l : List α} {done : List (Column K)} {s : Building K}
    (h : Assembled n items done position s) (hlength : done.length + l.length ≤ n) :
    ∃ s', l.foldlM f s = .ok s' ∧ Assembled n items (done ++ l.map toColumn) position s' := by
  induction l generalizing done s with
  | nil => exact ⟨s, rfl, by rwa [List.map_nil, List.append_nil]⟩
  | cons a l ih =>
    rw [List.length_cons] at hlength
    have hp := hposition a
    obtain ⟨s₁, hs₁, h₁⟩ := Assembled.add (toColumn a) (hp ▸ h) (by omega) hn (hp ▸ hitem a)
    obtain ⟨s₂, hs₂, h₂⟩ := ih (hp ▸ h₁) (by simp; omega)
    refine ⟨s₂, ?_, ?_⟩
    · rw [List.foldlM_cons, hf, hs₁, ok_bind, hs₂]
    · rwa [List.map_cons, List.append_cons]

/-- All columns of an item. -/
theorem Assembled.addItem {n : ℕ} {items : List UInt64} {sellOrders buyOrders : ItemOrders K}
    {volume : Map UInt64 K} {itemID : UInt64} {position : ℕ} {done : List (Column K)}
    {s : Building K} (h : Assembled n items done position s) (hn : n < 2 ^ 31)
    (hitem : items[position]? = some itemID) (hsells : (sellOrders.lookup itemID).isSome)
    (hbuys : (buyOrders.lookup itemID).isSome) {vol : K} (hvol : volume itemID = some vol)
    (hlength : done.length +
      (itemColumns sellOrders buyOrders vol itemID position).length ≤ n) :
    ∃ s', addItem sellOrders buyOrders volume (2 * n + items.length) (2 * n + items.length + 1) s
        itemID = .ok s' ∧
      Assembled n items (done ++ itemColumns sellOrders buyOrders vol itemID position)
        (position + 1) s' := by
  obtain ⟨sells, hsells, hsellEntries⟩ := at_of_isSome hsells
  obtain ⟨buys, hbuys, hbuyEntries⟩ := at_of_isSome hbuys
  simp only [itemColumns, List.length_append, List.length_map] at hlength
  obtain ⟨s₁, hs₁, h₁⟩ := Assembled.foldl_add
    (f := addBuy itemID vol (2 * n + items.length) (2 * n + items.length + 1))
    (fun e => ⟨⟨itemID, e.1, .BUY⟩, e.2, vol, position⟩) (fun _ _ => rfl)
    (fun _ => rfl) (fun _ => hitem) hn (l := ordersOf sellOrders itemID) h (by omega)
  obtain ⟨s₂, hs₂, h₂⟩ := Assembled.foldl_add (f := addSell itemID)
    (fun e => ⟨⟨itemID, e.1, .SELL⟩, e.2, vol, position⟩) (fun _ _ => rfl)
    (fun _ => rfl) (fun _ => hitem) hn (l := ordersOf buyOrders itemID) h₁ (by simp; omega)
  refine ⟨{ s₂ with currentTypeConstraint := s₂.currentTypeConstraint + 1 }, ?_, ?_⟩
  · simp only [Emdr.addItem, lookupAt, hvol, hsells, hbuys, hsellEntries, hbuyEntries, ok_bind, hs₁,
      hs₂]
    rfl
  · rw [List.append_assoc] at h₂
    exact { h₂ with current := by rw [h₂.current, Nat.add_assoc] }

/-- The columns of the items that are left. -/
theorem Assembled.foldl_addItem {n : ℕ} {items : List UInt64}
    {sellOrders buyOrders : ItemOrders K} {volume : Map UInt64 K} (hn : n < 2 ^ 31)
    {rest : List UInt64} {position : ℕ} {done : List (Column K)} {s : Building K}
    (h : Assembled n items done position s) (hrest : rest = items.drop position)
    (hlisted : Listed sellOrders buyOrders rest) (hvolume : ∀ itemID ∈ rest, (volume itemID).isSome)
    (hlength : done.length + (columnsFrom sellOrders buyOrders volume rest position).length ≤ n) :
    ∃ s', rest.foldlM (Emdr.addItem sellOrders buyOrders volume (2 * n + items.length)
        (2 * n + items.length + 1)) s = .ok s' ∧
      Assembled n items (done ++ columnsFrom sellOrders buyOrders volume rest position)
        (position + rest.length) s' := by
  induction rest generalizing position done s with
  | nil => exact ⟨s, rfl, by simpa [columnsFrom] using h⟩
  | cons itemID rest ih =>
    obtain ⟨hitem, hlisted⟩ := List.forall_mem_cons.mp hlisted
    obtain ⟨hvol, hvolume⟩ := List.forall_mem_cons.mp hvolume
    obtain ⟨vol, hvol⟩ := Option.isSome_iff_exists.mp hvol
    have hcolumns : columnsFrom sellOrders buyOrders volume (itemID :: rest) position =
        itemColumns sellOrders buyOrders vol itemID position ++
          columnsFrom sellOrders buyOrders volume rest (position + 1) := by
      rw [columnsFrom, List.zipIdx_cons, List.flatMap_cons, hvol, Option.getD_some]
      rfl
    rw [hcolumns, List.length_append] at hlength
    have hat : items[position]? = some itemID := by
      rw [← List.head?_drop, ← hrest]
      rfl
    have hdrop : rest = items.drop (position + 1) := by
      rw [← List.tail_drop, ← hrest, List.tail_cons]
    obtain ⟨s₁, hs₁, h₁⟩ := h.addItem hn hat hitem.1 hitem.2 hvol (by omega)
    obtain ⟨s₂, hs₂, h₂⟩ := ih h₁ hdrop hlisted hvolume (by rw [List.length_append]; omega)
    refine ⟨s₂, ?_, ?_⟩
    · rw [List.foldlM_cons, hs₁, ok_bind, hs₂]
    · rw [hcolumns, ← List.append_assoc, List.length_cons, Nat.add_comm rest.length 1,
        ← Nat.add_assoc]
      exact h₂

/-- **What the loops leave behind.** -/
theorem assembled_of_buildProgram {sellOrders buyOrders : ItemOrders K} {volume : Map UInt64 K}
    {items : List UInt64} (hlisted : Listed sellOrders buyOrders items)
    (hvolume : ∀ itemID ∈ items, (volume itemID).isSome)
    (hn : orderCount sellOrders buyOrders items < 2 ^ 31) :
    ∃ s, buildProgram sellOrders buyOrders volume items = .ok s ∧
      Assembled (orderCount sellOrders buyOrders items) items
        (columns sellOrders buyOrders volume items) items.length s := by
  have hlength := length_columns sellOrders buyOrders volume items
  generalize hcount : orderCount sellOrders buyOrders items = n at hn hlength
  have hcc : 2 + items.length + 2 * n - 2 = 2 * n + items.length := by omega
  have hcc' : 2 + items.length + 2 * n - 1 = 2 * n + items.length + 1 := by omega
  have hcc'' : 2 + items.length + 2 * n - items.length - 2 = 2 * n := by omega
  have hrange : ∀ w ∈ ([.b .capacity (2 * n + items.length) 3900,
      .b .wealth (2 * n + items.length + 1) 75000000] : List (Write Constraint K)),
      (DenseProgram.zeros (2 + items.length + 2 * n) (2 * n)).InRange w := by
    simp only [List.forall_mem_cons, DenseProgram.InRange, DenseProgram.zeros]
    exact ⟨by omega, by omega, fun w hw => absurd hw List.not_mem_nil⟩
  have hstart : Assembled (K := K) n items [] 0
      ⟨[.b .capacity (2 * n + items.length) 3900,
        .b .wealth (2 * n + items.length + 1) 75000000].foldl DenseProgram.set
          (DenseProgram.zeros (2 + items.length + 2 * n) (2 * n)), 0, 0, 2 * n, []⟩ := by
    constructor
    case rows => simp only [DenseProgram.rows_foldl_set, DenseProgram.zeros]; omega
    case cols => simp only [DenseProgram.cols_foldl_set, DenseProgram.zeros]
    case A => exact fun row v => rfl
    case b => intro row; simp [DenseProgram.set, DenseProgram.zeros, rightSide]
    case c => exact fun v => rfl
    case v => rfl
    case constr => rfl
    case current => rfl
    case variableMap => rfl
    case used =>
      simp only [List.foldl_cons, List.foldl_nil, DenseProgram.set, DenseProgram.zeros,
        List.nil_append, List.cons_append, List.forall_mem_cons]
      exact ⟨rfl, rfl, fun e he => absurd he List.not_mem_nil⟩
  obtain ⟨s, hs, h⟩ := hstart.foldl_addItem hn (List.drop_zero).symm hlisted hvolume
    (by rw [List.length_nil, Nat.zero_add]; exact hlength.le)
  refine ⟨s, ?_, ?_⟩
  · simp only [buildProgram, counts_eq hlisted, hcount, ok_bind,
      unsigned_of_lt (show 2 * n < 2 ^ 32 by omega), hcc, hcc', hcc'',
      DenseProgram.writes_eq_ok hrange]
    exact hs
  · rw [Nat.zero_add] at h
    exact h

/-! ### When the loops come to their end -/

/-- Some variables were added, and all their columns were in range. -/
structure Walked (s : Building K) (added : ℕ) (s' : Building K) : Prop where
  cols : s'.program.cols = s.program.cols
  v : unsigned s'.v = unsigned (s.v + added)
  inRange : ∀ i < added, unsigned (s.v + i) < s.program.cols

omit [Field K] in
theorem Walked.refl (s : Building K) : Walked s 0 s := ⟨rfl, rfl, fun i hi => absurd hi (by omega)⟩

omit [Field K] in
theorem Walked.trans {s s₁ s₂ : Building K} {added added' : ℕ} (h : Walked s added s₁)
    (h' : Walked s₁ added' s₂) : Walked s (added + added') s₂ := by
  have hv : ∀ i, unsigned (s₁.v + i) = unsigned (s.v + (added + i)) := by
    intro i
    rw [← unsigned_unsigned_add, h.v, unsigned_unsigned_add, Nat.add_assoc]
  refine ⟨h'.cols.trans h.cols, h'.v.trans (hv added'), ?_⟩
  intro i hi
  by_cases hlt : i < added
  · exact h.inRange i hlt
  · have hin := h'.inRange (i - added) (by omega)
    rwa [hv, h.cols, Nat.add_sub_cancel' (not_lt.mp hlt)] at hin

/-- A variable that was added has its column in range. -/
theorem Walked.add {s s' : Building K} {info : VariableInfo} {order : HaulOrder K}
    {others : List (Write Constraint K)} (h : s.add info order others = .ok s') :
    Walked s 1 s' := by
  obtain ⟨program, hprogram, h⟩ := bind_eq_ok h
  obtain rfl := Except.ok.inj h
  obtain ⟨rfl, hrange⟩ := DenseProgram.inRange_of_writes hprogram
  refine ⟨DenseProgram.cols_foldl_set .., Nat.mod_mod _ _, ?_⟩
  intro i hi
  obtain rfl : i = 0 := by omega
  have hfirst := hrange (.a (.upper s.v) s.constr s.v 1) (by simp [boundWrites])
  exact lt_of_le_of_lt (Nat.mod_le _ _) hfirst.2

omit [Field K] in
theorem Walked.foldlM {α : Type} {f : Building K → α → Except Fault (Building K)} (count : α → ℕ)
    (hf : ∀ s a s', f s a = .ok s' → Walked s (count a) s') {l : List α} {s s' : Building K}
    (h : l.foldlM f s = .ok s') : Walked s (l.map count).sum s' := by
  induction l generalizing s with
  | nil =>
    obtain rfl := Except.ok.inj h
    exact .refl s
  | cons a l ih =>
    rw [List.foldlM_cons] at h
    obtain ⟨s₁, hs₁, h⟩ := bind_eq_ok h
    rw [List.map_cons, List.sum_cons]
    exact (hf s a s₁ hs₁).trans (ih h)

/-- The orders of an item were added. -/
theorem Walked.addItem {sellOrders buyOrders : ItemOrders K} {volume : Map UInt64 K}
    {capacityConstraint wealthConstraint : ℕ} {itemID : UInt64} {s s' : Building K}
    (h : addItem sellOrders buyOrders volume capacityConstraint wealthConstraint s itemID =
      .ok s') :
    (volume itemID).isSome ∧ Walked s
      ((ordersOf sellOrders itemID).length + (ordersOf buyOrders itemID).length) s' := by
  obtain ⟨vol, hvol, h⟩ := bind_eq_ok h
  obtain ⟨sells, hsells, h⟩ := bind_eq_ok h
  obtain ⟨s₁, hs₁, h⟩ := bind_eq_ok h
  obtain ⟨buys, hbuys, h⟩ := bind_eq_ok h
  obtain ⟨s₂, hs₂, h⟩ := bind_eq_ok h
  obtain rfl := Except.ok.inj h
  rw [(isSome_of_at hsells).2] at hs₁
  rw [(isSome_of_at hbuys).2] at hs₂
  refine ⟨?_, ?_⟩
  · cases hvolume : volume itemID with
    | none => simp [lookupAt, hvolume] at hvol
    | some vol => rfl
  · have h₁ := Walked.foldlM (fun _ => 1) (fun _ _ _ hadd => .add hadd) hs₁
    have h₂ := Walked.foldlM (fun _ => 1) (fun _ _ _ hadd => .add hadd) hs₂
    have h₂ := h₁.trans h₂
    simp only [List.map_const', List.sum_replicate, smul_eq_mul, Nat.mul_one] at h₂
    exact ⟨h₂.cols, h₂.v, h₂.inRange⟩

/-- The loops come to their end for fewer orders than the counters can count twice. -/
def Buildable (sellOrders buyOrders : ItemOrders K) (volume : Map UInt64 K)
    (items : List UInt64) : Prop :=
  Listed sellOrders buyOrders items ∧ (∀ itemID ∈ items, (volume itemID).isSome) ∧
    orderCount sellOrders buyOrders items < 2 ^ 31

/-- **When the loops come to their end.** -/
theorem buildProgram_isOk_iff {sellOrders buyOrders : ItemOrders K} {volume : Map UInt64 K}
    {items : List UInt64} : (∃ s, buildProgram sellOrders buyOrders volume items = .ok s) ↔
      Buildable sellOrders buyOrders volume items := by
  constructor
  · rintro ⟨s, h⟩
    obtain ⟨count, hcount, h⟩ := bind_eq_ok h
    have hlisted := listed_of_counts hcount
    rw [counts_eq hlisted] at hcount
    obtain rfl := Except.ok.inj hcount
    obtain ⟨program, hprogram, h⟩ := bind_eq_ok h
    obtain ⟨rfl, -⟩ := DenseProgram.inRange_of_writes hprogram
    refine ⟨hlisted, ?_, ?_⟩
    · intro itemID hitem
      obtain ⟨before, after, rfl⟩ := List.append_of_mem hitem
      obtain ⟨s₁, -, h⟩ := foldlM_append_eq_ok h
      rw [List.foldlM_cons] at h
      obtain ⟨s₂, hs₂, -⟩ := bind_eq_ok h
      exact (Walked.addItem hs₂).1
    · have hwalked := Walked.foldlM _ (fun s itemID s' hadd => (Walked.addItem hadd).2) h
      have hcols := hwalked.inRange
      simp only [DenseProgram.cols_foldl_set, DenseProgram.zeros, Nat.zero_add] at hcols
      have hcols : ∀ i < orderCount sellOrders buyOrders items,
          unsigned i < unsigned (2 * orderCount sellOrders buyOrders items) := hcols
      generalize orderCount sellOrders buyOrders items = n at hcols
      -- otherwise the column behind the last one would be written
      by_contra hn
      have hlt := unsigned_lt (2 * n)
      have hwrap : unsigned (2 * n) < n := by
        rw [unsigned] at hlt ⊢
        omega
      have hin := hcols (unsigned (2 * n)) hwrap
      rw [unsigned_of_lt hlt] at hin
      exact lt_irrefl _ hin
  · rintro ⟨hlisted, hvolume, hn⟩
    obtain ⟨s, hs, -⟩ := assembled_of_buildProgram hlisted hvolume hn
    exact ⟨s, hs⟩

/-- With entries for all items only a write out of range can fail. -/
theorem undefined_of_buildProgram {sellOrders buyOrders : ItemOrders K} {volume : Map UInt64 K}
    {items : List UInt64} (hlisted : Listed sellOrders buyOrders items)
    (hvolume : ∀ itemID ∈ items, (volume itemID).isSome) {e : Fault}
    (h : buildProgram sellOrders buyOrders volume items = .error e) : e = .undefined := by
  have hadd : ∀ (s : Building K) info order others, s.add info order others = .error e →
      e = .undefined := by
    intro s info order others hadd
    rcases bind_eq_error hadd with hadd | ⟨program, -, hadd⟩
    · exact DenseProgram.undefined_of_writes hadd
    · exact absurd hadd (by simp [pure, Except.pure])
  rw [buildProgram, counts_eq hlisted, ok_bind] at h
  rcases bind_eq_error h with h | ⟨program, -, h⟩
  · exact DenseProgram.undefined_of_writes h
  · obtain ⟨s, itemID, hitem, h⟩ := foldlM_eq_error h
    obtain ⟨vol, hvol⟩ := Option.isSome_iff_exists.mp (hvolume itemID hitem)
    obtain ⟨sells, hsells, -⟩ := at_of_isSome (hlisted itemID hitem).1
    obtain ⟨buys, hbuys, -⟩ := at_of_isSome (hlisted itemID hitem).2
    simp only [Emdr.addItem, lookupAt, hvol, hsells, hbuys, ok_bind] at h
    rcases bind_eq_error h with h | ⟨s₁, -, h⟩
    · obtain ⟨s', a, -, h⟩ := foldlM_eq_error h
      exact hadd _ _ _ _ h
    rcases bind_eq_error h with h | ⟨s₂, -, h⟩
    · obtain ⟨s', a, -, h⟩ := foldlM_eq_error h
      exact hadd _ _ _ _ h
    · exact absurd h (by simp [pure, Except.pure])

end Assembly

end Emdr
end EveIndustryPlanner
