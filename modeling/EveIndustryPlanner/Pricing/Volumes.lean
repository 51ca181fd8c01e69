import EveIndustryPlanner.Fault
import EveIndustryPlanner.Lib.Extremum
import EveIndustryPlanner.Lib.SortedDiff
import EveIndustryPlanner.Pricing.Order

/-!
# What was traded between two views

Two views of the orders of one item are walked side by side by id.  An order
that is gone counts as sold, one that is there in both views counts as sold for
what its volume has lost, and the others are new.  The volumes are unsigned
numbers of 32 bits, so that a volume that has grown counts as sold for almost
`2 ^ 32` units.

## Main definitions

* `Tally`, `tallyEdit` — what is counted along the walk.
* `TritaniumBuyAnalysis`, `step`, `stepAndUpdate`, `call` — one view after the other.
* `Balanced` — the volumes of two views add up.

## Main results

* `Tallied.of_run` — what has been counted.
* `balanced_iff` — **when the volumes add up.**
-/

namespace EveIndustryPlanner
namespace Pricing

/-- The view before. -/
structure TritaniumBuyAnalysis where
  lastViewtime : Int32
  lastOrders : List Order

namespace TritaniumBuyAnalysis

/-! ### Counting -/

/-- A 64-bit sum of numbers that are not negative. -/
def addLongLong (sum x : ℕ) : Except Fault ℕ :=
  if sum + x < 2 ^ 63 then .ok (sum + x) else .error .undefined

/-- How an order of the report is marked. -/
inductive DiffType where
  | NEW
  | OLD
  | UNCHANGED
  deriving DecidableEq, Repr

/-- A line of the report. -/
structure DiffLine where
  t : DiffType
  o : Order
  note : String
  deriving DecidableEq

/-- What is counted along the walk. -/
structure Tally where
  diffs : List DiffLine
  priceChanges : List (Double × Double × ℤ)
  newPrices : List Double
  newOrderVolumes : List UInt32
  soldVolume : ℕ
  newCount : ℕ
  newSum : ℕ

/-- Nothing has been counted. -/
def Tally.empty : Tally := ⟨[], [], [], [], 0, 0, 0⟩

/-- The lines for an order of both views. -/
def changeLines (a b : Order) : List DiffLine :=
  if a.price.lt b.price ∧ a.volume ≠ b.volume then
    [⟨.OLD, a, " // price increase and volume change\n"⟩,
      ⟨.NEW, b, " // price increase and volume change\n"⟩]
  else if b.price.lt a.price ∧ a.volume ≠ b.volume then
    [⟨.OLD, a, " // price decrease and volume change\n"⟩,
      ⟨.NEW, b, " // price decrease and volume change\n"⟩]
  else if a.price.lt b.price then
    [⟨.OLD, a, " // price increase\n"⟩, ⟨.NEW, b, " // price increase\n"⟩]
  else if b.price.lt a.price then
    [⟨.OLD, a, " // price decrease\n"⟩, ⟨.NEW, b, " // price decrease\n"⟩]
  else if a.volume ≠ b.volume then
    [⟨.OLD, a, " // volume change\n"⟩, ⟨.NEW, b, " // volume change\n"⟩]
  else [⟨.UNCHANGED, a, "\n"⟩]

/-- One round of the walk. -/
def tallyEdit (t : Tally) : Edit Order → Except Fault Tally
  | .keep b a => do
    let soldVolume ← addLongLong t.soldVolume (a.volume - b.volume).toNat
    return { t with
      soldVolume := soldVolume
      priceChanges := t.priceChanges ++ [(a.price, b.price, a.range.toInt)]
      diffs := t.diffs ++ changeLines a b }
  | .drop a => do
    let soldVolume ← addLongLong t.soldVolume a.volume.toNat
    return { t with
      diffs := t.diffs ++ [⟨.OLD, a, " // cleared\n"⟩]
      soldVolume := soldVolume }
  | .add b => do
    let newSum ← addLongLong t.newSum b.volume.toNat
    return { t with
      diffs := t.diffs ++ [⟨.NEW, b, " // new\n"⟩]
      newCount := t.newCount + 1
      newSum := newSum
      newOrderVolumes := t.newOrderVolumes ++ [b.volume]
      newPrices := t.newPrices ++ [b.price] }

/-! ### One view after the other -/

/-- What a step writes. -/
structure Report where
  tally : Tally
  totalVolume : ℕ
  minSell : Double
  maxBuy : Double

/-- Whether two views are approximately 30 minutes apart; their times are subtracted as
32-bit numbers. -/
def apart (viewtime lastViewtime : Int32) : Except Fault Bool :=
  let difference := viewtime.toInt - lastViewtime.toInt
  if -2 ^ 31 ≤ difference ∧ difference < 2 ^ 31 then
    .ok (decide (|difference - 1800| ≤ 120))
  else .error .undefined

/-- A view after another one. -/
def step (s : TritaniumBuyAnalysis) (viewtime : Int32) (view : List Order) :
    Except Fault (Option Report) := do
  if ← apart viewtime s.lastViewtime then
    -- the view has to have an order
    if view.isEmpty then .error .undefined
    else do
      let maxBuy ← deref (maxElement (fun a b => !b.price.lt a.price) s.lastOrders)
      let minSell ← deref (minElement (fun a b => a.price.lt b.price) s.lastOrders)
      let tally ← (diff Order.id view s.lastOrders).foldlM tallyEdit .empty
      let totalVolume ← view.foldlM (fun acc o => addLongLong acc o.volume.toNat) 0
      return some ⟨tally, totalVolume, minSell.price, maxBuy.price⟩
  else return none

/-- A view is compared with the one before, if that had an order. -/
def stepAndUpdate (s : TritaniumBuyAnalysis) (viewtime : Int32) (view : List Order) :
    Except Fault (TritaniumBuyAnalysis × Option Report) := do
  let report ← if s.lastOrders.isEmpty then .ok none else step s viewtime view
  return (⟨viewtime, view⟩, report)

/-- The orders of a view that are looked at, by id. -/
def selected (view : List Order) : List Order :=
  (view.filter fun o => o.buy = 0 ∧ 0 < o.volume ∧ o.type = 1248 ∧ o.stationId = 60003760).mergeSort
    fun a b => a.id ≤ b.id

/-- `operator()`. -/
def call (s : TritaniumBuyAnalysis) (viewtime : UInt32) (view : List Order) :
    Except Fault (TritaniumBuyAnalysis × Option Report) :=
  stepAndUpdate s viewtime.toInt32 (selected view)

/-! ### What has been counted -/

/-- What an edit counts as sold. -/
def soldBy : Edit Order → ℕ
  | .add _ => 0
  | .keep b a => (a.volume - b.volume).toNat
  | .drop a => a.volume.toNat

/-- What an edit counts as new. -/
def newBy : Edit Order → ℕ
  | .add b => b.volume.toNat
  | .keep _ _ => 0
  | .drop _ => 0

/-- The prices of an order of both views, the new one first. -/
def priceChange (e : Order × Order) : Double × Double × ℤ :=
  (e.2.price, e.1.price, e.2.range.toInt)

/-- What has been counted for some edits. -/
structure Tallied (es : List (Edit Order)) (t : Tally) : Prop where
  soldVolume : t.soldVolume = (es.map soldBy).sum
  sold_lt : t.soldVolume < 2 ^ 63
  newSum : t.newSum = (es.map newBy).sum
  newSum_lt : t.newSum < 2 ^ 63
  newCount : t.newCount = (es.filterMap Edit.added).length
  priceChanges : t.priceChanges = (es.filterMap Edit.kept).map priceChange

theorem addLongLong_eq_ok_iff {sum x r : ℕ} :
    addLongLong sum x = .ok r ↔ r = sum + x ∧ sum + x < 2 ^ 63 := by
  rw [addLongLong]
  split
  · next h =>
    rw [Except.ok.injEq]
    exact ⟨fun hr => ⟨hr.symm, h⟩, fun hr => hr.1.symm⟩
  · next h => exact ⟨fun hr => absurd hr (by simp), fun hr => absurd hr.2 h⟩

theorem Tallied.nil : Tallied [] .empty :=
  ⟨rfl, by decide, rfl, by decide, rfl, rfl⟩

/-- One more edit. -/
theorem Tallied.snoc {es : List (Edit Order)} {t t' : Tally} {e : Edit Order} (h : Tallied es t)
    (he : tallyEdit t e = .ok t') : Tallied (es ++ [e]) t' := by
  cases e with
  | add b =>
    obtain ⟨newSum, hsum, he⟩ := bind_eq_ok he
    obtain ⟨rfl, hlt⟩ := addLongLong_eq_ok_iff.mp hsum
    obtain rfl := Except.ok.inj he
    exact ⟨by simp [h.soldVolume, soldBy], h.sold_lt, by simp [h.newSum, newBy], hlt,
      by simp [h.newCount, Edit.added], by simp [h.priceChanges, Edit.kept]⟩
  | keep b a =>
    obtain ⟨soldVolume, hsum, he⟩ := bind_eq_ok he
    obtain ⟨rfl, hlt⟩ := addLongLong_eq_ok_iff.mp hsum
    obtain rfl := Except.ok.inj he
    exact ⟨by simp [h.soldVolume, soldBy], hlt, by simp [h.newSum, newBy], h.newSum_lt,
      by simp [h.newCount, Edit.added], by simp [h.priceChanges, Edit.kept, priceChange]⟩
  | drop a =>
    obtain ⟨soldVolume, hsum, he⟩ := bind_eq_ok he
    obtain ⟨rfl, hlt⟩ := addLongLong_eq_ok_iff.mp hsum
    obtain rfl := Except.ok.inj he
    exact ⟨by simp [h.soldVolume, soldBy], hlt, by simp [h.newSum, newBy], h.newSum_lt,
      by simp [h.newCount, Edit.added], by simp [h.priceChanges, Edit.kept]⟩

/-- **What has been counted.** -/
theorem Tallied.of_run {es : List (Edit Order)} {t : Tally}
    (h : es.foldlM tallyEdit .empty = .ok t) : Tallied es t := by
  induction es using List.reverseRecOn generalizing t with
  | nil =>
    obtain rfl := Except.ok.inj h
    exact .nil
  | append_singleton es e ih =>
    obtain ⟨t₁, ht₁, h⟩ := foldlM_append_eq_ok h
    rw [List.foldlM_cons] at h
    obtain ⟨t₂, ht₂, h⟩ := bind_eq_ok h
    obtain rfl := Except.ok.inj h
    exact (ih ht₁).snoc ht₂

/-- An edit that fits is counted. -/
theorem exists_tallyEdit {t : Tally} {e : Edit Order} (hsold : t.soldVolume + soldBy e < 2 ^ 63)
    (hnew : t.newSum + newBy e < 2 ^ 63) : ∃ t', tallyEdit t e = .ok t' := by
  cases e with
  | add b =>
    have hsum : addLongLong t.newSum b.volume.toNat = .ok _ :=
      addLongLong_eq_ok_iff.mpr ⟨rfl, hnew⟩
    exact ⟨_, by rw [tallyEdit, hsum]; rfl⟩
  | keep b a =>
    have hsum : addLongLong t.soldVolume (a.volume - b.volume).toNat = .ok _ :=
      addLongLong_eq_ok_iff.mpr ⟨rfl, hsold⟩
    exact ⟨_, by rw [tallyEdit, hsum]; rfl⟩
  | drop a =>
    have hsum : addLongLong t.soldVolume a.volume.toNat = .ok _ :=
      addLongLong_eq_ok_iff.mpr ⟨rfl, hsold⟩
    exact ⟨_, by rw [tallyEdit, hsum]; rfl⟩

/-- Sums that fit are counted. -/
theorem exists_tally {es : List (Edit Order)} (hsold : (es.map soldBy).sum < 2 ^ 63)
    (hnew : (es.map newBy).sum < 2 ^ 63) : ∃ t, es.foldlM tallyEdit .empty = .ok t := by
  induction es using List.reverseRecOn with
  | nil => exact ⟨_, rfl⟩
  | append_singleton es e ih =>
    rw [List.map_append, List.sum_append, List.map_singleton, List.sum_singleton] at hsold hnew
    obtain ⟨t, ht⟩ := ih (by omega) (by omega)
    have hcounted := Tallied.of_run ht
    obtain ⟨t', ht'⟩ := exists_tallyEdit (hcounted.soldVolume ▸ hsold) (hcounted.newSum ▸ hnew)
    refine ⟨t', ?_⟩
    rw [List.foldlM_append, ht, ok_bind, List.foldlM_cons, ht']
    rfl

/-- The volume of some orders. -/
def volumeOf (l : List Order) : ℕ := (l.map fun o => o.volume.toNat).sum

/-- The total volume of a view, if it fits. -/
theorem foldlM_addLongLong_iff {l : List Order} {sum total : ℕ} (h : sum < 2 ^ 63) :
    l.foldlM (fun acc o => addLongLong acc o.volume.toNat) sum = .ok total ↔
      total = sum + volumeOf l ∧ sum + volumeOf l < 2 ^ 63 := by
  induction l generalizing sum with
  | nil =>
    simp only [List.foldlM_nil, volumeOf, List.map_nil, List.sum_nil, Nat.add_zero]
    constructor
    · intro htotal
      exact ⟨(Except.ok.inj htotal).symm, h⟩
    · rintro ⟨rfl, -⟩
      rfl
  | cons o l ih =>
    have hvolume : volumeOf (o :: l) = o.volume.toNat + volumeOf l := rfl
    rw [List.foldlM_cons, hvolume, ← Nat.add_assoc]
    constructor
    · intro htotal
      obtain ⟨sum', hsum', htotal⟩ := bind_eq_ok htotal
      obtain ⟨rfl, hlt⟩ := addLongLong_eq_ok_iff.mp hsum'
      exact (ih hlt).mp htotal
    · intro htotal
      have hlt : sum + o.volume.toNat < 2 ^ 63 := by omega
      rw [addLongLong_eq_ok_iff.mpr ⟨rfl, hlt⟩, ok_bind]
      exact (ih hlt).mpr htotal

/-! ### When the volumes add up -/

/-- The orders of a view whose ids the other view does not have. -/
def onlyIn (new old : List Order) : List Order := new.filter fun b => b.id ∉ old.map Order.id

/-- The volumes of two views add up, and what is new and what was kept is counted. -/
structure Balanced (old new : List Order) (r : Report) : Prop where
  balance : (volumeOf new : ℤ) = volumeOf old - r.tally.soldVolume + r.tally.newSum
  newSum : r.tally.newSum = volumeOf (onlyIn new old)
  newCount : r.tally.newCount = (onlyIn new old).length
  priceChanges : r.tally.priceChanges = new.filterMap fun b =>
    (lookup Order.id old b.id).map fun a => (a.price, b.price, a.range.toInt)

/-- No order of both views has a larger volume than before. -/
def NoneRose (old new : List Order) : Prop :=
  ∀ a ∈ old, ∀ b ∈ new, a.id = b.id → b.volume ≤ a.volume

/-- What was sold and the volume of the new view fit into 63 bits. -/
def Fits (old new : List Order) : Prop :=
  volumeOf old + volumeOf (onlyIn new old) < 2 ^ 63 + volumeOf new ∧ volumeOf new < 2 ^ 63

/-- What an edit counts as sold beyond what was. -/
def excess : Edit Order → ℕ
  | .add _ => 0
  | .keep b a => if b.volume ≤ a.volume then 0 else 2 ^ 32
  | .drop _ => 0

/-- An edit counts what it changes, and its excess. -/
theorem soldBy_add_change (e : Edit Order) :
    (soldBy e : ℤ) + e.change (fun o => (o.volume.toNat : ℤ)) = newBy e + excess e := by
  cases e with
  | add b => simp [soldBy, newBy, excess, Edit.change]
  | drop a => simp [soldBy, newBy, excess, Edit.change]
  | keep b a =>
    have ha := a.volume.toNat_lt
    have hb := b.volume.toNat_lt
    simp only [soldBy, newBy, excess, Edit.change, UInt32.toNat_sub, UInt32.le_iff_toNat_le]
    split <;> omega

/-- The walk counts what the views differ by, and the excess. -/
theorem sum_soldBy (old new : List Order) :
    (((diff Order.id new old).map soldBy).sum : ℤ) + volumeOf new =
      volumeOf old + ((diff Order.id new old).map newBy).sum +
        ((diff Order.id new old).map excess).sum := by
  have hvolume : ∀ l : List Order, (volumeOf l : ℤ) =
      (l.map fun o => (o.volume.toNat : ℤ)).sum := by
    intro l
    rw [volumeOf, Nat.cast_list_sum, List.map_map]
    rfl
  have hchange : ((diff Order.id new old).map
      (Edit.change fun o => (o.volume.toNat : ℤ))).sum = _ := sum_change_diff _ new old
  have hsum : ∀ es : List (Edit Order), ((es.map soldBy).sum : ℤ) +
      (es.map (Edit.change fun o => (o.volume.toNat : ℤ))).sum =
        (es.map newBy).sum + (es.map excess).sum := by
    intro es
    induction es with
    | nil => rfl
    | cons e es ih =>
      have he := soldBy_add_change e
      simp only [List.map_cons, List.sum_cons, Nat.cast_add]
      linarith
  have htotal := hsum (diff Order.id new old)
  rw [hchange, ← hvolume, ← hvolume] at htotal
  linarith

variable {old new : List Order}

theorem lookup_isNone_iff {l : List Order} {k : UInt64} :
    (lookup Order.id l k).isNone = true ↔ k ∉ l.map Order.id := by
  rw [Option.isNone_iff_eq_none, lookup_eq_none_iff]
  simp

theorem added_diff (hnew : StrictlySorted Order.id new) (hold : StrictlySorted Order.id old) :
    (diff Order.id new old).filterMap Edit.added = onlyIn new old := by
  rw [filterMap_added_diff hnew hold, onlyIn]
  refine List.filter_congr fun b _ => ?_
  rw [Bool.eq_iff_iff, lookup_isNone_iff, decide_eq_true_eq]

/-- What is counted as new is the volume of what is added. -/
theorem sum_newBy (es : List (Edit Order)) :
    (es.map newBy).sum = volumeOf (es.filterMap Edit.added) := by
  induction es with
  | nil => rfl
  | cons e es ih =>
    rw [List.map_cons, List.sum_cons, ih, List.filterMap_cons]
    cases e with
    | add b => rfl
    | keep b a => exact Nat.zero_add _
    | drop a => exact Nat.zero_add _

/-- There is an excess for the orders whose volume rose. -/
theorem sum_excess_eq_zero_iff (hnew : StrictlySorted Order.id new)
    (hold : StrictlySorted Order.id old) :
    ((diff Order.id new old).map excess).sum = 0 ↔ NoneRose old new := by
  rw [List.sum_eq_zero_iff]
  constructor
  · intro h a ha b hb hid
    have hkept : (b, a) ∈ (diff Order.id new old).filterMap Edit.kept := by
      rw [filterMap_kept_diff hnew hold, List.mem_filterMap]
      exact ⟨b, hb, by rw [(lookup_eq_some_iff hold).mpr ⟨ha, hid⟩]; rfl⟩
    obtain ⟨e, he, hpair⟩ := List.mem_filterMap.mp hkept
    cases e with
    | add b' => exact absurd hpair (by simp [Edit.kept])
    | drop a' => exact absurd hpair (by simp [Edit.kept])
    | keep b' a' =>
      obtain ⟨rfl, rfl⟩ := Prod.mk.inj (Option.some.inj hpair)
      have hzero := h _ (List.mem_map_of_mem he)
      by_contra hrose
      rw [excess, if_neg hrose] at hzero
      exact absurd hzero (by decide)
  · intro h x hx
    obtain ⟨e, he, rfl⟩ := List.mem_map.mp hx
    cases e with
    | add b => rfl
    | drop a => rfl
    | keep b a =>
      obtain ⟨hb, ha, hid⟩ := from_of_mem_diff Order.id he
      exact if_pos (h a ha b hb hid.symm)

/-- A step between two views with orders. -/
theorem exists_step {s : TritaniumBuyAnalysis} {viewtime : Int32} {view : List Order}
    (hapart : apart viewtime s.lastViewtime = .ok true) (hlast : s.lastOrders ≠ [])
    (hview : view ≠ []) : ∃ minSell maxBuy, step s viewtime view = do
      let tally ← (diff Order.id view s.lastOrders).foldlM tallyEdit .empty
      let totalVolume ← view.foldlM (fun acc o => addLongLong acc o.volume.toNat) 0
      return some ⟨tally, totalVolume, minSell, maxBuy⟩ := by
  obtain ⟨minSell, hmin⟩ : ∃ o, minElement (fun a b => a.price.lt b.price) s.lastOrders = some o :=
    Option.isSome_iff_exists.mp (minElement_isSome.mpr hlast)
  obtain ⟨maxBuy, hmax⟩ : ∃ o, maxElement (fun a b => !b.price.lt a.price) s.lastOrders = some o :=
    by
    rw [maxElement_eq_minElement]
    exact Option.isSome_iff_exists.mp (minElement_isSome.mpr hlast)
  refine ⟨minSell.price, maxBuy.price, ?_⟩
  rw [step, hapart, ok_bind, if_pos rfl, if_neg (by simpa using hview), hmin, hmax]
  rfl

section Balance

variable {s : TritaniumBuyAnalysis} {viewtime : Int32} {view : List Order}
  (hapart : apart viewtime s.lastViewtime = .ok true) (hlast : s.lastOrders ≠ [])
  (hview : view ≠ []) (hold : StrictlySorted Order.id s.lastOrders)
  (hnew : StrictlySorted Order.id view)

include hold hnew in
/-- What is counted as sold is what the views differ by, and the excess. -/
theorem sum_soldBy_diff :
    (((diff Order.id view s.lastOrders).map soldBy).sum : ℤ) + volumeOf view =
      volumeOf s.lastOrders + volumeOf (onlyIn view s.lastOrders) +
        ((diff Order.id view s.lastOrders).map excess).sum := by
  have hsold := sum_soldBy s.lastOrders view
  rwa [sum_newBy, added_diff hnew hold] at hsold

include hapart hlast hview hold hnew

/-- Volumes that add up did not rise, and their sums fit. -/
theorem noneRose_of_balanced {r : Report} (hr : step s viewtime view = .ok (some r))
    (hbalanced : Balanced s.lastOrders view r) :
    NoneRose s.lastOrders view ∧ Fits s.lastOrders view := by
  obtain ⟨minSell, maxBuy, hstep⟩ := exists_step hapart hlast hview
  rw [hstep] at hr
  obtain ⟨tally, htally, hr⟩ := bind_eq_ok hr
  obtain ⟨total, htotal, hr⟩ := bind_eq_ok hr
  obtain rfl := Option.some.inj (Except.ok.inj hr)
  have hcounted := Tallied.of_run htally
  obtain ⟨-, htotal⟩ := (foldlM_addLongLong_iff (by decide)).mp htotal
  have hsold := sum_soldBy_diff hold hnew
  have hbalance := hbalanced.balance
  have hlt := hcounted.sold_lt
  rw [hbalanced.newSum, hcounted.soldVolume] at hbalance
  rw [hcounted.soldVolume] at hlt
  have hzero : ((diff Order.id view s.lastOrders).map excess).sum = 0 := by omega
  exact ⟨(sum_excess_eq_zero_iff hnew hold).mp hzero, by omega, by omega⟩

/-- Volumes that did not rise and whose sums fit add up. -/
theorem exists_balanced (hrose : NoneRose s.lastOrders view) (hfits : Fits s.lastOrders view) :
    ∃ r, step s viewtime view = .ok (some r) ∧ Balanced s.lastOrders view r := by
  obtain ⟨minSell, maxBuy, hstep⟩ := exists_step hapart hlast hview
  obtain ⟨hsum, htotal⟩ := hfits
  have hsold := sum_soldBy_diff hold hnew
  rw [(sum_excess_eq_zero_iff hnew hold).mpr hrose] at hsold
  have hnewBy := sum_newBy (diff Order.id view s.lastOrders)
  rw [added_diff hnew hold] at hnewBy
  have hadded : volumeOf (onlyIn view s.lastOrders) ≤ volumeOf view :=
    (List.filter_sublist.map _).sum_le_sum fun _ _ => Nat.zero_le _
  obtain ⟨tally, htally⟩ : ∃ tally,
      (diff Order.id view s.lastOrders).foldlM tallyEdit .empty = .ok tally :=
    exists_tally (by omega) (by omega)
  have hcounted := Tallied.of_run htally
  have htotal : view.foldlM (fun acc o => addLongLong acc o.volume.toNat) 0 = .ok _ :=
    (foldlM_addLongLong_iff (by decide)).mpr ⟨rfl, by omega⟩
  refine ⟨⟨tally, _, minSell, maxBuy⟩, by rw [hstep, htally, ok_bind, htotal]; rfl, ?_⟩
  constructor
  case balance =>
    rw [hcounted.newSum, hnewBy, hcounted.soldVolume]
    omega
  case newSum => rw [hcounted.newSum, hnewBy]
  case newCount => rw [hcounted.newCount, added_diff hnew hold]
  case priceChanges =>
    rw [hcounted.priceChanges, filterMap_kept_diff hnew hold, List.map_filterMap]
    refine List.filterMap_congr fun b _ => ?_
    rw [Option.map_map]
    rfl

/-- **When the volumes add up**: when no volume rose and the sums fit. -/
theorem balanced_iff :
    (∃ r, step s viewtime view = .ok (some r) ∧ Balanced s.lastOrders view r) ↔
      NoneRose s.lastOrders view ∧ Fits s.lastOrders view := by
  constructor
  · rintro ⟨r, hr, hbalanced⟩
    exact noneRose_of_balanced hapart hlast hview hold hnew hr hbalanced
  · rintro ⟨hrose, hfits⟩
    exact exists_balanced hapart hlast hview hold hnew hrose hfits

end Balance

/-- What is looked at is sorted as long as the ids of a view are distinct. -/
theorem strictlySorted_selected {view : List Order} (h : (view.map Order.id).Nodup) :
    StrictlySorted Order.id (selected view) := by
  have htrans : ∀ a b c : Order, decide (a.id ≤ b.id) = true → decide (b.id ≤ c.id) = true →
      decide (a.id ≤ c.id) = true := by
    intro a b c hab hbc
    exact decide_eq_true (le_trans (of_decide_eq_true hab) (of_decide_eq_true hbc))
  have htotal : ∀ a b : Order, (decide (a.id ≤ b.id) || decide (b.id ≤ a.id)) = true := by
    intro a b
    simpa using le_total a.id b.id
  have hle : (selected view).Pairwise fun a b => a.id ≤ b.id :=
    (List.pairwise_mergeSort htrans htotal _).imp of_decide_eq_true
  have hnodup : ((selected view).map Order.id).Nodup :=
    ((List.mergeSort_perm ..).map Order.id).nodup_iff.mpr
      (h.sublist (List.filter_sublist.map Order.id))
  exact (hle.and (List.pairwise_map.mp hnodup)).imp fun hpair => lt_of_le_of_ne hpair.1 hpair.2

/-- A view, and one 30 minutes later: order 5 is sold in part, 7 is kept, 8 has vanished, and
9 is new. -/
def earlier : TritaniumBuyAnalysis := ⟨0, [units 5 10, units 7 3, units 8 2]⟩

def later : List Order := [units 5 6, units 7 3, units 9 4]

/-- The volumes of the two views add up: 15, 6 of them sold, and 4 new ones. -/
theorem balanced_iff_later :
    ∃ r, step earlier 1800 later = .ok (some r) ∧ Balanced earlier.lastOrders later r ∧
      r.tally.soldVolume = 6 := by
  have hrose : NoneRose earlier.lastOrders later := by
    unfold NoneRose
    decide
  have hfits : Fits earlier.lastOrders later := by
    unfold Fits
    decide
  have hapart : apart 1800 earlier.lastViewtime = .ok true := by decide
  obtain ⟨r, hr, hbalanced⟩ := (balanced_iff hapart (by simp [earlier]) (by simp [later])
    (by decide) (by decide)).mpr ⟨hrose, hfits⟩
  refine ⟨r, hr, hbalanced, ?_⟩
  have hold : volumeOf earlier.lastOrders = 15 := by decide
  have hnew : volumeOf later = 13 := by decide
  have honly : volumeOf (onlyIn later earlier.lastOrders) = 4 := by decide
  have hbalance := hbalanced.balance
  rw [hbalanced.newSum, hold, hnew, honly] at hbalance
  omega

/-- An order whose volume grows from 1 to 2 counts as sold for `2 ^ 32 - 1` units. -/
theorem not_balanced_rise :
    ¬ ∃ r, step ⟨0, [Order.single 7]⟩ 1800 [{ Order.single 7 with volume := 2 }] = .ok (some r) ∧
      Balanced [Order.single 7] [{ Order.single 7 with volume := 2 }] r := by
  rintro ⟨r, hr, hbalanced⟩
  have hrose := (noneRose_of_balanced (s := ⟨0, [Order.single 7]⟩) (by decide) (by simp) (by simp)
    (by decide) (by decide) hr hbalanced).1
  exact absurd (hrose _ (List.mem_singleton.mpr rfl) _ (List.mem_singleton.mpr rfl) rfl) (by decide)

end TritaniumBuyAnalysis
end Pricing
end EveIndustryPlanner
