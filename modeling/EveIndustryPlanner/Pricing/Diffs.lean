import EveIndustryPlanner.Pricing.Volumes

/-!
# The lines of a report

What has changed between two views is printed line by line, sorted by price: an order
that is gone or changed is marked as old, one that is new or changed as new.  Lines of
one price stay in the order of the walk, so that what an order was comes before what it
has become, unless it has become cheaper.

## Main definitions

* `sortDiffs`, `Report.printed` — the lines in the order in which they are printed.
* `editLines` — the lines of an edit of the walk.
* `readViews` — the reports on one view after the other.
* `Patch` — lines that lead from one view to the next one.

## Main results

* `diffs_of_run` — the lines along the walk are those of its edits.
* `patch_sortDiffs` — sorted lines are as good as those along the walk.
* `report_patches` — **every report of a run leads from the view before to its own.**
-/

namespace EveIndustryPlanner
namespace Pricing

/-! ### Prices that are numbers -/

namespace Double

/-- Where the bits are no NaN, `<` compares ranks. -/
theorem lt_eq_decide {x y : Double} (hx : x.isNaN = false) (hy : y.isNaN = false) :
    x.lt y = decide (x.rank < y.rank) := by
  simp [lt, hx, hy]

@[simp] theorem lt_self (x : Double) : x.lt x = false := by simp [lt]

end Double

namespace TritaniumBuyAnalysis

/-! ### The lines -/

/-- Cheaper lines come first, and lines of one price stay as they are. -/
def sortDiffs (diffs : List DiffLine) : List DiffLine :=
  diffs.mergeSort fun lhs rhs => !rhs.o.price.lt lhs.o.price

/-- The lines of a report as they are printed. -/
def Report.printed (r : Report) : List DiffLine := sortDiffs r.tally.diffs

/-- The lines of an edit. -/
def editLines : Edit Order → List DiffLine
  | .keep b a => changeLines a b
  | .drop a => [⟨.OLD, a, " // cleared\n"⟩]
  | .add b => [⟨.NEW, b, " // new\n"⟩]

theorem diffs_of_tallyEdit {t t' : Tally} {e : Edit Order} (h : tallyEdit t e = .ok t') :
    t'.diffs = t.diffs ++ editLines e := by
  cases e with
  | add b =>
    obtain ⟨newSum, -, h⟩ := bind_eq_ok h
    obtain rfl := Except.ok.inj h
    rfl
  | keep b a =>
    obtain ⟨soldVolume, -, h⟩ := bind_eq_ok h
    obtain rfl := Except.ok.inj h
    rfl
  | drop a =>
    obtain ⟨soldVolume, -, h⟩ := bind_eq_ok h
    obtain rfl := Except.ok.inj h
    rfl

/-- The lines along the walk are those of its edits. -/
theorem diffs_of_run {es : List (Edit Order)} {t : Tally}
    (h : es.foldlM tallyEdit .empty = .ok t) : t.diffs = es.flatMap editLines := by
  induction es using List.reverseRecOn generalizing t with
  | nil =>
    obtain rfl := Except.ok.inj h
    rfl
  | append_singleton es e ih =>
    obtain ⟨t₁, ht₁, h⟩ := foldlM_append_eq_ok h
    rw [List.foldlM_cons] at h
    obtain ⟨t₂, ht₂, h⟩ := bind_eq_ok h
    obtain rfl := Except.ok.inj h
    rw [diffs_of_tallyEdit ht₂, ih ht₁, List.flatMap_append, List.flatMap_singleton]

/-- The lines of an order of both views: as it was and as it is, or one for both. -/
theorem changeLines_cases (a b : Order) :
    (∃ note, changeLines a b = [⟨.OLD, a, note⟩, ⟨.NEW, b, note⟩]) ∨
      changeLines a b = [⟨.UNCHANGED, a, "\n"⟩] ∧ a.price.lt b.price = false ∧
        b.price.lt a.price = false ∧ a.volume = b.volume := by
  unfold changeLines
  split
  · exact Or.inl ⟨_, rfl⟩
  split
  · exact Or.inl ⟨_, rfl⟩
  split
  · exact Or.inl ⟨_, rfl⟩
  split
  · exact Or.inl ⟨_, rfl⟩
  split
  · exact Or.inl ⟨_, rfl⟩
  · next hrise hfall hvolume =>
    exact Or.inr ⟨rfl, by simpa using hrise, by simpa using hfall, not_not.mp hvolume⟩

/-! ### From one view to the next one -/

/-- An order as a line shows it: with its volume, and with its price as far as prices can
be compared. -/
structure ShownAs (b o : Order) : Prop where
  id : o.id = b.id
  volume : o.volume = b.volume
  not_below : o.price.lt b.price = false
  not_above : b.price.lt o.price = false

theorem ShownAs.refl (b : Order) : ShownAs b b := ⟨rfl, rfl, Double.lt_self _, Double.lt_self _⟩

/-- What was there before. -/
def olds (ls : List DiffLine) : List Order := (ls.filter fun l => l.t ≠ .NEW).map DiffLine.o

/-- What is there now. -/
def news (ls : List DiffLine) : List Order := (ls.filter fun l => l.t ≠ .OLD).map DiffLine.o

/-- Lines that lead from one view to the next one. -/
structure Patch (old new : List Order) (ls : List DiffLine) : Prop where
  sorted : ls.Pairwise fun l l' => l'.o.price.lt l.o.price = false
  olds : (olds ls).Perm old
  news : ∃ shown, List.Forall₂ ShownAs new shown ∧ (news ls).Perm shown
  /-- What an order was comes before what it is, unless it has become cheaper. -/
  oldFirst : ∀ l ∈ ls, ∀ l' ∈ ls, l.t = .OLD → l'.t = .NEW → l.o.id = l'.o.id →
    l'.o.price.lt l.o.price = false → [l, l'].Sublist ls

section Walk

variable {old new : List Order}

theorem olds_append (ls ls' : List DiffLine) : olds (ls ++ ls') = olds ls ++ olds ls' := by
  rw [olds, List.filter_append, List.map_append, olds, olds]

theorem news_append (ls ls' : List DiffLine) : news (ls ++ ls') = news ls ++ news ls' := by
  rw [news, List.filter_append, List.map_append, news, news]

/-- The lines of an edit show its old order. -/
theorem olds_editLines (e : Edit Order) : olds (editLines e) = e.old?.toList := by
  cases e with
  | add b => rfl
  | drop a => rfl
  | keep b a =>
    rcases changeLines_cases a b with ⟨note, hlines⟩ | ⟨hlines, -⟩
    · rw [editLines, hlines]
      rfl
    · rw [editLines, hlines]
      rfl

/-- The lines of an edit show its new order. -/
theorem news_editLines {e : Edit Order} (he : e.From Order.id new old) :
    List.Forall₂ ShownAs e.new?.toList (news (editLines e)) := by
  cases e with
  | add b => exact .cons (.refl b) .nil
  | drop a => exact .nil
  | keep b a =>
    rcases changeLines_cases a b with ⟨note, hlines⟩ | ⟨hlines, hrise, hfall, hvolume⟩
    · rw [editLines, hlines]
      exact .cons (.refl b) .nil
    · rw [editLines, hlines]
      exact .cons ⟨he.2.2.symm, hvolume, hrise, hfall⟩ .nil

/-- The lines along the walk show the old view. -/
theorem olds_flatMap (es : List (Edit Order)) :
    olds (es.flatMap editLines) = es.filterMap Edit.old? := by
  induction es with
  | nil => rfl
  | cons e es ih =>
    rw [List.flatMap_cons, olds_append, olds_editLines, ih, List.filterMap_cons]
    cases e.old? with
    | none => rfl
    | some a => rfl

/-- The lines along the walk show the new view. -/
theorem news_flatMap {es : List (Edit Order)}
    (h : ∀ e ∈ es, e.From Order.id new old) :
    List.Forall₂ ShownAs (es.filterMap Edit.new?) (news (es.flatMap editLines)) := by
  induction es with
  | nil => exact .nil
  | cons e es ih =>
    obtain ⟨he, hes⟩ := List.forall_mem_cons.mp h
    have hcons : (e :: es).filterMap Edit.new? = e.new?.toList ++ es.filterMap Edit.new? := by
      rw [List.filterMap_cons]
      cases e.new? with
      | none => rfl
      | some b => rfl
    rw [List.flatMap_cons, news_append, hcons]
    exact List.rel_append (news_editLines he) (ih hes)

/-- A line of an edit has its id. -/
theorem id_of_mem_editLines {e : Edit Order} (he : e.From Order.id new old) {l : DiffLine}
    (hl : l ∈ editLines e) : l.o.id = e.keyBy Order.id := by
  cases e with
  | add b =>
    obtain rfl := List.mem_singleton.mp hl
    rfl
  | drop a =>
    obtain rfl := List.mem_singleton.mp hl
    rfl
  | keep b a =>
    have hid : a.id = b.id := he.2.2.symm
    rcases changeLines_cases a b with ⟨note, hlines⟩ | ⟨hlines, -⟩
    · rw [editLines, hlines] at hl
      rcases List.mem_pair.mp hl with rfl | rfl
      · exact hid
      · rfl
    · rw [editLines, hlines] at hl
      obtain rfl := List.mem_singleton.mp hl
      exact hid

/-- A line of an edit shows an order of one of the views. -/
theorem mem_of_mem_editLines {e : Edit Order} (he : e.From Order.id new old) {l : DiffLine}
    (hl : l ∈ editLines e) : l.o ∈ old ++ new := by
  cases e with
  | add b =>
    obtain rfl := List.mem_singleton.mp hl
    exact List.mem_append_right _ he
  | drop a =>
    obtain rfl := List.mem_singleton.mp hl
    exact List.mem_append_left _ he
  | keep b a =>
    rcases changeLines_cases a b with ⟨note, hlines⟩ | ⟨hlines, -⟩
    · rw [editLines, hlines] at hl
      rcases List.mem_pair.mp hl with rfl | rfl
      · exact List.mem_append_left _ he.2.1
      · exact List.mem_append_right _ he.1
    · rw [editLines, hlines] at hl
      obtain rfl := List.mem_singleton.mp hl
      exact List.mem_append_left _ he.2.1

/-- An old and a new line of an edit. -/
theorem pair_of_mem_editLines {e : Edit Order} {l l' : DiffLine} (hl : l ∈ editLines e)
    (hl' : l' ∈ editLines e) (hold : l.t = .OLD) (hnew : l'.t = .NEW) :
    editLines e = [l, l'] := by
  cases e with
  | add b =>
    obtain rfl := List.mem_singleton.mp hl
    exact absurd hold (by simp)
  | drop a =>
    obtain rfl := List.mem_singleton.mp hl'
    exact absurd hnew (by simp)
  | keep b a =>
    rcases changeLines_cases a b with ⟨note, hlines⟩ | ⟨hlines, -⟩
    · rw [editLines, hlines] at hl hl' ⊢
      rcases List.mem_pair.mp hl with rfl | rfl
      · rcases List.mem_pair.mp hl' with rfl | rfl
        · exact absurd hnew (by simp)
        · rfl
      · exact absurd hold (by simp)
    · rw [editLines, hlines] at hl
      obtain rfl := List.mem_singleton.mp hl
      exact absurd hold (by simp)

/-- Along the walk what an order was comes before what it is. -/
theorem oldFirst_flatMap (hold : StrictlySorted Order.id old) (hnew : StrictlySorted Order.id new)
    {l l' : DiffLine} (hl : l ∈ (diff Order.id new old).flatMap editLines)
    (hl' : l' ∈ (diff Order.id new old).flatMap editLines) (ht : l.t = .OLD) (ht' : l'.t = .NEW)
    (hid : l.o.id = l'.o.id) : [l, l'].Sublist ((diff Order.id new old).flatMap editLines) := by
  obtain ⟨e, he, hl⟩ := List.mem_flatMap.mp hl
  obtain ⟨e', he', hl'⟩ := List.mem_flatMap.mp hl'
  -- lines of one id are lines of one edit
  have hkey : e.keyBy Order.id = e'.keyBy Order.id := by
    rw [← id_of_mem_editLines (from_of_mem_diff _ he) hl,
      ← id_of_mem_editLines (from_of_mem_diff _ he') hl', hid]
  obtain rfl := (strictlySorted_diff hnew hold).eq_of_key_eq he he' hkey
  rw [← pair_of_mem_editLines hl hl' ht ht']
  exact List.sublist_flatten_of_mem (List.mem_map_of_mem he)

end Walk

/-! ### Sorting -/

/-- Lines without NaN are sorted by the ranks of their prices. -/
theorem sortDiffs_eq {ls : List DiffLine} (h : ∀ l ∈ ls, l.o.price.isNaN = false) :
    sortDiffs ls = ls.mergeSort fun lhs rhs => decide (lhs.o.price.rank ≤ rhs.o.price.rank) := by
  have hsame : ∀ a ∈ ls, ∀ b ∈ ls, (!b.o.price.lt a.o.price) =
      decide (a.o.price.rank ≤ b.o.price.rank) := by
    intro a ha b hb
    rw [Double.lt_eq_decide (h b hb) (h a ha), ← decide_not]
    exact decide_eq_decide.mpr not_lt
  have hmap := List.map_mergeSort (f := id)
    (r := fun lhs rhs : DiffLine => !rhs.o.price.lt lhs.o.price)
    (s := fun lhs rhs : DiffLine => decide (lhs.o.price.rank ≤ rhs.o.price.rank)) hsame
  rwa [List.map_id, List.map_id] at hmap

/-- Sorted lines are as good as those along the walk. -/
theorem patch_sortDiffs {old new : List Order} (hold : StrictlySorted Order.id old)
    (hnew : StrictlySorted Order.id new) (hprices : ∀ o ∈ old ++ new, o.price.isNaN = false) :
    Patch old new (sortDiffs ((diff Order.id new old).flatMap editLines)) := by
  obtain ⟨hnews, holds⟩ : (diff Order.id new old).filterMap Edit.new? = new ∧
      (diff Order.id new old).filterMap Edit.old? = old := filterMap_diff new old
  have hperm : (sortDiffs ((diff Order.id new old).flatMap editLines)).Perm
      ((diff Order.id new old).flatMap editLines) := List.mergeSort_perm _ _
  have hnan : ∀ l ∈ (diff Order.id new old).flatMap editLines, l.o.price.isNaN = false := by
    intro l hl
    obtain ⟨e, he, hl⟩ := List.mem_flatMap.mp hl
    exact hprices _ (mem_of_mem_editLines (from_of_mem_diff _ he) hl)
  have htrans : ∀ a b c : DiffLine, decide (a.o.price.rank ≤ b.o.price.rank) = true →
      decide (b.o.price.rank ≤ c.o.price.rank) = true →
        decide (a.o.price.rank ≤ c.o.price.rank) = true := by
    intro a b c hab hbc
    exact decide_eq_true (le_trans (of_decide_eq_true hab) (of_decide_eq_true hbc))
  have htotal : ∀ a b : DiffLine, (decide (a.o.price.rank ≤ b.o.price.rank) ||
      decide (b.o.price.rank ≤ a.o.price.rank)) = true := by
    intro a b
    simpa using le_total a.o.price.rank b.o.price.rank
  constructor
  case sorted =>
    rw [sortDiffs_eq hnan]
    refine ((List.pairwise_mergeSort htrans htotal _).imp_of_mem ?_)
    intro a b ha hb hab
    rw [Double.lt_eq_decide (hnan b (List.mem_mergeSort.mp hb)) (hnan a (List.mem_mergeSort.mp ha))]
    exact decide_eq_false (not_lt.mpr (of_decide_eq_true hab))
  case olds =>
    have hwalk : olds ((diff Order.id new old).flatMap editLines) = old :=
      (olds_flatMap _).trans holds
    exact ((hperm.filter _).map _).trans (.of_eq hwalk)
  case news =>
    have hwalk : List.Forall₂ ShownAs ((diff Order.id new old).filterMap Edit.new?)
        (news ((diff Order.id new old).flatMap editLines)) :=
      news_flatMap fun e he => from_of_mem_diff _ he
    rw [hnews] at hwalk
    exact ⟨_, hwalk, (hperm.filter _).map _⟩
  case oldFirst =>
    intro l hl l' hl' ht ht' hid hprice
    have hpair := oldFirst_flatMap hold hnew (hperm.mem_iff.mp hl) (hperm.mem_iff.mp hl') ht ht' hid
    rw [sortDiffs_eq hnan]
    refine List.pair_sublist_mergeSort htrans htotal ?_ hpair
    rw [Double.lt_eq_decide (hnan l' (hperm.mem_iff.mp hl')) (hnan l (hperm.mem_iff.mp hl))]
      at hprice
    exact decide_eq_true (not_lt.mp (of_decide_eq_false hprice))

/-! ### One view after the other -/

/-- The reports on one view after the other. -/
def readViews : TritaniumBuyAnalysis → List (UInt32 × List Order) →
    Except Fault (List (Option Report))
  | _, [] => return []
  | s, (viewtime, view) :: views => do
    let (s, r) ← s.call viewtime view
    return r :: (← readViews s views)

section Views

variable {s : TritaniumBuyAnalysis} {viewtime : UInt32} {view : List Order}

/-- A view that was read is the last one for the next, and a report on it is one on what the
walk has met. -/
theorem call_eq_ok {s' : TritaniumBuyAnalysis} {r : Option Report}
    (h : s.call viewtime view = .ok (s', r)) :
    s'.lastOrders = selected view ∧ ∀ report, r = some report →
      report.tally.diffs = (diff Order.id (selected view) s.lastOrders).flatMap editLines := by
  rw [call, stepAndUpdate] at h
  split at h
  · -- there is no report on the first orders
    obtain ⟨rfl, rfl⟩ := Prod.mk.injEq .. ▸ Except.ok.inj h
    exact ⟨rfl, fun report hreport => absurd hreport (by simp)⟩
  · obtain ⟨r', hr, h⟩ := bind_eq_ok h
    obtain ⟨rfl, rfl⟩ := Prod.mk.injEq .. ▸ Except.ok.inj h
    refine ⟨rfl, fun report hreport => ?_⟩
    obtain rfl := hreport
    obtain ⟨isApart, -, hr⟩ := bind_eq_ok hr
    split at hr
    · split at hr
      · exact absurd hr (by simp)
      · obtain ⟨maxBuy, -, hr⟩ := bind_eq_ok hr
        obtain ⟨minSell, -, hr⟩ := bind_eq_ok hr
        obtain ⟨tally, htally, hr⟩ := bind_eq_ok hr
        obtain ⟨totalVolume, -, hr⟩ := bind_eq_ok hr
        obtain rfl := Option.some.inj (Except.ok.inj hr)
        exact diffs_of_run htally
    · exact absurd hr (by simp [pure, Except.pure])

/-- The views have distinct ids and prices that are numbers. -/
structure Sound (view : List Order) : Prop where
  ids : (view.map Order.id).Nodup
  prices : ∀ o ∈ view, o.price.isNaN = false

theorem mem_of_mem_selected {o : Order} (h : o ∈ selected view) : o ∈ view :=
  List.mem_of_mem_filter (List.mem_mergeSort.mp h)

/-- **Every report of a run leads from the view before to its own**: its lines are sorted by
price, those that are not new show the orders of the view before, those that are not old
show the orders of its own, and what an order was comes before what it is unless it has
become cheaper. -/
theorem report_patches {views : List (UInt32 × List Order)} {reports : List (Option Report)}
    (hlast : StrictlySorted Order.id s.lastOrders)
    (hprices : ∀ o ∈ s.lastOrders, o.price.isNaN = false)
    (hviews : ∀ v ∈ views, Sound v.2) (h : readViews s views = .ok reports) :
    List.Forall₂ (fun (v : List Order × List Order) r =>
        ∀ report, r = some report → Patch v.1 v.2 report.printed)
      ((s.lastOrders :: views.map fun v => selected v.2).zip
        (views.map fun v => selected v.2)) reports := by
  induction views generalizing s reports with
  | nil =>
    obtain rfl := Except.ok.inj h
    exact .nil
  | cons v views ih =>
    obtain ⟨hv, hviews⟩ := List.forall_mem_cons.mp hviews
    obtain ⟨⟨s', r⟩, hcall, h⟩ := bind_eq_ok h
    obtain ⟨reports, hreports, h⟩ := bind_eq_ok h
    obtain rfl := Except.ok.inj h
    obtain ⟨hlast', hdiffs⟩ := call_eq_ok hcall
    have hsorted := strictlySorted_selected hv.ids
    have hnan : ∀ o ∈ selected v.2, o.price.isNaN = false := by
      intro o ho
      exact hv.prices o (mem_of_mem_selected ho)
    have hrest := ih (hlast' ▸ hsorted) (hlast' ▸ hnan) hviews hreports
    rw [hlast'] at hrest
    refine .cons (fun report hreport => ?_) hrest
    rw [Report.printed, hdiffs report hreport]
    refine patch_sortDiffs hlast hsorted fun o ho => ?_
    rcases List.mem_append.mp ho with ho | ho
    · exact hprices o ho
    · exact hnan o ho

end Views

/-! ### An order that becomes cheaper -/

/-- A coil for sale at a price. -/
def coil (price : UInt64) : Order :=
  { Order.single 7 with type := 1248, stationId := 60003760, price := ⟨price⟩ }

/-- For sale at 5 and half an hour later at 4. -/
def coilViews : List (UInt32 × List Order) :=
  [(0, [coil 0x4014000000000000]), (1800, [coil 0x4010000000000000])]

theorem selected_coil (price : UInt64) : selected [coil price] = [coil price] := by
  rw [selected, List.filter_cons_of_pos (by simp [coil, Order.single]; decide), List.filter_nil,
    List.mergeSort_singleton]

/-- The reports on the two views. -/
theorem report_patches_coil : ∃ reports, readViews ⟨0, []⟩ coilViews = .ok reports ∧
    List.Forall₂ (fun (v : List Order × List Order) r =>
        ∀ report, r = some report → Patch v.1 v.2 report.printed)
      ([] :: coilViews.map (fun v => selected v.2) |>.zip
        (coilViews.map fun v => selected v.2)) reports := by
  obtain ⟨reports, hreports⟩ : ∃ reports, readViews ⟨0, []⟩ coilViews = .ok reports := by
    have hok : (readViews ⟨0, []⟩ coilViews).toOption.isSome = true := by
      simp only [coilViews, readViews, call, stepAndUpdate, selected_coil]
      decide +kernel
    cases hreports : readViews ⟨0, []⟩ coilViews with
    | error e =>
      rw [hreports] at hok
      exact absurd hok (by simp [Except.toOption])
    | ok reports => exact ⟨reports, rfl⟩
  refine ⟨reports, hreports, report_patches (s := ⟨0, []⟩) .nil (by simp) ?_ hreports⟩
  intro v hv
  rcases List.mem_pair.mp hv with rfl | rfl
  · exact ⟨by simp, by decide⟩
  · exact ⟨by simp, by decide⟩

end TritaniumBuyAnalysis
end Pricing
end EveIndustryPlanner
