import EveIndustryPlanner.Pricing.Slots

/-!
# What a page leaves behind

A page that went through the walk has replaced a part of the book and added its
header and its body to the file.  The walk goes through as long as it takes no order
for new whose id the book of that moment has.  Where the book and the page are sorted,
it always does, and what is replaced is the id range of the page.

## Main definitions

* `pageEdits`, `pageSize` — the edits of a page, and the bytes they take.
* `JsonWriter.PageWritten` — what a page that went through leaves behind.
* `Listed`, `Settled` — a writer between two pages, in whatever order its book is, and with
  a sorted one.
* `body`, `recordsBetween`, `between` — the body and the records of a page, and of
  each of some pages.

## Main results

* `pageWritten_of_extractDoc` — **a page that went through is `PageWritten`.**
* `Listed.exists_extractDoc_iff` — **a page goes through exactly if its edits find the book
  as they expect it.**
* `Settled.exists_extractDoc` — **on a sorted book every sorted page goes through.**
-/

namespace EveIndustryPlanner
namespace Pricing
namespace JsonWriter

/-- The edits that turn what a page replaces into the page. -/
def pageEdits (snapshot doc : List Order) : List (Edit Order) :=
  diff Order.id doc (replacedBy snapshot doc)

/-- The size of the body of a page: what the orders that are new, have changed
or have vanished take. -/
def pageSize (snapshot doc : List Order) : ℕ := ((pageEdits snapshot doc).map editSize).sum

/-- The bytes of a page. -/
def pageBytes (doc : List Order) (body : Bytes) : Bytes :=
  Pod.write (firstId doc) ++ Pod.write (lastId doc) ++ Pod.write (Int32.ofNat body.length) ++ body

/-- What a page that went through leaves behind. -/
structure PageWritten (w w' : JsonWriter) (doc : List Order) (rs : List Record) : Prop where
  activeOrders : w'.activeOrders = replacePage w.activeOrders doc
  reader : w'.reader = w.reader
  readerPos : w'.readerPos = w.readerPos
  records : w'.records = w.records ++ rs
  written : w'.written = w.written ++ pageBytes doc (rs.flatMap writeRecord)
  size : (rs.flatMap writeRecord).length = pageSize w.activeOrders doc
  length : w.activeOrders2.length ≤ w'.activeOrders2.length
  recognisable : (∀ o ∈ doc, o.buy ≠ 2) → ∀ r ∈ rs, r.Recognisable

/-- The size goes into its gap. -/
theorem written_patchSize {w : JsonWriter} {before gap body : Bytes} (hgap : gap.length = 4)
    (h : w.written = before ++ gap ++ body) :
    (w.patchSize before.length).written =
      before ++ Pod.write (Int32.ofNat body.length) ++ body := by
  have htake : w.written.take before.length = before := by
    rw [h, List.append_assoc]
    exact List.take_left
  have hdrop : w.written.drop (before.length + 4) = body := by
    rw [h]
    exact List.drop_left' (by rw [List.length_append, hgap])
  have hlen : w.written.length - before.length - 4 = body.length := by
    rw [h, List.length_append, List.length_append, hgap]
    omega
  show w.written.take before.length ++ _ ++ w.written.drop (before.length + 4) = _
  rw [htake, hdrop, hlen]

/-- **A page that went through is `PageWritten`.** -/
theorem pageWritten_of_extractDoc {w w' : JsonWriter} {doc : List Order} (hdoc : doc ≠ [])
    (h : extractDoc noCheck w doc = .ok w') :
    ∃ w₁ rs, (pageEdits w.activeOrders doc).foldlM applyEdit (w.beginPage doc) = .ok w₁ ∧
      w' = w₁.patchSize (w.written.length + 16) ∧ PageWritten w w' doc rs := by
  rw [extractDoc, if_neg hdoc] at h
  simp only [mergeDoc_noCheck] at h
  obtain ⟨w₁, hrun, h⟩ := bind_eq_ok h
  obtain rfl := Except.ok.inj h
  obtain ⟨rs, hwrote, hsize, hrec⟩ := Wrote.of_run hrun
  refine ⟨w₁, rs, hrun, rfl, ?_⟩
  -- the size is filled in last and touches nothing but the file
  constructor
  · exact hwrote.activeOrders
  · exact hwrote.reader
  · exact hwrote.readerPos
  · exact hwrote.records
  · have hpos : w.written.length + 16 =
        (w.written ++ Pod.write (firstId doc) ++ Pod.write (lastId doc)).length := by
      simp [Pod.size]
    rw [hpos]
    apply (written_patchSize rfl hwrote.written).trans
    show w.written ++ _ ++ _ ++ _ ++ _ = _
    simp only [pageBytes, List.append_assoc]
  · exact hsize
  · exact hwrote.length
  · intro hbuy
    apply hrec
    intro e he
    cases e with
    | add o => exact hbuy o (from_of_mem_diff Order.id he)
    | keep a b => trivial
    | drop b => trivial

/-! ### What was written between two writers -/

/-- The body of the page written between two writers. -/
def body (w w' : JsonWriter) : Bytes := w'.written.drop (w.written.length + 20)

/-- The records written between two writers. -/
def recordsBetween (w w' : JsonWriter) : List Record := w'.records.drop w.records.length

theorem PageWritten.body {w w' : JsonWriter} {doc : List Order} {rs : List Record}
    (h : PageWritten w w' doc rs) : body w w' = rs.flatMap writeRecord := by
  rw [JsonWriter.body, h.written, pageBytes, ← List.append_assoc]
  exact List.drop_left' (by simp [Pod.size])

theorem PageWritten.recordsBetween {w w' : JsonWriter} {doc : List Order} {rs : List Record}
    (h : PageWritten w w' doc rs) : recordsBetween w w' = rs := by
  rw [JsonWriter.recordsBetween, h.records]
  exact List.drop_left

/-- What `f` says of each writer and the one before it, the first after `w`. -/
def between {α : Type} (f : JsonWriter → JsonWriter → α) (w : JsonWriter) (ws : List JsonWriter) :
    List α :=
  List.zipWith f (w :: ws) ws

theorem between_cons {α : Type} (f : JsonWriter → JsonWriter → α) (w w₁ : JsonWriter)
    (ws : List JsonWriter) : between f w (w₁ :: ws) = f w w₁ :: between f w₁ ws := rfl

/-- On an empty book every order of a page is new. -/
theorem pageEdits_nil (doc : List Order) : pageEdits [] doc = doc.map .add := by
  cases doc <;> simp [pageEdits, replacedBy, behindFirst, diff]

theorem pageSize_nil (doc : List Order) : pageSize [] doc = 54 * doc.length := by
  rw [pageSize, pageEdits_nil, List.map_map]
  simp [Function.comp_def, editSize, mul_comm]

/-! ### Pages in any order -/

/-- What a page leaves of the book. -/
def leftBy (snapshot doc : List Order) : List Order :=
  snapshot.take (lowerBound (firstId doc) snapshot) ++
    (behindFirst snapshot doc).drop (upperBound (lastId doc) (behindFirst snapshot doc))

theorem perm_replacedBy (snapshot doc : List Order) :
    (replacedBy snapshot doc ++ leftBy snapshot doc).Perm snapshot := by
  have hsplit : snapshot.take (lowerBound (firstId doc) snapshot) ++
      (replacedBy snapshot doc ++
        (behindFirst snapshot doc).drop (upperBound (lastId doc) (behindFirst snapshot doc))) =
      snapshot := by
    rw [replacedBy, List.take_append_drop, behindFirst, List.take_append_drop]
  conv_rhs => rw [← hsplit]
  exact List.perm_append_comm_assoc ..

theorem mem_of_mem_replacedBy {snapshot doc : List Order} {o : Order}
    (ho : o ∈ replacedBy snapshot doc) : o ∈ snapshot :=
  List.mem_of_mem_drop (List.mem_of_mem_take ho)

theorem perm_replacePage (snapshot doc : List Order) :
    (doc ++ leftBy snapshot doc).Perm (replacePage snapshot doc) := by
  rw [replacePage, List.append_assoc]
  exact List.perm_append_comm_assoc ..

theorem filterMap_pageEdits (snapshot doc : List Order) :
    (pageEdits snapshot doc).filterMap Edit.new? = doc ∧
      (pageEdits snapshot doc).filterMap Edit.old? = replacedBy snapshot doc :=
  filterMap_diff doc (replacedBy snapshot doc)

/-- Edits that find the book as they expect it lead to the next one. -/
theorem foldl_pageEdits {snapshot doc : List Order} (hnodup : (snapshot.map Order.id).Nodup)
    (hvalid : Valid Order.id (lookup Order.id snapshot) (pageEdits snapshot doc)) :
    (pageEdits snapshot doc).foldl (Edit.apply Order.id) (lookup Order.id snapshot) =
        lookup Order.id (replacePage snapshot doc) ∧
      ((replacePage snapshot doc).map Order.id).Nodup := by
  obtain ⟨hnew, hold⟩ := filterMap_pageEdits snapshot doc
  have hbook := perm_replacedBy snapshot doc
  have hnodup := (hbook.map Order.id).nodup_iff.mpr hnodup
  rw [← lookup_perm hbook hnodup] at hvalid ⊢
  rw [← hold] at hnodup hvalid ⊢
  obtain ⟨hfold, hnext⟩ := foldl_apply_of_valid hnodup hvalid
  rw [hnew] at hfold hnext
  have hpage := perm_replacePage snapshot doc
  rw [hfold, lookup_perm hpage hnext]
  exact ⟨rfl, (hpage.map Order.id).nodup_iff.mp hnext⟩

/-- A writer between two pages: no two orders of its book have one id, and the ids with a
slot are those of the book. -/
structure Listed (w : JsonWriter) : Prop where
  nodup : (w.activeOrders.map Order.id).Nodup
  keys : Keys w (lookup Order.id w.activeOrders)

theorem Listed.empty : Listed empty := ⟨List.nodup_nil, fun _ => rfl⟩

/-- The walk over a page finds the book as it expects it: it takes no order for new whose
id the book of that moment has. -/
abbrev Walkable (book doc : List Order) : Prop :=
  Valid Order.id (lookup Order.id book) (pageEdits book doc)

/-- A page goes through if the run over its edits does. -/
theorem extractDoc_of_run {w w₁ : JsonWriter} {doc : List Order} (hdoc : doc ≠ [])
    {es : List (Edit Order)} (hedits : pageEdits w.activeOrders doc = es)
    (hrun : es.foldlM applyEdit (w.beginPage doc) = .ok w₁) :
    extractDoc noCheck w doc = .ok (w₁.patchSize (w.written.length + 16)) := by
  subst hedits
  rw [extractDoc, if_neg hdoc]
  simp only [mergeDoc_noCheck]
  show ((pageEdits w.activeOrders doc).foldlM applyEdit _ >>= _) = _
  rw [hrun]
  rfl

/-- **A page goes through exactly if its edits find the book as they expect it.** -/
theorem Listed.exists_extractDoc_iff {w : JsonWriter} (hw : Listed w) {doc : List Order}
    (hdoc : doc ≠ []) :
    (∃ w', extractDoc noCheck w doc = .ok w') ↔ Walkable w.activeOrders doc := by
  have hkeys : Keys (w.beginPage doc) (lookup Order.id w.activeOrders) := hw.keys
  have hbook := perm_replacedBy w.activeOrders doc
  constructor
  · rintro ⟨w', h⟩
    obtain ⟨w₁, rs, hrun, -⟩ := pageWritten_of_extractDoc hdoc h
    obtain ⟨-, hold⟩ := filterMap_pageEdits w.activeOrders doc
    have hnodup := (hbook.map Order.id).nodup_iff.mpr hw.nodup
    rw [Walkable, ← lookup_perm hbook hnodup, ← hold]
    rw [← lookup_perm hbook hnodup, ← hold] at hkeys
    rw [← hold] at hnodup
    exact hkeys.valid_of_run hnodup (fun e he => from_of_mem_diff Order.id he) hrun
  · intro hvalid
    -- every edit of the page finds the book as it expects it, so none of them throws
    obtain ⟨w₁, hrun, -⟩ := hkeys.run hvalid
    exact ⟨_, extractDoc_of_run hdoc rfl hrun⟩

/-- A page that went through leaves such a writer behind. -/
theorem Listed.of_extractDoc {w w' : JsonWriter} (hw : Listed w) {doc : List Order}
    (hdoc : doc ≠ []) (h : extractDoc noCheck w doc = .ok w') : Listed w' := by
  have hvalid := (hw.exists_extractDoc_iff hdoc).mp ⟨w', h⟩
  have hkeys : Keys (w.beginPage doc) (lookup Order.id w.activeOrders) := hw.keys
  obtain ⟨w₁, rs, hrun, rfl, hpage⟩ := pageWritten_of_extractDoc hdoc h
  obtain ⟨w₂, hrun', hkeys⟩ := hkeys.run hvalid
  obtain rfl := Except.ok.inj (hrun.symm.trans hrun')
  obtain ⟨hfold, hnodup⟩ := foldl_pageEdits hw.nodup hvalid
  constructor
  · rw [hpage.activeOrders]
    exact hnodup
  · rw [hpage.activeOrders, ← hfold]
    exact hkeys

/-! ### Sorted pages -/

section Sorted

variable {doc snapshot : List Order}

/-- A sorted page lies between its first and its last id. -/
theorem mem_idRange (hsorted : StrictlySorted Order.id doc) {o : Order} (ho : o ∈ doc) :
    firstId doc ≤ o.id ∧ o.id ≤ lastId doc :=
  hsorted.mem_range ho

theorem firstId_le_lastId (hdoc : doc ≠ []) (hsorted : StrictlySorted Order.id doc) :
    firstId doc ≤ lastId doc := by
  obtain ⟨o, ho⟩ := List.exists_mem_of_ne_nil doc hdoc
  exact (mem_idRange hsorted ho).1.trans (mem_idRange hsorted ho).2

/-- In a sorted book the searches find the places of the ids. -/
theorem partition_lt (hsnap : StrictlySorted Order.id snapshot) (id : UInt64) :
    snapshot.Pairwise fun a b => decide (b.id < id) → decide (a.id < id) :=
  hsnap.imp fun hab => by simpa using fun hb => hab.trans hb

theorem partition_le (hsnap : StrictlySorted Order.id snapshot) (id : UInt64) :
    snapshot.Pairwise fun a b => decide (b.id ≤ id) → decide (a.id ≤ id) :=
  hsnap.imp fun hab => by simpa using fun hb => hab.le.trans hb

theorem behindFirst_eq (hsnap : StrictlySorted Order.id snapshot) :
    behindFirst snapshot doc = snapshot.dropWhile fun o => o.id < firstId doc :=
  drop_partitionPoint (partition_lt hsnap _)

theorem partition_behindFirst (hsnap : StrictlySorted Order.id snapshot) (id : UInt64) :
    (behindFirst snapshot doc).Pairwise fun a b => decide (b.id ≤ id) → decide (a.id ≤ id) :=
  partition_le (hsnap.sublist (List.drop_sublist _ _)) id

/-- A page replaces its id range of a sorted book. -/
theorem replacedBy_eq (hsnap : StrictlySorted Order.id snapshot) :
    replacedBy snapshot doc = within Order.id (firstId doc) (lastId doc) snapshot := by
  rw [replacedBy, upperBound, take_partitionPoint (partition_behindFirst hsnap _),
    behindFirst_eq hsnap]
  rfl

theorem replacePage_eq (hsnap : StrictlySorted Order.id snapshot) :
    replacePage snapshot doc = splice Order.id (firstId doc) (lastId doc) doc snapshot := by
  rw [replacePage, upperBound, drop_partitionPoint (partition_behindFirst hsnap _),
    behindFirst_eq hsnap, lowerBound, take_partitionPoint (partition_lt hsnap _)]
  rfl

/-- A page keeps what lies outside its id range. -/
theorem mem_replacePage (hsnap : StrictlySorted Order.id snapshot) {o : Order} :
    o ∈ replacePage snapshot doc ↔
      o ∈ doc ∨ o ∈ snapshot ∧ ¬ (firstId doc ≤ o.id ∧ o.id ≤ lastId doc) := by
  rw [replacePage_eq hsnap]
  exact hsnap.mem_splice (firstId doc) (lastId doc)

variable (hsorted : StrictlySorted Order.id doc) (hsnap : StrictlySorted Order.id snapshot)
include hsorted hsnap

theorem strictlySorted_replacePage (hdoc : doc ≠ []) :
    StrictlySorted Order.id (replacePage snapshot doc) := by
  rw [replacePage_eq hsnap]
  exact hsnap.splice (firstId_le_lastId hdoc hsorted) hsorted fun _ => mem_idRange hsorted

/-- The edits of a page find the book as they expect it. -/
theorem walkable_of_sorted : Walkable snapshot doc := by
  rw [Walkable, pageEdits, replacedBy_eq hsnap]
  exact valid_diff hsorted (hsnap.within _ _) (hsnap.fits_within fun _ => mem_idRange hsorted)

end Sorted

/-- A writer between two pages: its book is sorted, and the ids with a slot are
those of the book. -/
structure Settled (w : JsonWriter) : Prop where
  sorted : StrictlySorted Order.id w.activeOrders
  keys : Keys w (lookup Order.id w.activeOrders)

theorem Settled.empty : Settled empty := ⟨List.Pairwise.nil, fun _ => rfl⟩

theorem Settled.listed {w : JsonWriter} (hw : Settled w) : Listed w :=
  ⟨hw.sorted.nodup_keys, hw.keys⟩

/-- **On a sorted book every sorted page goes through.** -/
theorem Settled.exists_extractDoc {w : JsonWriter} (hw : Settled w) {doc : List Order}
    (hdoc : doc ≠ []) (hsorted : StrictlySorted Order.id doc) :
    ∃ w', extractDoc noCheck w doc = .ok w' ∧ Settled w' := by
  obtain ⟨w', hok⟩ :=
    (hw.listed.exists_extractDoc_iff hdoc).mpr (walkable_of_sorted hsorted hw.sorted)
  obtain ⟨_, rs, -, -, hpage⟩ := pageWritten_of_extractDoc hdoc hok
  refine ⟨w', hok, ?_, (hw.listed.of_extractDoc hdoc hok).keys⟩
  rw [hpage.activeOrders]
  exact strictlySorted_replacePage hsorted hw.sorted hdoc

/-! ### Three pages -/

theorem extractDocs_cons {w w₁ : JsonWriter} {doc : List Order} {es : List (Edit Order)}
    {docs : List (List Order)} {ws : List JsonWriter} (hedits : pageEdits w.activeOrders doc = es)
    (hdoc : doc ≠ []) (hrun : es.foldlM applyEdit (w.beginPage doc) = .ok w₁)
    (hrest : extractDocs noCheck (w₁.patchSize (w.written.length + 16)) docs = .ok ws) :
    extractDocs noCheck w (doc :: docs) = .ok (w₁.patchSize (w.written.length + 16) :: ws) := by
  rw [extractDocs, extractDoc_of_run hdoc hedits hrun, ok_bind, hrest]
  rfl

/-- On the second page one order has another volume, one has vanished, and a new one gets its
slot; on the third page the one that had vanished is back. -/
def threePages : List (List Order) :=
  [[units 5 1, units 7 1], [units 5 2, units 8 1], [units 5 2, units 7 3]]

theorem pageEdits_second : pageEdits [units 5 1, units 7 1] [units 5 2, units 8 1] =
    [.keep (units 5 2) (units 5 1), .drop (units 7 1), .add (units 8 1)] := by
  have hreplaced : replacedBy [units 5 1, units 7 1] [units 5 2, units 8 1] =
      [units 5 1, units 7 1] := by decide
  rw [pageEdits, hreplaced]
  simp [diff, units, Order.single]

theorem pageEdits_third : pageEdits [units 5 2, units 8 1] [units 5 2, units 7 3] =
    [.keep (units 5 2) (units 5 2), .add (units 7 3)] := by
  have hreplaced : replacedBy [units 5 2, units 8 1] [units 5 2, units 7 3] = [units 5 2] := by
    decide
  rw [pageEdits, hreplaced]
  simp [diff, units, Order.single]

/-- What is known of a writer after one of the pages: its book, the slots of its orders, and
how much it has written. -/
structure Left (w : JsonWriter) (book : List Order) (slots : List (UInt64 × Option Int32))
    (copies size : ℕ) : Prop where
  activeOrders : w.activeOrders = book
  index : ∀ p ∈ slots, w.index p.1 = p.2
  freeList : w.freeList = []
  length : w.activeOrders2.length = copies
  written : w.written.length = size

set_option maxRecDepth 2000 in
/-- The three pages go through, and the slot of the order that vanishes goes to the new one. -/
theorem exists_extractDocs_threePages : ∃ w₁ w₂ w₃,
    extractDocs noCheck empty threePages = .ok [w₁, w₂, w₃] ∧
      Left w₁ [units 5 1, units 7 1] [(5, some 1), (7, some 2)] 2 128 ∧
      Left w₂ [units 5 2, units 8 1] [(5, some 1), (7, none), (8, some 2)] 2 236 ∧
      Left w₃ [units 5 2, units 7 3, units 8 1] [(5, some 1), (7, some 3), (8, some 2)] 3 310 := by
  refine ⟨_, _, _, extractDocs_cons (pageEdits_nil _) (by simp) (by rfl) (extractDocs_cons
    (by exact pageEdits_second) (by simp) (by rfl) (extractDocs_cons (by exact pageEdits_third)
    (by simp) (by rfl) (by rfl))), ⟨rfl, ?_, rfl, rfl, rfl⟩, ⟨rfl, ?_, rfl, rfl, rfl⟩,
    ⟨rfl, ?_, rfl, rfl, rfl⟩⟩
  all_goals
    simp only [List.forall_mem_cons, List.not_mem_nil, false_imp_iff, implies_true, and_true]
    refine ⟨?_, ?_⟩
  · rfl
  · rfl
  · rfl
  · exact ⟨rfl, rfl⟩
  · rfl
  · exact ⟨rfl, rfl⟩

end JsonWriter
end Pricing
end EveIndustryPlanner
