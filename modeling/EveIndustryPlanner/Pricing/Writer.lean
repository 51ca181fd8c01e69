import EveIndustryPlanner.Lib.BinarySearch
import EveIndustryPlanner.Lib.SortedDiff
import EveIndustryPlanner.Pricing.Reader

/-!
# Writing the archive

The writer keeps the book it wrote last and a slot for each of its orders.  A
page of the next snapshot replaces the orders between the places that two binary
searches find for its first and its last id; the walk over the page and the orders
it replaces writes one record for each order that is new, has changed or has
vanished, and recycles the slots of those that have vanished.

## Main definitions

* `JsonWriter` — the writer.
* `newOrder`, `changedOrder`, `deletedOrder` — the three branches that write.
* `mergeLoop`, `newTail`, `deletedTail`, `mergeDoc` — the walk over one page.
* `lowerBound`, `upperBound`, `replacedBy`, `replacePage` — what a page replaces.
* `extractDoc`, `writeView`, `verify`, `extract2` — a page, a view, and the replay.
* `check`, `noCheck` — the self-test after each step, and none at all.

## Main results

* `mergeDoc_noCheck` — **without self-tests the walk is the edits of `diff`, one
  after the other.**
-/

namespace EveIndustryPlanner
namespace Pricing

/-- A snapshot of the market as it is read from an archive. -/
structure Archive where
  viewtime : UInt32
  /-- The orders, page by page. -/
  docs : List (List Order)

/-- The writer. -/
structure JsonWriter where
  /-- The book. -/
  activeOrders : List Order
  /-- The writer's own copy of the slots. -/
  activeOrders2 : List Order
  /-- The slot of each active order. -/
  index : UInt64 → Option Int32
  /-- Slots that can be used again, the oldest first. -/
  freeList : List Int32
  /-- The file up to `current_`. -/
  written : Bytes
  reader : OrderReader
  /-- How much of the file the reader has stepped over. -/
  readerPos : ℕ
  /-- The records written so far.  No step of the writer looks at it. -/
  records : List Record

/-- The test after a step: the writer, the bytes of the step and the number of
orders that are done give the reader after the test. -/
abbrev SelfCheck := JsonWriter → Bytes → ℕ → Except Fault OrderReader

/-- No test. -/
def noCheck : SelfCheck := fun w _ _ => .ok w.reader

namespace JsonWriter

/-- A writer on an empty file. -/
def empty : JsonWriter where
  activeOrders := []
  activeOrders2 := []
  index _ := none
  freeList := []
  written := []
  reader := OrderReader.ofText []
  readerPos := 0
  records := []

/-! ### Steps -/

/-- Copy bytes to `current_`. -/
def append (w : JsonWriter) (bytes : Bytes) : JsonWriter :=
  { w with written := w.written ++ bytes }

/-- Copy the bytes of a record to `current_`. -/
def put (w : JsonWriter) (record : Record) : JsonWriter :=
  { w with written := w.written ++ writeRecord record, records := w.records ++ [record] }

/-- A slot for a new order: one that is free, or the next one, counted from `1`. -/
def newIndex (w : JsonWriter) (current : Order) : JsonWriter × Int32 :=
  match w.freeList with
  | [] =>
    -- the number is the size after the copy has grown, so the slot is one past the order's own;
    -- what the copy holds is never read, only its size counts
    let orders := w.activeOrders2 ++ [current]
    ({ w with activeOrders2 := orders }, Int32.ofNat orders.length)
  | i :: free =>
    ({ w with freeList := free, activeOrders2 := w.activeOrders2.set (toSizeT i) current }, i)

/-- The branch for an order that is only in the page. -/
def newOrder (w : JsonWriter) (current : Order) : Except Fault JsonWriter :=
  match w.index current.id with
  | some _ => .error (.runtimeError "inconsistency")
  | none =>
    let (w, newIndex) := w.newIndex current
    let w := { w with index := Function.update w.index current.id (some newIndex) }
    .ok (w.put (.full newIndex current))

/-- The test of the branch for an order that is in the page and in the book. -/
def changed (current last : Order) : Bool :=
  !current.price.eq last.price || current.volume != last.volume

/-- The branch for an order that is in the page and in the book. -/
def changedOrder (w : JsonWriter) (current last : Order) : Except Fault JsonWriter :=
  if changed current last then
    match w.index current.id with
    | none => .error (.runtimeError "inconsistency")
    | some i =>
      let w := { w with activeOrders2 := w.activeOrders2.set (toSizeT i) current }
      .ok (w.put (.diff i ⟨2, current.price, current.volume⟩))
  else .ok w

/-- The branch for an order that is only in the book. -/
def deletedOrder (w : JsonWriter) (last : Order) : Except Fault JsonWriter :=
  match w.index last.id with
  | none => .error (.runtimeError "inconsistency")
  | some i =>
    let w := { w with
      freeList := w.freeList ++ [i]
      index := Function.update w.index last.id none
      activeOrders2 := w.activeOrders2.modify (toSizeT i) fun o => { o with volume := 0 } }
    .ok (w.put (.diff i ⟨2, last.price, 0⟩))

/-! ### The walk over a page -/

section Walk

variable (test : SelfCheck)

/-- The test after a step from `w` to `w'`. -/
def tested (w w' : JsonWriter) (orderCount : ℕ) : Except Fault JsonWriter := do
  let reader ← test w' (w'.written.drop w.written.length) orderCount
  return { w' with reader := reader }

/-- The loop over both lists, with what it leaves of them; `orderCount` is the
distance of `current` from the start of the book.  The loop is left before the
test when one of the lists has run out. -/
def mergeLoop (w : JsonWriter) (orderCount : ℕ) (doc old : List Order) :
    Except Fault (JsonWriter × ℕ × List Order × List Order) :=
  match doc, old with
  | current :: doc, last :: old =>
    if current.id < last.id then do
      let w' ← w.newOrder current
      -- the `break` of the end of the page comes before the test
      if doc = [] then return (w', orderCount + 1, doc, last :: old)
      let w' ← tested test w w' (orderCount + 1)
      mergeLoop w' (orderCount + 1) doc (last :: old)
    else if current.id = last.id then do
      let w' ← w.changedOrder current last
      if doc = [] ∨ old = [] then return (w', orderCount + 1, doc, old)
      let w' ← tested test w w' (orderCount + 1)
      mergeLoop w' (orderCount + 1) doc old
    else do
      let w' ← w.deletedOrder last
      if old = [] then return (w', orderCount, current :: doc, old)
      let w' ← tested test w w' orderCount
      mergeLoop w' orderCount (current :: doc) old
  | doc, old => .ok (w, orderCount, doc, old)
termination_by doc.length + old.length

/-- The loop over what is left of the page. -/
def newTail (w : JsonWriter) (orderCount : ℕ) : List Order → Except Fault JsonWriter
  | [] => .ok w
  | current :: doc => do
    let w' ← w.newOrder current
    let w' ← tested test w w' orderCount
    newTail w' (orderCount + 1) doc

/-- The loop over what is left of the orders the page replaces. -/
def deletedTail (w : JsonWriter) (orderCount : ℕ) : List Order → Except Fault JsonWriter
  | [] => .ok w
  | last :: old => do
    let w' ← w.deletedOrder last
    let w' ← tested test w w' orderCount
    deletedTail w' orderCount old

/-- The three loops. -/
def mergeDoc (w : JsonWriter) (orderCount : ℕ) (doc old : List Order) :
    Except Fault JsonWriter := do
  let (w, orderCount, doc, old) ← mergeLoop test w orderCount doc old
  let w ← newTail test w orderCount doc
  deletedTail test w (orderCount + doc.length) old

end Walk

/-! ### The walk without self-tests -/

/-- The branch of an edit. -/
def applyEdit (w : JsonWriter) : Edit Order → Except Fault JsonWriter
  | .add current => w.newOrder current
  | .keep current last => w.changedOrder current last
  | .drop last => w.deletedOrder last

@[simp] theorem tested_noCheck (w w' : JsonWriter) (n : ℕ) : tested noCheck w w' n = .ok w' := rfl

theorem newTail_noCheck (w : JsonWriter) (n : ℕ) (doc : List Order) :
    newTail noCheck w n doc = (doc.map .add).foldlM applyEdit w := by
  induction doc generalizing w n with
  | nil => rfl
  | cons current doc ih =>
    rw [newTail, List.map_cons, List.foldlM_cons, applyEdit]
    cases h : w.newOrder current with
    | error e => rfl
    | ok w' => rw [ok_bind, tested_noCheck, ok_bind, ok_bind, ih]

theorem deletedTail_noCheck (w : JsonWriter) (n : ℕ) (old : List Order) :
    deletedTail noCheck w n old = (old.map .drop).foldlM applyEdit w := by
  induction old generalizing w with
  | nil => rfl
  | cons last old ih =>
    rw [deletedTail, List.map_cons, List.foldlM_cons, applyEdit]
    cases h : w.deletedOrder last with
    | error e => rfl
    | ok w' => rw [ok_bind, tested_noCheck, ok_bind, ok_bind, ih]

theorem mergeDoc_of_nil (w : JsonWriter) (n : ℕ) (old : List Order) :
    mergeDoc noCheck w n [] old = (diff Order.id [] old).foldlM applyEdit w := by
  rw [mergeDoc, mergeLoop, diff, ok_bind]
  · exact deletedTail_noCheck w _ old
  · simp

theorem mergeDoc_of_old_nil (w : JsonWriter) (n : ℕ) (doc : List Order) :
    mergeDoc noCheck w n doc [] = (diff Order.id doc []).foldlM applyEdit w := by
  cases doc with
  | nil => exact mergeDoc_of_nil w n []
  | cons current doc =>
    rw [mergeDoc, mergeLoop, diff, ok_bind]
    · show (newTail _ _ _ _ >>= _) = _
      rw [newTail_noCheck]
      cases h : ((current :: doc).map .add).foldlM applyEdit w <;> rfl
    · simp
    · simp

/-- **Without self-tests the walk is the edits of `diff`, one after the other.** -/
theorem mergeDoc_noCheck (w : JsonWriter) (n : ℕ) (doc old : List Order) :
    mergeDoc noCheck w n doc old = (diff Order.id doc old).foldlM applyEdit w := by
  -- Along the walk of `diff`; where a list has run out the loop stops early, and
  -- the tails do what `diff` does from there.
  induction doc, old using diff.induct Order.id generalizing w n with
  | case1 old => exact mergeDoc_of_nil w n old
  | case2 doc hne => exact mergeDoc_of_old_nil w n doc
  | case3 current doc last old hlt ih =>
    rw [mergeDoc, mergeLoop, diff, if_pos hlt, if_pos hlt, List.foldlM_cons, applyEdit]
    cases h : w.newOrder current with
    | error e => rfl
    | ok w' =>
      simp only [ok_bind, tested_noCheck]
      rw [← ih w' (n + 1)]
      by_cases hdoc : doc = []
      · subst hdoc
        rw [if_pos rfl, mergeDoc, mergeLoop]
        · rfl
        · simp
      · rw [if_neg hdoc]
        rfl
  | case4 current doc last old hlt heq ih =>
    rw [mergeDoc, mergeLoop, diff, if_neg hlt, if_neg hlt, if_pos heq, if_pos heq,
      List.foldlM_cons, applyEdit]
    cases h : w.changedOrder current last with
    | error e => rfl
    | ok w' =>
      simp only [ok_bind, tested_noCheck]
      rw [← ih w' (n + 1)]
      by_cases hout : doc = [] ∨ old = []
      · rw [if_pos hout, mergeDoc, mergeLoop]
        · rfl
        · rintro a l b l' rfl rfl
          simp at hout
      · rw [if_neg hout]
        rfl
  | case5 current doc last old hlt heq ih =>
    rw [mergeDoc, mergeLoop, diff, if_neg hlt, if_neg hlt, if_neg heq, if_neg heq,
      List.foldlM_cons, applyEdit]
    cases h : w.deletedOrder last with
    | error e => rfl
    | ok w' =>
      simp only [ok_bind, tested_noCheck]
      rw [← ih w' n]
      by_cases hold : old = []
      · subst hold
        rw [if_pos rfl, mergeDoc, mergeLoop]
        · rfl
        · simp
      · rw [if_neg hold]
        rfl

/-! ### Pages and views -/

/-- The id of the first order of a page. -/
def firstId (doc : List Order) : UInt64 := (doc.headD default).id

/-- The id of the last order of a page. -/
def lastId (doc : List Order) : UInt64 := (doc.getLastD default).id

/-- `std::lower_bound`: where an id could be put in front of all that are not less. -/
def lowerBound (id : UInt64) (orders : List Order) : ℕ := partitionPoint (fun o => o.id < id) orders

/-- `std::upper_bound`: where an id could be put behind all that are not greater. -/
def upperBound (id : UInt64) (orders : List Order) : ℕ := partitionPoint (fun o => o.id ≤ id) orders

/-- The book from the place of the first order of a page on. -/
def behindFirst (snapshot doc : List Order) : List Order :=
  snapshot.drop (lowerBound (firstId doc) snapshot)

/-- The orders of the book a page replaces; the end is looked for behind the begin. -/
def replacedBy (snapshot doc : List Order) : List Order :=
  (behindFirst snapshot doc).take (upperBound (lastId doc) (behindFirst snapshot doc))

/-- The book with these replaced by the page. -/
def replacePage (snapshot doc : List Order) : List Order :=
  snapshot.take (lowerBound (firstId doc) snapshot) ++ doc ++
    (behindFirst snapshot doc).drop (upperBound (lastId doc) (behindFirst snapshot doc))

/-- The writer in front of the body of a page: the first and the last id and a
gap for the size are written, and the book is the next one. -/
def beginPage (w : JsonWriter) (doc : List Order) : JsonWriter :=
  let w := ((w.append (Pod.write (firstId doc))).append (Pod.write (lastId doc))).append [0, 0, 0, 0]
  { w with activeOrders := replacePage w.activeOrders doc }

/-- Fill in the size of a page's body in the gap at `header`. -/
def patchSize (w : JsonWriter) (header : ℕ) : JsonWriter :=
  { w with written := w.written.take header ++
      Pod.write (Int32.ofNat (w.written.length - header - 4)) ++ w.written.drop (header + 4) }

/-- One page.  Empty ones are skipped. -/
def extractDoc (test : SelfCheck) (w : JsonWriter) (doc : List Order) :
    Except Fault JsonWriter :=
  if doc = [] then .ok w
  else do
    let header := w.written.length + 16
    -- where the page starts in the book, before and after the replacement
    let current := lowerBound (firstId doc) w.activeOrders
    let w ← mergeDoc test (w.beginPage doc) current doc (replacedBy w.activeOrders doc)
    return w.patchSize header

/-- The writers after each of some pages. -/
def extractDocs (test : SelfCheck) (w : JsonWriter) :
    List (List Order) → Except Fault (List JsonWriter)
  | [] => .ok []
  | doc :: docs => do
    let w' ← extractDoc test w doc
    let ws ← extractDocs test w' docs
    return w' :: ws

/-- The time and the page count in front of a view.  The count is one byte. -/
def viewHeader (w : JsonWriter) (archive : Archive) : JsonWriter :=
  (w.append (Pod.write archive.viewtime)).append (Pod.write (Int8.ofNat archive.docs.length))

/-- What `extract2` writes for an archive. -/
def writeView (test : SelfCheck) (w : JsonWriter) (archive : Archive) : Except Fault JsonWriter :=
  archive.docs.foldlM (extractDoc test) (w.viewHeader archive)

/-! ### Self-tests -/

/-- `JsonWriter::check`: decode the record just written, apply pending changes
and compare with the first orders of the book. -/
def check : SelfCheck := fun w tmpdoc orderCount =>
  match w.reader.readStep tmpdoc with
  | none => .error .undefined
  | some (reader, _) => do
    let reader ← reader.finalize
    if reader.activeOrders.length < orderCount then
      .error (.runtimeError "not enough orders")
    else if ((reader.activeOrders.take orderCount).zip w.activeOrders).all fun (a, b) =>
        equalIgnoringIssued a b then .ok reader
    else .error (.runtimeError "order write/read mismatch")

/-- The orders of a reader that are not deleted, by id. -/
def liveOrders (r : OrderReader) : List Order :=
  (r.activeOrders.filter fun o => o.volume != 0).mergeSort fun a b => a.id ≤ b.id

/-- The replay of the view just written: the reader steps over it, and as many
of its orders as both sides have are compared with the book. -/
def verify (w : JsonWriter) : Except Fault JsonWriter :=
  match { w.reader with text := w.written.drop w.readerPos }.step with
  | none => .error .undefined
  | some reader =>
    -- the next replay starts after this view
    let w := { w with reader := reader, readerPos := w.written.length - reader.text.length }
    if ((liveOrders reader).zip w.activeOrders).all fun (a, b) => equalIgnoringIssued a b then
      .ok w
    else .error (.runtimeError "order write/read mismatch")

/-- One archive. -/
def extract2 (test : SelfCheck) (w : JsonWriter) (archive : Archive) : Except Fault JsonWriter := do
  let w ← w.writeView test archive
  w.verify

/-- The archives of a directory, the oldest first. -/
def write (test : SelfCheck) (w : JsonWriter) (archives : List Archive) : Except Fault JsonWriter :=
  archives.foldlM (extract2 test) w

end JsonWriter
end Pricing
end EveIndustryPlanner
