import EveIndustryPlanner.Fault
import EveIndustryPlanner.Lib.Drain
import EveIndustryPlanner.Pricing.Order

/-!
# Reading the archive back

The reader keeps a fixed number of slots.  A *view* of the archive is a view
time, a page count and the pages; a page is two order ids nobody looks at, the
size of its body and the body; a body is a sequence of records, each of which
overwrites a slot or changes price and volume of the order in it.

Reading past the end of the text and writing to a slot that does not exist are
undefined, which the functions below answer with `none`.

## Main definitions

* `OrderReader` — the reader; `slotCount` is the number of its slots.
* `OrderReader.readStep`, `OrderReader.readDoc` — one record, and one body.
* `readView`, `OrderReader.step` — one view, over any reader of bodies.
* `OrderReader.forEach`, `readOrders` — the iterator loop of `read_orders`.
* `OrderReader.finalize` — the merge of pending changes, as it stands.

## Main results

* `readDoc_writeRecords` — **a body of recognisable records is read record by record.**
* `finalize_eq_error` — `finalize` throws on every reader.
-/

namespace EveIndustryPlanner
namespace Pricing

/-! ### Slots -/

/-- `static_cast<std::size_t>` of a 32-bit integer: negative ones become huge. -/
def toSizeT (i : Int32) : ℕ := (i.toInt % 2 ^ 64).toNat

theorem toSizeT_ofNat {n : ℕ} (h : n < 2 ^ 31) : toSizeT (Int32.ofNat n) = n := by
  rw [toSizeT, Int32.toInt_ofNat_of_lt h]
  omega

/-- The number of slots of a reader. -/
def slotCount : ℕ := 600000

/-- The reader of an archive. -/
structure OrderReader where
  /-- The text that is left to read. -/
  text : Bytes
  viewtime : UInt32
  /-- The slots. -/
  activeOrders : List Order
  deleted : List UInt64
  inserted : List Order

/-- A reader at the start of a text, all of its slots zero. -/
def OrderReader.ofText (text : Bytes) : OrderReader where
  text := text
  viewtime := 0
  activeOrders := List.replicate slotCount default
  deleted := []
  inserted := []

/-- The slots after a record. -/
def Record.apply (slots : List Order) : Record → Option (List Order)
  | .full index o =>
    if toSizeT index < slots.length then some (slots.set (toSizeT index) o) else none
  | .diff index d =>
    match slots[toSizeT index]? with
    | some o => some (slots.set (toSizeT index) { o with volume := d.volume, price := d.price })
    | none => none

namespace OrderReader

/-- One record off the front of a body. -/
def readStep (r : OrderReader) (doc : Bytes) : Option (OrderReader × Bytes) := do
  let (record, doc) ← readRecord doc
  let slots ← record.apply r.activeOrders
  return ({ r with activeOrders := slots }, doc)

/-- The loop of `read_doc`. -/
def docDrain : Drain (OrderReader × Bytes) where
  size s := s.2.length
  step s := s.1.readStep s.2
  size_lt := by
    rintro ⟨r, doc⟩ ⟨r', rest⟩ h
    simp only [readStep, Option.bind_eq_bind, Option.bind_eq_some_iff] at h
    obtain ⟨⟨record, doc₁⟩, hrec, slots, -, h⟩ := h
    obtain ⟨-, rfl⟩ := Prod.mk.injEq .. ▸ Option.some.inj h
    exact length_of_readRecord hrec

/-- A body, record by record until nothing is left of it. -/
def readDoc (r : OrderReader) (doc : Bytes) : Option OrderReader :=
  (docDrain.run (r, doc)).map Prod.fst

/-- The reader after some records. -/
def applyRecords (r : OrderReader) (records : List Record) : Option OrderReader :=
  records.foldlM (fun r record => (record.apply r.activeOrders).map fun slots =>
    { r with activeOrders := slots }) r

end OrderReader

/-! ### A body of records -/

section Bodies

/-- The records of a body, as far as they are recognised: `none` if it does not
split into records. -/
def recordDrain : Drain (List Record × Bytes) where
  size s := s.2.length
  step s := (readRecord s.2).map fun (record, rest) => (s.1 ++ [record], rest)
  size_lt := by
    rintro ⟨log, doc⟩ ⟨log', rest⟩ h
    obtain ⟨⟨record, rest'⟩, hrec, h⟩ := Option.map_eq_some_iff.mp h
    obtain ⟨-, rfl⟩ := Prod.mk.injEq .. ▸ h
    exact length_of_readRecord hrec

/-- The records a body is read as. -/
def readRecords (doc : Bytes) : Option (List Record) := (recordDrain.run ([], doc)).map Prod.fst

theorem readStep_writeRecord {record : Record} (h : record.Recognisable) (r : OrderReader)
    (rest : Bytes) :
    r.readStep (writeRecord record ++ rest) =
      ((record.apply r.activeOrders).map fun slots =>
        { r with activeOrders := slots }).map (·, rest) := by
  rw [OrderReader.readStep, readRecord_writeRecord h]
  cases hs : record.apply r.activeOrders <;> simp [hs]

/-- **A body of recognisable records is read record by record.** -/
theorem readDoc_writeRecords {records : List Record} (h : ∀ r ∈ records, r.Recognisable)
    (r : OrderReader) : r.readDoc (records.flatMap writeRecord) = r.applyRecords records := by
  rw [OrderReader.readDoc, Drain.run_encoded (fun _ _ => rfl) writeRecord writeRecord_ne_nil
    (fun r record => (record.apply r.activeOrders).map fun slots =>
      { r with activeOrders := slots })
    (fun record hmem r rest => readStep_writeRecord (h record hmem) r rest),
    OrderReader.applyRecords, Option.map_map]
  simp [Function.comp_def]

/-- Every record of a body of recognisable ones is taken for what it is. -/
theorem readRecords_writeRecords {records : List Record} (h : ∀ r ∈ records, r.Recognisable) :
    readRecords (records.flatMap writeRecord) = some records := by
  -- the loop that keeps the records keeps all of them
  have hfold : ∀ (l log : List Record),
      l.foldlM (fun log record => some (log ++ [record])) log = some (log ++ l) := by
    intro l
    induction l with
    | nil => intro log; simp
    | cons record l ih => intro log; simp [List.foldlM_cons, ih]
  rw [readRecords, Drain.run_encoded (fun _ _ => rfl) writeRecord writeRecord_ne_nil
    (fun log record => some (log ++ [record]))
    (fun record hmem log rest => by
      show (readRecord _).map _ = _
      rw [readRecord_writeRecord (h record hmem)]
      rfl), hfold]
  rfl

end Bodies

/-! ### Views -/

section Views

variable {σ : Type}

/-- One page: its body goes to `readDoc`. -/
def readPage (readDoc : σ → Bytes → Option σ) (s : σ) (text : Bytes) : Option (σ × Bytes) := do
  let (_, text) ← Pod.read Int64 text
  let (_, text) ← Pod.read Int64 text
  let (docSize, text) ← Pod.read Int32 text
  let size := toSizeT docSize
  -- a size past the end of the text is cut for the body and undefined for what follows
  let s ← readDoc s (text.take size)
  if size ≤ text.length then return (s, text.drop size) else none

/-- A number of pages. -/
def readPages (readDoc : σ → Bytes → Option σ) : ℕ → σ → Bytes → Option (σ × Bytes)
  | 0, s, text => some (s, text)
  | n + 1, s, text => do
    let (s, text) ← readPage readDoc s text
    readPages readDoc n s text

/-- One view: its time, its page count and its pages. -/
def readView (readDoc : σ → Bytes → Option σ) (s : σ) (text : Bytes) :
    Option (UInt32 × σ × Bytes) := do
  let (viewtime, text) ← Pod.read UInt32 text
  let (docCount, text) ← Pod.read Int8 text
  let (s, text) ← readPages readDoc docCount.toInt.toNat s text
  return (viewtime, s, text)

end Views

namespace OrderReader

/-- One view off the front of the text. -/
def step (r : OrderReader) : Option OrderReader := do
  let (viewtime, r', text) ← readView readDoc r r.text
  return { r' with text := text, viewtime := viewtime }

end OrderReader

theorem length_of_readPage {σ : Type} {readDoc : σ → Bytes → Option σ} {s s' : σ}
    {text rest : Bytes} (h : readPage readDoc s text = some (s', rest)) :
    rest.length ≤ text.length := by
  simp only [readPage, Option.bind_eq_bind, Option.bind_eq_some_iff] at h
  obtain ⟨⟨_, text₁⟩, h₁, ⟨_, text₂⟩, h₂, ⟨docSize, text₃⟩, h₃, s₁, -, h⟩ := h
  -- the two ids and the size go first, then the body, however long it claims to be
  have hlen₁ : text.length = _ := Pod.length_of_read h₁
  have hlen₂ : text₁.length = _ := Pod.length_of_read h₂
  have hlen₃ : text₂.length = _ := Pod.length_of_read h₃
  split at h
  · obtain ⟨-, hrest⟩ := Prod.mk.injEq .. ▸ Option.some.inj h
    rw [← hrest]
    show (text₃.drop _).length ≤ _
    rw [List.length_drop]
    omega
  · exact absurd h (by simp)

theorem length_of_readPages {σ : Type} {readDoc : σ → Bytes → Option σ} {n : ℕ} {s s' : σ}
    {text rest : Bytes} (h : readPages readDoc n s text = some (s', rest)) :
    rest.length ≤ text.length := by
  induction n generalizing s text with
  | zero =>
    obtain ⟨-, rfl⟩ := Prod.mk.injEq .. ▸ Option.some.inj h
    exact le_rfl
  | succ n ih =>
    obtain ⟨⟨s₁, text₁⟩, h₁, h⟩ := Option.bind_eq_some_iff.mp h
    exact (ih h).trans (length_of_readPage h₁)

/-- A view takes at least its time and its page count. -/
theorem length_of_readView {σ : Type} {readDoc : σ → Bytes → Option σ} {s s' : σ} {t : UInt32}
    {text rest : Bytes} (h : readView readDoc s text = some (t, s', rest)) :
    rest.length < text.length := by
  simp only [readView, Option.bind_eq_bind, Option.bind_eq_some_iff] at h
  obtain ⟨⟨viewtime, text₁⟩, h₁, ⟨docCount, text₂⟩, h₂, ⟨s₁, text₃⟩, h₃, h⟩ := h
  have hlen₁ : text.length = 4 + text₁.length := Pod.length_of_read h₁
  have hlen₂ : text₁.length = 1 + text₂.length := Pod.length_of_read h₂
  have hlen₃ : text₃.length ≤ text₂.length := length_of_readPages h₃
  obtain ⟨-, h⟩ := Prod.mk.injEq .. ▸ Option.some.inj h
  obtain ⟨-, hrest⟩ := Prod.mk.injEq .. ▸ h
  rw [← hrest]
  show text₃.length < _
  omega

namespace OrderReader

/-- Repeated `step`. -/
def viewDrain : Drain OrderReader where
  size r := r.text.length
  step := step
  size_lt := by
    intro r r' h
    obtain ⟨⟨viewtime, r₁, text⟩, hview, h⟩ := Option.bind_eq_some_iff.mp h
    obtain rfl := Option.some.inj h
    exact length_of_readView hview

/-- The range-based loop of `read_orders` from an iterator that was already
stepped: `!=` looks only at the text that is left, and the functor sees what
the last step left. -/
def forEach (r : OrderReader) : Option (List (UInt32 × List Order)) :=
  if r.text.length = 0 then some []
  else
    match _h : r.step with
    | none => none
    | some r' => (forEach r').map ((r.viewtime, r.activeOrders) :: ·)
termination_by r.text.length
decreasing_by exact viewDrain.size_lt _h

end OrderReader

/-- The calls `read_orders` makes to its functor.  `begin()` already steps. -/
def readOrders (text : Bytes) : Option (List (UInt32 × List Order)) := do
  let r ← (OrderReader.ofText text).step
  r.forEach

/-! ### Pending changes -/

namespace OrderReader

/-- The merge loop of `finalize`: what is left of `inserted`, and the new list. -/
def finalizeLoop (snapshot inserted acc : List Order) : List Order × List Order :=
  match snapshot with
  | [] => (inserted, acc)
  | o :: snapshot =>
    -- what was inserted up to the id of `o` comes in front of it
    let before := inserted.takeWhile fun ins => ins.id ≤ o.id
    let inserted := inserted.dropWhile fun ins => ins.id ≤ o.id
    let acc := acc ++ before
    finalizeLoop snapshot inserted (if o.volume = 0 then acc else acc ++ [o])

/-- What `finalize` does after its three guards. -/
def finalizeMerge (r : OrderReader) : Except Fault OrderReader := do
  let (inserted, activeOrders) := finalizeLoop r.activeOrders r.inserted []
  if inserted ≠ [] then throw (.runtimeError "Did not insert all orders")
  if ¬ activeOrders.IsChain fun a b => a.id ≤ b.id then
    throw (.runtimeError "active_orders is not sorted")
  return { r with activeOrders := activeOrders, deleted := [], inserted := [] }

/-- Apply the changes in `deleted` and `inserted`.  Each of the three guards is
an `if` without braces over a print and a `throw`: the `if` takes the print
alone, and the `throw` is always reached. -/
def finalize (r : OrderReader) : Except Fault OrderReader := do
  let () ← Except.error (.runtimeError "active_orders is not sorted")
  let () ← Except.error (.runtimeError "deleted is not sorted")
  let () ← Except.error (.runtimeError "inserted is not sorted")
  r.finalizeMerge

/-- `finalize` throws on every reader. -/
theorem finalize_eq_error (r : OrderReader) :
    r.finalize = .error (.runtimeError "active_orders is not sorted") := rfl

end OrderReader

end Pricing
end EveIndustryPlanner
