import EveIndustryPlanner.Pricing.Reader

/-!
# Views, and the calls of `read_orders`

Reading a view splits its text into the bodies of its pages and hands these to
the reader of bodies, one after the other.  The loop of `read_orders` steps once
before it first asks whether there is anything left to read.

## Main definitions

* `recordView` — the time and the bodies of one view.
* `OrderReader.call` — what the functor gets to see.

## Main results

* `readView_eq_record` — **any reader of bodies is run over the bodies of the view.**
* `OrderReader.step_eq_record` — one step hands the bodies of the next view to `readDoc`.
* `readOrders_eq_dropLast` — **the functor sees every view but the last.**
* `readOrders_ne_states` — no file has every one of its views seen.
-/

namespace EveIndustryPlanner
namespace Pricing

/-! ### Splitting a view into bodies -/

section Split

variable {σ : Type} (readDoc : σ → Bytes → Option σ)

/-- The body of one page, and what follows it. -/
def splitPage (text : Bytes) : Option (Bytes × Bytes) := readPage (fun _ doc => some doc) [] text

/-- The bodies of some pages, and what follows them. -/
def splitPages : ℕ → Bytes → Option (List Bytes × Bytes)
  | 0, text => some ([], text)
  | n + 1, text => do
    let (body, text) ← splitPage text
    let (bodies, text) ← splitPages n text
    return (body :: bodies, text)

/-- Keep the bodies. -/
def record (bodies : List Bytes) (doc : Bytes) : Option (List Bytes) := some (bodies ++ [doc])

/-- The time and the bodies of one view, and what follows it. -/
def recordView (text : Bytes) : Option (UInt32 × List Bytes × Bytes) := readView record [] text

theorem readPage_eq_split (s : σ) (text : Bytes) :
    readPage readDoc s text =
      (splitPage text).bind fun p => (readDoc s p.1).map fun s => (s, p.2) := by
  unfold splitPage readPage
  cases h₁ : Pod.read Int64 text with
  | none => rfl
  | some p₁ =>
    cases h₂ : Pod.read Int64 p₁.2 with
    | none => simp [h₂]
    | some p₂ =>
      cases h₃ : Pod.read Int32 p₂.2 with
      | none => simp [h₂, h₃]
      | some p₃ =>
        cases hs : readDoc s (p₃.2.take (toSizeT p₃.1)) <;>
          by_cases hle : toSizeT p₃.1 ≤ p₃.2.length <;> simp [h₂, h₃, hs, hle]

theorem readPages_eq_split (n : ℕ) (s : σ) (text : Bytes) :
    readPages readDoc n s text =
      (splitPages n text).bind fun p => (p.1.foldlM readDoc s).map fun s => (s, p.2) := by
  induction n generalizing s text with
  | zero => rfl
  | succ n ih =>
    rw [readPages, splitPages, readPage_eq_split]
    cases hp : splitPage text with
    | none => rfl
    | some p =>
      cases hs : readDoc s p.1 with
      | none => cases hps : splitPages n p.2 <;> simp [hs, hps]
      | some s' => cases hps : splitPages n p.2 <;> simp [hs, hps, ih]

theorem foldlM_record (log bodies : List Bytes) :
    bodies.foldlM record log = some (log ++ bodies) := by
  induction bodies generalizing log with
  | nil => simp
  | cons body bodies ih => simp [List.foldlM_cons, record, ih]

theorem recordView_eq (text : Bytes) :
    recordView text = (do
      let (viewtime, text) ← Pod.read UInt32 text
      let (docCount, text) ← Pod.read Int8 text
      let (bodies, text) ← splitPages docCount.toInt.toNat text
      return (viewtime, bodies, text)) := by
  unfold recordView readView
  simp [readPages_eq_split, foldlM_record]

/-- **Any reader of bodies is run over the bodies of the view.** -/
theorem readView_eq_record (s : σ) (text : Bytes) :
    readView readDoc s text =
      (recordView text).bind fun v => (v.2.1.foldlM readDoc s).map fun s => (v.1, s, v.2.2) := by
  rw [recordView_eq]
  unfold readView
  simp [readPages_eq_split, Option.bind_assoc, Option.map_eq_bind]

end Split

namespace OrderReader

/-- One step hands the bodies of the next view to `readDoc`. -/
theorem step_eq_record (r : OrderReader) :
    r.step = (recordView r.text).bind fun v =>
      (v.2.1.foldlM readDoc r).map fun r' => { r' with text := v.2.2, viewtime := v.1 } := by
  rw [step, readView_eq_record]
  simp [Option.bind_assoc, Option.map_eq_bind]

/-! ### The calls of `read_orders` -/

/-- What the functor gets to see of a reader. -/
def call (r : OrderReader) : UInt32 × List Order := (r.viewtime, r.activeOrders)

theorem forEach_eq_dropLast {r : OrderReader} {states : List OrderReader}
    (h : viewDrain.trace r = some states) :
    r.forEach = some ((r :: states).dropLast.map call) := by
  -- The functor sees a reader only once the text after it has been stepped over.
  induction states generalizing r with
  | nil =>
    rcases Drain.trace_eq_some_cases h with ⟨hz, -⟩ | ⟨s', l', -, -, hl⟩
    · have hempty : r.text.length = 0 := hz
      rw [forEach, if_pos hempty]
      rfl
    · exact absurd hl (by simp)
  | cons s states ih =>
    rcases Drain.trace_eq_some_cases h with ⟨-, hl⟩ | ⟨s', l', hs, ht, hl⟩
    · exact absurd hl (by simp)
    · obtain ⟨rfl, rfl⟩ := List.cons.injEq .. ▸ hl
      have hstep : r.step = some s := hs
      have hleft : r.text.length ≠ 0 := Drain.size_ne_zero_of_step hs
      rw [forEach, if_neg hleft]
      split
      · next hn => exact absurd (hstep.symm.trans hn) (by simp)
      · next s₁ hs₁ =>
        obtain rfl := Option.some.inj (hstep.symm.trans hs₁)
        rw [ih ht]
        rfl

end OrderReader

/-- **The functor sees every view but the last**: `states` are the readers after
each view of a file. -/
theorem readOrders_eq_dropLast {text : Bytes} {states : List OrderReader}
    (h : OrderReader.viewDrain.trace (.ofText text) = some states) (hne : states ≠ []) :
    readOrders text = some (states.dropLast.map OrderReader.call) := by
  rcases Drain.trace_eq_some_cases h with ⟨-, hnil⟩ | ⟨r, l, hs, ht, rfl⟩
  · exact absurd hnil hne
  · have hstep : (OrderReader.ofText text).step = some r := hs
    rw [readOrders, hstep]
    exact OrderReader.forEach_eq_dropLast ht

/-- No file has every one of its views seen. -/
theorem readOrders_ne_states {text : Bytes} {states : List OrderReader}
    (h : OrderReader.viewDrain.trace (.ofText text) = some states) (hne : states ≠ []) :
    readOrders text ≠ some (states.map OrderReader.call) := by
  rw [readOrders_eq_dropLast h hne]
  intro heq
  -- one call is missing
  have hlen := congrArg List.length (Option.some.inj heq)
  rw [List.length_map, List.length_map, List.length_dropLast] at hlen
  have := List.length_pos_iff.mpr hne
  omega

/-! ### Three views -/

/-- A page with one record. -/
def pageOf (record : Record) : Bytes :=
  Pod.write (5 : UInt64) ++ Pod.write (5 : UInt64) ++
    Pod.write (Int32.ofNat (writeRecord record).length) ++ writeRecord record

/-- A view without pages. -/
def afterSecond : Bytes := Pod.write (120 : UInt32) ++ Pod.write (0 : Int8)

/-- A view of one page with a diff of an order, and the one without pages. -/
def afterFirst : Bytes :=
  Pod.write (60 : UInt32) ++ Pod.write (1 : Int8) ++ pageOf (.diff 1 ⟨2, ⟨0⟩, 3⟩) ++ afterSecond

/-- A view of one page with the order, and these two. -/
def threeViews : Bytes :=
  Pod.write (0 : UInt32) ++ Pod.write (1 : Int8) ++ pageOf (.full 1 (units 5 1)) ++ afterFirst

theorem recordView_pageOf (viewtime : UInt32) (record : Record) (rest : Bytes) :
    recordView (Pod.write viewtime ++ Pod.write (1 : Int8) ++ pageOf record ++ rest) =
      some (viewtime, [writeRecord record], rest) := by
  have hsize : toSizeT (Int32.ofNat (writeRecord record).length) = (writeRecord record).length := by
    apply toSizeT_ofNat
    cases record <;> simp [writeRecord, Pod.size]
  -- the ids are read as signed ones, and nobody looks at them
  have hid : ∀ (k : UInt64) (bs : Bytes), ∃ i, Pod.read Int64 (Pod.write k ++ bs) = some (i, bs) :=
    fun k bs => ⟨_, Pod.read_append (by rw [Pod.length_write]; rfl) bs⟩
  obtain ⟨i, hi⟩ := hid 5 (Pod.write (5 : UInt64) ++
    (Pod.write (Int32.ofNat (writeRecord record).length) ++ (writeRecord record ++ rest)))
  obtain ⟨j, hj⟩ := hid 5
    (Pod.write (Int32.ofNat (writeRecord record).length) ++ (writeRecord record ++ rest))
  rw [recordView_eq, pageOf]
  simp [Pod.read_write, splitPages, splitPage, readPage, hi, hj, hsize]

/-- A step over a view of one page with one record. -/
theorem OrderReader.step_of_record {r : OrderReader} {viewtime : UInt32} {record : Record}
    {rest : Bytes} {slots : List Order}
    (htext : r.text = Pod.write viewtime ++ Pod.write (1 : Int8) ++ pageOf record ++ rest)
    (hrec : record.Recognisable) (happly : record.apply r.activeOrders = some slots) :
    r.step = some { r with activeOrders := slots, text := rest, viewtime := viewtime } := by
  have hdoc : r.readDoc (writeRecord record) = some { r with activeOrders := slots } := by
    have hone : ∀ r ∈ [record], r.Recognisable := by simpa using hrec
    have hbody := readDoc_writeRecords hone r
    simpa [applyRecords, happly] using hbody
  rw [step_eq_record, htext, recordView_pageOf, Option.bind_some, List.foldlM_cons, hdoc]
  rfl

/-- The three views, one after the other. -/
theorem exists_path_threeViews {r : OrderReader} (htext : r.text = threeViews)
    (hlen : 1 < r.activeOrders.length) :
    ∃ states, OrderReader.viewDrain.Path r states ∧
      (states.map fun r => (r.viewtime, r.activeOrders[1]?)) =
        [(0, some (units 5 1)), (60, some (units 5 3)), (120, some (units 5 3))] := by
  have hfull : (Record.full 1 (units 5 1)).apply r.activeOrders =
      some (r.activeOrders.set 1 (units 5 1)) := if_pos hlen
  have hslot : (r.activeOrders.set 1 (units 5 1))[1]? = some (units 5 1) :=
    List.getElem?_set_self hlen
  have hdiff : (Record.diff 1 ⟨2, ⟨0⟩, 3⟩).apply (r.activeOrders.set 1 (units 5 1)) =
      some ((r.activeOrders.set 1 (units 5 1)).set 1 (units 5 3)) := by
    have hindex : toSizeT 1 = 1 := rfl
    simp only [Record.apply, hindex, hslot]
    rfl
  have hbuy : (0 : Int8) ≠ 2 := by decide
  have hmark : (Record.diff 1 ⟨2, ⟨0⟩, 3⟩).Recognisable := rfl
  obtain ⟨r₁, hfirst, htime₁, hslots₁, htext₁⟩ : ∃ r₁, r.step = some r₁ ∧ r₁.viewtime = 0 ∧
      r₁.activeOrders = r.activeOrders.set 1 (units 5 1) ∧ r₁.text = afterFirst :=
    ⟨_, OrderReader.step_of_record htext hbuy hfull, rfl, rfl, rfl⟩
  rw [← hslots₁] at hdiff
  obtain ⟨r₂, hsecond, htime₂, hslots₂, htext₂⟩ : ∃ r₂, r₁.step = some r₂ ∧ r₂.viewtime = 60 ∧
      r₂.activeOrders = r₁.activeOrders.set 1 (units 5 3) ∧ r₂.text = afterSecond :=
    ⟨_, OrderReader.step_of_record htext₁ hmark hdiff, rfl, rfl, rfl⟩
  obtain ⟨r₃, hthird, htime₃, hslots₃, htext₃⟩ : ∃ r₃, r₂.step = some r₃ ∧ r₃.viewtime = 120 ∧
      r₃.activeOrders = r₂.activeOrders ∧ r₃.text = [] := by
    rw [OrderReader.step_eq_record, htext₂]
    exact ⟨_, rfl, rfl, rfl, rfl⟩
  refine ⟨[r₁, r₂, r₃], ⟨hfirst, hsecond, hthird, congrArg List.length htext₃⟩, ?_⟩
  simp [htime₁, htime₂, htime₃, hslots₁, hslots₂, hslots₃, hlen]

/-- The functor sees the first two of the three views. -/
theorem readOrders_ne_states_threeViews :
    ∃ states, OrderReader.viewDrain.trace (.ofText threeViews) = some states ∧
      (states.map fun r => (r.viewtime, r.activeOrders[1]?)) =
        [(0, some (units 5 1)), (60, some (units 5 3)), (120, some (units 5 3))] ∧
      readOrders threeViews ≠ some (states.map OrderReader.call) := by
  obtain ⟨states, hpath, hstates⟩ := exists_path_threeViews (r := .ofText threeViews) rfl
    (by rw [OrderReader.ofText, List.length_replicate]; decide)
  have htrace := Drain.trace_of_path hpath
  refine ⟨states, htrace, hstates, readOrders_ne_states htrace ?_⟩
  rintro rfl
  exact absurd hstates (by simp)

/-- A file of one view without pages. -/
def emptyView : Bytes := [0, 0, 0, 0, 0]

theorem trace_emptyView :
    OrderReader.viewDrain.trace (.ofText emptyView) =
      some [{ OrderReader.ofText emptyView with text := [] }] :=
  Drain.trace_of_path ⟨rfl, rfl⟩

/-- The one view of `emptyView` is not seen. -/
theorem readOrders_emptyView :
    ∃ state, OrderReader.viewDrain.trace (.ofText emptyView) = some [state] ∧
      readOrders emptyView = some [] :=
  ⟨_, trace_emptyView, readOrders_eq_dropLast trace_emptyView (by simp)⟩

end Pricing
end EveIndustryPlanner
