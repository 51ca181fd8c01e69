import EveIndustryPlanner.Pricing.Ownership

/-!
# Where the writer looks for its orders

The writer numbers its slots from one and keeps their orders in a vector whose
positions start at zero, and it uses the number of a slot as a position.  The
slot handed out last always lies past the end, so the first order already has
one that does.

## Main definitions

* `InRange` — every slot is a position.
* `accessed` — the position an edit uses.
* `lastWritten` — the order that was last written for each id.
* `Addressed` — slots are positions throughout, and hold what was written last.

## Main results

* `addressed_iff` — **slots are positions throughout exactly if no page has an order.**
-/

namespace EveIndustryPlanner
namespace Pricing
namespace JsonWriter

/-- Every slot, with its owner or free, is a position of the writer's copy. -/
def InRange (w : JsonWriter) : Prop := ∀ i, w.Handed i → toSizeT i < w.activeOrders2.length

/-- The position of the writer's copy that the branch of an edit uses. -/
def accessed (w : JsonWriter) : Edit Order → Option ℕ
  | .add _ => w.freeList.head?.map toSizeT
  | .keep a b => if changed a b then (w.index a.id).map toSizeT else none
  | .drop b => (w.index b.id).map toSizeT

/-! ### What was written last -/

/-- The orders written for each id after an edit. -/
def noteEdit (m : UInt64 → Option Order) : Edit Order → UInt64 → Option Order
  | .add o => Function.update m o.id (some o)
  | .keep a b => if changed a b then Function.update m a.id (some a) else m
  | .drop b => Function.update m b.id none

/-- The edits of some pages. -/
def runEdits : List Order → List (List Order) → List (Edit Order)
  | _, [] => []
  | book, [] :: docs => runEdits book docs
  | book, doc :: docs => pageEdits book doc ++ runEdits (replacePage book doc) docs

/-- The order that was last written for each id, after some pages. -/
def lastWritten (docs : List (List Order)) : UInt64 → Option Order :=
  (runEdits [] docs).foldl noteEdit fun _ => none

/-- The slot of each live order holds what was last written for it. -/
def HoldsLast (docs : List (List Order)) (w : JsonWriter) : Prop :=
  ∀ k i, w.index k = some i →
    ∃ o, o.id = k ∧ w.activeOrders2[toSizeT i]? = some o ∧ lastWritten docs k = some o

/-- Slots are positions throughout some pages, and hold what was written last. -/
structure Addressed (docs : List (List Order)) : Prop where
  between : ∀ pre w, pre <+: docs → Reached pre w → w.InRange ∧ w.HoldsLast pre
  within : ∀ pre doc w es w₁, pre ++ [doc] <+: docs → Reached pre w → Walking w doc es w₁ →
    w₁.InRange ∧ ∀ e es', es = e :: es' → ∀ n ∈ w₁.accessed e, n < w₁.activeOrders2.length

/-! ### The first order -/

theorem Walking.ne_nil {w w₁ : JsonWriter} {doc : List Order} {es : List (Edit Order)}
    (hwalk : Walking w doc es w₁) : doc ≠ [] := by
  induction hwalk with
  | start hdoc hfile => exact hdoc
  | edit hwalk hedit hfile ih => exact ih

/-- Empty pages are skipped. -/
theorem reached_of_forall_eq_nil {docs : List (List Order)} (h : ∀ doc ∈ docs, doc = []) :
    Reached docs empty := by
  induction docs using List.reverseRecOn with
  | nil => exact .empty
  | append_singleton docs doc ih =>
    obtain rfl := h doc (by simp)
    have hw := ih fun d hd => h d (List.mem_append_left _ hd)
    exact .page hw List.Pairwise.nil rfl (Nat.zero_le _)

/-- Without orders no slot is handed out. -/
theorem Reached.not_handed {docs : List (List Order)} {w : JsonWriter} (hw : Reached docs w)
    (h : ∀ doc ∈ docs, doc = []) (i : Int32) : ¬ w.Handed i := by
  induction hw with
  | empty =>
    rintro (⟨k, hk⟩ | hi)
    · exact absurd hk (by simp [JsonWriter.empty])
    · exact absurd hi (by simp [JsonWriter.empty])
  | @page docs w w' hw doc hsorted hpage hfile ih =>
    obtain rfl := h doc (by simp)
    obtain rfl : w = w' := Except.ok.inj hpage
    exact ih fun d hd => h d (List.mem_append_left _ hd)
  | view hw archive ih => exact ih h
  | replay hw reader readerPos ih => exact ih h

/-- The writer after the first order of the first page. -/
theorem exists_walking_first (o : Order) (doc : List Order) :
    ∃ w₁, Walking empty (o :: doc) (doc.map .add) w₁ ∧ w₁.index o.id = some 1 ∧
      w₁.activeOrders2 = [o] := by
  have hbegin : ((empty.beginPage (o :: doc)).written).length = 20 := by
    simp [beginPage, append, Pod.size, empty]
  have hstart : Walking empty (o :: doc) (.add o :: doc.map .add) (empty.beginPage (o :: doc)) := by
    have h := Walking.start (w := empty) (List.cons_ne_nil o doc) (hbegin ▸ by decide)
    rwa [show empty.activeOrders = [] from rfl, pageEdits_nil, List.map_cons] at h
  refine ⟨_, hstart.edit (applyEdit_eq_ok_iff.mpr (.fresh rfl rfl)) ?_, ?_, rfl⟩
  · simp only [put, List.length_append, hbegin, length_writeRecord_full]
    decide
  · exact Function.update_self ..

theorem exists_first_page {docs : List (List Order)} (h : ¬ ∀ doc ∈ docs, doc = []) :
    ∃ pre o doc, (∀ d ∈ pre, d = []) ∧ pre ++ [o :: doc] <+: docs := by
  induction docs with
  | nil => exact absurd (by simp) h
  | cons doc docs ih =>
    cases doc with
    | nil =>
      obtain ⟨pre, o, doc, hempty, hpre⟩ := ih (by simpa using h)
      exact ⟨[] :: pre, o, doc, by simpa using hempty, List.cons_prefix_cons.mpr ⟨rfl, hpre⟩⟩
    | cons o doc => exact ⟨[], o, doc, by simp, List.prefix_append [o :: doc] docs⟩

/-- **Slots are positions throughout exactly if no page has an order.** -/
theorem addressed_iff (docs : List (List Order)) : Addressed docs ↔ ∀ doc ∈ docs, doc = [] := by
  constructor
  · intro h
    by_contra hne
    obtain ⟨pre, o, doc, hempty, hpre⟩ := exists_first_page hne
    obtain ⟨w₁, hwalk, hindex, hcopy⟩ := exists_walking_first o doc
    -- the first slot is number one, and the copy has one order, at position zero
    have hlt := (h.within pre _ _ _ _ hpre (reached_of_forall_eq_nil hempty) hwalk).1 1
      (Or.inl ⟨o.id, hindex⟩)
    rw [hcopy, List.length_singleton] at hlt
    exact absurd hlt (by decide)
  · intro h
    constructor
    · intro pre w hpre hw
      have hnone := hw.not_handed fun d hd => h d (hpre.subset hd)
      exact ⟨fun i hi => absurd hi (hnone i), fun k i hi => absurd (Or.inl ⟨k, hi⟩) (hnone i)⟩
    · intro pre doc w es w₁ hpre hw hwalk
      exact absurd (h doc (hpre.subset (by simp))) hwalk.ne_nil

/-- The order of a second page: the one of the first, with another volume. -/
def revised : Order := { Order.single 5 with volume := 2 }

/-- An order that is seen again with another volume is looked for past the end. -/
theorem accessed_past_end :
    ∃ w w₁, Reached [[Order.single 5]] w ∧
      Walking w [revised] [.keep revised (Order.single 5)] w₁ ∧
      w₁.accessed (.keep revised (Order.single 5)) = some 1 ∧ w₁.activeOrders2.length = 1 ∧
      ¬ Addressed [[Order.single 5], [revised]] := by
  obtain ⟨w, hok, hlen, hw⟩ := reached_single
  obtain ⟨w₀, hrun, hindex, -, hcopy, -⟩ := exists_run_of_extractDoc (List.cons_ne_nil _ _) hok
  obtain ⟨_, _, -, -, hpage⟩ := pageWritten_of_extractDoc (List.cons_ne_nil _ _) hok
  -- the one order of the first page is in slot number one
  rw [show empty.activeOrders = [] from rfl, pageEdits_nil] at hrun
  obtain ⟨w₀', h₀, hrun⟩ := bind_eq_ok hrun
  obtain rfl : w₀' = w₀ := Except.ok.inj hrun
  obtain rfl : _ = w₀' := Except.ok.inj h₀
  have hindex : w.index 5 = some 1 := hindex ▸ rfl
  have hcopy : w.activeOrders2.length = 1 := hcopy ▸ rfl
  have hbook : w.activeOrders = [Order.single 5] := by
    rw [hpage.activeOrders]
    decide
  have hedits : pageEdits [Order.single 5] [revised] = [.keep revised (Order.single 5)] := by
    have hreplaced : replacedBy [Order.single 5] [revised] = [Order.single 5] := by decide
    rw [pageEdits, hreplaced]
    simp [diff, Order.single, revised]
  have hfile : (w.beginPage [revised]).written.length ≤ fileSize := by
    simp [beginPage, append, Pod.size, hlen, fileSize]
  have hwalk := Walking.start (List.cons_ne_nil _ _) hfile
  rw [hbook, hedits] at hwalk
  have haccess : (w.beginPage [revised]).accessed (.keep revised (Order.single 5)) = some 1 := by
    show (if changed revised (Order.single 5) then (w.index 5).map toSizeT else none) = _
    rw [hindex]
    decide
  refine ⟨w, _, hw, hwalk, haccess, hcopy, ?_⟩
  intro h
  have hlt := (h.within _ _ _ _ _ (List.prefix_refl _) hw hwalk).2 _ _ rfl 1 haccess
  have hcopy : (w.beginPage [revised]).activeOrders2.length = 1 := hcopy
  omega

end JsonWriter
end Pricing
end EveIndustryPlanner
