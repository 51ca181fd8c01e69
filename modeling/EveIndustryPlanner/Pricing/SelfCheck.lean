import EveIndustryPlanner.Pricing.RoundTrip

/-!
# The self-test of the writer

`check` decodes the record just written, calls `finalize` and compares.  Since
`finalize` throws on every reader, no call of `check` returns, and the writer
gets through an archive only if it never gets to call it.

## Main results

* `check_ne_ok` — no call of the self-test returns.
* `extract2_check_cases` — from an empty book the writer gets through an
  archive only if there is nothing in it.
* `write_check_succeeds_iff` — **the writer gets through exactly the archives
  without orders.**
-/

namespace EveIndustryPlanner
namespace Pricing
namespace JsonWriter

/-- No call of the self-test returns. -/
theorem check_ne_ok (w : JsonWriter) (tmpdoc : Bytes) (n : ℕ) (r : OrderReader) :
    check w tmpdoc n ≠ .ok r := by
  unfold check
  split
  · intro h
    exact absurd h (by simp)
  · -- whatever was decoded, `finalize` throws before anything is compared
    next reader _ _ =>
    rw [reader.finalize_eq_error, error_bind]
    intro h
    exact absurd h (by simp)

theorem not_succeeds_tested_check (w w' : JsonWriter) (n : ℕ) :
    ¬ Succeeds (tested check w w' n) := by
  rintro ⟨w₁, h⟩
  obtain ⟨r, hr, -⟩ := bind_eq_ok h
  exact check_ne_ok _ _ _ r hr

/-- What is left of a page is tested order by order. -/
theorem not_succeeds_newTail_check (w : JsonWriter) (n : ℕ) {doc : List Order} (hdoc : doc ≠ []) :
    ¬ Succeeds (newTail check w n doc) := by
  cases doc with
  | nil => exact absurd rfl hdoc
  | cons current doc =>
    rintro ⟨w', h⟩
    obtain ⟨w₁, -, h⟩ := bind_eq_ok h
    obtain ⟨w₂, htested, -⟩ := bind_eq_ok h
    exact not_succeeds_tested_check w w₁ n ⟨w₂, htested⟩

/-- On an empty book a page is all new. -/
theorem not_succeeds_extractDoc_check {w : JsonWriter} (hw : w.activeOrders = [])
    {doc : List Order} (hdoc : doc ≠ []) : ¬ Succeeds (extractDoc check w doc) := by
  rintro ⟨w', h⟩
  rw [extractDoc, if_neg hdoc, hw] at h
  obtain ⟨w₁, h, -⟩ := bind_eq_ok h
  -- nothing is replaced, so the loop over both lists leaves the page to the tail
  have hloop : ∀ n, mergeLoop check (w.beginPage doc) n doc (replacedBy [] doc) =
      .ok (w.beginPage doc, n, doc, []) := by
    intro n
    show mergeLoop check _ n doc [] = _
    rw [mergeLoop]
    simp
  rw [mergeDoc, hloop, ok_bind] at h
  obtain ⟨w₂, h, -⟩ := bind_eq_ok h
  exact not_succeeds_newTail_check _ _ hdoc ⟨w₂, h⟩

/-! ### Archives without pages -/

/-- An empty book, and a reader that has seen everything. -/
structure Idle (w : JsonWriter) : Prop where
  activeOrders : w.activeOrders = []
  readerPos : w.readerPos = w.written.length

theorem idle_empty : Idle empty := ⟨rfl, rfl⟩

/-- A view without pages is a time and a zero. -/
theorem step_viewHeader (r : OrderReader) {archive : Archive} (harchive : archive.docs = []) :
    { r with text := Pod.write archive.viewtime ++
        Pod.write (Int8.ofNat archive.docs.length) }.step =
      some { r with text := [], viewtime := archive.viewtime } := by
  rw [OrderReader.step, readView, harchive]
  simp [readPages]

theorem Idle.extract2 {w : JsonWriter} (hw : Idle w) {archive : Archive}
    (harchive : archive.docs = []) :
    ∃ w', JsonWriter.extract2 check w archive = .ok w' ∧ Idle w' := by
  have hview : writeView check w archive = .ok (w.viewHeader archive) := by
    rw [writeView, harchive]
    rfl
  have hdrop : (w.viewHeader archive).written.drop (w.viewHeader archive).readerPos =
      Pod.write archive.viewtime ++ Pod.write (Int8.ofNat archive.docs.length) := by
    show (w.written ++ _ ++ _).drop w.readerPos = _
    rw [hw.readerPos, List.append_assoc]
    exact List.drop_left
  rw [JsonWriter.extract2, hview, ok_bind, verify, hdrop, step_viewHeader _ harchive]
  refine ⟨_, if_pos ?_, ?_⟩
  · show ((liveOrders _).zip w.activeOrders).all _ = true
    rw [hw.activeOrders, List.zip_nil_right]
    rfl
  · exact ⟨hw.activeOrders, by simp⟩

/-- From an empty book the writer gets through an archive only if there is
nothing in it. -/
theorem extract2_check_cases {w w' : JsonWriter} (hw : Idle w) {archive : Archive}
    (hdocs : ∀ doc ∈ archive.docs, doc ≠ []) (h : extract2 check w archive = .ok w') :
    archive.docs = [] ∧ Idle w' := by
  have hnil : archive.docs = [] := by
    cases hd : archive.docs with
    | nil => rfl
    | cons doc docs =>
      obtain ⟨w₁, hview, -⟩ := bind_eq_ok h
      rw [writeView, hd, List.foldlM_cons] at hview
      obtain ⟨w₂, hdoc, -⟩ := bind_eq_ok hview
      have hne : doc ≠ [] := hdocs doc (hd ▸ List.mem_cons_self)
      exact absurd ⟨w₂, hdoc⟩
        (not_succeeds_extractDoc_check (w := w.viewHeader archive) hw.activeOrders hne)
  obtain ⟨w₁, hok, hidle⟩ := hw.extract2 hnil
  obtain rfl : w₁ = w' := Except.ok.inj (hok.symm.trans h)
  exact ⟨hnil, hidle⟩

theorem Idle.write_check_iff {w : JsonWriter} (hw : Idle w) {archives : List Archive}
    (hdocs : ∀ archive ∈ archives, ∀ doc ∈ archive.docs, doc ≠ []) :
    Succeeds (write check w archives) ↔ ∀ archive ∈ archives, archive.docs = [] := by
  induction archives generalizing w with
  | nil => exact ⟨fun _ _ h => absurd h List.not_mem_nil, fun _ => ⟨w, rfl⟩⟩
  | cons archive archives ih =>
    have hrest := fun a ha => hdocs a (List.mem_cons_of_mem archive ha)
    rw [write, List.foldlM_cons, List.forall_mem_cons]
    constructor
    · rintro ⟨w', h⟩
      obtain ⟨w₁, h₁, h⟩ := bind_eq_ok h
      obtain ⟨hnil, hw₁⟩ := extract2_check_cases hw (hdocs archive List.mem_cons_self) h₁
      exact ⟨hnil, (ih hw₁ hrest).mp ⟨w', h⟩⟩
    · rintro ⟨hnil, hall⟩
      obtain ⟨w₁, h₁, hw₁⟩ := hw.extract2 hnil
      rw [h₁]
      exact (ih hw₁ hrest).mpr hall

/-- **The writer gets through exactly the archives without orders.** -/
theorem write_check_succeeds_iff {archives : List Archive}
    (hdocs : ∀ archive ∈ archives, ∀ doc ∈ archive.docs, doc ≠ []) :
    Succeeds (write check empty archives) ↔ ∀ archive ∈ archives, archive.docs = [] :=
  idle_empty.write_check_iff hdocs

/-- Two archives without pages are written; three pages behind one of them are not. -/
theorem write_check_succeeds_iff_threePages :
    Succeeds (write check empty [⟨0, []⟩, ⟨60, []⟩]) ∧
      ¬ Succeeds (write check empty [⟨0, []⟩, ⟨60, threePages⟩]) := by
  constructor
  · exact (write_check_succeeds_iff (by simp)).mpr (by simp)
  · rw [write_check_succeeds_iff (by decide)]
    decide

/-- The first order of the first archive is rejected. -/
theorem check_rejects_single :
    Admissible [] (⟨0, [[Order.single 5]]⟩ : Archive).docs ∧
      ¬ Succeeds (write check empty [⟨0, [[Order.single 5]]⟩]) := by
  refine ⟨⟨⟨by simp, List.pairwise_singleton _ _, by decide, by decide, by simp⟩, trivial⟩, ?_⟩
  rw [idle_empty.write_check_iff (by simp)]
  simp

end JsonWriter
end Pricing
end EveIndustryPlanner
