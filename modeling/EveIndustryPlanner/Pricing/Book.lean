import EveIndustryPlanner.Pricing.Pages

/-!
# The stored book

A page replaces the book within its own id range only.  After the pages of an
archive the book consists of the pages and of the former orders that lie in the
range of no page, whether or not the archive still has them.

## Main definitions

* `Archive.WellOrdered` — sorted pages, each before the next.
* `Reachable` — the writers `extract2` leaves between two archives.

## Main results

* `writeView_eq_ok` — every well-ordered archive goes through.
* `mem_foldl_replacePage` — the book after some pages.
* `book_eq_pages_iff` — **the book is the archive's exactly if every former
  order lies in the range of some page.**
-/

namespace EveIndustryPlanner
namespace Pricing

/-- Pages that are not empty, sorted by id, and each of which ends before the next begins. -/
structure Archive.WellOrdered (archive : Archive) : Prop where
  nonempty : ∀ doc ∈ archive.docs, doc ≠ []
  sorted : ∀ doc ∈ archive.docs, StrictlySorted Order.id doc
  pages : archive.docs.Pairwise fun doc next => ∀ a ∈ doc, ∀ b ∈ next, a.id < b.id

theorem Archive.WellOrdered.flatten {archive : Archive} (h : archive.WellOrdered) :
    StrictlySorted Order.id archive.docs.flatten :=
  List.pairwise_flatten.mpr ⟨h.sorted, h.pages⟩

namespace JsonWriter

/-! ### Views -/

/-- The pages of a view go through on a sorted book, and replace their ranges. -/
theorem Settled.exists_run {w : JsonWriter} (hw : Settled w) {docs : List (List Order)}
    (h : ∀ doc ∈ docs, doc ≠ [] ∧ StrictlySorted Order.id doc) :
    ∃ w', docs.foldlM (extractDoc noCheck) w = .ok w' ∧ Settled w' ∧
      w'.activeOrders = docs.foldl replacePage w.activeOrders := by
  induction docs generalizing w with
  | nil => exact ⟨w, rfl, hw, rfl⟩
  | cons doc docs ih =>
    obtain ⟨hdoc, hsorted⟩ := h doc List.mem_cons_self
    obtain ⟨w₁, h₁, hw₁⟩ := hw.exists_extractDoc hdoc hsorted
    obtain ⟨_, _, _, _, hpage⟩ := pageWritten_of_extractDoc hdoc h₁
    obtain ⟨w', h', hw', hbook⟩ := ih hw₁ fun d hd => h d (List.mem_cons_of_mem doc hd)
    refine ⟨w', ?_, hw', ?_⟩
    · rw [List.foldlM_cons, h₁]
      exact h'
    · rw [hbook, hpage.activeOrders, List.foldl_cons]

theorem Settled.viewHeader {w : JsonWriter} (hw : Settled w) (archive : Archive) :
    Settled (w.viewHeader archive) := ⟨hw.sorted, hw.keys⟩

/-- Every archive with sorted pages goes through. -/
theorem Settled.exists_writeView {w : JsonWriter} (hw : Settled w) {archive : Archive}
    (h : ∀ doc ∈ archive.docs, doc ≠ [] ∧ StrictlySorted Order.id doc) :
    ∃ w', writeView noCheck w archive = .ok w' ∧ Settled w' ∧
      w'.activeOrders = archive.docs.foldl replacePage w.activeOrders :=
  (hw.viewHeader archive).exists_run h

/-- The writers between two archives, all of whose pages were sorted.  What the
replay does to the reader is left open. -/
inductive Reachable : JsonWriter → Prop
  | empty : Reachable empty
  | view {w w' : JsonWriter} (hw : Reachable w) (archive : Archive)
      (hpages : ∀ doc ∈ archive.docs, doc ≠ [] ∧ StrictlySorted Order.id doc)
      (hview : writeView noCheck w archive = .ok w') (reader : OrderReader) (readerPos : ℕ) :
    Reachable { w' with reader := reader, readerPos := readerPos }

theorem Reachable.settled {w : JsonWriter} (hw : Reachable w) : Settled w := by
  induction hw with
  | empty => exact Settled.empty
  | @view w w' hw archive hpages hview reader readerPos ih =>
    obtain ⟨w₁, h₁, hw₁, -⟩ := ih.exists_writeView hpages
    obtain rfl : w₁ = w' := Except.ok.inj (h₁.symm.trans hview)
    exact ⟨hw₁.sorted, hw₁.keys⟩

/-! ### The book after some pages -/

/-- A page ends below the pages after it. -/
theorem not_mem_later_range {doc next : List Order} (hnext : next ≠ [])
    (hlt : ∀ a ∈ doc, ∀ b ∈ next, a.id < b.id) {o : Order} (ho : o ∈ doc) :
    ¬ (firstId next ≤ o.id ∧ o.id ≤ lastId next) := by
  cases next with
  | nil => exact absurd rfl hnext
  | cons front next =>
    intro h
    exact absurd h.1 (not_le.mpr (hlt o ho front List.mem_cons_self))

/-- The book after some pages: the pages, and what lies in the range of none of them. -/
theorem mem_foldl_replacePage {docs : List (List Order)} {snapshot : List Order}
    (hne : ∀ doc ∈ docs, doc ≠ []) (hsorted : ∀ doc ∈ docs, StrictlySorted Order.id doc)
    (hpages : docs.Pairwise fun doc next => ∀ a ∈ doc, ∀ b ∈ next, a.id < b.id)
    (hsnap : StrictlySorted Order.id snapshot) {o : Order} :
    o ∈ docs.foldl replacePage snapshot ↔
      o ∈ docs.flatten ∨
        o ∈ snapshot ∧ ∀ doc ∈ docs, ¬ (firstId doc ≤ o.id ∧ o.id ≤ lastId doc) := by
  induction docs generalizing snapshot with
  | nil => simp
  | cons doc docs ih =>
    have hdoc := hsorted doc List.mem_cons_self
    have hlater := List.pairwise_cons.mp hpages
    have hnext := strictlySorted_replacePage hdoc hsnap (hne doc List.mem_cons_self)
    rw [List.foldl_cons, ih (fun d hd => hne d (List.mem_cons_of_mem doc hd))
      (fun d hd => hsorted d (List.mem_cons_of_mem doc hd)) hlater.2 hnext,
      mem_replacePage hsnap, List.flatten_cons, List.mem_append]
    constructor
    · rintro (ho | ⟨ho | ⟨ho, hout⟩, hall⟩)
      · exact Or.inl (Or.inr ho)
      · exact Or.inl (Or.inl ho)
      · exact Or.inr ⟨ho, List.forall_mem_cons.mpr ⟨hout, hall⟩⟩
    · rintro ((ho | ho) | ⟨ho, hall⟩)
      · -- an order of this page survives the pages after it
        refine Or.inr ⟨Or.inl ho, ?_⟩
        intro d hd
        exact not_mem_later_range (hne d (List.mem_cons_of_mem doc hd)) (hlater.1 d hd) ho
      · exact Or.inl ho
      · have hall := List.forall_mem_cons.mp hall
        exact Or.inr ⟨Or.inr ⟨ho, hall.1⟩, hall.2⟩

/-- The book is made of the pages alone exactly if the range of some page covers
each former order. -/
theorem foldl_replacePage_eq_flatten_iff {archive : Archive} (harchive : archive.WellOrdered)
    {snapshot : List Order} (hsnap : StrictlySorted Order.id snapshot)
    (hbook : StrictlySorted Order.id (archive.docs.foldl replacePage snapshot)) :
    archive.docs.foldl replacePage snapshot = archive.docs.flatten ↔
      ∀ o ∈ snapshot, ∃ doc ∈ archive.docs, firstId doc ≤ o.id ∧ o.id ≤ lastId doc := by
  have hmem : ∀ o, o ∈ archive.docs.foldl replacePage snapshot ↔ _ := fun o =>
    mem_foldl_replacePage harchive.nonempty harchive.sorted harchive.pages hsnap
  constructor
  · intro heq o ho
    by_contra hout
    have hall : ∀ doc ∈ archive.docs, ¬ (firstId doc ≤ o.id ∧ o.id ≤ lastId doc) := by
      intro doc hdoc hin
      exact hout ⟨doc, hdoc, hin⟩
    -- outside all ranges it stays in the book, but every order of the pages is inside one
    have hflat := heq ▸ (hmem o).mpr (Or.inr ⟨ho, hall⟩)
    obtain ⟨doc, hdoc, ho'⟩ := List.mem_flatten.mp hflat
    exact hall doc hdoc (mem_idRange (harchive.sorted doc hdoc) ho')
  · intro hcover
    refine hbook.ext harchive.flatten fun o => (hmem o).trans ⟨?_, Or.inl⟩
    rintro (ho | ⟨ho, hall⟩)
    · exact ho
    · obtain ⟨doc, hdoc, hin⟩ := hcover o ho
      exact absurd hin (hall doc hdoc)

/-- **The book is the archive's exactly if every former order lies in the range
of some page.** -/
theorem book_eq_pages_iff {w : JsonWriter} (hw : Reachable w) {archive : Archive}
    (harchive : archive.WellOrdered) :
    ∃ w', writeView noCheck w archive = .ok w' ∧
      (w'.activeOrders = archive.docs.flatten ↔
        ∀ o ∈ w.activeOrders, ∃ doc ∈ archive.docs, firstId doc ≤ o.id ∧ o.id ≤ lastId doc) := by
  obtain ⟨w', hview, hw', hbook⟩ := hw.settled.exists_writeView
    fun doc hdoc => ⟨harchive.nonempty doc hdoc, harchive.sorted doc hdoc⟩
  refine ⟨w', hview, ?_⟩
  rw [hbook]
  exact foldl_replacePage_eq_flatten_iff harchive hw.settled.sorted (hbook ▸ hw'.sorted)

/-- The writer after one archive. -/
theorem exists_reachable {archive : Archive} (harchive : archive.WellOrdered) :
    ∃ w, Reachable w ∧ w.activeOrders = archive.docs.foldl replacePage [] := by
  have hpages : ∀ doc ∈ archive.docs, doc ≠ [] ∧ StrictlySorted Order.id doc :=
    fun doc hdoc => ⟨harchive.nonempty doc hdoc, harchive.sorted doc hdoc⟩
  obtain ⟨w, hview, -, hbook⟩ := Settled.empty.exists_writeView hpages
  exact ⟨w, .view .empty archive hpages hview w.reader w.readerPos, hbook⟩

/-- With the orders 5 and 9 before it, an archive has a book of its own if the ranges of its
pages have both in them, and not if one is behind the last page. -/
theorem book_eq_pages_iff_twoPages :
    ∃ w, Reachable w ∧ w.activeOrders = [units 5 1, units 9 1] ∧
      (∃ w', writeView noCheck w ⟨60, [[units 4 1, units 6 1], [units 8 1, units 10 1]]⟩ = .ok w' ∧
        w'.activeOrders = [units 4 1, units 6 1, units 8 1, units 10 1]) ∧
      ∃ w', writeView noCheck w ⟨60, [[units 4 1, units 6 1], [units 7 1, units 8 1]]⟩ = .ok w' ∧
        w'.activeOrders ≠ [units 4 1, units 6 1, units 7 1, units 8 1] := by
  have hbefore : (⟨0, [[units 5 1], [units 9 1]]⟩ : Archive).WellOrdered :=
    ⟨by simp, by decide, by decide⟩
  obtain ⟨w, hw, hbook⟩ := exists_reachable hbefore
  have hbook : w.activeOrders = [units 5 1, units 9 1] := hbook.trans (by decide)
  have hboth : (⟨60, [[units 4 1, units 6 1], [units 8 1, units 10 1]]⟩ : Archive).WellOrdered :=
    ⟨by simp, by decide, by decide⟩
  have hone : (⟨60, [[units 4 1, units 6 1], [units 7 1, units 8 1]]⟩ : Archive).WellOrdered :=
    ⟨by simp, by decide, by decide⟩
  obtain ⟨w₁, hview₁, hiff₁⟩ := book_eq_pages_iff hw hboth
  obtain ⟨w₂, hview₂, hiff₂⟩ := book_eq_pages_iff hw hone
  rw [hbook] at hiff₁ hiff₂
  refine ⟨w, hw, hbook, ⟨w₁, hview₁, hiff₁.mpr (by decide)⟩, w₂, hview₂, fun heq => ?_⟩
  exact absurd (hiff₂.mp heq) (by decide)

/-- An order that vanished below the first page stays in the book. -/
theorem book_keeps_vanished_order :
    ∃ w w', Reachable w ∧ w.activeOrders = [Order.single 5] ∧
      (⟨1, [[Order.single 10]]⟩ : Archive).WellOrdered ∧
      writeView noCheck w ⟨1, [[Order.single 10]]⟩ = .ok w' ∧
      w'.activeOrders = [Order.single 5, Order.single 10] := by
  have hsingle : ∀ (t : UInt32) (k : UInt64),
      (⟨t, [[Order.single k]]⟩ : Archive).WellOrdered := fun t k =>
    ⟨by simp, by simp [StrictlySorted], List.pairwise_singleton _ _⟩
  obtain ⟨w, hw, hbook⟩ := exists_reachable (hsingle 0 5)
  have hpages : ∀ doc ∈ (⟨1, [[Order.single 10]]⟩ : Archive).docs,
      doc ≠ [] ∧ StrictlySorted Order.id doc :=
    fun doc hdoc => ⟨(hsingle 1 10).nonempty doc hdoc, (hsingle 1 10).sorted doc hdoc⟩
  obtain ⟨w', hview, -, hbook'⟩ := hw.settled.exists_writeView hpages
  refine ⟨w, w', hw, hbook, hsingle 1 10, hview, ?_⟩
  rw [hbook', hbook]
  decide

end JsonWriter
end Pricing
end EveIndustryPlanner
