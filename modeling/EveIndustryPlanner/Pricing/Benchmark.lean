import EveIndustryPlanner.Pricing.Framing
import EveIndustryPlanner.Pricing.Ownership

/-!
# Two decoders of one file

`read_orders_benchmark` takes a file apart like the reader does, but without
slots to put anything into.  It frames views and pages alike and takes each body
for a sequence of orders and diffs, where the reader expects the number of a slot
in front of each of them.  So the two agree as long as no page has a body.

Each decoder is followed by the pieces it cuts the bodies into: what it takes a
record for, and how many bytes of the body are gone after it.

## Main definitions

* `Piece`, `Page`, `View` — what a decoder cuts a file into.
* `pagePieces` — a body and its pieces, for any loop over bodies.
* `OrderReader.split` — the pieces of repeated `step`.
* `readOrdersBenchmark` — the pieces of the benchmark.
* `Agree` — both decoders come to the end of a file with the same pieces.
* `writtenSize` — the bytes that some archives take.

## Main results

* `OrderReader.stepPieces_map_fst` — what is cut is what `step` reads.
* `agree_iff_bodies` — **the decoders agree exactly if no body has a byte.**
* `agree_written_iff` — for a file of the writer, exactly if no archive has a page.
-/

namespace EveIndustryPlanner
namespace Pricing

/-! ### Pieces -/

/-- What a decoder takes a record for. -/
inductive RecordKind where
  | order
  | diff
  deriving DecidableEq, Repr

/-- A record, by its kind and its bytes. -/
structure Piece where
  kind : RecordKind
  size : ℕ
  deriving DecidableEq, Repr

/-- The pieces of the body of a page. -/
abbrev Page := List Piece

/-- The pages of a view. -/
abbrev View := List Page

/-- The kind a byte says. -/
def kindOf (byte : Option UInt8) : RecordKind := if byte = some 2 then .diff else .order

section Bodies

variable {ρ : Type} (p : Drain (ρ × Bytes)) (kind : Bytes → RecordKind)

/-- The piece between two ends of a body. -/
def pieceBetween (s s' : ρ × Bytes) : Piece := ⟨kind s.2, s.2.length - s'.2.length⟩

/-- A loop over a body, with the pieces it leaves added to the pages so far. -/
def pagePieces (s : ρ × View) (doc : Bytes) : Option (ρ × View) :=
  ((p.logged (pieceBetween kind)).run ((s.1, doc), [])).map fun s' => (s'.1.1, s.2 ++ [s'.2])

theorem pagePieces_map_fst (s : ρ × View) (doc : Bytes) :
    (pagePieces p kind s doc).map Prod.fst = (p.run (s.1, doc)).map Prod.fst := by
  rw [← @Drain.run_logged_map_fst _ p _ (pieceBetween kind) (s.1, doc) [], pagePieces,
    Option.map_map, Option.map_map]
  rfl

/-- The bodies of a view, each with its pieces. -/
theorem foldlM_pagePieces {Q : Piece → Prop}
    (hsize : ∀ (r : ρ) (doc : Bytes), p.size (r, doc) = doc.length)
    (hQ : ∀ s s', p.step s = some s' → Q (pieceBetween kind s s')) {bodies : List Bytes} {r r' : ρ}
    {pages pages' : View} (h : bodies.foldlM (pagePieces p kind) (r, pages) = some (r', pages')) :
    ∃ new, pages' = pages ++ new ∧
      List.Forall₂ (fun body page => (page = [] ↔ body = []) ∧ ∀ a ∈ page, Q a) bodies new := by
  induction bodies generalizing r pages with
  | nil =>
    obtain ⟨-, rfl⟩ := Prod.mk.injEq .. ▸ Option.some.inj h
    exact ⟨[], by simp, .nil⟩
  | cons body bodies ih =>
    rw [List.foldlM_cons] at h
    obtain ⟨s₁, h₁, h⟩ := Option.bind_eq_some_iff.mp h
    obtain ⟨⟨⟨r₁, rest⟩, page⟩, hrun, rfl⟩ := Option.map_eq_some_iff.mp h₁
    obtain ⟨notes, hpage, hnil, hnotes⟩ := Drain.notes_of_run_logged hrun
    obtain rfl : page = notes := by simpa using hpage
    obtain ⟨new, rfl, hnew⟩ := ih h
    refine ⟨page :: new, by simp, .cons ⟨?_, ?_⟩ hnew⟩
    · rw [hnil, hsize, List.length_eq_zero_iff]
    · intro a ha
      obtain ⟨s, s', hs, rfl⟩ := hnotes a ha
      exact hQ s s' hs

/-- Bodies without a byte have no pieces. -/
theorem foldlM_pagePieces_nil (hsize : ∀ (r : ρ) (doc : Bytes), p.size (r, doc) = doc.length)
    {bodies : List Bytes} (h : ∀ body ∈ bodies, body = []) (r : ρ) (pages : View) :
    bodies.foldlM (pagePieces p kind) (r, pages) = some (r, pages ++ bodies.map fun _ => []) := by
  induction bodies generalizing pages with
  | nil => simp
  | cons body bodies ih =>
    obtain rfl := h body List.mem_cons_self
    have hz : (p.logged (pieceBetween kind)).size ((r, []), []) = 0 := hsize r []
    rw [List.foldlM_cons, pagePieces, Drain.run_of_size_eq_zero hz]
    show bodies.foldlM _ (r, pages ++ [[]]) = _
    rw [ih fun b hb => h b (List.mem_cons_of_mem _ hb)]
    simp

end Bodies

/-! ### The reader -/

namespace OrderReader

/-- The reader looks at the byte after the number of the slot. -/
def recordKind (doc : Bytes) : RecordKind := kindOf doc[4]?

/-- One view, with its pieces. -/
def stepPieces (r : OrderReader) : Option (OrderReader × View) := do
  let (viewtime, (r', pages), text) ← readView (pagePieces docDrain recordKind) (r, []) r.text
  return ({ r' with text := text, viewtime := viewtime }, pages)

theorem stepPieces_eq (r : OrderReader) :
    r.stepPieces = (recordView r.text).bind fun v =>
      (v.2.1.foldlM (pagePieces docDrain recordKind) (r, [])).map fun s =>
        ({ s.1 with text := v.2.2, viewtime := v.1 }, s.2) := by
  rw [stepPieces, readView_eq_record]
  simp [Option.bind_assoc, Option.map_eq_bind]

theorem foldlM_pagePieces_map_fst (bodies : List Bytes) (r : OrderReader) (pages : View) :
    (bodies.foldlM (pagePieces docDrain recordKind) (r, pages)).map Prod.fst =
      bodies.foldlM readDoc r := by
  induction bodies generalizing r pages with
  | nil => rfl
  | cons body bodies ih =>
    rw [List.foldlM_cons, List.foldlM_cons]
    have hbody := pagePieces_map_fst docDrain recordKind (r, pages) body
    rw [show r.readDoc body = (docDrain.run (r, body)).map Prod.fst from rfl, ← hbody]
    cases h : pagePieces docDrain recordKind (r, pages) body with
    | none => rfl
    | some s => exact ih s.1 s.2

/-- What is cut is what `step` reads. -/
theorem stepPieces_map_fst (r : OrderReader) : r.stepPieces.map Prod.fst = r.step := by
  rw [stepPieces_eq, step_eq_record]
  cases recordView r.text with
  | none => rfl
  | some v =>
    show Option.map _ (Option.map _ _) = Option.map _ _
    rw [← foldlM_pagePieces_map_fst v.2.1 r [], Option.map_map, Option.map_map]
    rfl

theorem length_of_stepPieces {r r' : OrderReader} {pages : View}
    (h : r.stepPieces = some (r', pages)) : r'.text.length < r.text.length := by
  have hstep := r.stepPieces_map_fst
  rw [h] at hstep
  exact viewDrain.size_lt hstep.symm

/-- Repeated `step`, with the pieces of each view. -/
def split (r : OrderReader) : Option (List View) :=
  if r.text.length = 0 then some []
  else
    match _h : r.stepPieces with
    | none => none
    | some v => (split v.1).map (v.2 :: ·)
termination_by r.text.length
decreasing_by exact length_of_stepPieces (_h)

theorem split_of_text_ne_nil {r : OrderReader} (h : r.text ≠ []) :
    r.split = r.stepPieces.bind fun v => v.1.split.map (v.2 :: ·) := by
  rw [split, if_neg (by simpa using h)]
  split
  · next hn => rw [hn]; rfl
  · next v hv => rw [hv]; rfl

/-- The reader cuts off a number and an order, or a number and a diff. -/
theorem size_of_docDrain_step {s s' : OrderReader × Bytes} (h : docDrain.step s = some s') :
    (pieceBetween recordKind s s').size = 54 ∨ (pieceBetween recordKind s s').size = 17 := by
  obtain ⟨r, doc⟩ := s
  have h : r.readStep doc = some s' := h
  obtain ⟨⟨record, rest⟩, hrec, h⟩ := Option.bind_eq_some_iff.mp h
  obtain ⟨slots, -, h⟩ := Option.bind_eq_some_iff.mp h
  obtain rfl := Option.some.inj h
  show doc.length - rest.length = 54 ∨ doc.length - rest.length = 17
  rcases length_eq_of_readRecord hrec with h | h <;> omega

end OrderReader

/-! ### The benchmark -/

/-- One record of the benchmark: its first byte says what it is. -/
def benchmarkStep (doc : Bytes) : Option Bytes := do
  let buy ← doc.head?
  if buy = 2 then
    let (_, doc) ← Pod.read Diff doc
    return doc
  else
    let (_, doc) ← Pod.read Order doc
    return doc

/-- An order or a diff is cut off, nothing in front of it. -/
theorem length_of_benchmarkStep {doc rest : Bytes} (h : benchmarkStep doc = some rest) :
    doc.length = 50 + rest.length ∨ doc.length = 13 + rest.length := by
  simp only [benchmarkStep, Option.bind_eq_bind, Option.bind_eq_some_iff] at h
  obtain ⟨buy, -, h⟩ := h
  split at h
  · obtain ⟨⟨d, doc₁⟩, h₁, h⟩ := Option.bind_eq_some_iff.mp h
    obtain rfl := Option.some.inj h
    exact Or.inr (Pod.length_of_read h₁)
  · obtain ⟨⟨o, doc₁⟩, h₁, h⟩ := Option.bind_eq_some_iff.mp h
    obtain rfl := Option.some.inj h
    exact Or.inl (Pod.length_of_read h₁)

/-- The inner loop of the benchmark, which has no state but the body. -/
def benchmarkDrain : Drain (Unit × Bytes) where
  size s := s.2.length
  step s := (benchmarkStep s.2).map ((), ·)
  size_lt := by
    intro s s' h
    obtain ⟨rest, hrest, rfl⟩ := Option.map_eq_some_iff.mp h
    show rest.length < s.2.length
    rcases length_of_benchmarkStep hrest with h | h <;> omega

/-- The benchmark looks at the first byte. -/
def benchmarkKind (doc : Bytes) : RecordKind := kindOf doc.head?

theorem size_of_benchmarkDrain_step {s s' : Unit × Bytes} (h : benchmarkDrain.step s = some s') :
    (pieceBetween benchmarkKind s s').size = 50 ∨ (pieceBetween benchmarkKind s s').size = 13 := by
  obtain ⟨rest, hrest, rfl⟩ := Option.map_eq_some_iff.mp h
  show s.2.length - rest.length = 50 ∨ s.2.length - rest.length = 13
  rcases length_of_benchmarkStep hrest with h | h <;> omega

/-- One view of the benchmark, and what follows it. -/
def benchmarkView (text : Bytes) : Option (View × Bytes) := do
  let (_, text) ← Pod.read Int32 text
  let (docCount, text) ← Pod.read Int8 text
  let (s, text) ← readPages (pagePieces benchmarkDrain benchmarkKind) docCount.toInt.toNat ((), [])
    text
  return (s.2, text)

/-- The time of a view has the same width with a sign and without. -/
theorem read_viewtime {β : Type} (text : Bytes) (f : Bytes → Option β) :
    ((Pod.read Int32 text).bind fun p => f p.2) = (Pod.read UInt32 text).bind fun p => f p.2 := by
  unfold Pod.read
  by_cases h : 4 ≤ text.length
  · have hsigned : Pod.size Int32 ≤ text.length := h
    have hunsigned : Pod.size UInt32 ≤ text.length := h
    rw [if_pos hsigned, if_pos hunsigned]
    rfl
  · have hsigned : ¬ Pod.size Int32 ≤ text.length := h
    have hunsigned : ¬ Pod.size UInt32 ≤ text.length := h
    rw [if_neg hsigned, if_neg hunsigned]
    rfl

theorem benchmarkView_eq (text : Bytes) :
    benchmarkView text = (recordView text).bind fun v =>
      (v.2.1.foldlM (pagePieces benchmarkDrain benchmarkKind) ((), [])).map fun s =>
        (s.2, v.2.2) := by
  have hview := readView_eq_record (pagePieces benchmarkDrain benchmarkKind) ((), []) text
  have hread := read_viewtime text fun text => (Pod.read Int8 text).bind fun q =>
    (readPages (pagePieces benchmarkDrain benchmarkKind) q.1.toInt.toNat ((), []) q.2).bind fun v =>
      some (v.1.2, v.2)
  calc benchmarkView text
      = (readView (pagePieces benchmarkDrain benchmarkKind) ((), []) text).map fun v =>
          (v.2.1.2, v.2.2) := by
        apply hread.trans
        simp [readView, Option.bind_assoc, Option.map_eq_bind]
    _ = _ := by
        rw [hview]
        simp [Option.bind_assoc, Option.map_eq_bind]

theorem length_of_recordView {text rest : Bytes} {viewtime : UInt32} {bodies : List Bytes}
    (h : recordView text = some (viewtime, bodies, rest)) : rest.length < text.length :=
  length_of_readView h

theorem length_of_benchmarkView {text rest : Bytes} {pages : View}
    (h : benchmarkView text = some (pages, rest)) : rest.length < text.length := by
  rw [benchmarkView_eq] at h
  obtain ⟨⟨viewtime, bodies, rest'⟩, hview, h⟩ := Option.bind_eq_some_iff.mp h
  obtain ⟨s, -, h⟩ := Option.map_eq_some_iff.mp h
  obtain ⟨-, rfl⟩ := Prod.mk.injEq .. ▸ h
  exact length_of_recordView hview

/-- The benchmark, with the pieces of each view. -/
def readOrdersBenchmark (text : Bytes) : Option (List View) :=
  if text.length = 0 then some []
  else
    match _h : benchmarkView text with
    | none => none
    | some v => (readOrdersBenchmark v.2).map (v.1 :: ·)
termination_by text.length
decreasing_by exact length_of_benchmarkView (_h)

theorem readOrdersBenchmark_of_ne_nil {text : Bytes} (h : text ≠ []) :
    readOrdersBenchmark text =
      (benchmarkView text).bind fun v => (readOrdersBenchmark v.2).map (v.1 :: ·) := by
  rw [readOrdersBenchmark, if_neg (by simpa using h)]
  split
  · next hn => rw [hn]; rfl
  · next v hv => rw [hv]; rfl

/-! ### Agreement -/

/-- Both decoders come to the end of a file, with the same views, pages and pieces. -/
def Agree (text : Bytes) : Prop :=
  ∃ views, (OrderReader.ofText text).split = some views ∧ readOrdersBenchmark text = some views

/-- Pieces of 54 or 17 bytes are none of 50 or 13. -/
theorem forall_eq_nil_of_forall₂ {bodies : List Bytes} {pages : View}
    (h : List.Forall₂ (fun body page => (page = [] ↔ body = []) ∧
      ∀ a ∈ page, a.size = 54 ∨ a.size = 17) bodies pages)
    (h' : List.Forall₂ (fun body page => (page = [] ↔ body = []) ∧
      ∀ a ∈ page, a.size = 50 ∨ a.size = 13) bodies pages) :
    ∀ body ∈ bodies, body = [] := by
  induction h with
  | nil => simp
  | @cons body page bodies pages hpage hpages ih =>
    obtain ⟨hpage', hpages'⟩ := List.forall₂_cons.mp h'
    refine List.forall_mem_cons.mpr ⟨hpage.1.mp ?_, ih hpages'⟩
    rw [List.eq_nil_iff_forall_not_mem]
    intro a ha
    rcases hpage.2 a ha with h | h <;> rcases hpage'.2 a ha with h' | h' <;> omega

/-- **The decoders agree exactly if no body has a byte.** -/
theorem agree_iff_bodies (r : OrderReader) :
    (∃ views, r.split = some views ∧ readOrdersBenchmark r.text = some views) ↔
      ∃ views, decodeViews r.text = some views ∧ ∀ v ∈ views, ∀ body ∈ v.2, body = [] := by
  -- view by view: both frame it alike, and its pieces differ unless there are none
  induction hn : r.text.length using Nat.strong_induction_on generalizing r with
  | h n ih =>
    by_cases htext : r.text = []
    · have hlen : r.text.length = 0 := by simp [htext]
      rw [OrderReader.split, readOrdersBenchmark, decodeViews, if_pos hlen, if_pos hlen,
        if_pos hlen]
      exact iff_of_true ⟨[], rfl, rfl⟩ ⟨[], rfl, by simp⟩
    · rw [OrderReader.split_of_text_ne_nil htext, readOrdersBenchmark_of_ne_nil htext,
        decodeViews_of_ne_nil htext, OrderReader.stepPieces_eq, benchmarkView_eq]
      cases hview : recordView r.text with
      | none => simp
      | some v =>
        obtain ⟨viewtime, bodies, rest⟩ := v
        have ih : ∀ r' : OrderReader, r'.text = rest → _ := fun r' hr' =>
          ih rest.length (hn ▸ length_of_recordView hview) r' (hr' ▸ rfl)
        simp only [Option.bind_some]
        constructor
        · rintro ⟨views, hsplit, hbench⟩
          obtain ⟨v, hpages, hrest⟩ := Option.bind_eq_some_iff.mp hsplit
          obtain ⟨⟨r₁, pages⟩, hfold, rfl⟩ := Option.map_eq_some_iff.mp hpages
          obtain ⟨views₁, hviews, rfl⟩ := Option.map_eq_some_iff.mp hrest
          obtain ⟨v', hpages', hrest'⟩ := Option.bind_eq_some_iff.mp hbench
          obtain ⟨⟨⟨⟩, pages'⟩, hfold', rfl⟩ := Option.map_eq_some_iff.mp hpages'
          obtain ⟨views₂, hviews', heq⟩ := Option.map_eq_some_iff.mp hrest'
          obtain ⟨rfl, rfl⟩ : pages' = pages ∧ views₂ = views₁ := List.cons.injEq .. ▸ heq
          obtain ⟨new, hnew, hforall⟩ :=
            foldlM_pagePieces _ _ (Q := fun a => a.size = 54 ∨ a.size = 17) (fun _ _ => rfl)
              (fun _ _ => OrderReader.size_of_docDrain_step) hfold
          obtain ⟨new', hnew', hforall'⟩ :=
            foldlM_pagePieces _ _ (Q := fun a => a.size = 50 ∨ a.size = 13) (fun _ _ => rfl)
              (fun _ _ => size_of_benchmarkDrain_step) hfold'
          obtain rfl : new = new' := by
            rw [List.nil_append] at hnew hnew'
            exact hnew.symm.trans hnew'
          obtain ⟨frames, hframes, hall⟩ := (ih _ rfl).mp ⟨views₂, hviews, hviews'⟩
          exact ⟨_, Option.map_eq_some_iff.mpr ⟨frames, hframes, rfl⟩,
            List.forall_mem_cons.mpr ⟨forall_eq_nil_of_forall₂ hforall hforall', hall⟩⟩
        · rintro ⟨frames, hframes, hall⟩
          obtain ⟨frames', hframes', rfl⟩ := Option.map_eq_some_iff.mp hframes
          obtain ⟨hbodies, hall⟩ := List.forall_mem_cons.mp hall
          obtain ⟨views, hsplit, hbench⟩ :=
            (ih { r with text := rest, viewtime := viewtime } rfl).mpr ⟨frames', hframes', hall⟩
          refine ⟨(bodies.map fun _ => []) :: views, ?_, ?_⟩
          · rw [foldlM_pagePieces_nil _ _ (fun _ _ => rfl) hbodies]
            simpa using hsplit
          · rw [foldlM_pagePieces_nil _ _ (fun _ _ => rfl) hbodies]
            simpa using hbench

/-! ### Files of the writer -/

namespace JsonWriter

/-- What a size of zero may be the rest of. -/
theorem mod_eq_zero_of_toSizeT {n : ℕ} (h : toSizeT (Int32.ofNat n) = 0) : n % 2 ^ 32 = 0 := by
  have hlt := (Int32.ofNat n).toInt_lt
  have hle := (Int32.ofNat n).le_toInt
  have hzero : (Int32.ofNat n).toInt = 0 := by
    unfold toSizeT at h
    omega
  rw [Int32.toInt_ofNat', show Int32.size = 2 ^ 32 from rfl, Int.bmod_def] at hzero
  split at hzero <;> omega

/-- The first page of a file has a body, whatever becomes of its size. -/
theorem not_bodies_of_first_page {viewtime : UInt32} {doc : List Order} {body rest : Bytes}
    {pages : List Framed} (hcount : pages.length + 1 ≤ 127) (hdoc : doc ≠ [])
    (hbody : body.length = 54 * doc.length)
    (hfile : (viewBytes viewtime ((doc, body) :: pages) ++ rest).length ≤ fileSize) :
    ¬ ∃ views, decodeViews (viewBytes viewtime ((doc, body) :: pages) ++ rest) = some views ∧
      ∀ v ∈ views, ∀ body ∈ v.2, body = [] := by
  rintro ⟨views, hdecode, hall⟩
  have hne : viewBytes viewtime ((doc, body) :: pages) ++ rest ≠ [] :=
    List.append_ne_nil_of_left_ne_nil (viewBytes_ne_nil _ _) _
  rw [decodeViews_of_ne_nil hne] at hdecode
  obtain ⟨v, hview, hdecode⟩ := Option.bind_eq_some_iff.mp hdecode
  obtain ⟨views, -, rfl⟩ := Option.map_eq_some_iff.mp hdecode
  rw [recordView_viewBytes, List.length_cons, (toNat_toInt_ofNat_eq_iff _).mpr hcount] at hview
  obtain ⟨⟨bodies, text⟩, hpages, rfl⟩ := Option.map_eq_some_iff.mp hview
  obtain ⟨⟨first, text₁⟩, hpage, hpages⟩ := Option.bind_eq_some_iff.mp hpages
  obtain ⟨⟨bodies', text₂⟩, -, hpages⟩ := Option.bind_eq_some_iff.mp hpages
  obtain ⟨rfl, -⟩ := Prod.mk.injEq .. ▸ Option.some.inj hpages
  have hfirst : first = [] := hall _ List.mem_cons_self first List.mem_cons_self
  -- no multiple of 54 that fits the file has a size that is read as zero
  rw [pagesBytes, List.flatMap_cons, List.append_assoc, splitPage_pageBytes] at hpage
  split at hpage
  · obtain ⟨htake, -⟩ := Prod.mk.injEq .. ▸ Option.some.inj hpage
    rw [hfirst, List.take_eq_nil_iff] at htake
    have hpos := List.length_pos_iff.mpr hdoc
    have hlen : body.length ≤ fileSize := by
      simp only [viewBytes, pagesBytes, pageBytes, List.flatMap_cons, List.length_append] at hfile
      omega
    rcases htake with hzero | hnil
    · have hmod : body.length % 2 ^ 32 = 0 := mod_eq_zero_of_toSizeT hzero
      unfold fileSize at hlen
      omega
    · have hbodyNil : body = [] := (List.append_eq_nil_iff.mp hnil).1
      rw [hbodyNil, List.length_nil] at hbody
      omega
  · exact absurd hpage (by simp)

/-- A view without pages is framed as one. -/
theorem decodeViews_viewBytes_nil (viewtime : UInt32) (rest : Bytes) :
    decodeViews (viewBytes viewtime [] ++ rest) =
      (decodeViews rest).map ((viewtime, []) :: ·) := by
  have hne : viewBytes viewtime [] ++ rest ≠ [] :=
    List.append_ne_nil_of_left_ne_nil (viewBytes_ne_nil _ _) _
  have hview : recordView (viewBytes viewtime [] ++ rest) = some (viewtime, [], rest) :=
    recordView_viewBytes_iff.mpr ⟨rfl, ⟨by simp, by simp⟩, rfl⟩
  rw [decodeViews_of_ne_nil hne, hview]
  rfl

/-- A view without pages adds no bodies. -/
theorem emptyBodies_viewBytes_nil_iff (viewtime : UInt32) (text : Bytes) :
    (∃ views, decodeViews (viewBytes viewtime [] ++ text) = some views ∧
        ∀ v ∈ views, ∀ body ∈ v.2, body = []) ↔
      ∃ views, decodeViews text = some views ∧ ∀ v ∈ views, ∀ body ∈ v.2, body = [] := by
  rw [decodeViews_viewBytes_nil]
  constructor
  · rintro ⟨views, hviews, hall⟩
    obtain ⟨views', hviews', rfl⟩ := Option.map_eq_some_iff.mp hviews
    exact ⟨views', hviews', (List.forall_mem_cons.mp hall).2⟩
  · rintro ⟨views, hviews, hall⟩
    refine ⟨_, Option.map_eq_some_iff.mpr ⟨views, hviews, rfl⟩, ?_⟩
    exact List.forall_mem_cons.mpr ⟨by simp, hall⟩

/-- The bodies that are framed in a file are empty exactly if there are none. -/
theorem bodies_of_writeViews {archives : List Archive}
    (hdocs : ∀ archive ∈ archives, ∀ doc ∈ archive.docs, doc ≠ [])
    (hcount : ∀ archive ∈ archives, archive.docs.length ≤ 127) {w w' : JsonWriter}
    (hbook : w.activeOrders = []) {bodies : List (List Bytes)}
    (h : writeViews noCheck w archives = .ok (w', bodies)) :
    ∃ text, w'.written = w.written ++ text ∧ (text.length ≤ fileSize →
      ((∃ views, decodeViews text = some views ∧ ∀ v ∈ views, ∀ body ∈ v.2, body = []) ↔
        ∀ archive ∈ archives, archive.docs = [])) := by
  induction archives generalizing w bodies with
  | nil =>
    obtain ⟨rfl, -⟩ := Prod.mk.injEq .. ▸ Except.ok.inj h
    refine ⟨[], by simp, fun _ => iff_of_true ⟨[], by simp [decodeViews], by simp⟩ (by simp)⟩
  | cons archive archives ih =>
    have hall := h
    obtain ⟨ws, hws, h⟩ := bind_eq_ok h
    obtain ⟨⟨w₂, bodies₂⟩, hviews, h⟩ := bind_eq_ok h
    obtain ⟨rfl, -⟩ := Prod.mk.injEq .. ▸ Except.ok.inj h
    have hdocs' := fun a ha => hdocs a (List.mem_cons_of_mem archive ha)
    have hpages := pagesWritten_of_extractDocs (hdocs archive List.mem_cons_self) hws
    cases harchive : archive.docs with
    | nil =>
      obtain rfl : [] = ws := by
        rw [harchive] at hws
        exact Except.ok.inj hws
      obtain ⟨text, htext, hiff⟩ :=
        ih hdocs' (fun a ha => hcount a (List.mem_cons_of_mem archive ha))
          (w := w.viewHeader archive)
          hbook hviews
      refine ⟨viewBytes archive.viewtime [] ++ text, ?_, ?_⟩
      · rw [htext, viewHeader, harchive, viewBytes]
        simp [append, pagesBytes]
      · intro hfile
        have hiff := hiff (by rw [List.length_append] at hfile; omega)
        rw [List.forall_mem_cons, ← hiff, and_iff_right harchive]
        exact emptyBodies_viewBytes_nil_iff archive.viewtime text
    | cons doc docs =>
      -- a view of at least one page, whose orders are all new
      obtain ⟨views, hwritten, -, -⟩ := exists_views_of_writeViews hdocs' hviews
      have hsizes := hpages.sizes
      have hlen := hpages.length
      have hpagesWritten := hpages.written
      rw [harchive] at hsizes hlen hpagesWritten
      cases hbodies : between body (w.viewHeader archive) ws with
      | nil => exact absurd (hbodies ▸ hlen) (by simp)
      | cons first bodies₁ =>
        rw [hbodies] at hsizes hpagesWritten hlen
        rw [hwritten, hpagesWritten]
        have hfirst : first.length = 54 * doc.length := by
          have hsize : first.length = pageSize w.activeOrders doc :=
            (List.cons.injEq .. ▸ hsizes).1
          rw [hsize, hbook, pageSize_nil]
        refine ⟨viewBytes archive.viewtime ((doc, first) :: docs.zip bodies₁) ++
          views.flatMap fun v => viewBytes v.1 v.2, ?_, ?_⟩
        · have hzip : (docs.zip bodies₁).length = docs.length := by
            rw [List.length_zip]
            simp only [List.length_cons] at hlen
            omega
          rw [viewBytes, List.length_cons, hzip, viewHeader, harchive]
          simp [append, pagesBytes]
        · intro hfile
          refine iff_of_false (not_bodies_of_first_page ?_ ?_ hfirst hfile) ?_
          · have hle := hcount archive List.mem_cons_self
            rw [harchive, List.length_cons] at hle
            rw [List.length_zip]
            omega
          · exact hdocs archive List.mem_cons_self doc (by simp [harchive])
          · intro hnil
            exact absurd ((hnil archive List.mem_cons_self).symm.trans harchive) (by simp)

/-- For a file of the writer the decoders agree exactly if no archive has a page. -/
theorem agree_written_iff {archives : List Archive}
    (hdocs : ∀ archive ∈ archives, ∀ doc ∈ archive.docs, doc ≠ [])
    (hcount : ∀ archive ∈ archives, archive.docs.length ≤ 127) {w : JsonWriter}
    {bodies : List (List Bytes)} (h : writeViews noCheck empty archives = .ok (w, bodies))
    (hfile : w.written.length ≤ fileSize) :
    Agree w.written ↔ ∀ archive ∈ archives, archive.docs = [] := by
  obtain ⟨text, htext, hiff⟩ := bodies_of_writeViews hdocs hcount rfl h
  have htext : w.written = text := htext
  apply (agree_iff_bodies (OrderReader.ofText w.written)).trans
  show (∃ views, decodeViews w.written = some views ∧ _) ↔ _
  rw [htext]
  exact hiff (htext ▸ hfile)

/-! ### The size of a file -/

/-- The bytes of some archives, from the book in front of them. -/
def writtenSize : List Order → List Archive → ℕ
  | _, [] => 0
  | book, archive :: archives =>
    5 + ((pageSizes book archive.docs).map (· + 20)).sum +
      writtenSize (archive.docs.foldl replacePage book) archives

theorem length_pagesBytes (pages : List Framed) :
    (pagesBytes pages).length = (((pages.map Prod.snd).map List.length).map (· + 20)).sum := by
  induction pages with
  | nil => rfl
  | cons p pages ih =>
    rw [pagesBytes, List.flatMap_cons, List.length_append, ← pagesBytes, ih]
    simp [pageBytes, Pod.size]
    omega

/-- What is written for some archives. -/
theorem length_written_of_writeViews {w w' : JsonWriter} {archives : List Archive}
    {bodies : List (List Bytes)} (hdocs : ∀ archive ∈ archives, ∀ doc ∈ archive.docs, doc ≠ [])
    (h : writeViews noCheck w archives = .ok (w', bodies)) :
    w'.written.length = w.written.length + writtenSize w.activeOrders archives := by
  induction archives generalizing w w' bodies with
  | nil =>
    obtain ⟨rfl, rfl⟩ := Prod.mk.injEq .. ▸ Except.ok.inj h
    rfl
  | cons archive archives ih =>
    obtain ⟨hpages, hdocs⟩ := List.forall_mem_cons.mp hdocs
    obtain ⟨ws, hws, h⟩ := bind_eq_ok h
    obtain ⟨⟨w₂, bodies₂⟩, hviews, h⟩ := bind_eq_ok h
    obtain ⟨rfl, rfl⟩ := Prod.mk.injEq .. ▸ Except.ok.inj h
    have hview := pagesWritten_of_extractDocs hpages hws
    have hheader : (w.viewHeader archive).written.length = w.written.length + 5 := by
      simp [viewHeader, append, Pod.size]
    rw [ih hdocs hviews, hview.activeOrders, hview.written, List.length_append, length_pagesBytes,
      List.map_snd_zip hview.length.le, hview.sizes, hheader, writtenSize]
    show _ + 5 + ((pageSizes w.activeOrders archive.docs).map (· + 20)).sum +
      writtenSize (archive.docs.foldl replacePage w.activeOrders) archives = _
    omega

/-! ### Archives with and without pages -/

theorem writtenSize_twoViews : writtenSize [] (⟨30, []⟩ :: twoViews) = 453 := by
  obtain ⟨hfirst, hbook, hsecond⟩ := pageSizes_twoViews
  have hnil : pageSizes [] [] = [] := rfl
  simp only [twoViews, writtenSize, List.foldl_nil, hnil, hfirst, hbook, hsecond]
  decide

/-- On a file of views without pages the decoders agree; two views of two pages behind one
of them let the decoders part. -/
theorem agree_written_iff_twoViews :
    (∃ w bodies, writeViews noCheck empty [⟨0, []⟩, ⟨60, []⟩] = .ok (w, bodies) ∧
      Agree w.written) ∧
    ∃ w bodies, writeViews noCheck empty (⟨30, []⟩ :: twoViews) = .ok (w, bodies) ∧
      w.written.length = 453 ∧ ¬ Agree w.written := by
  constructor
  · have hdocs : ∀ archive ∈ ([⟨0, []⟩, ⟨60, []⟩] : List Archive), archive.docs = [] := by simp
    exact ⟨_, _, rfl, (agree_written_iff (by simp) (by simp) rfl (by decide)).mpr hdocs⟩
  · have hdocs : ∀ archive ∈ (⟨30, []⟩ :: twoViews : List Archive), ∀ doc ∈ archive.docs,
        doc ≠ [] := by decide
    obtain ⟨w, bodies, h⟩ := (Listed.empty.exists_writeViews_iff hdocs).mpr walkablePages_twoViews
    have hlen : w.written.length = 453 :=
      (length_written_of_writeViews hdocs h).trans ((Nat.zero_add _).trans writtenSize_twoViews)
    refine ⟨w, bodies, h, hlen, ?_⟩
    rw [agree_written_iff hdocs (by decide) h (by rw [hlen]; decide)]
    decide

/-- What is written for one page of one order. -/
theorem exists_writeViews_single :
    ∃ w bodies, writeViews noCheck empty [⟨0, [[Order.single 5]]⟩] = .ok (w, bodies) ∧
      w.written.length = 79 := by
  obtain ⟨w, bodies, h⟩ : ∃ w bodies,
      writeViews noCheck empty [⟨0, [[Order.single 5]]⟩] = .ok (w, bodies) :=
    Settled.empty.exists_writeViews (by simp [StrictlySorted])
  refine ⟨w, bodies, h, ?_⟩
  rw [length_written_of_writeViews (by simp) h]
  simp [writtenSize, pageSizes, pageSize_nil, empty]

/-- On a file of one page of one order the decoders part. -/
theorem not_agree_single :
    ∃ w bodies, writeViews noCheck empty [⟨0, [[Order.single 5]]⟩] = .ok (w, bodies) ∧
      ¬ Agree w.written := by
  obtain ⟨w, bodies, h, hlen⟩ := exists_writeViews_single
  refine ⟨w, bodies, h, ?_⟩
  obtain ⟨text, htext, hiff⟩ := bodies_of_writeViews (by simp) (by simp) rfl h
  have htext : w.written = text := htext
  intro hagree
  have hbodies := (agree_iff_bodies (OrderReader.ofText w.written)).mp hagree
  have hnone := (hiff (htext ▸ hlen ▸ by decide)).mp (htext ▸ hbodies)
  exact absurd (hnone _ List.mem_cons_self) (by simp)

end JsonWriter

end Pricing
end EveIndustryPlanner
