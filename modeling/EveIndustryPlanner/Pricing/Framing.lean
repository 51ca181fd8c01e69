import EveIndustryPlanner.Pricing.Book
import EveIndustryPlanner.Pricing.Views

/-!
# The framing of views

The page count of a view is one byte and the size of a body four; both are
filled in by a cast.  A view is read back as it was written exactly if both
survive their widths, and a view that is not takes the rest of the file with it.
A file is only written if no walk over a page takes an order for new that is known.

## Main definitions

* `SizeFits` — a size that survives its field.
* `viewBytes` — a time, a page count and pages.
* `decodeViews` — the times and the bodies of the views of a file.
* `JsonWriter.writeViews` — the bodies `extract2` writes, view by view.
* `JsonWriter.WalkablePages` — pages whose walks know no order that they take for new.
* `JsonWriter.Framable` — archives whose page counts and bodies survive.

## Main results

* `recordView_viewBytes_iff` — one view.
* `decodeViews_viewBytes_iff` — any number of views.
* `writeViews_eq_foldlM` — `writeViews` ends where the views of `extract2` do.
* `Listed.exists_writeViews_iff` — which files are written.
* `decodeViews_written_iff` — **a file is written and read back as it was written exactly
  if every walk goes through, and every page count and every body survives its field.**
-/

namespace EveIndustryPlanner
namespace Pricing

open JsonWriter (pageBytes)

/-! ### Fields that are too narrow -/

/-- A size that survives the cast to 32 bits and back. -/
def SizeFits (n : ℕ) : Prop := toSizeT (Int32.ofNat n) = n

instance (n : ℕ) : Decidable (SizeFits n) := inferInstanceAs (Decidable (_ = _))

/-- A page count survives its byte up to 127. -/
theorem toNat_toInt_ofNat_eq_iff (n : ℕ) : (Int8.ofNat n).toInt.toNat = n ↔ n ≤ 127 := by
  constructor
  · intro h
    have := (Int8.ofNat n).toInt_lt
    omega
  · intro h
    rw [Int8.toInt_ofNat_of_lt (by omega)]
    rfl

/-! ### Pages -/

theorem splitPage_pageBytes (doc : List Order) (body rest : Bytes) :
    splitPage (pageBytes doc body ++ rest) =
      if toSizeT (Int32.ofNat body.length) ≤ (body ++ rest).length then
        some ((body ++ rest).take (toSizeT (Int32.ofNat body.length)),
          (body ++ rest).drop (toSizeT (Int32.ofNat body.length)))
      else none := by
  -- the ids are read as signed ones, and nobody looks at them
  have hid : ∀ (k : UInt64) (bs : Bytes),
      ∃ i, Pod.read Int64 (Pod.write k ++ bs) = some (i, bs) := by
    intro k bs
    exact ⟨_, Pod.read_append (by rw [Pod.length_write]; rfl) bs⟩
  obtain ⟨i, hi⟩ := hid (JsonWriter.firstId doc) (Pod.write (JsonWriter.lastId doc) ++
    (Pod.write (Int32.ofNat body.length) ++ (body ++ rest)))
  obtain ⟨j, hj⟩ := hid (JsonWriter.lastId doc)
    (Pod.write (Int32.ofNat body.length) ++ (body ++ rest))
  unfold splitPage readPage
  simp only [pageBytes, List.append_assoc, hi, hj, Pod.read_write, Option.bind_eq_bind,
    Option.bind_some]
  rfl

/-- A page is read back as it was written exactly if its size fits. -/
theorem splitPage_pageBytes_iff {doc : List Order} {body rest rest' : Bytes} :
    splitPage (pageBytes doc body ++ rest) = some (body, rest') ↔
      SizeFits body.length ∧ rest' = rest := by
  rw [splitPage_pageBytes]
  constructor
  · intro h
    split at h
    · next hle =>
      obtain ⟨htake, hdrop⟩ := Prod.mk.injEq .. ▸ Option.some.inj h
      -- a body of the right length is only read if that is the length that was written
      have hfits : toSizeT (Int32.ofNat body.length) = body.length := by
        have := congrArg List.length htake
        rwa [List.length_take, min_eq_left hle] at this
      rw [hfits, List.drop_left] at hdrop
      exact ⟨hfits, hdrop.symm⟩
    · exact absurd h (by simp)
  · rintro ⟨hfits, rfl⟩
    rw [hfits, if_pos (by simp), List.take_left, List.drop_left]

/-- A page with its body. -/
abbrev Framed := List Order × Bytes

/-- The bytes of some pages. -/
def pagesBytes (pages : List Framed) : Bytes := pages.flatMap fun p => pageBytes p.1 p.2

theorem splitPages_pagesBytes_iff {pages : List Framed} {rest rest' : Bytes} :
    splitPages pages.length (pagesBytes pages ++ rest) = some (pages.map Prod.snd, rest') ↔
      (∀ p ∈ pages, SizeFits p.2.length) ∧ rest' = rest := by
  induction pages with
  | nil => simp [splitPages, pagesBytes, eq_comm]
  | cons p pages ih =>
    rw [List.length_cons, splitPages, pagesBytes, List.flatMap_cons, List.append_assoc,
      List.forall_mem_cons]
    constructor
    · intro h
      obtain ⟨⟨body, text⟩, hpage, h⟩ := Option.bind_eq_some_iff.mp h
      obtain ⟨⟨bodies, text'⟩, hpages, h⟩ := Option.bind_eq_some_iff.mp h
      obtain ⟨hbodies, rfl⟩ := Prod.mk.injEq .. ▸ Option.some.inj h
      obtain ⟨rfl, rfl⟩ := List.cons.injEq .. ▸ hbodies
      obtain ⟨hfits, rfl⟩ := splitPage_pageBytes_iff.mp hpage
      obtain ⟨hall, hrest⟩ := ih.mp hpages
      exact ⟨⟨hfits, hall⟩, hrest⟩
    · rintro ⟨⟨hfits, hall⟩, rfl⟩
      rw [splitPage_pageBytes_iff.mpr ⟨hfits, rfl⟩]
      have hpages := ih.mpr ⟨hall, rfl⟩
      rw [pagesBytes] at hpages
      simp [hpages]

theorem length_of_splitPages {n : ℕ} {text rest : Bytes} {bodies : List Bytes}
    (h : splitPages n text = some (bodies, rest)) : bodies.length = n := by
  induction n generalizing text bodies rest with
  | zero =>
    obtain ⟨rfl, -⟩ := Prod.mk.injEq .. ▸ Option.some.inj h
    rfl
  | succ n ih =>
    obtain ⟨⟨body, text₁⟩, -, h⟩ := Option.bind_eq_some_iff.mp h
    obtain ⟨⟨bodies', text₂⟩, hpages, h⟩ := Option.bind_eq_some_iff.mp h
    obtain ⟨rfl, -⟩ := Prod.mk.injEq .. ▸ Option.some.inj h
    rw [List.length_cons, ih hpages]

/-! ### Views -/

/-- The bytes of a view. -/
def viewBytes (viewtime : UInt32) (pages : List Framed) : Bytes :=
  Pod.write viewtime ++ Pod.write (Int8.ofNat pages.length) ++ pagesBytes pages

/-- A view whose page count and bodies survive their fields. -/
def ViewFits (pages : List Framed) : Prop :=
  pages.length ≤ 127 ∧ ∀ p ∈ pages, SizeFits p.2.length

theorem recordView_viewBytes (viewtime : UInt32) (pages : List Framed) (rest : Bytes) :
    recordView (viewBytes viewtime pages ++ rest) =
      (splitPages (Int8.ofNat pages.length).toInt.toNat (pagesBytes pages ++ rest)).map
        fun p => (viewtime, p.1, p.2) := by
  rw [recordView_eq, viewBytes]
  simp only [List.append_assoc, Pod.read_write, Option.bind_eq_bind, Option.bind_some,
    Option.map_eq_bind]
  rfl

/-- **A view is read back as it was written exactly if it fits.** -/
theorem recordView_viewBytes_iff {viewtime viewtime' : UInt32} {pages : List Framed}
    {rest rest' : Bytes} :
    recordView (viewBytes viewtime pages ++ rest) =
        some (viewtime', pages.map Prod.snd, rest') ↔
      viewtime' = viewtime ∧ ViewFits pages ∧ rest' = rest := by
  rw [recordView_viewBytes, Option.map_eq_some_iff]
  constructor
  · rintro ⟨⟨bodies, text⟩, hpages, h⟩
    simp only [Prod.mk.injEq] at h
    obtain ⟨rfl, rfl, rfl⟩ := h
    -- as many bodies as pages were written: the count survived
    have hcount := length_of_splitPages hpages
    rw [List.length_map] at hcount
    rw [← hcount] at hpages
    obtain ⟨hall, hrest⟩ := splitPages_pagesBytes_iff.mp hpages
    exact ⟨rfl, ⟨(toNat_toInt_ofNat_eq_iff _).mp hcount.symm, hall⟩, hrest⟩
  · rintro ⟨rfl, ⟨hcount, hall⟩, rfl⟩
    rw [(toNat_toInt_ofNat_eq_iff _).mpr hcount]
    exact ⟨_, splitPages_pagesBytes_iff.mpr ⟨hall, rfl⟩, rfl⟩

/-! ### Files -/

/-- The times and the bodies of the views of a file: `step` until nothing is
left, with the bodies kept instead of read. -/
def decodeViews (text : Bytes) : Option (List (UInt32 × List Bytes)) :=
  if text.length = 0 then some []
  else
    match _h : recordView text with
    | none => none
    | some v => (decodeViews v.2.2).map ((v.1, v.2.1) :: ·)
termination_by text.length
decreasing_by exact length_of_readView (_h)

theorem decodeViews_of_ne_nil {text : Bytes} (h : text ≠ []) :
    decodeViews text =
      (recordView text).bind fun v => (decodeViews v.2.2).map ((v.1, v.2.1) :: ·) := by
  rw [decodeViews, if_neg (by simpa using h)]
  split
  · next hn => rw [hn]; rfl
  · next v hv => rw [hv]; rfl

theorem viewBytes_ne_nil (viewtime : UInt32) (pages : List Framed) :
    viewBytes viewtime pages ≠ [] := List.cons_ne_nil _ _

/-- **Any number of views are read back as they were written exactly if all of
them fit.** -/
theorem decodeViews_viewBytes_iff (views : List (UInt32 × List Framed)) :
    decodeViews (views.flatMap fun v => viewBytes v.1 v.2) =
        some (views.map fun v => (v.1, v.2.map Prod.snd)) ↔
      ∀ v ∈ views, ViewFits v.2 := by
  induction views with
  | nil => simp [decodeViews]
  | cons v views ih =>
    have hne : (viewBytes v.1 v.2 ++ views.flatMap fun v => viewBytes v.1 v.2) ≠ [] :=
      List.append_ne_nil_of_left_ne_nil (viewBytes_ne_nil v.1 v.2) _
    rw [List.flatMap_cons, decodeViews_of_ne_nil hne, List.map_cons, List.forall_mem_cons]
    constructor
    · intro h
      obtain ⟨⟨viewtime, bodies, text⟩, hview, h⟩ := Option.bind_eq_some_iff.mp h
      obtain ⟨views', hviews, h⟩ := Option.map_eq_some_iff.mp h
      obtain ⟨hhead, rfl⟩ := List.cons.injEq .. ▸ h
      obtain ⟨rfl, rfl⟩ := Prod.mk.injEq .. ▸ hhead
      -- a view that is read back leaves exactly the views after it
      obtain ⟨-, hfits, rfl⟩ := recordView_viewBytes_iff.mp hview
      exact ⟨hfits, ih.mp hviews⟩
    · rintro ⟨hfits, hall⟩
      rw [recordView_viewBytes_iff.mpr ⟨rfl, hfits, rfl⟩, Option.bind_some, ih.mpr hall]
      rfl

/-! ### What the writer writes -/

namespace JsonWriter

/-- The sizes of the bodies of some pages, from the book in front of them. -/
def pageSizes : List Order → List (List Order) → List ℕ
  | _, [] => []
  | book, doc :: docs => pageSize book doc :: pageSizes (replacePage book doc) docs

/-- Pages whose walks, from the book in front of them, go through. -/
def WalkablePages : List Order → List (List Order) → Prop
  | _, [] => True
  | book, doc :: docs => Walkable book doc ∧ WalkablePages (replacePage book doc) docs

/-- Archives of at most 127 pages whose bodies have sizes that fit. -/
def Framable : List Order → List Archive → Prop
  | _, [] => True
  | book, archive :: archives =>
    (archive.docs.length ≤ 127 ∧ ∀ size ∈ pageSizes book archive.docs, SizeFits size) ∧
      Framable (archive.docs.foldl replacePage book) archives

/-- The views of some archives: the writer at the end, and the bodies of the
pages of each view. -/
def writeViews (test : SelfCheck) (w : JsonWriter) :
    List Archive → Except Fault (JsonWriter × List (List Bytes))
  | [] => .ok (w, [])
  | archive :: archives => do
    let ws ← extractDocs test (w.viewHeader archive) archive.docs
    let bodies := between body (w.viewHeader archive) ws
    let (w, views) ← writeViews test (ws.getLastD (w.viewHeader archive)) archives
    return (w, bodies :: views)

/-- The pages of a view with their bodies. -/
structure PagesWritten (w : JsonWriter) (docs : List (List Order)) (ws : List JsonWriter) :
    Prop where
  written : (ws.getLastD w).written = w.written ++ pagesBytes (docs.zip (between body w ws))
  activeOrders : (ws.getLastD w).activeOrders = docs.foldl replacePage w.activeOrders
  sizes : (between body w ws).map List.length = pageSizes w.activeOrders docs
  length : (between body w ws).length = docs.length

theorem pagesWritten_of_extractDocs {w : JsonWriter} {docs : List (List Order)}
    {ws : List JsonWriter} (hdocs : ∀ doc ∈ docs, doc ≠ [])
    (h : extractDocs noCheck w docs = .ok ws) : PagesWritten w docs ws := by
  induction docs generalizing w ws with
  | nil =>
    obtain rfl := Except.ok.inj h
    exact ⟨by simp [pagesBytes], rfl, rfl, rfl⟩
  | cons doc docs ih =>
    obtain ⟨w₁, h₁, h⟩ := bind_eq_ok h
    obtain ⟨ws, hws, h⟩ := bind_eq_ok h
    obtain rfl := Except.ok.inj h
    obtain ⟨_, rs, -, -, hpage⟩ := pageWritten_of_extractDoc (hdocs doc List.mem_cons_self) h₁
    have hrest := ih (fun d hd => hdocs d (List.mem_cons_of_mem doc hd)) hws
    have hlast : (w₁ :: ws).getLastD w = ws.getLastD w₁ := List.getLastD_cons ..
    constructor
    · rw [hlast, hrest.written, hpage.written, between_cons, hpage.body, List.zip_cons_cons,
        pagesBytes, pagesBytes, List.flatMap_cons, List.append_assoc]
    · rw [hlast, hrest.activeOrders, hpage.activeOrders, List.foldl_cons]
    · rw [between_cons, List.map_cons, hrest.sizes, hpage.body, hpage.size, hpage.activeOrders]
      rfl
    · rw [between_cons, List.length_cons, List.length_cons, hrest.length]

/-- `writeView` is the run through the pages. -/
theorem foldlM_extractDoc {test : SelfCheck} {w : JsonWriter} {docs : List (List Order)} :
    docs.foldlM (extractDoc test) w = (extractDocs test w docs).map fun ws => ws.getLastD w := by
  induction docs generalizing w with
  | nil => rfl
  | cons doc docs ih =>
    rw [List.foldlM_cons, extractDocs]
    cases h₁ : extractDoc test w doc with
    | error e => rfl
    | ok w₁ =>
      rw [ok_bind, ok_bind, ih]
      cases extractDocs test w₁ docs with
      | error e => rfl
      | ok ws => exact congrArg Except.ok (List.getLastD_cons ..).symm

/-- The writer at the end of `writeViews` is the one the views lead to. -/
theorem writeViews_eq_foldlM {test : SelfCheck} {w : JsonWriter} {archives : List Archive} :
    (writeViews test w archives).map Prod.fst = archives.foldlM (writeView test) w := by
  induction archives generalizing w with
  | nil => rfl
  | cons archive archives ih =>
    rw [List.foldlM_cons, writeViews, writeView, foldlM_extractDoc]
    cases extractDocs test (w.viewHeader archive) archive.docs with
    | error e => rfl
    | ok ws =>
      have ih := ih (w := ws.getLastD (w.viewHeader archive))
      show Except.map Prod.fst (writeViews test _ archives >>= _) = _
      show _ = archives.foldlM (writeView test) _
      rw [← ih]
      cases writeViews test (ws.getLastD (w.viewHeader archive)) archives <;> rfl

theorem viewFits_iff {docs : List (List Order)} {bodies : List Bytes}
    (h : bodies.length = docs.length) :
    ViewFits (docs.zip bodies) ↔
      docs.length ≤ 127 ∧ ∀ size ∈ bodies.map List.length, SizeFits size := by
  have hbodies : (docs.zip bodies).map Prod.snd = bodies := List.map_snd_zip h.le
  rw [ViewFits, List.length_zip, h, min_self]
  apply and_congr_right
  intro _
  rw [List.forall_mem_map, ← hbodies, List.forall_mem_map]
  simp only [hbodies]

/-- What the views of some archives leave behind. -/
theorem exists_views_of_writeViews {w w' : JsonWriter} {archives : List Archive}
    {bodies : List (List Bytes)} (hdocs : ∀ archive ∈ archives, ∀ doc ∈ archive.docs, doc ≠ [])
    (h : writeViews noCheck w archives = .ok (w', bodies)) :
    ∃ views : List (UInt32 × List Framed),
      w'.written = w.written ++ (views.flatMap fun v => viewBytes v.1 v.2) ∧
      (views.map fun v => (v.1, v.2.map Prod.snd)) =
        (archives.map Archive.viewtime).zip bodies ∧
      ((∀ v ∈ views, ViewFits v.2) ↔ Framable w.activeOrders archives) := by
  induction archives generalizing w w' bodies with
  | nil =>
    obtain ⟨rfl, rfl⟩ := Prod.mk.injEq .. ▸ Except.ok.inj h
    exact ⟨[], by simp, rfl, by simp [Framable]⟩
  | cons archive archives ih =>
    obtain ⟨ws, hws, h⟩ := bind_eq_ok h
    obtain ⟨⟨w₂, bodies₂⟩, hviews, h⟩ := bind_eq_ok h
    obtain ⟨rfl, rfl⟩ := Prod.mk.injEq .. ▸ Except.ok.inj h
    have hpages := pagesWritten_of_extractDocs (hdocs archive List.mem_cons_self) hws
    obtain ⟨views, hwritten, hzip, hfits⟩ :=
      ih (fun a ha => hdocs a (List.mem_cons_of_mem archive ha)) hviews
    have hlen := hpages.length
    refine ⟨(archive.viewtime, archive.docs.zip (between body (w.viewHeader archive) ws)) :: views,
      ?_, ?_, ?_⟩
    · rw [hwritten, hpages.written, List.flatMap_cons, viewBytes, List.length_zip, hlen, min_self]
      show w.written ++ _ ++ _ ++ _ ++ _ = _
      simp only [List.append_assoc]
    · rw [List.map_cons, hzip, List.map_cons, List.zip_cons_cons, List.map_snd_zip hlen.le]
    · rw [List.forall_mem_cons, viewFits_iff hlen, hpages.sizes, hfits, hpages.activeOrders]
      rfl

/-! ### Which files are written -/

theorem walkablePages_append {book : List Order} {docs docs' : List (List Order)} :
    WalkablePages book (docs ++ docs') ↔
      WalkablePages book docs ∧ WalkablePages (docs.foldl replacePage book) docs' := by
  induction docs generalizing book with
  | nil => simp [WalkablePages]
  | cons doc docs ih =>
    rw [List.cons_append, WalkablePages, WalkablePages, ih, and_assoc]
    rfl

/-- Sorted pages are walked through. -/
theorem walkablePages_of_sorted {book : List Order} (hbook : StrictlySorted Order.id book)
    {docs : List (List Order)} (h : ∀ doc ∈ docs, doc ≠ [] ∧ StrictlySorted Order.id doc) :
    WalkablePages book docs := by
  induction docs generalizing book with
  | nil => trivial
  | cons doc docs ih =>
    obtain ⟨⟨hdoc, hsorted⟩, h⟩ := List.forall_mem_cons.mp h
    exact ⟨walkable_of_sorted hsorted hbook, ih (strictlySorted_replacePage hsorted hbook hdoc) h⟩

namespace Listed

/-- Pages that went through leave such a writer behind. -/
theorem of_extractDocs {w : JsonWriter} (hw : Listed w) {docs : List (List Order)}
    {ws : List JsonWriter} (hdocs : ∀ doc ∈ docs, doc ≠ [])
    (h : extractDocs noCheck w docs = .ok ws) : Listed (ws.getLastD w) := by
  induction docs generalizing w ws with
  | nil =>
    obtain rfl := Except.ok.inj h
    exact hw
  | cons doc docs ih =>
    obtain ⟨hdoc, hdocs⟩ := List.forall_mem_cons.mp hdocs
    obtain ⟨w₁, h₁, h⟩ := bind_eq_ok h
    obtain ⟨ws, hws, h⟩ := bind_eq_ok h
    obtain rfl := Except.ok.inj h
    rw [List.getLastD_cons]
    exact ih (hw.of_extractDoc hdoc h₁) hdocs hws

/-- Pages go through exactly if their walks do. -/
theorem exists_extractDocs_iff {w : JsonWriter} (hw : Listed w) {docs : List (List Order)}
    (hdocs : ∀ doc ∈ docs, doc ≠ []) :
    (∃ ws, extractDocs noCheck w docs = .ok ws) ↔ WalkablePages w.activeOrders docs := by
  induction docs generalizing w with
  | nil => exact iff_of_true ⟨[], rfl⟩ trivial
  | cons doc docs ih =>
    obtain ⟨hdoc, hdocs⟩ := List.forall_mem_cons.mp hdocs
    rw [WalkablePages, ← hw.exists_extractDoc_iff hdoc]
    constructor
    · rintro ⟨ws, h⟩
      obtain ⟨w₁, h₁, h⟩ := bind_eq_ok h
      obtain ⟨ws, hws, -⟩ := bind_eq_ok h
      obtain ⟨_, _, -, -, hpage⟩ := pageWritten_of_extractDoc hdoc h₁
      have hrest := (ih (hw.of_extractDoc hdoc h₁) hdocs).mp ⟨ws, hws⟩
      exact ⟨⟨w₁, h₁⟩, hpage.activeOrders ▸ hrest⟩
    · rintro ⟨⟨w₁, h₁⟩, hwalk⟩
      obtain ⟨_, _, -, -, hpage⟩ := pageWritten_of_extractDoc hdoc h₁
      rw [← hpage.activeOrders] at hwalk
      obtain ⟨ws, hws⟩ := (ih (hw.of_extractDoc hdoc h₁) hdocs).mpr hwalk
      refine ⟨w₁ :: ws, ?_⟩
      rw [extractDocs, h₁, ok_bind, hws]
      rfl

/-- Archives are written exactly if the walks over their pages go through. -/
theorem exists_writeViews_iff {w : JsonWriter} (hw : Listed w) {archives : List Archive}
    (hdocs : ∀ archive ∈ archives, ∀ doc ∈ archive.docs, doc ≠ []) :
    (∃ w' bodies, writeViews noCheck w archives = .ok (w', bodies)) ↔
      WalkablePages w.activeOrders (archives.flatMap Archive.docs) := by
  induction archives generalizing w with
  | nil => exact iff_of_true ⟨w, [], rfl⟩ trivial
  | cons archive archives ih =>
    obtain ⟨hpages, hdocs⟩ := List.forall_mem_cons.mp hdocs
    have hheader : Listed (w.viewHeader archive) := ⟨hw.nodup, hw.keys⟩
    have hfirst := hheader.exists_extractDocs_iff hpages
    -- the walks over the pages of the others start from the book these pages lead to
    have hrest : ∀ {ws}, extractDocs noCheck (w.viewHeader archive) archive.docs = .ok ws →
        ((∃ w' bodies, writeViews noCheck (ws.getLastD (w.viewHeader archive)) archives =
            .ok (w', bodies)) ↔
          WalkablePages (archive.docs.foldl replacePage w.activeOrders)
            (archives.flatMap Archive.docs)) := by
      intro ws hws
      have hbook := (pagesWritten_of_extractDocs hpages hws).activeOrders
      rw [ih (hheader.of_extractDocs hpages hws) hdocs, hbook]
      rfl
    rw [List.flatMap_cons, walkablePages_append]
    constructor
    · rintro ⟨w', bodies, h⟩
      obtain ⟨ws, hws, h⟩ := bind_eq_ok h
      obtain ⟨⟨w₂, bodies₂⟩, hviews, -⟩ := bind_eq_ok h
      exact ⟨hfirst.mp ⟨ws, hws⟩, (hrest hws).mp ⟨w₂, bodies₂, hviews⟩⟩
    · rintro ⟨hwalk, hwalks⟩
      obtain ⟨ws, hws⟩ := hfirst.mpr hwalk
      obtain ⟨w₂, bodies, hviews⟩ := (hrest hws).mpr hwalks
      refine ⟨w₂, between body (w.viewHeader archive) ws :: bodies, ?_⟩
      rw [writeViews, hws, ok_bind, hviews]
      rfl

end Listed

/-- Sorted pages are written. -/
theorem Settled.exists_writeViews {w : JsonWriter} (hw : Settled w) {archives : List Archive}
    (h : ∀ archive ∈ archives, ∀ doc ∈ archive.docs, doc ≠ [] ∧ StrictlySorted Order.id doc) :
    ∃ w' bodies, writeViews noCheck w archives = .ok (w', bodies) := by
  apply (hw.listed.exists_writeViews_iff fun archive ha doc hd => (h archive ha doc hd).1).mpr
  apply walkablePages_of_sorted hw.sorted
  intro doc hdoc
  obtain ⟨archive, ha, hd⟩ := List.mem_flatMap.mp hdoc
  exact h archive ha doc hd

/-- **A file is written and read back as it was written exactly if every walk goes through,
and every page count and every body survives its field.** -/
theorem decodeViews_written_iff {archives : List Archive}
    (hdocs : ∀ archive ∈ archives, ∀ doc ∈ archive.docs, doc ≠ []) :
    (∃ w bodies, writeViews noCheck empty archives = .ok (w, bodies) ∧
        decodeViews w.written = some ((archives.map Archive.viewtime).zip bodies)) ↔
      WalkablePages [] (archives.flatMap Archive.docs) ∧ Framable [] archives := by
  have hwritten : ∀ {w bodies}, writeViews noCheck empty archives = .ok (w, bodies) →
      (decodeViews w.written = some ((archives.map Archive.viewtime).zip bodies) ↔
        Framable [] archives) := by
    intro w bodies h
    obtain ⟨views, hwritten, hzip, hfits⟩ := exists_views_of_writeViews hdocs h
    have hwritten : w.written = views.flatMap fun v => viewBytes v.1 v.2 := hwritten
    rw [hwritten, ← hzip, decodeViews_viewBytes_iff]
    exact hfits
  have hwalks := Listed.empty.exists_writeViews_iff hdocs
  constructor
  · rintro ⟨w, bodies, h, hdecode⟩
    exact ⟨hwalks.mp ⟨w, bodies, h⟩, (hwritten h).mp hdecode⟩
  · rintro ⟨hwalk, hframable⟩
    obtain ⟨w, bodies, h⟩ := hwalks.mpr hwalk
    exact ⟨w, bodies, h, (hwritten h).mpr hframable⟩

/-- Two views of two pages; the last page is not sorted. -/
def twoViews : List Archive :=
  [⟨0, [[units 5 1, units 7 1], [units 5 2, units 8 1]]⟩,
    ⟨60, [[units 5 2, units 7 3], [units 12 1, units 11 1]]⟩]

/-- Both orders of the last page are behind the book. -/
theorem pageEdits_last : pageEdits [units 5 2, units 7 3, units 8 1] [units 12 1, units 11 1] =
    [.add (units 12 1), .add (units 11 1)] := by
  have hreplaced : replacedBy [units 5 2, units 7 3, units 8 1] [units 12 1, units 11 1] = [] := by
    decide
  rw [pageEdits, hreplaced, diff]
  · rfl
  · simp

theorem walkablePages_twoViews : WalkablePages [] (twoViews.flatMap Archive.docs) := by
  show WalkablePages [] (threePages ++ [[units 12 1, units 11 1]])
  have hbook : threePages.foldl replacePage [] = [units 5 2, units 7 3, units 8 1] := by decide
  rw [walkablePages_append, hbook]
  refine ⟨walkablePages_of_sorted List.Pairwise.nil (by decide), ?_, trivial⟩
  rw [Walkable, pageEdits_last]
  exact ⟨rfl, rfl, trivial⟩

/-- The sizes of the bodies of the two views, and the book between them. -/
theorem pageSizes_twoViews :
    pageSizes [] [[units 5 1, units 7 1], [units 5 2, units 8 1]] = [108, 88] ∧
      [[units 5 1, units 7 1], [units 5 2, units 8 1]].foldl replacePage [] =
        [units 5 2, units 8 1] ∧
      pageSizes [units 5 2, units 8 1] [[units 5 2, units 7 3], [units 12 1, units 11 1]] =
        [54, 108] := by
  have hfirst : replacePage [] [units 5 1, units 7 1] = [units 5 1, units 7 1] := by decide
  have hthird : replacePage [units 5 2, units 8 1] [units 5 2, units 7 3] =
      [units 5 2, units 7 3, units 8 1] := by decide
  refine ⟨?_, by decide, ?_⟩
  · simp only [pageSizes, hfirst, pageSize, pageEdits_nil, pageEdits_second]
    decide
  · simp only [pageSizes, hthird, pageSize, pageEdits_third, pageEdits_last]
    decide

theorem framable_twoViews : Framable [] twoViews := by
  obtain ⟨hfirst, hbook, hsecond⟩ := pageSizes_twoViews
  simp only [twoViews, Framable, hfirst, hbook, hsecond]
  decide

/-- The two views are read back. -/
theorem decodeViews_written_iff_twoViews :
    ∃ w bodies, writeViews noCheck empty twoViews = .ok (w, bodies) ∧
      decodeViews w.written = some ([0, 60].zip bodies) :=
  (decodeViews_written_iff (by decide)).mpr ⟨walkablePages_twoViews, framable_twoViews⟩

/-- An archive of 128 pages, one more than a signed byte counts. -/
def manyPages : Archive := ⟨0, (List.range 128).map fun n => [Order.single (UInt64.ofNat n)]⟩

/-- 128 pages are not read back. -/
theorem decodeViews_manyPages_ne :
    ∃ w bodies, writeViews noCheck empty [manyPages] = .ok (w, bodies) ∧
      decodeViews w.written ≠ some ([0].zip bodies) := by
  have hpages : ∀ doc ∈ manyPages.docs, doc ≠ [] ∧ StrictlySorted Order.id doc := by
    intro doc hdoc
    obtain ⟨n, -, rfl⟩ := List.mem_map.mp hdoc
    exact ⟨List.cons_ne_nil _ _, List.pairwise_singleton _ _⟩
  obtain ⟨w, bodies, h⟩ : ∃ w bodies, writeViews noCheck empty [manyPages] = .ok (w, bodies) :=
    Settled.empty.exists_writeViews (by simpa using hpages)
  refine ⟨w, bodies, h, ?_⟩
  intro hdecode
  obtain ⟨views, hwritten, hzip, hfits⟩ := exists_views_of_writeViews
    (by simpa using fun doc hdoc => (hpages doc hdoc).1) h
  have hwritten : w.written = views.flatMap fun v => viewBytes v.1 v.2 := hwritten
  have hzip : (views.map fun v => (v.1, v.2.map Prod.snd)) = [0].zip bodies := hzip
  rw [hwritten, ← hzip, decodeViews_viewBytes_iff, hfits] at hdecode
  exact absurd hdecode.1.1 (by simp [manyPages])

end JsonWriter

end Pricing
end EveIndustryPlanner
