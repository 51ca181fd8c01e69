import EveIndustryPlanner.Pricing.Pages

/-!
# Who owns a slot

The numbers of the slots are the numbers from one to the size of the writer's
copy.  Each of them belongs to one live order or waits in the free list, in the
middle of a page as well as between two pages.  A record takes more bytes of the
file than a slot adds to the copy, so the numbers do not overflow before the
file is full.

## Main definitions

* `fileSize` — the room in the file.
* `Reached` — the writers between two pages of a sequence of pages.
* `Walking` — the writers in the middle of a page, with the edits that are left.
* `Owned` — the slots are divided between the live orders and the free list.

## Main results

* `Owned.step` — an edit moves one slot.
* `Reached.owned`, `Walking.owned` — between two pages, and in the middle of one.
* `slot_ownership` — **no slot is lost, none has two owners, and no branch throws.**
-/

namespace EveIndustryPlanner
namespace Pricing
namespace JsonWriter

/-- The size of the file an archive is written to.  It is mapped as a whole, and
writing past its end is undefined. -/
def fileSize : ℕ := 2 ^ 33

/-! ### Reached writers -/

/-- The writers between two pages, after a sequence of sorted pages.  The headers
of the views in between and what a replay does to the reader are left open. -/
inductive Reached : List (List Order) → JsonWriter → Prop
  | empty : Reached [] empty
  | page {docs : List (List Order)} {w w' : JsonWriter} (hw : Reached docs w) {doc : List Order}
      (hsorted : StrictlySorted Order.id doc) (hpage : extractDoc noCheck w doc = .ok w')
      (hfile : w'.written.length ≤ fileSize) : Reached (docs ++ [doc]) w'
  | view {docs : List (List Order)} {w : JsonWriter} (hw : Reached docs w) (archive : Archive) :
    Reached docs (w.viewHeader archive)
  | replay {docs : List (List Order)} {w : JsonWriter} (hw : Reached docs w)
      (reader : OrderReader) (readerPos : ℕ) :
    Reached docs { w with reader := reader, readerPos := readerPos }

/-- The writers in the loops over a page, with the edits that are left. -/
inductive Walking (w : JsonWriter) (doc : List Order) : List (Edit Order) → JsonWriter → Prop
  | start (hdoc : doc ≠ []) (hfile : (w.beginPage doc).written.length ≤ fileSize) :
    Walking w doc (pageEdits w.activeOrders doc) (w.beginPage doc)
  | edit {e : Edit Order} {es : List (Edit Order)} {w₁ w₂ : JsonWriter}
      (hw : Walking w doc (e :: es) w₁) (hedit : w₁.applyEdit e = .ok w₂)
      (hfile : w₂.written.length ≤ fileSize) : Walking w doc es w₂

/-- A slot that a live order has or that waits in the free list. -/
def Handed (w : JsonWriter) (i : Int32) : Prop := (∃ k, w.index k = some i) ∨ i ∈ w.freeList

/-- The slots are divided between the live orders and the free list. -/
structure Owned (w : JsonWriter) : Prop where
  injective : ∀ k k' i, w.index k = some i → w.index k' = some i → k = k'
  free_nodup : w.freeList.Nodup
  disjoint : ∀ k i, w.index k = some i → i ∉ w.freeList
  range : ∀ n : ℤ, (∃ i, w.Handed i ∧ i.toInt = n) ↔ 1 ≤ n ∧ n ≤ w.activeOrders2.length

/-! ### The room in the file -/

/-- Each slot has taken the bytes of a full order. -/
def Paid (w : JsonWriter) : Prop := 54 * w.activeOrders2.length ≤ w.written.length

theorem Paid.length_lt {w : JsonWriter} (h : Paid w) (hfile : w.written.length ≤ fileSize) :
    w.activeOrders2.length + 1 < 2 ^ 31 := by
  unfold Paid at h
  unfold fileSize at hfile
  omega

theorem Paid.step {w w' : JsonWriter} {e : Edit Order} (h : Paid w) (hstep : Step w e w') :
    Paid w' := by
  unfold Paid at h ⊢
  cases hstep with
  | fresh hindex hfree => simp [put]; omega
  | recycled hindex hfree => simp [put]; omega
  | changed hchanged hindex => simp [put]; omega
  | unchanged hchanged => exact h
  | deleted hindex => simp [put]; omega

theorem Paid.run {w w' : JsonWriter} {es : List (Edit Order)} (h : Paid w)
    (hrun : es.foldlM applyEdit w = .ok w') : Paid w' :=
  foldlM_invariant (fun _ _ _ hw hstep => hw.step (applyEdit_eq_ok_iff.mp hstep)) h hrun

theorem Paid.beginPage {w : JsonWriter} (h : Paid w) (doc : List Order) :
    Paid (w.beginPage doc) := by
  unfold Paid at h ⊢
  have hlen : (w.beginPage doc).written.length = w.written.length + 20 := by
    simp [JsonWriter.beginPage, append, Pod.size]
  rw [hlen]
  show 54 * w.activeOrders2.length ≤ _
  omega

/-! ### Edits -/

namespace Owned

variable {w w' : JsonWriter} {e : Edit Order}

theorem slots (h : Owned w) : Slots w := by
  have hle : ∀ i, w.Handed i → toSizeT i ≤ w.activeOrders2.length := by
    intro i hi
    obtain ⟨hpos, hle⟩ := (h.range i.toInt).mp ⟨i, hi, rfl⟩
    have := i.toInt_lt
    unfold toSizeT
    omega
  exact ⟨fun k i hi => hle i (Or.inl ⟨k, hi⟩), fun i hi => hle i (Or.inr hi), h.injective,
    h.free_nodup, h.disjoint⟩

theorem empty : Owned empty := by
  refine ⟨nofun, List.nodup_nil, nofun, ?_⟩
  intro n
  constructor
  · rintro ⟨i, ⟨k, hk⟩ | hi, -⟩
    · exact absurd hk (by simp [JsonWriter.empty])
    · exact absurd hi (by simp [JsonWriter.empty])
  · rintro ⟨hpos, hle⟩
    simp only [JsonWriter.empty, List.length_nil, Nat.cast_zero] at hle
    omega

/-- The values of a map in which a key got one that had none. -/
theorem exists_update_eq_some {index : UInt64 → Option Int32} {id : UInt64} {n i : Int32}
    (hnone : index id = none) :
    (∃ k, Function.update index id (some n) k = some i) ↔ i = n ∨ ∃ k, index k = some i := by
  constructor
  · rintro ⟨k, hk⟩
    by_cases hkey : k = id
    · rw [hkey, Function.update_self] at hk
      exact Or.inl (Option.some.inj hk).symm
    · rw [Function.update_of_ne hkey] at hk
      exact Or.inr ⟨k, hk⟩
  · rintro (rfl | ⟨k, hk⟩)
    · exact ⟨id, Function.update_self _ _ _⟩
    · have hkey : k ≠ id := by
        rintro rfl
        exact absurd (hnone.symm.trans hk) (by simp)
      exact ⟨k, by rw [Function.update_of_ne hkey, hk]⟩

/-- The slots that are handed out are the same ones, and one more if a new order
found none that was free. -/
theorem handed_step (hstep : Step w e w') :
    (w'.activeOrders2.length = w.activeOrders2.length ∧ ∀ i, w'.Handed i ↔ w.Handed i) ∨
      w'.activeOrders2.length = w.activeOrders2.length + 1 ∧
        ∀ i, w'.Handed i ↔ w.Handed i ∨ i = Int32.ofNat (w.activeOrders2.length + 1) := by
  cases hstep with
  | @fresh o hindex hfree =>
    refine Or.inr ⟨by simp [put], ?_⟩
    intro i
    -- the new order had no slot, so no owner is forgotten
    simp only [Handed, put, exists_update_eq_some hindex]
    rw [or_assoc, or_comm]
  | @recycled o j free hindex hfree =>
    refine Or.inl ⟨by simp [put], ?_⟩
    intro i
    simp only [Handed, put, exists_update_eq_some hindex, hfree, List.mem_cons]
    rw [or_assoc, or_left_comm]
  | changed hchanged hindex => exact Or.inl ⟨by simp [put], fun _ => Iff.rfl⟩
  | unchanged hchanged => exact Or.inl ⟨rfl, fun _ => Iff.rfl⟩
  | @deleted b j hindex =>
    refine Or.inl ⟨by simp [put], ?_⟩
    intro i
    simp only [Handed, put, Function.update_apply, List.mem_append, List.mem_singleton]
    constructor
    · rintro (⟨k, hk⟩ | hi | rfl)
      · split at hk
        · exact absurd hk (by simp)
        · exact Or.inl ⟨k, hk⟩
      · exact Or.inr hi
      · exact Or.inl ⟨b.id, hindex⟩
    · rintro (⟨k, hk⟩ | hi)
      · by_cases hne : k = b.id
        · subst hne
          exact Or.inr (Or.inr (Option.some.inj (hk.symm.trans hindex)))
        · exact Or.inl ⟨k, by rw [if_neg hne, hk]⟩
      · exact Or.inr (Or.inl hi)

/-- An edit moves one slot. -/
theorem step (h : Owned w) (hstep : Step w e w') (hlen : w'.activeOrders2.length < 2 ^ 31) :
    Owned w' := by
  have hslots := h.slots.step_of_lt hstep hlen
  refine ⟨hslots.injective, hslots.free_nodup, hslots.disjoint, ?_⟩
  intro n
  rcases handed_step hstep with ⟨hsize, hhanded⟩ | ⟨hsize, hhanded⟩
  · rw [hsize, ← h.range n]
    simp only [hhanded]
  · -- the next number in the row
    have hnext : (Int32.ofNat (w.activeOrders2.length + 1)).toInt = w.activeOrders2.length + 1 := by
      rw [Int32.toInt_ofNat_of_lt (hsize ▸ hlen)]
      rfl
    simp only [hhanded, or_and_right, exists_or, h.range n, exists_eq_left, hnext, hsize]
    omega

end Owned

/-! ### Pages -/

/-- A page that went through, the edits apart, touches the file and the book only. -/
theorem exists_run_of_extractDoc {w w' : JsonWriter} {doc : List Order} (hdoc : doc ≠ [])
    (h : extractDoc noCheck w doc = .ok w') :
    ∃ w₁, (pageEdits w.activeOrders doc).foldlM applyEdit (w.beginPage doc) = .ok w₁ ∧
      w'.index = w₁.index ∧ w'.freeList = w₁.freeList ∧ w'.activeOrders2 = w₁.activeOrders2 ∧
      w'.written.length = w₁.written.length := by
  obtain ⟨w₁, rs, hrun, rfl, -⟩ := pageWritten_of_extractDoc hdoc h
  refine ⟨w₁, hrun, rfl, rfl, rfl, ?_⟩
  obtain ⟨rs', hwrote, -, -⟩ := Wrote.of_run hrun
  have hlen : w.written.length + 20 ≤ w₁.written.length := by
    rw [hwrote.written]
    simp [beginPage, append, Pod.size]
    omega
  simp only [patchSize, List.length_append, List.length_take, List.length_drop, Pod.length_write]
  have : Pod.size Int32 = 4 := rfl
  omega

theorem Owned.congr {w w' : JsonWriter} (h : Owned w) (hindex : w'.index = w.index)
    (hfree : w'.freeList = w.freeList) (hsize : w'.activeOrders2.length = w.activeOrders2.length) :
    Owned w' := by
  refine ⟨?_, ?_, ?_, ?_⟩
  · rw [hindex]
    exact h.injective
  · rw [hfree]
    exact h.free_nodup
  · rw [hindex, hfree]
    exact h.disjoint
  · intro n
    simp only [Handed, hindex, hfree, hsize]
    exact h.range n

/-- A run of edits keeps the division of the slots. -/
theorem Owned.run {w w' : JsonWriter} {es : List (Edit Order)} (h : Owned w) (hpaid : Paid w)
    (hrun : es.foldlM applyEdit w = .ok w') (hfile : w'.written.length ≤ fileSize) : Owned w' := by
  induction es generalizing w with
  | nil =>
    obtain rfl : w = w' := Except.ok.inj hrun
    exact h
  | cons e es ih =>
    rw [List.foldlM_cons] at hrun
    obtain ⟨w₁, h₁, hrun⟩ := bind_eq_ok hrun
    have hstep := applyEdit_eq_ok_iff.mp h₁
    -- what fits at the end of the run fits after each edit of it
    obtain ⟨rs, hwrote, -, -⟩ := Wrote.of_run hrun
    have hfile₁ : w₁.written.length ≤ fileSize := by
      rw [hwrote.written, List.length_append] at hfile
      omega
    have hlen := (hpaid.step hstep).length_lt hfile₁
    exact ih (h.step hstep (by omega)) (hpaid.step hstep) hrun

/-! ### Between two pages -/

namespace Reached

variable {docs : List (List Order)} {w : JsonWriter}

theorem settled (hw : Reached docs w) : Settled w := by
  induction hw with
  | empty => exact Settled.empty
  | @page docs w w' hw doc hsorted hpage hfile ih =>
    by_cases hdoc : doc = []
    · subst hdoc
      obtain rfl : w = w' := Except.ok.inj hpage
      exact ih
    · obtain ⟨w₁, hok, hw₁⟩ := ih.exists_extractDoc hdoc hsorted
      obtain rfl : w₁ = w' := Except.ok.inj (hok.symm.trans hpage)
      exact hw₁
  | view hw archive ih => exact ⟨ih.sorted, ih.keys⟩
  | replay hw reader readerPos ih => exact ⟨ih.sorted, ih.keys⟩

theorem paid (hw : Reached docs w) : Paid w := by
  induction hw with
  | empty => exact Nat.zero_le _
  | @page docs w w' hw doc hsorted hpage hfile ih =>
    by_cases hdoc : doc = []
    · subst hdoc
      obtain rfl : w = w' := Except.ok.inj hpage
      exact ih
    · obtain ⟨w₁, hrun, -, -, hcopy, hlen⟩ := exists_run_of_extractDoc hdoc hpage
      have hpaid := (ih.beginPage doc).run hrun
      rw [Paid, hcopy, hlen]
      exact hpaid
  | @view docs w hw archive ih =>
    apply le_trans ih
    simp only [viewHeader, append, List.length_append]
    omega
  | replay hw reader readerPos ih => exact ih

/-- Between two pages the slots are divided between the live orders and the free list. -/
theorem owned (hw : Reached docs w) : Owned w := by
  induction hw with
  | empty => exact Owned.empty
  | @page docs w w' hw doc hsorted hpage hfile ih =>
    by_cases hdoc : doc = []
    · subst hdoc
      obtain rfl : w = w' := Except.ok.inj hpage
      exact ih
    · obtain ⟨w₁, hrun, hindex, hfree, hcopy, hlen⟩ := exists_run_of_extractDoc hdoc hpage
      have hbegin : Owned (w.beginPage doc) := ih.congr rfl rfl rfl
      have hrun := hbegin.run (hw.paid.beginPage doc) hrun (hlen ▸ hfile)
      exact hrun.congr hindex hfree (by rw [hcopy])
  | view hw archive ih => exact ih.congr rfl rfl rfl
  | replay hw reader readerPos ih => exact ih.congr rfl rfl rfl

/-- More pages. -/
theorem pages (hw : Reached docs w) {more : List (List Order)} {ws : List JsonWriter}
    (hsorted : ∀ doc ∈ more, StrictlySorted Order.id doc)
    (hpages : extractDocs noCheck w more = .ok ws)
    (hfile : ∀ w' ∈ ws, w'.written.length ≤ fileSize) :
    Reached (docs ++ more) (ws.getLastD w) := by
  induction more generalizing docs w ws with
  | nil =>
    obtain rfl := Except.ok.inj hpages
    rw [List.append_nil]
    exact hw
  | cons doc more ih =>
    obtain ⟨hdoc, hsorted⟩ := List.forall_mem_cons.mp hsorted
    obtain ⟨w₁, hpage, hpages⟩ := bind_eq_ok hpages
    obtain ⟨ws, hws, hpages⟩ := bind_eq_ok hpages
    obtain rfl := Except.ok.inj hpages
    obtain ⟨hfirst, hfile⟩ := List.forall_mem_cons.mp hfile
    rw [List.getLastD_cons, List.append_cons]
    exact ih (hw.page hdoc hpage hfirst) hsorted hws hfile

end Reached

/-! ### In the middle of a page -/

namespace Walking

variable {docs : List (List Order)} {w w₁ : JsonWriter} {doc : List Order} {es : List (Edit Order)}

theorem paid (hw : Reached docs w) (hwalk : Walking w doc es w₁) : Paid w₁ := by
  induction hwalk with
  | start hdoc hfile => exact hw.paid.beginPage doc
  | edit hwalk hedit hfile ih => exact ih.step (applyEdit_eq_ok_iff.mp hedit)

theorem length_lt (hw : Reached docs w) (hwalk : Walking w doc es w₁) :
    w₁.activeOrders2.length + 1 < 2 ^ 31 := by
  apply (hwalk.paid hw).length_lt
  cases hwalk with
  | start hdoc hfile => exact hfile
  | edit hwalk hedit hfile => exact hfile

theorem owned (hw : Reached docs w) (hwalk : Walking w doc es w₁) : Owned w₁ := by
  induction hwalk with
  | start hdoc hfile => exact hw.owned.congr rfl rfl rfl
  | edit hwalk hedit hfile ih =>
    have hlen := (hwalk.edit hedit hfile).length_lt hw
    exact ih.step (applyEdit_eq_ok_iff.mp hedit) (by omega)

/-- What is left of a page finds the half-merged book as it expects it. -/
theorem exists_keys (hw : Reached docs w) (hsorted : StrictlySorted Order.id doc)
    (hwalk : Walking w doc es w₁) : ∃ m, Keys w₁ m ∧ Valid Order.id m es := by
  induction hwalk with
  | start hdoc hfile => exact ⟨_, hw.settled.keys, walkable_of_sorted hsorted hw.settled.sorted⟩
  | @edit e es w₁ w₂ hwalk hedit hfile ih =>
    obtain ⟨m, hkeys, hvalid⟩ := ih
    exact ⟨_, hkeys.step hvalid.1 (applyEdit_eq_ok_iff.mp hedit), hvalid.2⟩

/-- No branch throws in the middle of a page. -/
theorem exists_applyEdit {e : Edit Order} (hw : Reached docs w)
    (hsorted : StrictlySorted Order.id doc) (hwalk : Walking w doc (e :: es) w₁) :
    ∃ w₂, w₁.applyEdit e = .ok w₂ := by
  obtain ⟨m, hkeys, hvalid⟩ := exists_keys hw hsorted hwalk
  obtain ⟨w₂, hstep⟩ := hkeys.exists_step hvalid.1
  exact ⟨w₂, applyEdit_eq_ok_iff.mpr hstep⟩

end Walking

/-- The slot of a new order belongs to no live order. -/
theorem Owned.newIndex_ne {w : JsonWriter} (h : Owned w)
    (hlen : w.activeOrders2.length + 1 < 2 ^ 31) (o : Order) (k : UInt64) :
    w.index k ≠ some (w.newIndex o).2 := by
  intro hk
  cases hfree : w.freeList with
  | nil =>
    -- the next number is past those handed out so far
    simp only [newIndex, hfree, List.length_append, List.length_singleton] at hk
    have hle := h.slots.owned_le k _ hk
    rw [toSizeT_ofNat hlen] at hle
    omega
  | cons i free =>
    simp only [newIndex, hfree] at hk
    exact h.disjoint k i hk (by simp [hfree])

/-- **No slot is lost, none has two owners, and no branch throws.** -/
theorem slot_ownership {docs : List (List Order)} {w : JsonWriter} (hw : Reached docs w) :
    StrictlySorted Order.id w.activeOrders ∧
      (∀ k, (w.index k).isSome ↔ k ∈ w.activeOrders.map Order.id) ∧ Owned w ∧
      ∀ doc, StrictlySorted Order.id doc →
        Succeeds (extractDoc noCheck w doc) ∧
        ∀ es w₁, Walking w doc es w₁ →
          Owned w₁ ∧ (∀ e es', es = e :: es' → Succeeds (w₁.applyEdit e)) ∧
            ∀ o es', es = .add o :: es' → ∀ k, w₁.index k ≠ some (w₁.newIndex o).2 := by
  refine ⟨hw.settled.sorted, ?_, hw.owned, ?_⟩
  · intro k
    rw [hw.settled.keys k, Option.isSome_iff_exists, List.mem_map]
    exact exists_congr fun o => lookup_eq_some_iff hw.settled.sorted
  · intro doc hsorted
    constructor
    · by_cases hdoc : doc = []
      · rw [extractDoc, if_pos hdoc]
        exact succeeds_ok w
      · obtain ⟨w', hok, -⟩ := hw.settled.exists_extractDoc hdoc hsorted
        exact ⟨w', hok⟩
    · intro es w₁ hwalk
      refine ⟨hwalk.owned hw, ?_, ?_⟩
      · rintro e es' rfl
        exact hwalk.exists_applyEdit hw hsorted
      · intro o es' _ k
        exact (hwalk.owned hw).newIndex_ne (hwalk.length_lt hw) o k

/-- The writer after a page of one order is reached. -/
theorem reached_single :
    ∃ w, extractDoc noCheck empty [Order.single 5] = .ok w ∧ w.written.length = 74 ∧
      Reached [[Order.single 5]] w := by
  have hsorted : StrictlySorted Order.id [Order.single 5] := List.pairwise_singleton _ _
  obtain ⟨w, hok, -⟩ := Settled.empty.exists_extractDoc (List.cons_ne_nil _ _) hsorted
  obtain ⟨w₁, rs, -, -, hpage⟩ := pageWritten_of_extractDoc (List.cons_ne_nil _ _) hok
  have hsize : pageSize empty.activeOrders [Order.single 5] = 54 := pageSize_nil _
  have hbody := hpage.size.trans hsize
  have hlen : w.written.length = 74 := by
    rw [hpage.written, pageBytes]
    simp only [List.length_append, Pod.length_write, hbody]
    rfl
  exact ⟨w, hok, hlen, .page .empty hsorted hok (hlen ▸ by decide)⟩

/-- On the second of the three pages the slot of the order that vanishes is free for a moment,
then it belongs to the new one; the order that comes back gets another slot. -/
theorem slot_ownership_threePages :
    ∃ w₁ w₂ w₃ w', extractDocs noCheck empty threePages = .ok [w₁, w₂, w₃] ∧
      w₁.index 7 = some 2 ∧ w₂.index 8 = some 2 ∧ w₃.index 7 = some 3 ∧
      (Walking w₁ [units 5 2, units 8 1] [.add (units 8 1)] w' ∧ w'.freeList = [2] ∧ Owned w' ∧
        Succeeds (w'.applyEdit (.add (units 8 1)))) ∧
      StrictlySorted Order.id w₃.activeOrders ∧
      (∀ k, (w₃.index k).isSome ↔ k ∈ w₃.activeOrders.map Order.id) ∧ Owned w₃ := by
  obtain ⟨w₁, w₂, w₃, hok, h₁, h₂, h₃⟩ := exists_extractDocs_threePages
  have hw₃ : Reached threePages w₃ := Reached.empty.pages (by decide) hok
    (by simp [h₁.written, h₂.written, h₃.written, fileSize])
  have hw₁ : Reached [[units 5 1, units 7 1]] w₁ := by
    obtain ⟨w, hfirst, hrest⟩ := bind_eq_ok hok
    obtain ⟨ws, -, hrest⟩ := bind_eq_ok hrest
    obtain ⟨rfl, -⟩ := List.cons.injEq .. ▸ Except.ok.inj hrest
    exact .page .empty (by decide) hfirst (by simp [h₁.written, fileSize])
  have hindex : w₁.index 7 = some 2 := h₁.index (7, some 2) (by simp)
  -- the walk over the second page up to the new order
  have hstart : Walking w₁ [units 5 2, units 8 1]
      [.keep (units 5 2) (units 5 1), .drop (units 7 1), .add (units 8 1)]
      (w₁.beginPage [units 5 2, units 8 1]) := by
    rw [← pageEdits_second, ← h₁.activeOrders]
    refine .start (List.cons_ne_nil _ _) ?_
    simp [beginPage, append, Pod.size, h₁.written, fileSize]
  have hkept := hstart.edit (applyEdit_eq_ok_iff.mpr (.changed (i := 1) (by decide)
    (h₁.index (5, some 1) (by simp)))) (by
      simp [put, beginPage, append, Pod.size, h₁.written, fileSize])
  have hdropped := hkept.edit (applyEdit_eq_ok_iff.mpr (.deleted (i := 2) hindex)) (by
      simp [put, beginPage, append, Pod.size, h₁.written, fileSize])
  have hwalk := ((slot_ownership hw₁).2.2.2 _ (by decide)).2 _ _ hdropped
  obtain ⟨hsorted, hkeys, howned, -⟩ := slot_ownership hw₃
  refine ⟨w₁, w₂, w₃, _, hok, hindex, h₂.index (8, some 2) (by simp),
    h₃.index (7, some 3) (by simp), ⟨hdropped, ?_, hwalk.1, hwalk.2.1 _ _ rfl⟩, hsorted, hkeys,
    howned⟩
  show w₁.freeList ++ [2] = [2]
  rw [h₁.freeList, List.nil_append]

end JsonWriter
end Pricing
end EveIndustryPlanner
