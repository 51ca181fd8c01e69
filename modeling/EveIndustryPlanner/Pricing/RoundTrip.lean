import EveIndustryPlanner.Pricing.Pages

/-!
# The slots of the reader show the book of the writer

Writer and reader share slot numbers and nothing else.  The invariant that ties
them together: the slot of an active order holds an order that agrees with it,
and a slot nobody owns holds no volume.

## Main definitions

* `JsonWriter.Mirror` — the invariant.
* `Admissible` — pages the archive can hold, in order.
* `JsonWriter.Shows` — the live slots of a reader, by id, are the book.

## Main results

* `Mirror.step`, `Mirror.run` — the record of a step moves the slots along.
* `InStep.readDoc_body` — one page; `InStep.shows` — what the slots show after it.
* `readDocs_bodies` — **the bodies of any admissible pages are read back as the
  books of the writer.**
-/

namespace EveIndustryPlanner
namespace Pricing
namespace JsonWriter

/-- The slot of an active order agrees with it, and a slot without an owner has
no volume. -/
structure Mirror (w : JsonWriter) (m : UInt64 → Option Order) (slots : List Order) : Prop where
  length : slots.length = slotCount
  owned : ∀ k i o, w.index k = some i → m k = some o →
    ∃ s, slots[toSizeT i]? = some s ∧ s.Agrees o ∧ s.volume ≠ 0
  unowned : ∀ n s, slots[n]? = some s → (∀ k i, w.index k = some i → toSizeT i ≠ n) → s.volume = 0

/-- The slots after some records. -/
def applyRecords (slots : List Order) (rs : List Record) : Option (List Order) :=
  rs.foldlM (fun slots r => r.apply slots) slots

/-- What the reader relies on in an edit: an order that stays has volume, and it
keeps its static fields. -/
def Sound : Edit Order → Prop
  | .add o => o.volume ≠ 0
  | .keep a b => a.volume ≠ 0 ∧ a.SameStatic b
  | .drop _ => True

namespace Mirror

variable {w w' : JsonWriter} {m : UInt64 → Option Order} {slots : List Order} {e : Edit Order}

/-- Write an order to a slot that is its own afterwards. -/
theorem write (h : Mirror w m slots) {k : UInt64} {i : Int32} {s o : Order}
    (hi : toSizeT i < slotCount) (hs : s.Agrees o) (hvolume : s.volume ≠ 0)
    (hothers : ∀ k', k' ≠ k → w.index k' ≠ some i) (hown : ∀ j, w.index k = some j → j = i)
    (hindex : w'.index = Function.update w.index k (some i)) :
    Mirror w' (Function.update m k (some o)) (slots.set (toSizeT i) s) where
  length := by rw [List.length_set, h.length]
  owned k' j o' hj ho' := by
    rw [hindex] at hj
    by_cases hk : k' = k
    · subst hk
      rw [Function.update_self] at hj ho'
      obtain rfl := Option.some.inj hj
      obtain rfl := Option.some.inj ho'
      exact ⟨s, List.getElem?_set_self (h.length ▸ hi), hs, hvolume⟩
    · rw [Function.update_of_ne hk] at hj ho'
      have hne : toSizeT i ≠ toSizeT j := by
        intro e
        exact hothers k' hk (toSizeT_injective e ▸ hj)
      rw [List.getElem?_set_ne hne]
      exact h.owned k' j o' hj ho'
  unowned n t ht hn := by
    have hne : toSizeT i ≠ n := hn k i (by rw [hindex, Function.update_self])
    rw [List.getElem?_set_ne hne] at ht
    -- a slot without an owner had none before: only `k` has another slot now
    apply h.unowned n t ht
    intro k' j hj
    by_cases hk : k' = k
    · subst hk
      obtain rfl := hown j hj
      exact hne
    · exact hn k' j (by rw [hindex, Function.update_of_ne hk]; exact hj)

/-- Empty a slot that has no owner afterwards. -/
theorem erase (h : Mirror w m slots) (hslots : Slots w) {k : UInt64} {i : Int32} {s : Order}
    (hvolume : s.volume = 0) (hown : w.index k = some i)
    (hindex : w'.index = Function.update w.index k none) :
    Mirror w' (Function.update m k none) (slots.set (toSizeT i) s) where
  length := by rw [List.length_set, h.length]
  owned k' j o' hj ho' := by
    rw [hindex] at hj
    by_cases hk : k' = k
    · subst hk
      rw [Function.update_self] at hj
      exact absurd hj (by simp)
    · rw [Function.update_of_ne hk] at hj ho'
      have hne : toSizeT i ≠ toSizeT j := by
        intro e
        exact hk (hslots.injective k' k i (toSizeT_injective e ▸ hj) hown)
      rw [List.getElem?_set_ne hne]
      exact h.owned k' j o' hj ho'
  unowned n t ht hn := by
    by_cases hni : toSizeT i = n
    · subst hni
      rw [List.getElem?_set] at ht
      split at ht
      · split at ht
        · obtain rfl := Option.some.inj ht
          exact hvolume
        · exact absurd ht (by simp)
      · next hne => exact absurd rfl hne
    · rw [List.getElem?_set_ne hni] at ht
      apply h.unowned n t ht
      intro k' j hj
      by_cases hk : k' = k
      · subst hk
        obtain rfl := Option.some.inj (hj.symm.trans hown)
        exact hni
      · exact hn k' j (by rw [hindex, Function.update_of_ne hk]; exact hj)

/-- Nothing written: the order in the slot agrees with the one that replaces it. -/
theorem keep (h : Mirror w m slots) {k : UInt64} {a b : Order} (hb : m k = some b)
    (hagree : ∀ s : Order, s.Agrees b → s.Agrees a) :
    Mirror w (Function.update m k (some a)) slots where
  length := h.length
  owned k' j o' hj ho' := by
    by_cases hk : k' = k
    · subst hk
      rw [Function.update_self] at ho'
      obtain rfl := Option.some.inj ho'
      obtain ⟨s, hs, hagrees, hvolume⟩ := h.owned k' j b hj hb
      exact ⟨s, hs, hagree s hagrees, hvolume⟩
    · rw [Function.update_of_ne hk] at ho'
      exact h.owned k' j o' hj ho'
  unowned := h.unowned

/-- A diff brings the order in a slot up to the one it was written for. -/
theorem agrees_of_diff {s a b : Order} (h : s.Agrees b) (hstatic : a.SameStatic b)
    (hid : a.id = b.id) : { s with volume := a.volume, price := a.price }.Agrees a where
  static :=
    have hs := h.static.trans hstatic.symm
    ⟨hs.buy, hs.volumeEntered, hs.stationId, hs.range, hs.minVolume, hs.duration, hs.type⟩
  price := Or.inl rfl
  volume := rfl
  id := h.id.trans hid.symm

/-- An order that did not change agrees with what agreed with it. -/
theorem agrees_of_unchanged {s a b : Order} (h : s.Agrees b) (hstatic : a.SameStatic b)
    (hid : a.id = b.id) (hchanged : ¬ changed a b) : s.Agrees a := by
  have hsame : a.price.eq b.price = true ∧ a.volume = b.volume := by
    simpa [changed] using hchanged
  exact ⟨h.static.trans hstatic.symm, Double.same_of_same_of_eq h.price hsame.1,
    h.volume.trans hsame.2.symm, h.id.trans hid.symm⟩

theorem applyRecords_full {i : Int32} {o : Order} (h : toSizeT i < slots.length) :
    applyRecords slots [.full i o] = some (slots.set (toSizeT i) o) := by
  simp [applyRecords, Record.apply, h]

theorem applyRecords_diff {i : Int32} {d : Diff} {s : Order} (h : slots[toSizeT i]? = some s) :
    applyRecords slots [.diff i d] =
      some (slots.set (toSizeT i) { s with volume := d.volume, price := d.price }) := by
  simp [applyRecords, Record.apply, h]

/-- The record of a step moves the slots along. -/
theorem step (h : Mirror w m slots) (hslots : Slots w) (he : e.Enabled Order.id m)
    (hsound : Sound e)
    (hstep : Step w e w') (hlen : w'.activeOrders2.length < slotCount) :
    ∃ rs slots', w'.records = w.records ++ rs ∧ applyRecords slots rs = some slots' ∧
      Mirror w' (e.apply Order.id m) slots' := by
  cases hstep with
  | @fresh o hindex hfree =>
    have hlen : w.activeOrders2.length + 1 < slotCount := by simpa [put] using hlen
    have hi : toSizeT (Int32.ofNat (w.activeOrders2.length + 1)) = w.activeOrders2.length + 1 :=
      toSizeT_ofNat (hlen.trans (by decide))
    refine ⟨_, _, rfl, applyRecords_full (by rw [hi, h.length]; exact hlen), ?_⟩
    refine h.write (by rw [hi]; exact hlen) (.refl o) hsound ?_
      (fun j hj => absurd (hindex.symm.trans hj) (by simp)) rfl
    -- the new slot is past all that were handed out
    intro k _ hk
    have := hslots.owned_le k _ hk
    omega
  | @recycled o i free hindex hfree =>
    have hmem : i ∈ w.freeList := by simp [hfree]
    have hi : toSizeT i < slotCount := by
      have hle := hslots.free_le i hmem
      have : w.activeOrders2.length < slotCount := by simpa [put] using hlen
      omega
    refine ⟨_, _, rfl, applyRecords_full (by rw [h.length]; exact hi), ?_⟩
    exact h.write hi (.refl o) hsound (fun k _ hk => hslots.disjoint k i hk hmem)
      (fun j hj => absurd (hindex.symm.trans hj) (by simp)) rfl
  | @changed a b i hchanged hindex =>
    obtain ⟨hid, hb⟩ := he
    obtain ⟨s, hs, hagrees, -⟩ := h.owned a.id i b hindex hb
    have hi : toSizeT i < slotCount := by
      rw [← h.length]
      exact (List.getElem?_eq_some_iff.mp hs).1
    refine ⟨_, _, rfl, applyRecords_diff hs, ?_⟩
    refine h.write hi (agrees_of_diff hagrees hsound.2 hid) hsound.1 ?_
      (fun j hj => Option.some.inj (hj.symm.trans hindex))
      (Function.update_eq_self_iff.mpr hindex.symm).symm
    intro k hk hki
    exact hk (hslots.injective k a.id i hki hindex)
  | @unchanged a b hchanged =>
    obtain ⟨hid, hb⟩ := he
    refine ⟨[], slots, by simp, rfl, h.keep hb ?_⟩
    intro s hs
    exact agrees_of_unchanged hs hsound.2 hid hchanged
  | @deleted b i hindex =>
    obtain ⟨s, hs, -, -⟩ := h.owned b.id i b hindex he
    exact ⟨_, _, rfl, applyRecords_diff hs, h.erase hslots rfl hindex rfl⟩

/-- A run of steps moves the slots along. -/
theorem run {es : List (Edit Order)} (h : Mirror w m slots) (hslots : Slots w)
    (hvalid : Valid Order.id m es) (hsound : ∀ e ∈ es, Sound e)
    (hrun : es.foldlM applyEdit w = .ok w') (hlen : w'.activeOrders2.length < slotCount) :
    ∃ rs slots', w'.records = w.records ++ rs ∧ applyRecords slots rs = some slots' ∧
      Mirror w' (es.foldl (Edit.apply Order.id) m) slots' ∧ Slots w' := by
  induction es generalizing w m slots with
  | nil =>
    obtain rfl : w = w' := Except.ok.inj hrun
    exact ⟨[], slots, by simp, rfl, h, hslots⟩
  | cons e es ih =>
    rw [List.foldlM_cons] at hrun
    obtain ⟨w₁, h₁, hrun⟩ := bind_eq_ok hrun
    have hstep := applyEdit_eq_ok_iff.mp h₁
    -- the slots handed out grow, so the bound at the end holds all along
    obtain ⟨_, hwrote, -, -⟩ := Wrote.of_run hrun
    have hlen₁ := hwrote.length.trans_lt hlen
    obtain ⟨rs₁, slots₁, hrs₁, happly₁, hmirror₁⟩ :=
      h.step hslots hvalid.1 (hsound e List.mem_cons_self) hstep hlen₁
    obtain ⟨rs₂, slots₂, hrs₂, happly₂, hmirror₂, hslots₂⟩ :=
      ih hmirror₁ (hslots.step hstep hlen₁) hvalid.2
        (fun e' he' => hsound e' (List.mem_cons_of_mem e he')) hrun
    refine ⟨rs₁ ++ rs₂, slots₂, by rw [hrs₂, hrs₁, List.append_assoc], ?_, hmirror₂, hslots₂⟩
    rw [applyRecords, List.foldlM_append]
    exact Option.bind_eq_some_iff.mpr ⟨slots₁, happly₁, happly₂⟩

/-- A slot with volume belongs to an active order. -/
theorem exists_owner (h : Mirror w m slots) (hkeys : Keys w m) {n : ℕ} {s : Order}
    (hs : slots[n]? = some s) (hvolume : s.volume ≠ 0) :
    ∃ k i o, w.index k = some i ∧ toSizeT i = n ∧ m k = some o ∧ s.Agrees o := by
  have hown : ∃ k i, w.index k = some i ∧ toSizeT i = n := by
    by_contra hnone
    refine hvolume (h.unowned n s hs ?_)
    intro k i hk hi
    exact hnone ⟨k, i, hk, hi⟩
  obtain ⟨k, i, hk, rfl⟩ := hown
  have hsome : (m k).isSome := by
    rw [← hkeys, hk]
    rfl
  obtain ⟨o, ho⟩ := Option.isSome_iff_exists.mp hsome
  obtain ⟨t, ht, hagrees, -⟩ := h.owned k i o hk ho
  obtain rfl := Option.some.inj (ht.symm.trans hs)
  exact ⟨k, i, o, hk, rfl, ho, hagrees⟩

end Mirror

/-! ### The reader after a page -/

/-- The live slots of the reader, by id, are the book in all but `issued`. -/
def Shows (r : OrderReader) (w : JsonWriter) : Prop :=
  List.Forall₂ Order.Agrees (liveOrders r) w.activeOrders

/-- Writer and reader between two pages. -/
structure InStep (w : JsonWriter) (r : OrderReader) : Prop where
  settled : Settled w
  slots : Slots w
  mirror : Mirror w (lookup Order.id w.activeOrders) r.activeOrders

namespace InStep

variable {w w' : JsonWriter} {r : OrderReader}

/-- The ids of the live slots are distinct. -/
theorem pairwise_id_ne (h : InStep w r) :
    r.activeOrders.Pairwise fun a b => a.volume ≠ 0 → b.volume ≠ 0 → a.id ≠ b.id := by
  rw [List.pairwise_iff_getElem]
  intro n n' hn hn' hlt ha hb hid
  -- two slots with one id have one owner, and that has one slot
  obtain ⟨k, i, o, hk, hi, ho, hagrees⟩ :=
    h.mirror.exists_owner h.settled.keys (List.getElem?_eq_getElem hn) ha
  obtain ⟨k', i', o', hk', hi', ho', hagrees'⟩ :=
    h.mirror.exists_owner h.settled.keys (List.getElem?_eq_getElem hn') hb
  have hkey : o.id = k := ((lookup_eq_some_iff h.settled.sorted).mp ho).2
  have hkey' : o'.id = k' := ((lookup_eq_some_iff h.settled.sorted).mp ho').2
  have hkk : k = k' := by rw [← hkey, ← hkey', ← hagrees.id, ← hagrees'.id, hid]
  subst hkk
  obtain rfl := Option.some.inj (hk.symm.trans hk')
  omega

theorem strictlySorted_liveOrders (h : InStep w r) : StrictlySorted Order.id (liveOrders r) := by
  have hle : (liveOrders r).Pairwise fun a b => decide (a.id ≤ b.id) = true :=
    List.pairwise_mergeSort (fun a b c hab hbc => by
        simp only [decide_eq_true_eq] at *
        exact hab.trans hbc)
      (fun a b => by simpa using le_total a.id b.id) _
  have hne : (liveOrders r).Pairwise fun a b => a.id ≠ b.id := by
    refine ((List.mergeSort_perm _ _).pairwise_iff fun hab => Ne.symm hab).mpr ?_
    refine List.pairwise_filter.mpr (h.pairwise_id_ne.imp fun hab => ?_)
    simpa using hab
  exact hle.imp₂ (fun a b hle hne => lt_of_le_of_ne (of_decide_eq_true hle) hne) hne

theorem mem_liveOrders {s : Order} : s ∈ liveOrders r ↔ s ∈ r.activeOrders ∧ s.volume ≠ 0 := by
  simp [liveOrders, List.mem_mergeSort]

/-- **In step, the live slots show the book.** -/
theorem shows (h : InStep w r) : Shows r w := by
  refine StrictlySorted.forall₂ (fun hab => hab.id) h.strictlySorted_liveOrders h.settled.sorted
    ?_ ?_
  · intro s hs
    obtain ⟨hs, hvolume⟩ := mem_liveOrders.mp hs
    obtain ⟨n, hn⟩ := List.getElem?_of_mem hs
    obtain ⟨k, i, o, -, -, ho, hagrees⟩ := h.mirror.exists_owner h.settled.keys hn hvolume
    exact ⟨o, ((lookup_eq_some_iff h.settled.sorted).mp ho).1, hagrees⟩
  · intro o ho
    have hlookup := (lookup_eq_some_iff h.settled.sorted).mpr ⟨ho, rfl⟩
    have hsome : (w.index o.id).isSome := by rw [h.settled.keys, hlookup]; rfl
    obtain ⟨i, hi⟩ := Option.isSome_iff_exists.mp hsome
    obtain ⟨s, hs, hagrees, hvolume⟩ := h.mirror.owned o.id i o hi hlookup
    exact ⟨s, mem_liveOrders.mpr ⟨List.mem_of_getElem? hs, hvolume⟩, hagrees⟩

end InStep

/-! ### One page -/

/-- A page the archive can hold while a book is active. -/
structure AdmissibleDoc (book doc : List Order) : Prop where
  nonempty : doc ≠ []
  sorted : StrictlySorted Order.id doc
  volume : ∀ o ∈ doc, 0 < o.volume
  buy : ∀ o ∈ doc, o.buy = 0 ∨ o.buy = 1
  static : ∀ o ∈ doc, ∀ p ∈ book, p.id = o.id → o.SameStatic p

/-- The pages the archive can hold, one after the other. -/
def Admissible : List Order → List (List Order) → Prop
  | _, [] => True
  | book, doc :: docs => AdmissibleDoc book doc ∧ Admissible (replacePage book doc) docs

namespace AdmissibleDoc

variable {book doc : List Order} (h : AdmissibleDoc book doc)
include h

theorem volume_ne_zero {o : Order} (ho : o ∈ doc) : o.volume ≠ 0 := by
  intro hzero
  exact UInt32.lt_irrefl 0 (hzero ▸ h.volume o ho)

theorem buy_ne_two {o : Order} (ho : o ∈ doc) : o.buy ≠ 2 := by
  rcases h.buy o ho with hb | hb <;> rw [hb] <;> decide

theorem sound {e : Edit Order} (he : e ∈ pageEdits book doc) : Sound e := by
  have hfrom := from_of_mem_diff Order.id he
  cases e with
  | add o => exact h.volume_ne_zero hfrom
  | keep a b =>
    obtain ⟨ha, hb, hid⟩ := hfrom
    exact ⟨h.volume_ne_zero ha, h.static a ha b (mem_of_mem_replacedBy hb) hid.symm⟩
  | drop b => trivial

end AdmissibleDoc

theorem applyRecords_reader {r : OrderReader} {rs : List Record} {slots : List Order}
    (h : applyRecords r.activeOrders rs = some slots) :
    r.applyRecords rs = some { r with activeOrders := slots } := by
  induction rs generalizing r with
  | nil =>
    obtain rfl : r.activeOrders = slots := Option.some.inj h
    rfl
  | cons record rs ih =>
    obtain ⟨slots₁, h₁, h⟩ := Option.bind_eq_some_iff.mp h
    have h₁ : record.apply r.activeOrders = some slots₁ := h₁
    rw [OrderReader.applyRecords, List.foldlM_cons, h₁]
    exact ih (r := { r with activeOrders := slots₁ }) h

/-- One page: its records are recognised, and the reader stays in step. -/
theorem InStep.readDoc_body {w w' : JsonWriter} {r : OrderReader} (h : InStep w r)
    {doc : List Order} (hdoc : AdmissibleDoc w.activeOrders doc)
    (hok : extractDoc noCheck w doc = .ok w') (hlen : w'.activeOrders2.length < slotCount) :
    readRecords (body w w') = some (recordsBetween w w') ∧
      ∃ r', r.readDoc (body w w') = some r' ∧ InStep w' r' := by
  obtain ⟨w₁, rs, hrun, rfl, hpage⟩ := pageWritten_of_extractDoc hdoc.nonempty hok
  have hrec := hpage.recognisable fun o ho => hdoc.buy_ne_two ho
  have hslots : Slots (w.beginPage doc) :=
    ⟨h.slots.owned_le, h.slots.free_le, h.slots.injective, h.slots.free_nodup, h.slots.disjoint⟩
  have hmirror : Mirror (w.beginPage doc) (lookup Order.id w.activeOrders) r.activeOrders :=
    ⟨h.mirror.length, h.mirror.owned, h.mirror.unowned⟩
  -- the slots move along the records of the run, which are those of the body
  have hvalid := walkable_of_sorted hdoc.sorted h.settled.sorted
  obtain ⟨rs', slots', hrs', happly, hmirror', hslots'⟩ :=
    hmirror.run hslots hvalid (fun e he => hdoc.sound he) hrun hlen
  have hrs : rs' = rs := List.append_cancel_left (hrs'.symm.trans hpage.records)
  subst hrs
  obtain ⟨w₂, hok₂, hsettled⟩ := h.settled.exists_extractDoc hdoc.nonempty hdoc.sorted
  obtain rfl := Except.ok.inj (hok.symm.trans hok₂)
  rw [hpage.body, hpage.recordsBetween]
  refine ⟨readRecords_writeRecords hrec, { r with activeOrders := slots' }, ?_, hsettled, ?_, ?_⟩
  · rw [readDoc_writeRecords hrec]
    exact applyRecords_reader happly
  · exact ⟨hslots'.owned_le, hslots'.free_le, hslots'.injective, hslots'.free_nodup,
      hslots'.disjoint⟩
  · rw [hpage.activeOrders, ← (foldl_pageEdits h.settled.listed.nodup hvalid).1]
    exact ⟨hmirror'.length, hmirror'.owned, hmirror'.unowned⟩

/-! ### All pages -/

/-- The readers after each of some bodies. -/
def readDocs (r : OrderReader) : List Bytes → Option (List OrderReader)
  | [] => some []
  | doc :: docs => do
    let r' ← r.readDoc doc
    let rs ← readDocs r' docs
    return r' :: rs

theorem Settled.exists_extractDocs {w : JsonWriter} (hw : Settled w) {docs : List (List Order)}
    (hdocs : Admissible w.activeOrders docs) : ∃ ws, extractDocs noCheck w docs = .ok ws := by
  induction docs generalizing w with
  | nil => exact ⟨[], rfl⟩
  | cons doc docs ih =>
    obtain ⟨w₁, h₁, hw₁⟩ := hw.exists_extractDoc hdocs.1.nonempty hdocs.1.sorted
    obtain ⟨_, _, _, _, hpage⟩ := pageWritten_of_extractDoc hdocs.1.nonempty h₁
    obtain ⟨ws, hws⟩ := ih hw₁ (hpage.activeOrders ▸ hdocs.2)
    refine ⟨w₁ :: ws, ?_⟩
    rw [extractDocs, h₁, ok_bind, hws]
    rfl

/-- A reader in step shows every book it is led through. -/
theorem InStep.readDocs {w : JsonWriter} {r : OrderReader} (h : InStep w r)
    {docs : List (List Order)} (hdocs : Admissible w.activeOrders docs) {ws : List JsonWriter}
    (hok : extractDocs noCheck w docs = .ok ws)
    (hlen : ∀ w' ∈ ws, w'.activeOrders2.length < slotCount) :
    (between body w ws).map readRecords = (between recordsBetween w ws).map some ∧
      ∃ rs, JsonWriter.readDocs r (between body w ws) = some rs ∧ List.Forall₂ Shows rs ws := by
  induction docs generalizing w r ws with
  | nil =>
    obtain rfl := Except.ok.inj hok
    exact ⟨rfl, [], rfl, .nil⟩
  | cons doc docs ih =>
    obtain ⟨w₁, h₁, hok⟩ := bind_eq_ok hok
    obtain ⟨ws, hws, hok⟩ := bind_eq_ok hok
    obtain rfl := Except.ok.inj hok
    obtain ⟨hrec, r₁, hread, h'⟩ := h.readDoc_body hdocs.1 h₁ (hlen w₁ List.mem_cons_self)
    obtain ⟨_, _, _, _, hpage⟩ := pageWritten_of_extractDoc hdocs.1.nonempty h₁
    obtain ⟨hrecs, rs, hreads, hshows⟩ := ih h' (hpage.activeOrders ▸ hdocs.2) hws
      fun w' hw' => hlen w' (List.mem_cons_of_mem w₁ hw')
    refine ⟨?_, r₁ :: rs, ?_, .cons h'.shows hshows⟩
    · rw [between_cons, between_cons, List.map_cons, List.map_cons, hrec, hrecs]
    · rw [between_cons, JsonWriter.readDocs, hread]
      show (JsonWriter.readDocs r₁ (between body w₁ ws) >>= fun rs => _) = _
      rw [hreads]
      rfl

theorem inStep_empty {r : OrderReader} (hlen : r.activeOrders.length = slotCount)
    (hzero : ∀ o ∈ r.activeOrders, o.volume = 0) : InStep empty r where
  settled := .empty
  slots := .empty
  mirror := ⟨hlen, nofun, fun _ s hs _ => hzero s (List.mem_of_getElem? hs)⟩

/-- **The bodies of any admissible pages are read back as the books of the
writer**, as long as it hands out no slot past the reader's. -/
theorem readDocs_bodies {docs : List (List Order)} (hdocs : Admissible [] docs)
    {r : OrderReader} (hslots : r.activeOrders.length = slotCount)
    (hzero : ∀ o ∈ r.activeOrders, o.volume = 0) :
    ∃ ws, extractDocs noCheck empty docs = .ok ws ∧
      ((∀ w ∈ ws, w.activeOrders2.length < slotCount) →
        (between body empty ws).map readRecords = (between recordsBetween empty ws).map some ∧
        ∃ rs, readDocs r (between body empty ws) = some rs ∧ List.Forall₂ Shows rs ws) := by
  obtain ⟨ws, hok⟩ := Settled.empty.exists_extractDocs hdocs
  exact ⟨ws, hok, (inStep_empty hslots hzero).readDocs hdocs hok⟩

/-- The archive can hold the three pages. -/
theorem admissible_threePages : Admissible [] threePages := by
  have hsecond : replacePage [] [units 5 1, units 7 1] = [units 5 1, units 7 1] := by decide
  have hthird : replacePage [units 5 1, units 7 1] [units 5 2, units 8 1] =
      [units 5 2, units 8 1] := by decide
  have hstatic : ∀ {k k' v v'}, (units k v).SameStatic (units k' v') :=
    ⟨rfl, rfl, rfl, rfl, rfl, rfl, rfl⟩
  refine ⟨⟨by simp, by decide, by decide, by decide, by simp⟩, ?_⟩
  rw [hsecond]
  refine ⟨⟨by simp, by decide, by decide, by decide, by simp [hstatic]⟩, ?_⟩
  rw [hthird]
  exact ⟨⟨by simp, by decide, by decide, by decide, by simp [hstatic]⟩, trivial⟩

/-- The three pages are read back. -/
theorem readDocs_bodies_threePages :
    Admissible [] threePages ∧
      ∃ ws, extractDocs noCheck empty threePages = .ok ws ∧
        ws.map JsonWriter.activeOrders = [[units 5 1, units 7 1], [units 5 2, units 8 1],
          [units 5 2, units 7 3, units 8 1]] ∧
        (between body empty ws).map readRecords = (between recordsBetween empty ws).map some ∧
        ∃ rs, readDocs (OrderReader.ofText []) (between body empty ws) = some rs ∧
          List.Forall₂ Shows rs ws := by
  obtain ⟨ws, hok, hread⟩ := readDocs_bodies admissible_threePages (r := OrderReader.ofText [])
    List.length_replicate fun o ho => (List.eq_of_mem_replicate ho).symm ▸ rfl
  obtain ⟨w₁, w₂, w₃, hsample, h₁, h₂, h₃⟩ := exists_extractDocs_threePages
  obtain rfl := Except.ok.inj (hok.symm.trans hsample)
  refine ⟨admissible_threePages, _, hok, ?_, hread ?_⟩
  · simp [h₁.activeOrders, h₂.activeOrders, h₃.activeOrders]
  · -- three slots are handed out
    simp [h₁.length, h₂.length, h₃.length, slotCount]

end JsonWriter
end Pricing
end EveIndustryPlanner
