import EveIndustryPlanner.Lib.Replay
import EveIndustryPlanner.Pricing.Reader

/-!
# Reading a body twice

A record overwrites one slot, all of it or its price and volume, and what it
puts there does not depend on the other slots.  So a record that comes again
later makes its earlier copy irrelevant, and a body that is read a second time
leaves the slots as the first reading left them.

## Main definitions

* `Record.slot`, `Record.revise` — which slot a record is about, and what becomes of its order.
* `overwrite` — the slots after a record, which stay as they are if it has none of them.

## Main results

* `absorbs_overwrite` — a later copy of a record makes an earlier one irrelevant.
* `OrderReader.applyRecords_eq` — records that all have a slot overwrite one after the other.
* `OrderReader.readDoc_of_readDoc` — **reading a body again changes nothing.**
-/

namespace EveIndustryPlanner
namespace Pricing

/-! ### What a record overwrites -/

/-- The slot a record is about. -/
def Record.slot : Record → ℕ
  | .full index _ => toSizeT index
  | .diff index _ => toSizeT index

/-- The order in the slot after a record. -/
def Record.revise : Record → Order → Order
  | .full _ o, _ => o
  | .diff _ d, o => { o with volume := d.volume, price := d.price }

/-- The slots after a record, left alone if the record has no slot among them. -/
def overwrite (slots : List Order) (record : Record) : List Order :=
  slots.modify record.slot record.revise

@[simp] theorem length_overwrite (slots : List Order) (record : Record) :
    (overwrite slots record).length = slots.length := List.length_modify ..

@[simp] theorem length_foldl_overwrite (slots : List Order) (records : List Record) :
    (records.foldl overwrite slots).length = slots.length := by
  induction records generalizing slots with
  | nil => rfl
  | cons record records ih => rw [List.foldl_cons, ih, length_overwrite]

theorem Record.apply_eq (record : Record) (slots : List Order) :
    record.apply slots =
      if record.slot < slots.length then some (overwrite slots record) else none := by
  have hmodify : ∀ (n : ℕ) (f : Order → Order) (h : n < slots.length),
      slots.modify n f = slots.set n (f slots[n]) := by
    intro n f h
    rw [List.modify_eq_set_getElem?, List.getElem?_eq_getElem h]
    rfl
  by_cases h : record.slot < slots.length
  · rw [if_pos h, overwrite, hmodify _ _ h]
    cases record with
    | full index o => exact if_pos h
    | diff index d =>
      have h : toSizeT index < slots.length := h
      have hget : slots[toSizeT index]? = some slots[toSizeT index] := List.getElem?_eq_getElem h
      simp only [Record.apply, hget]
      rfl
  · rw [if_neg h]
    cases record with
    | full index o => exact if_neg h
    | diff index d =>
      have hget : slots[toSizeT index]? = none := List.getElem?_eq_none (not_lt.mp h)
      simp only [Record.apply, hget]

/-! ### Records that come again -/

/-- Price and volume come from the last diff, all else from the last full order. -/
theorem Record.revise_between (a b : Record) (o : Order) :
    a.revise (b.revise (a.revise o)) = a.revise (b.revise o) := by
  cases a with
  | full => rfl
  | diff => cases b <;> rfl

/-- A later copy of a record makes an earlier one irrelevant. -/
theorem absorbs_overwrite : Absorbs overwrite where
  twice a slots := by
    apply List.ext_getElem (by simp)
    intro n _ _
    simp only [overwrite, List.getElem_modify]
    split
    · cases a <;> rfl
    · rfl
  between a b slots := by
    apply List.ext_getElem (by simp)
    intro n _ _
    simp only [overwrite, List.getElem_modify]
    -- only where both have the slot is there anything to show
    split
    · split
      · exact a.revise_between b _
      · cases a <;> rfl
    · rfl

namespace OrderReader

/-- Records that all have a slot overwrite one after the other. -/
theorem applyRecords_eq (r : OrderReader) (records : List Record) :
    r.applyRecords records =
      if ∀ record ∈ records, record.slot < r.activeOrders.length then
        some { r with activeOrders := records.foldl overwrite r.activeOrders }
      else none := by
  induction records generalizing r with
  | nil => simp [applyRecords]
  | cons record records ih =>
    rw [applyRecords, List.foldlM_cons, Record.apply_eq]
    by_cases h : record.slot < r.activeOrders.length
    · have ih := ih { r with activeOrders := overwrite r.activeOrders record }
      rw [applyRecords] at ih
      rw [if_pos h]
      simpa [h] using ih
    · rw [if_neg h, if_neg fun hall => h (hall record List.mem_cons_self)]
      rfl

/-- Which records a body is read as does not depend on the reader. -/
theorem exists_records_of_readDoc {r r' : OrderReader} {doc : Bytes}
    (h : r.readDoc doc = some r') :
    ∃ records, ∀ r : OrderReader, r.readDoc doc = r.applyRecords records := by
  -- along the records of the body
  induction hn : doc.length using Nat.strong_induction_on generalizing r doc with
  | h n ih =>
    by_cases hdoc : doc = []
    · subst hdoc
      refine ⟨[], ?_⟩
      intro r
      rw [readDoc, Drain.run_of_size_eq_zero rfl]
      rfl
    · have hne : ∀ r, docDrain.size (r, doc) ≠ 0 := fun _ => by simpa [docDrain] using hdoc
      cases hrec : readRecord doc with
      | none =>
        -- what is no record at all is not read
        have hstep : docDrain.step (r, doc) = none := by
          show r.readStep doc = none
          simp [readStep, hrec]
        rw [readDoc, Drain.run_of_step_eq_none (hne r) hstep] at h
        exact absurd h (by simp)
      | some p =>
        obtain ⟨record, rest⟩ := p
        have hstep : ∀ r : OrderReader, docDrain.step (r, doc) =
            (record.apply r.activeOrders).map fun slots =>
              ({ r with activeOrders := slots }, rest) := by
          intro r
          show r.readStep doc = _
          cases hs : record.apply r.activeOrders <;> simp [readStep, hrec, hs]
        have hread : ∀ r : OrderReader, r.readDoc doc =
            ((record.apply r.activeOrders).map fun slots =>
              { r with activeOrders := slots }).bind fun r => r.readDoc rest := by
          intro r
          have hstep := hstep r
          cases hs : record.apply r.activeOrders with
          | none =>
            rw [hs] at hstep
            rw [readDoc, Drain.run_of_step_eq_none (hne r) hstep]
            rfl
          | some slots =>
            rw [hs] at hstep
            rw [readDoc, Drain.run_of_step hstep]
            rfl
        rw [hread] at h
        obtain ⟨r₁, -, h⟩ := Option.bind_eq_some_iff.mp h
        obtain ⟨records, hrecords⟩ := ih rest.length (hn ▸ length_of_readRecord hrec) h rfl
        refine ⟨record :: records, ?_⟩
        intro r
        rw [hread, applyRecords, List.foldlM_cons]
        exact congrArg _ (funext hrecords)

/-- **Reading a body again changes nothing.** -/
theorem readDoc_of_readDoc {r r' : OrderReader} {doc : Bytes} (h : r.readDoc doc = some r') :
    r'.readDoc doc = some r' := by
  obtain ⟨records, hrecords⟩ := exists_records_of_readDoc h
  rw [hrecords, applyRecords_eq] at h
  rw [hrecords, applyRecords_eq]
  split at h
  · next hslots =>
    obtain rfl := Option.some.inj h
    -- the first reading left as many slots as there were
    rw [if_pos (by simpa using hslots)]
    simp only [absorbs_overwrite.foldl_replay]
  · exact absurd h (by simp)

/-- A slot that is filled, changed and filled again. -/
theorem readDoc_of_readDoc_reused :
    let records : List Record := [.diff 0 ⟨2, ⟨7⟩, 3⟩, .full 0 (Order.single 5),
      .diff 0 ⟨2, ⟨9⟩, 0⟩, .full 0 (Order.single 6)]
    let r : OrderReader := { ofText [] with activeOrders := [default] }
    let r' : OrderReader := { ofText [] with activeOrders := [Order.single 6] }
    r.readDoc (records.flatMap writeRecord) = some r' ∧
      r'.readDoc (records.flatMap writeRecord) = some r' := by
  intro records r r'
  have hsingle : ∀ k, (Order.single k).buy ≠ 2 := by
    intro k
    show (0 : Int8) ≠ 2
    decide
  have hrec : ∀ record ∈ records, record.Recognisable := by
    intro record hmem
    simp only [records, List.mem_cons, List.not_mem_nil, or_false] at hmem
    rcases hmem with rfl | rfl | rfl | rfl
    · exact rfl
    · exact hsingle 5
    · exact rfl
    · exact hsingle 6
  have h : r.readDoc (records.flatMap writeRecord) = some r' := by
    rw [readDoc_writeRecords hrec, applyRecords_eq]
    rfl
  exact ⟨h, readDoc_of_readDoc h⟩

end OrderReader

end Pricing
end EveIndustryPlanner
