import EveIndustryPlanner.Lib.Pod

/-!
# Orders, diffs and their records

The market archive keeps one record per change of the order book.  A record is
the number of a slot followed by either a full order or a diff; which of the
two it is shows only in the first byte after the slot number, the `buy` field,
which is `0` or `1` in an order and `2` in a diff.

## Main definitions

* `Double` — a double by its bits, with the comparison `==` of the language.
* `Order`, `Diff` — the two tuples of `order.h`.
* `equalIgnoringIssued` — the comparison of the writer's self-check.
* `Order.Agrees` — equality in every field except `issued`.
* `Record`, `writeRecord`, `readRecord` — one record of a page's body.

## Main results

* `Double.eq_trans` — `==` chains through its middle.
* `readRecord_writeRecord` — **a record is read back as the kind it was written as.**
-/

namespace EveIndustryPlanner
namespace Pricing

/-! ### Prices -/

/-- A double, by its bits. -/
structure Double where
  bits : UInt64
  deriving DecidableEq, Repr, Inhabited

namespace Double

/-- The bits without the sign. -/
def magnitude (x : Double) : ℕ := x.bits.toNat % 2 ^ 63

/-- All exponent bits set and a nonzero mantissa. -/
def isNaN (x : Double) : Bool := decide (2047 * 2 ^ 52 < x.magnitude)

/-- Zero of either sign. -/
def isZero (x : Double) : Bool := x.magnitude == 0

/-- The `==` of doubles: nothing equals a NaN, and the two zeros are equal. -/
def eq (x y : Double) : Bool :=
  !x.isNaN && !y.isNaN && (x.bits == y.bits || x.isZero && y.isZero)

/-- Where a double that is no NaN is among the others. -/
def rank (x : Double) : ℤ := if x.bits.toNat < 2 ^ 63 then x.magnitude else -x.magnitude

/-- The `<` of doubles: nothing is below or above a NaN. -/
def lt (x y : Double) : Bool := !x.isNaN && !y.isNaN && decide (x.rank < y.rank)

/-- The same bits, or equal as doubles. -/
def Same (x y : Double) : Prop := x = y ∨ x.eq y = true

instance (x y : Double) : Decidable (x.Same y) := inferInstanceAs (Decidable (_ ∨ _))

theorem eq_iff {x y : Double} :
    x.eq y = true ↔ x.isNaN = false ∧ y.isNaN = false ∧
      (x = y ∨ x.isZero = true ∧ y.isZero = true) := by
  obtain ⟨a⟩ := x
  obtain ⟨b⟩ := y
  simp [eq, and_assoc]

/-- Away from NaN the same bits are equal as doubles. -/
theorem same_iff_eq {x y : Double} (hx : x.isNaN = false) : x.Same y ↔ x.eq y = true := by
  constructor
  · rintro (rfl | h)
    · exact eq_iff.mpr ⟨hx, hx, Or.inl rfl⟩
    · exact h
  · exact Or.inr

theorem eq_trans {x y z : Double} (hxy : x.eq y = true) (hyz : y.eq z = true) :
    x.eq z = true := by
  obtain ⟨hx, -, h₁⟩ := eq_iff.mp hxy
  obtain ⟨-, hz, h₂⟩ := eq_iff.mp hyz
  refine eq_iff.mpr ⟨hx, hz, ?_⟩
  rcases h₁ with rfl | ⟨hx0, hy0⟩
  · exact h₂
  · -- `x` and `y` are zeros, of any signs
    rcases h₂ with rfl | ⟨-, hz0⟩
    · exact Or.inr ⟨hx0, hy0⟩
    · exact Or.inr ⟨hx0, hz0⟩

theorem eq_symm {x y : Double} (h : x.eq y = true) : y.eq x = true := by
  obtain ⟨hx, hy, h⟩ := eq_iff.mp h
  refine eq_iff.mpr ⟨hy, hx, ?_⟩
  rcases h with rfl | ⟨hx0, hy0⟩
  · exact Or.inl rfl
  · exact Or.inr ⟨hy0, hx0⟩

/-- A price that did not change keeps what agrees with it. -/
theorem same_of_same_of_eq {x y z : Double} (hxy : x.Same y) (hyz : z.eq y = true) : x.Same z := by
  rcases hxy with rfl | hxy
  · exact Or.inr (eq_symm hyz)
  · exact Or.inr (eq_trans hxy (eq_symm hyz))

end Double

instance : Pod Double := Pod.ofEquiv ⟨Double.bits, Double.mk, fun _ => rfl, fun _ => rfl⟩

/-! ### Orders and diffs -/

/-- One order of the book. -/
structure Order where
  buy : Int8
  issued : UInt32
  price : Double
  volumeEntered : UInt32
  stationId : UInt64
  volume : UInt32
  range : Int8
  minVolume : UInt32
  duration : UInt32
  type : UInt32
  id : UInt64
  deriving DecidableEq, Repr

/-- The change of an order that is already in its slot.  Its `buy` is always `2`. -/
structure Diff where
  buy : Int8
  price : Double
  volume : UInt32
  deriving DecidableEq, Repr

/-- A value-initialised order. -/
instance : Inhabited Order := ⟨⟨0, 0, ⟨0⟩, 0, 0, 0, 0, 0, 0, 0, 0⟩⟩

/-- One unit for sale under an id. -/
def Order.single (id : UInt64) : Order := { (default : Order) with volume := 1, id := id }

/-- Some units for sale under an id. -/
def units (id : UInt64) (volume : UInt32) : Order := { Order.single id with volume := volume }

/-- The tuple an order is made of, in the order of its members. -/
def Order.tuple : Order ≃ Int8 × UInt32 × Double × UInt32 × UInt64 × UInt32 × Int8 × UInt32 ×
    UInt32 × UInt32 × UInt64 where
  toFun o := (o.buy, o.issued, o.price, o.volumeEntered, o.stationId, o.volume, o.range,
    o.minVolume, o.duration, o.type, o.id)
  invFun t := match t with
    | (buy, issued, price, volumeEntered, stationId, volume, range, minVolume, duration, type,
        id) => ⟨buy, issued, price, volumeEntered, stationId, volume, range, minVolume, duration,
          type, id⟩
  left_inv _ := rfl
  right_inv _ := rfl

/-- The tuple a diff is made of. -/
def Diff.tuple : Diff ≃ Int8 × Double × UInt32 where
  toFun d := (d.buy, d.price, d.volume)
  invFun t := match t with
    | (buy, price, volume) => ⟨buy, price, volume⟩
  left_inv _ := rfl
  right_inv _ := rfl

/-- `write_order` and `read_order`: the members one after the other. -/
instance : Pod Order := Pod.ofEquiv Order.tuple

/-- `write_diff` and `read_diff`. -/
instance : Pod Diff := Pod.ofEquiv Diff.tuple

example : Pod.size Order = 50 ∧ Pod.size Diff = 13 := by decide

/-- The comparison of the writer's self-check. -/
def equalIgnoringIssued (a b : Order) : Bool :=
  a.buy == b.buy && a.price.eq b.price && a.volumeEntered == b.volumeEntered &&
    a.stationId == b.stationId && a.volume == b.volume && a.range == b.range &&
    a.minVolume == b.minVolume && a.duration == b.duration && a.type == b.type && a.id == b.id

/-- The fields no diff can change, except `issued`. -/
structure Order.SameStatic (a b : Order) : Prop where
  buy : a.buy = b.buy
  volumeEntered : a.volumeEntered = b.volumeEntered
  stationId : a.stationId = b.stationId
  range : a.range = b.range
  minVolume : a.minVolume = b.minVolume
  duration : a.duration = b.duration
  type : a.type = b.type

/-- Equality in every field except `issued`. -/
structure Order.Agrees (a b : Order) : Prop where
  static : a.SameStatic b
  price : a.price.Same b.price
  volume : a.volume = b.volume
  id : a.id = b.id

namespace Order

theorem SameStatic.refl (a : Order) : a.SameStatic a := ⟨rfl, rfl, rfl, rfl, rfl, rfl, rfl⟩

theorem SameStatic.trans {a b c : Order} (h : a.SameStatic b) (h' : b.SameStatic c) :
    a.SameStatic c :=
  ⟨h.1.trans h'.1, h.2.trans h'.2, h.3.trans h'.3, h.4.trans h'.4, h.5.trans h'.5, h.6.trans h'.6,
    h.7.trans h'.7⟩

theorem SameStatic.symm {a b : Order} (h : a.SameStatic b) : b.SameStatic a :=
  ⟨h.1.symm, h.2.symm, h.3.symm, h.4.symm, h.5.symm, h.6.symm, h.7.symm⟩

theorem Agrees.refl (a : Order) : a.Agrees a := ⟨.refl a, .inl rfl, rfl, rfl⟩

/-- Away from NaN prices, agreement is what the self-check compares. -/
theorem equalIgnoringIssued_iff {a b : Order} (hnan : a.price.isNaN = false) :
    equalIgnoringIssued a b = true ↔ a.Agrees b := by
  simp only [equalIgnoringIssued, Bool.and_eq_true, beq_iff_eq, ← Double.same_iff_eq hnan]
  constructor
  · rintro ⟨⟨⟨⟨⟨⟨⟨⟨⟨h₁, h₂⟩, h₃⟩, h₄⟩, h₅⟩, h₆⟩, h₇⟩, h₈⟩, h₉⟩, h₁₀⟩
    exact ⟨⟨h₁, h₃, h₄, h₆, h₇, h₈, h₉⟩, h₂, h₅, h₁₀⟩
  · rintro ⟨⟨h₁, h₃, h₄, h₆, h₇, h₈, h₉⟩, h₂, h₅, h₁₀⟩
    exact ⟨⟨⟨⟨⟨⟨⟨⟨⟨h₁, h₂⟩, h₃⟩, h₄⟩, h₅⟩, h₆⟩, h₇⟩, h₈⟩, h₉⟩, h₁₀⟩

end Order

/-! ### Records -/

/-- One record of a page's body: a slot number and what happens to the slot. -/
inductive Record where
  /-- A full order replaces what is in the slot. -/
  | full (index : Int32) (o : Order)
  /-- Price and volume of the order in the slot change. -/
  | diff (index : Int32) (d : Diff)
  deriving DecidableEq, Repr

/-- The bytes of a record: four for the slot number, then the order or the diff. -/
def writeRecord : Record → Bytes
  | .full index o => Pod.write index ++ Pod.write o
  | .diff index d => Pod.write index ++ Pod.write d

@[simp] theorem length_writeRecord_full (index : Int32) (o : Order) :
    (writeRecord (.full index o)).length = 54 := by
  rw [writeRecord, List.length_append, Pod.length_write, Pod.length_write]
  rfl

@[simp] theorem length_writeRecord_diff (index : Int32) (d : Diff) :
    (writeRecord (.diff index d)).length = 17 := by
  rw [writeRecord, List.length_append, Pod.length_write, Pod.length_write]
  rfl

/-- One record off the front of a body.  The byte after the slot number says
which kind it is: `2` for a diff, anything else for an order. -/
def readRecord (doc : Bytes) : Option (Record × Bytes) := do
  let (readIndex, doc) ← Pod.read Int32 doc
  -- the byte is only looked at, both kinds start with it
  let buy ← doc.head?
  if buy = 2 then
    let (d, doc) ← Pod.read Diff doc
    return (.diff readIndex d, doc)
  else
    let (o, doc) ← Pod.read Order doc
    return (.full readIndex o, doc)

/-- A record the reader takes for what it is. -/
def Record.Recognisable : Record → Prop
  | .full _ o => o.buy ≠ 2
  | .diff _ d => d.buy = 2

theorem head?_write_order (o : Order) : (Pod.write o).head? = some o.buy.toUInt8 := by
  rw [← UInt8.ofNat_toNat (x := o.buy.toUInt8)]; rfl

theorem head?_write_diff (d : Diff) : (Pod.write d).head? = some d.buy.toUInt8 := by
  rw [← UInt8.ofNat_toNat (x := d.buy.toUInt8)]; rfl

/-- **A record is read back as the kind it was written as.** -/
theorem readRecord_writeRecord {r : Record} (h : r.Recognisable) (rest : Bytes) :
    readRecord (writeRecord r ++ rest) = some (r, rest) := by
  cases r with
  | full index o =>
    have hbuy : o.buy.toUInt8 ≠ 2 := by
      intro e
      apply h
      rw [← Int8.toInt8_toUInt8 o.buy, e]
      rfl
    simp [readRecord, writeRecord, List.append_assoc, head?_write_order, hbuy]
  | diff index d =>
    have hbuy : d.buy.toUInt8 = 2 := congrArg Int8.toUInt8 h
    simp [readRecord, writeRecord, List.append_assoc, head?_write_diff, hbuy]

/-- A record is a slot number and an order, or a slot number and a diff. -/
theorem length_eq_of_readRecord {doc rest : Bytes} {r : Record}
    (h : readRecord doc = some (r, rest)) :
    doc.length = 54 + rest.length ∨ doc.length = 17 + rest.length := by
  simp only [readRecord, Option.bind_eq_bind, Option.bind_eq_some_iff] at h
  obtain ⟨⟨index, doc₁⟩, h₁, buy, -, h⟩ := h
  have hindex : doc.length = 4 + doc₁.length := Pod.length_of_read h₁
  split at h
  · obtain ⟨⟨d, doc₂⟩, h₂, h⟩ := Option.bind_eq_some_iff.mp h
    have hdiff : doc₁.length = 13 + doc₂.length := Pod.length_of_read h₂
    obtain ⟨-, hrest⟩ := Prod.mk.injEq .. ▸ Option.some.inj h
    rw [← hrest]
    show doc.length = 54 + doc₂.length ∨ doc.length = 17 + doc₂.length
    omega
  · obtain ⟨⟨o, doc₂⟩, h₂, h⟩ := Option.bind_eq_some_iff.mp h
    have horder : doc₁.length = 50 + doc₂.length := Pod.length_of_read h₂
    obtain ⟨-, hrest⟩ := Prod.mk.injEq .. ▸ Option.some.inj h
    rw [← hrest]
    show doc.length = 54 + doc₂.length ∨ doc.length = 17 + doc₂.length
    omega

theorem length_of_readRecord {doc rest : Bytes} {r : Record} (h : readRecord doc = some (r, rest)) :
    rest.length < doc.length := by
  rcases length_eq_of_readRecord h with h | h <;> omega

theorem writeRecord_ne_nil (r : Record) : writeRecord r ≠ [] := by
  cases r <;> exact List.cons_ne_nil _ _

end Pricing
end EveIndustryPlanner
