import EveIndustryPlanner.Lib.Fields
import EveIndustryPlanner.Market.Response

/-!
# Orders from JSON

An order of the downloaded market pages is a JSON object with eleven members.
They are told apart by the lengths of their names, and by a first character
where two names are of one length; every other name is taken for the longest.

## Main definitions

* `JsonValue` — the kinds of values the reader tells apart.
* `Field`, `fieldOf` — the members of an order, and how their names are recognised.
* `rangeToInt8`, `parseDatetime`, `read`, `convert` — an order is read.
* `Documented` — the objects the comments of the source describe.

## Main results

* `convert_eq_ok_iff` — **what is read of an object.**
* `acceptsDocumented_iff` — when exactly the documented objects are read.
-/

namespace EveIndustryPlanner
namespace Pricing

/-! ### JSON values -/

/-- JSON values as the reader stores them: a number is stored as a double where it
is not an integer, or not one of 64 bits. -/
inductive JsonValue where
  | null
  | bool (b : Bool)
  | unsigned (n : UInt64)
  | negative (n : Int64)
  | double (x : Double)
  | string (s : String)
  | array (l : List JsonValue)
  | object (members : List (String × JsonValue))

namespace JsonValue

/-- `GetUint64`, where `IsUint64`. -/
def getUint64 : JsonValue → Option UInt64
  | unsigned n => some n
  | _ => none

/-- `GetUint`, where `IsUint`. -/
def getUint : JsonValue → Option UInt32
  | unsigned n => if n.toNat < 2 ^ 32 then some n.toUInt32 else none
  | _ => none

/-- `GetBool`, where `IsBool`. -/
def getBool : JsonValue → Option Bool
  | bool b => some b
  | _ => none

/-- `GetDouble`, where `IsDouble`. -/
def getDouble : JsonValue → Option Double
  | double x => some x
  | _ => none

/-- `GetString`, where `IsString`; a character is a byte. -/
def getString : JsonValue → Option String
  | string s => some s
  | _ => none

end JsonValue

/-! ### The members of an order -/

/-- The members of an order. -/
inductive Field where
  | id
  | buy
  | type
  | price
  | range
  | issued
  | volume
  | duration
  | stationID
  | minVolume
  | volumeEntered
  deriving DecidableEq, Repr

namespace Field

/-- The documented name. -/
def name : Field → String
  | id => "id"
  | buy => "buy"
  | type => "type"
  | price => "price"
  | range => "range"
  | issued => "issued"
  | volume => "volume"
  | duration => "duration"
  | stationID => "stationID"
  | minVolume => "minVolume"
  | volumeEntered => "volumeEntered"

/-- The bit that says that a member was read. -/
def bit : Field → ℕ
  | id => 0
  | buy => 1
  | type => 2
  | price => 3
  | range => 4
  | issued => 5
  | volume => 6
  | duration => 7
  | stationID => 8
  | minVolume => 9
  | volumeEntered => 10

/-- What an order has for a member. -/
abbrev Stored : Field → Type
  | id => UInt64
  | buy => Int8
  | type => UInt32
  | price => Double
  | range => Int8
  | issued => UInt32
  | volume => UInt32
  | duration => UInt32
  | stationID => UInt64
  | minVolume => UInt32
  | volumeEntered => UInt32

theorem bit_lt (f : Field) : f.bit < 11 := by cases f <;> decide

theorem exists_bit {i : ℕ} (h : i < 11) : ∃ f : Field, f.bit = i := by
  interval_cases i
  exacts [⟨id, rfl⟩, ⟨buy, rfl⟩, ⟨type, rfl⟩, ⟨price, rfl⟩, ⟨range, rfl⟩, ⟨issued, rfl⟩,
    ⟨volume, rfl⟩, ⟨duration, rfl⟩, ⟨stationID, rfl⟩, ⟨minVolume, rfl⟩, ⟨volumeEntered, rfl⟩]

theorem bit_injective : Function.Injective bit := by
  intro f f' h
  cases f <;> cases f' <;> first | rfl | exact absurd h (by decide)

end Field

/-- The fields of an order. -/
def orderFields : Fields Order Field.Stored where
  get
    | .id, order => order.id
    | .buy, order => order.buy
    | .type, order => order.type
    | .price, order => order.price
    | .range, order => order.range
    | .issued, order => order.issued
    | .volume, order => order.volume
    | .duration, order => order.duration
    | .stationID, order => order.stationId
    | .minVolume, order => order.minVolume
    | .volumeEntered, order => order.volumeEntered
  set
    | .id, x, order => { order with id := x }
    | .buy, x, order => { order with buy := x }
    | .type, x, order => { order with type := x }
    | .price, x, order => { order with price := x }
    | .range, x, order => { order with range := x }
    | .issued, x, order => { order with issued := x }
    | .volume, x, order => { order with volume := x }
    | .duration, x, order => { order with duration := x }
    | .stationID, x, order => { order with stationId := x }
    | .minVolume, x, order => { order with minVolume := x }
    | .volumeEntered, x, order => { order with volumeEntered := x }
  get_set_self f x order := by cases f <;> rfl
  get_set_of_ne f f' x order h := by cases f <;> cases f' <;> first | rfl | exact absurd rfl h
  ext order order' h := by
    obtain ⟨⟩ := order
    obtain ⟨⟩ := order'
    rw [Order.mk.injEq]
    exact ⟨h .buy, h .issued, h .price, h .volumeEntered, h .stationID, h .volume, h .range,
      h .minVolume, h .duration, h .type, h .id⟩

/-- The member a name is taken for. -/
def fieldOf (name : String) : Field :=
  match name.length with
  | 2 => .id
  | 3 => .buy
  | 4 => .type
  | 5 => if name.toList.head? = some 'p' then .price else .range
  | 6 => if name.toList.head? = some 'i' then .issued else .volume
  | 8 => .duration
  | 9 => if name.toList.head? = some 's' then .stationID else .minVolume
  | _ => .volumeEntered

/-- A documented name is taken for its member. -/
theorem fieldOf_name (f : Field) : fieldOf f.name = f := by cases f <;> decide

/-! ### Reading a member -/

/-- The code of a range; a character is a byte. -/
def rangeToInt8 (x : String) : Int8 :=
  match x.length with
  | 1 => Int8.ofInt ((x.toList.headD '0').toNat - '0'.toNat : ℤ)
  | 2 => Int8.ofInt (10 * ((x.toList.headD '0').toNat - '0'.toNat : ℤ))
  | 6 => -1
  | 7 => -3
  | _ => -2

/-- `strptime` with the format `%FT%T`, as seconds from the beginning of 1970. -/
def strptime (s : String) : Option ℤ := do
  let (year, cs) ← Market.getNumber 0 9999 4 s.toList
  let cs ← Market.matchChar '-' cs
  let (mon, cs) ← Market.getNumber 1 12 2 cs
  let cs ← Market.matchChar '-' cs
  let (mday, cs) ← Market.getNumber 1 31 2 cs
  let cs ← Market.matchChar 'T' cs
  let (hour, cs) ← Market.getNumber 0 23 2 cs
  let cs ← Market.matchChar ':' cs
  let (min, cs) ← Market.getNumber 0 59 2 cs
  let cs ← Market.matchChar ':' cs
  let (sec, _) ← Market.getNumber 0 61 2 cs
  return Market.timegm ⟨year, mon, mday⟩ + hour * 3600 + min * 60 + sec

/-- What is there, or an exception. -/
def orThrow {α : Type} (what : String) : Option α → Except Fault α
  | some a => .ok a
  | none => .error (.runtimeError what)

/-- The time of a date. -/
def parseDatetime (x : String) : Except Fault UInt32 := do
  let time ← orThrow "std::uint32_t parse_datetime(const std::string_view): strptime failed"
    (strptime x)
  return UInt32.ofInt time

/-- The value of a member. -/
def read : (f : Field) → JsonValue → Except Fault f.Stored
  | .id, value => orThrow "!member.value.IsUint64()" value.getUint64
  | .buy, value => do
    let b ← orThrow "!member.value.IsBool()" value.getBool
    return if b then 1 else 0
  | .type, value => orThrow "!member.value.IsUint()" value.getUint
  | .price, value => orThrow "!member.value.IsDouble()" value.getDouble
  | .range, value => do
    let s ← orThrow "!member.value.IsString()" value.getString
    return rangeToInt8 s
  | .issued, value => do
    let s ← orThrow "!member.value.IsString()" value.getString
    parseDatetime s
  | .volume, value => orThrow "!member.value.IsUint()" value.getUint
  | .duration, value => orThrow "!member.value.IsUint()" value.getUint
  | .stationID, value => orThrow "!member.value.IsUint64()" value.getUint64
  | .minVolume, value => orThrow "!member.value.IsUint()" value.getUint
  | .volumeEntered, value => orThrow "!member.value.IsUint()" value.getUint

/-- One round of the loop: the order so far, and the members that were read. -/
def readMember (s : Order × ℕ) (member : String × JsonValue) : Except Fault (Order × ℕ) := do
  let x ← read (fieldOf member.1) member.2
  return (orderFields.set (fieldOf member.1) x s.1, s.2 ||| 1 <<< (fieldOf member.1).bit)

/-- An order from the members of an object. -/
def convert (members : List (String × JsonValue)) : Except Fault Order := do
  let (order, membersRead) ← members.foldlM readMember (default, 0)
  if membersRead ≠ 2 ^ 11 - 1 then
    .error (.runtimeError ("missing some member: " ++ toString membersRead))
  else return order

/-! ### What is read of an object -/

/-- The member an entry is taken for. -/
def branch (member : String × JsonValue) : Field := fieldOf member.1

/-- The value of an entry, for a member. -/
def valueFor (f : Field) (member : String × JsonValue) : Except Fault f.Stored := read f member.2

/-- The entry can be read as the member it is taken for. -/
def Readable (member : String × JsonValue) : Prop := ∃ x, valueFor (branch member) member = .ok x

/-- The bits of the members that were read. -/
def membersRead (mask : ℕ) (members : List (String × JsonValue)) : ℕ :=
  members.foldl (fun mask member => mask ||| 1 <<< (branch member).bit) mask

/-- The order and the bits are collected side by side. -/
theorem foldlM_readMember (members : List (String × JsonValue)) (order : Order) (mask : ℕ) :
    members.foldlM readMember (order, mask) =
      (members.foldlM (orderFields.readEntry branch valueFor) order).map
        fun order => (order, membersRead mask members) := by
  induction members generalizing order mask with
  | nil => rfl
  | cons member members ih =>
    simp only [List.foldlM_cons, readMember, Fields.readEntry, branch, valueFor]
    cases read (fieldOf member.1) member.2 with
    | error e => rfl
    | ok x => exact ih _ _

theorem testBit_membersRead (mask : ℕ) (members : List (String × JsonValue)) (i : ℕ) :
    (membersRead mask members).testBit i = true ↔
      mask.testBit i = true ∨ ∃ member ∈ members, (branch member).bit = i := by
  induction members generalizing mask with
  | nil => simp [membersRead]
  | cons member members ih =>
    have hstep : membersRead mask (member :: members) =
        membersRead (mask ||| 1 <<< (branch member).bit) members := rfl
    rw [hstep, ih, Nat.testBit_or, Nat.one_shiftLeft, Nat.testBit_two_pow, Bool.or_eq_true,
      decide_eq_true_eq, or_assoc]
    simp

/-- All bits are set when there is an entry for each member. -/
theorem membersRead_eq_iff {members : List (String × JsonValue)} :
    membersRead 0 members = 2 ^ 11 - 1 ↔ ∀ f, ∃ member ∈ members, branch member = f := by
  constructor
  · intro h f
    have hbit : (membersRead 0 members).testBit f.bit = true := by
      rw [h, Nat.testBit_two_pow_sub_one]
      exact decide_eq_true f.bit_lt
    obtain hzero | ⟨member, hmember, hf⟩ := (testBit_membersRead 0 members f.bit).mp hbit
    · exact absurd hzero (by simp)
    · exact ⟨member, hmember, Field.bit_injective hf⟩
  · intro h
    refine Nat.eq_of_testBit_eq fun i => ?_
    rw [Nat.testBit_two_pow_sub_one, Bool.eq_iff_iff, testBit_membersRead, decide_eq_true_eq]
    constructor
    · rintro (hzero | ⟨member, -, rfl⟩)
      · exact absurd hzero (by simp)
      · exact Field.bit_lt _
    · intro hi
      obtain ⟨f, rfl⟩ := Field.exists_bit hi
      obtain ⟨member, hmember, rfl⟩ := h f
      exact Or.inr ⟨member, hmember, rfl⟩

/-- **What is read of an object.** -/
theorem convert_eq_ok_iff {members : List (String × JsonValue)} {order : Order} :
    convert members = .ok order ↔
      (∀ member ∈ members, Readable member) ∧ (∀ f, ∃ member ∈ members, branch member = f) ∧
        ∀ f member, lastIn branch f members = some member →
          valueFor f member = .ok (orderFields.get f order) := by
  rw [convert, foldlM_readMember]
  constructor
  · intro h
    cases hrun : members.foldlM (orderFields.readEntry branch valueFor) default with
    | error e => simp [hrun, Except.map] at h
    | ok order' =>
      rw [hrun, Except.map, ok_bind] at h
      dsimp only at h
      split at h
      · exact absurd h (by simp)
      · next hmask =>
        obtain rfl := Except.ok.inj h
        obtain ⟨hall, hlast⟩ := Fields.foldlM_readEntry_iff.mp hrun
        exact ⟨hall, membersRead_eq_iff.mp (not_not.mp hmask), hlast.last⟩
  · rintro ⟨hall, hfull, hlast⟩
    obtain ⟨order', hrun, h⟩ : ∃ order', members.foldlM (orderFields.readEntry branch valueFor)
        default = .ok order' ∧ orderFields.Overwrites branch valueFor default members order' :=
      Fields.exists_foldlM_readEntry orderFields default hall
    have hsome : ∀ f, lastIn branch f members ≠ none := by
      intro f hnone
      obtain ⟨member, hmember, hf⟩ := hfull f
      exact (lastIn_eq_none_iff branch).mp hnone member hmember hf
    have hother : orderFields.Overwrites branch valueFor default members
        order := ⟨hlast, fun f hnone => absurd hnone (hsome f)⟩
    rw [hrun, h.unique hother, Except.map, ok_bind]
    exact if_neg (not_not.mpr (membersRead_eq_iff.mpr hfull))

theorem runtimeError_of_orThrow {α : Type} {what : String} {a : Option α} {e : Fault}
    (h : orThrow what a = .error e) : ∃ what, e = .runtimeError what := by
  cases a with
  | none => exact ⟨what, (Except.error.inj h).symm⟩
  | some a => exact absurd h (by simp [orThrow])

/-- A member that cannot be read is reported. -/
theorem runtimeError_of_read {f : Field} {value : JsonValue} {e : Fault}
    (h : read f value = .error e) : ∃ what, e = .runtimeError what := by
  cases f
  case buy | range =>
    rcases bind_eq_error h with h | ⟨x, -, h⟩
    · exact runtimeError_of_orThrow h
    · exact absurd h (by simp [pure, Except.pure])
  case issued =>
    rcases bind_eq_error h with h | ⟨x, -, h⟩
    · exact runtimeError_of_orThrow h
    rcases bind_eq_error h with h | ⟨time, -, h⟩
    · exact runtimeError_of_orThrow h
    · exact absurd h (by simp [pure, Except.pure])
  all_goals exact runtimeError_of_orThrow h

/-- An object that is not read is reported. -/
theorem runtimeError_of_convert {members : List (String × JsonValue)} {e : Fault}
    (h : convert members = .error e) : ∃ what, e = .runtimeError what := by
  rw [convert, foldlM_readMember] at h
  cases hrun : members.foldlM (orderFields.readEntry branch valueFor) default with
  | error e' =>
    rw [hrun] at h
    obtain rfl := Except.error.inj h
    obtain ⟨member, -, hmember⟩ := Fields.foldlM_readEntry_eq_error hrun
    exact runtimeError_of_read hmember
  | ok order =>
    rw [hrun, Except.map, ok_bind] at h
    dsimp only at h
    split at h
    · exact ⟨_, (Except.error.inj h).symm⟩
    · exact absurd h (by simp [pure, Except.pure])

/-- The objects that are read. -/
theorem exists_convert_iff {members : List (String × JsonValue)} :
    (∃ order, convert members = .ok order) ↔
      (∀ member ∈ members, Readable member) ∧ ∀ f, ∃ member ∈ members, branch member = f := by
  constructor
  · rintro ⟨order, h⟩
    obtain ⟨hall, hfull, -⟩ := convert_eq_ok_iff.mp h
    exact ⟨hall, hfull⟩
  · rintro ⟨hall, hfull⟩
    obtain ⟨order, -, h⟩ : ∃ order, members.foldlM (orderFields.readEntry branch valueFor)
        default = .ok order ∧ orderFields.Overwrites branch valueFor default members order :=
      Fields.exists_foldlM_readEntry orderFields default hall
    exact ⟨order, convert_eq_ok_iff.mpr ⟨hall, hfull, h.last⟩⟩

/-! ### The documented objects -/

/-- The documented ranges and their codes. -/
def ranges : List (String × Int8) :=
  [("1", 1), ("2", 2), ("3", 3), ("4", 4), ("5", 5), ("10", 10), ("20", 20), ("30", 30), ("40", 40),
    ("region", -1), ("solarsystem", -2), ("station", -3)]

theorem rangeToInt8_of_lookup {x : String} {a : Int8} (h : ranges.lookup x = some a) :
    rangeToInt8 x = a := by
  have hall : ∀ e ∈ ranges, rangeToInt8 e.1 = e.2 := by decide
  obtain ⟨l₁, l₂, hranges, -⟩ := List.lookup_eq_some_iff.mp h
  exact hall (x, a) (by rw [hranges]; simp)

/-- Any number as a double; how an integer becomes one is left open. -/
def JsonValue.number (toDouble : ℤ → Double) : JsonValue → Option Double
  | unsigned n => some (toDouble n.toNat)
  | negative n => some (toDouble n.toInt)
  | double x => some x
  | _ => none

/-- What a value of the documented type says. -/
def documentedValue (toDouble : ℤ → Double) : (f : Field) → JsonValue → Option f.Stored
  | .id, value => value.getUint64
  | .buy, value => value.getBool.map fun b => if b then 1 else 0
  | .type, value => value.getUint
  | .price, value => value.number toDouble
  | .range, value => value.getString.bind fun x => ranges.lookup x
  | .issued, value => (value.getString.bind strptime).map UInt32.ofInt
  | .volume, value => value.getUint
  | .duration, value => value.getUint
  | .stationID, value => value.getUint64
  | .minVolume, value => value.getUint
  | .volumeEntered, value => value.getUint

/-- Each documented name occurs once, with a value that says what the order has for it. -/
def Documented (toDouble : ℤ → Double) (members : List (String × JsonValue)) (order : Order) :
    Prop :=
  ∀ f : Field, ∃ value, members.filter (fun member => member.1 = f.name) = [(f.name, value)] ∧
    documentedValue toDouble f value = some (orderFields.get f order)

/-- Documented objects are read as they say, and others are reported. -/
structure AcceptsDocumented (toDouble : ℤ → Double) (members : List (String × JsonValue)) :
    Prop where
  documented : ∀ order, Documented toDouble members order → convert members = .ok order
  missing : (∃ f : Field, ∀ member ∈ members, member.1 ≠ f.name) →
    ∃ what, convert members = .error (.runtimeError what)

/-- A documented object has its price as a double, and no other member is taken for one
of the documented ones with another value; where a documented member is missing, none
is taken for it or some member cannot be read. -/
structure Distinguishable (toDouble : ℤ → Double) (members : List (String × JsonValue)) :
    Prop where
  price : (∃ order, Documented toDouble members order) →
    ∀ value, (Field.price.name, value) ∈ members → ∃ x, value = .double x
  further : (∃ order, Documented toDouble members order) →
    ∀ member ∈ members, (∀ f : Field, member.1 ≠ f.name) → Readable member
  last : (∃ order, Documented toDouble members order) →
    ∀ f : Field, ∀ member ∈ members, member.1 = f.name →
      ∀ member', lastIn branch f members = some member' → valueFor f member' = valueFor f member
  missing : (∃ f : Field, ∀ member ∈ members, member.1 ≠ f.name) →
    (∃ member ∈ members, ¬ Readable member) ∨ ∃ f, ∀ member ∈ members, branch member ≠ f

section Documented

variable {toDouble : ℤ → Double} {members : List (String × JsonValue)}

theorem orThrow_eq_ok_iff {α : Type} {what : String} {o : Option α} {a : α} :
    orThrow what o = .ok a ↔ o = some a := by cases o <;> simp [orThrow]

theorem read_price_eq_ok_iff {value : JsonValue} {x : Double} :
    read .price value = .ok x ↔ value = .double x := by
  rw [read, orThrow_eq_ok_iff]
  cases value <;> simp [JsonValue.getDouble]

/-- A documented value is read as what it says, a price only as a double. -/
theorem read_of_documentedValue {f : Field} {value : JsonValue} {x : f.Stored}
    (h : documentedValue toDouble f value = some x)
    (hprice : f = .price → ∃ y, value = .double y) : read f value = .ok x := by
  cases f
  case price =>
    obtain ⟨y, rfl⟩ := hprice rfl
    exact congrArg Except.ok (Option.some.inj h)
  case buy =>
    obtain ⟨b, hb, rfl⟩ := Option.map_eq_some_iff.mp h
    rw [read, orThrow_eq_ok_iff.mpr hb]
    rfl
  case range =>
    obtain ⟨s, hs, hrange⟩ := Option.bind_eq_some_iff.mp h
    rw [read, orThrow_eq_ok_iff.mpr hs, ok_bind, rangeToInt8_of_lookup hrange]
    rfl
  case issued =>
    obtain ⟨time, htime, rfl⟩ := Option.map_eq_some_iff.mp h
    obtain ⟨s, hs, htime⟩ := Option.bind_eq_some_iff.mp htime
    rw [read, orThrow_eq_ok_iff.mpr hs, ok_bind, parseDatetime, orThrow_eq_ok_iff.mpr htime]
    rfl
  all_goals exact orThrow_eq_ok_iff.mpr h

/-- What is read of a documented value is what it says. -/
theorem eq_of_read {f : Field} {value : JsonValue} {x y : f.Stored}
    (h : documentedValue toDouble f value = some x) (hread : read f value = .ok y) : y = x := by
  have hprice : f = .price → ∃ y, value = .double y := by
    rintro rfl
    exact ⟨y, read_price_eq_ok_iff.mp hread⟩
  exact Except.ok.inj (hread.symm.trans (read_of_documentedValue h hprice))

/-- The entry of a documented name. -/
theorem Documented.entry {order : Order} (h : Documented toDouble members order) (f : Field) :
    ∃ value, (f.name, value) ∈ members ∧
      documentedValue toDouble f value = some (orderFields.get f order) ∧
        ∀ member ∈ members, member.1 = f.name → member = (f.name, value) := by
  obtain ⟨value, hfilter, hvalue⟩ := h f
  have hmem : ∀ member, member ∈ members ∧ member.1 = f.name ↔ member = (f.name, value) := by
    intro member
    rw [← List.mem_singleton (a := member), ← hfilter, List.mem_filter, decide_eq_true_eq]
  exact ⟨value, ((hmem _).mpr rfl).1, hvalue, fun member hmember hname =>
    (hmem member).mp ⟨hmember, hname⟩⟩

/-- An entry of a documented name is read as that member. -/
theorem readable_of_name {member : String × JsonValue} {f : Field} (h : member.1 = f.name) :
    branch member = f ∧ (Readable member ↔ ∃ x, valueFor f member = .ok x) := by
  have hbranch : branch member = f := by rw [branch, h, fieldOf_name]
  subst hbranch
  exact ⟨rfl, Iff.rfl⟩

/-- Objects that are read as documented can be told apart. -/
theorem AcceptsDocumented.distinguishable (h : AcceptsDocumented toDouble members) :
    Distinguishable toDouble members := by
  obtain ⟨hdocumented, hmissing⟩ := h
  constructor
  case price =>
    rintro ⟨order, horder⟩ value hvalue
    obtain ⟨x, hx⟩ := (readable_of_name (f := .price) rfl).2.mp
      ((convert_eq_ok_iff.mp (hdocumented order horder)).1 _ hvalue)
    exact ⟨x, read_price_eq_ok_iff.mp hx⟩
  case further =>
    rintro ⟨order, horder⟩ member hmember -
    exact (convert_eq_ok_iff.mp (hdocumented order horder)).1 member hmember
  case last =>
    rintro ⟨order, horder⟩ f member hmember hname member' hlast
    obtain ⟨hall, -, hread⟩ := convert_eq_ok_iff.mp (hdocumented order horder)
    obtain ⟨value, -, hvalue, hunique⟩ := horder.entry f
    obtain rfl := hunique member hmember hname
    obtain ⟨x, hx⟩ := (readable_of_name rfl).2.mp (hall _ hmember)
    rw [hread _ member' hlast, hx, eq_of_read hvalue hx]
  case missing =>
    intro hno
    obtain ⟨what, hwhat⟩ := hmissing hno
    by_contra hread
    push Not at hread
    obtain ⟨order, horder⟩ := exists_convert_iff.mpr hread
    exact absurd (hwhat.symm.trans horder) (by simp)

/-- A member of a documented name is read as what it says. -/
theorem Distinguishable.read_eq (h : Distinguishable toDouble members) {order : Order}
    (horder : Documented toDouble members order) {f : Field} {value : JsonValue}
    (hmember : (f.name, value) ∈ members) :
    read f value = .ok (orderFields.get f order) := by
  obtain ⟨value', -, hvalue, hunique⟩ := horder.entry f
  obtain rfl : value = value' := (Prod.mk.inj (hunique _ hmember rfl)).2
  apply read_of_documentedValue hvalue
  rintro rfl
  exact h.price ⟨order, horder⟩ value hmember

/-- Documented objects are read as what they say. -/
theorem Distinguishable.convert_eq (h : Distinguishable toDouble members) {order : Order}
    (horder : Documented toDouble members order) : convert members = .ok order := by
  refine convert_eq_ok_iff.mpr ⟨?_, ?_, ?_⟩
  · intro member hmember
    by_cases hname : ∃ f : Field, member.1 = f.name
    · obtain ⟨f, hname⟩ := hname
      obtain ⟨name, value⟩ := member
      obtain rfl : name = f.name := hname
      exact (readable_of_name rfl).2.mpr ⟨_, h.read_eq horder hmember⟩
    · exact h.further ⟨order, horder⟩ member hmember (not_exists.mp hname)
  · intro f
    obtain ⟨value, hmember, -⟩ := horder.entry f
    exact ⟨_, hmember, (readable_of_name rfl).1⟩
  · intro f member hlast
    obtain ⟨value, hmember, -⟩ := horder.entry f
    rw [h.last ⟨order, horder⟩ f _ hmember rfl member hlast]
    exact h.read_eq horder hmember

/-- Objects without a documented member are rejected. -/
theorem Distinguishable.convert_missing (h : Distinguishable toDouble members)
    (hno : ∃ f : Field, ∀ member ∈ members, member.1 ≠ f.name) :
    ∃ what, convert members = .error (.runtimeError what) := by
  have hnot : ¬∃ order, convert members = .ok order := by
    rw [exists_convert_iff]
    rintro ⟨hall, hfull⟩
    rcases h.missing hno with ⟨member, hmember, hunread⟩ | ⟨f, hf⟩
    · exact hunread (hall member hmember)
    · obtain ⟨member, hmember, hbranch⟩ := hfull f
      exact hf member hmember hbranch
  cases hconvert : convert members with
  | ok order => exact absurd ⟨order, hconvert⟩ hnot
  | error e =>
    obtain ⟨what, rfl⟩ := runtimeError_of_convert hconvert
    exact ⟨what, rfl⟩

/-- **When exactly the documented objects are read.** -/
theorem acceptsDocumented_iff (toDouble : ℤ → Double) (members : List (String × JsonValue)) :
    AcceptsDocumented toDouble members ↔ Distinguishable toDouble members := by
  constructor
  · exact AcceptsDocumented.distinguishable
  · intro h
    constructor
    case documented =>
      exact fun order horder => h.convert_eq horder
    case missing =>
      exact h.convert_missing

end Documented

/-- The object of the comments of the source. -/
def commentObject : List (String × JsonValue) :=
  [("id", .unsigned 4020240384), ("buy", .bool false), ("type", .unsigned 366699),
    ("price", .unsigned 3000), ("range", .string "region"),
    ("issued", .string "2016-04-02T01:40:43"), ("volume", .unsigned 833),
    ("duration", .unsigned 365), ("stationID", .unsigned 60006484), ("minVolume", .unsigned 1),
    ("volumeEntered", .unsigned 833)]

/-- The order it describes. -/
def commentOrder : Order :=
  ⟨0, 1459561243, ⟨0x40A7700000000000⟩, 833, 60006484, 833, -1, 1, 365, 366699, 4020240384⟩

/-- The object of the comments is not read, as its price is an integer. -/
theorem not_acceptsDocumented_commentObject :
    ¬ AcceptsDocumented (fun _ => ⟨0x40A7700000000000⟩) commentObject := by
  intro h
  have hdocumented : Documented (fun _ => ⟨0x40A7700000000000⟩) commentObject commentOrder := by
    intro f
    cases f <;> exact ⟨_, rfl, by decide +kernel⟩
  have hread := (convert_eq_ok_iff.mp (h.documented _ hdocumented)).1 ("price", .unsigned 3000)
    (by simp [commentObject])
  obtain ⟨x, hx⟩ := hread
  exact absurd (read_price_eq_ok_iff.mp hx) (by simp)

end Pricing
end EveIndustryPlanner
