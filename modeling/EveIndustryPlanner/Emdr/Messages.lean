import EveIndustryPlanner.Emdr.PrintJson
import EveIndustryPlanner.Fault
import EveIndustryPlanner.Market.Response

/-!
# Messages

What is read of the JSON values that are received.  Each type has its reader; the
readers of lists and of members are generic.  The columns of a message are read and
dropped: the rows are read by their places.  The name of the function, which the
compiler puts in front of the text of an exception, is left out.

## Main definitions

* `GetImpl`, `getMember`, `getAt` — the readers.
* `strptime`, `Time` — times, in nanoseconds from the beginning of 1970.
* `Key`, `Generator`, `Rowset`, `Message`, `Orders`, `History` — what is read.
* `AnyMessage`, `readMessage` — a message of one of the two kinds.
-/

namespace EveIndustryPlanner
namespace Emdr

/-- A JSON value as it is stored. -/
abbrev Document := JsonTree Number

namespace Messages

/-! ### Readers -/

/-- How values of a type are read. -/
class GetImpl (T : Type) where
  get : Document → Except Fault T

/-- The reader of a kind of numbers or truth values. -/
def getter {T : Type} (json_type : String) (value : Document → Option T) (v : Document) :
    Except Fault T :=
  match value v with
  | some x => .ok x
  | none => .error (.runtimeError (": No " ++ json_type))

/-- What is read of a number. -/
def ofNumber {T : Type} (value : Number → Option T) : Document → Option T
  | .number n => value n
  | _ => none

/-- What is read of a truth value. -/
def ofBool : Document → Option Bool
  | .bool b => some b
  | _ => none

instance : GetImpl UInt64 := ⟨getter "Uint64" (ofNumber Number.getUint64)⟩

instance : GetImpl Int64 := ⟨getter "Int64" (ofNumber Number.getInt64)⟩

instance : GetImpl UInt32 := ⟨getter "Uint" (ofNumber Number.getUint)⟩

instance : GetImpl Int32 := ⟨getter "Int" (ofNumber Number.getInt)⟩

/-- A double is read as its value. -/
instance : GetImpl ℚ :=
  ⟨getter "Double" (ofNumber fun n => n.getDouble.map Pricing.Double.value)⟩

instance : GetImpl Bool := ⟨getter "Bool" ofBool⟩

instance : GetImpl String where
  get
    | .string s => .ok s
    | _ => .error (.runtimeError ": Not a string")

/-- A member of an object; the first one if there are more of a name. -/
def getMember (T : Type) [GetImpl T] (v : Document) (name : String) : Except Fault T :=
  match v with
  | .object members =>
    match members.lookup name with
    | some value => GetImpl.get value
    | none => .error (.runtimeError (": No member \"" ++ name ++ "\""))
  | _ => .error (.runtimeError ": Not an object")

/-- An item of an array. -/
def getAt (T : Type) [GetImpl T] (v : Document) (i : ℕ) : Except Fault T :=
  match v with
  | .array items =>
    match items[i]? with
    | some value => GetImpl.get value
    | none => .error (.runtimeError ": Too small")
  | _ => .error (.runtimeError ": Not an array")

/-- All items of an array. -/
def getArray (T : Type) [GetImpl T] (v : Document) : Except Fault (List T) :=
  match v with
  | .array items => items.mapM GetImpl.get
  | _ => .error (.runtimeError ": Not an array")

instance (T : Type) [GetImpl T] : GetImpl (List T) := ⟨getArray T⟩

/-! ### Times -/

/-- A colon between the hours and the minutes of a time zone. -/
def skipColon : List Char → List Char
  | ':' :: c :: cs => if c.isDigit then c :: cs else ':' :: c :: cs
  | cs => cs

/-- At most four digits of a time zone: how many there are, and their value. -/
def zoneDigits : ℕ → ℕ → ℕ → List Char → ℕ × ℕ
  | fuel + 1, n, val, c :: cs =>
    if c.isDigit then
      zoneDigits fuel (n + 1) (val * 10 + Market.digit c) (if n + 1 = 2 then skipColon cs else cs)
    else (n, val)
  | _, n, val, _ => (n, val)

/-- A time zone; what it says is not used. -/
def matchZone (cs : List Char) : Option Unit :=
  match cs.dropWhile Market.isspace with
  | 'Z' :: _ => some ()
  | sign :: cs =>
    if sign = '+' ∨ sign = '-' then
      let (n, val) := zoneDigits 4 0 0 cs
      if n = 2 ∨ n = 4 ∧ val % 100 < 60 then some () else none
    else none
  | [] => none

/-- `strptime` with the format `%FT%T%z` and `timegm`. -/
def strptime (s : String) : Option ℤ := do
  let (seconds, cs) ← Market.matchTime (printCString s)
  let _ ← matchZone cs
  return seconds

example : strptime "2014-07-20T16:58:37+00:00" = some 1405875517 := by decide +kernel

/-- A number of seconds in nanoseconds; an overflow is undefined. -/
def nanos (seconds : ℤ) : Except Fault ℤ :=
  if -2 ^ 63 ≤ seconds * 10 ^ 9 ∧ seconds * 10 ^ 9 < 2 ^ 63 then .ok (seconds * 10 ^ 9)
  else .error .undefined

/-- A point in time. -/
structure Time where
  count : ℤ
  deriving DecidableEq

instance : GetImpl Time where
  get v := do
    let timeStr ← GetImpl.get (T := String) v
    match strptime timeStr with
    | some seconds => return ⟨← nanos seconds⟩
    | none => throw (.runtimeError ": strptime failed")

/-! ### Messages -/

structure Key where
  name : String
  key : String
  deriving DecidableEq

structure Generator where
  name : String
  version : String
  deriving DecidableEq

/-- The rows for one type in one region. -/
structure Rowset (T : Type) where
  x : List T
  generatedAt : Time
  regionID : UInt64
  typeID : UInt64

structure Message (T : Type) where
  uploadKeys : List Key
  generator : Generator
  currentTime : Time
  version : String
  rowsets : List (Rowset T)

structure Orders where
  price : ℚ
  volRemaining : UInt64
  range : Int16
  orderID : UInt64
  volumeEntered : UInt64
  minVolume : UInt64
  bid : Bool
  issueDate : Time
  /-- In nanoseconds. -/
  duration : ℤ
  stationID : UInt64
  solarSystemID : UInt64
  deriving DecidableEq

structure History where
  date : Time
  orders : UInt64
  quantity : UInt64
  low : ℚ
  high : ℚ
  average : ℚ
  deriving DecidableEq

instance : GetImpl Key where
  get v := do
    let name ← getMember String v "name"
    let key ← getMember String v "key"
    return ⟨name, key⟩

instance : GetImpl Generator where
  get v := do
    let name ← getMember String v "name"
    let version ← getMember String v "version"
    return ⟨name, version⟩

instance (T : Type) [GetImpl T] : GetImpl (Rowset T) where
  get v := do
    let regionID ← getMember UInt64 v "regionID"
    let typeID ← getMember UInt64 v "typeID"
    let generatedAt ← getMember Time v "generatedAt"
    return ⟨← getMember (List T) v "rows", generatedAt, regionID, typeID⟩

instance : GetImpl History where
  get v := do
    let date ← getAt Time v 0
    let orders ← getAt UInt64 v 1
    let quantity ← getAt UInt64 v 2
    let low ← getAt ℚ v 3
    let high ← getAt ℚ v 4
    let average ← getAt ℚ v 5
    return ⟨date, orders, quantity, low, high, average⟩

instance : GetImpl Orders where
  get v := do
    let price ← getAt ℚ v 0
    let volRemaining ← getAt UInt64 v 1
    let range ← getAt Int32 v 2
    let orderID ← getAt UInt64 v 3
    let volumeEntered ← getAt UInt64 v 4
    let minVolume ← getAt UInt64 v 5
    let bid ← getAt Bool v 6
    let issueDate ← getAt Time v 7
    let days ← getAt UInt32 v 8
    let stationID ← getAt UInt64 v 9
    let solarSystemID ← getAt UInt64 v 10
    -- the constructor takes a duration in nanoseconds and a range of 16 bits
    let duration ← nanos (days.toNat * 24 * 3600)
    return ⟨price, volRemaining, range.toInt16, orderID, volumeEntered, minVolume, bid, issueDate,
      duration, stationID, solarSystemID⟩

instance (T : Type) [GetImpl T] : GetImpl (Message T) where
  get v := do
    let uploadKeys ← getMember (List Key) v "uploadKeys"
    let generator ← getMember Generator v "generator"
    let currentTime ← getMember Time v "currentTime"
    let version ← getMember String v "version"
    let _columns ← getMember (List String) v "columns"
    let rowsets ← getMember (List (Rowset T)) v "rowsets"
    return ⟨uploadKeys, generator, currentTime, version, rowsets⟩

/-- A message of one of the two kinds. -/
inductive AnyMessage where
  | history (m : Message History)
  | orders (m : Message Orders)

/-- What is read of a message before it is inserted. -/
def readMessage (v : Document) : Except Fault AnyMessage := do
  let resultType ← getMember String v "resultType"
  if resultType = "history" then
    return .history (← GetImpl.get v)
  else if resultType = "orders" then
    return .orders (← GetImpl.get v)
  else throw (.runtimeError ": ResultType is not \"history\"")

end Messages

end Emdr
end EveIndustryPlanner
