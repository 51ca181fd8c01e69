import EveIndustryPlanner.Pricing.Order

/-!
# What the market server answers

A request is answered by a response with a status, or the connection fails.  The
body of a successful response is JSON, which is read by a library that is left
open here: `Json` has the operations that are used of it.

## Main definitions

* `Response`, `Response.body` — answers, and what of them is handed to the handler.
* `Json` — what can be asked of a JSON value.
* `readItems` — the records of a body.
* `strptime`, `timegm` — the time of a date.
* `bind` — unsigned numbers as parameters of a statement.
* `Value` — JSON values as a tree.
-/

namespace EveIndustryPlanner
namespace Market

open Pricing (Double)

/-! ### Responses -/

/-- How a request ends. -/
inductive Response where
  /-- No response came. -/
  | failure
  | response (status : ℕ) (body : String)

/-- What `handleResponse` gets; without it there is a call of `onHttpError`. -/
def Response.body : Response → Option String
  | .failure => none
  | .response status body => if 200 ≤ status ∧ status < 300 then some body else none

/-! ### JSON -/

/-- What can be asked of JSON values; `none` stands for an exception. -/
class Json (J : Type) where
  /-- `stream >> value`. -/
  parse : String → Option J
  /-- `value[key]`. -/
  member : J → String → Option J
  /-- The values a loop over a value visits. -/
  elements : J → List J
  asString : J → Option String
  asUInt64 : J → Option ℕ
  asDouble : J → Option Double

export Json (parse member elements asString asUInt64 asDouble)

/-- The elements of `root["items"]`. -/
def items {J : Type} [Json J] (root : J) : Option (List J) := (member root "items").map elements

/-- The records of a body; an exception leaves none of them. -/
def readItems (J : Type) [Json J] (body : String) : List J :=
  (((parse body : Option J).bind items).getD [])

/-! ### Dates -/

/-- The value of a digit. -/
def digit (c : Char) : ℕ := c.toNat - '0'.toNat

/-- At most `n` more digits, as long as the number stays in reach of `hi`. -/
def moreDigits (hi : ℕ) : ℕ → ℕ → List Char → ℕ × List Char
  | n + 1, val, c :: cs =>
    if val * 10 ≤ hi ∧ c.isDigit then moreDigits hi n (val * 10 + digit c) cs else (val, c :: cs)
  | _, val, cs => (val, cs)

/-- White space in C, to which the vertical tab and the form feed belong. -/
def isspace (c : Char) : Bool := c.isWhitespace || c == '\x0b' || c == '\x0c'

/-- A number of at most `n` digits between two bounds; white space before it is skipped. -/
def getNumber (lo hi n : ℕ) (cs : List Char) : Option (ℕ × List Char) :=
  match cs.dropWhile isspace with
  | [] => none
  | c :: cs =>
    if c.isDigit then
      let (val, cs) := moreDigits hi (n - 1) (digit c) cs
      if lo ≤ val ∧ val ≤ hi then some (val, cs) else none
    else none

/-- A character that has to be there. -/
def matchChar (c : Char) : List Char → Option (List Char)
  | [] => none
  | c' :: cs => if c = c' then some cs else none

/-- A day of the calendar. -/
structure Tm where
  year : ℤ
  mon : ℤ
  mday : ℤ
  deriving DecidableEq

/-- `strptime` with the format `%Y-%m-%d`. -/
def strptime (s : String) : Option Tm := do
  let (year, cs) ← getNumber 0 9999 4 s.toList
  let cs ← matchChar '-' cs
  let (mon, cs) ← getNumber 1 12 2 cs
  let cs ← matchChar '-' cs
  let (mday, _) ← getNumber 1 31 2 cs
  return ⟨year, mon, mday⟩

/-- The seconds from the beginning of 1970 to a day. -/
def timegm (tm : Tm) : ℤ :=
  -- years begin in March, so that the additional day of a leap year is their last
  let year := if tm.mon ≤ 2 then tm.year - 1 else tm.year
  let mon := if tm.mon ≤ 2 then tm.mon + 9 else tm.mon - 3
  let days := year * 365 + year / 4 - year / 100 + year / 400 +
    (153 * mon + 2) / 5 + tm.mday - 1
  (days - 719468) * 86400

example : (strptime "2016-02-29").map timegm = some 1456704000 := by decide +kernel

example : strptime "\x0b2016-\x0c02-29" = strptime "2016-02-29" := by decide +kernel

/-- What `strptime` matches with the format `%Y-%m-%dT%T`: the seconds from the beginning
of 1970, and the rest. -/
def matchTime (cs : List Char) : Option (ℤ × List Char) := do
  let (year, cs) ← getNumber 0 9999 4 cs
  let cs ← matchChar '-' cs
  let (mon, cs) ← getNumber 1 12 2 cs
  let cs ← matchChar '-' cs
  let (mday, cs) ← getNumber 1 31 2 cs
  let cs ← matchChar 'T' cs
  let (hour, cs) ← getNumber 0 23 2 cs
  let cs ← matchChar ':' cs
  let (min, cs) ← getNumber 0 59 2 cs
  let cs ← matchChar ':' cs
  let (sec, cs) ← getNumber 0 61 2 cs
  return (timegm ⟨year, mon, mday⟩ + hour * 3600 + min * 60 + sec, cs)

/-! ### Statements -/

/-- `bind` of an unsigned number, which has to fit into 64 bits with a sign. -/
def bind (n : ℕ) : Option ℤ := if n < 2 ^ 63 then some n else none

theorem eq_of_bind_eq_some {n : ℕ} {z : ℤ} (h : bind n = some z) : z = n := by
  unfold bind at h
  split at h
  · exact (Option.some.inj h).symm
  · exact absurd h (by simp)

/-! ### JSON as a tree -/

/-- JSON values. -/
inductive Value where
  | null
  | unsigned (n : ℕ)
  | real (x : Double)
  | string (s : String)
  | array (l : List Value)
  | object (l : List (String × Value))

namespace Value

/-- `value[key]`. -/
def member : Value → String → Option Value
  | null, _ => some null
  | object l, key => some ((l.lookup key).getD null)
  | _, _ => none

/-- The values of an array or an object. -/
def elements : Value → List Value
  | array l => l
  | object l => l.map Prod.snd
  | _ => []

/-- A response with two records of a history, of which the second has no date. -/
def historyBody : String := "\x7b\"items\": [\x7b\"date\": \"2016-02-29\"\x7d, \x7b\x7d]\x7d"

/-- A response with one order. -/
def orderBody : String :=
  "\x7b\"items\": [\x7b\"location\": \x7b\"id\": 60003760\x7d, \"minVolume\": 1, \"price\": 5.5\x7d]\x7d"

/-- The two responses as values. -/
def texts : List (String × Value) :=
  [(historyBody,
      object [("items", array [object [("date", string "2016-02-29")], object []])]),
    (orderBody,
      object [("items", array [object [("location", object [("id", unsigned 60003760)]),
        ("minVolume", unsigned 1), ("price", real ⟨0x4016000000000000⟩)]])])]

/-- JSON values with a reader that knows two texts. -/
instance instJson : Json Value where
  parse s := texts.lookup s
  member := member
  elements := elements
  asString
    | null => some ""
    | string s => some s
    | _ => none
  asUInt64
    | null => some 0
    | unsigned n => some n
    | _ => none
  asDouble
    | null => some ⟨0⟩
    | real x => some x
    | _ => none

end Value

end Market
end EveIndustryPlanner
