import Mathlib

/-!
# Texts and numbers in Python

The methods of a text that take it apart, and the numbers that are read from one.

## Main definitions

* `strip`, `rstrip`, `words` — a text without the blanks around it, and its words.
* `slice` — a part of a text.
* `int` — the number that a text stands for.

## Main results

* `int_eq_none` — no number has other characters than digits behind its sign.
-/

namespace EveIndustryPlanner
namespace Python

/-- The characters that separate words. -/
def isSpace (c : Char) : Bool := c ∈ [' ', '\t', '\n', '\r', '\x0b', '\x0c']

/-- `rstrip()`. -/
def rstrip (cs : List Char) : List Char := (cs.reverse.dropWhile isSpace).reverse

/-- `strip()`. -/
def strip (cs : List Char) : List Char := rstrip (cs.dropWhile isSpace)

/-- `split()`. -/
def words (cs : List Char) : List (List Char) := (cs.splitOnP isSpace).filter (· ≠ [])

/-- `cs[start:stop]`. -/
def slice (start stop : ℕ) (cs : List Char) : List Char := (cs.drop start).take (stop - start)

/-! ### Numbers -/

/-- The number that a digit stands for. -/
def digit? (base : ℕ) (c : Char) : Option ℕ :=
  let d := if c.isDigit then c.toNat - '0'.toNat
    else if 'a' ≤ c ∧ c ≤ 'f' then c.toNat - 'a'.toNat + 10
    else if 'A' ≤ c ∧ c ≤ 'F' then c.toNat - 'A'.toNat + 10
    else base
  if d < base then some d else none

/-- The number that digits stand for, of which there has to be one. -/
def number (base : ℕ) (cs : List Char) : Option ℕ :=
  if cs = [] then none
  else cs.foldlM (fun n c => (digit? base c).map fun d => base * n + d) 0

/-- Hexadecimal digits may have a prefix. -/
def unprefixed (base : ℕ) : List Char → List Char
  | '0' :: x :: cs => if base = 16 ∧ (x = 'x' ∨ x = 'X') then cs else '0' :: x :: cs
  | cs => cs

/-- `int(cs, base)`. -/
def int (base : ℕ) (cs : List Char) : Option ℤ :=
  match strip cs with
  | '-' :: cs => (number base (unprefixed base cs)).map fun n => -(n : ℤ)
  | '+' :: cs => (number base (unprefixed base cs)).map Int.ofNat
  | cs => (number base (unprefixed base cs)).map Int.ofNat

example : int 10 " 007\n".toList = some 7 ∧ int 10 "-12".toList = some (-12) ∧
    int 10 "1.5".toList = none ∧ int 16 "0x80b6".toList = some 32950 ∧
    int 16 "%eax".toList = none := by decide +kernel

theorem mem_dropWhile {α : Type*} {p : α → Bool} {a : α} {l : List α} (ha : a ∈ l)
    (hp : p a = false) : a ∈ l.dropWhile p := by
  induction l with
  | nil => exact ha
  | cons b l ih =>
    rw [List.dropWhile_cons]
    split
    · next hb =>
      rcases List.mem_cons.mp ha with rfl | ha
      · rw [hp] at hb
        cases hb
      · exact ih ha
    · exact ha

/-- What separates no words stays. -/
theorem mem_strip {cs : List Char} {c : Char} (hc : c ∈ cs) (hspace : isSpace c = false) :
    c ∈ strip cs := by
  rw [strip, rstrip, List.mem_reverse]
  exact mem_dropWhile (List.mem_reverse.mpr (mem_dropWhile hc hspace)) hspace

theorem number_eq_none {base : ℕ} {cs : List Char} {c : Char} (hc : c ∈ cs)
    (hdigit : digit? base c = none) : number base cs = none := by
  have hfold : ∀ n, cs.foldlM (fun n c => (digit? base c).map fun d => base * n + d) n = none := by
    induction cs with
    | nil => exact absurd hc List.not_mem_nil
    | cons c' cs ih =>
      intro n
      rw [List.foldlM_cons]
      rcases List.mem_cons.mp hc with rfl | hc
      · rw [hdigit]
        rfl
      · cases digit? base c' with
        | none => rfl
        | some d => exact ih hc _
  rw [number, if_neg (List.ne_nil_of_mem hc), hfold]

/-- A prefix has nothing but digits. -/
theorem unprefixed_ten (cs : List Char) : unprefixed 10 cs = cs := by
  unfold unprefixed
  split
  · exact if_neg fun h => absurd h.1 (by decide)
  · rfl

/-- No number has other characters than digits behind its sign. -/
theorem int_eq_none {cs : List Char} {c : Char} (hc : c ∈ cs) (hspace : isSpace c = false)
    (hdigit : digit? 10 c = none) (hminus : c ≠ '-') (hplus : c ≠ '+') : int 10 cs = none := by
  have hmem : c ∈ strip cs := mem_strip hc hspace
  unfold int
  split
  · next heq =>
    rw [heq] at hmem
    rw [unprefixed_ten, number_eq_none (List.mem_of_ne_of_mem hminus hmem) hdigit]
    rfl
  · next heq =>
    rw [heq] at hmem
    rw [unprefixed_ten, number_eq_none (List.mem_of_ne_of_mem hplus hmem) hdigit]
    rfl
  · rw [unprefixed_ten, number_eq_none hmem hdigit]
    rfl

end Python
end EveIndustryPlanner
