import EveIndustryPlanner.Lib.JsonReading
import EveIndustryPlanner.Lib.SixDigits
import EveIndustryPlanner.Pricing.Order

/-!
# Printing JSON

A message that could not be handled is printed to a backlog.  The values are
printed as they are: a string is put between quotes without escapes, a double with
the six significant digits of a stream, and the null value as `Null`.

## Main definitions

* `Double.value`, `Double.Reads` — the value of a double, and the double a number is
  read as.
* `Number` — the numbers as they are stored in a JSON value.
* `printJSON` — how a value is printed.
* `Denotes` — the texts of a number.
* `Survives` — the values that are printed in a way that can be read again.

## Main results

* `Double.reads_value_iff` — what is read where a number is the value of a double.
* `text_printJSON` — **what is printed is a text of the value** if no leaf is null or
  has a special character and the numbers are printed as what they are.
* `isText_printJSON_iff` — **which values are printed as a text of the value.**
-/

namespace EveIndustryPlanner

/-! ### Doubles -/

namespace Pricing.Double

/-- Neither an infinity nor a NaN. -/
def IsFinite (x : Double) : Prop := x.magnitude < 2047 * 2 ^ 52

/-- The value without the sign. -/
def absValue (x : Double) : ℚ :=
  let exponent : ℕ := x.magnitude / 2 ^ 52
  let mantissa : ℕ := x.magnitude % 2 ^ 52
  if exponent = 0 then (mantissa : ℚ) * 2 ^ (-1074 : ℤ)
  else ((2 ^ 52 + mantissa : ℕ) : ℚ) * 2 ^ ((exponent : ℤ) - 1075)

/-- The sign bit. -/
def signBit (x : Double) : Bool := decide (2 ^ 63 ≤ x.bits.toNat)

/-- A number with the sign of a double. -/
def withSign (x : Double) (q : ℚ) : ℚ := if x.signBit then -q else q

/-- The value of a finite double. -/
def value (x : Double) : ℚ := x.withSign x.absValue

/-- A number is read as a double: no finite one is nearer, the mantissa is even if
one with another value is as near, and there is no overflow. -/
def Reads (x : Double) (q : ℚ) : Prop :=
  |q| < 2 ^ 1024 - 2 ^ 970 ∧ ∀ y : Double, y.IsFinite →
    |x.value - q| ≤ |y.value - q| ∧
      (|x.value - q| = |y.value - q| → y.value = x.value ∨ x.magnitude % 2 = 0)

theorem absValue_nonneg (x : Double) : 0 ≤ x.absValue := by
  unfold absValue
  dsimp only
  split
  · positivity
  · positivity

/-- A number with a sign is as large as without. -/
theorem abs_withSign (x : Double) (q : ℚ) : |x.withSign q| = |q| := by
  unfold withSign
  split
  · exact abs_neg q
  · rfl

theorem absValue_le {x : Double} (h : x.IsFinite) : x.absValue ≤ (2 ^ 53 - 1) * 2 ^ 971 := by
  unfold IsFinite at h
  have hmantissa : x.magnitude % 2 ^ 52 < 2 ^ 52 := Nat.mod_lt _ (by norm_num)
  have hexponent : x.magnitude / 2 ^ 52 ≤ 2046 := by omega
  have hscale : (0 : ℚ) < 2 ^ 971 := by positivity
  unfold absValue
  dsimp only
  split
  · have hpow : (2 : ℚ) ^ (-1074 : ℤ) ≤ 2 ^ 971 := by
      rw [← zpow_natCast]
      exact zpow_le_zpow_right₀ (by norm_num) (by norm_num)
    have hcast : ((x.magnitude % 2 ^ 52 : ℕ) : ℚ) ≤ 2 ^ 53 - 1 := by
      have hle : x.magnitude % 2 ^ 52 ≤ 2 ^ 53 - 1 := by omega
      calc ((x.magnitude % 2 ^ 52 : ℕ) : ℚ) ≤ ((2 ^ 53 - 1 : ℕ) : ℚ) := Nat.cast_le.mpr hle
        _ = 2 ^ 53 - 1 := by norm_num
    exact mul_le_mul hcast hpow (by positivity) (by norm_num)
  · have hpow : (2 : ℚ) ^ (((x.magnitude / 2 ^ 52 : ℕ) : ℤ) - 1075) ≤ 2 ^ 971 := by
      rw [← zpow_natCast]
      exact zpow_le_zpow_right₀ (by norm_num) (by omega)
    have hcast : ((2 ^ 52 + x.magnitude % 2 ^ 52 : ℕ) : ℚ) ≤ 2 ^ 53 - 1 := by
      have hle : 2 ^ 52 + x.magnitude % 2 ^ 52 ≤ 2 ^ 53 - 1 := by omega
      calc ((2 ^ 52 + x.magnitude % 2 ^ 52 : ℕ) : ℚ) ≤ ((2 ^ 53 - 1 : ℕ) : ℚ) :=
          Nat.cast_le.mpr hle
        _ = 2 ^ 53 - 1 := by norm_num
    exact mul_le_mul hcast hpow (by positivity) (by norm_num)

/-- The largest finite double is no overflow. -/
theorem lt_overflow : ((2 : ℚ) ^ 53 - 1) * 2 ^ 971 < 2 ^ 1024 - 2 ^ 970 := by
  have hpos : (0 : ℚ) < 2 ^ 970 := by positivity
  have hlargest : (2 : ℚ) ^ 971 = 2 * 2 ^ 970 := pow_succ' 2 970
  have hoverflow : (2 : ℚ) ^ 1024 = 2 ^ 54 * 2 ^ 970 := by rw [← pow_add]
  rw [hlargest, hoverflow]
  generalize (2 : ℚ) ^ 970 = k at hpos
  norm_num
  linarith

/-- **The value of a finite double is read as the doubles of this value**, and as no
other. -/
theorem reads_value_iff {x y : Double} (hy : y.IsFinite) :
    x.Reads y.value ↔ x.value = y.value := by
  constructor
  · intro h
    have hnear := (h.2 y hy).1
    rw [sub_self, abs_zero] at hnear
    exact sub_eq_zero.mp (abs_nonpos_iff.mp hnear)
  · intro h
    refine ⟨?_, fun z hz => ?_⟩
    · rw [value, abs_withSign, abs_of_nonneg y.absValue_nonneg]
      exact (absValue_le hy).trans_lt lt_overflow
    · rw [h, sub_self, abs_zero]
      refine ⟨abs_nonneg _, fun heq => Or.inl ?_⟩
      exact sub_eq_zero.mp (abs_eq_zero.mp heq.symm)

end Pricing.Double

namespace Emdr

open Pricing (Double)

/-- The numbers as they are stored in a JSON value. -/
inductive Number where
  | unsigned (n : UInt64)
  | negative (n : Int64) (h : n.toInt < 0)
  | double (x : Double) (h : x.IsFinite)

namespace Number

/-- `GetDouble`, where `IsDouble`. -/
def getDouble : Number → Option Double
  | double x _ => some x
  | _ => none

/-- `GetInt`, where `IsInt`. -/
def getInt : Number → Option Int32
  | unsigned n => if n.toNat < 2 ^ 31 then some (Int32.ofInt n.toNat) else none
  | negative n _ => if -2 ^ 31 ≤ n.toInt then some n.toInt32 else none
  | double _ _ => none

/-- `GetInt64`, where `IsInt64`. -/
def getInt64 : Number → Option Int64
  | unsigned n => if n.toNat < 2 ^ 63 then some (Int64.ofInt n.toNat) else none
  | negative n _ => some n
  | double _ _ => none

/-- `GetUint`, where `IsUint`. -/
def getUint : Number → Option UInt32
  | unsigned n => if n.toNat < 2 ^ 32 then some n.toUInt32 else none
  | _ => none

/-- `GetUint64`, where `IsUint64`. -/
def getUint64 : Number → Option UInt64
  | unsigned n => some n
  | _ => none

end Number

/-! ### The printer -/

/-- What a stream makes of a double. -/
def printDouble (x : Double) : List Char :=
  if x.signBit then '-' :: formatUnsigned x.absValue else formatUnsigned x.absValue

/-- What a stream makes of an integer. -/
def printInt (n : ℤ) : List Char := (toString n).toList

/-- The case of a number. -/
def printNumber (v : Number) : List Char :=
  match v.getDouble, v.getInt, v.getInt64, v.getUint, v.getUint64 with
  | some x, _, _, _, _ => printDouble x
  | none, some n, _, _, _ => printInt n.toInt
  | none, none, some n, _, _ => printInt n.toInt
  | none, none, none, some n, _ => printInt n.toNat
  | none, none, none, none, some n => printInt n.toNat
  | none, none, none, none, none => []

/-- What a stream makes of the characters of a string: those up to the first zero. -/
def printCString (s : String) : List Char := s.toList.takeWhile fun c => c ≠ '\x00'

/-- A string or a name. -/
def printString (s : String) : List Char := '"' :: (printCString s ++ ['"'])

/-- Some blanks. -/
def fill (k : ℕ) : List Char := List.replicate k ' '

mutual

/-- A value is printed. -/
def printJSON : JsonTree Number → ℕ → List Char
  | .null, _ => "Null".toList
  | .object members, indent =>
    "\x7b\n".toList ++
      (printMembers members (indent + 1) ++ ('\n' :: (fill (2 * indent) ++ ['}'])))
  | .array items, indent => '[' :: (printItems items (indent + 1) ++ [']'])
  | .number n, _ => printNumber n
  | .bool true, _ => "true".toList
  | .bool false, _ => "false".toList
  | .string s, _ => printString s

/-- The members of an object. -/
def printMembers : List (String × JsonTree Number) → ℕ → List Char
  | [], _ => []
  | (name, v) :: members, newIndent =>
    fill (2 * newIndent) ++ (printString name ++ (": ".toList ++
      (printJSON v newIndent ++ printFollowingMembers members newIndent)))

/-- The members of an object behind the first. -/
def printFollowingMembers : List (String × JsonTree Number) → ℕ → List Char
  | [], _ => []
  | (name, v) :: members, newIndent =>
    ",\n".toList ++ (fill (2 * newIndent) ++ (printString name ++ (": ".toList ++
      (printJSON v newIndent ++ printFollowingMembers members newIndent))))

/-- The items of an array. -/
def printItems : List (JsonTree Number) → ℕ → List Char
  | [], _ => []
  | v :: items, newIndent => printJSON v newIndent ++ printFollowingItems items newIndent

/-- The items of an array behind the first. -/
def printFollowingItems : List (JsonTree Number) → ℕ → List Char
  | [], _ => []
  | v :: items, newIndent =>
    ", ".toList ++ (printJSON v newIndent ++ printFollowingItems items newIndent)

end

example : printJSON (.object [("a", .array [.bool true, .null]), ("b", .string "\"")]) 0 =
    "\x7b\n  \"a\": [true, Null],\n  \"b\": \"\"\"\n\x7d".toList := by decide +kernel

/-! ### Numbers -/

theorem printNumber_double {x : Double} (h : x.IsFinite) :
    printNumber (.double x h) = printDouble x := rfl

theorem printNumber_unsigned (n : UInt64) : printNumber (.unsigned n) = printInt n.toNat := by
  unfold printNumber Number.getDouble Number.getInt Number.getInt64
  dsimp only
  by_cases hint : n.toNat < 2 ^ 31
  · rw [if_pos hint]
    dsimp only
    rw [Int32.toInt_ofInt_of_le (by omega) (by omega)]
  rw [if_neg hint]
  by_cases hint64 : n.toNat < 2 ^ 63
  · rw [if_pos hint64]
    dsimp only
    rw [Int64.toInt_ofInt_of_le (by omega) (by omega)]
  · have huint : ¬ n.toNat < 2 ^ 32 := by omega
    rw [if_neg hint64, Number.getUint, if_neg huint]
    rfl

theorem printNumber_negative {n : Int64} (h : n.toInt < 0) :
    printNumber (.negative n h) = printInt n.toInt := by
  unfold printNumber Number.getDouble Number.getInt Number.getInt64
  dsimp only
  by_cases hint : -2 ^ 31 ≤ n.toInt
  · rw [if_pos hint]
    dsimp only
    rw [Int64.toInt_toInt32, Int.bmod_eq_of_le (by omega) (by omega)]
  · rw [if_neg hint]

/-- The texts of a number. -/
def Denotes : Number → List Char → Prop
  | .unsigned n, u => number? u = some (n.toNat : ℚ)
  | .negative n _, u => number? u = some (n.toInt : ℚ)
  | .double x _, u => ∃ q, number? u = some q ∧ x.Reads q

theorem numberTexts_denotes (n : Number) : NumberTexts (Denotes n) := by
  intro u hu
  cases n with
  | unsigned n => exact isNumberChar_of_number? hu
  | negative n h => exact isNumberChar_of_number? hu
  | double x h =>
    obtain ⟨q, hq, -⟩ := hu
    exact isNumberChar_of_number? hq

/-- **A double is printed as the number that its six significant digits are.** -/
theorem number?_printDouble (x : Double) :
    number? (printDouble x) = some (x.withSign (sixDigits x.absValue)) := by
  have habs : unsigned? (formatUnsigned x.absValue) = some (sixDigits x.absValue) :=
    unsigned?_formatUnsigned x.absValue_nonneg
  unfold printDouble Double.withSign
  split
  · exact number?_neg habs
  · exact number?_of_unsigned? habs

/-- A number is printed as the text of some number. -/
theorem exists_number?_printNumber (n : Number) : ∃ q, number? (printNumber n) = some q := by
  cases n with
  | unsigned n =>
    rw [printNumber_unsigned]
    exact ⟨_, number?_toString _⟩
  | negative n h =>
    rw [printNumber_negative]
    exact ⟨_, number?_toString _⟩
  | double x h => exact ⟨_, number?_printDouble x⟩

theorem numberTexts_printNumber (n : Number) : NumberTexts fun u => u = printNumber n := by
  rintro u rfl
  obtain ⟨q, hq⟩ := exists_number?_printNumber n
  exact isNumberChar_of_number? hq

/-- A double that is what its six significant digits are read as, or an integer. -/
def Number.Survives : Number → Prop
  | unsigned _ => True
  | negative _ _ => True
  | double x _ => x.Reads (x.withSign (sixDigits x.absValue))

/-- **A double with no more than six significant digits survives.** -/
theorem Number.survives_double {x : Double} (h : x.IsFinite)
    (hdigits : sixDigits x.absValue = x.absValue) : (double x h).Survives := by
  show x.Reads (x.withSign (sixDigits x.absValue))
  rw [hdigits]
  exact (Double.reads_value_iff h).mpr rfl

theorem denotes_printNumber_iff (n : Number) : Denotes n (printNumber n) ↔ n.Survives := by
  cases n with
  | unsigned n =>
    rw [printNumber_unsigned]
    exact iff_of_true (number?_toString _) trivial
  | negative n h =>
    rw [printNumber_negative]
    exact iff_of_true (number?_toString _) trivial
  | double x h =>
    constructor
    · rintro ⟨q, hq, hreads⟩
      rw [printNumber_double, number?_printDouble] at hq
      rw [← Option.some.inj hq] at hreads
      exact hreads
    · exact fun hreads => ⟨_, number?_printDouble x, hreads⟩

/-! ### What the printer writes -/

/-- A member as it is written. -/
def printMember (newIndent : ℕ) (m : String × JsonTree Number) : List Char :=
  fill (2 * newIndent) ++ (printString m.1 ++ (": ".toList ++ printJSON m.2 newIndent))

theorem printMembers_eq (members : List (String × JsonTree Number)) (newIndent : ℕ) :
    printMembers members newIndent = separated '\n' (printMember newIndent) members := by
  have hfollowing : ∀ members : List (String × JsonTree Number),
      printFollowingMembers members newIndent =
        members.flatMap fun m => ',' :: '\n' :: printMember newIndent m := by
    intro members
    induction members with
    | nil => rw [printFollowingMembers, List.flatMap_nil]
    | cons m members ih =>
      rw [printFollowingMembers, ih, List.flatMap_cons, printMember]
      simp only [List.append_assoc, List.cons_append]
      rfl
  cases members with
  | nil => rw [printMembers, separated]
  | cons m members =>
    rw [printMembers, hfollowing, separated, printMember]
    simp only [List.append_assoc]

theorem printItems_eq (items : List (JsonTree Number)) (newIndent : ℕ) :
    printItems items newIndent = separated ' ' (fun v => printJSON v newIndent) items := by
  have hfollowing : ∀ items : List (JsonTree Number), printFollowingItems items newIndent =
      items.flatMap fun v => ',' :: ' ' :: printJSON v newIndent := by
    intro items
    induction items with
    | nil => rw [printFollowingItems, List.flatMap_nil]
    | cons v items ih =>
      rw [printFollowingItems, ih, List.flatMap_cons]
      rfl
  cases items with
  | nil => rw [printItems, separated]
  | cons v items => rw [printItems, hfollowing, separated]

/-! ### Texts of values -/

/-- A leaf that is no null and has no special character. -/
def Plain : JsonLeaf Number → Prop
  | .null => False
  | .bool _ => True
  | .number _ => True
  | .text s => ∀ c ∈ s.toList, ¬ IsSpecial c

theorem charsText_self {l : List Char} (h : ∀ c ∈ l, ¬ IsSpecial c) : CharsText l l := by
  induction l with
  | nil => exact .nil
  | cons c l ih =>
    obtain ⟨hc, hl⟩ := List.forall_mem_cons.mp h
    exact .cons (.plain hc) (ih hl)

/-- A string without special characters is printed as it is, and so are its characters. -/
theorem stringText_printString {s : String} (h : ∀ c ∈ s.toList, ¬ IsSpecial c) :
    StringText s (printString s) := by
  have hzero : printCString s = s.toList := by
    refine List.takeWhile_eq_self_iff.mpr fun c hc => decide_eq_true ?_
    rintro rfl
    exact h _ hc (Or.inr (Or.inr (by decide)))
  exact ⟨printCString s, rfl, hzero.symm ▸ charsText_self h⟩

theorem blank_fill (k : ℕ) : Blank (fill k) := fun _ hc =>
  Or.inl (List.eq_of_mem_replicate hc)

theorem blank_newline {t : List Char} (ht : Blank t) : Blank ('\n' :: t) :=
  List.forall_mem_cons.mpr ⟨Or.inr (Or.inr (Or.inl rfl)), ht⟩

section Written

variable {D : Number → List Char → Prop}

/-- A member is written as a name and a value. -/
theorem padded_printMember {m : String × JsonTree Number} {newIndent : ℕ}
    (hname : ∀ c ∈ m.1.toList, ¬ IsSpecial c) (hvalue : m.2.Text D (printJSON m.2 newIndent)) :
    Padded (MemberText m.1 (m.2.Text D)) (printMember newIndent m) := by
  have hmember : MemberText m.1 (m.2.Text D)
      (printString m.1 ++ (": ".toList ++ printJSON m.2 newIndent)) :=
    ⟨printString m.1, [], [' '], printJSON m.2 newIndent, rfl, stringText_printString hname,
      fun c hc => absurd hc List.not_mem_nil, blank_fill 1, hvalue⟩
  exact (Padded.of_text hmember).blank_append (blank_fill _)

/-- **What is printed is a text of the value** if nothing in it is null or
special and its numbers are texts of numbers. -/
theorem text_printJSON {v : JsonTree Number} (h : ∀ l ∈ v.leaves, Plain l)
    (hD : ∀ n, .number n ∈ v.leaves → D n (printNumber n)) (indent : ℕ) :
    v.Text D (printJSON v indent) := by
  induction v using JsonTree.induction generalizing indent with
  | null => exact (h .null (by simp [JsonTree.leaves])).elim
  | bool b =>
    cases b with
    | true =>
      rw [printJSON, JsonTree.Text]
      rfl
    | false =>
      rw [printJSON, JsonTree.Text]
      rfl
  | number n =>
    rw [printJSON, JsonTree.Text]
    exact hD n (by simp [JsonTree.leaves])
  | string s =>
    rw [printJSON, JsonTree.Text]
    exact stringText_printString (h (.text s) (by simp [JsonTree.leaves]))
  | array items ih =>
    rw [JsonTree.leaves_array] at h hD
    have hitems : ∀ v ∈ items, v.Text D (printJSON v (indent + 1)) := fun v hv =>
      ih v hv (fun l hl => h l (List.mem_flatMap.mpr ⟨v, hv, hl⟩))
        (fun n hn => hD n (List.mem_flatMap.mpr ⟨v, hv, hn⟩)) (indent + 1)
    rw [printJSON, printItems_eq]
    exact JsonTree.text_array.mpr ⟨_, rfl,
      commas_separated (Or.inl rfl) fun v hv => .of_text (hitems v hv)⟩
  | object members ih =>
    rw [JsonTree.leaves_object] at h hD
    have hmembers : ∀ m ∈ members,
        Padded (MemberText m.1 (m.2.Text D)) (printMember (indent + 1) m) := by
      intro m hm
      have hleaf : ∀ l ∈ JsonTree.memberLeaves m, l ∈ members.flatMap JsonTree.memberLeaves :=
        fun l hl => List.mem_flatMap.mpr ⟨m, hm, hl⟩
      exact padded_printMember (h (.text m.1) (hleaf _ List.mem_cons_self))
        (ih m hm (fun l hl => h l (hleaf l (List.mem_cons_of_mem _ hl)))
          (fun n hn => hD n (hleaf _ (List.mem_cons_of_mem _ hn))) (indent + 1))
    have hbody := ((commas_separated (Or.inr (Or.inr (Or.inl rfl))) hmembers).blank_append
      (blank_newline (blank_fill 0))).append_blank (blank_newline (blank_fill (2 * indent)))
    rw [printJSON, printMembers_eq]
    exact JsonTree.text_object.mpr ⟨_, by simp [fill], hbody⟩

end Written

/-! ### What is missing in it -/

/-- How many of the letters `n` and `u` and of the backslashes are printed for a leaf. -/
def printedWeight : JsonLeaf Number → ℕ
  | .null => 1
  | .bool true => 1
  | .bool false => 0
  | .number _ => 0
  | .text s => weight (printCString s)

theorem weight_printNumber (n : Number) : weight (printNumber n) = 0 :=
  weight_eq_zero (numberTexts_printNumber n _ rfl).2

theorem weight_fill (k : ℕ) : weight (fill k) = 0 := by
  refine List.countP_eq_zero.mpr fun c hc => ?_
  rw [List.eq_of_mem_replicate hc]
  decide

theorem weight_printString (s : String) : weight (printString s) = weight (printCString s) := by
  rw [printString, weight_cons, weight_append]
  exact Nat.zero_add _

/-- What is printed for a value. -/
def printedTreeWeight (v : JsonTree Number) : ℕ := (v.leaves.map printedWeight).sum

theorem printedTreeWeight_array (items : List (JsonTree Number)) :
    printedTreeWeight (.array items) = (items.map printedTreeWeight).sum := by
  rw [printedTreeWeight, JsonTree.leaves_array, JsonTree.sum_flatMap]
  rfl

theorem printedTreeWeight_object (members : List (String × JsonTree Number)) :
    printedTreeWeight (.object members) =
      (members.map fun m => weight (printCString m.1) + printedTreeWeight m.2).sum := by
  rw [printedTreeWeight, JsonTree.leaves_object, JsonTree.sum_flatMap]
  rfl

theorem weight_printMember (newIndent : ℕ) (m : String × JsonTree Number) :
    weight (printMember newIndent m) =
      weight (printCString m.1) + weight (printJSON m.2 newIndent) := by
  have hcolon : weight (": ".toList ++ printJSON m.2 newIndent) =
      weight (printJSON m.2 newIndent) := by
    rw [weight_append]
    exact Nat.zero_add _
  rw [printMember, weight_append, weight_append, weight_fill, weight_printString, hcolon,
    Nat.zero_add]

/-- **Nothing else in the text is one of these letters.** -/
theorem weight_printJSON (v : JsonTree Number) (indent : ℕ) :
    weight (printJSON v indent) = printedTreeWeight v := by
  induction v using JsonTree.induction generalizing indent with
  | null => rfl
  | bool b =>
    cases b with
    | true => rfl
    | false => rfl
  | number n =>
    rw [printJSON]
    exact weight_printNumber n
  | string s =>
    rw [printJSON]
    exact weight_printString s
  | array items ih =>
    have hitems : weight (printItems items (indent + 1)) = (items.map printedTreeWeight).sum := by
      rw [printItems_eq, weight_separated rfl, List.map_congr_left fun v hv => ih v hv _]
    rw [printJSON, weight_cons_of_light rfl, weight_append, hitems, printedTreeWeight_array]
    rfl
  | object members ih =>
    have hmembers : weight (printMembers members (indent + 1)) =
        (members.map fun m => weight (printCString m.1) + printedTreeWeight m.2).sum := by
      rw [printMembers_eq, weight_separated rfl, List.map_congr_left fun m hm => ?_]
      rw [weight_printMember, ih m hm]
    have hend : weight (fill (2 * indent) ++ ['}']) = 0 := by
      rw [weight_append, weight_fill]
      rfl
    have hbrace : weight "\x7b\n".toList = 0 := rfl
    rw [printJSON, weight_append, weight_append, weight_cons_of_light rfl, hend, hmembers, hbrace,
      printedTreeWeight_object, Nat.zero_add, Nat.add_zero]

theorem printedWeight_le (l : JsonLeaf Number) : printedWeight l ≤ JsonTree.leafWeight l := by
  cases l with
  | null => exact Nat.le_succ 1
  | bool b =>
    cases b with
    | true => exact le_rfl
    | false => exact le_rfl
  | number n => exact le_rfl
  | text s => exact weight_le_stringWeight (List.takeWhile_sublist _)

theorem printedWeight_lt {l : JsonLeaf Number} (h : ¬ Plain l) :
    printedWeight l < JsonTree.leafWeight l := by
  cases l with
  | null => exact Nat.lt_succ_self 1
  | bool b => exact absurd trivial h
  | number n => exact absurd trivial h
  | text s =>
    have hspecial : ∃ c ∈ s.toList, IsSpecial c := by
      by_contra hnone
      exact h fun c hc hspecial => hnone ⟨c, hc, hspecial⟩
    exact weight_lt_stringWeight (List.takeWhile_sublist _) hspecial

/-- **Where there is a null or a special character, what is printed lacks a letter**, so
it is no text of the value. -/
theorem plain_of_isText {D : Number → List Char → Prop} {v : JsonTree Number} {indent : ℕ}
    (h : v.IsText D (printJSON v indent)) : ∀ l ∈ v.leaves, Plain l := by
  intro l hl
  by_contra hplain
  have hweight : v.treeWeight ≤ weight (printJSON v indent) :=
    Padded.weight_le h fun u hu => v.weight_le hu
  have hlt : printedTreeWeight v < v.treeWeight :=
    List.sum_lt_sum _ _ (fun l _ => printedWeight_le l) ⟨l, hl, printedWeight_lt hplain⟩
  rw [weight_printJSON] at hweight
  exact absurd hweight (not_le.mpr hlt)

/-! ### What survives -/

/-- Nothing in a value is lost when it is printed. -/
structure Survives (v : JsonTree Number) : Prop where
  plain : ∀ l ∈ v.leaves, Plain l
  number : ∀ n, .number n ∈ v.leaves → n.Survives

/-- **Which values are printed as a text of the value**: those with no null, no string
or name with a character that has to be escaped, and no double that its six
significant digits are not read as. -/
theorem isText_printJSON_iff (v : JsonTree Number) (indent : ℕ) :
    v.IsText Denotes (printJSON v indent) ↔ Survives v := by
  constructor
  · intro h
    have hplain := plain_of_isText h
    -- the numbers are where the printer put them
    have hprinted : v.IsText (fun n u => u = printNumber n) (printJSON v indent) :=
      .of_text (text_printJSON (D := fun n u => u = printNumber n) hplain (fun _ _ => rfl) indent)
    refine ⟨hplain, fun n hn => (denotes_printNumber_iff n).mp ?_⟩
    obtain ⟨u, hu, rfl⟩ := JsonTree.isText_inj numberTexts_denotes numberTexts_printNumber h
      hprinted hn
    exact hu
  · intro h
    exact .of_text (text_printJSON h.plain
      (fun n hn => (denotes_printNumber_iff n).mpr (h.number n hn)) indent)

/-- The null value is not printed as a text of it. -/
theorem not_isText_printJSON_null :
    ¬ ∀ v : JsonTree Number, v.IsText Denotes (printJSON v 0) := fun h =>
  plain_of_isText (h .null) .null List.mem_cons_self

end Emdr
end EveIndustryPlanner
