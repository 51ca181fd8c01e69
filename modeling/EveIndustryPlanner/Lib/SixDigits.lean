import EveIndustryPlanner.Lib.JsonNumber

/-!
# Numbers with six significant digits

A stream prints a number with six significant digits, of which zeros at the end
of the fraction are left out.  Very large and very small numbers have a power of
ten.

## Main definitions

* `significand` — six digits and the power of ten of the first.
* `sixDigits` — a number rounded to six significant digits.
* `formatDigits`, `formatUnsigned` — how it is printed.

## Main results

* `unsigned?_formatUnsigned` — **what is printed is the number rounded to six
  significant digits.**
-/

namespace EveIndustryPlanner

/-! ### Rounding -/

/-- The nearest whole number, and the even one if two are equally near. -/
def roundHalfEven (q : ℚ) : ℕ :=
  let rest := q - ⌊q⌋₊
  if rest < 1 / 2 ∨ rest = 1 / 2 ∧ ⌊q⌋₊ % 2 = 0 then ⌊q⌋₊ else ⌊q⌋₊ + 1

/-- The six significant digits of a positive number, and the power of ten of the
first. -/
def significand (q : ℚ) : ℕ × ℤ :=
  let exponent := Int.log 10 q
  let digits := roundHalfEven (q * 10 ^ (5 - exponent))
  if digits = 10 ^ 6 then (10 ^ 5, exponent + 1) else (digits, exponent)

/-- The number with some six digits. -/
def ofSignificand (s : ℕ × ℤ) : ℚ := s.1 * 10 ^ (s.2 - 5)

/-- A number that is not negative, rounded to six significant digits. -/
def sixDigits (q : ℚ) : ℚ := if q = 0 then 0 else ofSignificand (significand q)

/-! ### Printing -/

/-- A fraction, without a point if there is none. -/
def fractionText (f : List Char) : List Char := if f = [] then [] else '.' :: f

/-- A fraction without the zeros at its end. -/
def stripZeros (f : List Char) : List Char := f.rdropWhile fun c => c = '0'

/-- An exponent, with a sign and two digits at least. -/
def exponentText (exponent : ℤ) : List Char :=
  let digits := Nat.toDigits 10 exponent.natAbs
  'e' :: (if exponent < 0 then '-' else '+') ::
    if digits.length < 2 then '0' :: digits else digits

/-- Six digits with a power of ten. -/
def formatDigits (s : ℕ × ℤ) : List Char :=
  let digits := Nat.toDigits 10 s.1
  if -4 ≤ s.2 ∧ s.2 < 6 then
    if 0 ≤ s.2 then
      digits.take (s.2.toNat + 1) ++ fractionText (stripZeros (digits.drop (s.2.toNat + 1)))
    else
      '0' :: fractionText (stripZeros (List.replicate (-s.2 - 1).toNat '0' ++ digits))
  else digits.take 1 ++ (fractionText (stripZeros (digits.drop 1)) ++ exponentText s.2)

/-- A number that is not negative. -/
def formatUnsigned (q : ℚ) : List Char := if q = 0 then ['0'] else formatDigits (significand q)

example : formatUnsigned (1234567 / 100) = "12345.7".toList ∧
    formatUnsigned (1 / 100000) = "1e-05".toList ∧
    formatUnsigned 1234567 = "1.23457e+06".toList := by decide +kernel

/-! ### Bounds -/

theorem roundHalfEven_bounds {q : ℚ} {a b : ℕ} (ha : (a : ℚ) ≤ q) (hb : q < b) :
    a ≤ roundHalfEven q ∧ roundHalfEven q ≤ b := by
  have hfloor : a ≤ ⌊q⌋₊ := Nat.le_floor ha
  have hlt : ⌊q⌋₊ < b := (Nat.floor_lt' (by
    rintro rfl
    have hnonneg : (0 : ℚ) ≤ a := Nat.cast_nonneg a
    exact absurd hb (by simpa using hnonneg.trans ha))).mpr hb
  unfold roundHalfEven
  dsimp only
  split
  · exact ⟨hfloor, hlt.le⟩
  · exact ⟨hfloor.trans (Nat.le_succ _), hlt⟩

/-- **There are six digits.** -/
theorem significand_bounds {q : ℚ} (hq : 0 < q) :
    10 ^ 5 ≤ (significand q).1 ∧ (significand q).1 < 10 ^ 6 := by
  have hlow : ((10 : ℕ) : ℚ) ^ Int.log 10 q ≤ q := Int.zpow_log_le_self (by decide) hq
  have hhigh : q < ((10 : ℕ) : ℚ) ^ (Int.log 10 q + 1) := Int.lt_zpow_succ_log_self (by decide) q
  have hten : (0 : ℚ) < ((10 : ℕ) : ℚ) := by norm_num
  have hscale : (0 : ℚ) < 10 ^ (5 - Int.log 10 q) := by positivity
  have hbounds := roundHalfEven_bounds (q := q * 10 ^ (5 - Int.log 10 q)) (a := 10 ^ 5)
    (b := 10 ^ 6) ?_ ?_
  · unfold significand
    dsimp only
    split
    · exact ⟨le_rfl, by norm_num⟩
    · next hne => exact ⟨hbounds.1, lt_of_le_of_ne hbounds.2 hne⟩
  · have hpow : (10 : ℚ) ^ (Int.log 10 q) * 10 ^ (5 - Int.log 10 q) = 10 ^ 5 := by
      rw [← zpow_add₀ (by norm_num), add_sub_cancel]
      norm_num
    have hmul := mul_le_mul_of_nonneg_right hlow hscale.le
    push_cast at hmul ⊢
    rwa [hpow] at hmul
  · have hpow : (10 : ℚ) ^ (Int.log 10 q + 1) * 10 ^ (5 - Int.log 10 q) = 10 ^ 6 := by
      rw [← zpow_add₀ (by norm_num), show Int.log 10 q + 1 + (5 - Int.log 10 q) = 6 by omega]
      norm_num
    have hmul := mul_lt_mul_of_pos_right hhigh hscale
    push_cast at hmul ⊢
    rwa [hpow] at hmul

/-! ### Fractions -/

theorem exists_stripZeros (f : List Char) : ∃ k, f = stripZeros f ++ List.replicate k '0' := by
  refine ⟨(f.rtakeWhile fun c => c = '0').length, ?_⟩
  have hzeros : f.rtakeWhile (fun c => c = '0') =
      List.replicate (f.rtakeWhile fun c => c = '0').length '0' :=
    List.eq_replicate_of_mem fun c hc => by simpa using List.mem_rtakeWhile_imp hc
  rw [← hzeros]
  exact List.rdropWhile_append_rtakeWhile.symm

/-- **Zeros at the end of a fraction are worth nothing.** -/
theorem fraction?_stripZeros {f : List Char} (hf : ∀ c ∈ f, c.isDigit = true) :
    fraction? (fractionText (stripZeros f)) = some ((digitsValue f : ℚ) / 10 ^ f.length) := by
  obtain ⟨k, hk⟩ := exists_stripZeros f
  have hvalue : (digitsValue f : ℚ) / 10 ^ f.length =
      digitsValue (stripZeros f) / 10 ^ (stripZeros f).length := by
    have hzeros : digitsValue f = digitsValue (stripZeros f) * 10 ^ k := by
      rw [hk, digitsValue_append, digitsValue_zeros, List.length_replicate, add_zero, ← hk]
    have hlength : f.length = (stripZeros f).length + k := by
      rw [congrArg List.length hk, List.length_append, List.length_replicate]
    rw [hzeros, hlength, pow_add, Nat.cast_mul, Nat.cast_pow, Nat.cast_ofNat,
      mul_div_mul_right _ _ (by positivity)]
  rw [hvalue]
  by_cases hempty : stripZeros f = []
  · rw [hempty]
    show some (0 : ℚ) = some (((0 : ℕ) : ℚ) / 10 ^ 0)
    norm_num
  · have hdigits : ∀ c ∈ stripZeros f, c.isDigit = true := by
      intro c hc
      exact hf c (by rw [hk]; exact List.mem_append_left _ hc)
    rw [fractionText, if_neg hempty, fraction?, if_pos rfl, digits?_of_forall hempty hdigits]
    rfl

/-- Digits with a point among them. -/
theorem digitsValue_add_fraction (w f : List Char) :
    (digitsValue w : ℚ) + digitsValue f / 10 ^ f.length = digitsValue (w ++ f) / 10 ^ f.length := by
  rw [digitsValue_append, Nat.cast_add, Nat.cast_mul, Nat.cast_pow, Nat.cast_ofNat, add_div,
    mul_div_cancel_right₀ _ (by positivity)]

/-! ### Exponents -/

theorem digits?_zero_cons {ds : List Char} {n : ℕ} (h : digits? ds = some n) :
    digits? ('0' :: ds) = some n := by
  obtain ⟨-, hdigits, hvalue⟩ := digits?_eq_some h
  have hall : ∀ c ∈ '0' :: ds, c.isDigit = true := by
    intro c hc
    rcases List.mem_cons.mp hc with rfl | hc
    · rfl
    · exact hdigits c hc
  have hzero : digitsValue ('0' :: ds) = digitsValue ds := by
    have happend := digitsValue_append ['0'] ds
    rw [show digitsValue ['0'] = 0 from rfl, zero_mul, zero_add] at happend
    exact happend
  rw [digits?_of_forall (by simp) hall, hzero, hvalue]

theorem exponent?_exponentText (k : ℤ) : exponent? (exponentText k) = some k := by
  have hdigits : digits? (if (Nat.toDigits 10 k.natAbs).length < 2
      then '0' :: Nat.toDigits 10 k.natAbs else Nat.toDigits 10 k.natAbs) = some k.natAbs := by
    split
    · exact digits?_zero_cons (digits?_toDigits _)
    · exact digits?_toDigits _
  unfold exponentText exponent?
  dsimp only
  split
  · next hneg =>
    rw [signed?, hdigits, Option.map_some, Int.ofNat_natAbs_of_nonpos hneg.le, neg_neg]
  · next hpos =>
    rw [signed?, hdigits, Option.map_some, Int.natAbs_of_nonneg (not_lt.mp hpos)]

/-! ### What is printed -/

section Digits

variable {s : ℕ × ℤ}

theorem length_toDigits (h : 10 ^ 5 ≤ s.1 ∧ s.1 < 10 ^ 6) : (Nat.toDigits 10 s.1).length = 6 := by
  have hle := (Nat.length_toDigits_le_iff (b := 10) (by decide) (by decide : 0 < 6)).mpr h.2
  have hgt : ¬ (Nat.toDigits 10 s.1).length ≤ 5 := fun hlt =>
    not_lt.mpr h.1 ((Nat.length_toDigits_le_iff (by decide) (by decide)).mp hlt)
  omega

/-- The whole part of some digits that do not start with a zero. -/
theorem whole?_take {ds : List Char} (hne : ds ≠ []) (hzero : ds.head? ≠ some '0')
    (hds : ∀ c ∈ ds, c.isDigit = true) (k : ℕ) :
    whole? (ds.take (k + 1)) = some (digitsValue (ds.take (k + 1))) := by
  have hhead : (ds.take (k + 1)).head? = ds.head? := by
    cases ds with
    | nil => rfl
    | cons c ds => rfl
  have htake : ds.take (k + 1) ≠ [] := by simpa using hne
  rw [whole?, hhead, if_neg fun h => hzero h.1,
    digits?_of_forall htake fun c hc => hds c (List.mem_of_mem_take hc)]

/-- Digits with a point among them and an exponent. -/
theorem unsigned?_digits {w f e : List Char} {k : ℤ} (hw : whole? w = some (digitsValue w))
    (hf : ∀ c ∈ f, c.isDigit = true) (he : exponent? e = some k)
    (hexp : ∀ c ∈ e.head?, IsExponentChar c) :
    unsigned? (w ++ (fractionText (stripZeros f) ++ e)) =
      some ((digitsValue (w ++ f) : ℚ) * 10 ^ (k - f.length)) := by
  rw [unsigned?_append hw (fraction?_stripZeros hf) he hexp, digitsValue_add_fraction,
    zpow_sub₀ (by norm_num), zpow_natCast, div_mul_eq_mul_div, mul_div_assoc]

/-- **Six digits are printed as they are.** -/
theorem unsigned?_formatDigits (h : 10 ^ 5 ≤ s.1 ∧ s.1 < 10 ^ 6) :
    unsigned? (formatDigits s) = some (ofSignificand s) := by
  have hlength := length_toDigits h
  have hpos : 0 < s.1 := lt_of_lt_of_le (by norm_num) h.1
  have hdigits : ∀ c ∈ Nat.toDigits 10 s.1, c.isDigit = true := fun c hc =>
    Nat.isDigit_of_mem_toDigits (by decide) (by decide) hc
  have hvalue : digitsValue (Nat.toDigits 10 s.1) = s.1 := Nat.ofDigitChars_ten_toDigits
  have hwhole := whole?_take Nat.toDigits_ne_nil (head?_toDigits_ne hpos) hdigits
  have hdrop : ∀ k, ∀ c ∈ (Nat.toDigits 10 s.1).drop k, c.isDigit = true := fun k c hc =>
    hdigits c (List.mem_of_mem_drop hc)
  unfold formatDigits
  dsimp only
  split
  · next hfixed =>
    split
    · next hexponent =>
      -- the point is among the digits
      have htext := unsigned?_digits (hwhole s.2.toNat) (hdrop (s.2.toNat + 1)) (e := [])
        (k := 0) rfl (by simp)
      rw [List.append_nil, List.take_append_drop, hvalue, List.length_drop, hlength] at htext
      have hpower : (0 : ℤ) - (6 - (s.2.toNat + 1) : ℕ) = s.2 - 5 := by omega
      rw [hpower] at htext
      exact htext
    · next hexponent =>
      -- there are zeros between the point and the digits
      have hzeros : ∀ c ∈ List.replicate (-s.2 - 1).toNat '0' ++ Nat.toDigits 10 s.1,
          c.isDigit = true := by
        intro c hc
        rcases List.mem_append.mp hc with hc | hc
        · rw [List.eq_of_mem_replicate hc]
          rfl
        · exact hdigits c hc
      have hwhole : whole? ['0'] = some (digitsValue ['0']) := whole?_toDigits 0
      have htext := unsigned?_digits hwhole hzeros (e := []) (k := 0) rfl (by simp)
      have hall : digitsValue (['0'] ++ (List.replicate (-s.2 - 1).toNat '0' ++
          Nat.toDigits 10 s.1)) = s.1 := by
        have hzero : digitsValue ['0'] = 0 := digitsValue_zeros 1
        rw [digitsValue_append, digitsValue_append, digitsValue_zeros, hzero, zero_mul, zero_mul,
          zero_add, zero_add, hvalue]
      rw [List.append_nil, hall, List.length_append, List.length_replicate, hlength] at htext
      have hpower : (0 : ℤ) - ((-s.2 - 1).toNat + 6 : ℕ) = s.2 - 5 := by omega
      rw [hpower] at htext
      exact htext
  · have htext := unsigned?_digits (hwhole 0) (hdrop 1) (exponent?_exponentText s.2) (by
      intro c hc
      obtain rfl := Option.some.inj hc
      exact Or.inl rfl)
    rw [List.take_append_drop, hvalue, List.length_drop, hlength] at htext
    exact htext

end Digits

/-- **What is printed is the number rounded to six significant digits.** -/
theorem unsigned?_formatUnsigned {q : ℚ} (hq : 0 ≤ q) :
    unsigned? (formatUnsigned q) = some (sixDigits q) := by
  unfold formatUnsigned sixDigits
  split
  · exact unsigned?_toDigits 0
  · next hne => exact unsigned?_formatDigits (significand_bounds (lt_of_le_of_ne hq (Ne.symm hne)))

end EveIndustryPlanner
