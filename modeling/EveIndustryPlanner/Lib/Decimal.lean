import Mathlib

/-!
# Texts with numbers in them

A number written in decimal ends where something that is not a digit follows,
so texts that put numbers and fixed words next to each other can be taken apart
again.

## Main definitions

* `EndsNumber` — a text that does not continue a number before it.

## Main results

* `toString_append_inj` — **a number in front of a text can be read off.**
* `toString_injective` — a number is known from its text.
-/

namespace EveIndustryPlanner

/-- The text does not continue a number in front of it. -/
def EndsNumber (s : String) : Prop := ∀ c ∈ s.toList.head?, c.isDigit = false

instance (s : String) : Decidable (EndsNumber s) :=
  decidable_of_iff (s.toList.head?.all fun c => !c.isDigit) (by
    unfold EndsNumber
    cases s.toList.head? <;> simp)

/-- Only the first character counts. -/
theorem EndsNumber.append {s : String} (h : EndsNumber s) (hs : s ≠ "") (t : String) :
    EndsNumber (s ++ t) := by
  intro c hc
  rw [String.toList_append, List.head?_append_of_ne_nil _ (by simpa using hs)] at hc
  exact h c hc

/-! ### Up to some character -/

section Span

variable {α : Type*} {p : α → Bool} {l l' : List α}

theorem takeWhile_eq_nil_of_head? (h : ∀ a ∈ l.head?, p a = false) : l.takeWhile p = [] := by
  cases l with
  | nil => rfl
  | cons a l => rw [List.takeWhile_cons, h a rfl]; rfl

theorem takeWhile_append_of_head? (hl : ∀ a ∈ l, p a = true) (hl' : ∀ a ∈ l'.head?, p a = false) :
    (l ++ l').takeWhile p = l := by
  rw [List.takeWhile_append_of_pos hl, takeWhile_eq_nil_of_head? hl', List.append_nil]

theorem dropWhile_append_of_head? (hl : ∀ a ∈ l, p a = true) (hl' : ∀ a ∈ l'.head?, p a = false) :
    (l ++ l').dropWhile p = l' := by
  rw [List.dropWhile_append_of_pos hl]
  cases l' with
  | nil => rfl
  | cons a l' => rw [List.dropWhile_cons, hl' a rfl]; rfl

/-- Two texts that start with some characters and go on with another agree in both. -/
theorem append_inj_of_head? {m m' : List α} (hl : ∀ a ∈ l, p a = true)
    (hm : ∀ a ∈ m, p a = true) (hl' : ∀ a ∈ l'.head?, p a = false)
    (hm' : ∀ a ∈ m'.head?, p a = false) (h : l ++ l' = m ++ m') : l = m ∧ l' = m' := by
  have htake := takeWhile_append_of_head? hl hl'
  have hdrop := dropWhile_append_of_head? hl hl'
  rw [h] at htake hdrop
  exact ⟨htake.symm.trans (takeWhile_append_of_head? hm hm'),
    hdrop.symm.trans (dropWhile_append_of_head? hm hm')⟩

end Span

/-! ### Digits -/

/-- Digits up to the first character that is none. -/
theorem digits_append_inj {ds ds' cs cs' : List Char} (hds : ∀ c ∈ ds, c.isDigit = true)
    (hds' : ∀ c ∈ ds', c.isDigit = true) (hcs : ∀ c ∈ cs.head?, c.isDigit = false)
    (hcs' : ∀ c ∈ cs'.head?, c.isDigit = false) (h : ds ++ cs = ds' ++ cs') :
    ds = ds' ∧ cs = cs' :=
  append_inj_of_head? hds hds' hcs hcs' h

theorem isDigit_of_mem_toString {n : ℕ} {c : Char} (hc : c ∈ (toString n).toList) :
    c.isDigit = true := by
  rw [Nat.toString_eq_repr, Nat.toList_repr] at hc
  exact Nat.isDigit_of_mem_toDigits (by decide) (by decide) hc

/-- A number is known from its text. -/
theorem toString_injective : Function.Injective (toString : ℕ → String) := by
  intro n m h
  rw [Nat.toString_eq_repr, Nat.toString_eq_repr] at h
  have hdigits := congrArg String.toList h
  rw [Nat.toList_repr, Nat.toList_repr] at hdigits
  have hvalue := congrArg (Nat.ofDigitChars 10 · 0) hdigits
  simpa using hvalue

/-- **A number in front of a text can be read off.** -/
theorem toString_append_inj {n m : ℕ} {s t : String} (hs : EndsNumber s) (ht : EndsNumber t)
    (h : toString n ++ s = toString m ++ t) : n = m ∧ s = t := by
  have hlist := congrArg String.toList h
  rw [String.toList_append, String.toList_append] at hlist
  obtain ⟨hnm, hst⟩ := digits_append_inj (fun c => isDigit_of_mem_toString)
    (fun c => isDigit_of_mem_toString) hs ht hlist
  exact ⟨toString_injective (String.toList_inj.mp hnm), String.toList_inj.mp hst⟩

/-- What does not continue a number does not start with one. -/
theorem EndsNumber.ne_toString_append {s : String} (hs : EndsNumber s) (n : ℕ) (t : String) :
    s ≠ toString n ++ t := by
  intro h
  cases hdigits : (toString n).toList with
  | nil =>
    rw [Nat.toString_eq_repr, Nat.toList_repr] at hdigits
    exact absurd hdigits Nat.toDigits_ne_nil
  | cons c cs =>
    have hdigit : c.isDigit = true := isDigit_of_mem_toString (hdigits ▸ List.mem_cons_self)
    rw [hs c (by rw [h, String.toList_append, hdigits]; rfl)] at hdigit
    exact absurd hdigit (by decide)

end EveIndustryPlanner
