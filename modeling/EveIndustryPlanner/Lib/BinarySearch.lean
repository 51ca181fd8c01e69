import Mathlib

/-!
# Binary search

The place of a key in a list of keys is looked for in the middle of what is left of it,
and so is the place where a test begins to fail.

## Main definitions

* `binarySearch` — the place that is found.
* `partitionPoint` — where a test begins to fail, if it does not hold again behind that.

## Main results

* `getElem?_of_binarySearch` — at the place that is found is the key.
* `binarySearch_eq_some_iff` — **in a sorted list the place of a key is found.**
* `partitionPoint_eq` — **where a test holds of an initial part only, its length is found.**
* `take_partitionPoint`, `drop_partitionPoint` — the two parts of such a list.
-/

namespace EveIndustryPlanner

section BinarySearch

variable {κ : Type*} [LinearOrder κ]

/-- Look between two places; it takes no more steps than there are places. -/
def searchBetween (l : List κ) (k : κ) : ℕ → ℕ → ℕ → Option ℕ
  | 0, _, _ => none
  | n + 1, first, behind =>
    if first < behind then
      let mid := (first + (behind - 1)) / 2
      match l[mid]? with
      | none => none
      | some item =>
        if item = k then some mid
        else if k < item then searchBetween l k n first mid
        else searchBetween l k n (mid + 1) behind
    else none

/-- Look everywhere. -/
def binarySearch (l : List κ) (k : κ) : Option ℕ := searchBetween l k l.length 0 l.length

variable {l : List κ} {k : κ}

theorem getElem?_of_searchBetween {n first behind i : ℕ}
    (h : searchBetween l k n first behind = some i) : l[i]? = some k := by
  induction n generalizing first behind with
  | zero => exact absurd h (by simp [searchBetween])
  | succ n ih =>
    unfold searchBetween at h
    split at h
    · dsimp only at h
      split at h
      · exact absurd h (by simp)
      · next item hitem =>
        split at h
        · next heq =>
          obtain rfl := Option.some.inj h
          rw [hitem, heq]
        · split at h
          · exact ih h
          · exact ih h
    · exact absurd h (by simp)

/-- At the place that is found is the key. -/
theorem getElem?_of_binarySearch {i : ℕ} (h : binarySearch l k = some i) : l[i]? = some k :=
  getElem?_of_searchBetween h

/-- The keys before a key are less, and those behind it are greater. -/
theorem getElem?_lt_iff (hl : l.Pairwise (· < ·)) {i j : ℕ} {a b : κ} (hi : l[i]? = some a)
    (hj : l[j]? = some b) : a < b ↔ i < j := by
  obtain ⟨hi', rfl⟩ := List.getElem?_eq_some_iff.mp hi
  obtain ⟨hj', rfl⟩ := List.getElem?_eq_some_iff.mp hj
  rw [List.pairwise_iff_getElem] at hl
  constructor
  · intro h
    by_contra hle
    rcases (not_lt.mp hle).lt_or_eq with hlt | rfl
    · exact absurd h (hl j i hj' hi' hlt).asymm
    · exact absurd h (lt_irrefl _)
  · exact hl i j hi' hj'

theorem searchBetween_eq_some (hl : l.Pairwise (· < ·)) {n first behind i : ℕ}
    (hi : l[i]? = some k) (hfirst : first ≤ i) (hbehind : i < behind)
    (hlength : behind ≤ l.length) (hn : behind - first ≤ n) :
    searchBetween l k n first behind = some i := by
  induction n generalizing first behind with
  | zero => omega
  | succ n ih =>
    have hmid : (first + (behind - 1)) / 2 < l.length := by omega
    have hitem : l[(first + (behind - 1)) / 2]? = some l[(first + (behind - 1)) / 2] :=
      List.getElem?_eq_getElem hmid
    rw [searchBetween, if_pos (by omega)]
    dsimp only
    rw [hitem]
    dsimp only
    split
    · next heq =>
      -- no other place has the key
      have hge : ¬ i < (first + (behind - 1)) / 2 := by
        rw [← getElem?_lt_iff hl hi hitem, heq]
        exact lt_irrefl k
      have hle : ¬ (first + (behind - 1)) / 2 < i := by
        rw [← getElem?_lt_iff hl hitem hi, heq]
        exact lt_irrefl k
      rw [show (first + (behind - 1)) / 2 = i by omega]
    · next hne =>
      split
      · next hlt =>
        have hbefore := (getElem?_lt_iff hl hi hitem).mp hlt
        exact ih hfirst hbefore (by omega) (by omega)
      · next hnot =>
        have hlt : l[(first + (behind - 1)) / 2] < k := lt_of_le_of_ne (not_lt.mp hnot) hne
        have hafter := (getElem?_lt_iff hl hitem hi).mp hlt
        exact ih (by omega) hbehind hlength (by omega)

/-- **In a sorted list the place of a key is found.** -/
theorem binarySearch_eq_some_iff (hl : l.Pairwise (· < ·)) {i : ℕ} :
    binarySearch l k = some i ↔ l[i]? = some k := by
  constructor
  · exact getElem?_of_binarySearch
  · intro hi
    obtain ⟨hlt, -⟩ := List.getElem?_eq_some_iff.mp hi
    exact searchBetween_eq_some hl hi (Nat.zero_le i) hlt le_rfl (by omega)

end BinarySearch

section PartitionPoint

variable {α : Type*} (p : α → Bool)

/-- Halve what is left; it takes no more steps than there are places.  What is found in a
list where the test holds again behind a place where it fails depends on the places that
are looked at. -/
def halve : ℕ → List α → ℕ
  | 0, _ => 0
  | n + 1, l =>
    let half := l.length / 2
    match l.drop half with
    | [] => 0
    | a :: behind => if p a then half + 1 + halve n behind else halve n (l.take half)

/-- Look everywhere. -/
def partitionPoint (l : List α) : ℕ := halve p l.length l

@[simp] theorem partitionPoint_nil : partitionPoint p [] = 0 := rfl

variable {p} {l : List α}

theorem halve_eq (h : l.Pairwise fun a b => p b → p a) {n : ℕ} (hn : l.length ≤ n) :
    halve p n l = (l.takeWhile p).length := by
  induction n generalizing l with
  | zero =>
    obtain rfl := List.eq_nil_of_length_eq_zero (Nat.le_zero.mp hn)
    rfl
  | succ n ih =>
    have hsplit := List.take_append_drop (l.length / 2) l
    have hlength : (l.take (l.length / 2)).length = l.length / 2 :=
      List.length_take_of_le (Nat.div_le_self _ _)
    rw [halve]
    cases hdrop : l.drop (l.length / 2) with
    | nil =>
      -- only an empty list has nothing behind its middle
      have hzero : l.length = 0 := by
        have hle := List.drop_eq_nil_iff.mp hdrop
        omega
      obtain rfl := List.eq_nil_of_length_eq_zero hzero
      rfl
    | cons a behind =>
      rw [hdrop] at hsplit
      have hbehind : behind.length + 1 = l.length - l.length / 2 := by
        rw [← List.length_drop, hdrop, List.length_cons]
      rw [← hsplit] at h
      obtain ⟨hfront, hback, hcross⟩ := List.pairwise_append.mp h
      dsimp only
      split
      · next ha =>
        -- the test holds in front of the middle
        have hall : ∀ b ∈ l.take (l.length / 2), p b := fun b hb =>
          hcross b hb a List.mem_cons_self ha
        conv_rhs => rw [← hsplit]
        rw [List.takeWhile_append_of_pos hall, List.takeWhile_cons_of_pos ha, List.length_append,
          hlength, List.length_cons, ih (List.pairwise_cons.mp hback).2 (by omega)]
        omega
      · next ha =>
        have hstop : (l.take (l.length / 2) ++ a :: behind).takeWhile p =
            (l.take (l.length / 2)).takeWhile p := by
          rw [List.takeWhile_append, List.takeWhile_cons_of_neg ha, List.append_nil]
          split
          · next hall => exact ((List.takeWhile_prefix p).eq_of_length hall).symm
          · rfl
        conv_rhs => rw [← hsplit, hstop]
        exact ih hfront (by omega)

/-- **Where a test holds of an initial part only, its length is found.** -/
theorem partitionPoint_eq (h : l.Pairwise fun a b => p b → p a) :
    partitionPoint p l = (l.takeWhile p).length :=
  halve_eq h le_rfl

theorem take_partitionPoint (h : l.Pairwise fun a b => p b → p a) :
    l.take (partitionPoint p l) = l.takeWhile p := by
  rw [partitionPoint_eq h]
  exact (List.prefix_iff_eq_take.mp (List.takeWhile_prefix p)).symm

theorem drop_partitionPoint (h : l.Pairwise fun a b => p b → p a) :
    l.drop (partitionPoint p l) = l.dropWhile p := by
  have hsplit := List.take_append_drop (partitionPoint p l) l
  rw [take_partitionPoint h] at hsplit
  exact List.append_cancel_left (hsplit.trans List.takeWhile_append_dropWhile.symm)

end PartitionPoint

end EveIndustryPlanner
