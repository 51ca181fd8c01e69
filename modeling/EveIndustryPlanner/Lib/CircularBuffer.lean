import Mathlib

/-!
# Circular buffers

A circular buffer holds a bounded number of elements.  Elements are inserted at
its end; where there is no room for them, the oldest ones make room.

## Main definitions

* `CircularBuffer` — at most so many elements.
* `CircularBuffer.append`, `CircularBuffer.pushBack` — insertion at the end.

## Main results

* `CircularBuffer.elems_append`, `CircularBuffer.elems_pushBack` — nothing is
  overwritten as long as there is room.
-/

namespace EveIndustryPlanner

/-- At most `capacity` elements, the oldest first. -/
structure CircularBuffer (α : Type*) (capacity : ℕ) where
  elems : List α
  length_le : elems.length ≤ capacity

namespace CircularBuffer

variable {α : Type*} {capacity : ℕ}

/-- No elements; also what `clear` leaves. -/
def empty : CircularBuffer α capacity := ⟨[], Nat.zero_le _⟩

@[simp] theorem elems_empty : (empty : CircularBuffer α capacity).elems = [] := rfl

/-- `insert` at the end. -/
def append (b : CircularBuffer α capacity) (l : List α) : CircularBuffer α capacity where
  elems := (b.elems ++ l).drop ((b.elems ++ l).length - capacity)
  length_le := by
    rw [List.length_drop]
    omega

/-- `push_back`. -/
def pushBack (b : CircularBuffer α capacity) (a : α) : CircularBuffer α capacity := b.append [a]

/-- With enough room nothing is overwritten. -/
theorem elems_append {b : CircularBuffer α capacity} {l : List α}
    (h : b.elems.length + l.length ≤ capacity) : (b.append l).elems = b.elems ++ l := by
  have hroom : (b.elems ++ l).length - capacity = 0 := by
    rw [List.length_append]
    omega
  calc (b.elems ++ l).drop ((b.elems ++ l).length - capacity) = (b.elems ++ l).drop 0 := by rw [hroom]
    _ = b.elems ++ l := List.drop_zero

theorem elems_pushBack {b : CircularBuffer α capacity} {a : α} (h : b.elems.length < capacity) :
    (b.pushBack a).elems = b.elems ++ [a] := elems_append h

end CircularBuffer

end EveIndustryPlanner
