import Mathlib

/-!
# Tables that number their rows

A table whose key is an integer that the database chooses: a new row gets the
number behind the largest one that is there.  Where no row is ever deleted, the
numbers are those of the rows in the order they came, from one on.

## Main definitions

* `IdTable`, `IdTable.insert` — rows and their numbers.
* `IdTable.find`, `IdTable.idOf` — the row with a number, and the number of a row.
* `IdTable.Distinct` — no row is there twice.

## Main results

* `IdTable.find_isSome_iff` — **the numbers are those from one to the number of rows.**
* `IdTable.find_insert_of_find`, `IdTable.find_insert_self` — what is found after a row
  was inserted.
* `IdTable.Distinct.insert` — a row that is only inserted if it was not there is there
  once.
-/

namespace EveIndustryPlanner

/-- Rows that are numbered in the order they came. -/
structure IdTable (R : Type*) where
  rows : List (ℕ × R)
  ids : rows.map Prod.fst = List.range' 1 rows.length

namespace IdTable

variable {R : Type*}

/-- No rows. -/
def empty : IdTable R := ⟨[], rfl⟩

/-- One more than the largest number. -/
def nextId (t : IdTable R) : ℕ := (t.rows.map Prod.fst).foldr max 0 + 1

theorem foldr_max_range' (n : ℕ) : (List.range' 1 n).foldr max 0 = n := by
  induction n with
  | zero => rfl
  | succ n ih =>
    rw [List.range'_concat, List.foldr_append, List.foldr_cons, List.foldr_nil]
    have hmax : ∀ (l : List ℕ) (k : ℕ), l.foldr max k = max (l.foldr max 0) k := by
      intro l k
      induction l with
      | nil => simp
      | cons a l ih => rw [List.foldr_cons, List.foldr_cons, ih, max_assoc]
    rw [hmax, ih]
    omega

theorem nextId_eq (t : IdTable R) : t.nextId = t.rows.length + 1 := by
  rw [nextId, t.ids, foldr_max_range']

/-- Insert a row. -/
def insert (t : IdTable R) (r : R) : IdTable R where
  rows := t.rows ++ [(t.nextId, r)]
  ids := by
    rw [List.map_append, t.ids, List.length_append, List.length_singleton, List.range'_concat,
      List.map_singleton, nextId_eq, one_mul, add_comm 1]

@[simp] theorem rows_insert (t : IdTable R) (r : R) :
    (t.insert r).rows = t.rows ++ [(t.nextId, r)] := rfl

/-- The row with a number. -/
def find (t : IdTable R) (id : ℕ) : Option R := (t.rows.find? fun row => row.1 = id).map Prod.snd

/-- The number of a row. -/
def idOf [DecidableEq R] (t : IdTable R) (r : R) : Option ℕ :=
  (t.rows.find? fun row => row.2 = r).map Prod.fst

/-- No row is there twice. -/
def Distinct (t : IdTable R) : Prop := (t.rows.map Prod.snd).Nodup

/-! ### What is found -/

variable {t : IdTable R} {r : R} {id : ℕ}

theorem nodup_ids (t : IdTable R) : (t.rows.map Prod.fst).Nodup := by
  rw [t.ids]
  exact List.nodup_range'

theorem mem_ids_iff : id ∈ t.rows.map Prod.fst ↔ 1 ≤ id ∧ id ≤ t.rows.length := by
  rw [t.ids, List.mem_range'_1]
  omega

/-- What is found under a number is the row with this number. -/
theorem find_eq_some_iff : t.find id = some r ↔ (id, r) ∈ t.rows := by
  rw [find, Option.map_eq_some_iff]
  constructor
  · rintro ⟨row, hrow, rfl⟩
    have hid : row.1 = id := by simpa using List.find?_some hrow
    rw [← hid]
    exact List.mem_of_find?_eq_some hrow
  · intro h
    refine ⟨(id, r), ?_, rfl⟩
    cases hfind : t.rows.find? fun row => row.1 = id with
    | none =>
      have hne := List.find?_eq_none.mp hfind (id, r) h
      exact absurd (decide_eq_true rfl) hne
    | some row =>
      have hid : row.1 = id := by simpa using List.find?_some hfind
      have hrow := List.mem_of_find?_eq_some hfind
      exact congrArg some (List.inj_on_of_nodup_map t.nodup_ids hrow h hid)

/-- There is a row for every number up to the last one. -/
theorem find_isSome_iff : (t.find id).isSome ↔ 1 ≤ id ∧ id ≤ t.rows.length := by
  rw [← mem_ids_iff, Option.isSome_iff_exists, List.mem_map]
  constructor
  · rintro ⟨r, hr⟩
    exact ⟨(id, r), find_eq_some_iff.mp hr, rfl⟩
  · rintro ⟨row, hrow, rfl⟩
    exact ⟨row.2, find_eq_some_iff.mpr hrow⟩

theorem isSome_find_of_mem {row : ℕ × R} (h : row ∈ t.rows) : (t.find row.1).isSome :=
  Option.isSome_iff_exists.mpr ⟨row.2, find_eq_some_iff.mpr h⟩

/-- The next number is not taken. -/
theorem not_isSome_find_nextId (t : IdTable R) : ¬ (t.find t.nextId).isSome := by
  rw [find_isSome_iff, nextId_eq]
  omega

/-- Rows keep their numbers. -/
theorem find_insert_of_find (h : t.find id = some r) (r' : R) : (t.insert r').find id = some r :=
  find_eq_some_iff.mpr (List.mem_append_left _ (find_eq_some_iff.mp h))

theorem find_insert_self (t : IdTable R) (r : R) : (t.insert r).find t.nextId = some r :=
  find_eq_some_iff.mpr (by simp)

/-- No row gets another number. -/
theorem Distinct.id_unique (h : t.Distinct) {id' : ℕ} (hid : t.find id = some r)
    (hid' : t.find id' = some r) : id = id' :=
  congrArg Prod.fst (List.inj_on_of_nodup_map h (find_eq_some_iff.mp hid)
    (find_eq_some_iff.mp hid') rfl)

/-! ### Rows that are there once -/

section Distinct

variable [DecidableEq R]

theorem find_of_idOf (h : t.idOf r = some id) : t.find id = some r := by
  obtain ⟨row, hrow, rfl⟩ := Option.map_eq_some_iff.mp h
  have hr : row.2 = r := by simpa using List.find?_some hrow
  rw [← hr]
  exact find_eq_some_iff.mpr (List.mem_of_find?_eq_some hrow)

theorem not_mem_of_idOf_eq_none (h : t.idOf r = none) : r ∉ t.rows.map Prod.snd := by
  have hfind : ∀ row ∈ t.rows, row.2 ≠ r := by
    simpa using List.find?_eq_none.mp (Option.map_eq_none_iff.mp h)
  intro hr
  obtain ⟨row, hrow, rfl⟩ := List.mem_map.mp hr
  exact hfind row hrow rfl

theorem Distinct.insert (h : t.Distinct) (hr : t.idOf r = none) : (t.insert r).Distinct := by
  rw [Distinct, rows_insert, List.map_append, List.map_singleton]
  refine List.nodup_append.mpr ⟨h, List.nodup_singleton _, ?_⟩
  rintro a ha b hb rfl
  obtain rfl := List.mem_singleton.mp hb
  exact not_mem_of_idOf_eq_none hr ha

end Distinct

end IdTable

end EveIndustryPlanner
