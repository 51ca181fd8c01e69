import EveIndustryPlanner.Lib.Collect

/-!
# Tables with a primary key

A table is a list of rows no two of which have the same key.  There are three
ways to insert a row whose key is there already: fail, leave the old row, or put
the new one in its place.

## Main definitions

* `Table` — rows with different keys.
* `Table.find` — the row with a key.
* `Table.insert`, `Table.insertOrIgnore`, `Table.insertOrReplace` — the ways to insert.
* `FirstOf` — the entries of a list whose keys are not before them.

## Main results

* `Table.find_insertOrReplace`, `Table.find_insertOrIgnore` — **what is found
  after an insertion.**
* `Table.find_foldl_insertOrReplace` — what is found after some insertions.
* `Table.HoldsFirsts.insertOrIgnore` — **rows that are inserted unless their key is
  there stand for the first entries.**
-/

namespace EveIndustryPlanner

/-- Rows with different keys. -/
structure Table {R K : Type*} (key : R → K) where
  rows : List R
  nodup : (rows.map key).Nodup

namespace Table

variable {R K : Type*} {key : R → K}

/-- No rows. -/
def empty : Table key := ⟨[], List.nodup_nil⟩

/-- Change rows without their keys. -/
def update (t : Table key) (f : R → R) (hf : ∀ r, key (f r) = key r) : Table key where
  rows := t.rows.map f
  nodup := by
    rw [List.map_map, funext hf (f := key ∘ f)]
    exact t.nodup

variable [DecidableEq K]

/-- The row with a key. -/
def find (t : Table key) (k : K) : Option R := t.rows.find? fun r => key r = k

/-- Insert a row and take out the one with its key. -/
def insertOrReplace (t : Table key) (r : R) : Table key where
  rows := t.rows.filter (fun r' => key r' ≠ key r) ++ [r]
  nodup := by
    rw [List.map_append, List.nodup_append]
    refine ⟨t.nodup.sublist (List.filter_sublist.map key), by simp, ?_⟩
    intro k hk k' hk' heq
    obtain ⟨r', hr', rfl⟩ := List.mem_map.mp hk
    rw [List.map_singleton, List.mem_singleton] at hk'
    exact absurd (heq.trans hk') (by simpa using (List.mem_filter.mp hr').2)

/-- Insert a row unless there is one with its key. -/
def insertOrIgnore (t : Table key) (r : R) : Table key :=
  if h : key r ∈ t.rows.map key then t
  else
    { rows := t.rows ++ [r]
      nodup := by
        rw [List.map_append, List.map_singleton]
        exact List.nodup_append.mpr ⟨t.nodup, List.nodup_singleton _, fun k hk k' hk' heq =>
          h (List.mem_singleton.mp hk' ▸ heq ▸ hk)⟩ }

/-- Insert a row, or fail if there is one with its key. -/
def insert (t : Table key) (r : R) : Option (Table key) :=
  if key r ∈ t.rows.map key then none else some (t.insertOrIgnore r)

/-! ### What is found -/

variable {t : Table key} {r : R} {k : K}

theorem insert_eq_none_iff : t.insert r = none ↔ key r ∈ t.rows.map key := by
  unfold insert
  split
  · next h => simp [h]
  · next h => simp [h]

/-- A row that is inserted is put behind the others. -/
theorem rows_of_insert {t' : Table key} (h : t.insert r = some t') : t'.rows = t.rows ++ [r] := by
  unfold insert at h
  split at h
  · exact absurd h (by simp)
  · next hkey =>
    obtain rfl := Option.some.inj h
    rw [insertOrIgnore, dif_neg hkey]

theorem find_eq_none_iff : t.find k = none ↔ k ∉ t.rows.map key := by
  simp [find]

/-- A row is found by its key. -/
theorem find_of_mem (h : r ∈ t.rows) : t.find (key r) = some r := by
  obtain ⟨rows, hnodup⟩ := t
  have hmem : r ∈ rows := h
  show rows.find? (fun r' => key r' = key r) = some r
  clear h
  induction rows with
  | nil => exact absurd hmem List.not_mem_nil
  | cons r' rows ih =>
    obtain ⟨hr', hrows⟩ := List.nodup_cons.mp hnodup
    rcases List.mem_cons.mp hmem with rfl | hmem
    · exact List.find?_cons_of_pos (by simp)
    · have hne : key r' ≠ key r := fun e => hr' (e ▸ List.mem_map_of_mem hmem)
      rw [List.find?_cons_of_neg (by simpa using hne)]
      exact ih hrows hmem

/-- What is found after rows were changed. -/
theorem find_update {f : R → R} {hf : ∀ r, key (f r) = key r} :
    (t.update f hf).find k = (t.find k).map f := by
  simp [find, update, List.find?_map, hf]

/-- What is found after a row was inserted for good. -/
theorem find_insertOrReplace (t : Table key) (r : R) (k : K) :
    (t.insertOrReplace r).find k = if key r = k then some r else t.find k := by
  by_cases hk : key r = k
  · have hnone : (t.rows.filter fun r' => key r' ≠ key r).find? (fun r' => key r' = k) = none := by
      simp [← hk]
    rw [if_pos hk, find, insertOrReplace, List.find?_append, hnone]
    simp [hk]
  · rw [if_neg hk, find, insertOrReplace, List.find?_append, List.find?_filter]
    have hsame : (fun r' => decide (decide (key r' ≠ key r) = true ∧ decide (key r' = k) = true)) =
        fun r' => decide (key r' = k) := by
      funext r'
      by_cases hr' : key r' = k
      · simp [hr', Ne.symm hk]
      · simp [hr']
    rw [hsame]
    simp [find, hk]

/-- What is found after a row was inserted if its key was new. -/
theorem find_insertOrIgnore (t : Table key) (r : R) (k : K) :
    (t.insertOrIgnore r).find k = if key r = k then some ((t.find k).getD r) else t.find k := by
  unfold insertOrIgnore
  split
  · next hmem =>
    split
    · next hk =>
      cases hf : t.find k with
      | none => exact absurd (hk ▸ hmem) (find_eq_none_iff.mp hf)
      | some r' => rfl
    · rfl
  · next hmem =>
    rw [find, List.find?_append]
    split
    · next hk =>
      have hnone : t.find k = none := find_eq_none_iff.mpr (hk ▸ hmem)
      rw [hnone]
      rw [find] at hnone
      simp [hnone, hk]
    · next hk => simp [find, hk]

/-- **What is found after some rows were inserted for good**: the last of a key. -/
theorem find_foldl_insertOrReplace (l : List R) (t : Table key) (k : K) :
    (l.foldl insertOrReplace t).find k = (l.reverse.find? fun r => key r = k).or (t.find k) := by
  induction l generalizing t with
  | nil => rfl
  | cons r l ih =>
    rw [List.foldl_cons, ih, find_insertOrReplace, List.reverse_cons, List.find?_append,
      Option.or_assoc]
    congr 1
    by_cases hk : key r = k
    · simp [hk]
    · simp [hk]

/-- What is found after some rows were inserted if their keys were new: the first of
a key. -/
theorem find_foldl_insertOrIgnore (l : List R) (t : Table key) (k : K) :
    (l.foldl insertOrIgnore t).find k = (t.find k).or (l.find? fun r => key r = k) := by
  induction l generalizing t with
  | nil => simp
  | cons r l ih =>
    rw [List.foldl_cons, ih, find_insertOrIgnore]
    by_cases hk : key r = k
    · rw [if_pos hk, List.find?_cons_of_pos (by simpa using hk)]
      cases t.find k with
      | none => rfl
      | some r' => rfl
    · rw [if_neg hk, List.find?_cons_of_neg (by simpa using hk)]

/-- No key is lost where a row is inserted. -/
theorem isSome_find_insertOrIgnore (h : (t.find k).isSome) (r : R) :
    ((t.insertOrIgnore r).find k).isSome := by
  rw [find_insertOrIgnore]
  split
  · rfl
  · exact h

theorem isSome_find_insertOrReplace (h : (t.find k).isSome) (r : R) :
    ((t.insertOrReplace r).find k).isSome := by
  rw [find_insertOrReplace]
  split
  · rfl
  · exact h

theorem mem_of_mem_insertOrIgnore {r' : R} (h : r' ∈ (t.insertOrIgnore r).rows) :
    r' ∈ t.rows ∨ r' = r := by
  unfold insertOrIgnore at h
  split at h
  · exact Or.inl h
  · simpa using h

theorem mem_of_mem_insertOrReplace {r' : R} (h : r' ∈ (t.insertOrReplace r).rows) :
    r' ∈ t.rows ∨ r' = r := by
  rcases List.mem_append.mp h with h | h
  · exact Or.inl (List.mem_filter.mp h).1
  · exact Or.inr (List.mem_singleton.mp h)

/-- Rows with other keys stay. -/
theorem mem_insertOrReplace {r' : R} (hr' : r' ∈ t.rows) (hkey : key r' ≠ key r) :
    r' ∈ (t.insertOrReplace r).rows :=
  List.mem_append_left _ (List.mem_filter.mpr ⟨hr', decide_eq_true hkey⟩)

/-- Rows that neither the new one nor the one it replaces is among. -/
theorem filter_insertOrReplace {p : R → Bool} (hp : ∀ r', key r' = key r → p r' = false) :
    (t.insertOrReplace r).rows.filter p = t.rows.filter p := by
  have hsame : ∀ r' ∈ t.rows, (p r' && decide (key r' ≠ key r)) = p r' := by
    intro r' _
    by_cases hr' : key r' = key r
    · simp [hp r' hr']
    · simp [hr']
  rw [insertOrReplace, List.filter_append, List.filter_filter, List.filter_congr hsame,
    List.filter_singleton, hp r rfl]
  simp

end Table

/-! ### The first entries -/

section Firsts

variable {A R C K : Type*}

/-- An entry of a list whose key is not before it. -/
def FirstOf (key : A → C) (l : List A) (a : A) : Prop :=
  ∃ before after, l = before ++ a :: after ∧ key a ∉ before.map key

theorem not_firstOf_nil {key : A → C} {a : A} : ¬ FirstOf key [] a := by
  rintro ⟨before, after, h, -⟩
  exact absurd h (by simp)

theorem FirstOf.mem {key : A → C} {l : List A} {a : A} (h : FirstOf key l a) : a ∈ l := by
  obtain ⟨before, after, rfl, -⟩ := h
  simp

/-- The first entries of a longer list. -/
theorem firstOf_snoc {key : A → C} {l : List A} {a b : A} :
    FirstOf key (l ++ [b]) a ↔ FirstOf key l a ∨ (a = b ∧ key b ∉ l.map key) := by
  constructor
  · rintro ⟨before, after, heq, hnew⟩
    cases after using List.reverseRecOn with
    | nil =>
      obtain ⟨rfl, hab⟩ := List.append_inj' heq rfl
      obtain rfl := List.singleton_inj.mp hab
      exact Or.inr ⟨rfl, hnew⟩
    | append_singleton after c =>
      rw [← List.cons_append, ← List.append_assoc] at heq
      exact Or.inl ⟨before, after, (List.append_inj' heq rfl).1, hnew⟩
  · rintro (⟨before, after, rfl, hnew⟩ | ⟨rfl, hnew⟩)
    · exact ⟨before, after ++ [b], by simp, hnew⟩
    · exact ⟨l, [], rfl, hnew⟩

/-- Of the entries of a key one is the first. -/
theorem exists_firstOf {key : A → C} {l : List A} {c : C} (h : c ∈ l.map key) :
    ∃ a, FirstOf key l a ∧ key a = c := by
  induction l using List.reverseRecOn with
  | nil => exact absurd h (by simp)
  | append_singleton l b ih =>
    by_cases hold : c ∈ l.map key
    · obtain ⟨a, hfirst, hkey⟩ := ih hold
      exact ⟨a, firstOf_snoc.mpr (Or.inl hfirst), hkey⟩
    · rw [List.map_append, List.map_singleton, List.mem_append, List.mem_singleton] at h
      obtain rfl := h.resolve_left hold
      exact ⟨b, firstOf_snoc.mpr (Or.inr ⟨rfl, hold⟩), rfl⟩

/-- A table whose rows stand for the first entries of a list. -/
def Table.HoldsFirsts {keyR : R → K} (Stands : A → R → Prop) (keyA : A → C) (l : List A)
    (t : Table keyR) : Prop :=
  ∃ firsts, List.Forall₂ Stands firsts t.rows ∧ ∀ a, a ∈ firsts ↔ FirstOf keyA l a

namespace Table.HoldsFirsts

variable {keyR : R → K} {Stands : A → R → Prop} {keyA : A → C} {l : List A} {t : Table keyR}

theorem empty : HoldsFirsts Stands keyA [] (.empty : Table keyR) :=
  ⟨[], .nil, fun _ => by simp [not_firstOf_nil]⟩

/-- The keys of the rows are those of the entries. -/
theorem key_mem_iff (h : t.HoldsFirsts Stands keyA l) {a : A} {r : R}
    (hkey : ∀ a' r', Stands a' r' → (keyR r' = keyR r ↔ keyA a' = keyA a)) :
    keyR r ∈ t.rows.map keyR ↔ keyA a ∈ l.map keyA := by
  obtain ⟨firsts, hrows, hfirsts⟩ := h
  constructor
  · intro hr
    obtain ⟨r', hr', heq⟩ := List.mem_map.mp hr
    obtain ⟨a', ha', hstands⟩ := exists_of_forall₂ hrows.flip hr'
    rw [← (hkey a' r' hstands).mp heq]
    exact List.mem_map_of_mem ((hfirsts a').mp ha').mem
  · intro ha
    obtain ⟨a', hfirst, heq⟩ := exists_firstOf ha
    obtain ⟨r', hr', hstands⟩ := exists_of_forall₂ hrows ((hfirsts a').mpr hfirst)
    rw [← (hkey a' r' hstands).mpr heq]
    exact List.mem_map_of_mem hr'

/-- **Rows that are inserted unless their key is there stand for the first
entries.** -/
theorem insertOrIgnore [DecidableEq K] (h : t.HoldsFirsts Stands keyA l) {a : A} {r : R}
    (hkey : ∀ a' r', Stands a' r' → (keyR r' = keyR r ↔ keyA a' = keyA a)) (hr : Stands a r) :
    (t.insertOrIgnore r).HoldsFirsts Stands keyA (l ++ [a]) := by
  have hmem := h.key_mem_iff hkey
  obtain ⟨firsts, hrows, hfirsts⟩ := h
  unfold Table.insertOrIgnore
  split
  · next hold =>
    refine ⟨firsts, hrows, fun a' => ?_⟩
    rw [hfirsts, firstOf_snoc]
    exact (or_iff_left fun hnew => hnew.2 (hmem.mp hold)).symm
  · next hnew =>
    refine ⟨firsts ++ [a], List.rel_append hrows (.cons hr .nil), fun a' => ?_⟩
    rw [List.mem_append, List.mem_singleton, hfirsts, firstOf_snoc,
      and_iff_left (fun hold => hnew (hmem.mpr hold))]

end Table.HoldsFirsts

end Firsts

end EveIndustryPlanner
