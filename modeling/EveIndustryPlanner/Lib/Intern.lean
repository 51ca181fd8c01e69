import Mathlib

/-!
# Objects made on demand

Objects are kept in the order in which they were made and are known by their
positions.  A table that holds the position of the object of each key stays
right when the object of a new key is made, and when an object of no key is.

## Main definitions

* `Indexes` — a table that holds the positions of the objects of its keys.

## Main results

* `getElem?_snoc_eq_some_iff` — what is at a position of a longer list.
* `Indexes.snoc` — **the object of a new key is made.**
* `Indexes.append_of_forall_ne` — objects of no key are made.
-/

namespace EveIndustryPlanner

variable {κ R : Type*} {f : κ → R} {rs : List R} {table : κ → Option ℕ}

theorem getElem?_snoc_eq_some_iff {r a : R} {p : ℕ} :
    (rs ++ [r])[p]? = some a ↔ rs[p]? = some a ∨ (p = rs.length ∧ r = a) := by
  rcases lt_trichotomy p rs.length with hp | rfl | hp
  · rw [List.getElem?_append_left hp]
    exact (or_iff_left fun h => absurd h.1 hp.ne).symm
  · rw [List.getElem?_concat_length, List.getElem?_eq_none le_rfl]
    simp
  · rw [List.getElem?_eq_none (by simpa using hp), List.getElem?_eq_none hp.le]
    simp [hp.ne']

/-- What is at a position stays there. -/
theorem getElem?_append_of_eq_some {rs' : List R} {a : R} {p : ℕ} (h : rs[p]? = some a) :
    (rs ++ rs')[p]? = some a := by
  obtain ⟨hp, -⟩ := List.getElem?_eq_some_iff.mp h
  rw [List.getElem?_append_left hp, h]

/-- The table holds the positions of the objects of its keys. -/
def Indexes (f : κ → R) (rs : List R) (table : κ → Option ℕ) : Prop :=
  ∀ k p, table k = some p ↔ rs[p]? = some (f k)

namespace Indexes

theorem none_of_forall_not_mem (h : ∀ k, f k ∉ rs) : Indexes f rs fun _ => none := by
  intro k p
  constructor
  · intro hnone
    exact absurd hnone (by simp)
  · intro hp
    exact absurd (List.mem_of_getElem? hp) (h k)

/-- The object of a key that is not in the table was not made. -/
theorem not_mem (h : Indexes f rs table) {k : κ} (hk : table k = none) : f k ∉ rs := by
  intro hmem
  obtain ⟨p, hp⟩ := List.mem_iff_getElem?.mp hmem
  rw [(h k p).mpr hp] at hk
  exact absurd hk (by simp)

/-- **The object of a new key is made.** -/
theorem snoc [DecidableEq κ] (h : Indexes f rs table) (hf : Function.Injective f) {k : κ}
    (hk : table k = none) :
    Indexes f (rs ++ [f k]) (Function.update table k (some rs.length)) := by
  intro k' p
  rw [getElem?_snoc_eq_some_iff]
  by_cases heq : k' = k
  · subst heq
    have hnew : rs[p]? ≠ some (f k') := fun hp => h.not_mem hk (List.mem_of_getElem? hp)
    rw [Function.update_self, or_iff_right hnew, Option.some.injEq, eq_comm]
    simp
  · have hne : f k ≠ f k' := fun he => heq (hf he).symm
    rw [Function.update_of_ne heq, h k' p]
    exact (or_iff_left fun hp => hne hp.2).symm

/-- An object of no key is made. -/
theorem snoc_of_forall_ne (h : Indexes f rs table) {r : R} (hr : ∀ k, f k ≠ r) :
    Indexes f (rs ++ [r]) table := by
  intro k p
  rw [getElem?_snoc_eq_some_iff, h k p]
  exact (or_iff_left fun hp => hr k hp.2.symm).symm

/-- Objects of no key are made. -/
theorem append_of_forall_ne (h : Indexes f rs table) {rs' : List R}
    (hrs' : ∀ r ∈ rs', ∀ k, f k ≠ r) : Indexes f (rs ++ rs') table := by
  induction rs' using List.reverseRecOn with
  | nil => rwa [List.append_nil]
  | append_singleton rs' r ih =>
    rw [← List.append_assoc]
    exact (ih fun r' hr' => hrs' r' (List.mem_append_left _ hr')).snoc_of_forall_ne
      (hrs' r (by simp))

end Indexes

end EveIndustryPlanner
