import Mathlib

/-!
# Tables filled by writes

Values are written under keys one after the other; a later write under a key
replaces an earlier one.

## Main definitions

* `fill` — the table that some writes lead to.

## Main results

* `fill_eq_some_iff` — **the last write under a key is what the table holds.**
* `fill_eq_some_of_agree` — writes under a key that agree may come in any order.
-/

namespace EveIndustryPlanner

variable {κ β : Type*} [DecidableEq κ]

/-- The table that some writes lead to. -/
def fill (writes : List (κ × β)) : κ → Option β :=
  writes.foldl (fun table w => Function.update table w.1 (some w.2)) fun _ => none

theorem fill_nil (k : κ) : fill ([] : List (κ × β)) k = none := rfl

/-- One more write. -/
theorem fill_snoc (writes : List (κ × β)) (w : κ × β) :
    fill (writes ++ [w]) = Function.update (fill writes) w.1 (some w.2) := by
  rw [fill, List.foldl_append, List.foldl_cons, List.foldl_nil, ← fill]

/-- Writes under other keys are not seen. -/
theorem fill_append_of_forall_ne {before after : List (κ × β)} {k : κ}
    (h : ∀ w ∈ after, w.1 ≠ k) : fill (before ++ after) k = fill before k := by
  induction after using List.reverseRecOn with
  | nil => rw [List.append_nil]
  | append_singleton after w ih =>
    rw [← List.append_assoc, fill_snoc, Function.update_of_ne (Ne.symm (h w (by simp)))]
    exact ih fun w' hw' => h w' (List.mem_append_left _ hw')

/-- **The last write under a key is what the table holds.** -/
theorem fill_eq_some_iff {writes : List (κ × β)} {k : κ} {v : β} :
    fill writes k = some v ↔
      ∃ before after, writes = before ++ (k, v) :: after ∧ ∀ w ∈ after, w.1 ≠ k := by
  constructor
  · intro h
    induction writes using List.reverseRecOn with
    | nil => exact absurd h (by simp [fill_nil])
    | append_singleton writes w ih =>
      rw [fill_snoc, Function.update_apply] at h
      split at h
      · next hk =>
        obtain rfl := Option.some.inj h
        exact ⟨writes, [], by rw [hk], by simp⟩
      · next hk =>
        obtain ⟨before, after, rfl, hafter⟩ := ih h
        refine ⟨before, after ++ [w], by simp, ?_⟩
        intro w' hw'
        rcases List.mem_append.mp hw' with hw' | hw'
        · exact hafter w' hw'
        · obtain rfl := List.mem_singleton.mp hw'
          exact Ne.symm hk
  · rintro ⟨before, after, rfl, hafter⟩
    have hsplit : before ++ (k, v) :: after = (before ++ [(k, v)]) ++ after := by simp
    rw [hsplit, fill_append_of_forall_ne hafter, fill_snoc, Function.update_self]

/-- What the table holds was written. -/
theorem mem_of_fill_eq_some {writes : List (κ × β)} {k : κ} {v : β} (h : fill writes k = some v) :
    (k, v) ∈ writes := by
  obtain ⟨before, after, rfl, -⟩ := fill_eq_some_iff.mp h
  simp

/-- A table holds nothing under a key exactly if nothing was written there. -/
theorem fill_eq_none_iff {writes : List (κ × β)} {k : κ} :
    fill writes k = none ↔ ∀ w ∈ writes, w.1 ≠ k := by
  constructor
  · intro h
    induction writes using List.reverseRecOn with
    | nil => simp
    | append_singleton writes w ih =>
      rw [fill_snoc, Function.update_apply] at h
      split at h
      · exact absurd h (by simp)
      · next hk =>
        intro w' hw'
        rcases List.mem_append.mp hw' with hw' | hw'
        · exact ih h w' hw'
        · obtain rfl := List.mem_singleton.mp hw'
          exact Ne.symm hk
  · intro h
    have hfill : fill ([] ++ writes) k = fill [] k := fill_append_of_forall_ne h
    rw [← List.nil_append writes, hfill, fill_nil]

/-- Writes under a key that agree may come in any order. -/
theorem fill_eq_some_of_agree {writes : List (κ × β)} {k : κ} {v : β} (h : (k, v) ∈ writes)
    (hagree : ∀ v', (k, v') ∈ writes → v' = v) : fill writes k = some v := by
  cases hf : fill writes k with
  | none => exact absurd rfl (fill_eq_none_iff.mp hf _ h)
  | some v' => rw [hagree v' (mem_of_fill_eq_some hf)]

end EveIndustryPlanner
