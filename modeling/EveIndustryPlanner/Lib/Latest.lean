import Mathlib

/-!
# The newest of each key

Elements with a key and a time arrive in any order.  The newest of a key is the one
whose time is not before that of any other, the first of them if there are several.

## Main definitions

* `EachStep` — what holds of each element of a list and the ones before it.
* `Reached` — some element of a key is at a time or after it.
* `Newest` — the newest element of its key.

## Main results

* `eachStep_snoc` — one more element.
* `newest_snoc`, `newest_snoc_of_reached` — **an element is the newest of its key if no
  other one has reached its time, and changes nothing if one has.**
* `exists_newest` — every key that was seen has a newest element.
-/

namespace EveIndustryPlanner

section EachStep

variable {α : Type*} {P : List α → α → Prop}

/-- `P` holds of each element and the elements before it. -/
def EachStep (P : List α → α → Prop) (l : List α) : Prop :=
  ∀ before a after, l = before ++ a :: after → P before a

theorem eachStep_nil : EachStep P [] := by
  intro before a after h
  exact absurd h.symm (by simp)

theorem eachStep_snoc {l : List α} {a : α} : EachStep P (l ++ [a]) ↔ EachStep P l ∧ P l a := by
  constructor
  · intro h
    refine ⟨fun before b after hl => h before b (after ++ [a]) ?_, h l a [] rfl⟩
    rw [hl]
    simp
  · rintro ⟨h, ha⟩ before b after hl
    -- the element is the last one, or it lies in `l`
    cases after using List.reverseRecOn with
    | nil =>
      obtain ⟨rfl, hab⟩ := List.append_inj' hl rfl
      obtain rfl := (List.cons.inj hab).1
      exact ha
    | append_singleton after c =>
      have hl' : l ++ [a] = (before ++ b :: after) ++ [c] := by
        rw [hl]
        simp
      obtain ⟨rfl, -⟩ := List.append_inj' hl' rfl
      exact h before b after rfl

/-- What holds of each element holds of each one of a beginning. -/
theorem eachStep_of_append {l l' : List α} (h : EachStep P (l ++ l')) : EachStep P l := by
  rintro before a after rfl
  exact h before a (after ++ l') (by simp)

end EachStep

section Newest

variable {α κ τ : Type*} [LinearOrder τ] (key : α → κ) (time : α → τ)

/-- Some element of the key is at the time or after it. -/
def Reached (l : List α) (k : κ) (t : τ) : Prop := ∃ a ∈ l, key a = k ∧ t ≤ time a

/-- No element of its key is newer, and none before it is as new. -/
def Newest (l : List α) (a : α) : Prop :=
  ∃ before after, l = before ++ a :: after ∧ ¬ Reached key time before (key a) (time a) ∧
    ∀ b ∈ after, key b = key a → time b ≤ time a

variable {key time} {l : List α} {a b : α} {k : κ} {t : τ}

theorem not_reached_nil : ¬ Reached key time [] k t := by
  rintro ⟨a, ha, -⟩
  exact absurd ha List.not_mem_nil

theorem reached_snoc :
    Reached key time (l ++ [a]) k t ↔ Reached key time l k t ∨ key a = k ∧ t ≤ time a := by
  constructor
  · rintro ⟨b, hb, hk, ht⟩
    rcases List.mem_append.mp hb with hb | hb
    · exact Or.inl ⟨b, hb, hk, ht⟩
    · obtain rfl := List.mem_singleton.mp hb
      exact Or.inr ⟨hk, ht⟩
  · rintro (⟨b, hb, hk, ht⟩ | ⟨hk, ht⟩)
    · exact ⟨b, List.mem_append_left _ hb, hk, ht⟩
    · exact ⟨a, List.mem_append_right _ (List.mem_singleton_self a), hk, ht⟩

/-- What an element reaches is reached without it if its own time is. -/
theorem reached_snoc_of_reached (h : Reached key time l (key a) (time a)) :
    Reached key time (l ++ [a]) k t ↔ Reached key time l k t := by
  rw [reached_snoc]
  refine ⟨?_, Or.inl⟩
  rintro (hl | ⟨rfl, ht⟩)
  · exact hl
  · obtain ⟨b, hb, hk, hle⟩ := h
    exact ⟨b, hb, hk, ht.trans hle⟩

namespace Newest

theorem mem (h : Newest key time l a) : a ∈ l := by
  obtain ⟨before, after, rfl, -⟩ := h
  simp

/-- Nothing of its key is newer. -/
theorem le (h : Newest key time l a) (hb : b ∈ l) (hk : key b = key a) : time b ≤ time a := by
  obtain ⟨before, after, rfl, hbefore, hafter⟩ := h
  rcases List.mem_append.mp hb with hb | hb
  · exact (not_le.mp fun hle => hbefore ⟨b, hb, hk, hle⟩).le
  · rcases List.mem_cons.mp hb with rfl | hb
    · exact le_rfl
    · exact hafter b hb hk

/-- The times of a key are reached up to that of its newest element. -/
theorem reached_iff (h : Newest key time l a) : Reached key time l (key a) t ↔ t ≤ time a := by
  constructor
  · rintro ⟨b, hb, hk, ht⟩
    exact ht.trans (h.le hb hk)
  · exact fun ht => ⟨a, h.mem, rfl, ht⟩

end Newest

theorem not_newest_nil : ¬ Newest key time [] a := fun h => absurd h.mem List.not_mem_nil

/-- An element whose time was reached changes nothing. -/
theorem newest_snoc_of_reached (h : Reached key time l (key a) (time a)) :
    Newest key time (l ++ [a]) b ↔ Newest key time l b := by
  constructor
  · rintro ⟨before, after, hl, hbefore, hafter⟩
    cases after using List.reverseRecOn with
    | nil =>
      obtain ⟨rfl, hab⟩ := List.append_inj' hl rfl
      obtain rfl := (List.cons.inj hab).1
      exact absurd h hbefore
    | append_singleton after c =>
      have hl' : l ++ [a] = (before ++ b :: after) ++ [c] := by
        rw [hl]
        simp
      obtain ⟨rfl, -⟩ := List.append_inj' hl' rfl
      exact ⟨before, after, rfl, hbefore, fun d hd => hafter d (List.mem_append_left _ hd)⟩
  · intro hb
    have hle : key a = key b → time a ≤ time b := by
      intro hk
      exact hb.reached_iff.mp (hk ▸ h)
    obtain ⟨before, after, rfl, hbefore, hafter⟩ := hb
    refine ⟨before, after ++ [a], by simp, hbefore, fun d hd => ?_⟩
    rcases List.mem_append.mp hd with hd | hd
    · exact hafter d hd
    · obtain rfl := List.mem_singleton.mp hd
      exact hle

/-- An element whose time was not reached is the newest of its key. -/
theorem newest_snoc (h : ¬ Reached key time l (key a) (time a)) :
    Newest key time (l ++ [a]) b ↔ b = a ∨ Newest key time l b ∧ key b ≠ key a := by
  constructor
  · rintro ⟨before, after, hl, hbefore, hafter⟩
    cases after using List.reverseRecOn with
    | nil =>
      obtain ⟨-, hab⟩ := List.append_inj' hl rfl
      exact Or.inl (List.cons.inj hab).1.symm
    | append_singleton after c =>
      have hl' : l ++ [a] = (before ++ b :: after) ++ [c] := by
        rw [hl]
        simp
      obtain ⟨rfl, hac⟩ := List.append_inj' hl' rfl
      obtain rfl := (List.cons.inj hac).1
      refine Or.inr ⟨⟨before, after, rfl, hbefore,
        fun d hd => hafter d (List.mem_append_left _ hd)⟩, fun hk => h ?_⟩
      -- of the same key it would have been newer
      exact ⟨b, by simp, hk, hafter a (by simp) hk.symm⟩
  · rintro (rfl | ⟨⟨before, after, rfl, hbefore, hafter⟩, hk⟩)
    · exact ⟨l, [], rfl, h, fun c hc => absurd hc List.not_mem_nil⟩
    · refine ⟨before, after ++ [a], by simp, hbefore, fun d hd => ?_⟩
      rcases List.mem_append.mp hd with hd | hd
      · exact hafter d hd
      · obtain rfl := List.mem_singleton.mp hd
        exact fun hkey => absurd hkey.symm hk

/-- Every key that was seen has a newest element. -/
theorem exists_newest (key : α → κ) (time : α → τ) (hb : b ∈ l) :
    ∃ a, Newest key time l a ∧ key a = key b := by
  induction l using List.reverseRecOn generalizing b with
  | nil => exact absurd hb List.not_mem_nil
  | append_singleton l c ih =>
    by_cases hc : Reached key time l (key c) (time c)
    · -- the newest one of the key of `c` was there before
      have hkey : ∃ a, Newest key time l a ∧ key a = key b := by
        rcases List.mem_append.mp hb with hb | hb
        · exact ih hb
        · obtain rfl := List.mem_singleton.mp hb
          obtain ⟨d, hd, hk, -⟩ := hc
          obtain ⟨a, ha, hak⟩ := ih hd
          exact ⟨a, ha, hak.trans hk⟩
      obtain ⟨a, ha, hk⟩ := hkey
      exact ⟨a, (newest_snoc_of_reached hc).mpr ha, hk⟩
    · by_cases hk : key b = key c
      · exact ⟨c, (newest_snoc hc).mpr (Or.inl rfl), hk.symm⟩
      · have hbl : b ∈ l := by
          rcases List.mem_append.mp hb with hb | hb
          · exact hb
          · exact absurd (congrArg key (List.mem_singleton.mp hb)) hk
        obtain ⟨a, ha, hak⟩ := ih hbl
        exact ⟨a, (newest_snoc hc).mpr (Or.inr ⟨ha, hak ▸ hk⟩), hak⟩

end Newest

end EveIndustryPlanner
