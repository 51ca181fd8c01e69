import EveIndustryPlanner.Fault

/-!
# Records that are read entry by entry

A loop goes through a list of entries and puts what it reads of each of them into
one of the fields of a record.  Later entries for a field overwrite earlier ones,
and an entry that cannot be read ends the loop.

## Main definitions

* `Fields` — the fields of a record.
* `lastIn` — the last entry for a field.
* `Fields.readEntry` — one round of the loop.

## Main results

* `Fields.foldlM_readEntry_iff` — **what the loop leaves behind.**
-/

namespace EveIndustryPlanner

/-- The fields of a record, which can be read and set one by one. -/
structure Fields (R : Type*) {F : Type*} (T : F → Type*) where
  get : (f : F) → R → T f
  set : (f : F) → T f → R → R
  get_set_self : ∀ f x r, get f (set f x r) = x
  get_set_of_ne : ∀ f f' x r, f' ≠ f → get f' (set f x r) = get f' r
  ext : ∀ r r', (∀ f, get f r = get f r') → r = r'

section LastIn

variable {α F : Type*} [DecidableEq F] (branch : α → F)

/-- The last entry for a field. -/
def lastIn (f : F) (l : List α) : Option α := (l.filter fun a => branch a = f).getLast?

theorem lastIn_snoc (f : F) (l : List α) (a : α) :
    lastIn branch f (l ++ [a]) = if branch a = f then some a else lastIn branch f l := by
  rw [lastIn, List.filter_append]
  by_cases h : branch a = f
  · simp [h]
  · simp [h, lastIn]

theorem lastIn_eq_none_iff {f : F} {l : List α} :
    lastIn branch f l = none ↔ ∀ a ∈ l, branch a ≠ f := by
  simp [lastIn]

end LastIn

namespace Fields

variable {ε R α F : Type} {T : F → Type} [DecidableEq F] (fields : Fields R T)
  (branch : α → F) (read : (f : F) → α → Except ε (T f))

/-- Put what is read of an entry into its field. -/
def readEntry (r : R) (a : α) : Except ε R := do
  return fields.set (branch a) (← read (branch a) a) r

/-- Every field holds what was read of its last entry; without one it is left alone. -/
structure Overwrites (r : R) (l : List α) (r' : R) : Prop where
  last : ∀ f a, lastIn branch f l = some a → read f a = .ok (fields.get f r')
  kept : ∀ f, lastIn branch f l = none → fields.get f r' = fields.get f r

variable {fields branch read}

/-- There is one record like that. -/
theorem Overwrites.unique {r r' r'' : R} {l : List α} (h : fields.Overwrites branch read r l r')
    (h' : fields.Overwrites branch read r l r'') : r' = r'' := by
  refine fields.ext r' r'' fun f => ?_
  cases hlast : lastIn branch f l with
  | none => rw [h.kept f hlast, h'.kept f hlast]
  | some a => exact Except.ok.inj ((h.last f a hlast).symm.trans (h'.last f a hlast))

/-- One more entry. -/
theorem Overwrites.snoc {r r' : R} {l : List α} {a : α} {x : T (branch a)}
    (h : fields.Overwrites branch read r l r') (hx : read (branch a) a = .ok x) :
    fields.Overwrites branch read r (l ++ [a]) (fields.set (branch a) x r') := by
  constructor
  case last =>
    intro f a' ha'
    rw [lastIn_snoc] at ha'
    by_cases hf : branch a = f
    · subst hf
      rw [if_pos rfl] at ha'
      obtain rfl := Option.some.inj ha'
      rw [fields.get_set_self, hx]
    · rw [if_neg hf] at ha'
      rw [fields.get_set_of_ne _ _ _ _ (Ne.symm hf)]
      exact h.last f a' ha'
  case kept =>
    intro f hf
    rw [lastIn_snoc] at hf
    by_cases hne : branch a = f
    · rw [if_pos hne] at hf
      exact absurd hf (by simp)
    · rw [if_neg hne] at hf
      rw [fields.get_set_of_ne _ _ _ _ (Ne.symm hne)]
      exact h.kept f hf

/-- What can be read entry by entry is read. -/
theorem exists_foldlM_readEntry (fields : Fields R T) (r : R) {l : List α}
    (h : ∀ a ∈ l, ∃ x, read (branch a) a = .ok x) :
    ∃ r', l.foldlM (fields.readEntry branch read) r = .ok r' ∧
      fields.Overwrites branch read r l r' := by
  induction l using List.reverseRecOn with
  | nil => exact ⟨r, rfl, ⟨fun f a ha => absurd ha (by simp [lastIn]), fun f _ => rfl⟩⟩
  | append_singleton l a ih =>
    obtain ⟨r₁, hr₁, h₁⟩ := ih fun a' ha' => h a' (List.mem_append_left _ ha')
    obtain ⟨x, hx⟩ := h a (by simp)
    refine ⟨_, ?_, h₁.snoc hx⟩
    rw [List.foldlM_append, hr₁, ok_bind, List.foldlM_cons, readEntry, hx]
    rfl

/-- **What the loop leaves behind.** -/
theorem foldlM_readEntry_iff {r r' : R} {l : List α} :
    l.foldlM (fields.readEntry branch read) r = .ok r' ↔
      (∀ a ∈ l, ∃ x, read (branch a) a = .ok x) ∧ fields.Overwrites branch read r l r' := by
  constructor
  · intro h
    have hall : ∀ a ∈ l, ∃ x, read (branch a) a = .ok x := by
      intro a ha
      obtain ⟨before, after, rfl⟩ := List.append_of_mem ha
      obtain ⟨r₁, -, h⟩ := foldlM_append_eq_ok h
      rw [List.foldlM_cons] at h
      obtain ⟨r₂, hr₂, -⟩ := bind_eq_ok h
      obtain ⟨x, hx, -⟩ := bind_eq_ok hr₂
      exact ⟨x, hx⟩
    obtain ⟨r₁, hr₁, h₁⟩ := exists_foldlM_readEntry fields r hall
    obtain rfl := Except.ok.inj (hr₁.symm.trans h)
    exact ⟨hall, h₁⟩
  · rintro ⟨hall, h⟩
    obtain ⟨r₁, hr₁, h₁⟩ := exists_foldlM_readEntry fields r hall
    rw [hr₁, h₁.unique h]

omit [DecidableEq F] in
/-- The loop fails with what an entry fails with. -/
theorem foldlM_readEntry_eq_error {r : R} {l : List α} {e : ε}
    (h : l.foldlM (fields.readEntry branch read) r = .error e) :
    ∃ a ∈ l, read (branch a) a = .error e := by
  obtain ⟨r₁, a, ha, h⟩ := foldlM_eq_error h
  rcases bind_eq_error h with h | ⟨x, -, h⟩
  · exact ⟨a, ha, h⟩
  · exact absurd h (by simp [pure, Except.pure])

end Fields

end EveIndustryPlanner
