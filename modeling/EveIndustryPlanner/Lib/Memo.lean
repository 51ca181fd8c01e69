import EveIndustryPlanner.Fault

/-!
# Values made on demand

A value is made when its key is first asked for and is looked up from then on.
Making it may fail, which leaves the table as it was.

## Main definitions

* `demand` — ask for the value of a key.
* `demandAll` — ask for one key after the other.
* `Made` — a table of what was made for some keys.

## Main results

* `Made.demand` — **the value of a key is the one that is made for it**, however
  often it is asked for.
* `Made.demandAll` — what some demands leave behind.
-/

namespace EveIndustryPlanner

variable {κ ε β : Type} [DecidableEq κ] {make : κ → Except ε β}

/-- Ask for the value of a key. -/
def demand (make : κ → Except ε β) (t : AList fun _ : κ => β) (k : κ) :
    Except ε (β × AList fun _ : κ => β) :=
  match t.lookup k with
  | some v => .ok (v, t)
  | none => do
    let v ← make k
    return (v, t.insert k v)

/-- Ask for one key after the other. -/
def demandAll (make : κ → Except ε β) (calls : List κ) (t : AList fun _ : κ => β) :
    Except ε (AList fun _ : κ => β) :=
  calls.foldlM (fun t k => do return (← demand make t k).2) t

/-- A table of what was made for some keys. -/
structure Made (make : κ → Except ε β) (calls : List κ) (t : AList fun _ : κ => β) : Prop where
  mem_iff : ∀ k, k ∈ t ↔ k ∈ calls
  made : ∀ k v, t.lookup k = some v → make k = .ok v

namespace Made

theorem empty : Made make [] ∅ where
  mem_iff k := by simp
  made k v h := by simp at h

/-- **The value of a key is the one that is made for it.** -/
theorem demand {calls : List κ} {t t' : AList fun _ : κ => β} {k : κ} {v : β}
    (h : Made make calls t) (hdemand : demand make t k = .ok (v, t')) :
    make k = .ok v ∧ Made make (calls ++ [k]) t' := by
  unfold EveIndustryPlanner.demand at hdemand
  split at hdemand
  · next v' hlookup =>
    obtain ⟨rfl, rfl⟩ := Prod.mk.inj (Except.ok.inj hdemand)
    refine ⟨h.made k _ hlookup, fun k' => ?_, h.made⟩
    -- the key was asked for before
    have hk : k ∈ calls := (h.mem_iff k).mp (AList.lookup_isSome.mp (by rw [hlookup]; rfl))
    rw [h.mem_iff, List.mem_append, List.mem_singleton]
    constructor
    · exact Or.inl
    · rintro (hk' | rfl)
      · exact hk'
      · exact hk
  · obtain ⟨v', hmake, hdemand⟩ := bind_eq_ok hdemand
    obtain ⟨rfl, rfl⟩ := Prod.mk.inj (Except.ok.inj hdemand)
    refine ⟨hmake, fun k' => ?_, fun k' w hw => ?_⟩
    · rw [AList.mem_insert, h.mem_iff, List.mem_append, List.mem_singleton, or_comm]
    · by_cases hk : k' = k
      · subst hk
        rw [AList.lookup_insert] at hw
        obtain rfl := Option.some.inj hw
        exact hmake
      · rw [AList.lookup_insert_ne hk] at hw
        exact h.made k' w hw

/-- What some demands leave behind. -/
theorem demandAll {calls : List κ} {t : AList fun _ : κ => β}
    (h : demandAll make calls ∅ = .ok t) : Made make calls t := by
  induction calls using List.reverseRecOn generalizing t with
  | nil =>
    obtain rfl := Except.ok.inj h
    exact .empty
  | append_singleton calls k ih =>
    obtain ⟨t₁, h₁, h⟩ := foldlM_append_eq_ok h
    obtain ⟨t₂, h₂, h⟩ := bind_eq_ok h
    obtain rfl := Except.ok.inj h
    obtain ⟨r, hr, h₂⟩ := bind_eq_ok h₂
    obtain rfl := Except.ok.inj h₂
    exact ((ih h₁).demand hr).2

end Made

end EveIndustryPlanner
