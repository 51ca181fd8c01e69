import EveIndustryPlanner.Industry.JobNames

/-!
# Names of resources

The rows of the planner are told apart by the names of their resources.  A name
is a number with a word after it, or a word that starts with letters of its own,
so no two resources have one name, and none has that of the buy-in.

## Main definitions

* `Resource.number`, `Resource.rest` — the number a name starts with, and the
  rest of it.

## Main results

* `Resource.name_injective` — **different resources have different names.**
* `Resource.name_ne_buyIn` — no resource is called like the buy-in.
-/

namespace EveIndustryPlanner
namespace Industry

namespace Resource

/-- The number a name starts with. -/
def number : Resource → Option TypeID
  | item id => some id
  | bpoTime id => some id
  | bpc id _ => some id
  | _ => none

/-- What follows the number. -/
def rest : Resource → String
  | item _ => ""
  | bpoTime _ => "_BPO_Time"
  | bpc _ bpe => "_" ++ (makeBpeString bpe ++ "_BPC")
  | r => r.name

theorem name_of_number {r : Resource} {id : TypeID} (h : r.number = some id) :
    r.name = toString id ++ r.rest := by
  cases r with
  | item id' =>
    obtain rfl := Option.some.inj h
    exact (String.append_empty).symm
  | bpoTime id' =>
    obtain rfl := Option.some.inj h
    rfl
  | bpc id' bpe =>
    obtain rfl := Option.some.inj h
    simp only [name, rest, String.append_assoc]
  | _ => exact absurd h (by simp [number])

theorem name_of_no_number {r : Resource} (h : r.number = none) : r.name = r.rest := by
  cases r with
  | item id' => exact absurd h (by simp [number])
  | bpoTime id' => exact absurd h (by simp [number])
  | bpc id' bpe => exact absurd h (by simp [number])
  | _ => rfl

/-- No number goes on in the rest of a name. -/
theorem endsNumber_rest (r : Resource) : EndsNumber r.rest := by
  cases r with
  | item id => exact fun c hc => absurd hc (by simp [rest])
  | planetaryItem id => exact EndsNumber.append (s := "Planetary_") (by decide) (by decide) _
  | bpoTime id => exact EndsNumber.append (s := "_BPO_Time") (by decide) (by decide) ""
  | bpc id bpe => exact endsNumber_underscore _
  | labTime => decide
  | productionLineTime => decide
  | cpu => decide
  | power => decide
  | basicIndustryTime => decide
  | advancedIndustryTime => decide
  | highTechIndustryTime => decide

/-- Both parts of a name can be read off. -/
theorem parts_eq {r r' : Resource} (h : r.name = r'.name) :
    r.number = r'.number ∧ r.rest = r'.rest := by
  cases hr : r.number with
  | none =>
    cases hr' : r'.number with
    | none =>
      rw [name_of_no_number hr, name_of_no_number hr'] at h
      exact ⟨rfl, h⟩
    | some id' =>
      rw [name_of_no_number hr, name_of_number hr'] at h
      exact absurd h ((endsNumber_rest r).ne_toString_append _ _)
  | some id =>
    cases hr' : r'.number with
    | none =>
      rw [name_of_number hr, name_of_no_number hr'] at h
      exact absurd h.symm ((endsNumber_rest r').ne_toString_append _ _)
    | some id' =>
      rw [name_of_number hr, name_of_number hr'] at h
      obtain ⟨rfl, hrest⟩ := toString_append_inj (endsNumber_rest r) (endsNumber_rest r') h
      exact ⟨rfl, hrest⟩

/-! ### Names without a number -/

/-- The first letters of a name without a number. -/
def letters : Resource → List Char
  | planetaryItem _ => ['P', 'l']
  | labTime => ['L']
  | productionLineTime => ['P', 'r']
  | cpu => ['C']
  | power => ['P', 'o']
  | basicIndustryTime => ['B', 'a']
  | advancedIndustryTime => ['A']
  | highTechIndustryTime => ['H']
  | _ => []

/-- All first letters. -/
def allLetters : List (List Char) :=
  [['P', 'l'], ['L'], ['P', 'r'], ['C'], ['P', 'o'], ['B', 'a'], ['A'], ['H']]

theorem letters_mem {r : Resource} (h : r.number = none) : r.letters ∈ allLetters := by
  cases r <;> simp [number, letters, allLetters] at h ⊢

theorem letters_prefix (r : Resource) : r.letters <+: r.rest.toList := by
  cases r with
  | planetaryItem id => simp [letters, rest, name]
  | item id => exact List.nil_prefix
  | bpoTime id => exact List.nil_prefix
  | bpc id bpe => exact List.nil_prefix
  | _ => decide

/-- Names without a number that are the same start with the same letters. -/
theorem letters_eq {r r' : Resource} (hr : r.number = none) (hr' : r'.number = none)
    (h : r.rest = r'.rest) : r.letters = r'.letters := by
  -- no letters are a proper prefix of others
  have hapart : ∀ l ∈ allLetters, ∀ l' ∈ allLetters, l <+: l' → l = l' := by decide
  have hp := r.letters_prefix
  rw [h] at hp
  rcases List.prefix_or_prefix_of_prefix hp r'.letters_prefix with hp | hp
  · exact hapart _ (letters_mem hr) _ (letters_mem hr') hp
  · exact (hapart _ (letters_mem hr') _ (letters_mem hr) hp).symm

theorem eq_of_no_number {r r' : Resource} (hr : r.number = none) (hr' : r'.number = none)
    (h : r.rest = r'.rest) : r = r' := by
  have hletters := letters_eq hr hr' h
  cases r with
  | planetaryItem id =>
    cases r' with
    | planetaryItem id' =>
      simp only [rest, name, String.append_right_inj] at h
      rw [toString_injective h]
    | _ => exact absurd hletters (by simp [letters])
  | item id => exact absurd hr (by simp [number])
  | bpoTime id => exact absurd hr (by simp [number])
  | bpc id bpe => exact absurd hr (by simp [number])
  | _ =>
    -- the letters tell all others apart
    cases r' with
    | planetaryItem id' => exact absurd hletters (by simp [letters])
    | _ => first | rfl | exact absurd hletters (by simp [letters])

/-! ### Names with a number -/

/-- The time of an original is not called like a copy. -/
theorem bpoTime_ne_bpc (bpe : BlueprintEfficiency) :
    "_BPO_Time" ≠ "_" ++ (makeBpeString bpe ++ "_BPC") := by
  have hsplit : "_BPO_Time" = "_" ++ "BPO_Time" := by decide
  have hword : EndsNumber "BPO_Time" := by decide
  rw [hsplit, Ne, String.append_right_inj]
  simp only [makeBpeString, hundredths, String.append_assoc]
  exact hword.ne_toString_append _ _

theorem eq_of_number {r r' : Resource} {id : TypeID} (hr : r.number = some id)
    (hr' : r'.number = some id) (h : r.rest = r'.rest) : r = r' := by
  have hword : "" ≠ "_BPO_Time" := by decide
  have hempty : ∀ s : String, "" ≠ "_" ++ s := by
    intro s hs
    exact absurd (congrArg String.toList hs) (by simp)
  cases r with
  | item id₁ =>
    obtain rfl := Option.some.inj hr
    cases r' with
    | item id₂ => rw [Option.some.inj hr']
    | bpoTime id₂ => exact absurd h hword
    | bpc id₂ bpe => exact absurd h (hempty _)
    | _ => exact absurd hr' (by simp [number])
  | bpoTime id₁ =>
    obtain rfl := Option.some.inj hr
    cases r' with
    | item id₂ => exact absurd h.symm hword
    | bpoTime id₂ => rw [Option.some.inj hr']
    | bpc id₂ bpe => exact absurd h (bpoTime_ne_bpc bpe)
    | _ => exact absurd hr' (by simp [number])
  | bpc id₁ bpe =>
    obtain rfl := Option.some.inj hr
    cases r' with
    | item id₂ => exact absurd h.symm (hempty _)
    | bpoTime id₂ => exact absurd h.symm (bpoTime_ne_bpc bpe)
    | bpc id₂ bpe' =>
      have hbpe : makeBpeString bpe ++ "_BPC" = makeBpeString bpe' ++ "_BPC" :=
        (String.append_right_inj _).mp h
      rw [Option.some.inj hr', (makeBpeString_append_inj hbpe).1]
    | _ => exact absurd hr' (by simp [number])
  | _ => exact absurd hr (by simp [number])

/-! ### All names -/

/-- **Different resources have different names.** -/
theorem name_injective : Function.Injective Resource.name := by
  intro r r' h
  obtain ⟨hnumber, hrest⟩ := parts_eq h
  cases hr : r.number with
  | none => exact eq_of_no_number hr (hnumber ▸ hr) hrest
  | some id => exact eq_of_number hr (hnumber ▸ hr) hrest

/-- No resource is called like the buy-in. -/
theorem name_ne_buyIn (r : Resource) : r.name ≠ "BuyIn" := by
  have hword : EndsNumber "BuyIn" := by decide
  cases hr : r.number with
  | some id =>
    rw [name_of_number hr]
    exact (hword.ne_toString_append _ _).symm
  | none =>
    rw [name_of_no_number hr]
    intro h
    have hp := r.letters_prefix
    rw [h] at hp
    have hno : ∀ l ∈ allLetters, ¬ l <+: "BuyIn".toList := by decide
    exact hno _ (letters_mem hr) hp

end Resource

end Industry
end EveIndustryPlanner
