import EveIndustryPlanner.Industry.Generators
import EveIndustryPlanner.Lib.Decimal

/-!
# Names of jobs

A job is known from what it is for: what is built, traded, made, researched or
copied, and how.  Its name says all of that, so two jobs have the same name
exactly if they are for the same; what a name leaves out (the blueprint a
product is made from) is no part of it.

## Main definitions

* `JobID`, `JobID.render` — what a job is for, and its name.

## Main results

* `JobID.render_injective` — **nothing gets lost in a name.**
-/

namespace EveIndustryPlanner
namespace Industry

/-- What is done with an item on a planet. -/
inductive PlanetaryKind where
  | import
  | export
  | produce
  deriving DecidableEq, Repr

/-- What a job is for. -/
inductive JobID where
  | facility (i : Fin 3)
  | planetary (kind : PlanetaryKind) (tier : ℕ) (item : String)
  | buy (type : TypeID) (order : ℕ)
  | sell (type : TypeID) (order : ℕ)
  /-- From a copy with an efficiency, or from an original. -/
  | produce (techLevel : TechLevel) (copy : Option BlueprintEfficiency) (product : TypeID)
  | research (blueprint : TypeID) (decryptor : Option TypeID) (product : TypeID)
  | copy (blueprint : TypeID)
  deriving DecidableEq, Repr

/-- The word for what is done with an item on a planet. -/
def PlanetaryKind.word : PlanetaryKind → String
  | .import => "_Import_"
  | .export => "_Export_"
  | .produce => "_Produce_"

/-- The names of the facilities. -/
def facilityName (i : Fin 3) : String :=
  match i with
  | 0 => "Build_Basic_Industry_Facility"
  | 1 => "Build_Advanced_Industry_Facility"
  | 2 => "Build_High_Tech_Production_Plant"

/-- The name of a job. -/
def JobID.render : JobID → String
  | facility i => facilityName i
  | planetary kind tier item => "P" ++ toString tier ++ kind.word ++ item
  | buy type order => "Buy_" ++ toString type ++ "_" ++ toString order
  | sell type order => "Sell_" ++ toString type ++ "_" ++ toString order
  | produce techLevel none product => bpoJobName techLevel product
  | produce techLevel (some bpe) product => bpcJobName techLevel bpe product
  | research blueprint decryptor product => researchJobName blueprint decryptor product
  | copy blueprint => "Copy_" ++ toString blueprint

/-! ### The parts of a name -/

/-- A digit in front of a text can be read off. -/
theorem digit_append_inj {j k : ℕ} (hj : j < 10) (hk : k < 10) {s t : String}
    (h : toString j ++ s = toString k ++ t) : j = k ∧ s = t := by
  have hlist := congrArg String.toList h
  rw [String.toList_append, String.toList_append, Nat.toString_eq_repr, Nat.toString_eq_repr,
    Nat.toList_repr, Nat.toList_repr, Nat.toDigits_of_lt_base hj, Nat.toDigits_of_lt_base hk,
    List.singleton_append, List.singleton_append] at hlist
  obtain ⟨hdigit, hrest⟩ := List.cons.inj hlist
  -- digits start at character 48
  have hvalue := congrArg (fun c : Char => c.toNat - 48) hdigit
  simp only [Nat.toNat_digitChar_sub_48_of_lt_ten hj, Nat.toNat_digitChar_sub_48_of_lt_ten hk]
    at hvalue
  exact ⟨hvalue, String.toList_inj.mp hrest⟩

/-- An efficiency in front of a text can be read off. -/
theorem hundredths_append_inj {n m : ℕ} {s t : String}
    (h : hundredths n ++ s = hundredths m ++ t) : n = m ∧ s = t := by
  have hpoint : ∀ r : String, EndsNumber ("." ++ r) := by
    intro r
    exact EndsNumber.append (by decide) (by decide) r
  -- the whole part ends at the point, the two digits have one character each
  simp only [hundredths, String.append_assoc] at h
  obtain ⟨hwhole, h⟩ := toString_append_inj (hpoint _) (hpoint _) h
  rw [String.append_right_inj] at h
  obtain ⟨htenths, h⟩ := digit_append_inj (Nat.mod_lt _ (by decide)) (Nat.mod_lt _ (by decide)) h
  obtain ⟨hhundredths, h⟩ := digit_append_inj (Nat.mod_lt _ (by decide)) (Nat.mod_lt _ (by decide)) h
  rw [String.append_right_inj] at h
  exact ⟨by omega, h⟩

/-- Two efficiencies in front of a text can be read off. -/
theorem makeBpeString_append_inj {bpe bpe' : BlueprintEfficiency} {s t : String}
    (h : makeBpeString bpe ++ s = makeBpeString bpe' ++ t) : bpe = bpe' ∧ s = t := by
  simp only [makeBpeString, String.append_assoc] at h
  obtain ⟨hme, h⟩ := hundredths_append_inj h
  rw [String.append_right_inj] at h
  obtain ⟨hte, h⟩ := hundredths_append_inj h
  refine ⟨?_, h⟩
  cases bpe
  cases bpe'
  exact congrArg₂ BlueprintEfficiency.mk hme hte

theorem endsNumber_word (kind : PlanetaryKind) (s : String) : EndsNumber (kind.word ++ s) := by
  refine EndsNumber.append ?_ ?_ s
  · cases kind <;> decide
  · cases kind <;> decide

theorem endsNumber_underscore (s : String) : EndsNumber ("_" ++ s) :=
  EndsNumber.append (by decide) (by decide) s

/-- The words are read off by their first letter. -/
theorem word_append_inj {kind kind' : PlanetaryKind} {s t : String}
    (h : kind.word ++ s = kind'.word ++ t) : kind = kind' ∧ s = t := by
  have hlist := congrArg String.toList h
  rw [String.toList_append, String.toList_append] at hlist
  have hkind : kind = kind' := by
    have hletter := congrArg (·[1]?) hlist
    cases kind <;> cases kind' <;> first | rfl | exact absurd hletter (by simp [PlanetaryKind.word])
  subst hkind
  exact ⟨rfl, (String.append_right_inj _).mp h⟩

/-- The technologies are read off by their number. -/
theorem techLevel_append_inj {l l' : TechLevel} {s t : String}
    (h : l.toString ++ s = l'.toString ++ t) : l = l' ∧ s = t := by
  have hlist := congrArg String.toList h
  rw [String.toList_append, String.toList_append] at hlist
  have hlevel : l = l' := by
    have hdigit := congrArg (·[1]?) hlist
    cases l <;> cases l' <;> first | rfl | exact absurd hdigit (by simp [TechLevel.toString])
  subst hlevel
  exact ⟨rfl, (String.append_right_inj _).mp h⟩

/-- Two numbers with an underscore between them are read off. -/
theorem numbers_inj {n m n' m' : ℕ}
    (h : toString n ++ ("_" ++ toString m) = toString n' ++ ("_" ++ toString m')) :
    n = n' ∧ m = m' := by
  obtain ⟨hn, h⟩ := toString_append_inj (endsNumber_underscore _) (endsNumber_underscore _) h
  exact ⟨hn, toString_injective ((String.append_right_inj _).mp h)⟩

/-! ### Names -/

/-- The first letters of a name, which say what kind of job it is. -/
def JobID.initials : JobID → List Char
  | facility _ => ['B', 'u', 'i']
  | planetary _ _ _ => ['P']
  | buy _ _ => ['B', 'u', 'y']
  | sell _ _ => ['S']
  | produce _ _ _ => ['T']
  | research _ _ _ => ['R']
  | copy _ => ['C']

theorem JobID.initials_prefix (j : JobID) : j.initials <+: j.render.toList := by
  cases j with
  | facility i => fin_cases i <;> simp [initials, render, facilityName]
  | planetary kind tier item => simp [initials, render]
  | buy type order => simp [initials, render]
  | sell type order => simp [initials, render]
  | produce techLevel copy product =>
    cases copy <;> cases techLevel <;>
      simp [initials, render, bpoJobName, bpcJobName, TechLevel.toString]
  | research blueprint decryptor product => simp [initials, render, researchJobName]
  | copy blueprint => simp [initials, render]

/-- Jobs of one name have the same first letters. -/
theorem JobID.initials_eq {j j' : JobID} (h : j.render = j'.render) : j.initials = j'.initials := by
  have hj := j.initials_prefix
  rw [h] at hj
  -- no initials are a proper prefix of others
  rcases List.prefix_or_prefix_of_prefix hj j'.initials_prefix with hp | hp
  · cases j <;> cases j' <;> first | rfl | simp [initials] at hp
  · cases j <;> cases j' <;> first | rfl | simp [initials] at hp

theorem bpo_ne_bpc (bpe : BlueprintEfficiency) (product product' : TypeID) :
    "_Produce_BPO_" ++ toString product ≠
      "_Produce_" ++ (makeBpeString bpe ++ ("_BPC_" ++ toString product')) := by
  -- where the one goes on with a letter, the other goes on with a number
  have hsplit : "_Produce_BPO_" = "_Produce_" ++ "BPO_" := by decide
  have hBPO : EndsNumber ("BPO_" ++ toString product) :=
    EndsNumber.append (by decide) (by decide) _
  rw [hsplit, String.append_assoc, Ne, String.append_right_inj]
  simp only [makeBpeString, hundredths, String.append_assoc]
  exact hBPO.ne_toString_append _ _

theorem JobID.produce_inj {techLevel techLevel' : TechLevel}
    {copy copy' : Option BlueprintEfficiency} {product product' : TypeID}
    (h : (produce techLevel copy product).render = (produce techLevel' copy' product').render) :
    techLevel = techLevel' ∧ copy = copy' ∧ product = product' := by
  cases copy with
  | none =>
    cases copy' with
    | none =>
      simp only [render, bpoJobName, String.append_assoc] at h
      obtain ⟨hlevel, hrest⟩ := techLevel_append_inj h
      rw [String.append_right_inj] at hrest
      exact ⟨hlevel, rfl, toString_injective hrest⟩
    | some bpe' =>
      simp only [render, bpoJobName, bpcJobName, String.append_assoc] at h
      obtain ⟨-, hrest⟩ := techLevel_append_inj h
      exact absurd hrest (bpo_ne_bpc bpe' product product')
  | some bpe =>
    cases copy' with
    | none =>
      simp only [render, bpoJobName, bpcJobName, String.append_assoc] at h
      obtain ⟨-, hrest⟩ := techLevel_append_inj h
      exact absurd hrest.symm (bpo_ne_bpc bpe product' product)
    | some bpe' =>
      simp only [render, bpcJobName, String.append_assoc] at h
      obtain ⟨hlevel, hrest⟩ := techLevel_append_inj h
      rw [String.append_right_inj] at hrest
      obtain ⟨hbpe, hrest⟩ := makeBpeString_append_inj hrest
      rw [String.append_right_inj] at hrest
      exact ⟨hlevel, congrArg some hbpe, toString_injective hrest⟩

theorem JobID.research_inj {blueprint blueprint' product product' : TypeID}
    {decryptor decryptor' : Option TypeID}
    (h : (research blueprint decryptor product).render =
      (research blueprint' decryptor' product').render) :
    blueprint = blueprint' ∧ decryptor = decryptor' ∧ product = product' := by
  -- no number starts like the word for no decryptor
  have hnone : ∀ s, EndsNumber ("none" ++ s) := by
    intro s
    exact EndsNumber.append (by decide) (by decide) s
  simp only [render, researchJobName, String.append_assoc, String.append_right_inj] at h
  obtain ⟨hblueprint, hrest⟩ :=
    toString_append_inj (endsNumber_underscore _) (endsNumber_underscore _) h
  rw [String.append_right_inj] at hrest
  cases decryptor with
  | none =>
    cases decryptor' with
    | none =>
      rw [String.append_right_inj, String.append_right_inj] at hrest
      exact ⟨hblueprint, rfl, toString_injective hrest⟩
    | some d' => exact absurd hrest ((hnone _).ne_toString_append d' _)
  | some d =>
    cases decryptor' with
    | none => exact absurd hrest.symm ((hnone _).ne_toString_append d _)
    | some d' =>
      obtain ⟨hd, hproduct⟩ := numbers_inj hrest
      exact ⟨hblueprint, congrArg some hd, hproduct⟩

/-- **Nothing gets lost in a name.** -/
theorem JobID.render_injective : Function.Injective JobID.render := by
  intro j j' h
  have hinitials := JobID.initials_eq h
  -- jobs of different kinds differ in their initials
  cases j <;> cases j' <;> first | (exfalso; simp [initials] at hinitials; done) | skip
  case facility.facility i i' =>
    fin_cases i <;> fin_cases i' <;> first | rfl | exact absurd h (by decide)
  case planetary.planetary kind tier item kind' tier' item' =>
    simp only [render, String.append_assoc, String.append_right_inj] at h
    obtain ⟨htier, hword⟩ := toString_append_inj (endsNumber_word _ _) (endsNumber_word _ _) h
    obtain ⟨hkind, hitem⟩ := word_append_inj hword
    rw [htier, hkind, hitem]
  case buy.buy type order type' order' =>
    simp only [render, String.append_assoc, String.append_right_inj] at h
    obtain ⟨rfl, rfl⟩ := numbers_inj h
    rfl
  case sell.sell type order type' order' =>
    simp only [render, String.append_assoc, String.append_right_inj] at h
    obtain ⟨rfl, rfl⟩ := numbers_inj h
    rfl
  case produce.produce techLevel copy product techLevel' copy' product' =>
    obtain ⟨rfl, rfl, rfl⟩ := produce_inj h
    rfl
  case research.research blueprint decryptor product blueprint' decryptor' product' =>
    obtain ⟨rfl, rfl, rfl⟩ := research_inj h
    rfl
  case copy.copy blueprint blueprint' =>
    simp only [render, String.append_right_inj] at h
    rw [toString_injective h]

end Industry
end EveIndustryPlanner
