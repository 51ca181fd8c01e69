import EveIndustryPlanner.Industry.Types
import EveIndustryPlanner.Lib.Collect

/-!
# The class of an id

Registering a blueprint first reads an entry of the catalogue and then puts what
was read into the tables.  What the tables hold after any number of entries is a
statement about the set of what was read, and an id is of one kind as long as
nothing that was read makes it two things at once.

## Main definitions

* `Registration`, `readRegistration` — what an entry says.
* `Types.register` — what becomes of the tables.
* `Types.Tables` — the tables after some registrations.
* `Separate` — registrations that make no id two things.
* `Types.Classified`, `Types.SameAnswers` — the answers of the queries.

## Main results

* `Types.registerBlueprint_eq` — **registering is reading, then filling the tables.**
* `Types.tables_foldl_register` — the tables after some registrations.
* `Types.Tables.classified` — every id is of exactly one kind.
* `classes_of_catalogue` — **so the queries answer, whatever the order of the entries.**
-/

namespace EveIndustryPlanner
namespace Industry

/-! ### What an entry says -/

/-- What an entry of the catalogue says. -/
structure Registration where
  blueprint : TypeID
  /-- What the blueprint makes. -/
  product : Option TypeID
  relic : Bool
  /-- The blueprints its inventions lead to. -/
  inventions : List TypeID
  deriving DecidableEq, Repr

section Reading

variable {N K : Type} [Document N K]

/-- The blueprint an invention leads to, if it can be read. -/
def readInvention (productNode : N) : Except Failure (Option TypeID) :=
  tryRead (do asUnsigned (← field productNode "typeID"))

/-- Read an entry, in the order in which registering it does. -/
def readRegistration (groups : Groups) (e : TypeID × N) : Except Failure Registration := do
  let activities ← field e.2 "activities"
  let product ← tryRead (manufacturingProduct activities)
  let relic ← isAncientRelic e.2 groups
  let products ← getInventionProducts activities
  let inventions ← products.mapM readInvention
  return ⟨e.1, product, relic, inventions.reduceOption⟩

end Reading

/-! ### Filling the tables -/

/-- The inventions of a blueprint, or of a relic, go into the tables. -/
def Types.invent (types : Types) (relic : Bool) (blueprintId : TypeID) (inventions : List TypeID) :
    Types :=
  if relic then { types with
    ancientRelics := if inventions = [] then types.ancientRelics
      else insert blueprintId types.ancientRelics
    t3Blueprints := inventions.toFinset ∪ types.t3Blueprints }
  else { types with t2Blueprints := inventions.toFinset ∪ types.t2Blueprints }

/-- What was read of an entry goes into the tables. -/
def Types.register (types : Types) (r : Registration) : Types :=
  let types := { types with blueprints := insert r.blueprint types.blueprints }
  let types := (r.product.map (types.registerProduct r.blueprint)).getD types
  types.invent r.relic r.blueprint r.inventions

section Reading

variable {N K : Type} [Document N K]

theorem Types.invent_nil (types : Types) (relic : Bool) (blueprintId : TypeID) :
    types.invent relic blueprintId [] = types := by
  unfold Types.invent
  cases relic <;> simp

theorem Types.invent_cons (types : Types) (relic : Bool) (blueprintId productId : TypeID)
    (inventions : List TypeID) :
    (types.invent relic blueprintId [productId]).invent relic blueprintId inventions =
      types.invent relic blueprintId (productId :: inventions) := by
  unfold Types.invent
  cases relic with
  | true => by_cases h : inventions = [] <;> simp [h]
  | false => simp

theorem Types.registerInvention_eq (types : Types) (relic : Bool) (blueprintId : TypeID)
    (productNode : N) :
    types.registerInvention relic blueprintId productNode =
      (readInvention productNode).map fun o => types.invent relic blueprintId o.toList := by
  unfold Types.registerInvention
  show (readInvention productNode >>= _) = _
  cases readInvention productNode with
  | error e => rfl
  | ok o =>
    cases o with
    | none => simp [Types.invent_nil, Except.map, pure, Except.pure]
    | some productId => cases relic <;> simp [Types.invent, Except.map, pure, Except.pure]

theorem Types.foldlM_registerInvention_eq (types : Types) (relic : Bool) (blueprintId : TypeID)
    (products : List N) :
    products.foldlM (Types.registerInvention relic blueprintId) types =
      (products.mapM readInvention).map fun os =>
        types.invent relic blueprintId os.reduceOption := by
  induction products generalizing types with
  | nil => simp [Types.invent_nil, Except.map, pure, Except.pure]
  | cons productNode products ih =>
    rw [List.foldlM_cons, List.mapM_cons, Types.registerInvention_eq]
    cases readInvention productNode with
    | error e => rfl
    | ok o =>
      show products.foldlM _ (types.invent relic blueprintId o.toList) = _
      rw [ih]
      cases products.mapM readInvention with
      | error e => rfl
      | ok os =>
        cases o with
        | none => simp [Types.invent_nil, Except.map, pure, Except.pure, bind, Except.bind]
        | some productId =>
          simp [Types.invent_cons, Except.map, pure, Except.pure, bind, Except.bind]

/-- **Registering is reading, then filling the tables.** -/
theorem Types.registerBlueprint_eq (groups : Groups) (types : Types) (e : TypeID × N) :
    types.registerBlueprint groups e.1 e.2 = (readRegistration groups e).map types.register := by
  unfold Types.registerBlueprint readRegistration
  cases field e.2 "activities" with
  | error f => rfl
  | ok activities =>
    simp only [ok_bind]
    cases tryRead (manufacturingProduct activities) with
    | error f => rfl
    | ok product =>
      simp only [ok_bind]
      cases isAncientRelic e.2 groups with
      | error f => rfl
      | ok relic =>
        simp only [ok_bind]
        cases getInventionProducts activities with
        | error f => rfl
        | ok products =>
          simp only [ok_bind]
          rw [Types.foldlM_registerInvention_eq]
          cases products.mapM readInvention with
          | error f => rfl
          | ok os => rfl

/-- Register the entries of a catalogue, the first one first. -/
def registerAll (groups : Groups) (types : Types) (catalogue : List (TypeID × N)) :
    Except Failure Types :=
  catalogue.foldlM (fun types e => types.registerBlueprint groups e.1 e.2) types

theorem registerAll_eq (groups : Groups) (types : Types) (catalogue : List (TypeID × N)) :
    registerAll groups types catalogue =
      (catalogue.mapM (readRegistration groups)).map fun rs => rs.foldl Types.register types := by
  unfold registerAll
  induction catalogue generalizing types with
  | nil => rfl
  | cons e catalogue ih =>
    rw [List.foldlM_cons, List.mapM_cons, Types.registerBlueprint_eq]
    cases readRegistration groups e with
    | error f => rfl
    | ok r =>
      show catalogue.foldlM _ (types.register r) = _
      rw [ih]
      cases catalogue.mapM (readRegistration groups) with
      | error f => rfl
      | ok rs => rfl

end Reading

/-! ### The tables after some registrations -/

/-- The tables after some registrations. -/
structure Types.Tables (rs : List Registration) (types : Types) : Prop where
  blueprints : ∀ t, t ∈ types.blueprints ↔ ∃ r ∈ rs, r.blueprint = t
  manufacturingOutputs : ∀ t, t ∈ types.manufacturingOutputs ↔ ∃ r ∈ rs, r.product = some t
  t2Blueprints : ∀ t, t ∈ types.t2Blueprints ↔ ∃ r ∈ rs, r.relic = false ∧ t ∈ r.inventions
  t3Blueprints : ∀ t, t ∈ types.t3Blueprints ↔ ∃ r ∈ rs, r.relic = true ∧ t ∈ r.inventions
  ancientRelics : ∀ t, t ∈ types.ancientRelics ↔
    ∃ r ∈ rs, r.relic = true ∧ r.inventions ≠ [] ∧ r.blueprint = t
  /-- Some blueprint that makes a product is known to make it. -/
  madeBy : ∀ t b, types.productToBP t = some b → ∃ r ∈ rs, r.blueprint = b ∧ r.product = some t
  made : ∀ r ∈ rs, ∀ t, r.product = some t → (types.productToBP t).isSome

namespace Types

theorem register_t2Blueprints (types : Types) (r : Registration) :
    (types.register r).t2Blueprints =
      if r.relic then types.t2Blueprints else r.inventions.toFinset ∪ types.t2Blueprints := by
  cases hproduct : r.product <;> cases hrelic : r.relic <;>
    simp [register, invent, registerProduct, hproduct, hrelic]

theorem register_t3Blueprints (types : Types) (r : Registration) :
    (types.register r).t3Blueprints =
      if r.relic then r.inventions.toFinset ∪ types.t3Blueprints else types.t3Blueprints := by
  cases hproduct : r.product <;> cases hrelic : r.relic <;>
    simp [register, invent, registerProduct, hproduct, hrelic]

theorem register_ancientRelics (types : Types) (r : Registration) :
    (types.register r).ancientRelics =
      if r.relic ∧ r.inventions ≠ [] then insert r.blueprint types.ancientRelics
      else types.ancientRelics := by
  cases hproduct : r.product <;> cases hrelic : r.relic <;> by_cases h : r.inventions = [] <;>
    simp [register, invent, registerProduct, hproduct, hrelic, h]

theorem register_blueprints (types : Types) (r : Registration) :
    (types.register r).blueprints = insert r.blueprint types.blueprints := by
  cases hproduct : r.product <;> cases hrelic : r.relic <;>
    simp [register, invent, registerProduct, hproduct, hrelic]

theorem register_manufacturingOutputs (types : Types) (r : Registration) :
    (types.register r).manufacturingOutputs =
      r.product.elim types.manufacturingOutputs (insert · types.manufacturingOutputs) := by
  cases hproduct : r.product <;> cases hrelic : r.relic <;>
    simp [register, invent, registerProduct, hproduct, hrelic]

theorem register_productToBP (types : Types) (r : Registration) (t : TypeID) :
    (types.register r).productToBP t =
      if r.product = some t then some r.blueprint else types.productToBP t := by
  cases hproduct : r.product <;> cases hrelic : r.relic <;>
    simp [register, invent, registerProduct, hproduct, hrelic, Function.update_apply, eq_comm]

theorem register_bpToProduct (types : Types) (r : Registration) :
    (types.register r).bpToProduct =
      r.product.elim types.bpToProduct (types.bpToProduct.insert r.blueprint) := by
  cases hproduct : r.product <;> cases hrelic : r.relic <;>
    simp [register, invent, registerProduct, hproduct, hrelic]

namespace Tables

theorem empty : Tables [] empty := by
  constructor <;> simp [Types.empty]

theorem exists_mem_snoc {rs : List Registration} {r : Registration} {P : Registration → Prop} :
    (∃ r' ∈ rs ++ [r], P r') ↔ P r ∨ ∃ r' ∈ rs, P r' := by
  simp [or_and_right, exists_or, or_comm]

/-- One more registration. -/
theorem register {rs : List Registration} {types : Types} (h : Tables rs types)
    (r : Registration) : Tables (rs ++ [r]) (types.register r) where
  blueprints t := by
    rw [register_blueprints, Finset.mem_insert, h.blueprints, exists_mem_snoc, eq_comm]
  manufacturingOutputs t := by
    rw [register_manufacturingOutputs, exists_mem_snoc, ← h.manufacturingOutputs]
    cases r.product with
    | none => simp
    | some productId => simp [eq_comm]
  t2Blueprints t := by
    rw [register_t2Blueprints, exists_mem_snoc, ← h.t2Blueprints]
    cases r.relic <;> simp
  t3Blueprints t := by
    rw [register_t3Blueprints, exists_mem_snoc, ← h.t3Blueprints]
    cases r.relic <;> simp
  ancientRelics t := by
    rw [register_ancientRelics, exists_mem_snoc, ← h.ancientRelics]
    by_cases hrelic : r.relic = true ∧ r.inventions ≠ []
    · rw [if_pos hrelic, Finset.mem_insert]
      simp [hrelic.1, hrelic.2, eq_comm]
    · rw [if_neg hrelic]
      refine (or_iff_right ?_).symm
      rintro ⟨hr, hnil, -⟩
      exact hrelic ⟨hr, hnil⟩
  madeBy t b hb := by
    rw [register_productToBP] at hb
    split at hb
    · next hproduct => exact ⟨r, by simp, Option.some.inj hb, hproduct⟩
    · obtain ⟨r', hr', hmade⟩ := h.madeBy t b hb
      exact ⟨r', List.mem_append_left _ hr', hmade⟩
  made r' hr' t hproduct := by
    rw [register_productToBP]
    split
    · rfl
    · next hne =>
      rcases List.mem_append.mp hr' with hr' | hr'
      · exact h.made r' hr' t hproduct
      · obtain rfl := List.mem_singleton.mp hr'
        exact absurd hproduct hne

end Tables

/-- The tables after some registrations. -/
theorem tables_foldl_register (rs : List Registration) :
    Tables rs (rs.foldl register Types.empty) := by
  induction rs using List.reverseRecOn with
  | nil => exact Tables.empty
  | append_singleton rs r ih =>
    rw [List.foldl_append]
    exact ih.register r

end Types

/-! ### One class for each id -/

/-- Registrations that make no id two things.  A relic counts as one only if it
has inventions. -/
structure Separate (rs : List Registration) : Prop where
  distinct : (rs.map Registration.blueprint).Nodup
  /-- No blueprint is a product. -/
  blueprint_product : ∀ r ∈ rs, ∀ r' ∈ rs, r'.product ≠ some r.blueprint
  relic_product : ∀ r ∈ rs, r.relic = true → r.inventions ≠ [] → r.product = none
  t2_t3 : ∀ r ∈ rs, ∀ r' ∈ rs, r.relic = false → r'.relic = true →
    ∀ t ∈ r.inventions, t ∉ r'.inventions
  t2_relic : ∀ r ∈ rs, ∀ r' ∈ rs, r.relic = false → r'.relic = true → r'.inventions ≠ [] →
    r'.blueprint ∉ r.inventions
  t3_relic : ∀ r ∈ rs, ∀ r' ∈ rs, r.relic = true → r'.relic = true → r'.inventions ≠ [] →
    r'.blueprint ∉ r.inventions

namespace Types

/-- An id is of exactly one kind, and no query finds it inconsistent. -/
structure Classified (types : Types) (t : TypeID) : Prop where
  one : (types.kinds t).count true = 1
  isBP : ∃ a, types.isBP t = .ok a
  isT1BP : ∃ a, types.isT1BP t = .ok a
  isT2BP : ∃ a, types.isT2BP t = .ok a
  isT3BP : ∃ a, types.isT3BP t = .ok a
  isRelic : ∃ a, types.isRelic t = .ok a
  isT1 : ∃ a, types.isT1 t = .ok a
  isT2 : ∃ a, types.isT2 t = .ok a
  isT3 : ∃ a, types.isT3 t = .ok a
  isProduct : ∃ a, types.isProduct t = .ok a
  isBaseItem : ∃ a, types.isBaseItem t = .ok a
  getBPTechLevel : types.getBPTechLevel t ≠ .error .inconsistentItem
  getProductTechLevel : types.getProductTechLevel t ≠ .error .inconsistentItem

section Kinds

variable {types : Types} {t : TypeID}

theorem checkItem_of_one (h : (types.kinds t).count true = 1) : types.checkItem t = .ok () :=
  if_pos h

theorem Classified.of_one (h : (types.kinds t).count true = 1) : Classified types t := by
  have hcheck := checkItem_of_one h
  have hchecked : ∀ isKind : TypeID → Bool, types.checked t isKind = .ok (isKind t) := by
    intro isKind
    rw [checked, hcheck]
    rfl
  refine ⟨h, ⟨_, hchecked _⟩, ⟨_, hchecked _⟩, ⟨_, hchecked _⟩, ⟨_, hchecked _⟩, ⟨_, hchecked _⟩,
    ⟨_, hchecked _⟩, ⟨_, hchecked _⟩, ⟨_, hchecked _⟩, ⟨_, hchecked _⟩, ⟨_, hchecked _⟩, ?_, ?_⟩
  · rw [Types.getBPTechLevel, hcheck, ok_bind]
    split
    · simp [pure, Except.pure]
    · split
      · simp [pure, Except.pure]
      · split <;> simp [pure, Except.pure, throw, throwThe, MonadExceptOf.throw]
  · rw [Types.getProductTechLevel, hcheck, ok_bind]
    split
    · simp [pure, Except.pure]
    · split
      · simp [pure, Except.pure]
      · split <;> simp [pure, Except.pure, throw, throwThe, MonadExceptOf.throw]

end Kinds

namespace Tables

variable {rs : List Registration} {types : Types} (h : Tables rs types) (hs : Separate rs)
include h hs

theorem not_t2_t3 (t : TypeID) : ¬ (types.isT2BP_ t = true ∧ types.isT3BP_ t = true) := by
  rintro ⟨h₂, h₃⟩
  obtain ⟨r, hr, hrelic, ht⟩ := (h.t2Blueprints t).mp (of_decide_eq_true h₂)
  obtain ⟨r', hr', hrelic', ht'⟩ := (h.t3Blueprints t).mp (of_decide_eq_true h₃)
  exact hs.t2_t3 r hr r' hr' hrelic hrelic' t ht ht'

theorem not_t2_relic (t : TypeID) : ¬ (types.isT2BP_ t = true ∧ types.isRelic_ t = true) := by
  rintro ⟨h₂, hrel⟩
  obtain ⟨r, hr, hrelic, ht⟩ := (h.t2Blueprints t).mp (of_decide_eq_true h₂)
  obtain ⟨r', hr', hrelic', hne, rfl⟩ := (h.ancientRelics t).mp (of_decide_eq_true hrel)
  exact hs.t2_relic r hr r' hr' hrelic hrelic' hne ht

theorem not_t3_relic (t : TypeID) : ¬ (types.isT3BP_ t = true ∧ types.isRelic_ t = true) := by
  rintro ⟨h₃, hrel⟩
  obtain ⟨r, hr, hrelic, ht⟩ := (h.t3Blueprints t).mp (of_decide_eq_true h₃)
  obtain ⟨r', hr', hrelic', hne, rfl⟩ := (h.ancientRelics t).mp (of_decide_eq_true hrel)
  exact hs.t3_relic r hr r' hr' hrelic hrelic' hne ht

theorem not_bp_product (t : TypeID) : ¬ (types.isBP_ t = true ∧ types.isProduct_ t = true) := by
  rintro ⟨hbp, hproduct⟩
  obtain ⟨r, hr, rfl⟩ := (h.blueprints t).mp (of_decide_eq_true hbp)
  obtain ⟨r', hr', hmade⟩ := (h.manufacturingOutputs _).mp (of_decide_eq_true hproduct)
  exact hs.blueprint_product r hr r' hr' hmade

/-- What makes a product is a blueprint, but no relic. -/
theorem exists_maker {t : TypeID} (hproduct : types.isProduct_ t = true) :
    ∃ b, types.productToBP t = some b ∧ types.isBP_ b = true ∧ types.isRelic_ b = false := by
  obtain ⟨r, hr, hmade⟩ := (h.manufacturingOutputs t).mp (of_decide_eq_true hproduct)
  obtain ⟨b, hb⟩ := Option.isSome_iff_exists.mp (h.made r hr t hmade)
  obtain ⟨r₁, hr₁, rfl, hmade₁⟩ := h.madeBy t b hb
  refine ⟨_, hb, decide_eq_true ((h.blueprints _).mpr ⟨r₁, hr₁, rfl⟩), ?_⟩
  -- a relic with inventions is registered once, and makes nothing
  rw [← Bool.not_eq_true]
  intro hrel
  obtain ⟨r₂, hr₂, hrelic, hne, heq⟩ := (h.ancientRelics _).mp (of_decide_eq_true hrel)
  obtain rfl : r₂ = r₁ := List.inj_on_of_nodup_map hs.distinct hr₂ hr₁ heq
  exact absurd (hmade₁.symm.trans (hs.relic_product r₂ hr₂ hrelic hne)) (by simp)

/-- A blueprint is of exactly one of the four kinds of blueprints. -/
theorem count_bp (b : TypeID) (hbp : types.isBP_ b = true) :
    [types.isT1BP_ b, types.isT2BP_ b, types.isT3BP_ b, types.isRelic_ b].count true = 1 := by
  have h₂₃ := h.not_t2_t3 hs b
  have h₂ := h.not_t2_relic hs b
  have h₃ := h.not_t3_relic hs b
  rw [isT1BP_, hbp]
  cases ht2 : types.isT2BP_ b <;> cases ht3 : types.isT3BP_ b <;>
    cases hrel : types.isRelic_ b <;> simp_all

/-- Every id is of exactly one kind. -/
theorem count_kinds (t : TypeID) : (types.kinds t).count true = 1 := by
  have hnot := h.not_bp_product hs t
  cases hbp : types.isBP_ t with
  | true =>
    have hproduct : types.isProduct_ t = false := by
      rw [← Bool.not_eq_true]
      exact fun hp => hnot ⟨hbp, hp⟩
    have hcount := h.count_bp hs t hbp
    simpa [kinds, isBaseItem_, hbp, hproduct] using hcount
  | false =>
    cases hproduct : types.isProduct_ t with
    | true =>
      obtain ⟨b, hb, hbp', hrel⟩ := h.exists_maker hs hproduct
      have hcount := h.count_bp hs b hbp'
      rw [hrel] at hcount
      simpa [kinds, isBaseItem_, isT1_, isT2_, isT3_, Types.madeBy, hbp, hproduct, hb,
        List.count_cons] using hcount
    | false => simp [kinds, isBaseItem_, hbp, hproduct]

/-- Every id is of exactly one kind, and no query finds it inconsistent. -/
theorem classified (t : TypeID) : Classified types t := .of_one (h.count_kinds hs t)

/-- A blueprint that is no relic with inventions has a technology. -/
theorem exists_getBPTechLevel {r : Registration} (hr : r ∈ rs)
    (hrelic : ¬ (r.relic = true ∧ r.inventions ≠ [])) :
    ∃ level, types.getBPTechLevel r.blueprint = .ok level := by
  have hbp : types.isBP_ r.blueprint = true :=
    decide_eq_true ((h.blueprints _).mpr ⟨r, hr, rfl⟩)
  have hrel : types.isRelic_ r.blueprint = false := by
    rw [← Bool.not_eq_true]
    intro hrel
    obtain ⟨r', hr', hrelic', hne, heq⟩ := (h.ancientRelics _).mp (of_decide_eq_true hrel)
    obtain rfl : r' = r := List.inj_on_of_nodup_map hs.distinct hr' hr heq
    exact hrelic ⟨hrelic', hne⟩
  have hcount := h.count_bp hs r.blueprint hbp
  rw [hrel] at hcount
  rw [Types.getBPTechLevel, checkItem_of_one (h.count_kinds hs _), ok_bind]
  cases h₁ : types.isT1BP_ r.blueprint <;> cases h₂ : types.isT2BP_ r.blueprint <;>
    cases h₃ : types.isT3BP_ r.blueprint <;> simp_all [pure, Except.pure]

/-- A product has a technology. -/
theorem exists_getProductTechLevel {r : Registration} (hr : r ∈ rs) {t : TypeID}
    (hmade : r.product = some t) : ∃ level, types.getProductTechLevel t = .ok level := by
  have hproduct : types.isProduct_ t = true :=
    decide_eq_true ((h.manufacturingOutputs t).mpr ⟨r, hr, hmade⟩)
  obtain ⟨b, hb, hbp, hrel⟩ := h.exists_maker hs hproduct
  have hcount := h.count_bp hs b hbp
  rw [hrel] at hcount
  rw [Types.getProductTechLevel, checkItem_of_one (h.count_kinds hs _), ok_bind, isT1_, isT2_,
    isT3_, Types.madeBy, Types.madeBy, Types.madeBy, hb]
  cases h₁ : types.isT1BP_ b <;> cases h₂ : types.isT2BP_ b <;>
    cases h₃ : types.isT3BP_ b <;> simp_all [pure, Except.pure]

end Tables

/-! ### Any order of the entries -/

/-- Each product is made by one blueprint. -/
def SoleMakers (rs : List Registration) : Prop :=
  ∀ r ∈ rs, ∀ r' ∈ rs, ∀ t, r.product = some t → r'.product = some t → r.blueprint = r'.blueprint

/-- Two tables that answer every query alike. -/
structure SameAnswers (types types' : Types) : Prop where
  isBP : ∀ t, types.isBP t = types'.isBP t
  isT1BP : ∀ t, types.isT1BP t = types'.isT1BP t
  isT2BP : ∀ t, types.isT2BP t = types'.isT2BP t
  isT3BP : ∀ t, types.isT3BP t = types'.isT3BP t
  isRelic : ∀ t, types.isRelic t = types'.isRelic t
  isT1 : ∀ t, types.isT1 t = types'.isT1 t
  isT2 : ∀ t, types.isT2 t = types'.isT2 t
  isT3 : ∀ t, types.isT3 t = types'.isT3 t
  isProduct : ∀ t, types.isProduct t = types'.isProduct t
  isBaseItem : ∀ t, types.isBaseItem t = types'.isBaseItem t
  getBPTechLevel : ∀ t, types.getBPTechLevel t = types'.getBPTechLevel t
  getProductTechLevel : ∀ t, types.getProductTechLevel t = types'.getProductTechLevel t
  /-- The table `getBlueprints` hands out. -/
  getBlueprints : ∀ b, types.bpToProduct.lookup b = types'.bpToProduct.lookup b

/-- A blueprint makes what its registration says. -/
theorem lookup_foldl_register {rs : List Registration}
    (hdistinct : (rs.map Registration.blueprint).Nodup) (b q : TypeID) :
    (rs.foldl register Types.empty).bpToProduct.lookup b = some q ↔
      ∃ r ∈ rs, r.blueprint = b ∧ r.product = some q := by
  induction rs using List.reverseRecOn with
  | nil => simp [Types.empty]
  | append_singleton rs r ih =>
    rw [List.map_append, List.nodup_append] at hdistinct
    rw [List.foldl_append, List.foldl_cons, List.foldl_nil, register_bpToProduct,
      Tables.exists_mem_snoc, ← ih hdistinct.1]
    cases hproduct : r.product with
    | none => simp
    | some productId =>
      rw [Option.elim_some]
      by_cases hb : r.blueprint = b
      · subst hb
        -- nothing was registered for this blueprint before
        have hnone : (rs.foldl register Types.empty).bpToProduct.lookup r.blueprint ≠ some q := by
          intro hq
          obtain ⟨r', hr', heq, -⟩ := (ih hdistinct.1).mp hq
          exact hdistinct.2.2 r'.blueprint (List.mem_map_of_mem hr') r.blueprint (by simp) heq
        simp [hnone]
      · rw [AList.lookup_insert_ne (Ne.symm hb)]
        simp [hb]

theorem Tables.productToBP_eq_some_iff {rs : List Registration} {types : Types}
    (h : Tables rs types) (hsole : SoleMakers rs) {t b : TypeID} :
    types.productToBP t = some b ↔ ∃ r ∈ rs, r.blueprint = b ∧ r.product = some t := by
  constructor
  · exact h.madeBy t b
  · rintro ⟨r, hr, rfl, hmade⟩
    obtain ⟨b', hb'⟩ := Option.isSome_iff_exists.mp (h.made r hr t hmade)
    obtain ⟨r', hr', rfl, hmade'⟩ := h.madeBy t b' hb'
    rw [hb', hsole r' hr' r hr t hmade' hmade]

/-- The order of the registrations does not matter. -/
theorem sameAnswers_of_perm {rs rs' : List Registration} (hperm : rs'.Perm rs)
    (hdistinct : (rs.map Registration.blueprint).Nodup) (hsole : SoleMakers rs) :
    SameAnswers (rs.foldl register Types.empty) (rs'.foldl register Types.empty) := by
  have h := tables_foldl_register rs
  have h' := tables_foldl_register rs'
  have hmem : ∀ P : Registration → Prop, (∃ r ∈ rs, P r) ↔ ∃ r ∈ rs', P r := fun P =>
    exists_congr fun r => and_congr_left' hperm.mem_iff.symm
  have hsole' : SoleMakers rs' := fun r hr r' hr' =>
    hsole r (hperm.mem_iff.mp hr) r' (hperm.mem_iff.mp hr')
  have hlookup : ∀ b, (rs.foldl register Types.empty).bpToProduct.lookup b =
      (rs'.foldl register Types.empty).bpToProduct.lookup b := by
    intro b
    refine Option.ext fun q => ?_
    rw [lookup_foldl_register hdistinct, hmem,
      lookup_foldl_register ((hperm.map Registration.blueprint).nodup_iff.mpr hdistinct)]
  generalize rs.foldl register Types.empty = types at h hlookup
  generalize rs'.foldl register Types.empty = types' at h' hlookup
  -- all tables but the one of `getBlueprints` are the same, and no query looks at that one
  have hblueprints : types.blueprints = types'.blueprints :=
    Finset.ext fun t => (h.blueprints t).trans ((hmem _).trans (h'.blueprints t).symm)
  have houtputs : types.manufacturingOutputs = types'.manufacturingOutputs :=
    Finset.ext fun t =>
      (h.manufacturingOutputs t).trans ((hmem _).trans (h'.manufacturingOutputs t).symm)
  have ht2 : types.t2Blueprints = types'.t2Blueprints :=
    Finset.ext fun t => (h.t2Blueprints t).trans ((hmem _).trans (h'.t2Blueprints t).symm)
  have ht3 : types.t3Blueprints = types'.t3Blueprints :=
    Finset.ext fun t => (h.t3Blueprints t).trans ((hmem _).trans (h'.t3Blueprints t).symm)
  have hrelics : types.ancientRelics = types'.ancientRelics :=
    Finset.ext fun t => (h.ancientRelics t).trans ((hmem _).trans (h'.ancientRelics t).symm)
  have hmakers : types.productToBP = types'.productToBP := by
    funext t
    refine Option.ext fun b => ?_
    rw [h.productToBP_eq_some_iff hsole, hmem, h'.productToBP_eq_some_iff hsole']
  obtain ⟨blueprints, outputs, t2, relics, t3, products, makers⟩ := types
  obtain ⟨blueprints', outputs', t2', relics', t3', products', makers'⟩ := types'
  obtain rfl : blueprints = blueprints' := hblueprints
  obtain rfl : outputs = outputs' := houtputs
  obtain rfl : t2 = t2' := ht2
  obtain rfl : t3 = t3' := ht3
  obtain rfl : relics = relics' := hrelics
  obtain rfl : makers = makers' := hmakers
  exact ⟨fun _ => rfl, fun _ => rfl, fun _ => rfl, fun _ => rfl, fun _ => rfl, fun _ => rfl,
    fun _ => rfl, fun _ => rfl, fun _ => rfl, fun _ => rfl, fun _ => rfl, fun _ => rfl, hlookup⟩

end Types

/-! ### Catalogues -/

section Catalogue

variable {N K : Type} [Document N K]

/-- Entries that can be read can be read in any order. -/
theorem mapM_readRegistration_perm {groups : Groups} {catalogue catalogue' : List (TypeID × N)}
    (hperm : catalogue'.Perm catalogue) {rs : List Registration}
    (hread : catalogue.mapM (readRegistration groups) = .ok rs) :
    ∃ rs', catalogue'.mapM (readRegistration groups) = .ok rs' ∧ rs'.Perm rs := by
  rw [mapM_eq_ok_iff] at hread
  obtain ⟨rs', hread', hrs⟩ := List.perm_comp_forall₂ hperm hread
  exact ⟨rs', mapM_eq_ok_iff.mpr hread', hrs⟩

/-- **The queries answer, whatever the order of the entries.** -/
theorem classes_of_catalogue {groups : Groups} {catalogue : List (TypeID × N)}
    {rs : List Registration} (hread : catalogue.mapM (readRegistration groups) = .ok rs)
    (hseparate : Separate rs) :
    ∃ types, registerAll groups Types.empty catalogue = .ok types ∧
      (∀ t, types.Classified t) ∧
      (∀ r ∈ rs, ¬ (r.relic = true ∧ r.inventions ≠ []) →
        ∃ level, types.getBPTechLevel r.blueprint = .ok level) ∧
      (∀ r ∈ rs, ∀ t, r.product = some t → ∃ level, types.getProductTechLevel t = .ok level) ∧
      (Types.SoleMakers rs → ∀ catalogue' : List (TypeID × N), catalogue'.Perm catalogue →
        ∃ types', registerAll groups Types.empty catalogue' = .ok types' ∧
          types.SameAnswers types') := by
  have htables := Types.tables_foldl_register rs
  refine ⟨rs.foldl Types.register Types.empty, ?_, htables.classified hseparate, ?_, ?_, ?_⟩
  · rw [registerAll_eq, hread]
    rfl
  · intro r hr hrelic
    exact htables.exists_getBPTechLevel hseparate hr hrelic
  · intro r hr t hmade
    exact htables.exists_getProductTechLevel hseparate hr hmade
  · intro hsole catalogue' hperm
    obtain ⟨rs', hread', hrs⟩ := mapM_readRegistration_perm hperm hread
    refine ⟨rs'.foldl Types.register Types.empty, ?_,
      Types.sameAnswers_of_perm hrs hseparate.distinct hsole⟩
    rw [registerAll_eq, hread']
    rfl

end Catalogue

/-! ### A blueprint, what it leads to, and a relic -/

/-- A node with an id. -/
def idNode (id : ℚ) : Doc := .map [("typeID", .number id)]

/-- An entry of a catalogue with a product and inventions. -/
def entryOf (blueprintId : ℚ) (products inventions : List ℚ) : Doc :=
  .map [("blueprintTypeID", .number blueprintId), ("activities", .map [
    ("manufacturing", .map [("products", .sequence (products.map idNode))]),
    ("invention", .map [("products", .sequence (inventions.map idNode))])])]

/-- A blueprint of the first technology, the one it leads to, and a relic. -/
def threeEntries : List (TypeID × Doc) :=
  [(10, entryOf 10 [20] [11]), (11, entryOf 11 [21] []), (12, entryOf 12 [] [13])]

/-- Only the relic is in a group of relics. -/
def relicGroup : Groups := fun id => if id = 12 then some 990 else none

/-- What the entries say. -/
def threeRegistrations : List Registration :=
  [⟨10, some 20, false, [11]⟩, ⟨11, some 21, false, []⟩, ⟨12, none, true, [13]⟩]

theorem classes_of_catalogue_three :
    ∃ types, registerAll relicGroup Types.empty threeEntries = .ok types ∧
      (∀ t, types.Classified t) ∧ types.getBPTechLevel 11 = .ok .T2 ∧
      ∃ types', registerAll relicGroup Types.empty threeEntries.reverse = .ok types' ∧
        types.SameAnswers types' := by
  have hseparate : Separate threeRegistrations := by
    constructor <;> decide
  have hsole : Types.SoleMakers threeRegistrations := by
    have hsame : ∀ r ∈ threeRegistrations, ∀ r' ∈ threeRegistrations, r.product ≠ none →
        r.product = r'.product → r.blueprint = r'.blueprint := by decide
    intro r hr r' hr' t ht ht'
    exact hsame r hr r' hr' (by simp [ht]) (ht.trans ht'.symm)
  have hread : threeEntries.mapM (readRegistration relicGroup) = .ok threeRegistrations := rfl
  obtain ⟨types, hrun, hclassified, -, -, hperm⟩ := classes_of_catalogue hread hseparate
  refine ⟨types, hrun, hclassified, ?_, hperm hsole _ (List.reverse_perm _)⟩
  obtain rfl : _ = types := Except.ok.inj hrun
  rfl

end Industry
end EveIndustryPlanner
