import EveIndustryPlanner.Industry.Document
import Mathlib

/-!
# Types

Which ids are blueprints, of which technology, and what they make.  The tables
are filled by registering one blueprint after the other; a blueprint may make
another one a blueprint of the second or third technology by its inventions.

## Main definitions

* `Types`, `Types.registerBlueprint` — the tables.
* `Types.checkItem` — an id is one kind of thing.
* `Types.getBPTechLevel`, `Types.getProductTechLevel` — the technology of a blueprint, and of
  a product.
* `product?` — what a blueprint is registered to make.
* `Registers` — the last entry of a catalogue for a blueprint.

## Main results

* `Types.registerBlueprint_ok` — what registering a blueprint changes.
* `Registers.snoc` — one more entry.
-/

namespace EveIndustryPlanner
namespace Industry

/-- The groups of the types. -/
abbrev Groups := TypeID → Option ℕ

/-- The technology of a blueprint. -/
inductive TechLevel where
  | T1
  | T2
  | T3
  deriving DecidableEq, Repr

/-- The text of a technology. -/
def TechLevel.toString : TechLevel → String
  | T1 => "T1"
  | T2 => "T2"
  | T3 => "T3"

/-- The tables of types. -/
structure Types where
  blueprints : Finset TypeID
  manufacturingOutputs : Finset TypeID
  t2Blueprints : Finset TypeID
  ancientRelics : Finset TypeID
  t3Blueprints : Finset TypeID
  bpToProduct : AList fun _ : TypeID => TypeID
  productToBP : TypeID → Option TypeID

namespace Types

/-- Nothing registered yet. -/
def empty : Types := ⟨∅, ∅, ∅, ∅, ∅, ∅, fun _ => none⟩

/-! ### Kinds of ids -/

section Kinds

variable (types : Types) (t : TypeID)

def isBP_ : Bool := t ∈ types.blueprints

def isT2BP_ : Bool := t ∈ types.t2Blueprints

def isT3BP_ : Bool := t ∈ types.t3Blueprints

def isRelic_ : Bool := t ∈ types.ancientRelics

/-- A blueprint of the first technology need not have inventions. -/
def isT1BP_ : Bool := types.isBP_ t && !types.isT2BP_ t && !types.isT3BP_ t && !types.isRelic_ t

/-- What makes the id is of some kind. -/
def madeBy (isKind : TypeID → Bool) : Bool := (types.productToBP t).any isKind

def isT1_ : Bool := types.madeBy t types.isT1BP_

def isT2_ : Bool := types.madeBy t types.isT2BP_

def isT3_ : Bool := types.madeBy t types.isT3BP_

def isProduct_ : Bool := t ∈ types.manufacturingOutputs

def isBaseItem_ : Bool := !types.isBP_ t && !types.isProduct_ t

/-- The kinds an id may be of. -/
def kinds : List Bool :=
  [types.isBaseItem_ t, types.isT1_ t && types.isProduct_ t, types.isT2_ t && types.isProduct_ t,
    types.isT3_ t && types.isProduct_ t, types.isT1BP_ t && types.isBP_ t,
    types.isT2BP_ t && types.isBP_ t, types.isT3BP_ t && types.isBP_ t,
    types.isRelic_ t && types.isBP_ t]

/-- An id is of exactly one kind. -/
def checkItem : Except Failure Unit :=
  if (types.kinds t).count true = 1 then .ok () else .error .inconsistentItem

/-- Ask for a kind of a checked id. -/
def checked (isKind : TypeID → Bool) : Except Failure Bool := do
  types.checkItem t
  return isKind t

def isBP : Except Failure Bool := types.checked t types.isBP_

def isT1BP : Except Failure Bool := types.checked t types.isT1BP_

def isT2BP : Except Failure Bool := types.checked t types.isT2BP_

def isT3BP : Except Failure Bool := types.checked t types.isT3BP_

def isRelic : Except Failure Bool := types.checked t types.isRelic_

def isT1 : Except Failure Bool := types.checked t types.isT1_

def isT2 : Except Failure Bool := types.checked t types.isT2_

def isT3 : Except Failure Bool := types.checked t types.isT3_

def isProduct : Except Failure Bool := types.checked t types.isProduct_

def isBaseItem : Except Failure Bool := types.checked t types.isBaseItem_

/-- The technology of a blueprint. -/
def getBPTechLevel : Except Failure TechLevel := do
  types.checkItem t
  if types.isT1BP_ t then return .T1
  else if types.isT2BP_ t then return .T2
  else if types.isT3BP_ t then return .T3
  else throw (.noBlueprint t)

/-- The technology of what makes a product. -/
def getProductTechLevel : Except Failure TechLevel := do
  types.checkItem t
  if types.isT1_ t then return .T1
  else if types.isT2_ t then return .T2
  else if types.isT3_ t then return .T3
  else throw (.noProduct t)

end Kinds

variable {types : Types} {t : TypeID}

theorem isT1BP_of_techLevel {level : TechLevel} (h : types.getBPTechLevel t = .ok level) :
    types.isT1BP t = .ok (decide (level = .T1)) := by
  obtain ⟨⟨⟩, hcheck, h⟩ := bind_eq_ok h
  -- both lookups made the same check
  rw [isT1BP, checked, hcheck]
  split at h
  · next hT1 =>
    obtain rfl := Except.ok.inj h
    simp [hT1]
  · next hT1 =>
    have hlevel : level ≠ .T1 := by
      rintro rfl
      split at h
      · exact absurd h (by simp [pure, Except.pure])
      · split at h
        · exact absurd h (by simp [pure, Except.pure])
        · exact absurd h (by simp [throw, throwThe, MonadExceptOf.throw])
    simp [hT1, hlevel]

/-- No lookup of a kind fails for a missing job value. -/
theorem isT1BP_ne_noJobValue (id : TypeID) : types.isT1BP t ≠ .error (.noJobValue id) := by
  unfold isT1BP checked checkItem
  split
  · simp
  · simp

end Types

/-! ### Registering blueprints -/

section Register

variable {N K : Type} [Document N K]

/-- A value, unless the reader threw. -/
def tryRead {α : Type} : Except Failure α → Except Failure (Option α)
  | .ok a => .ok (some a)
  | .error (.yaml _) => .ok none
  | .error e => .error e

/-- The id of the first product. -/
def manufacturingProduct (activities : N) : Except Failure TypeID := do
  let manufacturing ← field activities "manufacturing"
  let products ← field manufacturing "products"
  let product ← first products
  asUnsigned (← field product "typeID")

/-- Ancient relics are known by their group. -/
def isAncientRelic (b : N) (groups : Groups) : Except Failure Bool := do
  let id ← asUnsigned (← field b "blueprintTypeID")
  return (groups id).any fun group => group ∈ [971, 990, 991, 992, 993, 997]

/-- The products of the inventions; none if there are no inventions. -/
def getInventionProducts (activities : N) : Except Failure (List N) :=
  match (do field (← field activities "invention") "products") with
  | .ok products => .ok (items products)
  -- only the exception of a missing node is caught here
  | .error (.yaml .invalidNode) => .ok []
  | .error e => .error e

/-- A blueprint makes a product. -/
def Types.registerProduct (types : Types) (blueprintId productId : TypeID) : Types :=
  { types with
    manufacturingOutputs := insert productId types.manufacturingOutputs
    bpToProduct := types.bpToProduct.insert blueprintId productId
    productToBP := Function.update types.productToBP productId (some blueprintId) }

/-- A blueprint, or a relic, leads to another blueprint. -/
def Types.registerInvention (relic : Bool) (blueprintId : TypeID) (types : Types)
    (productNode : N) : Except Failure Types := do
  match ← tryRead (do asUnsigned (← field productNode "typeID")) with
  | some productId =>
    if relic then
      return { types with
        ancientRelics := insert blueprintId types.ancientRelics
        t3Blueprints := insert productId types.t3Blueprints }
    else return { types with t2Blueprints := insert productId types.t2Blueprints }
  | none => return types

/-- Register a blueprint with what it makes and what it leads to. -/
def Types.registerBlueprint (groups : Groups) (types : Types) (blueprintId : TypeID) (b : N) :
    Except Failure Types := do
  let types := { types with blueprints := insert blueprintId types.blueprints }
  let activities ← field b "activities"
  let product ← tryRead (manufacturingProduct activities)
  let types := (product.map (types.registerProduct blueprintId)).getD types
  let relic ← isAncientRelic b groups
  let products ← getInventionProducts activities
  products.foldlM (Types.registerInvention relic blueprintId) types

/-- What a blueprint is registered to make. -/
def product? (b : N) : Option TypeID :=
  match (do manufacturingProduct (← field b "activities")) with
  | .ok productId => some productId
  | .error _ => none

theorem tryRead_ok {α : Type} {x : Except Failure α} {o : Option α} (h : tryRead x = .ok o) :
    o = x.toOption := by
  cases x with
  | ok a =>
    obtain rfl := Except.ok.inj h
    rfl
  | error e =>
    cases e with
    | yaml e =>
      obtain rfl := Except.ok.inj h
      rfl
    | noName t => exact absurd h (by simp [tryRead])
    | noJobValue t => exact absurd h (by simp [tryRead])
    | inconsistentItem => exact absurd h (by simp [tryRead])
    | noBlueprint t => exact absurd h (by simp [tryRead])
    | noProduct t => exact absurd h (by simp [tryRead])

theorem Types.registerInvention_ok {relic : Bool} {blueprintId : TypeID} {types types' : Types}
    {productNode : N} (h : types.registerInvention relic blueprintId productNode = .ok types') :
    types'.bpToProduct = types.bpToProduct ∧ types'.blueprints = types.blueprints := by
  obtain ⟨o, -, h⟩ := bind_eq_ok h
  cases o with
  | none =>
    obtain rfl := Except.ok.inj h
    exact ⟨rfl, rfl⟩
  | some productId =>
    simp only at h
    split at h
    · obtain rfl := Except.ok.inj h
      exact ⟨rfl, rfl⟩
    · obtain rfl := Except.ok.inj h
      exact ⟨rfl, rfl⟩

/-- Inventions leave what blueprints make alone. -/
theorem Types.foldlM_registerInvention_ok {relic : Bool} {blueprintId : TypeID}
    {types types' : Types} {products : List N}
    (h : products.foldlM (Types.registerInvention relic blueprintId) types = .ok types') :
    types'.bpToProduct = types.bpToProduct ∧ types'.blueprints = types.blueprints :=
  foldlM_invariant
    (P := fun t => t.bpToProduct = types.bpToProduct ∧ t.blueprints = types.blueprints)
    (by
      intro t productNode t' ht hstep
      obtain ⟨h₁, h₂⟩ := Types.registerInvention_ok hstep
      exact ⟨h₁.trans ht.1, h₂.trans ht.2⟩) ⟨rfl, rfl⟩ h

/-- What registering a blueprint changes. -/
theorem Types.registerBlueprint_ok {groups : Groups} {types types' : Types} {blueprintId : TypeID}
    {b : N} (h : types.registerBlueprint groups blueprintId b = .ok types') :
    (types'.bpToProduct = match product? b with
      | some productId => types.bpToProduct.insert blueprintId productId
      | none => types.bpToProduct) ∧
      types'.blueprints = insert blueprintId types.blueprints := by
  obtain ⟨activities, hactivities, h⟩ := bind_eq_ok h
  obtain ⟨product, hproduct, h⟩ := bind_eq_ok h
  obtain ⟨relic, -, h⟩ := bind_eq_ok h
  obtain ⟨products, -, h⟩ := bind_eq_ok h
  -- an exception that is caught counts as no product
  have hread : product? b = product := by
    rw [tryRead_ok hproduct, product?, hactivities, ok_bind]
    cases manufacturingProduct activities with
    | ok productId => rfl
    | error e => rfl
  obtain ⟨hbpToProduct, hblueprints⟩ := Types.foldlM_registerInvention_ok h
  rw [hbpToProduct, hblueprints, hread]
  cases product with
  | none => exact ⟨rfl, rfl⟩
  | some productId => exact ⟨rfl, rfl⟩

/-! ### Catalogues -/

/-- The last entry of a blueprint that makes something makes the product. -/
def Registers (catalogue : List (TypeID × N)) (blueprintId productId : TypeID) : Prop :=
  ∃ before b after, catalogue = before ++ (blueprintId, b) :: after ∧
    product? b = some productId ∧ ∀ e ∈ after, e.1 = blueprintId → product? e.2 = none

theorem not_registers_nil {blueprintId productId : TypeID} :
    ¬ Registers ([] : List (TypeID × N)) blueprintId productId := by
  rintro ⟨before, b, after, h, -⟩
  exact absurd h.symm (by simp)

/-- One more entry. -/
theorem Registers.snoc {catalogue : List (TypeID × N)} {e : TypeID × N}
    {blueprintId productId : TypeID} :
    Registers (catalogue ++ [e]) blueprintId productId ↔
      (e.1 = blueprintId ∧ product? e.2 = some productId) ∨
        ((e.1 = blueprintId → product? e.2 = none) ∧
          Registers catalogue blueprintId productId) := by
  constructor
  · rintro ⟨before, b, after, h, hb, hafter⟩
    -- the last registration is the new entry, or the new entry registers nothing
    cases after using List.reverseRecOn with
    | nil =>
      obtain ⟨-, he⟩ := List.append_inj' h rfl
      obtain rfl := (List.cons.inj he).1
      exact Or.inl ⟨rfl, hb⟩
    | append_singleton after e' =>
      have h' : catalogue ++ [e] = (before ++ (blueprintId, b) :: after) ++ [e'] := by
        rw [h]
        simp
      obtain ⟨hcatalogue, he⟩ := List.append_inj' h' rfl
      obtain rfl := (List.cons.inj he).1
      refine Or.inr ⟨hafter e (by simp), before, b, after, hcatalogue, hb, ?_⟩
      intro e' he'
      exact hafter e' (List.mem_append_left _ he')
  · rintro (⟨rfl, hb⟩ | ⟨hlast, before, b, after, rfl, hb, hafter⟩)
    · exact ⟨catalogue, e.2, [], rfl, hb, by simp⟩
    · refine ⟨before, b, after ++ [e], by simp, hb, ?_⟩
      intro e' he'
      rcases List.mem_append.mp he' with he' | he'
      · exact hafter e' he'
      · obtain rfl := List.mem_singleton.mp he'
        exact hlast

/-- Registering one more entry keeps the table in step with the catalogue. -/
theorem Registers.registerBlueprint {groups : Groups} {types types' : Types}
    {catalogue : List (TypeID × N)} {e : TypeID × N}
    (htypes : ∀ b q, types.bpToProduct.lookup b = some q ↔ Registers catalogue b q)
    (h : types.registerBlueprint groups e.1 e.2 = .ok types') (b q : TypeID) :
    types'.bpToProduct.lookup b = some q ↔ Registers (catalogue ++ [e]) b q := by
  rw [Registers.snoc, (Types.registerBlueprint_ok h).1]
  cases hproduct : product? e.2 with
  | none =>
    simp [htypes]
  | some productId =>
    by_cases hb : e.1 = b
    · subst hb
      simp
    · rw [AList.lookup_insert_ne (Ne.symm hb), htypes]
      simp [hb]

end Register

end Industry
end EveIndustryPlanner
