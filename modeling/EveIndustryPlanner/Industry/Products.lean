import EveIndustryPlanner.Industry.Document

/-!
# Products and what they are worth

A blueprint is collected if its data are complete and all its materials have an
average price.  The value of a product is that of its materials, in adjusted
prices; job values are looked up by the product or by the blueprint.

## Main definitions

* `Production`, `addManufacturingData` — what blueprints make.
* `inputValues` — the values of the materials.
* `setJobValues` — the values of the jobs.

## Main results

* `inputValues_isSome_iff` — **a product has a value exactly if some entry for it
  has adjusted prices of all materials.**
* `setJobValues_isSome_iff` — **an id has a job value exactly if it is a product
  with a value or a blueprint for one.**
-/

namespace EveIndustryPlanner
namespace Industry

/-- A product that can be made. -/
structure Production (K : Type) where
  blueprint : TypeID
  product : TypeID
  producedQuantity : ℕ
  materials : Materials
  skills : SkillRequirements
  /-- In seconds. -/
  duration : K

/-! ### Collecting -/

section Collecting

variable {N K : Type} [Document N K] [Field K]

/-- The factor that skills make of the time of a job. -/
def getManufacturingTimeMod (required : SkillRequirements) (skills : Skills K) : K :=
  required.foldl (fun manufacturingTimeMod s =>
    if skills.advancedScienceSkills s.1 || skills.racialEncryptionSkills s.1 ||
        skills.manufacturingTimeModifierSkills s.1 then
      manufacturingTimeMod * (1 - (skills.getSkillLevel s.1 : K) * (1 / 100))
    else manufacturingTimeMod) 1

/-- The materials a node lists. -/
def makeMaterials (materialsNode : N) : Except Failure Materials :=
  (items materialsNode).mapM (readPair "quantity")

/-- All materials have a price. -/
def isPricable (materials : Materials) (prices : Prices K) : Bool :=
  materials.all fun m => (prices m.1).isSome

/-- What a blueprint makes, if its data are complete and its materials have prices. -/
def manufacture (avgPrices : Prices K) (skills : Skills K) (manufacturing : N)
    (blueprintId : TypeID) : Except Failure (Option (Production K)) :=
  if !isDefined manufacturing then .ok none
  else do
    let productsNode ← field manufacturing "products"
    if !isDefined productsNode then return none
    else if size productsNode ≠ 1 then return none
    else do
      let productNode ← first productsNode
      let productId ← asUnsigned (← field productNode "typeID")
      let productQuantity ← asUnsigned (← field productNode "quantity")
      let materialsNode ← field manufacturing "materials"
      if !isDefined materialsNode then return none
      else do
        let timeNode ← field manufacturing "time"
        if !isDefined timeNode then return none
        else do
          let t ← asInt timeNode
          let skillsNode ← field manufacturing "skills"
          if !isDefined skillsNode then return none
          else do
            let required ← makeRequiredSkills skillsNode
            let manufacturingTimeMod :=
              skills.manufacturingTimeReduction * getManufacturingTimeMod required skills
            let materials ← makeMaterials materialsNode
            if !isPricable materials avgPrices then return none
            else return some ⟨blueprintId, productId, productQuantity, materials, required,
              manufacturingTimeMod * t⟩

/-- Collect what a blueprint makes. -/
def addManufacturingData (avgPrices : Prices K) (skills : Skills K) (manufacturing : N)
    (blueprintId : TypeID) (products : List (Production K)) :
    Except Failure (List (Production K)) := do
  let p ← manufacture avgPrices skills manufacturing blueprintId
  return products ++ p.toList

/-- The blueprint and the prices of what is collected. -/
theorem manufacture_ok {avgPrices : Prices K} {skills : Skills K} {manufacturing : N}
    {blueprintId : TypeID} {p : Production K}
    (h : manufacture avgPrices skills manufacturing blueprintId = .ok (some p)) :
    p.blueprint = blueprintId ∧ isPricable p.materials avgPrices = true := by
  -- every way out but the last collects nothing
  have hnone : ∀ {q : Option (Production K)}, (Except.ok none : Except Failure _) = .ok q →
      q ≠ some p := by
    intro q hq
    obtain rfl := Except.ok.inj hq
    simp
  unfold manufacture at h
  split at h
  · exact absurd rfl (hnone h)
  obtain ⟨productsNode, -, h⟩ := bind_eq_ok h
  split at h
  · exact absurd rfl (hnone h)
  split at h
  · exact absurd rfl (hnone h)
  obtain ⟨productNode, -, h⟩ := bind_eq_ok h
  obtain ⟨typeNode, -, h⟩ := bind_eq_ok h
  obtain ⟨productId, -, h⟩ := bind_eq_ok h
  obtain ⟨quantityNode, -, h⟩ := bind_eq_ok h
  obtain ⟨productQuantity, -, h⟩ := bind_eq_ok h
  obtain ⟨materialsNode, -, h⟩ := bind_eq_ok h
  split at h
  · exact absurd rfl (hnone h)
  obtain ⟨timeNode, -, h⟩ := bind_eq_ok h
  split at h
  · exact absurd rfl (hnone h)
  obtain ⟨t, -, h⟩ := bind_eq_ok h
  obtain ⟨skillsNode, -, h⟩ := bind_eq_ok h
  split at h
  · exact absurd rfl (hnone h)
  obtain ⟨required, -, h⟩ := bind_eq_ok h
  obtain ⟨materials, -, h⟩ := bind_eq_ok h
  split at h
  · exact absurd rfl (hnone h)
  · next hpriced =>
    obtain rfl := Option.some.inj (Except.ok.inj h)
    exact ⟨rfl, by simpa using hpriced⟩

end Collecting

/-! ### Values -/

section Values

variable {K : Type} [Field K]

/-- The value of some materials; none if one has no price. -/
def inputValue (materials : Materials) (adjPrices : Prices K) : Option K :=
  materials.foldlM (fun iv m => (adjPrices m.1).map fun price => iv + (m.2 : K) * price) 0

/-- The values of the materials of each product; a later entry for a product
overwrites an earlier one. -/
def inputValues (products : List (Production K)) (adjPrices : Prices K) : TypeID → Option K :=
  products.foldl (fun iv p =>
    match inputValue p.materials adjPrices with
    | some v => Function.update iv p.product (some v)
    | none => iv) fun _ => none

/-- The values of the jobs, over the entries of `bpToProduct` in some order. -/
def setJobValues (inputValues : TypeID → Option K) (bpToProduct : List (TypeID × TypeID)) :
    TypeID → Option K :=
  bpToProduct.foldl (fun jobValues e =>
    match inputValues e.2 with
    | some inputValue =>
      Function.update (Function.update jobValues e.2 (some inputValue)) e.1
        (some (1 / 50 * inputValue))
    | none => jobValues) fun _ => none

theorem foldlM_inputValue_isSome (materials : Materials) (adjPrices : Prices K) (v : K) :
    (materials.foldlM (fun iv m => (adjPrices m.1).map fun price => iv + (m.2 : K) * price) v).isSome =
      isPricable materials adjPrices := by
  induction materials generalizing v with
  | nil => rfl
  | cons m materials ih =>
    rw [List.foldlM_cons, isPricable, List.all_cons]
    cases hprice : adjPrices m.1 with
    | none => rfl
    | some price =>
      simp only [Option.map_some, Option.bind_eq_bind, Option.bind_some, Option.isSome_some,
        Bool.true_and]
      exact ih _

/-- Materials have a value exactly if all of them have a price. -/
theorem inputValue_isSome (materials : Materials) (adjPrices : Prices K) :
    (inputValue materials adjPrices).isSome = isPricable materials adjPrices :=
  foldlM_inputValue_isSome materials adjPrices 0

/-- **A product has a value exactly if some entry for it has adjusted prices of all
materials.** -/
theorem inputValues_isSome_iff {products : List (Production K)} {adjPrices : Prices K}
    {id : TypeID} :
    (inputValues products adjPrices id).isSome ↔
      ∃ p ∈ products, p.product = id ∧ isPricable p.materials adjPrices = true := by
  -- From the end of the list: the last entry for a product decides.
  induction products using List.reverseRecOn with
  | nil => simp [inputValues]
  | append_singleton products p ih =>
    rw [inputValues, List.foldl_append, List.foldl_cons, List.foldl_nil]
    have hvalue := inputValue_isSome p.materials adjPrices
    have hsnoc : (∃ q ∈ products ++ [p], q.product = id ∧ isPricable q.materials adjPrices = true) ↔
        (inputValues products adjPrices id).isSome ∨
          p.product = id ∧ isPricable p.materials adjPrices = true := by
      rw [ih]
      simp [or_and_right, exists_or]
    rw [hsnoc, inputValues]
    cases hv : inputValue p.materials adjPrices with
    | none =>
      rw [hv] at hvalue
      simp [← hvalue]
    | some v =>
      rw [hv] at hvalue
      by_cases hid : id = p.product
      · -- overwritten, but a value stays a value
        subst hid
        simp [← hvalue]
      · simp [Function.update_of_ne hid, Ne.symm hid]

/-- **An id has a job value exactly if it is a product with a value or a blueprint
for one.** -/
theorem setJobValues_isSome_iff {iv : TypeID → Option K} {bpToProduct : List (TypeID × TypeID)}
    {id : TypeID} :
    (setJobValues iv bpToProduct id).isSome ↔
      ∃ e ∈ bpToProduct, (iv e.2).isSome ∧ (id = e.2 ∨ id = e.1) := by
  induction bpToProduct using List.reverseRecOn with
  | nil => simp [setJobValues]
  | append_singleton bpToProduct e ih =>
    rw [setJobValues, List.foldl_append, List.foldl_cons, List.foldl_nil]
    have hsnoc : (∃ e' ∈ bpToProduct ++ [e], (iv e'.2).isSome ∧ (id = e'.2 ∨ id = e'.1)) ↔
        (setJobValues iv bpToProduct id).isSome ∨
          (iv e.2).isSome ∧ (id = e.2 ∨ id = e.1) := by
      rw [ih]
      simp [or_and_right, exists_or]
    rw [hsnoc, setJobValues]
    cases hv : iv e.2 with
    | none => simp
    | some v =>
      -- the blueprint is written after the product, and both may be the same id
      by_cases hbp : id = e.1
      · subst hbp
        simp
      · by_cases hp : id = e.2
        · subst hp
          simp [Function.update_of_ne hbp]
        · simp [hbp, hp]

end Values

end Industry
end EveIndustryPlanner
