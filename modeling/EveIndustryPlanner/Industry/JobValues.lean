import EveIndustryPlanner.Industry.Manufacturing
import EveIndustryPlanner.Lib.Fill

/-!
# Whose materials a job value is computed from

The value of a blueprint is written under its product first and from there under
the blueprint, in one table for both.  Another blueprint for the product, or an
id that is a product and a blueprint, gets in the way.

## Main definitions

* `materialsValue` — what some materials are worth.
* `OwnValue` — the values of a blueprint and its product come from its materials.
* `Alone` — nothing else decides these values.

## Main results

* `jobValues_own` — **a blueprint that is alone has its own values, in whatever
  order the tables are gone through.**
* `not_jobValues_own` — a second blueprint for the product takes the value over.
-/

namespace EveIndustryPlanner
namespace Industry

/-! ### The tables as writes -/

section Writes

variable {K : Type} [Field K]

/-- The sum over some materials of quantity times price. -/
def materialsValue (materials : Materials) (adjPrices : Prices K) : K :=
  (materials.map fun m => (m.2 : K) * (adjPrices m.1).getD 0).sum

theorem foldlM_inputValue_eq {materials : Materials} {adjPrices : Prices K}
    (h : isPricable materials adjPrices = true) (v : K) :
    materials.foldlM (fun iv m => (adjPrices m.1).map fun price => iv + (m.2 : K) * price) v =
      some (v + materialsValue materials adjPrices) := by
  induction materials generalizing v with
  | nil => simp [materialsValue]
  | cons m materials ih =>
    rw [isPricable, List.all_cons, Bool.and_eq_true] at h
    obtain ⟨price, hprice⟩ := Option.isSome_iff_exists.mp h.1
    rw [List.foldlM_cons, hprice, Option.map_some, Option.bind_eq_bind, Option.bind_some, ih h.2,
      materialsValue, materialsValue, List.map_cons, List.sum_cons, hprice, Option.getD_some,
      add_assoc]

/-- Priced materials have the value that their sum says. -/
theorem inputValue_of_isPricable {materials : Materials} {adjPrices : Prices K}
    (h : isPricable materials adjPrices = true) :
    inputValue materials adjPrices = some (materialsValue materials adjPrices) := by
  rw [inputValue, foldlM_inputValue_eq h, zero_add]

theorem inputValue_eq_none {materials : Materials} {adjPrices : Prices K}
    (h : isPricable materials adjPrices = false) : inputValue materials adjPrices = none := by
  rw [← Option.not_isSome_iff_eq_none, inputValue_isSome, h]
  simp

/-- What is written for an entry of the product list. -/
def inputWrite? (adjPrices : Prices K) (p : Production K) : Option (TypeID × K) :=
  (inputValue p.materials adjPrices).map fun v => (p.product, v)

/-- What is written for an entry of `bpToProduct`; a blueprint has a share of the value of its
product. -/
def jobWrites (share : K) (inputValues : TypeID → Option K) (e : TypeID × TypeID) :
    List (TypeID × K) :=
  match inputValues e.2 with
  | some inputValue => [(e.2, inputValue), (e.1, share * inputValue)]
  | none => []

theorem inputValues_eq_fill (products : List (Production K)) (adjPrices : Prices K) :
    inputValues products adjPrices = fill (products.filterMap (inputWrite? adjPrices)) := by
  induction products using List.reverseRecOn with
  | nil => rfl
  | append_singleton products p ih =>
    rw [inputValues, List.foldl_append, List.foldl_cons, List.foldl_nil, ← inputValues, ih,
      List.filterMap_append]
    cases hv : inputValue p.materials adjPrices with
    | none => simp [inputWrite?, hv]
    | some v =>
      have hwrite : [p].filterMap (inputWrite? adjPrices) = [(p.product, v)] := by
        simp [inputWrite?, hv]
      rw [hwrite, fill_snoc]

theorem setJobValues_eq_fill (iv : TypeID → Option K) (bpToProduct : List (TypeID × TypeID)) :
    setJobValues iv bpToProduct = fill (bpToProduct.flatMap (jobWrites (1 / 50) iv)) := by
  induction bpToProduct using List.reverseRecOn with
  | nil => rfl
  | append_singleton bpToProduct e ih =>
    rw [setJobValues, List.foldl_append, List.foldl_cons, List.foldl_nil, ← setJobValues, ih,
      List.flatMap_append, List.flatMap_singleton]
    cases hv : iv e.2 with
    | none => simp [jobWrites, hv]
    | some v =>
      have hwrites : jobWrites (1 / 50) iv e = [(e.2, v)] ++ [(e.1, 1 / 50 * v)] := by
        rw [jobWrites, hv]
        rfl
      rw [hwrites, ← List.append_assoc, fill_snoc, fill_snoc]

/-- What is written under an id, for one of its roles. -/
theorem mem_jobWrites {share : K} {iv : TypeID → Option K} {bpToProduct : List (TypeID × TypeID)}
    {id : TypeID} {v : K} :
    (id, v) ∈ bpToProduct.flatMap (jobWrites share iv) ↔
      ∃ e ∈ bpToProduct, ∃ w, iv e.2 = some w ∧ (id = e.2 ∧ v = w ∨ id = e.1 ∧ v = share * w) := by
  rw [List.mem_flatMap]
  constructor
  · rintro ⟨e, he, hmem⟩
    cases hv : iv e.2 with
    | none => exact absurd hmem (by simp [jobWrites, hv])
    | some w => exact ⟨e, he, w, hv, by simpa [jobWrites, hv] using hmem⟩
  · rintro ⟨e, he, w, hw, hroles⟩
    exact ⟨e, he, by simpa [jobWrites, hw] using hroles⟩

/-- The value of a product is that of the last entry for it whose materials have
prices. -/
theorem inputValues_of_last {adjPrices : Prices K} (before : List (Production K))
    {after : List (Production K)} {p : Production K} (hp : isPricable p.materials adjPrices = true)
    (hafter : ∀ p' ∈ after, p'.product = p.product → isPricable p'.materials adjPrices = false) :
    inputValues (before ++ p :: after) adjPrices p.product =
      some (materialsValue p.materials adjPrices) := by
  rw [inputValues_eq_fill, fill_eq_some_iff]
  refine ⟨before.filterMap (inputWrite? adjPrices), after.filterMap (inputWrite? adjPrices), ?_, ?_⟩
  · simp [inputWrite?, inputValue_of_isPricable hp]
  · intro w hw
    obtain ⟨p', hp', hw⟩ := List.mem_filterMap.mp hw
    obtain ⟨v, hv, rfl⟩ := Option.map_eq_some_iff.mp hw
    intro hproduct
    rw [inputValue_eq_none (hafter p' hp' hproduct)] at hv
    exact absurd hv (by simp)

end Writes

/-! ### Whose materials decide -/

section Own

variable {N K : Type} [Document N K] [Field K]

/-- The values of a blueprint and of its product come from the blueprint's materials. -/
structure OwnValue (adjPrices : Prices K) (values : TypeID → Option K) (p : Production K) :
    Prop where
  blueprint : isPricable p.materials adjPrices = true →
    values p.blueprint = some (1 / 50 * materialsValue p.materials adjPrices)
  product : isPricable p.materials adjPrices = true →
    values p.product = some (materialsValue p.materials adjPrices)
  unpriced : isPricable p.materials adjPrices = false → values p.blueprint = none

/-- Every entry of the product list has its own values. -/
def OwnValues (inputs : Inputs K) (catalogue : Catalogue N) : Prop :=
  ∀ s, processBlueprints inputs catalogue = .ok s → ∀ order, s.1.IsOrder order →
    ∀ p ∈ s.2.products, OwnValue inputs.adjPrices (jobValues inputs s.2 order) p

/-- Nothing but an entry of the product list decides the values of its blueprint
and its product. -/
structure Alone (inputs : Inputs K) (catalogue : Catalogue N) (before : List (Production K))
    (p : Production K) (after : List (Production K)) : Prop where
  registered : Registers catalogue p.blueprint p.product
  /-- No later entry for the product has prices. -/
  last : ∀ p' ∈ after, p'.product = p.product → isPricable p'.materials inputs.adjPrices = false
  /-- An entry without prices is not the one that counts. -/
  unpriced : isPricable p.materials inputs.adjPrices = false →
    ∀ p' ∈ before, p'.product = p.product → isPricable p'.materials inputs.adjPrices = false
  /-- The blueprint is not a product with a value. -/
  blueprint : ∀ b, Registers catalogue b p.blueprint → ¬ Valued inputs catalogue p.blueprint
  /-- The product is not a blueprint for a product with a value. -/
  product : isPricable p.materials inputs.adjPrices = true →
    ∀ q, Registers catalogue p.product q → ¬ Valued inputs catalogue q

section Writes

variable {inputs : Inputs K} {catalogue : Catalogue N} {s : Types × Jobs K}
  {order : List (TypeID × TypeID)} {before after : List (Production K)} {p : Production K}

theorem mem_order_iff (h : processBlueprints inputs catalogue = .ok s) (horder : s.1.IsOrder order)
    {b q : TypeID} : (b, q) ∈ order ↔ Registers catalogue b q := by
  rw [horder.mem_iff, (Processed.processBlueprints h).bpToProduct]

/-- A product with a value is one that the catalogue has prices for. -/
theorem valued_of_inputValues (h : processBlueprints inputs catalogue = .ok s) {q : TypeID} {w : K}
    (hw : inputValues s.2.products inputs.adjPrices q = some w) : Valued inputs catalogue q := by
  rw [← (Processed.processBlueprints h).inputValues_isSome_iff, hw]
  rfl

namespace Alone

/-- Nothing is written under the blueprint but from its product. -/
theorem eq_of_mem_blueprint (halone : Alone inputs catalogue before p after)
    (h : processBlueprints inputs catalogue = .ok s) (horder : s.1.IsOrder order) {v : K}
    (hv : (p.blueprint, v) ∈
      order.flatMap (jobWrites (1 / 50) (inputValues s.2.products inputs.adjPrices))) :
    ∃ w, inputValues s.2.products inputs.adjPrices p.product = some w ∧ v = 1 / 50 * w := by
  obtain ⟨⟨b, q⟩, he, w, hw, ⟨hid, hvalue⟩ | ⟨hid, hvalue⟩⟩ := mem_jobWrites.mp hv
  · simp only at hid hw
    rw [← hid] at he hw
    exact absurd (valued_of_inputValues h hw) (halone.blueprint b ((mem_order_iff h horder).mp he))
  · simp only at hid hw
    rw [← hid] at he
    -- a blueprint is registered for one product
    have hlookup := horder.mem_iff.mp ((mem_order_iff h horder).mpr halone.registered)
    rw [horder.mem_iff.mp he] at hlookup
    obtain rfl := Option.some.inj hlookup
    exact ⟨w, hw, hvalue⟩

/-- Nothing is written under the product but its own value. -/
theorem eq_of_mem_product (halone : Alone inputs catalogue before p after)
    (h : processBlueprints inputs catalogue = .ok s) (horder : s.1.IsOrder order)
    (hpriced : isPricable p.materials inputs.adjPrices = true) {v : K}
    (hv : (p.product, v) ∈
      order.flatMap (jobWrites (1 / 50) (inputValues s.2.products inputs.adjPrices))) :
    inputValues s.2.products inputs.adjPrices p.product = some v := by
  obtain ⟨⟨b, q⟩, he, w, hw, ⟨hid, rfl⟩ | ⟨hid, -⟩⟩ := mem_jobWrites.mp hv
  · simp only at hid hw
    rw [hid, hw]
  · simp only at hid hw
    rw [← hid] at he
    exact absurd (valued_of_inputValues h hw)
      (halone.product hpriced q ((mem_order_iff h horder).mp he))

/-- Without prices nothing is written under the product. -/
theorem inputValues_eq_none (halone : Alone inputs catalogue before p after)
    (hp : isPricable p.materials inputs.adjPrices = false) :
    inputValues (before ++ p :: after) inputs.adjPrices p.product = none := by
  rw [← Option.not_isSome_iff_eq_none, inputValues_isSome_iff]
  rintro ⟨p', hmem, hproduct, hpriced⟩
  have hno : isPricable p'.materials inputs.adjPrices = false := by
    rcases List.mem_append.mp hmem with hmem | hmem
    · exact halone.unpriced hp p' hmem hproduct
    · rcases List.mem_cons.mp hmem with rfl | hmem
      · exact hp
      · exact halone.last p' hmem hproduct
  rw [hno] at hpriced
  exact absurd hpriced (by simp)

end Alone

end Writes

/-- **A blueprint that is alone has its own values**, in whatever order the tables
are gone through. -/
theorem jobValues_own {inputs : Inputs K} {catalogue : Catalogue N} {s : Types × Jobs K}
    (h : processBlueprints inputs catalogue = .ok s) {order : List (TypeID × TypeID)}
    (horder : s.1.IsOrder order) {before after : List (Production K)} {p : Production K}
    (hp : s.2.products = before ++ p :: after) (halone : Alone inputs catalogue before p after) :
    OwnValue inputs.adjPrices (jobValues inputs s.2 order) p := by
  have hentry : (p.blueprint, p.product) ∈ order :=
    (mem_order_iff h horder).mpr halone.registered
  rw [jobValues, setJobValues_eq_fill]
  cases hpriced : isPricable p.materials inputs.adjPrices with
  | true =>
    have hvalue := inputValues_of_last before hpriced halone.last
    rw [← hp] at hvalue
    refine ⟨fun _ => ?_, fun _ => ?_, fun hno => absurd (hpriced.symm.trans hno) (by simp)⟩
    · refine fill_eq_some_of_agree (mem_jobWrites.mpr ⟨_, hentry, _, hvalue, Or.inr ⟨rfl, rfl⟩⟩) ?_
      intro v hv
      obtain ⟨w, hw, rfl⟩ := halone.eq_of_mem_blueprint h horder hv
      rw [hvalue] at hw
      rw [← Option.some.inj hw]
    · refine fill_eq_some_of_agree (mem_jobWrites.mpr ⟨_, hentry, _, hvalue, Or.inl ⟨rfl, rfl⟩⟩) ?_
      intro v hv
      have hw := halone.eq_of_mem_product h horder hpriced hv
      rw [hvalue] at hw
      exact (Option.some.inj hw).symm
  | false =>
    have hnone := halone.inputValues_eq_none hpriced
    rw [← hp] at hnone
    refine ⟨fun hyes => absurd (hpriced.symm.trans hyes) (by simp),
      fun hyes => absurd (hpriced.symm.trans hyes) (by simp), fun _ => ?_⟩
    rw [fill_eq_none_iff]
    rintro ⟨id, v⟩ hv rfl
    obtain ⟨w, hw, -⟩ := halone.eq_of_mem_blueprint h horder hv
    rw [hnone] at hw
    exact absurd hw (by simp)

end Own

/-! ### Blueprints of one material -/

/-- A blueprint that makes an item of some materials. -/
def blueprintFor (blueprintId productId : ℚ) (materials : List ℚ) : Doc :=
  .map [("blueprintTypeID", .number blueprintId), ("activities", .map [("manufacturing", .map
    [("products", .sequence [amountOf productId]),
      ("materials", .sequence (materials.map amountOf)), ("time", .number 60),
      ("skills", .sequence [])])])]

/-- What the blueprint of id `10` makes. -/
def firstProduction : Production ℚ := ⟨10, 20, 1, [(30, 1)], [], 1 * 1 * 60⟩

/-- Another blueprint, of twice the materials. -/
def secondProduction (blueprintId productId : TypeID) : Production ℚ :=
  ⟨blueprintId, productId, 1, [(30, 1), (30, 1)], [], 1 * 1 * 60⟩

/-- Two blueprints with different products. -/
theorem jobValues_own_twoProducts :
    ∃ s, processBlueprints (sampleInputs (some 6))
        [(10, blueprintFor 10 20 [30]), (11, blueprintFor 11 21 [30, 30])] = .ok s ∧
      ∀ order, s.1.IsOrder order → OwnValue (sampleInputs (some 6)).adjPrices
        (jobValues (sampleInputs (some 6)) s.2 order) firstProduction := by
  obtain ⟨s, hs, hproducts⟩ : ∃ s, processBlueprints (sampleInputs (some 6))
      [(10, blueprintFor 10 20 [30]), (11, blueprintFor 11 21 [30, 30])] = .ok s ∧
      s.2.products = [] ++ firstProduction :: [secondProduction 11 21] := ⟨_, rfl, rfl⟩
  have hmem : ∀ {b q}, Registers [(10, blueprintFor 10 20 [30]), (11, blueprintFor 11 21 [30, 30])]
      b q → (b, q) ∈ [(10, 20), (11, 21)] := by
    rintro b q ⟨before, d, after, hsplit, hd, -⟩
    have hd' : (b, d) ∈ [(10, blueprintFor 10 20 [30]), (11, blueprintFor 11 21 [30, 30])] := by
      rw [hsplit]
      simp
    rcases List.mem_pair.mp hd' with h | h
    · obtain ⟨rfl, rfl⟩ := Prod.mk.inj h
      obtain rfl : 20 = q := Option.some.inj hd
      simp
    · obtain ⟨rfl, rfl⟩ := Prod.mk.inj h
      obtain rfl : 21 = q := Option.some.inj hd
      simp
  refine ⟨s, hs, fun order horder => jobValues_own hs horder hproducts ?_⟩
  constructor
  case registered => exact ⟨[], _, [_], rfl, rfl, by simp [firstProduction]⟩
  case last => simp [firstProduction, secondProduction]
  case unpriced => simp
  case blueprint =>
    intro b hb
    exact absurd (hmem hb) (by simp [firstProduction])
  case product =>
    intro _ q hq
    exact absurd (hmem hq) (by simp [firstProduction])

/-- A second blueprint for a product takes its value over, and so does an id that is
a product and a blueprint. -/
theorem not_jobValues_own :
    ¬ OwnValues (sampleInputs (some 6))
        [(10, blueprintFor 10 20 [30]), (11, blueprintFor 11 20 [30, 30])] ∧
      ¬ OwnValues (sampleInputs (some 6))
        [(10, blueprintFor 10 20 [30]), (20, blueprintFor 20 40 [30, 30])] := by
  constructor
  · obtain ⟨s, hs, hentries, hproducts⟩ : ∃ s, processBlueprints (sampleInputs (some 6))
        [(10, blueprintFor 10 20 [30]), (11, blueprintFor 11 20 [30, 30])] = .ok s ∧
        s.1.bpToProduct.entries.map (fun e => (e.1, e.2)) = [(11, 20), (10, 20)] ∧
        s.2.products = [firstProduction, secondProduction 11 20] := ⟨_, rfl, rfl, rfl⟩
    intro h
    have hown := (h s hs [(11, 20), (10, 20)] (by rw [Types.IsOrder, hentries]) firstProduction
      (by simp [hproducts])).blueprint rfl
    rw [jobValues, hproducts] at hown
    exact absurd hown (by decide +kernel)
  · obtain ⟨s, hs, hentries, hproducts⟩ : ∃ s, processBlueprints (sampleInputs (some 6))
        [(10, blueprintFor 10 20 [30]), (20, blueprintFor 20 40 [30, 30])] = .ok s ∧
        s.1.bpToProduct.entries.map (fun e => (e.1, e.2)) = [(20, 40), (10, 20)] ∧
        s.2.products = [firstProduction, secondProduction 20 40] := ⟨_, rfl, rfl, rfl⟩
    intro h
    have hown := (h s hs [(10, 20), (20, 40)]
      (by rw [Types.IsOrder, hentries]; exact List.Perm.swap _ _ _) firstProduction
      (by simp [hproducts])).product rfl
    rw [jobValues, hproducts] at hown
    exact absurd hown (by decide +kernel)

end Industry
end EveIndustryPlanner
