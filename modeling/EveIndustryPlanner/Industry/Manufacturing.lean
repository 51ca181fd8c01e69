import EveIndustryPlanner.Industry.Stuff

/-!
# Manufacturing jobs

Every product that is left after the filter and is not ignored becomes a job for
each efficiency of its blueprint.  The fee of a job is a share of the value of
its product, which is looked up without a check; products were let in for their
average prices, but values come from the adjusted ones.

## Main definitions

* `manufacturingJobs`, `getManufacturingJobs` — the jobs.
* `Clear` — a product for which the other lookups succeed.
* `kept` — the products that are turned into jobs.

## Main results

* `productJobs_of_clear`, `productJobs_of_not_clear` — **what the jobs of a
  product depend on.**
* `getManufacturingJobs_ne_noJobValue_iff` — **no job value is missing if and only
  if every product that is reached is covered.**
-/

namespace EveIndustryPlanner
namespace Industry

open Planning

section Jobs

variable {K : Type} [Field K] [LinearOrder K] [FloorRing K] (x : PlannerAndStuff K)

/-- One material of a job. -/
def materialRequirement (me : K) (m : TypeID × ℕ) :
    Except Failure (List (Resource × K)) := do
  let resource ← getResource x m.1
  return [(resource, (⌈me * m.2⌉ : K))]

/-- The name of the job that makes a product from an original. -/
def bpoJobName (techLevel : TechLevel) (pId : TypeID) : String :=
  techLevel.toString ++ "_Produce_BPO_" ++ toString pId

/-- The name of the job that makes a product from a copy. -/
def bpcJobName (techLevel : TechLevel) (bpe : BlueprintEfficiency) (pId : TypeID) : String :=
  techLevel.toString ++ "_Produce_" ++ makeBpeString bpe ++ "_BPC_" ++ toString pId

/-- An original is bought if it has a price up to the limit. -/
def affordable (bp : TypeID) : Bool :=
  (x.avgPrices bp).any fun price => price ≤ x.settings.bpoPriceLimit

/-- The jobs for one efficiency of a blueprint. -/
def manufacturingJobs (p : Production K) (bpe : BlueprintEfficiency) :
    Except Failure (List (Job Resource K)) := do
  let bp := p.blueprint
  let pId := p.product
  let me : K := percent bpe.materialEfficiency
  let te : K := percent bpe.timeEfficiency
  let duration := te * p.duration
  let product ← getResource x pId
  let out := [(product, (p.producedQuantity : K))]
  let inputs ← collectM (materialRequirement x me) p.materials
  let inBPC := inputs ++ [(.productionLineTime, duration)]
  let techLevel ← x.types.getBPTechLevel bp
  let isT1 ← x.types.isT1BP bp
  -- only originals of the first technology can be bought
  let bpoJobs ←
    if isT1 && affordable x bp then do
      let bpo ← getBPO x bp
      let value ← valueAt x pId
      let _ ← x.names.getName pId
      pure [unlimited (inBPC ++ [(bpo, duration)]) out (-value * x.settings.productionTax)
        (bpoJobName techLevel pId)]
    else pure []
  let bpc ← getBPC x bp bpe
  let value ← valueAt x pId
  let _ ← x.names.getName pId
  return bpoJobs ++ [unlimited (inBPC ++ [(bpc, 1)]) out (-value * x.settings.productionTax)
    (bpcJobName techLevel bpe pId)]

/-- Copies of the first technology have no efficiency worth a difference. -/
def bpeList (isT1 : Bool) : List BlueprintEfficiency := if isT1 then [⟨100, 100⟩] else bpes

/-- The jobs of a product. -/
def productJobs (p : Production K) : Except Failure (List (Job Resource K)) :=
  if p.blueprint ∈ x.settings.ignoreList then .ok []
  else do
    let isT1 ← x.types.isT1BP p.blueprint
    collectM (manufacturingJobs x p) (bpeList isT1)

/-- The jobs of all products. -/
def getManufacturingJobs (products : List (Production K)) :
    Except Failure (List (Job Resource K)) :=
  collectM (productJobs x) products

/-! ### The other lookups -/

/-- The technology of the blueprint and the names are known. -/
structure Clear (names : Names) (types : Types) (p : Production K) : Prop where
  techLevel : ∃ level, types.getBPTechLevel p.blueprint = .ok level
  product : (names p.product).isSome
  materials : ∀ m ∈ p.materials, (names m.1).isSome

/-- A failure that is no missing job value. -/
def Misses {α : Type} (e : Except Failure α) : Prop :=
  ∃ f, e = .error f ∧ ∀ id, f ≠ .noJobValue id

theorem Misses.bind {α β : Type} {e : Except Failure α} (h : Misses e)
    (f : α → Except Failure β) : Misses (e >>= f) := by
  obtain ⟨g, rfl, hg⟩ := h
  exact ⟨g, rfl, hg⟩

theorem Misses.ne {α : Type} {e : Except Failure α} (h : Misses e) (id : TypeID) :
    e ≠ .error (.noJobValue id) := by
  obtain ⟨f, rfl, hf⟩ := h
  intro heq
  exact hf id (Except.error.inj heq)

theorem getName_of_isSome {names : Names} {t : TypeID} (h : (names t).isSome) :
    ∃ name, names.getName t = .ok name := by
  obtain ⟨name, hname⟩ := Option.isSome_iff_exists.mp h
  exact ⟨name, by rw [Names.getName, hname]⟩

theorem misses_getName {names : Names} {t : TypeID} (h : ¬ (names t).isSome) :
    Misses (names.getName t) := by
  have hnone : names t = none := by simpa using h
  exact ⟨.noName t, by rw [Names.getName, hnone], by simp⟩

omit [Field K] [LinearOrder K] [FloorRing K] in
theorem getResource_of_isSome {x : PlannerAndStuff K} {id : TypeID} (h : (x.names id).isSome) :
    getResource x id = .ok (.item id) := by
  obtain ⟨name, hname⟩ := getName_of_isSome h
  rw [getResource, hname]
  rfl

variable {x}

theorem collectM_materials_ok (me : K) {ms : Materials} (h : ∀ m ∈ ms, (x.names m.1).isSome) :
    ∃ inputs, collectM (materialRequirement x me) ms = .ok inputs := by
  apply exists_collectM_ok
  intro m hm
  rw [materialRequirement, getResource_of_isSome (h m hm)]
  exact ⟨_, rfl⟩

theorem misses_collectM_materials {me : K} {ms : Materials}
    (h : ¬ ∀ m ∈ ms, (x.names m.1).isSome) : Misses (collectM (materialRequirement x me) ms) := by
  cases hms : collectM (materialRequirement x me) ms with
  | ok inputs =>
    -- a loop that came to its end found every name
    refine absurd ?_ h
    intro m hm
    obtain ⟨bs, hbs⟩ := collectM_ok_of_mem hms hm
    obtain ⟨resource, hresource, -⟩ := bind_eq_ok hbs
    obtain ⟨name, hname, -⟩ := bind_eq_ok hresource
    by_contra hnone
    obtain ⟨f, hf, -⟩ := misses_getName hnone
    rw [hname] at hf
    exact absurd hf (by simp)
  | error f =>
    -- what failed first can only have failed for its name
    obtain ⟨before, m, after, -, -, hm⟩ := collectM_eq_error.mp hms
    refine ⟨f, rfl, ?_⟩
    by_cases hname : (x.names m.1).isSome
    · rw [materialRequirement, getResource_of_isSome hname] at hm
      exact absurd hm (by simp [pure, Except.pure])
    · obtain ⟨g, hg, hne⟩ := misses_getName hname
      rw [materialRequirement, getResource, hg] at hm
      obtain rfl := Except.error.inj hm
      exact hne

theorem misses_getBPTechLevel {types : Types} {t : TypeID}
    (h : ¬ ∃ level, types.getBPTechLevel t = .ok level) : Misses (types.getBPTechLevel t) := by
  cases hlevel : types.getBPTechLevel t with
  | ok level => exact absurd ⟨level, hlevel⟩ h
  | error e =>
    refine ⟨e, rfl, ?_⟩
    rintro id rfl
    unfold Types.getBPTechLevel Types.checkItem at hlevel
    split at hlevel
    · simp only [ok_bind] at hlevel
      split at hlevel
      · exact absurd hlevel (by simp [pure, Except.pure])
      split at hlevel
      · exact absurd hlevel (by simp [pure, Except.pure])
      split at hlevel
      · exact absurd hlevel (by simp [pure, Except.pure])
      · exact absurd hlevel (by simp [throw, throwThe, MonadExceptOf.throw])
    · exact absurd hlevel (by simp)

/-- The names of the jobs for one efficiency of a blueprint. -/
def manufacturingNames (x : PlannerAndStuff K) (p : Production K) (techLevel : TechLevel)
    (bpe : BlueprintEfficiency) : List String :=
  (if techLevel = .T1 ∧ affordable x p.blueprint then [bpoJobName techLevel p.product] else []) ++
    [bpcJobName techLevel bpe p.product]

/-- The jobs of a product whose other lookups succeed depend on its value alone. -/
theorem manufacturingJobs_of_clear {p : Production K} (hp : Clear x.names x.types p)
    (hbp : (x.names p.blueprint).isSome) {techLevel : TechLevel}
    (hlevel : x.types.getBPTechLevel p.blueprint = .ok techLevel) (bpe : BlueprintEfficiency) :
    (x.values p.product = none → manufacturingJobs x p bpe = .error (.noJobValue p.product)) ∧
      ((x.values p.product).isSome → ∃ jobs, manufacturingJobs x p bpe = .ok jobs ∧
        jobs.map Job.name = manufacturingNames x p techLevel bpe) := by
  obtain ⟨bpName, hbpName⟩ := getName_of_isSome hbp
  obtain ⟨pName, hpName⟩ := getName_of_isSome hp.product
  obtain ⟨inputs, hinputs⟩ :=
    collectM_materials_ok (percent bpe.materialEfficiency : K) hp.materials
  have hT1 := Types.isT1BP_of_techLevel hlevel
  simp only [manufacturingJobs, getResource_of_isSome hp.product, hinputs, hlevel, hT1, getBPO,
    getBPC, hbpName, hpName, ok_bind]
  constructor
  · intro hnone
    simp only [valueAt, hnone, error_bind]
    -- the lookup fails for the original, or else for the copy
    split
    · rfl
    · rfl
  · intro hsome
    obtain ⟨v, hv⟩ := Option.isSome_iff_exists.mp hsome
    simp only [valueAt, hv, ok_bind]
    by_cases hbpo : techLevel = .T1 ∧ affordable x p.blueprint = true
    · refine ⟨_, by rw [if_pos (by simpa using hbpo)]; rfl, ?_⟩
      rw [manufacturingNames, if_pos hbpo]
      rfl
    · refine ⟨_, by rw [if_neg (by simpa using hbpo)]; rfl, ?_⟩
      rw [manufacturingNames, if_neg hbpo]
      rfl

/-- A product one of whose other lookups fails has no jobs. -/
theorem misses_manufacturingJobs {p : Production K} (hp : ¬ Clear x.names x.types p)
    (bpe : BlueprintEfficiency) : Misses (manufacturingJobs x p bpe) := by
  simp only [manufacturingJobs]
  by_cases hproduct : (x.names p.product).isSome
  · rw [getResource_of_isSome hproduct, ok_bind]
    by_cases hmaterials : ∀ m ∈ p.materials, (x.names m.1).isSome
    · obtain ⟨inputs, hinputs⟩ :=
        collectM_materials_ok (percent bpe.materialEfficiency : K) hmaterials
      rw [hinputs, ok_bind]
      refine Misses.bind (misses_getBPTechLevel ?_) _
      intro htech
      exact hp ⟨htech, hproduct, hmaterials⟩
    · exact Misses.bind (misses_collectM_materials hmaterials) _
  · exact Misses.bind (Misses.bind (misses_getName hproduct) _) _

theorem bpeList_ne_nil (isT1 : Bool) : bpeList isT1 ≠ [] := by cases isT1 <;> decide

/-- **What the jobs of a product depend on**, if the other lookups succeed. -/
theorem productJobs_of_clear {p : Production K} (hp : Clear x.names x.types p)
    (hbp : (x.names p.blueprint).isSome) (hignored : p.blueprint ∉ x.settings.ignoreList) :
    (x.values p.product = none → productJobs x p = .error (.noJobValue p.product)) ∧
      ((x.values p.product).isSome → ∃ jobs, productJobs x p = .ok jobs) := by
  obtain ⟨techLevel, hlevel⟩ := hp.techLevel
  have hjobs := manufacturingJobs_of_clear hp hbp hlevel
  rw [productJobs, if_neg hignored, Types.isT1BP_of_techLevel hlevel, ok_bind]
  constructor
  · intro hnone
    -- the first efficiency fails
    cases hlist : bpeList (decide (techLevel = .T1)) with
    | nil => exact absurd hlist (bpeList_ne_nil _)
    | cons bpe rest => exact collectM_cons_error ((hjobs bpe).1 hnone)
  · intro hsome
    apply exists_collectM_ok
    intro bpe _
    obtain ⟨jobs, hok, -⟩ := (hjobs bpe).2 hsome
    exact ⟨jobs, hok⟩

/-- **What the jobs of a product depend on**, if another lookup fails. -/
theorem productJobs_of_not_clear {p : Production K} (hp : ¬ Clear x.names x.types p)
    (hignored : p.blueprint ∉ x.settings.ignoreList) : Misses (productJobs x p) := by
  rw [productJobs, if_neg hignored]
  cases hT1 : x.types.isT1BP p.blueprint with
  | error e =>
    refine ⟨e, rfl, ?_⟩
    rintro id rfl
    exact Types.isT1BP_ne_noJobValue id hT1
  | ok isT1 =>
    rw [ok_bind]
    cases hlist : bpeList isT1 with
    | nil => exact absurd hlist (bpeList_ne_nil _)
    | cons bpe rest =>
      obtain ⟨f, hf, hne⟩ := misses_manufacturingJobs hp bpe
      exact ⟨f, collectM_cons_error hf, hne⟩

/-! ### Missing job values -/

variable {N : Type} [Document N K]

/-- What the jobs are made with when the workspace is done. -/
def plannerAndStuff (settings : Settings K) (inputs : Inputs K) (types : Types)
    (values : TypeID → Option K) : PlannerAndStuff K where
  settings := settings
  skills := inputs.skills
  avgPrices := inputs.avgPrices
  values := values
  names := inputs.names
  types := types

/-- The products of a catalogue that are turned into jobs. -/
def kept (settings : Settings K) (inputs : Inputs K) (catalogue : Catalogue N) :
    List (Production K) :=
  (filterBySkill inputs.skills Production.skills (catalogue.filterMap (made inputs))).filter
    fun p => p.blueprint ∉ settings.ignoreList

omit [LinearOrder K] [FloorRing K] in
theorem mem_kept {settings : Settings K} {inputs : Inputs K} {catalogue : Catalogue N}
    {p : Production K} (hp : p ∈ kept settings inputs catalogue) :
    (inputs.names p.blueprint).isSome ∧ p.blueprint ∉ settings.ignoreList := by
  obtain ⟨hp, hignored⟩ := List.mem_filter.mp hp
  obtain ⟨e, -, he⟩ := List.mem_filterMap.mp (List.mem_filter.mp hp).1
  exact ⟨(made_eq_some he).2, by simpa using hignored⟩

/-- Only what is kept counts. -/
theorem getManufacturingJobs_eq {settings : Settings K} {inputs : Inputs K}
    {catalogue : Catalogue N} {s : Types × Jobs K} (h : processBlueprints inputs catalogue = .ok s)
    (values : TypeID → Option K) :
    getManufacturingJobs (plannerAndStuff settings inputs s.1 values)
        (s.2.filter inputs.skills inputs.avgPrices settings.bpoPriceLimit).products =
      collectM (productJobs (plannerAndStuff settings inputs s.1 values))
        (kept settings inputs catalogue) := by
  have hproducts := (Processed.processBlueprints h).products
  rw [getManufacturingJobs, kept, collectM_filter, Jobs.filter, hproducts]
  intro p hignored
  have hmem : p.blueprint ∈ settings.ignoreList := by simpa using hignored
  exact if_pos hmem

/-- The products up to one that is not covered have jobs. -/
theorem covered_of_ne_noJobValue {x : PlannerAndStuff K} {products : List (Production K)}
    (hproducts : ∀ p ∈ products, (x.names p.blueprint).isSome ∧
      p.blueprint ∉ x.settings.ignoreList)
    (hne : ∀ id, collectM (productJobs x) products ≠ .error (.noJobValue id))
    {reached after : List (Production K)} (hsplit : products = reached ++ after)
    (hclear : ∀ p ∈ reached, Clear x.names x.types p) :
    ∀ p ∈ reached, (x.values p.product).isSome := by
  -- If those before `p` have values, the loop gets as far as `p`.
  induction reached using List.reverseRecOn generalizing after with
  | nil => intro p hp; exact absurd hp List.not_mem_nil
  | append_singleton reached p ih =>
    rw [List.append_assoc, List.singleton_append] at hsplit
    have hbefore := ih hsplit fun q hq => hclear q (List.mem_append_left _ hq)
    intro q hq
    rcases List.mem_append.mp hq with hq | hq
    · exact hbefore q hq
    obtain rfl := List.mem_singleton.mp hq
    by_contra hnone
    have hmem : ∀ r ∈ reached ++ [q], r ∈ products := by
      intro r hr
      rw [hsplit, ← List.singleton_append, ← List.append_assoc]
      exact List.mem_append_left _ hr
    obtain ⟨hname, hignored⟩ := hproducts q (hmem q (by simp))
    refine hne q.product (collectM_eq_error.mpr ⟨reached, q, after, hsplit, ?_, ?_⟩)
    · intro r hr
      have hr' : r ∈ reached ++ [q] := List.mem_append_left _ hr
      obtain ⟨hrname, hrignored⟩ := hproducts r (hmem r hr')
      exact (productJobs_of_clear (hclear r hr') hrname hrignored).2 (hbefore r hr)
    · exact (productJobs_of_clear (hclear q (by simp)) hname hignored).1 (by simpa using hnone)

/-- **No job value is missing if and only if every product that is reached is
covered**: a product is reached if the other lookups succeed for it and for those
before it. -/
theorem getManufacturingJobs_ne_noJobValue_iff (settings : Settings K) {inputs : Inputs K}
    {catalogue : Catalogue N} {s : Types × Jobs K} (h : processBlueprints inputs catalogue = .ok s)
    {order : List (TypeID × TypeID)} (horder : s.1.IsOrder order) :
    (∀ id, getManufacturingJobs
        (plannerAndStuff settings inputs s.1 (jobValues inputs s.2 order))
        (s.2.filter inputs.skills inputs.avgPrices settings.bpoPriceLimit).products ≠
      .error (.noJobValue id)) ↔
      ∀ before p after, kept settings inputs catalogue = before ++ p :: after →
        (∀ q ∈ before ++ [p], Clear inputs.names s.1 q) → Covered inputs catalogue p.product := by
  rw [getManufacturingJobs_eq h]
  have hkept : ∀ p ∈ kept settings inputs catalogue, (inputs.names p.blueprint).isSome ∧
      p.blueprint ∉ settings.ignoreList := by
    intro p hp
    exact mem_kept hp
  constructor
  · intro hne before p after hsplit hclear
    rw [← jobValues_isSome_iff h horder]
    have hreached : kept settings inputs catalogue = (before ++ [p]) ++ after := by
      rw [hsplit, List.append_assoc, List.singleton_append]
    exact covered_of_ne_noJobValue (x := plannerAndStuff settings inputs s.1 _) hkept hne hreached
      hclear p (by simp)
  · intro hcovered id herror
    obtain ⟨before, p, after, hsplit, hbefore, hp⟩ := collectM_eq_error.mp herror
    have hmem : ∀ q ∈ before ++ [p], q ∈ kept settings inputs catalogue := by
      intro q hq
      rw [hsplit, ← List.singleton_append, ← List.append_assoc]
      exact List.mem_append_left _ hq
    -- whatever was reached did not fail in another lookup
    have hclear : ∀ q ∈ before ++ [p], Clear inputs.names s.1 q := by
      intro q hq
      by_contra hnot
      have hmisses := productJobs_of_not_clear
        (x := plannerAndStuff settings inputs s.1 (jobValues inputs s.2 order)) hnot
        (hkept q (hmem q hq)).2
      rcases List.mem_append.mp hq with hq | hq
      · obtain ⟨jobs, hjobs⟩ := hbefore q hq
        obtain ⟨f, hf, -⟩ := hmisses
        rw [hjobs] at hf
        exact absurd hf (by simp)
      · obtain rfl := List.mem_singleton.mp hq
        exact hmisses.ne id hp
    -- so the product is covered and its jobs cannot have failed
    have hvalue := (jobValues_isSome_iff h horder).mpr (hcovered before p after hsplit hclear)
    obtain ⟨hname, hignored⟩ := hkept p (hmem p (by simp))
    obtain ⟨jobs, hjobs⟩ := (productJobs_of_clear
      (x := plannerAndStuff settings inputs s.1 (jobValues inputs s.2 order))
      (hclear p (by simp)) hname hignored).2 hvalue
    rw [hjobs] at hp
    exact absurd hp (by simp)

end Jobs

/-! ### A blueprint with one material -/

/-- An id and an amount. -/
def amountOf (id : ℚ) : Doc := .map [("typeID", .number id), ("quantity", .number 1)]

/-- A blueprint that makes item `20` of item `30`. -/
def sampleBlueprint (blueprintId : ℚ) : Doc :=
  .map [("blueprintTypeID", .number blueprintId), ("activities", .map [("manufacturing", .map
    [("products", .sequence [amountOf 20]), ("materials", .sequence [amountOf 30]),
      ("time", .number 60), ("skills", .sequence [])])])]

/-- Item `30` has an average price; its adjusted price is left open. -/
def sampleInputs (adjPrice : Option ℚ) : Inputs ℚ where
  names id := some (toString id)
  groups _ := none
  avgPrices id := if id = 30 then some 5 else none
  adjPrices id := if id = 30 then adjPrice else none
  skills := noLevels

/-- Settings that ignore nothing. -/
def sampleSettings : Settings ℚ := ⟨∅, 0, 0, 0, 0, 0, 0, 0⟩

/-- What the blueprint makes. -/
def sampleProduction : Production ℚ := ⟨10, 20, 1, [(30, 1)], [], 1 * 1 * 60⟩

/-- With an adjusted price the product has a job value. -/
theorem getManufacturingJobs_ne_noJobValue_iff_priced :
    ∃ s order, processBlueprints (sampleInputs (some 6)) [(10, sampleBlueprint 10)] = .ok s ∧
      s.1.IsOrder order ∧
      ∀ id, getManufacturingJobs (plannerAndStuff sampleSettings (sampleInputs (some 6)) s.1
          (jobValues (sampleInputs (some 6)) s.2 order))
        (s.2.filter noLevels (sampleInputs (some 6)).avgPrices 0).products ≠
          .error (.noJobValue id) := by
  obtain ⟨s, hs⟩ : ∃ s, processBlueprints (sampleInputs (some 6)) [(10, sampleBlueprint 10)] = .ok s :=
    ⟨_, rfl⟩
  have horder : s.1.IsOrder (s.1.bpToProduct.entries.map fun e => (e.1, e.2)) := List.Perm.refl _
  have hcovered := getManufacturingJobs_ne_noJobValue_iff sampleSettings hs horder
  refine ⟨s, _, hs, horder, hcovered.mpr ?_⟩
  intro before p after hsplit _
  have hkept : kept sampleSettings (sampleInputs (some 6)) [(10, sampleBlueprint 10)] =
      [sampleProduction] := rfl
  have hp : p ∈ [sampleProduction] := by
    rw [← hkept, hsplit]
    simp
  obtain rfl := List.mem_singleton.mp hp
  exact ⟨10, 20, ⟨[], sampleBlueprint 10, [], rfl, rfl, by simp⟩, Or.inl rfl, (10, sampleBlueprint 10),
    by simp, sampleProduction, rfl, rfl, rfl⟩

/-- Without an adjusted price the job value of a product is missing. -/
theorem getManufacturingJobs_noJobValue :
    ∃ s order, processBlueprints (sampleInputs none) [(10, sampleBlueprint 10)] = .ok s ∧
      s.1.IsOrder order ∧
      getManufacturingJobs (plannerAndStuff sampleSettings (sampleInputs none) s.1
          (jobValues (sampleInputs none) s.2 order))
        (s.2.filter noLevels (sampleInputs none).avgPrices 0).products =
          .error (.noJobValue 20) :=
  ⟨_, [(10, 20)], rfl, List.Perm.refl _, rfl⟩

end Industry
end EveIndustryPlanner
