import EveIndustryPlanner.Industry.Accepted
import EveIndustryPlanner.Industry.JobValues
import EveIndustryPlanner.Industry.OwnedBPCs
import EveIndustryPlanner.Industry.TypeClasses

/-!
# Which copies are asked for

Products are made from copies of the first technology of one efficiency only, and
inventions lead to copies of the others.  So a blueprint of the first technology,
whose stock is that of all efficiencies, is asked for with one of them.

## Main definitions

* `requests` — the copies that the jobs ask for.
* `StockedOnce` — no run that is owned is offered twice.

## Main results

* `invented_processBlueprints` — inventions lead to the second and third technology.
* `one_efficiency` — a blueprint of the first technology is asked for with one efficiency.
* `generateJobs_requests` — the jobs take and make what was asked for.
* `asks_callsFor` — so the calls for the copies of generated jobs are calls that
  `stocks_counted` is about; `exists_counted_callsFor` is their case.
* `stocks_counted` — **the stocks count no run twice, and they are the numbers of runs
  as far as doubles can tell.**
* `not_stockedOnce_hugeCopy` — a number of runs that is no double.
-/

namespace EveIndustryPlanner
namespace Industry

open Planning

/-! ### What inventions lead to -/

section Inventions

variable {N K : Type} [Document N K]

/-- The products of an invention are registered. -/
theorem mem_inventions_of_products {groups : Groups} {inputs : Inputs K} {e : TypeID × N}
    {r : Registration} (h : readRegistration groups e = .ok r) {c : Call N K}
    (hc : inventionCall? inputs e = some c) {t : TypeID} (ht : t ∈ c.products) :
    t ∈ r.inventions := by
  obtain ⟨activities, hactivities, h⟩ := bind_eq_ok h
  obtain ⟨product, -, h⟩ := bind_eq_ok h
  obtain ⟨relic, -, h⟩ := bind_eq_ok h
  obtain ⟨products, hproducts, h⟩ := bind_eq_ok h
  obtain ⟨inventions, hinventions, h⟩ := bind_eq_ok h
  obtain rfl := Except.ok.inj h
  rw [inventionCall?, hactivities, ok_bind] at hc
  split at hc
  · next invention hinvention =>
    obtain rfl := Option.some.inj hc
    -- both read the same node
    unfold Call.products at ht
    split at ht
    · next n hn =>
      have hfield : field invention "products" = .ok n := by
        unfold field? at hn
        split at hn
        · next n' hn' =>
          split at hn
          · rw [hn', Option.some.inj hn]
          · exact absurd hn (by simp)
        · exact absurd hn (by simp)
      rw [getInventionProducts, hinvention, ok_bind, hfield] at hproducts
      obtain rfl := Except.ok.inj hproducts
      obtain ⟨node, hnode, hid⟩ := List.mem_filterMap.mp ht
      obtain ⟨o, ho, hread⟩ := exists_mem_of_mapM_ok hinventions hnode
      have hsome : o = some t := by
        rw [tryRead_ok hread]
        unfold typeID? at hid
        split at hid
        · next t' ht' => rw [ht', ← hid]; rfl
        · exact absurd hid (by simp)
      exact List.reduceOption_mem_iff.mpr (hsome ▸ ho)
    · exact absurd ht List.not_mem_nil
  · exact absurd hc (by simp)

/-- A blueprint of the second or third technology. -/
def Types.Invented (types : Types) (t : TypeID) : Prop :=
  t ∈ types.t2Blueprints ∨ t ∈ types.t3Blueprints

theorem Types.Invented.isT1BP_ {types : Types} {t : TypeID} (h : types.Invented t) :
    types.isT1BP_ t = false := by
  rcases h with h | h
  · simp [Types.isT1BP_, Types.isT2BP_, h]
  · simp [Types.isT1BP_, Types.isT3BP_, h]

theorem Types.invented_register {types : Types} {r : Registration} {t : TypeID} :
    (types.register r).Invented t ↔ types.Invented t ∨ t ∈ r.inventions := by
  unfold Types.Invented
  rw [register_t2Blueprints, register_t3Blueprints]
  cases r.relic with
  | false => simp [or_assoc, or_comm, or_left_comm]
  | true => simp [or_assoc, or_comm]

omit [Document N K] in
theorem mem_of_mem_filter {skills : Skills K} {inventions : Inventions K} {r : Research K}
    (h : r ∈ (inventions.filter skills).t2Blueprints ++ (inventions.filter skills).t3Blueprints) :
    r ∈ inventions.t2Blueprints ++ inventions.t3Blueprints := by
  rcases List.mem_append.mp h with h | h
  · exact List.mem_append_left _ (List.mem_filter.mp h).1
  · exact List.mem_append_right _ (List.mem_filter.mp h).1

variable [Field K]

/-- Inventions lead to the second and third technology. -/
theorem invented_processBlueprints {inputs : Inputs K} {catalogue : Catalogue N}
    {s : Types × Jobs K} (h : processBlueprints inputs catalogue = .ok s) :
    ∀ r ∈ s.2.inventions.t2Blueprints ++ s.2.inventions.t3Blueprints, s.1.Invented r.product := by
  induction catalogue using List.reverseRecOn generalizing s with
  | nil =>
    obtain rfl := Except.ok.inj h
    simp [Jobs.empty, Inventions.empty]
  | append_singleton catalogue e ih =>
    obtain ⟨s₁, h₁, h⟩ := foldlM_append_eq_ok h
    obtain ⟨s₂, hround, h⟩ := bind_eq_ok h
    obtain rfl := Except.ok.inj h
    obtain ⟨types, htypes, hround⟩ := bind_eq_ok hround
    rw [Types.registerBlueprint_eq] at htypes
    cases hr : readRegistration inputs.groups e with
    | error f =>
      rw [hr] at htypes
      exact absurd htypes (by simp [Except.map])
    | ok reg =>
      rw [hr] at htypes
      obtain rfl := Except.ok.inj htypes
      split at hround
      · obtain rfl := Except.ok.inj hround
        exact fun r hr => Types.invented_register.mpr (Or.inl (ih h₁ r hr))
      · next hname =>
        obtain ⟨jobs, hjobs, hround⟩ := bind_eq_ok hround
        obtain rfl := Except.ok.inj hround
        obtain ⟨-, ⟨c, hc, hcall⟩, -⟩ := Jobs.add_ok (Bool.eq_false_iff.mpr hname) hjobs
        obtain ⟨racialSkill, added, happend, -, hsub, -⟩ := addInventionData_ok hcall
        intro r' hr'
        rw [happend] at hr'
        rw [Types.invented_register]
        -- an old record, or one of a product that was registered just before
        rcases List.mem_append.mp ((perm_append _ racialSkill added).mem_iff.mp hr') with hr' | hr'
        · exact Or.inl (ih h₁ r' hr')
        · exact Or.inr (mem_inventions_of_products hr hc
            (hsub.subset (List.mem_map_of_mem hr')))

end Inventions

/-! ### Requests -/

/-- A copy as it is asked for. -/
abbrev Request := TypeID × BlueprintEfficiency

section Requests

variable {K : Type} (x : PlannerAndStuff K)

/-- The efficiency that copies of the first technology are asked for with. -/
def perfect : BlueprintEfficiency := ⟨100, 100⟩

/-- The copies a product is made from. -/
def productionRequests (p : Production K) : List Request :=
  if p.blueprint ∈ x.settings.ignoreList then []
  else
    match x.types.isT1BP p.blueprint with
    | .ok isT1 => (bpeList isT1).map fun bpe => (p.blueprint, bpe)
    | .error _ => []

/-- The copies that inventions start from and lead to; a relic is no copy. -/
def inventionRequests (relic : Bool) (r : Research K) : List Request :=
  if (x.values r.product).isNone then []
  else decryptors.flatMap fun d =>
    (if relic then [] else [(r.blueprint, perfect)]) ++ [(r.product, d.efficiency)]

/-- The copies that are made. -/
def copyRequests (c : Copying) : List Request :=
  if (x.values c.blueprint).isNone then [] else [(c.blueprint, perfect)]

/-- The copies that the jobs ask for. -/
def requests (jobs : Jobs K) : List Request :=
  jobs.products.flatMap (productionRequests x) ++
    jobs.inventions.t2Blueprints.flatMap (inventionRequests x false) ++
    jobs.inventions.t3Blueprints.flatMap (inventionRequests x true) ++
    jobs.t1Copies.flatMap (copyRequests x)

variable {x}

theorem mem_inventionRequests {relic : Bool} {r : Research K} {c : Request}
    (h : c ∈ inventionRequests x relic r) :
    c = (r.blueprint, perfect) ∨ c.1 = r.product := by
  unfold inventionRequests at h
  split at h
  · exact absurd h List.not_mem_nil
  · obtain ⟨d, -, h⟩ := List.mem_flatMap.mp h
    rcases List.mem_append.mp h with h | h
    · split at h
      · exact absurd h List.not_mem_nil
      · exact Or.inl (List.mem_singleton.mp h)
    · exact Or.inr (by rw [List.mem_singleton.mp h])

/-- A blueprint of the first technology is asked for with one efficiency. -/
theorem one_efficiency {jobs : Jobs K}
    (hinvented : ∀ r ∈ jobs.inventions.t2Blueprints ++ jobs.inventions.t3Blueprints,
      x.types.Invented r.product) {c : Request} (h : c ∈ requests x jobs)
    (hT1 : x.types.isT1BP_ c.1 = true) : c.2 = perfect := by
  have hinvention : ∀ {relic : Bool},
      ∀ r ∈ jobs.inventions.t2Blueprints ++ jobs.inventions.t3Blueprints,
        c ∈ inventionRequests x relic r → c.2 = perfect := by
    intro relic r hr hc
    rcases mem_inventionRequests hc with rfl | hproduct
    · rfl
    · rw [hproduct, (hinvented r hr).isT1BP_] at hT1
      exact absurd hT1 (by simp)
  unfold requests at h
  rcases List.mem_append.mp h with h | h
  · rcases List.mem_append.mp h with h | h
    · rcases List.mem_append.mp h with h | h
      · obtain ⟨p, -, h⟩ := List.mem_flatMap.mp h
        unfold productionRequests at h
        split at h
        · exact absurd h List.not_mem_nil
        split at h
        · next isT1 hisT1 =>
          obtain ⟨bpe, hbpe, rfl⟩ := List.mem_map.mp h
          obtain ⟨⟨⟩, -, hisT1⟩ := bind_eq_ok hisT1
          obtain rfl := Except.ok.inj hisT1
          rw [hT1] at hbpe
          exact List.mem_singleton.mp hbpe
        · exact absurd h List.not_mem_nil
      · obtain ⟨r, hr, h⟩ := List.mem_flatMap.mp h
        exact hinvention r (List.mem_append_left _ hr) h
    · obtain ⟨r, hr, h⟩ := List.mem_flatMap.mp h
      exact hinvention r (List.mem_append_right _ hr) h
  · obtain ⟨c', -, h⟩ := List.mem_flatMap.mp h
    unfold copyRequests at h
    split at h
    · exact absurd h List.not_mem_nil
    · rw [List.mem_singleton.mp h]

end Requests

/-! ### What the jobs take and make -/

section Jobs

variable {K : Type}

/-- The copies among some resources. -/
def copiesIn (materials : Planning.Materials Resource K) : List Request :=
  materials.filterMap fun m =>
    match m.1 with
    | .bpc id bpe => some (id, bpe)
    | _ => none

/-- The copies that a job takes and makes. -/
def bpcsOf (job : Job Resource K) : List Request := copiesIn job.inputs ++ copiesIn job.outputs

@[simp] theorem copiesIn_nil : copiesIn ([] : Planning.Materials Resource K) = [] := rfl

@[simp] theorem copiesIn_append (materials materials' : Planning.Materials Resource K) :
    copiesIn (materials ++ materials') = copiesIn materials ++ copiesIn materials' :=
  List.filterMap_append

theorem copiesIn_items {materials : Planning.Materials Resource K}
    (h : ∀ m ∈ materials, ∃ id, m.1 = .item id) : copiesIn materials = [] := by
  refine List.filterMap_eq_nil_iff.mpr fun m hm => ?_
  obtain ⟨id, hid⟩ := h m hm
  rw [hid]

/-- The jobs take and make no copies but some. -/
def Uses (asked : List Request) (jobs : List (Job Resource K)) : Prop :=
  ∀ job ∈ jobs, ∀ c ∈ bpcsOf job, c ∈ asked

theorem Uses.mono {asked asked' : List Request} {jobs : List (Job Resource K)}
    (h : Uses asked jobs) (hsub : asked ⊆ asked') : Uses asked' jobs :=
  fun job hjob c hc => hsub (h job hjob c hc)

theorem Uses.append {asked : List Request} {jobs jobs' : List (Job Resource K)}
    (h : Uses asked jobs) (h' : Uses asked jobs') : Uses asked (jobs ++ jobs') := by
  intro job hjob
  rcases List.mem_append.mp hjob with hjob | hjob
  · exact h job hjob
  · exact h' job hjob

theorem Uses.nil {asked : List Request} : Uses asked ([] : List (Job Resource K)) := by
  intro job hjob
  exact absurd hjob List.not_mem_nil

theorem uses_single {asked : List Request} {job : Job Resource K} (h : bpcsOf job ⊆ asked) :
    Uses asked [job] := by
  intro job' hjob c hc
  obtain rfl := List.mem_singleton.mp hjob
  exact h hc

/-- The jobs of a loop. -/
theorem uses_collectM {α : Type} {f : α → Except Failure (List (Job Resource K))}
    {g : α → List Request} {l : List α} {jobs : List (Job Resource K)}
    (hf : ∀ a ∈ l, ∀ js, f a = .ok js → Uses (g a) js) (h : collectM f l = .ok jobs) :
    Uses (l.flatMap g) jobs := by
  intro job hjob c hc
  obtain ⟨a, ha, js, hjs, hmem⟩ := exists_of_mem_collectM h hjob
  exact List.mem_flatMap.mpr ⟨a, ha, hf a ha js hjs job hmem c hc⟩

variable [Field K] {x : PlannerAndStuff K}

omit [Field K] in
theorem getResource_ok {id : TypeID} {r : Resource} (h : getResource x id = .ok r) :
    r = .item id := by
  obtain ⟨name, -, h⟩ := bind_eq_ok h
  exact (Except.ok.inj h).symm

omit [Field K] in
theorem getBPC_ok {id : TypeID} {bpe : BlueprintEfficiency} {r : Resource}
    (h : getBPC x id bpe = .ok r) : r = .bpc id bpe := by
  obtain ⟨isT1, -, h⟩ := bind_eq_ok h
  obtain ⟨name, -, h⟩ := bind_eq_ok h
  exact (Except.ok.inj h).symm

omit [Field K] in
theorem getBPO_ok {id : TypeID} {r : Resource} (h : getBPO x id = .ok r) : r = .bpoTime id := by
  obtain ⟨name, -, h⟩ := bind_eq_ok h
  exact (Except.ok.inj h).symm

omit [Field K] in
/-- No copies are among materials that are looked up. -/
theorem copiesIn_collectM {materials : Materials} {amount : TypeID × ℕ → K}
    {inputs : Planning.Materials Resource K}
    (h : collectM (fun m => getResource x m.1 >>= fun resource =>
      Except.ok [(resource, amount m)]) materials = .ok inputs) : copiesIn inputs = [] := by
  refine copiesIn_items fun m hm => ?_
  obtain ⟨a, -, ms, hms, hmem⟩ := exists_of_mem_collectM h hm
  obtain ⟨r, hr, hms⟩ := bind_eq_ok hms
  obtain rfl := Except.ok.inj hms
  obtain rfl := List.mem_singleton.mp hmem
  exact ⟨a.1, getResource_ok hr⟩

/-- No copies are among the materials of an invention. -/
theorem copiesIn_ingredients {materials : Materials}
    {inputs : Planning.Materials Resource K} (h : collectM (ingredient x) materials = .ok inputs) :
    copiesIn inputs = [] := copiesIn_collectM h

/-- An invention takes a copy, if it takes no relic, and makes one. -/
theorem uses_inventionJobs {relic : Bool} {getBlueprint : TypeID → Except Failure Resource}
    {r : Research K} {d : DecryptorProperty} {js : List (Job Resource K)}
    (hblueprint : ∀ resource, getBlueprint r.blueprint = .ok resource →
      copiesIn [((resource, 1) : Resource × K)] = if relic then [] else [(r.blueprint, perfect)])
    (h : inventionJobs x getBlueprint r d = .ok js) :
    Uses (if (x.values r.product).isNone then []
      else (if relic then [] else [(r.blueprint, perfect)]) ++ [(r.product, d.efficiency)]) js := by
  unfold inventionJobs at h
  cases hvalue : x.values r.product with
  | none =>
    rw [hvalue] at h
    obtain rfl := Except.ok.inj h
    exact .nil
  | some v =>
    rw [hvalue] at h
    obtain ⟨materials, hmaterials, h⟩ := bind_eq_ok h
    obtain ⟨decryptor, hdecryptor, h⟩ := bind_eq_ok h
    obtain ⟨bp, hbp, h⟩ := bind_eq_ok h
    obtain ⟨product, hproduct, h⟩ := bind_eq_ok h
    obtain ⟨name, -, h⟩ := bind_eq_ok h
    obtain rfl := Except.ok.inj h
    obtain rfl := getBPC_ok hproduct
    apply uses_single
    have hcopies := hblueprint bp hbp
    have hsplit : [(bp, 1), (Resource.labTime, x.skills.researchTimeReduction * (r.duration : K))] =
        [((bp, 1) : Resource × K)] ++
          [(Resource.labTime, x.skills.researchTimeReduction * (r.duration : K))] := rfl
    simp only [bpcsOf, unlimited, copiesIn_append, copiesIn_ingredients hmaterials,
      copiesIn_ingredients hdecryptor, hsplit, hcopies]
    simp [copiesIn]

theorem uses_researchJobs {relic : Bool} {getBlueprint : TypeID → Except Failure Resource}
    {r : Research K} {js : List (Job Resource K)}
    (hblueprint : ∀ resource, getBlueprint r.blueprint = .ok resource →
      copiesIn [((resource, 1) : Resource × K)] = if relic then [] else [(r.blueprint, perfect)])
    (h : collectM (inventionJobs x getBlueprint r) decryptors = .ok js) :
    Uses (inventionRequests x relic r) js := by
  apply (uses_collectM (fun d _ js hjs => uses_inventionJobs hblueprint hjs) h).mono
  intro c hc
  obtain ⟨d, hd, hc⟩ := List.mem_flatMap.mp hc
  unfold inventionRequests
  split at hc
  · exact absurd hc List.not_mem_nil
  · next hvalue =>
    rw [if_neg hvalue]
    exact List.mem_flatMap.mpr ⟨d, hd, hc⟩

/-- Inventions of the second technology. -/
theorem uses_getT2InventionJobs {t2Blueprints : List (Research K)} {js : List (Job Resource K)}
    (h : getT2InventionJobs x t2Blueprints = .ok js) :
    Uses (t2Blueprints.flatMap (inventionRequests x false)) js := by
  refine uses_collectM (fun r _ js hjs => uses_researchJobs (fun resource hresource => ?_) hjs) h
  obtain rfl := getBPC_ok hresource
  rfl

/-- Inventions of the third technology. -/
theorem uses_getT3InventionJobs {t3Blueprints : List (Research K)} {js : List (Job Resource K)}
    (h : getT3InventionJobs x t3Blueprints = .ok js) :
    Uses (t3Blueprints.flatMap (inventionRequests x true)) js := by
  refine uses_collectM (fun r _ js hjs => uses_researchJobs (fun resource hresource => ?_) hjs) h
  obtain rfl := getResource_ok hresource
  rfl

theorem uses_copyJobs {c : Copying} {js : List (Job Resource K)} (h : copyJobs x c = .ok js) :
    Uses (copyRequests x c) js := by
  unfold copyJobs at h
  unfold copyRequests
  cases hvalue : x.values c.blueprint with
  | none =>
    rw [hvalue] at h
    obtain rfl := Except.ok.inj h
    exact .nil
  | some v =>
    rw [hvalue] at h
    obtain ⟨bpo, hbpo, h⟩ := bind_eq_ok h
    obtain ⟨bpc, hbpc, h⟩ := bind_eq_ok h
    obtain rfl := Except.ok.inj h
    obtain rfl := getBPO_ok hbpo
    obtain rfl := getBPC_ok hbpc
    exact uses_single (by simp [bpcsOf, unlimited, copiesIn, perfect])

omit [Field K] in
theorem uses_tradeJobs {trade : Resource → Order K → Job Resource K} {o : Order K}
    {js : List (Job Resource K)} (htrade : ∀ id, bpcsOf (trade (.item id) o) = [])
    (h : tradeJobs x trade o = .ok js) : Uses [] js := by
  obtain ⟨isBP, -, h⟩ := bind_eq_ok h
  split at h
  · obtain rfl := Except.ok.inj h
    exact .nil
  · obtain ⟨resource, hresource, h⟩ := bind_eq_ok h
    obtain rfl := Except.ok.inj h
    obtain rfl := getResource_ok hresource
    exact uses_single (by simp [htrade])

theorem uses_getMarketJobs {orders : Orders K} {js : List (Job Resource K)}
    (h : getMarketJobs x orders = .ok js) : Uses [] js := by
  obtain ⟨buys, hbuys, h⟩ := bind_eq_ok h
  obtain ⟨sells, hsells, h⟩ := bind_eq_ok h
  obtain rfl := Except.ok.inj h
  have hempty : ∀ l : List (Order K), l.flatMap (fun _ => ([] : List Request)) ⊆ [] := by simp
  have hbuys := uses_collectM (fun o _ js hjs => uses_tradeJobs (fun id => rfl) hjs) hbuys
  have hsells := uses_collectM (fun o _ js hjs => uses_tradeJobs (fun id => rfl) hjs) hsells
  exact (hbuys.mono (hempty _)).append (hsells.mono (hempty _))

/-! ### Planetary production and products -/

theorem uses_facilityJobs : Uses [] (facilityJobs x) := by
  intro job hjob
  have hcopies : bpcsOf job = [] := by
    simp only [facilityJobs, List.mem_cons, List.not_mem_nil, or_false] at hjob
    rcases hjob with rfl | rfl | rfl
    · rfl
    · rfl
    · rfl
  simp [hcopies]

variable {schematics : List Planetary} {s s' : PlanetaryState K}

theorem uses_getPlanetaryResource {id : TypeID} {name : String} (hs : Uses [] s.jobs)
    (h : getPlanetaryResource x schematics id name s = .ok s') : Uses [] s'.jobs := by
  unfold getPlanetaryResource at h
  split at h
  · obtain rfl := Except.ok.inj h
    exact hs
  · obtain ⟨resource, hresource, h⟩ := bind_eq_ok h
    obtain rfl := Except.ok.inj h
    obtain rfl := getResource_ok hresource
    -- both jobs are about the item here and there
    refine hs.append fun job hjob => ?_
    rcases List.mem_pair.mp hjob with rfl | rfl
    · simp [bpcsOf, unlimited, copiesIn]
    · simp [bpcsOf, unlimited, copiesIn]

omit [Field K] in
theorem copiesIn_planetaryItems {α : Type} (l : List α) (id : α → TypeID) (n : α → K) :
    copiesIn (l.map fun a => (Resource.planetaryItem (id a), n a)) = [] := by
  refine List.filterMap_eq_nil_iff.mpr fun m hm => ?_
  obtain ⟨a, -, rfl⟩ := List.mem_map.mp hm
  rfl

omit [Field K] in
theorem copiesIn_tierTime (tier : Fin 4) (n : K) : copiesIn [(tierTime tier, n)] = [] := by
  fin_cases tier <;> rfl

theorem uses_planetaryJob {p : Planetary} (hs : Uses [] s.jobs)
    (h : planetaryJob x schematics s p = .ok s') : Uses [] s'.jobs := by
  obtain ⟨s₁, h₁, h⟩ := bind_eq_ok h
  obtain ⟨pName, -, h⟩ := bind_eq_ok h
  obtain ⟨s₂, h₂, h⟩ := bind_eq_ok h
  obtain rfl := Except.ok.inj h
  have hmaterials : Uses [] s₁.jobs := by
    refine foldlM_invariant (P := fun s => Uses [] s.jobs) (fun s m s' hs hm => ?_) hs h₁
    obtain ⟨name, -, hm⟩ := bind_eq_ok hm
    exact uses_getPlanetaryResource hs hm
  refine (uses_getPlanetaryResource hmaterials h₂).append (uses_single ?_)
  simp only [bpcsOf, unlimited, copiesIn_append, copiesIn_planetaryItems, copiesIn_tierTime]
  simp [copiesIn]

theorem uses_getPlanetaryJobs {js : List (Job Resource K)}
    (h : getPlanetaryJobs x schematics = .ok js) : Uses [] js := by
  obtain ⟨s, hs, h⟩ := bind_eq_ok h
  obtain rfl := Except.ok.inj h
  exact foldlM_invariant (P := fun s => Uses [] s.jobs)
    (fun s p s' hs hp => uses_planetaryJob hs hp) uses_facilityJobs hs

variable [LinearOrder K] [FloorRing K]

/-- No copies are among the materials of a product. -/
theorem copiesIn_materialRequirements {me : K} {materials : Materials}
    {inputs : Planning.Materials Resource K}
    (h : collectM (materialRequirement x me) materials = .ok inputs) : copiesIn inputs = [] :=
  copiesIn_collectM h

/-- A product is made from a copy of the efficiency. -/
theorem uses_manufacturingJobs {p : Production K} {bpe : BlueprintEfficiency}
    {js : List (Job Resource K)} (h : manufacturingJobs x p bpe = .ok js) :
    Uses [(p.blueprint, bpe)] js := by
  obtain ⟨product, hproduct, h⟩ := bind_eq_ok h
  obtain ⟨inputs, hinputs, h⟩ := bind_eq_ok h
  obtain ⟨techLevel, -, h⟩ := bind_eq_ok h
  obtain ⟨isT1, -, h⟩ := bind_eq_ok h
  obtain rfl := getResource_ok hproduct
  have hitems := copiesIn_materialRequirements hinputs
  -- an original comes before the copy, if it can be bought
  dsimp only at h
  split at h
  · obtain ⟨bpo, hbpo, h⟩ := bind_eq_ok h
    obtain ⟨value, -, h⟩ := bind_eq_ok h
    obtain ⟨name, -, h⟩ := bind_eq_ok h
    obtain ⟨bpoJobs, hbpoJobs, h⟩ := bind_eq_ok h
    obtain ⟨bpc, hbpc, h⟩ := bind_eq_ok h
    obtain ⟨value', -, h⟩ := bind_eq_ok h
    obtain ⟨name', -, h⟩ := bind_eq_ok h
    obtain rfl := Except.ok.inj hbpoJobs
    obtain rfl := Except.ok.inj h
    obtain rfl := getBPO_ok hbpo
    obtain rfl := getBPC_ok hbpc
    refine (uses_single ?_).append (uses_single ?_)
    · simp only [bpcsOf, unlimited, copiesIn_append, hitems]
      simp [copiesIn]
    · simp only [bpcsOf, unlimited, copiesIn_append, hitems]
      simp [copiesIn]
  · obtain ⟨bpoJobs, hbpoJobs, h⟩ := bind_eq_ok h
    obtain ⟨bpc, hbpc, h⟩ := bind_eq_ok h
    obtain ⟨value, -, h⟩ := bind_eq_ok h
    obtain ⟨name, -, h⟩ := bind_eq_ok h
    obtain rfl := Except.ok.inj hbpoJobs
    obtain rfl := Except.ok.inj h
    obtain rfl := getBPC_ok hbpc
    refine Uses.nil.append (uses_single ?_)
    simp only [bpcsOf, unlimited, copiesIn_append, hitems]
    simp [copiesIn]

theorem uses_productJobs {p : Production K} {js : List (Job Resource K)}
    (h : productJobs x p = .ok js) : Uses (productionRequests x p) js := by
  unfold productJobs at h
  unfold productionRequests
  split at h
  · obtain rfl := Except.ok.inj h
    exact .nil
  · next hignored =>
    obtain ⟨isT1, hT1, h⟩ := bind_eq_ok h
    rw [if_neg hignored, hT1]
    apply (uses_collectM (fun bpe _ js hjs => uses_manufacturingJobs hjs) h).mono
    intro c hc
    obtain ⟨bpe, hbpe, hc⟩ := List.mem_flatMap.mp hc
    rw [List.mem_singleton.mp hc]
    exact List.mem_map_of_mem hbpe

/-- **The jobs take and make what was asked for.** -/
theorem generateJobs_requests {orders : Orders K} {jobs : Jobs K} {js : List (Job Resource K)}
    (h : generateJobs x schematics orders jobs = .ok js) : Uses (requests x jobs) js := by
  obtain ⟨planetary, hplanetary, h⟩ := bind_eq_ok h
  obtain ⟨market, hmarket, h⟩ := bind_eq_ok h
  obtain ⟨production, hproduction, h⟩ := bind_eq_ok h
  obtain ⟨t2, ht2, h⟩ := bind_eq_ok h
  obtain ⟨t3, ht3, h⟩ := bind_eq_ok h
  obtain ⟨copy, hcopy, h⟩ := bind_eq_ok h
  obtain rfl := Except.ok.inj h
  unfold requests
  have hproducts := uses_collectM (fun p _ js hjs => uses_productJobs hjs) hproduction
  have hcopies := uses_collectM (fun c _ js hjs => uses_copyJobs hjs) hcopy
  refine Uses.append (Uses.append (Uses.append (Uses.append (Uses.append ?_ ?_) ?_) ?_) ?_) ?_
  · exact (uses_getPlanetaryJobs hplanetary).mono (List.nil_subset _)
  · exact (uses_getMarketJobs hmarket).mono (List.nil_subset _)
  · exact hproducts.mono fun c hc => by simp [hc]
  · exact (uses_getT2InventionJobs ht2).mono fun c hc => by simp [hc]
  · exact (uses_getT3InventionJobs ht3).mono fun c hc => by simp [hc]
  · exact hcopies.mono fun c hc => by simp [hc]

end Jobs

/-! ### Stocks -/

section Stocks

variable {D : Type} [DecidableEq D]

/-- No run of a blueprint that is owned is offered twice, and of the first technology
all of them are offered. -/
structure StockedOnce (types : Types) (ownedBlueprints : List OwnedBlueprint)
    (calls : List (BlueprintWithEfficiency D)) (bpcs : BPCs D) (typeId : TypeID) : Prop where
  le : (stocks bpcs typeId).sum ≤ ownedRuns ownedBlueprints typeId
  t1 : types.isT1BP_ typeId = true → (∃ bpwe ∈ calls, bpwe.blueprint = typeId) →
    (stocks bpcs typeId).sum = ownedRuns ownedBlueprints typeId

/-- The stocks are numbers of runs as doubles; the numbers count no run twice, and of
the first technology all runs, modulo `2 ^ 64`. -/
structure Counted (types : Types) (ownedBlueprints : List OwnedBlueprint)
    (calls : List (BlueprintWithEfficiency D)) (bpcs : BPCs D) (typeId : TypeID)
    (counts : List ℕ) : Prop where
  rounded : stocks bpcs typeId = counts.map fun n => (nearestDouble n : ℤ)
  le : counts.sum ≤ ownedRuns ownedBlueprints typeId
  t1 : types.isT1BP_ typeId = true → (∃ bpwe ∈ calls, bpwe.blueprint = typeId) →
    counts = [ownedRuns ownedBlueprints typeId % 2 ^ 64]

omit [DecidableEq D] in
/-- Numbers that are doubles are the stocks. -/
theorem Counted.stockedOnce {types : Types} {ownedBlueprints : List OwnedBlueprint}
    {calls : List (BlueprintWithEfficiency D)} {bpcs : BPCs D} {typeId : TypeID}
    {counts : List ℕ} (h : Counted types ownedBlueprints calls bpcs typeId counts)
    (howned : ownedRuns ownedBlueprints typeId ≤ 2 ^ 53) :
    StockedOnce types ownedBlueprints calls bpcs typeId := by
  have hexact : stocks bpcs typeId = counts.map (Nat.cast : ℕ → ℤ) := by
    rw [h.rounded]
    refine List.map_congr_left fun n hn => ?_
    rw [nearestDouble_of_le (((List.single_le_sum (by simp) n hn).trans h.le).trans howned)]
  have hsum : (stocks bpcs typeId).sum = (counts.sum : ℤ) := by
    rw [hexact, Nat.cast_list_sum]
  refine ⟨?_, fun hT1 hcalls => ?_⟩
  · rw [hsum]
    exact_mod_cast h.le
  · rw [hsum, h.t1 hT1 hcalls, List.sum_singleton, Nat.mod_eq_of_lt (by omega)]

variable (doubles : Doubles D)

/-- Calls of `getBPC` for copies that the jobs ask for, in any order. -/
def Asks {K : Type} (x : PlannerAndStuff K) (jobs : Jobs K)
    (calls : List (BlueprintWithEfficiency D)) : Prop :=
  ∀ bpwe ∈ calls, ∃ c ∈ requests x jobs, bpwe = withEfficiency doubles c.1 c.2

variable {doubles} {stuff : BlueprintCopies D} {names : Names}
  {ownedBlueprints : List OwnedBlueprint} {calls : List (BlueprintWithEfficiency D)}
  {bpcs : BPCs D} {typeId : TypeID}

/-- A blueprint of another technology is counted efficiency by efficiency. -/
theorem counted_of_not_isT1BP_
    (hload : OwnedBPCs.load doubles names ownedBlueprints = .ok stuff.assets)
    (hrun : stuff.getBPCs doubles calls = .ok bpcs)
    (hT1 : stuff.types.isT1BP_ typeId = false) :
    Counted stuff.types ownedBlueprints calls bpcs typeId
      ((keysOf bpcs typeId).map stuff.assets.runs) where
  rounded := by
    rw [stocks_eq hrun, hT1, List.map_map]
    rfl
  le := sum_runs_load_le hload (nodup_keysOf bpcs typeId) fun bpwe hbpwe =>
    ((mem_keysOf hrun).mp hbpwe).2
  t1 hT1' := by
    rw [hT1] at hT1'
    exact absurd hT1' (by simp)

/-- A blueprint of the first technology is counted once. -/
theorem counted_of_isT1BP_
    (hload : OwnedBPCs.load doubles names ownedBlueprints = .ok stuff.assets)
    (hrun : stuff.getBPCs doubles calls = .ok bpcs)
    (hT1 : stuff.types.isT1BP_ typeId = true) (key : BlueprintWithEfficiency D)
    (hone : ∀ bpwe ∈ calls, bpwe.blueprint = typeId → bpwe = key) :
    Counted stuff.types ownedBlueprints calls bpcs typeId
      ((keysOf bpcs typeId).map fun _ => ownedRuns ownedBlueprints typeId % 2 ^ 64) := by
  have hkeys : ∀ bpwe ∈ keysOf bpcs typeId, bpwe = key := by
    intro bpwe hbpwe
    obtain ⟨hmem, htype⟩ := (mem_keysOf hrun).mp hbpwe
    exact hone bpwe hmem htype
  -- different keys that are all the same
  have hlength : (keysOf bpcs typeId).length ≤ 1 := by
    have hnodup := nodup_keysOf bpcs typeId
    rw [List.eq_replicate_of_mem hkeys] at hnodup
    exact List.nodup_replicate.mp hnodup
  constructor
  case rounded =>
    rw [stocks_eq hrun, hT1, List.map_map]
    refine List.map_congr_left fun bpwe hbpwe => ?_
    have hruns : stuff.runs true bpwe = ownedRuns ownedBlueprints typeId % 2 ^ 64 := by
      rw [BlueprintCopies.runs, if_pos rfl, ((mem_keysOf hrun).mp hbpwe).2, runsOfType_load hload]
    rw [hruns, Function.comp_apply]
  case le =>
    rw [List.map_const', List.sum_replicate, smul_eq_mul]
    calc (keysOf bpcs typeId).length * (ownedRuns ownedBlueprints typeId % 2 ^ 64)
        ≤ 1 * ownedRuns ownedBlueprints typeId := Nat.mul_le_mul hlength (Nat.mod_le _ _)
      _ = ownedRuns ownedBlueprints typeId := one_mul _
  case t1 =>
    rintro - ⟨bpwe, hmem, htype⟩
    have hkey : bpwe ∈ keysOf bpcs typeId := (mem_keysOf hrun).mpr ⟨hmem, htype⟩
    have hpos := List.length_pos_of_mem hkey
    rw [List.map_const', show (keysOf bpcs typeId).length = 1 by omega]
    rfl

variable {N K : Type} [Document N K] [Field K] [LinearOrder K]

/-- What the jobs ask for is counted. -/
theorem exists_counted {settings : Settings K} {inputs : Inputs K} {catalogue : Catalogue N}
    {s : Types × Jobs K} (h : processBlueprints inputs catalogue = .ok s)
    {values : TypeID → Option K} {ownedBPCs : OwnedBPCs D}
    (hload : OwnedBPCs.load doubles inputs.names ownedBlueprints = .ok ownedBPCs)
    (hcalls : Asks doubles (plannerAndStuff settings inputs s.1 values)
      (s.2.filter inputs.skills inputs.avgPrices settings.bpoPriceLimit) calls)
    (hrun : (⟨inputs.names, ownedBPCs, s.1⟩ : BlueprintCopies D).getBPCs doubles calls = .ok bpcs)
    (typeId : TypeID) : ∃ counts, Counted s.1 ownedBlueprints calls bpcs typeId counts := by
  cases hT1 : s.1.isT1BP_ typeId with
  | false => exact ⟨_, counted_of_not_isT1BP_ hload hrun hT1⟩
  | true =>
    refine ⟨_, counted_of_isT1BP_ hload hrun hT1 (withEfficiency doubles typeId perfect) ?_⟩
    rintro bpwe hbpwe rfl
    obtain ⟨c, hc, rfl⟩ := hcalls bpwe hbpwe
    have hperfect := one_efficiency
      (fun r hr => invented_processBlueprints h r (mem_of_mem_filter hr)) hc hT1
    rw [hperfect]
    rfl

/-- **The stocks count no run twice**, and they are the numbers of runs as far as
doubles can tell. -/
theorem stocks_counted {settings : Settings K} {inputs : Inputs K} {catalogue : Catalogue N}
    {s : Types × Jobs K} (h : processBlueprints inputs catalogue = .ok s)
    {values : TypeID → Option K} {ownedBPCs : OwnedBPCs D}
    (hload : OwnedBPCs.load doubles inputs.names ownedBlueprints = .ok ownedBPCs)
    (hcalls : Asks doubles (plannerAndStuff settings inputs s.1 values)
      (s.2.filter inputs.skills inputs.avgPrices settings.bpoPriceLimit) calls)
    (hrun : (⟨inputs.names, ownedBPCs, s.1⟩ : BlueprintCopies D).getBPCs doubles calls = .ok bpcs)
    (typeId : TypeID) :
    (∃ counts, Counted s.1 ownedBlueprints calls bpcs typeId counts) ∧
      (ownedRuns ownedBlueprints typeId ≤ 2 ^ 53 →
        StockedOnce s.1 ownedBlueprints calls bpcs typeId) := by
  obtain ⟨counts, hcounts⟩ := exists_counted h hload hcalls hrun typeId
  exact ⟨⟨counts, hcounts⟩, hcounts.stockedOnce⟩

variable [FloorRing K]

/-- The calls for the copies that jobs take and make, job by job. -/
def callsFor (doubles : Doubles D) (js : List (Job Resource K)) :
    List (BlueprintWithEfficiency D) :=
  (js.flatMap bpcsOf).map fun c => withEfficiency doubles c.1 c.2

omit [DecidableEq D] in
/-- Generated jobs ask for their copies. -/
theorem asks_callsFor {x : PlannerAndStuff K} {schematics : List Planetary}
    {orders : Orders K} {jobs : Jobs K} {js : List (Job Resource K)}
    (h : generateJobs x schematics orders jobs = .ok js) :
    Asks doubles x jobs (callsFor doubles js) := by
  intro bpwe hbpwe
  obtain ⟨c, hc, rfl⟩ := List.mem_map.mp hbpwe
  obtain ⟨job, hjob, hc⟩ := List.mem_flatMap.mp hc
  exact ⟨c, generateJobs_requests h job hjob c hc, rfl⟩

/-- **The stocks of the copies of generated jobs** are counted. -/
theorem exists_counted_callsFor {settings : Settings K} {inputs : Inputs K}
    {catalogue : Catalogue N} {s : Types × Jobs K}
    (h : processBlueprints inputs catalogue = .ok s)
    {values : TypeID → Option K} {ownedBPCs : OwnedBPCs D}
    (hload : OwnedBPCs.load doubles inputs.names ownedBlueprints = .ok ownedBPCs)
    {schematics : List Planetary} {orders : Orders K} {js : List (Job Resource K)}
    (hjobs : generateJobs (plannerAndStuff settings inputs s.1 values) schematics orders
      (s.2.filter inputs.skills inputs.avgPrices settings.bpoPriceLimit) = .ok js)
    (hrun : (⟨inputs.names, ownedBPCs, s.1⟩ : BlueprintCopies D).getBPCs doubles
      (callsFor doubles js) = .ok bpcs)
    (typeId : TypeID) :
    ∃ counts, Counted s.1 ownedBlueprints (callsFor doubles js) bpcs typeId counts :=
  exists_counted h hload (asks_callsFor hjobs) hrun typeId

end Stocks

/-! ### Copies of one blueprint -/

/-- Doubles that are the hundredths they stand for. -/
def exactDoubles : Doubles ℕ := ⟨id, id, hundredths⟩

/-- The only copy that the blueprint of id `10` is asked for with. -/
def perfectCopy : BlueprintWithEfficiency ℕ := withEfficiency exactDoubles 10 perfect

/-- What the jobs are made with for one blueprint of the first technology. -/
def oneBlueprint (s : Types × Jobs ℚ) : PlannerAndStuff ℚ :=
  plannerAndStuff sampleSettings (sampleInputs (some 6)) s.1
    (jobValues (sampleInputs (some 6)) s.2 [(10, 20)])

/-- The blueprint is asked for twice, and the calls end. -/
def Offered (ownedBlueprints : List OwnedBlueprint) (s : Types × Jobs ℚ) (bpcs : BPCs ℕ) : Prop :=
  processBlueprints (sampleInputs (some 6)) [(10, blueprintFor 10 20 [30])] = .ok s ∧
    Asks exactDoubles (oneBlueprint s) (s.2.filter (sampleInputs (some 6)).skills
      (sampleInputs (some 6)).avgPrices sampleSettings.bpoPriceLimit) [perfectCopy, perfectCopy] ∧
    ∃ ownedBPCs, OwnedBPCs.load exactDoubles (sampleInputs (some 6)).names ownedBlueprints =
        .ok ownedBPCs ∧
      (⟨(sampleInputs (some 6)).names, ownedBPCs, s.1⟩ : BlueprintCopies ℕ).getBPCs exactDoubles
        [perfectCopy, perfectCopy] = .ok bpcs

/-- Copies of two efficiencies, next to an original. -/
def twoCopies : List OwnedBlueprint := [⟨10, -2, 5, 10, 4⟩, ⟨10, -2, 7, 0, 0⟩, ⟨10, -1, 3, 0, 0⟩]

/-- One copy of very many runs. -/
def hugeCopy : List OwnedBlueprint := [⟨10, -2, 2 ^ 53 + 1, 0, 0⟩]

/-- The calls are asked for as soon as the copy is. -/
theorem asks_perfectCopy {x : PlannerAndStuff ℚ} {jobs : Jobs ℚ}
    (h : (10, perfect) ∈ requests x jobs) :
    Asks exactDoubles x jobs [perfectCopy, perfectCopy] := by
  intro bpwe hbpwe
  exact ⟨_, h, by simpa [perfectCopy] using hbpwe⟩

/-- Both efficiencies are offered together. -/
theorem stocks_counted_twoCopies :
    ∃ s bpcs, Offered twoCopies s bpcs ∧
      StockedOnce s.1 twoCopies [perfectCopy, perfectCopy] bpcs 10 := by
  obtain ⟨s, hs, hrequests, ownedBPCs, hload, bpcs, hrun⟩ : ∃ s,
      processBlueprints (sampleInputs (some 6)) [(10, blueprintFor 10 20 [30])] = .ok s ∧
      (10, perfect) ∈ requests (oneBlueprint s) (s.2.filter (sampleInputs (some 6)).skills
        (sampleInputs (some 6)).avgPrices sampleSettings.bpoPriceLimit) ∧
      ∃ ownedBPCs, OwnedBPCs.load exactDoubles (sampleInputs (some 6)).names twoCopies =
          .ok ownedBPCs ∧
        ∃ bpcs, (⟨(sampleInputs (some 6)).names, ownedBPCs, s.1⟩ :
          BlueprintCopies ℕ).getBPCs exactDoubles [perfectCopy, perfectCopy] = .ok bpcs :=
    ⟨_, rfl, List.mem_cons_self, _, rfl, _, rfl⟩
  have hasks := asks_perfectCopy hrequests
  exact ⟨s, bpcs, ⟨hs, hasks, ownedBPCs, hload, hrun⟩,
    (stocks_counted hs hload hasks hrun 10).2 (by decide)⟩

/-- A number of runs that is no double is not offered as it is. -/
theorem not_stockedOnce_hugeCopy :
    ∃ s bpcs, Offered hugeCopy s bpcs ∧
      ¬ StockedOnce s.1 hugeCopy [perfectCopy, perfectCopy] bpcs 10 := by
  obtain ⟨s, hs, hrequests, hT1, ownedBPCs, hload, bpcs, hrun, hstocks⟩ : ∃ s,
      processBlueprints (sampleInputs (some 6)) [(10, blueprintFor 10 20 [30])] = .ok s ∧
      (10, perfect) ∈ requests (oneBlueprint s) (s.2.filter (sampleInputs (some 6)).skills
        (sampleInputs (some 6)).avgPrices sampleSettings.bpoPriceLimit) ∧
      s.1.isT1BP_ 10 = true ∧
      ∃ ownedBPCs, OwnedBPCs.load exactDoubles (sampleInputs (some 6)).names hugeCopy =
          .ok ownedBPCs ∧
        ∃ bpcs, (⟨(sampleInputs (some 6)).names, ownedBPCs, s.1⟩ :
          BlueprintCopies ℕ).getBPCs exactDoubles [perfectCopy, perfectCopy] = .ok bpcs ∧
          stocks bpcs 10 = [2 ^ 53] :=
    ⟨_, rfl, List.mem_cons_self, rfl, _, rfl, _, rfl, by decide +kernel⟩
  refine ⟨s, bpcs, ⟨hs, asks_perfectCopy hrequests, ownedBPCs, hload, hrun⟩, fun h => ?_⟩
  have hall := h.t1 hT1 ⟨perfectCopy, by simp, rfl⟩
  rw [hstocks] at hall
  exact absurd hall (by decide)

end Industry
end EveIndustryPlanner
