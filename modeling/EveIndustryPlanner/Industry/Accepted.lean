import EveIndustryPlanner.Industry.JobSets

/-!
# The planner accepts the jobs

The planner refuses a job whose name it has.  The names of planetary jobs are
different because each item gets its jobs once and each schematic has its own
product; those of copies and inventions because each blueprint is processed
once.  What is left are the products.

## Main definitions

* `Origin`, `PlanetaryIDs` — where planetary jobs come from, over the loop.
* `Distinct` — inventions and copies of different blueprints, over the loop.

## Main results

* `PlanetaryIDs.getPlanetaryJobs` — **planetary jobs have different names.**
* `Distinct.processBlueprints` — **inventions and copies are for different things.**
* `nodup_names_iff` — **all jobs have different names if and only if no two
  blueprints of the same technology make the same.**
-/

namespace EveIndustryPlanner
namespace Industry

open Planning

/-! ### Planetary jobs -/

section Planetary

variable {K : Type} {x : PlannerAndStuff K}

/-- The items that schematics take and make. -/
def planetaryItemIDs (schematics : List Planetary) : List TypeID :=
  schematics.flatMap fun p => p.product :: p.materials.map Prod.fst

/-- Where a planetary job comes from: an item so far, or a schematic so far. -/
def Origin (names : Names) (items : Finset TypeID) (done : List Planetary) : JobID → Prop
  | .facility _ => True
  | .planetary .import _ name => ∃ id ∈ items, names id = some name
  | .planetary .export _ name => ∃ id ∈ items, names id = some name
  | .planetary .produce _ name => ∃ p ∈ done, names p.product = some name
  | _ => False

theorem Origin.mono {names : Names} {items items' : Finset TypeID} {done done' : List Planetary}
    (hitems : items ⊆ items') (hdone : ∀ p ∈ done, p ∈ done') {j : JobID}
    (h : Origin names items done j) : Origin names items' done' j := by
  cases j with
  | facility i => trivial
  | planetary kind tier name =>
    cases kind with
    | «import» =>
      obtain ⟨id, hid, hname⟩ := h
      exact ⟨id, hitems hid, hname⟩
    | «export» =>
      obtain ⟨id, hid, hname⟩ := h
      exact ⟨id, hitems hid, hname⟩
    | produce =>
      obtain ⟨p, hp, hname⟩ := h
      exact ⟨p, hdone p hp, hname⟩
  | buy type order => exact h
  | sell type order => exact h
  | produce techLevel copy product => exact h
  | research blueprint decryptor product => exact h
  | copy blueprint => exact h

/-- Planetary jobs so far: one pair for each item, one for each schematic. -/
structure PlanetaryIDs (names : Names) (known : Finset TypeID) (done : List Planetary)
    (s : PlanetaryState K) (ids : List JobID) : Prop where
  named : Named s.jobs ids
  nodup : ids.Nodup
  origin : ∀ j ∈ ids, Origin names s.planetaryItems done j
  items : s.planetaryItems ⊆ known

theorem getName_ok {names : Names} {t : TypeID} {name : String}
    (h : names.getName t = .ok name) : names t = some name := by
  unfold Names.getName at h
  split at h
  · next n hn =>
    obtain rfl := Except.ok.inj h
    exact hn
  · exact absurd h (by simp)

variable [Field K] {known : Finset TypeID} {done : List Planetary} {s s' : PlanetaryState K}
  {ids : List JobID} {schematics : List Planetary}

/-- An item gets its jobs once. -/
theorem PlanetaryIDs.getPlanetaryResource (h : PlanetaryIDs x.names known done s ids)
    (hinj : Set.InjOn x.names known) {id : TypeID} {name : String} (hid : id ∈ known)
    (hname : x.names id = some name)
    (hok : getPlanetaryResource x schematics id name s = .ok s') :
    ∃ ids', PlanetaryIDs x.names known done s' ids' := by
  unfold Industry.getPlanetaryResource at hok
  split at hok
  · obtain rfl := Except.ok.inj hok
    exact ⟨ids, h⟩
  · next hnew =>
    obtain ⟨resource, -, hok⟩ := bind_eq_ok hok
    obtain rfl := Except.ok.inj hok
    -- an item of the same name would be the same item
    have hfresh : ∀ id' ∈ s.planetaryItems, x.names id' ≠ some name := by
      intro id' hid' hname'
      have heq := hinj (h.items hid') hid (hname'.trans hname.symm)
      exact hnew (heq ▸ hid')
    refine ⟨ids ++ [.planetary .import (materialTier schematics id) name,
      .planetary .export (materialTier schematics id) name], ?_, ?_, ?_, ?_⟩
    · exact h.named.append rfl
    · rw [List.nodup_append']
      refine ⟨h.nodup, by simp, ?_⟩
      intro j hj hj'
      have horigin := h.origin j hj
      rcases List.mem_pair.mp hj' with rfl | rfl
      · obtain ⟨id', hid', hname'⟩ := horigin
        exact hfresh id' hid' hname'
      · obtain ⟨id', hid', hname'⟩ := horigin
        exact hfresh id' hid' hname'
    · intro j hj
      rcases List.mem_append.mp hj with hj | hj
      · exact (h.origin j hj).mono (Finset.subset_insert _ _) fun _ hp => hp
      · rcases List.mem_pair.mp hj with rfl | rfl
        · exact ⟨id, Finset.mem_insert_self _ _, hname⟩
        · exact ⟨id, Finset.mem_insert_self _ _, hname⟩
    · exact Finset.insert_subset hid h.items

/-- The materials of a schematic get their jobs. -/
theorem PlanetaryIDs.foldlM_planetaryMaterial (h : PlanetaryIDs x.names known done s ids)
    (hinj : Set.InjOn x.names known) {ms : Materials} (hms : ∀ m ∈ ms, m.1 ∈ known)
    (hok : ms.foldlM (planetaryMaterial x schematics) s = .ok s') :
    ∃ ids', PlanetaryIDs x.names known done s' ids' := by
  induction ms generalizing s ids with
  | nil =>
    obtain rfl := Except.ok.inj hok
    exact ⟨ids, h⟩
  | cons m ms ih =>
    obtain ⟨s₁, h₁, hok⟩ := bind_eq_ok hok
    obtain ⟨name, hname, h₁⟩ := bind_eq_ok h₁
    obtain ⟨ids₁, hids₁⟩ :=
      h.getPlanetaryResource hinj (hms m List.mem_cons_self) (getName_ok hname) h₁
    exact ih hids₁ (fun m' hm' => hms m' (List.mem_cons_of_mem _ hm')) hok

/-- A schematic gets its job. -/
theorem PlanetaryIDs.planetaryJob (h : PlanetaryIDs x.names known done s ids)
    (hinj : Set.InjOn x.names known) {p : Planetary} (hproduct : p.product ∈ known)
    (hms : ∀ m ∈ p.materials, m.1 ∈ known) (hdone : ∀ q ∈ done, q.product ∈ known)
    (hnew : p.product ∉ done.map Planetary.product)
    (hok : planetaryJob x schematics s p = .ok s') :
    ∃ ids', PlanetaryIDs x.names known (done ++ [p]) s' ids' := by
  obtain ⟨s₁, h₁, hok⟩ := bind_eq_ok hok
  obtain ⟨name, hname, hok⟩ := bind_eq_ok hok
  obtain ⟨s₂, h₂, hok⟩ := bind_eq_ok hok
  obtain rfl := Except.ok.inj hok
  have hname := getName_ok hname
  obtain ⟨ids₁, hids₁⟩ := h.foldlM_planetaryMaterial hinj hms h₁
  obtain ⟨ids₂, hids₂⟩ := hids₁.getPlanetaryResource hinj hproduct hname h₂
  refine ⟨ids₂ ++ [.planetary .produce (p.tier + 1 : ℕ) name], ?_, ?_, ?_, hids₂.items⟩
  · exact Named.append hids₂.named rfl
  · rw [List.nodup_append']
    refine ⟨hids₂.nodup, List.nodup_singleton _, ?_⟩
    intro j hj hj'
    obtain rfl := List.mem_singleton.mp hj'
    -- a schematic for an item of the same name would be for the same item
    obtain ⟨q, hq, hqname⟩ := hids₂.origin _ hj
    have heq := hinj (hdone q hq) hproduct (hqname.trans hname.symm)
    exact hnew (heq ▸ List.mem_map_of_mem hq)
  · intro j hj
    rcases List.mem_append.mp hj with hj | hj
    · exact (hids₂.origin j hj).mono subset_rfl fun q hq => List.mem_append_left _ hq
    · obtain rfl := List.mem_singleton.mp hj
      exact ⟨p, by simp, hname⟩

/-- The loop over the schematics. -/
theorem PlanetaryIDs.foldlM_planetaryJob (h : PlanetaryIDs x.names known done s ids)
    (hinj : Set.InjOn x.names known) {ps : List Planetary}
    (hknown : ∀ id ∈ planetaryItemIDs (done ++ ps), id ∈ known)
    (hproducts : ((done ++ ps).map Planetary.product).Nodup)
    (hok : ps.foldlM (Industry.planetaryJob x schematics) s = .ok s') :
    ∃ ids', PlanetaryIDs x.names known (done ++ ps) s' ids' := by
  induction ps generalizing done s ids with
  | nil =>
    obtain rfl := Except.ok.inj hok
    exact ⟨ids, by rwa [List.append_nil]⟩
  | cons p ps ih =>
    obtain ⟨s₁, h₁, hok⟩ := bind_eq_ok hok
    have hitem : ∀ q ∈ done ++ p :: ps, q.product ∈ known ∧ ∀ m ∈ q.materials, m.1 ∈ known := by
      intro q hq
      refine ⟨hknown _ (List.mem_flatMap.mpr ⟨q, hq, List.mem_cons_self⟩), ?_⟩
      intro m hm
      exact hknown _ (List.mem_flatMap.mpr
        ⟨q, hq, List.mem_cons_of_mem _ (List.mem_map_of_mem hm)⟩)
    have hp := hitem p (by simp)
    have hnew : p.product ∉ done.map Planetary.product := by
      rw [List.map_append, List.nodup_append'] at hproducts
      intro hmem
      exact hproducts.2.2 hmem (by simp)
    obtain ⟨ids₁, hids₁⟩ := h.planetaryJob hinj hp.1 hp.2
      (fun q hq => (hitem q (List.mem_append_left _ hq)).1) hnew h₁
    have hsplit : done ++ p :: ps = (done ++ [p]) ++ ps := by simp
    rw [hsplit] at hknown hproducts ⊢
    exact ih hids₁ hknown hproducts hok

/-- **Planetary jobs have different names**, if items have and schematics have
different products. -/
theorem PlanetaryIDs.getPlanetaryJobs {jobs : List (Job Resource K)}
    (hinj : Set.InjOn x.names {id | id ∈ planetaryItemIDs schematics})
    (hproducts : (schematics.map Planetary.product).Nodup)
    (hok : getPlanetaryJobs x schematics = .ok jobs) :
    ∃ ids, Named jobs ids ∧ ids.Nodup ∧ ∀ j ∈ ids, j.family = 0 := by
  obtain ⟨s, hs, hok⟩ := bind_eq_ok hok
  obtain rfl := Except.ok.inj hok
  have hstart : PlanetaryIDs x.names (planetaryItemIDs schematics).toFinset []
      ⟨∅, facilityJobs x⟩ [.facility 0, .facility 1, .facility 2] :=
    ⟨rfl, by decide, by simp [Origin], by simp⟩
  have hknown : ∀ id ∈ planetaryItemIDs ([] ++ schematics),
      id ∈ (planetaryItemIDs schematics).toFinset := by simp
  obtain ⟨ids, hids⟩ := hstart.foldlM_planetaryJob (by simpa using hinj) hknown
    (by simpa using hproducts) hs
  refine ⟨ids, hids.named, hids.nodup, ?_⟩
  intro j hj
  have horigin := hids.origin j hj
  cases j with
  | facility i => rfl
  | planetary kind tier name => rfl
  | buy type order => exact absurd horigin id
  | sell type order => exact absurd horigin id
  | produce techLevel copy product => exact absurd horigin id
  | research blueprint decryptor product => exact absurd horigin id
  | copy blueprint => exact absurd horigin id

end Planetary

/-! ### Inventions and copies -/

section Distinct

variable {N K : Type} [Document N K] [Field K]

/-- Inventions and copies so far are of blueprints so far, and different. -/
structure Distinct (ids : List TypeID) (jobs : Jobs K) : Prop where
  research_mem : ∀ r ∈ jobs.inventions.t2Blueprints ++ jobs.inventions.t3Blueprints,
    r.blueprint ∈ ids
  research_nodup : ((jobs.inventions.t2Blueprints ++ jobs.inventions.t3Blueprints).map
    fun r => (r.blueprint, r.product)).Nodup
  copy_mem : ∀ c ∈ jobs.t1Copies, c.blueprint ∈ ids
  copy_nodup : (jobs.t1Copies.map Copying.blueprint).Nodup

omit [Field K] in
theorem perm_append (s : Inventions K) (racialSkill : ℕ) (added : List (Research K)) :
    ((s.append racialSkill added).t2Blueprints ++ (s.append racialSkill added).t3Blueprints).Perm
      (s.t2Blueprints ++ s.t3Blueprints ++ added) := by
  unfold Inventions.append
  split
  · rw [List.append_assoc, List.append_assoc]
    exact List.Perm.append_left _ List.perm_append_comm
  · rw [List.append_assoc]

omit [Field K] in
theorem inventionCall?_blueprintId {inputs : Inputs K} {e : TypeID × N} {c : Call N K}
    (h : inventionCall? inputs e = some c) : c.blueprintId = e.1 := by
  unfold inventionCall? at h
  split at h
  · obtain rfl := Option.some.inj h
    rfl
  · exact absurd h (by simp)

/-- What one more blueprint adds is different from all before. -/
theorem Distinct.add {inputs : Inputs K} {ids : List TypeID} {jobs jobs' : Jobs K}
    {e : TypeID × N} (h : Distinct ids jobs) (hnew : e.1 ∉ ids)
    (hproducts : ∀ c, inventionCall? inputs e = some c → c.products.Nodup)
    (hname : (inputs.names e.1).isNone = false) (hok : jobs.add inputs e.1 e.2 = .ok jobs') :
    Distinct (ids ++ [e.1]) jobs' := by
  obtain ⟨-, ⟨c, hc, hcall⟩, hcopies⟩ := Jobs.add_ok hname hok
  obtain ⟨racialSkill, added, happend, hhanded, hsub, -⟩ := addInventionData_ok hcall
  have hperm := perm_append jobs.inventions racialSkill added
  rw [← happend] at hperm
  have hblueprint : ∀ r ∈ added, r.blueprint = e.1 := by
    intro r hr
    exact (hhanded.blueprint r hr).trans (inventionCall?_blueprintId hc)
  refine ⟨?_, ?_, ?_, ?_⟩
  · intro r hr
    rcases List.mem_append.mp (hperm.mem_iff.mp hr) with hr | hr
    · exact List.mem_append_left _ (h.research_mem r hr)
    · rw [hblueprint r hr]
      simp
  · rw [(hperm.map _).nodup_iff, List.map_append, List.nodup_append']
    refine ⟨h.research_nodup, ?_, ?_⟩
    · have hnodup := (hproducts c hc).sublist hsub
      apply List.Nodup.of_map Prod.snd
      rwa [List.map_map]
    · -- what was there before is of other blueprints
      intro k hk hk'
      obtain ⟨r, hr, rfl⟩ := List.mem_map.mp hk
      obtain ⟨r', hr', heq⟩ := List.mem_map.mp hk'
      have hold := h.research_mem r hr
      rw [← (Prod.mk.inj heq).1, hblueprint r' hr'] at hold
      exact hnew hold
  · intro c' hc'
    rcases hcopies with hcopies | ⟨t, hcopies⟩
    · rw [hcopies] at hc'
      exact List.mem_append_left _ (h.copy_mem c' hc')
    · rw [hcopies] at hc'
      rcases List.mem_append.mp hc' with hc' | hc'
      · exact List.mem_append_left _ (h.copy_mem c' hc')
      · rw [List.mem_singleton.mp hc']
        simp
  · rcases hcopies with hcopies | ⟨t, hcopies⟩
    · rw [hcopies]
      exact h.copy_nodup
    · rw [hcopies, List.map_append, List.nodup_append']
      refine ⟨h.copy_nodup, List.nodup_singleton _, ?_⟩
      intro b hb hb'
      obtain ⟨c', hc', rfl⟩ := List.mem_map.mp hb
      rw [List.map_singleton, List.mem_singleton] at hb'
      have hb' : c'.blueprint = e.1 := hb'
      exact hnew (hb' ▸ h.copy_mem c' hc')

/-- **Inventions and copies are for different things**, if blueprints are different
and each of them lists different inventions. -/
theorem Distinct.processBlueprints {inputs : Inputs K} {catalogue : Catalogue N}
    {s : Types × Jobs K} (hids : (catalogue.map Prod.fst).Nodup)
    (hproducts : ∀ e ∈ catalogue, ∀ c, inventionCall? inputs e = some c → c.products.Nodup)
    (h : processBlueprints inputs catalogue = .ok s) : Distinct (catalogue.map Prod.fst) s.2 := by
  induction catalogue using List.reverseRecOn generalizing s with
  | nil =>
    obtain rfl := Except.ok.inj h
    exact ⟨by simp [Jobs.empty, Inventions.empty], by simp [Jobs.empty, Inventions.empty],
      by simp [Jobs.empty], by simp [Jobs.empty]⟩
  | append_singleton catalogue e ih =>
    obtain ⟨s₁, h₁, h⟩ := foldlM_append_eq_ok h
    obtain ⟨s₂, hround, h⟩ := bind_eq_ok h
    obtain rfl := Except.ok.inj h
    rw [List.map_append, List.map_singleton] at hids ⊢
    have hbefore := ih hids.of_append_left
      (fun e' he' => hproducts e' (List.mem_append_left _ he')) h₁
    obtain ⟨types, -, hround⟩ := bind_eq_ok hround
    split at hround
    · obtain rfl := Except.ok.inj hround
      exact ⟨fun r hr => List.mem_append_left _ (hbefore.research_mem r hr),
        hbefore.research_nodup, fun c hc => List.mem_append_left _ (hbefore.copy_mem c hc),
        hbefore.copy_nodup⟩
    · next hname =>
      obtain ⟨jobs, hjobs, hround⟩ := bind_eq_ok hround
      obtain rfl := Except.ok.inj hround
      have hnew : e.1 ∉ catalogue.map Prod.fst := by
        rw [List.nodup_append'] at hids
        intro hmem
        exact hids.2.2 hmem (List.mem_singleton_self _)
      exact hbefore.add hnew (hproducts e (by simp)) (Bool.eq_false_iff.mpr hname) hjobs

/-- Products are made from different blueprints. -/
theorem nodup_kept [LinearOrder K] {settings : Settings K} {inputs : Inputs K}
    {catalogue : Catalogue N} (hids : (catalogue.map Prod.fst).Nodup) :
    ((kept settings inputs catalogue).map Production.blueprint).Nodup := by
  have hmade : ((catalogue.filterMap (made inputs)).map Production.blueprint).Sublist
      (catalogue.map Prod.fst) := by
    -- each blueprint makes one product at most
    induction catalogue with
    | nil => exact List.Sublist.refl _
    | cons e catalogue ih =>
      have ih := ih (List.nodup_cons.mp hids).2
      cases hp : made inputs e with
      | none =>
        rw [List.filterMap_cons_none hp]
        exact ih.cons _
      | some p =>
        rw [List.filterMap_cons_some hp, List.map_cons, List.map_cons, (made_eq_some hp).1]
        exact ih.cons_cons _
  have hsub : (kept settings inputs catalogue).Sublist (catalogue.filterMap (made inputs)) :=
    List.filter_sublist.trans List.filter_sublist
  exact (hids.sublist hmade).sublist (hsub.map _)

end Distinct

/-! ### All jobs -/

/-- Things of different families are different. -/
theorem nodup_families {f : Fin 5 → List JobID} (hf : ∀ i, ∀ j ∈ f i, j.family = i) :
    ((List.finRange 5).flatMap f).Nodup ↔ ∀ i, (f i).Nodup := by
  rw [List.nodup_flatMap]
  constructor
  · intro h i
    exact h.1 i (List.mem_finRange i)
  · intro h
    refine ⟨fun i _ => h i, (List.nodup_finRange 5).imp ?_⟩
    intro i i' hne j hj hj'
    exact hne ((hf i j hj).symm.trans (hf i' j hj'))

section All

variable {N K : Type} [Document N K] [Field K] [LinearOrder K] [FloorRing K]

/-- What all jobs are for, family by family. -/
def jobIDs (x : PlannerAndStuff K) (planetary : List JobID) (orders : Orders K)
    (products : List (Production K)) (jobs : Jobs K) : Fin 5 → List JobID
  | 0 => planetary
  | 1 => marketIDs x orders
  | 2 => products.flatMap (productIDs x)
  | 3 => (jobs.inventions.t2Blueprints ++ jobs.inventions.t3Blueprints).flatMap (researchIDs x)
  | 4 => jobs.t1Copies.flatMap (copyIDs x)

/-- The jobs have the names of what they are for. -/
theorem named_generateJobs {x : PlannerAndStuff K} {schematics : List Planetary}
    {orders : Orders K} {jobs : Jobs K} {products : List (Production K)}
    {all : List (Job Resource K)}
    (heq : getManufacturingJobs x jobs.products = collectM (productJobs x) products)
    (hproducts : ∀ p ∈ products, (x.names p.blueprint).isSome ∧
      p.blueprint ∉ x.settings.ignoreList)
    (h : generateJobs x schematics orders jobs = .ok all) :
    ∃ planetary, getPlanetaryJobs x schematics = .ok planetary ∧
      (∀ p ∈ products, ∃ techLevel, x.types.getBPTechLevel p.blueprint = .ok techLevel) ∧
      ∀ ids, Named planetary ids →
        Named all ((List.finRange 5).flatMap (jobIDs x ids orders products jobs)) := by
  obtain ⟨planetary, hplanetary, h⟩ := bind_eq_ok h
  obtain ⟨market, hmarket, h⟩ := bind_eq_ok h
  obtain ⟨production, hproduction, h⟩ := bind_eq_ok h
  obtain ⟨t2, ht2, h⟩ := bind_eq_ok h
  obtain ⟨t3, ht3, h⟩ := bind_eq_ok h
  obtain ⟨copy, hcopy, h⟩ := bind_eq_ok h
  obtain rfl := Except.ok.inj h
  rw [heq] at hproduction
  refine ⟨planetary, hplanetary, ?_, ?_⟩
  · intro p hp
    obtain ⟨js, hjs⟩ := collectM_ok_of_mem hproduction hp
    exact (named_productJobs (hproducts p hp).2 (hproducts p hp).1 hjs).1
  · intro ids hids
    have hmarket := named_getMarketJobs hmarket
    have hproduction : Named production (products.flatMap (productIDs x)) :=
      named_collectM (fun p hp js hjs =>
        (named_productJobs (hproducts p hp).2 (hproducts p hp).1 hjs).2) hproduction
    have ht2 : Named t2 (jobs.inventions.t2Blueprints.flatMap (researchIDs x)) :=
      named_collectM (fun _ _ _ => named_inventionJobs) ht2
    have ht3 : Named t3 (jobs.inventions.t3Blueprints.flatMap (researchIDs x)) :=
      named_collectM (fun _ _ _ => named_inventionJobs) ht3
    have hcopy : Named copy (jobs.t1Copies.flatMap (copyIDs x)) :=
      named_collectM (fun _ _ _ => named_copyJobs) hcopy
    have hall := ((((hids.append hmarket).append hproduction).append ht2).append ht3).append hcopy
    have hfamilies : (List.finRange 5).flatMap (jobIDs x ids orders products jobs) =
        ids ++ (marketIDs x orders ++ (products.flatMap (productIDs x) ++
          ((jobs.inventions.t2Blueprints ++ jobs.inventions.t3Blueprints).flatMap
            (researchIDs x) ++ (jobs.t1Copies.flatMap (copyIDs x) ++ [])))) := rfl
    rw [hfamilies, List.flatMap_append]
    simpa only [List.append_assoc, List.append_nil] using hall

omit [Field K] [FloorRing K] in
/-- Every list is of its family, and all but the products are distinct. -/
theorem jobIDs_distinct (x : PlannerAndStuff K) (inputs : Inputs K) (settings : Settings K)
    (products : List (Production K)) {ids : List TypeID} {planetary : List JobID}
    {orders : Orders K} {jobs : Jobs K} (hplanetary : planetary.Nodup)
    (hfamily : ∀ j ∈ planetary, j.family = 0)
    (horders : ((orders.sellorders ++ orders.buyorders).map Order.id).Nodup)
    (hjobs : Distinct ids jobs) :
    (∀ i, ∀ j ∈ jobIDs x planetary orders products
        (jobs.filter inputs.skills inputs.avgPrices settings.bpoPriceLimit) i, j.family = i) ∧
      ∀ i, i ≠ 2 → (jobIDs x planetary orders products
        (jobs.filter inputs.skills inputs.avgPrices settings.bpoPriceLimit) i).Nodup := by
  have hmarket := nodup_marketIDs x horders
  have hresearchSub : ((jobs.inventions.filter inputs.skills).t2Blueprints ++
      (jobs.inventions.filter inputs.skills).t3Blueprints).Sublist
        (jobs.inventions.t2Blueprints ++ jobs.inventions.t3Blueprints) :=
    List.Sublist.append List.filter_sublist List.filter_sublist
  have hresearch := nodup_researchIDs x (hjobs.research_nodup.sublist (hresearchSub.map _))
  have hcopySub : (filterCopies inputs.avgPrices settings.bpoPriceLimit jobs.t1Copies).Sublist
      jobs.t1Copies := List.filter_sublist
  have hcopy := nodup_copyIDs x (hjobs.copy_nodup.sublist (hcopySub.map _))
  constructor
  · intro i j hj
    match i with
    | 0 => exact hfamily j hj
    | 1 => exact hmarket.2 j hj
    | 2 =>
      obtain ⟨p, -, hj⟩ := List.mem_flatMap.mp hj
      obtain ⟨techLevel, bpe, -, rfl⟩ := mem_productIDs x hj
      rfl
    | 3 => exact hresearch.2 j hj
    | 4 => exact hcopy.2 j hj
  · intro i hi
    match i with
    | 0 => exact hplanetary
    | 1 => exact hmarket.1
    | 2 => exact absurd rfl hi
    | 3 => exact hresearch.1
    | 4 => exact hcopy.1

/-- **All jobs have different names if and only if no two blueprints of the same
technology make the same.** -/
theorem nodup_names_iff {settings : Settings K} {inputs : Inputs K} {catalogue : Catalogue N}
    {schematics : List Planetary} {orders : Orders K} (values : TypeID → Option K)
    (hids : (catalogue.map Prod.fst).Nodup)
    (hinventions : ∀ e ∈ catalogue, ∀ c, inventionCall? inputs e = some c → c.products.Nodup)
    (horders : ((orders.sellorders ++ orders.buyorders).map Order.id).Nodup)
    (hschematics : (schematics.map Planetary.product).Nodup)
    (hnames : Set.InjOn inputs.names {id | id ∈ planetaryItemIDs schematics})
    {s : Types × Jobs K} (h : processBlueprints inputs catalogue = .ok s)
    {jobs : List (Job Resource K)}
    (hjobs : generateJobs (plannerAndStuff settings inputs s.1 values) schematics orders
      (s.2.filter inputs.skills inputs.avgPrices settings.bpoPriceLimit) = .ok jobs) :
    ((jobs.map Job.name).Nodup ∧ ∀ lowerLimit e,
        Planner.addJobs (resources lowerLimit) .empty jobs = .error e → ¬ Planner.Already e) ↔
      ∀ p ∈ kept settings inputs catalogue, ∀ p' ∈ kept settings inputs catalogue,
        p.product = p'.product →
          s.1.getBPTechLevel p.blueprint = s.1.getBPTechLevel p'.blueprint →
            p.blueprint = p'.blueprint := by
  set x := plannerAndStuff settings inputs s.1 values with hx
  obtain ⟨planetary, hplanetary, hlevels, hnamed⟩ := named_generateJobs
    (getManufacturingJobs_eq h values) (fun p hp => mem_kept hp) hjobs
  obtain ⟨ids, hplanetary, hplanetaryNodup, hplanetaryFamily⟩ :=
    PlanetaryIDs.getPlanetaryJobs hnames hschematics hplanetary
  have hnamed := hnamed ids hplanetary
  obtain ⟨hfamily, hothers⟩ := jobIDs_distinct x inputs settings (kept settings inputs catalogue)
    hplanetaryNodup hplanetaryFamily horders (Distinct.processBlueprints hids hinventions h)
  -- only products can clash
  have hnames : (jobs.map Job.name).Nodup ↔
      ((kept settings inputs catalogue).flatMap (productIDs x)).Nodup := by
    rw [hnamed.nodup_iff, nodup_families hfamily]
    constructor
    · intro hall
      exact hall 2
    · intro hproducts i
      by_cases hi : i = 2
      · subst hi
        exact hproducts
      · exact hothers i hi
  have hkept : ((kept settings inputs catalogue).map Production.blueprint).Nodup := nodup_kept hids
  have hproducts := nodup_productIDs_iff x hkept hlevels
  constructor
  · intro haccepted
    exact hproducts.mp (hnames.mp haccepted.1)
  · intro hclash
    have hnodup := hnames.mpr (hproducts.mpr hclash)
    refine ⟨hnodup, ?_⟩
    intro lowerLimit e herror
    exact Planner.wellFormed_empty.addJobs_not_already (by simpa [Planner.empty] using hnodup)
      herror

end All

/-! ### Blueprints that make the same -/

/-- A schematic that makes item `50` of item `40`. -/
def sampleSchematic : Planetary := ⟨50, 20, [(40, 3000)], 1800, 0⟩

/-- An order for item `30`. -/
def sampleOrder (id : ℕ) : Order ℚ := ⟨id, 30, 5, 100, 60003760, "Jita"⟩

/-- Orders of one id for each side. -/
def sampleOrders : Orders ℚ := ⟨[sampleOrder 1], [sampleOrder 2]⟩

/-- All names are different if there is one blueprint. -/
theorem nodup_names_iff_one :
    ∃ s jobs, processBlueprints (sampleInputs (some 6)) [(10, sampleBlueprint 10)] = .ok s ∧
      generateJobs (plannerAndStuff sampleSettings (sampleInputs (some 6)) s.1
          (jobValues (sampleInputs (some 6)) s.2 [(10, 20)]))
        [sampleSchematic] sampleOrders
        (s.2.filter noLevels (sampleInputs (some 6)).avgPrices 0) = .ok jobs ∧
      (jobs.map Job.name).Nodup ∧ ∀ lowerLimit e,
        Planner.addJobs (resources lowerLimit) .empty jobs = .error e → ¬ Planner.Already e := by
  obtain ⟨s, jobs, hs, hjobs⟩ : ∃ s jobs,
      processBlueprints (sampleInputs (some 6)) [(10, sampleBlueprint 10)] = .ok s ∧
      generateJobs (plannerAndStuff sampleSettings (sampleInputs (some 6)) s.1
          (jobValues (sampleInputs (some 6)) s.2 [(10, 20)]))
        [sampleSchematic] sampleOrders
        (s.2.filter noLevels (sampleInputs (some 6)).avgPrices 0) = .ok jobs :=
    ⟨_, _, rfl, rfl⟩
  have hinventions : ∀ e ∈ [((10 : TypeID), sampleBlueprint 10)], ∀ c,
      inventionCall? (sampleInputs (some 6)) e = some c → c.products.Nodup := by
    intro e he c hc
    obtain rfl := List.mem_singleton.mp he
    obtain rfl := Option.some.inj hc
    exact List.nodup_nil
  have hnames : Set.InjOn (sampleInputs (some 6)).names
      {id | id ∈ planetaryItemIDs [sampleSchematic]} := by
    intro _ _ _ _ heq
    exact toString_injective (Option.some.inj heq)
  have hkept : kept sampleSettings (sampleInputs (some 6)) [(10, sampleBlueprint 10)] =
      [sampleProduction] := rfl
  refine ⟨s, jobs, hs, hjobs, (nodup_names_iff _ (by decide) hinventions (by decide) (by decide)
    hnames hs hjobs).mpr ?_⟩
  intro p hp p' hp' _ _
  rw [hkept] at hp hp'
  rw [List.mem_singleton.mp hp, List.mem_singleton.mp hp']

/-- Two blueprints that make the same product have jobs of the same name, and the
planner refuses the second. -/
theorem addJobs_already_have :
    ∃ s jobs,
      processBlueprints (sampleInputs (some 6))
        [(10, sampleBlueprint 10), (11, sampleBlueprint 11)] = .ok s ∧
      s.1.IsOrder [(11, 20), (10, 20)] ∧
      generateJobs (plannerAndStuff sampleSettings (sampleInputs (some 6)) s.1
          (jobValues (sampleInputs (some 6)) s.2 [(11, 20), (10, 20)]))
        [sampleSchematic] sampleOrders
        (s.2.filter noLevels (sampleInputs (some 6)).avgPrices 0) = .ok jobs ∧
      ¬ (jobs.map Job.name).Nodup ∧
      Planner.addJobs (resources fun _ => 0) .empty jobs =
        .error (.runtimeError "Already have job 'T1_Produce_1.000000_1.000000_BPC_20'") := by
  refine ⟨_, _, rfl, List.Perm.refl _, rfl, ?_, ?_⟩
  · decide
  · rfl

end Industry
end EveIndustryPlanner
