import EveIndustryPlanner.Industry.Accepted
import EveIndustryPlanner.Industry.Schematics
import EveIndustryPlanner.Lib.Agree

/-!
# Planetary jobs of loaded schematics

The jobs are made from the schematics as they were loaded, with tiers of eight
bits that are used as indices.  Items on planets are kept in a map and are made,
with the two jobs that move them, while the job of a schematic is being put
together.

## Main definitions

* `getMaterialFeeAndTier`, `getPlanetaryItem`, `addSchematic`,
  `Schematics.getPlanetaryJobs` — the code, with every index checked.
* `PlanetaryRecord.toPlanetary` — a schematic with a tier that is in range.
* `itemJobs`, `produceJob` — the jobs that are expected.
* `OneJobEach` — what is left at the end.

## Main results

* `agree_getPlanetaryJobs` — **no index is out of range**: the jobs are those of
  schematics whose tiers are in range.
* `Emitted.planetaryJob` — what one schematic adds.
* `loadSchematics_getPlanetaryJobs` — **schematics are grouped as the rows say,
  and each has one job, and each of their types one item with two jobs.**
-/

namespace EveIndustryPlanner
namespace Industry

open Planning

/-! ### The code -/

/-- Why planetary jobs were not made. -/
inductive PlanetaryFault where
  /-- An exception. -/
  | failure (f : Failure)
  /-- An index out of range. -/
  | undefined
  deriving DecidableEq, Repr

/-- Pass an exception on. -/
def passOn {α : Type} : Except Failure α → Except PlanetaryFault α
  | .ok a => .ok a
  | .error f => .error (.failure f)

/-- `array[i]`. -/
def element {α : Type} (array : List α) (i : ℕ) : Except PlanetaryFault α :=
  match array[i]? with
  | some a => .ok a
  | none => .error .undefined

/-- The values of items of each tier. -/
def baseValue : List ℕ := [5, 400, 7200, 60000, 1200000]

/-- The facilities for each tier. -/
def tierTimes : List Resource :=
  [.basicIndustryTime, .advancedIndustryTime, .advancedIndustryTime, .highTechIndustryTime]

/-- The items on planets and the jobs, so far. -/
structure PlanetaryTables (K : Type) where
  planetaryItems : List (TypeID × Resource)
  jobs : List (Job Resource K)

section Code

variable {K : Type} [Field K]

/-- The fee for an item and its tier, which is one above that of its schematic. -/
def getMaterialFeeAndTier (ps : List PlanetaryRecord) (id : TypeID) :
    Except PlanetaryFault (K × ℕ) := do
  let tier :=
    match ps.find? fun p => p.product = id with
    | none => 0
    | some p => p.tier.toNat + 1
  let value ← element baseValue tier
  return (percent 17 * (value : K), tier)

variable (x : PlannerAndStuff K)

/-- An item on a planet, which is made if it is not there. -/
def getPlanetaryItem (ps : List PlanetaryRecord) (id : TypeID) (name : String)
    (t : PlanetaryTables K) : Except PlanetaryFault (Resource × PlanetaryTables K) :=
  match t.planetaryItems.lookup id with
  | some pResource => .ok (pResource, t)
  | none => do
    let (fee, tier) ← getMaterialFeeAndTier ps id
    let resource ← passOn (getResource x id)
    let pResource := Resource.planetaryItem id
    return (pResource, {
      planetaryItems := t.planetaryItems ++ [(id, pResource)]
      jobs := t.jobs ++
        [unlimited [(resource, 1)] [(pResource, 1)] (-(1 / ((2 : ℕ) : K)) * fee)
            ("P" ++ toString tier ++ "_Import_" ++ name),
          unlimited [(pResource, 1)] [(resource, 1)] (-fee)
            ("P" ++ toString tier ++ "_Export_" ++ name)] })

/-- One material of a schematic is added to its inputs. -/
def addMaterial (ps : List PlanetaryRecord)
    (a : Planning.Materials Resource K × PlanetaryTables K) (m : TypeID × ℕ) :
    Except PlanetaryFault (Planning.Materials Resource K × PlanetaryTables K) := do
  let name ← passOn (x.names.getName m.1)
  let (pResource, t) ← getPlanetaryItem x ps m.1 name a.2
  return (a.1 ++ [(pResource, (m.2 : K))], t)

/-- One schematic. -/
def addSchematic (ps : List PlanetaryRecord) (t : PlanetaryTables K) (p : PlanetaryRecord) :
    Except PlanetaryFault (PlanetaryTables K) := do
  let (inputs, t) ← p.materials.foldlM (addMaterial x ps) ([], t)
  let time ← element tierTimes p.tier.toNat
  let pName ← passOn (x.names.getName p.product)
  let (product, t) ← getPlanetaryItem x ps p.product pName t
  return { t with
    jobs := t.jobs ++ [unlimited (inputs ++ [(time, (p.duration : K))])
      [(product, (p.producedQuantity : K))] 0
      ("P" ++ toString (p.tier.toNat + 1) ++ "_Produce_" ++ pName)] }

/-- All schematics. -/
def Schematics.planetaryTables (s : Schematics) : Except PlanetaryFault (PlanetaryTables K) :=
  s.schematics.foldlM (addSchematic x s.schematics) ⟨[], facilityJobs x⟩

/-- All planetary jobs. -/
def Schematics.getPlanetaryJobs (s : Schematics) :
    Except PlanetaryFault (List (Job Resource K)) := do
  let t ← s.planetaryTables x
  return t.jobs

end Code

/-! ### Tiers in range -/

/-- A schematic with a tier that is in range, which that of a loaded one is. -/
def PlanetaryRecord.toPlanetary (p : PlanetaryRecord) : Planetary where
  product := p.product
  producedQuantity := p.producedQuantity
  materials := p.materials
  duration := p.duration
  tier := ⟨p.tier.toNat % 4, Nat.mod_lt _ (by decide)⟩

theorem PlanetaryRecord.tier_toPlanetary {p : PlanetaryRecord} (h : p.tier ≤ 3) :
    (p.toPlanetary.tier : ℕ) = p.tier.toNat := by
  have hle : p.tier.toNat ≤ 3 := UInt8.le_iff_toNat_le.mp h
  exact Nat.mod_eq_of_lt (by omega)

/-- The facility of a tier that is in range. -/
theorem element_tierTimes {p : PlanetaryRecord} (h : p.tier ≤ 3) :
    element tierTimes p.tier.toNat = .ok (tierTime p.toPlanetary.tier) := by
  rw [← PlanetaryRecord.tier_toPlanetary h]
  generalize p.toPlanetary.tier = tier
  decide +revert

/-- The value of an item of a tier that a schematic in range makes, or of none. -/
theorem element_baseValue {tier : ℕ} (h : tier ≤ 4) :
    element baseValue tier = .ok (baseValue.getD tier 0) := by
  have hlt : tier < baseValue.length := by
    rw [show baseValue.length = 5 from rfl]
    omega
  rw [element, List.getElem?_eq_getElem hlt, List.getD_eq_getElem _ _ hlt]

section Agreement

variable {K : Type} [Field K] {x : PlannerAndStuff K} {ps : List PlanetaryRecord}
  {t : PlanetaryTables K} {s : PlanetaryState K}

theorem materialTier_le (schematics : List Planetary) (id : TypeID) :
    materialTier schematics id ≤ 4 := by
  unfold materialTier
  split
  · next p _ =>
    have hlt := p.tier.isLt
    omega
  · omega

/-- **The tier of an item is that of schematics in range**, and so is its fee. -/
theorem getMaterialFeeAndTier_eq (hps : ∀ p ∈ ps, p.tier ≤ 3) (id : TypeID) :
    getMaterialFeeAndTier (K := K) ps id =
      .ok (materialFee (materialTier (ps.map PlanetaryRecord.toPlanetary) id),
        materialTier (ps.map PlanetaryRecord.toPlanetary) id) := by
  have htier : (match ps.find? fun p => p.product = id with
      | none => 0
      | some p => p.tier.toNat + 1) = materialTier (ps.map PlanetaryRecord.toPlanetary) id := by
    rw [materialTier, List.find?_map]
    have hsame : ((fun p : Planetary => decide (p.product = id)) ∘ PlanetaryRecord.toPlanetary) =
        fun p => decide (p.product = id) := rfl
    rw [hsame]
    cases hf : ps.find? fun p => p.product = id with
    | none => rfl
    | some p =>
      have hp := hps p (List.mem_of_find?_eq_some hf)
      exact congrArg (· + 1) (PlanetaryRecord.tier_toPlanetary hp).symm
  rw [getMaterialFeeAndTier, htier, element_baseValue (materialTier_le _ _)]
  rfl

/-- An exception that was passed on. -/
def PassedOn (e : PlanetaryFault) (f : Failure) : Prop := e = .failure f

theorem agree_passOn {α : Type} (e : Except Failure α) : Agree PassedOn (· = ·) (passOn e) e := by
  cases e with
  | ok a => exact .ok rfl
  | error f => exact .error rfl

/-- The same items are on planets, each made once, and the jobs are the same. -/
structure SameItems (t : PlanetaryTables K) (s : PlanetaryState K) : Prop where
  nodup : (t.planetaryItems.map Prod.fst).Nodup
  mem_iff : ∀ id, id ∈ t.planetaryItems.map Prod.fst ↔ id ∈ s.planetaryItems
  item : ∀ e ∈ t.planetaryItems, e.2 = .planetaryItem e.1
  jobs : t.jobs = s.jobs

theorem lookup_eq_none_iff {l : List (TypeID × Resource)} {id : TypeID} :
    l.lookup id = none ↔ id ∉ l.map Prod.fst := by
  rw [List.lookup_eq_none_iff, List.mem_map, not_exists]
  constructor
  · rintro h e ⟨he, heq⟩
    exact absurd heq.symm (by simpa using h e he)
  · intro h e he
    rw [bne_iff_ne]
    exact fun heq => h e ⟨he, heq.symm⟩

theorem mem_of_lookup_eq_some {l : List (TypeID × Resource)} {id : TypeID} {r : Resource}
    (h : l.lookup id = some r) : (id, r) ∈ l := by
  rw [List.lookup_eq_some_iff] at h
  obtain ⟨before, after, rfl, -⟩ := h
  simp

/-- Both know an item or both make it. -/
theorem agree_getPlanetaryItem (hps : ∀ p ∈ ps, p.tier ≤ 3) (h : SameItems t s) (id : TypeID)
    (name : String) :
    Agree PassedOn (fun a s' => a.1 = .planetaryItem id ∧ SameItems a.2 s')
      (getPlanetaryItem x ps id name t)
      (getPlanetaryResource x (ps.map PlanetaryRecord.toPlanetary) id name s) := by
  unfold getPlanetaryItem getPlanetaryResource
  cases hlookup : t.planetaryItems.lookup id with
  | some pResource =>
    have hmem := mem_of_lookup_eq_some hlookup
    have hid : id ∈ s.planetaryItems := (h.mem_iff id).mp (List.mem_map_of_mem hmem)
    rw [if_pos hid]
    exact .ok ⟨h.item _ hmem, h⟩
  | none =>
    have hnew := lookup_eq_none_iff.mp hlookup
    rw [if_neg (mt (h.mem_iff id).mpr hnew), getMaterialFeeAndTier_eq hps]
    apply (agree_passOn (getResource x id)).bind
    rintro resource _ rfl
    refine .ok ⟨rfl, ?_, fun id' => ?_, fun e he => ?_, ?_⟩
    · rw [List.map_append, List.map_singleton, List.nodup_append']
      exact ⟨h.nodup, List.nodup_singleton _, List.disjoint_singleton.mpr hnew⟩
    · rw [List.map_append, List.mem_append, h.mem_iff, Finset.mem_insert, or_comm]
      simp
    · rcases List.mem_append.mp he with he | he
      · exact h.item e he
      · rw [List.mem_singleton.mp he]
    · exact congrArg (· ++ _) h.jobs

/-- The materials of a schematic become its inputs. -/
theorem agree_addMaterials (hps : ∀ p ∈ ps, p.tier ≤ 3) (ms : Materials)
    (inputs : Planning.Materials Resource K) (h : SameItems t s) :
    Agree PassedOn
      (fun a s' => a.1 = inputs ++ ms.map (fun m => (.planetaryItem m.1, (m.2 : K))) ∧
        SameItems a.2 s')
      (ms.foldlM (addMaterial x ps) (inputs, t))
      (ms.foldlM (planetaryMaterial x (ps.map PlanetaryRecord.toPlanetary)) s) := by
  induction ms generalizing inputs t s with
  | nil => exact .ok ⟨(List.append_nil _).symm, h⟩
  | cons m ms ih =>
    rw [List.foldlM_cons, List.foldlM_cons]
    have hstep : Agree PassedOn
        (fun a s' => a.1 = inputs ++ [(.planetaryItem m.1, (m.2 : K))] ∧ SameItems a.2 s')
        (addMaterial x ps (inputs, t) m)
        (planetaryMaterial x (ps.map PlanetaryRecord.toPlanetary) s m) := by
      apply (agree_passOn (x.names.getName m.1)).bind
      rintro name _ rfl
      have hitem := agree_getPlanetaryItem (x := x) hps h m.1 name
      rw [← bind_pure (getPlanetaryResource x _ m.1 name s)]
      refine hitem.bind fun a s' ha => .ok ⟨?_, ha.2⟩
      rw [ha.1]
    apply hstep.bind
    rintro ⟨inputs', t'⟩ s' ⟨rfl, h'⟩
    have hrest := ih (inputs ++ [(.planetaryItem m.1, (m.2 : K))]) h'
    rw [List.append_assoc] at hrest
    exact hrest

/-- Both make the job of a schematic. -/
theorem agree_addSchematic (hps : ∀ p ∈ ps, p.tier ≤ 3) {p : PlanetaryRecord} (hp : p.tier ≤ 3)
    (h : SameItems t s) :
    Agree PassedOn SameItems (addSchematic x ps t p)
      (planetaryJob x (ps.map PlanetaryRecord.toPlanetary) s p.toPlanetary) := by
  unfold addSchematic planetaryJob
  apply (agree_addMaterials hps p.materials [] h).bind
  rintro ⟨inputs, t₁⟩ s₁ ⟨rfl, h₁⟩
  rw [element_tierTimes hp]
  apply (agree_passOn (x.names.getName p.product)).bind
  rintro pName _ rfl
  apply (agree_getPlanetaryItem hps h₁ p.product pName).bind
  rintro ⟨product, t₂⟩ s₂ ⟨rfl, h₂⟩
  refine .ok ⟨h₂.nodup, h₂.mem_iff, h₂.item, ?_⟩
  rw [PlanetaryRecord.tier_toPlanetary hp, h₂.jobs]
  rfl

/-- **No index is out of range**: the loop over loaded schematics does what the
one over schematics in range does. -/
theorem agree_planetaryTables (schematics : Schematics)
    (hps : ∀ p ∈ schematics.schematics, p.tier ≤ 3) :
    Agree PassedOn SameItems (schematics.planetaryTables x)
      ((schematics.schematics.map PlanetaryRecord.toPlanetary).foldlM
        (planetaryJob x (schematics.schematics.map PlanetaryRecord.toPlanetary))
        ⟨∅, facilityJobs x⟩) := by
  have hpairs : List.Forall₂ (fun p q => p.tier ≤ 3 ∧ q = p.toPlanetary) schematics.schematics
      (schematics.schematics.map PlanetaryRecord.toPlanetary) := by
    rw [List.forall₂_map_right_iff, List.forall₂_same]
    exact fun p hp => ⟨hps p hp, rfl⟩
  refine Agree.foldlM hpairs ?_ ⟨List.nodup_nil, by simp, by simp, rfl⟩
  rintro t s p _ ⟨hp, rfl⟩ h
  exact agree_addSchematic hps hp h

/-- **The jobs are those of schematics whose tiers are in range.** -/
theorem agree_getPlanetaryJobs (schematics : Schematics)
    (hps : ∀ p ∈ schematics.schematics, p.tier ≤ 3) :
    Agree PassedOn (· = ·) (schematics.getPlanetaryJobs x)
      (getPlanetaryJobs x (schematics.schematics.map PlanetaryRecord.toPlanetary)) :=
  (agree_planetaryTables schematics hps).bind fun _ _ h => .ok h.jobs

end Agreement

/-! ### One job each -/

section Emitted

variable {K : Type} [Field K] (x : PlannerAndStuff K) (schematics : List Planetary)

/-- The name of a type that has one. -/
def nameOf (names : Names) (id : TypeID) : String := (names id).getD ""

/-- The two jobs that move an item. -/
def itemJobs (id : TypeID) : List (Job Resource K) :=
  let tier := materialTier schematics id
  [unlimited [(.item id, 1)] [(.planetaryItem id, 1)] (-(1 / ((2 : ℕ) : K)) * materialFee tier)
      ("P" ++ toString tier ++ "_Import_" ++ nameOf x.names id),
    unlimited [(.planetaryItem id, 1)] [(.item id, 1)] (-materialFee tier)
      ("P" ++ toString tier ++ "_Export_" ++ nameOf x.names id)]

/-- The job of a schematic. -/
def produceJob (p : Planetary) : Job Resource K :=
  unlimited
    (p.materials.map (fun m => (.planetaryItem m.1, (m.2 : K))) ++
      [(tierTime p.tier, (p.duration : K))])
    [(.planetaryItem p.product, (p.producedQuantity : K))] 0
    ("P" ++ toString (p.tier + 1 : ℕ) ++ "_Produce_" ++ nameOf x.names p.product)

/-- The jobs so far: the facilities, some schematics, and two for each item. -/
def Emitted (done : List Planetary) (s : PlanetaryState K) : Prop :=
  s.jobs.Perm (facilityJobs x ++ done.map (produceJob x) ++
    s.planetaryItems.toList.flatMap (itemJobs x schematics))

variable {x schematics} {done : List Planetary} {s : PlanetaryState K}

omit [Field K] in
theorem getName_nameOf {names : Names} {id : TypeID} (h : (names id).isSome) :
    names.getName id = .ok (nameOf names id) := by
  obtain ⟨name, hname⟩ := Option.isSome_iff_exists.mp h
  rw [Names.getName, nameOf, hname]
  rfl

/-- An item is there afterwards, and has its jobs once. -/
theorem Emitted.getPlanetaryResource (h : Emitted x schematics done s) {id : TypeID}
    (hid : (x.names id).isSome) :
    ∃ s', getPlanetaryResource x schematics id (nameOf x.names id) s = .ok s' ∧
      Emitted x schematics done s' ∧ s'.planetaryItems = insert id s.planetaryItems := by
  unfold Industry.getPlanetaryResource
  split
  · next hold => exact ⟨s, rfl, h, (Finset.insert_eq_of_mem hold).symm⟩
  · next hnew =>
    rw [getResource, getName_nameOf hid]
    refine ⟨_, rfl, ?_, rfl⟩
    have hitems := (Finset.toList_insert hnew).flatMap_right (itemJobs x schematics)
    apply (h.append_right (itemJobs x schematics id)).trans
    rw [List.append_assoc]
    refine List.Perm.append_left _ (List.perm_append_comm.trans ?_)
    exact hitems.symm

/-- The materials of a schematic are there afterwards. -/
theorem Emitted.planetaryMaterials (h : Emitted x schematics done s) {ms : Materials}
    (hms : ∀ m ∈ ms, (x.names m.1).isSome) :
    ∃ s', ms.foldlM (planetaryMaterial x schematics) s = .ok s' ∧
      Emitted x schematics done s' ∧
      s'.planetaryItems = s.planetaryItems ∪ (ms.map Prod.fst).toFinset := by
  induction ms generalizing s with
  | nil => exact ⟨s, rfl, h, by simp⟩
  | cons m ms ih =>
    have hm := hms m List.mem_cons_self
    obtain ⟨s₁, h₁, hemitted, hitems⟩ := h.getPlanetaryResource hm
    obtain ⟨s₂, h₂, hemitted₂, hitems₂⟩ :=
      ih hemitted fun m' hm' => hms m' (List.mem_cons_of_mem _ hm')
    refine ⟨s₂, ?_, hemitted₂, ?_⟩
    · rw [List.foldlM_cons, planetaryMaterial, getName_nameOf hm, ok_bind, h₁, ok_bind, h₂]
    · rw [hitems₂, hitems, List.map_cons, List.toFinset_cons, Finset.insert_union,
        Finset.union_insert]

/-- **A schematic adds its job**, and its types. -/
theorem Emitted.planetaryJob (h : Emitted x schematics done s) {p : Planetary}
    (hp : ∀ id ∈ p.product :: p.materials.map Prod.fst, (x.names id).isSome) :
    ∃ s', planetaryJob x schematics s p = .ok s' ∧ Emitted x schematics (done ++ [p]) s' ∧
      s'.planetaryItems =
        s.planetaryItems ∪ (p.product :: p.materials.map Prod.fst).toFinset := by
  have hproduct := hp p.product List.mem_cons_self
  obtain ⟨s₁, h₁, hemitted₁, hitems₁⟩ := h.planetaryMaterials fun m hm =>
    hp m.1 (List.mem_cons_of_mem _ (List.mem_map_of_mem hm))
  obtain ⟨s₂, h₂, hemitted₂, hitems₂⟩ := hemitted₁.getPlanetaryResource hproduct
  refine ⟨{ s₂ with jobs := s₂.jobs ++ [produceJob x p] }, ?_, ?_, ?_⟩
  · rw [Industry.planetaryJob, h₁, ok_bind, getName_nameOf hproduct, ok_bind, h₂]
    rfl
  · have hjobs := hemitted₂.append_right [produceJob x p]
    apply hjobs.trans
    rw [List.map_append, ← List.append_assoc, List.append_assoc (facilityJobs x ++ _),
      List.append_assoc (facilityJobs x ++ _)]
    exact List.Perm.append_left _ List.perm_append_comm
  · rw [hitems₂, hitems₁, List.toFinset_cons, Finset.union_insert]

/-- The loop over the schematics. -/
theorem Emitted.planetaryJobs (h : Emitted x schematics done s) {ps : List Planetary}
    (hps : ∀ id ∈ planetaryItemIDs ps, (x.names id).isSome) :
    ∃ s', ps.foldlM (Industry.planetaryJob x schematics) s = .ok s' ∧
      Emitted x schematics (done ++ ps) s' ∧
      s'.planetaryItems = s.planetaryItems ∪ (planetaryItemIDs ps).toFinset := by
  induction ps generalizing done s with
  | nil => exact ⟨s, rfl, by rwa [List.append_nil], by simp [planetaryItemIDs]⟩
  | cons p ps ih =>
    have hcons : planetaryItemIDs (p :: ps) =
        (p.product :: p.materials.map Prod.fst) ++ planetaryItemIDs ps := rfl
    rw [hcons] at hps ⊢
    obtain ⟨s₁, h₁, hemitted₁, hitems₁⟩ :=
      h.planetaryJob fun id hid => hps id (List.mem_append_left _ hid)
    obtain ⟨s₂, h₂, hemitted₂, hitems₂⟩ :=
      ih hemitted₁ fun id hid => hps id (List.mem_append_right _ hid)
    refine ⟨s₂, ?_, ?_, ?_⟩
    · rw [List.foldlM_cons, h₁, ok_bind, h₂]
    · rwa [List.append_assoc] at hemitted₂
    · rw [hitems₂, hitems₁, List.toFinset_append, Finset.union_assoc]

end Emitted

/-! ### What is left at the end -/

section Result

variable {K : Type} [Field K] (x : PlannerAndStuff K)

/-- One job for each schematic and, for each of their types, one item with two jobs. -/
structure OneJobEach (ps : List PlanetaryRecord) (t : PlanetaryTables K) : Prop where
  items_nodup : (t.planetaryItems.map Prod.fst).Nodup
  mem_items : ∀ id, id ∈ t.planetaryItems.map Prod.fst ↔ id ∈ typeIDs ps
  item : ∀ e ∈ t.planetaryItems, e.2 = .planetaryItem e.1
  jobs : t.jobs.Perm (facilityJobs x ++ ps.map (fun p => produceJob x p.toPlanetary) ++
    (t.planetaryItems.map Prod.fst).flatMap (itemJobs x (ps.map PlanetaryRecord.toPlanetary)))
  length : t.jobs.length = 3 + ps.length + 2 * (typeIDs ps).toFinset.card

variable {x} {ps : List PlanetaryRecord} {t : PlanetaryTables K}

theorem planetaryItemIDs_toPlanetary (ps : List PlanetaryRecord) :
    planetaryItemIDs (ps.map PlanetaryRecord.toPlanetary) = typeIDs ps := by
  rw [planetaryItemIDs, List.flatMap_map]
  rfl

theorem length_flatMap_itemJobs (schematics : List Planetary) (ids : List TypeID) :
    (ids.flatMap (itemJobs x schematics)).length = 2 * ids.length := by
  rw [List.length_flatMap]
  show (ids.map fun _ => 2).sum = _
  rw [List.map_const', List.sum_replicate, smul_eq_mul, mul_comm]

/-- Schematics in range whose types have names. -/
theorem oneJobEach_planetaryTables {schematics : Schematics}
    (hps : ∀ p ∈ schematics.schematics, p.tier ≤ 3)
    (hnames : ∀ id ∈ typeIDs schematics.schematics, (x.names id).isSome) :
    ∃ t, schematics.planetaryTables x = .ok t ∧ OneJobEach x schematics.schematics t := by
  have hstart : Emitted x (schematics.schematics.map PlanetaryRecord.toPlanetary) []
      ⟨∅, facilityJobs x⟩ := by simp [Emitted]
  rw [← planetaryItemIDs_toPlanetary] at hnames
  obtain ⟨s, hs, hemitted, hitems⟩ := hstart.planetaryJobs hnames
  have hagree := agree_planetaryTables (x := x) schematics hps
  rw [hs] at hagree
  obtain ⟨t, ht, hsame⟩ := hagree.exists_ok
  rw [Finset.empty_union, planetaryItemIDs_toPlanetary] at hitems
  have hmem : ∀ id, id ∈ t.planetaryItems.map Prod.fst ↔ id ∈ typeIDs schematics.schematics := by
    intro id
    rw [hsame.mem_iff, hitems, List.mem_toFinset]
  have hids : s.planetaryItems.toList.Perm (t.planetaryItems.map Prod.fst) := by
    rw [List.perm_ext_iff_of_nodup s.planetaryItems.nodup_toList hsame.nodup]
    intro id
    rw [Finset.mem_toList, hsame.mem_iff]
  have hjobs := hemitted.trans (List.Perm.append_left _ (hids.flatMap_right _))
  rw [← hsame.jobs, List.nil_append, List.map_map] at hjobs
  refine ⟨t, ht, hsame.nodup, hmem, hsame.item, hjobs, ?_⟩
  have hcard : (t.planetaryItems.map Prod.fst).length =
      (typeIDs schematics.schematics).toFinset.card := by
    rw [← hids.length_eq, Finset.length_toList, hitems]
  rw [hjobs.length_eq, List.length_append, List.length_append, length_flatMap_itemJobs, hcard,
    List.length_map]
  rfl

/-- The tiers of loaded schematics are in range. -/
theorem Grouped.tier_le {rows : List SchematicRow} (h : Grouped rows ps) :
    ∀ p ∈ ps, p.tier ≤ 3 := by
  obtain ⟨firsts, -, -, hmade⟩ := h
  intro p hp
  obtain ⟨r, -, hr⟩ := exists_of_forall₂ hmade.flip hp
  exact hr.tier_le

/-- **Planetary schematics are grouped correctly and stay in range**: rows are
answered with an exception, or each schematic with an output row is there once;
if the types have names, then each schematic has one job and each type one item
with two jobs. -/
theorem loadSchematics_getPlanetaryJobs (order : HashOrder) (rows : List SchematicRow) :
    (∃ what, loadSchematics order rows = .error (.runtimeError what)) ∨
    ∃ schematics, loadSchematics order rows = .ok schematics ∧
      Grouped rows schematics.schematics ∧
      ∀ {K : Type} [Field K] (x : PlannerAndStuff K),
        (∀ id ∈ typeIDs schematics.schematics, (x.names id).isSome) →
        ∃ t, schematics.planetaryTables x = .ok t ∧ schematics.getPlanetaryJobs x = .ok t.jobs ∧
          OneJobEach x schematics.schematics t := by
  cases hload : loadSchematics order rows with
  | error e =>
    obtain ⟨what, rfl⟩ := loadSchematics_eq_error hload
    exact Or.inl ⟨what, rfl⟩
  | ok schematics =>
    have hgrouped := grouped_of_loadSchematics hload
    refine Or.inr ⟨schematics, rfl, hgrouped, fun x hnames => ?_⟩
    obtain ⟨t, ht, hjobs⟩ := oneJobEach_planetaryTables hgrouped.tier_le hnames
    refine ⟨t, ht, ?_, hjobs⟩
    rw [Schematics.getPlanetaryJobs, ht]
    rfl

/-- A schematic that makes water-cooled processors of silicon, whose rows come in
no order, and a row of one that makes nothing. -/
def processorRows : List SchematicRow :=
  [⟨65, 9828, 40, 1, 1334, 3600⟩, ⟨66, 2393, 40, 1, 1334, 3600⟩, ⟨65, 2328, 5, 0, 1335, 3600⟩,
    ⟨65, 2389, 40, 1, 1334, 3600⟩]

/-- One schematic and three types have ten jobs. -/
theorem loadSchematics_getPlanetaryJobs_processors :
    ∃ schematics, loadSchematics .insertion processorRows = .ok schematics ∧
      ∃ jobs, schematics.getPlanetaryJobs
        (plannerAndStuff sampleSettings (sampleInputs none) .empty fun _ => none) = .ok jobs ∧
        jobs.length = 10 := by
  have hprocessors : loadSchematics .insertion processorRows =
      .ok ⟨[⟨2328, 5, [(9828, 40), (2389, 40)], 3600, 1⟩], 4⟩ := by rfl
  obtain ⟨what, herror⟩ | ⟨schematics, hload, -, hjobs⟩ :=
    loadSchematics_getPlanetaryJobs .insertion processorRows
  · exact absurd (hprocessors.symm.trans herror) (by simp)
  · obtain ⟨t, -, ht, heach⟩ :=
      hjobs (plannerAndStuff sampleSettings (sampleInputs none) .empty fun _ => none)
        fun _ _ => rfl
    refine ⟨schematics, hload, t.jobs, ht, ?_⟩
    rw [heach.length, ← Except.ok.inj (hprocessors.symm.trans hload)]
    rfl

/-- The room that was reserved for the jobs suffices. -/
theorem OneJobEach.length_le {order : HashOrder} {rows : List SchematicRow}
    {schematics : Schematics} (h : OneJobEach x schematics.schematics t)
    (hload : loadSchematics order rows = .ok schematics) :
    t.jobs.length ≤ 3 + schematics.schematics.length + 2 * schematics.typeCount := by
  have hcard := card_typeIDs_le hload
  rw [h.length]
  omega

end Result

end Industry
end EveIndustryPlanner
