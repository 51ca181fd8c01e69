import EveIndustryPlanner.Industry.ResourceNames
import EveIndustryPlanner.Industry.Schematics
import EveIndustryPlanner.Lib.Agree
import EveIndustryPlanner.Planning.Rows

/-!
# The objects that stand for resources

A resource is an object that is made when it is first asked for, and whose
address is handed out from then on.  There is a table of addresses for items, one
for originals and one for copies; planetary items have a table of their own that
lives as long as the planetary jobs are made.  The planner is given nothing but
addresses.

## Main definitions

* `ResourceBase`, `Stuff` — the objects and the tables.
* `Stuff.getResource`, `Stuff.getBPO`, `Stuff.getBPC`, `Stuff.planetaryResources`
  — the calls that make objects, which may throw.
* `Stuff.session` — all calls, with one for planetary jobs among them.
* `Represents` — which resources the objects stand for.

## Main results

* `Represents.getResource`, `Represents.getBPO`, `Represents.getBPC` — **an address
  stands for what it was asked for.**
* `represents_session` — no two objects stand for the same resource.
* `rowsApart_session` — **every resource has its own row.**
-/

namespace EveIndustryPlanner
namespace Industry

open Planning

/-! ### Objects -/

/-- `Resource_Base`. -/
structure ResourceBase (K : Type) where
  name : String
  fullName : String
  /-- Minus the stock. -/
  lowerLimit : K

/-- What is in stock, and how many lines there are. -/
structure Stock where
  countAsset : TypeID → ℕ
  /-- Of copies of the first technology, whatever their efficiency. -/
  runs : TypeID → ℕ
  runsOf : TypeID → BlueprintEfficiency → ℕ
  countPlanetaryAsset : TypeID → ℕ
  scienceLabs : ℕ
  productionLines : ℕ

/-- The objects so far, and the tables of their addresses. -/
structure Stuff (K : Type) where
  objects : List (ResourceBase K)
  resources : TypeID → Option ℕ
  bpoTimes : TypeID → Option ℕ
  bpcs : TypeID × BlueprintEfficiency → Option ℕ
  labTime : ℕ
  productionLineTime : ℕ

namespace Stuff

variable {K : Type}

/-- The state when an exception is thrown stays as it is then. -/
def afterwards {α : Type} : Except (Failure × Stuff K) (α × Stuff K) → Stuff K
  | .ok (_, s) => s
  | .error (_, s) => s

/-- Make an object. -/
def make (s : Stuff K) (object : ResourceBase K) : Stuff K :=
  { s with objects := s.objects ++ [object] }

/-- The address in a table, or that of a new object, which is put there. -/
def demand (s : Stuff K) (old : Option ℕ) (object : Except Failure (ResourceBase K))
    (store : ℕ → Stuff K → Stuff K) : Except (Failure × Stuff K) (ℕ × Stuff K) :=
  match old, object with
  | some address, _ => .ok (address, s)
  | none, .error f => .error (f, s)
  | none, .ok object => .ok (s.objects.length, store s.objects.length (s.make object))

section Calls

variable [Field K] (x : PlannerAndStuff K) (stock : Stock)

/-- No items, originals and copies yet. -/
def start : Stuff K where
  objects :=
    [⟨"LabTime", "LabTime", -x.settings.timeFrame * stock.scienceLabs⟩,
      ⟨"ProductionLineTime", "ProductionLineTime", -x.settings.timeFrame * stock.productionLines⟩]
  resources _ := none
  bpoTimes _ := none
  bpcs _ := none
  labTime := 0
  productionLineTime := 1

/-- The object of an item. -/
def itemObject (id : TypeID) : Except Failure (ResourceBase K) := do
  let name ← x.names.getName id
  return ⟨toString id, name, -(stock.countAsset id : K)⟩

/-- The object of the time of an original. -/
def bpoObject (id : TypeID) : Except Failure (ResourceBase K) := do
  let name ← x.names.getName id
  return ⟨toString id ++ "_BPO_Time", name ++ " BPO Time", -x.settings.timeFrame⟩

/-- The object of a copy. -/
def bpcObject (id : TypeID) (bpe : BlueprintEfficiency) : Except Failure (ResourceBase K) := do
  let isT1 ← x.types.isT1BP id
  let runs := if isT1 then stock.runs id else stock.runsOf id bpe
  let name ← x.names.getName id
  return ⟨toString id ++ "_" ++ makeBpeString bpe ++ "_BPC",
    name ++ " " ++ makeBpeString bpe ++ "_BPC", -(runs : K)⟩

/-- `getResource`. -/
def getResource (s : Stuff K) (id : TypeID) : Except (Failure × Stuff K) (ℕ × Stuff K) :=
  s.demand (s.resources id) (itemObject x stock id) fun address s =>
    { s with resources := Function.update s.resources id (some address) }

/-- `getBPO`. -/
def getBPO (s : Stuff K) (id : TypeID) : Except (Failure × Stuff K) (ℕ × Stuff K) :=
  s.demand (s.bpoTimes id) (bpoObject x id) fun address s =>
    { s with bpoTimes := Function.update s.bpoTimes id (some address) }

/-- `getBPC`. -/
def getBPC (s : Stuff K) (id : TypeID) (bpe : BlueprintEfficiency) :
    Except (Failure × Stuff K) (ℕ × Stuff K) :=
  s.demand (s.bpcs (id, bpe)) (bpcObject x stock id bpe) fun address s =>
    { s with bpcs := Function.update s.bpcs (id, bpe) (some address) }

/-! ### Planetary items -/

/-- The table of planetary items, next to everything else. -/
abbrev Planets (K : Type) := (TypeID → Option ℕ) × Stuff K

/-- A type that a schematic takes or makes: its name, its item, and, if it was not
used before, its item on a planet. -/
def planetaryResource (a : Planets K) (id : TypeID) : Except (Failure × Stuff K) (Planets K) :=
  match x.names.getName id, a.1 id with
  | .error f, _ => .error (f, a.2)
  | .ok _, some _ => .ok a
  | .ok name, none => do
    let (_, s) ← a.2.getResource x stock id
    return (Function.update a.1 id (some s.objects.length),
      s.make ⟨"Planetary_" ++ toString id, "Planetary " ++ name,
        -(stock.countPlanetaryAsset id : K)⟩)

/-- The facilities and what they need. -/
def facilityObjects : List (ResourceBase K) :=
  [⟨"CPU", "CPU", -x.skills.cpu⟩, ⟨"Power", "Power", -x.skills.power⟩,
    ⟨"BasicIndustryTime", "Basic Industry Time", 0⟩,
    ⟨"AdvancedIndustryTime", "Advanced Industry Time", 0⟩,
    ⟨"HighTechIndustryTime", "High Tech Industry Time", 0⟩]

/-- The types in the order in which `getPlanetaryJobs` uses them. -/
def usedTypes (schematics : List PlanetaryRecord) : List TypeID :=
  schematics.flatMap fun p => p.materials.map Prod.fst ++ [p.product]

/-- The objects that `getPlanetaryJobs` makes. -/
def planetaryResources (s : Stuff K) (schematics : List PlanetaryRecord) :
    Except (Failure × Stuff K) (Planets K) :=
  (usedTypes schematics).foldlM (planetaryResource x stock)
    (fun _ => none, { s with objects := s.objects ++ facilityObjects x })

/-! ### Sessions -/

/-- A call that is answered with one address. -/
inductive Request where
  | getResource (id : TypeID)
  | getBPO (id : TypeID)
  | getBPC (id : TypeID) (bpe : BlueprintEfficiency)

/-- A call. -/
def request (s : Stuff K) : Request → Except (Failure × Stuff K) (ℕ × Stuff K)
  | .getResource id => s.getResource x stock id
  | .getBPO id => s.getBPO x id
  | .getBPC id bpe => s.getBPC x stock id bpe

/-- Some calls, whether or not they are answered. -/
def requests (s : Stuff K) (calls : List Request) : Stuff K :=
  calls.foldl (fun s call => afterwards (s.request x stock call)) s

/-- All calls, with one for planetary jobs among them. -/
def session (before : List Request) (schematics : List PlanetaryRecord)
    (after : List Request) : Stuff K :=
  (afterwards (((start x stock).requests x stock before).planetaryResources x stock
    schematics)).requests x stock after

end Calls

/-- The objects as the planner sees them: addresses with names and limits. -/
def resourcesOf (s : Stuff K) : Planning.Resources (Fin s.objects.length) K where
  name address := (s.objects.get address).name
  lowerLimit address := (s.objects.get address).lowerLimit

end Stuff

/-! ### Which resources the objects stand for -/

namespace Resource

/-- The resources that are made for planetary jobs. -/
def isPlanetary : Resource → Bool
  | planetaryItem _ => true
  | cpu => true
  | power => true
  | basicIndustryTime => true
  | advancedIndustryTime => true
  | highTechIndustryTime => true
  | _ => false

/-- The resources that the tables of `Stuff` are for. -/
def isTabled : Resource → Bool
  | item _ => true
  | bpoTime _ => true
  | bpc _ _ => true
  | _ => false

end Resource

section Represents

variable {K : Type} (x : PlannerAndStuff K)

/-- A resource that can be made. -/
def Available : Resource → Prop
  | .item id => getResource x id = .ok (.item id)
  | .bpoTime id => getBPO x id = .ok (.bpoTime id)
  | .bpc id bpe => getBPC x id bpe = .ok (.bpc id bpe)
  | _ => True

/-- The objects stand for different resources, and the tables hold their
addresses. -/
structure Represents (s : Stuff K) (rs : List Resource) : Prop where
  nodup : rs.Nodup
  names : s.objects.map ResourceBase.name = rs.map Resource.name
  resources : Indexes Resource.item rs s.resources
  bpoTimes : Indexes Resource.bpoTime rs s.bpoTimes
  bpcs : Indexes (fun k => Resource.bpc k.1 k.2) rs s.bpcs
  labTime : rs[s.labTime]? = some .labTime
  productionLineTime : rs[s.productionLineTime]? = some .productionLineTime
  available : ∀ r ∈ rs, Available x r

variable {x} {s s' : Stuff K} {rs : List Resource}

theorem Represents.length_eq (h : Represents x s rs) : s.objects.length = rs.length := by
  rw [← List.length_map ResourceBase.name, h.names, List.length_map]

/-- More objects, whose addresses are in the tables they have. -/
theorem Represents.append (h : Represents x s rs) {objects : List (ResourceBase K)}
    {rs' : List Resource} (hnodup : (rs ++ rs').Nodup)
    (hnames : objects.map ResourceBase.name = rs'.map Resource.name)
    (havailable : ∀ r ∈ rs', Available x r) (hobjects : s'.objects = s.objects ++ objects)
    (hlabTime : s'.labTime = s.labTime)
    (hproductionLineTime : s'.productionLineTime = s.productionLineTime)
    (hresources : Indexes Resource.item (rs ++ rs') s'.resources)
    (hbpoTimes : Indexes Resource.bpoTime (rs ++ rs') s'.bpoTimes)
    (hbpcs : Indexes (fun k => Resource.bpc k.1 k.2) (rs ++ rs') s'.bpcs) :
    Represents x s' (rs ++ rs') := by
  refine ⟨hnodup, ?_, hresources, hbpoTimes, hbpcs, ?_, ?_, fun r hr => ?_⟩
  · rw [hobjects, List.map_append, List.map_append, h.names, hnames]
  · rw [hlabTime]
    exact getElem?_append_of_eq_some h.labTime
  · rw [hproductionLineTime]
    exact getElem?_append_of_eq_some h.productionLineTime
  · rcases List.mem_append.mp hr with hr | hr
    · exact h.available r hr
    · exact havailable r hr

theorem nodup_snoc {r : Resource} (h : rs.Nodup) (hnew : r ∉ rs) : (rs ++ [r]).Nodup :=
  List.nodup_append'.mpr ⟨h, List.nodup_singleton r, List.disjoint_singleton.mpr hnew⟩

/-- One more object, whose address is in its table. -/
theorem Represents.snoc (h : Represents x s rs) {object : ResourceBase K} {r : Resource}
    (hnew : r ∉ rs) (hname : object.name = r.name) (havailable : Available x r)
    (hobjects : s'.objects = s.objects ++ [object]) (hlabTime : s'.labTime = s.labTime)
    (hproductionLineTime : s'.productionLineTime = s.productionLineTime)
    (hresources : Indexes Resource.item (rs ++ [r]) s'.resources)
    (hbpoTimes : Indexes Resource.bpoTime (rs ++ [r]) s'.bpoTimes)
    (hbpcs : Indexes (fun k => Resource.bpc k.1 k.2) (rs ++ [r]) s'.bpcs) :
    Represents x s' (rs ++ [r]) := by
  have hnames : [object].map ResourceBase.name = [r].map Resource.name := by
    rw [List.map_singleton, List.map_singleton, hname]
  exact h.append (nodup_snoc h.nodup hnew) hnames (by simpa using havailable) hobjects hlabTime
    hproductionLineTime hresources hbpoTimes hbpcs

theorem available_of_not_isTabled {r : Resource} (h : r.isTabled = false) : Available x r := by
  cases r with
  | item id => exact absurd h (by simp [Resource.isTabled])
  | bpoTime id => exact absurd h (by simp [Resource.isTabled])
  | bpc id bpe => exact absurd h (by simp [Resource.isTabled])
  | _ => trivial

/-- More objects that have no table. -/
theorem Represents.make (h : Represents x s rs) {objects : List (ResourceBase K)}
    {rs' : List Resource} (hnodup : (rs ++ rs').Nodup)
    (hnames : objects.map ResourceBase.name = rs'.map Resource.name)
    (hrs' : ∀ r ∈ rs', r.isTabled = false) :
    Represents x { s with objects := s.objects ++ objects } (rs ++ rs') := by
  refine h.append hnodup hnames (fun r hr => available_of_not_isTabled (hrs' r hr)) rfl rfl rfl
    (h.resources.append_of_forall_ne fun r hr id heq => ?_)
    (h.bpoTimes.append_of_forall_ne fun r hr id heq => ?_)
    (h.bpcs.append_of_forall_ne fun r hr id heq => ?_)
  · exact absurd (hrs' r hr) (by simp [← heq, Resource.isTabled])
  · exact absurd (hrs' r hr) (by simp [← heq, Resource.isTabled])
  · exact absurd (hrs' r hr) (by simp [← heq, Resource.isTabled])

/-- The list is the same or has one more resource. -/
def Extends (rs : List Resource) (r : Resource) (rs' : List Resource) : Prop :=
  rs' = rs ∨ rs' = rs ++ [r]

/-- What an answer with an address has to do with the resource. -/
def Answers (rs : List Resource) (a : ℕ × Stuff K) (r : Resource) : Prop :=
  ∃ rs', Extends rs r rs' ∧ Represents x a.2 rs' ∧ rs'[a.1]? = some r

/-- What an exception leaves behind. -/
def Leaves (rs : List Resource) (e : Failure × Stuff K) (f : Failure) : Prop :=
  e.1 = f ∧ Represents x e.2 rs

/-- **An address stands for what it was asked for**, if the table holds it, or if
the object is made and put there. -/
theorem agree_demand (h : Represents x s rs) {old : Option ℕ}
    {object : Except Failure (ResourceBase K)} {store : ℕ → Stuff K → Stuff K} {r : Resource}
    {f : Except Failure Resource} (hold : ∀ p, old = some p → rs[p]? = some r ∧ f = .ok r)
    (hobject : Agree (· = ·) (fun o r' => o.name = r.name ∧ r' = r) object f)
    (hnew : ∀ o, old = none → o.name = r.name → f = .ok r →
      Represents x (store s.objects.length (s.make o)) (rs ++ [r])) :
    Agree (Leaves (x := x) rs) (Answers (x := x) rs) (s.demand old object store) f := by
  cases old with
  | some p =>
    obtain ⟨hp, rfl⟩ := hold p rfl
    exact .ok ⟨rs, Or.inl rfl, h, hp⟩
  | none =>
    cases object with
    | error e =>
      cases f with
      | ok r' => exact absurd hobject id
      | error e' => exact .error ⟨hobject, h⟩
    | ok o =>
      cases f with
      | error e' => exact absurd hobject id
      | ok r' =>
        obtain ⟨hname, rfl⟩ := hobject
        refine .ok ⟨rs ++ [r'], Or.inr rfl, hnew o rfl hname rfl, ?_⟩
        rw [h.length_eq]
        exact List.getElem?_concat_length

section Calls

variable [Field K] (stock : Stock)

omit [Field K] in
theorem agree_getName {α β : Type} {R : α → β → Prop} {id : TypeID} {a : String → α}
    {b : β} (h : ∀ name, R (a name) b) :
    Agree (· = ·) R (do let name ← x.names.getName id; return a name)
      (do let _ ← x.names.getName id; return b) := by
  cases x.names.getName id with
  | ok name => exact .ok (h name)
  | error f => exact .error rfl

/-- **An item's address stands for the item.** -/
theorem Represents.getResource (h : Represents x s rs) (id : TypeID) :
    Agree (Leaves (x := x) rs) (Answers (x := x) rs) (s.getResource x stock id)
      (Industry.getResource x id) := by
  refine agree_demand (r := .item id) h (fun p hp => ?_) ?_ fun o hnone hname hmade => ?_
  · have hmem := (h.resources id p).mp hp
    exact ⟨hmem, h.available _ (List.mem_of_getElem? hmem)⟩
  · exact agree_getName fun name => ⟨rfl, rfl⟩
  · refine h.snoc (h.resources.not_mem hnone) hname hmade rfl rfl rfl ?_ ?_ ?_
    · rw [h.length_eq]
      exact h.resources.snoc (fun _ _ => Resource.item.inj) hnone
    · exact h.bpoTimes.snoc_of_forall_ne fun _ => by simp
    · exact h.bpcs.snoc_of_forall_ne fun _ => by simp

/-- An original's address stands for its time. -/
theorem Represents.getBPO (h : Represents x s rs) (id : TypeID) :
    Agree (Leaves (x := x) rs) (Answers (x := x) rs) (s.getBPO x id) (Industry.getBPO x id) := by
  refine agree_demand (r := .bpoTime id) h (fun p hp => ?_) ?_ fun o hnone hname hmade => ?_
  · have hmem := (h.bpoTimes id p).mp hp
    exact ⟨hmem, h.available _ (List.mem_of_getElem? hmem)⟩
  · exact agree_getName fun name => ⟨rfl, rfl⟩
  · refine h.snoc (h.bpoTimes.not_mem hnone) hname hmade rfl rfl rfl ?_ ?_ ?_
    · exact h.resources.snoc_of_forall_ne fun _ => by simp
    · rw [h.length_eq]
      exact h.bpoTimes.snoc (fun _ _ => Resource.bpoTime.inj) hnone
    · exact h.bpcs.snoc_of_forall_ne fun _ => by simp

/-- A copy's address stands for the copy. -/
theorem Represents.getBPC (h : Represents x s rs) (id : TypeID) (bpe : BlueprintEfficiency) :
    Agree (Leaves (x := x) rs) (Answers (x := x) rs) (s.getBPC x stock id bpe)
      (Industry.getBPC x id bpe) := by
  refine agree_demand (r := .bpc id bpe) h (fun p hp => ?_) ?_ fun o hnone hname hmade => ?_
  · have hmem := (h.bpcs (id, bpe) p).mp hp
    exact ⟨hmem, h.available _ (List.mem_of_getElem? hmem)⟩
  · have hisT1 : Agree (· = ·) (· = ·) (x.types.isT1BP id) (x.types.isT1BP id) := by
      cases x.types.isT1BP id with
      | ok b => exact .ok rfl
      | error f => exact .error rfl
    exact hisT1.bind fun _ _ _ => agree_getName fun name => ⟨rfl, rfl⟩
  · refine h.snoc (h.bpcs.not_mem hnone) hname hmade rfl rfl rfl ?_ ?_ ?_
    · exact h.resources.snoc_of_forall_ne fun _ => by simp
    · exact h.bpoTimes.snoc_of_forall_ne fun _ => by simp
    · rw [h.length_eq]
      refine h.bpcs.snoc (fun k k' heq => ?_) hnone
      obtain ⟨hid, hbpe⟩ := Resource.bpc.inj heq
      exact Prod.ext hid hbpe

/-! ### Planetary items -/

/-- The table of planetary items holds their addresses. -/
structure OnPlanets (x : PlannerAndStuff K) (a : Stuff.Planets K) (rs : List Resource) :
    Prop where
  represents : Represents x a.2 rs
  planetaryItems : Indexes Resource.planetaryItem rs a.1

/-- A type gets its item on a planet once. -/
theorem OnPlanets.planetaryResource {a : Stuff.Planets K} (h : OnPlanets x a rs) (id : TypeID) :
    (∃ e, Stuff.planetaryResource x stock a id = .error e ∧ Represents x e.2 rs) ∨
      ∃ a' rs', Stuff.planetaryResource x stock a id = .ok a' ∧ OnPlanets x a' rs' := by
  have hget := h.represents.getResource stock id
  unfold Stuff.planetaryResource
  unfold Industry.getResource at hget
  cases hname : x.names.getName id with
  | error f => exact Or.inl ⟨_, rfl, h.represents⟩
  | ok name =>
    rw [hname] at hget
    cases hitem : a.1 id with
    | some p => exact Or.inr ⟨a, rs, rfl, h⟩
    | none =>
      obtain ⟨⟨address, s₁⟩, hs₁, rs₁, hextends, hrepresents, -⟩ := hget.exists_ok
      have hitems : Indexes Resource.planetaryItem rs₁ a.1 := by
        rcases hextends with rfl | rfl
        · exact h.planetaryItems
        · exact h.planetaryItems.snoc_of_forall_ne fun _ => by simp
      dsimp only
      rw [hs₁]
      refine Or.inr ⟨_, rs₁ ++ [.planetaryItem id], rfl, ?_, ?_⟩
      · exact hrepresents.make (nodup_snoc hrepresents.nodup (hitems.not_mem hitem)) rfl
          (by simp [Resource.isTabled])
      · rw [hrepresents.length_eq]
        exact hitems.snoc (fun _ _ => Resource.planetaryItem.inj) hitem

/-- All planetary items. -/
theorem OnPlanets.planetaryResources {a : Stuff.Planets K} (h : OnPlanets x a rs)
    (ids : List TypeID) :
    ∃ rs', Represents x
      (Stuff.afterwards (ids.foldlM (Stuff.planetaryResource x stock) a)) rs' := by
  induction ids generalizing a rs with
  | nil => exact ⟨rs, h.represents⟩
  | cons id ids ih =>
    rw [List.foldlM_cons]
    rcases h.planetaryResource stock id with ⟨e, he, hrs⟩ | ⟨a', rs', ha', h'⟩
    · rw [he]
      exact ⟨rs, hrs⟩
    · rw [ha']
      exact ih h'

/-- The resources of the facilities. -/
def facilityResources : List Resource :=
  [.cpu, .power, .basicIndustryTime, .advancedIndustryTime, .highTechIndustryTime]

/-- **Planetary jobs are made once**: before there is nothing planetary. -/
theorem Represents.planetaryResources (h : Represents x s rs)
    (hplanetary : ∀ r ∈ rs, r.isPlanetary = false) (schematics : List PlanetaryRecord) :
    ∃ rs', Represents x (Stuff.afterwards (s.planetaryResources x stock schematics)) rs' := by
  have hdisjoint : rs.Disjoint facilityResources := by
    intro r hr hr'
    have hall : ∀ r ∈ facilityResources, r.isPlanetary = true := by decide
    exact absurd (hplanetary r hr) (by simp [hall r hr'])
  have hnodup : (rs ++ facilityResources).Nodup :=
    List.nodup_append'.mpr ⟨h.nodup, by decide, hdisjoint⟩
  have hfacilities : OnPlanets x
      (fun _ => none, { s with objects := s.objects ++ Stuff.facilityObjects x })
      (rs ++ facilityResources) := by
    refine ⟨h.make hnodup rfl (by decide), .none_of_forall_not_mem fun id hmem => ?_⟩
    rcases List.mem_append.mp hmem with hmem | hmem
    · exact absurd (hplanetary _ hmem) (by simp [Resource.isPlanetary])
    · exact absurd hmem (by simp [facilityResources])
  exact hfacilities.planetaryResources stock (Stuff.usedTypes schematics)

/-! ### Sessions -/

theorem represents_start : Represents x (Stuff.start x stock) [.labTime, .productionLineTime] where
  nodup := by decide
  names := rfl
  resources := .none_of_forall_not_mem (by simp)
  bpoTimes := .none_of_forall_not_mem (by simp)
  bpcs := .none_of_forall_not_mem (by simp)
  labTime := rfl
  productionLineTime := rfl
  available r hr := by
    rcases List.mem_pair.mp hr with rfl | rfl
    · trivial
    · trivial

omit [Field K] in
/-- A request makes at most one object, and leaves all others. -/
theorem represents_afterwards {m : Except (Failure × Stuff K) (ℕ × Stuff K)}
    {f : Except Failure Resource} (h : Agree (Leaves (x := x) rs) (Answers (x := x) rs) m f)
    (hr : ∀ r, f = .ok r → r.isPlanetary = false) :
    ∃ rs', Represents x (Stuff.afterwards m) rs' ∧ ∀ r ∈ rs', r ∈ rs ∨ r.isPlanetary = false := by
  cases m with
  | error e =>
    cases f with
    | ok r => exact absurd h id
    | error f => exact ⟨rs, h.2, fun r hr => Or.inl hr⟩
  | ok a =>
    cases f with
    | error f => exact absurd h id
    | ok r =>
      obtain ⟨rs', hextends, hrs', -⟩ := h
      refine ⟨rs', hrs', fun r' hr' => ?_⟩
      rcases hextends with rfl | rfl
      · exact Or.inl hr'
      · rcases List.mem_append.mp hr' with hr' | hr'
        · exact Or.inl hr'
        · exact Or.inr (List.mem_singleton.mp hr' ▸ hr r rfl)

/-- A request. -/
theorem Represents.request (h : Represents x s rs) (call : Stuff.Request) :
    ∃ rs', Represents x (Stuff.afterwards (s.request x stock call)) rs' ∧
      ∀ r ∈ rs', r ∈ rs ∨ r.isPlanetary = false := by
  cases call with
  | getResource id =>
    refine represents_afterwards (h.getResource stock id) fun r hr => ?_
    obtain ⟨name, -, hr⟩ := bind_eq_ok hr
    obtain rfl := Except.ok.inj hr
    rfl
  | getBPO id =>
    refine represents_afterwards (h.getBPO id) fun r hr => ?_
    obtain ⟨name, -, hr⟩ := bind_eq_ok hr
    obtain rfl := Except.ok.inj hr
    rfl
  | getBPC id bpe =>
    refine represents_afterwards (h.getBPC stock id bpe) fun r hr => ?_
    obtain ⟨isT1, -, hr⟩ := bind_eq_ok hr
    obtain ⟨name, -, hr⟩ := bind_eq_ok hr
    obtain rfl := Except.ok.inj hr
    rfl

/-- Some requests. -/
theorem Represents.requests (h : Represents x s rs) (calls : List Stuff.Request) :
    ∃ rs', Represents x (s.requests x stock calls) rs' ∧
      ∀ r ∈ rs', r ∈ rs ∨ r.isPlanetary = false := by
  unfold Stuff.requests
  induction calls generalizing s rs with
  | nil => exact ⟨rs, h, fun r hr => Or.inl hr⟩
  | cons call calls ih =>
    obtain ⟨rs₁, h₁, hnew₁⟩ := h.request stock call
    obtain ⟨rs₂, h₂, hnew₂⟩ := ih h₁
    refine ⟨rs₂, h₂, fun r hr => ?_⟩
    rcases hnew₂ r hr with hr | hr
    · exact hnew₁ r hr
    · exact Or.inr hr

/-- **No two objects stand for the same resource**, after any calls. -/
theorem represents_session (before : List Stuff.Request) (schematics : List PlanetaryRecord)
    (after : List Stuff.Request) :
    ∃ rs, Represents x (Stuff.session x stock before schematics after) rs := by
  obtain ⟨rs₁, h₁, hnew₁⟩ :=
    (represents_start (x := x) stock).requests stock before
  have hplanetary : ∀ r ∈ rs₁, r.isPlanetary = false := by
    intro r hr
    rcases hnew₁ r hr with hr | hr
    · rcases List.mem_pair.mp hr with rfl | rfl
      · rfl
      · rfl
    · exact hr
  obtain ⟨rs₂, h₂⟩ := h₁.planetaryResources stock hplanetary schematics
  obtain ⟨rs₃, h₃, -⟩ := h₂.requests stock after
  exact ⟨rs₃, h₃⟩

end Calls

/-! ### Rows -/

/-- Different objects have different names, none that of the buy-in. -/
theorem Represents.name_injective (h : Represents x s rs) :
    Function.Injective s.resourcesOf.name := by
  have hnodup : (s.objects.map ResourceBase.name).Nodup := by
    rw [h.names]
    exact h.nodup.map Resource.name_injective
  intro p p' heq
  have hlength : (s.objects.map ResourceBase.name).length = s.objects.length := List.length_map _
  have hget : (s.objects.map ResourceBase.name).get (p.cast hlength.symm) =
      (s.objects.map ResourceBase.name).get (p'.cast hlength.symm) := by
    rw [List.get_eq_getElem, List.get_eq_getElem, List.getElem_map, List.getElem_map]
    exact heq
  exact Fin.cast_injective hlength.symm (List.nodup_iff_injective_get.mp hnodup hget)

theorem Represents.buyIn_not_mem (h : Represents x s rs) :
    "BuyIn" ∉ s.objects.map ResourceBase.name := by
  rw [h.names]
  intro hmem
  obtain ⟨r, -, heq⟩ := List.mem_map.mp hmem
  exact r.name_ne_buyIn heq

/-- Different objects have different names, none that of the buy-in; after each of
some jobs of different names, each resource has its own row and each job its
column. -/
structure RowsApart [Field K] [LinearOrder K] (s : Stuff K) : Prop where
  names : (s.objects.map ResourceBase.name).Nodup
  buyIn : "BuyIn" ∉ s.objects.map ResourceBase.name
  ownRows : ∀ jobs : List (Job (Fin s.objects.length) K), (jobs.map Job.name).Nodup → ∀ n,
    ∃ p, Planner.addJobs s.resourcesOf .empty (jobs.take n) = .ok p ∧
      Planner.OwnRows s.resourcesOf p (jobs.take n)

/-- **Every resource has its own row**, for any calls of one `Stuff` with one for
planetary jobs among them, and any jobs over the objects. -/
theorem rowsApart_session [Field K] [LinearOrder K] (x : PlannerAndStuff K) (stock : Stock)
    (before : List Stuff.Request) (schematics : List PlanetaryRecord)
    (after : List Stuff.Request) : RowsApart (Stuff.session x stock before schematics after) := by
  obtain ⟨rs, h⟩ := represents_session (x := x) stock before schematics after
  have hbuyIn : ∀ p, (Stuff.session x stock before schematics after).resourcesOf.name p ≠
      "BuyIn" := by
    intro p heq
    refine h.buyIn_not_mem (List.mem_map.mpr ⟨_, List.get_mem _ p, heq⟩)
  refine ⟨?_, h.buyIn_not_mem, fun jobs hjobs n => ?_⟩
  · rw [h.names]
    exact h.nodup.map Resource.name_injective
  · refine Planner.exists_ownRows h.name_injective hbuyIn (hjobs.sublist ?_)
    exact (List.take_sublist n jobs).map Job.name

end Represents

end Industry
end EveIndustryPlanner
