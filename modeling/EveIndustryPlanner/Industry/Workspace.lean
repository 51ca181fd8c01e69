import EveIndustryPlanner.Industry.Inventions
import EveIndustryPlanner.Industry.Products
import EveIndustryPlanner.Industry.Types

/-!
# The workspace

All blueprints are registered, and what can be made, invented and copied with
those that have a name is collected; what the character cannot do is filtered
out afterwards.

## Main definitions

* `Copying`, `addCopyingData` — the blueprints that can be copied.
* `Jobs` — what was collected.
* `processBlueprints` — the loop over a catalogue.
* `made` — what a blueprint of the catalogue makes.
* `jobValues` — the values of the jobs, from what was collected before the filter.

## Main results

* `Processed.processBlueprints` — **what the loop leaves behind.**
* `jobValues_isSome_iff` — **which ids have a job value.**
-/

namespace EveIndustryPlanner
namespace Industry

/-! ### Copies -/

/-- A blueprint that can be copied. -/
structure Copying where
  blueprint : TypeID
  /-- In seconds. -/
  duration : ℤ
  deriving DecidableEq

section Copies

variable {N K : Type} [Document N K]

/-- Collect a blueprint that can be bought and copied. -/
def addCopyingData (avgPrices : Prices K) (copying : N) (blueprintId : TypeID)
    (t1Copies : List Copying) : Except Failure (List Copying) :=
  if !isDefined copying then .ok t1Copies
  else if (avgPrices blueprintId).isNone then .ok t1Copies
  else do
    let copyTime ← field copying "time"
    if !isDefined copyTime then return t1Copies
    else do
      let t ← asInt copyTime
      return t1Copies ++ [⟨blueprintId, t⟩]

/-- Drop the blueprints that are too expensive. -/
def filterCopies [LinearOrder K] (avgPrices : Prices K) (bpoPriceLimit : K)
    (copies : List Copying) : List Copying :=
  copies.filter fun c => (avgPrices c.blueprint).any fun price => price ≤ bpoPriceLimit

/-- At most the blueprint itself is collected. -/
theorem addCopyingData_ok {avgPrices : Prices K} {copying : N} {blueprintId : TypeID}
    {t1Copies t1Copies' : List Copying}
    (h : addCopyingData avgPrices copying blueprintId t1Copies = .ok t1Copies') :
    t1Copies' = t1Copies ∨ ∃ t, t1Copies' = t1Copies ++ [⟨blueprintId, t⟩] := by
  unfold addCopyingData at h
  split at h
  · exact Or.inl (Except.ok.inj h).symm
  split at h
  · exact Or.inl (Except.ok.inj h).symm
  obtain ⟨copyTime, -, h⟩ := bind_eq_ok h
  split at h
  · exact Or.inl (Except.ok.inj h).symm
  obtain ⟨t, -, h⟩ := bind_eq_ok h
  exact Or.inr ⟨t, (Except.ok.inj h).symm⟩

end Copies

/-! ### The loop over the blueprints -/

/-- What was collected. -/
structure Jobs (K : Type) where
  products : List (Production K)
  inventions : Inventions K
  t1Copies : List Copying

section Processing

variable {N K : Type} [Document N K] [Field K]

/-- A catalogue of blueprints: ids and nodes. -/
abbrev Catalogue (N : Type) := List (TypeID × N)

/-- The tables that are not changed by the loop. -/
structure Inputs (K : Type) where
  names : Names
  groups : Groups
  avgPrices : Prices K
  adjPrices : Prices K
  skills : Skills K

/-- Nothing collected yet. -/
def Jobs.empty : Jobs K := ⟨[], .empty, []⟩

/-- What can be done with one blueprint. -/
def Jobs.add (inputs : Inputs K) (blueprintId : TypeID) (b : N) (jobs : Jobs K) :
    Except Failure (Jobs K) := do
  let activities ← field b "activities"
  let products ← addManufacturingData inputs.avgPrices inputs.skills
    (← field activities "manufacturing") blueprintId jobs.products
  let inventions ← addInventionData inputs.skills
    ⟨← field activities "invention", blueprintId, inputs.avgPrices⟩ jobs.inventions
  let t1Copies ← addCopyingData inputs.avgPrices (← field activities "copying") blueprintId
    jobs.t1Copies
  return ⟨products, inventions, t1Copies⟩

/-- One round of the loop. -/
def processBlueprint (inputs : Inputs K) (s : Types × Jobs K) (e : TypeID × N) :
    Except Failure (Types × Jobs K) := do
  -- a blueprint without a name is registered all the same
  let types ← s.1.registerBlueprint inputs.groups e.1 e.2
  if (inputs.names e.1).isNone then return (types, s.2)
  else do
    let jobs ← s.2.add inputs e.1 e.2
    return (types, jobs)

/-- The loop over a catalogue. -/
def processBlueprints (inputs : Inputs K) (catalogue : Catalogue N) :
    Except Failure (Types × Jobs K) :=
  catalogue.foldlM (processBlueprint inputs) (.empty, .empty)

/-- Drop what the character cannot do and what is too expensive. -/
def Jobs.filter [LinearOrder K] (skills : Skills K) (avgPrices : Prices K) (bpoPriceLimit : K)
    (jobs : Jobs K) : Jobs K where
  products := filterBySkill skills Production.skills jobs.products
  inventions := jobs.inventions.filter skills
  t1Copies := filterCopies avgPrices bpoPriceLimit jobs.t1Copies

/-- What a blueprint of a catalogue makes. -/
def made (inputs : Inputs K) (e : TypeID × N) : Option (Production K) :=
  if (inputs.names e.1).isNone then none
  else
    match (do
      let activities ← field e.2 "activities"
      manufacture inputs.avgPrices inputs.skills (← field activities "manufacturing") e.1) with
    | .ok p => p
    | .error _ => none

/-- The call of `addInventionData` for a blueprint of a catalogue. -/
def inventionCall? (inputs : Inputs K) (e : TypeID × N) : Option (Call N K) :=
  match (do field (← field e.2 "activities") "invention") with
  | .ok invention => some ⟨invention, e.1, inputs.avgPrices⟩
  | .error _ => none

/-! ### What the loop leaves behind -/

/-- What one blueprint adds. -/
theorem Jobs.add_ok {inputs : Inputs K} {e : TypeID × N} {jobs jobs' : Jobs K}
    (hname : (inputs.names e.1).isNone = false) (h : jobs.add inputs e.1 e.2 = .ok jobs') :
    jobs'.products = jobs.products ++ (made inputs e).toList ∧
      (∃ c, inventionCall? inputs e = some c ∧
        addInventionData inputs.skills c jobs.inventions = .ok jobs'.inventions) ∧
      (jobs'.t1Copies = jobs.t1Copies ∨ ∃ t, jobs'.t1Copies = jobs.t1Copies ++ [⟨e.1, t⟩]) := by
  obtain ⟨activities, hactivities, h⟩ := bind_eq_ok h
  obtain ⟨manufacturing, hmanufacturing, h⟩ := bind_eq_ok h
  obtain ⟨products, hproducts, h⟩ := bind_eq_ok h
  obtain ⟨invention, hinvention, h⟩ := bind_eq_ok h
  obtain ⟨inventions, hinventions, h⟩ := bind_eq_ok h
  obtain ⟨copying, -, h⟩ := bind_eq_ok h
  obtain ⟨t1Copies, hcopies, h⟩ := bind_eq_ok h
  obtain rfl := Except.ok.inj h
  obtain ⟨p, hp, hproducts⟩ := bind_eq_ok hproducts
  obtain rfl := Except.ok.inj hproducts
  refine ⟨?_, ⟨_, ?_, hinventions⟩, addCopyingData_ok hcopies⟩
  · rw [made, hname, hactivities, ok_bind, hmanufacturing, ok_bind, hp]
    rfl
  · rw [inventionCall?, hactivities, ok_bind, hinvention]

/-- What the loop has left behind after a part of the catalogue. -/
structure Processed (inputs : Inputs K) (catalogue : Catalogue N) (s : Types × Jobs K) :
    Prop where
  bpToProduct : ∀ b q, s.1.bpToProduct.lookup b = some q ↔ Registers catalogue b q
  products : s.2.products = catalogue.filterMap (made inputs)

theorem Processed.empty {inputs : Inputs K} :
    Processed inputs ([] : Catalogue N) (.empty, .empty) where
  bpToProduct b q := by
    rw [iff_false_right not_registers_nil]
    simp [Types.empty]
  products := rfl

/-- One more round. -/
theorem Processed.snoc {inputs : Inputs K} {catalogue : Catalogue N} {s s' : Types × Jobs K}
    {e : TypeID × N} (h : Processed inputs catalogue s)
    (hround : processBlueprint inputs s e = .ok s') : Processed inputs (catalogue ++ [e]) s' := by
  obtain ⟨types, htypes, hround⟩ := bind_eq_ok hround
  have hbpToProduct := Registers.registerBlueprint h.bpToProduct htypes
  have hsnoc : (catalogue ++ [e]).filterMap (made inputs) =
      s.2.products ++ (made inputs e).toList := by
    rw [List.filterMap_append, h.products]
    cases hmade : made inputs e with
    | none => simp [hmade]
    | some p => simp [hmade]
  split at hround
  · -- nothing is collected of a blueprint without a name
    next hname =>
    obtain rfl := Except.ok.inj hround
    have hmade : made inputs e = none := by rw [made, if_pos hname]
    exact ⟨hbpToProduct, by rw [hsnoc, hmade, Option.toList_none, List.append_nil]⟩
  · next hname =>
    obtain ⟨jobs, hjobs, hround⟩ := bind_eq_ok hround
    obtain rfl := Except.ok.inj hround
    exact ⟨hbpToProduct, (Jobs.add_ok (Bool.eq_false_iff.mpr hname) hjobs).1.trans hsnoc.symm⟩

/-- **What the loop leaves behind**: every product a blueprint makes, and the
last registration of each blueprint. -/
theorem Processed.processBlueprints {inputs : Inputs K} {catalogue : Catalogue N}
    {s : Types × Jobs K} (h : processBlueprints inputs catalogue = .ok s) :
    Processed inputs catalogue s := by
  induction catalogue using List.reverseRecOn generalizing s with
  | nil =>
    obtain rfl := Except.ok.inj h
    exact .empty
  | append_singleton catalogue e ih =>
    obtain ⟨s₁, h₁, h⟩ := foldlM_append_eq_ok h
    obtain ⟨s₂, h₂, h⟩ := bind_eq_ok h
    obtain rfl := Except.ok.inj h
    exact (ih h₁).snoc h₂

/-- A product that a blueprint makes has the id and the name of the blueprint. -/
theorem made_eq_some {inputs : Inputs K} {e : TypeID × N} {p : Production K}
    (h : made inputs e = some p) :
    p.blueprint = e.1 ∧ (inputs.names p.blueprint).isSome = true := by
  unfold made at h
  split at h
  · exact absurd h (by simp)
  · next hname =>
    split at h
    · next o ho =>
      subst h
      obtain ⟨activities, -, ho⟩ := bind_eq_ok ho
      obtain ⟨manufacturing, -, ho⟩ := bind_eq_ok ho
      have hblueprint := (manufacture_ok ho).1
      refine ⟨hblueprint, ?_⟩
      rw [hblueprint]
      cases hn : inputs.names e.1 with
      | none => exact absurd (by rw [hn]; rfl) hname
      | some name => rfl
    · exact absurd h (by simp)

/-! ### Job values -/

/-- An order of the entries of `bpToProduct`. -/
def Types.IsOrder (types : Types) (order : List (TypeID × TypeID)) : Prop :=
  order.Perm (types.bpToProduct.entries.map fun e => (e.1, e.2))

theorem Types.IsOrder.mem_iff {types : Types} {order : List (TypeID × TypeID)}
    (h : types.IsOrder order) {b q : TypeID} :
    (b, q) ∈ order ↔ types.bpToProduct.lookup b = some q := by
  rw [List.Perm.mem_iff h, ← Option.mem_def, AList.mem_lookup_iff, List.mem_map]
  constructor
  · rintro ⟨e, he, heq⟩
    obtain ⟨rfl, rfl⟩ := Prod.mk.injEq .. ▸ heq
    exact he
  · intro he
    exact ⟨⟨b, q⟩, he, rfl⟩

/-- The values of the jobs, from what was collected before the filter. -/
def jobValues (inputs : Inputs K) (jobs : Jobs K) (order : List (TypeID × TypeID)) :
    TypeID → Option K :=
  setJobValues (inputValues jobs.products inputs.adjPrices) order

/-- A blueprint of the catalogue makes the product of materials all of which have
adjusted prices. -/
def Valued (inputs : Inputs K) (catalogue : Catalogue N) (q : TypeID) : Prop :=
  ∃ e ∈ catalogue, ∃ p, made inputs e = some p ∧ p.product = q ∧
    isPricable p.materials inputs.adjPrices = true

/-- The id is registered as a valued product or as a blueprint for one. -/
def Covered (inputs : Inputs K) (catalogue : Catalogue N) (id : TypeID) : Prop :=
  ∃ b q, Registers catalogue b q ∧ (id = q ∨ id = b) ∧ Valued inputs catalogue q

/-- Which products have a value. -/
theorem Processed.inputValues_isSome_iff {inputs : Inputs K} {catalogue : Catalogue N}
    {s : Types × Jobs K} (h : Processed inputs catalogue s) {q : TypeID} :
    (inputValues s.2.products inputs.adjPrices q).isSome ↔ Valued inputs catalogue q := by
  rw [Industry.inputValues_isSome_iff, h.products]
  simp only [List.mem_filterMap]
  constructor
  · rintro ⟨p, ⟨e, he, hp⟩, hq, hpriced⟩
    exact ⟨e, he, p, hp, hq, hpriced⟩
  · rintro ⟨e, he, p, hp, hq, hpriced⟩
    exact ⟨p, ⟨e, he, hp⟩, hq, hpriced⟩

/-- **Which ids have a job value.** -/
theorem jobValues_isSome_iff {inputs : Inputs K} {catalogue : Catalogue N} {s : Types × Jobs K}
    (h : processBlueprints inputs catalogue = .ok s) {order : List (TypeID × TypeID)}
    (horder : s.1.IsOrder order) {id : TypeID} :
    (jobValues inputs s.2 order id).isSome ↔ Covered inputs catalogue id := by
  have hs := Processed.processBlueprints h
  rw [jobValues, setJobValues_isSome_iff]
  constructor
  · rintro ⟨⟨b, q⟩, he, hv, hid⟩
    exact ⟨b, q, (hs.bpToProduct b q).mp (horder.mem_iff.mp he), hid,
      hs.inputValues_isSome_iff.mp hv⟩
  · rintro ⟨b, q, hreg, hid, hv⟩
    exact ⟨(b, q), horder.mem_iff.mpr ((hs.bpToProduct b q).mpr hreg),
      hs.inputValues_isSome_iff.mpr hv, hid⟩

end Processing

end Industry
end EveIndustryPlanner
