import EveIndustryPlanner.Industry.Stuff
import EveIndustryPlanner.Lib.Memo
import EveIndustryPlanner.Lib.Rounding
import EveIndustryPlanner.Lib.Tally

/-!
# Owned copies of blueprints

The runs of the copies that are owned are counted for each blueprint and its
efficiency.  The resource of a copy is made when it is first asked for, with the
runs of its efficiency in stock, or those of all efficiencies if the blueprint is
of the first technology.

## Main definitions

* `Doubles` — the doubles that efficiencies are.
* `OwnedBlueprint`, `OwnedBPCs.load` — the table of runs.
* `OwnedBPCs.runs`, `OwnedBPCs.runsOfType` — what is looked up in it.
* `BlueprintCopies.makeBPC`, `BlueprintCopies.getBPC` — the resources.
* `stocks` — the initial stocks of the resources of a blueprint.

## Main results

* `runsOfType_load`, `sum_runs_load_le` — what is looked up, and what is owned.
* `makeBPC_name` — the resources have the names that the jobs use.
* `stocks_eq` — **the stocks of the resources that were asked for.**
-/

namespace EveIndustryPlanner
namespace Industry

/-! ### Efficiencies as doubles -/

/-- The doubles that efficiencies are; `D` has them up to `==`. -/
structure Doubles (D : Type) where
  /-- A number of hundredths that is written out in the code. -/
  literal : ℕ → D
  /-- `0.01 * double(n)`, which need not be the number that would be written out. -/
  hundredth : ℕ → D
  /-- `std::to_string`. -/
  toString : D → String

/-- A blueprint and its efficiencies. -/
structure BlueprintWithEfficiency (D : Type) where
  blueprint : TypeID
  materialEfficiency : D
  timeEfficiency : D
  deriving DecidableEq, Repr

section Owned

variable {D : Type} [DecidableEq D] (doubles : Doubles D)

/-- A blueprint and efficiencies that are written out. -/
def withEfficiency (bp : TypeID) (bpe : BlueprintEfficiency) : BlueprintWithEfficiency D :=
  ⟨bp, doubles.literal bpe.materialEfficiency, doubles.literal bpe.timeEfficiency⟩

/-- Both efficiencies as they are printed. -/
def Doubles.makeBpeString (bpwe : BlueprintWithEfficiency D) : String :=
  doubles.toString bpwe.materialEfficiency ++ "_" ++ doubles.toString bpwe.timeEfficiency

/-! ### The table of runs -/

/-- The attributes of an owned blueprint. -/
structure OwnedBlueprint where
  typeID : TypeID
  /-- `-2` for copies. -/
  quantity : ℤ
  runs : ℕ
  timeEfficiency : ℕ
  materialEfficiency : ℕ
  deriving DecidableEq, Repr

/-- What is left of a hundred, in 64 bits. -/
def ofHundred (n : ℕ) : ℕ := (100 + 2 ^ 64 - n) % 2 ^ 64

/-- Under which efficiency a copy is counted. -/
def OwnedBlueprint.key (bp : OwnedBlueprint) : BlueprintWithEfficiency D :=
  ⟨bp.typeID, doubles.hundredth (ofHundred bp.materialEfficiency),
    doubles.hundredth (ofHundred bp.timeEfficiency)⟩

/-- Runs for each blueprint and efficiency. -/
abbrev OwnedBPCs (D : Type) := AList fun _ : BlueprintWithEfficiency D => ℕ

namespace OwnedBPCs

/-- One more owned blueprint; only copies are counted. -/
def add (names : Names) (ownedBPCs : OwnedBPCs D) (bp : OwnedBlueprint) :
    Except Failure (OwnedBPCs D) :=
  if bp.quantity ≠ -2 then .ok ownedBPCs
  else do
    -- for the log
    let _ ← names.getName bp.typeID
    return count (2 ^ 64) ownedBPCs (bp.key doubles, bp.runs)

/-- The table of some owned blueprints. -/
def load (names : Names) (ownedBlueprints : List OwnedBlueprint) : Except Failure (OwnedBPCs D) :=
  ownedBlueprints.foldlM (add doubles names) ∅

/-- The runs of a blueprint with an efficiency. -/
def runs (ownedBPCs : OwnedBPCs D) (bpwe : BlueprintWithEfficiency D) : ℕ :=
  (ownedBPCs.lookup bpwe).getD 0

/-- The runs of a blueprint, whatever the efficiency. -/
def runsOfType (ownedBPCs : OwnedBPCs D) (typeId : TypeID) : ℕ :=
  readWhere (2 ^ 64) (fun bpwe => bpwe.blueprint = typeId) ownedBPCs

end OwnedBPCs

/-- The copies among some owned blueprints, as they are counted. -/
def copies (ownedBlueprints : List OwnedBlueprint) : List (BlueprintWithEfficiency D × ℕ) :=
  (ownedBlueprints.filter fun bp => bp.quantity = -2).map fun bp => (bp.key doubles, bp.runs)

/-- The runs owned of a blueprint. -/
def ownedRuns (ownedBlueprints : List OwnedBlueprint) (typeId : TypeID) : ℕ :=
  ((ownedBlueprints.filter fun bp => bp.quantity = -2 ∧ bp.typeID = typeId).map
    OwnedBlueprint.runs).sum

variable {doubles} {names : Names} {ownedBlueprints : List OwnedBlueprint}
  {ownedBPCs : OwnedBPCs D}

/-- The table counts the copies. -/
theorem OwnedBPCs.load_eq (h : load doubles names ownedBlueprints = .ok ownedBPCs) :
    ownedBPCs = tally (2 ^ 64) (copies doubles ownedBlueprints) := by
  induction ownedBlueprints using List.reverseRecOn generalizing ownedBPCs with
  | nil =>
    obtain rfl := Except.ok.inj h
    rfl
  | append_singleton ownedBlueprints bp ih =>
    obtain ⟨before, hbefore, h⟩ := foldlM_append_eq_ok h
    obtain ⟨after, hafter, h⟩ := bind_eq_ok h
    obtain rfl := Except.ok.inj h
    obtain rfl := ih hbefore
    rw [copies, List.filter_append, List.map_append]
    unfold add at hafter
    split at hafter
    · next hquantity =>
      obtain rfl := Except.ok.inj hafter
      simp [copies, hquantity]
    · next hquantity =>
      obtain ⟨name, -, hafter⟩ := bind_eq_ok hafter
      obtain rfl := Except.ok.inj hafter
      have hcopy : ([bp].filter fun bp => bp.quantity = -2) = [bp] := by
        simpa using hquantity
      rw [hcopy, List.map_singleton, tally_snoc, copies]

omit [DecidableEq D] in
/-- What was counted under a blueprint is what is owned of it. -/
theorem total_copies (doubles : Doubles D) (ownedBlueprints : List OwnedBlueprint)
    (typeId : TypeID) :
    total (fun bpwe => bpwe.blueprint = typeId) (copies doubles ownedBlueprints) =
      ownedRuns ownedBlueprints typeId := by
  rw [total, copies, List.filter_map, List.map_map, List.filter_filter, ownedRuns]
  refine congrArg List.sum (congrArg _ (List.filter_congr fun bp _ => ?_))
  simp [OwnedBlueprint.key, and_comm]

/-- All runs of a blueprint, modulo `2 ^ 64`. -/
theorem runsOfType_load (h : OwnedBPCs.load doubles names ownedBlueprints = .ok ownedBPCs)
    (typeId : TypeID) :
    ownedBPCs.runsOfType typeId = ownedRuns ownedBlueprints typeId % 2 ^ 64 := by
  rw [OwnedBPCs.load_eq h, OwnedBPCs.runsOfType, readWhere_tally, total_copies]

/-- No more is found under different efficiencies of a blueprint than is owned. -/
theorem sum_runs_load_le (h : OwnedBPCs.load doubles names ownedBlueprints = .ok ownedBPCs)
    {typeId : TypeID} {keys : List (BlueprintWithEfficiency D)} (hnodup : keys.Nodup)
    (hkeys : ∀ bpwe ∈ keys, bpwe.blueprint = typeId) :
    (keys.map ownedBPCs.runs).sum ≤ ownedRuns ownedBlueprints typeId := by
  rw [OwnedBPCs.load_eq h, ← total_copies doubles]
  exact sum_lookup_tally_le hnodup (fun k hk => by simpa using hkeys k hk) _

/-! ### The resources -/

/-- A resource. -/
structure BPC where
  name : String
  fullName : String
  /-- Minus the stock. -/
  lowerLimit : ℤ
  deriving DecidableEq, Repr

/-- The resources of copies. -/
abbrev BPCs (D : Type) := AList fun _ : BlueprintWithEfficiency D => BPC

/-- What the resources of copies are made with. -/
structure BlueprintCopies (D : Type) where
  names : Names
  assets : OwnedBPCs D
  types : Types

namespace BlueprintCopies

/-- The runs in stock; the efficiency of a blueprint of the first technology is of no
account. -/
def runs (stuff : BlueprintCopies D) (isT1 : Bool) (bpwe : BlueprintWithEfficiency D) : ℕ :=
  if isT1 then stuff.assets.runsOfType bpwe.blueprint else stuff.assets.runs bpwe

variable (doubles)

/-- Make the resource of a copy. -/
def makeBPC (stuff : BlueprintCopies D) (bpwe : BlueprintWithEfficiency D) :
    Except Failure BPC := do
  let bp := bpwe.blueprint
  let isT1 ← stuff.types.isT1BP bp
  let runs := stuff.runs isT1 bpwe
  let bpeString := doubles.makeBpeString bpwe
  let name ← stuff.names.getName bp
  return {
    name := toString bp ++ "_" ++ bpeString ++ "_BPC"
    fullName := name ++ " " ++ bpeString ++ "_BPC"
    lowerLimit := -(nearestDouble runs : ℤ) }

/-- The resource of a copy.  A pointer that is still null after an exception counts as
no entry. -/
def getBPC (stuff : BlueprintCopies D) (bpcs : BPCs D) (bpwe : BlueprintWithEfficiency D) :
    Except Failure (BPC × BPCs D) :=
  demand (stuff.makeBPC doubles) bpcs bpwe

/-- The table after some calls of `getBPC`. -/
def getBPCs (stuff : BlueprintCopies D) (calls : List (BlueprintWithEfficiency D)) :
    Except Failure (BPCs D) :=
  demandAll (stuff.makeBPC doubles) calls ∅

variable {doubles} {stuff : BlueprintCopies D} {bpwe : BlueprintWithEfficiency D}

/-- The stock is that of the kind of the blueprint. -/
theorem makeBPC_ok {bpc : BPC} (h : stuff.makeBPC doubles bpwe = .ok bpc) :
    bpc.lowerLimit =
      -(nearestDouble (stuff.runs (stuff.types.isT1BP_ bpwe.blueprint) bpwe) : ℤ) := by
  obtain ⟨isT1, hT1, h⟩ := bind_eq_ok h
  obtain ⟨⟨⟩, -, hT1⟩ := bind_eq_ok hT1
  obtain rfl := Except.ok.inj hT1
  obtain ⟨name, -, h⟩ := bind_eq_ok h
  obtain rfl := Except.ok.inj h
  rfl

/-- The resource has the name that the jobs use for it. -/
theorem makeBPC_name {K : Type} {x : PlannerAndStuff K} {id : TypeID} {bpe : BlueprintEfficiency}
    (hnames : stuff.names = x.names) (htypes : stuff.types = x.types)
    (hme : doubles.toString (doubles.literal bpe.materialEfficiency) =
      hundredths bpe.materialEfficiency)
    (hte : doubles.toString (doubles.literal bpe.timeEfficiency) = hundredths bpe.timeEfficiency) :
    (stuff.makeBPC doubles (withEfficiency doubles id bpe)).map BPC.name =
      (Industry.getBPC x id bpe).map Resource.name := by
  have hprint : doubles.makeBpeString (withEfficiency doubles id bpe) = makeBpeString bpe := by
    rw [Doubles.makeBpeString, makeBpeString, withEfficiency, hme, hte]
  rw [makeBPC, Industry.getBPC, hprint, hnames, htypes]
  show Except.map _ (x.types.isT1BP id >>= _) = _
  cases x.types.isT1BP id with
  | error e => rfl
  | ok isT1 =>
    show Except.map _ (x.names.getName id >>= _) = Except.map _ (x.names.getName id >>= _)
    cases x.names.getName id with
    | error e => rfl
    | ok name => rfl

end BlueprintCopies

/-- The initial stocks of the resources of a blueprint. -/
def stocks (bpcs : BPCs D) (typeId : TypeID) : List ℤ :=
  (bpcs.entries.filter fun e => e.1.blueprint = typeId).map fun e => -e.2.lowerLimit

/-- The efficiencies that a blueprint was asked for with. -/
def keysOf (bpcs : BPCs D) (typeId : TypeID) : List (BlueprintWithEfficiency D) :=
  bpcs.keys.filter fun bpwe => bpwe.blueprint = typeId

omit [DecidableEq D] in
theorem nodup_keysOf (bpcs : BPCs D) (typeId : TypeID) : (keysOf bpcs typeId).Nodup :=
  bpcs.keys_nodup.filter _

theorem mem_keysOf {stuff : BlueprintCopies D} {calls : List (BlueprintWithEfficiency D)}
    {bpcs : BPCs D} (h : stuff.getBPCs doubles calls = .ok bpcs) {typeId : TypeID}
    {bpwe : BlueprintWithEfficiency D} :
    bpwe ∈ keysOf bpcs typeId ↔ bpwe ∈ calls ∧ bpwe.blueprint = typeId := by
  have hmade := Made.demandAll h
  rw [keysOf, List.mem_filter, ← AList.mem_keys, hmade.mem_iff]
  simp

/-- **The stocks of the resources that were asked for**: one for each efficiency. -/
theorem stocks_eq {stuff : BlueprintCopies D} {calls : List (BlueprintWithEfficiency D)}
    {bpcs : BPCs D} (h : stuff.getBPCs doubles calls = .ok bpcs) (typeId : TypeID) :
    stocks bpcs typeId = (keysOf bpcs typeId).map fun bpwe =>
      (nearestDouble (stuff.runs (stuff.types.isT1BP_ typeId) bpwe) : ℤ) := by
  have hmade := Made.demandAll h
  rw [stocks, keysOf, AList.keys, List.keys, List.filter_map, List.map_map]
  refine List.map_congr_left fun e he => ?_
  obtain ⟨hmem, htype⟩ := List.mem_filter.mp he
  have hlookup : bpcs.lookup e.1 = some e.2 := AList.mem_lookup_iff.mpr hmem
  rw [BlueprintCopies.makeBPC_ok (hmade.made e.1 e.2 hlookup), neg_neg, Function.comp_apply,
    of_decide_eq_true htype]

end Owned

end Industry
end EveIndustryPlanner
