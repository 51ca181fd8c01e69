import EveIndustryPlanner.Industry.Document
import EveIndustryPlanner.Lib.Table

/-!
# Loading the schematics

Each row of the query is one item of one schematic, as what goes in or as what
comes out.  What comes out is kept in a map, what goes in in a multimap, and the
two are joined when all rows are read.  In which order a hash map is iterated is
not known, so it is left open.

## Main definitions

* `SchematicRow`, `PlanetaryRecord` — a row of the query and a schematic as it
  is kept.
* `loadRow`, `loadSchematics` — the loop over the rows and the join.
* `HashOrder` — the orders in which the maps are iterated.
* `MadeFrom`, `Grouped` — what the schematics have to do with the rows.

## Main results

* `Loaded.loadRow` — what one row adds.
* `grouped_of_loadSchematics` — **each schematic with an output row is there
  once, with that row and its input rows.**
* `succeeds_loadSchematics_iff` — when the rows are accepted.
-/

namespace EveIndustryPlanner
namespace Industry

/-! ### Rows and schematics -/

/-- A row of the query. -/
structure SchematicRow where
  schematicID : Int32
  typeID : Int32
  quantity : Int32
  isInput : Int32
  marketGroup : Int32
  cycleTime : Int32
  deriving DecidableEq, Repr

/-- A schematic as it is kept, with a tier of eight bits. -/
structure PlanetaryRecord where
  product : TypeID
  producedQuantity : ℕ
  materials : Materials
  /-- In seconds. -/
  duration : ℕ
  tier : UInt8
  deriving DecidableEq, Repr

/-- What is kept of the row that says what comes out of a schematic. -/
structure Output where
  schematicID : ℕ
  typeID : TypeID
  quantity : ℕ
  tier : UInt64
  cycleTime : ℕ
  deriving DecidableEq, Repr

/-- The two maps and the set of types, as far as rows are read. -/
structure Loading where
  output : Table Output.schematicID
  inputs : List (ℕ × TypeID × ℕ)
  types : Finset TypeID

/-- `boost::numeric_cast<std::size_t>`. -/
def numericCast (n : Int32) : Except Fault ℕ :=
  if 0 ≤ n.toInt then .ok n.toInt.toNat
  else .error (.runtimeError "bad numeric conversion: negative overflow")

/-- The tier of a market group; below the first group it wraps around. -/
def groupTier (marketGroup : ℕ) : UInt64 := UInt64.ofNat marketGroup - 1334

/-- Read a row. -/
def loadRow (s : Loading) (r : SchematicRow) : Except Fault Loading := do
  let schematicID ← numericCast r.schematicID
  let typeID ← numericCast r.typeID
  let quantity ← numericCast r.quantity
  let isInput ← numericCast r.isInput
  let marketGroup ← numericCast r.marketGroup
  let cycleTime ← numericCast r.cycleTime
  if isInput ≠ 0 then
    return { s with
      inputs := s.inputs ++ [(schematicID, typeID, quantity)]
      types := insert typeID s.types }
  else if 3 < groupTier marketGroup then
    .error (.runtimeError ("bad tier: " ++ toString (groupTier marketGroup)))
  else
    return { s with
      output := s.output.insertOrIgnore
        ⟨schematicID, typeID, quantity, groupTier marketGroup, cycleTime⟩
      types := insert typeID s.types }

/-! ### The join -/

/-- What went into a schematic. -/
def inputsOf (inputs : List (ℕ × TypeID × ℕ)) (schematicID : ℕ) : Materials :=
  (inputs.filter fun i => i.1 = schematicID).map Prod.snd

/-- The orders in which the map is iterated and the multimap lists one key. -/
structure HashOrder where
  iterate : List Output → List Output
  iterate_perm : ∀ l, (iterate l).Perm l
  equalRange : List (ℕ × TypeID × ℕ) → ℕ → Materials
  equalRange_perm : ∀ l id, (equalRange l id).Perm (inputsOf l id)

/-- Everything in the order in which it was inserted. -/
def HashOrder.insertion : HashOrder where
  iterate l := l
  iterate_perm _ := .refl _
  equalRange := inputsOf
  equalRange_perm _ _ := .refl _

/-- The schematics, and how many types their rows have. -/
structure Schematics where
  schematics : List PlanetaryRecord
  typeCount : ℕ

/-- A schematic; its tier is cut down to eight bits. -/
def makePlanetary (order : HashOrder) (inputs : List (ℕ × TypeID × ℕ)) (o : Output) :
    PlanetaryRecord :=
  ⟨o.typeID, o.quantity, order.equalRange inputs o.schematicID, o.cycleTime, o.tier.toUInt8⟩

/-- Read all rows and join the maps. -/
def loadSchematics (order : HashOrder) (rows : List SchematicRow) : Except Fault Schematics := do
  let s ← rows.foldlM loadRow ⟨.empty, [], ∅⟩
  return ⟨(order.iterate s.output.rows).map (makePlanetary order s.inputs), s.types.card⟩

/-! ### What the schematics are -/

/-- The rows that say what comes out. -/
def outputRows (rows : List SchematicRow) : List SchematicRow :=
  rows.filter fun r => r.isInput = 0

/-- The rows that say what goes into a schematic. -/
def inputRows (rows : List SchematicRow) (schematicID : Int32) : List SchematicRow :=
  rows.filter fun r => r.isInput ≠ 0 ∧ r.schematicID = schematicID

/-- The types that schematics take and make. -/
def typeIDs (ps : List PlanetaryRecord) : List TypeID :=
  ps.flatMap fun p => p.product :: p.materials.map Prod.fst

/-- A schematic with its output row and all its input rows. -/
structure MadeFrom (rows : List SchematicRow) (r : SchematicRow) (p : PlanetaryRecord) :
    Prop where
  product : (p.product : ℤ) = r.typeID.toInt
  producedQuantity : (p.producedQuantity : ℤ) = r.quantity.toInt
  materials : (p.materials.map fun m => ((m.1 : ℤ), (m.2 : ℤ))).Perm
    ((inputRows rows r.schematicID).map fun m => (m.typeID.toInt, m.quantity.toInt))
  duration : (p.duration : ℤ) = r.cycleTime.toInt
  tier : (p.tier.toNat : ℤ) = r.marketGroup.toInt - 1334
  tier_le : p.tier ≤ 3

/-- One schematic for the first output row of each schematic id. -/
def Grouped (rows : List SchematicRow) (ps : List PlanetaryRecord) : Prop :=
  ∃ firsts : List SchematicRow,
    (firsts.map SchematicRow.schematicID).Nodup ∧
    (∀ r, r ∈ firsts ↔ FirstOf SchematicRow.schematicID (outputRows rows) r) ∧
    List.Forall₂ (MadeFrom rows) firsts ps

/-! ### One row -/

/-- An output row and what is kept of it. -/
structure Stands (r : SchematicRow) (o : Output) : Prop where
  schematicID : (o.schematicID : ℤ) = r.schematicID.toInt
  typeID : (o.typeID : ℤ) = r.typeID.toInt
  quantity : (o.quantity : ℤ) = r.quantity.toInt
  tier : (o.tier.toNat : ℤ) = r.marketGroup.toInt - 1334
  tier_le : o.tier.toNat ≤ 3
  cycleTime : (o.cycleTime : ℤ) = r.cycleTime.toInt

/-- An input row and what is kept of it. -/
structure TakenIn (r : SchematicRow) (i : ℕ × TypeID × ℕ) : Prop where
  schematicID : (i.1 : ℤ) = r.schematicID.toInt
  typeID : (i.2.1 : ℤ) = r.typeID.toInt
  quantity : (i.2.2 : ℤ) = r.quantity.toInt

theorem numericCast_eq_ok_iff {n : Int32} {k : ℕ} : numericCast n = .ok k ↔ (k : ℤ) = n.toInt := by
  unfold numericCast
  split
  · next h =>
    rw [Except.ok.injEq]
    omega
  · next h =>
    constructor
    · intro heq
      exact absurd heq (by simp)
    · intro heq
      exact absurd (Int.natCast_nonneg k) (heq ▸ h)

/-- A cast fails with an exception. -/
theorem numericCast_eq_error {n : Int32} {e : Fault} (h : numericCast n = .error e) :
    ∃ what, e = .runtimeError what := by
  unfold numericCast at h
  split at h
  · exact absurd h (by simp)
  · exact ⟨_, (Except.error.inj h).symm⟩

/-- The tier of a group of the range, which is not found below it either. -/
theorem groupTier_le_iff {n : Int32} {k : ℕ} (hk : (k : ℤ) = n.toInt) :
    groupTier k ≤ 3 ↔ 1334 ≤ n.toInt ∧ n.toInt ≤ 1337 := by
  have hlt := n.toInt_lt
  rw [UInt64.le_iff_toNat_le, groupTier, UInt64.toNat_sub, UInt64.toNat_ofNat']
  have hk' : k < 2 ^ 31 := by omega
  simp only [UInt64.reduceToNat]
  omega

theorem groupTier_toNat {n : Int32} {k : ℕ} (hk : (k : ℤ) = n.toInt) (h : groupTier k ≤ 3) :
    ((groupTier k).toNat : ℤ) = n.toInt - 1334 := by
  have hlt := n.toInt_lt
  obtain ⟨hlow, hhigh⟩ := (groupTier_le_iff hk).mp h
  rw [groupTier, UInt64.toNat_sub, UInt64.toNat_ofNat']
  simp only [UInt64.reduceToNat]
  omega

/-- A row without negative numbers, whose market group has a tier if it is an
output row. -/
structure Readable (r : SchematicRow) : Prop where
  schematicID : 0 ≤ r.schematicID.toInt
  typeID : 0 ≤ r.typeID.toInt
  quantity : 0 ≤ r.quantity.toInt
  isInput : 0 ≤ r.isInput.toInt
  marketGroup : 0 ≤ r.marketGroup.toInt
  cycleTime : 0 ≤ r.cycleTime.toInt
  tier : r.isInput = 0 → 1334 ≤ r.marketGroup.toInt ∧ r.marketGroup.toInt ≤ 1337

theorem isInput_eq_zero_iff {n : Int32} {k : ℕ} (h : (k : ℤ) = n.toInt) : k = 0 ↔ n = 0 := by
  rw [← Int32.toInt_inj, ← h, Int32.toInt_zero]
  omega

variable {s s' : Loading} {r : SchematicRow}

/-- **What a row adds**: an input, or an output unless its schematic has one. -/
theorem loadRow_eq_ok (h : loadRow s r = .ok s') :
    Readable r ∧
      ((r.isInput ≠ 0 ∧ ∃ i, TakenIn r i ∧
          s' = ⟨s.output, s.inputs ++ [i], insert i.2.1 s.types⟩) ∨
        (r.isInput = 0 ∧ ∃ o, Stands r o ∧
          s' = ⟨s.output.insertOrIgnore o, s.inputs, insert o.typeID s.types⟩)) := by
  obtain ⟨schematicID, h₁, h⟩ := bind_eq_ok h
  obtain ⟨typeID, h₂, h⟩ := bind_eq_ok h
  obtain ⟨quantity, h₃, h⟩ := bind_eq_ok h
  obtain ⟨isInput, h₄, h⟩ := bind_eq_ok h
  obtain ⟨marketGroup, h₅, h⟩ := bind_eq_ok h
  obtain ⟨cycleTime, h₆, h⟩ := bind_eq_ok h
  rw [numericCast_eq_ok_iff] at h₁ h₂ h₃ h₄ h₅ h₆
  have hinput := isInput_eq_zero_iff h₄
  split at h
  · next hne =>
    obtain rfl := Except.ok.inj h
    have hin : r.isInput ≠ 0 := fun h0 => hne (hinput.mpr h0)
    exact ⟨⟨by omega, by omega, by omega, by omega, by omega, by omega, fun h0 => absurd h0 hin⟩,
      Or.inl ⟨hin, (schematicID, typeID, quantity), ⟨h₁, h₂, h₃⟩, rfl⟩⟩
  · next heq =>
    split at h
    · exact absurd h (by simp)
    · next htier =>
      obtain rfl := Except.ok.inj h
      have hle : groupTier marketGroup ≤ 3 := UInt64.not_lt.mp htier
      have hout : r.isInput = 0 := hinput.mp (not_not.mp heq)
      exact ⟨⟨by omega, by omega, by omega, by omega, by omega, by omega,
          fun _ => (groupTier_le_iff h₅).mp hle⟩,
        Or.inr ⟨hout, ⟨schematicID, typeID, quantity, groupTier marketGroup, cycleTime⟩,
          ⟨h₁, h₂, h₃, groupTier_toNat h₅ hle, UInt64.le_iff_toNat_le.mp hle, h₆⟩, rfl⟩⟩

/-- A row that is readable is read. -/
theorem succeeds_loadRow (s : Loading) (h : Readable r) : Succeeds (loadRow s r) := by
  have hcast : ∀ n : Int32, 0 ≤ n.toInt → numericCast n = .ok n.toInt.toNat := fun n hn =>
    numericCast_eq_ok_iff.mpr (Int.toNat_of_nonneg hn)
  unfold loadRow
  rw [hcast _ h.schematicID, hcast _ h.typeID, hcast _ h.quantity, hcast _ h.isInput,
    hcast _ h.marketGroup, hcast _ h.cycleTime]
  simp only [ok_bind]
  split
  · exact succeeds_ok _
  · next heq =>
    have hout : r.isInput = 0 :=
      (isInput_eq_zero_iff (Int.toNat_of_nonneg h.isInput)).mp (not_not.mp heq)
    have hle := (groupTier_le_iff (Int.toNat_of_nonneg h.marketGroup)).mpr (h.tier hout)
    rw [if_neg (UInt64.not_lt.mpr hle)]
    exact succeeds_ok _

/-- A row that is not read is answered with an exception. -/
theorem loadRow_eq_error {e : Fault} (h : loadRow s r = .error e) :
    ∃ what, e = .runtimeError what := by
  unfold loadRow at h
  rcases bind_eq_error h with h | ⟨schematicID, -, h⟩
  · exact numericCast_eq_error h
  rcases bind_eq_error h with h | ⟨typeID, -, h⟩
  · exact numericCast_eq_error h
  rcases bind_eq_error h with h | ⟨quantity, -, h⟩
  · exact numericCast_eq_error h
  rcases bind_eq_error h with h | ⟨isInput, -, h⟩
  · exact numericCast_eq_error h
  rcases bind_eq_error h with h | ⟨marketGroup, -, h⟩
  · exact numericCast_eq_error h
  rcases bind_eq_error h with h | ⟨cycleTime, -, h⟩
  · exact numericCast_eq_error h
  split at h
  · exact absurd h (by simp [pure, Except.pure])
  · split at h
    · exact ⟨_, (Except.error.inj h).symm⟩
    · exact absurd h (by simp [pure, Except.pure])

/-! ### All rows -/

/-- What is kept of the rows so far. -/
structure Loaded (done : List SchematicRow) (s : Loading) : Prop where
  readable : ∀ r ∈ done, Readable r
  output : s.output.HoldsFirsts Stands SchematicRow.schematicID (outputRows done)
  inputs : List.Forall₂ TakenIn (done.filter fun r => r.isInput ≠ 0) s.inputs
  types : ∀ id : ℕ, id ∈ s.types ↔ ∃ r ∈ done, r.typeID.toInt = id

theorem Loaded.start : Loaded [] ⟨.empty, [], ∅⟩ where
  readable r hr := absurd hr List.not_mem_nil
  output := .empty
  inputs := .nil
  types id := by simp

/-- What one row adds. -/
theorem Loaded.loadRow {done : List SchematicRow} (h : Loaded done s)
    (hok : Industry.loadRow s r = .ok s') : Loaded (done ++ [r]) s' := by
  obtain ⟨hreadable, hcases⟩ := loadRow_eq_ok hok
  have hall : ∀ r' ∈ done ++ [r], Readable r' := by
    intro r' hr'
    rcases List.mem_append.mp hr' with hr' | hr'
    · exact h.readable r' hr'
    · rwa [List.mem_singleton.mp hr']
  have htypes : ∀ (t id : ℕ), (t : ℤ) = r.typeID.toInt →
      (id ∈ insert t s.types ↔ ∃ r' ∈ done ++ [r], r'.typeID.toInt = id) := by
    intro t id ht
    simp only [Finset.mem_insert, h.types, List.mem_append, List.mem_singleton, or_and_right,
      exists_or, exists_eq_left, ← ht, Nat.cast_inj]
    rw [or_comm, eq_comm (a := id)]
  rcases hcases with ⟨hin, i, hi, rfl⟩ | ⟨hout, o, ho, rfl⟩
  · refine ⟨hall, ?_, ?_, fun id => htypes _ id hi.typeID⟩
    · have hsame : outputRows (done ++ [r]) = outputRows done := by simp [outputRows, hin]
      rw [hsame]
      exact h.output
    · rw [List.filter_append, List.filter_singleton, decide_eq_true hin]
      exact List.rel_append h.inputs (.cons hi .nil)
  · refine ⟨hall, ?_, ?_, fun id => htypes _ id ho.typeID⟩
    · have hsnoc : outputRows (done ++ [r]) = outputRows done ++ [r] := by
        simp [outputRows, hout]
      rw [hsnoc]
      refine h.output.insertOrIgnore (fun r' o' ho' => ?_) ho
      rw [← Int32.toInt_inj, ← ho'.schematicID, ← ho.schematicID, Nat.cast_inj]
    · rw [List.filter_append, List.filter_singleton, decide_eq_false (not_not.mpr hout),
        cond_false, List.append_nil]
      exact h.inputs

/-- What all rows add. -/
theorem Loaded.of_foldlM {rows : List SchematicRow}
    (h : rows.foldlM Industry.loadRow ⟨.empty, [], ∅⟩ = .ok s) : Loaded rows s := by
  induction rows using List.reverseRecOn generalizing s with
  | nil =>
    obtain rfl := Except.ok.inj h
    exact .start
  | append_singleton rows r ih =>
    obtain ⟨s₁, h₁, h⟩ := foldlM_append_eq_ok h
    obtain ⟨s₂, h₂, h⟩ := bind_eq_ok h
    obtain rfl := Except.ok.inj h
    exact (ih h₁).loadRow h₂

/-! ### The schematics -/

theorem inputRows_eq (rows : List SchematicRow) (schematicID : Int32) :
    inputRows rows schematicID = (rows.filter fun r => r.isInput ≠ 0).filter fun r =>
      r.schematicID = schematicID := by
  rw [List.filter_filter, inputRows]
  refine List.filter_congr fun r _ => ?_
  rw [← Bool.decide_and, decide_eq_decide, and_comm]

/-- What went into a schematic is what its input rows say. -/
theorem map_inputsOf {ms : List SchematicRow} {inputs : List (ℕ × TypeID × ℕ)}
    (h : List.Forall₂ TakenIn ms inputs) {id : ℕ} {schematicID : Int32}
    (hid : (id : ℤ) = schematicID.toInt) :
    (inputsOf inputs id).map (fun m => ((m.1 : ℤ), (m.2 : ℤ))) =
      (ms.filter fun r => r.schematicID = schematicID).map fun m =>
        (m.typeID.toInt, m.quantity.toInt) := by
  unfold inputsOf
  induction h with
  | nil => rfl
  | @cons r i ms inputs hi _ ih =>
    have hsame : i.1 = id ↔ r.schematicID = schematicID := by
      rw [← Int32.toInt_inj, ← hi.schematicID, ← hid, Nat.cast_inj]
    rw [List.filter_cons, List.filter_cons]
    by_cases hr : r.schematicID = schematicID
    · rw [if_pos (decide_eq_true (hsame.mpr hr)), if_pos (decide_eq_true hr), List.map_cons,
        List.map_cons, List.map_cons, ih, hi.typeID, hi.quantity]
    · rw [if_neg (by simpa using mt hsame.mp hr), if_neg (by simpa using hr), ih]

/-- A schematic is made from the row that its output stands for. -/
theorem Loaded.madeFrom {rows : List SchematicRow} (h : Loaded rows s) (order : HashOrder)
    {o : Output} (ho : Stands r o) : MadeFrom rows r (makePlanetary order s.inputs o) := by
  have hle := ho.tier_le
  have htier : o.tier.toUInt8.toNat = o.tier.toNat := by
    rw [UInt64.toNat_toUInt8]
    omega
  refine ⟨ho.typeID, ho.quantity, ?_, ho.cycleTime, ?_, ?_⟩
  · rw [inputRows_eq, ← map_inputsOf h.inputs ho.schematicID]
    exact (order.equalRange_perm _ _).map _
  · rw [← ho.tier, ← htier]
    rfl
  · rw [UInt8.le_iff_toNat_le]
    exact htier.le.trans hle

/-- **Each schematic with an output row is there once**, with its first output
row and all its input rows. -/
theorem grouped_of_loadSchematics {order : HashOrder} {rows : List SchematicRow}
    {x : Schematics} (h : loadSchematics order rows = .ok x) : Grouped rows x.schematics := by
  obtain ⟨s, hs, h⟩ := bind_eq_ok h
  obtain rfl := Except.ok.inj h
  have hloaded := Loaded.of_foldlM hs
  obtain ⟨firsts, hstands, hfirsts⟩ := hloaded.output
  -- the output rows in the order of the iteration
  obtain ⟨firsts', hstands', hperm⟩ :=
    List.perm_comp_forall₂ (order.iterate_perm s.output.rows) hstands.flip
  refine ⟨firsts', ?_, fun r => ?_, ?_⟩
  · refine nodup_map_of_forall₂ (g := Output.schematicID) hstands'.flip ?_ ?_
    · intro r o r' o' ho ho' heq
      rw [← Nat.cast_inj (R := ℤ), ho.schematicID, ho'.schematicID, heq]
    · exact ((order.iterate_perm s.output.rows).map _).nodup_iff.mpr s.output.nodup
  · rw [hperm.mem_iff, hfirsts]
  · rw [List.forall₂_map_right_iff]
    exact hstands'.flip.imp fun r o ho => hloaded.madeFrom order ho

/-! ### Which rows are accepted -/

/-- Rows that are not accepted are answered with an exception. -/
theorem loadSchematics_eq_error {order : HashOrder} {rows : List SchematicRow} {e : Fault}
    (h : loadSchematics order rows = .error e) : ∃ what, e = .runtimeError what := by
  rcases bind_eq_error h with h | ⟨s, -, h⟩
  · obtain ⟨s, r, -, h⟩ := foldlM_eq_error h
    exact loadRow_eq_error h
  · exact absurd h (by simp [pure, Except.pure])

/-- Rows are accepted if and only if each of them is. -/
theorem succeeds_loadSchematics_iff {order : HashOrder} {rows : List SchematicRow} :
    Succeeds (loadSchematics order rows) ↔ ∀ r ∈ rows, Readable r := by
  constructor
  · rintro ⟨x, h⟩
    obtain ⟨s, hs, -⟩ := bind_eq_ok h
    exact (Loaded.of_foldlM hs).readable
  · intro h
    unfold loadSchematics
    cases hs : rows.foldlM loadRow ⟨.empty, [], ∅⟩ with
    | ok s => exact succeeds_ok _
    | error e =>
      obtain ⟨s, r, hr, hrow⟩ := foldlM_eq_error hs
      obtain ⟨s', hs'⟩ := succeeds_loadRow s (h r hr)
      exact absurd (hs'.symm.trans hrow) (by simp)

/-- The types of the schematics are among those that were counted. -/
theorem card_typeIDs_le {order : HashOrder} {rows : List SchematicRow} {x : Schematics}
    (h : loadSchematics order rows = .ok x) :
    (typeIDs x.schematics).toFinset.card ≤ x.typeCount := by
  obtain ⟨firsts, -, hfirsts, hmade⟩ := grouped_of_loadSchematics h
  obtain ⟨s, hs, h⟩ := bind_eq_ok h
  obtain rfl := Except.ok.inj h
  refine Finset.card_le_card fun id hid => ?_
  rw [(Loaded.of_foldlM hs).types]
  rw [List.mem_toFinset, typeIDs, List.mem_flatMap] at hid
  obtain ⟨p, hp, hid⟩ := hid
  obtain ⟨r, hr, hmade⟩ := exists_of_forall₂ hmade.flip hp
  rcases List.mem_cons.mp hid with rfl | hid
  · have hrow := ((hfirsts r).mp hr).mem
    exact ⟨r, (List.mem_filter.mp hrow).1, hmade.product.symm⟩
  · obtain ⟨m, hm, rfl⟩ := List.mem_map.mp hid
    have hmem := hmade.materials.mem_iff.mp (List.mem_map_of_mem hm)
    obtain ⟨i, hi, heq⟩ := List.mem_map.mp hmem
    exact ⟨i, (List.mem_filter.mp hi).1, (Prod.mk.inj heq).1⟩

end Industry
end EveIndustryPlanner
