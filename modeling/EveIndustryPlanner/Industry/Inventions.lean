import EveIndustryPlanner.Industry.Document
import EveIndustryPlanner.Lib.Collect

/-!
# Inventions

Each blueprint lists the products that can be invented from it and the skills
that this takes.  The list of skills is read once for a blueprint and moved into
the record of the first product; the records of the others are left with an
empty one.

## Main definitions

* `Research`, `Inventions` — the records.
* `addInventionData` — the records of one blueprint.
* `Inventions.filter` — drop what the character cannot do.
* `Run` — a sequence of calls, with what each of them added.
* `OnlyPossible` — what is left was added by the blueprints whose skills are all
  there, and nothing of theirs is missing.

## Main results

* `addInventionData_ok` — **what one call adds.**
* `Run.kept` — nothing that can be done is dropped.
* `onlyPossible_iff` — **only what can be done is left if and only if no
  blueprint adds two records without the skills.**
-/

namespace EveIndustryPlanner
namespace Industry

/-! ### Records -/

/-- A product that can be invented. -/
structure Research (K : Type) where
  blueprint : TypeID
  product : TypeID
  producedQuantity : ℕ
  materials : Materials
  skills : SkillRequirements
  /-- In seconds. -/
  duration : ℤ
  baseProbability : K

/-- What can be invented. -/
structure Inventions (K : Type) where
  t2Blueprints : List (Research K)
  t3Blueprints : List (Research K)

/-- Sleeper encryption methods. -/
def sleeperEncryption : ℕ := 3408

section Adding

variable {N K : Type} [Document N K] [Field K]

/-- Nothing added yet. -/
def Inventions.empty : Inventions K := ⟨[], []⟩

/-- Some more records, all of the technology that the encryption skill leads to. -/
def Inventions.append (s : Inventions K) (racialSkill : ℕ) (added : List (Research K)) :
    Inventions K :=
  if racialSkill ≠ sleeperEncryption then { s with t2Blueprints := s.t2Blueprints ++ added }
  else { s with t3Blueprints := s.t3Blueprints ++ added }

/-- The materials, one after the other; none at all if one has no price. -/
def readMaterials (avgPrices : Prices K) : List N → Materials → Except Failure (Option Materials)
  | [], materials => .ok (some materials)
  | m :: ms, materials => do
    let p ← readPair "quantity" m
    if (avgPrices p.1).isNone then return none
    else readMaterials avgPrices ms (materials ++ [p])

/-- The loop over the products of a blueprint.  The list of required skills is
moved into the record that is added, which leaves the next round an empty one. -/
def addProducts (invention : N) (blueprintId : TypeID) (avgPrices : Prices K) (racialSkill : ℕ)
    (probMod : K) : List N → SkillRequirements → Inventions K → Except Failure (Inventions K)
  | [], _, s => .ok s
  | productNode :: rest, required, s => do
    let nextRound := addProducts invention blueprintId avgPrices racialSkill probMod rest
    let productId ← asUnsigned (← field productNode "typeID")
    let productQuantity ← asUnsigned (← field productNode "quantity")
    let baseProbabilityNode ← field productNode "probability"
    if !isDefined baseProbabilityNode then nextRound required s
    else do
      let baseProbability ← asDouble baseProbabilityNode
      let materialsNode ← field invention "materials"
      if !isDefined materialsNode then nextRound required s
      else do
        let timeNode ← field invention "time"
        if !isDefined timeNode then nextRound required s
        else do
          let t ← asInt timeNode
          match ← readMaterials avgPrices (items materialsNode) [] with
          -- a missing price ends the whole call, not only this round
          | none => return s
          | some materials =>
            nextRound [] (s.append racialSkill
              [⟨blueprintId, productId, productQuantity, materials, required, t,
                baseProbability * probMod⟩])

/-- The encryption skills among some skills. -/
def Skills.racialSkills (skills : Skills K) (required : SkillRequirements) : List ℕ :=
  (required.map Prod.fst).filter skills.racialEncryptionSkills

/-- The science skills among some skills. -/
def Skills.scienceSkills (skills : Skills K) (required : SkillRequirements) : List ℕ :=
  (required.map Prod.fst).filter fun skill =>
    !skills.racialEncryptionSkills skill && skills.advancedScienceSkills skill

/-- The factor that three skills make of a probability. -/
def Skills.probMod (skills : Skills K) (science₀ science₁ racial : ℕ) : K :=
  1 + ((skills.getSkillLevel science₀ : K) + skills.getSkillLevel science₁) / 30 +
    (skills.getSkillLevel racial : K) / 40

/-- One call of `addInventionData`, for one skill sheet. -/
structure Call (N K : Type) where
  invention : N
  blueprintId : TypeID
  avgPrices : Prices K

/-- The records of one blueprint. -/
def addInventionData (skills : Skills K) (c : Call N K) (s : Inventions K) :
    Except Failure (Inventions K) :=
  if !isDefined c.invention then .ok s
  else do
    let productsNode ← field c.invention "products"
    if !isDefined productsNode then return s
    else do
      let skillsNode ← field c.invention "skills"
      if !isDefined skillsNode then return s
      else do
        let required ← makeRequiredSkills skillsNode
        match skills.scienceSkills required, skills.racialSkills required with
        | [science₀, science₁], [racial] =>
          addProducts c.invention c.blueprintId c.avgPrices racial
            (skills.probMod science₀ science₁ racial) (items productsNode) required s
        | _, _ => return s

/-- Drop what the character cannot do. -/
def Inventions.filter (skills : Skills K) (s : Inventions K) : Inventions K where
  t2Blueprints := filterBySkill skills Research.skills s.t2Blueprints
  t3Blueprints := filterBySkill skills Research.skills s.t3Blueprints

end Adding

/-! ### What a call lists -/

section Listed

variable {N K : Type} [Document N K]

/-- The products that have a probability. -/
def offers (nodes : List N) : List N := nodes.filter fun p => (field? p "probability").isSome

/-- All materials have a price. -/
def priced (avgPrices : Prices K) (ms : List N) : Bool :=
  ms.all fun m =>
    match readPair "quantity" m with
    | .ok p => (avgPrices p.1).isSome
    | .error _ => false

/-- The materials and the time are listed, and the materials have prices. -/
def Call.researchable (c : Call N K) : Bool :=
  match field? c.invention "materials", field? c.invention "time" with
  | some m, some _ => priced c.avgPrices (items m)
  | _, _ => false

/-- The skills a call lists. -/
def Call.required (c : Call N K) : SkillRequirements :=
  match field? c.invention "skills" with
  | some n =>
    match makeRequiredSkills n with
    | .ok required => required
    | .error _ => []
  | none => []

/-- The products of a call that get a record: those with a probability, if the
skills are two sciences and one encryption and the rest is listed and priced. -/
def Call.researched (skills : Skills K) (c : Call N K) : List N :=
  match field? c.invention "products" with
  | some n =>
    if isDefined c.invention ∧ (skills.scienceSkills c.required).length = 2 ∧
        (skills.racialSkills c.required).length = 1 ∧ c.researchable then offers (items n)
    else []
  | none => []

/-- The id of the product of a node, if it can be read. -/
def typeID? (node : N) : Option TypeID :=
  match (do asUnsigned (← field node "typeID")) with
  | .ok t => some t
  | .error _ => none

/-- The ids of the products a call lists. -/
def Call.products (c : Call N K) : List TypeID :=
  match field? c.invention "products" with
  | some n => (items n).filterMap typeID?
  | none => []

/-- All skills a call lists are at the required level. -/
def Call.Met (skills : Skills K) (c : Call N K) : Prop :=
  ∀ s ∈ c.required, s.2 ≤ skills.getSkillLevel s.1

instance (skills : Skills K) (c : Call N K) : Decidable (c.Met skills) :=
  inferInstanceAs (Decidable (∀ s ∈ c.required, s.2 ≤ skills.getSkillLevel s.1))

theorem anySkillTooLow_iff {skills : Skills K} {required : SkillRequirements} :
    skills.anySkillTooLow required = false ↔ ∀ s ∈ required, s.2 ≤ skills.getSkillLevel s.1 := by
  simp [Skills.anySkillTooLow]

end Listed

/-! ### One call -/

section Call

variable {N K : Type} [Document N K] [Field K]

/-- Of some records of a blueprint the first has the list of skills and the others
have none. -/
structure Handed (blueprintId : TypeID) (required : SkillRequirements)
    (added : List (Research K)) : Prop where
  blueprint : ∀ r ∈ added, r.blueprint = blueprintId
  head : ∀ r ∈ added.head?, r.skills = required
  tail : ∀ r ∈ added.tail, r.skills = []

omit [Field K] in
theorem Handed.nil {blueprintId : TypeID} {required : SkillRequirements} :
    Handed blueprintId required ([] : List (Research K)) := by
  refine ⟨?_, ?_, ?_⟩ <;> simp

omit [Field K] in
theorem Handed.cons {blueprintId : TypeID} {required : SkillRequirements} {r : Research K}
    {added : List (Research K)} (h : Handed blueprintId [] added)
    (hblueprint : r.blueprint = blueprintId) (hskills : r.skills = required) :
    Handed blueprintId required (r :: added) := by
  refine ⟨?_, by simpa using hskills, ?_⟩
  · intro r' hr'
    rcases List.mem_cons.mp hr' with rfl | hr'
    · exact hblueprint
    · exact h.blueprint r' hr'
  · intro r' hr'
    cases added with
    | nil => exact absurd hr' List.not_mem_nil
    | cons r'' added =>
      rcases List.mem_cons.mp hr' with rfl | hr'
      · exact h.head _ rfl
      · exact h.tail _ hr'

omit [Field K] in
/-- Materials are read exactly if all of them have prices. -/
theorem readMaterials_ok {avgPrices : Prices K} {ms : List N} {materials : Materials}
    {o : Option Materials} (h : readMaterials avgPrices ms materials = .ok o) :
    o.isSome = priced avgPrices ms := by
  induction ms generalizing materials with
  | nil =>
    obtain rfl := Except.ok.inj h
    rfl
  | cons m ms ih =>
    -- a material that cannot be read would have thrown
    obtain ⟨p, hp, h⟩ := bind_eq_ok h
    rw [priced, List.all_cons, hp]
    split at h
    · next hnone =>
      obtain rfl := Except.ok.inj h
      simp [Option.isNone_iff_eq_none.mp hnone]
    · next hsome =>
      rw [ih h, priced]
      simp [Option.isSome_iff_ne_none, Option.isNone_iff_eq_none] at hsome ⊢
      simp [hsome]

omit [Document N K] [Field K] in
theorem Inventions.append_nil (s : Inventions K) (racialSkill : ℕ) :
    s.append racialSkill [] = s := by
  simp [Inventions.append]

omit [Document N K] [Field K] in
theorem Inventions.append_append (s : Inventions K) (racialSkill : ℕ)
    (added added' : List (Research K)) :
    (s.append racialSkill added).append racialSkill added' =
      s.append racialSkill (added ++ added') := by
  unfold Inventions.append
  split <;> simp

/-- The loop adds a record for each product with a probability, or none. -/
theorem addProducts_ok {c : Call N K} {racialSkill : ℕ} {probMod : K} {nodes : List N}
    {required : SkillRequirements} {s s' : Inventions K}
    (h : addProducts c.invention c.blueprintId c.avgPrices racialSkill probMod nodes required s =
      .ok s') :
    ∃ added, s' = s.append racialSkill added ∧ Handed c.blueprintId required added ∧
      (added.map Research.product).Sublist (nodes.filterMap typeID?) ∧
        added.length = if c.researchable then (offers nodes).length else 0 := by
  -- Round by round, with the list of skills free: after the first record it is empty.
  induction nodes generalizing required s with
  | nil =>
    obtain rfl := Except.ok.inj h
    exact ⟨[], (s.append_nil _).symm, .nil, List.nil_sublist _, by simp [offers]⟩
  | cons p nodes ih =>
    unfold addProducts at h
    obtain ⟨typeNode, htypeNode, h⟩ := bind_eq_ok h
    obtain ⟨productId, hproductId, h⟩ := bind_eq_ok h
    have hids : (p :: nodes).filterMap typeID? = productId :: nodes.filterMap typeID? := by
      have hread : typeID? p = some productId := by
        rw [typeID?, htypeNode, ok_bind, hproductId]
      rw [List.filterMap_cons, hread]
    -- a round that adds nothing skips the id of its product
    have hskip : ∀ {added : List (Research K)},
        (added.map Research.product).Sublist (nodes.filterMap typeID?) →
          (added.map Research.product).Sublist ((p :: nodes).filterMap typeID?) := by
      intro added hadded
      rw [hids]
      exact hadded.trans (List.sublist_cons_self _ _)
    have hnothing : addProducts c.invention c.blueprintId c.avgPrices racialSkill probMod nodes
        required s = .ok s' → (if c.researchable then (offers (p :: nodes)).length else 0) =
          (if c.researchable then (offers nodes).length else 0) →
        ∃ added, s' = s.append racialSkill added ∧ Handed c.blueprintId required added ∧
          (added.map Research.product).Sublist ((p :: nodes).filterMap typeID?) ∧
            added.length = if c.researchable then (offers (p :: nodes)).length else 0 := by
      intro h hcount
      obtain ⟨added, hs', hhanded, hsub, hlength⟩ := ih h
      exact ⟨added, hs', hhanded, hskip hsub, hlength.trans hcount.symm⟩
    obtain ⟨_, -, h⟩ := bind_eq_ok h
    obtain ⟨productQuantity, -, h⟩ := bind_eq_ok h
    obtain ⟨probabilityNode, hprobability, h⟩ := bind_eq_ok h
    split at h
    · next hundef =>
      have hnone := field?_of_not_isDefined hprobability (by simpa using hundef)
      exact hnothing h (by simp [offers, hnone])
    · next hdef =>
      have hoffers : offers (p :: nodes) = p :: offers nodes := by
        have hsome := field?_of_isDefined hprobability (by simpa using hdef)
        simp [offers, hsome]
      obtain ⟨baseProbability, -, h⟩ := bind_eq_ok h
      obtain ⟨materialsNode, hmaterials, h⟩ := bind_eq_ok h
      split at h
      · next hundef =>
        -- nothing is ever added without materials
        have hnone := field?_of_not_isDefined hmaterials (by simpa using hundef)
        exact hnothing h (by simp [Call.researchable, hnone])
      · next hmdef =>
        have hmsome := field?_of_isDefined hmaterials (by simpa using hmdef)
        obtain ⟨timeNode, htime, h⟩ := bind_eq_ok h
        split at h
        · next hundef =>
          have hnone := field?_of_not_isDefined htime (by simpa using hundef)
          exact hnothing h (by simp [Call.researchable, hmsome, hnone])
        · next htdef =>
          have htsome := field?_of_isDefined htime (by simpa using htdef)
          obtain ⟨t, -, h⟩ := bind_eq_ok h
          obtain ⟨o, ho, h⟩ := bind_eq_ok h
          have hpriced := readMaterials_ok ho
          have hresearchable : c.researchable = o.isSome := by
            simp [Call.researchable, hmsome, htsome, hpriced]
          cases o with
          | none =>
            -- all rounds read the same materials, so without prices none adds anything
            obtain rfl := Except.ok.inj h
            exact ⟨[], (s.append_nil _).symm, .nil, List.nil_sublist _, by simp [hresearchable]⟩
          | some materials =>
            obtain ⟨added, hs', hhanded, hsub, hlength⟩ := ih h
            refine ⟨⟨c.blueprintId, productId, productQuantity, materials, required, t,
              baseProbability * probMod⟩ :: added, ?_, hhanded.cons rfl rfl, ?_, ?_⟩
            · rw [hs', Inventions.append_append]
              rfl
            · rw [hids]
              exact hsub.cons_cons productId
            · rw [hoffers, List.length_cons, hlength, hresearchable]
              simp

/-- **What one call adds**: a record for each product that gets one, all of one
technology and in order, and only the first with the list of skills. -/
theorem addInventionData_ok {skills : Skills K} {c : Call N K} {s s' : Inventions K}
    (h : addInventionData skills c s = .ok s') :
    ∃ racialSkill added, s' = s.append racialSkill added ∧
      Handed c.blueprintId c.required added ∧ (added.map Research.product).Sublist c.products ∧
        added.length = (c.researched skills).length := by
  -- every way out before the loop adds nothing
  have hnothing : s' = s → c.researched skills = [] → ∃ racialSkill added,
      s' = s.append racialSkill added ∧ Handed c.blueprintId c.required added ∧
        (added.map Research.product).Sublist c.products ∧
          added.length = (c.researched skills).length := by
    intro hs' hnone
    subst hs'
    exact ⟨0, [], (s'.append_nil _).symm, .nil, List.nil_sublist _, by rw [hnone]; rfl⟩
  unfold addInventionData at h
  split at h
  · next hundef =>
    apply hnothing (Except.ok.inj h).symm
    unfold Call.researched
    split
    · simp_all
    · rfl
  · next hinvention =>
    obtain ⟨productsNode, hproducts, h⟩ := bind_eq_ok h
    split at h
    · next hundef =>
      apply hnothing (Except.ok.inj h).symm
      rw [Call.researched, field?_of_not_isDefined hproducts (by simpa using hundef)]
    · next hpdef =>
      have hpsome := field?_of_isDefined hproducts (by simpa using hpdef)
      obtain ⟨skillsNode, hskills, h⟩ := bind_eq_ok h
      split at h
      · next hundef =>
        apply hnothing (Except.ok.inj h).symm
        have hnone := field?_of_not_isDefined hskills (by simpa using hundef)
        simp [Call.researched, hpsome, Call.required, hnone, Skills.scienceSkills]
      · next hsdef =>
        have hssome := field?_of_isDefined hskills (by simpa using hsdef)
        obtain ⟨required, hrequired, h⟩ := bind_eq_ok h
        have hlisted : c.required = required := by
          simp [Call.required, hssome, hrequired]
        rw [← hlisted] at h
        split at h
        · next science₀ science₁ racial hscience hracial =>
          obtain ⟨added, hs', hhanded, hsub, hlength⟩ := addProducts_ok h
          refine ⟨racial, added, hs', hhanded, by rw [Call.products, hpsome]; exact hsub, ?_⟩
          have hdef : isDefined c.invention = true := by simpa using hinvention
          rw [hlength]
          simp only [Call.researched, hpsome, hdef, hscience, hracial, List.length_cons,
            List.length_nil, true_and]
          split <;> simp
        · -- not two sciences and one encryption
          next hcounts =>
          apply hnothing (Except.ok.inj h).symm
          rw [Call.researched, hpsome]
          apply if_neg
          rintro ⟨-, hscience, hracial, -⟩
          obtain ⟨science₀, science₁, hscience⟩ := List.length_eq_two.mp hscience
          obtain ⟨racial, hracial⟩ := List.length_eq_one_iff.mp hracial
          exact hcounts science₀ science₁ racial hscience hracial

end Call

/-! ### Sequences of calls -/

section Runs

variable {N K : Type} [Document N K] [Field K]

/-- A call and what it added. -/
structure Added (N K : Type) where
  call : Call N K
  t2 : List (Research K)
  t3 : List (Research K)

/-- All records a call added. -/
def Added.records (e : Added N K) : List (Research K) := e.t2 ++ e.t3

/-- The calls so far with what each of them added, and what they lead to. -/
inductive Run (skills : Skills K) : List (Added N K) → Inventions K → Prop
  | nil : Run skills [] .empty
  | snoc {log : List (Added N K)} {s s' : Inventions K} {e : Added N K} (h : Run skills log s)
      (hcall : addInventionData skills e.call s = .ok s')
      (ht2 : s'.t2Blueprints = s.t2Blueprints ++ e.t2)
      (ht3 : s'.t3Blueprints = s.t3Blueprints ++ e.t3) : Run skills (log ++ [e]) s'

/-- What is left is what was added by the calls whose skills are all there. -/
structure OnlyPossible (skills : Skills K) (log : List (Added N K)) (s : Inventions K) : Prop where
  t2 : s.t2Blueprints = (log.filter fun e => e.call.Met skills).flatMap Added.t2
  t3 : s.t3Blueprints = (log.filter fun e => e.call.Met skills).flatMap Added.t3

variable {skills : Skills K}

/-- The records of a call, and where its list of skills went. -/
theorem Added.handed {e : Added N K} {s s' : Inventions K}
    (hcall : addInventionData skills e.call s = .ok s')
    (ht2 : s'.t2Blueprints = s.t2Blueprints ++ e.t2)
    (ht3 : s'.t3Blueprints = s.t3Blueprints ++ e.t3) :
    Handed e.call.blueprintId e.call.required e.records ∧
      e.records.length = (e.call.researched skills).length := by
  obtain ⟨racialSkill, added, rfl, hhanded, -, hlength⟩ := addInventionData_ok hcall
  -- all records of a call are of one technology
  have hrecords : e.records = added := by
    unfold Inventions.append at ht2 ht3
    split at ht2
    · next hracial =>
      rw [if_pos hracial] at ht3
      rw [Added.records, ← List.append_cancel_left ht2, List.self_eq_append_right.mp ht3,
        List.append_nil]
    · next hracial =>
      rw [if_neg hracial] at ht3
      rw [Added.records, ← List.append_cancel_left ht3, List.self_eq_append_right.mp ht2,
        List.nil_append]
  exact ⟨hrecords ▸ hhanded, hrecords ▸ hlength⟩

/-- The records are those of the calls, one call after the other. -/
theorem Run.blueprints {log : List (Added N K)} {s : Inventions K} (h : Run skills log s) :
    s.t2Blueprints = log.flatMap Added.t2 ∧ s.t3Blueprints = log.flatMap Added.t3 ∧
      ∀ e ∈ log, Handed e.call.blueprintId e.call.required e.records ∧
        e.records.length = (e.call.researched skills).length := by
  induction h with
  | nil => exact ⟨rfl, rfl, fun e he => absurd he List.not_mem_nil⟩
  | @snoc log s s' e _ hcall ht2 ht3 ih =>
    obtain ⟨ih2, ih3, ihhanded⟩ := ih
    refine ⟨?_, ?_, ?_⟩
    · rw [ht2, ih2, List.flatMap_append, List.flatMap_singleton]
    · rw [ht3, ih3, List.flatMap_append, List.flatMap_singleton]
    · intro e' he'
      rcases List.mem_append.mp he' with he' | he'
      · exact ihhanded e' he'
      · obtain rfl := List.mem_singleton.mp he'
        exact Added.handed hcall ht2 ht3

omit [Field K] in
/-- Nothing of a call whose skills are there is dropped. -/
theorem Handed.keeps_of_met {e : Added N K}
    (h : Handed e.call.blueprintId e.call.required e.records) (hmet : e.call.Met skills) :
    ∀ r ∈ e.records, skills.anySkillTooLow r.skills = false := by
  intro r hr
  cases hrecords : e.records with
  | nil => exact absurd (hrecords ▸ hr) List.not_mem_nil
  | cons first rest =>
    rw [hrecords] at hr h
    rcases List.mem_cons.mp hr with rfl | hr
    · rw [h.head r rfl]
      exact anySkillTooLow_iff.mpr hmet
    · rw [h.tail r hr]
      rfl

omit [Field K] in
/-- Of a call whose skills are missing only the first record is dropped. -/
theorem Handed.filter_of_not_met {e : Added N K}
    (h : Handed e.call.blueprintId e.call.required e.records) (hmet : ¬ e.call.Met skills) :
    filterBySkill skills Research.skills e.records = e.records.tail := by
  have hlow : skills.anySkillTooLow e.call.required = true := by
    rw [← Bool.not_eq_false]
    intro hfalse
    exact hmet (anySkillTooLow_iff.mp hfalse)
  cases hrecords : e.records with
  | nil => rfl
  | cons first rest =>
    rw [hrecords] at h
    have hrest : rest.filter (fun r => !skills.anySkillTooLow r.skills) = rest := by
      rw [List.filter_eq_self]
      intro r hr
      rw [h.tail r hr]
      rfl
    rw [filterBySkill, List.filter_cons, h.head first rfl, hlow, hrest]
    rfl

omit [Document N K] [Field K] in
theorem filterBySkill_flatMap (f : Added N K → List (Research K)) (log : List (Added N K)) :
    filterBySkill skills Research.skills (log.flatMap f) =
      log.flatMap fun e => filterBySkill skills Research.skills (f e) := by
  simp [filterBySkill, List.filter_flatMap]

omit [Field K] in
/-- What the calls whose skills are there added of one technology. -/
theorem flatMap_filter_met (f : Added N K → List (Research K)) (log : List (Added N K)) :
    (log.filter fun e => e.call.Met skills).flatMap f =
      log.flatMap fun e => if e.call.Met skills then f e else [] := by
  induction log with
  | nil => rfl
  | cons e log ih =>
    by_cases hmet : e.call.Met skills
    · simp [hmet, ih]
    · simp [hmet, ih]

omit [Field K] in
/-- Of each call at least what can be done is left. -/
theorem Handed.possible_sublist {e : Added N K}
    (h : Handed e.call.blueprintId e.call.required e.records) {records : List (Research K)}
    (hsub : ∀ r ∈ records, r ∈ e.records) :
    (if e.call.Met skills then records else []).Sublist
      (filterBySkill skills Research.skills records) := by
  split
  · next hmet =>
    have hall : filterBySkill skills Research.skills records = records := by
      rw [filterBySkill, List.filter_eq_self]
      intro r hr
      rw [h.keeps_of_met hmet r (hsub r hr)]
      rfl
    rw [hall]
  · exact List.nil_sublist _

omit [Field K] in
/-- Of a call only what can be done is left, unless it adds two records without
the skills. -/
theorem Handed.filter_eq_iff {e : Added N K}
    (h : Handed e.call.blueprintId e.call.required e.records) :
    (filterBySkill skills Research.skills e.t2 = (if e.call.Met skills then e.t2 else []) ∧
      filterBySkill skills Research.skills e.t3 = (if e.call.Met skills then e.t3 else [])) ↔
      (2 ≤ e.records.length → e.call.Met skills) := by
  by_cases hmet : e.call.Met skills
  · rw [if_pos hmet, if_pos hmet]
    have hkeeps := h.keeps_of_met hmet
    refine ⟨fun _ _ => hmet, ?_⟩
    intro _
    constructor
    · rw [filterBySkill, List.filter_eq_self]
      intro r hr
      rw [hkeeps r (List.mem_append_left _ hr)]
      rfl
    · rw [filterBySkill, List.filter_eq_self]
      intro r hr
      rw [hkeeps r (List.mem_append_right _ hr)]
      rfl
  · -- all but the first record are left, so there must not be a second one
    rw [if_neg hmet, if_neg hmet, ← List.append_eq_nil_iff]
    have htail : filterBySkill skills Research.skills e.t2 ++
        filterBySkill skills Research.skills e.t3 = e.records.tail := by
      rw [← h.filter_of_not_met hmet, Added.records, filterBySkill, filterBySkill, filterBySkill,
        List.filter_append]
    rw [htail, ← List.length_eq_zero_iff, List.length_tail]
    constructor
    · intro hlength htwo
      omega
    · intro himp
      have : ¬ 2 ≤ e.records.length := by
        intro htwo
        exact hmet (himp htwo)
      omega

/-- Nothing that can be done is dropped. -/
theorem Run.kept {log : List (Added N K)} {s : Inventions K} (h : Run skills log s) :
    ((log.filter fun e => e.call.Met skills).flatMap Added.t2).Sublist
        (s.filter skills).t2Blueprints ∧
      ((log.filter fun e => e.call.Met skills).flatMap Added.t3).Sublist
        (s.filter skills).t3Blueprints := by
  obtain ⟨h2, h3, hlog⟩ := h.blueprints
  rw [Inventions.filter, h2, h3, filterBySkill_flatMap, filterBySkill_flatMap, flatMap_filter_met,
    flatMap_filter_met]
  constructor
  · apply List.Sublist.flatMap_right log
    intro e he
    exact (hlog e he).1.possible_sublist fun r hr => List.mem_append_left _ hr
  · apply List.Sublist.flatMap_right log
    intro e he
    exact (hlog e he).1.possible_sublist fun r hr => List.mem_append_right _ hr

/-- **Only what can be done is left if and only if no blueprint adds two records
without the skills.** -/
theorem onlyPossible_iff {log : List (Added N K)} {s : Inventions K} (h : Run skills log s) :
    OnlyPossible skills log (s.filter skills) ↔
      ∀ e ∈ log, 2 ≤ (e.call.researched skills).length → e.call.Met skills := by
  obtain ⟨h2, h3, hlog⟩ := h.blueprints
  have hsub2 : ∀ e ∈ log, (if e.call.Met skills then e.t2 else []).Sublist
      (filterBySkill skills Research.skills e.t2) := by
    intro e he
    exact (hlog e he).1.possible_sublist fun r hr => List.mem_append_left _ hr
  have hsub3 : ∀ e ∈ log, (if e.call.Met skills then e.t3 else []).Sublist
      (filterBySkill skills Research.skills e.t3) := by
    intro e he
    exact (hlog e he).1.possible_sublist fun r hr => List.mem_append_right _ hr
  -- at least what can be done is left of every call, so the whole agrees call by call
  have hparts : OnlyPossible skills log (s.filter skills) ↔
      (∀ e ∈ log, filterBySkill skills Research.skills e.t2 =
        if e.call.Met skills then e.t2 else []) ∧
      ∀ e ∈ log, filterBySkill skills Research.skills e.t3 =
        if e.call.Met skills then e.t3 else [] := by
    rw [← flatMap_eq_iff log hsub2, ← flatMap_eq_iff log hsub3, ← filterBySkill_flatMap,
      ← filterBySkill_flatMap, ← flatMap_filter_met, ← flatMap_filter_met, ← h2, ← h3]
    exact ⟨fun hp => ⟨hp.t2, hp.t3⟩, fun hp => ⟨hp.1, hp.2⟩⟩
  rw [hparts, ← forall₂_and]
  refine forall₂_congr fun e he => ?_
  obtain ⟨hhanded, hlength⟩ := hlog e he
  rw [hhanded.filter_eq_iff, hlength]

/-! ### A blueprint with two products -/

/-- A skill sheet without any levels; skill `1` is an encryption, `2` and `3` are sciences. -/
def noLevels : Skills ℚ where
  overrideSkills := false
  manufacturingTimeReduction := 1
  copyTimeReduction := 1
  researchTimeReduction := 1
  cpu := 0
  power := 0
  racialEncryptionSkills := (· == 1)
  advancedScienceSkills s := s == 2 || s == 3
  manufacturingTimeModifierSkills _ := false
  skillLevels _ := none

/-- A blueprint without materials whose skills are needed at level one. -/
def sampleInvention (products : List Doc) : Doc :=
  .map [("products", .sequence products),
    ("skills", .sequence ([1, 2, 3].map fun s => .map [("typeID", .number s), ("level", .number 1)])),
    ("materials", .sequence []), ("time", .number 60)]

/-- A product with a probability of one. -/
def sampleOffer (productId : ℚ) : Doc :=
  .map [("typeID", .number productId), ("quantity", .number 1), ("probability", .number 1)]

/-- One call over a blueprint with these products. -/
def callOver (products : List Doc) : Call Doc ℚ := ⟨sampleInvention products, 10, fun _ => none⟩

/-- The record of a product of `callOver`. -/
def sampleRecord (product : TypeID) (required : SkillRequirements) : Research ℚ :=
  ⟨10, product, 1, [], required, 60, 1 * noLevels.probMod 2 3 1⟩

/-- A single product of a blueprint whose skills are missing is dropped. -/
theorem onlyPossible_iff_single : ∃ log s, Run noLevels log s ∧
    log.map Added.call = [callOver [sampleOffer 20]] ∧
      OnlyPossible noLevels log (s.filter noLevels) := by
  have hrun : Run noLevels
      [⟨callOver [sampleOffer 20], [sampleRecord 20 [(1, 1), (2, 1), (3, 1)]], []⟩]
      ⟨[sampleRecord 20 [(1, 1), (2, 1), (3, 1)]], []⟩ :=
    Run.nil.snoc rfl rfl rfl
  refine ⟨_, _, hrun, rfl, (onlyPossible_iff hrun).mpr ?_⟩
  intro e he htwo
  obtain rfl := List.mem_singleton.mp he
  exact absurd htwo (by decide)

/-- The second product of a blueprint whose skills are missing is left. -/
theorem filter_keeps_second : ∃ log s, Run noLevels log s ∧
    log.map Added.call = [callOver [sampleOffer 20, sampleOffer 21]] ∧
      (s.filter noLevels).t2Blueprints = [sampleRecord 21 []] ∧
        ¬ OnlyPossible noLevels log (s.filter noLevels) := by
  have hrun : Run noLevels
      [⟨callOver [sampleOffer 20, sampleOffer 21],
        [sampleRecord 20 [(1, 1), (2, 1), (3, 1)], sampleRecord 21 []], []⟩]
      ⟨[sampleRecord 20 [(1, 1), (2, 1), (3, 1)], sampleRecord 21 []], []⟩ :=
    Run.nil.snoc rfl rfl rfl
  refine ⟨_, _, hrun, rfl, rfl, ?_⟩
  intro h
  have hleft : [sampleRecord 21 []] = [] := h.t2
  exact absurd hleft (List.cons_ne_nil _ _)

end Runs

end Industry
end EveIndustryPlanner
