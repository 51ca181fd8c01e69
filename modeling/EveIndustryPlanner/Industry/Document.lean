import EveIndustryPlanner.Fault

/-!
# The documents and tables that jobs are made from

Blueprints are read from a tree of nodes by a reader whose inside is left open:
`Document` has the operations that are used of it.  Next to the blueprints there
are the names, the prices and the skills of the character.

## Main definitions

* `Failure` — the exceptions on the way from blueprints to jobs.
* `Document` — what can be asked of a node.
* `Names`, `Prices`, `Skills` — the tables.
* `filterBySkill` — the entries whose required skills are there.
* `Doc` — nodes whose scalars are numbers.
-/

namespace EveIndustryPlanner
namespace Industry

/-- The id of a type of item. -/
abbrev TypeID := ℕ

/-- What the reader of documents throws. -/
inductive YamlException where
  /-- A node that is not there was used. -/
  | invalidNode
  /-- A scalar was asked for one of its fields. -/
  | badSubscript
  /-- A node is not of the type it was read as. -/
  | badConversion
  deriving DecidableEq, Repr

/-- Why jobs were not made. -/
inductive Failure where
  | yaml (e : YamlException)
  /-- `names.at` found nothing. -/
  | noName (t : TypeID)
  /-- `values.at` found nothing. -/
  | noJobValue (t : TypeID)
  | inconsistentItem
  | noBlueprint (t : TypeID)
  | noProduct (t : TypeID)
  deriving DecidableEq, Repr

/-- What can be asked of the nodes of a document, with numbers read into `K`. -/
class Document (N : Type) (K : outParam Type) where
  isDefined : N → Bool
  /-- `node[key]`. -/
  field : N → String → Except Failure N
  /-- `node[0]`. -/
  first : N → Except Failure N
  /-- The nodes a loop over the node visits. -/
  items : N → List N
  size : N → ℕ
  asUnsigned : N → Except Failure ℕ
  asInt : N → Except Failure ℤ
  asDouble : N → Except Failure K

export Document (isDefined field first items size asUnsigned asInt asDouble)

/-- The names of the types. -/
abbrev Names := TypeID → Option String

/-- `names.at`. -/
def Names.getName (names : Names) (t : TypeID) : Except Failure String :=
  match names t with
  | some name => .ok name
  | none => .error (.noName t)

/-- A table of prices. -/
abbrev Prices (K : Type) := TypeID → Option K

/-- Types and amounts. -/
abbrev Materials := List (TypeID × ℕ)

/-- Skills and the levels that are required of them. -/
abbrev SkillRequirements := List (ℕ × ℕ)

/-- The skills of a character. -/
structure Skills (K : Type) where
  overrideSkills : Bool
  manufacturingTimeReduction : K
  copyTimeReduction : K
  researchTimeReduction : K
  cpu : K
  power : K
  racialEncryptionSkills : ℕ → Bool
  advancedScienceSkills : ℕ → Bool
  manufacturingTimeModifierSkills : ℕ → Bool
  skillLevels : ℕ → Option ℕ

section Skills

variable {K : Type} (skills : Skills K)

/-- The level of a skill. -/
def Skills.getSkillLevel (skill : ℕ) : ℕ :=
  if skills.overrideSkills then 5 else (skills.skillLevels skill).getD 0

/-- Some required skill is too low. -/
def Skills.anySkillTooLow (required : SkillRequirements) : Bool :=
  required.any fun s => skills.getSkillLevel s.1 < s.2

/-- The entries none of whose required skills is too low. -/
def filterBySkill {T : Type} (getSkills : T → SkillRequirements) (jobs : List T) : List T :=
  jobs.filter fun p => !skills.anySkillTooLow (getSkills p)

end Skills

section Reading

variable {N K : Type} [Document N K]

/-- An id and a number of one node: a skill and its level, a material and its amount. -/
def readPair (key : String) (node : N) : Except Failure (ℕ × ℕ) := do
  let typeID ← asUnsigned (← field node "typeID")
  let n ← asUnsigned (← field node key)
  return (typeID, n)

/-- The skills a node lists. -/
def makeRequiredSkills (skillsNode : N) : Except Failure SkillRequirements :=
  (items skillsNode).mapM (readPair "level")

/-- The field of a node, if it can be asked for and is there. -/
def field? (node : N) (key : String) : Option N :=
  match field node key with
  | .ok n => if isDefined n then some n else none
  | .error _ => none

theorem field?_of_isDefined {node n : N} {key : String} (h : field node key = .ok n)
    (hn : isDefined n = true) : field? node key = some n := by
  simp [field?, h, hn]

theorem field?_of_not_isDefined {node n : N} {key : String} (h : field node key = .ok n)
    (hn : isDefined n ≠ true) : field? node key = none := by
  simp [field?, h, hn]

end Reading

/-! ### Documents of numbers -/

/-- Nodes whose scalars are numbers. -/
inductive Doc where
  | undefined
  | number (q : ℚ)
  | sequence (l : List Doc)
  | map (l : List (String × Doc))

namespace Doc

/-- `node[key]`. -/
def field : Doc → String → Except Failure Doc
  -- a node that is not there can be handed on, but not used
  | undefined, _ => .error (.yaml .invalidNode)
  | number _, _ => .error (.yaml .badSubscript)
  | sequence _, _ => .ok undefined
  | map l, key => .ok ((l.lookup key).getD undefined)

/-- `node[0]`. -/
def first : Doc → Except Failure Doc
  | undefined => .error (.yaml .invalidNode)
  | number _ => .error (.yaml .badSubscript)
  | sequence l => .ok (l.headD undefined)
  | map _ => .ok undefined

/-- The nodes of a sequence. -/
def items : Doc → List Doc
  | sequence l => l
  | _ => []

/-- The number of nodes below a node. -/
def size : Doc → ℕ
  | sequence l => l.length
  | map l => l.length
  | _ => 0

/-- The number in a scalar. -/
def asNumber : Doc → Except Failure ℚ
  | number q => .ok q
  | undefined => .error (.yaml .invalidNode)
  | _ => .error (.yaml .badConversion)

instance : Document Doc ℚ where
  isDefined
    | undefined => false
    | _ => true
  field := field
  first := first
  items := items
  size := size
  asUnsigned d := do
    let q ← asNumber d
    if q.den = 1 ∧ 0 ≤ q.num ∧ q.num < 2 ^ 32 then return q.num.toNat
    else throw (.yaml .badConversion)
  asInt d := do
    let q ← asNumber d
    if q.den = 1 ∧ -2 ^ 31 ≤ q.num ∧ q.num < 2 ^ 31 then return q.num
    else throw (.yaml .badConversion)
  asDouble := asNumber

end Doc

end Industry
end EveIndustryPlanner
