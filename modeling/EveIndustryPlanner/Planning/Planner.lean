import EveIndustryPlanner.Fault

/-!
# The planner

Jobs become columns of a linear program, resources become rows.  A resource
gets its row when the first job that mentions it is added; row `0` is the
buy-in.  Numbers are those of an ordered field, so that the program can be run
on rationals and reasoned about over the reals.

## Main definitions

* `Resources`, `Job` — what the planner is given.
* `Planner`, `Planner.addJob`, `Planner.addJobs` — the program as it grows.
* `LP`, `LP.Feasible`, `LP.objective` — a linear program, to be maximised.
* `Planner.lp`, `Planner.surplusLP` — the program handed to the solver, and the
  one in which a surplus of any resource may be left over.

## Main results

* `Planner.WellFormed.addJobs` — **every column is that of its job, and no two
  resources share a row.**
* `Planner.WellFormed.addJobs_not_already` — jobs of different names are not refused for
  their names.
* `Planner.coeff_zero`, `Planner.coeff_rowID` — what a job adds to each row.
-/

namespace EveIndustryPlanner
namespace Planning

/-- What is fixed when a resource is made; `R` stands for the pointers. -/
structure Resources (R K : Type) where
  name : R → String
  /-- Minus the stock. -/
  lowerLimit : R → K

/-- Amounts of resources. -/
abbrev Materials (R K : Type) := List (R × K)

/-- A job. -/
structure Job (R K : Type) where
  inputs : Materials R K
  outputs : Materials R K
  /-- What one run earns. -/
  cost : K
  name : String
  lowerLimit : K
  upperLimit : K

/-- A column of a linear program. -/
structure Col (K : Type) where
  obj : K
  lower : K
  entries : List (ℕ × K)
  upper : K

/-- A linear program: columns, and rows with a range each. -/
structure LP (J K : Type) where
  col : J → Col K
  ranges : List (ℕ × K × K)

/-- The planner. -/
structure Planner (R K : Type) where
  colNames : List String
  rowNames : List String
  /-- The resources that have a row. -/
  resources : List R
  rowID : R → ℕ
  jobs : List (Job R K)
  cols : List (Col K)

/-! ### Linear programs -/

section Programs

variable {K : Type} [Field K] [LinearOrder K]

/-- The number that stands for infinity. -/
def infinity : K := 10 ^ 100

/-- The factor of a column in a row. -/
def Col.coeff (c : Col K) (row : ℕ) : K := ((c.entries.filter (·.1 = row)).map Prod.snd).sum

/-- A value is not above a bound that may be infinite. -/
def Below (v bound : K) : Prop := infinity ≤ bound ∨ v ≤ bound

/-- A value is not below a bound that may be infinite. -/
def Above (v bound : K) : Prop := bound ≤ -infinity ∨ bound ≤ v

instance (v bound : K) : Decidable (Below v bound) := inferInstanceAs (Decidable (_ ∨ _))

instance (v bound : K) : Decidable (Above v bound) := inferInstanceAs (Decidable (_ ∨ _))

namespace LP

variable {J : Type} [Fintype J] (lp : LP J K) (x : J → K)

/-- The value of a row. -/
def activity (row : ℕ) : K := ∑ j, (lp.col j).coeff row * x j

/-- The value to be maximised. -/
def objective : K := ∑ j, (lp.col j).obj * x j

/-- Columns within their limits and rows within their ranges. -/
structure Feasible : Prop where
  lower : ∀ j, Above (x j) (lp.col j).lower
  upper : ∀ j, Below (x j) (lp.col j).upper
  range : ∀ r ∈ lp.ranges, Above (lp.activity x r.1) r.2.1 ∧ Below (lp.activity x r.1) r.2.2

end LP

end Programs

namespace Planner

/-! ### Adding jobs -/

section Adding

variable {R K : Type} [DecidableEq R] [Field K] [LinearOrder K] (res : Resources R K)

/-- The planner of no jobs: row `0` is the buy-in. -/
def empty : Planner R K where
  colNames := []
  rowNames := ["BuyIn"]
  resources := []
  rowID _ := 0
  jobs := []
  cols := []

/-- Give a resource a row.  The name set leaves the key of a name it already
has invalid, and the entry that is written next has no row to go to. -/
def ensureResource (p : Planner R K) (resource : R) : Except Fault (Planner R K) :=
  if resource ∈ p.resources then .ok p
  else if res.name resource ∈ p.rowNames then .error .undefined
  else .ok { p with
    rowNames := p.rowNames ++ [res.name resource]
    rowID := Function.update p.rowID resource p.rowNames.length
    resources := p.resources ++ [resource] }

/-- One entry of a column. -/
def addEntry (s : Planner R K × List (ℕ × K)) (o : R × K) :
    Except Fault (Planner R K × List (ℕ × K)) := do
  let p ← ensureResource res s.1 o.1
  return (p, s.2 ++ [(p.rowID o.1, o.2)])

/-- The entry of a job in the buy-in row. -/
def buyInEntry (job : Job R K) : List (ℕ × K) := if job.cost < 0 then [(0, -job.cost)] else []

/-- The outputs of a job as they enter its column, then its inputs. -/
def materials (job : Job R K) : Materials R K :=
  job.outputs.map (fun o => (o.1, -o.2)) ++ job.inputs

/-- Add one job. -/
def addJob (p : Planner R K) (job : Job R K) : Except Fault (Planner R K) :=
  if job.name ∈ p.colNames then
    .error (.runtimeError ("Already have job '" ++ job.name ++ "'"))
  else do
    let p := { p with colNames := p.colNames ++ [job.name] }
    let (p, col) ← (materials job).foldlM (addEntry res) (p, buyInEntry job)
    let p := { p with
      cols := p.cols ++ [⟨job.cost, job.lowerLimit, col, job.upperLimit⟩]
      jobs := p.jobs ++ [job] }
    if p.cols.length ≠ p.colNames.length then
      throw (.runtimeError "column counts inconsistent")
    return p

/-- Add some jobs, one after the other. -/
def addJobs (p : Planner R K) (jobs : List (Job R K)) : Except Fault (Planner R K) :=
  jobs.foldlM (addJob res) p

/-! ### The program handed to the solver -/

/-- The range of a resource: an equation where there is no stock. -/
def range (resource : R) : K × K :=
  (if -res.lowerLimit resource = 0 then -res.lowerLimit resource else -infinity,
    -res.lowerLimit resource)

/-- The range of a resource whose surplus may be left over. -/
def surplusRange (resource : R) : K × K := (-infinity, -res.lowerLimit resource)

/-- The linear program over given ranges of the resources. -/
def program (p : Planner R K) (buyIn : K) (range : R → K × K) : LP (Fin p.cols.length) K where
  col := p.cols.get
  ranges := (0, -infinity, buyIn) :: p.resources.map fun resource =>
    (p.rowID resource, range resource)

/-- The linear program of `solve`. -/
def lp (p : Planner R K) (buyIn : K) : LP (Fin p.cols.length) K := p.program buyIn (range res)

/-- The same with every resource row bounded by the stock alone. -/
def surplusLP (p : Planner R K) (buyIn : K) : LP (Fin p.cols.length) K :=
  p.program buyIn (surplusRange res)

end Adding

/-! ### Columns and jobs -/

section Columns

variable {R K : Type}

/-- `p'` is `p` with more rows. -/
structure Grows (p p' : Planner R K) : Prop where
  colNames : p'.colNames = p.colNames
  jobs : p'.jobs = p.jobs
  cols : p'.cols = p.cols
  resources : ∀ r ∈ p.resources, r ∈ p'.resources ∧ p'.rowID r = p.rowID r

theorem Grows.refl (p : Planner R K) : Grows p p := ⟨rfl, rfl, rfl, fun _ hr => ⟨hr, rfl⟩⟩

theorem Grows.trans {p p' p'' : Planner R K} (h : Grows p p') (h' : Grows p' p'') : Grows p p'' where
  colNames := h'.colNames.trans h.colNames
  jobs := h'.jobs.trans h.jobs
  cols := h'.cols.trans h.cols
  resources r hr :=
    ⟨(h'.resources r (h.resources r hr).1).1,
      (h'.resources r (h.resources r hr).1).2.trans (h.resources r hr).2⟩

variable [Field K] [LinearOrder K]

/-- The column of a job under a numbering of the rows. -/
def column (rowID : R → ℕ) (job : Job R K) : Col K where
  obj := job.cost
  lower := job.lowerLimit
  entries := buyInEntry job ++ (materials job).map fun o => (rowID o.1, o.2)
  upper := job.upperLimit

/-- No two resources share a row, none has the buy-in row, and every column is
that of its job. -/
structure WellFormed (p : Planner R K) : Prop where
  pos : ∀ r ∈ p.resources, 0 < p.rowID r
  lt : ∀ r ∈ p.resources, p.rowID r < p.rowNames.length
  injective : ∀ r ∈ p.resources, ∀ r' ∈ p.resources, p.rowID r = p.rowID r' → r = r'
  names : p.rowNames ≠ []
  cols : p.cols = p.jobs.map (column p.rowID)
  known : ∀ job ∈ p.jobs, ∀ o ∈ materials job, o.1 ∈ p.resources

theorem wellFormed_empty : WellFormed (empty : Planner R K) where
  pos _ h := absurd h List.not_mem_nil
  lt _ h := absurd h List.not_mem_nil
  injective _ h := absurd h List.not_mem_nil
  names := by simp [empty]
  cols := rfl
  known _ h := absurd h List.not_mem_nil

/-- A column depends only on the rows of the resources it mentions. -/
theorem column_congr {rowID rowID' : R → ℕ} {job : Job R K}
    (h : ∀ o ∈ materials job, rowID o.1 = rowID' o.1) : column rowID job = column rowID' job := by
  have hmap : (materials job).map (fun o => (rowID o.1, o.2)) =
      (materials job).map fun o => (rowID' o.1, o.2) :=
    List.map_congr_left fun o ho => by rw [h o ho]
  rw [column, column, hmap]

variable [DecidableEq R] {res : Resources R K}

/-- A resource gets a row of its own. -/
theorem WellFormed.ensureResource {p p' : Planner R K} (h : WellFormed p) {r : R}
    (hok : ensureResource res p r = .ok p') :
    WellFormed p' ∧ Grows p p' ∧ r ∈ p'.resources := by
  unfold Planner.ensureResource at hok
  split at hok
  · next hr =>
    obtain rfl := Except.ok.inj hok
    exact ⟨h, .refl p, hr⟩
  · next hr =>
    split at hok
    · exact absurd hok (by simp)
    · next hname =>
      obtain rfl := Except.ok.inj hok
      have hold : ∀ s ∈ p.resources,
          Function.update p.rowID r p.rowNames.length s = p.rowID s := by
        intro s hs
        exact Function.update_of_ne (fun e : s = r => hr (e ▸ hs)) _ _
      have hcases : ∀ s ∈ p.resources ++ [r], s ∈ p.resources ∨ s = r := by
        intro s hs
        rcases List.mem_append.mp hs with hs | hs
        · exact Or.inl hs
        · exact Or.inr (List.mem_singleton.mp hs)
      have hrows := List.length_pos_iff.mpr h.names
      -- `r` has the row after the last one, all others keep theirs
      refine ⟨⟨?_, ?_, ?_, ?_, ?_, ?_⟩, ⟨rfl, rfl, rfl, ?_⟩, ?_⟩
      · intro s hs
        show 0 < Function.update p.rowID r p.rowNames.length s
        rcases hcases s hs with hs | rfl
        · rw [hold s hs]
          exact h.pos s hs
        · rw [Function.update_self]
          exact hrows
      · intro s hs
        show Function.update p.rowID r p.rowNames.length s < (p.rowNames ++ [_]).length
        rw [List.length_append, List.length_singleton]
        rcases hcases s hs with hs | rfl
        · rw [hold s hs]
          exact (h.lt s hs).trans (Nat.lt_succ_self _)
        · rw [Function.update_self]
          exact Nat.lt_succ_self _
      · intro s hs s' hs' heq
        have heq : Function.update p.rowID r p.rowNames.length s =
            Function.update p.rowID r p.rowNames.length s' := heq
        -- the new row is past all old ones
        rcases hcases s hs with hs | hs <;> rcases hcases s' hs' with hs' | hs'
        · rw [hold s hs, hold s' hs'] at heq
          exact h.injective s hs s' hs' heq
        · rw [hold s hs, hs', Function.update_self] at heq
          exact absurd heq (ne_of_lt (h.lt s hs))
        · rw [hs, hold s' hs', Function.update_self] at heq
          exact absurd heq.symm (ne_of_lt (h.lt s' hs'))
        · rw [hs, hs']
      · show p.rowNames ++ [_] ≠ []
        simp
      · -- no job so far mentions `r`, so their columns are unchanged
        show p.cols = p.jobs.map (column (Function.update p.rowID r p.rowNames.length))
        rw [h.cols]
        refine List.map_congr_left fun job hjob => column_congr fun o ho => ?_
        exact (hold o.1 (h.known job hjob o ho)).symm
      · intro job hjob o ho
        exact List.mem_append_left _ (h.known job hjob o ho)
      · intro s hs
        exact ⟨List.mem_append_left _ hs, hold s hs⟩
      · exact List.mem_append_right _ (List.mem_singleton_self r)

/-- The entries of a column, one after the other. -/
theorem WellFormed.addEntries {p p' : Planner R K} (h : WellFormed p) {ms : Materials R K}
    {entries entries' : List (ℕ × K)}
    (hok : ms.foldlM (addEntry res) (p, entries) = .ok (p', entries')) :
    WellFormed p' ∧ Grows p p' ∧ (∀ o ∈ ms, o.1 ∈ p'.resources) ∧
      entries' = entries ++ ms.map fun o => (p'.rowID o.1, o.2) := by
  -- The rows an entry was given are not taken back by the entries after it.
  induction ms generalizing p entries with
  | nil =>
    obtain ⟨rfl, rfl⟩ := Prod.mk.injEq .. ▸ Except.ok.inj hok
    exact ⟨h, .refl p, by simp, by simp⟩
  | cons o ms ih =>
    rw [List.foldlM_cons] at hok
    obtain ⟨⟨p₁, entries₁⟩, hentry, hok⟩ := bind_eq_ok hok
    obtain ⟨p₂, hensure, hentry⟩ := bind_eq_ok hentry
    obtain ⟨rfl, rfl⟩ := Prod.mk.injEq .. ▸ Except.ok.inj hentry
    obtain ⟨hp₁, hgrows₁, ho⟩ := h.ensureResource hensure
    obtain ⟨hp', hgrows', hms, hentries⟩ := ih hp₁ hok
    obtain ⟨ho', hrow⟩ := hgrows'.resources o.1 ho
    refine ⟨hp', hgrows₁.trans hgrows', ?_, ?_⟩
    · intro o' ho''
      rcases List.mem_cons.mp ho'' with rfl | ho''
      · exact ho'
      · exact hms o' ho''
    · rw [hentries, List.map_cons, hrow]
      simp

/-- A job that was added has its column at the end. -/
theorem WellFormed.addJob {p p' : Planner R K} (h : WellFormed p) {job : Job R K}
    (hok : addJob res p job = .ok p') :
    WellFormed p' ∧ p'.jobs = p.jobs ++ [job] ∧ p'.colNames = p.colNames ++ [job.name] ∧
      job.name ∉ p.colNames := by
  unfold Planner.addJob at hok
  split at hok
  · exact absurd hok (by simp)
  · next hname =>
    have hp : WellFormed { p with colNames := p.colNames ++ [job.name] } :=
      ⟨h.pos, h.lt, h.injective, h.names, h.cols, h.known⟩
    obtain ⟨⟨p₁, col⟩, hentries, hok⟩ := bind_eq_ok hok
    obtain ⟨hp₁, hgrows, hknown, hcol⟩ := hp.addEntries hentries
    simp only at hok
    split at hok
    · -- the counts of columns and names differ
      exact absurd hok (by simp [throw, throwThe, MonadExceptOf.throw, bind, Except.bind])
    · obtain rfl := Except.ok.inj hok
      have hjobs : p₁.jobs = p.jobs := hgrows.jobs
      refine ⟨⟨hp₁.pos, hp₁.lt, hp₁.injective, hp₁.names, ?_, ?_⟩, ?_, hgrows.colNames, hname⟩
      · show p₁.cols ++ [_] = (p₁.jobs ++ [job]).map (column p₁.rowID)
        rw [List.map_append, hp₁.cols, hcol]
        rfl
      · intro job' hjob'
        rcases List.mem_append.mp hjob' with hjob' | hjob'
        · exact hp₁.known job' hjob'
        · obtain rfl := List.mem_singleton.mp hjob'
          exact hknown
      · show p₁.jobs ++ [job] = _
        rw [hjobs]

/-- **Every column is that of its job, and no two resources share a row.** -/
theorem WellFormed.addJobs {p p' : Planner R K} (h : WellFormed p) {jobs : List (Job R K)}
    (hok : addJobs res p jobs = .ok p') : WellFormed p' ∧ p'.jobs = p.jobs ++ jobs := by
  induction jobs generalizing p with
  | nil =>
    obtain rfl := Except.ok.inj hok
    exact ⟨h, by simp⟩
  | cons job jobs ih =>
    obtain ⟨p₁, h₁, hok⟩ := bind_eq_ok hok
    obtain ⟨hp₁, hjobs, -⟩ := h.addJob h₁
    obtain ⟨hp', hjobs'⟩ := ih hp₁ hok
    exact ⟨hp', by rw [hjobs', hjobs, List.append_assoc, List.singleton_append]⟩

/-! ### Names that are taken -/

/-- The failure of a job whose name the planner has. -/
def Already (e : Fault) : Prop := ∃ name, e = .runtimeError ("Already have job '" ++ name ++ "'")

omit [Field K] [LinearOrder K] in
/-- An entry fails only where there is no row for it. -/
theorem addEntries_error {ms : Materials R K} {s : Planner R K × List (ℕ × K)} {e : Fault}
    (h : ms.foldlM (addEntry res) s = .error e) : e = .undefined := by
  induction ms generalizing s with
  | nil => exact absurd h (by simp [pure, Except.pure])
  | cons o ms ih =>
    rw [List.foldlM_cons, addEntry, Planner.ensureResource] at h
    split at h
    · exact ih h
    split at h
    · exact (Except.error.inj h).symm
    · exact ih h

/-- A job of a new name is not refused for it. -/
theorem addJob_not_already {p : Planner R K} {job : Job R K} (hname : job.name ∉ p.colNames)
    {e : Fault} (h : addJob res p job = .error e) : ¬ Already e := by
  unfold Planner.addJob at h
  rw [if_neg hname] at h
  rintro ⟨name, rfl⟩
  rcases bind_eq_error h with h | ⟨s, -, h⟩
  · exact absurd (addEntries_error h) (by simp)
  · simp only at h
    split at h
    · -- the other failure of `addJob` has another text
      rcases bind_eq_error h with h | ⟨u, -, h⟩
      · have htext := Fault.runtimeError.inj (Except.error.inj h)
        exact absurd (congrArg String.toList htext) (by simp)
      · exact absurd h (by simp [pure, Except.pure])
    · exact absurd h (by simp [pure, Except.pure])

/-- **Jobs of different names are not refused for their names.** -/
theorem WellFormed.addJobs_not_already {p : Planner R K} (h : WellFormed p)
    {jobs : List (Job R K)} (hnodup : (p.colNames ++ jobs.map Job.name).Nodup) {e : Fault}
    (hok : Planner.addJobs res p jobs = .error e) : ¬ Already e := by
  induction jobs generalizing p with
  | nil => exact absurd hok (by simp [Planner.addJobs, pure, Except.pure])
  | cons job jobs ih =>
    rw [List.map_cons, List.append_cons] at hnodup
    have hname : job.name ∉ p.colNames := by
      have hdisjoint := (List.nodup_append'.mp hnodup.of_append_left).2.2
      intro hmem
      exact hdisjoint hmem (List.mem_singleton_self _)
    rcases bind_eq_error hok with hok | ⟨p₁, hjob, hok⟩
    · exact addJob_not_already hname hok
    · obtain ⟨hp₁, -, hnames, -⟩ := h.addJob hjob
      exact ih hp₁ (hnames ▸ hnodup) hok

/-! ### What a job adds to each row -/

/-- The amount of a resource in a list. -/
def amount (ms : Materials R K) (r : R) : K := ((ms.filter (·.1 = r)).map Prod.snd).sum

omit [LinearOrder K] in
theorem amount_append (ms ms' : Materials R K) (r : R) :
    amount (ms ++ ms') r = amount ms r + amount ms' r := by
  simp [amount]

omit [LinearOrder K] in
theorem amount_neg (ms : Materials R K) (r : R) :
    amount (ms.map fun o => (o.1, -o.2)) r = -amount ms r := by
  induction ms with
  | nil => simp [amount]
  | cons o ms ih =>
    have hcons : ∀ (o : R × K) (ms : Materials R K),
        amount (o :: ms) r = (if o.1 = r then o.2 else 0) + amount ms r := by
      intro o ms
      by_cases h : o.1 = r <;> simp [amount, h]
    rw [List.map_cons, hcons, hcons, ih]
    split
    · ring
    · ring

omit [DecidableEq R] in
/-- The buy-in row holds what a job costs. -/
theorem WellFormed.coeff_zero {p : Planner R K} (h : WellFormed p) {job : Job R K}
    (hjob : job ∈ p.jobs) :
    (column p.rowID job).coeff 0 = if job.cost < 0 then -job.cost else 0 := by
  -- no resource has row `0`, so its only entry is that of the buy-in
  have hnone : ((materials job).map fun o => (p.rowID o.1, o.2)).filter (·.1 = 0) = [] := by
    rw [List.filter_eq_nil_iff]
    intro e he
    obtain ⟨o, ho, rfl⟩ := List.mem_map.mp he
    have := h.pos o.1 (h.known job hjob o ho)
    simp only [decide_eq_true_eq]
    omega
  rw [Col.coeff, column, List.filter_append, hnone, List.append_nil, buyInEntry]
  split
  · simp
  · simp

/-- The row of a resource holds what a job takes of it, less what it makes. -/
theorem WellFormed.coeff_rowID {p : Planner R K} (h : WellFormed p) {job : Job R K}
    (hjob : job ∈ p.jobs) {r : R} (hr : r ∈ p.resources) :
    (column p.rowID job).coeff (p.rowID r) = amount job.inputs r - amount job.outputs r := by
  have hpos := h.pos r hr
  have hbuyIn : (buyInEntry job).filter (·.1 = p.rowID r) = [] := by
    rw [List.filter_eq_nil_iff, buyInEntry]
    intro e he
    split at he
    · obtain rfl := List.mem_singleton.mp he
      simp only [decide_eq_true_eq]
      omega
    · exact absurd he List.not_mem_nil
  have hrow : ((materials job).map fun o => (p.rowID o.1, o.2)).filter (·.1 = p.rowID r) =
      ((materials job).filter (·.1 = r)).map fun o => (p.rowID o.1, o.2) := by
    rw [List.filter_map]
    congr 1
    refine List.filter_congr fun o ho => ?_
    have ho := h.known job hjob o ho
    simp only [Function.comp_apply, decide_eq_decide]
    constructor
    · exact h.injective o.1 ho r hr
    · intro e
      rw [e]
  have hsum : ((((materials job).filter (·.1 = r)).map fun o =>
      (p.rowID o.1, o.2)).map Prod.snd).sum = amount (materials job) r := by
    rw [List.map_map, amount]
    rfl
  rw [Col.coeff, column, List.filter_append, hbuyIn, List.nil_append, hrow, hsum, materials,
    amount_append, amount_neg]
  ring

end Columns

end Planner
end Planning
end EveIndustryPlanner
