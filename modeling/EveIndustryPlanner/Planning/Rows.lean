import EveIndustryPlanner.Lib.Intern
import EveIndustryPlanner.Planning.Planner

/-!
# Every resource has its own row

The planner knows resources by their addresses and rows by their names.  Where
different resources have different names, and none that of the buy-in, no job of
a new name is refused and the two agree.

## Main definitions

* `Planner.RowsNamed` — each known resource has the row that is called like it.
* `Planner.OwnRows` — what holds of the rows and columns after some jobs.
* `Planner.Stores` — what a column holds if its job names no resource twice.

## Main results

* `Planner.RowsNamed.addJob` — one job.
* `Planner.exists_addJobs` — jobs of different names are all added.
* `Planner.WellFormed.stores` — **a job that names no resource twice is stored as
  it is.**
* `Planner.exists_ownRows` — **every resource has its own row**, every job its own
  column.
-/

namespace EveIndustryPlanner
namespace Planning
namespace Planner

variable {R K : Type}

/-- Each known resource has the row that is called like it; every other row is
that of the buy-in. -/
structure RowsNamed (res : Resources R K) (p : Planner R K) : Prop where
  buyIn : p.rowNames[0]? = some "BuyIn"
  rowName : ∀ r ∈ p.resources, p.rowNames[p.rowID r]? = some (res.name r)
  known : ∀ name ∈ p.rowNames, name = "BuyIn" ∨ ∃ r ∈ p.resources, res.name r = name

theorem rowsNamed_empty (res : Resources R K) : RowsNamed res empty where
  buyIn := rfl
  rowName _ h := absurd h List.not_mem_nil
  known _ h := Or.inl (List.mem_singleton.mp h)

section Adding

variable [DecidableEq R] {res : Resources R K} {p : Planner R K}

/-- A resource gets the row that is called like it. -/
theorem RowsNamed.ensureResource (h : RowsNamed res p) (hinj : Function.Injective res.name)
    (hbuyIn : ∀ r, res.name r ≠ "BuyIn") (r : R) :
    ∃ p', ensureResource res p r = .ok p' ∧ RowsNamed res p' := by
  unfold Planner.ensureResource
  by_cases hold : r ∈ p.resources
  · exact ⟨p, if_pos hold, h⟩
  -- a row of that name would be the row of the resource
  have hname : res.name r ∉ p.rowNames := by
    intro hmem
    rcases h.known _ hmem with hname | ⟨r', hr', hname⟩
    · exact hbuyIn r hname
    · exact hold (hinj hname ▸ hr')
  rw [if_neg hold, if_neg hname]
  refine ⟨_, rfl, ?_, fun s hs => ?_, fun name hmem => ?_⟩
  · exact getElem?_append_of_eq_some h.buyIn
  · rcases List.mem_append.mp hs with hs | hs
    · have hne : s ≠ r := fun heq => hold (heq ▸ hs)
      simp only [Function.update_of_ne hne]
      exact getElem?_append_of_eq_some (h.rowName s hs)
    · obtain rfl := List.mem_singleton.mp hs
      simp only [Function.update_self]
      exact List.getElem?_concat_length
  · rcases List.mem_append.mp hmem with hmem | hmem
    · rcases h.known name hmem with hname | ⟨r', hr', hname⟩
      · exact Or.inl hname
      · exact Or.inr ⟨r', List.mem_append_left _ hr', hname⟩
    · exact Or.inr ⟨r, by simp, (List.mem_singleton.mp hmem).symm⟩

/-- The entries of a column find their rows. -/
theorem RowsNamed.addEntries (h : RowsNamed res p) (hinj : Function.Injective res.name)
    (hbuyIn : ∀ r, res.name r ≠ "BuyIn") (ms : Materials R K) (entries : List (ℕ × K)) :
    ∃ s, ms.foldlM (addEntry res) (p, entries) = .ok s ∧ RowsNamed res s.1 := by
  induction ms generalizing p entries with
  | nil => exact ⟨(p, entries), rfl, h⟩
  | cons o ms ih =>
    obtain ⟨p₁, h₁, hnamed⟩ := h.ensureResource hinj hbuyIn o.1
    obtain ⟨s, hs, hnamed'⟩ := ih hnamed (entries ++ [(p₁.rowID o.1, o.2)])
    refine ⟨s, ?_, hnamed'⟩
    rw [List.foldlM_cons, addEntry, h₁, ok_bind]
    exact hs

variable [Field K] [LinearOrder K]

/-- **A job of a new name is added.** -/
theorem RowsNamed.addJob (h : RowsNamed res p) (hp : WellFormed p)
    (hcols : p.cols.length = p.colNames.length) (hinj : Function.Injective res.name)
    (hbuyIn : ∀ r, res.name r ≠ "BuyIn") {job : Job R K} (hname : job.name ∉ p.colNames) :
    ∃ p', addJob res p job = .ok p' ∧ RowsNamed res p' ∧ p'.cols.length = p'.colNames.length := by
  have hnamed : RowsNamed res { p with colNames := p.colNames ++ [job.name] } :=
    ⟨h.buyIn, h.rowName, h.known⟩
  have hwell : WellFormed { p with colNames := p.colNames ++ [job.name] } :=
    ⟨hp.pos, hp.lt, hp.injective, hp.names, hp.cols, hp.known⟩
  obtain ⟨⟨p₁, col⟩, hentries, hnamed₁⟩ :=
    hnamed.addEntries hinj hbuyIn (materials job) (buyInEntry job)
  obtain ⟨-, hgrows, -, -⟩ := hwell.addEntries hentries
  have hlength : (p₁.cols ++ [(⟨job.cost, job.lowerLimit, col, job.upperLimit⟩ : Col K)]).length =
      p₁.colNames.length := by
    rw [hgrows.cols, hgrows.colNames, List.length_append, List.length_append, hcols]
    rfl
  unfold Planner.addJob
  rw [if_neg hname]
  dsimp only
  rw [hentries, ok_bind]
  dsimp only
  rw [if_neg (not_not.mpr hlength)]
  exact ⟨_, rfl, ⟨hnamed₁.buyIn, hnamed₁.rowName, hnamed₁.known⟩, hlength⟩

/-- **Jobs of different names are all added.** -/
theorem exists_addJobs (hinj : Function.Injective res.name) (hbuyIn : ∀ r, res.name r ≠ "BuyIn")
    {jobs : List (Job R K)} (hnodup : (jobs.map Job.name).Nodup) :
    ∃ p, addJobs res empty jobs = .ok p ∧ WellFormed p ∧ RowsNamed res p ∧
      p.jobs = jobs ∧ p.colNames = jobs.map Job.name := by
  suffices hcols : ∃ p, addJobs res empty jobs = .ok p ∧ WellFormed p ∧ RowsNamed res p ∧
      p.jobs = jobs ∧ p.colNames = jobs.map Job.name ∧ p.cols.length = p.colNames.length by
    obtain ⟨p, hp, hwell, hnamed, hjobs, hnames, -⟩ := hcols
    exact ⟨p, hp, hwell, hnamed, hjobs, hnames⟩
  induction jobs using List.reverseRecOn with
  | nil => exact ⟨empty, rfl, wellFormed_empty, rowsNamed_empty res, rfl, rfl, rfl⟩
  | append_singleton jobs job ih =>
    rw [List.map_append, List.map_singleton, List.nodup_append'] at hnodup
    obtain ⟨p, hp, hwell, hnamed, hjobs, hnames, hcols⟩ := ih hnodup.1
    have hnew : job.name ∉ p.colNames := by
      rw [hnames]
      exact List.disjoint_singleton.mp hnodup.2.2
    obtain ⟨p', hp', hnamed', hcols'⟩ := hnamed.addJob hwell hcols hinj hbuyIn hnew
    obtain ⟨hwell', hjobs', hnames', -⟩ := hwell.addJob hp'
    refine ⟨p', ?_, hwell', hnamed', ?_, ?_, hcols'⟩
    · rw [addJobs, List.foldlM_append, ← addJobs, hp, ok_bind, List.foldlM_cons, hp', ok_bind]
      rfl
    · rw [hjobs', hjobs]
    · rw [hnames', hnames, List.map_append, List.map_singleton]

end Adding

/-! ### What is stored -/

section Stored

variable [Field K] [LinearOrder K]

/-- No resource is named twice. -/
def NamesOnce (job : Job R K) : Prop := ((job.outputs ++ job.inputs).map Prod.fst).Nodup

/-- The column has what the job takes and makes of each resource in its row, what
the job costs in the row of the buy-in, and nothing else. -/
structure Stores (rowID : R → ℕ) (job : Job R K) (c : Col K) : Prop where
  obj : c.obj = job.cost
  lower : c.lower = job.lowerLimit
  upper : c.upper = job.upperLimit
  rows_nodup : (c.entries.map Prod.fst).Nodup
  input : ∀ o ∈ job.inputs, c.coeff (rowID o.1) = o.2
  output : ∀ o ∈ job.outputs, c.coeff (rowID o.1) = -o.2
  buyIn : c.coeff 0 = if job.cost < 0 then -job.cost else 0
  other : ∀ row, row ≠ 0 → (∀ o ∈ job.outputs ++ job.inputs, rowID o.1 ≠ row) → c.coeff row = 0

omit [LinearOrder K] in
theorem mem_materials {job : Job R K} {o : R × K} (ho : o ∈ materials job) :
    ∃ o' ∈ job.outputs ++ job.inputs, o'.1 = o.1 := by
  rcases List.mem_append.mp ho with ho | ho
  · obtain ⟨o', ho', rfl⟩ := List.mem_map.mp ho
    exact ⟨o', List.mem_append_left _ ho', rfl⟩
  · exact ⟨o, List.mem_append_right _ ho, rfl⟩

omit [LinearOrder K] in
theorem map_fst_materials (job : Job R K) :
    (materials job).map Prod.fst = (job.outputs ++ job.inputs).map Prod.fst := by
  rw [materials, List.map_append, List.map_append, List.map_map]
  rfl

theorem mem_resources {p : Planner R K} (h : WellFormed p) {job : Job R K} (hjob : job ∈ p.jobs)
    {o : R × K} (ho : o ∈ job.outputs ++ job.inputs) : o.1 ∈ p.resources := by
  have hmem : o.1 ∈ (materials job).map Prod.fst := by
    rw [map_fst_materials]
    exact List.mem_map_of_mem ho
  obtain ⟨o', ho', heq⟩ := List.mem_map.mp hmem
  exact heq ▸ h.known job hjob o' ho'

variable [DecidableEq R]

omit [LinearOrder K] in
theorem amount_of_not_mem {ms : Materials R K} {r : R} (h : r ∉ ms.map Prod.fst) :
    amount ms r = 0 := by
  have hnone : ms.filter (·.1 = r) = [] := by
    rw [List.filter_eq_nil_iff]
    intro o ho heq
    exact h (of_decide_eq_true heq ▸ List.mem_map_of_mem ho)
  rw [amount, hnone]
  rfl

omit [LinearOrder K] in
/-- The amount of a resource that is named once. -/
theorem amount_of_mem {ms : Materials R K} (h : (ms.map Prod.fst).Nodup) {o : R × K}
    (ho : o ∈ ms) : amount ms o.1 = o.2 := by
  obtain ⟨before, after, rfl⟩ := List.append_of_mem ho
  rw [List.map_append, List.map_cons, List.nodup_middle, List.nodup_cons, ← List.map_append] at h
  have hrest := amount_of_not_mem h.1
  rw [amount_append] at hrest ⊢
  have hcons : amount (o :: after) o.1 = o.2 + amount after o.1 := by simp [amount]
  rw [hcons, add_left_comm, hrest, add_zero]

omit [DecidableEq R] in
/-- The rows of a column are different. -/
theorem WellFormed.rows_nodup {p : Planner R K} (h : WellFormed p) {job : Job R K}
    (hjob : job ∈ p.jobs) (honce : NamesOnce job) :
    ((column p.rowID job).entries.map Prod.fst).Nodup := by
  have hrows : ((materials job).map fun o => (p.rowID o.1, o.2)).map Prod.fst =
      ((materials job).map Prod.fst).map p.rowID := by
    rw [List.map_map, List.map_map]
    rfl
  have hmaterials : (((materials job).map Prod.fst).map p.rowID).Nodup := by
    refine List.Nodup.map_on ?_ (map_fst_materials job ▸ honce)
    intro r hr r' hr' heq
    obtain ⟨o, ho, rfl⟩ := List.mem_map.mp hr
    obtain ⟨o', ho', rfl⟩ := List.mem_map.mp hr'
    exact h.injective _ (h.known job hjob o ho) _ (h.known job hjob o' ho') heq
  show ((buyInEntry job ++ _).map Prod.fst).Nodup
  rw [List.map_append, hrows, buyInEntry]
  split
  · -- no resource has the row of the buy-in
    refine List.nodup_cons.mpr ⟨fun hmem => ?_, hmaterials⟩
    obtain ⟨r, hr, hzero⟩ := List.mem_map.mp hmem
    obtain ⟨o, ho, rfl⟩ := List.mem_map.mp hr
    exact absurd hzero (h.pos _ (h.known job hjob o ho)).ne'
  · exact hmaterials

/-- **A job that names no resource twice is stored as it is.** -/
theorem WellFormed.stores {p : Planner R K} (h : WellFormed p) {job : Job R K}
    (hjob : job ∈ p.jobs) (honce : NamesOnce job) : Stores p.rowID job (column p.rowID job) := by
  have hsplit := honce
  rw [NamesOnce, List.map_append, List.nodup_append'] at hsplit
  obtain ⟨houtputs, hinputs, hdisjoint⟩ := hsplit
  refine ⟨rfl, rfl, rfl, h.rows_nodup hjob honce, fun o ho => ?_, fun o ho => ?_,
    h.coeff_zero hjob, fun row hrow hother => ?_⟩
  · rw [h.coeff_rowID hjob (mem_resources h hjob (List.mem_append_right _ ho)),
      amount_of_mem hinputs ho, amount_of_not_mem fun hmem => hdisjoint hmem
        (List.mem_map_of_mem ho), sub_zero]
  · rw [h.coeff_rowID hjob (mem_resources h hjob (List.mem_append_left _ ho)),
      amount_of_mem houtputs ho, amount_of_not_mem (hdisjoint (List.mem_map_of_mem ho)), zero_sub]
  · have hnone : (column p.rowID job).entries.filter (·.1 = row) = [] := by
      rw [List.filter_eq_nil_iff]
      intro e he heq
      have heq : e.1 = row := of_decide_eq_true heq
      rcases List.mem_append.mp he with he | he
      · unfold buyInEntry at he
        split at he
        · rw [List.mem_singleton.mp he] at heq
          exact hrow heq.symm
        · exact absurd he List.not_mem_nil
      · obtain ⟨o, ho, rfl⟩ := List.mem_map.mp he
        obtain ⟨o', ho', heq'⟩ := mem_materials ho
        exact hother o' ho' (heq' ▸ heq)
    rw [Col.coeff, hnone]
    rfl

/-- Each known resource has a valid row of its own, which is called like it and
is not that of the buy-in; each job has the column of its position. -/
structure OwnRows (res : Resources R K) (p : Planner R K) (jobs : List (Job R K)) : Prop where
  buyIn : p.rowNames[0]? = some "BuyIn"
  row : ∀ r ∈ p.resources, 0 < p.rowID r ∧ p.rowNames[p.rowID r]? = some (res.name r)
  injective : ∀ r ∈ p.resources, ∀ r' ∈ p.resources, p.rowID r = p.rowID r' → r = r'
  known : ∀ job ∈ jobs, ∀ o ∈ job.outputs ++ job.inputs, o.1 ∈ p.resources
  colNames : p.colNames = jobs.map Job.name
  columns : p.cols = jobs.map (column p.rowID)
  stores : ∀ job ∈ jobs, NamesOnce job → Stores p.rowID job (column p.rowID job)

/-- **After jobs of different names every resource has its own row.** -/
theorem exists_ownRows {res : Resources R K} (hinj : Function.Injective res.name)
    (hbuyIn : ∀ r, res.name r ≠ "BuyIn") {jobs : List (Job R K)}
    (hnodup : (jobs.map Job.name).Nodup) :
    ∃ p, addJobs res empty jobs = .ok p ∧ OwnRows res p jobs := by
  obtain ⟨p, hp, hwell, hnamed, rfl, hnames⟩ := exists_addJobs hinj hbuyIn hnodup
  refine ⟨p, hp, hnamed.buyIn, fun r hr => ⟨hwell.pos r hr, hnamed.rowName r hr⟩, hwell.injective,
    fun job hjob o ho => mem_resources hwell hjob ho, hnames, hwell.cols,
    fun job hjob honce => hwell.stores hjob honce⟩

end Stored

end Planner
end Planning
end EveIndustryPlanner
