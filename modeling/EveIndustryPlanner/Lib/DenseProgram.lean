import EveIndustryPlanner.Fault

/-!
# Dense linear programs

A linear program `A x ≤ b` with an objective `c`, as arrays of zeros that are
filled entry by entry.  An entry outside of the arrays may not be written.  Each
write says which constraint it is for, so that it can be asked whether two
constraints share a row.

## Main definitions

* `DenseProgram`, `DenseProgram.zeros` — the arrays.
* `Write`, `DenseProgram.write`, `DenseProgram.writes` — entries, and writing them.
* `DenseProgram.Feasible`, `DenseProgram.objective` — what the program says.
* `DenseProgram.Apart` — no row is used by two constraints.

## Main results

* `writes_eq_ok` — **what writing in range leaves behind.**
-/

namespace EveIndustryPlanner

/-- The arrays of a linear program; `C` names its constraints. -/
structure DenseProgram (C K : Type) where
  rows : ℕ
  cols : ℕ
  A : ℕ → ℕ → K
  b : ℕ → K
  c : ℕ → K
  /-- The constraints the rows were used for; no part of the arrays. -/
  used : List (C × ℕ)

/-- One entry of a program. -/
inductive Write (C K : Type) where
  /-- `A[row][col] = value`. -/
  | a (constraint : C) (row col : ℕ) (value : K)
  /-- `b[row] = value`. -/
  | b (constraint : C) (row : ℕ) (value : K)
  /-- `c[col] = value`. -/
  | c (col : ℕ) (value : K)

namespace DenseProgram

variable {C K : Type}

/-- The arrays before anything is written. -/
def zeros [Zero K] (rows cols : ℕ) : DenseProgram C K :=
  ⟨rows, cols, fun _ _ => 0, fun _ => 0, fun _ => 0, []⟩

/-- The entry is one of the arrays. -/
def InRange (p : DenseProgram C K) : Write C K → Prop
  | .a _ row col _ => row < p.rows ∧ col < p.cols
  | .b _ row _ => row < p.rows
  | .c col _ => col < p.cols

instance (p : DenseProgram C K) (w : Write C K) : Decidable (p.InRange w) := by
  cases w <;> unfold InRange <;> infer_instance

/-- The arrays with one more entry. -/
def set (p : DenseProgram C K) : Write C K → DenseProgram C K
  | .a constraint row col value =>
    { p with
      A := fun i j => if i = row ∧ j = col then value else p.A i j
      used := p.used ++ [(constraint, row)] }
  | .b constraint row value =>
    { p with
      b := fun i => if i = row then value else p.b i
      used := p.used ++ [(constraint, row)] }
  | .c col value => { p with c := fun j => if j = col then value else p.c j }

/-- Write an entry. -/
def write (p : DenseProgram C K) (w : Write C K) : Except Fault (DenseProgram C K) :=
  if p.InRange w then .ok (p.set w) else .error .undefined

/-- Write some entries, one after the other. -/
def writes (p : DenseProgram C K) (ws : List (Write C K)) : Except Fault (DenseProgram C K) :=
  ws.foldlM write p

@[simp] theorem rows_set (p : DenseProgram C K) (w : Write C K) : (p.set w).rows = p.rows := by
  cases w <;> rfl

@[simp] theorem cols_set (p : DenseProgram C K) (w : Write C K) : (p.set w).cols = p.cols := by
  cases w <;> rfl

@[simp] theorem rows_foldl_set (p : DenseProgram C K) (ws : List (Write C K)) :
    (ws.foldl set p).rows = p.rows := by
  induction ws generalizing p with
  | nil => rfl
  | cons w ws ih => rw [List.foldl_cons, ih, rows_set]

@[simp] theorem cols_foldl_set (p : DenseProgram C K) (ws : List (Write C K)) :
    (ws.foldl set p).cols = p.cols := by
  induction ws generalizing p with
  | nil => rfl
  | cons w ws ih => rw [List.foldl_cons, ih, cols_set]

theorem inRange_set {p : DenseProgram C K} {w w' : Write C K} :
    (p.set w).InRange w' ↔ p.InRange w' := by cases w <;> cases w' <;> exact Iff.rfl

/-- **What writing in range leaves behind.** -/
theorem writes_eq_ok {p : DenseProgram C K} {ws : List (Write C K)} (h : ∀ w ∈ ws, p.InRange w) :
    p.writes ws = .ok (ws.foldl set p) := by
  induction ws generalizing p with
  | nil => rfl
  | cons w ws ih =>
    rw [writes, List.foldlM_cons, write, if_pos (h w List.mem_cons_self), ok_bind]
    exact ih fun w' hw' => inRange_set.mpr (h w' (List.mem_cons_of_mem w hw'))

/-- Writing out of range does not come to its end. -/
theorem inRange_of_writes {p p' : DenseProgram C K} {ws : List (Write C K)}
    (h : p.writes ws = .ok p') : p' = ws.foldl set p ∧ ∀ w ∈ ws, p.InRange w := by
  induction ws generalizing p with
  | nil => exact ⟨(Except.ok.inj h).symm, fun w hw => absurd hw List.not_mem_nil⟩
  | cons w ws ih =>
    rw [writes, List.foldlM_cons, write] at h
    by_cases hw : p.InRange w
    · rw [if_pos hw, ok_bind] at h
      obtain ⟨rfl, hrest⟩ := ih h
      refine ⟨rfl, List.forall_mem_cons.mpr ⟨hw, fun w' hw' => inRange_set.mp (hrest w' hw')⟩⟩
    · rw [if_neg hw] at h
      exact absurd h (by simp)

/-- Writing fails for an entry out of range only. -/
theorem undefined_of_writes {p : DenseProgram C K} {ws : List (Write C K)} {e : Fault}
    (h : p.writes ws = .error e) : e = .undefined := by
  obtain ⟨p', w, -, hw⟩ := foldlM_eq_error h
  unfold write at hw
  split at hw
  · exact absurd hw (by simp)
  · exact (Except.error.inj hw).symm

/-! ### What a program says -/

section Meaning

variable [CommRing K]

/-- A row of `A x`. -/
def activity (p : DenseProgram C K) (x : ℕ → K) (row : ℕ) : K :=
  ∑ col ∈ Finset.range p.cols, p.A row col * x col

/-- `c x`. -/
def objective (p : DenseProgram C K) (x : ℕ → K) : K :=
  ∑ col ∈ Finset.range p.cols, p.c col * x col

/-- `A x ≤ b`. -/
def Feasible [LE K] (p : DenseProgram C K) (x : ℕ → K) : Prop :=
  ∀ row < p.rows, p.activity x row ≤ p.b row

/-- No row is used by two constraints. -/
def Apart (p : DenseProgram C K) : Prop :=
  ∀ e ∈ p.used, ∀ e' ∈ p.used, e.2 = e'.2 → e.1 = e'.1

/-- A sum over columns of which only the first ones are not zero. -/
theorem sum_cols_eq {f : ℕ → K} {n cols : ℕ} (hle : n ≤ cols) (h : ∀ j, n ≤ j → f j = 0) :
    ∑ j ∈ Finset.range cols, f j = ∑ j : Fin n, f j := by
  rw [Fin.sum_univ_eq_sum_range f n]
  symm
  apply Finset.sum_subset (Finset.range_subset_range.mpr hle)
  intro j _ hj
  exact h j (not_lt.mp (fun hlt => hj (Finset.mem_range.mpr hlt)))

end Meaning

end DenseProgram

end EveIndustryPlanner
