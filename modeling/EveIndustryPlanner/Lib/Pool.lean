import EveIndustryPlanner.Lib.Multimap
import EveIndustryPlanner.Lib.Worker

/-!
# Workers that take turns

Jobs are handed to a number of workers in turn.  Which one is next is a counter that
goes around; each worker executes what it was handed in that order, independently of
the others.

## Main definitions

* `dealt` — every `n`-th job, from some position on.
* `Pool` — the workers, and which one is next.
* `Pool.post`, `Pool.start`, `Pool.finish` — a job is handed over, and the steps of a
  worker.
* `Pool.Dealt` — the workers have what was handed to them in turn.

## Main results

* `getElem?_dealt`, `length_dealt` — where each job is, and how many a worker has.
* `length_dealt_le` — no worker has two jobs more than another one.
* `perm_dealt` — each job is with one of the workers.
* `Pool.Dealt.post`, `Pool.Dealt.start`, `Pool.Dealt.finish` — **whatever the workers do,
  they have what was handed to them in turn.**
-/

namespace EveIndustryPlanner

/-! ### In turn -/

section InTurn

variable {J : Type*} {n i : ℕ}

/-- Every `n`-th job, beginning with the one at position `i`. -/
def dealt (n : ℕ) (jobs : List J) (i : ℕ) : List J :=
  (jobs.zipIdx.filter fun j => j.2 % n = i).map Prod.fst

example : dealt 3 ["a", "b", "c", "d", "e"] 1 = ["b", "e"] := by decide

@[simp] theorem dealt_nil (n i : ℕ) : dealt n ([] : List J) i = [] := rfl

/-- One more job. -/
theorem dealt_snoc (n : ℕ) (jobs : List J) (j : J) (i : ℕ) :
    dealt n (jobs ++ [j]) i = dealt n jobs i ++ if jobs.length % n = i then [j] else [] := by
  rw [dealt, List.zipIdx_append, List.filter_append, List.map_append, ← dealt]
  by_cases h : jobs.length % n = i
  · simp [h]
  · simp [h]

/-- How many jobs a worker has. -/
theorem length_dealt (hi : i < n) (jobs : List J) :
    (dealt n jobs i).length = (jobs.length + (n - 1 - i)) / n := by
  induction jobs using List.reverseRecOn with
  | nil =>
    rw [dealt_nil, List.length_nil, zero_add, Nat.div_eq_of_lt (by omega)]
  | append_singleton jobs j ih =>
    have hn : 0 < n := by omega
    have hmod : jobs.length % n < n := Nat.mod_lt _ hn
    have hdiv := Nat.div_add_mod jobs.length n
    rw [dealt_snoc, List.length_append, List.length_append, ih, List.length_singleton]
    -- how many there are of it changes only where the remainder is `i`
    generalize jobs.length / n = q at hdiv
    generalize jobs.length % n = r at hmod hdiv ⊢
    have hquot : ∀ a, a < n → (n * q + a) / n = q := by
      intro a ha
      rw [Nat.mul_add_div hn, Nat.div_eq_of_lt ha, add_zero]
    have hquot' : ∀ a, a < n → (n * q + n + a) / n = q + 1 := by
      intro a ha
      rw [← Nat.mul_succ, Nat.mul_add_div hn, Nat.div_eq_of_lt ha, add_zero]
    rcases lt_trichotomy r i with hlt | rfl | hgt
    · rw [if_neg hlt.ne, List.length_nil, add_zero,
        show jobs.length + (n - 1 - i) = n * q + (r + (n - 1 - i)) by omega,
        show jobs.length + 1 + (n - 1 - i) = n * q + (r + 1 + (n - 1 - i)) by omega,
        hquot _ (by omega), hquot _ (by omega)]
    · rw [if_pos rfl, List.length_singleton,
        show jobs.length + (n - 1 - r) = n * q + (n - 1) by omega,
        show jobs.length + 1 + (n - 1 - r) = n * q + n + 0 by omega,
        hquot _ (by omega), hquot' _ (by omega)]
    · rw [if_neg hgt.ne', List.length_nil, add_zero,
        show jobs.length + (n - 1 - i) = n * q + n + (r - i - 1) by omega,
        show jobs.length + 1 + (n - 1 - i) = n * q + n + (r - i) by omega,
        hquot' _ (by omega), hquot' _ (by omega)]

/-- The jobs of a worker are those at every `n`-th position. -/
theorem getElem?_dealt (hi : i < n) (jobs : List J) (m : ℕ) :
    (dealt n jobs i)[m]? = jobs[n * m + i]? := by
  induction jobs using List.reverseRecOn with
  | nil => rfl
  | append_singleton jobs j ih =>
    have hn : 0 < n := by omega
    have hlength := length_dealt hi jobs
    have hmod : jobs.length % n < n := Nat.mod_lt _ hn
    have hdiv := Nat.div_add_mod jobs.length n
    rw [dealt_snoc]
    by_cases hr : jobs.length % n = i
    · have hcount : (dealt n jobs i).length = jobs.length / n := by
        rw [hlength, show jobs.length + (n - 1 - i) = n * (jobs.length / n) + (n - 1) by omega,
          Nat.mul_add_div hn, Nat.div_eq_of_lt (show n - 1 < n by omega), add_zero]
      rw [if_pos hr, List.getElem?_append, List.getElem?_append, hcount, ih]
      rcases lt_trichotomy m (jobs.length / n) with hlt | rfl | hgt
      · have hlt' : n * m + i < jobs.length := by
          have := Nat.mul_le_mul_left n (Nat.succ_le_of_lt hlt)
          rw [Nat.mul_succ] at this
          omega
        rw [if_pos hlt, if_pos hlt']
      · rw [if_neg (lt_irrefl _), if_neg (by omega), Nat.sub_self]
        rw [show n * (jobs.length / n) + i - jobs.length = 0 by omega]
      · have hgt' : jobs.length < n * m + i := by
          have := Nat.mul_le_mul_left n (Nat.succ_le_of_lt hgt)
          rw [Nat.mul_succ] at this
          omega
        rw [if_neg hgt.not_gt, if_neg hgt'.not_gt, List.getElem?_eq_none (by simp; omega),
          List.getElem?_eq_none (by simp; omega)]
    · rw [if_neg hr, List.append_nil, ih, List.getElem?_append]
      split
      · rfl
      · next hge =>
        have hne : n * m + i ≠ jobs.length := by
          intro heq
          apply hr
          rw [← heq, Nat.mul_add_mod, Nat.mod_eq_of_lt hi]
        rw [List.getElem?_eq_none (by omega), List.getElem?_eq_none (by simp; omega)]

/-- No worker has two jobs more than another one. -/
theorem length_dealt_le {k : ℕ} (hi : i < n) (hk : k < n) (jobs : List J) :
    (dealt n jobs i).length ≤ (dealt n jobs k).length + 1 := by
  have hn : 0 < n := by omega
  rw [length_dealt hi, length_dealt hk]
  calc (jobs.length + (n - 1 - i)) / n
      ≤ (jobs.length + (n - 1 - k) + n) / n := Nat.div_le_div_right (by omega)
    _ = (jobs.length + (n - 1 - k)) / n + 1 := Nat.add_div_right _ hn

/-- Each job is with one of the workers. -/
theorem perm_dealt (hn : 0 < n) (jobs : List J) :
    ((List.range n).flatMap fun i => dealt n jobs i).Perm jobs := by
  have hperm := perm_flatMap_filter (fun j : J × ℕ => j.2 % n) (List.nodup_range (n := n))
    (l := jobs.zipIdx) fun j _ => List.mem_range.mpr (Nat.mod_lt _ hn)
  have hmap := hperm.map Prod.fst
  rwa [List.map_flatMap, List.zipIdx_map_fst] at hmap

end InTurn

/-! ### Pools -/

/-- The workers, and which one is next. -/
structure Pool (n : ℕ) (J : Type*) where
  workers : Fin n → Worker J
  next : ℕ
  next_lt : 0 < n → next < n

namespace Pool

variable {n : ℕ} {J : Type*}

/-- Nothing was handed over. -/
def idle : Pool n J := ⟨fun _ => .idle, 0, fun h => h⟩

/-- One of the workers after a step of it. -/
def withWorker (p : Pool n J) (i : Fin n) (w : Worker J) : Pool n J :=
  { p with workers := Function.update p.workers i w }

/-- Hand a job to the next worker, if there are any. -/
def post (p : Pool n J) (j : J) : Option (Pool n J) :=
  if h : 0 < n then
    let i : Fin n := ⟨p.next, p.next_lt h⟩
    some ⟨Function.update p.workers i ((p.workers i).post j), (p.next + 1) % n, Nat.mod_lt _⟩
  else none

/-- A worker takes its next job. -/
def start (p : Pool n J) (i : Fin n) : Option (J × Pool n J) :=
  (p.workers i).start.map fun r => (r.1, p.withWorker i r.2)

/-- A worker ends its job. -/
def finish (p : Pool n J) (i : Fin n) : Option (J × Pool n J) :=
  (p.workers i).finish.map fun r => (r.1, p.withWorker i r.2)

/-- Handing over a job does not change what is executed. -/
theorem post_eq_some {p p' : Pool n J} {j : J} (h : p.post j = some p') (i : Fin n) :
    (p'.workers i).finished = (p.workers i).finished ∧
      (p'.workers i).started = (p.workers i).started := by
  unfold post at h
  split at h
  · next hn =>
    obtain rfl := Option.some.inj h
    dsimp only
    by_cases hi : i = ⟨p.next, p.next_lt hn⟩
    · rw [hi, Function.update_self, Worker.finished_post, Worker.started_post]
      exact ⟨rfl, rfl⟩
    · rw [Function.update_of_ne hi]
      exact ⟨rfl, rfl⟩
  · exact absurd h (by simp)

theorem workers_withWorker (p : Pool n J) (i k : Fin n) (w : Worker J) :
    (p.withWorker i w).workers k = if k = i then w else p.workers k :=
  Function.update_apply p.workers i w k

/-- The workers have what was handed to them in turn. -/
structure Dealt (p : Pool n J) (posts : List J) : Prop where
  next_eq : 0 < n → p.next = posts.length % n
  posted : ∀ i : Fin n, (p.workers i).posted = dealt n posts i
  none : n = 0 → posts = []

theorem Dealt.idle : Dealt (idle : Pool n J) [] where
  next_eq _ := (Nat.zero_mod n).symm
  posted _ := rfl
  none _ := rfl

/-- A job was handed over. -/
theorem Dealt.post {p p' : Pool n J} {posts : List J} {j : J} (h : p.Dealt posts)
    (hpost : p.post j = some p') : p'.Dealt (posts ++ [j]) := by
  unfold Pool.post at hpost
  split at hpost
  · next hn =>
    obtain rfl := Option.some.inj hpost
    refine ⟨fun _ => ?_, fun i => ?_, fun hzero => absurd hn (by omega)⟩
    · change (p.next + 1) % n = _
      rw [h.next_eq hn, List.length_append, List.length_singleton, Nat.mod_add_mod]
    · change (Function.update p.workers _ _ i).posted = _
      rw [dealt_snoc]
      by_cases hi : i = ⟨p.next, p.next_lt hn⟩
      · have hturn : posts.length % n = i := by rw [hi, ← h.next_eq hn]
        rw [hi, Function.update_self, Worker.posted_post, h.posted, ← hi, if_pos hturn]
      · have hturn : posts.length % n ≠ i := by
          intro heq
          exact hi (Fin.ext (by rw [← heq, ← h.next_eq hn]))
        rw [Function.update_of_ne hi, h.posted, if_neg hturn, List.append_nil]
  · exact absurd hpost (by simp)

/-- A worker has gone on with what it has. -/
theorem Dealt.withWorker {p : Pool n J} {posts : List J} (h : p.Dealt posts) {i : Fin n}
    {w : Worker J} (hw : w.posted = (p.workers i).posted) : (p.withWorker i w).Dealt posts := by
  refine ⟨h.next_eq, fun k => ?_, h.none⟩
  rw [workers_withWorker]
  split
  · next hk => rw [hw, hk, h.posted]
  · exact h.posted k

/-- What starting a job does. -/
theorem start_eq_some {p p' : Pool n J} {i : Fin n} {j : J} (h : p.start i = some (j, p')) :
    ∃ w, (p.workers i).start = some (j, w) ∧ p' = p.withWorker i w := by
  obtain ⟨⟨j', w⟩, hw, heq⟩ := Option.map_eq_some_iff.mp h
  obtain ⟨rfl, rfl⟩ := Prod.mk.injEq .. ▸ heq
  exact ⟨w, hw, rfl⟩

/-- What ending a job does. -/
theorem finish_eq_some {p p' : Pool n J} {i : Fin n} {j : J} (h : p.finish i = some (j, p')) :
    ∃ w, (p.workers i).finish = some (j, w) ∧ p' = p.withWorker i w := by
  obtain ⟨⟨j', w⟩, hw, heq⟩ := Option.map_eq_some_iff.mp h
  obtain ⟨rfl, rfl⟩ := Prod.mk.injEq .. ▸ heq
  exact ⟨w, hw, rfl⟩

theorem Dealt.start {p p' : Pool n J} {posts : List J} {i : Fin n} {j : J} (h : p.Dealt posts)
    (hstart : p.start i = some (j, p')) : p'.Dealt posts := by
  obtain ⟨w, hw, rfl⟩ := start_eq_some hstart
  exact h.withWorker (Worker.start_eq_some hw).2.2

theorem Dealt.finish {p p' : Pool n J} {posts : List J} {i : Fin n} {j : J} (h : p.Dealt posts)
    (hfinish : p.finish i = some (j, p')) : p'.Dealt posts := by
  obtain ⟨w, hw, rfl⟩ := finish_eq_some hfinish
  exact h.withWorker (Worker.finish_eq_some hw).2.2.1

end Pool

end EveIndustryPlanner
