import Mathlib

/-!
# One worker and its queue

Any number of clients post jobs to a worker, which executes them one at a time
in the order in which they were posted.  What was executed is kept, so that the
order of jobs can be spoken of: the jobs that were started are a prefix of the
jobs that were posted, and so are those of each client.

## Main definitions

* `Worker` — the jobs that are done, the one being executed, and the waiting ones.
* `Worker.started`, `Worker.posted` — the jobs in the order of their execution,
  without and with the waiting ones.
* `Worker.post`, `Worker.start`, `Worker.finish` — the three steps.

## Main results

* `Worker.finished_prefix_posted` — jobs are done in the order of posting.
* `Worker.filter_before` — **before the last job of a client all its other jobs
  are done.**
* `sum_update` — one client counts further.
-/

namespace EveIndustryPlanner

/-- The jobs that are done, the one that is being executed, and those that wait. -/
structure Worker (J : Type*) where
  finished : List J
  current : Option J
  queue : List J

namespace Worker

variable {J : Type*}

/-- Nothing was posted. -/
def idle : Worker J := ⟨[], none, []⟩

/-- The jobs whose execution has begun, in order. -/
def started (w : Worker J) : List J := w.finished ++ w.current.toList

/-- The jobs that were posted, in order. -/
def posted (w : Worker J) : List J := w.started ++ w.queue

/-- Append a job to the queue. -/
def post (w : Worker J) (j : J) : Worker J := { w with queue := w.queue ++ [j] }

/-- Take the next job off the queue. -/
def start (w : Worker J) : Option (J × Worker J) :=
  match w.current, w.queue with
  | none, j :: queue => some (j, ⟨w.finished, some j, queue⟩)
  | _, _ => none

/-- End the job that is being executed. -/
def finish (w : Worker J) : Option (J × Worker J) :=
  w.current.map fun j => (j, ⟨w.finished ++ [j], none, w.queue⟩)

/-! ### The three steps -/

@[simp] theorem finished_idle : (idle : Worker J).finished = [] := rfl

@[simp] theorem started_idle : (idle : Worker J).started = [] := rfl

@[simp] theorem posted_idle : (idle : Worker J).posted = [] := rfl

@[simp] theorem finished_post (w : Worker J) (j : J) : (w.post j).finished = w.finished := rfl

@[simp] theorem started_post (w : Worker J) (j : J) : (w.post j).started = w.started := rfl

@[simp] theorem posted_post (w : Worker J) (j : J) : (w.post j).posted = w.posted ++ [j] := by
  simp [posted, post, started]

section Posts

variable (jobs : List J) (w : Worker J)

@[simp] theorem finished_foldl_post : (jobs.foldl post w).finished = w.finished := by
  induction jobs generalizing w with
  | nil => rfl
  | cons j jobs ih => rw [List.foldl_cons, ih, finished_post]

@[simp] theorem started_foldl_post : (jobs.foldl post w).started = w.started := by
  induction jobs generalizing w with
  | nil => rfl
  | cons j jobs ih => rw [List.foldl_cons, ih, started_post]

@[simp] theorem posted_foldl_post : (jobs.foldl post w).posted = w.posted ++ jobs := by
  induction jobs generalizing w with
  | nil => simp
  | cons j jobs ih => rw [List.foldl_cons, ih, posted_post, List.append_assoc, List.singleton_append]

end Posts

/-- What starting a job does. -/
theorem start_eq_some {w w' : Worker J} {j : J} (h : w.start = some (j, w')) :
    w'.finished = w.finished ∧ w'.started = w.started ++ [j] ∧ w'.posted = w.posted := by
  unfold start at h
  split at h
  · next queue hcurrent hqueue =>
    obtain ⟨rfl, rfl⟩ := Prod.mk.injEq .. ▸ Option.some.inj h
    simp [started, posted, hcurrent, hqueue]
  · exact absurd h (by simp)

/-- What ending a job does. -/
theorem finish_eq_some {w w' : Worker J} {j : J} (h : w.finish = some (j, w')) :
    w'.finished = w.finished ++ [j] ∧ w'.started = w.started ∧ w'.posted = w.posted ∧
      w.started = w.finished ++ [j] := by
  obtain ⟨k, hk, h⟩ := Option.map_eq_some_iff.mp h
  obtain ⟨rfl, rfl⟩ := Prod.mk.injEq .. ▸ h
  simp [started, posted, hk]

/-- The steps that are left to the worker. -/
def left (w : Worker J) : ℕ := 2 * w.queue.length + w.current.toList.length

theorem left_post (w : Worker J) (j : J) : (w.post j).left = w.left + 2 := by
  simp only [left, post, List.length_append, List.length_singleton]
  omega

theorem left_of_start {w w' : Worker J} {j : J} (h : w.start = some (j, w')) :
    w'.left + 1 = w.left := by
  unfold start at h
  split at h
  · next queue hcurrent hqueue =>
    obtain ⟨rfl, rfl⟩ := Prod.mk.injEq .. ▸ Option.some.inj h
    simp only [left, hcurrent, hqueue, Option.toList_some, Option.toList_none, List.length_cons,
      List.length_nil]
    omega
  · exact absurd h (by simp)

theorem left_of_finish {w w' : Worker J} {j : J} (h : w.finish = some (j, w')) :
    w'.left + 1 = w.left := by
  obtain ⟨k, hk, h⟩ := Option.map_eq_some_iff.mp h
  obtain ⟨rfl, rfl⟩ := Prod.mk.injEq .. ▸ h
  simp [left, hk]

/-! ### The order of the jobs -/

variable {w : Worker J}

theorem finished_prefix_started : w.finished <+: w.started := List.prefix_append _ _

theorem started_prefix_posted : w.started <+: w.posted := List.prefix_append _ _

theorem finished_prefix_posted : w.finished <+: w.posted :=
  finished_prefix_started.trans started_prefix_posted

/-- What was started before another job is done. -/
theorem prefix_finished {before after : List J} {j : J} (h : w.started = before ++ j :: after) :
    before <+: w.finished := by
  cases hc : w.current with
  | none =>
    rw [started, hc, Option.toList_none, List.append_nil] at h
    exact h ▸ List.prefix_append _ _
  | some k =>
    have hlt : before.length ≤ w.finished.length := by
      have := congrArg List.length h
      simp [started, hc] at this
      omega
    refine List.prefix_of_prefix_length_le ⟨j :: after, h.symm⟩ ?_ hlt
    exact finished_prefix_started

/-- **The worker goes on** unless all jobs are done. -/
theorem goes_on (w : Worker J) :
    w.finished = w.posted ∨ (∃ p, w.start = some p) ∨ ∃ p, w.finish = some p := by
  obtain ⟨finished, current, queue⟩ := w
  cases current with
  | some j => exact Or.inr (Or.inr ⟨_, rfl⟩)
  | none =>
    cases queue with
    | nil => exact Or.inl (by simp [posted, started])
    | cons j queue => exact Or.inr (Or.inl ⟨_, rfl⟩)

/-- When as many jobs are done as were posted, all of them are. -/
theorem finished_eq_of_length (h : w.posted.length ≤ w.finished.length) :
    w.finished = w.posted ∧ w.started = w.posted := by
  have hall : w.finished = w.posted :=
    finished_prefix_posted.eq_of_length (finished_prefix_posted.length_le.antisymm h)
  refine ⟨hall, started_prefix_posted.eq_of_length ?_⟩
  have hle := finished_prefix_started (w := w).length_le
  rw [hall] at hle
  exact started_prefix_posted.length_le.antisymm hle

/-- Before the last job of a client all its other jobs are done. -/
theorem filter_before {p : J → Bool} {jobs before after : List J} {j : J}
    (hposted : w.posted.filter p = jobs ++ [j]) (hj : p j = true) (hnot : j ∉ jobs)
    (h : w.started = before ++ j :: after) : before.filter p = jobs := by
  have hpre : (before.filter p) ++ [j] <+: jobs ++ [j] := by
    have hsub : before ++ [j] <+: w.posted := by
      refine List.IsPrefix.trans ⟨after, ?_⟩ started_prefix_posted
      simp [h]
    have := hsub.filter p
    rwa [List.filter_append, hposted, List.filter_singleton, hj] at this
  -- the job would be among the others if fewer of them had been started
  rcases List.prefix_concat_iff.mp hpre with heq | hlt
  · exact List.append_cancel_right heq
  · exact absurd (hlt.subset (List.mem_append_right _ (List.mem_singleton_self j))) hnot

end Worker

/-! ### The counts of the clients -/

/-- A sum over all clients after one of them has counted further. -/
theorem sum_update {I C : Type*} [Fintype I] [DecidableEq I] (count : C → ℕ) (clients : I → C)
    (i : I) (c : C) {n : ℕ} (h : count c = count (clients i) + n) :
    ∑ k, count (Function.update clients i c k) = ∑ k, count (clients k) + n := by
  have hcomp : ∀ k, count (Function.update clients i c k) =
      Function.update (fun k => count (clients k)) i (count c) k := by
    intro k
    by_cases hk : k = i
    · rw [hk, Function.update_self, Function.update_self]
    · rw [Function.update_of_ne hk, Function.update_of_ne hk]
  rw [Finset.sum_congr rfl fun k _ => hcomp k, Finset.sum_update_of_mem (Finset.mem_univ i), h,
    Finset.sum_eq_add_sum_sdiff_singleton_of_mem (Finset.mem_univ i) fun k => count (clients k)]
  omega

end EveIndustryPlanner
