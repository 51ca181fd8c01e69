import EveIndustryPlanner.Market.Histories

/-!
# Waiting for the queries of a request

A request waits until its lock is as high as the number of its queries.  This is
right because each query releases the lock once, after it was counted: the lock
of a request counts those of its queries that the connection is done with, and
these are always a prefix of those that were posted.

## Main definitions

* `Query.isOf` — the queries of a request.
* `Phase.updates`, `Phase.Reads` — what a request has posted in each phase.
* `Request.Inv` — the invariant of a request.
* `Barrier` — what the waiting is for.

## Main results

* `Request.Inv.step`, `Request.Inv.release` — the invariant is kept.
* `Reachable.inv` — every request has it in every state that can be reached.
* `barrier` — **the waiting of all requests is right, and each releases the
  semaphore of the handler once.**
-/

namespace EveIndustryPlanner
namespace Market

variable {ι J : Type}

/-- The queries of a request. -/
def Query.isOf [DecidableEq ι] (i : ι) (q : Query ι J) : Bool := q.parent = i

/-- The records of the response to a request. -/
def Setting.records [Json J] (env : Setting ι J) (i : ι) : Option (List J) :=
  (env.body i).map (readItems J)

/-- The queries that are made of some records; a record whose query cannot be
constructed has none. -/
def Setting.queries [Json J] (env : Setting ι J) (i : ι) (records : List J) :
    List (HistoryQuery ι J) :=
  records.zipIdx.filterMap fun r => HistoryQuery.make i (env.types i) r.2 r.1

namespace Phase

/-- The query that marks the type, once it was posted. -/
def updates (env : Setting ι J) (i : ι) : Phase J → List (Query ι J)
  | secondWait => [.update i]
  | finalizing | finished => if (env.body i).isSome then [.update i] else []
  | _ => []

/-- The first `waitFor` is behind the request, if there was one. -/
def Passed : Phase J → Prop
  | updating | secondWait | finalizing | finished => True
  | _ => False

/-- All waiting is behind the request. -/
def Ended : Phase J → Prop
  | finalizing | finished => True
  | _ => False

/-- The queries that a request has made of its records. -/
def Reads [Json J] (env : Setting ι J) (i : ι) (queries : List (HistoryQuery ι J)) :
    Phase J → Prop
  | waiting => queries = []
  | posting place rest => ∃ before, env.records i = some (before ++ rest) ∧
      before.length = place ∧ queries = env.queries i before
  | firstWait | updating | secondWait => ∃ records, env.records i = some records ∧
      queries = env.queries i records
  | finalizing | finished => queries = env.queries i ((env.records i).getD [])

/-- The request has ended. -/
def isFinished : Phase J → Bool
  | finished => true
  | _ => false

end Phase

/-! ### The invariant of a request -/

/-- The invariant of a request, given those of its queries that were posted and
those the connection is done with. -/
structure Request.Inv [Json J] (env : Setting ι J) (i : ι) (r : Request ι J)
    (posted finished : List (Query ι J)) : Prop where
  reads : r.phase.Reads env i r.queries
  posted_eq : posted = r.queries.map .history ++ r.phase.updates env i
  lock_eq : r.lock = finished.length
  passed : r.phase.Passed → r.queries.map .history <+: finished
  ended : r.phase.Ended → finished = posted
  released_eq : r.released = if r.phase.isFinished then 1 else 0

section Queries

variable [Json J]

/-- The queries of one more record. -/
theorem Setting.queries_concat (env : Setting ι J) (i : ι) (records : List J) (item : J) :
    env.queries i (records ++ [item]) =
      env.queries i records ++ (HistoryQuery.make i (env.types i) records.length item).toList := by
  unfold queries
  generalize (HistoryQuery.make i (env.types i) : ℕ → J → Option (HistoryQuery ι J)) = make
  rw [List.zipIdx_append, List.filterMap_append]
  cases h : make records.length item <;> simp [h]

/-- A query that is constructed knows its request. -/
theorem HistoryQuery.parent_of_make {i : ι} {type place : ℕ} {item : J} {q : HistoryQuery ι J}
    (h : HistoryQuery.make i type place item = some q) : q.parent = i := by
  simp only [HistoryQuery.make, Option.bind_eq_bind, Option.bind_eq_some_iff, Option.pure_def,
    Option.some.injEq] at h
  grind

end Queries

variable [Json J] {env : Setting ι J} {i : ι} {r : Request ι J}
  {posted finished : List (Query ι J)}

namespace Request.Inv

/-- Nothing has happened to a request that was sent. -/
theorem sent : (Request.sent : Request ι J).Inv env i [] [] :=
  ⟨rfl, rfl, rfl, False.elim, False.elim, rfl⟩

/-- When as many queries are done as were posted, all of them are. -/
theorem finished_eq_of_lock (h : r.Inv env i posted finished) (hpre : finished <+: posted)
    (hn : r.lock = posted.length) : finished = posted :=
  hpre.eq_of_length (h.lock_eq.symm.trans hn)

/-- The thread that handles a request keeps the invariant. -/
theorem step {e : Effect ι J} (h : r.Inv env i posted finished) (hpre : finished <+: posted)
    (hstep : r.step env i = some e) : e.request.Inv env i (posted ++ e.posts) finished := by
  have hall := h.finished_eq_of_lock hpre
  obtain ⟨phase, queries, lock, released⟩ := r
  obtain ⟨hreads, hposted, hlock, hpassed, hended, hreleased⟩ := h
  cases phase <;> simp only [Request.step] at hstep
  case waiting =>
    -- nothing was posted and nothing is made yet
    obtain rfl : queries = [] := hreads
    obtain rfl : posted = [] := hposted
    obtain rfl := List.prefix_nil.mp hpre
    cases hbody : env.body i with
    | some body =>
      rw [hbody] at hstep
      obtain rfl := Option.some.inj hstep
      exact ⟨⟨[], by simp [Setting.records, hbody], rfl, rfl⟩, rfl, hlock, False.elim, False.elim,
        hreleased⟩
    | none =>
      rw [hbody] at hstep
      obtain rfl := Option.some.inj hstep
      refine ⟨?_, ?_, hlock, fun _ => List.prefix_rfl, fun _ => rfl, hreleased⟩
      · simp [Phase.Reads, Setting.records, hbody, Setting.queries]
      · simp [Phase.updates, hbody]
  case posting place rest =>
    obtain ⟨before, hrecords, rfl, rfl⟩ := hreads
    cases rest with
    | nil =>
      obtain rfl := Option.some.inj hstep
      rw [List.append_nil] at hrecords ⊢
      exact ⟨⟨before, hrecords, rfl⟩, hposted, hlock, False.elim, False.elim, hreleased⟩
    | cons item rest =>
      have hconcat := env.queries_concat i before item
      have hrecords' : env.records i = some ((before ++ [item]) ++ rest) := by simpa using hrecords
      cases hmake : HistoryQuery.make i (env.types i) before.length item with
      | some q =>
        -- the query is counted in the step that posts it
        simp only [hmake] at hstep
        obtain rfl := Option.some.inj hstep
        rw [hmake, Option.toList_some] at hconcat
        refine ⟨⟨before ++ [item], hrecords', by simp, hconcat.symm⟩, ?_, hlock, False.elim,
          False.elim, hreleased⟩
        simp [hposted, Phase.updates]
      | none =>
        simp only [hmake] at hstep
        obtain rfl := Option.some.inj hstep
        rw [hmake, Option.toList_none, List.append_nil] at hconcat
        rw [List.append_nil]
        exact ⟨⟨before ++ [item], hrecords', by simp, hconcat.symm⟩, hposted, hlock, False.elim,
          False.elim, hreleased⟩
  case firstWait =>
    split at hstep
    · next hn =>
      obtain rfl := Option.some.inj hstep
      rw [List.append_nil]
      refine ⟨hreads, hposted, hlock, fun _ => ?_, False.elim, hreleased⟩
      rw [hall (by simpa [hposted, Phase.updates] using hn), hposted]
      exact List.prefix_append _ _
    · exact absurd hstep (by simp)
  case updating =>
    obtain rfl := Option.some.inj hstep
    refine ⟨hreads, ?_, hlock, fun _ => hpassed trivial, False.elim, hreleased⟩
    simp [hposted, Phase.updates]
  case secondWait =>
    split at hstep
    · next hn =>
      obtain rfl := Option.some.inj hstep
      rw [List.append_nil]
      obtain ⟨records, hrecords, hqueries⟩ := hreads
      have hbody : (env.body i).isSome := by
        cases hbody : env.body i with
        | some body => rfl
        | none => simp [Setting.records, hbody] at hrecords
      refine ⟨by rw [Phase.Reads, hrecords]; exact hqueries, ?_, hlock, fun _ => hpassed trivial,
        fun _ => ?_, hreleased⟩
      · simpa [Phase.updates, hbody] using hposted
      · exact hall (by simpa [hposted, Phase.updates] using hn)
    · exact absurd hstep (by simp)
  case finalizing =>
    obtain rfl := Option.some.inj hstep
    rw [List.append_nil]
    refine ⟨hreads, hposted, hlock, fun _ => hpassed trivial, fun _ => hended trivial, ?_⟩
    simpa [Phase.isFinished] using hreleased
  case finished => exact absurd hstep (by simp)

/-- A query of the request that releases the lock keeps the invariant. -/
theorem release {q : Query ι J} (h : r.Inv env i posted finished)
    (hpre : finished ++ [q] <+: posted) :
    Request.Inv env i { r with lock := r.lock + 1 } posted (finished ++ [q]) where
  reads := h.reads
  posted_eq := h.posted_eq
  lock_eq := by simp [h.lock_eq]
  passed hpassed := (h.passed hpassed).trans (List.prefix_append _ _)
  ended hended := by
    -- all were done before
    have := hpre.length_le
    simp [h.ended hended] at this
  released_eq := h.released_eq

/-- The query that marks the type is none of those of the records. -/
theorem mem_updates (h : r.Inv env i posted finished) (hupdate : .update i ∈ posted) :
    .update i ∈ r.phase.updates env i := by
  rw [h.posted_eq] at hupdate
  simpa using hupdate

/-- If the query that marks the type was posted, it was posted behind all others. -/
theorem posted_of_update (h : r.Inv env i posted finished)
    (hupdate : .update i ∈ posted) : posted = r.queries.map .history ++ [.update i] := by
  have hmem := h.mem_updates hupdate
  rw [h.posted_eq]
  congr 1
  cases hphase : r.phase <;> rw [hphase] at hmem <;>
    simp only [Phase.updates, List.not_mem_nil] at hmem ⊢
  all_goals grind

/-- The query that marks the type is posted for a response only, when the queries of
all records were made. -/
theorem queries_of_update (h : r.Inv env i posted finished) (hupdate : .update i ∈ posted) :
    ∃ records, env.records i = some records ∧ r.queries = env.queries i records := by
  have hmem := h.mem_updates hupdate
  have hreads := h.reads
  have hended : (env.body i).isSome → r.queries = env.queries i ((env.records i).getD []) →
      ∃ records, env.records i = some records ∧ r.queries = env.queries i records := by
    intro hbody hqueries
    obtain ⟨body, hbody⟩ := Option.isSome_iff_exists.mp hbody
    have hrecords : env.records i = some (readItems J body) := by simp [Setting.records, hbody]
    exact ⟨readItems J body, hrecords, by simpa [hrecords] using hqueries⟩
  cases hphase : r.phase <;> rw [hphase] at hmem hreads <;>
    simp only [Phase.updates, List.not_mem_nil] at hmem
  case secondWait => exact hreads
  case finalizing => exact hended (by grind) hreads
  case finished => exact hended (by grind) hreads

/-- When a request with a response has ended, its type was marked, or it was tried. -/
theorem update_of_ended (h : r.Inv env i posted finished) (hended : r.phase.Ended)
    (hbody : (env.body i).isSome) : .update i ∈ finished := by
  rw [h.ended hended, h.posted_eq]
  apply List.mem_append_right _
  cases hphase : r.phase <;> rw [hphase] at hended <;> simp_all [Phase.updates, Phase.Ended]

end Request.Inv

/-- A request posts queries of its own only. -/
theorem Request.parent_of_step {e : Effect ι J} (h : r.step env i = some e) :
    ∀ q ∈ e.posts, q.parent = i := by
  obtain ⟨phase, queries, lock, released⟩ := r
  cases phase <;> simp only [Request.step] at h
  case posting place rest =>
    cases rest with
    | nil =>
      obtain rfl := Option.some.inj h
      simp
    | cons item rest =>
      cases hmake : HistoryQuery.make i (env.types i) place item with
      | some q =>
        simp only [hmake] at h
        obtain rfl := Option.some.inj h
        simpa [Query.parent] using HistoryQuery.parent_of_make hmake
      | none =>
        simp only [hmake] at h
        obtain rfl := Option.some.inj h
        simp
  case updating =>
    obtain rfl := Option.some.inj h
    simp [Query.parent]
  all_goals grind

/-- How often a request releases the semaphore of the handler. -/
theorem Request.released_of_step {e : Effect ι J} (h : r.step env i = some e) :
    e.request.released = r.released + e.releases := by
  obtain ⟨phase, queries, lock, released⟩ := r
  cases phase <;> simp only [Request.step] at h <;> grind

/-! ### All requests -/

section Filters

omit [Json J]

variable [DecidableEq ι]

/-- The queries of a request that were posted. -/
def State.postedOf (s : State ι J) (i : ι) : List (Query ι J) := s.writer.posted.filter (Query.isOf i)

/-- The queries of a request the connection is done with. -/
def State.finishedOf (s : State ι J) (i : ι) : List (Query ι J) :=
  s.writer.finished.filter (Query.isOf i)

theorem State.finishedOf_isPrefix (s : State ι J) (i : ι) : s.finishedOf i <+: s.postedOf i :=
  Worker.finished_prefix_posted.filter _

/-- One request posts nothing for another. -/
theorem filter_posts_of_ne {posts : List (Query ι J)} {k : ι} (hne : k ≠ i)
    (hposts : ∀ q ∈ posts, q.parent = i) : posts.filter (Query.isOf k) = [] := by
  rw [List.filter_eq_nil_iff]
  intro q hq hk
  exact hne ((of_decide_eq_true hk).symm.trans (hposts q hq))

theorem filter_posts_self {posts : List (Query ι J)}
    (hposts : ∀ q ∈ posts, q.parent = i) : posts.filter (Query.isOf i) = posts :=
  List.filter_eq_self.mpr fun q hq => decide_eq_true (hposts q hq)

end Filters

variable [DecidableEq ι] {s s' : State ι J} {db : Tables}

/-- What a step can do. -/
theorem step_cases {a : Action ι} (h : step env s a = some s') :
    (∃ i e, a = .request i ∧ (s.requests i).step env i = some e ∧
      s' = ⟨Function.update s.requests i e.request, e.posts.foldl Worker.post s.writer, s.db,
        s.count + e.releases⟩) ∨
    (∃ q writer, a = .execute ∧ s.writer.start = some (q, writer) ∧
      s' = ⟨s.requests, writer, env.execute s.db q, s.count⟩) ∨
    (∃ q writer, a = .release ∧ s.writer.finish = some (q, writer) ∧
      s' = ⟨Function.update s.requests q.parent
        { s.requests q.parent with lock := (s.requests q.parent).lock + 1 }, writer, s.db,
          s.count⟩) := by
  cases a with
  | request i =>
    obtain ⟨e, he, h⟩ := Option.bind_eq_some_iff.mp h
    exact Or.inl ⟨i, e, rfl, he, (Option.some.inj h).symm⟩
  | execute =>
    obtain ⟨⟨q, writer⟩, hq, h⟩ := Option.bind_eq_some_iff.mp h
    exact Or.inr (Or.inl ⟨q, writer, rfl, hq, (Option.some.inj h).symm⟩)
  | release =>
    obtain ⟨⟨q, writer⟩, hq, h⟩ := Option.bind_eq_some_iff.mp h
    exact Or.inr (Or.inr ⟨q, writer, rfl, hq, (Option.some.inj h).symm⟩)

/-- Every request has the invariant in every state that can be reached. -/
theorem Reachable.inv (h : Reachable env db s) (i : ι) :
    (s.requests i).Inv env i (s.postedOf i) (s.finishedOf i) := by
  refine h.keeps (p := fun s => (s.requests i).Inv env i (s.postedOf i) (s.finishedOf i))
    Request.Inv.sent fun s s' a _ ih hstep => ?_
  obtain ⟨k, e, rfl, he, rfl⟩ | ⟨q, writer, rfl, hq, rfl⟩ | ⟨q, writer, rfl, hq, rfl⟩ :=
    step_cases hstep
  · have hposts := Request.parent_of_step he
    by_cases hik : i = k
    · subst hik
      have := ih.step (s.finishedOf_isPrefix i) he
      simpa [State.postedOf, State.finishedOf, filter_posts_self hposts] using this
    · simpa [State.postedOf, State.finishedOf, hik, filter_posts_of_ne hik hposts] using ih
  · obtain ⟨hfinished, -, hposted⟩ := Worker.start_eq_some hq
    simpa [State.postedOf, State.finishedOf, hfinished, hposted] using ih
  · obtain ⟨hfinished, hstarted, hposted, hcurrent⟩ := Worker.finish_eq_some hq
    by_cases hik : i = q.parent
    · have hpre : s.finishedOf i ++ [q] <+: s.postedOf i := by
        have := Worker.started_prefix_posted (w := s.writer)
        rw [hcurrent] at this
        simpa [State.finishedOf, State.postedOf, Query.isOf, hik] using this.filter (Query.isOf i)
      have := ih.release hpre
      simpa [State.postedOf, State.finishedOf, hfinished, hposted, hik, Query.isOf] using this
    · simpa [State.postedOf, State.finishedOf, hfinished, hposted, hik, Query.isOf, Ne.symm hik]
        using ih

/-- The count of the handler's semaphore. -/
theorem Reachable.count_eq [Fintype ι] (h : Reachable env db s) :
    s.count = ∑ i, (s.requests i).released := by
  refine h.keeps (p := fun s => s.count = ∑ i, (s.requests i).released)
    (by simp [State.init, Request.sent]) fun s s' a _ ih hstep => ?_
  obtain ⟨k, e, rfl, he, rfl⟩ | ⟨q, writer, rfl, hq, rfl⟩ | ⟨q, writer, rfl, hq, rfl⟩ :=
    step_cases hstep
  · have hsum := sum_update Request.released s.requests k e.request (Request.released_of_step he)
    exact (congrArg (· + e.releases) ih).trans hsum.symm
  · exact ih
  · have hsum := sum_update Request.released s.requests q.parent
      { s.requests q.parent with lock := (s.requests q.parent).lock + 1 } (n := 0) rfl
    exact ih.trans hsum.symm

/-! ### The waiting -/

/-- What the waiting of the requests is for. -/
structure Barrier [Fintype ι] (s : State ι J) : Prop where
  /-- No lock counts a query that was not posted. -/
  lock_le : ∀ i, (s.requests i).lock ≤ (s.postedOf i).length
  /-- Behind the first waiting, all queries of the request have run or reported an
  error. -/
  passed : ∀ i, (s.requests i).phase.Passed →
    ∀ q ∈ (s.requests i).queries, .history q ∈ s.writer.finished
  /-- The type is marked when the queries of its request are done, each once. -/
  update_last : ∀ i before after, s.writer.started = before ++ .update i :: after →
    before <+: s.writer.finished ∧
      before.filter (Query.isOf i) = (s.requests i).queries.map .history
  /-- A request that has ended released the semaphore of the handler once. -/
  released : ∀ i, (s.requests i).released = if (s.requests i).phase.isFinished then 1 else 0
  count : s.count = (Finset.univ.filter fun i => (s.requests i).phase.isFinished).card

/-- The waiting of all requests is right, and each releases the semaphore of the
handler once. -/
theorem barrier [Fintype ι] (h : Reachable env db s) : Barrier s where
  lock_le i := by
    rw [(h.inv i).lock_eq]
    exact (s.finishedOf_isPrefix i).length_le
  passed i hi q hq := by
    have := ((h.inv i).passed hi).subset (List.mem_map_of_mem hq)
    exact (List.mem_filter.mp this).1
  update_last i before after hstarted := by
    refine ⟨Worker.prefix_finished hstarted, ?_⟩
    have hmem : Query.update i ∈ s.writer.posted := by
      apply Worker.started_prefix_posted.subset
      rw [hstarted]
      exact List.mem_append_right _ List.mem_cons_self
    have hposted := (h.inv i).posted_of_update (List.mem_filter.mpr ⟨hmem, decide_eq_true rfl⟩)
    exact Worker.filter_before hposted (decide_eq_true rfl) (by simp) hstarted
  released i := (h.inv i).released_eq
  count := by
    rw [h.count_eq, Finset.card_filter]
    exact Finset.sum_congr rfl fun i _ => (h.inv i).released_eq

/-! ### A run of two requests -/

/-- The first request is answered, the second is not. -/
def sampleSetting : Setting (Fin 2) Value where
  types i := 34 + i
  response i := if i = 0 then .response 200 Value.historyBody else .failure
  sqlError _ := false
  accepts _ := true
  now _ := 1472688000

/-- Two types without histories. -/
def sampleTables : Tables := ⟨[34, 35], by decide, .empty, .empty⟩

/-- The steps of the two requests and of the connection. -/
def sampleSteps : List (Action (Fin 2)) :=
  [.request 0, .request 0, .request 1, .execute, .request 0, .release, .request 0, .request 0,
    .request 1, .request 0, .execute, .release, .request 0, .request 0]

/-- The run of the two requests gets to its end and leaves the second type out of
date. -/
theorem exists_sampleRun : ∃ s : State (Fin 2) Value, Reachable sampleSetting sampleTables s ∧
    (∀ i, (s.requests i).phase.isFinished) ∧ outdatedHistories s.db 1472688001 = [35] := by
  have hrun : ((sampleSteps.foldlM (step sampleSetting)
      (State.init (J := Value) sampleTables)).map fun s =>
        decide ((∀ i, (s.requests i).phase.isFinished) ∧
          outdatedHistories s.db 1472688001 = [35])) = some true := by decide +kernel
  obtain ⟨s, hs, hfinal⟩ := Option.map_eq_some_iff.mp hrun
  exact ⟨s, Steps.init.run hs, of_decide_eq_true hfinal⟩

/-- Both requests have ended and the handler has counted them. -/
theorem barrier_sample : ∃ s : State (Fin 2) Value, Reachable sampleSetting sampleTables s ∧
    (∀ i, (s.requests i).phase.isFinished) ∧ Barrier s := by
  obtain ⟨s, hs, hfinished, -⟩ := exists_sampleRun
  exact ⟨s, hs, hfinished, barrier hs⟩

end Market
end EveIndustryPlanner
