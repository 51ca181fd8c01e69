import EveIndustryPlanner.Market.Barrier

/-!
# Which types are marked as up to date

The query that marks a type is posted by every request with a response, also if
the body is not JSON, a record is left out or an insertion fails.  So a type is
marked only if its history was saved exactly if there was no response or nothing
failed, and the histories that were not saved are not asked for again.

## Main definitions

* `Setting.inserts`, `Saved` — a record, and the history of a type, are in the table.
* `MarksOnlySaved` — a type is marked only if its history was saved.
* `Setting.Faultless` — no response came, or all of it can be saved.

## Main results

* `mem_outdatedHistories` — which types are out of date.
* `unique_or_elsewhere` — each of them once, or it is out of date elsewhere too.
* `Reachable.db_eq` — the database holds what the queries did one after the other.
* `marksOnlySaved_iff` — **a request marks its type only if the history was
  saved exactly if no response came or all of it can be saved.**
-/

namespace EveIndustryPlanner
namespace Market

/-! ### Types that are out of date -/

theorem mem_outdatedHistories {db : Tables} {now : ℤ} {t : ℕ} :
    t ∈ outdatedHistories db now ↔ t ∈ db.types ∧ ∃ u ∈ db.updates t, outdated now u := by
  simp [outdatedHistories]

/-- What is out of date stays so. -/
theorem outdated_mono {now later : ℤ} (hle : now ≤ later) {u : Option UpdateRow}
    (h : outdated now u = true) : outdated later u = true := by
  cases u with
  | none => rfl
  | some row =>
    have : row.date ≤ now - 86400 := of_decide_eq_true h
    exact decide_eq_true (by omega)

theorem some_mem_updates {db : Tables} {t : ℕ} {row : UpdateRow} :
    some row ∈ db.updates t ↔ row ∈ db.lastHistoryUpdate.rows ∧ row.typeid = (t : ℤ) := by
  have hfilter : row ∈ db.lastHistoryUpdate.rows ∧ row.typeid = (t : ℤ) ↔
      row ∈ db.lastHistoryUpdate.rows.filter fun row => row.typeid = (t : ℤ) := by
    simp [List.mem_filter]
  rw [hfilter, Tables.updates]
  split
  · next h => simp [h]
  · simp

/-- How often a type is asked for. -/
theorem count_outdatedHistories (db : Tables) (now : ℤ) (t : ℕ) :
    (outdatedHistories db now).count t ≤ ((db.updates t).filter (outdated now)).length := by
  have hcount : ∀ types : List ℕ, types.Nodup →
      (types.flatMap fun t => ((db.updates t).filter (outdated now)).map fun _ => t).count t ≤
        ((db.updates t).filter (outdated now)).length := by
    intro types hnodup
    induction types with
    | nil => simp
    | cons t' types ih =>
      obtain ⟨hnot, hnodup⟩ := List.nodup_cons.mp hnodup
      rw [List.flatMap_cons, List.count_append, List.map_const', List.count_replicate]
      by_cases ht : t' = t
      · have hzero : (types.flatMap fun t =>
            ((db.updates t).filter (outdated now)).map fun _ => t).count t = 0 := by
          refine List.count_eq_zero.mpr fun hmem => ?_
          obtain ⟨t'', ht'', hmem⟩ := List.mem_flatMap.mp hmem
          obtain ⟨-, -, rfl⟩ := List.mem_map.mp hmem
          exact hnot (ht ▸ ht'')
        rw [hzero]
        simp [ht]
      · simpa [ht] using ih hnodup
  exact hcount db.types db.nodup

/-- A type is asked for once, unless it is out of date in a region that is not
asked for. -/
theorem unique_or_elsewhere (db : Tables) (now : ℤ) (t : ℕ) :
    (outdatedHistories db now).count t ≤ 1 ∨ ∃ row, some row ∈ db.updates t ∧
      outdated now (some row) ∧ row.region ≠ theForge := by
  by_cases helse : ∃ row, some row ∈ db.updates t ∧ outdated now (some row) ∧
      row.region ≠ theForge
  · exact Or.inr helse
  · refine Or.inl ((count_outdatedHistories db now t).trans ?_)
    have hregion : ∀ row ∈ db.lastHistoryUpdate.rows, row.typeid = (t : ℤ) →
        outdated now (some row) = true → row.region = theForge := by
      intro row hrow ht hdate
      by_contra hne
      exact helse ⟨row, some_mem_updates.mpr ⟨hrow, ht⟩, hdate, hne⟩
    clear helse
    unfold Tables.updates
    split
    · exact List.length_filter_le _ _
    · -- all rows that are left have the same key
      rw [List.filter_map, List.length_map]
      have hkeys : (((db.lastHistoryUpdate.rows.filter fun row => row.typeid = (t : ℤ)).filter
          (outdated now ∘ some)).map UpdateRow.key).Nodup :=
        db.lastHistoryUpdate.nodup.sublist
          ((List.filter_sublist.trans List.filter_sublist).map _)
      have hsame : ∀ k ∈ ((db.lastHistoryUpdate.rows.filter fun row => row.typeid = (t : ℤ)).filter
          (outdated now ∘ some)).map UpdateRow.key, k = ((t : ℤ), theForge) := by
        intro k hk
        obtain ⟨row, hrow, rfl⟩ := List.mem_map.mp hk
        obtain ⟨hrow, hdate⟩ := List.mem_filter.mp hrow
        obtain ⟨hrow, ht⟩ := List.mem_filter.mp hrow
        exact Prod.ext (of_decide_eq_true ht) (hregion row hrow (of_decide_eq_true ht) hdate)
      rwa [List.eq_replicate_of_mem hsame, List.nodup_replicate, List.length_map] at hkeys

/-! ### What the queries do -/

section Queries

variable {ι J : Type} (env : Setting ι J) (db : Tables)

/-- The query of a record puts its row into the table. -/
def Setting.inserts (q : HistoryQuery ι J) : Bool :=
  match q.row with
  | some row => !env.sqlError (.history q) && env.accepts row
  | none => false

/-- What a query does: nothing if it fails, or it changes one of the tables. -/
theorem execute_cases (q : Query ι J) :
    env.execute db q = db ∨
      (∃ row, env.execute db q = { db with history := db.history.insertOrIgnore row }) ∨
      ∃ i, q = .update i ∧ env.execute db q = { db with
        lastHistoryUpdate := db.lastHistoryUpdate.insertOrReplace
          ⟨env.types i, theForge, env.now i⟩ } := by
  cases q with
  | history q =>
    cases hrow : q.row with
    | none => exact Or.inl (by simp [Setting.execute, Setting.run, hrow])
    | some row =>
      by_cases hsql : env.sqlError (.history q) = true
      · exact Or.inl (by simp [Setting.execute, Setting.run, hrow, hsql])
      · by_cases haccepts : env.accepts row = true
        · exact Or.inr (Or.inl ⟨row, by simp [Setting.execute, Setting.run, hrow, hsql, haccepts]⟩)
        · exact Or.inl (by simp [Setting.execute, Setting.run, hrow, hsql, haccepts])
  | update i =>
    cases hbind : bind (env.types i) with
    | none => exact Or.inl (by simp [Setting.execute, Setting.run, hbind])
    | some typeid =>
      obtain rfl := eq_of_bind_eq_some hbind
      by_cases hsql : env.sqlError (.update i) = true
      · exact Or.inl (by simp [Setting.execute, Setting.run, hbind, hsql])
      · exact Or.inr (Or.inr ⟨i, rfl, by simp [Setting.execute, Setting.run, hbind, hsql]⟩)

theorem types_execute (q : Query ι J) : (env.execute db q).types = db.types := by
  obtain h | ⟨row, h⟩ | ⟨i, -, h⟩ := execute_cases env db q <;> rw [h]

/-- Queries of requests for other types leave the rows of a type alone. -/
theorem updates_execute {i : ι} {q : Query ι J}
    (hq : ∀ k, q = .update k → env.types k ≠ env.types i) :
    (env.execute db q).updates (env.types i) = db.updates (env.types i) := by
  obtain h | ⟨row, h⟩ | ⟨k, rfl, h⟩ := execute_cases env db q
  · rw [h]
  · rw [h]
    rfl
  · have hne : (env.types k : ℤ) ≠ env.types i := by
      intro heq
      exact hq k rfl (Int.ofNat_inj.mp heq)
    have hfilter : (db.lastHistoryUpdate.insertOrReplace
        ⟨env.types k, theForge, env.now k⟩).rows.filter (fun row => row.typeid = (env.types i : ℤ)) =
        db.lastHistoryUpdate.rows.filter fun row => row.typeid = (env.types i : ℤ) := by
      refine Table.filter_insertOrReplace fun row hrow => decide_eq_false ?_
      have htypeid : row.typeid = env.types k := congrArg Prod.fst hrow
      rwa [htypeid]
    rw [h]
    simp only [Tables.updates, hfilter]

/-- Rows of other regions stay. -/
theorem mem_rows_execute {row : UpdateRow} (q : Query ι J)
    (hrow : row ∈ db.lastHistoryUpdate.rows) (hregion : row.region ≠ theForge) :
    row ∈ (env.execute db q).lastHistoryUpdate.rows := by
  obtain h | ⟨_, h⟩ | ⟨i, -, h⟩ := execute_cases env db q
  · rwa [h]
  · rwa [h]
  · rw [h]
    exact Table.mem_insertOrReplace hrow fun hkey => hregion (congrArg Prod.snd hkey)

/-- What was found in the table of histories is found there again. -/
theorem find_execute (q : Query ι J) {key : ℤ × ℤ × ℤ} (hkey : (db.history.find key).isSome) :
    ((env.execute db q).history.find key).isSome := by
  obtain h | ⟨row, h⟩ | ⟨i, -, h⟩ := execute_cases env db q
  · rwa [h]
  · rw [h, Table.find_insertOrIgnore]
    split
    · rfl
    · exact hkey
  · rwa [h]

/-- The day of a record that was inserted is found. -/
theorem find_execute_of_inserts {q : HistoryQuery ι J} (h : env.inserts q = true) :
    ∃ row, q.row = some row ∧
      ((env.execute db (.history q)).history.find row.key).isSome := by
  unfold Setting.inserts at h
  split at h
  · next row hrow =>
    obtain ⟨hsql, haccepts⟩ := Bool.and_eq_true_iff.mp h
    have hsql : env.sqlError (.history q) = false := by simpa using hsql
    have hexecute : env.execute db (.history q) =
        { db with history := db.history.insertOrIgnore row } := by
      simp [Setting.execute, Setting.run, hrow, hsql, haccepts]
    refine ⟨row, hrow, ?_⟩
    rw [hexecute, Table.find_insertOrIgnore, if_pos rfl]
    rfl
  · exact absurd h Bool.false_ne_true

/-! ### What many queries do -/

variable {env db}

/-- A type that no query has marked has the rows it had. -/
theorem updates_foldl {i : ι} {qs : List (Query ι J)}
    (hqs : ∀ k, .update k ∈ qs → env.types k ≠ env.types i) :
    (qs.foldl env.execute db).updates (env.types i) = db.updates (env.types i) := by
  induction qs generalizing db with
  | nil => rfl
  | cons q qs ih =>
    rw [List.foldl_cons, ih fun k hk => hqs k (List.mem_cons_of_mem q hk), updates_execute]
    rintro k rfl
    exact hqs k List.mem_cons_self

theorem mem_rows_foldl {row : UpdateRow} (qs : List (Query ι J))
    (hrow : row ∈ db.lastHistoryUpdate.rows) (hregion : row.region ≠ theForge) :
    row ∈ (qs.foldl env.execute db).lastHistoryUpdate.rows := by
  induction qs generalizing db with
  | nil => exact hrow
  | cons q qs ih => exact ih (mem_rows_execute env db q hrow hregion)

theorem types_foldl (qs : List (Query ι J)) : (qs.foldl env.execute db).types = db.types := by
  induction qs generalizing db with
  | nil => rfl
  | cons q qs ih => rw [List.foldl_cons, ih, types_execute]

/-- The day of a record whose query was among them is found. -/
theorem find_foldl (db : Tables) {qs : List (Query ι J)} {q : HistoryQuery ι J}
    (hq : .history q ∈ qs) (h : env.inserts q = true) :
    ∃ row, q.row = some row ∧ ((qs.foldl env.execute db).history.find row.key).isSome := by
  have hkeep : ∀ (qs : List (Query ι J)) (db : Tables) {key : ℤ × ℤ × ℤ},
      (db.history.find key).isSome → ((qs.foldl env.execute db).history.find key).isSome := by
    intro qs
    induction qs with
    | nil => exact fun _ _ h => h
    | cons q' qs ih => exact fun db _ h => ih _ (find_execute env db q' h)
  obtain ⟨before, after, rfl⟩ := List.append_of_mem hq
  obtain ⟨row, hrow, hfind⟩ := find_execute_of_inserts env (before.foldl env.execute db) h
  exact ⟨row, hrow, by rw [List.foldl_append, List.foldl_cons]; exact hkeep _ _ hfind⟩

end Queries

/-! ### Marked and saved -/

section Marks

variable {ι J : Type} [Json J]

/-- The response has a body that is JSON. -/
def Setting.IsJson (env : Setting ι J) (i : ι) : Prop :=
  ∃ body, env.body i = some body ∧ (parse body : Option J).isSome

/-- The history of a type was saved: the body was JSON, and each of its records was
inserted, so that its day is found. -/
structure Saved (env : Setting ι J) (s : State ι J) (i : ι) : Prop where
  json : env.IsJson i
  record : ∀ place item, ((env.records i).getD [])[place]? = some item →
    ∃ q row, HistoryQuery.make i (env.types i) place item = some q ∧
      .history q ∈ s.writer.finished ∧ env.inserts q = true ∧ q.row = some row ∧
        (s.db.history.find row.key).isSome

/-- The request marks its type only if the history was saved; otherwise the type is
still asked for. -/
structure MarksOnlySaved (env : Setting ι J) (start : ℤ) (s : State ι J) (i : ι) : Prop where
  saved : .update i ∈ s.writer.started → Saved env s i
  outdated : ¬ Saved env s i → ∀ later, start ≤ later →
    env.types i ∈ outdatedHistories s.db later

/-- No response came, or its body is JSON and the query of each record can be made
and executed. -/
def Setting.Faultless (env : Setting ι J) (i : ι) : Prop :=
  env.body i = none ∨ env.IsJson i ∧
    ∀ place item, ((env.records i).getD [])[place]? = some item →
      ∃ q, HistoryQuery.make i (env.types i) place item = some q ∧ env.inserts q = true

variable {env : Setting ι J} {db : Tables} {s : State ι J} {i : ι}

/-- What was saved was without faults. -/
theorem Saved.faultless (h : Saved env s i) : env.Faultless i := by
  refine Or.inr ⟨h.json, ?_⟩
  intro place item hitem
  obtain ⟨q, row, hmake, -, hinserts, -⟩ := h.record place item hitem
  exact ⟨q, hmake, hinserts⟩

/-- The query of a record is among those of the request. -/
theorem mem_queries {records : List J} {place : ℕ} {item : J} {q : HistoryQuery ι J}
    (hitem : records[place]? = some item)
    (hmake : HistoryQuery.make i (env.types i) place item = some q) :
    q ∈ env.queries i records :=
  List.mem_filterMap.mpr ⟨(item, place), List.mem_zipIdx_iff_getElem?.mpr hitem, hmake⟩

variable [DecidableEq ι]

/-- The database holds what the queries did one after the other. -/
theorem Reachable.db_eq (h : Reachable env db s) : s.db = s.writer.started.foldl env.execute db := by
  refine h.keeps (p := fun s => s.db = s.writer.started.foldl env.execute db) rfl
    fun s s' a _ ih hstep => ?_
  obtain ⟨k, e, rfl, he, rfl⟩ | ⟨q, writer, rfl, hq, rfl⟩ | ⟨q, writer, rfl, hq, rfl⟩ :=
    step_cases hstep
  · simpa using ih
  · obtain ⟨-, hstarted, -⟩ := Worker.start_eq_some hq
    simp [hstarted, ← ih]
  · obtain ⟨-, hstarted, -⟩ := Worker.finish_eq_some hq
    simpa [hstarted] using ih

/-- A type that its request has not marked is still asked for: it has no other
request, or it is out of date in another region as well. -/
theorem Reachable.mem_outdatedHistories {n : ℕ} {env : Setting (Fin n) J} {s : State (Fin n) J}
    (h : Reachable env db s) {start later : ℤ}
    (htypes : List.ofFn env.types = outdatedHistories db start) (hle : start ≤ later) {i : Fin n}
    (hupdate : .update i ∉ s.writer.started) :
    env.types i ∈ outdatedHistories s.db later := by
  have hi : env.types i ∈ outdatedHistories db start := by
    rw [← htypes]
    exact List.mem_ofFn.mpr ⟨i, rfl⟩
  obtain ⟨htype, u, hu, hdate⟩ := Market.mem_outdatedHistories.mp hi
  rw [h.db_eq]
  refine Market.mem_outdatedHistories.mpr ⟨by rwa [types_foldl], ?_⟩
  obtain hcount | ⟨row, hrow, hdate, hregion⟩ :=
    unique_or_elsewhere db start (env.types i)
  · refine ⟨u, ?_, outdated_mono hle hdate⟩
    rwa [updates_foldl]
    -- another request for the type would be a second place in the list
    intro k hk heq
    have hki : k ≠ i := by
      rintro rfl
      exact hupdate hk
    have hdup : List.Duplicate (env.types i) (List.ofFn env.types) := by
      rw [List.duplicate_iff_exists_distinct_get]
      have hcast : n = (List.ofFn env.types).length := by simp
      rcases lt_or_gt_of_ne hki with hlt | hlt
      · exact ⟨k.cast hcast, i.cast hcast, hlt, by simp [heq], by simp⟩
      · exact ⟨i.cast hcast, k.cast hcast, hlt, by simp, by simp [heq]⟩
    rw [htypes] at hdup
    have := List.duplicate_iff_two_le_count.mp hdup
    omega
  · obtain ⟨hrow, ht⟩ := some_mem_updates.mp hrow
    exact ⟨some row, some_mem_updates.mpr ⟨mem_rows_foldl _ hrow hregion, ht⟩,
      outdated_mono hle hdate⟩

/-- The query that marks a type is executed for a response only, when all queries
of its records are done. -/
theorem Reachable.queries_of_update (h : Reachable env db s)
    (hupdate : .update i ∈ s.writer.started) :
    ∃ records, env.records i = some records ∧
      ∀ q ∈ env.queries i records, .history q ∈ s.writer.finished := by
  have hmem : .update i ∈ s.postedOf i :=
    List.mem_filter.mpr ⟨Worker.started_prefix_posted.subset hupdate, decide_eq_true rfl⟩
  obtain ⟨records, hrecords, hqueries⟩ := (h.inv i).queries_of_update hmem
  refine ⟨records, hrecords, fun q hq => ?_⟩
  obtain ⟨before, after, hstarted⟩ := List.append_of_mem hupdate
  have hposted := (h.inv i).posted_of_update hmem
  have hbefore := Worker.filter_before hposted (decide_eq_true rfl) (by simp) hstarted
  have hq : Query.history q ∈ before.filter (Query.isOf i) := by
    rw [hbefore, hqueries]
    exact List.mem_map_of_mem hq
  exact (Worker.prefix_finished hstarted).subset (List.mem_filter.mp hq).1

/-- Without faults the history was saved when the type is marked. -/
theorem Reachable.saved (h : Reachable env db s) (hfaultless : env.Faultless i)
    (hupdate : .update i ∈ s.writer.started) : Saved env s i := by
  obtain ⟨records, hrecords, hfinished⟩ := h.queries_of_update hupdate
  obtain hbody | ⟨hjson, hall⟩ := hfaultless
  · simp [Setting.records, hbody] at hrecords
  · refine ⟨hjson, fun place item hitem => ?_⟩
    obtain ⟨q, hmake, hinserts⟩ := hall place item hitem
    rw [hrecords, Option.getD_some] at hitem
    have hq := hfinished q (mem_queries hitem hmake)
    obtain ⟨row, hrow, hfind⟩ := find_foldl db
      (Worker.finished_prefix_started.subset hq) hinserts
    exact ⟨q, row, hmake, hq, hinserts, hrow, by rwa [h.db_eq]⟩

end Marks

/-- **A request marks its type only if the history was saved exactly if no response
came or all of it can be saved.** -/
theorem marksOnlySaved_iff {J : Type} [Json J] {n : ℕ} {env : Setting (Fin n) J} {db : Tables}
    {start : ℤ} (htypes : List.ofFn env.types = outdatedHistories db start) {s : State (Fin n) J}
    (h : Reachable env db s) (i : Fin n) :
    (env.Faultless i → MarksOnlySaved env start s i) ∧
      ((s.requests i).phase.isFinished → (MarksOnlySaved env start s i ↔ env.Faultless i)) := by
  have henough : env.Faultless i → MarksOnlySaved env start s i := by
    intro hfaultless
    refine ⟨h.saved hfaultless, fun hsaved later hle => ?_⟩
    exact h.mem_outdatedHistories htypes hle fun hupdate => hsaved (h.saved hfaultless hupdate)
  refine ⟨henough, fun hfinished => ⟨fun hmarks => ?_, henough⟩⟩
  -- with a response the type was marked, so its history was saved
  cases hbody : env.body i with
  | none => exact Or.inl hbody
  | some body =>
    have hended : (s.requests i).phase.Ended := by
      cases hphase : (s.requests i).phase <;> simp_all [Phase.isFinished, Phase.Ended]
    have hupdate := (h.inv i).update_of_ended hended (by rw [hbody]; rfl)
    have hstarted := Worker.finished_prefix_started.subset (List.mem_filter.mp hupdate).1
    exact (hmarks.saved hstarted).faultless

/-- The two requests are those for the types of the sample that are out of date. -/
theorem sampleSetting_types :
    List.ofFn sampleSetting.types = outdatedHistories sampleTables 1472688000 := by decide +kernel

/-- The request without a response leaves its type alone. -/
theorem marksOnlySaved_iff_sample : ∃ s : State (Fin 2) Value,
    Reachable sampleSetting sampleTables s ∧
      ((sampleSetting.Faultless 1 →
          MarksOnlySaved sampleSetting 1472688000 s 1) ∧
        ((s.requests 1).phase.isFinished →
          (MarksOnlySaved sampleSetting 1472688000 s 1 ↔ sampleSetting.Faultless 1))) := by
  obtain ⟨s, hs, -⟩ := exists_sampleRun
  exact ⟨s, hs, marksOnlySaved_iff sampleSetting_types hs 1⟩

/-- A type is marked although one of the two records of its response was left out. -/
theorem marks_unsaved : ∃ s : State (Fin 2) Value,
    Reachable sampleSetting sampleTables s ∧ (s.requests 0).phase.isFinished ∧
      sampleSetting.response 0 = .response 200 Value.historyBody ∧
        outdatedHistories s.db 1472688001 = [35] ∧
          ¬ MarksOnlySaved sampleSetting 1472688000 s 0 := by
  obtain ⟨s, hs, hfinished, houtdated⟩ := exists_sampleRun
  refine ⟨s, hs, hfinished 0, rfl, houtdated, fun hmarks => ?_⟩
  have hunsaved : ¬ Saved sampleSetting s 0 := by
    intro hsaved
    obtain ⟨q, row, hmake, -⟩ := hsaved.record 1 (.object []) rfl
    have hnone : (HistoryQuery.make (0 : Fin 2) (sampleSetting.types 0) 1 (Value.object [])).isSome =
        false := by decide +kernel
    rw [hmake] at hnone
    exact absurd hnone (by simp)
  have hmem := hmarks.outdated hunsaved 1472688001 (by omega)
  rw [houtdated] at hmem
  exact absurd hmem (by decide)

end Market
end EveIndustryPlanner
