import EveIndustryPlanner.Emdr.HaulData
import EveIndustryPlanner.Lib.Latest

/-!
# The age of rowsets

A rowset should be too old only if one of its own region and type that is not older was
applied before, so that for each region and type the newest rowset is stored.  Since any
type of the region may answer for another one, and since the rows of all rowsets are in
one table, this takes some luck with what arrives.

## Main definitions

* `Run`, `Reaches` — runs over the rowsets of messages; one that throws is the last.
* `Decided` — rowsets are too old if their own region and type says so.
* `Stored` — the tables hold the newest rowset of each region and type, and nothing else.
* `Aligned`, `Fits`, `Admits` — what the rowsets before leave room for.

## Main results

* `fits_of_known` — what fits if regions, types and stations are as they should be.
* `Ready.decides`, `Ready.snoc` — a rowset that is admitted is decided right and stored.
* `runs_store_newest_iff` — **all runs decide right and store the newest rowsets exactly
  if each rowset is admitted by those before it.**
-/

namespace EveIndustryPlanner
namespace Emdr

section Staleness

variable {P : Type} {tables : Tables P}

/-! ### Runs -/

/-- The rowsets so far with what became of them, and the state they lead to.  What throws is
the last. -/
inductive Run (tables : Tables P) : List (Rowset P × Outcome) → HaulState P → Prop
  | nil : Run tables [] .empty
  | snoc {log : List (Rowset P × Outcome)} {s s' : HaulState P} {rs : Rowset P} {o : Outcome}
      (h : Run tables log s) (hgoing : ∀ e ∈ log, e.2 ≠ .thrown) (hstep : Step tables s rs o s') :
      Run tables (log ++ [(rs, o)]) s'

/-- A state that is reached in a run over the rowsets of some messages, with the rowsets so
far. -/
def Reaches (tables : Tables P) (messages : List (Message P)) (log : List (Rowset P × Outcome))
    (s : HaulState P) : Prop :=
  Run tables log s ∧ log.map Prod.fst <+: messages.flatMap Message.rowsets

/-! ### What should be stored -/

/-- The rowsets that are not empty. -/
def received (rowsets : List (Rowset P)) : List (Rowset P) :=
  rowsets.filter fun rs => !rs.x.isEmpty

/-- The rowsets that were applied. -/
def applied (log : List (Rowset P × Outcome)) : List (Rowset P) :=
  (log.filter fun e => e.2 = .applied).map Prod.fst

/-- Some rowset of the region and type is at a time or after it. -/
abbrev HasReached (rowsets : List (Rowset P)) (k : UInt64 × UInt64) (t : ℤ) : Prop :=
  Reached Rowset.key Rowset.generatedAt rowsets k t

/-- The newest rowset of its region and type. -/
abbrev IsNewest (rowsets : List (Rowset P)) (rs : Rowset P) : Prop :=
  Newest Rowset.key Rowset.generatedAt (received rowsets) rs

/-- A rowset that is not empty is skipped exactly if one of the same region and
type that is not older was applied before. -/
def Decided (log : List (Rowset P × Outcome)) : Prop :=
  EachStep (fun before e => e.1.x ≠ [] →
    (e.2 = .tooOld ↔ HasReached (applied before) e.1.key e.1.generatedAt)) log

/-- The newest rowsets are stored: their times, and their orders and no others. -/
structure Stored (tables : Tables P) (rowsets : List (Rowset P)) (s : HaulState P) : Prop where
  times : ∀ rs, IsNewest rowsets rs → s.lastUpdate (tables.entry rs) = some rs.generatedAt
  orders : ∀ orderID row, s.orders orderID = some row ↔
    ∃ rs, IsNewest rowsets rs ∧ rs.row orderID = some row

/-! ### What the rowsets before leave room for -/

/-- A rowset that is to be stored can be: its orders are taken, its region is not mistaken
for another one, and it takes the place of its predecessor and of nothing else. -/
structure Fits (tables : Tables P) (before : List (Rowset P)) (rs : Rowset P) : Prop where
  taken : ∀ o ∈ rs.x, tables.takes rs.typeID o = true
  apart : ∀ seen ∈ received before, tables.entry seen = tables.entry rs → seen.key = rs.key
  /-- Orders of other regions and types stay, or are orders of the rowset too. -/
  kept : ∀ seen, IsNewest before seen → seen.key ≠ rs.key →
    ∀ orderID row, seen.row orderID = some row →
      rs.row orderID = some row ∨ rs.row orderID = none ∧ rs.deletes tables row = false
  /-- Orders of the same region and type go, unless they are orders of another one too. -/
  dropped : ∀ seen, IsNewest before seen → seen.key = rs.key →
    ∀ orderID row, seen.row orderID = some row →
      rs.row orderID ≠ none ∨ rs.deletes tables row = true ∨
        ∃ other, IsNewest before other ∧ other.key ≠ rs.key ∧ other.row orderID = some row

/-- The types of the region that were seen before are as new as the type of the rowset, as
far as its time tells. -/
def Aligned (tables : Tables P) (before : List (Rowset P)) (rs : Rowset P) : Prop :=
  ∀ seen ∈ received before, tables.number seen.regionID = tables.number rs.regionID →
    (HasReached (received before) seen.key rs.generatedAt ↔
      HasReached (received before) rs.key rs.generatedAt)

/-- The types of the region are aligned, and a rowset that is newer than those of its own
region and type fits. -/
structure Admits (tables : Tables P) (before : List (Rowset P)) (rs : Rowset P) : Prop where
  aligned : Aligned tables before rs
  fits : ¬ HasReached (received before) rs.key rs.generatedAt → Fits tables before rs

theorem Rowset.exists_of_row {rs : Rowset P} {orderID : UInt64} {row : OrderRow P}
    (h : rs.row orderID = some row) : ∃ o ∈ rs.x, o.orderID = orderID ∧ o.row rs.typeID = row := by
  obtain ⟨o, ho, hrow⟩ := Option.map_eq_some_iff.mp h
  obtain ⟨hmem, hid⟩ := List.mem_filter.mp (List.mem_of_getLast? ho)
  exact ⟨o, hmem, of_decide_eq_true hid, hrow⟩

theorem Rowset.row_ne_none_iff {rs : Rowset P} {orderID : UInt64} :
    rs.row orderID ≠ none ↔ ∃ o ∈ rs.x, o.orderID = orderID := by
  simp [Rowset.row, lastRow]

/-- One region and type has one entry. -/
theorem Tables.entry_congr (tables : Tables P) {rs rs' : Rowset P} (h : rs.key = rs'.key) :
    tables.entry rs = tables.entry rs' := by
  obtain ⟨hregion, htype⟩ := Prod.mk.injEq .. ▸ h
  rw [Tables.entry, Tables.entry, hregion, htype]

/-- Regions with ids below `2 ^ 63` are not mistaken for each other. -/
theorem key_eq_of_entry_eq {seen rs : Rowset P} (hseen : seen.regionID.toNat < 2 ^ 63)
    (hrs : rs.regionID.toNat < 2 ^ 63) (h : tables.entry seen = tables.entry rs) :
    seen.key = rs.key := by
  obtain ⟨hnumber, htype⟩ := Prod.mk.injEq .. ▸ h
  rw [tables.number_eq hseen, tables.number_eq hrs] at hnumber
  rw [Rowset.key, Rowset.key, UInt64.toNat_inj.mp hnumber, htype]

/-- A rowset fits if the ids of regions are below `2 ^ 63`, no order is in two regions or of
two types, and all stations are known to be in one region. -/
theorem fits_of_known {before : List (Rowset P)} {rs : Rowset P}
    (htaken : ∀ o ∈ rs.x, tables.takes rs.typeID o = true)
    (hseen : ∀ seen ∈ received before, seen.regionID.toNat < 2 ^ 63)
    (hrs : rs.regionID.toNat < 2 ^ 63)
    (hids : ∀ seen ∈ received before, seen.key ≠ rs.key → ∀ o ∈ seen.x, ∀ o' ∈ rs.x,
      o'.orderID ≠ o.orderID)
    (hothers : ∀ seen ∈ received before, seen.regionID ≠ rs.regionID → ∀ o ∈ seen.x,
      tables.inRegion (tables.number rs.regionID) o.stationID = false ∧
        o.stationID ∉ rs.stationIDs)
    (hown : ∀ seen ∈ received before, seen.key = rs.key → ∀ o ∈ seen.x,
      tables.inRegion (tables.number rs.regionID) o.stationID = true) : Fits tables before rs where
  taken := htaken
  apart seen hmem := key_eq_of_entry_eq (hseen seen hmem) hrs
  kept seen hseen hkey orderID row hrow := by
    obtain ⟨o, ho, rfl, rfl⟩ := Rowset.exists_of_row hrow
    refine Or.inr ⟨?_, ?_⟩
    · by_contra hsome
      obtain ⟨o', ho', hid⟩ := Rowset.row_ne_none_iff.mp hsome
      exact hids seen hseen.mem hkey o ho o' ho' hid
    · by_cases hregion : seen.regionID = rs.regionID
      · -- of the same region it is of another type
        have htype : seen.typeID ≠ rs.typeID := fun e => hkey (by rw [Rowset.key, hregion, e]; rfl)
        simp [Rowset.deletes, Orders.row, htype]
      · obtain ⟨hin, hnot⟩ := hothers seen hseen.mem hregion o ho
        simp [Rowset.deletes, Orders.row, hin, hnot]
  dropped seen hseen hkey orderID row hrow := by
    obtain ⟨o, ho, rfl, rfl⟩ := Rowset.exists_of_row hrow
    have htype : seen.typeID = rs.typeID := congrArg Prod.snd hkey
    refine Or.inr (Or.inl ?_)
    simp [Rowset.deletes, Orders.row, hown seen hseen.mem hkey o ho, htype]

/-! ### One more rowset -/

theorem received_snoc_of_empty {rowsets : List (Rowset P)} {rs : Rowset P} (h : rs.x = []) :
    received (rowsets ++ [rs]) = received rowsets := by
  simp [received, List.filter_append, h]

theorem received_snoc {rowsets : List (Rowset P)} {rs : Rowset P} (h : rs.x ≠ []) :
    received (rowsets ++ [rs]) = received rowsets ++ [rs] := by
  simp [received, List.filter_append, h]

theorem applied_snoc_of_ne {log : List (Rowset P × Outcome)} {rs : Rowset P} {o : Outcome}
    (h : o ≠ .applied) : applied (log ++ [(rs, o)]) = applied log := by
  simp [applied, List.filter_append, h]

theorem applied_snoc {log : List (Rowset P × Outcome)} {rs : Rowset P} :
    applied (log ++ [(rs, .applied)]) = applied log ++ [rs] := by
  simp [applied, List.filter_append]

theorem map_fst_snoc {log : List (Rowset P × Outcome)} {rs : Rowset P} {o : Outcome} :
    (log ++ [(rs, o)]).map Prod.fst = log.map Prod.fst ++ [rs] := by simp

theorem isNewest_snoc_of_empty {rowsets : List (Rowset P)} {rs rs' : Rowset P} (h : rs.x = []) :
    IsNewest (rowsets ++ [rs]) rs' ↔ IsNewest rowsets rs' := by
  unfold IsNewest
  rw [received_snoc_of_empty h]

theorem isNewest_snoc_of_reached {rowsets : List (Rowset P)} {rs rs' : Rowset P} (hne : rs.x ≠ [])
    (hold : HasReached (received rowsets) rs.key rs.generatedAt) :
    IsNewest (rowsets ++ [rs]) rs' ↔ IsNewest rowsets rs' := by
  unfold IsNewest
  rw [received_snoc hne]
  exact newest_snoc_of_reached hold

/-- What a rowset that is newer than those of its region and type makes the newest ones. -/
theorem isNewest_snoc {rowsets : List (Rowset P)} {rs rs' : Rowset P} (hne : rs.x ≠ [])
    (hnew : ¬ HasReached (received rowsets) rs.key rs.generatedAt) :
    IsNewest (rowsets ++ [rs]) rs' ↔ rs' = rs ∨ IsNewest rowsets rs' ∧ rs'.key ≠ rs.key := by
  unfold IsNewest
  rw [received_snoc hne]
  exact newest_snoc hnew

/-- What was stored stays so if the newest rowsets and the tables do. -/
theorem Stored.congr {rowsets rowsets' : List (Rowset P)} {s : HaulState P}
    (h : Stored tables rowsets s) (hnewest : ∀ rs, IsNewest rowsets' rs ↔ IsNewest rowsets rs) :
    Stored tables rowsets' s where
  times rs hrs := h.times rs ((hnewest rs).mp hrs)
  orders orderID row := by simp only [h.orders, hnewest]

/-- **A rowset that fits is stored.** -/
theorem Stored.apply {rowsets : List (Rowset P)} {s : HaulState P} {rs : Rowset P}
    (h : Stored tables rowsets s) (hne : rs.x ≠ [])
    (hnew : ¬ HasReached (received rowsets) rs.key rs.generatedAt)
    (hfits : Fits tables rowsets rs) :
    Stored tables (rowsets ++ [rs]) (applyRowset tables s rs).2 where
  times rs' hrs' := by
    rw [lastUpdate_applyRowset hfits.taken]
    rcases (isNewest_snoc hne hnew).mp hrs' with rfl | ⟨hrs', hkey⟩
    · exact Function.update_self ..
    · have hentry : tables.entry rs' ≠ tables.entry rs := fun e =>
        hkey (hfits.apart rs' hrs'.mem e)
      rw [Function.update_of_ne hentry, h.times rs' hrs']
  orders orderID row := by
    rw [orders_applyRowset hfits.taken]
    simp only [isNewest_snoc hne hnew]
    constructor
    · intro hrow
      rcases Option.or_eq_some_iff.mp hrow with hrow | ⟨hnone, hrow⟩
      · exact ⟨rs, Or.inl rfl, hrow⟩
      · obtain ⟨hrow, hkeeps⟩ := Option.filter_eq_some_iff.mp hrow
        obtain ⟨seen, hseen, hrow⟩ := (h.orders _ _).mp hrow
        by_cases hkey : seen.key = rs.key
        · -- a row of the predecessor that is still there is one of another region or type
          rcases hfits.dropped seen hseen hkey orderID row hrow with hsome | hdeletes | hother
          · exact absurd hnone hsome
          · exact absurd hkeeps (by simp [hdeletes])
          · obtain ⟨other, hother, hne, hrow⟩ := hother
            exact ⟨other, Or.inr ⟨hother, hne⟩, hrow⟩
        · exact ⟨seen, Or.inr ⟨hseen, hkey⟩, hrow⟩
    · rintro ⟨rs', rfl | ⟨hrs', hkey⟩, hrow⟩
      · rw [hrow, Option.some_or]
      · rcases hfits.kept rs' hrs' hkey orderID row hrow with hrow' | ⟨hnone, hkeeps⟩
        · rw [hrow', Option.some_or]
        · rw [hnone, Option.none_or, Option.filter_eq_some_iff]
          exact ⟨(h.orders _ _).mpr ⟨rs', hrs', hrow⟩, by simp [hkeeps]⟩

/-! ### Right decisions -/

/-- What holds as long as all rowsets were admitted. -/
structure Ready (tables : Tables P) (log : List (Rowset P × Outcome)) (s : HaulState P) :
    Prop where
  decided : Decided log
  going : ∀ e ∈ log, e.2 ≠ .thrown
  stored : Stored tables (log.map Prod.fst) s
  applied : ∀ k t, HasReached (applied log) k t ↔ HasReached (received (log.map Prod.fst)) k t
  entries : ∀ k u, s.lastUpdate k = some u →
    ∃ rs, IsNewest (log.map Prod.fst) rs ∧ tables.entry rs = k ∧ rs.generatedAt = u

theorem ready_nil : Ready tables [] .empty where
  decided := eachStep_nil
  going e he := absurd he List.not_mem_nil
  stored := ⟨fun rs hrs => absurd hrs not_newest_nil, fun orderID row =>
    ⟨fun h => absurd h (by simp [HaulState.empty]), fun ⟨rs, hrs, _⟩ => absurd hrs not_newest_nil⟩⟩
  applied k t := iff_of_false not_reached_nil not_reached_nil
  entries k u h := absurd h (by simp [HaulState.empty])

variable {log : List (Rowset P × Outcome)} {s s' : HaulState P} {rs : Rowset P} {o : Outcome}

/-- The entries of a region are the times of the newest rowsets of its types. -/
theorem Ready.le_iff (h : Ready tables log s) {typeID : UInt64} {u : ℤ}
    (hu : s.lastUpdate (tables.number rs.regionID, typeID) = some u)
    (haligned : Aligned tables (log.map Prod.fst) rs) :
    rs.generatedAt ≤ u ↔ HasReached (received (log.map Prod.fst)) rs.key rs.generatedAt := by
  obtain ⟨seen, hseen, hentry, rfl⟩ := h.entries _ _ hu
  rw [← haligned seen hseen.mem (congrArg Prod.fst hentry)]
  exact hseen.reached_iff.symm

theorem ne_tooOld_of_applyRowset (h : applyRowset tables s rs = (o, s')) : o ≠ .tooOld := by
  have hfst := applyRowset_fst tables s rs
  rw [h] at hfst
  split at hfst
  · rw [show o = .applied from hfst]
    decide
  · rw [show o = .thrown from hfst]
    decide

/-- **A rowset whose region is aligned is decided right.** -/
theorem Ready.decides (h : Ready tables log s) (hstep : Step tables s rs o s') (hne : rs.x ≠ [])
    (haligned : Aligned tables (log.map Prod.fst) rs) :
    o = .tooOld ↔ HasReached (received (log.map Prod.fst)) rs.key rs.generatedAt := by
  rcases hstep.cases with ⟨hempty, -, -⟩ | ⟨-, rfl, -, typeID, u, hu, hle⟩ | ⟨-, happly, hsel⟩
  · exact absurd hempty hne
  · exact iff_of_true rfl ((h.le_iff hu haligned).mp hle)
  · refine iff_of_false (ne_tooOld_of_applyRowset happly) fun hreached => ?_
    rcases hsel with hnone | ⟨typeID, u, hu, hlt⟩
    · -- the newest rowset of the region and type has an entry
      obtain ⟨seen, hseen, hkey, -⟩ := hreached
      obtain ⟨newest, hnewest, hkey'⟩ := exists_newest Rowset.key Rowset.generatedAt hseen
      have hentry := h.stored.times newest hnewest
      rw [tables.entry_congr (hkey'.trans hkey), Tables.entry, hnone] at hentry
      cases hentry
    · exact absurd ((h.le_iff hu haligned).mpr hreached) (not_le.mpr hlt)

theorem going_snoc (h : ∀ e ∈ log, e.2 ≠ .thrown) (ho : o ≠ .thrown) :
    ∀ e ∈ log ++ [(rs, o)], e.2 ≠ .thrown := by
  intro e he
  rcases List.mem_append.mp he with he | he
  · exact h e he
  · obtain rfl := List.mem_singleton.mp he
    exact ho

/-- A rowset that is not applied, and makes none the newest, changes nothing. -/
theorem Ready.skip (h : Ready tables log s) (hdecided : Decided (log ++ [(rs, o)]))
    (happlied : o ≠ .applied) (hthrown : o ≠ .thrown)
    (hnewest : ∀ rs', IsNewest (log.map Prod.fst ++ [rs]) rs' ↔ IsNewest (log.map Prod.fst) rs')
    (hreached : ∀ k t, HasReached (received (log.map Prod.fst ++ [rs])) k t ↔
      HasReached (received (log.map Prod.fst)) k t) : Ready tables (log ++ [(rs, o)]) s where
  decided := hdecided
  going := going_snoc h.going hthrown
  stored := by
    rw [map_fst_snoc]
    exact h.stored.congr hnewest
  applied k t := by rw [map_fst_snoc, applied_snoc_of_ne happlied, h.applied, hreached]
  entries k u hu := by
    rw [map_fst_snoc]
    obtain ⟨seen, hseen, hentry⟩ := h.entries k u hu
    exact ⟨seen, (hnewest seen).mpr hseen, hentry⟩

/-- **A rowset that is admitted is decided right and stored if it is new.** -/
theorem Ready.snoc (h : Ready tables log s) (hstep : Step tables s rs o s')
    (hadmits : rs.x ≠ [] → Admits tables (log.map Prod.fst) rs) :
    Ready tables (log ++ [(rs, o)]) s' := by
  have hdecided : Decided (log ++ [(rs, o)]) := by
    refine eachStep_snoc.mpr ⟨h.decided, fun hne => ?_⟩
    rw [h.applied]
    exact h.decides hstep hne (hadmits hne).aligned
  rcases hstep.cases with ⟨hempty, rfl, rfl⟩ | ⟨hne, rfl, rfl, -⟩ | ⟨hne, happly, -⟩
  · refine h.skip hdecided (by decide) (by decide) (fun rs' => isNewest_snoc_of_empty hempty) ?_
    intro k t
    rw [received_snoc_of_empty hempty]
  · have hold := (h.decides hstep hne (hadmits hne).aligned).mp rfl
    refine h.skip hdecided (by decide) (by decide) (fun rs' => isNewest_snoc_of_reached hne hold) ?_
    intro k t
    rw [received_snoc hne]
    exact reached_snoc_of_reached hold
  · have hnot : o ≠ .tooOld := ne_tooOld_of_applyRowset happly
    have hnew : ¬ HasReached (received (log.map Prod.fst)) rs.key rs.generatedAt := fun hold =>
      hnot ((h.decides hstep hne (hadmits hne).aligned).mpr hold)
    have hfits := (hadmits hne).fits hnew
    obtain ⟨rfl, rfl⟩ : o = .applied ∧ s' = (applyRowset tables s rs).2 := by
      have hfst := applyRowset_fst tables s rs
      rw [if_pos (List.all_eq_true.mpr hfits.taken), happly] at hfst
      exact ⟨hfst, by rw [happly]⟩
    refine ⟨hdecided, going_snoc h.going (by decide), ?_, ?_, ?_⟩
    · rw [map_fst_snoc]
      exact h.stored.apply hne hnew hfits
    · intro k t
      rw [map_fst_snoc, applied_snoc, received_snoc hne]
      exact reached_snoc.trans ((or_congr_left (h.applied k t)).trans reached_snoc.symm)
    · intro k u hu
      rw [map_fst_snoc]
      rw [lastUpdate_applyRowset hfits.taken, Function.update_apply] at hu
      split at hu
      · next hk =>
        exact ⟨rs, (isNewest_snoc hne hnew).mpr (Or.inl rfl), hk.symm, Option.some.inj hu⟩
      · next hk =>
        obtain ⟨seen, hseen, hentry, htime⟩ := h.entries k u hu
        have hkey : seen.key ≠ rs.key := fun hkey =>
          hk (hentry.symm.trans (tables.entry_congr hkey))
        exact ⟨seen, (isNewest_snoc hne hnew).mpr (Or.inr ⟨hseen, hkey⟩), hentry, htime⟩

/-- Runs over rowsets that are admitted. -/
theorem Run.ready (h : Run tables log s)
    (hadmits : EachStep (fun before rs => rs.x ≠ [] → Admits tables before rs)
      (log.map Prod.fst)) : Ready tables log s := by
  induction h with
  | nil => exact ready_nil
  | @snoc log s s' rs o _ _ hstep ih =>
    rw [map_fst_snoc] at hadmits
    obtain ⟨hbefore, hrs⟩ := eachStep_snoc.mp hadmits
    exact (ih hbefore).snoc hstep hrs

/-! ### The other direction -/

/-- Every selection of a row is a step. -/
theorem exists_step (tables : Tables P) {s : HaulState P} (rs : Rowset P) {row : Option ℤ}
    (h : Selects tables s rs.regionID row) : ∃ o s', Step tables s rs o s' ∧
      (rs.x ≠ [] → ∀ u, row = some u → (o = .tooOld ↔ rs.generatedAt ≤ u)) := by
  refine ⟨(updateRowset tables s rs row).1, (updateRowset tables s rs row).2, ⟨row, h, rfl⟩, ?_⟩
  intro hne u hu
  have hempty : rs.x.isEmpty = false := by simpa using hne
  subst hu
  by_cases hle : rs.generatedAt ≤ u
  · simp [updateRowset, hempty, hle]
  · have happly : updateRowset tables s rs (some u) = applyRowset tables s rs := by
      simp [updateRowset, hempty, hle]
    rw [happly]
    exact iff_of_false (ne_tooOld_of_applyRowset rfl) hle

/-- There is a run over any rowsets that are admitted. -/
theorem exists_run (tables : Tables P) {rowsets : List (Rowset P)}
    (hadmits : EachStep (fun before rs => rs.x ≠ [] → Admits tables before rs) rowsets) :
    ∃ log s, Run tables log s ∧ log.map Prod.fst = rowsets := by
  induction rowsets using List.reverseRecOn with
  | nil => exact ⟨[], .empty, .nil, rfl⟩
  | append_singleton rowsets rs ih =>
    have hbefore := (eachStep_snoc.mp hadmits).1
    obtain ⟨log, s, hrun, rfl⟩ := ih hbefore
    obtain ⟨row, hrow⟩ := exists_selects tables s rs.regionID
    obtain ⟨o, s', hstep, -⟩ := exists_step tables rs hrow
    exact ⟨log ++ [(rs, o)], s', hrun.snoc (hrun.ready hbefore).going hstep, map_fst_snoc⟩

/-- **A new rowset that is stored fits.** -/
theorem Ready.fits (h : Ready tables log s) (hne : rs.x ≠ [])
    (hnew : ¬ HasReached (received (log.map Prod.fst)) rs.key rs.generatedAt)
    (haligned : Aligned tables (log.map Prod.fst) rs)
    (hstored : Stored tables (log.map Prod.fst ++ [rs]) (applyRowset tables s rs).2) :
    Fits tables (log.map Prod.fst) rs := by
  -- the entry is new, so no other rowset has it
  have hentries : ∀ seen, IsNewest (log.map Prod.fst) seen → tables.entry seen = tables.entry rs →
      seen.generatedAt ≠ rs.generatedAt := by
    intro seen hseen hentry htime
    refine hnew ((haligned seen hseen.mem (congrArg Prod.fst hentry)).mp ?_)
    exact hseen.reached_iff.mpr htime.ge
  have htime := hstored.times rs ((isNewest_snoc hne hnew).mpr (Or.inl rfl))
  have htaken : ∀ o ∈ rs.x, tables.takes rs.typeID o = true := by
    by_contra hnot
    have hthrown : (applyRowset tables s rs).1 = .thrown := by
      rw [applyRowset_fst, if_neg (mt List.all_eq_true.mp hnot)]
    rw [lastUpdate_applyRowset_of_thrown hthrown] at htime
    obtain ⟨seen, hseen, hentry, hseenTime⟩ := h.entries _ _ htime
    exact hentries seen hseen hentry hseenTime
  have horders := hstored.orders
  simp only [orders_applyRowset htaken, isNewest_snoc hne hnew] at horders
  constructor
  case taken => exact htaken
  case apart =>
    intro seen hseen hentry
    obtain ⟨newest, hnewest, hkey⟩ := exists_newest Rowset.key Rowset.generatedAt hseen
    by_contra hkeyne
    have hnewestEntry : tables.entry newest = tables.entry rs :=
      (tables.entry_congr hkey).trans hentry
    have htime' := hstored.times newest
      ((isNewest_snoc hne hnew).mpr (Or.inr ⟨hnewest, hkey ▸ hkeyne⟩))
    rw [hnewestEntry, htime] at htime'
    exact hentries newest hnewest hnewestEntry (Option.some.inj htime').symm
  case kept =>
    intro seen hseen hkey orderID row hrow
    have hstays := (horders orderID row).mpr ⟨seen, Or.inr ⟨hseen, hkey⟩, hrow⟩
    rcases Option.or_eq_some_iff.mp hstays with hown | ⟨hnone, hkept⟩
    · exact Or.inl hown
    · exact Or.inr ⟨hnone, by simpa using (Option.filter_eq_some_iff.mp hkept).2⟩
  case dropped =>
    intro seen hseen hkey orderID row hrow
    by_contra hstays
    obtain ⟨hnone, hrest⟩ := not_or.mp hstays
    obtain ⟨hkeeps, hothers⟩ := not_or.mp hrest
    have hnone : rs.row orderID = none := not_not.mp hnone
    -- it would still be there, and be an order of no rowset that is the newest
    have hthere : s.orders orderID = some row :=
      (h.stored.orders _ _).mpr ⟨seen, hseen, hrow⟩
    have hkept : (rs.row orderID).or
        ((s.orders orderID).filter fun row => !rs.deletes tables row) = some row := by
      rw [hnone, Option.none_or, Option.filter_eq_some_iff]
      exact ⟨hthere, by simpa using hkeeps⟩
    obtain ⟨other, rfl | ⟨hother, hotherKey⟩, hotherRow⟩ := (horders orderID row).mp hkept
    · rw [hnone] at hotherRow
      cases hotherRow
    · exact hothers ⟨other, hother, hotherKey, hotherRow⟩

/-- Rowsets over which all runs decide right and store the newest ones are admitted. -/
theorem admits_of_runs {rowsets : List (Rowset P)}
    (h : ∀ log s, Run tables log s → log.map Prod.fst <+: rowsets →
      Decided log ∧ Stored tables (log.map Prod.fst) s) :
    EachStep (fun before rs => rs.x ≠ [] → Admits tables before rs) rowsets := by
  induction rowsets using List.reverseRecOn with
  | nil => exact eachStep_nil
  | append_singleton rowsets rs ih =>
    have hbefore := ih fun log s hrun hbegin =>
      h log s hrun (hbegin.trans (List.prefix_append _ _))
    refine eachStep_snoc.mpr ⟨hbefore, fun hne => ?_⟩
    obtain ⟨log, s, hrun, rfl⟩ := exists_run tables hbefore
    have hready := hrun.ready hbefore
    -- a run over the rowsets before goes on with any row the query may return
    have hnext : ∀ {o s'}, Step tables s rs o s' →
        (o = .tooOld ↔ HasReached (received (log.map Prod.fst)) rs.key rs.generatedAt) ∧
          Stored tables (log.map Prod.fst ++ [rs]) s' := by
      intro o s' hstep
      obtain ⟨hdecided, hstored⟩ := h _ s' (hrun.snoc hready.going hstep) (by rw [map_fst_snoc])
      rw [map_fst_snoc] at hstored
      have hright := (eachStep_snoc.mp hdecided).2 hne
      exact ⟨hright.trans (hready.applied _ _), hstored⟩
    have haligned : Aligned tables (log.map Prod.fst) rs := by
      intro seen hseen hnumber
      obtain ⟨newest, hnewest, hkey⟩ := exists_newest Rowset.key Rowset.generatedAt hseen
      -- let the query return the row of the type that was seen
      have hrow : Selects tables s rs.regionID (some newest.generatedAt) := by
        refine ⟨newest.typeID, ?_⟩
        have hregion : newest.regionID = seen.regionID := congrArg Prod.fst hkey
        rw [← hnumber, ← hregion]
        exact hready.stored.times newest hnewest
      obtain ⟨o, s', hstep, ho⟩ := exists_step tables rs hrow
      rw [← (hnext hstep).1, ho hne _ rfl, ← hkey]
      exact hnewest.reached_iff
    refine ⟨haligned, fun hnew => ?_⟩
    obtain ⟨row, hrow⟩ := exists_selects tables s rs.regionID
    obtain ⟨o, s', hstep, -⟩ := exists_step tables rs hrow
    obtain ⟨hright, hstored⟩ := hnext hstep
    rcases hstep.cases with ⟨hempty, -⟩ | ⟨-, rfl, -⟩ | ⟨-, happly, -⟩
    · exact absurd hempty hne
    · exact absurd (hright.mp rfl) hnew
    · have hs' : s' = (applyRowset tables s rs).2 := by rw [happly]
      exact hready.fits hne hnew haligned (hs' ▸ hstored)

/-- **All runs decide right and store the newest rowset of each region and type exactly if
each rowset is admitted by those before it.** -/
theorem runs_store_newest_iff (tables : Tables P) (messages : List (Message P)) :
    (∀ log s, Reaches tables messages log s →
      Decided log ∧ Stored tables (log.map Prod.fst) s) ↔
      EachStep (fun before rs => rs.x ≠ [] → Admits tables before rs)
        (messages.flatMap Message.rowsets) := by
  constructor
  · intro h
    exact admits_of_runs fun log s hrun hbegin => h log s ⟨hrun, hbegin⟩
  · rintro hadmits log s ⟨hrun, after, hafter⟩
    rw [← hafter] at hadmits
    have hready := hrun.ready (eachStep_of_append hadmits)
    exact ⟨hready.decided, hready.stored⟩

/-! ### Types of one region -/

/-- One order for an item in a region, with everything else left open. -/
def oneOrder (regionID typeID : UInt64) (generatedAt : ℤ) : Rowset Unit :=
  ⟨[⟨(), 1, 1, false, 0, 0, 1⟩], generatedAt, regionID, typeID⟩

/-- A database that knows no station of a region and accepts every order. -/
def openTables : Tables Unit := .exact Unit (fun _ _ => false) fun _ _ => true

/-- A rowset for an item that was never seen is skipped for the time of another item. -/
theorem skips_first_of_type :
    ∃ log s, Reaches openTables [⟨[oneOrder 1 34 10]⟩, ⟨[oneOrder 1 35 5]⟩] log s ∧
      log = [(oneOrder 1 34 10, .applied), (oneOrder 1 35 5, .tooOld)] ∧ ¬ Decided log := by
  have htaken : ∀ o ∈ (oneOrder 1 34 10).x,
      openTables.takes (oneOrder 1 34 10).typeID o = true := by
    decide
  have happlied : applyRowset openTables .empty (oneOrder 1 34 10) =
      (.applied, (applyRowset openTables .empty (oneOrder 1 34 10)).2) := by
    refine Prod.ext ?_ rfl
    rw [applyRowset_fst, if_pos (List.all_eq_true.mpr htaken)]
  have hfirst : Run openTables [(oneOrder 1 34 10, .applied)]
      (applyRowset openTables .empty (oneOrder 1 34 10)).2 :=
    Run.nil.snoc (by simp) ⟨none, fun _ => rfl, happlied⟩
  have hselects : Selects openTables (applyRowset openTables .empty (oneOrder 1 34 10)).2 1
      (some 10) := by
    refine ⟨34, ?_⟩
    rw [lastUpdate_applyRowset htaken]
    exact Function.update_self ..
  have hsecond : Run openTables [(oneOrder 1 34 10, .applied), (oneOrder 1 35 5, .tooOld)]
      (applyRowset openTables .empty (oneOrder 1 34 10)).2 :=
    hfirst.snoc (by simp) ⟨some 10, hselects, rfl⟩
  refine ⟨_, _, ⟨hsecond, List.prefix_rfl⟩, rfl, ?_⟩
  intro hdecided
  -- there would have to be an applied rowset of the second item
  have hright := (eachStep_snoc (l := [(oneOrder 1 34 10, Outcome.applied)])).mp hdecided
  obtain ⟨rs, hrs, hkey, -⟩ := (hright.2 (by simp [oneOrder])).mp rfl
  have hrs : rs ∈ [oneOrder 1 34 10] := hrs
  obtain rfl := List.mem_singleton.mp hrs
  have hkey : ((1, 34) : UInt64 × UInt64) = (1, 35) := hkey
  exact absurd hkey (by decide)

end Staleness

end Emdr
end EveIndustryPlanner
