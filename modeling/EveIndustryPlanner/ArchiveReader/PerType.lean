import EveIndustryPlanner.Lib.Decimal
import EveIndustryPlanner.Lib.Groups
import EveIndustryPlanner.Lib.PythonText
import EveIndustryPlanner.Lib.Records
import EveIndustryPlanner.Market.Response

/-!
# Orders by their types

The views of the market are rewritten into two files for each type: the arrays of its
orders one after the other, and an index with a line for each of them, which gives its
position and the time of its view.  The views come from single files, whose names are
their times, or from one archive, whose times were parsed before.

## Main definitions

* `parseTime` — the time of a name.
* `TypeFiles`, `Files` — the files of a type, and those of a directory.
* `writeOrders`, `writeView` — the orders of one type, and those of one view.
* `multipleNpzsToSingleNpzPerType`, `singleNpzToSingleNpzPerType` — the two rewritings.
* `readSingleType` — what is read of a type.

## Main results

* `npzPerType_spec` — what the files are afterwards.
* `readSingleType_filesOf` — how they are read.
* `per_type_round_trip` — **the orders of each type are read back view by view.**
* `single_not_read` — **nothing is read of what was written from one archive.**
-/

namespace EveIndustryPlanner
namespace ArchiveReader

open Python

/-! ### Times -/

/-- The days of a month. -/
def daysInMonth (year month : ℤ) : ℤ :=
  if month = 2 then
    if year % 4 = 0 ∧ (year % 100 ≠ 0 ∨ year % 400 = 0) then 29 else 28
  else if month = 4 ∨ month = 6 ∨ month = 9 ∨ month = 11 then 30 else 31

/-- The dates and times that there are. -/
def IsDatetime (year month day hour minute second : ℤ) : Prop :=
  (1 ≤ year ∧ year ≤ 9999) ∧ (1 ≤ month ∧ month ≤ 12) ∧
    (1 ≤ day ∧ day ≤ daysInMonth year month) ∧ (0 ≤ hour ∧ hour ≤ 23) ∧
      (0 ≤ minute ∧ minute ≤ 59) ∧ 0 ≤ second ∧ second ≤ 59

instance (year month day hour minute second : ℤ) :
    Decidable (IsDatetime year month day hour minute second) :=
  inferInstanceAs (Decidable (_ ∧ _))

/-- The seconds from the beginning of 1970 to the time of a name. -/
def parseTime (name : List Char) : Option ℤ := do
  let year ← int 10 (slice 0 4 name)
  let month ← int 10 (slice 5 7 name)
  let day ← int 10 (slice 8 10 name)
  let hour ← int 10 (slice 11 13 name)
  let minute ← int 10 (slice 14 16 name)
  let second ← int 10 (slice 17 19 name)
  if IsDatetime year month day hour minute second then
    some (Market.timegm ⟨year, month, day⟩ + hour * 3600 + minute * 60 + second)
  else none

example : parseTime "2016_12_06_11_10_02".toList = some 1481022602 := by decide +kernel

/-- The text of a number of seconds between two times: twelve digits have an exponent. -/
def floatText (seconds : ℤ) : List Char :=
  if seconds < 10 ^ 11 then (toString seconds).toList ++ ['.', '0']
  else
    let fraction := ((toString seconds).toList.tail.reverse.dropWhile (· = '0')).reverse
    (toString seconds).toList.take 1 ++
      (if fraction = [] then [] else '.' :: fraction) ++ ['e', '+', '1', '1']

example : floatText 1481022602 = "1481022602.0".toList := by decide +kernel

example : floatText 253402300800 = "2.534023008e+11".toList := by decide +kernel

/-- A time is the time of no text of its seconds, which is too short to have minutes. -/
theorem parseTime_of_length_le {name : List Char} (h : name.length ≤ 14) :
    parseTime name = none := by
  have hminute : slice 14 16 name = [] := by
    rw [slice, List.drop_eq_nil_of_le h, List.take_nil]
  have hint : int 10 [] = none := by decide
  simp [parseTime, hminute, hint]

/-- A point or an exponent behind the first digit is in the year. -/
theorem parseTime_eq_none {c c' : Char} {cs : List Char} (h : c' = '.' ∨ c' = 'e') :
    parseTime (c :: c' :: cs) = none := by
  have hmem : c' ∈ slice 0 4 (c :: c' :: cs) := by simp [slice]
  have hyear : int 10 (slice 0 4 (c :: c' :: cs)) = none := by
    rcases h with rfl | rfl
    · exact int_eq_none hmem (by decide) (by decide) (by decide) (by decide)
    · exact int_eq_none hmem (by decide) (by decide) (by decide) (by decide)
  rw [parseTime, hyear]
  rfl

/-- The years from 1 to 9999 in seconds. -/
theorem bounds_of_parseTime {name : List Char} {seconds : ℤ}
    (h : parseTime name = some seconds) : -10 ^ 11 < seconds ∧ seconds < 10 ^ 12 := by
  simp only [parseTime, Option.bind_eq_bind, Option.bind_eq_some_iff] at h
  obtain ⟨year, -, month, -, day, -, hour, -, minute, -, second, -, h⟩ := h
  split at h
  · next hdatetime =>
    obtain rfl := Option.some.inj h
    obtain ⟨hyear, hmonth, hday, hhour, hminute, hsecond⟩ := hdatetime
    have hdays : day ≤ 31 := by
      refine hday.2.trans ?_
      unfold daysInMonth
      split
      · split <;> omega
      · split <;> omega
    simp only [Market.timegm]
    split <;> omega
  · exact absurd h (by simp)

theorem length_toString_le {n : ℤ} (hlo : -10 ^ 11 < n) (hhi : n < 10 ^ 12) :
    (toString n).toList.length ≤ 12 := by
  cases n with
  | ofNat n =>
    have hn : n < 10 ^ 12 := by
      have : ((n : ℕ) : ℤ) < 10 ^ 12 := hhi
      omega
    change (Nat.repr n).toList.length ≤ 12
    rw [String.length_toList]
    exact (Nat.length_repr_le_iff (by decide)).mpr hn
  | negSucc n =>
    have hn : n + 1 < 10 ^ 11 := by omega
    change ("-" ++ Nat.repr (n + 1)).toList.length ≤ 12
    have hlength := (Nat.length_repr_le_iff (k := 11) (by decide)).mpr hn
    rw [String.toList_append, List.length_append, String.length_toList, String.length_toList]
    have hone : "-".length = 1 := by decide
    omega

/-- No time that was parsed can be parsed again. -/
theorem parseTime_floatText {name : List Char} {seconds : ℤ}
    (h : parseTime name = some seconds) : parseTime (floatText seconds) = none := by
  obtain ⟨hlo, hhi⟩ := bounds_of_parseTime h
  rw [floatText]
  split
  · apply parseTime_of_length_le
    rw [List.length_append]
    have := length_toString_le hlo hhi
    simp only [List.length_cons, List.length_nil]
    omega
  · have hne : (toString seconds).toList ≠ [] := by
      lift seconds to ℕ using by omega
      change (Nat.repr seconds).toList ≠ []
      rw [Nat.toList_repr]
      exact Nat.toDigits_ne_nil
    obtain ⟨c, cs, hcs⟩ := List.exists_cons_of_ne_nil hne
    rw [hcs]
    dsimp only
    split
    · exact parseTime_eq_none (Or.inr rfl)
    · exact parseTime_eq_none (Or.inl rfl)

/-! ### Writing -/

/-- The two files of a type. -/
structure TypeFiles where
  data : Bytes
  index : List Char

/-- The files of all types, and the types whose files were opened. -/
structure Files where
  directory : ℕ → Option TypeFiles
  opened : List ℕ

/-- A line of an index, without its end. -/
def indexLine (position : ℕ) (viewtime : List Char) : List Char :=
  (toString position).toList ++ ',' :: viewtime

/-- A file that was opened to be written. -/
def TypeFiles.new : TypeFiles := ⟨[], []⟩

section Writing

variable {R : Type} (typeOf : R → ℕ) (codec : Codec (List R))

/-- One more array, and its line. -/
def TypeFiles.append (f : TypeFiles) (viewtime : List Char) (orders : List R) : TypeFiles :=
  ⟨f.data ++ codec.save orders, f.index ++ indexLine f.data.length viewtime ++ ['\n']⟩

/-- Write the orders of one type; `none` stands for an exception. -/
def writeOrders (viewtime : List Char) (files : Files) (orders : List R) : Option Files :=
  orders.head?.map fun order =>
    let typeid := typeOf order
    let opened := if typeid ∈ files.opened then files.directory typeid else some .new
    ⟨Function.update files.directory typeid
        (opened.map fun f => f.append codec viewtime orders),
      if typeid ∈ files.opened then files.opened else typeid :: files.opened⟩

variable (argsort : List R → List R)

/-- Write the orders of one view, sorted by type and cut where it changes. -/
def writeView (files : Files) (view : List Char × List R) : Option Files :=
  if view.2 = [] then none
  else (groups typeOf (argsort view.2)).foldlM (writeOrders typeOf codec view.1) files

/-- Write the orders of some views. -/
def npzPerType (views : List (List Char × List R)) (directory : ℕ → Option TypeFiles) :
    Option (ℕ → Option TypeFiles) :=
  (views.foldlM (writeView typeOf codec argsort) ⟨directory, []⟩).map Files.directory

/-- The views come from files that are named by their times. -/
def multipleNpzsToSingleNpzPerType (views : List (List Char × List R))
    (directory : ℕ → Option TypeFiles) : Option (ℕ → Option TypeFiles) :=
  npzPerType typeOf codec argsort views directory

/-- The views of an archive, with their times. -/
def loadNpz (archive : List (List Char × List R)) : Option (List (ℤ × List R)) :=
  archive.mapM fun view => (parseTime view.1).map fun viewtime => (viewtime, view.2)

/-- The views come from one archive. -/
def singleNpzToSingleNpzPerType (archive : List (List Char × List R))
    (directory : ℕ → Option TypeFiles) : Option (ℕ → Option TypeFiles) := do
  let views ← loadNpz archive
  npzPerType typeOf codec argsort (views.map fun view => (floatText view.1, view.2)) directory

/-! ### Reading -/

/-- What is read until the end or an exception. -/
structure Reading (R : Type) where
  yields : List (ℤ × List R)
  finished : Bool

/-- The time in a line of an index. -/
def timeOf (line : List Char) : Option ℤ := do
  let field ← (line.splitOn ',')[1]?
  parseTime field.dropLast

/-- Read an array for each line. -/
def readLines : List (List Char) → Bytes → Reading R
  | [], _ => ⟨[], true⟩
  | line :: lines, data =>
    match timeOf line with
    | none => ⟨[], false⟩
    | some viewtime =>
      match codec.load data with
      | none => ⟨[], false⟩
      | some (orders, data) =>
        let reading := readLines lines data
        ⟨(viewtime, orders) :: reading.yields, reading.finished⟩

/-- Read the arrays of a type with the times of their views. -/
def readSingleType (f : TypeFiles) : Reading R := readLines codec (fileLines f.index) f.data

/-! ### What is written -/

/-- The arrays of a type, with the times of their views. -/
def entriesOf (typeid : ℕ) (views : List (List Char × List R)) : List (List Char × List R) :=
  views.filterMap fun view =>
    let orders := (argsort view.2).filter fun o => typeOf o = typeid
    if orders = [] then none else some (view.1, orders)

/-- The files with some arrays. -/
def filesOf (entries : List (List Char × List R)) : TypeFiles where
  data := codec.records entries
  index := (codec.recordLines indexLine 0 entries).flatMap fun line => line ++ ['\n']

variable {codec}

theorem filesOf_snoc (entries : List (List Char × List R)) (e : List Char × List R) :
    filesOf codec (entries ++ [e]) = (filesOf codec entries).append codec e.1 e.2 := by
  have hlines : codec.recordLines indexLine 0 (entries ++ [e]) =
      codec.recordLines indexLine 0 entries ++
        [indexLine (codec.records entries).length e.1] := by
    rw [Codec.recordLines_append, Nat.zero_add]
    rfl
  rw [filesOf, filesOf, TypeFiles.append, hlines, Codec.records_snoc, List.flatMap_append,
    List.flatMap_singleton, List.append_assoc]

/-- The files of each type hold its arrays; those of types that were not met are as before. -/
structure Holds (codec : Codec (List R)) (directory : ℕ → Option TypeFiles)
    (entries : ℕ → List (List Char × List R)) (files : Files) : Prop where
  opened : ∀ typeid, typeid ∈ files.opened ↔ entries typeid ≠ []
  directory : ∀ typeid, files.directory typeid =
    if entries typeid = [] then directory typeid else some (filesOf codec (entries typeid))

variable {typeOf} {argsort} {directory : ℕ → Option TypeFiles}
  {entries : ℕ → List (List Char × List R)} {files : Files}

/-- The orders of one type are written to its files. -/
theorem Holds.writeOrders (h : Holds codec directory entries files) (viewtime : List Char)
    {orders : List R} (hne : orders ≠ []) {typeid : ℕ} (htype : ∀ o ∈ orders, typeOf o = typeid) :
    ∃ files', ArchiveReader.writeOrders typeOf codec viewtime files orders = some files' ∧
      Holds codec directory
        (Function.update entries typeid (entries typeid ++ [(viewtime, orders)])) files' := by
  obtain ⟨o, rest, rfl⟩ := List.exists_cons_of_ne_nil hne
  obtain rfl := htype o List.mem_cons_self
  refine ⟨_, rfl, fun k => ?_, fun k => ?_⟩
  · by_cases hk : k = typeOf o
    · subst hk
      rw [Function.update_self]
      dsimp only
      split
      · next hopened => simp [hopened]
      · simp
    · rw [Function.update_of_ne hk, ← h.opened]
      dsimp only
      split
      · rfl
      · simp [hk]
  · by_cases hk : k = typeOf o
    · subst hk
      rw [Function.update_self, if_neg (by simp), filesOf_snoc]
      dsimp only
      rw [Function.update_self]
      by_cases hopened : typeOf o ∈ files.opened
      · rw [if_pos hopened, h.directory, if_neg ((h.opened _).mp hopened), Option.map_some]
      · have hnil : entries (typeOf o) = [] := by
          by_contra hne
          exact hopened ((h.opened _).mpr hne)
        rw [if_neg hopened, Option.map_some, hnil]
        rfl
    · dsimp only
      rw [Function.update_of_ne hk, Function.update_of_ne hk]
      exact h.directory k

/-- The orders of some types are written, one type after the other. -/
theorem Holds.foldlM_writeOrders (h : Holds codec directory entries files)
    (viewtime : List Char) {l : List R} {ks : List ℕ} (hks : ks.Nodup)
    (hl : ∀ k ∈ ks, (l.filter fun o => typeOf o = k) ≠ []) :
    ∃ files', (ks.map fun k => l.filter fun o => typeOf o = k).foldlM
        (ArchiveReader.writeOrders typeOf codec viewtime) files = some files' ∧
      Holds codec directory (fun k => entries k ++
        if k ∈ ks then [(viewtime, l.filter fun o => typeOf o = k)] else []) files' := by
  induction ks generalizing entries files with
  | nil =>
    refine ⟨files, rfl, ?_⟩
    simpa using h
  | cons k ks ih =>
    obtain ⟨hk, hks⟩ := List.nodup_cons.mp hks
    obtain ⟨hlk, hl⟩ := List.forall_mem_cons.mp hl
    have htype : ∀ o ∈ l.filter fun o => typeOf o = k, typeOf o = k :=
      fun o ho => of_decide_eq_true (List.mem_filter.mp ho).2
    obtain ⟨files₁, hfiles₁, h₁⟩ := h.writeOrders viewtime hlk htype
    obtain ⟨files', hfiles', h'⟩ := ih h₁ hks hl
    refine ⟨files', ?_, ?_⟩
    · rw [List.map_cons, List.foldlM_cons, hfiles₁]
      exact hfiles'
    · have hentries : (fun k' => Function.update entries k (entries k ++
            [(viewtime, l.filter fun o => typeOf o = k)]) k' ++
          if k' ∈ ks then [(viewtime, l.filter fun o => typeOf o = k')] else []) =
          fun k' => entries k' ++
            if k' ∈ k :: ks then [(viewtime, l.filter fun o => typeOf o = k')] else [] := by
        funext k'
        by_cases hk' : k' = k
        · subst hk'
          rw [Function.update_self, if_neg hk, if_pos List.mem_cons_self, List.append_nil]
        · rw [Function.update_of_ne hk']
          simp [hk']
      exact hentries ▸ h'

/-- What `argsort` does: the rows come in the order of their types. -/
structure Sorts (typeOf : R → ℕ) (argsort : List R → List R) : Prop where
  perm : ∀ l, (argsort l).Perm l
  sorted : ∀ l, (argsort l).Pairwise fun o o' => typeOf o ≤ typeOf o'

/-- Rows sorted by their types. -/
def sortRows (typeOf : R → ℕ) (l : List R) : List R :=
  l.mergeSort fun o o' => typeOf o ≤ typeOf o'

theorem sorts_sortRows (typeOf : R → ℕ) : Sorts typeOf (sortRows typeOf) where
  perm l := List.mergeSort_perm l _
  sorted l := by
    have htrans : ∀ a b c : R, decide (typeOf a ≤ typeOf b) = true →
        decide (typeOf b ≤ typeOf c) = true → decide (typeOf a ≤ typeOf c) = true := by
      intro a b c hab hbc
      exact decide_eq_true ((of_decide_eq_true hab).trans (of_decide_eq_true hbc))
    have htotal : ∀ a b : R, (decide (typeOf a ≤ typeOf b) || decide (typeOf b ≤ typeOf a)) := by
      intro a b
      simpa using le_total (typeOf a) (typeOf b)
    exact (List.pairwise_mergeSort htrans htotal l).imp fun h => of_decide_eq_true h

/-- The orders of one view are written. -/
theorem Holds.writeView (h : Holds codec directory entries files) (hsort : Sorts typeOf argsort)
    {view : List Char × List R} (hview : view.2 ≠ []) :
    ∃ files', ArchiveReader.writeView typeOf codec argsort files view = some files' ∧
      Holds codec directory
        (fun k => entries k ++ entriesOf typeOf argsort k [view]) files' := by
  obtain ⟨ks, hks, hmem, hgroups⟩ := exists_groups (hsort.sorted view.2)
  have hfilter : ∀ k, k ∈ ks ↔ ((argsort view.2).filter fun o => typeOf o = k) ≠ [] := by
    intro k
    rw [hmem, ne_eq, List.filter_eq_nil_iff]
    simp
  obtain ⟨files', hfiles', h'⟩ := h.foldlM_writeOrders view.1
    (hks.imp fun hlt => hlt.ne) fun k hk => (hfilter k).mp hk
  refine ⟨files', ?_, ?_⟩
  · rw [ArchiveReader.writeView, if_neg hview, hgroups]
    exact hfiles'
  · have hentries : (fun k => entries k ++
          if k ∈ ks then [(view.1, (argsort view.2).filter fun o => typeOf o = k)] else []) =
        fun k => entries k ++ entriesOf typeOf argsort k [view] := by
      funext k
      rw [entriesOf, List.filterMap_cons, List.filterMap_nil]
      by_cases hk : k ∈ ks
      · have hne := (hfilter k).mp hk
        simp only [if_pos hk, if_neg hne]
      · have hnil := not_not.mp (mt (hfilter k).mpr hk)
        simp only [if_neg hk, if_pos hnil]
    exact hentries ▸ h'

/-- The orders of some views are written. -/
theorem Holds.foldlM_writeView (h : Holds codec directory entries files)
    (hsort : Sorts typeOf argsort) {views : List (List Char × List R)}
    (hviews : ∀ view ∈ views, view.2 ≠ []) :
    ∃ files', views.foldlM (ArchiveReader.writeView typeOf codec argsort) files = some files' ∧
      Holds codec directory
        (fun k => entries k ++ entriesOf typeOf argsort k views) files' := by
  induction views generalizing entries files with
  | nil =>
    refine ⟨files, rfl, ?_⟩
    simpa [entriesOf] using h
  | cons view views ih =>
    obtain ⟨hview, hviews⟩ := List.forall_mem_cons.mp hviews
    obtain ⟨files₁, hfiles₁, h₁⟩ := h.writeView hsort hview
    obtain ⟨files', hfiles', h'⟩ := ih h₁ hviews
    refine ⟨files', ?_, ?_⟩
    · rw [List.foldlM_cons, hfiles₁]
      exact hfiles'
    · have hentries : (fun k => entries k ++ entriesOf typeOf argsort k [view] ++
          entriesOf typeOf argsort k views) =
          fun k => entries k ++ entriesOf typeOf argsort k (view :: views) := by
        funext k
        rw [List.append_assoc, entriesOf, entriesOf, ← List.filterMap_append]
        rfl
      exact hentries ▸ h'

/-- **What the files are afterwards**: those of a type that some view has orders of hold the
arrays of it, the others are as before. -/
theorem npzPerType_spec (codec : Codec (List R)) (hsort : Sorts typeOf argsort)
    {views : List (List Char × List R)}
    (hviews : ∀ view ∈ views, view.2 ≠ []) (directory : ℕ → Option TypeFiles) :
    ∃ directory', npzPerType typeOf codec argsort views directory = some directory' ∧
      ∀ k, directory' k = if entriesOf typeOf argsort k views = [] then directory k
        else some (filesOf codec (entriesOf typeOf argsort k views)) := by
  have hstart : Holds codec directory (fun _ => []) ⟨directory, []⟩ :=
    ⟨fun k => by simp, fun k => by simp⟩
  obtain ⟨files', hfiles', h'⟩ := hstart.foldlM_writeView hsort hviews
  refine ⟨files'.directory, ?_, fun k => ?_⟩
  · rw [npzPerType, hfiles']
    rfl
  · have hdirectory := h'.directory k
    simpa only [List.nil_append] using hdirectory

/-- A view without orders ends the rewriting. -/
theorem npzPerType_eq_none {views : List (List Char × List R)}
    (h : ∃ view ∈ views, view.2 = []) (directory : ℕ → Option TypeFiles) :
    npzPerType typeOf codec argsort views directory = none := by
  obtain ⟨view, hview, hnil⟩ := h
  obtain ⟨before, after, rfl⟩ := List.append_of_mem hview
  have hnone : ∀ files, ArchiveReader.writeView typeOf codec argsort files view = none :=
    fun files => if_pos hnil
  rw [npzPerType, List.foldlM_append]
  cases before.foldlM (ArchiveReader.writeView typeOf codec argsort) ⟨directory, []⟩ with
  | none => rfl
  | some files =>
    rw [Option.bind_eq_bind, Option.bind_some, List.foldlM_cons, hnone]
    rfl

/-! ### What is read -/

theorem comma_not_mem_toString (n : ℕ) : ',' ∉ (toString n).toList := by
  intro h
  exact absurd (isDigit_of_mem_toString h) (by decide)

/-- The time of a line is that of its view. -/
theorem timeOf_indexLine (position : ℕ) {viewtime : List Char} (h : ',' ∉ viewtime) :
    timeOf (indexLine position viewtime ++ ['\n']) = parseTime viewtime := by
  have hfields : (indexLine position viewtime ++ ['\n']).splitOn ',' =
      [(toString position).toList, viewtime ++ ['\n']] := by
    have hlast : ',' ∉ viewtime ++ ['\n'] := by
      intro hmem
      rcases List.mem_append.mp hmem with hmem | hmem
      · exact h hmem
      · exact absurd (List.mem_singleton.mp hmem) (by decide)
    rw [indexLine, List.append_assoc, List.cons_append,
      List.splitOn_append_cons_self_of_not_mem (comma_not_mem_toString position),
      List.splitOn_eq_singleton hlast]
  rw [timeOf, hfields]
  simp

/-- Lines and arrays are read together. -/
theorem readLines_recordLines {es : List (List Char × List R)} {times : List ℤ}
    (hnames : ∀ e ∈ es, ',' ∉ e.1) (htimes : es.mapM (fun e => parseTime e.1) = some times)
    (position : ℕ) :
    readLines codec ((codec.recordLines indexLine position es).map fun line => line ++ ['\n'])
      (codec.records es) = ⟨times.zip (es.map Prod.snd), true⟩ := by
  induction es generalizing times position with
  | nil =>
    obtain rfl := Option.some.inj htimes
    rfl
  | cons e es ih =>
    obtain ⟨hname, hnames⟩ := List.forall_mem_cons.mp hnames
    rw [List.mapM_cons] at htimes
    obtain ⟨time, htime, htimes⟩ := Option.bind_eq_some_iff.mp htimes
    obtain ⟨times, hrest, htimes⟩ := Option.bind_eq_some_iff.mp htimes
    obtain rfl := Option.some.inj htimes
    have hdata : codec.records (e :: es) = codec.save e.2 ++ codec.records es := by
      rw [Codec.records, List.flatMap_cons, Codec.records]
    rw [Codec.recordLines, List.map_cons, readLines, timeOf_indexLine position hname, htime, hdata]
    dsimp only
    rw [codec.load_save]
    dsimp only
    rw [ih hnames hrest]
    rfl

/-- The index has a line for each array. -/
theorem fileLines_filesOf {es : List (List Char × List R)} (hnames : ∀ e ∈ es, '\n' ∉ e.1) :
    fileLines (filesOf codec es).index =
      (codec.recordLines indexLine 0 es).map fun line => line ++ ['\n'] := by
  refine fileLines_flatten fun line hline => ?_
  obtain ⟨e, he, position, rfl⟩ := Codec.mem_recordLines hline
  intro hmem
  rcases List.mem_append.mp hmem with hmem | hmem
  · exact absurd (isDigit_of_mem_toString hmem) (by decide)
  · rcases List.mem_cons.mp hmem with hmem | hmem
    · exact absurd hmem (by decide)
    · exact hnames e he hmem

/-- What is read of an array: the time of its view, and its orders. -/
def yielded (e : List Char × List R) : ℤ × List R := ((parseTime e.1).getD 0, e.2)

/-- **How the files of a type are read.** -/
theorem readSingleType_filesOf {es : List (List Char × List R)}
    (hnames : ∀ e ∈ es, ',' ∉ e.1 ∧ '\n' ∉ e.1 ∧ (parseTime e.1).isSome) :
    readSingleType codec (filesOf codec es) = ⟨es.map yielded, true⟩ := by
  have htimes : es.mapM (fun e => parseTime e.1) =
      some (es.map fun e => (parseTime e.1).getD 0) := by
    induction es with
    | nil => rfl
    | cons e es ih =>
      obtain ⟨he, hes⟩ := List.forall_mem_cons.mp hnames
      obtain ⟨time, htime⟩ := Option.isSome_iff_exists.mp he.2.2
      rw [List.mapM_cons, ih hes, htime, List.map_cons, htime]
      rfl
  rw [readSingleType, fileLines_filesOf fun e he => (hnames e he).2.1]
  refine (readLines_recordLines (fun e he => (hnames e he).1) htimes 0).trans ?_
  rw [List.zip_map']
  rfl

variable (typeOf) in
/-- Whether a view has orders of a type. -/
def hasType (k : ℕ) (view : List Char × List R) : Bool := view.2.any fun o => typeOf o = k

theorem hasType_iff {k : ℕ} {view : List Char × List R} :
    hasType typeOf k view = true ↔ ∃ o ∈ view.2, typeOf o = k := by
  rw [hasType, List.any_eq_true]
  simp only [decide_eq_true_eq]

/-- The views with orders of a type, and its arrays. -/
theorem entriesOf_spec (hsort : Sorts typeOf argsort) (k : ℕ) (views : List (List Char × List R)) :
    List.Forall₂ (fun view e => e.1 = view.1 ∧
        e.2.Perm (view.2.filter fun o => typeOf o = k))
      (views.filter (hasType typeOf k)) (entriesOf typeOf argsort k views) := by
  induction views with
  | nil => exact .nil
  | cons view views ih =>
    have hperm : ((argsort view.2).filter fun o => typeOf o = k).Perm
        (view.2.filter fun o => typeOf o = k) := (hsort.perm view.2).filter _
    rw [entriesOf, List.filterMap_cons]
    by_cases hany : hasType typeOf k view = true
    · have hne : ((argsort view.2).filter fun o => typeOf o = k) ≠ [] := by
        obtain ⟨o, ho, htype⟩ := hasType_iff.mp hany
        refine List.ne_nil_of_mem (hperm.mem_iff.mpr (List.mem_filter.mpr ⟨ho, ?_⟩))
        exact decide_eq_true htype
      rw [List.filter_cons_of_pos hany]
      simp only [if_neg hne]
      exact .cons ⟨rfl, hperm⟩ ih
    · have hnil : ((argsort view.2).filter fun o => typeOf o = k) = [] := by
        refine List.filter_eq_nil_iff.mpr fun o ho htype => hany ?_
        exact hasType_iff.mpr ⟨o, (hsort.perm view.2).mem_iff.mp ho, of_decide_eq_true htype⟩
      rw [List.filter_cons_of_neg hany]
      simp only [if_pos hnil]
      exact ih

theorem entriesOf_eq_nil_iff (hsort : Sorts typeOf argsort) {k : ℕ}
    {views : List (List Char × List R)} :
    entriesOf typeOf argsort k views = [] ↔ ∀ view ∈ views, ∀ o ∈ view.2, typeOf o ≠ k := by
  have hspec := entriesOf_spec hsort k views
  constructor
  · intro hnil
    rw [hnil] at hspec
    have hnone := List.forall₂_nil_right_iff.mp hspec
    intro view hview o ho htype
    exact List.filter_eq_nil_iff.mp hnone view hview (hasType_iff.mpr ⟨o, ho, htype⟩)
  · intro hnone
    have hfilter : views.filter (hasType typeOf k) = [] := by
      refine List.filter_eq_nil_iff.mpr fun view hview hany => ?_
      obtain ⟨o, ho, htype⟩ := hasType_iff.mp hany
      exact hnone view hview o ho htype
    rw [hfilter] at hspec
    exact List.forall₂_nil_left_iff.mp hspec

/-- An array is one of a view. -/
theorem exists_view_of_mem_entriesOf {k : ℕ} {views : List (List Char × List R)}
    {e : List Char × List R} (he : e ∈ entriesOf typeOf argsort k views) :
    ∃ view ∈ views, e.1 = view.1 := by
  obtain ⟨view, hview, he⟩ := List.mem_filterMap.mp he
  dsimp only at he
  split at he
  · exact absurd he (by simp)
  · obtain rfl := Option.some.inj he
    exact ⟨view, hview, rfl⟩

end Writing

/-! ### Both ways -/

section BothWays

variable {R : Type} {typeOf : R → ℕ} {codec : Codec (List R)} {argsort : List R → List R}

/-- The line of each array gives its position and its time. -/
def Indexed (codec : Codec (List R)) (f : TypeFiles) (yields : List (ℤ × List R)) : Prop :=
  ∀ (i : ℕ) (y : ℤ × List R), yields[i]? = some y → ∃ position name rest,
    (fileLines f.index)[i]? = some (indexLine position name ++ ['\n']) ∧
      parseTime name = some y.1 ∧ codec.load (f.data.drop position) = some (y.2, rest)

/-- **The orders of each type are read back view by view**, each view with its time and its
orders of that type in some order, and the positions in the index are those of the
arrays; the files of other types are left alone. -/
theorem per_type_round_trip (codec : Codec (List R)) (hsort : Sorts typeOf argsort)
    {views : List (List Char × List R)}
    (hviews : ∀ view ∈ views, view.2 ≠ [])
    (hnames : ∀ view ∈ views, ',' ∉ view.1 ∧ '\n' ∉ view.1 ∧ (parseTime view.1).isSome)
    (directory : ℕ → Option TypeFiles) :
    ∃ directory',
      multipleNpzsToSingleNpzPerType typeOf codec argsort views directory = some directory' ∧
      ∀ k, ((∀ view ∈ views, ∀ o ∈ view.2, typeOf o ≠ k) → directory' k = directory k) ∧
        ((∃ view ∈ views, ∃ o ∈ view.2, typeOf o = k) → ∃ f,
          ∃ yields : List (ℤ × List R), directory' k = some f ∧
          readSingleType codec f = ⟨yields, true⟩ ∧
          List.Forall₂ (fun (view : List Char × List R) (y : ℤ × List R) =>
              parseTime view.1 = some y.1 ∧ y.2.Perm (view.2.filter fun o => typeOf o = k))
            (views.filter (hasType typeOf k)) yields ∧
          Indexed codec f yields) := by
  obtain ⟨directory', hdirectory', hspec⟩ := npzPerType_spec codec hsort hviews directory
  refine ⟨directory', hdirectory', fun k => ⟨fun hnone => ?_, fun hsome => ?_⟩⟩
  · rw [hspec, if_pos ((entriesOf_eq_nil_iff hsort).mpr hnone)]
  · have hne : entriesOf typeOf argsort k views ≠ [] := by
      obtain ⟨view, hview, o, ho, htype⟩ := hsome
      exact fun hnil => (entriesOf_eq_nil_iff hsort).mp hnil view hview o ho htype
    have hentries : ∀ e ∈ entriesOf typeOf argsort k views,
        ',' ∉ e.1 ∧ '\n' ∉ e.1 ∧ (parseTime e.1).isSome := by
      intro e he
      obtain ⟨view, hview, heq⟩ := exists_view_of_mem_entriesOf he
      rw [heq]
      exact hnames view hview
    have htime : ∀ e ∈ entriesOf typeOf argsort k views, parseTime e.1 = some (yielded e).1 := by
      intro e he
      obtain ⟨time, htime⟩ := Option.isSome_iff_exists.mp (hentries e he).2.2
      rw [yielded, htime]
      rfl
    refine ⟨_, _, by rw [hspec, if_neg hne], readSingleType_filesOf hentries, ?_, ?_⟩
    · rw [List.forall₂_map_right_iff]
      have hboth := entriesOf_spec hsort k views
      refine (List.forall₂_iff_get.mpr ⟨hboth.length_eq, fun i hi hi' => ?_⟩)
      have hget := (List.forall₂_iff_get.mp hboth).2 i hi hi'
      refine ⟨?_, hget.2⟩
      rw [← hget.1]
      exact htime _ (List.get_mem ..)
    · intro i y hy
      rw [List.getElem?_map] at hy
      obtain ⟨e, he, rfl⟩ := Option.map_eq_some_iff.mp hy
      obtain ⟨position, rest, hline, hload⟩ :=
        Codec.load_drop codec indexLine he
      refine ⟨position, e.1, rest, ?_, htime e (List.mem_of_getElem? he), hload⟩
      rw [fileLines_filesOf fun e he => (hentries e he).2.1, List.getElem?_map, hline]
      rfl

/-- Rows of an id and a type. -/
abbrev IdAndType := UInt64 × UInt64

/-- Tritanium and Pyerite at two times, the second one without Pyerite. -/
def sampleViews : List (List Char × List IdAndType) :=
  [("2016_12_06_11_10_02".toList, [(1, 34), (2, 35), (3, 34)]),
    ("2016_12_06_11_15_02".toList, [(3, 34)])]

/-- The type of a row. -/
def IdAndType.type (o : IdAndType) : ℕ := o.2.toNat

theorem sampleViews_ne_nil : ∀ view ∈ sampleViews, view.2 ≠ [] := by decide +kernel

theorem sampleViews_names : ∀ view ∈ sampleViews,
    ',' ∉ view.1 ∧ '\n' ∉ view.1 ∧ (parseTime view.1).isSome := by
  decide +kernel

theorem per_type_round_trip_sample : ∃ directory' f,
    ∃ yields : List (ℤ × List IdAndType),
      multipleNpzsToSingleNpzPerType IdAndType.type (Codec.rows IdAndType)
        (sortRows IdAndType.type) sampleViews (fun _ => none) = some directory' ∧
      directory' 34 = some f ∧
      readSingleType (Codec.rows IdAndType) f = ⟨yields, true⟩ ∧ yields.length = 2 := by
  obtain ⟨directory', hdirectory', h⟩ := per_type_round_trip (Codec.rows IdAndType)
    (sorts_sortRows IdAndType.type) sampleViews_ne_nil sampleViews_names fun _ => none
  have hpresent : ∃ view ∈ sampleViews, ∃ o ∈ view.2, IdAndType.type o = 34 := by
    decide +kernel
  have hlength : (sampleViews.filter (hasType IdAndType.type 34)).length = 2 := by
    decide +kernel
  obtain ⟨f, yields, hf, hread, hboth, -⟩ := (h 34).2 hpresent
  exact ⟨directory', f, yields, hdirectory', hf, hread, hboth.length_eq.symm.trans hlength⟩

theorem mem_toString {seconds : ℤ} {c : Char} (hc : c ∈ (toString seconds).toList) :
    c.isDigit ∨ c = '-' := by
  cases seconds with
  | ofNat n => exact Or.inl (isDigit_of_mem_toString hc)
  | negSucc n =>
    change c ∈ ("-" ++ toString (n + 1)).toList at hc
    rw [String.toList_append] at hc
    rcases List.mem_append.mp hc with hc | hc
    · exact Or.inr (by simpa using hc)
    · exact Or.inl (isDigit_of_mem_toString hc)

/-- The text of a time has neither a comma nor an end of a line. -/
theorem not_mem_floatText (seconds : ℤ) :
    ',' ∉ floatText seconds ∧ '\n' ∉ floatText seconds := by
  have hchars : ∀ c ∈ floatText seconds,
      (c.isDigit ∨ c = '-') ∨ c ∈ ['.', '0', 'e', '+', '1'] := by
    intro c hc
    rw [floatText] at hc
    split at hc
    · rcases List.mem_append.mp hc with hc | hc
      · exact Or.inl (mem_toString hc)
      · refine Or.inr ?_
        rcases List.mem_pair.mp hc with rfl | rfl <;> decide
    · dsimp only at hc
      rcases List.mem_append.mp hc with hc | hc
      · rcases List.mem_append.mp hc with hc | hc
        · exact Or.inl (mem_toString (List.mem_of_mem_take hc))
        · split at hc
          · cases hc
          · rcases List.mem_cons.mp hc with rfl | hc
            · exact Or.inr (by decide)
            · have htail := (List.dropWhile_suffix _).subset (List.mem_reverse.mp hc)
              exact Or.inl (mem_toString (List.mem_of_mem_tail (List.mem_reverse.mp htail)))
      · refine Or.inr ?_
        simp only [List.mem_cons, List.not_mem_nil, or_false] at hc ⊢
        tauto
  constructor
  · intro h
    exact absurd (hchars _ h) (by decide)
  · intro h
    exact absurd (hchars _ h) (by decide)

/-- The views of an archive as they are written, with the texts of their times. -/
def archived (archive : List (List Char × List R)) : List (List Char × List R) :=
  archive.map fun view => (floatText ((parseTime view.1).getD 0), view.2)

theorem single_eq {archive : List (List Char × List R)}
    (hnames : ∀ view ∈ archive, (parseTime view.1).isSome) (directory : ℕ → Option TypeFiles) :
    singleNpzToSingleNpzPerType typeOf codec argsort archive directory =
      npzPerType typeOf codec argsort (archived archive) directory := by
  have hload : loadNpz archive =
      some (archive.map fun view => ((parseTime view.1).getD 0, view.2)) := by
    induction archive with
    | nil => rfl
    | cons view archive ih =>
      obtain ⟨hview, hnames⟩ := List.forall_mem_cons.mp hnames
      obtain ⟨time, htime⟩ := Option.isSome_iff_exists.mp hview
      have hrest := ih hnames
      rw [loadNpz] at hrest ⊢
      rw [List.mapM_cons, hrest, htime, List.map_cons, htime]
      rfl
  rw [singleNpzToSingleNpzPerType, hload, Option.bind_eq_bind, Option.bind_some, List.map_map]
  rfl

/-- **Nothing is read of what was written from one archive**: the times in its indices are
numbers of seconds, which are not read as times. -/
theorem single_not_read (codec : Codec (List R)) (hsort : Sorts typeOf argsort)
    {archive : List (List Char × List R)}
    (hviews : ∀ view ∈ archive, view.2 ≠ [])
    (hnames : ∀ view ∈ archive, (parseTime view.1).isSome)
    (directory : ℕ → Option TypeFiles) :
    ∃ directory',
      singleNpzToSingleNpzPerType typeOf codec argsort archive directory = some directory' ∧
      ∀ k, (∃ view ∈ archive, ∃ o ∈ view.2, typeOf o = k) → ∃ f, directory' k = some f ∧
        readSingleType codec f = ⟨[], false⟩ := by
  have harchived : ∀ view ∈ archived archive, view.2 ≠ [] := by
    intro view hview
    obtain ⟨view', hview', rfl⟩ := List.mem_map.mp hview
    exact hviews view' hview'
  obtain ⟨directory', hdirectory', hspec⟩ := npzPerType_spec codec hsort harchived directory
  refine ⟨directory', (single_eq hnames directory).trans hdirectory', fun k hk => ?_⟩
  have hne : entriesOf typeOf argsort k (archived archive) ≠ [] := by
    obtain ⟨view, hview, o, ho, htype⟩ := hk
    intro hnil
    exact (entriesOf_eq_nil_iff hsort).mp hnil _ (List.mem_map_of_mem hview) o ho htype
  have hentries : ∀ e ∈ entriesOf typeOf argsort k (archived archive),
      ',' ∉ e.1 ∧ '\n' ∉ e.1 ∧ parseTime e.1 = none := by
    intro e he
    obtain ⟨view, hview, heq⟩ := exists_view_of_mem_entriesOf he
    obtain ⟨view', hview', rfl⟩ := List.mem_map.mp hview
    obtain ⟨seconds, hseconds⟩ := Option.isSome_iff_exists.mp (hnames view' hview')
    obtain ⟨hcomma, hline⟩ := not_mem_floatText seconds
    rw [heq, hseconds]
    exact ⟨hcomma, hline, parseTime_floatText hseconds⟩
  refine ⟨_, by rw [hspec, if_neg hne], ?_⟩
  -- the first line is not read
  rw [readSingleType, fileLines_filesOf fun e he => (hentries e he).2.1]
  obtain ⟨e, es, hes⟩ := List.exists_cons_of_ne_nil hne
  obtain ⟨hcomma, -, htime⟩ := hentries e (hes ▸ List.mem_cons_self)
  rw [hes, Codec.recordLines, List.map_cons, readLines, timeOf_indexLine 0 hcomma, htime]

theorem single_not_read_sample : ∃ directory' f,
    singleNpzToSingleNpzPerType IdAndType.type (Codec.rows IdAndType)
      (sortRows IdAndType.type) sampleViews (fun _ => none) = some directory' ∧
    directory' 35 = some f ∧ readSingleType (Codec.rows IdAndType) f = ⟨[], false⟩ := by
  obtain ⟨directory', hdirectory', h⟩ := single_not_read (Codec.rows IdAndType)
    (sorts_sortRows IdAndType.type) sampleViews_ne_nil
    (fun view hview => (sampleViews_names view hview).2.2) fun _ => none
  have hpresent : ∃ view ∈ sampleViews, ∃ o ∈ view.2, IdAndType.type o = 35 := by
    decide +kernel
  obtain ⟨f, hf, hread⟩ := h 35 hpresent
  exact ⟨directory', f, hdirectory', hf, hread⟩

end BothWays

end ArchiveReader
end EveIndustryPlanner
