import EveIndustryPlanner.Lib.Pod

/-!
# Records of any length

Records are appended to a file, and for each of them a line with its position and a name
to an index.  They are read back one after the other, or one of them from its position.

## Main definitions

* `Codec` — how a value is written to a file and read from its front.
* `fileLines` — the lines of a text, each with its end.
* `recordLines` — the lines of an index.
* `Codec.rows` — rows of one width, behind their number.

## Main results

* `fileLines_flatten` — lines are read as they were written.
* `load_drop` — **a record is read from the position that its line gives.**
-/

namespace EveIndustryPlanner

/-- How a value is written, and read off the front of a file. -/
structure Codec (α : Type*) where
  save : α → Bytes
  load : Bytes → Option (α × Bytes)
  load_save : ∀ a rest, load (save a ++ rest) = some (a, rest)

/-! ### Lines -/

/-- The lines of a text, each with its end; the last one may have none. -/
def fileLines : List Char → List (List Char)
  | [] => []
  | c :: cs =>
    if c = '\n' then [c] :: fileLines cs
    else match fileLines cs with
      | [] => [[c]]
      | line :: lines => (c :: line) :: lines

/-- The first line of a text. -/
theorem fileLines_cons {line : List Char} (h : '\n' ∉ line) (cs : List Char) :
    fileLines (line ++ '\n' :: cs) = (line ++ ['\n']) :: fileLines cs := by
  induction line with
  | nil => rw [List.nil_append, fileLines, if_pos rfl, List.nil_append]
  | cons c line ih =>
    have hc : c ≠ '\n' := List.ne_of_not_mem_cons h |>.symm
    rw [List.cons_append, fileLines, if_neg hc, ih (List.not_mem_of_not_mem_cons h)]
    rfl

/-- Lines are read as they were written. -/
theorem fileLines_flatten {lines : List (List Char)} (h : ∀ line ∈ lines, '\n' ∉ line) :
    fileLines (lines.flatMap fun line => line ++ ['\n']) =
      lines.map fun line => line ++ ['\n'] := by
  induction lines with
  | nil => rfl
  | cons line lines ih =>
    obtain ⟨hline, hlines⟩ := List.forall_mem_cons.mp h
    rw [List.flatMap_cons, List.append_assoc, List.singleton_append, fileLines_cons hline,
      ih hlines, List.map_cons]

/-! ### Positions -/

namespace Codec

variable {α β : Type*} (codec : Codec α)

/-- The lines of an index: what is written for the position and the name of each record. -/
def recordLines (line : ℕ → β → List Char) : ℕ → List (β × α) → List (List Char)
  | _, [] => []
  | position, e :: entries =>
    line position e.1 ::
      recordLines line (position + (codec.save e.2).length) entries

/-- The bytes of some records. -/
def records (entries : List (β × α)) : Bytes := entries.flatMap fun e => codec.save e.2

variable {codec} {line : ℕ → β → List Char}

@[simp] theorem length_recordLines (position : ℕ) (entries : List (β × α)) :
    (codec.recordLines line position entries).length = entries.length := by
  induction entries generalizing position with
  | nil => rfl
  | cons e entries ih => rw [recordLines, List.length_cons, ih, List.length_cons]

/-- The lines of further records go on where the others end. -/
theorem recordLines_append (position : ℕ) (entries entries' : List (β × α)) :
    codec.recordLines line position (entries ++ entries') =
      codec.recordLines line position entries ++
        codec.recordLines line (position + (codec.records entries).length) entries' := by
  induction entries generalizing position with
  | nil => rfl
  | cons e entries ih =>
    rw [List.cons_append, recordLines, ih, recordLines, List.cons_append, records, records,
      List.flatMap_cons, List.length_append, Nat.add_assoc]

/-- One more record. -/
theorem records_snoc (entries : List (β × α)) (e : β × α) :
    codec.records (entries ++ [e]) = codec.records entries ++ codec.save e.2 := by
  rw [records, List.flatMap_append, List.flatMap_singleton, records]

/-- Every line gives a position behind the first one, and the name of a record. -/
theorem mem_recordLines {position : ℕ} {entries : List (β × α)} {l : List Char}
    (h : l ∈ codec.recordLines line position entries) :
    ∃ e ∈ entries, ∃ position', l = line position' e.1 := by
  induction entries generalizing position with
  | nil => exact absurd h List.not_mem_nil
  | cons e entries ih =>
    rcases List.mem_cons.mp h with rfl | h
    · exact ⟨e, List.mem_cons_self, position, rfl⟩
    · obtain ⟨e', he', position', rfl⟩ := ih h
      exact ⟨e', List.mem_cons_of_mem _ he', position', rfl⟩

/-- **A record is read from the position that its line gives.** -/
theorem load_drop (codec : Codec α) (line : ℕ → β → List Char) {entries : List (β × α)} {k : ℕ}
    {e : β × α} (he : entries[k]? = some e) :
    ∃ position rest, (codec.recordLines line 0 entries)[k]? = some (line position e.1) ∧
      codec.load ((codec.records entries).drop position) = some (e.2, rest) := by
  obtain ⟨hk, hget⟩ := List.getElem?_eq_some_iff.mp he
  -- what is before the record, and what is behind it
  obtain ⟨before, after, rfl, hlength⟩ : ∃ before after, entries = before ++ e :: after ∧
      before.length = k :=
    ⟨entries.take k, entries.drop (k + 1), by rw [← hget, List.cons_getElem_drop_succ,
      List.take_append_drop], by rw [List.length_take, Nat.min_eq_left hk.le]⟩
  refine ⟨(codec.records before).length, codec.records after, ?_, ?_⟩
  · rw [recordLines_append, List.getElem?_append_right (by rw [length_recordLines, hlength]),
      length_recordLines, hlength, Nat.sub_self, recordLines, List.getElem?_cons_zero, Nat.zero_add]
  · have hrecords : codec.records (before ++ e :: after) =
        codec.records before ++ (codec.save e.2 ++ codec.records after) := by
      rw [records, List.flatMap_append, List.flatMap_cons, records, records]
    rw [hrecords, List.drop_left, codec.load_save]

end Codec

/-! ### Rows -/

section Rows

variable {α : Type} [Pod α]

/-- Some rows off the front of a file. -/
def readRows : ℕ → Bytes → Option (List α × Bytes)
  | 0, data => some ([], data)
  | n + 1, data => do
    let (a, data) ← Pod.read α data
    let (l, data) ← readRows n data
    return (a :: l, data)

theorem readRows_flatMap (l : List α) (rest : Bytes) :
    readRows l.length (l.flatMap Pod.write ++ rest) = some (l, rest) := by
  induction l with
  | nil => rfl
  | cons a l ih =>
    rw [List.length_cons, readRows, List.flatMap_cons, List.append_assoc, Pod.read_write,
      Option.bind_eq_bind, Option.bind_some]
    dsimp only
    rw [ih]
    rfl

/-- Rows of one width behind their number, which is a mark for each of them. -/
def Codec.rows (α : Type) [Pod α] : Codec (List α) where
  save l := List.replicate l.length 1 ++ 0 :: l.flatMap Pod.write
  load data :=
    let n := (data.takeWhile (· = 1)).length
    readRows n (data.drop (n + 1))
  load_save l rest := by
    have hmarks : (List.replicate l.length 1 ++ 0 :: l.flatMap Pod.write ++ rest).takeWhile
        (· = (1 : UInt8)) = List.replicate l.length 1 := by
      rw [List.append_assoc, List.takeWhile_append_of_pos (by simp)]
      simp
    have hrows : (List.replicate l.length 1 ++ 0 :: l.flatMap Pod.write ++ rest).drop
        (l.length + 1) = l.flatMap Pod.write ++ rest := by
      rw [List.append_assoc, ← List.drop_drop, List.drop_left' List.length_replicate]
      rfl
    dsimp only
    rw [hmarks, List.length_replicate, hrows, readRows_flatMap]

end Rows

end EveIndustryPlanner
