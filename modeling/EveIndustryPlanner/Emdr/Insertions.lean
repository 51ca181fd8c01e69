import EveIndustryPlanner.Emdr.StoredMessages

/-!
# How insertions end

A message is inserted row by row until something throws, and what was inserted until
then stays.  The database refuses a row that fails a check or repeats a key; the
statement is not reset then, and takes no parameters again.  From then on every
message that needs it is cut where it does.

## Main definitions

* `Verdict`, `Rowset.verdict`, `rowsetsVerdict` — how rows fare, as far as their
  contents say.
* `Message.stored` — what should be read back of a message.
* `Message.Accepted` — a message is inserted as a whole.
* `Message.CutOf` — a message of which something at the end is missing.
* `OnlyRefused` — no statements are busy but those that may be refused.

## Main results

* `insertRows_ends`, `insertRowsets_ends`, `insertUploadKeys_ends` — how the three
  loops end.
* `insertMessage_ends` — **how the insertion of a message ends**: it is read back, or
  it is cut and the statement that was refused is busy.
-/

namespace EveIndustryPlanner
namespace Emdr
namespace Messages

/-! ### Verdicts -/

/-- How rows fare: all are inserted, or one has a number that is too large, or one is
refused by the database. -/
inductive Verdict where
  | fine
  | unbound
  | refused
  deriving DecidableEq

section Verdicts

variable {T : Type} [ReadBack T]

/-- How some rows fare behind those of a rowset. -/
def rowsVerdict (r : StoredRowset) : List T → Verdict
  | [] => .fine
  | x :: l =>
    if (Rows.bind x 0).isNone then .unbound
    else if ReadBack.refuses r x then .refused
    else rowsVerdict (ReadBack.push r x) l

/-- A rowset without its rows. -/
def Rowset.head (r : Rowset T) : StoredRowset := ⟨r.generatedAt, r.regionID, r.typeID, [], []⟩

/-- A rowset as it is read back. -/
def Rowset.stored (r : Rowset T) : StoredRowset := r.x.foldl ReadBack.push r.head

def Rowset.verdict (r : Rowset T) : Verdict :=
  if (r.bind 0).isNone then .unbound else rowsVerdict r.head r.x

/-- How some rowsets fare. -/
def rowsetsVerdict : List (Rowset T) → Verdict
  | [] => .fine
  | r :: l => if r.verdict = .fine then rowsetsVerdict l else r.verdict

/-- A message as it is read back. -/
def Message.stored (m : Message T) : StoredMessage :=
  ⟨m.uploadKeys, m.generator, m.currentTime, m.version, m.rowsets.map Rowset.stored⟩

/-- No rowset has a row. -/
def Message.Empty (m : Message T) : Prop := ∀ r ∈ m.rowsets, r.x = []

/-- All rows of a message are inserted. -/
def Message.Passes (m : Message T) (busy : Stmt → Bool) : Prop :=
  rowsetsVerdict m.rowsets = .fine ∧ (busy (Rows.stmt T) = true → m.Empty)

/-- All of a message is inserted. -/
def Message.Accepted (m : Message T) (busy : Stmt → Bool) : Prop :=
  m.Passes busy ∧ m.uploadKeys.Nodup ∧
    (busy .insertUploadKeyAssociation = true → m.uploadKeys = [])

/-- What is busy after a message. -/
def Message.BusyAfter (m : Message T) (busy : Stmt → Bool) (stmt : Stmt) : Prop :=
  busy stmt = true ∨ stmt = Rows.stmt T ∧ rowsetsVerdict m.rowsets = .refused ∨
    stmt = .insertUploadKeyAssociation ∧ m.Passes busy ∧ ¬ m.uploadKeys.Nodup

/-- A message of which a rowset or a row, and all that follows, or some upload keys are
missing. -/
def Message.CutOf (m' m : Message T) : Prop :=
  m'.generator = m.generator ∧ m'.currentTime = m.currentTime ∧ m'.version = m.version ∧
    ((∃ before r after, m.rowsets = before ++ r :: after ∧ m'.uploadKeys = [] ∧
        (m'.rowsets = before ∨ ∃ done x rest, r.x = done ++ x :: rest ∧
          m'.rowsets = before ++ [{ r with x := done }])) ∨
      m'.rowsets = m.rowsets ∧ ∃ before k after, m.uploadKeys = before ++ k :: after ∧
        m'.uploadKeys = before)

end Verdicts

/-- Rows that are pushed one after another are added all at once. -/
theorem foldl_push {T : Type} [ReadBack T] {f : StoredRowset → List T → StoredRowset}
    (hnil : ∀ r, f r [] = r) (hcons : ∀ r x l, f (ReadBack.push r x) l = f r (x :: l))
    (r : StoredRowset) (l : List T) : l.foldl ReadBack.push r = f r l := by
  induction l generalizing r with
  | nil => exact (hnil r).symm
  | cons x l ih => rw [List.foldl_cons, ih, hcons]

/-- What is read back of a rowset of orders. -/
theorem stored_orders (r : Rowset Orders) :
    r.stored = ⟨r.generatedAt, r.regionID, r.typeID, r.x, []⟩ := by
  refine foldl_push (f := fun s l => { s with orders := s.orders ++ l }) ?_ ?_ r.head r.x
  · intro s
    simp
  · intro s o l
    simp [ReadBack.push, StoredRowset.pushOrder]

/-- What is read back of a rowset of history. -/
theorem stored_history (r : Rowset History) :
    r.stored = ⟨r.generatedAt, r.regionID, r.typeID, [], r.x⟩ := by
  refine foldl_push (f := fun s l => { s with history := s.history ++ l }) ?_ ?_ r.head r.x
  · intro s
    simp
  · intro s x l
    simp [ReadBack.push, StoredRowset.pushHistory]

/-- What is bound of the header of a rowset. -/
theorem Rowset.bind_spec {T : Type} [Rows T] {rowset : Rowset T} {messageID : ℕ}
    {row : RowsetHeaderRow} (h : rowset.bind messageID = some row) : row.message = messageID ∧
      (⟨⟨row.generatedAt⟩, column row.regionID, column row.typeID, [], []⟩ : StoredRowset) =
        rowset.head := by
  unfold Rowset.bind at h
  simp only [Option.bind_eq_bind, Option.bind_eq_some_iff, Option.pure_def, Option.some.injEq] at h
  obtain ⟨regionID, hregion, typeID, htype, rfl⟩ := h
  refine ⟨rfl, ?_⟩
  rw [Rowset.head, column_of_bind hregion, column_of_bind htype]

theorem Rowset.isSome_bind {T : Type} [Rows T] (rowset : Rowset T) (messageID : ℕ) :
    (rowset.bind messageID).isSome = (rowset.bind 0).isSome := by
  simp only [Rowset.bind, Option.bind_eq_bind, Option.pure_def, Option.isSome_bind,
    Option.isSome_some]

/-! ### Rows -/

section Code

variable {T : Type} [ReadBack T] {log : List StoredMessage} {m : StoredMessage}
  {r : StoredRowset} {messageID headerID : ℕ} {s : EmdrDb}

/-- How the insertion of a row ends. -/
theorem insert_ends {x : T} (h : WritingRowset log m r messageID headerID s.tables) :
    (insert x headerID).Ends
      (fun _ s' => WritingRowset log m (ReadBack.push r x) messageID headerID s'.tables ∧
        s'.busy = s.busy ∧ s'.backlog = s.backlog ∧ s.busy (Rows.stmt T) = false ∧
        (Rows.bind x 0).isNone = false ∧ ReadBack.refuses r x = false)
      (fun e s' => e ≠ .undefined ∧ s'.tables = s.tables ∧ s'.backlog = s.backlog ∧
        (s'.busy = s.busy ∧ (s.busy (Rows.stmt T) = true ∨ (Rows.bind x 0).isNone) ∨
          s'.busy = Function.update s.busy (Rows.stmt T) true ∧ s.busy (Rows.stmt T) = false ∧
            (Rows.bind x 0).isNone = false ∧ ReadBack.refuses r x = true)) s := by
  obtain ⟨before, row, -, -, hr⟩ := h.last
  have hbound : ∀ row', Rows.bind x headerID = some row' → (Rows.bind x 0).isNone = false := by
    intro row' hrow'
    have hsome := ReadBack.isSome_bind x headerID
    rw [hrow'] at hsome
    rw [← Option.not_isSome, ← hsome]
    rfl
  have hrefuses : ∀ row', Rows.bind x headerID = some row' →
      (ReadBack.refuses r x = true ↔ ∃ rc, Rows.insert s.tables row' = .error rc) := by
    intro row' hrow'
    rw [← hr]
    exact ReadBack.refuses_iff h.writing.integrity hrow'
  unfold insert
  rw [Attempt.ends_bind]
  refine execute_ends (fun hbusy => ?_) (fun hbusy hrow => ?_) (fun row' id t hbusy hrow' hok => ?_)
    fun row' rc hbusy hrow' herror => ?_
  · exact ⟨by simp [sqliteError], rfl, rfl, Or.inl ⟨rfl, Or.inl hbusy⟩⟩
  · have hsome := ReadBack.isSome_bind x headerID
    rw [hrow] at hsome
    refine ⟨by simp, rfl, rfl, Or.inl ⟨rfl, Or.inr ?_⟩⟩
    rw [← Option.not_isSome, ← hsome]
    rfl
  · refine ⟨h.push (ReadBack.adds hrow' hok), rfl, rfl, hbusy, hbound row' hrow', ?_⟩
    rw [Bool.eq_false_iff, Ne, hrefuses row' hrow', hok]
    simp
  · exact ⟨by simp [sqliteError], rfl, rfl, Or.inr ⟨rfl, hbusy, hbound row' hrow',
      (hrefuses row' hrow').mpr ⟨rc, herror⟩⟩⟩

/-- How the insertion of some rows ends. -/
theorem insertRows_ends {l : List T} (h : WritingRowset log m r messageID headerID s.tables) :
    (l.forM fun x => insert x headerID).Ends
      (fun _ s' =>
        WritingRowset log m (l.foldl ReadBack.push r) messageID headerID s'.tables ∧
        s'.busy = s.busy ∧ s'.backlog = s.backlog ∧ rowsVerdict r l = .fine ∧
        (s.busy (Rows.stmt T) = true → l = []))
      (fun e s' => e ≠ .undefined ∧ s'.backlog = s.backlog ∧
        (∃ done x rest, l = done ++ x :: rest ∧
          WritingRowset log m (done.foldl ReadBack.push r) messageID headerID s'.tables) ∧
        ¬ (rowsVerdict r l = .fine ∧ (s.busy (Rows.stmt T) = true → l = [])) ∧
        ∀ stmt, s'.busy stmt = true ↔
          s.busy stmt = true ∨ stmt = Rows.stmt T ∧ rowsVerdict r l = .refused) s := by
  let I : List T → EmdrDb → Prop := fun done s' =>
    WritingRowset log m (done.foldl ReadBack.push r) messageID headerID s'.tables ∧
      s'.busy = s.busy ∧ s'.backlog = s.backlog ∧
      (∀ rest, rowsVerdict r (done ++ rest) = rowsVerdict (done.foldl ReadBack.push r) rest) ∧
      (s.busy (Rows.stmt T) = true → done = [])
  refine (Attempt.Ends.forM (I := I) ⟨h, rfl, rfl, fun _ => rfl, fun _ => rfl⟩ ?_).mono ?_
    fun _ _ he => he
  · rintro done x rest s' hl ⟨hw, hbusy, hbacklog, hverdict, hdone⟩
    refine (insert_ends (x := x) hw).mono ?_ ?_
    · rintro - s'' ⟨hw', hbusy', hbacklog', hfree, hbound, hrefuses⟩
      refine ⟨by rwa [List.foldl_concat], hbusy'.trans hbusy, hbacklog'.trans hbacklog, ?_, ?_⟩
      · intro rest'
        rw [List.append_assoc, List.singleton_append, hverdict, rowsVerdict, hbound, hrefuses,
          List.foldl_concat]
        rfl
      · intro htrue
        rw [hbusy, htrue] at hfree
        exact absurd hfree (by simp)
    · rintro e s'' ⟨hne, htables, hbacklog', hreason⟩
      rw [hbusy] at hreason
      have hnil : l ≠ [] := by
        rw [hl]
        simp
      refine ⟨hne, hbacklog'.trans hbacklog, ⟨done, x, rest, hl, htables ▸ hw⟩, ?_⟩
      rw [hl, hverdict, rowsVerdict, ← hl]
      rcases hreason with ⟨hbusy', htrue | hbound⟩ | ⟨hbusy', hfree, hbound, hrefuses⟩
      · refine ⟨fun hfine => hnil (hfine.2 htrue), fun stmt => ?_⟩
        rw [hbusy']
        constructor
        · exact Or.inl
        · rintro (hstmt | ⟨rfl, -⟩)
          · exact hstmt
          · exact htrue
      · simp [hbusy', hbound]
      · simp only [hbound, hrefuses, Bool.false_eq_true, ite_false, ite_true, hbusy']
        refine ⟨by simp, fun stmt => ?_⟩
        by_cases hstmt : stmt = Rows.stmt T
        · simp [hstmt]
        · simp [hstmt]
  · rintro - s' ⟨hw, hbusy, hbacklog, hverdict, hdone⟩
    refine ⟨hw, hbusy, hbacklog, ?_, hdone⟩
    have hfine := hverdict []
    rwa [List.append_nil] at hfine

/-! ### Rowsets -/

/-- How the insertion of a rowset ends. -/
theorem insertRowset_ends {rowset : Rowset T} (h : Writing log m messageID s.tables)
    (hfree : s.busy .insertRowsetHeader = false) :
    (insertRowset rowset messageID).Ends
      (fun _ s' => Writing log { m with rowsets := m.rowsets ++ [rowset.stored] } messageID
          s'.tables ∧
        s'.busy = s.busy ∧ s'.backlog = s.backlog ∧ rowset.verdict = .fine ∧
        (s.busy (Rows.stmt T) = true → rowset.x = []))
      (fun e s' => e ≠ .undefined ∧ s'.backlog = s.backlog ∧
        (Writing log m messageID s'.tables ∨ ∃ done x rest, rowset.x = done ++ x :: rest ∧
          Writing log { m with rowsets := m.rowsets ++ [{ rowset with x := done }.stored] }
            messageID s'.tables) ∧
        ¬ (rowset.verdict = .fine ∧ (s.busy (Rows.stmt T) = true → rowset.x = [])) ∧
        ∀ stmt, s'.busy stmt = true ↔
          s.busy stmt = true ∨ stmt = Rows.stmt T ∧ rowset.verdict = .refused) s := by
  have hsome := rowset.isSome_bind messageID
  unfold insertRowset insertRowsetHeader
  rw [Attempt.ends_bind]
  refine execute_ends (fun hbusy => ?_) (fun _ hrow => ?_) (fun row id t _ hrow hok => ?_)
    fun row rc _ _ herror => absurd herror (by simp)
  · rw [hfree] at hbusy
    exact absurd hbusy (by simp)
  · rw [hrow] at hsome
    have hverdict : rowset.verdict = .unbound := by
      rw [Rowset.verdict, ← Option.not_isSome, ← hsome]
      rfl
    refine ⟨by simp, rfl, Or.inl h, ?_, ?_⟩
    · simp [hverdict]
    · simp [hverdict]
  · obtain ⟨rfl, rfl⟩ := Prod.mk.inj (Except.ok.inj hok)
    obtain ⟨hmessage, hhead⟩ := Rowset.bind_spec hrow
    rw [hrow] at hsome
    have hverdict : rowset.verdict = rowsVerdict rowset.head rowset.x := by
      rw [Rowset.verdict, ← Option.not_isSome, ← hsome]
      rfl
    have hstart := h.startRowset hmessage
    rw [hhead] at hstart
    refine (insertRows_ends (s := { s with tables := _ }) hstart).mono ?_ ?_
    · rintro - s' ⟨hw, hbusy, hbacklog, hfine, hnil⟩
      exact ⟨hw.writing, hbusy, hbacklog, hverdict.trans hfine, hnil⟩
    · rintro e s' ⟨hne, hbacklog, ⟨done, x, rest, hl, hw⟩, hnot, hbusy⟩
      rw [hverdict]
      exact ⟨hne, hbacklog, Or.inr ⟨done, x, rest, hl, hw.writing⟩, hnot, hbusy⟩

/-- How the insertion of the rowsets of a message ends. -/
theorem insertRowsets_ends {rowsets : List (Rowset T)} (h : Writing log m messageID s.tables)
    (hm : m.rowsets = []) (hfree : s.busy .insertRowsetHeader = false) :
    (rowsets.forM fun rowset => insertRowset rowset messageID).Ends
      (fun _ s' => Writing log { m with rowsets := rowsets.map Rowset.stored } messageID
          s'.tables ∧
        s'.busy = s.busy ∧ s'.backlog = s.backlog ∧ rowsetsVerdict rowsets = .fine ∧
        (s.busy (Rows.stmt T) = true → ∀ r ∈ rowsets, r.x = []))
      (fun e s' => e ≠ .undefined ∧ s'.backlog = s.backlog ∧
        (∃ before r after, rowsets = before ++ r :: after ∧
          (Writing log { m with rowsets := before.map Rowset.stored } messageID s'.tables ∨
            ∃ done x rest, r.x = done ++ x :: rest ∧
              Writing log { m with
                rowsets := (before ++ [{ r with x := done }]).map Rowset.stored } messageID
                s'.tables)) ∧
        ¬ (rowsetsVerdict rowsets = .fine ∧
          (s.busy (Rows.stmt T) = true → ∀ r ∈ rowsets, r.x = [])) ∧
        ∀ stmt, s'.busy stmt = true ↔
          s.busy stmt = true ∨ stmt = Rows.stmt T ∧ rowsetsVerdict rowsets = .refused) s := by
  let I : List (Rowset T) → EmdrDb → Prop := fun done s' =>
    Writing log { m with rowsets := done.map Rowset.stored } messageID s'.tables ∧
      s'.busy = s.busy ∧ s'.backlog = s.backlog ∧
      (∀ rest, rowsetsVerdict (done ++ rest) = rowsetsVerdict rest) ∧
      (s.busy (Rows.stmt T) = true → ∀ r ∈ done, r.x = [])
  have hstart : I [] s := by
    refine ⟨?_, rfl, rfl, fun _ => rfl, fun _ _ hr => absurd hr List.not_mem_nil⟩
    rw [List.map_nil, ← hm]
    exact h
  refine (Attempt.Ends.forM (I := I) hstart ?_).mono ?_ fun _ _ he => he
  · rintro done rowset rest s' hl ⟨hw, hbusy, hbacklog, hverdict, hdone⟩
    have hfree' : s'.busy .insertRowsetHeader = false := hbusy ▸ hfree
    refine (insertRowset_ends hw hfree').mono ?_ ?_
    · rintro - s'' ⟨hw', hbusy', hbacklog', hfine, hnil⟩
      refine ⟨?_, hbusy'.trans hbusy, hbacklog'.trans hbacklog, ?_, ?_⟩
      · rw [List.map_append, List.map_singleton]
        exact hw'
      · intro rest'
        rw [List.append_assoc, List.singleton_append, hverdict, rowsetsVerdict, if_pos hfine]
      · intro htrue r hr
        rcases List.mem_append.mp hr with hr | hr
        · exact hdone htrue r hr
        · obtain rfl := List.mem_singleton.mp hr
          exact hnil (hbusy ▸ htrue)
    · rintro e s'' ⟨hne, hbacklog', hcut, hnot, hbusy'⟩
      rw [hbusy] at hnot hbusy'
      have hvalue : rowsetsVerdict rowsets =
          if rowset.verdict = .fine then rowsetsVerdict rest else rowset.verdict := by
        rw [hl, hverdict, rowsetsVerdict]
      refine ⟨hne, hbacklog'.trans hbacklog, ⟨done, rowset, rest, hl, ?_⟩, ?_, fun stmt => ?_⟩
      · rcases hcut with hw' | ⟨done', x, rest', hx, hw'⟩
        · exact Or.inl hw'
        · refine Or.inr ⟨done', x, rest', hx, ?_⟩
          rw [List.map_append, List.map_singleton]
          exact hw'
      · rintro ⟨hfine, hempty⟩
        have hone : rowset.verdict = .fine := by
          by_contra hne
          rw [hvalue, if_neg hne] at hfine
          exact hne hfine
        exact hnot ⟨hone, fun htrue => hempty htrue rowset (by rw [hl]; simp)⟩
      · rw [hbusy', hvalue]
        by_cases hfine : rowset.verdict = .fine
        · have htrue : s.busy (Rows.stmt T) = true := by
            by_contra hfalse
            exact hnot ⟨hfine, fun htrue => absurd htrue hfalse⟩
          rw [if_pos hfine, hfine]
          constructor
          · rintro (hstmt | ⟨rfl, hrefused⟩)
            · exact Or.inl hstmt
            · exact absurd hrefused (by simp)
          · rintro (hstmt | ⟨rfl, -⟩)
            · exact Or.inl hstmt
            · exact Or.inl htrue
        · rw [if_neg hfine]
  · rintro - s' ⟨hw, hbusy, hbacklog, hverdict, hdone⟩
    have hfine := hverdict []
    rw [List.append_nil] at hfine
    exact ⟨hw, hbusy, hbacklog, hfine, hdone⟩

/-! ### Upload keys -/

/-- A new upload key has its number and changes no message. -/
theorem insertUploadKey_ends {key : Key} (h : Writing log m messageID s.tables)
    (hfree : s.busy .insertUploadKey = false) :
    (insertUploadKey key).Ends
      (fun id s' => Writing log m messageID s'.tables ∧ s'.busy = s.busy ∧
        s'.backlog = s.backlog ∧ s'.tables.uploadKeys.find id = some key)
      (fun _ _ => False) s := by
  unfold insertUploadKey
  rw [Attempt.ends_bind, Attempt.ends_get]
  cases hid : s.tables.uploadKeys.idOf key with
  | some id => exact ⟨h, rfl, rfl, IdTable.find_of_idOf hid⟩
  | none =>
    refine execute_ends (fun hbusy => ?_) (fun _ hrow => absurd hrow (by simp))
      (fun k id t _ hrow hok => ?_) fun _ _ _ _ herror => absurd herror (by simp)
    · rw [hfree] at hbusy
      exact absurd hbusy (by simp)
    · obtain rfl := Option.some.inj hrow
      obtain ⟨rfl, rfl⟩ := Prod.mk.inj (Except.ok.inj hok)
      exact ⟨h.insertUploadKey hid, rfl, rfl, IdTable.find_insert_self _ _⟩

/-- A key is refused where the message has it already. -/
theorem associated_iff {key : Key} {uploadKeyID : ℕ} (h : Writing log m messageID s.tables)
    (hkey : s.tables.uploadKeys.find uploadKeyID = some key) :
    s.tables.uploadKeyAssociations.insert ⟨uploadKeyID, messageID⟩ = none ↔
      key ∈ m.uploadKeys := by
  rw [Table.insert_eq_none_iff, ← h.uploadKeys, Tables.keysOf, List.mem_filterMap, List.mem_map]
  constructor
  · rintro ⟨row, hrow, heq⟩
    obtain ⟨hid, hmessage⟩ := Prod.mk.inj heq
    refine ⟨row, List.mem_filter.mpr ⟨hrow, decide_eq_true hmessage⟩, ?_⟩
    rw [hid, hkey]
  · rintro ⟨row, hrow, hfound⟩
    obtain ⟨hrow, hmessage⟩ := List.mem_filter.mp hrow
    exact ⟨row, hrow, Prod.ext (h.integrity.uploadKeys.id_unique hfound hkey)
      (decide_eq_true_eq.mp hmessage)⟩

/-- How the insertion of the upload keys of a message ends. -/
theorem insertUploadKeys_ends {keys : List Key} (h : Writing log m messageID s.tables)
    (hm : m.uploadKeys = []) (hfree : s.busy .insertUploadKey = false) :
    (keys.forM fun uploadKey => (do
      let uploadKeyID ← insertUploadKey uploadKey
      associateUploadKey uploadKeyID messageID : Attempt Fault EmdrDb PUnit)).Ends
      (fun _ s' => Writing log { m with uploadKeys := keys } messageID s'.tables ∧
        s'.busy = s.busy ∧ s'.backlog = s.backlog ∧ keys.Nodup ∧
        (s.busy .insertUploadKeyAssociation = true → keys = []))
      (fun e s' => e ≠ .undefined ∧ s'.backlog = s.backlog ∧
        (∃ before k after, keys = before ++ k :: after ∧
          Writing log { m with uploadKeys := before } messageID s'.tables) ∧
        ¬ (keys.Nodup ∧ (s.busy .insertUploadKeyAssociation = true → keys = [])) ∧
        ∀ stmt, s'.busy stmt = true ↔
          s.busy stmt = true ∨ stmt = .insertUploadKeyAssociation ∧ ¬ keys.Nodup) s := by
  let I : List Key → EmdrDb → Prop := fun done s' =>
    Writing log { m with uploadKeys := done } messageID s'.tables ∧
      s'.busy = s.busy ∧ s'.backlog = s.backlog ∧ done.Nodup ∧
      (s.busy .insertUploadKeyAssociation = true → done = [])
  have hstart : I [] s := by
    refine ⟨?_, rfl, rfl, List.nodup_nil, fun _ => rfl⟩
    rw [← hm]
    exact h
  refine Attempt.Ends.forM (I := I) hstart ?_
  rintro done key rest s' hl ⟨hw, hbusy, hbacklog, hnodup, hdone⟩
  have hfree' : s'.busy .insertUploadKey = false := hbusy ▸ hfree
  have hnil : keys ≠ [] := by
    rw [hl]
    simp
  rw [Attempt.ends_bind]
  refine (insertUploadKey_ends hw hfree').mono ?_ fun _ _ hfalse => hfalse.elim
  rintro id s'' ⟨hw', hbusy', hbacklog', hfound⟩
  have hsame : s''.busy = s.busy := hbusy'.trans hbusy
  have hrefused := associated_iff hw' hfound
  have hcut : ∀ s₁ : EmdrDb, s₁.tables = s''.tables → ∃ before k after,
      keys = before ++ k :: after ∧
        Writing log { m with uploadKeys := before } messageID s₁.tables :=
    fun s₁ htables => ⟨done, key, rest, hl, htables ▸ hw'⟩
  unfold associateUploadKey
  rw [Attempt.ends_bind]
  refine execute_ends (fun htrue => ?_) (fun _ hrow => absurd hrow (by simp))
    (fun row id' t hfalse hrow hok => ?_) fun row rc hfalse hrow herror => ?_
  · rw [hsame] at htrue
    refine ⟨by simp [sqliteError], hbacklog'.trans hbacklog, hcut _ rfl,
      fun hboth => hnil (hboth.2 htrue), fun stmt => ?_⟩
    rw [hsame]
    constructor
    · exact Or.inl
    · rintro (hstmt | ⟨rfl, -⟩)
      · exact hstmt
      · exact htrue
  · obtain rfl := Option.some.inj hrow
    have hnew : key ∉ done := by
      intro hmem
      have hnone := hrefused.mpr hmem
      unfold Tables.insertUploadKeyAssociation at hok
      rw [hnone] at hok
      exact absurd hok (by simp)
    refine ⟨hw'.pushKey hfound hok, hsame, hbacklog'.trans hbacklog, ?_, fun htrue => ?_⟩
    · exact List.nodup_append.mpr ⟨hnodup, List.nodup_singleton _, fun a ha b hb heq =>
        hnew (by rw [← List.mem_singleton.mp hb, ← heq]; exact ha)⟩
    · rw [hsame, htrue] at hfalse
      exact absurd hfalse (by simp)
  · obtain rfl := Option.some.inj hrow
    have hmem : key ∈ done := by
      rw [← hrefused]
      unfold Tables.insertUploadKeyAssociation at herror
      split at herror
      · exact absurd herror (by simp)
      · next hnone => exact hnone
    have hdup : ¬ keys.Nodup := by
      rw [hl, List.nodup_append]
      rintro ⟨-, -, hdisjoint⟩
      exact hdisjoint key hmem key List.mem_cons_self rfl
    refine ⟨by simp [sqliteError], hbacklog'.trans hbacklog, hcut _ rfl,
      fun hboth => hdup hboth.1, fun stmt => ?_⟩
    rw [hsame]
    by_cases hstmt : stmt = .insertUploadKeyAssociation
    · simp [hstmt, hdup]
    · simp [hstmt]

/-! ### Messages -/

/-- No other statements are busy than those that the database may refuse. -/
def OnlyRefused (busy : Stmt → Bool) : Prop :=
  ∀ stmt, busy stmt = true → stmt = .insertOrders ∨ stmt = .insertHistory ∨
    stmt = .insertUploadKeyAssociation

omit [ReadBack T] in
/-- The header of a message is always inserted. -/
theorem insertMessageHeader_ends {message : Message T} (hi : Integrity s.tables)
    (hs : OnlyRefused s.busy) :
    (insertMessageHeader message).Ends
      (fun id s' => Writing s.tables.messages
          ⟨[], message.generator, message.currentTime, message.version, []⟩ id s'.tables ∧
        s'.busy = s.busy ∧ s'.backlog = s.backlog)
      (fun _ _ => False) s := by
  have hfree : ∀ stmt, stmt = .insertGenerator ∨ stmt = .insertMessageHeader →
      s.busy stmt = true → False := by
    rintro stmt (rfl | rfl) hbusy
    · simpa using hs _ hbusy
    · simpa using hs _ hbusy
  have hgenerator : (insertGenerator message.generator).Ends
      (fun id s' => Integrity s'.tables ∧ s'.tables.messages = s.tables.messages ∧
        s'.busy = s.busy ∧ s'.backlog = s.backlog ∧
        s'.tables.generators.find id = some message.generator) (fun _ _ => False) s := by
    unfold insertGenerator
    rw [Attempt.ends_bind, Attempt.ends_get]
    cases hid : s.tables.generators.idOf message.generator with
    | some id => exact ⟨hi, rfl, rfl, rfl, IdTable.find_of_idOf hid⟩
    | none =>
      refine execute_ends (fun hbusy => hfree _ (Or.inl rfl) hbusy)
        (fun _ hrow => absurd hrow (by simp)) (fun g id t _ hrow hok => ?_)
        fun _ _ _ _ herror => absurd herror (by simp)
      obtain rfl := Option.some.inj hrow
      obtain ⟨rfl, rfl⟩ := Prod.mk.inj (Except.ok.inj hok)
      exact ⟨hi.insertGenerator hid, messages_insertGenerator hi _, rfl, rfl,
        IdTable.find_insert_self _ _⟩
  unfold insertMessageHeader
  rw [Attempt.ends_bind]
  refine hgenerator.mono ?_ fun _ _ hfalse => hfalse
  rintro generatorID s' ⟨hi', hmessages, hbusy, hbacklog, hfound⟩
  refine execute_ends (fun htrue => hfree _ (Or.inr rfl) (hbusy ▸ htrue))
    (fun _ hrow => absurd hrow (by simp)) (fun row id t _ hrow hok => ?_)
    fun _ _ _ _ herror => absurd herror (by simp)
  obtain rfl := Option.some.inj hrow
  obtain ⟨rfl, rfl⟩ := Prod.mk.inj (Except.ok.inj hok)
  refine ⟨?_, hbusy, hbacklog⟩
  rw [← hmessages]
  exact @Writing.start s'.tables hi' ⟨message.currentTime.count, message.version, generatorID⟩ _
    hfound

/-- **How the insertion of a message ends.** -/
theorem insertMessage_ends {message : Message T} (hi : Integrity s.tables)
    (hs : OnlyRefused s.busy) :
    (insertMessage message).Ends
      (fun _ s' => Integrity s'.tables ∧
        s'.tables.messages = s.tables.messages ++ [message.stored] ∧ s'.backlog = s.backlog ∧
        message.Accepted s.busy ∧ ∀ stmt, s'.busy stmt = true ↔ message.BusyAfter s.busy stmt)
      (fun e s' => e ≠ .undefined ∧ Integrity s'.tables ∧
        (∃ m', Message.CutOf m' message ∧
          s'.tables.messages = s.tables.messages ++ [m'.stored]) ∧ s'.backlog = s.backlog ∧
        ¬ message.Accepted s.busy ∧
        ∀ stmt, s'.busy stmt = true ↔ message.BusyAfter s.busy stmt) s := by
  have hfree : ∀ stmt, stmt = .insertRowsetHeader ∨ stmt = .insertUploadKey →
      s.busy stmt = false := by
    rintro stmt (rfl | rfl)
    · rw [Bool.eq_false_iff]
      exact fun hbusy => by simpa using hs _ hbusy
    · rw [Bool.eq_false_iff]
      exact fun hbusy => by simpa using hs _ hbusy
  unfold insertMessage
  rw [Attempt.ends_bind]
  refine (insertMessageHeader_ends hi hs).mono ?_ fun _ _ hfalse => hfalse.elim
  rintro messageID s₁ ⟨hw₁, hbusy₁, hbacklog₁⟩
  rw [Attempt.ends_bind]
  refine (insertRowsets_ends hw₁ rfl (hbusy₁ ▸ hfree _ (Or.inl rfl))).mono ?_ ?_
  · rintro - s₂ ⟨hw₂, hbusy₂, hbacklog₂, hfine, hempty⟩
    rw [hbusy₁] at hempty
    have hpasses : message.Passes s.busy := ⟨hfine, hempty⟩
    have hsame : s₂.busy = s.busy := hbusy₂.trans hbusy₁
    refine (insertUploadKeys_ends hw₂ rfl (hsame ▸ hfree _ (Or.inr rfl))).mono ?_ ?_
    · rintro - s₃ ⟨hw₃, hbusy₃, hbacklog₃, hnodup, hkeys⟩
      refine ⟨hw₃.integrity, hw₃.messages, hbacklog₃.trans (hbacklog₂.trans hbacklog₁),
        ⟨hpasses, hnodup, hsame ▸ hkeys⟩, fun stmt => ?_⟩
      rw [hbusy₃, hsame, Message.BusyAfter, hfine]
      simp [hnodup]
    · rintro e s₃ ⟨hne, hbacklog₃, ⟨before, k, after, hsplit, hw₃⟩, hnot, hbusy₃⟩
      refine ⟨hne, hw₃.integrity, ⟨{ message with uploadKeys := before }, ?_, hw₃.messages⟩,
        hbacklog₃.trans (hbacklog₂.trans hbacklog₁), ?_, fun stmt => ?_⟩
      · exact ⟨rfl, rfl, rfl, Or.inr ⟨rfl, before, k, after, hsplit, rfl⟩⟩
      · rintro ⟨-, hnodup, hkeys⟩
        exact hnot ⟨hnodup, hsame ▸ hkeys⟩
      · rw [hbusy₃, hsame, Message.BusyAfter, hfine]
        simp [hpasses]
  · rintro e s₂ ⟨hne, hbacklog₂, ⟨before, r, after, hsplit, hcut⟩, hnot, hbusy₂⟩
    rw [hbusy₁] at hnot hbusy₂
    have hpasses : ¬ message.Passes s.busy := hnot
    refine ⟨hne, ?_, ?_, hbacklog₂.trans hbacklog₁, fun haccepted => hpasses haccepted.1, ?_⟩
    · rcases hcut with hw₂ | ⟨_, _, _, _, hw₂⟩
      · exact hw₂.integrity
      · exact hw₂.integrity
    · rcases hcut with hw₂ | ⟨done, x, rest, hx, hw₂⟩
      · exact ⟨{ message with rowsets := before, uploadKeys := [] },
          ⟨rfl, rfl, rfl, Or.inl ⟨before, r, after, hsplit, rfl, Or.inl rfl⟩⟩, hw₂.messages⟩
      · exact ⟨{ message with rowsets := before ++ [{ r with x := done }], uploadKeys := [] },
          ⟨rfl, rfl, rfl, Or.inl ⟨before, r, after, hsplit, rfl,
            Or.inr ⟨done, x, rest, hx, rfl⟩⟩⟩, hw₂.messages⟩
    · intro stmt
      rw [hbusy₂, Message.BusyAfter]
      simp [hpasses]

end Code

end Messages
end Emdr
end EveIndustryPlanner
