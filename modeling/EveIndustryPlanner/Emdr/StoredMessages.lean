import EveIndustryPlanner.Emdr.MessageStore

/-!
# What is read back of the messages

The rows of the tables are put together again: a message is a header with its
generator, its rowsets and its upload keys, in the order in which they were inserted.

## Main definitions

* `StoredMessage`, `Tables.messages` — what is read back.
* `Message.stored` — what should be read back of a message.
* `ReadBack` — what is known of the rows of a rowset, for each kind of messages.
* `Writing`, `WritingRowset` — the last message, and its last rowset, are being
  written.

## Main results

* `Writing.update` — whatever is written behind the header of the last message, the
  messages before it are read back as before.
* `Writing.start`, `Writing.startRowset`, `WritingRowset.push`, `Writing.pushKey` —
  **the four insertions extend what is read back of the last message.**
-/

namespace EveIndustryPlanner
namespace Emdr
namespace Messages

/-! ### Reading back -/

/-- A rowset; its rows are in one of two tables. -/
structure StoredRowset where
  generatedAt : Time
  regionID : UInt64
  typeID : UInt64
  orders : List Orders
  history : List History

structure StoredMessage where
  uploadKeys : List Key
  generator : Generator
  currentTime : Time
  version : String
  rowsets : List StoredRowset

/-- A column of an unsigned type. -/
def column (z : ℤ) : UInt64 := UInt64.ofNat z.toNat

def OrderRow.read (r : OrderRow) : Orders :=
  ⟨r.price, column r.volRemaining, Int16.ofInt r.range, column r.orderID, column r.volEntered,
    column r.minVolume, r.bid, ⟨r.issueDate⟩, r.duration, column r.stationID,
    column r.solarSystemID⟩

def HistoryRow.read (r : HistoryRow) : History :=
  ⟨⟨r.date⟩, column r.orders, column r.quantity, r.low, r.high, r.average⟩

namespace Tables

variable (t : Tables)

/-- The orders of a rowset. -/
def ordersOf (header : ℕ) : List Orders :=
  (t.orders.rows.filter fun row => row.header = header).map OrderRow.read

/-- The history of a rowset. -/
def historyOf (header : ℕ) : List History :=
  (t.history.filter fun row => row.header = header).map HistoryRow.read

def rowset (row : ℕ × RowsetHeaderRow) : StoredRowset :=
  ⟨⟨row.2.generatedAt⟩, column row.2.regionID, column row.2.typeID, t.ordersOf row.1,
    t.historyOf row.1⟩

/-- The rowsets of a message. -/
def rowsetsOf (message : ℕ) : List StoredRowset :=
  (t.rowsetHeaders.rows.filter fun row => row.2.message = message).map t.rowset

/-- The upload keys of a message. -/
def keysOf (message : ℕ) : List Key :=
  (t.uploadKeyAssociations.rows.filter fun row => row.message = message).filterMap fun row =>
    t.uploadKeys.find row.uploadKey

/-- The message of a header, if its generator is there. -/
def message (row : ℕ × MessageHeaderRow) : Option StoredMessage :=
  (t.generators.find row.2.generator).map fun generator =>
    ⟨t.keysOf row.1, generator, ⟨row.2.currentTime⟩, row.2.version, t.rowsetsOf row.1⟩

/-- All messages. -/
def messages : List StoredMessage := t.messageHeaders.rows.filterMap t.message

end Tables

/-! ### Rows -/

theorem column_of_bind {n : UInt64} {z : ℤ} (h : Market.bind n.toNat = some z) : column z = n := by
  rw [Market.eq_of_bind_eq_some h, column, Int.toNat_natCast, UInt64.ofNat_toNat]

theorem bind_lt {n : ℕ} {z : ℤ} (h : Market.bind n = some z) : 0 ≤ z ∧ z < 2 ^ 63 := by
  obtain rfl := Market.eq_of_bind_eq_some h
  unfold Market.bind at h
  split at h
  · next hlt => omega
  · exact absurd h (by simp)

/-- An order that passes the checks of the table. -/
def Orders.Valid (o : Orders) : Prop := 0 ≤ o.price ∧ 1 ≤ o.minVolume ∧ 0 ≤ o.duration

instance (o : Orders) : Decidable o.Valid := inferInstanceAs (Decidable (_ ∧ _))

/-- A day that passes the checks of the table. -/
def History.Valid (h : History) : Prop := 0 ≤ h.low ∧ 0 ≤ h.high ∧ 0 ≤ h.average

instance (h : History) : Decidable h.Valid := inferInstanceAs (Decidable (_ ∧ _))

/-- What is bound of an order. -/
theorem Orders.bind_spec {o : Orders} {header : ℕ} {row : OrderRow}
    (h : o.bind header = some row) :
    row.read = o ∧ row.header = header ∧ row.orderID = o.orderID.toNat ∧
      row.orderID < 2 ^ 63 ∧ (row.Checked ↔ o.Valid) := by
  unfold Orders.bind at h
  simp only [Option.bind_eq_bind, Option.bind_eq_some_iff, Option.pure_def, Option.some.injEq] at h
  obtain ⟨orderID, horder, volRemaining, hremaining, volumeEntered, hentered, minVolume, hmin,
    stationID, hstation, solarSystemID, hsystem, rfl⟩ := h
  refine ⟨?_, rfl, Market.eq_of_bind_eq_some horder, (bind_lt horder).2, ?_⟩
  · rw [OrderRow.read, column_of_bind horder, column_of_bind hremaining, column_of_bind hentered,
      column_of_bind hmin, column_of_bind hstation, column_of_bind hsystem]
    simp
  · have hle : (1 : ℤ) ≤ minVolume ↔ 1 ≤ o.minVolume := by
      rw [Market.eq_of_bind_eq_some hmin, UInt64.le_iff_toNat_le]
      exact Int.ofNat_le (m := 1)
    simp only [OrderRow.Checked, Orders.Valid, hle, (bind_lt hremaining).1, (bind_lt hentered).1,
      true_and]

/-- What is bound of a day. -/
theorem History.bind_spec {x : History} {header : ℕ} {row : HistoryRow}
    (h : x.bind header = some row) :
    row.read = x ∧ row.header = header ∧ (row.Checked ↔ x.Valid) := by
  unfold History.bind at h
  simp only [Option.bind_eq_bind, Option.bind_eq_some_iff, Option.pure_def, Option.some.injEq] at h
  obtain ⟨orders, horders, quantity, hquantity, rfl⟩ := h
  refine ⟨?_, rfl, ?_⟩
  · rw [HistoryRow.read, column_of_bind horders, column_of_bind hquantity]
  · simp only [HistoryRow.Checked, History.Valid, (bind_lt horders).1, (bind_lt hquantity).1,
      true_and, and_true]

/-- A row was added to a rowset, and nothing else was changed. -/
structure AddsRow (header : ℕ) (push : StoredRowset → StoredRowset) (t t' : Tables) : Prop where
  generators : t'.generators = t.generators
  messageHeaders : t'.messageHeaders = t.messageHeaders
  rowsetHeaders : t'.rowsetHeaders = t.rowsetHeaders
  uploadKeys : t'.uploadKeys = t.uploadKeys
  associations : t'.uploadKeyAssociations = t.uploadKeyAssociations
  rowset : ∀ row, t'.rowset row = if row.1 = header then push (t.rowset row) else t.rowset row
  integrity : Integrity t → (t.rowsetHeaders.find header).isSome → Integrity t'

/-- What is known of the rows of rowsets. -/
class ReadBack (T : Type) extends Rows T where
  /-- A row behind those of a rowset. -/
  push : StoredRowset → T → StoredRowset
  /-- The database refuses a row behind those of a rowset. -/
  refuses : StoredRowset → T → Bool
  isSome_bind : ∀ (x : T) (header : ℕ), (bind x header).isSome = (bind x 0).isSome
  adds : ∀ {t t' : Tables} {x : T} {header id : ℕ} {row : Row}, bind x header = some row →
    insert t row = .ok (id, t') → AddsRow header (push · x) t t'
  refuses_iff : ∀ {t : Tables} {x : T} {row : Row} {r : ℕ × RowsetHeaderRow}, Integrity t →
    bind x r.1 = some row → (refuses (t.rowset r) x = true ↔ ∃ rc, insert t row = .error rc)

/-- An order behind those of a rowset. -/
def StoredRowset.pushOrder (r : StoredRowset) (o : Orders) : StoredRowset :=
  { r with orders := r.orders ++ [o] }

/-- A day behind those of a rowset. -/
def StoredRowset.pushHistory (r : StoredRowset) (h : History) : StoredRowset :=
  { r with history := r.history ++ [h] }

theorem AddsRow.orders {t t' : Tables} {o : Orders} {header id : ℕ} {row : OrderRow}
    (hrow : o.bind header = some row) (h : t.insertOrders row = .ok (id, t')) :
    AddsRow header (·.pushOrder o) t t' := by
  obtain ⟨hread, hheader, hid, hlt, -⟩ := Orders.bind_spec hrow
  unfold Tables.insertOrders at h
  split at h
  · split at h
    · next orders horders =>
      obtain ⟨rfl, rfl⟩ := Prod.mk.inj (Except.ok.inj h)
      have hrows := Table.rows_of_insert horders
      refine ⟨rfl, rfl, rfl, rfl, rfl, fun r => ?_, fun hi hfound => ?_⟩
      · simp only [Tables.rowset, Tables.ordersOf, Tables.historyOf, hrows, List.filter_append,
          List.filter_singleton, hheader]
        by_cases hr : r.1 = header
        · simp [hr, hread, StoredRowset.pushOrder]
        · simp [hr, Ne.symm hr]
      · refine { hi with orderIDs := fun r hr => ?_, orders := fun r hr => ?_ }
        · rw [hrows] at hr
          rcases List.mem_append.mp hr with hr | hr
          · exact hi.orderIDs r hr
          · obtain rfl := List.mem_singleton.mp hr
            exact ⟨hid ▸ Int.natCast_nonneg _, hlt⟩
        · rw [hrows] at hr
          rcases List.mem_append.mp hr with hr | hr
          · exact hi.orders r hr
          · obtain rfl := List.mem_singleton.mp hr
            rw [hheader]
            exact hfound
    · exact absurd h (by simp)
  · exact absurd h (by simp)

theorem AddsRow.history {t t' : Tables} {x : History} {header id : ℕ} {row : HistoryRow}
    (hrow : x.bind header = some row) (h : t.insertHistory row = .ok (id, t')) :
    AddsRow header (·.pushHistory x) t t' := by
  obtain ⟨hread, hheader, -⟩ := History.bind_spec hrow
  unfold Tables.insertHistory at h
  split at h
  · obtain ⟨rfl, rfl⟩ := Prod.mk.inj (Except.ok.inj h)
    refine ⟨rfl, rfl, rfl, rfl, rfl, fun r => ?_, fun hi hfound => ?_⟩
    · simp only [Tables.rowset, Tables.ordersOf, Tables.historyOf, List.filter_append,
        List.filter_singleton, hheader]
      by_cases hr : r.1 = header
      · simp [hr, hread, StoredRowset.pushHistory]
      · simp [hr, Ne.symm hr]
    · refine { hi with history := fun r hr => ?_ }
      rcases List.mem_append.mp hr with hr | hr
      · exact hi.history r hr
      · obtain rfl := List.mem_singleton.mp hr
        rw [hheader]
        exact hfound
  · exact absurd h (by simp)

/-- The id of an order is that of an order of the rowset. -/
theorem key_mem_iff {t : Tables} (hi : Integrity t) {o : Orders} {row : OrderRow}
    {r : ℕ × RowsetHeaderRow} (hrow : o.bind r.1 = some row) :
    row.key ∈ t.orders.rows.map OrderRow.key ↔
      o.orderID ∈ (t.rowset r).orders.map Orders.orderID := by
  obtain ⟨-, hheader, hid, -, -⟩ := Orders.bind_spec hrow
  rw [List.mem_map, List.mem_map]
  constructor
  · rintro ⟨row', hrow', hkey⟩
    obtain ⟨hid', hheader'⟩ := Prod.mk.inj hkey
    refine ⟨row'.read, List.mem_map_of_mem (List.mem_filter.mpr ⟨hrow', ?_⟩), ?_⟩
    · rw [decide_eq_true_eq, hheader', hheader]
    · show column row'.orderID = o.orderID
      rw [hid', hid, column, Int.toNat_natCast, UInt64.ofNat_toNat]
  · rintro ⟨o', ho', hid'⟩
    obtain ⟨row', hrow', rfl⟩ := List.mem_map.mp ho'
    obtain ⟨hmem, hheader'⟩ := List.mem_filter.mp hrow'
    obtain ⟨hnonneg, hlt⟩ := hi.orderIDs row' hmem
    refine ⟨row', hmem, Prod.ext ?_ ((decide_eq_true_eq.mp hheader').trans hheader.symm)⟩
    show row'.orderID = row.orderID
    rw [hid, ← hid']
    show row'.orderID = ((UInt64.ofNat row'.orderID.toNat).toNat : ℤ)
    rw [UInt64.toNat_ofNat', Nat.mod_eq_of_lt (by omega), Int.toNat_of_nonneg hnonneg]

instance : ReadBack Orders where
  push := StoredRowset.pushOrder
  refuses r o := !decide o.Valid || (r.orders.map Orders.orderID).contains o.orderID
  isSome_bind o header := by
    simp only [Rows.bind, Orders.bind, Option.bind_eq_bind, Option.pure_def, Option.isSome_bind,
      Option.isSome_some]
  adds := AddsRow.orders
  refuses_iff := by
    intro t o row r hi hrow
    have hchecked := (Orders.bind_spec hrow).2.2.2.2
    have hkey := key_mem_iff hi hrow
    rw [Bool.or_eq_true, List.contains_iff_mem, ← hkey, Bool.not_eq_true', decide_eq_false_iff_not,
      ← hchecked, ← Table.insert_eq_none_iff]
    show _ ↔ ∃ rc, t.insertOrders row = .error rc
    unfold Tables.insertOrders
    by_cases hc : row.Checked
    · cases hins : t.orders.insert row with
      | none => simp [hc]
      | some orders => simp [hc]
    · simp [hc]

instance : ReadBack History where
  push := StoredRowset.pushHistory
  refuses _ x := !decide x.Valid
  isSome_bind x header := by
    simp only [Rows.bind, History.bind, Option.bind_eq_bind, Option.pure_def, Option.isSome_bind,
      Option.isSome_some]
  adds := AddsRow.history
  refuses_iff := by
    intro t x row r hi hrow
    have hchecked := (History.bind_spec hrow).2.2
    rw [Bool.not_eq_true', decide_eq_false_iff_not, ← hchecked]
    show _ ↔ ∃ rc, t.insertHistory row = .error rc
    unfold Tables.insertHistory
    by_cases hc : row.Checked
    · simp [hc]
    · simp [hc]

/-! ### The last message -/

/-- The last message is being written: it is read back as `m` behind the others. -/
structure Writing (log : List StoredMessage) (m : StoredMessage) (messageID : ℕ) (t : Tables) :
    Prop where
  integrity : Integrity t
  last : ∃ before header, t.messageHeaders.rows = before ++ [(messageID, header)]
  messages : t.messages = log ++ [m]
  rowsets : t.rowsetsOf messageID = m.rowsets
  uploadKeys : t.keysOf messageID = m.uploadKeys

section Last

variable {log : List StoredMessage} {m : StoredMessage} {messageID : ℕ} {t t' : Tables}

theorem Writing.find (h : Writing log m messageID t) :
    (t.messageHeaders.find messageID).isSome := by
  obtain ⟨before, header, hlast⟩ := h.last
  have hmem : (messageID, header) ∈ t.messageHeaders.rows := by
    rw [hlast]
    simp
  exact IdTable.isSome_find_of_mem hmem

/-- **Only the last message changes** where nothing else is written. -/
theorem Writing.update (h : Writing log m messageID t) (hi : Integrity t')
    (hheaders : t'.messageHeaders = t.messageHeaders) (hgenerators : t'.generators = t.generators)
    (hrowsets : ∀ id, id ≠ messageID → t'.rowsetsOf id = t.rowsetsOf id)
    (hkeys : ∀ id, (t.messageHeaders.find id).isSome → id ≠ messageID →
      t'.keysOf id = t.keysOf id) :
    Writing log { m with rowsets := t'.rowsetsOf messageID, uploadKeys := t'.keysOf messageID }
      messageID t' := by
  obtain ⟨before, header, hlast⟩ := h.last
  obtain ⟨generator, hgenerator⟩ := Option.isSome_iff_exists.mp
    (h.integrity.messageHeaders (messageID, header) (by rw [hlast]; simp))
  have hnodup := t.messageHeaders.nodup_ids
  rw [hlast, List.map_append, List.map_singleton] at hnodup
  have hold := h.messages
  rw [Tables.messages, hlast, List.filterMap_append] at hold
  have hone : [(messageID, header)].filterMap t.message =
      [⟨t.keysOf messageID, generator, ⟨header.currentTime⟩, header.version,
        t.rowsetsOf messageID⟩] := by
    simp [Tables.message, hgenerator]
  rw [hone] at hold
  obtain ⟨hlog, hm⟩ := List.append_inj' hold rfl
  obtain rfl := (List.cons.inj hm).1
  refine ⟨hi, ⟨before, header, hheaders ▸ hlast⟩, ?_, rfl, rfl⟩
  rw [Tables.messages, hheaders, hlast, List.filterMap_append, ← hlog]
  have hbefore : before.filterMap t'.message = before.filterMap t.message := by
    refine List.filterMap_congr fun row hrow => ?_
    have hne : row.1 ≠ messageID := by
      rintro rfl
      exact (List.nodup_append.mp hnodup).2.2 row.1 (List.mem_map_of_mem hrow) row.1
        (List.mem_singleton_self _) rfl
    have hfound : (t.messageHeaders.find row.1).isSome :=
      IdTable.isSome_find_of_mem (hlast ▸ List.mem_append_left _ hrow)
    rw [Tables.message, Tables.message, hgenerators, hkeys row.1 hfound hne, hrowsets row.1 hne]
  rw [hbefore]
  simp [Tables.message, hgenerators, hgenerator]

/-- What the tables hold of messages does not depend on a new generator. -/
theorem messages_insertGenerator (h : Integrity t) (g : Generator) :
    ({ t with generators := t.generators.insert g } : Tables).messages = t.messages := by
  refine List.filterMap_congr fun row hrow => ?_
  obtain ⟨generator, hgenerator⟩ := Option.isSome_iff_exists.mp (h.messageHeaders row hrow)
  simp only [Tables.message]
  rw [hgenerator, IdTable.find_insert_of_find hgenerator]
  rfl

/-- **A message begins.** -/
theorem Writing.start (h : Integrity t) {row : MessageHeaderRow} {generator : Generator}
    (hrow : t.generators.find row.generator = some generator) :
    Writing t.messages ⟨[], generator, ⟨row.currentTime⟩, row.version, []⟩
      t.messageHeaders.nextId
      { t with messageHeaders := t.messageHeaders.insert row } := by
  have hnew := t.messageHeaders.not_isSome_find_nextId
  have hrowsets : (t.rowsetHeaders.rows.filter fun row =>
      row.2.message = t.messageHeaders.nextId) = [] := by
    refine List.filter_eq_nil_iff.mpr fun row hrow => ?_
    rw [decide_eq_true_eq]
    rintro heq
    exact hnew (heq ▸ h.rowsetHeaders row hrow)
  have hkeys : (t.uploadKeyAssociations.rows.filter fun row =>
      row.message = t.messageHeaders.nextId) = [] := by
    refine List.filter_eq_nil_iff.mpr fun row hrow => ?_
    rw [decide_eq_true_eq]
    rintro heq
    exact hnew (heq ▸ (h.associations row hrow).2)
  refine ⟨h.insertMessageHeader (by rw [hrow]; rfl), ⟨_, _, rfl⟩, ?_, ?_, ?_⟩
  · rw [Tables.messages, IdTable.rows_insert, List.filterMap_append]
    refine congrArg₂ _ rfl ?_
    simp [Tables.message, hrow, Tables.keysOf, Tables.rowsetsOf, hrowsets, hkeys]
  · simp [Tables.rowsetsOf, hrowsets]
  · simp [Tables.keysOf, hkeys]

/-- **An upload key is added to the last message.** -/
theorem Writing.pushKey (h : Writing log m messageID t) {key : Key} {uploadKeyID : ℕ}
    (hkey : t.uploadKeys.find uploadKeyID = some key) {id : ℕ}
    (hins : t.insertUploadKeyAssociation ⟨uploadKeyID, messageID⟩ = .ok (id, t')) :
    Writing log { m with uploadKeys := m.uploadKeys ++ [key] } messageID t' := by
  unfold Tables.insertUploadKeyAssociation at hins
  split at hins
  · next rows hrows =>
    obtain ⟨rfl, rfl⟩ := Prod.mk.inj (Except.ok.inj hins)
    have hassociations := Table.rows_of_insert hrows
    have hi : Integrity { t with uploadKeyAssociations := rows } := by
      refine { h.integrity with associations := fun row hrow => ?_ }
      rw [hassociations] at hrow
      rcases List.mem_append.mp hrow with hrow | hrow
      · exact h.integrity.associations row hrow
      · obtain rfl := List.mem_singleton.mp hrow
        exact ⟨by rw [hkey]; rfl, h.find⟩
    have hupdate := h.update hi rfl rfl (fun _ _ => rfl) fun id _ hne => by
      simp [Tables.keysOf, hassociations, List.filter_append, Ne.symm hne]
    have hkeys : ({ t with uploadKeyAssociations := rows } : Tables).keysOf messageID =
        m.uploadKeys ++ [key] := by
      rw [← h.uploadKeys]
      simp [Tables.keysOf, hassociations, List.filter_append, hkey]
    rw [hkeys] at hupdate
    have hrowsets : ({ t with uploadKeyAssociations := rows } : Tables).rowsetsOf messageID =
        m.rowsets := h.rowsets
    rw [hrowsets] at hupdate
    exact hupdate
  · exact absurd hins (by simp)

/-- A new upload key changes no message. -/
theorem Writing.insertUploadKey (h : Writing log m messageID t) {key : Key}
    (hkey : t.uploadKeys.idOf key = none) :
    Writing log m messageID { t with uploadKeys := t.uploadKeys.insert key } := by
  have hkeys : ∀ id, ({ t with uploadKeys := t.uploadKeys.insert key } : Tables).keysOf id =
      t.keysOf id := by
    intro id
    refine List.filterMap_congr fun row hrow => ?_
    obtain ⟨k, hk⟩ := Option.isSome_iff_exists.mp
      (h.integrity.associations row (List.mem_filter.mp hrow).1).1
    rw [hk]
    exact IdTable.find_insert_of_find hk key
  have hupdate := h.update (h.integrity.insertUploadKey hkey) rfl rfl (fun _ _ => rfl)
    fun id _ _ => hkeys id
  rw [hkeys, h.uploadKeys] at hupdate
  have hrowsets : ({ t with uploadKeys := t.uploadKeys.insert key } : Tables).rowsetsOf messageID =
      m.rowsets := h.rowsets
  rw [hrowsets] at hupdate
  exact hupdate

/-! ### The last rowset -/

/-- The last rowset of the last message is being written. -/
structure WritingRowset (log : List StoredMessage) (m : StoredMessage) (r : StoredRowset)
    (messageID headerID : ℕ) (t : Tables) : Prop where
  writing : Writing log { m with rowsets := m.rowsets ++ [r] } messageID t
  last : ∃ before row, t.rowsetHeaders.rows = before ++ [(headerID, row)] ∧
    row.message = messageID ∧ t.rowset (headerID, row) = r

variable {r : StoredRowset} {headerID : ℕ}

/-- **A rowset begins.** -/
theorem Writing.startRowset (h : Writing log m messageID t) {row : RowsetHeaderRow}
    (hrow : row.message = messageID) :
    WritingRowset log m ⟨⟨row.generatedAt⟩, column row.regionID, column row.typeID, [], []⟩
      messageID t.rowsetHeaders.nextId
      { t with rowsetHeaders := t.rowsetHeaders.insert row } := by
  have hnew := t.rowsetHeaders.not_isSome_find_nextId
  have horders : (t.orders.rows.filter fun row => row.header = t.rowsetHeaders.nextId) = [] := by
    refine List.filter_eq_nil_iff.mpr fun row hrow => ?_
    rw [decide_eq_true_eq]
    rintro heq
    exact hnew (heq ▸ h.integrity.orders row hrow)
  have hhistory : (t.history.filter fun row => row.header = t.rowsetHeaders.nextId) = [] := by
    refine List.filter_eq_nil_iff.mpr fun row hrow => ?_
    rw [decide_eq_true_eq]
    rintro heq
    exact hnew (heq ▸ h.integrity.history row hrow)
  have hrowset : t.rowset (t.rowsetHeaders.nextId, row) =
      ⟨⟨row.generatedAt⟩, column row.regionID, column row.typeID, [], []⟩ := by
    simp [Tables.rowset, Tables.ordersOf, Tables.historyOf, horders, hhistory]
  have hupdate := h.update (h.integrity.insertRowsetHeader (hrow ▸ h.find)) rfl rfl
    (fun id hne => by
      simp only [Tables.rowsetsOf, IdTable.rows_insert, List.filter_append, List.filter_singleton]
      simp only [hrow, Ne.symm hne, decide_false, cond_false, List.append_nil]
      rfl) fun _ _ _ => rfl
  refine ⟨?_, _, row, rfl, hrow, hrowset⟩
  have hrowsets : ({ t with rowsetHeaders := t.rowsetHeaders.insert row } : Tables).rowsetsOf
      messageID = m.rowsets ++ [⟨⟨row.generatedAt⟩, column row.regionID, column row.typeID,
        [], []⟩] := by
    rw [← hrowset, ← h.rowsets]
    simp only [Tables.rowsetsOf, IdTable.rows_insert, List.filter_append, List.filter_singleton,
      hrow, decide_true, cond_true, List.map_append, List.map_singleton]
    rfl
  rw [hrowsets] at hupdate
  have hkeys : ({ t with rowsetHeaders := t.rowsetHeaders.insert row } : Tables).keysOf messageID =
      m.uploadKeys := h.uploadKeys
  rw [hkeys] at hupdate
  exact hupdate

theorem WritingRowset.find (h : WritingRowset log m r messageID headerID t) :
    (t.rowsetHeaders.find headerID).isSome := by
  obtain ⟨before, row, hlast, -, -⟩ := h.last
  have hmem : (headerID, row) ∈ t.rowsetHeaders.rows := by
    rw [hlast]
    simp
  exact IdTable.isSome_find_of_mem hmem

/-- **A row is added to the last rowset.** -/
theorem WritingRowset.push (h : WritingRowset log m r messageID headerID t)
    {push : StoredRowset → StoredRowset} (hadds : AddsRow headerID push t t') :
    WritingRowset log m (push r) messageID headerID t' := by
  obtain ⟨before, row, hlast, hrow, hr⟩ := h.last
  have hnodup := t.rowsetHeaders.nodup_ids
  rw [hlast, List.map_append, List.map_singleton] at hnodup
  have hbefore : before.map t'.rowset = before.map t.rowset := by
    refine List.map_congr_left fun row' hrow' => ?_
    have hne : row'.1 ≠ headerID := by
      rintro rfl
      exact (List.nodup_append.mp hnodup).2.2 row'.1 (List.mem_map_of_mem hrow') row'.1
        (List.mem_singleton_self _) rfl
    rw [hadds.rowset, if_neg hne]
  have hfilter : ∀ p : ℕ × RowsetHeaderRow → Bool,
      (before.filter p).map t'.rowset = (before.filter p).map t.rowset := by
    intro p
    refine List.map_congr_left fun row' hrow' => ?_
    exact List.map_inj_left.mp hbefore row' (List.mem_filter.mp hrow').1
  have hrowset : t'.rowset (headerID, row) = push r := by
    rw [hadds.rowset, if_pos rfl, hr]
  have hrowsets : t'.rowsetsOf messageID = m.rowsets ++ [push r] := by
    have hold := h.writing.rowsets
    simp only [Tables.rowsetsOf, hlast, List.filter_append, List.filter_singleton, hrow,
      decide_true, cond_true, List.map_append, List.map_singleton] at hold
    simp only [Tables.rowsetsOf, hadds.rowsetHeaders, hlast, List.filter_append,
      List.filter_singleton, hrow, decide_true, cond_true, List.map_append, List.map_singleton,
      hrowset, hfilter]
    rw [(List.append_inj' hold rfl).1]
  have hkeys : ∀ id, t'.keysOf id = t.keysOf id := by
    intro id
    rw [Tables.keysOf, Tables.keysOf, hadds.associations, hadds.uploadKeys]
  have hupdate := h.writing.update (hadds.integrity h.writing.integrity h.find)
    hadds.messageHeaders hadds.generators (fun id hne => by
      simp only [Tables.rowsetsOf, hadds.rowsetHeaders, hlast, List.filter_append,
        List.filter_singleton, hrow, Ne.symm hne, decide_false, cond_false,
        List.append_nil, hfilter]) fun id _ _ => hkeys id
  rw [hrowsets, hkeys, h.writing.uploadKeys] at hupdate
  exact ⟨hupdate, before, row, hadds.rowsetHeaders ▸ hlast, hrow, hrowset⟩

end Last

end Messages
end Emdr
end EveIndustryPlanner
