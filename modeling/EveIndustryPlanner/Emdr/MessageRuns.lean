import EveIndustryPlanner.Emdr.Insertions

/-!
# Runs of the database of messages

The values of a stream are handled one after the other.  What is known of a run does
not depend on what the tables held before: a value is inserted as a whole, or it goes
to the backlog, and which of the two is decided by the contents of the values.  The
tables are such as runs from empty ones leave them (`Integrity`), and are so again
behind a run.

## Main definitions

* `AnyMessage.stored`, `AnyMessage.Accepted`, `AnyMessage.CutOf` — messages of both
  kinds.
* `handleAll` — the values are handled.
* `Handled` — what becomes of a value.
* `rejected` — the values that are not inserted as a whole.
* `Writes`, `Kept` — what a statement can do, and what no statement can change.

## Main results

* `handled_run` — **every message is read back as it was, or it is in the backlog and
  a beginning of it is read back.**
* `backlog_run` — **which values are in the backlog**, by their contents.
* `rows_stay` — **no row is changed or deleted**, and no reference loses its row.
* `refused_stays` — **no row of a kind is inserted any more once one was refused.**
-/

namespace EveIndustryPlanner
namespace Emdr
namespace Messages

/-! ### Messages of both kinds -/

namespace AnyMessage

def stored : AnyMessage → StoredMessage
  | history m => m.stored
  | orders m => m.stored

/-- All of a message is inserted. -/
def Accepted (busy : Stmt → Bool) : AnyMessage → Prop
  | history m => m.Accepted busy
  | orders m => m.Accepted busy

/-- What is busy after a message. -/
def BusyAfter (busy : Stmt → Bool) : AnyMessage → Stmt → Prop
  | history m => m.BusyAfter busy
  | orders m => m.BusyAfter busy

instance (busy : Stmt → Bool) (m : AnyMessage) : Decidable (m.Accepted busy) := by
  cases m with
  | history m =>
    unfold Accepted Message.Accepted Message.Passes Message.Empty
    infer_instance
  | orders m =>
    unfold Accepted Message.Accepted Message.Passes Message.Empty
    infer_instance

instance (busy : Stmt → Bool) (m : AnyMessage) (stmt : Stmt) :
    Decidable (m.BusyAfter busy stmt) := by
  cases m with
  | history m =>
    unfold BusyAfter Message.BusyAfter Message.Passes Message.Empty
    infer_instance
  | orders m =>
    unfold BusyAfter Message.BusyAfter Message.Passes Message.Empty
    infer_instance

/-- The statement that inserts the rows of a message. -/
def stmt : AnyMessage → Stmt
  | history _ => .insertHistory
  | orders _ => .insertOrders

/-- How the rows of a message fare. -/
def verdict : AnyMessage → Verdict
  | history m => rowsetsVerdict m.rowsets
  | orders m => rowsetsVerdict m.rowsets

/-- A message has no rows. -/
def Empty : AnyMessage → Prop
  | history m => m.Empty
  | orders m => m.Empty

/-- A statement that was refused is busy. -/
theorem busyAfter_of_refused {busy : Stmt → Bool} {m : AnyMessage} (h : m.verdict = .refused) :
    m.BusyAfter busy m.stmt := by
  cases m with
  | history m => exact Or.inr (Or.inl ⟨rfl, h⟩)
  | orders m => exact Or.inr (Or.inl ⟨rfl, h⟩)

/-- A statement stays busy. -/
theorem busyAfter_of_busy {busy : Stmt → Bool} {m : AnyMessage} {stmt : Stmt}
    (h : busy stmt = true) : m.BusyAfter busy stmt := by
  cases m with
  | history m => exact Or.inl h
  | orders m => exact Or.inl h

/-- No message with rows is inserted by a busy statement. -/
theorem not_accepted_of_busy {busy : Stmt → Bool} {m : AnyMessage} (h : busy m.stmt = true)
    (hm : ¬ m.Empty) : ¬ m.Accepted busy := by
  cases m with
  | history m => exact fun haccepted => hm (haccepted.1.2 h)
  | orders m => exact fun haccepted => hm (haccepted.1.2 h)

/-- Some of the end of a message is missing. -/
inductive CutOf : AnyMessage → AnyMessage → Prop
  | history {m' m : Message History} : m'.CutOf m → CutOf (.history m') (.history m)
  | orders {m' m : Message Orders} : m'.CutOf m → CutOf (.orders m') (.orders m)

end AnyMessage

/-- What becomes of a value: the messages that are read back, and what is printed to
the backlog. -/
inductive Handled (v : Document) : List StoredMessage → List Document → Prop
  | unread {text : String} : readMessage v = .error (.runtimeError text) → Handled v [] [v]
  | whole {m : AnyMessage} : readMessage v = .ok m → Handled v [m.stored] []
  | cut {m m' : AnyMessage} : readMessage v = .ok m → m'.CutOf m → Handled v [m'.stored] [v]

/-- What is busy after a value. -/
def busyAfter (busy : Stmt → Bool) (v : Document) (stmt : Stmt) : Bool :=
  match readMessage v with
  | .ok m => decide (m.BusyAfter busy stmt)
  | .error _ => busy stmt

/-- A value is not inserted as a whole. -/
def rejects (busy : Stmt → Bool) (v : Document) : Bool :=
  match readMessage v with
  | .ok m => !decide (m.Accepted busy)
  | .error _ => true

/-- The values that are not inserted as a whole. -/
def rejected (busy : Stmt → Bool) : List Document → List Document
  | [] => []
  | v :: values =>
    (if rejects busy v then [v] else []) ++ rejected (busyAfter busy v) values

/-- The statements that are busy after some values. -/
def busyAfterAll (busy : Stmt → Bool) (values : List Document) : Stmt → Bool :=
  values.foldl busyAfter busy

theorem rejected_append (busy : Stmt → Bool) (values values' : List Document) :
    rejected busy (values ++ values') =
      rejected busy values ++ rejected (busyAfterAll busy values) values' := by
  induction values generalizing busy with
  | nil => rfl
  | cons v values ih =>
    rw [List.cons_append, rejected, ih, rejected, List.append_assoc, busyAfterAll, busyAfterAll,
      List.foldl_cons]

/-- The messages of a kind go to the backlog while their statement is busy. -/
theorem mem_rejected {busy : Stmt → Bool} {values : List Document} {v : Document}
    {m : AnyMessage} (hv : v ∈ values) (hread : readMessage v = .ok m) (hm : ¬ m.Empty)
    (hbusy : busy m.stmt = true) : v ∈ rejected busy values := by
  induction values generalizing busy with
  | nil => exact absurd hv List.not_mem_nil
  | cons w values ih =>
    rw [rejected, List.mem_append]
    rcases List.mem_cons.mp hv with rfl | hv
    · have hrejects : rejects busy v = true := by
        simp [rejects, hread, AnyMessage.not_accepted_of_busy hbusy hm]
      rw [if_pos hrejects]
      exact Or.inl (List.mem_singleton_self v)
    · refine Or.inr (ih hv ?_)
      unfold busyAfter
      cases readMessage w with
      | ok m' => exact decide_eq_true (AnyMessage.busyAfter_of_busy hbusy)
      | error e => exact hbusy

theorem OnlyRefused.busyAfter {busy : Stmt → Bool} (h : OnlyRefused busy) (v : Document) :
    OnlyRefused (busyAfter busy v) := by
  intro stmt hstmt
  unfold Messages.busyAfter at hstmt
  split at hstmt
  · next m hm =>
    cases m with
    | history m =>
      rcases of_decide_eq_true hstmt with hbusy | ⟨rfl, -⟩ | ⟨rfl, -⟩
      · exact h stmt hbusy
      · exact Or.inr (Or.inl rfl)
      · exact Or.inr (Or.inr rfl)
    | orders m =>
      rcases of_decide_eq_true hstmt with hbusy | ⟨rfl, -⟩ | ⟨rfl, -⟩
      · exact h stmt hbusy
      · exact Or.inl rfl
      · exact Or.inr (Or.inr rfl)
  · exact h stmt hstmt

/-! ### Values -/

/-- What is known after a value was handled. -/
structure HandledIn (v : Document) (s s' : EmdrDb) : Prop where
  integrity : Integrity s'.tables
  busy : s'.busy = busyAfter s.busy v
  backlog : s'.backlog = s.backlog ++ if rejects s.busy v then [v] else []
  handled : ∃ log printed, Handled v log printed ∧
    s'.tables.messages = s.tables.messages ++ log ∧ s'.backlog = s.backlog ++ printed

/-- **How the handling of a value ends**: it throws only if a time in it is out of
range. -/
theorem handleMessageStream_ends {v : Document} {s : EmdrDb} (hi : Integrity s.tables)
    (hs : OnlyRefused s.busy) :
    (handleMessageStream (some v)).Ends (fun more s' => more = true ∧ HandledIn v s s')
      (fun e s' => e = .undefined ∧ readMessage v = .error .undefined ∧ s' = s) s := by
  have hinserted : ∀ {T : Type} [ReadBack T] (m : Message T) (a : AnyMessage),
      readMessage v = .ok a → m.stored = a.stored →
      (m.Accepted s.busy ↔ a.Accepted s.busy) →
      (∀ stmt, m.BusyAfter s.busy stmt ↔ a.BusyAfter s.busy stmt) →
      (∀ m' : Message T, m'.CutOf m → ∃ a' : AnyMessage, a'.CutOf a ∧ m'.stored = a'.stored) →
      (insertMessage m).Ends (fun _ s' => HandledIn v s s')
        (fun e s' => (∃ text, e = .runtimeError text) ∧
          HandledIn v s { s' with backlog := s'.backlog ++ [v] }) s := by
    intro T _ m a hread hstored haccepted hafter hcutOf
    have hbusy : ∀ s' : EmdrDb,
        (∀ stmt, s'.busy stmt = true ↔ m.BusyAfter s.busy stmt) →
        s'.busy = busyAfter s.busy v := by
      intro s' hs'
      funext stmt
      rw [Bool.eq_iff_iff, hs', hafter, busyAfter, hread, decide_eq_true_eq]
    refine (insertMessage_ends hi hs).mono ?_ ?_
    · rintro - s' ⟨hi', hmessages, hbacklog, hwhole, hs'⟩
      have hrejects : rejects s.busy v = false := by
        simp [rejects, hread, haccepted.mp hwhole]
      refine ⟨hi', hbusy s' hs', ?_, [a.stored], [], .whole hread, hstored ▸ hmessages, ?_⟩
      · simp [hbacklog, hrejects]
      · simp [hbacklog]
    · rintro e s' ⟨hne, hi', ⟨m', hcut, hmessages⟩, hbacklog, hnot, hs'⟩
      have hrejects : rejects s.busy v = true := by
        simp [rejects, hread, mt haccepted.mpr hnot]
      obtain ⟨a', hcut', hstored'⟩ := hcutOf m' hcut
      refine ⟨?_, hi', hbusy s' hs', ?_, [a'.stored], [v], .cut hread hcut',
        hstored' ▸ hmessages, ?_⟩
      · cases e with
        | undefined => exact absurd rfl hne
        | runtimeError text => exact ⟨text, rfl⟩
      · simp [hbacklog, hrejects]
      · simp [hbacklog]
  unfold handleMessageStream handleMessage
  rw [Attempt.ends_bind, Attempt.ends_tryCatch]
  cases hread : readMessage v with
  | ok a =>
    cases a with
    | history m =>
      refine (hinserted m (.history m) hread rfl Iff.rfl (fun _ => Iff.rfl)
        fun m' hcut => ⟨.history m', .history hcut, rfl⟩).mono (fun _ _ h => ⟨rfl, h⟩) ?_
      rintro _ s' ⟨⟨text, rfl⟩, h⟩
      exact ⟨rfl, h⟩
    | orders m =>
      refine (hinserted m (.orders m) hread rfl Iff.rfl (fun _ => Iff.rfl)
        fun m' hcut => ⟨.orders m', .orders hcut, rfl⟩).mono (fun _ _ h => ⟨rfl, h⟩) ?_
      rintro _ s' ⟨⟨text, rfl⟩, h⟩
      exact ⟨rfl, h⟩
  | error e =>
    cases e with
    | undefined => exact ⟨rfl, rfl, rfl⟩
    | runtimeError text =>
      refine ⟨rfl, hi, ?_, ?_, [], [v], .unread hread, (List.append_nil _).symm, rfl⟩
      · funext stmt
        rw [busyAfter, hread]
      · rw [rejects, hread]
        rfl

/-! ### Runs -/

/-- The values are handled one after the other. -/
def handleAll (values : List Document) : Attempt Fault EmdrDb PUnit :=
  values.forM fun v => do
    let _ ← handleMessageStream (some v)

/-- What is known when some values were handled. -/
structure RunOf (s : EmdrDb) (values : List Document) (s' : EmdrDb) : Prop where
  integrity : Integrity s'.tables
  only : OnlyRefused s'.busy
  busy : s'.busy = busyAfterAll s.busy values
  backlog : s'.backlog = s.backlog ++ rejected s.busy values
  handled : ∃ parts : List (List StoredMessage × List Document),
    List.Forall₂ (fun v part => Handled v part.1 part.2) values parts ∧
    s'.tables.messages = s.tables.messages ++ parts.flatMap Prod.fst ∧
    s'.backlog = s.backlog ++ parts.flatMap Prod.snd

/-- A run stops at a value with a time that is out of range. -/
def StopsAt (values : List Document) (P : List Document → EmdrDb → Prop) (e : Fault)
    (s' : EmdrDb) : Prop :=
  e = .undefined ∧ ∃ done v rest, values = done ++ v :: rest ∧
    readMessage v = .error .undefined ∧ P done s'

theorem StopsAt.mono {values : List Document} {P P' : List Document → EmdrDb → Prop} {e : Fault}
    {s' : EmdrDb} (h : StopsAt values P e s') (hP : ∀ done, P done s' → P' done s') :
    StopsAt values P' e s' := by
  obtain ⟨rfl, done, v, rest, hvalues, hread, hdone⟩ := h
  exact ⟨rfl, done, v, rest, hvalues, hread, hP done hdone⟩

/-- What is known at the end of a run. -/
theorem handleAll_ends {values : List Document} {s : EmdrDb} (hi : Integrity s.tables)
    (hs : OnlyRefused s.busy) :
    (handleAll values).Ends (fun _ => RunOf s values) (StopsAt values (RunOf s)) s := by
  refine Attempt.Ends.forM (I := RunOf s)
    ⟨hi, hs, rfl, (List.append_nil _).symm, [], .nil, by simp, by simp⟩ ?_
  rintro done v rest s' hl h
  rw [Attempt.ends_bind]
  refine (handleMessageStream_ends h.integrity h.only).mono ?_ ?_
  · rintro more s'' ⟨-, hv⟩
    obtain ⟨parts, hparts, hmessages, hbacklog⟩ := h.handled
    obtain ⟨log, printed, hhandled, hmessages', hbacklog'⟩ := hv.handled
    refine ⟨hv.integrity, ?_, ?_, ?_, parts ++ [(log, printed)], ?_, ?_, ?_⟩
    · rw [hv.busy]
      exact h.only.busyAfter v
    · rw [hv.busy, h.busy, busyAfterAll, busyAfterAll, List.foldl_concat]
    · rw [hv.backlog, h.backlog, rejected_append, ← h.busy, List.append_assoc]
      simp [rejected]
    · exact List.rel_append hparts (.cons hhandled .nil)
    · rw [hmessages', hmessages]
      simp
    · rw [hbacklog', hbacklog]
      simp
  · rintro e s'' ⟨rfl, hread, rfl⟩
    exact ⟨rfl, done, v, rest, hl, hread, h⟩

/-! ### What a statement can do -/

/-- What a statement writes. -/
inductive Writes : Stmt → Tables → Tables → Prop
  | orders {t t' : Tables} {row : OrderRow} {id : ℕ} :
    t.insertOrders row = .ok (id, t') → Writes .insertOrders t t'
  | history {t t' : Tables} {row : HistoryRow} {id : ℕ} :
    t.insertHistory row = .ok (id, t') → Writes .insertHistory t t'
  | rowsetHeader (t : Tables) (row : RowsetHeaderRow) :
    Writes .insertRowsetHeader t { t with rowsetHeaders := t.rowsetHeaders.insert row }
  | messageHeader (t : Tables) (row : MessageHeaderRow) :
    Writes .insertMessageHeader t { t with messageHeaders := t.messageHeaders.insert row }
  | generator (t : Tables) (g : Generator) :
    Writes .insertGenerator t { t with generators := t.generators.insert g }
  | uploadKey (t : Tables) (k : Key) :
    Writes .insertUploadKey t { t with uploadKeys := t.uploadKeys.insert k }
  | association {t t' : Tables} {row : AssociationRow} {id : ℕ} :
    t.insertUploadKeyAssociation row = .ok (id, t') → Writes .insertUploadKeyAssociation t t'

/-- What holds of the database and is not changed by a statement, whether it is
inserted or refused, nor by a line in the backlog. -/
structure Kept (P : EmdrDb → Prop) : Prop where
  writes : ∀ {s : EmdrDb} {stmt : Stmt} {t : Tables}, P s → s.busy stmt = false →
    Writes stmt s.tables t → P { s with tables := t }
  refused : ∀ {s : EmdrDb} (stmt : Stmt), P s →
    P { s with busy := Function.update s.busy stmt true }
  printed : ∀ {s : EmdrDb} (v : Document), P s → P { s with backlog := s.backlog ++ [v] }

section Keeping

open Attempt

variable {P : EmdrDb → Prop}

theorem Kept.execute (h : Kept P) {R : Type} {stmt : Stmt} {row : Option R}
    {insert : Tables → R → Except ℕ (ℕ × Tables)}
    (hwrites : ∀ t r id t', insert t r = .ok (id, t') → Writes stmt t t') :
    Keeps P (execute stmt row insert) := fun s hs =>
  execute_ends (fun _ => hs) (fun _ _ => hs)
    (fun r id t hbusy _ hok => h.writes hs hbusy (hwrites s.tables r id t hok))
    fun _ _ _ _ _ => h.refused stmt hs

/-- A row that is always inserted. -/
theorem Kept.executeInsert (h : Kept P) {R : Type} {stmt : Stmt} {row : Option R}
    {id : Tables → ℕ} {write : Tables → R → Tables} (hwrites : ∀ t r, Writes stmt t (write t r)) :
    Keeps P (Messages.execute stmt row fun t r => .ok (id t, write t r)) := by
  refine h.execute fun t r n t' hok => ?_
  obtain ⟨-, rfl⟩ := Prod.mk.inj (Except.ok.inj hok)
  exact hwrites t r

theorem Kept.insertMessage (h : Kept P) {T : Type} [Rows T]
    (hrows : ∀ (t : Tables) (row : Rows.Row T) (id : ℕ) (t' : Tables),
      Rows.insert t row = .ok (id, t') → Writes (Rows.stmt T) t t') (m : Message T) :
    Keeps P (insertMessage m) := by
  have hgenerator : Keeps P (insertGenerator m.generator) := by
    refine keeps_get.bind fun s => ?_
    cases s.tables.generators.idOf m.generator with
    | some id => exact keeps_pure
    | none => exact h.executeInsert Writes.generator
  have hkey : ∀ k, Keeps P (insertUploadKey k) := by
    intro k
    refine keeps_get.bind fun s => ?_
    cases s.tables.uploadKeys.idOf k with
    | some id => exact keeps_pure
    | none => exact h.executeInsert Writes.uploadKey
  have hrow : ∀ (x : T) (headerID : ℕ), Keeps P (insert x headerID) := fun x headerID =>
    (h.execute hrows).bind fun _ => keeps_pure
  refine (hgenerator.bind fun id => h.executeInsert Writes.messageHeader).bind fun messageID => ?_
  refine (Keeps.forM (fun rowset => ?_) m.rowsets).bind fun _ => Keeps.forM (fun k => ?_) _
  · exact (h.executeInsert Writes.rowsetHeader).bind fun headerID =>
      Keeps.forM (fun x => hrow x headerID) rowset.x
  · exact (hkey k).bind fun _ => (h.execute fun _ _ _ _ => .association).bind fun _ => keeps_pure

/-- **What every statement keeps is kept by a run.** -/
theorem Kept.handleAll (h : Kept P) (values : List Document) : Keeps P (handleAll values) := by
  refine Keeps.forM (fun v => Keeps.bind ?_ fun _ => keeps_pure) values
  have hmessage : Keeps P (handleMessage v) := by
    unfold handleMessage
    cases readMessage v with
    | error e => exact keeps_throw
    | ok a =>
      cases a with
      | history m => exact h.insertMessage (fun _ _ _ _ => .history) m
      | orders m => exact h.insertMessage (fun _ _ _ _ => .orders) m
  refine Keeps.bind (hmessage.tryCatch fun e => ?_) fun _ => keeps_pure
  cases e with
  | runtimeError text => exact fun s hs => h.printed v hs
  | undefined => exact keeps_throw

end Keeping

/-! ### Results -/

/-- The database before the first message. -/
def EmdrDb.fresh : EmdrDb where
  tables := ⟨.empty, .empty, .empty, .empty, [], .empty, .empty⟩
  busy _ := false
  backlog := []

theorem integrity_fresh : Integrity EmdrDb.fresh.tables where
  generators := List.nodup_nil
  uploadKeys := List.nodup_nil
  orderIDs _ h := absurd h List.not_mem_nil
  messageHeaders _ h := absurd h List.not_mem_nil
  rowsetHeaders _ h := absurd h List.not_mem_nil
  orders _ h := absurd h List.not_mem_nil
  history _ h := absurd h List.not_mem_nil
  associations _ h := absurd h List.not_mem_nil

theorem onlyRefused_fresh : OnlyRefused EmdrDb.fresh.busy := fun _ h =>
  absurd h (by simp [EmdrDb.fresh])

/-- A message with an order of which none at least is sold. -/
@[irreducible] def refusedOrders : Document :=
  let time : Document := .string "2014-07-20T16:58:37+00:00"
  let price : Number := .double ⟨4607182418800017408⟩ (by unfold Pricing.Double.IsFinite; decide)
  let order : Document := .array [.number price, .number (.unsigned 1),
    .number (.unsigned 5), .number (.unsigned 3625745937), .number (.unsigned 1),
    .number (.unsigned 0), .bool false, time, .number (.unsigned 90),
    .number (.unsigned 60003760), .number (.unsigned 30000142)]
  .object [("resultType", .string "orders"), ("uploadKeys", .array []),
    ("generator", .object [("name", .string "a"), ("version", .string "1")]),
    ("currentTime", time), ("version", .string "0.1"), ("columns", .array []),
    ("rowsets", .array [.object [("regionID", .number (.unsigned 10000002)),
      ("typeID", .number (.unsigned 34)), ("generatedAt", time), ("rows", .array [order])]])]

/-- What is read back and what is in the backlog when some values were handled. -/
def AllHandled (s : EmdrDb) (values : List Document) (s' : EmdrDb) : Prop :=
  ∃ parts : List (List StoredMessage × List Document),
    List.Forall₂ (fun v part => Handled v part.1 part.2) values parts ∧
    s'.tables.messages = s.tables.messages ++ parts.flatMap Prod.fst ∧
    s'.backlog = s.backlog ++ parts.flatMap Prod.snd

/-- **Every message is read back as it was, or it is in the backlog** and what was read
of it before it was cut is read back; nothing else is read back or in the backlog. -/
theorem handled_run (values : List Document) {s : EmdrDb} (hi : Integrity s.tables)
    (hs : OnlyRefused s.busy) :
    (handleAll values).Ends (fun _ => AllHandled s values) (StopsAt values (AllHandled s)) s :=
  (handleAll_ends hi hs).mono (fun _ _ h => h.handled) fun _ _ h => h.mono fun _ h => h.handled

theorem handled_run_fresh :
    (handleAll [refusedOrders, .null]).Ends (fun _ => AllHandled .fresh [refusedOrders, .null])
      (StopsAt [refusedOrders, .null] (AllHandled .fresh)) .fresh :=
  handled_run [refusedOrders, .null] integrity_fresh onlyRefused_fresh

/-- **The backlog is what the contents of the values say**, whatever the tables hold. -/
theorem backlog_run (values : List Document) {s : EmdrDb} (hi : Integrity s.tables)
    (hs : OnlyRefused s.busy) :
    (handleAll values).Ends (fun _ s' => s'.backlog = s.backlog ++ rejected s.busy values)
      (StopsAt values fun done s' => s'.backlog = s.backlog ++ rejected s.busy done) s :=
  (handleAll_ends hi hs).mono (fun _ _ h => h.backlog) fun _ _ h => h.mono fun _ h => h.backlog

theorem backlog_run_fresh : (handleAll [refusedOrders]).Ends
    (fun _ s' => s'.backlog = [] ++ rejected (fun _ => false) [refusedOrders])
    (StopsAt [refusedOrders] fun done s' => s'.backlog = [] ++ rejected (fun _ => false) done)
    .fresh :=
  backlog_run [refusedOrders] integrity_fresh onlyRefused_fresh

/-- No row was changed or deleted. -/
structure Tables.Extends (t t' : Tables) : Prop where
  generators : t.generators.rows <+: t'.generators.rows
  messageHeaders : t.messageHeaders.rows <+: t'.messageHeaders.rows
  rowsetHeaders : t.rowsetHeaders.rows <+: t'.rowsetHeaders.rows
  orders : t.orders.rows <+: t'.orders.rows
  history : t.history <+: t'.history
  uploadKeys : t.uploadKeys.rows <+: t'.uploadKeys.rows
  associations : t.uploadKeyAssociations.rows <+: t'.uploadKeyAssociations.rows

theorem Tables.Extends.refl (t : Tables) : t.Extends t := by
  constructor <;> exact List.prefix_rfl

theorem Tables.Extends.trans {t t' t'' : Tables} (h : t.Extends t') (h' : t'.Extends t'') :
    t.Extends t'' where
  generators := h.generators.trans h'.generators
  messageHeaders := h.messageHeaders.trans h'.messageHeaders
  rowsetHeaders := h.rowsetHeaders.trans h'.rowsetHeaders
  orders := h.orders.trans h'.orders
  history := h.history.trans h'.history
  uploadKeys := h.uploadKeys.trans h'.uploadKeys
  associations := h.associations.trans h'.associations

/-- A statement adds a row at most. -/
theorem Writes.extends {stmt : Stmt} {t t' : Tables} (h : Writes stmt t t') : t.Extends t' := by
  cases h with
  | @orders _ _ row id hok =>
    unfold Tables.insertOrders at hok
    split at hok
    · split at hok
      · next rows hrows =>
        obtain ⟨-, rfl⟩ := Prod.mk.inj (Except.ok.inj hok)
        exact { Tables.Extends.refl t with
          orders := Table.rows_of_insert hrows ▸ List.prefix_append _ _ }
      · exact absurd hok (by simp)
    · exact absurd hok (by simp)
  | @history _ _ row id hok =>
    unfold Tables.insertHistory at hok
    split at hok
    · obtain ⟨-, rfl⟩ := Prod.mk.inj (Except.ok.inj hok)
      exact { Tables.Extends.refl t with history := List.prefix_append _ _ }
    · exact absurd hok (by simp)
  | rowsetHeader row =>
    exact { Tables.Extends.refl t with rowsetHeaders := List.prefix_append _ _ }
  | messageHeader row =>
    exact { Tables.Extends.refl t with messageHeaders := List.prefix_append _ _ }
  | generator g => exact { Tables.Extends.refl t with generators := List.prefix_append _ _ }
  | uploadKey k => exact { Tables.Extends.refl t with uploadKeys := List.prefix_append _ _ }
  | @association _ _ row id hok =>
    unfold Tables.insertUploadKeyAssociation at hok
    split at hok
    · next rows hrows =>
      obtain ⟨-, rfl⟩ := Prod.mk.inj (Except.ok.inj hok)
      exact { Tables.Extends.refl t with
        associations := Table.rows_of_insert hrows ▸ List.prefix_append _ _ }
    · exact absurd hok (by simp)

/-- **No row is changed or deleted**, every reference has its row, and no generator and
no upload key is there twice, wherever a run ends. -/
theorem rows_stay (values : List Document) {s : EmdrDb} (hi : Integrity s.tables)
    (hs : OnlyRefused s.busy) :
    (handleAll values).Ends
      (fun _ s' => Integrity s'.tables ∧ s.tables.Extends s'.tables)
      (fun _ s' => Integrity s'.tables ∧ s.tables.Extends s'.tables) s := by
  have hextends : Kept fun s' => s.tables.Extends s'.tables :=
    ⟨fun h _ hwrites => h.trans hwrites.extends, fun _ h => h, fun _ h => h⟩
  refine ((handleAll_ends hi hs).and (hextends.handleAll values s (.refl _))).mono ?_ ?_
  · exact fun _ s' h => ⟨h.1.integrity, h.2⟩
  · rintro e s' ⟨⟨-, done, v, rest, -, -, h⟩, h'⟩
    exact ⟨h.integrity, h'⟩

theorem rows_stay_fresh : (handleAll [refusedOrders]).Ends
    (fun _ s' => Integrity s'.tables ∧ EmdrDb.fresh.tables.Extends s'.tables)
    (fun _ s' => Integrity s'.tables ∧ EmdrDb.fresh.tables.Extends s'.tables) .fresh :=
  rows_stay [refusedOrders] integrity_fresh onlyRefused_fresh

/-- The table of a statement is the same. -/
def Tables.Same (t t' : Tables) : Stmt → Prop
  | .insertOrders => t'.orders = t.orders
  | .insertHistory => t'.history = t.history
  | .insertRowsetHeader => t'.rowsetHeaders = t.rowsetHeaders
  | .insertMessageHeader => t'.messageHeaders = t.messageHeaders
  | .insertGenerator => t'.generators = t.generators
  | .insertUploadKey => t'.uploadKeys = t.uploadKeys
  | .insertUploadKeyAssociation => t'.uploadKeyAssociations = t.uploadKeyAssociations

/-- A statement writes to its own table only. -/
theorem Writes.same {stmt stmt' : Stmt} {t t₁ t₂ : Tables} (h : Writes stmt t₁ t₂)
    (hne : stmt' ≠ stmt) (hsame : t.Same t₁ stmt') : t.Same t₂ stmt' := by
  cases h with
  | @orders _ _ row id hok =>
    unfold Tables.insertOrders at hok
    split at hok
    · split at hok
      · obtain ⟨-, rfl⟩ := Prod.mk.inj (Except.ok.inj hok)
        cases stmt' <;> first | exact hsame | exact absurd rfl hne
      · exact absurd hok (by simp)
    · exact absurd hok (by simp)
  | @history _ _ row id hok =>
    unfold Tables.insertHistory at hok
    split at hok
    · obtain ⟨-, rfl⟩ := Prod.mk.inj (Except.ok.inj hok)
      cases stmt' <;> first | exact hsame | exact absurd rfl hne
    · exact absurd hok (by simp)
  | rowsetHeader row => cases stmt' <;> first | exact hsame | exact absurd rfl hne
  | messageHeader row => cases stmt' <;> first | exact hsame | exact absurd rfl hne
  | generator g => cases stmt' <;> first | exact hsame | exact absurd rfl hne
  | uploadKey k => cases stmt' <;> first | exact hsame | exact absurd rfl hne
  | @association _ _ row id hok =>
    unfold Tables.insertUploadKeyAssociation at hok
    split at hok
    · obtain ⟨-, rfl⟩ := Prod.mk.inj (Except.ok.inj hok)
      cases stmt' <;> first | exact hsame | exact absurd rfl hne
    · exact absurd hok (by simp)

/-- A busy statement stays busy, and its table stays as it is. -/
theorem kept_busy (t : Tables) (stmt : Stmt) :
    Kept fun s => t.Same s.tables stmt ∧ s.busy stmt = true := by
  refine ⟨fun {s stmt' t'} h hbusy hwrites => ⟨hwrites.same ?_ h.1, h.2⟩, fun {s} stmt' h => ?_,
    fun _ h => h⟩
  · rintro rfl
    rw [h.2] at hbusy
    exact absurd hbusy (by simp)
  · refine ⟨h.1, ?_⟩
    by_cases hstmt : stmt = stmt'
    · simp [hstmt]
    · simp [hstmt, h.2]

/-- **No row of a kind is inserted any more once one was refused**: the table stays as
it is, and every message of the kind that has rows goes to the backlog. -/
theorem refused_stays {v : Document} {m : AnyMessage} (hread : readMessage v = .ok m)
    (hrefused : m.verdict = .refused) (before after : List Document) {s : EmdrDb}
    (hi : Integrity s.tables) (hs : OnlyRefused s.busy) :
    (handleAll (before ++ [v])).Ends (fun _ s₁ => (handleAll after).Ends
        (fun _ s₂ => s₁.tables.Same s₂.tables m.stmt ∧ ∀ w ∈ after, ∀ m', readMessage w = .ok m' →
          m'.stmt = m.stmt → ¬ m'.Empty → w ∈ s₂.backlog)
        (fun _ s₂ => s₁.tables.Same s₂.tables m.stmt) s₁)
      (StopsAt (before ++ [v]) fun _ _ => True) s := by
  refine (handleAll_ends hi hs).mono (fun _ s₁ h => ?_) fun _ _ h => h.mono fun _ _ => trivial
  have hbusy : s₁.busy m.stmt = true := by
    rw [h.busy, busyAfterAll, List.foldl_concat, busyAfter, hread]
    exact decide_eq_true (AnyMessage.busyAfter_of_refused hrefused)
  have hsame : s₁.tables.Same s₁.tables m.stmt := by
    cases m.stmt <;> rfl
  refine ((handleAll_ends h.integrity h.only).and
    ((kept_busy s₁.tables m.stmt).handleAll after s₁ ⟨hsame, hbusy⟩)).mono ?_ fun _ _ h => h.2.1
  rintro - s₂ ⟨h₂, hsame₂, -⟩
  refine ⟨hsame₂, fun w hw m' hread' hkind hm' => ?_⟩
  rw [h₂.backlog]
  exact List.mem_append_right _ (mem_rejected hw hread' hm' (by rw [hkind, hbusy]))

theorem refused_stays_refusedOrders : ∃ m, readMessage refusedOrders = .ok m ∧
    m.verdict = .refused ∧
    (handleAll ([] ++ [refusedOrders])).Ends (fun _ s₁ => (handleAll [refusedOrders]).Ends
        (fun _ s₂ => s₁.tables.Same s₂.tables m.stmt ∧ ∀ w ∈ [refusedOrders], ∀ m',
          readMessage w = .ok m' → m'.stmt = m.stmt → ¬ m'.Empty → w ∈ s₂.backlog)
        (fun _ s₂ => s₁.tables.Same s₂.tables m.stmt) s₁)
      (StopsAt ([] ++ [refusedOrders]) fun _ _ => True) .fresh := by
  have hrefused : (readMessage refusedOrders).toOption.map AnyMessage.verdict =
      some .refused := by
    decide +kernel
  have hread : ∃ m, readMessage refusedOrders = .ok m ∧ m.verdict = .refused := by
    generalize readMessage refusedOrders = r at hrefused
    cases r with
    | error e => exact absurd hrefused (by simp [Except.toOption])
    | ok m => exact ⟨m, rfl, Option.some.inj hrefused⟩
  obtain ⟨m, hm, hverdict⟩ := hread
  exact ⟨m, hm, hverdict,
    refused_stays hm hverdict [] [refusedOrders] integrity_fresh onlyRefused_fresh⟩

end Messages
end Emdr
end EveIndustryPlanner
