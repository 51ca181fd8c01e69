import EveIndustryPlanner.Emdr.HaulData
import EveIndustryPlanner.Lib.CircularBuffer

/-!
# Draining the received messages

One thread receives order messages and puts them into a buffer.  Another one
moves them to a buffer of its own, writes all that are there in one transaction,
and clears its buffer when the transaction is committed.  If anything fails, the
transaction is rolled back and the messages stay for the next cycle, where newer
ones are put behind them.  The state in memory is not rolled back.

## Main definitions

* `Db` — what a transaction commits or rolls back.
* `Applied` — a database is the result of some messages.
* `Draining.State`, `Draining.Step` — the two threads with their buffers.
* `Draining.Reachable` — the runs in which the buffers have room for all messages.

## Main results

* `Step.db` — what a rowset does to the database depends on the database only.
* `Draining.Reachable.inv` — the invariant of the two buffers and the transaction.
* `Draining.drained` — **each message is in one of the two buffers or committed,
  and the committed ones were applied once each in the order of their arrival.**
-/

namespace EveIndustryPlanner
namespace Emdr

variable {P : Type}

/-! ### The database -/

/-- The tables that a message changes. -/
@[ext] structure Db (P : Type) where
  lastUpdate : Map (ℕ × UInt64) ℤ
  orders : Map UInt64 (OrderRow P)

/-- The database in what a message updates. -/
def HaulState.db (s : HaulState P) : Db P := ⟨s.lastUpdate, s.orders⟩

/-- The database is set back, the state in memory stays. -/
def HaulState.withDb (s : HaulState P) (db : Db P) : HaulState P :=
  { s with lastUpdate := db.lastUpdate, orders := db.orders }

@[simp] theorem HaulState.db_withDb (s : HaulState P) (db : Db P) : (s.withDb db).db = db := rfl

variable {tables : Tables P}

/-- What the loop over the orders leaves in the database depends on the database only. -/
theorem db_insertOrders (itemId : UInt64) {s t : HaulState P} (h : s.db = t.db)
    (l : List (Orders P)) :
    (insertOrders tables itemId s l).2.db = (insertOrders tables itemId t l).2.db := by
  induction l generalizing s t with
  | nil => exact h
  | cons o l ih =>
    obtain ⟨hlast, horders⟩ := Db.mk.injEq .. ▸ h
    rw [insertOrders, insertOrders]
    split
    · apply ih
      simp only [HaulState.db, insertRow, keepOrder, hlast, horders]
    · exact h

/-- What is in the database before the loop depends on the database only. -/
theorem db_cleared {s t : HaulState P} (h : s.db = t.db) (rs : Rowset P) :
    (cleared tables s rs).db = (cleared tables t rs).db := by
  obtain ⟨hlast, horders⟩ := Db.mk.injEq .. ▸ h
  simp only [cleared, deleteOrders, HaulState.db, frame_clearStations, hlast, horders]

/-- What a rowset leaves in the database depends on the database only. -/
theorem db_applyRowset (tables : Tables P) {s t : HaulState P} (h : s.db = t.db) (rs : Rowset P) :
    (applyRowset tables s rs).1 = (applyRowset tables t rs).1 ∧
      (applyRowset tables s rs).2.db = (applyRowset tables t rs).2.db := by
  refine ⟨by rw [applyRowset_fst, applyRowset_fst], ?_⟩
  have hinsert : (insertOrders tables rs.typeID (cleared tables s rs) rs.x).2.db =
      (insertOrders tables rs.typeID (cleared tables t rs) rs.x).2.db :=
    db_insertOrders rs.typeID (db_cleared h rs) rs.x
  have hlast : s.lastUpdate = t.lastUpdate := congrArg Db.lastUpdate h
  have horders := congrArg Db.orders hinsert
  rw [applyRowset_eq, applyRowset_eq]
  split
  · refine Db.ext ?_ horders
    simp only [HaulState.db, hlast]
  · exact hinsert

/-- What a rowset does to the database depends on the database only. -/
theorem Step.db {s s' t : HaulState P} {rs : Rowset P} {o : Outcome} (h : Step tables s rs o s')
    (ht : s.db = t.db) : ∃ t', Step tables t rs o t' ∧ s'.db = t'.db := by
  obtain ⟨row, hrow, h⟩ := h
  have hlast : s.lastUpdate = t.lastUpdate := congrArg Db.lastUpdate ht
  have hrow' : Selects tables t rs.regionID row := by
    cases row <;> simpa only [Selects, hlast] using hrow
  obtain ⟨hfst, hdb⟩ := db_applyRowset tables ht rs
  refine ⟨(updateRowset tables t rs row).2, ⟨row, hrow', ?_⟩, ?_⟩
  all_goals
    unfold updateRowset at h ⊢
    grind

/-! ### Messages -/

/-- The rowsets of some messages, one after the other, none of which throws. -/
inductive Updates (tables : Tables P) : HaulState P → List (Rowset P) → HaulState P → Prop
  | nil {s : HaulState P} : Updates tables s [] s
  | cons {s s₁ s' : HaulState P} {rs : Rowset P} {o : Outcome} {rest : List (Rowset P)}
      (hstep : Step tables s rs o s₁) (ho : o ≠ .thrown) (h : Updates tables s₁ rest s') :
      Updates tables s (rs :: rest) s'

/-- `updateMaxIskHaulData`, if it does not throw. -/
def updateMaxIskHaulData (tables : Tables P) (s : HaulState P) (m : Message P) (s' : HaulState P) :
    Prop :=
  Updates tables s m.rowsets s'

theorem Updates.append {s s₁ s' : HaulState P} {l l' : List (Rowset P)}
    (h : Updates tables s l s₁) (h' : Updates tables s₁ l' s') : Updates tables s (l ++ l') s' := by
  induction h with
  | nil => exact h'
  | cons hstep ho _ ih => exact .cons hstep ho (ih h')

theorem Updates.db {s s' t : HaulState P} {l : List (Rowset P)} (h : Updates tables s l s')
    (ht : s.db = t.db) : ∃ t', Updates tables t l t' ∧ s'.db = t'.db := by
  induction h generalizing t with
  | nil => exact ⟨t, .nil, ht⟩
  | cons hstep ho _ ih =>
    obtain ⟨t₁, hstep', ht₁⟩ := hstep.db ht
    obtain ⟨t', h', ht'⟩ := ih ht₁
    exact ⟨t', .cons hstep' ho h', ht'⟩

/-- A database is the result of some messages, applied once each in their order by
one who has nothing in memory. -/
def Applied (tables : Tables P) (db : Db P) (messages : List (Message P)) (db' : Db P) : Prop :=
  ∃ s', Updates tables (HaulState.empty.withDb db) (messages.flatMap Message.rowsets) s' ∧
    s'.db = db'

theorem Applied.nil (db : Db P) : Applied tables db [] db := ⟨_, .nil, rfl⟩

/-- One more message, whatever is in memory. -/
theorem Applied.concat {db : Db P} {messages : List (Message P)} {s s' : HaulState P}
    {m : Message P} (h : Applied tables db messages s.db)
    (hm : updateMaxIskHaulData tables s m s') : Applied tables db (messages ++ [m]) s'.db := by
  obtain ⟨t, ht, hdb⟩ := h
  obtain ⟨t', ht', hdb'⟩ := Updates.db hm hdb.symm
  refine ⟨t', ?_, hdb'.symm⟩
  rw [List.flatMap_append, List.flatMap_singleton]
  exact ht.append ht'

/-! ### The two threads -/

namespace Draining

/-- The capacity of the buffers. -/
def capacity : ℕ := 1000

/-- How far the draining thread is. -/
inductive Phase (P : Type) where
  /-- Before the messages are moved. -/
  | sleeping
  /-- Before the transaction begins. -/
  | moved
  /-- In the transaction, with the messages the loop still has to come to. -/
  | updating (todo : List (Message P))
  /-- The statement for old orders, which is not executed, is prepared. -/
  | prepared

/-- The two threads; `received` and `committed` are kept for the record. -/
structure State (P : Type) where
  received : List (Message P)
  messageBuffer : CircularBuffer (Message P) capacity
  localMessageBuffer : CircularBuffer (Message P) capacity
  phase : Phase P
  /-- What the draining thread sees, in memory and in the transaction. -/
  haul : HaulState P
  /-- The database without the transaction. -/
  saved : Db P
  committed : List (Message P)

/-- Nothing received. -/
def State.init (haul : HaulState P) : State P :=
  ⟨[], .empty, .empty, .sleeping, haul, haul.db, []⟩

/-- What a text that was received parses to. -/
inductive Parsed (P : Type) where
  | history
  | orders (m : Message P)
  /-- Parsing throws, or the type of the result is neither of the two. -/
  | failure

/-- `handleMessageString`, under the lock where it uses the buffer. -/
def handleMessageString (s : State P) : Parsed P → State P
  | .orders m => { s with
      received := s.received ++ [m]
      messageBuffer := s.messageBuffer.pushBack m }
  | _ => s

/-- The messages are moved under the lock. -/
def State.move (s : State P) : State P :=
  { s with
    localMessageBuffer := s.localMessageBuffer.append s.messageBuffer.elems
    messageBuffer := .empty
    phase := .moved }

/-- The destructor of the transaction, and the way back to the begin of the loop. -/
def State.leave (s : State P) (rollback : Bool) : State P :=
  { s with
    haul := if rollback then s.haul.withDb s.saved else s.haul
    phase := .sleeping }

/-- A successful `commit` and the `clear` behind it. -/
def State.commit (s : State P) : State P :=
  { s with
    saved := s.haul.db
    committed := s.committed ++ s.localMessageBuffer.elems
    localMessageBuffer := .empty }

/-- One step of one of the threads. -/
inductive Step (tables : Tables P) : State P → State P → Prop
  | receive (s : State P) (p : Parsed P) : Step tables s (handleMessageString s p)
  | move {s : State P} (h : s.phase = .sleeping) : Step tables s s.move
  | begin {s : State P} (h : s.phase = .moved) :
    Step tables s { s with phase := .updating s.localMessageBuffer.elems }
  /-- No transaction was constructed, so there is no destructor. -/
  | beginFails {s : State P} (h : s.phase = .moved) : Step tables s { s with phase := .sleeping }
  | update {s : State P} {m : Message P} {todo : List (Message P)} {haul : HaulState P}
    (h : s.phase = .updating (m :: todo)) (hm : updateMaxIskHaulData tables s.haul m haul) :
    Step tables s { s with haul, phase := .updating todo }
  /-- An update that throws may have done anything before. -/
  | updateFails {s : State P} {m : Message P} {todo : List (Message P)} (haul : HaulState P)
    (h : s.phase = .updating (m :: todo)) : Step tables s ({ s with haul }.leave true)
  | prepare {s : State P} (h : s.phase = .updating []) : Step tables s { s with phase := .prepared }
  | prepareFails {s : State P} (h : s.phase = .updating []) : Step tables s (s.leave true)
  | commit {s : State P} (h : s.phase = .prepared) : Step tables s (s.commit.leave false)
  | commitFails {s : State P} (h : s.phase = .prepared) : Step tables s (s.leave true)

/-- The messages that are not committed fit into a buffer. -/
def State.Fits (s : State P) : Prop := s.received.length ≤ s.committed.length + capacity

/-- The states of the runs in which there is always room for all messages. -/
inductive Reachable (tables : Tables P) (haul : HaulState P) : State P → Prop
  | init : Reachable tables haul (.init haul)
  | step {s s' : State P} (h : Reachable tables haul s) (hstep : Step tables s s')
    (hfits : s'.Fits) : Reachable tables haul s'

/-- The messages that the transaction has applied. -/
def Phase.Updated (tables : Tables P) (db : Db P) (committed localMessages : List (Message P))
    (haul : HaulState P) (saved : Db P) : Phase P → Prop
  | .sleeping | .moved => haul.db = saved
  | .updating todo => ∃ before, localMessages = before ++ todo ∧
      Applied tables db (committed ++ before) haul.db
  | .prepared => Applied tables db (committed ++ localMessages) haul.db

/-- The invariant of the two buffers and the transaction. -/
structure Inv (tables : Tables P) (db : Db P) (s : State P) : Prop where
  received : s.received =
    s.committed ++ s.localMessageBuffer.elems ++ s.messageBuffer.elems
  saved : Applied tables db s.committed s.saved
  updated : s.phase.Updated tables db s.committed s.localMessageBuffer.elems s.haul s.saved

variable {s s' : State P} {haul : HaulState P} {db : Db P}

/-- What is known in a phase. -/
theorem Inv.updated_of (h : Inv tables db s) {phase : Phase P} (hphase : s.phase = phase) :
    phase.Updated tables db s.committed s.localMessageBuffer.elems s.haul s.saved :=
  hphase ▸ h.updated

/-- A rollback keeps the messages. -/
theorem Inv.rollback (h : Inv tables db s) (haul : HaulState P) :
    Inv tables db ({ s with haul }.leave true) :=
  ⟨h.received, h.saved, rfl⟩

/-- One step keeps the invariant. -/
theorem Inv.step (h : Inv tables db s) (hstep : Step tables s s') (hfits : s'.Fits) :
    Inv tables db s' := by
  have hlength : s.received.length = s.committed.length + s.localMessageBuffer.elems.length +
      s.messageBuffer.elems.length := by
    rw [h.received, List.length_append, List.length_append]
  cases hstep with
  | receive p =>
    cases p with
    | orders m =>
      have hroom : s.messageBuffer.elems.length < capacity := by
        simp only [State.Fits, handleMessageString, List.length_append, List.length_singleton]
          at hfits
        omega
      refine ⟨?_, h.saved, h.updated⟩
      simp only [handleMessageString]
      rw [CircularBuffer.elems_pushBack hroom, h.received, List.append_assoc]
    | history => exact h
    | failure => exact h
  | move hphase =>
    have hroom : s.localMessageBuffer.elems.length + s.messageBuffer.elems.length ≤ capacity := by
      simp only [State.Fits, State.move] at hfits
      omega
    have hdb : s.haul.db = s.saved := h.updated_of hphase
    refine ⟨?_, h.saved, hdb⟩
    simp only [State.move]
    rw [CircularBuffer.elems_append hroom, h.received]
    simp
  | begin hphase =>
    have hdb : s.haul.db = s.saved := h.updated_of hphase
    refine ⟨h.received, h.saved, [], rfl, ?_⟩
    rw [List.append_nil]
    exact hdb ▸ h.saved
  | beginFails hphase =>
    have hdb : s.haul.db = s.saved := h.updated_of hphase
    exact ⟨h.received, h.saved, hdb⟩
  | @update m todo haul hphase hm =>
    obtain ⟨before, hlocal, happlied⟩ := h.updated_of hphase
    refine ⟨h.received, h.saved, before ++ [m], ?_, ?_⟩
    · simpa using hlocal
    · rw [← List.append_assoc]
      exact happlied.concat hm
  | updateFails haul hphase => exact h.rollback haul
  | prepare hphase =>
    obtain ⟨before, hlocal, happlied⟩ := h.updated_of hphase
    refine ⟨h.received, h.saved, ?_⟩
    rw [List.append_nil] at hlocal
    exact hlocal ▸ happlied
  | prepareFails hphase => exact h.rollback s.haul
  | commit hphase =>
    exact ⟨by simp [State.commit, State.leave, h.received], h.updated_of hphase, rfl⟩
  | commitFails hphase => exact h.rollback s.haul

/-- The two buffers and the transaction in every state that can be reached. -/
theorem Reachable.inv (h : Reachable tables haul s) : Inv tables haul.db s := by
  induction h with
  | init => exact ⟨rfl, .nil _, rfl⟩
  | step _ hstep hfits ih => exact ih.step hstep hfits

/-- **Each message is in one of the two buffers or committed, and the committed ones
were applied once each in the order of their arrival.** -/
theorem drained (h : Reachable tables haul s) :
    s.received = s.committed ++ s.localMessageBuffer.elems ++ s.messageBuffer.elems ∧
      Applied tables haul.db s.committed s.saved :=
  ⟨h.inv.received, h.inv.saved⟩

/-- A message with one order. -/
def sampleMessage : Message ℕ := ⟨[⟨[⟨7, 1, 5, true, 0, 10, 60003760⟩], 100, 10000002, 34⟩]⟩

/-- No stations are known and all rows are accepted. -/
def sampleTables : Tables ℕ := .exact ℕ (fun _ _ => false) fun _ _ => true

set_option maxRecDepth 5000 in
/-- The message is kept when the first transaction fails in its commit, and written by
the second one, while another message is received. -/
theorem drained_sample : ∃ s : State ℕ, Reachable sampleTables .empty s ∧
    s.committed = [sampleMessage] ∧ s.messageBuffer.elems = [⟨[]⟩] ∧
      s.received = s.committed ++ s.localMessageBuffer.elems ++ s.messageBuffer.elems ∧
        Applied sampleTables HaulState.empty.db s.committed s.saved := by
  have hupdate : ∀ s : HaulState ℕ, (∀ k, s.lastUpdate k = none) →
      ∃ haul, updateMaxIskHaulData sampleTables s sampleMessage haul :=
    fun s hs => ⟨_, .cons (o := .applied) ⟨none, fun _ => hs _, rfl⟩ (by decide) .nil⟩
  obtain ⟨haul, hfirst⟩ := hupdate .empty fun _ => rfl
  obtain ⟨haul', hsecond⟩ := hupdate (haul.withDb HaulState.empty.db) fun _ => rfl
  have hrun : ∃ s : State ℕ, Reachable sampleTables .empty s ∧
      s.committed = [sampleMessage] ∧ s.messageBuffer.elems = [⟨[]⟩] := by
    have hinit : Reachable sampleTables .empty (State.init (P := ℕ) .empty) := .init
    have hfits : ∀ {s : State ℕ}, s.received.length ≤ 2 → s.Fits := fun h =>
      h.trans (le_trans (by decide) (Nat.le_add_left capacity _))
    have one : (1 : ℕ) ≤ 2 := by decide
    have hreceive := hinit.step (.receive _ (.orders sampleMessage)) (hfits one)
    -- the first cycle
    have hbegin := (hreceive.step (.move rfl) (hfits one)).step (.begin rfl) (hfits one)
    have hprepare := (hbegin.step (.update rfl hfirst) (hfits one)).step (.prepare rfl) (hfits one)
    have hfailed := hprepare.step (.commitFails rfl) (hfits one)
    -- the second cycle
    have hbegin := (hfailed.step (.move rfl) (hfits one)).step (.begin rfl) (hfits one)
    have hreceive := hbegin.step (.receive _ (.orders ⟨[]⟩)) (hfits le_rfl)
    have hprepare := (hreceive.step (.update rfl hsecond) (hfits le_rfl)).step (.prepare rfl)
      (hfits le_rfl)
    exact ⟨_, hprepare.step (.commit rfl) (hfits le_rfl), rfl, rfl⟩
  obtain ⟨s, hs, hcommitted, hbuffer⟩ := hrun
  exact ⟨s, hs, hcommitted, hbuffer, drained hs⟩

end Draining

end Emdr
end EveIndustryPlanner
