-- SUMMARY: Transactions that lock, log, write, commit and roll back, with one action for each step of the code.
import Mathlib.Logic.Relation
import Rmdb.Recovery.Identifiers
import Rmdb.Recovery.RecoveryManager
import Rmdb.Transaction.Exclusive

/-!
# Transactions and the log

Each action is of one transaction, and other transactions may come in between any two. A write is logged and put into
the write set first, and then the row is written. `DELETE` and `UPDATE` have an X lock by then; `INSERT` has an IX lock
on the table and asks for the X lock on its row when the row is there. `abort` takes back one write at a time: first
the row, then comes the compensation record, and then the write leaves the write set. `release_locks` gives up one lock
after the other, and behind it come the COMMIT or ABORT record and the flush.

`hdr_latch_` of a table file keeps two inserts apart. Whoever else waits for it in the code need not wait here.
-/

namespace Rmdb

open Replay (Change Entry)

-- ---------------------------------------------------------------------------
-- Writes
-- ---------------------------------------------------------------------------

/-- The rid of a record in the lock manager. -/
def LogRid.toRid (rid : LogRid Int) : Rid := ⟨rid.pageNo, rid.slotNo⟩

/-- What the locks of a row are on. -/
def Place.recordId (fd : List UInt8 → Int) (x : Place) : LockDataId := .record (fd x.tableName) x.rid.toRid

def Place.tableId (fd : List UInt8 → Int) (x : Place) : LockDataId := .table (fd x.tableName)

namespace LoggedWrite

def place : LoggedWrite Int → Place
  | insert _ rid tableName => ⟨tableName, rid⟩
  | delete _ rid tableName => ⟨tableName, rid⟩
  | update _ _ rid tableName => ⟨tableName, rid⟩

def change : LoggedWrite Int → Change RmRecord
  | insert r _ _ => ⟨none, some r⟩
  | delete r _ _ => ⟨some r, none⟩
  | update r newRecord _ _ => ⟨some r, some newRecord⟩

/-- What the executors do. -/
def apply (rows : TableRows) : LoggedWrite Int → TableRows
  | insert r rid tableName => Function.update rows ⟨tableName, rid⟩ (some r)
  | delete _ rid tableName => Function.update rows ⟨tableName, rid⟩ none
  | update _ newRecord rid tableName => Function.update rows ⟨tableName, rid⟩ (some newRecord)

/-- `rollback_insert`, `rollback_delete` and `rollback_update` of `TransactionManager`. -/
def rollback (rows : TableRows) : LoggedWrite Int → TableRows
  | insert _ rid tableName => Function.update rows ⟨tableName, rid⟩ none
  | delete r rid tableName => Function.update rows ⟨tableName, rid⟩ (some r)
  | update r _ rid tableName => Function.update rows ⟨tableName, rid⟩ (some r)

/-- An insert asks for its lock when it has written the row. -/
def isInsert : LoggedWrite Int → Bool
  | insert _ _ _ => true
  | delete _ _ _ => false
  | update _ _ _ _ => false

/-- `lock_exclusive_on_record` in `InsertExecutor`. `fd` are the descriptors of the table files. -/
def lockCall (fd : List UInt8 → Int) (t : TxnId) (w : LoggedWrite Int) : LockCall :=
  .exclusiveOnRecord t w.place.rid.toRid (fd w.place.tableName)

end LoggedWrite

/-- The changes of one row, with the last one first. -/
def changesAt (x : Place) (ws : List (LoggedWrite Int)) : List (Change RmRecord) :=
  (ws.filter fun w => w.place = x).map (·.change)

-- ---------------------------------------------------------------------------
-- The system
-- ---------------------------------------------------------------------------

deriving instance DecidableEq for LoggedWrite
deriving instance DecidableEq for LockCall

/-- Where a transaction is. Behind `release_locks` it is known whether it commits. -/
inductive TxnPhase where
  | fresh
  | running
  /-- The write is in the log and in the write set. -/
  | writing (w : LoggedWrite Int)
  /-- An insert has written its row. -/
  | inserted (w : LoggedWrite Int)
  /-- It did not get its lock. -/
  | refused
  /-- The loop of `abort`. -/
  | aborting
  /-- The row is as it was before the write. -/
  | undone (w : LoggedWrite Int)
  /-- The compensation record is in the log. -/
  | compensated (w : LoggedWrite Int)
  /-- The loop of `release_locks`. -/
  | releasing (commits : Bool)
  /-- Its COMMIT or ABORT record is in the log. -/
  | logged (commits : Bool)
  /-- The log is flushed. -/
  | ended (commits : Bool)
  /-- It is of an earlier process. -/
  | past
  deriving DecidableEq

/-- The tables, the log with the number of its records on disk, the lock manager, the inserts that have a `hdr_latch_`,
the transactions in `txn_map`, and for each transaction where it is and its write set with the last record first.
`wroteUnder` are the locks under which a transaction has written; the code does not keep it. -/
structure TxnSystem where
  rows : TableRows
  log : List (LogRecord Int)
  onDisk : Nat
  globalLsn : Int
  soFarLsn : Int → Int
  locks : LockState
  hdrLatch : List UInt8 → Option TxnId
  txnMap : List TxnId
  phase : TxnId → TxnPhase
  writeSet : TxnId → List (LoggedWrite Int)
  wroteUnder : TxnId → List (LockDataId × LockMode)

namespace TxnSystem

/-- The `gen_log_*` functions. -/
def genLog (s : TxnSystem) (call : GenLog Int) : TxnSystem :=
  { s with
    globalLsn := s.globalLsn + 1
    log := s.log ++ [call.record s.globalLsn (s.soFarLsn call.tid)]
    soFarLsn := call.soFarLsn s.globalLsn s.soFarLsn }

def setPhase (s : TxnSystem) (t : TxnId) (p : TxnPhase) : TxnSystem :=
  { s with phase := Function.update s.phase t p }

/-- `begin`. -/
def begin (s : TxnSystem) (t : TxnId) : TxnSystem :=
  ({ s with txnMap := t :: s.txnMap }.setPhase t .running).genLog (.begin t)

/-- An insert goes on when it has its lock, and is aborted when it does not get it. -/
def afterLock (fd : List UInt8 → Int) (s : TxnSystem) (t : TxnId) : TxnPhase :=
  match s.phase t with
  | .inserted w =>
    if (LockManager.lockExclusiveOnRecord s.locks.lockTable (s.locks.txns t) w.place.rid.toRid
        (fd w.place.tableName)).granted then .running
    else .refused
  | p => p

/-- A request for a lock. -/
def lock (fd : List UInt8 → Int) (s : TxnSystem) (t : TxnId) (c : LockCall) : TxnSystem :=
  { s with locks := s.locks.call c }.setPhase t (s.afterLock fd t)

/-- The locks under which a row is written: an X lock on it and an IX lock on its table, or an X lock on the table. -/
def writeLocks (fd : List UInt8 → Int) (s : TxnSystem) (t : TxnId) (w : LoggedWrite Int) :
    List (LockDataId × LockMode) :=
  if w.isInsert = true ∨ ⟨t, .X⟩ ∈ s.locks.lockTable (w.place.recordId fd) then
    [(w.place.recordId fd, .X), (w.place.tableId fd, .IX)]
  else [(w.place.tableId fd, .X)]

/-- `gen_log_from_write_set` and `append_write_record`. -/
def logWrite (fd : List UInt8 → Int) (s : TxnSystem) (t : TxnId) (w : LoggedWrite Int) : TxnSystem :=
  { s with
    hdrLatch := if w.isInsert then Function.update s.hdrLatch w.place.tableName (some t) else s.hdrLatch
    writeSet := Function.update s.writeSet t (w :: s.writeSet t)
    wroteUnder := Function.update s.wroteUnder t (s.writeLocks fd t w ++ s.wroteUnder t)
    phase := Function.update s.phase t (.writing w) }.genLog (.fromWriteSet t w)

/-- The row is written. -/
def write (s : TxnSystem) (t : TxnId) (w : LoggedWrite Int) : TxnSystem :=
  { s with
    rows := w.apply s.rows
    hdrLatch := if w.isInsert then Function.update s.hdrLatch w.place.tableName none else s.hdrLatch }.setPhase t
      (if w.isInsert then .inserted w else .running)

/-- The first line of `abort`. -/
def abort (s : TxnSystem) (t : TxnId) : TxnSystem :=
  { s with locks := s.locks.call (.setState t .aborted) }.setPhase t .aborting

/-- `rollback_insert`, `rollback_delete` or `rollback_update`. -/
def rollback (s : TxnSystem) (t : TxnId) (w : LoggedWrite Int) : TxnSystem :=
  { s with rows := w.rollback s.rows }.setPhase t (.undone w)

/-- The compensation record. -/
def logRollback (s : TxnSystem) (t : TxnId) (w : LoggedWrite Int) : TxnSystem :=
  (s.setPhase t (.compensated w)).genLog (.clr t w)

/-- `pop_back` of the write set. -/
def popBack (s : TxnSystem) (t : TxnId) : TxnSystem :=
  { s with writeSet := Function.update s.writeSet t (s.writeSet t).tail }.setPhase t .aborting

/-- `commit` or `abort` come to `release_locks`. -/
def release (s : TxnSystem) (t : TxnId) (commits : Bool) : TxnSystem :=
  { s with locks := if commits then s.locks.call (.setState t .committed) else s.locks }.setPhase t
    (.releasing commits)

/-- One turn of the loop of `release_locks`. -/
def unlock (s : TxnSystem) (t : TxnId) (id : LockDataId) : TxnSystem := { s with locks := s.locks.call (.unlock t id) }

/-- Behind the loop, the lock set and the write set are cleared. Then comes `gen_log_commit` or `gen_log_abort`. -/
def endRecord (s : TxnSystem) (t : TxnId) (commits : Bool) : TxnSystem :=
  ({ s with
    locks := s.locks.releaseLocks t
    writeSet := Function.update s.writeSet t [] }.setPhase t (.logged commits)).genLog
      (if commits then .commit t else .abort t)

/-- `flush_log_to_disk`. -/
def flushLog (s : TxnSystem) (t : TxnId) (commits : Bool) : TxnSystem :=
  { s with onDisk := s.log.length }.setPhase t (.ended commits)

/-- A new process over this log file, behind its recovery. -/
def recovered (log : List (LogRecord Int)) : TxnSystem where
  rows := (RecoveryManager.recover log).1.rows
  log := log
  onDisk := log.length
  globalLsn := (Analyzed.init.addAll 0 log).nextLsn
  soFarLsn _ := -1
  locks := .init
  hdrLatch _ := none
  txnMap := []
  phase t := if log.any fun r => r.logTid = t then .past else .fresh
  writeSet _ := []
  wroteUnder _ := []

/-- The same, with the compensation records in the log buffer. -/
def restart (log : List (LogRecord Int)) : TxnSystem := (RecoveryManager.recover log).2.foldl genLog (recovered log)

/-- The transaction has an exclusive lock on the row or on its table. -/
def HoldsX (fd : List UInt8 → Int) (s : TxnSystem) (t : TxnId) (x : Place) : Prop :=
  s.locks.lockTable.HoldsX t (fd x.tableName) x.rid.toRid

/-- What the executors have when they log a write. -/
def MayWrite (fd : List UInt8 → Int) (s : TxnSystem) (t : TxnId) (w : LoggedWrite Int) : Prop :=
  if w.isInsert then ⟨t, .IX⟩ ∈ s.locks.lockTable (w.place.tableId fd) ∧ s.hdrLatch w.place.tableName = none
  else s.HoldsX fd t w.place

end TxnSystem

/-- Which locks a transaction may ask for. -/
def TxnPhase.MayAsk (fd : List UInt8 → Int) (t : TxnId) (c : LockCall) : TxnPhase → Prop
  | running => True
  | inserted w => c = w.lockCall fd t
  | _ => False

inductive TxnAction where
  | begin (t : TxnId)
  | lock (t : TxnId) (c : LockCall)
  | logWrite (t : TxnId) (w : LoggedWrite Int)
  | write (t : TxnId) (w : LoggedWrite Int)
  | abort (t : TxnId)
  | rollback (t : TxnId) (w : LoggedWrite Int)
  | logRollback (t : TxnId) (w : LoggedWrite Int)
  | popBack (t : TxnId) (w : LoggedWrite Int)
  | release (t : TxnId) (commits : Bool)
  | unlock (t : TxnId) (id : LockDataId)
  | endRecord (t : TxnId) (commits : Bool)
  | flushLog (t : TxnId) (commits : Bool)

namespace TxnSystem

variable (fd : List UInt8 → Int) (s : TxnSystem)

/-- What a transaction may do next. -/
def Allows : TxnAction → Prop
  | .begin t => s.phase t = .fresh
  | .lock t c => (s.phase t).MayAsk fd t c ∧ c.requester = some t
  | .logWrite t w => s.phase t = .running ∧ s.MayWrite fd t w ∧ s.rows w.place = w.change.before
  | .write t w => s.phase t = .writing w
  | .abort t => s.phase t = .running ∨ s.phase t = .refused
  | .rollback t w => s.phase t = .aborting ∧ (s.writeSet t).head? = some w
  | .logRollback t w => s.phase t = .undone w
  | .popBack t w => s.phase t = .compensated w
  | .release t commits => if commits then s.phase t = .running else s.phase t = .aborting ∧ s.writeSet t = []
  | .unlock t id => (s.phase t = .releasing true ∨ s.phase t = .releasing false) ∧ id ∈ (s.locks.txns t).lockSet
  | .endRecord t commits =>
    s.phase t = .releasing commits ∧ ∀ id ∈ (s.locks.txns t).lockSet, ∀ q ∈ s.locks.lockTable id, q.txnId ≠ t
  | .flushLog t commits => s.phase t = .logged commits

def act : TxnAction → TxnSystem
  | .begin t => s.begin t
  | .lock t c => s.lock fd t c
  | .logWrite t w => s.logWrite fd t w
  | .write t w => s.write t w
  | .abort t => s.abort t
  | .rollback t w => s.rollback t w
  | .logRollback t w => s.logRollback t w
  | .popBack t _ => s.popBack t
  | .release t commits => s.release t commits
  | .unlock t id => s.unlock t id
  | .endRecord t commits => s.endRecord t commits
  | .flushLog t commits => s.flushLog t commits

end TxnSystem

/-- One action, one that `ok` lets through. -/
def TxnStep (fd : List UInt8 → Int) (ok : TxnSystem → TxnAction → Prop) (s s' : TxnSystem) : Prop :=
  ∃ a, ok s a ∧ s.Allows fd a ∧ s.act fd a = s'

/-- Any number of actions. -/
abbrev TxnSteps (fd : List UInt8 → Int) (ok : TxnSystem → TxnAction → Prop) : TxnSystem → TxnSystem → Prop :=
  Relation.ReflTransGen (TxnStep fd ok)

/-- The insert that a transaction is at, up to its request for the lock. -/
def TxnPhase.inserting : TxnPhase → Option (LoggedWrite Int)
  | writing w => if w.isInsert then some w else none
  | inserted w => some w
  | _ => none

/-- No other transaction has a lock on the slot that an insert takes, and none asks for one before the insert does. -/
def TxnSystem.InsertsApart (fd : List UInt8 → Int) (s : TxnSystem) : TxnAction → Prop
  | .logWrite t w => w.isInsert = true → ∀ q ∈ s.locks.lockTable (w.place.recordId fd), q.txnId = t
  | .lock t c => ∀ t' ∈ s.txnMap, t' ≠ t → ∀ w ∈ (s.phase t').inserting, ∀ q ∈ c.requests, q.1 ≠ w.place.recordId fd
  | _ => True

namespace TxnSystem

variable (fd : List UInt8 → Int) (s : TxnSystem)

instance (t : TxnId) (x : Place) : Decidable (s.HoldsX fd t x) := inferInstanceAs (Decidable (_ ∨ _))

instance (t : TxnId) (w : LoggedWrite Int) : Decidable (s.MayWrite fd t w) :=
  inferInstanceAs (Decidable (if w.isInsert then _ else _))

instance (t : TxnId) (c : LockCall) : (p : TxnPhase) → Decidable (p.MayAsk fd t c)
  | .running => inferInstanceAs (Decidable True)
  | .inserted w => inferInstanceAs (Decidable (c = w.lockCall fd t))
  | .fresh => inferInstanceAs (Decidable False)
  | .writing _ => inferInstanceAs (Decidable False)
  | .refused => inferInstanceAs (Decidable False)
  | .aborting => inferInstanceAs (Decidable False)
  | .undone _ => inferInstanceAs (Decidable False)
  | .compensated _ => inferInstanceAs (Decidable False)
  | .releasing _ => inferInstanceAs (Decidable False)
  | .logged _ => inferInstanceAs (Decidable False)
  | .ended _ => inferInstanceAs (Decidable False)
  | .past => inferInstanceAs (Decidable False)

instance : (a : TxnAction) → Decidable (s.Allows fd a)
  | .begin t => inferInstanceAs (Decidable (s.phase t = .fresh))
  | .lock t c => inferInstanceAs (Decidable ((s.phase t).MayAsk fd t c ∧ c.requester = some t))
  | .logWrite t w => inferInstanceAs (Decidable
      (s.phase t = .running ∧ s.MayWrite fd t w ∧ s.rows w.place = w.change.before))
  | .write t w => inferInstanceAs (Decidable (s.phase t = .writing w))
  | .abort t => inferInstanceAs (Decidable (s.phase t = .running ∨ s.phase t = .refused))
  | .rollback t w => inferInstanceAs (Decidable (s.phase t = .aborting ∧ (s.writeSet t).head? = some w))
  | .logRollback t w => inferInstanceAs (Decidable (s.phase t = .undone w))
  | .popBack t w => inferInstanceAs (Decidable (s.phase t = .compensated w))
  | .release t commits => inferInstanceAs (Decidable
      (if commits then s.phase t = .running else s.phase t = .aborting ∧ s.writeSet t = []))
  | .unlock t id => inferInstanceAs (Decidable
      ((s.phase t = .releasing true ∨ s.phase t = .releasing false) ∧ id ∈ (s.locks.txns t).lockSet))
  | .endRecord t commits => inferInstanceAs (Decidable (s.phase t = .releasing commits ∧
      ∀ id ∈ (s.locks.txns t).lockSet, ∀ q ∈ s.locks.lockTable id, q.txnId ≠ t))
  | .flushLog t commits => inferInstanceAs (Decidable (s.phase t = .logged commits))

instance : (a : TxnAction) → Decidable (s.InsertsApart fd a)
  | .logWrite t w => inferInstanceAs (Decidable
      (w.isInsert = true → ∀ q ∈ s.locks.lockTable (w.place.recordId fd), q.txnId = t))
  | .lock t c => inferInstanceAs (Decidable (∀ t' ∈ s.txnMap, t' ≠ t → ∀ w ∈ (s.phase t').inserting, ∀ q ∈ c.requests,
      q.1 ≠ w.place.recordId fd))
  | .begin _ => inferInstanceAs (Decidable True)
  | .write _ _ => inferInstanceAs (Decidable True)
  | .abort _ => inferInstanceAs (Decidable True)
  | .rollback _ _ => inferInstanceAs (Decidable True)
  | .logRollback _ _ => inferInstanceAs (Decidable True)
  | .popBack _ _ => inferInstanceAs (Decidable True)
  | .release _ _ => inferInstanceAs (Decidable True)
  | .unlock _ _ => inferInstanceAs (Decidable True)
  | .endRecord _ _ => inferInstanceAs (Decidable True)
  | .flushLog _ _ => inferInstanceAs (Decidable True)

/-- The actions one after the other. -/
def actAll (as : List TxnAction) : TxnSystem := as.foldl (act fd) s

/-- Each action is allowed, and `ok` lets it through. -/
def AllowsAll (ok : TxnSystem → TxnAction → Prop) (s : TxnSystem) : List TxnAction → Prop
  | [] => True
  | a :: as => (ok s a ∧ s.Allows fd a) ∧ (s.act fd a).AllowsAll ok as

instance decidableAllowsAll {ok : TxnSystem → TxnAction → Prop} [∀ s a, Decidable (ok s a)] (s : TxnSystem) :
    (as : List TxnAction) → Decidable (s.AllowsAll fd ok as)
  | [] => inferInstanceAs (Decidable True)
  | a :: as =>
    have : Decidable ((s.act fd a).AllowsAll fd ok as) := decidableAllowsAll (s.act fd a) as
    inferInstanceAs (Decidable ((ok s a ∧ s.Allows fd a) ∧ (s.act fd a).AllowsAll fd ok as))

end TxnSystem

/-- The descriptor of the only table. -/
def oneTable : List UInt8 → Int := fun _ => 3

/-- An insert at the first slot of the table `t`. -/
def insertAtFirst (record : RmRecord) : LoggedWrite Int := .insert record ⟨1, 0⟩ [116]

-- ---------------------------------------------------------------------------
-- What an action does
-- ---------------------------------------------------------------------------

variable {fd : List UInt8 → Int} {ok : TxnSystem → TxnAction → Prop} {s s' : TxnSystem} {t : TxnId} {a : TxnAction}
  {x : Place} {w : LoggedWrite Int}

/-- What every action keeps, every run keeps. -/
theorem TxnSteps.inv {I : TxnSystem → Prop} (hrun : TxnSteps fd ok s s') (hs : I s)
    (hact : ∀ s a, I s → ok s a → s.Allows fd a → I (s.act fd a)) : I s' := by
  induction hrun with
  | refl => exact hs
  | tail _ hstep ih =>
    obtain ⟨a, hok, hallows, rfl⟩ := hstep
    exact hact _ a ih hok hallows

theorem TxnSteps.of_actions {as : List TxnAction} (h : s.AllowsAll fd ok as) : TxnSteps fd ok s (s.actAll fd as) := by
  induction as generalizing s with
  | nil => exact .refl
  | cons a as ih =>
    obtain ⟨⟨hok, ha⟩, has⟩ := h
    exact .head ⟨a, hok, ha, rfl⟩ (ih has)

namespace TxnAction

def txn : TxnAction → TxnId
  | begin t => t
  | lock t _ => t
  | logWrite t _ => t
  | write t _ => t
  | abort t => t
  | rollback t _ => t
  | logRollback t _ => t
  | popBack t _ => t
  | release t _ => t
  | unlock t _ => t
  | endRecord t _ => t
  | flushLog t _ => t

/-- What an action logs. -/
def call : TxnAction → Option (GenLog Int)
  | begin t => some (.begin t)
  | logWrite t w => some (.fromWriteSet t w)
  | logRollback t w => some (.clr t w)
  | endRecord t commits => some (if commits then .commit t else .abort t)
  | _ => none

theorem tid_of_call {call : GenLog Int} (h : a.call = some call) : call.tid = a.txn := by
  cases a with
  | begin t | logWrite t w | logRollback t w =>
    cases h
    rfl
  | endRecord t commits =>
    cases h
    cases commits with
    | true => rfl
    | false => rfl
  | lock t c | write t w | abort t | rollback t w | popBack t w | release t commits | unlock t id
  | flushLog t commits => cases h

end TxnAction

/-- What an action does to the phase of its transaction. -/
inductive TxnPhase.Step : TxnPhase → TxnAction → TxnPhase → Prop where
  | begin (t : TxnId) : Step .fresh (.begin t) .running
  | lock (t : TxnId) (c : LockCall) : Step .running (.lock t c) .running
  | granted (t : TxnId) (c : LockCall) (w : LoggedWrite Int) : Step (.inserted w) (.lock t c) .running
  | refused (t : TxnId) (c : LockCall) (w : LoggedWrite Int) : Step (.inserted w) (.lock t c) .refused
  | logWrite (t : TxnId) (w : LoggedWrite Int) : Step .running (.logWrite t w) (.writing w)
  | insert (t : TxnId) (w : LoggedWrite Int) : w.isInsert = true → Step (.writing w) (.write t w) (.inserted w)
  | change (t : TxnId) (w : LoggedWrite Int) : w.isInsert = false → Step (.writing w) (.write t w) .running
  | abort (t : TxnId) : Step .running (.abort t) .aborting
  | abortRefused (t : TxnId) : Step .refused (.abort t) .aborting
  | rollback (t : TxnId) (w : LoggedWrite Int) : Step .aborting (.rollback t w) (.undone w)
  | logRollback (t : TxnId) (w : LoggedWrite Int) : Step (.undone w) (.logRollback t w) (.compensated w)
  | popBack (t : TxnId) (w : LoggedWrite Int) : Step (.compensated w) (.popBack t w) .aborting
  | commit (t : TxnId) : Step .running (.release t true) (.releasing true)
  | rolledBack (t : TxnId) : Step .aborting (.release t false) (.releasing false)
  | unlock (t : TxnId) (id : LockDataId) (commits : Bool) :
    Step (.releasing commits) (.unlock t id) (.releasing commits)
  | endRecord (t : TxnId) (commits : Bool) : Step (.releasing commits) (.endRecord t commits) (.logged commits)
  | flushLog (t : TxnId) (commits : Bool) : Step (.logged commits) (.flushLog t commits) (.ended commits)

namespace TxnPhase

/-- The transaction runs statements. -/
def Forward : TxnPhase → Prop
  | running => True
  | writing _ => True
  | inserted _ => True
  | refused => True
  | _ => False

/-- It takes its writes back. -/
def Back : TxnPhase → Prop
  | aborting => True
  | undone _ => True
  | compensated _ => True
  | _ => False

/-- It has not come to `release_locks`. -/
def Active (p : TxnPhase) : Prop := p.Forward ∨ p.Back

/-- It has come to `release_locks`. -/
def Finished (commits : Bool) (p : TxnPhase) : Prop := p = .releasing commits ∨ p = .logged commits ∨ p = .ended commits

variable {p p' : TxnPhase} {commits : Bool}

theorem Active.not_finished (h : p.Active) : ¬ p.Finished commits := by
  rintro (rfl | rfl | rfl)
  all_goals exact h.elim id id

theorem active_of_inserting (h : p.inserting = some w) : p.Active := by
  cases p with
  | writing w | inserted w => exact .inl trivial
  | fresh | running | refused | aborting | undone w | compensated w | releasing commits | logged commits
  | ended commits | past => cases h

theorem Step.ne_fresh (h : Step p a p') : p' ≠ .fresh := by
  cases h <;> simp

theorem Step.active (h : Step p a p') (hactive : p'.Active) : p.Active ∨ (p = .fresh ∧ a = .begin a.txn) := by
  cases h with
  | begin t => exact .inr ⟨rfl, rfl⟩
  | lock t c | granted t c w | refused t c w | logWrite t w | insert t w | change t w | abort t | abortRefused t =>
    exact .inl (.inl trivial)
  | rollback t w | logRollback t w | popBack t w => exact .inl (.inr trivial)
  | commit t | rolledBack t | unlock t id commits | endRecord t commits | flushLog t commits =>
    exact hactive.elim False.elim False.elim

theorem Step.forward (h : Step p a p') (hforward : p'.Forward) : p.Forward ∨ p = .fresh := by
  cases h with
  | begin t => exact .inr rfl
  | lock t c | granted t c w | refused t c w | logWrite t w | insert t w | change t w => exact .inl trivial
  | abort t | abortRefused t | rollback t w | logRollback t w | popBack t w | commit t | rolledBack t
  | unlock t id commits | endRecord t commits | flushLog t commits => exact hforward.elim

theorem Finished.step (h : p.Finished commits) (hstep : Step p a p') : p'.Finished commits := by
  rcases h with rfl | rfl | rfl
  · cases hstep with
    | unlock t id commits => exact .inl rfl
    | endRecord t commits => exact .inr (.inl rfl)
  · cases hstep
    exact .inr (.inr rfl)
  · cases hstep

end TxnPhase

namespace TxnSystem

theorem act_log : (s.act fd a).log =
    s.log ++ (a.call.map fun call => call.record s.globalLsn (s.soFarLsn call.tid)).toList := by
  cases a with
  | begin t | logWrite t w | logRollback t w | endRecord t commits => rfl
  | lock t c | write t w | abort t | rollback t w | popBack t w | release t commits | unlock t id
  | flushLog t commits => exact (List.append_nil _).symm

theorem act_phase_of_ne (h : t ≠ a.txn) : (s.act fd a).phase t = s.phase t := by
  cases a with
  | begin t' | lock t' c | logWrite t' w | write t' w | abort t' | rollback t' w | logRollback t' w | popBack t' w
  | release t' commits | endRecord t' commits | flushLog t' commits => exact Function.update_of_ne h _ _
  | unlock t' id => rfl

theorem act_writeSet_of_ne (h : t ≠ a.txn) : (s.act fd a).writeSet t = s.writeSet t := by
  cases a with
  | logWrite t' w | popBack t' w | endRecord t' commits => exact Function.update_of_ne h _ _
  | begin t' | lock t' c | write t' w | abort t' | rollback t' w | logRollback t' w | release t' commits
  | unlock t' id | flushLog t' commits => rfl

theorem Allows.step (h : s.Allows fd a) : TxnPhase.Step (s.phase a.txn) a ((s.act fd a).phase a.txn) := by
  have hset {t : TxnId} {p p' : TxnPhase} {a : TxnAction} (hphase : s.phase t = p) (hstep : TxnPhase.Step p a p') :
      TxnPhase.Step (s.phase t) a (Function.update s.phase t p' t) := by
    rw [Function.update_self, hphase]
    exact hstep
  cases a with
  | begin t => exact hset h (.begin t)
  | lock t c =>
    show TxnPhase.Step (s.phase t) _ (Function.update s.phase t (s.afterLock fd t) t)
    rw [Function.update_self, afterLock]
    have hask := h.1
    cases hphase : s.phase t with
    | running => exact .lock t c
    | inserted w =>
      dsimp only
      split
      · exact .granted t c w
      · exact .refused t c w
    | fresh | writing w | refused | aborting | undone w | compensated w | releasing commits | logged commits
    | ended commits | past =>
      rw [hphase] at hask
      exact hask.elim
  | logWrite t w => exact hset h.1 (.logWrite t w)
  | write t w =>
    cases hinsert : w.isInsert with
    | true =>
      refine hset h ?_
      rw [hinsert]
      exact .insert t w hinsert
    | false =>
      refine hset h ?_
      rw [hinsert]
      exact .change t w hinsert
  | abort t =>
    rcases h with h | h
    · exact hset h (.abort t)
    · exact hset h (.abortRefused t)
  | rollback t w => exact hset h.1 (.rollback t w)
  | logRollback t w => exact hset h (.logRollback t w)
  | popBack t w => exact hset h (.popBack t w)
  | release t commits =>
    cases commits with
    | true => exact hset h (.commit t)
    | false => exact hset h.1 (.rolledBack t)
  | unlock t id =>
    show TxnPhase.Step (s.phase t) _ (s.phase t)
    rcases h.1 with hphase | hphase
    · rw [hphase]
      exact .unlock t id true
    · rw [hphase]
      exact .unlock t id false
  | endRecord t commits => exact hset h.1 (.endRecord t commits)
  | flushLog t commits => exact hset h (.flushLog t commits)

theorem act_finished {commits : Bool} (ha : s.Allows fd a) (h : (s.phase t).Finished commits) :
    ((s.act fd a).phase t).Finished commits := by
  by_cases ht : t = a.txn
  · subst ht
    exact h.step ha.step
  · rwa [act_phase_of_ne ht]

/-- Behind an insert comes the request for its lock. -/
theorem Allows.of_inserted (ha : s.Allows fd a) (h : s.phase a.txn = .inserted w) :
    a = .lock a.txn (w.lockCall fd a.txn) := by
  have hstep := ha.step
  rw [h] at hstep
  generalize (s.act fd a).phase a.txn = p at hstep
  cases hstep with
  | granted t c | refused t c =>
    have hask := ha.1
    rw [show s.phase t = .inserted w from h] at hask
    exact congrArg (TxnAction.lock t) hask

/-- An active transaction has been active, or it has begun. -/
theorem active_before (ha : s.Allows fd a) (h : ((s.act fd a).phase t).Active) :
    (s.phase t).Active ∨ (s.phase t = .fresh ∧ a = .begin t) := by
  by_cases ht : t = a.txn
  · subst ht
    exact ha.step.active h
  · rw [act_phase_of_ne ht] at h
    exact .inl h

end TxnSystem

-- ---------------------------------------------------------------------------
-- The locks
-- ---------------------------------------------------------------------------

/-- The lock manager is in order: there are no orphans, and its locks are compatible. -/
structure LockState.InOrder (s : LockState) : Prop where
  covered : s.Covered
  ok : s.lockTable.Ok

namespace LockState.InOrder

variable {l : LockState}

theorem init : LockState.init.InOrder := ⟨.init, LockState.init_ok⟩

theorem call (h : l.InOrder) (c : LockCall) : (l.call c).InOrder := ⟨h.covered.call c, LockState.call_ok c h.ok⟩

theorem releaseLocks (h : l.InOrder) : (l.releaseLocks t).InOrder :=
  ⟨h.covered.releaseLocks t, h.ok.mono fun _ _ hq => ((mem_releaseLocks h.covered).mp hq).1⟩

end LockState.InOrder

namespace TxnSystem

theorem locks_inOrder (h : s.locks.InOrder) : (s.act fd a).locks.InOrder := by
  cases a with
  | lock t c => exact h.call c
  | abort t => exact h.call (.setState t .aborted)
  | release t commits =>
    cases commits with
    | true => exact h.call (.setState t .committed)
    | false => exact h
  | unlock t id => exact h.call (.unlock t id)
  | endRecord t commits => exact h.releaseLocks
  | begin t | logWrite t w | write t w | rollback t w | logRollback t w | popBack t w | flushLog t commits => exact h

/-- Until it comes to `release_locks`, a transaction keeps its locks. -/
theorem lock_kept (h : s.locks.InOrder) (ha : s.Allows fd a) {id : LockDataId} {q : LockRequest}
    (hq : q ∈ s.locks.lockTable id) (hactive : (s.phase q.txnId).Active) : q ∈ (s.act fd a).locks.lockTable id := by
  have hne {t : TxnId} {commits : Bool} (hphase : s.phase t = .releasing commits) : q.txnId ≠ t := by
    rintro rfl
    exact hactive.not_finished (.inl hphase)
  cases a with
  | lock t c => exact LockState.call_grows ha.2 hq
  | unlock t id' =>
    refine (LockState.mem_unlock h.covered).mpr ⟨hq, fun _ => ?_⟩
    rcases ha.1 with hphase | hphase
    · exact hne hphase
    · exact hne hphase
  | endRecord t commits => exact (LockState.mem_releaseLocks h.covered).mpr ⟨hq, hne ha.1⟩
  | release t commits =>
    cases commits with
    | true => exact hq
    | false => exact hq
  | begin t | logWrite t w | write t w | abort t | rollback t w | logRollback t w | popBack t w
  | flushLog t commits => exact hq

/-- A new lock was asked for. -/
theorem lock_new (h : s.locks.InOrder) (ha : s.Allows fd a) {id : LockDataId} {q : LockRequest}
    (hq : q ∈ (s.act fd a).locks.lockTable id) :
    q ∈ s.locks.lockTable id ∨ ∃ c, a = .lock q.txnId c ∧ (id, q.lockMode) ∈ c.requests := by
  cases a with
  | lock t c =>
    rcases LockState.call_new h.covered ha.2 hq with hold | rfl
    · exact .inl hold
    · exact (LockState.call_requests ha.2 hq).imp_right fun hnew => ⟨c, rfl, hnew⟩
  | unlock t id' => exact .inl ((LockState.mem_unlock h.covered).mp hq).1
  | endRecord t commits => exact .inl ((LockState.mem_releaseLocks h.covered).mp hq).1
  | release t commits =>
    cases commits with
    | true => exact .inl hq
    | false => exact .inl hq
  | begin t | logWrite t w | write t w | abort t | rollback t w | logRollback t w | popBack t w
  | flushLog t commits => exact .inl hq

theorem HoldsX.act (hx : s.HoldsX fd t x) (h : s.locks.InOrder) (ha : s.Allows fd a) (hactive : (s.phase t).Active) :
    (s.act fd a).HoldsX fd t x :=
  hx.mono fun _ _ hq htid => lock_kept h ha hq (htid.symm ▸ hactive)

end TxnSystem

-- ---------------------------------------------------------------------------
-- One row
-- ---------------------------------------------------------------------------

namespace LoggedWrite

theorem apply_at (rows : TableRows) : w.apply rows x = if w.place = x then w.change.after else rows x := by
  cases w <;> exact (Function.update_apply _ _ _ _).trans (if_congr eq_comm rfl rfl)

theorem rollback_at (rows : TableRows) : w.rollback rows x = if w.place = x then w.change.before else rows x := by
  cases w <;> exact (Function.update_apply _ _ _ _).trans (if_congr eq_comm rfl rfl)

end LoggedWrite

theorem changesAt_cons {ws : List (LoggedWrite Int)} :
    changesAt x (w :: ws) = if w.place = x then w.change :: changesAt x ws else changesAt x ws := by
  unfold changesAt
  by_cases hx : w.place = x
  · rw [if_pos hx, List.filter_cons_of_pos (by simpa using hx)]
    rfl
  · rw [if_neg hx, List.filter_cons_of_neg (by simpa using hx)]

namespace GenLog

/-- The entry for a row that a call logs. -/
def entryAt (x : Place) : GenLog Int → Option (Entry Int RmRecord)
  | fromWriteSet tid w => if w.place = x then some (.change tid w.change) else none
  | clr tid w => if w.place = x then some (.back tid w.change) else none
  | _ => none

variable {call : GenLog Int} {lsn prevLsn : Int}

theorem record_logTid : (call.record lsn prevLsn).logTid = call.tid := by
  cases call with
  | begin tid | commit tid | abort tid => rfl
  | fromWriteSet tid w | clr tid w => cases w <;> rfl

theorem record_entryAt : (call.record lsn prevLsn).entryAt x = call.entryAt x := by
  cases call with
  | begin tid | commit tid | abort tid => rfl
  | fromWriteSet tid w | clr tid w => cases w <;> rfl

theorem entriesAt_record : entriesAt x [call.record lsn prevLsn] = (call.entryAt x).toList := by
  rw [entriesAt_cons, record_entryAt]
  exact List.append_nil _

end GenLog

theorem TxnSystem.act_entriesAt : entriesAt x (s.act fd a).log =
    entriesAt x s.log ++ (a.call.bind (·.entryAt x)).toList := by
  rw [act_log, entriesAt_append]
  cases a.call with
  | none => rfl
  | some call => exact congrArg _ GenLog.entriesAt_record

-- ---------------------------------------------------------------------------
-- A new process
-- ---------------------------------------------------------------------------

namespace TxnSystem

variable {log : List (LogRecord Int)}

theorem foldl_genLog {β : Type} (f : TxnSystem → β) (h : ∀ s call, f (genLog s call) = f s)
    (calls : List (GenLog Int)) : f (calls.foldl genLog s) = f s := by
  induction calls generalizing s with
  | nil => rfl
  | cons call calls ih => exact ih.trans (h s call)

theorem restart_rows : (restart log).rows = (RecoveryManager.recover log).1.rows :=
  foldl_genLog (·.rows) (fun _ _ => rfl) _

theorem restart_onDisk : (restart log).onDisk = log.length := foldl_genLog (·.onDisk) (fun _ _ => rfl) _

theorem restart_locks : (restart log).locks = .init := foldl_genLog (·.locks) (fun _ _ => rfl) _

theorem restart_phase : (restart log).phase = (recovered log).phase :=
  foldl_genLog (·.phase) (fun _ _ => rfl) _

theorem restart_writeSet : (restart log).writeSet = fun _ => [] := foldl_genLog (·.writeSet) (fun _ _ => rfl) _

theorem restart_fresh_or_past : (restart log).phase t = .fresh ∨ (restart log).phase t = .past := by
  rw [restart_phase]
  show (if _ then TxnPhase.past else .fresh) = .fresh ∨ (if _ then TxnPhase.past else .fresh) = .past
  split
  · exact .inr rfl
  · exact .inl rfl

end TxnSystem

end Rmdb
