-- SUMMARY: `INSERT`s of several transactions on one table, cut at the lock requests and the index operations.
import Rmdb.Execution.Agreement
import Rmdb.Transaction.LockSet

/-!
# Concurrent inserts

`InsertExecutor::Next` as the steps between which other transactions can run: the uniqueness
check of each index, the IX lock, `insert_record`, the X lock on the new record and `insert_entry`
for each index. `client_handler` then lets the client go on, commit or abort: an
`IndexEntryNotUniqueError` is only reported, a `TransactionAbortException` rolls the transaction
back, with the steps of `rollback_insert` for every record of the write set.
-/

namespace Rmdb

-- ---------------------------------------------------------------------------
-- Transactions
-- ---------------------------------------------------------------------------

/-- Where a transaction is. -/
inductive InsertPc where
  /-- Between two statements. -/
  | idle
  /-- `is_exist` on index `i` is next, and after the last index the IX lock. Nothing of the record
  is in the table yet. -/
  | checking (r : RmRecord) (i : Nat)
  /-- `insert_record` is next. -/
  | granted (r : RmRecord)
  /-- The X lock on the new record is next. -/
  | placed (r : RmRecord) (rid : Rid)
  /-- `insert_entry` on index `i` is next. -/
  | entering (r : RmRecord) (rid : Rid) (i : Nat)
  /-- The loop of `abort`. -/
  | aborting
  /-- `rollback_insert`: `delete_entry` on index `i` is next, and after the last index
  `delete_record`. -/
  | undoing (rid : Rid) (r : RmRecord) (i : Nat)
  | ended
  deriving DecidableEq, Repr

/-- What a transaction does next: its client sends something, or it goes on. -/
inductive InsertAct where
  | insert (values : List Value) (buffer : RmRecord)
  | commit
  | abort
  | resume

/-- What the client is told after a step. -/
inductive Reported where
  | nothing
  | ok
  | failed (e : DbError)
  deriving DecidableEq, Repr

/-- One table, the lock manager, and for each transaction where it is and its write set, the last
record first. -/
structure Inserts where
  table : Table
  fd : Int
  locks : LockState
  pc : TxnId → InsertPc
  writeSet : TxnId → List (Rid × RmRecord)

namespace Inserts

variable (s : Inserts) (t : TxnId)

/-- No transaction has done anything yet. -/
def start (table : Table) (fd : Int) : Inserts where
  table := table
  fd := fd
  locks := LockState.init
  pc := fun _ => .idle
  writeSet := fun _ => []

def goTo (c : InsertPc) : Inserts := { s with pc := Function.update s.pc t c }

def setIndex (i : Nat) (ix : Index) : Inserts :=
  { s with table := { s.table with indexes := s.table.indexes.set i ix } }

/-- `abort` begins. -/
def toAbort : Inserts := { s.goTo t .aborting with locks := s.locks.call (.setState t .aborted) }

/-- The end of `commit` and of `abort`. -/
def finish : Inserts :=
  { s.goTo t .ended with
    locks := s.locks.releaseLocks t
    writeSet := Function.update s.writeSet t [] }

/-- A lock request: the transaction goes on where `c` says, or is rolled back. -/
def lock (o : LockOutcome) (c : InsertPc) : Reported × Inserts :=
  let s := { s with locks := s.locks.after t o }
  if o.granted then (.nothing, s.goTo t c) else (.failed .transactionAbort, s.toAbort t)

/-- The next step of the statement or of the rollback that the transaction is in. -/
def resume : Option (Reported × Inserts) :=
  match s.pc t with
  | .idle | .ended => none
  | .checking r i =>
    match s.table.indexes[i]? with
    | some ix =>
      match ix.isExist r with
      | .ok true => some (.failed .indexEntryNotUnique, s.goTo t .idle)
      | .ok false => some (.nothing, s.goTo t (.checking r (i + 1)))
      | .error e => some (.failed e.toDbError, s.goTo t .idle)
    | none =>
      let o := LockManager.lockIXOnTable s.locks.lockTable (s.locks.txns t) s.fd
      some (s.lock t o (.granted r))
  | .granted r =>
    match s.table.file.insertRecord r with
    | .ok (rid, file) =>
      some (.nothing, { s.goTo t (.placed r rid) with
        table := { s.table with file := file }
        writeSet := Function.update s.writeSet t ((rid, r) :: s.writeSet t) })
    | .error _ => none
  | .placed r rid =>
    let o := LockManager.lockExclusiveOnRecord s.locks.lockTable (s.locks.txns t) rid s.fd
    some (s.lock t o (.entering r rid 0))
  | .entering r rid i =>
    match s.table.indexes[i]? with
    | some ix =>
      match ix.insertEntry r rid with
      | .ok ix => some (.nothing, (s.setIndex i ix).goTo t (.entering r rid (i + 1)))
      | .error e => some (.failed e.toDbError, s.goTo t .idle)
    | none => some (.ok, s.goTo t .idle)
  | .aborting =>
    match s.writeSet t with
    | [] => some (.nothing, s.finish t)
    | (rid, _) :: _ =>
      match s.table.file.getRecord rid with
      | .ok r => some (.nothing, s.goTo t (.undoing rid r 0))
      | .error _ => none
  | .undoing rid r i =>
    match s.table.indexes[i]? with
    | some ix =>
      match ix.deleteEntry r with
      | .ok ix => some (.nothing, (s.setIndex i ix).goTo t (.undoing rid r (i + 1)))
      | .error _ => none
    | none =>
      match s.table.file.deleteRecord rid with
      | .ok file =>
        some (.nothing, { s.goTo t .aborting with
          table := { s.table with file := file }
          writeSet := Function.update s.writeSet t (s.writeSet t).tail })
      | .error _ => none

/-- A step of transaction `t`, with what its client is told. -/
def step : InsertAct → Option (Reported × Inserts)
  | .resume => s.resume t
  | .insert values buffer =>
    if s.pc t = .idle then
      if values.length ≠ s.table.cols.length then some (.failed .invalidValueCount, s)
      else match makeRecord s.table.cols values buffer with
        | .ok r => some (.nothing, s.goTo t (.checking r 0))
        | .error e => some (.failed e, s)
    else none
  | .commit =>
    if s.pc t = .idle then
      some (.ok, { s with locks := s.locks.call (.setState t .committed) }.finish t)
    else none
  | .abort => if s.pc t = .idle then some (.nothing, s.toAbort t) else none

-- ---------------------------------------------------------------------------
-- Runs
-- ---------------------------------------------------------------------------

/-- The record with which transaction `u` is between its check of index `i` and the entry of the
key, or whose key its rollback has still to take out. -/
def inFlight (u : TxnId) (i : Nat) : Option RmRecord :=
  match s.pc u with
  | .idle | .ended => none
  | .checking r j => if i < j then some r else none
  | .granted r | .placed r _ => some r
  | .entering r _ j | .undoing _ r j => if j ≤ i then some r else none
  | .aborting => (s.writeSet u).head?.map Prod.snd

/-- No check finds a key missing that another transaction has in flight. -/
def NoOverlap : InsertAct → Prop
  | .resume => ∀ r i ix, s.pc t = .checking r i → s.table.indexes[i]? = some ix →
      ix.isExist r = .ok false →
        ∀ u r', u ≠ t → s.inFlight u i = some r' → ix.key r' ≠ ix.key r
  | _ => True

/-- The runs whose steps are all `allowed`. -/
inductive Run (allowed : Inserts → TxnId → InsertAct → Prop) (s₀ : Inserts) : Inserts → Prop
  | start : Run allowed s₀ s₀
  | step {s s' : Inserts} {t : TxnId} {a : InsertAct} {report : Reported} :
      Run allowed s₀ s → allowed s t a → s.step t a = some (report, s') → Run allowed s₀ s'

/-- Nobody is in the middle of a statement or of a rollback. -/
def Quiet : Prop := ∀ t, s.pc t = .idle ∨ s.pc t = .ended

end Inserts

end Rmdb
