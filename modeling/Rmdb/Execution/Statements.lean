-- SUMMARY: `SELECT`, `INSERT`, `UPDATE` and `DELETE` of several transactions, step by step.
import Rmdb.Execution.Inserts
import Rmdb.Lib.Program

/-!
# Statements of several transactions

The executors that change tables, and the rollback, as programs over lock requests and operations
on records and index entries. Between any two of these other transactions can run.

The scans are simpler: `beginTuple` asks for the S lock of the table and from then on the scan
reads. What it finds, in which order it goes through the pages or the entries, and when the
executors above it call it, is left open: any page, entry or record of its table may come next.

`touched` is what a transaction has written in records and index entries since it began. The
code does not keep it.
-/

namespace Rmdb

-- ---------------------------------------------------------------------------
-- Operations
-- ---------------------------------------------------------------------------

/-- What the executors know of a table: its file, the columns and the number of its indexes. -/
structure Tab where
  fd : Int
  cols : List ColMeta
  indexCount : Nat

def Tab.indexes (tab : Tab) : List Nat := List.range tab.indexCount

/-- The lock requests of the executors that change tables. -/
inductive LockOp where
  | ixOnTable
  | exclusiveOnTable
  | exclusiveOnRecord (rid : Rid)

open LockManager in
def LockOp.request : LockOp → LockTable → Transaction → Int → LockOutcome
  | ixOnTable, lt, txn, fd => lockIXOnTable lt txn fd
  | exclusiveOnTable, lt, txn, fd => lockExclusiveOnTable lt txn fd
  | exclusiveOnRecord rid, lt, txn, fd => lockExclusiveOnRecord lt txn rid fd

/-- The operations on the records and on the index entries of a table. -/
inductive TableOp where
  | getRecord (rid : Rid)
  | insertRecord (r : RmRecord)
  | insertRecordAt (fuel : Nat) (rid : Rid) (r : RmRecord)
  | deleteRecord (rid : Rid)
  | updateRecord (rid : Rid) (r : RmRecord)
  | isExist (i : Nat) (r : RmRecord)
  | insertEntry (i : Nat) (r : RmRecord) (rid : Rid)
  | deleteEntry (i : Nat) (r : RmRecord)

namespace TableOp

/-- What the operation returns. -/
abbrev Val : TableOp → Type
  | getRecord _ => RmRecord
  | insertRecord _ => Rid
  | isExist _ _ => Bool
  | _ => Unit

/-- An operation of the record file. -/
def onFile {α : Type} (t : Table) : Except RmError (α × RmFileHandle) → Except DbError (α × Table)
  | .ok (a, file) => .ok (a, { t with file := file })
  | .error _ => .error .failed

/-- An operation of index `i`. -/
def onIndex {α : Type} (t : Table) (i : Nat) (f : Index → Except IxError (α × Index)) :
    Except DbError (α × Table) :=
  match t.indexes[i]? with
  | none => .error .failed
  | some ix =>
    match f ix with
    | .ok (a, ix) => .ok (a, { t with indexes := t.indexes.set i ix })
    | .error e => .error e.toDbError

def exec (t : Table) : (o : TableOp) → Except DbError (o.Val × Table)
  | getRecord rid => onFile t ((t.file.getRecord rid).map (·, t.file))
  | insertRecord r => onFile t (t.file.insertRecord r)
  | insertRecordAt fuel rid r => onFile t ((t.file.insertRecordAt fuel rid r).map ((), ·))
  | deleteRecord rid => onFile t ((t.file.deleteRecord rid).map ((), ·))
  | updateRecord rid r => onFile t ((t.file.updateRecord rid r).map ((), ·))
  | isExist i r => onIndex t i fun ix => (ix.isExist r).map (·, ix)
  | insertEntry i r rid => onIndex t i fun ix => (ix.insertEntry r rid).map ((), ·)
  | deleteEntry i r => onIndex t i fun ix => (ix.deleteEntry r).map ((), ·)

end TableOp

/-- What an executor asks for. -/
inductive StmtOp where
  | lock (fd : Int) (o : LockOp)
  | appendWriteRecord (tab : Tab) (w : WriteRecord)
  | onTable (fd : Int) (o : TableOp)

abbrev StmtOp.Val : StmtOp → Type
  | lock _ _ => Bool
  | appendWriteRecord _ _ => Unit
  | onTable _ o => o.Val

abbrev StmtProg := Prog StmtOp StmtOp.Val DbError

-- ---------------------------------------------------------------------------
-- The executors
-- ---------------------------------------------------------------------------

namespace StmtProg

open Prog

/-- A lock that is refused ends the statement. -/
def lock (fd : Int) (o : LockOp) : StmtProg Unit := do
  let granted ← op (StmtOp.lock fd o)
  if granted then Prog.pure () else throw .transactionAbort

variable (tab : Tab)

def appendWriteRecord (w : WriteRecord) : StmtProg Unit := op (StmtOp.appendWriteRecord tab w)

def onTable (o : TableOp) : StmtProg o.Val := op (StmtOp.onTable tab.fd o)

def getRecord (rid : Rid) : StmtProg RmRecord := onTable tab (.getRecord rid)

/-- `insert_record`, which also appends to the write set. -/
def insertRecord (r : RmRecord) : StmtProg Rid := do
  let rid ← onTable tab (.insertRecord r)
  appendWriteRecord tab (.insertTuple rid r)
  return rid

def insertRecordAt (fuel : Nat) (rid : Rid) (r : RmRecord) : StmtProg Unit :=
  onTable tab (.insertRecordAt fuel rid r)

def deleteRecord (rid : Rid) : StmtProg Unit := onTable tab (.deleteRecord rid)

def updateRecord (rid : Rid) (r : RmRecord) : StmtProg Unit :=
  onTable tab (.updateRecord rid r)

def deleteEntry (r : RmRecord) (i : Nat) : StmtProg Unit := onTable tab (.deleteEntry i r)

def insertEntry (r : RmRecord) (rid : Rid) (i : Nat) : StmtProg Unit :=
  onTable tab (.insertEntry i r rid)

def deleteEntries (r : RmRecord) : StmtProg Unit := each (deleteEntry tab r) tab.indexes

def insertEntries (r : RmRecord) (rid : Rid) : StmtProg Unit :=
  each (insertEntry tab r rid) tab.indexes

/-- One turn of the uniqueness check. -/
def checkKey (r : RmRecord) (i : Nat) : StmtProg Unit := do
  let exist ← onTable tab (.isExist i r)
  if exist then throw .indexEntryNotUnique else Prog.pure ()

/-- `InsertExecutor`. -/
def insertNext (values : List Value) (buffer : RmRecord) : StmtProg Unit :=
  if values.length ≠ tab.cols.length then throw .invalidValueCount
  else do
    let r ← ofExcept (makeRecord tab.cols values buffer)
    each (checkKey tab r) tab.indexes
    lock tab.fd .ixOnTable
    let rid ← insertRecord tab r
    lock tab.fd (.exclusiveOnRecord rid)
    insertEntries tab r rid

/-- One turn of the loop of `DeleteExecutor::Next`. -/
def deleteRow (conds : List Condition) (rid : Rid) : StmtProg Unit := do
  let record ← getRecord tab rid
  match testRecord conds tab.cols record with
  | none => throw .columnNotFound
  | some false => Prog.pure ()
  | some true => do
    appendWriteRecord tab (.deleteTuple rid record)
    deleteRecord tab rid
    deleteEntries tab record

/-- `DeleteExecutor`. -/
def deleteNext (conds : List Condition) (rids : List Rid) : StmtProg Unit := do
  lock tab.fd .exclusiveOnTable
  each (deleteRow tab conds) rids

/-- The first loop of `UpdateExecutor::Next`. -/
def removeOldKeys : List Rid → StmtProg (List (Rid × RmRecord))
  | [] => Prog.pure []
  | rid :: rids => do
    lock tab.fd (.exclusiveOnRecord rid)
    let record ← getRecord tab rid
    deleteEntries tab record
    let rows ← removeOldKeys rids
    return (rid, record) :: rows

/-- The handler of `IndexEntryNotUniqueError`. `done` are the indexes that have the key of the row
that failed, `news` the new records of the rows before it. -/
def restoreKeys (rows : List (Rid × RmRecord)) (news : List RmRecord) (newRecord : RmRecord)
    (done : List Nat) : StmtProg Unit := do
  each (deleteEntry tab newRecord) done
  each (deleteEntries tab) news
  each (fun row => insertEntries tab row.2 row.1) rows
  throw .indexEntryNotUnique

/-- The loop over the indexes inside the `try`. -/
def tryInsertEntries (r : RmRecord) (rid : Rid) (handler : List Nat → StmtProg Unit) :
    List Nat → List Nat → StmtProg Unit
  | _, [] => Prog.pure ()
  | done, i :: rest => call (.onTable tab.fd (.insertEntry i r rid)) fun
    | .ok _ => tryInsertEntries r rid handler (done ++ [i]) rest
    | .error .indexEntryNotUnique => handler done
    | .error e => throw e

/-- The second loop: compute the new records and insert their keys. `todo` are the rows that are
left of `rows`, and `news` the new records of the others. -/
def insertNewKeys (clauses : List SetClause) (rows : List (Rid × RmRecord)) :
    List (Rid × RmRecord) → List RmRecord → StmtProg (List RmRecord)
  | [], news => Prog.pure news
  | (rid, record) :: todo, news => do
    let newRecord ← ofExcept (applySetClauses tab.cols clauses record)
    tryInsertEntries tab newRecord rid (restoreKeys tab rows news newRecord) [] tab.indexes
    insertNewKeys clauses rows todo (news ++ [newRecord])

/-- One turn of the third loop. -/
def writeRow (row : (Rid × RmRecord) × RmRecord) : StmtProg Unit := do
  appendWriteRecord tab (.updateTuple row.1.1 row.1.2 row.2)
  updateRecord tab row.1.1 row.2

/-- `UpdateExecutor::Next`. -/
def updateNext (clauses : List SetClause) (rids : List Rid) : StmtProg Unit := do
  let rows ← removeOldKeys tab rids
  let news ← insertNewKeys tab clauses rows rows []
  each (writeRow tab) (rows.zip news)

/-- `rollback_insert`, `rollback_delete` and `rollback_update`. -/
def rollback (fuel : Nat) : Tab × WriteRecord → StmtProg Unit
  | (tab, .insertTuple rid _) => do
    let record ← getRecord tab rid
    deleteEntries tab record
    deleteRecord tab rid
  | (tab, .deleteTuple rid record) => do
    insertEntries tab record rid
    insertRecordAt tab fuel rid record
  | (tab, .updateTuple rid record _) => do
    let current ← getRecord tab rid
    deleteEntries tab current
    insertRecordAt tab fuel rid record
    insertEntries tab record rid

end StmtProg

-- ---------------------------------------------------------------------------
-- Scans
-- ---------------------------------------------------------------------------

/-- A record or an index entry. -/
inductive Item where
  | record (fd : Int) (rid : Rid)
  | entry (fd : Int) (i : Nat) (key : List UInt8)
  deriving DecidableEq, Repr

def Item.fd : Item → Int
  | record fd _ => fd
  | entry fd _ _ => fd

/-- A `SeqScanExecutor`, or an `IndexScanExecutor` with its index. `begun` says that `beginTuple`
has its lock. -/
structure Scan where
  fd : Int
  index : Option Nat
  begun : Bool

/-- The step that a scan takes next. -/
inductive ScanStep where
  /-- The slots of a page. -/
  | page (p : PageNo)
  /-- The index: a bound, or the entry that comes next. -/
  | index
  /-- `get_record`. -/
  | record (rid : Rid)

/-- What the step looks at. A step over the index may look at any entry. -/
def Scan.reads (scan : Scan) : ScanStep → Item → Prop
  | .page p, .record fd rid => fd = scan.fd ∧ rid.pageNo = p
  | .index, .entry fd i _ => fd = scan.fd ∧ scan.index = some i
  | .record rid, .record fd rid' => fd = scan.fd ∧ rid' = rid
  | _, _ => False

-- ---------------------------------------------------------------------------
-- Transactions
-- ---------------------------------------------------------------------------

/-- Where a transaction is. -/
inductive StmtPc where
  /-- Between two statements. -/
  | idle
  /-- The scans of a query are at work. For `UPDATE` and `DELETE` the portal then gives the rids to
  the executor. -/
  | query (scans : List Scan) (next : Option (List Rid → StmtProg Unit))
  | running (p : StmtProg Unit)
  /-- The loop of `abort`. -/
  | aborting (p : StmtProg Unit)
  | ended

/-- What a transaction does next: its client sends something, or it goes on. -/
inductive StmtAct where
  | select (scans : List (Int × Option Nat))
  | insert (tab : Tab) (values : List Value) (buffer : RmRecord)
  | update (tab : Tab) (index : Option Nat) (clauses : List SetClause)
  | delete (tab : Tab) (index : Option Nat) (conds : List Condition)
  | commit
  | abort
  /-- The executors above call `beginTuple` of a scan. -/
  | beginTuple (k : Nat)
  /-- A scan goes on. -/
  | scan (k : Nat) (step : ScanStep)
  /-- The query is done, with these rids. -/
  | done (rids : List Rid)
  /-- The query throws. -/
  | fail (e : DbError)
  | resume

/-- The tables by file, the lock manager, and for each transaction where it is, its write set with
the last record first, and what it has touched. `fuel` is how long the loop of
`insert_record(rid, buf)` is followed. -/
structure Db where
  tables : Int → Table
  fuel : Nat
  locks : LockState
  pc : TxnId → StmtPc
  writeSet : TxnId → List (Tab × WriteRecord)
  touched : TxnId → List Item

/-- The entry of index `i` with the key of the record. -/
def Table.entryOf (t : Table) (fd : Int) (i : Nat) (r : RmRecord) : List Item :=
  (t.indexes[i]?.map fun ix => Item.entry fd i (keyBytes ix.cols r)).toList

/-- What an operation that succeeds with this result has changed. -/
def TableOp.writes (t : Table) (fd : Int) : (o : TableOp) → o.Val → List Item
  | getRecord _, _ | isExist _ _, _ => []
  | insertRecord _, rid => [.record fd rid]
  | insertRecordAt _ rid _, _ | deleteRecord rid, _ | updateRecord rid _, _ => [.record fd rid]
  | insertEntry i r _, _ | deleteEntry i r, _ => t.entryOf fd i r

namespace Db

variable (s : Db) (t : TxnId)

/-- No transaction has done anything yet. -/
def start (tables : Int → Table) (fuel : Nat) : Db where
  tables := tables
  fuel := fuel
  locks := LockState.init
  pc := fun _ => .idle
  writeSet := fun _ => []
  touched := fun _ => []

def goTo (c : StmtPc) : Db := { s with pc := Function.update s.pc t c }

/-- `abort` begins. -/
def toAbort : Db :=
  { s.goTo t (.aborting (Prog.each (StmtProg.rollback s.fuel) (s.writeSet t))) with
    locks := s.locks.call (.setState t .aborted) }

/-- The end of `commit` and of `abort`. -/
def finish : Db :=
  { s.goTo t .ended with
    locks := s.locks.releaseLocks t
    writeSet := Function.update s.writeSet t []
    touched := Function.update s.touched t [] }

/-- Carry an operation out. -/
def exec : (o : StmtOp) → Except DbError o.Val × Db
  | .lock fd o =>
    let out := o.request s.locks.lockTable (s.locks.txns t) fd
    (.ok out.granted, { s with locks := s.locks.after t out })
  | .appendWriteRecord tab w =>
    (.ok (), { s with writeSet := Function.update s.writeSet t ((tab, w) :: s.writeSet t) })
  | .onTable fd o =>
    match o.exec (s.tables fd) with
    | .ok (v, table) =>
      (.ok v, { s with
        tables := Function.update s.tables fd table
        touched := Function.update s.touched t (o.writes (s.tables fd) fd v ++ s.touched t) })
    | .error e => (.error e, s)

/-- The next step of an executor or of a rollback. -/
def resume : Option (Reported × Db) :=
  match s.pc t with
  | .running (.pure _) => some (.ok, s.goTo t .idle)
  | .running (.throw e) =>
    if e = .transactionAbort then some (.failed e, s.toAbort t) else some (.failed e, s.goTo t .idle)
  | .running (.call o k) => some (.nothing, (s.exec t o).2.goTo t (.running (k (s.exec t o).1)))
  | .aborting (.pure _) => some (.nothing, s.finish t)
  | .aborting (.call o k) => some (.nothing, (s.exec t o).2.goTo t (.aborting (k (s.exec t o).1)))
  | _ => none

/-- `beginTuple` of scan `k`: the lock on the table. -/
def beginTuple (k : Nat) : Option (Reported × Db) :=
  match s.pc t with
  | .query scans next =>
    match scans[k]? with
    | some scan =>
      let out := LockManager.lockSharedOnTable s.locks.lockTable (s.locks.txns t) scan.fd
      let s := { s with locks := s.locks.after t out }
      if out.granted then
        some (.nothing, s.goTo t (.query (scans.set k { scan with begun := true }) next))
      else some (.failed .transactionAbort, s.toAbort t)
    | none => none
  | _ => none

/-- A step of transaction `t`, with what its client is told. -/
def step : StmtAct → Option (Reported × Db)
  | .select scans =>
    match s.pc t with
    | .idle => some (.nothing, s.goTo t (.query (scans.map fun x => ⟨x.1, x.2, false⟩) none))
    | _ => none
  | .insert tab values buffer =>
    match s.pc t with
    | .idle => some (.nothing, s.goTo t (.running (StmtProg.insertNext tab values buffer)))
    | _ => none
  | .update tab index clauses =>
    match s.pc t with
    | .idle =>
      some (.nothing, s.goTo t (.query [⟨tab.fd, index, false⟩] (some (StmtProg.updateNext tab clauses))))
    | _ => none
  | .delete tab index conds =>
    match s.pc t with
    | .idle =>
      some (.nothing, s.goTo t (.query [⟨tab.fd, index, false⟩] (some (StmtProg.deleteNext tab conds))))
    | _ => none
  | .commit =>
    match s.pc t with
    | .idle => some (.ok, { s with locks := s.locks.call (.setState t .committed) }.finish t)
    | _ => none
  | .abort =>
    match s.pc t with
    | .idle => some (.nothing, s.toAbort t)
    | _ => none
  | .beginTuple k => s.beginTuple t k
  | .scan k _ =>
    match s.pc t with
    | .query scans _ => if scans[k]?.any Scan.begun then some (.nothing, s) else none
    | _ => none
  | .done rids =>
    match s.pc t with
    | .query _ none => some (.ok, s.goTo t .idle)
    | .query _ (some next) => some (.nothing, s.goTo t (.running (next rids)))
    | _ => none
  | .fail e =>
    match s.pc t with
    | .query _ _ => some (.failed e, s.goTo t .idle)
    | _ => none
  | .resume => s.resume t

/-- The item is read by the step, through a scan or through the uniqueness check. -/
def Reads : StmtAct → Item → Prop
  | .scan k step, x => ∃ scans next scan, s.pc t = .query scans next ∧ scans[k]? = some scan ∧
      scan.begun = true ∧ scan.reads step x
  | .resume, x => ∃ fd i r k, s.pc t = .running (.call (.onTable fd (.isExist i r)) k) ∧
      x ∈ (s.tables fd).entryOf fd i r
  | _, _ => False

/-- The runs. -/
inductive Run (s₀ : Db) : Db → Prop
  | start : Run s₀ s₀
  | step {s s' : Db} {t : TxnId} {a : StmtAct} {report : Reported} :
      Run s₀ s → s.step t a = some (report, s') → Run s₀ s'

/-- A uniqueness check is only made where `lock_shared_on_table`, which the scans call first, would
be granted. -/
def Guarded : StmtAct → Prop
  | .resume => ∀ fd i r k, s.pc t = .running (.call (.onTable fd (.isExist i r)) k) →
      LockManager.refused (fun m => m == .IX || m == .SIX || m == .X)
        (s.locks.lockTable (.table fd)) t = false
  | _ => True

end Db

end Rmdb
