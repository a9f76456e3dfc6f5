-- SUMMARY: `InsertExecutor`, `DeleteExecutor` and `UpdateExecutor` on a table and the write set of its transaction.
import Rmdb.Execution.Table
import Rmdb.Lib.Run

/-!
# The executors that change a table

`Next` of the three executors. They run in a monad that keeps the state when it throws, as
the source does: what was changed before an exception stays changed.

Locks are decided elsewhere; an executor only sees whether its requests are granted, so
these answers are arguments. So are the rids that the portal collects from a scan of the
table before it builds a `DeleteExecutor` or an `UpdateExecutor`.
-/

namespace Rmdb

/-- `WriteRecord`. -/
inductive WriteRecord where
  | insertTuple (rid : Rid) (record : RmRecord)
  | deleteTuple (rid : Rid) (record : RmRecord)
  | updateTuple (rid : Rid) (record newRecord : RmRecord)
  deriving DecidableEq, Repr

/-- The table and the part of the write set that is about it, the last record first. -/
structure Session where
  table : Table
  writeSet : List WriteRecord

abbrev Exec := EStateM DbError Session

-- ---------------------------------------------------------------------------
-- Steps
-- ---------------------------------------------------------------------------

def IxError.toDbError : IxError → DbError
  | .indexEntryNotUnique => .indexEntryNotUnique
  | _ => .failed

namespace Exec

def ofIx {α : Type} : Except IxError α → Exec α
  | .ok a => pure a
  | .error e => throw e.toDbError

def ofRm {α : Type} : Except RmError α → Exec α
  | .ok a => pure a
  | .error _ => throw .failed

def ofDb {α : Type} : Except DbError α → Exec α
  | .ok a => pure a
  | .error e => throw e

def setFile (file : RmFileHandle) : Exec Unit :=
  modify fun s => { s with table := { s.table with file := file } }

def setIndexes (ixs : List Index) : Exec Unit :=
  modify fun s => { s with table := { s.table with indexes := ixs } }

def appendWriteRecord (w : WriteRecord) : Exec Unit :=
  modify fun s => { s with writeSet := w :: s.writeSet }

/-- The next statement runs only if the lock is granted. -/
def lock (granted : Bool) : Exec Unit :=
  if granted then pure () else throw .transactionAbort

/-- A loop. -/
def each {α : Type} (body : α → Exec Unit) : List α → Exec Unit
  | [] => pure ()
  | a :: l => do
    body a
    each body l

def getRecord (rid : Rid) : Exec RmRecord := do
  let s ← get
  ofRm (s.table.file.getRecord rid)

/-- `insert_record`, which also appends to the write set. -/
def insertRecord (r : RmRecord) : Exec Rid := do
  let s ← get
  let (rid, file) ← ofRm (s.table.file.insertRecord r)
  appendWriteRecord (.insertTuple rid r)
  setFile file
  return rid

def deleteRecord (rid : Rid) : Exec Unit := do
  let s ← get
  let file ← ofRm (s.table.file.deleteRecord rid)
  setFile file

def updateRecord (rid : Rid) (r : RmRecord) : Exec Unit := do
  let s ← get
  let file ← ofRm (s.table.file.updateRecord rid r)
  setFile file

/-- `delete_entry` with the key of the record on every index. -/
def deleteEntries (r : RmRecord) : Exec Unit := do
  let s ← get
  let ixs ← ofIx (deleteKeys r s.table.indexes)
  setIndexes ixs

/-- `insert_entry` with the key of the record on every index. -/
def insertEntries (r : RmRecord) (rid : Rid) : Exec Unit := do
  let s ← get
  let (done, rest) ← ofIx (insertKeys r rid s.table.indexes)
  setIndexes (done ++ rest)
  match rest with
  | [] => pure ()
  | _ :: _ => throw .indexEntryNotUnique

-- These let `simp` run the executors.

variable {α : Type} {s : Session}

@[simp] theorem ofIx_ok (a : α) : ofIx (.ok a) = pure a := rfl

@[simp] theorem ofRm_ok (a : α) : ofRm (.ok a) = pure a := rfl

@[simp] theorem ofDb_ok (a : α) : ofDb (.ok a) = pure a := rfl

@[simp] theorem ofDb_error (e : DbError) : (ofDb (.error e) : Exec α) = throw e := rfl

@[simp] theorem setFile_run (file : RmFileHandle) :
    setFile file s = .ok () { s with table := { s.table with file := file } } := rfl

@[simp] theorem setIndexes_run (ixs : List Index) :
    setIndexes ixs s = .ok () { s with table := { s.table with indexes := ixs } } := rfl

@[simp] theorem appendWriteRecord_run (w : WriteRecord) :
    appendWriteRecord w s = .ok () { s with writeSet := w :: s.writeSet } := rfl

@[simp] theorem lock_true : lock true = pure () := rfl

@[simp] theorem lock_false : lock false = throw .transactionAbort := rfl

end Exec

open Exec

-- ---------------------------------------------------------------------------
-- InsertExecutor
-- ---------------------------------------------------------------------------

/-- The loop that fills the record buffer. -/
def makeRecord : List ColMeta → List Value → RmRecord → Except DbError RmRecord
  | col :: cols, val :: values, rec =>
    if col.type ≠ val.type then .error .incompatibleType
    else makeRecord cols values (memcpy rec col.offset (val.raw col.len) col.len)
  | _, _, rec => .ok rec

/-- `InsertExecutor::Next` behind the loop. -/
def insertFilled (rec : RmRecord) (tableGranted : Bool) (recordGranted : Rid → Bool) : Exec Unit := do
  let s ← get
  let b ← ofIx (existsKey rec s.table.indexes)
  if b then throw .indexEntryNotUnique
  lock tableGranted
  let rid ← insertRecord rec
  lock (recordGranted rid)
  insertEntries rec rid

/-- The check of the constructor and `InsertExecutor::Next`. `buffer` is the memory that the new record is given. -/
def insertNext (values : List Value) (buffer : RmRecord) (tableGranted : Bool)
    (recordGranted : Rid → Bool) : Exec Unit := do
  let s ← get
  if values.length ≠ s.table.cols.length then throw .invalidValueCount
  let rec ← ofDb (makeRecord s.table.cols values buffer)
  insertFilled rec tableGranted recordGranted

-- ---------------------------------------------------------------------------
-- DeleteExecutor
-- ---------------------------------------------------------------------------

/-- One turn of the loop of `DeleteExecutor::Next`. -/
def deleteRow (conds : List Condition) (rid : Rid) : Exec Unit := do
  let s ← get
  let record ← getRecord rid
  match testRecord conds s.table.cols record with
  | none => throw .columnNotFound
  | some false => pure ()
  | some true =>
    appendWriteRecord (.deleteTuple rid record)
    deleteRecord rid
    deleteEntries record

/-- The lock of the constructor and `DeleteExecutor::Next`. -/
def deleteNext (conds : List Condition) (rids : List Rid) (tableGranted : Bool) : Exec Unit := do
  lock tableGranted
  each (deleteRow conds) rids

-- ---------------------------------------------------------------------------
-- UpdateExecutor
-- ---------------------------------------------------------------------------

/-- The first loop of `UpdateExecutor::Next`: lock the rows and take their keys out. -/
def removeOldKeys (recordGranted : Rid → Bool) : List Rid → Exec (List (Rid × RmRecord))
  | [] => pure []
  | rid :: rids => do
    lock (recordGranted rid)
    let record ← getRecord rid
    deleteEntries record
    let rows ← removeOldKeys recordGranted rids
    return (rid, record) :: rows

/-- The handler of `IndexEntryNotUniqueError`. `done` are the indexes that have the key of
the row that failed, `news` the new records of the rows before it. -/
def restoreKeys (rows : List (Rid × RmRecord)) (news : List RmRecord) (newRecord : RmRecord)
    (done rest : List Index) : Exec Unit := do
  let done ← ofIx (deleteKeys newRecord done)
  setIndexes (done ++ rest)
  each deleteEntries news
  each (fun row => insertEntries row.2 row.1) rows
  throw .indexEntryNotUnique

/-- The second loop: compute the new records and insert their keys. `todo` are the rows that
are left of `rows`, and `news` the new records of the others. -/
def insertNewKeys (clauses : List SetClause) (rows : List (Rid × RmRecord)) :
    List (Rid × RmRecord) → List RmRecord → Exec (List RmRecord)
  | [], news => pure news
  | (rid, record) :: todo, news => do
    let s ← get
    let newRecord ← ofDb (applySetClauses s.table.cols clauses record)
    let (done, rest) ← ofIx (insertKeys newRecord rid s.table.indexes)
    match rest with
    | [] => setIndexes done
    | _ :: _ => restoreKeys rows news newRecord done rest
    insertNewKeys clauses rows todo (news ++ [newRecord])

/-- The third loop: write the new records. -/
def writeRows : List ((Rid × RmRecord) × RmRecord) → Exec Unit
  | [] => pure ()
  | ((rid, record), newRecord) :: rows => do
    appendWriteRecord (.updateTuple rid record newRecord)
    updateRecord rid newRecord
    writeRows rows

/-- `UpdateExecutor::Next`. -/
def updateNext (clauses : List SetClause) (rids : List Rid) (recordGranted : Rid → Bool) : Exec Unit := do
  let rows ← removeOldKeys recordGranted rids
  let news ← insertNewKeys clauses rows rows []
  writeRows (rows.zip news)

/-- A statement, with what the executor is given by the scan and by the lock manager. -/
inductive Stmt where
  | insert (values : List Value) (buffer : RmRecord) (tableGranted : Bool) (recordGranted : Rid → Bool)
  | delete (conds : List Condition) (rids : List Rid) (tableGranted : Bool)
  | update (clauses : List SetClause) (rids : List Rid) (recordGranted : Rid → Bool)

def Stmt.exec : Stmt → Exec Unit
  | .insert values buffer tableGranted recordGranted => insertNext values buffer tableGranted recordGranted
  | .delete conds rids tableGranted => deleteNext conds rids tableGranted
  | .update clauses rids recordGranted => updateNext clauses rids recordGranted

end Rmdb
