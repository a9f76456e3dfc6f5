-- SUMMARY: `SmManager`: the catalog, its file, the open handles, and the calls that create and drop tables and indexes.
import Rmdb.Common.Condition
import Rmdb.Execution.Table
import Rmdb.Index.KeyRank
import Rmdb.Lib.Run
import Rmdb.Record.Scan

/-!
# The system manager

`create_table`, `drop_table`, `create_index` and `drop_index`. They run in a monad that keeps the
state when it throws, as the source does: what a call has done before an exception stays done.

A file is its name here, and the contents of a table or an index are those of its handle. `db.meta`
is the catalog that `flush_meta` has last written to it. The names under which the file system can
create a file are a parameter.
-/

namespace Rmdb

/-- What ends a call. -/
inductive SmError where
  | tableExists (tabName : String)
  | tableNotFound (tabName : String)
  | indexExists (tabName : String) (colNames : List String)
  | indexNotFound (tabName : String) (colNames : List String)
  | columnNotFound (colName : String)
  | invalidColLength (colTotLen : Nat)
  | invalidRecordSize (recordSize : Nat)
  | fileExists (path : String)
  | fileNotFound (path : String)
  | transactionAbort
  | indexEntryNotUnique
  | internal
  /-- An `assert` fails, or a handle is used that is not there. -/
  | assertion
  /-- No exception: the call waits for `db_.latch_` and never comes back. -/
  | blocked
  /-- A loop that is still running. -/
  | fuel
  deriving DecidableEq, Repr

/-- A handle in `ihs_`. Where a column is neither `INT` nor `CHAR`, the tree holds the ranks of its
keys. -/
inductive IxHandle where
  | tree (ix : Index)
  | other (cols : List ColMeta) (handle : IxIndexHandle (List Int))

structure SmManager where
  /-- `db_.tabs_`. -/
  tabs : String → Option TabMeta
  dbMeta : String → Option TabMeta
  fhs : String → Option RmFileHandle
  ihs : String → Option IxHandle
  files : String → Bool
  /-- The paths in `path2fd_`. -/
  path2fd : String → Bool
  /-- The calls that hold `db_.latch_` shared. -/
  readers : Nat

abbrev SmM := EStateM SmError SmManager

-- ---------------------------------------------------------------------------
-- Files
-- ---------------------------------------------------------------------------

namespace SmM

/-- `DiskManager::create_file`. The result of `open` is not looked at. -/
def createFile (creatable : String → Bool) (path : String) : SmM Unit := do
  let s ← get
  if s.files path then throw (.fileExists path)
  else if creatable path then modify fun s => { s with files := Function.update s.files path true }

/-- `DiskManager::open_file`. -/
def openFile (path : String) : SmM Unit := do
  let s ← get
  if s.path2fd path then pure ()
  else if s.files path then modify fun s => { s with path2fd := Function.update s.path2fd path true }
  else throw (.fileNotFound path)

/-- `DiskManager::close_file`. -/
def closeFile (path : String) : SmM Unit :=
  modify fun s => { s with path2fd := Function.update s.path2fd path false }

/-- `DiskManager::destroy_file`. A file that is open stays. -/
def destroyFile (path : String) : SmM Unit := do
  let s ← get
  if s.path2fd path then pure ()
  else if s.files path then modify fun s => { s with files := Function.update s.files path false }
  else throw (.fileNotFound path)

-- ---------------------------------------------------------------------------
-- The catalog
-- ---------------------------------------------------------------------------

/-- `DbMeta::get_table`. -/
def getTable (tabName : String) : SmM TabMeta := do
  let s ← get
  match s.tabs tabName with
  | some tab => pure tab
  | none => throw (.tableNotFound tabName)

/-- `db_.WLatch()`, which waits for all readers. -/
def wLatch : SmM Unit := do
  let s ← get
  if s.readers = 0 then pure () else throw .blocked

def setTable (tabName : String) (tab : Option TabMeta) : SmM Unit :=
  modify fun s => { s with tabs := Function.update s.tabs tabName tab }

def flushMeta : SmM Unit := modify fun s => { s with dbMeta := s.tabs }

end SmM

/-- `std::map::emplace`, which leaves an entry that is there. -/
def emplace {α : Type} (m : String → Option α) (key : String) (a : α) : String → Option α :=
  if (m key).isSome then m else Function.update m key (some a)

open SmM

-- ---------------------------------------------------------------------------
-- Tables
-- ---------------------------------------------------------------------------

structure ColDef where
  name : String
  type : ColType
  len : Nat
  deriving DecidableEq, Repr

/-- The loop of `create_table` over the columns, from `curr_offset` on. -/
def makeCols (tabName : String) : List ColDef → Nat → List TabColMeta
  | [], _ => []
  | colDef :: colDefs, currOffset =>
    ⟨⟨colDef.name, colDef.type, colDef.len, currOffset⟩, tabName⟩ ::
      makeCols tabName colDefs (currOffset + colDef.len)

def recordSize (colDefs : List ColDef) : Nat := (colDefs.map ColDef.len).sum

/-- `RmManager::create_file`, with `RM_MAX_RECORD_SIZE = 2048`. -/
def RmManager.createFile (creatable : String → Bool) (filename : String) (recordSize : Nat) : SmM Unit := do
  if recordSize < 1 ∨ recordSize > 2048 then throw (.invalidRecordSize recordSize)
  SmM.createFile creatable filename
  openFile filename
  closeFile filename

def SmManager.createTable (creatable : String → Bool) (tabName : String) (colDefs : List ColDef) :
    SmM Unit := do
  let s ← get
  if (s.tabs tabName).isSome then throw (.tableExists tabName)
  RmManager.createFile creatable tabName (recordSize colDefs)
  wLatch
  setTable tabName (some ⟨makeCols tabName colDefs 0, []⟩)
  flushMeta
  openFile tabName
  modify fun s =>
    { s with fhs := emplace s.fhs tabName (RmFileHandle.createFile (recordSize colDefs)) }

-- ---------------------------------------------------------------------------
-- Indexes
-- ---------------------------------------------------------------------------

namespace IxManager

/-- `get_index_name`. -/
def getIndexName (filename : String) (indexCols : List String) : String :=
  indexCols.foldl (fun indexName col => indexName ++ ("_" ++ col)) filename ++ ".idx"

/-- `btree_order`, with `sizeof(IxPageHdr) = 24` and `sizeof(Rid) = 8`. -/
def btreeOrder (colTotLen : Nat) : Nat := (4096 - 24) / (colTotLen + 8) - 1

/-- What `create_index` does with the file. -/
def createIndexFile (creatable : String → Bool) (ixName : String) (colTotLen : Nat) : SmM Unit := do
  SmM.createFile creatable ixName
  openFile ixName
  if colTotLen > 2000 then throw (.invalidColLength colTotLen)
  closeFile ixName

/-- `init_tree`: the tree, and the exception that stopped it. `same` is what `insert_entry` throws on
a key that the tree cannot tell from one of its own. -/
def initTree {K : Type} [IxKey K] (key : RmRecord → K) (same : SmError) (f : RmFileHandle) :
    Nat → Rid → IxIndexHandle K → IxIndexHandle K × Option SmError
  | 0, _, h => (h, some .fuel)
  | fuel + 1, rid, h =>
    if RmScan.isEnd rid then (h, none)
    else
      match f.getRecord rid with
      | .error _ => (h, some .internal)
      | .ok r =>
        match h.insertEntry (key r) rid with
        | .error .indexEntryNotUnique => (h, some same)
        | .error _ => (h, some .assertion)
        | .ok (_, h) => initTree key same f fuel (RmScan.next f rid) h

/-- Keys that agree up to a column without a case make `ix_compare` throw. -/
def sameKey (cols : List ColMeta) : SmError := if cols.all ColMeta.hasCase then .indexEntryNotUnique else .internal

/-- Two of the rows agree up to a `FLOAT` in which one of them has a NaN. -/
def someNaN (cols : List ColMeta) (f : RmFileHandle) : Bool :=
  let rids := RmScan.ridsFrom f (f.numPages - 1).toNat 1 0
  rids.any fun rid => rids.any fun rid' => rid != rid' &&
    (f.lookup rid).any fun r => (f.lookup rid').any fun r' => meetsNaN cols (rowKey cols r) (rowKey cols r')

end IxManager

/-- The column of a key, if `ix_compare` accepts it and it is no float. -/
def ColMeta.ixCol (col : ColMeta) : Option IxCol :=
  match col.type with
  | .int => if col.len = 4 then some .int else none
  | .string => some (.char col.len)
  | _ => none

/-- The columns of the keys, if all of them are `INT` or `CHAR`. -/
def indexMeta (cols : List TabColMeta) : Option IndexMeta :=
  cols.mapM fun col => col.ixCol.map fun c => (col.offset, c)

theorem ixCol_sized {col : ColMeta} {c : IxCol} (h : col.ixCol = some c) :
    (col.type = .int ∨ col.type = .string) ∧ col.Sized ∧ c.len = col.len := by
  rw [ColMeta.ixCol] at h
  split at h
  · rename_i htype
    split at h
    · rename_i hlen
      cases h
      exact ⟨.inl htype, ⟨fun _ => hlen, by simp [htype], by simp [htype]⟩, hlen.symm⟩
    · cases h
  · rename_i htype
    cases h
    exact ⟨.inr htype, ⟨by simp [htype], by simp [htype], by simp [htype]⟩, rfl⟩
  · cases h

theorem indexMeta_some {ixCols : List TabColMeta} {metas : IndexMeta} (h : indexMeta ixCols = some metas) :
    List.Forall₂ (fun col x => x.1 = col.offset ∧ col.toColMeta.ixCol = some x.2) ixCols metas := by
  induction ixCols generalizing metas with
  | nil =>
    cases h
    exact .nil
  | cons col ixCols ih =>
    simp only [indexMeta, List.mapM_cons, Option.bind_eq_bind, Option.bind_eq_some_iff, Option.map_eq_some_iff] at h
    obtain ⟨x, ⟨c, hc, rfl⟩, metas', hmetas, h⟩ := h
    obtain rfl := Option.some.inj h
    exact .cons ⟨rfl, hc⟩ (ih hmetas)

/-- What `create_index` meets outside of the catalog: whether its transaction is `SHRINKING`, in which
case `lock_shared_on_table` throws (its answer is not looked at), and what comes out of the build where
a NaN leaves `ix_compare` without an order. -/
structure IndexContext where
  shrinking : Bool
  unordered : IxIndexHandle (List Int) → IxIndexHandle (List Int) × Option SmError

/-- A transaction that may ask for locks, or none at all. -/
def IndexContext.growing : IndexContext := ⟨false, fun h => (h, none)⟩

namespace SmManager

/-- The loop over the column names, with `db_.latch_` held. -/
def getCols (tab : TabMeta) : List String → SmM (List TabColMeta)
  | [] => pure []
  | colName :: colNames => do
    match tab.cols.find? fun col => col.name = colName with
    | some col =>
      let cols ← getCols tab colNames
      return col :: cols
    | none => throw (.columnNotFound colName)

def setHandle (indexName : String) (ix : IxHandle) : SmM Unit :=
  modify fun s => { s with ihs := Function.update s.ihs indexName (some ix) }

/-- The handle after `init_tree`, and the exception that stopped it. -/
def initHandle (f : RmFileHandle) (context : IndexContext) : IxHandle → IxHandle × Option SmError
  | .tree ix =>
    let fuel := f.numPages.toNat * f.numRecordsPerPage.toNat + 1
    let (h, e) := IxManager.initTree ix.cols.key .indexEntryNotUnique f fuel (RmScan.begin f) ix.handle
    (.tree ⟨ix.cols, h⟩, e)
  | .other cols h =>
    let fuel := f.numPages.toNat * f.numRecordsPerPage.toNat + 1
    let (h, e) :=
      if IxManager.someNaN cols f then context.unordered h
      else IxManager.initTree (fun r => keyRank cols (rowKey cols r)) (IxManager.sameKey cols) f fuel
        (RmScan.begin f) h
    (.other cols h, e)

/-- `init_tree` on the handle in `ihs_`. -/
def buildIndex (indexName : String) (f : RmFileHandle) (context : IndexContext) : SmM Unit := do
  let s ← get
  match s.ihs indexName with
  | some ix =>
    let (ix, e) := initHandle f context ix
    setHandle indexName ix
    match e with
    | none => pure ()
    | some e => throw e
  | none => throw .assertion

/-- The handle of the index file that `create_index` has written. -/
def newHandle (cols : List TabColMeta) (order : Nat) : IxHandle :=
  match indexMeta cols with
  | some keyCols => .tree ⟨keyCols, IxManager.createIndex order⟩
  | none => .other (cols.map TabColMeta.toColMeta) (IxManager.createIndex order)

def createIndex (creatable : String → Bool) (tabName : String) (colNames : List String)
    (context : IndexContext) : SmM Unit := do
  let s ← get
  if (s.tabs tabName).isNone then throw (.tableNotFound tabName)
  let indexName := IxManager.getIndexName tabName colNames
  if s.files indexName then throw (.indexExists tabName colNames)
  modify fun s => { s with readers := s.readers + 1 }
  let tab ← getTable tabName
  -- An exception leaves the latch to the readers.
  let cols ← getCols tab colNames
  modify fun s => { s with readers := s.readers - 1 }
  let colTotLen := (cols.map fun col => col.len).sum
  if colTotLen > 2000 then throw (.invalidColLength colTotLen)
  wLatch
  let tab ← getTable tabName
  setTable tabName (some { tab with indexes := tab.indexes ++ [colNames] })
  flushMeta
  IxManager.createIndexFile creatable indexName colTotLen
  openFile indexName
  let ix := newHandle cols (IxManager.btreeOrder colTotLen)
  modify fun s => { s with ihs := emplace s.ihs indexName ix }
  if context.shrinking then throw .transactionAbort
  let s ← get
  match s.fhs tabName with
  | some f => buildIndex indexName f context
  | none => throw .assertion

def dropIndex (tabName : String) (colNames : List String) : SmM Unit := do
  let s ← get
  if (s.tabs tabName).isNone then throw (.tableNotFound tabName)
  let indexName := IxManager.getIndexName tabName colNames
  if !s.files indexName then throw (.fileNotFound indexName)
  wLatch
  let tab ← getTable tabName
  setTable tabName (some { tab with indexes := tab.indexes.erase colNames })
  flushMeta
  if colNames ∉ tab.indexes then throw (.indexNotFound tabName colNames)
  if (s.ihs indexName).isNone then throw .assertion
  closeFile indexName
  destroyFile indexName
  modify fun s => { s with ihs := Function.update s.ihs indexName none }

/-- The loop of `drop_table` over the indexes that the table had at its start. -/
def dropIndexes (tabName : String) : List (List String) → SmM Unit
  | [] => pure ()
  | colNames :: indexes => do
    dropIndex tabName colNames
    dropIndexes tabName indexes

def dropTable (tabName : String) : SmM Unit := do
  let tab ← getTable tabName
  dropIndexes tabName tab.indexes
  let s ← get
  if (s.tabs tabName).isNone then throw (.tableNotFound tabName)
  wLatch
  setTable tabName none
  flushMeta
  if (s.fhs tabName).isNone then throw .assertion
  closeFile tabName
  destroyFile tabName
  modify fun s => { s with fhs := Function.update s.fhs tabName none }

end SmManager

-- ---------------------------------------------------------------------------
-- Calls
-- ---------------------------------------------------------------------------

inductive SmCall where
  | createTable (tabName : String) (colDefs : List ColDef)
  | dropTable (tabName : String)
  | createIndex (tabName : String) (colNames : List String) (context : IndexContext)
  | dropIndex (tabName : String) (colNames : List String)

def SmCall.exec (creatable : String → Bool) : SmCall → SmM Unit
  | createTable tabName colDefs => SmManager.createTable creatable tabName colDefs
  | dropTable tabName => SmManager.dropTable tabName
  | createIndex tabName colNames context => SmManager.createIndex creatable tabName colNames context
  | dropIndex tabName colNames => SmManager.dropIndex tabName colNames

end Rmdb
