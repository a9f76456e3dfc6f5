-- SUMMARY: The calls of a record file as programs over the pages of the buffer pool.
import Rmdb.Lib.Run
import Rmdb.Record.FreePages
import Rmdb.Record.PageLayout
import Rmdb.Storage.Transparency

/-!
# Record files on the buffer pool

`RmFileHandle` gets its pages from the buffer pool, which hands out pointers to frames, and changes the bytes behind
the pointers. Here each call fetches, changes and unpins pages as the code does. The file is the client `c` of the
pool.
-/

namespace Rmdb

/-- What a call can end with instead of an answer. -/
inductive PoolFault where
  /-- The pool has no frame, and the call goes on with a null pointer. -/
  | null
  /-- `read_page` throws. -/
  | threw
  /-- The latch of a frame is never given back. -/
  | blocked
  /-- An `assert(false)`. -/
  | assertion
  /-- A loop that is still running. -/
  | fuel
  deriving DecidableEq, Repr

/-- The header of an open file, and the pool with what is known of its clients. -/
structure OpenFile (κ : Type) where
  hdr : RmFileHdr
  run : PoolRun κ

abbrev FileM (κ : Type) := EStateM PoolFault (OpenFile κ)

namespace OpenFile

variable {κ : Type} [DecidableEq κ] (c : κ) (fd : Int)

-- ---------------------------------------------------------------------------
-- Pages
-- ---------------------------------------------------------------------------

/-- `buffer_pool_manager_->fetch_page`. -/
def fetchPage (p : PageId) : FileM κ (Pin κ) := do
  let s ← get
  match s.run.pool.fetchPage p with
  | some (.page f, b) =>
    modify fun s => { s with run := { s.run with pool := b, pins := ⟨c, p, f⟩ :: s.run.pins } }
    return ⟨c, p, f⟩
  | some (.null, _) => throw .null
  | some (.threw, b) =>
    modify fun s => { s with run := { s.run with pool := b } }
    throw .threw
  | none => throw .blocked

/-- `buffer_pool_manager_->new_page`. -/
def newPage : FileM κ (Pin κ) := do
  let s ← get
  match s.run.pool.newPage fd with
  | some (.page f, pageNo, b) =>
    modify fun s => { s with run :=
      { pool := b
        stored := Function.update s.run.stored ⟨fd, pageNo⟩ (some PageData.zero)
        pins := ⟨c, ⟨fd, pageNo⟩, f⟩ :: s.run.pins
        changed := (c, ⟨fd, pageNo⟩) :: s.run.changed } }
    return ⟨c, ⟨fd, pageNo⟩, f⟩
  | some (_, _, _) => throw .null
  | none => throw .blocked

/-- The bytes behind the pointer of a page handle. -/
def load (k : Pin κ) : FileM κ PageData := do
  let s ← get
  return (s.run.pool.pages k.frame).data

/-- `page->is_dirty()`. -/
def isDirty (k : Pin κ) : FileM κ Bool := do
  let s ← get
  return (s.run.pool.pages k.frame).isDirty

/-- The bytes change through the pointer. -/
def store (k : Pin κ) (data : PageData) : FileM κ Unit :=
  modify fun s => { s with run := { s.run with
    pool := s.run.pool.setPage k.frame { s.run.pool.pages k.frame with data := data }
    stored := Function.update s.run.stored k.page (some data)
    changed := (k.client, k.page) :: s.run.changed } }

/-- `buffer_pool_manager_->unpin_page`. Its answer is not looked at. -/
def unpinPage (k : Pin κ) (isDirty : Bool) : FileM κ Unit := do
  let s ← get
  match s.run.pool.unpinPage k.page isDirty with
  | some (_, b) =>
    modify fun s => { s with run := { s.run with
      pool := b
      pins := s.run.pins.erase k
      changed := if isDirty then s.run.changed.filter (· ≠ (k.client, k.page)) else s.run.changed } }
  | none => throw .blocked

def fetchPageHandle (pageNo : PageNo) : FileM κ (Pin κ) := fetchPage c ⟨fd, pageNo⟩

/-- The header of a new page. -/
def initHeader (data : PageData) : PageData :=
  (((data.setNextFreePageNo (-1)).setNumRecords 0).setPageLsn (-1)).setRecLsn (-1)

def fetchFreePageHandle : FileM κ (Pin κ) := do
  let s ← get
  if s.hdr.firstFreePageNo = noPage then
    let k ← newPage c fd
    let data ← load k
    store k (initHeader data)
    modify fun s => { s with hdr := { s.hdr with
      numPages := s.hdr.numPages + 1, firstFreePageNo := k.page.pageNo } }
    return k
  else fetchPageHandle c fd s.hdr.firstFreePageNo

-- ---------------------------------------------------------------------------
-- Calls
-- ---------------------------------------------------------------------------

def getRecord (rid : Rid) : FileM κ RmRecord := do
  let k ← fetchPageHandle c fd rid.pageNo
  let s ← get
  let data ← load k
  unpinPage k false
  return s.hdr.slot data rid.slotNo.toNat

def isRecord (rid : Rid) : FileM κ Bool := do
  let k ← fetchPageHandle c fd rid.pageNo
  let data ← load k
  unpinPage k false
  return data.isSet rid.slotNo.toNat

/-- The LSNs of a page, when the call has a context with this `so_far_lsn`. -/
def stamp (lsn : Option Int) (isDirty : Bool) (data : PageData) : PageData :=
  match lsn with
  | none => data
  | some lsn =>
    let data := data.setPageLsn (if data.pageLsn > lsn then data.pageLsn else lsn)
    if isDirty then data else data.setRecLsn lsn

/-- The part that both `insert_record`s share: the record goes into an empty slot of the page. -/
def fillSlot (k : Pin κ) (slotNo : Nat) (buf : RmRecord) : FileM κ Unit := do
  let s ← get
  let data ← load k
  let data := (s.hdr.setSlot data slotNo buf).setBit slotNo
  let data := data.setNumRecords (data.numRecords + 1)
  store k data
  if data.numRecords = s.hdr.numRecordsPerPage then
    modify fun s => { s with hdr := { s.hdr with firstFreePageNo := data.nextFreePageNo } }
  else pure ()

/-- The loop of `insert_record` over the slots of the page, from slot `i` on. -/
def freeSlotLoop (data : PageData) : Nat → Nat → Option Nat
  | 0, _ => none
  | left + 1, i => if data.isSet i then freeSlotLoop data left (i + 1) else some i

def insertRecord (buf : RmRecord) (lsn : Option Int) : FileM κ Rid := do
  let k ← fetchFreePageHandle c fd
  let s ← get
  let data ← load k
  match freeSlotLoop data s.hdr.numRecordsPerPage.toNat 0 with
  | none => throw .assertion
  | some i =>
    let dirty ← isDirty k
    store k (stamp lsn dirty data)
    fillSlot k i buf
    unpinPage k true
    return ⟨k.page.pageNo, i⟩

/-- The `while` loop at the start of `insert_record(rid, buf)`, with the call before it. -/
def fetchFreeUntil (pageNo : PageNo) : Nat → FileM κ Unit
  | 0 => throw .fuel
  | fuel + 1 => do
    let k ← fetchFreePageHandle c fd
    if k.page.pageNo < pageNo then fetchFreeUntil pageNo fuel else pure ()

/-- `insert_record(rid, buf)`. It unpins the page of the rid, and not the one before. -/
def insertRecordAt (fuel : Nat) (rid : Rid) (buf : RmRecord) : FileM κ Unit := do
  fetchFreeUntil c fd rid.pageNo fuel
  let k ← fetchPageHandle c fd rid.pageNo
  let s ← get
  let data ← load k
  if data.isSet rid.slotNo.toNat then store k (s.hdr.setSlot data rid.slotNo.toNat buf)
  else fillSlot k rid.slotNo.toNat buf
  unpinPage k true

/-- `delete_record`, with a context or without. -/
def deleteRecord (rid : Rid) (lsn : Option Int) : FileM κ Unit := do
  let k ← fetchPageHandle c fd rid.pageNo
  let s ← get
  let dirty ← isDirty k
  let data ← load k
  let data := stamp lsn dirty data
  if data.isSet rid.slotNo.toNat then
    let data := data.resetBit rid.slotNo.toNat
    let data := data.setNumRecords (data.numRecords - 1)
    if data.numRecords = s.hdr.numRecordsPerPage - 1 then
      store k (data.setNextFreePageNo s.hdr.firstFreePageNo)
      modify fun s => { s with hdr := { s.hdr with firstFreePageNo := rid.pageNo } }
    else store k data
  else throw .assertion
  unpinPage k true

def updateRecord (rid : Rid) (buf : RmRecord) (lsn : Int) : FileM κ Unit := do
  let k ← fetchPageHandle c fd rid.pageNo
  let s ← get
  let dirty ← isDirty k
  let data ← load k
  let data := stamp (some lsn) dirty data
  if data.isSet rid.slotNo.toNat then store k (s.hdr.setSlot data rid.slotNo.toNat buf)
  else throw .assertion
  unpinPage k true

/-- The inner loop of `RmScan`: the first slot from `j` on that holds a record. -/
def slotLoop (data : PageData) : Nat → Nat → Option Nat
  | 0, _ => none
  | left + 1, j => if data.isSet j then some j else slotLoop data left (j + 1)

/-- The outer loop, with `left` pages left. -/
def pageLoop : Nat → PageNo → Nat → FileM κ Rid
  | 0, _, _ => pure ⟨-1, -1⟩
  | left + 1, i, j => do
    let k ← fetchPageHandle c fd i
    let s ← get
    let data ← load k
    unpinPage k false
    match slotLoop data (s.hdr.numRecordsPerPage.toNat - j) j with
    | some slot => return ⟨i, slot⟩
    | none => pageLoop left (i + 1) 0

/-- The constructor of `RmScan`. -/
def scanBegin : FileM κ Rid := do
  let s ← get
  pageLoop c fd (s.hdr.numPages - 1).toNat 1 0

/-- `RmScan::next`. -/
def scanNext (rid : Rid) : FileM κ Rid := do
  let s ← get
  pageLoop c fd (s.hdr.numPages - rid.pageNo).toNat rid.pageNo (rid.slotNo + 1).toNat

end OpenFile

end Rmdb
