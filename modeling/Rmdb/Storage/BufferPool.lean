-- SUMMARY: The buffer pool: frames, page table, free list, LRU replacer and the disk below them.
import Mathlib.Data.List.Nodup
import Mathlib.Logic.Function.Basic
import Rmdb.Basic

/-!
# The buffer pool

`storage/buffer_pool_manager.cpp` and `replacer/lru_replacer.cpp`. Calls are made one after
the other, so of the latches only one thing is left to say: `fetch_page` does not give back
`page_latches_[frame]` when `read_page` throws, and a call that takes the latch of such a frame
never returns. A call that never returns is `none`.

`write_page` does not throw here. `DiskOutcome` has the same calls on a disk whose writes and reads may
fail at any time; they are these calls when nothing fails.
-/

namespace Rmdb

-- ---------------------------------------------------------------------------
-- Pages and the disk
-- ---------------------------------------------------------------------------

/-- `PAGE_SIZE`. -/
def pageSize : Nat := 4096

/-- `data_` of a page. -/
abbrev PageData := Vector UInt8 pageSize

/-- `reset_memory`. -/
def PageData.zero : PageData := Vector.replicate pageSize 0

structure PageId where
  fd : Int
  pageNo : Int
  deriving DecidableEq, Repr

/-- The open files, each the list of its pages, and `fd2pageno_`. -/
structure DiskManager where
  files : Int → List PageData
  fd2pageno : Int → Nat

namespace DiskManager

variable (disk : DiskManager) (p : PageId)

/-- `read_page`. A read past the end of the file is short, and throws: `none`. -/
def readPage : Option PageData :=
  if 0 ≤ p.pageNo then (disk.files p.fd)[p.pageNo.toNat]? else none

/-- A file after a write of page `k`. The pages between the old end and `k` read as zeros. -/
def writeAt (file : List PageData) (k : Nat) (data : PageData) : List PageData :=
  (file ++ List.replicate (k + 1 - file.length) PageData.zero).set k data

/-- `write_page`. -/
def writePage (data : PageData) : DiskManager :=
  { disk with
    files := Function.update disk.files p.fd (writeAt (disk.files p.fd) p.pageNo.toNat data) }

/-- `allocate_page`. -/
def allocatePage (fd : Int) : Int × DiskManager :=
  (disk.fd2pageno fd, { disk with
    fd2pageno := Function.update disk.fd2pageno fd (disk.fd2pageno fd + 1) })

end DiskManager

-- ---------------------------------------------------------------------------
-- The LRU replacer
-- ---------------------------------------------------------------------------

/-- A frame number. -/
abbrev FrameId := Nat

/-- `LRUlist_`, and the frames that `LRUhash_` has an iterator for. The iterator is the one of the
frame's element of the list. -/
structure LRUReplacer where
  list : List FrameId
  hash : FrameId → Bool

namespace LRUReplacer

/-- `victim`: the frame at the back, and the replacer without it. -/
def victim (lru : LRUReplacer) : Option (FrameId × LRUReplacer) :=
  lru.list.getLast?.map fun f => (f, ⟨lru.list.dropLast, Function.update lru.hash f false⟩)

def pin (lru : LRUReplacer) (f : FrameId) : LRUReplacer :=
  if lru.hash f then ⟨lru.list.erase f, Function.update lru.hash f false⟩ else lru

def unpin (lru : LRUReplacer) (f : FrameId) : LRUReplacer :=
  if lru.hash f then lru else ⟨f :: lru.list, Function.update lru.hash f true⟩

end LRUReplacer

-- ---------------------------------------------------------------------------
-- The pool
-- ---------------------------------------------------------------------------

/-- A frame: the members of `Page`, and whether `page_latches_[frame]` is held. -/
structure Page where
  id : PageId
  data : PageData
  isDirty : Bool
  pinCount : Nat
  latched : Bool

structure BufferPoolManager where
  poolSize : Nat
  pages : FrameId → Page
  pageTable : PageId → Option FrameId
  freeList : List FrameId
  replacer : LRUReplacer
  disk : DiskManager

/-- What a call that answers with a `Page *` can do. -/
inductive Fetched where
  | page (f : FrameId)
  | null
  | threw
  deriving DecidableEq, Repr

namespace BufferPoolManager

variable (b : BufferPoolManager)

/-- The constructor. Nothing sets the `fd` of the id of an unused frame. -/
def init (poolSize : Nat) (fds : FrameId → Int) (disk : DiskManager) : BufferPoolManager where
  poolSize := poolSize
  pages := fun f => ⟨⟨fds f, noPage⟩, PageData.zero, false, 0, false⟩
  pageTable := fun _ => none
  freeList := List.range poolSize
  replacer := ⟨[], fun _ => false⟩
  disk := disk

def setPage (f : FrameId) (page : Page) : BufferPoolManager :=
  { b with pages := Function.update b.pages f page }

/-- `find_victim_page`: the frame, and the pool without it in `free_list_` or the replacer. -/
def findVictimPage : Option (FrameId × BufferPoolManager) :=
  match b.freeList with
  | f :: rest => some (f, { b with freeList := rest })
  | [] => b.replacer.victim.map fun (f, lru) => (f, { b with replacer := lru })

/-- Writes the page of a frame back when it is dirty. -/
def writeBack (page : Page) (disk : DiskManager) : DiskManager :=
  if page.isDirty then disk.writePage page.id page.data else disk

/-- `fetch_page`, on a disk whose writes do not fail. -/
def fetchPage (p : PageId) : Option (Fetched × BufferPoolManager) :=
  match b.pageTable p with
  | some f =>
    let page := b.pages f
    if page.latched then none else
    some (.page f, { b.setPage f { page with pinCount := page.pinCount + 1 } with
      replacer := b.replacer.pin f })
  | none =>
    match b.findVictimPage with
    | none => some (.null, b)
    | some (f, b) =>
      let old := b.pages f
      if old.latched then none else
      let disk := writeBack old b.disk
      let table := Function.update (Function.update b.pageTable old.id none) p (some f)
      match disk.readPage p with
      | some data =>
        some (.page f, { b.setPage f ⟨p, data, false, 1, false⟩ with
          pageTable := table, disk := disk })
      | none =>
        -- The exception leaves the frame in the table, pinned and with its latch held.
        some (.threw, { b.setPage f ⟨p, PageData.zero, false, 1, true⟩ with
          pageTable := table, disk := disk })

def unpinPage (p : PageId) (isDirty : Bool) : Option (Bool × BufferPoolManager) :=
  match b.pageTable p with
  | none => some (false, b)
  | some f =>
    let page := b.pages f
    if page.latched then none else
    if page.pinCount = 0 then some (false, b) else
    let page' := { page with
      pinCount := page.pinCount - 1, isDirty := if isDirty then isDirty else page.isDirty }
    some (true, { b.setPage f page' with
      replacer := if page.pinCount - 1 = 0 then b.replacer.unpin f else b.replacer })

def flushPage (p : PageId) : Option (Bool × BufferPoolManager) :=
  match b.pageTable p with
  | none => some (false, b)
  | some f =>
    let page := b.pages f
    if page.latched then none else
    some (true, { b.setPage f { page with isDirty := false } with
      disk := b.disk.writePage page.id page.data })

/-- `new_page` of file `fd` on such a disk, with the number of the new page. -/
def newPage (fd : Int) : Option (Fetched × Int × BufferPoolManager) :=
  match b.findVictimPage with
  | none => some (.null, noPage, b)
  | some (f, b) =>
    let old := b.pages f
    let table := Function.update b.pageTable old.id none
    let (pageNo, disk) := b.disk.allocatePage fd
    if old.latched then none else
    let id := ⟨fd, pageNo⟩
    some (.page f, pageNo, { b.setPage f ⟨id, PageData.zero, false, 1, false⟩ with
      pageTable := Function.update table id (some f), disk := writeBack old disk })

def deletePage (p : PageId) : Option (Bool × BufferPoolManager) :=
  match b.pageTable p with
  | none => some (true, b)
  | some f =>
    let page := b.pages f
    if page.latched then none else
    if page.pinCount > 0 then some (false, b) else
    some (true, { b.setPage f ⟨⟨-1, noPage⟩, PageData.zero, false, page.pinCount, false⟩ with
      replacer := b.replacer.pin f
      pageTable := Function.update b.pageTable p none
      freeList := b.freeList ++ [f]
      disk := writeBack page b.disk })

/-- The body of the loop of `flush_all_pages`. -/
def flushFrame (fd : Int) (f : FrameId) : Option BufferPoolManager :=
  let page := b.pages f
  if page.latched then none else
  if page.id.pageNo ≠ noPage ∧ page.id.fd = fd then
    some { b.setPage f { page with isDirty := false } with
      disk := b.disk.writePage page.id page.data }
  else some b

def flushAllPages (fd : Int) : Option BufferPoolManager :=
  (List.range b.poolSize).foldlM (fun b f => b.flushFrame fd f) b

/-- What `free_page` and `free_all_pages` do with the frame `f` of page `p`. -/
def freeFrame (p : PageId) (f : FrameId) : BufferPoolManager :=
  let page := b.pages f
  { b.setPage f { page with id := ⟨page.id.fd, noPage⟩ } with
    replacer := b.replacer.pin f
    pageTable := Function.update b.pageTable p none
    freeList := b.freeList ++ [f] }

def freePage (p : PageId) : Option BufferPoolManager :=
  match b.pageTable p with
  | none => some b
  | some f => if (b.pages f).latched then none else some (b.freeFrame p f)

/-- The body of the loop of `free_all_pages`. -/
def freeFrameOf (fd : Int) (f : FrameId) : Option BufferPoolManager :=
  let page := b.pages f
  if page.latched then none else
  if page.id.pageNo ≠ noPage ∧ page.id.fd = fd then some (b.freeFrame page.id f) else some b

def freeAllPages (fd : Int) : Option BufferPoolManager :=
  (List.range b.poolSize).foldlM (fun b f => b.freeFrameOf fd f) b

end BufferPoolManager

end Rmdb
