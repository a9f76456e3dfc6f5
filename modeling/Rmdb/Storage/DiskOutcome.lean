-- SUMMARY: The calls of the buffer pool when `write_page` and `read_page` may throw.
import Rmdb.Storage.Frames

/-!
# Disk calls that fail

`write_page` and `read_page` throw when the system call does not get through all bytes, whatever
the reason. They give `fd2latch_` back before they throw. The calls of the pool undo nothing: what
they have done to the free list, the replacer and the page table by then stays, and so does the latch
of the frame, which they hold.
-/

namespace Rmdb

/-- How the disk calls of one `fetch_page` go. -/
structure DiskOutcome where
  /-- `write_page` throws, and leaves this disk. -/
  writeFails : Option DiskManager
  /-- `read_page` throws, and leaves these bytes in the frame. -/
  readFails : Option PageData

/-- Both calls do what they are asked to, where the file has the page. -/
def DiskOutcome.fine : DiskOutcome := ⟨none, none⟩

namespace BufferPoolManager

variable (io : DiskOutcome) (b : BufferPoolManager) (p : PageId)

/-- `fetch_page`, with the outcome of its disk calls. -/
def fetchPageWith : Option (Fetched × BufferPoolManager) :=
  match b.pageTable p with
  | some f =>
    let page := b.pages f
    if page.latched then none else
    some (.page f, { b.setPage f { page with pinCount := page.pinCount + 1 } with
      replacer := b.replacer.pin f })
  | none =>
    match b.findVictimPage with
    | none => some (.null, b)
    | some (f, b) =>
      let old := b.pages f
      if old.latched then none else
      let table := Function.update (Function.update b.pageTable old.id none) p (some f)
      match old.isDirty, io.writeFails with
      | true, some disk =>
        some (.threw, { b.setPage f { old with latched := true } with
          pageTable := table, disk := disk })
      | _, _ =>
        let disk := writeBack old b.disk
        let threw (data : PageData) :=
          some (.threw, { b.setPage f ⟨p, data, false, 1, true⟩ with
            pageTable := table, disk := disk })
        match io.readFails, disk.readPage p with
        | some data, _ => threw data
        | none, none => threw PageData.zero
        | none, some data =>
          some (.page f, { b.setPage f ⟨p, data, false, 1, false⟩ with
            pageTable := table, disk := disk })

/-- `flush_page`. The page counts as clean before it is written. There is no answer when it throws. -/
def flushPageWith : Option (Option Bool × BufferPoolManager) :=
  match b.pageTable p with
  | none => some (some false, b)
  | some f =>
    let page := b.pages f
    if page.latched then none else
    match io.writeFails with
    | some disk => some (none, { b.setPage f { page with isDirty := false, latched := true } with disk := disk })
    | none =>
      some (some true, { b.setPage f { page with isDirty := false } with disk := b.disk.writePage page.id page.data })

/-- `new_page` of file `fd`. When it throws, its frame is in no list and no page is in it. -/
def newPageWith (fd : Int) : Option (Fetched × Int × BufferPoolManager) :=
  match b.findVictimPage with
  | none => some (.null, noPage, b)
  | some (f, b) =>
    let old := b.pages f
    let table := Function.update b.pageTable old.id none
    let (pageNo, disk) := b.disk.allocatePage fd
    if old.latched then none else
    match old.isDirty, io.writeFails with
    | true, some disk =>
      some (.threw, pageNo, { b.setPage f { old with latched := true } with pageTable := table, disk := disk })
    | _, _ =>
      let id := ⟨fd, pageNo⟩
      some (.page f, pageNo, { b.setPage f ⟨id, PageData.zero, false, 1, false⟩ with
        pageTable := Function.update table id (some f), disk := writeBack old disk })

/-- `delete_page`. When it throws, its frame is in the free list and keeps the page. -/
def deletePageWith : Option (Option Bool × BufferPoolManager) :=
  match b.pageTable p with
  | none => some (some true, b)
  | some f =>
    let page := b.pages f
    if page.latched then none else
    if page.pinCount > 0 then some (some false, b) else
    let b' := { b with
      replacer := b.replacer.pin f
      pageTable := Function.update b.pageTable p none
      freeList := b.freeList ++ [f] }
    match page.isDirty, io.writeFails with
    | true, some disk => some (none, { b'.setPage f { page with latched := true } with disk := disk })
    | _, _ =>
      some (some true, { b'.setPage f ⟨⟨-1, noPage⟩, PageData.zero, false, page.pinCount, false⟩ with
        disk := writeBack page b.disk })

/-- The loop of `flush_all_pages`, and whether it threw. `fails` says of each frame how its `write_page` goes. -/
def flushFramesWith (fails : FrameId → Option DiskManager) (fd : Int) :
    List FrameId → BufferPoolManager → Option (Bool × BufferPoolManager)
  | [], b => some (false, b)
  | f :: rest, b =>
    let page := b.pages f
    if page.latched then none else
    if page.id.pageNo ≠ noPage ∧ page.id.fd = fd then
      match fails f with
      | some disk => some (true, { b.setPage f { page with isDirty := false, latched := true } with disk := disk })
      | none => flushFramesWith fails fd rest
          { b.setPage f { page with isDirty := false } with disk := b.disk.writePage page.id page.data }
    else flushFramesWith fails fd rest b

-- ---------------------------------------------------------------------------
-- When nothing fails
-- ---------------------------------------------------------------------------

variable {b} in
theorem findVictimPage_same {f : FrameId} {b₁ : BufferPoolManager} (hv : b.findVictimPage = some (f, b₁)) :
    b₁.pages = b.pages ∧ b₁.pageTable = b.pageTable ∧ b₁.disk = b.disk ∧ b₁.poolSize = b.poolSize := by
  unfold findVictimPage at hv
  split at hv
  · cases hv
    exact ⟨rfl, rfl, rfl, rfl⟩
  · obtain ⟨⟨g, lru⟩, -, heq⟩ := Option.map_eq_some_iff.mp hv
    cases heq
    exact ⟨rfl, rfl, rfl, rfl⟩

/-- `fetchPage` is the fetch whose disk calls do not fail of themselves. -/
theorem fetchPageWith_fine : b.fetchPageWith .fine p = b.fetchPage p := by
  unfold fetchPageWith fetchPage
  cases b.pageTable p with
  | some f => rfl
  | none =>
    cases b.findVictimPage with
    | none => rfl
    | some victim =>
      obtain ⟨f, b₁⟩ := victim
      dsimp only [DiskOutcome.fine]
      by_cases hl : (b₁.pages f).latched = true
      · rw [if_pos hl, if_pos hl]
      · rw [if_neg hl, if_neg hl]
        cases (writeBack (b₁.pages f) b₁.disk).readPage p <;> cases (b₁.pages f).isDirty <;> rfl

theorem newPageWith_fine (fd : Int) : b.newPageWith .fine fd = b.newPage fd := by
  unfold newPageWith newPage
  cases b.findVictimPage with
  | none => rfl
  | some victim =>
    obtain ⟨f, b₁⟩ := victim
    dsimp only [DiskOutcome.fine]
    split
    · rfl
    · cases (b₁.pages f).isDirty <;> rfl

theorem flushPageWith_fine :
    b.flushPageWith .fine p = (b.flushPage p).map fun (answer, b) => (some answer, b) := by
  unfold flushPageWith flushPage
  cases b.pageTable p with
  | none => rfl
  | some f =>
    dsimp only [DiskOutcome.fine]
    split
    · rfl
    · rfl

theorem deletePageWith_fine :
    b.deletePageWith .fine p = (b.deletePage p).map fun (answer, b) => (some answer, b) := by
  unfold deletePageWith deletePage
  cases b.pageTable p with
  | none => rfl
  | some f =>
    dsimp only [DiskOutcome.fine]
    split
    · rfl
    · split
      · rfl
      · cases (b.pages f).isDirty <;> rfl

theorem flushFramesWith_fine (fd : Int) (frames : List FrameId) :
    (b.flushFramesWith (fun _ => none) fd frames).map Prod.snd = frames.foldlM (fun b f => b.flushFrame fd f) b := by
  induction frames generalizing b with
  | nil => rfl
  | cons f rest ih =>
    rw [List.foldlM_cons]
    simp only [flushFramesWith, flushFrame]
    split
    · rfl
    · split
      · exact ih _
      · exact ih _

end BufferPoolManager

end Rmdb
