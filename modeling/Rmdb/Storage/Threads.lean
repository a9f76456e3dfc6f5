-- SUMMARY: Calls of the buffer pool by several threads, cut at the latches and at the disk accesses.
import Rmdb.Lib.History
import Rmdb.Storage.Transparency

/-!
# Threads and the buffer pool

`fetch_page`, `new_page`, `unpin_page` and `delete_page` as the steps between which other threads
can run. A step is a section of `latch_`, a section of `page_latches_[frame]`, or a part of one
that ends with a disk access. A section that takes the latch of a frame while it has `latch_` is
one step, done when the latch of the frame is free: no other thread can do anything in between
that it could see. The miss of `fetch_page` is the exception. It looks at the id of its frame
before it has the latch of the frame, and `delete_page` may still be at work there.
-/

namespace Rmdb

open History (Event)

-- ---------------------------------------------------------------------------
-- Threads
-- ---------------------------------------------------------------------------

/-- Where a thread is in its call. -/
inductive PoolPc where
  | idle
  /-- `fetch_page`: the frame is chosen and entered for the page; the thread has `latch_` and waits
  for the latch of the frame. -/
  | waiting (p : PageId) (f : FrameId)
  /-- `fetch_page`: has the latch of the frame and is about to write the old page back. -/
  | evicting (p : PageId) (f : FrameId)
  | reading (p : PageId) (f : FrameId)
  /-- `new_page`: the frame is chosen, and its old page is out of the page table. -/
  | taken (fd : Int) (f : FrameId)
  | allocated (p : PageId) (f : FrameId)
  /-- `new_page`: has the latch of the frame, and the old page is written back. -/
  | written (p : PageId) (f : FrameId)
  /-- `new_page`: the frame is the new page's, which is not in the page table yet. -/
  | filled (p : PageId) (f : FrameId)
  /-- `unpin_page`: has the latch of the frame. -/
  | unpinning (p : PageId) (f : FrameId) (isDirty : Bool)
  /-- `delete_page`: has the latch of the frame, which is in `free_list_` already. -/
  | deleting (p : PageId) (f : FrameId)
  | cleared (p : PageId) (f : FrameId)
  deriving DecidableEq, Repr

/-- What a thread does next: it starts a call, goes on with the one it is in, or stores bytes
through a pointer that it got. -/
inductive PoolAct where
  | fetchPage (p : PageId)
  | newPage (fd : Int)
  | unpinPage (p : PageId) (isDirty : Bool)
  | deletePage (p : PageId)
  | store (p : PageId) (f : FrameId) (data : PageData)
  | resume

structure Threads (κ : Type) where
  pool : BufferPoolManager
  /-- `latch_` is held, by a thread that waits for the latch of a frame. -/
  latch : Bool
  pc : κ → PoolPc
  pins : List (Pin κ)

namespace Threads

variable {κ : Type} [DecidableEq κ]

def start (poolSize : Nat) (fds : FrameId → Int) (disk : DiskManager) : Threads κ where
  pool := .init poolSize fds disk
  latch := false
  pc := fun _ => .idle
  pins := []

variable (s : Threads κ) (t : κ)

def goTo (c : PoolPc) : Threads κ := { s with pc := Function.update s.pc t c }

/-- The steps in which `latch_` is taken at the start of a call. -/
def enter : PoolAct → Option (List (Event κ PageId PageData) × Threads κ)
  | .fetchPage p =>
    match s.pool.pageTable p with
    | some f =>
      let page := s.pool.pages f
      if page.latched then none else
      some ([.fetched t p (some page.data)], { s with
        pool := { s.pool.setPage f { page with pinCount := page.pinCount + 1 } with
          replacer := s.pool.replacer.pin f }
        pins := ⟨t, p, f⟩ :: s.pins })
    | none =>
      match s.pool.findVictimPage with
      | none => some ([], s)
      | some (f, b) =>
        some ([], { s.goTo t (.waiting p f) with
          pool := { b with
            pageTable := Function.update (Function.update b.pageTable (b.pages f).id none)
              p (some f) }
          latch := true })
  | .newPage fd =>
    match s.pool.findVictimPage with
    | none => some ([], s)
    | some (f, b) =>
      some ([], { s.goTo t (.taken fd f) with
        pool := { b with pageTable := Function.update b.pageTable (b.pages f).id none } })
  | .unpinPage p isDirty =>
    match s.pool.pageTable p with
    | none => some ([], s)
    | some f =>
      let page := s.pool.pages f
      if page.latched then none else
      some ([], { s.goTo t (.unpinning p f isDirty) with
        pool := s.pool.setPage f { page with latched := true } })
  | .deletePage p =>
    match s.pool.pageTable p with
    | none => some ([], s)
    | some f =>
      let page := s.pool.pages f
      if page.latched then none else
      if page.pinCount > 0 then some ([], s) else
      some ([], { s.goTo t (.deleting p f) with
        pool := { s.pool.setPage f { page with latched := true } with
          replacer := s.pool.replacer.pin f
          pageTable := Function.update s.pool.pageTable p none
          freeList := s.pool.freeList ++ [f] } })
  | _ => none

/-- The next step of the call that the thread is in. -/
def resume : Option (List (Event κ PageId PageData) × Threads κ) :=
  match s.pc t with
  | .idle => none
  | .waiting p f =>
    let page := s.pool.pages f
    if page.latched then none else
    some ([], { s.goTo t (.evicting p f) with
      pool := s.pool.setPage f { page with latched := true }
      latch := false })
  | .evicting p f =>
    let page := s.pool.pages f
    some ([], { s.goTo t (.reading p f) with
      pool := { s.pool.setPage f { page with isDirty := false } with
        disk := BufferPoolManager.writeBack page s.pool.disk } })
  | .reading p f =>
    let page := s.pool.pages f
    match s.pool.disk.readPage p with
    | some data =>
      some ([.fetched t p (some data)], { s.goTo t .idle with
        pool := s.pool.setPage f ⟨p, data, page.isDirty, 1, false⟩
        pins := ⟨t, p, f⟩ :: s.pins })
    | none =>
      -- The exception leaves the latch of the frame held.
      some ([.fetched t p none], { s.goTo t .idle with
        pool := s.pool.setPage f ⟨p, PageData.zero, page.isDirty, 1, page.latched⟩ })
  | .taken fd f =>
    let (pageNo, disk) := s.pool.disk.allocatePage fd
    some ([], { s.goTo t (.allocated ⟨fd, pageNo⟩ f) with pool := { s.pool with disk := disk } })
  | .allocated p f =>
    let page := s.pool.pages f
    if page.latched then none else
    some ([], { s.goTo t (.written p f) with
      pool := { s.pool.setPage f { page with latched := true } with
        disk := BufferPoolManager.writeBack page s.pool.disk } })
  | .written p f =>
    some ([], { s.goTo t (.filled p f) with
      pool := s.pool.setPage f ⟨p, PageData.zero, false, 1, false⟩ })
  | .filled p f =>
    if s.latch then none else
    some ([.created t p], { s.goTo t .idle with
      pool := { s.pool with
        pageTable := Function.update s.pool.pageTable (s.pool.pages f).id (some f) }
      pins := ⟨t, p, f⟩ :: s.pins })
  | .unpinning p f isDirty =>
    let page := s.pool.pages f
    if page.pinCount = 0 then
      some ([], { s.goTo t .idle with pool := s.pool.setPage f { page with latched := false } })
    else
      some ([.released t p isDirty], { s.goTo t .idle with
        pool := { s.pool.setPage f { page with
            pinCount := page.pinCount - 1
            isDirty := if isDirty then isDirty else page.isDirty
            latched := false } with
          replacer :=
            if page.pinCount - 1 = 0 then s.pool.replacer.unpin f else s.pool.replacer }
        pins := s.pins.erase ⟨t, p, f⟩ })
  | .deleting p f =>
    let page := s.pool.pages f
    some ([], { s.goTo t (.cleared p f) with
      pool := { s.pool.setPage f { page with isDirty := false } with
        disk := BufferPoolManager.writeBack page s.pool.disk } })
  | .cleared _ f =>
    let page := s.pool.pages f
    some ([], { s.goTo t .idle with
      pool := s.pool.setPage f { page with
        id := ⟨-1, noPage⟩, data := PageData.zero, latched := false } })

/-- A step of thread `t`, with what a history of the stores sees of it. `none`: the step has to
wait, or makes no sense where the thread is. -/
def step : PoolAct → Option (List (Event κ PageId PageData) × Threads κ)
  | .resume => s.resume t
  | .store p f data =>
    if s.pc t = .idle ∧ ⟨t, p, f⟩ ∈ s.pins then
      some ([.stored t p data], { s with
        pool := s.pool.setPage f { s.pool.pages f with data := data } })
    else none
  | call => if s.pc t = .idle ∧ s.latch = false then s.enter t call else none

-- ---------------------------------------------------------------------------
-- Runs
-- ---------------------------------------------------------------------------

end Threads

/-- The page a `new_page` is about to enter. -/
def PoolPc.making : PoolPc → Option PageId
  | .allocated p _ | .written p _ | .filled p _ => some p
  | _ => none

namespace Threads

variable {κ : Type} [DecidableEq κ]

/-- How callers use the pool: pages are fetched once they are there, and a thread unpins only what
it has pinned. -/
def Proper (s : Threads κ) (t : κ) : PoolAct → Prop
  | .fetchPage p =>
    p.pageNo < s.pool.disk.fd2pageno p.fd ∧ ∀ u, (s.pc u).making ≠ some p
  | .unpinPage p _ => ∃ f, ⟨t, p, f⟩ ∈ s.pins
  | _ => True

/-- The frame holds bytes of the page that are still to be written. -/
def Unwritten (s : Threads κ) (f : FrameId) (p : PageId) : Prop :=
  (s.pool.pages f).id = p ∧ (s.pool.pages f).isDirty = true ∧ ∀ u q, s.pc u ≠ .written q f

/-- The page that the frame still names is not in another frame by now. -/
def Unclaimed (s : Threads κ) (f : FrameId) : Prop :=
  s.pool.pageTable (s.pool.pages f).id = none ∨ s.pool.pageTable (s.pool.pages f).id = some f

/-- The step does not fall between the moment in which another thread takes a page out of the page
table and the moment in which that thread has written the page back and cleared the frame. -/
def Clear (s : Threads κ) : PoolAct → Prop
  | .fetchPage p => s.pool.pageTable p = none → ∀ f b, s.pool.findVictimPage = some (f, b) →
      s.Unclaimed f ∧ ∀ g, g ≠ f → ¬ s.Unwritten g p
  | .newPage _ => ∀ f b, s.pool.findVictimPage = some (f, b) → s.Unclaimed f
  | _ => True

/-- The runs whose steps are all `allowed`, each with its history. -/
inductive Run (allowed : Threads κ → κ → PoolAct → Prop) (s₀ : Threads κ) :
    List (Event κ PageId PageData) → Threads κ → Prop
  | start : Run allowed s₀ [] s₀
  | step {past events : List (Event κ PageId PageData)} {s s' : Threads κ} {t : κ} {a : PoolAct} :
      Run allowed s₀ past s → allowed s t a → s.step t a = some (events, s') →
        Run allowed s₀ (events ++ past) s'

end Threads

end Rmdb
