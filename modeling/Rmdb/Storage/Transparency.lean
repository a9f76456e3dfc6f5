-- SUMMARY: Clients of the buffer pool, and why they cannot tell it from the pages themselves.
import Mathlib.Data.List.Count
import Rmdb.Storage.Frames

/-!
# Transparency of the buffer pool

`PoolRun` is the pool together with what its clients know: the bytes last stored in each page,
the pins they hold, and the pages each of them has changed or created since it last unpinned
the page with `is_dirty = true`. `Allowed` is the discipline of the clients.

The invariant says, page by page, where the bytes are: in the frame of the page, and unless the
frame is dirty or a client still owes a dirty unpin, on disk as well.
-/

namespace Rmdb

-- ---------------------------------------------------------------------------
-- The disk below the clients
-- ---------------------------------------------------------------------------

/-- The bytes last stored in each page; `none` for a page that nobody stored anything in. -/
abbrev Stored := PageId → Option PageData

/-- What is in page `p`. A page nobody stored anything in has zeros, if it is there at all. -/
def Stored.bytes (stored : Stored) (p : PageId) : PageData := (stored p).getD PageData.zero

/-- The disk has the bytes last stored in page `p`. -/
def Backed (stored : Stored) (disk : DiskManager) (p : PageId) : Prop :=
  ∀ data, stored p = some data → disk.readPage p = some data

/-- What holds of the disk whatever is in the pool: pages nobody stored anything in have zeros,
and `fd2pageno_` is beyond the last page of each file. -/
structure Numbered (stored : Stored) (disk : DiskManager) : Prop where
  holes : ∀ p data, stored p = none → disk.readPage p = some data → data = PageData.zero
  length : ∀ fd, (disk.files fd).length ≤ disk.fd2pageno fd

variable {stored : Stored} {disk : DiskManager} {p q : PageId} {data : PageData}

theorem Numbered.write (h : Numbered stored disk) (hp : 0 ≤ p.pageNo)
    (hlt : p.pageNo < disk.fd2pageno p.fd) :
    Numbered stored (disk.writePage p (stored.bytes p)) where
  holes q data hq hread := by
    by_cases hqp : q = p
    · subst hqp
      rw [DiskManager.readPage_writePage_self hp, Option.some.injEq] at hread
      rw [← hread, Stored.bytes, hq, Option.getD_none]
    · rcases DiskManager.readPage_writePage_ne hp hqp with hsame | ⟨-, hzero⟩
      · exact h.holes q data hq (hsame ▸ hread)
      · exact (Option.some.inj (hzero.symm.trans hread)).symm
  length fd := by
    by_cases hfd : fd = p.fd
    · subst hfd
      have := h.length p.fd
      simp only [DiskManager.writePage, Function.update_self, DiskManager.length_writeAt]
      omega
    · simp only [DiskManager.writePage, Function.update_of_ne hfd]
      exact h.length fd

theorem Backed.write_self (hp : 0 ≤ p.pageNo) :
    Backed stored (disk.writePage p (stored.bytes p)) p := by
  intro data hdata
  rw [DiskManager.readPage_writePage_self hp, Stored.bytes, hdata, Option.getD_some]

theorem Backed.write (h : Backed stored disk q) (hp : 0 ≤ p.pageNo) :
    Backed stored (disk.writePage p (stored.bytes p)) q := by
  by_cases hqp : q = p
  · subst hqp
    exact Backed.write_self hp
  · intro data hdata
    obtain hsame | ⟨hnone, -⟩ := DiskManager.readPage_writePage_ne hp hqp
    · exact hsame.trans (h data hdata)
    · cases hnone.symm.trans (h data hdata)

theorem Backed.read (h : Backed stored disk p) (hn : Numbered stored disk)
    (hread : disk.readPage p = some data) : data = stored.bytes p := by
  cases hs : stored p with
  | none => rw [Stored.bytes, hs, Option.getD_none, hn.holes p data hs hread]
  | some bytes =>
    have := (h bytes hs).symm.trans hread
    rw [Stored.bytes, hs, Option.getD_some, Option.some.inj this]

-- ---------------------------------------------------------------------------
-- Clients
-- ---------------------------------------------------------------------------

/-- A pin that a client holds: the page, and the frame it was given a pointer to. -/
structure Pin (κ : Type) where
  client : κ
  page : PageId
  frame : FrameId
  deriving DecidableEq

structure PoolRun (κ : Type) where
  pool : BufferPoolManager
  stored : Stored
  pins : List (Pin κ)
  /-- Who has changed or created which page, and not unpinned it with `is_dirty = true` since. -/
  changed : List (κ × PageId)

inductive PoolCall (κ : Type) where
  | newPage (c : κ) (fd : Int)
  | fetchPage (c : κ) (p : PageId)
  /-- The client changes the page through its pointer. -/
  | store (k : Pin κ) (data : PageData)
  | unpinPage (k : Pin κ) (isDirty : Bool)
  | flushPage (p : PageId)
  | flushAllPages (fd : Int)
  | deletePage (p : PageId)
  | freePage (p : PageId)
  | freeAllPages (fd : Int)

inductive PoolAnswer where
  | page (data : PageData)
  | null
  | threw
  | flag (b : Bool)
  | done

namespace PoolRun

variable {κ : Type}

/-- A pool just constructed. Before the first call the bytes of a page are those on disk. -/
def start (poolSize : Nat) (fds : FrameId → Int) (disk : DiskManager) : PoolRun κ where
  pool := .init poolSize fds disk
  stored := disk.readPage
  pins := []
  changed := []

/-- One call. The bytes of the answer are read through the pointer the call returns. -/
def step [DecidableEq κ] (s : PoolRun κ) : PoolCall κ → Option (PoolAnswer × PoolRun κ)
  | .newPage c fd =>
    match s.pool.newPage fd with
    | none => none
    | some (.page f, pageNo, b) =>
      let p := ⟨fd, pageNo⟩
      some (.page (b.pages f).data, { s with
        pool := b
        stored := Function.update s.stored p (some PageData.zero)
        pins := ⟨c, p, f⟩ :: s.pins
        changed := (c, p) :: s.changed })
    | some (.null, _, b) => some (.null, { s with pool := b })
    | some (.threw, _, b) => some (.threw, { s with pool := b })
  | .fetchPage c p =>
    match s.pool.fetchPage p with
    | none => none
    | some (.page f, b) =>
      some (.page (b.pages f).data, { s with pool := b, pins := ⟨c, p, f⟩ :: s.pins })
    | some (.null, b) => some (.null, { s with pool := b })
    | some (.threw, b) => some (.threw, { s with pool := b })
  | .store k data =>
    some (.done, { s with
      pool := s.pool.setPage k.frame { s.pool.pages k.frame with data := data }
      stored := Function.update s.stored k.page (some data)
      changed := (k.client, k.page) :: s.changed })
  | .unpinPage k isDirty =>
    (s.pool.unpinPage k.page isDirty).map fun (answer, b) => (.flag answer, { s with
      pool := b
      pins := s.pins.erase k
      changed := if isDirty then s.changed.filter (· ≠ (k.client, k.page)) else s.changed })
  | .flushPage p => (s.pool.flushPage p).map fun (answer, b) => (.flag answer, { s with pool := b })
  | .flushAllPages fd => (s.pool.flushAllPages fd).map fun b => (.done, { s with pool := b })
  | .deletePage p =>
    (s.pool.deletePage p).map fun (answer, b) => (.flag answer, { s with pool := b })
  | .freePage p => (s.pool.freePage p).map fun b => (.done, { s with pool := b })
  | .freeAllPages fd => (s.pool.freeAllPages fd).map fun b => (.done, { s with pool := b })

/-- What `free_page` and `free_all_pages` assert of the frame. -/
def Freeable (s : PoolRun κ) (f : FrameId) : Prop :=
  (s.pool.pages f).pinCount = 0 ∧ (s.pool.pages f).isDirty = false

/-- The discipline of the clients. They use and give back only pins they hold, and a client does
not give back its last pin on a page it has changed or created without `is_dirty = true`.
`INVALID_PAGE_ID`, like every negative number, is not a page that could be fetched. -/
def Allowed [DecidableEq κ] (s : PoolRun κ) : PoolCall κ → Prop
  | .fetchPage _ p => 0 ≤ p.pageNo
  | .store k _ => k ∈ s.pins
  | .unpinPage k isDirty =>
    k ∈ s.pins ∧ (isDirty = false → (k.client, k.page) ∈ s.changed →
      ∃ k' ∈ s.pins.erase k, k'.client = k.client ∧ k'.page = k.page)
  | .freePage p => ∀ f, s.pool.pageTable p = some f → s.Freeable f
  | .freeAllPages fd =>
    ∀ f < s.pool.poolSize, (s.pool.pages f).id.pageNo ≠ noPage → (s.pool.pages f).id.fd = fd →
      s.Freeable f
  | _ => True

/-- The states of all runs from `s₀` in which the clients keep to the discipline. -/
inductive Reached [DecidableEq κ] (s₀ : PoolRun κ) : PoolRun κ → Prop
  | start : Reached s₀ s₀
  | step {s s' : PoolRun κ} {call : PoolCall κ} {answer : PoolAnswer} :
      Reached s₀ s → s.Allowed call → s.step call = some (answer, s') → Reached s₀ s'

end PoolRun

-- ---------------------------------------------------------------------------
-- Where the bytes are
-- ---------------------------------------------------------------------------

namespace PoolRun

variable {κ : Type} {s : PoolRun κ} {f : FrameId} {p : PageId}

/-- A clean frame can be dropped, unless a client has still to unpin its page as dirty. -/
def Saved (s : PoolRun κ) (p : PageId) : Prop :=
  (∃ c, (c, p) ∈ s.changed) ∨ Backed s.stored s.pool.disk p

structure Inv (s : PoolRun κ) : Prop where
  shape : s.pool.Shape
  numbered : Numbered s.stored s.pool.disk
  resident : ∀ p f, s.pool.pageTable p = some f → (s.pool.pages f).latched = false →
    (s.pool.pages f).data = s.stored.bytes p ∧ p.pageNo < s.pool.disk.fd2pageno p.fd ∧
      ((s.pool.pages f).isDirty = false → s.Saved p)
  absent : ∀ p, (∀ f, s.pool.pageTable p = some f → (s.pool.pages f).latched = true) →
    Backed s.stored s.pool.disk p
  pins : ∀ k ∈ s.pins, s.pool.pageTable k.page = some k.frame ∧
    (s.pool.pages k.frame).latched = false
  count : ∀ f < s.pool.poolSize, (s.pool.pages f).latched = false →
    (s.pool.pages f).pinCount = s.pins.countP (·.frame = f)
  changed : ∀ c p, (c, p) ∈ s.changed → ∃ k ∈ s.pins, k.client = c ∧ k.page = p

theorem Inv.start (poolSize : Nat) (fds : FrameId → Int) {disk : DiskManager}
    (hdisk : ∀ fd, (disk.files fd).length ≤ disk.fd2pageno fd) :
    (start poolSize fds disk : PoolRun κ).Inv where
  shape := .init poolSize fds disk
  numbered := {
    holes := fun _ _ hnone hread => nomatch hnone.symm.trans hread
    length := hdisk }
  resident _ _ hp := nomatch hp
  absent _ _ _ hdata := hdata
  pins _ hk := nomatch hk
  count _ _ _ := rfl
  changed _ _ hc := nomatch hc

theorem Inv.not_held (h : s.Inv) (hf : f < s.pool.poolSize)
    (hpin : (s.pool.pages f).pinCount = 0) : ∀ k ∈ s.pins, k.frame ≠ f := by
  have hcount := h.count f hf (h.shape.unlatched hpin)
  rw [hpin, eq_comm, List.countP_eq_zero] at hcount
  intro k hk
  simpa using hcount k hk

/-- Nobody owes anything for the page of an unpinned frame. -/
theorem Inv.not_changed (h : s.Inv) (hf : s.pool.pageTable p = some f)
    (hpin : (s.pool.pages f).pinCount = 0) (c : κ) : (c, p) ∉ s.changed := by
  intro hc
  obtain ⟨k, hk, -, rfl⟩ := h.changed c p hc
  have hframe : f = k.frame := Option.some.inj (hf.symm.trans (h.pins k hk).1)
  exact h.not_held (h.shape.table _ _ hf).1 hpin k hk hframe.symm

/-- Writing the page of a frame to disk writes the bytes last stored in it. -/
theorem Inv.data_eq (h : s.Inv) (hf : f < s.pool.poolSize) (hfree : f ∉ s.pool.freeList)
    (hl : (s.pool.pages f).latched = false) :
    0 ≤ (s.pool.pages f).id.pageNo ∧
      (s.pool.pages f).id.pageNo < s.pool.disk.fd2pageno (s.pool.pages f).id.fd ∧
      (s.pool.pages f).data = s.stored.bytes (s.pool.pages f).id := by
  have htable := h.shape.used f hf hfree hl
  obtain ⟨hdata, hlt, -⟩ := h.resident _ f htable hl
  exact ⟨(h.shape.table _ _ htable).2.2.2, hlt, hdata⟩

/-- The disk after the page of an unpinned frame has been written back if dirty. -/
theorem Inv.writeBack (h : s.Inv) (hf : f < s.pool.poolSize)
    (hpin : (s.pool.pages f).pinCount = 0) :
    Numbered s.stored (BufferPoolManager.writeBack (s.pool.pages f) s.pool.disk) ∧
      (∀ q, Backed s.stored s.pool.disk q →
        Backed s.stored (BufferPoolManager.writeBack (s.pool.pages f) s.pool.disk) q) ∧
      Backed s.stored (BufferPoolManager.writeBack (s.pool.pages f) s.pool.disk)
        (s.pool.pages f).id := by
  have hl := h.shape.unlatched hpin
  by_cases hfree : f ∈ s.pool.freeList
  · -- A free frame is clean, and no page is numbered `noPage`.
    have hvacant := (h.shape.free f hfree).2
    simp only [BufferPoolManager.writeBack, hvacant.clean, Bool.false_eq_true, if_false]
    refine ⟨h.numbered, fun q hq => hq, h.absent _ ?_⟩
    intro g hg
    have hno := (h.shape.table _ g hg).2.2.2
    rw [hvacant.pageNo] at hno
    exact absurd hno (by decide)
  · obtain ⟨hno, hlt, hdata⟩ := h.data_eq hf hfree hl
    have htable := h.shape.used f hf hfree hl
    cases hdirty : (s.pool.pages f).isDirty with
    | true =>
      simp only [BufferPoolManager.writeBack, hdirty, if_true, hdata]
      exact ⟨h.numbered.write hno hlt, fun q hq => hq.write hno, Backed.write_self hno⟩
    | false =>
      simp only [BufferPoolManager.writeBack, hdirty, Bool.false_eq_true, if_false]
      refine ⟨h.numbered, fun q hq => hq, ?_⟩
      rcases (h.resident _ f htable hl).2.2 hdirty with ⟨c, hc⟩ | hbacked
      · exact absurd hc (h.not_changed htable hpin c)
      · exact hbacked

theorem fd2pageno_writeBack (page : Page) (disk : DiskManager) :
    (BufferPoolManager.writeBack page disk).fd2pageno = disk.fd2pageno := by
  simp only [BufferPoolManager.writeBack]
  split <;> rfl

theorem Inv.vacate (h : s.Inv) (hf : f < s.pool.poolSize)
    (hpin : (s.pool.pages f).pinCount = 0) {page : Page} (hpage : page.Vacant)
    {free : List FrameId} (hnodup : free.Nodup)
    (hfree : ∀ g, g ∈ free ↔ g = f ∨ g ∈ s.pool.freeList) :
    ({ s with pool := s.pool.vacated f page free } : PoolRun κ).Inv := by
  obtain ⟨hnumbered, hkeep, hback⟩ := h.writeBack hf hpin
  constructor
  case shape => exact h.shape.vacate hf hpin hpage hnodup hfree
  case numbered => exact hnumbered
  case resident =>
    intro q g hq hl
    obtain ⟨hq', hgf⟩ := h.shape.table_of_update hq
    simp only [BufferPoolManager.vacated, BufferPoolManager.setPage,
      Function.update_of_ne hgf, fd2pageno_writeBack] at hl ⊢
    obtain ⟨hdata, hlt, hsaved⟩ := h.resident q g hq' hl
    exact ⟨hdata, hlt, fun hclean => (hsaved hclean).imp_right (hkeep q)⟩
  case absent =>
    intro q hq
    by_cases hqf : q = (s.pool.pages f).id
    · exact hqf ▸ hback
    · refine hkeep q (h.absent q ?_)
      intro g hg
      have hg' : (s.pool.vacated f page free).pageTable q = some g := by
        simpa [BufferPoolManager.vacated, hqf] using hg
      have hgf := (h.shape.table_of_update hg').2
      simpa [BufferPoolManager.vacated, BufferPoolManager.setPage, hgf] using hq g hg'
  case pins =>
    intro k hk
    obtain ⟨htable, hl⟩ := h.pins k hk
    have hkf := h.not_held hf hpin k hk
    have hpf : k.page ≠ (s.pool.pages f).id := by
      intro heq
      exact hkf (h.shape.frame_unique hf (h.shape.unlatched hpin) (heq ▸ htable))
    simpa [BufferPoolManager.vacated, BufferPoolManager.setPage, hkf, hpf] using ⟨htable, hl⟩
  case count =>
    intro g hg hl
    by_cases hgf : g = f
    · subst hgf
      have := h.count g hf (h.shape.unlatched hpin)
      simpa [BufferPoolManager.vacated, BufferPoolManager.setPage, hpage.unpinned, hpin] using this
    · simp only [BufferPoolManager.vacated, BufferPoolManager.setPage,
        Function.update_of_ne hgf] at hl ⊢
      exact h.count g hg hl
  case changed => exact h.changed

/-- The first free frame is given a page. In `s'` either the call has thrown and the frame is
lost, or a client has a pin on the page. -/
theorem Inv.install (h : s.Inv) (counter : Int → Nat)
    (hcounter : ∀ fd, s.pool.disk.fd2pageno fd ≤ counter fd)
    {rest : List FrameId} (hfree : s.pool.freeList = f :: rest)
    {page : Page} (hno : 0 ≤ page.id.pageNo) (hpin : page.pinCount = 1)
    (htable : ∀ g, s.pool.pageTable page.id = some g → (s.pool.pages g).latched = true)
    {s' : PoolRun κ}
    (hpool : s'.pool = s.pool.installed f page { s.pool.disk with fd2pageno := counter })
    (hnumbered : Numbered s'.stored { s.pool.disk with fd2pageno := counter })
    (hstored : ∀ q, q ≠ page.id → s'.stored q = s.stored q)
    (hpins : (page.latched = true ∧ s'.pins = s.pins) ∨
      (page.latched = false ∧ ∃ c, s'.pins = ⟨c, page.id, f⟩ :: s.pins))
    (hkept : ∀ c q, (c, q) ∈ s.changed → (c, q) ∈ s'.changed)
    (hnew : ∀ c q, (c, q) ∈ s'.changed → (c, q) ∈ s.changed ∨ ⟨c, q, f⟩ ∈ s'.pins)
    (hown : page.latched = false → page.data = s'.stored.bytes page.id ∧
      page.id.pageNo < counter page.id.fd ∧ (page.isDirty = false → s'.Saved page.id))
    (hlost : page.latched = true → Backed s'.stored s.pool.disk page.id) : s'.Inv := by
  have hf : f ∈ s.pool.freeList := hfree ▸ List.mem_cons_self
  obtain ⟨hlt, hvacant⟩ := h.shape.free f hf
  have hheld := h.not_held hlt hvacant.unpinned
  have hne : ∀ g q, s.pool.pageTable q = some g → g ≠ f :=
    fun g q hq heq => (h.shape.table q g hq).2.1 (heq ▸ hf)
  have hbacked : ∀ q, q ≠ page.id → Backed s.stored s.pool.disk q →
      Backed s'.stored s.pool.disk q := by
    intro q hq hb data hdata
    exact hb data (hstored q hq ▸ hdata)
  have hpages : ∀ g, g ≠ f → s'.pool.pages g = s.pool.pages g := by
    intro g hg
    simp [hpool, BufferPoolManager.installed, BufferPoolManager.setPage, hg]
  have hpage : s'.pool.pages f = page := by
    simp [hpool, BufferPoolManager.installed, BufferPoolManager.setPage]
  have htable' : ∀ q, q ≠ page.id → s'.pool.pageTable q = s.pool.pageTable q := by
    intro q hq
    simp [hpool, BufferPoolManager.installed, hq]
  have htableSelf : s'.pool.pageTable page.id = some f := by
    simp [hpool, BufferPoolManager.installed]
  have hdisk : s'.pool.disk = { s.pool.disk with fd2pageno := counter } := by rw [hpool]; rfl
  have hmem : ∀ k ∈ s.pins, k ∈ s'.pins := by
    rcases hpins with ⟨-, hp⟩ | ⟨-, c, hp⟩
    · rw [hp]
      exact fun k hk => hk
    · rw [hp]
      exact fun k hk => List.mem_cons_of_mem _ hk
  constructor
  case shape =>
    rw [hpool]
    exact h.shape.install hfree hno (by omega) htable _
  case numbered => exact hdisk ▸ hnumbered
  case resident =>
    intro q g hq hl
    by_cases hqp : q = page.id
    · subst hqp
      obtain rfl : f = g := Option.some.inj (htableSelf.symm.trans hq)
      rw [hpage] at hl ⊢
      rw [hdisk]
      exact hown hl
    · rw [htable' q hqp] at hq
      rw [hpages g (hne g q hq)] at hl ⊢
      obtain ⟨hdata, hqlt, hsaved⟩ := h.resident q g hq hl
      refine ⟨?_, ?_, fun hclean => ?_⟩
      · rw [hdata, Stored.bytes, Stored.bytes, hstored q hqp]
      · have hle := hcounter q.fd
        simp only [hdisk]
        omega
      · rcases hsaved hclean with ⟨c, hc⟩ | hb
        · exact .inl ⟨c, hkept c q hc⟩
        · exact .inr (hdisk ▸ hbacked q hqp hb)
  case absent =>
    intro q hq
    rw [hdisk]
    by_cases hqp : q = page.id
    · subst hqp
      exact hlost (hpage ▸ hq f htableSelf)
    · refine hbacked q hqp (h.absent q ?_)
      intro g hg
      rw [← hpages g (hne g q hg)]
      exact hq g ((htable' q hqp).trans hg)
  case pins =>
    have hold : ∀ k ∈ s.pins, s'.pool.pageTable k.page = some k.frame ∧
        (s'.pool.pages k.frame).latched = false := by
      intro k hk
      obtain ⟨hkt, hl⟩ := h.pins k hk
      have hkp : k.page ≠ page.id := by
        intro heq
        rw [htable k.frame (heq ▸ hkt)] at hl
        cases hl
      rw [htable' k.page hkp, hpages k.frame (hheld k hk)]
      exact ⟨hkt, hl⟩
    intro k hk
    rcases hpins with ⟨-, hp⟩ | ⟨hl, c, hp⟩
    · exact hold k (hp ▸ hk)
    · rw [hp] at hk
      rcases List.mem_cons.mp hk with rfl | hk
      · exact ⟨htableSelf, hpage ▸ hl⟩
      · exact hold k hk
  case count =>
    intro g hg hl
    have hsize : s'.pool.poolSize = s.pool.poolSize := by rw [hpool]; rfl
    by_cases hgf : g = f
    · subst hgf
      have hzero := h.count g hlt hvacant.unlatched
      rw [hvacant.unpinned] at hzero
      rw [hpage] at hl ⊢
      rcases hpins with ⟨hl', -⟩ | ⟨-, c, hp⟩
      · rw [hl'] at hl
        cases hl
      · rw [hp, List.countP_cons_of_pos (by simp), ← hzero, hpin]
    · rw [hpages g hgf] at hl ⊢
      rw [h.count g (hsize ▸ hg) hl]
      rcases hpins with ⟨-, hp⟩ | ⟨-, c, hp⟩
      · rw [hp]
      · rw [hp, List.countP_cons_of_neg (by simpa using Ne.symm hgf)]
  case changed =>
    intro c q hc
    rcases hnew c q hc with hc | hk
    · obtain ⟨k, hk, hkc⟩ := h.changed c q hc
      exact ⟨k, hmem k hk, hkc⟩
    · exact ⟨_, hk, rfl, rfl⟩

/-- The page in a frame in use changes. Its bytes are those stored in `s'`, and it stays dirty
if it was, unless it is on disk. -/
theorem Inv.modify (h : s.Inv) (page : Page) (hf : s.pool.pageTable p = some f)
    (hlf : (s.pool.pages f).latched = false)
    (hid : page.id = p) (hlatch : page.latched = false) {lru : LRUReplacer}
    (hok : lru.Ok)
    (hlru : ∀ g, g ∈ lru.list ↔
      if g = f then f < s.pool.poolSize ∧ page.pinCount = 0 else g ∈ s.pool.replacer.list)
    {disk : DiskManager} {s' : PoolRun κ}
    (hpool : s'.pool = { s.pool.setPage f page with replacer := lru, disk := disk })
    (hnumbered : Numbered s'.stored disk)
    (hcounter : disk.fd2pageno = s.pool.disk.fd2pageno)
    (hstored : ∀ q, q ≠ p → s'.stored q = s.stored q)
    (hbacked : ∀ q, q ≠ p → Backed s.stored s.pool.disk q → Backed s'.stored disk q)
    (hpage : page.data = s'.stored.bytes p ∧ (page.isDirty = false → s'.Saved p))
    (hpins : ∀ k ∈ s'.pins, k ∈ s.pins ∨ (k.page = p ∧ k.frame = f))
    (hcount : ∀ g, s'.pins.countP (·.frame = g) =
      if g = f then page.pinCount else s.pins.countP (·.frame = g))
    (hkept : ∀ c q, q ≠ p → (c, q) ∈ s.changed → (c, q) ∈ s'.changed)
    (hchanged : ∀ c q, (c, q) ∈ s'.changed → ∃ k ∈ s'.pins, k.client = c ∧ k.page = q) :
    s'.Inv := by
  obtain ⟨hlt, hfree, hfid, hno⟩ := h.shape.table p f hf
  have hne : ∀ g q, q ≠ p → s.pool.pageTable q = some g → g ≠ f := by
    rintro g q hqp hq rfl
    exact hqp ((h.shape.table q g hq).2.2.1.symm.trans hfid)
  have hpages : ∀ g, g ≠ f → s'.pool.pages g = s.pool.pages g := by
    intro g hg
    simp [hpool, BufferPoolManager.setPage, hg]
  have hpagef : s'.pool.pages f = page := by
    simp [hpool, BufferPoolManager.setPage]
  have htable : s'.pool.pageTable = s.pool.pageTable := by rw [hpool]; rfl
  have hdisk : s'.pool.disk = disk := by rw [hpool]
  constructor
  case shape =>
    rw [hpool]
    exact h.shape.modify hfree (hid.trans hfid.symm) (hlatch.trans hlf.symm)
      (fun hl => by cases hlatch.symm.trans hl) hok hlru disk
  case numbered => exact hdisk ▸ hnumbered
  case resident =>
    intro q g hq hl
    rw [htable] at hq
    rw [hdisk, hcounter]
    by_cases hqp : q = p
    · subst hqp
      obtain rfl : f = g := Option.some.inj (hf.symm.trans hq)
      rw [hpagef]
      exact ⟨hpage.1, (h.resident q f hf hlf).2.1, hpage.2⟩
    · rw [hpages g (hne g q hqp hq)] at hl ⊢
      obtain ⟨hdata, hqlt, hsaved⟩ := h.resident q g hq hl
      refine ⟨?_, hqlt, fun hclean => ?_⟩
      · rw [hdata, Stored.bytes, Stored.bytes, hstored q hqp]
      · rcases hsaved hclean with ⟨c, hc⟩ | hb
        · exact .inl ⟨c, hkept c q hqp hc⟩
        · exact .inr (hdisk ▸ hbacked q hqp hb)
  case absent =>
    intro q hq
    rw [htable] at hq
    rw [hdisk]
    by_cases hqp : q = p
    · subst hqp
      have := hq f hf
      rw [hpagef, hlatch] at this
      cases this
    · refine hbacked q hqp (h.absent q ?_)
      intro g hg
      rw [← hpages g (hne g q hqp hg)]
      exact hq g hg
  case pins =>
    intro k hk
    rw [htable]
    rcases hpins k hk with hold | ⟨hkp, hkf⟩
    · obtain ⟨hkt, hl⟩ := h.pins k hold
      refine ⟨hkt, ?_⟩
      by_cases hkf : k.frame = f
      · rw [hkf, hpagef, hlatch]
      · rw [hpages k.frame hkf, hl]
    · rw [hkp, hkf, hpagef]
      exact ⟨hf, hlatch⟩
  case count =>
    intro g hg hl
    have hsize : s'.pool.poolSize = s.pool.poolSize := by rw [hpool]; rfl
    rw [hcount]
    by_cases hgf : g = f
    · subst hgf
      rw [hpagef, if_pos rfl]
    · rw [hpages g hgf] at hl ⊢
      rw [if_neg hgf]
      exact h.count g (hsize ▸ hg) hl
  case changed => exact hchanged

-- ---------------------------------------------------------------------------
-- The calls
-- ---------------------------------------------------------------------------

theorem Inv.evict (h : s.Inv) {b : BufferPoolManager}
    (hv : s.pool.findVictimPage = some (f, b)) :
    ({ s with pool := s.pool.evicted f } : PoolRun κ).Inv := by
  obtain ⟨hf, hpin, -⟩ := h.shape.victim hv
  refine h.vacate hf hpin BufferPoolManager.vacantPage_vacant ?_ ?_
  · rw [List.nodup_cons, h.shape.free_nodup.mem_erase_iff]
    exact ⟨fun hmem => hmem.1 rfl, h.shape.free_nodup.erase f⟩
  · intro g
    rw [List.mem_cons, h.shape.free_nodup.mem_erase_iff]
    by_cases hgf : g = f <;> simp [hgf]

/-- What a fetched frame contains, and what is left behind when there is none. -/
theorem Inv.fetchPage (h : s.Inv) (hno : 0 ≤ p.pageNo) {r : Fetched} {b : BufferPoolManager}
    (hr : s.pool.fetchPage p = some (r, b)) :
    match r with
    | .page f => (b.pages f).data = s.stored.bytes p ∧
        ∀ c, ({ s with pool := b, pins := ⟨c, p, f⟩ :: s.pins } : PoolRun κ).Inv
    | .null => b = s.pool ∧ ∀ f < s.pool.poolSize, 0 < (s.pool.pages f).pinCount
    | .threw => s.stored p = none ∧ ({ s with pool := b } : PoolRun κ).Inv := by
  cases hp : s.pool.pageTable p with
  | some f =>
    have hl : (s.pool.pages f).latched = false := by
      by_contra hl
      simp [BufferPoolManager.fetchPage, hp, hl] at hr
    simp only [BufferPoolManager.fetchPage, hp, hl, Bool.false_eq_true, if_false,
      Option.some.injEq, Prod.mk.injEq] at hr
    obtain ⟨rfl, rfl⟩ := hr
    obtain ⟨hdata, -, hsaved⟩ := h.resident p f hp hl
    obtain ⟨hlt, -, hid, -⟩ := h.shape.table p f hp
    refine ⟨by simpa [BufferPoolManager.setPage] using hdata, fun c => ?_⟩
    refine h.modify _ hp hl ?_ ?_ (h.shape.lru_ok.pin f) ?_ rfl h.numbered rfl
      (fun _ _ => rfl) (fun _ _ hq => hq) ⟨hdata, hsaved⟩ ?_ ?_ (fun _ _ _ hc => hc) ?_
    · exact hid
    · rfl
    · intro g
      rw [h.shape.lru_ok.mem_pin]
      by_cases hgf : g = f <;> simp [hgf]
    · intro k hk
      rcases List.mem_cons.mp hk with rfl | hk
      · exact .inr ⟨rfl, rfl⟩
      · exact .inl hk
    · intro g
      by_cases hgf : g = f
      · subst hgf
        simp [h.count g hlt hl]
      · simp [hgf, Ne.symm hgf]
    · intro c' q hc
      obtain ⟨k, hk, hkc⟩ := h.changed c' q hc
      exact ⟨k, List.mem_cons_of_mem _ hk, hkc⟩
  | none =>
    cases hv : s.pool.findVictimPage with
    | none =>
      simp only [BufferPoolManager.fetchPage, hp, hv, Option.some.injEq, Prod.mk.injEq] at hr
      obtain ⟨rfl, rfl⟩ := hr
      exact ⟨rfl, h.shape.pinned_of_no_victim hv⟩
    | some victim =>
      obtain ⟨f, b'⟩ := victim
      have he := h.evict hv
      have hfree : (s.pool.evicted f).freeList = f :: s.pool.freeList.erase f := rfl
      have hp' : (s.pool.evicted f).pageTable p = none := by
        simp only [BufferPoolManager.evicted, BufferPoolManager.vacated, Function.update_apply, hp,
          ite_self]
      have htable : ∀ g, (s.pool.evicted f).pageTable p = some g →
          ((s.pool.evicted f).pages g).latched = true := by
        intro g hg
        cases hp'.symm.trans hg
      have hbacked := he.absent p htable
      rw [BufferPoolManager.fetchPage_miss h.shape hp hv] at hr
      cases hread : (s.pool.evicted f).disk.readPage p with
      | some data =>
        simp only [hread, Option.some.injEq, Prod.mk.injEq] at hr
        obtain ⟨rfl, rfl⟩ := hr
        have hdata : data = s.stored.bytes p := hbacked.read he.numbered hread
        refine ⟨?_, fun c => ?_⟩
        · simpa [BufferPoolManager.installed, BufferPoolManager.setPage] using hdata
        · refine he.install _ (fun _ => Nat.le_refl _) hfree hno rfl htable rfl he.numbered
            (fun _ _ => rfl) (.inr ⟨rfl, c, rfl⟩) (fun _ _ hc => hc) (fun _ _ hc => .inl hc)
            ?_ (fun hl => by cases hl)
          intro _
          exact ⟨hdata, DiskManager.pageNo_lt_of_readPage (he.numbered.length p.fd) hread,
            fun _ => .inr hbacked⟩
      | none =>
        simp only [hread, Option.some.injEq, Prod.mk.injEq] at hr
        obtain ⟨rfl, rfl⟩ := hr
        refine ⟨?_, ?_⟩
        · by_contra hs
          obtain ⟨data, hdata⟩ := Option.ne_none_iff_exists'.mp hs
          cases hread.symm.trans (hbacked data hdata)
        · exact he.install _ (fun _ => Nat.le_refl _) hfree hno rfl htable rfl he.numbered
            (fun _ _ => rfl) (.inl ⟨rfl, rfl⟩) (fun _ _ hc => hc) (fun _ _ hc => .inl hc)
            (fun hl => by cases hl) (fun _ => hbacked)

theorem Inv.newPage (h : s.Inv) {fd : Int} {r : Fetched} {pageNo : Int} {b : BufferPoolManager}
    (hr : s.pool.newPage fd = some (r, pageNo, b)) :
    match r with
    | .page f => ∀ c, ({ s with
        pool := b
        stored := Function.update s.stored ⟨fd, pageNo⟩ (some PageData.zero)
        pins := ⟨c, ⟨fd, pageNo⟩, f⟩ :: s.pins
        changed := (c, ⟨fd, pageNo⟩) :: s.changed } : PoolRun κ).Inv
    | .null => b = s.pool ∧ ∀ f < s.pool.poolSize, 0 < (s.pool.pages f).pinCount
    | .threw => False := by
  cases hv : s.pool.findVictimPage with
  | none =>
    simp only [BufferPoolManager.newPage, hv, Option.some.injEq, Prod.mk.injEq] at hr
    obtain ⟨rfl, -, rfl⟩ := hr
    exact ⟨rfl, h.shape.pinned_of_no_victim hv⟩
  | some victim =>
    obtain ⟨f, b'⟩ := victim
    have he := h.evict hv
    have hfree : (s.pool.evicted f).freeList = f :: s.pool.freeList.erase f := rfl
    rw [BufferPoolManager.newPage_victim h.shape hv] at hr
    simp only [Option.some.injEq, Prod.mk.injEq] at hr
    obtain ⟨rfl, rfl, rfl⟩ := hr
    intro c
    have hcounter : s.pool.disk.fd2pageno = (s.pool.evicted f).disk.fd2pageno :=
      (fd2pageno_writeBack _ _).symm
    rw [hcounter]
    -- The number is new: only a call that threw can have left it in the table.
    have htable : ∀ g, (s.pool.evicted f).pageTable
          ⟨fd, ((s.pool.evicted f).disk.fd2pageno fd : Int)⟩ = some g →
        ((s.pool.evicted f).pages g).latched = true := by
      intro g hg
      by_contra hl
      have := (he.resident _ g hg (by simpa using hl)).2.1
      exact absurd this (Int.lt_irrefl _)
    have hgrow : ∀ fd', (s.pool.evicted f).disk.fd2pageno fd' ≤
        Function.update (s.pool.evicted f).disk.fd2pageno fd
          ((s.pool.evicted f).disk.fd2pageno fd + 1) fd' := by
      intro fd'
      by_cases hfd : fd' = fd
      · subst hfd
        simp
      · simp [hfd]
    refine he.install (Function.update _ fd _) ?_ hfree (Int.natCast_nonneg _) rfl htable rfl ?_ ?_
      (.inr ⟨rfl, c, rfl⟩) (fun _ _ hc => List.mem_cons_of_mem _ hc) ?_ ?_ (fun hl => by cases hl)
    · exact hgrow
    · refine ⟨fun q data hq hread => ?_, fun fd' => ?_⟩
      · by_cases hqp : q = ⟨fd, ((s.pool.evicted f).disk.fd2pageno fd : Int)⟩
        · subst hqp
          simp only [Function.update_self] at hq
          cases hq
        · simp only [Function.update_of_ne hqp] at hq
          exact he.numbered.holes q data hq hread
      · exact Nat.le_trans (he.numbered.length fd') (hgrow fd')
    · intro q hq
      exact Function.update_of_ne hq _ _
    · intro c' q hc
      rcases List.mem_cons.mp hc with heq | hc
      · obtain ⟨rfl, rfl⟩ := Prod.mk.inj heq
        exact .inr List.mem_cons_self
      · exact .inl hc
    · intro _
      refine ⟨by simp [Stored.bytes], ?_, fun _ => .inl ⟨c, List.mem_cons_self⟩⟩
      rw [Function.update_self]
      exact Int.lt_succ _

theorem Inv.lru_same (h : s.Inv) (hf : s.pool.pageTable p = some f) {page : Page}
    (hpin : page.pinCount = (s.pool.pages f).pinCount) (g : FrameId) :
    g ∈ s.pool.replacer.list ↔
      if g = f then f < s.pool.poolSize ∧ page.pinCount = 0 else g ∈ s.pool.replacer.list := by
  by_cases hgf : g = f
  · subst hgf
    rw [if_pos rfl, h.shape.lru g, hpin]
    simp only [(h.shape.table p g hf).2.1, not_false_eq_true, true_and]
  · rw [if_neg hgf]

theorem Inv.count_same (h : s.Inv) (hf : s.pool.pageTable p = some f)
    (hl : (s.pool.pages f).latched = false) {page : Page}
    (hpin : page.pinCount = (s.pool.pages f).pinCount) (g : FrameId) :
    s.pins.countP (·.frame = g) =
      if g = f then page.pinCount else s.pins.countP (·.frame = g) := by
  by_cases hgf : g = f
  · subst hgf
    rw [if_pos rfl, hpin, h.count g (h.shape.table p g hf).1 hl]
  · rw [if_neg hgf]

theorem Inv.store (h : s.Inv) {k : Pin κ} (hk : k ∈ s.pins) (data : PageData) :
    ({ s with
      pool := s.pool.setPage k.frame { s.pool.pages k.frame with data := data }
      stored := Function.update s.stored k.page (some data)
      changed := (k.client, k.page) :: s.changed } : PoolRun κ).Inv := by
  obtain ⟨hp, hl⟩ := h.pins k hk
  refine h.modify { s.pool.pages k.frame with data := data } hp hl (h.shape.table _ _ hp).2.2.1
    hl h.shape.lru_ok (h.lru_same hp rfl) rfl ?_ rfl ?_ ?_ ⟨?_, ?_⟩ (fun _ hk => .inl hk)
    (h.count_same hp hl rfl) (fun _ _ _ hc => List.mem_cons_of_mem _ hc) ?_
  case refine_1 =>
    refine ⟨fun q data' hq hread => ?_, h.numbered.length⟩
    by_cases hqp : q = k.page
    · subst hqp
      simp only [Function.update_self] at hq
      cases hq
    · simp only [Function.update_of_ne hqp] at hq
      exact h.numbered.holes q data' hq hread
  case refine_2 => exact fun q hq => Function.update_of_ne hq _ _
  case refine_3 =>
    intro q hq hb data' hdata'
    simp only [Function.update_of_ne hq] at hdata'
    exact hb data' hdata'
  case refine_4 => simp [Stored.bytes]
  case refine_5 => exact fun _ => .inl ⟨k.client, List.mem_cons_self⟩
  case refine_6 =>
    intro c q hc
    rcases List.mem_cons.mp hc with heq | hc
    · obtain ⟨rfl, rfl⟩ := Prod.mk.inj heq
      exact ⟨k, hk, rfl, rfl⟩
    · exact h.changed c q hc

theorem Inv.unpinPage [DecidableEq κ] (h : s.Inv) {k : Pin κ} {isDirty answer : Bool}
    {b : BufferPoolManager} (hallowed : s.Allowed (.unpinPage k isDirty))
    (hr : s.pool.unpinPage k.page isDirty = some (answer, b)) :
    ({ s with
      pool := b
      pins := s.pins.erase k
      changed := if isDirty then s.changed.filter (· ≠ (k.client, k.page)) else s.changed } :
        PoolRun κ).Inv := by
  obtain ⟨hk, hlast⟩ := hallowed
  obtain ⟨hp, hl⟩ := h.pins k hk
  obtain ⟨hlt, hfree, hid, -⟩ := h.shape.table _ _ hp
  have hcount := h.count k.frame hlt hl
  have hpos : 0 < s.pins.countP (·.frame = k.frame) :=
    List.countP_pos_iff.mpr ⟨k, hk, by simp⟩
  have hpin : (s.pool.pages k.frame).pinCount ≠ 0 := by omega
  simp only [BufferPoolManager.unpinPage, hp, hl, hpin, Bool.false_eq_true, if_false,
    Option.some.injEq, Prod.mk.injEq] at hr
  obtain ⟨rfl, rfl⟩ := hr
  obtain ⟨hdata, -, hsaved⟩ := h.resident _ _ hp hl
  have hlru : k.frame ∉ s.pool.replacer.list := fun hmem => hpin ((h.shape.lru _).mp hmem).2.2
  refine h.modify _ hp hl ?_ ?_ ?_ ?_ rfl h.numbered rfl (fun _ _ => rfl) (fun _ _ hq => hq)
    ⟨hdata, ?_⟩ (fun k' hk' => .inl (List.mem_of_mem_erase hk')) ?_ ?_ ?_
  case refine_1 => exact hid
  case refine_2 => rfl
  case refine_3 =>
    split
    · exact h.shape.lru_ok.unpin hlru
    · exact h.shape.lru_ok
  case refine_4 =>
    intro g
    by_cases hgf : g = k.frame
    · subst hgf
      by_cases hzero : (s.pool.pages k.frame).pinCount - 1 = 0
      · simp [hzero, LRUReplacer.unpin_of_notMem h.shape.lru_ok hlru, hlt]
      · simp [hzero, hlru]
    · rw [if_neg hgf]
      split
      · simp [LRUReplacer.unpin_of_notMem h.shape.lru_ok hlru, hgf]
      · rfl
  case refine_5 =>
    intro hclean
    cases isDirty with
    | true => simp at hclean
    | false => exact hsaved (by simpa using hclean)
  case refine_6 =>
    intro g
    rw [List.countP_erase]
    by_cases hgf : g = k.frame
    · subst hgf
      simp [hk, hcount]
    · simp [hgf, Ne.symm hgf]
  case refine_7 =>
    intro c q hqp hc
    cases isDirty with
    | true => simp [hc, hqp]
    | false => exact hc
  case refine_8 =>
    intro c q hc
    have hold : (c, q) ∈ s.changed := by
      cases isDirty with
      | true => exact (List.mem_filter.mp hc).1
      | false => exact hc
    obtain ⟨k', hk', rfl, rfl⟩ := h.changed c q hold
    by_cases hkk : k' = k
    · subst hkk
      cases isDirty with
      | true => simp at hc
      | false => exact hlast rfl hold
    · exact ⟨k', (List.mem_erase_of_ne hkk).mpr hk', rfl, rfl⟩

theorem Inv.flush (h : s.Inv) (hp : s.pool.pageTable p = some f)
    (hl : (s.pool.pages f).latched = false) :
    ({ s with pool := { s.pool.setPage f { s.pool.pages f with isDirty := false } with
      disk := s.pool.disk.writePage (s.pool.pages f).id (s.pool.pages f).data } } :
        PoolRun κ).Inv := by
  obtain ⟨hdata, hlt, -⟩ := h.resident p f hp hl
  obtain ⟨-, -, hid, hno⟩ := h.shape.table p f hp
  rw [hid, hdata]
  exact h.modify { s.pool.pages f with isDirty := false } hp hl hid hl h.shape.lru_ok
    (h.lru_same hp rfl) rfl (h.numbered.write hno hlt) rfl (fun _ _ => rfl)
    (fun _ _ hq => hq.write hno) ⟨hdata, fun _ => .inr (Backed.write_self hno)⟩
    (fun _ hk => .inl hk) (h.count_same hp hl rfl) (fun _ _ _ hc => hc) h.changed

theorem Inv.flushPage (h : s.Inv) {answer : Bool} {b : BufferPoolManager}
    (hr : s.pool.flushPage p = some (answer, b)) : ({ s with pool := b } : PoolRun κ).Inv := by
  simp only [BufferPoolManager.flushPage] at hr
  split at hr
  · cases hr
    exact h
  · rename_i f hp
    split at hr
    · cases hr
    · rename_i hl
      cases hr
      exact h.flush hp (by simpa using hl)

/-- The frame of an unpinned page joins the free list. -/
theorem Inv.release (h : s.Inv) (hp : s.pool.pageTable p = some f)
    (hpin : (s.pool.pages f).pinCount = 0) {page : Page} (hpage : page.Vacant) :
    ({ s with pool := s.pool.vacated f page (s.pool.freeList ++ [f]) } : PoolRun κ).Inv := by
  obtain ⟨hlt, hfree, -, -⟩ := h.shape.table p f hp
  refine h.vacate hlt hpin hpage ?_ ?_
  · refine List.nodup_append'.mpr ⟨h.shape.free_nodup, List.nodup_singleton f, ?_⟩
    simpa using hfree
  · intro g
    rw [List.mem_append, List.mem_singleton]
    exact or_comm

theorem Inv.deletePage (h : s.Inv) {answer : Bool} {b : BufferPoolManager}
    (hr : s.pool.deletePage p = some (answer, b)) : ({ s with pool := b } : PoolRun κ).Inv := by
  simp only [BufferPoolManager.deletePage] at hr
  split at hr
  · cases hr
    exact h
  · rename_i f hp
    split at hr
    · cases hr
    · split at hr
      · cases hr
        exact h
      · rename_i hpin
        cases hr
        have hzero : (s.pool.pages f).pinCount = 0 := by omega
        rw [hzero, ← (h.shape.table p f hp).2.2.1]
        exact h.release hp hzero BufferPoolManager.vacantPage_vacant

theorem Inv.freeFrame (h : s.Inv) (hp : s.pool.pageTable p = some f) (hfree : s.Freeable f) :
    ({ s with pool := s.pool.freeFrame p f } : PoolRun κ).Inv := by
  obtain ⟨hpin, hclean⟩ := hfree
  have heq : s.pool.freeFrame p f =
      s.pool.vacated f { s.pool.pages f with id := ⟨(s.pool.pages f).id.fd, noPage⟩ }
        (s.pool.freeList ++ [f]) := by
    simp only [BufferPoolManager.freeFrame, BufferPoolManager.vacated,
      BufferPoolManager.writeBack, hclean, (h.shape.table p f hp).2.2.1, Bool.false_eq_true,
      if_false]
    rfl
  rw [heq]
  exact h.release hp hpin ⟨rfl, hclean, hpin, h.shape.unlatched hpin⟩

theorem Inv.freePage (h : s.Inv) (hfree : ∀ f, s.pool.pageTable p = some f → s.Freeable f)
    {b : BufferPoolManager} (hr : s.pool.freePage p = some b) :
    ({ s with pool := b } : PoolRun κ).Inv := by
  simp only [BufferPoolManager.freePage] at hr
  split at hr
  · cases hr
    exact h
  · rename_i f hp
    split at hr
    · cases hr
    · cases hr
      exact h.freeFrame hp (hfree f hp)

/-- A frame whose id is a page number is in use. -/
theorem Inv.in_use (h : s.Inv) (hf : f < s.pool.poolSize)
    (hl : (s.pool.pages f).latched = false) (hno : (s.pool.pages f).id.pageNo ≠ noPage) :
    s.pool.pageTable (s.pool.pages f).id = some f :=
  h.shape.used f hf (fun hfree => hno (h.shape.free f hfree).2.pageNo) hl

theorem Inv.flushAllPages (h : s.Inv) {fd : Int} {b : BufferPoolManager}
    (hr : s.pool.flushAllPages fd = some b) : ({ s with pool := b } : PoolRun κ).Inv := by
  let P (b : BufferPoolManager) : Prop :=
    ({ s with pool := b } : PoolRun κ).Inv ∧ b.poolSize = s.pool.poolSize
  suffices hP : P b from hP.1
  refine BufferPoolManager.loop_inv ?_ ⟨h, rfl⟩ hr
  rintro b b' f hf ⟨hb, hsize⟩ hr
  have hlt : f < b.poolSize := hsize ▸ List.mem_range.mp hf
  simp only [BufferPoolManager.flushFrame] at hr
  split at hr
  · cases hr
  · rename_i hl
    split at hr
    · rename_i hid
      cases hr
      have hl' : (b.pages f).latched = false := by simpa using hl
      exact ⟨hb.flush (hb.in_use hlt hl' hid.1) hl', hsize⟩
    · cases hr
      exact ⟨hb, hsize⟩

theorem Inv.freeAllPages (h : s.Inv) {fd : Int}
    (hfree : ∀ f < s.pool.poolSize, (s.pool.pages f).id.pageNo ≠ noPage →
      (s.pool.pages f).id.fd = fd → s.Freeable f)
    {b : BufferPoolManager} (hr : s.pool.freeAllPages fd = some b) :
    ({ s with pool := b } : PoolRun κ).Inv := by
  -- A freed frame has no page number any more, so what is asserted stays true of all others.
  let P (b : BufferPoolManager) : Prop :=
    ({ s with pool := b } : PoolRun κ).Inv ∧ b.poolSize = s.pool.poolSize ∧
      ∀ f < s.pool.poolSize, (b.pages f).id.pageNo ≠ noPage → (b.pages f).id.fd = fd →
        ({ s with pool := b } : PoolRun κ).Freeable f
  suffices hP : P b from hP.1
  refine BufferPoolManager.loop_inv ?_ ⟨h, rfl, hfree⟩ hr
  rintro b b' f hf ⟨hb, hsize, hfree⟩ hr
  replace hf := List.mem_range.mp hf
  simp only [BufferPoolManager.freeFrameOf] at hr
  split at hr
  · cases hr
  · rename_i hl
    split at hr
    · rename_i hid
      cases hr
      have htable := hb.in_use (hsize ▸ hf) (by simpa using hl) hid.1
      refine ⟨hb.freeFrame htable (hfree f hf hid.1 hid.2), hsize, ?_⟩
      intro g hg hno hfd
      by_cases hgf : g = f
      · subst hgf
        simp [BufferPoolManager.freeFrame, BufferPoolManager.setPage] at hno
      · simp only [Freeable, BufferPoolManager.freeFrame, BufferPoolManager.setPage,
          Function.update_of_ne hgf] at hno hfd ⊢
        exact hfree g hg hno hfd
    · cases hr
      exact ⟨hb, hsize, hfree⟩

theorem fetchPage_poolSize (h : s.Inv) {r : Fetched} {b : BufferPoolManager}
    (hr : s.pool.fetchPage p = some (r, b)) : b.poolSize = s.pool.poolSize := by
  cases hp : s.pool.pageTable p with
  | some f =>
    simp only [BufferPoolManager.fetchPage, hp] at hr
    split at hr <;> cases hr
    rfl
  | none =>
    cases hv : s.pool.findVictimPage with
    | none =>
      simp only [BufferPoolManager.fetchPage, hp, hv] at hr
      cases hr
      rfl
    | some victim =>
      rw [BufferPoolManager.fetchPage_miss h.shape hp hv] at hr
      split at hr <;> cases hr <;> rfl

theorem newPage_poolSize (h : s.Inv) {fd pageNo : Int} {r : Fetched} {b : BufferPoolManager}
    (hr : s.pool.newPage fd = some (r, pageNo, b)) : b.poolSize = s.pool.poolSize := by
  cases hv : s.pool.findVictimPage with
  | none =>
    simp only [BufferPoolManager.newPage, hv] at hr
    cases hr
    rfl
  | some victim =>
    rw [BufferPoolManager.newPage_victim h.shape hv] at hr
    cases hr
    rfl

-- ---------------------------------------------------------------------------
-- Runs
-- ---------------------------------------------------------------------------

variable [DecidableEq κ] {s' : PoolRun κ} {call : PoolCall κ} {answer : PoolAnswer}

theorem Inv.step (h : s.Inv) (hallowed : s.Allowed call)
    (hstep : s.step call = some (answer, s')) : s'.Inv := by
  cases call with
  | newPage c fd =>
    simp only [PoolRun.step] at hstep
    split at hstep
    · cases hstep
    all_goals
      rename_i hr
      cases hstep
    · exact (h.newPage hr) c
    · obtain ⟨rfl, -⟩ := h.newPage hr
      exact h
    · exact (h.newPage hr).elim
  | fetchPage c p =>
    simp only [PoolRun.step] at hstep
    split at hstep
    · cases hstep
    all_goals
      rename_i hr
      cases hstep
    · exact (h.fetchPage hallowed hr).2 c
    · obtain ⟨rfl, -⟩ := h.fetchPage hallowed hr
      exact h
    · exact (h.fetchPage hallowed hr).2
  | store k data =>
    cases hstep
    exact h.store hallowed data
  | unpinPage k isDirty =>
    obtain ⟨⟨r, b⟩, hr, heq⟩ := Option.map_eq_some_iff.mp hstep
    cases heq
    exact h.unpinPage hallowed hr
  | flushPage p =>
    obtain ⟨⟨r, b⟩, hr, heq⟩ := Option.map_eq_some_iff.mp hstep
    cases heq
    exact h.flushPage hr
  | flushAllPages fd =>
    obtain ⟨b, hr, heq⟩ := Option.map_eq_some_iff.mp hstep
    cases heq
    exact h.flushAllPages hr
  | deletePage p =>
    obtain ⟨⟨r, b⟩, hr, heq⟩ := Option.map_eq_some_iff.mp hstep
    cases heq
    exact h.deletePage hr
  | freePage p =>
    obtain ⟨b, hr, heq⟩ := Option.map_eq_some_iff.mp hstep
    cases heq
    exact h.freePage hallowed hr
  | freeAllPages fd =>
    obtain ⟨b, hr, heq⟩ := Option.map_eq_some_iff.mp hstep
    cases heq
    exact h.freeAllPages hallowed hr

theorem step_poolSize (h : s.Inv) (hstep : s.step call = some (answer, s')) :
    s'.pool.poolSize = s.pool.poolSize := by
  cases call with
  | newPage c fd =>
    simp only [PoolRun.step] at hstep
    split at hstep <;> cases hstep
    all_goals exact newPage_poolSize h ‹_›
  | fetchPage c p =>
    simp only [PoolRun.step] at hstep
    split at hstep <;> cases hstep
    all_goals exact fetchPage_poolSize h ‹_›
  | store k data =>
    cases hstep
    rfl
  | unpinPage k isDirty =>
    obtain ⟨⟨r, b⟩, hr, heq⟩ := Option.map_eq_some_iff.mp hstep
    cases heq
    simp only [BufferPoolManager.unpinPage] at hr
    repeat' split at hr
    all_goals cases hr
    all_goals rfl
  | flushPage p =>
    obtain ⟨⟨r, b⟩, hr, heq⟩ := Option.map_eq_some_iff.mp hstep
    cases heq
    simp only [BufferPoolManager.flushPage] at hr
    repeat' split at hr
    all_goals cases hr
    all_goals rfl
  | flushAllPages fd =>
    obtain ⟨b, hr, heq⟩ := Option.map_eq_some_iff.mp hstep
    cases heq
    refine BufferPoolManager.loop_inv (P := fun b => b.poolSize = s.pool.poolSize) ?_ rfl hr
    intro b b' f _ hb hr
    simp only [BufferPoolManager.flushFrame] at hr
    repeat' split at hr
    all_goals cases hr
    all_goals exact hb
  | deletePage p =>
    obtain ⟨⟨r, b⟩, hr, heq⟩ := Option.map_eq_some_iff.mp hstep
    cases heq
    simp only [BufferPoolManager.deletePage] at hr
    repeat' split at hr
    all_goals cases hr
    all_goals rfl
  | freePage p =>
    obtain ⟨b, hr, heq⟩ := Option.map_eq_some_iff.mp hstep
    cases heq
    simp only [BufferPoolManager.freePage] at hr
    repeat' split at hr
    all_goals cases hr
    all_goals rfl
  | freeAllPages fd =>
    obtain ⟨b, hr, heq⟩ := Option.map_eq_some_iff.mp hstep
    cases heq
    refine BufferPoolManager.loop_inv (P := fun b => b.poolSize = s.pool.poolSize) ?_ rfl hr
    intro b b' f _ hb hr
    simp only [BufferPoolManager.freeFrameOf] at hr
    repeat' split at hr
    all_goals cases hr
    all_goals exact hb

/-- What one call answers. -/
theorem Inv.answered (h : s.Inv) (hallowed : s.Allowed call)
    (hstep : s.step call = some (answer, s')) :
    (∀ c p, call = .fetchPage c p →
      (∀ data, answer = .page data → data = s.stored.bytes p) ∧
      (∀ data, s.stored p = some data → answer ≠ .threw)) ∧
    (answer = .null → ∀ f < s.pool.poolSize, 0 < (s.pool.pages f).pinCount) := by
  cases call with
  | newPage c fd =>
    refine ⟨fun _ _ hcall => (nomatch hcall), ?_⟩
    rintro rfl
    simp only [PoolRun.step] at hstep
    split at hstep
    · cases hstep
    · cases hstep
    · rename_i hr
      exact (h.newPage hr).2
    · cases hstep
  | fetchPage c p =>
    simp only [PoolRun.step] at hstep
    split at hstep
    · cases hstep
    all_goals
      rename_i hr
      have hfetched := h.fetchPage hallowed hr
      cases hstep
    · refine ⟨fun _ _ hcall => ?_, fun hnull => nomatch hnull⟩
      cases hcall
      refine ⟨fun data hdata => ?_, fun _ _ hthrew => nomatch hthrew⟩
      cases hdata
      exact hfetched.1
    · refine ⟨fun _ _ _ => ?_, fun _ => hfetched.2⟩
      exact ⟨fun _ hpage => (nomatch hpage), fun _ _ hthrew => nomatch hthrew⟩
    · refine ⟨fun _ _ hcall => ?_, fun hnull => nomatch hnull⟩
      cases hcall
      refine ⟨fun _ hpage => (nomatch hpage), fun data hdata _ => ?_⟩
      cases hfetched.1.symm.trans hdata
  | store | unpinPage | flushPage | flushAllPages | deletePage | freePage | freeAllPages =>
    -- These calls answer with a flag or with nothing.
    refine ⟨fun _ _ hcall => (nomatch hcall), ?_⟩
    rintro rfl
    simp [PoolRun.step] at hstep

theorem Reached.inv {s₀ : PoolRun κ} (h : Reached s₀ s) (h₀ : s₀.Inv) : s.Inv := by
  induction h with
  | start => exact h₀
  | step _ hallowed hstep ih => exact ih.step hallowed hstep

theorem Reached.poolSize {s₀ : PoolRun κ} (h : Reached s₀ s) (h₀ : s₀.Inv) :
    s.pool.poolSize = s₀.pool.poolSize := by
  induction h with
  | start => rfl
  | step hs _ hstep ih => exact (step_poolSize (hs.inv h₀) hstep).trans ih

end PoolRun

/-- In every run of a pool of any size, over files whose pages are all numbered below
`fd2pageno_`: a page that is fetched has the bytes last stored in it, a page in which something
was stored can be fetched, and there is no page only when every frame is pinned. -/
theorem bufferPool_transparent {κ : Type} [DecidableEq κ] (poolSize : Nat) (fds : FrameId → Int)
    (disk : DiskManager) (hdisk : ∀ fd, (disk.files fd).length ≤ disk.fd2pageno fd)
    (s s' : PoolRun κ) (hs : PoolRun.Reached (.start poolSize fds disk) s)
    (call : PoolCall κ) (hallowed : s.Allowed call) (answer : PoolAnswer)
    (hstep : s.step call = some (answer, s')) :
    (∀ c p, call = .fetchPage c p →
      (∀ data, answer = .page data → data = s.stored.bytes p) ∧
      (∀ data, s.stored p = some data → answer ≠ .threw)) ∧
    (answer = .null → ∀ f < poolSize, 0 < (s.pool.pages f).pinCount) := by
  have h := hs.inv (PoolRun.Inv.start poolSize fds hdisk)
  have hanswer := h.answered hallowed hstep
  rw [hs.poolSize (PoolRun.Inv.start poolSize fds hdisk)] at hanswer
  exact hanswer

theorem PoolRun.Reached.next {κ : Type} [DecidableEq κ] {s₀ s : PoolRun κ} (h : Reached s₀ s)
    (call : PoolCall κ) (hallowed : s.Allowed call) (hstep : (s.step call).isSome) :
    Reached s₀ ((s.step call).get hstep).2 :=
  .step h hallowed (Option.some_get hstep).symm

/-- A pool of one frame. Page 0 is created, changed and unpinned, page 1 takes its frame and is
unpinned as well, and page 0 is fetched. -/
theorem bufferPool_transparent_evicted : ∃ (s s' : PoolRun Unit) (data : PageData),
    PoolRun.Reached (.start 1 (fun _ => -1) ⟨fun _ => [], fun _ => 0⟩) s ∧
      s.step (.fetchPage () ⟨3, 0⟩) = some (.page data, s') ∧
      data = Vector.replicate pageSize 7 := by
  have h₁ := (@PoolRun.Reached.start Unit _
    (.start 1 (fun _ => -1) ⟨fun _ => [], fun _ => 0⟩)).next (.newPage () 3) trivial rfl
  have h₂ := h₁.next (.store ⟨(), ⟨3, 0⟩, 0⟩ (Vector.replicate pageSize 7)) (.head _) rfl
  have h₃ := h₂.next (.unpinPage ⟨(), ⟨3, 0⟩, 0⟩ true) ⟨.head _, fun h => nomatch h⟩ rfl
  have h₄ := h₃.next (.newPage () 3) trivial rfl
  have h₅ := h₄.next (.unpinPage ⟨(), ⟨3, 1⟩, 0⟩ true) ⟨.head _, fun h => nomatch h⟩ rfl
  refine ⟨_, _, _, h₅, rfl, ?_⟩
  exact ((bufferPool_transparent 1 (fun _ => -1) ⟨fun _ => [], fun _ => 0⟩ (fun _ => Nat.le_refl 0)
    _ _ h₅ (.fetchPage () ⟨3, 0⟩) (Int.le_refl 0) _ rfl).1 () ⟨3, 0⟩ rfl).1 _ rfl

end Rmdb
