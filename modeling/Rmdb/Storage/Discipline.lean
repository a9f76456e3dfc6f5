-- SUMMARY: In which runs every frame of the pool is free, evictable or pinned, and no page is in two frames.
import Rmdb.Storage.DiskOutcome

/-!
# The frames of the pool

A call that throws can leave a frame that is in no place at all, or one that is still in the page table
although its page is not in it. A `fetch_page` whose read throws does neither of these by itself: its
frame is in the table and pinned. But it stays there until `new_page` gives its page number to another
frame. As long as `new_page` allocates no number that is resident, and no page has to be written back in
vain for another one, the page table and the frames in use are in bijection, and every frame is in exactly
one place.

`flush_page`, `flush_all_pages` and `delete_page` may throw: the latch of the frame stays held, and no call
that takes this frame returns any more.
-/

namespace Rmdb

/-- What a frame in the free list holds: no page, unless `delete_page` has thrown over it. -/
structure Page.Given (page : Page) : Prop where
  unpinned : page.pinCount = 0
  pageNo : page.latched = false → page.id.pageNo = noPage

namespace BufferPoolManager

variable {b b' : BufferPoolManager} {f : FrameId} {p : PageId} {io : DiskOutcome}

-- ---------------------------------------------------------------------------
-- The discipline
-- ---------------------------------------------------------------------------

/-- The page table leads to the frame for the page that it holds. -/
def Resident (b : BufferPoolManager) (f : FrameId) : Prop := b.pageTable (b.pages f).id = some f

structure Discipline (b : BufferPoolManager) : Prop where
  free_nodup : b.freeList.Nodup
  free_lt : ∀ f ∈ b.freeList, f < b.poolSize
  /-- `LRUlist_` and `LRUhash_` hold the same frames, each once. -/
  lru : b.replacer.Ok
  lru_lt : ∀ f ∈ b.replacer.list, f < b.poolSize
  /-- A frame is free, or resident and in the replacer, or resident and pinned. -/
  place : ∀ f < b.poolSize,
    (f ∈ b.freeList ∧ f ∉ b.replacer.list ∧ (b.pages f).pinCount = 0) ∨
    (f ∉ b.freeList ∧ f ∈ b.replacer.list ∧ b.Resident f ∧ (b.pages f).pinCount = 0) ∨
    (f ∉ b.freeList ∧ f ∉ b.replacer.list ∧ b.Resident f ∧ 0 < (b.pages f).pinCount)
  /-- The page table is a bijection between the resident ids and the frames that are not free. -/
  table : ∀ p f, b.pageTable p = some f ↔ f < b.poolSize ∧ f ∉ b.freeList ∧ (b.pages f).id = p
  victim : ∀ f b', b.findVictimPage = some (f, b') → (b.pages f).pinCount = 0

/-- The invariant: no frame in use has lost its place in the page table. -/
structure Tight (b : BufferPoolManager) : Prop where
  free_nodup : b.freeList.Nodup
  lru_ok : b.replacer.Ok
  free : ∀ f ∈ b.freeList, f < b.poolSize ∧ (b.pages f).Given
  lru : ∀ f, f ∈ b.replacer.list ↔ f < b.poolSize ∧ f ∉ b.freeList ∧ (b.pages f).pinCount = 0
  table : ∀ p f, b.pageTable p = some f →
    f < b.poolSize ∧ f ∉ b.freeList ∧ (b.pages f).id = p ∧ 0 ≤ p.pageNo
  resident : ∀ f < b.poolSize, f ∉ b.freeList → b.Resident f

/-- A victim is in no use, and it leaves the free list or the replacer. -/
theorem Tight.victim (h : b.Tight) (hv : b.findVictimPage = some (f, b')) :
    f < b.poolSize ∧ (b.pages f).pinCount = 0 ∧
      b' = { b with freeList := b.freeList.erase f, replacer := b.replacer.pin f } := by
  cases hfree : b.freeList with
  | cons g rest =>
    simp only [findVictimPage, hfree, Option.some.injEq, Prod.mk.injEq] at hv
    obtain ⟨rfl, rfl⟩ := hv
    have hg : g ∈ b.freeList := hfree ▸ List.mem_cons_self
    have hlru : g ∉ b.replacer.list := fun hmem => ((h.lru g).mp hmem).2.1 hg
    refine ⟨(h.free g hg).1, (h.free g hg).2.unpinned, ?_⟩
    rw [List.erase_cons_head, LRUReplacer.pin_of_notMem h.lru_ok hlru]
  | nil =>
    simp only [findVictimPage, hfree, Option.map_eq_some_iff, Prod.exists, Prod.mk.injEq] at hv
    obtain ⟨g, lru, hvictim, rfl, rfl⟩ := hv
    obtain ⟨hmem, rfl⟩ := h.lru_ok.victim hvictim
    exact ⟨((h.lru g).mp hmem).1, ((h.lru g).mp hmem).2.2, rfl⟩

theorem Tight.discipline (h : b.Tight) : b.Discipline where
  free_nodup := h.free_nodup
  free_lt f hf := (h.free f hf).1
  lru := h.lru_ok
  lru_lt f hf := ((h.lru f).mp hf).1
  place f hf := by
    by_cases hfree : f ∈ b.freeList
    · have hlru : f ∉ b.replacer.list := fun hmem => ((h.lru f).mp hmem).2.1 hfree
      exact .inl ⟨hfree, hlru, (h.free f hfree).2.unpinned⟩
    · have hres := h.resident f hf hfree
      by_cases hpin : (b.pages f).pinCount = 0
      · exact .inr (.inl ⟨hfree, (h.lru f).mpr ⟨hf, hfree, hpin⟩, hres, hpin⟩)
      · have hlru : f ∉ b.replacer.list := fun hmem => hpin ((h.lru f).mp hmem).2.2
        exact .inr (.inr ⟨hfree, hlru, hres, Nat.pos_of_ne_zero hpin⟩)
  table p f := by
    constructor
    · intro hp
      obtain ⟨hlt, hfree, hid, -⟩ := h.table p f hp
      exact ⟨hlt, hfree, hid⟩
    · rintro ⟨hlt, hfree, rfl⟩
      exact h.resident f hlt hfree
  victim f b' hv := (h.victim hv).2.1

theorem Tight.init (poolSize : Nat) (fds : FrameId → Int) (disk : DiskManager) :
    (BufferPoolManager.init poolSize fds disk).Tight where
  free_nodup := List.nodup_range
  lru_ok := ⟨List.nodup_nil, fun f => by simp [BufferPoolManager.init]⟩
  free f hf := ⟨List.mem_range.mp hf, rfl, fun _ => rfl⟩
  lru f := by simp [BufferPoolManager.init]
  table p f hf := by cases hf
  resident _ hf hfree := absurd (List.mem_range.mpr hf) hfree

/-- What is on disk does not matter. -/
theorem Tight.of_disk (h : b.Tight) (disk : DiskManager) : ({ b with disk := disk } : BufferPoolManager).Tight where
  free_nodup := h.free_nodup
  lru_ok := h.lru_ok
  free := h.free
  lru := h.lru
  table := h.table
  resident := h.resident

/-- The table leads to no other frame for the page of a frame that is not latched. -/
theorem Tight.frame_unique (h : b.Tight) (hf : f < b.poolSize) (hl : (b.pages f).latched = false)
    {g : FrameId} (hg : b.pageTable (b.pages f).id = some g) : g = f := by
  by_cases hfree : f ∈ b.freeList
  · have hno := (h.table _ _ hg).2.2.2
    rw [(h.free f hfree).2.pageNo hl] at hno
    exact absurd hno (by decide)
  · exact Option.some.inj (hg.symm.trans (h.resident f hf hfree))

theorem Tight.table_of_update (h : b.Tight) {g : FrameId} {q : PageId}
    (hq : Function.update b.pageTable (b.pages f).id none q = some g) :
    b.pageTable q = some g ∧ g ≠ f := by
  by_cases hqf : q = (b.pages f).id
  · subst hqf
    rw [Function.update_self] at hq
    cases hq
  · rw [Function.update_of_ne hqf] at hq
    refine ⟨hq, ?_⟩
    rintro rfl
    exact hqf (h.table q g hq).2.2.1.symm

-- ---------------------------------------------------------------------------
-- Frames lose, get and keep their pages
-- ---------------------------------------------------------------------------

theorem Tight.vacate (h : b.Tight) (hf : f < b.poolSize) (hl : (b.pages f).latched = false)
    {page : Page} (hpage : page.Given) {free : List FrameId} (hnodup : free.Nodup)
    (hfree : ∀ g, g ∈ free ↔ g = f ∨ g ∈ b.freeList) : (b.vacated f page free).Tight where
  free_nodup := hnodup
  lru_ok := h.lru_ok.pin f
  free g hg := by
    by_cases hgf : g = f
    · subst hgf
      exact ⟨hf, by simpa [vacated, setPage] using hpage⟩
    · have hg' : g ∈ b.freeList := ((hfree g).mp hg).resolve_left hgf
      simpa [vacated, setPage, hgf] using h.free g hg'
  lru g := by
    by_cases hgf : g = f
    · subst hgf
      simp [vacated, setPage, h.lru_ok.mem_pin, hfree]
    · simp [vacated, setPage, h.lru_ok.mem_pin, hfree, hgf, h.lru g]
  table q g hq := by
    obtain ⟨hq', hgf⟩ := h.table_of_update hq
    obtain ⟨hlt, hg, hid, hno⟩ := h.table q g hq'
    refine ⟨hlt, ?_, ?_, hno⟩
    · simpa [vacated, hfree, hgf] using hg
    · simpa [vacated, setPage, hgf] using hid
  resident g hlt hg := by
    obtain ⟨hgf, hg'⟩ : g ≠ f ∧ g ∉ b.freeList := by simpa [vacated, hfree] using hg
    have hres := h.resident g hlt hg'
    simp only [Resident, vacated, setPage, Function.update_of_ne hgf]
    rw [Function.update_of_ne ?_]
    · exact hres
    · intro hid
      exact hgf (h.frame_unique hf hl (hid ▸ hres))

theorem Tight.install (h : b.Tight) {rest : List FrameId} (hfree : b.freeList = f :: rest)
    {page : Page} (hno : 0 ≤ page.id.pageNo) (hpin : 0 < page.pinCount)
    (htable : b.pageTable page.id = none) (disk : DiskManager) :
    (b.installed f page disk).Tight := by
  have hf : f ∈ b.freeList := hfree ▸ List.mem_cons_self
  have hnodup : f ∉ rest ∧ rest.Nodup := List.nodup_cons.mp (hfree ▸ h.free_nodup)
  have hmem : ∀ g, g ≠ f → (g ∈ b.freeList ↔ g ∈ rest) := by
    intro g hg
    simp [hfree, hg]
  constructor
  case free_nodup => simpa [installed, hfree] using hnodup.2
  case lru_ok => exact h.lru_ok
  case free =>
    intro g hg
    replace hg : g ∈ rest := by simpa [installed, hfree] using hg
    have hgf : g ≠ f := fun heq => hnodup.1 (heq ▸ hg)
    simpa [installed, setPage, hgf] using h.free g ((hmem g hgf).mpr hg)
  case lru =>
    intro g
    by_cases hgf : g = f
    · subst hgf
      have hg : g ∉ b.replacer.list := fun hg => ((h.lru g).mp hg).2.1 hf
      simpa [installed, setPage, hfree, hnodup.1, hg] using fun _ => Nat.ne_of_gt hpin
    · simpa [installed, setPage, hfree, hgf] using h.lru g
  case table =>
    intro q g hq
    by_cases hqp : q = page.id
    · subst hqp
      obtain rfl : f = g := by simpa [installed, setPage] using hq
      exact ⟨(h.free f hf).1, by simpa [installed, hfree] using hnodup.1,
        by simp [installed, setPage], hno⟩
    · have hq' : b.pageTable q = some g := by simpa [installed, setPage, hqp] using hq
      obtain ⟨hlt, hg, hid, hqno⟩ := h.table q g hq'
      have hgf : g ≠ f := fun heq => hg (heq ▸ hf)
      refine ⟨hlt, ?_, ?_, hqno⟩
      · simpa [installed, hfree, hgf] using hg
      · simpa [installed, setPage, hgf] using hid
  case resident =>
    intro g hlt hg
    by_cases hgf : g = f
    · simp [hgf, Resident, installed, setPage]
    · have hg' : g ∉ b.freeList := by simpa [installed, hfree, hgf] using hg
      have hres := h.resident g hlt hg'
      simp only [Resident, installed, setPage, Function.update_of_ne hgf]
      rw [Function.update_of_ne ?_]
      · exact hres
      · intro hid
        rw [Resident, hid, htable] at hres
        cases hres

/-- The page in a frame changes, but not which page it is. -/
theorem Tight.modify (h : b.Tight) (hp : b.pageTable p = some f) {page : Page}
    (hid : page.id = (b.pages f).id) {lru : LRUReplacer} (hok : lru.Ok)
    (hlru : ∀ g, g ∈ lru.list ↔
      if g = f then f < b.poolSize ∧ page.pinCount = 0 else g ∈ b.replacer.list)
    (disk : DiskManager) :
    ({ b.setPage f page with replacer := lru, disk := disk } : BufferPoolManager).Tight where
  free_nodup := h.free_nodup
  lru_ok := hok
  free g hg := by
    have hgf : g ≠ f := fun heq => (h.table p f hp).2.1 (heq ▸ hg)
    simpa [setPage, hgf] using h.free g hg
  lru g := by
    rw [hlru]
    by_cases hgf : g = f
    · subst hgf
      simp [setPage, (h.table p g hp).2.1]
    · simp [setPage, hgf, h.lru g]
  table q g hq := by
    obtain ⟨hlt, hg, hgid, hno⟩ := h.table q g hq
    refine ⟨hlt, hg, ?_, hno⟩
    by_cases hgf : g = f
    · subst hgf
      simpa [setPage, hid] using hgid
    · simpa [setPage, hgf] using hgid
  resident g hlt hg := by
    have hres := h.resident g hlt hg
    by_cases hgf : g = f
    · subst hgf
      simpa [Resident, setPage, hid] using hres
    · simpa [Resident, setPage, hgf] using hres

/-- The page in a frame changes, and its pins do not. -/
theorem Tight.rewrite (h : b.Tight) (hp : b.pageTable p = some f) (page : Page)
    (hid : page.id = (b.pages f).id) (hpin : page.pinCount = (b.pages f).pinCount) (disk : DiskManager) :
    ({ b.setPage f page with disk := disk } : BufferPoolManager).Tight := by
  refine h.modify hp hid h.lru_ok ?_ disk
  intro g
  by_cases hgf : g = f
  · subst hgf
    rw [if_pos rfl, h.lru g, hpin]
    simp [(h.table p g hp).2.1]
  · rw [if_neg hgf]

/-- The frame of an unpinned page joins the free list. -/
theorem Tight.release (h : b.Tight) (hp : b.pageTable p = some f)
    (hl : (b.pages f).latched = false) {page : Page} (hpage : page.Given) :
    (b.vacated f page (b.freeList ++ [f])).Tight := by
  obtain ⟨hlt, hfree, -, -⟩ := h.table p f hp
  refine h.vacate hlt hl hpage ?_ ?_
  · refine List.nodup_append'.mpr ⟨h.free_nodup, List.nodup_singleton f, ?_⟩
    simpa using hfree
  · intro g
    rw [List.mem_append, List.mem_singleton]
    exact or_comm

/-- The victim gives up its page and gets another one, which no other frame holds. -/
theorem Tight.replace (h : b.Tight) (hv : b.findVictimPage = some (f, b')) (hl : (b.pages f).latched = false)
    {page : Page} (hno : 0 ≤ page.id.pageNo) (hpin : 0 < page.pinCount)
    (htable : ∀ g, b.pageTable page.id = some g → g = f) (disk : DiskManager) :
    ((b.evicted f).installed f page disk).Tight := by
  obtain ⟨hlt, -, -⟩ := h.victim hv
  have hevicted : (b.evicted f).Tight := by
    refine h.vacate hlt hl ⟨rfl, fun _ => rfl⟩ ?_ ?_
    · exact List.nodup_cons.mpr ⟨h.free_nodup.not_mem_erase, h.free_nodup.erase f⟩
    · intro g
      rw [List.mem_cons, h.free_nodup.mem_erase_iff]
      by_cases hgf : g = f <;> simp [hgf]
  refine hevicted.install rfl hno hpin ?_ disk
  cases hp : (b.evicted f).pageTable page.id with
  | none => rfl
  | some g =>
    obtain ⟨hp', hgf⟩ := h.table_of_update hp
    exact absurd (htable g hp') hgf

-- ---------------------------------------------------------------------------
-- The calls
-- ---------------------------------------------------------------------------

/-- The page of the victim, if it has to be written back for another page, is written back. -/
def VictimWritten (b : BufferPoolManager) (io : DiskOutcome) : Prop :=
  ∀ f b', b.findVictimPage = some (f, b') → (b.pages f).isDirty = true → io.writeFails = none

theorem Tight.fetchPageWith (h : b.Tight) (hno : 0 ≤ p.pageNo)
    (hwritten : b.pageTable p = none → b.VictimWritten io) {r : Fetched}
    (hr : b.fetchPageWith io p = some (r, b')) : b'.Tight := by
  cases hp : b.pageTable p with
  | some f =>
    simp only [BufferPoolManager.fetchPageWith, hp] at hr
    split at hr
    · cases hr
    · cases hr
      refine h.modify hp ?_ (h.lru_ok.pin f) ?_ b.disk
      · rfl
      · intro g
        rw [h.lru_ok.mem_pin]
        by_cases hgf : g = f <;> simp [hgf]
  | none =>
    cases hv : b.findVictimPage with
    | none =>
      simp only [BufferPoolManager.fetchPageWith, hp, hv] at hr
      cases hr
      exact h
    | some victim =>
      obtain ⟨f, b₁⟩ := victim
      have hfails := hwritten hp f b₁ hv
      have htable : ∀ g, b.pageTable p = some g → g = f := by
        intro g hg
        cases hp.symm.trans hg
      obtain ⟨-, -, rfl⟩ := h.victim hv
      simp only [BufferPoolManager.fetchPageWith, hp, hv] at hr
      split at hr
      · cases hr
      · rename_i hl
        rw [Bool.not_eq_true] at hl
        -- Whether the read throws or not, the frame is in the table and pinned.
        have hreplace : ∀ data latched disk, ((b.evicted f).installed f ⟨p, data, false, 1, latched⟩ disk).Tight :=
          fun data latched disk => h.replace hv hl hno Nat.one_pos htable disk
        simp only [evicted, vacated, installed, setPage, List.tail_cons, Function.update_idem] at hreplace
        split at hr
        · rename_i hdirty hwrite
          rw [hfails hdirty] at hwrite
          cases hwrite
        · split at hr
          all_goals
            cases hr
            exact hreplace ..

theorem Tight.newPageWith (h : b.Tight) {fd pageNo : Int} {r : Fetched} (hwritten : b.VictimWritten io)
    (hnew : ∀ f b' g, b.findVictimPage = some (f, b') →
      b.pageTable ⟨fd, b.disk.fd2pageno fd⟩ = some g → g = f)
    (hr : b.newPageWith io fd = some (r, pageNo, b')) : b'.Tight := by
  cases hv : b.findVictimPage with
  | none =>
    simp only [BufferPoolManager.newPageWith, hv] at hr
    cases hr
    exact h
  | some victim =>
    obtain ⟨f, b₁⟩ := victim
    have hfails := hwritten f b₁ hv
    have htable := fun g => hnew f b₁ g hv
    obtain ⟨-, -, rfl⟩ := h.victim hv
    simp only [BufferPoolManager.newPageWith, hv, DiskManager.allocatePage] at hr
    split at hr
    · cases hr
    · rename_i hl
      rw [Bool.not_eq_true] at hl
      have hreplace : ∀ disk, ((b.evicted f).installed f
          ⟨⟨fd, b.disk.fd2pageno fd⟩, PageData.zero, false, 1, false⟩ disk).Tight :=
        fun disk => h.replace hv hl (Int.natCast_nonneg _) Nat.one_pos htable disk
      simp only [evicted, vacated, installed, setPage, List.tail_cons, Function.update_idem] at hreplace
      split at hr
      · rename_i hdirty hwrite
        rw [hfails hdirty] at hwrite
        cases hwrite
      · cases hr
        exact hreplace _

theorem Tight.unpinPage (h : b.Tight) {isDirty answer : Bool}
    (hr : b.unpinPage p isDirty = some (answer, b')) : b'.Tight := by
  simp only [BufferPoolManager.unpinPage] at hr
  split at hr
  · cases hr
    exact h
  · rename_i f hp
    split at hr
    · cases hr
    · split at hr
      · cases hr
        exact h
      · rename_i hpin
        cases hr
        obtain ⟨hlt, -⟩ := h.table p f hp
        have hlru : f ∉ b.replacer.list := fun hmem => hpin ((h.lru f).mp hmem).2.2
        refine h.modify hp ?_ ?_ ?_ b.disk
        · rfl
        · split
          · exact h.lru_ok.unpin hlru
          · exact h.lru_ok
        · intro g
          by_cases hzero : (b.pages f).pinCount - 1 = 0
          · by_cases hgf : g = f <;>
              simp [hzero, LRUReplacer.unpin_of_notMem h.lru_ok hlru, hlt, hgf]
          · by_cases hgf : g = f <;> simp [hzero, hlru, hgf]

theorem Tight.flushPageWith (h : b.Tight) {answer : Option Bool}
    (hr : b.flushPageWith io p = some (answer, b')) : b'.Tight := by
  simp only [BufferPoolManager.flushPageWith] at hr
  split at hr
  · cases hr
    exact h
  · rename_i f hp
    split at hr
    · cases hr
    · split at hr
      · cases hr
        exact h.rewrite hp { b.pages f with isDirty := false, latched := true } rfl rfl _
      · cases hr
        exact h.rewrite hp { b.pages f with isDirty := false } rfl rfl _

theorem Tight.deletePageWith (h : b.Tight) {answer : Option Bool}
    (hr : b.deletePageWith io p = some (answer, b')) : b'.Tight := by
  simp only [BufferPoolManager.deletePageWith] at hr
  split at hr
  · cases hr
    exact h
  · rename_i f hp
    split at hr
    · cases hr
    · rename_i hl
      rw [Bool.not_eq_true] at hl
      split at hr
      · cases hr
        exact h
      · rename_i hpin
        have hzero : (b.pages f).pinCount = 0 := by omega
        have hid := (h.table p f hp).2.2.1
        split at hr
        · cases hr
          have hgiven : Page.Given { b.pages f with latched := true } := ⟨hzero, fun hl => by cases hl⟩
          have hthrew := (h.release hp hl hgiven).of_disk
          rw [vacated, hid] at hthrew
          exact hthrew _
        · cases hr
          have hgiven : Page.Given ⟨⟨-1, noPage⟩, PageData.zero, false, (b.pages f).pinCount, false⟩ :=
            ⟨hzero, fun _ => rfl⟩
          have hdeleted := h.release hp hl hgiven
          rw [vacated, hid] at hdeleted
          exact hdeleted

/-- What `free_page` and `free_all_pages` assert of the frame. -/
def Unused (b : BufferPoolManager) (f : FrameId) : Prop :=
  (b.pages f).pinCount = 0 ∧ (b.pages f).isDirty = false

theorem Tight.freeFrame (h : b.Tight) (hp : b.pageTable p = some f) (hl : (b.pages f).latched = false)
    (hunused : b.Unused f) : (b.freeFrame p f).Tight := by
  obtain ⟨hpin, hclean⟩ := hunused
  have heq : b.freeFrame p f =
      b.vacated f { b.pages f with id := ⟨(b.pages f).id.fd, noPage⟩ } (b.freeList ++ [f]) := by
    simp only [BufferPoolManager.freeFrame, vacated, writeBack, hclean, (h.table p f hp).2.2.1,
      Bool.false_eq_true, if_false]
    rfl
  rw [heq]
  exact h.release hp hl ⟨hpin, fun _ => rfl⟩

theorem Tight.freePage (h : b.Tight) (hunused : ∀ f, b.pageTable p = some f → b.Unused f)
    (hr : b.freePage p = some b') : b'.Tight := by
  simp only [BufferPoolManager.freePage] at hr
  split at hr
  · cases hr
    exact h
  · rename_i f hp
    split at hr
    · cases hr
    · rename_i hl
      rw [Bool.not_eq_true] at hl
      cases hr
      exact h.freeFrame hp hl (hunused f hp)

theorem Tight.in_use (h : b.Tight) (hf : f < b.poolSize) (hl : (b.pages f).latched = false)
    (hno : (b.pages f).id.pageNo ≠ noPage) : b.pageTable (b.pages f).id = some f :=
  h.resident f hf fun hfree => hno ((h.free f hfree).2.pageNo hl)

theorem Tight.flushFramesWith (h : b.Tight) {fails : FrameId → Option DiskManager} {fd : Int} {frames : List FrameId}
    (hframes : ∀ f ∈ frames, f < b.poolSize) {threw : Bool}
    (hr : b.flushFramesWith fails fd frames = some (threw, b')) : b'.Tight := by
  induction frames generalizing b with
  | nil =>
    cases hr
    exact h
  | cons f rest ih =>
    have hf := hframes f List.mem_cons_self
    have hrest : ∀ g ∈ rest, g < b.poolSize := fun g hg => hframes g (List.mem_cons_of_mem _ hg)
    simp only [BufferPoolManager.flushFramesWith] at hr
    split at hr
    · cases hr
    · rename_i hl
      rw [Bool.not_eq_true] at hl
      split at hr
      · rename_i hid
        have hp := h.in_use hf hl hid.1
        split at hr
        · cases hr
          exact h.rewrite hp { b.pages f with isDirty := false, latched := true } rfl rfl _
        · exact ih (h.rewrite hp { b.pages f with isDirty := false } rfl rfl _) hrest hr
      · exact ih h hrest hr

theorem Tight.freeAllPages (h : b.Tight) {fd : Int}
    (hunused : ∀ f < b.poolSize, (b.pages f).id.pageNo ≠ noPage → (b.pages f).id.fd = fd →
      b.Unused f)
    (hr : b.freeAllPages fd = some b') : b'.Tight := by
  let P (c : BufferPoolManager) : Prop := c.Tight ∧ c.poolSize = b.poolSize ∧
    ∀ f < b.poolSize, (c.pages f).id.pageNo ≠ noPage → (c.pages f).id.fd = fd → c.Unused f
  suffices hP : P b' from hP.1
  refine loop_inv ?_ ⟨h, rfl, hunused⟩ hr
  rintro c c' f hf ⟨hc, hsize, hunused⟩ hr
  replace hf := List.mem_range.mp hf
  simp only [freeFrameOf] at hr
  split at hr
  · cases hr
  · rename_i hl
    rw [Bool.not_eq_true] at hl
    split at hr
    · rename_i hid
      cases hr
      have hp := hc.in_use (hsize ▸ hf) hl hid.1
      refine ⟨hc.freeFrame hp hl (hunused f hf hid.1 hid.2), hsize, ?_⟩
      intro g hg hno hfd
      by_cases hgf : g = f
      · subst hgf
        simp [BufferPoolManager.freeFrame, setPage] at hno
      · simp only [Unused, BufferPoolManager.freeFrame, setPage,
          Function.update_of_ne hgf] at hno hfd ⊢
        exact hunused g hg hno hfd
    · cases hr
      exact ⟨hc, hsize, hunused⟩

/-- A page that cannot be written back for another one: its frame is in use and in no place. -/
theorem Tight.failed_write (h : b.Tight) (hv : b.findVictimPage = some (f, b')) {lost : BufferPoolManager}
    (hfree : lost.freeList = b'.freeList) (hlru : lost.replacer = b'.replacer) (hsize : lost.poolSize = b.poolSize)
    (hpin : (lost.pages f).pinCount = (b.pages f).pinCount) : ¬ lost.Discipline := by
  intro hd
  obtain ⟨hlt, hzero, rfl⟩ := h.victim hv
  have hnot : f ∉ lost.freeList := hfree ▸ h.free_nodup.not_mem_erase
  have hnot' : f ∉ lost.replacer.list := by
    rw [hlru, h.lru_ok.mem_pin]
    exact fun hmem => hmem.1 rfl
  rcases hd.place f (hsize ▸ hlt) with ⟨hmem, -⟩ | ⟨-, hmem, -⟩ | ⟨-, -, -, hpos⟩
  · exact hnot hmem
  · exact hnot' hmem
  · omega

end BufferPoolManager

-- ---------------------------------------------------------------------------
-- Runs
-- ---------------------------------------------------------------------------

inductive FrameCall where
  | newPage (fd : Int)
  | fetchPage (p : PageId)
  | unpinPage (p : PageId) (isDirty : Bool)
  | flushPage (p : PageId)
  | flushAllPages (fd : Int)
  | deletePage (p : PageId)
  | freePage (p : PageId)
  | freeAllPages (fd : Int)
  deriving DecidableEq, Repr

/-- How the disk calls of any call go. `flush_all_pages` writes the pages of several frames. -/
structure CallOutcome extends DiskOutcome where
  flushFails : FrameId → Option DiskManager

def CallOutcome.fine : CallOutcome := ⟨.fine, fun _ => none⟩

namespace BufferPoolManager

variable {b b' b₀ : BufferPoolManager} {io : CallOutcome} {call : FrameCall}

/-- The pool after a call. -/
def perform (b : BufferPoolManager) (io : CallOutcome) : FrameCall → Option BufferPoolManager
  | .newPage fd => (b.newPageWith io.toDiskOutcome fd).map fun (_, _, b) => b
  | .fetchPage p => (b.fetchPageWith io.toDiskOutcome p).map fun (_, b) => b
  | .unpinPage p isDirty => (b.unpinPage p isDirty).map fun (_, b) => b
  | .flushPage p => (b.flushPageWith io.toDiskOutcome p).map fun (_, b) => b
  | .flushAllPages fd => (b.flushFramesWith io.flushFails fd (List.range b.poolSize)).map fun (_, b) => b
  | .deletePage p => (b.deletePageWith io.toDiskOutcome p).map fun (_, b) => b
  | .freePage p => b.freePage p
  | .freeAllPages fd => b.freeAllPages fd

/-- Only pages that are neither pinned nor dirty are freed. -/
def Allowed (b : BufferPoolManager) : FrameCall → Prop
  | .freePage p => ∀ f, b.pageTable p = some f → b.Unused f
  | .freeAllPages fd =>
    ∀ f < b.poolSize, (b.pages f).id.pageNo ≠ noPage → (b.pages f).id.fd = fd → b.Unused f
  | _ => True

/-- No page number is negative, no page is written back in vain for another one, and `new_page` does not
allocate the number of a page that is resident, unless in the very frame that it takes. -/
def Fresh (b : BufferPoolManager) (io : CallOutcome) : FrameCall → Prop
  | .fetchPage p => 0 ≤ p.pageNo ∧ (b.pageTable p = none → b.VictimWritten io.toDiskOutcome)
  | .newPage fd => b.VictimWritten io.toDiskOutcome ∧ ∀ f b' g, b.findVictimPage = some (f, b') →
      b.pageTable ⟨fd, b.disk.fd2pageno fd⟩ = some g → g = f
  | _ => True

/-- The pools of all runs from `b₀` whose calls are all `Allowed`, and `ok`. -/
inductive Calls (ok : BufferPoolManager → CallOutcome → FrameCall → Prop) (b₀ : BufferPoolManager) :
    BufferPoolManager → Prop
  | start : Calls ok b₀ b₀
  | call {b b' : BufferPoolManager} {io : CallOutcome} {call : FrameCall} :
      Calls ok b₀ b → b.Allowed call → ok b io call → b.perform io call = some b' → Calls ok b₀ b'

theorem Tight.perform (h : b.Tight) (hallowed : b.Allowed call) (hfresh : b.Fresh io call)
    (hcall : b.perform io call = some b') : b'.Tight := by
  cases call with
  | newPage fd =>
    obtain ⟨⟨r, pageNo, b₁⟩, hr, rfl⟩ := Option.map_eq_some_iff.mp hcall
    exact h.newPageWith hfresh.1 hfresh.2 hr
  | fetchPage p =>
    obtain ⟨⟨r, b₁⟩, hr, rfl⟩ := Option.map_eq_some_iff.mp hcall
    exact h.fetchPageWith hfresh.1 hfresh.2 hr
  | unpinPage p isDirty =>
    obtain ⟨⟨r, b₁⟩, hr, rfl⟩ := Option.map_eq_some_iff.mp hcall
    exact h.unpinPage hr
  | flushPage p =>
    obtain ⟨⟨r, b₁⟩, hr, rfl⟩ := Option.map_eq_some_iff.mp hcall
    exact h.flushPageWith hr
  | flushAllPages fd =>
    obtain ⟨⟨r, b₁⟩, hr, rfl⟩ := Option.map_eq_some_iff.mp hcall
    exact h.flushFramesWith (fun f hf => List.mem_range.mp hf) hr
  | deletePage p =>
    obtain ⟨⟨r, b₁⟩, hr, rfl⟩ := Option.map_eq_some_iff.mp hcall
    exact h.deletePageWith hr
  | freePage p => exact h.freePage hallowed hcall
  | freeAllPages fd => exact h.freeAllPages hallowed hcall

theorem Calls.tight (h : Calls Fresh b₀ b) (h₀ : b₀.Tight) : b.Tight := by
  induction h with
  | start => exact h₀
  | call _ hallowed hfresh hcall ih => exact ih.perform hallowed hfresh hcall

/-- A miss of `fetch_page` or a `new_page` whose write-back throws ends the discipline at once. -/
theorem Tight.undisciplined (h : b.Tight) {disk : DiskManager} (hfails : io.writeFails = some disk)
    (hcall : (∃ p, call = .fetchPage p ∧ b.pageTable p = none) ∨ ∃ fd, call = .newPage fd)
    {f : FrameId} {b₁ : BufferPoolManager} (hv : b.findVictimPage = some (f, b₁))
    (hdirty : (b.pages f).isDirty = true) (hr : b.perform io call = some b') : ¬ b'.Discipline := by
  obtain ⟨hpages, -, -, hsize⟩ := findVictimPage_same hv
  rw [← hpages] at hdirty
  rcases hcall with ⟨p, rfl, hp⟩ | ⟨fd, rfl⟩
  · obtain ⟨⟨r, b₂⟩, hfetch, rfl⟩ := Option.map_eq_some_iff.mp hr
    simp only [BufferPoolManager.fetchPageWith, hp, hv, hdirty, hfails] at hfetch
    split at hfetch
    · cases hfetch
    · cases hfetch
      exact h.failed_write hv rfl rfl hsize (by simp [setPage, hpages])
  · obtain ⟨⟨r, pageNo, b₂⟩, hnew, rfl⟩ := Option.map_eq_some_iff.mp hr
    simp only [BufferPoolManager.newPageWith, hv, hdirty, hfails] at hnew
    split at hnew
    · cases hnew
    · cases hnew
      exact h.failed_write hv rfl rfl hsize (by simp [setPage, hpages])

theorem Calls.next {ok : BufferPoolManager → CallOutcome → FrameCall → Prop} (h : Calls ok b₀ b)
    (io : CallOutcome) (call : FrameCall) (hallowed : b.Allowed call) (hok : ok b io call)
    (hcall : (b.perform io call).isSome) : Calls ok b₀ ((b.perform io call).get hcall) :=
  .call h hallowed hok (Option.some_get hcall).symm

/-- In every run in which `new_page` finds no page resident under the number it allocates, and neither it nor
`fetch_page` fails to write a page back, every frame is free, evictable or pinned, and the page table is a
bijection. Every other disk call may throw. -/
theorem frames_disciplined (poolSize : Nat) (fds : FrameId → Int) (disk : DiskManager)
    (b : BufferPoolManager) (h : Calls Fresh (.init poolSize fds disk) b) : b.Discipline :=
  (h.tight (.init poolSize fds disk)).discipline

/-- A pool of two frames over a file of one page. Page 0 is fetched and given back, a new page takes the
other frame, and page 0 is evicted for page 1 of another file, whose read throws. -/
theorem frames_disciplined_two : ∃ b : BufferPoolManager,
    Calls Fresh (.init 2 (fun _ => -1) ⟨fun _ => [PageData.zero], fun _ => 1⟩) b ∧
      b.pageTable ⟨4, 1⟩ = some 0 ∧ b.pageTable ⟨3, 1⟩ = some 1 ∧ b.Discipline := by
  have hno : ∀ {b : BufferPoolManager}, b.VictimWritten CallOutcome.fine.toDiskOutcome := fun _ _ _ _ => rfl
  have h₁ := (@Calls.start Fresh
    (.init 2 (fun _ => -1) ⟨fun _ => [PageData.zero], fun _ => 1⟩)).next .fine (.fetchPage ⟨3, 0⟩)
      trivial ⟨Int.le_refl 0, fun _ => hno⟩ rfl
  have h₂ := h₁.next .fine (.unpinPage ⟨3, 0⟩ true) trivial trivial rfl
  have h₃ := h₂.next .fine (.newPage 3) trivial ⟨hno, fun _ _ _ _ htable => by cases htable⟩ rfl
  have h₄ := h₃.next .fine (.fetchPage ⟨4, 1⟩) trivial ⟨by decide, fun _ => hno⟩ rfl
  exact ⟨_, h₄, rfl, rfl, frames_disciplined 2 (fun _ => -1) _ _ h₄⟩

/-- The file has one page. `fetch_page` of page 1 throws, and the frame stays in the table.
`new_page` then allocates 1 as well: the page is in two frames. -/
theorem page_in_two_frames : ∃ b : BufferPoolManager,
    Calls (fun _ _ _ => True) (.init 2 (fun _ => -1) ⟨fun _ => [PageData.zero], fun _ => 1⟩) b ∧
      (b.pages 0).id = ⟨3, 1⟩ ∧ (b.pages 1).id = ⟨3, 1⟩ ∧ ¬ b.Discipline := by
  have h₁ := (@Calls.start (fun _ _ _ => True)
    (.init 2 (fun _ => -1) ⟨fun _ => [PageData.zero], fun _ => 1⟩)).next .fine (.fetchPage ⟨3, 1⟩)
      trivial trivial rfl
  have h₂ := h₁.next .fine (.newPage 3) trivial trivial rfl
  refine ⟨_, h₂, rfl, rfl, fun hd => ?_⟩
  have h0 := (hd.table ⟨3, 1⟩ 0).mpr ⟨by decide, List.not_mem_nil, rfl⟩
  have h1 := (hd.table ⟨3, 1⟩ 1).mpr ⟨by decide, List.not_mem_nil, rfl⟩
  cases h0.symm.trans h1

end BufferPoolManager

end Rmdb
