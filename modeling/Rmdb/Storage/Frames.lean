-- SUMMARY: What a write does to a file, and how the frames of the pool are accounted for.
import Mathlib.Data.List.Nodup
import Rmdb.Storage.BufferPool

/-!
# Files and frames

`Shape` is what the free list, the replacer, the page table and the frames say about each other.
It is kept by the three things that happen to a frame: its page is given up (`vacated`), a free
frame is given a page (`installed`), and the page changes in place. A miss in `fetch_page` or a
call of `new_page` is the first, for the victim, and then the second.
-/

namespace Rmdb

-- ---------------------------------------------------------------------------
-- Reading after writing
-- ---------------------------------------------------------------------------

namespace DiskManager

variable {disk : DiskManager} {p q : PageId} {data : PageData}

theorem length_writeAt (file : List PageData) (k : Nat) (data : PageData) :
    (writeAt file k data).length = max file.length (k + 1) := by
  simp only [writeAt, List.length_set, List.length_append, List.length_replicate]
  omega

theorem getElem?_writeAt_self (file : List PageData) (k : Nat) (data : PageData) :
    (writeAt file k data)[k]? = some data := by
  have hlen : k < (file ++ List.replicate (k + 1 - file.length) PageData.zero).length := by
    simp only [List.length_append, List.length_replicate]
    omega
  simp only [writeAt, List.getElem?_set_self hlen]

theorem getElem?_writeAt_ne (file : List PageData) {k j : Nat} (data : PageData) (h : j ≠ k) :
    (writeAt file k data)[j]? = file[j]? ∨
      (file[j]? = none ∧ (writeAt file k data)[j]? = some PageData.zero) := by
  rw [writeAt, List.getElem?_set_ne (Ne.symm h)]
  by_cases hj : j < file.length
  · exact .inl (List.getElem?_append_left hj)
  · rw [List.getElem?_append_right (by omega), List.getElem?_eq_none (by omega : file.length ≤ j),
      List.getElem?_replicate]
    split
    · exact .inr ⟨rfl, rfl⟩
    · exact .inl rfl

theorem readPage_writePage_self (h : 0 ≤ p.pageNo) :
    (disk.writePage p data).readPage p = some data := by
  simp only [readPage, writePage, Function.update_self, h, if_true, getElem?_writeAt_self]

/-- A write changes no other page, but it may bring pages of zeros into the file. -/
theorem readPage_writePage_ne (hp : 0 ≤ p.pageNo) (hne : q ≠ p) :
    (disk.writePage p data).readPage q = disk.readPage q ∨
      (disk.readPage q = none ∧ (disk.writePage p data).readPage q = some PageData.zero) := by
  by_cases hq : 0 ≤ q.pageNo
  · simp only [readPage, writePage, hq, if_true]
    by_cases hfd : q.fd = p.fd
    · rw [hfd, Function.update_self]
      apply getElem?_writeAt_ne
      intro h
      apply hne
      cases p; cases q
      simp only [PageId.mk.injEq] at *
      exact ⟨hfd, by omega⟩
    · rw [Function.update_of_ne hfd]
      exact .inl rfl
  · simp only [readPage, hq, if_false, true_or]

theorem pageNo_lt_of_readPage {n : Nat} (hlen : (disk.files p.fd).length ≤ n)
    (h : disk.readPage p = some data) : p.pageNo < n := by
  simp only [readPage] at h
  split at h
  · have := (List.getElem?_eq_some_iff.mp h).1
    omega
  · cases h

@[simp] theorem fd2pageno_writePage :
    (disk.writePage p data).fd2pageno = disk.fd2pageno := rfl

end DiskManager

-- ---------------------------------------------------------------------------
-- Frames, free list, replacer and page table
-- ---------------------------------------------------------------------------

/-- The list has no frame twice, and the hash knows the frames of the list. -/
structure LRUReplacer.Ok (lru : LRUReplacer) : Prop where
  nodup : lru.list.Nodup
  hash : ∀ f, lru.hash f = true ↔ f ∈ lru.list

namespace LRUReplacer

variable {lru lru' : LRUReplacer} {f g : FrameId}

theorem pin_of_notMem (h : lru.Ok) (hf : f ∉ lru.list) : lru.pin f = lru := by
  rw [pin, if_neg ((h.hash f).not.mpr hf)]

theorem unpin_of_notMem (h : lru.Ok) (hf : f ∉ lru.list) :
    lru.unpin f = ⟨f :: lru.list, Function.update lru.hash f true⟩ := by
  rw [unpin, if_neg ((h.hash f).not.mpr hf)]

theorem Ok.mem_pin (h : lru.Ok) : g ∈ (lru.pin f).list ↔ g ≠ f ∧ g ∈ lru.list := by
  rw [pin]
  split
  · exact h.nodup.mem_erase_iff
  · next hf =>
    rw [h.hash f] at hf
    exact ⟨fun hg => ⟨fun heq => hf (heq ▸ hg), hg⟩, And.right⟩

theorem Ok.pin (h : lru.Ok) (f : FrameId) : (lru.pin f).Ok := by
  refine ⟨?_, fun g => ?_⟩
  · rw [LRUReplacer.pin]
    split
    · exact h.nodup.erase f
    · exact h.nodup
  · rw [h.mem_pin, LRUReplacer.pin]
    split
    · by_cases hg : g = f
      · simp [hg]
      · simp [hg, h.hash g]
    · next hf =>
      rw [h.hash g, iff_and_self]
      rintro hg rfl
      exact hf ((h.hash g).mpr hg)

theorem Ok.unpin (h : lru.Ok) (hf : f ∉ lru.list) : (lru.unpin f).Ok := by
  rw [unpin_of_notMem h hf]
  refine ⟨List.nodup_cons.mpr ⟨hf, h.nodup⟩, fun g => ?_⟩
  by_cases hg : g = f
  · simp [hg]
  · simp [hg, h.hash g]

/-- The victim is a frame of the list, and leaves it like a frame that is pinned. -/
theorem Ok.victim (h : lru.Ok) (hv : lru.victim = some (f, lru')) :
    f ∈ lru.list ∧ lru' = lru.pin f := by
  simp only [LRUReplacer.victim, Option.map_eq_some_iff, Prod.mk.injEq] at hv
  obtain ⟨g, hlast, rfl, rfl⟩ := hv
  obtain ⟨front, hlist⟩ := List.getLast?_eq_some_iff.mp hlast
  have hmem : g ∈ lru.list := by simp [hlist]
  have hfront : g ∉ front := by
    have hnodup : (front ++ [g]).Nodup := hlist ▸ h.nodup
    simpa using (List.nodup_append'.mp hnodup).2.2
  refine ⟨hmem, ?_⟩
  rw [LRUReplacer.pin, if_pos ((h.hash g).mpr hmem)]
  simp [hlist, List.erase_append_right, hfront]

end LRUReplacer

/-- A frame that holds no page. -/
structure Page.Vacant (page : Page) : Prop where
  pageNo : page.id.pageNo = noPage
  clean : page.isDirty = false
  unpinned : page.pinCount = 0
  unlatched : page.latched = false

/-- Every frame is in one of four places: in the free list, in the replacer, pinned, or lost to
a call that threw. The page table leads to the frames in use. -/
structure BufferPoolManager.Shape (b : BufferPoolManager) : Prop where
  free_nodup : b.freeList.Nodup
  lru_ok : b.replacer.Ok
  free : ∀ f ∈ b.freeList, f < b.poolSize ∧ (b.pages f).Vacant
  lru : ∀ f, f ∈ b.replacer.list ↔ f < b.poolSize ∧ f ∉ b.freeList ∧ (b.pages f).pinCount = 0
  latched : ∀ f, (b.pages f).latched = true → 0 < (b.pages f).pinCount
  table : ∀ p f, b.pageTable p = some f →
    f < b.poolSize ∧ f ∉ b.freeList ∧ (b.pages f).id = p ∧ 0 ≤ p.pageNo
  used : ∀ f < b.poolSize, f ∉ b.freeList → (b.pages f).latched = false →
    b.pageTable (b.pages f).id = some f

namespace BufferPoolManager

variable {b : BufferPoolManager} {f : FrameId} {p : PageId}

theorem Shape.init (poolSize : Nat) (fds : FrameId → Int) (disk : DiskManager) :
    (init poolSize fds disk).Shape where
  free_nodup := List.nodup_range
  lru_ok := ⟨List.nodup_nil, fun f => by simp [BufferPoolManager.init]⟩
  free f hf := ⟨List.mem_range.mp hf, rfl, rfl, rfl, rfl⟩
  lru f := by simp [BufferPoolManager.init]
  latched f hf := by cases hf
  table p f hf := by cases hf
  used f hf hfree _ := absurd (List.mem_range.mpr hf) hfree

theorem Shape.unlatched (h : b.Shape) (hpin : (b.pages f).pinCount = 0) :
    (b.pages f).latched = false := by
  by_contra hl
  have := h.latched f (by simpa using hl)
  omega

/-- The pool after frame `f` has lost its page, with the new free list `free`. -/
def vacated (b : BufferPoolManager) (f : FrameId) (page : Page) (free : List FrameId) :
    BufferPoolManager :=
  { b.setPage f page with
    pageTable := Function.update b.pageTable (b.pages f).id none
    freeList := free
    replacer := b.replacer.pin f
    disk := writeBack (b.pages f) b.disk }

/-- The pool after the first free frame `f` has been given the page `page`. -/
def installed (b : BufferPoolManager) (f : FrameId) (page : Page) (disk : DiskManager) :
    BufferPoolManager :=
  { b.setPage f page with
    pageTable := Function.update b.pageTable page.id (some f)
    freeList := b.freeList.tail
    disk := disk }

/-- The table leads to no other frame for the page of `f`. -/
theorem Shape.frame_unique (h : b.Shape) (hf : f < b.poolSize) (hl : (b.pages f).latched = false)
    {g : FrameId} (hg : b.pageTable (b.pages f).id = some g) : g = f := by
  by_cases hfree : f ∈ b.freeList
  · have hno := (h.table _ _ hg).2.2.2
    rw [(h.free f hfree).2.pageNo] at hno
    exact absurd hno (by decide)
  · exact Option.some.inj (hg.symm.trans (h.used f hf hfree hl))

theorem Shape.table_of_update (h : b.Shape) {g : FrameId} {q : PageId}
    (hq : Function.update b.pageTable (b.pages f).id none q = some g) :
    b.pageTable q = some g ∧ g ≠ f := by
  by_cases hqf : q = (b.pages f).id
  · subst hqf
    rw [Function.update_self] at hq
    cases hq
  · rw [Function.update_of_ne hqf] at hq
    refine ⟨hq, ?_⟩
    rintro rfl
    exact hqf (h.table q g hq).2.2.1.symm

theorem Shape.vacate (h : b.Shape) (hf : f < b.poolSize) (hpin : (b.pages f).pinCount = 0)
    {page : Page} (hpage : page.Vacant)
    {free : List FrameId} (hnodup : free.Nodup)
    (hfree : ∀ g, g ∈ free ↔ g = f ∨ g ∈ b.freeList) : (b.vacated f page free).Shape where
  free_nodup := hnodup
  lru_ok := h.lru_ok.pin f
  free g hg := by
    by_cases hgf : g = f
    · subst hgf
      exact ⟨hf, by simpa [vacated, setPage] using hpage⟩
    · have hg' : g ∈ b.freeList := ((hfree g).mp hg).resolve_left hgf
      simpa [vacated, setPage, hgf] using h.free g hg'
  lru g := by
    by_cases hgf : g = f
    · subst hgf
      simp [vacated, setPage, h.lru_ok.mem_pin, hfree]
    · simp [vacated, setPage, h.lru_ok.mem_pin, hfree, hgf, h.lru g]
  latched g hg := by
    by_cases hgf : g = f
    · subst hgf
      simp [vacated, setPage, hpage.unlatched] at hg
    · simp only [vacated, setPage, Function.update_of_ne hgf] at hg ⊢
      exact h.latched g hg
  table q g hq := by
    obtain ⟨hq', hgf⟩ := h.table_of_update hq
    obtain ⟨hlt, hg, hid, hno⟩ := h.table q g hq'
    refine ⟨hlt, ?_, ?_, hno⟩
    · simpa [vacated, hfree, hgf] using hg
    · simpa [vacated, setPage, hgf] using hid
  used g hlt hg hl := by
    obtain ⟨hgf, hg'⟩ : g ≠ f ∧ g ∉ b.freeList := by simpa [vacated, hfree] using hg
    simp only [vacated, setPage, Function.update_of_ne hgf] at hl ⊢
    have htable := h.used g hlt hg' hl
    rw [Function.update_of_ne ?_]
    · exact htable
    · intro hid
      exact hgf (h.frame_unique hf (h.unlatched hpin) (hid ▸ htable))

theorem Shape.install (h : b.Shape) {rest : List FrameId} (hfree : b.freeList = f :: rest)
    {page : Page} (hno : 0 ≤ page.id.pageNo) (hpin : 0 < page.pinCount)
    (htable : ∀ g, b.pageTable page.id = some g → (b.pages g).latched = true)
    (disk : DiskManager) : (b.installed f page disk).Shape := by
  have hf : f ∈ b.freeList := hfree ▸ List.mem_cons_self
  have hnodup : f ∉ rest ∧ rest.Nodup := List.nodup_cons.mp (hfree ▸ h.free_nodup)
  have hmem : ∀ g, g ≠ f → (g ∈ b.freeList ↔ g ∈ rest) := by
    intro g hg
    simp [hfree, hg]
  constructor
  case free_nodup => simpa [installed, hfree] using hnodup.2
  case lru_ok => exact h.lru_ok
  case free =>
    intro g hg
    replace hg : g ∈ rest := by simpa [installed, hfree] using hg
    have hgf : g ≠ f := fun heq => hnodup.1 (heq ▸ hg)
    simpa [installed, setPage, hgf] using h.free g ((hmem g hgf).mpr hg)
  case lru =>
    intro g
    by_cases hgf : g = f
    · subst hgf
      have hg : g ∉ b.replacer.list := fun hg => ((h.lru g).mp hg).2.1 hf
      simpa [installed, setPage, hfree, hnodup.1, hg] using fun _ => Nat.ne_of_gt hpin
    · simpa [installed, setPage, hfree, hgf] using h.lru g
  case latched =>
    intro g hg
    by_cases hgf : g = f
    · subst hgf
      simpa [installed, setPage] using hpin
    · simp only [installed, setPage, Function.update_of_ne hgf] at hg ⊢
      exact h.latched g hg
  case table =>
    intro q g hq
    by_cases hqp : q = page.id
    · subst hqp
      obtain rfl : f = g := by simpa [installed, setPage] using hq
      exact ⟨(h.free f hf).1, by simpa [installed, hfree] using hnodup.1,
        by simp [installed, setPage], hno⟩
    · have hq' : b.pageTable q = some g := by simpa [installed, setPage, hqp] using hq
      obtain ⟨hlt, hg, hid, hqno⟩ := h.table q g hq'
      have hgf : g ≠ f := fun heq => hg (heq ▸ hf)
      refine ⟨hlt, ?_, ?_, hqno⟩
      · simpa [installed, hfree, hgf] using hg
      · simpa [installed, setPage, hgf] using hid
  case used =>
    intro g hlt hg hl
    by_cases hgf : g = f
    · subst hgf
      simp [installed, setPage]
    · replace hg : g ∉ b.freeList := by simpa [installed, hfree, hgf] using hg
      simp only [installed, setPage, Function.update_of_ne hgf] at hl ⊢
      have hused := h.used g hlt hg hl
      rw [Function.update_of_ne ?_]
      · exact hused
      · intro hid
        rw [hid] at hused
        rw [htable g hused] at hl
        cases hl

/-- The page in a frame changes, but not which page it is. -/
theorem Shape.modify (h : b.Shape) (hf : f ∉ b.freeList) {page : Page}
    (hid : page.id = (b.pages f).id) (hlatch : page.latched = (b.pages f).latched)
    (hpin : page.latched = true → 0 < page.pinCount) {lru : LRUReplacer}
    (hok : lru.Ok)
    (hlru : ∀ g, g ∈ lru.list ↔
      if g = f then f < b.poolSize ∧ page.pinCount = 0 else g ∈ b.replacer.list)
    (disk : DiskManager) :
    ({ b.setPage f page with replacer := lru, disk := disk } : BufferPoolManager).Shape where
  free_nodup := h.free_nodup
  lru_ok := hok
  free g hg := by
    have hgf : g ≠ f := fun heq => hf (heq ▸ hg)
    simpa [setPage, hgf] using h.free g hg
  lru g := by
    rw [hlru]
    by_cases hgf : g = f
    · subst hgf
      simp [setPage, hf]
    · simp [setPage, hgf, h.lru g]
  latched g hg := by
    by_cases hgf : g = f
    · subst hgf
      simpa [setPage] using hpin (by simpa [setPage] using hg)
    · simp only [setPage, Function.update_of_ne hgf] at hg ⊢
      exact h.latched g hg
  table q g hq := by
    obtain ⟨hlt, hg, hgid, hno⟩ := h.table q g hq
    refine ⟨hlt, hg, ?_, hno⟩
    by_cases hgf : g = f
    · subst hgf
      simpa [setPage, hid] using hgid
    · simpa [setPage, hgf] using hgid
  used g hlt hg hl := by
    by_cases hgf : g = f
    · subst hgf
      simp only [setPage, Function.update_self] at hl ⊢
      exact hid ▸ h.used g hlt hg (hlatch ▸ hl)
    · simp only [setPage, Function.update_of_ne hgf] at hl ⊢
      exact h.used g hlt hg hl

/-- A victim is in no use, and it leaves the free list or the replacer. -/
theorem Shape.victim (h : b.Shape) {b' : BufferPoolManager}
    (hv : b.findVictimPage = some (f, b')) :
    f < b.poolSize ∧ (b.pages f).pinCount = 0 ∧
      b' = { b with freeList := b.freeList.erase f, replacer := b.replacer.pin f } := by
  cases hfree : b.freeList with
  | cons g rest =>
    simp only [findVictimPage, hfree, Option.some.injEq, Prod.mk.injEq] at hv
    obtain ⟨rfl, rfl⟩ := hv
    have hg : g ∈ b.freeList := hfree ▸ List.mem_cons_self
    have hlru : g ∉ b.replacer.list := fun hmem => ((h.lru g).mp hmem).2.1 hg
    refine ⟨(h.free g hg).1, (h.free g hg).2.unpinned, ?_⟩
    rw [List.erase_cons_head, LRUReplacer.pin_of_notMem h.lru_ok hlru]
  | nil =>
    simp only [findVictimPage, hfree, Option.map_eq_some_iff, Prod.exists, Prod.mk.injEq] at hv
    obtain ⟨g, lru, hvictim, rfl, rfl⟩ := hv
    obtain ⟨hmem, rfl⟩ := h.lru_ok.victim hvictim
    exact ⟨((h.lru g).mp hmem).1, ((h.lru g).mp hmem).2.2, rfl⟩

/-- When there is no victim, every frame is pinned. -/
theorem Shape.pinned_of_no_victim (h : b.Shape) (hv : b.findVictimPage = none) :
    ∀ f < b.poolSize, 0 < (b.pages f).pinCount := by
  intro f hf
  cases hfree : b.freeList with
  | cons g rest => simp [findVictimPage, hfree] at hv
  | nil =>
    have hlru : b.replacer.list = [] := by
      simpa [findVictimPage, hfree, LRUReplacer.victim] using hv
    by_contra hpin
    have : f ∈ b.replacer.list := (h.lru f).mpr ⟨hf, by simp [hfree], by omega⟩
    simp [hlru] at this

/-- A frame that has just been emptied. -/
def vacantPage : Page := ⟨⟨-1, noPage⟩, PageData.zero, false, 0, false⟩

theorem vacantPage_vacant : vacantPage.Vacant := ⟨rfl, rfl, rfl, rfl⟩

/-- The pool after its victim `f` has been emptied: `f` is the next free frame. -/
def evicted (b : BufferPoolManager) (f : FrameId) : BufferPoolManager :=
  b.vacated f vacantPage (f :: b.freeList.erase f)

theorem fetchPage_miss (h : b.Shape) (hp : b.pageTable p = none) {b' : BufferPoolManager}
    (hv : b.findVictimPage = some (f, b')) :
    b.fetchPage p = match (b.evicted f).disk.readPage p with
      | some data => some (.page f, (b.evicted f).installed f ⟨p, data, false, 1, false⟩
          (b.evicted f).disk)
      | none => some (.threw, (b.evicted f).installed f ⟨p, PageData.zero, false, 1, true⟩
          (b.evicted f).disk) := by
  obtain ⟨-, hpin, rfl⟩ := h.victim hv
  have hl := h.unlatched hpin
  have hdisk : (b.evicted f).disk = writeBack (b.pages f) b.disk := rfl
  rw [fetchPage, hp]
  simp only [hv, hl, Bool.false_eq_true, if_false, hdisk]
  cases (writeBack (b.pages f) b.disk).readPage p with
  | none =>
    simp only [evicted, vacated, installed, setPage, List.tail_cons, Function.update_idem]
  | some data =>
    simp only [evicted, vacated, installed, setPage, List.tail_cons, Function.update_idem]

theorem newPage_victim (h : b.Shape) {fd : Int} {b' : BufferPoolManager}
    (hv : b.findVictimPage = some (f, b')) :
    b.newPage fd = some (Fetched.page f, (b.disk.fd2pageno fd : Int),
      (b.evicted f).installed f ⟨⟨fd, b.disk.fd2pageno fd⟩, PageData.zero, false, 1, false⟩
        ((b.evicted f).disk.allocatePage fd).2) := by
  obtain ⟨-, hpin, rfl⟩ := h.victim hv
  have hl := h.unlatched hpin
  rw [newPage]
  simp only [hv, hl, Bool.false_eq_true, if_false, DiskManager.allocatePage]
  simp only [evicted, vacated, installed, setPage, List.tail_cons, Function.update_idem]
  simp only [writeBack]
  split <;> rfl

/-- A loop over frames keeps what its body keeps. -/
theorem loop_inv {P : BufferPoolManager → Prop}
    {body : BufferPoolManager → FrameId → Option BufferPoolManager} {frames : List FrameId}
    (hbody : ∀ b b' f, f ∈ frames → P b → body b f = some b' → P b') :
    ∀ {b b'}, P b → frames.foldlM body b = some b' → P b' := by
  induction frames with
  | nil =>
    intro b b' hb hr
    cases hr
    exact hb
  | cons f rest ih =>
    intro b b' hb hr
    rw [List.foldlM_cons, Option.bind_eq_bind, Option.bind_eq_some_iff] at hr
    obtain ⟨b₁, hf, hr⟩ := hr
    refine ih (fun b b' g hg => hbody b b' g (List.mem_cons_of_mem _ hg)) ?_ hr
    exact hbody b b₁ f List.mem_cons_self hb hf

end BufferPoolManager

end Rmdb
