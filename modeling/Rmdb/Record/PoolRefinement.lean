-- SUMMARY: The record file on the buffer pool answers as the file of pages does, and which pins it keeps.
import Rmdb.Record.PoolFile

/-!
# The record file on the pool refines the file of pages

`Represents` says that the bytes of the pages, wherever they are, are those of the file of pages. Each call keeps it
and answers as the call of `RmFileHandle` does, unless the pool has no frame for it. It gives back the pins it takes,
all but one: `insert_record(rid, buf)` keeps the page that it got from `fetch_free_page_handle`.
-/

namespace Rmdb

open Run

-- ---------------------------------------------------------------------------
-- Calls of the pool
-- ---------------------------------------------------------------------------

namespace BufferPoolManager

variable {b : BufferPoolManager} {p : PageId}

/-- No call will wait for the latch of a frame. -/
def Unlatched (b : BufferPoolManager) : Prop := ∀ f, (b.pages f).latched = false

theorem Unlatched.setPage (h : b.Unlatched) {f : FrameId} {page : Page} (hpage : page.latched = false) :
    (b.setPage f page).Unlatched := by
  intro g
  by_cases hgf : g = f
  · simpa [BufferPoolManager.setPage, hgf] using hpage
  · simpa [BufferPoolManager.setPage, hgf] using h g

theorem Unlatched.evicted (h : b.Unlatched) (f : FrameId) : (b.evicted f).Unlatched :=
  h.setPage rfl

/-- `fetch_page` comes back, and leaves no latch held unless it throws. -/
theorem Unlatched.fetchPage (h : b.Unlatched) (hb : b.Shape) (p : PageId) : ∃ r b',
    b.fetchPage p = some (r, b') ∧ (r ≠ .threw → b'.Unlatched) ∧ b'.disk.fd2pageno = b.disk.fd2pageno := by
  cases hp : b.pageTable p with
  | some f =>
    simp only [BufferPoolManager.fetchPage, hp, h f, Bool.false_eq_true, if_false, Option.some.injEq, Prod.mk.injEq]
    exact ⟨_, _, ⟨rfl, rfl⟩, fun _ => h.setPage rfl, rfl⟩
  | none =>
    cases hv : b.findVictimPage with
    | none => exact ⟨.null, b, by simp only [BufferPoolManager.fetchPage, hp, hv], fun _ => h, rfl⟩
    | some victim =>
      obtain ⟨f, b'⟩ := victim
      have hdisk : (b.evicted f).disk.fd2pageno = b.disk.fd2pageno := PoolRun.fd2pageno_writeBack _ _
      rw [fetchPage_miss hb hp hv]
      cases (b.evicted f).disk.readPage p with
      | some data => exact ⟨_, _, rfl, fun _ => (h.evicted f).setPage rfl, hdisk⟩
      | none => exact ⟨_, _, rfl, fun hne => absurd rfl hne, hdisk⟩

theorem Unlatched.newPage (h : b.Unlatched) (hb : b.Shape) (fd : Int) : ∃ r pageNo b',
    b.newPage fd = some (r, pageNo, b') ∧ b'.Unlatched ∧ ∀ f, r = .page f → pageNo = b.disk.fd2pageno fd ∧
      b'.disk.fd2pageno = Function.update b.disk.fd2pageno fd (b.disk.fd2pageno fd + 1) := by
  cases hv : b.findVictimPage with
  | none => exact ⟨.null, noPage, b, by simp only [BufferPoolManager.newPage, hv], h, fun _ hr => by cases hr⟩
  | some victim =>
    obtain ⟨f, b'⟩ := victim
    have hdisk : (b.evicted f).disk.fd2pageno = b.disk.fd2pageno := PoolRun.fd2pageno_writeBack _ _
    refine ⟨_, _, _, newPage_victim hb hv, (h.evicted f).setPage rfl, fun _ _ => ⟨rfl, ?_⟩⟩
    show Function.update _ fd _ = _
    rw [hdisk]

end BufferPoolManager

namespace PoolRun

variable {κ : Type} {s : PoolRun κ}

/-- A pinned page is behind its pointer. -/
theorem Inv.data_of_pin (h : s.Inv) {k : Pin κ} (hk : k ∈ s.pins) :
    (s.pool.pages k.frame).data = s.stored.bytes k.page := by
  obtain ⟨htable, hl⟩ := h.pins k hk
  exact (h.resident _ _ htable hl).1

/-- When every frame is pinned, there are as many pins. -/
theorem Inv.length_pins (h : s.Inv) (hun : s.pool.Unlatched)
    (hfull : ∀ f < s.pool.poolSize, 0 < (s.pool.pages f).pinCount) : s.pool.poolSize ≤ s.pins.length := by
  have hsub : Finset.range s.pool.poolSize ⊆ (s.pins.map Pin.frame).toFinset := by
    intro f hf
    have hf := Finset.mem_range.mp hf
    have hpos := hfull f hf
    rw [h.count f hf (hun f)] at hpos
    obtain ⟨k, hk, hkf⟩ := List.countP_pos_iff.mp hpos
    exact List.mem_toFinset.mpr (List.mem_map.mpr ⟨k, hk, by simpa using hkf⟩)
  calc s.pool.poolSize = (Finset.range s.pool.poolSize).card := (Finset.card_range _).symm
    _ ≤ (s.pins.map Pin.frame).toFinset.card := Finset.card_le_card hsub
    _ ≤ (s.pins.map Pin.frame).length := List.toFinset_card_le _
    _ = s.pins.length := List.length_map _

/-- A pin is given back. -/
theorem Inv.unpin_runs (h : s.Inv) {k : Pin κ} (hk : k ∈ s.pins) (isDirty : Bool) : ∃ b,
    s.pool.unpinPage k.page isDirty = some (true, b) ∧ b.disk = s.pool.disk ∧ b.poolSize = s.pool.poolSize ∧
      (s.pool.Unlatched → b.Unlatched) := by
  obtain ⟨hp, hl⟩ := h.pins k hk
  have hcount := h.count k.frame (h.shape.table _ _ hp).1 hl
  have hpos : 0 < s.pins.countP (·.frame = k.frame) := List.countP_pos_iff.mpr ⟨k, hk, by simp⟩
  have hpin : (s.pool.pages k.frame).pinCount ≠ 0 := by omega
  simp only [BufferPoolManager.unpinPage, hp, hl, hpin, Bool.false_eq_true, if_false, Option.some.injEq,
    Prod.mk.injEq, true_and]
  exact ⟨_, rfl, rfl, rfl, fun hun => BufferPoolManager.Unlatched.setPage hun rfl⟩

end PoolRun

namespace OpenFile

variable {κ : Type} {c : κ} {fd : Int} {s s' : OpenFile κ} {f : RmFileHandle} {p : PageNo} {size n : Nat}

/-- The only way for a call to end without an answer: the pool has no more frames than there can be pins. -/
def OutOfFrames (size pins : Nat) (e : PoolFault) (_ : OpenFile κ) : Prop := e = .null ∧ size ≤ pins

/-- The pages of file `fd`, in the pool and on disk, are those of the file of pages. -/
structure Represents (size : Nat) (fd : Int) (s : OpenFile κ) (f : RmFileHandle) : Prop where
  recordSize : s.hdr.recordSize = f.recordSize
  numPages : s.hdr.numPages = f.numPages
  perPage : s.hdr.numRecordsPerPage = f.numRecordsPerPage
  firstFree : s.hdr.firstFreePageNo = f.firstFreePageNo
  fits : s.hdr.Fits
  poolSize : s.run.pool.poolSize = size
  inv : s.run.Inv
  unlatched : s.run.pool.Unlatched
  next : (s.run.pool.disk.fd2pageno fd : Int) = f.fd2pageno
  pages : ∀ p, f.InFile p → ∃ data, s.run.stored ⟨fd, p⟩ = some data ∧ s.hdr.Shows data (f.pages p)

/-- Between the states the client has taken the pin. -/
structure Took (s s' : OpenFile κ) (k : Pin κ) : Prop where
  hdr : s'.hdr = s.hdr
  pins : s'.run.pins = k :: s.run.pins
  changed : s'.run.changed = s.run.changed

theorem Represents.fetchPageHandle (h : s.Represents size fd f) (hn : s.run.pins.length ≤ n) (hin : f.InFile p)
    (c : κ) :
    wp (fetchPageHandle c fd p) (OutOfFrames size n)
      (fun k s' => s'.Represents size fd f ∧ s.Took s' k ∧ k.client = c ∧ k.page = ⟨fd, p⟩) s := by
  obtain ⟨data, hstored, -⟩ := h.pages p hin
  have hno : 0 ≤ (⟨fd, p⟩ : PageId).pageNo := Int.le_trans (by decide) hin.1
  obtain ⟨r, b, hr, hun, hdisk⟩ := h.unlatched.fetchPage h.inv.shape ⟨fd, p⟩
  have hfetched := h.inv.fetchPage hno hr
  cases r with
  | page g =>
    refine wp.ok (by simp only [OpenFile.fetchPageHandle, fetchPage, bind_run, get_run, hr]; rfl) ?_
    refine ⟨{ h with
      poolSize := (PoolRun.fetchPage_poolSize h.inv hr).trans h.poolSize
      inv := hfetched.2 c
      unlatched := hun (by simp)
      next := ?_ }, ⟨rfl, rfl, rfl⟩, rfl, rfl⟩
    rw [← h.next]
    exact congrArg (fun n => ((n fd : Nat) : Int)) hdisk
  | null =>
    refine wp.error (by simp only [OpenFile.fetchPageHandle, fetchPage, bind_run, get_run, hr]; rfl) ⟨rfl, ?_⟩
    exact h.poolSize ▸ (h.inv.length_pins h.unlatched hfetched.2).trans hn
  | threw => cases hfetched.1.symm.trans hstored

/-- The bytes behind the pointer to a pinned page. -/
theorem Represents.data (h : s.Represents size fd f) (hin : f.InFile p) {k : Pin κ} (hk : k ∈ s.run.pins)
    (hpage : k.page = ⟨fd, p⟩) : s.hdr.Shows (s.run.pool.pages k.frame).data (f.pages p) := by
  obtain ⟨data, hstored, hshows⟩ := h.pages p hin
  rw [h.inv.data_of_pin hk, hpage, Stored.bytes, hstored]
  exact hshows

/-- The header in memory changes as the one of the file of pages. -/
theorem Represents.setHdr (h : s.Represents size fd f) (pageNo : PageNo) :
    Represents size fd { s with hdr := { s.hdr with firstFreePageNo := pageNo } }
      { f with firstFreePageNo := pageNo } := by
  refine { h with firstFree := rfl, fits := h.fits.setPages _ _, pages := fun p hin => ?_ }
  obtain ⟨data, hstored, hshows⟩ := h.pages p hin
  exact ⟨data, hstored, hshows.setPages _ _⟩

/-- The state after a store through a pointer. -/
def stored (s : OpenFile κ) (k : Pin κ) (data : PageData) : OpenFile κ :=
  { s with run := { s.run with
    pool := s.run.pool.setPage k.frame { s.run.pool.pages k.frame with data := data }
    stored := Function.update s.run.stored k.page (some data)
    changed := (k.client, k.page) :: s.run.changed } }

theorem Represents.store (h : s.Represents size fd f) {k : Pin κ} (hk : k ∈ s.run.pins) (hpage : k.page = ⟨fd, p⟩)
    {data : PageData} {page : RmPage} (hshows : s.hdr.Shows data page) :
    (s.stored k data).Represents size fd (f.setPage p page) := by
  refine ⟨h.recordSize, h.numPages, h.perPage, h.firstFree, h.fits, h.poolSize, h.inv.store hk data,
    h.unlatched.setPage (h.unlatched k.frame), h.next, fun q hin => ?_⟩
  simp only [stored, hpage, RmFileHandle.setPage]
  by_cases hq : q = p
  · subst hq
    rw [Function.update_self, Function.update_self]
    exact ⟨data, rfl, hshows⟩
  · have hne : (⟨fd, q⟩ : PageId) ≠ ⟨fd, p⟩ := fun heq => hq (congrArg PageId.pageNo heq)
    rw [Function.update_of_ne hne, Function.update_of_ne hq]
    exact h.pages q hin

theorem shows_initHeader {hdr : RmFileHdr} (hfits : hdr.Fits) : hdr.Shows (initHeader PageData.zero)
    ⟨noPage, 0, fun _ => false, fun _ => List.replicate hdr.recordSize 0⟩ :=
  ((((RmFileHdr.shows_zero hfits).setNextFreePageNo (by decide)).setNumRecords (by decide)).lsn (by decide)).lsn
    (by decide)

/-- The file gets a new page. -/
theorem Represents.newPage {rids : List Rid} (h : s.Represents size fd f) (hn : s.run.pins.length ≤ n)
    (hb : f.Bounded rids) (hfree : f.firstFreePageNo = noPage) (c : κ) :
    wp (fetchFreePageHandle c fd) (OutOfFrames size n) (fun k s' => s'.Represents size fd f.newPage ∧
      s'.run.pins = k :: s.run.pins ∧ k.client = c ∧ k.page = ⟨fd, f.fd2pageno⟩) s := by
  have hhead : s.hdr.firstFreePageNo = noPage := h.firstFree.trans hfree
  obtain ⟨r, pageNo, b, hr, hun, hpage⟩ := h.unlatched.newPage h.inv.shape fd
  have hnew := h.inv.newPage hr
  cases r with
  | null =>
    have hrun : OpenFile.fetchFreePageHandle c fd s = .error .null s := by
      simp only [OpenFile.fetchFreePageHandle, OpenFile.newPage, bind_run, get_run, ite_run, hhead, if_true, hr,
        throw_run]
    exact wp.error hrun ⟨rfl, h.poolSize ▸ (h.inv.length_pins h.unlatched hnew.2).trans hn⟩
  | threw => exact hnew.elim
  | page g =>
    obtain ⟨hno, hcounter⟩ := hpage g rfl
    have hpageNo : pageNo = f.fd2pageno := hno.trans h.next
    have hinv := hnew c
    let k : Pin κ := ⟨c, ⟨fd, pageNo⟩, g⟩
    let s₁ : OpenFile κ := { s with run :=
      { pool := b
        stored := Function.update s.run.stored ⟨fd, pageNo⟩ (some PageData.zero)
        pins := k :: s.run.pins
        changed := (c, ⟨fd, pageNo⟩) :: s.run.changed } }
    have hdata : (b.pages g).data = PageData.zero := by
      have hpin := hinv.data_of_pin (k := k) List.mem_cons_self
      simpa [Stored.bytes, k] using hpin
    have hrun : OpenFile.fetchFreePageHandle c fd s = .ok k { s₁.stored k (initHeader PageData.zero) with
        hdr := { s.hdr with numPages := s.hdr.numPages + 1, firstFreePageNo := pageNo } } := by
      simp only [OpenFile.fetchFreePageHandle, OpenFile.newPage, bind_run, get_run, ite_run, hhead, if_true, hr,
        modify_run, pure_run, load, OpenFile.store, hdata, stored, s₁, k]
    refine wp.ok hrun ⟨?_, rfl, rfl, by rw [← hpageNo]⟩
    refine ⟨h.recordSize, congrArg (· + 1) h.numPages, h.perPage, hpageNo, h.fits.setPages _ _,
      (PoolRun.newPage_poolSize h.inv hr).trans h.poolSize, hinv.store List.mem_cons_self _, hun.setPage (hun g),
      ?_, fun p hin => ?_⟩
    · show ((b.disk.fd2pageno fd : Nat) : Int) = f.fd2pageno + 1
      rw [hcounter, Function.update_self, ← h.next]
      rfl
    · simp only [RmFileHandle.newPage, RmFileHandle.setPage, stored, s₁, k]
      by_cases hp : p = f.fd2pageno
      · subst hp
        rw [hpageNo, Function.update_self, Function.update_self, ← h.recordSize]
        exact ⟨_, rfl, (shows_initHeader h.fits).setPages _ _⟩
      · have hne : (⟨fd, p⟩ : PageId) ≠ ⟨fd, pageNo⟩ := fun heq => hp ((congrArg PageId.pageNo heq).trans hpageNo)
        rw [Function.update_of_ne hne, Function.update_of_ne hne, Function.update_of_ne hp]
        obtain ⟨data, hstored, hshows⟩ := h.pages p (RmFileHandle.newPage_inFile hin (hb.fd ▸ hp))
        exact ⟨data, hstored, hshows.setPages _ _⟩

/-- `fetch_free_page_handle`. -/
theorem Represents.fetchFreePageHandle {rids : List Rid} (h : s.Represents size fd f)
    (hn : s.run.pins.length ≤ n) (hb : f.Bounded rids) (c : κ) :
    wp (fetchFreePageHandle c fd) (OutOfFrames size n) (fun k s' => s'.Represents size fd f.fetchFreePageHandle.2 ∧
      s'.run.pins = k :: s.run.pins ∧ k.client = c ∧ k.page = ⟨fd, f.fetchFreePageHandle.1⟩) s := by
  by_cases hfree : f.firstFreePageNo = noPage
  · simp only [RmFileHandle.fetchFreePageHandle, hfree, if_true]
    exact h.newPage hn hb hfree c
  · simp only [RmFileHandle.fetchFreePageHandle, hfree, if_false]
    have hhead : ¬ s.hdr.firstFreePageNo = noPage := h.firstFree ▸ hfree
    have hfetch := h.fetchPageHandle hn (hb.head.resolve_left hfree) c
    rw [← h.firstFree] at hfetch ⊢
    refine wp.mono (P := fun k s' => s'.Represents size fd f ∧ s.Took s' k ∧ k.client = c ∧
      k.page = ⟨fd, s.hdr.firstFreePageNo⟩) ?_ fun k s' hk => ⟨hk.1, hk.2.1.pins, hk.2.2⟩
    rw [OpenFile.fetchFreePageHandle]
    exact wp.get (by rwa [if_neg hhead])

theorem wp_load {α : Type} {k : Pin κ} {g : PageData → FileM κ α} {E : PoolFault → OpenFile κ → Prop}
    {Q : α → OpenFile κ → Prop} (h : wp (g (s.run.pool.pages k.frame).data) E Q s) : wp (load k >>= g) E Q s := h

theorem wp_isDirty {α : Type} {k : Pin κ} {g : Bool → FileM κ α} {E : PoolFault → OpenFile κ → Prop}
    {Q : α → OpenFile κ → Prop} (h : wp (g (s.run.pool.pages k.frame).isDirty) E Q s) :
    wp (isDirty k >>= g) E Q s := h

theorem wp_store {α : Type} {k : Pin κ} {data : PageData} {g : Unit → FileM κ α}
    {E : PoolFault → OpenFile κ → Prop} {Q : α → OpenFile κ → Prop} (h : wp (g ()) E Q (s.stored k data)) :
    wp (store k data >>= g) E Q s := h

/-- A page has no more slots than bits. -/
theorem perPage_le {hdr : RmFileHdr} (hfits : hdr.Fits) : hdr.numRecordsPerPage ≤ 32768 := by
  have hbits := hfits.bits
  have hbytes := hfits.bytes
  omega

/-- The number of records of a page, and one more or less, is an `int`. -/
theorem Represents.numRecords_bounds (h : s.Represents size fd f) (ht : f.Tallied) (hin : f.InFile p) :
    0 ≤ (f.pages p).numRecords ∧ (f.pages p).numRecords ≤ 32768 := by
  have hper := perPage_le h.fits
  rw [h.perPage] at hper
  rw [ht.count p hin]
  have hcard : (f.used p).card ≤ f.numRecordsPerPage.toNat := by
    rw [← RmFileHandle.card_slotNos]
    exact Finset.card_filter_le _ _
  omega

variable [DecidableEq κ]

/-- The last pin taken is given back. -/
theorem Represents.unpinPage (h : s.Represents size fd f) {k : Pin κ} {pins : List (Pin κ)}
    (hpins : s.run.pins = k :: pins) (isDirty : Bool)
    (hlast : isDirty = false → (k.client, k.page) ∈ s.run.changed →
      ∃ k' ∈ pins, k'.client = k.client ∧ k'.page = k.page) :
    ∃ s', unpinPage k isDirty s = .ok () s' ∧ s'.Represents size fd f ∧ s'.hdr = s.hdr ∧ s'.run.pins = pins := by
  have hk : k ∈ s.run.pins := hpins ▸ List.mem_cons_self
  obtain ⟨b, hr, hdisk, hsize, hun⟩ := h.inv.unpin_runs hk isDirty
  have herase : s.run.pins.erase k = pins := by rw [hpins, List.erase_cons_head]
  have hallowed : s.run.Allowed (.unpinPage k isDirty) := ⟨hk, herase ▸ hlast⟩
  have hrun : OpenFile.unpinPage k isDirty s = .ok () { s with run := { s.run with
      pool := b
      pins := s.run.pins.erase k
      changed := if isDirty then s.run.changed.filter (· ≠ (k.client, k.page)) else s.run.changed } } := by
    simp only [OpenFile.unpinPage, bind_run, get_run, hr, modify_run]
  refine ⟨_, hrun, ?_, rfl, herase⟩
  refine { h with
    poolSize := hsize.trans h.poolSize
    inv := h.inv.unpinPage hallowed hr
    unlatched := hun h.unlatched
    next := ?_ }
  rw [← h.next]
  exact congrArg (fun disk : DiskManager => ((disk.fd2pageno fd : Nat) : Int)) hdisk

/-- Pages that a client has changed and not yet given back, it has pinned. -/
theorem Represents.unpin_clean {s₁ : OpenFile κ} (h : s.Represents size fd f) (h₁ : s₁.Represents size fd f) {k : Pin κ}
    (htook : s.Took s₁ k) :
    ∃ s', OpenFile.unpinPage k false s₁ = .ok () s' ∧ s'.Represents size fd f ∧ s'.hdr = s.hdr ∧
      s'.run.pins = s.run.pins := by
  obtain ⟨s', hrun, hs', hhdr, hpins⟩ := @Represents.unpinPage κ fd s₁ f size _ h₁ k s.run.pins htook.pins false
    fun _ hchanged => h.inv.changed _ _ (htook.changed ▸ hchanged)
  exact ⟨s', hrun, hs', hhdr.trans htook.hdr, hpins⟩

-- ---------------------------------------------------------------------------
-- Reading
-- ---------------------------------------------------------------------------

variable {rid : Rid} {buf : RmRecord} {hdr : RmFileHdr} {data : PageData} {page : RmPage}

theorem Represents.getRecord (h : s.Represents size fd f) (hn : s.run.pins.length ≤ n) (hin : f.InFile rid.pageNo)
    (hslot : f.IsSlot rid) (c : κ) :
    wp (getRecord c fd rid) (OutOfFrames size n) (fun r s' => r = (f.pages rid.pageNo).slots rid.slotNo ∧
      s'.Represents size fd f ∧ s'.run.pins = s.run.pins) s := by
  refine (h.fetchPageHandle hn hin c).bind fun k s₁ hk => ?_
  obtain ⟨h₁, htook, -, hpage⟩ := hk
  obtain ⟨s', hunpin, h', -, hpins⟩ := h.unpin_clean h₁ htook
  refine wp.get (wp_load (wp.bind_ok hunpin (wp.pure ⟨?_, h', hpins⟩)))
  have hshows := h₁.data hin (htook.pins ▸ List.mem_cons_self) hpage
  have hslots := hshows.slots rid.slotNo.toNat (by rw [Int.toNat_of_nonneg hslot.1, h₁.perPage]; exact hslot.2)
  rwa [Int.toNat_of_nonneg hslot.1] at hslots

theorem Represents.isRecord (h : s.Represents size fd f) (hn : s.run.pins.length ≤ n) (hin : f.InFile rid.pageNo)
    (hslot : f.IsSlot rid) (c : κ) :
    wp (isRecord c fd rid) (OutOfFrames size n) (fun r s' => r = (f.pages rid.pageNo).bitmap rid.slotNo ∧
      s'.Represents size fd f ∧ s'.run.pins = s.run.pins) s := by
  refine (h.fetchPageHandle hn hin c).bind fun k s₁ hk => ?_
  obtain ⟨h₁, htook, -, hpage⟩ := hk
  obtain ⟨s', hunpin, h', -, hpins⟩ := h.unpin_clean h₁ htook
  refine wp_load (wp.bind_ok hunpin (wp.pure ⟨?_, h', hpins⟩))
  have hshows := h₁.data hin (htook.pins ▸ List.mem_cons_self) hpage
  have hbitmap := hshows.bitmap rid.slotNo.toNat (by rw [Int.toNat_of_nonneg hslot.1, h₁.perPage]; exact hslot.2)
  rwa [Int.toNat_of_nonneg hslot.1] at hbitmap

theorem slotLoop_eq (hshows : hdr.Shows data page) (left j : Nat)
    (hj : j + left ≤ hdr.numRecordsPerPage ∨ left = 0) :
    slotLoop data left j = RmScan.slotLoop page left j := by
  induction left generalizing j with
  | zero => rfl
  | succ left ih =>
    rw [slotLoop, RmScan.slotLoop, hshows.bitmap j (by omega), ih (j + 1) (by omega)]

theorem freeSlotLoop_eq (hshows : hdr.Shows data page) (left j : Nat)
    (hj : j + left ≤ hdr.numRecordsPerPage ∨ left = 0) :
    freeSlotLoop data left j = RmFileHandle.freeSlotLoop page left j := by
  induction left generalizing j with
  | zero => rfl
  | succ left ih =>
    rw [freeSlotLoop, RmFileHandle.freeSlotLoop, hshows.bitmap j (by omega), ih (j + 1) (by omega)]

theorem Represents.pageLoop (h : s.Represents size fd f) (hn : s.run.pins.length ≤ n) {left : Nat} {i : Int} {j : Nat}
    (hi : 1 ≤ i) (hleft : i + left ≤ f.numPages) (c : κ) :
    wp (pageLoop c fd left i j) (OutOfFrames size n) (fun r s' => r = RmScan.pageLoop f left i j ∧
      s'.Represents size fd f ∧ s'.run.pins = s.run.pins) s := by
  induction left generalizing s i j with
  | zero => exact wp.pure ⟨rfl, h, rfl⟩
  | succ left ih =>
    have hlt : i < f.numPages := by omega
    have hin : f.InFile i := ⟨hi, hlt⟩
    refine (h.fetchPageHandle hn hin c).bind fun k s₁ hk => ?_
    obtain ⟨h₁, htook, -, hpage⟩ := hk
    obtain ⟨s₂, hunpin, h₂, -, hpins⟩ := h.unpin_clean h₁ htook
    have hshows := h₁.data hin (htook.pins ▸ List.mem_cons_self) hpage
    have hslots := slotLoop_eq hshows (s₁.hdr.numRecordsPerPage.toNat - j) j (by omega)
    rw [h₁.perPage] at hslots
    refine wp.get (wp_load (wp.bind_ok hunpin ?_))
    rw [RmScan.pageLoop, ← hslots, h₁.perPage]
    cases slotLoop (s₁.run.pool.pages k.frame).data (f.numRecordsPerPage.toNat - j) j with
    | some slot => exact wp.pure ⟨rfl, h₂, hpins⟩
    | none =>
      refine (ih h₂ (hpins ▸ hn) (by omega) (by omega)).mono fun r s' hr => ?_
      exact ⟨hr.1, hr.2.1, hr.2.2.trans hpins⟩

-- ---------------------------------------------------------------------------
-- Writing
-- ---------------------------------------------------------------------------

theorem setPage_self : f.setPage p (f.pages p) = f := by
  rw [RmFileHandle.setPage, Function.update_eq_self]

theorem shows_stamp (h : hdr.Shows data page) (lsn : Option Int) (isDirty : Bool) :
    hdr.Shows (stamp lsn isDirty data) page := by
  cases lsn with
  | none => exact h
  | some lsn =>
    cases isDirty with
    | true => exact h.lsn (by decide)
    | false => exact (h.lsn (by decide)).lsn (by decide)

omit [DecidableEq κ] in
/-- A pinned page changes, and the client still has the pin. -/
theorem Represents.fillSlot (h : s.Represents size fd f) (ht : f.Tallied) {k : Pin κ} (hk : k ∈ s.run.pins)
    (hpage : k.page = ⟨fd, p⟩) (hin : f.InFile p) {i : Nat} (hi : i < f.numRecordsPerPage)
    (hbuf : buf.length = f.recordSize) :
    wp (fillSlot k i buf) (OutOfFrames size n)
      (fun _ s' => s'.Represents size fd (f.fillSlot ⟨p, i⟩ buf) ∧ s'.run.pins = s.run.pins) s := by
  have hshows := h.data hin hk hpage
  have hi' : i < s.hdr.numRecordsPerPage := h.perPage ▸ hi
  obtain ⟨hnonneg, hle⟩ := h.numRecords_bounds ht hin
  have hfilled := (hshows.setSlot h.fits hi' (hbuf.trans h.recordSize.symm)).setBit h.fits hi'
  let data := (s.hdr.setSlot (s.run.pool.pages k.frame).data i buf).setBit i
  have hcount : data.numRecords = (f.pages p).numRecords := hfilled.numRecords
  have hnew := hfilled.setNumRecords (n := (f.pages p).numRecords + 1) (by omega)
  rw [← hcount] at hnew
  have hfirst : (data.setNumRecords (data.numRecords + 1)).nextFreePageNo = (f.pages p).nextFreePageNo :=
    hnew.nextFreePageNo
  have hnum : (data.setNumRecords (data.numRecords + 1)).numRecords = (f.pages p).numRecords + 1 :=
    hnew.numRecords.trans (congrArg (· + 1) hcount)
  have hstore := h.store hk hpage hnew
  rw [hcount] at hstore
  refine wp.get (wp_load (wp_store ?_))
  show wp (if (data.setNumRecords (data.numRecords + 1)).numRecords = s.hdr.numRecordsPerPage then _ else _) _ _ _
  rw [hnum, hfirst, h.perPage, hcount]
  by_cases hfull : (f.pages p).numRecords + 1 = f.numRecordsPerPage
  · rw [if_pos hfull]
    refine wp.ok rfl ⟨?_, rfl⟩
    rw [show f.fillSlot ⟨p, i⟩ buf = _ from if_pos hfull]
    exact hstore.setHdr _
  · rw [if_neg hfull]
    refine wp.pure ⟨?_, rfl⟩
    rw [show f.fillSlot ⟨p, i⟩ buf = _ from if_neg hfull]
    exact hstore

/-- What `insert_record(buf, context)` did, when it returned. -/
theorem insertRecord_returned {g : RmFileHandle} (h : f.insertRecord buf = .ok (rid, g)) :
    f.fetchFreePageHandle.2.InFile f.fetchFreePageHandle.1 ∧
      ∃ i : Nat, f.fetchFreePageHandle.2.freeSlot (f.fetchFreePageHandle.2.pages f.fetchFreePageHandle.1) = some i ∧
        rid = ⟨f.fetchFreePageHandle.1, i⟩ ∧ g = f.fetchFreePageHandle.2.fillSlot rid buf := by
  simp only [RmFileHandle.insertRecord] at h
  cases hfetch : f.fetchFreePageHandle.2.fetchPageHandle f.fetchFreePageHandle.1 with
  | error e =>
    rw [hfetch] at h
    cases h
  | ok page =>
    obtain ⟨hin, rfl⟩ := RmFileHandle.fetchPageHandle_ok hfetch
    rw [hfetch] at h
    cases hslot : f.fetchFreePageHandle.2.freeSlot (f.fetchFreePageHandle.2.pages f.fetchFreePageHandle.1) with
    | none =>
      simp only [bind, Except.bind, hslot] at h
      cases h
    | some i =>
      simp only [bind, Except.bind, hslot] at h
      cases h
      exact ⟨hin, i, rfl, rfl, rfl⟩

theorem Represents.insertRecord {rids : List Rid} {g : RmFileHandle} (h : s.Represents size fd f)
    (hn : s.run.pins.length ≤ n) (hb : f.Bounded rids)
    (ht : f.Tallied) (hbuf : buf.length = f.recordSize) (hinsert : f.insertRecord buf = .ok (rid, g)) (c : κ)
    (lsn : Option Int) :
    wp (insertRecord c fd buf lsn) (OutOfFrames size n)
      (fun r s' => r = rid ∧ s'.Represents size fd g ∧ s'.run.pins = s.run.pins) s := by
  obtain ⟨hin, i, hslot, rfl, rfl⟩ := insertRecord_returned hinsert
  refine (h.fetchFreePageHandle hn hb c).bind fun k s₁ hk => ?_
  obtain ⟨h₁, hpins, -, hpage⟩ := hk
  have hk : k ∈ s₁.run.pins := hpins ▸ List.mem_cons_self
  have hshows := h₁.data hin hk hpage
  have hloop := freeSlotLoop_eq hshows s₁.hdr.numRecordsPerPage.toNat 0 (by omega)
  rw [h₁.perPage, ← RmFileHandle.freeSlot, hslot] at hloop
  obtain ⟨hi, -⟩ := RmFileHandle.freeSlotLoop_some hslot
  refine wp.get (wp_load ?_)
  rw [h₁.perPage, hloop]
  refine wp_isDirty (wp_store ?_)
  have hstamped := h₁.store hk hpage (shows_stamp hshows lsn (s₁.run.pool.pages k.frame).isDirty)
  rw [setPage_self] at hstamped
  have ht₁ := ht.fetchFreePageHandle
  have hsize : buf.length = f.fetchFreePageHandle.2.recordSize := by
    rw [RmFileHandle.fetchFreePageHandle_snd]
    split
    · exact hbuf
    · exact hbuf
  refine (hstamped.fillSlot ht₁ hk hpage hin (by omega) hsize).bind fun _ s₃ h₃ => ?_
  obtain ⟨h₃, hpins₃⟩ := h₃
  obtain ⟨s', hunpin, h', -, hpins'⟩ := h₃.unpinPage (hpins₃.trans hpins) true fun hclean => by cases hclean
  refine wp.bind_ok hunpin (wp.pure ⟨?_, h', hpins'⟩)
  rw [hpage]

/-- The loop of `insert_record(rid, buf)` ends in its first turn, if it does. -/
theorem fetchFreeUntil_first {rids : List Rid} {g : RmFileHandle} {fuel : Nat} (hb : f.Bounded rids)
    (hloop : RmFileHandle.fetchFreeUntil p fuel f = .ok g) :
    ∃ n, fuel = n + 1 ∧ ¬ f.fetchFreePageHandle.1 < p ∧ g = f.fetchFreePageHandle.2 := by
  cases fuel with
  | zero => cases hloop
  | succ n =>
    simp only [RmFileHandle.fetchFreeUntil] at hloop
    split at hloop
    · rename_i hlt
      have hfirst : f.fetchFreePageHandle.2.firstFreePageNo = f.fetchFreePageHandle.1 := by
        simp only [RmFileHandle.fetchFreePageHandle]
        split
        · rfl
        · rfl
      have hne : f.fetchFreePageHandle.2.firstFreePageNo ≠ noPage := by
        have hin := (hb.fetchFreePageHandle (Prod.eta f.fetchFreePageHandle).symm).2
        intro heq
        rw [← hfirst, heq] at hin
        exact absurd hin.1 (by decide)
      rw [RmFileHandle.fetchFreeUntil_loops hne (hfirst ▸ hlt)] at hloop
      cases hloop
    · rename_i hle
      exact ⟨n, rfl, hle, (Except.ok.inj hloop).symm⟩

omit [DecidableEq κ] in
theorem Represents.fetchFreeUntil {rids : List Rid} {g : RmFileHandle} {fuel : Nat} (h : s.Represents size fd f)
    (hn : s.run.pins.length ≤ n) (hb : f.Bounded rids) (hloop : RmFileHandle.fetchFreeUntil p fuel f = .ok g) (c : κ) :
    wp (fetchFreeUntil c fd p fuel) (OutOfFrames size n) (fun _ s' => s'.Represents size fd g ∧
      ∃ k, s'.run.pins = k :: s.run.pins ∧ k.client = c ∧ k.page = ⟨fd, f.fetchFreePageHandle.1⟩) s := by
  obtain ⟨_, rfl, hle, rfl⟩ := fetchFreeUntil_first hb hloop
  refine (h.fetchFreePageHandle hn hb c).bind fun k s₁ hk => ?_
  obtain ⟨h₁, hpins, hc, hpage⟩ := hk
  rw [if_neg (by rwa [hpage])]
  exact wp.pure ⟨h₁, k, hpins, hc, hpage⟩

theorem Represents.insertRecordAt {rids : List Rid} {g : RmFileHandle} {fuel : Nat} (h : s.Represents size fd f)
    (hn : s.run.pins.length < n) (hb : f.Bounded rids) (ht : f.Tallied) (hslot : f.IsSlot rid)
    (hbuf : buf.length = f.recordSize) (hinsert : f.insertRecordAt fuel rid buf = .ok g) (c : κ) :
    wp (insertRecordAt c fd fuel rid buf) (OutOfFrames size n) (fun _ s' => s'.Represents size fd g ∧
      ∃ k, s'.run.pins = k :: s.run.pins ∧ k.client = c ∧ k.page = ⟨fd, f.fetchFreePageHandle.1⟩) s := by
  obtain ⟨f₁, hloop, hin, hcase⟩ := RmFileHandle.insertRecordAt_returned hinsert
  have ht₁ : f₁.Tallied := RmFileHandle.fetchFreeUntil_keeps (fun _ h => h.fetchFreePageHandle) hloop ht
  have hper : f₁.numRecordsPerPage = f.numRecordsPerPage := RmFileHandle.fetchFreeUntil_perPage hloop
  have hsize : f₁.recordSize = f.recordSize := by
    refine @RmFileHandle.fetchFreeUntil_keeps _ _ _ (·.recordSize = f.recordSize) (fun e he => ?_) _ hloop rfl
    rw [RmFileHandle.fetchFreePageHandle_snd]
    split
    · exact he
    · exact he
  have hcast : (rid.slotNo.toNat : Int) = rid.slotNo := Int.toNat_of_nonneg hslot.1
  refine (h.fetchFreeUntil hn.le hb hloop c).bind fun _ s₁ hk => ?_
  obtain ⟨h₁, kept, hpins₁, hkept⟩ := hk
  refine (h₁.fetchPageHandle (by rwa [hpins₁, List.length_cons]) hin c).bind fun k s₂ hk => ?_
  obtain ⟨h₂, htook, -, hpage⟩ := hk
  have hk : k ∈ s₂.run.pins := htook.pins ▸ List.mem_cons_self
  have hshows := h₂.data hin hk hpage
  have hi : (rid.slotNo.toNat : Int) < s₂.hdr.numRecordsPerPage := by
    rw [hcast, h₂.perPage, hper]
    exact hslot.2
  have hbit := hshows.bitmap _ hi
  rw [hcast] at hbit
  -- Either way the page that the loop has fetched stays pinned.
  have hunpin : ∀ s₃ : OpenFile κ, s₃.Represents size fd g → s₃.run.pins = s₂.run.pins →
      wp (OpenFile.unpinPage k true) (OutOfFrames size n) (fun _ s' => s'.Represents size fd g ∧
        ∃ k, s'.run.pins = k :: s.run.pins ∧ k.client = c ∧ k.page = ⟨fd, f.fetchFreePageHandle.1⟩) s₃ := by
    intro s₃ h₃ hpins₃
    obtain ⟨s', hunpin, h', -, hpins'⟩ := h₃.unpinPage (hpins₃.trans htook.pins) true
      fun hclean => by cases hclean
    exact wp.ok hunpin ⟨h', kept, hpins'.trans hpins₁, hkept⟩
  refine wp.get (wp_load ?_)
  rw [hbit]
  rcases hcase with ⟨hset, rfl⟩ | ⟨hset, rfl⟩
  · rw [if_pos hset]
    have hwritten := hshows.setSlot h₂.fits hi (hbuf.trans (hsize.symm.trans h₂.recordSize.symm))
    rw [hcast] at hwritten
    exact wp_store (hunpin _ (h₂.store hk hpage hwritten) rfl)
  · rw [if_neg (by simp [hset])]
    have hi' : (rid.slotNo.toNat : Int) < f₁.numRecordsPerPage := h₂.perPage ▸ hi
    refine (h₂.fillSlot ht₁ hk hpage hin hi' (hbuf.trans hsize.symm)).bind fun _ s₃ h₃ => ?_
    rw [hcast] at h₃
    exact hunpin s₃ h₃.1 h₃.2

theorem Represents.deleteRecord {rids : List Rid} {g : RmFileHandle} (h : s.Represents size fd f)
    (hn : s.run.pins.length ≤ n) (hb : f.Bounded rids)
    (ht : f.Tallied) (hnum : f.numPages < 2147483648) (hdelete : f.deleteRecord rid = .ok g) (c : κ)
    (lsn : Option Int) :
    wp (deleteRecord c fd rid lsn) (OutOfFrames size n)
      (fun _ s' => s'.Represents size fd g ∧ s'.run.pins = s.run.pins) s := by
  obtain ⟨hin, hset, rfl⟩ := RmFileHandle.deleteRecord_returned hdelete
  have hslot := ht.slot _ _ hin hset
  have hcast : (rid.slotNo.toNat : Int) = rid.slotNo := Int.toNat_of_nonneg hslot.1
  refine (h.fetchPageHandle hn hin c).bind fun k s₁ hk => ?_
  obtain ⟨h₁, htook, -, hpage⟩ := hk
  have hk : k ∈ s₁.run.pins := htook.pins ▸ List.mem_cons_self
  have hi : (rid.slotNo.toNat : Int) < s₁.hdr.numRecordsPerPage := by
    rw [hcast, h₁.perPage]
    exact hslot.2
  have hunpin : ∀ s₂ : OpenFile κ, s₂.Represents size fd (f.clearSlot rid) → s₂.run.pins = s₁.run.pins →
      wp (OpenFile.unpinPage k true) (OutOfFrames size n)
        (fun _ s' => s'.Represents size fd (f.clearSlot rid) ∧ s'.run.pins = s.run.pins) s₂ := by
    intro s₂ h₂ hpins₂
    obtain ⟨s', hunpin, h', -, hpins'⟩ := h₂.unpinPage (hpins₂.trans htook.pins) true
      fun hclean => by cases hclean
    exact wp.ok hunpin ⟨h', hpins'⟩
  have hshows := shows_stamp (h₁.data hin hk hpage) lsn (s₁.run.pool.pages k.frame).isDirty
  refine wp.get (wp_isDirty (wp_load ?_))
  generalize stamp lsn (s₁.run.pool.pages k.frame).isDirty (s₁.run.pool.pages k.frame).data = data at hshows
  have hbit := hshows.bitmap _ hi
  rw [hcast, hset] at hbit
  rw [if_pos hbit]
  have hcleared := hshows.resetBit h₁.fits hi
  rw [hcast] at hcleared
  have hcount : (data.resetBit rid.slotNo.toNat).numRecords = (f.pages rid.pageNo).numRecords := hcleared.numRecords
  obtain ⟨hnonneg, hle⟩ := h₁.numRecords_bounds ht hin
  have hnew := hcleared.setNumRecords (n := (f.pages rid.pageNo).numRecords - 1) (by omega)
  rw [← hcount] at hnew
  have hnum' := hnew.numRecords.trans (congrArg (· - 1) hcount)
  dsimp only
  generalize (data.resetBit rid.slotNo.toNat).setNumRecords ((data.resetBit rid.slotNo.toNat).numRecords - 1) = data'
    at hnew hnum' ⊢
  rw [hcount] at hnew
  rw [hnum', h₁.perPage, h₁.firstFree]
  by_cases hfree : (f.pages rid.pageNo).numRecords - 1 = f.numRecordsPerPage - 1
  · have hbounds : -2147483648 ≤ f.firstFreePageNo ∧ f.firstFreePageNo < 2147483648 := by
      rcases hb.head with hnone | hlink
      · rw [hnone]
        decide
      · exact ⟨Int.le_trans (by decide) hlink.1, Int.lt_trans hlink.2 hnum⟩
    rw [if_pos hfree]
    refine wp_store (wp.change (hunpin _ ?_ rfl))
    rw [show f.clearSlot rid = _ from if_pos hfree]
    exact (h₁.store hk hpage (hnew.setNextFreePageNo hbounds)).setHdr _
  · rw [if_neg hfree]
    refine wp_store (hunpin _ ?_ rfl)
    rw [show f.clearSlot rid = _ from if_neg hfree]
    exact h₁.store hk hpage hnew

theorem Represents.updateRecord {g : RmFileHandle} (h : s.Represents size fd f) (hn : s.run.pins.length ≤ n)
    (ht : f.Tallied) (hbuf : buf.length = f.recordSize) (hupdate : f.updateRecord rid buf = .ok g) (c : κ) (lsn : Int) :
    wp (updateRecord c fd rid buf lsn) (OutOfFrames size n)
      (fun _ s' => s'.Represents size fd g ∧ s'.run.pins = s.run.pins) s := by
  obtain ⟨hin, hset, rfl⟩ := RmFileHandle.updateRecord_returned hupdate
  have hslot := ht.slot _ _ hin hset
  have hcast : (rid.slotNo.toNat : Int) = rid.slotNo := Int.toNat_of_nonneg hslot.1
  refine (h.fetchPageHandle hn hin c).bind fun k s₁ hk => ?_
  obtain ⟨h₁, htook, -, hpage⟩ := hk
  have hk : k ∈ s₁.run.pins := htook.pins ▸ List.mem_cons_self
  have hi : (rid.slotNo.toNat : Int) < s₁.hdr.numRecordsPerPage := by
    rw [hcast, h₁.perPage]
    exact hslot.2
  have hshows := shows_stamp (h₁.data hin hk hpage) (some lsn) (s₁.run.pool.pages k.frame).isDirty
  refine wp.get (wp_isDirty (wp_load ?_))
  generalize stamp (some lsn) (s₁.run.pool.pages k.frame).isDirty (s₁.run.pool.pages k.frame).data = data at hshows
  have hbit := hshows.bitmap _ hi
  rw [hcast, hset] at hbit
  have hwritten := hshows.setSlot h₁.fits hi (hbuf.trans h₁.recordSize.symm)
  rw [hcast] at hwritten
  rw [if_pos hbit]
  have h₂ := h₁.store hk hpage hwritten
  obtain ⟨s', hunpin, h', -, hpins'⟩ := h₂.unpinPage htook.pins true fun hclean => by cases hclean
  exact wp_store (wp.ok hunpin ⟨h', hpins'⟩)

end OpenFile

end Rmdb
