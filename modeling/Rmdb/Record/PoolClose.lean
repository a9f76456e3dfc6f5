-- SUMMARY: What closing a record file writes to disk, and when its frames can be freed.
import Rmdb.Record.PoolRuns

/-!
# Closing a record file

`close_file` flushes the pages of the file and then frees their frames, and `free_all_pages` asserts that nobody has
them pinned. The pages reach the disk whatever calls came before. But the frames can be freed only if no record was
put back: each `insert_record(rid, buf)` leaves a pin.
-/

namespace Rmdb

open Run

-- ---------------------------------------------------------------------------
-- Flushing
-- ---------------------------------------------------------------------------

namespace PoolRun

variable {κ : Type} {fd : Int} {f : FrameId} {s s' s'' : PoolRun κ} {b : BufferPoolManager}

/-- The frame has a page of file `fd`. -/
def HasPageOf (s : PoolRun κ) (fd : Int) (f : FrameId) : Prop :=
  (s.pool.pages f).id.pageNo ≠ noPage ∧ (s.pool.pages f).id.fd = fd

/-- The frame is clean, and its page is on disk. -/
def Flushed (s : PoolRun κ) (f : FrameId) : Prop :=
  (s.pool.pages f).isDirty = false ∧ Backed s.stored s.pool.disk (s.pool.pages f).id

/-- What flushing a frame changes. -/
structure Flushes (s s' : PoolRun κ) : Prop where
  inv : s'.Inv
  unlatched : s'.pool.Unlatched
  poolSize : s'.pool.poolSize = s.pool.poolSize
  stored : s'.stored = s.stored
  pins : s'.pins = s.pins
  id : ∀ f, (s'.pool.pages f).id = (s.pool.pages f).id
  flushed : ∀ f, s.Flushed f → s'.Flushed f

theorem Flushes.refl (h : s.Inv) (hun : s.pool.Unlatched) : Flushes s s :=
  ⟨h, hun, rfl, rfl, rfl, fun _ => rfl, fun _ hf => hf⟩

theorem Flushes.trans (h : Flushes s s') (h' : Flushes s' s'') : Flushes s s'' :=
  ⟨h'.inv, h'.unlatched, h'.poolSize.trans h.poolSize, h'.stored.trans h.stored, h'.pins.trans h.pins,
    fun f => (h'.id f).trans (h.id f), fun f hf => h'.flushed f (h.flushed f hf)⟩

theorem Flushes.hasPageOf (h : Flushes s s') : s'.HasPageOf fd f ↔ s.HasPageOf fd f := by
  rw [HasPageOf, HasPageOf, h.id]

/-- One turn of the loop. -/
theorem Inv.flushFrame (h : s.Inv) (hun : s.pool.Unlatched) (hf : f < s.pool.poolSize) (fd : Int) : ∃ b,
    s.pool.flushFrame fd f = some b ∧ Flushes s { s with pool := b } ∧
      (s.HasPageOf fd f → ({ s with pool := b } : PoolRun κ).Flushed f) := by
  have hl : ¬ (s.pool.pages f).latched = true := by simp [hun f]
  by_cases hid : s.HasPageOf fd f
  · have htable := h.in_use hf (hun f) hid.1
    obtain ⟨hdata, -, -⟩ := h.resident _ f htable (hun f)
    obtain ⟨-, -, -, hno⟩ := h.shape.table _ f htable
    have hself := @Backed.write_self s.stored s.pool.disk _ hno
    have hkept := fun q (hq : Backed s.stored s.pool.disk q) => hq.write hno
    rw [← hdata] at hself hkept
    refine ⟨_, (if_neg hl).trans (if_pos hid), ⟨h.flush htable (hun f), hun.setPage (hun f), rfl, rfl, rfl,
      fun g => ?_, fun g hg => ?_⟩, fun _ => ?_⟩
    · by_cases hgf : g = f
      · simp [BufferPoolManager.setPage, hgf]
      · simp [BufferPoolManager.setPage, hgf]
    · by_cases hgf : g = f
      · subst hgf
        simpa [Flushed, BufferPoolManager.setPage] using hself
      · simpa [Flushed, BufferPoolManager.setPage, hgf] using And.intro hg.1 (hkept _ hg.2)
    · simpa [Flushed, BufferPoolManager.setPage] using hself
  · exact ⟨s.pool, (if_neg hl).trans (if_neg hid), .refl h hun, fun hid' => absurd hid' hid⟩

/-- The loop, over some of the frames. -/
theorem Inv.flushFrames (h : s.Inv) (hun : s.pool.Unlatched) (fd : Int) (frames : List FrameId)
    (hframes : ∀ f ∈ frames, f < s.pool.poolSize) : ∃ b,
      frames.foldlM (fun b f => b.flushFrame fd f) s.pool = some b ∧ Flushes s { s with pool := b } ∧
        ∀ f ∈ frames, s.HasPageOf fd f → ({ s with pool := b } : PoolRun κ).Flushed f := by
  induction frames generalizing s with
  | nil => exact ⟨s.pool, rfl, .refl h hun, by simp⟩
  | cons f frames ih =>
    obtain ⟨b₁, hb₁, hturn, hfirst⟩ := h.flushFrame hun (hframes f List.mem_cons_self) fd
    have hrest : ∀ g ∈ frames, g < b₁.poolSize := fun g hg =>
      hturn.poolSize ▸ hframes g (List.mem_cons_of_mem _ hg)
    obtain ⟨b, hb, hloop, hothers⟩ := ih hturn.inv hturn.unlatched hrest
    refine ⟨b, ?_, hturn.trans hloop, fun g hg hid => ?_⟩
    · rw [List.foldlM_cons, hb₁]
      exact hb
    · rcases List.mem_cons.mp hg with rfl | hg
      · exact hloop.flushed _ (hfirst hid)
      · exact hothers g hg (hturn.hasPageOf.mpr hid)

/-- After `flush_all_pages` every page of the file is on disk. -/
theorem Inv.flushAllPages_runs (h : s.Inv) (hun : s.pool.Unlatched) (fd : Int) : ∃ b,
    s.pool.flushAllPages fd = some b ∧ Flushes s { s with pool := b } ∧
      (∀ f < b.poolSize, ({ s with pool := b } : PoolRun κ).HasPageOf fd f → (b.pages f).isDirty = false) ∧
      ∀ p : PageNo, Backed s.stored b.disk ⟨fd, p⟩ := by
  obtain ⟨b, hb, hflushes, hall⟩ := h.flushFrames hun fd (List.range s.pool.poolSize)
    fun f hf => List.mem_range.mp hf
  have hflushed : ∀ f < b.poolSize, ({ s with pool := b } : PoolRun κ).HasPageOf fd f →
      ({ s with pool := b } : PoolRun κ).Flushed f := fun f hf hid =>
    hall f (List.mem_range.mpr (hflushes.poolSize ▸ hf)) (hflushes.hasPageOf.mp hid)
  refine ⟨b, hb, hflushes, fun f hf hid => (hflushed f hf hid).1, fun p => ?_⟩
  cases hp : b.pageTable ⟨fd, p⟩ with
  | none => exact hflushes.inv.absent _ fun f hf => by cases hp.symm.trans hf
  | some f =>
    obtain ⟨hf, -, hid, hno⟩ := hflushes.inv.shape.table _ _ hp
    have hhas : ({ s with pool := b } : PoolRun κ).HasPageOf fd f :=
      ⟨by rw [hid]; exact fun heq => absurd (heq ▸ hno) (by decide), by rw [hid]⟩
    exact hid ▸ (hflushed f hf hhas).2

/-- The frames of a file can be freed when they are clean and nobody has pinned a page of the file. -/
theorem Inv.allowed_freeAllPages_iff [DecidableEq κ] (h : s.Inv) (hun : s.pool.Unlatched)
    (hclean : ∀ f < s.pool.poolSize, s.HasPageOf fd f → (s.pool.pages f).isDirty = false) :
    s.Allowed (.freeAllPages fd) ↔ ∀ k ∈ s.pins, k.page.fd ≠ fd := by
  constructor
  · intro hallowed k hk hfd
    obtain ⟨htable, -⟩ := h.pins k hk
    obtain ⟨hf, -, hid, hno⟩ := h.shape.table _ _ htable
    have hne : (s.pool.pages k.frame).id.pageNo ≠ noPage := by
      rw [hid]
      exact fun heq => absurd (heq ▸ hno) (by decide)
    exact h.not_held hf (hallowed k.frame hf hne (hid ▸ hfd)).1 k hk rfl
  · intro hpins f hf hne hfd
    refine ⟨?_, hclean f hf ⟨hne, hfd⟩⟩
    rw [h.count f hf (hun f), List.countP_eq_zero]
    intro k hk hkf
    obtain ⟨htable, -⟩ := h.pins k hk
    obtain ⟨-, -, hid, -⟩ := h.shape.table _ _ htable
    rw [of_decide_eq_true hkf] at hid
    exact hpins k hk (hid ▸ hfd)

end PoolRun

-- ---------------------------------------------------------------------------
-- The file
-- ---------------------------------------------------------------------------

namespace OpenFile

variable {κ : Type} [DecidableEq κ] {c : κ} {fd : Int} {recordSize size : Nat} {s : OpenFile κ} {f g : RmFileHandle}
  {pages : List PageNo}

/-- The pins on pages of the file are those that the calls have kept. -/
theorem FileInv.unpinned_iff (h : FileInv c fd recordSize size s f pages) :
    (∀ k ∈ s.run.pins, k.page.fd ≠ fd) ↔ pages = [] := by
  constructor
  · intro hpins
    by_contra hne
    obtain ⟨p, hp⟩ := List.exists_mem_of_ne_nil pages hne
    have hmem : (⟨fd, p⟩ : PageId) ∈ pages.map fun p => ⟨fd, p⟩ := List.mem_map.mpr ⟨p, hp, rfl⟩
    rw [← h.own] at hmem
    obtain ⟨k, hk, hpage⟩ := List.mem_map.mp hmem
    exact hpins k (List.mem_filter.mp hk).1 (congrArg PageId.fd hpage)
  · rintro rfl k hk hfd
    have hown : s.run.pins.filter (·.client = c) = [] := List.map_eq_nil_iff.mp h.own
    refine h.apart k hk (fun hc => ?_) hfd
    exact List.filter_eq_nil_iff.mp hown k hk (decide_eq_true hc)

/-- Closing the file. -/
theorem FileInv.closes (h : FileInv c fd recordSize size s f pages) : ∃ run,
    s.run.step (.flushAllPages fd) = some (.done, run) ∧
      (∀ p, f.InFile p → ∃ data, run.pool.disk.readPage ⟨fd, p⟩ = some data ∧ s.hdr.Shows data (f.pages p)) ∧
      (run.Allowed (.freeAllPages fd) ↔ pages = []) := by
  have hs := h.represents
  obtain ⟨b, hb, hflushes, hclean, hbacked⟩ := hs.inv.flushAllPages_runs hs.unlatched fd
  refine ⟨{ s.run with pool := b }, by rw [PoolRun.step, hb]; rfl, fun p hin => ?_, ?_⟩
  · obtain ⟨data, hstored, hshows⟩ := hs.pages p hin
    exact ⟨data, hbacked p data hstored, hshows⟩
  · exact (hflushes.inv.allowed_freeAllPages_iff hflushes.unlatched hclean).trans h.unpinned_iff

end OpenFile

namespace FileRuns

variable {κ : Type} [DecidableEq κ] {c : κ} {fd : Int} {recordSize size : Nat} {s : OpenFile κ} {f g : RmFileHandle}
  {pages : List PageNo} {fds : FrameId → Int} {disk : DiskManager}

/-- The run lemma. -/
theorem inv (hdisk : ∀ fd, (disk.files fd).length ≤ disk.fd2pageno fd) (hfd : disk.fd2pageno fd = 1)
    (h : FileRuns c fd recordSize (.created recordSize size fds disk) s f pages) :
    OpenFile.FileInv c fd recordSize size s f pages := by
  induction h with
  | start => exact .start hdisk hfd
  | call _ hcall hvalid hnum hexec ih =>
    have hstep := ih.call hcall hvalid hnum
    rw [wp, hexec] at hstep
    exact hstep.2
  | others _ hallowed hforeign hstep hanswer ih => exact ih.others hallowed hforeign hstep hanswer

/-- With frames left the run goes on. -/
theorem goes_on (hdisk : ∀ fd, (disk.files fd).length ≤ disk.fd2pageno fd) (hfd : disk.fd2pageno fd = 1)
    (h : FileRuns c fd recordSize (.created recordSize size fds disk) s f pages) (call : RmCall) {answer : RmAnswer}
    (hcall : call.onPages f = .ok (answer, g)) (hvalid : call.Valid f) (hnum : g.numPages < 2147483648)
    (hframes : s.run.pins.length + 1 < size) : ∃ s',
      FileRuns c fd recordSize (.created recordSize size fds disk) s' g (call.kept f ++ pages) := by
  have hstep := (h.inv hdisk hfd).call hcall hvalid hnum
  unfold wp at hstep
  cases hexec : call.exec c fd s with
  | ok answer' s' => exact ⟨s', .call h hcall hvalid hnum hexec⟩
  | error e s' =>
    rw [hexec] at hstep
    exact absurd hstep.2 (not_le.mpr hframes)

end FileRuns

/-- A file used through `RmFileHandle` and `RmScan` among other clients of the pool. Every call answers as on the file
of pages, unless there are no frames left. When the file is closed its pages are on disk, but its frames can be freed
only if no record was put back. -/
theorem recordFile_on_pool {κ : Type} [DecidableEq κ] {c : κ} {fd : Int} {recordSize poolSize : Nat}
    {fds : FrameId → Int} {disk : DiskManager} {s : OpenFile κ} {f : RmFileHandle} {pages : List PageNo}
    (hdisk : ∀ fd, (disk.files fd).length ≤ disk.fd2pageno fd) (hfd : disk.fd2pageno fd = 1)
    (h : FileRuns c fd recordSize (.created recordSize poolSize fds disk) s f pages) :
    (∀ (call : RmCall) (answer : RmAnswer) (g : RmFileHandle), call.onPages f = .ok (answer, g) → call.Valid f →
      g.numPages < 2147483648 →
      wp (call.exec c fd) (OpenFile.OutOfFrames poolSize (s.run.pins.length + 1)) (fun answer' _ => answer' = answer)
        s) ∧
    (s.run.pins.filter (·.client = c)).map Pin.page = pages.map (fun p => ⟨fd, p⟩) ∧
    ∃ run, s.run.step (.flushAllPages fd) = some (.done, run) ∧
      (∀ p, f.InFile p → ∃ data, run.pool.disk.readPage ⟨fd, p⟩ = some data ∧ s.hdr.Shows data (f.pages p)) ∧
      (run.Allowed (.freeAllPages fd) ↔ pages = []) := by
  have hinv := h.inv hdisk hfd
  refine ⟨fun call answer g hcall hvalid hnum => ?_, hinv.own, hinv.closes⟩
  exact (hinv.call hcall hvalid hnum).mono fun answer' s' hstep => hstep.1

/-- The record on page 1 is deleted and put back, and the file cannot be closed. -/
theorem recordFile_on_pool_back : ∃ (disk : DiskManager) (s : OpenFile Unit) (f : RmFileHandle) (run : PoolRun Unit),
    FileRuns () 3 2048 (.created 2048 3 (fun _ => 0) disk) s f [1] ∧
      s.run.step (.flushAllPages 3) = some (.done, run) ∧ ¬ run.Allowed (.freeAllPages 3) := by
  let disk : DiskManager := ⟨fun _ => [], fun _ => 1⟩
  have hdisk : ∀ fd, (disk.files fd).length ≤ disk.fd2pageno fd := fun _ => Nat.zero_le 1
  have hpins : ∀ (s : OpenFile Unit) (f : RmFileHandle),
      FileRuns () 3 2048 (.created 2048 3 (fun _ => 0) disk) s f [] → s.run.pins.length + 1 < 3 := by
    intro s f h
    have hown := (recordFile_on_pool hdisk rfl h).2.1
    have hall : s.run.pins.filter (·.client = ()) = s.run.pins := List.filter_eq_self.mpr (by simp)
    rw [hall, List.map_nil, List.map_eq_nil_iff] at hown
    rw [hown]
    decide
  have h₀ := @FileRuns.start Unit _ () 3 2048 (.created 2048 3 (fun _ => 0) disk)
  obtain ⟨s₁, h₁⟩ := h₀.goes_on hdisk rfl (.insertRecord halfPage none) (bind_eq_ok_iff.mpr ⟨(_, _), rfl, rfl⟩)
    List.length_replicate (by decide) (hpins _ _ h₀)
  obtain ⟨s₂, h₂⟩ := h₁.goes_on hdisk rfl (.deleteRecord ⟨1, 0⟩ none) (bind_eq_ok_iff.mpr ⟨_, rfl, rfl⟩)
    trivial (by decide) (hpins _ _ h₁)
  obtain ⟨s₃, h₃⟩ := h₂.goes_on hdisk rfl (.insertRecordAt 1 ⟨1, 0⟩ halfPage) (bind_eq_ok_iff.mpr ⟨_, rfl, rfl⟩)
    ⟨⟨by decide, by decide⟩, List.length_replicate⟩ (by decide) (hpins _ _ h₂)
  obtain ⟨-, -, run, hflush, -, hfree⟩ := recordFile_on_pool hdisk rfl h₃
  exact ⟨disk, s₃, _, run, h₃, hflush, fun hallowed => by cases hfree.mp hallowed⟩

end Rmdb
