-- SUMMARY: Where the bytes of a page are while several threads use the buffer pool.
import Rmdb.Storage.ThreadNumbers

/-!
# Bytes under several threads

A page is in its frame, or on disk, or in a frame out of which a thread has still to write it. As
long as no thread looks for the page in between, what it finds is not older than what was saved.
-/

namespace Rmdb

open History (Event handles kept fresh)

namespace Threads

variable {κ : Type} [DecidableEq κ]

structure Content (s : Threads κ) (past : List (Event κ PageId PageData)) : Prop where
  resident : ∀ p f, s.pool.pageTable p = some f → s.Owned f ∨ s.Lost f ∨
    (0 ≤ p.pageNo ∧ some (s.pool.pages f).data ∈ fresh p past)
  kept : ∀ k ∈ s.pins, some (s.pool.pages k.frame).data ∈ kept k.client k.page past
  dirty : ∀ f, (s.pool.pages f).isDirty = true → (∃ u q, s.pc u = .written q f) ∨
    (0 ≤ (s.pool.pages f).id.pageNo ∧ some (s.pool.pages f).data ∈ fresh (s.pool.pages f).id past)
  dirty_table : ∀ f g, (s.pool.pages f).isDirty = true →
    s.pool.pageTable (s.pool.pages f).id = some g → (∃ u q, s.pc u = .written q f) ∨ g = f
  dirty_own : ∀ t f, (s.pool.pages f).isDirty = true →
    s.pool.pageTable (s.pool.pages f).id = some f → (s.pc t).owns = some f →
      ∃ u q, s.pc u = .deleting q f
  free_clean : ∀ f ∈ s.pool.freeList, (s.pool.pages f).isDirty = true →
    ∃ u q, s.pc u = .deleting q f
  clean : ∀ t p f, s.pc t = .reading p f ∨ s.pc t = .cleared p f →
    (s.pool.pages f).isDirty = false
  disk : ∀ p, s.pool.disk.readPage p ∈ fresh p past ∨ ∃ f, s.Unwritten f p

theorem Content.start (poolSize : Nat) (fds : FrameId → Int) (disk : DiskManager) :
    (start poolSize fds disk : Threads κ).Content [] where
  resident _ _ hp := nomatch hp
  kept _ hk := nomatch hk
  dirty _ hf := nomatch hf
  dirty_table _ _ hf := nomatch hf
  dirty_own _ _ hf := nomatch hf
  free_clean _ _ hf := nomatch hf
  clean _ _ _ ht := nomatch ht
  disk _ := .inl trivial

variable {s s' : Threads κ} {t : κ} {p : PageId} {f : FrameId}
variable {events past : List (Event κ PageId PageData)}

/-- The disk after the page of a frame is written back. -/
theorem Content.writeBack (h : s.Content past) (hf : ∀ u q, s.pc u ≠ .written q f) (q : PageId) :
    (BufferPoolManager.writeBack (s.pool.pages f) s.pool.disk).readPage q ∈ fresh q past ∨
      ∃ g, g ≠ f ∧ s.Unwritten g q := by
  rw [BufferPoolManager.writeBack]
  split
  · next hdirty =>
    obtain ⟨hno, hfresh⟩ := (h.dirty f hdirty).resolve_left (by rintro ⟨u, q, hu⟩; exact hf u q hu)
    by_cases hq : q = (s.pool.pages f).id
    · rw [hq, DiskManager.readPage_writePage_self hno]
      exact .inl hfresh
    · have hother : ∀ g, s.Unwritten g q → g ≠ f := by
        rintro g hg rfl
        exact hq hg.1.symm
      rcases @DiskManager.readPage_writePage_ne s.pool.disk _ q (s.pool.pages f).data hno hq with
        hread | ⟨hnone, hread⟩
      · rw [hread]
        exact (h.disk q).imp_right fun hg => hg.imp fun g hg => ⟨hother g hg, hg⟩
      · rcases h.disk q with hdisk | ⟨g, hg⟩
        · rw [hnone] at hdisk
          exact .inl (History.fresh_of_none hdisk ▸ Set.mem_univ _)
        · exact .inr ⟨g, hother g hg, hg⟩
  · next hdirty =>
    refine (h.disk q).imp_right fun hg => hg.imp fun g hg => ⟨?_, hg⟩
    rintro rfl
    exact hdirty hg.2.1

/-- A thread that reads a page finds nothing of it left to write. -/
theorem Content.nothing_unwritten (hs : s.Placed) (h : s.Content past)
    (hpc : s.pc t = .reading p f) (g : FrameId) : ¬ s.Unwritten g p := by
  rintro ⟨rfl, hdirty, hwritten⟩
  have hp := hs.loads_table t (s.pool.pages g).id f (by simp [hpc, PoolPc.loads])
    (by simp [hpc, PoolPc.owns])
  obtain rfl : f = g :=
    (h.dirty_table g f hdirty hp).resolve_left (by rintro ⟨u, q, hu⟩; exact hwritten u q hu)
  obtain ⟨u, q, hu⟩ := h.dirty_own t f hdirty hp (by simp [hpc, PoolPc.owns])
  obtain rfl := hs.latch_one t u f (by simp [hpc, PoolPc.latches]) (by simp [hu, PoolPc.latches])
  cases hpc.symm.trans hu

theorem Content.read (hs : s.Placed) (h : s.Content past) (hpc : s.pc t = .reading p f) :
    s.pool.disk.readPage p ∈ fresh p past :=
  (h.disk p).resolve_right fun ⟨g, hg⟩ => h.nothing_unwritten hs hpc g hg

-- ---------------------------------------------------------------------------
-- One frame
-- ---------------------------------------------------------------------------

/-- What `Content` says of one frame. -/
structure FrameContent (s : Threads κ) (past : List (Event κ PageId PageData)) (f : FrameId) :
    Prop where
  resident : ∀ p, s.pool.pageTable p = some f → s.Owned f ∨ s.Lost f ∨
    (0 ≤ p.pageNo ∧ some (s.pool.pages f).data ∈ fresh p past)
  kept : ∀ k ∈ s.pins, k.frame = f → some (s.pool.pages f).data ∈ History.kept k.client k.page past
  dirty : (s.pool.pages f).isDirty = true → (∃ u q, s.pc u = .written q f) ∨
    (0 ≤ (s.pool.pages f).id.pageNo ∧ some (s.pool.pages f).data ∈ fresh (s.pool.pages f).id past)
  dirty_table : ∀ g, (s.pool.pages f).isDirty = true →
    s.pool.pageTable (s.pool.pages f).id = some g → (∃ u q, s.pc u = .written q f) ∨ g = f
  dirty_own : ∀ t, (s.pool.pages f).isDirty = true →
    s.pool.pageTable (s.pool.pages f).id = some f → (s.pc t).owns = some f →
      ∃ u q, s.pc u = .deleting q f
  free_clean : f ∈ s.pool.freeList → (s.pool.pages f).isDirty = true →
    ∃ u q, s.pc u = .deleting q f
  clean : ∀ t p, s.pc t = .reading p f ∨ s.pc t = .cleared p f → (s.pool.pages f).isDirty = false

theorem Content.frame (h : s.Content past) (f : FrameId) : s.FrameContent past f where
  resident q := h.resident q f
  kept := by
    rintro k hk rfl
    exact h.kept k hk
  dirty := h.dirty f
  dirty_table := h.dirty_table f
  dirty_own u := h.dirty_own u f
  free_clean := h.free_clean f
  clean u q := h.clean u q f

/-- Nothing has to be written out of a frame that is clean. -/
theorem FrameContent.of_clean (hclean : (s.pool.pages f).isDirty = false)
    (hresident : ∀ p, s.pool.pageTable p = some f → s.Owned f ∨ s.Lost f ∨
      (0 ≤ p.pageNo ∧ some (s.pool.pages f).data ∈ fresh p past))
    (hkept : ∀ k ∈ s.pins, k.frame = f →
      some (s.pool.pages f).data ∈ History.kept k.client k.page past) :
    s.FrameContent past f := by
  have hdirty : (s.pool.pages f).isDirty ≠ true := by simp [hclean]
  exact ⟨hresident, hkept, fun h => absurd h hdirty, fun _ h => absurd h hdirty,
    fun _ h => absurd h hdirty, fun _ h => absurd h hdirty, fun _ _ _ => hclean⟩

omit [DecidableEq κ] in
theorem Elsewhere.unwritten (he : Elsewhere s s' f) {g : FrameId} (hg : g ≠ f) :
    s'.Unwritten g p ↔ s.Unwritten g p := by
  rw [Unwritten, Unwritten, he.pages g hg]
  refine and_congr_right' (and_congr_right' (forall_congr' fun u => forall_congr' fun q => ?_))
  exact not_congr (he.pc_iff hg rfl)

/-- The other frames are as before if the page table does not give their pages to frame `f`. -/
theorem FrameContent.elsewhere {g : FrameId} (h : s.FrameContent past g) (hg : g ≠ f)
    (he : Elsewhere s s' f) (hfree : g ∈ s'.pool.freeList → g ∈ s.pool.freeList)
    (hpins : ∀ k ∈ s'.pins, k.frame = g → k ∈ s.pins)
    (hclaim : (s.pool.pages g).isDirty = true → s'.pool.pageTable (s.pool.pages g).id = some f →
      ∃ u q, s.pc u = .written q g) : s'.FrameContent past g := by
  have hwritten : (∃ u q, s'.pc u = .written q g) ↔ ∃ u q, s.pc u = .written q g :=
    exists_congr fun u => exists_congr fun q => he.pc_iff hg rfl
  have hdeleting : (∃ u q, s'.pc u = .deleting q g) ↔ ∃ u q, s.pc u = .deleting q g :=
    exists_congr fun u => exists_congr fun q => he.pc_iff hg rfl
  have hpage := he.pages g hg
  constructor
  case resident =>
    intro q hq
    rw [he.owned hg, he.lost hg, hpage]
    exact h.resident q ((he.table q g hg).mp hq)
  case kept =>
    intro k hk hkg
    rw [hpage]
    exact h.kept k (hpins k hk hkg) hkg
  case dirty =>
    rw [hpage, hwritten]
    exact h.dirty
  case dirty_table =>
    intro g' hdirty hq
    rw [hpage] at hdirty hq
    rw [hwritten]
    by_cases hgf : g' = f
    · exact .inl (hclaim hdirty (hgf ▸ hq))
    · exact h.dirty_table g' hdirty ((he.table _ g' hgf).mp hq)
  case dirty_own =>
    intro u hdirty hq hu
    rw [hpage] at hdirty hq
    rw [hdeleting]
    exact h.dirty_own u hdirty ((he.table _ g hg).mp hq) ((he.owns_iff hg).mp hu)
  case free_clean =>
    intro hmem
    rw [hpage, hdeleting]
    exact h.free_clean (hfree hmem)
  case clean =>
    intro u q hu
    rw [he.pc_iff hg rfl, he.pc_iff hg rfl] at hu
    rw [hpage]
    exact h.clean u q hu

/-- A step has to see to the frame that it has to do with, and to the disk. -/
theorem Content.elsewhere (h : s.Content past) (he : Elsewhere s s' f)
    (hf : s'.FrameContent past f)
    (hfree : ∀ g ∈ s'.pool.freeList, g ≠ f → g ∈ s.pool.freeList)
    (hpins : ∀ k ∈ s'.pins, k.frame ≠ f → k ∈ s.pins)
    (hclaim : ∀ g, g ≠ f → (s.pool.pages g).isDirty = true →
      s'.pool.pageTable (s.pool.pages g).id = some f → ∃ u q, s.pc u = .written q g)
    (hdisk : ∀ q, s'.pool.disk.readPage q ∈ fresh q past ∨ ∃ g, s'.Unwritten g q) :
    s'.Content past := by
  have hframes : ∀ g, s'.FrameContent past g := by
    intro g
    by_cases hg : g = f
    · exact hg ▸ hf
    · exact (h.frame g).elsewhere hg he (fun hmem => hfree g hmem hg)
        (fun k hk hkg => hpins k hk (hkg ▸ hg)) (hclaim g hg)
  constructor
  case resident => exact fun q g => (hframes g).resident q
  case kept => exact fun k hk => (hframes k.frame).kept k hk rfl
  case dirty => exact fun g => (hframes g).dirty
  case dirty_table => exact fun g => (hframes g).dirty_table
  case dirty_own => exact fun u g => (hframes g).dirty_own u
  case free_clean => exact fun g => (hframes g).free_clean
  case clean => exact fun u q g => (hframes g).clean u q
  case disk => exact hdisk

/-- A thread goes on with a frame, and the page table stays. -/
theorem Content.moves (h : s.Content past) {c : PoolPc} (hm : Moves s s' t f c)
    (hpins : ∀ k ∈ s'.pins, k.frame ≠ f → k ∈ s.pins) (hf : s'.FrameContent past f)
    (hdisk : ∀ q, s'.pool.disk.readPage q ∈ fresh q past ∨ ∃ g, s'.Unwritten g q) :
    s'.Content past := by
  refine h.elsewhere hm.elsewhere hf (fun g hg _ => hm.freeList ▸ hg) hpins
    (fun g hg hdirty hq => ?_) hdisk
  rw [hm.pageTable] at hq
  exact (h.dirty_table g f hdirty hq).resolve_right (Ne.symm hg)

/-- What is on the disk stays there, and what has still to be written is not in the frame. -/
theorem Content.disk_elsewhere (h : s.Content past) (he : Elsewhere s s' f)
    (hdisk : s'.pool.disk = s.pool.disk) (hf : ∀ q, s.Unwritten f q → s'.Unwritten f q)
    (q : PageId) : s'.pool.disk.readPage q ∈ fresh q past ∨ ∃ g, s'.Unwritten g q := by
  rw [hdisk]
  refine (h.disk q).imp_right fun hg => hg.imp fun g hg => ?_
  by_cases hgf : g = f
  · exact hgf ▸ hf q (hgf ▸ hg)
  · exact (he.unwritten hgf).mpr hg

/-- The frame whose page is written back has nothing left to be written. -/
theorem Content.disk_writeBack (h : s.Content past) (he : Elsewhere s s' f)
    (hf : ∀ u q, s.pc u ≠ .written q f)
    (hdisk : s'.pool.disk = BufferPoolManager.writeBack (s.pool.pages f) s.pool.disk) (q : PageId) :
    s'.pool.disk.readPage q ∈ fresh q past ∨ ∃ g, s'.Unwritten g q := by
  rw [hdisk]
  exact (h.writeBack hf q).imp_right fun hg => hg.imp fun g hg => (he.unwritten hg.1).mpr hg.2

/-- A step that leaves the page in its frame as it is. -/
theorem FrameContent.moves (h : s.FrameContent past f) {c : PoolPc} (hm : Moves s s' t f c)
    (hpins : s'.pins = s.pins)
    (hpage : (s'.pool.pages f).id = (s.pool.pages f).id ∧
      (s'.pool.pages f).data = (s.pool.pages f).data ∧
      (s'.pool.pages f).isDirty = (s.pool.pages f).isDirty)
    (hstart : ∀ q, s.pc t ≠ .written q f ∧ s.pc t ≠ .deleting q f)
    (hc : ∀ q, c ≠ .reading q f ∧ c ≠ .cleared q f)
    (hresident : ∀ q, s.pool.pageTable q = some f → s'.Owned f ∨ s'.Lost f ∨
      (0 ≤ q.pageNo ∧ some (s.pool.pages f).data ∈ fresh q past)) :
    s'.FrameContent past f := by
  obtain ⟨hid, hdata, hdirty⟩ := hpage
  have hother : ∀ {u d}, s.pc u = d → s.pc t ≠ d → s'.pc u = d := by
    rintro u d hu hd
    rw [hm.other, hu]
    rintro rfl
    exact hd hu
  have hwritten : (∃ u q, s.pc u = .written q f) → ∃ u q, s'.pc u = .written q f := by
    rintro ⟨u, q, hu⟩
    exact ⟨u, q, hother hu (hstart q).1⟩
  have hdeleting : (∃ u q, s.pc u = .deleting q f) → ∃ u q, s'.pc u = .deleting q f := by
    rintro ⟨u, q, hu⟩
    exact ⟨u, q, hother hu (hstart q).2⟩
  constructor
  case resident =>
    intro q hq
    rw [hdata]
    exact hresident q (hm.pageTable ▸ hq)
  case kept =>
    intro k hk hkf
    rw [hdata]
    exact h.kept k (hpins ▸ hk) hkf
  case dirty =>
    rw [hid, hdata, hdirty]
    exact fun hd => (h.dirty hd).imp_left hwritten
  case dirty_table =>
    rw [hid, hdirty, hm.pageTable]
    exact fun g hd hq => (h.dirty_table g hd hq).imp_left hwritten
  case dirty_own =>
    rw [hid, hdirty, hm.pageTable]
    exact fun u hd hq hu => hdeleting (h.dirty_own u hd hq (hm.owns hu).1)
  case free_clean =>
    rw [hdirty, hm.freeList]
    exact fun hmem hd => hdeleting (h.free_clean hmem hd)
  case clean =>
    intro u q hu
    have hut : u ≠ t := by
      rintro rfl
      rw [hm.own] at hu
      exact hu.elim (hc q).1 (hc q).2
    rw [hm.other hut] at hu
    rw [hdirty]
    exact h.clean u q hu

theorem Content.fetched (h : s.Content past) (r : Option PageData) :
    s.Content (.fetched t p r :: past) :=
  ⟨h.resident, h.kept, h.dirty, h.dirty_table, h.dirty_own, h.free_clean, h.clean, h.disk⟩

theorem Content.created (h : s.Content past) : s.Content (.created t p :: past) :=
  ⟨h.resident, h.kept, h.dirty, h.dirty_table, h.dirty_own, h.free_clean, h.clean, h.disk⟩

-- ---------------------------------------------------------------------------
-- Steps
-- ---------------------------------------------------------------------------

theorem Content.waiting (h : s.Content past) (hpc : s.pc t = .waiting p f)
    (hstep : s.resume t = some (events, s')) : s'.Content (events ++ past) := by
  simp only [resume, hpc] at hstep
  split at hstep
  · cases hstep
  cases hstep
  have hm : Moves s _ t f (.evicting p f) := .set (hpc ▸ .evict p)
    { s.pool.pages f with latched := true } s.pool.disk false s.pins
  refine h.moves hm (fun k hk _ => hk) ((h.frame f).moves hm rfl ?_ (by simp [hpc]) (by simp)
    fun q _ => .inl (hm.owned rfl)) (h.disk_elsewhere hm.elsewhere rfl fun q =>
      hm.unwritten ?_ ?_ (by simp)) <;>
    simp [BufferPoolManager.setPage]

theorem Content.evicting (hs : s.Placed) (h : s.Content past) (hpc : s.pc t = .evicting p f)
    (hstep : s.resume t = some (events, s')) : s'.Content (events ++ past) := by
  have hwritten : ∀ u q, s.pc u ≠ .written q f := by
    intro u q hu
    obtain rfl := hs.own_one u t f (hu ▸ rfl) (hpc ▸ rfl)
    cases hpc.symm.trans hu
  simp only [resume, hpc] at hstep
  cases hstep
  have hm : Moves s _ t f (.reading p f) := .set (hpc ▸ .read p)
    { s.pool.pages f with isDirty := false }
    (BufferPoolManager.writeBack (s.pool.pages f) s.pool.disk) s.latch s.pins
  refine h.moves hm (fun k hk _ => hk) (.of_clean ?_ (fun q _ => .inl (hm.owned rfl)) ?_)
    (h.disk_writeBack hm.elsewhere hwritten rfl)
  · simp [BufferPoolManager.setPage]
  · simpa [goTo, BufferPoolManager.setPage] using (h.frame f).kept

theorem Content.taken (h : s.Content past) {fd : Int} (hpc : s.pc t = .taken fd f)
    (hstep : s.resume t = some (events, s')) : s'.Content (events ++ past) := by
  simp only [resume, hpc] at hstep
  cases hstep
  have hm : Moves s _ t f (.allocated ⟨fd, (s.pool.disk.allocatePage fd).1⟩ f) :=
    .keep (hpc ▸ .allocate fd _) (s.pool.disk.allocatePage fd).2
  refine h.moves hm (fun k hk _ => hk) ((h.frame f).moves hm rfl ⟨rfl, rfl, rfl⟩ (by simp [hpc])
    (by simp) fun q _ => .inl (hm.owned rfl)) fun q => ?_
  -- `allocate_page` writes nothing.
  refine (h.disk q).imp_right fun hg => hg.imp fun g hg => ?_
  by_cases hgf : g = f
  · subst hgf
    exact hm.unwritten rfl rfl (by simp) hg
  · exact (hm.elsewhere.unwritten hgf).mpr hg

theorem Content.allocated (hs : s.Placed) (h : s.Content past) (hpc : s.pc t = .allocated p f)
    (hstep : s.resume t = some (events, s')) : s'.Content (events ++ past) := by
  have hwritten : ∀ u q, s.pc u ≠ .written q f := by
    intro u q hu
    obtain rfl := hs.own_one u t f (hu ▸ rfl) (hpc ▸ rfl)
    cases hpc.symm.trans hu
  simp only [resume, hpc] at hstep
  split at hstep
  · cases hstep
  cases hstep
  have hm : Moves s _ t f (.written p f) := .set (hpc ▸ .write p)
    { s.pool.pages f with latched := true }
    (BufferPoolManager.writeBack (s.pool.pages f) s.pool.disk) s.latch s.pins
  refine h.moves hm (fun k hk _ => hk) ((h.frame f).moves hm rfl ?_ (by simp [hpc]) (by simp)
    fun q _ => .inl (hm.owned rfl)) (h.disk_writeBack hm.elsewhere hwritten rfl)
  simp [BufferPoolManager.setPage]

theorem Content.written (hh : s.Held past) (h : s.Content past) (hpc : s.pc t = .written p f)
    (hstep : s.resume t = some (events, s')) : s'.Content (events ++ past) := by
  have howned : s.Owned f := ⟨t, hpc ▸ rfl⟩
  simp only [resume, hpc] at hstep
  cases hstep
  have hm : Moves s _ t f (.filled p f) := .set (hpc ▸ .fill p)
    ⟨p, PageData.zero, false, 1, false⟩ s.pool.disk s.latch s.pins
  refine h.moves hm (fun k hk _ => hk) (.of_clean ?_ (fun q _ => .inl (hm.owned rfl))
    fun k hk hkf => absurd hkf (hh.not_owned howned hk))
    (h.disk_elsewhere hm.elsewhere rfl fun q hq => absurd hpc (hq.2.2 t p))
  simp [BufferPoolManager.setPage]

theorem Content.reading (hs : s.Placed) (hh : s.Held past) (h : s.Content past)
    (hpc : s.pc t = .reading p f) (hstep : s.resume t = some (events, s')) :
    s'.Content (events ++ past) := by
  have howns : (s.pc t).owns = some f := hpc ▸ rfl
  have hmine : (s.pc t).latches = some f := hpc ▸ rfl
  have hp := hs.loads_table t p f (hpc ▸ rfl) howns
  have hpin : ∀ k ∈ s.pins, k.frame ≠ f := fun k hk => hh.not_owned ⟨t, howns⟩ hk
  have hclean := h.clean t p f (.inl hpc)
  have hread := h.read hs hpc
  have hpage : ∀ q, s.pool.pageTable q = some f → q = p := by
    intro q hq
    have hloads := hs.table_own t q f hq howns
    rw [hpc] at hloads
    exact (Option.some.inj hloads).symm
  simp only [resume, hpc] at hstep
  split at hstep
  · next data hdata =>
    have hno : 0 ≤ p.pageNo := by
      by_contra hno
      simp [DiskManager.readPage, hno] at hdata
    have hkept : History.kept t p past = Set.univ := by
      refine hh.kept_univ t p ((hh.countP_page ?_).2 t)
      rintro k hk rfl
      exact hpin k hk (Option.some.inj ((hh.hold k hk).1.symm.trans hp))
    cases hstep
    have hm : Moves s _ t f .idle := .set (hpc ▸ .fetched p)
      ⟨p, data, (s.pool.pages f).isDirty, 1, false⟩ s.pool.disk s.latch (⟨t, p, f⟩ :: s.pins)
    refine (h.moves hm (fun k hk hkf => ?_) (.of_clean ?_ (fun q hq => .inr (.inr ?_)) ?_)
      (h.disk_elsewhere hm.elsewhere rfl fun q hq => ?_)).fetched _
    · exact (List.mem_cons.mp hk).resolve_left (by rintro rfl; exact hkf rfl)
    · simpa [BufferPoolManager.setPage] using hclean
    · obtain rfl := hpage q hq
      exact ⟨hno, by simpa [BufferPoolManager.setPage, hdata] using hread⟩
    · intro k hk hkf
      obtain rfl := (List.mem_cons.mp hk).resolve_right fun hk => hpin k hk hkf
      simp [hkept]
    · cases hclean.symm.trans hq.2.1
  · cases hstep
    have hm : Moves s _ t f .idle := .set (hpc ▸ .fetched p)
      ⟨p, PageData.zero, (s.pool.pages f).isDirty, 1, (s.pool.pages f).latched⟩ s.pool.disk s.latch
      s.pins
    refine (h.moves hm (fun k hk _ => hk) (.of_clean ?_ (fun q hq => .inr (.inl ⟨?_, fun u hu => ?_⟩))
      fun k hk hkf => absurd hkf (hpin k hk))
      (h.disk_elsewhere hm.elsewhere rfl fun q hq => ?_)).fetched _
    · simpa [BufferPoolManager.setPage] using hclean
    · simpa [BufferPoolManager.setPage] using hs.latch_held t f hmine
    · by_cases hut : u = t
      · simp [hut, PoolPc.latches] at hu
      · exact hs.alone (.inr hmine) u hut (by simpa [goTo, hut] using hu)
    · cases hclean.symm.trans hq.2.1

theorem Content.filled (hs : s.Placed) (hh : s.Held past) (hc : s.Counted past)
    (h : s.Content past) (hpc : s.pc t = .filled p f)
    (hstep : s.resume t = some (events, s')) : s'.Content (events ++ past) := by
  have howns : (s.pc t).owns = some f := hpc ▸ rfl
  have hpin : ∀ k ∈ s.pins, k.frame ≠ f := fun k hk => hh.not_owned ⟨t, howns⟩ hk
  have hmaking : (s.pc t).making = some p := hpc ▸ rfl
  obtain ⟨hno, -, hnone, huniv⟩ := hc.making t p hmaking
  obtain ⟨hid, -, -, hclean⟩ := hc.filled t p f hpc
  have hown : ∀ q, s.pool.pageTable q ≠ some f := by
    intro q hq
    have hloads := hs.table_own t q f hq howns
    rw [hpc] at hloads
    cases hloads
  have hkept : History.kept t p past = Set.univ := by
    refine hh.kept_univ t p ((hh.countP_page ?_).2 t)
    rintro k hk rfl
    cases hnone.symm.trans (hh.hold k hk).1
  simp only [resume, hpc, hid] at hstep
  split at hstep
  · cases hstep
  cases hstep
  have hnew : ∀ q, Function.update s.pool.pageTable p (some f) q = some f → q = p := by
    intro q hq
    by_contra hqp
    rw [Function.update_of_ne hqp] at hq
    exact hown q hq
  have he : Elsewhere s { s.goTo t .idle with
      pool := { s.pool with pageTable := Function.update s.pool.pageTable p (some f) }
      pins := ⟨t, p, f⟩ :: s.pins } f := by
    refine .of_update rfl (hpc ▸ PoolPc.within_of_frame rfl) (PoolPc.within_idle f)
      (fun q g hg => ?_) fun _ _ => rfl
    by_cases hq : q = p
    · simp [hq, hnone, hg.symm]
    · simp [hq]
  refine (h.elsewhere he (.of_clean hclean (fun q hq => .inr (.inr ?_)) ?_) (fun g hg _ => hg)
    (fun k hk hkf => ?_) (fun g hg hdirty hq => ?_)
    (h.disk_elsewhere he rfl fun q hq => ?_)).created
  · obtain rfl := hnew q hq
    exact ⟨hno, huniv ▸ Set.mem_univ _⟩
  · intro k hk hkf
    obtain rfl := (List.mem_cons.mp hk).resolve_right fun hk => hpin k hk hkf
    simp [hkept]
  · exact (List.mem_cons.mp hk).resolve_left (by rintro rfl; exact hkf rfl)
  · -- No other frame has the page.
    have hfilled := hc.making_id t p g hmaking (hnew _ hq)
    cases hpc.symm.trans hfilled
    exact absurd rfl hg
  · cases hclean.symm.trans hq.2.1

theorem Content.deleting (hs : s.Placed) (h : s.Content past) (hpc : s.pc t = .deleting p f)
    (hstep : s.resume t = some (events, s')) : s'.Content (events ++ past) := by
  have hclears : (s.pc t).clears = some f := hpc ▸ rfl
  have hwritten : ∀ u q, s.pc u ≠ .written q f := by
    intro u q hu
    have hearly := hs.clears_own t u f hclears (hu ▸ rfl)
    rw [hu] at hearly
    cases hearly
  simp only [resume, hpc] at hstep
  cases hstep
  have hm : Moves s _ t f (.cleared p f) := .set (hpc ▸ .clear p)
    { s.pool.pages f with isDirty := false }
    (BufferPoolManager.writeBack (s.pool.pages f) s.pool.disk) s.latch s.pins
  refine h.moves hm (fun k hk _ => hk) (.of_clean ?_ (fun q hq => .inl ?_) ?_)
    (h.disk_writeBack hm.elsewhere hwritten rfl)
  · simp [BufferPoolManager.setPage]
  · exact hm.owned_of_clears hs hclears hq
  · simpa [goTo, BufferPoolManager.setPage] using (h.frame f).kept

theorem Content.cleared (hs : s.Placed) (hh : s.Held past) (h : s.Content past)
    (hpc : s.pc t = .cleared p f) (hstep : s.resume t = some (events, s')) :
    s'.Content (events ++ past) := by
  have hclears : (s.pc t).clears = some f := hpc ▸ rfl
  have hclean := h.clean t p f (.inr hpc)
  simp only [resume, hpc] at hstep
  cases hstep
  have hm : Moves s _ t f .idle := .set (hpc ▸ .deleted p)
    { s.pool.pages f with id := ⟨-1, noPage⟩, data := PageData.zero, latched := false } s.pool.disk
    s.latch s.pins
  refine h.moves hm (fun k hk _ => hk) (.of_clean ?_ (fun q hq => .inl ?_)
    fun k hk hkf => absurd hkf (hh.not_cleared hs hclears hk))
    (h.disk_elsewhere hm.elsewhere rfl fun q hq => ?_)
  · simpa [BufferPoolManager.setPage] using hclean
  · exact hm.owned_of_clears hs hclears hq
  · cases hclean.symm.trans hq.2.1

/-- A pin more, and no frame has other bytes. -/
theorem Content.retouch (h : s.Content past) (hpc : s'.pc = s.pc)
    (htable : s'.pool.pageTable = s.pool.pageTable) (hfree : s'.pool.freeList = s.pool.freeList)
    (hdisk : s'.pool.disk = s.pool.disk)
    (hpages : ∀ g, ∃ n, s'.pool.pages g = { s.pool.pages g with pinCount := n })
    (hpins : ∀ k ∈ s'.pins, k ∈ s.pins ∨
      some (s.pool.pages k.frame).data ∈ History.kept k.client k.page past) :
    s'.Content past := by
  have hid : ∀ g, (s'.pool.pages g).id = (s.pool.pages g).id := by
    intro g
    obtain ⟨n, hg⟩ := hpages g
    rw [hg]
  have hdata : ∀ g, (s'.pool.pages g).data = (s.pool.pages g).data := by
    intro g
    obtain ⟨n, hg⟩ := hpages g
    rw [hg]
  have hdirty : ∀ g, (s'.pool.pages g).isDirty = (s.pool.pages g).isDirty := by
    intro g
    obtain ⟨n, hg⟩ := hpages g
    rw [hg]
  have hlatched : ∀ g, (s'.pool.pages g).latched = (s.pool.pages g).latched := by
    intro g
    obtain ⟨n, hg⟩ := hpages g
    rw [hg]
  constructor
  case resident =>
    intro q g hq
    rw [Owned, Lost, hpc, hlatched, hdata]
    exact h.resident q g (htable ▸ hq)
  case kept =>
    intro k hk
    rw [hdata]
    exact (hpins k hk).elim (h.kept k) id
  case dirty =>
    intro g
    rw [hdirty, hpc, hid, hdata]
    exact h.dirty g
  case dirty_table =>
    intro g g'
    rw [hdirty, hpc, hid, htable]
    exact h.dirty_table g g'
  case dirty_own =>
    intro u g
    rw [hdirty, hpc, hid, htable]
    exact h.dirty_own u g
  case free_clean =>
    intro g
    rw [hdirty, hpc, hfree]
    exact h.free_clean g
  case clean =>
    intro u q g
    rw [hdirty, hpc]
    exact h.clean u q g
  case disk =>
    intro q
    rw [hdisk]
    refine (h.disk q).imp_right fun hg => hg.imp fun g hg => ?_
    rw [Unwritten, hid, hdirty, hpc]
    exact hg

/-- A thread takes a victim whose page, as far as it has still to be written, is not the page that
the frame is taken for. -/
theorem Content.take (h : s.Content past) {b : BufferPoolManager} (hv : Victim s.pool f b)
    {c : PoolPc} (hpc : s.pc t = .idle) (hown : c.owns = some f) (hearly : c.early)
    (hpcs : s'.pc = Function.update s.pc t c) (hpins : s'.pins = s.pins)
    (hpool : s'.pool.freeList = b.freeList ∧ s'.pool.pages = b.pages ∧ s'.pool.disk = b.disk)
    (htable : ∀ q g, g ≠ f → (s'.pool.pageTable q = some g ↔ s.pool.pageTable q = some g))
    (hself : ∀ g, s'.pool.pageTable (s.pool.pages f).id = some g → g = f ∧
      ((s.pool.pages f).isDirty = true → ∃ u q, s.pc u = .deleting q f))
    (hclaim : ∀ g, g ≠ f → (s.pool.pages g).isDirty = true →
      s'.pool.pageTable (s.pool.pages g).id = some f → ∃ u q, s.pc u = .written q g) :
    s'.Content past := by
  obtain ⟨hfree, hpages, hdisk⟩ := hpool
  rw [hv.pages] at hpages
  rw [hv.disk] at hdisk
  have hpct : s'.pc t = c := by rw [hpcs, Function.update_self]
  have hpcu : ∀ u, u ≠ t → s'.pc u = s.pc u := fun u hu => by rw [hpcs, Function.update_of_ne hu]
  have hc : (∀ q, c ≠ .written q f) ∧ ∀ q, c ≠ .reading q f ∧ c ≠ .cleared q f := by
    refine ⟨fun q => ?_, fun q => ⟨?_, ?_⟩⟩ <;>
    · rintro rfl
      cases hearly
  have hkeep : ∀ {u d}, s.pc u = d → d ≠ .idle → s'.pc u = d := by
    rintro u d hu hd
    rw [hpcu, hu]
    rintro rfl
    exact hd (hu.symm.trans hpc)
  have he : Elsewhere s s' f := .of_update hpcs (hpc ▸ PoolPc.within_idle f)
    (PoolPc.within_of_frame (PoolPc.frame_of_owns hown)) htable fun g _ => congrFun hpages g
  have hwritten : (∃ u q, s.pc u = .written q f) → ∃ u q, s'.pc u = .written q f := by
    rintro ⟨u, q, hu⟩
    exact ⟨u, q, hkeep hu (by simp)⟩
  have hdeleting : (∃ u q, s.pc u = .deleting q f) → ∃ u q, s'.pc u = .deleting q f := by
    rintro ⟨u, q, hu⟩
    exact ⟨u, q, hkeep hu (by simp)⟩
  refine h.elsewhere he ?_ (fun g hg _ => ?_) (fun k hk _ => hpins ▸ hk) hclaim
    (h.disk_elsewhere he hdisk fun q hq => ?_)
  · constructor
    case resident => exact fun q _ => .inl ⟨t, by rw [hpct, hown]⟩
    case kept =>
      rw [hpins, hpages]
      exact (h.frame f).kept
    case dirty =>
      rw [hpages]
      exact fun hd => (h.dirty f hd).imp_left hwritten
    case dirty_table =>
      rw [hpages]
      exact fun g _ hq => .inr (hself g hq).1
    case dirty_own =>
      rw [hpages]
      exact fun u hd hq _ => hdeleting ((hself f hq).2 hd)
    case free_clean =>
      intro hmem
      rw [hfree, hv.free] at hmem
      exact absurd rfl hmem.2
    case clean =>
      intro u q hu
      rw [hpages]
      by_cases hut : u = t
      · rw [hut, hpct] at hu
        exact (hu.elim (hc.2 q).1 (hc.2 q).2).elim
      · exact h.clean u q f (hpcu u hut ▸ hu)
  · rw [hfree, hv.free] at hg
    exact hg.1
  · rw [Unwritten, hpages]
    refine ⟨hq.1, hq.2.1, fun u q' hu => ?_⟩
    by_cases hut : u = t
    · exact hc.1 q' (hpct.symm.trans (hut ▸ hu))
    · exact hq.2.2 u q' (hpcu u hut ▸ hu)

theorem Content.fetchPage (hs : s.Placed) (hh : s.Held past) (h : s.Content past)
    (hpc : s.pc t = .idle) (hclear : s.Clear (.fetchPage p))
    (hstep : s.enter t (.fetchPage p) = some (events, s')) : s'.Content (events ++ past) := by
  simp only [enter] at hstep
  split at hstep
  · next f hp =>
    split at hstep
    · cases hstep
    cases hstep
    have hkept : some (s.pool.pages f).data ∈ History.kept t p past := by
      by_cases hzero : handles t p past = 0
      · exact hh.kept_univ t p hzero ▸ Set.mem_univ _
      · rw [hh.handles_eq] at hzero
        obtain ⟨k, hk, hkt⟩ := List.countP_pos_iff.mp (Nat.pos_of_ne_zero hzero)
        obtain ⟨rfl, rfl⟩ := of_decide_eq_true hkt
        obtain rfl := Option.some.inj (hp.symm.trans (hh.hold k hk).1)
        exact h.kept k hk
    refine Content.fetched ?_ _
    refine h.retouch rfl rfl rfl rfl (fun g => ?_) fun k hk => ?_
    · by_cases hg : g = f
      · subst hg
        exact ⟨_, Function.update_self ..⟩
      · exact ⟨(s.pool.pages g).pinCount, Function.update_of_ne hg ..⟩
    · rcases List.mem_cons.mp hk with rfl | hk
      · exact .inr hkept
      · exact .inl hk
  · next hp =>
    split at hstep
    · cases hstep
      exact h
    next f b hv =>
    obtain ⟨hclaim, hpending⟩ := hclear hp f b hv
    replace hv := hs.victim hv
    have hcut := hs.table_erase (hs.victim_unowned hv) hclaim
    cases hstep
    refine h.take hv hpc rfl rfl rfl rfl ⟨rfl, rfl, rfl⟩ (fun q g hg => ?_) (fun g hq => ?_)
      fun g hg hdirty hq => ?_
    · by_cases hq : q = p
      · simp [hq, hp, hg.symm]
      · simp [hq, hv.pages, hv.pageTable, hcut, hg]
    · simp only [hv.pages, hv.pageTable] at hq
      by_cases hid : (s.pool.pages f).id = p
      · rw [hid, Function.update_self] at hq
        refine ⟨(Option.some.inj hq).symm, fun hdirty => ?_⟩
        rcases hv.mem with hfree | hlru
        · exact h.free_clean f hfree hdirty
        · cases hp.symm.trans (hid ▸ (hs.lru f hlru).1)
      · rw [Function.update_of_ne hid, Function.update_self] at hq
        cases hq
    · -- The frame that has the page has still to be written.
      have hid : (s.pool.pages g).id = p := by
        by_contra hid
        simp only [hv.pages, hv.pageTable, Function.update_of_ne hid] at hq
        exact ((hcut _ f).mp hq).2 rfl
      by_contra hnone
      refine hpending g hg ⟨hid, hdirty, fun u q hu => hnone ⟨u, q, hu⟩⟩

theorem Content.newPage {fd : Int} (hs : s.Placed) (h : s.Content past) (hpc : s.pc t = .idle)
    (hclear : s.Clear (.newPage fd)) (hstep : s.enter t (.newPage fd) = some (events, s')) :
    s'.Content (events ++ past) := by
  simp only [enter] at hstep
  split at hstep
  · cases hstep
    exact h
  next f b hv =>
  have hclaim := hclear f b hv
  replace hv := hs.victim hv
  have hcut := hs.table_erase (hs.victim_unowned hv) hclaim
  cases hstep
  refine h.take (t := t) (c := .taken fd f) hv hpc rfl rfl rfl rfl ⟨rfl, rfl, rfl⟩ (fun q g hg => ?_)
    (fun g hq => ?_) fun g _ _ hq => ?_
  · simp [hv.pages, hv.pageTable, hcut, hg]
  · simp [hv.pages] at hq
  · simp only [hv.pages, hv.pageTable] at hq
    exact absurd rfl ((hcut _ f).mp hq).2

theorem Content.unpinPage {isDirty : Bool} (h : s.Content past)
    (hpc : s.pc t = .idle) (hstep : s.enter t (.unpinPage p isDirty) = some (events, s')) :
    s'.Content (events ++ past) := by
  simp only [enter] at hstep
  split at hstep
  · cases hstep
    exact h
  next f hp =>
  split at hstep
  · cases hstep
  next hfree =>
  cases hstep
  have hm : Moves s _ t f (.unpinning p f isDirty) := .set (hpc ▸ .unpin p isDirty)
    { s.pool.pages f with latched := true } s.pool.disk s.latch s.pins
  refine h.moves hm (fun k hk _ => hk) ((h.frame f).moves hm rfl ?_ (by simp [hpc]) (by simp)
    fun q hq => ?_) (h.disk_elsewhere hm.elsewhere rfl fun q => hm.unwritten ?_ ?_ (by simp))
  · simp [BufferPoolManager.setPage]
  · rcases h.resident q f hq with ⟨u, hu⟩ | hlost | hdata
    · have hut : u ≠ t := by
        rintro rfl
        cases hpc ▸ hu
      exact .inl ⟨u, (congrArg PoolPc.owns (hm.other hut)).trans hu⟩
    · exact absurd hlost.1 hfree
    · exact .inr (.inr hdata)
  · simp [BufferPoolManager.setPage]
  · simp [BufferPoolManager.setPage]

theorem Content.deletePage (hs : s.Placed) (h : s.Content past) (hpc : s.pc t = .idle)
    (hlatch : s.latch = false) (hstep : s.enter t (.deletePage p) = some (events, s')) :
    s'.Content (events ++ past) := by
  simp only [enter] at hstep
  split at hstep
  · cases hstep
    exact h
  next f hp =>
  split_ifs at hstep with hfree hpin
  · cases hstep
    exact h
  cases hstep
  have hun := hs.unowned hlatch hp (by simpa using hfree)
  have hid := ((hs.table_id p f hp).resolve_left hun).1
  have hcut := hs.table_erase hun (.inr (hid ▸ hp))
  rw [hid] at hcut
  have he : Elsewhere s { s.goTo t (.deleting p f) with
      pool := { s.pool.setPage f { s.pool.pages f with latched := true } with
        replacer := s.pool.replacer.pin f
        pageTable := Function.update s.pool.pageTable p none
        freeList := s.pool.freeList ++ [f] } } f := by
    refine .of_update rfl (hpc ▸ PoolPc.within_idle f) (PoolPc.within_of_frame rfl)
      (fun q g hg => ?_) fun g hg => ?_
    · exact (hcut q g).trans (and_iff_left hg)
    · simp [BufferPoolManager.setPage, hg]
  have hother : ∀ {u d}, d ≠ .idle → s.pc u = d → (s.goTo t (.deleting p f)).pc u = d := by
    rintro u d hd hu
    have hut : u ≠ t := by
      rintro rfl
      exact hd (hu.symm.trans hpc)
    exact (Function.update_of_ne hut _ _).trans hu
  refine h.elsewhere he ?_ (fun g hg hgf => ?_) (fun k hk _ => hk)
    (fun g _ _ hq => absurd rfl ((hcut _ f).mp hq).2) (h.disk_elsewhere he rfl fun q hq => ?_)
  · constructor
    case resident => exact fun q hq => absurd rfl ((hcut q f).mp hq).2
    case kept => simpa [goTo, BufferPoolManager.setPage] using (h.frame f).kept
    case dirty =>
      simp only [BufferPoolManager.setPage, Function.update_self]
      refine fun hd => (h.dirty f hd).imp_left ?_
      rintro ⟨u, q, hu⟩
      exact ⟨u, q, hother (by simp) hu⟩
    case dirty_table =>
      intro g _ hq
      simp [BufferPoolManager.setPage, hid] at hq
    case dirty_own =>
      intro u _ hq
      simp [BufferPoolManager.setPage, hid] at hq
    case free_clean => exact fun _ _ => ⟨t, p, Function.update_self ..⟩
    case clean =>
      intro u q hu
      simp only [BufferPoolManager.setPage, Function.update_self]
      by_cases hut : u = t
      · simp [goTo, hut] at hu
      · exact h.clean u q f (by simpa [goTo, hut] using hu)
  · exact (List.mem_append.mp hg).resolve_right (by simpa using hgf)
  · obtain ⟨hqid, hdirty, hwritten⟩ := hq
    refine ⟨?_, ?_, fun u q' hu => ?_⟩
    · simpa [BufferPoolManager.setPage] using hqid
    · simpa [BufferPoolManager.setPage] using hdirty
    · by_cases hut : u = t
      · simp [goTo, hut] at hu
      · exact hwritten u q' (by simpa [goTo, hut] using hu)

theorem Content.store (hs : s.Placed) (hh : s.Held past) (h : s.Content past)
    (hk : ⟨t, p, f⟩ ∈ s.pins) (data : PageData) :
    ({ s with pool := s.pool.setPage f { s.pool.pages f with data := data } } :
      Threads κ).Content (.stored t p data :: past) := by
  obtain ⟨hp, hun, -⟩ := hh.hold _ hk
  have hid := ((hs.table_id p f hp).resolve_left hun).1
  have hpage : ∀ q, s.pool.pageTable q = some f → q = p := by
    intro q hq
    exact ((hs.table_id q f hq).resolve_left hun).1.symm.trans hid
  have hold := fun k hk => (hh.hold k hk).1
  clear hs hh
  cases h
  constructor <;>
    simp only [BufferPoolManager.setPage, Function.update_apply, Owned, Lost, Unwritten,
      History.fresh, History.kept] at * <;>
    grind

theorem Content.unpinning {isDirty : Bool} (hs : s.Placed) (hh : s.Held past)
    (h : s.Content past) (hpc : s.pc t = .unpinning p f isDirty)
    (hstep : s.resume t = some (events, s')) : s'.Content (events ++ past) := by
  simp only [resume, hpc] at hstep
  have hk := hh.unpinning t p f isDirty hpc
  rw [if_neg (Nat.pos_iff_ne_zero.mp (hh.pinned hk))] at hstep
  obtain ⟨hp, hun, hlost⟩ := hh.hold _ hk
  have hid := ((hs.table_id p f hp).resolve_left hun).1
  have hpage : ∀ q, s.pool.pageTable q = some f → q = p := by
    intro q hq
    exact ((hs.table_id q f hq).resolve_left hun).1.symm.trans hid
  have hmem : ∀ k ∈ s.pins.erase ⟨t, p, f⟩, k ∈ s.pins := fun k => List.mem_of_mem_erase
  have hfree := hs.table_free p f hp
  have hlatch := hs.latch_one t
  have hold := fun k hk => (hh.hold k hk).1
  have hkept := h.kept _ hk
  cases hstep
  clear hs hh
  cases h
  constructor <;>
    simp only [goTo, BufferPoolManager.setPage, Function.update_apply, Owned, Lost, Unwritten,
      List.cons_append, List.nil_append, History.fresh, History.kept] at * <;>
    grind [PoolPc.latches, PoolPc.owns, PoolPc.loads]

end Threads

end Rmdb
