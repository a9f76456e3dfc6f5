-- SUMMARY: A fetch whose write-back or read fails, what it leaves behind, and the page it blocks.
import Rmdb.Storage.Discipline

/-!
# Fetches that fail

When `write_page` or `read_page` throws, `fetch_page` has taken the frame out of its queue and changed
the page table, and it holds `page_latches_[frame]`.
-/

namespace Rmdb

namespace BufferPoolManager

variable (io : DiskOutcome) (b : BufferPoolManager) (p : PageId)

-- ---------------------------------------------------------------------------
-- When a fetch fails, and what is left
-- ---------------------------------------------------------------------------

/-- A frame is there for the page, and one of the disk calls throws. -/
def DiskFails : Prop :=
  b.pageTable p = none ∧ ∃ f b₁, b.findVictimPage = some (f, b₁) ∧ (b.pages f).latched = false ∧
    ((b.pages f).isDirty = true ∧ io.writeFails.isSome ∨
      io.readFails.isSome ∨ (writeBack (b.pages f) b.disk).readPage p = none)

/-- The pool `b'` is the pool `b` but for the disk, and but for the dirty flag of a page that has
been written back. -/
structure Undone (b' : BufferPoolManager) : Prop where
  table : b'.pageTable = b.pageTable
  free : b'.freeList = b.freeList
  lru : b'.replacer = b.replacer
  frames : ∀ f, (b'.pages f).id = (b.pages f).id ∧ (b'.pages f).data = (b.pages f).data ∧
    (b'.pages f).pinCount = (b.pages f).pinCount ∧ (b'.pages f).latched = (b.pages f).latched ∧
    ((b'.pages f).isDirty = (b.pages f).isDirty ∨ io.writeFails = none ∧ (b'.pages f).isDirty = false)
  /-- The next fetch of the page is the first one again. -/
  again : ∀ io', (b'.fetchPageWith io' p).map Prod.fst = (b.fetchPageWith io' p).map Prod.fst

/-- When the fetch throws, it has undone what it did. -/
def FailsIntact : Prop :=
  ∀ b', b.fetchPageWith io p = some (.threw, b') → b.Undone io p b'

variable {io b p} {b' b₁ : BufferPoolManager} {f g : FrameId} {r : Fetched}

/-- What a fetch that throws leaves: the page is in the table, at a frame whose latch is held. -/
theorem fetchPageWith_threw (h : b.fetchPageWith io p = some (.threw, b')) :
    b.DiskFails io p ∧ ∃ f page, b'.pageTable p = some f ∧ (b.pages f).latched = false ∧
      b'.pages = Function.update b.pages f page ∧ page.latched = true := by
  unfold fetchPageWith at h
  split at h
  · dsimp only at h
    split at h <;> cases h
  · next hp =>
    split at h
    · cases h
    · next f b₁ hv =>
      obtain ⟨hpages, htable, hdisk, -⟩ := findVictimPage_same hv
      dsimp only at h
      split at h
      · cases h
      · next hl =>
        rw [hpages] at hl
        have hl' : (b.pages f).latched = false := by simpa using hl
        split at h
        · next hdirty hwrite =>
          cases h
          rw [hpages] at hdirty
          exact ⟨⟨hp, f, b₁, hv, hl', .inl ⟨hdirty, by simp [hwrite]⟩⟩, f, _,
            Function.update_self .., hl', by rw [setPage, hpages], rfl⟩
        · split at h
          · next hread =>
            cases h
            exact ⟨⟨hp, f, b₁, hv, hl', .inr (.inl (by simp [hread]))⟩, f, _,
            Function.update_self .., hl', by rw [setPage, hpages], rfl⟩
          · next hread =>
            cases h
            rw [hpages, hdisk] at hread
            exact ⟨⟨hp, f, b₁, hv, hl', .inr (.inr hread)⟩, f, _,
            Function.update_self .., hl', by rw [setPage, hpages], rfl⟩
          · cases h

/-- A fetch whose disk calls fail does throw. -/
theorem DiskFails.throws (h : b.DiskFails io p) :
    ∃ b', b.fetchPageWith io p = some (.threw, b') := by
  obtain ⟨hp, f, b₁, hv, hl, hfails⟩ := h
  obtain ⟨hpages, -, hdisk, -⟩ := findVictimPage_same hv
  unfold fetchPageWith
  rw [hp]
  simp only [hv, hpages, hdisk, hl, Bool.false_eq_true, if_false]
  split
  · exact ⟨_, rfl⟩
  · next hwrite =>
    rcases hfails with ⟨hdirty, hsome⟩ | hread | hread
    · obtain ⟨disk, hdisk'⟩ := Option.isSome_iff_exists.mp hsome
      exact absurd hdisk' (hwrite disk hdirty)
    · obtain ⟨data, hdata⟩ := Option.isSome_iff_exists.mp hread
      rw [hdata]
      exact ⟨_, rfl⟩
    · split
      · exact ⟨_, rfl⟩
      · exact ⟨_, rfl⟩
      · next heq =>
        rw [hread] at heq
        cases heq

/-- A failed fetch is never undone: the call leaves the pool as it was exactly when no disk call
of it throws. -/
theorem failsIntact_iff (io : DiskOutcome) (b : BufferPoolManager) (p : PageId) :
    b.FailsIntact io p ↔ ¬ b.DiskFails io p := by
  constructor
  · intro hintact hfails
    obtain ⟨b', hthrew⟩ := hfails.throws
    obtain ⟨-, f, page, -, hfree, hpages, hlatched⟩ := fetchPageWith_threw hthrew
    have hsame := ((hintact b' hthrew).frames f).2.2.2.1
    rw [hpages, Function.update_self, hlatched, hfree] at hsame
    contradiction
  · intro hfine b' hthrew
    exact absurd (fetchPageWith_threw hthrew).1 hfine

/-- A pool of one frame, whose page is dirty and no longer pinned. The disk is full when
`fetch_page` writes that page back. -/
theorem failed_write_not_intact : ∃ b : BufferPoolManager,
    Calls (fun _ _ _ => True) (.init 1 (fun _ => -1) ⟨fun _ => [PageData.zero], fun _ => 1⟩) b ∧
      ¬ b.FailsIntact ⟨some b.disk, none⟩ ⟨4, 0⟩ := by
  have h₁ := (@Calls.start (fun _ _ _ => True)
    (.init 1 (fun _ => -1) ⟨fun _ => [PageData.zero], fun _ => 1⟩)).next .fine (.newPage 3)
      trivial trivial rfl
  have h₂ := h₁.next .fine (.unpinPage ⟨3, 1⟩ true) trivial trivial rfl
  refine ⟨_, h₂, fun hintact => ?_⟩
  have hlatched := ((hintact _ rfl).frames 0).2.2.2.1
  cases hlatched

-- ---------------------------------------------------------------------------
-- The page stays blocked
-- ---------------------------------------------------------------------------

/-- The page is in the table at a frame whose latch is held, and no other frame has it. -/
structure Blocked (b : BufferPoolManager) (p : PageId) (f : FrameId) : Prop where
  numbered : p.pageNo ≠ noPage
  table : b.pageTable p = some f
  latched : (b.pages f).latched = true
  alone : ∀ g, (b.pages g).latched = false → (b.pages g).id ≠ p

/-- Every call about the page waits for the latch. -/
theorem Blocked.never_returns (h : b.Blocked p f) (io : DiskOutcome) (isDirty : Bool) :
    b.fetchPageWith io p = none ∧ b.unpinPage p isDirty = none ∧ b.flushPage p = none ∧
      b.deletePage p = none ∧ b.freePage p = none := by
  unfold fetchPageWith unpinPage flushPage deletePage freePage
  simp [h.table, h.latched]

/-- Another frame gets another page. -/
theorem Blocked.elsewhere (h : b.Blocked p f) (hg : (b.pages g).latched = false) {page : Page}
    (hpages : b'.pages = Function.update b.pages g page)
    (hid : page.latched = false → page.id ≠ p)
    (htable : b'.pageTable p = b.pageTable p) : b'.Blocked p f := by
  have hne : f ≠ g := by
    rintro rfl
    rw [h.latched] at hg
    contradiction
  refine ⟨h.numbered, htable.trans h.table, ?_, fun k hk => ?_⟩
  · rw [hpages, Function.update_of_ne hne]
    exact h.latched
  · rw [hpages] at hk ⊢
    by_cases hkg : k = g
    · subst hkg
      rw [Function.update_self] at hk ⊢
      exact hid hk
    · rw [Function.update_of_ne hkg] at hk ⊢
      exact h.alone k hk

/-- The page of another frame goes out of the table, and page `q` comes in. -/
theorem Blocked.table_replace (h : b.Blocked p f) (hg : (b.pages g).latched = false) {q : PageId}
    (hq : q ≠ p) :
    Function.update (Function.update b.pageTable (b.pages g).id none) q (some g) p =
      b.pageTable p := by
  rw [Function.update_of_ne hq.symm, Function.update_of_ne (h.alone g hg).symm]

theorem Blocked.fetchPage (h : b.Blocked p f) {q : PageId}
    (hr : b.fetchPageWith io q = some (r, b')) : b'.Blocked p f := by
  unfold fetchPageWith at hr
  split at hr
  · next g hq =>
    dsimp only at hr
    split at hr
    · cases hr
    · next hl =>
      cases hr
      have hl' : (b.pages g).latched = false := by simpa using hl
      exact h.elsewhere hl' rfl (fun _ => h.alone g hl') rfl
  · next hq =>
    have hqp : q ≠ p := by
      rintro rfl
      rw [h.table] at hq
      cases hq
    split at hr
    · cases hr
      exact h
    · next g b₁ hv =>
      obtain ⟨hpages, htable, -, -⟩ := findVictimPage_same hv
      dsimp only at hr
      rw [hpages, htable] at hr
      split at hr
      · cases hr
      · next hl =>
        have hl' : (b.pages g).latched = false := by simpa using hl
        have hreplace := h.table_replace hl' hqp
        split at hr
        · cases hr
          exact h.elsewhere hl' (by rw [setPage, hpages]) (fun hlatched => by cases hlatched) hreplace
        · split at hr
          · cases hr
            exact h.elsewhere hl' (by rw [setPage, hpages]) (fun _ => hqp) hreplace
          · cases hr
            exact h.elsewhere hl' (by rw [setPage, hpages]) (fun _ => hqp) hreplace
          · cases hr
            exact h.elsewhere hl' (by rw [setPage, hpages]) (fun _ => hqp) hreplace

theorem Blocked.newPage (h : b.Blocked p f) {fd pageNo : Int}
    (hother : (⟨fd, b.disk.fd2pageno fd⟩ : PageId) ≠ p)
    (hr : b.newPageWith io fd = some (r, pageNo, b')) : b'.Blocked p f := by
  unfold newPageWith at hr
  split at hr
  · cases hr
    exact h
  · next g b₁ hv =>
    obtain ⟨hpages, htable, hdisk, -⟩ := findVictimPage_same hv
    dsimp only [DiskManager.allocatePage] at hr
    rw [hpages, htable, hdisk] at hr
    split at hr
    · cases hr
    · next hl =>
      have hl' : (b.pages g).latched = false := by simpa using hl
      split at hr
      · cases hr
        exact h.elsewhere hl' (by rw [setPage, hpages]) (fun hlatched => by cases hlatched)
          (Function.update_of_ne (h.alone g hl').symm ..)
      · cases hr
        exact h.elsewhere hl' (by rw [setPage, hpages]) (fun _ => hother) (h.table_replace hl' hother)

/-- A call that changes the flags and the count of a frame, and nothing in the table. -/
theorem Blocked.modify (h : b.Blocked p f) (hg : (b.pages g).latched = false) {page : Page}
    (hpages : b'.pages = Function.update b.pages g page) (hid : page.id = (b.pages g).id)
    (htable : b'.pageTable = b.pageTable) : b'.Blocked p f :=
  h.elsewhere hg hpages (fun _ => hid ▸ h.alone g hg) (by rw [htable])

theorem Blocked.unpinPage (h : b.Blocked p f) {q : PageId} {isDirty answer : Bool}
    (hr : b.unpinPage q isDirty = some (answer, b')) : b'.Blocked p f := by
  unfold BufferPoolManager.unpinPage at hr
  split at hr
  · cases hr
    exact h
  · next g hq =>
    dsimp only at hr
    split at hr
    · cases hr
    · next hl =>
      split at hr
      · cases hr
        exact h
      · cases hr
        exact h.modify (by simpa using hl) rfl rfl rfl

theorem Blocked.flushPage (h : b.Blocked p f) {q : PageId} {answer : Option Bool}
    (hr : b.flushPageWith io q = some (answer, b')) : b'.Blocked p f := by
  unfold flushPageWith at hr
  split at hr
  · cases hr
    exact h
  · next g hq =>
    dsimp only at hr
    split at hr
    · cases hr
    · next hl =>
      have hl' : (b.pages g).latched = false := by simpa using hl
      split at hr
      · cases hr
        exact h.modify hl' rfl rfl rfl
      · cases hr
        exact h.modify hl' rfl rfl rfl

/-- A frame loses its page, which goes out of the table. -/
theorem Blocked.vacate (h : b.Blocked p f) (hg : (b.pages g).latched = false) {page : Page}
    {q : PageId} (hq : q ≠ p) (hpages : b'.pages = Function.update b.pages g page)
    (hid : page.id.pageNo = noPage) (htable : b'.pageTable = Function.update b.pageTable q none) :
    b'.Blocked p f := by
  refine h.elsewhere hg hpages (fun _ heq => h.numbered (heq ▸ hid)) ?_
  rw [htable, Function.update_of_ne hq.symm]

/-- A call about a page that it finds at an unlatched frame is not about the blocked page. -/
theorem Blocked.ne_of_table (h : b.Blocked p f) {q : PageId} (hq : b.pageTable q = some g)
    (hg : (b.pages g).latched = false) : q ≠ p := by
  rintro rfl
  rw [h.table, Option.some.injEq] at hq
  subst hq
  rw [h.latched] at hg
  contradiction

theorem Blocked.deletePage (h : b.Blocked p f) {q : PageId} {answer : Option Bool}
    (hr : b.deletePageWith io q = some (answer, b')) : b'.Blocked p f := by
  unfold deletePageWith at hr
  split at hr
  · cases hr
    exact h
  · next g hq =>
    dsimp only at hr
    split at hr
    · cases hr
    · next hl =>
      have hl' : (b.pages g).latched = false := by simpa using hl
      have hqp := h.ne_of_table hq hl'
      split at hr
      · cases hr
        exact h
      · split at hr
        · cases hr
          exact h.elsewhere hl' rfl (fun hlatched => by cases hlatched) (Function.update_of_ne hqp.symm ..)
        · cases hr
          exact h.vacate hl' hqp rfl rfl rfl

theorem Blocked.freePage (h : b.Blocked p f) {q : PageId} (hr : b.freePage q = some b') :
    b'.Blocked p f := by
  unfold BufferPoolManager.freePage at hr
  split at hr
  · cases hr
    exact h
  · next g hq =>
    split at hr
    · cases hr
    · next hl =>
      cases hr
      have hl' : (b.pages g).latched = false := by simpa using hl
      exact h.vacate hl' (h.ne_of_table hq hl') rfl rfl rfl

theorem Blocked.flushFrames (h : b.Blocked p f) {fails : FrameId → Option DiskManager} {fd : Int}
    {frames : List FrameId} {threw : Bool} (hr : b.flushFramesWith fails fd frames = some (threw, b')) :
    b'.Blocked p f := by
  induction frames generalizing b with
  | nil =>
    cases hr
    exact h
  | cons g rest ih =>
    unfold flushFramesWith at hr
    dsimp only at hr
    split at hr
    · cases hr
    · next hl =>
      have hl' : (b.pages g).latched = false := by simpa using hl
      split at hr
      · split at hr
        · cases hr
          exact h.modify hl' rfl rfl rfl
        · refine ih ?_ hr
          exact h.modify hl' rfl rfl rfl
      · exact ih h hr

theorem Blocked.freeAllPages (h : b.Blocked p f) {fd : Int} (hr : b.freeAllPages fd = some b') :
    b'.Blocked p f := by
  refine loop_inv (P := fun b => b.Blocked p f) (fun b₁ b₂ g _ hb hbody => ?_) h hr
  unfold freeFrameOf at hbody
  dsimp only at hbody
  split at hbody
  · cases hbody
  · next hl =>
    have hl' : (b₁.pages g).latched = false := by simpa using hl
    split at hbody
    · cases hbody
      exact hb.vacate hl' (hb.alone g hl') rfl rfl rfl
    · cases hbody
      exact hb

/-- The runs from `b` in which `new_page` never allocates the number of page `p`. -/
inductive RunsWithout (p : PageId) (b₀ : BufferPoolManager) : BufferPoolManager → Prop
  | start : RunsWithout p b₀ b₀
  | call {b b' : BufferPoolManager} {io : CallOutcome} {call : FrameCall} :
      RunsWithout p b₀ b → (∀ fd, call = .newPage fd → (⟨fd, b.disk.fd2pageno fd⟩ : PageId) ≠ p) →
      b.perform io call = some b' → RunsWithout p b₀ b'

theorem Blocked.perform (h : b.Blocked p f) {io : CallOutcome} {call : FrameCall}
    (hother : ∀ fd, call = .newPage fd → (⟨fd, b.disk.fd2pageno fd⟩ : PageId) ≠ p)
    (hr : b.perform io call = some b') : b'.Blocked p f := by
  cases call with
  | newPage fd =>
    obtain ⟨⟨r, pageNo, b₁⟩, hcall, rfl⟩ := Option.map_eq_some_iff.mp hr
    exact h.newPage (hother fd rfl) hcall
  | fetchPage q =>
    obtain ⟨⟨r, b₁⟩, hcall, rfl⟩ := Option.map_eq_some_iff.mp hr
    exact h.fetchPage hcall
  | unpinPage q isDirty =>
    obtain ⟨⟨r, b₁⟩, hcall, rfl⟩ := Option.map_eq_some_iff.mp hr
    exact h.unpinPage hcall
  | flushPage q =>
    obtain ⟨⟨r, b₁⟩, hcall, rfl⟩ := Option.map_eq_some_iff.mp hr
    exact h.flushPage hcall
  | flushAllPages fd =>
    obtain ⟨⟨r, b₁⟩, hcall, rfl⟩ := Option.map_eq_some_iff.mp hr
    exact h.flushFrames hcall
  | deletePage q =>
    obtain ⟨⟨r, b₁⟩, hcall, rfl⟩ := Option.map_eq_some_iff.mp hr
    exact h.deletePage hcall
  | freePage q => exact h.freePage hr
  | freeAllPages fd => exact h.freeAllPages hr

theorem RunsWithout.blocked {b₀ : BufferPoolManager} (h : RunsWithout p b₀ b)
    (h₀ : b₀.Blocked p f) : b.Blocked p f := by
  induction h with
  | start => exact h₀
  | call _ hother hcall ih => exact ih.perform hother hcall

/-- A fetch that throws in a pool in order blocks its page. -/
theorem Shape.blocked (h : b.Shape) (hno : 0 ≤ p.pageNo)
    (hout : ∀ g, b.poolSize ≤ g → (b.pages g).id.pageNo = noPage)
    (hr : b.fetchPageWith io p = some (.threw, b')) : ∃ f, b'.Blocked p f := by
  obtain ⟨⟨hp, -⟩, f, page, htable, -, hpages, hlatched⟩ := fetchPageWith_threw hr
  have hnumbered : p.pageNo ≠ noPage := by
    intro heq
    rw [heq] at hno
    exact absurd hno (by decide)
  -- Before the call no frame that is free to be used has the page.
  have halone : ∀ g, (b.pages g).latched = false → (b.pages g).id ≠ p := by
    rintro g hg rfl
    by_cases hlt : g < b.poolSize
    · by_cases hfree : g ∈ b.freeList
      · exact hnumbered (h.free g hfree).2.pageNo
      · rw [h.used g hlt hfree hg] at hp
        cases hp
    · exact hnumbered (hout g (Nat.le_of_not_lt hlt))
  refine ⟨f, hnumbered, htable, ?_, fun g hg => ?_⟩
  · rw [hpages, Function.update_self]
    exact hlatched
  · rw [hpages] at hg ⊢
    by_cases hgf : g = f
    · subst hgf
      rw [Function.update_self, hlatched] at hg
      contradiction
    · rw [Function.update_of_ne hgf] at hg ⊢
      exact halone g hg

/-- In every run after such a fetch, as long as the number is not allocated again, a call about
the page never returns. -/
theorem Shape.failed_fetch_blocks (h : b.Shape) (hno : 0 ≤ p.pageNo)
    (hout : ∀ g, b.poolSize ≤ g → (b.pages g).id.pageNo = noPage)
    (hr : b.fetchPageWith io p = some (.threw, b')) {b₂ : BufferPoolManager}
    (hrun : RunsWithout p b' b₂) (io' : DiskOutcome) (isDirty : Bool) :
    b₂.fetchPageWith io' p = none ∧ b₂.unpinPage p isDirty = none ∧ b₂.flushPage p = none ∧
      b₂.deletePage p = none ∧ b₂.freePage p = none := by
  obtain ⟨f, hblocked⟩ := h.blocked hno hout hr
  exact (hrun.blocked hblocked).never_returns io' isDirty

end BufferPoolManager

end Rmdb
