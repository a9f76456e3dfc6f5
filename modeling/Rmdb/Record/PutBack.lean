-- SUMMARY: When the loop of the second insert_record ends.
import Rmdb.Record.Scan

/-!
# Putting records back

`insert_record(rid, buf)` first calls `fetch_free_page_handle` until the page it gets is not
before the page of `rid`. The call answers with the head of the free chain and leaves the chain
as it is, so the second turn of the loop is like the first one.

`RmCalls` has all calls of a file handle, in any order and with any rid. Only little holds of
every file that they lead to: after `insert_record(rid, buf)` the free chain may have lost pages.
-/

namespace Rmdb

/-- A record file after any calls that returned, and the rids that records were given so far. -/
inductive RmCalls (recordSize : Nat) : RmFileHandle → List Rid → Prop where
  | create : RmCalls recordSize (RmFileHandle.createFile recordSize) []
  | insert {f f' : RmFileHandle} {rids : List Rid} {buf : RmRecord} {rid : Rid} :
    RmCalls recordSize f rids → f.insertRecord buf = .ok (rid, f') →
    RmCalls recordSize f' (rid :: rids)
  | insertAt {f f' : RmFileHandle} {rids : List Rid} {buf : RmRecord} {rid : Rid} {fuel : Nat} :
    RmCalls recordSize f rids → f.insertRecordAt fuel rid buf = .ok f' →
    RmCalls recordSize f' (rid :: rids)
  | delete {f f' : RmFileHandle} {rids : List Rid} {rid : Rid} :
    RmCalls recordSize f rids → f.deleteRecord rid = .ok f' → RmCalls recordSize f' rids
  | update {f f' : RmFileHandle} {rids : List Rid} {buf : RmRecord} {rid : Rid} :
    RmCalls recordSize f rids → f.updateRecord rid buf = .ok f' → RmCalls recordSize f' rids
  | reopen {f : RmFileHandle} {rids : List Rid} :
    RmCalls recordSize f rids → RmCalls recordSize f.closeFile.openFile rids

namespace RmFileHandle

variable {f g : RmFileHandle} {rids : List Rid} {rid : Rid} {buf : RmRecord} {p : PageNo}

-- ---------------------------------------------------------------------------
-- Calls that returned
-- ---------------------------------------------------------------------------

theorem fetchPageHandle_ok {page : RmPage} (hfetch : f.fetchPageHandle p = .ok page) :
    f.InFile p ∧ f.pages p = page := by
  simp only [fetchPageHandle] at hfetch
  split at hfetch
  · rename_i hin
    exact ⟨hin, Except.ok.inj hfetch⟩
  · cases hfetch

/-- The slot that the loop finds is an empty slot of the page. -/
theorem freeSlotLoop_some {page : RmPage} {left i j : Nat} (h : freeSlotLoop page left i = some j) :
    j < i + left ∧ page.bitmap j = false := by
  induction left generalizing i with
  | zero => cases h
  | succ left ih =>
    simp only [freeSlotLoop] at h
    split at h
    · have := ih h
      exact ⟨by omega, this.2⟩
    · rename_i hbit
      cases h
      exact ⟨by omega, by simpa using hbit⟩

theorem insertRecord_returned (h : f.insertRecord buf = .ok (rid, g)) : ∃ (f₁ : RmFileHandle) (i : Nat),
    f.fetchFreePageHandle = (rid.pageNo, f₁) ∧ rid.slotNo = i ∧
      (0 ≤ rid.slotNo ∧ rid.slotNo < f₁.numRecordsPerPage) ∧
      (f₁.pages rid.pageNo).bitmap rid.slotNo = false ∧ g = f₁.fillSlot rid buf := by
  simp only [insertRecord] at h
  generalize hp : f.fetchFreePageHandle = pair at h
  obtain ⟨p, f₁⟩ := pair
  cases hfetch : f₁.fetchPageHandle p with
  | error e =>
    rw [hfetch] at h
    cases h
  | ok page =>
    obtain ⟨-, rfl⟩ := fetchPageHandle_ok hfetch
    rw [hfetch] at h
    simp only [bind, Except.bind] at h
    split at h
    · cases h
    · rename_i i hslot
      cases h
      obtain ⟨hlt, hbit⟩ := freeSlotLoop_some hslot
      exact ⟨f₁, i, rfl, rfl, ⟨Int.natCast_nonneg i, by simp only; omega⟩, hbit, rfl⟩

theorem insertRecordAt_returned {fuel : Nat} (h : f.insertRecordAt fuel rid buf = .ok g) :
    ∃ f₁, fetchFreeUntil rid.pageNo fuel f = .ok f₁ ∧ f₁.InFile rid.pageNo ∧
      ((f₁.pages rid.pageNo).bitmap rid.slotNo = true ∧ g = f₁.writeSlot rid buf ∨
        (f₁.pages rid.pageNo).bitmap rid.slotNo = false ∧ g = f₁.fillSlot rid buf) := by
  simp only [insertRecordAt] at h
  cases hloop : RmFileHandle.fetchFreeUntil rid.pageNo fuel f with
  | error e =>
    rw [hloop] at h
    cases h
  | ok f₁ =>
    rw [hloop] at h
    simp only [bind, Except.bind] at h
    cases hfetch : f₁.fetchPageHandle rid.pageNo with
    | error e =>
      rw [hfetch] at h
      cases h
    | ok page =>
      obtain ⟨hin, rfl⟩ := fetchPageHandle_ok hfetch
      rw [hfetch] at h
      refine ⟨f₁, rfl, hin, ?_⟩
      cases hbit : (f₁.pages rid.pageNo).bitmap rid.slotNo with
      | true => exact .inl ⟨rfl, by simpa [hbit, pure, Except.pure] using h.symm⟩
      | false => exact .inr ⟨rfl, by simpa [hbit, pure, Except.pure] using h.symm⟩

theorem deleteRecord_returned (h : f.deleteRecord rid = .ok g) :
    f.InFile rid.pageNo ∧ (f.pages rid.pageNo).bitmap rid.slotNo = true ∧ g = f.clearSlot rid := by
  simp only [deleteRecord] at h
  cases hfetch : f.fetchPageHandle rid.pageNo with
  | error e =>
    rw [hfetch] at h
    cases h
  | ok page =>
    obtain ⟨hin, rfl⟩ := fetchPageHandle_ok hfetch
    rw [hfetch] at h
    simp only [bind, Except.bind] at h
    split at h
    · rename_i hbit
      exact ⟨hin, hbit, (Except.ok.inj h).symm⟩
    · cases h

theorem updateRecord_returned (h : f.updateRecord rid buf = .ok g) :
    f.InFile rid.pageNo ∧ (f.pages rid.pageNo).bitmap rid.slotNo = true ∧
      g = f.writeSlot rid buf := by
  simp only [updateRecord] at h
  cases hfetch : f.fetchPageHandle rid.pageNo with
  | error e =>
    rw [hfetch] at h
    cases h
  | ok page =>
    obtain ⟨hin, rfl⟩ := fetchPageHandle_ok hfetch
    rw [hfetch] at h
    simp only [bind, Except.bind] at h
    split at h
    · rename_i hbit
      exact ⟨hin, hbit, (Except.ok.inj h).symm⟩
    · cases h

/-- What `fetch_free_page_handle` keeps, its loop keeps. -/
theorem fetchFreeUntil_keeps {P : RmFileHandle → Prop}
    (hkeep : ∀ f, P f → P f.fetchFreePageHandle.2) {fuel : Nat}
    (hloop : fetchFreeUntil p fuel f = .ok g) (h : P f) : P g := by
  induction fuel generalizing f with
  | zero => cases hloop
  | succ fuel ih =>
    simp only [RmFileHandle.fetchFreeUntil] at hloop
    split at hloop
    · exact ih hloop (hkeep f h)
    · cases hloop
      exact hkeep f h

-- ---------------------------------------------------------------------------
-- What every call keeps
-- ---------------------------------------------------------------------------

/-- A link of the free chain: the end of the chain, or a page of the file. -/
def Link (f : RmFileHandle) (pageNo : PageNo) : Prop := pageNo = noPage ∨ f.InFile pageNo

/-- The pages that the file knows of are in the file. -/
structure Bounded (f : RmFileHandle) (rids : List Rid) : Prop where
  numPages_pos : 1 ≤ f.numPages
  fd : f.fd2pageno = f.numPages
  head : f.Link f.firstFreePageNo
  next : ∀ p, f.Link (f.pages p).nextFreePageNo
  allocated : ∀ rid ∈ rids, f.InFile rid.pageNo

theorem Bounded.create (recordSize : Nat) : (createFile recordSize).Bounded [] where
  numPages_pos := Int.le_refl 1
  fd := rfl
  head := .inl rfl
  next _ := .inl rfl
  allocated _ hrid := nomatch hrid

/-- The file grows, and every link it has now was a link before or is a page of it. -/
theorem Bounded.grow (h : f.Bounded rids) (hle : f.numPages ≤ g.numPages)
    (hfd : g.fd2pageno = g.numPages) (hhead : f.Link g.firstFreePageNo ∨ g.InFile g.firstFreePageNo)
    (hnext : ∀ p, f.Link (g.pages p).nextFreePageNo) : g.Bounded rids := by
  have hin : ∀ p, f.InFile p → g.InFile p := fun p hp => ⟨hp.1, Int.lt_of_lt_of_le hp.2 hle⟩
  have hlink : ∀ p, f.Link p → g.Link p := fun p hp => hp.imp id (hin p)
  constructor
  case numPages_pos => exact Int.le_trans h.numPages_pos hle
  case fd => exact hfd
  case head => exact hhead.elim (hlink _) .inr
  case next => exact fun p => hlink _ (hnext p)
  case allocated => exact fun rid hrid => hin _ (h.allocated rid hrid)

theorem Bounded.cons (h : f.Bounded rids) (hin : f.InFile rid.pageNo) :
    f.Bounded (rid :: rids) := by
  refine { h with allocated := fun r hr => ?_ }
  rcases List.mem_cons.mp hr with rfl | hr
  · exact hin
  · exact h.allocated r hr

theorem Bounded.newPage (h : f.Bounded rids) : f.newPage.Bounded rids := by
  have hnum : f.newPage.numPages = f.numPages + 1 := rfl
  refine h.grow (Int.le_add_one (Int.le_refl _)) ?_ (.inr ?_) ?_
  · show f.fd2pageno + 1 = f.numPages + 1
    rw [h.fd]
  · show f.newPage.InFile f.fd2pageno
    rw [h.fd]
    exact ⟨h.numPages_pos, Int.lt_succ _⟩
  · intro p
    by_cases hp : p = f.fd2pageno
    · left
      simp [RmFileHandle.newPage, setPage, hp]
    · simp only [RmFileHandle.newPage, setPage, Function.update_of_ne hp]
      exact h.next p

/-- The free page that a call gets is in the file, which may have grown for it. -/
theorem Bounded.fetchFreePageHandle (h : f.Bounded rids) (hfetch : f.fetchFreePageHandle = (p, g)) :
    g.Bounded rids ∧ g.InFile p := by
  simp only [RmFileHandle.fetchFreePageHandle] at hfetch
  split at hfetch
  · cases hfetch
    refine ⟨h.newPage, ?_⟩
    rw [h.fd]
    exact ⟨h.numPages_pos, Int.lt_succ _⟩
  · rename_i hne
    cases hfetch
    exact ⟨h, h.head.resolve_left hne⟩

theorem Bounded.fillSlot (h : f.Bounded rids) : (f.fillSlot rid buf).Bounded rids := by
  refine h.grow fillSlot_numPages.symm.le ?_ (.inl ?_) ?_
  · rw [fillSlot_fd2pageno, fillSlot_numPages, h.fd]
  · rw [fillSlot_firstFree]
    split
    · exact h.next rid.pageNo
    · exact h.head
  · intro p
    rw [fillSlot_pages]
    by_cases hp : p = rid.pageNo
    · subst hp
      simpa using h.next rid.pageNo
    · simpa [hp] using h.next p

theorem Bounded.writeSlot (h : f.Bounded rids) : (f.writeSlot rid buf).Bounded rids := by
  refine h.grow (Int.le_refl _) h.fd (.inl h.head) fun p => ?_
  by_cases hp : p = rid.pageNo
  · subst hp
    simpa [RmFileHandle.writeSlot, setPage] using h.next rid.pageNo
  · simpa [RmFileHandle.writeSlot, setPage, hp] using h.next p

theorem Bounded.clearSlot (h : f.Bounded rids) (hin : f.InFile rid.pageNo) :
    (f.clearSlot rid).Bounded rids := by
  refine h.grow clearSlot_numPages.symm.le ?_ (.inl ?_) ?_
  · rw [clearSlot_fd2pageno, clearSlot_numPages, h.fd]
  · rw [clearSlot_firstFree]
    split
    · exact .inr hin
    · exact h.head
  · intro p
    rw [clearSlot_pages]
    by_cases hp : p = rid.pageNo
    · subst hp
      simp only [Function.update_self]
      split
      · exact h.head
      · exact h.next rid.pageNo
    · simpa [hp] using h.next p

theorem Bounded.fetchFreeUntil (h : f.Bounded rids) {fuel : Nat}
    (hloop : fetchFreeUntil p fuel f = .ok g) : g.Bounded rids :=
  @fetchFreeUntil_keeps _ _ _ (·.Bounded rids)
    (fun _ h => (h.fetchFreePageHandle (Prod.eta _).symm).1) _ hloop h

theorem Bounded.of_calls {recordSize : Nat} (h : RmCalls recordSize f rids) : f.Bounded rids := by
  induction h with
  | create => exact .create recordSize
  | insert _ hinsert ih =>
    obtain ⟨f₁, i, hfetch, -, -, -, rfl⟩ := insertRecord_returned hinsert
    have hfree := ih.fetchFreePageHandle hfetch
    exact hfree.1.fillSlot.cons (fillSlot_inFile.mpr hfree.2)
  | insertAt _ hinsert ih =>
    obtain ⟨f₁, hloop, hin, ⟨-, rfl⟩ | ⟨-, rfl⟩⟩ := insertRecordAt_returned hinsert
    · exact (ih.fetchFreeUntil hloop).writeSlot.cons (writeSlot_inFile.mpr hin)
    · exact (ih.fetchFreeUntil hloop).fillSlot.cons (fillSlot_inFile.mpr hin)
  | delete _ hdelete ih =>
    obtain ⟨hin, -, rfl⟩ := deleteRecord_returned hdelete
    exact ih.clearSlot hin
  | update _ hupdate ih =>
    obtain ⟨-, -, rfl⟩ := updateRecord_returned hupdate
    exact ih.writeSlot
  | reopen _ ih => exact ih.grow (Int.le_refl _) rfl (.inl ih.head) ih.next

-- ---------------------------------------------------------------------------
-- The loop
-- ---------------------------------------------------------------------------

/-- The loop ends in its first turn, or not at all. -/
theorem Bounded.fetchFreeUntil_iff (h : f.Bounded rids) (hin : f.InFile p) :
    (∃ fuel g, RmFileHandle.fetchFreeUntil p fuel f = .ok g) ↔
      f.firstFreePageNo = noPage ∨ p ≤ f.firstFreePageNo := by
  constructor
  · rintro ⟨fuel, g, hloop⟩
    by_contra hcond
    obtain ⟨hne, hlt⟩ := not_or.mp hcond
    rw [fetchFreeUntil_loops hne (not_le.mp hlt)] at hloop
    cases hloop
  · intro hcond
    have hle : p ≤ f.fetchFreePageHandle.1 := by
      by_cases hfree : f.firstFreePageNo = noPage
      · -- The page that is allocated is behind all others.
        simp only [RmFileHandle.fetchFreePageHandle, hfree, if_true, h.fd]
        exact hin.2.le
      · simp only [RmFileHandle.fetchFreePageHandle, hfree, if_false]
        exact hcond.resolve_left hfree
    exact ⟨1, f.fetchFreePageHandle.2, if_neg (not_lt.mpr hle)⟩

/-- After the loop nothing can go wrong. -/
theorem Bounded.insertRecordAt_ok (h : f.Bounded rids) (hin : f.InFile rid.pageNo) {fuel : Nat}
    (hloop : RmFileHandle.fetchFreeUntil rid.pageNo fuel f = .ok g) :
    ∃ g', f.insertRecordAt fuel rid buf = .ok g' := by
  have hin' : g.InFile rid.pageNo :=
    ((h.cons hin).fetchFreeUntil hloop).allocated rid List.mem_cons_self
  have hfetch : g.fetchPageHandle rid.pageNo = .ok (g.pages rid.pageNo) := if_pos hin'
  rw [insertRecordAt, hloop]
  simp only [bind, Except.bind, hfetch]
  exact ⟨_, rfl⟩

end RmFileHandle

open RmFileHandle in
/-- In every file that any calls lead to, and for every rid that a record was given in it,
`insert_record(rid, buf)` returns exactly when there is no free page or the first one is not
before the page of the rid. -/
theorem insertRecordAt_returns_iff {recordSize : Nat} {f : RmFileHandle} {rids : List Rid}
    (h : RmCalls recordSize f rids) {rid : Rid} (hrid : rid ∈ rids) (buf : RmRecord) :
    (∃ fuel g, f.insertRecordAt fuel rid buf = .ok g) ↔
      f.firstFreePageNo = noPage ∨ rid.pageNo ≤ f.firstFreePageNo := by
  have hb := Bounded.of_calls h
  have hin := hb.allocated rid hrid
  rw [← hb.fetchFreeUntil_iff hin]
  constructor
  · rintro ⟨fuel, g, hinsert⟩
    cases hloop : fetchFreeUntil rid.pageNo fuel f with
    | error e =>
      rw [insertRecordAt, hloop] at hinsert
      cases hinsert
    | ok f₁ => exact ⟨fuel, f₁, hloop⟩
  · rintro ⟨fuel, g, hloop⟩
    obtain ⟨g', hinsert⟩ := hb.insertRecordAt_ok hin hloop
    exact ⟨fuel, g', hinsert⟩

/-- A record of the size that leaves room for one record on a page. -/
def halfPage : RmRecord := List.replicate 2048 1

/-- The record on page 1 is deleted and can be put back. -/
theorem insertRecordAt_returns_head : ∃ f rids, RmCalls 2048 f rids ∧ ⟨1, 0⟩ ∈ rids ∧
    ∃ fuel g, f.insertRecordAt fuel ⟨1, 0⟩ halfPage = .ok g := by
  have h₁ : RmCalls 2048 _ [⟨1, 0⟩] := @RmCalls.insert _ _ _ _ halfPage _ .create rfl
  have h₂ := @RmCalls.delete _ _ _ _ ⟨1, 0⟩ h₁ rfl
  refine ⟨_, _, h₂, List.mem_cons_self, ?_⟩
  exact (insertRecordAt_returns_iff h₂ List.mem_cons_self halfPage).mpr (.inr (Int.le_refl 1))

/-- Two records, on pages 1 and 2. The one on page 1 is deleted, and the one on page 2, which is
still there, is put back: the call does not return. -/
theorem insertRecordAt_runs_forever : ∃ f rids, RmCalls 2048 f rids ∧ ⟨2, 0⟩ ∈ rids ∧
    ∀ fuel buf, f.insertRecordAt fuel ⟨2, 0⟩ buf = .error .fuel := by
  have h₁ : RmCalls 2048 _ [⟨1, 0⟩] := @RmCalls.insert _ _ _ _ halfPage _ .create rfl
  have h₂ : RmCalls 2048 _ [⟨2, 0⟩, ⟨1, 0⟩] := @RmCalls.insert _ _ _ _ halfPage _ h₁ rfl
  have h₃ := @RmCalls.delete _ _ _ _ ⟨1, 0⟩ h₂ rfl
  refine ⟨_, _, h₃, List.mem_cons_self, fun fuel buf => ?_⟩
  rw [RmFileHandle.insertRecordAt, RmFileHandle.fetchFreeUntil_loops]
  · rfl
  · decide
  · decide

end Rmdb
