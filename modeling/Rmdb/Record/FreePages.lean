-- SUMMARY: When the second insert_record keeps the free chain and the number of pages.
import Rmdb.Record.PutBack

/-!
# The free chain and `insert_record(rid, buf)`

Both `insert_record`s take a page that becomes full off the free chain by moving
`first_free_page_no` to the page behind it. The first one fills the first page of the chain. The
second one fills the page of its rid, wherever in the chain it is: with it go all pages before it.

The second one also asks for a free page that it does not use. When there is none, the file grows
by a page.
-/

namespace Rmdb

namespace RmFileHandle

variable {f g : RmFileHandle} {rids : List Rid} {rid : Rid} {buf : RmRecord} {p q : PageNo}
  {chain chain' front rest : List PageNo}

/-- The free chain lists exactly the pages that are not full, each once. -/
structure ListsFree (f : RmFileHandle) (chain : List PageNo) : Prop where
  chained : f.FreeChain f.firstFreePageNo chain
  nodup : chain.Nodup
  mem_iff : ∀ p, p ∈ chain ↔ f.InFile p ∧ (f.pages p).numRecords < f.numRecordsPerPage

/-- A slot of a page. -/
def IsSlot (f : RmFileHandle) (rid : Rid) : Prop :=
  0 ≤ rid.slotNo ∧ rid.slotNo < f.numRecordsPerPage

/-- `g` is the file `f` with the record put at a position of one of its pages, and is as well
formed as a file can be. -/
structure PutIn (f : RmFileHandle) (rid : Rid) (buf : RmRecord) (g : RmFileHandle) : Prop where
  numPages : g.numPages = f.numPages
  occupied : (g.pages rid.pageNo).bitmap rid.slotNo = true
  stored : (g.pages rid.pageNo).slots rid.slotNo = buf
  others : ∀ r : Rid, f.InFile r.pageNo → r ≠ rid →
    (g.pages r.pageNo).bitmap r.slotNo = (f.pages r.pageNo).bitmap r.slotNo ∧
      (g.pages r.pageNo).slots r.slotNo = (f.pages r.pageNo).slots r.slotNo
  count : ∀ p, g.InFile p → (g.pages p).numRecords = (g.used p).card
  free : ∃ chain, g.ListsFree chain

/-- The page of `rid` is full once the slot is filled. -/
def Fills (f : RmFileHandle) (rid : Rid) : Prop :=
  (f.pages rid.pageNo).bitmap rid.slotNo = false ∧
    (f.pages rid.pageNo).numRecords + 1 = f.numRecordsPerPage

-- ---------------------------------------------------------------------------
-- Runs
-- ---------------------------------------------------------------------------

theorem fetchFreePageHandle_snd :
    f.fetchFreePageHandle.2 = if f.firstFreePageNo = noPage then f.newPage else f := by
  simp only [RmFileHandle.fetchFreePageHandle]
  split <;> rfl

theorem Tallied.fetchFreePageHandle (h : f.Tallied) : f.fetchFreePageHandle.2.Tallied := by
  rw [fetchFreePageHandle_snd]
  split
  · exact h.newPage
  · exact h

theorem fetchFreePageHandle_perPage :
    f.fetchFreePageHandle.2.numRecordsPerPage = f.numRecordsPerPage := by
  rw [fetchFreePageHandle_snd]
  split <;> rfl

theorem fetchFreeUntil_perPage {fuel : Nat} (h : fetchFreeUntil p fuel f = .ok g) :
    g.numRecordsPerPage = f.numRecordsPerPage :=
  @fetchFreeUntil_keeps _ _ _ (·.numRecordsPerPage = f.numRecordsPerPage)
    (fun _ hk => fetchFreePageHandle_perPage.trans hk) _ h rfl

/-- As long as records are only put into slots of pages, `num_records` counts them. -/
theorem Tallied.of_calls {recordSize : Nat} (h : RmCalls recordSize f rids)
    (hslots : ∀ r ∈ rids, f.IsSlot r) : f.Tallied := by
  induction h with
  | create =>
    have hnone : ∀ p, ¬ (RmFileHandle.createFile recordSize).InFile p :=
      fun p hp => absurd hp.1 (not_le.mpr hp.2)
    exact ⟨le_rfl, rfl, fun p hp => absurd hp (hnone p), fun p _ hp => absurd hp (hnone p)⟩
  | @insert f f' rids buf rid _ hinsert ih =>
    obtain ⟨f₁, i, hfetch, -, hs, hbit, rfl⟩ := insertRecord_returned hinsert
    have hper : f₁.numRecordsPerPage = f.numRecordsPerPage := by
      have := @fetchFreePageHandle_perPage f
      rwa [hfetch] at this
    have hf : f.Tallied := by
      refine ih fun r hr => ?_
      simpa only [IsSlot, fillSlot_perPage, hper] using hslots r (List.mem_cons_of_mem _ hr)
    have hf₁ : f₁.Tallied := by
      have := hf.fetchFreePageHandle
      rwa [hfetch] at this
    exact hf₁.fillSlot hbit hs
  | @insertAt f f' rids buf rid fuel _ hinsert ih =>
    obtain ⟨f₁, hloop, -, hcase⟩ := insertRecordAt_returned hinsert
    have hper' : f'.numRecordsPerPage = f₁.numRecordsPerPage := by
      obtain ⟨-, rfl⟩ | ⟨-, rfl⟩ := hcase
      · rfl
      · exact fillSlot_perPage
    have hper := fetchFreeUntil_perPage hloop
    have hf : f.Tallied := by
      refine ih fun r hr => ?_
      simpa only [IsSlot, hper', hper] using hslots r (List.mem_cons_of_mem _ hr)
    have hf₁ : f₁.Tallied :=
      fetchFreeUntil_keeps (fun _ h => Tallied.fetchFreePageHandle h) hloop hf
    obtain ⟨-, rfl⟩ | ⟨hbit, rfl⟩ := hcase
    · exact hf₁.writeSlot
    · exact hf₁.fillSlot hbit (hper' ▸ hslots rid List.mem_cons_self)
  | delete _ hdelete ih =>
    obtain ⟨-, hbit, rfl⟩ := deleteRecord_returned hdelete
    exact (ih fun r hr => by simpa only [IsSlot, clearSlot_perPage] using hslots r hr).clearSlot hbit
  | update _ hupdate ih =>
    obtain ⟨-, -, rfl⟩ := updateRecord_returned hupdate
    exact (ih hslots).writeSlot
  | reopen _ ih =>
    have hf := ih hslots
    exact ⟨hf.numPages_pos, rfl, hf.count, hf.slot⟩

-- ---------------------------------------------------------------------------
-- The chain
-- ---------------------------------------------------------------------------

/-- The links from a page lead to one end only. -/
theorem FreeChain.unique (h : f.FreeChain p chain) (h' : f.FreeChain p chain')
    (hpos : noPage ∉ chain) (hpos' : noPage ∉ chain') : chain = chain' := by
  induction chain generalizing p chain' with
  | nil =>
    cases chain' with
    | nil => rfl
    | cons q rest =>
      obtain rfl : p = noPage := h
      obtain rfl : noPage = q := h'.1
      exact absurd List.mem_cons_self hpos'
  | cons q rest ih =>
    obtain ⟨rfl, h⟩ := h
    cases chain' with
    | nil =>
      obtain rfl : p = noPage := h'
      exact absurd List.mem_cons_self hpos
    | cons r rest' =>
      obtain ⟨rfl, h'⟩ := h'
      rw [ih h h' (fun hm => hpos (List.mem_cons_of_mem _ hm))
        (fun hm => hpos' (List.mem_cons_of_mem _ hm))]

/-- What comes behind a page of the chain. -/
theorem FreeChain.behind (h : f.FreeChain p (front ++ q :: rest)) :
    f.FreeChain (f.pages q).nextFreePageNo rest := by
  induction front generalizing p with
  | nil => exact h.2
  | cons r front ih => exact ih h.2

theorem ListsFree.noPage_notMem (h : f.ListsFree chain) : noPage ∉ chain := by
  intro hm
  have := ((h.mem_iff _).mp hm).1.1
  simp [noPage] at this

theorem ListsFree.head? (h : f.ListsFree chain) (hfree : f.firstFreePageNo ≠ noPage) :
    chain.head? = some f.firstFreePageNo := by
  cases chain with
  | nil => exact absurd h.chained hfree
  | cons p rest => rw [h.chained.1, List.head?_cons]

theorem ListsFree.ok (h : f.ListsFree chain) (ht : f.Tallied) (hpos : 0 < f.numRecordsPerPage) :
    f.Ok chain :=
  ⟨hpos, ht.numPages_pos, ht.fd, h.chained, h.nodup, fun p hp => (h.mem_iff p).mp hp, ht.count,
    ht.slot⟩

theorem fillSlot_numRecords_of_ne (hne : p ≠ rid.pageNo) :
    ((f.fillSlot rid buf).pages p).numRecords = (f.pages p).numRecords := by
  simp [fillSlot_pages, hne]

theorem fillSlot_numRecords : ((f.fillSlot rid buf).pages rid.pageNo).numRecords =
    (f.pages rid.pageNo).numRecords + 1 := by
  simp [fillSlot_pages]

/-- The chain stays right when the page does not become full, or is the first one. -/
theorem ListsFree.fillSlot (h : f.ListsFree chain) (ht : f.Tallied) (hin : f.InFile rid.pageNo)
    (hbit : (f.pages rid.pageNo).bitmap rid.slotNo = false) (hs : f.IsSlot rid)
    (hfree : f.firstFreePageNo ≠ noPage) (hkeep : f.Fills rid → f.firstFreePageNo = rid.pageNo) :
    ∃ chain, (f.fillSlot rid buf).ListsFree chain := by
  have hpos : 0 < f.numRecordsPerPage := lt_of_le_of_lt hs.1 hs.2
  have hlt := ht.numRecords_lt hin hbit hs
  have hok : (f.fillSlot rid buf).Ok _ := (h.ok ht hpos).fillSlot hin hbit hs fun hfull =>
    (h.head? hfree).trans (congrArg some (hkeep ⟨hbit, hfull⟩))
  refine ⟨_, hok.chained, hok.nodup, fun p => ⟨fun hp => hok.free p hp, ?_⟩⟩
  rintro ⟨hin', hnum⟩
  rw [fillSlot_inFile] at hin'
  rw [fillSlot_perPage] at hnum
  by_cases hp : p = rid.pageNo
  · subst hp
    rw [fillSlot_numRecords] at hnum
    rw [if_neg (by omega)]
    exact (h.mem_iff _).mpr ⟨hin, hlt⟩
  · rw [fillSlot_numRecords_of_ne hp] at hnum
    have hmem := (h.mem_iff p).mpr ⟨hin', hnum⟩
    split
    · rename_i hfull
      -- Only the first page left the chain, and it is the page of the rid.
      have hhead := (h.head? hfree).trans (congrArg some (hkeep ⟨hbit, hfull⟩))
      cases chain with
      | nil => cases hhead
      | cons r rest =>
        cases hhead
        exact (List.mem_cons.mp hmem).resolve_left hp
    · exact hmem

/-- A page that becomes full while another one is first takes that one off the chain. -/
theorem ListsFree.fillSlot_loses (h : f.ListsFree chain) (hin : f.InFile rid.pageNo)
    (hfills : f.Fills rid) (hfree : f.firstFreePageNo ≠ noPage)
    (hne : f.firstFreePageNo ≠ rid.pageNo) : ¬ (f.fillSlot rid buf).ListsFree chain' := by
  intro h'
  have hfirst : f.firstFreePageNo ∈ chain := List.mem_of_mem_head? (h.head? hfree)
  have hpage : rid.pageNo ∈ chain := by
    refine (h.mem_iff _).mpr ⟨hin, ?_⟩
    have := hfills.2
    omega
  obtain ⟨front, rest, rfl⟩ := List.append_of_mem hpage
  have hnext : ∀ q, ((f.fillSlot rid buf).pages q).nextFreePageNo = (f.pages q).nextFreePageNo := by
    intro q
    by_cases hq : q = rid.pageNo
    · subst hq
      simp [fillSlot_pages]
    · simp [fillSlot_pages, hq]
  have hrest : (f.fillSlot rid buf).FreeChain (f.fillSlot rid buf).firstFreePageNo rest := by
    rw [fillSlot_firstFree, if_pos hfills.2]
    exact h.chained.behind.congr fun q _ => hnext q
  -- The first page is not full now either, so it has to be in the new chain, which is `rest`.
  obtain ⟨hfirstIn, hfirstLt⟩ := (h.mem_iff _).mp hfirst
  have hfirst' : f.firstFreePageNo ∈ chain' := by
    refine (h'.mem_iff _).mpr ⟨fillSlot_inFile.mpr hfirstIn, ?_⟩
    rwa [fillSlot_numRecords_of_ne hne, fillSlot_perPage]
  have hnoPage : noPage ∉ rest := fun hm =>
    h.noPage_notMem (List.mem_append_right _ (List.mem_cons_of_mem _ hm))
  rw [← hrest.unique h'.chained hnoPage h'.noPage_notMem] at hfirst'
  cases front with
  | nil => exact hne h.chained.1
  | cons r front =>
    obtain rfl : f.firstFreePageNo = r := h.chained.1
    exact (List.nodup_cons.mp h.nodup).1
      (List.mem_append_right _ (List.mem_cons_of_mem _ hfirst'))

-- ---------------------------------------------------------------------------
-- One call
-- ---------------------------------------------------------------------------

theorem writeSlot_others {r : Rid} (hne : r ≠ rid) :
    ((f.writeSlot rid buf).pages r.pageNo).slots r.slotNo = (f.pages r.pageNo).slots r.slotNo := by
  obtain ⟨q, s⟩ := r
  by_cases hq : q = rid.pageNo
  · subst hq
    have hs : s ≠ rid.slotNo := fun e => hne (by rw [e])
    simp [RmFileHandle.writeSlot, setPage, hs]
  · simp [RmFileHandle.writeSlot, setPage, hq]

theorem fillSlot_others {r : Rid} (hne : r ≠ rid) :
    ((f.fillSlot rid buf).pages r.pageNo).bitmap r.slotNo = (f.pages r.pageNo).bitmap r.slotNo ∧
      ((f.fillSlot rid buf).pages r.pageNo).slots r.slotNo =
        (f.pages r.pageNo).slots r.slotNo := by
  obtain ⟨q, s⟩ := r
  by_cases hq : q = rid.pageNo
  · subst hq
    have hs : s ≠ rid.slotNo := fun e => hne (by rw [e])
    simp [fillSlot_pages, hs]
  · simp [fillSlot_pages, hq]

theorem ListsFree.putIn_writeSlot (h : f.ListsFree chain) (ht : f.Tallied)
    (hbit : (f.pages rid.pageNo).bitmap rid.slotNo = true) :
    f.PutIn rid buf (f.writeSlot rid buf) := by
  constructor
  case numPages => rfl
  case occupied => rwa [(writeSlot_page _).2.2]
  case stored => simp [RmFileHandle.writeSlot, setPage]
  case others => exact fun r _ hne => ⟨by rw [(writeSlot_page _).2.2], writeSlot_others hne⟩
  case count => exact ht.writeSlot.count
  case free =>
    refine ⟨chain, h.chained.congr fun q _ => (writeSlot_page q).1, h.nodup, fun p => ?_⟩
    rw [(writeSlot_page p).2.1]
    exact h.mem_iff p

theorem ListsFree.putIn_fillSlot (h : f.ListsFree chain) (ht : f.Tallied)
    (hin : f.InFile rid.pageNo) (hbit : (f.pages rid.pageNo).bitmap rid.slotNo = false)
    (hs : f.IsSlot rid) (hfree : f.firstFreePageNo ≠ noPage)
    (hkeep : f.Fills rid → f.firstFreePageNo = rid.pageNo) :
    f.PutIn rid buf (f.fillSlot rid buf) := by
  constructor
  case numPages => exact fillSlot_numPages
  case occupied => simp [fillSlot_pages]
  case stored => simp [fillSlot_pages]
  case others => exact fun r _ hne => fillSlot_others hne
  case count => exact (ht.fillSlot hbit hs).count
  case free => exact h.fillSlot ht hin hbit hs hfree hkeep

/-- With no free page the file grows for a page that is not used. -/
theorem numPages_of_noPage {fuel : Nat} (hfree : f.firstFreePageNo = noPage)
    (hinsert : f.insertRecordAt fuel rid buf = .ok g) : f.numPages < g.numPages := by
  obtain ⟨f₁, hloop, -, hcase⟩ := insertRecordAt_returned hinsert
  have hg : g.numPages = f₁.numPages := by
    obtain ⟨-, rfl⟩ | ⟨-, rfl⟩ := hcase
    · rfl
    · exact fillSlot_numPages
  have hgrow : f.newPage.numPages ≤ f₁.numPages := by
    cases fuel with
    | zero => cases hloop
    | succ fuel =>
      have hstep : ∀ e : RmFileHandle, f.newPage.numPages ≤ e.numPages →
          f.newPage.numPages ≤ e.fetchFreePageHandle.2.numPages := by
        intro e he
        rw [fetchFreePageHandle_snd]
        split
        · exact he.trans (Int.le_add_one le_rfl)
        · exact he
      simp only [RmFileHandle.fetchFreeUntil, RmFileHandle.fetchFreePageHandle, hfree,
        if_true] at hloop
      split at hloop
      · exact fetchFreeUntil_keeps hstep hloop le_rfl
      · cases hloop
        exact le_rfl
  rw [hg]
  exact lt_of_lt_of_le (Int.lt_succ _) hgrow

/-- With a free page the loop of the call leaves the file as it is. -/
theorem fetchFreeUntil_of_ne {fuel : Nat} (hfree : f.firstFreePageNo ≠ noPage)
    (hloop : fetchFreeUntil p fuel f = .ok g) : g = f := by
  refine (@fetchFreeUntil_keeps _ _ _ (fun e => f = e) ?_ _ hloop rfl).symm
  rintro e rfl
  rw [fetchFreePageHandle_snd, if_neg hfree]

end RmFileHandle

open RmFileHandle in
/-- In every file that calls lead to and whose free chain is right, and for every slot of a page
of it, an `insert_record(rid, buf)` that returns does what it should exactly when there is a free
page and the page of the rid does not become full behind the first one. -/
theorem insertRecordAt_putIn_iff {recordSize : Nat} {f g : RmFileHandle} {rids : List Rid}
    (hcalls : RmCalls recordSize f rids) (hslots : ∀ r ∈ rids, f.IsSlot r)
    (hlist : ∃ chain, f.ListsFree chain) {rid : Rid} (hin : f.InFile rid.pageNo)
    (hs : f.IsSlot rid) {buf : RmRecord} {fuel : Nat}
    (hinsert : f.insertRecordAt fuel rid buf = .ok g) :
    f.PutIn rid buf g ↔ f.firstFreePageNo ≠ noPage ∧
      (f.Fills rid → f.firstFreePageNo = rid.pageNo) := by
  have ht := Tallied.of_calls hcalls hslots
  obtain ⟨chain, hlist⟩ := hlist
  by_cases hfree : f.firstFreePageNo = noPage
  · -- The file has grown.
    refine ⟨fun hput => ?_, fun hcond => absurd hfree hcond.1⟩
    have hgrow := numPages_of_noPage hfree hinsert
    exact absurd hput.numPages hgrow.ne'
  obtain ⟨f₁, hloop, -, hcase⟩ := insertRecordAt_returned hinsert
  obtain rfl := fetchFreeUntil_of_ne hfree hloop
  obtain ⟨hbit, rfl⟩ | ⟨hbit, rfl⟩ := hcase
  · have hnot : ¬ f₁.Fills rid := by simp [Fills, hbit]
    exact ⟨fun _ => ⟨hfree, fun hf => absurd hf hnot⟩, fun _ => hlist.putIn_writeSlot ht hbit⟩
  · refine ⟨fun hput => ⟨hfree, fun hfills => ?_⟩, fun hcond => ?_⟩
    · by_contra hne
      obtain ⟨chain', hlist'⟩ := hput.free
      exact hlist.fillSlot_loses hin hfills hfree hne hlist'
    · exact hlist.putIn_fillSlot ht hin hbit hs hfree hcond.2

namespace RmFileHandle

variable {f : RmFileHandle} {p : PageNo}

/-- Two pages for one record each, both empty: page 2 is the first of the free chain. -/
structure TwoFree (f : RmFileHandle) : Prop where
  numPages : f.numPages = 3
  perPage : f.numRecordsPerPage = 1
  chained : f.FreeChain f.firstFreePageNo [2, 1]
  numRecords : (f.pages 1).numRecords = 0 ∧ (f.pages 2).numRecords = 0
  empty : (f.pages 1).bitmap 0 = false ∧ (f.pages 2).bitmap 0 = false

/-- Both records are deleted, the one on page 1 first. -/
theorem TwoFree.reached : ∃ f, RmCalls 2048 f [⟨2, 0⟩, ⟨1, 0⟩] ∧ f.TwoFree := by
  have h₁ : RmCalls 2048 _ [⟨1, 0⟩] := @RmCalls.insert _ _ _ _ halfPage _ .create rfl
  have h₂ : RmCalls 2048 _ [⟨2, 0⟩, ⟨1, 0⟩] := @RmCalls.insert _ _ _ _ halfPage _ h₁ rfl
  have h₃ := @RmCalls.delete _ _ _ _ ⟨1, 0⟩ h₂ rfl
  have h₄ := @RmCalls.delete _ _ _ _ ⟨2, 0⟩ h₃ rfl
  exact ⟨_, h₄, rfl, rfl, ⟨rfl, rfl, rfl⟩, ⟨rfl, rfl⟩, ⟨rfl, rfl⟩⟩

theorem TwoFree.inFile_iff (h : f.TwoFree) : f.InFile p ↔ p = 1 ∨ p = 2 := by
  have hnum : ∀ p : Int, (1 ≤ p ∧ p < 3) ↔ (p = 1 ∨ p = 2) := by omega
  rw [InFile, h.numPages]
  exact hnum p

theorem TwoFree.isSlot (h : f.TwoFree) (pageNo : PageNo) : f.IsSlot ⟨pageNo, 0⟩ :=
  ⟨le_rfl, by rw [h.perPage]; exact Int.zero_lt_one⟩

theorem TwoFree.listsFree (h : f.TwoFree) : f.ListsFree [2, 1] := by
  refine ⟨h.chained, by decide, fun p => ?_⟩
  rw [h.inFile_iff, h.perPage]
  constructor
  · intro hp
    rcases (by simpa using hp : p = 2 ∨ p = 1) with rfl | rfl
    · exact ⟨.inr rfl, by rw [h.numRecords.2]; exact Int.zero_lt_one⟩
    · exact ⟨.inl rfl, by rw [h.numRecords.1]; exact Int.zero_lt_one⟩
  · rintro ⟨rfl | rfl, -⟩ <;> simp

theorem TwoFree.firstFree (h : f.TwoFree) : f.firstFreePageNo = 2 := h.chained.1

/-- Into both of the pages a record can be put. -/
theorem TwoFree.insertRecordAt (h : f.TwoFree) (hp : p = 1 ∨ p = 2) (buf : RmRecord) :
    f.insertRecordAt 1 ⟨p, 0⟩ buf = .ok (f.fillSlot ⟨p, 0⟩ buf) := by
  have hloop : fetchFreeUntil p 1 f = .ok f := by
    have hle : ¬ (2 : PageNo) < p := by rcases hp with rfl | rfl <;> decide
    have hne : (2 : PageNo) ≠ noPage := by decide
    simp [fetchFreeUntil, fetchFreePageHandle, h.firstFree, hne, hle]
  have hfetch : f.fetchPageHandle p = .ok (f.pages p) := if_pos (h.inFile_iff.mpr hp)
  have hbit : (f.pages p).bitmap 0 = false := by
    rcases hp with rfl | rfl
    · exact h.empty.1
    · exact h.empty.2
  simp [RmFileHandle.insertRecordAt, hloop, hfetch, hbit]

end RmFileHandle

open RmFileHandle in
/-- The record of the first page of the chain is put back. -/
theorem insertRecordAt_putIn_first : ∃ f g, RmCalls 2048 f [⟨2, 0⟩, ⟨1, 0⟩] ∧
    f.insertRecordAt 1 ⟨2, 0⟩ halfPage = .ok g ∧ f.PutIn ⟨2, 0⟩ halfPage g := by
  obtain ⟨f, hcalls, h⟩ := TwoFree.reached
  have hinsert := h.insertRecordAt (.inr rfl) halfPage
  refine ⟨f, _, hcalls, hinsert, ?_⟩
  have hslots : ∀ r ∈ [(⟨2, 0⟩ : Rid), ⟨1, 0⟩], f.IsSlot r := by
    simpa using ⟨h.isSlot 2, h.isSlot 1⟩
  have hfree : f.firstFreePageNo ≠ noPage := by
    rw [h.firstFree]
    decide
  exact (insertRecordAt_putIn_iff hcalls hslots ⟨_, h.listsFree⟩ (h.inFile_iff.mpr (.inr rfl))
    (h.isSlot 2) hinsert).mpr ⟨hfree, fun _ => h.firstFree⟩

open RmFileHandle in
/-- The record of the second page of the chain is put back: the first page is no longer listed. -/
theorem insertRecordAt_loses_page : ∃ f g, RmCalls 2048 f [⟨2, 0⟩, ⟨1, 0⟩] ∧
    (∀ r ∈ [(⟨2, 0⟩ : Rid), ⟨1, 0⟩], f.IsSlot r) ∧ f.ListsFree [2, 1] ∧ f.InFile 1 ∧
    f.insertRecordAt 1 ⟨1, 0⟩ halfPage = .ok g ∧ ¬ f.PutIn ⟨1, 0⟩ halfPage g := by
  obtain ⟨f, hcalls, h⟩ := TwoFree.reached
  refine ⟨f, _, hcalls, ?_, h.listsFree, h.inFile_iff.mpr (.inl rfl),
    h.insertRecordAt (.inl rfl) halfPage, fun hput => ?_⟩
  · simpa using ⟨h.isSlot 2, h.isSlot 1⟩
  · obtain ⟨chain', hlist'⟩ := hput.free
    have hfills : f.Fills ⟨1, 0⟩ := by
      refine ⟨h.empty.1, ?_⟩
      rw [h.numRecords.1, h.perPage]
      rfl
    have hfirst := h.firstFree
    refine h.listsFree.fillSlot_loses (h.inFile_iff.mpr (.inl rfl)) hfills ?_ ?_ hlist'
    · rw [hfirst]
      decide
    · rw [hfirst]
      decide

end Rmdb
