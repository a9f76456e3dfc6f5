-- SUMMARY: The record file of a table: pages with bitmaps, the chain of free pages, and what each call does to the rows.
import Mathlib.Data.Finset.Card
import Mathlib.Logic.Function.Basic
import Rmdb.Basic

/-!
# Record files

`RmFileHandle` keeps the records of a table in pages. A page has a bitmap that says
which of its slots hold a record, and the pages with a free slot are chained through
their headers, starting at `first_free_page_no`.

What a caller sees of a file is the partial map `lookup` from rids to records. The
lemmas at the end say for each call what it does to this map and to the free chain.
Page LSNs, pins and latches are no part of the model.
-/

namespace Rmdb

/-- The bytes of an `RmRecord`. -/
abbrev RmRecord := List UInt8

/-- A page of a record file: its `RmPageHdr`, its bitmap and its slots. -/
structure RmPage where
  nextFreePageNo : PageNo
  numRecords : Int
  bitmap : Int → Bool
  slots : Int → RmRecord

/-- `RmFileHdr`, the pages of the file, and the page number that `DiskManager` gives out next. -/
structure RmFileHandle where
  recordSize : Nat
  numPages : Int
  numRecordsPerPage : Int
  firstFreePageNo : PageNo
  fd2pageno : PageNo
  pages : PageNo → RmPage

inductive RmError where
  /-- An `assert(false)`. -/
  | assertion
  /-- `read_page` finds no such page in the file. -/
  | readPage
  /-- A loop that is still running. -/
  | fuel
  deriving DecidableEq, Repr

namespace RmFileHandle

-- ---------------------------------------------------------------------------
-- The code
-- ---------------------------------------------------------------------------

/-- `create_file`, with `PAGE_SIZE = 4096`, `BITMAP_WIDTH = 8` and `sizeof(RmFileHdr) = 20`. -/
def createFile (recordSize : Nat) : RmFileHandle where
  recordSize := recordSize
  numPages := 1
  numRecordsPerPage := (8 * (4096 - 1 - 20) + 1) / (1 + recordSize * 8)
  firstFreePageNo := noPage
  fd2pageno := 1
  pages _ := ⟨noPage, 0, fun _ => false, fun _ => []⟩

def fetchPageHandle (f : RmFileHandle) (pageNo : PageNo) : Except RmError RmPage :=
  if 1 ≤ pageNo ∧ pageNo < f.numPages then .ok (f.pages pageNo) else .error .readPage

def setPage (f : RmFileHandle) (pageNo : PageNo) (page : RmPage) : RmFileHandle :=
  { f with pages := Function.update f.pages pageNo page }

/-- The new page of `fetch_free_page_handle`; `new_page` clears its memory. -/
def newPage (f : RmFileHandle) : RmFileHandle :=
  { f.setPage f.fd2pageno
      ⟨noPage, 0, fun _ => false, fun _ => List.replicate f.recordSize 0⟩ with
    fd2pageno := f.fd2pageno + 1
    numPages := f.numPages + 1
    firstFreePageNo := f.fd2pageno }

def fetchFreePageHandle (f : RmFileHandle) : PageNo × RmFileHandle :=
  if f.firstFreePageNo = noPage then (f.fd2pageno, f.newPage) else (f.firstFreePageNo, f)

/-- `get_record`. The bitmap is not looked at. -/
def getRecord (f : RmFileHandle) (rid : Rid) : Except RmError RmRecord := do
  let page ← f.fetchPageHandle rid.pageNo
  return page.slots rid.slotNo

/-- `is_record`, for a slot of the page: `Bitmap::is_set` has no range check, and for other slot numbers it
reads bytes outside of the bitmap. -/
def isRecord (f : RmFileHandle) (rid : Rid) : Except RmError Bool := do
  let page ← f.fetchPageHandle rid.pageNo
  return page.bitmap rid.slotNo

/-- The part that both `insert_record`s share: a record goes into an empty slot of a page. -/
def fillSlot (f : RmFileHandle) (rid : Rid) (buf : RmRecord) : RmFileHandle :=
  let page := f.pages rid.pageNo
  let page' := { page with
    slots := Function.update page.slots rid.slotNo buf
    bitmap := Function.update page.bitmap rid.slotNo true
    numRecords := page.numRecords + 1 }
  let f := f.setPage rid.pageNo page'
  if page'.numRecords = f.numRecordsPerPage then
    { f with firstFreePageNo := page'.nextFreePageNo }
  else f

/-- The loop of `insert_record` over the slots of the page, from slot `i` on. -/
def freeSlotLoop (page : RmPage) : Nat → Nat → Option Nat
  | 0, _ => none
  | left + 1, i => if page.bitmap i then freeSlotLoop page left (i + 1) else some i

def freeSlot (f : RmFileHandle) (page : RmPage) : Option Nat :=
  freeSlotLoop page f.numRecordsPerPage.toNat 0

/-- `insert_record(buf, context)`. -/
def insertRecord (f : RmFileHandle) (buf : RmRecord) : Except RmError (Rid × RmFileHandle) := do
  let (pageNo, f) := f.fetchFreePageHandle
  let page ← f.fetchPageHandle pageNo
  match f.freeSlot page with
  | none => .error .assertion
  | some i => return (⟨pageNo, i⟩, f.fillSlot ⟨pageNo, i⟩ buf)

/-- The `while` loop at the start of `insert_record(rid, buf)`. -/
def fetchFreeUntil (pageNo : PageNo) : Nat → RmFileHandle → Except RmError RmFileHandle
  | 0, _ => .error .fuel
  | fuel + 1, f =>
    let (freePageNo, f) := f.fetchFreePageHandle
    if freePageNo < pageNo then fetchFreeUntil pageNo fuel f else .ok f

/-- The `memcpy` into a slot that holds a record. -/
def writeSlot (f : RmFileHandle) (rid : Rid) (buf : RmRecord) : RmFileHandle :=
  let page := f.pages rid.pageNo
  f.setPage rid.pageNo { page with slots := Function.update page.slots rid.slotNo buf }

/-- `insert_record(rid, buf)`, which rollback and recovery use. -/
def insertRecordAt (fuel : Nat) (f : RmFileHandle) (rid : Rid) (buf : RmRecord) :
    Except RmError RmFileHandle := do
  let f ← fetchFreeUntil rid.pageNo fuel f
  let page ← f.fetchPageHandle rid.pageNo
  return if page.bitmap rid.slotNo then f.writeSlot rid buf else f.fillSlot rid buf

/-- The body of `delete_record` once the slot is known to hold a record. -/
def clearSlot (f : RmFileHandle) (rid : Rid) : RmFileHandle :=
  let page := f.pages rid.pageNo
  let page' := { page with
    bitmap := Function.update page.bitmap rid.slotNo false
    numRecords := page.numRecords - 1 }
  if page'.numRecords = f.numRecordsPerPage - 1 then
    { f.setPage rid.pageNo { page' with nextFreePageNo := f.firstFreePageNo } with
      firstFreePageNo := rid.pageNo }
  else f.setPage rid.pageNo page'

/-- `delete_record`, both of them. -/
def deleteRecord (f : RmFileHandle) (rid : Rid) : Except RmError RmFileHandle := do
  let page ← f.fetchPageHandle rid.pageNo
  if page.bitmap rid.slotNo then .ok (f.clearSlot rid) else .error .assertion

def updateRecord (f : RmFileHandle) (rid : Rid) (buf : RmRecord) : Except RmError RmFileHandle := do
  let page ← f.fetchPageHandle rid.pageNo
  if page.bitmap rid.slotNo then .ok (f.writeSlot rid buf) else .error .assertion

-- ---------------------------------------------------------------------------
-- The rows and the free chain
-- ---------------------------------------------------------------------------

/-- A page that holds records: not the header, and inside the file. -/
def InFile (f : RmFileHandle) (pageNo : PageNo) : Prop := 1 ≤ pageNo ∧ pageNo < f.numPages

instance (f : RmFileHandle) (pageNo : PageNo) : Decidable (f.InFile pageNo) :=
  inferInstanceAs (Decidable (_ ∧ _))

/-- The row at a position, if there is one. -/
def lookup (f : RmFileHandle) (rid : Rid) : Option RmRecord :=
  if f.InFile rid.pageNo ∧ (f.pages rid.pageNo).bitmap rid.slotNo then
    some ((f.pages rid.pageNo).slots rid.slotNo)
  else none

/-- The slot numbers of a page with `perPage` slots. -/
def slotNos (perPage : Int) : Finset Int :=
  (Finset.range perPage.toNat).map ⟨Int.ofNat, fun _ _ h => Int.ofNat.inj h⟩

theorem mem_slotNos {perPage s : Int} : s ∈ slotNos perPage ↔ 0 ≤ s ∧ s < perPage := by
  simp only [slotNos, Finset.mem_map, Finset.mem_range]
  constructor
  · rintro ⟨i, hi, rfl⟩
    exact ⟨Int.natCast_nonneg i, Int.lt_toNat.mp hi⟩
  · rintro ⟨h₀, h₁⟩
    exact ⟨s.toNat, Int.lt_toNat.mpr ((Int.toNat_of_nonneg h₀).trans_lt h₁), Int.toNat_of_nonneg h₀⟩

theorem card_slotNos (perPage : Int) : (slotNos perPage).card = perPage.toNat := by
  rw [slotNos, Finset.card_map, Finset.card_range]

/-- The slots of a page that hold records. -/
def used (f : RmFileHandle) (pageNo : PageNo) : Finset Int :=
  (slotNos f.numRecordsPerPage).filter fun s => (f.pages pageNo).bitmap s = true

/-- The list of pages reached from `pageNo` through `next_free_page_no`. -/
def FreeChain (f : RmFileHandle) (pageNo : PageNo) : List PageNo → Prop
  | [] => pageNo = noPage
  | p :: chain => pageNo = p ∧ FreeChain f (f.pages p).nextFreePageNo chain

/-- A well-formed file, with the pages of its free chain. -/
structure Ok (f : RmFileHandle) (chain : List PageNo) : Prop where
  perPage_pos : 0 < f.numRecordsPerPage
  numPages_pos : 1 ≤ f.numPages
  fd : f.fd2pageno = f.numPages
  chained : f.FreeChain f.firstFreePageNo chain
  nodup : chain.Nodup
  free : ∀ p ∈ chain, f.InFile p ∧ (f.pages p).numRecords < f.numRecordsPerPage
  count : ∀ p, f.InFile p → (f.pages p).numRecords = (f.used p).card
  slot : ∀ p s, f.InFile p → (f.pages p).bitmap s = true → 0 ≤ s ∧ s < f.numRecordsPerPage

/-- What a file keeps even when its free chain is broken: its pages are numbered in order, and
`num_records` counts the records of a page, all of them in slots of the page. -/
structure Tallied (f : RmFileHandle) : Prop where
  numPages_pos : 1 ≤ f.numPages
  fd : f.fd2pageno = f.numPages
  count : ∀ p, f.InFile p → (f.pages p).numRecords = (f.used p).card
  slot : ∀ p s, f.InFile p → (f.pages p).bitmap s = true → 0 ≤ s ∧ s < f.numRecordsPerPage

variable {f g : RmFileHandle} {chain : List PageNo} {p : PageNo} {rid r : Rid} {buf : RmRecord}

theorem Ok.tallied (hok : f.Ok chain) : f.Tallied :=
  ⟨hok.numPages_pos, hok.fd, hok.count, hok.slot⟩

@[simp] theorem fillSlot_numPages : (f.fillSlot rid buf).numPages = f.numPages := by
  simp only [fillSlot]
  split <;> rfl

@[simp] theorem fillSlot_perPage :
    (f.fillSlot rid buf).numRecordsPerPage = f.numRecordsPerPage := by
  simp only [fillSlot]
  split <;> rfl

@[simp] theorem fillSlot_fd2pageno : (f.fillSlot rid buf).fd2pageno = f.fd2pageno := by
  simp only [fillSlot]
  split <;> rfl

theorem fillSlot_pages : (f.fillSlot rid buf).pages = Function.update f.pages rid.pageNo
    { f.pages rid.pageNo with
      slots := Function.update (f.pages rid.pageNo).slots rid.slotNo buf
      bitmap := Function.update (f.pages rid.pageNo).bitmap rid.slotNo true
      numRecords := (f.pages rid.pageNo).numRecords + 1 } := by
  simp only [fillSlot]
  split <;> rfl

theorem fillSlot_firstFree : (f.fillSlot rid buf).firstFreePageNo =
    if (f.pages rid.pageNo).numRecords + 1 = f.numRecordsPerPage then
      (f.pages rid.pageNo).nextFreePageNo
    else f.firstFreePageNo := by
  by_cases h : (f.pages rid.pageNo).numRecords + 1 = f.numRecordsPerPage <;>
    simp [fillSlot, setPage, h]

@[simp] theorem fillSlot_inFile : (f.fillSlot rid buf).InFile p ↔ f.InFile p := by
  simp only [InFile, fillSlot_numPages]

@[simp] theorem clearSlot_numPages : (f.clearSlot rid).numPages = f.numPages := by
  simp only [clearSlot]
  split <;> rfl

@[simp] theorem clearSlot_perPage : (f.clearSlot rid).numRecordsPerPage = f.numRecordsPerPage := by
  simp only [clearSlot]
  split <;> rfl

@[simp] theorem clearSlot_fd2pageno : (f.clearSlot rid).fd2pageno = f.fd2pageno := by
  simp only [clearSlot]
  split <;> rfl

theorem clearSlot_pages : (f.clearSlot rid).pages = Function.update f.pages rid.pageNo
    { f.pages rid.pageNo with
      bitmap := Function.update (f.pages rid.pageNo).bitmap rid.slotNo false
      numRecords := (f.pages rid.pageNo).numRecords - 1
      nextFreePageNo := if (f.pages rid.pageNo).numRecords = f.numRecordsPerPage then
        f.firstFreePageNo else (f.pages rid.pageNo).nextFreePageNo } := by
  by_cases h : (f.pages rid.pageNo).numRecords = f.numRecordsPerPage <;>
    simp [clearSlot, setPage, h]

theorem clearSlot_firstFree : (f.clearSlot rid).firstFreePageNo =
    if (f.pages rid.pageNo).numRecords = f.numRecordsPerPage then rid.pageNo
    else f.firstFreePageNo := by
  by_cases h : (f.pages rid.pageNo).numRecords = f.numRecordsPerPage <;>
    simp [clearSlot, setPage, h]

@[simp] theorem clearSlot_inFile : (f.clearSlot rid).InFile p ↔ f.InFile p := by
  simp only [InFile, clearSlot_numPages]

@[simp] theorem writeSlot_inFile : (f.writeSlot rid buf).InFile p ↔ f.InFile p := Iff.rfl

/-- The chain only depends on the headers of its own pages. -/
theorem FreeChain.congr (hc : f.FreeChain p chain)
    (h : ∀ q ∈ chain, (g.pages q).nextFreePageNo = (f.pages q).nextFreePageNo) :
    g.FreeChain p chain := by
  induction chain generalizing p with
  | nil => exact hc
  | cons q chain ih =>
    obtain ⟨rfl, hc⟩ := hc
    refine ⟨rfl, ?_⟩
    rw [h p List.mem_cons_self]
    exact ih hc fun q hq => h q (List.mem_cons_of_mem _ hq)

theorem lookup_eq_some_iff : f.lookup rid = some buf ↔
    f.InFile rid.pageNo ∧ (f.pages rid.pageNo).bitmap rid.slotNo = true ∧
      (f.pages rid.pageNo).slots rid.slotNo = buf := by
  simp only [lookup]
  split <;> simp_all

theorem lookup_eq_none_iff : f.lookup rid = none ↔
    (f.InFile rid.pageNo → (f.pages rid.pageNo).bitmap rid.slotNo = false) := by
  simp only [lookup]
  split <;> simp_all

theorem Ok.pageNo_ne_noPage (hok : f.Ok chain) (hp : p ∈ chain) : p ≠ noPage := by
  intro h
  have := (hok.free p hp).1.1
  simp [h, noPage] at this

-- ---------------------------------------------------------------------------
-- One slot changes
-- ---------------------------------------------------------------------------

theorem lookup_fillSlot (hin : f.InFile rid.pageNo) :
    (f.fillSlot rid buf).lookup r = if r = rid then some buf else f.lookup r := by
  obtain ⟨q, s⟩ := r
  simp only [lookup, fillSlot_inFile, fillSlot_pages]
  by_cases hq : q = rid.pageNo
  · subst hq
    by_cases hs : s = rid.slotNo
    · subst hs
      simp [hin]
    · have hne : (⟨rid.pageNo, s⟩ : Rid) ≠ rid := fun e => hs (congrArg Rid.slotNo e)
      simp [hs, hne]
  · have hne : (⟨q, s⟩ : Rid) ≠ rid := fun e => hq (congrArg Rid.pageNo e)
    simp [hq, hne]

theorem lookup_clearSlot :
    (f.clearSlot rid).lookup r = if r = rid then none else f.lookup r := by
  obtain ⟨q, s⟩ := r
  simp only [lookup, clearSlot_inFile, clearSlot_pages]
  by_cases hq : q = rid.pageNo
  · subst hq
    by_cases hs : s = rid.slotNo
    · subst hs
      simp
    · have hne : (⟨rid.pageNo, s⟩ : Rid) ≠ rid := fun e => hs (congrArg Rid.slotNo e)
      simp [hs, hne]
  · have hne : (⟨q, s⟩ : Rid) ≠ rid := fun e => hq (congrArg Rid.pageNo e)
    simp [hq, hne]

theorem lookup_writeSlot (h : f.lookup rid ≠ none) :
    (f.writeSlot rid buf).lookup r = if r = rid then some buf else f.lookup r := by
  obtain ⟨old, hold⟩ := Option.ne_none_iff_exists'.mp h
  obtain ⟨hin, hbit, -⟩ := lookup_eq_some_iff.mp hold
  obtain ⟨q, s⟩ := r
  simp only [lookup, writeSlot_inFile]
  simp only [writeSlot, setPage]
  by_cases hq : q = rid.pageNo
  · subst hq
    by_cases hs : s = rid.slotNo
    · subst hs
      simp [hin, hbit]
    · have hne : (⟨rid.pageNo, s⟩ : Rid) ≠ rid := fun e => hs (congrArg Rid.slotNo e)
      simp [hs, hne]
  · have hne : (⟨q, s⟩ : Rid) ≠ rid := fun e => hq (congrArg Rid.pageNo e)
    simp [hq, hne]

theorem used_of_ne (h : p ≠ rid.pageNo) : (f.fillSlot rid buf).used p = f.used p := by
  simp [used, fillSlot_pages, h]

theorem used_fillSlot (hs : 0 ≤ rid.slotNo ∧ rid.slotNo < f.numRecordsPerPage) :
    (f.fillSlot rid buf).used rid.pageNo = insert rid.slotNo (f.used rid.pageNo) := by
  ext s
  simp only [used, fillSlot_pages, fillSlot_perPage, Function.update_self, Finset.mem_filter,
    mem_slotNos, Finset.mem_insert]
  by_cases h : s = rid.slotNo
  · subst h
    simp [hs]
  · simp [h]

theorem used_clearSlot_of_ne (h : p ≠ rid.pageNo) : (f.clearSlot rid).used p = f.used p := by
  simp [used, clearSlot_pages, h]

theorem used_clearSlot :
    (f.clearSlot rid).used rid.pageNo = (f.used rid.pageNo).erase rid.slotNo := by
  ext s
  simp only [used, clearSlot_pages, clearSlot_perPage, Function.update_self, Finset.mem_filter,
    mem_slotNos, Finset.mem_erase]
  by_cases h : s = rid.slotNo
  · subst h
    simp
  · simp [h]

theorem Tallied.fillSlot (h : f.Tallied) (hbit : (f.pages rid.pageNo).bitmap rid.slotNo = false)
    (hs : 0 ≤ rid.slotNo ∧ rid.slotNo < f.numRecordsPerPage) : (f.fillSlot rid buf).Tallied := by
  constructor
  case numPages_pos => exact h.numPages_pos.trans_eq fillSlot_numPages.symm
  case fd => simpa using h.fd
  case count =>
    intro q hq
    rw [fillSlot_inFile] at hq
    by_cases hqp : q = rid.pageNo
    · subst hqp
      rw [used_fillSlot hs, Finset.card_insert_of_notMem (by simp [used, hbit])]
      simp [fillSlot_pages, h.count _ hq]
    · rw [used_of_ne hqp, ← h.count q hq]
      simp [fillSlot_pages, hqp]
  case slot =>
    intro q s hq hset
    rw [fillSlot_inFile] at hq
    rw [fillSlot_perPage]
    by_cases hqp : q = rid.pageNo
    · subst hqp
      by_cases hsr : s = rid.slotNo
      · exact hsr ▸ hs
      · exact h.slot _ s hq (by simpa [fillSlot_pages, hsr] using hset)
    · exact h.slot q s hq (by simpa [fillSlot_pages, hqp] using hset)

theorem Tallied.clearSlot (h : f.Tallied) (hbit : (f.pages rid.pageNo).bitmap rid.slotNo = true) :
    (f.clearSlot rid).Tallied := by
  constructor
  case numPages_pos => exact h.numPages_pos.trans_eq clearSlot_numPages.symm
  case fd => simpa using h.fd
  case count =>
    intro q hq
    rw [clearSlot_inFile] at hq
    by_cases hqp : q = rid.pageNo
    · subst hqp
      have hmem : rid.slotNo ∈ f.used rid.pageNo := by
        simp [used, hbit, mem_slotNos, h.slot _ _ hq hbit]
      have hpos := Finset.card_pos.mpr ⟨_, hmem⟩
      have hnum : ((f.clearSlot rid).pages rid.pageNo).numRecords =
          (f.pages rid.pageNo).numRecords - 1 := by
        simp [clearSlot_pages]
      rw [hnum, used_clearSlot, Finset.card_erase_of_mem hmem, h.count _ hq]
      omega
    · rw [used_clearSlot_of_ne hqp, ← h.count q hq]
      simp [clearSlot_pages, hqp]
  case slot =>
    intro q s hq hset
    rw [clearSlot_inFile] at hq
    rw [clearSlot_perPage]
    by_cases hqp : q = rid.pageNo
    · subst hqp
      by_cases hsr : s = rid.slotNo
      · simp [clearSlot_pages, hsr] at hset
      · exact h.slot _ s hq (by simpa [clearSlot_pages, hsr] using hset)
    · exact h.slot q s hq (by simpa [clearSlot_pages, hqp] using hset)

/-- Only the bytes of the slot change. -/
theorem writeSlot_page (q : PageNo) :
    ((f.writeSlot rid buf).pages q).nextFreePageNo = (f.pages q).nextFreePageNo ∧
      ((f.writeSlot rid buf).pages q).numRecords = (f.pages q).numRecords ∧
      ((f.writeSlot rid buf).pages q).bitmap = (f.pages q).bitmap := by
  by_cases hq : q = rid.pageNo
  · subst hq
    simp [RmFileHandle.writeSlot, setPage]
  · simp [RmFileHandle.writeSlot, setPage, hq]

theorem used_writeSlot (q : PageNo) : (f.writeSlot rid buf).used q = f.used q := by
  simp only [used, (writeSlot_page q).2.2]
  rfl

theorem Tallied.writeSlot (h : f.Tallied) : (f.writeSlot rid buf).Tallied := by
  constructor
  case numPages_pos => exact h.numPages_pos
  case fd => exact h.fd
  case count =>
    intro q hq
    rw [(writeSlot_page q).2.1, used_writeSlot]
    exact h.count q hq
  case slot =>
    intro q s hq hset
    exact h.slot q s hq ((writeSlot_page q).2.2 ▸ hset)

theorem newPage_pages_of_ne (h : f.fd2pageno = f.numPages) (hq : p ≠ f.numPages) :
    f.newPage.pages p = f.pages p := by
  simp [RmFileHandle.newPage, setPage, h, hq]

theorem newPage_pages_numPages (h : f.fd2pageno = f.numPages) : f.newPage.pages f.numPages =
    ⟨noPage, 0, fun _ => false, fun _ => List.replicate f.recordSize 0⟩ := by
  simp [RmFileHandle.newPage, setPage, h]

theorem newPage_inFile (hq : f.newPage.InFile p) (hne : p ≠ f.numPages) : f.InFile p := by
  have : p < f.numPages + 1 := hq.2
  exact ⟨hq.1, lt_of_le_of_ne (Int.lt_add_one_iff.mp this) hne⟩

theorem Tallied.newPage (h : f.Tallied) : f.newPage.Tallied := by
  constructor
  case numPages_pos => exact h.numPages_pos.trans (Int.le_add_one le_rfl)
  case fd =>
    show f.fd2pageno + 1 = f.numPages + 1
    rw [h.fd]
  case count =>
    intro q hq
    by_cases hne : q = f.numPages
    · subst hne
      simp [used, newPage_pages_numPages h.fd]
    · have hused : f.newPage.used q = f.used q := by
        simp only [used, newPage_pages_of_ne h.fd hne]
        rfl
      rw [newPage_pages_of_ne h.fd hne, hused]
      exact h.count q (newPage_inFile hq hne)
  case slot =>
    intro q s hq hset
    by_cases hne : q = f.numPages
    · subst hne
      simp [newPage_pages_numPages h.fd] at hset
    · exact h.slot q s (newPage_inFile hq hne) (newPage_pages_of_ne h.fd hne ▸ hset)

/-- A page with an empty slot is not full. -/
theorem Tallied.numRecords_lt (h : f.Tallied) (hin : f.InFile rid.pageNo)
    (hbit : (f.pages rid.pageNo).bitmap rid.slotNo = false)
    (hs : 0 ≤ rid.slotNo ∧ rid.slotNo < f.numRecordsPerPage) :
    (f.pages rid.pageNo).numRecords < f.numRecordsPerPage := by
  have hsub : f.used rid.pageNo ⊂ slotNos f.numRecordsPerPage := by
    refine (Finset.filter_subset _ _).ssubset_of_ne fun e => ?_
    have := e ▸ mem_slotNos.mpr hs
    simp [hbit] at this
  have := Finset.card_lt_card hsub
  rw [card_slotNos] at this
  rw [h.count _ hin]
  omega

theorem Ok.fillSlot (hok : f.Ok chain) (hin : f.InFile rid.pageNo)
    (hbit : (f.pages rid.pageNo).bitmap rid.slotNo = false)
    (hs : 0 ≤ rid.slotNo ∧ rid.slotNo < f.numRecordsPerPage)
    (hhead : (f.pages rid.pageNo).numRecords + 1 = f.numRecordsPerPage →
      chain.head? = some rid.pageNo) :
    (f.fillSlot rid buf).Ok (if (f.pages rid.pageNo).numRecords + 1 = f.numRecordsPerPage then
      chain.tail else chain) := by
  have hnext : ∀ q, ((f.fillSlot rid buf).pages q).nextFreePageNo = (f.pages q).nextFreePageNo := by
    intro q
    by_cases hq : q = rid.pageNo
    · subst hq
      simp [fillSlot_pages]
    · simp [fillSlot_pages, hq]
  have hnum : ∀ q, q ≠ rid.pageNo →
      ((f.fillSlot rid buf).pages q).numRecords = (f.pages q).numRecords := by
    intro q hq
    simp [fillSlot_pages, hq]
  have hnum' : ((f.fillSlot rid buf).pages rid.pageNo).numRecords =
      (f.pages rid.pageNo).numRecords + 1 := by
    simp [fillSlot_pages]
  have hlt := hok.tallied.numRecords_lt hin hbit hs
  have htallied : (f.fillSlot rid buf).Tallied := hok.tallied.fillSlot hbit hs
  refine ⟨hok.perPage_pos.trans_eq fillSlot_perPage.symm, htallied.numPages_pos, htallied.fd,
    ?_, ?_, ?_, htallied.count, htallied.slot⟩
  · rw [fillSlot_firstFree]
    split
    · rename_i hfull
      obtain ⟨rest, rfl⟩ : ∃ rest, chain = rid.pageNo :: rest := by
        cases chain with
        | nil => cases hhead hfull
        | cons q rest => exact ⟨rest, by cases hhead hfull; rfl⟩
      exact hok.chained.2.congr fun q _ => hnext q
    · exact hok.chained.congr fun q _ => hnext q
  · split
    · exact hok.nodup.tail
    · exact hok.nodup
  · intro q hq
    have hmem : q ∈ chain := by
      split at hq
      · exact List.mem_of_mem_tail hq
      · exact hq
    refine ⟨by simpa using (hok.free q hmem).1, ?_⟩
    rw [fillSlot_perPage]
    by_cases hqp : q = rid.pageNo
    · subst hqp
      rw [hnum']
      split at hq
      · rename_i hfull
        -- The page was the head of the chain, so it is not in the rest.
        exfalso
        cases chain with
        | nil => cases hq
        | cons q rest =>
          cases hhead hfull
          exact (List.nodup_cons.mp hok.nodup).1 hq
      · omega
    · rw [hnum q hqp]
      exact (hok.free q hmem).2

theorem Ok.clearSlot (hok : f.Ok chain) (h : f.lookup rid ≠ none) :
    (f.clearSlot rid).Ok (if (f.pages rid.pageNo).numRecords = f.numRecordsPerPage then
      rid.pageNo :: chain else chain) := by
  obtain ⟨old, hold⟩ := Option.ne_none_iff_exists'.mp h
  obtain ⟨hin, hbit, -⟩ := lookup_eq_some_iff.mp hold
  have hnum : ∀ q, q ≠ rid.pageNo →
      ((f.clearSlot rid).pages q).numRecords = (f.pages q).numRecords := by
    intro q hq
    simp [clearSlot_pages, hq]
  have hnum' : ((f.clearSlot rid).pages rid.pageNo).numRecords =
      (f.pages rid.pageNo).numRecords - 1 := by
    simp [clearSlot_pages]
  have htallied : (f.clearSlot rid).Tallied := hok.tallied.clearSlot hbit
  have hle : (f.pages rid.pageNo).numRecords ≤ f.numRecordsPerPage := by
    have hsub : f.used rid.pageNo ⊆ slotNos f.numRecordsPerPage := Finset.filter_subset _ _
    have hcard := Finset.card_le_card hsub
    rw [card_slotNos] at hcard
    have hpos := hok.perPage_pos
    rw [hok.count _ hin]
    omega
  have hchain : (f.pages rid.pageNo).numRecords = f.numRecordsPerPage → rid.pageNo ∉ chain := by
    intro hfull hc
    have := (hok.free _ hc).2
    omega
  refine ⟨hok.perPage_pos.trans_eq clearSlot_perPage.symm, htallied.numPages_pos, htallied.fd,
    ?_, ?_, ?_, htallied.count, htallied.slot⟩
  · rw [clearSlot_firstFree]
    split
    · rename_i hfull
      refine ⟨rfl, ?_⟩
      have hnext : ((f.clearSlot rid).pages rid.pageNo).nextFreePageNo = f.firstFreePageNo := by
        simp [clearSlot_pages, hfull]
      rw [hnext]
      refine hok.chained.congr fun q hq => ?_
      have hne : q ≠ rid.pageNo := fun e => hchain hfull (e ▸ hq)
      simp [clearSlot_pages, hne]
    · rename_i hfull
      refine hok.chained.congr fun q hq => ?_
      by_cases hne : q = rid.pageNo
      · subst hne
        simp [clearSlot_pages, hfull]
      · simp [clearSlot_pages, hne]
  · split
    · rename_i hfull
      exact List.nodup_cons.mpr ⟨hchain hfull, hok.nodup⟩
    · exact hok.nodup
  · intro q hq
    rw [clearSlot_perPage, clearSlot_inFile]
    by_cases hqp : q = rid.pageNo
    · subst hqp
      exact ⟨hin, by rw [hnum']; omega⟩
    · have hq' : q ∈ chain := by
        split at hq
        · exact (List.mem_cons.mp hq).resolve_left hqp
        · exact hq
      rw [hnum q hqp]
      exact hok.free q hq'

theorem Ok.writeSlot (hok : f.Ok chain) : (f.writeSlot rid buf).Ok chain := by
  have htallied : (f.writeSlot rid buf).Tallied := hok.tallied.writeSlot
  refine ⟨hok.perPage_pos, hok.numPages_pos, hok.fd, ?_, hok.nodup, ?_, htallied.count,
    htallied.slot⟩
  · exact hok.chained.congr fun q _ => (writeSlot_page q).1
  · intro q hq
    rw [(writeSlot_page q).2.1]
    exact hok.free q hq

/-- The new page is behind all others and holds nothing. -/
theorem Ok.newPage (hok : f.Ok []) : f.newPage.Ok [f.numPages] := by
  have htallied := hok.tallied.newPage
  have hnew := newPage_pages_numPages hok.fd
  refine ⟨hok.perPage_pos, htallied.numPages_pos, htallied.fd, ⟨hok.fd, ?_⟩,
    List.nodup_singleton _, ?_, htallied.count, htallied.slot⟩
  · show (f.newPage.pages f.numPages).nextFreePageNo = noPage
    rw [hnew]
  · intro q hq
    obtain rfl := List.mem_singleton.mp hq
    rw [hnew]
    exact ⟨⟨hok.numPages_pos, Int.lt_succ _⟩, hok.perPage_pos⟩

theorem Ok.lookup_newPage (hok : f.Ok chain) (rid : Rid) : f.newPage.lookup rid = f.lookup rid := by
  by_cases hq : rid.pageNo = f.numPages
  · have h₁ : f.newPage.lookup rid = none := by
      rw [lookup_eq_none_iff]
      intro _
      simp [RmFileHandle.newPage, setPage, hok.fd, hq]
    have h₂ : f.lookup rid = none := by
      rw [lookup_eq_none_iff]
      intro hin
      exact absurd (hq ▸ hin.2) (lt_irrefl _)
    rw [h₁, h₂]
  · have hin : f.newPage.InFile rid.pageNo ↔ f.InFile rid.pageNo := by
      refine and_congr_right fun _ => ?_
      show rid.pageNo < f.numPages + 1 ↔ rid.pageNo < f.numPages
      rw [Int.lt_add_one_iff]
      exact ⟨fun h => lt_of_le_of_ne h hq, le_of_lt⟩
    have hold : f.newPage.pages rid.pageNo = f.pages rid.pageNo := by
      simp [RmFileHandle.newPage, setPage, hok.fd, hq]
    simp only [lookup, hin, hold]

-- ---------------------------------------------------------------------------
-- The calls
-- ---------------------------------------------------------------------------

theorem getRecord_eq (h : f.lookup rid = some buf) : f.getRecord rid = .ok buf := by
  obtain ⟨hin, -, hdata⟩ := lookup_eq_some_iff.mp h
  have hfetch : f.fetchPageHandle rid.pageNo = .ok (f.pages rid.pageNo) := if_pos hin
  simp [getRecord, hfetch, hdata]

theorem deleteRecord_eq (h : f.lookup rid ≠ none) : f.deleteRecord rid = .ok (f.clearSlot rid) := by
  obtain ⟨old, hold⟩ := Option.ne_none_iff_exists'.mp h
  obtain ⟨hin, hbit, -⟩ := lookup_eq_some_iff.mp hold
  have hfetch : f.fetchPageHandle rid.pageNo = .ok (f.pages rid.pageNo) := if_pos hin
  simp [deleteRecord, hfetch, hbit]

theorem updateRecord_eq (h : f.lookup rid ≠ none) :
    f.updateRecord rid buf = .ok (f.writeSlot rid buf) := by
  obtain ⟨old, hold⟩ := Option.ne_none_iff_exists'.mp h
  obtain ⟨hin, hbit, -⟩ := lookup_eq_some_iff.mp hold
  have hfetch : f.fetchPageHandle rid.pageNo = .ok (f.pages rid.pageNo) := if_pos hin
  simp [updateRecord, hfetch, hbit]

/-- `fetch_free_page_handle` leaves a file whose free chain starts with the page it returns. -/
theorem Ok.fetchFreePageHandle (hok : f.Ok chain) : ∃ p f₁ rest,
    f.fetchFreePageHandle = (p, f₁) ∧ f₁.Ok (p :: rest) ∧
      (chain = p :: rest ∧ f₁ = f ∨ chain = [] ∧ rest = [] ∧ p = f.numPages ∧ f₁ = f.newPage) := by
  cases chain with
  | nil =>
    have hfree : f.firstFreePageNo = noPage := hok.chained
    refine ⟨f.numPages, f.newPage, [], ?_, hok.newPage, .inr ⟨rfl, rfl, rfl, rfl⟩⟩
    simp [RmFileHandle.fetchFreePageHandle, hfree, hok.fd]
  | cons p rest =>
    have hfree : f.firstFreePageNo = p := hok.chained.1
    refine ⟨p, f, rest, ?_, hok, .inl ⟨rfl, rfl⟩⟩
    have hne := hok.pageNo_ne_noPage List.mem_cons_self
    simp [RmFileHandle.fetchFreePageHandle, hfree, hne]

theorem freeSlotLoop_eq {page : RmPage} {left i : Nat}
    (h : ∃ j : Nat, i ≤ j ∧ j < i + left ∧ page.bitmap j = false) :
    ∃ j : Nat, freeSlotLoop page left i = some j ∧ j < i + left ∧ page.bitmap j = false := by
  induction left generalizing i with
  | zero =>
    obtain ⟨j, hij, hj, -⟩ := h
    omega
  | succ left ih =>
    cases hbit : page.bitmap i with
    | false => exact ⟨i, by simp [freeSlotLoop, hbit], by omega, hbit⟩
    | true =>
      obtain ⟨j, hij, hj, hunset⟩ := h
      have hne : i ≠ j := by
        rintro rfl
        simp [hunset] at hbit
      obtain ⟨j', hloop, hj', hunset'⟩ := @ih (i + 1) ⟨j, by omega, by omega, hunset⟩
      exact ⟨j', by simp [freeSlotLoop, hbit, hloop], by omega, hunset'⟩

/-- A page that is not full has a slot for the loop of `insert_record` to find. -/
theorem Ok.freeSlot (hok : f.Ok chain) (hin : f.InFile p)
    (hlt : (f.pages p).numRecords < f.numRecordsPerPage) :
    ∃ i : Nat, f.freeSlot (f.pages p) = some i ∧ (f.pages p).bitmap i = false ∧
      (i : Int) < f.numRecordsPerPage := by
  have hne : f.used p ≠ slotNos f.numRecordsPerPage := by
    intro e
    have := hok.count p hin
    rw [e, card_slotNos] at this
    omega
  obtain ⟨s, hs, hunset⟩ : ∃ s, s ∈ slotNos f.numRecordsPerPage ∧ (f.pages p).bitmap s ≠ true := by
    by_contra hall
    push Not at hall
    exact hne (Finset.filter_true_of_mem hall)
  rw [mem_slotNos] at hs
  have hslot : ∃ j : Nat, 0 ≤ j ∧ j < 0 + f.numRecordsPerPage.toNat ∧ (f.pages p).bitmap j = false :=
    ⟨s.toNat, Nat.zero_le _, by omega, by simpa [Int.toNat_of_nonneg hs.1] using hunset⟩
  obtain ⟨i, hloop, hi, hbit⟩ := freeSlotLoop_eq hslot
  exact ⟨i, hloop, hbit, by omega⟩

/-- The loop of `insert_record(rid, buf)` ends at once or never. -/
theorem fetchFreeUntil_eq (hok : f.Ok chain) (hin : f.InFile p)
    (hhead : ∀ q ∈ chain.head?, p ≤ q) (fuel : Nat) :
    fetchFreeUntil p (fuel + 1) f = .ok f.fetchFreePageHandle.2 := by
  obtain ⟨q, f₁, rest, hfetch, -, hcase⟩ := hok.fetchFreePageHandle
  have hle : p ≤ q := by
    rcases hcase with ⟨rfl, -⟩ | ⟨-, -, rfl, -⟩
    · exact hhead q rfl
    · exact hin.2.le
  simp [fetchFreeUntil, hfetch, not_lt.mpr hle]

theorem fetchFreeUntil_loops (hfree : f.firstFreePageNo ≠ noPage) (hlt : f.firstFreePageNo < p)
    (fuel : Nat) : fetchFreeUntil p fuel f = .error .fuel := by
  have hfetch : f.fetchFreePageHandle = (f.firstFreePageNo, f) := if_neg hfree
  induction fuel with
  | zero => rfl
  | succ fuel ih => simp [fetchFreeUntil, hfetch, hlt, ih]

-- ---------------------------------------------------------------------------
-- What a caller sees
-- ---------------------------------------------------------------------------

/-- How many rows of a set are on a page. -/
def rowsOn (perPage : Int) (rows : Rid → Option RmRecord) (pageNo : PageNo) : Int :=
  ((slotNos perPage).filter fun s => (rows ⟨pageNo, s⟩).isSome).card

/-- The file holds these rows in `numPages` pages, and its free chain is `chain`. -/
structure Holds (f : RmFileHandle) (perPage numPages : Int) (chain : List PageNo)
    (rows : Rid → Option RmRecord) : Prop where
  ok : f.Ok chain
  perPage : f.numRecordsPerPage = perPage
  numPages : f.numPages = numPages
  lookup : ∀ rid, f.lookup rid = rows rid

variable {k n : Int} {rows : Rid → Option RmRecord}

theorem Holds.numRecords (h : f.Holds k n chain rows) (hin : f.InFile p) :
    (f.pages p).numRecords = rowsOn k rows p := by
  rw [h.ok.count p hin, rowsOn, used, h.perPage]
  congr 2
  refine Finset.filter_congr fun s _ => ?_
  rw [← h.lookup]
  simp [RmFileHandle.lookup, hin]

/-- A row is on a page of the file, in a slot of the page. -/
theorem Holds.inFile (h : f.Holds k n chain rows) (hr : rows rid ≠ none) :
    f.InFile rid.pageNo ∧ 0 ≤ rid.slotNo ∧ rid.slotNo < k := by
  rw [← h.lookup] at hr
  obtain ⟨old, hold⟩ := Option.ne_none_iff_exists'.mp hr
  obtain ⟨hin, hbit, -⟩ := lookup_eq_some_iff.mp hold
  exact ⟨hin, h.perPage ▸ h.ok.slot _ _ hin hbit⟩

theorem Holds.getRecord (h : f.Holds k n chain rows) (hr : rows rid = some buf) :
    f.getRecord rid = .ok buf :=
  getRecord_eq ((h.lookup rid).trans hr)

theorem Holds.fillSlot (h : f.Holds k n chain rows) (hin : f.InFile rid.pageNo) (hr : rows rid = none)
    (hs : 0 ≤ rid.slotNo ∧ rid.slotNo < k)
    (hhead : rowsOn k rows rid.pageNo + 1 = k → chain.head? = some rid.pageNo) :
    (f.fillSlot rid buf).Holds k n (if rowsOn k rows rid.pageNo + 1 = k then chain.tail else chain)
      (Function.update rows rid (some buf)) := by
  have hnum := h.numRecords hin
  have hbit : (f.pages rid.pageNo).bitmap rid.slotNo = false :=
    lookup_eq_none_iff.mp ((h.lookup rid).trans hr) hin
  have hok : (f.fillSlot rid buf).Ok _ :=
    h.ok.fillSlot hin hbit (h.perPage.symm ▸ hs) (by rwa [hnum, h.perPage])
  rw [hnum, h.perPage] at hok
  refine ⟨hok, fillSlot_perPage.trans h.perPage, fillSlot_numPages.trans h.numPages, ?_⟩
  intro r
  rw [lookup_fillSlot hin, h.lookup, Function.update_apply]

theorem Holds.newPage (h : f.Holds k n [] rows) : f.newPage.Holds k (n + 1) [n] rows := by
  obtain rfl := h.numPages
  exact ⟨h.ok.newPage, h.perPage, rfl, fun r => (h.ok.lookup_newPage r).trans (h.lookup r)⟩

/-- The file once `fetch_free_page_handle` has made a page if there was no free one. -/
theorem Holds.fetchFreePageHandle (h : f.Holds k n chain rows) : ∃ p f₁ rest n₁,
    f.fetchFreePageHandle = (p, f₁) ∧ f₁.Holds k n₁ (p :: rest) rows ∧
      (chain = p :: rest ∧ n₁ = n ∨ chain = [] ∧ rest = [] ∧ p = n ∧ n₁ = n + 1) := by
  obtain ⟨p, f₁, rest, hfetch, hok, hcase⟩ := h.ok.fetchFreePageHandle
  rcases hcase with ⟨rfl, rfl⟩ | ⟨rfl, rfl, rfl, rfl⟩
  · exact ⟨p, f₁, rest, n, hfetch, h, .inl ⟨rfl, rfl⟩⟩
  · obtain rfl := h.numPages
    exact ⟨_, _, [], _, hfetch, h.newPage, .inr ⟨rfl, rfl, rfl, rfl⟩⟩

/-- Where `insert_record` puts a row, and what the file is like then: a free slot of the first
free page, which is a new page if there was none. -/
def PlacedAt (k n : Int) (chain : List PageNo) (rows : Rid → Option RmRecord) (rid : Rid)
    (n₁ : Int) (chain₁ : List PageNo) : Prop :=
  rows rid = none ∧ ∃ rest,
    (chain = rid.pageNo :: rest ∧ n₁ = n ∨ chain = [] ∧ rest = [] ∧ rid.pageNo = n ∧ n₁ = n + 1) ∧
    chain₁ = if rowsOn k rows rid.pageNo + 1 = k then rest else rid.pageNo :: rest

theorem Holds.insertRecord (h : f.Holds k n chain rows) (buf : RmRecord) : ∃ rid g n₁ chain₁,
    f.insertRecord buf = .ok (rid, g) ∧ PlacedAt k n chain rows rid n₁ chain₁ ∧
      g.Holds k n₁ chain₁ (Function.update rows rid (some buf)) := by
  obtain ⟨p, f₁, rest, n₁, hfetch, h₁, hcase⟩ := h.fetchFreePageHandle
  obtain ⟨hin, hlt⟩ := h₁.ok.free p List.mem_cons_self
  obtain ⟨i, hslot, hbit, hi⟩ := h₁.ok.freeSlot hin hlt
  have hpage : f₁.fetchPageHandle p = .ok (f₁.pages p) := if_pos hin
  have hr : rows ⟨p, i⟩ = none := by
    rw [← h₁.lookup, lookup_eq_none_iff]
    exact fun _ => hbit
  refine ⟨⟨p, i⟩, f₁.fillSlot ⟨p, i⟩ buf, n₁, _, ?_, ⟨hr, rest, hcase, rfl⟩, ?_⟩
  · simp [RmFileHandle.insertRecord, hfetch, hpage, hslot]
  · exact h₁.fillSlot hin hr ⟨Int.natCast_nonneg i, h₁.perPage ▸ hi⟩ fun _ => rfl

theorem Holds.deleteRecord (h : f.Holds k n chain rows) (hr : rows rid ≠ none) : ∃ g,
    f.deleteRecord rid = .ok g ∧
      g.Holds k n (if rowsOn k rows rid.pageNo = k then rid.pageNo :: chain else chain)
        (Function.update rows rid none) := by
  have hr' : f.lookup rid ≠ none := by rwa [h.lookup]
  have hok := h.ok.clearSlot hr'
  rw [h.numRecords (h.inFile hr).1, h.perPage] at hok
  refine ⟨f.clearSlot rid, deleteRecord_eq hr', hok, clearSlot_perPage.trans h.perPage,
    clearSlot_numPages.trans h.numPages, ?_⟩
  intro r
  rw [lookup_clearSlot, h.lookup, Function.update_apply]

theorem Holds.writeSlot (h : f.Holds k n chain rows) (hr : rows rid ≠ none) :
    (f.writeSlot rid buf).Holds k n chain (Function.update rows rid (some buf)) := by
  refine ⟨h.ok.writeSlot, h.perPage, h.numPages, ?_⟩
  intro r
  rw [lookup_writeSlot (by rwa [h.lookup]), h.lookup, Function.update_apply]

theorem Holds.updateRecord (h : f.Holds k n chain rows) (hr : rows rid ≠ none) (buf : RmRecord) : ∃ g,
    f.updateRecord rid buf = .ok g ∧ g.Holds k n chain (Function.update rows rid (some buf)) :=
  ⟨_, updateRecord_eq (by rwa [h.lookup]), h.writeSlot hr⟩

theorem rowsOn_update_some (hr : rows rid = none) (hs : 0 ≤ rid.slotNo ∧ rid.slotNo < k) :
    rowsOn k (Function.update rows rid (some buf)) rid.pageNo = rowsOn k rows rid.pageNo + 1 := by
  have hset : (slotNos k).filter
      (fun s => (Function.update rows rid (some buf) ⟨rid.pageNo, s⟩).isSome) =
      insert rid.slotNo ((slotNos k).filter fun s => (rows ⟨rid.pageNo, s⟩).isSome) := by
    ext s
    simp only [Finset.mem_filter, mem_slotNos, Finset.mem_insert]
    by_cases h : s = rid.slotNo
    · subst h
      simp [hs]
    · have hne : (⟨rid.pageNo, s⟩ : Rid) ≠ rid := fun e => h (congrArg Rid.slotNo e)
      simp [h, hne]
  rw [rowsOn, hset, Finset.card_insert_of_notMem (by simp [hr]), rowsOn, Int.natCast_succ]

/-- `insert_record(rid, buf)` when its loop ends: it may leave a new empty page behind. -/
theorem Holds.insertRecordAt (h : f.Holds k n chain rows) (hin : f.InFile rid.pageNo)
    (hs : 0 ≤ rid.slotNo ∧ rid.slotNo < k) (hhead : ∀ q ∈ chain.head?, rid.pageNo ≤ q)
    (hfull : rows rid = none → rowsOn k rows rid.pageNo + 1 = k → chain.head? = some rid.pageNo)
    (buf : RmRecord) (fuel : Nat) : ∃ g extra n',
      f.insertRecordAt (fuel + 1) rid buf = .ok g ∧ n ≤ n' ∧ (∀ p ∈ extra, n ≤ p) ∧
      g.Holds k n' (if rows rid = none ∧ rowsOn k rows rid.pageNo + 1 = k then
        (chain ++ extra).tail else chain ++ extra) (Function.update rows rid (some buf)) := by
  obtain ⟨q, f₁, rest, n₁, hfetch, h₁, hcase⟩ := h.fetchFreePageHandle
  obtain ⟨extra, hchain, hn, hextra, hhead₁⟩ : ∃ extra, q :: rest = chain ++ extra ∧ n ≤ n₁ ∧
      (∀ p ∈ extra, n ≤ p) ∧ (chain.head? = some rid.pageNo → (q :: rest).head? = some rid.pageNo) := by
    rcases hcase with ⟨rfl, rfl⟩ | ⟨rfl, rfl, rfl, rfl⟩
    · exact ⟨[], by simp, le_rfl, by simp, id⟩
    · exact ⟨[q], rfl, by omega, by simp, by simp⟩
  have hloop : fetchFreeUntil rid.pageNo (fuel + 1) f = .ok f₁ := by
    rw [fetchFreeUntil_eq h.ok hin hhead, hfetch]
  have hin₁ : f₁.InFile rid.pageNo :=
    ⟨hin.1, h₁.numPages.symm ▸ lt_of_lt_of_le (h.numPages ▸ hin.2) hn⟩
  have hpage : f₁.fetchPageHandle rid.pageNo = .ok (f₁.pages rid.pageNo) := if_pos hin₁
  rw [hchain] at h₁ hhead₁
  cases hr : rows rid with
  | none =>
    have hbit : (f₁.pages rid.pageNo).bitmap rid.slotNo = false :=
      lookup_eq_none_iff.mp ((h₁.lookup rid).trans hr) hin₁
    refine ⟨f₁.fillSlot rid buf, extra, n₁, ?_, hn, hextra, ?_⟩
    · simp [RmFileHandle.insertRecordAt, hloop, hpage, hbit]
    · simpa using h₁.fillSlot hin₁ hr hs fun hf => hhead₁ (hfull hr hf)
  | some old =>
    have hne : rows rid ≠ none := by simp [hr]
    have hbit : (f₁.pages rid.pageNo).bitmap rid.slotNo = true :=
      (lookup_eq_some_iff.mp ((h₁.lookup rid).trans hr)).2.1
    refine ⟨f₁.writeSlot rid buf, extra, n₁, ?_, hn, hextra, ?_⟩
    · simp [RmFileHandle.insertRecordAt, hloop, hpage, hbit]
    · simpa using h₁.writeSlot hne

end RmFileHandle

end Rmdb
