-- SUMMARY: The sequential scan with its buffers of tuples and rids, and what a pass of it gives.
import Rmdb.Execution.Pass

/-!
# Sequential scans

`SeqScanExecutor` keeps the tuples of one page that pass its conditions, and their rids, in two buffers. A page is
read slot by slot until as many records have been found as its header counts. `Next` moves the tuple out of the
buffer and leaves a null pointer there.

The tuples alone are modelled with the other executors of a SELECT. This is the whole executor, with the rids that
an UPDATE or a DELETE takes from it.
-/

namespace Rmdb

/-- The members of `SeqScanExecutor` that change. A tuple is `none` after it has been moved out. -/
structure SeqScanExecutor where
  tupleBuffer : List (Option RmRecord)
  ridsBuffer : List Rid
  currPageInBuffer : PageNo
  bufferIdx : Nat
  isEnd : Bool

namespace SeqScanExecutor

variable (table : TableFile) (conds : List JoinCondition)

/-- The loop over the conditions. -/
def test (r : RmRecord) : Option Bool := testAll (fun c => c.testRecord table.cols r) conds

/-- The loop over the slots of page `i`, which fills both buffers. -/
def collect (i : PageNo) (page : RmPage) (slots : List Nat) (tuples : List (Option RmRecord)) (rids : List Rid) :
    Option (List (Option RmRecord) × List Rid) :=
  match slots with
  | [] => some (tuples, rids)
  | slotNo :: slots => do
    let tmp := page.slots slotNo
    if ← test table conds tmp then collect i page slots (tuples ++ [some tmp]) (rids ++ [⟨i, slotNo⟩])
    else collect i page slots tuples rids

/-- What is done with the slots of page `i`. -/
def readSlots (i : PageNo) (page : RmPage) (slots : List Nat) (mayFound : Bool) (tuples : List (Option RmRecord))
    (rids : List Rid) : Option (List (Option RmRecord) × List Rid) :=
  if mayFound then collect table conds i page slots tuples rids else some (tuples, rids)

/-- The loop over the pages from `i` on. In `beginTuple` the variable `may_found` keeps its value from page to
page, in `nextTuple` it is one of the body. -/
def pageLoop (keeps : Bool) (s : SeqScanExecutor) : Nat → PageNo → Bool → Option SeqScanExecutor
  | 0, _, _ => some { s with isEnd := true }
  | left + 1, i, mayFound => do
    let page := table.file.pages i
    let slots := SeqScan.slots page table.file.numRecordsPerPage.toNat 0 page.numRecords.toNat
    let mayFound := mayFound || !slots.isEmpty
    let (tuples, rids) ← readSlots table conds i page slots mayFound s.tupleBuffer s.ridsBuffer
    if tuples.length > 0 then
      return { s with tupleBuffer := tuples, ridsBuffer := rids, currPageInBuffer := i, bufferIdx := 0 }
    else pageLoop keeps { s with tupleBuffer := tuples, ridsBuffer := rids } left (i + 1) (keeps && mayFound)

def beginTuple (s : SeqScanExecutor) : Option SeqScanExecutor :=
  pageLoop table conds true { s with isEnd := false, tupleBuffer := [], ridsBuffer := [], bufferIdx := 0 }
    (table.file.numPages - 1).toNat 1 false

def nextTuple (s : SeqScanExecutor) : Option SeqScanExecutor :=
  if s.bufferIdx + 1 = s.tupleBuffer.length then
    pageLoop table conds false { s with tupleBuffer := [], ridsBuffer := [], bufferIdx := s.bufferIdx + 1 }
      (table.file.numPages - (s.currPageInBuffer + 1)).toNat (s.currPageInBuffer + 1) false
  else some { s with bufferIdx := s.bufferIdx + 1 }

/-- `Next`, with the buffer that it leaves. -/
def next (s : SeqScanExecutor) : Option RmRecord × SeqScanExecutor :=
  (s.tupleBuffer.getD s.bufferIdx none, { s with tupleBuffer := s.tupleBuffer.set s.bufferIdx none })

def rid (s : SeqScanExecutor) : Rid := s.ridsBuffer.getD s.bufferIdx default

/-- A caller that takes the rid and the tuple at each position. -/
def cursor : Cursor SeqScanExecutor (Rid × Option RmRecord) where
  begin := beginTuple table conds
  next s := nextTuple table conds s.next.2
  isEnd := SeqScanExecutor.isEnd
  current s := (s.rid, s.next.1)

end SeqScanExecutor

-- ---------------------------------------------------------------------------
-- What a scan should give
-- ---------------------------------------------------------------------------

/-- The record at a position, if one is stored there. -/
def RmFileHandle.recordAt (f : RmFileHandle) (rid : Rid) : Option RmRecord :=
  if 0 ≤ rid.slotNo ∧ rid.slotNo < f.numRecordsPerPage then f.lookup rid else none

/-- These are the stored records that satisfy the conditions with their positions, each once and in the order of
pages and slots. -/
structure ScanRight (table : TableFile) (conds : List JoinCondition) (found : List (Rid × RmRecord)) : Prop where
  mem : ∀ rid r, (rid, r) ∈ found ↔
    table.file.recordAt rid = some r ∧ SeqScanExecutor.test table conds r = some true
  sorted : found.Pairwise fun x y => x.1.Before y.1

/-- What a pass gives: all these records, or an error if a condition names a column that the table does not have
and there is a record to test it on. -/
def ScanOutcome (table : TableFile) (conds : List JoinCondition) : Option (List (Rid × Option RmRecord)) → Prop
  | some pairs => ∃ found, pairs = found.map (fun x => (x.1, some x.2)) ∧ ScanRight table conds found
  | none => ∃ rid r, table.file.recordAt rid = some r ∧ SeqScanExecutor.test table conds r = none

-- ---------------------------------------------------------------------------
-- Pages
-- ---------------------------------------------------------------------------

namespace SeqScanExecutor

variable {table : TableFile} {conds : List JoinCondition}

/-- Records with the positions they are at. -/
abbrev Found := List (Rid × RmRecord)

def tuplesOf (l : Found) : List (Option RmRecord) := l.map fun x => some x.2

def ridsOf (l : Found) : List Rid := l.map Prod.fst

/-- Those that satisfy the conditions, unless a condition fails on one of them. -/
def selected (table : TableFile) (conds : List JoinCondition) : Found → Option Found
  | [] => some []
  | x :: xs => do
    let passes ← test table conds x.2
    let rest ← selected table conds xs
    return if passes then x :: rest else rest

theorem selected_append (xs ys : Found) : selected table conds (xs ++ ys) =
    (selected table conds xs).bind fun l => (selected table conds ys).map (l ++ ·) := by
  induction xs with
  | nil => simp [selected]
  | cons x xs ih =>
    simp only [List.cons_append, selected, ih]
    cases test table conds x.2 with
    | none => rfl
    | some passes =>
      cases selected table conds xs with
      | none => rfl
      | some l =>
        cases selected table conds ys with
        | none => rfl
        | some l' => cases passes <;> rfl

theorem selected_some {xs l : Found} (h : selected table conds xs = some l) :
    l.Sublist xs ∧ ∀ x, x ∈ l ↔ x ∈ xs ∧ test table conds x.2 = some true := by
  induction xs generalizing l with
  | nil =>
    cases h
    simp
  | cons x xs ih =>
    simp only [selected, Option.bind_eq_bind, Option.bind_eq_some_iff] at h
    obtain ⟨passes, htest, rest, hrest, heq⟩ := h
    obtain ⟨hsub, hmem⟩ := ih hrest
    cases passes with
    | true =>
      obtain rfl : x :: rest = l := Option.some.inj heq
      refine ⟨hsub.cons_cons x, fun y => ?_⟩
      rw [List.mem_cons, List.mem_cons, hmem, or_and_right]
      exact or_congr_left ⟨fun heq => ⟨heq, heq ▸ htest⟩, And.left⟩
    | false =>
      obtain rfl : rest = l := Option.some.inj heq
      refine ⟨hsub.cons x, fun y => ?_⟩
      rw [hmem, List.mem_cons]
      refine ⟨And.imp_left .inr, fun ⟨hy, hpass⟩ => ⟨hy.resolve_left ?_, hpass⟩⟩
      rintro rfl
      cases htest.symm.trans hpass

/-- When the conditions can be tested on all of them. -/
theorem selected_eq_filter {keep : RmRecord → Bool} {xs : Found}
    (h : ∀ x ∈ xs, test table conds x.2 = some (keep x.2)) :
    selected table conds xs = some (xs.filter fun x => keep x.2) := by
  induction xs with
  | nil => rfl
  | cons x xs ih =>
    obtain ⟨hx, h⟩ := List.forall_mem_cons.mp h
    simp only [selected, hx, ih h, Option.bind_eq_bind, Option.bind_some, List.filter_cons]
    rfl

theorem selected_none {xs : Found} (h : selected table conds xs = none) :
    ∃ x ∈ xs, test table conds x.2 = none := by
  induction xs with
  | nil => cases h
  | cons x xs ih =>
    cases htest : test table conds x.2 with
    | none => exact ⟨x, List.mem_cons_self, htest⟩
    | some passes =>
      have hrest : selected table conds xs = none := by
        cases hrest : selected table conds xs with
        | none => rfl
        | some rest =>
          simp only [selected, htest, hrest] at h
          cases h
      obtain ⟨y, hy, hnone⟩ := ih hrest
      exact ⟨y, List.mem_cons_of_mem _ hy, hnone⟩

/-- The records in the given slots of a page. -/
def atSlots (i : PageNo) (page : RmPage) (slots : List Nat) : Found :=
  slots.map fun slotNo : Nat => (⟨i, slotNo⟩, page.slots slotNo)

/-- The loop over the slots keeps the two buffers in step. -/
theorem collect_eq (i : PageNo) (page : RmPage) (slots : List Nat) (l : Found) :
    collect table conds i page slots (tuplesOf l) (ridsOf l) =
      (selected table conds (atSlots i page slots)).map fun l' => (tuplesOf (l ++ l'), ridsOf (l ++ l')) := by
  induction slots generalizing l with
  | nil => simp [collect, atSlots, selected]
  | cons slotNo slots ih =>
    simp only [collect, atSlots, List.map_cons, selected]
    cases test table conds (page.slots slotNo) with
    | none => rfl
    | some passes =>
      cases passes with
      | false =>
        refine (ih l).trans ?_
        unfold atSlots
        cases selected table conds (List.map _ slots) <;> rfl
      | true =>
        have hstep := ih (l ++ [((⟨i, slotNo⟩ : Rid), page.slots slotNo)])
        simp only [tuplesOf, ridsOf, List.map_append, List.map_singleton] at hstep ⊢
        refine hstep.trans ?_
        unfold atSlots
        cases selected table conds (List.map _ slots) <;> simp

/-- A page without records has no slots to read, so it does not matter that `may_found` may still be set. -/
theorem readSlots_eq (i : PageNo) (page : RmPage) (slots : List Nat) (mayFound : Bool) :
    readSlots table conds i page slots (mayFound || !slots.isEmpty) [] [] =
      (selected table conds (atSlots i page slots)).map fun l => (tuplesOf l, ridsOf l) := by
  unfold readSlots
  split
  · exact collect_eq i page slots []
  · rename_i hnone
    simp only [Bool.or_eq_true, Bool.not_eq_true', not_or, Bool.not_eq_false, List.isEmpty_iff] at hnone
    rw [hnone.2]
    rfl

/-- The records on `left` pages from page `i` on. -/
def pairsFrom (f : RmFileHandle) (left : Nat) (i : PageNo) : Found :=
  (RmScan.ridsFrom f left i 0).map fun rid => (rid, (f.pages rid.pageNo).slots rid.slotNo)

theorem pairsFrom_succ (f : RmFileHandle) (left : Nat) (i : PageNo) : pairsFrom f (left + 1) i =
    atSlots i (f.pages i) (RmScan.slotsFrom (f.pages i) f.numRecordsPerPage.toNat 0) ++ pairsFrom f left (i + 1) := by
  simp [pairsFrom, RmScan.ridsFrom, atSlots, Function.comp_def]

-- ---------------------------------------------------------------------------
-- Passes
-- ---------------------------------------------------------------------------

/-- The buffers hold these records from the current position on. -/
structure Buffered (s : SeqScanExecutor) (l : Found) : Prop where
  tuples : s.tupleBuffer.drop s.bufferIdx = tuplesOf l
  rids : s.ridsBuffer.drop s.bufferIdx = ridsOf l

theorem Buffered.head {s : SeqScanExecutor} {x : Rid × RmRecord} {l : Found} (h : Buffered s (x :: l)) :
    (cursor table conds).current s = (x.1, some x.2) := by
  have htuple : s.tupleBuffer[s.bufferIdx]? = some (some x.2) := by
    rw [← List.head?_drop, h.tuples]
    rfl
  have hrid : s.ridsBuffer[s.bufferIdx]? = some x.1 := by
    rw [← List.head?_drop, h.rids]
    rfl
  simp only [cursor, SeqScanExecutor.rid, SeqScanExecutor.next, List.getD_eq_getElem?_getD, htuple, hrid,
    Option.getD_some]

/-- Moving a tuple out does not touch those behind it. -/
theorem Buffered.tail {s : SeqScanExecutor} {x : Rid × RmRecord} {l : Found} (h : Buffered s (x :: l)) :
    Buffered { s.next.2 with bufferIdx := s.bufferIdx + 1 } l := by
  constructor
  · show (s.tupleBuffer.set s.bufferIdx none).drop (s.bufferIdx + 1) = _
    rw [List.drop_set_of_lt (Nat.lt_add_one _), ← List.drop_drop, h.tuples]
    rfl
  · show s.ridsBuffer.drop (s.bufferIdx + 1) = _
    rw [← List.drop_drop, h.rids]
    rfl

theorem Buffered.last_iff {s : SeqScanExecutor} {x : Rid × RmRecord} {l : Found} (h : Buffered s (x :: l)) :
    s.bufferIdx + 1 = s.tupleBuffer.length ↔ l = [] := by
  have hlen := congrArg List.length h.tuples
  simp only [List.length_drop, tuplesOf, List.length_map, List.length_cons] at hlen
  rw [← List.length_eq_zero_iff]
  omega

/-- A pass through a page that is in the buffers, and then through the pages behind it. -/
theorem buffer_outcome {i : PageNo} {rest : Option Found}
    (hrest : ∀ s : SeqScanExecutor, s.isEnd = false → s.tupleBuffer = [] → s.ridsBuffer = [] →
      (cursor table conds).Leads (pageLoop table conds false s (table.file.numPages - (i + 1)).toNat (i + 1) false)
        (rest.map fun l => l.map fun x => (x.1, some x.2)))
    {x : Rid × RmRecord} {l : Found} {s : SeqScanExecutor} (hend : s.isEnd = false) (hpage : s.currPageInBuffer = i)
    (hbuffer : Buffered s (x :: l)) :
    (cursor table conds).Outcome s (rest.map fun l' => (x :: l ++ l').map fun x => (x.1, some x.2)) := by
  have hhead : (cursor table conds).current s = (x.1, some x.2) := hbuffer.head
  have hnextTuple : (cursor table conds).next s = nextTuple table conds s.next.2 := rfl
  have hlast := hbuffer.last_iff
  have hlen : s.next.2.tupleBuffer.length = s.tupleBuffer.length := List.length_set
  induction l generalizing x s with
  | nil =>
    have hnext : (cursor table conds).next s = pageLoop table conds false
        { s.next.2 with tupleBuffer := [], ridsBuffer := [], bufferIdx := s.bufferIdx + 1 }
        (table.file.numPages - (i + 1)).toNat (i + 1) false := by
      rw [hnextTuple, nextTuple, if_pos (hlen ▸ hlast.mpr rfl), ← hpage]
      rfl
    have hleads := hrest { s.next.2 with tupleBuffer := [], ridsBuffer := [], bufferIdx := s.bufferIdx + 1 } hend rfl rfl
    rw [← hnext] at hleads
    have hstep := Cursor.Leads.tuple hend hleads
    rw [hhead, Option.map_map] at hstep
    exact hstep
  | cons y l ih =>
    have hnext : (cursor table conds).next s = some { s.next.2 with bufferIdx := s.bufferIdx + 1 } := by
      rw [hnextTuple, nextTuple, if_neg (hlen ▸ mt hlast.mp (List.cons_ne_nil _ _))]
      rfl
    have htail := hbuffer.tail
    have hstep := Cursor.Outcome.tuple hend hnext
      (ih (s := { s.next.2 with bufferIdx := s.bufferIdx + 1 }) hend hpage htail htail.head rfl htail.last_iff
        List.length_set)
    rw [hhead, Option.map_map] at hstep
    exact hstep

/-- From any page on, with empty buffers: what the pages hold that satisfies the conditions. The induction is on the
number of pages that are left. A page without a match leaves the buffers empty. -/
theorem pageLoop_outcome (hcounted : table.file.Counted) (keeps : Bool) (left : Nat) {i : Int} (hi : 1 ≤ i)
    (hleft : left = (table.file.numPages - i).toNat) {s : SeqScanExecutor} (hend : s.isEnd = false)
    (htuples : s.tupleBuffer = []) (hrids : s.ridsBuffer = []) (mayFound : Bool) :
    (cursor table conds).Leads (pageLoop table conds keeps s left i mayFound)
      ((selected table conds (pairsFrom table.file left i)).map fun l => l.map fun x => (x.1, some x.2)) := by
  induction left generalizing i s keeps mayFound with
  | zero => exact .done rfl
  | succ left ih =>
    have hin : table.file.InFile i := ⟨hi, by show i < table.file.numPages; omega⟩
    have hslots : SeqScan.slots (table.file.pages i) table.file.numRecordsPerPage.toNat 0
        (table.file.pages i).numRecords.toNat =
        RmScan.slotsFrom (table.file.pages i) table.file.numRecordsPerPage.toNat 0 := by
      refine SeqScan.slots_eq ?_
      have hcount := hcounted i hin
      omega
    have hi' : 1 ≤ i + 1 := Int.le_add_one hi
    have hleft' : left = (table.file.numPages - (i + 1)).toNat := by omega
    simp only [pageLoop, hslots, htuples, hrids, readSlots_eq, pairsFrom_succ, selected_append]
    cases hpage : selected table conds (atSlots i (table.file.pages i)
        (RmScan.slotsFrom (table.file.pages i) table.file.numRecordsPerPage.toNat 0)) with
    | none => rfl
    | some l =>
      cases l with
      | nil =>
        have hrest := @ih keeps (i + 1) hi' hleft' { s with tupleBuffer := [], ridsBuffer := [] } hend rfl rfl
        simp only [Option.map_some, Option.bind_some, Option.bind_eq_bind, List.nil_append, Option.map_id']
        exact hrest _
      | cons x l =>
        have houtcome := @buffer_outcome table conds i _ (fun s hend htuples hrids =>
          hleft' ▸ @ih false (i + 1) hi' hleft' s hend htuples hrids false) x l
            ⟨tuplesOf (x :: l), ridsOf (x :: l), i, 0, s.isEnd⟩ hend rfl ⟨rfl, rfl⟩
        simp only [Option.map_some, Option.bind_some, Option.bind_eq_bind, Option.map_map]
        rw [← hleft'] at houtcome
        exact houtcome

end SeqScanExecutor

-- ---------------------------------------------------------------------------
-- The whole scan
-- ---------------------------------------------------------------------------

theorem RmScan.ridsFrom_of_neg {f : RmFileHandle} (h : f.numRecordsPerPage < 0) (left : Nat) (i : PageNo) :
    ridsFrom f left i 0 = [] := by
  have hslots : f.numRecordsPerPage.toNat = 0 := by omega
  induction left generalizing i with
  | zero => rfl
  | succ left ih =>
    rw [ridsFrom, ih, hslots]
    rfl

theorem mem_pairsFrom {f : RmFileHandle} {rid : Rid} {r : RmRecord} :
    (rid, r) ∈ SeqScanExecutor.pairsFrom f (f.numPages - 1).toNat 1 ↔ f.recordAt rid = some r := by
  obtain ⟨p, s⟩ := rid
  have hmem : (⟨p, s⟩ : Rid) ∈ RmScan.ridsFrom f (f.numPages - 1).toNat 1 0 ↔
      (0 ≤ s ∧ s < f.numRecordsPerPage) ∧ f.InFile p ∧ (f.pages p).bitmap s = true := by
    have hin : ∀ p : Int, (1 ≤ p ∧ p < 1 + (f.numPages - 1).toNat) ↔ f.InFile p := by
      intro p
      show _ ↔ 1 ≤ p ∧ p < f.numPages
      omega
    by_cases hperPage : 0 ≤ f.numRecordsPerPage
    · rw [RmScan.mem_ridsFrom hperPage, ← hin p]
      constructor
      · rintro ⟨h₁, h₂, -, h₄, h₅⟩
        exact ⟨h₄, ⟨h₁, h₂⟩, h₅⟩
      · rintro ⟨h₁, ⟨h₂, h₃⟩, h₄⟩
        exact ⟨h₂, h₃, fun _ => h₁.1, h₁, h₄⟩
    · have hnil : RmScan.ridsFrom f (f.numPages - 1).toNat 1 0 = [] := RmScan.ridsFrom_of_neg (Int.lt_of_not_ge hperPage) _ _
      rw [hnil]
      simp only [List.not_mem_nil, false_iff]
      omega
  simp only [SeqScanExecutor.pairsFrom, List.mem_map, Prod.mk.injEq, RmFileHandle.recordAt, RmFileHandle.lookup]
  constructor
  · rintro ⟨rid, hrid, rfl, rfl⟩
    obtain ⟨hslot, hin, hbit⟩ := hmem.mp hrid
    rw [if_pos hslot, if_pos ⟨hin, hbit⟩]
  · intro h
    split at h
    · rename_i hslot
      split at h
      · rename_i hset
        exact ⟨_, hmem.mpr ⟨hslot, hset⟩, rfl, Option.some.inj h⟩
      · cases h
    · cases h

/-- A sequential scan gives the stored records that satisfy its conditions, in the order of pages and slots, and
starts anew whenever it is opened, whatever it did before. -/
theorem seqScan_right {table : TableFile} (conds : List JoinCondition) (hcounted : table.file.Counted) : ∃ result,
    (∀ s, (SeqScanExecutor.cursor table conds).Leads ((SeqScanExecutor.cursor table conds).begin s) result) ∧
      ScanOutcome table conds result := by
  refine ⟨_, fun s => SeqScanExecutor.pageLoop_outcome hcounted true _ (le_refl 1) rfl rfl rfl rfl false, ?_⟩
  cases hselected : SeqScanExecutor.selected table conds
      (SeqScanExecutor.pairsFrom table.file (table.file.numPages - 1).toNat 1) with
  | none =>
    obtain ⟨⟨rid, r⟩, hmem, htest⟩ := SeqScanExecutor.selected_none hselected
    exact ⟨rid, r, mem_pairsFrom.mp hmem, htest⟩
  | some found =>
    obtain ⟨hsub, hmem⟩ := SeqScanExecutor.selected_some hselected
    refine ⟨found, rfl, fun rid r => ?_, ?_⟩
    · rw [hmem, mem_pairsFrom]
    · refine List.Pairwise.sublist hsub ?_
      rw [SeqScanExecutor.pairsFrom, List.pairwise_map]
      by_cases hperPage : 0 ≤ table.file.numRecordsPerPage
      · exact RmScan.ridsFrom_sorted hperPage
      · rw [RmScan.ridsFrom_of_neg (Int.lt_of_not_ge hperPage)]
        exact .nil

/-- The tuples are those of the executor that the other executors of a SELECT are built on. -/
theorem seqScan_tuples {table : TableFile} {conds : List JoinCondition} {keep : RmRecord → Bool}
    (hcounted : table.file.Counted)
    (htest : ∀ r ∈ table.file.records, SeqScanExecutor.test table conds r = some (keep r)) (s : SeqScanExecutor)
    (t : SeqScan) : ∃ found : List (Rid × RmRecord),
    (SeqScanExecutor.cursor table conds).Leads ((SeqScanExecutor.cursor table conds).begin s)
        (some (found.map fun x => (x.1, some x.2))) ∧
      (SeqScan.executor table conds).Runs t (found.map Prod.snd) := by
  have hrecords : (SeqScanExecutor.pairsFrom table.file (table.file.numPages - 1).toNat 1).map Prod.snd =
      table.file.records := by
    rw [RmFileHandle.records_eq, SeqScanExecutor.pairsFrom, List.map_map]
    rfl
  have hselected := @SeqScanExecutor.selected_eq_filter table conds keep
    (SeqScanExecutor.pairsFrom table.file (table.file.numPages - 1).toNat 1)
    fun x hx => htest x.2 (hrecords ▸ List.mem_map_of_mem hx)
  refine ⟨(SeqScanExecutor.pairsFrom table.file (table.file.numPages - 1).toNat 1).filter (fun x => keep x.2), ?_, ?_⟩
  · have houtcome := @SeqScanExecutor.pageLoop_outcome table conds hcounted true _ _ (le_refl 1) rfl
      { s with isEnd := false, tupleBuffer := [], ridsBuffer := [], bufferIdx := 0 } rfl rfl rfl false
    rw [hselected] at houtcome
    exact houtcome
  · have hfilter := SeqScan.runs hcounted htest t
    rw [← hrecords, List.filter_map] at hfilter
    exact hfilter

namespace ScanExample

/-- An empty page, a page with two records and a page with one. -/
def pages : PageNo → RmPage
  | 2 => ⟨-1, 2, fun s => s == 0 || s == 2, fun s => if s = 0 then [1, 0, 0, 0] else [2, 0, 0, 0]⟩
  | 3 => ⟨-1, 1, fun s => s == 1, fun _ => [1, 0, 0, 0]⟩
  | _ => ⟨-1, 0, fun _ => false, fun _ => []⟩

def table : TableFile := ⟨[⟨⟨"a", .int, 4, 0⟩, "t"⟩], ⟨4, 4, 3, 1, 4, pages⟩⟩

theorem counted : table.file.Counted := by
  have hpage : ∀ i : Int, 1 ≤ i → i < 4 → i = 1 ∨ i = 2 ∨ i = 3 := by omega
  rintro i ⟨hlow, hhigh⟩
  rcases hpage i hlow hhigh with rfl | rfl | rfl <;> rfl

/-- `a = 1`. -/
def cond : JoinCondition := ⟨⟨"t", "a"⟩, .eq, true, ⟨"", ""⟩, some (.int 1)⟩

end ScanExample

open ScanExample in
theorem seqScan_right_threePages : ∃ result,
    (∀ s, (SeqScanExecutor.cursor table [cond]).Leads ((SeqScanExecutor.cursor table [cond]).begin s) result) ∧
      ScanOutcome table [cond] result :=
  seqScan_right [cond] counted

open ScanExample in
example : (SeqScanExecutor.cursor table [cond]).pass 5 ⟨[], [], 0, 0, false⟩ =
    some [(⟨2, 0⟩, some [1, 0, 0, 0]), (⟨3, 1⟩, some [1, 0, 0, 0])] := by
  decide +kernel

end Rmdb
