-- SUMMARY: The executors of a SELECT: sequential scan, block nested loop join and projection.
import Rmdb.Common.Condition
import Rmdb.Lib.Cursor
import Rmdb.Record.Scan

/-!
# Executors of a SELECT

`SeqScanExecutor`, `NestedLoopJoinExecutor` and `ProjectionExecutor`, and the tree of executors
that the portal builds for a plan. `beginTuple`, `nextTuple`, `is_end` and `Next` of an executor
are the operations of a cursor. They fail with `none` when a column is not found, and when the
loop of a join is cut off after `fuel` rounds. The lock that a scan requests is granted.
-/

namespace Rmdb

-- ---------------------------------------------------------------------------
-- Conditions on records
-- ---------------------------------------------------------------------------

/-- `ColMeta::find_from_cols`: the first column of that name, of whatever table. -/
def findFromCols (cols : List TabColMeta) (name : String) : Option TabColMeta :=
  cols.find? fun col => col.name = name

namespace JoinCondition

/-- `test_record`. -/
def testRecord (c : JoinCondition) (cols : List TabColMeta) (r : RmRecord) : Option Bool := do
  let lhs ← findFromCols cols c.lhsCol.colName
  let rhsVal ← if c.isRhsVal then c.rhsVal else do
    let rhs ← findFromCols cols c.rhsCol.colName
    some (rhs.toColMeta.read r)
  return c.op.test (lhs.toColMeta.read r) rhsVal

/-- `test_join_record`. -/
def testJoinRecord (c : JoinCondition) (leftCols : List TabColMeta) (l : RmRecord)
    (rightCols : List TabColMeta) (r : RmRecord) : Option Bool :=
  if c.isRhsVal then c.testRecord leftCols l else do
    let rhs ← findFromCols rightCols c.rhsCol.colName
    let lhs ← findFromCols leftCols c.lhsCol.colName
    return c.op.test (lhs.toColMeta.read l) (rhs.toColMeta.read r)

end JoinCondition

/-- The loop over the conditions of a node, which stops at the first that fails. -/
def testAll (test : JoinCondition → Option Bool) : List JoinCondition → Option Bool
  | [] => some true
  | c :: conds => do
    if ← test c then testAll test conds else return false

-- ---------------------------------------------------------------------------
-- Executors
-- ---------------------------------------------------------------------------

/-- `AbstractExecutor`, with the state that the constructor leaves. -/
structure AbstractExecutor (σ : Type) extends Cursor σ RmRecord where
  cols : List TabColMeta
  tupleLen : Nat
  initial : σ

/-- A table: its columns and its file. -/
structure TableFile where
  cols : List TabColMeta
  file : RmFileHandle

/-- The members of `SeqScanExecutor` that change. -/
structure SeqScan where
  tupleBuffer : List RmRecord
  bufferIdx : Nat
  currPage : PageNo
  isEnd : Bool

namespace SeqScan

variable (table : TableFile) (conds : List JoinCondition)

/-- The slots of a page that hold records, from slot `j` on. The loop stops early when it has as
many as the page header counts; `room` more are expected. -/
def slots (page : RmPage) : Nat → Nat → Nat → List Nat
  | 0, _, _ => []
  | _ + 1, _, 0 => []
  | left + 1, j, room + 1 =>
    if page.bitmap j then j :: slots page left (j + 1) room else slots page left (j + 1) (room + 1)

/-- The records of the given slots that pass the conditions. -/
def collect (page : RmPage) : List Nat → Option (List RmRecord)
  | [] => some []
  | slot :: rest => do
    let r := page.slots slot
    let flag ← testAll (fun c => c.testRecord table.cols r) conds
    let tuples ← collect page rest
    return if flag then r :: tuples else tuples

/-- The loop over the pages from `i` on, which stops at the first with a tuple. -/
def pageLoop (s : SeqScan) : Nat → PageNo → Option SeqScan
  | 0, _ => some { s with isEnd := true }
  | left + 1, i => do
    let page := table.file.pages i
    let tuples ← collect table conds page
      (slots page table.file.numRecordsPerPage.toNat 0 page.numRecords.toNat)
    if tuples.isEmpty then pageLoop s left (i + 1)
    else return { s with tupleBuffer := tuples, currPage := i, bufferIdx := 0 }

def beginTuple (s : SeqScan) : Option SeqScan :=
  pageLoop table conds { s with isEnd := false, tupleBuffer := [], bufferIdx := 0 }
    (table.file.numPages - 1).toNat 1

def nextTuple (s : SeqScan) : Option SeqScan :=
  if s.bufferIdx + 1 = s.tupleBuffer.length then
    pageLoop table conds { s with tupleBuffer := [], bufferIdx := s.bufferIdx + 1 }
      (table.file.numPages - (s.currPage + 1)).toNat (s.currPage + 1)
  else some { s with bufferIdx := s.bufferIdx + 1 }

/-- `len_` is where the last column ends. -/
def executor : AbstractExecutor SeqScan where
  begin := beginTuple table conds
  next := nextTuple table conds
  isEnd := SeqScan.isEnd
  current s := s.tupleBuffer.getD s.bufferIdx []
  cols := table.cols
  tupleLen := table.cols.getLast?.elim 0 fun col => col.offset + col.len
  initial := ⟨[], 0, 0, false⟩

end SeqScan

/-- The members of `NestedLoopJoinExecutor` that change. -/
structure NestedLoopJoin (σ τ : Type) where
  left : σ
  right : τ
  isEnd : Bool
  leftSave : List RmRecord
  leftIndex : Nat
  rightSave : List RmRecord
  rightIndex : Nat

namespace NestedLoopJoin

/-- `OUTER_BUFFER_SIZE`. -/
def outerBufferSize : Nat := 4000

/-- `INNER_BUFFER_SIZE`. -/
def innerBufferSize : Nat := 2000

/-- The inner `for` loop: the first tuple of `rs`, the one at `j`, that passes with `l`. -/
def innerLoop (test : RmRecord → RmRecord → Option Bool) (l : RmRecord) :
    List RmRecord → Nat → Option (Option Nat)
  | [], _ => some none
  | r :: rs, j => do
    if ← test l r then return some j else innerLoop test l rs (j + 1)

/-- The outer `for` loop, from tuple `i` on the left and tuple `j` on the right. -/
def outerLoop (test : RmRecord → RmRecord → Option Bool) (rs : List RmRecord) :
    List RmRecord → Nat → Nat → Option (Option (Nat × Nat))
  | [], _, _ => some none
  | l :: ls, i, j => do
    match ← innerLoop test l (rs.drop j) j with
    | some j => return some (i, j)
    | none => outerLoop test rs ls (i + 1) 0

variable {σ τ : Type} (left : AbstractExecutor σ) (right : AbstractExecutor τ)
  (conds : List JoinCondition)

def test (l r : RmRecord) : Option Bool :=
  testAll (fun c => c.testJoinRecord left.cols l right.cols r) conds

/-- The `while (true)` loop that ends `beginTuple` and `nextTuple`. -/
def loop : Nat → NestedLoopJoin σ τ → Option (NestedLoopJoin σ τ)
  | 0, _ => none
  | fuel + 1, s => do
    match ← outerLoop (test left right conds) s.rightSave (s.leftSave.drop s.leftIndex)
        s.leftIndex s.rightIndex with
    | some (i, j) => return { s with leftIndex := i, rightIndex := j }
    | none =>
      let (rs, r) ← right.fill innerBufferSize s.right
      if rs.isEmpty then
        -- The inner side is through: the next block of the outer side, and the inner side anew.
        let (ls, l) ← left.fill outerBufferSize s.left
        if ls.isEmpty then
          return { s with
            left := l, right := r, leftSave := [], leftIndex := 0, rightSave := [],
            rightIndex := 0, isEnd := true }
        else
          let r ← right.begin r
          let (rs, r) ← right.fill innerBufferSize r
          loop fuel { s with
            left := l, right := r, leftSave := ls, leftIndex := 0, rightSave := rs,
            rightIndex := 0 }
      else
        loop fuel { s with right := r, leftIndex := 0, rightSave := rs, rightIndex := 0 }

/-- `is_end_` is set at the end of a pass, and never cleared again. -/
def beginTuple (fuel : Nat) (s : NestedLoopJoin σ τ) : Option (NestedLoopJoin σ τ) := do
  let l ← left.begin s.left
  let (ls, l) ← left.fill outerBufferSize l
  let s := { s with left := l, leftSave := ls, leftIndex := 0 }
  if ls.isEmpty then return { s with isEnd := true } else
  let r ← right.begin s.right
  let (rs, r) ← right.fill innerBufferSize r
  let s := { s with right := r, rightSave := rs }
  if rs.isEmpty then return { s with isEnd := true } else
  loop left right conds fuel { s with rightIndex := 0 }

def nextTuple (fuel : Nat) (s : NestedLoopJoin σ τ) : Option (NestedLoopJoin σ τ) :=
  loop left right conds fuel { s with rightIndex := s.rightIndex + 1 }

/-- `Next` copies `tupleLen()` bytes of either tuple. -/
def combine (l r : RmRecord) : RmRecord := l.take left.tupleLen ++ r.take right.tupleLen

def shift (offset : Nat) (col : TabColMeta) : TabColMeta :=
  { col with offset := col.offset + offset }

def executor (fuel : Nat) : AbstractExecutor (NestedLoopJoin σ τ) where
  begin := beginTuple left right conds fuel
  next := nextTuple left right conds fuel
  isEnd := NestedLoopJoin.isEnd
  current s := combine left right (s.leftSave.getD s.leftIndex []) (s.rightSave.getD s.rightIndex [])
  cols := left.cols ++ right.cols.map (shift left.tupleLen)
  tupleLen := left.tupleLen + right.tupleLen
  initial := ⟨left.initial, right.initial, false, [], 0, [], 0⟩

end NestedLoopJoin

/-- The members of `ProjectionExecutor` that change; `data` are the bytes of `rec_`, a block of
`tupleLen()` bytes. -/
structure Projection (σ : Type) where
  prev : σ
  data : Nat → UInt8

namespace Projection

/-- `AbstractExecutor::get_col`, which looks at the table as well. -/
def getCol (cols : List TabColMeta) (target : TabCol) : Option TabColMeta :=
  cols.find? fun col => col.tabName = target.tabName ∧ col.name = target.colName

/-- The loop of the constructor: for each selected column that of the child and its own. -/
def select (prevCols : List TabColMeta) : List TabCol → Nat → Option (List (TabColMeta × TabColMeta))
  | [], _ => some []
  | target :: rest, offset => do
    let col ← getCol prevCols target
    let cols ← select prevCols rest (offset + col.len)
    return (col, { col with offset := offset }) :: cols

/-- `memcpy(data + offset, src, len)`. -/
def copyTo (data : Nat → UInt8) (offset : Nat) (src : List UInt8) (len : Nat) : Nat → UInt8 :=
  fun i => if offset ≤ i ∧ i < offset + len then src.getD (i - offset) 0 else data i

/-- The loop over the selected columns. -/
def copy (record : RmRecord) : List (TabColMeta × TabColMeta) → (Nat → UInt8) → Nat → UInt8
  | [], data => data
  | (prevCol, thisCol) :: cols, data =>
    copy record cols
      (copyTo data thisCol.offset (slice record prevCol.offset prevCol.len) prevCol.len)

variable {σ : Type} (prev : AbstractExecutor σ) (cols : List (TabColMeta × TabColMeta))

/-- What `beginTuple` and `nextTuple` do after they have moved the child. -/
def load (s : σ) (data : Nat → UInt8) : Projection σ :=
  ⟨s, if prev.isEnd s then data else copy (prev.current s) cols data⟩

/-- `len_`. -/
def len : Nat := (cols.map fun col => col.1.len).sum

def executor : AbstractExecutor (Projection σ) where
  begin s := (prev.begin s.prev).map fun p => load prev cols p s.data
  next s := (prev.next s.prev).map fun p => load prev cols p s.data
  isEnd s := prev.isEnd s.prev
  current s := (List.range (len cols)).map s.data
  cols := cols.map (·.2)
  tupleLen := len cols
  initial := ⟨prev.initial, fun _ => 0⟩

end Projection

-- ---------------------------------------------------------------------------
-- Trees of executors
-- ---------------------------------------------------------------------------

/-- A plan of sequential scans, nested loop joins and projections. -/
inductive PlanTree where
  | seqScan (tabName : String) (conds : List JoinCondition)
  | nestLoop (left right : PlanTree) (conds : List JoinCondition)
  | projection (sub : PlanTree) (selCols : List TabCol)

namespace PlanTree

/-- The state of the executors of a plan. -/
def State : PlanTree → Type
  | seqScan _ _ => SeqScan
  | nestLoop left right _ => NestedLoopJoin left.State right.State
  | projection sub _ => Projection sub.State

/-- `convert_plan_executor`. -/
def executor (db : String → Option TableFile) (fuel : Nat) :
    (plan : PlanTree) → Option (AbstractExecutor plan.State)
  | seqScan t conds => do
    let table ← db t
    return SeqScan.executor table conds
  | nestLoop left right conds => do
    let l ← executor db fuel left
    let r ← executor db fuel right
    return NestedLoopJoin.executor l r conds fuel
  | projection sub selCols => do
    let prev ← executor db fuel sub
    let cols ← Projection.select prev.cols selCols 0
    return Projection.executor prev cols

/-- One pass over the tree. -/
def run (db : String → Option TableFile) (fuel : Nat) (plan : PlanTree) : Option (List RmRecord) := do
  let ex ← plan.executor db fuel
  ex.pass fuel ex.initial

end PlanTree

end Rmdb
