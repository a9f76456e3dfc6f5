-- SUMMARY: The executors as operators that are read by `Next`, the calls they make, and a statement run on them.
import Rmdb.Execution.Limit
import Rmdb.Execution.SeqScan
import Rmdb.Execution.Table
import Rmdb.Index.Scan
import Rmdb.Lib.Operator

/-!
# Executors and their calls

Here the executors are written down call by call: when each opens its child, moves it on and reads it. Every call on
a child goes to the watched child, and a run is stopped with `Stop.protocol` at the first call of `Next` or
`nextTuple` on a child that is at its end, and at the first `IxScan::next` there. An exception, a failed assertion, a
null pointer and a loop that is cut off after `fuel` rounds all end a run with `Stop.stuck`.
-/

namespace Rmdb

inductive Stop where
  | protocol
  | stuck
  deriving DecidableEq, Repr

/-- The outcome of a function that makes no calls on children. -/
def orStuck {α : Type} : Option α → Except Stop α
  | some a => .ok a
  | none => .error .stuck

/-- An executor with its state after the constructor. -/
structure Node : Type 1 where
  State : Type
  op : Operator Stop State RmRecord
  cols : List TabColMeta
  tupleLen : Option Nat
  initial : State

/-- The executor as its parent may use it. -/
def Node.watched (n : Node) : Node := { n with op := n.op.watched .protocol }

-- ---------------------------------------------------------------------------
-- Scans
-- ---------------------------------------------------------------------------

/-- `Next` of a sequential scan gives a null pointer when the tuple has been moved out. -/
def SeqScanExecutor.operator (table : TableFile) (conds : List JoinCondition) :
    Operator Stop SeqScanExecutor RmRecord where
  begin s := orStuck (beginTuple table conds s)
  nextTuple s := orStuck (nextTuple table conds s)
  isEnd := SeqScanExecutor.isEnd
  next s := do
    let r ← orStuck s.next.1
    return (r, s.next.2)

/-- The members of `IndexScanExecutor` that change. `scan` is `scan_`, which is null until `beginTuple`. -/
structure IndexScanExecutor where
  rid : Rid
  key : List UInt8
  scan : Option IxScan

namespace IndexScanExecutor

variable (table : TableFile) (index : Index) (conds idxConds : List JoinCondition)

/-- `rhs_val.raw`, which has the length of the column. -/
def raw (c : JoinCondition) : Option (List UInt8) := do
  let val ← c.rhsVal
  let col ← findFromCols table.cols c.lhsCol.colName
  return val.raw col.len

/-- The first loop: the leading equalities are copied into the key. It gives the conditions that are left, the key,
the offset and the number of equalities. -/
def equalities : List JoinCondition → List UInt8 → Nat → Nat → Option (List JoinCondition × List UInt8 × Nat × Nat)
  | [], key, offset, n => some ([], key, offset, n)
  | c :: cs, key, offset, n =>
    if c.op = .eq then do
      let rawData ← raw table c
      equalities cs (memcpy key offset rawData rawData.length) (offset + rawData.length) (n + 1)
    else some (c :: cs, key, offset, n)

/-- `lower_val`, `upper_val`, `be` and `le`, with the bytes of the values. -/
structure Range where
  lower : Option (Value × List UInt8)
  upper : Option (Value × List UInt8)
  be : Bool
  le : Bool

/-- One turn of the loop over the conditions of the column behind the equalities. -/
def Range.add (r : Range) (c : JoinCondition) : Option Range := do
  let val ← c.rhsVal
  let rawData ← raw table c
  if c.op = .ge ∨ c.op = .gt then
    let tighter := match r.lower with
      | none => true
      | some (lower, _) => val.gt lower || (val.eq lower && r.be && c.op == CompOp.gt)
    return if tighter then { r with lower := some (val, rawData), be := c.op == CompOp.ge } else r
  else if c.op = .le ∨ c.op = .lt then
    let tighter := match r.upper with
      | none => true
      | some (upper, _) => val.lt upper || (val.eq upper && r.le && c.op == CompOp.lt)
    return if tighter then { r with upper := some (val, rawData), le := c.op == CompOp.le } else r
  else return r

def Range.addAll (colName : String) : Range → List JoinCondition → Option Range
  | r, [] => some r
  | r, c :: cs => if c.lhsCol.colName = colName then do addAll colName (← r.add table c) cs else some r

/-- The lower bound is beyond the upper one. -/
def Range.isEmpty (r : Range) : Bool :=
  match r.lower, r.upper with
  | some (lower, _), some (upper, _) => lower.gt upper || (lower.eq upper && !(r.be && r.le))
  | _, _ => false

/-- A call of `lower_bound` or `upper_bound` on the first `n` columns. -/
def bound (key : List UInt8) (n : Nat)
    (side : KeyBytes (index.cols.map Prod.snd) → IxBound (KeyBytes (index.cols.map Prod.snd))) : Option Iid :=
  if h : key.length = colTotLen (index.cols.map Prod.snd) then
    ((side ⟨key, h⟩).find index.handle n).toOption
  else none

/-- The bounds of the scan, and what `key_` holds then. When the range is empty, a scan that is at its end is made
and replaced at once by one over the whole index. -/
def bounds (key : List UInt8) : Option (Iid × Iid × List UInt8) := do
  let defLower := index.handle.leafBegin
  let defUpper ← index.handle.leafEnd.toOption
  match ← equalities table idxConds key 0 0 with
  | ([], key, _, n) => return (← bound index key n .lower, ← bound index key n .upper, key)
  | (c :: cs, key, offset, n) =>
    let r ← Range.addAll table c.lhsCol.colName ⟨none, none, false, false⟩ (c :: cs)
    if r.isEmpty then return (defLower, defUpper, key) else
    let (lower, key) ← match r.lower with
      | some (_, rawData) =>
        let key := memcpy key offset rawData rawData.length
        (bound index key (n + 1) (if r.be then .lower else .upper)).map fun iid => (iid, key)
      | none => if n ≠ 0 then (bound index key n .lower).map fun iid => (iid, key) else some (defLower, key)
    match r.upper with
    | some (_, rawData) =>
      let key := memcpy key offset rawData rawData.length
      return (lower, ← bound index key (n + 1) (if r.le then .upper else .lower), key)
    | none => return (lower, ← if n ≠ 0 then bound index key n .upper else some defUpper, key)

/-- `IxScan::rid`. Right behind the last pair of a leaf it is `{-1, -1}`. -/
def ridAt (iid : Iid) : Option Rid := do
  let node ← index.handle.pages iid.pageNo
  if iid.slotNo = node.getSize then return ⟨-1, -1⟩ else node.rids[iid.slotNo]?

/-- `IxScan::next`. -/
def scanNext (scan : IxScan) : Except Stop IxScan :=
  if scan.isEnd then .error .protocol else orStuck (scan.next index.handle).toOption

/-- The loop of `beginTuple` and of `nextTuple`: the first position whose record satisfies the conditions. -/
def scanLoop : Nat → IndexScanExecutor → IxScan → Except Stop IndexScanExecutor
  | 0, _, _ => .error .stuck
  | fuel + 1, s, scan =>
    if scan.isEnd then .ok { s with scan := some scan } else do
      let rid ← orStuck (ridAt index scan.iid)
      let record ← orStuck (table.file.getRecord rid).toOption
      if ← orStuck (testAll (fun c => c.testRecord table.cols record) conds) then
        return { s with rid := rid, scan := some scan }
      else
        let scan ← scanNext index scan
        scanLoop fuel s scan

def beginTuple (fuel : Nat) (s : IndexScanExecutor) : Except Stop IndexScanExecutor := do
  let (lower, upper, key) ← orStuck (bounds table index idxConds s.key)
  let scan ← orStuck (IxScan.new index.handle lower upper).toOption
  let _ ← orStuck (ridAt index scan.iid)
  scanLoop table index conds fuel { s with key := key } scan

def nextTuple (fuel : Nat) (s : IndexScanExecutor) : Except Stop IndexScanExecutor := do
  let scan ← orStuck s.scan
  let scan ← scanNext index scan
  scanLoop table index conds fuel s scan

def operator (fuel : Nat) : Operator Stop IndexScanExecutor RmRecord where
  begin := beginTuple table index conds idxConds fuel
  nextTuple := nextTuple table index conds fuel
  isEnd s := s.scan.elim true IxScan.isEnd
  next s := do
    let r ← orStuck (table.file.getRecord s.rid).toOption
    return (r, s)

end IndexScanExecutor

-- ---------------------------------------------------------------------------
-- Joins and projections
-- ---------------------------------------------------------------------------

namespace JoinOperator

variable {σ τ : Type} (left : Operator Stop σ RmRecord) (right : Operator Stop τ RmRecord)
  (test : RmRecord → RmRecord → Option Bool)

open NestedLoopJoin (outerLoop innerBufferSize outerBufferSize)

/-- The `while (true)` loop of `beginTuple` and `nextTuple`. -/
def loop : Nat → NestedLoopJoin σ τ → Except Stop (NestedLoopJoin σ τ)
  | 0, _ => .error .stuck
  | fuel + 1, s => do
    match ← orStuck (outerLoop test s.rightSave (s.leftSave.drop s.leftIndex) s.leftIndex s.rightIndex) with
    | some (i, j) => return { s with leftIndex := i, rightIndex := j }
    | none =>
      let (rs, r) ← right.fill innerBufferSize s.right
      if rs.isEmpty then
        let (ls, l) ← left.fill outerBufferSize s.left
        if ls.isEmpty then
          return { s with
            left := l, right := r, leftSave := [], leftIndex := 0, rightSave := [],
            rightIndex := 0, isEnd := true }
        else
          let r ← right.begin r
          let (rs, r) ← right.fill innerBufferSize r
          loop fuel { s with
            left := l, right := r, leftSave := ls, leftIndex := 0, rightSave := rs,
            rightIndex := 0 }
      else
        loop fuel { s with right := r, leftIndex := 0, rightSave := rs, rightIndex := 0 }

def beginTuple (fuel : Nat) (s : NestedLoopJoin σ τ) : Except Stop (NestedLoopJoin σ τ) := do
  let l ← left.begin s.left
  let (ls, l) ← left.fill outerBufferSize l
  let s := { s with left := l, leftSave := ls, leftIndex := 0 }
  if ls.isEmpty then return { s with isEnd := true } else
  let r ← right.begin s.right
  let (rs, r) ← right.fill innerBufferSize r
  let s := { s with right := r, rightSave := rs }
  if rs.isEmpty then return { s with isEnd := true } else
  loop left right test fuel { s with rightIndex := 0 }

def nextTuple (fuel : Nat) (s : NestedLoopJoin σ τ) : Except Stop (NestedLoopJoin σ τ) :=
  loop left right test fuel { s with rightIndex := s.rightIndex + 1 }

/-- `Next` copies from the buffers. -/
def operator (leftLen rightLen fuel : Nat) : Operator Stop (NestedLoopJoin σ τ) RmRecord where
  begin := beginTuple left right test fuel
  nextTuple := nextTuple left right test fuel
  isEnd := NestedLoopJoin.isEnd
  next s := .ok ((s.leftSave.getD s.leftIndex []).take leftLen ++ (s.rightSave.getD s.rightIndex []).take rightLen, s)

/-- The constructor asks both children for their lengths. -/
def node (left right : Node) (conds : List JoinCondition) (fuel : Nat) : Except Stop Node :=
  match left.tupleLen, right.tupleLen with
  | some leftLen, some rightLen => .ok
    { State := NestedLoopJoin left.State right.State
      op := operator left.op right.op (fun l r => testAll (fun c => c.testJoinRecord left.cols l right.cols r) conds)
        leftLen rightLen fuel
      cols := left.cols ++ right.cols.map (NestedLoopJoin.shift leftLen)
      tupleLen := some (leftLen + rightLen)
      initial := ⟨left.initial, right.initial, false, [], 0, [], 0⟩ }
  | _, _ => .error .stuck

end JoinOperator

namespace ProjectionOperator

variable {σ : Type} (prev : Operator Stop σ RmRecord) (cols : List (TabColMeta × TabColMeta))

/-- What `beginTuple` and `nextTuple` do after they have moved the child. -/
def load (s : σ) (data : Nat → UInt8) : Except Stop (Projection σ) :=
  if prev.isEnd s then .ok ⟨s, data⟩ else do
    let (record, s) ← prev.next s
    return ⟨s, Projection.copy record cols data⟩

def operator : Operator Stop (Projection σ) RmRecord where
  begin s := do
    let p ← prev.begin s.prev
    load prev cols p s.data
  nextTuple s := do
    let p ← prev.nextTuple s.prev
    load prev cols p s.data
  isEnd s := prev.isEnd s.prev
  next s := .ok ((List.range (Projection.len cols)).map s.data, s)

def node (prev : Node) (selCols : List TabCol) : Except Stop Node :=
  match Projection.select prev.cols selCols 0 with
  | some cols => .ok
    { State := Projection prev.State
      op := operator prev.op cols
      cols := cols.map (·.2)
      tupleLen := some (Projection.len cols)
      initial := ⟨prev.initial, fun _ => 0⟩ }
  | none => .error .stuck

end ProjectionOperator

-- ---------------------------------------------------------------------------
-- Sorts
-- ---------------------------------------------------------------------------

namespace SortOperator

variable {σ : Type} (env : SortEnv RmRecord) (prev : Operator Stop σ RmRecord)

/-- The loop of the constructor over the tuples of the child. -/
def runLoop : Nat → σ → List RmRecord → List TupleBufFile → TmpDisk RmRecord →
    Except Stop (List RmRecord × List TupleBufFile × TmpDisk RmRecord)
  | 0, _, _, _, _ => .error .stuck
  | fuel + 1, s, tuples, tmpFiles, d =>
    if prev.isEnd s then .ok (tuples, tmpFiles, d) else do
      let (r, s) ← prev.next s
      let tuples := tuples ++ [r]
      if tuples.length = tupleNumPerStep then
        let (file, d) ← orStuck (env.writeTmpData (env.stdSort.sort env.cmpRecord tuples) d)
        let s ← prev.nextTuple s
        runLoop fuel s [] (tmpFiles ++ [file]) d
      else
        let s ← prev.nextTuple s
        runLoop fuel s tuples tmpFiles d

/-- The constructor. -/
def new (fuel : Nat) (s : σ) (d : TmpDisk RmRecord) : Except Stop (SortExecutor RmRecord) := do
  let s ← prev.begin s
  let (tuples, tmpFiles, d) ← runLoop env prev fuel s [] [] d
  let (tmpFiles, d) ← orStuck (env.lastRun tuples tmpFiles d)
  let (resFile, d) ← orStuck (env.mergeTmpFiles fuel tmpFiles 0 (tmpFiles.length - 1) d)
  return ⟨resFile, [], 0, false, d⟩

/-- After its constructor a sort reads its file only. -/
def operator (limitNum : Int) : Operator Stop (SortExecutor RmRecord) RmRecord where
  begin s := orStuck (s.beginTuple limitNum)
  nextTuple s := orStuck (s.nextTuple limitNum)
  isEnd := SortExecutor.isEnd
  next s := .ok (s.buffer0.getD s.currReadIdx [], s)

end SortOperator

-- ---------------------------------------------------------------------------
-- Aggregates
-- ---------------------------------------------------------------------------

namespace AggOperator

variable {σ : Type} (prev : Operator Stop σ RmRecord) (prevCol : ColMeta)

open AggExecutor (keepBest sumStart typeMatch)

/-- The loops of `beginMax`, `beginMin` and `beginSum` over the tuples that are left. -/
def accumulate (step : Value → RmRecord → Option Value) : Nat → σ → Value → Except Stop (σ × Value)
  | 0, _, _ => .error .stuck
  | fuel + 1, s, res =>
    if prev.isEnd s then .ok (s, res) else do
      let (r, s) ← prev.next s
      let res ← orStuck (step res r)
      let s ← prev.nextTuple s
      accumulate step fuel s res

/-- The loop of `beginCount`, which does not read the tuples. -/
def countLoop : Nat → σ → Value → Except Stop (σ × Value)
  | 0, _, _ => .error .stuck
  | fuel + 1, s, res =>
    if prev.isEnd s then .ok (s, res) else do
      let res ← orStuck (res.add (.int 1))
      let s ← prev.nextTuple s
      countLoop fuel s res

/-- The first tuple, if there is one. -/
def readFirst (s : σ) (res : Value) : Except Stop (σ × Value) :=
  if prev.isEnd s then .ok (s, res) else do
    let (r, s) ← prev.next s
    return (s, prevCol.read r)

/-- `beginMax` with `operator>` and `beginMin` with `operator<`. `nextTuple` is called on an empty child as well. -/
def beginBest (better : Value → Value → Bool) (fuel : Nat) (s : σ) (res : Value) : Except Stop (σ × Value) := do
  let s ← prev.begin s
  let (s, res) ← readFirst prev prevCol s res
  let s ← prev.nextTuple s
  accumulate prev (fun res r => some (keepBest prevCol better res r)) fuel s res

def beginSum (fuel : Nat) (s : σ) : Except Stop (σ × Value) := do
  let res ← orStuck (sumStart prevCol)
  let s ← prev.begin s
  accumulate prev (fun res r => res.add (prevCol.read r)) fuel s res

def beginCount (fuel : Nat) (s : σ) : Except Stop (σ × Value) := do
  let s ← prev.begin s
  countLoop prev fuel s (.int 0)

/-- The `switch` of `beginTuple`. -/
def compute (type : AggType) (fuel : Nat) (s : AggExecutor σ) : Except Stop (σ × Value) :=
  match type with
  | .max => beginBest prev prevCol Value.gt fuel s.prev s.res
  | .min => beginBest prev prevCol Value.lt fuel s.prev s.res
  | .sum => beginSum prev prevCol fuel s.prev
  | .count => beginCount prev fuel s.prev

def beginTuple (type : AggType) (fuel : Nat) (s : AggExecutor σ) : Except Stop (AggExecutor σ) := do
  let (p, res) ← compute prev prevCol type fuel s
  if typeMatch prevCol type then return { s with prev := p, res := res } else .error .stuck

/-- `is_end()` is `is_result_used_`, which `Next` sets. A result that does not fit the row makes `Next` throw. -/
def operator (type : AggType) (len fuel : Nat) : Operator Stop (AggExecutor σ) RmRecord where
  begin := beginTuple prev prevCol type fuel
  nextTuple s := if prev.isEnd s.prev then .ok s else .error .stuck
  isEnd := AggExecutor.isResultUsed
  next s := do
    let r ← orStuck (AggExecutor.row type len s.res)
    return (r, { s with isResultUsed := true })

def node (prev : Node) (selCol : SelCol) (uninit : Value) (fuel : Nat) : Except Stop Node :=
  match SelectPlan.aggColumn prev.cols selCol with
  | some (type, col) => .ok
    { State := AggExecutor prev.State
      op := operator prev.op col type (AggExecutor.len prev.cols col) fuel
      cols := [AggExecutor.resCol type selCol col]
      tupleLen := some (AggExecutor.len prev.cols col)
      initial := ⟨prev.initial, uninit, false⟩ }
  | none => .error .stuck

end AggOperator

-- ---------------------------------------------------------------------------
-- Statements
-- ---------------------------------------------------------------------------

/-- What the executors of a statement are built with: the tables and indexes of the database, what a key of an index
and a member of an aggregate hold before they are set, and what the sorts need. -/
structure RunEnv where
  table : String → Option TableFile
  index : String → List String → Option Index
  uninitKey : (index : Index) → KeyBytes (index.cols.map Prod.snd)
  uninit : Value
  getTime : Nat → String
  stdSort : StdSort RmRecord
  behind : RmRecord → List UInt8
  disk : TmpDisk RmRecord
  limitNum : Int
  fuel : Nat

namespace RunEnv

variable (env : RunEnv)

def sortEnv (cols : List (ColMeta × Bool)) : SortEnv RmRecord where
  cmpRecord := cmpRecord cols
  cmpRawData a b := cmpRawData cols (a ++ env.behind a) (b ++ env.behind b)
  getTime := env.getTime
  stdSort := env.stdSort

/-- `convert_plan_executor` for a scan. -/
def scanNode (x : ScanPlan) : Except Stop Node :=
  match env.table x.tabName with
  | none => .error .stuck
  | some table =>
    match x.tag with
    | .seqScan => .ok
      { State := SeqScanExecutor
        op := SeqScanExecutor.operator table x.conds
        cols := table.cols
        tupleLen := some (table.cols.getLast?.elim 0 fun col => col.offset + col.len)
        initial := ⟨[], [], 0, 0, false⟩ }
    | .indexScan =>
      match env.index x.tabName x.indexColNames with
      | none => .error .stuck
      | some index => .ok
        { State := IndexScanExecutor
          op := IndexScanExecutor.operator table index x.conds x.idxConds env.fuel
          cols := table.cols
          tupleLen := none
          initial := ⟨⟨-1, -1⟩, (env.uninitKey index).bytes, none⟩ }

/-- `convert_plan_executor` for what `make_one_rel` builds. -/
def relNode : Plan → Except Stop Node
  | .null => .error .stuck
  | .scan x => env.scanNode x
  | .join left right conds =>
    match relNode left, relNode right with
    | .ok left, .ok right => JoinOperator.node left.watched right.watched conds env.fuel
    | .error e, _ => .error e
    | _, .error e => .error e

/-- The constructor of a `SortExecutor`. -/
def sortNode (prev : Node) (orderBys : List (TabCol × Bool)) : Except Stop Node :=
  match prev.tupleLen, SelectPlan.sortCols prev.cols orderBys with
  | some tupleLen, some cols =>
    match SortOperator.new (env.sortEnv cols) prev.op env.fuel prev.initial env.disk with
    | .ok ex => .ok ⟨SortExecutor RmRecord, SortOperator.operator env.limitNum, prev.cols, some tupleLen, ex⟩
    | .error e => .error e
  | _, _ => .error .stuck

/-- `convert_plan_executor`. `fuel` is for the loops of an aggregate. -/
def selectNode (fuel : Nat) : SelectPlan → Except Stop Node
  | .rel plan => env.relNode plan
  | .sort sub orderBys =>
    match selectNode fuel sub with
    | .ok prev => env.sortNode prev.watched orderBys
    | .error e => .error e
  | .projection sub selCols =>
    match selectNode fuel sub with
    | .ok prev => ProjectionOperator.node prev.watched selCols
    | .error e => .error e
  | .agg sub selCol =>
    match selectNode fuel sub with
    | .ok prev => AggOperator.node prev.watched selCol env.uninit fuel
    | .error e => .error e

end RunEnv

/-- The loop of `select_from`. -/
def selectLoop {σ : Type} (root : Operator Stop σ RmRecord) : Nat → σ → Except Stop (List RmRecord)
  | 0, _ => .error .stuck
  | fuel + 1, s =>
    if root.isEnd s then .ok [] else do
      let (tuple, s) ← root.next s
      let s ← root.nextTuple s
      let rest ← selectLoop root fuel s
      return tuple :: rest

/-- `QlManager::select_from`. -/
def selectFrom (root : Node) (fuel : Nat) : Except Stop (List RmRecord) := do
  let s ← root.op.begin root.initial
  selectLoop root.op fuel s

/-- The loop of `Portal::start` over the scan of an UPDATE or a DELETE. `rid()` is no call that the protocol is
about. -/
def ridLoop {σ : Type} (scan : Operator Stop σ RmRecord) : Nat → σ → Except Stop Unit
  | 0, _ => .error .stuck
  | fuel + 1, s =>
    if scan.isEnd s then .ok () else do
      let s ← scan.nextTuple s
      ridLoop scan fuel s

/-- A statement is run. `fuel` is for the loops over all tuples. -/
def DMLPlan.run (env : RunEnv) (fuel : Nat) : DMLPlan → Except Stop Unit
  | .select sub =>
    match env.selectNode fuel sub with
    | .ok root => do
      let _ ← selectFrom root.watched fuel
      return ()
    | .error e => .error e
  | .update scan | .delete scan =>
    match env.scanNode scan with
    | .ok scan => do
      let s ← scan.watched.op.begin scan.initial
      ridLoop scan.watched.op fuel s
    | .error e => .error e

/-- No executor, nor `Portal::start` or `select_from`, calls `Next` or `nextTuple` on a child that is at its end, and
no `IxScan::next` is called there. -/
def DMLPlan.Respects (env : RunEnv) (plan : DMLPlan) : Prop := ∀ fuel, plan.run env fuel ≠ .error .protocol

end Rmdb
