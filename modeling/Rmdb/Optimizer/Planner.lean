-- SUMMARY: The planner's join trees: how make_one_rel distributes the conditions of a SELECT.
import Rmdb.Optimizer.Analyze

/-!
# From a query to a join tree

`planner.cpp`, up to `Planner::make_one_rel`. A null `shared_ptr<Plan>` is `Plan.null`.
-/

namespace Rmdb

inductive ScanTag where
  | seqScan
  | indexScan
  deriving DecidableEq, Repr

/-- `ScanPlan`, without the copies of the table's columns that the executors use. -/
structure ScanPlan where
  tag : ScanTag
  tabName : String
  conds : List JoinCondition
  idxConds : List JoinCondition
  indexColNames : List String

inductive Plan where
  | null
  | scan (x : ScanPlan)
  | join (left right : Plan) (conds : List JoinCondition)

namespace Plan

def isNull : Plan → Bool
  | null => true
  | _ => false

end Plan

/-- `Query`: the tables and the conditions of a SELECT. -/
structure Query where
  tables : List String
  conds : List JoinCondition

namespace Planner

-- ---------------------------------------------------------------------------
-- Scans
-- ---------------------------------------------------------------------------

/-- The conditions that match the columns of an index from the left, without a gap. -/
def matchIndex (idxConds : List JoinCondition) : List String → List JoinCondition
  | [] => []
  | col :: cols =>
    let found := idxConds.filter fun c => c.lhsCol.colName = col
    if found.isEmpty then [] else found ++ matchIndex idxConds cols

/-- `get_index_cols`: whether there is an index, the conditions for it and its columns. -/
def getIndexCols (tab : TabMeta) (currConds : List JoinCondition) :
    Bool × List JoinCondition × List String :=
  let idxConds := currConds.filter (·.isRhsVal)
  if idxConds.isEmpty then (false, idxConds, []) else
  match tab.indexes.find? fun index => !(matchIndex idxConds index).isEmpty with
  | some index => (true, matchIndex idxConds index, index)
  | none => (false, idxConds, [])

/-- Whether `pop_conds` takes a condition for the table `tabName`. -/
def pops (tabName : String) (c : JoinCondition) : Bool :=
  (tabName = c.lhsCol.tabName ∧ c.isRhsVal) ∨ c.lhsCol.tabName = c.rhsCol.tabName

/-- `pop_conds`: the conditions taken, and those left in `conds`. -/
def popConds (tabName : String) : List JoinCondition → List JoinCondition × List JoinCondition
  | [] => ([], [])
  | c :: conds =>
    let (solved, rest) := popConds tabName conds
    if pops tabName c then (c :: solved, rest) else (solved, c :: rest)

/-- The loop that fills `table_scan_executors`, with the conditions left over. -/
def scanLoop (db : Catalog) : List String → List JoinCondition →
    Except AnalyzeError (List ScanPlan × List JoinCondition)
  | [], conds => .ok ([], conds)
  | t :: ts, conds => do
    let (curr, conds) := popConds t conds
    let tab ← Analyze.getTable db t
    let (indexExist, idxConds, names) := getIndexCols tab curr
    let scan : ScanPlan := ⟨if indexExist then .indexScan else .seqScan, t, curr, idxConds, names⟩
    let (scans, conds) ← scanLoop db ts conds
    return (scan :: scans, conds)

-- ---------------------------------------------------------------------------
-- Joins
-- ---------------------------------------------------------------------------

/-- `push_conds`: 1 or 2 when the plan has the table of the left or the right column only, 3
when the condition has been put into the plan. -/
def pushConds (c : JoinCondition) : Plan → Nat × Plan
  | .null => (0, .null)
  | .scan x =>
    (if x.tabName = c.lhsCol.tabName then 1
      else if x.tabName = c.rhsCol.tabName then 2 else 0, .scan x)
  | .join left right conds =>
    let (leftRes, left') := pushConds c left
    if leftRes = 3 then (3, .join left' right conds) else
    let (rightRes, right') := pushConds c right
    if rightRes = 3 then (3, .join left' right' conds) else
    if leftRes = 0 ∨ rightRes = 0 then (leftRes + rightRes, .join left' right' conds) else
    let c' := if leftRes = 2 then c.mirror else c
    (3, .join left' right' (conds ++ [c']))

/-- The variables of the second half of `make_one_rel`. -/
structure JoinState where
  scantbl : List Int
  joinedTables : List String
  tree : Plan

/-- `pop_scan`. -/
def popScan (scans : List ScanPlan) (table : String) (st : JoinState) : Plan × JoinState :=
  match scans.findIdx? (·.tabName = table) with
  | none => (.null, st)
  | some i =>
    match scans[i]? with
    | none => (.null, st)
    | some x =>
      (.scan x, { st with
        scantbl := st.scantbl.set i 1, joinedTables := st.joinedTables ++ [x.tabName] })

/-- The first join. -/
def firstJoin (scans : List ScanPlan) (st : JoinState) (c : JoinCondition) : JoinState :=
  let (left, st) := popScan scans c.lhsCol.tabName st
  let (right, st) := popScan scans c.rhsCol.tabName st
  { st with tree := .join left right [c] }

/-- The loop body for the other join conditions. -/
def nextJoin (scans : List ScanPlan) (st : JoinState) (c : JoinCondition) : JoinState :=
  let (left, st) :=
    if c.lhsCol.tabName ∈ st.joinedTables then (.null, st)
    else popScan scans c.lhsCol.tabName st
  let isneedreverse := decide (c.rhsCol.tabName ∉ st.joinedTables)
  let (right, st) :=
    if isneedreverse then popScan scans c.rhsCol.tabName st else (.null, st)
  if !left.isNull && !right.isNull then
    { st with tree := .join (.join left right [c]) st.tree [] }
  else if !left.isNull || !right.isNull then
    if isneedreverse then { st with tree := .join right st.tree [c.mirror] }
    else { st with tree := .join left st.tree [c] }
  else { st with tree := (pushConds c st.tree).2 }

/-- The last loop, over the tables that are in no join yet. -/
def joinRest : List (ScanPlan × Int) → Plan → Plan
  | [], tree => tree
  | (x, flag) :: rest, tree =>
    joinRest rest (if flag = -1 then .join (.scan x) tree [] else tree)

/-- The second half of `make_one_rel`, for two or more tables. -/
def joinTables (scans : List ScanPlan) (conds : List JoinCondition) : Plan :=
  let scantbl := List.replicate scans.length (-1)
  match conds with
  | c :: conds =>
    let st := firstJoin scans ⟨scantbl, List.replicate scans.length "", .null⟩ c
    let st := conds.foldl (nextJoin scans) st
    joinRest (scans.zip st.scantbl) st.tree
  | [] =>
    match scans with
    | [] => .null
    | x :: _ => joinRest (scans.zip (scantbl.set 0 1)) (.scan x)

def makeOneRel (db : Catalog) (query : Query) : Except AnalyzeError Plan := do
  let (scans, conds) ← scanLoop db query.tables query.conds
  match scans with
  | [x] => return .scan x
  | _ => return joinTables scans conds

end Planner

end Rmdb
