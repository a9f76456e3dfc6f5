-- SUMMARY: The relational meaning of a plan, and the plans whose executors compute it.
import Rmdb.Execution.Pass

/-!
# The meaning of a plan

A tuple of the cross product gives a row to each table of a plan. The meaning of a plan is the
list of its images of the tuples that satisfy all of its conditions, where `t.c` is always column
`c` of the row of table `t`.

The executors compute it when the lookups by name alone find the columns that are meant, and no
join has to be opened a second time.
-/

namespace Rmdb

/-- A tuple of the cross product: each table with one of its rows. -/
abbrev Env := List (String × RmRecord)

/-- Column `c` of table `t`: the first of that name. -/
def colOf (db : String → Option TableFile) (c : TabCol) : Option TabColMeta := do
  let table ← db c.tabName
  findFromCols table.cols c.colName

namespace Env

variable (db : String → Option TableFile) (e : Env)

/-- The value of `t.c` in a tuple. -/
def value (c : TabCol) : Option Value := do
  let col ← colOf db c
  let r ← e.lookup c.tabName
  return col.toColMeta.read r

/-- The bytes of `t.c` in a tuple. -/
def bytes (c : TabCol) : RmRecord :=
  match colOf db c, e.lookup c.tabName with
  | some col, some r => slice r col.offset col.len
  | _, _ => []

end Env

/-- What a condition says about a tuple. -/
def JoinCondition.holds (db : String → Option TableFile) (e : Env) (c : JoinCondition) : Bool :=
  match e.value db c.lhsCol, if c.isRhsVal then c.rhsVal else e.value db c.rhsCol with
  | some lhs, some rhs => c.op.test lhs rhs
  | _, _ => false

namespace PlanTree

def tables : PlanTree → List String
  | seqScan t _ => [t]
  | nestLoop left right _ => left.tables ++ right.tables
  | projection sub _ => sub.tables

/-- All conditions of a plan. -/
def conds : PlanTree → List JoinCondition
  | seqScan _ conds => conds
  | nestLoop left right conds => conds ++ (left.conds ++ right.conds)
  | projection sub _ => sub.conds

variable (db : String → Option TableFile)

/-- The cross product of the tables of a plan. -/
def envs : PlanTree → List Env
  | seqScan t _ => ((db t).elim [] (·.file.records)).map fun r => [(t, r)]
  | nestLoop left right _ => left.envs.flatMap fun e => right.envs.map (e ++ ·)
  | projection sub _ => sub.envs

/-- What a plan makes of a tuple. -/
def image : PlanTree → Env → RmRecord
  | seqScan t _, e => (e.lookup t).getD []
  | nestLoop left right _, e => left.image e ++ right.image e
  | projection _ selCols, e => selCols.flatMap (e.bytes db)

/-- The tuples that satisfy all conditions of a plan. -/
def good (plan : PlanTree) : List Env :=
  (plan.envs db).filter fun e => plan.conds.all (·.holds db e)

def meaning (plan : PlanTree) : List RmRecord := (plan.good db).map (plan.image db)

/-- `cols()` and `tupleLen()` of the executor of a plan. -/
def layout : PlanTree → List TabColMeta × Nat
  | seqScan t _ => (db t).elim ([], 0) fun table =>
      (table.cols, table.cols.getLast?.elim 0 fun col => col.offset + col.len)
  | nestLoop left right _ =>
    (left.layout.1 ++ right.layout.1.map (NestedLoopJoin.shift left.layout.2),
      left.layout.2 + right.layout.2)
  | projection sub selCols =>
    let cols := (Projection.select sub.layout.1 selCols 0).getD []
    (cols.map (·.2), Projection.len cols)

def cols (plan : PlanTree) : List TabColMeta := (plan.layout db).1

def tupleLen (plan : PlanTree) : Nat := (plan.layout db).2

-- ---------------------------------------------------------------------------
-- Plans that are meant to be run
-- ---------------------------------------------------------------------------

/-- `len` is the size of the C++ type of the column. -/
def Typed (col : TabColMeta) : Prop :=
  match col.type with
  | .int | .float => col.len = 4
  | .bigint | .datetime => col.len = 8
  | .string => True

/-- A table as `create_table` and the record file leave it. -/
structure TableOk (t : String) (table : TableFile) : Prop where
  named : ∀ col ∈ table.cols, col.tabName = t
  typed : ∀ col ∈ table.cols, Typed col
  fits : ∀ col ∈ table.cols, col.offset + col.len ≤ table.file.recordSize
  size : table.cols.getLast?.elim 0 (fun col => col.offset + col.len) = table.file.recordSize
  rows : ∀ r ∈ table.file.records, r.length = table.file.recordSize
  file : ∃ chain, table.file.Ok chain

/-- Every condition is at a node that has its columns, and so is every selected column. -/
def Covered : PlanTree → Prop
  | seqScan t conds => ∀ c ∈ conds, c.lhsCol.tabName = t ∧ (colOf db c.lhsCol).isSome ∧
      (c.isRhsVal = true → c.rhsVal.isSome) ∧
      (c.isRhsVal = false → c.rhsCol.tabName = t ∧ (colOf db c.rhsCol).isSome)
  | nestLoop left right conds => left.Covered ∧ right.Covered ∧
      ∀ c ∈ conds, (Projection.getCol ((nestLoop left right conds).cols db) c.lhsCol).isSome ∧
        (c.isRhsVal = true → c.rhsVal.isSome) ∧
        (c.isRhsVal = false →
          (Projection.getCol ((nestLoop left right conds).cols db) c.rhsCol).isSome)
  | projection sub selCols => sub.Covered ∧
      ∀ c ∈ selCols, (Projection.getCol (sub.cols db) c).isSome

/-- A plan over different tables of the database, with its conditions where they belong. -/
structure WellFormed (plan : PlanTree) : Prop where
  nodup : plan.tables.Nodup
  tables : ∀ t ∈ plan.tables, ∃ table, db t = some table ∧ TableOk t table
  covered : plan.Covered db

-- ---------------------------------------------------------------------------
-- Plans whose executors do what is meant
-- ---------------------------------------------------------------------------

/-- The first column of that name is there, and is one of the table that is meant. -/
def Found (cols : List TabColMeta) (c : TabCol) : Prop :=
  ∃ col, findFromCols cols c.colName = some col ∧ col.tabName = c.tabName

/-- The loop over the conditions comes to the condition `c`: those before it hold. -/
def ComesTo (conds : List JoinCondition) (e : Env) (c : JoinCondition) : Prop :=
  ∃ front rest, conds = front ++ c :: rest ∧ ∀ c' ∈ front, c'.holds db e = true

/-- At every join that is opened, the names of the conditions that are tested on a pair lead to the columns that are
meant: on the left for the left column of a condition, and on the right for the right one. -/
def FoundByName : PlanTree → Prop
  | seqScan _ _ => True
  | nestLoop left right conds => left.FoundByName ∧ (left.meaning db ≠ [] → right.FoundByName) ∧
      ∀ e₁ ∈ left.good db, ∀ e₂ ∈ right.good db, ∀ c, ComesTo db conds (e₁ ++ e₂) c →
        Found (left.cols db) c.lhsCol ∧ (c.isRhsVal = false → Found (right.cols db) c.rhsCol)
  | projection sub _ => sub.FoundByName

/-- The executor of the plan has no join at its top: it can be opened again. -/
def reopens : PlanTree → Bool
  | seqScan _ _ => true
  | nestLoop _ _ _ => false
  | projection sub _ => sub.reopens

/-- No join is opened a second time: where the right child of a join is a join, the left child has
no more tuples than fit into one buffer, or the right child has none. -/
def OpenedOnce : PlanTree → Prop
  | seqScan _ _ => True
  | nestLoop left right _ => left.OpenedOnce ∧ (left.meaning db ≠ [] → right.OpenedOnce) ∧
      (right.reopens = true ∨ (left.meaning db).length ≤ NestedLoopJoin.outerBufferSize ∨
        right.meaning db = [])
  | projection sub _ => sub.OpenedOnce

end PlanTree

end Rmdb
