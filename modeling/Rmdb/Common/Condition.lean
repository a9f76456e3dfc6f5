-- SUMMARY: Conditions, columns and tables as queries over several tables see them.
import Rmdb.Common.Value

/-!
# Conditions over several tables

`TabCol` and `Condition` of `common.h` and `ColMeta` and `TabMeta` of `sm_meta.h` with their
table names, which a statement on one table does not look at.
-/

namespace Rmdb

structure TabCol where
  tabName : String
  colName : String
  deriving DecidableEq, Repr

/-- `ColMeta` with its `tab_name`. -/
structure TabColMeta extends ColMeta where
  tabName : String
  deriving DecidableEq, Repr

/-- `Condition`. When `isRhsVal`, `rhsCol` is the default `TabCol`, whose names are empty. -/
structure JoinCondition where
  lhsCol : TabCol
  op : CompOp
  isRhsVal : Bool
  rhsCol : TabCol
  rhsVal : Option Value

/-- The table `swap_op`. -/
def CompOp.swapOp : CompOp → CompOp
  | .eq => .eq
  | .ne => .ne
  | .lt => .gt
  | .gt => .lt
  | .le => .ge
  | .ge => .le

/-- A condition with its sides swapped. -/
def JoinCondition.mirror (c : JoinCondition) : JoinCondition :=
  { c with lhsCol := c.rhsCol, rhsCol := c.lhsCol, op := c.op.swapOp }

/-- `TabMeta`; an index is the list of the names of its columns. -/
structure TabMeta where
  cols : List TabColMeta
  indexes : List (List String)

/-- `db_.tabs_`. `create_table` puts the name of the table into each of its columns. -/
structure Catalog where
  tabs : String → Option TabMeta
  owned : ∀ t tab, tabs t = some tab → ∀ col ∈ tab.cols, col.tabName = t

end Rmdb
