-- SUMMARY: Statements with plans of several operators: the analyzer's checks, the planner's choice of operators, and which scans a join tree has.
import Rmdb.Optimizer.Placement

/-!
# Plans of whole statements

`Analyze::do_analyze` and `Planner::do_planner` for the statements whose plans have operators
below others: SELECT with its sort, projection and aggregate, and the scan of UPDATE and DELETE.
LIMIT has no part in it.
-/

namespace Rmdb

-- ---------------------------------------------------------------------------
-- Statements
-- ---------------------------------------------------------------------------

inductive AggType where
  | count
  | max
  | min
  | sum
  deriving DecidableEq, Repr

/-- A column of a select list: `TabCol` with `has_agg` and `aggregate_type`. -/
structure SelCol extends TabCol where
  agg : Option AggType
  anotherName : String
  deriving DecidableEq, Repr

/-- `ast::SelectStmt`. The list of columns is empty for `*`, and the grammar has no empty FROM
list. -/
structure SelectStmt (ν : Type) where
  cols : List SelCol
  tabs : List String
  tabs_ne : tabs ≠ []
  conds : List (BinaryExpr ν)
  orderBys : Option (List (TabCol × Bool))

/-- `ast::TreeNode`, for the statements at hand. -/
inductive AstStmt (ν : Type) where
  | select (x : SelectStmt ν)
  | update (tabName : String) (setClauses : List (String × ν)) (conds : List (BinaryExpr ν))
  | delete (tabName : String) (conds : List (BinaryExpr ν))

/-- What `do_analyze` makes of a SELECT. -/
structure SelectQuery where
  tables : List String
  cols : List SelCol
  conds : List JoinCondition
  orderBy : Option (List (TabCol × Bool))

inductive AnalyzedStmt where
  | select (query : SelectQuery)
  | update (tabName : String) (conds : List JoinCondition)
  | delete (tabName : String) (conds : List JoinCondition)

namespace Analyze

/-- `check_column` for a select list: a column that no table has is let through in an aggregate,
for the sake of `COUNT(*)`. -/
def checkSelCol (allCols : List TabColMeta) (target : SelCol) : Except AnalyzeError SelCol :=
  if target.tabName = "" then do
    let tabName ← inferTable target.colName allCols ""
    if tabName = "" ∧ target.agg = none then .error (.columnNotFound target.colName)
    else return { target with tabName := tabName }
  else if allCols.any fun col => col.tabName = target.tabName ∧ col.name = target.colName then
    .ok target
  else .error (.columnNotFound target.colName)

/-- `COUNT(*)` gets its name. -/
def nameCount (col : SelCol) : SelCol :=
  if col.colName = "" ∧ col.anotherName = "" then { col with anotherName := "COUNT(*)" } else col

/-- The select list; an empty one is `*`. -/
def checkSelCols (allCols : List TabColMeta) (cols : List SelCol) :
    Except AnalyzeError (List SelCol) :=
  if cols.isEmpty then .ok (allCols.map fun col => ⟨⟨col.tabName, col.name⟩, none, ""⟩)
  else (cols.map nameCount).mapM (checkSelCol allCols)

/-- `get_check_orderby_clause`. -/
def checkOrderBy (allCols : List TabColMeta) (orderBys : List (TabCol × Bool)) :
    Except AnalyzeError (List (TabCol × Bool)) :=
  orderBys.mapM fun (col, isDesc) => do
    let col ← checkColumn allCols col
    return (col, isDesc)

variable {ν : Type} (convertSvValue : ν → TabColMeta → Except AnalyzeError Value)

def analyzeSelect (db : Catalog) (x : SelectStmt ν) : Except AnalyzeError SelectQuery := do
  let allCols ← getAllCols db x.tabs
  let cols ← checkSelCols allCols x.cols
  let conds ← getCheckClause convertSvValue db x.tabs x.conds
  match x.orderBys with
  | none => return ⟨x.tabs, cols, conds, none⟩
  | some orderBys =>
    let orderBys ← checkOrderBy allCols orderBys
    return ⟨x.tabs, cols, conds, some orderBys⟩

/-- A SET clause: its column has to be there, and its value has to fit. -/
def checkSetClause (db : Catalog) (tabName : String) (allCols : List TabColMeta)
    (clause : String × ν) : Except AnalyzeError Value := do
  let lhs ← checkColumn allCols ⟨tabName, clause.1⟩
  let tab ← getTable db lhs.tabName
  let col ← getCol tab lhs.colName
  convertSvValue clause.2 col

def doAnalyze (db : Catalog) : AstStmt ν → Except AnalyzeError AnalyzedStmt
  | .select x => do
    let query ← analyzeSelect convertSvValue db x
    return .select query
  | .update tabName setClauses conds => do
    let allCols ← getAllCols db [tabName]
    let _ ← setClauses.mapM (checkSetClause convertSvValue db tabName allCols)
    let conds ← getCheckClause convertSvValue db [tabName] conds
    return .update tabName conds
  | .delete tabName conds => do
    let conds ← getCheckClause convertSvValue db [tabName] conds
    return .delete tabName conds

end Analyze

-- ---------------------------------------------------------------------------
-- Plans
-- ---------------------------------------------------------------------------

/-- A plan of a SELECT: what `make_one_rel` builds, and the operators above it. -/
inductive SelectPlan where
  | rel (plan : Plan)
  | sort (sub : SelectPlan) (orderBys : List (TabCol × Bool))
  | projection (sub : SelectPlan) (selCols : List TabCol)
  | agg (sub : SelectPlan) (selCol : SelCol)

/-- `DMLPlan`, with its subplan. -/
inductive DMLPlan where
  | select (sub : SelectPlan)
  | update (scan : ScanPlan)
  | delete (scan : ScanPlan)

namespace Planner

def generateSortPlan (query : SelectQuery) (plan : SelectPlan) : SelectPlan :=
  match query.orderBy with
  | none => plan
  | some orderBys => .sort plan orderBys

/-- The columns of the projection: all of them below a `COUNT(*)`. -/
def projectedCols (db : Catalog) (query : SelectQuery) : Except AnalyzeError (List TabCol) :=
  match query.cols with
  | [col] =>
    if col.colName = "" ∧ col.agg = some .count then do
      let allCols ← Analyze.getAllCols db query.tables
      return allCols.map fun col => ⟨col.tabName, col.name⟩
    else return [col.toTabCol]
  | cols => return cols.map (·.toTabCol)

def generateAggPlan (query : SelectQuery) (plan : SelectPlan) : SelectPlan :=
  match query.cols with
  | col :: _ => if query.cols.any (·.agg.isSome) then .agg plan col else plan
  | [] => plan

def generateSelectPlan (db : Catalog) (query : SelectQuery) : Except AnalyzeError SelectPlan := do
  let plan ← makeOneRel db ⟨query.tables, query.conds⟩
  let plan := generateSortPlan query (.rel plan)
  let selCols ← projectedCols db query
  return generateAggPlan query (.projection plan selCols)

/-- The scan of an UPDATE or a DELETE. -/
def scanOf (db : Catalog) (tabName : String) (conds : List JoinCondition) :
    Except AnalyzeError ScanPlan := do
  let tab ← Analyze.getTable db tabName
  let (indexExist, idxConds, names) := getIndexCols tab conds
  return ⟨if indexExist then .indexScan else .seqScan, tabName, conds, idxConds, names⟩

def doPlanner (db : Catalog) : AnalyzedStmt → Except AnalyzeError DMLPlan
  | .select query => do
    let plan ← generateSelectPlan db query
    return .select plan
  | .update tabName conds => do
    let scan ← scanOf db tabName conds
    return .update scan
  | .delete tabName conds => do
    let scan ← scanOf db tabName conds
    return .delete scan

end Planner

-- ---------------------------------------------------------------------------
-- The scans of a join tree
-- ---------------------------------------------------------------------------

namespace Plan

/-- A join, with no null pointer anywhere in the plan. -/
def NoNull : Plan → Prop
  | null => False
  | scan _ => True
  | join left right _ => left.NoNull ∧ right.NoNull

def IsJoin : Plan → Prop
  | join _ _ _ => True
  | _ => False

end Plan

namespace Planner

variable {scans : List ScanPlan} {st : JoinState} {tree : Plan} {c : JoinCondition}

/-- `push_conds` changes conditions and nothing else. -/
theorem pushConds_scans (c : JoinCondition) (plan : Plan) :
    (pushConds c plan).2.scans = plan.scans ∧ (plan.NoNull → (pushConds c plan).2.NoNull) ∧
      (plan.IsJoin → (pushConds c plan).2.IsJoin) := by
  induction plan with
  | null => exact ⟨rfl, id, id⟩
  | scan x => exact ⟨rfl, id, id⟩
  | join left right conds ihl ihr =>
    obtain ⟨hl, hnl, -⟩ := ihl
    obtain ⟨hr, hnr, -⟩ := ihr
    simp only [pushConds]
    split
    · exact ⟨by simp [Plan.scans, hl], fun h => ⟨hnl h.1, h.2⟩, fun _ => trivial⟩
    · split
      · exact ⟨by simp [Plan.scans, hl, hr], fun h => ⟨hnl h.1, hnr h.2⟩, fun _ => trivial⟩
      · split <;>
          exact ⟨by simp [Plan.scans, hl, hr], fun h => ⟨hnl h.1, hnr h.2⟩, fun _ => trivial⟩

/-- A tree that has every scan whose flag is set. A table may be in the FROM list twice. -/
structure Kept (scans : List ScanPlan) (st : JoinState) : Prop where
  noNull : st.tree.NoNull
  isJoin : st.tree.IsJoin
  sub : ∀ x ∈ st.tree.scans, x ∈ scans
  length : st.scantbl.length = scans.length
  kept : ∀ (i : Nat) (x : ScanPlan), scans[i]? = some x →
    st.scantbl[i]? = some (-1) ∨ x ∈ st.tree.scans

/-- The scan `x` is put into the tree, and its flag is set. -/
theorem kept_set {scantbl : List Int} {i : Nat} {x : ScanPlan} (hi : scans[i]? = some x)
    {xs : List ScanPlan}
    (h : ∀ (j : Nat) (y : ScanPlan), scans[j]? = some y → scantbl[j]? = some (-1) ∨ y ∈ xs)
    (j : Nat) (y : ScanPlan) (hj : scans[j]? = some y) :
    (scantbl.set i 1)[j]? = some (-1) ∨ y ∈ x :: xs := by
  by_cases hij : i = j
  · subst hij
    obtain rfl : x = y := Option.some.inj (hi.symm.trans hj)
    exact .inr List.mem_cons_self
  · rw [List.getElem?_set_ne hij]
    exact (h j y hj).imp_right (List.mem_cons_of_mem x)

theorem firstJoin_kept (hl : c.lhsCol.tabName ∈ scans.map (·.tabName))
    (hr : c.rhsCol.tabName ∈ scans.map (·.tabName)) (names : List String) :
    Kept scans (firstJoin scans ⟨List.replicate scans.length (-1), names, .null⟩ c) := by
  obtain ⟨x, hx, -, i, hi, hpop⟩ := popScan_eq hl ⟨List.replicate scans.length (-1), names, .null⟩
  obtain ⟨y, hy, -, j, hj, hpop'⟩ := popScan_eq hr
    ⟨(List.replicate scans.length (-1)).set i 1, names ++ [c.lhsCol.tabName], .null⟩
  simp only [firstJoin, hpop, hpop']
  have hkept : ∀ (k : Nat) (z : ScanPlan), scans[k]? = some z →
      (List.replicate scans.length (-1 : Int))[k]? = some (-1) ∨ z ∈ ([] : List ScanPlan) := by
    intro k z hk
    rw [List.getElem?_replicate, if_pos (List.getElem?_eq_some_iff.mp hk).1]
    exact .inl rfl
  refine ⟨⟨trivial, trivial⟩, trivial, ?_, by simp, ?_⟩
  · simp only [Plan.scans, List.mem_append, List.mem_singleton]
    rintro z (rfl | rfl)
    · exact hx
    · exact hy
  · intro k z hk
    have := kept_set hj (kept_set hi hkept) k z hk
    simpa [Plan.scans, or_comm] using this

/-- A new subtree is joined to the left of the tree. -/
theorem Kept.graft (h : Kept scans st) (sub : Plan) (hsub : sub.NoNull)
    (hscans : ∀ x ∈ sub.scans, x ∈ scans) {scantbl : List Int}
    (hlen : scantbl.length = scans.length)
    (hkept : ∀ (i : Nat) (x : ScanPlan), scans[i]? = some x →
      scantbl[i]? = some (-1) ∨ x ∈ sub.scans ++ st.tree.scans)
    (names : List String) (conds : List JoinCondition) :
    Kept scans ⟨scantbl, names, .join sub st.tree conds⟩ where
  noNull := ⟨hsub, h.noNull⟩
  isJoin := trivial
  sub x hx := (List.mem_append.mp hx).elim (hscans x) (h.sub x)
  length := hlen
  kept := hkept

theorem nextJoin_kept (h : Kept scans st) (hl : c.lhsCol.tabName ∈ scans.map (·.tabName))
    (hr : c.rhsCol.tabName ∈ scans.map (·.tabName)) : Kept scans (nextJoin scans st c) := by
  by_cases hlj : c.lhsCol.tabName ∈ st.joinedTables
  · by_cases hrj : c.rhsCol.tabName ∈ st.joinedTables
    · -- Both tables are in the tree: the condition is pushed down.
      obtain ⟨hscans, hnull, hjoin⟩ := pushConds_scans c st.tree
      simp only [nextJoin, hlj, hrj, if_true, not_true, decide_false, Bool.false_eq_true, if_false,
        Plan.isNull, Bool.not_true, Bool.and_self, Bool.or_self]
      exact ⟨hnull h.noNull, hjoin h.isJoin, hscans ▸ h.sub, h.length, hscans ▸ h.kept⟩
    · obtain ⟨x, hx, -, i, hi, hpop⟩ := popScan_eq hr st
      simp only [nextJoin, hlj, hrj, if_true, not_false_eq_true, decide_true, hpop, Plan.isNull,
        Bool.not_true, Bool.not_false, Bool.false_and, Bool.false_eq_true, if_false, Bool.or_true]
      refine h.graft (.scan x) trivial (by simpa [Plan.scans] using hx) ?_ ?_ _ _
      · rw [List.length_set, h.length]
      · exact kept_set hi h.kept
  · obtain ⟨x, hx, -, i, hi, hpop⟩ := popScan_eq hl st
    by_cases hrj : c.rhsCol.tabName ∈ st.joinedTables ++ [c.lhsCol.tabName]
    · simp only [nextJoin, hlj, if_false, hpop, hrj, not_true, decide_false, Bool.false_eq_true,
        Plan.isNull, Bool.not_true, Bool.not_false, Bool.and_false, Bool.or_false, if_true]
      refine h.graft (.scan x) trivial (by simpa [Plan.scans] using hx) ?_ ?_ _ _
      · rw [List.length_set, h.length]
      · exact kept_set hi h.kept
    · obtain ⟨y, hy, -, j, hj, hpop'⟩ := popScan_eq hr { st with
        scantbl := st.scantbl.set i 1, joinedTables := st.joinedTables ++ [c.lhsCol.tabName] }
      simp only [nextJoin, hlj, if_false, hpop, hrj, not_false_eq_true, decide_true, if_true, hpop',
        Plan.isNull, Bool.not_false, Bool.and_self]
      refine h.graft (.join (.scan x) (.scan y) [c]) ⟨trivial, trivial⟩ ?_ ?_ ?_ _ _
      · simp only [Plan.scans, List.mem_append, List.mem_singleton]
        rintro z (rfl | rfl)
        · exact hx
        · exact hy
      · simp only [List.length_set, h.length]
      · intro k z hk
        have := kept_set hj (kept_set hi h.kept) k z hk
        simpa [Plan.scans, or_left_comm] using this

theorem joins_kept {conds : List JoinCondition} (h : Kept scans st)
    (hconds : ∀ c ∈ conds, c.lhsCol.tabName ∈ scans.map (·.tabName) ∧
      c.rhsCol.tabName ∈ scans.map (·.tabName)) : Kept scans (conds.foldl (nextJoin scans) st) := by
  induction conds generalizing st with
  | nil => exact h
  | cons c conds ih =>
    obtain ⟨hc, hrest⟩ := List.forall_mem_cons.mp hconds
    exact ih (nextJoin_kept h hc.1 hc.2) hrest

/-- The last loop adds the scans whose flag is not set. -/
theorem joinRest_kept (xs : List (ScanPlan × Int)) (hnull : tree.NoNull) :
    (joinRest xs tree).NoNull ∧
      (tree.IsJoin ∨ (∃ x ∈ xs, x.2 = -1) → (joinRest xs tree).IsJoin) ∧
      ∀ y, y ∈ (joinRest xs tree).scans ↔ y ∈ tree.scans ∨ (y, -1) ∈ xs := by
  induction xs generalizing tree with
  | nil => exact ⟨hnull, by simp [joinRest], by simp [joinRest]⟩
  | cons x xs ih =>
    obtain ⟨x, flag⟩ := x
    by_cases hflag : flag = -1
    · subst hflag
      obtain ⟨hn, hj, hs⟩ := @ih (.join (.scan x) tree []) ⟨trivial, hnull⟩
      simp only [joinRest, if_true]
      refine ⟨hn, fun _ => hj (.inl trivial), fun y => ?_⟩
      rw [hs]
      simp [Plan.scans, or_assoc, or_left_comm]
    · obtain ⟨hn, hj, hs⟩ := ih hnull
      simp only [joinRest, hflag, if_false]
      refine ⟨hn, fun h => hj ?_, fun y => ?_⟩
      · simpa [hflag] using h
      · rw [hs]
        simp [Ne.symm hflag]

theorem joinTables_kept {conds : List JoinCondition} (hlen : 2 ≤ scans.length)
    (hconds : ∀ c ∈ conds, c.lhsCol.tabName ∈ scans.map (·.tabName) ∧
      c.rhsCol.tabName ∈ scans.map (·.tabName)) :
    (joinTables scans conds).NoNull ∧ (joinTables scans conds).IsJoin ∧
      ∀ x, x ∈ (joinTables scans conds).scans ↔ x ∈ scans := by
  cases conds with
  | nil =>
    match scans, hlen with
    | x :: y :: xs, _ =>
      have hzip : (x :: y :: xs).zip ((List.replicate (x :: y :: xs).length (-1 : Int)).set 0 1) =
          (x, 1) :: (y :: xs).map fun z => (z, -1) := by
        have hconst : xs.map (fun z => (z, (-1 : Int))) = xs.zip (List.replicate xs.length (-1)) := by
          rw [List.map_prod_left_eq_zip, List.map_const']
        simp [List.replicate_succ, hconst]
      simp only [joinTables, hzip]
      obtain ⟨hn, hj, hs⟩ := joinRest_kept ((x, 1) :: (y :: xs).map fun z => (z, (-1 : Int)))
        (show (Plan.scan x).NoNull from trivial)
      refine ⟨hn, hj (.inr ⟨(y, -1), by simp, rfl⟩), fun z => ?_⟩
      rw [hs]
      simp [Plan.scans]
  | cons c conds =>
    obtain ⟨hc, hrest⟩ := List.forall_mem_cons.mp hconds
    have hkept := joins_kept (firstJoin_kept hc.1 hc.2 (List.replicate scans.length "")) hrest
    simp only [joinTables]
    generalize conds.foldl (nextJoin scans) _ = st at hkept
    obtain ⟨hn, hj, hs⟩ := joinRest_kept (scans.zip st.scantbl) hkept.noNull
    refine ⟨hn, hj (.inl hkept.isJoin), fun x => ?_⟩
    rw [hs]
    constructor
    · rintro (hx | hx)
      · exact hkept.sub x hx
      · exact (List.of_mem_zip hx).1
    · intro hx
      obtain ⟨i, hi⟩ := List.mem_iff_getElem?.mp hx
      refine (hkept.kept i x hi).symm.imp_right fun hflag => ?_
      exact List.mem_iff_getElem?.mpr ⟨i, List.getElem?_zip_eq_some.mpr ⟨hi, hflag⟩⟩

-- ---------------------------------------------------------------------------
-- Which scans use an index
-- ---------------------------------------------------------------------------

/-- A table is scanned by index: the first column of one of its indexes is compared with a
literal. -/
def IndexApplies (db : Catalog) (tables : List String) (conds : List JoinCondition) : Prop :=
  ∃ t ∈ tables, ∃ tab, db.tabs t = some tab ∧ ∃ c ∈ conds, c.isRhsVal = true ∧
    c.lhsCol.tabName = t ∧ ∃ index ∈ tab.indexes, index.head? = some c.lhsCol.colName

theorem matchIndex_ne_nil {idxConds : List JoinCondition} {index : List String} :
    matchIndex idxConds index ≠ [] ↔ ∃ c ∈ idxConds, index.head? = some c.lhsCol.colName := by
  cases index with
  | nil => simp [matchIndex]
  | cons col cols =>
    simp only [matchIndex, List.head?_cons, Option.some.injEq]
    split
    · rename_i hempty
      simp only [List.isEmpty_iff, List.filter_eq_nil_iff, decide_eq_true_eq] at hempty
      simp only [ne_eq, not_true, false_iff, not_exists, not_and]
      exact fun c hc heq => hempty c hc heq.symm
    · rename_i hne
      simp only [List.isEmpty_iff, List.filter_eq_nil_iff, decide_eq_true_eq, not_forall,
        not_not] at hne
      obtain ⟨c, hc, heq⟩ := hne
      refine iff_of_true ?_ ⟨c, hc, heq.symm⟩
      intro hnil
      have hmem : c ∈ idxConds.filter fun c => c.lhsCol.colName = col := by simp [hc, heq]
      rw [(List.append_eq_nil_iff.mp hnil).1] at hmem
      cases hmem

theorem getIndexCols_iff (tab : TabMeta) (curr : List JoinCondition) :
    (getIndexCols tab curr).1 = true ↔ ∃ c ∈ curr, c.isRhsVal = true ∧
      ∃ index ∈ tab.indexes, index.head? = some c.lhsCol.colName := by
  have hfound : (getIndexCols tab curr).1 = true ↔
      ∃ index ∈ tab.indexes, matchIndex (curr.filter (·.isRhsVal)) index ≠ [] := by
    simp only [getIndexCols]
    split
    · rename_i hempty
      simp only [List.isEmpty_iff] at hempty
      simp [matchIndex_ne_nil, hempty]
    · split
      · rename_i index hindex
        refine iff_of_true rfl ⟨index, List.mem_of_find?_eq_some hindex, ?_⟩
        simpa using List.find?_some hindex
      · rename_i hnone
        simpa using List.find?_eq_none.mp hnone
  rw [hfound]
  simp only [matchIndex_ne_nil, List.mem_filter]
  constructor
  · rintro ⟨index, hindex, c, ⟨hc, hlit⟩, hhead⟩
    exact ⟨c, hc, hlit, index, hindex, hhead⟩
  · rintro ⟨c, hc, hlit, index, hindex, hhead⟩
    exact ⟨index, hindex, c, ⟨hc, hlit⟩, hhead⟩

/-- A condition with a literal is popped for its own table. -/
theorem pops_literal {tables : List String} (hc : Analyze.Accepted tables c)
    (hlit : c.isRhsVal = true) (t : String) : pops t c = true ↔ c.lhsCol.tabName = t := by
  have hne : c.lhsCol.tabName ≠ c.rhsCol.tabName := by
    rw [hc.literal hlit]
    exact hc.lhs_named
  simp [pops, hlit, hne, eq_comm]

theorem scanLoop_indexScan {db : Catalog} {tables all : List String} {conds : List JoinCondition}
    (hconds : ∀ c ∈ conds, Analyze.Accepted all c) {rest : List JoinCondition}
    (h : scanLoop db tables conds = .ok (scans, rest)) :
    (∃ x ∈ scans, x.tag = .indexScan) ↔ IndexApplies db tables conds := by
  induction tables generalizing scans conds rest with
  | nil =>
    cases h
    simp [IndexApplies]
  | cons t ts ih =>
    simp only [scanLoop, popConds_eq, Analyze.getTable] at h
    cases htab : db.tabs t with
    | none => simp [htab] at h
    | some tab =>
      cases hloop : scanLoop db ts (conds.filter fun c => !pops t c) with
      | error e => simp [htab, hloop] at h
      | ok result =>
        simp only [htab, hloop, ok_bind, pure_eq_ok, Except.ok.injEq, Prod.mk.injEq] at h
        obtain ⟨rfl, -⟩ := h
        have hrest := ih (fun c hc => hconds c (List.mem_of_mem_filter hc)) hloop
        rw [List.exists_mem_cons_iff, hrest]
        have htag : (if (getIndexCols tab (conds.filter (pops t))).1 then ScanTag.indexScan
            else .seqScan) = .indexScan ↔ (getIndexCols tab (conds.filter (pops t))).1 = true := by
          split <;> simp_all
        rw [htag, getIndexCols_iff]
        constructor
        · rintro (⟨c, hc, hlit, hindex⟩ | ⟨t', ht', tab', htab', c, hc, hlit, hname, hindex⟩)
          · obtain ⟨hc, hpops⟩ := List.mem_filter.mp hc
            exact ⟨t, List.mem_cons_self, tab, htab, c, hc, hlit,
              (pops_literal (hconds c hc) hlit t).mp hpops, hindex⟩
          · exact ⟨t', List.mem_cons_of_mem _ ht', tab', htab', c, List.mem_of_mem_filter hc, hlit,
              hname, hindex⟩
        · rintro ⟨t', ht', tab', htab', c, hc, hlit, hname, hindex⟩
          have hpops := pops_literal (hconds c hc) hlit t
          by_cases htt : t' = t
          · subst htt
            obtain rfl : tab = tab' := Option.some.inj (htab.symm.trans htab')
            exact .inl ⟨c, List.mem_filter.mpr ⟨hc, hpops.mpr hname⟩, hlit, hindex⟩
          · right
            refine ⟨t', ?_, tab', htab', c, ?_, hlit, hname, hindex⟩
            · exact (List.mem_cons.mp ht').resolve_left htt
            · refine List.mem_filter.mpr ⟨hc, ?_⟩
              rw [Bool.not_eq_true', ← Bool.not_eq_true, hpops, hname]
              exact htt

/-- What `make_one_rel` builds for every clause that the analyzer accepts: one scan or a tree of
joins, with a scan for each table. -/
theorem makeOneRel_scans {db : Catalog} {tables : List String} (hne : tables ≠ [])
    (htabs : ∀ t ∈ tables, ∃ tab, db.tabs t = some tab) {conds : List JoinCondition}
    (hconds : ∀ c ∈ conds, Analyze.Accepted tables c) :
    ∃ plan, makeOneRel db ⟨tables, conds⟩ = .ok plan ∧ plan.NoNull ∧
      (plan.IsJoin ↔ 2 ≤ tables.length) ∧ (∀ t, t ∈ plan.tables ↔ t ∈ tables) ∧
      ((∃ x ∈ plan.scans, x.tag = .indexScan) ↔ IndexApplies db tables conds) := by
  obtain ⟨scans, rest, hloop, hnames, hperm, hrest, -⟩ := scanLoop_ok db htabs conds
  have hindex := scanLoop_indexScan hconds hloop
  simp only [makeOneRel, hloop, ok_bind]
  rcases scans with _ | ⟨x, _ | ⟨y, xs⟩⟩
  · exact absurd hnames.symm hne
  · subst hnames
    exact ⟨.scan x, rfl, trivial, by simp [Plan.IsJoin], by simp, by simpa [Plan.scans] using hindex⟩
  · have hcross : ∀ c ∈ rest, c.lhsCol.tabName ∈ (x :: y :: xs).map (·.tabName) ∧
        c.rhsCol.tabName ∈ (x :: y :: xs).map (·.tabName) := by
      intro c hc
      rw [hnames]
      have hmem := hperm.subset (List.mem_append_right _ hc)
      obtain ⟨haccepted, hcol, -⟩ := crosses_of_not_popped (hconds c hmem) (hrest c hc)
      exact ⟨haccepted.lhs, haccepted.rhs hcol⟩
    obtain ⟨hnull, hjoin, hscans⟩ := joinTables_kept (by simp) hcross
    have hlen : 2 ≤ tables.length := by simp [← hnames]
    refine ⟨_, rfl, hnull, iff_of_true hjoin hlen, fun t => ?_, ?_⟩
    · rw [← hnames]
      simp only [Plan.tables, List.mem_map, hscans]
    · rw [← hindex]
      simp only [hscans]

end Planner

end Rmdb
