-- SUMMARY: What executors ask of the executors below them, and for which statements they get an answer.
import Rmdb.Execution.QueryExecutor
import Rmdb.Optimizer.Select

/-!
# The interface of an executor

Parents ask their children for `cols()`, `tupleLen()` and `get_col_offset()`, most of them in
their constructors. The class of a scan is chosen by the conditions and the indexes of its table,
and its parent by the rest of the statement. `IndexScanExecutor` has no `tupleLen()` that returns,
and it inherits a `get_col_offset` that answers with an empty `ColMeta`.
-/

namespace Rmdb

-- ---------------------------------------------------------------------------
-- The executors
-- ---------------------------------------------------------------------------

/-- The tree that `Portal::convert_plan_executor` builds, with the `cols` of the tables. -/
inductive Executor where
  | null
  | seqScan (cols : List TabColMeta)
  | indexScan (cols : List TabColMeta)
  | nestedLoopJoin (left right : Executor)
  | sort (prev : Executor) (orderBys : List (TabCol × Bool))
  | projection (prev : Executor) (selCols : List TabCol)
  | agg (prev : Executor) (selCol : SelCol)

inductive ExecutorError where
  | unreachableCode
  | columnNotFound
  /-- A member function is called on a null pointer. -/
  | nullPointer
  /-- An aggregate over no columns, or without a function: the grammar has neither. -/
  | notParsed
  deriving DecidableEq, Repr

/-- The end of the last column. -/
def endOffset (cols : List TabColMeta) : Option Nat :=
  cols.getLast?.map fun col => col.offset + col.len

namespace Executor

/-- `res_cols_` and `len_` of `AggExecutor`, from the columns of its child. A child of several columns is below
`COUNT(*)` or several aggregates. -/
def aggResult (selCol : SelCol) (cols : List TabColMeta) :
    Except ExecutorError (TabColMeta × Nat) :=
  match selCol.agg, cols with
  | some type, prevCol :: rest =>
    let name (f : String) :=
      if selCol.anotherName = "" then f ++ "(" ++ selCol.colName ++ ")" else selCol.anotherName
    let len := if rest = [] then prevCol.len else 4
    let same (f : String) : TabColMeta := ⟨⟨name f, prevCol.type, prevCol.len, 0⟩, ""⟩
    .ok (match type with
      | .max => (same "MAX", len)
      | .min => (same "MIN", len)
      | .sum => (same "SUM", len)
      | .count => (⟨⟨name "COUNT", .int, 4, 0⟩, ""⟩, len))
  | _, _ => .error .notParsed

/-- The columns of a projection and their total length, which its constructor computes. -/
def projected (prevCols : List TabColMeta) (selCols : List TabCol) :
    Except ExecutorError (List TabColMeta × Nat) :=
  match Projection.select prevCols selCols 0 with
  | none => .error .columnNotFound
  | some cols => .ok (cols.map (·.2), Projection.len cols)

/-- `cols()` and `tupleLen()`. -/
def shape : Executor → Except ExecutorError (List TabColMeta) × Except ExecutorError Nat
  | null => (.error .nullPointer, .error .nullPointer)
  | seqScan cols => (.ok cols, .ok ((endOffset cols).getD 0))
  | indexScan cols => (.ok cols, .error .unreachableCode)
  | nestedLoopJoin left right =>
    let l := left.shape
    let r := right.shape
    (do
      let leftCols ← l.1
      let rightCols ← r.1
      let leftLen ← l.2
      return leftCols ++ rightCols.map (NestedLoopJoin.shift leftLen),
     do
      let leftLen ← l.2
      let rightLen ← r.2
      return leftLen + rightLen)
  | sort prev _ => prev.shape
  | projection prev selCols =>
    let result := do
      let prevCols ← prev.shape.1
      projected prevCols selCols
    (result.map (·.1), result.map (·.2))
  | agg prev selCol =>
    let result := do
      let prevCols ← prev.shape.1
      aggResult selCol prevCols
    (result.map fun r => [r.1], result.map (·.2))

def cols (e : Executor) : Except ExecutorError (List TabColMeta) := e.shape.1

def tupleLen (e : Executor) : Except ExecutorError Nat := e.shape.2

/-- The loop of `get_col_offset` over `cols_`. -/
def findCol (cols : Except ExecutorError (List TabColMeta)) (target : TabCol) :
    Except ExecutorError (Option TabColMeta) := do
  let cols ← cols
  match Projection.getCol cols target with
  | some col => return some col
  | none => .error .columnNotFound

/-- `get_col_offset`; `none` is the `ColMeta()` of `AbstractExecutor`. -/
def getColOffset : Executor → TabCol → Except ExecutorError (Option TabColMeta)
  | null, _ => .error .nullPointer
  | seqScan cols, target => findCol (.ok cols) target
  | indexScan _, _ => .ok none
  | nestedLoopJoin left right, target => findCol (nestedLoopJoin left right).cols target
  | sort prev _, target => prev.getColOffset target
  | projection prev selCols, target => findCol (projection prev selCols).cols target
  | agg _ _, _ => .error .unreachableCode

end Executor

namespace Portal

/-- `convert_plan_executor` for the part of a plan that `make_one_rel` builds. -/
def convertPlan (db : Catalog) : Plan → Except AnalyzeError Executor
  | .null => return .null
  | .scan x => do
    let tab ← Analyze.getTable db x.tabName
    match x.tag with
    | .seqScan => return .seqScan tab.cols
    | .indexScan => return .indexScan tab.cols
  | .join left right _ => do
    let left ← convertPlan db left
    let right ← convertPlan db right
    return .nestedLoopJoin left right

def convertPlanExecutor (db : Catalog) : SelectPlan → Except AnalyzeError Executor
  | .rel plan => convertPlan db plan
  | .sort sub orderBys => do
    let prev ← convertPlanExecutor db sub
    return .sort prev orderBys
  | .projection sub selCols => do
    let prev ← convertPlanExecutor db sub
    return .projection prev selCols
  | .agg sub selCol => do
    let prev ← convertPlanExecutor db sub
    return .agg prev selCol

/-- The executors of a statement. `Portal::start` only iterates over the scan of an UPDATE or a
DELETE. -/
def executorOf (db : Catalog) : DMLPlan → Except AnalyzeError Executor
  | .select sub => convertPlanExecutor db sub
  | .update scan => convertPlan db (.scan scan)
  | .delete scan => convertPlan db (.scan scan)

end Portal

-- ---------------------------------------------------------------------------
-- Calls
-- ---------------------------------------------------------------------------

inductive ExecutorCall where
  | cols
  | tupleLen
  | getColOffset (target : TabCol)
  deriving DecidableEq, Repr

namespace Executor

/-- The calls that the executors of a tree make, with the child each is made on. -/
def calls : Executor → List (Executor × ExecutorCall)
  | null | seqScan _ | indexScan _ => []
  | nestedLoopJoin left right =>
    [(left, .tupleLen), (right, .tupleLen), (left, .cols), (right, .cols)] ++
      (left.calls ++ right.calls)
  | sort prev orderBys =>
    (prev, .tupleLen) :: (prev, .cols) ::
      (orderBys.map (fun orderBy => (prev, .getColOffset orderBy.1)) ++ prev.calls)
  | projection prev _ => (prev, .cols) :: prev.calls
  | agg prev _ => (prev, .cols) :: prev.calls

/-- A right answer. That a column of the select list is in no table is the statement's fault. -/
def Answers (e : Executor) : ExecutorCall → Prop
  | .cols => ∀ err, e.cols = .error err → err = .columnNotFound
  | .tupleLen => ∃ cols n, e.cols = .ok cols ∧ endOffset cols = some n ∧ e.tupleLen = .ok n
  | .getColOffset target => ∃ cols col, e.cols = .ok cols ∧
      Projection.getCol cols target = some col ∧ e.getColOffset target = .ok (some col)

/-- Every call gets a right answer. -/
def Served (e : Executor) : Prop := ∀ call ∈ e.calls, call.1.Answers call.2

-- ---------------------------------------------------------------------------
-- Join trees
-- ---------------------------------------------------------------------------

variable {e left right : Executor}

theorem answers_nestedLoopJoin (hl : left.Answers .tupleLen) (hr : right.Answers .tupleLen) :
    (nestedLoopJoin left right).Answers .tupleLen := by
  obtain ⟨lc, ln, hlc, -, hln⟩ := hl
  obtain ⟨rc, rn, hrc, hre, hrn⟩ := hr
  simp only [cols, tupleLen] at hlc hln hrc hrn
  refine ⟨lc ++ rc.map (NestedLoopJoin.shift ln), ln + rn, ?_, ?_, ?_⟩
  · simp [cols, shape, hlc, hrc, hln]
  · obtain ⟨col, hcol, rfl⟩ := Option.map_eq_some_iff.mp hre
    have hlast : (lc ++ rc.map (NestedLoopJoin.shift ln)).getLast? =
        some (NestedLoopJoin.shift ln col) := by
      rw [List.getLast?_append, List.getLast?_map, hcol]
      rfl
    simp only [endOffset, hlast, Option.map_some, NestedLoopJoin.shift]
    congr 1
    omega
  · simp [tupleLen, shape, hln, hrn]

/-- The answer to `tupleLen()` says that there is one to `cols()`. -/
theorem Answers.cols (h : e.Answers .tupleLen) : e.Answers .cols := by
  obtain ⟨cols, n, hcols, -⟩ := h
  intro err herr
  cases hcols.symm.trans herr

theorem served_join (hl : left.Served) (hr : right.Served) (hlt : left.Answers .tupleLen)
    (hrt : right.Answers .tupleLen) : (nestedLoopJoin left right).Served := by
  intro call hcall
  simp only [calls, List.mem_append, List.mem_cons, List.not_mem_nil, or_false] at hcall
  rcases hcall with (rfl | rfl | rfl | rfl) | hcall | hcall
  · exact hlt
  · exact hrt
  · exact hlt.cols
  · exact hrt.cols
  · exact hl call hcall
  · exact hr call hcall

/-- An executor that also finds the columns it has. -/
structure Complete (e : Executor) : Prop where
  served : e.Served
  tupleLen : e.Answers .tupleLen
  getColOffset : ∀ target, e.getColOffset target = findCol e.cols target

end Executor

namespace Portal

open Executor

variable {db : Catalog}

/-- The columns of a table, up to their offsets. -/
def HasCols (cols : List TabColMeta) (tab : TabMeta) : Prop :=
  ∀ col ∈ tab.cols, ∃ col' ∈ cols, col'.tabName = col.tabName ∧ col'.name = col.name

theorem convertPlan_ok (plan : Plan) (htabs : ∀ t ∈ plan.tables, ∃ tab, db.tabs t = some tab) :
    ∃ e, convertPlan db plan = .ok e := by
  induction plan with
  | null => exact ⟨.null, rfl⟩
  | scan x =>
    obtain ⟨tab, htab⟩ := htabs x.tabName (by simp)
    simp only [convertPlan, Analyze.getTable, htab, ok_bind]
    cases x.tag <;> exact ⟨_, rfl⟩
  | join left right conds ihl ihr =>
    obtain ⟨l, hl⟩ := ihl fun t ht => htabs t (by simp [ht])
    obtain ⟨r, hr⟩ := ihr fun t ht => htabs t (by simp [ht])
    exact ⟨.nestedLoopJoin l r, by simp [convertPlan, hl, hr]⟩

/-- A scan asks nothing, and it has columns. -/
theorem convertPlan_scan {x : ScanPlan}
    (htabs : ∀ t ∈ (Plan.scan x).tables, ∃ tab, db.tabs t = some tab) {e : Executor}
    (he : convertPlan db (.scan x) = .ok e) : e.Served ∧ e.Answers .cols := by
  obtain ⟨tab, htab⟩ := htabs x.tabName (by simp)
  simp only [convertPlan, Analyze.getTable, htab, ok_bind] at he
  split at he
  all_goals
    cases he
    constructor
    · intro _ hcall
      cases hcall
    · intro _ herr
      cases herr

/-- A tree of sequential scans answers everything. -/
theorem convertPlan_complete {plan : Plan} (hnull : plan.NoNull)
    (hseq : ∀ x ∈ plan.scans, x.tag = .seqScan)
    (htabs : ∀ t ∈ plan.tables, ∃ tab, db.tabs t = some tab ∧ tab.cols ≠ []) {e : Executor}
    (he : convertPlan db plan = .ok e) :
    e.Complete ∧ ∃ cols, e.cols = .ok cols ∧
      ∀ t ∈ plan.tables, ∀ tab, db.tabs t = some tab → HasCols cols tab := by
  induction plan generalizing e with
  | null => exact hnull.elim
  | scan x =>
    obtain ⟨tab, htab, hne⟩ := htabs x.tabName (by simp)
    have htag : x.tag = .seqScan := hseq x (by simp [Plan.scans])
    simp only [convertPlan, Analyze.getTable, htab, ok_bind, htag, pure_eq_ok] at he
    obtain rfl := Except.ok.inj he
    have hlast := List.getLast?_eq_some_getLast hne
    have hend : endOffset tab.cols =
        some ((tab.cols.getLast hne).offset + (tab.cols.getLast hne).len) := by
      simp [endOffset, hlast]
    refine ⟨⟨?_, ⟨tab.cols, _, rfl, hend, ?_⟩, fun _ => rfl⟩, tab.cols, rfl, ?_⟩
    · intro call hcall
      cases hcall
    · simp [Executor.tupleLen, shape, hend]
    · intro t ht tab' htab' col hcol
      obtain rfl : t = x.tabName := by simpa using ht
      obtain rfl : tab = tab' := Option.some.inj (htab.symm.trans htab')
      exact ⟨col, hcol, rfl, rfl⟩
  | join left right conds ihl ihr =>
    obtain ⟨l, hl⟩ := convertPlan_ok left fun t ht =>
      (htabs t (by simp [ht])).imp fun _ h => h.1
    obtain ⟨r, hr⟩ := convertPlan_ok right fun t ht =>
      (htabs t (by simp [ht])).imp fun _ h => h.1
    simp only [convertPlan, hl, hr, ok_bind, pure_eq_ok] at he
    obtain rfl := Except.ok.inj he
    obtain ⟨hcl, lc, hlc, hlcols⟩ := ihl hnull.1 (fun x hx => hseq x (by simp [Plan.scans, hx]))
      (fun t ht => htabs t (by simp [ht])) hl
    obtain ⟨hcr, rc, hrc, hrcols⟩ := ihr hnull.2 (fun x hx => hseq x (by simp [Plan.scans, hx]))
      (fun t ht => htabs t (by simp [ht])) hr
    obtain ⟨_, n, _, _, hn⟩ := hcl.tupleLen
    have hcols : (nestedLoopJoin l r).cols = .ok (lc ++ rc.map (NestedLoopJoin.shift n)) := by
      simp only [Executor.cols, Executor.tupleLen] at hlc hrc hn ⊢
      simp [shape, hlc, hrc, hn]
    refine ⟨⟨served_join hcl.served hcr.served hcl.tupleLen hcr.tupleLen,
      answers_nestedLoopJoin hcl.tupleLen hcr.tupleLen, fun _ => rfl⟩, _, hcols, ?_⟩
    intro t ht tab htab col hcol
    rcases List.mem_append.mp (Plan.tables_join left right conds ▸ ht) with ht | ht
    · obtain ⟨col', hmem, hsame⟩ := hlcols t ht tab htab col hcol
      exact ⟨col', List.mem_append_left _ hmem, hsame⟩
    · obtain ⟨col', hmem, hsame⟩ := hrcols t ht tab htab col hcol
      refine ⟨NestedLoopJoin.shift n col', ?_, hsame⟩
      exact List.mem_append_right _ (List.mem_map_of_mem hmem)

/-- A tree with an index scan in it has no length, and below a join that is asked for. -/
theorem convertPlan_index {plan : Plan} (hindex : ∃ x ∈ plan.scans, x.tag = .indexScan)
    (htabs : ∀ t ∈ plan.tables, ∃ tab, db.tabs t = some tab) {e : Executor}
    (he : convertPlan db plan = .ok e) :
    (∃ err, e.tupleLen = .error err) ∧ (plan.IsJoin → ¬ e.Served) := by
  induction plan generalizing e with
  | null => simp [Plan.scans] at hindex
  | scan x =>
    obtain ⟨tab, htab⟩ := htabs x.tabName (by simp)
    have htag : x.tag = .indexScan := by simpa [Plan.scans] using hindex
    simp only [convertPlan, Analyze.getTable, htab, ok_bind, htag, pure_eq_ok] at he
    obtain rfl := Except.ok.inj he
    exact ⟨⟨_, rfl⟩, fun hjoin => hjoin.elim⟩
  | join left right conds ihl ihr =>
    have htl : ∀ t ∈ left.tables, ∃ tab, db.tabs t = some tab := fun t ht => htabs t (by simp [ht])
    have htr : ∀ t ∈ right.tables, ∃ tab, db.tabs t = some tab := fun t ht => htabs t (by simp [ht])
    obtain ⟨l, hl⟩ := convertPlan_ok left htl
    obtain ⟨r, hr⟩ := convertPlan_ok right htr
    simp only [convertPlan, hl, hr, ok_bind, pure_eq_ok] at he
    obtain rfl := Except.ok.inj he
    -- One of the children is asked for its length and has none.
    have hchild : (∃ err, l.tupleLen = .error err) ∨ ∃ err, r.tupleLen = .error err := by
      obtain ⟨x, hx, htag⟩ := hindex
      rcases List.mem_append.mp hx with hx | hx
      · exact .inl (ihl ⟨x, hx, htag⟩ htl hl).1
      · exact .inr (ihr ⟨x, hx, htag⟩ htr hr).1
    have hnot : ∀ {c : Executor}, (∃ err, c.tupleLen = .error err) → ¬ c.Answers .tupleLen := by
      rintro c ⟨err, herr⟩ ⟨_, _, _, _, hok⟩
      cases herr.symm.trans hok
    constructor
    · simp only [Executor.tupleLen] at hchild ⊢
      cases hls : l.shape.2 with
      | error err => exact ⟨err, by simp [shape, hls]⟩
      | ok n =>
        rcases hchild with ⟨err, herr⟩ | ⟨err, herr⟩
        · cases hls.symm.trans herr
        · exact ⟨err, by simp [shape, hls, herr]⟩
    · intro _ hserved
      rcases hchild with hlen | hlen
      · exact hnot hlen (hserved (l, .tupleLen) (by simp [calls]))
      · exact hnot hlen (hserved (r, .tupleLen) (by simp [calls]))

-- ---------------------------------------------------------------------------
-- The operators above the join tree
-- ---------------------------------------------------------------------------

variable {e : Executor}

theorem answers_cols_projection (h : e.Answers .cols) (selCols : List TabCol) :
    (projection e selCols).Answers .cols := by
  intro err herr
  simp only [Executor.cols] at h herr
  cases hcols : e.shape.1 with
  | error err' =>
    simp [shape, hcols, Except.map] at herr
    exact herr ▸ h err' hcols
  | ok cols =>
    simp only [shape, hcols, ok_bind, projected] at herr
    split at herr <;> cases herr
    rfl

theorem served_projection (h : e.Served) (hcols : e.Answers .cols) (selCols : List TabCol) :
    (projection e selCols).Served := by
  intro call hcall
  rcases List.mem_cons.mp hcall with rfl | hcall
  · exact hcols
  · exact h call hcall

theorem served_agg (h : e.Served) (hcols : e.Answers .cols) (selCol : SelCol) :
    (agg e selCol).Served := by
  intro call hcall
  rcases List.mem_cons.mp hcall with rfl | hcall
  · exact hcols
  · exact h call hcall

theorem served_sort (h : e.Complete) {cols : List TabColMeta} (hcols : e.cols = .ok cols)
    {orderBys : List (TabCol × Bool)}
    (horder : ∀ orderBy ∈ orderBys, (Projection.getCol cols orderBy.1).isSome) :
    (sort e orderBys).Served := by
  intro call hcall
  simp only [calls, List.mem_cons, List.mem_append, List.mem_map] at hcall
  rcases hcall with rfl | rfl | ⟨orderBy, hmem, rfl⟩ | hcall
  · exact h.tupleLen
  · exact h.tupleLen.cols
  · obtain ⟨col, hcol⟩ := Option.isSome_iff_exists.mp (horder orderBy hmem)
    refine ⟨cols, col, hcols, hcol, ?_⟩
    simp [h.getColOffset, hcols, findCol, hcol]
  · exact h.served call hcall

/-- The operators above a sort or a join tree `e` ask only for columns. -/
theorem top_served {db : Catalog} (query : SelectQuery) {sub : SelectPlan}
    (he : convertPlanExecutor db sub = .ok e) (selCols : List TabCol) :
    ∃ e', convertPlanExecutor db (Planner.generateAggPlan query (.projection sub selCols)) = .ok e' ∧
      (e'.Served → e.Served) ∧ (e.Answers .cols → e.Served → e'.Served) := by
  have hproj : convertPlanExecutor db (.projection sub selCols) = .ok (.projection e selCols) := by
    simp [convertPlanExecutor, he]
  have hsub : (projection e selCols).Served → e.Served :=
    fun h call hcall => h call (List.mem_cons_of_mem _ hcall)
  have hup : e.Answers .cols → e.Served → (projection e selCols).Served :=
    fun hcols h => served_projection h hcols selCols
  simp only [Planner.generateAggPlan]
  split
  · rename_i col rest hquery
    split
    · refine ⟨.agg (.projection e selCols) col, by simp [convertPlanExecutor, he], ?_, ?_⟩
      · exact fun h => hsub fun call hcall => h call (List.mem_cons_of_mem _ hcall)
      · intro hcols h
        exact served_agg (hup hcols h) (answers_cols_projection hcols selCols) col
    · exact ⟨_, hproj, hsub, hup⟩
  · exact ⟨_, hproj, hsub, hup⟩

end Portal

-- ---------------------------------------------------------------------------
-- Statements
-- ---------------------------------------------------------------------------

/-- An index is used below a join or a sort. -/
def AnalyzedStmt.IndexBelow (db : Catalog) : AnalyzedStmt → Prop
  | .select query => (2 ≤ query.tables.length ∨ query.orderBy.isSome) ∧
      Planner.IndexApplies db query.tables query.conds
  | _ => False

/-- What `do_analyze` promises of a SELECT. -/
structure SelectQuery.Checked (db : Catalog) (query : SelectQuery) : Prop where
  tables_ne : query.tables ≠ []
  tables : ∀ t ∈ query.tables, ∃ tab, db.tabs t = some tab
  conds : ∀ c ∈ query.conds, Analyze.Accepted query.tables c
  orderBy : ∀ orderBys, query.orderBy = some orderBys → ∀ orderBy ∈ orderBys,
    ∃ t ∈ query.tables, ∃ tab, db.tabs t = some tab ∧ ∃ col ∈ tab.cols,
      col.tabName = orderBy.1.tabName ∧ col.name = orderBy.1.colName

namespace Analyze

variable {ν : Type} {convertSvValue : ν → TabColMeta → Except AnalyzeError Value} {db : Catalog}

theorem checkOrderBy_ok {allCols : List TabColMeta} {orderBys checked : List (TabCol × Bool)}
    (h : checkOrderBy allCols orderBys = .ok checked) (orderBy : TabCol × Bool)
    (hmem : orderBy ∈ checked) : ∃ col ∈ allCols, col.tabName = orderBy.1.tabName ∧
      col.name = orderBy.1.colName := by
  obtain ⟨⟨target, isDesc⟩, -, htarget⟩ := mapM_ok_mem h orderBy hmem
  cases hcol : checkColumn allCols target with
  | error e => simp [hcol] at htarget
  | ok col =>
    simp only [hcol, ok_bind, pure_eq_ok, Except.ok.injEq] at htarget
    subst htarget
    exact (checkColumn_ok hcol).2

theorem analyzeSelect_ok {x : SelectStmt ν} {query : SelectQuery}
    (h : analyzeSelect convertSvValue db x = .ok query) : query.Checked db := by
  simp only [analyzeSelect] at h
  cases hall : getAllCols db x.tabs with
  | error e => simp [hall] at h
  | ok allCols =>
    simp only [hall, ok_bind] at h
    cases hsel : checkSelCols allCols x.cols with
    | error e => simp [hsel] at h
    | ok cols =>
      simp only [hsel, ok_bind] at h
      cases hconds : getCheckClause convertSvValue db x.tabs x.conds with
      | error e => simp [hconds] at h
      | ok conds =>
        obtain ⟨htabs, haccepted⟩ := getCheckClause_ok hconds
        simp only [hconds, ok_bind] at h
        cases horder : x.orderBys with
        | none =>
          simp only [horder, pure_eq_ok, Except.ok.injEq] at h
          subst h
          exact ⟨x.tabs_ne, htabs, haccepted, fun _ hnone => nomatch hnone⟩
        | some orderBys =>
          cases hchecked : checkOrderBy allCols orderBys with
          | error e => simp [horder, hchecked] at h
          | ok checked =>
            simp only [horder, hchecked, ok_bind, pure_eq_ok, Except.ok.injEq] at h
            subst h
            refine ⟨x.tabs_ne, htabs, haccepted, ?_⟩
            intro _ heq orderBy hmem
            obtain rfl := Option.some.inj heq
            obtain ⟨col, hcol, hsame⟩ := checkOrderBy_ok hchecked orderBy hmem
            obtain ⟨t, ht, tab, htab, hin⟩ := (mem_getAllCols hall col).mp hcol
            exact ⟨t, ht, tab, htab, col, hin, hsame⟩

end Analyze

theorem projectedCols_ok {db : Catalog} {query : SelectQuery} (h : query.Checked db) :
    ∃ selCols, Planner.projectedCols db query = .ok selCols := by
  have hall : ∀ tables : List String, (∀ t ∈ tables, ∃ tab, db.tabs t = some tab) →
      ∃ allCols, Analyze.getAllCols db tables = .ok allCols := by
    intro tables htabs
    induction tables with
    | nil => exact ⟨[], rfl⟩
    | cons t ts ih =>
      obtain ⟨⟨tab, htab⟩, hrest⟩ := List.forall_mem_cons.mp htabs
      obtain ⟨rest, hcols⟩ := ih hrest
      exact ⟨tab.cols ++ rest, by simp [Analyze.getAllCols, Analyze.getTable, htab, hcols]⟩
  obtain ⟨allCols, hcols⟩ := hall query.tables h.tables
  simp only [Planner.projectedCols]
  split
  · split
    · exact ⟨_, by simp [hcols]; rfl⟩
    · exact ⟨_, rfl⟩
  · exact ⟨_, rfl⟩

open Portal Executor in
/-- The executors of a SELECT that has been checked. -/
theorem select_served_iff {db : Catalog} (hcols : ∀ t tab, db.tabs t = some tab → tab.cols ≠ [])
    {query : SelectQuery} (h : query.Checked db) :
    ∃ plan e, Planner.generateSelectPlan db query = .ok plan ∧ convertPlanExecutor db plan = .ok e ∧
      (e.Served ↔ ¬ (AnalyzedStmt.select query).IndexBelow db) := by
  obtain ⟨rel, hrel, hnull, hjoin, htables, hindex⟩ :=
    Planner.makeOneRel_scans h.tables_ne h.tables h.conds
  have htabs : ∀ t ∈ rel.tables, ∃ tab, db.tabs t = some tab :=
    fun t ht => h.tables t ((htables t).mp ht)
  obtain ⟨selCols, hsel⟩ := projectedCols_ok h
  obtain ⟨er, her⟩ := convertPlan_ok rel htabs
  have hcomplete : ¬ Planner.IndexApplies db query.tables query.conds → er.Complete ∧
      ∃ cols, er.cols = .ok cols ∧
        ∀ t ∈ rel.tables, ∀ tab, db.tabs t = some tab → HasCols cols tab := by
    intro hnone
    refine convertPlan_complete hnull ?_ ?_ her
    · intro x hx
      cases htag : x.tag with
      | seqScan => rfl
      | indexScan => exact absurd (hindex.mp ⟨x, hx, htag⟩) hnone
    · exact fun t ht => (htabs t ht).imp fun tab htab => ⟨htab, hcols t tab htab⟩
  -- Below the projection.
  obtain ⟨e, he, hserved⟩ : ∃ e, convertPlanExecutor db
        (Planner.generateSortPlan query (.rel rel)) = .ok e ∧
      ((AnalyzedStmt.select query).IndexBelow db → ¬ e.Served) ∧
      (¬ (AnalyzedStmt.select query).IndexBelow db → e.Served ∧ e.Answers .cols) := by
    cases horder : query.orderBy with
    | none =>
      refine ⟨er, by simp [Planner.generateSortPlan, horder, convertPlanExecutor, her], ?_, ?_⟩
      · rintro ⟨hlen, happlies⟩
        have hlen : 2 ≤ query.tables.length := by simpa [horder] using hlen
        exact (convertPlan_index (hindex.mpr happlies) htabs her).2 (hjoin.mpr hlen)
      · intro hbelow
        by_cases happlies : Planner.IndexApplies db query.tables query.conds
        · -- A single scan is asked for nothing but its columns.
          have hscan : ¬ rel.IsJoin := fun hj => hbelow ⟨.inl (hjoin.mp hj), happlies⟩
          cases rel with
          | null => exact hnull.elim
          | scan x => exact convertPlan_scan htabs her
          | join left right conds => exact absurd trivial hscan
        · obtain ⟨hc, -⟩ := hcomplete happlies
          exact ⟨hc.served, hc.tupleLen.cols⟩
    | some orderBys =>
      refine ⟨.sort er orderBys,
        by simp [Planner.generateSortPlan, horder, convertPlanExecutor, her], ?_, ?_⟩
      · rintro ⟨-, happlies⟩ hserved
        obtain ⟨⟨err, herr⟩, -⟩ := convertPlan_index (hindex.mpr happlies) htabs her
        obtain ⟨_, _, _, _, hok⟩ := hserved (er, .tupleLen) (by simp [calls])
        cases herr.symm.trans hok
      · intro hbelow
        have hnone : ¬ Planner.IndexApplies db query.tables query.conds :=
          fun happlies => hbelow ⟨.inr (by simp [horder]), happlies⟩
        obtain ⟨hc, cols, hercols, hhas⟩ := hcomplete hnone
        refine ⟨served_sort hc hercols fun orderBy hmem => ?_, hc.tupleLen.cols⟩
        obtain ⟨t, ht, tab, htab, col, hcol, hsame⟩ := h.orderBy orderBys horder orderBy hmem
        obtain ⟨col', hmem', hsame'⟩ := hhas t ((htables t).mpr ht) tab htab col hcol
        rw [Projection.getCol, List.find?_isSome]
        exact ⟨col', hmem', by simp [hsame'.1, hsame'.2, hsame.1, hsame.2]⟩
  obtain ⟨e', he', hdown, hup⟩ := top_served query he selCols
  refine ⟨_, e', ?_, he', ?_, ?_⟩
  · simp [Planner.generateSelectPlan, hrel, hsel]
  · exact fun hs hbelow => hserved.1 hbelow (hdown hs)
  · exact fun hbelow => hup (hserved.2 hbelow).2 (hserved.2 hbelow).1

open Portal in
/-- The scan of an UPDATE or a DELETE. -/
theorem scanOf_served {db : Catalog} {tabName : String}
    (htabs : ∀ t ∈ [tabName], ∃ tab, db.tabs t = some tab) (conds : List JoinCondition) :
    ∃ x e, Planner.scanOf db tabName conds = .ok x ∧ convertPlan db (.scan x) = .ok e ∧
      e.Served := by
  obtain ⟨tab, htab⟩ := htabs tabName List.mem_cons_self
  obtain ⟨x, hx, hname⟩ : ∃ x, Planner.scanOf db tabName conds = .ok x ∧ x.tabName = tabName := by
    simp [Planner.scanOf, Analyze.getTable, htab]
  have htabs' : ∀ t ∈ (Plan.scan x).tables, ∃ tab, db.tabs t = some tab := by
    simpa [hname] using ⟨tab, htab⟩
  obtain ⟨e, he⟩ := convertPlan_ok (.scan x) htabs'
  exact ⟨x, e, hx, he, (convertPlan_scan htabs' he).1⟩

open Portal in
/-- Every statement that the analyzer accepts has a plan and executors for it, and these get right
answers from each other exactly when no index is used below a join or a sort. Every table has a
column, as the grammar of CREATE TABLE wants it. -/
theorem executors_served_iff {ν : Type}
    (convertSvValue : ν → TabColMeta → Except AnalyzeError Value) (db : Catalog)
    (hcols : ∀ t tab, db.tabs t = some tab → tab.cols ≠ []) (stmt : AstStmt ν)
    (analyzed : AnalyzedStmt) (h : Analyze.doAnalyze convertSvValue db stmt = .ok analyzed) :
    ∃ plan e, Planner.doPlanner db analyzed = .ok plan ∧ executorOf db plan = .ok e ∧
      (e.Served ↔ ¬ analyzed.IndexBelow db) := by
  cases stmt with
  | select x =>
    cases hquery : Analyze.analyzeSelect convertSvValue db x with
    | error e => simp [Analyze.doAnalyze, hquery] at h
    | ok query =>
      simp only [Analyze.doAnalyze, hquery, ok_bind, pure_eq_ok, Except.ok.injEq] at h
      subst h
      obtain ⟨plan, e, hplan, he, hiff⟩ := select_served_iff hcols (Analyze.analyzeSelect_ok hquery)
      exact ⟨.select plan, e, by simp [Planner.doPlanner, hplan], he, hiff⟩
  | update tabName setClauses conds =>
    simp only [Analyze.doAnalyze] at h
    cases hall : Analyze.getAllCols db [tabName] with
    | error e => simp [hall] at h
    | ok allCols =>
      cases hset : setClauses.mapM (Analyze.checkSetClause convertSvValue db tabName allCols) with
      | error e => simp [hall, hset] at h
      | ok vals =>
        cases hconds : Analyze.getCheckClause convertSvValue db [tabName] conds with
        | error e => simp [hall, hset, hconds] at h
        | ok checked =>
          simp only [hall, hset, hconds, ok_bind, pure_eq_ok, Except.ok.injEq] at h
          subst h
          obtain ⟨x, e, hx, he, hserved⟩ :=
            scanOf_served (Analyze.getCheckClause_ok hconds).1 checked
          exact ⟨.update x, e, by simp [Planner.doPlanner, hx], he, iff_of_true hserved id⟩
  | delete tabName conds =>
    simp only [Analyze.doAnalyze] at h
    cases hconds : Analyze.getCheckClause convertSvValue db [tabName] conds with
    | error e => simp [hconds] at h
    | ok checked =>
      simp only [hconds, ok_bind, pure_eq_ok, Except.ok.injEq] at h
      subst h
      obtain ⟨x, e, hx, he, hserved⟩ := scanOf_served (Analyze.getCheckClause_ok hconds).1 checked
      exact ⟨.delete x, e, by simp [Planner.doPlanner, hx], he, iff_of_true hserved id⟩

-- ---------------------------------------------------------------------------
-- One table
-- ---------------------------------------------------------------------------

namespace OneTable

/-- `t(a, b)`, both integers. -/
def tab (indexes : List (List String)) : TabMeta :=
  ⟨[⟨⟨"a", .int, 4, 0⟩, "t"⟩, ⟨⟨"b", .int, 4, 4⟩, "t"⟩], indexes⟩

def db (indexes : List (List String)) : Catalog where
  tabs t := if t = "t" then some (tab indexes) else none
  owned t tab' htab col hcol := by
    split at htab
    · rename_i ht
      cases htab
      simp only [tab, List.mem_cons, List.not_mem_nil, or_false] at hcol
      rcases hcol with rfl | rfl <;> exact ht.symm
    · cases htab

theorem cols_ne (indexes : List (List String)) (t : String) (tab' : TabMeta)
    (h : (db indexes).tabs t = some tab') : tab'.cols ≠ [] := by
  simp only [db] at h
  split at h
  · cases h
    exact List.cons_ne_nil _ _
  · cases h

/-- `SELECT * FROM t WHERE a = 1 ORDER BY b`. -/
def sorted : AstStmt Int :=
  .select ⟨[], ["t"], List.cons_ne_nil _ _, [⟨⟨"", "a"⟩, .eq, .inl 1⟩], some [(⟨"", "b"⟩, false)]⟩

def sortedQuery : SelectQuery where
  tables := ["t"]
  cols := [⟨⟨"t", "a"⟩, none, ""⟩, ⟨⟨"t", "b"⟩, none, ""⟩]
  conds := [⟨⟨"t", "a"⟩, .eq, true, ⟨"", ""⟩, some (.int 1)⟩]
  orderBy := some [(⟨"t", "b"⟩, false)]

theorem analyzed (indexes : List (List String)) :
    Analyze.doAnalyze TwoTables.convertSvValue (db indexes) sorted = .ok (.select sortedQuery) :=
  rfl

end OneTable

open Portal in
/-- The table has an index, but not on the column of the condition. -/
theorem executors_served_sorted : ∃ plan e,
    Planner.doPlanner (OneTable.db [["b"]]) (.select OneTable.sortedQuery) = .ok plan ∧
      executorOf (OneTable.db [["b"]]) plan = .ok e ∧ e.Served := by
  obtain ⟨plan, e, hplan, he, hiff⟩ := executors_served_iff TwoTables.convertSvValue
    (OneTable.db [["b"]]) (OneTable.cols_ne _) OneTable.sorted _ (OneTable.analyzed _)
  refine ⟨plan, e, hplan, he, hiff.mpr ?_⟩
  rintro ⟨-, t, ht, tab, htab, c, hc, -, -, index, hindex, hhead⟩
  obtain rfl : t = "t" := by simpa [OneTable.sortedQuery] using ht
  obtain rfl : OneTable.tab [["b"]] = tab := by simpa [OneTable.db] using htab
  obtain rfl : index = ["b"] := by simpa [OneTable.tab] using hindex
  simp only [OneTable.sortedQuery, List.mem_singleton] at hc
  subst hc
  simp at hhead

open Portal in
/-- With an index on `a` the sort asks the index scan for its length. -/
theorem index_breaks_sort : ∃ plan e,
    Planner.doPlanner (OneTable.db [["a"]]) (.select OneTable.sortedQuery) = .ok plan ∧
      executorOf (OneTable.db [["a"]]) plan = .ok e ∧
      (∃ child, (child, .tupleLen) ∈ e.calls ∧ child.tupleLen = .error .unreachableCode) ∧
      ¬ e.Served := by
  have hcall : (Executor.indexScan (OneTable.tab [["a"]]).cols, ExecutorCall.tupleLen) ∈
      Executor.calls (.projection (.sort (.indexScan (OneTable.tab [["a"]]).cols)
        [(⟨"t", "b"⟩, false)]) [⟨"t", "a"⟩, ⟨"t", "b"⟩]) :=
    List.mem_cons_of_mem _ List.mem_cons_self
  refine ⟨_, _, rfl, rfl, ⟨_, hcall, rfl⟩, fun hserved => ?_⟩
  obtain ⟨_, _, _, _, hok⟩ := hserved _ hcall
  cases hok

end Rmdb
