-- SUMMARY: The analyzer's check of a WHERE clause, and what it promises about the conditions it accepts.
import Rmdb.Common.Condition

/-!
# Checking a WHERE clause

`Analyze::get_check_clause` with `check_column` and `get_all_cols`. How a literal becomes a value
of a column is a parameter: the planner only needs to know that it succeeded.
-/

namespace Rmdb

inductive AnalyzeError where
  | tableNotFound (t : String)
  | columnNotFound (c : String)
  | ambiguousColumn (c : String)
  | castType (lhs rhs : ColType)
  | value
  deriving DecidableEq, Repr

/-- `ast::BinaryExpr`: a column against a literal or another column. -/
structure BinaryExpr (ν : Type) where
  lhs : TabCol
  op : CompOp
  rhs : ν ⊕ TabCol

namespace Analyze

/-- `DbMeta::get_table`. -/
def getTable (db : Catalog) (t : String) : Except AnalyzeError TabMeta :=
  match db.tabs t with
  | some tab => .ok tab
  | none => .error (.tableNotFound t)

/-- `TabMeta::get_col`. -/
def getCol (tab : TabMeta) (name : String) : Except AnalyzeError TabColMeta :=
  match tab.cols.find? fun col => col.name == name with
  | some col => .ok col
  | none => .error (.columnNotFound name)

def getAllCols (db : Catalog) : List String → Except AnalyzeError (List TabColMeta)
  | [] => .ok []
  | t :: ts => do
    let tab ← getTable db t
    let rest ← getAllCols db ts
    return tab.cols ++ rest

/-- The loop of `check_column` that infers the table of a column. -/
def inferTable (colName : String) : List TabColMeta → String → Except AnalyzeError String
  | [], tabName => .ok tabName
  | col :: cols, tabName =>
    if col.name = colName then
      if tabName ≠ "" then .error (.ambiguousColumn colName)
      else inferTable colName cols col.tabName
    else inferTable colName cols tabName

def checkColumn (allCols : List TabColMeta) (target : TabCol) : Except AnalyzeError TabCol :=
  if target.tabName = "" then do
    let tabName ← inferTable target.colName allCols ""
    if tabName = "" then .error (.columnNotFound target.colName)
    else return { target with tabName := tabName }
  else if allCols.any fun col => col.tabName = target.tabName ∧ col.name = target.colName then
    .ok target
  else .error (.columnNotFound target.colName)

def typeCompatible (type1 type2 : ColType) : Bool :=
  ((type1 = .int ∨ type1 = .float ∨ type1 = .bigint) ∧
      (type2 = .int ∨ type2 = .float ∨ type2 = .bigint)) ∨
    ((type1 = .string ∨ type1 = .datetime) ∧ (type2 = .string ∨ type2 = .datetime))

variable {ν : Type} (convertSvValue : ν → TabColMeta → Except AnalyzeError Value)

/-- One condition of `get_check_clause`. -/
def checkCond (db : Catalog) (allCols : List TabColMeta) (expr : BinaryExpr ν) :
    Except AnalyzeError JoinCondition := do
  let lhs ← checkColumn allCols expr.lhs
  let lhsTab ← getTable db lhs.tabName
  let lhsCol ← getCol lhsTab lhs.colName
  match expr.rhs with
  | .inl v =>
    let val ← convertSvValue v lhsCol
    return ⟨lhs, expr.op, true, ⟨"", ""⟩, some val⟩
  | .inr col =>
    let rhs ← checkColumn allCols col
    let rhsTab ← getTable db rhs.tabName
    let rhsCol ← getCol rhsTab rhs.colName
    if typeCompatible lhsCol.type rhsCol.type then return ⟨lhs, expr.op, false, rhs, none⟩
    else .error (.castType lhsCol.type rhsCol.type)

def getCheckClause (db : Catalog) (tabNames : List String) (svConds : List (BinaryExpr ν)) :
    Except AnalyzeError (List JoinCondition) := do
  let allCols ← getAllCols db tabNames
  svConds.mapM (checkCond convertSvValue db allCols)

-- ---------------------------------------------------------------------------
-- What an accepted clause is like
-- ---------------------------------------------------------------------------

variable {convertSvValue : ν → TabColMeta → Except AnalyzeError Value}
  {db : Catalog} {tables : List String} {allCols : List TabColMeta}

/-- The columns of a condition belong to tables of the FROM list. -/
structure Accepted (tables : List String) (c : JoinCondition) : Prop where
  lhs_named : c.lhsCol.tabName ≠ ""
  lhs : c.lhsCol.tabName ∈ tables
  literal : c.isRhsVal = true → c.rhsCol.tabName = ""
  rhs_named : c.isRhsVal = false → c.rhsCol.tabName ≠ ""
  rhs : c.isRhsVal = false → c.rhsCol.tabName ∈ tables

theorem getAllCols_ok (h : getAllCols db tables = .ok allCols) :
    (∀ t ∈ tables, ∃ tab, db.tabs t = some tab) ∧ ∀ col ∈ allCols, col.tabName ∈ tables := by
  induction tables generalizing allCols with
  | nil =>
    cases h
    simp
  | cons t ts ih =>
    simp only [getAllCols, getTable] at h
    cases htab : db.tabs t with
    | none => simp [htab] at h
    | some tab =>
      cases hrest : getAllCols db ts with
      | error e => simp [htab, hrest] at h
      | ok rest =>
        simp only [htab, hrest, ok_bind, pure_eq_ok, Except.ok.injEq] at h
        subst h
        obtain ⟨htabs, hcols⟩ := ih hrest
        refine ⟨List.forall_mem_cons.mpr ⟨⟨tab, htab⟩, htabs⟩, ?_⟩
        intro col hcol
        rcases List.mem_append.mp hcol with hcol | hcol
        · rw [db.owned t tab htab col hcol]
          exact List.mem_cons_self
        · exact List.mem_cons_of_mem _ (hcols col hcol)

/-- All columns of the tables are in the list, and no others. -/
theorem mem_getAllCols (h : getAllCols db tables = .ok allCols) (col : TabColMeta) :
    col ∈ allCols ↔ ∃ t ∈ tables, ∃ tab, db.tabs t = some tab ∧ col ∈ tab.cols := by
  induction tables generalizing allCols with
  | nil =>
    cases h
    simp
  | cons t ts ih =>
    simp only [getAllCols, getTable] at h
    cases htab : db.tabs t with
    | none => simp [htab] at h
    | some tab =>
      cases hrest : getAllCols db ts with
      | error e => simp [htab, hrest] at h
      | ok rest =>
        simp only [htab, hrest, ok_bind, pure_eq_ok, Except.ok.injEq] at h
        subst h
        simp [ih hrest, htab]

theorem inferTable_ok {colName : String} {cols : List TabColMeta} {acc t : String}
    (h : inferTable colName cols acc = .ok t) :
    t = acc ∨ ∃ col ∈ cols, col.tabName = t ∧ col.name = colName := by
  induction cols generalizing acc with
  | nil =>
    cases h
    exact .inl rfl
  | cons col cols ih =>
    have hcons : t = acc ∨ (t = col.tabName ∧ col.name = colName) ∨
        ∃ col ∈ cols, col.tabName = t ∧ col.name = colName := by
      simp only [inferTable] at h
      split at h
      · rename_i hname
        split at h
        · cases h
        · exact .inr ((ih h).imp_left fun ht => ⟨ht, hname⟩)
      · exact (ih h).imp_right .inr
    rcases hcons with hacc | ⟨hcol, hname⟩ | ⟨col', hmem, hcol'⟩
    · exact .inl hacc
    · exact .inr ⟨col, List.mem_cons_self, hcol.symm, hname⟩
    · exact .inr ⟨col', List.mem_cons_of_mem _ hmem, hcol'⟩

theorem checkColumn_ok {target col : TabCol} (h : checkColumn allCols target = .ok col) :
    col.tabName ≠ "" ∧ ∃ c ∈ allCols, c.tabName = col.tabName ∧ c.name = col.colName := by
  simp only [checkColumn] at h
  split at h
  · cases hinfer : inferTable target.colName allCols "" with
    | error e => simp [hinfer] at h
    | ok t =>
      simp only [hinfer, ok_bind] at h
      split at h
      · cases h
      · rename_i hne
        cases h
        exact ⟨hne, (inferTable_ok hinfer).resolve_left hne⟩
  · rename_i hne
    split at h
    · rename_i hany
      cases h
      obtain ⟨c, hc, hcol⟩ := List.any_eq_true.mp hany
      exact ⟨hne, c, hc, of_decide_eq_true hcol⟩
    · cases h

theorem checkCond_ok (hcols : ∀ col ∈ allCols, col.tabName ∈ tables) {expr : BinaryExpr ν}
    {c : JoinCondition} (h : checkCond convertSvValue db allCols expr = .ok c) :
    Accepted tables c := by
  simp only [checkCond] at h
  cases hlhs : checkColumn allCols expr.lhs with
  | error e => simp [hlhs] at h
  | ok lhs =>
    obtain ⟨hnamed, lcol, hmem, hlcol, -⟩ := checkColumn_ok hlhs
    have hin : lhs.tabName ∈ tables := hlcol ▸ hcols lcol hmem
    simp only [hlhs, ok_bind] at h
    cases htab : getTable db lhs.tabName with
    | error e => simp [htab] at h
    | ok tab =>
      simp only [htab, ok_bind] at h
      cases hcol : getCol tab lhs.colName with
      | error e => simp [hcol] at h
      | ok col =>
        simp only [hcol, ok_bind] at h
        cases hexpr : expr.rhs with
        | inl v =>
          simp only [hexpr] at h
          cases hval : convertSvValue v col with
          | error e => simp [hval] at h
          | ok val =>
            simp only [hval, ok_bind, pure_eq_ok, Except.ok.injEq] at h
            subst h
            exact ⟨hnamed, hin, fun _ => rfl, fun hc => (nomatch hc), fun hc => (nomatch hc)⟩
        | inr target =>
          simp only [hexpr] at h
          cases hrhs : checkColumn allCols target with
          | error e => simp [hrhs] at h
          | ok rhs =>
            obtain ⟨hrnamed, rcol, hrmem, hrcol, -⟩ := checkColumn_ok hrhs
            have hrin : rhs.tabName ∈ tables := hrcol ▸ hcols rcol hrmem
            simp only [hrhs, ok_bind] at h
            cases hrtab : getTable db rhs.tabName with
            | error e => simp [hrtab] at h
            | ok rtab =>
              simp only [hrtab, ok_bind] at h
              cases hrc : getCol rtab rhs.colName with
              | error e => simp [hrc] at h
              | ok rc =>
                simp only [hrc, ok_bind] at h
                split at h
                · cases h
                  exact ⟨hnamed, hin, fun hv => (nomatch hv), fun _ => hrnamed, fun _ => hrin⟩
                · cases h

/-- What a loop has collected comes from what it went through. -/
theorem mapM_ok_mem {ε α β : Type} {f : α → Except ε β} {l : List α} {l' : List β}
    (h : l.mapM f = .ok l') : ∀ b ∈ l', ∃ a ∈ l, f a = .ok b := by
  induction l generalizing l' with
  | nil =>
    cases h
    simp
  | cons a l ih =>
    rw [List.mapM_cons] at h
    cases ha : f a with
    | error e => simp [ha] at h
    | ok b =>
      cases hl : l.mapM f with
      | error e => simp [ha, hl] at h
      | ok bs =>
        simp only [ha, hl, ok_bind, pure_eq_ok, Except.ok.injEq] at h
        subst h
        refine List.forall_mem_cons.mpr ⟨⟨a, List.mem_cons_self, ha⟩, fun b' hb' => ?_⟩
        obtain ⟨a', ha', hf⟩ := ih hl b' hb'
        exact ⟨a', List.mem_cons_of_mem _ ha', hf⟩

theorem getCheckClause_ok {svConds : List (BinaryExpr ν)} {conds : List JoinCondition}
    (h : getCheckClause convertSvValue db tables svConds = .ok conds) :
    (∀ t ∈ tables, ∃ tab, db.tabs t = some tab) ∧ ∀ c ∈ conds, Accepted tables c := by
  cases hcols : getAllCols db tables with
  | error e => simp [getCheckClause, hcols] at h
  | ok allCols =>
    obtain ⟨htabs, hcol⟩ := getAllCols_ok hcols
    refine ⟨htabs, fun c hc => ?_⟩
    simp only [getCheckClause, hcols, ok_bind] at h
    obtain ⟨expr, -, hexpr⟩ := mapM_ok_mem h c hc
    exact checkCond_ok hcol hexpr

end Analyze

end Rmdb
