-- SUMMARY: LIMIT: how it gets to the sort, and for which statements the rows are the first ones of the whole result.
import Rmdb.Common.Literal
import Rmdb.Execution.AggExecutor
import Rmdb.Execution.ExternalSort
import Rmdb.Execution.Pass
import Rmdb.Execution.SortOrder

/-!
# LIMIT

The limit of a SELECT goes through `get_limit_clause` and `generate_sort_plan` into the `SortExecutor`,
which counts the tuples that it has given with `curr_read_idx_`. No other executor knows of it. So
there is no limit without an ORDER BY, and `curr_read_idx_` starts anew with every block of the sort,
so there is none beyond the size of a block either.

The executors of the scans and the joins are parameters here.
-/

namespace Rmdb

-- ---------------------------------------------------------------------------
-- The executors of a SELECT
-- ---------------------------------------------------------------------------

/-- `get_limit_clause` on an integer literal; `none` is `IntOverflowError`. -/
def Analyze.getLimitClause (text : List Char) : Option Int :=
  if noOverflowInt text then stoi text else none

/-- `limit_num` of `generate_sort_plan`. -/
def Planner.limitNum : Option (List Char) → Option Int
  | none => some (-1)
  | some text => Analyze.getLimitClause text

/-- What the executors of a SELECT are built with: the executors of the scans and the joins, the clock
and the sort of the library, the files, the bytes behind a tuple in a buffer of the sort, and what a
member that is not set holds. -/
structure SelectEnv (σ : Type) where
  relExecutor : Plan → Option (AbstractExecutor σ)
  getTime : Nat → String
  stdSort : StdSort RmRecord
  disk : TmpDisk RmRecord
  behind : RmRecord → List UInt8
  uninit : Value
  fuel : Nat

/-- What a `SortExecutor` with these columns uses. -/
def SelectEnv.sortEnv {σ : Type} (env : SelectEnv σ) (cols : List (ColMeta × Bool)) : SortEnv RmRecord where
  cmpRecord := cmpRecord cols
  cmpRawData a b := cmpRawData cols (a ++ env.behind a) (b ++ env.behind b)
  getTime := env.getTime
  stdSort := env.stdSort

/-- A `SortExecutor` behind its constructor. -/
def SortExecutor.executor {σ : Type} (prev : AbstractExecutor σ) (limitNum : Int) (ex : SortExecutor RmRecord) :
    AbstractExecutor (SortExecutor RmRecord) where
  toCursor := SortExecutor.cursor limitNum
  cols := prev.cols
  tupleLen := prev.tupleLen
  initial := ex

namespace SelectPlan

/-- The state of the executors of a plan, above those of the scans and the joins. -/
def State (σ : Type) : SelectPlan → Type
  | rel _ => σ
  | sort _ _ => SortExecutor RmRecord
  | projection sub _ => Projection (sub.State σ)
  | agg sub _ => AggExecutor (sub.State σ)

variable {σ : Type} (env : SelectEnv σ)

/-- The columns of the sort. `get_col_offset` looks at the table as well. -/
def sortCols (cols : List TabColMeta) (orderBys : List (TabCol × Bool)) : Option (List (ColMeta × Bool)) :=
  orderBys.mapM fun (target, isDesc) =>
    (Projection.getCol cols target).map fun col => (col.toColMeta, isDesc)

/-- The function of an `AggExecutor`, and `prev_col_`: the first column of the child, however many there are. The
grammar takes aggregates only or columns only, and no empty table. -/
def aggColumn (cols : List TabColMeta) (selCol : SelCol) : Option (AggType × ColMeta) := do
  let type ← selCol.agg
  let col ← cols.head?
  return (type, col.toColMeta)

/-- `convert_plan_executor`. -/
def executor (limitNum : Int) : (plan : SelectPlan) → Option (AbstractExecutor (plan.State σ))
  | rel plan => env.relExecutor plan
  | sort sub orderBys => do
    let prev ← executor limitNum sub
    let cols ← sortCols prev.cols orderBys
    let ex ← SortExecutor.new (env.sortEnv cols) prev.toCursor env.fuel prev.initial env.disk
    return SortExecutor.executor prev limitNum ex
  | projection sub selCols => do
    let prev ← executor limitNum sub
    let cols ← Projection.select prev.cols selCols 0
    return Projection.executor prev cols
  | agg sub selCol => do
    let prev ← executor limitNum sub
    let (type, col) ← aggColumn prev.cols selCol
    return AggExecutor.executor prev col type selCol env.uninit env.fuel

/-- `select_from` gets these rows. -/
def Returns (limitNum : Int) (plan : SelectPlan) (rows : List RmRecord) : Prop :=
  ∃ ex, plan.executor env limitNum = some ex ∧ ex.Runs ex.initial rows

/-- The plan without its aggregate. -/
def tuples : SelectPlan → SelectPlan
  | agg sub _ => sub
  | plan => plan

/-- The row that an aggregate makes of tuples with these columns. -/
def aggregateOf (cols : List TabColMeta) (selCol : SelCol) (rows : List RmRecord) : Option RmRecord := do
  let (type, col) ← aggColumn cols selCol
  AggExecutor.resultRow col type (AggExecutor.len cols col) env.uninit rows

/-- The row that the aggregate of a plan makes of these tuples. -/
def aggregate (plan : SelectPlan) (rows : List RmRecord) : Option RmRecord :=
  match plan with
  | agg sub selCol => do
    let prev ← sub.executor env (-1)
    aggregateOf env prev.cols selCol rows
  | _ => none

end SelectPlan

/-- A SELECT with this limit is analyzed, planned and run, and returns these rows. -/
def Answers {σ ν : Type} (convertSvValue : ν → TabColMeta → Except AnalyzeError Value) (env : SelectEnv σ)
    (db : Catalog) (x : SelectStmt ν) (limit : Option (List Char)) (rows : List RmRecord) : Prop :=
  ∃ query limitNum plan, Analyze.analyzeSelect convertSvValue db x = .ok query ∧
    Planner.limitNum limit = some limitNum ∧ Planner.generateSelectPlan db query = .ok plan ∧
    plan.Returns env limitNum rows

-- ---------------------------------------------------------------------------
-- The sort
-- ---------------------------------------------------------------------------

namespace SortExecutor

variable {α : Type} {s s' ex : SortExecutor α} {l out : List α} {n : Nat}

/-- Without a limit that is reached, a step is the one without a limit. -/
theorem nextTuple_eq {limitNum : Int} (h : ¬ (limitNum > 0 ∧ (s.currReadIdx : Int) + 1 = limitNum)) :
    nextTuple limitNum s = nextTuple (-1) s := by
  have h' : ¬ (limitNum > 0 ∧ ((s.currReadIdx + 1 : Nat) : Int) = limitNum) := h
  have hnone : ¬ ((-1 : Int) > 0 ∧ ((s.currReadIdx + 1 : Nat) : Int) = -1) := by omega
  simp only [nextTuple, h', hnone, if_false]

/-- A block in the buffer, and a position in it. -/
structure InBlock (s : SortExecutor α) : Prop where
  isEnd : s.isEnd = false
  inBuffer : s.currReadIdx < s.buffer0.length
  short : s.buffer0.length ≤ tupleNumPerStep

theorem read_length {f f' : TupleBufFile} {buf : List α} {d : TmpDisk α}
    (h : f.read tupleNumPerStep d = some (buf, f')) : 0 < buf.length ∧ buf.length ≤ tupleNumPerStep := by
  simp only [TupleBufFile.read, Option.bind_eq_bind, Option.bind_eq_some_iff] at h
  obtain ⟨offset, -, content, -, h⟩ := h
  split at h
  · cases h
  · rename_i hne
    cases h
    rw [List.isEmpty_iff] at hne
    exact ⟨List.length_pos_iff.mpr hne, List.length_take_le _ _⟩

/-- Behind a block that is not full there is nothing to read. -/
theorem read_again {f f' : TupleBufFile} {buf : List α} {d : TmpDisk α}
    (h : f.read tupleNumPerStep d = some (buf, f')) (hshort : buf.length ≠ tupleNumPerStep) :
    f'.read tupleNumPerStep d = none := by
  simp only [TupleBufFile.read, Option.bind_eq_bind, Option.bind_eq_some_iff] at h
  obtain ⟨offset, hfd, content, hcontent, h⟩ := h
  split at h
  · cases h
  · cases h
    simp only [List.length_take, List.length_drop] at hshort
    have hdrop : content.drop (offset + min tupleNumPerStep (content.length - offset)) = [] :=
      List.drop_eq_nil_iff.mpr (by omega)
    simp only [TupleBufFile.read, hcontent, List.length_take, List.length_drop, hdrop, List.take_nil,
      List.isEmpty_nil, if_true, Option.bind_eq_bind, Option.bind_some]

theorem InBlock.next (h : InBlock s) (hnext : nextTuple (-1) s = some s') :
    s'.isEnd = true ∨ InBlock s' := by
  have hnone : ¬ ((-1 : Int) > 0 ∧ ((s.currReadIdx + 1 : Nat) : Int) = -1) := by omega
  simp only [nextTuple, hnone, if_false] at hnext
  split at hnext
  · simp only [Option.bind_eq_bind, Option.bind_eq_some_iff] at hnext
    obtain ⟨f, -, hnext⟩ := hnext
    split at hnext
    · cases hnext
      exact .inl rfl
    · simp only [Option.bind_eq_some_iff] at hnext
      obtain ⟨⟨buf, f'⟩, hread, heq⟩ := hnext
      cases heq
      obtain ⟨hpos, hle⟩ := read_length hread
      exact .inr ⟨h.isEnd, hpos, hle⟩
  · rename_i hne
    cases hnext
    have hlt := h.inBuffer
    exact .inr ⟨h.isEnd, by dsimp only at *; omega, h.short⟩

/-- A limit larger than a block is never reached. -/
theorem InBlock.yields [Inhabited α] (h : InBlock s) (hn : tupleNumPerStep < n)
    (hs : (cursor (-1)).Yields s l) : (cursor n).Yields s l := by
  induction hs with
  | done hend => exact .done hend
  | @tuple s s' l hend hnext hrest ih =>
    have hlt := h.inBuffer
    have hle := h.short
    have hstep : (cursor n).next s = some s' := (nextTuple_eq (by omega)).trans hnext
    refine .tuple hend hstep ?_
    rcases h.next hnext with hend' | hblock
    · cases hrest with
      | done _ => exact .done hend'
      | tuple hnot _ _ => exact absurd (hnot.symm.trans hend') (by decide)
    · exact ih hblock

/-- The first block. It is full, or there is nothing behind it. -/
structure FirstBlock (s : SortExecutor α) : Prop extends InBlock s where
  last : s.buffer0.length = tupleNumPerStep ∨
    ∀ f, s.resFile = some f → f.read tupleNumPerStep s.disk = none

theorem FirstBlock.next (h : FirstBlock s) (hidx : s.currReadIdx + 1 < tupleNumPerStep)
    (hnext : nextTuple (-1) s = some s') :
    s'.isEnd = true ∨ FirstBlock s' ∧ s'.currReadIdx = s.currReadIdx + 1 := by
  have hnone : ¬ ((-1 : Int) > 0 ∧ ((s.currReadIdx + 1 : Nat) : Int) = -1) := by omega
  simp only [nextTuple, hnone, if_false] at hnext
  split at hnext
  · rename_i hlast
    simp only [Option.bind_eq_bind, Option.bind_eq_some_iff] at hnext
    obtain ⟨f, hfile, hnext⟩ := hnext
    split at hnext
    · cases hnext
      exact .inl rfl
    · -- The block is not full, so there is nothing to read.
      have hread := h.last.resolve_left (by omega) f hfile
      rw [hread] at hnext
      cases hnext
  · rename_i hne
    cases hnext
    have hlt := h.inBuffer
    exact .inr ⟨⟨⟨h.isEnd, by dsimp only at *; omega, h.short⟩, h.last⟩, rfl⟩

/-- A limit up to the size of a block ends the tuples in the first block. -/
theorem FirstBlock.yields [Inhabited α] (h : FirstBlock s) (hn : n ≤ tupleNumPerStep)
    (hidx : s.currReadIdx < n) (hs : (cursor (-1)).Yields s l) :
    (cursor n).Yields s (l.take (n - s.currReadIdx)) := by
  induction hs with
  | done hend =>
    rw [List.take_nil]
    exact .done hend
  | @tuple s s' l hend hnext hrest ih =>
    obtain ⟨k, hk⟩ : ∃ k, n - s.currReadIdx = k + 1 := ⟨n - s.currReadIdx - 1, by omega⟩
    rw [hk, List.take_succ_cons]
    by_cases hlast : s.currReadIdx + 1 = n
    · obtain rfl : k = 0 := by omega
      have hlimit : (n : Int) > 0 ∧ ((s.currReadIdx + 1 : Nat) : Int) = n := by omega
      have hstep : (cursor n).next s = some { s with currReadIdx := s.currReadIdx + 1, isEnd := true } :=
        if_pos hlimit
      rw [List.take_zero]
      exact .tuple hend hstep (.done rfl)
    · have hstep : (cursor n).next s = some s' := (nextTuple_eq (by omega)).trans hnext
      refine .tuple hend hstep ?_
      rcases h.next (by omega) hnext with hend' | ⟨hfirst, hidx'⟩
      · cases hrest with
        | done _ =>
          rw [List.take_nil]
          exact .done hend'
        | tuple hnot _ _ => exact absurd (hnot.symm.trans hend') (by decide)
      · have hyields := ih hfirst (by omega)
        rwa [show n - s'.currReadIdx = k by omega] at hyields

/-- `beginTuple` reads the first block. -/
theorem beginTuple_first {limitNum : Int} (hend : ex.isEnd = false) (hbegin : beginTuple limitNum ex = some s) :
    s.isEnd = true ∧ s.buffer0 = ex.buffer0 ∨ FirstBlock s ∧ s.currReadIdx = 0 := by
  simp only [beginTuple] at hbegin
  split at hbegin
  · cases hbegin
    exact .inl ⟨rfl, rfl⟩
  · split at hbegin
    · cases hbegin
      exact .inl ⟨rfl, rfl⟩
    · simp only [Option.bind_eq_bind, Option.bind_eq_some_iff] at hbegin
      obtain ⟨f, hopen, ⟨buf, f'⟩, hread, heq⟩ := hbegin
      cases heq
      obtain ⟨hpos, hle⟩ := read_length hread
      refine .inr ⟨⟨⟨hend, hpos, hle⟩, ?_⟩, rfl⟩
      by_cases hfull : buf.length = tupleNumPerStep
      · exact .inl hfull
      · refine .inr fun f hf => ?_
        cases hf
        exact read_again hread hfull

/-- What a limit makes of a sort: nothing if it is larger than a block. -/
theorem runs_limit [Inhabited α] (hend : ex.isEnd = false) (h : (cursor (-1)).Runs ex out) (n : Nat) :
    (cursor n).Runs ex (if n ≤ tupleNumPerStep then out.take n else out) := by
  obtain ⟨s, hbegin, hyields⟩ := h
  by_cases hzero : n = 0
  · subst hzero
    have hbegin' : (@cursor α _ (0 : Nat)).begin ex = some { ex with currReadIdx := 0, isEnd := true } := by
      simp only [cursor, beginTuple]
      split <;> rfl
    exact ⟨_, hbegin', .done rfl⟩
  · have hbegin' : (cursor n).begin ex = some s := by
      rw [← hbegin]
      simp only [cursor, beginTuple, hzero, Int.natCast_eq_zero, if_false]
      rfl
    refine ⟨s, hbegin', ?_⟩
    rcases beginTuple_first hend hbegin with ⟨hdone, -⟩ | ⟨hfirst, hidx⟩
    · cases hyields with
      | done _ =>
        rw [List.take_nil, ite_self]
        exact .done hdone
      | tuple hnot _ _ => exact absurd (hnot.symm.trans hdone) (by decide)
    · split
      · rename_i hn
        have hlimited := hfirst.yields hn (by omega) hyields
        rwa [hidx, Nat.sub_zero] at hlimited
      · exact hfirst.toInBlock.yields (by omega) hyields

theorem new_initial {σ : Type} {env : SortEnv α} {prev : Cursor σ α} {fuel : Nat} {t : σ} {d : TmpDisk α}
    (h : new env prev fuel t d = some ex) : ex.isEnd = false ∧ ex.buffer0 = [] := by
  simp only [new, Option.bind_eq_bind, Option.bind_eq_some_iff] at h
  obtain ⟨_, -, _, -, _, -, _, -, heq⟩ := h
  cases heq
  exact ⟨rfl, rfl⟩

/-- A sort that has just been made stays at its end if it has no tuples. -/
theorem quietEnd {ex : SortExecutor RmRecord} {out : List RmRecord} (hend : ex.isEnd = false)
    (hbuffer : ex.buffer0 = []) {limitNum : Int} (h : (cursor limitNum).Runs ex out) :
    AggExecutor.QuietEnd (cursor limitNum) ex out := by
  rintro rfl s hbegin
  obtain ⟨s', hbegin', hyields⟩ := h
  obtain rfl := Option.some.inj (hbegin.symm.trans hbegin')
  rcases beginTuple_first hend hbegin with ⟨hdone, hempty⟩ | ⟨hfirst, -⟩
  · have hne : s.currReadIdx + 1 ≠ s.buffer0.length := by
      rw [hempty, hbuffer]
      exact Nat.succ_ne_zero _
    simp only [cursor, nextTuple, hne, if_false]
    split
    · exact ⟨_, rfl, rfl⟩
    · exact ⟨_, rfl, hdone⟩
  · cases hyields with
    | done hdone => exact absurd (hfirst.isEnd.symm.trans hdone) (by decide)

end SortExecutor

-- ---------------------------------------------------------------------------
-- The projection
-- ---------------------------------------------------------------------------

namespace Projection

variable {σ : Type} {prev : AbstractExecutor σ} {prevCols : List TabColMeta} {selCols : List TabCol}
  {cols : List (TabColMeta × TabColMeta)} {s : Projection σ} {rows : List RmRecord}

theorem yields_prev (h : (executor prev cols).Yields s rows) : ∃ rs, prev.Yields s.prev rs := by
  induction h with
  | done hend => exact ⟨[], .done hend⟩
  | tuple hend hnext _ ih =>
    obtain ⟨p, hp, rfl⟩ := Option.map_eq_some_iff.mp hnext
    obtain ⟨rs, hrs⟩ := ih
    exact ⟨_, .tuple hend hp hrs⟩

/-- What a projection yields are projections of what its child yields. -/
theorem runs_prev (hselect : select prevCols selCols 0 = some cols) (h : (executor prev cols).Runs s rows) :
    ∃ rs, prev.Runs s.prev rs ∧ rows = rs.map (project cols) := by
  obtain ⟨s', hbegin, hyields⟩ := h
  obtain ⟨p, hp, rfl⟩ := Option.map_eq_some_iff.mp hbegin
  obtain ⟨rs, hrs⟩ := yields_prev hyields
  exact ⟨rs, ⟨p, hp, hrs⟩, hyields.unique (yields hselect hrs s.data)⟩

theorem quietEnd {rs : List RmRecord} (h : AggExecutor.QuietEnd prev.toCursor s.prev rs) :
    AggExecutor.QuietEnd (executor prev cols).toCursor s (rs.map (project cols)) := by
  intro hnil s' hbegin
  obtain ⟨p, hp, rfl⟩ := Option.map_eq_some_iff.mp hbegin
  obtain ⟨p', hnext, hend⟩ := h (List.map_eq_nil_iff.mp hnil) p hp
  exact ⟨load prev cols p' (load prev cols p s.data).data, by simp only [executor, load, hnext, Option.map_some],
    hend⟩

end Projection

/-- Whatever an aggregate is computed from, it is one row. -/
theorem AggExecutor.runs_one {σ : Type} {prev : AbstractExecutor σ} {col : ColMeta} {type : AggType}
    {selCol : SelCol} {uninit : Value} {fuel : Nat} {out : List RmRecord}
    (h : (executor prev col type selCol uninit fuel).Runs ⟨prev.initial, uninit, false⟩ out) :
    out.length = 1 := by
  obtain ⟨s, hbegin, hyields⟩ := h
  simp only [executor, beginTuple, Option.bind_eq_bind, Option.bind_eq_some_iff] at hbegin
  obtain ⟨⟨p, res⟩, -, hbegin⟩ := hbegin
  split at hbegin
  · cases hbegin
    cases hyields with
    | done hend => cases hend
    | tuple _ hnext hrest =>
      obtain ⟨r, -, hnext⟩ := Option.bind_eq_some_iff.mp hnext
      split at hnext
      · cases hnext
        cases hrest with
        | done _ => rfl
        | tuple hend _ _ => cases hend
      · cases hnext
  · cases hbegin

-- ---------------------------------------------------------------------------
-- Statements
-- ---------------------------------------------------------------------------

section Analyze

open Analyze

/-- A loop that keeps a property of its elements. -/
theorem mapM_ok_any {ε α β : Type} {f : α → Except ε β} {p : α → Bool} {q : β → Bool}
    (hf : ∀ a b, f a = .ok b → q b = p a) {l : List α} {l' : List β} (h : l.mapM f = .ok l') :
    l'.any q = l.any p := by
  induction l generalizing l' with
  | nil =>
    cases h
    rfl
  | cons a l ih =>
    rw [List.mapM_cons] at h
    cases ha : f a with
    | error e => simp [ha] at h
    | ok b =>
      cases hl : l.mapM f with
      | error e => simp [ha, hl] at h
      | ok bs =>
        simp only [ha, hl, ok_bind, pure_eq_ok, Except.ok.injEq] at h
        subst h
        rw [List.any_cons, List.any_cons, hf a b ha, ih hl]

theorem checkSelCol_agg {allCols : List TabColMeta} {col col' : SelCol}
    (h : checkSelCol allCols col = .ok col') : col'.agg = col.agg := by
  unfold checkSelCol at h
  split at h
  · cases hinfer : inferTable col.colName allCols "" with
    | error e => simp [hinfer] at h
    | ok tabName =>
      simp only [hinfer, ok_bind] at h
      split at h
      · cases h
      · cases h
        rfl
  · split at h
    · cases h
      rfl
    · cases h

theorem checkSelCols_agg {allCols : List TabColMeta} {cols cols' : List SelCol}
    (h : checkSelCols allCols cols = .ok cols') :
    cols'.any (·.agg.isSome) = cols.any (·.agg.isSome) := by
  unfold checkSelCols at h
  split at h
  · rename_i hempty
    cases h
    rw [List.isEmpty_iff.mp hempty]
    simp
  · have hkept := mapM_ok_any (q := fun col => col.agg.isSome)
      (fun a b hab => congrArg Option.isSome (checkSelCol_agg hab)) h
    rw [hkept, List.any_map]
    refine congrArg _ (funext fun col => ?_)
    simp only [Function.comp_apply, nameCount]
    split <;> rfl

/-- The analyzer keeps the aggregates of a statement, and whether it has an ORDER BY. -/
theorem analyzeSelect_kept {ν : Type} {convertSvValue : ν → TabColMeta → Except AnalyzeError Value}
    {db : Catalog} {x : SelectStmt ν} {query : SelectQuery}
    (h : analyzeSelect convertSvValue db x = .ok query) :
    query.cols.any (·.agg.isSome) = x.cols.any (·.agg.isSome) ∧
      (query.orderBy = none ↔ x.orderBys = none) := by
  unfold analyzeSelect at h
  cases hall : getAllCols db x.tabs with
  | error e => simp [hall] at h
  | ok allCols =>
    cases hcols : checkSelCols allCols x.cols with
    | error e => simp [hall, hcols] at h
    | ok cols =>
      cases hconds : getCheckClause convertSvValue db x.tabs x.conds with
      | error e => simp [hall, hcols, hconds] at h
      | ok conds =>
        simp only [hall, hcols, hconds, ok_bind] at h
        cases horder : x.orderBys with
        | none =>
          rw [horder] at h
          cases h
          exact ⟨checkSelCols_agg hcols, by simp⟩
        | some orderBys =>
          rw [horder] at h
          cases hchecked : checkOrderBy allCols orderBys with
          | error e => simp [hchecked] at h
          | ok orderBys' =>
            simp only [hchecked, ok_bind] at h
            cases h
            exact ⟨checkSelCols_agg hcols, by simp⟩

end Analyze

namespace SelectPlan

variable {σ : Type} {env : SelectEnv σ} {plan : Plan} {orderBys : List (TabCol × Bool)}
  {selCols : List TabCol} {selCol : SelCol} {rows out full : List RmRecord} {n : Nat}

/-- The executors of a sort and a projection, without a limit and with one. -/
theorem returns_sorted (h : (projection (sort (rel plan) orderBys) selCols).Returns env (-1) rows) (n : Nat) :
    ∃ ex ex', (projection (sort (rel plan) orderBys) selCols).executor env (-1) = some ex ∧
      (projection (sort (rel plan) orderBys) selCols).executor env n = some ex' ∧ ex'.cols = ex.cols ∧
      ex.Runs ex.initial rows ∧
      ex'.Runs ex'.initial (if n ≤ tupleNumPerStep then rows.take n else rows) ∧
      AggExecutor.QuietEnd ex.toCursor ex.initial rows ∧ AggExecutor.QuietEnd ex'.toCursor ex'.initial
        (if n ≤ tupleNumPerStep then rows.take n else rows) := by
  obtain ⟨ex, hex, hruns⟩ := h
  obtain ⟨sorted, hsorted, hbuilt⟩ := Option.bind_eq_some_iff.mp hex
  obtain ⟨prev, hprev, hsorted⟩ := Option.bind_eq_some_iff.mp hsorted
  obtain ⟨cols, hcols, hsorted⟩ := Option.bind_eq_some_iff.mp hsorted
  obtain ⟨sort, hsort, heq⟩ := Option.bind_eq_some_iff.mp hsorted
  obtain ⟨pcols, hselect, heq'⟩ := Option.bind_eq_some_iff.mp hbuilt
  cases heq
  cases heq'
  obtain ⟨raws, hraws, rfl⟩ := Projection.runs_prev hselect hruns
  obtain ⟨hend, hbuffer⟩ := SortExecutor.new_initial hsort
  have hlimited := SortExecutor.runs_limit hend hraws n
  have hmap : (if n ≤ tupleNumPerStep then (raws.map (Projection.project pcols)).take n
      else raws.map (Projection.project pcols)) =
      (if n ≤ tupleNumPerStep then raws.take n else raws).map (Projection.project pcols) := by
    split
    · rw [List.map_take]
    · rfl
  rw [hmap]
  refine ⟨_, Projection.executor (SortExecutor.executor prev n sort) pcols, hex, ?_, rfl, hruns,
    Projection.runs hselect hlimited, Projection.quietEnd (SortExecutor.quietEnd hend hbuffer hraws),
    Projection.quietEnd (SortExecutor.quietEnd hend hbuffer hlimited)⟩
  refine Option.bind_eq_some_iff.mpr ⟨SortExecutor.executor prev n sort, ?_, ?_⟩
  · exact Option.bind_eq_some_iff.mpr ⟨prev, hprev, Option.bind_eq_some_iff.mpr
      ⟨cols, hcols, Option.bind_eq_some_iff.mpr ⟨sort, hsort, rfl⟩⟩⟩
  · exact Option.bind_eq_some_iff.mpr ⟨pcols, hselect, rfl⟩

theorem returns_agg_iff {sub : SelectPlan} {limitNum : Int} {ex : AbstractExecutor (sub.State σ)}
    (hex : sub.executor env limitNum = some ex) (hruns : ex.Runs ex.initial rows)
    (hquiet : AggExecutor.QuietEnd ex.toCursor ex.initial rows) (hfuel : rows.length < env.fuel) :
    (agg sub selCol).Returns env limitNum out ↔
      ∃ r, aggregateOf env ex.cols selCol rows = some r ∧ out = [r] := by
  constructor
  · rintro ⟨top, htop, hout⟩
    obtain ⟨ex', hex', htop⟩ := Option.bind_eq_some_iff.mp htop
    obtain rfl := Option.some.inj (hex.symm.trans hex')
    obtain ⟨⟨type, col⟩, hcol, heq⟩ := Option.bind_eq_some_iff.mp htop
    cases heq
    obtain ⟨r, hr, rfl⟩ := (AggExecutor.runs_iff hruns (fun _ => hquiet) hfuel).mp hout
    exact ⟨r, Option.bind_eq_some_iff.mpr ⟨(type, col), hcol, hr⟩, rfl⟩
  · rintro ⟨r, hr, rfl⟩
    obtain ⟨⟨type, col⟩, hcol, hr⟩ := Option.bind_eq_some_iff.mp hr
    refine ⟨AggExecutor.executor ex col type selCol env.uninit env.fuel, ?_,
      (AggExecutor.runs_iff hruns (fun _ => hquiet) hfuel).mpr ⟨r, hr, rfl⟩⟩
    exact Option.bind_eq_some_iff.mpr ⟨ex, hex, Option.bind_eq_some_iff.mpr ⟨(type, col), hcol, rfl⟩⟩

theorem Returns.unique {sub : SelectPlan} {limitNum : Int} (h : sub.Returns env limitNum rows)
    (h' : sub.Returns env limitNum out) : rows = out := by
  obtain ⟨ex, hex, hruns⟩ := h
  obtain ⟨ex', hex', hruns'⟩ := h'
  obtain rfl := Option.some.inj (hex.symm.trans hex')
  exact hruns.unique hruns'

theorem returns_agg_one {sub : SelectPlan} {limitNum : Int}
    (h : (agg sub selCol).Returns env limitNum out) : out.length = 1 := by
  obtain ⟨ex, hex, hruns⟩ := h
  obtain ⟨prev, -, hex⟩ := Option.bind_eq_some_iff.mp hex
  obtain ⟨⟨type, col⟩, -, heq⟩ := Option.bind_eq_some_iff.mp hex
  cases heq
  exact AggExecutor.runs_one hruns

-- Each of the four kinds of statements, with a limit.

/-- Without an ORDER BY the limit is not used. -/
theorem unsorted_iff (hfull : (projection (rel plan) selCols).Returns env (-1) full) :
    (projection (rel plan) selCols).Returns env n (full.take n) ↔ full.length ≤ n := by
  have hfull' : (projection (rel plan) selCols).Returns env n full := hfull
  constructor
  · intro h
    exact (List.take_eq_self_iff _).mp (h.unique hfull')
  · intro hle
    rwa [List.take_of_length_le hle]

theorem sorted_iff (hfull : (projection (sort (rel plan) orderBys) selCols).Returns env (-1) full) :
    (projection (sort (rel plan) orderBys) selCols).Returns env n (full.take n) ↔
      n ≤ tupleNumPerStep ∨ full.length ≤ n := by
  obtain ⟨-, ex, -, hex, -, -, hruns, -⟩ := returns_sorted hfull n
  have hlimited : (projection (sort (rel plan) orderBys) selCols).Returns env n _ := ⟨ex, hex, hruns⟩
  by_cases hn : n ≤ tupleNumPerStep
  · rw [if_pos hn] at hlimited
    exact iff_of_true hlimited (.inl hn)
  · rw [if_neg hn] at hlimited
    constructor
    · exact fun h => .inr ((List.take_eq_self_iff _).mp (h.unique hlimited))
    · intro h
      rwa [List.take_of_length_le (h.resolve_left hn)]

theorem take_one {l : List RmRecord} (h : l.length = 1) : l.take n = l ↔ 0 < n := by
  rw [List.take_eq_self_iff, h]
  exact Iff.rfl

theorem unsorted_agg_iff (hfull : (agg (projection (rel plan) selCols) selCol).Returns env (-1) full) :
    (agg (projection (rel plan) selCols) selCol).Returns env n (full.take n) ↔ 0 < n := by
  have hfull' : (agg (projection (rel plan) selCols) selCol).Returns env n full := hfull
  rw [← take_one (returns_agg_one hfull)]
  constructor
  · exact fun h => h.unique hfull'
  · intro h
    rwa [h]

/-- With an ORDER BY the aggregate is one of the first rows. -/
theorem sorted_agg_iff (hrows : (projection (sort (rel plan) orderBys) selCols).Returns env (-1) rows)
    (hfuel : rows.length < env.fuel)
    (hfull : (agg (projection (sort (rel plan) orderBys) selCols) selCol).Returns env (-1) full) :
    (agg (projection (sort (rel plan) orderBys) selCols) selCol).Returns env n (full.take n) ↔
      0 < n ∧ (tupleNumPerStep < n ∨
        (agg (projection (sort (rel plan) orderBys) selCols) selCol).aggregate env (rows.take n) =
          (agg (projection (sort (rel plan) orderBys) selCols) selCol).aggregate env rows) := by
  obtain ⟨ex, ex', hex, hex', hcols, hruns, hruns', hquiet, hquiet'⟩ := returns_sorted hrows n
  obtain ⟨r, hr, rfl⟩ := (returns_agg_iff hex hruns hquiet hfuel).mp hfull
  have haggregate : ∀ l, (agg (projection (sort (rel plan) orderBys) selCols) selCol).aggregate env l =
      aggregateOf env ex.cols selCol l := fun l => by
    rw [aggregate, hex]
    rfl
  have hfuel' : (if n ≤ tupleNumPerStep then rows.take n else rows).length < env.fuel := by
    split
    · exact Nat.lt_of_le_of_lt (List.length_take_le' n rows) hfuel
    · exact hfuel
  rw [returns_agg_iff hex' hruns' hquiet' hfuel', hcols, haggregate, haggregate, hr]
  rcases Nat.eq_zero_or_pos n with rfl | hpos
  · constructor
    · rintro ⟨_, -, hnil⟩
      cases hnil
    · rintro ⟨hpos, -⟩
      cases hpos
  · have hone : (∃ r', aggregateOf env ex.cols selCol (if n ≤ tupleNumPerStep then rows.take n else rows) =
        some r' ∧ [r].take n = [r']) ↔
        aggregateOf env ex.cols selCol (if n ≤ tupleNumPerStep then rows.take n else rows) = some r := by
      rw [(take_one (l := [r]) rfl).mpr hpos]
      constructor
      · rintro ⟨r', hr', heq⟩
        cases heq
        exact hr'
      · exact fun h => ⟨r, h, rfl⟩
    rw [hone]
    by_cases hn : n ≤ tupleNumPerStep
    · rw [if_pos hn]
      simp [hpos, Nat.not_lt.mpr hn]
    · rw [if_neg hn]
      simp [hpos, Nat.lt_of_not_le hn, hr]

end SelectPlan

/-- Every plan of a SELECT is an aggregate or not, over a projection of a sort or of the scans and joins. -/
theorem generateSelectPlan_shape {db : Catalog} {query : SelectQuery} {plan : SelectPlan}
    (h : Planner.generateSelectPlan db query = .ok plan) : ∃ rel selCols sub,
      sub = SelectPlan.projection (Planner.generateSortPlan query (.rel rel)) selCols ∧
      if query.cols.any (·.agg.isSome) then ∃ col, plan = .agg sub col else plan = sub := by
  unfold Planner.generateSelectPlan at h
  cases hrel : Planner.makeOneRel db ⟨query.tables, query.conds⟩ with
  | error e => simp [hrel] at h
  | ok rel =>
    cases hcols : Planner.projectedCols db query with
    | error e => simp [hrel, hcols] at h
    | ok selCols =>
      simp only [hrel, hcols, ok_bind] at h
      cases h
      refine ⟨rel, selCols, _, rfl, ?_⟩
      unfold Planner.generateAggPlan
      cases query.cols with
      | nil => rfl
      | cons col cols =>
        dsimp only
        split
        · exact ⟨col, rfl⟩
        · rfl

section Statement

variable {σ ν : Type} {convertSvValue : ν → TabColMeta → Except AnalyzeError Value} {env : SelectEnv σ}
  {db : Catalog} {x : SelectStmt ν} {query : SelectQuery} {plan : SelectPlan} {rows full : List RmRecord}

theorem answers_iff (hquery : Analyze.analyzeSelect convertSvValue db x = .ok query)
    (hplan : Planner.generateSelectPlan db query = .ok plan) {limit : Option (List Char)} :
    Answers convertSvValue env db x limit rows ↔
      ∃ limitNum, Planner.limitNum limit = some limitNum ∧ plan.Returns env limitNum rows := by
  constructor
  · rintro ⟨query', limitNum, plan', hquery', hlimit, hplan', hreturns⟩
    obtain rfl := Except.ok.inj (hquery.symm.trans hquery')
    obtain rfl := Except.ok.inj (hplan.symm.trans hplan')
    exact ⟨limitNum, hlimit, hreturns⟩
  · rintro ⟨limitNum, hlimit, hreturns⟩
    exact ⟨query, limitNum, plan, hquery, hlimit, hplan, hreturns⟩

/-- `full` is what the statement returns without a LIMIT, and `rows` is that before an aggregate. With
`LIMIT n` the first `n` rows are returned exactly when `n` passes the check of the analyzer and
 - without an aggregate, the limit is one for the sort, up to the size of its blocks, or larger than the
   result;
 - with an aggregate, `n` is not zero, and there is no such limit or it does not change the aggregate. -/
theorem select_limit_iff (hquery : Analyze.analyzeSelect convertSvValue db x = .ok query)
    (hplan : Planner.generateSelectPlan db query = .ok plan) {text : List Char} (hlit : IntLiteral text)
    {n : Nat} (hn : intValue text = n) (hrows : plan.tuples.Returns env (-1) rows)
    (hfuel : rows.length < env.fuel) (hfull : Answers convertSvValue env db x none full) :
    Answers convertSvValue env db x (some text) (full.take n) ↔ noOverflowInt text = true ∧
      if x.cols.any (·.agg.isSome) then 0 < n ∧ (x.orderBys = none ∨ tupleNumPerStep < n ∨
        plan.aggregate env (rows.take n) = plan.aggregate env rows)
      else x.orderBys ≠ none ∧ n ≤ tupleNumPerStep ∨ full.length ≤ n := by
  have hlimit : ∀ limitNum, Planner.limitNum (some text) = some limitNum ↔
      noOverflowInt text = true ∧ limitNum = n := by
    intro limitNum
    rw [Planner.limitNum, Analyze.getLimitClause]
    split
    · rename_i hpass
      rw [stoi_of_noOverflowInt hlit hpass, hn]
      simp [hpass, eq_comm]
    · rename_i hfail
      simp [hfail]
  have hreturns : Answers convertSvValue env db x (some text) (full.take n) ↔
      noOverflowInt text = true ∧ plan.Returns env n (full.take n) := by
    rw [answers_iff hquery hplan]
    simp only [hlimit]
    constructor
    · rintro ⟨_, ⟨hpass, rfl⟩, h⟩
      exact ⟨hpass, h⟩
    · rintro ⟨hpass, h⟩
      exact ⟨n, ⟨hpass, rfl⟩, h⟩
  obtain ⟨_, hnone, hfull⟩ := (answers_iff hquery hplan).mp hfull
  cases hnone
  obtain ⟨hagg, horder⟩ := analyzeSelect_kept hquery
  obtain ⟨rel, selCols, sub, hsub, hshape⟩ := generateSelectPlan_shape hplan
  rw [hreturns, ← hagg]
  refine and_congr_right fun _ => ?_
  split
  · rename_i hany
    rw [if_pos hany] at hshape
    obtain ⟨col, rfl⟩ := hshape
    cases hby : query.orderBy with
    | none =>
      simp only [Planner.generateSortPlan, hby] at hsub
      subst hsub
      rw [SelectPlan.unsorted_agg_iff hfull]
      exact ⟨fun hpos => ⟨hpos, .inl (horder.mp hby)⟩, fun h => h.1⟩
    | some orderBys =>
      simp only [Planner.generateSortPlan, hby] at hsub
      subst hsub
      have hsome : x.orderBys ≠ none := fun hnone => by simp [horder.mpr hnone] at hby
      rw [SelectPlan.sorted_agg_iff hrows hfuel hfull]
      simp only [hsome, false_or]
  · rename_i hany
    rw [if_neg hany] at hshape
    subst hshape
    cases hby : query.orderBy with
    | none =>
      simp only [Planner.generateSortPlan, hby] at hsub
      subst hsub
      have hnone := horder.mp hby
      rw [SelectPlan.unsorted_iff hfull]
      simp only [hnone, ne_eq, not_true_eq_false, false_and, false_or]
    | some orderBys =>
      simp only [Planner.generateSortPlan, hby] at hsub
      subst hsub
      have hsome : x.orderBys ≠ none := fun hnone => by simp [horder.mpr hnone] at hby
      rw [SelectPlan.sorted_iff hfull]
      simp only [hsome, ne_eq, not_false_eq_true, true_and]

end Statement

namespace LimitExample

/-- A table with one `INT` column. -/
def cols : List TabColMeta := [⟨⟨"a", .int, 4, 0⟩, "t"⟩]

def catalog : Catalog where
  tabs t := if t = "t" then some ⟨cols, []⟩ else none
  owned t tab htab col hcol := by
    split at htab
    · rename_i ht
      cases htab
      rw [List.mem_singleton.mp hcol, ht]
    · cases htab

/-- The rows 1 and 2. -/
def table : TableFile where
  cols := cols
  file := ((RmFileHandle.createFile 4).newPage.fillSlot ⟨1, 0⟩ [1, 0, 0, 0]).fillSlot ⟨1, 1⟩ [2, 0, 0, 0]

def env : SelectEnv SeqScan where
  relExecutor
    | .scan x => some (SeqScan.executor table x.conds)
    | _ => none
  getTime := Nat.repr
  stdSort := mergeStdSort RmRecord
  disk := ⟨fun _ => none, 0⟩
  behind _ := []
  uninit := .int 0
  fuel := 10

theorem tabs_ne : ["t"] ≠ [] := List.cons_ne_nil _ _

/-- `SELECT * FROM t`. -/
def stmt : SelectStmt Empty := ⟨[], ["t"], tabs_ne, [], none⟩

def query : SelectQuery := ⟨["t"], [⟨⟨"t", "a"⟩, none, ""⟩], [], none⟩

def plan : SelectPlan := .projection (.rel (.scan ⟨.seqScan, "t", [], [], []⟩)) [⟨"t", "a"⟩]

theorem query_eq : Analyze.analyzeSelect (fun v _ => nomatch v) catalog stmt = .ok query := by
  rfl

theorem plan_eq : Planner.generateSelectPlan catalog query = .ok plan := by
  rfl

theorem returns (limitNum : Int) : plan.Returns env limitNum [[1, 0, 0, 0], [2, 0, 0, 0]] := by
  refine ⟨_, rfl, ⟨_, rfl, ?_⟩⟩
  exact .tuple rfl rfl (.tuple rfl rfl (.done rfl))

theorem answers : Answers (fun v _ => nomatch v) env catalog stmt none [[1, 0, 0, 0], [2, 0, 0, 0]] :=
  (answers_iff query_eq plan_eq).mpr ⟨-1, rfl, returns (-1)⟩

end LimitExample

open LimitExample in
theorem select_limit_two : Answers (fun v _ => nomatch v) env catalog stmt (some ['2'])
    [[1, 0, 0, 0], [2, 0, 0, 0]] :=
  (select_limit_iff query_eq plan_eq (.nonneg (List.cons_ne_nil _ _) (List.all_eq_true.mp rfl)) (n := 2) (by decide)
    (returns (-1)) (by decide) answers).mpr ⟨by decide, .inr (by decide)⟩

open LimitExample in
/-- `SELECT * FROM t LIMIT 1` returns both rows. -/
theorem select_limit_unsorted :
    Answers (fun v _ => nomatch v) env catalog stmt none [[1, 0, 0, 0], [2, 0, 0, 0]] ∧
    ¬ Answers (fun v _ => nomatch v) env catalog stmt (some ['1']) [[1, 0, 0, 0]] ∧
    Answers (fun v _ => nomatch v) env catalog stmt (some ['1']) [[1, 0, 0, 0], [2, 0, 0, 0]] := by
  have hboth : Answers (fun v _ => nomatch v) env catalog stmt (some ['1']) [[1, 0, 0, 0], [2, 0, 0, 0]] :=
    (answers_iff query_eq plan_eq).mpr ⟨1, by decide, returns 1⟩
  refine ⟨answers, fun h => ?_, hboth⟩
  obtain ⟨limitNum, -, hone⟩ := (answers_iff query_eq plan_eq).mp h
  cases hone.unique (returns limitNum)

end Rmdb
