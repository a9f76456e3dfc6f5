-- SUMMARY: The operators over children that reading does not change are the executors of a query.
import Rmdb.Execution.Operators

/-!
# Operators over cursors

A cursor is an operator that `Next` does not change. Joins, projections, sorts and the loops of aggregates over
cursors do what the executors of a query do.
-/

namespace Rmdb

variable {α β : Type}

/-- A cursor, read by `Next`. -/
def ofCursor {σ : Type} (c : Cursor σ α) : Operator Stop σ α where
  begin s := orStuck (c.begin s)
  nextTuple s := orStuck (c.next s)
  isEnd := c.isEnd
  next s := .ok (c.current s, s)

theorem begin_ofCursor {σ : Type} (c : Cursor σ α) (s : σ) : (ofCursor c).begin s = orStuck (c.begin s) := rfl

theorem orStuck_bind (o : Option α) (f : α → Option β) : orStuck (o >>= f) = orStuck o >>= fun a => orStuck (f a) := by
  cases o with
  | none => rfl
  | some a => rfl

theorem orStuck_ite (p : Prop) [Decidable p] (o o' : Option α) :
    orStuck (if p then o else o') = if p then orStuck o else orStuck o' :=
  apply_ite orStuck p o o'

theorem fill_ofCursor {σ : Type} (c : Cursor σ α) (room : Nat) (s : σ) :
    (ofCursor c).fill room s = orStuck (c.fill room s) := by
  induction room generalizing s with
  | zero => rfl
  | succ room ih =>
    simp only [Operator.fill, Cursor.fill, orStuck_ite, orStuck_bind, ofCursor, ok_bind]
    simp only [← ih]
    rfl

namespace ProjectionOperator

variable {σ : Type} (prev : AbstractExecutor σ) (cols : List (TabColMeta × TabColMeta))

theorem load_ofCursor (s : σ) (data : Nat → UInt8) :
    load (ofCursor prev.toCursor) cols s data = .ok (Projection.load prev cols s data) := by
  unfold load Projection.load
  show (if prev.isEnd s = true then _ else _) = _
  split
  · rfl
  · rfl

theorem operator_ofCursor :
    operator (ofCursor prev.toCursor) cols = ofCursor (Projection.executor prev cols).toCursor := by
  have hbegin : ∀ s : Projection σ, (orStuck (prev.begin s.prev) >>= fun p => load (ofCursor prev.toCursor) cols p s.data) =
      orStuck ((prev.begin s.prev).map fun p => Projection.load prev cols p s.data) := by
    intro s
    simp only [load_ofCursor]
    cases prev.begin s.prev with
    | none => rfl
    | some p => rfl
  have hnext : ∀ s : Projection σ, (orStuck (prev.next s.prev) >>= fun p => load (ofCursor prev.toCursor) cols p s.data) =
      orStuck ((prev.next s.prev).map fun p => Projection.load prev cols p s.data) := by
    intro s
    simp only [load_ofCursor]
    cases prev.next s.prev with
    | none => rfl
    | some p => rfl
  show Operator.mk _ _ _ _ = Operator.mk _ _ _ _
  congr 1
  · exact funext hbegin
  · exact funext hnext

end ProjectionOperator

namespace JoinOperator

variable {σ τ : Type} (left : AbstractExecutor σ) (right : AbstractExecutor τ) (conds : List JoinCondition)

theorem loop_ofCursor (fuel : Nat) (s : NestedLoopJoin σ τ) :
    loop (ofCursor left.toCursor) (ofCursor right.toCursor) (NestedLoopJoin.test left right conds) fuel s =
      orStuck (NestedLoopJoin.loop left right conds fuel s) := by
  induction fuel generalizing s with
  | zero => rfl
  | succ fuel ih =>
    rw [loop, NestedLoopJoin.loop, orStuck_bind]
    congr 1
    funext found
    cases found with
    | some ij => rfl
    | none =>
      simp only [fill_ofCursor, begin_ofCursor, orStuck_bind, orStuck_ite, ih]
      rfl

theorem operator_ofCursor (fuel : Nat) :
    operator (ofCursor left.toCursor) (ofCursor right.toCursor) (NestedLoopJoin.test left right conds) left.tupleLen
      right.tupleLen fuel = ofCursor (NestedLoopJoin.executor left right conds fuel).toCursor := by
  have hbegin : ∀ s : NestedLoopJoin σ τ, beginTuple (ofCursor left.toCursor) (ofCursor right.toCursor)
      (NestedLoopJoin.test left right conds) fuel s = orStuck (NestedLoopJoin.beginTuple left right conds fuel s) := by
    intro s
    simp only [beginTuple, NestedLoopJoin.beginTuple, fill_ofCursor, begin_ofCursor, orStuck_bind,
      orStuck_ite, loop_ofCursor]
    rfl
  show Operator.mk _ _ _ _ = Operator.mk _ _ _ _
  congr 1
  · exact funext hbegin
  · exact funext fun s => loop_ofCursor left right conds fuel _

end JoinOperator

namespace SortOperator

variable {σ : Type} (env : SortEnv RmRecord) (prev : Cursor σ RmRecord)

theorem runLoop_ofCursor (fuel : Nat) (s : σ) (tuples : List RmRecord) (tmpFiles : List TupleBufFile)
    (d : TmpDisk RmRecord) :
    runLoop env (ofCursor prev) fuel s tuples tmpFiles d = orStuck (env.runLoop prev fuel s tuples tmpFiles d) := by
  induction fuel generalizing s tuples tmpFiles d with
  | zero => rfl
  | succ fuel ih =>
    simp only [runLoop, SortEnv.runLoop, orStuck_ite, orStuck_bind, ofCursor, ok_bind]
    simp only [← ih]
    rfl

theorem new_ofCursor (fuel : Nat) (s : σ) (d : TmpDisk RmRecord) :
    new env (ofCursor prev) fuel s d = orStuck (SortExecutor.new env prev fuel s d) := by
  simp only [new, SortExecutor.new, runLoop_ofCursor, orStuck_bind, begin_ofCursor]
  rfl

theorem operator_ofCursor (limitNum : Int) : operator limitNum = ofCursor (SortExecutor.cursor limitNum) := rfl

end SortOperator

namespace AggOperator

variable {σ : Type} (prev : Cursor σ RmRecord) (prevCol : ColMeta)

theorem accumulate_ofCursor (step : Value → RmRecord → Option Value) (fuel : Nat) (s : σ) (res : Value) :
    accumulate (ofCursor prev) step fuel s res = orStuck (AggExecutor.accumulate prev step fuel s res) := by
  induction fuel generalizing s res with
  | zero => rfl
  | succ fuel ih =>
    simp only [accumulate, AggExecutor.accumulate, orStuck_ite, orStuck_bind, ofCursor, ok_bind]
    simp only [← ih]
    rfl

theorem countLoop_ofCursor (fuel : Nat) (s : σ) (res : Value) :
    countLoop (ofCursor prev) fuel s res =
      orStuck (AggExecutor.accumulate prev (fun res _ => res.add (.int 1)) fuel s res) := by
  induction fuel generalizing s res with
  | zero => rfl
  | succ fuel ih =>
    simp only [countLoop, AggExecutor.accumulate, orStuck_ite, orStuck_bind, ofCursor]
    simp only [← ih]
    rfl

theorem compute_ofCursor (type : AggType) (fuel : Nat) (s : AggExecutor σ) :
    compute (ofCursor prev) prevCol type fuel s = orStuck (AggExecutor.compute prev prevCol type fuel s) := by
  have hbest : ∀ better, beginBest (ofCursor prev) prevCol better fuel s.prev s.res =
      orStuck (AggExecutor.beginBest prev prevCol better fuel s.prev s.res) := by
    intro better
    simp only [beginBest, AggExecutor.beginBest, orStuck_bind, accumulate_ofCursor]
    congr 1
    funext p
    have hfirst : readFirst (ofCursor prev) prevCol p s.res =
        .ok (p, if prev.isEnd p then s.res else prevCol.read (prev.current p)) := by
      unfold readFirst
      show (if prev.isEnd p = true then _ else _) = _
      split
      · rfl
      · rfl
    rw [hfirst]
    rfl
  cases type with
  | max => exact hbest _
  | min => exact hbest _
  | sum =>
    simp only [compute, AggExecutor.compute, beginSum, AggExecutor.beginSum, orStuck_bind, accumulate_ofCursor]
    rfl
  | count =>
    simp only [compute, AggExecutor.compute, beginCount, AggExecutor.beginCount, orStuck_bind, countLoop_ofCursor]
    rfl

end AggOperator

end Rmdb
