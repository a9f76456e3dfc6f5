-- SUMMARY: Which statements only move on and read operators that are not at their end.
import Rmdb.Common.Convert
import Rmdb.Execution.Aggregates
import Rmdb.Execution.Operators

/-!
# The iterator protocol

Scans, joins, projections and sorts look at `is_end()` before each call on a child, or are only called when they are
not at their end themselves. An aggregate breaks the rule twice. `MAX` and `MIN` move an empty child on. And the
executor is at its end as soon as `Next` has given its row, when `select_from` still calls `nextTuple`. Below several
aggregates there may be no row: a string of more than four bytes does not fit it, and `Next` throws.
-/

namespace Rmdb

open Operator

-- ---------------------------------------------------------------------------
-- Scans
-- ---------------------------------------------------------------------------

theorem avoids_orStuck {α : Type} (o : Option α) : Avoids Stop.protocol (orStuck o) fun _ => True := by
  cases o with
  | none => exact nofun
  | some a => trivial

theorem avoids_orStuck_eq {α : Type} (o : Option α) : Avoids Stop.protocol (orStuck o) fun a => o = some a := by
  cases o with
  | none => exact nofun
  | some a => rfl

theorem SeqScanExecutor.tame (table : TableFile) (conds : List JoinCondition) :
    (operator table conds).Tame .protocol := by
  constructor
  · exact fun s => avoids_orStuck _
  · exact fun s _ => avoids_orStuck _
  · intro s hs
    exact (avoids_orStuck _).bind fun r _ _ => hs

namespace IndexScanExecutor

variable {table : TableFile} {index : Index} {conds idxConds : List JoinCondition}

theorem avoids_scanNext {scan : IxScan} (h : scan.isEnd = false) :
    Avoids Stop.protocol (scanNext index scan) fun _ => True := by
  rw [scanNext, h]
  exact avoids_orStuck _

theorem avoids_scanLoop (fuel : Nat) (s : IndexScanExecutor) (scan : IxScan) :
    Avoids Stop.protocol (scanLoop table index conds fuel s scan) fun _ => True := by
  induction fuel generalizing scan with
  | zero => exact nofun
  | succ fuel ih =>
    rw [scanLoop]
    split
    · trivial
    · rename_i hend
      refine (avoids_orStuck _).bind fun rid _ _ => ?_
      refine (avoids_orStuck _).bind fun record _ _ => ?_
      refine (avoids_orStuck _).bind fun flag _ _ => ?_
      split
      · trivial
      · exact (avoids_scanNext (by simpa using hend)).bind fun scan' _ _ => ih scan'

theorem tame (fuel : Nat) : (operator table index conds idxConds fuel).Tame .protocol := by
  constructor
  · intro s
    refine (avoids_orStuck _).bind fun ⟨lower, upper, key⟩ _ _ => ?_
    refine (avoids_orStuck _).bind fun scan _ _ => ?_
    exact (avoids_orStuck _).bind fun _ _ _ => avoids_scanLoop _ _ _
  · intro s hs
    refine (avoids_orStuck _).bind fun scan hscan _ => ?_
    have hend : scan.isEnd = false := by
      cases h : s.scan with
      | none =>
        rw [h] at hscan
        cases hscan
      | some scan' =>
        rw [h] at hscan
        cases hscan
        simpa [operator, h] using hs
    exact (avoids_scanNext hend).bind fun scan' _ _ => avoids_scanLoop _ _ _
  · intro s hs
    exact (avoids_orStuck _).bind fun r _ _ => hs

end IndexScanExecutor

-- ---------------------------------------------------------------------------
-- Joins, projections and sorts
-- ---------------------------------------------------------------------------

namespace JoinOperator

variable {σ τ : Type} {left : Operator Stop σ RmRecord} {right : Operator Stop τ RmRecord}
  {test : RmRecord → RmRecord → Option Bool}

theorem avoids_loop (hl : left.Tame .protocol) (hr : right.Tame .protocol) (fuel : Nat) (s : NestedLoopJoin σ τ) :
    Avoids Stop.protocol (loop left right test fuel s) fun _ => True := by
  induction fuel generalizing s with
  | zero => exact nofun
  | succ fuel ih =>
    rw [loop]
    refine (avoids_orStuck _).bind fun found _ _ => ?_
    cases found with
    | some ij => trivial
    | none =>
      refine (hr.fill _ _).bind fun ⟨rs, r⟩ _ _ => ?_
      dsimp only
      split
      · refine (hl.fill _ _).bind fun ⟨ls, l⟩ _ _ => ?_
        dsimp only
        split
        · trivial
        · refine (hr.begin _).bind fun r' _ _ => ?_
          exact (hr.fill _ _).bind fun ⟨rs', r''⟩ _ _ => ih _
      · exact ih _

theorem tame (hl : left.Tame .protocol) (hr : right.Tame .protocol) (leftLen rightLen fuel : Nat) :
    (operator left right test leftLen rightLen fuel).Tame .protocol := by
  constructor
  · intro s
    refine (hl.begin _).bind fun l _ _ => ?_
    refine (hl.fill _ _).bind fun ⟨ls, l⟩ _ _ => ?_
    dsimp only
    split
    · trivial
    · refine (hr.begin _).bind fun r _ _ => ?_
      refine (hr.fill _ _).bind fun ⟨rs, r⟩ _ _ => ?_
      dsimp only
      split
      · trivial
      · exact avoids_loop hl hr _ _
  · exact fun s _ => avoids_loop hl hr _ _
  · exact fun s hs => hs

end JoinOperator

namespace ProjectionOperator

variable {σ : Type} {prev : Operator Stop σ RmRecord} {cols : List (TabColMeta × TabColMeta)}

theorem avoids_load (h : prev.Tame .protocol) (s : σ) (data : Nat → UInt8) :
    Avoids Stop.protocol (load prev cols s data) fun _ => True := by
  rw [load]
  split
  · trivial
  · rename_i hend
    exact (h.next s (by simpa using hend)).bind fun _ _ _ => trivial

/-- A projection is at its end when its child is, so its own caller keeps to the rule for it. -/
theorem tame (h : prev.Tame .protocol) : (operator prev cols).Tame .protocol := by
  constructor
  · exact fun s => (h.begin s.prev).bind fun p _ _ => avoids_load h p _
  · exact fun s hs => (h.nextTuple s.prev hs).bind fun p _ _ => avoids_load h p _
  · exact fun s hs => hs

end ProjectionOperator

namespace SortOperator

variable {σ : Type} {env : SortEnv RmRecord} {prev : Operator Stop σ RmRecord}

theorem avoids_runLoop (h : prev.Tame .protocol) (fuel : Nat) (s : σ) (tuples : List RmRecord)
    (tmpFiles : List TupleBufFile) (d : TmpDisk RmRecord) :
    Avoids Stop.protocol (runLoop env prev fuel s tuples tmpFiles d) fun _ => True := by
  induction fuel generalizing s tuples tmpFiles d with
  | zero => exact nofun
  | succ fuel ih =>
    rw [runLoop]
    split
    · trivial
    · rename_i hend
      refine (h.next s (by simpa using hend)).bind fun ⟨r, s'⟩ _ hs' => ?_
      dsimp only
      split
      · refine (avoids_orStuck _).bind fun ⟨file, d'⟩ _ _ => ?_
        exact (h.nextTuple s' hs').bind fun _ _ _ => ih _ _ _ _
      · exact (h.nextTuple s' hs').bind fun _ _ _ => ih _ _ _ _

theorem avoids_new (h : prev.Tame .protocol) (fuel : Nat) (s : σ) (d : TmpDisk RmRecord) :
    Avoids Stop.protocol (new env prev fuel s d) fun _ => True := by
  refine (h.begin s).bind fun s' _ _ => ?_
  refine (avoids_runLoop h fuel s' [] [] d).bind fun ⟨tuples, tmpFiles, d'⟩ _ _ => ?_
  refine (avoids_orStuck _).bind fun ⟨tmpFiles', d''⟩ _ _ => ?_
  exact (avoids_orStuck _).bind fun ⟨resFile, d₃⟩ _ _ => trivial

theorem tame (limitNum : Int) : (operator limitNum).Tame .protocol := by
  constructor
  · exact fun s => avoids_orStuck _
  · exact fun s _ => avoids_orStuck _
  · exact fun s hs => hs

end SortOperator

-- ---------------------------------------------------------------------------
-- Trees of executors
-- ---------------------------------------------------------------------------

/-- The executor and those below it keep to the rule. -/
def Node.Tame (n : Node) : Prop := n.op.Tame Stop.protocol

namespace RunEnv

variable {env : RunEnv}

theorem scanNode_tame (x : ScanPlan) : Avoids Stop.protocol (env.scanNode x) Node.Tame := by
  unfold scanNode
  split
  · exact nofun
  · split
    · exact SeqScanExecutor.tame _ _
    · split
      · exact nofun
      · exact IndexScanExecutor.tame _

theorem relNode_tame (plan : Plan) : Avoids Stop.protocol (env.relNode plan) Node.Tame := by
  induction plan with
  | null => exact nofun
  | scan x => exact scanNode_tame x
  | join left right conds ihl ihr =>
    rw [relNode]
    cases hl : env.relNode left with
    | error e =>
      rw [hl] at ihl
      exact ihl
    | ok l =>
      cases hr : env.relNode right with
      | error e =>
        rw [hr] at ihr
        exact ihr
      | ok r =>
        have htame := @JoinOperator.tame _ _ l.watched.op r.watched.op
          (fun a b => testAll (fun c => c.testJoinRecord l.watched.cols a r.watched.cols b) conds)
          (Operator.Tame.watched (ihl.ok hl)) (Operator.Tame.watched (ihr.ok hr))
        show Avoids Stop.protocol (JoinOperator.node l.watched r.watched conds env.fuel) Node.Tame
        unfold JoinOperator.node
        split
        · exact htame _ _ _
        · exact nofun

end RunEnv

/-- There is no aggregate in the plan. -/
def SelectPlan.NoAgg : SelectPlan → Prop
  | .rel _ => True
  | .sort sub _ => sub.NoAgg
  | .projection sub _ => sub.NoAgg
  | .agg _ _ => False

namespace RunEnv

variable {env : RunEnv}

theorem selectNode_tame {plan : SelectPlan} (h : plan.NoAgg) (fuel : Nat) :
    Avoids Stop.protocol (env.selectNode fuel plan) Node.Tame := by
  induction plan with
  | rel plan => exact relNode_tame plan
  | sort sub orderBys ih =>
    rw [selectNode]
    have hsub := ih h
    cases hnode : env.selectNode fuel sub with
    | error e =>
      rw [hnode] at hsub
      exact hsub
    | ok prev =>
      show Avoids Stop.protocol (env.sortNode prev.watched orderBys) Node.Tame
      unfold sortNode
      split
      · rename_i cols _ _
        have hnew := @SortOperator.avoids_new _ (env.sortEnv cols) prev.watched.op
          (Operator.Tame.watched (hsub.ok hnode)) env.fuel prev.initial env.disk
        split
        · exact SortOperator.tame _
        · rename_i e he
          rintro rfl
          exact hnew.ne he
      · exact nofun
  | projection sub selCols ih =>
    rw [selectNode]
    have hsub := ih h
    cases hnode : env.selectNode fuel sub with
    | error e =>
      rw [hnode] at hsub
      exact hsub
    | ok prev =>
      show Avoids Stop.protocol (ProjectionOperator.node prev.watched selCols) Node.Tame
      unfold ProjectionOperator.node
      split
      · exact ProjectionOperator.tame (Operator.Tame.watched (hsub.ok hnode))
      · exact nofun
  | agg sub selCol => exact h.elim

/-- Only an aggregate has loops that the number is for. -/
theorem selectNode_fuel {plan : SelectPlan} (h : plan.NoAgg) (fuel : Nat) :
    env.selectNode fuel plan = env.selectNode 0 plan := by
  induction plan with
  | rel plan => rfl
  | sort sub orderBys ih => simp only [selectNode, ih h]
  | projection sub selCols ih => simp only [selectNode, ih h]
  | agg sub selCol => exact h.elim

end RunEnv

-- ---------------------------------------------------------------------------
-- Loops over all tuples
-- ---------------------------------------------------------------------------

section Loops

variable {σ : Type} {root : Operator Stop σ RmRecord}

theorem avoids_selectLoop (h : root.Tame .protocol) (fuel : Nat) (s : σ) :
    Avoids Stop.protocol (selectLoop root fuel s) fun _ => True := by
  induction fuel generalizing s with
  | zero => exact nofun
  | succ fuel ih =>
    rw [selectLoop]
    split
    · trivial
    · rename_i hend
      refine (h.next s (by simpa using hend)).bind fun ⟨tuple, s₁⟩ _ h₁ => ?_
      refine (h.nextTuple s₁ h₁).bind fun s₂ _ _ => ?_
      exact (ih s₂).bind fun _ _ _ => trivial

theorem avoids_ridLoop (h : root.Tame .protocol) (fuel : Nat) (s : σ) :
    Avoids Stop.protocol (ridLoop root fuel s) fun _ => True := by
  induction fuel generalizing s with
  | zero => exact nofun
  | succ fuel ih =>
    rw [ridLoop]
    split
    · trivial
    · rename_i hend
      exact (h.nextTuple s (by simpa using hend)).bind fun s' _ _ => ih s'

end Loops

-- ---------------------------------------------------------------------------
-- Aggregates
-- ---------------------------------------------------------------------------

namespace AggOperator

variable {σ : Type} {prev : Operator Stop σ RmRecord} {prevCol : ColMeta}

open AggExecutor (keepBest best sumStart outcome row typeMatch)

/-- A loop that ends has gone through all tuples. -/
theorem avoids_accumulate (h : prev.Tame .protocol) (step : Value → RmRecord → Option Value) (fuel : Nat) (s : σ)
    (res : Value) : Avoids Stop.protocol (accumulate prev step fuel s res) fun x =>
      ∃ rows, prev.Drains true s rows ∧ rows.foldlM step res = some x.2 := by
  induction fuel generalizing s res with
  | zero => exact nofun
  | succ fuel ih =>
    rw [accumulate]
    split
    · rename_i hend
      exact ⟨[], .done hend, rfl⟩
    · rename_i hend
      have hend : prev.isEnd s = false := by simpa using hend
      refine (h.next s hend).bind fun ⟨r, s₁⟩ hnext h₁ => ?_
      refine (avoids_orStuck_eq _).bind fun res' _ hres => ?_
      refine (h.nextTuple s₁ h₁).bind fun s₂ hstep _ => ?_
      refine (ih s₂ res').mono fun x ⟨rows, hdrains, hfold⟩ => ?_
      exact ⟨r :: rows, .step hend ⟨s₁, hnext, hstep⟩ hdrains, by rw [List.foldlM_cons, hres]; exact hfold⟩

theorem avoids_countLoop (h : prev.Tame .protocol) (fuel : Nat) (s : σ) (res : Value) :
    Avoids Stop.protocol (countLoop prev fuel s res) fun x =>
      ∃ rows, prev.Drains false s rows ∧ rows.foldlM (fun res _ => res.add (.int 1)) res = some x.2 := by
  induction fuel generalizing s res with
  | zero => exact nofun
  | succ fuel ih =>
    rw [countLoop]
    split
    · rename_i hend
      exact ⟨[], .done hend, rfl⟩
    · rename_i hend
      have hend : prev.isEnd s = false := by simpa using hend
      refine (avoids_orStuck_eq _).bind fun res' _ hres => ?_
      refine (h.nextTuple s hend).bind fun s' hstep _ => ?_
      refine (ih s' res').mono fun x ⟨rows, hdrains, hfold⟩ => ?_
      exact ⟨[] :: rows, .step hend hstep hdrains, by rw [List.foldlM_cons, hres]; exact hfold⟩

/-- With enough rounds the loops go through all tuples, unless their body throws. -/
theorem accumulate_of_drains {s : σ} {rows : List RmRecord} (h : prev.Drains true s rows)
    (step : Value → RmRecord → Option Value) : ∃ fuel t, ∀ res,
      accumulate prev step (fuel + 1) s res = orStuck ((rows.foldlM step res).map fun res => (t, res)) := by
  induction h with
  | @done s hend => exact ⟨0, s, fun res => by rw [accumulate, if_pos hend]; rfl⟩
  | @step s s' r rows hend hadvance _ ih =>
    obtain ⟨fuel, t, hloop⟩ := ih
    obtain ⟨s₁, hnext, hmove⟩ := hadvance
    refine ⟨fuel + 1, t, fun res => ?_⟩
    rw [accumulate, hend]
    simp only [Bool.false_eq_true, if_false, hnext, ok_bind, List.foldlM_cons]
    cases step res r with
    | none => rfl
    | some res' =>
      simp only [orStuck, ok_bind, hmove, Option.bind_eq_bind, Option.bind_some]
      exact hloop res'

theorem countLoop_of_drains {s : σ} {rows : List RmRecord} (h : prev.Drains false s rows) : ∃ fuel t, ∀ res,
    countLoop prev (fuel + 1) s res =
      orStuck ((rows.foldlM (fun (res : Value) _ => res.add (.int 1)) res).map fun res => (t, res)) := by
  induction h with
  | @done s hend => exact ⟨0, s, fun res => by rw [countLoop, if_pos hend]; rfl⟩
  | @step s s' r rows hend hadvance _ ih =>
    obtain ⟨fuel, t, hloop⟩ := ih
    have hmove : prev.nextTuple s = .ok s' := hadvance
    refine ⟨fuel + 1, t, fun res => ?_⟩
    rw [countLoop, hend]
    simp only [Bool.false_eq_true, if_false, List.foldlM_cons]
    cases res.add (.int 1) with
    | none => rfl
    | some res' =>
      simp only [orStuck, ok_bind, hmove, Option.bind_eq_bind, Option.bind_some]
      exact hloop res'

/-- Whether the loops of an aggregate read the tuples. -/
def reads (type : AggType) : Bool := type != .count

/-- The row has room for the result: for the greatest or the least of the strings. Numbers always fit. -/
def HasRoom (type : AggType) (len : Nat) (col : ColMeta) (rows : List RmRecord) : Prop :=
  match type with
  | .max => ∀ r ∈ rows, (∀ a ∈ rows, (col.read a).gt (col.read r) = false) →
      ∃ out, (col.read r).initRaw len = some out
  | .min => ∀ r ∈ rows, (∀ a ∈ rows, (col.read a).lt (col.read r) = false) →
      ∃ out, (col.read r).initRaw len = some out
  | .sum | .count => True

/-- The two ways in which an aggregate breaks the rule: it moves an empty child on, or it gives its row. -/
def Breaks (prev : Operator Stop σ RmRecord) (prevCol : ColMeta) (type : AggType) (len : Nat) (s : σ) : Prop :=
  ∃ p, prev.begin s = .ok p ∧
    ((type = .max ∨ type = .min) ∧ prev.isEnd p = true ∨
      typeMatch prevCol type = true ∧ ∃ rows, prev.Drains (reads type) p rows ∧ HasRoom type len prevCol rows)

-- When `Next` gives a row.

theorem initRaw_number {v : Value} (h : v.type ≠ .string) (len : Nat) : ∃ out, v.initRaw len = some out := by
  cases v with
  | string s => exact absurd rfl h
  | int n => exact ⟨_, rfl⟩
  | float x => exact ⟨_, rfl⟩
  | bigint n => exact ⟨_, rfl⟩
  | datetime n => exact ⟨_, rfl⟩

theorem add_number {x y z : Value} (h : x.add y = some z) : z.type ≠ .string := by
  unfold Value.add at h
  split at h
  · cases h
    simp [Value.type]
  · cases h
    simp [Value.type]
  · cases h

/-- Sums are numbers. -/
theorem foldlM_add_number {f : RmRecord → Value} {rows : List RmRecord} {start res : Value}
    (hstart : start.type ≠ .string) (h : rows.foldlM (fun res r => res.add (f r)) start = some res) :
    res.type ≠ .string := by
  induction rows generalizing start with
  | nil => exact Option.some.inj h ▸ hstart
  | cons r rows ih =>
    obtain ⟨mid, hmid, hrest⟩ := Option.bind_eq_some_iff.mp h
    exact ih (add_number hmid) hrest

theorem foldl_keepBest_mem (better : Value → Value → Bool) (rows : List RmRecord) (v : Value) :
    rows.foldl (keepBest prevCol better) v ∈ v :: rows.map prevCol.read := by
  induction rows generalizing v with
  | nil => exact List.mem_singleton.mpr rfl
  | cons r rows ih =>
    have hkeep : keepBest prevCol better v r = prevCol.read r ∨ keepBest prevCol better v r = v := by
      unfold keepBest
      dsimp only
      split
      · exact .inl rfl
      · exact .inr rfl
    rw [List.foldl_cons, List.map_cons]
    rcases hkeep with hkeep | hkeep
    · rw [hkeep]
      exact List.mem_cons_of_mem _ (ih _)
    · rw [hkeep]
      rcases List.mem_cons.mp (ih v) with h | h
      · rw [h]
        exact List.mem_cons_self
      · exact List.mem_cons_of_mem _ (List.mem_cons_of_mem _ h)

theorem best_mem {better : Value → Value → Bool} {uninit : Value} {rows : List RmRecord} (hne : rows ≠ []) :
    best prevCol better uninit rows ∈ rows.map prevCol.read := by
  cases rows with
  | nil => exact absurd rfl hne
  | cons r rows => exact foldl_keepBest_mem better rows (prevCol.read r)

/-- The best of some tuples fits exactly when no best one is too long. -/
theorem best_fits_iff {better : Value → Value → Bool} (hbetter : better = Value.gt ∨ better = Value.lt)
    {uninit : Value} {rows : List RmRecord} (hne : rows ≠ []) (len : Nat) :
    (∃ r, (best prevCol better uninit rows).initRaw len = some r) ↔
      ∀ r ∈ rows, (∀ a ∈ rows, better (prevCol.read a) (prevCol.read r) = false) →
        ∃ out, (prevCol.read r).initRaw len = some out := by
  by_cases hstring : prevCol.type = .string
  · obtain ⟨r, hr, hbest, hall, huniq⟩ := @AggExecutor.best_unique _ _ uninit better hbetter (.inr hstring) hne
    rw [hbest]
    constructor
    · intro h a ha hall'
      rwa [huniq a ha hall']
    · exact fun h => h r hr hall
  · have hnumber : ∀ r, (prevCol.read r).type ≠ .string := by
      intro r
      cases htype : prevCol.type with
      | string => exact absurd htype hstring
      | int | bigint | float | datetime => simp [ColMeta.read, htype, Value.type]
    refine iff_of_true ?_ fun r _ _ => initRaw_number (hnumber r) len
    obtain ⟨r, -, hr⟩ := List.mem_map.mp (@best_mem prevCol better uninit rows hne)
    rw [← hr]
    exact initRaw_number (hnumber r) len

theorem row_iff {type : AggType} {uninit res : Value} {rows : List RmRecord} (len : Nat)
    (houtcome : outcome prevCol type uninit rows = some res) (hne : type = .max ∨ type = .min → rows ≠ []) :
    (∃ r, row type len res = some r) ↔ HasRoom type len prevCol rows := by
  cases type with
  | max =>
    cases houtcome
    exact best_fits_iff (.inl rfl) (hne (.inl rfl)) len
  | min =>
    cases houtcome
    exact best_fits_iff (.inr rfl) (hne (.inr rfl)) len
  | sum =>
    obtain ⟨start, hstart, hfold⟩ := Option.bind_eq_some_iff.mp houtcome
    have hnumber : start.type ≠ .string := by
      unfold sumStart at hstart
      split at hstart
      · cases hstart
        simp [Value.type]
      · cases hstart
        simp [Value.type]
      · cases hstart
    exact iff_of_true (initRaw_number (foldlM_add_number hnumber hfold) _) trivial
  | count =>
    have hnumber := foldlM_add_number (f := fun _ => .int 1) (by simp [Value.type]) houtcome
    exact iff_of_true (initRaw_number hnumber _) trivial

-- The executor.

theorem avoids_beginBest (h : prev.Tame .protocol) {better : Value → Value → Bool} {fuel : Nat} {s : σ} {res : Value}
    (hempty : ∀ p, prev.begin s = .ok p → prev.isEnd p = false) :
    Avoids Stop.protocol (beginBest prev prevCol better fuel s res) fun x =>
      ∃ p rows, prev.begin s = .ok p ∧ prev.Drains true p rows ∧ rows ≠ [] ∧
        best prevCol better res rows = x.2 := by
  refine (h.begin s).bind fun p hbegin _ => ?_
  have hend := hempty p hbegin
  have hfirst : Avoids Stop.protocol (readFirst prev prevCol p res) fun x =>
      (∃ r, prev.next p = .ok (r, x.1) ∧ x.2 = prevCol.read r) ∧ prev.isEnd x.1 = false := by
    rw [readFirst, hend]
    exact (h.next p hend).bind fun x hnext hx => ⟨⟨x.1, hnext, rfl⟩, hx⟩
  refine hfirst.bind fun ⟨s₁, res₁⟩ _ ⟨⟨r, hnext, hres⟩, h₁⟩ => ?_
  refine (h.nextTuple s₁ h₁).bind fun s₂ hmove _ => ?_
  refine (avoids_accumulate h _ fuel s₂ res₁).mono fun x ⟨rows, hdrains, hfold⟩ => ?_
  refine ⟨p, r :: rows, hbegin, .step hend ⟨s₁, hnext, hmove⟩ hdrains, List.cons_ne_nil _ _, ?_⟩
  rw [AggExecutor.foldlM_keepBest] at hfold
  cases hres
  exact Option.some.inj hfold

/-- Unless an empty child is moved on, the loops keep to the rule; and they only end when the child is read to its
end. -/
theorem avoids_compute (h : prev.Tame .protocol) {type : AggType} {fuel : Nat} {s : AggExecutor σ}
    (hempty : type = .max ∨ type = .min → ∀ p, prev.begin s.prev = .ok p → prev.isEnd p = false) :
    Avoids Stop.protocol (compute prev prevCol type fuel s) fun x =>
      ∃ p rows, prev.begin s.prev = .ok p ∧ prev.Drains (reads type) p rows ∧
        (type = .max ∨ type = .min → rows ≠ []) ∧ outcome prevCol type s.res rows = some x.2 := by
  cases type with
  | max =>
    exact (avoids_beginBest h (hempty (.inl rfl))).mono fun x ⟨p, rows, hbegin, hdrains, hne, hbest⟩ =>
      ⟨p, rows, hbegin, hdrains, fun _ => hne, congrArg some hbest⟩
  | min =>
    exact (avoids_beginBest h (hempty (.inr rfl))).mono fun x ⟨p, rows, hbegin, hdrains, hne, hbest⟩ =>
      ⟨p, rows, hbegin, hdrains, fun _ => hne, congrArg some hbest⟩
  | sum =>
    refine (avoids_orStuck_eq _).bind fun res _ hres => ?_
    refine (h.begin s.prev).bind fun p hbegin _ => ?_
    refine (avoids_accumulate h _ fuel p res).mono fun x ⟨rows, hdrains, hfold⟩ => ?_
    exact ⟨p, rows, hbegin, hdrains, by simp, Option.bind_eq_some_iff.mpr ⟨res, hres, hfold⟩⟩
  | count =>
    refine (h.begin s.prev).bind fun p hbegin _ => ?_
    refine (avoids_countLoop h fuel p _).mono fun x ⟨rows, hdrains, hfold⟩ => ?_
    exact ⟨p, rows, hbegin, hdrains, by simp, hfold⟩

theorem add_read {res : Value} (hres : res.type = prevCol.type) (hnum : prevCol.type = .int ∨ prevCol.type = .float)
    (r : RmRecord) : ∃ res', res.add (prevCol.read r) = some res' ∧ res'.type = prevCol.type := by
  rcases hnum with htype | htype
  · rw [htype] at hres ⊢
    cases res <;> cases hres
    simp only [ColMeta.read, htype]
    exact ⟨_, rfl, rfl⟩
  · rw [htype] at hres ⊢
    cases res <;> cases hres
    simp only [ColMeta.read, htype]
    exact ⟨_, rfl, rfl⟩

/-- Numbers of one type always have a sum. -/
theorem foldlM_add_some (hnum : prevCol.type = .int ∨ prevCol.type = .float) (rows : List RmRecord) {start : Value}
    (hstart : start.type = prevCol.type) :
    ∃ res, rows.foldlM (fun (res : Value) r => res.add (prevCol.read r)) start = some res := by
  induction rows generalizing start with
  | nil => exact ⟨start, rfl⟩
  | cons r rows ih =>
    obtain ⟨mid, hmid, htype⟩ := add_read hstart hnum r
    obtain ⟨res, hres⟩ := ih htype
    exact ⟨res, by rw [List.foldlM_cons, hmid]; exact hres⟩

theorem beginBest_ok {better : Value → Value → Bool} {s p : σ} {rows : List RmRecord} (hbegin : prev.begin s = .ok p)
    (hend : prev.isEnd p = false) (hdrains : prev.Drains true p rows) (res : Value) :
    ∃ fuel t, rows ≠ [] ∧ beginBest prev prevCol better (fuel + 1) s res = .ok (t, best prevCol better res rows) := by
  cases hdrains with
  | done hend' => cases hend.symm.trans hend'
  | @step _ s' r rows _ hadvance hrest =>
    obtain ⟨s₁, hnext, hmove⟩ := hadvance
    obtain ⟨fuel, t, hloop⟩ := accumulate_of_drains hrest fun res r => some (keepBest prevCol better res r)
    refine ⟨fuel, t, List.cons_ne_nil _ _,
      bind_eq_ok_iff.mpr ⟨p, hbegin, bind_eq_ok_iff.mpr ⟨(s₁, prevCol.read r), ?_, ?_⟩⟩⟩
    · rw [readFirst, hend]
      exact bind_eq_ok_iff.mpr ⟨_, hnext, rfl⟩
    · refine bind_eq_ok_iff.mpr ⟨s', hmove, ?_⟩
      rw [hloop, AggExecutor.foldlM_keepBest]
      rfl

/-- When the type is accepted and the child is read to its end, the loops end. -/
theorem compute_ok {type : AggType} {s : AggExecutor σ} {p : σ} {rows : List RmRecord}
    (hbegin : prev.begin s.prev = .ok p) (hempty : type = .max ∨ type = .min → prev.isEnd p = false)
    (hmatch : typeMatch prevCol type = true) (hdrains : prev.Drains (reads type) p rows) :
    ∃ fuel x, compute prev prevCol type (fuel + 1) s = .ok x ∧ (type = .max ∨ type = .min → rows ≠ []) ∧
      outcome prevCol type s.res rows = some x.2 := by
  cases type with
  | max =>
    obtain ⟨fuel, t, hne, hloop⟩ := @beginBest_ok _ prev prevCol Value.gt _ _ _ hbegin (hempty (.inl rfl)) hdrains s.res
    exact ⟨fuel, _, hloop, fun _ => hne, rfl⟩
  | min =>
    obtain ⟨fuel, t, hne, hloop⟩ := @beginBest_ok _ prev prevCol Value.lt _ _ _ hbegin (hempty (.inr rfl)) hdrains s.res
    exact ⟨fuel, _, hloop, fun _ => hne, rfl⟩
  | sum =>
    have hnum : prevCol.type = .int ∨ prevCol.type = .float := by simpa [typeMatch] using hmatch
    obtain ⟨start, hstart, htype⟩ : ∃ start, sumStart prevCol = some start ∧ start.type = prevCol.type := by
      rcases hnum with htype | htype
      · exact ⟨.int 0, by simp [sumStart, htype], htype.symm⟩
      · exact ⟨.float 0, by simp [sumStart, htype], htype.symm⟩
    obtain ⟨res, hres⟩ := foldlM_add_some hnum rows htype
    obtain ⟨fuel, t, hloop⟩ := accumulate_of_drains hdrains fun res r => res.add (prevCol.read r)
    refine ⟨fuel, (t, res), ?_, by simp, Option.bind_eq_some_iff.mpr ⟨start, hstart, hres⟩⟩
    refine bind_eq_ok_iff.mpr ⟨start, by rw [hstart]; rfl, bind_eq_ok_iff.mpr ⟨p, hbegin, ?_⟩⟩
    rw [hloop, hres]
    rfl
  | count =>
    obtain ⟨fuel, t, hloop⟩ := countLoop_of_drains hdrains
    obtain ⟨res, hres⟩ : ∃ res, rows.foldlM (fun res _ => res.add (.int 1)) (Value.int 0) = some res :=
      ⟨_, AggExecutor.foldlM_add (fun _ => 1) rows 0⟩
    refine ⟨fuel, (t, res), bind_eq_ok_iff.mpr ⟨p, hbegin, ?_⟩, by simp, hres⟩
    rw [hloop, hres]
    rfl

/-- `MAX` and `MIN` over an empty child call `nextTuple` at its end. -/
theorem compute_empty {type : AggType} {fuel : Nat} {s : AggExecutor σ} {p : σ} (hbest : type = .max ∨ type = .min)
    (hbegin : prev.begin s.prev = .ok p) (hend : prev.isEnd p = true) :
    compute (prev.watched .protocol) prevCol type fuel s = .error .protocol := by
  have hrun : ∀ better, beginBest (prev.watched .protocol) prevCol better fuel s.prev s.res = .error .protocol := by
    intro better
    have hfirst : readFirst (prev.watched .protocol) prevCol p s.res = .ok (p, s.res) := if_pos hend
    have hbegin : (prev.watched .protocol).begin s.prev = .ok p := hbegin
    simp only [beginBest, hbegin, ok_bind, hfirst, Operator.nextTuple_at_end hend, error_bind]
  rcases hbest with rfl | rfl
  · exact hrun _
  · exact hrun _

/-- `Next` gives the row and takes the executor to its end, and there `select_from` moves it on. -/
theorem selectLoop_result {type : AggType} {len fuel fuel' : Nat} {s : AggExecutor σ} {r : RmRecord}
    (hs : s.isResultUsed = false) (hrow : row type len s.res = some r) :
    selectLoop ((operator prev prevCol type len fuel).watched .protocol) (fuel' + 1) s = .error .protocol := by
  have hend : ((operator prev prevCol type len fuel).watched .protocol).isEnd s = false := hs
  have hnext : ((operator prev prevCol type len fuel).watched .protocol).next s =
      .ok (r, { s with isResultUsed := true }) := by
    refine (if_neg (by simp [operator, hs])).trans ?_
    simp only [operator, hrow, orStuck, ok_bind, pure_eq_ok]
  have hmove := @Operator.nextTuple_at_end _ _ _ Stop.protocol (operator prev prevCol type len fuel)
    { s with isResultUsed := true } rfl
  simp only [selectLoop, hend, Bool.false_eq_true, if_false, hnext, ok_bind, hmove, error_bind]

/-- Without a row the loop of `select_from` is left by an exception. -/
theorem avoids_selectLoop_noRow {type : AggType} {len fuel fuel' : Nat} {s : AggExecutor σ}
    (hs : s.isResultUsed = false) (hrow : row type len s.res = none) :
    Avoids Stop.protocol (selectLoop ((operator prev prevCol type len fuel).watched .protocol) fuel' s)
      fun _ => False := by
  cases fuel' with
  | zero => exact nofun
  | succ fuel' =>
    have hend : ((operator prev prevCol type len fuel).watched .protocol).isEnd s = false := hs
    have hnext : ((operator prev prevCol type len fuel).watched .protocol).next s = .error .stuck := by
      refine (if_neg (by simp [operator, hs])).trans ?_
      simp only [operator, hrow, orStuck, error_bind]
    simp only [selectLoop, hend, Bool.false_eq_true, if_false, hnext, error_bind]
    exact nofun

/-- A statement with an aggregate breaks the rule in exactly the two ways. -/
theorem selectFrom_iff (h : prev.Tame .protocol) {type : AggType} {len : Nat} {cols : List TabColMeta}
    {tupleLen : Option Nat} {s : AggExecutor σ} (hused : s.isResultUsed = false) :
    (∀ fuel, selectFrom (Node.watched ⟨_, operator (prev.watched .protocol) prevCol type len fuel, cols, tupleLen, s⟩)
        fuel ≠ .error .protocol) ↔ ¬ Breaks prev prevCol type len s.prev := by
  constructor
  · rintro hrun ⟨p, hbegin, hbreaks⟩
    by_cases hempty : (type = .max ∨ type = .min) ∧ prev.isEnd p = true
    · refine hrun 0 ?_
      have hcompute := @compute_empty _ _ prevCol _ 0 s p hempty.1 hbegin hempty.2
      show (beginTuple (prev.watched .protocol) prevCol type 0 s >>= _) = _
      rw [beginTuple, hcompute]
      rfl
    · obtain ⟨hmatch, rows, hdrains, hroom⟩ := hbreaks.resolve_left hempty
      have hstart : type = .max ∨ type = .min → prev.isEnd p = false := by
        intro hbest
        simpa [hbest] using hempty
      obtain ⟨fuel, ⟨p', res⟩, hcompute, hne, houtcome⟩ :=
        @compute_ok _ (prev.watched .protocol) prevCol type s p rows hbegin hstart hmatch (h.drains_watched.mpr hdrains)
      obtain ⟨r, hrow⟩ := (row_iff len houtcome hne).mpr hroom
      refine hrun (fuel + 1) ?_
      have hopen : beginTuple (prev.watched .protocol) prevCol type (fuel + 1) s =
          .ok { s with prev := p', res := res } := by
        rw [beginTuple, hcompute]
        exact if_pos hmatch
      have hrest := @selectLoop_result _ (prev.watched .protocol) prevCol type len (fuel + 1) fuel
        { s with prev := p', res := res } r hused hrow
      exact (congrArg (fun x => x >>= _) hopen).trans hrest
  · intro hbreaks fuel
    have hempty : type = .max ∨ type = .min → ∀ p, prev.begin s.prev = .ok p → prev.isEnd p = false := by
      intro hbest p hbegin
      by_contra hend
      exact hbreaks ⟨p, hbegin, .inl ⟨hbest, by simpa using hend⟩⟩
    have hopen : Avoids Stop.protocol (beginTuple (prev.watched .protocol) prevCol type fuel s) fun s' =>
        s'.isResultUsed = false ∧ row type len s'.res = none := by
      refine (avoids_compute (Operator.Tame.watched h) hempty).bind fun ⟨p, res⟩ _ hdrains => ?_
      dsimp only
      split
      · rename_i hmatch
        obtain ⟨p, rows, hbegin, hdrains, hne, houtcome⟩ := hdrains
        refine ⟨hused, ?_⟩
        by_contra hrow
        refine hbreaks ⟨p, hbegin, .inr ⟨hmatch, rows, h.drains_watched.mp hdrains, ?_⟩⟩
        exact (row_iff len houtcome hne).mp (Option.ne_none_iff_exists'.mp hrow)
      · exact nofun
    refine Avoids.iff_ne.mp ?_
    refine hopen.bind fun s' _ hrow => ?_
    exact (avoids_selectLoop_noRow hrow.1 hrow.2).mono fun _ hfalse => hfalse.elim

end AggOperator

-- ---------------------------------------------------------------------------
-- Statements
-- ---------------------------------------------------------------------------

/-- A SELECT with an aggregate whose executor breaks the rule over its child. -/
def SelectPlan.Breaks (env : RunEnv) : SelectPlan → Prop
  | .agg sub selCol => ∃ prev type col, env.selectNode 0 sub = .ok prev ∧
      SelectPlan.aggColumn prev.cols selCol = some (type, col) ∧
      AggOperator.Breaks prev.op col type (AggExecutor.len prev.cols col) prev.initial
  | _ => False

def DMLPlan.Breaks (env : RunEnv) : DMLPlan → Prop
  | .select sub => sub.Breaks env
  | _ => False

namespace DMLPlan

variable {env : RunEnv}

theorem avoids_selectFrom {root : Node} (h : root.Tame) (fuel : Nat) :
    Avoids Stop.protocol (selectFrom root.watched fuel) fun _ => True :=
  (h.begin root.initial).bind fun s _ _ => avoids_selectLoop (Operator.Tame.watched h) fuel s

theorem respects_select {sub : SelectPlan} (h : sub.NoAgg) : (select sub).Respects env := by
  intro fuel
  have hsub := @RunEnv.selectNode_tame env _ h fuel
  refine Avoids.iff_ne.mp ?_
  cases hroot : env.selectNode fuel sub with
  | error e =>
    rw [hroot] at hsub
    simp only [run, hroot]
    exact hsub
  | ok root =>
    simp only [run, hroot]
    exact (avoids_selectFrom (hsub.ok hroot) fuel).bind fun _ _ _ => trivial

theorem avoids_scan (x : ScanPlan) (fuel : Nat) : Avoids Stop.protocol ((update x).run env fuel) fun _ => True := by
  have hscan := @RunEnv.scanNode_tame env x
  cases hnode : env.scanNode x with
  | error e =>
    rw [hnode] at hscan
    simp only [run, hnode]
    exact hscan
  | ok node =>
    have htame := hscan.ok hnode
    simp only [run, hnode]
    exact (htame.begin node.initial).bind fun s _ _ => avoids_ridLoop (Operator.Tame.watched htame) fuel s

theorem respects_agg_iff {sub : SelectPlan} (h : sub.NoAgg) (selCol : SelCol) :
    (select (.agg sub selCol)).Respects env ↔ ¬ (SelectPlan.agg sub selCol).Breaks env := by
  have hsub := @RunEnv.selectNode_tame env _ h 0
  cases hnode : env.selectNode 0 sub with
  | error e =>
    rw [hnode] at hsub
    refine iff_of_true (fun fuel => ?_) ?_
    · simp only [run, RunEnv.selectNode, RunEnv.selectNode_fuel h fuel, hnode]
      rintro ⟨⟩
      exact hsub rfl
    · rintro ⟨prev, _, _, hprev, -⟩
      cases hnode.symm.trans hprev
  | ok prev =>
    have htame : prev.op.Tame Stop.protocol := hsub.ok hnode
    cases hcol : SelectPlan.aggColumn prev.cols selCol with
    | none =>
      refine iff_of_true (fun fuel => ?_) ?_
      · have hnone : AggOperator.node prev.watched selCol env.uninit fuel = .error .stuck := by
          unfold AggOperator.node Node.watched
          rw [hcol]
        simp only [run, RunEnv.selectNode, RunEnv.selectNode_fuel h fuel, hnode, hnone]
        exact nofun
      · rintro ⟨prev', _, _, hprev, hcol', -⟩
        obtain rfl := Except.ok.inj (hnode.symm.trans hprev)
        cases hcol.symm.trans hcol'
    | some x =>
      obtain ⟨type, col⟩ := x
      have hbreaks : (SelectPlan.agg sub selCol).Breaks env ↔
          AggOperator.Breaks prev.op col type (AggExecutor.len prev.cols col) prev.initial := by
        constructor
        · rintro ⟨prev', type', col', hprev, hcol', h⟩
          obtain rfl := Except.ok.inj (hnode.symm.trans hprev)
          obtain ⟨rfl, rfl⟩ := Prod.mk.inj (Option.some.inj (hcol.symm.trans hcol'))
          exact h
        · exact fun h => ⟨prev, type, col, hnode, hcol, h⟩
      have hfrom := @AggOperator.selectFrom_iff _ _ col htame type (AggExecutor.len prev.cols col)
        [AggExecutor.resCol type selCol col] (some (AggExecutor.len prev.cols col))
        ⟨prev.initial, env.uninit, false⟩ rfl
      refine Iff.trans (forall_congr' fun fuel => not_congr ?_) (hfrom.trans (not_congr hbreaks.symm))
      have hsome : AggOperator.node prev.watched selCol env.uninit fuel = .ok
          ⟨AggExecutor prev.State, AggOperator.operator (prev.op.watched .protocol) col type
            (AggExecutor.len prev.cols col) fuel, [AggExecutor.resCol type selCol col],
            some (AggExecutor.len prev.cols col), ⟨prev.initial, env.uninit, false⟩⟩ := by
        unfold AggOperator.node Node.watched
        rw [hcol]
      simp only [run, RunEnv.selectNode, RunEnv.selectNode_fuel h fuel, hnode, hsome]
      cases selectFrom _ fuel with
      | ok rows => exact ⟨nofun, nofun⟩
      | error e => exact ⟨fun he => congrArg _ (Except.error.inj he), fun he => congrArg _ (Except.error.inj he)⟩

end DMLPlan

theorem NoAgg.sortPlan (query : SelectQuery) (rel : Plan) : (Planner.generateSortPlan query (.rel rel)).NoAgg := by
  unfold Planner.generateSortPlan
  split
  · trivial
  · trivial

/-- A statement keeps to the rule unless it has an aggregate that moves an empty child on or gives its row. -/
theorem plan_respects_iff {db : Catalog} {stmt : AnalyzedStmt} {plan : DMLPlan} (env : RunEnv)
    (h : Planner.doPlanner db stmt = .ok plan) : plan.Respects env ↔ ¬ plan.Breaks env := by
  cases stmt with
  | select query =>
    obtain ⟨sub, hsub, hplan⟩ := bind_eq_ok_iff.mp h
    cases hplan
    obtain ⟨rel, selCols, inner, rfl, hshape⟩ := generateSelectPlan_shape hsub
    have hinner : (SelectPlan.projection (Planner.generateSortPlan query (.rel rel)) selCols).NoAgg :=
      NoAgg.sortPlan query rel
    split at hshape
    · obtain ⟨col, rfl⟩ := hshape
      exact DMLPlan.respects_agg_iff hinner col
    · subst hshape
      exact iff_of_true (DMLPlan.respects_select hinner) id
  | update tabName conds =>
    obtain ⟨scan, -, hplan⟩ := bind_eq_ok_iff.mp h
    cases hplan
    exact iff_of_true (fun fuel => (DMLPlan.avoids_scan scan fuel).ne) id
  | delete tabName conds =>
    obtain ⟨scan, -, hplan⟩ := bind_eq_ok_iff.mp h
    cases hplan
    exact iff_of_true (fun fuel => (DMLPlan.avoids_scan scan fuel).ne) id

namespace ProtocolExample

open LimitExample

/-- The table of one `INT` column, with no rows. -/
def env : RunEnv where
  table t := if t = "t" then some ⟨cols, RmFileHandle.createFile 4⟩ else none
  index _ _ := none
  uninitKey index := ⟨List.replicate (colTotLen (index.cols.map Prod.snd)) 0, List.length_replicate⟩
  uninit := .int 0
  getTime := Nat.repr
  stdSort := mergeStdSort RmRecord
  behind _ := []
  disk := ⟨fun _ => none, 0⟩
  limitNum := -1
  fuel := 10

/-- `SELECT MAX(a) FROM t`. -/
def maxStmt : SelectStmt Empty := ⟨[⟨⟨"", "a"⟩, some .max, ""⟩], ["t"], LimitExample.tabs_ne, [], none⟩

def maxQuery : SelectQuery := ⟨["t"], [⟨⟨"t", "a"⟩, some .max, ""⟩], [], none⟩

def maxPlan : DMLPlan := .select (.agg LimitExample.plan ⟨⟨"t", "a"⟩, some .max, ""⟩)

end ProtocolExample

open LimitExample in
/-- `SELECT * FROM t` with no rows. -/
theorem plan_respects_select : (DMLPlan.select plan).Respects ProtocolExample.env :=
  (@plan_respects_iff catalog (.select query) _ ProtocolExample.env rfl).mpr id

open LimitExample ProtocolExample in
/-- `MAX` calls `nextTuple` on the projection of no rows. -/
theorem plan_not_respects :
    Analyze.doAnalyze (fun v _ => nomatch v) catalog (.select maxStmt) = .ok (.select maxQuery) ∧
    Planner.doPlanner catalog (.select maxQuery) = .ok maxPlan ∧
    ¬ maxPlan.Respects ProtocolExample.env := by
  refine ⟨rfl, rfl, fun h => h 1 ?_⟩
  rfl

end Rmdb
