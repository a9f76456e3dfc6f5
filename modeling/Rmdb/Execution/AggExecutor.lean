-- SUMMARY: `AggExecutor`, and the one row that it makes of the tuples of its child.
import Rmdb.Execution.QueryExecutor
import Rmdb.Optimizer.Select

/-!
# Aggregates

`beginTuple` of an `AggExecutor` goes through all tuples of its child and keeps one value. The executor
then stands in front of one row, and is at its end as soon as `Next` has been called. `MAX` and `MIN`
call `nextTuple` of the child once more when it has no tuples; their result is then whatever the member
held before.
-/

namespace Rmdb

/-- `operator+`: other types than these throw. The sum of two `int`s wraps around. -/
def Value.add : Value → Value → Option Value
  | .float x, .float y => some (.float (x + y))
  | .int x, .int y => some (.int (readInt (writeSigned 4 (x + y))))
  | _, _ => none

/-- `init_raw(len)`, with the `StringOverflowError` of a string that is too long. -/
def Value.initRaw (len : Nat) (v : Value) : Option (List UInt8) :=
  match v with
  | .string s => if len < s.length then none else some (v.raw len)
  | _ => some (v.raw len)

/-- The members of `AggExecutor` that change. `res` is the one of `max_res_`, `min_res_`, `sum_res_` and
`count_res_` that goes with the function. -/
structure AggExecutor (σ : Type) where
  prev : σ
  res : Value
  isResultUsed : Bool

namespace AggExecutor

variable {σ : Type} (prev : Cursor σ RmRecord) (prevCol : ColMeta)

/-- A `for` loop over the tuples that are left. -/
def accumulate (step : Value → RmRecord → Option Value) : Nat → σ → Value → Option (σ × Value)
  | 0, _, _ => none
  | fuel + 1, s, res =>
    if prev.isEnd s then some (s, res) else do
      let res ← step res (prev.current s)
      let s ← prev.next s
      accumulate step fuel s res

/-- The loop body of `beginMax` and `beginMin`. -/
def keepBest (better : Value → Value → Bool) (res : Value) (r : RmRecord) : Value :=
  let val := prevCol.read r
  if better val res then val else res

/-- `beginMax` with `operator>` and `beginMin` with `operator<`. -/
def beginBest (better : Value → Value → Bool) (fuel : Nat) (s : σ) (res : Value) :
    Option (σ × Value) := do
  let s ← prev.begin s
  let res := if prev.isEnd s then res else prevCol.read (prev.current s)
  let s ← prev.next s
  accumulate prev (fun res r => some (keepBest prevCol better res r)) fuel s res

/-- What `beginSum` starts from. -/
def sumStart : Option Value :=
  match prevCol.type with
  | .int => some (.int 0)
  | .float => some (.float 0)
  | _ => none

def beginSum (fuel : Nat) (s : σ) : Option (σ × Value) := do
  let res ← sumStart prevCol
  let s ← prev.begin s
  accumulate prev (fun res r => res.add (prevCol.read r)) fuel s res

def beginCount (fuel : Nat) (s : σ) : Option (σ × Value) := do
  let s ← prev.begin s
  accumulate prev (fun res _ => res.add (.int 1)) fuel s (.int 0)

/-- The check at the end of `beginTuple`. -/
def typeMatch (type : AggType) : Bool :=
  match type with
  | .sum => prevCol.type = .int ∨ prevCol.type = .float
  | _ => prevCol.type = .int ∨ prevCol.type = .float ∨ prevCol.type = .string

/-- The `switch` of `beginTuple`. -/
def compute (type : AggType) (fuel : Nat) (s : AggExecutor σ) : Option (σ × Value) :=
  match type with
  | .max => beginBest prev prevCol Value.gt fuel s.prev s.res
  | .min => beginBest prev prevCol Value.lt fuel s.prev s.res
  | .sum => beginSum prev prevCol fuel s.prev
  | .count => beginCount prev fuel s.prev

def beginTuple (type : AggType) (fuel : Nat) (s : AggExecutor σ) : Option (AggExecutor σ) := do
  let (p, res) ← compute prev prevCol type fuel s
  if typeMatch prevCol type then return { s with prev := p, res := res } else none

/-- `len_`. A select list may have several aggregates; the first one is computed, and the child has several
columns then, as it has for `COUNT(*)`. -/
def len (prevCols : List TabColMeta) (col : ColMeta) : Nat := if prevCols.length = 1 then col.len else 4

/-- The row that `Next` makes of the result. -/
def row (type : AggType) (len : Nat) (res : Value) : Option RmRecord :=
  res.initRaw (if type = .count then 4 else len)

/-- `Next` and `nextTuple`, which `select_from` calls one after the other. `Next` sets the flag, and throws when
the result does not fit the row; `nextTuple` throws unless the child is at its end. -/
def nextTuple (type : AggType) (len : Nat) (s : AggExecutor σ) : Option (AggExecutor σ) := do
  let _ ← row type len s.res
  if prev.isEnd s.prev then some { s with isResultUsed := true } else none

/-- `res_cols_`. -/
def resCol (type : AggType) (selCol : SelCol) (col : ColMeta) : TabColMeta :=
  let name (f : String) :=
    if selCol.anotherName = "" then f ++ "(" ++ selCol.colName ++ ")" else selCol.anotherName
  match type with
  | .max => ⟨⟨name "MAX", col.type, col.len, 0⟩, ""⟩
  | .min => ⟨⟨name "MIN", col.type, col.len, 0⟩, ""⟩
  | .sum => ⟨⟨name "SUM", col.type, col.len, 0⟩, ""⟩
  | .count => ⟨⟨name "COUNT", .int, 4, 0⟩, ""⟩

/-- `uninit` is what the member holds before it is set. -/
def executor (prev : AbstractExecutor σ) (prevCol : ColMeta) (type : AggType) (selCol : SelCol)
    (uninit : Value) (fuel : Nat) : AbstractExecutor (AggExecutor σ) where
  begin := beginTuple prev.toCursor prevCol type fuel
  next := nextTuple prev.toCursor type (len prev.cols prevCol)
  isEnd := AggExecutor.isResultUsed
  current s := (row type (len prev.cols prevCol) s.res).getD []
  cols := [resCol type selCol prevCol]
  tupleLen := len prev.cols prevCol
  initial := ⟨prev.initial, uninit, false⟩

-- ---------------------------------------------------------------------------
-- The result
-- ---------------------------------------------------------------------------

/-- The best of the tuples, or what was there before. -/
def best (better : Value → Value → Bool) (uninit : Value) : List RmRecord → Value
  | [] => uninit
  | r :: rs => rs.foldl (keepBest prevCol better) (prevCol.read r)

/-- What the loops compute from the tuples of the child. -/
def outcome (type : AggType) (uninit : Value) (rows : List RmRecord) : Option Value :=
  match type with
  | .max => some (best prevCol Value.gt uninit rows)
  | .min => some (best prevCol Value.lt uninit rows)
  | .sum => (sumStart prevCol).bind fun res => rows.foldlM (fun res r => res.add (prevCol.read r)) res
  | .count => rows.foldlM (fun res _ => res.add (.int 1)) (.int 0)

/-- The row of the result; `none` when something is thrown. -/
def resultRow (type : AggType) (len : Nat) (uninit : Value) (rows : List RmRecord) : Option RmRecord :=
  if typeMatch prevCol type then (outcome prevCol type uninit rows).bind (row type len) else none

variable {prev prevCol}

theorem accumulate_eq (step : Value → RmRecord → Option Value) {fuel : Nat} {s : σ} {rows : List RmRecord}
    (h : prev.Yields s rows) (hfuel : rows.length < fuel) (res : Value) : ∃ t, prev.isEnd t = true ∧
      accumulate prev step fuel s res = (rows.foldlM step res).map fun res => (t, res) := by
  induction h generalizing fuel res with
  | done hend =>
    obtain ⟨fuel, rfl⟩ := Nat.exists_eq_add_one_of_ne_zero (Nat.ne_of_gt hfuel)
    exact ⟨_, hend, by simp [accumulate, hend]⟩
  | @tuple s s' rows hend hnext _ ih =>
    obtain ⟨fuel, rfl⟩ := Nat.exists_eq_add_one_of_ne_zero (Nat.ne_of_gt (Nat.zero_lt_of_lt hfuel))
    simp only [accumulate, hend, Bool.false_eq_true, if_false, List.foldlM_cons]
    cases hstep : step res (prev.current s) with
    | none =>
      obtain ⟨t, ht, -⟩ := ih (Nat.lt_of_succ_lt_succ hfuel) res
      exact ⟨t, ht, rfl⟩
    | some res' =>
      obtain ⟨t, ht, hloop⟩ := ih (Nat.lt_of_succ_lt_succ hfuel) res'
      exact ⟨t, ht, by simpa [hnext] using hloop⟩

/-- A child without tuples may be moved on once more. -/
def QuietEnd (prev : Cursor σ RmRecord) (s : σ) (rows : List RmRecord) : Prop :=
  rows = [] → ∀ s', prev.begin s = some s' → ∃ s'', prev.next s' = some s'' ∧ prev.isEnd s'' = true

theorem foldlM_keepBest (better : Value → Value → Bool) (rows : List RmRecord) (res : Value) :
    rows.foldlM (fun res r => some (keepBest prevCol better res r)) res =
      some (rows.foldl (keepBest prevCol better) res) := by
  induction rows generalizing res with
  | nil => rfl
  | cons r rows ih => exact ih _

theorem beginBest_eq {better : Value → Value → Bool} {fuel : Nat} {s : σ} {rows : List RmRecord}
    (h : prev.Runs s rows) (hquiet : QuietEnd prev s rows) (hfuel : rows.length < fuel) (res : Value) :
    ∃ t, prev.isEnd t = true ∧
      beginBest prev prevCol better fuel s res = some (t, best prevCol better res rows) := by
  obtain ⟨s', hbegin, hyields⟩ := h
  cases hyields with
  | done hend =>
    obtain ⟨s'', hnext, hend'⟩ := hquiet rfl s' hbegin
    obtain ⟨t, ht, hloop⟩ := accumulate_eq (fun res r => some (keepBest prevCol better res r))
      (.done hend') hfuel res
    exact ⟨t, ht, by simpa [beginBest, hbegin, hend, hnext, foldlM_keepBest, best] using hloop⟩
  | tuple hend hnext hrest =>
    obtain ⟨t, ht, hloop⟩ := accumulate_eq (fun res r => some (keepBest prevCol better res r))
      hrest (Nat.lt_of_succ_lt hfuel) (prevCol.read (prev.current s'))
    exact ⟨t, ht, by simpa [beginBest, hbegin, hend, hnext, foldlM_keepBest, best] using hloop⟩

/-- Whatever the function is, the loop ends with the value of `outcome`. -/
theorem compute_eq {type : AggType} {fuel : Nat} {s : AggExecutor σ} {rows : List RmRecord}
    (h : prev.Runs s.prev rows) (hquiet : type = .max ∨ type = .min → QuietEnd prev s.prev rows)
    (hfuel : rows.length < fuel) : ∃ t, prev.isEnd t = true ∧ compute prev prevCol type fuel s =
      (outcome prevCol type s.res rows).map fun res => (t, res) := by
  obtain ⟨s', hbegin, hyields⟩ := h
  cases type with
  | max => exact beginBest_eq ⟨s', hbegin, hyields⟩ (hquiet (.inl rfl)) hfuel s.res
  | min => exact beginBest_eq ⟨s', hbegin, hyields⟩ (hquiet (.inr rfl)) hfuel s.res
  | sum =>
    cases hstart : sumStart prevCol with
    | none =>
      obtain ⟨t, ht, -⟩ := accumulate_eq (fun res _ => some res) hyields hfuel s.res
      exact ⟨t, ht, by simp [compute, beginSum, outcome, hstart]⟩
    | some res =>
      obtain ⟨t, ht, hloop⟩ := accumulate_eq (fun res r => res.add (prevCol.read r)) hyields hfuel res
      exact ⟨t, ht, by simpa [compute, beginSum, outcome, hstart, hbegin] using hloop⟩
  | count =>
    obtain ⟨t, ht, hloop⟩ := accumulate_eq (fun res _ => res.add (.int 1)) hyields hfuel (.int 0)
    exact ⟨t, ht, by simpa [compute, beginCount, outcome, hbegin] using hloop⟩

theorem beginTuple_eq {type : AggType} {fuel : Nat} {s : AggExecutor σ} {rows : List RmRecord}
    (h : prev.Runs s.prev rows) (hquiet : type = .max ∨ type = .min → QuietEnd prev s.prev rows)
    (hfuel : rows.length < fuel) : ∃ t, prev.isEnd t = true ∧ beginTuple prev prevCol type fuel s =
      if typeMatch prevCol type then
        (outcome prevCol type s.res rows).map fun res => { s with prev := t, res := res }
      else none := by
  obtain ⟨t, ht, hcompute⟩ := @compute_eq _ prev prevCol type fuel s rows h hquiet hfuel
  refine ⟨t, ht, ?_⟩
  unfold beginTuple
  rw [hcompute]
  cases outcome prevCol type s.res rows <;> simp

/-- The executor gives the one row of the result, or fails. -/
theorem runs_iff {prev : AbstractExecutor σ} {type : AggType} {selCol : SelCol} {uninit : Value}
    {fuel : Nat} {rows out : List RmRecord} (h : prev.Runs prev.initial rows)
    (hquiet : type = .max ∨ type = .min → QuietEnd prev.toCursor prev.initial rows)
    (hfuel : rows.length < fuel) :
    (executor prev prevCol type selCol uninit fuel).Runs ⟨prev.initial, uninit, false⟩ out ↔
      ∃ r, resultRow prevCol type (len prev.cols prevCol) uninit rows = some r ∧ out = [r] := by
  obtain ⟨t, ht, hbegin⟩ := @beginTuple_eq _ prev.toCursor prevCol type fuel
    ⟨prev.initial, uninit, false⟩ rows h hquiet hfuel
  have hbegin' : (executor prev prevCol type selCol uninit fuel).begin ⟨prev.initial, uninit, false⟩ =
      _ := hbegin
  constructor
  · rintro ⟨s, hs, hyields⟩
    rw [hbegin'] at hs
    split at hs
    · rename_i hmatch
      obtain ⟨res, hres, rfl⟩ := Option.map_eq_some_iff.mp hs
      cases hyields with
      | done hend => cases hend
      | tuple _ hnext hrest =>
        obtain ⟨r, hr, hnext⟩ := Option.bind_eq_some_iff.mp hnext
        rw [if_pos ht] at hnext
        cases hnext
        refine ⟨r, by rw [resultRow, if_pos hmatch, hres, Option.bind_some, hr], ?_⟩
        cases hrest with
        | done _ => simp only [executor, hr, Option.getD_some]
        | tuple hend _ _ => cases hend
    · cases hs
  · rintro ⟨r, hr, rfl⟩
    simp only [resultRow] at hr
    split at hr
    · rename_i hmatch
      obtain ⟨res, hres, hrow⟩ := Option.bind_eq_some_iff.mp hr
      rw [if_pos hmatch, hres, Option.map_some] at hbegin'
      have hcurrent : (executor prev prevCol type selCol uninit fuel).current ⟨t, res, false⟩ = r := by
        simp only [executor, hrow, Option.getD_some]
      refine ⟨_, hbegin', ?_⟩
      rw [← hcurrent]
      refine .tuple rfl ?_ (.done (s := ⟨t, res, true⟩) rfl)
      simp only [executor, nextTuple, hrow, Option.bind_eq_bind, Option.bind_some, ht, if_true]
    · cases hr

end AggExecutor

end Rmdb
