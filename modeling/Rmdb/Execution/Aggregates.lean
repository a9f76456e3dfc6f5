-- SUMMARY: COUNT(*), MAX, MIN and SUM: which results are right.
import Rmdb.Execution.Limit

/-!
# Results of aggregates

Every aggregate goes through all tuples of its child. `MAX` and `MIN` keep one of the values. `SUM` adds with
32 bits and never looks for an overflow. `COUNT` does not read the tuples, but the check at the end of
`beginTuple` looks at the first column of the child all the same; for `COUNT(*)` that is the first column of
the first table. Below several aggregates the child has several columns, and the row of the result has four
bytes, whatever the length of the column.
-/

namespace Rmdb

namespace AggExecutor

variable {σ : Type} {prev : AbstractExecutor σ} {col : ColMeta} {selCol : SelCol} {rows : List RmRecord}
  {fuel : Nat} {uninit : Value}

/-- The exact sum of an `INT` column. -/
def exactSum (col : ColMeta) (rows : List RmRecord) : Int :=
  (rows.map fun r => readInt (slice r col.offset 4)).sum

/-- The numbers of an `int`. -/
def FitsInt (n : Int) : Prop := -2147483648 ≤ n ∧ n < 2147483648

instance (n : Int) : Decidable (FitsInt n) := inferInstanceAs (Decidable (_ ∧ _))

/-- The column and the tuples that an aggregate is said to be right for. -/
def Asked (type : AggType) (col : ColMeta) (rows : List RmRecord) : Prop :=
  match type with
  | .count => True
  | .max | .min => (col.type = .int ∨ col.type = .string) ∧ rows ≠ []
  | .sum => col.type = .int

/-- The executor returns one row, and its column has a value with this property, whatever bytes are behind
the row. -/
def Gives {σ : Type} (ex : AbstractExecutor σ) (P : Value → Prop) : Prop :=
  ∃ out resCol, ex.Runs ex.initial [out] ∧ ex.cols = [resCol] ∧
    ∀ behind : List UInt8, P (resCol.toColMeta.read (out ++ behind))

/-- What an aggregate should do. A sum that does not fit should be an error. -/
def Right {σ : Type} (ex : AbstractExecutor σ) (type : AggType) (col : ColMeta) (rows : List RmRecord) : Prop :=
  match type with
  | .count => Gives ex (· = .int rows.length)
  | .max => Gives ex fun v => v ∈ rows.map col.read ∧ ∀ w ∈ rows.map col.read, w.gt v = false
  | .min => Gives ex fun v => v ∈ rows.map col.read ∧ ∀ w ∈ rows.map col.read, w.lt v = false
  | .sum =>
    if FitsInt (exactSum col rows) then Gives ex (· = .int (exactSum col rows))
    else ¬ ∃ out, ex.Runs ex.initial out

-- ---------------------------------------------------------------------------
-- MAX and MIN
-- ---------------------------------------------------------------------------

/-- The loop keeps a value of the column that none of the tuples so far is better than. -/
theorem foldl_keepBest {better : Value → Value → Bool}
    (hirrefl : ∀ r, better (col.read r) (col.read r) = false)
    (htrans : ∀ a b c, better (col.read a) (col.read b) = true → better (col.read b) (col.read c) = true →
      better (col.read a) (col.read c) = true)
    (seen rows : List RmRecord) {r : RmRecord} (hr : r ∈ seen)
    (hbest : ∀ a ∈ seen, better (col.read a) (col.read r) = false) :
    ∃ r' ∈ seen ++ rows, rows.foldl (keepBest col better) (col.read r) = col.read r' ∧
      ∀ a ∈ seen ++ rows, better (col.read a) (col.read r') = false := by
  induction rows generalizing seen r with
  | nil => exact ⟨r, by simpa using hr, rfl, by simpa using hbest⟩
  | cons x rows ih =>
    have happ : seen ++ x :: rows = (seen ++ [x]) ++ rows := by simp
    rw [happ, List.foldl_cons]
    cases hx : better (col.read x) (col.read r) with
    | true =>
      have hkeep : keepBest col better (col.read r) x = col.read x := by simp [keepBest, hx]
      rw [hkeep]
      refine ih (seen ++ [x]) (by simp) fun a ha => ?_
      rcases List.mem_append.mp ha with ha | ha
      · -- A tuple that is better than the new one would be better than the old one.
        cases hax : better (col.read a) (col.read x) with
        | false => rfl
        | true => exact absurd (htrans a x r hax hx) (by simp [hbest a ha])
      · obtain rfl := List.mem_singleton.mp ha
        exact hirrefl a
    | false =>
      have hkeep : keepBest col better (col.read r) x = col.read r := by simp [keepBest, hx]
      rw [hkeep]
      refine ih (seen ++ [x]) (List.mem_append_left _ hr) fun a ha => ?_
      rcases List.mem_append.mp ha with ha | ha
      · exact hbest a ha
      · obtain rfl := List.mem_singleton.mp ha
        exact hx

theorem best_spec {better : Value → Value → Bool} (hirrefl : ∀ r, better (col.read r) (col.read r) = false)
    (htrans : ∀ a b c, better (col.read a) (col.read b) = true → better (col.read b) (col.read c) = true →
      better (col.read a) (col.read c) = true) (hne : rows ≠ []) :
    ∃ r ∈ rows, best col better uninit rows = col.read r ∧
      ∀ a ∈ rows, better (col.read a) (col.read r) = false := by
  cases rows with
  | nil => exact absurd rfl hne
  | cons r rows =>
    refine foldl_keepBest hirrefl htrans [r] rows List.mem_cons_self fun a ha => ?_
    obtain rfl := List.mem_singleton.mp ha
    exact hirrefl a

/-- A result fits the row below a child with these columns. Below several columns the row has four bytes, and a
string that fills them ends there only if the column does. -/
def FitsRow (cols : List TabColMeta) (col : ColMeta) : Value → Prop
  | .string s => cols.length = 1 ∨ s.length < 4 ∨ s.length = 4 ∧ col.len ≤ 4
  | _ => True

theorem fitsRow_string {cols : List TabColMeta} {s : List UInt8} (hle : s.length ≤ col.len) :
    FitsRow cols col (.string s) ↔ s.length < len cols col ∨ s.length = len cols col ∧ col.len ≤ len cols col := by
  simp only [FitsRow, len]
  split
  · rename_i hone
    exact iff_of_true (.inl hone) (by omega)
  · rename_i hmany
    simp only [hmany, false_or]

/-- A string is read up to the end of the column, or to a zero before it. -/
theorem takeWhile_slice {s rest : List UInt8} {n : Nat} (hzero : 0 ∉ s) (hle : s.length ≤ n)
    (hstop : s.length = n ∨ rest.getD 0 0 = 0) : (slice (s ++ rest) 0 n).takeWhile (fun b => b != 0) = s := by
  have hsplit : slice (s ++ rest) 0 n = s ++ slice rest 0 (n - s.length) := by
    rw [slice, ← Nat.add_sub_cancel' hle, List.range_add, List.map_append, List.map_map, Nat.add_sub_cancel_left]
    congr 1
    · exact slice_zero rfl
    · exact @slice_append_right s rest 0 (n - s.length) ▸ by simp only [slice, Nat.zero_add]; rfl
  have hnone : (slice rest 0 (n - s.length)).takeWhile (fun b => b != 0) = [] := by
    rcases hstop with rfl | hhead
    · rw [Nat.sub_self]
      rfl
    · cases n - s.length with
      | zero => rfl
      | succ k => rw [slice, List.range_succ_eq_map, List.map_cons, List.takeWhile_cons, hhead]; rfl
  have hall : ∀ b ∈ s, (b != 0) = true := fun b hb => by simpa using ne_of_mem_of_not_mem hb hzero
  rw [hsplit, List.takeWhile_append_of_pos hall, hnone, List.append_nil]

/-- The value of a column comes back from the row that is made of it, if it fits. -/
theorem read_raw {resCol : ColMeta} (hcol : col.type = .int ∨ col.type = .string)
    (htype : resCol.type = col.type) (hoffset : resCol.offset = 0) (hlen : resCol.len = col.len) (r : RmRecord)
    {cols : List TabColMeta} (hfits : FitsRow cols col (col.read r)) :
    ∃ out, (col.read r).initRaw (len cols col) = some out ∧ ∀ behind, resCol.read (out ++ behind) = col.read r := by
  have hstored := col.read_storedIn (by rcases hcol with h | h <;> simp [h]) r
  rcases hcol with h | h
  · simp only [ColMeta.read, h] at hstored ⊢
    refine ⟨_, rfl, fun behind => ?_⟩
    have hself : slice (writeSigned 4 (readInt (slice r col.offset 4)) ++ behind) 0 4 = _ := slice_zero (by simp)
    simp only [htype, h, hoffset, Value.raw, hself, readInt_writeSigned]
    rw [Int.bmod_eq_of_le (by have := hstored.2; omega) (by have := hstored.2; omega)]
  · simp only [ColMeta.read, h] at hstored hfits ⊢
    obtain ⟨-, hle, hzero⟩ := hstored
    rw [fitsRow_string hle] at hfits
    refine ⟨_, if_neg (by omega), fun behind => ?_⟩
    simp only [htype, h, hoffset, hlen, Value.raw, List.append_assoc]
    rw [takeWhile_slice hzero hle]
    rcases hfits with hlt | ⟨heq, hcol⟩
    · obtain ⟨k, hk⟩ := Nat.exists_eq_add_of_lt hlt
      exact .inr (by rw [hk, show _ + k + 1 - _ = k + 1 by omega]; rfl)
    · exact .inl (by omega)

/-- Otherwise there is no row, or the string that is read goes on behind the row. -/
theorem not_fitsRow {resCol : ColMeta} (hcol : col.type = .int ∨ col.type = .string)
    (htype : resCol.type = col.type) (hoffset : resCol.offset = 0) (hlen : resCol.len = col.len) (r : RmRecord)
    {cols : List TabColMeta} (hfits : ¬ FitsRow cols col (col.read r)) {out : RmRecord}
    (hout : (col.read r).initRaw (len cols col) = some out) :
    resCol.read (out ++ [1]) ≠ resCol.read (out ++ []) := by
  have hstored := col.read_storedIn (by rcases hcol with h | h <;> simp [h]) r
  rcases hcol with h | h
  · simp only [ColMeta.read, h, FitsRow, not_true] at hfits
  · simp only [ColMeta.read, h] at hstored hfits hout ⊢
    obtain ⟨-, hle, hzero⟩ := hstored
    rw [fitsRow_string hle] at hfits
    generalize (slice r col.offset col.len).takeWhile (fun b => b != 0) = s at *
    simp only [Value.initRaw] at hout
    split at hout
    · cases hout
    · cases hout
      have hfull : len cols col = s.length := by omega
      simp only [htype, h, hoffset, hlen, Value.raw, hfull, Nat.sub_self, List.replicate_zero, List.append_nil]
      have hone := @takeWhile_slice (s ++ [1]) [] col.len (by simp [hzero]) (by simp; omega) (.inr rfl)
      have hnil := @takeWhile_slice s [] col.len hzero hle (.inr rfl)
      rw [List.append_nil] at hone hnil
      rw [hone, hnil]
      simp

-- ---------------------------------------------------------------------------
-- SUM and COUNT
-- ---------------------------------------------------------------------------

/-- Adding with 32 bits gives the exact sum, wrapped around once. -/
theorem foldlM_add (f : RmRecord → Int) (rows : List RmRecord) (n : Int) :
    rows.foldlM (fun (res : Value) r => res.add (.int (f r))) (Value.int (n.bmod 4294967296)) =
      some (Value.int ((n + (rows.map f).sum).bmod 4294967296)) := by
  induction rows generalizing n with
  | nil => simp
  | cons r rows ih =>
    have hadd : (Value.int (n.bmod 4294967296)).add (.int (f r)) = some (.int ((n + f r).bmod 4294967296)) := by
      simp only [Value.add, readInt_writeSigned, Int.bmod_add_bmod]
    rw [List.foldlM_cons, hadd, List.map_cons, List.sum_cons, ← add_assoc]
    exact ih (n + f r)

theorem bmod_eq_self_iff {n : Int} : n.bmod 4294967296 = n ↔ FitsInt n := by
  unfold FitsInt
  constructor
  · intro h
    have hlower : -(4294967296 / 2 : Int) ≤ n.bmod 4294967296 := Int.le_bmod (by decide)
    have hupper : n.bmod 4294967296 < (4294967296 + 1) / 2 := Int.bmod_lt (by decide)
    omega
  · rintro ⟨hlower, hupper⟩
    exact Int.bmod_eq_of_le (by omega) (by omega)

/-- The row of a number reads as that number, wrapped around. -/
theorem read_int {resCol : ColMeta} (htype : resCol.type = .int) (hoffset : resCol.offset = 0) (n : Int) (len : Nat)
    (behind : List UInt8) :
    resCol.read ((Value.int (n.bmod 4294967296)).raw len ++ behind) = .int (n.bmod 4294967296) := by
  have hself : slice (writeSigned 4 (n.bmod 4294967296) ++ behind) 0 4 = _ := slice_zero (by simp)
  simp only [ColMeta.read, htype, hoffset, Value.raw, hself, readInt_writeSigned, Int.bmod_bmod]

-- ---------------------------------------------------------------------------
-- The executor
-- ---------------------------------------------------------------------------

/-- When the result is right, below a child with these columns. -/
def RightWhen (type : AggType) (cols : List TabColMeta) (col : ColMeta) (rows : List RmRecord) : Prop :=
  match type with
  | .count => (col.type = .int ∨ col.type = .float ∨ col.type = .string) ∧ FitsInt rows.length
  | .max => ∃ r ∈ rows, (∀ a ∈ rows, (col.read a).gt (col.read r) = false) ∧ FitsRow cols col (col.read r)
  | .min => ∃ r ∈ rows, (∀ a ∈ rows, (col.read a).lt (col.read r) = false) ∧ FitsRow cols col (col.read r)
  | .sum => FitsInt (exactSum col rows)

theorem gives_iff {type : AggType} (hruns : prev.Runs prev.initial rows) (hne : type = .max ∨ type = .min → rows ≠ [])
    (hfuel : rows.length < fuel) {P : Value → Prop} :
    Gives (executor prev col type selCol uninit fuel) P ↔ ∃ r,
      resultRow col type (len prev.cols col) uninit rows = some r ∧
        ∀ behind, P ((resCol type selCol col).toColMeta.read (r ++ behind)) := by
  have hiff := @runs_iff σ col prev type selCol uninit fuel rows
  constructor
  · rintro ⟨out, c, hout, hcols, hP⟩
    cases hcols
    obtain ⟨r, hr, heq⟩ := (hiff hruns (fun h hnil => absurd hnil (hne h)) hfuel).mp hout
    cases heq
    exact ⟨out, hr, hP⟩
  · rintro ⟨r, hr, hP⟩
    exact ⟨r, _, (hiff hruns (fun h hnil => absurd hnil (hne h)) hfuel).mpr ⟨r, hr, rfl⟩, rfl, hP⟩

/-- Of two values of a column, one is less, or they are the same. -/
theorem read_trichotomy (htype : col.type = .int ∨ col.type = .string) {a b : RmRecord}
    (hab : (col.read a).lt (col.read b) = false) (hba : (col.read b).lt (col.read a) = false) :
    col.read a = col.read b := by
  rcases htype with h | h
  · simp only [ColMeta.read, h, Value.lt, decide_eq_false_iff_not, Value.int.injEq] at hab hba ⊢
    omega
  · simp only [ColMeta.read, h, Value.lt, decide_eq_false_iff_not, Value.string.injEq] at hab hba ⊢
    exact List.le_antisymm (List.not_lt.mp hba) (List.not_lt.mp hab)

/-- There is one best value of such a column, and the loop keeps it. -/
theorem best_unique {better : Value → Value → Bool} (hbetter : better = Value.gt ∨ better = Value.lt)
    (htype : col.type = .int ∨ col.type = .string) (hne : rows ≠ []) :
    ∃ r ∈ rows, best col better uninit rows = col.read r ∧ (∀ a ∈ rows, better (col.read a) (col.read r) = false) ∧
      ∀ a ∈ rows, (∀ b ∈ rows, better (col.read b) (col.read a) = false) → col.read a = col.read r := by
  have hweak := lt_weak col (by rcases htype with h | h <;> simp [h])
  rcases hbetter with rfl | rfl
  · obtain ⟨r, hr, hbest, hall⟩ := @best_spec col rows uninit Value.gt
      (fun r => by simpa [Value.gt] using hweak.irrefl r) (fun a b c hab hbc => hweak.trans c b a hbc hab) hne
    exact ⟨r, hr, hbest, hall, fun a ha hbest => read_trichotomy htype (hbest r hr) (hall a ha)⟩
  · obtain ⟨r, hr, hbest, hall⟩ := @best_spec col rows uninit Value.lt
      (fun r => by simpa using hweak.irrefl r) (fun a b c hab hbc => hweak.trans a b c hab hbc) hne
    exact ⟨r, hr, hbest, hall, fun a ha hbest => read_trichotomy htype (hall a ha) (hbest r hr)⟩

/-- `MAX` and `MIN` of a column that is not empty are right when the best value fits the row. -/
theorem gives_best_iff {type : AggType} {better : Value → Value → Bool}
    (hbetter : type = .max ∧ better = Value.gt ∨ type = .min ∧ better = Value.lt)
    (hruns : prev.Runs prev.initial rows) (htype : col.type = .int ∨ col.type = .string) (hne : rows ≠ [])
    (hfuel : rows.length < fuel) :
    Gives (executor prev col type selCol uninit fuel)
        (fun v => v ∈ rows.map col.read ∧ ∀ w ∈ rows.map col.read, better w v = false) ↔
      ∃ r ∈ rows, (∀ a ∈ rows, better (col.read a) (col.read r) = false) ∧
        FitsRow prev.cols col (col.read r) := by
  obtain ⟨r, hr, hbest, hall, huniq⟩ :=
    @best_unique col rows uninit better (hbetter.imp And.right And.right) htype hne
  have hmatch : typeMatch col type = true := by
    rcases hbetter with ⟨rfl, -⟩ | ⟨rfl, -⟩ <;> rcases htype with h | h <;> simp [typeMatch, h]
  have houtcome : outcome col type uninit rows = some (best col better uninit rows) := by
    rcases hbetter with ⟨rfl, rfl⟩ | ⟨rfl, rfl⟩ <;> rfl
  have hrow : resultRow col type (len prev.cols col) uninit rows = (col.read r).initRaw (len prev.cols col) := by
    simp only [resultRow, hmatch, if_true, houtcome, hbest, Option.bind_some, row]
    rw [if_neg (by rcases hbetter with ⟨rfl, -⟩ | ⟨rfl, -⟩ <;> simp)]
  obtain ⟨hrestype, hoffset, hreslen⟩ : (resCol type selCol col).type = col.type ∧
      (resCol type selCol col).offset = 0 ∧ (resCol type selCol col).len = col.len := by
    rcases hbetter with ⟨rfl, -⟩ | ⟨rfl, -⟩
    · exact ⟨rfl, rfl, rfl⟩
    · exact ⟨rfl, rfl, rfl⟩
  rw [gives_iff hruns (fun _ => hne) hfuel, hrow]
  constructor
  · rintro ⟨out, hout, hP⟩
    refine ⟨r, hr, hall, ?_⟩
    by_contra hfits
    -- Two different bytes behind the row would give two best values.
    have hsame : ∀ behind, (resCol type selCol col).toColMeta.read (out ++ behind) = col.read r := by
      intro behind
      obtain ⟨hmem, hbest⟩ := hP behind
      obtain ⟨a, ha, heq⟩ := List.mem_map.mp hmem
      rw [← heq] at hbest ⊢
      exact huniq a ha fun b hb => hbest _ (List.mem_map_of_mem hb)
    exact not_fitsRow htype hrestype hoffset hreslen r hfits hout ((hsame [1]).trans (hsame []).symm)
  · rintro ⟨a, ha, hbest, hfits⟩
    rw [huniq a ha hbest] at hfits
    obtain ⟨out, hout, hread⟩ := read_raw htype hrestype hoffset hreslen r hfits
    refine ⟨out, hout, fun behind => ?_⟩
    rw [hread]
    refine ⟨List.mem_map_of_mem hr, fun w hw => ?_⟩
    obtain ⟨b, hb, rfl⟩ := List.mem_map.mp hw
    exact hall b hb

/-- `COUNT` gives the number of tuples, wrapped around, unless the check at the end fails. -/
theorem gives_count (hruns : prev.Runs prev.initial rows) (hfuel : rows.length < fuel) {P : Value → Prop} :
    Gives (executor prev col .count selCol uninit fuel) P ↔
      (col.type = .int ∨ col.type = .float ∨ col.type = .string) ∧
        P (.int ((rows.length : Int).bmod 4294967296)) := by
  have houtcome : outcome col .count uninit rows = some (.int ((rows.length : Int).bmod 4294967296)) := by
    have hfold := foldlM_add (fun _ => 1) rows 0
    simpa [outcome] using hfold
  have hread := @read_int (resCol .count selCol col).toColMeta rfl rfl rows.length 4
  have hrow : row .count (len prev.cols col) (.int ((rows.length : Int).bmod 4294967296)) = some _ := rfl
  rw [gives_iff hruns (by simp) hfuel]
  simp only [resultRow, houtcome, Option.bind_some, hrow]
  constructor
  · rintro ⟨r, hr, hP⟩
    split at hr
    · rename_i hmatch
      cases hr
      exact ⟨by simpa [typeMatch] using hmatch, hread [] ▸ hP []⟩
    · cases hr
  · rintro ⟨htype, hP⟩
    have hmatch : typeMatch col .count = true := by simpa [typeMatch] using htype
    refine ⟨_, if_pos hmatch, fun behind => ?_⟩
    rw [if_pos trivial, hread]
    exact hP

/-- `SUM` of an `INT` column gives the exact sum, wrapped around. -/
theorem gives_sum (hruns : prev.Runs prev.initial rows) (htype : col.type = .int) (hfuel : rows.length < fuel) :
    ∃ out, (executor prev col .sum selCol uninit fuel).Runs ⟨prev.initial, uninit, false⟩ [out] ∧
      ∀ behind, (resCol .sum selCol col).toColMeta.read (out ++ behind) =
        .int ((exactSum col rows).bmod 4294967296) := by
  have houtcome : outcome col .sum uninit rows = some (.int ((exactSum col rows).bmod 4294967296)) := by
    have hfold := foldlM_add (fun r => readInt (slice r col.offset 4)) rows 0
    simpa [outcome, sumStart, htype, ColMeta.read, exactSum] using hfold
  have hmatch : typeMatch col .sum = true := by simp [typeMatch, htype]
  refine ⟨_, (runs_iff hruns (by simp) hfuel).mpr
    ⟨_, by simp only [resultRow, hmatch, houtcome]; rfl, rfl⟩, ?_⟩
  exact @read_int (resCol .sum selCol col).toColMeta htype rfl _ (len prev.cols col)

/-- `COUNT(*)` goes through a projection to all columns, those of the first table in front. -/
theorem generateSelectPlan_countStar {db : Catalog} {tables : List String} {conds : List JoinCondition}
    {orderBy : Option (List (TabCol × Bool))} {name : String} {plan : SelectPlan}
    (hplan : Planner.generateSelectPlan db ⟨tables, [⟨⟨"", ""⟩, some .count, name⟩], conds, orderBy⟩ = .ok plan) :
    ∃ sub allCols, Analyze.getAllCols db tables = .ok allCols ∧
      plan = .agg (.projection sub (allCols.map fun col => ⟨col.tabName, col.name⟩)) ⟨⟨"", ""⟩, some .count, name⟩ := by
  simp only [Planner.generateSelectPlan, Planner.projectedCols, Planner.generateAggPlan] at hplan
  cases hrel : Planner.makeOneRel db ⟨tables, conds⟩ with
  | error e => simp [hrel, bind, Except.bind] at hplan
  | ok rel =>
    cases hall : Analyze.getAllCols db tables with
    | error e => simp [hrel, hall, bind, Except.bind] at hplan
    | ok allCols =>
      simp [hrel, hall, bind, Except.bind, pure, Except.pure] at hplan
      exact ⟨_, allCols, rfl, hplan.symm⟩

/-- The result is right exactly when: for `COUNT(*)`, the first column of the child has a type that the
check at the end lets through, and the number of tuples is an `int`; for `SUM`, the sum is one; for `MAX` and `MIN`,
the greatest or the least value fits the row, as it does below a single column. -/
theorem aggregate_right_iff (hruns : prev.Runs prev.initial rows) {type : AggType} (hasked : Asked type col rows)
    (hfuel : rows.length < fuel) :
    Right (executor prev col type selCol uninit fuel) type col rows ↔ RightWhen type prev.cols col rows := by
  cases type with
  | max => exact gives_best_iff (.inl ⟨rfl, rfl⟩) hruns hasked.1 hasked.2 hfuel
  | min => exact gives_best_iff (.inr ⟨rfl, rfl⟩) hruns hasked.1 hasked.2 hfuel
  | count => simp only [Right, RightWhen, gives_count hruns hfuel, Value.int.injEq, bmod_eq_self_iff]
  | sum =>
    obtain ⟨out, hout, hread⟩ := @gives_sum σ prev col selCol rows fuel uninit hruns hasked hfuel
    simp only [Right, RightWhen]
    split
    · rename_i hfits
      rw [bmod_eq_self_iff.mpr hfits] at hread
      exact ⟨fun _ => hfits, fun _ => ⟨out, _, hout, rfl, hread⟩⟩
    · rename_i hfits
      exact ⟨fun h => absurd ⟨_, hout⟩ h, fun h => absurd h hfits⟩

/-- The tuples of a list, with these columns. -/
def ofList (cols : List TabColMeta) (rows : List RmRecord) : AbstractExecutor (List RmRecord) where
  toCursor := listCursor rows
  cols := cols
  tupleLen := (cols.map (·.len)).sum
  initial := []

/-- `s CHAR(8)` and `a INT`. -/
def nameAndNumber : List TabColMeta := [⟨⟨"s", .string, 8, 0⟩, "t"⟩, ⟨⟨"a", .int, 4, 8⟩, "t"⟩]

/-- `SELECT MAX(s), MIN(a)` where the greatest of the strings has three bytes. -/
theorem max_right_strings :
    Right (executor (ofList nameAndNumber
        [[97, 98, 99, 100, 101, 0, 0, 0, 1, 0, 0, 0], [98, 97, 97, 0, 0, 0, 0, 0, 2, 0, 0, 0]])
      ⟨"s", .string, 8, 0⟩ .max ⟨⟨"t", "s"⟩, some .max, ""⟩ (.int 0) 3) .max ⟨"s", .string, 8, 0⟩
      [[97, 98, 99, 100, 101, 0, 0, 0, 1, 0, 0, 0], [98, 97, 97, 0, 0, 0, 0, 0, 2, 0, 0, 0]] :=
  (@aggregate_right_iff _ (ofList nameAndNumber _) _ _ _ _ _ (listCursor_runs _ _) .max
    ⟨.inr rfl, List.cons_ne_nil _ _⟩ (by decide)).mpr
    ⟨_, List.mem_cons_of_mem _ List.mem_cons_self, by decide, .inr (.inl (by decide))⟩

/-- `COUNT(*)` of a table whose first column is a `BIGINT` fails, 2147483647 + 1 is -2147483648, and 'abcdefgh' does
not fit the four bytes of `SELECT MAX(s), MIN(a)`. -/
theorem aggregate_wrong :
    ¬ Right (executor (ofList [⟨⟨"a", .bigint, 8, 0⟩, "t"⟩] [[1, 0, 0, 0, 0, 0, 0, 0]]) ⟨"a", .bigint, 8, 0⟩ .count
      ⟨⟨"", ""⟩, some .count, "COUNT(*)"⟩ (.int 0) 3) .count ⟨"a", .bigint, 8, 0⟩ [[1, 0, 0, 0, 0, 0, 0, 0]] ∧
    ¬ Right (executor (ofList [⟨⟨"a", .int, 4, 0⟩, "t"⟩] [[255, 255, 255, 127], [1, 0, 0, 0]]) ⟨"a", .int, 4, 0⟩ .sum
      ⟨⟨"t", "a"⟩, some .sum, ""⟩ (.int 0) 3) .sum ⟨"a", .int, 4, 0⟩ [[255, 255, 255, 127], [1, 0, 0, 0]] ∧
    ¬ Right (executor (ofList nameAndNumber [[97, 98, 99, 100, 101, 102, 103, 104, 1, 0, 0, 0]])
      ⟨"s", .string, 8, 0⟩ .max ⟨⟨"t", "s"⟩, some .max, ""⟩ (.int 0) 3) .max ⟨"s", .string, 8, 0⟩
      [[97, 98, 99, 100, 101, 102, 103, 104, 1, 0, 0, 0]] := by
  refine ⟨?_, fun h => ?_, fun h => ?_⟩
  · rintro ⟨out, c, ⟨s, hbegin, -⟩, -⟩
    simp [executor, beginTuple, typeMatch] at hbegin
  · have hbig : ¬ FitsInt (exactSum ⟨"a", .int, 4, 0⟩ [[255, 255, 255, 127], [1, 0, 0, 0]]) := by decide
    simp only [Right, if_neg hbig] at h
    obtain ⟨out, hout, -⟩ := @gives_sum _ (ofList [⟨⟨"a", .int, 4, 0⟩, "t"⟩] [[255, 255, 255, 127], [1, 0, 0, 0]])
      ⟨"a", .int, 4, 0⟩ ⟨⟨"t", "a"⟩, some .sum, ""⟩ _ 3 (.int 0) (listCursor_runs _ _) rfl (by decide)
    exact h ⟨_, hout⟩
  · obtain ⟨r, hr, -, hfits⟩ := (@gives_best_iff _ (ofList nameAndNumber _) _ _ _ _ _ .max _ (.inl ⟨rfl, rfl⟩)
      (listCursor_runs _ _) (.inr rfl) (List.cons_ne_nil _ _) (by decide)).mp h
    obtain rfl := List.mem_singleton.mp hr
    have hlen : 2 = 1 ∨ 8 < 4 ∨ 8 = 4 ∧ 8 ≤ 4 := hfits
    omega

end AggExecutor

end Rmdb
