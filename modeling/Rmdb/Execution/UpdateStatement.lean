-- SUMMARY: UPDATE from its set clauses to the bytes of the row, and what the columns hold then.
import Mathlib.Data.List.Nodup
import Rmdb.Common.Convert
import Rmdb.Execution.InsertStatement

/-!
# UPDATE

A set clause is `c = v`, `c = d + v` or `c = d - v`. The action of the grammar keeps `c`, the sign and `v`, so from
there on the clause is about `c` alone, and the executor adds to what `c` holds. It adds in place on the bytes of
the row, where integers wrap around. So a clause with a second column is right for a row when both columns hold the
same number and the result fits.
-/

namespace Rmdb

-- ---------------------------------------------------------------------------
-- The statement
-- ---------------------------------------------------------------------------

/-- The productions of `sign`. -/
inductive Sign where
  | plus
  | minus
  deriving DecidableEq, Repr

def Sign.op : Sign → SetOp
  | .plus => .add
  | .minus => .sub

/-- The productions of `setClause`. -/
inductive SetClauseRule where
  | value (colName : String) (val : SvValue)
  | signed (colName colName' : String) (sign : Sign) (val : SvValue)

/-- `ast::SetClause`. -/
structure AstSetClause where
  colName : String
  op : SetOp
  val : SvValue

/-- The actions of `setClause`. The second column is not used. -/
def SetClauseRule.action : SetClauseRule → AstSetClause
  | .value colName val => ⟨colName, .assign, val⟩
  | .signed colName _ sign val => ⟨colName, sign.op, val⟩

inductive UpdateError where
  | analyze (e : AnalyzeError)
  | convert (e : ConvertError)
  | execute (e : DbError)

variable (casts : FloatCasts)

namespace Analyze

/-- One turn of the loop over the clauses of an UPDATE. -/
def setClause (db : Catalog) (allCols : List TabColMeta) (tabName : String) (clause : AstSetClause) :
    Except UpdateError SetClause := do
  let lhs ← (checkColumn allCols ⟨tabName, clause.colName⟩).mapError .analyze
  let lhsTab ← (getTable db lhs.tabName).mapError .analyze
  let lhsCol ← (getCol lhsTab lhs.colName).mapError .analyze
  let rhs ← (convertSvValue casts clause.val lhsCol.toColMeta).mapError .convert
  return ⟨lhs.colName, rhs, clause.op⟩

/-- `do_analyze` of an UPDATE, without its conditions. -/
def setClauses (db : Catalog) (tabName : String) (clauses : List AstSetClause) :
    Except UpdateError (List SetClause) := do
  let allCols ← (getAllCols db [tabName]).mapError .analyze
  clauses.mapM (setClause casts db allCols tabName)

end Analyze

/-- What an UPDATE makes of a row of the table. -/
def updateRow (db : Catalog) (tabName : String) (clauses : List AstSetClause) (r : RmRecord) :
    Except UpdateError RmRecord := do
  let setClauses ← Analyze.setClauses casts db tabName clauses
  let tab ← (Analyze.getTable db tabName).mapError .analyze
  (applySetClauses (tab.cols.map (·.toColMeta)) setClauses r).mapError .execute

-- ---------------------------------------------------------------------------
-- What an UPDATE should do
-- ---------------------------------------------------------------------------

namespace IntType

/-- The bytes of a number of the type. -/
def bytes : IntType → Int → List UInt8
  | .int, n => writeSigned 4 n
  | .int64, n => writeSigned 8 n

/-- The number that a column of the type holds. -/
def ofBytes : IntType → List UInt8 → Int
  | .int, bs => readInt bs
  | .int64, bs => readBigint bs

/-- The value of a number, if it fits the type. -/
def fit (t : IntType) (n : Int) : Option Value := if t.Holds n then some (t.value n) else none

/-- The number that a literal stands for in a column of the type. -/
def number (t : IntType) : SvValue → Option Int
  | .intBint text _ => some (intValue text)
  | .float x => some (match t with
    | .int => casts.toInt x
    | .int64 => casts.toBigint x)
  | .string _ _ => none

end IntType

def Sign.compute : Sign → Int → Int → Int
  | .plus, old, n => old + n
  | .minus, old, n => old - n

/-- The `d` and the sign of a clause `c = d + v` or `c = d - v`, where `c` and `d` have one type of integers. -/
structure ClauseSource (cols : List ColMeta) (col : ColMeta) where
  colName : String
  sign : Sign
  t : IntType
  other : ColMeta
  found : getCol cols colName = some other
  type : col.type = t.colType
  other_type : other.type = t.colType

/-- A set clause for a table with these columns. -/
structure Assignment (cols : List ColMeta) where
  colName : String
  lit : SvValue
  col : ColMeta
  found : getCol cols colName = some col
  source : Option (ClauseSource cols col)

/-- The number that the column holds in a row. -/
def IntType.held (t : IntType) (col : ColMeta) (r : RmRecord) : Int := t.ofBytes (slice r col.offset col.len)

/-- What a literal is as a value of a column. -/
def literalValue (lit : SvValue) (col : ColMeta) : Option Value :=
  match col.type with
  | .int => (IntType.int.number casts lit).bind IntType.int.fit
  | .bigint => (IntType.int64.number casts lit).bind IntType.int64.fit
  | _ => (convertSvValue casts lit col).toOption

namespace Assignment

variable {cols : List ColMeta}

/-- The clause as it is written. -/
def rule (w : Assignment cols) : SetClauseRule :=
  match w.source with
  | none => .value w.colName w.lit
  | some src => .signed w.colName src.colName src.sign w.lit

/-- The value that the clause should give the column, if there is one. -/
def wanted (w : Assignment cols) (r : RmRecord) : Option Value :=
  match w.source with
  | none => literalValue casts w.lit w.col
  | some src => (src.t.number casts w.lit).bind fun n => src.t.fit (src.sign.compute (src.t.held src.other r) n)

end Assignment

/-- The updated row has the wanted values in the columns of the clauses and is the same in all others. When there is
no such value for a clause, the statement is rejected. -/
structure UpdateRight (db : Catalog) (tabName : String) {cols : List ColMeta} (ws : List (Assignment cols))
    (r : RmRecord) : Prop where
  accepted : (∀ w ∈ ws, w.wanted casts r ≠ none) → ∃ r',
    updateRow casts db tabName (ws.map fun w => w.rule.action) r = .ok r' ∧
    (∀ w ∈ ws, ∀ v, w.wanted casts r = some v → slice r' w.col.offset w.col.len = v.raw w.col.len) ∧
    ∀ col ∈ cols, col ∉ ws.map (·.col) → slice r' col.offset col.len = slice r col.offset col.len
  rejected : (∃ w ∈ ws, w.wanted casts r = none) →
    ∃ e, updateRow casts db tabName (ws.map fun w => w.rule.action) r = .error e

/-- The literal converts to the type of its column. -/
def Assignment.Converts {cols : List ColMeta} (w : Assignment cols) : Prop :=
  ∃ val, convertSvValue casts w.lit w.col = .ok val

/-- Every literal converts, and a second column holds the same number as the first, from which a number of the type
can be computed. Or some literal does not convert, and some clause has no value to assign. -/
def UpdateFine {cols : List ColMeta} (ws : List (Assignment cols)) (r : RmRecord) : Prop :=
  (∀ w ∈ ws, w.Converts casts ∧
      ∀ src, w.source = some src → src.t.held w.col r = src.t.held src.other r ∧ w.wanted casts r ≠ none) ∨
    (∃ w ∈ ws, ¬ w.Converts casts) ∧ ∃ w ∈ ws, w.wanted casts r = none

-- ---------------------------------------------------------------------------
-- Numbers of a column
-- ---------------------------------------------------------------------------

variable {casts}

namespace IntType

variable {t : IntType}

theorem raw_value (n : Int) (len : Nat) : (t.value n).raw len = t.bytes n := by
  cases t <;> rfl

theorem ofBytes_bytes {n : Int} (h : t.Holds n) : t.ofBytes (t.bytes n) = n := by
  obtain ⟨hlower, hupper⟩ := h
  cases t with
  | int =>
    simp only [ofBytes, bytes, readInt_writeSigned, lowest, max] at hlower hupper ⊢
    exact Int.bmod_eq_of_le (by omega) (by omega)
  | int64 =>
    simp only [ofBytes, bytes, readBigint_writeSigned, lowest, max] at hlower hupper ⊢
    exact Int.bmod_eq_of_le (by omega) (by omega)

/-- Numbers with the same bytes are alike up to wrapping around, which takes a number of the type to no other. -/
theorem add_eq_of_bytes_eq {x y n : Int} (hx : t.Holds x) (hy : t.Holds y)
    (h : t.bytes (x + n) = t.bytes (y + n)) : x = y := by
  have hread := congrArg t.ofBytes h
  obtain ⟨hlower, hupper⟩ := hx
  obtain ⟨hlower', hupper'⟩ := hy
  cases t with
  | int =>
    simp only [ofBytes, bytes, readInt_writeSigned, lowest, max, Int.bmod] at *
    split at hread <;> split at hread <;> omega
  | int64 =>
    simp only [ofBytes, bytes, readBigint_writeSigned, lowest, max, Int.bmod] at *
    split at hread <;> split at hread <;> omega

theorem compute_eq_of_bytes_eq (sign : Sign) {x y n : Int} (hx : t.Holds x) (hy : t.Holds y)
    (h : t.bytes (sign.compute x n) = t.bytes (sign.compute y n)) : x = y := by
  cases sign with
  | plus => exact add_eq_of_bytes_eq hx hy h
  | minus => exact add_eq_of_bytes_eq hx hy (by simpa [Sign.compute, Int.sub_eq_add_neg] using h)

theorem held_holds {col : ColMeta} (hlen : col.len = (t.bytes 0).length) (r : RmRecord) :
    t.Holds (t.held col r) := by
  cases t with
  | int =>
    have hbounds := @readInt_bounds (slice r col.offset col.len) (by rw [slice_length, hlen]; rfl)
    exact ⟨hbounds.1, Int.le_of_lt_add_one hbounds.2⟩
  | int64 =>
    have hbounds := @readBigint_bounds (slice r col.offset col.len) (by rw [slice_length, hlen]; rfl)
    exact ⟨hbounds.1, Int.le_of_lt_add_one hbounds.2⟩

@[simp] theorem bytes_length (n : Int) : (t.bytes n).length = (t.bytes 0).length := by
  cases t <;> simp [bytes]

theorem fit_eq_some {n : Int} {v : Value} : t.fit n = some v ↔ t.Holds n ∧ v = t.value n := by
  unfold fit
  split
  · rename_i h
    simp [h, eq_comm]
  · rename_i h
    simp [h]

theorem fit_ne_none {n : Int} : t.fit n ≠ none ↔ t.Holds n := by
  unfold fit
  split <;> simp [*]

/-- What the executor computes in a column of the type. -/
theorem setClause_compute (sign : Sign) (old raw : List UInt8) :
    SetClause.compute sign.op t.colType old raw = .ok (t.bytes (sign.compute (t.ofBytes old) (t.ofBytes raw))) := by
  cases sign <;> cases t <;> rfl

/-- What a literal is converted to is its number, which is one of the type. -/
theorem convertSvValue_number {lit : SvValue} {col : ColMeta} {val : Value} (hcol : col.type = t.colType)
    (h : convertSvValue casts lit col = .ok val) : ∃ n, t.number casts lit = some n ∧ t.Holds n ∧ val = t.value n := by
  cases lit with
  | intBint text lit =>
    rw [(t.convert_eq lit hcol).1] at h
    split at h
    · rename_i hpass
      exact ⟨_, rfl, ((t.noOverflow_iff lit).mp hpass).2, (Except.ok.inj h).symm⟩
    · cases h
  | float x =>
    unfold convertSvValue at h
    rw [hcol] at h
    cases t with
    | int => exact ⟨_, rfl, casts.toInt_holds x, (Except.ok.inj h).symm⟩
    | int64 => exact ⟨_, rfl, casts.toBigint_holds x, (Except.ok.inj h).symm⟩
  | string s noZero =>
    unfold convertSvValue at h
    rw [hcol] at h
    cases t <;> cases h

end IntType

theorem literalValue_of_convert {lit : SvValue} {col : ColMeta} {val : Value}
    (h : convertSvValue casts lit col = .ok val) : literalValue casts lit col = some val := by
  unfold literalValue
  split
  · rename_i htype
    obtain ⟨n, hn, hholds, rfl⟩ := IntType.int.convertSvValue_number htype h
    rw [hn, Option.bind_some, IntType.fit_eq_some]
    exact ⟨hholds, rfl⟩
  · rename_i htype
    obtain ⟨n, hn, hholds, rfl⟩ := IntType.int64.convertSvValue_number htype h
    rw [hn, Option.bind_some, IntType.fit_eq_some]
    exact ⟨hholds, rfl⟩
  · rw [h]
    rfl

-- ---------------------------------------------------------------------------
-- The layout of a row
-- ---------------------------------------------------------------------------

/-- What the parser makes of a column. -/
structure ColDef.Typed (d : ColDef) : Prop where
  int : d.type = .int → d.len = 4
  float : d.type = .float → d.len = 4
  bigint : d.type = .bigint → d.len = 8
  datetime : d.type = .datetime → d.len = 8

structure ColMeta.Typed (col : ColMeta) : Prop extends col.Sized where
  float : col.type = .float → col.len = 4

/-- The columns are inside of the record, and no two of them overlap. -/
structure Layout (cols : List ColMeta) (size : Nat) : Prop where
  typed : ∀ col ∈ cols, col.Typed
  inside : ∀ col ∈ cols, col.offset + col.len ≤ size
  apart : ∀ c ∈ cols, ∀ d ∈ cols, c ≠ d → c.offset + c.len ≤ d.offset ∨ d.offset + d.len ≤ c.offset

/-- The columns of a table as the executors see them. -/
def columns (tabName : String) (colDefs : List ColDef) : List ColMeta :=
  (makeCols tabName colDefs 0).map (·.toColMeta)

theorem makeCols_bounds {tabName : String} {colDefs : List ColDef} {offset : Nat} {c : TabColMeta}
    (h : c ∈ makeCols tabName colDefs offset) : offset ≤ c.offset ∧ c.offset + c.len ≤ offset + recordSize colDefs := by
  induction colDefs generalizing offset with
  | nil => cases h
  | cons d colDefs ih =>
    have hsize : recordSize (d :: colDefs) = d.len + recordSize colDefs := rfl
    rcases List.mem_cons.mp h with rfl | h
    · exact ⟨le_rfl, by simp only [hsize]; omega⟩
    · obtain ⟨hlower, hupper⟩ := ih h
      omega

theorem makeCols_apart {tabName : String} {colDefs : List ColDef} {offset : Nat} {c d : TabColMeta}
    (hc : c ∈ makeCols tabName colDefs offset) (hd : d ∈ makeCols tabName colDefs offset) (hne : c ≠ d) :
    c.offset + c.len ≤ d.offset ∨ d.offset + d.len ≤ c.offset := by
  induction colDefs generalizing offset with
  | nil => cases hc
  | cons e colDefs ih =>
    rcases List.mem_cons.mp hc with rfl | hc <;> rcases List.mem_cons.mp hd with rfl | hd
    · exact absurd rfl hne
    · exact .inl (makeCols_bounds hd).1
    · exact .inr (makeCols_bounds hc).1
    · exact ih hc hd

theorem layout_columns (tabName : String) {colDefs : List ColDef} (h : ∀ d ∈ colDefs, d.Typed) :
    Layout (columns tabName colDefs) (recordSize colDefs) := by
  constructor
  · intro col hcol
    obtain ⟨c, hc, rfl⟩ := List.mem_map.mp hcol
    obtain ⟨d, hd, -, htype, hlen⟩ : ∃ d ∈ colDefs, c.name = d.name ∧ c.type = d.type ∧ c.len = d.len := mem_makeCols hc
    have hd := h d hd
    constructor
    · constructor <;> rw [htype, hlen]
      · exact hd.int
      · exact hd.bigint
      · exact hd.datetime
    · rw [htype, hlen]
      exact hd.float
  · intro col hcol
    obtain ⟨c, hc, rfl⟩ := List.mem_map.mp hcol
    have hbounds := makeCols_bounds hc
    omega
  · intro col hcol col' hcol' hne
    obtain ⟨c, hc, rfl⟩ := List.mem_map.mp hcol
    obtain ⟨d, hd, rfl⟩ := List.mem_map.mp hcol'
    exact makeCols_apart hc hd fun heq => hne (congrArg TabColMeta.toColMeta heq)

theorem convertSvValue_float {lit : SvValue} {col : ColMeta} {val : Value} (hcol : col.type = .float)
    (h : convertSvValue casts lit col = .ok val) : ∃ x, val = .float x := by
  obtain ⟨v, hv, hinit⟩ := bind_eq_ok_iff.mp h
  rw [hcol] at hv
  cases lit with
  | intBint text lit =>
    simp only [convertLiteral, convertInteger, Option.getD_some] at hv
    split at hv
    · obtain ⟨x, -, hx⟩ := bind_eq_ok_iff.mp hv
      cases hx
      exact ⟨x, (Except.ok.inj hinit).symm⟩
    · cases hv
  | float x =>
    cases hv
    exact ⟨x, (Except.ok.inj hinit).symm⟩
  | string s noZero => cases hv

/-- What a literal is converted to has the type of the column and fills it. -/
theorem convertSvValue_typed {lit : SvValue} {col : ColMeta} {val : Value} (hcol : col.Typed)
    (h : convertSvValue casts lit col = .ok val) : col.type = val.type ∧ (val.raw col.len).length = col.len := by
  by_cases hfloat : col.type = .float
  · obtain ⟨x, rfl⟩ := convertSvValue_float hfloat h
    refine ⟨hfloat, ?_⟩
    rw [hcol.float hfloat]
    exact writeUnsigned_length _ _
  · have hstored := convertSvValue_storedIn hfloat h
    exact ⟨hstored.type, hstored.raw_length hcol.toSized⟩

theorem IntType.bytes_length_col {t : IntType} {col : ColMeta} (hcol : col.Typed) (htype : col.type = t.colType) :
    col.len = (t.bytes 0).length := by
  cases t with
  | int => exact hcol.int htype
  | int64 => exact hcol.bigint htype

-- ---------------------------------------------------------------------------
-- The analyzer
-- ---------------------------------------------------------------------------

namespace Assignment

variable {cols : List ColMeta}

def op (w : Assignment cols) : SetOp :=
  match w.source with
  | none => .assign
  | some src => src.sign.op

theorem action_eq (w : Assignment cols) : w.rule.action = ⟨w.colName, w.op, w.lit⟩ := by
  unfold rule op
  cases w.source <;> rfl

theorem mem (w : Assignment cols) : w.col ∈ cols := List.mem_of_find?_eq_some w.found

theorem col_name (w : Assignment cols) : w.col.name = w.colName := by
  simpa using List.find?_some w.found

/-- What the executor leaves in the column. -/
def stored (w : Assignment cols) (val : Value) (r : RmRecord) : List UInt8 :=
  match w.source with
  | none => val.raw w.col.len
  | some src => src.t.bytes (src.sign.compute (src.t.held w.col r) (src.t.ofBytes (val.raw w.col.len)))

end Assignment

variable {db : Catalog} {tabName : String} {colDefs : List ColDef} {indexes : List (List String)}

/-- A clause is analyzed to its column, its sign and the value of its literal. -/
theorem setClause_eq (hname : tabName ≠ "") (hdb : db.tabs tabName = some ⟨makeCols tabName colDefs 0, indexes⟩)
    (w : Assignment (columns tabName colDefs)) :
    Analyze.setClause casts db (makeCols tabName colDefs 0) tabName w.rule.action =
      match convertSvValue casts w.lit w.col with
      | .ok val => .ok ⟨w.colName, val, w.op⟩
      | .error e => .error (.convert e) := by
  have hfind := w.found
  simp only [Rmdb.getCol, columns, List.find?_map, Option.map_eq_some_iff] at hfind
  obtain ⟨c, hfind, hcol⟩ := hfind
  have hfind : (makeCols tabName colDefs 0).find? (fun col => col.name == w.colName) = some c := hfind
  have hmem := List.mem_of_find?_eq_some hfind
  have hany : (makeCols tabName colDefs 0).any (fun col => col.tabName = tabName ∧ col.name = w.colName) = true := by
    refine List.any_eq_true.mpr ⟨c, hmem, ?_⟩
    have howned := db.owned tabName _ hdb c hmem
    have hsame := List.find?_some hfind
    simpa [howned] using hsame
  rw [w.action_eq]
  simp only [Analyze.setClause, Analyze.checkColumn, hname, if_false, hany, if_true, Analyze.getTable, hdb,
    Analyze.getCol, hfind, Except.mapError, ok_bind, hcol]
  cases convertSvValue casts w.lit w.col <;> rfl

/-- When all literals convert, the executor is given their values. -/
theorem setClauses_ok (hname : tabName ≠ "") (hdb : db.tabs tabName = some ⟨makeCols tabName colDefs 0, indexes⟩)
    {ws : List (Assignment (columns tabName colDefs))} (h : ∀ w ∈ ws, w.Converts casts) : ∃ clauses,
    ws.mapM (fun w => Analyze.setClause casts db (makeCols tabName colDefs 0) tabName w.rule.action) = .ok clauses ∧
      List.Forall₂ (fun w clause => ∃ val, convertSvValue casts w.lit w.col = .ok val ∧
        clause = (⟨w.colName, val, w.op⟩ : SetClause)) ws clauses := by
  induction ws with
  | nil => exact ⟨[], rfl, .nil⟩
  | cons w ws ih =>
    obtain ⟨⟨val, hval⟩, h⟩ := List.forall_mem_cons.mp h
    obtain ⟨clauses, hclauses, hall⟩ := ih h
    refine ⟨⟨w.colName, val, w.op⟩ :: clauses, ?_, .cons ⟨val, hval, rfl⟩ hall⟩
    rw [List.mapM_cons, setClause_eq hname hdb, hval, hclauses]
    rfl

theorem setClauses_error (hname : tabName ≠ "") (hdb : db.tabs tabName = some ⟨makeCols tabName colDefs 0, indexes⟩)
    {ws : List (Assignment (columns tabName colDefs))} (h : ∃ w ∈ ws, ¬ w.Converts casts) : ∃ e,
    ws.mapM (fun w => Analyze.setClause casts db (makeCols tabName colDefs 0) tabName w.rule.action) = .error e := by
  induction ws with
  | nil =>
    obtain ⟨w, hw, -⟩ := h
    cases hw
  | cons w ws ih =>
    rw [List.mapM_cons, setClause_eq hname hdb]
    cases hval : convertSvValue casts w.lit w.col with
    | error e => exact ⟨_, rfl⟩
    | ok val =>
      obtain ⟨w', hw', hnot⟩ := h
      rcases List.mem_cons.mp hw' with rfl | hw'
      · exact absurd ⟨val, hval⟩ hnot
      · obtain ⟨e, he⟩ := ih ⟨w', hw', hnot⟩
        exact ⟨e, by rw [he]; rfl⟩

-- ---------------------------------------------------------------------------
-- The executor
-- ---------------------------------------------------------------------------

variable {cols : List ColMeta} {size : Nat}

/-- One clause writes over its column. -/
theorem Assignment.apply_eq (hlayout : Layout cols size) (w : Assignment cols) {val : Value}
    (hval : convertSvValue casts w.lit w.col = .ok val) (r : RmRecord) :
    SetClause.apply ⟨w.colName, val, w.op⟩ cols r = .ok (memcpy r w.col.offset (w.stored val r) w.col.len) ∧
      (w.stored val r).length = w.col.len := by
  have hcol := hlayout.typed w.col w.mem
  obtain ⟨htype, hlen⟩ := convertSvValue_typed hcol hval
  simp only [SetClause.apply, w.found, htype, ne_eq, not_true_eq_false, if_false]
  unfold Assignment.stored Assignment.op
  cases w.source with
  | none => exact ⟨rfl, hlen⟩
  | some src =>
    simp only [← htype]
    rw [src.type, IntType.setClause_compute]
    refine ⟨rfl, ?_⟩
    rw [IntType.bytes_length, IntType.bytes_length_col hcol src.type]

/-- After the loop over the clauses each column holds what its own clause computes from the row, and no other
column has changed. The induction is on the clauses: the column of the first is not written again, and the first
does not touch the columns of the others. -/
theorem applySetClauses_columns (hlayout : Layout cols size) {ws : List (Assignment cols)} {clauses : List SetClause}
    (h : List.Forall₂ (fun w clause => ∃ val, convertSvValue casts w.lit w.col = .ok val ∧
      clause = (⟨w.colName, val, w.op⟩ : SetClause)) ws clauses)
    (hnodup : (ws.map (·.colName)).Nodup) {r : RmRecord} (hr : r.length = size) : ∃ r',
    applySetClauses cols clauses r = .ok r' ∧
    (∀ w ∈ ws, ∀ val, convertSvValue casts w.lit w.col = .ok val →
      slice r' w.col.offset w.col.len = w.stored val r) ∧
    ∀ col ∈ cols, col ∉ ws.map (·.col) → slice r' col.offset col.len = slice r col.offset col.len := by
  induction h generalizing r with
  | nil => exact ⟨r, rfl, List.forall_mem_nil _, fun _ _ _ => rfl⟩
  | @cons w clause ws clauses hclause hrest ih =>
    obtain ⟨val, hval, rfl⟩ := hclause
    obtain ⟨hnew, hnodup⟩ := List.nodup_cons.mp hnodup
    obtain ⟨happly, hlen⟩ := w.apply_eq hlayout hval r
    generalize hr₁ : memcpy r w.col.offset (w.stored val r) w.col.len = r₁ at happly
    have hother : ∀ col ∈ cols, col ≠ w.col → slice r₁ col.offset col.len = slice r col.offset col.len := by
      intro col hcol hne
      rw [← hr₁]
      exact slice_memcpy_of_disjoint (hlayout.apart col hcol w.col w.mem hne)
    have hapart : w.col ∉ ws.map (·.col) := by
      intro hmem
      obtain ⟨w', hw', hsame⟩ := List.mem_map.mp hmem
      refine hnew (List.mem_map.mpr ⟨w', hw', ?_⟩)
      rw [← w'.col_name, hsame, w.col_name]
    obtain ⟨r', hrun, hstored, hkept⟩ := ih hnodup (r := r₁) (by rw [← hr₁, memcpy_length, hr])
    refine ⟨r', ?_, ?_, ?_⟩
    · simp only [applySetClauses, happly, ok_bind, hrun]
    · refine List.forall_mem_cons.mpr ⟨fun val' hval' => ?_, fun w' hw' val' hval' => ?_⟩
      · cases hval.symm.trans hval'
        rw [hkept w.col w.mem hapart, ← hr₁]
        exact slice_memcpy_self hlen (by rw [hr]; exact hlayout.inside w.col w.mem)
      · have hne : w'.col ≠ w.col := fun heq => hapart (heq ▸ List.mem_map_of_mem hw')
        rw [hstored w' hw' val' hval']
        unfold Assignment.stored IntType.held
        rw [hother w'.col w'.mem hne]
    · intro col hcol hnotMem
      rw [List.map_cons, List.mem_cons, not_or] at hnotMem
      rw [hkept col hcol hnotMem.2, hother col hcol hnotMem.1]

/-- What a clause stores is what it should exactly when its second column, if it has one, holds the same number as
the first, from which a number of the type can be computed. -/
theorem Assignment.stored_iff (hlayout : Layout cols size) (w : Assignment cols) {val : Value}
    (hval : convertSvValue casts w.lit w.col = .ok val) (r : RmRecord) :
    (∃ v, w.wanted casts r = some v ∧ w.stored val r = v.raw w.col.len) ↔
      ∀ src, w.source = some src → src.t.held w.col r = src.t.held src.other r ∧ w.wanted casts r ≠ none := by
  unfold Assignment.stored Assignment.wanted
  cases w.source with
  | none => simp [literalValue_of_convert hval]
  | some src =>
    obtain ⟨n, hnumber, hn, rfl⟩ := src.t.convertSvValue_number src.type hval
    have hcol := IntType.bytes_length_col (hlayout.typed w.col w.mem) src.type
    have hother := IntType.bytes_length_col (hlayout.typed src.other (List.mem_of_find?_eq_some src.found)) src.other_type
    simp only [hnumber, Option.bind_some, IntType.fit_eq_some, IntType.fit_ne_none, IntType.raw_value,
      IntType.ofBytes_bytes hn]
    constructor
    · rintro ⟨v, ⟨hfit, rfl⟩, hbytes⟩ src' hsrc
      cases hsrc
      rw [IntType.raw_value] at hbytes
      exact ⟨IntType.compute_eq_of_bytes_eq src.sign (IntType.held_holds hcol r) (IntType.held_holds hother r) hbytes,
        hfit⟩
    · intro h
      obtain ⟨hsame, hfit⟩ := h src rfl
      exact ⟨_, ⟨hfit, rfl⟩, by rw [hsame, IntType.raw_value]⟩

-- ---------------------------------------------------------------------------
-- The whole statement
-- ---------------------------------------------------------------------------

/-- An UPDATE is right for a row exactly when its clauses are fine there. -/
theorem update_right_iff (hname : tabName ≠ "") (hdb : db.tabs tabName = some ⟨makeCols tabName colDefs 0, indexes⟩)
    (hdefs : ∀ d ∈ colDefs, d.Typed) (ws : List (Assignment (columns tabName colDefs)))
    (hnodup : (ws.map (·.colName)).Nodup) {r : RmRecord} (hr : r.length = recordSize colDefs) :
    UpdateRight casts db tabName ws r ↔ UpdateFine casts ws r := by
  have hlayout := layout_columns tabName hdefs
  have hanalyze : Analyze.setClauses casts db tabName (ws.map fun w => w.rule.action) =
      ws.mapM fun w => Analyze.setClause casts db (makeCols tabName colDefs 0) tabName w.rule.action := by
    simp [Analyze.setClauses, Analyze.getAllCols, Analyze.getTable, hdb, Except.mapError, List.mapM_map]
    rfl
  by_cases hconvert : ∀ w ∈ ws, w.Converts casts
  · obtain ⟨clauses, hclauses, hall⟩ := setClauses_ok hname hdb hconvert
    obtain ⟨r', hrun, hstored, hkept⟩ := applySetClauses_columns hlayout hall hnodup hr
    have hupdate : updateRow casts db tabName (ws.map fun w => w.rule.action) r = .ok r' := by
      simp only [updateRow, hanalyze, hclauses, Analyze.getTable, hdb, Except.mapError, ok_bind]
      rw [show (makeCols tabName colDefs 0).map (·.toColMeta) = columns tabName colDefs from rfl, hrun]
    have hfine : (∀ w ∈ ws, ∀ val, convertSvValue casts w.lit w.col = .ok val →
          ∃ v, w.wanted casts r = some v ∧ w.stored val r = v.raw w.col.len) ↔ UpdateFine casts ws r := by
      constructor
      · intro h
        refine .inl fun w hw => ⟨hconvert w hw, ?_⟩
        obtain ⟨val, hval⟩ := hconvert w hw
        exact (w.stored_iff hlayout hval r).mp (h w hw val hval)
      · rintro (h | ⟨⟨w, hw, hnot⟩, -⟩) w' hw' val hval
        · exact (w'.stored_iff hlayout hval r).mpr (h w' hw').2
        · exact absurd (hconvert w hw) hnot
    rw [← hfine]
    constructor
    · intro hright w hw val hval
      have hwanted : ∀ w ∈ ws, w.wanted casts r ≠ none := by
        intro w hw hnone
        obtain ⟨e, he⟩ := hright.rejected ⟨w, hw, hnone⟩
        cases hupdate.symm.trans he
      obtain ⟨r'', hrun', hvalues, -⟩ := hright.accepted hwanted
      cases hupdate.symm.trans hrun'
      obtain ⟨v, hv⟩ := Option.ne_none_iff_exists'.mp (hwanted w hw)
      exact ⟨v, hv, (hstored w hw val hval).symm.trans (hvalues w hw v hv)⟩
    · intro h
      refine ⟨fun _ => ⟨r', hupdate, fun w hw v hv => ?_, hkept⟩, ?_⟩
      · obtain ⟨val, hval⟩ := hconvert w hw
        obtain ⟨v', hv', hbytes⟩ := h w hw val hval
        cases hv.symm.trans hv'
        exact (hstored w hw val hval).trans hbytes
      · rintro ⟨w, hw, hnone⟩
        obtain ⟨val, hval⟩ := hconvert w hw
        obtain ⟨v, hv, -⟩ := h w hw val hval
        cases hnone.symm.trans hv
  · push Not at hconvert
    obtain ⟨e, he⟩ := setClauses_error hname hdb hconvert
    have hupdate : updateRow casts db tabName (ws.map fun w => w.rule.action) r = .error e := by
      simp only [updateRow, hanalyze, he, error_bind]
    constructor
    · intro hright
      refine .inr ⟨hconvert, ?_⟩
      by_contra hnone
      push Not at hnone
      obtain ⟨r', hrun, -⟩ := hright.accepted hnone
      cases hupdate.symm.trans hrun
    · rintro (h | ⟨-, w, hw, hnone⟩)
      · obtain ⟨w, hw, hnot⟩ := hconvert
        exact absurd (h w hw).1 hnot
      · exact ⟨fun hwanted => absurd hnone (hwanted w hw), fun _ => ⟨e, hupdate⟩⟩

/-- An UPDATE whose locks are granted, for the rows that its scan has found. -/
def updateStatement (casts : FloatCasts) (db : Catalog) (tabName : String) (clauses : List AstSetClause)
    (rids : List Rid) (s : Session) : EStateM.Result UpdateError Session Unit :=
  match Analyze.setClauses casts db tabName clauses with
  | .error e => .error e s
  | .ok setClauses =>
    match updateNext setClauses rids (fun _ => true) s with
    | .ok () s => .ok () s
    | .error e s => .error (.execute e) s

/-- An UPDATE that goes through puts the updated row in the place of each of its rows and leaves the others. -/
theorem updateStatement_rows {s s' : Session} {k n : Int} {chain : List PageNo} {metas : List IndexMeta} {rows : Rows}
    (h : s.table.Is k n chain metas rows) (hdb : db.tabs tabName = some ⟨makeCols tabName colDefs 0, indexes⟩)
    (hcols : s.table.cols = columns tabName colDefs) {clauses : List AstSetClause} {rids : List Rid}
    (hnodup : rids.Nodup) (hrows : ∀ rid ∈ rids, rows rid ≠ none)
    (hrun : updateStatement casts db tabName clauses rids s = .ok () s') :
    (∀ rid ∈ rids, ∃ r r', rows rid = some r ∧ updateRow casts db tabName clauses r = .ok r' ∧
      s'.table.file.lookup rid = some r') ∧
    ∀ rid ∉ rids, s'.table.file.lookup rid = rows rid := by
  unfold updateStatement at hrun
  split at hrun
  · cases hrun
  · rename_i setClauses hanalyze
    rcases updateNext_run h setClauses hnodup hrows (fun _ _ => rfl) with
      ⟨l, f, ixs, hnext, hfst, hall, hfile, -⟩ | ⟨ixs, hnext, -⟩ | ⟨e, s₁, hnext, -⟩
    · simp only [hnext] at hrun
      obtain rfl := (EStateM.Result.ok.inj hrun).2
      have hrids : (l.map fun x => (x.1.1, x.2)).map Prod.fst = rids := by
        rw [List.map_map]
        exact hfst
      constructor
      · intro rid hrid
        obtain ⟨⟨⟨rid, r⟩, r'⟩, hx, rfl⟩ := List.mem_map.mp (hfst ▸ hrid)
        obtain ⟨hr, happly⟩ := hall _ hx
        refine ⟨r, r', hr, ?_, (hfile.lookup _).trans ?_⟩
        · have happly : applySetClauses (columns tabName colDefs) setClauses r = .ok r' := hcols ▸ happly
          rw [columns] at happly
          simp only [updateRow, hanalyze, Analyze.getTable, hdb, Except.mapError, ok_bind, happly]
        · exact Rows.overlay_of_mem (hrids ▸ hnodup) (List.mem_map.mpr ⟨_, hx, rfl⟩)
      · intro rid hrid
        exact (hfile.lookup _).trans (Rows.overlay_of_notMem (hrids ▸ hrid))
    · simp only [hnext] at hrun
      cases hrun
    · simp only [hnext] at hrun
      cases hrun

namespace UpdateExample

/-- `CREATE TABLE t (a INT, b INT)`. -/
def defs : List ColDef := [⟨"a", .int, 4⟩, ⟨"b", .int, 4⟩]

theorem defs_typed : ∀ d ∈ defs, d.Typed := by
  intro d hd
  rcases List.mem_pair.mp hd with rfl | rfl <;> constructor <;> simp

def catalog : Catalog where
  tabs t := if t = "t" then some ⟨makeCols "t" defs 0, []⟩ else none
  owned t tab htab col hcol := by
    split at htab
    · rename_i ht
      cases htab
      rcases List.mem_pair.mp hcol with rfl | rfl <;> exact ht.symm
    · cases htab

def a : ColMeta := ⟨"a", .int, 4, 0⟩

def b : ColMeta := ⟨"b", .int, 4, 4⟩

/-- `a = a + 1`. -/
def increment : Assignment (columns "t" defs) :=
  ⟨"a", .intBint ['1'] (intLiteral_of_digits rfl), a, rfl, some ⟨"a", .plus, .int, a, rfl, rfl, rfl⟩⟩

/-- `a = b + 1`. -/
def successor : Assignment (columns "t" defs) :=
  ⟨"a", .intBint ['1'] (intLiteral_of_digits rfl), a, rfl, some ⟨"b", .plus, .int, b, rfl, rfl, rfl⟩⟩

/-- The row `(5, 7)`. -/
def row : RmRecord := [5, 0, 0, 0, 7, 0, 0, 0]

end UpdateExample

open UpdateExample in
theorem update_right_increment : UpdateRight noFloats catalog "t" [increment] row := by
  refine (update_right_iff (by decide) rfl defs_typed [increment] (by decide) rfl).mpr (.inl ?_)
  rw [List.forall_mem_singleton]
  refine ⟨⟨_, rfl⟩, fun src hsrc => ?_⟩
  cases hsrc
  exact ⟨rfl, by decide +kernel⟩

open UpdateExample in
/-- `a = b + 1` gives `a + 1`. -/
theorem update_not_right : ¬ UpdateRight noFloats catalog "t" [successor] row := by
  intro h
  obtain ⟨r', hrun, hvalue, -⟩ := h.accepted (by decide +kernel)
  have hrow : updateRow noFloats catalog "t" [successor.rule.action] row = .ok [6, 0, 0, 0, 7, 0, 0, 0] := rfl
  cases hrow.symm.trans hrun
  have hslice := hvalue successor List.mem_cons_self (.int 8) rfl
  exact absurd hslice (by decide)

end Rmdb
