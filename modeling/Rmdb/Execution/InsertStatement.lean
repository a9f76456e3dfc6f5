-- SUMMARY: INSERT from its literals to the stored record, and what the record reads as.
import Rmdb.Common.Convert
import Rmdb.Execution.Agreement
import Rmdb.Optimizer.Analyze
import Rmdb.System.SmManager

/-!
# INSERT

The analyzer goes through the columns of the table and converts one literal for each. That there are as many
literals as columns is an `assert`, which the build leaves out: literals at the end of the list are ignored, and
when there are too few of them the loop reads behind the list. The executor counts the converted values, which are
always as many as the columns.

Each column is looked up by its name. Of columns that share a name the first is found, and a literal is converted to
its type and given a buffer of its length.
-/

namespace Rmdb

-- ---------------------------------------------------------------------------
-- The statement
-- ---------------------------------------------------------------------------

inductive InsertError where
  | analyze (e : AnalyzeError)
  | convert (e : ConvertError)
  /-- The analyzer read behind the list of literals. -/
  | behindValues
  /-- The executor read behind the buffer of a value. -/
  | behindRaw
  | execute (e : DbError)

/-- The error is an `RMDBError` about the literals. -/
def InsertError.aboutLiterals : InsertError → Bool
  | .analyze _ => false
  | .convert e => e ≠ .std
  | .behindValues => false
  | .behindRaw => false
  | .execute e => e = .invalidValueCount ∨ e = .incompatibleType

variable (casts : FloatCasts)

namespace Analyze

/-- The loop over `all_cols`, with the literals that are left. A value comes with the length of its `raw`. -/
def insertValues (db : Catalog) (tabName : String) :
    List TabColMeta → List SvValue → Except InsertError (List (Value × Nat))
  | [], _ => .ok []
  | c :: cols, vals => do
    let tab ← (getTable db tabName).mapError .analyze
    let col ← (getCol tab c.name).mapError .analyze
    match vals with
    | [] => .error .behindValues
    | v :: vals =>
      let val ← (convertSvValue casts v col.toColMeta).mapError .convert
      let values ← insertValues db tabName cols vals
      return (val, col.len) :: values

/-- `do_analyze` of an INSERT. -/
def analyzeInsert (db : Catalog) (tabName : String) (vals : List SvValue) :
    Except InsertError (List (Value × Nat)) := do
  let allCols ← (getAllCols db [tabName]).mapError .analyze
  insertValues casts db tabName allCols vals

end Analyze

/-- The loop that fills the record buffer, with the length of each `raw`. -/
def fillRecord : List ColMeta → List (Value × Nat) → RmRecord → Except InsertError RmRecord
  | col :: cols, (val, rawLen) :: values, rec =>
    if col.type ≠ val.type then .error (.execute .incompatibleType)
    else if rawLen < col.len then .error .behindRaw
    else fillRecord cols values (memcpy rec col.offset (val.raw rawLen) col.len)
  | _, _, rec => .ok rec

/-- An INSERT whose locks are granted. -/
def insertStatement (db : Catalog) (tabName : String) (vals : List SvValue) (buffer : RmRecord) (s : Session) :
    EStateM.Result InsertError Session Unit :=
  match Analyze.analyzeInsert casts db tabName vals with
  | .error e => .error e s
  | .ok values =>
    if values.length ≠ s.table.cols.length then .error (.execute .invalidValueCount) s
    else
      match fillRecord s.table.cols values buffer with
      | .error e => .error e s
      | .ok rec =>
        match insertFilled rec true (fun _ => true) s with
        | .ok () s => .ok () s
        | .error e s => .error (.execute e) s

-- ---------------------------------------------------------------------------
-- What an INSERT should do
-- ---------------------------------------------------------------------------

/-- The converted values, if there is one literal for each column and all of them convert. -/
def convertedAll : List TabColMeta → List SvValue → Option (List Value)
  | [], [] => some []
  | c :: cols, v :: vals => do
    let val ← (convertSvValue casts v c.toColMeta).toOption
    let values ← convertedAll cols vals
    return val :: values
  | _, _ => none

/-- The error of the first literal that does not convert to the type of its column. -/
def firstError : List TabColMeta → List SvValue → Option ConvertError
  | c :: cols, v :: vals =>
    match convertSvValue casts v c.toColMeta with
    | .error e => some e
    | .ok _ => firstError cols vals
  | _, _ => none

/-- An INSERT into a table with these columns, rows and indexes stores the converted values in a new row, if there is
one for each column and no index has the key already. Otherwise it raises an `RMDBError` about the literals and
changes nothing. -/
structure InsertRight (db : Catalog) (tabName : String) (cols : List TabColMeta) (metas : List IndexMeta) (rows : Rows)
    (vals : List SvValue) (buffer : RmRecord) (s : Session) : Prop where
  accepted : ∀ values, convertedAll casts cols vals = some values → ∃ rec,
    List.Forall₂ (fun col val => ColMeta.read col.toColMeta rec = val) cols values ∧
    ((∃ ix ∈ metas, rows.HasKey ix (ix.key rec)) →
      insertStatement casts db tabName vals buffer s = .error (.execute .indexEntryNotUnique) s) ∧
    ((∀ ix ∈ metas, ¬ rows.HasKey ix (ix.key rec)) → ∃ rid s',
      insertStatement casts db tabName vals buffer s = .ok () s' ∧ rows rid = none ∧
        s'.table.file.getRecord rid = .ok rec)
  rejected : convertedAll casts cols vals = none →
    ∃ e, insertStatement casts db tabName vals buffer s = .error e s ∧ e.aboutLiterals = true

/-- The column that is found under the name of a column: the first of that name. -/
def foundCol (cols : List TabColMeta) (c : TabColMeta) : TabColMeta :=
  (cols.find? fun col => col.name == c.name).getD c

/-- What is converted for the column on the left can be copied to the one on the right. -/
def TabColMeta.Serves (found c : TabColMeta) : Prop := found.type = c.type ∧ c.len ≤ found.len

instance (found c : TabColMeta) : Decidable (found.Serves c) := inferInstanceAs (Decidable (_ ∧ _))

/-- The literals convert, one for each column, and each column finds one that serves it. Or they do not, and the first
that does not convert to the column found fails with an `RMDBError`; or all of these convert, there are enough of them,
and the first column that is not served is not of the type found. -/
def InsertFine (cols : List TabColMeta) (vals : List SvValue) : Prop :=
  ((convertedAll casts cols vals).isSome ∧ ∀ c ∈ cols, (foundCol cols c).Serves c) ∨
    convertedAll casts cols vals = none ∧
      ((∃ e, firstError casts (cols.map (foundCol cols)) vals = some e ∧ e ≠ .std) ∨
        firstError casts (cols.map (foundCol cols)) vals = none ∧ cols.length ≤ vals.length ∧
          ∃ c, cols.find? (fun c => !decide ((foundCol cols c).Serves c)) = some c ∧ (foundCol cols c).type ≠ c.type)

variable {casts}

-- ---------------------------------------------------------------------------
-- The analyzer
-- ---------------------------------------------------------------------------

/-- Every column is found under its name. -/
def ColsFound (db : Catalog) (tabName : String) (find : TabColMeta → TabColMeta) (cols : List TabColMeta) : Prop :=
  ∃ tab, db.tabs tabName = some tab ∧ ∀ c ∈ cols, tab.cols.find? (fun col => col.name == c.name) = some (find c)

variable {find : TabColMeta → TabColMeta}

theorem insertValues_cons {db : Catalog} {tabName : String} {c : TabColMeta} {cols : List TabColMeta}
    (h : ColsFound db tabName find (c :: cols)) (vals : List SvValue) :
    Analyze.insertValues casts db tabName (c :: cols) vals =
      match vals with
      | [] => .error .behindValues
      | v :: vals =>
        match convertSvValue casts v (find c).toColMeta with
        | .error e => .error (.convert e)
        | .ok val => (Analyze.insertValues casts db tabName cols vals).map ((val, (find c).len) :: ·) := by
  obtain ⟨tab, htab, hcols⟩ := h
  have hfind := hcols c List.mem_cons_self
  simp only [Analyze.insertValues, Analyze.getTable, Analyze.getCol, htab, hfind, Except.mapError, ok_bind]
  cases vals with
  | nil => rfl
  | cons v vals =>
    simp only
    cases convertSvValue casts v (find c).toColMeta with
    | error e => rfl
    | ok val => cases Analyze.insertValues casts db tabName cols vals <;> rfl

theorem ColsFound.tail {db : Catalog} {tabName : String} {c : TabColMeta} {cols : List TabColMeta}
    (h : ColsFound db tabName find (c :: cols)) : ColsFound db tabName find cols := by
  obtain ⟨tab, htab, hcols⟩ := h
  exact ⟨tab, htab, (List.forall_mem_cons.mp hcols).2⟩

/-- The first literal that does not convert ends the loop. -/
theorem insertValues_error {db : Catalog} {tabName : String} {cols : List TabColMeta}
    (h : ColsFound db tabName find cols) {vals : List SvValue} {e : ConvertError}
    (he : firstError casts (cols.map find) vals = some e) :
    Analyze.insertValues casts db tabName cols vals = .error (.convert e) := by
  induction cols generalizing vals with
  | nil => cases he
  | cons c cols ih =>
    rw [insertValues_cons h]
    cases vals with
    | nil => cases he
    | cons v vals =>
      simp only [List.map_cons, firstError] at he
      cases hconvert : convertSvValue casts v (find c).toColMeta with
      | error e' =>
        rw [hconvert] at he
        cases he
        simp only [hconvert]
      | ok val =>
        rw [hconvert] at he
        simp only [hconvert, ih h.tail he]
        rfl

/-- When all literals convert but there are too few of them, the loop reads behind the list. -/
theorem insertValues_behind {db : Catalog} {tabName : String} {cols : List TabColMeta}
    (h : ColsFound db tabName find cols) {vals : List SvValue} (hnone : firstError casts (cols.map find) vals = none)
    (hlen : vals.length < cols.length) : Analyze.insertValues casts db tabName cols vals = .error .behindValues := by
  induction cols generalizing vals with
  | nil => cases hlen
  | cons c cols ih =>
    rw [insertValues_cons h]
    cases vals with
    | nil => rfl
    | cons v vals =>
      simp only [List.map_cons, firstError] at hnone
      cases hconvert : convertSvValue casts v (find c).toColMeta with
      | error e =>
        rw [hconvert] at hnone
        cases hnone
      | ok val =>
        rw [hconvert] at hnone
        simp only [hconvert, ih h.tail hnone (Nat.lt_of_succ_lt_succ hlen)]
        rfl

/-- The value and the length of its buffer are those of the column that was found. -/
structure ConvertedFor (found : TabColMeta) (x : Value × Nat) : Prop where
  type : x.1.type = found.type
  len : x.2 = found.len

/-- When all of them convert, the columns get values of those that are found; literals at the end are ignored. -/
theorem insertValues_ok {db : Catalog} {tabName : String} {cols : List TabColMeta}
    (h : ColsFound db tabName find cols) (hfloat : ∀ c ∈ cols, (find c).type ≠ .float) {vals : List SvValue}
    (hnone : firstError casts (cols.map find) vals = none) (hlen : cols.length ≤ vals.length) :
    ∃ values, Analyze.insertValues casts db tabName cols vals = .ok values ∧
      List.Forall₂ (fun c x => ConvertedFor (find c) x) cols values := by
  induction cols generalizing vals with
  | nil => exact ⟨[], rfl, .nil⟩
  | cons c cols ih =>
    obtain ⟨hcol, hfloat⟩ := List.forall_mem_cons.mp hfloat
    rw [insertValues_cons h]
    cases vals with
    | nil => cases hlen
    | cons v vals =>
      simp only [List.map_cons, firstError] at hnone
      cases hconvert : convertSvValue casts v (find c).toColMeta with
      | error e =>
        rw [hconvert] at hnone
        cases hnone
      | ok val =>
        rw [hconvert] at hnone
        obtain ⟨values, hvalues, hconverted⟩ := ih h.tail hfloat hnone (Nat.le_of_succ_le_succ hlen)
        refine ⟨(val, (find c).len) :: values, ?_, .cons ⟨?_, rfl⟩ hconverted⟩
        · simp only [hconvert, hvalues]
          rfl
        · exact (convertSvValue_storedIn hcol hconvert).type.symm

/-- A literal that converts for a column converts for one that serves it, to the same value. -/
theorem TabColMeta.Serves.convert {found c : TabColMeta} (h : found.Serves c) {v : SvValue} {val : Value}
    (hconvert : convertSvValue casts v c.toColMeta = .ok val) :
    convertSvValue casts v found.toColMeta = .ok val := by
  obtain ⟨htype, hlen⟩ := h
  obtain ⟨raw, hraw, hinit⟩ := bind_eq_ok_iff.mp hconvert
  refine bind_eq_ok_iff.mpr ⟨raw, htype ▸ hraw, ?_⟩
  cases raw with
  | string s =>
    simp only [initRaw] at hinit ⊢
    split at hinit
    · cases hinit
    · rename_i hfits
      rw [if_neg (show ¬ found.len < s.length by omega)]
      exact hinit
  | int | float | bigint | datetime => exact hinit

theorem convertedAll_length {cols : List TabColMeta} {vals : List SvValue} {values : List Value}
    (h : convertedAll casts cols vals = some values) : vals.length = cols.length := by
  induction cols generalizing vals values with
  | nil => cases vals with
    | nil => rfl
    | cons v vals => cases h
  | cons c cols ih => cases vals with
    | nil => cases h
    | cons v vals =>
      obtain ⟨val, -, h⟩ := Option.bind_eq_some_iff.mp h
      obtain ⟨rest, hrest, -⟩ := Option.bind_eq_some_iff.mp h
      exact congrArg Nat.succ (ih hrest)

/-- Where every column is served, literals that all convert get the values they should. -/
theorem insertValues_served {db : Catalog} {tabName : String} {cols : List TabColMeta}
    (h : ColsFound db tabName find cols) (hserves : ∀ c ∈ cols, (find c).Serves c)
    (hfloat : ∀ c ∈ cols, c.type ≠ .float) {vals : List SvValue} {values : List Value}
    (hall : convertedAll casts cols vals = some values) : ∃ raws,
      Analyze.insertValues casts db tabName cols vals = .ok raws ∧ raws.map (·.1) = values ∧
      List.Forall₂ (fun c x => ConvertedFor (find c) x) cols raws ∧
      List.Forall₂ (fun c val => Value.StoredIn c.toColMeta val) cols values := by
  induction cols generalizing vals values with
  | nil => cases vals with
    | nil =>
      cases hall
      exact ⟨[], rfl, rfl, .nil, .nil⟩
    | cons v vals => cases hall
  | cons c cols ih => cases vals with
    | nil => cases hall
    | cons v vals =>
      obtain ⟨hserve, hserves⟩ := List.forall_mem_cons.mp hserves
      obtain ⟨hcol, hfloat⟩ := List.forall_mem_cons.mp hfloat
      obtain ⟨val, hval, hall⟩ := Option.bind_eq_some_iff.mp hall
      obtain ⟨rest, hrest, hvalues⟩ := Option.bind_eq_some_iff.mp hall
      cases hvalues
      have hconvert : convertSvValue casts v c.toColMeta = .ok val := by
        cases hconvert : convertSvValue casts v c.toColMeta <;> rw [hconvert] at hval <;> cases hval
        rfl
      have hstored := convertSvValue_storedIn hcol hconvert
      obtain ⟨raws, hraws, rfl, hconverted, hrest⟩ := ih h.tail hserves hfloat hrest
      refine ⟨(val, (find c).len) :: raws, ?_, rfl, .cons ⟨?_, rfl⟩ hconverted, .cons hstored hrest⟩
      · rw [insertValues_cons h]
        simp only [hserve.convert hconvert, hraws]
        rfl
      · exact hstored.type.symm.trans hserve.1.symm

-- ---------------------------------------------------------------------------
-- The record
-- ---------------------------------------------------------------------------

/-- Behind a string its buffer is filled with zeros, so the bytes copied do not depend on its length. -/
theorem memcpy_raw (r : RmRecord) (offset len rawLen : Nat) (val : Value) :
    memcpy r offset (val.raw rawLen) len = memcpy r offset (val.raw len) len := by
  cases val with
  | string s =>
    have hpad : ∀ m i, (s ++ List.replicate m 0).getD i 0 = s.getD i 0 := by
      intro m i
      rcases Nat.lt_or_ge i s.length with hi | hi
      · rw [List.getD_append _ _ _ _ hi]
      · rw [List.getD_append_right _ _ _ _ hi, List.getD_eq_default _ _ hi]
        simp
    simp only [memcpy, Value.raw, hpad]
  | int | float | bigint | datetime => rfl

/-- The first column that is not served ends the loop. -/
theorem fillRecord_unserved {cols : List TabColMeta} {values : List (Value × Nat)}
    (h : List.Forall₂ (fun c x => ConvertedFor (find c) x) cols values) {c : TabColMeta}
    (hc : cols.find? (fun c => !decide ((find c).Serves c)) = some c) (rec : RmRecord) :
    fillRecord (cols.map (·.toColMeta)) values rec =
      .error (if (find c).type = c.type then .behindRaw else .execute .incompatibleType) := by
  induction h generalizing rec with
  | nil => cases hc
  | cons hx h ih =>
    rename_i c' x cols values
    obtain ⟨val, rawLen⟩ := x
    obtain rfl : rawLen = (find c').len := hx.len
    have htype : val.type = (find c').type := hx.type
    simp only [List.map_cons, fillRecord, htype]
    by_cases hserve : (find c').Serves c'
    · rw [List.find?_cons_of_neg (by simpa using hserve)] at hc
      rw [if_neg (by simpa using hserve.1.symm), if_neg (Nat.not_lt.mpr hserve.2)]
      exact ih hc _
    · rw [List.find?_cons_of_pos (by simpa using hserve)] at hc
      obtain rfl := Option.some.inj hc
      by_cases htypes : (find c').type = c'.type
      · rw [if_neg (by simpa using htypes.symm), if_pos (Nat.not_le.mp fun hle => hserve ⟨htypes, hle⟩), if_pos htypes]
      · rw [if_pos (Ne.symm htypes), if_neg htypes]

/-- Where every column is served, the lengths of the buffers do not matter. -/
theorem fillRecord_served {cols : List TabColMeta} {values : List (Value × Nat)}
    (h : List.Forall₂ (fun c x => ConvertedFor (find c) x) cols values) (hserves : ∀ c ∈ cols, (find c).Serves c)
    (rec : RmRecord) : ∃ rec', fillRecord (cols.map (·.toColMeta)) values rec = .ok rec' ∧
      makeRecord (cols.map (·.toColMeta)) (values.map (·.1)) rec = .ok rec' := by
  induction h generalizing rec with
  | nil => exact ⟨rec, rfl, rfl⟩
  | cons hx h ih =>
    rename_i c x cols values
    obtain ⟨val, rawLen⟩ := x
    obtain rfl : rawLen = (find c).len := hx.len
    obtain ⟨hserve, hserves⟩ := List.forall_mem_cons.mp hserves
    have htype : c.type = val.type := hserve.1.symm.trans hx.type.symm
    obtain ⟨rec', hfill, hmake⟩ := ih hserves (memcpy rec c.offset (val.raw c.len) c.len)
    refine ⟨rec', ?_, ?_⟩
    · simpa only [List.map_cons, fillRecord, htype, ne_eq, not_true_eq_false, if_false, Nat.not_lt.mpr hserve.2,
        memcpy_raw rec c.offset c.len (find c).len] using hfill
    · simpa only [List.map_cons, makeRecord, htype, ne_eq, not_true_eq_false, if_false] using hmake

/-- The columns of `create_table` are laid out one behind the other, so each reads as the value written to it. -/
theorem makeRecord_makeCols (tabName : String) {colDefs : List ColDef} {offset : Nat}
    (hsized : ∀ c ∈ makeCols tabName colDefs offset, c.Sized) {values : List Value}
    (hstored : List.Forall₂ (fun col val => Value.StoredIn col.toColMeta val) (makeCols tabName colDefs offset) values)
    {front rest : List UInt8} (hfront : front.length = offset) (hrest : recordSize colDefs ≤ rest.length) :
    ∃ tail, makeRecord ((makeCols tabName colDefs offset).map (·.toColMeta)) values (front ++ rest) =
        .ok (front ++ tail) ∧
      List.Forall₂ (fun col val => ColMeta.read col.toColMeta (front ++ tail) = val)
        (makeCols tabName colDefs offset) values := by
  induction colDefs generalizing offset values front rest with
  | nil =>
    cases hstored
    exact ⟨rest, rfl, .nil⟩
  | cons d colDefs ih =>
    obtain ⟨hcol, hsized⟩ := List.forall_mem_cons.mp hsized
    cases hstored with
    | cons hval hstored =>
      rename_i val values
      have hlen : (val.raw d.len).length = d.len := hval.raw_length hcol
      have hsize : d.len + recordSize colDefs ≤ rest.length := by simpa [recordSize] using hrest
      obtain ⟨tail, hmake, hread⟩ := @ih _ hsized values hstored (front ++ val.raw d.len) (rest.drop d.len)
        (by rw [List.length_append, hfront, hlen]) (by rw [List.length_drop]; omega)
      simp only [List.append_assoc] at hmake hread
      refine ⟨val.raw d.len ++ tail, ?_, .cons ?_ hread⟩
      · have htype : d.type = val.type := hval.type
        simp only [makeCols, List.map_cons, makeRecord, htype, ne_eq, not_true_eq_false, if_false]
        rw [memcpy_append hfront hlen (by omega), List.append_assoc]
        exact hmake
      · exact hval.read hcol (slice_append hfront hlen)

variable {s : Session} {k n : Int} {chain : List PageNo} {metas : List IndexMeta} {rows : Rows}

/-- With its locks granted, a filled record becomes a new row, unless an index has its key already. -/
theorem insertFilled_granted (h : s.table.Is k n chain metas rows) (rec : RmRecord) :
    ((∃ ix ∈ metas, rows.HasKey ix (ix.key rec)) →
        insertFilled rec true (fun _ => true) s = .error .indexEntryNotUnique s) ∧
      ((∀ ix ∈ metas, ¬ rows.HasKey ix (ix.key rec)) → ∃ rid s',
        insertFilled rec true (fun _ => true) s = .ok () s' ∧ rows rid = none ∧
          s'.table.file.getRecord rid = .ok rec) := by
  rcases insertFilled_run h rec true (fun _ => true) with
    ⟨⟨ix, hix, hkey⟩, hrun⟩ | ⟨hfalse, -⟩ | ⟨rid, f, n₁, chain₁, hplaced, habs, hfile, ⟨ixs, hrun, -⟩ | ⟨hfalse, -⟩⟩
  · exact ⟨fun _ => hrun, fun habs => absurd hkey (habs ix hix)⟩
  · cases hfalse
  · exact ⟨fun ⟨ix, hix, hkey⟩ => absurd hkey (habs ix hix),
      fun _ => ⟨rid, _, hrun, hplaced.1, hfile.getRecord (Function.update_self _ _ _)⟩⟩
  · cases hfalse

/-- Columns that share a name are alike, so it does not matter which of them is found. -/
def SameNamed (colDefs : List ColDef) : Prop :=
  ∀ c ∈ colDefs, ∀ d ∈ colDefs, c.name = d.name → c.type = d.type ∧ c.len = d.len

/-- What the parser makes of a column that is no `FLOAT`. -/
structure ColDef.Plain (d : ColDef) : Prop where
  float : d.type ≠ .float
  int : d.type = .int → d.len = 4
  bigint : d.type = .bigint → d.len = 8
  datetime : d.type = .datetime → d.len = 8

theorem mem_makeCols {tabName : String} {colDefs : List ColDef} {offset : Nat} {c : TabColMeta}
    (h : c ∈ makeCols tabName colDefs offset) : ∃ d ∈ colDefs, c.name = d.name ∧ c.type = d.type ∧ c.len = d.len := by
  induction colDefs generalizing offset with
  | nil => cases h
  | cons d colDefs ih =>
    rcases List.mem_cons.mp h with rfl | h
    · exact ⟨d, List.mem_cons_self, rfl, rfl, rfl⟩
    · obtain ⟨d', hd', heq⟩ := ih h
      exact ⟨d', List.mem_cons_of_mem _ hd', heq⟩

theorem foundCol_find {cols : List TabColMeta} {c : TabColMeta} (hc : c ∈ cols) :
    cols.find? (fun col => col.name == c.name) = some (foundCol cols c) := by
  obtain ⟨c', hc'⟩ : ∃ c', cols.find? (fun col => col.name == c.name) = some c' :=
    Option.isSome_iff_exists.mp (List.find?_isSome.mpr ⟨c, hc, by simp⟩)
  rw [foundCol, hc', Option.getD_some]

theorem foundCol_mem {cols : List TabColMeta} {c : TabColMeta} (hc : c ∈ cols) : foundCol cols c ∈ cols :=
  List.mem_of_find?_eq_some (foundCol_find hc)

/-- Columns that share a name are alike, so it does not matter which of them is found. -/
theorem SameNamed.foundCol {tabName : String} {colDefs : List ColDef} (h : SameNamed colDefs) {c : TabColMeta}
    (hc : c ∈ makeCols tabName colDefs 0) : (foundCol (makeCols tabName colDefs 0) c).type = c.type ∧
      (foundCol (makeCols tabName colDefs 0) c).len = c.len := by
  obtain ⟨d, hd, hname, htype, hlen⟩ := mem_makeCols hc
  obtain ⟨d', hd', hname', htype', hlen'⟩ := mem_makeCols (foundCol_mem hc)
  have hsame : (Rmdb.foundCol (makeCols tabName colDefs 0) c).name = c.name := by
    simpa using List.find?_some (foundCol_find hc)
  obtain ⟨htypes, hlens⟩ := h d' hd' d hd (by rw [← hname', hsame, hname])
  exact ⟨by rw [htype', htypes, htype], by rw [hlen', hlens, hlen]⟩

-- ---------------------------------------------------------------------------
-- The whole statement
-- ---------------------------------------------------------------------------

section

variable {db : Catalog} {tabName : String} {colDefs : List ColDef} {indexes : List (List String)}

theorem colsFound (hdb : db.tabs tabName = some ⟨makeCols tabName colDefs 0, indexes⟩) :
    ColsFound db tabName (foundCol (makeCols tabName colDefs 0)) (makeCols tabName colDefs 0) :=
  ⟨_, hdb, fun _ hc => foundCol_find hc⟩

theorem analyzeInsert_eq (hdb : db.tabs tabName = some ⟨makeCols tabName colDefs 0, indexes⟩) (vals : List SvValue) :
    Analyze.analyzeInsert casts db tabName vals =
      Analyze.insertValues casts db tabName (makeCols tabName colDefs 0) vals := by
  simp [Analyze.analyzeInsert, Analyze.getAllCols, Analyze.getTable, hdb, Except.mapError]

theorem plain_makeCols (hdefs : ∀ d ∈ colDefs, d.Plain) {c : TabColMeta} (hc : c ∈ makeCols tabName colDefs 0) :
    c.type ≠ .float ∧ c.Sized := by
  obtain ⟨d, hd, -, htype, hlen⟩ := mem_makeCols hc
  have hd := hdefs d hd
  rw [htype]
  refine ⟨hd.float, ⟨?_, ?_, ?_⟩⟩ <;> rw [htype, hlen]
  · exact hd.int
  · exact hd.bigint
  · exact hd.datetime

/-- The converted values reach the loop of the executor, as many as there are columns. -/
theorem insertStatement_filled (hdb : db.tabs tabName = some ⟨makeCols tabName colDefs 0, indexes⟩)
    (hcols : s.table.cols = (makeCols tabName colDefs 0).map (·.toColMeta)) {vals : List SvValue}
    {values : List (Value × Nat)}
    (hvalues : Analyze.insertValues casts db tabName (makeCols tabName colDefs 0) vals = .ok values)
    (hlen : (makeCols tabName colDefs 0).length = values.length) (buffer : RmRecord) :
    insertStatement casts db tabName vals buffer s =
      match fillRecord ((makeCols tabName colDefs 0).map (·.toColMeta)) values buffer with
      | .error e => .error e s
      | .ok rec =>
        match insertFilled rec true (fun _ => true) s with
        | .ok () s => .ok () s
        | .error e s => .error (.execute e) s := by
  have hcount : values.length = s.table.cols.length := by rw [hcols, List.length_map, hlen]
  rw [insertStatement, analyzeInsert_eq hdb, hvalues]
  simp only [hcount, ne_eq, not_true_eq_false, if_false, hcols]

/-- The first literal that does not convert to the column found is the error. -/
theorem insertStatement_error (hdb : db.tabs tabName = some ⟨makeCols tabName colDefs 0, indexes⟩)
    {vals : List SvValue} {e : ConvertError}
    (he : firstError casts ((makeCols tabName colDefs 0).map (foundCol (makeCols tabName colDefs 0))) vals = some e)
    (buffer : RmRecord) : insertStatement casts db tabName vals buffer s = .error (.convert e) s := by
  rw [insertStatement, analyzeInsert_eq hdb, insertValues_error (colsFound hdb) he]

/-- When they all convert, the first column that is not served is. -/
theorem insertStatement_unserved (hdb : db.tabs tabName = some ⟨makeCols tabName colDefs 0, indexes⟩)
    (hcols : s.table.cols = (makeCols tabName colDefs 0).map (·.toColMeta)) (hdefs : ∀ d ∈ colDefs, d.Plain)
    {vals : List SvValue}
    (hnone : firstError casts ((makeCols tabName colDefs 0).map (foundCol (makeCols tabName colDefs 0))) vals = none)
    (hlen : (makeCols tabName colDefs 0).length ≤ vals.length) {c : TabColMeta}
    (hc : (makeCols tabName colDefs 0).find?
      (fun c => !decide ((foundCol (makeCols tabName colDefs 0) c).Serves c)) = some c) (buffer : RmRecord) :
    insertStatement casts db tabName vals buffer s =
      .error (if (foundCol (makeCols tabName colDefs 0) c).type = c.type then .behindRaw
        else .execute .incompatibleType) s := by
  obtain ⟨values, hvalues, hconverted⟩ := insertValues_ok (colsFound hdb)
    (fun c hc => (plain_makeCols hdefs (foundCol_mem hc)).1) hnone hlen
  rw [insertStatement_filled hdb hcols hvalues hconverted.length_eq, fillRecord_unserved hconverted hc]

theorem unserved_find {cols : List TabColMeta} (h : ¬ ∀ c ∈ cols, (foundCol cols c).Serves c) :
    ∃ c, cols.find? (fun c => !decide ((foundCol cols c).Serves c)) = some c := by
  obtain ⟨c, hc, hserve⟩ := not_forall₂.mp h
  exact Option.isSome_iff_exists.mp (List.find?_isSome.mpr ⟨c, hc, by simpa using hserve⟩)

/-- When they convert to the columns found and every column is served, no error is about them. -/
theorem insertStatement_served (h : s.table.Is k n chain metas rows)
    (hdb : db.tabs tabName = some ⟨makeCols tabName colDefs 0, indexes⟩)
    (hcols : s.table.cols = (makeCols tabName colDefs 0).map (·.toColMeta)) (hdefs : ∀ d ∈ colDefs, d.Plain)
    {vals : List SvValue}
    (hnone : firstError casts ((makeCols tabName colDefs 0).map (foundCol (makeCols tabName colDefs 0))) vals = none)
    (hlen : (makeCols tabName colDefs 0).length ≤ vals.length)
    (hserves : ∀ c ∈ makeCols tabName colDefs 0, (foundCol (makeCols tabName colDefs 0) c).Serves c)
    {buffer : RmRecord} {e : InsertError} (he : insertStatement casts db tabName vals buffer s = .error e s) :
    e.aboutLiterals = false := by
  obtain ⟨values, hvalues, hconverted⟩ := insertValues_ok (colsFound hdb)
    (fun c hc => (plain_makeCols hdefs (foundCol_mem hc)).1) hnone hlen
  obtain ⟨rec, hfill, -⟩ := fillRecord_served hconverted hserves buffer
  obtain ⟨hkey, habs⟩ := insertFilled_granted h rec
  rw [insertStatement_filled hdb hcols hvalues hconverted.length_eq, hfill] at he
  by_cases hdup : ∃ ix ∈ metas, rows.HasKey ix (ix.key rec)
  · simp only [hkey hdup] at he
    cases he
    rfl
  · obtain ⟨rid, s', hrun, -⟩ := habs fun ix hix hkey => hdup ⟨ix, hix, hkey⟩
    simp only [hrun] at he
    cases he

/-- When all the literals convert and every column is served, the statement does what it should. -/
theorem insertStatement_accepted (h : s.table.Is k n chain metas rows)
    (hdb : db.tabs tabName = some ⟨makeCols tabName colDefs 0, indexes⟩)
    (hcols : s.table.cols = (makeCols tabName colDefs 0).map (·.toColMeta)) (hdefs : ∀ d ∈ colDefs, d.Plain)
    {buffer : RmRecord} (hbuffer : buffer.length = recordSize colDefs) {vals : List SvValue} {values : List Value}
    (hall : convertedAll casts (makeCols tabName colDefs 0) vals = some values)
    (hserves : ∀ c ∈ makeCols tabName colDefs 0, (foundCol (makeCols tabName colDefs 0) c).Serves c) :
    InsertRight casts db tabName (makeCols tabName colDefs 0) metas rows vals buffer s := by
  have hplain : ∀ c ∈ makeCols tabName colDefs 0, c.type ≠ .float ∧ c.Sized := fun c hc => plain_makeCols hdefs hc
  obtain ⟨raws, hraws, rfl, hconverted, hstored⟩ :=
    insertValues_served (colsFound hdb) hserves (fun c hc => (hplain c hc).1) hall
  obtain ⟨rec, hmake, hread⟩ := @makeRecord_makeCols tabName colDefs 0 (fun c hc => (hplain c hc).2) _
    hstored [] buffer rfl hbuffer.ge
  obtain ⟨rec', hfill, hmake'⟩ := fillRecord_served hconverted hserves buffer
  obtain rfl : rec' = rec := by simpa using hmake'.symm.trans hmake
  obtain ⟨hkey, habs⟩ := insertFilled_granted h rec'
  have hrun := insertStatement_filled (s := s) hdb hcols hraws hconverted.length_eq buffer
  rw [hfill] at hrun
  refine ⟨fun values hvalues => ?_, fun hnone => by cases hall.symm.trans hnone⟩
  cases hall.symm.trans hvalues
  refine ⟨rec', by simpa using hread, fun hdup => ?_, fun hnew => ?_⟩
  · simpa only [hkey hdup] using hrun
  · obtain ⟨rid, s', hins, hfree, hrecord⟩ := habs hnew
    exact ⟨rid, s', by simpa only [hins] using hrun, hfree, hrecord⟩

/-- An INSERT does what it should exactly in two cases. The literals convert, one for each column, and each column
finds one under its name that serves it. Or not all of them do, and an `RMDBError` comes of the first that does not
convert to the column found, or of the first column that is not served. -/
theorem insert_right_iff (h : s.table.Is k n chain metas rows)
    (hdb : db.tabs tabName = some ⟨makeCols tabName colDefs 0, indexes⟩)
    (hcols : s.table.cols = (makeCols tabName colDefs 0).map (·.toColMeta)) (hdefs : ∀ d ∈ colDefs, d.Plain)
    {buffer : RmRecord} (hbuffer : buffer.length = recordSize colDefs) (vals : List SvValue) :
    InsertRight casts db tabName (makeCols tabName colDefs 0) metas rows vals buffer s ↔
      InsertFine casts (makeCols tabName colDefs 0) vals := by
  cases hall : convertedAll casts (makeCols tabName colDefs 0) vals with
  | some values =>
    by_cases hserves : ∀ c ∈ makeCols tabName colDefs 0, (foundCol (makeCols tabName colDefs 0) c).Serves c
    · exact iff_of_true (insertStatement_accepted h hdb hcols hdefs hbuffer hall hserves)
        (.inl ⟨hall ▸ rfl, hserves⟩)
    · refine iff_of_false (fun hright => ?_) ?_
      · -- The statement fails with an error that is not about a key.
        obtain ⟨e, he, hne⟩ : ∃ e, insertStatement casts db tabName vals buffer s = .error e s ∧
            e ≠ .execute .indexEntryNotUnique := by
          cases hfirst : firstError casts
              ((makeCols tabName colDefs 0).map (foundCol (makeCols tabName colDefs 0))) vals with
          | some e => exact ⟨_, insertStatement_error hdb hfirst buffer, by simp⟩
          | none =>
            obtain ⟨c, hc⟩ := unserved_find hserves
            refine ⟨_, insertStatement_unserved hdb hcols hdefs hfirst (convertedAll_length hall).ge hc buffer, ?_⟩
            split <;> simp
        obtain ⟨rec, -, hkey, habs⟩ := hright.accepted values hall
        by_cases hdup : ∃ ix ∈ metas, rows.HasKey ix (ix.key rec)
        · cases he.symm.trans (hkey hdup)
          exact hne rfl
        · obtain ⟨rid, s', hrun, -⟩ := habs fun ix hix hkey => hdup ⟨ix, hix, hkey⟩
          cases he.symm.trans hrun
      · rintro (⟨-, hfine⟩ | ⟨hnone, -⟩)
        · exact hserves hfine
        · cases hall.symm.trans hnone
  | none =>
    have hright : InsertRight casts db tabName (makeCols tabName colDefs 0) metas rows vals buffer s ↔
        ∃ e, insertStatement casts db tabName vals buffer s = .error e s ∧ e.aboutLiterals = true :=
      ⟨fun hright => hright.rejected hall, fun he => ⟨fun _ hvalues => (by cases hall.symm.trans hvalues), fun _ => he⟩⟩
    have hsome : ¬ ((convertedAll casts (makeCols tabName colDefs 0) vals).isSome ∧
        ∀ c ∈ makeCols tabName colDefs 0, (foundCol (makeCols tabName colDefs 0) c).Serves c) := by
      rw [hall]
      exact fun hsome => by cases hsome.1
    rw [hright, InsertFine, or_iff_right hsome, and_iff_right hall]
    cases hfirst : firstError casts
        ((makeCols tabName colDefs 0).map (foundCol (makeCols tabName colDefs 0))) vals with
    | some e =>
      simp [insertStatement_error hdb hfirst, InsertError.aboutLiterals]
    | none =>
      rcases Nat.lt_or_ge vals.length (makeCols tabName colDefs 0).length with hless | hmore
      · have hrun : insertStatement casts db tabName vals buffer s = .error .behindValues s := by
          rw [insertStatement, analyzeInsert_eq hdb, insertValues_behind (colsFound hdb) hfirst hless]
        simp [hrun, InsertError.aboutLiterals, Nat.not_le.mpr hless]
      · by_cases hserves : ∀ c ∈ makeCols tabName colDefs 0, (foundCol (makeCols tabName colDefs 0) c).Serves c
        · -- The row is stored or its key is there already.
          refine iff_of_false ?_ ?_
          · rintro ⟨e, he, habout⟩
            rw [insertStatement_served h hdb hcols hdefs hfirst hmore hserves he] at habout
            cases habout
          · rintro (⟨e, he, -⟩ | ⟨-, -, c, hc, hne⟩)
            · cases he
            · exact hne (hserves c (List.mem_of_find?_eq_some hc)).1
        · obtain ⟨c, hc⟩ := unserved_find hserves
          rw [insertStatement_unserved hdb hcols hdefs hfirst hmore hc, hc]
          by_cases htype : (foundCol (makeCols tabName colDefs 0) c).type = c.type
          · simp [htype, InsertError.aboutLiterals]
          · simp [htype, InsertError.aboutLiterals, hmore]

end

namespace InsertExample

/-- `CREATE TABLE t (a INT, s CHAR(2))`. -/
def defs : List ColDef := [⟨"a", .int, 4⟩, ⟨"s", .string, 2⟩]

def catalog : Catalog where
  tabs t := if t = "t" then some ⟨makeCols "t" defs 0, []⟩ else none
  owned t tab htab col hcol := by
    split at htab
    · rename_i ht
      cases htab
      rcases List.mem_pair.mp hcol with rfl | rfl <;> exact ht.symm
    · cases htab

def session : Session := ⟨⟨(makeCols "t" defs 0).map (·.toColMeta), RmFileHandle.createFile 6, []⟩, []⟩

def five : SvValue := .intBint ['5'] (intLiteral_of_digits rfl)

def ab : SvValue := .string [97, 98] (by decide)

end InsertExample

open InsertExample in
/-- `INSERT INTO t VALUES (5, 'ab')`: the string fills its column. -/
theorem insert_right_full : InsertRight noFloats catalog "t" (makeCols "t" defs 0) [] (fun _ => none) [five, ab]
    (List.replicate 6 7) session := by
  have his : session.table.Is _ _ [] [] (fun _ => none) :=
    ⟨RmFileHandle.Holds.createFile (by decide), rfl, List.forall_mem_nil _⟩
  have hdefs : ∀ d ∈ defs, d.Plain := by
    intro d hd
    rcases List.mem_pair.mp hd with rfl | rfl <;> constructor <;> simp
  exact (insert_right_iff his rfl rfl hdefs rfl [five, ab]).mpr (.inl ⟨rfl, by decide⟩)

open InsertExample in
/-- `INSERT INTO t VALUES (5, 'ab', 5)` is accepted. -/
theorem insert_not_right : ¬ InsertRight noFloats catalog "t" (makeCols "t" defs 0) [] (fun _ => none) [five, ab, five]
    (List.replicate 6 7) session := by
  intro h
  obtain ⟨e, he, -⟩ := h.rejected rfl
  have hrun : (match insertStatement noFloats catalog "t" [five, ab, five] (List.replicate 6 7) session with
      | .ok _ _ => true
      | .error _ _ => false) = true := by
    decide +kernel
  rw [he] at hrun
  cases hrun

end Rmdb
