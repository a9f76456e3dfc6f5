-- SUMMARY: `load_data`: what a LOAD leaves in the table, its indexes and the log, and when that is right.
import Rmdb.Execution.Agreement
import Rmdb.Record.Scan
import Rmdb.System.CsvLine

/-!
# LOAD

`SmManager::load_data` inserts a record for each line behind the header, with `nullptr` as context:
`insert_record` then writes no log. The indexes of the table are not touched. What the conversion of
a field gives is left open. A file that cannot be opened has no lines.
-/

namespace Rmdb

open Run

inductive LoadError (ε : Type) where
  | columnNotFound (field : List UInt8)
  /-- `InternalError("csv not match")`. -/
  | csvNotMatch
  | convert (e : ε)
  /-- The behaviour of the program is not defined. -/
  | undefined
  | assertion

/-- The table, and the records that `gen_log_from_write_set` has written, the last one first. -/
structure LoadState where
  table : Table
  log : List WriteRecord

variable {ε : Type}

abbrev LoadM (ε : Type) := EStateM (LoadError ε) LoadState

-- ---------------------------------------------------------------------------
-- The header
-- ---------------------------------------------------------------------------

/-- `std::getline(ss, field, ',')`: what is left of the stream, if its end was not reached, and
`field`, which keeps its value when the end was reached before. -/
def getlineComma : Option (List UInt8) → List UInt8 → Option (List UInt8) × List UInt8
  | none, field => (none, field)
  | some chars, _ =>
    match chars.dropWhile fun c => c ≠ 44 with
    | [] => (none, chars.takeWhile fun c => c ≠ 44)
    | _ :: rest => (some rest, chars.takeWhile fun c => c ≠ 44)

/-- The loop over the columns. More fields than columns are not seen. -/
def checkHeader : List ColMeta → Option (List UInt8) → List UInt8 → Except (LoadError ε) Unit
  | [], _, _ => .ok ()
  | col :: cols, ss, field =>
    let (ss, field) := getlineComma ss field
    if field ≠ ascii col.name then .error (.columnNotFound field) else checkHeader cols ss field

-- ---------------------------------------------------------------------------
-- The lines
-- ---------------------------------------------------------------------------

section

variable (convert : List UInt8 → ColMeta → Except ε (List UInt8)) (buffer : List UInt8 → RmRecord)

/-- The loop that converts the words into the record. -/
def convertWords : List ColMeta → List (List UInt8) → RmRecord → Except (LoadError ε) RmRecord
  | col :: cols, field :: words, rec =>
    match convert field col with
    | .ok raw => convertWords cols words (memcpy rec col.offset raw col.len)
    | .error e => .error (.convert e)
  | _, _, rec => .ok rec

/-- The record of a line. `buffer` is what is in the memory of a new record. -/
def lineRecord (cols : List ColMeta) (line : List UInt8) : Except (LoadError ε) RmRecord :=
  match splitLine line with
  | none => .error .undefined
  | some words =>
    if words.length ≠ cols.length then .error .csvNotMatch
    else convertWords convert cols words (buffer line)

/-- `insert_record(buf, context)`. -/
def RmFileHandle.insertWith (context : Bool) (buf : RmRecord) : LoadM ε Unit := do
  let s ← get
  match s.table.file.insertRecord buf with
  | .error _ => throw .assertion
  | .ok (rid, file) =>
    set { s with
      table := { s.table with file := file }
      log := if context then .insertTuple rid buf :: s.log else s.log : LoadState }

def loadLine (cols : List ColMeta) (line : List UInt8) : LoadM ε Unit :=
  match lineRecord convert buffer cols line with
  | .error e => throw e
  | .ok rec => RmFileHandle.insertWith false rec

def loadLines (cols : List ColMeta) : List (List UInt8) → LoadM ε Unit
  | [] => pure ()
  | line :: lines => do
    loadLine convert buffer cols line
    loadLines cols lines

def loadData (lines : List (List UInt8)) : LoadM ε Unit := do
  let s ← get
  match lines with
  | [] => pure ()
  | header :: lines =>
    match checkHeader s.table.cols (some header) [] with
    | .error e => throw e
    | .ok () => loadLines convert buffer s.table.cols lines

end

-- ---------------------------------------------------------------------------
-- What a LOAD should do
-- ---------------------------------------------------------------------------

/-- Rows with further rows. -/
def addRows (rows : Rows) (new : List (Rid × RmRecord)) : Rows :=
  new.foldl (fun rows row => Function.update rows row.1 (some row.2)) rows

/-- A LOAD that returns has added one row for each line, with its keys and its log records, and one
that throws has changed nothing. -/
def LoadRight (k : Int) (metas : List IndexMeta) (rows : Rows) (s : LoadState) (lines : List (List UInt8)) :
    EStateM.Result (LoadError ε) LoadState Unit → Prop
  | .ok () s' => ∃ (new : List (Rid × RmRecord)) (n : Int) (chain : List PageNo),
      new.length = lines.tail.length ∧ (new.map Prod.fst).Nodup ∧ (∀ row ∈ new, rows row.1 = none) ∧
      s'.table.Is k n chain metas (addRows rows new) ∧
      s'.log = (new.map fun row => .insertTuple row.1 row.2).reverse ++ s.log
  | .error .undefined _ => False
  | .error _ s' => (∃ n chain, s'.table.Is k n chain metas rows) ∧
      s'.table.indexes = s.table.indexes ∧ s'.log = s.log

/-- No row is inserted: there is no line behind the header, the header is wrong, or the first line
is. -/
def InsertsNothing (convert : List UInt8 → ColMeta → Except ε (List UInt8)) (buffer : List UInt8 → RmRecord)
    (cols : List ColMeta) : List (List UInt8) → Prop
  | [] => True
  | header :: lines =>
    (∃ e : LoadError ε, checkHeader cols (some header) [] = .error e) ∨
    match lines with
    | [] => True
    | line :: _ => splitLine line ≠ none ∧ ∃ e, lineRecord convert buffer cols line = .error e

-- ---------------------------------------------------------------------------
-- The loop
-- ---------------------------------------------------------------------------

variable {convert : List UInt8 → ColMeta → Except ε (List UInt8)} {buffer : List UInt8 → RmRecord}
  {k n : Int} {chain : List PageNo} {metas : List IndexMeta} {rows : Rows} {s : LoadState}

theorem insertWith_run (h : s.table.file.Holds k n chain rows) (buf : RmRecord) : ∃ rid f n₁ chain₁,
    rows rid = none ∧ f.Holds k n₁ chain₁ (Function.update rows rid (some buf)) ∧
      (RmFileHandle.insertWith false buf : LoadM ε Unit) s =
        .ok () { s with table := { s.table with file := f } } := by
  obtain ⟨rid, f, n₁, chain₁, hinsert, hplaced, hholds⟩ := h.insertRecord buf
  refine ⟨rid, f, n₁, chain₁, hplaced.1, hholds, ?_⟩
  simp only [RmFileHandle.insertWith, bind_run, get_run, hinsert]
  rfl

/-- A state with the log and the indexes of `s` and at least its rows. -/
structure LoadState.Extends (s' : LoadState) (k : Int) (rows : Rows) (s : LoadState) : Prop where
  log : s'.log = s.log
  indexes : s'.table.indexes = s.table.indexes
  rows : ∃ n chain rows', s'.table.file.Holds k n chain rows' ∧ ∀ rid, rows rid ≠ none → rows' rid = rows rid

/-- The state in which a program ends. -/
def endState {α : Type} : EStateM.Result (LoadError ε) LoadState α → LoadState
  | .ok _ s => s
  | .error _ s => s

/-- The lines add rows, and neither keys nor log records. -/
theorem loadLines_extends (h : s.table.file.Holds k n chain rows) (cols : List ColMeta)
    (lines : List (List UInt8)) :
    (endState (loadLines convert buffer cols lines s)).Extends k rows s := by
  induction lines generalizing s n chain rows with
  | nil => exact ⟨rfl, rfl, n, chain, rows, h, fun _ _ => rfl⟩
  | cons line lines ih =>
    simp only [loadLines, bind_run, loadLine]
    cases lineRecord convert buffer cols line with
    | error e => exact ⟨rfl, rfl, n, chain, rows, h, fun _ _ => rfl⟩
    | ok rec =>
      obtain ⟨rid, f, n₁, chain₁, hnew, hholds, hrun⟩ := insertWith_run (ε := ε) h rec
      simp only [hrun]
      have hrest := @ih n₁ chain₁ (Function.update rows rid (some rec))
        { s with table := { s.table with file := f } } hholds
      obtain ⟨hlog, hindexes, n', chain', rows', hholds', hkeep⟩ := hrest
      refine ⟨hlog, hindexes, n', chain', rows', hholds', fun rid' hrid' => ?_⟩
      have hne : rid' ≠ rid := by
        rintro rfl
        exact hrid' hnew
      rw [hkeep rid' (by rwa [Function.update_of_ne hne]), Function.update_of_ne hne]

/-- When all lines are right, their records are added one after the other, and that is all. -/
theorem loadLines_ok (h : s.table.file.Holds k n chain rows) {cols : List ColMeta} {lines : List (List UInt8)}
    {recs : List RmRecord} (hrecs : List.Forall₂ (fun line rec => lineRecord convert buffer cols line = .ok rec) lines recs) :
    ∃ new s' n' chain', loadLines convert buffer cols lines s = .ok () s' ∧ new.map Prod.snd = recs ∧
      s'.table.file.Holds k n' chain' (addRows rows new) ∧ s'.table.indexes = s.table.indexes ∧ s'.log = s.log := by
  induction hrecs generalizing s n chain rows with
  | nil => exact ⟨[], s, n, chain, rfl, rfl, h, rfl, rfl⟩
  | @cons line rec lines recs hline _ ih =>
    obtain ⟨rid, f, n₁, chain₁, -, hholds, hrun⟩ := insertWith_run (ε := ε) h rec
    obtain ⟨new, s', n', chain', hrest, hnew, hholds', hindexes, hlog⟩ :=
      @ih n₁ chain₁ (Function.update rows rid (some rec)) { s with table := { s.table with file := f } } hholds
    refine ⟨(rid, rec) :: new, s', n', chain', ?_, ?_, hholds', hindexes, hlog⟩
    · simp only [loadLines, bind_run, loadLine, hline, hrun]
      exact hrest
    · rw [List.map_cons, hnew]

-- ---------------------------------------------------------------------------
-- The whole call
-- ---------------------------------------------------------------------------

theorem checkHeader_error {cols : List ColMeta} {ss : Option (List UInt8)} {field : List UInt8} {e : LoadError ε}
    (h : checkHeader cols ss field = .error e) : ∃ field', e = .columnNotFound field' := by
  induction cols generalizing ss field with
  | nil => cases h
  | cons col cols ih =>
    unfold checkHeader at h
    dsimp only at h
    split at h
    · cases h
      exact ⟨_, rfl⟩
    · exact ih h

theorem convertWords_error {cols : List ColMeta} {words : List (List UInt8)} {rec : RmRecord} {e : LoadError ε}
    (h : convertWords convert cols words rec = .error e) : ∃ e', e = .convert e' := by
  induction cols generalizing words rec with
  | nil => cases h
  | cons col cols ih =>
    cases words with
    | nil => cases h
    | cons field words =>
      unfold convertWords at h
      split at h
      · exact ih h
      · cases h
        exact ⟨_, rfl⟩

/-- The behaviour is undefined where the line cannot be split. -/
theorem lineRecord_undefined {cols : List ColMeta} {line : List UInt8} :
    lineRecord convert buffer cols line = .error .undefined ↔ splitLine line = none := by
  unfold lineRecord
  cases splitLine line with
  | none => simp
  | some words =>
    refine iff_of_false (fun h => ?_) (Option.some_ne_none words)
    dsimp only at h
    split at h
    · cases h
    · obtain ⟨e, he⟩ := convertWords_error h
      cases he

/-- An exception that leaves the state alone. -/
theorem loadRight_error (h : s.table.Is k n chain metas rows) (lines : List (List UInt8)) {e : LoadError ε}
    (he : e ≠ .undefined) : LoadRight k metas rows s lines (.error e s) := by
  have hsame : ∃ n chain, s.table.Is k n chain metas rows := ⟨n, chain, h⟩
  cases e with
  | undefined => exact absurd rfl he
  | _ => exact ⟨hsame, rfl, rfl⟩

/-- Once a row is in the table, the call is wrong, whatever the other lines do. -/
theorem not_loadRight_of_row (h : s.table.file.Holds k n chain rows) {header line : List UInt8}
    {lines : List (List UInt8)} {rec : RmRecord} {cols : List ColMeta}
    (hrec : lineRecord convert buffer cols line = .ok rec) :
    ¬ LoadRight k metas rows s (header :: line :: lines) (loadLines convert buffer cols (line :: lines) s) := by
  obtain ⟨rid, f, n₁, chain₁, hnew, hholds, hrun⟩ := insertWith_run (ε := ε) h rec
  have hrest := @loadLines_extends ε convert buffer k n₁ chain₁ (Function.update rows rid (some rec))
    { s with table := { s.table with file := f } } hholds cols lines
  have hfirst : loadLines convert buffer cols (line :: lines) s =
      loadLines convert buffer cols lines { s with table := { s.table with file := f } } := by
    simp only [loadLines, bind_run, loadLine, hrec, hrun]
  rw [hfirst]
  obtain ⟨hlog, -, n', chain', rows', hholds', hkeep⟩ := hrest
  intro hright
  cases hend : loadLines convert buffer cols lines { s with table := { s.table with file := f } } with
  | ok u s' =>
    -- The row has no log record.
    rw [hend] at hright hlog
    obtain ⟨new, -, -, hlen, -, -, -, hlogged⟩ := hright
    have hcount := congrArg List.length (hlog.symm.trans hlogged)
    simp only [List.length_append, List.length_reverse, List.length_map, hlen, List.tail_cons,
      List.length_cons] at hcount
    omega
  | error e s' =>
    -- The row stays in the table.
    rw [hend] at hright hholds'
    have hsame : ∃ n chain, s'.table.Is k n chain metas rows := by
      cases e with
      | undefined => exact hright.elim
      | _ => exact hright.1
    obtain ⟨n₂, chain₂, his⟩ := hsame
    have hrow := hkeep rid (by rw [Function.update_self]; exact Option.some_ne_none rec)
    have hholds₂ : s'.table.file.Holds k n' chain' rows' := hholds'
    have hback : rows' rid = rows rid := (hholds₂.lookup rid).symm.trans (his.file.lookup rid)
    rw [hback, hnew, Function.update_self] at hrow
    cases hrow

/-- LOAD is right exactly when it inserts no row. -/
theorem loadData_right_iff (h : s.table.Is k n chain metas rows) (lines : List (List UInt8)) :
    LoadRight k metas rows s lines (loadData convert buffer lines s) ↔
      InsertsNothing convert buffer s.table.cols lines := by
  cases lines with
  | nil =>
    refine iff_of_true ?_ trivial
    exact ⟨[], n, chain, rfl, List.nodup_nil, fun row hrow => (nomatch hrow), h, rfl⟩
  | cons header lines =>
    simp only [loadData, bind_run, get_run, InsertsNothing]
    cases hheader : (checkHeader s.table.cols (some header) [] : Except (LoadError ε) Unit) with
    | error e =>
      obtain ⟨field, rfl⟩ := checkHeader_error hheader
      exact iff_of_true (loadRight_error h _ (by simp)) (.inl ⟨_, rfl⟩)
    | ok u =>
      cases lines with
      | nil =>
        refine iff_of_true ?_ (.inr trivial)
        exact ⟨[], n, chain, rfl, List.nodup_nil, fun row hrow => (nomatch hrow), h, rfl⟩
      | cons line lines =>
        cases hrec : lineRecord convert buffer s.table.cols line with
        | ok rec =>
          refine iff_of_false (not_loadRight_of_row h.file hrec) ?_
          rintro (⟨e, he⟩ | ⟨-, e, he⟩)
          · cases he
          · rw [hrec] at he
            cases he
        | error e =>
          simp only [loadLines, bind_run, loadLine, hrec, throw_run]
          by_cases he : e = .undefined
          · subst he
            refine iff_of_false id ?_
            rintro (⟨e, he⟩ | ⟨hsplit, -⟩)
            · cases he
            · exact hsplit (lineRecord_undefined.mp hrec)
          · refine iff_of_true (loadRight_error h _ he) (.inr ⟨fun hsplit => he ?_, e, rfl⟩)
            have hund := (@lineRecord_undefined ε convert buffer s.table.cols line).mpr hsplit
            rw [hrec] at hund
            exact Except.error.inj hund

-- ---------------------------------------------------------------------------
-- A table of one column
-- ---------------------------------------------------------------------------

/-- A table `a INT` without rows or indexes. -/
def emptyLoad : LoadState := ⟨⟨[⟨"a", .int, 4, 0⟩], .createFile 4, []⟩, []⟩

theorem emptyLoad_is : emptyLoad.table.Is (RmFileHandle.createFile 4).numRecordsPerPage 1 [] [] fun _ => none :=
  ⟨RmFileHandle.Holds.createFile (by decide), rfl, fun ix hix => (nomatch hix)⟩

/-- The conversion of the text `1`. -/
def convertOne (field : List UInt8) (_ : ColMeta) : Except Unit (List UInt8) :=
  if field = ascii "1" then .ok [1, 0, 0, 0] else .error ()

/-- A file with the wrong header changes nothing, and neither does one whose first line has a word that does not
convert. -/
theorem loadData_right_word :
    LoadRight (RmFileHandle.createFile 4).numRecordsPerPage [] (fun _ => none) emptyLoad
      [ascii "b", ascii "1"] (loadData convertOne (fun _ => []) [ascii "b", ascii "1"] emptyLoad) ∧
    LoadRight (RmFileHandle.createFile 4).numRecordsPerPage [] (fun _ => none) emptyLoad
      [ascii "a", ascii "x", ascii "1"] (loadData convertOne (fun _ => []) [ascii "a", ascii "x", ascii "1"] emptyLoad) := by
  refine ⟨(loadData_right_iff emptyLoad_is _).mpr (.inl ⟨.columnNotFound (ascii "b"), rfl⟩),
    (loadData_right_iff emptyLoad_is _).mpr (.inr ⟨?_, .convert (), rfl⟩)⟩
  have hsplit : splitLine (ascii "x") = some [ascii "x"] := by decide
  rw [hsplit]
  exact Option.some_ne_none _

/-- A file of one row is loaded, and the log knows nothing of the row. -/
theorem loadData_not_right : ¬ LoadRight (RmFileHandle.createFile 4).numRecordsPerPage [] (fun _ => none) emptyLoad
    [ascii "a", ascii "1"] (loadData convertOne (fun _ => [0, 0, 0, 0]) [ascii "a", ascii "1"] emptyLoad) := by
  have hrec : lineRecord convertOne (fun _ => [0, 0, 0, 0]) emptyLoad.table.cols (ascii "1") =
      .ok [1, 0, 0, 0] := rfl
  exact not_loadRight_of_row emptyLoad_is.file hrec

end Rmdb
