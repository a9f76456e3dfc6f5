-- SUMMARY: Every row of a table holds values of its columns, whatever one client writes.
import Rmdb.Execution.Agreement
import Rmdb.Execution.UpdateStatement
import Rmdb.Index.ValueOrder

/-!
# What the rows of a table hold

The analyzer converts each literal to a value of its column and `init_raw` pads it, so the columns of a new record are
filled with the bytes of values. An `UPDATE` assigns such bytes, or adds up numbers, and any bytes of the right length
are those of a number. So in every run each row has the size of the records of the table, and each of its columns the
bytes of one of its values: what is behind the end of a string is zero. `FLOAT` columns are left out.
-/

namespace Rmdb

-- ---------------------------------------------------------------------------
-- Numbers
-- ---------------------------------------------------------------------------

/-- All bytes of a number column are those of the number that it reads. -/
theorem ColMeta.raw_read {col : ColMeta} (hsized : col.Sized) (hfloat : col.type ≠ .float)
    (hstring : col.type ≠ .string) (r : RmRecord) : (col.read r).raw col.len = slice r col.offset col.len := by
  cases htype : col.type with
  | int =>
    rw [hsized.int htype]
    simp only [ColMeta.read, htype, Value.raw]
    exact writeSigned_readInt (slice_length _ _ _)
  | bigint =>
    rw [hsized.bigint htype]
    simp only [ColMeta.read, htype, Value.raw]
    exact writeSigned_readBigint (slice_length _ _ _)
  | datetime =>
    rw [hsized.datetime htype]
    simp only [ColMeta.read, htype, Value.raw]
    exact writeSigned_readBigint (slice_length _ _ _)
  | string => exact absurd htype hstring
  | float => exact absurd htype hfloat

-- ---------------------------------------------------------------------------
-- One row
-- ---------------------------------------------------------------------------

/-- The record has the size of the records of the table, and each column but a `FLOAT` has the bytes of a value. -/
structure RowOf (cols : List ColMeta) (size : Nat) (r : RmRecord) : Prop where
  length : r.length = size
  written : ∀ col ∈ cols, col.type ≠ .float → Written [col] r

theorem written_singleton {col : ColMeta} {r : RmRecord} : Written [col] r ↔
    ∃ v : Value, v.StoredIn col ∧ slice r col.offset col.len = v.raw col.len :=
  List.forall_mem_singleton

/-- A number column is always written. -/
theorem written_number {col : ColMeta} (hsized : col.Sized) (hfloat : col.type ≠ .float) (hstring : col.type ≠ .string)
    (r : RmRecord) : Written [col] r :=
  written_singleton.mpr ⟨col.read r, col.read_storedIn hfloat r, (ColMeta.raw_read hsized hfloat hstring r).symm⟩

theorem RowOf.of_sub {cols cols' : List ColMeta} {size : Nat} {r : RmRecord} (h : RowOf cols size r)
    (hsub : ∀ col ∈ cols', col ∈ cols ∧ col.type ≠ .float) : Written cols' r :=
  fun col hcol => written_singleton.mp (h.written col (hsub col hcol).1 (hsub col hcol).2)

section

variable {cols : List ColMeta} {size : Nat} {r : RmRecord}

/-- A copy of bytes to a column leaves the other columns. -/
theorem written_memcpy (hlayout : Layout cols size) {c d : ColMeta} (hc : c ∈ cols) (hd : d ∈ cols)
    (hr : r.length = size) {bs : List UInt8} (hbs : bs.length = d.len)
    (hval : c = d → ∃ v : Value, v.StoredIn d ∧ bs = v.raw d.len)
    (hkept : c ≠ d → Written [c] r) : Written [c] (memcpy r d.offset bs d.len) := by
  rw [written_singleton]
  by_cases heq : c = d
  · obtain ⟨v, hv, hraw⟩ := hval heq
    subst heq
    exact ⟨v, hv, (slice_memcpy_self hbs (hr ▸ hlayout.inside c hc)).trans hraw⟩
  · obtain ⟨v, hv, hraw⟩ := written_singleton.mp (hkept heq)
    exact ⟨v, hv, (slice_memcpy_of_disjoint (hlayout.apart c hc d hd heq)).trans hraw⟩

/-- A value that is copied to a column of its type. -/
def FitsColumn (col : ColMeta) (v : Value) : Prop := col.type ≠ .float → v.StoredIn col

theorem FitsColumn.raw_length {col : ColMeta} {v : Value} (h : FitsColumn col v) (hcol : col.Typed)
    (htype : col.type = v.type) : (v.raw col.len).length = col.len := by
  by_cases hfloat : col.type = .float
  · obtain ⟨x, rfl⟩ : ∃ x, v = .float x := by
      cases v <;> simp_all [Value.type]
    rw [hcol.float hfloat]
    exact writeUnsigned_length _ _
  · exact (h hfloat).raw_length hcol.toSized

/-- The loop that fills a new record. The induction is on the columns that are left; those that were filled before
are not touched, or filled a second time. -/
theorem makeRecord_written (hlayout : Layout cols size) {cols' : List ColMeta} {values : List Value}
    (hfit : List.Forall₂ FitsColumn cols' values) (hsub : ∀ col ∈ cols', col ∈ cols) (hr : r.length = size)
    {rec : RmRecord} (hmake : makeRecord cols' values r = .ok rec) : rec.length = size ∧
      ∀ c ∈ cols, c.type ≠ .float → c ∈ cols' ∨ Written [c] r → Written [c] rec := by
  induction hfit generalizing r with
  | nil =>
    cases hmake
    exact ⟨hr, fun c _ _ h => h.resolve_left List.not_mem_nil⟩
  | @cons col v cols' values hcol hrest ih =>
    obtain ⟨hmem, hsub⟩ := List.forall_mem_cons.mp hsub
    rw [makeRecord] at hmake
    split at hmake
    · cases hmake
    · rename_i htype
      have hlen := hcol.raw_length (hlayout.typed col hmem) (not_not.mp htype)
      obtain ⟨hlength, hwritten⟩ := ih hsub ((memcpy_length ..).trans hr) hmake
      refine ⟨hlength, fun c hc hfloat h => hwritten c hc hfloat ?_⟩
      rw [or_iff_not_imp_left]
      intro hnotMem
      refine written_memcpy hlayout hc hmem hr hlen (fun heq => ⟨v, hcol (heq ▸ hfloat), rfl⟩) fun hne => ?_
      rcases h with h | h
      · exact absurd ((List.mem_cons.mp h).resolve_left hne) hnotMem
      · exact h

theorem rowOf_makeRecord (hlayout : Layout cols size) {values : List Value} (hfit : List.Forall₂ FitsColumn cols values)
    (hr : r.length = size) {rec : RmRecord} (hmake : makeRecord cols values r = .ok rec) : RowOf cols size rec := by
  obtain ⟨hlength, hwritten⟩ := makeRecord_written hlayout hfit (fun _ h => h) hr hmake
  exact ⟨hlength, fun col hcol hfloat => hwritten col hcol hfloat (.inl hcol)⟩

/-- What a set clause leaves in a column. -/
theorem SetClause.compute_written {col : ColMeta} (hcol : col.Typed) {v : Value} (htype : col.type = v.type)
    (hfit : FitsColumn col v) {op : SetOp} {old new : List UInt8}
    (h : compute op col.type old (v.raw col.len) = .ok new) :
    new.length = col.len ∧ (col.type ≠ .float → ∃ w : Value, w.StoredIn col ∧ new = w.raw col.len) := by
  have hlen := hfit.raw_length hcol htype
  -- What is computed has the length of the column; if the column holds numbers, this is enough.
  have hnumber : new.length = col.len → col.type ≠ .string → new.length = col.len ∧
      (col.type ≠ .float → ∃ w : Value, w.StoredIn col ∧ new = w.raw col.len) := by
    refine fun hnew hstring => ⟨hnew, fun hfloat => ?_⟩
    have hwritten := @written_number { col with offset := 0 } ⟨hcol.int, hcol.bigint, hcol.datetime⟩ hfloat hstring new
    obtain ⟨w, hw, hraw⟩ := written_singleton.mp hwritten
    rw [slice_self hnew] at hraw
    exact ⟨w, by cases w <;> exact hw, hraw⟩
  cases htype' : col.type with
  | int =>
    rw [htype'] at hnumber
    cases op <;> (rw [htype'] at h; cases h)
    · exact hnumber hlen (by decide)
    · exact hnumber ((writeSigned_length _ _).trans (hcol.int htype').symm) (by decide)
    · exact hnumber ((writeSigned_length _ _).trans (hcol.int htype').symm) (by decide)
  | bigint =>
    rw [htype'] at hnumber
    cases op <;> (rw [htype'] at h; cases h)
    · exact hnumber hlen (by decide)
    · exact hnumber ((writeSigned_length _ _).trans (hcol.bigint htype').symm) (by decide)
    · exact hnumber ((writeSigned_length _ _).trans (hcol.bigint htype').symm) (by decide)
  | float =>
    rw [htype'] at hnumber
    cases op <;> (rw [htype'] at h; cases h)
    · exact hnumber hlen (by decide)
    · exact hnumber ((writeUnsigned_length _ _).trans (hcol.float htype').symm) (by decide)
    · exact hnumber ((writeUnsigned_length _ _).trans (hcol.float htype').symm) (by decide)
  | string | datetime =>
    cases op <;> (rw [htype'] at h; cases h)
    exact ⟨hlen, fun hfloat => ⟨v, hfit (htype' ▸ hfloat), rfl⟩⟩

/-- The values of the clauses are values of the columns that they name. -/
def FitsColumns (cols : List ColMeta) (clauses : List SetClause) : Prop :=
  ∀ clause ∈ clauses, ∀ col, getCol cols clause.lhs = some col → FitsColumn col clause.rhs

theorem RowOf.apply (hlayout : Layout cols size) (h : RowOf cols size r) {clause : SetClause}
    (hfit : ∀ col, getCol cols clause.lhs = some col → FitsColumn col clause.rhs) {r' : RmRecord}
    (happly : clause.apply cols r = .ok r') : RowOf cols size r' := by
  rw [SetClause.apply] at happly
  cases hget : getCol cols clause.lhs with
  | none =>
    rw [hget] at happly
    cases happly
  | some col =>
    rw [hget] at happly
    have hmem : col ∈ cols := List.mem_of_find?_eq_some hget
    simp only at happly
    split at happly
    · cases happly
    · rename_i htype
      obtain ⟨new, hnew, happly⟩ := bind_eq_ok_iff.mp happly
      obtain rfl := Except.ok.inj happly
      obtain ⟨hlen, hval⟩ := SetClause.compute_written (hlayout.typed col hmem) (not_not.mp htype) (hfit col hget) hnew
      refine ⟨(memcpy_length ..).trans h.length, fun c hc hfloat => ?_⟩
      exact written_memcpy hlayout hc hmem h.length hlen (fun heq => hval (heq ▸ hfloat)) fun _ => h.written c hc hfloat

/-- The loop over the set clauses. -/
theorem RowOf.applySetClauses (hlayout : Layout cols size) (h : RowOf cols size r) {clauses : List SetClause}
    (hfit : FitsColumns cols clauses) {r' : RmRecord} (happly : applySetClauses cols clauses r = .ok r') :
    RowOf cols size r' := by
  induction clauses generalizing r with
  | nil =>
    cases happly
    exact h
  | cons clause clauses ih =>
    obtain ⟨hclause, hclauses⟩ := List.forall_mem_cons.mp hfit
    obtain ⟨r₁, hr₁, hrest⟩ := bind_eq_ok_iff.mp happly
    exact ih (h.apply hlayout hclause hr₁) hclauses hrest

end

-- ---------------------------------------------------------------------------
-- Statements
-- ---------------------------------------------------------------------------

/-- All rows are records of the table. -/
def RowsOf (cols : List ColMeta) (size : Nat) (rows : Rows) : Prop := ∀ rid r, rows rid = some r → RowOf cols size r

/-- The values of a statement are values of the columns that they are written to, and a new record has the size of
the others. -/
def Stmt.Fits (cols : List ColMeta) (size : Nat) : Stmt → Prop
  | .insert values buffer .. => List.Forall₂ FitsColumn cols values ∧ buffer.length = size
  | .delete .. => True
  | .update clauses .. => FitsColumns cols clauses

section

open Exec Run

variable {cols : List ColMeta} {size : Nat} {rows : Rows} {s s' : Session} {k n : Int} {chain : List PageNo}
  {metas : List IndexMeta} {rid : Rid} {r : RmRecord}

theorem RowsOf.update (h : RowsOf cols size rows) (hr : RowOf cols size r) :
    RowsOf cols size (Function.update rows rid (some r)) := by
  intro rid' r' hr'
  by_cases heq : rid' = rid
  · subst heq
    rw [Function.update_self] at hr'
    exact Option.some.inj hr' ▸ hr
  · rw [Function.update_of_ne heq] at hr'
    exact h rid' r' hr'

theorem RowsOf.overlay {l : List (Rid × RmRecord)} (h : RowsOf cols size rows) (hl : ∀ x ∈ l, RowOf cols size x.2) :
    RowsOf cols size (rows.overlay l) := by
  induction l with
  | nil => exact h
  | cons x l ih =>
    obtain ⟨hx, hl⟩ := List.forall_mem_cons.mp hl
    exact (ih hl).update hx

theorem RmFileHandle.Holds.rowsOf {f : RmFileHandle} (h : f.Holds k n chain rows) (hrows : RowsOf cols size rows) :
    RowsOf cols size f.lookup := by
  obtain rfl : f.lookup = rows := funext h.lookup
  exact hrows

theorem rowsOf_createFile {recordSize : Nat} (h : recordSize ≤ 2048) :
    RowsOf cols size (RmFileHandle.createFile recordSize).lookup :=
  (RmFileHandle.Holds.createFile h).rowsOf fun rid r hr => by cases hr

/-- An insertion that goes through adds a record with these values. -/
theorem insertNext_rowsOf (h : s.table.Is k n chain metas rows) (hlayout : Layout s.table.cols size)
    (hrows : RowsOf s.table.cols size rows) {values : List Value} {buffer : RmRecord} {tableGranted : Bool}
    {recordGranted : Rid → Bool} (hfit : (Stmt.insert values buffer tableGranted recordGranted).Fits s.table.cols size)
    (hrun : insertNext values buffer tableGranted recordGranted s = .ok () s') :
    RowsOf s.table.cols size s'.table.file.lookup ∧ s'.table.cols = s.table.cols := by
  by_cases hlen : values.length = s.table.cols.length
  case neg => simp [insertNext, hlen] at hrun
  cases hmake : makeRecord s.table.cols values buffer with
  | error e => simp [insertNext, hlen, hmake] at hrun
  | ok rec =>
    have hnext : insertFilled rec tableGranted recordGranted s = .ok () s' := by
      simpa [insertNext, hlen, hmake] using hrun
    rcases insertFilled_run h rec tableGranted recordGranted with
      ⟨-, he⟩ | ⟨-, he⟩ | ⟨rid, f, n₁, chain₁, -, -, hfile, ⟨ixs, hok, -⟩ | ⟨-, he⟩⟩
    · cases hnext.symm.trans he
    · cases hnext.symm.trans he
    · cases hnext.symm.trans hok
      exact ⟨hfile.rowsOf (hrows.update (rowOf_makeRecord hlayout hfit.1 hfit.2 hmake)), rfl⟩
    · cases hnext.symm.trans he

/-- The loop of a `DELETE` only takes rows away. -/
theorem each_deleteRow_rows {rids : List Rid} (conds : List Condition) (h : s.table.Is k n chain metas rows)
    (hnodup : rids.Nodup) (hrows : ∀ rid ∈ rids, rows rid ≠ none) (hrun : each (deleteRow conds) rids s = .ok () s') :
    (∀ rid r, s'.table.file.lookup rid = some r → rows rid = some r) ∧ s'.table.cols = s.table.cols := by
  induction rids generalizing s chain rows with
  | nil =>
    cases hrun
    exact ⟨fun rid r hr => (h.file.lookup rid).symm.trans hr, rfl⟩
  | cons rid rids ih =>
    obtain ⟨hnotMem, hnodup⟩ := List.nodup_cons.mp hnodup
    obtain ⟨r, hr⟩ := Option.ne_none_iff_exists'.mp (hrows rid List.mem_cons_self)
    have hrest : ∀ rid' ∈ rids, rows rid' ≠ none := fun rid' hrid' => hrows rid' (List.mem_cons_of_mem _ hrid')
    rcases deleteRow_run h hr conds with hrow | hrow | ⟨f, ixs, hrow, hfile, hall⟩
    · simp [each, hrow] at hrun
    · exact ih h hnodup hrest (by simpa [each, hrow] using hrun)
    · have hrest' : ∀ rid' ∈ rids, Function.update rows rid none rid' ≠ none := by
        intro rid' hrid'
        have hne : rid' ≠ rid := fun heq => hnotMem (heq ▸ hrid')
        rw [Function.update_of_ne hne]
        exact hrest rid' hrid'
      obtain ⟨hkept, hcols⟩ := @ih (Function.update rows rid none)
        ⟨{ s.table with file := f, indexes := ixs }, .deleteTuple rid r :: s.writeSet⟩ _ ⟨hfile, hall⟩ hnodup hrest'
        (by simpa [each, hrow] using hrun)
      refine ⟨fun rid' r' hr' => ?_, hcols⟩
      have hrow' := hkept rid' r' hr'
      by_cases heq : rid' = rid
      · subst heq
        rw [Function.update_self] at hrow'
        cases hrow'
      · rwa [Function.update_of_ne heq] at hrow'

/-- An `UPDATE` that goes through. -/
theorem updateNext_rowsOf (h : s.table.Is k n chain metas rows) (hlayout : Layout s.table.cols size)
    (hrows : RowsOf s.table.cols size rows) {clauses : List SetClause} (hfit : FitsColumns s.table.cols clauses)
    {rids : List Rid} {recordGranted : Rid → Bool} (hnodup : rids.Nodup) (hrids : ∀ rid ∈ rids, rows rid ≠ none)
    (hrun : updateNext clauses rids recordGranted s = .ok () s' ∨
      updateNext clauses rids recordGranted s = .error .indexEntryNotUnique s') :
    RowsOf s.table.cols size s'.table.file.lookup ∧ s'.table.cols = s.table.cols := by
  by_cases hlock : ∀ rid ∈ rids, recordGranted rid = true
  · rcases updateNext_run h clauses hnodup hrids hlock with
      ⟨l, f, ixs, hnext, -, hl, hfile, -⟩ | ⟨ixs, hnext, -, -⟩ | ⟨e, s₁, hnext, rid, -, r, -, herr⟩
    · obtain rfl := final_eq_of_ok hrun hnext
      refine ⟨hfile.rowsOf (hrows.overlay ?_), rfl⟩
      intro y hy
      obtain ⟨x, hx, rfl⟩ := List.mem_map.mp hy
      obtain ⟨hrow, happly⟩ := hl x hx
      exact (hrows _ _ hrow).applySetClauses hlayout hfit happly
    · obtain ⟨-, rfl⟩ := final_eq_of_error hrun hnext
      exact ⟨h.file.rowsOf hrows, rfl⟩
    · obtain ⟨rfl, -⟩ := final_eq_of_error hrun hnext
      exact absurd herr (applySetClauses_ne_notUnique _ _ _)
  · push Not at hlock
    obtain ⟨s₁, hrefused⟩ := removeOldKeys_refused h.file h.indexes hnodup (fun rid hrid => ⟨hrids rid hrid, rfl⟩)
      (by simpa using hlock)
    simp [updateNext, hrefused] at hrun

/-- One statement that succeeds or throws `IndexEntryNotUniqueError`. -/
theorem Stmt.exec_rowsOf {stmt : Stmt} (h : s.table.Agrees) (hlayout : Layout s.table.cols size)
    (hrows : RowsOf s.table.cols size s.table.file.lookup) (hfit : stmt.Fits s.table.cols size)
    (hscan : stmt.FromScan s.table)
    (hexec : stmt.exec s = .ok () s' ∨ stmt.exec s = .error .indexEntryNotUnique s') :
    RowsOf s.table.cols size s'.table.file.lookup ∧ s'.table.cols = s.table.cols := by
  obtain ⟨chain, hs⟩ := h.is
  cases stmt with
  | insert values buffer tableGranted recordGranted =>
    rcases insertNext_run hs values buffer tableGranted recordGranted with
      ⟨e, hrun⟩ | ⟨r, rid, f, n₁, chain₁, -, -, -, ⟨ixs, hrun, -⟩ | hrun⟩
    · obtain ⟨-, rfl⟩ := final_eq_of_error hexec hrun
      exact ⟨hrows, rfl⟩
    · obtain rfl := final_eq_of_ok hexec hrun
      exact insertNext_rowsOf hs hlayout hrows hfit hrun
    · exact absurd (final_eq_of_error hexec hrun).1 (by simp)
  | delete conds rids tableGranted =>
    simp only [Stmt.exec, deleteNext] at hexec
    cases tableGranted with
    | false => simp at hexec
    | true =>
      simp only [lock_true, bind_run, pure_run] at hexec
      obtain ⟨s₁, k₁, n₁, chain₁, rows₁, -, hrun⟩ := each_deleteRow_run conds hs hscan.1 hscan.2
      rcases hrun with hrun | hrun
      · obtain rfl := final_eq_of_ok hexec hrun
        obtain ⟨hkept, hcols⟩ := each_deleteRow_rows conds hs hscan.1 hscan.2 hrun
        exact ⟨fun rid r hr => hrows rid r (hkept rid r hr), hcols⟩
      · exact absurd (final_eq_of_error hexec hrun).1 (by simp)
  | update clauses rids recordGranted => exact updateNext_rowsOf hs hlayout hrows hfit hscan.1 hscan.2 hexec

end

-- ---------------------------------------------------------------------------
-- What the analyzer gives
-- ---------------------------------------------------------------------------

/-- What the analyzer makes of the statements on a table. The record of an `INSERT` has the size that is in the header
of the file. -/
inductive FromAnalyzer (casts : FloatCasts) (db : Catalog) (tabName : String) (size : Nat) : Stmt → Prop where
  | insert {vals : List SvValue} {values : List (Value × Nat)} {buffer : RmRecord} {tableGranted : Bool}
      {recordGranted : Rid → Bool} :
    Analyze.analyzeInsert casts db tabName vals = .ok values → buffer.length = size →
      FromAnalyzer casts db tabName size (.insert (values.map (·.1)) buffer tableGranted recordGranted)
  | delete {conds : List Condition} {rids : List Rid} {tableGranted : Bool} :
    FromAnalyzer casts db tabName size (.delete conds rids tableGranted)
  | update {clauses : List AstSetClause} {setClauses : List SetClause} {rids : List Rid} {recordGranted : Rid → Bool} :
    Analyze.setClauses casts db tabName clauses = .ok setClauses →
      FromAnalyzer casts db tabName size (.update setClauses rids recordGranted)

section

variable {casts : FloatCasts} {db : Catalog} {tabName : String} {colDefs : List ColDef} {indexes : List (List String)}

/-- The literals of an `INSERT`. -/
theorem insertValues_fit {find : TabColMeta → TabColMeta} {cols : List TabColMeta} (h : ColsFound db tabName find cols)
    (hsame : ∀ c ∈ cols, (find c).type = c.type ∧ (find c).len = c.len) {vals : List SvValue}
    {values : List (Value × Nat)} (hvalues : Analyze.insertValues casts db tabName cols vals = .ok values) :
    List.Forall₂ FitsColumn (cols.map (·.toColMeta)) (values.map (·.1)) := by
  induction cols generalizing vals values with
  | nil =>
    cases hvalues
    exact .nil
  | cons c cols ih =>
    obtain ⟨⟨htype, hlen⟩, hsame⟩ := List.forall_mem_cons.mp hsame
    have hcongr : ∀ v, convertSvValue casts v (find c).toColMeta = convertSvValue casts v c.toColMeta := by
      intro v
      simp only [convertSvValue, htype, hlen]
    rw [insertValues_cons h] at hvalues
    cases vals with
    | nil => cases hvalues
    | cons v vals =>
      simp only [hcongr] at hvalues
      cases hconvert : convertSvValue casts v c.toColMeta with
      | error e =>
        simp only [hconvert] at hvalues
        cases hvalues
      | ok val =>
        cases hrest : Analyze.insertValues casts db tabName cols vals with
        | error e =>
          simp only [hconvert, hrest] at hvalues
          cases hvalues
        | ok rest =>
          simp only [hconvert, hrest] at hvalues
          cases hvalues
          exact .cons (fun hfloat => convertSvValue_storedIn hfloat hconvert) (ih h.tail hsame hrest)

/-- The literals of an `UPDATE`. -/
theorem setClauses_fit (hname : tabName ≠ "") (hdb : db.tabs tabName = some ⟨makeCols tabName colDefs 0, indexes⟩)
    {clauses : List AstSetClause} {setClauses : List SetClause}
    (h : Analyze.setClauses casts db tabName clauses = .ok setClauses) :
    FitsColumns (columns tabName colDefs) setClauses := by
  intro clause hclause col hget
  simp only [Analyze.setClauses, Analyze.getAllCols, Analyze.getTable, hdb, Except.mapError, ok_bind] at h
  obtain ⟨ast, -, hast⟩ := Analyze.mapM_ok_mem h clause hclause
  obtain ⟨lhs, hlhs, hast⟩ := bind_eq_ok_iff.mp hast
  have hlhs' : lhs = ⟨tabName, ast.colName⟩ := by
    rw [Analyze.checkColumn, if_neg hname] at hlhs
    split at hlhs
    · exact (Except.ok.inj hlhs).symm
    · cases hlhs
  subst hlhs'
  simp only [Analyze.getTable, hdb, Except.mapError, ok_bind, Analyze.getCol] at hast
  cases hfind : (makeCols tabName colDefs 0).find? fun c => c.name == ast.colName with
  | none =>
    rw [hfind] at hast
    cases hast
  | some c =>
    simp only [hfind, ok_bind] at hast
    cases hconvert : convertSvValue casts ast.val c.toColMeta with
    | error e =>
      simp only [hconvert] at hast
      cases hast
    | ok rhs =>
      simp only [hconvert, ok_bind] at hast
      obtain rfl := Except.ok.inj hast
      have hcol : col = c.toColMeta := by
        simp only [getCol, columns, List.find?_map, Option.map_eq_some_iff] at hget
        obtain ⟨c', hc', rfl⟩ := hget
        exact congrArg _ (Option.some.inj (hc'.symm.trans hfind))
      exact fun hfloat => hcol ▸ convertSvValue_storedIn (hcol ▸ hfloat) hconvert

theorem FromAnalyzer.fits (hname : tabName ≠ "") (hdb : db.tabs tabName = some ⟨makeCols tabName colDefs 0, indexes⟩)
    (hsame : SameNamed colDefs) {stmt : Stmt} (h : FromAnalyzer casts db tabName (recordSize colDefs) stmt) :
    stmt.Fits (columns tabName colDefs) (recordSize colDefs) := by
  cases h with
  | insert hvalues hbuffer =>
    rw [analyzeInsert_eq hdb] at hvalues
    exact ⟨insertValues_fit (colsFound hdb) (fun c hc => hsame.foundCol hc) hvalues, hbuffer⟩
  | delete => trivial
  | update hclauses => exact setClauses_fit hname hdb hclauses

end

-- ---------------------------------------------------------------------------
-- Runs
-- ---------------------------------------------------------------------------

/-- What one client can do to a table with statements of one kind: they succeed or find a duplicate key, and it
commits. -/
inductive ReachesBy (kind : Stmt → Prop) (s : Session) : Session → Prop where
  | refl : ReachesBy kind s s
  | ok {s₁ s₂ : Session} (stmt : Stmt) :
    ReachesBy kind s s₁ → kind stmt → stmt.FromScan s₁.table → stmt.exec s₁ = .ok () s₂ → ReachesBy kind s s₂
  | notUnique {s₁ s₂ : Session} (stmt : Stmt) :
    ReachesBy kind s s₁ → kind stmt → stmt.FromScan s₁.table → stmt.exec s₁ = .error .indexEntryNotUnique s₂ →
      ReachesBy kind s s₂
  | commit {s₁ : Session} : ReachesBy kind s s₁ → ReachesBy kind s { s₁ with writeSet := [] }

section

variable {kind : Stmt → Prop} {s s' : Session} {size : Nat}

theorem ReachesBy.reaches (h : ReachesBy kind s s') : Reaches s s' := by
  induction h with
  | refl => exact .refl
  | ok stmt _ _ hscan hexec ih => exact .ok stmt ih hscan hexec
  | notUnique stmt _ _ hscan hexec ih => exact .notUnique stmt ih hscan hexec
  | commit _ ih => exact .commit ih

/-- All rows stay records of the table. -/
theorem ReachesBy.rowsOf (hs : s.table.Agrees) (hlayout : Layout s.table.cols size)
    (hkind : ∀ stmt, kind stmt → stmt.Fits s.table.cols size) (hrows : RowsOf s.table.cols size s.table.file.lookup)
    (h : ReachesBy kind s s') : RowsOf s.table.cols size s'.table.file.lookup ∧ s'.table.cols = s.table.cols := by
  have hstep : ∀ {s₁ s₂ : Session} {stmt : Stmt}, ReachesBy kind s s₁ → kind stmt → stmt.FromScan s₁.table →
      stmt.exec s₁ = .ok () s₂ ∨ stmt.exec s₁ = .error .indexEntryNotUnique s₂ →
      RowsOf s.table.cols size s₁.table.file.lookup ∧ s₁.table.cols = s.table.cols →
      RowsOf s.table.cols size s₂.table.file.lookup ∧ s₂.table.cols = s.table.cols := by
    rintro s₁ s₂ stmt hreach hstmt hscan hexec ⟨hrows₁, hcols⟩
    rw [← hcols] at hlayout hrows₁ hkind ⊢
    exact Stmt.exec_rowsOf (hreach.reaches.agrees hs).1 hlayout hrows₁ (hkind stmt hstmt) hscan hexec
  induction h with
  | refl => exact ⟨hrows, rfl⟩
  | ok stmt hreach hstmt hscan hexec ih => exact hstep hreach hstmt hscan (.inl hexec) ih
  | notUnique stmt hreach hstmt hscan hexec ih => exact hstep hreach hstmt hscan (.inr hexec) ih
  | commit _ ih => exact ih

end

section

variable {casts : FloatCasts} {db : Catalog} {tabName : String} {colDefs : List ColDef} {indexes : List (List String)}
  {s s' : Session}

theorem ReachesBy.rowsOf_columns (hname : tabName ≠ "")
    (hdb : db.tabs tabName = some ⟨makeCols tabName colDefs 0, indexes⟩) (hsame : SameNamed colDefs)
    (htyped : ∀ d ∈ colDefs, d.Typed) (hs : s.table.Agrees) (hcols : s.table.cols = columns tabName colDefs)
    (hrows : RowsOf (columns tabName colDefs) (recordSize colDefs) s.table.file.lookup)
    (hreach : ReachesBy (FromAnalyzer casts db tabName (recordSize colDefs)) s s') :
    RowsOf (columns tabName colDefs) (recordSize colDefs) s'.table.file.lookup ∧
      s'.table.cols = columns tabName colDefs := by
  have hlayout := layout_columns tabName htyped
  rw [← hcols] at hrows hlayout ⊢
  exact hreach.rowsOf hs hlayout (fun stmt h => hcols ▸ h.fits hname hdb hsame) hrows

/-- In every run, the columns of a row read as values of theirs, and the bytes of these values are the bytes in the
row, so the keys of two rows in an index compare as the rows do. -/
theorem rows_hold_values (hname : tabName ≠ "") (hdb : db.tabs tabName = some ⟨makeCols tabName colDefs 0, indexes⟩)
    (hsame : SameNamed colDefs) (htyped : ∀ d ∈ colDefs, d.Typed) (hs : s.table.Agrees)
    (hcols : s.table.cols = columns tabName colDefs)
    (hrows : RowsOf (columns tabName colDefs) (recordSize colDefs) s.table.file.lookup)
    (hreach : ReachesBy (FromAnalyzer casts db tabName (recordSize colDefs)) s s') {rid : Rid} {r : RmRecord}
    (hr : s'.table.file.lookup rid = some r) :
    r.length = recordSize colDefs ∧
      (∀ col ∈ columns tabName colDefs, col.type ≠ .float →
        (col.read r).StoredIn col ∧ (col.read r).raw col.len = slice r col.offset col.len) ∧
      ∀ keyCols : List ColMeta, (∀ col ∈ keyCols, col ∈ columns tabName colDefs) → Comparable keyCols →
        ∀ rid' r', s'.table.file.lookup rid' = some r' →
          ixCompareKey keyCols (rowKey keyCols r) (rowKey keyCols r') = some (compareRows keyCols r r') := by
  have hlayout := layout_columns tabName htyped
  obtain ⟨hrows', -⟩ := hreach.rowsOf_columns hname hdb hsame htyped hs hcols hrows
  refine ⟨(hrows' rid r hr).length, fun col hcol hfloat => ?_, fun keyCols hsub hcmp rid' r' hr' => ?_⟩
  · obtain ⟨v, hv, hslice⟩ := written_singleton.mp ((hrows' rid r hr).written col hcol hfloat)
    rw [hv.read (hlayout.typed col hcol).toSized hslice]
    exact ⟨hv, hslice.symm⟩
  · have hkey : ∀ col ∈ keyCols, col ∈ columns tabName colDefs ∧ col.type ≠ .float := by
      refine fun col hcol => ⟨hsub col hcol, fun hfloat => ?_⟩
      rcases hcmp col hcol with htype | htype <;> cases htype.symm.trans hfloat
    exact ixCompareKey_rowKey hcmp (fun col hcol => (hlayout.typed col (hsub col hcol)).toSized)
      ((hrows' rid r hr).of_sub hkey) ((hrows' rid' r' hr').of_sub hkey)

end

namespace InsertExample

theorem defs_sameNamed : SameNamed defs := by
  intro c hc d hd hname
  rcases List.mem_pair.mp hc with rfl | rfl <;> rcases List.mem_pair.mp hd with rfl | rfl <;> simp at hname ⊢

theorem defs_typed : ∀ d ∈ defs, d.Typed := by
  intro d hd
  rcases List.mem_pair.mp hd with rfl | rfl <;> constructor <;> simp

end InsertExample

open InsertExample in
/-- `INSERT INTO t VALUES (5, 'a')`: behind the string is a zero, whatever was in the buffer. -/
theorem rows_hold_values_padded : ∃ s', ReachesBy (FromAnalyzer noFloats catalog "t" 6) session s' ∧
    s'.table.file.lookup ⟨1, 0⟩ = some [5, 0, 0, 0, 97, 0] ∧
    ∀ keyCols : List ColMeta, (∀ col ∈ keyCols, col ∈ columns "t" defs) → Comparable keyCols →
      ixCompareKey keyCols (rowKey keyCols [5, 0, 0, 0, 97, 0]) (rowKey keyCols [5, 0, 0, 0, 97, 0]) =
        some (compareRows keyCols [5, 0, 0, 0, 97, 0] [5, 0, 0, 0, 97, 0]) := by
  have hanalyze : Analyze.analyzeInsert noFloats catalog "t" [five, .string [97] (by decide)] =
    .ok [(.int 5, 4), (.string [97], 2)] := rfl
  have hreach : ∃ s', ReachesBy (FromAnalyzer noFloats catalog "t" 6) session s' ∧
      s'.table.file.lookup ⟨1, 0⟩ = some [5, 0, 0, 0, 97, 0] :=
    ⟨_, .ok (.insert [.int 5, .string [97]] (List.replicate 6 7) true fun _ => true) .refl (.insert hanalyze rfl)
      trivial rfl, rfl⟩
  obtain ⟨s', hreach, hrow⟩ := hreach
  have hagrees : session.table.Agrees :=
    ⟨⟨[], (RmFileHandle.Holds.createFile (by decide)).ok⟩, List.forall_mem_nil _⟩
  obtain ⟨-, -, horder⟩ := rows_hold_values (by decide) rfl defs_sameNamed defs_typed hagrees rfl
    (rowsOf_createFile (by decide)) hreach hrow
  exact ⟨s', hreach, hrow, fun keyCols hsub hcmp => horder keyCols hsub hcmp _ _ hrow⟩

end Rmdb
