-- SUMMARY: Which calls of `SmManager` are atomic, and the runs in which the catalog stays consistent.
import Rmdb.System.Catalog

/-!
# Atomic calls

A call of `SmManager` is atomic if it leaves a consistent state, with an index that holds one entry
for each row of its table if it creates one, or throws and leaves the state as it was. `create_index`
publishes the index first and then creates its file, asks for a lock and builds the tree, so it is
atomic only if none of this throws; and if it does not know a column it keeps the latch of the
catalog, and no later call gets it.
-/

namespace Rmdb

open IxManager SmM Run

namespace SmManager

variable {creatable others : String → Bool} {s : SmManager} {t : String} {tab : TabMeta}
  {colNames : List String}

theorem Inv.path2fd_eq_false {path : String} (h : s.Inv others) (hfile : s.files path = false) :
    s.path2fd path = false := by
  by_contra hopen
  have := h.path2fd path (by simpa using hopen)
  simp [hfile] at this

theorem Inv.ihs_eq_none {path : String} (h : s.Inv others) (hfile : s.files path = false) :
    s.ihs path = none := by
  by_contra hsome
  obtain ⟨o, ⟨ho, -⟩, hpath⟩ := (h.ihs path).mp (Option.isSome_iff_ne_none.mpr hsome)
  exact (h.files.free hfile).2 o ho hpath

-- ---------------------------------------------------------------------------
-- Tables
-- ---------------------------------------------------------------------------

/-- `create_table` adds a table whose file can be created. -/
theorem createTable_new (h : s.Inv others) {colDefs : List ColDef} (htab : s.tabs t = none)
    (hsize : ¬ (recordSize colDefs = 0 ∨ 2048 < recordSize colDefs)) (hfile : s.files t = false)
    (hcreatable : creatable t = true) : createTable creatable t colDefs s =
      .ok () (s.withTable t (makeCols t colDefs 0) (RmFileHandle.createFile (recordSize colDefs))) := by
  have hfd := h.path2fd_eq_false hfile
  have hfhs : s.fhs t = none := by
    have hiff := h.toConsistent.fhs_isSome (t := t)
    simpa [htab] using hiff
  simp [createTable, htab, RmManager.createFile, hsize, SmM.createFile, hfile, hcreatable, openFile,
    hfd, closeFile, wLatch, h.readers, setTable, flushMeta, emplace, hfhs, withTable, withMeta]

/-- `create_table` throws before it changes anything, or adds the table. -/
theorem createTable_run (h : s.Inv others) (colDefs : List ColDef) :
    (∃ e, createTable creatable t colDefs s = .error e s) ∨
      s.files t = false ∧ recordSize colDefs ≤ 2048 ∧ createTable creatable t colDefs s =
        .ok () (s.withTable t (makeCols t colDefs 0) (RmFileHandle.createFile (recordSize colDefs))) := by
  cases htab : s.tabs t with
  | some tab => exact .inl ⟨.tableExists t, by simp [createTable, htab]⟩
  | none =>
    by_cases hsize : recordSize colDefs = 0 ∨ 2048 < recordSize colDefs
    · refine .inl ⟨.invalidRecordSize (recordSize colDefs), ?_⟩
      simp [createTable, htab, RmManager.createFile, hsize]
    · cases hfile : s.files t with
      | true =>
        refine .inl ⟨.fileExists t, ?_⟩
        simp [createTable, htab, RmManager.createFile, hsize, SmM.createFile, hfile]
      | false =>
        cases hcreatable : creatable t with
        | false =>
          -- `open` has failed unnoticed, and `open_file` finds no file.
          refine .inl ⟨.fileNotFound t, ?_⟩
          simp [createTable, htab, RmManager.createFile, hsize, SmM.createFile, hfile, hcreatable,
            openFile, h.path2fd_eq_false hfile]
        | true => exact .inr ⟨rfl, by omega, createTable_new h htab hsize hfile hcreatable⟩

/-- `drop_index` takes an index of the catalog away. -/
theorem dropIndex_mem (h : s.Inv others) (ht : s.tabs t = some tab) (hmem : colNames ∈ tab.indexes) :
    dropIndex t colNames s = .ok () (s.withoutIndex t tab colNames) := by
  have ho : s.Has (.index t colNames) := ⟨tab, ht, hmem⟩
  have hfile : s.files (getIndexName t colNames) = true := h.files.mem ho
  have hihs : s.ihs (getIndexName t colNames) ≠ none := by
    have hsome := (h.ihs _).mpr ⟨.index t colNames, ⟨ho, rfl⟩, rfl⟩
    exact Option.isSome_iff_ne_none.mp hsome
  simp [dropIndex, ht, hfile, wLatch, h.readers, getTable, setTable, flushMeta, hmem, hihs, closeFile,
    destroyFile, withoutIndex, withMeta]

/-- `drop_index` throws and leaves everything as it was, or takes the index away. -/
theorem dropIndex_run (h : s.Inv others) (t : String) (colNames : List String) :
    (∃ e, dropIndex t colNames s = .error e s) ∨
      ∃ tab, s.tabs t = some tab ∧ colNames ∈ tab.indexes ∧
        dropIndex t colNames s = .ok () (s.withoutIndex t tab colNames) := by
  cases htab : s.tabs t with
  | none => exact .inl ⟨.tableNotFound t, by simp [dropIndex, htab]⟩
  | some tab =>
    cases hfile : s.files (getIndexName t colNames) with
    | false => exact .inl ⟨.fileNotFound (getIndexName t colNames), by simp [dropIndex, htab, hfile]⟩
    | true =>
      by_cases hmem : colNames ∈ tab.indexes
      · exact .inr ⟨tab, rfl, hmem, dropIndex_mem h htab hmem⟩
      · -- The catalog and `db.meta` are written, with what they had.
        refine .inl ⟨.indexNotFound t colNames, ?_⟩
        have hsame : Function.update s.tabs t (some { tab with indexes := tab.indexes.erase colNames }) =
            s.tabs := by
          rw [List.erase_of_not_mem hmem, ← htab, Function.update_eq_self]
        obtain ⟨tabs, dbMeta, fhs, ihs, files, path2fd, readers⟩ := s
        obtain rfl : dbMeta = tabs := h.dbMeta
        obtain rfl : readers = 0 := h.readers
        simp only at htab hfile hsame
        simp [dropIndex, htab, hfile, wLatch, getTable, setTable, flushMeta, hmem, hsame]

/-- The loop of `drop_table` takes all indexes of the table away. -/
theorem dropIndexes_run (h : s.Inv others) (ht : s.tabs t = some tab) :
    ∃ s' tab', dropIndexes t tab.indexes s = .ok () s' ∧ s'.Inv others ∧ s'.tabs t = some tab' ∧
      tab'.indexes = [] := by
  induction hl : tab.indexes generalizing s tab with
  | nil => exact ⟨s, tab, rfl, h, ht, hl⟩
  | cons colNames indexes ih =>
    have hmem : colNames ∈ tab.indexes := hl ▸ List.mem_cons_self
    have htabs : (s.withoutIndex t tab colNames).tabs t =
        some { tab with indexes := tab.indexes.erase colNames } := by
      simp [withoutIndex, withMeta]
    obtain ⟨s', tab', hrest, hinv, ht', hnil⟩ := ih (h.withoutIndex ht hmem) htabs (by simp [hl])
    exact ⟨s', tab', by simp [dropIndexes, dropIndex_mem h ht hmem, hrest], hinv, ht', hnil⟩

/-- `drop_table` takes the table and its indexes away, or there is no such table. -/
theorem dropTable_run (h : s.Inv others) (t : String) :
    (∃ e, dropTable t s = .error e s) ∨ ∃ s', dropTable t s = .ok () s' ∧ s'.Inv others := by
  cases htab : s.tabs t with
  | none => exact .inl ⟨.tableNotFound t, by simp [dropTable, getTable, htab]⟩
  | some tab =>
    obtain ⟨s', tab', hloop, hinv, ht', hnil⟩ := dropIndexes_run h htab
    have hfile : s'.files t = true := hinv.files.mem (i := SmObject.table t) (by simp [Has, ht'])
    have hfhs : s'.fhs t ≠ none := by
      have hsome := (hinv.toConsistent.fhs_isSome (t := t)).mpr (by simp [ht'])
      exact Option.isSome_iff_ne_none.mp hsome
    refine .inr ⟨s'.withoutTable t, ?_, hinv.withoutTable ht' hnil⟩
    simp [dropTable, getTable, htab, hloop, ht', wLatch, hinv.readers, setTable, flushMeta, hfhs,
      closeFile, destroyFile, hfile, withoutTable, withMeta]

-- ---------------------------------------------------------------------------
-- The build of an index
-- ---------------------------------------------------------------------------

/-- The columns that the names stand for. -/
def colsOf (tab : TabMeta) (colNames : List String) : Option (List TabColMeta) :=
  colNames.mapM fun colName => tab.cols.find? fun col => col.name = colName

theorem getCols_run {cols : List TabColMeta} (h : colsOf tab colNames = some cols) :
    getCols tab colNames s = .ok cols s := by
  induction colNames generalizing cols with
  | nil =>
    cases h
    rfl
  | cons colName colNames ih =>
    simp only [colsOf, List.mapM_cons, Option.bind_eq_bind, Option.bind_eq_some_iff] at h
    obtain ⟨col, hcol, rest, hrest, heq⟩ := h
    cases heq
    simp [getCols, hcol, ih hrest]

theorem getCols_error (h : colsOf tab colNames = none) : ∃ e, getCols tab colNames s = .error e s := by
  induction colNames with
  | nil => cases h
  | cons colName colNames ih =>
    cases hcol : tab.cols.find? fun col => col.name = colName with
    | none => exact ⟨.columnNotFound colName, by simp [getCols, hcol]⟩
    | some col =>
      have hrest : colsOf tab colNames = none := by
        cases hcols : colsOf tab colNames with
        | none => rfl
        | some cols =>
          rw [colsOf] at h hcols
          simp [List.mapM_cons, hcol, hcols] at h
      obtain ⟨e, he⟩ := ih hrest
      exact ⟨e, by simp [getCols, hcol, he]⟩

/-- A column that is not known ends `create_index` with the latch of the catalog in its hands. -/
theorem createIndex_unknown (htab : s.tabs t = some tab)
    (hfile : s.files (getIndexName t colNames) = false) (hcols : colsOf tab colNames = none)
    (context : IndexContext) :
    ∃ e, createIndex creatable t colNames context s = .error e { s with readers := s.readers + 1 } := by
  obtain ⟨e, he⟩ := @getCols_error { s with readers := s.readers + 1 } tab colNames hcols
  exact ⟨e, by simp [createIndex, htab, hfile, getTable, he]⟩

/-- Without the latch `create_table` never comes back, and has left a file without a table. -/
theorem createTable_blocked {colDefs : List ColDef} (htab : s.tabs t = none)
    (hsize : ¬ (recordSize colDefs = 0 ∨ 2048 < recordSize colDefs)) (hfile : s.files t = false)
    (hcreatable : creatable t = true) (hlatch : s.readers ≠ 0) :
    ∃ s', createTable creatable t colDefs s = .error .blocked s' ∧ s'.files t = true ∧
      s'.tabs t = none := by
  cases hfd : s.path2fd t <;>
    simp [createTable, htab, RmManager.createFile, hsize, SmM.createFile, hfile, hcreatable, openFile,
      hfd, closeFile, wLatch, hlatch]

/-- Nothing of what `create_index` does once the index is published can fail: its file can be
created, its transaction may ask for locks, and any two rows have keys that `ix_compare` finds to be
different. -/
structure Buildable (creatable : String → Bool) (s : SmManager) (t : String) (colNames : List String)
    (context : IndexContext) (cols : List TabColMeta) : Prop where
  file : creatable (getIndexName t colNames) = true
  growing : context.shrinking = false
  keys : ∀ f, s.fhs t = some f → Rows.ToldApart f.lookup (cols.map TabColMeta.toColMeta)

theorem btreeOrder_pos {colTotLen : Nat} (h : colTotLen ≤ 2000) : 1 ≤ btreeOrder colTotLen := by
  have hdiv : 2 ≤ (4096 - 24) / (colTotLen + 8) := by
    rw [Nat.le_div_iff_mul_le (by omega)]
    omega
  unfold btreeOrder
  omega

/-- `create_index` throws before it changes anything, or adds an index that holds the rows. -/
theorem createIndex_run (h : s.Inv others) {context : IndexContext}
    (hcols : ∀ tab, s.tabs t = some tab → s.files (getIndexName t colNames) = false →
      ∃ cols, colsOf tab colNames = some cols ∧
        ((cols.map fun col => col.len).sum ≤ 2000 → Buildable creatable s t colNames context cols)) :
    (∃ e, createIndex creatable t colNames context s = .error e s) ∨
      ∃ tab ix f, s.tabs t = some tab ∧ s.files (getIndexName t colNames) = false ∧
        createIndex creatable t colNames context s = .ok () (s.withIndex t tab colNames ix) ∧
        s.fhs t = some f ∧ ix.HoldsRows f.lookup := by
  cases htab : s.tabs t with
  | none => exact .inl ⟨.tableNotFound t, by simp [createIndex, htab]⟩
  | some tab =>
    cases hfile : s.files (getIndexName t colNames) with
    | true => exact .inl ⟨.indexExists t colNames, by simp [createIndex, htab, hfile]⟩
    | false =>
      obtain ⟨cols, hget, hbuild⟩ := hcols tab htab hfile
      have hgetCols := fun s => @getCols_run s tab colNames cols hget
      by_cases hlen : (cols.map fun col => col.len).sum ≤ 2000
      · obtain ⟨hcreatable, hgrowing, htold⟩ := hbuild hlen
        obtain ⟨f, hf⟩ := Option.isSome_iff_exists.mp
          ((h.toConsistent.fhs_isSome (t := t)).mpr (by simp [htab]))
        obtain ⟨chain, hok⟩ := h.handles t f hf
        have hfd := h.path2fd_eq_false hfile
        have hihs := h.ihs_eq_none hfile
        have hnotLong : ¬ 2000 < (cols.map fun col => col.len).sum := by omega
        obtain ⟨ix, hinit, hix⟩ := initHandle_run hok (btreeOrder_pos hlen) (htold f hf) context
        refine .inr ⟨tab, ix, f, rfl, rfl, ?_, hf, hix⟩
        simp [createIndex, htab, hfile, getTable, hgetCols, hnotLong, wLatch, h.readers, setTable,
          flushMeta, createIndexFile, SmM.createFile, hcreatable, openFile, hfd, closeFile, emplace, hihs,
          hgrowing, hf, buildIndex, hinit, setHandle, withIndex, withMeta]
      · refine .inl ⟨.invalidColLength (cols.map fun col => col.len).sum, ?_⟩
        simp [createIndex, htab, hfile, getTable, hgetCols, hlen]

-- ---------------------------------------------------------------------------
-- Runs
-- ---------------------------------------------------------------------------

/-- The catalog, `db.meta`, the handles and the files are as they were. -/
structure Same (s s' : SmManager) : Prop where
  tabs : s'.tabs = s.tabs
  dbMeta : s'.dbMeta = s.dbMeta
  fhs : s'.fhs = s.fhs
  ihs : s'.ihs = s.ihs
  files : s'.files = s.files

theorem Same.refl (s : SmManager) : Same s s := ⟨rfl, rfl, rfl, rfl, rfl⟩

/-- A database that has just been created and opened, in a directory with these files. -/
def fresh (others : String → Bool) : SmManager where
  tabs _ := none
  dbMeta _ := none
  fhs _ := none
  ihs _ := none
  files := others
  path2fd _ := false
  readers := 0

theorem fresh_inv : (fresh others).Inv others := by
  have hhas : ∀ o, ¬ (fresh others).Has o := by
    rintro (t | ⟨t, colNames⟩) ho
    · cases ho
    · obtain ⟨tab, htab, -⟩ := ho
      cases htab
  refine ⟨⟨rfl, ?_, ?_, ?_, ?_, ?_⟩, ?_, ?_, rfl, ?_⟩
  · exact fun path => iff_of_false (by simp [fresh]) fun ⟨o, ho, _⟩ => hhas o ho.1
  · exact fun path => iff_of_false (by simp [fresh]) fun ⟨o, ho, _⟩ => hhas o ho.1
  · intro path
    exact (or_iff_left fun ⟨o, ho, _⟩ => hhas o ho).symm
  · exact fun o _ ho => absurd ho (hhas o)
  · exact fun o ho => absurd ho (hhas o)
  · rintro t tab ⟨⟩
  · rintro path ⟨⟩
  · rintro t f ⟨⟩

end SmManager

namespace SmCall

/-- An index that the call has created holds one entry for each row of its table. -/
def Built (s : SmManager) : SmCall → Prop
  | createIndex t colNames _ => ∃ ix f, s.ihs (getIndexName t colNames) = some ix ∧
      s.fhs t = some f ∧ ix.HoldsRows f.lookup
  | _ => True

/-- The call returns and leaves a consistent state, or throws and leaves everything as it was. -/
def Atomic (creatable others : String → Bool) (s : SmManager) (call : SmCall) : Prop :=
  match call.exec creatable s with
  | .ok _ s' => s'.Consistent others ∧ call.Built s'
  | .error _ s' => SmManager.Same s s'

/-- A `create_index` that gets past its first two checks knows all columns, and cannot fail after
it has published the index. -/
def Meets (creatable : String → Bool) (s : SmManager) : SmCall → Prop
  | createIndex t colNames context => ∀ tab, s.tabs t = some tab →
      s.files (getIndexName t colNames) = false → ∃ cols, SmManager.colsOf tab colNames = some cols ∧
        ((cols.map fun col => col.len).sum ≤ 2000 →
          SmManager.Buildable creatable s t colNames context cols)
  | _ => True

end SmCall

/-- The states that a fresh database gets to by calls that satisfy `ok`. The statements between the
calls change the records of the tables and the entries of the indexes in any way. -/
inductive SmReaches (creatable : String → Bool) (ok : SmManager → SmCall → Prop)
    (others : String → Bool) : SmManager → Prop where
  | fresh : SmReaches creatable ok others (SmManager.fresh others)
  | returns {s s' : SmManager} {call : SmCall} : SmReaches creatable ok others s → ok s call →
    call.exec creatable s = .ok () s' → SmReaches creatable ok others s'
  | throws {s s' : SmManager} {call : SmCall} {e : SmError} : SmReaches creatable ok others s →
    ok s call → call.exec creatable s = .error e s' → SmReaches creatable ok others s'
  | statements {s : SmManager} {fhs : String → Option RmFileHandle} {ihs : String → Option IxHandle}
      {path2fd : String → Bool} : SmReaches creatable ok others s →
    (∀ t, (fhs t).isSome = (s.fhs t).isSome) → (∀ t f, fhs t = some f → ∃ chain, f.Ok chain) →
    (∀ path, (ihs path).isSome = (s.ihs path).isSome) →
    (∀ path, path2fd path = true → s.files path = true) →
    SmReaches creatable ok others { s with fhs := fhs, ihs := ihs, path2fd := path2fd }

namespace SmManager

variable {creatable others : String → Bool} {s : SmManager}

/-- The step lemma. A call that meets the condition throws and changes nothing, or keeps the
invariant and builds what it has to build. -/
theorem Inv.call (h : s.Inv others) {call : SmCall} (hmeets : call.Meets creatable s) :
    (∃ e, call.exec creatable s = .error e s) ∨
      ∃ s', call.exec creatable s = .ok () s' ∧ s'.Inv others ∧ call.Built s' := by
  cases call with
  | createTable t colDefs =>
    rcases createTable_run h colDefs with herror | ⟨hfile, hsize, hok⟩
    · exact .inl herror
    · have hf := (RmFileHandle.Holds.createFile hsize).ok
      exact .inr ⟨_, hok, h.withTable hfile _ hf, trivial⟩
  | dropTable t =>
    rcases dropTable_run h t with herror | ⟨s', hok, hinv⟩
    · exact .inl herror
    · exact .inr ⟨s', hok, hinv, trivial⟩
  | createIndex t colNames context =>
    rcases createIndex_run h hmeets with herror | ⟨tab, ix, f, ht, hfile, hok, hf, hix⟩
    · exact .inl herror
    · exact .inr ⟨_, hok, h.withIndex ht hfile _, ix, f, Function.update_self _ _ _, hf, hix⟩
  | dropIndex t colNames =>
    rcases dropIndex_run h t colNames with herror | ⟨tab, ht, hmem, hok⟩
    · exact .inl herror
    · exact .inr ⟨_, hok, h.withoutIndex ht hmem, trivial⟩

theorem Inv.statements (h : s.Inv others) {fhs : String → Option RmFileHandle}
    {ihs : String → Option IxHandle} {path2fd : String → Bool}
    (hfhs : ∀ t, (fhs t).isSome = (s.fhs t).isSome)
    (hhandles : ∀ t f, fhs t = some f → ∃ chain, f.Ok chain)
    (hihs : ∀ path, (ihs path).isSome = (s.ihs path).isSome)
    (hpath2fd : ∀ path, path2fd path = true → s.files path = true) :
    Inv others { s with fhs := fhs, ihs := ihs, path2fd := path2fd } := by
  have hhas : ∀ o, Has { s with fhs := fhs, ihs := ihs, path2fd := path2fd } o ↔ s.Has o := by
    rintro (t | ⟨t, colNames⟩) <;> rfl
  refine ⟨⟨h.dbMeta, fun path => ?_, fun path => ?_, h.files.1, h.files.2, h.files.3⟩, h.nodup,
    hpath2fd, h.readers, hhandles⟩
  · rw [hfhs path, h.fhs path]
    exact Iff.rfl
  · rw [hihs path, h.ihs path]
    exact Iff.rfl

/-- The run lemma. -/
theorem Inv.of_reaches (h : SmReaches creatable (SmCall.Meets creatable) others s) :
    s.Inv others := by
  induction h with
  | fresh => exact fresh_inv
  | returns _ hmeets hok ih =>
    rcases ih.call hmeets with ⟨e, herror⟩ | ⟨s', hok', hinv, -⟩
    · cases herror.symm.trans hok
    · cases hok'.symm.trans hok
      exact hinv
  | throws _ hmeets herror ih =>
    rcases ih.call hmeets with ⟨e, herror'⟩ | ⟨s', hok', -, -⟩
    · cases herror'.symm.trans herror
      exact ih
    · cases hok'.symm.trans herror
  | statements _ hfhs hhandles hihs hpath2fd ih => exact ih.statements hfhs hhandles hihs hpath2fd

end SmManager

/-- In every run whose calls all meet the condition, the catalog, `db.meta`, the handles and the
files always describe the same tables and indexes, and every call that meets it is atomic. -/
theorem catalog_consistent (creatable others : String → Bool) {s : SmManager}
    (h : SmReaches creatable (SmCall.Meets creatable) others s) :
    s.Consistent others ∧
      ∀ call : SmCall, call.Meets creatable s → call.Atomic creatable others s := by
  have hinv := SmManager.Inv.of_reaches h
  refine ⟨hinv.toConsistent, fun call hmeets => ?_⟩
  rw [SmCall.Atomic]
  rcases hinv.call hmeets with ⟨e, herror⟩ | ⟨s', hok, hinv', hbuilt⟩
  · rw [herror]
    exact SmManager.Same.refl s
  · rw [hok]
    exact ⟨hinv'.toConsistent, hbuilt⟩

-- ---------------------------------------------------------------------------
-- An index on a table of two rows
-- ---------------------------------------------------------------------------

/-- The files of a database besides those of its tables and indexes. -/
def dbFiles (path : String) : Bool := path = "db.meta" || path = "db.log"

/-- A file of four-byte records with two rows. -/
def twoRowFile (m n : UInt8) : RmFileHandle :=
  ((RmFileHandle.createFile 4).newPage.fillSlot ⟨1, 0⟩ [m, 0, 0, 0]).fillSlot ⟨1, 1⟩ [n, 0, 0, 0]

theorem twoRowFile_holds (m n : UInt8) : ∃ k p chain, (twoRowFile m n).Holds k p chain
    (Function.update (Function.update (fun _ => none) ⟨1, 0⟩ (some [m, 0, 0, 0])) ⟨1, 1⟩
      (some [n, 0, 0, 0])) := by
  have hnew := (RmFileHandle.Holds.createFile (show 4 ≤ 2048 by decide)).newPage
  have hfirst : ((RmFileHandle.createFile 4).newPage.fillSlot ⟨1, 0⟩ [m, 0, 0, 0]).Holds _ _ _ _ :=
    hnew.fillSlot (by decide) rfl (by decide) fun _ => rfl
  have hzero : RmFileHandle.rowsOn (RmFileHandle.createFile 4).numRecordsPerPage (fun _ => none) 1 = 0 := by
    simp [RmFileHandle.rowsOn]
  have hone : RmFileHandle.rowsOn (RmFileHandle.createFile 4).numRecordsPerPage
      (Function.update (fun _ => none) ⟨1, 0⟩ (some [m, 0, 0, 0])) (⟨1, 0⟩ : Rid).pageNo =
      RmFileHandle.rowsOn (RmFileHandle.createFile 4).numRecordsPerPage (fun _ => none)
        (⟨1, 0⟩ : Rid).pageNo + 1 := RmFileHandle.rowsOn_update_some rfl (by decide)
  refine ⟨_, _, _, hfirst.fillSlot ⟨le_refl _, ?_⟩ rfl (by decide) fun hfull => ?_⟩
  · rw [RmFileHandle.fillSlot_numPages]
    decide
  · rw [hone, hzero] at hfull
    cases hfull

/-- The database after `create table t (a int)` and two inserts. -/
def twoRowsTable (m n : UInt8) : SmManager :=
  { (SmManager.fresh dbFiles).withTable "t" [⟨⟨"a", .int, 4, 0⟩, "t"⟩] (RmFileHandle.createFile 4) with
    fhs := Function.update (fun _ => none) "t" (some (twoRowFile m n)) }

theorem reaches_twoRowsTable (m n : UInt8) {ok : SmManager → SmCall → Prop}
    (hok : ∀ s t colDefs, ok s (.createTable t colDefs)) :
    SmReaches (fun _ => true) ok dbFiles (twoRowsTable m n) := by
  have hcreate : SmReaches (fun _ => true) ok dbFiles ((SmManager.fresh dbFiles).withTable "t"
      [⟨⟨"a", .int, 4, 0⟩, "t"⟩] (RmFileHandle.createFile 4)) :=
    .returns .fresh (hok _ "t" [⟨"a", .int, 4⟩])
      (SmManager.createTable_new SmManager.fresh_inv rfl (by decide) (by decide) rfl)
  obtain ⟨k, p, chain, hholds⟩ := twoRowFile_holds m n
  refine .statements hcreate ?_ ?_ (fun _ => rfl) ?_
  · intro t
    by_cases ht : t = "t"
    · simp [ht, SmManager.withTable]
    · simp [ht, SmManager.withTable, SmManager.withMeta, SmManager.fresh]
  · intro t f hf
    by_cases ht : t = "t"
    · rw [ht, Function.update_self, Option.some.injEq] at hf
      exact ⟨chain, hf ▸ hholds.ok⟩
    · simp [ht] at hf
  · exact (SmManager.fresh_inv.withTable (by decide) _
      (RmFileHandle.Holds.createFile (show 4 ≤ 2048 by decide)).ok).path2fd

/-- `create index t (a)` with both rows different. -/
theorem catalog_consistent_index : SmReaches (fun _ => true) (SmCall.Meets fun _ => true) dbFiles
      (twoRowsTable 1 2) ∧
    (twoRowsTable 1 2).Consistent dbFiles ∧
    SmCall.Atomic (fun _ => true) dbFiles (twoRowsTable 1 2)
      (.createIndex "t" ["a"] .growing) := by
  have hreaches := @reaches_twoRowsTable 1 2 (SmCall.Meets fun _ => true) fun _ _ _ => trivial
  have hmeets : SmCall.Meets (fun _ => true) (twoRowsTable 1 2)
      (.createIndex "t" ["a"] .growing) := by
    intro tab htab _
    obtain rfl : tab = ⟨[⟨⟨"a", .int, 4, 0⟩, "t"⟩], []⟩ := (Option.some.inj htab).symm
    refine ⟨[⟨⟨"a", .int, 4, 0⟩, "t"⟩], rfl, fun _ => ⟨rfl, rfl, ?_⟩⟩
    intro f hf
    obtain rfl : f = twoRowFile 1 2 := (Option.some.inj hf).symm
    obtain ⟨k, p, chain, hholds⟩ := twoRowFile_holds 1 2
    have hrow : ∀ rid r, (twoRowFile 1 2).lookup rid = some r →
        (rid = ⟨1, 0⟩ ∧ r = [1, 0, 0, 0]) ∨ (rid = ⟨1, 1⟩ ∧ r = [2, 0, 0, 0]) := by
      intro rid r hr
      rw [hholds.lookup] at hr
      by_cases hsecond : rid = ⟨1, 1⟩
      · rw [hsecond, Function.update_self] at hr
        exact .inr ⟨hsecond, (Option.some.inj hr).symm⟩
      · rw [Function.update_of_ne hsecond] at hr
        by_cases hfirst : rid = ⟨1, 0⟩
        · rw [hfirst, Function.update_self] at hr
          exact .inl ⟨hfirst, (Option.some.inj hr).symm⟩
        · rw [Function.update_of_ne hfirst] at hr
          cases hr
    intro rid rid' r r' hr hr' hne
    rcases hrow rid r hr with ⟨rfl, rfl⟩ | ⟨rfl, rfl⟩ <;>
      rcases hrow rid' r' hr' with ⟨rfl, rfl⟩ | ⟨rfl, rfl⟩
    · exact absurd rfl hne
    · exact ⟨rfl, -1, rfl, by decide⟩
    · exact ⟨rfl, 1, rfl, by decide⟩
    · exact absurd rfl hne
  obtain ⟨hconsistent, hatomic⟩ := catalog_consistent (fun _ => true) dbFiles hreaches
  generalize SmCall.createIndex "t" ["a"] .growing = call at hmeets ⊢
  exact ⟨hreaches, hconsistent, hatomic call hmeets⟩

/-- Two rows with the same key stop the build, and the index stays in the catalog. -/
theorem duplicate_rows_published : SmReaches (fun _ => true) (fun _ _ => True) dbFiles (twoRowsTable 1 1) ∧
    ¬ SmCall.Atomic (fun _ => true) dbFiles (twoRowsTable 1 1)
      (.createIndex "t" ["a"] .growing) := by
  refine ⟨reaches_twoRowsTable 1 1 fun _ _ _ => trivial, fun hatomic => ?_⟩
  have hends : (match (SmCall.createIndex "t" ["a"] .growing).exec (fun _ => true)
      (twoRowsTable 1 1) with
    | .ok _ _ => none
    | .error e s' => some (e, (s'.tabs "t").map TabMeta.indexes)) =
      some (SmError.indexEntryNotUnique, some [["a"]]) := by
    rfl
  rw [SmCall.Atomic] at hatomic
  cases hexec : (SmCall.createIndex "t" ["a"] .growing).exec (fun _ => true)
      (twoRowsTable 1 1) with
  | ok u s' =>
    rw [hexec] at hends
    cases hends
  | error e s' =>
    rw [hexec] at hends hatomic
    rw [Option.some.injEq, Prod.mk.injEq, hatomic.tabs] at hends
    cases hends.2

end Rmdb
