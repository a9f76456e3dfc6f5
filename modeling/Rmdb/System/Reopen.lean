-- SUMMARY: A restart of the server: what opening the database and recovery do to the catalog, the handles and files.
import Rmdb.System.Atomic

/-!
# Restarts

A server that starts opens the database, that is each table and each index in `db.meta`. Then `analyze` drops every
table and creates it again, without its indexes, and the log is redone and undone on the empty tables. The loop at the
end of `undo`, which is to build the indexes again, goes over the new catalog and finds none.

So a restart gets to redo whatever the crash has left in the files of the tables and indexes, with a consistent catalog
of the same tables and columns. All indexes are gone. Redo and undo may throw, for a table that has been dropped since;
if they do not, the restart goes through.
-/

namespace Rmdb

open IxManager SmM Run

-- ---------------------------------------------------------------------------
-- The code
-- ---------------------------------------------------------------------------

/-- What the files of the tables and indexes hold. -/
structure OnDisk where
  table : String → RmFileHandle
  index : String → IxHandle

namespace SmManager

/-- What is left when the process ends: the files and what is in `db.meta`. -/
def crash (s : SmManager) : SmManager where
  tabs _ := none
  dbMeta := s.dbMeta
  fhs _ := none
  ihs _ := none
  files := s.files
  path2fd _ := false
  readers := 0

/-- The inner loop of `open_db`. -/
def openIndexes (disk : OnDisk) (tabName : String) : List (List String) → SmM Unit
  | [] => pure ()
  | colNames :: indexes => do
    let indexName := getIndexName tabName colNames
    openFile indexName
    modify fun s => { s with ihs := emplace s.ihs indexName (disk.index indexName) }
    openIndexes disk tabName indexes

/-- The loop of `open_db` over the tables. -/
def openTables (disk : OnDisk) : List (String × TabMeta) → SmM Unit
  | [] => pure ()
  | (tabName, tab) :: tabs => do
    openFile tabName
    modify fun s => { s with fhs := emplace s.fhs tabName (disk.table tabName) }
    openIndexes disk tabName tab.indexes
    openTables disk tabs

/-- The entries of `db_.tabs_`, whose keys are `names`. -/
def entries (names : List String) (tabs : String → Option TabMeta) : List (String × TabMeta) :=
  names.filterMap fun t => (tabs t).map fun tab => (t, tab)

def openDb (disk : OnDisk) (names : List String) : SmM Unit := do
  modify fun s => { s with tabs := s.dbMeta }
  let s ← get
  openTables disk (entries names s.tabs)

/-- The `col_defs` of `analyze`. -/
def colDefs (tab : TabMeta) : List ColDef := tab.cols.map fun col => ⟨col.name, col.type, col.len⟩

/-- The loop of `analyze` over `tab_metas`. -/
def recreateTables (creatable : String → Bool) : List (String × TabMeta) → SmM Unit
  | [] => pure ()
  | (tabName, tab) :: tabs => do
    dropTable tabName
    createTable creatable tabName (colDefs tab)
    recreateTables creatable tabs

/-- The inner loop at the end of `undo`, which passes no context. -/
def createIndexes (creatable : String → Bool) (tabName : String) : List (List String) → SmM Unit
  | [] => pure ()
  | colNames :: indexes => do
    createIndex creatable tabName colNames .growing
    createIndexes creatable tabName indexes

def recreateIndexes (creatable : String → Bool) : List (String × TabMeta) → SmM Unit
  | [] => pure ()
  | (tabName, tab) :: tabs => do
    createIndexes creatable tabName tab.indexes
    recreateIndexes creatable tabs

/-- What redo and undo make of the records in the tables, and the exception that ended them. -/
abbrev RecordPass := (String → Option RmFileHandle) → (String → Option RmFileHandle) × Option SmError

/-- `open_db`, `analyze`, `redo` and `undo`. -/
def restart (creatable : String → Bool) (disk : OnDisk) (names : List String) (records : RecordPass) : SmM Unit := do
  openDb disk names
  let s ← get
  recreateTables creatable (entries names s.tabs)
  let s ← get
  let (fhs, e) := records s.fhs
  modify fun s => { s with fhs := fhs }
  match e with
  | some e => throw e
  | none => recreateIndexes creatable (entries names s.tabs)

-- ---------------------------------------------------------------------------
-- Opened databases
-- ---------------------------------------------------------------------------

/-- The state with other contents of the tables. -/
def blank (s : SmManager) : SmManager :=
  { s with fhs := fun t => (s.fhs t).map fun _ => RmFileHandle.createFile 1 }

/-- What holds between two calls, whatever the handles of the tables give. -/
def Opened (others : String → Bool) (s : SmManager) : Prop := s.blank.Inv others

variable {creatable others : String → Bool} {s s' : SmManager} {t : String} {tab : TabMeta}
  {colNames : List String}

theorem Opened.consistent (h : s.Opened others) : s.Consistent others := by
  refine ⟨h.dbMeta, fun path => ?_, h.ihs, h.files⟩
  have hiff := h.fhs path
  rwa [show (s.blank.fhs path).isSome = (s.fhs path).isSome from Option.isSome_map] at hiff

theorem Opened.inv (h : s.Opened others) (hhandles : ∀ t f, s.fhs t = some f → ∃ chain, f.Ok chain) :
    s.Inv others :=
  ⟨h.consistent, h.nodup, h.path2fd, h.readers, hhandles⟩

theorem opened (hs : s.Consistent others) (hnodup : ∀ t tab, s.tabs t = some tab → tab.indexes.Nodup)
    (hpath2fd : ∀ path, s.path2fd path = true → s.files path = true) (hreaders : s.readers = 0) :
    s.Opened others := by
  refine ⟨⟨hs.dbMeta, fun path => ?_, hs.ihs, hs.files⟩, hnodup, hpath2fd, hreaders, fun t f hf => ?_⟩
  · rw [show (s.blank.fhs path).isSome = (s.fhs path).isSome from Option.isSome_map]
    exact hs.fhs path
  · obtain ⟨_, -, rfl⟩ := Option.map_eq_some_iff.mp hf
    exact ⟨_, (RmFileHandle.Holds.createFile (by decide)).ok⟩

theorem blank_withTable (cols : List TabColMeta) (f : RmFileHandle) :
    (s.withTable t cols f).blank = s.blank.withTable t cols (RmFileHandle.createFile 1) := by
  simp only [blank, withTable, withMeta, SmManager.mk.injEq, true_and, and_true]
  funext t'
  by_cases heq : t' = t
  · simp [heq]
  · simp [heq]

theorem blank_withoutTable : (s.withoutTable t).blank = s.blank.withoutTable t := by
  simp only [blank, withoutTable, withMeta, SmManager.mk.injEq, true_and, and_true]
  funext t'
  by_cases heq : t' = t
  · simp [heq]
  · simp [heq]

/-- `drop_index` takes an index of the catalog away. -/
theorem Opened.dropIndex (h : s.Opened others) (ht : s.tabs t = some tab) (hmem : colNames ∈ tab.indexes) :
    dropIndex t colNames s = .ok () (s.withoutIndex t tab colNames) ∧
      (s.withoutIndex t tab colNames).Opened others := by
  have ho : s.blank.Has (.index t colNames) := ⟨tab, ht, hmem⟩
  have hfile : s.files (getIndexName t colNames) = true := h.files.mem ho
  have hihs : s.ihs (getIndexName t colNames) ≠ none := by
    have hsome := (h.ihs _).mpr ⟨.index t colNames, ⟨ho, rfl⟩, rfl⟩
    exact Option.isSome_iff_ne_none.mp hsome
  have hreaders : s.readers = 0 := h.readers
  refine ⟨?_, Inv.withoutIndex h ht hmem⟩
  simp [SmManager.dropIndex, ht, hfile, wLatch, hreaders, getTable, setTable, flushMeta, hmem, hihs, closeFile,
    destroyFile, withoutIndex, withMeta]

/-- The loop of `drop_table` takes all indexes of the table away. -/
theorem Opened.dropIndexes (h : s.Opened others) (ht : s.tabs t = some tab) :
    ∃ s', dropIndexes t tab.indexes s = .ok () s' ∧ s'.Opened others ∧
      s'.tabs = Function.update s.tabs t (some ⟨tab.cols, []⟩) ∧ s'.fhs = s.fhs := by
  induction hl : tab.indexes generalizing s tab with
  | nil =>
    refine ⟨s, rfl, h, ?_, rfl⟩
    rw [show (⟨tab.cols, []⟩ : TabMeta) = tab by rw [← hl], ← ht, Function.update_eq_self]
  | cons colNames indexes ih =>
    have hmem : colNames ∈ tab.indexes := hl ▸ List.mem_cons_self
    obtain ⟨hdrop, hopened⟩ := h.dropIndex ht hmem
    have htabs : (s.withoutIndex t tab colNames).tabs t =
        some { tab with indexes := tab.indexes.erase colNames } := Function.update_self _ _ _
    obtain ⟨s', hrest, hopened', htabs', hfhs⟩ := ih hopened htabs (by simp [hl])
    refine ⟨s', by simp [SmManager.dropIndexes, hdrop, hrest], hopened', ?_, hfhs⟩
    rw [htabs']
    exact Function.update_idem _ _ _

/-- `drop_table` takes the table and its indexes away. -/
theorem Opened.dropTable (h : s.Opened others) (ht : s.tabs t = some tab) :
    ∃ s', dropTable t s = .ok () s' ∧ s'.Opened others ∧ s'.tabs = Function.update s.tabs t none ∧
      s'.fhs = Function.update s.fhs t none ∧ s'.files t = false := by
  obtain ⟨s', hloop, hopened, htabs, hfhs⟩ := h.dropIndexes ht
  have ht' : s'.tabs t = some ⟨tab.cols, []⟩ := htabs ▸ Function.update_self _ _ _
  have hfile : s'.files t = true := hopened.files.mem (i := SmObject.table t) (by simp [Has, blank, ht'])
  have hhandle : s'.fhs t ≠ none := by
    have hsome := (hopened.toConsistent.fhs_isSome (t := t)).mpr (by simp [blank, ht'])
    simpa [blank, Option.isSome_iff_ne_none] using hsome
  have hreaders : s'.readers = 0 := hopened.readers
  refine ⟨s'.withoutTable t, ?_, ?_, ?_, ?_, Function.update_self _ _ _⟩
  · simp [SmManager.dropTable, getTable, ht, hloop, ht', wLatch, hreaders, setTable, flushMeta, hhandle, closeFile,
      destroyFile, hfile, withoutTable, withMeta]
  · rw [Opened, blank_withoutTable]
    exact Inv.withoutTable hopened ht' rfl
  · show Function.update s'.tabs t none = _
    rw [htabs]
    exact Function.update_idem _ _ _
  · show Function.update s'.fhs t none = _
    rw [hfhs]

/-- `create_table` adds a table whose file can be created. -/
theorem Opened.createTable (h : s.Opened others) {colDefs : List ColDef} (htab : s.tabs t = none)
    (hsize : ¬ (recordSize colDefs = 0 ∨ 2048 < recordSize colDefs)) (hfile : s.files t = false)
    (hcreatable : creatable t = true) : ∃ s', createTable creatable t colDefs s = .ok () s' ∧ s'.Opened others ∧
      s'.tabs = Function.update s.tabs t (some ⟨makeCols t colDefs 0, []⟩) ∧
      s'.fhs = Function.update s.fhs t (some (RmFileHandle.createFile (recordSize colDefs))) := by
  have hfd : s.path2fd t = false := @Inv.path2fd_eq_false others s.blank t h hfile
  have hhandle : s.fhs t = none := by
    have hiff := h.toConsistent.fhs_isSome (t := t)
    simpa [blank, htab] using hiff
  have hreaders : s.readers = 0 := h.readers
  refine ⟨s.withTable t (makeCols t colDefs 0) (RmFileHandle.createFile (recordSize colDefs)), ?_, ?_, rfl, rfl⟩
  · simp [SmManager.createTable, htab, RmManager.createFile, hsize, SmM.createFile, hfile, hcreatable, openFile,
      hfd, closeFile, wLatch, hreaders, setTable, flushMeta, emplace, hhandle, withTable, withMeta]
  · rw [Opened, blank_withTable]
    exact Inv.withTable h hfile _ (RmFileHandle.Holds.createFile (by decide)).ok

-- ---------------------------------------------------------------------------
-- The tables of `analyze`
-- ---------------------------------------------------------------------------

/-- The table is one that `create_table` makes. -/
def Creatable (creatable : String → Bool) (t : String) (tab : TabMeta) : Prop :=
  creatable t = true ∧ ∃ colDefs, tab.cols = makeCols t colDefs 0 ∧
    ¬ (recordSize colDefs = 0 ∨ 2048 < recordSize colDefs)

theorem colDefs_makeCols (t : String) (defs : List ColDef) (offset : Nat) (indexes : List (List String)) :
    colDefs ⟨makeCols t defs offset, indexes⟩ = defs := by
  induction defs generalizing offset with
  | nil => rfl
  | cons d defs ih =>
    have hrest := ih (offset + d.len)
    simp only [colDefs] at hrest ⊢
    rw [makeCols, List.map_cons, hrest]

theorem Creatable.colDefs (h : Creatable creatable t tab) : tab.cols = makeCols t (colDefs tab) 0 ∧
    ¬ (recordSize (SmManager.colDefs tab) = 0 ∨ 2048 < recordSize (SmManager.colDefs tab)) := by
  obtain ⟨-, defs, hcols, hsize⟩ := h
  obtain ⟨cols, indexes⟩ := tab
  subst hcols
  rw [colDefs_makeCols]
  exact ⟨rfl, hsize⟩

/-- The loop of `analyze` leaves each table with its columns, an empty file and no index. -/
theorem Opened.recreateTables {l : List (String × TabMeta)} (h : s.Opened others) (hnodup : (l.map Prod.fst).Nodup)
    (hl : ∀ x ∈ l, s.tabs x.1 = some x.2 ∧ Creatable creatable x.1 x.2) :
    ∃ s', recreateTables creatable l s = .ok () s' ∧ s'.Opened others ∧
      (∀ x ∈ l, s'.tabs x.1 = some ⟨x.2.cols, []⟩ ∧
        s'.fhs x.1 = some (RmFileHandle.createFile (recordSize (colDefs x.2)))) ∧
      ∀ t ∉ l.map Prod.fst, s'.tabs t = s.tabs t ∧ s'.fhs t = s.fhs t := by
  induction l generalizing s with
  | nil => exact ⟨s, rfl, h, by simp, fun _ _ => ⟨rfl, rfl⟩⟩
  | cons x l ih =>
    obtain ⟨t, tab⟩ := x
    obtain ⟨hnotMem, hnodup⟩ := List.nodup_cons.mp hnodup
    obtain ⟨⟨ht, hcreatable⟩, hl⟩ := List.forall_mem_cons.mp hl
    obtain ⟨hcols, hsize⟩ := hcreatable.colDefs
    obtain ⟨s₁, hdrop, hopened₁, htabs₁, hfhs₁, hfile₁⟩ := h.dropTable ht
    have hnone : s₁.tabs t = none := htabs₁ ▸ Function.update_self _ _ _
    obtain ⟨s₂, hcreate, hopened₂, htabs₂, hfhs₂⟩ := hopened₁.createTable hnone hsize hfile₁ hcreatable.1
    rw [htabs₁, Function.update_idem, ← hcols] at htabs₂
    rw [hfhs₁, Function.update_idem] at hfhs₂
    have hother : ∀ t', t' ≠ t → s₂.tabs t' = s.tabs t' ∧ s₂.fhs t' = s.fhs t' := by
      intro t' hne
      rw [htabs₂, hfhs₂, Function.update_of_ne hne, Function.update_of_ne hne]
      exact ⟨rfl, rfl⟩
    have hl₂ : ∀ x ∈ l, s₂.tabs x.1 = some x.2 ∧ Creatable creatable x.1 x.2 := by
      intro x hx
      have hne : x.1 ≠ t := by
        rintro rfl
        exact hnotMem (List.mem_map.mpr ⟨x, hx, rfl⟩)
      exact ⟨(hother x.1 hne).1.trans (hl x hx).1, (hl x hx).2⟩
    obtain ⟨s', hrest, hopened, hdone, hkept⟩ := ih hopened₂ hnodup hl₂
    refine ⟨s', by simp [SmManager.recreateTables, hdrop, hcreate, hrest], hopened, ?_, fun t' ht' => ?_⟩
    · refine List.forall_mem_cons.mpr ⟨?_, hdone⟩
      obtain ⟨htabs, hfhs⟩ := hkept t hnotMem
      rw [htabs, hfhs, htabs₂, hfhs₂, Function.update_self, Function.update_self]
      exact ⟨rfl, rfl⟩
    · rw [List.map_cons, List.mem_cons, not_or] at ht'
      obtain ⟨htabs, hfhs⟩ := hkept t' ht'.2
      rw [htabs, hfhs]
      exact hother t' ht'.1

/-- Tables without indexes have none to build again. -/
theorem recreateIndexes_nil {l : List (String × TabMeta)} (hl : ∀ x ∈ l, x.2.indexes = []) (s : SmManager) :
    recreateIndexes creatable l s = .ok () s := by
  induction l with
  | nil => rfl
  | cons x l ih =>
    obtain ⟨hx, hl⟩ := List.forall_mem_cons.mp hl
    simp [recreateIndexes, hx, createIndexes, ih hl]

-- ---------------------------------------------------------------------------
-- `open_db`
-- ---------------------------------------------------------------------------

theorem openFile_run {path : String} (hfile : s.files path = true) :
    openFile path s = .ok () { s with path2fd := Function.update s.path2fd path true } := by
  cases hfd : s.path2fd path with
  | true =>
    rw [show Function.update s.path2fd path true = s.path2fd by rw [← hfd, Function.update_eq_self]]
    simp [openFile, hfd]
  | false => simp [openFile, hfd, hfile]

theorem path2fd_opened {path : String} (hfile : s.files path = true)
    (hpath2fd : ∀ p, s.path2fd p = true → s.files p = true) (p : String) :
    Function.update s.path2fd path true p = true → s.files p = true := by
  intro hp
  by_cases heq : p = path
  · exact heq ▸ hfile
  · exact hpath2fd p (by rwa [Function.update_of_ne heq] at hp)

theorem emplace_isSome {α : Type} (m : String → Option α) (key : String) (a : α) (p : String) :
    (emplace m key a p).isSome ↔ (m p).isSome ∨ p = key := by
  unfold emplace
  split
  · rename_i hkey
    exact ⟨.inl, fun h => h.elim id fun heq => heq ▸ hkey⟩
  · by_cases heq : p = key
    · simp [heq]
    · simp [heq]

theorem openIndexes_run {disk : OnDisk} {indexes : List (List String)}
    (hfiles : ∀ colNames ∈ indexes, s.files (getIndexName t colNames) = true)
    (hpath2fd : ∀ p, s.path2fd p = true → s.files p = true) : ∃ ihs path2fd,
    openIndexes disk t indexes s = .ok () { s with ihs := ihs, path2fd := path2fd } ∧
      (∀ p, (ihs p).isSome ↔ (s.ihs p).isSome ∨ ∃ colNames ∈ indexes, p = getIndexName t colNames) ∧
      ∀ p, path2fd p = true → s.files p = true := by
  induction indexes generalizing s with
  | nil => exact ⟨s.ihs, s.path2fd, rfl, by simp, hpath2fd⟩
  | cons colNames indexes ih =>
    obtain ⟨hfile, hfiles⟩ := List.forall_mem_cons.mp hfiles
    obtain ⟨ihs, path2fd, hrest, hihs, hopen⟩ := @ih
      { s with
        path2fd := Function.update s.path2fd (getIndexName t colNames) true
        ihs := emplace s.ihs (getIndexName t colNames) (disk.index (getIndexName t colNames)) }
      hfiles (path2fd_opened hfile hpath2fd)
    refine ⟨ihs, path2fd, by simp [openIndexes, openFile_run hfile, hrest], fun p => ?_, hopen⟩
    rw [hihs, emplace_isSome, List.exists_mem_cons_iff, or_assoc]

theorem openTables_run {disk : OnDisk} {l : List (String × TabMeta)}
    (hfiles : ∀ x ∈ l, s.files x.1 = true ∧ ∀ colNames ∈ x.2.indexes, s.files (getIndexName x.1 colNames) = true)
    (hpath2fd : ∀ p, s.path2fd p = true → s.files p = true) : ∃ fhs ihs path2fd,
    openTables disk l s = .ok () { s with fhs := fhs, ihs := ihs, path2fd := path2fd } ∧
      (∀ p, (fhs p).isSome ↔ (s.fhs p).isSome ∨ ∃ x ∈ l, p = x.1) ∧
      (∀ p, (ihs p).isSome ↔ (s.ihs p).isSome ∨ ∃ x ∈ l, ∃ colNames ∈ x.2.indexes, p = getIndexName x.1 colNames) ∧
      ∀ p, path2fd p = true → s.files p = true := by
  induction l generalizing s with
  | nil => exact ⟨s.fhs, s.ihs, s.path2fd, rfl, by simp, by simp, hpath2fd⟩
  | cons x l ih =>
    obtain ⟨t, tab⟩ := x
    obtain ⟨⟨hfile, hindexes⟩, hfiles⟩ := List.forall_mem_cons.mp hfiles
    obtain ⟨ihs₁, path2fd₁, hopen₁, hihs₁, hpath2fd₁⟩ := @openIndexes_run
      { s with
        path2fd := Function.update s.path2fd t true
        fhs := emplace s.fhs t (disk.table t) }
      t disk tab.indexes hindexes (path2fd_opened hfile hpath2fd)
    obtain ⟨fhs, ihs, path2fd, hrest, hfhs, hihs, hopen⟩ := @ih
      { s with path2fd := path2fd₁, fhs := emplace s.fhs t (disk.table t), ihs := ihs₁ } hfiles hpath2fd₁
    refine ⟨fhs, ihs, path2fd, by simp [openTables, openFile_run hfile, hopen₁, hrest], fun p => ?_, fun p => ?_, hopen⟩
    · rw [hfhs, emplace_isSome, List.exists_mem_cons_iff, or_assoc]
    · rw [hihs, hihs₁, List.exists_mem_cons_iff, or_assoc]

theorem mem_entries {names : List String} {tabs : String → Option TabMeta} {x : String × TabMeta} :
    x ∈ entries names tabs ↔ x.1 ∈ names ∧ tabs x.1 = some x.2 := by
  obtain ⟨t, tab⟩ := x
  simp only [entries, List.mem_filterMap, Option.map_eq_some_iff, Prod.mk.injEq]
  constructor
  · rintro ⟨t, ht, tab, htab, rfl, rfl⟩
    exact ⟨ht, htab⟩
  · exact fun ⟨ht, htab⟩ => ⟨t, ht, tab, htab, rfl, rfl⟩

theorem entries_nodup {names : List String} (h : names.Nodup) (tabs : String → Option TabMeta) :
    ((entries names tabs).map Prod.fst).Nodup := by
  induction names with
  | nil => exact List.nodup_nil
  | cons t names ih =>
    obtain ⟨hnotMem, hnodup⟩ := List.nodup_cons.mp h
    cases htab : tabs t with
    | none => simpa [entries, htab] using ih hnodup
    | some tab =>
      have hcons : entries (t :: names) tabs = (t, tab) :: entries names tabs := by simp [entries, htab]
      rw [hcons, List.map_cons, List.nodup_cons]
      refine ⟨fun hmem => hnotMem ?_, ih hnodup⟩
      obtain ⟨x, hx, heq⟩ := List.mem_map.mp hmem
      obtain rfl : x.1 = t := heq
      exact (mem_entries.mp hx).1

/-- `open_db` gives back the catalog of the process that ended. -/
theorem Inv.openDb (disk : OnDisk) {names : List String} (h : s.Inv others)
    (hnames : ∀ t, t ∈ names ↔ (s.dbMeta t).isSome) :
    ∃ s', openDb disk names s.crash = .ok () s' ∧ s'.Opened others ∧ s'.tabs = s.tabs := by
  have hmem : ∀ x, x ∈ entries names s.dbMeta ↔ s.tabs x.1 = some x.2 := by
    intro x
    rw [mem_entries, hnames, h.dbMeta]
    exact and_iff_right_of_imp fun htab => by simp [htab]
  obtain ⟨fhs, ihs, path2fd, hrun, hfhs, hihs, hpath2fd⟩ := @openTables_run { s.crash with tabs := s.dbMeta } disk
    (entries names s.dbMeta)
    (fun x hx => ⟨h.files.mem (i := SmObject.table x.1) (by simp [Has, (hmem x).mp hx]),
      fun colNames hcolNames => h.files.mem (i := SmObject.index x.1 colNames) ⟨x.2, (hmem x).mp hx, hcolNames⟩⟩)
    (by simp [crash])
  have hhas : ∀ o, Has { s.crash with tabs := s.dbMeta, fhs := fhs, ihs := ihs, path2fd := path2fd } o ↔ s.Has o := by
    rintro (t | ⟨t, colNames⟩) <;> simp [Has, h.dbMeta]
  refine ⟨{ s.crash with tabs := s.dbMeta, fhs := fhs, ihs := ihs, path2fd := path2fd }, ?_, ?_, h.dbMeta⟩
  · simpa [SmManager.openDb, crash] using hrun
  refine opened ⟨rfl, fun path => ?_, fun path => ?_, ?_⟩ ?_ hpath2fd rfl
  · rw [hfhs]
    constructor
    · rintro (hnone | ⟨x, hx, rfl⟩)
      · cases hnone
      · exact ⟨.table x.1, ⟨(hhas _).mpr (by simp [Has, (hmem x).mp hx]), rfl⟩, rfl⟩
    · rintro ⟨o, ⟨ho, htable⟩, rfl⟩
      cases o with
      | table t =>
        obtain ⟨tab, htab⟩ := Option.isSome_iff_exists.mp ((hhas (.table t)).mp ho)
        exact .inr ⟨(t, tab), (hmem (t, tab)).mpr htab, rfl⟩
      | index t colNames => cases htable
  · rw [hihs]
    constructor
    · rintro (hnone | ⟨x, hx, colNames, hcolNames, rfl⟩)
      · cases hnone
      · exact ⟨.index x.1 colNames, ⟨(hhas _).mpr ⟨x.2, (hmem x).mp hx, hcolNames⟩, rfl⟩, rfl⟩
    · rintro ⟨o, ⟨ho, htable⟩, rfl⟩
      cases o with
      | table t => cases htable
      | index t colNames =>
        obtain ⟨tab, htab, hcolNames⟩ := (hhas (.index t colNames)).mp ho
        exact .inr ⟨(t, tab), (hmem (t, tab)).mpr htab, colNames, hcolNames, rfl⟩
  · rw [show Has { s.crash with tabs := s.dbMeta, fhs := fhs, ihs := ihs, path2fd := path2fd } = s.Has from
      funext fun o => propext (hhas o)]
    exact h.files
  · intro t tab ht
    exact h.nodup t tab (h.dbMeta ▸ ht)

-- ---------------------------------------------------------------------------
-- Restarts
-- ---------------------------------------------------------------------------

/-- Every table is one that `create_table` makes. -/
def Made (creatable : String → Bool) (s : SmManager) : Prop :=
  ∀ t tab, s.tabs t = some tab → Creatable creatable t tab

/-- The tables of the catalog, without rows. -/
def emptied (s : SmManager) (t : String) : Option RmFileHandle :=
  (s.tabs t).map fun tab => RmFileHandle.createFile (recordSize (colDefs tab))

/-- Other records in the tables leave everything else as it is. -/
theorem Opened.records (h : s.Opened others) {fhs : String → Option RmFileHandle}
    (hfhs : ∀ t, (fhs t).isSome = (s.fhs t).isSome) : Opened others { s with fhs := fhs } := by
  refine @Inv.statements others s.blank h (fun t => (fhs t).map fun _ => RmFileHandle.createFile 1) _ _
    (fun t => ?_) (fun t f hf => ?_) (fun _ => rfl) h.path2fd
  · show ((fhs t).map _).isSome = ((s.fhs t).map _).isSome
    rw [Option.isSome_map, Option.isSome_map, hfhs]
  · obtain ⟨_, -, rfl⟩ := Option.map_eq_some_iff.mp hf
    exact ⟨_, (RmFileHandle.Holds.createFile (by decide)).ok⟩

/-- A start that goes through, or that redo or undo has ended. -/
def ended (e : Option SmError) (s : SmManager) : EStateM.Result SmError SmManager Unit :=
  match e with
  | none => .ok () s
  | some e => .error e s

/-- A restart keeps the tables and their columns, and drops every index. -/
theorem Inv.restart (disk : OnDisk) {names : List String} {records : RecordPass} (h : s.Inv others)
    (hmade : s.Made creatable) (hnodup : names.Nodup) (hnames : ∀ t, t ∈ names ↔ (s.dbMeta t).isSome)
    (hrecords : ∀ fhs t, ((records fhs).1 t).isSome = (fhs t).isSome) :
    ∃ s', restart creatable disk names records s.crash = ended (records s.emptied).2 s' ∧ s'.Opened others ∧
      (∀ t, s'.tabs t = (s.tabs t).map fun tab => ⟨tab.cols, []⟩) ∧ s'.fhs = (records s.emptied).1 := by
  obtain ⟨s₁, hopen, hopened₁, htabs₁⟩ := h.openDb disk hnames
  have hmem : ∀ x, x ∈ entries names s₁.tabs ↔ s.tabs x.1 = some x.2 := by
    intro x
    rw [mem_entries, htabs₁, hnames, h.dbMeta]
    exact and_iff_right_of_imp fun htab => by simp [htab]
  obtain ⟨s₂, hrecreate, hopened₂, hdone, hkept⟩ := @Opened.recreateTables creatable others s₁
    (entries names s₁.tabs) hopened₁ (entries_nodup hnodup s₁.tabs)
    fun x hx => ⟨htabs₁ ▸ (hmem x).mp hx, hmade x.1 x.2 ((hmem x).mp hx)⟩
  have htabs₂ : ∀ t, s₂.tabs t = (s.tabs t).map (fun tab => ⟨tab.cols, []⟩) ∧ s₂.fhs t = s.emptied t := by
    intro t
    cases htab : s.tabs t with
    | some tab =>
      obtain ⟨htabs, hfhs⟩ := hdone (t, tab) ((hmem (t, tab)).mpr htab)
      exact ⟨htabs, by simp [hfhs, emptied, htab]⟩
    | none =>
      have hnotMem : t ∉ (entries names s₁.tabs).map Prod.fst := by
        intro ht
        obtain ⟨x, hx, rfl⟩ := List.mem_map.mp ht
        cases htab.symm.trans ((hmem x).mp hx)
      obtain ⟨htabs, hfhs⟩ := hkept t hnotMem
      have hnone : s₁.fhs t = none := by
        have hiff := hopened₁.consistent.fhs_isSome (t := t)
        simpa [htabs₁, htab] using hiff
      exact ⟨by simp [htabs, htabs₁, htab], by simp [hfhs, hnone, emptied, htab]⟩
  have hfhs₂ : s₂.fhs = s.emptied := funext fun t => (htabs₂ t).2
  -- The catalog that `undo` goes over has the tables of `analyze`.
  have hnil : ∀ x ∈ entries names s₂.tabs, x.2.indexes = [] := by
    intro x hx
    have htab := (mem_entries.mp hx).2
    rw [(htabs₂ x.1).1] at htab
    obtain ⟨_, -, heq⟩ := Option.map_eq_some_iff.mp htab
    rw [← heq]
  refine ⟨{ s₂ with fhs := (records s₂.fhs).1 }, ?_, hopened₂.records (hrecords s₂.fhs), fun t => (htabs₂ t).1, ?_⟩
  · rw [← hfhs₂]
    cases he : (records s₂.fhs).2 with
    | none => simp [SmManager.restart, hopen, hrecreate, he, ended, recreateIndexes_nil hnil]
    | some e => simp [SmManager.restart, hopen, hrecreate, he, ended]
  · rw [← hfhs₂]

theorem ended_state {e e' : Option SmError} (h : ended e s = ended e' s') : s = s' := by
  cases e with
  | none =>
    cases e' with
    | none =>
      cases h
      rfl
    | some e' => cases h
  | some e =>
    cases e' with
    | none => cases h
    | some e' =>
      cases h
      rfl

theorem Opened.ihs_eq_none (h : s.Opened others) (hnil : ∀ t tab, s.tabs t = some tab → tab.indexes = [])
    (path : String) : s.ihs path = none := by
  have hiff := h.ihs path
  by_contra hsome
  obtain ⟨o, ⟨ho, htable⟩, -⟩ := hiff.mp (Option.isSome_iff_ne_none.mpr hsome)
  cases o with
  | table t => cases htable
  | index t colNames =>
    obtain ⟨tab, htab, hmem⟩ := ho
    rw [hnil t tab htab] at hmem
    cases hmem

theorem Made.update (h : s.Made creatable) {tab? : Option TabMeta}
    (htabs : s'.tabs = Function.update s.tabs t tab?) (htab : ∀ tab, tab? = some tab → Creatable creatable t tab) :
    s'.Made creatable := by
  intro t' tab' ht'
  rw [htabs] at ht'
  by_cases heq : t' = t
  · subst heq
    rw [Function.update_self] at ht'
    exact htab tab' ht'
  · rw [Function.update_of_ne heq] at ht'
    exact h t' tab' ht'

/-- What `create_table` makes could be made. -/
theorem createTable_creatable (h : s.Inv others) {colDefs : List ColDef}
    (hok : createTable creatable t colDefs s = .ok () s') :
    creatable t = true ∧ ¬ (recordSize colDefs = 0 ∨ 2048 < recordSize colDefs) := by
  cases htab : s.tabs t with
  | some tab => simp [createTable, htab] at hok
  | none =>
    by_cases hsize : recordSize colDefs = 0 ∨ 2048 < recordSize colDefs
    · simp [createTable, htab, RmManager.createFile, hsize] at hok
    · refine ⟨?_, hsize⟩
      by_contra hnot
      cases hfile : s.files t with
      | true => simp [createTable, htab, RmManager.createFile, hsize, SmM.createFile, hfile] at hok
      | false =>
        simp [createTable, htab, RmManager.createFile, hsize, SmM.createFile, hfile, hnot, openFile,
          h.path2fd_eq_false hfile] at hok

theorem Made.call (hmade : s.Made creatable) (h : s.Inv others) {call : SmCall} (hmeets : call.Meets creatable s)
    (hok : call.exec creatable s = .ok () s') : s'.Made creatable := by
  cases call with
  | createTable t colDefs =>
    rcases @createTable_run creatable others s t h colDefs with ⟨e, herror⟩ | ⟨-, -, hok'⟩
    · cases herror.symm.trans hok
    · obtain ⟨hcreatable, hsize⟩ := createTable_creatable h hok
      cases hok'.symm.trans hok
      refine hmade.update rfl ?_
      rintro _ ⟨⟩
      exact ⟨hcreatable, colDefs, rfl, hsize⟩
  | dropTable t =>
    cases htab : s.tabs t with
    | none => simp [SmCall.exec, SmManager.dropTable, getTable, htab] at hok
    | some tab =>
      obtain ⟨s₁, hok', -, htabs, -⟩ := (opened h.toConsistent h.nodup h.path2fd h.readers).dropTable htab
      cases hok'.symm.trans hok
      exact hmade.update htabs (by rintro _ ⟨⟩)
  | createIndex t colNames context =>
    rcases createIndex_run h hmeets with ⟨e, herror⟩ | ⟨tab, ix, f, ht, -, hok', -⟩
    · cases herror.symm.trans hok
    · cases hok'.symm.trans hok
      refine hmade.update rfl ?_
      rintro _ ⟨⟩
      exact hmade t tab ht
  | dropIndex t colNames =>
    rcases dropIndex_run h t colNames with ⟨e, herror⟩ | ⟨tab, ht, -, hok'⟩
    · cases herror.symm.trans hok
    · cases hok'.symm.trans hok
      refine hmade.update rfl ?_
      rintro _ ⟨⟩
      exact hmade t tab ht

end SmManager

/-- The states that a fresh database gets to by calls that satisfy `ok`, by statements as in `SmReaches`, and by
processes that end between two calls and are started again, more than once if redo or undo ends the start. They are to
leave the files of the tables in order, in whatever way they change the records. -/
inductive SmRestarts (creatable : String → Bool) (ok : SmManager → SmCall → Prop) (others : String → Bool) :
    SmManager → Prop where
  | fresh : SmRestarts creatable ok others (SmManager.fresh others)
  | returns {s s' : SmManager} {call : SmCall} : SmRestarts creatable ok others s → ok s call →
    call.exec creatable s = .ok () s' → SmRestarts creatable ok others s'
  | throws {s s' : SmManager} {call : SmCall} {e : SmError} : SmRestarts creatable ok others s → ok s call →
    call.exec creatable s = .error e s' → SmRestarts creatable ok others s'
  | statements {s : SmManager} {fhs : String → Option RmFileHandle} {ihs : String → Option IxHandle}
      {path2fd : String → Bool} : SmRestarts creatable ok others s →
    (∀ t, (fhs t).isSome = (s.fhs t).isSome) → (∀ t f, fhs t = some f → ∃ chain, f.Ok chain) →
    (∀ path, (ihs path).isSome = (s.ihs path).isSome) →
    (∀ path, path2fd path = true → s.files path = true) →
    SmRestarts creatable ok others { s with fhs := fhs, ihs := ihs, path2fd := path2fd }
  | restarts {s s' : SmManager} {disk : OnDisk} {names : List String} {records : SmManager.RecordPass}
      {e : Option SmError} :
    SmRestarts creatable ok others s → names.Nodup → (∀ t, t ∈ names ↔ (s.dbMeta t).isSome) →
    (∀ fhs t, ((records fhs).1 t).isSome = (fhs t).isSome) →
    SmManager.restart creatable disk names records s.crash = SmManager.ended e s' →
    (∀ t f, s'.fhs t = some f → ∃ chain, f.Ok chain) → SmRestarts creatable ok others s'

namespace SmManager

variable {creatable others : String → Bool} {s : SmManager}

/-- The run lemma. -/
theorem Inv.of_restarts (h : SmRestarts creatable (SmCall.Meets creatable) others s) :
    s.Inv others ∧ s.Made creatable := by
  induction h with
  | fresh => exact ⟨fresh_inv, fun t tab ht => by cases ht⟩
  | returns _ hmeets hok ih =>
    obtain ⟨hinv, hmade⟩ := ih
    refine ⟨?_, hmade.call hinv hmeets hok⟩
    rcases hinv.call hmeets with ⟨e, herror⟩ | ⟨s', hok', hinv', -⟩
    · cases herror.symm.trans hok
    · cases hok'.symm.trans hok
      exact hinv'
  | throws _ hmeets herror ih =>
    rcases ih.1.call hmeets with ⟨e, herror'⟩ | ⟨s', hok', -, -⟩
    · cases herror'.symm.trans herror
      exact ih
    · cases hok'.symm.trans herror
  | statements _ hfhs hhandles hihs hpath2fd ih => exact ⟨ih.1.statements hfhs hhandles hihs hpath2fd, ih.2⟩
  | restarts _ hnodup hnames hrecords hrun hhandles ih =>
    obtain ⟨hinv, hmade⟩ := ih
    obtain ⟨s', hrun', hopened, htabs, -⟩ := hinv.restart _ hmade hnodup hnames hrecords
    obtain rfl := ended_state (hrun'.symm.trans hrun)
    refine ⟨hopened.inv hhandles, fun t tab ht => ?_⟩
    rw [htabs] at ht
    obtain ⟨tab, htab, rfl⟩ := Option.map_eq_some_iff.mp ht
    exact hmade t tab htab

end SmManager

end Rmdb
