-- SUMMARY: Catalogs that agree with `db.meta`, the handles and the files, and the four changes that keep them so.
import Rmdb.Lib.Registry
import Rmdb.System.InitTree

/-!
# Consistent catalogs

A state is consistent if the catalog, `db.meta`, the two handle maps and the files describe the
same tables and indexes. A call that does what it is meant to do makes one of four changes: a table
without indexes comes or goes, or an index comes or goes.
-/

namespace Rmdb

open IxManager

/-- A table or an index. -/
inductive SmObject where
  | table (tabName : String)
  | index (tabName : String) (colNames : List String)

namespace SmObject

/-- The name of its file. -/
def path : SmObject → String
  | table tabName => tabName
  | index tabName colNames => getIndexName tabName colNames

def isTable : SmObject → Bool
  | table _ => true
  | index _ _ => false

end SmObject

namespace SmManager

/-- The catalog has this table or index. -/
def Has (s : SmManager) : SmObject → Prop
  | .table t => (s.tabs t).isSome
  | .index t colNames => ∃ tab, s.tabs t = some tab ∧ colNames ∈ tab.indexes

/-- The catalog, `db.meta`, the handles and the files describe the same tables and indexes. Each of
them has a file of its own; the directory has `others` besides. -/
structure Consistent (others : String → Bool) (s : SmManager) : Prop where
  dbMeta : s.dbMeta = s.tabs
  fhs : Keyed SmObject.path (fun o => s.Has o ∧ o.isTable = true) s.fhs
  ihs : Keyed SmObject.path (fun o => s.Has o ∧ o.isTable = false) s.ihs
  files : Registered SmObject.path s.Has others s.files

/-- What holds between two calls. -/
structure Inv (others : String → Bool) (s : SmManager) : Prop extends Consistent others s where
  nodup : ∀ t tab, s.tabs t = some tab → tab.indexes.Nodup
  path2fd : ∀ path, s.path2fd path = true → s.files path = true
  readers : s.readers = 0
  handles : ∀ t f, s.fhs t = some f → ∃ chain, f.Ok chain

variable {others : String → Bool} {s s' : SmManager} {t : String} {tab : TabMeta}
  {colNames : List String}

theorem Consistent.fhs_isSome (h : s.Consistent others) :
    (s.fhs t).isSome ↔ (s.tabs t).isSome := by
  rw [h.fhs t]
  constructor
  · rintro ⟨o, ⟨ho, htable⟩, hpath⟩
    cases o with
    | table t' => exact hpath ▸ ho
    | index t' colNames' => cases htable
  · exact fun ht => ⟨.table t, ⟨ht, rfl⟩, rfl⟩

/-- Of one kind of objects there are as many as before. -/
theorem keyed_congr {α : Type} {m : String → Option α} {o : SmObject} {b : Bool}
    (h : Keyed SmObject.path (fun o => s.Has o ∧ o.isTable = b) m) (ho : o.isTable ≠ b)
    (hhas : ∀ o', o' ≠ o → (s'.Has o' ↔ s.Has o')) :
    Keyed SmObject.path (fun o => s'.Has o ∧ o.isTable = b) m := by
  intro path
  rw [h path]
  refine exists_congr fun o' => and_congr_left fun _ => and_congr_left fun hb => ?_
  exact (hhas o' fun heq => ho (heq ▸ hb)).symm

theorem keyed_insert {α : Type} {m : String → Option α} {o : SmObject}
    (h : Keyed SmObject.path (fun o' => s.Has o' ∧ o'.isTable = o.isTable) m)
    (hhas : ∀ o', s'.Has o' ↔ s.Has o' ∨ o' = o) (a : α) :
    Keyed SmObject.path (fun o' => s'.Has o' ∧ o'.isTable = o.isTable)
      (Function.update m o.path (some a)) := by
  refine h.insert (fun o' => ?_) a
  rw [hhas o']
  constructor
  · rintro ⟨ho' | rfl, hb⟩
    · exact .inl ⟨ho', hb⟩
    · exact .inr rfl
  · rintro (⟨ho', hb⟩ | rfl)
    · exact ⟨.inl ho', hb⟩
    · exact ⟨.inr rfl, rfl⟩

theorem keyed_erase {α : Type} {m : String → Option α} {o : SmObject} (hs : s.Consistent others)
    (h : Keyed SmObject.path (fun o' => s.Has o' ∧ o'.isTable = o.isTable) m) (ho : s.Has o)
    (hhas : ∀ o', s'.Has o' ↔ s.Has o' ∧ o' ≠ o) :
    Keyed SmObject.path (fun o' => s'.Has o' ∧ o'.isTable = o.isTable)
      (Function.update m o.path none) := by
  refine h.erase (fun o' ho' hpath => hs.files.inj o' o ho'.1 ho hpath) (fun o' => ?_)
  rw [hhas o']
  exact and_right_comm

theorem path2fd_insert {path : String} (h : ∀ p, s.path2fd p = true → s.files p = true) (p : String) :
    Function.update s.path2fd path true p = true → Function.update s.files path true p = true := by
  by_cases hp : p = path
  · simp [hp]
  · simpa [hp] using h p

theorem path2fd_erase {path : String} (h : ∀ p, s.path2fd p = true → s.files p = true) (p : String) :
    Function.update s.path2fd path false p = true → Function.update s.files path false p = true := by
  by_cases hp : p = path
  · simp [hp]
  · simpa [hp] using h p

-- ---------------------------------------------------------------------------
-- The four changes
-- ---------------------------------------------------------------------------

/-- The state with another entry for table `t` in the catalog and in `db.meta`. -/
def withMeta (s : SmManager) (t : String) (tab : Option TabMeta) : SmManager :=
  { s with tabs := Function.update s.tabs t tab, dbMeta := Function.update s.tabs t tab }

/-- The state with one more table, which has no indexes. -/
def withTable (s : SmManager) (t : String) (cols : List TabColMeta) (f : RmFileHandle) : SmManager :=
  { s.withMeta t (some ⟨cols, []⟩) with
    fhs := Function.update s.fhs t (some f)
    files := Function.update s.files t true
    path2fd := Function.update s.path2fd t true }

/-- The state with one more index. -/
def withIndex (s : SmManager) (t : String) (tab : TabMeta) (colNames : List String) (ix : IxHandle) :
    SmManager :=
  { s.withMeta t (some { tab with indexes := tab.indexes ++ [colNames] }) with
    ihs := Function.update s.ihs (getIndexName t colNames) (some ix)
    files := Function.update s.files (getIndexName t colNames) true
    path2fd := Function.update s.path2fd (getIndexName t colNames) true }

/-- The state without an index. -/
def withoutIndex (s : SmManager) (t : String) (tab : TabMeta) (colNames : List String) : SmManager :=
  { s.withMeta t (some { tab with indexes := tab.indexes.erase colNames }) with
    ihs := Function.update s.ihs (getIndexName t colNames) none
    files := Function.update s.files (getIndexName t colNames) false
    path2fd := Function.update s.path2fd (getIndexName t colNames) false }

/-- The state without a table. -/
def withoutTable (s : SmManager) (t : String) : SmManager :=
  { s.withMeta t none with
    fhs := Function.update s.fhs t none
    files := Function.update s.files t false
    path2fd := Function.update s.path2fd t false }

/-- What the catalog has once the entry for `t` is replaced. -/
theorem has_of_tabs {tab? : Option TabMeta} (htabs : s'.tabs = Function.update s.tabs t tab?)
    (o : SmObject) : s'.Has o ↔ match o with
      | .table t' => if t' = t then tab?.isSome = true else s.Has o
      | .index t' colNames => if t' = t then ∃ tab, tab? = some tab ∧ colNames ∈ tab.indexes else s.Has o := by
  cases o with
  | table t' =>
    by_cases heq : t' = t
    · simp [Has, htabs, heq]
    · simp [Has, htabs, heq]
  | index t' colNames' =>
    by_cases heq : t' = t
    · simp [Has, htabs, heq]
    · simp [Has, htabs, heq]

theorem has_withTable {cols : List TabColMeta} {f : RmFileHandle} (ht : s.tabs t = none)
    (o : SmObject) : (s.withTable t cols f).Has o ↔ s.Has o ∨ o = .table t := by
  rw [@has_of_tabs s (s.withTable t cols f) t (some ⟨cols, []⟩) rfl o]
  cases o with
  | table t' => by_cases heq : t' = t <;> simp [heq]
  | index t' colNames' => by_cases heq : t' = t <;> simp [heq, Has, ht]

theorem has_withIndex {ix : IxHandle} (ht : s.tabs t = some tab) (o : SmObject) :
    (s.withIndex t tab colNames ix).Has o ↔ s.Has o ∨ o = .index t colNames := by
  rw [@has_of_tabs s (s.withIndex t tab colNames ix) t
    (some { tab with indexes := tab.indexes ++ [colNames] }) rfl o]
  cases o with
  | table t' => by_cases heq : t' = t <;> simp [heq, Has, ht]
  | index t' colNames' => by_cases heq : t' = t <;> simp [heq, Has, ht]

theorem has_withoutIndex (ht : s.tabs t = some tab) (hnodup : tab.indexes.Nodup) (o : SmObject) :
    (s.withoutIndex t tab colNames).Has o ↔ s.Has o ∧ o ≠ .index t colNames := by
  rw [@has_of_tabs s (s.withoutIndex t tab colNames) t
    (some { tab with indexes := tab.indexes.erase colNames }) rfl o]
  cases o with
  | table t' => by_cases heq : t' = t <;> simp [heq, Has, ht]
  | index t' colNames' =>
    by_cases heq : t' = t
    · simp [heq, Has, ht, hnodup.mem_erase_iff, and_comm]
    · simp [heq]

theorem has_withoutTable (ht : s.tabs t = some tab) (hnil : tab.indexes = []) (o : SmObject) :
    (s.withoutTable t).Has o ↔ s.Has o ∧ o ≠ .table t := by
  rw [@has_of_tabs s (s.withoutTable t) t none rfl o]
  cases o with
  | table t' => by_cases heq : t' = t <;> simp [heq, Has, ht]
  | index t' colNames' => by_cases heq : t' = t <;> simp [heq, Has, ht, hnil]

theorem nodup_withMeta (h : s.Inv others) {tab? : Option TabMeta}
    (htab : ∀ tab, tab? = some tab → tab.indexes.Nodup) (t' : String) (tab' : TabMeta)
    (ht' : Function.update s.tabs t tab? t' = some tab') : tab'.indexes.Nodup := by
  by_cases heq : t' = t
  · rw [heq, Function.update_self] at ht'
    exact htab tab' ht'
  · rw [Function.update_of_ne heq] at ht'
    exact h.nodup t' tab' ht'

theorem Inv.withTable (h : s.Inv others) (hfile : s.files t = false) (cols : List TabColMeta)
    {f : RmFileHandle} {chain : List PageNo} (hf : f.Ok chain) :
    (s.withTable t cols f).Inv others := by
  have hnone : s.tabs t = none := by
    have hnot := (h.files.free hfile).2 (.table t)
    simpa [Has, SmObject.path] using hnot
  have hhas := @has_withTable s t cols f hnone
  refine ⟨⟨rfl, ?_, ?_, ?_⟩, ?_, path2fd_insert h.path2fd, h.readers, ?_⟩
  · exact keyed_insert (o := .table t) h.fhs hhas f
  · refine keyed_congr (o := .table t) h.ihs (by simp [SmObject.isTable]) fun o ho => ?_
    simp [hhas o, ho]
  · exact h.files.insert (i := SmObject.table t) hfile hhas
  · exact nodup_withMeta h (by rintro _ ⟨⟩; exact List.nodup_nil)
  · intro t' f' hf'
    by_cases heq : t' = t
    · simp only [SmManager.withTable, heq, Function.update_self, Option.some.injEq] at hf'
      exact ⟨chain, hf' ▸ hf⟩
    · simp only [SmManager.withTable, Function.update_of_ne heq] at hf'
      exact h.handles t' f' hf'

theorem Inv.withIndex (h : s.Inv others) (ht : s.tabs t = some tab)
    (hfile : s.files (getIndexName t colNames) = false) (ix : IxHandle) :
    (s.withIndex t tab colNames ix).Inv others := by
  have hhas := @has_withIndex s t tab colNames ix ht
  have hnotMem : colNames ∉ tab.indexes := by
    intro hmem
    exact (h.files.free hfile).2 (.index t colNames) ⟨tab, ht, hmem⟩ rfl
  refine ⟨⟨rfl, ?_, ?_, ?_⟩, ?_, path2fd_insert h.path2fd, h.readers, h.handles⟩
  · refine keyed_congr (o := .index t colNames) h.fhs (by simp [SmObject.isTable]) fun o ho => ?_
    simp [hhas o, ho]
  · exact keyed_insert (o := .index t colNames) h.ihs hhas ix
  · exact h.files.insert (i := SmObject.index t colNames) hfile hhas
  · refine nodup_withMeta h ?_
    rintro _ ⟨⟩
    refine List.nodup_append'.mpr ⟨h.nodup t tab ht, List.nodup_singleton _, ?_⟩
    simpa using hnotMem

theorem Inv.withoutIndex (h : s.Inv others) (ht : s.tabs t = some tab) (hmem : colNames ∈ tab.indexes) :
    (s.withoutIndex t tab colNames).Inv others := by
  have hhas := @has_withoutIndex s t tab colNames ht (h.nodup t tab ht)
  have ho : s.Has (.index t colNames) := ⟨tab, ht, hmem⟩
  refine ⟨⟨rfl, ?_, ?_, ?_⟩, ?_, path2fd_erase h.path2fd, h.readers, h.handles⟩
  · refine keyed_congr (o := .index t colNames) h.fhs (by simp [SmObject.isTable]) fun o ho => ?_
    simp [hhas o, ho]
  · exact keyed_erase (o := .index t colNames) h.toConsistent h.ihs ho hhas
  · exact h.files.erase (i := SmObject.index t colNames) ho hhas
  · exact nodup_withMeta h (by rintro _ ⟨⟩; exact (h.nodup t tab ht).erase _)

theorem Inv.withoutTable (h : s.Inv others) (ht : s.tabs t = some tab) (hnil : tab.indexes = []) :
    (s.withoutTable t).Inv others := by
  have hhas := @has_withoutTable s t tab ht hnil
  have ho : s.Has (.table t) := by simp [Has, ht]
  refine ⟨⟨rfl, ?_, ?_, ?_⟩, ?_, path2fd_erase h.path2fd, h.readers, ?_⟩
  · exact keyed_erase (o := .table t) h.toConsistent h.fhs ho hhas
  · refine keyed_congr (o := .table t) h.ihs (by simp [SmObject.isTable]) fun o ho => ?_
    simp [hhas o, ho]
  · exact h.files.erase (i := SmObject.table t) ho hhas
  · exact nodup_withMeta h (by rintro _ ⟨⟩)
  · intro t' f' hf'
    by_cases heq : t' = t
    · simp [SmManager.withoutTable, heq] at hf'
    · simp only [SmManager.withoutTable, Function.update_of_ne heq] at hf'
      exact h.handles t' f' hf'

end SmManager

end Rmdb
