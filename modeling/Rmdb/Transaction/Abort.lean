-- SUMMARY: `TransactionManager::abort` on tables with indexes: when it restores them, and a run where it does not.
import Rmdb.Execution.Agreement
import Rmdb.Recovery.Latch

/-!
# Rolling a transaction back

`abort` goes through the write set from the last record to the first and takes each write
back: it deletes and inserts index entries, and it puts records back with
`insert_record(rid, buf)`.

The file that comes out need not be the one the transaction found. A page that was added
stays, empty, at the end of the free chain. `Table.Like` is equality up to such pages, and
each rollback step retraces one write up to them.

After each write `abort` adds a compensation record to the log buffer, and at its end the ABORT
record, which it flushes. If they do not fit into the buffer, with what the other threads log
meanwhile, it waits for itself.
-/

namespace Rmdb

open Exec Run

-- ---------------------------------------------------------------------------
-- The code
-- ---------------------------------------------------------------------------

/-- `insert_record(rid, buf)`. -/
def Exec.insertRecordAt (fuel : Nat) (rid : Rid) (r : RmRecord) : Exec Unit := do
  let s ← get
  let file ← ofRm (s.table.file.insertRecordAt fuel rid r)
  setFile file

/-- `rollback_insert`. -/
def rollbackInsert (rid : Rid) : Exec Unit := do
  let record ← getRecord rid
  deleteEntries record
  deleteRecord rid

/-- `rollback_delete`. -/
def rollbackDelete (fuel : Nat) (rid : Rid) (record : RmRecord) : Exec Unit := do
  insertEntries record rid
  insertRecordAt fuel rid record

/-- `rollback_update`. -/
def rollbackUpdate (fuel : Nat) (rid : Rid) (record : RmRecord) : Exec Unit := do
  let current ← getRecord rid
  deleteEntries current
  insertRecordAt fuel rid record
  insertEntries record rid

/-- The `switch` of `abort`. -/
def rollback (fuel : Nat) : WriteRecord → Exec Unit
  | .insertTuple rid _ => rollbackInsert rid
  | .deleteTuple rid record => rollbackDelete fuel rid record
  | .updateTuple rid record _ => rollbackUpdate fuel rid record

/-- The tables of the database by name. -/
abbrev Tables := String → Option Table

/-- The tables, and the write set of the transaction with the last record first. -/
structure Database where
  tables : Tables
  writeSet : List (String × WriteRecord)

/-- How an executor ended, `none` for success, and what it left behind. -/
def ending : EStateM.Result DbError Session Unit → Option DbError × Session
  | .ok _ s => (none, s)
  | .error e s => (some e, s)

/-- Run a statement on a table. -/
def Database.exec (db : Database) (tab : String) (stmt : Stmt) : Option DbError × Database :=
  match db.tables tab with
  | none => (some .tableNotFound, db)
  | some t =>
    let (e, s) := ending (stmt.exec ⟨t, []⟩)
    (e, ⟨Function.update db.tables tab (some s.table), s.writeSet.map (fun w => (tab, w)) ++ db.writeSet⟩)

/-- A write taken back on its table. -/
def Table.rollback (fuel : Nat) (w : WriteRecord) (t : Table) : Except DbError Table :=
  match Rmdb.rollback fuel w ⟨t, []⟩ with
  | .ok _ s => .ok s.table
  | .error e _ => .error e

/-- A record id as it is logged. -/
def Rid.logged (rid : Rid) : LogRid Int32 := ⟨.ofInt rid.pageNo, .ofInt rid.slotNo⟩

/-- What `gen_log_insert_CLR`, `gen_log_delete_CLR` and `gen_log_upadte_CLR` are called with. -/
def WriteRecord.logged (tab : String) : WriteRecord → LoggedWrite Int32
  | insertTuple rid record => .insert record rid.logged tab.toUTF8.toList
  | deleteTuple rid record => .delete record rid.logged tab.toUTF8.toList
  | updateTuple rid record newRecord => .update record newRecord rid.logged tab.toUTF8.toList

inductive AbortError where
  | exception (e : DbError)
  /-- A call of the log manager that never returns. -/
  | blocked

/-- The thread that calls `abort` and its transaction, and what the other threads log meanwhile: the
calls before each call of this thread, which are counted from the last one. -/
structure AbortContext where
  thread : Nat
  tid : Int32
  others : Nat → List (Nat × LogCall)

/-- The call that logs the undoing of a write when `left` writes are left, and what comes before it. -/
def AbortContext.clr (context : AbortContext) (left : Nat) (tab : String) (w : WriteRecord) : List (Nat × LogCall) :=
  context.others (left + 2) ++ [(context.thread, .gen (.clr context.tid (w.logged tab)))]

/-- `gen_log_abort` and `flush_log_to_disk`, and what comes before them. -/
def AbortContext.finish (context : AbortContext) : List (Nat × LogCall) :=
  context.others 1 ++ [(context.thread, .gen (.abort context.tid))] ++ (context.others 0 ++ [(context.thread, .flush)])

/-- The loop of `abort`. -/
def abortLoop (fuel : Nat) (context : AbortContext) :
    List (String × WriteRecord) → Tables → LatchedLog → Except AbortError (Tables × LatchedLog)
  | [], tables, log => .ok (tables, log)
  | (tab, w) :: ws, tables, log =>
    match tables tab with
    | none => .error (.exception .tableNotFound)
    | some t =>
      match t.rollback fuel w with
      | .error e => .error (.exception e)
      | .ok t =>
        match log.calls (context.clr ws.length tab w) with
        | none => .error .blocked
        | some log => abortLoop fuel context ws (Function.update tables tab (some t)) log

def Database.abort (fuel : Nat) (context : AbortContext) (log : LatchedLog) (db : Database) :
    Except AbortError (Tables × LatchedLog) := do
  let (tables, log) ← abortLoop fuel context db.writeSet db.tables log
  match log.calls context.finish with
  | none => .error .blocked
  | some log => .ok (tables, log)

/-- What is logged while these writes are taken back. -/
def AbortContext.clrs (context : AbortContext) : List (String × WriteRecord) → List (Nat × LogCall)
  | [] => []
  | (tab, w) :: ws => context.clr ws.length tab w ++ context.clrs ws

/-- All records that are logged while the transaction is rolled back fit into the buffer between the
flushes. -/
def AbortContext.Fits (context : AbortContext) (log : LatchedLog) (db : Database) : Prop :=
  FitsBuffer log.log.offset (context.clrs db.writeSet ++ context.finish)

/-- The loop of `abort` on the tables alone. -/
def rollbackLoop (fuel : Nat) : List (String × WriteRecord) → Tables → Except DbError Tables
  | [], tables => .ok tables
  | (tab, w) :: ws, tables =>
    match tables tab with
    | none => .error .tableNotFound
    | some t => do
      let t ← t.rollback fuel w
      rollbackLoop fuel ws (Function.update tables tab (some t))

-- ---------------------------------------------------------------------------
-- One write taken back
-- ---------------------------------------------------------------------------

/-- A table that is like the one with these rows, up to empty pages at the end of the free chain. -/
def Table.Like (t : Table) (k n : Int) (chain : List PageNo) (metas : List IndexMeta) (rows : Rows) : Prop :=
  ∃ extra n', t.Is k n' (chain ++ extra) metas rows ∧ n ≤ n' ∧ ∀ p ∈ extra, n ≤ p

variable {s s₀ : Session} {t : Table} {k n n₁ : Int} {chain chain₁ : List PageNo} {rows : Rows}
  {metas : List IndexMeta} {rid : Rid} {r : RmRecord}

theorem Table.Is.like (h : t.Is k n chain metas rows) : t.Like k n chain metas rows :=
  ⟨[], n, by simpa using h, le_rfl, by simp⟩

theorem Rows.update_none_of_none {x : Option RmRecord} (h : rows rid = none) :
    Function.update (Function.update rows rid x) rid none = rows := by
  rw [Function.update_idem, ← h, Function.update_eq_self]

theorem Rows.update_some_of_some {x : Option RmRecord} (h : rows rid = some r) :
    Function.update (Function.update rows rid x) rid (some r) = rows := by
  rw [Function.update_idem, ← h, Function.update_eq_self]

/-- The row of an insertion goes, whether or not its keys are in the indexes yet. -/
theorem rollbackInsert_run {n' : Int} {extra : List PageNo} {ixs : List Index}
    (hplaced : RmFileHandle.PlacedAt k n chain rows rid n₁ chain₁)
    (hfile : s.table.file.Holds k n' (chain₁ ++ extra) (Function.update rows rid (some r)))
    (hn : n₁ ≤ n') (hextra : ∀ p ∈ extra, n₁ ≤ p)
    (hdel : deleteKeys r s.table.indexes = .ok ixs) (hall : AllExact metas ixs rows) :
    ∃ s', rollbackInsert rid s = .ok () s' ∧ s'.table.Like k n chain metas rows := by
  obtain ⟨hnone, rest, hcase, rfl⟩ := hplaced
  have hrow : Function.update rows rid (some r) rid = some r := Function.update_self _ _ _
  have hne : Function.update rows rid (some r) rid ≠ none := by simp
  obtain ⟨f, hcode, hfile'⟩ := hfile.deleteRecord hne
  rw [RmFileHandle.rowsOn_update_some hnone (hfile.inFile hne).2, Rows.update_none_of_none hnone] at hfile'
  refine ⟨⟨{ s.table with file := f, indexes := ixs }, s.writeSet⟩, ?_, ?_⟩
  · simp [rollbackInsert, getRecord_run hfile hrow, deleteEntries, hdel, deleteRecord, hcode]
  · have hfile'' : f.Holds k n' ((rid.pageNo :: rest) ++ extra) rows := by
      split at hfile'
      · exact hfile'
      · exact hfile'
    rcases hcase with ⟨rfl, rfl⟩ | ⟨rfl, rfl, hp, rfl⟩
    · exact ⟨extra, n', ⟨hfile'', hall⟩, hn, hextra⟩
    · refine ⟨rid.pageNo :: extra, n', ⟨hfile'', hall⟩, by omega, ?_⟩
      intro p hmem
      rcases List.mem_cons.mp hmem with rfl | hmem
      · exact hp.ge
      · have := hextra p hmem
        omega

/-- The first free page is not before this one, or there is none: the loop of
`insert_record(rid, buf)` ends. -/
def NotBefore (chain : List PageNo) (pageNo : PageNo) : Prop := ∀ q ∈ chain.head?, pageNo ≤ q

/-- Empty pages at the end do not come before a page of the table. -/
theorem NotBefore.append {extra : List PageNo} {p : PageNo} (h : NotBefore chain p) (hp : p < n)
    (hextra : ∀ q ∈ extra, n ≤ q) : NotBefore (chain ++ extra) p := by
  intro q hq
  cases chain with
  | cons c chain => exact h q hq
  | nil =>
    cases extra with
    | nil => cases hq
    | cons e extra =>
      obtain rfl : e = q := by simpa using hq
      exact le_of_lt (lt_of_lt_of_le hp (hextra e List.mem_cons_self))

/-- No other row has the keys of a row. -/
theorem AllExact.not_hasKey {ixs : List Index} (h : AllExact metas ixs rows) (hr : rows rid = some r) :
    ∀ cols ∈ metas, ¬ Rows.HasKey (Function.update rows rid none) cols (cols.key r) := by
  rintro cols hcols ⟨rid', r', hr', hkey⟩
  by_cases hrid : rid' = rid
  · simp [hrid] at hr'
  · rw [Function.update_of_ne hrid] at hr'
    exact hrid (h.unique hcols rid' rid r' r hr' hr hkey)

/-- A deleted row comes back. -/
theorem rollbackDelete_run (h : t.Is k n chain metas rows) (hr : rows rid = some r)
    (hsafe : RmFileHandle.rowsOn k rows rid.pageNo = k ∨ NotBefore chain rid.pageNo)
    (hlike : s.table.Like k n (if RmFileHandle.rowsOn k rows rid.pageNo = k then rid.pageNo :: chain else chain)
      metas (Function.update rows rid none)) (fuel : Nat) :
    ∃ s', rollbackDelete (fuel + 1) rid r s = .ok () s' ∧ s'.table.Like k n chain metas rows := by
  obtain ⟨extra, n', his, hn, hextra⟩ := hlike
  obtain ⟨hin, hs⟩ := h.file.inFile (show rows rid ≠ none by simp [hr])
  rw [RmFileHandle.InFile, h.file.numPages] at hin
  have hnone : Function.update rows rid none rid = none := Function.update_self _ _ _
  have hback : Function.update (Function.update rows rid none) rid (some r) = rows :=
    Rows.update_some_of_some hr
  have hcount : RmFileHandle.rowsOn k rows rid.pageNo =
      RmFileHandle.rowsOn k (Function.update rows rid none) rid.pageNo + 1 := by
    rw [← RmFileHandle.rowsOn_update_some hnone hs, hback]
  obtain ⟨ixs, hins, hall⟩ := insertEntries_run his.indexes hnone (h.indexes.not_hasKey hr)
  have hin' : (s.withIndexes ixs).table.file.InFile rid.pageNo :=
    ⟨hin.1, his.file.numPages.symm ▸ lt_of_lt_of_le hin.2 hn⟩
  rw [hcount] at hsafe his
  have hhead : NotBefore ((if RmFileHandle.rowsOn k (Function.update rows rid none) rid.pageNo + 1 = k then
      rid.pageNo :: chain else chain) ++ extra) rid.pageNo := by
    split
    · intro q hq
      obtain rfl : rid.pageNo = q := by simpa using hq
      exact le_rfl
    · exact (hsafe.resolve_left ‹_›).append hin.2 hextra
  obtain ⟨f, extra', n'', hcode, hn', hextra', hfile⟩ := RmFileHandle.Holds.insertRecordAt
    his.file hin' hs hhead (fun _ hf => by simp [hf]) r fuel
  rw [hback] at hfile hall
  refine ⟨⟨{ s.table with file := f, indexes := ixs }, s.writeSet⟩, ?_, extra ++ extra', n'', ⟨?_, hall⟩,
    hn.trans hn', ?_⟩
  · have hcode' : s.table.file.insertRecordAt (fuel + 1) rid r = .ok f := hcode
    simp [rollbackDelete, hins, Exec.insertRecordAt, Session.withIndexes, hcode']
  · by_cases hf : RmFileHandle.rowsOn k (Function.update rows rid none) rid.pageNo + 1 = k
    · simpa [hf] using hfile
    · simpa [hf] using hfile
  · intro p hp
    rcases List.mem_append.mp hp with hp | hp
    · exact hextra p hp
    · exact hn.trans (hextra' p hp)

/-- An updated row gets its old record back, when no other row has its old keys now. -/
theorem rollbackUpdate_run {old : RmRecord} (hlike : s.table.Like k n chain metas rows) (hr : rows rid = some r)
    (hpage : rid.pageNo < n) (hsafe : NotBefore chain rid.pageNo)
    (habs : ∀ cols ∈ metas, ¬ Rows.HasKey (Function.update rows rid none) cols (cols.key old)) (fuel : Nat) :
    ∃ s', rollbackUpdate (fuel + 1) rid old s = .ok () s' ∧
      s'.table.Like k n chain metas (Function.update rows rid (some old)) := by
  obtain ⟨extra, n', his, hn, hextra⟩ := hlike
  have hne : rows rid ≠ none := by simp [hr]
  obtain ⟨hin, hs⟩ := his.file.inFile hne
  obtain ⟨ixs₁, hdel, hall₁⟩ := deleteEntries_run his.indexes hr
  obtain ⟨f, extra', n'', hcode, hn', hextra', hfile⟩ := his.file.insertRecordAt hin hs
    (hsafe.append hpage hextra) (fun h => absurd h hne) old fuel
  rw [if_neg fun h => hne h.1] at hfile
  obtain ⟨ixs₂, hins, hall₂⟩ := insertEntries_run (s := (s.withIndexes ixs₁).withFile f) hall₁
    (Function.update_self _ _ _) habs
  rw [Function.update_idem] at hall₂
  refine ⟨⟨{ s.table with file := f, indexes := ixs₂ }, s.writeSet⟩, ?_, extra ++ extra', n'',
    ⟨by simpa using hfile, hall₂⟩, hn.trans hn', ?_⟩
  · have hcode' : (s.withIndexes ixs₁).table.file.insertRecordAt (fuel + 1) rid old = .ok f := hcode
    have hset : setFile f (s.withIndexes ixs₁) = .ok () ((s.withIndexes ixs₁).withFile f) := rfl
    simp only [rollbackUpdate, bind_run, getRecord_run his.file hr, hdel, Exec.insertRecordAt, get_run, hcode',
      ofRm_ok, pure_run, hset, hins]
    rfl
  · intro p hp
    rcases List.mem_append.mp hp with hp | hp
    · exact hextra p hp
    · exact hn.trans (hextra' p hp)

/-- An updated row cannot get its old record back while another row has one of its old keys. -/
theorem rollbackUpdate_clash {old : RmRecord} (his : s.table.Is k n chain metas rows) (hr : rows rid = some r)
    (hsafe : NotBefore chain rid.pageNo) {cols : IndexMeta} (hcols : cols ∈ metas)
    (hkey : Rows.HasKey (Function.update rows rid none) cols (cols.key old)) (fuel : Nat) :
    ∃ e s', rollbackUpdate fuel rid old s = .error e s' := by
  have hne : rows rid ≠ none := by simp [hr]
  obtain ⟨hin, hs⟩ := his.file.inFile hne
  obtain ⟨ixs₁, hdel, hall₁⟩ := deleteEntries_run his.indexes hr
  cases fuel with
  | zero =>
    refine ⟨.failed, s.withIndexes ixs₁, ?_⟩
    simp only [rollbackUpdate, bind_run, getRecord_run his.file hr, hdel, Exec.insertRecordAt, get_run,
      RmFileHandle.insertRecordAt, RmFileHandle.fetchFreeUntil, error_bind]
    rfl
  | succ fuel =>
    obtain ⟨f, extra', n'', hcode, -⟩ := his.file.insertRecordAt hin hs hsafe (fun h => absurd h hne) old fuel
    obtain ⟨done, rest, m₁, m₂, hins, -, -, -, hend⟩ := hall₁.insertKeys (Function.update_self _ _ _) old
    cases rest with
    | nil => exact absurd hkey (hend.mp rfl cols hcols)
    | cons ix rest =>
      refine ⟨.indexEntryNotUnique, ((s.withIndexes ixs₁).withFile f).withIndexes (done ++ ix :: rest), ?_⟩
      have hcode' : (s.withIndexes ixs₁).table.file.insertRecordAt (fuel + 1) rid old = .ok f := hcode
      have hins' : insertKeys old rid (s.withIndexes ixs₁).table.indexes = .ok (done, ix :: rest) := hins
      simp only [rollbackUpdate, bind_run, getRecord_run his.file hr, hdel, Exec.insertRecordAt, get_run, hcode',
        ofRm_ok, pure_run, setFile_run, insertEntries, hins', ofIx_ok, setIndexes_run, throw_run]
      rfl

-- ---------------------------------------------------------------------------
-- A statement taken back
-- ---------------------------------------------------------------------------

/-- Writes taken back on one table, the first of the list first. -/
def Table.rollbackAll (fuel : Nat) : List WriteRecord → Table → Except DbError Table
  | [], t => .ok t
  | w :: ws, t => do
    let t ← t.rollback fuel w
    t.rollbackAll fuel ws

/-- From every table with the one property, taking these writes back leads to one with the other. -/
def Undoes (ws : List WriteRecord) (P Q : Table → Prop) : Prop :=
  ∀ fuel t, P t → ∃ t', t.rollbackAll (fuel + 1) ws = .ok t' ∧ Q t'

variable {P Q R : Table → Prop} {ws ws' : List WriteRecord} {w : WriteRecord}

theorem Undoes.nil : Undoes [] P P := fun _ t h => ⟨t, rfl, h⟩

theorem Undoes.cons (hw : ∀ fuel s, P s.table → ∃ s', rollback (fuel + 1) w s = .ok () s' ∧ Q s'.table)
    (hws : Undoes ws Q R) : Undoes (w :: ws) P R := by
  intro fuel t ht
  obtain ⟨s', hcode, hs'⟩ := hw fuel ⟨t, []⟩ ht
  obtain ⟨t', hcode', ht'⟩ := hws fuel s'.table hs'
  exact ⟨t', by simp [Table.rollbackAll, Table.rollback, hcode, hcode'], ht'⟩

theorem Undoes.append (h : Undoes ws P Q) (h' : Undoes ws' Q R) : Undoes (ws ++ ws') P R := by
  intro fuel t ht
  obtain ⟨t₁, hcode, ht₁⟩ := h fuel t ht
  obtain ⟨t₂, hcode', ht₂⟩ := h' fuel t₁ ht₁
  refine ⟨t₂, ?_, ht₂⟩
  clear ht ht₁ ht₂ h h'
  induction ws generalizing t with
  | nil =>
    obtain rfl : t = t₁ := by simpa [Table.rollbackAll] using hcode
    exact hcode'
  | cons w ws ih =>
    cases hw : t.rollback (fuel + 1) w with
    | error e => simp [Table.rollbackAll, hw] at hcode
    | ok t₀ => simpa [Table.rollbackAll, hw] using ih t₀ (by simpa [Table.rollbackAll, hw] using hcode)

theorem Rows.overlay_eq_some {l : List (Rid × RmRecord)} (h : rows.overlay l rid = some r) :
    (rid, r) ∈ l ∨ rows rid = some r := by
  induction l with
  | nil => exact .inr h
  | cons x l ih =>
    by_cases hx : rid = x.1
    · subst hx
      have hr : x.2 = r := by simpa [Rows.overlay] using h
      exact .inl (by simp [← hr])
    · rw [Rows.overlay, Function.update_of_ne hx] at h
      exact (ih h).imp (List.mem_cons_of_mem _) id

/-- The writes of an update, taken back from the last to the first. At the turn of a row the
rows before it still have their new keys, so its old keys must not be among these. -/
theorem undoes_updates {l : List ((Rid × RmRecord) × RmRecord)} (h : t.Is k n chain metas rows)
    (hold : ∀ x ∈ l, rows x.1.1 = some x.1.2) (hnodup : (l.map fun x => x.1.1).Nodup)
    (hsafe : ∀ x ∈ l, NotBefore chain x.1.1.pageNo)
    (hshift : l.Pairwise fun x y => ∀ cols ∈ metas, cols.key x.2 ≠ cols.key y.1.2) :
    Undoes (l.map fun x => .updateTuple x.1.1 x.1.2 x.2).reverse
      (Table.Like · k n chain metas (rows.overlay (l.map fun x => (x.1.1, x.2))))
      (Table.Like · k n chain metas rows) := by
  induction l using List.reverseRecOn with
  | nil => exact Undoes.nil
  | append_singleton l x ih =>
    obtain ⟨⟨rid, old⟩, new⟩ := x
    have hrow : rows rid = some old := hold ((rid, old), new) (by simp)
    have hnotMem : rid ∉ l.map fun x => x.1.1 := by
      rw [List.map_append, List.nodup_append] at hnodup
      exact fun hmem => hnodup.2.2 rid hmem rid (by simp) rfl
    have hnotMem' : rid ∉ (l.map fun x => (x.1.1, x.2)).map Prod.fst := by
      simpa [Function.comp_def] using hnotMem
    have hover : rows.overlay (l.map fun x => (x.1.1, x.2)) rid = some old :=
      (Rows.overlay_of_notMem hnotMem').trans hrow
    rw [List.pairwise_append] at hshift
    have ih' := ih (fun x hx => hold x (List.mem_append_left _ hx))
      (hnodup.sublist ((List.sublist_append_left _ _).map _))
      (fun x hx => hsafe x (List.mem_append_left _ hx)) hshift.1
    rw [List.map_append, List.map_append, List.reverse_append]
    refine Undoes.cons (fun fuel s hs => ?_) ih'
    rw [List.map_cons, List.map_nil, Rows.overlay_concat hnotMem'] at hs
    have hpage : rid.pageNo < n := by
      have := (h.file.inFile (show rows rid ≠ none by simp [hrow])).1.2
      rwa [h.file.numPages] at this
    -- A row with the old keys would be a row before this one, or the same row.
    have habs : ∀ cols ∈ metas, ¬ Rows.HasKey (Function.update (Function.update
        (rows.overlay (l.map fun x => (x.1.1, x.2))) rid (some new)) rid none) cols (cols.key old) := by
      rintro cols hcols ⟨rid', r', hr', hkey⟩
      rw [Function.update_idem] at hr'
      by_cases hrid : rid' = rid
      · simp [hrid] at hr'
      · rw [Function.update_of_ne hrid] at hr'
        rcases Rows.overlay_eq_some hr' with hmem | hr'
        · obtain ⟨y, hy, hyr⟩ := List.mem_map.mp hmem
          cases hyr
          exact hshift.2.2 y hy ((rid, old), new) (by simp) cols hcols hkey
        · exact hrid (h.indexes.unique hcols rid' rid r' old hr' hrow hkey)
    obtain ⟨s', hcode, hs'⟩ := rollbackUpdate_run hs (Function.update_self _ _ _) hpage
      (hsafe ((rid, old), new) (by simp)) habs fuel
    rw [Rows.update_some_of_some hover] at hs'
    exact ⟨s', hcode, hs'⟩

/-- The first free page of a file is not before a page, or there is none. -/
def RmFileHandle.FreeNotBefore (f : RmFileHandle) (pageNo : PageNo) : Prop :=
  f.firstFreePageNo = noPage ∨ pageNo ≤ f.firstFreePageNo

theorem RmFileHandle.Ok.notBefore {f : RmFileHandle} {p : PageNo} (hok : f.Ok chain) (h : f.FreeNotBefore p) :
    NotBefore chain p := by
  intro q hq
  cases chain with
  | nil => cases hq
  | cons c chain =>
    obtain rfl : c = q := by simpa using hq
    have hc : f.firstFreePageNo = c := hok.chained.1
    rcases h with h | h
    · exact absurd (hc.symm.trans h) (hok.pageNo_ne_noPage List.mem_cons_self)
    · exact hc ▸ h

/-- The rows of a `DELETE` can all be put back: each leaves a full page, or a page that is not
behind the first free page at that moment. -/
def DeleteSafe (conds : List Condition) : List Rid → Session → Prop
  | [], _ => True
  | rid :: rids, s =>
    ((s.table.file.pages rid.pageNo).numRecords = s.table.file.numRecordsPerPage ∨
      s.table.file.FreeNotBefore rid.pageNo) ∧
    DeleteSafe conds rids (ending (deleteRow conds rid s)).2

/-- A set clause that `Analyze` lets through and that the executor has a case for. -/
def SetClause.WellTyped (cols : List ColMeta) (clause : SetClause) : Prop :=
  ∃ col, getCol cols clause.lhs = some col ∧ col.type = clause.rhs.type ∧
    (clause.op = .assign ∨ col.type = .int ∨ col.type = .float ∨ col.type = .bigint)

/-- The condition under which a statement can be taken back. For an `UPDATE`: no row is behind
the first free page; no row has, in any index, as its old key the new key of a row updated before
it; and no lock is refused after keys have been taken out of an index. -/
def Stmt.Safe (t : Table) : Stmt → Prop
  | .insert .. => True
  | .delete conds rids _ => DeleteSafe conds rids ⟨t, []⟩
  | .update clauses rids recordGranted =>
    (∀ rid ∈ rids, t.file.FreeNotBefore rid.pageNo) ∧
    (rids.Pairwise fun rid rid' => ∀ old new old', t.file.lookup rid = some old →
      applySetClauses t.cols clauses old = .ok new → t.file.lookup rid' = some old' →
      ∀ ix ∈ t.indexes, ix.key new ≠ ix.key old') ∧
    (t.indexes = [] ∨ ∀ rid ∈ rids.tail, recordGranted rid = true) ∧
    ∀ clause ∈ clauses, clause.WellTyped t.cols

theorem applySetClauses_wellTyped {cols : List ColMeta} {clauses : List SetClause}
    (h : ∀ clause ∈ clauses, clause.WellTyped cols) (r : RmRecord) :
    ∃ r', applySetClauses cols clauses r = .ok r' := by
  induction clauses generalizing r with
  | nil => exact ⟨r, rfl⟩
  | cons clause clauses ih =>
    obtain ⟨col, hcol, htype, hop⟩ := h clause List.mem_cons_self
    have happly : ∃ r', clause.apply cols r = .ok r' := by
      have hcompute : ∃ new, SetClause.compute clause.op col.type (slice r col.offset col.len)
          (clause.rhs.raw col.len) = .ok new := by
        rcases hop with hop | hop | hop | hop
        · rw [hop]
          cases col.type <;> exact ⟨_, rfl⟩
        all_goals
          rw [hop]
          cases clause.op <;> exact ⟨_, rfl⟩
      obtain ⟨new, hnew⟩ := hcompute
      exact ⟨memcpy r col.offset new col.len, by simp [SetClause.apply, hcol, htype.symm, hnew]⟩
    obtain ⟨r', hr'⟩ := happly
    obtain ⟨r'', hr''⟩ := ih (fun c hc => h c (List.mem_cons_of_mem _ hc)) r'
    exact ⟨r'', by simp [applySetClauses, hr', hr'']⟩

theorem undoes_deletes {rids : List Rid} {conds : List Condition} (h : s.table.Is k n chain metas rows)
    (hnodup : rids.Nodup) (hrows : ∀ rid ∈ rids, rows rid ≠ none) (hsafe : DeleteSafe conds rids s) :
    ∃ s' chain' rows' ws, s'.table.Is k n chain' metas rows' ∧ s'.writeSet = ws ++ s.writeSet ∧
      (each (deleteRow conds) rids s = .ok () s' ∨ each (deleteRow conds) rids s = .error .columnNotFound s') ∧
      Undoes ws (Table.Like · k n chain' metas rows') (Table.Like · k n chain metas rows) := by
  induction rids generalizing s chain rows with
  | nil => exact ⟨s, chain, rows, [], h, rfl, .inl rfl, Undoes.nil⟩
  | cons rid rids ih =>
    obtain ⟨hnotMem, hnodup'⟩ := List.nodup_cons.mp hnodup
    obtain ⟨r, hr⟩ := Option.ne_none_iff_exists'.mp (hrows rid List.mem_cons_self)
    obtain ⟨hrow, hsafe'⟩ := hsafe
    have hrow' : RmFileHandle.rowsOn k rows rid.pageNo = k ∨ NotBefore chain rid.pageNo := by
      refine hrow.imp (fun hfull => ?_) h.file.ok.notBefore
      rwa [h.file.numRecords (h.file.inFile (show rows rid ≠ none by simp [hr])).1, h.file.perPage] at hfull
    rcases deleteRow_run h hr conds with hcode | hcode | ⟨f, ixs, hcode, hfile, hall⟩
    · exact ⟨s, chain, rows, [], h, rfl, .inr (by simp [each, hcode]), Undoes.nil⟩
    · rw [hcode] at hsafe'
      obtain ⟨s', chain', rows', ws, h', hws, hloop, hundo⟩ :=
        ih h hnodup' (fun rid' hrid' => hrows rid' (List.mem_cons_of_mem _ hrid')) hsafe'
      exact ⟨s', chain', rows', ws, h', hws, by simpa [each, hcode] using hloop, hundo⟩
    · rw [hcode] at hsafe'
      obtain ⟨s', chain', rows', ws, h', hws, hloop, hundo⟩ :=
        ih (s := ⟨{ s.table with file := f, indexes := ixs }, .deleteTuple rid r :: s.writeSet⟩) ⟨hfile, hall⟩
          hnodup' (fun rid' hrid' => by
            have hne : rid' ≠ rid := fun e => hnotMem (e ▸ hrid')
            rw [Function.update_of_ne hne]
            exact hrows rid' (List.mem_cons_of_mem _ hrid')) hsafe'
      refine ⟨s', chain', rows', ws ++ [.deleteTuple rid r], h', by simp [hws],
        by simpa [each, hcode] using hloop, hundo.append (Undoes.cons (fun fuel s hs => ?_) Undoes.nil)⟩
      exact rollbackDelete_run h hr hrow' hs fuel

/-- How a statement that is taken back has left its table `t'`: its writes lead back to a table
like the one it found, and unless a lock was refused the table agrees with its indexes again. -/
def LeavesUndoable (x : Option DbError × Session) (k n : Int) (chain : List PageNo) (metas : List IndexMeta)
    (rows : Rows) : Prop :=
  Undoes x.2.writeSet (· = x.2.table) (Table.Like · k n chain metas rows) ∧
    (x.1 ≠ some .transactionAbort → ∃ n' chain' rows', x.2.table.Is k n' chain' metas rows' ∧
      Undoes x.2.writeSet (Table.Like · k n' chain' metas rows') (Table.Like · k n chain metas rows))

theorem leavesUndoable_of_like {x : Option DbError × Session} {n' : Int} {chain' : List PageNo} {rows' : Rows}
    (h : x.2.table.Is k n' chain' metas rows')
    (hundo : Undoes x.2.writeSet (Table.Like · k n' chain' metas rows') (Table.Like · k n chain metas rows)) :
    LeavesUndoable x k n chain metas rows :=
  ⟨fun fuel _ ht => hundo fuel _ (ht ▸ h.like), fun _ => ⟨n', chain', rows', h, hundo⟩⟩

/-- A statement that changed nothing. -/
theorem leavesUndoable_self {e : Option DbError} (h : t.Is k n chain metas rows) :
    LeavesUndoable (e, ⟨t, []⟩) k n chain metas rows :=
  leavesUndoable_of_like h Undoes.nil

theorem insertNext_undoable (h : t.Is k n chain metas rows) (values : List Value) (buffer : RmRecord)
    (tableGranted : Bool) (recordGranted : Rid → Bool) :
    LeavesUndoable (ending (insertNext values buffer tableGranted recordGranted ⟨t, []⟩)) k n chain metas rows := by
  rcases insertNext_run (s := ⟨t, []⟩) h values buffer tableGranted recordGranted with
    ⟨e, hrun⟩ | ⟨r, rid, f, n₁, chain₁, hplaced, habs, hfile, ⟨ixs, hrun, hall⟩ | hrun⟩
  · rw [hrun]
    exact leavesUndoable_self h
  · rw [hrun]
    have his : Table.Is { t with file := f, indexes := ixs } k n₁ chain₁ metas
        (Function.update rows rid (some r)) := ⟨hfile, hall⟩
    refine leavesUndoable_of_like his (Undoes.cons (fun fuel s hs => ?_) Undoes.nil)
    obtain ⟨extra, n', his, hn, hextra⟩ := hs
    have hrow : Function.update rows rid (some r) rid = some r := Function.update_self _ _ _
    obtain ⟨ixs', hdel, hall'⟩ := his.indexes.deleteKeys hrow
    rw [Rows.update_none_of_none hplaced.1] at hall'
    exact rollbackInsert_run hplaced his.file hn hextra hdel hall'
  · -- The lock on the new row was refused, so its keys are in no index.
    rw [hrun]
    refine ⟨Undoes.cons (fun fuel s hs => ?_) Undoes.nil, fun hne => absurd rfl hne⟩
    obtain ⟨ixs', hdel, hall'⟩ := h.indexes.deleteKeys_absent habs
    have hs' : s.table = { t with file := f } := hs
    have hfile' : s.table.file.Holds k n₁ (chain₁ ++ []) (Function.update rows rid (some r)) := by
      rw [hs', List.append_nil]
      exact hfile
    have hdel' : deleteKeys r s.table.indexes = .ok ixs' := by
      rw [hs']
      exact hdel
    exact rollbackInsert_run hplaced hfile' le_rfl (by simp) hdel' hall'

theorem deleteNext_undoable (h : t.Is k n chain metas rows) {conds : List Condition} {rids : List Rid}
    (tableGranted : Bool) (hnodup : rids.Nodup) (hrows : ∀ rid ∈ rids, rows rid ≠ none)
    (hsafe : DeleteSafe conds rids ⟨t, []⟩) :
    LeavesUndoable (ending (deleteNext conds rids tableGranted ⟨t, []⟩)) k n chain metas rows := by
  cases tableGranted with
  | false => exact leavesUndoable_self h
  | true =>
    obtain ⟨s', chain', rows', ws, h', hws, hloop, hundo⟩ := undoes_deletes (s := ⟨t, []⟩) h hnodup hrows hsafe
    rw [List.append_nil] at hws
    subst hws
    simp only [deleteNext, lock_true, bind_run, pure_run]
    rcases hloop with hloop | hloop
    · rw [hloop]
      exact leavesUndoable_of_like h' hundo
    · rw [hloop]
      exact leavesUndoable_of_like h' hundo

/-- A lock is refused before the first loop of an update has changed an index. -/
theorem removeOldKeys_unchanged {recordGranted : Rid → Bool} {rids : List Rid}
    (hfile : s.table.file.Holds k n chain rows) (hrows : ∀ rid ∈ rids, rows rid ≠ none)
    (hlock : ∃ rid ∈ rids, recordGranted rid = false)
    (htail : s.table.indexes = [] ∨ ∀ rid ∈ rids.tail, recordGranted rid = true) :
    removeOldKeys recordGranted rids s = .error .transactionAbort s := by
  induction rids with
  | nil => simp at hlock
  | cons rid rids ih =>
    cases hg : recordGranted rid with
    | false => simp [removeOldKeys, hg]
    | true =>
      -- The lock on the first row is granted, so there are no indexes.
      have hix : s.table.indexes = [] := by
        refine htail.resolve_right fun hall => ?_
        obtain ⟨rid', hmem, hfalse⟩ := hlock
        rcases List.mem_cons.mp hmem with rfl | hmem
        · simp [hg] at hfalse
        · simp [hall rid' hmem] at hfalse
      obtain ⟨r, hr⟩ := Option.ne_none_iff_exists'.mp (hrows rid List.mem_cons_self)
      have hdel : deleteEntries r s = .ok () s := by
        simp only [deleteEntries, bind_run, get_run, hix, deleteKeys, ofIx_ok, pure_run, setIndexes_run]
        rw [← hix]
      have hloop := ih (fun rid' hrid' => hrows rid' (List.mem_cons_of_mem _ hrid'))
        (by simpa [hg] using hlock) (.inl hix)
      simp only [removeOldKeys, hg, lock_true, bind_run, pure_run, getRecord_run hfile hr, hdel, hloop]

theorem updateNext_undoable (h : t.Is k n chain metas rows) {clauses : List SetClause} {rids : List Rid}
    {recordGranted : Rid → Bool} (hnodup : rids.Nodup) (hrows : ∀ rid ∈ rids, rows rid ≠ none)
    (hsafe : (Stmt.update clauses rids recordGranted).Safe t) :
    LeavesUndoable (ending (updateNext clauses rids recordGranted ⟨t, []⟩)) k n chain metas rows := by
  obtain ⟨hpages, hshift, htail, htyped⟩ := hsafe
  by_cases hlock : ∀ rid ∈ rids, recordGranted rid = true
  case neg =>
    push Not at hlock
    have hrun := removeOldKeys_unchanged (s := ⟨t, []⟩) h.file hrows (by simpa using hlock) htail
    have hcode : updateNext clauses rids recordGranted ⟨t, []⟩ = .error .transactionAbort ⟨t, []⟩ := by
      simp only [updateNext, bind_run, hrun]
    rw [hcode]
    exact leavesUndoable_self h
  rcases updateNext_run (s := ⟨t, []⟩) h clauses hnodup hrows hlock with
    ⟨l, f, ixs, hrun, rfl, hl, hfile, hall⟩ | ⟨ixs, hrun, hall, -⟩ | ⟨e, s', hrun, rid, -, r, -, herr⟩
  · have his : Table.Is { t with file := f, indexes := ixs } k n chain metas
        (rows.overlay (l.map fun x => (x.1.1, x.2))) := ⟨hfile, hall⟩
    have hpages' : ∀ x ∈ l, NotBefore chain x.1.1.pageNo := fun x hx =>
      h.file.ok.notBefore (hpages _ (List.mem_map_of_mem hx))
    have hshift' : l.Pairwise fun x y => ∀ cols ∈ metas, cols.key x.2 ≠ cols.key y.1.2 := by
      refine (List.pairwise_map.mp hshift).imp_of_mem fun {x y} hx hy hxy cols hcols => ?_
      rw [← h.indexes.1] at hcols
      obtain ⟨ix, hix, rfl⟩ := List.mem_map.mp hcols
      exact hxy x.1.2 x.2 y.1.2 ((h.file.lookup _).trans (hl x hx).1) (hl x hx).2
        ((h.file.lookup _).trans (hl y hy).1) ix hix
    rw [hrun]
    refine leavesUndoable_of_like his ?_
    have hundo := undoes_updates h (fun x hx => (hl x hx).1) hnodup hpages' hshift'
    simpa [ending] using hundo
  · rw [hrun]
    have his : Table.Is { t with indexes := ixs } k n chain metas rows := ⟨h.file, hall⟩
    exact leavesUndoable_of_like his Undoes.nil
  · obtain ⟨r', hr'⟩ := applySetClauses_wellTyped htyped r
    rw [hr'] at herr
    cases herr

theorem Stmt.exec_undoable {stmt : Stmt} (h : t.Is k n chain metas rows) (hscan : stmt.FromScan t)
    (hsafe : stmt.Safe t) : LeavesUndoable (ending (stmt.exec ⟨t, []⟩)) k n chain metas rows := by
  have hlook : ∀ rids : List Rid, (∀ rid ∈ rids, t.file.lookup rid ≠ none) → ∀ rid ∈ rids, rows rid ≠ none :=
    fun rids hrids rid hrid => h.file.lookup rid ▸ hrids rid hrid
  cases stmt with
  | insert values buffer tableGranted recordGranted =>
    exact insertNext_undoable h values buffer tableGranted recordGranted
  | delete conds rids tableGranted =>
    exact deleteNext_undoable h tableGranted hscan.1 (hlook rids hscan.2) hsafe
  | update clauses rids recordGranted =>
    exact updateNext_undoable h hscan.1 (hlook rids hscan.2) hsafe

-- ---------------------------------------------------------------------------
-- A transaction taken back
-- ---------------------------------------------------------------------------

/-- The run of a transaction: statements one after the other, each of them with the given
property, until a lock is refused. The first component says how the last one ended. -/
inductive TxnRun (ok : Table → Stmt → Prop) (tables₀ : Tables) : Option DbError → Database → Prop where
  | begin : TxnRun ok tables₀ none ⟨tables₀, []⟩
  | exec {e : Option DbError} {db : Database} (tab : String) (stmt : Stmt) :
    TxnRun ok tables₀ e db → e ≠ some .transactionAbort → (∀ t, db.tables tab = some t → ok t stmt) →
    TxnRun ok tables₀ (db.exec tab stmt).1 (db.exec tab stmt).2

/-- The same rows, and index by index the same pairs (key, rid). -/
def Table.SameContents (t₀ t : Table) : Prop :=
  t.file.lookup = t₀.file.lookup ∧
    List.Forall₂ (fun ix₀ ix => ix.cols = ix₀.cols ∧ ∃ rows, ix₀.Exact rows ∧ ix.Exact rows) t₀.indexes t.indexes

/-- Every table has the contents it had. -/
def Restored (tables₀ tables : Tables) : Prop :=
  ∀ tab, Option.Rel Table.SameContents (tables₀ tab) (tables tab)

/-- A table that is like another, whatever the other's free chain is. -/
def LikeTable (t₀ t : Table) : Prop :=
  ∀ k n chain metas rows, t₀.Is k n chain metas rows → t.Like k n chain metas rows

theorem LikeTable.refl (t : Table) : LikeTable t t := fun _ _ _ _ _ h => h.like

theorem LikeTable.sameContents {t₀ t : Table} (h₀ : t₀.Agrees) (h : LikeTable t₀ t) : t₀.SameContents t := by
  obtain ⟨chain, his⟩ := h₀.is
  obtain ⟨extra, n', his', -⟩ := h _ _ _ _ _ his
  refine ⟨funext his'.file.lookup, ?_⟩
  have hcols := his'.indexes.1
  have hall := his'.indexes.2
  have hall₀ := h₀.2
  generalize t.indexes = ixs at hcols hall
  generalize t₀.indexes = ixs₀ at hcols hall₀
  induction ixs generalizing ixs₀ with
  | nil =>
    obtain rfl : ixs₀ = [] := by simpa using hcols
    exact .nil
  | cons ix ixs ih =>
    cases ixs₀ with
    | nil => simp at hcols
    | cons ix₀ ixs₀ =>
      rw [List.map_cons, List.map_cons, List.cons.injEq] at hcols
      exact .cons ⟨hcols.1, _, hall₀ ix₀ List.mem_cons_self, hall ix List.mem_cons_self⟩
        (ih (fun ix hix => hall ix (List.mem_cons_of_mem _ hix)) ixs₀ hcols.2
          fun ix hix => hall₀ ix (List.mem_cons_of_mem _ hix))

/-- One statement, with every free chain at once. -/
theorem Stmt.exec_likeTable {stmt : Stmt} (h : t.Agrees) (hscan : stmt.FromScan t) (hsafe : stmt.Safe t) :
    Undoes (ending (stmt.exec ⟨t, []⟩)).2.writeSet (· = (ending (stmt.exec ⟨t, []⟩)).2.table) (LikeTable t) ∧
      ((ending (stmt.exec ⟨t, []⟩)).1 ≠ some .transactionAbort →
        (ending (stmt.exec ⟨t, []⟩)).2.table.Agrees ∧
        Undoes (ending (stmt.exec ⟨t, []⟩)).2.writeSet (LikeTable (ending (stmt.exec ⟨t, []⟩)).2.table)
          (LikeTable t)) := by
  obtain ⟨chain₀, his₀⟩ := h.is
  refine ⟨fun fuel t₁ ht₁ => ?_, fun hne => ?_⟩
  · obtain ⟨t', hcode, -⟩ := (exec_undoable his₀ hscan hsafe).1 fuel t₁ ht₁
    refine ⟨t', hcode, fun k n chain metas rows his => ?_⟩
    obtain ⟨t'', hcode', hlike⟩ := (exec_undoable his hscan hsafe).1 fuel t₁ ht₁
    obtain rfl : t' = t'' := by simpa [hcode] using hcode'
    exact hlike
  · obtain ⟨n₁, chain₁, rows₁, his₁, hundo₁⟩ := (exec_undoable his₀ hscan hsafe).2 hne
    refine ⟨his₁.agrees.1, fun fuel t₁ ht₁ => ?_⟩
    obtain ⟨t', hcode, -⟩ := hundo₁ fuel t₁ (ht₁ _ _ _ _ _ his₁)
    refine ⟨t', hcode, fun k n chain metas rows his => ?_⟩
    obtain ⟨n₂, chain₂, rows₂, his₂, hundo₂⟩ := (exec_undoable his hscan hsafe).2 hne
    obtain ⟨t'', hcode', hlike⟩ := hundo₂ fuel t₁ (ht₁ _ _ _ _ _ his₂)
    obtain rfl : t' = t'' := by simpa [hcode] using hcode'
    exact hlike

/-- The writes of one table at the end of the write set. -/
theorem rollbackLoop_append {fuel : Nat} {tab : String} {tables : Tables} {t' : Table}
    {rest : List (String × WriteRecord)} (ht : tables tab = some t) (hcode : t.rollbackAll fuel ws = .ok t') :
    rollbackLoop fuel (ws.map (fun w => (tab, w)) ++ rest) tables =
      rollbackLoop fuel rest (Function.update tables tab (some t')) := by
  induction ws generalizing t tables with
  | nil =>
    obtain rfl : t = t' := by simpa [Table.rollbackAll] using hcode
    rw [← ht, Function.update_eq_self]
    rfl
  | cons w ws ih =>
    cases hw : t.rollback fuel w with
    | error e => simp [Table.rollbackAll, hw] at hcode
    | ok t₁ =>
      have hstep : rollbackLoop fuel ((w :: ws).map (fun w => (tab, w)) ++ rest) tables =
          rollbackLoop fuel (ws.map (fun w => (tab, w)) ++ rest) (Function.update tables tab (some t₁)) := by
        simp [rollbackLoop, ht, hw]
      rw [hstep, ih (Function.update_self _ _ _) (by simpa [Table.rollbackAll, hw] using hcode),
        Function.update_idem]

/-- From tables like these, the write set leads back to tables like those at the start. -/
def LeadsBack (tables₀ : Tables) (db : Database) (tables : Tables) : Prop :=
  ∀ fuel, ∃ tables', rollbackLoop (fuel + 1) db.writeSet tables = .ok tables' ∧
    ∀ tab, Option.Rel LikeTable (tables₀ tab) (tables' tab)

/-- The invariant of a run whose last lock was granted. -/
structure Undoable (tables₀ : Tables) (db : Database) : Prop where
  agrees : ∀ tab t, db.tables tab = some t → t.Agrees
  leadsBack : ∀ tables, (∀ tab, Option.Rel LikeTable (db.tables tab) (tables tab)) → LeadsBack tables₀ db tables

theorem relLikeTable_refl (x : Option Table) : Option.Rel LikeTable x x := by
  cases x with
  | none => exact .none
  | some t => exact .some (LikeTable.refl t)

theorem Undoable.exec {tables₀ : Tables} {db : Database} {tab : String} {stmt : Stmt} (h : Undoable tables₀ db)
    (hok : ∀ t, db.tables tab = some t → stmt.FromScan t ∧ stmt.Safe t) :
    LeadsBack tables₀ (db.exec tab stmt).2 (db.exec tab stmt).2.tables ∧
      ((db.exec tab stmt).1 ≠ some .transactionAbort → Undoable tables₀ (db.exec tab stmt).2) := by
  cases ht : db.tables tab with
  | none =>
    have hdb : db.exec tab stmt = (some .tableNotFound, db) := by simp [Database.exec, ht]
    rw [hdb]
    exact ⟨h.leadsBack _ fun tab => relLikeTable_refl _, fun _ => h⟩
  | some t =>
    obtain ⟨hscan, hsafe⟩ := hok t ht
    obtain ⟨hself, hlike⟩ := Stmt.exec_likeTable (h.agrees tab t ht) hscan hsafe
    generalize hx : ending (stmt.exec ⟨t, []⟩) = x at hself hlike
    have hdb : db.exec tab stmt = (x.1, ⟨Function.update db.tables tab (some x.2.table),
        x.2.writeSet.map (fun w => (tab, w)) ++ db.writeSet⟩) := by
      simp [Database.exec, ht, hx]
    have htabs : (db.exec tab stmt).2.tables = Function.update db.tables tab (some x.2.table) := by
      rw [hdb]
    -- Once the statement is taken back, its table is like it was and the others are untouched.
    have hback : ∀ tables t₁, tables tab = some t₁ →
        (∀ tab', tab' ≠ tab → Option.Rel LikeTable (db.tables tab') (tables tab')) →
        (∀ fuel, ∃ t', t₁.rollbackAll (fuel + 1) x.2.writeSet = .ok t' ∧ LikeTable t t') →
        LeadsBack tables₀ (db.exec tab stmt).2 tables := by
      intro tables t₁ ht₁ hothers hundo fuel
      obtain ⟨t', hcode, hlike'⟩ := hundo fuel
      rw [hdb, rollbackLoop_append ht₁ hcode]
      refine h.leadsBack _ (fun tab' => ?_) fuel
      by_cases htab : tab' = tab
      · subst htab
        rw [ht, Function.update_self]
        exact .some hlike'
      · rw [Function.update_of_ne htab]
        exact hothers tab' htab
    refine ⟨hback _ x.2.table (by rw [htabs, Function.update_self]) (fun tab' htab => ?_) fun fuel => hself fuel _ rfl, fun hne => ?_⟩
    · rw [htabs, Function.update_of_ne htab]
      exact relLikeTable_refl _
    · rw [hdb] at hne
      obtain ⟨hagrees, hundo⟩ := hlike hne
      refine ⟨fun tab' t' ht' => ?_, fun tables htables => ?_⟩
      · rw [htabs] at ht'
        by_cases htab : tab' = tab
        · subst htab
          rw [Function.update_self, Option.some.injEq] at ht'
          exact ht' ▸ hagrees
        · rw [Function.update_of_ne htab] at ht'
          exact h.agrees tab' t' ht'
      · rw [htabs] at htables
        have hrel := htables tab
        rw [Function.update_self] at hrel
        generalize ht₁ : tables tab = x₁ at hrel
        cases hrel with
        | some hlike₁ =>
          refine hback tables _ ht₁ (fun tab' htab => ?_) fun fuel => hundo fuel _ hlike₁
          have := htables tab'
          rwa [Function.update_of_ne htab] at this

/-- The log and the tables do not get in each other's way. -/
theorem abortLoop_eq {fuel : Nat} {context : AbortContext} {writes : List (String × WriteRecord)}
    {tables tables' : Tables} {log log' : LatchedLog} (htables : rollbackLoop fuel writes tables = .ok tables')
    (hlog : log.calls (context.clrs writes) = some log') :
    abortLoop fuel context writes tables log = .ok (tables', log') := by
  induction writes generalizing tables log with
  | nil =>
    cases htables
    cases hlog
    rfl
  | cons x writes ih =>
    obtain ⟨tab, w⟩ := x
    cases ht : tables tab with
    | none => simp [rollbackLoop, ht] at htables
    | some t =>
      cases hw : t.rollback fuel w with
      | error e => simp [rollbackLoop, ht, hw] at htables
      | ok t' =>
        rw [AbortContext.clrs, LatchedLog.calls_append, Option.bind_eq_some_iff] at hlog
        obtain ⟨log₁, hlog₁, hrest⟩ := hlog
        simp only [rollbackLoop, ht, hw, ok_bind] at htables
        simp only [abortLoop, ht, hw, hlog₁]
        exact ih htables hrest

/-- The run lemma. -/
theorem TxnRun.leadsBack {tables₀ : Tables} (hagree : ∀ tab t, tables₀ tab = some t → t.Agrees) {e : Option DbError}
    {db : Database} (hrun : TxnRun (fun t stmt => stmt.FromScan t ∧ stmt.Safe t) tables₀ e db) :
    LeadsBack tables₀ db db.tables ∧ (e ≠ some .transactionAbort → Undoable tables₀ db) := by
  induction hrun with
  | begin =>
    have hundo : Undoable tables₀ ⟨tables₀, []⟩ := ⟨hagree, fun tables htables _ => ⟨tables, rfl, htables⟩⟩
    exact ⟨hundo.leadsBack _ fun tab => relLikeTable_refl _, fun _ => hundo⟩
  | exec tab stmt _ hne hok ih => exact (ih.2 hne).exec hok

theorem eq_ok_of_ending {x : EStateM.Result DbError Session Unit} (h : (ending x).1 = none) :
    x = .ok () (ending x).2 := by
  cases x with
  | ok _ s => rfl
  | error e s => cases h

/-- The table after a statement that succeeds. -/
def Table.after (t : Table) (stmt : Stmt) : Table := (ending (stmt.exec ⟨t, []⟩)).2.table

theorem Table.Agrees.after {stmt : Stmt} (h : t.Agrees) (hscan : stmt.FromScan t)
    (hend : (ending (stmt.exec ⟨t, []⟩)).1 = none) : (t.after stmt).Agrees :=
  (Stmt.exec_agrees h hscan (.inl (eq_ok_of_ending hend))).1

/-- `t(a INT)` with an index on `a` and the rows `1` and `2`. -/
@[irreducible] def twoRows : Table := (intSession.table.after (insertInt 1)).after (insertInt 2)

theorem twoRows_agrees : twoRows.Agrees := by
  rw [twoRows]
  refine Table.Agrees.after (Table.Agrees.after intSession_agrees trivial ?_) trivial ?_
  · decide +kernel
  · decide +kernel

/-- The database with this table only. -/
def twoRowsTables : Tables := fun tab => if tab = "t" then some twoRows else none

theorem twoRowsTables_agree : ∀ tab t, twoRowsTables tab = some t → t.Agrees := by
  intro tab t ht
  simp only [twoRowsTables] at ht
  split at ht
  · cases ht
    exact twoRows_agrees
  · cases ht

/-- `DELETE FROM t WHERE a = 1`. -/
def deleteFirst : Stmt := .delete [⟨"a", .eq, .val (.int 1)⟩] [⟨1, 0⟩] true

/-- The first thread and its transaction, while another thread begins, inserts and commits. -/
def abortBeside : AbortContext where
  thread := 1
  tid := 1
  others left :=
    if left = 1 then [(2, .gen (.begin 2)), (2, .gen (.fromWriteSet 2 (.insert [1, 2, 3, 4] ⟨1, 0⟩ [117]))),
      (2, .gen (.commit 2)), (2, .flush)]
    else []

/-- `UPDATE t SET a = a + 1`. -/
def shiftKeys : Stmt := .update [⟨"a", .int 1, .add⟩] [⟨1, 0⟩, ⟨1, 1⟩] fun _ => true

theorem shiftKeys_fromScan : shiftKeys.FromScan twoRows := by
  have h : ∀ rid ∈ [(⟨1, 0⟩ : Rid), ⟨1, 1⟩], (twoRows.file.lookup rid).isSome := by decide +kernel
  exact ⟨by decide, fun rid hrid => Option.isSome_iff_ne_none.mp (h rid hrid)⟩

theorem shiftKeys_ok : (ending (shiftKeys.exec ⟨twoRows, []⟩)).1 = none := by decide +kernel

/-- The table after it. -/
@[irreducible] def shifted : Table := twoRows.after shiftKeys

theorem shifted_agrees : shifted.Agrees := by
  rw [shifted]
  exact twoRows_agrees.after shiftKeys_fromScan shiftKeys_ok

/-- The rows are `2` and `3` now, and the old key of the second is the key of the first. -/
theorem shifted_clash (fuel : Nat) :
    ∃ e, shifted.rollback fuel (.updateTuple ⟨1, 1⟩ [2, 0, 0, 0] [3, 0, 0, 0]) = .error e := by
  obtain ⟨chain, his⟩ := shifted_agrees.is
  have hrow : shifted.file.lookup ⟨1, 1⟩ = some [3, 0, 0, 0] := by decide +kernel
  have hfirst : shifted.file.lookup ⟨1, 0⟩ = some [2, 0, 0, 0] := by decide +kernel
  have hfree : shifted.file.firstFreePageNo = 1 := by decide +kernel
  have hcols : shifted.indexes.map Index.cols = [[(0, .int)]] := by decide +kernel
  have hkey : Rows.HasKey (Function.update shifted.file.lookup ⟨1, 1⟩ none) [(0, .int)]
      (IndexMeta.key [(0, .int)] [2, 0, 0, 0]) := by
    refine ⟨⟨1, 0⟩, [2, 0, 0, 0], ?_, rfl⟩
    rw [Function.update_of_ne (by decide), hfirst]
  obtain ⟨e, s', hcode⟩ := rollbackUpdate_clash (s := ⟨shifted, []⟩) his hrow
    (his.file.ok.notBefore (.inr hfree.ge)) (by simp [hcols]) hkey fuel
  exact ⟨e, by simp [Table.rollback, rollback, hcode]⟩

end Rmdb
