-- SUMMARY: `analyze`, `redo` and `undo` on the rows of the tables, and what they make of each row.
import Mathlib.Logic.Function.Basic
import Rmdb.Lib.Replay
import Rmdb.Recovery.LogManager

/-!
# Recovery of the tables

`analyze` drops all tables and creates them again, `redo` replays the log from its start, and `undo` goes through it
backwards and takes back the writes of the transactions that have no COMMIT or ABORT record. `insert_record(rid, buf)`
sets a slot, where it returns, and `delete_record(rid)` clears it. The new tables have no indexes.

The type of a compensation record says what undoing did, not what was undone: `setCLR` makes `CLR_DELETE` of an insert.
`redo` goes by what was undone: it treats `CLR_DELETE` like `INSERT`, and `CLR_INSERT` like `DELETE`.
-/

namespace Rmdb

/-- A table and a rid. -/
structure Place where
  tableName : List UInt8
  rid : LogRid Int
  deriving DecidableEq, Repr

/-- The rows of all tables. -/
abbrev TableRows := Place → Option RmRecord

/-- The tables, and `undo_list_`. -/
structure RecoveryManager where
  rows : TableRows
  undoList : Int → Bool

namespace RecoveryManager

/-- `rollback_insert`. -/
def rollbackInsert (m : RecoveryManager) (tabName : List UInt8) (rid : LogRid Int) : RecoveryManager :=
  { m with rows := Function.update m.rows ⟨tabName, rid⟩ none }

/-- `rollback_delete`. -/
def rollbackDelete (m : RecoveryManager) (tabName : List UInt8) (rid : LogRid Int) (r : RmRecord) : RecoveryManager :=
  { m with rows := Function.update m.rows ⟨tabName, rid⟩ (some r) }

/-- `rollback_update`. -/
def rollbackUpdate (m : RecoveryManager) (tabName : List UInt8) (rid : LogRid Int) (r : RmRecord) : RecoveryManager :=
  { m with rows := Function.update m.rows ⟨tabName, rid⟩ (some r) }

/-- `analyze`. -/
def analyze : RecoveryManager := ⟨fun _ => none, fun _ => false⟩

/-- One turn of the loop of `redo`. -/
def redoLog (m : RecoveryManager) (log : LogRecord Int) : RecoveryManager :=
  match log.logType, log.body with
  | .delete, .value _ rid tabName => m.rollbackInsert tabName rid
  | .clrInsert, .value _ rid tabName => m.rollbackInsert tabName rid
  | .insert, .value r rid tabName => m.rollbackDelete tabName rid r
  | .clrDelete, .value r rid tabName => m.rollbackDelete tabName rid r
  | .update, .update _ newValue rid tabName => m.rollbackUpdate tabName rid newValue
  | .clrUpdate, .update _ newValue rid tabName => m.rollbackUpdate tabName rid newValue
  | .begin, _ => { m with undoList := Function.update m.undoList log.logTid true }
  | .commit, _ => { m with undoList := Function.update m.undoList log.logTid false }
  | .abort, _ => { m with undoList := Function.update m.undoList log.logTid false }
  | _, _ => m

def redo (m : RecoveryManager) (logs : List (LogRecord Int)) : RecoveryManager := logs.foldl redoLog m

/-- One turn of the loop of `undo`, with the records that are logged. -/
def undoLog (log : LogRecord Int) (x : RecoveryManager × List (GenLog Int)) : RecoveryManager × List (GenLog Int) :=
  if x.1.undoList log.logTid then
    match log.logType, log.body with
    | .delete, .value r rid tabName =>
      (x.1.rollbackDelete tabName rid r, x.2 ++ [.clr log.logTid (.delete r rid tabName)])
    | .insert, .value r rid tabName =>
      (x.1.rollbackInsert tabName rid, x.2 ++ [.clr log.logTid (.insert r rid tabName)])
    | .update, .update oldValue newValue rid tabName =>
      (x.1.rollbackUpdate tabName rid oldValue, x.2 ++ [.clr log.logTid (.update oldValue newValue rid tabName)])
    | .begin, _ => ({ x.1 with undoList := Function.update x.1.undoList log.logTid false }, x.2)
    | _, _ => x
  else x

/-- `undo`, from the last record to the first. -/
def undo (m : RecoveryManager) (logs : List (LogRecord Int)) : RecoveryManager × List (GenLog Int) :=
  logs.foldr undoLog (m, [])

/-- A restart: the tables behind it, and the records that it logs. -/
def recover (logs : List (LogRecord Int)) : RecoveryManager × List (GenLog Int) := (analyze.redo logs).undo logs

end RecoveryManager

-- ---------------------------------------------------------------------------
-- What recovery should give
-- ---------------------------------------------------------------------------

/-- There is a COMMIT record of the transaction. -/
def Committed (logs : List (LogRecord Int)) (tid : Int) : Bool :=
  logs.any fun log => log.logType = .commit ∧ log.logTid = tid

/-- The operation of a record that logs one. -/
def LogRecord.apply (rows : TableRows) (log : LogRecord Int) : TableRows :=
  match log.logType, log.body with
  | .insert, .value r rid tabName => Function.update rows ⟨tabName, rid⟩ (some r)
  | .delete, .value _ rid tabName => Function.update rows ⟨tabName, rid⟩ none
  | .update, .update _ newValue rid tabName => Function.update rows ⟨tabName, rid⟩ (some newValue)
  | _, _ => rows

/-- The operations of the committed transactions, in the order of the log. -/
def committedRows (logs : List (LogRecord Int)) : TableRows :=
  logs.foldl (fun rows log => if Committed logs log.logTid then log.apply rows else rows) fun _ => none

-- ---------------------------------------------------------------------------
-- The entries for one row
-- ---------------------------------------------------------------------------

open Replay (Change Entry)

/-- The entry that a record is, and its row. The record for the undoing of an update has the images in the other
order. -/
def LogRecord.entry (log : LogRecord Int) : Option (Place × Entry Int RmRecord) :=
  match log.logType, log.body with
  | .insert, .value r rid tabName => some (⟨tabName, rid⟩, .change log.logTid ⟨none, some r⟩)
  | .delete, .value r rid tabName => some (⟨tabName, rid⟩, .change log.logTid ⟨some r, none⟩)
  | .update, .update oldValue newValue rid tabName =>
    some (⟨tabName, rid⟩, .change log.logTid ⟨some oldValue, some newValue⟩)
  | .clrDelete, .value r rid tabName => some (⟨tabName, rid⟩, .back log.logTid ⟨none, some r⟩)
  | .clrInsert, .value r rid tabName => some (⟨tabName, rid⟩, .back log.logTid ⟨some r, none⟩)
  | .clrUpdate, .update oldValue newValue rid tabName =>
    some (⟨tabName, rid⟩, .back log.logTid ⟨some newValue, some oldValue⟩)
  | _, _ => none

/-- The entry, if it is for this row. -/
def LogRecord.entryAt (x : Place) (log : LogRecord Int) : Option (Entry Int RmRecord) :=
  match log.entry with
  | some (y, e) => if y = x then some e else none
  | none => none

def entriesAt (x : Place) (logs : List (LogRecord Int)) : List (Entry Int RmRecord) := logs.filterMap (·.entryAt x)

/-- What `redo` makes of the record for a change that was taken back: an insert is done again, and so is a delete. -/
def redoneBack (c : Change RmRecord) : Option RmRecord :=
  match c.before, c.after with
  | some oldValue, some _ => some oldValue
  | _, after => after

/-- Ids are given out once, and BEGIN is the first record of a transaction. -/
def BeginsFirst (logs : List (LogRecord Int)) : Prop :=
  logs.Pairwise fun log log' => log'.logType = .begin → log'.logTid ≠ log.logTid

section

variable {m : RecoveryManager} {log : LogRecord Int} {logs : List (LogRecord Int)} {x : Place}

theorem entriesAt_cons : entriesAt x (log :: logs) = (log.entryAt x).toList ++ entriesAt x logs := by
  cases h : log.entryAt x with
  | none => exact List.filterMap_cons_none h
  | some e => exact List.filterMap_cons_some h

theorem entriesAt_append {logs' : List (LogRecord Int)} :
    entriesAt x (logs ++ logs') = entriesAt x logs ++ entriesAt x logs' :=
  List.filterMap_append

theorem update_eq_redo {rows : TableRows} {y : Place} {e : Entry Int RmRecord} {v : Option RmRecord}
    (he : ∀ w, Replay.redo redoneBack w [e] = v) :
    Function.update rows y v x = Replay.redo redoneBack (rows x) (if y = x then some e else none).toList := by
  by_cases hy : y = x
  · subst hy
    rw [if_pos rfl, Function.update_self]
    exact (he _).symm
  · rw [if_neg hy, Function.update_of_ne (Ne.symm hy)]
    rfl

namespace RecoveryManager

theorem redoLog_rows : (m.redoLog log).rows x = Replay.redo redoneBack (m.rows x) (log.entryAt x).toList := by
  obtain ⟨⟨type, lsn, len, tid, prevLsn, undoNext⟩, body⟩ := log
  cases type <;> cases body <;> first | rfl | exact update_eq_redo fun _ => rfl

theorem redo_rows : (m.redo logs).rows x = Replay.redo redoneBack (m.rows x) (entriesAt x logs) := by
  induction logs generalizing m with
  | nil => rfl
  | cons log logs ih =>
    rw [entriesAt_cons, Replay.redo_append, ← redoLog_rows]
    exact ih

theorem redoLog_undoList {tid : Int} : (m.redoLog log).undoList tid =
    if log.logTid = tid then
      match log.logType with
      | .begin => true
      | .commit => false
      | .abort => false
      | _ => m.undoList tid
    else m.undoList tid := by
  obtain ⟨⟨type, lsn, len, tid', prevLsn, undoNext⟩, body⟩ := log
  by_cases htid : tid' = tid
  · subst htid
    cases type <;> cases body <;> simp [redoLog, rollbackInsert, rollbackDelete, rollbackUpdate]
  · cases type <;> cases body <;>
      simp [redoLog, rollbackInsert, rollbackDelete, rollbackUpdate, htid, Function.update_of_ne (Ne.symm htid)]

theorem undoLog_rows {y : RecoveryManager × List (GenLog Int)} {lost : Int → Bool} {es : List (Entry Int RmRecord)}
    {v : Option RmRecord} (hrows : y.1.rows x = Replay.undo lost v es) (hlost : y.1.undoList log.logTid = lost log.logTid) :
    (undoLog log y).1.rows x = Replay.undo lost v ((log.entryAt x).toList ++ es) := by
  obtain ⟨⟨type, lsn, len, tid, prevLsn, undoNext⟩, body⟩ := log
  replace hlost : y.1.undoList tid = lost tid := hlost
  have hset : ∀ (place : Place) (c : Change RmRecord), lost tid = true →
      Function.update y.1.rows place c.before x =
        Replay.undo lost v ((if place = x then some (Entry.change tid c) else none).toList ++ es) := by
    intro place c ht
    by_cases hplace : place = x
    · subst hplace
      rw [if_pos rfl, Function.update_self]
      exact (if_pos ht).symm
    · rw [if_neg hplace, Function.update_of_ne (Ne.symm hplace)]
      exact hrows
  have hback : ∀ (place : Place) (c : Change RmRecord), y.1.rows x =
      Replay.undo lost v ((if place = x then some (Entry.back tid c) else none).toList ++ es) := by
    intro place c
    rw [hrows]
    split
    · rfl
    · rfl
  have hkept : ∀ (place : Place) (c : Change RmRecord), lost tid = false → y.1.rows x =
      Replay.undo lost v ((if place = x then some (Entry.change tid c) else none).toList ++ es) := by
    intro place c ht
    rw [hrows]
    split
    · exact (if_neg (by simp [ht])).symm
    · rfl
  cases ht : lost tid with
  | true =>
    have hmem : y.1.undoList tid = true := hlost.trans ht
    cases type <;> cases body <;> simp only [undoLog, hmem, if_true] <;>
      first | exact hrows | exact hback _ _ | exact hset _ ⟨_, _⟩ ht
  | false =>
    have hmem : y.1.undoList tid = false := hlost.trans ht
    cases type <;> cases body <;> simp only [undoLog, hmem, Bool.false_eq_true, if_false] <;>
      first | exact hrows | exact hback _ _ | exact hkept _ _ ht

theorem undoLog_undoList {y : RecoveryManager × List (GenLog Int)} {tid : Int}
    (h : log.logType = .begin → log.logTid ≠ tid) : (undoLog log y).1.undoList tid = y.1.undoList tid := by
  obtain ⟨⟨type, lsn, len, tid', prevLsn, undoNext⟩, body⟩ := log
  unfold undoLog
  split
  · cases type <;> cases body <;>
      first | rfl | exact Function.update_of_ne (Ne.symm (h rfl)) _ _
  · rfl

theorem undo_undoList {tid : Int} (h : ∀ log ∈ logs, log.logType = .begin → log.logTid ≠ tid) :
    (undo m logs).1.undoList tid = m.undoList tid := by
  induction logs with
  | nil => rfl
  | cons log logs ih =>
    obtain ⟨hlog, hlogs⟩ := List.forall_mem_cons.mp h
    exact (undoLog_undoList hlog).trans (ih hlogs)

theorem undo_rows (h : BeginsFirst logs) :
    (undo m logs).1.rows x = Replay.undo m.undoList (m.rows x) (entriesAt x logs) := by
  induction logs with
  | nil => rfl
  | cons log logs ih =>
    obtain ⟨hlog, hlogs⟩ := List.pairwise_cons.mp h
    rw [entriesAt_cons]
    exact undoLog_rows (ih hlogs) (undo_undoList fun log' hmem hbegin => hlog log' hmem hbegin)

end RecoveryManager

/-- `undo_list_` behind `redo`. -/
def Lost (logs : List (LogRecord Int)) (tid : Int) : Bool := (RecoveryManager.analyze.redo logs).undoList tid

/-- What a restart makes of each row. -/
theorem recover_rows (h : BeginsFirst logs) :
    (RecoveryManager.recover logs).1.rows x = Replay.replay redoneBack (Lost logs) (entriesAt x logs) := by
  rw [RecoveryManager.recover, RecoveryManager.undo_rows h, RecoveryManager.redo_rows]
  rfl

theorem lost_iff (h : BeginsFirst logs) {tid : Int} : Lost logs tid = true ↔
    (∃ log ∈ logs, log.logType = .begin ∧ log.logTid = tid) ∧
      ∀ log ∈ logs, log.logTid = tid → log.logType ≠ .commit ∧ log.logType ≠ .abort := by
  induction logs using List.reverseRecOn with
  | nil => simp [Lost, RecoveryManager.redo, RecoveryManager.analyze]
  | append_singleton logs log ih =>
    obtain ⟨hlogs, -, hlog⟩ := List.pairwise_append.mp h
    have hstep : Lost (logs ++ [log]) tid = ((RecoveryManager.analyze.redo logs).redoLog log).undoList tid := by
      rw [Lost, RecoveryManager.redo, List.foldl_append]
      rfl
    rw [hstep, RecoveryManager.redoLog_undoList]
    have hold : (RecoveryManager.analyze.redo logs).undoList tid = true ↔ _ := ih hlogs
    -- A record of no consequence for the transaction.
    have hother (hne : log.logTid = tid → log.logType ≠ .begin ∧ log.logType ≠ .commit ∧ log.logType ≠ .abort) :
        (RecoveryManager.analyze.redo logs).undoList tid = true ↔
          (∃ log' ∈ logs ++ [log], log'.logType = .begin ∧ log'.logTid = tid) ∧
            ∀ log' ∈ logs ++ [log], log'.logTid = tid → log'.logType ≠ .commit ∧ log'.logType ≠ .abort := by
      rw [hold]
      constructor
      · rintro ⟨⟨log', hmem, hbegin⟩, hend⟩
        refine ⟨⟨log', List.mem_append_left _ hmem, hbegin⟩, fun log'' hmem' htid => ?_⟩
        rcases List.mem_append.mp hmem' with hmem' | hmem'
        · exact hend log'' hmem' htid
        · cases List.mem_singleton.mp hmem'
          exact (hne htid).2
      · rintro ⟨⟨log', hmem, hbegin, htid⟩, hend⟩
        refine ⟨?_, fun log'' hmem' => hend log'' (List.mem_append_left _ hmem')⟩
        rcases List.mem_append.mp hmem with hmem | hmem
        · exact ⟨log', hmem, hbegin, htid⟩
        · cases List.mem_singleton.mp hmem
          exact absurd hbegin (hne htid).1
    split
    · rename_i htid
      have hends : ∀ type, log.logType = type → (type = .commit ∨ type = .abort) → ¬ ∀ log' ∈ logs ++ [log],
          log'.logTid = tid → log'.logType ≠ .commit ∧ log'.logType ≠ .abort := by
        intro type htype hend hall
        obtain ⟨hcommit, habort⟩ := hall log (by simp) htid
        rw [htype] at hcommit habort
        exact hend.elim hcommit habort
      split
      · rename_i hbegin
        refine iff_of_true rfl ⟨⟨log, by simp, hbegin, htid⟩, fun log' hmem htid' => ?_⟩
        rcases List.mem_append.mp hmem with hmem | hmem
        · exact absurd (htid.trans htid'.symm) (hlog log' hmem log (by simp) hbegin)
        · cases List.mem_singleton.mp hmem
          rw [hbegin]
          exact ⟨nofun, nofun⟩
      · rename_i hcommit
        exact iff_of_false Bool.false_ne_true fun h => hends _ hcommit (.inl rfl) h.2
      · rename_i habort
        exact iff_of_false Bool.false_ne_true fun h => hends _ habort (.inr rfl) h.2
      · rename_i hbegin hcommit habort
        exact hother fun _ => ⟨hbegin, hcommit, habort⟩
    · rename_i htid
      exact hother fun h => absurd h htid

/-- The transaction has a BEGIN record, and no COMMIT or ABORT record. -/
def InFlight (logs : List (LogRecord Int)) (tid : Int) : Bool :=
  (logs.any fun log => log.logType = .begin ∧ log.logTid = tid) &&
    logs.all fun log => log.logTid = tid → log.logType ≠ .commit ∧ log.logType ≠ .abort

theorem lost_eq (h : BeginsFirst logs) : Lost logs = InFlight logs := by
  funext tid
  rw [Bool.eq_iff_iff, lost_iff h, InFlight, Bool.and_eq_true, List.any_eq_true, List.all_eq_true]
  simp only [decide_eq_true_eq]

/-- The rows of the committed transactions. -/
theorem committedRows_eq : committedRows logs x = Replay.keptValue (Committed logs) none (entriesAt x logs) := by
  have hfold : ∀ (kept : Int → Bool) (logs : List (LogRecord Int)) (rows : TableRows),
      logs.foldl (fun rows log => if kept log.logTid then log.apply rows else rows) rows x =
        Replay.keptValue kept (rows x) (entriesAt x logs) := by
    intro kept logs
    induction logs with
    | nil => exact fun rows => rfl
    | cons log logs ih =>
      intro rows
      rw [List.foldl_cons, ih, entriesAt_cons, Replay.keptValue_append]
      congr 1
      obtain ⟨⟨type, lsn, len, tid, prevLsn, undoNext⟩, body⟩ := log
      have hset : ∀ (place : Place) (c : Change RmRecord),
          (if kept tid then Function.update rows place c.after else rows) x =
            Replay.keptValue kept (rows x) (if place = x then some (Entry.change tid c) else none).toList := by
        intro place c
        by_cases hplace : place = x
        · subst hplace
          rw [if_pos rfl]
          show _ = if kept tid then c.after else rows place
          split
          · exact Function.update_self _ _ _
          · rfl
        · rw [if_neg hplace]
          split
          · exact Function.update_of_ne (Ne.symm hplace) _ _
          · rfl
      have hback : ∀ (place : Place) (c : Change RmRecord), (if kept tid then rows else rows) x =
          Replay.keptValue kept (rows x) (if place = x then some (Entry.back tid c) else none).toList := by
        intro place c
        rw [ite_self]
        split
        · rfl
        · rfl
      have hnone : (if kept tid then rows else rows) x = rows x := by rw [ite_self]
      cases type <;> cases body <;> first | exact hnone | exact hback _ _ | exact hset _ ⟨_, _⟩
  exact hfold _ _ _

end

end Rmdb
