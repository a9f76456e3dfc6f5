-- SUMMARY: When recovery gives the rows of the committed transactions, after a run in which transactions may roll back.
import Rmdb.Recovery.RecoverFile
import Rmdb.Transaction.RowHistory

/-!
# Recovery after aborts

One process runs transactions, some of them roll back, and it crashes with its whole log on disk. Two things can go
wrong with a row. A transaction that has released its locks may still be without its end record when another one writes
the row and commits: recovery undoes the first one. And `redo` takes the compensation record of an insert for an
insert, and that of a delete for a delete, so that a row which was rolled back comes back, or goes again.

No insert takes a slot here while somebody else has a lock on it, as a transaction does that has just deleted its row
from there to roll back.
-/

namespace Rmdb

open Replay (Entry NoLost Overwritten Resurrected)

/-- A run of one process over an empty database, with its inserts apart. -/
abbrev SystemRun (fd : List UInt8 → Int) : TxnSystem → Prop :=
  TxnSteps fd (fun s a => s.InsertsApart fd a) (.restart [])

/-- No transaction in flight has changed the row, and its last record is the compensation record of an insert or of a
delete. -/
def EndsTakenBack (logs : List (LogRecord Int)) (x : Place) : Prop :=
  NoLost (InFlight logs) (entriesAt x logs) ∧
    ∃ front t c, entriesAt x logs = front ++ [.back t c] ∧ (c.before = none ∨ c.after = none)

variable {fd : List UInt8 → Int} {s : TxnSystem} {file : List UInt8} {x : Place}

/-- What `redo` makes of a compensation record is right for updates only. -/
theorem redoneBack_ne_iff {logs : List (LogRecord Int)} {t : Int} {c : Replay.Change RmRecord}
    (h : .back t c ∈ entriesAt x logs) : redoneBack c ≠ c.before ↔ c.before = none ∨ c.after = none := by
  obtain ⟨log, -, hat⟩ := List.mem_filterMap.mp h
  obtain ⟨⟨type, lsn, len, tid, prevLsn, undoNext⟩, body⟩ := log
  cases type <;> cases body <;> simp only [LogRecord.entryAt, LogRecord.entry, reduceCtorEq] at hat
  all_goals
    split at hat
    all_goals cases hat
  all_goals simp [redoneBack]

theorem resurrected_iff {logs : List (LogRecord Int)} :
    Resurrected redoneBack (InFlight logs) (entriesAt x logs) ↔ EndsTakenBack logs x := by
  refine and_congr_right fun _ => exists_congr fun front => exists_congr fun t => exists_congr fun c => ?_
  refine and_congr_right fun hes => @redoneBack_ne_iff x logs t c ?_
  rw [hes]
  exact List.mem_append_right _ List.mem_cons_self

/-- After every run, recovery gives the rows of the committed transactions exactly when its compensation records fit
into the log buffer, no row was overwritten by a committed transaction behind one in flight, and none ends with the
compensation record of an insert or a delete. -/
theorem aborts_recovered_iff (hrun : SystemRun fd s) (hfile : IsLogFile s.log file) :
    RecoversTo file (committedRows s.log) ↔ UndoFits s.log ∧
      ∀ x, ¬ Overwritten (InFlight s.log) (Committed s.log) (entriesAt x s.log) ∧ ¬ EndsTakenBack s.log x := by
  have hsound := (@TxnSystem.Sound.restart fd _ List.Pairwise.nil).run (fun _ _ hapart => hapart) hrun
  have hfirst := hsound.logs.beginsFirst
  rw [hfile.recoversTo_iff]
  refine and_congr_right fun _ => forall_congr' fun x => ?_
  obtain ⟨bs, work, hrow⟩ := hsound.row x
  obtain ⟨es, v, hes, htells, -⟩ := hrow.tells
  rw [recover_rows hfirst, committedRows_eq, ← resurrected_iff, ← lost_eq hfirst, hes]
  exact htells.replay_iff (hrow.fate hsound.logs) (fun t => not_committed_of_lost hfirst) (hrow.lost hsound.logs)

/-- A transaction inserts a row and rolls back. -/
def abortedInsert : List TxnAction :=
  [.begin 1, .lock 1 (.ixOnTable 1 3), .logWrite 1 (insertAtFirst [7]), .write 1 (insertAtFirst [7]),
    .lock 1 (.exclusiveOnRecord 1 ⟨1, 0⟩ 3), .abort 1, .rollback 1 (insertAtFirst [7]),
    .logRollback 1 (insertAtFirst [7]), .popBack 1 (insertAtFirst [7]), .release 1 false, .unlock 1 (.table 3), .unlock 1 (.record 3 ⟨1, 0⟩),
    .endRecord 1 false, .flushLog 1 false]

/-- The row is there again when the database has recovered. -/
theorem aborts_recovered_insert : ∃ s file, SystemRun oneTable s ∧ IsLogFile s.log file ∧
    (RecoveryManager.recover s.log).1.rows (insertAtFirst [7]).place = some [7] ∧
    ¬ ∀ x, ¬ Overwritten (InFlight s.log) (Committed s.log) (entriesAt x s.log) ∧ ¬ EndsTakenBack s.log x := by
  have hrun : SystemRun oneTable ((TxnSystem.restart []).actAll oneTable abortedInsert) := .of_actions (by decide)
  have hfile := @isLogFile_records ((TxnSystem.restart []).actAll oneTable abortedInsert).log
    [.begin 1, .fromWriteSet 1 (.insert [7] ⟨1, 0⟩ [116]), .clr 1 (.insert [7] ⟨1, 0⟩ [116]), .abort 1] 1 (fun _ => -1)
    (by decide +kernel) (by decide +kernel)
  have hback : (RecoveryManager.recover ((TxnSystem.restart []).actAll oneTable abortedInsert).log).1.rows
    (insertAtFirst [7]).place = some [7] := by decide
  refine ⟨_, _, hrun, hfile, hback, fun hall => ?_⟩
  have hrow := (hfile.recoversTo_iff.mp ((aborts_recovered_iff hrun hfile).mpr ⟨by decide, hall⟩)).2
    (insertAtFirst [7]).place
  rw [hback] at hrow
  exact absurd hrow (by decide)

end Rmdb
