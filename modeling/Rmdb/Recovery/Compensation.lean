-- SUMMARY: The records that log the undoing of a write, and what becomes of their undo chain in the log.
import Rmdb.Recovery.LogManager

/-!
# Compensation records

When a write is undone, `abort` and `undo` look up the sequence number of the record before the one
that they undo and pass it to a `gen_log_*_CLR` function as `undo_next`. The function stores it in its
record after `add_log_to_buffer` has copied the record into the buffer, so that it never gets into the
log. The tables in which the number is looked up may hold anything here.
-/

namespace Rmdb

/-- `lsn_prevlsn_table_`, and `write_rec_to_lsn_table_`, whose keys are the addresses of `WriteRecord`s. -/
structure LogTables where
  lsnPrevlsn : Int32 → Option Int32
  writeRecToLsn : Nat → Option Int32

/-- What undoes a write: `abort`, with the address of the `WriteRecord`, or `undo`. -/
inductive Undoer where
  | abort (writeRec : Nat)
  | undo

/-- The `undo_next` that is passed for a record. `operator[]` of a map gives 0 for a key that is not in it,
and `abort` must find the `WriteRecord`. For an insert `undo` looks up the wrong number. -/
def Undoer.undoNext (tables : LogTables) (log : LogRecord Int32) : Undoer → Option Int32
  | abort writeRec => (tables.writeRecToLsn writeRec).map fun lsn => (tables.lsnPrevlsn lsn).getD 0
  | undo =>
    let key := if log.logType = .insert then log.prevLsn else log.lsn
    some ((tables.lsnPrevlsn key).getD 0)

/-- The call that logs the undoing of a record, if it is the record of a write. -/
def LogRecord.undoCall (log : LogRecord Int32) : Option (GenLog Int32) :=
  match log.logType, log.body with
  | .insert, .value image rid tableName => some (.clr log.logTid (.insert image rid tableName))
  | .delete, .value image rid tableName => some (.clr log.logTid (.delete image rid tableName))
  | .update, .update oldValue newValue rid tableName =>
    some (.clr log.logTid (.update oldValue newValue rid tableName))
  | _, _ => none

namespace LogManager

/-- The record of a `gen_log_*_CLR` function when it returns. -/
def clrReturned (m : LogManager) (call : GenLog Int32) (undoNext : Int32) : LogRecord Int32 :=
  { m.recordOf call with undoNext := undoNext }

/-- The last record of the log. -/
def lastRecord (m : LogManager) : Option (LogRecord Int32) := do
  let logs ← cutLog (m.stream.length + 1) m.stream
  logs.getLast?

end LogManager

/-- The record in the log is the one that the function returned with, and it leads to the record before
the one that was undone. -/
def CarriesChain (m : LogManager) (returned log : LogRecord Int32) : Prop :=
  m.lastRecord = some returned ∧ returned.undoNext = log.prevLsn

-- ---------------------------------------------------------------------------
-- One record
-- ---------------------------------------------------------------------------

section

variable {m m' : LogManager} {call : GenLog Int32} {log : LogRecord Int32} {onDisk logs : List (LogRecord Int32)}
  {undoNext : Int32}

/-- The log holds what was copied into the buffer. -/
theorem LogManager.Inv.lastRecord (hinv : m.Inv onDisk (logs ++ [log])) : m.lastRecord = some log := by
  have hfuel := length_le_logBytes (logs ++ [log])
  rw [LogManager.lastRecord, hinv.stream, cutLog_logBytes hinv.valid (by omega)]
  simp

/-- The constructors have set `undo_next_` to -1. -/
theorem LogRecord.undoNext_of_undoCall (hcall : log.undoCall = some call) :
    (m.recordOf call).undoNext = -1 := by
  obtain ⟨⟨logType, lsn, totLen, tid, prevLsn, undo⟩, body⟩ := log
  cases logType <;> cases body <;> cases hcall <;> rfl

theorem CarriesChain.iff (hinv : m'.Inv onDisk (logs ++ [m.recordOf call]))
    (hcall : log.undoCall = some call) :
    CarriesChain m' (m.clrReturned call undoNext) log ↔ log.prevLsn = -1 ∧ undoNext = -1 := by
  have hminus := @LogRecord.undoNext_of_undoCall m call log hcall
  have hreturned : (m.clrReturned call undoNext).undoNext = undoNext := rfl
  rw [CarriesChain, hinv.lastRecord, hreturned]
  constructor
  · rintro ⟨hsame, hprev⟩
    have hundo : undoNext = -1 := by
      rw [← hminus, Option.some.inj hsame, hreturned]
    exact ⟨hprev ▸ hundo, hundo⟩
  · rintro ⟨hprev, rfl⟩
    refine ⟨congrArg some ?_, hprev.symm⟩
    rw [LogManager.clrReturned, ← hminus]

end

-- ---------------------------------------------------------------------------
-- Transactions
-- ---------------------------------------------------------------------------

/-- The log manager of a process that started with the sequence number `lsn`, the transactions that have
begun, and the records of the process. -/
inductive TxnLog (lsn : Int32) (file : List UInt8) :
    LogManager → List Int32 → List (LogRecord Int32) → Prop where
  | start : TxnLog lsn file (.start lsn file) [] []
  | begin {m m' : LogManager} {began : List Int32} {logs : List (LogRecord Int32)} {tid : Int32} :
    TxnLog lsn file m began logs → m.genLog (.begin tid) = some m' →
    TxnLog lsn file m' (tid :: began) (logs ++ [m.recordOf (.begin tid)])
  | genLog {m m' : LogManager} {began : List Int32} {logs : List (LogRecord Int32)} {call : GenLog Int32} :
    TxnLog lsn file m began logs → call.tid ∈ began → m.genLog call = some m' →
    TxnLog lsn file m' began (logs ++ [m.recordOf call])
  | flush {m : LogManager} {began : List Int32} {logs : List (LogRecord Int32)} :
    TxnLog lsn file m began logs → TxnLog lsn file m.flushLogToDisk began logs

namespace TxnLog

variable {lsn : Int32} {file : List UInt8} {m m' : LogManager} {began : List Int32}
  {logs : List (LogRecord Int32)} {call : GenLog Int32} {log : LogRecord Int32}

/-- Sequence numbers are counted up, and are not negative as long as they do not wrap around. -/
structure Counted (lsn : Int32) (m : LogManager) (began : List Int32) (logs : List (LogRecord Int32)) :
    Prop where
  globalLsn : m.globalLsn.toInt = lsn.toInt + logs.length
  soFarLsn : ∀ tid ∈ began, 0 ≤ (m.soFarLsn tid).toInt
  prevLsn : ∀ log ∈ logs, log.undoCall ≠ none → 0 ≤ log.prevLsn.toInt

theorem genLog_eq (hgen : m.genLog call = some m') : m'.globalLsn = m.globalLsn + 1 ∧
    m'.soFarLsn = call.soFarLsn m.globalLsn m.soFarLsn := by
  simp only [LogManager.genLog, LogManager.addLogToBuffer] at hgen
  split at hgen
  · cases hgen
  · cases hgen
    exact ⟨rfl, rfl⟩

theorem toInt_add_one {x : Int32} (h : 0 ≤ x.toInt) (hlt : x.toInt + 1 < 2147483648) :
    (x + 1).toInt = x.toInt + 1 := by
  rw [Int32.toInt_add]
  show (x.toInt + 1).bmod (2 ^ 32) = x.toInt + 1
  rw [Int.bmod_eq_of_le (by omega) (by omega)]

/-- A call changes `so_far_lsn_` of its own transaction at most, to its own sequence number. -/
theorem soFarLsn_cases (n : Int32) (old : Int32 → Int32) (tid : Int32) :
    call.soFarLsn n old tid = old tid ∨ call.soFarLsn n old tid = n := by
  have hupdate : Function.update old call.tid n tid = old tid ∨
      Function.update old call.tid n tid = n := by
    by_cases h : tid = call.tid
    · right
      rw [h, Function.update_self]
    · left
      rw [Function.update_of_ne h]
  cases call with
  | clr => exact .inl rfl
  | begin => exact hupdate
  | commit => exact hupdate
  | abort => exact hupdate
  | fromWriteSet => exact hupdate

/-- The record of a write has the number of the last record of its transaction. -/
theorem prevLsn_of_undoCall (hundo : (m.recordOf call).undoCall ≠ none) :
    (m.recordOf call).prevLsn = m.soFarLsn call.tid := by
  cases call with
  | begin => exact absurd rfl hundo
  | commit => exact absurd rfl hundo
  | abort => exact absurd rfl hundo
  | fromWriteSet tid write => cases write <;> rfl
  | clr tid write => cases write <;> exact absurd rfl hundo

theorem Counted.genLog (h : Counted lsn m began logs) (hlsn : 0 ≤ lsn.toInt)
    (hlt : lsn.toInt + (logs.length + 1) < 2147483648) (hgen : m.genLog call = some m')
    (hprev : (m.recordOf call).undoCall ≠ none → 0 ≤ (m.soFarLsn call.tid).toInt) :
    Counted lsn m' began (logs ++ [m.recordOf call]) := by
  obtain ⟨hglobal, hsoFar⟩ := genLog_eq hgen
  have hnum := h.globalLsn
  constructor
  case globalLsn =>
    rw [hglobal, toInt_add_one (by omega) (by omega), List.length_append, List.length_singleton]
    omega
  case soFarLsn =>
    intro tid htid
    rw [hsoFar]
    rcases @soFarLsn_cases call m.globalLsn m.soFarLsn tid with heq | heq
    · rw [heq]
      exact h.soFarLsn tid htid
    · rw [heq]
      omega
  case prevLsn =>
    intro log hlog hundo
    rcases List.mem_append.mp hlog with hlog | hlog
    · exact h.prevLsn log hlog hundo
    · obtain rfl := List.mem_singleton.mp hlog
      rw [prevLsn_of_undoCall hundo]
      exact hprev hundo

theorem counted (hrun : TxnLog lsn file m began logs) (hlsn : 0 ≤ lsn.toInt)
    (hlt : lsn.toInt + logs.length < 2147483648) : Counted lsn m began logs := by
  induction hrun with
  | start => exact ⟨by simp [LogManager.start], by simp, by simp⟩
  | @begin m m' began logs tid _ hgen ih =>
    rw [List.length_append, List.length_singleton] at hlt
    have h := ih (by omega)
    have hcounted := h.genLog hlsn hlt hgen fun hundo => absurd rfl hundo
    refine { hcounted with soFarLsn := fun t ht => ?_ }
    rcases List.mem_cons.mp ht with rfl | ht
    · have hnum := h.globalLsn
      rw [(genLog_eq hgen).2]
      show 0 ≤ (Function.update m.soFarLsn t m.globalLsn t).toInt
      rw [Function.update_self]
      omega
    · exact hcounted.soFarLsn t ht
  | genLog _ hbegan hgen ih =>
    rw [List.length_append, List.length_singleton] at hlt
    have h := ih (by omega)
    exact h.genLog hlsn hlt hgen fun _ => h.soFarLsn _ hbegan
  | flush _ ih => exact ⟨(ih hlt).globalLsn, (ih hlt).soFarLsn, (ih hlt).prevLsn⟩

end TxnLog

/-- Whenever `abort` or `undo` logs that a write is undone, and whatever its tables hold: the record in the
log carries the undo chain exactly when the record of the write has -1 for the record before it and -1 is
looked up for it. In a process that logs fewer than 2^31 records, no write of a transaction that has begun
is such a record. -/
theorem clr_carries_chain_iff (old : List (LogRecord Int32)) (lsn : Int32) (m m' : LogManager)
    (onDisk logs : List (LogRecord Int32)) (log : LogRecord Int32) (call : GenLog Int32) (tables : LogTables)
    (undoer : Undoer) (undoNext : Int32)
    (hold : ∀ log ∈ old, log.Valid)
    (hrun : LogSteps (.start lsn (logBytes old), old, old) (m, onDisk, logs))
    (hcall : log.undoCall = some call) (_ : undoer.undoNext tables log = some undoNext)
    (hfits : m.Fits call) (hgen : m.genLog call = some m') :
    (CarriesChain m' (m.clrReturned call undoNext) log ↔ log.prevLsn = -1 ∧ undoNext = -1) ∧
    ∀ (lsn : Int32) (file : List UInt8) (m : LogManager) (began : List Int32) (logs : List (LogRecord Int32)),
      TxnLog lsn file m began logs → 0 ≤ lsn.toInt → lsn.toInt + logs.length < 2147483648 →
      ∀ log ∈ logs, log.undoCall ≠ none → log.prevLsn ≠ -1 := by
  constructor
  · have hinv := (LogSteps.inv hrun (LogManager.Inv.start hold lsn)).1
    obtain ⟨m₁, hgen₁, hinv₁⟩ := hinv.genLog hfits
    obtain rfl := Option.some.inj (hgen.symm.trans hgen₁)
    exact CarriesChain.iff hinv₁ hcall
  · intro lsn file m began logs hrun hlsn hlt log hlog hundo heq
    have hprev := (hrun.counted hlsn hlt).prevLsn log hlog hundo
    rw [heq] at hprev
    exact absurd hprev (by decide)

/-- The record of a delete, the second one of its transaction. -/
def deleteLog : LogRecord Int32 := GenLog.record 1 0 (.fromWriteSet 1 (.delete [1, 2, 3, 4] ⟨1, 0⟩ [116]))

/-- The log of a process that crashed. -/
def crashedLog : List (LogRecord Int32) := [.beginLogRecord 0 (-1) 1, deleteLog]

/-- The table that `analyze` makes of it. -/
def crashedTables : LogTables where
  lsnPrevlsn lsn := if lsn = 0 then some (-1) else if lsn = 1 then some 0 else none
  writeRecToLsn _ := none

theorem crashedLog_valid : ∀ log ∈ crashedLog, log.Valid := by
  have hbegin : ((.beginLogRecord 0 (-1) 1 : LogRecord Int32)).Valid :=
    @GenLog.record_valid (.begin 1) 0 (-1) (by decide)
  have hdelete : deleteLog.Valid := GenLog.record_valid (by decide)
  simpa [crashedLog] using ⟨hbegin, hdelete⟩

/-- The log manager that undoes the delete. -/
theorem crashedLog_fits : (LogManager.start 2 (logBytes crashedLog)).Fits
    (.clr 1 (.delete [1, 2, 3, 4] ⟨1, 0⟩ [116])) :=
  ⟨trivial, by
    show 0 + 49 ≤ logBufferSize
    decide⟩

/-- Recovery undoes the delete. -/
theorem clr_loses_chain_delete : ∃ m', LogManager.genLog (.start 2 (logBytes crashedLog))
      (.clr 1 (.delete [1, 2, 3, 4] ⟨1, 0⟩ [116])) = some m' ∧
    ¬ CarriesChain m'
      (LogManager.clrReturned (.start 2 (logBytes crashedLog))
        (.clr 1 (.delete [1, 2, 3, 4] ⟨1, 0⟩ [116])) 0) deleteLog := by
  obtain ⟨m', hgen, -⟩ := (LogManager.Inv.start crashedLog_valid 2).genLog crashedLog_fits
  refine ⟨m', hgen, fun hcarries => ?_⟩
  have hprev := ((clr_carries_chain_iff crashedLog 2 _ m' _ _ deleteLog _ crashedTables .undo 0 crashedLog_valid
    .refl rfl rfl crashedLog_fits hgen).1.mp hcarries).1
  exact absurd hprev (by decide)

/-- The number that `undo` passes is 0, the one before the delete. The record that it leaves in the log
has -1. -/
theorem undo_clr_without_chain : ∃ m', LogManager.genLog (.start 2 (logBytes crashedLog))
      (.clr 1 (.delete [1, 2, 3, 4] ⟨1, 0⟩ [116])) = some m' ∧
    Undoer.undo.undoNext crashedTables deleteLog = some 0 ∧ deleteLog.prevLsn = 0 ∧
    ¬ CarriesChain m'
      (LogManager.clrReturned (.start 2 (logBytes crashedLog))
        (.clr 1 (.delete [1, 2, 3, 4] ⟨1, 0⟩ [116])) 0) deleteLog := by
  obtain ⟨m', hgen, hinv⟩ := (LogManager.Inv.start crashedLog_valid 2).genLog crashedLog_fits
  refine ⟨m', hgen, rfl, rfl, fun hcarries => ?_⟩
  have hprev := ((CarriesChain.iff hinv rfl).mp hcarries).1
  exact absurd hprev (by decide)

end Rmdb
