-- SUMMARY: `analyze`, `redo` and `undo` on the log file, and that they do what recovery does with the records in it.
import Rmdb.Recovery.RecoveryManager

/-!
# Recovery from the log file

Each of the three reads the file on its own. `analyze` keeps the offsets of the records, and `undo` goes through them
from the last one to the first: it reads the header there, and the whole record if its transaction is in `undo_list_`.
Offsets are `int`s, so all this is about files of less than `2 ^ 31` bytes.

The compensation records go into the log buffer, and nobody flushes it before the restart is over. When they do not fit
into it, `undo` waits for ever.
-/

namespace Rmdb

-- ---------------------------------------------------------------------------
-- The code
-- ---------------------------------------------------------------------------

def LogRid.toInt (rid : LogRid Int32) : LogRid Int := ⟨rid.pageNo.toInt, rid.slotNo.toInt⟩

def LogBody.toInt : LogBody Int32 → LogBody Int
  | none => .none
  | value image rid tableName => .value image rid.toInt tableName
  | update oldValue newValue rid tableName => .update oldValue newValue rid.toInt tableName

/-- The record that the bytes stand for, with integers for its numbers. -/
def LogRecord.toInt (log : LogRecord Int32) : LogRecord Int :=
  ⟨⟨log.logType, log.lsn.toInt, log.logTotLen, log.logTid.toInt, log.prevLsn.toInt, log.undoNext.toInt⟩, log.body.toInt⟩

/-- The record that one iteration of `undo` works with. It does nothing with the body of a compensation record. -/
def undoRecord (log : LogHeader Int32) (logBuf : List UInt8) : Option (LogRecord Int32) :=
  match log.logType with
  | .delete => deserializeOneImage logBuf
  | .insert => deserializeOneImage logBuf
  | .update => deserializeUpdate logBuf
  | _ => some ⟨log, .none⟩

namespace RecoveryManager

/-- What is logged fits into the log buffer. -/
def Fits (x : RecoveryManager × List (GenLog Int)) : Prop := (x.2.map GenLog.size).sum ≤ logBufferSize

instance (x : RecoveryManager × List (GenLog Int)) : Decidable (Fits x) := inferInstanceAs (Decidable (_ ≤ _))

/-- One turn of the loop of `undo`, for the record at this offset. -/
def undoTurn (file : List UInt8) (junk : Int → Nat → UInt8) (offset : Int) (s : ReadState)
    (x : RecoveryManager × List (GenLog Int)) : Option (ReadState × RecoveryManager × List (GenLog Int)) :=
  let (_, logHdr, pos) := readLogAt file s.pos s.logHdr 24 offset
  let log := LogHeader.deserialize logHdr
  if x.1.undoList log.logTid.toInt then
    let logBuf := (List.range log.logTotLen.toNat).map (junk offset)
    let (_, logBuf, pos) := readLogAt file pos logBuf (asInt log.logTotLen.toNat) offset
    (undoRecord log logBuf).bind fun record =>
      let y := undoLog record.toInt x
      -- The `gen_log_*_CLR` functions do not return when the buffer is full.
      if Fits y then some (⟨logHdr, offset, pos⟩, y) else none
  else some (⟨logHdr, offset, pos⟩, x)

/-- The loop of `undo`, over `offset_list_` from its end. -/
def undoLoop (file : List UInt8) (junk : Int → Nat → UInt8) :
    List Int → ReadState → RecoveryManager × List (GenLog Int) → Option (RecoveryManager × List (GenLog Int))
  | [], _, x => some x
  | offset :: offsets, s, x => do
    let (t, y) ← undoTurn file junk offset s x
    undoLoop file junk offsets t y

/-- A restart over a log file. The header buffers `s₁`, `s₂` and `s₃` have any bytes in them at first, and so has memory
from `new`. -/
def recoverFile (file : List UInt8) (junk : Int → Nat → UInt8) (fuel : Nat) (s₁ s₂ s₃ : ReadState) :
    Option (RecoveryManager × List (GenLog Int)) := do
  let a ← analyzeLoop file fuel s₁ .init
  let logs ← redoLoop file junk fuel s₂
  undoLoop file junk a.offsetList.reverse s₃ (analyze.redo (logs.map LogRecord.toInt), [])

end RecoveryManager

/-- The compensation records of a restart fit into the log buffer. -/
def UndoFits (log : List (LogRecord Int)) : Prop := RecoveryManager.Fits (RecoveryManager.recover log)

instance (log : List (LogRecord Int)) : Decidable (UndoFits log) :=
  inferInstanceAs (Decidable (RecoveryManager.Fits (RecoveryManager.recover log)))

/-- The file has these records in it, and its size is an `int`. -/
structure IsLogFile (log : List (LogRecord Int)) (file : List UInt8) : Prop where
  size : file.length < 2147483648
  records : ∃ logs : List (LogRecord Int32),
    (∀ r ∈ logs, r.Valid) ∧ logs.map LogRecord.toInt = log ∧ logBytes logs = file

/-- Whatever memory looks like at first, a restart over the file goes through and leaves these rows. -/
def RecoversTo (file : List UInt8) (rows : TableRows) : Prop :=
  ∀ (junk : Int → Nat → UInt8) (fuel : Nat) (s₁ s₂ s₃ : ReadState), file.length < fuel → s₁.Starts → s₂.Starts →
    s₃.Starts → ∃ m, RecoveryManager.recoverFile file junk fuel s₁ s₂ s₃ = some m ∧ m.1.rows = rows

-- ---------------------------------------------------------------------------
-- The records
-- ---------------------------------------------------------------------------

variable {file front rest : List UInt8} {log : LogRecord Int32} {logs : List (LogRecord Int32)}
  {junk : Int → Nat → UInt8} {s s₁ s₂ s₃ : ReadState}

namespace RecoveryManager

variable {x : RecoveryManager × List (GenLog Int)}

/-- `undo` reads of a record what it needs. -/
theorem undoRecord_valid (hvalid : log.Valid) :
    ∃ record, undoRecord log.toLogHeader log.bytes = some record ∧ undoLog record.toInt x = undoLog log.toInt x := by
  have hread := hvalid.redoRecord
  obtain ⟨⟨type, lsn, totLen, tid, prevLsn, undoNext⟩, body⟩ := log
  cases type with
  | insert | delete | update => exact ⟨_, hread, rfl⟩
  | begin | commit | abort | clrUpdate | clrInsert | clrDelete | createIndex | other => exact ⟨_, rfl, rfl⟩

/-- Undoing logs more and more. -/
theorem fits_of_undoLog {log : LogRecord Int} (h : Fits (undoLog log x)) : Fits x := by
  have hmore (call : GenLog Int) (hfits : ((x.2 ++ [call]).map GenLog.size).sum ≤ logBufferSize) : Fits x := by
    rw [List.map_append, List.sum_append] at hfits
    exact (Nat.le_add_right ..).trans hfits
  obtain ⟨⟨type, lsn, len, tid, prevLsn, undoNext⟩, body⟩ := log
  unfold undoLog at h
  split at h
  · cases type <;> cases body <;> first | exact h | exact hmore _ h
  · exact h

theorem fits_of_foldr {logs : List (LogRecord Int)} (h : Fits (logs.foldr undoLog x)) : Fits x := by
  induction logs with
  | nil => exact h
  | cons log logs ih => exact ih (fits_of_undoLog h)

/-- One turn of `undo` for a record that is there. -/
theorem undoTurn_record (hsize : file.length < 2147483648) (hvalid : log.Valid)
    (hfile : file = front ++ (log.bytes ++ rest)) (hhdr : s.logHdr.length = 24) {offset : Int}
    (hoffset : offset = front.length) (hfits : Fits x) : ∃ t : ReadState, t.logHdr.length = 24 ∧
      undoTurn file junk offset s x = if Fits (undoLog log.toInt x) then some (t, undoLog log.toInt x) else none := by
  have hlen : log.logTotLen.toNat = log.bytes.length := hvalid.totLen
  have hint : asInt (log.logTotLen.toNat : Int) = log.bytes.length := by
    rw [hlen]
    exact asInt_of_lt hvalid.small
  have hbuf := @readLogAt_block file front rest log.bytes ((List.range log.logTotLen.toNat).map (junk front.length))
    (front.length + 24) hsize hfile LogRecord.bytes_ne_nil (by simp [hlen])
  rw [← hint] at hbuf
  simp only [undoTurn, hoffset, readLogAt_recordHeader hsize hfile hhdr, hvalid.header, hbuf]
  split
  · obtain ⟨record, hrecord, hundo⟩ := @undoRecord_valid log x hvalid
    rw [hrecord, ← hundo]
    exact ⟨_, log.toLogHeader.bytes_length, rfl⟩
  · rename_i hother
    have hskip : undoLog log.toInt x = x := if_neg hother
    rw [hskip]
    exact ⟨_, log.toLogHeader.bytes_length, (if_pos hfits).symm⟩

/-- The offset of the last record. -/
theorem offsetList_concat (hvalid : ∀ r ∈ logs, r.Valid) {a : Analyzed Int32} {offset : Int} :
    (a.addAll offset (logs ++ [log])).offsetList =
      (a.addAll offset logs).offsetList ++ [offset + (logBytes logs).length] := by
  induction logs generalizing a offset with
  | nil => simp [Analyzed.addAll, Analyzed.add]
  | cons log' logs ih =>
    obtain ⟨hvalid', hlogs⟩ := List.forall_mem_cons.mp hvalid
    rw [List.cons_append, Analyzed.addAll, Analyzed.addAll, ih hlogs, hvalid'.totLen, logBytes_cons, List.length_append,
      Int.natCast_add, add_assoc]

/-- Over the offsets of the records, `undo` undoes the records. -/
theorem undoLoop_records (hsize : file.length < 2147483648) (hvalid : ∀ r ∈ logs, r.Valid)
    (hfile : file = logBytes logs ++ rest) (hhdr : s.logHdr.length = 24) (hfits : Fits x) :
    undoLoop file junk (Analyzed.init.addAll 0 logs).offsetList.reverse s x =
      if Fits ((logs.map LogRecord.toInt).foldr undoLog x) then some ((logs.map LogRecord.toInt).foldr undoLog x)
      else none := by
  induction logs using List.reverseRecOn generalizing rest s x with
  | nil => exact (if_pos hfits).symm
  | append_singleton logs log ih =>
    obtain ⟨hlogs, hlog⟩ := List.forall_mem_append.mp hvalid
    rw [logBytes_append, List.append_assoc] at hfile
    have hfile' : file = logBytes logs ++ (log.bytes ++ rest) := by simpa using hfile
    obtain ⟨t, hhdr', hturn⟩ := @undoTurn_record file _ rest log junk s x hsize (hlog log List.mem_cons_self) hfile'
      hhdr _ (Int.zero_add (logBytes logs).length) hfits
    rw [offsetList_concat hlogs, List.reverse_append, List.reverse_singleton, List.singleton_append, undoLoop, hturn,
      List.map_append, List.foldr_append]
    by_cases hnext : Fits (undoLog log.toInt x)
    · rw [if_pos hnext]
      exact ih hlogs hfile' hhdr' hnext
    · rw [if_neg hnext]
      exact (if_neg fun hall => hnext (fits_of_foldr hall)).symm

/-- Of a file of whole records, recovery makes what it makes of the records. -/
theorem recoverFile_logBytes (hsize : (logBytes logs).length < 2147483648) (hvalid : ∀ r ∈ logs, r.Valid)
    (h₁ : s₁.Starts) (h₂ : s₂.Starts) (h₃ : s₃.Starts) {fuel : Nat} (hfuel : logs.length < fuel) :
    recoverFile (logBytes logs) junk fuel s₁ s₂ s₃ =
      if UndoFits (logs.map LogRecord.toInt) then some (recover (logs.map LogRecord.toInt)) else none := by
  have hanalyze := @analyzeLoop_logBytes fuel s₁ .init logs hsize hvalid h₁.offset h₁.logHdr hfuel
  have hredo := @redoLoop_logBytes fuel s₂ junk logs hsize hvalid h₂.offset h₂.logHdr hfuel
  have hundo := @undoLoop_records (logBytes logs) [] logs junk s₃ (analyze.redo (logs.map LogRecord.toInt), []) hsize
    hvalid (List.append_nil _).symm h₃.logHdr (Nat.zero_le _)
  rw [recoverFile, hanalyze, hredo]
  exact hundo

end RecoveryManager

/-- What a restart over the file leaves is decided by the records in it. -/
theorem IsLogFile.recoversTo_iff {log : List (LogRecord Int)} (h : IsLogFile log file) {rows : TableRows} :
    RecoversTo file rows ↔ UndoFits log ∧ ∀ x, (RecoveryManager.recover log).1.rows x = rows x := by
  obtain ⟨hsize, logs, hvalid, rfl, rfl⟩ := h
  have hfile {junk fuel s₁ s₂ s₃} (hfuel : (logBytes logs).length < fuel) (h₁ : s₁.Starts) (h₂ : s₂.Starts)
      (h₃ : s₃.Starts) := @RecoveryManager.recoverFile_logBytes logs junk s₁ s₂ s₃ hsize hvalid h₁ h₂ h₃ fuel
        ((length_le_logBytes logs).trans_lt hfuel)
  constructor
  · intro hto
    have hstarts : (⟨List.replicate 24 0, 0, 0⟩ : ReadState).Starts := ⟨rfl, rfl⟩
    obtain ⟨m, hm, rfl⟩ := hto (fun _ _ => 0) _ _ _ _ (Nat.lt_succ_self _) hstarts hstarts hstarts
    rw [hfile (Nat.lt_succ_self _) hstarts hstarts hstarts] at hm
    by_cases hfits : UndoFits (logs.map LogRecord.toInt)
    · rw [if_pos hfits] at hm
      cases hm
      exact ⟨hfits, fun x => rfl⟩
    · rw [if_neg hfits] at hm
      cases hm
  · rintro ⟨hfits, heq⟩ junk fuel s₁ s₂ s₃ hfuel h₁ h₂ h₃
    exact ⟨_, (hfile hfuel h₁ h₂ h₃).trans (if_pos hfits), funext heq⟩

theorem GenLog.records_valid {calls : List (GenLog Int32)} {lsn : Int32} {soFar : Int32 → Int32}
    (hsmall : (logBytes (records lsn soFar calls)).length ≤ logBufferSize) :
    ∀ r ∈ records lsn soFar calls, r.Valid := by
  induction calls generalizing lsn soFar with
  | nil => exact fun r hr => by cases hr
  | cons call calls ih =>
    rw [records, logBytes_cons, List.length_append] at hsmall
    exact List.forall_mem_cons.mpr ⟨record_valid (by omega), ih (by omega)⟩

/-- The file that a few calls leave. -/
theorem isLogFile_records {log : List (LogRecord Int)} {calls : List (GenLog Int32)} {lsn : Int32}
    {soFar : Int32 → Int32} (hsmall : (logBytes (GenLog.records lsn soFar calls)).length ≤ logBufferSize)
    (hlog : (GenLog.records lsn soFar calls).map LogRecord.toInt = log) :
    IsLogFile log (logBytes (GenLog.records lsn soFar calls)) :=
  ⟨hsmall.trans_lt (by decide), _, GenLog.records_valid hsmall, hlog, rfl⟩

end Rmdb
