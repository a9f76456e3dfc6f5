-- SUMMARY: The log manager: records go into a buffer and the buffer to the file, and all of them can be read back.
import Mathlib.Logic.Relation
import Rmdb.Recovery.ReadLog

/-!
# The log manager

`add_log_to_buffer` serializes a record behind the records that are in the buffer, and
`flush_log_to_disk` appends the buffer to the log file. The `gen_log_*` functions give a record
its sequence number and call `add_log_to_buffer` under `latch_`, so they are single steps here, as is
`flush_log_to_disk`. When the buffer is full, `add_log_to_buffer` calls `flush_log_to_disk` while it holds
the latch that this function waits for.
-/

namespace Rmdb

/-- What the `gen_log_*` functions take from a `WriteRecord`. -/
inductive LoggedWrite (ι : Type) where
  | insert (record : RmRecord) (rid : LogRid ι) (tableName : List UInt8)
  | delete (record : RmRecord) (rid : LogRid ι) (tableName : List UInt8)
  | update (record newRecord : RmRecord) (rid : LogRid ι) (tableName : List UInt8)

/-- The calls that add a record, with the id of their transaction. The last one stands for the three
functions that log the undoing of a write. -/
inductive GenLog (ι : Type) where
  | begin (tid : ι)
  | commit (tid : ι)
  | abort (tid : ι)
  | fromWriteSet (tid : ι) (write : LoggedWrite ι)
  | clr (tid : ι) (write : LoggedWrite ι)

namespace GenLog

variable {ι : Type}

def tid : GenLog ι → ι
  | begin tid => tid
  | commit tid => tid
  | abort tid => tid
  | fromWriteSet tid _ => tid
  | clr tid _ => tid

section

variable [Neg ι] [OfNat ι 1]

/-- The record that a call makes, with its own sequence number and that of the transaction's last record. -/
def record (lsn prevLsn : ι) : GenLog ι → LogRecord ι
  | begin tid => .beginLogRecord lsn prevLsn tid
  | commit tid => .commitLogRecord lsn prevLsn tid
  | abort tid => .abortLogRecord lsn prevLsn tid
  | fromWriteSet tid write =>
    let log : LogRecord ι := match write with
      | .insert record rid tableName => .insertLogRecord tid record rid tableName
      | .delete record rid tableName => .deleteLogRecord tid record rid tableName
      | .update record newRecord rid tableName => .updateLogRecord tid record newRecord rid tableName
    { log with prevLsn := prevLsn, lsn := lsn }
  | clr tid write =>
    let log : LogRecord ι := match write with
      | .insert record rid tableName => .insertLogRecord tid record rid tableName
      | .delete record rid tableName => .deleteLogRecord tid record rid tableName
      -- The images change places.
      | .update record newRecord rid tableName => .updateLogRecord tid newRecord record rid tableName
    -- `undo_next_` is set when the record is already in the buffer.
    { log.setCLR with lsn := lsn }

end

/-- `so_far_lsn_` after the call. The records of undoing leave it as it is. -/
def soFarLsn [DecidableEq ι] (lsn : ι) (call : GenLog ι) (old : ι → ι) : ι → ι :=
  match call with
  | clr _ _ => old
  | call => Function.update old call.tid lsn

end GenLog

/-- The bytes of the record behind its header. -/
def LoggedWrite.size {ι : Type} : LoggedWrite ι → Nat
  | insert record _ tableName => 4 + record.length + 8 + (8 + tableName.length)
  | delete record _ tableName => 4 + record.length + 8 + (8 + tableName.length)
  | update record newRecord _ tableName =>
    4 + record.length + 4 + newRecord.length + 8 + (8 + tableName.length)

/-- How many bytes the record of a call takes. -/
def GenLog.size {ι : Type} : GenLog ι → Nat
  | begin _ => 24
  | commit _ => 24
  | abort _ => 24
  | fromWriteSet _ write => 24 + write.size
  | clr _ write => 24 + write.size

/-- `LogManager` with its buffer, the log file, and `so_far_lsn_` of the transactions. -/
structure LogManager where
  globalLsn : Int32
  buffer : List UInt8
  offset : Nat
  file : List UInt8
  soFarLsn : Int32 → Int32

namespace LogManager

/-- `LogBuffer::is_full`. The length is a `uint32_t` that becomes an `int`. -/
def isFull (m : LogManager) (appendSize : UInt32) : Bool :=
  decide ((m.offset : Int) + appendSize.toInt32.toInt > logBufferSize)

/-- `add_log_to_buffer`. A full buffer leads to a deadlock. -/
def addLogToBuffer (m : LogManager) (log : LogRecord Int32) : Option LogManager :=
  if m.isFull log.logTotLen then none
  else some { m with
    buffer := log.serialize m.buffer m.offset
    offset := m.offset + log.logTotLen.toNat }

/-- `flush_log_to_disk`. -/
def flushLogToDisk (m : LogManager) : LogManager :=
  { m with file := m.file ++ m.buffer.take m.offset, offset := 0 }

/-- The record that a call adds in this state. -/
def recordOf (m : LogManager) (call : GenLog Int32) : LogRecord Int32 :=
  call.record m.globalLsn (m.soFarLsn call.tid)

/-- `gen_log_bein`, `gen_log_commit`, `gen_log_abort`, `gen_log_from_write_set` and the three functions
for undoing. -/
def genLog (m : LogManager) (call : GenLog Int32) : Option LogManager := do
  let m' ← addLogToBuffer { m with globalLsn := m.globalLsn + 1 } (m.recordOf call)
  some { m' with soFarLsn := call.soFarLsn m.globalLsn m.soFarLsn }

/-- The bytes of the log: those on disk and those in the buffer. -/
def stream (m : LogManager) : List UInt8 := m.file ++ m.buffer.take m.offset

/-- The log manager of a new process over a log file. Transactions have no record yet. -/
def start (lsn : Int32) (file : List UInt8) : LogManager where
  globalLsn := lsn
  buffer := List.replicate (logBufferSize + 1) 0
  offset := 0
  file := file
  soFarLsn := fun _ => -1

end LogManager

/-- The two images of an update are equally long, and the record fits behind the records in the buffer. -/
def LogManager.Fits (m : LogManager) (call : GenLog Int32) : Prop :=
  (m.recordOf call).body.EqualSizes ∧ m.offset + (m.recordOf call).bytes.length ≤ logBufferSize

/-- One step of the log manager, and what it does to the records that were added (`logs`) and to
those that were on disk after the last flush (`onDisk`). -/
inductive LogStep : LogManager × List (LogRecord Int32) × List (LogRecord Int32) →
    LogManager × List (LogRecord Int32) × List (LogRecord Int32) → Prop where
  | append {m m' : LogManager} {onDisk logs : List (LogRecord Int32)} {call : GenLog Int32} :
    m.Fits call → m.genLog call = some m' → LogStep (m, onDisk, logs) (m', onDisk, logs ++ [m.recordOf call])
  | flush {m : LogManager} {onDisk logs : List (LogRecord Int32)} :
    LogStep (m, onDisk, logs) (m.flushLogToDisk, logs, logs)

-- ---------------------------------------------------------------------------
-- One record
-- ---------------------------------------------------------------------------

theorem UInt32.toInt_toInt32 {x : UInt32} (h : x.toNat < 2147483648) : x.toInt32.toInt = x.toNat := by
  show x.toBitVec.toInt = x.toNat
  exact BitVec.toInt_eq_toNat_of_lt (by rw [UInt32.toNat_toBitVec]; omega)

/-- A record is valid if its length was computed from its body, and no number overflows. -/
theorem LogRecord.Valid.of_body {log : LogRecord Int32} (hbody : log.body.For log.logType)
    (htot : log.logTotLen = UInt32.ofNat (24 + log.body.bytes.length)) (h : log.bytes.length ≤ logBufferSize) :
    log.Valid := by
  have hsize : logBufferSize = 4194304 := rfl
  have hlen : log.bytes.length = 24 + log.body.bytes.length := by simp [LogRecord.bytes]
  refine ⟨hbody, ?_, by omega⟩
  rw [htot, UInt32.toNat_ofNat']
  omega

/-- The length in the header of a record is its size, whatever its sequence numbers are. -/
theorem GenLog.record_logTotLen (call : GenLog Int32) (lsn prevLsn : Int32) :
    (call.record lsn prevLsn).logTotLen = UInt32.ofNat call.size := by
  have hone : ∀ image name : List UInt8,
      24 + (4 + image.length + 8 + (8 + name.length)) = 24 + 4 + image.length + 8 + (8 + name.length) := by
    omega
  have htwo : ∀ image image' name : List UInt8,
      24 + (4 + image.length + 4 + image'.length + 8 + (8 + name.length)) =
        24 + 4 + image.length + 4 + image'.length + 8 + (8 + name.length) := by
    omega
  have hswap : ∀ image image' name : List UInt8,
      24 + (4 + image.length + 4 + image'.length + 8 + (8 + name.length)) =
        24 + 4 + image'.length + 4 + image.length + 8 + (8 + name.length) := by
    omega
  cases call with
  | begin tid => rfl
  | commit tid => rfl
  | abort tid => rfl
  | fromWriteSet tid write =>
    cases write with
    | insert => exact congrArg UInt32.ofNat (hone ..).symm
    | delete => exact congrArg UInt32.ofNat (hone ..).symm
    | update => exact congrArg UInt32.ofNat (htwo ..).symm
  | clr tid write =>
    cases write with
    | insert => exact congrArg UInt32.ofNat (hone ..).symm
    | delete => exact congrArg UInt32.ofNat (hone ..).symm
    | update => exact congrArg UInt32.ofNat (hswap ..).symm

/-- `serialize` writes as many bytes. -/
theorem GenLog.record_bytes_length (call : GenLog Int32) (lsn prevLsn : Int32) :
    (call.record lsn prevLsn).bytes.length = call.size := by
  have hone : ∀ (image : RmRecord) (rid : LogRid Int32) (tableName : List UInt8),
      24 + (LogBody.value image rid tableName).bytes.length = 24 + (4 + image.length + 8 + (8 + tableName.length)) := by
    intro image rid tableName
    simp only [LogBody.bytes, List.length_append, imageBytes_length, placeBytes_length]
    omega
  have htwo : ∀ (oldValue newValue : RmRecord) (rid : LogRid Int32) (tableName : List UInt8),
      24 + (LogBody.update oldValue newValue rid tableName).bytes.length =
        24 + (4 + oldValue.length + 4 + newValue.length + 8 + (8 + tableName.length)) := by
    intro oldValue newValue rid tableName
    simp only [LogBody.bytes, List.length_append, imageBytes_length, placeBytes_length]
    omega
  rw [LogRecord.bytes, List.length_append, LogHeader.bytes_length]
  cases call with
  | begin tid => rfl
  | commit tid => rfl
  | abort tid => rfl
  | fromWriteSet tid write =>
    cases write with
    | insert => exact hone ..
    | delete => exact hone ..
    | update => exact htwo ..
  | clr tid write =>
    cases write with
    | insert => exact hone ..
    | delete => exact hone ..
    | update record newRecord rid tableName =>
      refine (htwo newRecord record rid tableName).trans ?_
      simp only [GenLog.size, LoggedWrite.size]
      omega

/-- The constructors count the bytes that `serialize` writes. -/
theorem GenLog.record_valid {call : GenLog Int32} {lsn prevLsn : Int32}
    (h : (call.record lsn prevLsn).bytes.length ≤ logBufferSize) : (call.record lsn prevLsn).Valid := by
  have hbytes := call.record_bytes_length lsn prevLsn
  refine .of_body ?_ ?_ h
  · cases call with
    | fromWriteSet tid write => cases write <;> exact trivial
    | clr tid write => cases write <;> exact trivial
    | _ => exact trivial
  · rw [call.record_logTotLen, ← hbytes, LogRecord.bytes, List.length_append, LogHeader.bytes_length]

namespace LogManager

variable {m m' : LogManager} {call : GenLog Int32} {log : LogRecord Int32} {onDisk logs : List (LogRecord Int32)}

/-- The buffer has its size, and it and the file hold the bytes of the records. -/
structure Inv (m : LogManager) (onDisk logs : List (LogRecord Int32)) : Prop where
  buffer : m.buffer.length = logBufferSize + 1
  offset : m.offset ≤ logBufferSize
  file : m.file = logBytes onDisk
  stream : m.stream = logBytes logs
  valid : ∀ log ∈ logs, log.Valid
  sub : onDisk <+: logs

theorem Fits.valid (h : m.Fits call) : (m.recordOf call).Valid :=
  GenLog.record_valid ((Nat.le_add_left ..).trans h.2)

/-- A record that fits is added. -/
theorem addLogToBuffer_eq (hbuffer : m.buffer.length = logBufferSize + 1) (hvalid : log.Valid)
    (hsizes : log.body.EqualSizes) (hfits : m.offset + log.bytes.length ≤ logBufferSize) :
    ∃ rest, (m.buffer.take m.offset ++ log.bytes ++ rest).length = logBufferSize + 1 ∧
      m.addLogToBuffer log = some { m with
        buffer := m.buffer.take m.offset ++ log.bytes ++ rest
        offset := m.offset + log.bytes.length } := by
  have hfull : m.isFull log.logTotLen = false := by
    have hint := UInt32.toInt_toInt32 (hvalid.totLen.trans_lt hvalid.small)
    rw [isFull, hint, hvalid.totLen, decide_eq_false_iff_not]
    omega
  have htake : (m.buffer.take m.offset).length = m.offset := by
    rw [List.length_take]
    omega
  have hser := @LogRecord.serialize_eq (m.buffer.take m.offset) (m.buffer.drop m.offset) m.offset log hsizes htake
    (by rw [List.length_drop]; omega)
  rw [List.take_append_drop] at hser
  refine ⟨(m.buffer.drop m.offset).drop log.bytes.length, ?_, ?_⟩
  · simp only [List.length_append, htake, List.length_drop]
    omega
  · simp [addLogToBuffer, hfull, hser, hvalid.totLen]

/-- A record that fits is added behind the others, and the counters go on. -/
theorem Inv.genLog_state (hinv : m.Inv onDisk logs) (hfits : m.Fits call) :
    ∃ m', m.genLog call = some m' ∧ m'.Inv onDisk (logs ++ [m.recordOf call]) ∧ m'.globalLsn = m.globalLsn + 1 ∧
      m'.soFarLsn = call.soFarLsn m.globalLsn m.soFarLsn ∧ m'.offset = m.offset + call.size := by
  have hvalid := hfits.valid
  obtain ⟨rest, hlen, hadd⟩ := @addLogToBuffer_eq { m with globalLsn := m.globalLsn + 1 } (m.recordOf call)
    hinv.buffer hvalid hfits.1 hfits.2
  have hgen : m.genLog call = some {
      globalLsn := m.globalLsn + 1
      buffer := m.buffer.take m.offset ++ (m.recordOf call).bytes ++ rest
      offset := m.offset + (m.recordOf call).bytes.length
      file := m.file
      soFarLsn := call.soFarLsn m.globalLsn m.soFarLsn } := by
    rw [LogManager.genLog, hadd]
    rfl
  refine ⟨_, hgen, ⟨hlen, hfits.2, hinv.file, ?_, ?_, ?_⟩, rfl, rfl,
    congrArg (m.offset + ·) (call.record_bytes_length ..)⟩
  · have htake : (m.buffer.take m.offset).length = m.offset := by
      have hoffset := hinv.offset
      have hbuffer := hinv.buffer
      rw [List.length_take]
      omega
    have hstream : m.file ++ m.buffer.take m.offset = logBytes logs := hinv.stream
    show m.file ++ (m.buffer.take m.offset ++ (m.recordOf call).bytes ++ rest).take
      (m.offset + (m.recordOf call).bytes.length) = _
    rw [List.take_left' (by rw [List.length_append, htake]), ← List.append_assoc, hstream, logBytes_append, logBytes_cons,
      logBytes_nil, List.append_nil]
  · intro log hlog
    rcases List.mem_append.mp hlog with h | h
    · exact hinv.valid log h
    · exact List.mem_singleton.mp h ▸ hvalid
  · exact hinv.sub.trans (List.prefix_append ..)

theorem Inv.genLog (hinv : m.Inv onDisk logs) (hfits : m.Fits call) :
    ∃ m', m.genLog call = some m' ∧ m'.Inv onDisk (logs ++ [m.recordOf call]) := by
  obtain ⟨m', hgen, hinv', -⟩ := hinv.genLog_state hfits
  exact ⟨m', hgen, hinv'⟩

theorem Inv.flushLogToDisk (hinv : m.Inv onDisk logs) : m.flushLogToDisk.Inv logs logs := by
  refine ⟨hinv.buffer, Nat.zero_le _, hinv.stream, ?_, hinv.valid, List.prefix_refl _⟩
  show (m.file ++ m.buffer.take m.offset) ++ m.buffer.take 0 = logBytes logs
  rw [List.take_zero, List.append_nil]
  exact hinv.stream

theorem Inv.start {old : List (LogRecord Int32)} (hold : ∀ log ∈ old, log.Valid) (lsn : Int32) :
    (start lsn (logBytes old)).Inv old old :=
  ⟨by simp [LogManager.start], Nat.zero_le _, rfl, by simp [LogManager.stream, LogManager.start], hold, List.prefix_refl _⟩

end LogManager

-- ---------------------------------------------------------------------------
-- Runs
-- ---------------------------------------------------------------------------

/-- Any number of steps. -/
abbrev LogSteps := Relation.ReflTransGen LogStep

section

variable {m m' : LogManager} {onDisk logs onDisk' logs' : List (LogRecord Int32)}

/-- A step keeps the invariant, and no record is lost. -/
theorem LogStep.inv (hstep : LogStep (m, onDisk, logs) (m', onDisk', logs')) (hinv : m.Inv onDisk logs) :
    m'.Inv onDisk' logs' ∧ onDisk <+: onDisk' := by
  cases hstep with
  | append hfits hgen =>
    obtain ⟨m₁, hgen₁, hinv₁⟩ := hinv.genLog hfits
    cases hgen.symm.trans hgen₁
    exact ⟨hinv₁, List.prefix_refl _⟩
  | flush => exact ⟨hinv.flushLogToDisk, hinv.sub⟩

theorem LogSteps.inv (hsteps : LogSteps (m, onDisk, logs) (m', onDisk', logs')) (hinv : m.Inv onDisk logs) :
    m'.Inv onDisk' logs' ∧ onDisk <+: onDisk' ∧ logs <+: logs' := by
  generalize hend : (m', onDisk', logs') = e at hsteps
  induction hsteps generalizing m' onDisk' logs' with
  | refl =>
    cases hend
    exact ⟨hinv, List.prefix_refl _, List.prefix_refl _⟩
  | tail _ hstep ih =>
    rename_i b _ _
    obtain ⟨m₁, d₁, l₁⟩ := b
    obtain ⟨hinv₁, hd, hl⟩ := ih rfl
    subst hend
    obtain ⟨hinv', hd'⟩ := hstep.inv hinv₁
    refine ⟨hinv', hd.trans hd', hl.trans ?_⟩
    cases hstep with
    | append => exact List.prefix_append ..
    | flush => exact List.prefix_refl _

/-- Every record that is added has been in the buffer. -/
theorem LogSteps.fits (hsteps : LogSteps (m, onDisk, logs) (m', onDisk', logs'))
    (hfits : ∀ log ∈ logs, log.bytes.length ≤ logBufferSize) : ∀ log ∈ logs', log.bytes.length ≤ logBufferSize := by
  generalize hend : (m', onDisk', logs') = e at hsteps
  induction hsteps generalizing m' onDisk' logs' with
  | refl =>
    cases hend
    exact hfits
  | tail _ hstep ih =>
    subst hend
    cases hstep with
    | append hcall =>
      intro log hlog
      rcases List.mem_append.mp hlog with h | h
      · exact ih rfl log h
      · rw [List.mem_singleton.mp h]
        exact (Nat.le_add_left ..).trans hcall.2
    | flush => exact ih rfl

/-- What can be read back of the log is all of it, as long as the size of the file is an `int`. -/
theorem LogManager.Inv.readsExactly (hinv : m.Inv onDisk logs) (hfits : ∀ log ∈ logs, log.bytes.length ≤ logBufferSize)
    {s₁ s₂ : ReadState} (hs₁ : s₁.Starts) (hs₂ : s₂.Starts) (junk : Int → Nat → UInt8) :
    ReadsExactly m.stream logs s₁ s₂ junk ↔ m.stream.length < 2147483648 := by
  rw [hinv.stream]
  exact readsExactly_logBytes hinv.valid hfits hs₁ hs₂

end

/-- What was added to the log stands in the file and the buffer, record behind record. `analyze` and `redo`
read it back if and only if its size is an `int`. When the `flush_log_to_disk` of a commit returns, all that
was added until its `gen_log_commit` is in the file. -/
theorem log_round_trip {old : List (LogRecord Int32)} (hold : ∀ log ∈ old, log.Valid)
    (hfits : ∀ log ∈ old, log.bytes.length ≤ logBufferSize) {lsn : Int32} {m : LogManager}
    {onDisk logs : List (LogRecord Int32)} (hrun : LogSteps (.start lsn (logBytes old), old, old) (m, onDisk, logs))
    {s₁ s₂ : ReadState} (hs₁ : s₁.Starts) (hs₂ : s₂.Starts) (junk : Int → Nat → UInt8) :
    (∀ fuel > logs.length, cutLog fuel m.stream = some logs) ∧
    (ReadsExactly m.stream logs s₁ s₂ junk ↔ m.stream.length < 2147483648) ∧
    (∀ call, m.Fits call → ∃ m', m.genLog call = some m') ∧
    ∀ tid m₁ m₂ d₂ logs₂ m₃ d₃ logs₃, m.Fits (.commit tid) → m.genLog (.commit tid) = some m₁ →
      LogSteps (m₁, onDisk, logs ++ [m.recordOf (.commit tid)]) (m₂, d₂, logs₂) →
      LogSteps (m₂.flushLogToDisk, logs₂, logs₂) (m₃, d₃, logs₃) →
      logs ++ [m.recordOf (.commit tid)] <+: d₃ ∧ (∀ fuel > d₃.length, cutLog fuel m₃.file = some d₃) ∧
        (ReadsExactly m₃.file d₃ s₁ s₂ junk ↔ m₃.file.length < 2147483648) := by
  have hinv := (LogSteps.inv hrun (LogManager.Inv.start hold lsn)).1
  have hlogs := LogSteps.fits hrun hfits
  refine ⟨fun fuel hfuel => ?_, hinv.readsExactly hlogs hs₁ hs₂ junk, fun call hcall => ?_, ?_⟩
  · rw [hinv.stream]
    exact cutLog_logBytes hinv.valid hfuel
  · obtain ⟨m', hgen, -⟩ := hinv.genLog hcall
    exact ⟨m', hgen⟩
  · intro tid m₁ m₂ d₂ logs₂ m₃ d₃ logs₃ hcall hgen hsteps₂ hsteps₃
    have happend := @LogStep.append m m₁ onDisk logs _ hcall hgen
    obtain ⟨hinv₂, -, hlogs₂⟩ := LogSteps.inv hsteps₂ (happend.inv hinv).1
    obtain ⟨hinv₃, hlogs₃, -⟩ := LogSteps.inv hsteps₃ hinv₂.flushLogToDisk
    have hall : ∀ log ∈ d₃, log.bytes.length ≤ logBufferSize := fun log hlog =>
      LogSteps.fits hsteps₃ (LogSteps.fits hsteps₂ (LogSteps.fits (.single happend) hlogs)) log
        (hinv₃.sub.subset hlog)
    have hvalid : ∀ log ∈ d₃, log.Valid := fun log hlog => hinv₃.valid log (hinv₃.sub.subset hlog)
    refine ⟨hlogs₂.trans hlogs₃, fun fuel hfuel => ?_, ?_⟩
    · rw [hinv₃.file]
      exact cutLog_logBytes hvalid hfuel
    · rw [hinv₃.file]
      exact readsExactly_logBytes hvalid hall hs₁ hs₂

-- ---------------------------------------------------------------------------
-- Calls one after the other
-- ---------------------------------------------------------------------------

/-- The two images of an update are equally long. -/
def LoggedWrite.EqualSizes : LoggedWrite Int32 → Prop
  | update record newRecord _ _ => record.length = newRecord.length
  | _ => True

def GenLog.EqualSizes : GenLog Int32 → Prop
  | fromWriteSet _ write => write.EqualSizes
  | clr _ write => write.EqualSizes
  | _ => True

instance : (call : GenLog Int32) → Decidable call.EqualSizes
  | .fromWriteSet _ (.update record newRecord _ _) => inferInstanceAs (Decidable (record.length = newRecord.length))
  | .clr _ (.update record newRecord _ _) => inferInstanceAs (Decidable (record.length = newRecord.length))
  | .fromWriteSet _ (.insert ..) => inferInstanceAs (Decidable True)
  | .fromWriteSet _ (.delete ..) => inferInstanceAs (Decidable True)
  | .clr _ (.insert ..) => inferInstanceAs (Decidable True)
  | .clr _ (.delete ..) => inferInstanceAs (Decidable True)
  | .begin _ => inferInstanceAs (Decidable True)
  | .commit _ => inferInstanceAs (Decidable True)
  | .abort _ => inferInstanceAs (Decidable True)

/-- The records of calls that are made one after the other. -/
def GenLog.records (lsn : Int32) (soFar : Int32 → Int32) : List (GenLog Int32) → List (LogRecord Int32)
  | [] => []
  | call :: calls => call.record lsn (soFar call.tid) :: records (lsn + 1) (call.soFarLsn lsn soFar) calls

namespace LogManager

variable {m : LogManager} {onDisk logs : List (LogRecord Int32)} {call : GenLog Int32}

theorem fits_of_room (hsizes : call.EqualSizes) (hroom : m.offset + call.size ≤ logBufferSize) : m.Fits call := by
  refine ⟨?_, by rwa [recordOf, call.record_bytes_length]⟩
  cases call with
  | fromWriteSet tid write => cases write <;> first | exact trivial | exact Eq.symm hsizes
  | clr tid write => cases write <;> exact hsizes
  | _ => exact trivial

/-- Calls whose records fit into the buffer together return. -/
theorem Inv.calls {calls : List (GenLog Int32)} (hinv : m.Inv onDisk logs) (hsizes : ∀ call ∈ calls, call.EqualSizes)
    (hroom : m.offset + (calls.map GenLog.size).sum ≤ logBufferSize) :
    ∃ m', LogSteps (m, onDisk, logs) (m', onDisk, logs ++ GenLog.records m.globalLsn m.soFarLsn calls) := by
  induction calls generalizing m logs with
  | nil => exact ⟨m, by simpa [GenLog.records] using Relation.ReflTransGen.refl⟩
  | cons call calls ih =>
    rw [List.map_cons, List.sum_cons] at hroom
    have hfits : m.Fits call := fits_of_room (hsizes call List.mem_cons_self) (by omega)
    obtain ⟨m₁, hgen, hinv₁, hlsn, hsoFar, hoffset⟩ := hinv.genLog_state hfits
    obtain ⟨m', hrun⟩ := ih hinv₁ (fun c hc => hsizes c (List.mem_cons_of_mem _ hc)) (by omega)
    refine ⟨m', .head (.append hfits hgen) ?_⟩
    rw [List.append_assoc, hlsn, hsoFar] at hrun
    exact hrun

end LogManager

/-- What a process has written that stopped after a commit. -/
def firstRun : List (LogRecord Int32) := GenLog.records 1 (fun _ => -1)
  [.begin 1, .fromWriteSet 1 (.insert [1, 2, 3, 4] ⟨1, 0⟩ [116]), .commit 1]

/-- The calls of the next process: a transaction inserts a record, changes the one that is there and
deletes it, and another one starts. -/
def secondRun : List (GenLog Int32) :=
  [.begin 2, .fromWriteSet 2 (.insert [5, 6, 7, 8] ⟨1, 1⟩ [116]), .begin 3,
    .fromWriteSet 2 (.update [1, 2, 3, 4] [9, 9, 9, 9] ⟨1, 0⟩ [116]),
    .fromWriteSet 2 (.delete [9, 9, 9, 9] ⟨1, 0⟩ [116]), .commit 2]

/-- The log of both processes, with the images of the update. -/
theorem log_round_trip_reopened : ∃ m, LogSteps (.start 4 (logBytes firstRun), firstRun, firstRun)
      (m, firstRun, firstRun ++ GenLog.records 4 (fun _ => -1) secondRun) ∧
    ReadsExactly m.stream (firstRun ++ GenLog.records 4 (fun _ => -1) secondRun) .zeros .zeros fun _ _ => 0 := by
  have hfits : ∀ log ∈ firstRun, log.bytes.length ≤ logBufferSize := by decide +kernel
  have hvalid : ∀ log ∈ firstRun, log.Valid := by
    intro log hlog
    simp only [firstRun, GenLog.records, List.mem_cons, List.not_mem_nil, or_false] at hlog
    rcases hlog with rfl | rfl | rfl <;> exact GenLog.record_valid (by decide +kernel)
  have hinv := LogManager.Inv.start hvalid 4
  have hroom : 0 + (secondRun.map GenLog.size).sum ≤ logBufferSize := by decide
  have hsizes : ∀ call ∈ secondRun, call.EqualSizes := by decide
  obtain ⟨m, hrun⟩ := hinv.calls hsizes hroom
  refine ⟨m, hrun, ((log_round_trip hvalid hfits hrun ReadState.starts_zeros ReadState.starts_zeros _).2.1).mpr ?_⟩
  rw [(LogSteps.inv hrun hinv).1.stream]
  decide +kernel

/-- A log of any number of transactions that have begun. -/
theorem exists_begins (tid : Int32) (n : Nat) : ∃ m logs, LogSteps (.start 1 (logBytes []), [], []) (m, logs, logs) ∧
    m.offset = 0 ∧ (logBytes logs).length = 24 * n := by
  induction n with
  | zero => exact ⟨_, [], .refl, rfl, rfl⟩
  | succ n ih =>
    obtain ⟨m, logs, hrun, hoffset, hbytes⟩ := ih
    have hroom : 0 + 24 ≤ logBufferSize := by decide
    have hfits : m.Fits (.begin tid) := LogManager.fits_of_room trivial (by rwa [hoffset])
    obtain ⟨m', hgen, -⟩ := (LogSteps.inv hrun (LogManager.Inv.start (by simp) 1)).1.genLog hfits
    refine ⟨m'.flushLogToDisk, _, (hrun.tail (.append hfits hgen)).tail .flush, rfl, ?_⟩
    rw [logBytes_append, List.length_append, hbytes]
    rfl

/-- After so many `BEGIN` records that the file has `2 ^ 31` bytes, none of them is read any more. -/
theorem long_log_not_read : ∃ m logs, LogSteps (.start 1 (logBytes []), [], []) (m, logs, logs) ∧
    (logBytes logs).length = 24 * 89478486 ∧ ¬ ReadsExactly m.stream logs .zeros .zeros fun _ _ => 0 := by
  obtain ⟨m, logs, hrun, -, hbytes⟩ := exists_begins 1 89478486
  have hinv := (LogSteps.inv hrun (LogManager.Inv.start (by simp) 1)).1
  have hfits := LogSteps.fits hrun (by simp)
  refine ⟨m, logs, hrun, hbytes, fun hreads => ?_⟩
  have hsize := (hinv.readsExactly hfits ReadState.starts_zeros ReadState.starts_zeros _).mp hreads
  rw [hinv.stream, hbytes] at hsize
  exact absurd hsize (by decide)

end Rmdb
