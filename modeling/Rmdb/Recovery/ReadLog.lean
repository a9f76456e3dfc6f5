-- SUMMARY: The loops of recovery that read the log file, and when they read the records that are in it.
import Rmdb.Recovery.LogRecord

/-!
# Reading the log

`analyze` and `redo` of `log_recovery.cpp` go through the file record by record: they read a
header, and the length in it says where the next record starts. `analyze` remembers where the
records are and sets the counters; `redo` reads the whole record.

Both read the header into one buffer that they use again for the next header, and neither
looks at how many bytes `read_log` could read, as long as it is not zero. Memory from `new` has
any bytes in it: `junk` says which. The size of the file and the offsets into it are `int`s that
wrap around, so of a file of `2 ^ 31` bytes or more the end is never read.
-/

namespace Rmdb

-- ---------------------------------------------------------------------------
-- The code
-- ---------------------------------------------------------------------------

/-- `LOG_BUFFER_SIZE`. -/
def logBufferSize : Nat := 1024 * 4096

/-- The `int` that a number becomes. -/
def asInt (x : Int) : Int := (x + 2147483648) % 4294967296 - 2147483648

/-- `get_file_size`, an `int`. -/
def getFileSize (file : List UInt8) : Int := asInt file.length

/-- `DiskManager::read_log`, with the position of `log_fd_`: the number it returns, the buffer and the
position afterwards. `lseek` fails for a negative offset: the file is then read where the last read stopped. -/
def readLogAt (file : List UInt8) (pos : Nat) (logData : List UInt8) (size offset : Int) :
    Int × List UInt8 × Nat :=
  let fileSize := getFileSize file
  if fileSize < offset then (-1, logData, pos)
  else
    let size := min size (asInt (fileSize - offset))
    if size = 0 then (0, logData, pos)
    else
      let pos := if offset < 0 then pos else offset.toNat
      -- A negative size is a count that `read` refuses.
      if size < 0 then (-1, logData, pos)
      else
        let bytes := (file.drop pos).take size.toNat
        (bytes.length, bytes ++ logData.drop bytes.length, pos + bytes.length)

/-- The variables of the loops, and the position of `log_fd_`. -/
structure ReadState where
  logHdr : List UInt8
  offset : Int
  pos : Nat

/-- At the start of a loop. What the header buffer holds and where the file was read last is left open. -/
structure ReadState.Starts (s : ReadState) : Prop where
  offset : s.offset = 0
  logHdr : s.logHdr.length = 24

/-- One turn of the loop of `analyze`. -/
def analyzeTurn (file : List UInt8) (s : ReadState) : Option ReadState :=
  let (ret, logHdr, pos) := readLogAt file s.pos s.logHdr 24 s.offset
  if 0 < ret then
    let log := LogHeader.deserialize logHdr
    some ⟨logHdr, asInt (s.offset + log.logTotLen.toNat), pos⟩
  else none

/-- What `analyze` has gathered so far. -/
structure Analyzed (ι : Type) where
  offsetList : List Int
  lastLsn : ι
  lastTxn : ι
  deriving DecidableEq, Repr

namespace Analyzed

variable {ι : Type} [LT ι] [DecidableLT ι] [OfNat ι 0] [OfNat ι 1] [Add ι]

def init : Analyzed ι := ⟨[], 0, 0⟩

/-- The body of the loop, for the header at this offset. -/
def add (a : Analyzed ι) (offset : Int) (log : LogHeader ι) : Analyzed ι where
  offsetList := a.offsetList ++ [offset]
  lastLsn := log.lsn
  lastTxn := if a.lastTxn < log.logTid then log.logTid else a.lastTxn

/-- The records from this offset on, one after the other. -/
def addAll (a : Analyzed ι) (offset : Int) : List (LogRecord ι) → Analyzed ι
  | [] => a
  | log :: logs => (a.add offset log.toLogHeader).addAll (offset + log.logTotLen.toNat) logs

/-- The argument of `set_lsn`. -/
def nextLsn (a : Analyzed ι) : ι := a.lastLsn + 1

/-- The argument of `set_txn_id_num`. -/
def nextTxnId (a : Analyzed ι) : ι := a.lastTxn + 1

end Analyzed

/-- The loop of `analyze`. -/
def analyzeLoop (file : List UInt8) : Nat → ReadState → Analyzed Int32 → Option (Analyzed Int32)
  | 0, _, _ => none
  | fuel + 1, s, a =>
    match analyzeTurn file s with
    | some t => analyzeLoop file fuel t (a.add s.offset (LogHeader.deserialize t.logHdr))
    | none => some a

/-- The record that one iteration of `redo` works with. -/
def redoRecord (log : LogHeader Int32) (logBuf : List UInt8) : Option (LogRecord Int32) :=
  match log.logType with
  | .delete => deserializeOneImage logBuf
  | .clrInsert => deserializeOneImage logBuf
  | .insert => deserializeOneImage logBuf
  | .clrDelete => deserializeOneImage logBuf
  | .update => deserializeUpdate logBuf
  | .clrUpdate => deserializeUpdate logBuf
  | _ => some ⟨log, .none⟩

/-- What one turn of the loop of `redo` reads: the header, the whole record, and the variables afterwards. -/
def redoRead (file : List UInt8) (junk : Int → Nat → UInt8) (s : ReadState) :
    Option (LogHeader Int32 × List UInt8 × ReadState) :=
  let (ret, logHdr, pos) := readLogAt file s.pos s.logHdr 24 s.offset
  if 0 < ret then
    let log := LogHeader.deserialize logHdr
    let logBuf := (List.range log.logTotLen.toNat).map (junk s.offset)
    let (_, logBuf, pos) := readLogAt file pos logBuf (asInt log.logTotLen.toNat) s.offset
    some (log, logBuf, ⟨logHdr, asInt (s.offset + log.logTotLen.toNat), pos⟩)
  else none

/-- The loop of `redo`, with the records that it works with. -/
def redoLoop (file : List UInt8) (junk : Int → Nat → UInt8) :
    Nat → ReadState → Option (List (LogRecord Int32))
  | 0, _ => none
  | fuel + 1, s =>
    match redoRead file junk s with
    | some (log, logBuf, t) => do
      let record ← redoRecord log logBuf
      let records ← redoLoop file junk fuel t
      some (record :: records)
    | none => some []

/-- The records of a log of any size: it is cut at the lengths in the headers, and each piece is deserialized. -/
def cutLog : Nat → List UInt8 → Option (List (LogRecord Int32))
  | 0, _ => none
  | _ + 1, [] => some []
  | fuel + 1, bytes => do
    let log := LogHeader.deserialize bytes
    let record ← redoRecord log (bytes.take log.logTotLen.toNat)
    let records ← cutLog fuel (bytes.drop log.logTotLen.toNat)
    some (record :: records)

-- ---------------------------------------------------------------------------
-- A whole record
-- ---------------------------------------------------------------------------

/-- The bytes of a log. -/
def logBytes (logs : List (LogRecord Int32)) : List UInt8 := logs.flatMap LogRecord.bytes

@[simp] theorem logBytes_nil : logBytes [] = [] := rfl

@[simp] theorem logBytes_cons (log : LogRecord Int32) (logs : List (LogRecord Int32)) :
    logBytes (log :: logs) = log.bytes ++ logBytes logs := rfl

@[simp] theorem logBytes_append (logs logs' : List (LogRecord Int32)) :
    logBytes (logs ++ logs') = logBytes logs ++ logBytes logs' := List.flatMap_append

theorem length_le_logBytes (logs : List (LogRecord Int32)) : logs.length ≤ (logBytes logs).length := by
  induction logs with
  | nil => exact Nat.le_refl 0
  | cons log logs ih =>
    have hlen : 24 ≤ log.bytes.length := by simp [LogRecord.bytes]
    rw [logBytes_cons, List.length_append, List.length_cons]
    omega

section

variable {file front rest bs logData : List UInt8} {pos fuel : Nat} {log : LogRecord Int32}
  {s : ReadState} {a b : Analyzed Int32} {junk : Int → Nat → UInt8}

theorem asInt_of_lt {n : Nat} (h : n < 2147483648) : asInt n = n := by
  simp only [asInt]
  omega

theorem getFileSize_lt : getFileSize file < 2147483648 := by
  simp only [getFileSize, asInt]
  omega

theorem getFileSize_le : getFileSize file ≤ file.length := by
  simp only [getFileSize, asInt]
  omega

/-- The size of a file that is too long falls short by `2 ^ 32` or more. -/
theorem getFileSize_wrapped (h : 2147483648 ≤ file.length) : getFileSize file ≤ file.length - 4294967296 := by
  simp only [getFileSize, asInt]
  omega

theorem readLogAt_block (hsize : file.length < 2147483648) (hfile : file = front ++ (bs ++ rest)) (hbs : bs ≠ [])
    (hdata : logData.length = bs.length) :
    readLogAt file pos logData bs.length front.length = ((bs.length : Int), bs, front.length + bs.length) := by
  have hlen : file.length = front.length + (bs.length + rest.length) := by simp [hfile]
  have hpos := List.length_pos_iff.mpr hbs
  have hfs : getFileSize file = file.length := asInt_of_lt hsize
  have hdiff : asInt ((file.length : Int) - front.length) = (bs.length + rest.length : Nat) := by
    rw [show (file.length : Int) - front.length = (bs.length + rest.length : Nat) by omega]
    exact asInt_of_lt (by omega)
  have hmin : min (bs.length : Int) (bs.length + rest.length : Nat) = bs.length := by omega
  have hbytes : (file.drop front.length).take bs.length = bs := by
    rw [hfile, List.drop_left, List.take_left]
  simp only [readLogAt, hfs, hdiff, hmin]
  rw [if_neg (by omega), if_neg (by omega), if_neg (by omega), if_neg (by omega)]
  simp [hbytes, List.drop_of_length_le hdata.le]

/-- Something can be read only before what counts as the end of the file. -/
theorem offset_lt_of_readLogAt {size offset : Int} (h : 0 < (readLogAt file pos logData size offset).1) :
    offset < getFileSize file := by
  by_contra hpast
  rcases Int.lt_or_eq_of_le (not_lt.mp hpast) with hlt | heq
  · simp [readLogAt, hlt] at h
  · -- At the end the size is 0, or negative if that is what was asked for.
    simp only [readLogAt, heq, lt_irrefl, if_false, sub_self, show asInt 0 = 0 by decide] at h
    rcases Int.lt_or_eq_of_le (min_le_right size 0) with hneg | hzero
    · simp [hneg, hneg.ne] at h
    · simp [hzero] at h

/-- At the end of the file nothing can be read. -/
theorem readLogAt_end (hsize : file.length < 2147483648) :
    readLogAt file pos logData 24 file.length = (0, logData, pos) := by
  have hfs : getFileSize file = file.length := asInt_of_lt hsize
  simp [readLogAt, hfs, show asInt 0 = 0 by decide]

theorem LogRecord.Valid.ofCode_code (hvalid : log.Valid) : .ofCode log.logType.code = log.logType :=
  LogType.ofCode_code hvalid.body

theorem LogRecord.Valid.header (hvalid : log.Valid) : LogHeader.deserialize log.toLogHeader.bytes = log.toLogHeader := by
  have h := LogHeader.deserialize_bytes [] hvalid.ofCode_code
  rwa [List.append_nil] at h

/-- `redo` reads a record with the class that it was written with. -/
theorem LogRecord.Valid.redoRecord (hvalid : log.Valid) : redoRecord log.toLogHeader log.bytes = some log := by
  obtain ⟨⟨type, lsn, totLen, tid, prevLsn, undoNext⟩, body⟩ := log
  cases body with
  | none => cases type <;> first | exact hvalid.body.elim | rfl
  | value image rid tableName =>
    have h := deserializeOneImage_bytes hvalid rfl
    cases type <;> first | exact hvalid.body.elim | exact h
  | update oldValue newValue rid tableName =>
    have h := deserializeUpdate_bytes hvalid rfl
    cases type <;> first | exact hvalid.body.elim | exact h

theorem LogRecord.bytes_ne_nil : log.bytes ≠ [] := by
  intro h
  have hlen := congrArg List.length h
  simp [LogRecord.bytes] at hlen

theorem readLogAt_recordHeader (hsize : file.length < 2147483648) (hfile : file = front ++ (log.bytes ++ rest))
    (hhdr : logData.length = 24) :
    readLogAt file pos logData 24 front.length = (24, log.toLogHeader.bytes, front.length + 24) := by
  have hfile' : file = front ++ (log.toLogHeader.bytes ++ (log.body.bytes ++ rest)) := by
    rw [hfile, LogRecord.bytes, List.append_assoc]
  have h := @readLogAt_block _ _ _ _ logData pos hsize hfile' (List.ne_nil_of_length_eq_add_one log.toLogHeader.bytes_length)
    (hhdr.trans log.toLogHeader.bytes_length.symm)
  rwa [LogHeader.bytes_length] at h

/-- The header of a record that is there. -/
theorem analyzeTurn_record (hsize : file.length < 2147483648) (hvalid : log.Valid)
    (hfile : file = front ++ (log.bytes ++ rest)) (hs : s.offset = front.length) (hhdr : s.logHdr.length = 24) :
    analyzeTurn file s =
      some ⟨log.toLogHeader.bytes, (front ++ log.bytes).length, front.length + 24⟩ := by
  have hnext : asInt ((front.length : Int) + log.logTotLen.toNat) = (front ++ log.bytes).length := by
    rw [hvalid.totLen, ← Int.natCast_add, List.length_append]
    refine asInt_of_lt (lt_of_le_of_lt ?_ hsize)
    simp [hfile]
  simp only [analyzeTurn, hs, readLogAt_recordHeader hsize hfile hhdr, hvalid.header, hnext]
  rfl

/-- What `redo` reads of a record that is there. -/
theorem redoRead_record (hsize : file.length < 2147483648) (hvalid : log.Valid)
    (hfile : file = front ++ (log.bytes ++ rest)) (hs : s.offset = front.length) (hhdr : s.logHdr.length = 24) :
    redoRead file junk s = some (log.toLogHeader, log.bytes,
      ⟨log.toLogHeader.bytes, (front ++ log.bytes).length, (front ++ log.bytes).length⟩) := by
  have hlen : log.logTotLen.toNat = log.bytes.length := hvalid.totLen
  have hle : (front ++ log.bytes).length < 2147483648 := by
    refine lt_of_le_of_lt ?_ hsize
    simp [hfile]
  have hint : asInt (log.logTotLen.toNat : Int) = log.bytes.length := by
    rw [hlen]
    exact asInt_of_lt (by rw [List.length_append] at hle; omega)
  have hnext : asInt ((front.length : Int) + log.logTotLen.toNat) = (front ++ log.bytes).length := by
    rw [hlen, ← Int.natCast_add, ← List.length_append]
    exact asInt_of_lt hle
  have hbuf := @readLogAt_block file front rest log.bytes ((List.range log.logTotLen.toNat).map (junk front.length))
    (front.length + 24) hsize hfile LogRecord.bytes_ne_nil (by simp [hlen])
  rw [← hint, ← List.length_append] at hbuf
  simp only [redoRead, hs, readLogAt_recordHeader hsize hfile hhdr, hvalid.header, hbuf, hnext]
  rfl

/-- One iteration of `redo` over a record that is there. -/
theorem redoLoop_record (hsize : file.length < 2147483648) (hvalid : log.Valid)
    (hfile : file = front ++ (log.bytes ++ rest)) (hs : s.offset = front.length) (hhdr : s.logHdr.length = 24) :
    redoLoop file junk (fuel + 1) s = (redoLoop file junk fuel
      ⟨log.toLogHeader.bytes, (front ++ log.bytes).length, (front ++ log.bytes).length⟩).map (log :: ·) := by
  simp only [redoLoop, redoRead_record hsize hvalid hfile hs hhdr, hvalid.redoRecord]
  generalize redoLoop file junk fuel _ = records
  cases records with
  | none => rfl
  | some records => rfl

/-- Past the records that are there, `analyze` goes on with what follows them. -/
theorem analyzeLoop_records {logs : List (LogRecord Int32)} (hsize : file.length < 2147483648)
    (hvalid : ∀ log ∈ logs, log.Valid) (hfile : file = front ++ (logBytes logs ++ rest)) (hs : s.offset = front.length)
    (hhdr : s.logHdr.length = 24) : ∃ t : ReadState, t.offset = (front ++ logBytes logs).length ∧ t.logHdr.length = 24 ∧
      analyzeLoop file (fuel + logs.length) s a = analyzeLoop file fuel t (a.addAll front.length logs) := by
  induction logs generalizing front s a with
  | nil => exact ⟨s, by simpa using hs, hhdr, rfl⟩
  | cons log logs ih =>
    have hlog := hvalid log List.mem_cons_self
    rw [logBytes_cons, List.append_assoc] at hfile
    have hfile' : file = (front ++ log.bytes) ++ (logBytes logs ++ rest) := by rw [hfile, List.append_assoc]
    obtain ⟨t, ht, hhdr', hloop⟩ := @ih (front ++ log.bytes)
      ⟨log.toLogHeader.bytes, (front ++ log.bytes).length, front.length + 24⟩ (a.add front.length log.toLogHeader)
      (fun l hl => hvalid l (List.mem_cons_of_mem _ hl)) hfile' rfl (by simp)
    refine ⟨t, by rw [ht, logBytes_cons, List.append_assoc], hhdr', ?_⟩
    rw [List.length_cons, ← Nat.add_assoc, analyzeLoop, analyzeTurn_record hsize hlog hfile hs hhdr]
    simp only [hs, hlog.header]
    rw [hloop, Analyzed.addAll, hlog.totLen, List.length_append, Int.natCast_add]

/-- Past the records that are there, `redo` goes on with what follows them. -/
theorem redoLoop_records {logs : List (LogRecord Int32)} (hsize : file.length < 2147483648)
    (hvalid : ∀ log ∈ logs, log.Valid) (hfile : file = front ++ (logBytes logs ++ rest)) (hs : s.offset = front.length)
    (hhdr : s.logHdr.length = 24) : ∃ t : ReadState, t.offset = (front ++ logBytes logs).length ∧ t.logHdr.length = 24 ∧
      redoLoop file junk (fuel + logs.length) s = (redoLoop file junk fuel t).map (logs ++ ·) := by
  induction logs generalizing front s with
  | nil =>
    refine ⟨s, by simpa using hs, hhdr, ?_⟩
    simp
  | cons log logs ih =>
    have hlog := hvalid log List.mem_cons_self
    rw [logBytes_cons, List.append_assoc] at hfile
    have hfile' : file = (front ++ log.bytes) ++ (logBytes logs ++ rest) := by rw [hfile, List.append_assoc]
    obtain ⟨t, ht, hhdr', hloop⟩ := @ih (front ++ log.bytes)
      ⟨log.toLogHeader.bytes, (front ++ log.bytes).length, (front ++ log.bytes).length⟩
      (fun l hl => hvalid l (List.mem_cons_of_mem _ hl)) hfile' rfl (by simp)
    refine ⟨t, by rw [ht, logBytes_cons, List.append_assoc], hhdr', ?_⟩
    rw [List.length_cons, ← Nat.add_assoc, redoLoop_record hsize hlog hfile hs hhdr, hloop, Option.map_map]
    rfl

theorem analyzeLoop_end (hsize : file.length < 2147483648) (hs : s.offset = file.length) :
    analyzeLoop file (fuel + 1) s a = some a := by
  rw [analyzeLoop, analyzeTurn, hs, readLogAt_end hsize]
  rfl

theorem redoLoop_end (hsize : file.length < 2147483648) (hs : s.offset = file.length) :
    redoLoop file junk (fuel + 1) s = some [] := by
  rw [redoLoop, redoRead, hs, readLogAt_end hsize]
  rfl

/-- Of a file whose size has wrapped around to a negative number nothing is read. -/
theorem analyzeLoop_negative (hsize : getFileSize file < 0) (hs : s.offset = 0) :
    analyzeLoop file (fuel + 1) s a = some a := by
  have hturn : analyzeTurn file s = none := by
    simp [analyzeTurn, readLogAt, hs, hsize]
  rw [analyzeLoop, hturn]

/-- A file of whole records is read record by record. -/
theorem analyzeLoop_logBytes {logs : List (LogRecord Int32)} (hsize : (logBytes logs).length < 2147483648)
    (hvalid : ∀ log ∈ logs, log.Valid) (hs : s.offset = 0) (hhdr : s.logHdr.length = 24) (hfuel : logs.length < fuel) :
    analyzeLoop (logBytes logs) fuel s a = some (a.addAll 0 logs) := by
  obtain ⟨k, rfl⟩ : ∃ k, fuel = k + 1 + logs.length := ⟨fuel - logs.length - 1, by omega⟩
  obtain ⟨t, ht, -, hloop⟩ := @analyzeLoop_records (logBytes logs) [] [] (k + 1) s a logs hsize hvalid (by simp) hs hhdr
  rw [hloop, analyzeLoop_end hsize (by simpa using ht)]
  rfl

theorem redoLoop_logBytes {logs : List (LogRecord Int32)} (hsize : (logBytes logs).length < 2147483648)
    (hvalid : ∀ log ∈ logs, log.Valid) (hs : s.offset = 0) (hhdr : s.logHdr.length = 24) (hfuel : logs.length < fuel) :
    redoLoop (logBytes logs) junk fuel s = some logs := by
  obtain ⟨k, rfl⟩ : ∃ k, fuel = k + 1 + logs.length := ⟨fuel - logs.length - 1, by omega⟩
  obtain ⟨t, ht, -, hloop⟩ := @redoLoop_records (logBytes logs) [] [] (k + 1) s junk logs hsize hvalid (by simp) hs hhdr
  rw [hloop, redoLoop_end hsize (by simpa using ht)]
  simp

/-- The pieces of a log are its records. -/
theorem cutLog_logBytes {logs : List (LogRecord Int32)} (hvalid : ∀ log ∈ logs, log.Valid) (hfuel : logs.length < fuel) :
    cutLog fuel (logBytes logs) = some logs := by
  induction logs generalizing fuel with
  | nil =>
    obtain ⟨k, rfl⟩ : ∃ k, fuel = k + 1 := ⟨fuel - 1, by simp at hfuel; omega⟩
    rfl
  | cons log logs ih =>
    obtain ⟨k, rfl⟩ : ∃ k, fuel = k + 1 := ⟨fuel - 1, by omega⟩
    have hlog := hvalid log List.mem_cons_self
    have hhdr : LogHeader.deserialize (log.bytes ++ logBytes logs) = log.toLogHeader := by
      rw [LogRecord.bytes, List.append_assoc]
      exact LogHeader.deserialize_bytes _ hlog.ofCode_code
    rw [logBytes_cons, cutLog.eq_3 _ _ (by simp [LogRecord.bytes_ne_nil])]
    simp only [hhdr, hlog.totLen, List.take_left, List.drop_left, hlog.redoRecord,
      ih (fun l hl => hvalid l (List.mem_cons_of_mem _ hl)) (Nat.lt_of_succ_lt_succ hfuel)]
    rfl

theorem analyzeLoop_mono (h : analyzeLoop file fuel s a = some b) (k : Nat) :
    analyzeLoop file (fuel + k) s a = some b := by
  induction fuel generalizing s a with
  | zero => cases h
  | succ fuel ih =>
    rw [Nat.add_right_comm]
    simp only [analyzeLoop] at h ⊢
    cases hturn : analyzeTurn file s with
    | none => rwa [hturn] at h
    | some t =>
      rw [hturn] at h
      exact ih h

/-- `analyze` goes on from one turn to the next. -/
theorem analyzeLoop_turn {t : ReadState} (h : analyzeLoop file fuel s a = some b) (hturn : analyzeTurn file s = some t) :
    ∃ fuel', analyzeLoop file fuel' t (a.add s.offset (LogHeader.deserialize t.logHdr)) = some b := by
  cases fuel with
  | zero => cases h
  | succ fuel =>
    rw [analyzeLoop, hturn] at h
    exact ⟨fuel, h⟩

/-- `analyze` takes no record back. -/
theorem analyzeLoop_length (h : analyzeLoop file fuel s a = some b) : a.offsetList.length ≤ b.offsetList.length := by
  induction fuel generalizing s a with
  | zero => cases h
  | succ fuel ih =>
    rw [analyzeLoop] at h
    cases hturn : analyzeTurn file s with
    | none =>
      rw [hturn] at h
      exact (congrArg (fun a => a.offsetList.length) (Option.some.inj h)).le
    | some t =>
      rw [hturn] at h
      have hle := ih h
      simp only [Analyzed.add, List.length_append, List.length_singleton] at hle
      omega

/-- The offsets at which `analyze` sees records lie before what counts as the end of the file. -/
theorem analyzeLoop_offsets (h : analyzeLoop file fuel s a = some b)
    (ha : ∀ offset ∈ a.offsetList, offset < getFileSize file) : ∀ offset ∈ b.offsetList, offset < getFileSize file := by
  induction fuel generalizing s a with
  | zero => cases h
  | succ fuel ih =>
    rw [analyzeLoop] at h
    cases hturn : analyzeTurn file s with
    | none =>
      rw [hturn] at h
      exact Option.some.inj h ▸ ha
    | some t =>
      rw [hturn] at h
      refine ih h fun offset hoffset => ?_
      rcases List.mem_append.mp hoffset with hoffset | hoffset
      · exact ha offset hoffset
      · rw [List.mem_singleton.mp hoffset]
        refine @offset_lt_of_readLogAt file s.logHdr s.pos 24 s.offset ?_
        by_contra hret
        simp [analyzeTurn, hret] at hturn

/-- The offset of the last record. -/
theorem Analyzed.mem_addAll {logs : List (LogRecord Int32)} (hvalid : ∀ log ∈ logs, log.Valid) {offset : Int} :
    (∀ o ∈ a.offsetList, o ∈ (a.addAll offset logs).offsetList) ∧
      ∀ front log, logs = front ++ [log] → offset + (logBytes front).length ∈ (a.addAll offset logs).offsetList := by
  induction logs generalizing a offset with
  | nil => exact ⟨fun o ho => ho, fun front log h => by simp at h⟩
  | cons log logs ih =>
    obtain ⟨hold, hlast⟩ := @ih (a.add offset log.toLogHeader) (fun l hl => hvalid l (List.mem_cons_of_mem _ hl))
      (offset + log.logTotLen.toNat)
    refine ⟨fun o ho => hold o (List.mem_append_left _ ho), fun front last heq => ?_⟩
    cases front with
    | nil =>
      obtain ⟨rfl, rfl⟩ := List.cons.inj heq
      simp [Analyzed.addAll, Analyzed.add]
    | cons first front =>
      obtain ⟨rfl, rfl⟩ := List.cons.inj heq
      have h := hlast front last rfl
      rw [Analyzed.addAll, logBytes_cons, List.length_append, Int.natCast_add, ← add_assoc,
        ← (hvalid log List.mem_cons_self).totLen]
      exact h

/-- Where there is a byte, `analyze` sees a record. -/
theorem analyzeLoop_more (hsize : file.length < 2147483648) (h : analyzeLoop file fuel s a = some b) {offset : Nat}
    (hs : s.offset = offset) (hlt : offset < file.length) : a.offsetList.length < b.offsetList.length := by
  obtain ⟨t, hturn⟩ : ∃ t, analyzeTurn file s = some t := by
    have hfs : getFileSize file = file.length := asInt_of_lt hsize
    have hdiff : asInt ((file.length : Int) - offset) = (file.length - offset : Nat) := by
      rw [← Int.natCast_sub hlt.le]
      exact asInt_of_lt (by omega)
    have hret : 0 < (readLogAt file s.pos s.logHdr 24 s.offset).1 := by
      simp only [readLogAt, hs, hfs, hdiff]
      rw [if_neg (by omega), if_neg (by omega), if_neg (by omega), if_neg (by omega)]
      simp only [List.length_take, List.length_drop]
      omega
    simp [analyzeTurn, hret]
  obtain ⟨fuel', hloop⟩ := analyzeLoop_turn h hturn
  have hle := analyzeLoop_length hloop
  simp only [Analyzed.add, List.length_append, List.length_singleton] at hle
  omega

end

-- ---------------------------------------------------------------------------
-- A log that was cut
-- ---------------------------------------------------------------------------

/-- The records that lie completely inside the first `k` bytes of a log. -/
def completeIn : Nat → List (LogRecord Int32) → List (LogRecord Int32)
  | _, [] => []
  | k, log :: logs => if log.bytes.length ≤ k then log :: completeIn (k - log.bytes.length) logs else []

/-- The first `k` bytes of a log end where a record ends. -/
def AtBoundary (logs : List (LogRecord Int32)) (k : Nat) : Prop := ∃ n, k = (logBytes (logs.take n)).length

/-- `analyze` and `redo` work with these records of the file and no others. `s₁`, `s₂` and `junk` are what
is in their variables and buffers before. -/
def ReadsExactly (file : List UInt8) (logs : List (LogRecord Int32)) (s₁ s₂ : ReadState)
    (junk : Int → Nat → UInt8) : Prop :=
  (∃ fuel, analyzeLoop file fuel s₁ .init = some (Analyzed.init.addAll 0 logs)) ∧
    ∃ fuel, redoLoop file junk fuel s₂ = some logs

section

variable {logs : List (LogRecord Int32)} {k : Nat} {s₁ s₂ : ReadState} {junk : Int → Nat → UInt8}

theorem completeIn_eq_take : ∃ n, completeIn k logs = logs.take n := by
  induction logs generalizing k with
  | nil => exact ⟨0, rfl⟩
  | cons log logs ih =>
    simp only [completeIn]
    split
    · obtain ⟨n, hn⟩ := @ih (k - log.bytes.length)
      exact ⟨n + 1, by rw [hn, List.take_succ_cons]⟩
    · exact ⟨0, rfl⟩

/-- The cut log is its complete records and a rest that is shorter than a record. -/
theorem take_eq_completeIn {n : Nat} (hfits : ∀ log ∈ logs, log.bytes.length ≤ n) :
    ∃ rest, (logBytes logs).take k = logBytes (completeIn k logs) ++ rest ∧ rest.length ≤ n := by
  induction logs generalizing k with
  | nil => exact ⟨[], by simp [completeIn], Nat.zero_le n⟩
  | cons log logs ih =>
    simp only [completeIn]
    split
    · rename_i hle
      obtain ⟨rest, hrest, hlen⟩ := @ih (k - log.bytes.length) fun l hl => hfits l (List.mem_cons_of_mem _ hl)
      refine ⟨rest, ?_, hlen⟩
      rw [logBytes_cons, logBytes_cons, List.take_append, List.take_of_length_le hle, hrest, List.append_assoc]
    · rename_i hlt
      refine ⟨_, rfl, ?_⟩
      have hlog := hfits log List.mem_cons_self
      rw [List.length_take]
      omega

/-- At the end of a record, the complete records are all of the cut log. -/
theorem logBytes_completeIn (h : AtBoundary logs k) : (logBytes (completeIn k logs)).length = k := by
  induction logs generalizing k with
  | nil =>
    obtain ⟨n, rfl⟩ := h
    simp [completeIn]
  | cons log logs ih =>
    obtain ⟨n, rfl⟩ := h
    cases n with
    | zero =>
      have hpos : ¬ log.bytes.length ≤ 0 := by
        simp only [LogRecord.bytes, List.length_append, LogHeader.bytes_length]
        omega
      simp [completeIn, hpos]
    | succ n =>
      simp only [List.take_succ_cons, logBytes_cons, List.length_append, completeIn]
      rw [if_pos (by omega), Nat.add_sub_cancel_left, logBytes_cons, List.length_append, ih ⟨n, rfl⟩]

theorem mem_of_mem_completeIn {log : LogRecord Int32} (h : log ∈ completeIn k logs) : log ∈ logs := by
  obtain ⟨n, hn⟩ := @completeIn_eq_take logs k
  rw [hn] at h
  exact List.mem_of_mem_take h

theorem completeIn_valid (hvalid : ∀ log ∈ logs, log.Valid) : ∀ log ∈ completeIn k logs, log.Valid :=
  fun log hlog => hvalid log (mem_of_mem_completeIn hlog)

theorem completeIn_fits {n : Nat} (hfits : ∀ log ∈ logs, log.bytes.length ≤ n) :
    ∀ log ∈ completeIn k logs, log.bytes.length ≤ n :=
  fun log hlog => hfits log (mem_of_mem_completeIn hlog)

/-- A rest is taken for one more record. -/
theorem not_readsExactly (hvalid : ∀ log ∈ logs, log.Valid) {rest : List UInt8} (hrest : rest ≠ [])
    (hsize : (logBytes logs ++ rest).length < 2147483648) (hs : s₁.Starts) :
    ¬ ReadsExactly (logBytes logs ++ rest) logs s₁ s₂ junk := by
  rintro ⟨⟨fuel, h⟩, -⟩
  have hmono := analyzeLoop_mono h logs.length
  obtain ⟨t, ht, -, hloop⟩ := @analyzeLoop_records (logBytes logs ++ rest) [] rest fuel s₁ .init logs hsize hvalid
    (by simp) (by simpa using hs.offset) hs.logHdr
  rw [hloop, show (([] : List UInt8).length : Int) = 0 from rfl] at hmono
  have hpos := List.length_pos_iff.mpr hrest
  rw [List.nil_append] at ht
  exact absurd (analyzeLoop_more hsize hmono ht (by simp; omega)) (lt_irrefl _)

/-- Of a log file that is too long, the last record lies past what counts as its end. -/
theorem not_readsExactly_wrapped {rest : List UInt8} (hvalid : ∀ log ∈ logs, log.Valid)
    (hfits : ∀ log ∈ logs, log.bytes.length ≤ logBufferSize) (hrest : rest.length ≤ logBufferSize)
    (hsize : 2147483648 ≤ (logBytes logs ++ rest).length) : ¬ ReadsExactly (logBytes logs ++ rest) logs s₁ s₂ junk := by
  rintro ⟨⟨fuel, h⟩, -⟩
  have hend := getFileSize_wrapped hsize
  have hbuf : logBufferSize = 4194304 := rfl
  rcases List.eq_nil_or_concat logs with rfl | ⟨front, log, rfl⟩
  · simp only [logBytes_nil, List.nil_append] at hsize
    omega
  · have hlast := (@Analyzed.mem_addAll .init _ hvalid 0).2 front log List.concat_eq_append
    have hoffset := analyzeLoop_offsets h (fun o ho => absurd ho List.not_mem_nil) _ hlast
    have hlog := hfits log (by simp)
    simp only [List.concat_eq_append, logBytes_append, logBytes_cons, logBytes_nil, List.length_append,
      List.append_nil] at hend hoffset
    omega

/-- A whole log is read if and only if its size is an `int`. -/
theorem readsExactly_logBytes (hvalid : ∀ log ∈ logs, log.Valid) (hfits : ∀ log ∈ logs, log.bytes.length ≤ logBufferSize)
    (hs₁ : s₁.Starts) (hs₂ : s₂.Starts) :
    ReadsExactly (logBytes logs) logs s₁ s₂ junk ↔ (logBytes logs).length < 2147483648 := by
  constructor
  · intro hreads
    by_contra hlong
    rw [← List.append_nil (logBytes logs)] at hlong hreads
    refine not_readsExactly_wrapped hvalid hfits ?_ (not_lt.mp hlong) hreads
    exact Nat.zero_le logBufferSize
  · intro hsize
    exact ⟨⟨_, analyzeLoop_logBytes hsize hvalid hs₁.offset hs₁.logHdr (Nat.lt_succ_self _)⟩,
      ⟨_, redoLoop_logBytes hsize hvalid hs₂.offset hs₂.logHdr (Nat.lt_succ_self _)⟩⟩

end

/-- A log that was cut anywhere is read as its complete records if and only if it was cut between
two records, and its size is an `int`. Each record has been in the log buffer. -/
theorem torn_log {logs : List (LogRecord Int32)} (hvalid : ∀ log ∈ logs, log.Valid)
    (hfits : ∀ log ∈ logs, log.bytes.length ≤ logBufferSize) {k : Nat} (hk : k ≤ (logBytes logs).length)
    {s₁ s₂ : ReadState} (hs₁ : s₁.Starts) (hs₂ : s₂.Starts) (junk : Int → Nat → UInt8) :
    ReadsExactly ((logBytes logs).take k) (completeIn k logs) s₁ s₂ junk ↔
      AtBoundary logs k ∧ k < 2147483648 := by
  obtain ⟨rest, hrest, hshort⟩ := @take_eq_completeIn logs k _ hfits
  have hlen : k = (logBytes (completeIn k logs) ++ rest).length := by
    have h := congrArg List.length hrest
    rwa [List.length_take, Nat.min_eq_left hk] at h
  have hcomplete := @completeIn_valid logs k hvalid
  rw [hrest]
  constructor
  · intro hreads
    have hsize : k < 2147483648 := by
      by_contra hlong
      exact not_readsExactly_wrapped hcomplete (completeIn_fits hfits) hshort (by omega) hreads
    obtain rfl : rest = [] := by
      by_contra hne
      exact not_readsExactly hcomplete hne (by omega) hs₁ hreads
    obtain ⟨n, hn⟩ := @completeIn_eq_take logs k
    refine ⟨⟨n, ?_⟩, hsize⟩
    rw [← hn]
    simpa using hlen
  · rintro ⟨hbound, hsize⟩
    have hall := logBytes_completeIn hbound
    obtain rfl : rest = [] := List.length_eq_zero_iff.mp (by rw [List.length_append, hall] at hlen; omega)
    rw [List.append_nil]
    exact (readsExactly_logBytes hcomplete (completeIn_fits hfits) hs₁ hs₂).mpr (by omega)

/-- A transaction that has begun and committed. -/
def twoRecords : List (LogRecord Int32) := [.beginLogRecord 0 (-1) 1, .commitLogRecord 1 0 1]

theorem twoRecords_valid : ∀ log ∈ twoRecords, log.Valid := by
  intro log hlog
  simp only [twoRecords, List.mem_cons, List.not_mem_nil, or_false] at hlog
  obtain rfl | rfl := hlog
  · exact ⟨trivial, rfl, by decide⟩
  · exact ⟨trivial, rfl, by decide⟩

theorem twoRecords_fit : ∀ log ∈ twoRecords, log.bytes.length ≤ logBufferSize := by
  decide +kernel

/-- Before the loops, with a buffer of zeros. -/
def ReadState.zeros : ReadState := ⟨List.replicate 24 0, 0, 0⟩

theorem ReadState.starts_zeros : ReadState.zeros.Starts := ⟨rfl, rfl⟩

/-- The whole log, which is cut nowhere. -/
theorem torn_log_whole : ReadsExactly ((logBytes twoRecords).take 48) (completeIn 48 twoRecords) .zeros .zeros
    fun _ _ => 0 :=
  (torn_log twoRecords_valid twoRecords_fit (by decide +kernel) ReadState.starts_zeros ReadState.starts_zeros _).mpr
    ⟨⟨2, by decide +kernel⟩, by decide⟩

/-- Four bytes of the `COMMIT` have reached the disk. The rest of its header is taken from the `BEGIN`
before it, and `redo` takes the transaction for committed. -/
theorem torn_log_commit :
    redoLoop ((logBytes twoRecords).take 28) (fun _ _ => 0) 3 .zeros =
      some [.beginLogRecord 0 (-1) 1, .commitLogRecord 0 (-1) 1] ∧
    ¬ ReadsExactly ((logBytes twoRecords).take 28) (completeIn 28 twoRecords) .zeros .zeros fun _ _ => 0 := by
  constructor
  · decide +kernel
  · have hcut : (logBytes twoRecords).take 28 = logBytes (completeIn 28 twoRecords) ++ [4, 0, 0, 0] := by
      decide +kernel
    rw [hcut]
    exact not_readsExactly (completeIn_valid twoRecords_valid) (by decide) (by decide +kernel)
      ReadState.starts_zeros

end Rmdb
