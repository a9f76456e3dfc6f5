-- SUMMARY: Log records: their constructors, how they are laid out in bytes, and that reading the bytes gives them back.
import Rmdb.Common.Bytes

/-!
# Log records

The classes of `log_manager.h`. All records have the header of `LogRecord`; the records of
inserts, deletes and updates have a body behind it. `log_tot_len_` is computed by the
constructors, and `serialize` and `deserialize` compute the offsets of the body on their own.

Log sequence numbers, transaction ids and the two numbers of a rid are `int32_t`. They are a
parameter `ι` here: the bytes are about `Int32`, and what is said about the counters
themselves is said about `Int`.
-/

namespace Rmdb

/-- `LogType`. A header that is read from the file may hold a number that is no enumerator. -/
inductive LogType where
  | update
  | insert
  | delete
  | begin
  | commit
  | abort
  | clrUpdate
  | clrInsert
  | clrDelete
  | createIndex
  | other (code : UInt32)
  deriving DecidableEq, Repr

namespace LogType

def code : LogType → UInt32
  | update => 0
  | insert => 1
  | delete => 2
  | begin => 3
  | commit => 4
  | abort => 5
  | clrUpdate => 6
  | clrInsert => 7
  | clrDelete => 8
  | createIndex => 9
  | other code => code

def ofCode (code : UInt32) : LogType :=
  match code.toNat with
  | 0 => update
  | 1 => insert
  | 2 => delete
  | 3 => begin
  | 4 => commit
  | 5 => abort
  | 6 => clrUpdate
  | 7 => clrInsert
  | 8 => clrDelete
  | 9 => createIndex
  | _ => other code

/-- `setCLR`. It is only called on records of the first three types; any other one trips its assertion. -/
def setCLR : LogType → LogType
  | update => clrUpdate
  | delete => clrInsert
  | insert => clrDelete
  | type => type

end LogType

/-- The fields of `LogRecord`. -/
structure LogHeader (ι : Type) where
  logType : LogType
  lsn : ι
  logTotLen : UInt32
  logTid : ι
  prevLsn : ι
  undoNext : ι
  deriving DecidableEq, Repr

/-- `rid_` of a log record. -/
structure LogRid (ι : Type) where
  pageNo : ι
  slotNo : ι
  deriving DecidableEq, Repr

/-- What the derived classes add: nothing, the fields of `InsertLogRecord` and of
`DeleteLogRecord`, which are the same, or those of `UpdateLogRecord`. -/
inductive LogBody (ι : Type) where
  | none
  | value (value : RmRecord) (rid : LogRid ι) (tableName : List UInt8)
  | update (oldValue newValue : RmRecord) (rid : LogRid ι) (tableName : List UInt8)
  deriving DecidableEq, Repr

structure LogRecord (ι : Type) extends LogHeader ι where
  body : LogBody ι
  deriving DecidableEq, Repr

-- ---------------------------------------------------------------------------
-- Constructors
-- ---------------------------------------------------------------------------

namespace LogRecord

variable {ι : Type} [Neg ι] [OfNat ι 1]

/-- The records that are a header only. -/
def headerOnly (logType : LogType) (lsn prevLsn tid : ι) : LogRecord ι :=
  ⟨⟨logType, lsn, 24, tid, prevLsn, -1⟩, .none⟩

def beginLogRecord : ι → ι → ι → LogRecord ι := headerOnly .begin

def commitLogRecord : ι → ι → ι → LogRecord ι := headerOnly .commit

def abortLogRecord : ι → ι → ι → LogRecord ι := headerOnly .abort

/-- The records with one image. `log_tot_len_` is a `uint32_t`. -/
def oneImage (logType : LogType) (tid : ι) (value : RmRecord) (rid : LogRid ι) (tableName : List UInt8) :
    LogRecord ι :=
  ⟨⟨logType, -1, UInt32.ofNat (24 + 4 + value.length + 8 + (8 + tableName.length)), tid, -1, -1⟩,
    .value value rid tableName⟩

def insertLogRecord : ι → RmRecord → LogRid ι → List UInt8 → LogRecord ι := oneImage .insert

def deleteLogRecord : ι → RmRecord → LogRid ι → List UInt8 → LogRecord ι := oneImage .delete

def updateLogRecord (tid : ι) (oldValue newValue : RmRecord) (rid : LogRid ι) (tableName : List UInt8) :
    LogRecord ι :=
  ⟨⟨.update, -1,
      UInt32.ofNat (24 + 4 + oldValue.length + 4 + newValue.length + 8 + (8 + tableName.length)), tid, -1, -1⟩,
    .update oldValue newValue rid tableName⟩

def setCLR (log : LogRecord ι) : LogRecord ι := { log with logType := log.logType.setCLR }

end LogRecord

-- ---------------------------------------------------------------------------
-- Serialization
-- ---------------------------------------------------------------------------

/-- The bytes of a `Rid`. -/
def LogRid.bytes (rid : LogRid Int32) : List UInt8 := int32Bytes rid.pageNo ++ int32Bytes rid.slotNo

/-- `LogRecord::serialize`, to the position `base` of the buffer `dest`. -/
def LogHeader.serialize (log : LogHeader Int32) (dest : List UInt8) (base : Nat) : List UInt8 :=
  let dest := memcpy dest (base + 0) (uint32Bytes log.logType.code) 4
  let dest := memcpy dest (base + 4) (int32Bytes log.lsn) 4
  let dest := memcpy dest (base + 8) (uint32Bytes log.logTotLen) 4
  let dest := memcpy dest (base + 12) (int32Bytes log.logTid) 4
  let dest := memcpy dest (base + 16) (int32Bytes log.prevLsn) 4
  memcpy dest (base + 20) (int32Bytes log.undoNext) 4

/-- The end that all bodies share: the rid and the name of the table. -/
def serializePlace (rid : LogRid Int32) (tableName dest : List UInt8) (base offset : Nat) : List UInt8 :=
  let dest := memcpy dest (base + offset) rid.bytes 8
  let offset := offset + 8
  let dest := memcpy dest (base + offset) (writeUnsigned 8 tableName.length) 8
  let offset := offset + 8
  memcpy dest (base + offset) tableName tableName.length

def LogBody.serialize (body : LogBody Int32) (dest : List UInt8) (base : Nat) : List UInt8 :=
  match body with
  | .none => dest
  | .value image rid tableName =>
    let offset := 24
    let dest := memcpy dest (base + offset) (writeUnsigned 4 image.length) 4
    let offset := offset + 4
    let dest := memcpy dest (base + offset) image image.length
    let offset := offset + image.length
    serializePlace rid tableName dest base offset
  | .update oldValue newValue rid tableName =>
    let offset := 24
    let dest := memcpy dest (base + offset) (writeUnsigned 4 oldValue.length) 4
    let offset := offset + 4
    let dest := memcpy dest (base + offset) oldValue oldValue.length
    let offset := offset + oldValue.length
    let dest := memcpy dest (base + offset) (writeUnsigned 4 newValue.length) 4
    let offset := offset + 4
    -- The length of the old image.
    let dest := memcpy dest (base + offset) newValue oldValue.length
    let offset := offset + newValue.length
    serializePlace rid tableName dest base offset

def LogRecord.serialize (log : LogRecord Int32) (dest : List UInt8) (base : Nat) : List UInt8 :=
  log.body.serialize (log.toLogHeader.serialize dest base) base

-- ---------------------------------------------------------------------------
-- Deserialization
-- ---------------------------------------------------------------------------

/-- `LogRecord::deserialize`. -/
def LogHeader.deserialize (src : List UInt8) : LogHeader Int32 where
  logType := .ofCode (readUInt32 (slice src 0 4))
  lsn := readInt32 (slice src 4 4)
  logTotLen := readUInt32 (slice src 8 4)
  logTid := readInt32 (slice src 12 4)
  prevLsn := readInt32 (slice src 16 4)
  undoNext := readInt32 (slice src 20 4)

/-- `RmRecord::Deserialize`. The size is an `int`, and `new char[size]` throws if it is negative. -/
def deserializeImage (src : List UInt8) (offset : Nat) : Option RmRecord :=
  let size := readUnsigned (slice src offset 4)
  if size < 2147483648 then some (slice src (offset + 4) size) else none

/-- The rid and the name of the table at the end of a body. -/
def deserializePlace (src : List UInt8) (offset : Nat) : LogRid Int32 × List UInt8 :=
  let rid := ⟨readInt32 (slice src offset 4), readInt32 (slice src (offset + 4) 4)⟩
  let offset := offset + 8
  let size := readUnsigned (slice src offset 8)
  let offset := offset + 8
  (rid, slice src offset size)

/-- `InsertLogRecord::deserialize` and `DeleteLogRecord::deserialize`. -/
def deserializeOneImage (src : List UInt8) : Option (LogRecord Int32) := do
  let value ← deserializeImage src 24
  let offset := 24 + value.length + 4
  let (rid, tableName) := deserializePlace src offset
  some ⟨.deserialize src, .value value rid tableName⟩

/-- `UpdateLogRecord::deserialize`. -/
def deserializeUpdate (src : List UInt8) : Option (LogRecord Int32) := do
  let oldValue ← deserializeImage src 24
  let offset := 24 + 4 + oldValue.length
  let newValue ← deserializeImage src offset
  let offset := offset + (4 + newValue.length)
  let (rid, tableName) := deserializePlace src offset
  some ⟨.deserialize src, .update oldValue newValue rid tableName⟩

-- ---------------------------------------------------------------------------
-- The layout
-- ---------------------------------------------------------------------------

def LogHeader.bytes (log : LogHeader Int32) : List UInt8 :=
  uint32Bytes log.logType.code ++ (int32Bytes log.lsn ++ (uint32Bytes log.logTotLen ++
    (int32Bytes log.logTid ++ (int32Bytes log.prevLsn ++ int32Bytes log.undoNext))))

def placeBytes (rid : LogRid Int32) (tableName : List UInt8) : List UInt8 :=
  rid.bytes ++ (writeUnsigned 8 tableName.length ++ tableName)

def imageBytes (image : RmRecord) : List UInt8 := writeUnsigned 4 image.length ++ image

def LogBody.bytes : LogBody Int32 → List UInt8
  | .none => []
  | .value image rid tableName => imageBytes image ++ placeBytes rid tableName
  | .update oldValue newValue rid tableName => imageBytes oldValue ++ (imageBytes newValue ++ placeBytes rid tableName)

/-- The bytes of a record, as the comments of `log_manager.h` draw them. -/
def LogRecord.bytes (log : LogRecord Int32) : List UInt8 := log.toLogHeader.bytes ++ log.body.bytes

@[simp] theorem LogRid.bytes_length (rid : LogRid Int32) : rid.bytes.length = 8 := by simp [bytes]

@[simp] theorem LogHeader.bytes_length (log : LogHeader Int32) : log.bytes.length = 24 := by simp [bytes]

@[simp] theorem placeBytes_length (rid : LogRid Int32) (tableName : List UInt8) :
    (placeBytes rid tableName).length = 8 + (8 + tableName.length) := by simp [placeBytes]

@[simp] theorem imageBytes_length (image : RmRecord) : (imageBytes image).length = 4 + image.length := by
  simp [imageBytes]

/-- The images of an update are equally long. -/
def LogBody.EqualSizes : LogBody Int32 → Prop
  | .update oldValue newValue _ _ => newValue.length = oldValue.length
  | _ => True

section Serialize

variable {front rest : List UInt8} {base offset : Nat}

theorem LogHeader.serialize_eq (log : LogHeader Int32) (hbase : front.length = base) (hrest : 24 ≤ rest.length) :
    log.serialize (front ++ rest) base = (front ++ log.bytes) ++ rest.drop 24 := by
  simp only [serialize]
  rw [memcpy_append (by simp [hbase]) (by simp) (by omega), memcpy_append (by simp [hbase]) (by simp) (by simp; omega),
    memcpy_append (by simp [hbase]) (by simp) (by simp; omega),
    memcpy_append (by simp [hbase]) (by simp) (by simp; omega),
    memcpy_append (by simp [hbase]) (by simp) (by simp; omega),
    memcpy_append (by simp [hbase]) (by simp) (by simp; omega)]
  simp [bytes]

theorem serializePlace_eq (rid : LogRid Int32) (tableName : List UInt8) (hoffset : front.length = base + offset)
    (hrest : (placeBytes rid tableName).length ≤ rest.length) :
    serializePlace rid tableName (front ++ rest) base offset =
      (front ++ placeBytes rid tableName) ++ rest.drop (placeBytes rid tableName).length := by
  rw [placeBytes_length] at hrest
  simp only [serializePlace]
  rw [memcpy_append hoffset (by simp) (by omega), memcpy_append (by simp [hoffset]; omega) (by simp) (by simp; omega),
    memcpy_append (by simp [hoffset]; omega) rfl (by simp; omega)]
  simp [placeBytes]
  omega

theorem LogBody.serialize_eq (body : LogBody Int32) (hsizes : body.EqualSizes) (hbase : front.length = base + 24)
    (hrest : body.bytes.length ≤ rest.length) :
    body.serialize (front ++ rest) base = (front ++ body.bytes) ++ rest.drop body.bytes.length := by
  cases body with
  | none => simp [serialize, bytes]
  | value image rid tableName =>
    simp only [bytes, List.length_append, imageBytes_length, placeBytes_length] at hrest
    simp only [serialize]
    rw [memcpy_append hbase (by simp) (by omega), memcpy_append (by simp [hbase]) rfl (by simp; omega),
      serializePlace_eq rid tableName (by simp [hbase]; omega) (by simp; omega)]
    simp [bytes, imageBytes]
    omega
  | update oldValue newValue rid tableName =>
    simp only [bytes, List.length_append, imageBytes_length, placeBytes_length] at hrest
    have hsize : newValue.length = oldValue.length := hsizes
    simp only [serialize]
    rw [memcpy_append hbase (by simp) (by omega), memcpy_append (by simp [hbase]) rfl (by simp; omega),
      memcpy_append (by simp [hbase]; omega) (by simp) (by simp; omega),
      memcpy_append (by simp [hbase]; omega) hsize (by simp; omega),
      serializePlace_eq rid tableName (by simp [hbase]; omega) (by simp; omega)]
    simp [bytes, imageBytes]
    omega

/-- What `serialize` writes are the bytes of the record, and it writes nothing else. -/
theorem LogRecord.serialize_eq (log : LogRecord Int32) (hsizes : log.body.EqualSizes) (hbase : front.length = base)
    (hrest : log.bytes.length ≤ rest.length) :
    log.serialize (front ++ rest) base = (front ++ log.bytes) ++ rest.drop log.bytes.length := by
  simp only [bytes, List.length_append, LogHeader.bytes_length] at hrest
  rw [serialize, LogHeader.serialize_eq _ hbase (by omega),
    LogBody.serialize_eq _ hsizes (by simp [hbase]) (by simp; omega)]
  simp [bytes]

end Serialize

-- ---------------------------------------------------------------------------
-- Reading records back
-- ---------------------------------------------------------------------------

/-- The body is the one of the class that `redo` reads records of this type with. -/
def LogBody.For : LogType → LogBody Int32 → Prop
  | .insert, .value .. => True
  | .delete, .value .. => True
  | .clrInsert, .value .. => True
  | .clrDelete, .value .. => True
  | .update, .update .. => True
  | .clrUpdate, .update .. => True
  | .begin, .none => True
  | .commit, .none => True
  | .abort, .none => True
  | _, _ => False

/-- A record as the constructors make it. -/
structure LogRecord.Valid (log : LogRecord Int32) : Prop where
  body : log.body.For log.logType
  totLen : log.logTotLen.toNat = log.bytes.length
  small : log.bytes.length < 2147483648

theorem LogType.ofCode_code {type : LogType} {body : LogBody Int32} (h : body.For type) :
    ofCode type.code = type := by
  cases type with
  | other => cases body <;> exact h.elim
  | _ => rfl

theorem LogHeader.deserialize_bytes {log : LogHeader Int32} (rest : List UInt8)
    (htype : .ofCode log.logType.code = log.logType) : deserialize (log.bytes ++ rest) = log := by
  simp [deserialize, bytes, slice_skip, slice_zero, htype]

theorem deserializeImage_bytes {front rest : List UInt8} {offset : Nat} (image : RmRecord)
    (hoffset : front.length = offset) (hsmall : image.length < 2147483648) :
    deserializeImage (front ++ (imageBytes image ++ rest)) offset = some image := by
  have hsize : slice (front ++ (imageBytes image ++ rest)) offset 4 = writeUnsigned 4 image.length := by
    rw [imageBytes, List.append_assoc]
    exact slice_append hoffset (by simp)
  have hdata : slice (front ++ (imageBytes image ++ rest)) (offset + 4) image.length = image := by
    rw [imageBytes, List.append_assoc, ← List.append_assoc]
    exact slice_append (by simp [hoffset]) rfl
  rw [deserializeImage, hsize, readUnsigned_writeUnsigned (by omega)]
  simp [hsmall, hdata]

theorem deserializePlace_bytes {front : List UInt8} {offset : Nat} (rid : LogRid Int32) (tableName : List UInt8)
    (hoffset : front.length = offset) (hsmall : tableName.length < 2147483648) :
    deserializePlace (front ++ placeBytes rid tableName) offset = (rid, tableName) := by
  subst hoffset
  have hsize : readUnsigned (writeUnsigned 8 tableName.length) = tableName.length :=
    readUnsigned_writeUnsigned (by omega)
  simp [deserializePlace, placeBytes, LogRid.bytes, slice_skip, slice_zero, slice_self, hsize, Nat.add_assoc]

theorem deserializeOneImage_bytes {log : LogRecord Int32} (hvalid : log.Valid) {image : RmRecord} {rid : LogRid Int32}
    {tableName : List UInt8} (hbody : log.body = .value image rid tableName) :
    deserializeOneImage log.bytes = some log := by
  obtain ⟨header, body⟩ := log
  obtain rfl : body = _ := hbody
  have hsmall := hvalid.small
  simp only [LogRecord.bytes, LogBody.bytes, List.length_append, LogHeader.bytes_length, imageBytes_length,
    placeBytes_length] at hsmall
  have himage := @deserializeImage_bytes header.bytes (placeBytes rid tableName) 24 image (by simp) (by omega)
  have hplace := @deserializePlace_bytes (header.bytes ++ imageBytes image) (24 + image.length + 4) rid tableName
    (by simp; omega) (by omega)
  have hheader := LogHeader.deserialize_bytes (imageBytes image ++ placeBytes rid tableName)
    (LogType.ofCode_code hvalid.body)
  rw [List.append_assoc] at hplace
  simp [deserializeOneImage, LogRecord.bytes, LogBody.bytes, himage, hplace, hheader]

theorem deserializeUpdate_bytes {log : LogRecord Int32} (hvalid : log.Valid) {oldValue newValue : RmRecord}
    {rid : LogRid Int32} {tableName : List UInt8} (hbody : log.body = .update oldValue newValue rid tableName) :
    deserializeUpdate log.bytes = some log := by
  obtain ⟨header, body⟩ := log
  obtain rfl : body = _ := hbody
  have hsmall := hvalid.small
  simp only [LogRecord.bytes, LogBody.bytes, List.length_append, LogHeader.bytes_length, imageBytes_length,
    placeBytes_length] at hsmall
  have hold := @deserializeImage_bytes header.bytes (imageBytes newValue ++ placeBytes rid tableName) 24 oldValue
    (by simp) (by omega)
  have hnew := @deserializeImage_bytes (header.bytes ++ imageBytes oldValue) (placeBytes rid tableName)
    (24 + 4 + oldValue.length) newValue (by simp; omega) (by omega)
  have hplace := @deserializePlace_bytes (header.bytes ++ (imageBytes oldValue ++ imageBytes newValue))
    (24 + 4 + oldValue.length + (4 + newValue.length)) rid tableName (by simp; omega) (by omega)
  have hheader := LogHeader.deserialize_bytes (imageBytes oldValue ++ (imageBytes newValue ++ placeBytes rid tableName))
    (LogType.ofCode_code hvalid.body)
  rw [List.append_assoc] at hnew
  rw [List.append_assoc, List.append_assoc] at hplace
  simp [deserializeUpdate, LogRecord.bytes, LogBody.bytes, hold, hnew, hplace, hheader]

end Rmdb
