-- SUMMARY: Typed values, the columns of a record, conditions and set clauses.
import Rmdb.Index.Key
import Rmdb.Record.FileHandle

/-!
# Values, conditions and set clauses

`Value`, `Condition` and `SetClause` of `common.h`, and `ColMeta` of `sm_meta.h`: how a
column is read out of the bytes of a record, compared, and written back.
-/

namespace Rmdb

-- ---------------------------------------------------------------------------
-- Bytes of a record
-- ---------------------------------------------------------------------------

/-- The `len` bytes that start at `offset`. -/
def slice (r : List UInt8) (offset len : Nat) : List UInt8 :=
  (List.range len).map fun i => r.getD (offset + i) 0

@[simp] theorem slice_length (r : List UInt8) (offset len : Nat) :
    (slice r offset len).length = len := by
  simp [slice]

/-- `memcpy(r + offset, src, len)`. -/
def memcpy (r : List UInt8) (offset : Nat) (src : List UInt8) (len : Nat) : List UInt8 :=
  r.mapIdx fun i b => if offset ≤ i ∧ i < offset + len then src.getD (i - offset) 0 else b

/-- An unsigned number from its bytes, lowest byte first. -/
def readUnsigned : List UInt8 → Nat
  | [] => 0
  | b :: bs => b.toNat + 256 * readUnsigned bs

/-- The lowest `len` bytes of a number. -/
def writeUnsigned : Nat → Nat → List UInt8
  | 0, _ => []
  | len + 1, n => UInt8.ofNat (n % 256) :: writeUnsigned len (n / 256)

/-- The two's complement bytes of a number. -/
def writeSigned (len : Nat) (n : Int) : List UInt8 :=
  writeUnsigned len (n % (256 ^ len : Nat)).toNat

/-- `*(int64_t *)a`. -/
def readBigint (bs : List UInt8) : Int :=
  let n := readUnsigned (bs.take 8)
  if n < 9223372036854775808 then n else n - 18446744073709551616

/-- `*(float *)a`. -/
def readFloat (bs : List UInt8) : Float32 :=
  Float32.ofBits (UInt32.ofNat (readUnsigned (bs.take 4)))

def writeFloat (x : Float32) : List UInt8 := writeUnsigned 4 x.toBits.toNat

-- ---------------------------------------------------------------------------
-- Values
-- ---------------------------------------------------------------------------

/-- A `Value`: its `type` and the member of the union that goes with it. -/
inductive Value where
  | int (n : Int)
  | float (x : Float32)
  | bigint (n : Int)
  | string (s : List UInt8)
  | datetime (n : Int)

namespace Value

def type : Value → ColType
  | .int _ => .int
  | .float _ => .float
  | .bigint _ => .bigint
  | .string _ => .string
  | .datetime _ => .datetime

/-- `raw->data` after `init_raw(len)`. -/
def raw (len : Nat) : Value → List UInt8
  | .int n => writeSigned 4 n
  | .float x => writeFloat x
  | .bigint n => writeSigned 8 n
  | .string s => s ++ List.replicate (len - s.length) 0
  | .datetime n => writeSigned 8 n

/-- `operator==`: values of different types are not equal. -/
def eq : Value → Value → Bool
  | .int x, .int y => x == y
  | .float x, .float y => x == y
  | .bigint x, .bigint y => x == y
  | .string x, .string y => x == y
  | .datetime x, .datetime y => x == y
  | _, _ => false

/-- A `static_cast<uint64_t>`. -/
def toUnsigned (n : Int) : Int := n % 18446744073709551616

/-- `operator<`. -/
def lt : Value → Value → Bool
  | .int x, .int y => decide (x < y)
  | .float x, .float y => decide (x < y)
  | .bigint x, .bigint y => decide (x < y)
  | .string x, .string y => decide (x < y)
  | .datetime x, .datetime y => decide (toUnsigned x < toUnsigned y)
  | _, _ => false

/-- `operator>`. -/
def gt (x y : Value) : Bool := lt y x

end Value

/-- `ColMeta`. -/
structure ColMeta where
  name : String
  type : ColType
  len : Nat
  offset : Nat
  deriving DecidableEq, Repr

/-- `Value::read_from_record`. -/
def ColMeta.read (col : ColMeta) (r : RmRecord) : Value :=
  match col.type with
  | .int => .int (readInt (slice r col.offset 4))
  | .bigint => .bigint (readBigint (slice r col.offset 8))
  | .float => .float (readFloat (slice r col.offset 4))
  -- `strlen` may run past the column, but no more than `col.len` bytes are taken.
  | .string => .string ((slice r col.offset col.len).takeWhile fun b => b != 0)
  | .datetime => .datetime (readBigint (slice r col.offset 8))

/-- `ColMeta::find_from_cols` and `TabMeta::get_col`; `none` is `ColumnNotFoundError`. -/
def getCol (cols : List ColMeta) (name : String) : Option ColMeta :=
  cols.find? fun col => col.name == name

-- ---------------------------------------------------------------------------
-- Conditions
-- ---------------------------------------------------------------------------

inductive CompOp where
  | eq
  | ne
  | lt
  | gt
  | le
  | ge
  deriving DecidableEq, Repr

def CompOp.test : CompOp → Value → Value → Bool
  | .eq, x, y => x.eq y
  | .ne, x, y => !x.eq y
  | .lt, x, y => x.lt y
  | .gt, x, y => x.gt y
  | .le, x, y => !x.gt y
  | .ge, x, y => !x.lt y

/-- The right side of a condition: `is_rhs_val` with `rhs_val`, or `rhs_col`. -/
inductive Rhs where
  | val (v : Value)
  | col (name : String)

/-- A condition on the columns of one table. -/
structure Condition where
  lhsCol : String
  op : CompOp
  rhs : Rhs

/-- `test_record`; `none` is `ColumnNotFoundError`. -/
def Condition.testRecord (cond : Condition) (cols : List ColMeta) (r : RmRecord) : Option Bool := do
  let lhs ← getCol cols cond.lhsCol
  match cond.rhs with
  | .val v => return cond.op.test (lhs.read r) v
  | .col name =>
    let rhs ← getCol cols name
    return cond.op.test (lhs.read r) (rhs.read r)

/-- The loop over `conds_`, which stops at the first condition that fails. -/
def testRecord (conds : List Condition) (cols : List ColMeta) (r : RmRecord) : Option Bool :=
  match conds with
  | [] => some true
  | cond :: conds => do
    let b ← cond.testRecord cols r
    if b then testRecord conds cols r else return false

-- ---------------------------------------------------------------------------
-- Set clauses
-- ---------------------------------------------------------------------------

/-- The `op` of a set clause: `'\0'`, `'+'` or `'-'`. -/
inductive SetOp where
  | assign
  | add
  | sub
  deriving DecidableEq, Repr

structure SetClause where
  lhs : String
  rhs : Value
  op : SetOp

/-- Why an executor stops. -/
inductive DbError where
  | indexEntryNotUnique
  | incompatibleType
  | columnNotFound
  | tableNotFound
  | invalidValueCount
  /-- `TransactionAbortException`: a lock was refused. -/
  | transactionAbort
  /-- A failed assertion, a page that is not there, or a loop that does not end. -/
  | failed
  deriving DecidableEq, Repr

/-- The bytes that `+=` and `-=` leave in a column. Integers wrap around. -/
def SetClause.compute (op : SetOp) (type : ColType) (old raw : List UInt8) : Except DbError (List UInt8) :=
  match op, type with
  | .add, .int => .ok (writeSigned 4 (readInt old + readInt raw))
  | .add, .float => .ok (writeFloat (readFloat old + readFloat raw))
  | .add, .bigint => .ok (writeSigned 8 (readBigint old + readBigint raw))
  | .sub, .int => .ok (writeSigned 4 (readInt old - readInt raw))
  | .sub, .float => .ok (writeFloat (readFloat old - readFloat raw))
  | .sub, .bigint => .ok (writeSigned 8 (readBigint old - readBigint raw))
  | .assign, _ => .ok raw
  | _, _ => .error .failed

/-- One turn of the loop over `set_clauses_`. -/
def SetClause.apply (clause : SetClause) (cols : List ColMeta) (r : RmRecord) : Except DbError RmRecord := do
  let some col := getCol cols clause.lhs | .error .columnNotFound
  if col.type ≠ clause.rhs.type then .error .incompatibleType else
  let new ← compute clause.op col.type (slice r col.offset col.len) (clause.rhs.raw col.len)
  return memcpy r col.offset new col.len

/-- The loop over `set_clauses_`. -/
def applySetClauses (cols : List ColMeta) : List SetClause → RmRecord → Except DbError RmRecord
  | [], r => .ok r
  | clause :: clauses, r => do
    let r ← clause.apply cols r
    applySetClauses cols clauses r

end Rmdb
