-- SUMMARY: Copying blocks of bytes into a buffer and reading them back, and numbers as bytes.
import Mathlib.Data.List.GetD
import Rmdb.Common.Value

/-!
# Blocks of bytes

A buffer that is written block after block is the concatenation of the blocks, and reading
at the position of a block gives the block back.
-/

namespace Rmdb

variable {front bs rest src : List UInt8} {n len : Nat}

theorem slice_append (hfront : front.length = n) (hbs : bs.length = len) :
    slice (front ++ (bs ++ rest)) n len = bs := by
  subst hfront hbs
  apply List.ext_getElem
  · simp
  · intro i h₁ h₂
    have hlt : front.length + i < (front ++ (bs ++ rest)).length := by simp; omega
    simp only [slice, List.getElem_map, List.getElem_range]
    rw [List.getD_eq_getElem _ _ hlt, List.getElem_append_right (by omega), List.getElem_append_left (by omega)]
    congr 1
    omega

theorem slice_zero (hbs : bs.length = len) : slice (bs ++ rest) 0 len = bs :=
  @slice_append [] bs rest 0 len rfl hbs

theorem slice_self (hbs : bs.length = len) : slice bs 0 len = bs := by
  have h := @slice_zero bs [] len hbs
  rwa [List.append_nil] at h

/-- Reading behind a block is reading in what follows it. -/
theorem slice_skip (hfront : front.length ≤ n) : slice (front ++ rest) n len = slice rest (n - front.length) len := by
  apply List.ext_getElem
  · simp
  · intro i h₁ h₂
    simp only [slice, List.getElem_map, List.getElem_range]
    rw [List.getD_append_right _ _ _ _ (by omega)]
    congr 1
    omega

theorem slice_append_left {a b : List UInt8} {offset len : Nat} (h : offset + len ≤ a.length) :
    slice (a ++ b) offset len = slice a offset len := by
  apply List.ext_getElem
  · simp
  · intro i h₁ h₂
    rw [slice_length] at h₁
    simp only [slice, List.getElem_map, List.getElem_range, List.getD_eq_getElem?_getD]
    rw [List.getElem?_append_left (by omega)]

theorem slice_append_right {a b : List UInt8} {offset len : Nat} :
    slice (a ++ b) (offset + a.length) len = slice b offset len := by
  rw [slice_skip (by omega), Nat.add_sub_cancel]

/-- The next block goes behind the blocks that are already there. -/
theorem memcpy_append (hfront : front.length = n) (hsrc : src.length = len) (hlen : len ≤ rest.length) :
    memcpy (front ++ rest) n src len = (front ++ src) ++ rest.drop len := by
  subst hfront hsrc
  apply List.ext_getElem
  · simp [memcpy]
    omega
  · intro i h₁ h₂
    simp only [memcpy, List.getElem_mapIdx]
    rcases Nat.lt_or_ge i front.length with hi | hi
    · rw [if_neg (by omega), List.getElem_append_left hi, List.getElem_append_left (by simp; omega),
        List.getElem_append_left hi]
    · rcases Nat.lt_or_ge i (front.length + src.length) with hi' | hi'
      · rw [if_pos ⟨hi, hi'⟩, List.getElem_append_left (by simp; omega), List.getElem_append_right hi,
          List.getD_eq_getElem _ _ (by omega)]
      · rw [if_neg (by omega), List.getElem_append_right hi, List.getElem_append_right (by simp; omega),
          List.getElem_drop]
        congr 1
        simp only [List.length_append]
        omega

@[simp] theorem memcpy_length {r : List UInt8} : (memcpy r n src len).length = r.length := by
  simp [memcpy]

/-- What is written over the bytes at a position is read there. -/
theorem slice_memcpy_self {r : List UInt8} (hsrc : src.length = len) (hr : n + len ≤ r.length) :
    slice (memcpy r n src len) n len = src := by
  apply List.ext_getElem
  · rw [slice_length, hsrc]
  · intro i h₁ h₂
    have hlt : n + i < (memcpy r n src len).length := by
      rw [memcpy_length]
      omega
    simp only [slice, List.getElem_map, List.getElem_range]
    rw [List.getD_eq_getElem _ _ hlt]
    simp only [memcpy, List.getElem_mapIdx]
    rw [if_pos (by omega), Nat.add_sub_cancel_left, List.getD_eq_getElem _ _ h₂]

/-- The bytes at other positions stay. -/
theorem slice_memcpy_of_disjoint {r : List UInt8} {offset l : Nat} (h : offset + l ≤ n ∨ n + len ≤ offset) :
    slice (memcpy r n src len) offset l = slice r offset l := by
  apply List.map_congr_left
  intro i hi
  have hi := List.mem_range.mp hi
  have hout : ¬ (n ≤ offset + i ∧ offset + i < n + len) := by omega
  simp only [List.getD_eq_getElem?_getD, memcpy, List.getElem?_mapIdx, hout, if_false]
  cases r[offset + i]? <;> rfl

@[simp] theorem writeUnsigned_length (len n : Nat) : (writeUnsigned len n).length = len := by
  induction len generalizing n with
  | zero => rfl
  | succ len ih => simp [writeUnsigned, ih]

theorem readUnsigned_writeUnsigned (h : n < 256 ^ len) : readUnsigned (writeUnsigned len n) = n := by
  induction len generalizing n with
  | zero =>
    simp only [Nat.pow_zero] at h
    simp [writeUnsigned, readUnsigned]
    omega
  | succ len ih =>
    have hdiv : n / 256 < 256 ^ len := by
      rw [Nat.pow_succ] at h
      omega
    have hmod : (UInt8.ofNat (n % 256)).toNat = n % 256 := by
      rw [UInt8.toNat_ofNat']
      omega
    rw [writeUnsigned, readUnsigned, ih hdiv, hmod]
    omega

-- ---------------------------------------------------------------------------
-- Machine integers
-- ---------------------------------------------------------------------------

/-- The bytes of a `uint32_t`. -/
def uint32Bytes (x : UInt32) : List UInt8 := writeUnsigned 4 x.toNat

/-- `*(uint32_t *)a`. -/
def readUInt32 (bs : List UInt8) : UInt32 := UInt32.ofNat (readUnsigned (bs.take 4))

/-- The bytes of an `int`. -/
def int32Bytes (x : Int32) : List UInt8 := uint32Bytes x.toUInt32

/-- `*(int *)a`. -/
def readInt32 (bs : List UInt8) : Int32 := (readUInt32 bs).toInt32

@[simp] theorem uint32Bytes_length (x : UInt32) : (uint32Bytes x).length = 4 := writeUnsigned_length ..

@[simp] theorem int32Bytes_length (x : Int32) : (int32Bytes x).length = 4 := writeUnsigned_length ..

@[simp] theorem readUInt32_bytes (x : UInt32) : readUInt32 (uint32Bytes x) = x := by
  have htake : (uint32Bytes x).take 4 = uint32Bytes x := List.take_of_length_le (by simp)
  rw [readUInt32, htake, uint32Bytes, readUnsigned_writeUnsigned x.toNat_lt, UInt32.ofNat_toNat]

@[simp] theorem readInt32_bytes (x : Int32) : readInt32 (int32Bytes x) = x := by
  rw [readInt32, int32Bytes, readUInt32_bytes, Int32.toInt32_toUInt32]

-- ---------------------------------------------------------------------------
-- Signed numbers
-- ---------------------------------------------------------------------------

theorem readUnsigned_writeSigned (len : Nat) (n : Int) :
    (readUnsigned (writeSigned len n) : Int) = n % (256 ^ len : Nat) := by
  have hpos : (0 : Int) < (256 ^ len : Nat) := Int.natCast_pos.mpr (Nat.pow_pos (by decide))
  have hmod := Int.emod_nonneg n (Int.ne_of_gt hpos)
  have hlt := Int.emod_lt_of_pos n hpos
  rw [writeSigned, readUnsigned_writeUnsigned, Int.toNat_of_nonneg hmod]
  exact (Int.toNat_lt hmod).mpr hlt

@[simp] theorem writeSigned_length (len : Nat) (n : Int) : (writeSigned len n).length = len :=
  writeUnsigned_length _ _

theorem readInt_eq_toInt32 (hbs : bs.length = 4) : readInt bs = toInt32 (readUnsigned bs) := by
  match bs, hbs with
  | [b₀, b₁, b₂, b₃], _ =>
    simp only [readInt, readUnsigned]
    congr 1
    omega

/-- An `int` that is written holds the number, wrapped around. -/
theorem readInt_writeSigned (n : Int) : readInt (writeSigned 4 n) = n.bmod 4294967296 := by
  have hread := readUnsigned_writeSigned 4 n
  rw [readInt_eq_toInt32 (writeSigned_length 4 n), toInt32, Int.bmod]
  split <;> split <;> omega

theorem readInt_bounds (hbs : bs.length = 4) : -2147483648 ≤ readInt bs ∧ readInt bs < 2147483648 := by
  match bs, hbs with
  | [b₀, b₁, b₂, b₃], _ =>
    have h₀ := b₀.toNat_lt
    have h₁ := b₁.toNat_lt
    have h₂ := b₂.toNat_lt
    have h₃ := b₃.toNat_lt
    simp only [readInt, toInt32]
    split <;> omega

theorem readBigint_writeSigned (n : Int) : readBigint (writeSigned 8 n) = n.bmod 18446744073709551616 := by
  have hread := readUnsigned_writeSigned 8 n
  rw [readBigint, List.take_of_length_le (Nat.le_of_eq (writeSigned_length 8 n)), Int.bmod]
  split <;> split <;> omega

theorem readUnsigned_lt (bs : List UInt8) : readUnsigned bs < 256 ^ bs.length := by
  induction bs with
  | nil => exact Nat.one_pos
  | cons b bs ih =>
    have hb := b.toNat_lt
    rw [readUnsigned, List.length_cons, Nat.pow_succ]
    omega

theorem readBigint_bounds (hbs : bs.length = 8) :
    -9223372036854775808 ≤ readBigint bs ∧ readBigint bs < 9223372036854775808 := by
  have hlt := readUnsigned_lt bs
  rw [hbs] at hlt
  rw [readBigint, List.take_of_length_le (Nat.le_of_eq hbs)]
  split <;> omega

-- ---------------------------------------------------------------------------
-- Values
-- ---------------------------------------------------------------------------

/-- The value is one of a column: it has its type, and its bytes have room there. A string holds no zero
byte, and a `FLOAT` column is left out. -/
def Value.StoredIn (col : ColMeta) : Value → Prop
  | .int n => col.type = .int ∧ -2147483648 ≤ n ∧ n < 2147483648
  | .bigint n => col.type = .bigint ∧ -9223372036854775808 ≤ n ∧ n < 9223372036854775808
  | .datetime n => col.type = .datetime ∧ -9223372036854775808 ≤ n ∧ n < 9223372036854775808
  | .string s => col.type = .string ∧ s.length ≤ col.len ∧ 0 ∉ s
  | .float _ => False

theorem Value.StoredIn.type {col : ColMeta} {v : Value} (h : v.StoredIn col) : col.type = v.type := by
  cases v with
  | float x => cases h
  | int n | bigint n | datetime n | string s => exact h.1

/-- Columns of these types always have these lengths. -/
structure ColMeta.Sized (col : ColMeta) : Prop where
  int : col.type = .int → col.len = 4
  bigint : col.type = .bigint → col.len = 8
  datetime : col.type = .datetime → col.len = 8

theorem takeWhile_padded {s : List UInt8} (hs : 0 ∉ s) (k : Nat) :
    (s ++ List.replicate k 0).takeWhile (fun b => b != 0) = s := by
  rw [List.takeWhile_append_of_pos]
  · cases k <;> simp [List.replicate_succ]
  · intro b hb
    rw [bne_iff_ne]
    rintro rfl
    exact hs hb

theorem Value.StoredIn.raw_length {col : ColMeta} {v : Value} (h : v.StoredIn col) (hcol : col.Sized) :
    (v.raw col.len).length = col.len := by
  cases v with
  | int n => simp [Value.raw, hcol.int h.1]
  | bigint n => simp [Value.raw, hcol.bigint h.1]
  | datetime n => simp [Value.raw, hcol.datetime h.1]
  | string s =>
    have hlen := h.2.1
    simp [Value.raw]
    omega
  | float x => cases h

/-- The bytes of a value read as that value again. -/
theorem Value.StoredIn.read {col : ColMeta} {v : Value} (h : v.StoredIn col) (hcol : col.Sized) {r : RmRecord}
    (hr : slice r col.offset col.len = v.raw col.len) : col.read r = v := by
  cases v with
  | int n =>
    obtain ⟨htype, hlow, hhigh⟩ := h
    rw [hcol.int htype] at hr
    simp only [ColMeta.read, htype, hr, Value.raw, readInt_writeSigned]
    rw [Int.bmod_eq_of_le (by omega) (by omega)]
  | bigint n =>
    obtain ⟨htype, hlow, hhigh⟩ := h
    rw [hcol.bigint htype] at hr
    simp only [ColMeta.read, htype, hr, Value.raw, readBigint_writeSigned]
    rw [Int.bmod_eq_of_le (by omega) (by omega)]
  | datetime n =>
    obtain ⟨htype, hlow, hhigh⟩ := h
    rw [hcol.datetime htype] at hr
    simp only [ColMeta.read, htype, hr, Value.raw, readBigint_writeSigned]
    rw [Int.bmod_eq_of_le (by omega) (by omega)]
  | string s =>
    obtain ⟨htype, -, hzero⟩ := h
    simp only [ColMeta.read, htype, hr, Value.raw, takeWhile_padded hzero]
  | float x => cases h

theorem writeUnsigned_readUnsigned (bs : List UInt8) : writeUnsigned bs.length (readUnsigned bs) = bs := by
  induction bs with
  | nil => rfl
  | cons b bs ih =>
    have hb := b.toNat_lt
    have hmod : (b.toNat + 256 * readUnsigned bs) % 256 = b.toNat := by omega
    have hdiv : (b.toNat + 256 * readUnsigned bs) / 256 = readUnsigned bs := by omega
    rw [List.length_cons, readUnsigned, writeUnsigned, hmod, hdiv, ih, UInt8.ofNat_toNat]

theorem writeSigned_readInt {bs : List UInt8} (h : bs.length = 4) : writeSigned 4 (readInt bs) = bs := by
  have hlt := readUnsigned_lt bs
  rw [h] at hlt
  have hmod : (readInt bs % (256 ^ 4 : Nat)).toNat = readUnsigned bs := by
    rw [readInt_eq_toInt32 h, toInt32]
    split <;> omega
  rw [writeSigned, hmod, ← h]
  exact writeUnsigned_readUnsigned bs

theorem writeSigned_readBigint {bs : List UInt8} (h : bs.length = 8) : writeSigned 8 (readBigint bs) = bs := by
  have hlt := readUnsigned_lt bs
  rw [h] at hlt
  have hmod : (readBigint bs % (256 ^ 8 : Nat)).toNat = readUnsigned bs := by
    rw [readBigint, List.take_of_length_le h.le]
    split <;> omega
  rw [writeSigned, hmod, ← h]
  exact writeUnsigned_readUnsigned bs

/-- What a column reads is one of its values. -/
theorem ColMeta.read_storedIn (col : ColMeta) (hfloat : col.type ≠ .float) (r : RmRecord) :
    (col.read r).StoredIn col := by
  cases htype : col.type with
  | int =>
    simp only [ColMeta.read, htype]
    exact ⟨htype, readInt_bounds (slice_length _ _ _)⟩
  | bigint =>
    simp only [ColMeta.read, htype]
    exact ⟨htype, readBigint_bounds (slice_length _ _ _)⟩
  | datetime =>
    simp only [ColMeta.read, htype]
    exact ⟨htype, readBigint_bounds (slice_length _ _ _)⟩
  | string =>
    simp only [ColMeta.read, htype]
    refine ⟨htype, ?_, fun hzero => ?_⟩
    · exact Nat.le_trans (List.takeWhile_sublist _).length_le (Nat.le_of_eq (slice_length _ _ _))
    · exact absurd (List.all_eq_true.mp List.all_takeWhile 0 hzero) (by decide)
  | float => exact absurd htype hfloat

end Rmdb
