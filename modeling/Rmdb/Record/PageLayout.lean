-- SUMMARY: The bytes of a page of a record file: the header, the bitmap and the slots, and what is read after a write.
import Rmdb.Common.Bytes
import Rmdb.Record.FileHandle
import Rmdb.Storage.BufferPool

/-!
# The layout of a page

An `RmPageHandle` points into the bytes of a page. First come the four `int`s of `RmPageHdr`, then the bitmap, then
the slots. `Shows` says that the bytes hold a page as `RmFileHandle` has it: each write of the code to the bytes is
one change of that page, because the three parts and any two slots lie apart.
-/

namespace Rmdb

-- ---------------------------------------------------------------------------
-- The code
-- ---------------------------------------------------------------------------

/-- `RmFileHdr`, in memory. -/
structure RmFileHdr where
  recordSize : Nat
  numPages : Int
  numRecordsPerPage : Int
  firstFreePageNo : PageNo
  bitmapSize : Nat

/-- The header that `create_file` writes. -/
def RmFileHdr.create (recordSize : Nat) : RmFileHdr :=
  let numRecordsPerPage := (8 * (4096 - 1 - 20) + 1) / (1 + recordSize * 8)
  { recordSize := recordSize
    numPages := 1
    numRecordsPerPage := numRecordsPerPage
    firstFreePageNo := noPage
    bitmapSize := (numRecordsPerPage + 8 - 1) / 8 }

namespace Bitmap

/-- `get_bit`. -/
def getBit (pos : Nat) : UInt8 := 128 >>> UInt8.ofNat (pos % 8)

end Bitmap

namespace PageData

variable (data : PageData)

def bytes (offset len : Nat) : List UInt8 := slice data.toList offset len

/-- `memcpy` into the page. -/
def memcpy (offset : Nat) (src : List UInt8) (len : Nat) : PageData :=
  ⟨(Rmdb.memcpy data.toList offset src len).toArray, by simp⟩

def pageLsn : Int := readInt (data.bytes 0 4)

def setPageLsn (lsn : Int) : PageData := data.memcpy 0 (writeSigned 4 lsn) 4

def setRecLsn (lsn : Int) : PageData := data.memcpy 4 (writeSigned 4 lsn) 4

def nextFreePageNo : PageNo := readInt (data.bytes 8 4)

def setNextFreePageNo (pageNo : PageNo) : PageData := data.memcpy 8 (writeSigned 4 pageNo) 4

def numRecords : Int := readInt (data.bytes 12 4)

def setNumRecords (n : Int) : PageData := data.memcpy 12 (writeSigned 4 n) 4

/-- The byte of the bitmap that has bit `pos`. -/
def bucket (pos : Nat) : UInt8 := (data.bytes (16 + pos / 8) 1).headD 0

/-- `Bitmap::is_set`. -/
def isSet (pos : Nat) : Bool := (data.bucket pos &&& Bitmap.getBit pos) != 0

/-- `Bitmap::set`. -/
def setBit (pos : Nat) : PageData := data.memcpy (16 + pos / 8) [data.bucket pos ||| Bitmap.getBit pos] 1

/-- `Bitmap::reset`. -/
def resetBit (pos : Nat) : PageData := data.memcpy (16 + pos / 8) [data.bucket pos &&& ~~~Bitmap.getBit pos] 1

end PageData

namespace RmFileHdr

variable (hdr : RmFileHdr)

/-- The position of a slot in its page. -/
def slotOffset (slotNo : Nat) : Nat := 16 + hdr.bitmapSize + slotNo * hdr.recordSize

/-- The bytes at `get_slot`. -/
def slot (data : PageData) (slotNo : Nat) : RmRecord := data.bytes (hdr.slotOffset slotNo) hdr.recordSize

def setSlot (data : PageData) (slotNo : Nat) (buf : RmRecord) : PageData :=
  data.memcpy (hdr.slotOffset slotNo) buf hdr.recordSize

/-- The three parts of a page fit into it, and the bitmap has a bit for each slot. -/
structure Fits : Prop where
  bits : hdr.numRecordsPerPage ≤ 8 * hdr.bitmapSize
  bytes : 16 + hdr.bitmapSize + hdr.numRecordsPerPage.toNat * hdr.recordSize ≤ 4096

/-- The bytes hold this page. -/
structure Shows (data : PageData) (page : RmPage) : Prop where
  nextFreePageNo : data.nextFreePageNo = page.nextFreePageNo
  numRecords : data.numRecords = page.numRecords
  bitmap : ∀ s : Nat, s < hdr.numRecordsPerPage → data.isSet s = page.bitmap s
  slots : ∀ s : Nat, s < hdr.numRecordsPerPage → hdr.slot data s = page.slots s

end RmFileHdr

-- ---------------------------------------------------------------------------
-- Bytes
-- ---------------------------------------------------------------------------

namespace PageData

variable {data : PageData} {src : List UInt8} {n len offset l : Nat}

theorem length_toList (data : PageData) : data.toList.length = 4096 := Vector.length_toList

theorem bytes_memcpy_self (hsrc : src.length = len) (hn : n + len ≤ 4096) :
    (data.memcpy n src len).bytes n len = src := by
  refine slice_memcpy_self hsrc ?_
  rwa [length_toList]

theorem bytes_memcpy_of_disjoint (h : offset + l ≤ n ∨ n + len ≤ offset) :
    (data.memcpy n src len).bytes offset l = data.bytes offset l :=
  slice_memcpy_of_disjoint h

theorem bytes_zero (h : offset + l ≤ 4096) : zero.bytes offset l = List.replicate l 0 := by
  apply List.ext_getElem
  · simp [bytes]
  · intro i h₁ h₂
    have hlt : offset + i < (zero : PageData).toList.length := by
      rw [bytes, slice_length] at h₁
      rw [length_toList]
      omega
    simp only [bytes, slice, List.getElem_map, List.getElem_range, List.getElem_replicate]
    rw [List.getD_eq_getElem _ _ hlt]
    simp [zero]

/-- An `int` in the header is read as it was written. -/
theorem readInt_of_bounds {n : Int} (h : -2147483648 ≤ n ∧ n < 2147483648) : readInt (writeSigned 4 n) = n := by
  rw [readInt_writeSigned, Int.bmod]
  split <;> omega

end PageData

namespace Bitmap

theorem getBit_ne_zero (pos : Nat) : getBit pos ≠ 0 := by
  have h : ∀ k < 8, (128 : UInt8) >>> UInt8.ofNat k ≠ 0 := by decide
  exact h (pos % 8) (Nat.mod_lt _ (by decide))

/-- Different bits of a byte. -/
theorem getBit_and_getBit {i j : Nat} (h : i % 8 ≠ j % 8) : getBit i &&& getBit j = 0 := by
  have hall : ∀ k < 8, ∀ l < 8, k ≠ l → ((128 : UInt8) >>> UInt8.ofNat k) &&& (128 >>> UInt8.ofNat l) = 0 := by
    decide
  exact hall (i % 8) (Nat.mod_lt _ (by decide)) (j % 8) (Nat.mod_lt _ (by decide)) h

theorem or_and_of_disjoint {b c d : UInt8} (h : c &&& d = 0) : (b ||| c) &&& d = b &&& d := by
  apply UInt8.toBitVec_inj.mp
  have hbits := congrArg UInt8.toBitVec h
  ext i hi
  have hbit := congrArg (fun v => v[i]) hbits
  simp at hbit ⊢
  grind

theorem or_and_self (b d : UInt8) : (b ||| d) &&& d = d := by
  apply UInt8.toBitVec_inj.mp
  ext i hi
  simp
  grind

theorem andNot_and_of_disjoint {b c d : UInt8} (h : c &&& d = 0) : (b &&& ~~~c) &&& d = b &&& d := by
  apply UInt8.toBitVec_inj.mp
  have hbits := congrArg UInt8.toBitVec h
  ext i hi
  have hbit := congrArg (fun v => v[i]) hbits
  simp at hbit ⊢
  grind

theorem andNot_and_self (b d : UInt8) : (b &&& ~~~d) &&& d = 0 := by
  apply UInt8.toBitVec_inj.mp
  ext i hi
  simp

end Bitmap

-- ---------------------------------------------------------------------------
-- One write
-- ---------------------------------------------------------------------------

namespace PageData

variable {data : PageData} {src : List UInt8} {n len offset i j : Nat}

theorem bucket_memcpy (h : 16 + i / 8 < n ∨ n + len ≤ 16 + i / 8) :
    (data.memcpy n src len).bucket i = data.bucket i := by
  rw [bucket, bytes_memcpy_of_disjoint (by omega)]
  rfl

theorem isSet_memcpy (h : 16 + i / 8 < n ∨ n + len ≤ 16 + i / 8) :
    (data.memcpy n src len).isSet i = data.isSet i := by
  rw [isSet, bucket_memcpy h]
  rfl

/-- A byte of the bitmap is written: its own bits are those of the byte, the other ones stay. -/
theorem isSet_bucket (b : UInt8) (hj : 16 + j / 8 < 4096) : (data.memcpy (16 + j / 8) [b] 1).isSet i =
    if i / 8 = j / 8 then (b &&& Bitmap.getBit i) != 0 else data.isSet i := by
  split
  · rename_i heq
    have hread := @bytes_memcpy_self data [b] (16 + j / 8) 1 rfl (by omega)
    rw [isSet, bucket, heq, hread]
    rfl
  · exact isSet_memcpy (by omega)

theorem isSet_setBit (hj : 16 + j / 8 < 4096) : (data.setBit j).isSet i = (decide (i = j) || data.isSet i) := by
  rw [setBit, isSet_bucket _ hj]
  by_cases hij : i = j
  · subst hij
    simp [Bitmap.or_and_self, Bitmap.getBit_ne_zero]
  · by_cases hdiv : i / 8 = j / 8
    · rw [if_pos hdiv, Bitmap.or_and_of_disjoint (Bitmap.getBit_and_getBit (by omega))]
      simp [hij, isSet, bucket, hdiv]
    · simp [hdiv, hij]

theorem isSet_resetBit (hj : 16 + j / 8 < 4096) :
    (data.resetBit j).isSet i = (!decide (i = j) && data.isSet i) := by
  rw [resetBit, isSet_bucket _ hj]
  by_cases hij : i = j
  · subst hij
    simp [Bitmap.andNot_and_self]
  · by_cases hdiv : i / 8 = j / 8
    · rw [if_pos hdiv, Bitmap.andNot_and_of_disjoint (Bitmap.getBit_and_getBit (by omega))]
      simp [hij, isSet, bucket, hdiv]
    · simp [hdiv, hij]

end PageData

namespace RmFileHdr

variable {hdr : RmFileHdr} {data : PageData} {page : RmPage} {s t : Nat}

/-- Slots are in the page, behind the bitmap. -/
theorem Fits.slot (h : hdr.Fits) (hs : s < hdr.numRecordsPerPage) : 16 + s / 8 < 16 + hdr.bitmapSize ∧
    16 + hdr.bitmapSize ≤ hdr.slotOffset s ∧ hdr.slotOffset s + hdr.recordSize ≤ 4096 := by
  have hbits := h.bits
  have hbytes := h.bytes
  have hlt : s + 1 ≤ hdr.numRecordsPerPage.toNat := by omega
  have hmul := Nat.mul_le_mul_right hdr.recordSize hlt
  rw [Nat.add_mul, Nat.one_mul] at hmul
  simp only [slotOffset]
  omega

/-- Two slots are apart. -/
theorem slotOffset_disjoint (h : s ≠ t) : hdr.slotOffset s + hdr.recordSize ≤ hdr.slotOffset t ∨
    hdr.slotOffset t + hdr.recordSize ≤ hdr.slotOffset s := by
  have hle : ∀ {a b : Nat}, a < b → hdr.slotOffset a + hdr.recordSize ≤ hdr.slotOffset b := by
    intro a b hab
    have hmul := Nat.mul_le_mul_right hdr.recordSize (Nat.succ_le_of_lt hab)
    rw [Nat.succ_mul] at hmul
    simp only [slotOffset]
    omega
  rcases Nat.lt_or_gt_of_ne h with hlt | hgt
  · exact .inl (hle hlt)
  · exact .inr (hle hgt)

/-- A write to the header leaves the bitmap and the slots alone. -/
theorem slot_memcpy {n len : Nat} {src : List UInt8} (h : n + len ≤ 16 + hdr.bitmapSize) :
    hdr.slot (data.memcpy n src len) s = hdr.slot data s :=
  PageData.bytes_memcpy_of_disjoint (.inr (by simp only [slotOffset]; omega))

/-- The free pages and the number of pages have no part in the layout. -/
theorem Shows.setPages (h : hdr.Shows data page) (numPages : Int) (pageNo : PageNo) :
    Shows { hdr with numPages := numPages, firstFreePageNo := pageNo } data page :=
  ⟨h.nextFreePageNo, h.numRecords, h.bitmap, h.slots⟩

theorem Fits.setPages (h : hdr.Fits) (numPages : Int) (pageNo : PageNo) :
    Fits { hdr with numPages := numPages, firstFreePageNo := pageNo } :=
  ⟨h.bits, h.bytes⟩

/-- A write to the two LSNs is a write to nothing that counts. -/
theorem Shows.lsn (h : hdr.Shows data page) {n len : Nat} {src : List UInt8} (hn : n + len ≤ 8) :
    hdr.Shows (data.memcpy n src len) page := by
  refine ⟨?_, ?_, fun s hs => ?_, fun s hs => ?_⟩
  · rw [PageData.nextFreePageNo, PageData.bytes_memcpy_of_disjoint (by omega)]
    exact h.nextFreePageNo
  · rw [PageData.numRecords, PageData.bytes_memcpy_of_disjoint (by omega)]
    exact h.numRecords
  · exact (PageData.isSet_memcpy (by omega)).trans (h.bitmap s hs)
  · exact (slot_memcpy (by omega)).trans (h.slots s hs)

theorem Shows.setNextFreePageNo (h : hdr.Shows data page) {pageNo : PageNo}
    (hpageNo : -2147483648 ≤ pageNo ∧ pageNo < 2147483648) :
    hdr.Shows (data.setNextFreePageNo pageNo) { page with nextFreePageNo := pageNo } := by
  refine ⟨?_, ?_, fun s hs => ?_, fun s hs => ?_⟩
  · rw [PageData.nextFreePageNo, PageData.setNextFreePageNo,
      PageData.bytes_memcpy_self (writeSigned_length 4 pageNo) (by omega)]
    exact PageData.readInt_of_bounds hpageNo
  · rw [PageData.numRecords, PageData.setNextFreePageNo, PageData.bytes_memcpy_of_disjoint (by omega)]
    exact h.numRecords
  · exact (PageData.isSet_memcpy (by omega)).trans (h.bitmap s hs)
  · exact (slot_memcpy (by omega)).trans (h.slots s hs)

theorem Shows.setNumRecords (h : hdr.Shows data page) {n : Int} (hn : -2147483648 ≤ n ∧ n < 2147483648) :
    hdr.Shows (data.setNumRecords n) { page with numRecords := n } := by
  refine ⟨?_, ?_, fun s hs => ?_, fun s hs => ?_⟩
  · rw [PageData.nextFreePageNo, PageData.setNumRecords, PageData.bytes_memcpy_of_disjoint (by omega)]
    exact h.nextFreePageNo
  · rw [PageData.numRecords, PageData.setNumRecords,
      PageData.bytes_memcpy_self (writeSigned_length 4 n) (by omega)]
    exact PageData.readInt_of_bounds hn
  · exact (PageData.isSet_memcpy (by omega)).trans (h.bitmap s hs)
  · exact (slot_memcpy (by omega)).trans (h.slots s hs)

/-- A byte of the bitmap is written, with the bits of another bitmap. -/
theorem Shows.bucket (h : hdr.Shows data page) (hfits : hdr.Fits) (ht : t < hdr.numRecordsPerPage) {b : UInt8}
    {bitmap : Int → Bool}
    (hb : ∀ s : Nat, s < hdr.numRecordsPerPage → (data.memcpy (16 + t / 8) [b] 1).isSet s = bitmap s) :
    hdr.Shows (data.memcpy (16 + t / 8) [b] 1) { page with bitmap := bitmap } := by
  have hslot := hfits.slot ht
  refine ⟨?_, ?_, hb, fun s hs => ?_⟩
  · rw [PageData.nextFreePageNo, PageData.bytes_memcpy_of_disjoint (by omega)]
    exact h.nextFreePageNo
  · rw [PageData.numRecords, PageData.bytes_memcpy_of_disjoint (by omega)]
    exact h.numRecords
  · exact (slot_memcpy (by omega)).trans (h.slots s hs)

theorem Shows.setBit (h : hdr.Shows data page) (hfits : hdr.Fits) (ht : t < hdr.numRecordsPerPage) :
    hdr.Shows (data.setBit t) { page with bitmap := Function.update page.bitmap t true } := by
  have hslot := hfits.slot ht
  refine h.bucket hfits ht fun s hs => ?_
  rw [← PageData.setBit, PageData.isSet_setBit (by omega), h.bitmap s hs]
  by_cases hst : s = t
  · simp [hst]
  · simp [hst]

theorem Shows.resetBit (h : hdr.Shows data page) (hfits : hdr.Fits) (ht : t < hdr.numRecordsPerPage) :
    hdr.Shows (data.resetBit t) { page with bitmap := Function.update page.bitmap t false } := by
  have hslot := hfits.slot ht
  refine h.bucket hfits ht fun s hs => ?_
  rw [← PageData.resetBit, PageData.isSet_resetBit (by omega), h.bitmap s hs]
  by_cases hst : s = t
  · simp [hst]
  · simp [hst]

theorem Shows.setSlot (h : hdr.Shows data page) (hfits : hdr.Fits) (ht : t < hdr.numRecordsPerPage)
    {buf : RmRecord} (hbuf : buf.length = hdr.recordSize) :
    hdr.Shows (hdr.setSlot data t buf) { page with slots := Function.update page.slots t buf } := by
  have hslot := hfits.slot ht
  refine ⟨?_, ?_, fun s hs => ?_, fun s hs => ?_⟩
  · rw [PageData.nextFreePageNo, RmFileHdr.setSlot, PageData.bytes_memcpy_of_disjoint (by omega)]
    exact h.nextFreePageNo
  · rw [PageData.numRecords, RmFileHdr.setSlot, PageData.bytes_memcpy_of_disjoint (by omega)]
    exact h.numRecords
  · have hs' := hfits.slot hs
    exact (PageData.isSet_memcpy (by omega)).trans (h.bitmap s hs)
  · show _ = Function.update page.slots (t : Int) buf s
    by_cases hst : s = t
    · subst hst
      rw [Function.update_self]
      exact PageData.bytes_memcpy_self hbuf hslot.2.2
    · rw [Function.update_of_ne (by omega)]
      exact (PageData.bytes_memcpy_of_disjoint (slotOffset_disjoint hst)).trans (h.slots s hs)

theorem shows_zero (hfits : hdr.Fits) :
    hdr.Shows PageData.zero ⟨0, 0, fun _ => false, fun _ => List.replicate hdr.recordSize 0⟩ := by
  refine ⟨?_, ?_, fun s hs => ?_, fun s hs => ?_⟩
  · rw [PageData.nextFreePageNo, PageData.bytes_zero (by omega)]
    rfl
  · rw [PageData.numRecords, PageData.bytes_zero (by omega)]
    rfl
  · have hslot := hfits.slot hs
    rw [PageData.isSet, PageData.bucket, PageData.bytes_zero (by omega)]
    simp
  · exact PageData.bytes_zero (hfits.slot hs).2.2

/-- A page of a file that `create_file` has made has room for its three parts. -/
theorem fits_create (recordSize : Nat) : (create recordSize).Fits := by
  simp only [create]
  generalize hn : (8 * (4096 - 1 - 20) + 1) / (1 + recordSize * 8) = n
  have hle : n * (1 + recordSize * 8) ≤ 8 * (4096 - 1 - 20) + 1 := hn ▸ Nat.div_mul_le_self _ _
  rw [Nat.mul_add, ← Nat.mul_assoc] at hle
  constructor
  · show (n : Int) ≤ 8 * ((n + 8 - 1) / 8 : Nat)
    omega
  · show 16 + (n + 8 - 1) / 8 + (n : Int).toNat * recordSize ≤ 4096
    rw [Int.toNat_natCast]
    omega

end RmFileHdr

end Rmdb
