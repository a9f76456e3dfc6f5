-- SUMMARY: The layout of index nodes and of the index header, and the columns that leave room for both.
import Rmdb.Common.Bytes
import Rmdb.Lib.Decoder
import Rmdb.System.SmManager

/-!
# The layout of an index

`IxManager::create_index` computes the order of the tree from the length of the key and writes the
header to page 0. A node has its page header, room for one key more than the order, and room for as
many rids. The header has two numbers for each column, so that it grows with their number and not
with their length. But the name of the index file has all their names, and a file system with names of
at most 255 bytes creates none with so many columns that the header leaves page 0.
-/

namespace Rmdb

-- ---------------------------------------------------------------------------
-- The header
-- ---------------------------------------------------------------------------

structure IxFileHdr where
  firstFreePageNo : Int32
  numPages : Int32
  rootPage : Int32
  colNum : Int32
  colTypes : List ColType
  colLens : List Int32
  colTotLen : Int32
  btreeOrder : Int32
  keysSize : Int32
  firstLeaf : Int32
  lastLeaf : Int32
  totLen : Int32
  deriving DecidableEq

namespace IxFileHdr

variable (hdr : IxFileHdr)

/-- How often a loop up to `col_num_` runs. -/
def colCount : Nat := hdr.colNum.toInt.toNat

def updateTotLen : IxFileHdr :=
  { hdr with totLen := Int32.ofInt (40 + 8 * hdr.colNum.toInt) }

/-- The enumerators in memory. -/
def typeWord : ColType → Int32
  | .int => 0
  | .float => 1
  | .bigint => 2
  | .string => 3
  | .datetime => 4

/-- What the `memcpy`s of `serialize` put together. The vectors have `col_num_` elements. -/
def image : List UInt8 :=
  int32Bytes hdr.totLen ++ (int32Bytes hdr.firstFreePageNo ++ (int32Bytes hdr.numPages ++
    (int32Bytes hdr.rootPage ++ (int32Bytes hdr.colNum ++
    ((hdr.colTypes.take hdr.colCount).flatMap (fun type => int32Bytes (typeWord type)) ++
    ((hdr.colLens.take hdr.colCount).flatMap int32Bytes ++
    (int32Bytes hdr.colTotLen ++ (int32Bytes hdr.btreeOrder ++ (int32Bytes hdr.keysSize ++
    (int32Bytes hdr.firstLeaf ++ int32Bytes hdr.lastLeaf))))))))))

/-- `serialize`, with its assertion. -/
def serialize : Option (List UInt8) :=
  if hdr.image.length = hdr.totLen.toInt then some hdr.image else none

def readWord : Decoder UInt8 Int32 := do
  let bs ← Decoder.next 4
  return readInt32 bs

/-- A `ColType`. Numbers of no enumerator are never written, and fail here. -/
def readColType : Decoder UInt8 ColType := do
  let bs ← Decoder.next 4
  match (readInt32 bs).toInt with
  | 0 => return .int
  | 1 => return .float
  | 2 => return .bigint
  | 3 => return .string
  | 4 => return .datetime
  | _ => failure

def deserialize : Decoder UInt8 IxFileHdr := do
  let totLen ← readWord
  let firstFreePageNo ← readWord
  let numPages ← readWord
  let rootPage ← readWord
  let colNum ← readWord
  let colTypes ← Decoder.times readColType colNum.toInt.toNat
  let colLens ← Decoder.times readWord colNum.toInt.toNat
  let colTotLen ← readWord
  let btreeOrder ← readWord
  let keysSize ← readWord
  let firstLeaf ← readWord
  let lastLeaf ← readWord
  let offset ← Decoder.position
  if offset = totLen.toInt then
    return ⟨firstFreePageNo, numPages, rootPage, colNum, colTypes, colLens, colTotLen, btreeOrder,
      keysSize, firstLeaf, lastLeaf, totLen⟩
  else failure

end IxFileHdr

namespace IxManager

/-- The `IxFileHdr` that `create_index` constructs. -/
def newHeader (indexCols : List TabColMeta) (colTotLen order : Nat) : IxFileHdr :=
  { firstFreePageNo := -1
    numPages := 2
    rootPage := 1
    colNum := Int32.ofNat indexCols.length
    colTypes := indexCols.map fun col => col.type
    colLens := indexCols.map fun col => Int32.ofNat col.len
    colTotLen := Int32.ofNat colTotLen
    btreeOrder := Int32.ofNat order
    keysSize := Int32.ofNat ((order + 1) * colTotLen)
    firstLeaf := 1
    lastLeaf := 1
    totLen := 0 }

def totalLen (indexCols : List TabColMeta) : Nat := (indexCols.map fun col => col.len).sum

/-- The header that `create_index` writes to the file it has created. That the order is more than 2 is an `assert`,
which the build leaves out. -/
def createHeader (indexCols : List TabColMeta) : Except SmError IxFileHdr := do
  let colTotLen := totalLen indexCols
  if colTotLen > 2000 then throw (.invalidColLength colTotLen)
  return (newHeader indexCols colTotLen (btreeOrder colTotLen)).updateTotLen

/-- Page 0 after `data` is written to it. What is longer than the page goes to page 1. -/
def writeHeader (page data : List UInt8) : List UInt8 := (data ++ page.drop data.length).take 4096

/-- The header in a constructed `IxIndexHandle`: `buf` has the bytes of page 0. -/
def readHeader (buf : List UInt8) : Option IxFileHdr := (IxFileHdr.deserialize buf 0).map Prod.fst

end IxManager

-- ---------------------------------------------------------------------------
-- Nodes
-- ---------------------------------------------------------------------------

namespace IxFileHdr

variable (hdr : IxFileHdr)

/-- `get_key(i)` in the page, behind `sizeof(IxPageHdr) = 24` bytes. -/
def keyOffset (i : Nat) : Int := 24 + i * hdr.colTotLen.toInt

/-- `get_rid(i)` in the page. -/
def ridOffset (i : Nat) : Int := 24 + hdr.keysSize.toInt + i * 8

/-- An overfull node has its place in the page: entries up to `btree_order_`. -/
structure NodeFits : Prop where
  header : ∀ i : Nat, i ≤ hdr.btreeOrder.toInt → 24 ≤ hdr.keyOffset i
  keys : ∀ i : Nat, i ≤ hdr.btreeOrder.toInt → hdr.keyOffset i + hdr.colTotLen.toInt ≤ 4096
  rids : ∀ i : Nat, i ≤ hdr.btreeOrder.toInt → hdr.ridOffset i + 8 ≤ 4096
  apart : ∀ i j : Nat, i ≤ hdr.btreeOrder.toInt → hdr.keyOffset i + hdr.colTotLen.toInt ≤ hdr.ridOffset j

/-- The other numbers of a header change while the index is open. -/
structure SameIndex (hdr h : IxFileHdr) : Prop where
  colNum : h.colNum = hdr.colNum
  colTypes : h.colTypes = hdr.colTypes
  colLens : h.colLens = hdr.colLens
  totLen : h.totLen = hdr.totLen

/-- What `create_index` and `close_index` write fits into page 0 and is read back from there. -/
def HeaderFits : Prop :=
  ∀ h, hdr.SameIndex h → ∃ data, h.serialize = some data ∧ data.length ≤ 4096 ∧
    ∀ page : List UInt8, page.length = 4096 → IxManager.readHeader (IxManager.writeHeader page data) = some h

/-- The index has a minimal order, and its nodes and its header have room. -/
structure LayoutRight : Prop where
  order : 3 ≤ hdr.btreeOrder.toInt
  node : hdr.NodeFits
  header : hdr.HeaderFits

end IxFileHdr

-- ---------------------------------------------------------------------------
-- Reading the header back
-- ---------------------------------------------------------------------------

namespace IxFileHdr

theorem reads_word (x : Int32) (n : Nat) : Decoder.Reads readWord n (int32Bytes x) x := by
  have h := (@Decoder.Reads.next _ n (int32Bytes x)).map (g := readInt32)
  rw [int32Bytes_length, readInt32_bytes] at h
  exact h

theorem reads_colType (type : ColType) (n : Nat) :
    Decoder.Reads readColType n (int32Bytes (typeWord type)) type := by
  have h := @Decoder.Reads.next _ n (int32Bytes (typeWord type))
  rw [int32Bytes_length] at h
  rw [← List.append_nil (int32Bytes (typeWord type))]
  refine h.bind ?_
  rw [readInt32_bytes]
  cases type <;> exact Decoder.Reads.pure _

variable {hdr h : IxFileHdr}

theorem image_length (htypes : hdr.colTypes.length = hdr.colCount) (hlens : hdr.colLens.length = hdr.colCount) :
    hdr.image.length = 40 + 8 * hdr.colCount := by
  have hblock {α : Type} (l : List α) (f : α → List UInt8) (hf : ∀ a, (f a).length = 4) :
      (l.flatMap f).length = 4 * l.length := by
    induction l with
    | nil => rfl
    | cons a l ih =>
      rw [List.flatMap_cons, List.length_append, hf, ih, List.length_cons]
      omega
  unfold image
  simp only [List.length_append, int32Bytes_length]
  rw [hblock _ _ (fun type => int32Bytes_length _), hblock _ _ int32Bytes_length,
    List.length_take, List.length_take, htypes, hlens, Nat.min_self]
  omega

/-- A header whose length is right is read from its image. -/
theorem reads_image (htypes : hdr.colTypes.length = hdr.colCount) (hlens : hdr.colLens.length = hdr.colCount)
    (htot : hdr.totLen.toInt = hdr.image.length) : Decoder.Reads deserialize 0 hdr.image hdr := by
  have htypes' (n : Nat) := @Decoder.Reads.times _ _ n _ _ reads_colType hdr.colTypes
  have hlens' (n : Nat) := @Decoder.Reads.times _ _ n _ _ reads_word hdr.colLens
  rw [htypes] at htypes'
  rw [hlens] at hlens'
  have himage := image_length htypes hlens
  unfold image at himage htot ⊢
  rw [List.take_of_length_le (Nat.le_of_eq htypes), List.take_of_length_le (Nat.le_of_eq hlens)] at himage htot ⊢
  rw [← List.append_nil (int32Bytes hdr.lastLeaf)] at himage htot ⊢
  unfold deserialize
  apply (reads_word _ _).bind
  apply (reads_word _ _).bind
  apply (reads_word _ _).bind
  apply (reads_word _ _).bind
  apply (reads_word _ _).bind
  apply (htypes' _).bind
  apply (hlens' _).bind
  apply (reads_word _ _).bind
  apply (reads_word _ _).bind
  apply (reads_word _ _).bind
  apply (reads_word _ _).bind
  apply (reads_word _ _).bind
  apply (Decoder.Reads.position).bind
  rw [if_pos]
  · exact Decoder.Reads.pure _
  · rw [htot]
    simp only [List.length_append, List.length_nil]
    omega

theorem serialize_eq_some (hcount : hdr.colTypes.length = hdr.colCount)
    (hlens : hdr.colLens.length = hdr.colCount) (htot : hdr.totLen.toInt = 40 + 8 * hdr.colCount) :
    hdr.serialize = some hdr.image := by
  rw [serialize, image_length hcount hlens, htot]
  exact if_pos rfl

end IxFileHdr

namespace IxManager

open IxFileHdr

variable {hdr : IxFileHdr} {indexCols : List TabColMeta}

/-- A header of at most a page is read from page 0. -/
theorem readHeader_writeHeader {page : List UInt8} (hcount : hdr.colTypes.length = hdr.colCount)
    (hlens : hdr.colLens.length = hdr.colCount) (htot : hdr.totLen.toInt = 40 + 8 * hdr.colCount)
    (hroom : hdr.colCount ≤ 507) (hpage : page.length = 4096) :
    readHeader (writeHeader page hdr.image) = some hdr := by
  have hlen := image_length hcount hlens
  have hall : writeHeader page hdr.image = [] ++ (hdr.image ++ page.drop hdr.image.length) := by
    unfold writeHeader
    rw [List.nil_append]
    apply List.take_of_length_le
    rw [List.length_append, List.length_drop, hpage]
    omega
  have hread := reads_image hcount hlens (by rw [hlen, htot]; rfl) [] (page.drop hdr.image.length) rfl
  rw [readHeader, hall, hread]
  rfl

-- ---------------------------------------------------------------------------
-- The order
-- ---------------------------------------------------------------------------

theorem two_lt_btreeOrder_iff (colTotLen : Nat) : btreeOrder colTotLen > 2 ↔ colTotLen ≤ 1010 := by
  unfold btreeOrder
  have h := Nat.le_div_iff_mul_le (k := colTotLen + 8) (x := 4) (y := 4096 - 24) (by omega)
  omega

/-- The entries of an overfull node have room behind the page header. -/
theorem entries_le {colTotLen : Nat} (h : 0 < btreeOrder colTotLen) :
    (btreeOrder colTotLen + 1) * colTotLen + (btreeOrder colTotLen + 1) * 8 ≤ 4072 := by
  unfold btreeOrder at h ⊢
  have hdiv := Nat.div_mul_le_self (4096 - 24) (colTotLen + 8)
  rw [Nat.sub_add_cancel (by omega), ← Nat.mul_add]
  exact hdiv

theorem createHeader_eq_ok_iff : createHeader indexCols = .ok hdr ↔ totalLen indexCols ≤ 2000 ∧
    hdr = (newHeader indexCols (totalLen indexCols) (btreeOrder (totalLen indexCols))).updateTotLen := by
  unfold createHeader
  by_cases hlen : totalLen indexCols ≤ 2000
  · rw [if_neg (by omega)]
    constructor
    · intro hok
      cases hok
      exact ⟨hlen, rfl⟩
    · rintro ⟨-, rfl⟩
      rfl
  · rw [if_pos (by omega)]
    constructor
    · intro hok
      cases hok
    · rintro ⟨hle, -⟩
      exact absurd hle hlen

/-- The numbers in the new header are the computed ones. -/
structure Exact (indexCols : List TabColMeta) (hdr : IxFileHdr) : Prop where
  count : hdr.colCount = indexCols.length
  total : hdr.colTotLen.toInt = totalLen indexCols
  order : hdr.btreeOrder.toInt = btreeOrder (totalLen indexCols)
  keys : hdr.keysSize.toInt = ((btreeOrder (totalLen indexCols) + 1) * totalLen indexCols : Nat)
  tot : hdr.totLen.toInt = 40 + 8 * indexCols.length

theorem exact_newHeader (hlen : totalLen indexCols ≤ 1010) (hnum : indexCols.length ≤ 507) :
    Exact indexCols
      (newHeader indexCols (totalLen indexCols) (btreeOrder (totalLen indexCols))).updateTotLen := by
  have horder : 0 < btreeOrder (totalLen indexCols) := by
    have h := (two_lt_btreeOrder_iff _).mpr hlen
    omega
  have hroom := entries_le horder
  have hnumInt : (Int32.ofNat indexCols.length).toInt = indexCols.length := Int32.toInt_ofNat_of_lt (by omega)
  refine ⟨?_, Int32.toInt_ofNat_of_lt (by omega), Int32.toInt_ofNat_of_lt (by omega),
    Int32.toInt_ofNat_of_lt (by omega), ?_⟩
  · unfold colCount
    change (Int32.ofNat indexCols.length).toInt.toNat = _
    rw [hnumInt]
    rfl
  · change (Int32.ofInt (40 + 8 * (Int32.ofNat indexCols.length).toInt)).toInt = _
    rw [hnumInt]
    exact Int32.toInt_ofInt_of_le (by omega) (by omega)

/-- An overfull node has room, keys before rids. -/
theorem Exact.nodeFits (h : Exact indexCols hdr) (horder : 0 < btreeOrder (totalLen indexCols)) :
    hdr.NodeFits := by
  have hroom := entries_le horder
  have hkey (i : Nat) (hi : (i : Int) ≤ hdr.btreeOrder.toInt) :
      hdr.keyOffset i + hdr.colTotLen.toInt ≤ 24 + hdr.keysSize.toInt := by
    rw [h.order] at hi
    have hmul : (i + 1) * totalLen indexCols ≤ (btreeOrder (totalLen indexCols) + 1) * totalLen indexCols :=
      Nat.mul_le_mul_right _ (by omega)
    rw [Nat.add_mul i, Nat.one_mul] at hmul
    rw [keyOffset, h.total, h.keys, ← Nat.cast_mul]
    omega
  constructor
  case header =>
    intro i _
    rw [keyOffset, h.total, ← Nat.cast_mul]
    omega
  case keys =>
    intro i hi
    have hend := hkey i hi
    rw [h.keys] at hend
    omega
  case rids =>
    intro i hi
    rw [h.order] at hi
    rw [ridOffset, h.keys]
    omega
  case apart =>
    intro i j hi
    have hend := hkey i hi
    unfold ridOffset
    omega

theorem length_of_layoutRight (hcreate : createHeader indexCols = .ok hdr) (hright : hdr.LayoutRight) :
    totalLen indexCols ≤ 1010 := by
  obtain ⟨-, rfl⟩ := createHeader_eq_ok_iff.mp hcreate
  have hthree : (3 : Int) ≤ (Int32.ofNat (btreeOrder (totalLen indexCols))).toInt := hright.order
  have hdiv := Nat.div_le_self (4096 - 24) (totalLen indexCols + 8)
  rw [Int32.toInt_ofNat_of_lt (by unfold btreeOrder; omega)] at hthree
  exact (two_lt_btreeOrder_iff _).mp (by omega)

theorem Exact.headerFits (h : Exact indexCols
      (newHeader indexCols (totalLen indexCols) (btreeOrder (totalLen indexCols))).updateTotLen)
    (hnum : indexCols.length ≤ 507) :
    (newHeader indexCols (totalLen indexCols) (btreeOrder (totalLen indexCols))).updateTotLen.HeaderFits := by
  intro h' hsame
  have hcount : h'.colCount = indexCols.length := by
    rw [← h.count, colCount, colCount, hsame.colNum]
  have htypes : h'.colTypes.length = h'.colCount := by
    rw [hcount, hsame.colTypes]
    exact List.length_map _
  have hlens : h'.colLens.length = h'.colCount := by
    rw [hcount, hsame.colLens]
    exact List.length_map _
  have htot : h'.totLen.toInt = 40 + 8 * h'.colCount := by
    rw [hcount, hsame.totLen, h.tot]
  refine ⟨h'.image, serialize_eq_some htypes hlens htot, ?_, fun page hpage => ?_⟩
  · rw [image_length htypes hlens]
    omega
  · exact readHeader_writeHeader htypes hlens htot (by omega) hpage

-- ---------------------------------------------------------------------------
-- The file name
-- ---------------------------------------------------------------------------

/-- Each column adds at least its underscore to the name of the file. -/
theorem length_le_getIndexName (tabName : String) (colNames : List String) :
    colNames.length ≤ (getIndexName tabName colNames).utf8ByteSize := by
  have hfold (name : String) : name.utf8ByteSize + colNames.length ≤
      (colNames.foldl (fun indexName col => indexName ++ ("_" ++ col)) name).utf8ByteSize := by
    induction colNames generalizing name with
    | nil => exact le_rfl
    | cons col colNames ih =>
      have hone : ("_" : String).utf8ByteSize = 1 := rfl
      have hrest := ih (name ++ ("_" ++ col))
      rw [String.utf8ByteSize_append, String.utf8ByteSize_append, hone] at hrest
      rw [List.foldl_cons, List.length_cons]
      omega
  have hname := hfold tabName
  rw [getIndexName, String.utf8ByteSize_append]
  omega

/-- In a file system that creates no file with a name of more than 255 bytes, `create_index` gives the index a layout
with room for everything exactly when the key has at most 1010 bytes. -/
theorem layoutRight_iff {creatable : String → Bool} (hmax : ∀ path, creatable path = true → path.utf8ByteSize ≤ 255)
    {tabName : String} {indexCols : List TabColMeta}
    (hfile : creatable (getIndexName tabName (indexCols.map fun col => col.name)) = true) :
    (∃ hdr, createHeader indexCols = .ok hdr ∧ hdr.LayoutRight) ↔ totalLen indexCols ≤ 1010 := by
  constructor
  · rintro ⟨hdr, hcreate, hright⟩
    exact length_of_layoutRight hcreate hright
  · intro hlen
    have hnum : indexCols.length ≤ 507 := by
      have hname := length_le_getIndexName tabName (indexCols.map fun col => col.name)
      rw [List.length_map] at hname
      exact (hname.trans (hmax _ hfile)).trans (by decide)
    have hexact := exact_newHeader hlen hnum
    have horder := (two_lt_btreeOrder_iff _).mpr hlen
    have hthree : (3 : Int) ≤ btreeOrder (totalLen indexCols) := by omega
    refine ⟨_, createHeader_eq_ok_iff.mpr ⟨by omega, rfl⟩, ?_, hexact.nodeFits (by omega), hexact.headerFits hnum⟩
    rw [hexact.order]
    exact hthree

/-- An index on an `INT` and a `CHAR(1000)` column. -/
theorem layoutRight_wide :
    (∀ path : String, decide (path.utf8ByteSize ≤ 255) = true → path.utf8ByteSize ≤ 255) ∧
      ∃ hdr, createHeader [⟨⟨"a", .int, 4, 0⟩, "t"⟩, ⟨⟨"c", .string, 1000, 4⟩, "t"⟩] = .ok hdr ∧ hdr.LayoutRight := by
  have hmax : ∀ path : String, decide (path.utf8ByteSize ≤ 255) = true → path.utf8ByteSize ≤ 255 :=
    fun path hpath => of_decide_eq_true hpath
  refine ⟨hmax, (@layoutRight_iff (fun path => decide (path.utf8ByteSize ≤ 255)) hmax "t" _ (by decide)).mpr ?_⟩
  simp [totalLen]

/-- One `CHAR(1011)` column passes the check of the length, and gives a header of order 2. -/
theorem layout_not_right : totalLen [⟨⟨"c", .string, 1011, 0⟩, "t"⟩] ≤ 2000 ∧
    ¬ ∃ hdr, createHeader [⟨⟨"c", .string, 1011, 0⟩, "t"⟩] = .ok hdr ∧ hdr.LayoutRight := by
  refine ⟨by simp [totalLen], ?_⟩
  rintro ⟨hdr, hcreate, hright⟩
  have hlen := length_of_layoutRight hcreate hright
  simp [totalLen] at hlen

end IxManager

end Rmdb
