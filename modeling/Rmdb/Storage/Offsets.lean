-- SUMMARY: Offsets of pages and of log records as 32-bit numbers, and the files they are right for.
import Rmdb.Recovery.ReadLoops
import Rmdb.Storage.Frames

/-!
# Offsets

`DiskManager::write_page` and `read_page` on a descriptor: `page_no * PAGE_SIZE` is a product of two
`int`s, `lseek` moves the position and fails for a negative offset, and the transfer starts at the
position. Below page 524288 this is the file of pages that the buffer pool reads and writes. The
loops over the log file add up their offset as an `int`.
-/

namespace Rmdb

-- ---------------------------------------------------------------------------
-- Files with a position
-- ---------------------------------------------------------------------------

/-- A file and the position of its descriptor. Behind the end the bytes are zeros. -/
structure SeekFile where
  bytes : Nat → UInt8
  size : Nat
  pos : Nat

/-- A file that has just been created. -/
def SeekFile.empty : SeekFile := ⟨fun _ => 0, 0, 0⟩

/-- `page_no * PAGE_SIZE`, an `int`. -/
def pageOffset (pageNo : Nat) : Int := asInt (pageNo * pageSize)

namespace SeekFile

variable (s : SeekFile)

def lseek (offset : Int) : SeekFile :=
  if 0 ≤ offset then { s with pos := offset.toNat } else s

/-- `lseek` and `write`, where all bytes get through. -/
def write (offset : Int) (data : List UInt8) : SeekFile :=
  let s := s.lseek offset
  { bytes := fun i =>
      if s.pos ≤ i ∧ i < s.pos + data.length then data[i - s.pos]?.getD 0 else s.bytes i
    size := max s.size (s.pos + data.length)
    pos := s.pos + data.length }

/-- `lseek` and `read`. -/
def read (offset : Int) (numBytes : Nat) : List UInt8 × SeekFile :=
  let s := s.lseek offset
  let bytesRead := min numBytes (s.size - s.pos)
  ((List.range bytesRead).map fun i => s.bytes (s.pos + i), { s with pos := s.pos + bytesRead })

def writePage (pageNo : Nat) (data : PageData) : SeekFile :=
  s.write (pageOffset pageNo) data.toList

/-- `read_page`. It throws when the file ends too soon: `none`. -/
def readPage (pageNo : Nat) : Option PageData × SeekFile :=
  let (bytes, s) := s.read (pageOffset pageNo) pageSize
  (if bytes.length = pageSize then some (Vector.ofFn fun i => bytes[i.val]?.getD 0) else none, s)

-- ---------------------------------------------------------------------------
-- Reading and writing bytes
-- ---------------------------------------------------------------------------

variable {s : SeekFile} {offset : Int} {data : List UInt8} {n : Nat}

/-- What is read where it has been written. -/
theorem read_write (hoffset : 0 ≤ offset) : ((s.write offset data).read offset data.length).1 = data := by
  unfold read write lseek
  rw [if_pos hoffset, if_pos hoffset]
  dsimp only
  have hmin : min data.length (max s.size (offset.toNat + data.length) - offset.toNat) = data.length := by
    omega
  rw [hmin]
  refine List.ext_getElem (by simp) fun i hi hi' => ?_
  rw [List.getElem_map, List.getElem_range, if_pos ⟨Nat.le_add_right _ i, Nat.add_lt_add_left hi' _⟩,
    Nat.add_sub_cancel_left, List.getElem?_eq_getElem hi', Option.getD_some]

/-- With a negative offset the read starts where the last transfer ended. -/
theorem read_of_neg (hoffset : offset < 0) (hpos : s.size ≤ s.pos) : (s.read offset n).1 = [] := by
  unfold read lseek
  rw [if_neg (by omega)]
  dsimp only
  rw [Nat.sub_eq_zero_of_le hpos, Nat.min_zero]
  rfl

theorem write_of_neg (hoffset : offset < 0) : (s.write offset data).size = max s.size (s.pos + data.length) := by
  unfold write lseek
  rw [if_neg (by omega)]

theorem write_zero_size_le (hsize : s.size ≤ data.length) :
    (s.write 0 data).size ≤ (s.write 0 data).pos := by
  unfold write lseek
  rw [if_pos (Int.le_refl 0)]
  exact max_le (by simpa using hsize) (Nat.le_refl _)

end SeekFile

inductive PageIo where
  | read (pageNo : Nat)
  | write (pageNo : Nat) (data : PageData)

def PageIo.pageNo : PageIo → Nat
  | .read k => k
  | .write k _ => k

def PageIo.run (s : SeekFile) : PageIo → SeekFile
  | .read k => (s.readPage k).2
  | .write k data => s.writePage k data

/-- What was last written to a page. -/
def lastWritten (ios : List PageIo) (k : Nat) : Option PageData :=
  ios.foldl (fun last io => match io with
    | .read _ => last
    | .write j data => if j = k then some data else last) none

-- ---------------------------------------------------------------------------
-- The file of pages
-- ---------------------------------------------------------------------------

/-- The bytes are those of the pages, one after the other. -/
structure SeekFile.Represents (s : SeekFile) (file : List PageData) : Prop where
  size : s.size = file.length * pageSize
  page : ∀ k data, file[k]? = some data → ∀ i < pageSize, s.bytes (k * pageSize + i) = data[i]?.getD 0
  behind : ∀ i, s.size ≤ i → s.bytes i = 0

theorem pageOffset_of_lt {k : Nat} (h : k < 524288) : pageOffset k = (k * pageSize : Nat) := by
  have hlt : k * pageSize < 2147483648 := by
    unfold pageSize
    omega
  rw [← asInt_of_lt hlt, pageOffset, Int.natCast_mul]

namespace SeekFile

variable {s : SeekFile} {file : List PageData} {k : Nat} {data : PageData}

theorem represents_empty : empty.Represents [] :=
  ⟨rfl, fun _ _ hk => (nomatch hk), fun _ _ => rfl⟩

theorem lseek_pos (h : k < 524288) : s.lseek (pageOffset k) = { s with pos := k * pageSize } := by
  rw [pageOffset_of_lt h, lseek, if_pos (Int.natCast_nonneg _), Int.toNat_natCast]

theorem readPage_of_bytes (h : (s.read (pageOffset k) pageSize).1 = data.toList) :
    (s.readPage k).1 = some data := by
  unfold readPage
  dsimp only
  rw [h, if_pos Vector.length_toList, Option.some.injEq]
  refine Vector.ext fun i hi => ?_
  rw [Vector.getElem_ofFn]
  simp [hi]

theorem readPage_of_short (h : (s.read (pageOffset k) pageSize).1.length < pageSize) :
    (s.readPage k).1 = none := by
  unfold readPage
  dsimp only
  rw [if_neg (Nat.ne_of_lt h)]

/-- Pages with one offset are one page. -/
theorem readPage_writePage {j : Nat} (hoffset : 0 ≤ pageOffset k) (hsame : pageOffset j = pageOffset k) :
    ((s.writePage k data).readPage j).1 = some data := by
  apply readPage_of_bytes
  have hread := @read_write s (pageOffset k) data.toList hoffset
  rw [Vector.length_toList] at hread
  rw [hsame]
  exact hread

/-- Page 524288 is read where the last transfer ended. -/
theorem readPage_of_neg (hoffset : pageOffset k < 0) (hpos : s.size ≤ s.pos) : (s.readPage k).1 = none := by
  apply readPage_of_short
  rw [read_of_neg hoffset hpos]
  exact Nat.zero_lt_succ _

theorem writePage_size_le (hoffset : pageOffset k = 0) (hsize : s.size ≤ pageSize) :
    (s.writePage k data).size ≤ (s.writePage k data).pos := by
  unfold SeekFile.writePage
  rw [hoffset]
  exact write_zero_size_le (Vector.length_toList ▸ hsize)

theorem Represents.writePage (h : s.Represents file) (hk : k < 524288) :
    (s.writePage k data).Represents (DiskManager.writeAt file k data) := by
  unfold SeekFile.writePage write
  rw [lseek_pos hk, Vector.length_toList]
  have hsize := h.size
  refine ⟨?_, ?_, ?_⟩
  · rw [DiskManager.length_writeAt]
    dsimp only
    unfold pageSize at *
    omega
  · intro j data' hj i hi
    dsimp only
    by_cases hjk : j = k
    · subst hjk
      rw [DiskManager.getElem?_writeAt_self, Option.some.injEq] at hj
      subst hj
      rw [if_pos (by omega), Nat.add_sub_cancel_left, Vector.getElem?_toList]
    · have hout : ¬ (k * pageSize ≤ j * pageSize + i ∧ j * pageSize + i < k * pageSize + pageSize) := by
        unfold pageSize at *
        omega
      rw [if_neg hout]
      rcases DiskManager.getElem?_writeAt_ne file data hjk with hsame | ⟨hnone, hzero⟩
      · exact h.page j data' (hsame ▸ hj) i hi
      · -- The page is a hole.
        rw [hzero, Option.some.injEq] at hj
        subst hj
        have hlen := List.getElem?_eq_none_iff.mp hnone
        rw [h.behind _ (by rw [hsize]; unfold pageSize at *; omega)]
        rw [PageData.zero, Vector.getElem?_replicate, if_pos hi, Option.getD_some]
  · intro i hi
    dsimp only at hi ⊢
    rw [if_neg (by omega)]
    exact h.behind i (by omega)

/-- The bytes of page `k` in the file. -/
theorem Represents.read (h : s.Represents file) (hk : k < 524288) (hpage : file[k]? = some data) :
    (s.read (pageOffset k) pageSize).1 = data.toList := by
  obtain ⟨hlen, -⟩ := List.getElem?_eq_some_iff.mp hpage
  have hsize := h.size
  unfold SeekFile.read
  rw [lseek_pos hk]
  dsimp only
  have hmin : min pageSize (s.size - k * pageSize) = pageSize := by
    unfold pageSize at *
    omega
  rw [hmin]
  refine List.ext_getElem (by simp) fun i hi hi' => ?_
  have hip : i < pageSize := by simpa using hi
  rw [List.getElem_map, List.getElem_range, h.page k data hpage i hip, Vector.getElem?_eq_getElem hip,
    Option.getD_some, Vector.getElem_toList]

theorem Represents.readPage (h : s.Represents file) (hk : k < 524288) :
    (s.readPage k).1 = file[k]? ∧ (s.readPage k).2.Represents file := by
  constructor
  · cases hpage : file[k]? with
    | some data => exact readPage_of_bytes (h.read hk hpage)
    | none =>
      apply readPage_of_short
      have hlen := List.getElem?_eq_none_iff.mp hpage
      have hsize := h.size
      unfold SeekFile.read
      rw [lseek_pos hk, List.length_map, List.length_range]
      dsimp only
      unfold pageSize at *
      omega
  · unfold SeekFile.readPage SeekFile.read
    rw [lseek_pos hk]
    exact ⟨h.size, h.page, h.behind⟩

end SeekFile

/-- In every run on the first `n` pages of a file, a page that was written reads as it was last
written. -/
def PagesKept (n : Nat) : Prop :=
  ∀ (s : SeekFile) (file : List PageData) (ios : List PageIo) (k : Nat) (data : PageData),
    s.Represents file → k < n → (∀ io ∈ ios, io.pageNo < n) → lastWritten ios k = some data →
      ((ios.foldl PageIo.run s).readPage k).1 = some data

/-- The pages after a run, and what was last written to each. -/
theorem runPages_represents {s : SeekFile} {file : List PageData} {ios : List PageIo}
    (h : s.Represents file) (hios : ∀ io ∈ ios, io.pageNo < 524288) :
    ∃ file', (ios.foldl PageIo.run s).Represents file' ∧
      ∀ k data, lastWritten ios k = some data → file'[k]? = some data := by
  induction ios using List.reverseRecOn with
  | nil => exact ⟨file, h, fun _ _ hlast => nomatch hlast⟩
  | append_singleton ios io ih =>
    obtain ⟨file', hrep, hlast⟩ := ih fun io hio => hios io (List.mem_append_left _ hio)
    have hlt : io.pageNo < 524288 := hios io (by simp)
    simp only [List.foldl_append, List.foldl_cons, List.foldl_nil, lastWritten]
    cases io with
    | read j => exact ⟨file', (hrep.readPage hlt).2, hlast⟩
    | write j data =>
      refine ⟨DiskManager.writeAt file' j data, hrep.writePage hlt, fun k data' hk => ?_⟩
      dsimp only at hk
      split at hk
      · next hjk =>
        subst hjk
        rw [DiskManager.getElem?_writeAt_self]
        exact hk
      · next hjk =>
        have hold := hlast k data' hk
        rcases DiskManager.getElem?_writeAt_ne file' data (Ne.symm hjk) with hsame | ⟨hnone, -⟩
        · rw [hsame]
          exact hold
        · rw [hnone] at hold
          cases hold

theorem pagesKept_of_le {n : Nat} (h : n ≤ 524288) : PagesKept n := by
  intro s file ios k data hrep hk hios hlast
  obtain ⟨file', hrep', hlast'⟩ := runPages_represents hrep fun io hio => by
    have := hios io hio
    omega
  rw [(hrep'.readPage (by omega)).1]
  exact hlast' k data hlast

/-- Page 524288 has a negative offset, and `lseek` leaves the position where the last call left it. -/
theorem le_of_pagesKept {n : Nat} (h : PagesKept n) : n ≤ 524288 := by
  by_contra hn
  let ones : PageData := Vector.replicate pageSize 1
  let twos : PageData := Vector.replicate pageSize 2
  have hios : ∀ io ∈ [PageIo.write 524288 ones, PageIo.write 0 twos], io.pageNo < n := by
    intro io hio
    simp only [List.mem_cons, List.not_mem_nil, or_false] at hio
    rcases hio with rfl | rfl
    · show 524288 < n
      omega
    · show 0 < n
      omega
  have hread := h .empty [] _ 524288 ones SeekFile.represents_empty (by omega) hios rfl
  simp only [List.foldl_cons, List.foldl_nil, PageIo.run] at hread
  -- Both writes went to the start of the file, and the read starts behind them.
  have hneg : pageOffset 524288 < 0 := by decide
  have hsize : (SeekFile.empty.writePage 524288 ones).size ≤ pageSize := by
    rw [SeekFile.writePage, SeekFile.write_of_neg hneg, Vector.length_toList]
    exact max_le (Nat.zero_le _) (Nat.le_of_eq (Nat.zero_add _))
  have hnone := SeekFile.readPage_of_neg hneg (@SeekFile.writePage_size_le _ 0 twos rfl hsize)
  rw [hnone] at hread
  cases hread

-- ---------------------------------------------------------------------------
-- The log
-- ---------------------------------------------------------------------------

/-- The states of a loop, each with the sum of the lengths of the records before it. -/
inductive ReadsTo (turn : ReadState → Option ReadState) (s₀ : ReadState) : Nat → ReadState → Prop where
  | start : ReadsTo turn s₀ 0 s₀
  | turn {n : Nat} {s t : ReadState} : ReadsTo turn s₀ n s → turn s = some t →
    ReadsTo turn s₀ (n + headerLen t.logHdr) t

/-- The size of the file is right, and so is the offset in every turn of the loops. -/
def LogOffsetsTrue (file logHdr : List UInt8) (pos : Nat) : Prop :=
  getFileSize file = file.length ∧
    (∀ n s, ReadsTo (analyzeTurn file) ⟨logHdr, 0, pos⟩ n s → s.offset = n) ∧
    ∀ junk replay n s, ReadsTo (redoTurn file junk replay) ⟨logHdr, 0, pos⟩ n s → s.offset = n

/-- The file and every record that its headers lead to end below `2 ^ 31`. -/
def LogBelow (file logHdr : List UInt8) : Prop :=
  file.length < 2147483648 ∧
    ∀ offset hdr, HeaderAt file logHdr offset hdr → offset + headerLen hdr < 2147483648

variable {file logHdr : List UInt8} {pos : Nat} {turn : ReadState → Option ReadState}

/-- As long as the records end below `2 ^ 31`, the offset is the sum of their lengths. -/
theorem IsTurn.offset_true (hturn : IsTurn file turn)
    (hbelow : ∀ offset hdr, HeaderAt file logHdr offset hdr → offset + headerLen hdr < 2147483648)
    {n : Nat} {s : ReadState} (h : ReadsTo turn ⟨logHdr, 0, pos⟩ n s) :
    s.offset = n ∧ ((n : Int) < getFileSize file → HeaderAt file logHdr n (headerOver file n s.logHdr)) := by
  induction h with
  | start => exact ⟨rfl, fun h => .first h⟩
  | @turn n s t _ ht ih =>
    obtain ⟨hs, hhdr⟩ := ih
    have hin : (n : Int) < getFileSize file := by
      by_contra hpast
      rw [hturn.past s n hs (not_lt.mp hpast)] at ht
      cases ht
    obtain ⟨hlog, hoffset⟩ := hturn.inside s t n hs hin ht
    have hat := hhdr hin
    rw [← hlog] at hat
    refine ⟨?_, fun hlt => .next hat hlt⟩
    rw [hoffset, ← Int.natCast_add, asInt_of_lt (hbelow n _ hat)]

/-- Where the offsets are right, the loop comes to every header. -/
theorem IsTurn.reaches_header (hturn : IsTurn file turn)
    (hgo : ∀ (s : ReadState) (offset : Nat), s.offset = offset →
      (offset : Int) < getFileSize file → ∃ t, turn s = some t)
    (htrue : ∀ n s, ReadsTo turn ⟨logHdr, 0, pos⟩ n s → s.offset = n)
    {offset : Nat} {hdr : List UInt8} (hat : HeaderAt file logHdr offset hdr) :
    ∃ t, ReadsTo turn ⟨logHdr, 0, pos⟩ (offset + headerLen hdr) t ∧ t.logHdr = hdr ∧
      t.offset = asInt (offset + headerLen hdr) := by
  induction hat with
  | first hin =>
    obtain ⟨t, ht⟩ := hgo ⟨logHdr, 0, pos⟩ 0 rfl hin
    obtain ⟨hlog, hoffset⟩ := hturn.inside _ t 0 rfl hin ht
    dsimp only at hlog
    rw [← hlog]
    refine ⟨t, ?_, rfl, hoffset⟩
    exact .turn .start ht
  | @next offset hdr _ hlt ih =>
    obtain ⟨s, hs, hhdr, -⟩ := ih
    have hoff := htrue _ s hs
    obtain ⟨t, ht⟩ := hgo s _ hoff hlt
    obtain ⟨hlog, hoffset⟩ := hturn.inside s t _ hoff hlt ht
    rw [hhdr] at hlog
    rw [← hlog]
    exact ⟨t, .turn hs ht, rfl, hoffset⟩

theorem logOffsetsTrue_iff (file logHdr : List UInt8) (pos : Nat) :
    LogOffsetsTrue file logHdr pos ↔ LogBelow file logHdr := by
  constructor
  · rintro ⟨hsize, htrue, -⟩
    have hlt := @getFileSize_lt file
    refine ⟨by omega, fun offset hdr hat => ?_⟩
    obtain ⟨t, hreads, -, hoffset⟩ :=
      isTurn_analyzeTurn.reaches_header analyzeTurn_goes_on htrue hat
    have hint : asInt ((offset : Int) + headerLen hdr) < 2147483648 := by
      unfold asInt
      omega
    rw [← hoffset, htrue _ t hreads] at hint
    exact_mod_cast hint
  · rintro ⟨hsize, hbelow⟩
    refine ⟨asInt_of_lt hsize, fun n s h => ?_, fun junk replay n s h => ?_⟩
    · exact (isTurn_analyzeTurn.offset_true hbelow h).1
    · exact (isTurn_redoTurn.offset_true hbelow h).1

/-- The length in the header of a record that is in the file. -/
theorem headerLen_record {front rest : List UInt8} {log : LogRecord Int32} (hvalid : log.Valid)
    (hfile : file = front ++ (log.bytes ++ rest)) (hsize : file.length < 2147483648) :
    headerLen (headerOver file front.length logHdr) = log.bytes.length := by
  have hlen : file.length = front.length + (24 + (log.body.bytes.length + rest.length)) := by
    simp [hfile, LogRecord.bytes]
  have hmin : (min (24 : Int) (getFileSize file - front.length)).toNat = 24 := by
    rw [getFileSize, asInt_of_lt hsize]
    omega
  have hbytes : (file.drop front.length).take 24 = log.toLogHeader.bytes := by
    rw [hfile, List.drop_left, LogRecord.bytes, List.append_assoc]
    exact List.take_left' log.toLogHeader.bytes_length
  unfold headerOver
  dsimp only
  rw [hmin, hbytes, headerLen, LogHeader.deserialize_bytes _ hvalid.ofCode_code, hvalid.totLen]

/-- In the log that the program writes, the headers are those of the records. -/
theorem headerAt_logBytes {logs : List (LogRecord Int32)} (hvalid : ∀ log ∈ logs, log.Valid)
    (hsize : (logBytes logs).length < 2147483648) {offset : Nat} {hdr : List UInt8}
    (hat : HeaderAt (logBytes logs) logHdr offset hdr) :
    ∃ front log rest, logs = front ++ log :: rest ∧ offset = (logBytes front).length ∧
      offset + headerLen hdr = (logBytes (front ++ [log])).length := by
  have hrecord : ∀ {front log rest hdr₀}, logs = front ++ log :: rest →
      (logBytes front).length + headerLen (headerOver (logBytes logs) (logBytes front).length hdr₀) =
        (logBytes (front ++ [log])).length := by
    intro front log rest hdr₀ hlogs
    have hlog : log.Valid := hvalid log (by simp [hlogs])
    have hfile : logBytes logs = logBytes front ++ (log.bytes ++ logBytes rest) := by
      rw [hlogs, logBytes_append, logBytes_cons]
    rw [headerLen_record hlog hfile hsize]
    simp
  induction hat with
  | first hin =>
    cases hlogs : logs with
    | nil =>
      rw [hlogs] at hin
      contradiction
    | cons log rest =>
      have hnext := @hrecord [] log rest logHdr hlogs
      rw [hlogs] at hnext
      exact ⟨[], log, rest, rfl, rfl, hnext⟩
  | @next offset hdr _ hlt ih =>
    obtain ⟨front, log, rest, hlogs, -, hnext⟩ := ih
    rw [getFileSize, asInt_of_lt hsize, hnext] at hlt
    cases rest with
    | nil =>
      rw [← hlogs] at hlt
      omega
    | cons log' rest =>
      have hlogs' : logs = (front ++ [log]) ++ log' :: rest := by simp [hlogs]
      refine ⟨front ++ [log], log', rest, hlogs', hnext, ?_⟩
      rw [hnext]
      exact hrecord hlogs'

/-- For the log that the program writes, the length of the file is all that counts. -/
theorem logBelow_logBytes {logs : List (LogRecord Int32)} (hvalid : ∀ log ∈ logs, log.Valid)
    (logHdr : List UInt8) : LogBelow (logBytes logs) logHdr ↔ (logBytes logs).length < 2147483648 := by
  refine ⟨And.left, fun hsize => ⟨hsize, fun offset hdr hat => ?_⟩⟩
  obtain ⟨front, log, rest, hlogs, -, hnext⟩ := headerAt_logBytes hvalid hsize hat
  rw [hnext]
  have hsplit : logs = (front ++ [log]) ++ rest := by simp [hlogs]
  rw [hsplit, logBytes_append, List.length_append] at hsize
  omega

-- ---------------------------------------------------------------------------
-- Both
-- ---------------------------------------------------------------------------

/-- The offsets of the first `n` pages are right, the pages lie apart and read as they were
written, and the offsets into the log file are right, exactly when there are at most 524288 pages
and the log ends below `2 ^ 31`. -/
theorem offsets_true_iff (n : Nat) (file logHdr : List UInt8) (pos : Nat) :
    ((∀ k < n, pageOffset k = k * pageSize) ∧
      (∀ j < n, ∀ k < n, j < k → pageOffset j + pageSize ≤ pageOffset k) ∧
      PagesKept n ∧ LogOffsetsTrue file logHdr pos) ↔
    n ≤ 524288 ∧ LogBelow file logHdr := by
  constructor
  · rintro ⟨-, -, hkept, hlog⟩
    exact ⟨le_of_pagesKept hkept, (logOffsetsTrue_iff file logHdr pos).mp hlog⟩
  · rintro ⟨hn, hbelow⟩
    have hoffset : ∀ k < n, pageOffset k = k * pageSize := by
      intro k hk
      rw [pageOffset_of_lt (by omega), Int.natCast_mul]
    refine ⟨hoffset, fun j hj k hk hjk => ?_, pagesKept_of_le hn,
      (logOffsetsTrue_iff file logHdr pos).mpr hbelow⟩
    rw [hoffset j hj, hoffset k hk]
    unfold pageSize
    omega

/-- Page 1048576 lies on page 0, and a log file of `2 ^ 31` bytes has a negative size. -/
theorem offsets_wrap : pageOffset 1048576 = pageOffset 0 ∧
    (([.write 0 (Vector.replicate pageSize 1), .write 1048576 (Vector.replicate pageSize 2)].foldl
      PageIo.run .empty).readPage 0).1 = some (Vector.replicate pageSize 2) ∧
    getFileSize (List.replicate 2147483648 0) = -2147483648 := by
  refine ⟨rfl, ?_, ?_⟩
  · simp only [List.foldl_cons, List.foldl_nil, PageIo.run]
    exact SeekFile.readPage_writePage (by decide) rfl
  · rw [getFileSize, List.length_replicate]
    rfl

end Rmdb
