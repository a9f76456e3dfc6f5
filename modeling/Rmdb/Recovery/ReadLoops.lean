-- SUMMARY: When the loops of recovery that read the log file end, whatever is in the file.
import Rmdb.Lib.Loop
import Rmdb.Recovery.ReadLog

/-!
# The loops over the log file

The loops of `analyze` and `redo` go on at the offset that they get by adding the length in the
header, which nobody looks at, to the offset of the header. Here the file has any bytes, and offsets
and sizes are `int`s that wrap around. `lseek` fails for a negative offset: the file is then read
where the last read stopped. The build defines `NDEBUG`, so that a short read is no error.
-/

namespace Rmdb

/-- One turn of the loop of `redo`. Memory from `new` has any bytes in it. What `redo` does with the record
is left open: `replay` says whether it returns or throws. -/
def redoTurn (file : List UInt8) (junk : Nat → UInt8) (replay : LogHeader Int32 → List UInt8 → Bool)
    (s : ReadState) : Option ReadState :=
  let (ret, logHdr, pos) := readLogAt file s.pos s.logHdr 24 s.offset
  if 0 < ret then
    let log := LogHeader.deserialize logHdr
    let logBuf := (List.range log.logTotLen.toNat).map junk
    let (_, logBuf, pos) := readLogAt file pos logBuf (asInt log.logTotLen.toNat) s.offset
    if replay log logBuf then some ⟨logHdr, asInt (s.offset + log.logTotLen.toNat), pos⟩ else none
  else none

-- ---------------------------------------------------------------------------
-- The headers in a file
-- ---------------------------------------------------------------------------

/-- The header buffer once the header at an offset is read into it. At the end of the file the header may be
cut off: what is missing stays as it was. -/
def headerOver (file : List UInt8) (offset : Nat) (logHdr : List UInt8) : List UInt8 :=
  let bytes := (file.drop offset).take (min 24 (getFileSize file - offset)).toNat
  bytes ++ logHdr.drop bytes.length

/-- `log_tot_len_` of a header. -/
def headerLen (logHdr : List UInt8) : Nat := (LogHeader.deserialize logHdr).logTotLen.toNat

/-- The headers that the lengths in the file lead to: the first one is at its start, and behind each one
comes the next. -/
inductive HeaderAt (file logHdr : List UInt8) : Nat → List UInt8 → Prop where
  | first : 0 < getFileSize file → HeaderAt file logHdr 0 (headerOver file 0 logHdr)
  | next {offset : Nat} {hdr : List UInt8} : HeaderAt file logHdr offset hdr →
    ((offset + headerLen hdr : Nat) : Int) < getFileSize file →
    HeaderAt file logHdr (offset + headerLen hdr) (headerOver file (offset + headerLen hdr) hdr)

/-- Every header is longer than nothing, and the offset behind it is an `int`. -/
def Advances (file logHdr : List UInt8) : Prop :=
  ∀ offset hdr, HeaderAt file logHdr offset hdr →
    0 < headerLen hdr ∧ offset + headerLen hdr < 2147483648

-- ---------------------------------------------------------------------------
-- One turn
-- ---------------------------------------------------------------------------

section

variable {file logHdr hdr : List UInt8} {offset pos : Nat} {s : ReadState} {turn : ReadState → Option ReadState}

/-- A header that is read again is the same. -/
theorem headerOver_self : headerOver file offset (headerOver file offset logHdr) = headerOver file offset logHdr := by
  simp [headerOver]

theorem readLogAt_past (h : getFileSize file ≤ offset) : (readLogAt file pos logHdr 24 offset).1 ≤ 0 := by
  by_cases hlt : getFileSize file < offset
  · simp [readLogAt, hlt]
  · have heq : getFileSize file - (offset : Int) = 0 := by omega
    have hzero : min (24 : Int) (asInt (getFileSize file - offset)) = 0 := by
      rw [heq]
      decide
    simp [readLogAt, hlt, hzero]

theorem readLogAt_header (h : (offset : Int) < getFileSize file) : ∃ ret pos', 0 < ret ∧
    readLogAt file pos logHdr 24 offset = (ret, headerOver file offset logHdr, pos') := by
  have hlt := @getFileSize_lt file
  have hle := @getFileSize_le file
  have hdiff : asInt (getFileSize file - offset) = getFileSize file - offset := by
    simp only [asInt]
    omega
  have hmin : 0 < min (24 : Int) (getFileSize file - offset) := by omega
  have hne : ¬ min (24 : Int) (getFileSize file - offset) = 0 := by omega
  have hneg : ¬ min (24 : Int) (getFileSize file - offset) < 0 := by omega
  have hoff : ¬ ((offset : Int) < 0) := by omega
  let bytes := (file.drop offset).take (min 24 (getFileSize file - offset)).toNat
  refine ⟨bytes.length, offset + bytes.length, ?_, ?_⟩
  · show (0 : Int) < ((file.drop offset).take (min 24 (getFileSize file - offset)).toNat).length
    rw [List.length_take, List.length_drop]
    omega
  · simp only [readLogAt, not_lt.mpr h.le, if_false, hdiff, hne, hneg, hoff, Int.toNat_natCast]
    rfl

/-- What the turns of both loops do at an offset that is not negative. -/
structure IsTurn (file : List UInt8) (turn : ReadState → Option ReadState) : Prop where
  past : ∀ (s : ReadState) (offset : Nat), s.offset = offset → getFileSize file ≤ offset → turn s = none
  inside : ∀ (s t : ReadState) (offset : Nat), s.offset = offset →
    (offset : Int) < getFileSize file → turn s = some t →
    t.logHdr = headerOver file offset s.logHdr ∧ t.offset = asInt (offset + headerLen t.logHdr)

theorem isTurn_analyzeTurn : IsTurn file (analyzeTurn file) where
  past s offset hs hpast := by
    have := @readLogAt_past file s.logHdr offset s.pos hpast
    simp [analyzeTurn, hs, not_lt.mpr this]
  inside s t offset hs hin ht := by
    obtain ⟨ret, pos', hret, hread⟩ := @readLogAt_header file s.logHdr offset s.pos hin
    simp only [analyzeTurn, hs, hread, hret, if_true] at ht
    rw [← Option.some.inj ht]
    exact ⟨rfl, rfl⟩

theorem isTurn_redoTurn {junk : Nat → UInt8} {replay : LogHeader Int32 → List UInt8 → Bool} :
    IsTurn file (redoTurn file junk replay) where
  past s offset hs hpast := by
    have := @readLogAt_past file s.logHdr offset s.pos hpast
    simp [redoTurn, hs, not_lt.mpr this]
  inside s t offset hs hin ht := by
    obtain ⟨ret, pos', hret, hread⟩ := @readLogAt_header file s.logHdr offset s.pos hin
    simp only [redoTurn, hs, hread, hret, if_true] at ht
    split at ht
    · rw [← Option.some.inj ht]
      exact ⟨rfl, rfl⟩
    · exact absurd ht (Option.some_ne_none t).symm

-- ---------------------------------------------------------------------------
-- The loops
-- ---------------------------------------------------------------------------

/-- As long as the lengths go forward the loop comes closer to the end of the file. -/
theorem IsTurn.ends (hturn : IsTurn file turn) (hadv : Advances file logHdr) :
    Loop.Ends turn ⟨logHdr, 0, pos⟩ := by
  let Inv : ReadState → Prop := fun s => ∃ offset : Nat, s.offset = offset ∧
    ((offset : Int) < getFileSize file → HeaderAt file logHdr offset (headerOver file offset s.logHdr))
  refine @Loop.Ends.of_measure _ turn _ Inv (fun s => (getFileSize file - s.offset).toNat) ?_
    ⟨0, rfl, fun h => .first h⟩
  rintro s t ⟨offset, hs, hhdr⟩ ht
  have hin : (offset : Int) < getFileSize file := by
    by_contra hpast
    rw [hturn.past s offset hs (not_lt.mp hpast)] at ht
    cases ht
  obtain ⟨hlog, hoffset⟩ := hturn.inside s t offset hs hin ht
  have hat := hhdr hin
  rw [← hlog] at hat
  obtain ⟨hpos, hint⟩ := hadv offset _ hat
  have hnat : t.offset = (offset + headerLen t.logHdr : Nat) := by
    rw [hoffset, ← Int.natCast_add, asInt_of_lt hint]
  refine ⟨⟨offset + headerLen t.logHdr, hnat, fun hlt => .next hat hlt⟩, ?_⟩
  rw [hnat, hs]
  omega

/-- A turn at a header without length comes back to the header. -/
theorem IsTurn.not_ends (hturn : IsTurn file turn)
    (hgo : ∀ (s : ReadState) (offset : Nat), s.offset = offset →
      (offset : Int) < getFileSize file → ∃ t, turn s = some t)
    (hat : HeaderAt file logHdr offset hdr) (hzero : headerLen hdr = 0) :
    ¬ Loop.Ends turn ⟨logHdr, 0, pos⟩ := by
  have hreach : ∀ offset hdr, HeaderAt file logHdr offset hdr → (offset : Int) < getFileSize file ∧
      ∃ s, Loop.Reaches turn ⟨logHdr, 0, pos⟩ s ∧ s.offset = offset ∧ headerOver file offset s.logHdr = hdr := by
    intro offset hdr hat
    induction hat with
    | first hin => exact ⟨hin, _, .refl, rfl, rfl⟩
    | @next offset hdr _ hlt ih =>
      obtain ⟨hin, s, hs, hoff, rfl⟩ := ih
      obtain ⟨t, ht⟩ := hgo s offset hoff hin
      obtain ⟨hlog, hoffset⟩ := hturn.inside s t offset hoff hin ht
      refine ⟨hlt, t, hs.tail ht, ?_, by rw [hlog]⟩
      have hsize := @getFileSize_lt file
      rw [hoffset, hlog, ← Int.natCast_add, asInt_of_lt (by omega)]
  obtain ⟨hin, s, hs, hoff, rfl⟩ := hreach offset hdr hat
  let Back : ReadState → Prop := fun s =>
    s.offset = offset ∧ headerLen (headerOver file offset s.logHdr) = 0
  have hback : ∀ s, Back s → ∃ t, turn s = some t ∧ Back t := by
    rintro s ⟨hoff, hzero⟩
    obtain ⟨t, ht⟩ := hgo s offset hoff hin
    obtain ⟨hlog, hoffset⟩ := hturn.inside s t offset hoff hin ht
    have hsize := @getFileSize_lt file
    refine ⟨t, ht, ?_, ?_⟩
    · rw [hoffset, hlog, hzero, Int.natCast_zero, add_zero, asInt_of_lt (by omega)]
    · rw [hlog, headerOver_self]
      exact hzero
  have hs' : Back s := ⟨hoff, hzero⟩
  exact fun hends => Loop.not_ends Back hback hs' (hends.of_reaches hs)

theorem analyzeTurn_goes_on (s : ReadState) (offset : Nat) (hs : s.offset = offset)
    (hin : (offset : Int) < getFileSize file) : ∃ t, analyzeTurn file s = some t := by
  obtain ⟨ret, pos', hret, hread⟩ := @readLogAt_header file s.logHdr offset s.pos hin
  simp only [analyzeTurn, hs, hread, hret, if_true]
  exact ⟨_, rfl⟩

theorem redoTurn_goes_on {junk : Nat → UInt8} {replay : LogHeader Int32 → List UInt8 → Bool}
    (hreplay : ∀ log logBuf, replay log logBuf = true) (s : ReadState) (offset : Nat) (hs : s.offset = offset)
    (hin : (offset : Int) < getFileSize file) : ∃ t, redoTurn file junk replay s = some t := by
  obtain ⟨ret, pos', hret, hread⟩ := @readLogAt_header file s.logHdr offset s.pos hin
  simp only [redoTurn, hs, hread, hret, hreplay, if_true]
  exact ⟨_, rfl⟩

end

/-- The log of a transaction that has begun and done nothing else. -/
def beginLog : List UInt8 := (LogRecord.beginLogRecord 0 (-1) 1 : LogRecord Int32).bytes

theorem beginLog_headerAt {logHdr hdr : List UInt8} {offset : Nat} (h : HeaderAt beginLog logHdr offset hdr)
    (hlogHdr : logHdr = List.replicate 24 0) : offset = 0 ∧ headerLen hdr = 24 := by
  subst hlogHdr
  induction h with
  | first => exact ⟨rfl, by decide⟩
  | next _ hlt ih =>
    obtain ⟨rfl, hlen⟩ := ih
    rw [hlen] at hlt
    exact absurd hlt (by decide)

end Rmdb
