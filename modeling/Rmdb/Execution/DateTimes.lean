-- SUMMARY: `DATETIME` values: what `select_from` prints, and the order of the comparators.
import Mathlib.Algebra.BigOperators.Group.Finset.Basic
import Mathlib.Algebra.Order.BigOperators.Group.Finset
import Rmdb.Common.DateTime
import Rmdb.Execution.SortOrder

/-!
# `DATETIME` values

`check_set_datetime` packs the six numbers of a literal into one, `select_from` takes them out again with
shifts and masks, and the comparators look at the packed number only. The time of a date is the number of
its seconds in the calendar, so that earlier and later have a meaning of their own.
-/

namespace Rmdb

-- ---------------------------------------------------------------------------
-- Printing
-- ---------------------------------------------------------------------------

/-- `(tmp >> shift) & mask`, with a mask of `width` ones. The shift of a signed number rounds down. -/
def shiftMask (tmp : Int) (shift width : Nat) : Nat := (tmp / 2 ^ shift % 2 ^ width).toNat

/-- `std::string(len - size, '0')` in front of `std::to_string`. For a number with more digits the count
wraps around, and the constructor throws: `none`. -/
def zeroPad (len n : Nat) : Option (List UInt8) :=
  let s := ascii (Nat.repr n)
  if s.length ≤ len then some (List.replicate (len - s.length) 48 ++ s) else none

/-- `col_str` of a `DATETIME` column. -/
def printDateTime (col : ColMeta) (r : RmRecord) : Option (List UInt8) := do
  let tmp := readBigint (slice r col.offset 8)
  let fyear ← zeroPad 4 (shiftMask tmp 40 16)
  let fmonth ← zeroPad 2 (shiftMask tmp 32 8)
  let fday ← zeroPad 2 (shiftMask tmp 24 8)
  let fhour ← zeroPad 2 (shiftMask tmp 16 8)
  let fminute ← zeroPad 2 (shiftMask tmp 8 8)
  let fsec ← zeroPad 2 (shiftMask tmp 0 8)
  return joinFields fyear fmonth fday fhour fminute fsec

-- ---------------------------------------------------------------------------
-- The calendar
-- ---------------------------------------------------------------------------

def daysInYear (year : Nat) : Nat := ∑ month ∈ Finset.range 13, daysInMonth year month

namespace DateTime

/-- The days from the beginning of the calendar. -/
def dayNumber (d : DateTime) : Nat :=
  ∑ year ∈ Finset.range d.year, daysInYear year + (∑ month ∈ Finset.range d.month, daysInMonth d.year month + d.day)

/-- The seconds from the beginning of the calendar. -/
def time (d : DateTime) : Nat := ((d.dayNumber * 24 + d.hour) * 60 + d.minute) * 60 + d.second

end DateTime

/-- A test of two times. -/
def CompOp.onTimes : CompOp → Nat → Nat → Bool
  | .eq, s, t => s = t
  | .ne, s, t => s ≠ t
  | .lt, s, t => s < t
  | .gt, s, t => t < s
  | .le, s, t => s ≤ t
  | .ge, s, t => t ≤ s

/-- The record holds the value of the literal in the column. -/
def HoldsDateTime (col : ColMeta) (r : RmRecord) (n : Int) : Prop :=
  slice r col.offset 8 = (Value.datetime n).raw 8

/-- The numbers are compared like the times, as values and in records. -/
structure Chronological (d d' : DateTime) (n n' : Int) : Prop where
  values : ∀ op : CompOp, op.test (.datetime n) (.datetime n') = op.onTimes d.time d'.time
  raw : ∀ (col : ColMeta) (desc : Bool) (cols : List (ColMeta × Bool)) (firData secData : List UInt8),
    col.type = .datetime → HoldsDateTime col firData n → HoldsDateTime col secData n' →
    cmpRawData ((col, desc) :: cols) firData secData =
      if d.time = d'.time then cmpRawData cols firData secData
      else if desc then decide (d'.time < d.time) else decide (d.time < d'.time)

-- ---------------------------------------------------------------------------
-- The literal and its number
-- ---------------------------------------------------------------------------

variable {d d' : DateTime} {n : Int}

theorem checkSetDatetime_text (h : d.Exists) : checkSetDatetime d.text = .ok d.encode := by
  obtain ⟨hshape, hdigits, hnumbers⟩ := DateTime.text_spec h
  rw [checkSetDatetime_of_digits hshape hdigits (hnumbers.symm ▸ h), hnumbers]

theorem DateTime.Exists.encode_lt (h : d.Exists) : d.encode < 2 ^ 56 := by
  obtain ⟨hyear, hmonth, hday, hhour, hminute, hsecond⟩ := h.bounds
  unfold DateTime.encode
  omega

/-- The number is read from the record as it is. -/
theorem HoldsDateTime.read {col : ColMeta} {r : RmRecord} (hr : HoldsDateTime col r d.encode) (h : d.Exists) :
    readBigint (slice r col.offset 8) = d.encode ∧ readUnsigned (slice r col.offset 8) = d.encode := by
  have hlt := h.encode_lt
  rw [hr]
  constructor
  · change readBigint (writeSigned 8 d.encode) = d.encode
    rw [readBigint_writeSigned, Int.bmod_eq_of_le (by omega) (by omega)]
  · have hread := readUnsigned_writeSigned 8 d.encode
    change readUnsigned (writeSigned 8 d.encode) = d.encode
    omega

-- ---------------------------------------------------------------------------
-- Printing gives the literal back
-- ---------------------------------------------------------------------------

theorem digitChar_byte {k : Nat} (h : k < 10) : UInt8.ofNat (Nat.digitChar k).toNat = UInt8.ofNat (48 + k) := by
  interval_cases k <;> rfl

theorem decimal_zero (len : Nat) : DateTime.decimal len 0 = List.replicate len 48 := by
  induction len with
  | zero => rfl
  | succ len ih =>
    rw [DateTime.decimal, Nat.zero_div, ih, List.replicate_succ']
    rfl

/-- With zeros in front a number has as many digits as it should. -/
theorem zeroPad_eq {len k : Nat} (h : k < 10 ^ len) (hlen : 0 < len) :
    zeroPad len k = some (DateTime.decimal len k) := by
  obtain ⟨len, rfl⟩ : ∃ l, len = l + 1 := ⟨len - 1, by omega⟩
  induction len generalizing k with
  | zero =>
    have hk : k < 10 := by simpa using h
    unfold zeroPad
    simp [ascii, Nat.toList_repr, Nat.toDigits_of_lt_base hk, DateTime.decimal, digitChar_byte hk, Nat.mod_eq_of_lt hk]
  | succ len ih =>
    have hdigit := @digitChar_byte (k % 10) (Nat.mod_lt _ (by omega))
    unfold zeroPad at ih ⊢
    simp only [ascii, Nat.toList_repr, List.length_map] at ih ⊢
    rcases Nat.lt_or_ge k 10 with hk | hk
    · rw [DateTime.decimal, Nat.div_eq_of_lt hk, decimal_zero, Nat.toDigits_of_lt_base hk]
      simp [digitChar_byte hk, Nat.mod_eq_of_lt hk]
    · have hdiv : k / 10 < 10 ^ (len + 1) := by
        rw [Nat.pow_succ] at h
        omega
      have hprev := ih hdiv (by omega)
      rw [DateTime.decimal, Nat.toDigits_of_base_le (by omega) hk]
      split at hprev
      next hle =>
        have hsome := Option.some.inj hprev
        rw [← hsome, if_pos (by simp; omega)]
        simp [hdigit]
      next => cases hprev

theorem shiftMask_encode (h : d.Exists) : shiftMask d.encode 40 16 = d.year ∧ shiftMask d.encode 32 8 = d.month ∧
    shiftMask d.encode 24 8 = d.day ∧ shiftMask d.encode 16 8 = d.hour ∧ shiftMask d.encode 8 8 = d.minute ∧
    shiftMask d.encode 0 8 = d.second := by
  obtain ⟨hyear, hmonth, hday, hhour, hminute, hsecond⟩ := h.bounds
  unfold shiftMask DateTime.encode
  omega

/-- A record with the number of a literal is printed as the literal. -/
theorem printDateTime_of_holds (h : d.Exists) {col : ColMeta} {r : RmRecord} (hr : HoldsDateTime col r d.encode) :
    printDateTime col r = some d.text := by
  obtain ⟨hyear, hmonth, hday, hhour, hminute, hsecond⟩ := shiftMask_encode h
  obtain ⟨by', bm, bd, bh, bmi, bs⟩ := h.bounds
  unfold printDateTime
  rw [(hr.read h).1]
  dsimp only
  rw [hyear, hmonth, hday, hhour, hminute, hsecond, zeroPad_eq by' (by decide), zeroPad_eq bm (by decide),
    zeroPad_eq bd (by decide), zeroPad_eq bh (by decide), zeroPad_eq bmi (by decide), zeroPad_eq bs (by decide)]
  rfl

-- ---------------------------------------------------------------------------
-- Earlier and later
-- ---------------------------------------------------------------------------

namespace DateTime

/-- The first of the six numbers that differs is smaller. -/
def Earlier (d d' : DateTime) : Prop :=
  d.year < d'.year ∨ d.year = d'.year ∧ (d.month < d'.month ∨ d.month = d'.month ∧
    (d.day < d'.day ∨ d.day = d'.day ∧ (d.hour < d'.hour ∨ d.hour = d'.hour ∧
      (d.minute < d'.minute ∨ d.minute = d'.minute ∧ d.second < d'.second))))

theorem earlier_total (d d' : DateTime) : d.Earlier d' ∨ d = d' ∨ d'.Earlier d := by
  obtain ⟨year, month, day, hour, minute, second⟩ := d
  obtain ⟨year', month', day', hour', minute', second'⟩ := d'
  simp only [Earlier, mk.injEq]
  omega

theorem encode_lt_of_earlier (h : d.Exists) (h' : d'.Exists) (hd : d.Earlier d') : d.encode < d'.encode := by
  obtain ⟨hyear, hmonth, hday, hhour, hminute, hsecond⟩ := h.bounds
  obtain ⟨hyear', hmonth', hday', hhour', hminute', hsecond'⟩ := h'.bounds
  unfold Earlier at hd
  unfold encode
  omega

/-- Fewer months or years make fewer days, even with days of the next one. -/
theorem sum_range_add_le {f : Nat → Nat} {m n k : Nat} (h : m < n) (hk : k ≤ f m) :
    ∑ i ∈ Finset.range m, f i + k ≤ ∑ i ∈ Finset.range n, f i := by
  have hsub : Finset.range (m + 1) ⊆ Finset.range n := Finset.range_subset_range.mpr h
  have hle := Finset.sum_le_sum_of_subset (f := f) hsub
  rw [Finset.sum_range_succ] at hle
  omega

theorem dayNumber_lt (h : d.Exists) (h' : d'.Exists) (hd : d.year < d'.year ∨ d.year = d'.year ∧
    (d.month < d'.month ∨ d.month = d'.month ∧ d.day < d'.day)) : d.dayNumber < d'.dayNumber := by
  have hday' := h'.day.1
  have hmonth := h.month
  unfold dayNumber
  rcases hd with hyear | ⟨hyear, hmonth' | ⟨hmonth', hday⟩⟩
  · have hrest : ∑ month ∈ Finset.range d.month, daysInMonth d.year month + d.day ≤ daysInYear d.year :=
      sum_range_add_le (by omega) h.day.2
    have hyears := sum_range_add_le hyear hrest
    omega
  · have hmonths := sum_range_add_le hmonth' h.day.2
    rw [hyear] at hmonths ⊢
    omega
  · rw [hyear, hmonth']
    omega

theorem time_lt_of_earlier (h : d.Exists) (h' : d'.Exists) (hd : d.Earlier d') : d.time < d'.time := by
  have hhour := h.hour
  have hminute := h.minute
  have hsecond := h.second
  have hdays := dayNumber_lt h h'
  have hsame : d.year = d'.year → d.month = d'.month → d.day = d'.day → d.dayNumber = d'.dayNumber := by
    intro hyear hmonth hday
    rw [dayNumber, dayNumber, hyear, hmonth, hday]
  unfold Earlier at hd
  unfold time
  omega

/-- The packed numbers are ordered like the times. -/
theorem encode_lt_iff (h : d.Exists) (h' : d'.Exists) : d.encode < d'.encode ↔ d.time < d'.time := by
  rcases earlier_total d d' with hd | rfl | hd
  · exact iff_of_true (encode_lt_of_earlier h h' hd) (time_lt_of_earlier h h' hd)
  · exact iff_of_false (Nat.lt_irrefl _) (Nat.lt_irrefl _)
  · exact iff_of_false (Nat.lt_asymm (encode_lt_of_earlier h' h hd)) (Nat.lt_asymm (time_lt_of_earlier h' h hd))

theorem encode_eq_iff (h : d.Exists) (h' : d'.Exists) : d.encode = d'.encode ↔ d.time = d'.time := by
  have hlt := encode_lt_iff h h'
  have hgt := encode_lt_iff h' h
  omega

end DateTime

-- ---------------------------------------------------------------------------
-- The comparators
-- ---------------------------------------------------------------------------

theorem test_encode (h : d.Exists) (h' : d'.Exists) (op : CompOp) :
    op.test (.datetime d.encode) (.datetime d'.encode) = op.onTimes d.time d'.time := by
  have hn := h.encode_lt
  have hn' := h'.encode_lt
  have hlt := DateTime.encode_lt_iff h h'
  have hgt := DateTime.encode_lt_iff h' h
  have hunsigned : Value.toUnsigned d.encode = d.encode := Int.emod_eq_of_lt (by omega) (by omega)
  have hunsigned' : Value.toUnsigned d'.encode = d'.encode := Int.emod_eq_of_lt (by omega) (by omega)
  apply Bool.eq_iff_iff.mpr
  cases op with
  | eq | ne =>
    simp [CompOp.test, CompOp.onTimes, Value.eq]
    omega
  | lt | gt | le | ge =>
    simp [CompOp.test, CompOp.onTimes, Value.lt, Value.gt, hunsigned, hunsigned']
    omega

/-- What a column decides on numbers that are ordered like times. -/
theorem decided_of_iff {desc rest : Bool} {m n s t : Nat} (hlt : m < n ↔ s < t) (hgt : n < m ↔ t < s) :
    (match decided desc (m > n) (m < n) with
      | some b => b
      | none => rest) =
      if s = t then rest else if desc then decide (t < s) else decide (s < t) := by
  rcases Nat.lt_trichotomy s t with ht | rfl | ht
  · have hnot : ¬ n < m := fun h => Nat.lt_asymm ht (hgt.mp h)
    rw [if_neg (Nat.ne_of_lt ht)]
    cases desc <;> simp [decided, hnot, hlt.mpr ht, ht, Nat.le_of_lt ht]
  · have hnot : ¬ n < m := fun h => Nat.lt_irrefl _ (hgt.mp h)
    have hnot' : ¬ m < n := fun h => Nat.lt_irrefl _ (hlt.mp h)
    simp [decided, hnot, hnot']
  · rw [if_neg (Nat.ne_of_gt ht)]
    cases desc <;> simp [decided, hgt.mpr ht, ht, Nat.le_of_lt ht]

theorem cmpRawData_encode (h : d.Exists) (h' : d'.Exists) {col : ColMeta} (htype : col.type = .datetime)
    {desc : Bool} {cols : List (ColMeta × Bool)} {firData secData : List UInt8}
    (hfir : HoldsDateTime col firData d.encode) (hsec : HoldsDateTime col secData d'.encode) :
    cmpRawData ((col, desc) :: cols) firData secData =
      if d.time = d'.time then cmpRawData cols firData secData
      else if desc then decide (d'.time < d.time) else decide (d.time < d'.time) := by
  rw [cmpRawData, cmpRawCol, htype]
  dsimp only
  rw [(hfir.read h).2, (hsec.read h').2]
  exact decided_of_iff (DateTime.encode_lt_iff h h') (DateTime.encode_lt_iff h' h)

/-- Every literal of a date and time is printed as it was written, and two of them are compared like their
times. -/
theorem dateTime_encoding (h : d.Exists) (h' : d'.Exists) :
    ∃ n n', checkSetDatetime d.text = .ok n ∧ checkSetDatetime d'.text = .ok n' ∧
      (∀ col r, HoldsDateTime col r n → printDateTime col r = some d.text) ∧ Chronological d d' n n' :=
  ⟨d.encode, d'.encode, checkSetDatetime_text h, checkSetDatetime_text h',
    fun _ _ hr => printDateTime_of_holds h hr,
    ⟨test_encode h h', fun _ _ _ _ _ htype hfir hsec => cmpRawData_encode h h' htype hfir hsec⟩⟩

/-- The last second of a leap day, and the next one. -/
theorem dateTime_encoding_leap : ∃ n n',
    checkSetDatetime (ascii "2024-02-29 23:59:59") = .ok n ∧ checkSetDatetime (ascii "2024-03-01 00:00:00") = .ok n' ∧
      (∀ col r, HoldsDateTime col r n → printDateTime col r = some (ascii "2024-02-29 23:59:59")) ∧
      Chronological ⟨2024, 2, 29, 23, 59, 59⟩ ⟨2024, 3, 1, 0, 0, 0⟩ n n' := by
  have hleap : DateTime.Exists ⟨2024, 2, 29, 23, 59, 59⟩ := by constructor <;> decide
  have hnext : DateTime.Exists ⟨2024, 3, 1, 0, 0, 0⟩ := by constructor <;> decide
  have htext : ascii "2024-02-29 23:59:59" = DateTime.text ⟨2024, 2, 29, 23, 59, 59⟩ := by decide
  have htext' : ascii "2024-03-01 00:00:00" = DateTime.text ⟨2024, 3, 1, 0, 0, 0⟩ := by decide
  rw [htext, htext']
  exact dateTime_encoding hleap hnext

end Rmdb
