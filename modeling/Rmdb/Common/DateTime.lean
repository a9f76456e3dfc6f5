-- SUMMARY: `DATETIME` literals: what `check_set_datetime` accepts, and the dates and times that there are.
import Mathlib.Data.List.TakeWhile
import Mathlib.Tactic.IntervalCases
import Rmdb.Common.Value
import Rmdb.Lib.Digits

/-!
# `DATETIME` literals

`check_set_datetime` takes the six numbers out of a text of 19 characters. It compares the texts of the numbers
with the texts of their bounds, and asks `std::stoi` for year, month and day, which reads the digits at the front
of a text and throws an exception of its own when there is none. So a text of digits is judged rightly, but not
every text that holds something else.
-/

namespace Rmdb

-- ---------------------------------------------------------------------------
-- Texts
-- ---------------------------------------------------------------------------

/-- The bytes of a literal of the source. -/
def ascii (s : String) : List UInt8 := s.toList.map fun c => UInt8.ofNat c.toNat

def isDigitByte (b : UInt8) : Bool := 48 ≤ b ∧ b ≤ 57

/-- `isspace`. -/
def isSpaceByte (b : UInt8) : Bool := b = 32 ∨ 9 ≤ b ∧ b ≤ 13

/-- The digit that a byte stands for. -/
def byteDigit (b : UInt8) : Nat := b.toNat - 48

/-- The number of a text of digits. -/
def digitsValue (bs : List UInt8) : Nat := positional byteDigit 0 bs

/-- `std::stoi` on any text; `none` is an exception. -/
def stoiBytes (bs : List UInt8) : Option Int :=
  let bs := bs.dropWhile isSpaceByte
  let signed := bs.head? = some 43 ∨ bs.head? = some 45
  let ds := (if signed then bs.tail else bs).takeWhile isDigitByte
  let n : Int := if bs.head? = some 45 then -digitsValue ds else digitsValue ds
  if ds.isEmpty then none else if -2147483648 ≤ n ∧ n ≤ 2147483647 then some n else none

/-- `substr`. -/
def substr (s : List UInt8) (pos len : Nat) : List UInt8 := (s.drop pos).take len

-- ---------------------------------------------------------------------------
-- `check_set_datetime`
-- ---------------------------------------------------------------------------

inductive DateTimeError where
  | dateTimeFormat
  /-- An exception of `std::stoi`. -/
  | std
  deriving DecidableEq, Repr

/-- `IsDayValid`. -/
def isDayValid (year month day : Int) : Bool :=
  if month = 4 ∨ month = 6 ∨ month = 9 ∨ month = 11 then day ≤ 30
  else if month = 2 then
    if year % 4 = 0 ∧ year % 100 ≠ 0 ∨ year % 400 = 0 then day ≤ 29 else day ≤ 28
  else if month = 1 ∨ month = 3 ∨ month = 5 ∨ month = 7 ∨ month = 8 ∨ month = 10 ∨ month = 12 then day ≤ 31
  else false

/-- The length of a literal and the characters between its numbers. -/
def dateTimeShape (s : List UInt8) : Bool :=
  s.length = 19 ∧ s[4]? = some 45 ∧ s[7]? = some 45 ∧ s[10]? = some 32 ∧ s[13]? = some 58 ∧ s[16]? = some 58

/-- The comparisons of the texts of the numbers with the texts of their bounds. -/
def dateTimeBounds (s : List UInt8) : Bool :=
  let syear := substr s 0 4
  let smonth := substr s 5 2
  let sday := substr s 8 2
  let shour := substr s 11 2
  let sminute := substr s 14 2
  let ssec := substr s 17 2
  ascii "1000" ≤ syear ∧ syear ≤ ascii "9999" ∧ ascii "01" ≤ smonth ∧ smonth ≤ ascii "12" ∧
    ascii "01" ≤ sday ∧ sday ≤ ascii "31" ∧ ascii "00" ≤ shour ∧ shour ≤ ascii "23" ∧
    ascii "00" ≤ sminute ∧ sminute ≤ ascii "59" ∧ ascii "00" ≤ ssec ∧ ssec ≤ ascii "59"

/-- `std::stoi`, or its exception. -/
def stoiField (bs : List UInt8) : Except DateTimeError Int :=
  match stoiBytes bs with
  | some n => .ok n
  | none => .error .std

/-- `check_set_datetime`; the result is `bigint_val`. -/
def checkSetDatetime (s : List UInt8) : Except DateTimeError Int :=
  if dateTimeShape s then do
    let year ← stoiField (substr s 0 4)
    let month ← stoiField (substr s 5 2)
    let day ← stoiField (substr s 8 2)
    if dateTimeBounds s && isDayValid year month day then
      let hour ← stoiField (substr s 11 2)
      let minute ← stoiField (substr s 14 2)
      let sec ← stoiField (substr s 17 2)
      return year * 2 ^ 40 + month * 2 ^ 32 + day * 2 ^ 24 + hour * 2 ^ 16 + minute * 2 ^ 8 + sec
    else .error .dateTimeFormat
  else .error .dateTimeFormat

-- ---------------------------------------------------------------------------
-- Dates and times
-- ---------------------------------------------------------------------------

structure DateTime where
  year : Nat
  month : Nat
  day : Nat
  hour : Nat
  minute : Nat
  second : Nat

def isLeap (year : Nat) : Bool := year % 4 = 0 ∧ (year % 100 ≠ 0 ∨ year % 400 = 0)

def daysInMonth (year month : Nat) : Nat :=
  match month with
  | 2 => if isLeap year then 29 else 28
  | 4 | 6 | 9 | 11 => 30
  | 1 | 3 | 5 | 7 | 8 | 10 | 12 => 31
  | _ => 0

theorem daysInMonth_le (year month : Nat) : daysInMonth year month ≤ 31 := by
  unfold daysInMonth
  split
  · split <;> decide
  all_goals decide

/-- Six texts with the characters between them. -/
def joinFields (year month day hour minute second : List UInt8) : List UInt8 :=
  year ++ ascii "-" ++ month ++ ascii "-" ++ day ++ ascii " " ++ hour ++ ascii ":" ++ minute ++ ascii ":" ++ second

namespace DateTime

/-- There is such a date, with a year of four digits, and such a time. -/
structure Exists (d : DateTime) : Prop where
  year : 1000 ≤ d.year ∧ d.year ≤ 9999
  month : 1 ≤ d.month ∧ d.month ≤ 12
  day : 1 ≤ d.day ∧ d.day ≤ daysInMonth d.year d.month
  hour : d.hour ≤ 23
  minute : d.minute ≤ 59
  second : d.second ≤ 59

/-- The last `len` decimal digits. -/
def decimal : Nat → Nat → List UInt8
  | 0, _ => []
  | len + 1, n => decimal len (n / 10) ++ [UInt8.ofNat (48 + n % 10)]

/-- The number with 16 bits for the year and 8 for each of the others. -/
def encode (d : DateTime) : Nat :=
  d.year * 2 ^ 40 + d.month * 2 ^ 32 + d.day * 2 ^ 24 + d.hour * 2 ^ 16 + d.minute * 2 ^ 8 + d.second

/-- `YYYY-MM-DD HH:MM:SS`. -/
def text (d : DateTime) : List UInt8 :=
  joinFields (decimal 4 d.year) (decimal 2 d.month) (decimal 2 d.day) (decimal 2 d.hour) (decimal 2 d.minute)
    (decimal 2 d.second)

end DateTime

-- ---------------------------------------------------------------------------
-- Texts of digits
-- ---------------------------------------------------------------------------

theorem digitByte_bounds {b : UInt8} (h : isDigitByte b = true) : 48 ≤ b.toNat ∧ b.toNat ≤ 57 := by
  simpa [isDigitByte, UInt8.le_iff_toNat_le] using h

theorem byteDigit_le {bs : List UInt8} (h : ∀ b ∈ bs, isDigitByte b = true) : ∀ b ∈ bs, byteDigit b ≤ 9 := by
  intro b hb
  have hdigit := digitByte_bounds (h b hb)
  unfold byteDigit
  omega

theorem digitsValue_lt {bs : List UInt8} (h : ∀ b ∈ bs, isDigitByte b = true) : digitsValue bs < 10 ^ bs.length := by
  simpa [digitsValue] using (positional_bounds (byteDigit_le h) 0).2

/-- Texts of digits of one length are ordered like their numbers. -/
theorem lt_iff_positional_lt {x y : List UInt8} (hlen : x.length = y.length)
    (hx : ∀ b ∈ x, isDigitByte b = true) (hy : ∀ b ∈ y, isDigitByte b = true) (n : Nat) :
    x < y ↔ positional byteDigit n x < positional byteDigit n y := by
  induction x generalizing y n with
  | nil =>
    obtain rfl := List.length_eq_zero_iff.mp hlen.symm
    simp
  | cons u x ih => cases y with
    | nil => cases hlen
    | cons v y =>
      have hlen' := Nat.succ.inj hlen
      obtain ⟨hu, hxs⟩ := List.forall_mem_cons.mp hx
      obtain ⟨hv, hys⟩ := List.forall_mem_cons.mp hy
      have hdigit : ∀ {u v : UInt8}, isDigitByte u = true → u < v → byteDigit u < byteDigit v := by
        intro u v hu huv
        have hu := digitByte_bounds hu
        have huv := UInt8.lt_iff_toNat_lt.mp huv
        unfold byteDigit
        omega
      rw [List.cons_lt_cons_iff]
      by_cases huv : u < v
      · have hlt := positional_lt_of_digit_lt hlen' (byteDigit_le hxs) (byteDigit_le hys) (hdigit hu huv) n
        simp [huv, hlt]
      · by_cases hvu : v < u
        · have hlt := positional_lt_of_digit_lt hlen'.symm (byteDigit_le hys) (byteDigit_le hxs) (hdigit hv hvu) n
          have hne : u ≠ v := fun h => huv (h ▸ hvu)
          simp [huv, hne, Nat.le_of_lt hlt]
        · obtain rfl : u = v := UInt8.le_antisymm (UInt8.not_lt.mp hvu) (UInt8.not_lt.mp huv)
          rw [positional_cons, positional_cons]
          simpa [huv] using ih hlen' hxs hys _

theorem le_iff_digitsValue_le {x y : List UInt8} (hlen : x.length = y.length)
    (hx : ∀ b ∈ x, isDigitByte b = true) (hy : ∀ b ∈ y, isDigitByte b = true) :
    x ≤ y ↔ digitsValue x ≤ digitsValue y := by
  rw [← List.not_lt, lt_iff_positional_lt hlen.symm hy hx 0, Nat.not_lt]
  rfl

/-- `std::stoi` reads a short text of digits. -/
theorem stoiBytes_digits {bs : List UInt8} (h : ∀ b ∈ bs, isDigitByte b = true) (hne : bs ≠ [])
    (hlen : bs.length ≤ 9) : stoiBytes bs = some (digitsValue bs : Int) := by
  cases bs with
  | nil => exact absurd rfl hne
  | cons b bs =>
    have hb := digitByte_bounds (h b List.mem_cons_self)
    have hspace : isSpaceByte b = false := by
      simp only [isSpaceByte, decide_eq_false_iff_not, UInt8.le_iff_toNat_le, ← UInt8.toNat_inj]
      simp
      omega
    have hplus : b ≠ 43 := by
      rintro rfl
      simp at hb
    have hminus : b ≠ 45 := by
      rintro rfl
      simp at hb
    have hall : (b :: bs).takeWhile isDigitByte = b :: bs := List.takeWhile_eq_self_iff.mpr h
    have hbound := digitsValue_lt h
    have hpow : 10 ^ (b :: bs).length ≤ 10 ^ 9 := Nat.pow_le_pow_right (by decide) hlen
    simp only [stoiBytes, List.dropWhile_cons, hspace, Bool.false_eq_true, if_false, List.head?_cons,
      Option.some.injEq, hplus, hminus, or_self, hall, List.isEmpty_cons]
    rw [if_pos (by omega)]

-- ---------------------------------------------------------------------------
-- Literals of the right shape
-- ---------------------------------------------------------------------------

/-- The texts of the six numbers. -/
def dateTimeFields (s : List UInt8) : List (List UInt8) :=
  [substr s 0 4, substr s 5 2, substr s 8 2, substr s 11 2, substr s 14 2, substr s 17 2]

/-- There is a digit wherever one has to be. -/
def AllDigits (s : List UInt8) : Prop := ∀ field ∈ dateTimeFields s, ∀ b ∈ field, isDigitByte b = true

/-- The six numbers of a literal. -/
def numbersOf (s : List UInt8) : DateTime where
  year := digitsValue (substr s 0 4)
  month := digitsValue (substr s 5 2)
  day := digitsValue (substr s 8 2)
  hour := digitsValue (substr s 11 2)
  minute := digitsValue (substr s 14 2)
  second := digitsValue (substr s 17 2)

theorem join_of_shape {s : List UInt8} (h : dateTimeShape s = true) :
    joinFields (substr s 0 4) (substr s 5 2) (substr s 8 2) (substr s 11 2) (substr s 14 2) (substr s 17 2) = s := by
  simp only [dateTimeShape, decide_eq_true_eq] at h
  obtain ⟨hlen, h₄, h₇, h₁₀, h₁₃, h₁₆⟩ := h
  match s, hlen with
  | [_, _, _, _, _, _, _, _, _, _, _, _, _, _, _, _, _, _, _], _ =>
    cases h₄
    cases h₇
    cases h₁₀
    cases h₁₃
    cases h₁₆
    rfl

/-- What the code makes of six texts that are joined. -/
theorem join_spec {year month day hour minute second : List UInt8} (hyear : year.length = 4)
    (hmonth : month.length = 2) (hday : day.length = 2) (hhour : hour.length = 2) (hminute : minute.length = 2)
    (hsecond : second.length = 2) : dateTimeShape (joinFields year month day hour minute second) = true ∧
      dateTimeFields (joinFields year month day hour minute second) = [year, month, day, hour, minute, second] := by
  obtain ⟨_, _, _, _, rfl⟩ := List.length_eq_four.mp hyear
  obtain ⟨_, _, rfl⟩ := List.length_eq_two.mp hmonth
  obtain ⟨_, _, rfl⟩ := List.length_eq_two.mp hday
  obtain ⟨_, _, rfl⟩ := List.length_eq_two.mp hhour
  obtain ⟨_, _, rfl⟩ := List.length_eq_two.mp hminute
  obtain ⟨_, _, rfl⟩ := List.length_eq_two.mp hsecond
  exact ⟨rfl, rfl⟩

theorem substr_length {s : List UInt8} (h : dateTimeShape s = true) {pos len : Nat} (hpos : pos + len ≤ 19) :
    (substr s pos len).length = len := by
  simp only [dateTimeShape, decide_eq_true_eq] at h
  rw [substr, List.length_take, List.length_drop]
  omega

namespace DateTime

theorem decimal_length (len n : Nat) : (decimal len n).length = len := by
  induction len generalizing n with
  | zero => rfl
  | succ len ih => simp [decimal, ih]

theorem byteDigit_ofNat (n : Nat) :
    isDigitByte (UInt8.ofNat (48 + n % 10)) = true ∧ byteDigit (UInt8.ofNat (48 + n % 10)) = n % 10 := by
  have hlt : n % 10 < 10 := Nat.mod_lt _ (by decide)
  have hnat : (UInt8.ofNat (48 + n % 10)).toNat = 48 + n % 10 := UInt8.toNat_ofNat_of_lt' (show _ < 256 by omega)
  constructor
  · simp [isDigitByte, UInt8.le_iff_toNat_le]
    omega
  · rw [byteDigit, hnat]
    omega

theorem decimal_digits (len n : Nat) : ∀ b ∈ decimal len n, isDigitByte b = true := by
  induction len generalizing n with
  | zero => simp [decimal]
  | succ len ih =>
    intro b hb
    rcases List.mem_append.mp hb with hb | hb
    · exact ih _ b hb
    · rw [List.mem_singleton.mp hb]
      exact (byteDigit_ofNat n).1

theorem digitsValue_append (bs : List UInt8) (b : UInt8) : digitsValue (bs ++ [b]) = 10 * digitsValue bs + byteDigit b := by
  simp [digitsValue, positional]

theorem digitsValue_decimal {len n : Nat} (h : n < 10 ^ len) : digitsValue (decimal len n) = n := by
  induction len generalizing n with
  | zero =>
    obtain rfl : n = 0 := by simpa using h
    rfl
  | succ len ih =>
    rw [decimal, digitsValue_append, (byteDigit_ofNat n).2, ih (by rw [Nat.pow_succ] at h; omega)]
    omega

theorem decimal_digitsValue {bs : List UInt8} (h : ∀ b ∈ bs, isDigitByte b = true) :
    decimal bs.length (digitsValue bs) = bs := by
  induction bs using List.reverseRecOn with
  | nil => rfl
  | append_singleton bs b ih =>
    have hb := digitByte_bounds (h b (by simp))
    have hdigit : byteDigit b = b.toNat - 48 := rfl
    have hdiv : (10 * digitsValue bs + byteDigit b) / 10 = digitsValue bs := by omega
    have hmod : 48 + (10 * digitsValue bs + byteDigit b) % 10 = b.toNat := by omega
    rw [digitsValue_append, List.length_append, List.length_singleton, decimal, hdiv, hmod, UInt8.ofNat_toNat,
      ih fun c hc => h c (by simp [hc])]

/-- A literal of digits is the text of its numbers. -/
theorem text_numbersOf {s : List UInt8} (h : dateTimeShape s = true) (hdigits : AllDigits s) :
    (numbersOf s).text = s := by
  have hfield : ∀ pos len, pos + len ≤ 19 → substr s pos len ∈ dateTimeFields s →
      decimal len (digitsValue (substr s pos len)) = substr s pos len := by
    intro pos len hpos hmem
    have hdecimal := decimal_digitsValue (hdigits _ hmem)
    rwa [substr_length h hpos] at hdecimal
  simp only [text, numbersOf]
  rw [hfield 0 4 (by decide) (by simp [dateTimeFields]), hfield 5 2 (by decide) (by simp [dateTimeFields]),
    hfield 8 2 (by decide) (by simp [dateTimeFields]), hfield 11 2 (by decide) (by simp [dateTimeFields]),
    hfield 14 2 (by decide) (by simp [dateTimeFields]), hfield 17 2 (by decide) (by simp [dateTimeFields])]
  exact join_of_shape h

theorem Exists.bounds {d : DateTime} (h : d.Exists) : d.year < 10 ^ 4 ∧ d.month < 10 ^ 2 ∧ d.day < 10 ^ 2 ∧
    d.hour < 10 ^ 2 ∧ d.minute < 10 ^ 2 ∧ d.second < 10 ^ 2 := by
  have hyear := h.year
  have hmonth := h.month
  have hhour := h.hour
  have hminute := h.minute
  have hsecond := h.second
  have hday : d.day ≤ 31 := h.day.2.trans (daysInMonth_le _ _)
  omega

/-- The text of a date and time has the right shape, and its numbers are those. -/
theorem text_spec {d : DateTime} (h : d.Exists) :
    dateTimeShape d.text = true ∧ AllDigits d.text ∧ numbersOf d.text = d := by
  obtain ⟨hyear, hmonth, hday, hhour, hminute, hsecond⟩ := h.bounds
  obtain ⟨hshape, hfields⟩ := join_spec (decimal_length 4 d.year) (decimal_length 2 d.month) (decimal_length 2 d.day)
    (decimal_length 2 d.hour) (decimal_length 2 d.minute) (decimal_length 2 d.second)
  refine ⟨hshape, ?_, ?_⟩
  · intro field hfield
    rw [text, hfields] at hfield
    simp only [List.mem_cons, List.not_mem_nil, or_false] at hfield
    rcases hfield with rfl | rfl | rfl | rfl | rfl | rfl <;> exact decimal_digits _ _
  · have hsubstr := hfields
    simp only [dateTimeFields, List.cons.injEq, and_true] at hsubstr
    obtain ⟨h₁, h₂, h₃, h₄, h₅, h₆⟩ := hsubstr
    simp only [numbersOf, text, h₁, h₂, h₃, h₄, h₅, h₆, digitsValue_decimal hyear, digitsValue_decimal hmonth,
      digitsValue_decimal hday, digitsValue_decimal hhour, digitsValue_decimal hminute, digitsValue_decimal hsecond]

end DateTime

/-- `IsDayValid` knows the months. -/
theorem isDayValid_iff {year month day : Nat} (h : 1 ≤ month ∧ month ≤ 12) :
    isDayValid year month day = true ↔ day ≤ daysInMonth year month := by
  obtain ⟨hlower, hupper⟩ := h
  have hleap : ((year : Int) % 4 = 0 ∧ (year : Int) % 100 ≠ 0 ∨ (year : Int) % 400 = 0) ↔ isLeap year = true := by
    simp only [isLeap, decide_eq_true_eq]
    omega
  by_cases hfebruary : month = 2
  · subst hfebruary
    show isDayValid year 2 day = true ↔ day ≤ if isLeap year = true then 29 else 28
    rw [isDayValid, if_neg (by decide), if_pos rfl]
    simp only [hleap]
    split
    · simp only [decide_eq_true_eq]
      omega
    · simp only [decide_eq_true_eq]
      omega
  · interval_cases month <;> first | exact absurd rfl hfebruary | simp [isDayValid, daysInMonth]

/-- A text of digits is compared with its bounds like its number. -/
theorem bounds_iff {s : List UInt8} (h : dateTimeShape s = true) (hdigits : AllDigits s) {pos len : Nat}
    (hpos : pos + len ≤ 19) (hmem : substr s pos len ∈ dateTimeFields s) {lower upper : List UInt8}
    (hlower : lower.length = len ∧ lower.all isDigitByte = true)
    (hupper : upper.length = len ∧ upper.all isDigitByte = true) :
    (lower ≤ substr s pos len ↔ digitsValue lower ≤ digitsValue (substr s pos len)) ∧
      (substr s pos len ≤ upper ↔ digitsValue (substr s pos len) ≤ digitsValue upper) := by
  have hlen := substr_length h hpos
  exact ⟨le_iff_digitsValue_le (hlower.1.trans hlen.symm) (List.all_eq_true.mp hlower.2) (hdigits _ hmem),
    le_iff_digitsValue_le (hlen.trans hupper.1.symm) (hdigits _ hmem) (List.all_eq_true.mp hupper.2)⟩

/-- On digits the checks ask for a date and time that there is. -/
theorem checks_iff {s : List UInt8} (h : dateTimeShape s = true) (hdigits : AllDigits s) :
    (dateTimeBounds s && isDayValid (numbersOf s).year (numbersOf s).month (numbersOf s).day) = true ↔
      (numbersOf s).Exists := by
  obtain ⟨hy, hy'⟩ := @bounds_iff s h hdigits 0 4 (by decide) (by simp [dateTimeFields]) (ascii "1000") (ascii "9999")
    ⟨rfl, rfl⟩ ⟨rfl, rfl⟩
  obtain ⟨hmo, hmo'⟩ := @bounds_iff s h hdigits 5 2 (by decide) (by simp [dateTimeFields]) (ascii "01") (ascii "12")
    ⟨rfl, rfl⟩ ⟨rfl, rfl⟩
  obtain ⟨hd, hd'⟩ := @bounds_iff s h hdigits 8 2 (by decide) (by simp [dateTimeFields]) (ascii "01") (ascii "31")
    ⟨rfl, rfl⟩ ⟨rfl, rfl⟩
  obtain ⟨hh, hh'⟩ := @bounds_iff s h hdigits 11 2 (by decide) (by simp [dateTimeFields]) (ascii "00") (ascii "23")
    ⟨rfl, rfl⟩ ⟨rfl, rfl⟩
  obtain ⟨hmi, hmi'⟩ := @bounds_iff s h hdigits 14 2 (by decide) (by simp [dateTimeFields]) (ascii "00") (ascii "59")
    ⟨rfl, rfl⟩ ⟨rfl, rfl⟩
  obtain ⟨hs, hs'⟩ := @bounds_iff s h hdigits 17 2 (by decide) (by simp [dateTimeFields]) (ascii "00") (ascii "59")
    ⟨rfl, rfl⟩ ⟨rfl, rfl⟩
  have hvalues : digitsValue (ascii "1000") = 1000 ∧ digitsValue (ascii "9999") = 9999 ∧
      digitsValue (ascii "01") = 1 ∧ digitsValue (ascii "12") = 12 ∧ digitsValue (ascii "31") = 31 ∧
      digitsValue (ascii "00") = 0 ∧ digitsValue (ascii "23") = 23 ∧ digitsValue (ascii "59") = 59 := by
    decide
  obtain ⟨v₁, v₂, v₃, v₄, v₅, v₆, v₇, v₈⟩ := hvalues
  simp only [v₁, v₂, v₃, v₄, v₅, v₆, v₇, v₈] at hy hy' hmo hmo' hd hd' hh hh' hmi hmi' hs hs'
  simp only [dateTimeBounds, Bool.and_eq_true, decide_eq_true_eq, hy, hy', hmo, hmo', hd, hd', hh, hh', hmi, hmi', hs, hs']
  constructor
  · rintro ⟨⟨hyear, hyear', hmonth, hmonth', hday, -, -, hhour, -, hminute, -, hsecond⟩, hvalid⟩
    exact ⟨⟨hyear, hyear'⟩, ⟨hmonth, hmonth'⟩, ⟨hday, (isDayValid_iff ⟨hmonth, hmonth'⟩).mp hvalid⟩, hhour, hminute,
      hsecond⟩
  · rintro ⟨hyear, hmonth, hday, hhour, hminute, hsecond⟩
    exact ⟨⟨hyear.1, hyear.2, hmonth.1, hmonth.2, hday.1, hday.2.trans (daysInMonth_le _ _), Nat.zero_le _, hhour,
      Nat.zero_le _, hminute, Nat.zero_le _, hsecond⟩, (isDayValid_iff hmonth).mpr hday.2⟩

-- ---------------------------------------------------------------------------
-- What is accepted
-- ---------------------------------------------------------------------------

/-- The text of a date and time with four digits for the year. -/
def ValidDateTime (s : List UInt8) : Prop := ∃ d : DateTime, d.Exists ∧ s = d.text

/-- Such a text is accepted, and every other one gets a `DateTimeFormatError`. -/
def DateTimeJudged (s : List UInt8) : Prop :=
  (ValidDateTime s → ∃ n, checkSetDatetime s = .ok n) ∧
    (¬ ValidDateTime s → checkSetDatetime s = .error .dateTimeFormat)

theorem validDateTime_iff {s : List UInt8} :
    ValidDateTime s ↔ dateTimeShape s = true ∧ AllDigits s ∧ (numbersOf s).Exists := by
  constructor
  · rintro ⟨d, hd, rfl⟩
    obtain ⟨hshape, hdigits, hnumbers⟩ := DateTime.text_spec hd
    refine ⟨hshape, hdigits, ?_⟩
    rw [hnumbers]
    exact hd
  · rintro ⟨hshape, hdigits, hexists⟩
    exact ⟨numbersOf s, hexists, (DateTime.text_numbersOf hshape hdigits).symm⟩

/-- On a literal of the right shape: the exceptions of `std::stoi` come first, and then the checks. -/
theorem checkSetDatetime_eq_error_iff {s : List UInt8} (h : dateTimeShape s = true) :
    checkSetDatetime s = .error .dateTimeFormat ↔ ∃ year month day, stoiBytes (substr s 0 4) = some year ∧
      stoiBytes (substr s 5 2) = some month ∧ stoiBytes (substr s 8 2) = some day ∧
      (dateTimeBounds s && isDayValid year month day) = false := by
  have hfield : ∀ {bs : List UInt8} {α : Type} {f : Int → Except DateTimeError α},
      (stoiField bs >>= f) = .error .dateTimeFormat ↔ ∃ n, stoiBytes bs = some n ∧ f n = .error .dateTimeFormat := by
    intro bs α f
    unfold stoiField
    cases stoiBytes bs <;> simp
  simp only [checkSetDatetime, h, if_true, hfield]
  constructor
  · rintro ⟨year, hyear, month, hmonth, day, hday, hrest⟩
    refine ⟨year, month, day, hyear, hmonth, hday, ?_⟩
    by_contra hchecks
    rw [Bool.not_eq_false] at hchecks
    simp only [hchecks, if_true, hfield] at hrest
    obtain ⟨_, -, _, -, _, -, hok⟩ := hrest
    cases hok
  · rintro ⟨year, month, day, hyear, hmonth, hday, hchecks⟩
    exact ⟨year, hyear, month, hmonth, day, hday, by simp [hchecks]⟩

/-- `std::stoi` reads the numbers of a literal of digits. -/
theorem stoi_numbersOf {s : List UInt8} (h : dateTimeShape s = true) (hdigits : AllDigits s) {pos len : Nat}
    (hpos : pos + len ≤ 19) (hlen : 0 < len ∧ len ≤ 4) (hmem : substr s pos len ∈ dateTimeFields s) :
    stoiBytes (substr s pos len) = some (digitsValue (substr s pos len) : Int) := by
  have hlength := substr_length h hpos
  refine stoiBytes_digits (hdigits _ hmem) (fun hnil => ?_) (by omega)
  rw [hnil] at hlength
  simp at hlength
  omega

/-- The number of a literal of digits. -/
theorem checkSetDatetime_of_digits {s : List UInt8} (hshape : dateTimeShape s = true) (hdigits : AllDigits s)
    (hexists : (numbersOf s).Exists) : checkSetDatetime s = .ok (numbersOf s).encode := by
  have hchecks := (checks_iff hshape hdigits).mpr hexists
  have hstoi := fun pos len hpos hlen hmem => @stoi_numbersOf s hshape hdigits pos len hpos hlen hmem
  have hyear := hstoi 0 4 (by decide) (by decide) (by simp [dateTimeFields])
  have hmonth := hstoi 5 2 (by decide) (by decide) (by simp [dateTimeFields])
  have hday := hstoi 8 2 (by decide) (by decide) (by simp [dateTimeFields])
  have hhour := hstoi 11 2 (by decide) (by decide) (by simp [dateTimeFields])
  have hminute := hstoi 14 2 (by decide) (by decide) (by simp [dateTimeFields])
  have hsecond := hstoi 17 2 (by decide) (by decide) (by simp [dateTimeFields])
  simp only [numbersOf] at hchecks
  simp only [checkSetDatetime, hshape, if_true, stoiField, hyear, hmonth, hday, hhour, hminute, hsecond, ok_bind,
    hchecks]
  apply congrArg Except.ok
  simp only [DateTime.encode, numbersOf]
  omega

/-- A literal of digits is judged rightly. -/
theorem dateTimeJudged_of_digits {s : List UInt8} (h : dateTimeShape s = true) (hdigits : AllDigits s) :
    DateTimeJudged s := by
  have hstoi := fun pos len hpos hlen hmem => @stoi_numbersOf s h hdigits pos len hpos hlen hmem
  have hyear := hstoi 0 4 (by decide) (by decide) (by simp [dateTimeFields])
  have hmonth := hstoi 5 2 (by decide) (by decide) (by simp [dateTimeFields])
  have hday := hstoi 8 2 (by decide) (by decide) (by simp [dateTimeFields])
  constructor
  · intro hvalid
    exact ⟨_, checkSetDatetime_of_digits h hdigits (validDateTime_iff.mp hvalid).2.2⟩
  · intro hvalid
    refine (checkSetDatetime_eq_error_iff h).mpr ⟨_, _, _, hyear, hmonth, hday, ?_⟩
    rw [← Bool.not_eq_true]
    exact fun hchecks => hvalid (validDateTime_iff.mpr ⟨h, hdigits, (checks_iff h hdigits).mp hchecks⟩)

/-- A literal is judged rightly exactly when it does not have the right shape at all, when there are digits
wherever they have to be, or when `std::stoi` finds digits at the front of year, month and day and a check fails
all the same. -/
theorem dateTimeJudged_iff (s : List UInt8) : DateTimeJudged s ↔
    dateTimeShape s = false ∨ AllDigits s ∨ ∃ year month day, stoiBytes (substr s 0 4) = some year ∧
      stoiBytes (substr s 5 2) = some month ∧ stoiBytes (substr s 8 2) = some day ∧
      (dateTimeBounds s && isDayValid year month day) = false := by
  cases h : dateTimeShape s with
  | false =>
    refine iff_of_true ⟨fun hvalid => ?_, fun _ => ?_⟩ (.inl rfl)
    · exact absurd (validDateTime_iff.mp hvalid).1 (by simp [h])
    · simp [checkSetDatetime, h]
  | true =>
    by_cases hdigits : AllDigits s
    · exact iff_of_true (dateTimeJudged_of_digits h hdigits) (.inr (.inl hdigits))
    · have hvalid : ¬ ValidDateTime s := fun hvalid => hdigits (validDateTime_iff.mp hvalid).2.1
      rw [← checkSetDatetime_eq_error_iff h]
      simp [DateTimeJudged, hvalid, hdigits]

/-- The day `0a` is accepted, and a year without digits is an exception of `std::stoi`. -/
theorem not_dateTimeJudged : ¬ DateTimeJudged (ascii "2024-01-0a 00:00:00") ∧
    ¬ DateTimeJudged (ascii "abcd-01-01 00:00:00") := by
  have hletter : ∀ s : List UInt8, 97 ∈ substr s 8 2 ∨ 97 ∈ substr s 0 4 → ¬ ValidDateTime s := by
    intro s hmem hvalid
    have hdigits := (validDateTime_iff.mp hvalid).2.1
    rcases hmem with hmem | hmem
    · exact absurd (hdigits (substr s 8 2) (by simp [dateTimeFields]) 97 hmem) (by decide)
    · exact absurd (hdigits (substr s 0 4) (by simp [dateTimeFields]) 97 hmem) (by decide)
  constructor
  · intro h
    have herror := h.2 (hletter _ (.inl (by decide)))
    exact absurd herror (by decide)
  · intro h
    have herror := h.2 (hletter _ (.inr (by decide)))
    exact absurd herror (by decide)

end Rmdb
