-- SUMMARY: Literals as the values of columns: `convert_sv_value`, `convert_from_string` and their range checks.
import Mathlib.Tactic.SplitIfs
import Rmdb.Common.Bytes
import Rmdb.Common.DateTime
import Rmdb.Common.Literal

/-!
# Literals and columns

The parser hands a literal over as the text of an integer, as a float or as a string. The analyzer makes a value
of the type of the column out of it. An integer is checked against the range of the type before `std::stoi` or
`std::stoll` reads it; the check turns some numbers down that are in the range, but lets no other number through.
-/

namespace Rmdb

-- ---------------------------------------------------------------------------
-- Conversions
-- ---------------------------------------------------------------------------

/-- `ast::Value`. The lexer cuts a string at a zero byte. -/
inductive SvValue where
  | intBint (text : List Char) (lit : IntLiteral text)
  | float (x : Float32)
  | string (s : List UInt8) (noZero : 0 ∉ s)

inductive ConvertError where
  | intOverflow (text : List Char)
  | bigIntOverflow (text : List Char)
  | floatOverflow (text : List Char)
  | castType (lhs : String) (rhs : ColType)
  | dateTimeFormat (s : List UInt8)
  | stringOverflow
  /-- An exception of the standard library, which is no `RMDBError`. -/
  | std
  deriving DecidableEq, Repr

/-- What C++ makes of floats: `std::stof`, which may throw, and the casts to integers. Out of the range of the
type a cast gives any number of it. -/
structure FloatCasts where
  stof : List Char → Option Float32
  toInt : Float32 → Int
  toInt_holds : ∀ x, IntType.int.Holds (toInt x)
  toBigint : Float32 → Int
  toBigint_holds : ∀ x, IntType.int64.Holds (toBigint x)

/-- `no_overflow<float>`. -/
def noOverflowFloat (text : List Char) : Bool :=
  compareIntString text "340282346638528859811704183484516925440.000000".toList ≤ 0 ∧
    compareIntString text "-340282346638528859811704183484516925440.000000".toList ≥ 0

/-- The outcome of a function of the standard library that may throw. -/
def orStd {α : Type} : Option α → Except ConvertError α
  | some a => .ok a
  | none => .error .std

/-- `check_set_datetime`, with its text in the error. -/
def convertDatetime (s : List UInt8) : Except ConvertError Value :=
  match checkSetDatetime s with
  | .ok n => .ok (.datetime n)
  | .error .dateTimeFormat => .error (.dateTimeFormat s)
  | .error .std => .error .std

/-- The check of `init_raw`. -/
def initRaw (len : Nat) (val : Value) : Except ConvertError Value :=
  match val with
  | .string s => if len < s.length then .error .stringOverflow else .ok (.string s)
  | val => .ok val

variable (casts : FloatCasts)

/-- An integer literal for a column of this type, if it is a type of numbers. -/
def convertInteger (text : List Char) : ColType → Option (Except ConvertError Value)
  | .bigint => some (if IntType.int64.noOverflow text then do
      let n ← orStd (IntType.int64.sto text)
      return .bigint n
    else .error (.bigIntOverflow text))
  | .int => some (if IntType.int.noOverflow text then do
      let n ← orStd (IntType.int.sto text)
      return .int n
    else .error (.intOverflow text))
  | .float => some (if noOverflowFloat text then do
      let x ← orStd (casts.stof text)
      return .float x
    else .error (.floatOverflow text))
  | _ => none

/-- The value of a literal, before `init_raw`. -/
def convertLiteral (type : ColType) : SvValue → Except ConvertError Value
  | .intBint text _ => (convertInteger casts text type).getD (.error (.castType "int_bigint" type))
  | .float x =>
    match type with
    | .float => .ok (.float x)
    | .int => .ok (.int (casts.toInt x))
    | .bigint => .ok (.bigint (casts.toBigint x))
    | _ => .error (.castType "float" type)
  | .string s _ =>
    match type with
    | .string => .ok (.string s)
    | .datetime => convertDatetime s
    | _ => .error (.castType "string" type)

/-- `Analyze::convert_sv_value`. -/
def convertSvValue (svVal : SvValue) (col : ColMeta) : Except ConvertError Value := do
  let val ← convertLiteral casts col.type svVal
  initRaw col.len val

/-- `Value::convert_from_string` on a text that is an integer literal. -/
def convertFromString (text : List Char) (col : ColMeta) : Except ConvertError Value := do
  let val ← (convertInteger casts text col.type).getD
    (if col.type = .string then .ok (.string (ascii (String.ofList text)))
    else convertDatetime (ascii (String.ofList text)))
  initRaw col.len val

-- ---------------------------------------------------------------------------
-- The range check
-- ---------------------------------------------------------------------------

namespace IntType

def colType : IntType → ColType
  | .int => .int
  | .int64 => .bigint

/-- The value of a number of the type. -/
def value : IntType → Int → Value
  | .int, n => .int n
  | .int64, n => .bigint n

def overflow : IntType → List Char → ConvertError
  | .int, text => .intOverflow text
  | .int64, text => .bigIntOverflow text

/-- The check is exact for this literal, and so are the conversions that use it. -/
structure RangeChecked (t : IntType) (text : List Char) (lit : IntLiteral text) : Prop where
  check : t.noOverflow text = true ↔ t.Holds (intValue text)
  svValue : ∀ col : ColMeta, col.type = t.colType →
    (convertSvValue casts (.intBint text lit) col = .error (t.overflow text) ↔ ¬ t.Holds (intValue text)) ∧
      convertSvValue casts (.intBint text lit) col ≠ .error .std
  fromString : ∀ col : ColMeta, col.type = t.colType →
    (convertFromString casts text col = .error (t.overflow text) ↔ ¬ t.Holds (intValue text)) ∧
      convertFromString casts text col ≠ .error .std

variable {casts}

theorem convertInteger_eq (t : IntType) {text : List Char} (lit : IntLiteral text) :
    convertInteger casts text t.colType =
      some (if t.noOverflow text then .ok (t.value (intValue text)) else .error (t.overflow text)) := by
  by_cases h : t.noOverflow text = true
  · have hsto := t.sto_of_noOverflow lit h
    cases t <;> simp [convertInteger, colType, h, hsto, orStd, value]
  · cases t <;> simp [convertInteger, colType, h, overflow]

/-- Both conversions go by the check alone. -/
theorem convert_eq (t : IntType) {text : List Char} (lit : IntLiteral text) {col : ColMeta}
    (hcol : col.type = t.colType) :
    convertSvValue casts (.intBint text lit) col =
        (if t.noOverflow text then .ok (t.value (intValue text)) else .error (t.overflow text)) ∧
      convertFromString casts text col =
        if t.noOverflow text then .ok (t.value (intValue text)) else .error (t.overflow text) := by
  have hinit : ∀ n, initRaw col.len (t.value n) = .ok (t.value n) := by cases t <;> exact fun _ => rfl
  simp only [convertSvValue, convertLiteral, convertFromString, hcol, convertInteger_eq t lit, Option.getD_some]
  split <;> simp [hinit]

/-- Everything is exact for a literal when it has no more digits than the limits of the type, or is out of its
range. -/
theorem rangeChecked_iff (t : IntType) {text : List Char} (lit : IntLiteral text) :
    t.RangeChecked casts text lit ↔ (digitsOf text).length ≤ t.limitDigits ∨ ¬ t.Holds (intValue text) := by
  have hcheck := t.noOverflow_iff lit
  constructor
  · intro h
    by_contra hnot
    rw [not_or, not_not] at hnot
    exact hnot.1 (hcheck.mp (h.check.mpr hnot.2)).1
  · intro h
    have hexact : t.noOverflow text = true ↔ t.Holds (intValue text) := by
      rw [hcheck]
      exact ⟨And.right, fun hholds => ⟨h.resolve_right (not_not.mpr hholds), hholds⟩⟩
    have hconvert : ∀ res : Except ConvertError Value,
        res = (if t.noOverflow text then .ok (t.value (intValue text)) else .error (t.overflow text)) →
        (res = .error (t.overflow text) ↔ ¬ t.Holds (intValue text)) ∧ res ≠ .error .std := by
      rintro res rfl
      rw [← hexact]
      split
      · rename_i hpass
        simp [hpass]
      · rename_i hfail
        refine ⟨by simp [hfail], ?_⟩
        cases t <;> simp [overflow]
    exact ⟨hexact, fun col hcol => hconvert _ (convert_eq t lit hcol).1,
      fun col hcol => hconvert _ (convert_eq t lit hcol).2⟩

end IntType

-- ---------------------------------------------------------------------------
-- Values of a column
-- ---------------------------------------------------------------------------

/-- A text is read as a number of at most its length. -/
theorem stoiBytes_bounds {bs : List UInt8} {n : Int} (h : stoiBytes bs = some n) :
    -(10 ^ bs.length : Nat) < n ∧ n < (10 ^ bs.length : Nat) := by
  simp only [stoiBytes] at h
  generalize hds : List.takeWhile isDigitByte _ = ds at h
  have hdigits : ∀ b ∈ ds, isDigitByte b = true := by
    subst hds
    exact fun b hb => List.mem_takeWhile_imp hb
  have hlen : ds.length ≤ bs.length := by
    subst hds
    refine (List.takeWhile_prefix _).length_le.trans ?_
    split
    · exact (List.length_tail.trans_le (Nat.sub_le _ _)).trans (List.dropWhile_suffix _).length_le
    · exact (List.dropWhile_suffix _).length_le
  have hvalue := digitsValue_lt hdigits
  have hpow : 10 ^ ds.length ≤ 10 ^ bs.length := Nat.pow_le_pow_right (by decide) hlen
  split_ifs at h
  all_goals
    obtain rfl := Option.some.inj h
    omega

theorem checkSetDatetime_bounds {s : List UInt8} {n : Int} (h : checkSetDatetime s = .ok n) :
    -9223372036854775808 ≤ n ∧ n < 9223372036854775808 := by
  have hfield : ∀ {pos len : Nat} {m : Int}, stoiField (substr s pos len) = .ok m → len ≤ 4 →
      -10000 < m ∧ m < 10000 := by
    intro pos len m hm hlen
    unfold stoiField at hm
    split at hm
    · rename_i m' hstoi
      cases hm
      have hbounds := stoiBytes_bounds hstoi
      have hlength : (substr s pos len).length ≤ 4 := (List.length_take_le _ _).trans hlen
      have hpow : 10 ^ (substr s pos len).length ≤ 10 ^ 4 := Nat.pow_le_pow_right (by decide) hlength
      omega
    · cases hm
  simp only [checkSetDatetime] at h
  split at h
  · obtain ⟨year, hyear, h⟩ := bind_eq_ok_iff.mp h
    obtain ⟨month, hmonth, h⟩ := bind_eq_ok_iff.mp h
    obtain ⟨day, hday, h⟩ := bind_eq_ok_iff.mp h
    split at h
    · obtain ⟨hour, hhour, h⟩ := bind_eq_ok_iff.mp h
      obtain ⟨minute, hminute, h⟩ := bind_eq_ok_iff.mp h
      obtain ⟨sec, hsec, h⟩ := bind_eq_ok_iff.mp h
      obtain rfl := Except.ok.inj h
      have hyear := hfield hyear (by decide)
      have hmonth := hfield hmonth (by decide)
      have hday := hfield hday (by decide)
      have hhour := hfield hhour (by decide)
      have hminute := hfield hminute (by decide)
      have hsec := hfield hsec (by decide)
      omega
    · cases h
  · cases h

theorem IntType.sto_holds {t : IntType} {text : List Char} {n : Int} (h : t.sto text = some n) : t.Holds n := by
  unfold IntType.sto at h
  split at h
  · rename_i hholds
    obtain rfl := Option.some.inj h
    exact hholds
  · cases h

theorem orStd_eq_ok_iff {α : Type} {o : Option α} {a : α} : orStd o = .ok a ↔ o = some a := by
  cases o <;> simp [orStd]

variable {casts}

/-- What an integer literal is converted to, for the two types of integers. -/
theorem convertInteger_eq_ok (t : IntType) {text : List Char} {v : Value}
    (h : (convertInteger casts text t.colType).getD (.error (.castType "int_bigint" t.colType)) = .ok v) :
    ∃ n, t.Holds n ∧ v = t.value n := by
  cases t with
  | int =>
    simp only [IntType.colType, convertInteger, Option.getD_some] at h
    split at h
    · obtain ⟨n, hn, hv⟩ := bind_eq_ok_iff.mp h
      exact ⟨n, IntType.sto_holds (orStd_eq_ok_iff.mp hn), (Except.ok.inj hv).symm⟩
    · cases h
  | int64 =>
    simp only [IntType.colType, convertInteger, Option.getD_some] at h
    split at h
    · obtain ⟨n, hn, hv⟩ := bind_eq_ok_iff.mp h
      exact ⟨n, IntType.sto_holds (orStd_eq_ok_iff.mp hn), (Except.ok.inj hv).symm⟩
    · cases h

theorem IntType.value_storedIn {t : IntType} {n : Int} {col : ColMeta} (h : t.Holds n) (hcol : col.type = t.colType) :
    (t.value n).StoredIn col := by
  obtain ⟨hlower, hupper⟩ := h
  cases t with
  | int => exact ⟨hcol, hlower, Int.lt_add_one_of_le hupper⟩
  | int64 => exact ⟨hcol, hlower, Int.lt_add_one_of_le hupper⟩

/-- Before `init_raw` only the length of a string is open. -/
theorem convertLiteral_spec {svVal : SvValue} {col : ColMeta} {v : Value} (hfloat : col.type ≠ .float)
    (h : convertLiteral casts col.type svVal = .ok v) :
    v.StoredIn col ∨ ∃ s, v = .string s ∧ 0 ∉ s ∧ col.type = .string := by
  cases svVal with
  | intBint text lit =>
    cases htype : col.type with
    | int =>
      rw [htype] at h
      obtain ⟨n, hn, rfl⟩ := @convertInteger_eq_ok casts .int _ _ h
      exact .inl (IntType.value_storedIn hn htype)
    | bigint =>
      rw [htype] at h
      obtain ⟨n, hn, rfl⟩ := @convertInteger_eq_ok casts .int64 _ _ h
      exact .inl (IntType.value_storedIn hn htype)
    | float => exact absurd htype hfloat
    | string | datetime =>
      rw [htype] at h
      cases h
  | float x =>
    cases htype : col.type with
    | int =>
      rw [htype] at h
      obtain rfl := Except.ok.inj h
      exact .inl (@IntType.value_storedIn .int _ _ (casts.toInt_holds x) htype)
    | bigint =>
      rw [htype] at h
      obtain rfl := Except.ok.inj h
      exact .inl (@IntType.value_storedIn .int64 _ _ (casts.toBigint_holds x) htype)
    | float => exact absurd htype hfloat
    | string | datetime =>
      rw [htype] at h
      cases h
  | string s noZero =>
    cases htype : col.type with
    | string =>
      rw [htype] at h
      obtain rfl := Except.ok.inj h
      exact .inr ⟨s, rfl, noZero, rfl⟩
    | datetime =>
      rw [htype] at h
      simp only [convertLiteral, convertDatetime] at h
      split at h
      · rename_i n hn
        obtain rfl := Except.ok.inj h
        exact .inl ⟨htype, checkSetDatetime_bounds hn⟩
      · cases h
      · cases h
    | int | bigint =>
      rw [htype] at h
      cases h
    | float => exact absurd htype hfloat

/-- What a literal is converted to is a value of the column. -/
theorem convertSvValue_storedIn {svVal : SvValue} {col : ColMeta} {val : Value} (hfloat : col.type ≠ .float)
    (h : convertSvValue casts svVal col = .ok val) : val.StoredIn col := by
  obtain ⟨v, hv, hinit⟩ := bind_eq_ok_iff.mp h
  rcases convertLiteral_spec hfloat hv with hstored | ⟨s, rfl, hzero, htype⟩
  · unfold initRaw at hinit
    split at hinit
    · split at hinit
      · cases hinit
      · obtain rfl := Except.ok.inj hinit
        exact hstored
    · obtain rfl := Except.ok.inj hinit
      exact hstored
  · simp only [initRaw] at hinit
    split at hinit
    · cases hinit
    · rename_i hlen
      obtain rfl := Except.ok.inj hinit
      exact ⟨htype, Nat.not_lt.mp hlen, hzero⟩

/-- No float is converted. -/
def noFloats : FloatCasts where
  stof _ := none
  toInt _ := 0
  toInt_holds _ := by decide
  toBigint _ := 0
  toBigint_holds _ := by decide

theorem intLiteral_of_digits {c : Char} {ds : List Char} (h : (c :: ds).all Char.isDigit = true) : IntLiteral (c :: ds) :=
  .nonneg (List.cons_ne_nil _ _) (List.all_eq_true.mp h)

/-- The number behind the last `int`. -/
theorem rangeChecked_2147483648 :
    IntType.int.RangeChecked noFloats ['2', '1', '4', '7', '4', '8', '3', '6', '4', '8'] (intLiteral_of_digits rfl) :=
  (IntType.int.rangeChecked_iff (intLiteral_of_digits rfl)).mpr (.inl (by decide))

/-- The number 1 with zeros in front is turned down. -/
theorem not_rangeChecked_zeros : ¬ IntType.int.RangeChecked noFloats ['0', '0', '0', '0', '0', '0', '0', '0', '0', '0', '1']
    (intLiteral_of_digits rfl) := by
  intro h
  exact absurd (h.check.mpr (by decide)) (by decide)

end Rmdb
