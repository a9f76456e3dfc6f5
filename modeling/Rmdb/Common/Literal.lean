-- SUMMARY: Integer literals: comparing them as texts, and the range check that the analyzer makes.
import Mathlib.Data.Int.Order.Basic
import Rmdb.Lib.Digits

/-!
# Integer literals

The parser leaves an integer literal as a text. `no_overflow` compares it with the texts of the
largest and of the smallest number of a type, by their lengths and then digit by digit. So a text that
passes is a number of the type; a number of the type that is written with zeros in front may not pass.
-/

namespace Rmdb

/-- The loop of `compare_pos_int_string` over two texts of one length. -/
def compareDigits : List Char → List Char → Int
  | c₁ :: val1, c₂ :: val2 => if c₁ > c₂ then 1 else if c₁ < c₂ then -1 else compareDigits val1 val2
  | _, _ => 0

def comparePosIntString (val1 val2 : List Char) : Int :=
  if val1.length > val2.length then 1
  else if val1.length < val2.length then -1
  else compareDigits val1 val2

/-- Both texts have a first character. -/
def compareIntString (val1 val2 : List Char) : Int :=
  if val2.head? = some '-' ∧ val1.head? ≠ some '-' then 1
  else if val1.head? = some '-' ∧ val2.head? ≠ some '-' then -1
  else if val1.head? = some '-' ∧ val2.head? = some '-' then -comparePosIntString val1.tail val2.tail
  else comparePosIntString (if val1.head? = some '+' then val1.tail else val1)
    (if val2.head? = some '+' then val2.tail else val2)

/-- `no_overflow` for the type with these limits. -/
def noOverflow (max lowest : Int) (value : List Char) : Bool :=
  compareIntString value (toString max).toList ≤ 0 ∧ compareIntString value (toString lowest).toList ≥ 0

/-- `no_overflow<int>`. -/
def noOverflowInt (value : List Char) : Bool := noOverflow 2147483647 (-2147483648) value

/-- What the grammar makes of an integer: digits, or a minus sign and digits. -/
inductive IntLiteral : List Char → Prop
  | nonneg {ds : List Char} : ds ≠ [] → (∀ c ∈ ds, c.isDigit = true) → IntLiteral ds
  | neg {ds : List Char} : ds ≠ [] → (∀ c ∈ ds, c.isDigit = true) → IntLiteral ('-' :: ds)

/-- The number that a literal stands for. -/
def intValue : List Char → Int
  | [] => 0
  | c :: ds =>
    if c = '-' then -(Nat.ofDigitChars 10 ds 0 : Nat) else (Nat.ofDigitChars 10 (c :: ds) 0 : Nat)

/-- `std::stoi` on a literal. It throws outside of the range of an `int`. -/
def stoi (value : List Char) : Option Int :=
  if -2147483648 ≤ intValue value ∧ intValue value ≤ 2147483647 then some (intValue value) else none

-- ---------------------------------------------------------------------------
-- Texts of digits
-- ---------------------------------------------------------------------------

theorem digit_le {c : Char} (h : c.isDigit = true) : 48 ≤ c.toNat ∧ c.toNat ≤ 57 := by
  simp only [Char.isDigit, Bool.and_eq_true, decide_eq_true_eq, ge_iff_le, UInt32.le_iff_toNat_le] at h
  exact h

/-- The digit that a character stands for. -/
def charDigit (c : Char) : Nat := c.toNat - '0'.toNat

theorem ofDigitChars_eq (ds : List Char) (a : Nat) : Nat.ofDigitChars 10 ds a = positional charDigit a ds :=
  Nat.ofDigitChars_eq_foldl

theorem charDigit_le {ds : List Char} (h : ∀ c ∈ ds, c.isDigit = true) : ∀ c ∈ ds, charDigit c ≤ 9 := by
  intro c hc
  have hdigit := digit_le (h c hc)
  have hzero : '0'.toNat = 48 := rfl
  unfold charDigit
  omega

/-- The number of a text of digits behind the number `a`. -/
theorem ofDigitChars_bounds {ds : List Char} (h : ∀ c ∈ ds, c.isDigit = true) (a : Nat) :
    a * 10 ^ ds.length ≤ Nat.ofDigitChars 10 ds a ∧
      Nat.ofDigitChars 10 ds a < (a + 1) * 10 ^ ds.length := by
  rw [ofDigitChars_eq]
  exact positional_bounds (charDigit_le h) a

theorem ofDigitChars_lt_of_lt {c d : Char} {x y : List Char} (hlen : x.length = y.length)
    (hx : ∀ e ∈ c :: x, e.isDigit = true) (hy : ∀ e ∈ d :: y, e.isDigit = true) (hcd : c < d) (a : Nat) :
    Nat.ofDigitChars 10 (c :: x) a < Nat.ofDigitChars 10 (d :: y) a := by
  obtain ⟨hc, hx⟩ := List.forall_mem_cons.mp hx
  obtain ⟨-, hy⟩ := List.forall_mem_cons.mp hy
  have hdigit := digit_le hc
  have hlt : c.toNat < d.toNat := UInt32.lt_iff_toNat_lt.mp hcd
  have hzero : '0'.toNat = 48 := rfl
  rw [ofDigitChars_eq, ofDigitChars_eq]
  apply positional_lt_of_digit_lt hlen (charDigit_le hx) (charDigit_le hy)
  unfold charDigit
  omega

/-- Texts of one length are compared like their numbers. -/
theorem compareDigits_iff {x y : List Char} (hlen : x.length = y.length)
    (hx : ∀ c ∈ x, c.isDigit = true) (hy : ∀ c ∈ y, c.isDigit = true) (a : Nat) :
    compareDigits x y ≤ 0 ↔ Nat.ofDigitChars 10 x a ≤ Nat.ofDigitChars 10 y a := by
  induction x generalizing y a with
  | nil =>
    obtain rfl := List.length_eq_zero_iff.mp hlen.symm
    simp [compareDigits]
  | cons c x ih =>
    cases y with
    | nil => cases hlen
    | cons d y =>
      have hlen' := Nat.succ.inj hlen
      rw [compareDigits]
      by_cases hgt : c > d
      · have hlt := ofDigitChars_lt_of_lt hlen'.symm hy hx hgt a
        rw [if_pos hgt]
        omega
      · by_cases hlt : c < d
        · have hval := ofDigitChars_lt_of_lt hlen' hx hy hlt a
          rw [if_neg hgt, if_pos hlt]
          omega
        · obtain rfl : c = d := Char.le_antisymm (Char.not_lt.mp hgt) (Char.not_lt.mp hlt)
          rw [if_neg hgt, if_neg hlt, Nat.ofDigitChars_cons, Nat.ofDigitChars_cons]
          exact ih hlen' (List.forall_mem_cons.mp hx).2 (List.forall_mem_cons.mp hy).2 _

/-- A text that is not after the text of a number is not a larger number. -/
theorem le_of_comparePosIntString {x y : List Char} {d : Char} (hx : ∀ c ∈ x, c.isDigit = true)
    (hy : ∀ c ∈ d :: y, c.isDigit = true) (hd : d ≠ '0') (h : comparePosIntString x (d :: y) ≤ 0) :
    Nat.ofDigitChars 10 x 0 ≤ Nat.ofDigitChars 10 (d :: y) 0 := by
  unfold comparePosIntString at h
  split at h
  · cases h
  · rename_i hle
    split at h
    · -- A shorter text is a smaller number, as the other one has no zero in front.
      rename_i hlt
      have hupper := (ofDigitChars_bounds hx 0).2
      obtain ⟨hdigit, hrest⟩ := List.forall_mem_cons.mp hy
      have hdigit := digit_le hdigit
      have hne : d.toNat ≠ 48 := fun heq => hd (Char.toNat_inj.mp heq)
      have hlower := (ofDigitChars_bounds hrest (10 * 0 + (d.toNat - 48))).1
      have hzero : '0'.toNat = 48 := rfl
      rw [Nat.ofDigitChars_cons, hzero]
      have hpow : 10 ^ x.length ≤ 10 ^ y.length := Nat.pow_le_pow_right (by decide) (Nat.le_of_lt_succ hlt)
      have hone : 1 * 10 ^ y.length ≤ (10 * 0 + (d.toNat - 48)) * 10 ^ y.length :=
        Nat.mul_le_mul_right _ (by omega)
      omega
    · exact (compareDigits_iff (by omega) hx hy 0).mp h

/-- Against the text of a number without zeros in front, a text compares well as long as it is not longer. -/
theorem comparePosIntString_iff {x y : List Char} {d : Char} (hx : ∀ c ∈ x, c.isDigit = true)
    (hy : ∀ c ∈ d :: y, c.isDigit = true) (hd : d ≠ '0') : comparePosIntString x (d :: y) ≤ 0 ↔
      x.length ≤ (d :: y).length ∧ Nat.ofDigitChars 10 x 0 ≤ Nat.ofDigitChars 10 (d :: y) 0 := by
  constructor
  · intro h
    refine ⟨?_, le_of_comparePosIntString hx hy hd h⟩
    by_contra hlen
    rw [comparePosIntString, if_pos (Nat.lt_of_not_le hlen)] at h
    cases h
  · rintro ⟨hlen, hle⟩
    rw [comparePosIntString, if_neg (Nat.not_lt.mpr hlen)]
    split
    · decide
    · exact (compareDigits_iff (by omega) hx hy 0).mpr hle

-- ---------------------------------------------------------------------------
-- The range check
-- ---------------------------------------------------------------------------

/-- The types of the check. -/
inductive IntType where
  | int
  | int64
  deriving DecidableEq, Repr

namespace IntType

def max : IntType → Int
  | .int => 2147483647
  | .int64 => 9223372036854775807

def lowest : IntType → Int
  | .int => -2147483648
  | .int64 => -9223372036854775808

/-- The number of digits of the limits. -/
def limitDigits : IntType → Nat
  | .int => 10
  | .int64 => 19

/-- The numbers of the type. -/
def Holds (t : IntType) (n : Int) : Prop := t.lowest ≤ n ∧ n ≤ t.max

instance (t : IntType) (n : Int) : Decidable (t.Holds n) := inferInstanceAs (Decidable (_ ∧ _))

/-- `no_overflow<type>`. -/
def noOverflow (t : IntType) (value : List Char) : Bool := Rmdb.noOverflow t.max t.lowest value

/-- `std::stoi` and `std::stoll` on a literal; they throw outside of the range of the type. -/
def sto (t : IntType) (value : List Char) : Option Int :=
  if t.Holds (intValue value) then some (intValue value) else none

end IntType

/-- A literal without its sign. -/
def digitsOf (value : List Char) : List Char := if value.head? = some '-' then value.tail else value

/-- Both limits of a type, as the check sees them. -/
structure LimitText (limit : Int) (digits : Nat) (d : Char) (y : List Char) : Prop where
  isDigit : ∀ c ∈ d :: y, c.isDigit = true
  noZero : d ≠ '0'
  length : (d :: y).length = digits
  value : (Nat.ofDigitChars 10 (d :: y) 0 : Int) = limit

theorem IntType.max_text (t : IntType) :
    ∃ d y, (toString t.max).toList = d :: y ∧ LimitText t.max t.limitDigits d y := by
  cases t with
  | int => exact ⟨'2', "147483647".toList, by decide, List.all_eq_true.mp rfl, by decide, rfl, by decide⟩
  | int64 => exact ⟨'9', "223372036854775807".toList, by decide, List.all_eq_true.mp rfl, by decide, rfl, by decide⟩

theorem IntType.lowest_text (t : IntType) :
    ∃ d y, (toString t.lowest).toList = '-' :: d :: y ∧ LimitText (-t.lowest) t.limitDigits d y := by
  cases t with
  | int => exact ⟨'2', "147483648".toList, by decide, List.all_eq_true.mp rfl, by decide, rfl, by decide⟩
  | int64 => exact ⟨'9', "223372036854775808".toList, by decide, List.all_eq_true.mp rfl, by decide, rfl, by decide⟩

theorem ne_sign {c : Char} (h : c.isDigit = true) : c ≠ '-' ∧ c ≠ '+' := by
  constructor <;> rintro rfl <;> exact absurd h (by decide)

/-- A literal passes the check when it is in the range and has no more digits than the limits. -/
theorem IntType.noOverflow_iff (t : IntType) {value : List Char} (hlit : IntLiteral value) :
    t.noOverflow value = true ↔ (digitsOf value).length ≤ t.limitDigits ∧ t.Holds (intValue value) := by
  obtain ⟨d, y, hmax, htext⟩ := t.max_text
  obtain ⟨d', y', hlowest, htext'⟩ := t.lowest_text
  have hpos : 0 ≤ t.max ∧ t.lowest ≤ 0 := by cases t <;> decide
  have hd := ne_sign (List.forall_mem_cons.mp htext.isDigit).1
  simp only [IntType.noOverflow, Rmdb.noOverflow, hmax, hlowest, decide_eq_true_eq, IntType.Holds]
  cases hlit with
  | nonneg hne hds =>
    cases value with
    | nil => exact absurd rfl hne
    | cons c ds =>
      have hc := ne_sign (hds c List.mem_cons_self)
      have hcompare := comparePosIntString_iff hds htext.isDigit htext.noZero
      rw [htext.length] at hcompare
      have hvalue := htext.value
      simp only [compareIntString, digitsOf, intValue, List.head?_cons, List.tail_cons, Option.some.injEq, hc, hd,
        if_false, false_and, ne_eq, not_true_eq_false, not_false_eq_true, and_self, if_true, hcompare]
      omega
  | @neg ds hne hds =>
    have hcompare := comparePosIntString_iff hds htext'.isDigit htext'.noZero
    rw [htext'.length] at hcompare
    have hvalue := htext'.value
    simp only [compareIntString, digitsOf, intValue, List.head?_cons, List.tail_cons, Option.some.injEq, hd,
      if_false, and_false, ne_eq, not_true_eq_false, not_false_eq_true, and_self, if_true]
    omega

/-- After the check `std::stoi` and `std::stoll` do not throw. -/
theorem IntType.sto_of_noOverflow (t : IntType) {value : List Char} (hlit : IntLiteral value)
    (h : t.noOverflow value = true) : t.sto value = some (intValue value) :=
  if_pos ((t.noOverflow_iff hlit).mp h).2

/-- After the check `std::stoi` does not throw. -/
theorem stoi_of_noOverflowInt {value : List Char} (hlit : IntLiteral value)
    (h : noOverflowInt value = true) : stoi value = some (intValue value) :=
  IntType.int.sto_of_noOverflow hlit h

end Rmdb
