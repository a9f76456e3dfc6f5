-- SUMMARY: Which values the six comparison operators order, among those that the analyzer lets a condition compare.
import Rmdb.Lib.FloatOrder
import Rmdb.Optimizer.Analyze

/-!
# Comparisons that the analyzer lets through

`type_compatible` admits columns of different types, but the operators of `Value` only compare values of one
type. For others `==`, `<` and `>` all say no, and `<=` and `>=`, which are negations, both say yes.
-/

namespace Rmdb

namespace Value

/-- The number is one of its member of the union. -/
def Ranged : Value → Prop
  | .int n => -2147483648 ≤ n ∧ n < 2147483648
  | .bigint n | .datetime n => -9223372036854775808 ≤ n ∧ n < 9223372036854775808
  | .float _ | .string _ => True

/-- The integer of a value of either width. -/
def integer : Value → Option Int
  | .int n | .bigint n => some n
  | _ => none

def isNaN : Value → Bool
  | .float x => x.isNaN
  | _ => false

end Value

/-- The comparison of two integers. -/
def CompOp.testInt (op : CompOp) (m n : Int) : Bool :=
  match op with
  | .eq => m = n
  | .ne => m ≠ n
  | .lt => m < n
  | .gt => m > n
  | .le => m ≤ n
  | .ge => m ≥ n

/-- The six operators agree with each other on two values. -/
structure Coherent (x y : Value) : Prop where
  one : [CompOp.lt, .eq, .gt].countP (·.test x y) = 1
  le : CompOp.le.test x y = (CompOp.lt.test x y || CompOp.eq.test x y)
  ge : CompOp.ge.test x y = (CompOp.gt.test x y || CompOp.eq.test x y)
  ne : CompOp.ne.test x y = !CompOp.eq.test x y
  ints : ∀ m n, x.integer = some m → y.integer = some n → ∀ op : CompOp, op.test x y = op.testInt m n

/-- The outcomes that an operator accepts. -/
def CompOp.accepts (op : CompOp) (o : Ordering) : Bool :=
  match op with
  | .eq => o == .eq
  | .ne => o != .eq
  | .lt => o == .lt
  | .gt => o == .gt
  | .le => o != .gt
  | .ge => o != .lt

/-- `<` and `=` of integers come from one comparison. -/
theorem compare_tests (a b : Int) : decide (a < b) = (compare a b == .lt) ∧
    decide (a = b) = (compare a b == .eq) ∧ decide (b < a) = (compare a b == .gt) := by
  rcases lt_trichotomy a b with h | h | h
  · simp [compare_lt_iff_lt.mpr h, h, h.ne, h.not_gt]
  · simp [h]
  · simp [compare_gt_iff_gt.mpr h, h, h.ne', h.not_gt]

theorem CompOp.testInt_eq (op : CompOp) (m n : Int) : op.testInt m n = op.accepts (compare m n) := by
  obtain ⟨hlt, heq, hgt⟩ := compare_tests m n
  have hle : decide (m ≤ n) = !decide (n < m) :=
    (decide_eq_decide.mpr Int.not_lt.symm).trans decide_not
  have hge : decide (m ≥ n) = !decide (m < n) :=
    (decide_eq_decide.mpr Int.not_lt.symm).trans decide_not
  cases op with
  | eq => exact heq
  | ne => exact decide_not.trans (congrArg _ heq)
  | lt => exact hlt
  | gt => exact hgt
  | le => exact hle.trans (congrArg _ hgt)
  | ge => exact hge.trans (congrArg _ hlt)

/-- It is enough that `<`, `==` and `>` come from one comparison. -/
theorem Coherent.of_ordering {x y : Value} (o : Ordering) (hlt : x.lt y = (o == .lt)) (heq : x.eq y = (o == .eq))
    (hgt : y.lt x = (o == .gt)) (hints : ∀ m n, x.integer = some m → y.integer = some n → o = compare m n) :
    Coherent x y := by
  have htest : ∀ op : CompOp, op.test x y = op.accepts o := by
    intro op
    cases op <;> simp only [CompOp.test, CompOp.accepts, Value.gt, hlt, heq, hgt] <;> rfl
  refine ⟨?_, ?_, ?_, ?_, fun m n hm hn op => ?_⟩
  case refine_5 => rw [htest, CompOp.testInt_eq, hints m n hm hn]
  all_goals
    simp only [htest]
    cases o <;> rfl

-- ---------------------------------------------------------------------------
-- Values of one type
-- ---------------------------------------------------------------------------

theorem coherent_float {x y : Float32} (hx : x.isNaN = false) (hy : y.isNaN = false) :
    Coherent (.float x) (.float y) := by
  obtain ⟨o, ho⟩ : ∃ o, FloatOrder.cmp x y = some o := by
    apply Option.ne_none_iff_exists'.mp
    rw [ne_eq, FloatOrder.cmp_eq_none_iff, hx, hy]
    simp
  have hswap : FloatOrder.cmp y x = some o.swap := by rw [FloatOrder.cmp_swap, ho, Option.map_some]
  apply Coherent.of_ordering o
  · simp only [Value.lt, FloatOrder.decide_lt, ho]
    cases o <;> rfl
  · simp only [Value.eq, FloatOrder.beq_eq, ho]
    cases o <;> rfl
  · simp only [Value.lt, FloatOrder.decide_lt, hswap]
    cases o <;> rfl
  · intro m n hm
    cases hm

theorem coherent_string (s t : List UInt8) : Coherent (.string s) (.string t) := by
  obtain ⟨o, hlt, heq, hgt⟩ : ∃ o : Ordering, decide (s < t) = (o == .lt) ∧ (s == t) = (o == .eq) ∧
      decide (t < s) = (o == .gt) := by
    by_cases hlt : s < t
    · have hne : s ≠ t := fun h => List.lt_irrefl t (h ▸ hlt)
      exact ⟨.lt, by simp [hlt], by simp [hne], by simp [List.lt_asymm hlt]⟩
    · by_cases hgt : t < s
      · have hne : s ≠ t := fun h => List.lt_irrefl t (h ▸ hgt)
        exact ⟨.gt, by simp [hlt], by simp [hne], by simp [hgt]⟩
      · have heq : s = t := List.le_antisymm (List.not_lt.mp hgt) (List.not_lt.mp hlt)
        exact ⟨.eq, by simp [hlt], by simp [heq], by simp [hgt]⟩
  exact Coherent.of_ordering o hlt heq hgt fun m n hm => by cases hm

theorem coherent_number {x y : Value} {m n : Int} (hlt : x.lt y = decide (m < n)) (heq : x.eq y = decide (m = n))
    (hgt : y.lt x = decide (n < m)) (hints : x.integer = some m ∧ y.integer = some n ∨ x.integer = none) :
    Coherent x y := by
  obtain ⟨hlt', heq', hgt'⟩ := compare_tests m n
  refine Coherent.of_ordering (compare m n) (hlt.trans hlt') (heq.trans heq') (hgt.trans hgt') fun m' n' hm hn => ?_
  rcases hints with ⟨hm', hn'⟩ | hnone
  · cases hm.symm.trans hm'
    cases hn.symm.trans hn'
    rfl
  · cases hm.symm.trans hnone

/-- Values of one type are compared well, unless one is NaN. -/
theorem coherent_of_type_eq {x y : Value} (hx : x.Ranged) (hy : y.Ranged) (htype : x.type = y.type)
    (hnan : x.isNaN = false ∧ y.isNaN = false) : Coherent x y := by
  cases x <;> cases y <;> try cases htype
  case int.int m n => exact coherent_number rfl rfl rfl (.inl ⟨rfl, rfl⟩)
  case bigint.bigint m n => exact coherent_number rfl rfl rfl (.inl ⟨rfl, rfl⟩)
  case string.string s t => exact coherent_string s t
  case float.float a b => exact coherent_float hnan.1 hnan.2
  case datetime.datetime m n =>
    have heq : (m = n) ↔ Value.toUnsigned m = Value.toUnsigned n := by
      obtain ⟨hm, hm'⟩ := hx
      obtain ⟨hn, hn'⟩ := hy
      unfold Value.toUnsigned
      omega
    exact coherent_number rfl (decide_eq_decide.mpr heq) rfl (.inr rfl)

/-- No operator of one type looks at a value of another. -/
theorem tests_of_type_ne {x y : Value} (htype : x.type ≠ y.type) : x.lt y = false ∧ x.eq y = false := by
  cases x <;> cases y <;> first | exact absurd rfl htype | exact ⟨rfl, rfl⟩

theorem tests_of_isNaN {x y : Value} (htype : x.type = y.type) (hnan : x.isNaN = true ∨ y.isNaN = true) :
    x.lt y = false ∧ x.eq y = false := by
  cases x <;> cases y <;> try cases htype
  case float.float a b =>
    have hnone : FloatOrder.cmp a b = none := (FloatOrder.cmp_eq_none_iff a b).mpr hnan
    constructor
    · simp only [Value.lt, FloatOrder.decide_lt, hnone]
      rfl
    · simp only [Value.eq, FloatOrder.beq_eq, hnone]
      rfl
  all_goals simp [Value.isNaN] at hnan

/-- Two values are compared well exactly when they have one type and none is NaN. -/
theorem coherent_iff {x y : Value} (hx : x.Ranged) (hy : y.Ranged) :
    Coherent x y ↔ x.type = y.type ∧ x.isNaN = false ∧ y.isNaN = false := by
  constructor
  · intro h
    -- Otherwise none of `<`, `==` and `>` holds.
    have hsome : ¬ (x.lt y = false ∧ x.eq y = false ∧ y.lt x = false) := by
      rintro ⟨hlt, heq, hgt⟩
      have hone := h.one
      simp [CompOp.test, Value.gt, hlt, heq, hgt] at hone
    by_contra hnot
    by_cases htype : x.type = y.type
    · have hnan : x.isNaN = true ∨ y.isNaN = true := by
        by_contra hno
        rw [not_or, Bool.not_eq_true, Bool.not_eq_true] at hno
        exact hnot ⟨htype, hno⟩
      obtain ⟨hlt, heq⟩ := tests_of_isNaN htype hnan
      exact hsome ⟨hlt, heq, (tests_of_isNaN htype.symm hnan.symm).1⟩
    · obtain ⟨hlt, heq⟩ := tests_of_type_ne htype
      exact hsome ⟨hlt, heq, (tests_of_type_ne (Ne.symm htype)).1⟩
  · rintro ⟨htype, hnan⟩
    exact coherent_of_type_eq hx hy htype hnan

theorem coherent_datetimes : Coherent (.datetime 5) (.datetime (-1)) :=
  have hranged : (Value.datetime 5).Ranged ∧ (Value.datetime (-1)).Ranged := by
    constructor <;> simp [Value.Ranged]
  (coherent_iff hranged.1 hranged.2).mpr ⟨rfl, rfl, rfl⟩

/-- The analyzer lets `INT` and `BIGINT` columns be compared, but 1 is neither below 1, nor equal to it, nor above
it, and both at most and at least 2. -/
theorem incoherent_int_bigint : Analyze.typeCompatible .int .bigint = true ∧ ¬ Coherent (.int 1) (.bigint 1) ∧
    CompOp.le.test (.int 1) (.bigint 2) = true ∧ CompOp.ge.test (.int 1) (.bigint 2) = true := by
  refine ⟨rfl, fun h => ?_, rfl, rfl⟩
  have hone := h.one
  simp [CompOp.test, Value.gt, Value.lt, Value.eq] at hone

end Rmdb
