-- SUMMARY: How two 32-bit floats compare: in one way when neither is NaN, in none otherwise.
import Mathlib

/-!
# Comparing floats

`<` and `==` of floats come from one comparison, which has no result when a NaN takes part. The
other floats are in the order of the numbers that the comparison looks at.
-/

open Float.Model

namespace FloatOrder

theorem compare_eq_none_iff (a b : UnpackedFloat) :
    a.compare b = none ↔ a.isNaN = true ∨ b.isNaN = true := by
  cases a with
  | notANumber => simp [UnpackedFloat.compare, UnpackedFloat.isNaN]
  | infinity s => cases s <;> cases b <;> simp [UnpackedFloat.compare, UnpackedFloat.isNaN]
  | zero s => cases b with
    | infinity t | finite t => cases t <;> simp [UnpackedFloat.compare, UnpackedFloat.isNaN]
    | notANumber | zero => simp [UnpackedFloat.compare, UnpackedFloat.isNaN]
  | finite s => cases s <;> cases b with
    | infinity t | finite t => cases t <;> simp [UnpackedFloat.compare, UnpackedFloat.isNaN]
    | notANumber | zero => simp [UnpackedFloat.compare, UnpackedFloat.isNaN]

theorem compare_swap (a b : UnpackedFloat) : b.compare a = (a.compare b).map Ordering.swap := by
  have hsign : ∀ s t : UnpackedFloat.Sign, compare t s = (compare s t).swap := by
    intro s t
    cases s <;> cases t <;> rfl
  have hexp : ∀ e e' : Int, compare e' e = (compare e e').swap := fun _ _ => Std.OrientedCmp.eq_swap
  have hman : ∀ m m' : Nat, compare m' m = (compare m m').swap := fun _ _ => Std.OrientedCmp.eq_swap
  cases a with
  | notANumber => cases b <;> rfl
  | infinity s => cases b with
    | notANumber => cases s <;> rfl
    | infinity t => simp [UnpackedFloat.compare, hsign s t]
    | zero t => cases s <;> rfl
    | finite t => cases s <;> cases t <;> rfl
  | zero s => cases b with
    | notANumber | zero => rfl
    | infinity t | finite t => cases t <;> rfl
  | finite s m e => cases b with
    | notANumber => cases s <;> rfl
    | infinity t => cases s <;> cases t <;> rfl
    | zero t => cases s <;> rfl
    | finite t m' e' =>
      cases s <;> cases t <;> simp [UnpackedFloat.compare, hexp e e', hman m m', Ordering.swap_then]

/-- The outcome of comparing two floats. -/
def cmp (a b : Float32) : Option Ordering := a.toModel.unpack.compare b.toModel.unpack

theorem cmp_eq_none_iff (a b : Float32) : cmp a b = none ↔ a.isNaN = true ∨ b.isNaN = true :=
  compare_eq_none_iff _ _

theorem cmp_swap (a b : Float32) : cmp b a = (cmp a b).map Ordering.swap := compare_swap _ _

theorem decide_lt (a b : Float32) : decide (a < b) = (cmp a b == some .lt) := by
  have hlt : a < b ↔ (cmp a b == some .lt) = true := decide_eq_true_iff
  rw [Bool.eq_iff_iff, decide_eq_true_iff, hlt]

theorem lt_irrefl (a : Float32) : ¬ a < a := by
  intro h
  have hlt : cmp a a = some .lt := by
    have hdec := decide_eq_true h
    rw [decide_lt] at hdec
    exact beq_iff_eq.mp hdec
  have hswap := cmp_swap a a
  rw [hlt] at hswap
  cases hswap

theorem beq_eq (a b : Float32) : (a == b) = (cmp a b == some .eq) := rfl

-- ---------------------------------------------------------------------------
-- The order of the floats that are no NaN
-- ---------------------------------------------------------------------------

/-- The numbers that decide how a float compares, the first that differs before the others. -/
def rankOf : UnpackedFloat → List Int
  | .notANumber => []
  | .infinity .positive => [2, 0, 0]
  | .infinity .negative => [-2, 0, 0]
  | .zero _ => [0, 0, 0]
  | .finite .positive m e _ => [1, e, m]
  | .finite .negative m e _ => [-1, -e, -m]

theorem rankOf_length {a : UnpackedFloat} (ha : a.isNaN = false) : (rankOf a).length = 3 := by
  cases a with
  | notANumber => cases ha
  | infinity s | finite s => cases s <;> rfl
  | zero s => rfl

theorem then_eq_lt_iff (m n : Nat) (d e : Int) :
    (compare d e).then (compare m n) = .lt ↔ d < e ∨ d = e ∧ m < n := by
  rw [Ordering.then_eq_lt, Int.compare_eq_lt, Int.compare_eq_eq, Nat.compare_eq_lt]

theorem then_eq_gt_iff (m n : Nat) (d e : Int) :
    (compare d e).then (compare m n) = .gt ↔ e < d ∨ d = e ∧ n < m := by
  rw [Ordering.then_eq_gt, Int.compare_eq_gt, Int.compare_eq_eq, Nat.compare_eq_gt]

theorem compare_eq_lt_iff {a b : UnpackedFloat} (ha : a.isNaN = false) (hb : b.isNaN = false) :
    a.compare b = some .lt ↔ rankOf a < rankOf b := by
  cases a with
  | notANumber => cases ha
  | infinity s => cases b with
    | notANumber => cases hb
    | zero t =>
      cases s <;> simp [UnpackedFloat.compare, rankOf, List.cons_lt_cons_iff, -List.not_lt]
    | infinity t => cases s <;> cases t <;> decide
    | finite t =>
      cases s <;> cases t <;>
        simp [UnpackedFloat.compare, rankOf, List.cons_lt_cons_iff, -List.not_lt]
  | zero s => cases b with
    | notANumber => cases hb
    | zero t => simp [UnpackedFloat.compare, rankOf]
    | infinity t | finite t =>
      cases t <;> simp [UnpackedFloat.compare, rankOf, List.cons_lt_cons_iff, -List.not_lt]
  | finite s => cases b with
    | notANumber => cases hb
    | zero t =>
      cases s <;> simp [UnpackedFloat.compare, rankOf, List.cons_lt_cons_iff, -List.not_lt]
    | infinity t =>
      cases s <;> cases t <;>
        simp [UnpackedFloat.compare, rankOf, List.cons_lt_cons_iff, -List.not_lt]
    | finite t =>
      cases s <;> cases t <;>
        simp [UnpackedFloat.compare, rankOf, List.cons_lt_cons_iff, -List.not_lt, then_eq_lt_iff,
          then_eq_gt_iff]

def rank (x : Float32) : List Int := rankOf x.toModel.unpack

theorem rank_length {x : Float32} (hx : x.isNaN = false) : (rank x).length = 3 := rankOf_length hx

theorem lt_iff {a b : Float32} (ha : a.isNaN = false) (hb : b.isNaN = false) :
    a < b ↔ rank a < rank b := by
  have hcmp : cmp a b = some .lt ↔ rank a < rank b := compare_eq_lt_iff ha hb
  rw [← hcmp, ← decide_eq_true_iff (p := a < b), decide_lt, beq_iff_eq]

end FloatOrder
