-- SUMMARY: Numbers from their decimal digits, first digit first, and the order of digit sequences of one length.
import Mathlib.Algebra.Order.Ring.Nat
import Mathlib.Tactic.Ring

/-!
# Decimal digits

`positional digit n l` goes on with the digits of `l` behind the number `n`.
-/

variable {α : Type*} (digit : α → Nat)

/-- The number with the digits of `l` behind `n`. -/
def positional (n : Nat) (l : List α) : Nat := l.foldl (fun n a => 10 * n + digit a) n

variable {digit}

@[simp] theorem positional_nil (n : Nat) : positional digit n [] = n := rfl

theorem positional_cons (n : Nat) (a : α) (l : List α) :
    positional digit n (a :: l) = positional digit (10 * n + digit a) l := rfl

/-- Digits behind a number do not reach the next number. -/
theorem positional_bounds {l : List α} (h : ∀ a ∈ l, digit a ≤ 9) (n : Nat) :
    n * 10 ^ l.length ≤ positional digit n l ∧ positional digit n l < (n + 1) * 10 ^ l.length := by
  induction l generalizing n with
  | nil => simp
  | cons a l ih =>
    obtain ⟨ha, hl⟩ := List.forall_mem_cons.mp h
    obtain ⟨hlower, hupper⟩ := ih hl (10 * n + digit a)
    rw [positional_cons, List.length_cons, Nat.pow_succ]
    have hfirst : 10 * n * 10 ^ l.length ≤ (10 * n + digit a) * 10 ^ l.length :=
      Nat.mul_le_mul_right _ (by omega)
    have hlast : (10 * n + digit a + 1) * 10 ^ l.length ≤ 10 * (n + 1) * 10 ^ l.length :=
      Nat.mul_le_mul_right _ (by omega)
    constructor
    · calc n * (10 ^ l.length * 10) = 10 * n * 10 ^ l.length := by ring
        _ ≤ _ := hfirst.trans hlower
    · calc positional digit (10 * n + digit a) l < 10 * (n + 1) * 10 ^ l.length :=
            Nat.lt_of_lt_of_le hupper hlast
        _ = (n + 1) * (10 ^ l.length * 10) := by ring

/-- The first digit decides. -/
theorem positional_lt_of_digit_lt {a b : α} {l m : List α} (hlen : l.length = m.length)
    (hl : ∀ c ∈ l, digit c ≤ 9) (hm : ∀ c ∈ m, digit c ≤ 9) (hab : digit a < digit b) (n : Nat) :
    positional digit n (a :: l) < positional digit n (b :: m) := by
  rw [positional_cons, positional_cons]
  have hupper := (positional_bounds hl (10 * n + digit a)).2
  have hlower := (positional_bounds hm (10 * n + digit b)).1
  have hstep : (10 * n + digit a + 1) * 10 ^ l.length ≤ (10 * n + digit b) * 10 ^ l.length :=
    Nat.mul_le_mul_right _ (by omega)
  rw [hlen] at hstep hupper
  exact (hupper.trans_le hstep).trans_le hlower
