-- SUMMARY: Binary search for the boundary of a predicate on an index range.
import Mathlib.Data.List.Basic
import Mathlib.Order.Lattice

/-!
# Binary search

The half-interval loop over `[l, r]` that keeps the boundary of a predicate
`below` inside the interval, and the search built from it. `below` is only
asked about indices inside the range. `loopM` is the same loop over the `int`s of a
program, when looking at an index may fail.
-/

namespace BinarySearch

/-- `while (l < r) { mid = (l + r) / 2; if (below mid) l = mid + 1; else r = mid; }`,
ending with `r`. The interval shrinks in every turn, so its length is enough fuel. -/
def loop (below : Nat → Bool) : Nat → Nat → Nat → Nat
  | 0, _, r => r
  | fuel + 1, l, r =>
    if l < r then
      if below ((l + r) / 2) then loop below fuel ((l + r) / 2 + 1) r
      else loop below fuel l ((l + r) / 2)
    else r

/-- The first index of `[0, n)` that is not `below`, or `n`. -/
def search (below : Nat → Bool) (n : Nat) : Nat :=
  if n = 0 then 0
  else
    let r := loop below n 0 (n - 1)
    if below r then n else r

/-- `m` is the boundary of `below` on `[0, n)`. -/
structure Boundary (below : Nat → Bool) (n m : Nat) : Prop where
  le : m ≤ n
  lt : ∀ i, i < m → below i = true
  ge : ∀ i, m ≤ i → i < n → below i = false

theorem loop_le (below : Nat → Bool) : ∀ fuel l r, loop below fuel l r ≤ r := by
  intro fuel
  induction fuel with
  | zero =>
    intro l r
    exact le_refl r
  | succ fuel ih =>
    intro l r
    rw [loop]
    split
    · split
      · exact ih _ _
      · exact (ih _ _).trans (by omega)
    · exact le_refl r

theorem loop_eq {below : Nat → Bool} {n m : Nat} (hb : Boundary below n m) :
    ∀ fuel l r, r - l ≤ fuel → l ≤ r → r < n → l ≤ m → loop below fuel l r = min m r := by
  intro fuel
  induction fuel with
  | zero =>
    intro l r hfuel hlr _ hlm
    simp only [loop]
    omega
  | succ fuel ih =>
    intro l r hfuel hlr hrn hlm
    simp only [loop]
    split
    · split
      · rename_i hlt hbelow
        -- The middle lies below the boundary: go on to its right.
        have hmid : (l + r) / 2 < m := by
          by_contra hc
          rw [hb.ge ((l + r) / 2) (by omega) (by omega)] at hbelow
          cases hbelow
        exact ih _ _ (by omega) (by omega) hrn (by omega)
      · rename_i hlt hbelow
        have hmid : m ≤ (l + r) / 2 := by
          by_contra hc
          exact hbelow (hb.lt _ (by omega))
        rw [ih _ _ (by omega) (by omega) (by omega) hlm]
        omega
    · omega

theorem search_eq {below : Nat → Bool} {n m : Nat} (hb : Boundary below n m) :
    search below n = m := by
  have hle := hb.le
  unfold search
  split
  · omega
  · rename_i hn
    rw [loop_eq hb n 0 (n - 1) (by omega) (by omega) (by omega) (by omega)]
    dsimp only
    by_cases hm : m = n
    · rw [if_pos (hb.lt _ (by omega))]
      exact hm.symm
    · rw [show min m (n - 1) = m by omega, hb.ge m (by omega) (by omega)]
      rfl

/-- Search in a list for the first element that fails `p`. -/
def searchList {α : Type*} (p : α → Bool) (l : List α) : Nat :=
  search (fun i => (l[i]?).any p) l.length

/-- The search cuts the list where `p` stops to hold. -/
theorem searchList_append {α : Type*} {p : α → Bool} {A B : List α}
    (hA : ∀ a ∈ A, p a = true) (hB : ∀ b ∈ B, p b = false) :
    searchList p (A ++ B) = A.length := by
  apply search_eq
  refine ⟨by simp, ?_, ?_⟩
  · intro i hi
    simp [List.getElem?_append_left hi, hi, hA]
  · intro i hi hn
    rw [List.length_append] at hn
    simp [List.getElem?_append_right hi, show i - A.length < B.length by omega, hB]

-- ---------------------------------------------------------------------------
-- Looking at indices that may fail
-- ---------------------------------------------------------------------------

/-- The loop with `mid = (l + r) >> 1`. -/
def loopM {ε : Type*} (below : Int → Except ε Bool) : Nat → Int → Int → Except ε Int
  | 0, _, r => .ok r
  | fuel + 1, l, r =>
    if l < r then do
      if ← below ((l + r) >>> (1 : Nat)) then loopM below fuel ((l + r) >>> (1 : Nat) + 1) r
      else loopM below fuel l ((l + r) >>> (1 : Nat))
    else .ok r

section LoopM

variable {ε : Type*} {below : Int → Except ε Bool} {n i₀ : Nat}

theorem shiftRight_one (l r : Nat) : ((l : Int) + r) >>> (1 : Nat) = ((l + r) / 2 : Nat) := by
  rw [Int.shiftRight_eq_div_pow]
  omega

theorem loopM_of_le {l r : Int} (h : r ≤ l) (fuel : Nat) : loopM below fuel l r = .ok r := by
  cases fuel with
  | zero => rfl
  | succ fuel => rw [loopM, if_neg (by omega)]

/-- Where nothing fails it is the loop. -/
theorem loopM_eq {p : Nat → Bool} (hbelow : ∀ i : Nat, i < n → below i = .ok (p i)) :
    ∀ (fuel l r : Nat), r < n → loopM below fuel l r = .ok (loop p fuel l r : Int) := by
  intro fuel
  induction fuel with
  | zero =>
    intro l r _
    rfl
  | succ fuel ih =>
    intro l r hr
    rw [loopM, loop, shiftRight_one]
    by_cases hlr : l < r
    · have hmid : (l + r) / 2 < n := by omega
      rw [if_pos (by omega), if_pos hlr, hbelow _ hmid]
      cases p ((l + r) / 2) with
      | true => exact ih ((l + r) / 2 + 1) r hr
      | false => exact ih l ((l + r) / 2) hmid
    · rw [if_neg (by omega), if_neg hlr]

/-- The loop stays between its ends, and fails only as looking at an index between them does. -/
theorem loopM_range {P : ε → Prop} {m : Int}
    (hbelow : ∀ i, 0 ≤ i → i < m → ∀ e, below i = .error e → P e) :
    ∀ (fuel : Nat) (l r : Int), 0 ≤ l → l ≤ r → r < m →
      (∀ e, loopM below fuel l r = .error e → P e) ∧
        ∀ i, loopM below fuel l r = .ok i → l ≤ i ∧ i ≤ r := by
  intro fuel
  induction fuel with
  | zero =>
    intro l r _ hlr _
    refine ⟨nofun, fun i hi => ?_⟩
    cases hi
    exact ⟨hlr, le_refl _⟩
  | succ fuel ih =>
    intro l r hl hlr hr
    by_cases hlt : l < r
    · rw [loopM, if_pos hlt, Int.shiftRight_eq_div_pow]
      have hmid : l ≤ (l + r) / (2 ^ 1 : Nat) ∧ (l + r) / (2 ^ 1 : Nat) < r := by omega
      generalize (l + r) / (2 ^ 1 : Nat) = mid at *
      cases htest : below mid with
      | error e =>
        refine ⟨fun e' he => ?_, fun i hi => by cases hi⟩
        cases he
        exact hbelow mid (by omega) (by omega) e htest
      | ok b => cases b with
        | true =>
          obtain ⟨herror, hok⟩ := ih (mid + 1) r (by omega) (by omega) hr
          refine ⟨herror, fun i hi => ?_⟩
          have := hok i hi
          omega
        | false =>
          obtain ⟨herror, hok⟩ := ih l mid hl hmid.1 (by omega)
          refine ⟨herror, fun i hi => ?_⟩
          have := hok i hi
          omega
    · rw [loopM_of_le (by omega)]
      refine ⟨nofun, fun i hi => ?_⟩
      cases hi
      exact ⟨hlr, le_refl _⟩

/-- An index that cannot be looked at, with the boundary nowhere else, is found. -/
theorem loopM_error (h₀ : ∃ e, below i₀ = .error e)
    (hleft : ∀ i < i₀, (∃ e, below i = .error e) ∨ below i = .ok true)
    (hright : ∀ i, i₀ < i → i < n → (∃ e, below i = .error e) ∨ below i = .ok false) :
    ∀ fuel l r : Nat, r - l ≤ fuel → l ≤ i₀ → i₀ ≤ r → r < n →
      ∃ e, (loopM below fuel l r >>= below) = .error e := by
  intro fuel
  induction fuel with
  | zero =>
    intro l r hfuel hl hr _
    obtain rfl : r = i₀ := by omega
    exact h₀
  | succ fuel ih =>
    intro l r hfuel hl hr hn
    rw [loopM, shiftRight_one]
    by_cases hlr : l < r
    · rw [if_pos (by omega)]
      have hmid : (l + r) / 2 < n := by omega
      rcases lt_trichotomy ((l + r) / 2) i₀ with hlt | heq | hgt
      · rcases hleft _ hlt with ⟨e, he⟩ | htrue
        · exact ⟨e, by rw [he]; rfl⟩
        · rw [htrue]
          exact ih ((l + r) / 2 + 1) r (by omega) (by omega) hr hn
      · obtain ⟨e, he⟩ := h₀
        exact ⟨e, by rw [heq, he]; rfl⟩
      · rcases hright _ hgt hmid with ⟨e, he⟩ | hfalse
        · exact ⟨e, by rw [he]; rfl⟩
        · rw [hfalse]
          exact ih l ((l + r) / 2) (by omega) hl (by omega) hmid
    · obtain rfl : r = i₀ := by omega
      rw [if_neg (by omega)]
      exact h₀

end LoopM

end BinarySearch
