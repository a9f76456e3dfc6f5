-- SUMMARY: Weaving a list of blocks with the separators between them.
import Mathlib.Algebra.GroupWithZero.Nat
import Mathlib.Data.List.Basic

/-!
# Weaves

`weave [x₀, x₁, …, xₙ] [s₁, …, sₙ]` is `x₀ ++ s₁ :: x₁ ++ … ++ sₙ :: xₙ`: blocks
with one separator between each two of them. The leaves of a search tree are such
blocks, and the keys above them the separators.
-/

namespace Weave

variable {α β : Type*}

/-- Each separator followed by its block. -/
def tail : List α → List (List α) → List α
  | s :: S, x :: xs => s :: (x ++ tail S xs)
  | _, _ => []

/-- Each block followed by its separator. -/
def front : List (List α) → List α → List α
  | x :: xs, s :: S => x ++ s :: front xs S
  | _, _ => []

/-- The blocks with the separators between them. -/
def weave : List (List α) → List α → List α
  | [], _ => []
  | x :: xs, S => x ++ tail S xs

@[simp] theorem tail_nil_left (xs : List (List α)) : tail [] xs = [] := by
  cases xs <;> rfl

@[simp] theorem tail_nil_right (S : List α) : tail S [] = [] := by
  cases S <;> rfl

@[simp] theorem tail_cons (s : α) (S : List α) (x : List α) (xs : List (List α)) :
    tail (s :: S) (x :: xs) = s :: (x ++ tail S xs) := rfl

@[simp] theorem front_nil_left (S : List α) : front [] S = [] := by
  cases S <;> rfl

@[simp] theorem front_nil_right (xs : List (List α)) : front xs [] = [] := by
  cases xs <;> rfl

@[simp] theorem front_cons (x : List α) (xs : List (List α)) (s : α) (S : List α) :
    front (x :: xs) (s :: S) = x ++ s :: front xs S := rfl

@[simp] theorem weave_cons (x : List α) (xs : List (List α)) (S : List α) :
    weave (x :: xs) S = x ++ tail S xs := rfl

-- ---------------------------------------------------------------------------
-- Cutting a weave at a block
-- ---------------------------------------------------------------------------

/-- A weave seen from one of its blocks. -/
theorem weave_cut {A B : List (List α)} {x : List α} {SA SB : List α} (h : SA.length = A.length) :
    weave (A ++ x :: B) (SA ++ SB) = front A SA ++ (x ++ tail SB B) := by
  induction A generalizing SA with
  | nil =>
    cases List.length_eq_zero_iff.mp h
    simp
  | cons a A ih =>
    cases SA with
    | nil => cases h
    | cons s SA =>
      have ih' := ih (Nat.succ.inj h)
      cases A with
      | nil =>
        cases List.length_eq_zero_iff.mp (Nat.succ.inj h)
        simp
      | cons b A =>
        simp only [List.cons_append, weave_cons, front_cons, tail_cons, List.append_assoc] at ih' ⊢
        rw [ih']

theorem front_append {A B : List (List α)} {SA SB : List α} (h : SA.length = A.length) :
    front (A ++ B) (SA ++ SB) = front A SA ++ front B SB := by
  induction A generalizing SA with
  | nil =>
    cases List.length_eq_zero_iff.mp h
    simp
  | cons a A ih =>
    cases SA with
    | nil => cases h
    | cons s SA => simp [ih (Nat.succ.inj h)]

theorem front_length {A : List (List α)} {SA : List α} (h : SA.length = A.length) :
    (front A SA).length = (A.map (fun x => x.length + 1)).sum := by
  induction A generalizing SA with
  | nil => simp
  | cons a A ih =>
    cases SA with
    | nil => cases h
    | cons s SA =>
      simp only [front_cons, List.length_append, List.length_cons, List.map_cons, List.sum_cons,
        ih (Nat.succ.inj h)]
      omega

theorem tail_length {SB : List α} {B : List (List α)} (h : SB.length = B.length) :
    (tail SB B).length = (B.map (fun x => x.length + 1)).sum := by
  induction B generalizing SB with
  | nil => simp
  | cons b B ih =>
    cases SB with
    | nil => cases h
    | cons s SB =>
      simp only [tail_cons, List.length_append, List.length_cons, List.map_cons, List.sum_cons,
        ih (Nat.succ.inj h)]
      omega

theorem weave_length {xs : List (List α)} {S : List α} (h : S.length + 1 = xs.length) :
    (weave xs S).length + 1 = (xs.map (fun x => x.length + 1)).sum := by
  cases xs with
  | nil => cases h
  | cons x xs =>
    simp only [weave_cons, List.length_append, List.map_cons, List.sum_cons,
      tail_length (Nat.succ.inj h)]
    omega

theorem map_tail (f : α → β) (S : List α) (xs : List (List α)) :
    (tail S xs).map f = tail (S.map f) (xs.map (List.map f)) := by
  induction S generalizing xs with
  | nil => simp
  | cons s S ih =>
    cases xs with
    | nil => simp
    | cons x xs => simp [ih]

theorem tail_sublist (S : List α) (xs : List (List α)) (h : S.length = xs.length) :
    List.Sublist S (tail S xs) := by
  induction S generalizing xs with
  | nil => simp
  | cons s S ih =>
    cases xs with
    | nil => cases h
    | cons x xs =>
      rw [tail_cons]
      exact ((ih xs (Nat.succ.inj h)).trans (List.sublist_append_right x _)).cons_cons s

theorem front_sublist (xs : List (List α)) (S : List α) (h : S.length = xs.length) :
    List.Sublist S (front xs S) := by
  induction S generalizing xs with
  | nil => simp
  | cons s S ih =>
    cases xs with
    | nil => cases h
    | cons x xs =>
      rw [front_cons]
      exact ((ih xs (Nat.succ.inj h)).cons_cons s).trans (List.sublist_append_right x _)

/-- The separators occur in the weave in their order. -/
theorem seps_sublist {xs : List (List α)} {S : List α} (h : S.length + 1 = xs.length) :
    List.Sublist S (weave xs S) := by
  cases xs with
  | nil => cases h
  | cons x xs =>
    exact (tail_sublist S xs (Nat.succ.inj h)).trans (List.sublist_append_right x _)

theorem tail_flatten_sublist (S : List α) (xs : List (List α)) (h : S.length = xs.length) :
    List.Sublist xs.flatten (tail S xs) := by
  induction xs generalizing S with
  | nil => simp
  | cons x xs ih =>
    cases S with
    | nil => cases h
    | cons s S =>
      rw [tail_cons, List.flatten_cons]
      exact ((List.Sublist.refl x).append (ih S (Nat.succ.inj h))).cons s

/-- The blocks occur in the weave in their order. -/
theorem flatten_sublist {xs : List (List α)} {S : List α} (h : S.length + 1 = xs.length) :
    List.Sublist xs.flatten (weave xs S) := by
  cases xs with
  | nil => cases h
  | cons x xs =>
    exact (List.Sublist.refl x).append (tail_flatten_sublist S xs (Nat.succ.inj h))

end Weave
