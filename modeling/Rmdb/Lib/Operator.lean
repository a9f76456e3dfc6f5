-- SUMMARY: Operators of a pull pipeline, calls that are watched, and computations that avoid an error.
import Mathlib.Logic.Basic

/-!
# Watched operators

An operator is opened, moved on and read, and says when it is at its end. It should only be moved on or read while it
is not there. A watched operator ends the whole computation with an error of its own at the first call that breaks
this rule, so a computation on watched operators keeps to it when it avoids that error.

`Avoids e x Q` is what is proved of such computations: `x` does not end with `e`, and what it gives satisfies `Q`.
-/

universe u v

variable {ε : Type v} {α β : Type u} {e : ε}

def Avoids (e : ε) (x : Except ε α) (Q : α → Prop) : Prop :=
  match x with
  | .ok a => Q a
  | .error e' => e' ≠ e

namespace Avoids

theorem iff_ne {x : Except ε α} : Avoids e x (fun _ => True) ↔ x ≠ .error e := by
  cases x <;> simp [Avoids]

theorem ne {x : Except ε α} {Q : α → Prop} (h : Avoids e x Q) : x ≠ .error e := by
  rintro rfl
  exact h rfl

theorem mono {x : Except ε α} {Q R : α → Prop} (h : Avoids e x Q) (hQ : ∀ a, Q a → R a) : Avoids e x R := by
  cases x with
  | ok a => exact hQ a h
  | error e' => exact h

theorem bind {x : Except ε α} {f : α → Except ε β} {Q : α → Prop} {R : β → Prop} (hx : Avoids e x Q)
    (hf : ∀ a, x = .ok a → Q a → Avoids e (f a) R) : Avoids e (x >>= f) R := by
  cases x with
  | ok a => exact hf a rfl hx
  | error e' => exact hx

theorem ok {x : Except ε α} {Q : α → Prop} {a : α} (h : Avoids e x Q) (hx : x = .ok a) : Q a := by
  subst hx
  exact h

end Avoids

/-- The operations of an operator with states `σ` over tuples of type `α`. Reading it may change it. -/
structure Operator (ε σ α : Type) where
  begin : σ → Except ε σ
  nextTuple : σ → Except ε σ
  isEnd : σ → Bool
  next : σ → Except ε (α × σ)

namespace Operator

variable {ε σ α : Type} (e : ε) (op : Operator ε σ α)

/-- The same operator with its calls watched. -/
def watched : Operator ε σ α where
  begin := op.begin
  nextTuple s := if op.isEnd s then .error e else op.nextTuple s
  isEnd := op.isEnd
  next s := if op.isEnd s then .error e else op.next s

/-- Moving on from a tuple, which is read first or may be any. -/
def Advances (reads : Bool) (s : σ) (a : α) (s' : σ) : Prop :=
  if reads then ∃ s₁, op.next s = .ok (a, s₁) ∧ op.nextTuple s₁ = .ok s' else op.nextTuple s = .ok s'

/-- From this state the operator gets to its end, with these tuples on the way. -/
inductive Drains (reads : Bool) : σ → List α → Prop
  | done {s : σ} : op.isEnd s = true → Drains reads s []
  | step {s s' : σ} {a : α} {as : List α} : op.isEnd s = false → op.Advances reads s a s' → Drains reads s' as →
      Drains reads s (a :: as)

/-- Takes up to `room` tuples. -/
def fill : Nat → σ → Except ε (List α × σ)
  | 0, s => .ok ([], s)
  | room + 1, s =>
    if op.isEnd s then .ok ([], s) else do
      let (a, s) ← op.next s
      let s ← op.nextTuple s
      let (as, s) ← fill room s
      return (a :: as, s)

/-- Used by the rule, the operator keeps to it, and reading it does not take it to its end. -/
structure Tame : Prop where
  begin : ∀ s, Avoids e (op.begin s) fun _ => True
  nextTuple : ∀ s, op.isEnd s = false → Avoids e (op.nextTuple s) fun _ => True
  next : ∀ s, op.isEnd s = false → Avoids e (op.next s) fun x => op.isEnd x.2 = false

variable {e op}

theorem Tame.watched (h : op.Tame e) : (op.watched e).Tame e := by
  constructor
  · exact h.begin
  · intro s (hs : op.isEnd s = false)
    show Avoids e (if op.isEnd s then _ else _) _
    rw [hs]
    exact h.nextTuple s hs
  · intro s (hs : op.isEnd s = false)
    show Avoids e (if op.isEnd s then _ else _) _
    rw [hs]
    exact h.next s hs

theorem nextTuple_at_end {s : σ} (h : op.isEnd s = true) : (op.watched e).nextTuple s = .error e := if_pos h

/-- While the rule is kept, watching changes nothing. -/
theorem Tame.advances_watched (h : op.Tame e) (reads : Bool) {s s' : σ} {a : α} (hs : op.isEnd s = false) :
    (op.watched e).Advances reads s a s' ↔ op.Advances reads s a s' := by
  have hnext : (op.watched e).next s = op.next s := if_neg (by simp [hs])
  have hmove : ∀ {s : σ}, op.isEnd s = false → (op.watched e).nextTuple s = op.nextTuple s :=
    fun hs => if_neg (by simp [hs])
  cases reads with
  | false => simp only [Advances, Bool.false_eq_true, if_false, hmove hs]
  | true =>
    simp only [Advances, if_true, hnext]
    refine exists_congr fun s₁ => and_congr_right fun hread => ?_
    rw [hmove ((h.next s hs).ok hread)]

theorem Tame.drains_watched (h : op.Tame e) {reads : Bool} {s : σ} {as : List α} :
    (op.watched e).Drains reads s as ↔ op.Drains reads s as := by
  constructor
  · intro hs
    induction hs with
    | done hend => exact .done hend
    | step hend hstep _ ih => exact .step hend ((h.advances_watched reads hend).mp hstep) ih
  · intro hs
    induction hs with
    | done hend => exact .done hend
    | step hend hstep _ ih => exact .step hend ((h.advances_watched reads hend).mpr hstep) ih

theorem Tame.fill (h : op.Tame e) (room : Nat) (s : σ) : Avoids e (op.fill room s) fun _ => True := by
  induction room generalizing s with
  | zero => trivial
  | succ room ih =>
    rw [Operator.fill]
    split
    · trivial
    · rename_i hend
      have hend : op.isEnd s = false := by simpa using hend
      refine (h.next s hend).bind fun ⟨a, s₁⟩ _ h₁ => ?_
      refine (h.nextTuple s₁ h₁).bind fun s₂ _ _ => ?_
      exact (ih s₂).bind fun _ _ _ => trivial

end Operator
