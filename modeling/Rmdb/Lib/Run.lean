-- SUMMARY: Running programs that read and write a state and may throw.
import Mathlib.Tactic.Common

/-!
# Running a program

`EStateM` keeps the state of the moment in which an exception is thrown. These lemmas let `simp`
run a program on a state, and `wp` runs it on all states of which something is known.
-/

namespace Run

variable {ε σ α β : Type} {s : σ}

@[simp] theorem bind_run (x : EStateM ε σ α) (f : α → EStateM ε σ β) (s : σ) :
    (x >>= f) s = match x s with
      | .ok a s' => f a s'
      | .error e s' => .error e s' := by
  show EStateM.bind x f s = _
  cases h : x s <;> simp [EStateM.bind, h]

@[simp] theorem pure_run (a : α) : (pure a : EStateM ε σ α) s = .ok a s := rfl

@[simp] theorem get_run : (get : EStateM ε σ σ) s = .ok s s := rfl

@[simp] theorem modify_run (f : σ → σ) : (modify f : EStateM ε σ Unit) s = .ok () (f s) := rfl

@[simp] theorem throw_run (e : ε) : (throw e : EStateM ε σ α) s = .error e s := rfl

@[simp] theorem ite_run (c : Prop) [Decidable c] (x y : EStateM ε σ α) :
    (if c then x else y) s = if c then x s else y s := by
  split <;> rfl

-- ---------------------------------------------------------------------------
-- Weakest preconditions
-- ---------------------------------------------------------------------------

variable {E : ε → σ → Prop} {P Q : α → σ → Prop} {R : β → σ → Prop} {m : EStateM ε σ α}
  {f : α → EStateM ε σ β}

/-- The program ends in `Q`, or with an exception in `E`. -/
def wp (m : EStateM ε σ α) (E : ε → σ → Prop) (Q : α → σ → Prop) (s : σ) : Prop :=
  match m s with
  | .ok a s' => Q a s'
  | .error e s' => E e s'

theorem wp.pure {a : α} (h : Q a s) : wp (Pure.pure a) E Q s := h

theorem wp.ok {a : α} {s' : σ} (hm : m s = .ok a s') (h : Q a s') : wp m E Q s := by
  rw [wp, hm]
  exact h

theorem wp.error {e : ε} {s' : σ} (hm : m s = .error e s') (h : E e s') : wp m E Q s := by
  rw [wp, hm]
  exact h

theorem wp.mono (h : wp m E P s) (hPQ : ∀ a s', P a s' → Q a s') : wp m E Q s := by
  unfold wp at h ⊢
  cases hm : m s with
  | ok a s' =>
    rw [hm] at h
    exact hPQ a s' h
  | error e s' =>
    rw [hm] at h
    exact h

theorem wp.bind (h : wp m E P s) (hf : ∀ a s', P a s' → wp (f a) E R s') : wp (m >>= f) E R s := by
  unfold wp at h ⊢
  rw [bind_run]
  cases hm : m s with
  | ok a s' =>
    rw [hm] at h
    exact hf a s' h
  | error e s' =>
    rw [hm] at h
    exact h

/-- The first step is known. -/
theorem wp.bind_ok {a : α} {s' : σ} (hm : m s = .ok a s') (h : wp (f a) E R s') : wp (m >>= f) E R s :=
  wp.bind (wp.ok hm (Q := fun b t => b = a ∧ t = s') ⟨rfl, rfl⟩) fun b t hbt => hbt.1 ▸ hbt.2 ▸ h

theorem wp.get {g : σ → EStateM ε σ β} (h : wp (g s) E R s) : wp (MonadState.get >>= g) E R s := h

theorem wp.change {g : σ → σ} {k : Unit → EStateM ε σ β} (h : wp (k ()) E R (g s)) :
    wp (modify g >>= k) E R s := h

end Run
