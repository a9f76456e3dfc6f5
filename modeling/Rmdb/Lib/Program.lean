-- SUMMARY: Programs over operations that somebody else carries out, and the rules of their weakest preconditions.
import Mathlib.Logic.Basic

/-!
# Programs over operations

A program ends, throws, or asks for an operation and goes on with the answer, which may be an
exception of the operation. Who carries the operations out, and what happens in between, is
not said here.

`Prog.wp` follows what a program knows about its surroundings: `pre` says what it has to know
before it may ask for an operation, and `learn` what it knows after the answer. Nothing is
asked of a program that throws.
-/

variable {Op : Type} {Val : Op → Type} {ε α β σ : Type}

inductive Prog (Op : Type) (Val : Op → Type) (ε α : Type) where
  | pure (a : α)
  | throw (e : ε)
  | call (o : Op) (k : Except ε (Val o) → Prog Op Val ε α)

namespace Prog

def bind : Prog Op Val ε α → (α → Prog Op Val ε β) → Prog Op Val ε β
  | pure a, f => f a
  | throw e, _ => throw e
  | call o k, f => call o fun r => (k r).bind f

instance : Monad (Prog Op Val ε) where
  pure := Prog.pure
  bind := Prog.bind

/-- An exception that nobody catches. -/
def ofExcept : Except ε α → Prog Op Val ε α
  | .ok a => .pure a
  | .error e => .throw e

/-- An operation whose exceptions are not caught. -/
def op (o : Op) : Prog Op Val ε (Val o) := call o ofExcept

/-- A loop over a list. -/
def each {ι : Type} (body : ι → Prog Op Val ε Unit) : List ι → Prog Op Val ε Unit
  | [] => .pure ()
  | i :: l => (body i).bind fun _ => each body l

-- ---------------------------------------------------------------------------
-- Weakest preconditions
-- ---------------------------------------------------------------------------

variable (pre : σ → Op → Prop) (learn : σ → (o : Op) → Except ε (Val o) → σ)

/-- The program asks for nothing that it may not, and `Q` holds where it ends. -/
def wp : Prog Op Val ε α → σ → (α → σ → Prop) → Prop
  | pure a, s, Q => Q a s
  | throw _, _, _ => True
  | call o k, s, Q => pre s o ∧ ∀ r, (k r).wp (learn s o r) Q

variable {pre learn} {s : σ}

theorem wp_mono {p : Prog Op Val ε α} {Q R : α → σ → Prop} (h : p.wp pre learn s Q)
    (hQ : ∀ a s, Q a s → R a s) : p.wp pre learn s R := by
  induction p generalizing s with
  | pure a => exact hQ a s h
  | throw e => exact h
  | call o k ih => exact ⟨h.1, fun r => ih r (h.2 r)⟩

theorem wp_bind {p : Prog Op Val ε α} {f : α → Prog Op Val ε β} {Q : β → σ → Prop}
    (h : p.wp pre learn s fun a s => (f a).wp pre learn s Q) : (p.bind f).wp pre learn s Q := by
  induction p generalizing s with
  | pure a => exact h
  | throw e => exact h
  | call o k ih => exact ⟨h.1, fun r => ih r (h.2 r)⟩

theorem wp_ofExcept {x : Except ε α} {Q : α → σ → Prop} (h : ∀ a, x = .ok a → Q a s) :
    (ofExcept x : Prog Op Val ε α).wp pre learn s Q := by
  cases x with
  | ok a => exact h a rfl
  | error e => trivial

theorem wp_op {o : Op} {Q : Val o → σ → Prop} (hpre : pre s o)
    (h : ∀ v, Q v (learn s o (.ok v))) : (op o : Prog Op Val ε (Val o)).wp pre learn s Q := by
  refine ⟨hpre, fun r => ?_⟩
  cases r with
  | ok v => exact h v
  | error e => trivial

/-- What every turn of the loop keeps. -/
theorem wp_each {ι : Type} {body : ι → Prog Op Val ε Unit} {l : List ι} {I : σ → Prop} (h : I s)
    (hbody : ∀ i ∈ l, ∀ s, I s → (body i).wp pre learn s fun _ => I) :
    (each body l).wp pre learn s fun _ => I := by
  induction l generalizing s with
  | nil => exact h
  | cons i l ih =>
    refine wp_bind (wp_mono (hbody i List.mem_cons_self s h) fun _ s' hs' => ?_)
    exact ih hs' fun j hj => hbody j (List.mem_cons_of_mem i hj)

end Prog
