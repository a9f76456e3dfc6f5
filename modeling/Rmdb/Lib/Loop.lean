-- SUMMARY: Loops that end and loops that do not.
import Mathlib.Logic.Relation

/-!
# Loops

A loop is a function that gives the state after one more turn, or nothing when the loop is left.
-/

namespace Loop

variable {σ : Type*} {turn : σ → Option σ} {s t : σ}

/-- After finitely many turns the loop is left. -/
inductive Ends (turn : σ → Option σ) : σ → Prop where
  | intro {s : σ} : (∀ t, turn s = some t → Ends turn t) → Ends turn s

/-- The states that the loop comes to. -/
abbrev Reaches (turn : σ → Option σ) : σ → σ → Prop :=
  Relation.ReflTransGen fun s t => turn s = some t

/-- A loop ends if every turn keeps `I` and makes `μ` smaller. -/
theorem Ends.of_measure (I : σ → Prop) (μ : σ → Nat)
    (hturn : ∀ s t, I s → turn s = some t → I t ∧ μ t < μ s) (hs : I s) : Ends turn s := by
  induction hn : μ s using Nat.strongRecOn generalizing s with
  | ind n ih =>
    refine .intro fun t ht => ?_
    obtain ⟨hI, hlt⟩ := hturn s t hs ht
    exact ih (μ t) (hn ▸ hlt) hI rfl

theorem Ends.of_reaches (h : Ends turn s) (hreach : Reaches turn s t) : Ends turn t := by
  induction hreach with
  | refl => exact h
  | tail _ hstep ih =>
    cases ih with
    | intro hall => exact hall _ hstep

/-- A loop never ends if every state with `P` is left for a state with `P`. -/
theorem not_ends (P : σ → Prop) (hturn : ∀ s, P s → ∃ t, turn s = some t ∧ P t) (hs : P s) :
    ¬ Ends turn s := by
  intro h
  induction h with
  | intro _ ih =>
    obtain ⟨t, ht, hP⟩ := hturn _ hs
    exact ih t ht hP

end Loop
