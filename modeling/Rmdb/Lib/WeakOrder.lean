-- SUMMARY: Strict weak orders given by a test, the order they sort by, and their lexicographic composition.
import Mathlib.Order.RelClasses

/-!
# Strict weak orders

A comparator of a sort is a test `lt` that is a strict weak order. What comes out of the sort is
ordered by its negation, which is transitive and total.
-/

section

variable {α : Type*} {lt lt' : α → α → Prop}

/-- What is not smaller is not smaller than what is smaller still. -/
theorem IsStrictWeakOrder.not_trans [IsStrictWeakOrder α lt] {a b c : α} (hab : ¬ lt a b) (hbc : ¬ lt b c) :
    ¬ lt a c := by
  intro hac
  have hba : ¬ lt b a := fun hba => hbc (IsTrans.trans _ _ _ hba hac)
  have hcb : ¬ lt c b := fun hcb => hab (IsTrans.trans _ _ _ hac hcb)
  exact (IsStrictWeakOrder.incomp_trans a b c ⟨hab, hba⟩ ⟨hbc, hcb⟩).1 hac

/-- It is enough that what is not smaller stays so. -/
theorem isStrictWeakOrder_of_not_trans (hasymm : ∀ a b, lt a b → ¬ lt b a)
    (hnot : ∀ a b c, ¬ lt a b → ¬ lt b c → ¬ lt a c) : IsStrictWeakOrder α lt where
  irrefl a h := hasymm a a h h
  trans a b c hab hbc := by
    by_contra hac
    exact hnot a c b hac (hasymm b c hbc) hab
  incomp_trans a b c hab hbc := ⟨hnot a b c hab.1 hbc.1, hnot c b a hbc.2 hab.2⟩

/-- Two strict weak orders one after the other: the second one decides what the first leaves open. -/
theorem IsStrictWeakOrder.lex [h : IsStrictWeakOrder α lt] [h' : IsStrictWeakOrder α lt'] :
    IsStrictWeakOrder α fun a b => lt a b ∨ ¬ lt b a ∧ lt' a b := by
  have hasymm : ∀ a b, lt a b → ¬ lt b a := fun a b hab hba => h.irrefl a (h.trans a b a hab hba)
  have hasymm' : ∀ a b, lt' a b → ¬ lt' b a := fun a b hab hba => h'.irrefl a (h'.trans a b a hab hba)
  refine isStrictWeakOrder_of_not_trans ?_ ?_
  · rintro a b (hab | ⟨hnot, hab⟩) (hba | ⟨hnot', hba⟩)
    · exact hasymm a b hab hba
    · exact hnot' hab
    · exact hnot hba
    · exact hasymm' a b hab hba
  · rintro a b c hab hbc (hac | ⟨hca, hac⟩)
    · exact h.not_trans (fun h => hab (.inl h)) (fun h => hbc (.inl h)) hac
    · have hba : ¬ lt b a := h.not_trans (fun h => hbc (.inl h)) hca
      have hcb : ¬ lt c b := h.not_trans hca fun h => hab (.inl h)
      exact h'.not_trans (fun h => hab (.inr ⟨hba, h⟩)) (fun h => hbc (.inr ⟨hcb, h⟩)) hac

variable {test : α → α → Bool}

/-- The order that a list is in when no tuple is smaller than one in front of it. -/
theorem IsStrictWeakOrder.le_trans [h : IsStrictWeakOrder α fun a b => test a b = true] {a b c : α}
    (hab : (!test b a) = true) (hbc : (!test c b) = true) : (!test c a) = true := by
  rw [Bool.not_eq_true', ← Bool.not_eq_true] at hab hbc ⊢
  exact h.not_trans hbc hab

theorem IsStrictWeakOrder.le_total [h : IsStrictWeakOrder α fun a b => test a b = true] (a b : α) :
    (!test b a || !test a b) = true := by
  rw [← Bool.not_and, Bool.not_eq_true', ← Bool.not_eq_true, Bool.and_eq_true]
  exact fun ⟨hba, hab⟩ => h.irrefl a (h.trans a b a hab hba)

end
