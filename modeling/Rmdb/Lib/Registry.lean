-- SUMMARY: Objects with names of their own, the names in use, and maps that are keyed by them.
import Mathlib.Logic.Function.Basic

/-!
# Registries

A registry is a set of objects that each have a name. `Registered` says that the names in use are
those of the objects and of some others, all different; `Keyed` that a map has an entry for the
name of each object. Both are kept when an object comes under a free name, and when one goes.
-/

variable {ι ν α : Type} {name : ι → ν} {objs objs' : ι → Prop} {others used : ν → Bool}
  {m : ν → Option α} {i : ι} {n : ν}

structure Registered (name : ι → ν) (objs : ι → Prop) (others used : ν → Bool) : Prop where
  used : ∀ n, used n = true ↔ others n = true ∨ ∃ i, objs i ∧ name i = n
  inj : ∀ i j, objs i → objs j → name i = name j → i = j
  apart : ∀ i, objs i → others (name i) = false

/-- The keys of the map are the names of the objects. -/
def Keyed (name : ι → ν) (objs : ι → Prop) (m : ν → Option α) : Prop :=
  ∀ n, (m n).isSome ↔ ∃ i, objs i ∧ name i = n

/-- A name that is free is the name of nothing. -/
theorem Registered.free (h : Registered name objs others used) (hn : used n = false) :
    others n = false ∧ ∀ i, objs i → name i ≠ n := by
  have hnot := (h.used n).not.mp (by simp [hn])
  rw [not_or] at hnot
  exact ⟨by simpa using hnot.1, fun i hi hname => hnot.2 ⟨i, hi, hname⟩⟩

theorem Registered.mem (h : Registered name objs others used) (hi : objs i) : used (name i) = true :=
  (h.used (name i)).mpr (.inr ⟨i, hi, rfl⟩)

variable [DecidableEq ν]

theorem Registered.insert (h : Registered name objs others used) (hfree : used (name i) = false)
    (hobjs : ∀ j, objs' j ↔ objs j ∨ j = i) :
    Registered name objs' others (Function.update used (name i) true) := by
  obtain ⟨hothers, hnames⟩ := h.free hfree
  refine ⟨fun n => ?_, fun j k hj hk hname => ?_, fun j hj => ?_⟩
  · by_cases hn : n = name i
    · subst hn
      rw [Function.update_self]
      exact iff_of_true rfl (.inr ⟨i, (hobjs i).mpr (.inr rfl), rfl⟩)
    · rw [Function.update_of_ne hn, h.used n]
      refine or_congr_right (exists_congr fun j => ?_)
      rw [hobjs j]
      constructor
      · exact fun ⟨hj, hname⟩ => ⟨.inl hj, hname⟩
      · rintro ⟨hj | rfl, hname⟩
        · exact ⟨hj, hname⟩
        · exact absurd hname.symm hn
  · rcases (hobjs j).mp hj with hj | rfl <;> rcases (hobjs k).mp hk with hk | rfl
    · exact h.inj j k hj hk hname
    · exact absurd hname (hnames j hj)
    · exact absurd hname.symm (hnames k hk)
    · rfl
  · rcases (hobjs j).mp hj with hj | rfl
    · exact h.apart j hj
    · exact hothers

theorem Registered.erase (h : Registered name objs others used) (hi : objs i)
    (hobjs : ∀ j, objs' j ↔ objs j ∧ j ≠ i) :
    Registered name objs' others (Function.update used (name i) false) := by
  refine ⟨fun n => ?_, fun j k hj hk hname => ?_, fun j hj => ?_⟩
  · by_cases hn : n = name i
    · subst hn
      rw [Function.update_self]
      refine iff_of_false (by simp) ?_
      rintro (hothers | ⟨j, hj, hname⟩)
      · rw [h.apart i hi] at hothers
        cases hothers
      · obtain ⟨hj, hne⟩ := (hobjs j).mp hj
        exact hne (h.inj j i hj hi hname)
    · rw [Function.update_of_ne hn, h.used n]
      refine or_congr_right (exists_congr fun j => ?_)
      rw [hobjs j]
      constructor
      · rintro ⟨hj, rfl⟩
        exact ⟨⟨hj, fun hji => hn (hji ▸ rfl)⟩, rfl⟩
      · exact fun ⟨⟨hj, _⟩, hname⟩ => ⟨hj, hname⟩
  · exact h.inj j k ((hobjs j).mp hj).1 ((hobjs k).mp hk).1 hname
  · exact h.apart j ((hobjs j).mp hj).1

theorem Keyed.insert (h : Keyed name objs m) (hobjs : ∀ j, objs' j ↔ objs j ∨ j = i) (a : α) :
    Keyed name objs' (Function.update m (name i) (some a)) := by
  intro n
  by_cases hn : n = name i
  · subst hn
    rw [Function.update_self]
    exact iff_of_true rfl ⟨i, (hobjs i).mpr (.inr rfl), rfl⟩
  · rw [Function.update_of_ne hn, h n]
    refine exists_congr fun j => ?_
    rw [hobjs j]
    constructor
    · exact fun ⟨hj, hname⟩ => ⟨.inl hj, hname⟩
    · rintro ⟨hj | rfl, hname⟩
      · exact ⟨hj, hname⟩
      · exact absurd hname.symm hn

theorem Keyed.erase (h : Keyed name objs m) (hinj : ∀ j, objs j → name j = name i → j = i)
    (hobjs : ∀ j, objs' j ↔ objs j ∧ j ≠ i) : Keyed name objs' (Function.update m (name i) none) := by
  intro n
  by_cases hn : n = name i
  · subst hn
    rw [Function.update_self]
    refine iff_of_false (by simp) ?_
    rintro ⟨j, hj, hname⟩
    obtain ⟨hj, hne⟩ := (hobjs j).mp hj
    exact hne (hinj j hj hname)
  · rw [Function.update_of_ne hn, h n]
    refine exists_congr fun j => ?_
    rw [hobjs j]
    constructor
    · rintro ⟨hj, rfl⟩
      exact ⟨⟨hj, fun hji => hn (hji ▸ rfl)⟩, rfl⟩
    · exact fun ⟨⟨hj, _⟩, hname⟩ => ⟨hj, hname⟩
