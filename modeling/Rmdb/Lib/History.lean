-- SUMMARY: Histories of stores to shared objects, and which values a later read may return.
import Mathlib.Data.Set.Insert

/-!
# Histories

Threads take handles of objects, store values through them, and give them back, saying whether
the object was changed. A history has its newest event first. `fresh` is the set of values that a
read may return when no saved store is lost: the last saved value, or one stored since.
-/

namespace History

variable {τ κ α : Type}

inductive Event (τ κ α : Type) where
  /-- A read of the object, which gives a handle, or fails. -/
  | fetched (t : τ) (k : κ) (r : Option α)
  /-- The object is new, and the thread has a handle of it. -/
  | created (t : τ) (k : κ)
  | stored (t : τ) (k : κ) (a : α)
  /-- A handle is given back; `saved` says that the object was changed. -/
  | released (t : τ) (k : κ) (saved : Bool)
  deriving DecidableEq, Repr

variable [DecidableEq τ] [DecidableEq κ]

/-- How many handles of `k` thread `t` has. -/
def handles (t : τ) (k : κ) : List (Event τ κ α) → Nat
  | [] => 0
  | .fetched u q (some _) :: past => handles t k past + if u = t ∧ q = k then 1 else 0
  | .created u q :: past => handles t k past + if u = t ∧ q = k then 1 else 0
  | .released u q _ :: past => handles t k past - if u = t ∧ q = k then 1 else 0
  | _ :: past => handles t k past

/-- What the object may hold from the point of view of thread `t`, which has a handle: what `t`
stored last, or what was stored since. -/
def kept (t : τ) (k : κ) : List (Event τ κ α) → Set (Option α)
  | [] => Set.univ
  | .stored u q a :: past =>
    if q = k then (if u = t then {some a} else insert (some a) (kept t k past)) else kept t k past
  | .released u q _ :: past =>
    if u = t ∧ q = k ∧ handles t k past ≤ 1 then Set.univ else kept t k past
  | _ :: past => kept t k past

/-- What a read of the object may return. -/
def fresh (k : κ) : List (Event τ κ α) → Set (Option α)
  | [] => Set.univ
  | .stored _ q a :: past => if q = k then insert (some a) (fresh k past) else fresh k past
  | .released u q saved :: past =>
    if q = k ∧ saved then fresh k past ∩ kept u k past else fresh k past
  | _ :: past => fresh k past

variable {t : τ} {k : κ}

theorem kept_of_none {past : List (Event τ κ α)} (h : none ∈ kept t k past) :
    kept t k past = Set.univ := by
  induction past with
  | nil => rfl
  | cons e past ih =>
    cases e with
    | fetched u q r => exact ih h
    | created u q => exact ih h
    | stored u q a =>
      simp only [kept] at h ⊢
      split_ifs at h ⊢ with hq hu
      · cases h
      · rw [ih (by simpa using h), Set.insert_eq_of_mem (Set.mem_univ _)]
      · exact ih h
    | released u q saved =>
      simp only [kept] at h ⊢
      split_ifs at h ⊢ with hq
      · rfl
      · exact ih h

/-- A read may fail only as long as nothing is known about the object. -/
theorem fresh_of_none {past : List (Event τ κ α)} (h : none ∈ fresh k past) :
    fresh k past = Set.univ := by
  induction past with
  | nil => rfl
  | cons e past ih =>
    cases e with
    | fetched u q r => exact ih h
    | created u q => exact ih h
    | stored u q a =>
      simp only [fresh] at h ⊢
      split_ifs at h ⊢ with hq
      · rw [ih (by simpa using h), Set.insert_eq_of_mem (Set.mem_univ _)]
      · exact ih h
    | released u q saved =>
      simp only [fresh] at h ⊢
      split_ifs at h ⊢ with hq
      · rw [ih h.1, kept_of_none h.2, Set.univ_inter]
      · exact ih h

/-- While the thread keeps a handle, what it stored is only replaced by newer stores. -/
theorem kept_since (a : α) (past mid : List (Event τ κ α))
    (hkeep : ∀ late early, mid = late ++ early → 0 < handles t k (early ++ .stored t k a :: past))
    {r : Option α} (h : r ∈ kept t k (mid ++ .stored t k a :: past)) :
    ∃ b, r = some b ∧ (b = a ∨ ∃ u, Event.stored u k b ∈ mid) := by
  induction mid with
  | nil => exact ⟨a, by simpa [kept] using h, .inl rfl⟩
  | cons e mid ih =>
    have hkeep' : ∀ late early, mid = late ++ early →
        0 < handles t k (early ++ .stored t k a :: past) :=
      fun late early hmid => hkeep (e :: late) early (by rw [hmid, List.cons_append])
    have hlater : r ∈ kept t k (mid ++ .stored t k a :: past) →
        ∃ b, r = some b ∧ (b = a ∨ ∃ u, Event.stored u k b ∈ e :: mid) := by
      intro hr
      obtain ⟨b, hb, hstored⟩ := ih hkeep' hr
      exact ⟨b, hb, hstored.imp_right fun ⟨u, hu⟩ => ⟨u, List.mem_cons_of_mem e hu⟩⟩
    cases e with
    | fetched u q r' => exact hlater h
    | created u q => exact hlater h
    | stored u q b =>
      simp only [List.cons_append, kept] at h
      split_ifs at h with hq hu
      · exact ⟨b, h, .inr ⟨u, by simp [hq]⟩⟩
      · rcases h with rfl | h
        · exact ⟨b, rfl, .inr ⟨u, by simp [hq]⟩⟩
        · exact hlater h
      · exact hlater h
    | released u q saved =>
      simp only [List.cons_append, kept] at h
      split_ifs at h with hq
      · -- The thread would have given its last handle back.
        have hpos := hkeep [] (.released u q saved :: mid) rfl
        obtain ⟨rfl, rfl, hone⟩ := hq
        simp only [List.cons_append, handles, and_self, if_true] at hpos
        omega
      · exact hlater h

/-- What a thread stored and gave back as changed is only replaced by newer stores. -/
theorem fresh_since (a : α) (past mid late : List (Event τ κ α))
    (hkeep : ∀ l early, mid = l ++ early → 0 < handles t k (early ++ .stored t k a :: past))
    {r : Option α}
    (h : r ∈ fresh k (late ++ .released t k true :: (mid ++ .stored t k a :: past))) :
    ∃ b, r = some b ∧ (b = a ∨ ∃ u, Event.stored u k b ∈ late ++ mid) := by
  induction late with
  | nil =>
    simp only [List.nil_append, fresh, and_self, if_true] at h
    exact kept_since a past mid hkeep h.2
  | cons e late ih =>
    have hlater : r ∈ fresh k (late ++ .released t k true :: (mid ++ .stored t k a :: past)) →
        ∃ b, r = some b ∧ (b = a ∨ ∃ u, Event.stored u k b ∈ e :: late ++ mid) := by
      intro hr
      obtain ⟨b, hb, hstored⟩ := ih hr
      exact ⟨b, hb, hstored.imp_right fun ⟨u, hu⟩ => ⟨u, List.mem_cons_of_mem e hu⟩⟩
    cases e with
    | fetched u q r' => exact hlater h
    | created u q => exact hlater h
    | stored u q b =>
      simp only [List.cons_append, fresh] at h
      split_ifs at h with hq
      · rcases h with rfl | h
        · exact ⟨b, rfl, .inr ⟨u, by simp [hq]⟩⟩
        · exact hlater h
      · exact hlater h
    | released u q saved =>
      simp only [List.cons_append, fresh] at h
      split_ifs at h with hq
      · exact hlater h.1
      · exact hlater h

/-- Every read returned what it may. -/
def Honest : List (Event τ κ α) → Prop
  | [] => True
  | .fetched _ k r :: past => r ∈ fresh k past ∧ Honest past
  | _ :: past => Honest past

theorem Honest.fetched {late early : List (Event τ κ α)} {r : Option α}
    (h : Honest (late ++ .fetched t k r :: early)) : r ∈ fresh k early := by
  induction late with
  | nil => exact h.1
  | cons e late ih =>
    cases e with
    | fetched u q r' => exact ih h.2
    | created u q => exact ih h
    | stored u q a => exact ih h
    | released u q saved => exact ih h

end History
