-- SUMMARY: Cutting a list at the place where a property stops to hold.
import Mathlib.Data.List.Basic

/-!
# Cuts

A property that holds up to some place of a list, and not from there on, cuts the list in two. The
length of the first part is the number of the place.
-/

namespace Cut

variable {α : Type*} {l X Y X' Y' : List α} {before before' : α → Bool}

/-- `before` holds in the first list and not in the second one. -/
structure At (before : α → Bool) (X Y : List α) : Prop where
  left : ∀ a ∈ X, before a = true
  right : ∀ b ∈ Y, before b = false

theorem exists_at (h : l.Pairwise fun a b => before b = true → before a = true) :
    ∃ X Y, l = X ++ Y ∧ At before X Y := by
  induction l with
  | nil => exact ⟨[], [], rfl, by simp, by simp⟩
  | cons a l ih =>
    rw [List.pairwise_cons] at h
    cases ha : before a with
    | true =>
      obtain ⟨X, Y, rfl, hcut⟩ := ih h.2
      exact ⟨a :: X, Y, rfl, by simpa [ha] using hcut.left, hcut.right⟩
    | false =>
      refine ⟨[], a :: l, rfl, by simp, fun b hb => ?_⟩
      rcases List.mem_cons.mp hb with rfl | hb
      · exact ha
      · exact Bool.eq_false_iff.mpr fun hbefore => by simp [h.1 b hb hbefore] at ha

/-- The place is where the first element is that fails the property. -/
theorem At.findIdx (h : At before X Y) : (X ++ Y).findIdx (fun a => !before a) = X.length := by
  induction X with
  | nil =>
    cases Y with
    | nil => rfl
    | cons b Y => simp [List.findIdx_cons, h.right b List.mem_cons_self]
  | cons a X ih =>
    have hX : At before X Y := ⟨fun b hb => h.left b (List.mem_cons_of_mem _ hb), h.right⟩
    simp [List.findIdx_cons, h.left a List.mem_cons_self, ih hX]

theorem At.unique (h : At before X Y) (h' : At before X' Y') (heq : X ++ Y = X' ++ Y') : X = X' ∧ Y = Y' := by
  refine List.append_inj heq ?_
  rw [← h.findIdx, heq, h'.findIdx]

theorem At.append (h : At before X Y) (hX : ∀ a ∈ X', before a = true) (hY : ∀ b ∈ Y', before b = false) :
    At before (X' ++ X) (Y ++ Y') :=
  ⟨fun a ha => (List.mem_append.mp ha).elim (hX a) (h.left a),
    fun b hb => (List.mem_append.mp hb).elim (h.right b) (hY b)⟩

/-- A cut of the middle of a list is the cut of the whole exactly when what is around it is on the right
side. -/
theorem At.findIdx_middle_iff (h : At before X Y) (hl : l = X' ++ (X ++ Y) ++ Y')
    (hmono : l.Pairwise fun a b => before b = true → before a = true) :
    l.findIdx (fun a => !before a) = X'.length + X.length ↔
      (∀ a ∈ X', before a = true) ∧ ∀ b ∈ Y', before b = false := by
  have hassoc : l = (X' ++ X) ++ (Y ++ Y') := by simp [hl]
  constructor
  · intro hidx
    obtain ⟨A, B, hAB, hcut⟩ := exists_at hmono
    rw [hAB, hcut.findIdx, ← List.length_append] at hidx
    obtain ⟨rfl, rfl⟩ := List.append_inj (hAB.symm.trans hassoc) hidx
    exact ⟨fun a ha => hcut.left a (List.mem_append_left _ ha),
      fun b hb => hcut.right b (List.mem_append_right _ hb)⟩
  · rintro ⟨hX, hY⟩
    rw [hassoc, (h.append hX hY).findIdx, List.length_append]

/-- What is between two cuts of a list. -/
theorem At.mem_between (h : At before X Y) (h' : At before' X' Y') (hl : l = X ++ Y) (hl' : l = X' ++ Y')
    (hle : X.length ≤ X'.length) (e : α) : e ∈ (l.take X'.length).drop X.length ↔
      e ∈ l ∧ before e = false ∧ before' e = true := by
  have htake : l.take X'.length = X' := by rw [hl', List.take_left]
  have hsplit : X' = X ++ X'.drop X.length := by
    have hfront : X'.take X.length = X := by
      rw [← htake, List.take_take, Nat.min_eq_left hle, hl, List.take_left]
    calc X' = X'.take X.length ++ X'.drop X.length := (List.take_append_drop _ _).symm
      _ = X ++ X'.drop X.length := by rw [hfront]
  have hY : Y = X'.drop X.length ++ Y' := by
    refine @List.append_cancel_left _ X _ _ ?_
    rw [← List.append_assoc, ← hsplit, ← hl', hl]
  rw [htake]
  constructor
  · intro he
    have hmem := List.mem_of_mem_drop he
    refine ⟨?_, h.right e ?_, h'.left e hmem⟩
    · rw [hl']
      exact List.mem_append_left _ hmem
    · rw [hY]
      exact List.mem_append_left _ he
  · rintro ⟨he, hnot, hbefore⟩
    have he' : e ∈ X' := by
      rw [hl'] at he
      refine (List.mem_append.mp he).resolve_right fun hright => ?_
      simp [h'.right e hright] at hbefore
    rw [hsplit] at he'
    refine (List.mem_append.mp he').resolve_left fun hleft => ?_
    simp [h.left e hleft] at hnot

end Cut
