-- SUMMARY: Ordered blocks with separators between them, and the steps that keep the order.
import Mathlib.Data.Prod.Lex
import Mathlib.Data.List.Pairwise
import Rmdb.Lib.Weave

/-!
# Separated blocks

The blocks of keys `X` and the separators `S` are `Separated` when the weave of both
is ordered: keys increase, and a separator is greater than every key to its left and
at most every key to its right. A separator and a key may be equal in one order only,
so both are embedded into pairs in which the separator `s` comes right before the key `s`.
-/

namespace Weave

section Order

variable {α : Type*} [Preorder α]

theorem exists_le_of_mem_tail {S : List α} {xs : List (List α)}
    (h : (tail S xs).Pairwise (· < ·)) {a : α} (ha : a ∈ tail S xs) : ∃ s ∈ S, s ≤ a := by
  induction S generalizing xs with
  | nil => simp at ha
  | cons s S ih =>
    cases xs with
    | nil => simp at ha
    | cons x xs =>
      rw [tail_cons, List.pairwise_cons] at h
      rcases List.mem_cons.mp ha with rfl | ha
      · exact ⟨a, List.mem_cons_self, le_rfl⟩
      · exact ⟨s, List.mem_cons_self, (h.1 a ha).le⟩

theorem exists_ge_of_mem_front {xs : List (List α)} {S : List α}
    (h : (front xs S).Pairwise (· < ·)) {a : α} (ha : a ∈ front xs S) : ∃ s ∈ S, a ≤ s := by
  induction S generalizing xs with
  | nil => simp at ha
  | cons s S ih =>
    cases xs with
    | nil => simp at ha
    | cons x xs =>
      rw [front_cons, List.pairwise_append, List.pairwise_cons] at h
      obtain ⟨-, ⟨-, hfront⟩, hx⟩ := h
      rcases List.mem_append.mp ha with ha | ha
      · exact ⟨s, List.mem_cons_self, (hx a ha s List.mem_cons_self).le⟩
      · rcases List.mem_cons.mp ha with rfl | ha
        · exact ⟨a, List.mem_cons_self, le_rfl⟩
        · obtain ⟨t, ht, hat⟩ := ih hfront ha
          exact ⟨t, List.mem_cons_of_mem s ht, hat⟩

end Order

theorem mem_front_of_mem_block {α : Type*} {xs : List (List α)} {S : List α}
    (h : S.length = xs.length) {x : List α} (hx : x ∈ xs) {a : α} (ha : a ∈ x) :
    a ∈ front xs S := by
  induction xs generalizing S with
  | nil => cases hx
  | cons y xs ih =>
    cases S with
    | nil => cases h
    | cons s S =>
      rcases List.mem_cons.mp hx with rfl | hx
      · simp [ha]
      · simp [ih (Nat.succ.inj h) hx]

theorem mem_tail_of_mem_block {α : Type*} {S : List α} {xs : List (List α)}
    (h : S.length = xs.length) {x : List α} (hx : x ∈ xs) {a : α} (ha : a ∈ x) :
    a ∈ tail S xs := by
  induction xs generalizing S with
  | nil => cases hx
  | cons y xs ih =>
    cases S with
    | nil => cases h
    | cons s S =>
      rcases List.mem_cons.mp hx with rfl | hx
      · simp [ha]
      · simp [ih (Nat.succ.inj h) hx]

theorem map_front {α β : Type*} (f : α → β) (xs : List (List α)) (S : List α) :
    (front xs S).map f = front (xs.map (List.map f)) (S.map f) := by
  induction xs generalizing S with
  | nil => simp
  | cons x xs ih =>
    cases S with
    | nil => simp
    | cons s S => simp [ih]

end Weave

namespace Blocks

open Weave

variable {K : Type*} [LinearOrder K]

/-- The place of a separator in the order: right before the equal key. -/
def sep (s : K) : K ×ₗ Bool := toLex (s, false)

def key (k : K) : K ×ₗ Bool := toLex (k, true)

@[simp] theorem sep_lt_sep {s t : K} : sep s < sep t ↔ s < t := by
  simp [sep, Prod.Lex.toLex_lt_toLex]

@[simp] theorem key_lt_key {k l : K} : key k < key l ↔ k < l := by
  simp [key, Prod.Lex.toLex_lt_toLex]

@[simp] theorem key_lt_sep {k s : K} : key k < sep s ↔ k < s := by
  simp [sep, key, Prod.Lex.toLex_lt_toLex]

@[simp] theorem sep_lt_key {s k : K} : sep s < key k ↔ s ≤ k := by
  simp [sep, key, Prod.Lex.toLex_lt_toLex, le_iff_lt_or_eq]

/-- The blocks `X` and the separators `S` between them are in order. -/
def Separated (X : List (List K)) (S : List K) : Prop :=
  (weave (X.map (List.map key)) (S.map sep)).Pairwise (· < ·)

variable {A B X : List (List K)} {x y z : List K} {SA SB S S' : List K} {k s : K}

/-- The order seen from one block. -/
theorem separated_cut (h : SA.length = A.length) :
    Separated (A ++ x :: B) (SA ++ SB) ↔
      (front (A.map (List.map key)) (SA.map sep) ++
        (x.map key ++ tail (SB.map sep) (B.map (List.map key)))).Pairwise (· < ·) := by
  unfold Separated
  rw [List.map_append, List.map_append, List.map_cons, weave_cut (by simpa using h)]

/-- The separators themselves increase. -/
theorem Separated.seps (h : Separated X S) (hlen : S.length + 1 = X.length) :
    S.Pairwise (· < ·) := by
  have hsub : List.Sublist (S.map sep) (weave (X.map (List.map key)) (S.map sep)) :=
    seps_sublist (by simpa using hlen)
  have hS := List.Pairwise.sublist hsub h
  rw [List.pairwise_map] at hS
  exact hS.imp (fun h => sep_lt_sep.mp h)

/-- The keys of one block increase. -/
theorem Separated.block (h : Separated (A ++ x :: B) (SA ++ SB)) (hA : SA.length = A.length) :
    x.Pairwise (· < ·) := by
  rw [separated_cut hA, List.pairwise_append, List.pairwise_append] at h
  have hx := h.2.1.1
  rw [List.pairwise_map] at hx
  exact hx.imp (fun h => key_lt_key.mp h)

/-- Everything before a block is less than a key between its separators. -/
theorem Separated.front_lt (h : Separated (A ++ x :: B) (SA ++ SB)) (hA : SA.length = A.length)
    (hk : ∀ s ∈ SA, s ≤ k) :
    ∀ e ∈ front (A.map (List.map key)) (SA.map sep), e < key k := by
  intro e he
  rw [separated_cut hA, List.pairwise_append] at h
  obtain ⟨t, ht, hle⟩ := exists_ge_of_mem_front h.1 he
  obtain ⟨s, hs, rfl⟩ := List.mem_map.mp ht
  exact hle.trans_lt (sep_lt_key.mpr (hk s hs))

/-- Everything after a block is greater than a key between its separators. -/
theorem Separated.lt_tail (h : Separated (A ++ x :: B) (SA ++ SB)) (hA : SA.length = A.length)
    (hk : ∀ s ∈ SB, k < s) :
    ∀ e ∈ tail (SB.map sep) (B.map (List.map key)), key k < e := by
  intro e he
  rw [separated_cut hA, List.pairwise_append, List.pairwise_append] at h
  obtain ⟨t, ht, hle⟩ := exists_le_of_mem_tail h.2.1.2.1 he
  obtain ⟨s, hs, rfl⟩ := List.mem_map.mp ht
  exact (key_lt_sep.mpr (hk s hs)).trans_le hle

/-- A key of an earlier block is less than a key between the separators of this one. -/
theorem Separated.lt_of_mem_left (h : Separated (A ++ x :: B) (SA ++ SB))
    (hA : SA.length = A.length) (hk : ∀ s ∈ SA, s ≤ k) {a : List K} (ha : a ∈ A) {l : K}
    (hl : l ∈ a) : l < k := by
  refine key_lt_key.mp (h.front_lt hA hk _ ?_)
  exact mem_front_of_mem_block (by simpa using hA) (List.mem_map_of_mem ha) (List.mem_map_of_mem hl)

/-- A key of a later block is greater than a key between the separators of this one. -/
theorem Separated.lt_of_mem_right (h : Separated (A ++ x :: B) (SA ++ SB))
    (hA : SA.length = A.length) (hB : SB.length = B.length) (hk : ∀ s ∈ SB, k < s) {b : List K}
    (hb : b ∈ B) {l : K} (hl : l ∈ b) : k < l := by
  refine key_lt_key.mp (h.lt_tail hA hk _ ?_)
  exact mem_tail_of_mem_block (by simpa using hB) (List.mem_map_of_mem hb) (List.mem_map_of_mem hl)

/-- A key of a block lies between the separators around the block. -/
theorem Separated.mem_bounds (h : Separated (A ++ x :: B) (SA ++ SB)) (hA : SA.length = A.length)
    (hB : SB.length = B.length) (hk : k ∈ x) : (∀ s ∈ SA, s ≤ k) ∧ ∀ s ∈ SB, k < s := by
  rw [separated_cut hA, List.pairwise_append, List.pairwise_append] at h
  obtain ⟨-, ⟨-, -, hxB⟩, hAx⟩ := h
  refine ⟨fun s hs => ?_, fun s hs => ?_⟩
  · have hmem : sep s ∈ front (A.map (List.map key)) (SA.map sep) :=
      (front_sublist _ _ (by simpa using hA)).mem (List.mem_map_of_mem hs)
    exact sep_lt_key.mp (hAx _ hmem (key k) (List.mem_append_left _ (List.mem_map_of_mem hk)))
  · have hmem : sep s ∈ tail (SB.map sep) (B.map (List.map key)) :=
      (tail_sublist _ _ (by simpa using hB)).mem (List.mem_map_of_mem hs)
    exact key_lt_sep.mp (hxB (key k) (List.mem_map_of_mem hk) _ hmem)

-- ---------------------------------------------------------------------------
-- Steps that keep the order
-- ---------------------------------------------------------------------------

theorem Separated.insert (h : Separated (A ++ (y ++ z) :: B) (SA ++ SB))
    (hA : SA.length = A.length) (hSA : ∀ s ∈ SA, s ≤ k) (hSB : ∀ s ∈ SB, k < s)
    (hy : ∀ l ∈ y, l < k) (hz : ∀ l ∈ z, k < l) :
    Separated (A ++ (y ++ k :: z) :: B) (SA ++ SB) := by
  have hfront := h.front_lt hA hSA
  have htail := h.lt_tail hA hSB
  rw [separated_cut hA, List.map_append, List.append_assoc, ← List.append_assoc] at h ⊢
  rw [List.map_cons, List.cons_append]
  rw [List.pairwise_append] at h ⊢
  refine ⟨h.1, List.pairwise_cons.mpr ⟨?_, h.2.1⟩, ?_⟩
  · intro e he
    rcases List.mem_append.mp he with he | he
    · obtain ⟨l, hl, rfl⟩ := List.mem_map.mp he
      exact key_lt_key.mpr (hz l hl)
    · exact htail e he
  · intro d hd e he
    rcases List.mem_cons.mp he with rfl | he
    · rcases List.mem_append.mp hd with hd | hd
      · exact hfront d hd
      · obtain ⟨l, hl, rfl⟩ := List.mem_map.mp hd
        exact key_lt_key.mpr (hy l hl)
    · exact h.2.2 d hd e he

theorem Separated.erase (h : Separated (A ++ (y ++ k :: z) :: B) (SA ++ SB))
    (hA : SA.length = A.length) : Separated (A ++ (y ++ z) :: B) (SA ++ SB) := by
  rw [separated_cut hA] at h ⊢
  refine h.sublist ?_
  simp only [List.map_append, List.map_cons, List.append_assoc, List.cons_append]
  exact (List.Sublist.refl _).append ((List.Sublist.refl _).append (List.sublist_cons_self _ _))

theorem separated_cut₂ (hA : SA.length = A.length) :
    Separated (A ++ y :: z :: B) (SA ++ s :: SB) ↔
      (front (A.map (List.map key)) (SA.map sep) ++ y.map key ++
        sep s :: (z.map key ++ tail (SB.map sep) (B.map (List.map key)))).Pairwise (· < ·) := by
  rw [separated_cut hA]
  simp

/-- Two neighbours become one block, and the separator between them goes. -/
theorem Separated.merge (h : Separated (A ++ y :: z :: B) (SA ++ s :: SB))
    (hA : SA.length = A.length) : Separated (A ++ (y ++ z) :: B) (SA ++ SB) := by
  rw [separated_cut₂ hA] at h
  rw [separated_cut hA]
  refine h.sublist ?_
  simp only [List.map_append, List.append_assoc]
  exact (List.Sublist.refl _).append ((List.Sublist.refl _).append (List.sublist_cons_self _ _))

/-- A block is cut in two, and the first key of the right half separates them. The left
half must not be empty: it keeps the new separator apart from the one before it. -/
theorem Separated.split (h : Separated (A ++ (y ++ k :: z) :: B) (SA ++ SB))
    (hA : SA.length = A.length) (hy : y ≠ []) :
    Separated (A ++ y :: (k :: z) :: B) (SA ++ k :: SB) := by
  rw [separated_cut₂ hA]
  rw [separated_cut hA, List.map_append, List.append_assoc, ← List.append_assoc] at h
  have hsep : sep k < key k := sep_lt_key.mpr le_rfl
  obtain ⟨y, l, rfl⟩ := List.eq_nil_or_concat' y |>.resolve_left hy
  rw [List.pairwise_append] at h ⊢
  obtain ⟨hfront, hrest, hlt⟩ := h
  have hlk : key l < sep k := by
    rw [key_lt_sep, ← key_lt_key]
    exact hlt (key l) (by simp) (key k) (by simp)
  refine ⟨hfront, List.pairwise_cons.mpr ⟨?_, hrest⟩, ?_⟩
  · intro e he
    rcases List.mem_cons.mp he with rfl | he
    · exact hsep
    · exact hsep.trans ((List.pairwise_cons.mp hrest).1 e he)
  · intro d hd e he
    rcases List.mem_cons.mp he with rfl | he
    · -- `d` is at most the last key of the left half.
      rw [List.map_append, ← List.append_assoc] at hfront hd
      rcases List.mem_append.mp hd with hd | hd
      · exact ((List.pairwise_append.mp hfront).2.2 d hd (key l) (by simp)).trans hlk
      · obtain rfl : d = key l := by simpa using hd
        exact hlk
    · exact hlt d hd e he

/-- Two neighbours share their keys anew. -/
theorem Separated.share (h : Separated (A ++ y :: z :: B) (SA ++ s :: SB))
    (hA : SA.length = A.length) {y' z' : List K} (heq : y ++ z = y' ++ k :: z') (hy' : y' ≠ []) :
    Separated (A ++ y' :: (k :: z') :: B) (SA ++ k :: SB) :=
  Separated.split (heq ▸ h.merge hA) hA hy'

/-- Some separators become the first key to their right. -/
inductive Refresh : List (List K) → List K → List K → Prop
  | nil : Refresh [] [] []
  | keep (x : List K) (s : K) {X : List (List K)} {S S' : List K} :
    Refresh X S S' → Refresh (x :: X) (s :: S) (s :: S')
  | first (x : List K) (s k : K) {X : List (List K)} {S S' : List K} :
    Refresh X S S' → Refresh ((k :: x) :: X) (s :: S) (k :: S')

theorem Separated.refresh (h : Separated (A ++ y :: X) (SA ++ S)) (hA : SA.length = A.length)
    (hne : ∀ b ∈ y :: X, b ≠ []) (hr : Refresh X S S') : Separated (A ++ y :: X) (SA ++ S') := by
  induction hr generalizing A SA y with
  | nil => exact h
  | @keep x s X S S' _ ih =>
    have h' := ih (A := A ++ [y]) (y := x)
      (show Separated _ ((SA ++ [s]) ++ S) by simpa using h) (by simpa using hA)
      fun b hb => hne b (List.mem_cons_of_mem y hb)
    simpa using h'
  | @first x s k X S S' _ ih =>
    have hk : Separated (A ++ y :: (k :: x) :: X) (SA ++ k :: S) :=
      h.share hA rfl (hne y List.mem_cons_self)
    have h' := ih (A := A ++ [y]) (y := k :: x)
      (show Separated _ ((SA ++ [k]) ++ S) by simpa using hk)
      (by simpa using hA) fun b hb => hne b (List.mem_cons_of_mem y hb)
    simpa using h'

end Blocks
