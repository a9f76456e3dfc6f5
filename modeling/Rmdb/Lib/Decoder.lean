-- SUMMARY: Decoders of a buffer with a running offset, and what they read.
import Mathlib.Data.List.Basic

/-!
# Decoders

A decoder reads a buffer from an offset that it moves forward, and fails where it would read behind
the end. `Reads` says that a decoder reads back what an encoder has written at its offset.
-/

abbrev Decoder (β α : Type) := ReaderT (List β) (StateT Nat Option) α

namespace Decoder

variable {β α γ : Type} {front bs cs rest : List β} {offset : Nat} {a : α} {b : γ}

-- ---------------------------------------------------------------------------
-- Decoders
-- ---------------------------------------------------------------------------

/-- The next `n` bytes. -/
def next (n : Nat) : Decoder β (List β) := fun src offset =>
  if offset + n ≤ src.length then some ((src.drop offset).take n, offset + n) else none

/-- The number of bytes read. -/
def position : Decoder β Nat := fun _ offset => some (offset, offset)

/-- One value after the other. -/
def times (r : Decoder β α) : Nat → Decoder β (List α)
  | 0 => pure []
  | n + 1 => do
    let a ← r
    let as ← times r n
    return a :: as

-- ---------------------------------------------------------------------------
-- Reading back
-- ---------------------------------------------------------------------------

/-- At `offset` the decoder reads `a` from `bs`. -/
def Reads (r : Decoder β α) (offset : Nat) (bs : List β) (a : α) : Prop :=
  ∀ front rest, front.length = offset → r (front ++ (bs ++ rest)) offset = some (a, offset + bs.length)

variable {r : Decoder β α} {f : α → Decoder β γ}

theorem Reads.pure (a : α) : Reads (β := β) (pure a) offset [] a := by
  intro front rest _
  rfl

theorem Reads.bind (h : Reads r offset bs a) (hf : Reads (f a) (offset + bs.length) cs b) :
    Reads (r >>= f) offset (bs ++ cs) b := by
  intro front rest hfront
  have hr := h front (cs ++ rest) hfront
  have hnext := hf (front ++ bs) rest (by rw [List.length_append, hfront])
  rw [List.append_assoc] at hnext
  change (r (front ++ (bs ++ cs ++ rest)) offset).bind (fun out => f out.1 _ out.2) = _
  rw [List.append_assoc, hr, List.length_append, ← Nat.add_assoc]
  exact hnext

/-- The last value: nothing is read behind it. -/
theorem Reads.map {g : α → γ} (h : Reads r offset bs a) : Reads (r >>= fun a => Pure.pure (g a)) offset bs (g a) := by
  have hbind := h.bind (f := fun a => Pure.pure (g a)) (Reads.pure (g a))
  rwa [List.append_nil] at hbind

theorem Reads.next (bs : List β) : Reads (next bs.length) offset bs bs := by
  intro front rest hfront
  subst hfront
  rw [Decoder.next, if_pos (by simp)]
  simp

theorem Reads.position : Reads (β := β) position offset [] offset := by
  intro front rest _
  rfl

theorem Reads.times {enc : α → List β} (h : ∀ a n, Reads r n (enc a) a) (as : List α) :
    Reads (times r as.length) offset (as.flatMap enc) as := by
  induction as generalizing offset with
  | nil => exact Reads.pure []
  | cons a as ih => exact (h a offset).bind ih.map

end Decoder
