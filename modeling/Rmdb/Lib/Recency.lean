-- SUMMARY: Keys that enter a group and leave it, when each entered, and the queue of those inside.
import Mathlib.Data.List.Nodup

/-!
# Recency

A history is a list of moves, the last one first. `since` says at which move a key that is inside
entered the group; a key that enters again while it is inside keeps its place. `queue` is the
group in the order of entering, the last to enter first, so that its last element entered first.
-/

inductive Move (κ : Type) where
  | enter (k : κ)
  | leave (k : κ)
  deriving DecidableEq, Repr

namespace Recency

variable {κ : Type} [DecidableEq κ]

/-- The number of the move at which a key that is inside entered. -/
def since : List (Move κ) → κ → Option Nat
  | [], _ => none
  | .enter k :: past, l => if k = l then (since past l).or (some past.length) else since past l
  | .leave k :: past, l => if k = l then none else since past l

/-- The keys inside. -/
def queue : List (Move κ) → List κ
  | [] => []
  | .enter k :: past => if k ∈ queue past then queue past else k :: queue past
  | .leave k :: past => (queue past).erase k

variable {past : List (Move κ)} {k l : κ} {n m : Nat}

theorem nodup_queue (past : List (Move κ)) : (queue past).Nodup := by
  induction past with
  | nil => exact List.nodup_nil
  | cons move past ih =>
    cases move with
    | enter k =>
      unfold queue
      split
      · exact ih
      · exact List.nodup_cons.mpr ⟨‹_›, ih⟩
    | leave k => exact ih.erase k

theorem mem_queue : k ∈ queue past ↔ since past k ≠ none := by
  induction past with
  | nil => simp [queue, since]
  | cons move past ih =>
    cases move with
    | enter l =>
      unfold queue since
      split
      · next hl =>
        split
        · next heq =>
          subst heq
          simp [hl]
        · exact ih
      · next hl =>
        by_cases heq : l = k
        · simp [heq]
        · simp [heq, Ne.symm heq, ih]
    | leave l =>
      unfold queue since
      rw [(nodup_queue past).mem_erase_iff, ih]
      by_cases heq : l = k
      · simp [heq]
      · simp [heq, Ne.symm heq]

theorem since_lt (h : since past k = some n) : n < past.length := by
  induction past with
  | nil => simp [since] at h
  | cons move past ih =>
    have hcons : (move :: past).length = past.length + 1 := rfl
    cases move with
    | enter l =>
      unfold since at h
      split at h
      · cases hk : since past k with
        | none =>
          rw [hk, Option.none_or, Option.some.injEq] at h
          omega
        | some j =>
          rw [hk, Option.some_or] at h
          have := ih (hk.trans h)
          omega
      · have := ih h
        omega
    | leave l =>
      unfold since at h
      split at h
      · contradiction
      · have := ih h
        omega

/-- `k` entered after `l`. -/
def After (past : List (Move κ)) (k l : κ) : Prop :=
  ∃ n m, since past k = some n ∧ since past l = some m ∧ m < n

/-- A key that enters while it is inside stays where it is. -/
theorem since_enter_mem (h : since past k ≠ none) : since (.enter k :: past) = since past := by
  obtain ⟨n, hn⟩ := Option.ne_none_iff_exists'.mp h
  funext l
  by_cases heq : k = l
  · subst heq
    simp [since, hn]
  · simp [since, heq]

theorem queue_pairwise (past : List (Move κ)) : (queue past).Pairwise (After past) := by
  induction past with
  | nil => exact List.Pairwise.nil
  | cons move past ih =>
    cases move with
    | enter k =>
      unfold queue
      split
      · next hk =>
        unfold After
        rw [since_enter_mem (mem_queue.mp hk)]
        exact ih
      · next hk =>
        have hnone : since past k = none := by simpa [mem_queue] using hk
        have hsame : ∀ l ∈ queue past, since (.enter k :: past) l = since past l := by
          intro l hl
          have hne : k ≠ l := fun heq => hk (heq ▸ hl)
          simp [since, hne]
        refine List.pairwise_cons.mpr ⟨fun l hl => ?_, ih.imp_of_mem fun {i j} hi hj hij => ?_⟩
        · obtain ⟨m, hm⟩ := Option.ne_none_iff_exists'.mp (mem_queue.mp hl)
          refine ⟨past.length, m, ?_, (hsame l hl).trans hm, since_lt hm⟩
          simp [since, hnone]
        · unfold After
          rw [hsame i hi, hsame j hj]
          exact hij
    | leave k =>
      unfold queue
      refine (ih.sublist List.erase_sublist).imp_of_mem fun {i j} hi hj hij => ?_
      have hsame : ∀ l ∈ (queue past).erase k, since (.leave k :: past) l = since past l := by
        intro l hl
        have hne : k ≠ l := fun heq => ((nodup_queue past).mem_erase_iff.mp hl).1 heq.symm
        simp [since, hne]
      unfold After
      rw [hsame i hi, hsame j hj]
      exact hij

/-- The last of the queue is the key that entered first. -/
theorem getLast?_queue (h : (queue past).getLast? = some k) :
    ∃ n, since past k = some n ∧ ∀ l m, l ≠ k → since past l = some m → n < m := by
  obtain ⟨front, hfront⟩ := List.getLast?_eq_some_iff.mp h
  have hmem : k ∈ queue past := by simp [hfront]
  obtain ⟨n, hn⟩ := Option.ne_none_iff_exists'.mp (mem_queue.mp hmem)
  refine ⟨n, hn, fun l m hne hm => ?_⟩
  have hl : l ∈ queue past := mem_queue.mpr (by simp [hm])
  have hin : l ∈ front := by simpa [hfront, hne] using hl
  have hpair := queue_pairwise past
  rw [hfront, List.pairwise_append] at hpair
  obtain ⟨m', n', hm', hn', hlt⟩ := hpair.2.2 l hin k (by simp)
  rw [hm] at hm'
  rw [hn] at hn'
  cases hm'
  cases hn'
  exact hlt

theorem getLast?_queue_eq_none : (queue past).getLast? = none ↔ ∀ k, since past k = none := by
  rw [List.getLast?_eq_none_iff, List.eq_nil_iff_forall_not_mem]
  refine forall_congr' fun k => ?_
  rw [mem_queue, not_not]

end Recency
