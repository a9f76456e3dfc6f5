-- SUMMARY: Doubly linked lists over a map of links, with insertion and removal of one cell.
import Mathlib.Data.List.Basic
import Mathlib.Logic.Function.Basic

/-!
# Doubly linked lists

`lk p` holds the two neighbours of the cell `p`. `Linked lk a ps b` says that the
cells `ps` form a list in this order, with `a` before the first and `b` after the
last one. Lists concatenate (`linked_append`), so a change around one cell is
a change between two lists that stay as they are.
-/

namespace LinkedList

variable {α : Type*}

/-- The cells `ps` are linked in this order between `a` and `b`. -/
def Linked (lk : α → Option (α × α)) : α → List α → α → Prop
  | _, [], _ => True
  | a, p :: ps, b => lk p = some (a, ps.headD b) ∧ Linked lk p ps b

variable {lk lk' : α → Option (α × α)} {a b c p q r : α} {ps A B : List α}

@[simp] theorem linked_nil : Linked lk a [] b := trivial

@[simp] theorem linked_cons :
    Linked lk a (p :: ps) b ↔ lk p = some (a, ps.headD b) ∧ Linked lk p ps b := Iff.rfl

private theorem headD_append (xs ys : List α) (b : α) :
    (xs ++ ys).headD b = xs.headD (ys.headD b) := by
  cases xs <;> rfl

theorem linked_append :
    Linked lk a (A ++ B) b ↔ Linked lk a A (B.headD b) ∧ Linked lk (A.getLastD a) B b := by
  induction A generalizing a with
  | nil => simp
  | cons p A ih =>
    rw [List.cons_append, linked_cons, linked_cons, ih, headD_append, and_assoc,
      List.getLastD_cons]

/-- Only the links of the cells of a list matter to it. -/
theorem Linked.congr (h : Linked lk a ps b) (hlk : ∀ p ∈ ps, lk' p = lk p) :
    Linked lk' a ps b := by
  induction ps generalizing a with
  | nil => trivial
  | cons p ps ih =>
    refine ⟨?_, ih h.2 fun q hq => hlk q (List.mem_cons_of_mem p hq)⟩
    rw [hlk p List.mem_cons_self, h.1]

/-- The neighbours of a cell, read off the list around it. -/
theorem Linked.at (h : Linked lk a (A ++ p :: B) b) :
    lk p = some (A.getLastD a, B.headD b) := (linked_append.mp h).2.1

/-- The cell after the start of a list is the first one of it. -/
theorem Linked.relink_head (h : Linked lk a (p :: B) b) (hp : lk' p = some (c, B.headD b))
    (hB : ∀ x ∈ B, lk' x = lk x) : Linked lk' c (p :: B) b :=
  ⟨hp, h.2.congr hB⟩

section Update

variable [DecidableEq α]

/-- The link of `x` with `f` applied to it, if there is one. -/
def relink (lk : α → Option (α × α)) (x : α) (f : α × α → α × α) : α → Option (α × α) :=
  Function.update lk x ((lk x).map f)

/-- `q` comes before the first cell of a list, if it has one. -/
def relinkHead (lk : α → Option (α × α)) (q : α) : List α → α → Option (α × α)
  | [] => lk
  | c :: _ => relink lk c fun l => (q, l.2)

theorem relink_isSome {x : α} {f : α × α → α × α} (h : (lk p).isSome) : (relink lk x f p).isSome := by
  rw [relink, Function.update_apply]
  split
  · rename_i heq
    rw [heq] at h
    simpa using h
  · exact h

theorem relinkHead_isSome (h : (lk p).isSome) : (relinkHead lk q B p).isSome := by
  cases B with
  | nil => exact h
  | cons b B => exact relink_isSome h

/-- `q` comes between `p` and the cell after it. -/
def insertAfter (lk : α → Option (α × α)) (p q : α) (next : List α) (b : α) : α → Option (α × α) :=
  let lk := Function.update lk q (some (p, next.headD b))
  relink (relinkHead lk q next) p fun l => (l.1, q)

theorem insertAfter_of_ne {x : α} (hp : x ≠ p) (hq : x ≠ q) (hB : x ∉ B) :
    insertAfter lk p q B b x = lk x := by
  cases B with
  | nil => simp [insertAfter, relinkHead, relink, hp, hq]
  | cons c B =>
    have hc : x ≠ c := by
      rintro rfl
      exact hB List.mem_cons_self
    simp [insertAfter, relinkHead, relink, hp, hq, hc]

theorem linked_insertAfter (h : Linked lk a (A ++ p :: B) b) (hnd : (A ++ p :: B).Nodup)
    (hq : q ∉ A ++ p :: B) : Linked (insertAfter lk p q B b) a (A ++ p :: q :: B) b := by
  obtain ⟨hA, hp, hB⟩ := linked_append.mp h
  rw [List.nodup_append] at hnd
  obtain ⟨-, hpB, hdisj⟩ := hnd
  have hpB' := List.nodup_cons.mp hpB
  have hqp : q ≠ p := by
    rintro rfl
    exact hq (by simp)
  have hpA : ∀ x ∈ A, x ≠ p := fun x hx => hdisj x hx p List.mem_cons_self
  have hqA : ∀ x ∈ A, x ≠ q := by
    rintro x hx rfl
    exact hq (by simp [hx])
  have hqB : ∀ x ∈ B, x ≠ q := by
    rintro x hx rfl
    exact hq (by simp [hx])
  have hpB'' : ∀ x ∈ B, x ≠ p := by
    rintro x hx rfl
    exact hpB'.1 hx
  cases B with
  | nil =>
    rw [linked_append]
    refine ⟨hA.congr fun x hx => ?_, ?_, ?_, trivial⟩
    · simp [insertAfter, relinkHead, relink, hpA x hx, hqA x hx]
    · simp [insertAfter, relinkHead, relink, hqp.symm, hp]
    · simp [insertAfter, relinkHead, relink, hqp]
  | cons c B =>
    have hcp := hpB'' c List.mem_cons_self
    have hcq := hqB c List.mem_cons_self
    have hcA : ∀ x ∈ A, x ≠ c := fun x hx =>
      hdisj x hx c (List.mem_cons_of_mem p List.mem_cons_self)
    have hcB : ∀ x ∈ B, x ≠ c := by
      rintro x hx rfl
      exact (List.nodup_cons.mp hpB'.2).1 hx
    rw [linked_append]
    refine ⟨hA.congr fun x hx => ?_, ?_, ?_, hB.relink_head ?_ fun x hx => ?_⟩
    · simp [insertAfter, relinkHead, relink, hpA x hx, hqA x hx, hcA x hx]
    · simp [insertAfter, relinkHead, relink, hqp.symm, hcp.symm, hp]
    · simp [insertAfter, relinkHead, relink, hqp, hcq.symm]
    · simp [insertAfter, relinkHead, relink, hcp, hcq, hB.1]
    · simp [insertAfter, relinkHead, relink, hpB'' x (List.mem_cons_of_mem c hx),
        hqB x (List.mem_cons_of_mem c hx), hcB x hx]

/-- The list passes over the cell after `l`, which had `next` behind it. -/
def removeAfter (lk : α → Option (α × α)) (l : α) (next : List α) (b : α) : α → Option (α × α) :=
  relinkHead (relink lk l fun x => (x.1, next.headD b)) l next

theorem removeAfter_of_ne {l x : α} (hl : x ≠ l) (hB : x ∉ B) : removeAfter lk l B b x = lk x := by
  cases B with
  | nil => simp [removeAfter, relinkHead, relink, hl]
  | cons c B =>
    have hc : x ≠ c := by
      rintro rfl
      exact hB List.mem_cons_self
    simp [removeAfter, relinkHead, relink, hl, hc]

theorem linked_removeAfter {l : α} (h : Linked lk a (A ++ l :: r :: B) b)
    (hnd : (A ++ l :: r :: B).Nodup) : Linked (removeAfter lk l B b) a (A ++ l :: B) b := by
  obtain ⟨hA, hl, hr, hB⟩ := linked_append.mp h
  rw [List.nodup_append] at hnd
  obtain ⟨-, hlB, hdisj⟩ := hnd
  obtain ⟨hlB', hrB⟩ := List.nodup_cons.mp hlB
  have hlA : ∀ x ∈ A, x ≠ l := fun x hx => hdisj x hx l List.mem_cons_self
  have hlB'' : ∀ x ∈ B, x ≠ l := by
    rintro x hx rfl
    exact hlB' (List.mem_cons_of_mem r hx)
  cases B with
  | nil =>
    rw [linked_append]
    refine ⟨hA.congr fun x hx => ?_, ?_, trivial⟩
    · simp [removeAfter, relinkHead, relink, hlA x hx]
    · simp [removeAfter, relinkHead, relink, hl]
  | cons c B =>
    have hcl := hlB'' c List.mem_cons_self
    have hcA : ∀ x ∈ A, x ≠ c := fun x hx => hdisj x hx c (by simp)
    have hcB : ∀ x ∈ B, x ≠ c := by
      rintro x hx rfl
      exact (List.nodup_cons.mp (List.nodup_cons.mp hrB).2).1 hx
    rw [linked_append]
    refine ⟨hA.congr fun x hx => ?_, ?_, hB.relink_head ?_ fun x hx => ?_⟩
    · simp [removeAfter, relinkHead, relink, hlA x hx, hcA x hx]
    · simp [removeAfter, relinkHead, relink, hcl.symm, hl]
    · simp [removeAfter, relinkHead, relink, hcl, hB.1]
    · simp [removeAfter, relinkHead, relink, hlB'' x (List.mem_cons_of_mem c hx), hcB x hx]

end Update

end LinkedList
