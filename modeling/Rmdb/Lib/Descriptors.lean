-- SUMMARY: Tables of open descriptors with a log of what was opened and closed, and what a computation leaves open.
import Mathlib.Algebra.Order.Group.Multiset
import Mathlib.Data.Finset.Card
import Mathlib.Data.Set.Finite.Basic
import Mathlib.Tactic.Abel

/-!
# Descriptors

A process has a finite set of descriptors in use, and `open` takes the lowest number that is free.
Closing a number that is not in use fails. `Leaves` is the balance between two tables: what was
opened and not closed, which is then in use.
-/

structure FdTable where
  inUse : Finset Nat
  opened : Multiset Nat
  closed : Multiset Nat

namespace FdTable

/-- The table of a process before anything is logged. -/
def start (inUse : Finset Nat) : FdTable := ⟨inUse, 0, 0⟩

/-- The lowest number that is not in use. -/
def lowest (s : Finset Nat) : Nat := Nat.find s.exists_notMem

variable {t t' t'' : FdTable} {l l' : Multiset Nat} {m n : Nat} {inUse : Finset Nat}

def openFd (t : FdTable) : Nat × FdTable :=
  let fd := lowest t.inUse
  (fd, ⟨insert fd t.inUse, fd ::ₘ t.opened, t.closed⟩)

def closeFd (t : FdTable) (fd : Int) : FdTable :=
  if 0 ≤ fd ∧ fd.toNat ∈ t.inUse then ⟨t.inUse.erase fd.toNat, t.opened, fd.toNat ::ₘ t.closed⟩ else t

/-- Every descriptor that was opened has been closed once, and the others are in use as before. -/
structure Released (inUse : Finset Nat) (t : FdTable) : Prop where
  once : t.closed = t.opened
  inUse : t.inUse = inUse

/-- Between the two tables the descriptors of `l` were opened and not closed. -/
structure Leaves (t t' : FdTable) (l : Multiset Nat) : Prop where
  log : t'.opened + t.closed = t.opened + t'.closed + l
  inUse : t'.inUse.val = t.inUse.val + l

/-- The same, by the number of the descriptors. -/
def Leaks (t t' : FdTable) (n : Nat) : Prop := ∃ l, Leaves t t' l ∧ l.card = n

theorem lowest_notMem (s : Finset Nat) : lowest s ∉ s := Nat.find_spec s.exists_notMem

-- ---------------------------------------------------------------------------
-- The balance
-- ---------------------------------------------------------------------------

theorem Leaves.trans (h : Leaves t t' l) (h' : Leaves t' t'' l') : Leaves t t'' (l + l') where
  log := by
    have hsum : t''.opened + t.closed + (t'.opened + t'.closed) =
        t.opened + t''.closed + (l + l') + (t'.opened + t'.closed) := by
      calc t''.opened + t.closed + (t'.opened + t'.closed)
          = t''.opened + t'.closed + (t'.opened + t.closed) := by abel
        _ = t'.opened + t''.closed + l' + (t.opened + t'.closed + l) := by rw [h.log, h'.log]
        _ = t.opened + t''.closed + (l + l') + (t'.opened + t'.closed) := by abel
    exact add_right_cancel hsum
  inUse := by rw [h'.inUse, h.inUse, add_assoc]

theorem Leaks.refl (t : FdTable) : Leaks t t 0 := ⟨0, ⟨by simp, by simp⟩, rfl⟩

theorem Leaks.trans (h : Leaks t t' m) (h' : Leaks t' t'' n) : Leaks t t'' (m + n) := by
  obtain ⟨l, hl, rfl⟩ := h
  obtain ⟨l', hl', rfl⟩ := h'
  exact ⟨l + l', hl.trans hl', Multiset.card_add l l'⟩

theorem leaks_openFd (t : FdTable) : Leaks t t.openFd.2 1 := by
  refine ⟨{lowest t.inUse}, ⟨?_, ?_⟩, rfl⟩
  · simp only [openFd]
    rw [← Multiset.singleton_add]
    abel
  · simp only [openFd]
    rw [Finset.insert_val_of_notMem (lowest_notMem _), ← Multiset.singleton_add, add_comm]

/-- There is no descriptor with this number. -/
@[simp] theorem closeFd_neg (t : FdTable) : t.closeFd (-1) = t := by
  rw [closeFd, if_neg (by omega)]

theorem closeFd_of_mem {fd : Nat} (h : fd ∈ t.inUse) :
    t.closeFd fd = ⟨t.inUse.erase fd, t.opened, fd ::ₘ t.closed⟩ := by
  unfold closeFd
  rw [if_pos ⟨Int.natCast_nonneg fd, h⟩]
  rfl

theorem leaks_open_close (t : FdTable) : Leaks t (t.openFd.2.closeFd t.openFd.1) 0 := by
  rw [closeFd_of_mem (Finset.mem_insert_self _ _)]
  refine ⟨0, ⟨?_, ?_⟩, rfl⟩
  · simp only [openFd]
    rw [← Multiset.singleton_add, ← Multiset.singleton_add]
    abel
  · simp only [openFd]
    rw [Finset.erase_insert (lowest_notMem _), add_zero]

/-- Everything is released exactly when nothing is left. -/
theorem Leaks.released_iff (h : Leaks (start inUse) t n) : Released inUse t ↔ n = 0 := by
  obtain ⟨l, hl, rfl⟩ := h
  rw [Multiset.card_eq_zero]
  constructor
  · intro hreleased
    have huse := hl.inUse
    rw [hreleased.inUse] at huse
    exact left_eq_add.mp huse
  · rintro rfl
    have hlog := hl.log
    have huse := hl.inUse
    rw [add_zero] at huse
    simp only [start, add_zero, zero_add] at hlog
    exact ⟨hlog.symm, Finset.val_inj.mp huse⟩

end FdTable
