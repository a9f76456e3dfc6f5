-- SUMMARY: Identifiers shared by every component: page numbers, record ids, transaction ids, column types.
import Mathlib.Order.Basic

/-!
# Identifiers

The small types of `defs.h` and `common/config.h` that every component of the
database uses. Page numbers are signed, as in the source, because `-1` stands
for "no page" in every link that is stored on a page.
-/

namespace Rmdb

/-- `page_id_t`. -/
abbrev PageNo := Int

/-- `txn_id_t`. Transaction ids are only ever taken from the counter `next_txn_id_`. -/
abbrev TxnId := Nat

/-- `INVALID_PAGE_ID`, `IX_NO_PAGE` and `RM_NO_PAGE` are all this number. -/
def noPage : PageNo := -1

/-- The position of a record in its table file. -/
structure Rid where
  pageNo : PageNo
  slotNo : Int
  deriving DecidableEq, Repr, Inhabited

inductive ColType where
  | int
  | float
  | bigint
  | string
  | datetime
  deriving DecidableEq, Repr

-- Fallible code runs in `Except`. These let `simp` run it.

@[simp] theorem ok_bind {ε α β : Type} (a : α) (f : α → Except ε β) :
    ((Except.ok a : Except ε α) >>= f) = f a := rfl

@[simp] theorem error_bind {ε α β : Type} (e : ε) (f : α → Except ε β) :
    ((Except.error e : Except ε α) >>= f) = .error e := rfl

@[simp] theorem pure_eq_ok {ε α : Type} (a : α) : (pure a : Except ε α) = .ok a := rfl

theorem bind_eq_ok_iff {ε α β : Type} {x : Except ε α} {f : α → Except ε β} {b : β} :
    x >>= f = .ok b ↔ ∃ a, x = .ok a ∧ f a = .ok b := by
  cases x <;> simp

end Rmdb
