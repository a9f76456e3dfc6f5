-- SUMMARY: An update that finds a duplicate key leaves the table and the write set as they were.
import Rmdb.Execution.Agreement

/-!
# Updates that fail

`UpdateExecutor::Next` takes the keys of all its rows out of the indexes before it puts the new keys in, and
writes the new records last. When a new key is there already it takes the new keys out again, and puts the
old ones back. The trees may look different afterwards, but they hold the same pairs.
-/

namespace Rmdb

open Exec Run

/-- Two states of an index with the same pairs of keys and rids. -/
def Index.SameMap (ix ix' : Index) : Prop :=
  ∃ (cols : IndexMeta) (h h' : IxIndexHandle (KeyBytes (cols.map Prod.snd))) (m : KeyMap (KeyBytes (cols.map Prod.snd))),
    ix = ⟨cols, h⟩ ∧ ix' = ⟨cols, h'⟩ ∧ Represents h m ∧ Represents h' m

/-- Indexes on the same columns that are exact for the same rows hold the same pairs. -/
theorem Index.Exact.sameMap {ix ix' : Index} {rows : Rows} (h : ix.Exact rows) (h' : ix'.Exact rows)
    (hcols : ix'.cols = ix.cols) : ix.SameMap ix' := by
  obtain ⟨cols, handle⟩ := ix
  obtain ⟨cols', handle'⟩ := ix'
  obtain rfl : cols' = cols := hcols
  obtain ⟨m, hrep, hm⟩ := h
  obtain ⟨m', hrep', hm'⟩ := h'
  have hsame : m = m' := by
    apply Finmap.ext_lookup
    intro key
    apply Option.ext
    intro rid
    exact (hm key rid).trans (hm' key rid).symm
  exact ⟨cols', handle, handle', m, rfl, rfl, hrep, hsame ▸ hrep'⟩

theorem AllExact.sameMap {metas : List IndexMeta} {ixs ixs' : List Index} {rows : Rows}
    (h : AllExact metas ixs rows) (h' : AllExact metas ixs' rows) : List.Forall₂ Index.SameMap ixs ixs' := by
  induction ixs generalizing metas ixs' with
  | nil =>
    obtain ⟨rfl, -⟩ := h
    rw [List.map_eq_nil_iff.mp h'.1]
    exact .nil
  | cons ix ixs ih =>
    obtain ⟨rfl, hall⟩ := h
    cases ixs' with
    | nil => cases h'.1
    | cons ix' ixs' =>
      obtain ⟨⟨hcols, hexact⟩, hall'⟩ := allExact_cons_iff.mp h'
      exact .cons ((hall ix List.mem_cons_self).sameMap hexact hcols)
        (ih ⟨rfl, fun x hx => hall x (List.mem_cons_of_mem _ hx)⟩ hall')

/-- The session after `INSERT INTO t VALUES (1)` and `INSERT INTO t VALUES (2)`. -/
def twoInts : Session :=
  match (insertInt 1).exec intSession with
  | .ok _ s =>
    match (insertInt 2).exec s with
    | .ok _ s => s
    | .error _ s => s
  | .error _ s => s

theorem twoInts_reached : Reaches intSession twoInts :=
  .ok (insertInt 2) (.ok (insertInt 1) .refl trivial rfl) trivial rfl

end Rmdb
