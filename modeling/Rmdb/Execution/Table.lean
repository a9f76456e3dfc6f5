-- SUMMARY: A table with its indexes, the loops that change one row's entries in all of them, and exact indexes.
import Rmdb.Common.Value
import Rmdb.Index.Refinement

/-!
# Tables and their indexes

A table is a record file and any number of unique indexes on it. An index is exact for a
set of rows when it holds the key of each row with the row's rid, and nothing else. The
executors move all indexes from one set of rows to the next, one entry at a time; the
lemmas here say what one entry in one index does, and what the loop over all indexes does.
-/

namespace Rmdb

-- ---------------------------------------------------------------------------
-- Keys
-- ---------------------------------------------------------------------------

/-- The columns of an index: for each its offset in the record, and its type. -/
abbrev IndexMeta := List (Nat × IxCol)

/-- The loop that builds a key out of a record. -/
def keyBytes : IndexMeta → RmRecord → List UInt8
  | [], _ => []
  | (offset, col) :: cols, r => slice r offset col.len ++ keyBytes cols r

theorem keyBytes_length (cols : IndexMeta) (r : RmRecord) :
    (keyBytes cols r).length = colTotLen (cols.map Prod.snd) := by
  induction cols with
  | nil => rfl
  | cons c cols ih => simp [keyBytes, ih]

/-- The key of a record in an index on these columns. -/
def IndexMeta.key (cols : IndexMeta) (r : RmRecord) : KeyBytes (cols.map Prod.snd) :=
  ⟨keyBytes cols r, keyBytes_length cols r⟩

/-- An index of a table, with the handle of its file. -/
structure Index where
  cols : IndexMeta
  handle : IxIndexHandle (KeyBytes (cols.map Prod.snd))

/-- A table: `cols` of its `TabMeta`, its record file and its indexes. -/
structure Table where
  cols : List ColMeta
  file : RmFileHandle
  indexes : List Index

-- ---------------------------------------------------------------------------
-- Loops over the indexes
-- ---------------------------------------------------------------------------

namespace Index

def key (ix : Index) (r : RmRecord) : KeyBytes (ix.cols.map Prod.snd) := ix.cols.key r

def isExist (ix : Index) (r : RmRecord) : Except IxError Bool := ix.handle.isExist (ix.key r)

def insertEntry (ix : Index) (r : RmRecord) (rid : Rid) : Except IxError Index := do
  let (_, handle) ← ix.handle.insertEntry (ix.key r) rid
  return { ix with handle := handle }

def deleteEntry (ix : Index) (r : RmRecord) : Except IxError Index := do
  let handle ← ix.handle.deleteEntry (ix.key r)
  return { ix with handle := handle }

end Index

/-- The check of `InsertExecutor::Next`: is the key of the record in one of the indexes? -/
def existsKey (r : RmRecord) : List Index → Except IxError Bool
  | [] => .ok false
  | ix :: ixs => do
    let b ← ix.isExist r
    if b then return true else existsKey r ixs

/-- Delete the key of a record from every index. -/
def deleteKeys (r : RmRecord) : List Index → Except IxError (List Index)
  | [] => .ok []
  | ix :: ixs => do
    let ix ← ix.deleteEntry r
    let ixs ← deleteKeys r ixs
    return ix :: ixs

/-- Insert the key of a record into one index after the other, up to the first that throws
`IndexEntryNotUniqueError`. The result is the indexes that have the new entry and the
indexes that were not reached. -/
def insertKeys (r : RmRecord) (rid : Rid) : List Index → Except IxError (List Index × List Index)
  | [] => .ok ([], [])
  | ix :: ixs =>
    match ix.insertEntry r rid with
    | .ok ix => do
      let (done, rest) ← insertKeys r rid ixs
      return (ix :: done, rest)
    | .error .indexEntryNotUnique => .ok ([], ix :: ixs)
    | .error e => .error e

-- ---------------------------------------------------------------------------
-- Exact indexes
-- ---------------------------------------------------------------------------

/-- A set of rows. -/
abbrev Rows := Rid → Option RmRecord

/-- A row of the set has this key. -/
def Rows.HasKey (rows : Rows) (cols : IndexMeta) (key : KeyBytes (cols.map Prod.snd)) : Prop :=
  ∃ rid r, rows rid = some r ∧ cols.key r = key

/-- The index holds the pairs (key, rid) of the rows, and no others. -/
def Index.Exact (ix : Index) (rows : Rows) : Prop :=
  ∃ m, Represents ix.handle m ∧
    ∀ key rid, Finmap.lookup key m = some rid ↔ ∃ r, rows rid = some r ∧ ix.cols.key r = key

/-- The indexes on these columns, each exact. -/
def AllExact (metas : List IndexMeta) (ixs : List Index) (rows : Rows) : Prop :=
  ixs.map Index.cols = metas ∧ ∀ ix ∈ ixs, ix.Exact rows

/-- No two rows share a key. -/
def Rows.Unique (rows : Rows) (cols : IndexMeta) : Prop :=
  ∀ rid rid' r r', rows rid = some r → rows rid' = some r' → cols.key r = cols.key r' → rid = rid'

variable {ix : Index} {ixs : List Index} {metas metas' : List IndexMeta} {rows : Rows} {rid : Rid} {r : RmRecord}

/-- `delete_entry` on its own. -/
theorem Represents.deleteEntry {K : Type} [IxKey K] {h : IxIndexHandle K} {m : KeyMap K} (hr : Represents h m)
    (key : K) : ∃ h', h.deleteEntry key = .ok h' ∧ Represents h' (Finmap.erase key m) := by
  obtain ⟨h', hcode, hr', -⟩ := hr.call (.deleteEntry key)
  refine ⟨h', ?_, hr'⟩
  cases hd : h.deleteEntry key with
  | error e => simp [IxIndexHandle.call, hd] at hcode
  | ok h₀ => simpa [IxIndexHandle.call, hd, KeyMap.call] using hcode

theorem Index.Exact.unique (h : ix.Exact rows) : rows.Unique ix.cols := by
  obtain ⟨m, -, hm⟩ := h
  intro rid rid' r r' hr hr' hkey
  have h₁ := (hm (ix.cols.key r) rid).mpr ⟨r, hr, rfl⟩
  have h₂ := (hm (ix.cols.key r) rid').mpr ⟨r', hr', hkey.symm⟩
  exact Option.some.inj (h₁.symm.trans h₂)

theorem Index.Exact.mem_iff {m : KeyMap (KeyBytes (ix.cols.map Prod.snd))}
    (hm : ∀ key rid, Finmap.lookup key m = some rid ↔ ∃ r, rows rid = some r ∧ ix.cols.key r = key)
    (key : KeyBytes (ix.cols.map Prod.snd)) : key ∈ m ↔ rows.HasKey ix.cols key := by
  rw [Finmap.mem_iff]
  exact exists_congr fun rid => hm key rid

theorem Index.Exact.isExist (h : ix.Exact rows) (r : RmRecord) :
    ∃ b, ix.isExist r = .ok b ∧ (b = true ↔ rows.HasKey ix.cols (ix.cols.key r)) := by
  obtain ⟨m, ⟨L, up, ht, hL⟩, hm⟩ := h
  refine ⟨_, isExist_eq ht hL (ix.key r), ?_⟩
  rw [decide_eq_true_iff]
  exact mem_iff hm (ix.cols.key r)

/-- What `get_value` finds in an exact index. -/
theorem Index.Exact.getValue (h : ix.Exact rows) (key : KeyBytes (ix.cols.map Prod.snd)) :
    ∃ rid? : Option Rid, ix.handle.getValue key = .ok rid?.toList ∧
      ∀ rid, rid? = some rid ↔ ∃ r, rows rid = some r ∧ ix.cols.key r = key := by
  obtain ⟨m, ⟨L, up, ht, hL⟩, hm⟩ := h
  exact ⟨_, getValue_eq ht hL key, hm key⟩

/-- One row less. -/
theorem Index.Exact.deleteEntry (h : ix.Exact rows) (hr : rows rid = some r) :
    ∃ ix', ix.deleteEntry r = .ok ix' ∧ ix'.cols = ix.cols ∧
      ix'.Exact (Function.update rows rid none) := by
  have huniq := h.unique
  obtain ⟨m, hrep, hm⟩ := h
  obtain ⟨h', hdel, hrep'⟩ := hrep.deleteEntry (ix.key r)
  refine ⟨⟨ix.cols, h'⟩, by simp [Index.deleteEntry, hdel], rfl, Finmap.erase (ix.key r) m, hrep', ?_⟩
  intro key rid'
  by_cases hkey : key = ix.key r
  · subst hkey
    rw [Finmap.lookup_erase]
    refine iff_of_false (by simp) ?_
    rintro ⟨r', hr', hk⟩
    by_cases hrid : rid' = rid
    · simp [hrid] at hr'
    · rw [Function.update_of_ne hrid] at hr'
      exact hrid (huniq rid' rid r' r hr' hr hk)
  · rw [Finmap.lookup_erase_ne hkey, hm]
    refine exists_congr fun r' => ?_
    by_cases hrid : rid' = rid
    · subst hrid
      simp only [hr, Function.update_self, Option.some.injEq, reduceCtorEq, false_and, iff_false]
      rintro ⟨rfl, hk⟩
      exact hkey hk.symm
    · rw [Function.update_of_ne hrid]

/-- `delete_entry` does nothing with a key that no row has. -/
theorem Index.Exact.deleteEntry_absent (h : ix.Exact rows)
    (habs : ¬ rows.HasKey ix.cols (ix.cols.key r)) :
    ∃ ix', ix.deleteEntry r = .ok ix' ∧ ix'.cols = ix.cols ∧ ix'.Exact rows := by
  obtain ⟨m, hrep, hm⟩ := h
  have hkey : ix.key r ∉ m := fun hmem => habs ((mem_iff hm _).mp hmem)
  obtain ⟨h', hdel, hrep'⟩ := hrep.deleteEntry (ix.key r)
  refine ⟨⟨ix.cols, h'⟩, by simp [Index.deleteEntry, hdel], rfl, _, hrep', ?_⟩
  intro key rid
  rw [← hm key rid]
  by_cases hk : key = ix.key r
  · subst hk
    rw [Finmap.lookup_erase, Finmap.lookup_eq_none.mpr hkey]
  · rw [Finmap.lookup_erase_ne hk]

/-- One row more, with a key that no row has. -/
theorem Index.Exact.insertEntry_absent (h : ix.Exact rows) (hr : rows rid = none)
    (habs : ¬ rows.HasKey ix.cols (ix.cols.key r)) :
    ∃ ix', ix.insertEntry r rid = .ok ix' ∧ ix'.cols = ix.cols ∧
      ix'.Exact (Function.update rows rid (some r)) := by
  obtain ⟨m, hrep, hm⟩ := h
  have hkey : ix.key r ∉ m := fun hmem => habs ((mem_iff hm _).mp hmem)
  obtain ⟨h', hcode, hrep', -⟩ := hrep.call (.insertEntry (ix.key r) rid)
  have hins : ∃ p, ix.handle.insertEntry (ix.key r) rid = .ok (p, h') := by
    cases hd : ix.handle.insertEntry (ix.key r) rid with
    | error e => cases e <;> simp [IxIndexHandle.call, hd, KeyMap.call, hkey] at hcode
    | ok x =>
      obtain ⟨p, h₀⟩ := x
      exact ⟨p, by simpa [IxIndexHandle.call, hd, KeyMap.call, hkey] using hcode⟩
  obtain ⟨p, hins⟩ := hins
  simp only [KeyMap.call, hkey, if_false] at hrep'
  refine ⟨⟨ix.cols, h'⟩, by simp [Index.insertEntry, hins], rfl, _, hrep', ?_⟩
  intro key rid'
  by_cases hk : key = ix.key r
  · subst hk
    rw [Finmap.lookup_insert, Option.some.injEq]
    constructor
    · rintro rfl
      exact ⟨r, by simp, rfl⟩
    · rintro ⟨r', hr', hk⟩
      by_contra hne
      rw [Function.update_of_ne (Ne.symm hne)] at hr'
      exact habs ⟨rid', r', hr', hk⟩
  · rw [Finmap.lookup_insert_of_ne _ hk, hm]
    refine exists_congr fun r' => ?_
    by_cases hrid : rid' = rid
    · subst hrid
      simp only [hr, Function.update_self, Option.some.injEq, reduceCtorEq, false_and, false_iff]
      rintro ⟨rfl, hk'⟩
      exact hk hk'.symm
    · rw [Function.update_of_ne hrid]

theorem Index.Exact.insertEntry_present (h : ix.Exact rows)
    (hkey : rows.HasKey ix.cols (ix.cols.key r)) (rid : Rid) :
    ix.insertEntry r rid = .error .indexEntryNotUnique := by
  obtain ⟨m, ⟨L, up, ht, hL⟩, hm⟩ := h
  have hmem : ix.key r ∈ m := (mem_iff hm _).mpr hkey
  have hcode : ix.handle.insertEntry (ix.key r) rid = .error .indexEntryNotUnique :=
    ht.insertEntry_present ((mem_iff_exists hL).mp hmem)
  simp [Index.insertEntry, hcode]

-- ---------------------------------------------------------------------------
-- All indexes
-- ---------------------------------------------------------------------------

theorem allExact_nil : AllExact [] [] rows := ⟨rfl, by simp⟩

theorem allExact_cons_iff {cols : IndexMeta} : AllExact (cols :: metas) (ix :: ixs) rows ↔
    (ix.cols = cols ∧ ix.Exact rows) ∧ AllExact metas ixs rows := by
  simp only [AllExact, List.map_cons, List.cons.injEq, List.forall_mem_cons]
  tauto

theorem AllExact.append {ixs' : List Index} (h : AllExact metas ixs rows)
    (h' : AllExact metas' ixs' rows) : AllExact (metas ++ metas') (ixs ++ ixs') rows := by
  refine ⟨by rw [List.map_append, h.1, h'.1], ?_⟩
  intro ix hix
  rcases List.mem_append.mp hix with hix | hix
  · exact h.2 ix hix
  · exact h'.2 ix hix

theorem AllExact.unique (h : AllExact metas ixs rows) {cols : IndexMeta} (hcols : cols ∈ metas) :
    rows.Unique cols := by
  rw [← h.1] at hcols
  obtain ⟨ix, hix, rfl⟩ := List.mem_map.mp hcols
  exact (h.2 ix hix).unique

theorem AllExact.existsKey (h : AllExact metas ixs rows) (r : RmRecord) :
    ∃ b, existsKey r ixs = .ok b ∧ (b = true ↔ ∃ cols ∈ metas, rows.HasKey cols (cols.key r)) := by
  induction ixs generalizing metas with
  | nil =>
    obtain ⟨rfl, -⟩ := h
    exact ⟨false, rfl, by simp⟩
  | cons ix ixs ih =>
    obtain ⟨rfl, hall⟩ := h
    obtain ⟨b, hcode, hb⟩ := (hall ix List.mem_cons_self).isExist r
    cases b with
    | true => exact ⟨true, by simp [Rmdb.existsKey, hcode], by simpa using .inl (hb.mp rfl)⟩
    | false =>
      obtain ⟨b', hcode', hb'⟩ := ih ⟨rfl, fun ix hix => hall ix (List.mem_cons_of_mem _ hix)⟩
      refine ⟨b', by simp [Rmdb.existsKey, hcode, hcode'], ?_⟩
      rw [hb']
      simp only [Bool.false_eq_true, false_iff] at hb
      simp [hb]

theorem AllExact.deleteKeys (h : AllExact metas ixs rows) (hr : rows rid = some r) :
    ∃ ixs', deleteKeys r ixs = .ok ixs' ∧ AllExact metas ixs' (Function.update rows rid none) := by
  induction ixs generalizing metas with
  | nil =>
    obtain ⟨rfl, -⟩ := h
    exact ⟨[], rfl, allExact_nil⟩
  | cons ix ixs ih =>
    obtain ⟨rfl, hall⟩ := h
    obtain ⟨ix', hcode, hcols, hexact⟩ := (hall ix List.mem_cons_self).deleteEntry hr
    obtain ⟨ixs', hcode', hall'⟩ := ih ⟨rfl, fun ix hix => hall ix (List.mem_cons_of_mem _ hix)⟩
    exact ⟨ix' :: ixs', by simp [Rmdb.deleteKeys, hcode, hcode'],
      allExact_cons_iff.mpr ⟨⟨hcols, hexact⟩, hall'⟩⟩

theorem AllExact.deleteKeys_absent (h : AllExact metas ixs rows)
    (habs : ∀ cols ∈ metas, ¬ rows.HasKey cols (cols.key r)) :
    ∃ ixs', Rmdb.deleteKeys r ixs = .ok ixs' ∧ AllExact metas ixs' rows := by
  induction ixs generalizing metas with
  | nil =>
    obtain ⟨rfl, -⟩ := h
    exact ⟨[], rfl, allExact_nil⟩
  | cons ix ixs ih =>
    obtain ⟨rfl, hall⟩ := h
    obtain ⟨ix', hcode, hcols, hexact⟩ := (hall ix List.mem_cons_self).deleteEntry_absent
      (habs ix.cols List.mem_cons_self)
    obtain ⟨ixs', hcode', hall'⟩ := ih ⟨rfl, fun ix hix => hall ix (List.mem_cons_of_mem _ hix)⟩
      fun cols hcols => habs cols (List.mem_cons_of_mem _ hcols)
    exact ⟨ix' :: ixs', by simp [Rmdb.deleteKeys, hcode, hcode'],
      allExact_cons_iff.mpr ⟨⟨hcols, hexact⟩, hall'⟩⟩

/-- The loop of insertions reaches its end, or it stops at an index that has the key. -/
theorem AllExact.insertKeys (h : AllExact metas ixs rows) (hr : rows rid = none) (r : RmRecord) :
    ∃ done rest m₁ m₂, insertKeys r rid ixs = .ok (done, rest) ∧ metas = m₁ ++ m₂ ∧
      AllExact m₁ done (Function.update rows rid (some r)) ∧ AllExact m₂ rest rows ∧
      (rest = [] ↔ ∀ cols ∈ metas, ¬ rows.HasKey cols (cols.key r)) := by
  induction ixs generalizing metas with
  | nil =>
    obtain ⟨rfl, -⟩ := h
    exact ⟨[], [], [], [], rfl, rfl, allExact_nil, allExact_nil, by simp⟩
  | cons ix ixs ih =>
    obtain ⟨rfl, hall⟩ := h
    have hix := hall ix List.mem_cons_self
    by_cases hkey : rows.HasKey ix.cols (ix.cols.key r)
    · refine ⟨[], ix :: ixs, [], _, ?_, rfl, allExact_nil, ⟨rfl, hall⟩, ?_⟩
      · simp [Rmdb.insertKeys, hix.insertEntry_present hkey]
      · simp [hkey]
    · obtain ⟨ix', hcode, hcols, hexact⟩ := hix.insertEntry_absent hr hkey
      obtain ⟨done, rest, m₁, m₂, hcode', hm, hdone, hrest, hend⟩ :=
        ih ⟨rfl, fun ix hix => hall ix (List.mem_cons_of_mem _ hix)⟩
      refine ⟨ix' :: done, rest, ix.cols :: m₁, m₂, ?_, ?_, allExact_cons_iff.mpr ⟨⟨hcols, hexact⟩, hdone⟩,
        hrest, ?_⟩
      · simp [Rmdb.insertKeys, hcode, hcode']
      · simp [hm]
      · rw [hend]
        simp [hkey]

/-- The loop when no row has one of the keys. -/
theorem AllExact.insertKeys_absent (h : AllExact metas ixs rows) (hr : rows rid = none)
    (habs : ∀ cols ∈ metas, ¬ rows.HasKey cols (cols.key r)) :
    ∃ ixs', Rmdb.insertKeys r rid ixs = .ok (ixs', []) ∧
      AllExact metas ixs' (Function.update rows rid (some r)) := by
  obtain ⟨done, rest, m₁, m₂, hcode, rfl, hdone, hrest, hend⟩ := h.insertKeys hr r
  obtain rfl : rest = [] := hend.mpr habs
  obtain rfl : m₂ = [] := hrest.1.symm
  exact ⟨done, hcode, by simpa using hdone⟩

end Rmdb
