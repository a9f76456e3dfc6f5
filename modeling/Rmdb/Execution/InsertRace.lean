-- SUMMARY: In which interleavings of `INSERT`s the unique indexes and the table stay in agreement.
import Rmdb.Execution.Inserts

/-!
# Unique indexes under concurrent inserts

The uniqueness check and the entry of the key are different steps, and IX locks do not exclude
each other, so two transactions can both find a key missing. As long as no check falls between
the check and the entry of the same key by another transaction, every index is exact for the
rows that it has been told of, and these are all rows that nobody is at work on.
-/

namespace Rmdb

namespace InsertPc

/-- The row of the table that the transaction is at work on. -/
def row : InsertPc → Option (Rid × RmRecord)
  | placed r rid | entering r rid _ | undoing rid r _ => some (rid, r)
  | _ => none

/-- The last row of the write set may be missing in index `i`. -/
def lacks (i : Nat) : InsertPc → Prop
  | placed _ _ | aborting | undoing _ _ _ => True
  | entering _ _ j => j ≤ i
  | _ => False

/-- The last row of the write set is not in index `i`. -/
def without (i : Nat) : InsertPc → Prop
  | placed _ _ => True
  | entering _ _ j => j ≤ i
  | undoing _ _ j => i < j
  | _ => False

/-- The transaction is being rolled back. -/
def takesBack : InsertPc → Prop
  | aborting | undoing _ _ _ => True
  | _ => False

end InsertPc

namespace Inserts

variable {s s' : Inserts} {metas : List IndexMeta} {keyed : Nat → Rows}

/-- The invariant. `keyed i` are the rows that index `i` has been told of. -/
structure Inv (metas : List IndexMeta) (s : Inserts) (keyed : Nat → Rows) : Prop where
  file : ∃ chain, s.table.file.Ok chain
  cols : s.table.indexes.map Index.cols = metas
  exact : ∀ (i : Nat) (ix : Index), s.table.indexes[i]? = some ix → ix.Exact (keyed i)
  sub : ∀ i rid r, keyed i rid = some r → s.table.file.lookup rid = some r
  writes : ∀ t rid r, (rid, r) ∈ s.writeSet t → s.table.file.lookup rid = some r
  writes_one : ∀ t u rid r r', (rid, r) ∈ s.writeSet t → (rid, r') ∈ s.writeSet u → t = u
  writes_nodup : ∀ t, ((s.writeSet t).map Prod.fst).Nodup
  row : ∀ t rid r, (s.pc t).row = some (rid, r) → (s.writeSet t).head? = some (rid, r)
  hidden : ∀ i rid r, i < metas.length → s.table.file.lookup rid = some r → keyed i rid = none →
    ∃ t, (s.writeSet t).head? = some (rid, r) ∧ (s.pc t).lacks i
  without : ∀ i t rid r, (s.pc t).row = some (rid, r) → (s.pc t).without i → keyed i rid = none
  apart : ∀ i cols t u r r', metas[i]? = some cols → s.inFlight t i = some r →
    s.inFlight u i = some r' → cols.key r = cols.key r' → t = u
  /-- Only a transaction that is rolled back has a key in flight that is in the index. -/
  only : ∀ i cols t r rid r', metas[i]? = some cols → s.inFlight t i = some r →
    keyed i rid = some r' → cols.key r' = cols.key r →
      (s.pc t).takesBack ∧ (s.writeSet t).head? = some (rid, r')

theorem Inv.start {table : Table} (h : table.Agrees) (fd : Int) :
    Inv (table.indexes.map Index.cols) (start table fd) fun _ => table.file.lookup where
  file := h.1
  cols := rfl
  exact _ ix hix := h.2 ix (List.mem_of_getElem? hix)
  sub _ _ _ hr := hr
  writes _ _ _ hmem := nomatch hmem
  writes_one _ _ _ _ _ hmem := nomatch hmem
  writes_nodup _ := List.nodup_nil
  row _ _ _ hrow := nomatch hrow
  hidden _ _ _ _ hr hnone := nomatch hr.symm.trans hnone
  without _ _ _ _ hrow := nomatch hrow
  apart _ _ _ _ _ _ _ ht := nomatch ht
  only _ _ _ _ _ _ _ ht := nomatch ht

variable {t : TxnId} {r : RmRecord} {rid : Rid} {i : Nat}

theorem Inv.cols_at (h : Inv metas s keyed) {ix : Index} (hix : s.table.indexes[i]? = some ix) :
    metas[i]? = some ix.cols := by
  rw [← h.cols, List.getElem?_map, hix, Option.map_some]

theorem Inv.index_at (h : Inv metas s keyed) {cols : IndexMeta} (hcols : metas[i]? = some cols) :
    ∃ ix, s.table.indexes[i]? = some ix ∧ ix.cols = cols := by
  rw [← h.cols, List.getElem?_map, Option.map_eq_some_iff] at hcols
  exact hcols

/-- Two rows of an index do not have the same key. -/
theorem Inv.keyed_unique (h : Inv metas s keyed) {cols : IndexMeta} (hcols : metas[i]? = some cols)
    {rid' : Rid} {r' : RmRecord} (hr : keyed i rid = some r) (hr' : keyed i rid' = some r')
    (hkey : cols.key r = cols.key r') : rid = rid' := by
  obtain ⟨ix, hix, rfl⟩ := h.index_at hcols
  exact (h.exact i ix hix).unique rid rid' r r' hr hr' hkey

/-- The rows of the write set are in the indexes, except where the transaction is at work. -/
theorem Inv.keyed_of_write (h : Inv metas s keyed) (hi : i < metas.length)
    (hmem : (rid, r) ∈ s.writeSet t)
    (hdone : (s.writeSet t).head? = some (rid, r) → ¬ (s.pc t).lacks i) :
    keyed i rid = some r := by
  have hrow := h.writes t rid r hmem
  cases hk : keyed i rid with
  | some r' => rw [← hrow, h.sub i rid r' hk]
  | none =>
    obtain ⟨u, hhead, hlacks⟩ := h.hidden i rid r hi hrow hk
    obtain rfl := h.writes_one t u rid r r hmem (List.mem_of_mem_head? hhead)
    exact absurd hlacks (hdone hhead)

-- ---------------------------------------------------------------------------
-- Steps that leave the table alone
-- ---------------------------------------------------------------------------

theorem inFlight_of_ne {s s' : Inserts} {u : TxnId} (hpc : s'.pc u = s.pc u)
    (hws : s'.writeSet u = s.writeSet u) (i : Nat) : s'.inFlight u i = s.inFlight u i := by
  simp only [inFlight, hpc, hws]

/-- What the key that the transaction has in flight at index `i` has to be. -/
def MayFly (metas : List IndexMeta) (s : Inserts) (keyed : Nat → Rows) (t : TxnId) (c : InsertPc)
    (i : Nat) (r : RmRecord) : Prop :=
  ∀ cols, metas[i]? = some cols →
    (∀ u r', u ≠ t → s.inFlight u i = some r' → cols.key r ≠ cols.key r') ∧
    (∀ rid r', keyed i rid = some r' → cols.key r' = cols.key r →
      c.takesBack ∧ (s.writeSet t).head? = some (rid, r'))

/-- The key that was in flight still may be. -/
theorem Inv.mayFly (h : Inv metas s keyed) {c : InsertPc} (hr : s.inFlight t i = some r)
    (hback : (s.pc t).takesBack → c.takesBack) : MayFly metas s keyed t c i r := by
  intro cols hcols
  refine ⟨fun u r' hu hr' hkey => hu (h.apart i cols t u r r' hcols hr hr' hkey).symm, ?_⟩
  intro rid r' hrid hkey
  obtain ⟨htakes, hhead⟩ := h.only i cols t r rid r' hcols hr hrid hkey
  exact ⟨hback htakes, hhead⟩

/-- Nobody else has the key of a row of the write set that is in the index. -/
theorem Inv.key_ne_of_keyed (h : Inv metas s keyed) {cols : IndexMeta} (hcols : metas[i]? = some cols)
    (hr : keyed i rid = some r) (hmem : (rid, r) ∈ s.writeSet t) {u : TxnId} {r' : RmRecord} (hu : u ≠ t)
    (hr' : s.inFlight u i = some r') : cols.key r ≠ cols.key r' := by
  intro hkey
  obtain ⟨-, hhead⟩ := h.only i cols u r' rid r hcols hr' hr hkey
  exact hu (h.writes_one u t rid r r (List.mem_of_mem_head? hhead) hmem)

/-- The key of a row of the index is the row's alone. -/
theorem Inv.mayFly_of_keyed (h : Inv metas s keyed) {c : InsertPc} (hr : keyed i rid = some r)
    (hhead : (s.writeSet t).head? = some (rid, r)) (hback : c.takesBack) :
    MayFly metas s keyed t c i r := by
  intro cols hcols
  constructor
  · intro u r' hu hr'
    exact h.key_ne_of_keyed hcols hr (List.mem_of_mem_head? hhead) hu hr'
  · intro rid' r' hr' hkey
    obtain rfl := h.keyed_unique hcols hr' hr hkey
    obtain rfl := Option.some.inj (hr'.symm.trans hr)
    exact ⟨hback, hhead⟩

theorem Inv.move (h : Inv metas s keyed) (c : InsertPc) (locks : LockState)
    (hrow : ∀ rid r, c.row = some (rid, r) → (s.writeSet t).head? = some (rid, r))
    (hlacks : ∀ i, i < metas.length → (s.pc t).lacks i → c.lacks i)
    (hwithout : ∀ i rid r, c.row = some (rid, r) → c.without i → keyed i rid = none)
    (hflight : ∀ i r, i < metas.length → (s.goTo t c).inFlight t i = some r →
      MayFly metas s keyed t c i r) :
    Inv metas { s.goTo t c with locks := locks } keyed := by
  have hother : ∀ u, u ≠ t → ∀ i, ({ s.goTo t c with locks := locks } : Inserts).inFlight u i =
      s.inFlight u i := by
    intro u hu i
    apply inFlight_of_ne
    · simp [goTo, hu]
    · rfl
  have hsame : ∀ i, ({ s.goTo t c with locks := locks } : Inserts).inFlight t i =
      (s.goTo t c).inFlight t i := fun i => rfl
  have hlt : ∀ (i : Nat) (cols : IndexMeta), metas[i]? = some cols → i < metas.length :=
    fun i cols hcols => (List.getElem?_eq_some_iff.mp hcols).1
  refine { h with row := ?_, hidden := ?_, without := ?_, apart := ?_, only := ?_ }
  · intro u rid r hu
    by_cases hut : u = t
    · subst hut
      exact hrow rid r (by simpa [goTo] using hu)
    · exact h.row u rid r (by simpa [goTo, hut] using hu)
  · intro i rid r hi hr hnone
    obtain ⟨u, hhead, hu⟩ := h.hidden i rid r hi hr hnone
    refine ⟨u, hhead, ?_⟩
    by_cases hut : u = t
    · subst hut
      simpa [goTo] using hlacks i hi hu
    · simpa [goTo, hut] using hu
  · intro i u rid r hu
    by_cases hut : u = t
    · subst hut
      simpa [goTo] using hwithout i rid r (by simpa [goTo] using hu)
    · simpa [goTo, hut] using h.without i u rid r (by simpa [goTo, hut] using hu)
  · intro i cols u v r r' hcols hu hv hkey
    by_cases hut : u = t <;> by_cases hvt : v = t
    · rw [hut, hvt]
    · subst hut
      rw [hother v hvt] at hv
      exact absurd hkey ((hflight i r (hlt i cols hcols) hu cols hcols).1 v r' hvt hv)
    · subst hvt
      rw [hother u hut] at hu
      exact absurd hkey.symm ((hflight i r' (hlt i cols hcols) hv cols hcols).1 u r hut hu)
    · rw [hother u hut] at hu
      rw [hother v hvt] at hv
      exact h.apart i cols u v r r' hcols hu hv hkey
  · intro i cols u r rid r' hcols hu hrid hkey
    by_cases hut : u = t
    · subst hut
      simpa [goTo] using (hflight i r (hlt i cols hcols) hu cols hcols).2 rid r' hrid hkey
    · rw [hother u hut] at hu
      simpa [goTo, hut] using h.only i cols u r rid r' hcols hu hrid hkey

/-- A rollback begins in a transaction all of whose rows are in the indexes. -/
theorem Inv.abort (h : Inv metas s keyed) (locks : LockState)
    (hdone : ∀ i, i < metas.length → ¬ (s.pc t).lacks i) :
    Inv metas { s.goTo t .aborting with locks := locks } keyed := by
  refine h.move .aborting locks (fun _ _ hrow => nomatch hrow) (fun _ _ _ => trivial)
    (fun _ _ _ hrow => nomatch hrow) fun i r hi hr => ?_
  simp only [inFlight, goTo, Function.update_self, Option.map_eq_some_iff] at hr
  obtain ⟨⟨rid, r⟩, hhead, rfl⟩ := hr
  have hk := h.keyed_of_write hi (List.mem_of_mem_head? hhead) fun _ => hdone i hi
  exact h.mayFly_of_keyed hk hhead trivial

/-- The statement ends. -/
theorem Inv.toIdle (h : Inv metas s keyed) (hdone : ∀ i, i < metas.length → ¬ (s.pc t).lacks i) :
    Inv metas (s.goTo t .idle) keyed :=
  h.move .idle s.locks (fun _ _ hrow => nomatch hrow) (fun i hi hl => absurd hl (hdone i hi))
    (fun _ _ _ hrow => nomatch hrow) fun i r _ hr => by simp [inFlight, goTo] at hr

theorem Inv.lock (o : LockOutcome) {c : InsertPc}
    (habort : ∀ locks, Inv metas { s.goTo t .aborting with locks := locks } keyed)
    (hgo : ∀ locks, Inv metas { s.goTo t c with locks := locks } keyed) :
    Inv metas (s.lock t o c).2 keyed := by
  simp only [Inserts.lock]
  split
  · exact hgo _
  · exact habort _

theorem Inv.check (h : Inv metas s keyed) (hpc : s.pc t = .checking r i) {ix : Index}
    (hix : s.table.indexes[i]? = some ix) (hexist : ix.isExist r = .ok false)
    (hover : s.NoOverlap t .resume) : Inv metas (s.goTo t (.checking r (i + 1))) keyed := by
  refine h.move _ s.locks (fun _ _ hrow => nomatch hrow) (fun i hi hl => ?_)
    (fun _ _ _ hrow => nomatch hrow) fun j r' hj hr' => ?_
  · simp [hpc, InsertPc.lacks] at hl
  · simp only [inFlight, goTo, Function.update_self, Option.ite_none_right_eq_some] at hr'
    obtain ⟨hjle, hr'⟩ := hr'
    obtain rfl := Option.some.inj hr'
    by_cases hji : j = i
    · -- The key that was just found missing, and that nobody else has in flight.
      subst hji
      intro cols hcols
      obtain rfl := Option.some.inj ((h.cols_at hix).symm.trans hcols)
      refine ⟨fun u r' hu hr' hkey => hover r j ix hpc hix hexist u r' hu hr' hkey.symm, ?_⟩
      intro rid r' hrid hkey
      obtain ⟨b, hb, hmem⟩ := (h.exact j ix hix).isExist r
      cases hexist.symm.trans hb
      exact absurd (hmem.mpr ⟨rid, r', hrid, hkey⟩) (by simp)
    · exact h.mayFly (by simp [inFlight, hpc]; omega) (by simp [hpc, InsertPc.takesBack])

theorem Inv.lockTable (h : Inv metas s keyed) (hpc : s.pc t = .checking r i)
    (hix : s.table.indexes[i]? = none) (o : LockOutcome) :
    Inv metas (s.lock t o (.granted r)).2 keyed := by
  have hlen : metas.length ≤ i := by
    rw [← h.cols, List.length_map]
    exact List.getElem?_eq_none_iff.mp hix
  refine Inv.lock o (fun locks => h.abort locks fun j _ => by simp [hpc, InsertPc.lacks]) fun locks => ?_
  refine h.move _ locks (fun _ _ hrow => nomatch hrow) (fun j hj hl => ?_)
    (fun _ _ _ hrow => nomatch hrow) fun j r' hj hr' => ?_
  · simp [hpc, InsertPc.lacks] at hl
  · obtain rfl : r = r' := by simpa [inFlight, goTo] using hr'
    exact h.mayFly (by simp [inFlight, hpc]; omega) (by simp [hpc, InsertPc.takesBack])

theorem Inv.lockRecord (h : Inv metas s keyed) (hpc : s.pc t = .placed r rid) (o : LockOutcome) :
    Inv metas (s.lock t o (.entering r rid 0)).2 keyed := by
  have hhead := h.row t rid r (by simp [hpc, InsertPc.row])
  have hback : ∀ c : InsertPc, (s.pc t).takesBack → c.takesBack := by simp [hpc, InsertPc.takesBack]
  have hfly : ∀ j, s.inFlight t j = some r := fun j => by simp [inFlight, hpc]
  refine Inv.lock o (fun locks => ?_) fun locks => ?_
  · refine h.move _ locks (fun _ _ hrow => nomatch hrow) (fun _ _ _ => trivial)
      (fun _ _ _ hrow => nomatch hrow) fun j r' hj hr' => ?_
    obtain rfl : r = r' := by simpa [inFlight, goTo, hhead] using hr'
    exact h.mayFly (hfly j) (hback _)
  · refine h.move _ locks ?_ (fun _ _ _ => Nat.zero_le _) ?_ fun j r' hj hr' => ?_
    · rintro _ _ ⟨⟩
      exact hhead
    · rintro j _ _ ⟨⟩ -
      exact h.without j t rid r (by simp [hpc, InsertPc.row]) (by simp [hpc, InsertPc.without])
    · obtain rfl : r = r' := by simpa [inFlight, goTo] using hr'
      exact h.mayFly (hfly j) (hback _)

theorem Inv.undo (h : Inv metas s keyed) (hpc : s.pc t = .aborting) {rest : List (Rid × RmRecord)}
    (hws : s.writeSet t = (rid, r) :: rest) : Inv metas (s.goTo t (.undoing rid r 0)) keyed := by
  refine h.move _ s.locks ?_ (fun _ _ _ => trivial) ?_ fun j r' hj hr' => ?_
  · rintro _ _ ⟨⟩
    rw [hws, List.head?_cons]
  · rintro j _ _ ⟨⟩ hlt
    exact absurd hlt (Nat.not_lt_zero j)
  · obtain rfl : r = r' := by simpa [inFlight, goTo] using hr'
    exact h.mayFly (by simp [inFlight, hpc, hws]) fun _ => trivial

-- ---------------------------------------------------------------------------
-- Steps that change the table
-- ---------------------------------------------------------------------------

theorem Inv.place (h : Inv metas s keyed) (hpc : s.pc t = .granted r) {file : RmFileHandle}
    (hins : s.table.file.insertRecord r = .ok (rid, file)) :
    Inv metas { s.goTo t (.placed r rid) with
      table := { s.table with file := file }
      writeSet := Function.update s.writeSet t ((rid, r) :: s.writeSet t) } keyed := by
  obtain ⟨chain, hok⟩ := h.file
  obtain ⟨rid', file', n₁, chain₁, hins', ⟨hnone, -⟩, hfile⟩ :=
    RmFileHandle.Holds.insertRecord ⟨hok, rfl, rfl, fun _ => rfl⟩ r
  cases hins.symm.trans hins'
  have hkeyed : ∀ j, keyed j rid = none := by
    intro j
    cases hk : keyed j rid with
    | none => rfl
    | some r' => cases hnone.symm.trans (h.sub j rid r' hk)
  have hnew : ∀ u r', (rid, r') ∉ s.writeSet u := by
    intro u r' hmem
    cases hnone.symm.trans (h.writes u rid r' hmem)
  have hfly : ∀ u j, ({ s.goTo t (.placed r rid) with
      table := { s.table with file := file }
      writeSet := Function.update s.writeSet t ((rid, r) :: s.writeSet t) } : Inserts).inFlight u j =
        s.inFlight u j := by
    intro u j
    by_cases hut : u = t
    · simp [inFlight, goTo, hut, hpc]
    · simp [inFlight, goTo, hut]
  have hlook := hfile.lookup
  obtain ⟨-, hcols, hexact, hsub, hwrites, hone, hnodup, hrow, hhidden, hwithout, hapart, honly⟩ := h
  constructor <;> simp only [hfly] <;>
    simp only [goTo, hlook, Function.update_apply] at *
  case file => exact ⟨chain₁, hfile.ok⟩
  case cols => exact hcols
  case exact => exact hexact
  case apart => exact hapart
  all_goals grind [InsertPc.row, InsertPc.lacks, InsertPc.without, InsertPc.takesBack]

/-- An index is replaced by one on the same columns. -/
theorem Inv.setIndex_cols (h : Inv metas s keyed) {ix ix' : Index}
    (hix : s.table.indexes[i]? = some ix) (hcols : ix'.cols = ix.cols) :
    (s.table.indexes.set i ix').map Index.cols = metas := by
  obtain ⟨hlt, hget⟩ := List.getElem?_eq_some_iff.mp (h.cols_at hix)
  rw [List.map_set, hcols, h.cols, ← hget, List.set_getElem_self]

/-- One index is told of a row, or that a row is gone. -/
theorem Inv.setIndex_exact (h : Inv metas s keyed) {ix ix' : Index} {rows : Rows}
    (hix : s.table.indexes[i]? = some ix) (hexact : ix'.Exact rows) (j : Nat) (ix₁ : Index)
    (hix₁ : (s.table.indexes.set i ix')[j]? = some ix₁) :
    ix₁.Exact (Function.update keyed i rows j) := by
  have hlt := (List.getElem?_eq_some_iff.mp hix).1
  by_cases hji : j = i
  · subst hji
    rw [List.getElem?_set_self hlt] at hix₁
    cases hix₁
    rwa [Function.update_self]
  · rw [List.getElem?_set_ne (Ne.symm hji)] at hix₁
    rw [Function.update_of_ne hji]
    exact h.exact j ix₁ hix₁

theorem keyed_update_of_ne {rid' : Rid} {j : Nat} {x : Option RmRecord}
    (h : ¬ (j = i ∧ rid' = rid)) :
    Function.update keyed i (Function.update (keyed i) rid x) j rid' = keyed j rid' := by
  by_cases hji : j = i
  · subst hji
    rw [Function.update_self, Function.update_of_ne fun hrid => h ⟨rfl, hrid⟩]
  · rw [Function.update_of_ne hji]

/-- Nobody else is at work on a row of the transaction. -/
theorem Inv.row_ne (h : Inv metas s keyed) (hrow : (s.writeSet t).head? = some (rid, r)) (u : TxnId)
    (rid' : Rid) (r' : RmRecord) (hu : (s.pc u).row = some (rid', r')) (hut : u ≠ t) : rid' ≠ rid := by
  rintro rfl
  have hmem := List.mem_of_mem_head? (h.row u rid' r' hu)
  exact hut (h.writes_one u t rid' r' r hmem (List.mem_of_mem_head? hrow))

theorem Inv.enter (h : Inv metas s keyed) (hpc : s.pc t = .entering r rid i) {ix : Index}
    (hix : s.table.indexes[i]? = some ix) :
    ∃ ix', ix.insertEntry r rid = .ok ix' ∧
      Inv metas ((s.setIndex i ix').goTo t (.entering r rid (i + 1)))
        (Function.update keyed i (Function.update (keyed i) rid (some r))) := by
  have hcols := h.cols_at hix
  have hnone := h.without i t rid r (by simp [hpc, InsertPc.row]) (by simp [hpc, InsertPc.without])
  have hfly : s.inFlight t i = some r := by simp [inFlight, hpc]
  have habs : ¬ Rows.HasKey (keyed i) ix.cols (ix.cols.key r) := by
    rintro ⟨rid', r', hr', hkey⟩
    have := (h.only i ix.cols t r rid' r' hcols hfly hr' hkey).1
    simp [hpc, InsertPc.takesBack] at this
  obtain ⟨ix', hcode, hcols', hexact⟩ := (h.exact i ix hix).insertEntry_absent hnone habs
  refine ⟨ix', hcode, ?_⟩
  have hfly' : ∀ u j r', ((s.setIndex i ix').goTo t (.entering r rid (i + 1))).inFlight u j = some r' →
      s.inFlight u j = some r' ∧ (j = i → u ≠ t) := by
    intro u j r' hr'
    by_cases hut : u = t
    · simp only [inFlight, goTo, setIndex, hut, Function.update_self,
        Option.ite_none_right_eq_some] at hr'
      refine ⟨?_, fun hji => by omega⟩
      simp only [inFlight, hut, hpc, Option.ite_none_right_eq_some]
      exact ⟨by omega, hr'.2⟩
    · exact ⟨by simpa [inFlight, goTo, setIndex, hut] using hr', fun _ => hut⟩
  have hrow := h.row t rid r (by simp [hpc, InsertPc.row])
  have hlook := h.writes t rid r (List.mem_of_mem_head? hrow)
  have hset := h.setIndex_cols hix hcols'
  have hexact' := h.setIndex_exact hix hexact
  have hrid := h.row_ne hrow
  obtain ⟨hfile, -, -, hsub, hwrites, hone, hnodup, hrow', hhidden, hwithout, hapart, honly⟩ := h
  constructor
  case file => exact hfile
  case cols => exact hset
  case exact => exact hexact'
  case writes => exact hwrites
  case writes_one => exact hone
  case writes_nodup => exact hnodup
  case apart =>
    intro j cols u v r₁ r₂ hcols hu hv hkey
    exact hapart j cols u v r₁ r₂ hcols (hfly' u j r₁ hu).1 (hfly' v j r₂ hv).1 hkey
  case only =>
    intro j cols u r₁ rid' r₂ hcols₁ hu hr₂ hkey
    obtain ⟨hu', hut⟩ := hfly' u j r₁ hu
    by_cases hnew : j = i ∧ rid' = rid
    · -- The new entry: whoever has its key in flight is the transaction itself.
      obtain ⟨rfl, rfl⟩ := hnew
      rw [Function.update_self, Function.update_self] at hr₂
      cases hr₂
      exact absurd (hapart j cols u t r₁ r hcols₁ hu' hfly hkey.symm) (hut rfl)
    · rw [keyed_update_of_ne hnew] at hr₂
      obtain ⟨htakes, hhead⟩ := honly j cols u r₁ rid' r₂ hcols₁ hu' hr₂ hkey
      have hne : u ≠ t := by
        rintro rfl
        simp [hpc, InsertPc.takesBack] at htakes
      exact ⟨by simpa [goTo, setIndex, hne] using htakes, hhead⟩
  all_goals
    simp only [goTo, setIndex, Function.update_apply] at *
    grind [InsertPc.row, InsertPc.lacks, InsertPc.without]

/-- `delete_entry` of the rollback takes out the entry of the transaction's own row, or none. -/
theorem Inv.deleteEntry (h : Inv metas s keyed) (hpc : s.pc t = .undoing rid r i) {ix : Index}
    (hix : s.table.indexes[i]? = some ix) :
    ∃ ix', ix.deleteEntry r = .ok ix' ∧ ix'.cols = ix.cols ∧
      ix'.Exact (Function.update (keyed i) rid none) := by
  have hhead := h.row t rid r (by simp [hpc, InsertPc.row])
  have hlook := h.writes t rid r (List.mem_of_mem_head? hhead)
  cases hk : keyed i rid with
  | some r' =>
    obtain rfl : r' = r := Option.some.inj ((h.sub i rid r' hk).symm.trans hlook)
    exact (h.exact i ix hix).deleteEntry hk
  | none =>
    have habs : ¬ Rows.HasKey (keyed i) ix.cols (ix.cols.key r) := by
      rintro ⟨rid', r', hr', hkey⟩
      have hfly : s.inFlight t i = some r := by simp [inFlight, hpc]
      have hhead' := (h.only i ix.cols t r rid' r' (h.cols_at hix) hfly hr' hkey).2
      cases hhead.symm.trans hhead'
      cases hk.symm.trans hr'
    rw [← hk, Function.update_eq_self]
    exact (h.exact i ix hix).deleteEntry_absent habs

theorem Inv.unlist (h : Inv metas s keyed) (hpc : s.pc t = .undoing rid r i) {ix ix' : Index}
    (hix : s.table.indexes[i]? = some ix) (hdel : ix.deleteEntry r = .ok ix') :
    Inv metas ((s.setIndex i ix').goTo t (.undoing rid r (i + 1)))
      (Function.update keyed i (Function.update (keyed i) rid none)) := by
  obtain ⟨ix₁, hdel₁, hcols', hexact⟩ := h.deleteEntry hpc hix
  cases hdel.symm.trans hdel₁
  have hfly' : ∀ u j r', ((s.setIndex i ix').goTo t (.undoing rid r (i + 1))).inFlight u j = some r' →
      s.inFlight u j = some r' := by
    intro u j r' hr'
    by_cases hut : u = t
    · simp only [inFlight, goTo, setIndex, hut, Function.update_self,
        Option.ite_none_right_eq_some] at hr'
      simp only [inFlight, hut, hpc, Option.ite_none_right_eq_some]
      exact ⟨by omega, hr'.2⟩
    · simpa [inFlight, goTo, setIndex, hut] using hr'
  have hkeyed : ∀ j rid' r', Function.update keyed i (Function.update (keyed i) rid none) j rid' = some r' →
      keyed j rid' = some r' := by
    intro j rid' r' hr'
    by_cases hnew : j = i ∧ rid' = rid
    · obtain ⟨rfl, rfl⟩ := hnew
      simp at hr'
    · rwa [keyed_update_of_ne hnew] at hr'
  have hrow := h.row t rid r (by simp [hpc, InsertPc.row])
  have hlook := h.writes t rid r (List.mem_of_mem_head? hrow)
  have hset := h.setIndex_cols hix hcols'
  have hexact' := h.setIndex_exact hix hexact
  obtain ⟨hfile, -, -, hsub, hwrites, hone, hnodup, hrow', hhidden, hwithout, hapart, honly⟩ := h
  constructor
  case file => exact hfile
  case cols => exact hset
  case exact => exact hexact'
  case sub => exact fun j rid' r' hr' => hsub j rid' r' (hkeyed j rid' r' hr')
  case writes => exact hwrites
  case writes_one => exact hone
  case writes_nodup => exact hnodup
  case apart =>
    intro j cols u v r₁ r₂ hcols hu hv hkey
    exact hapart j cols u v r₁ r₂ hcols (hfly' u j r₁ hu) (hfly' v j r₂ hv) hkey
  case only =>
    intro j cols u r₁ rid' r₂ hcols hu hr₂ hkey
    obtain ⟨htakes, hhead⟩ :=
      honly j cols u r₁ rid' r₂ hcols (hfly' u j r₁ hu) (hkeyed j rid' r₂ hr₂) hkey
    refine ⟨?_, hhead⟩
    by_cases hut : u = t
    · simp [goTo, hut, InsertPc.takesBack]
    · simpa [goTo, setIndex, hut] using htakes
  all_goals
    simp only [goTo, setIndex, Function.update_apply] at *
    grind [InsertPc.row, InsertPc.lacks, InsertPc.without]

/-- The row of the rollback is deleted, and its record is taken out of the write set. -/
abbrev removed (s : Inserts) (t : TxnId) (file : RmFileHandle) : Inserts :=
  { s.goTo t .aborting with
    table := { s.table with file := file }
    writeSet := Function.update s.writeSet t (s.writeSet t).tail }

theorem inFlight_removed {file : RmFileHandle} {u : TxnId} (hu : u ≠ t) (j : Nat) :
    (s.removed t file).inFlight u j = s.inFlight u j := by
  apply inFlight_of_ne
  · simp [goTo, hu]
  · simp [hu]

/-- The rest of the write set has other rows. -/
theorem Inv.mem_tail (h : Inv metas s keyed) (hhead : (s.writeSet t).head? = some (rid, r)) {rid' : Rid}
    {r' : RmRecord} (hmem : (rid', r') ∈ (s.writeSet t).tail) : (rid', r') ∈ s.writeSet t ∧ rid' ≠ rid := by
  have hnodup := h.writes_nodup t
  cases hws : s.writeSet t with
  | nil => simp [hws] at hhead
  | cons x rest =>
    rw [hws, List.head?_cons, Option.some.injEq] at hhead
    rw [hws, List.tail_cons] at hmem
    rw [hws, hhead, List.map_cons, List.nodup_cons] at hnodup
    refine ⟨List.mem_cons_of_mem _ hmem, ?_⟩
    rintro rfl
    exact hnodup.1 (List.mem_map.mpr ⟨_, hmem, rfl⟩)

/-- What is left of the write sets was there before, and is of other rows. -/
theorem Inv.mem_removed (h : Inv metas s keyed) (hhead : (s.writeSet t).head? = some (rid, r)) {u : TxnId}
    {rid' : Rid} {r' : RmRecord} (hmem : (rid', r') ∈ Function.update s.writeSet t (s.writeSet t).tail u) :
    (rid', r') ∈ s.writeSet u ∧ rid' ≠ rid := by
  by_cases hut : u = t
  · subst hut
    rw [Function.update_self] at hmem
    exact h.mem_tail hhead hmem
  · rw [Function.update_of_ne hut] at hmem
    refine ⟨hmem, ?_⟩
    rintro rfl
    exact hut (h.writes_one u t rid' r' r hmem (List.mem_of_mem_head? hhead))

/-- The next row to take back is in every index, so its key is nobody else's. -/
theorem Inv.keyed_of_next (h : Inv metas s keyed) (hhead : (s.writeSet t).head? = some (rid, r)) {file : RmFileHandle}
    (hi : i < metas.length) {r₁ : RmRecord} (hr₁ : (s.removed t file).inFlight t i = some r₁) :
    ∃ rid₁, (s.writeSet t).tail.head? = some (rid₁, r₁) ∧ (rid₁, r₁) ∈ s.writeSet t ∧ keyed i rid₁ = some r₁ := by
  simp only [inFlight, goTo, Function.update_self, Option.map_eq_some_iff] at hr₁
  obtain ⟨⟨rid₁, r₁⟩, hnext, rfl⟩ := hr₁
  obtain ⟨hmem, hne⟩ := h.mem_tail hhead (List.mem_of_mem_head? hnext)
  refine ⟨rid₁, hnext, hmem, h.keyed_of_write hi hmem fun hhead' => ?_⟩
  cases hhead.symm.trans hhead'
  exact absurd rfl hne

/-- Behind the loop over the indexes the row is in none of them. -/
theorem Inv.unlisted (h : Inv metas s keyed) (hpc : s.pc t = .undoing rid r i)
    (hix : s.table.indexes[i]? = none) {j : Nat} (hj : j < metas.length) : keyed j rid = none := by
  have hlen : metas.length ≤ i := by
    rw [← h.cols, List.length_map]
    exact List.getElem?_eq_none_iff.mp hix
  refine h.without j t rid r (by simp [hpc, InsertPc.row]) ?_
  simp only [hpc, InsertPc.without]
  omega

theorem Inv.exact_removed (h : Inv metas s keyed) (hpc : s.pc t = .undoing rid r i)
    (hix : s.table.indexes[i]? = none) {j : Nat} {ix : Index} (hj : s.table.indexes[j]? = some ix) :
    ix.Exact (Function.update (keyed j) rid none) := by
  have hlt := (List.getElem?_eq_some_iff.mp (h.cols_at hj)).1
  rw [← h.unlisted hpc hix hlt, Function.update_eq_self]
  exact h.exact j ix hj

theorem Inv.apart_removed (h : Inv metas s keyed) (hhead : (s.writeSet t).head? = some (rid, r)) {file : RmFileHandle}
    {cols : IndexMeta} (hcols : metas[i]? = some cols) {u v : TxnId} {r₁ r₂ : RmRecord}
    (hu : (s.removed t file).inFlight u i = some r₁) (hv : (s.removed t file).inFlight v i = some r₂)
    (hkey : cols.key r₁ = cols.key r₂) : u = v := by
  have hlt := (List.getElem?_eq_some_iff.mp hcols).1
  by_cases hut : u = t <;> by_cases hvt : v = t
  · rw [hut, hvt]
  · subst hut
    obtain ⟨rid₁, -, hmem, hk⟩ := h.keyed_of_next hhead hlt hu
    rw [inFlight_removed hvt] at hv
    exact absurd hkey (h.key_ne_of_keyed hcols hk hmem hvt hv)
  · subst hvt
    obtain ⟨rid₂, -, hmem, hk⟩ := h.keyed_of_next hhead hlt hv
    rw [inFlight_removed hut] at hu
    exact absurd hkey.symm (h.key_ne_of_keyed hcols hk hmem hut hu)
  · rw [inFlight_removed hut] at hu
    rw [inFlight_removed hvt] at hv
    exact h.apart i cols u v r₁ r₂ hcols hu hv hkey

theorem Inv.only_removed (h : Inv metas s keyed) (hhead : (s.writeSet t).head? = some (rid, r)) {file : RmFileHandle}
    {cols : IndexMeta} (hcols : metas[i]? = some cols) {u : TxnId} {r₁ r₂ : RmRecord} {rid' : Rid}
    (hu : (s.removed t file).inFlight u i = some r₁) (hr₂ : keyed i rid' = some r₂)
    (hkey : cols.key r₂ = cols.key r₁) :
    ((s.removed t file).pc u).takesBack ∧ ((s.removed t file).writeSet u).head? = some (rid', r₂) := by
  by_cases hut : u = t
  · subst hut
    obtain ⟨rid₁, hnext, -, hk⟩ := h.keyed_of_next hhead (List.getElem?_eq_some_iff.mp hcols).1 hu
    obtain rfl := h.keyed_unique hcols hr₂ hk hkey
    obtain rfl := Option.some.inj (hr₂.symm.trans hk)
    simpa [goTo, InsertPc.takesBack] using hnext
  · rw [inFlight_removed hut] at hu
    simpa [goTo, hut] using h.only i cols u r₁ rid' r₂ hcols hu hr₂ hkey

theorem Inv.remove (h : Inv metas s keyed) (hpc : s.pc t = .undoing rid r i)
    (hix : s.table.indexes[i]? = none) {file : RmFileHandle}
    (hdel : s.table.file.deleteRecord rid = .ok file) :
    Inv metas { s.goTo t .aborting with
      table := { s.table with file := file }
      writeSet := Function.update s.writeSet t (s.writeSet t).tail }
      fun j => Function.update (keyed j) rid none := by
  obtain ⟨chain, hok⟩ := h.file
  have hhead := h.row t rid r (by simp [hpc, InsertPc.row])
  have hlook := h.writes t rid r (List.mem_of_mem_head? hhead)
  obtain ⟨file', hdel', hfile⟩ :=
    RmFileHandle.Holds.deleteRecord ⟨hok, rfl, rfl, fun _ => rfl⟩ (hlook ▸ Option.some_ne_none r)
  cases hdel.symm.trans hdel'
  have hlook' := hfile.lookup
  have hkeyed : ∀ j rid' r', Function.update (keyed j) rid none rid' = some r' → keyed j rid' = some r' := by
    intro j rid' r' hr'
    rw [Function.update_apply] at hr'
    split at hr'
    · cases hr'
    · exact hr'
  constructor
  case file => exact ⟨_, hfile.ok⟩
  case cols => exact h.cols
  case exact => exact fun j ix hj => h.exact_removed hpc hix hj
  case apart => exact fun j cols u v r₁ r₂ hcols hu hv hkey => h.apart_removed hhead hcols hu hv hkey
  case only =>
    exact fun j cols u r₁ rid' r₂ hcols hu hr₂ hkey => h.only_removed hhead hcols hu (hkeyed j rid' r₂ hr₂) hkey
  case writes =>
    intro u rid' r' hr'
    obtain ⟨hin, hne⟩ := h.mem_removed hhead hr'
    change file.lookup rid' = some r'
    rw [hlook', Function.update_of_ne hne]
    exact h.writes u rid' r' hin
  case writes_one =>
    intro u v rid' r₁ r₂ hu hv
    exact h.writes_one u v rid' r₁ r₂ (h.mem_removed hhead hu).1 (h.mem_removed hhead hv).1
  case writes_nodup =>
    intro u
    by_cases hut : u = t
    · subst hut
      simpa using (h.writes_nodup u).sublist (List.Sublist.map _ (List.tail_sublist _))
    · simpa [hut] using h.writes_nodup u
  all_goals
    obtain ⟨-, hcols, -, hsub, hwrites, -, -, hrow, hhidden, hwithout, -, -⟩ := h
    simp only [goTo, hlook', Function.update_apply] at *
    grind [InsertPc.row, InsertPc.lacks, InsertPc.without]

-- ---------------------------------------------------------------------------
-- Every step
-- ---------------------------------------------------------------------------

/-- A commit, or a rollback with nothing left to take back. -/
theorem Inv.finish (h : Inv metas s keyed) (locks : LockState)
    (hdone : ∀ i x, (s.writeSet t).head? = some x → ¬ (s.pc t).lacks i) :
    Inv metas ({ s with locks := locks }.finish t) keyed := by
  have hother : ∀ u, u ≠ t → ∀ j, ({ s with locks := locks }.finish t).inFlight u j =
      s.inFlight u j := by
    intro u hu j
    apply inFlight_of_ne
    · simp [Inserts.finish, goTo, hu]
    · simp [Inserts.finish, hu]
  have hself : ∀ u j r', ({ s with locks := locks }.finish t).inFlight u j = some r' → u ≠ t := by
    rintro u j r' hr' rfl
    simp [inFlight, Inserts.finish, goTo] at hr'
  obtain ⟨hfile, hcols, hexact, hsub, hwrites, hone, hnodup, hrow, hhidden, hwithout, hapart, honly⟩ := h
  constructor
  case file => exact hfile
  case cols => exact hcols
  case exact => exact hexact
  case sub => exact hsub
  case apart =>
    intro j cols u v r₁ r₂ hcols hu hv hkey
    rw [hother u (hself u j r₁ hu)] at hu
    rw [hother v (hself v j r₂ hv)] at hv
    exact hapart j cols u v r₁ r₂ hcols hu hv hkey
  case only =>
    intro j cols u r₁ rid' r₂ hcols hu hr₂ hkey
    have hut := hself u j r₁ hu
    rw [hother u hut] at hu
    simpa [Inserts.finish, goTo, hut] using honly j cols u r₁ rid' r₂ hcols hu hr₂ hkey
  all_goals
    clear hself hother hapart honly
    simp only [Inserts.finish, goTo, Function.update_apply] at *
    grind [InsertPc.row, InsertPc.lacks, InsertPc.without]

theorem Inv.resume (h : Inv metas s keyed) (hover : s.NoOverlap t .resume) {report : Reported}
    (hstep : s.resume t = some (report, s')) : ∃ keyed', Inv metas s' keyed' := by
  have hlen : ∀ i, s.table.indexes[i]? = none → metas.length ≤ i := by
    intro i hi
    rw [← h.cols, List.length_map]
    exact List.getElem?_eq_none_iff.mp hi
  unfold Inserts.resume at hstep
  cases hpc : s.pc t with
  | idle => simp [hpc] at hstep
  | ended => simp [hpc] at hstep
  | checking r i =>
    have hidle := h.toIdle (t := t) fun j _ => by simp [hpc, InsertPc.lacks]
    simp only [hpc] at hstep
    split at hstep
    · split at hstep <;> cases hstep
      · exact ⟨keyed, hidle⟩
      · exact ⟨keyed, h.check hpc ‹_› ‹_› hover⟩
      · exact ⟨keyed, hidle⟩
    · obtain rfl : _ = s' := congrArg Prod.snd (Option.some.inj hstep)
      exact ⟨keyed, h.lockTable hpc ‹_› _⟩
  | granted r =>
    simp only [hpc] at hstep
    split at hstep <;> cases hstep
    exact ⟨keyed, h.place hpc ‹_›⟩
  | placed r rid =>
    simp only [hpc] at hstep
    obtain rfl : _ = s' := congrArg Prod.snd (Option.some.inj hstep)
    exact ⟨keyed, h.lockRecord hpc _⟩
  | entering r rid i =>
    simp only [hpc] at hstep
    split at hstep
    next ix hix =>
      obtain ⟨ix', hins, hinv⟩ := h.enter hpc hix
      rw [hins] at hstep
      cases hstep
      exact ⟨_, hinv⟩
    next hix =>
      cases hstep
      refine ⟨keyed, h.toIdle fun j hj => ?_⟩
      have := hlen i hix
      simp only [hpc, InsertPc.lacks]
      omega
  | aborting =>
    simp only [hpc] at hstep
    split at hstep
    next hws =>
      cases hstep
      exact ⟨keyed, h.finish s.locks fun j x hx => by simp [hws] at hx⟩
    next rid r rest hws =>
      have hlook := h.writes t rid r (by simp [hws])
      rw [RmFileHandle.getRecord_eq hlook] at hstep
      cases hstep
      exact ⟨keyed, h.undo hpc hws⟩
  | undoing rid r i =>
    simp only [hpc] at hstep
    split at hstep
    · split at hstep <;> cases hstep
      exact ⟨_, h.unlist hpc ‹_› ‹_›⟩
    · split at hstep <;> cases hstep
      exact ⟨_, h.remove hpc ‹_› ‹_›⟩

theorem Inv.step (h : Inv metas s keyed) {a : InsertAct} (hover : s.NoOverlap t a)
    {report : Reported} (hstep : s.step t a = some (report, s')) : ∃ keyed', Inv metas s' keyed' := by
  cases a with
  | resume => exact h.resume hover hstep
  | insert values buffer =>
    simp only [Inserts.step] at hstep
    split at hstep
    next hpc =>
      split at hstep
      · cases hstep
        exact ⟨keyed, h⟩
      · split at hstep <;> cases hstep
        · refine ⟨keyed, h.move _ s.locks (fun _ _ hrow => nomatch hrow) (fun j _ hl => ?_)
            (fun _ _ _ hrow => nomatch hrow) fun j r' _ hr' => ?_⟩
          · simp [hpc, InsertPc.lacks] at hl
          · simp [inFlight, goTo] at hr'
        · exact ⟨keyed, h⟩
    · cases hstep
  | commit =>
    simp only [Inserts.step] at hstep
    split at hstep <;> cases hstep
    exact ⟨keyed, h.finish _ fun j x _ => by simp [‹s.pc t = .idle›, InsertPc.lacks]⟩
  | abort =>
    simp only [Inserts.step] at hstep
    split at hstep <;> cases hstep
    exact ⟨keyed, h.abort _ fun j _ => by simp [‹s.pc t = .idle›, InsertPc.lacks]⟩

theorem Run.inv {allowed : Inserts → TxnId → InsertAct → Prop} {s₀ : Inserts}
    (h : Inv metas s₀ keyed) (hall : ∀ s u a, allowed s u a → s.NoOverlap u a)
    (hrun : Run allowed s₀ s) : ∃ keyed', Inv metas s keyed' := by
  induction hrun with
  | start => exact ⟨keyed, h⟩
  | step _ hallowed hstep ih =>
    obtain ⟨keyed', h'⟩ := ih
    exact h'.step (hall _ _ _ hallowed) hstep

/-- A statement or a rollback that has begun can go on. -/
theorem Inv.resume_isSome (h : Inv metas s keyed) (hidle : s.pc t ≠ .idle)
    (hended : s.pc t ≠ .ended) : (s.resume t).isSome := by
  obtain ⟨chain, hok⟩ := h.file
  have hholds : s.table.file.Holds s.table.file.numRecordsPerPage s.table.file.numPages chain
      s.table.file.lookup := ⟨hok, rfl, rfl, fun _ => rfl⟩
  unfold Inserts.resume
  cases hpc : s.pc t with
  | idle => exact absurd hpc hidle
  | ended => exact absurd hpc hended
  | checking r i =>
    simp only
    split
    · split <;> rfl
    · rfl
  | granted r =>
    obtain ⟨rid, file, n₁, chain₁, hins, -, -⟩ := hholds.insertRecord r
    simp [hins]
  | placed r rid => rfl
  | entering r rid i =>
    simp only
    split
    · split <;> rfl
    · rfl
  | aborting =>
    cases hws : s.writeSet t with
    | nil => rfl
    | cons x rest => simp [RmFileHandle.getRecord_eq (h.writes t x.1 x.2 (by simp [hws]))]
  | undoing rid r i =>
    have hhead := h.row t rid r (by simp [hpc, InsertPc.row])
    have hlook := h.writes t rid r (List.mem_of_mem_head? hhead)
    cases hix : s.table.indexes[i]? with
    | some ix =>
      obtain ⟨ix', hdel, -⟩ := h.deleteEntry hpc hix
      simp [hdel, hix]
    | none =>
      obtain ⟨file, hdel, -⟩ := hholds.deleteRecord (hlook ▸ Option.some_ne_none r)
      simp [hdel, hix]

-- ---------------------------------------------------------------------------
-- What a client sees
-- ---------------------------------------------------------------------------

theorem Inv.agrees (h : Inv metas s keyed) (hquiet : s.Quiet) : s.table.Agrees := by
  refine ⟨h.file, fun ix hix => ?_⟩
  obtain ⟨i, hi⟩ := List.getElem?_of_mem hix
  have hlt := (List.getElem?_eq_some_iff.mp (h.cols_at hi)).1
  have hkeyed : keyed i = s.table.file.lookup := by
    funext rid
    cases hk : keyed i rid with
    | some r => exact (h.sub i rid r hk).symm
    | none =>
      cases hr : s.table.file.lookup rid with
      | none => rfl
      | some r =>
        obtain ⟨t, -, hlacks⟩ := h.hidden i rid r hlt hr hk
        cases hquiet t with
        | inl hidle => simp [hidle, InsertPc.lacks] at hlacks
        | inr hended => simp [hended, InsertPc.lacks] at hlacks
  exact hkeyed ▸ h.exact i ix hi

/-- Only the uniqueness check reports a duplicate key. -/
theorem Inv.checking_of_failed (h : Inv metas s keyed)
    (hstep : s.resume t = some (.failed .indexEntryNotUnique, s')) :
    (∃ r i, s.pc t = .checking r i) ∧ s' = s.goTo t .idle := by
  unfold Inserts.resume at hstep
  cases hpc : s.pc t with
  | checking r i =>
    simp only [hpc] at hstep
    split at hstep
    next ix hix =>
      obtain ⟨b, hb, -⟩ := (h.exact i ix hix).isExist r
      cases b <;> simp only [hb] at hstep <;> cases hstep
      exact ⟨⟨r, i, rfl⟩, rfl⟩
    next =>
      simp only [Inserts.lock] at hstep
      split at hstep <;> cases hstep
  | entering r rid i =>
    simp only [hpc] at hstep
    split at hstep
    next ix hix =>
      obtain ⟨ix', hins, -⟩ := h.enter hpc hix
      rw [hins] at hstep
      cases hstep
    next => cases hstep
  | placed r rid =>
    simp only [hpc, Inserts.lock] at hstep
    split at hstep <;> cases hstep
  | idle => simp [hpc] at hstep
  | ended => simp [hpc] at hstep
  | granted r =>
    simp only [hpc] at hstep
    split at hstep <;> cases hstep
  | aborting =>
    simp only [hpc] at hstep
    split at hstep
    · cases hstep
    · split at hstep <;> cases hstep
  | undoing rid r i =>
    simp only [hpc] at hstep
    split at hstep <;> split at hstep <;> cases hstep

theorem step_other {u : TxnId} (hut : t ≠ u) {a : InsertAct} {report : Reported}
    (hstep : s.step u a = some (report, s')) : s'.pc t = s.pc t ∧ s'.writeSet t = s.writeSet t := by
  have hlock : ∀ o c, (s.lock u o c).2.pc t = s.pc t ∧ (s.lock u o c).2.writeSet t = s.writeSet t := by
    intro o c
    simp only [Inserts.lock]
    split <;> simp [goTo, toAbort, hut]
  cases a with
  | resume =>
    simp only [Inserts.step, Inserts.resume] at hstep
    split at hstep
    case h_3 r i =>
      split at hstep
      · split at hstep <;> cases hstep <;> simp [goTo, hut]
      · obtain rfl : _ = s' := congrArg Prod.snd (Option.some.inj hstep)
        exact hlock _ _
    case h_5 r rid =>
      obtain rfl : _ = s' := congrArg Prod.snd (Option.some.inj hstep)
      exact hlock _ _
    all_goals
      repeat' split at hstep
      all_goals cases hstep
      all_goals simp [goTo, setIndex, Inserts.finish, hut]
  | insert values buffer =>
    simp only [Inserts.step] at hstep
    repeat' split at hstep
    all_goals cases hstep
    all_goals simp [goTo, hut]
  | commit =>
    simp only [Inserts.step] at hstep
    split at hstep <;> cases hstep
    simp [goTo, Inserts.finish, hut]
  | abort =>
    simp only [Inserts.step] at hstep
    split at hstep <;> cases hstep
    simp [goTo, toAbort, hut]

/-- A statement that is still at its checks has written nothing. -/
theorem writeSet_of_checking {report : Reported} (hstep : s.resume t = some (report, s'))
    (hpc' : s'.pc t = .checking r i) :
    (∃ j, s.pc t = .checking r j) ∧ s'.writeSet t = s.writeSet t := by
  have hlock : ∀ o c, (s.lock t o c).2.pc t = c ∨ (s.lock t o c).2.pc t = .aborting := by
    intro o c
    simp only [Inserts.lock]
    split <;> simp [goTo, toAbort]
  simp only [Inserts.resume] at hstep
  split at hstep
  case h_3 r' j hpc =>
    split at hstep
    · split at hstep <;> cases hstep <;> simp [goTo] at hpc'
      exact ⟨⟨j, by rw [hpc, hpc'.1]⟩, rfl⟩
    · obtain rfl : _ = s' := congrArg Prod.snd (Option.some.inj hstep)
      cases hlock _ _ with
      | inl h => cases h.symm.trans hpc'
      | inr h => cases h.symm.trans hpc'
  case h_5 r rid hpc =>
    obtain rfl : _ = s' := congrArg Prod.snd (Option.some.inj hstep)
    cases hlock _ _ with
    | inl h => cases h.symm.trans hpc'
    | inr h => cases h.symm.trans hpc'
  all_goals
    repeat' split at hstep
    all_goals cases hstep
    all_goals simp [goTo, setIndex, Inserts.finish] at hpc'

/-- The steps while a statement of `t` runs. -/
def Within (t : TxnId) (s : Inserts) (u : TxnId) (a : InsertAct) : Prop :=
  s.NoOverlap u a ∧ (u = t → a = .resume)

theorem Run.writeSet_of_checking {s₀ : Inserts} (hrun : Run (Within t) s₀ s)
    (hpc : ∃ r i, s.pc t = .checking r i) : s.writeSet t = s₀.writeSet t := by
  induction hrun with
  | start => rfl
  | @step s s' u a report _ hallowed hstep ih =>
    by_cases hut : t = u
    · subst hut
      obtain ⟨r, i, hpc⟩ := hpc
      obtain rfl := hallowed.2 rfl
      obtain ⟨⟨j, hj⟩, hws⟩ := Inserts.writeSet_of_checking hstep hpc
      exact hws.trans (ih ⟨r, j, hj⟩)
    · obtain ⟨hsame, hws⟩ := step_other hut hstep
      exact hws.trans (ih (hsame ▸ hpc))

/-- `get_value` with the key of `r` finds `rid`. -/
def Lists (ix : Index) (r : RmRecord) (rid : Rid) : Prop := ix.handle.getValue (ix.key r) = .ok [rid]

theorem lists_iff {ix : Index} {rows : Rows} (h : ix.Exact rows) :
    Lists ix r rid ↔ ∃ r', rows rid = some r' ∧ ix.cols.key r' = ix.cols.key r := by
  obtain ⟨rid?, hget, hrid⟩ := h.getValue (ix.key r)
  rw [Lists, hget]
  cases rid? with
  | none => simpa [Index.key] using hrid rid
  | some rid₁ => simpa [Index.key] using hrid rid

/-- The rollback keeps the entries of all rows but the transaction's own. -/
theorem Inv.keeps (h : Inv metas s keyed) (hpc : (s.pc t).takesBack) {report : Reported}
    (hstep : s.resume t = some (report, s')) {ix : Index} (hix : s.table.indexes[i]? = some ix) :
    ∃ ix', s'.table.indexes[i]? = some ix' ∧ ix'.cols = ix.cols ∧
      ∀ r' rid', (∀ r, (rid', r) ∉ s.writeSet t) → (Lists ix' r' rid' ↔ Lists ix r' rid') := by
  have hsame : s'.table.indexes = s.table.indexes →
      ∃ ix', s'.table.indexes[i]? = some ix' ∧ ix'.cols = ix.cols ∧
        ∀ r' rid', (∀ r, (rid', r) ∉ s.writeSet t) → (Lists ix' r' rid' ↔ Lists ix r' rid') :=
    fun heq => ⟨ix, heq ▸ hix, rfl, fun _ _ _ => Iff.rfl⟩
  unfold Inserts.resume at hstep
  cases hpc' : s.pc t with
  | aborting =>
    simp only [hpc'] at hstep
    repeat' split at hstep
    all_goals cases hstep
    all_goals exact hsame rfl
  | undoing rid r j =>
    simp only [hpc'] at hstep
    split at hstep
    next ix₁ hix₁ =>
      obtain ⟨ix', hdel, hcols, hexact⟩ := h.deleteEntry hpc' hix₁
      rw [hdel] at hstep
      cases hstep
      have hlt := (List.getElem?_eq_some_iff.mp hix₁).1
      by_cases hij : i = j
      · subst hij
        cases hix.symm.trans hix₁
        refine ⟨ix', List.getElem?_set_self hlt, hcols, fun r' rid' hown => ?_⟩
        have hne : rid' ≠ rid := by
          rintro rfl
          exact hown r (List.mem_of_mem_head? (h.row t rid' r (by simp [hpc', InsertPc.row])))
        rw [lists_iff hexact, lists_iff (h.exact i ix hix), Function.update_of_ne hne, hcols]
      · refine ⟨ix, ?_, rfl, fun _ _ _ => Iff.rfl⟩
        exact (List.getElem?_set_ne (Ne.symm hij)).trans hix
    next =>
      split at hstep <;> cases hstep
      exact hsame rfl
  | idle => simp [hpc', InsertPc.takesBack] at hpc
  | checking r j => simp [hpc', InsertPc.takesBack] at hpc
  | granted r => simp [hpc', InsertPc.takesBack] at hpc
  | placed r rid => simp [hpc', InsertPc.takesBack] at hpc
  | entering r rid j => simp [hpc', InsertPc.takesBack] at hpc
  | ended => simp [hpc', InsertPc.takesBack] at hpc

/-- A statement that reports a duplicate key has left no row behind. -/
theorem Inv.insert_failed (h : Inv metas s keyed) {values : List Value} {buffer : RmRecord}
    {report : Reported} {s₁ s₂ s₃ : Inserts}
    (hinsert : s.step t (.insert values buffer) = some (report, s₁)) (hrun : Run (Within t) s₁ s₂)
    (hfail : s₂.step t .resume = some (.failed .indexEntryNotUnique, s₃)) :
    s₃.table = s₂.table ∧ s₃.writeSet t = s.writeSet t := by
  have hws : s₁.writeSet t = s.writeSet t := by
    simp only [Inserts.step] at hinsert
    repeat' split at hinsert
    all_goals cases hinsert
    all_goals rfl
  obtain ⟨keyed₁, h₁⟩ := h.step (a := .insert values buffer) trivial hinsert
  obtain ⟨keyed₂, h₂⟩ := hrun.inv h₁ fun _ _ _ hallowed => hallowed.1
  obtain ⟨hpc, rfl⟩ := h₂.checking_of_failed hfail
  exact ⟨rfl, (hrun.writeSet_of_checking hpc).trans hws⟩

end Inserts

theorem Inserts.Run.next {allowed : Inserts → TxnId → InsertAct → Prop} {s₀ s : Inserts}
    (h : Run allowed s₀ s) (t : TxnId) (a : InsertAct) (hallowed : allowed s t a)
    (hstep : (s.step t a).isSome) : Run allowed s₀ ((s.step t a).get hstep).2 :=
  .step h hallowed (Option.some_get hstep).symm

theorem Inserts.Run.other {allowed : Inserts → TxnId → InsertAct → Prop} {s₀ s : Inserts} {t : TxnId}
    (hne : ∀ s u a, allowed s u a → t ≠ u) (h : Run allowed s₀ s) : s.pc t = s₀.pc t := by
  induction h with
  | start => rfl
  | step _ hallowed hstep ih => exact (step_other (hne _ _ _ hallowed) hstep).1.trans ih

theorem Inserts.Run.mono {allowed allowed' : Inserts → TxnId → InsertAct → Prop} {s₀ s : Inserts}
    (hall : ∀ s t a, allowed s t a → allowed' s t a) (h : Run allowed s₀ s) : Run allowed' s₀ s := by
  induction h with
  | start => exact .start
  | step _ hallowed hstep ih => exact ih.step (hall _ _ _ hallowed) hstep

theorem Inserts.Run.restart {allowed : Inserts → TxnId → InsertAct → Prop} {s₀ s : Inserts}
    (_ : Run allowed s₀ s) (allowed' : Inserts → TxnId → InsertAct → Prop) : Run allowed' s s := .start

/-- Nobody but the transactions 1 and 2 has done anything. -/
theorem Inserts.Run.idle_of_ne {allowed : Inserts → TxnId → InsertAct → Prop} {table : Table} {fd : Int}
    {s : Inserts} (h : Run (fun s t a => allowed s t a ∧ (t = 1 ∨ t = 2)) (.start table fd) s)
    {t : TxnId} (ht₁ : t ≠ 1) (ht₂ : t ≠ 2) : s.pc t = .idle :=
  h.other fun _ _ _ hallowed htu =>
    hallowed.2.elim (fun hu => ht₁ (htu.trans hu)) fun hu => ht₂ (htu.trans hu)

end Rmdb
