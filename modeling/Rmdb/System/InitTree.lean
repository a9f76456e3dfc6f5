-- SUMMARY: `init_tree` builds an exact index if no two rows share a key.
import Rmdb.System.SmManager

/-!
# Building an index

The scan of `init_tree` visits each row of the table once. While the keys differ, the tree is at
every moment exact for the rows that have been visited.
-/

namespace Rmdb

namespace RmScan

theorem length_slotsFrom_le (page : RmPage) (left j : Nat) : (slotsFrom page left j).length ≤ left := by
  induction left generalizing j with
  | zero => exact Nat.le_refl 0
  | succ left ih =>
    rw [slotsFrom]
    split
    · exact Nat.succ_le_succ (ih (j + 1))
    · exact Nat.le_succ_of_le (ih (j + 1))

theorem length_ridsFrom_le (f : RmFileHandle) (left : Nat) (i : Int) (j : Nat) :
    (ridsFrom f left i j).length ≤ left * f.numRecordsPerPage.toNat := by
  induction left generalizing i j with
  | zero => simp [ridsFrom]
  | succ left ih =>
    have hpage := length_slotsFrom_le (f.pages i) (f.numRecordsPerPage.toNat - j) j
    have hrest := ih (i + 1) 0
    rw [ridsFrom, List.length_append, List.length_map, Nat.succ_mul]
    omega

end RmScan

/-- The rows at some of the rids. -/
def Rows.at (rows : Rows) (rids : List Rid) : Rows := fun rid => if rid ∈ rids then rows rid else none

/-- The tree holds one entry for each of the rows, and no others. -/
def IxIndexHandle.HoldsRows {K : Type} [IxKey K] (h : IxIndexHandle K) (key : RmRecord → K) (rows : Rows) : Prop :=
  ∃ L up, Filled h L up ∧ ∀ k rid, (k, rid) ∈ entriesOf L ↔ ∃ r, rows rid = some r ∧ key r = k

/-- No two rows share a key. -/
def Rows.Distinct {K : Type} (rows : Rows) (key : RmRecord → K) : Prop :=
  ∀ rid rid' r r', rows rid = some r → rows rid' = some r' → key r = key r' → rid = rid'

section

variable {K : Type} [IxKey K] {key : RmRecord → K} {same : SmError} {h : IxIndexHandle K}

/-- The map of the entries. -/
theorem exists_keyMap {L : List (Leaf K)} (hL : (entriesOf L).Pairwise fun a b => a.1 < b.1) :
    ∃ m : KeyMap K, ∀ k rid, Finmap.lookup k m = some rid ↔ (k, rid) ∈ entriesOf L := by
  have hnodup : ((entriesOf L).map fun e => (⟨e.1, e.2⟩ : Sigma fun _ : K => Rid)).NodupKeys := by
    rw [List.nodupKeys_iff_pairwise, List.pairwise_map]
    exact hL.imp fun hlt => hlt.ne
  refine ⟨(AList.mk _ hnodup).toFinmap, fun k rid => ?_⟩
  rw [Finmap.lookup_toFinmap, ← Option.mem_def, AList.mem_lookup_iff]
  constructor
  · intro hmem
    obtain ⟨e, he, heq⟩ := List.mem_map.mp hmem
    cases heq
    exact he
  · exact fun hmem => List.mem_map.mpr ⟨(k, rid), hmem, rfl⟩

/-- A tree of an order that deletions can do with is exact. -/
theorem IxIndexHandle.HoldsRows.exact {cols : IndexMeta} {handle : IxIndexHandle (KeyBytes (cols.map Prod.snd))}
    {rows : Rows} (hrows : handle.HoldsRows cols.key rows) (horder : 3 ≤ handle.btreeOrder) :
    (⟨cols, handle⟩ : Index).Exact rows := by
  obtain ⟨L, up, ht, hL⟩ := hrows
  obtain ⟨m, hm⟩ := exists_keyMap ht.pairwise
  exact ⟨m, ⟨L, up, ⟨ht, horder⟩, hm⟩, fun k rid => (hm k rid).trans (hL k rid)⟩

/-- One row more. -/
theorem IxIndexHandle.HoldsRows.insertEntry {rows : Rows} {rid : Rid} {r : RmRecord} (hrows : h.HoldsRows key rows)
    (hnone : rows rid = none) (habs : ∀ rid' r', rows rid' = some r' → key r' ≠ key r) :
    ∃ p h', h.insertEntry (key r) rid = .ok (p, h') ∧ h'.btreeOrder = h.btreeOrder ∧
      h'.HoldsRows key (Function.update rows rid (some r)) := by
  obtain ⟨L, up, ht, hL⟩ := hrows
  have hnew : ¬ ∃ rid', (key r, rid') ∈ entriesOf L := by
    rintro ⟨rid', hmem⟩
    obtain ⟨r', hr', hkey⟩ := (hL _ _).mp hmem
    exact habs rid' r' hr' hkey
  obtain ⟨p, h', L', up', hcode, ht', horder, hins⟩ := ht.insertEntry_absent rid hnew
  refine ⟨p, h', hcode, horder, L', up', ht', fun k rid' => ?_⟩
  obtain ⟨Y, Z, hY, hZ⟩ := hins.entries
  have hsplit : (k, rid') ∈ entriesOf L' ↔ (k, rid') = (key r, rid) ∨ (k, rid') ∈ entriesOf L := by
    rw [hY, hZ]
    simp only [List.mem_append, List.mem_cons]
    tauto
  rw [hsplit, hL, Prod.mk.injEq]
  by_cases hrid : rid' = rid
  · subst hrid
    simp [hnone, eq_comm]
  · simp [hrid]

/-- The loop goes on from a tree that holds the rows at `done`. -/
theorem initTree_run {f : RmFileHandle} {fuel : Nat} {rid : Rid} {rids done : List Rid}
    (hloop : RmScan.loop f fuel rid = some rids) (hnodup : (done ++ rids).Nodup)
    (hrows : ∀ rid ∈ rids, f.lookup rid ≠ none) (hdistinct : Rows.Distinct f.lookup key)
    (hh : h.HoldsRows key (Rows.at f.lookup done)) :
    ∃ h', IxManager.initTree key same f fuel rid h = (h', none) ∧ h'.btreeOrder = h.btreeOrder ∧
      h'.HoldsRows key (Rows.at f.lookup (done ++ rids)) := by
  induction fuel generalizing rid rids done h with
  | zero => cases hloop
  | succ fuel ih =>
    rw [RmScan.loop] at hloop
    cases hend : RmScan.isEnd rid with
    | true =>
      simp only [hend, if_true, Option.some.injEq] at hloop
      subst hloop
      exact ⟨h, by simp [IxManager.initTree, hend], rfl, by simpa using hh⟩
    | false =>
      simp only [hend, Bool.false_eq_true, if_false, Option.map_eq_some_iff] at hloop
      obtain ⟨rest, hrest, rfl⟩ := hloop
      have hnotMem : rid ∉ done := by
        intro hmem
        exact (List.nodup_append'.mp hnodup).2.2 hmem List.mem_cons_self
      obtain ⟨r, hr⟩ := Option.ne_none_iff_exists'.mp (hrows rid List.mem_cons_self)
      have hnone : Rows.at f.lookup done rid = none := if_neg hnotMem
      have habs : ∀ rid' r', Rows.at f.lookup done rid' = some r' → key r' ≠ key r := by
        intro rid' r' hr' hkey
        have hmem : rid' ∈ done := by
          by_contra hnot
          rw [Rows.at, if_neg hnot] at hr'
          cases hr'
        rw [Rows.at, if_pos hmem] at hr'
        exact hnotMem (hdistinct rid' rid r' r hr' hr hkey ▸ hmem)
      obtain ⟨p, h₁, hinsert, horder, hh₁⟩ := hh.insertEntry hnone habs
      have hat : Function.update (Rows.at f.lookup done) rid (some r) =
          Rows.at f.lookup (done ++ [rid]) := by
        funext x
        by_cases hx : x = rid
        · subst hx
          simp [Rows.at, hr]
        · simp [Rows.at, hx]
      rw [hat] at hh₁
      have hassoc : done ++ rid :: rest = done ++ [rid] ++ rest := by simp
      rw [hassoc] at hnodup ⊢
      obtain ⟨h', hcode, horder', hh'⟩ := ih hrest hnodup
        (fun x hx => hrows x (List.mem_cons_of_mem _ hx)) hh₁
      refine ⟨h', ?_, horder'.trans horder, hh'⟩
      simp [IxManager.initTree, hend, RmFileHandle.getRecord_eq hr, hinsert, hcode]

/-- `init_tree` on the empty tree that `create_index` has made. -/
theorem initTree_holds {f : RmFileHandle} {chain : List PageNo} (hf : f.Ok chain) {order : Nat} (horder : 1 ≤ order)
    (hdistinct : Rows.Distinct f.lookup key) :
    ∃ h', IxManager.initTree key same f (f.numPages.toNat * f.numRecordsPerPage.toNat + 1) (RmScan.begin f)
        (IxManager.createIndex order) = (h', none) ∧ h'.btreeOrder = order ∧ h'.HoldsRows key f.lookup := by
  have hholds : f.Holds f.numRecordsPerPage f.numPages chain f.lookup := ⟨hf, rfl, rfl, fun _ => rfl⟩
  have hpos := hf.perPage_pos
  have hpages := hf.numPages_pos
  have hmem : ∀ rid, rid ∈ RmScan.ridsFrom f (f.numPages - 1).toNat 1 0 ↔ f.lookup rid ≠ none :=
    fun ⟨_, _⟩ => hholds.mem_rids
  have hfuel : (RmScan.ridsFrom f (f.numPages - 1).toNat 1 0).length <
      f.numPages.toNat * f.numRecordsPerPage.toNat + 1 := by
    have hle := RmScan.length_ridsFrom_le f (f.numPages - 1).toNat 1 0
    have hmul : (f.numPages - 1).toNat * f.numRecordsPerPage.toNat ≤
        f.numPages.toNat * f.numRecordsPerPage.toNat := Nat.mul_le_mul_right _ (by omega)
    omega
  have hnodup : (RmScan.ridsFrom f (f.numPages - 1).toNat 1 0).Nodup := by
    refine (RmScan.ridsFrom_sorted (by omega)).imp fun hbefore heq => ?_
    subst heq
    rcases hbefore with hlt | ⟨-, hlt⟩ <;> exact lt_irrefl _ hlt
  have hempty : (IxManager.createIndex order : IxIndexHandle K).HoldsRows key (Rows.at f.lookup []) := by
    refine ⟨[⟨1, []⟩], [], createIndex_filled horder, fun k rid => ?_⟩
    simp [Rows.at]
  obtain ⟨h', hcode, horder', hh'⟩ := @initTree_run K _ key same _ _ _ _ _ _
    (RmScan.loop_eq le_rfl (by omega) rfl hfuel) (by simpa using hnodup)
    (fun rid hrid => (hmem rid).mp hrid) hdistinct hempty
  refine ⟨h', hcode, horder', ?_⟩
  have hall : Rows.at f.lookup ([] ++ RmScan.ridsFrom f (f.numPages - 1).toNat 1 0) = f.lookup := by
    funext rid
    rw [List.nil_append, Rows.at]
    split
    · rfl
    · next hnot => exact (not_not.mp ((hmem rid).not.mp hnot)).symm
  rwa [hall] at hh'

end

-- ---------------------------------------------------------------------------
-- Handles
-- ---------------------------------------------------------------------------

/-- The index holds one entry for each of the rows, and no others. -/
def IxHandle.HoldsRows (rows : Rows) : IxHandle → Prop
  | .tree ix => ix.handle.HoldsRows ix.cols.key rows ∧ (3 ≤ ix.handle.btreeOrder → ix.Exact rows)
  | .other cols h => h.HoldsRows (fun r => keyRank cols (rowKey cols r)) rows

/-- `ix_compare` tells any two rows apart. -/
def Rows.ToldApart (rows : Rows) (cols : List ColMeta) : Prop :=
  ∀ rid rid' r r', rows rid = some r → rows rid' = some r' → rid ≠ rid' → Rmdb.ToldApart cols r r'

theorem Rows.ToldApart.distinct {rows : Rows} {cols : List ColMeta} (h : rows.ToldApart cols) :
    Rows.Distinct rows fun r => keyRank cols (rowKey cols r) := by
  intro rid rid' r r' hr hr' hkey
  by_contra hne
  exact (toldApart_iff.mp (h rid rid' r r' hr hr' hne)).2 hkey

theorem Rows.ToldApart.someNaN {f : RmFileHandle} {cols : List ColMeta} (h : Rows.ToldApart f.lookup cols) :
    IxManager.someNaN cols f = false := by
  by_contra htrue
  simp only [IxManager.someNaN, Bool.not_eq_false, List.any_eq_true, Bool.and_eq_true, bne_iff_ne,
    Option.any_eq_true] at htrue
  obtain ⟨rid, -, rid', -, hne, r, hr, r', hr', hnan⟩ := htrue
  rw [(toldApart_iff.mp (h rid rid' r r' hr hr' hne)).1] at hnan
  cases hnan

/-- The key of a row has the bytes of its columns. -/
theorem keyBytes_indexMeta {cols : List TabColMeta} {keyCols : IndexMeta} (h : indexMeta cols = some keyCols)
    (r : RmRecord) : keyBytes keyCols r = rowKey (cols.map TabColMeta.toColMeta) r := by
  have hcols := indexMeta_some h
  clear h
  induction hcols with
  | nil => rfl
  | @cons col x cols xs hx _ ih =>
    obtain ⟨offset, c⟩ := x
    obtain ⟨rfl, hc⟩ : offset = col.offset ∧ col.toColMeta.ixCol = some c := hx
    rw [keyBytes, (ixCol_sized hc).2.2]
    exact congrArg _ ih

/-- `init_tree` on the handle of a new index. -/
theorem initHandle_run {f : RmFileHandle} {chain : List PageNo} (hf : f.Ok chain) {cols : List TabColMeta}
    {order : Nat} (horder : 1 ≤ order) (htold : Rows.ToldApart f.lookup (cols.map TabColMeta.toColMeta))
    (context : IndexContext) : ∃ ix, SmManager.initHandle f context (SmManager.newHandle cols order) = (ix, none) ∧
      ix.HoldsRows f.lookup := by
  unfold SmManager.newHandle
  cases hkeys : indexMeta cols with
  | some keyCols =>
    have hdistinct : Rows.Distinct f.lookup keyCols.key := by
      intro rid rid' r r' hr hr' hkey
      refine htold.distinct rid rid' r r' hr hr' ?_
      have hbytes := congrArg KeyBytes.bytes hkey
      rw [show (keyCols.key r).bytes = _ from keyBytes_indexMeta hkeys r,
        show (keyCols.key r').bytes = _ from keyBytes_indexMeta hkeys r'] at hbytes
      exact congrArg (keyRank _) hbytes
    obtain ⟨h, hcode, -, hrows⟩ := @initTree_holds _ _ keyCols.key .indexEntryNotUnique f chain hf order horder hdistinct
    exact ⟨.tree ⟨keyCols, h⟩, by simp [SmManager.initHandle, hcode], hrows, hrows.exact⟩
  | none =>
    obtain ⟨h, hcode, -, hrows⟩ := @initTree_holds _ _ _
      (IxManager.sameKey (cols.map TabColMeta.toColMeta)) f chain hf order horder htold.distinct
    exact ⟨.other _ h, by simp [SmManager.initHandle, htold.someNaN, hcode], hrows⟩

end Rmdb
