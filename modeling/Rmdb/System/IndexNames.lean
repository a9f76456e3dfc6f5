-- SUMMARY: The names of index files, when two indexes have the same one, and what `create_index` does then.
import Rmdb.System.DbFile
import Rmdb.System.SmManager

/-!
# Names of index files

`IxManager::get_index_name` joins the name of the table and those of the columns with underscores,
which the names may have in them as well. Both overloads are `IxManager.getIndexName`; the third
copy is a member of `IndexMeta`.
-/

namespace Rmdb

open IxManager

/-- `IndexMeta::get_index_name`. -/
def DbFile.IndexMeta.getIndexName (index : DbFile.IndexMeta) : String :=
  index.cols.foldl (fun indexName col => indexName ++ ("_" ++ col.name)) index.tabName ++ ".idx"

/-- `identifier` of the lexer. -/
def isIdentifier (s : String) : Bool :=
  match s.toList with
  | c :: rest => c.isAlpha && rest.all fun c => c == '_' || c.isAlpha || c.isDigit
  | [] => false

/-- The names cut at their underscores, one after the other. -/
def namePieces (tabName : String) (cols : List String) : List (List Char) :=
  (tabName :: cols).flatMap fun name => name.toList.splitOn '_'

-- ---------------------------------------------------------------------------
-- Names and pieces
-- ---------------------------------------------------------------------------

variable {t t' : String} {cs cs' : List String}

/-- The name without its suffix. -/
def joined (t : String) (cs : List String) : List Char :=
  t.toList ++ cs.flatMap fun c => '_' :: c.toList

theorem toList_getIndexName (t : String) (cs : List String) :
    (getIndexName t cs).toList = joined t cs ++ ".idx".toList := by
  unfold getIndexName joined
  rw [String.toList_append]
  congr 1
  induction cs generalizing t with
  | nil => simp
  | cons c cs ih => simp [ih, String.toList_append]

theorem splitOn_joined (t : String) (cs : List String) :
    (joined t cs).splitOn '_' = namePieces t cs := by
  induction cs generalizing t with
  | nil => simp [joined, namePieces]
  | cons c cs ih =>
    have hjoined : joined t (c :: cs) = t.toList ++ '_' :: joined c cs := by simp [joined]
    rw [hjoined, List.splitOn_append_cons_self, ih c]
    rfl

/-- Two indexes have one name exactly when their pieces are the same. -/
theorem getIndexName_eq_iff : getIndexName t cs = getIndexName t' cs' ↔ namePieces t cs = namePieces t' cs' := by
  rw [← String.toList_inj, toList_getIndexName, toList_getIndexName, List.append_cancel_right_eq,
    ← splitOn_joined, ← splitOn_joined]
  constructor
  · intro h
    rw [h]
  · intro h
    have hjoin := congrArg (List.intercalate ['_']) h
    rwa [List.intercalate_splitOn, List.intercalate_splitOn] at hjoin

/-- Names without underscores are their own pieces. -/
theorem namePieces_of_no_underscore (h : ∀ name ∈ t :: cs, '_' ∉ name.toList) :
    namePieces t cs = (t :: cs).map String.toList := by
  unfold namePieces
  generalize t :: cs = names at h ⊢
  induction names with
  | nil => rfl
  | cons name names ih =>
    have hname : name.toList.splitOn '_' = [name.toList] := by
      rw [List.splitOn_eq_splitOnP, List.splitOnP_eq_singleton]
      intro c hc
      have hne : c ≠ '_' := fun heq => h name List.mem_cons_self (heq ▸ hc)
      simpa using hne
    rw [List.flatMap_cons, hname, ih fun n hn => h n (List.mem_cons_of_mem _ hn)]
    rfl

/-- The names of tables have no dot in them. -/
theorem getIndexName_ne_identifier {u : String} (hu : isIdentifier u = true) : getIndexName t cs ≠ u := by
  rintro rfl
  have hdot : '.' ∈ (getIndexName t cs).toList := by
    rw [toList_getIndexName]
    exact List.mem_append_right _ (by decide)
  unfold isIdentifier at hu
  split at hu
  · next c rest hlist =>
    rw [hlist] at hdot
    rw [Bool.and_eq_true, List.all_eq_true] at hu
    rcases List.mem_cons.mp hdot with hc | hc
    · rw [← hc] at hu
      exact absurd hu.1 (by decide)
    · exact absurd (hu.2 '.' hc) (by decide)
  · contradiction

theorem getIndexName_indexMeta (index : DbFile.IndexMeta) :
    index.getIndexName = getIndexName index.tabName (index.cols.map fun col => col.name) := by
  unfold DbFile.IndexMeta.getIndexName getIndexName
  rw [List.foldl_map]

-- ---------------------------------------------------------------------------
-- The names
-- ---------------------------------------------------------------------------

/-- Two different indexes have different names, no table has the name of one, and the name that
`IndexMeta` makes is that of `IxManager`. -/
structure NamesApart (t : String) (cs : List String) (t' : String) (cs' : List String) : Prop where
  apart : (t, cs) ≠ (t', cs') → getIndexName t cs ≠ getIndexName t' cs'
  noTable : ∀ u, isIdentifier u = true → getIndexName t cs ≠ u ∧ getIndexName t' cs' ≠ u
  sameMeta : ∀ index : DbFile.IndexMeta, index.tabName = t → (index.cols.map fun col => col.name) = cs →
    index.getIndexName = getIndexName t cs

/-- The names are right for two indexes exactly when they are the same index or differ in their
pieces. -/
theorem namesApart_iff (t : String) (cs : List String) (t' : String) (cs' : List String) :
    NamesApart t cs t' cs' ↔ (t, cs) = (t', cs') ∨ namePieces t cs ≠ namePieces t' cs' := by
  constructor
  · intro h
    by_cases hsame : (t, cs) = (t', cs')
    · exact .inl hsame
    · exact .inr fun hpieces => h.apart hsame (getIndexName_eq_iff.mpr hpieces)
  · intro h
    refine ⟨fun hne hname => ?_, fun u hu => ?_, fun index ht hcs => ?_⟩
    · rcases h with hsame | hpieces
      · exact hne hsame
      · exact hpieces (getIndexName_eq_iff.mp hname)
    · exact ⟨getIndexName_ne_identifier hu, getIndexName_ne_identifier hu⟩
    · rw [getIndexName_indexMeta, ht, hcs]

/-- As long as no name has an underscore in it, no two indexes are confused. -/
theorem namesApart_of_no_underscore (h : ∀ name ∈ t :: cs, '_' ∉ name.toList)
    (h' : ∀ name ∈ t' :: cs', '_' ∉ name.toList) : NamesApart t cs t' cs' := by
  rw [namesApart_iff, namePieces_of_no_underscore h, namePieces_of_no_underscore h']
  by_cases hsame : (t, cs) = (t', cs')
  · exact .inl hsame
  · refine .inr fun hmap => hsame ?_
    have hnames := List.map_injective_iff.mpr (fun _ _ => String.toList_injective) hmap
    rw [List.cons.injEq] at hnames
    exact Prod.ext hnames.1 hnames.2

/-- A table with the columns `b`, `c` and `b_c` has two indexes with one name. -/
theorem names_not_apart : (["a", "b", "c", "b_c"].all isIdentifier) = true ∧
    ¬ NamesApart "a" ["b", "c"] "a" ["b_c"] := by
  refine ⟨by decide, fun h => ?_⟩
  exact h.apart (by decide) (by decide)

-- ---------------------------------------------------------------------------
-- What `create_index` does then
-- ---------------------------------------------------------------------------

/-- As long as there is an index with the same pieces, `create_index` says that the index exists. -/
theorem createIndex_refused {s : SmManager} {creatable : String → Bool} {context : IndexContext}
    (htab : (s.tabs t).isSome) (hfile : s.files (getIndexName t' cs') = true)
    (hpieces : namePieces t cs = namePieces t' cs') :
    (SmManager.createIndex creatable t cs context) s = .error (.indexExists t cs) s := by
  rw [← getIndexName_eq_iff.mpr hpieces] at hfile
  obtain ⟨tab, htab⟩ := Option.isSome_iff_exists.mp htab
  simp [SmManager.createIndex, htab, hfile]

end Rmdb
