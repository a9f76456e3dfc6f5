-- SUMMARY: The text of the catalog file, as the stream operators write and read it.
import Mathlib
import Rmdb.Basic
import Rmdb.Lib.Stream

/-!
# The catalog file

`flush_meta` writes `DbMeta` to a file with `<<`, and `open_db` reads it back with `>>`. The text
has no brackets: the readers know how many columns, indexes and tables follow only from the counts
in front of them.

An `std::map` is an `ExtTreeMap`, which lists its entries in the order of their keys as well. A
reader fails where the stream would go into its fail state.
-/

namespace Rmdb.DbFile

open Stream

-- ---------------------------------------------------------------------------
-- The catalog
-- ---------------------------------------------------------------------------

structure ColMeta where
  tabName : String
  name : String
  type : ColType
  len : Int32
  offset : Int32
  index : Bool
  deriving DecidableEq

structure IndexMeta where
  tabName : String
  colTotLen : Int32
  colNum : Int32
  cols : List ColMeta
  deriving DecidableEq

structure TabMeta where
  name : String
  cols : List ColMeta
  indexes : List IndexMeta
  deriving DecidableEq

structure DbMeta where
  name : String
  tabs : Std.ExtTreeMap String TabMeta

/-- A `DbMeta` that has just been constructed. -/
def DbMeta.fresh : DbMeta := ⟨"", ∅⟩

-- ---------------------------------------------------------------------------
-- Writing
-- ---------------------------------------------------------------------------

/-- The numbers of the enumerators. -/
def typeNo : ColType → Int
  | .int => 0
  | .float => 1
  | .bigint => 2
  | .string => 3
  | .datetime => 4

def ColMeta.write (col : ColMeta) : Text :=
  col.tabName.toList ++ ' ' :: (col.name.toList ++ ' ' :: (showInt (typeNo col.type) ++
    ' ' :: (showInt col.len.toInt ++ ' ' :: (showInt col.offset.toInt ++
    ' ' :: showNat col.index.toNat))))

def IndexMeta.write (index : IndexMeta) : Text :=
  index.tabName.toList ++ ' ' :: (showInt index.colTotLen.toInt ++
    ' ' :: (showInt index.colNum.toInt ++ index.cols.flatMap fun col => '\n' :: col.write))

def TabMeta.write (tab : TabMeta) : Text :=
  tab.name.toList ++ '\n' :: (showNat tab.cols.length ++ '\n' ::
    ((tab.cols.flatMap fun col => col.write ++ ['\n']) ++ (showNat tab.indexes.length ++ '\n' ::
      tab.indexes.flatMap fun index => index.write ++ ['\n'])))

def DbMeta.write (db : DbMeta) : Text :=
  db.name.toList ++ '\n' :: (showNat db.tabs.size ++ '\n' ::
    db.tabs.toList.flatMap fun entry => entry.2.write ++ ['\n'])

-- ---------------------------------------------------------------------------
-- Reading
-- ---------------------------------------------------------------------------

def readString : Reader String := do
  let w ← word
  return String.ofList w

/-- `>>` into an `int`, which fails when the number does not fit. -/
def readInt : Reader Int32 := do
  let i ← int
  if -2 ^ 31 ≤ i ∧ i < 2 ^ 31 then return Int32.ofInt i else failure

/-- `>>` into an enumeration. Numbers of no enumerator are never written, and fail here. -/
def readType : Reader ColType := do
  match ← int with
  | 0 => return .int
  | 1 => return .float
  | 2 => return .bigint
  | 3 => return .string
  | 4 => return .datetime
  | _ => failure

/-- `>>` into a `bool`: a number, which has to be 0 or 1. -/
def readBool : Reader Bool := do
  match ← int with
  | 0 => return false
  | 1 => return true
  | _ => failure

def ColMeta.read : Reader ColMeta := do
  let tabName ← readString
  let name ← readString
  let type ← readType
  let len ← readInt
  let offset ← readInt
  let index ← readBool
  return { tabName, name, type, len, offset, index }

def IndexMeta.read : Reader IndexMeta := do
  let tabName ← readString
  let colTotLen ← readInt
  let colNum ← readInt
  let cols ← times ColMeta.read colNum.toInt.toNat
  return { tabName, colTotLen, colNum, cols }

def TabMeta.read : Reader TabMeta := do
  let name ← readString
  let n ← nat
  let cols ← times ColMeta.read n
  let n ← nat
  let indexes ← times IndexMeta.read n
  return { name, cols, indexes }

/-- The loop of `operator>>` over the tables. -/
def tabsLoop : Nat → DbMeta → Reader DbMeta
  | 0, db => return db
  | n + 1, db => do
    let tab ← TabMeta.read
    tabsLoop n { db with tabs := db.tabs.insert tab.name tab }

/-- `operator>>` into a `DbMeta`. -/
def DbMeta.read (db : DbMeta) : Reader DbMeta := do
  let name ← readString
  let n ← nat
  tabsLoop n { db with name := name }

-- ---------------------------------------------------------------------------
-- Catalogs that can be written
-- ---------------------------------------------------------------------------

/-- A name that `>>` reads back as one string. -/
def IsName (s : String) : Prop := IsWord s.toList

structure ColMeta.Ok (col : ColMeta) : Prop where
  tabName : IsName col.tabName
  name : IsName col.name

structure IndexMeta.Ok (index : IndexMeta) : Prop where
  tabName : IsName index.tabName
  colNum : index.colNum.toInt = index.cols.length
  cols : ∀ col ∈ index.cols, col.Ok

structure TabMeta.Ok (tab : TabMeta) : Prop where
  name : IsName tab.name
  cols : ∀ col ∈ tab.cols, col.Ok
  indexes : ∀ index ∈ tab.indexes, index.Ok

structure DbMeta.Ok (db : DbMeta) : Prop where
  name : IsName db.name
  key : ∀ (k : String) (tab : TabMeta), db.tabs[k]? = some tab → tab.name = k
  tabs : ∀ (k : String) (tab : TabMeta), db.tabs[k]? = some tab → tab.Ok

-- ---------------------------------------------------------------------------
-- Tokens
-- ---------------------------------------------------------------------------

def ColMeta.toks (col : ColMeta) : List Text :=
  [col.tabName.toList, col.name.toList, showInt (typeNo col.type), showInt col.len.toInt,
    showInt col.offset.toInt, showNat col.index.toNat]

def IndexMeta.toks (index : IndexMeta) : List Text :=
  [index.tabName.toList, showInt index.colTotLen.toInt, showInt index.colNum.toInt] ++
    index.cols.flatMap ColMeta.toks

def TabMeta.toks (tab : TabMeta) : List Text :=
  [tab.name.toList, showNat tab.cols.length] ++ (tab.cols.flatMap ColMeta.toks ++
    ([showNat tab.indexes.length] ++ tab.indexes.flatMap IndexMeta.toks))

def DbMeta.toks (db : DbMeta) : List Text :=
  [db.name.toList, showNat db.tabs.size] ++ db.tabs.toList.flatMap fun entry => entry.2.toks

/-- A list whose elements all end in white space. -/
theorem words_flatMap_append {α : Type} {l : List α} {write : α → Text} {toks : α → List Text}
    {c : Char} (hc : isSpace c = true) (h : ∀ a ∈ l, words (write a) = toks a) (t : Text) :
    words ((l.flatMap fun a => write a ++ [c]) ++ t) = l.flatMap toks ++ words t := by
  induction l with
  | nil => rfl
  | cons a l ih =>
    have hrest := ih fun b hb => h b (List.mem_cons_of_mem _ hb)
    rw [List.flatMap_cons, List.append_assoc, List.append_assoc, List.singleton_append,
      words_append_space hc, h a List.mem_cons_self, hrest, List.flatMap_cons, List.append_assoc]

/-- A list whose elements all start with white space, behind another token. -/
theorem words_flatMap_cons {α : Type} {l : List α} {write : α → Text} {toks : α → List Text}
    {c : Char} (hc : isSpace c = true) (h : ∀ a ∈ l, words (write a) = toks a) (t : Text) :
    words (t ++ l.flatMap fun a => c :: write a) = words t ++ l.flatMap toks := by
  induction l generalizing t with
  | nil => simp
  | cons a l ih =>
    have hrest := ih fun b hb => h b (List.mem_cons_of_mem _ hb)
    rw [List.flatMap_cons, ← List.append_assoc, hrest, words_append_space hc,
      h a List.mem_cons_self, List.flatMap_cons, List.append_assoc]

theorem isSpace_blank : isSpace ' ' = true := rfl

theorem isSpace_newline : isSpace '\n' = true := rfl

theorem ColMeta.words_write {col : ColMeta} (h : col.Ok) : words col.write = col.toks := by
  simp only [ColMeta.write, ColMeta.toks, words_append_space isSpace_blank,
    IsWord.words h.tabName, IsWord.words h.name, (isWord_showInt _).words,
    (isWord_showNat _).words, List.singleton_append]

theorem IndexMeta.words_write {index : IndexMeta} (h : index.Ok) :
    words index.write = index.toks := by
  have hcols : words (showInt index.colNum.toInt ++ index.cols.flatMap fun col => '\n' :: col.write) =
      [showInt index.colNum.toInt] ++ index.cols.flatMap ColMeta.toks := by
    rw [words_flatMap_cons isSpace_newline fun col hcol => ColMeta.words_write (h.cols col hcol),
      (isWord_showInt _).words]
  simp only [IndexMeta.write, IndexMeta.toks, words_append_space isSpace_blank, hcols,
    IsWord.words h.tabName, (isWord_showInt _).words, List.cons_append, List.nil_append]

theorem TabMeta.words_write {tab : TabMeta} (h : tab.Ok) : words tab.write = tab.toks := by
  have hindexes : words (tab.indexes.flatMap fun index => index.write ++ ['\n']) =
      tab.indexes.flatMap IndexMeta.toks := by
    have := words_flatMap_append isSpace_newline
      (fun index hindex => IndexMeta.words_write (h.indexes index hindex)) []
    simpa using this
  simp only [TabMeta.write, TabMeta.toks, words_append_space isSpace_newline, hindexes,
    words_flatMap_append isSpace_newline fun col hcol => ColMeta.words_write (h.cols col hcol),
    IsWord.words h.name, (isWord_showNat _).words, List.cons_append, List.nil_append]

theorem DbMeta.words_write {db : DbMeta} (h : db.Ok) : words db.write = db.toks := by
  have htabs : words (db.tabs.toList.flatMap fun entry => entry.2.write ++ ['\n']) =
      db.tabs.toList.flatMap fun entry => entry.2.toks := by
    have := words_flatMap_append (l := db.tabs.toList) (t := []) isSpace_newline
      (fun entry hentry => TabMeta.words_write
        (h.tabs _ _ (Std.ExtTreeMap.mem_toList_iff_getElem?_eq_some.mp hentry)))
    simpa using this
  simp only [DbMeta.write, DbMeta.toks, words_append_space isSpace_newline, htabs,
    IsWord.words h.name, (isWord_showNat _).words, List.cons_append, List.nil_append]

-- ---------------------------------------------------------------------------
-- Reading the tokens back
-- ---------------------------------------------------------------------------

theorem reads_string (s : String) : Reads readString [s.toList] s := by
  have h := (Reads.word s.toList).map String.ofList
  rwa [String.ofList_toList] at h

theorem reads_int (i : Int32) : Reads readInt [showInt i.toInt] i := by
  refine (Reads.int i.toInt).bind ?_
  have hlo : -2 ^ 31 ≤ i.toInt := i.le_toInt
  have hhi : i.toInt < 2 ^ 31 := i.toInt_lt
  rw [if_pos ⟨hlo, hhi⟩, Int32.ofInt_toInt]
  exact .pure i

theorem reads_type (type : ColType) : Reads readType [showInt (typeNo type)] type := by
  refine (Reads.int (typeNo type)).bind ?_
  cases type <;> exact .pure _

theorem reads_bool (b : Bool) : Reads readBool [showNat b.toNat] b := by
  have hshow : showNat b.toNat = showInt b.toNat := rfl
  rw [hshow]
  refine (Reads.int b.toNat).bind ?_
  cases b <;> exact .pure _

theorem ColMeta.reads (col : ColMeta) : Reads ColMeta.read col.toks col :=
  (reads_string col.tabName).bind <| (reads_string col.name).bind <| (reads_type col.type).bind <|
    (reads_int col.len).bind <| (reads_int col.offset).bind <| (reads_bool col.index).bind <|
    .pure col

theorem IndexMeta.reads {index : IndexMeta} (h : index.Ok) :
    Reads IndexMeta.read index.toks index := by
  refine (reads_string index.tabName).bind <| (reads_int index.colTotLen).bind <|
    (reads_int index.colNum).bind ?_
  have hn : index.colNum.toInt.toNat = index.cols.length := by rw [h.colNum, Int.toNat_natCast]
  rw [hn]
  exact (Reads.times fun col _ => col.reads).map _

theorem TabMeta.reads {tab : TabMeta} (h : tab.Ok) : Reads TabMeta.read tab.toks tab := by
  refine (reads_string tab.name).bind <| (Reads.nat tab.cols.length).bind <|
    (Reads.times fun col _ => col.reads).bind <| (Reads.nat tab.indexes.length).bind ?_
  exact (Reads.times fun index hindex => IndexMeta.reads (h.indexes index hindex)).map _

/-- The loop puts the tables into the map, one after the other. -/
theorem reads_tabsLoop (tabs : List TabMeta) (h : ∀ tab ∈ tabs, tab.Ok) (db : DbMeta) :
    Reads (tabsLoop tabs.length db) (tabs.flatMap TabMeta.toks)
      { db with tabs := db.tabs.insertMany (tabs.map fun tab => (tab.name, tab)) } := by
  induction tabs generalizing db with
  | nil => exact .pure db
  | cons tab tabs ih =>
    rw [List.flatMap_cons, List.map_cons, Std.ExtTreeMap.insertMany_cons]
    refine (TabMeta.reads (h tab List.mem_cons_self)).bind ?_
    exact ih (fun tab' htab' => h tab' (List.mem_cons_of_mem _ htab')) _

/-- A map is what the insertion of its entries leads to. -/
theorem insertMany_toList (m : Std.ExtTreeMap String TabMeta) :
    (∅ : Std.ExtTreeMap String TabMeta).insertMany m.toList = m := by
  refine Std.ExtTreeMap.ext_getElem? fun k => ?_
  cases hk : m[k]? with
  | some tab =>
    exact Std.ExtTreeMap.getElem?_insertMany_list_of_mem Std.ReflCmp.compare_self
      Std.ExtTreeMap.distinct_keys_toList (Std.ExtTreeMap.mem_toList_iff_getElem?_eq_some.mpr hk)
  | none =>
    rw [Std.ExtTreeMap.getElem?_insertMany_list_of_contains_eq_false]
    · exact Std.ExtTreeMap.getElem?_empty
    · rw [List.contains_eq_mem, decide_eq_false_iff_not, List.mem_map]
      rintro ⟨⟨k', tab⟩, hmem, rfl⟩
      cases hk.symm.trans (Std.ExtTreeMap.mem_toList_iff_getElem?_eq_some.mp hmem)

theorem DbMeta.reads {db : DbMeta} (h : db.Ok) : Reads (DbMeta.read .fresh) db.toks db := by
  have hentry : ∀ entry ∈ db.tabs.toList, entry.2.name = entry.1 ∧ entry.2.Ok := by
    intro entry hentry
    have hk := Std.ExtTreeMap.mem_toList_iff_getElem?_eq_some.mp hentry
    exact ⟨h.key _ _ hk, h.tabs _ _ hk⟩
  have htabs : ∀ tab ∈ db.tabs.toList.map Prod.snd, tab.Ok := by
    intro tab htab
    obtain ⟨entry, hmem, rfl⟩ := List.mem_map.mp htab
    exact (hentry entry hmem).2
  -- The keys of the map are the names of the tables, so the loop leads to the same entries.
  have hmap : (db.tabs.toList.map Prod.snd).map (fun tab => (tab.name, tab)) = db.tabs.toList := by
    rw [List.map_map]
    refine (List.map_congr_left fun entry hmem => ?_).trans (List.map_id _)
    exact Prod.ext (hentry entry hmem).1 rfl
  have hloop := reads_tabsLoop _ htabs { DbMeta.fresh with name := db.name }
  rw [hmap, List.length_map, Std.ExtTreeMap.length_toList, List.flatMap_map] at hloop
  simp only [DbMeta.fresh, insertMany_toList] at hloop
  exact (reads_string db.name).bind <| (Reads.nat db.tabs.size).bind hloop

/-- What is read from the text of a catalog is the catalog, whatever tables, columns and indexes
there are. -/
theorem catalog_roundTrip (db : DbMeta) (h : db.Ok) :
    ∃ rest, DbMeta.read .fresh db.write = some (db, rest) := by
  obtain ⟨rest, hread, -⟩ := DbMeta.reads h db.write [] (by
    rw [DbMeta.words_write h, List.append_nil])
  exact ⟨rest, hread⟩

/-- A database with one table of two columns and an index on the second one. -/
def oneIndexed : DbMeta :=
  let id : ColMeta := ⟨"orders", "id", .int, 4, 0, false⟩
  let code : ColMeta := ⟨"orders", "code", .string, 8, 4, false⟩
  ⟨"db", (∅ : Std.ExtTreeMap String TabMeta).insert "orders"
    ⟨"orders", [id, code], [⟨"orders", 8, 1, [code]⟩]⟩⟩

theorem catalog_roundTrip_oneIndexed :
    ∃ rest, DbMeta.read .fresh oneIndexed.write = some (oneIndexed, rest) := by
  have hname : ∀ s ∈ ["db", "orders", "id", "code"], IsName s := by
    intro s hs
    simp only [List.mem_cons, List.not_mem_nil, or_false] at hs
    rcases hs with rfl | rfl | rfl | rfl <;> exact ⟨by simp, by simp [isSpace]⟩
  have htab : ∀ (k : String) (tab : TabMeta), oneIndexed.tabs[k]? = some tab →
      k = "orders" ∧ tab.name = "orders" ∧ tab.Ok := by
    intro k tab hk
    simp only [oneIndexed, Std.ExtTreeMap.getElem?_insert] at hk
    split at hk
    · rename_i heq
      cases hk
      refine ⟨(Std.LawfulEqCmp.eq_of_compare heq).symm, rfl, ?_⟩
      refine ⟨hname _ (by decide), ?_, ?_⟩
      · simp only [List.mem_cons, List.not_mem_nil, or_false]
        rintro col (rfl | rfl) <;> exact ⟨hname _ (by decide), hname _ (by decide)⟩
      · simp only [List.mem_cons, List.not_mem_nil, or_false]
        rintro index rfl
        refine ⟨hname _ (by decide), rfl, ?_⟩
        simp only [List.mem_cons, List.not_mem_nil, or_false]
        rintro col rfl
        exact ⟨hname _ (by decide), hname _ (by decide)⟩
    · cases hk
  refine catalog_roundTrip oneIndexed ⟨hname _ (by decide), ?_, ?_⟩
  · intro k tab hk
    obtain ⟨rfl, hname, -⟩ := htab k tab hk
    exact hname
  · exact fun k tab hk => (htab k tab hk).2.2

end Rmdb.DbFile
