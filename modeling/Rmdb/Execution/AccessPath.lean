-- SUMMARY: A query that the planner gives to an index scan has the rows that a sequential scan gives it.
import Rmdb.Execution.IndexScan
import Rmdb.Execution.RowValues
import Rmdb.Optimizer.Placement
import Rmdb.Optimizer.Select

/-!
# Access paths

From the literals of a WHERE clause to the rows of a query: the analyzer converts the literals to values of their
columns, the planner picks an index and the conditions for it, and the index has grown with the table. When the scan
asks for bounds of full keys, the query has the same rows as without the index.
-/

namespace Rmdb

open IndexScanExecutor

-- ---------------------------------------------------------------------------
-- Conditions
-- ---------------------------------------------------------------------------

/-- The conversion of a literal in a WHERE clause. -/
def Analyze.convertValue (casts : FloatCasts) (svVal : SvValue) (col : TabColMeta) : Except AnalyzeError Value :=
  (convertSvValue casts svVal col.toColMeta).mapError fun _ => .value

/-- The columns of the condition are in the table, and its literal is a value of its column. -/
structure Readable (table : TableFile) (c : JoinCondition) : Prop where
  lhs : ∃ col, findFromCols table.cols c.lhsCol.colName = some col ∧
    (c.isRhsVal = true → ∃ v, c.rhsVal = some v ∧ FitsColumn col.toColMeta v)
  rhs : c.isRhsVal = false → ∃ col, findFromCols table.cols c.rhsCol.colName = some col

theorem Readable.testRecord {table : TableFile} {c : JoinCondition} (h : Readable table c) (r : RmRecord) :
    ∃ b, c.testRecord table.cols r = some b := by
  obtain ⟨col, hcol, hval⟩ := h.lhs
  cases hrhs : c.isRhsVal with
  | true =>
    obtain ⟨v, hv, -⟩ := hval hrhs
    exact ⟨c.op.test (col.toColMeta.read r) v, by simp [JoinCondition.testRecord, hcol, hrhs, hv]⟩
  | false =>
    obtain ⟨col', hcol'⟩ := h.rhs hrhs
    exact ⟨c.op.test (col.toColMeta.read r) (col'.toColMeta.read r),
      by simp [JoinCondition.testRecord, hcol, hrhs, hcol']⟩

theorem test_of_readable {table : TableFile} {conds : List JoinCondition} (h : ∀ c ∈ conds, Readable table c)
    (r : RmRecord) : ∃ b, SeqScanExecutor.test table conds r = some b := by
  have hall : ∀ cs : List JoinCondition, (∀ c ∈ cs, Readable table c) →
      ∃ b, testAll (fun c => c.testRecord table.cols r) cs = some b := by
    intro cs hcs
    induction cs with
    | nil => exact ⟨true, rfl⟩
    | cons c cs ih =>
      obtain ⟨hc, hcs⟩ := List.forall_mem_cons.mp hcs
      obtain ⟨b, hb⟩ := hc.testRecord r
      obtain ⟨b', hb'⟩ := ih hcs
      cases b with
      | true => exact ⟨b', by simp [testAll, hb, hb']⟩
      | false => exact ⟨false, by simp [testAll, hb]⟩
  exact hall conds h

section

variable {casts : FloatCasts} {db : Catalog} {tabName : String} {tab : TabMeta} {file : RmFileHandle}
  {svConds : List (BinaryExpr SvValue)} {conds : List JoinCondition}

theorem findFromCols_of_analyzer {tab : TabMeta} {name : String} {col : TabColMeta}
    (h : Analyze.getCol tab name = .ok col) : findFromCols tab.cols name = some col := by
  rw [Analyze.getCol] at h
  split at h
  · rename_i col' hfind
    obtain rfl := Except.ok.inj h
    simpa only [findFromCols, beq_eq_decide] using hfind
  · cases h

/-- Each condition of an accepted WHERE clause on the table can be tested on its records. -/
theorem readable_of_accepted (hdb : db.tabs tabName = some tab)
    (h : Analyze.getCheckClause (Analyze.convertValue casts) db [tabName] svConds = .ok conds) :
    ∀ c ∈ conds, Readable ⟨tab.cols, file⟩ c := by
  intro c hc
  obtain ⟨allCols, hall, h⟩ := bind_eq_ok_iff.mp h
  obtain ⟨-, hsub⟩ := Analyze.getAllCols_ok hall
  obtain ⟨expr, -, hexpr⟩ := Analyze.mapM_ok_mem h c hc
  have hfind : ∀ {target col : TabCol} {tab' : TabMeta} {found : TabColMeta},
      Analyze.checkColumn allCols target = .ok col → Analyze.getTable db col.tabName = .ok tab' →
      Analyze.getCol tab' col.colName = .ok found → findFromCols tab.cols col.colName = some found := by
    intro target col tab' found hcheck htable hget
    obtain ⟨-, c', hc', hname, -⟩ := Analyze.checkColumn_ok hcheck
    have hname' : col.tabName = tabName := hname ▸ List.mem_singleton.mp (hsub c' hc')
    simp only [Analyze.getTable, hname', hdb] at htable
    obtain rfl := Except.ok.inj htable
    exact findFromCols_of_analyzer hget
  obtain ⟨lhs, hlhs, hexpr⟩ := bind_eq_ok_iff.mp hexpr
  obtain ⟨lhsTab, hlhsTab, hexpr⟩ := bind_eq_ok_iff.mp hexpr
  obtain ⟨lhsCol, hlhsCol, hexpr⟩ := bind_eq_ok_iff.mp hexpr
  have hleft := hfind hlhs hlhsTab hlhsCol
  split at hexpr
  · obtain ⟨val, hval, hexpr⟩ := bind_eq_ok_iff.mp hexpr
    obtain rfl := Except.ok.inj hexpr
    refine ⟨⟨lhsCol, hleft, fun _ => ⟨val, rfl, fun hfloat => ?_⟩⟩, fun hrhs => by cases hrhs⟩
    rw [Analyze.convertValue] at hval
    cases hconvert : convertSvValue casts _ lhsCol.toColMeta with
    | error e =>
      rw [hconvert] at hval
      cases hval
    | ok v =>
      rw [hconvert] at hval
      cases hval
      exact convertSvValue_storedIn hfloat hconvert
  · obtain ⟨rhs, hrhs, hexpr⟩ := bind_eq_ok_iff.mp hexpr
    obtain ⟨rhsTab, hrhsTab, hexpr⟩ := bind_eq_ok_iff.mp hexpr
    obtain ⟨rhsCol, hrhsCol, hexpr⟩ := bind_eq_ok_iff.mp hexpr
    split at hexpr
    · obtain rfl := Except.ok.inj hexpr
      exact ⟨⟨lhsCol, hleft, fun hval => by cases hval⟩, fun _ => ⟨rhsCol, hfind hrhs hrhsTab hrhsCol⟩⟩
    · cases hexpr

end

-- ---------------------------------------------------------------------------
-- Plans
-- ---------------------------------------------------------------------------

/-- The scan that the planner makes for a statement on one table. -/
def Planner.PlansScan (db : Catalog) (tabName : String) (conds : List JoinCondition) (x : ScanPlan) : Prop :=
  scanOf db tabName conds = .ok x ∨ makeOneRel db ⟨[tabName], conds⟩ = .ok (.scan x)

/-- The index is on the columns with these names. -/
def Index.On (index : Index) (cols : List TabColMeta) (names : List String) : Prop :=
  ∃ ixCols, List.Forall₂ (fun name col => findFromCols cols name = some col) names ixCols ∧
    indexMeta ixCols = some index.cols

namespace Planner

variable {db : Catalog} {tabName : String} {tab : TabMeta} {conds idxConds : List JoinCondition} {names : List String}

theorem mem_matchIndex {c : JoinCondition} (h : c ∈ matchIndex conds names) :
    c ∈ conds ∧ c.lhsCol.colName ∈ names := by
  induction names with
  | nil => cases h
  | cons name names ih =>
    rw [matchIndex] at h
    split at h
    · cases h
    · rcases List.mem_append.mp h with h | h
      · obtain ⟨hc, hname⟩ := List.mem_filter.mp h
        exact ⟨hc, List.mem_cons.mpr (.inl (of_decide_eq_true hname))⟩
      · obtain ⟨hc, hname⟩ := ih h
        exact ⟨hc, List.mem_cons_of_mem _ hname⟩

theorem getIndexCols_found (h : getIndexCols tab conds = (true, idxConds, names)) :
    names ∈ tab.indexes ∧ matchIndex (conds.filter (·.isRhsVal)) names = idxConds := by
  simp only [getIndexCols] at h
  split at h
  · cases h
  · split at h
    · rename_i index hfind
      obtain ⟨-, hidx, rfl⟩ : true = true ∧ _ = idxConds ∧ index = names := by simpa using h
      exact ⟨List.mem_of_find?_eq_some hfind, hidx⟩
    · cases h

/-- An index scan tests all conditions and uses those that match its index. -/
theorem PlansScan.indexScan (hdb : db.tabs tabName = some tab) (haccepted : ∀ c ∈ conds, Analyze.Accepted [tabName] c)
    {x : ScanPlan} (hx : PlansScan db tabName conds x) (htag : x.tag = .indexScan) :
    x.conds = conds ∧ x.indexColNames ∈ tab.indexes ∧
      matchIndex (conds.filter (·.isRhsVal)) x.indexColNames = x.idxConds := by
  have hplan : x.conds = conds ∧ getIndexCols tab conds = (true, x.idxConds, x.indexColNames) := by
    have hexists : ∀ b : Bool, (if b then ScanTag.indexScan else .seqScan) = .indexScan → b = true := by decide
    rcases hx with hx | hx
    · simp only [scanOf, Analyze.getTable, hdb, ok_bind] at hx
      obtain rfl := Except.ok.inj hx
      exact ⟨rfl, Prod.ext (hexists _ htag) rfl⟩
    · have hpops : conds.filter (pops tabName) = conds := by
        refine List.filter_eq_self.mpr fun c hc => ?_
        have hlhs := List.mem_singleton.mp (haccepted c hc).lhs
        cases hrhs : c.isRhsVal with
        | true => simp [pops, hlhs, hrhs]
        | false => simp [pops, hlhs, List.mem_singleton.mp ((haccepted c hc).rhs hrhs)]
      simp only [makeOneRel, scanLoop, popConds_eq, hpops, Analyze.getTable, hdb, ok_bind] at hx
      cases hx
      exact ⟨rfl, Prod.ext (hexists _ htag) rfl⟩
  exact ⟨hplan.1, getIndexCols_found hplan.2⟩

end Planner

theorem Index.On.onColumns {index : Index} {table : TableFile} {names : List String}
    (h : index.On table.cols names) : ∃ ixCols, names = ixCols.map (·.name) ∧ OnColumns table ixCols index.cols := by
  obtain ⟨ixCols, hfound, hmeta⟩ := h
  have hnames : List.Forall₂ (· = ·) names (ixCols.map (·.name)) := by
    refine List.forall₂_map_right_iff.mpr (hfound.imp fun name col hcol => ?_)
    have hsame : col.name = name := by simpa using List.find?_some hcol
    exact hsame.symm
  rw [List.forall₂_eq_eq_eq] at hnames
  subst hnames
  exact ⟨ixCols, rfl, List.forall₂_same.mp (List.forall₂_map_left_iff.mp hfound), indexMeta_some hmeta⟩

-- ---------------------------------------------------------------------------
-- The rows of a query
-- ---------------------------------------------------------------------------

theorem RmFileHandle.Ok.recordAt {f : RmFileHandle} {chain : List PageNo} (h : f.Ok chain) (rid : Rid) :
    f.recordAt rid = f.lookup rid := by
  rw [RmFileHandle.recordAt]
  split
  · rfl
  · rename_i hslot
    rw [RmFileHandle.lookup, if_neg fun hset => hslot (h.slot rid.pageNo rid.slotNo hset.1 hset.2)]

/-- A pass of a sequential scan whose conditions can be tested. -/
theorem seqScan_pass {table : TableFile} {conds : List JoinCondition} {chain : List PageNo} (hok : table.file.Ok chain)
    (htest : ∀ r, ∃ b, SeqScanExecutor.test table conds r = some b) : ∃ found : List (Rid × RmRecord),
    (∀ s, (SeqScanExecutor.cursor table conds).Leads ((SeqScanExecutor.cursor table conds).begin s)
      (some (found.map fun x => (x.1, some x.2)))) ∧ found.Nodup ∧
    ∀ rid r, (rid, r) ∈ found ↔ table.file.recordAt rid = some r ∧ SeqScanExecutor.test table conds r = some true := by
  have houtcome := fun s : SeqScanExecutor =>
    @SeqScanExecutor.pageLoop_outcome table conds hok.counted true _ _ (le_refl 1) rfl
      { s with isEnd := false, tupleBuffer := [], ridsBuffer := [], bufferIdx := 0 } rfl rfl rfl false
  cases hselected : SeqScanExecutor.selected table conds
      (SeqScanExecutor.pairsFrom table.file (table.file.numPages - 1).toNat 1) with
  | none =>
    obtain ⟨x, -, hnone⟩ := SeqScanExecutor.selected_none hselected
    obtain ⟨b, hb⟩ := htest x.2
    cases hnone.symm.trans hb
  | some found =>
    obtain ⟨hsub, hmem⟩ := SeqScanExecutor.selected_some hselected
    rw [hselected] at houtcome
    refine ⟨found, houtcome, ?_, fun rid r => by rw [hmem, mem_pairsFrom]⟩
    have hsorted : (RmScan.ridsFrom table.file (table.file.numPages - 1).toNat 1 0).Pairwise Rid.Before :=
      RmScan.ridsFrom_sorted hok.perPage_pos.le
    refine List.Nodup.sublist hsub (List.Nodup.map (fun a b h => (Prod.mk.inj h).1) (hsorted.imp ?_))
    rintro a b hbefore rfl
    rcases hbefore with hpage | ⟨-, hslot⟩
    · exact lt_irrefl _ hpage
    · exact lt_irrefl _ hslot

theorem IndexScanRight.nodup {table : TableFile} {index : Index} {conds : List JoinCondition}
    {found : List (Rid × RmRecord)} (h : IndexScanRight table index conds found) : found.Nodup := by
  refine h.sorted.imp ?_
  rintro a b hlt rfl
  exact lt_irrefl _ hlt

section

variable {casts : FloatCasts} {db : Catalog} {tabName : String} {colDefs : List ColDef} {indexes : List (List String)}
  {s s' : Session} {svConds : List (BinaryExpr SvValue)} {conds : List JoinCondition} {x : ScanPlan} {index : Index}

/-- A statement on one table that the planner gives to an index scan with bounds of full keys finds the rows that a
sequential scan finds, in the order of their keys, whatever was written to the table before. -/
theorem indexScan_agrees (hname : tabName ≠ "") (hdb : db.tabs tabName = some ⟨makeCols tabName colDefs 0, indexes⟩)
    (hsame : SameNamed colDefs) (htyped : ∀ d ∈ colDefs, d.Typed) (hs : s.table.Agrees)
    (hcols : s.table.cols = columns tabName colDefs)
    (hrows : RowsOf (columns tabName colDefs) (recordSize colDefs) s.table.file.lookup)
    (hreach : ReachesBy (FromAnalyzer casts db tabName (recordSize colDefs)) s s')
    (hconds : Analyze.getCheckClause (Analyze.convertValue casts) db [tabName] svConds = .ok conds)
    (hplan : Planner.PlansScan db tabName conds x) (htag : x.tag = .indexScan)
    (hindex : index ∈ s'.table.indexes) (hon : index.On (makeCols tabName colDefs 0) x.indexColNames)
    (halone : EqualitiesAlone x.idxConds) (hfull : AsksFullKeys x.indexColNames.length x.idxConds) :
    let table : TableFile := ⟨makeCols tabName colDefs 0, s'.table.file⟩
    ∃ seq : List (Rid × RmRecord),
      (∀ t, (SeqScanExecutor.cursor table x.conds).Leads ((SeqScanExecutor.cursor table x.conds).begin t)
        (some (seq.map fun y => (y.1, some y.2)))) ∧
      ∃ least, ∀ fuel, least ≤ fuel → ∀ t : IndexScanExecutor, t.key.length = colTotLen (index.cols.map Prod.snd) →
        ∃ found : List (Rid × RmRecord),
          (cursor table index x.conds x.idxConds fuel).Leads ((cursor table index x.conds x.idxConds fuel).begin t)
            (some (found.map fun y => (y.1, some y.2))) ∧
          IndexScanRight table index conds found ∧ found.Perm seq := by
  intro table
  obtain ⟨hrows', -⟩ := hreach.rowsOf_columns hname hdb hsame htyped hs hcols hrows
  obtain ⟨⟨⟨chain, hok⟩, hall⟩, -⟩ := hreach.reaches.agrees hs
  obtain ⟨m, ⟨L, up, ht, hL⟩, hm⟩ := hall index hindex
  obtain ⟨ixCols, hnames, hon⟩ := @Index.On.onColumns index table _ hon
  obtain ⟨hxconds, -, hidx⟩ := hplan.indexScan hdb (Analyze.getCheckClause_ok hconds).2 htag
  have hreadable : ∀ c ∈ conds, Readable table c := readable_of_accepted hdb hconds
  have htest := test_of_readable hreadable
  rw [hxconds]
  obtain ⟨seq, hseq, hnodup, hmem⟩ := seqScan_pass hok htest
  refine ⟨seq, hseq, (entriesOf L).length + 1, fun fuel hfuel t hkey => ?_⟩
  have hexact : ∀ key rid, (key, rid) ∈ entriesOf L ↔ ∃ r, table.file.recordAt rid = some r ∧ index.key r = key := by
    intro key rid
    rw [← hL, hm, hok.recordAt]
    exact Iff.rfl
  have hkind : ∀ col ∈ ixCols, col.type ≠ .float := by
    intro col hcol hfloat
    obtain ⟨i, hi, rfl⟩ := List.getElem_of_mem hcol
    have hmeta := hon.metas.get hi (hon.metas.length_eq ▸ hi)
    rcases (ixCol_sized hmeta.2).1 with htype | htype <;> cases htype.symm.trans hfloat
  have hwritten : ∀ rid r, table.file.recordAt rid = some r → Written (ixCols.map (·.toColMeta)) r := by
    intro rid r hr
    rw [hok.recordAt] at hr
    refine (hrows' rid r hr).of_sub fun col hcol => ?_
    obtain ⟨c, hc, rfl⟩ := List.mem_map.mp hcol
    exact ⟨List.mem_map_of_mem (List.mem_of_find?_eq_some (hon.found c hc)), hkind c hc⟩
  have hliteral : ∀ c ∈ x.idxConds, c ∈ conds ∧ c.isRhsVal = true ∧ c.lhsCol.colName ∈ x.indexColNames := by
    intro c hc
    rw [← hidx] at hc
    obtain ⟨hc, hcol⟩ := Planner.mem_matchIndex hc
    obtain ⟨hc, hrhs⟩ := List.mem_filter.mp hc
    exact ⟨hc, hrhs, hcol⟩
  have hfit : LiteralsFit table x.idxConds := by
    intro c hc
    obtain ⟨hc, hrhs, hcol⟩ := hliteral c hc
    obtain ⟨col, hfind, hval⟩ := (hreadable c hc).lhs
    obtain ⟨v, hv, hfits⟩ := hval hrhs
    rw [hnames] at hcol
    obtain ⟨col', hcol', heq⟩ := List.mem_map.mp hcol
    obtain rfl : col' = col := by
      have hfind' := hon.found col' hcol'
      rw [heq] at hfind'
      exact Option.some.inj (hfind'.symm.trans hfind)
    exact ⟨col', v, hfind, hv, hfits (hkind col' hcol')⟩
  rw [hnames] at hidx hfull
  rw [List.length_map, hon.metas.length_eq] at hfull
  obtain ⟨found, hleads, hright⟩ := pass_right ht hexact hon hwritten (fun _ r _ => htest r) hidx
    (fun c hc => (hliteral c hc).1) halone (fun c hc => (hliteral c hc).2.1) hfit hfull hfuel t hkey
  refine ⟨found, hleads, hright, ?_⟩
  rw [List.perm_ext_iff_of_nodup hright.nodup hnodup]
  rintro ⟨rid, r⟩
  rw [hright.mem, hmem]

end

namespace AccessExample

/-- `CREATE TABLE t (a INT, s CHAR(2))` and `CREATE INDEX t (a)`. -/
def catalog : Catalog where
  tabs t := if t = "t" then some ⟨makeCols "t" InsertExample.defs 0, [["a"]]⟩ else none
  owned t tab htab col hcol := by
    split at htab
    · rename_i ht
      cases htab
      rcases List.mem_pair.mp hcol with rfl | rfl <;> exact ht.symm
    · cases htab

def session : Session :=
  ⟨⟨columns "t" InsertExample.defs, RmFileHandle.createFile 6, [⟨[(0, .int)], IxManager.createIndex 4⟩]⟩, []⟩

/-- `a > 5`. -/
def above : JoinCondition := ⟨⟨"t", "a"⟩, .gt, true, ⟨"", ""⟩, some (.int 5)⟩

theorem session_agrees : session.table.Agrees := by
  refine ⟨⟨[], (RmFileHandle.Holds.createFile (by decide)).ok⟩, ?_⟩
  intro ix hix
  obtain rfl := List.mem_singleton.mp hix
  refine ⟨∅, createIndex_represents (by decide), fun key rid => ?_⟩
  simp [session, RmFileHandle.lookup, RmFileHandle.createFile]

/-- `INSERT INTO t VALUES (7, 'ab')`. -/
theorem inserted : ∃ s', ReachesBy (FromAnalyzer noFloats catalog "t" 6) session s' ∧
    s'.table.file.lookup ⟨1, 0⟩ = some [7, 0, 0, 0, 97, 98] ∧ s'.table.indexes.map Index.cols = [[(0, .int)]] := by
  have hanalyze : Analyze.analyzeInsert noFloats catalog "t"
    [.intBint ['7'] (intLiteral_of_digits rfl), InsertExample.ab] = .ok [(.int 7, 4), (.string [97, 98], 2)] := rfl
  exact ⟨_, .ok (.insert [.int 7, .string [97, 98]] (List.replicate 6 0) true fun _ => true) .refl
    (.insert hanalyze rfl) trivial rfl, rfl, rfl⟩

end AccessExample

open AccessExample in
/-- `SELECT * FROM t WHERE a > 5`. -/
theorem indexScan_agrees_above : ∃ (s' : Session) (index : Index) (fuel : Nat) (t : IndexScanExecutor)
    (found : List (Rid × RmRecord)), index ∈ s'.table.indexes ∧
    (cursor ⟨makeCols "t" InsertExample.defs 0, s'.table.file⟩ index [above] [above] fuel).Leads
      ((cursor ⟨makeCols "t" InsertExample.defs 0, s'.table.file⟩ index [above] [above] fuel).begin t)
      (some (found.map fun y => (y.1, some y.2))) ∧
    (⟨1, 0⟩, [7, 0, 0, 0, 97, 98]) ∈ found := by
  obtain ⟨s', hreach, hrow, hcols⟩ := inserted
  obtain ⟨index, hindexes, hindex⟩ := List.map_eq_singleton_iff.mp hcols
  have hconds : Analyze.getCheckClause (Analyze.convertValue noFloats) catalog ["t"]
      [⟨⟨"", "a"⟩, .gt, .inl InsertExample.five⟩] = .ok [above] := rfl
  have hon : index.On (makeCols "t" InsertExample.defs 0) ["a"] :=
    ⟨[⟨⟨"a", .int, 4, 0⟩, "t"⟩], .cons rfl .nil, by rw [hindex]; rfl⟩
  have halone : EqualitiesAlone [above] := by
    intro c hc hop
    obtain rfl := List.mem_singleton.mp hc
    cases hop
  have hmem : index ∈ s'.table.indexes := hindexes ▸ List.mem_singleton_self index
  obtain ⟨seq, -, least, hscan⟩ := indexScan_agrees (x := ⟨.indexScan, "t", [above], [above], ["a"]⟩) (by decide) rfl
    InsertExample.defs_sameNamed InsertExample.defs_typed session_agrees rfl (rowsOf_createFile (by decide)) hreach
    hconds (.inl rfl) rfl hmem hon halone (.inr ⟨by decide, rfl, .inl rfl⟩)
  obtain ⟨found, hleads, hright, -⟩ := hscan least le_rfl ⟨⟨-1, -1⟩, [0, 0, 0, 0], none⟩ (by rw [hindex]; rfl)
  refine ⟨s', index, least, _, found, hmem, hleads, ?_⟩
  obtain ⟨⟨⟨chain, hok⟩, -⟩, -⟩ := hreach.reaches.agrees session_agrees
  exact (hright.mem _ _).mpr ⟨(hok.recordAt _).trans hrow, rfl⟩

end Rmdb
