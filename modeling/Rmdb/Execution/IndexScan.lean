-- SUMMARY: An index scan gives what a sequential scan gives, in the order of the keys.
import Rmdb.Execution.Operators
import Rmdb.Index.Prefix
import Rmdb.Index.ValueOrder
import Rmdb.System.SmManager

/-!
# Index scans

`Planner::get_index_cols` turns the scan of a table into an index scan as soon as the first column of an index is
compared with a literal. The executor makes a key of the literals, looks for the bounds of a range of the index, and
tests all conditions on the records that the range leads to. So it gives the same records as a sequential scan if no
record outside of the range satisfies the conditions.

This is shown for scans that ask for bounds of full keys: each column of the index is compared by an equality, or each
but the last one, which has a lower and an upper bound. In an index on one column either bound may be missing. The
executor takes for granted that a column with an equality is in no other condition.
-/

namespace Rmdb

open IxIndexHandle

-- ---------------------------------------------------------------------------
-- What a scan should give
-- ---------------------------------------------------------------------------

/-- A caller that takes the rid and the tuple at each position. -/
def IndexScanExecutor.cursor (table : TableFile) (index : Index) (conds idxConds : List JoinCondition) (fuel : Nat) :
    Cursor IndexScanExecutor (Rid × Option RmRecord) where
  begin s := (beginTuple table index conds idxConds fuel s).toOption
  next s := (nextTuple table index conds fuel s).toOption
  isEnd s := s.scan.elim true IxScan.isEnd
  current s := (s.rid, (table.file.getRecord s.rid).toOption)

/-- These are the stored records that satisfy the conditions with their positions, each once and in the order of
their keys. -/
structure IndexScanRight (table : TableFile) (index : Index) (conds : List JoinCondition)
    (found : List (Rid × RmRecord)) : Prop where
  mem : ∀ rid r, (rid, r) ∈ found ↔
    table.file.recordAt rid = some r ∧ SeqScanExecutor.test table conds r = some true
  sorted : found.Pairwise fun x y => index.key x.2 < index.key y.2

/-- A column that is compared by an equality is in no other condition. -/
def EqualitiesAlone (idxConds : List JoinCondition) : Prop :=
  ∀ c ∈ idxConds, c.op = .eq → (idxConds.filter fun c' => c'.lhsCol.colName = c.lhsCol.colName) = [c]

/-- The bounds are looked for with keys of all columns. -/
def AsksFullKeys (numCols : Nat) (idxConds : List JoinCondition) : Prop :=
  let eqs := idxConds.takeWhile fun c => c.op == .eq
  let rest := idxConds.dropWhile fun c => c.op == .eq
  rest = [] ∧ eqs.length = numCols ∨
    rest ≠ [] ∧ eqs.length + 1 = numCols ∧
      (eqs = [] ∨ (∃ c ∈ rest, c.op = .ge ∨ c.op = .gt) ∧ ∃ c ∈ rest, c.op = .le ∨ c.op = .lt)

-- ---------------------------------------------------------------------------
-- From one position to the next
-- ---------------------------------------------------------------------------

namespace IndexScanExecutor

variable {table : TableFile} {index : Index} {conds idxConds : List JoinCondition}
  {L : List (Leaf (KeyBytes (index.cols.map Prod.snd)))} {up : List (List (Inner (KeyBytes (index.cols.map Prod.snd))))}

/-- What `rid` gives at the position of a pair, and right behind the last pair. -/
theorem ridAt_iidAt (ht : Tree index.handle L up) {i : Nat} (hi : i ≤ (entriesOf L).length) :
    ∃ rid, ridAt index (iidAt L i) = some rid ∧ ∀ e, (entriesOf L)[i]? = some e → rid = e.2 := by
  obtain ⟨LA, n, LB, s, hat⟩ := exists_atSlot ht.ne_nil hi
  obtain ⟨node, -, hpages, -, hkeys, hrids, -⟩ := ht.fetchLeaf hat.leaves
  have hsize : node.getSize = n.entries.length := by rw [IxNode.getSize, hkeys, Leaf.keys_length]
  rw [hat.iidAt]
  by_cases hs : s = n.entries.length
  · refine ⟨⟨-1, -1⟩, by simp [ridAt, hpages, hsize, hs], fun e he => ?_⟩
    -- Behind the last pair of a leaf that is not the last one there is no position.
    have hB : LB = [] := by
      by_contra hne
      exact absurd (hat.lt hne) (by omega)
    have hlen : (entriesOf L).length = (entriesOf LA).length + n.entries.length := by simp [hat.leaves, hB]
    have hindex := hat.index
    rw [List.getElem?_eq_none (by omega)] at he
    cases he
  · have hlt : s < n.entries.length := lt_of_le_of_ne hat.le hs
    refine ⟨n.entries[s].2, ?_, fun e he => ?_⟩
    · have hne : s ≠ node.getSize := by omega
      simp [ridAt, hpages, hne, hrids, Leaf.rids, hlt]
    · rw [hat.getElem? hlt, List.getElem?_eq_getElem hlt] at he
      rw [← Option.some.inj he]

/-- The records that the pairs lead to and that satisfy the conditions. -/
def foundIn (table : TableFile) (conds : List JoinCondition) (es : List (KeyBytes (index.cols.map Prod.snd) × Rid)) :
    List (Rid × RmRecord) :=
  es.filterMap fun e => (table.file.recordAt e.2).bind fun r =>
    if SeqScanExecutor.test table conds r = some true then some (e.2, r) else none

theorem getRecord_of_recordAt {rid : Rid} {r : RmRecord} (h : table.file.recordAt rid = some r) :
    table.file.getRecord rid = .ok r := by
  rw [RmFileHandle.recordAt] at h
  split at h
  · exact RmFileHandle.getRecord_eq h
  · cases h

/-- The tuple that a caller takes is the record that satisfied the conditions. -/
theorem cursor_current {fuel : Nat} {s : IndexScanExecutor} {r : RmRecord} (h : table.file.recordAt s.rid = some r) :
    (cursor table index conds idxConds fuel).current s = (s.rid, some r) := by
  show (s.rid, (table.file.getRecord s.rid).toOption) = _
  rw [getRecord_of_recordAt h]
  rfl

/-- From pair number `i` on, the executor gives what is found up to pair number `j`. -/
theorem scanLoop_yields (ht : Tree index.handle L up) (hrow : ∀ e ∈ entriesOf L, ∃ r, table.file.recordAt e.2 = some r)
    (htest : ∀ rid r, table.file.recordAt rid = some r → ∃ b, SeqScanExecutor.test table conds r = some b)
    {i j : Nat} (hij : i ≤ j) (hj : j ≤ (entriesOf L).length) {fuel k : Nat} (hfuel : j < fuel) (hk : j - i < k)
    {scan : IxScan} (hscan : ScanAt L i j scan) (s : IndexScanExecutor) : ∃ s',
    scanLoop table index conds k s scan = .ok s' ∧ (cursor table index conds idxConds fuel).Yields s'
      ((foundIn table conds (((entriesOf L).take j).drop i)).map fun x => (x.1, some x.2)) := by
  induction hn : j - i generalizing i k scan s with
  | zero =>
    obtain rfl : i = j := by omega
    obtain ⟨k, rfl⟩ := Nat.exists_eq_succ_of_ne_zero (Nat.ne_of_gt (Nat.zero_lt_of_lt hk))
    have hend : scan.isEnd = true := (hscan.isEnd_iff ht.toShape le_rfl hj).mpr rfl
    have hnil : ((entriesOf L).take i).drop i = [] := by
      rw [List.drop_eq_nil_iff, List.length_take]
      omega
    refine ⟨{ s with scan := some scan }, by simp [scanLoop, hend], ?_⟩
    rw [hnil]
    exact .done hend
  | succ n ih =>
    have hlt : i < j := by omega
    obtain ⟨k, rfl⟩ := Nat.exists_eq_succ_of_ne_zero (Nat.ne_of_gt (Nat.zero_lt_of_lt hk))
    have hend : scan.isEnd = false := by
      rw [Bool.eq_false_iff, Ne, hscan.isEnd_iff ht.toShape hij hj]
      exact hlt.ne
    obtain ⟨rid, hrid, heq⟩ := ridAt_iidAt ht (hij.trans hj)
    obtain rfl := heq _ (List.getElem?_eq_getElem (by omega))
    obtain ⟨r, hr⟩ := hrow (entriesOf L)[i] (List.getElem_mem _)
    obtain ⟨b, hb⟩ := htest _ r hr
    obtain ⟨scan', hnext, hscan'⟩ := hscan.next ht hlt hj
    have hmove : scanNext index scan = .ok scan' := by simp [scanNext, hend, hnext, orStuck, Except.toOption]
    have hcons : ((entriesOf L).take j).drop i = (entriesOf L)[i] :: ((entriesOf L).take j).drop (i + 1) := by
      rw [List.drop_eq_getElem_cons (by rw [List.length_take]; omega), List.getElem_take]
    have hloop : scanLoop table index conds (k + 1) s scan =
        if b then .ok { s with rid := (entriesOf L)[i].2, scan := some scan }
        else scanLoop table index conds k s scan' := by
      have hread : orStuck (table.file.getRecord (entriesOf L)[i].2).toOption = .ok r := by
        rw [getRecord_of_recordAt hr]
        rfl
      have hflag : orStuck (testAll (fun c => c.testRecord table.cols r) conds) = .ok b := congrArg orStuck hb
      have hpos : orStuck (ridAt index scan.iid) = .ok (entriesOf L)[i].2 := by
        rw [hscan.iid, hrid]
        rfl
      simp only [scanLoop, hend, Bool.false_eq_true, if_false, hpos, ok_bind, hread, hflag, hmove]
      rfl
    rw [hloop]
    cases b with
    | false =>
      obtain ⟨s', hs', hyields⟩ := @ih (i + 1) (by omega) k (by omega) scan' hscan' s (by omega)
      refine ⟨s', hs', ?_⟩
      have hskip : foundIn table conds (((entriesOf L).take j).drop i) =
          foundIn table conds (((entriesOf L).take j).drop (i + 1)) := by
        rw [hcons, foundIn, List.filterMap_cons, hr]
        simp [hb, foundIn]
      rw [hskip]
      exact hyields
    | true =>
      obtain ⟨s', hs', hyields⟩ := @ih (i + 1) (by omega) fuel (by omega) scan' hscan'
        { s with rid := (entriesOf L)[i].2, scan := some scan } (by omega)
      refine ⟨_, rfl, ?_⟩
      have hfound : foundIn table conds (((entriesOf L).take j).drop i) =
          ((entriesOf L)[i].2, r) :: foundIn table conds (((entriesOf L).take j).drop (i + 1)) := by
        rw [hcons, foundIn, List.filterMap_cons, hr]
        simp [hb, foundIn]
      have hcurrent : (cursor table index conds idxConds fuel).current
          { s with rid := (entriesOf L)[i].2, scan := some scan } = ((entriesOf L)[i].2, some r) := cursor_current hr
      rw [hfound, List.map_cons, ← hcurrent]
      refine .tuple hend ?_ hyields
      show (nextTuple table index conds fuel _).toOption = some s'
      have hcode : nextTuple table index conds fuel
          { s with rid := (entriesOf L)[i].2, scan := some scan } = .ok s' := by
        simp only [nextTuple, orStuck, ok_bind, hmove]
        exact hs'
      rw [hcode]
      rfl

-- ---------------------------------------------------------------------------
-- Between two bounds
-- ---------------------------------------------------------------------------

/-- The position is that of the first pair whose key is not `before`, or the end of the last leaf. -/
def PlacedAt {K : Type} (L : List (Leaf K)) (iid : Iid) (before : K → Bool) : Prop :=
  ∃ X Y, entriesOf L = X ++ Y ∧ Cut.At (fun e : K × Rid => before e.1) X Y ∧ iid = iidAt L X.length

theorem placedAt_leafBegin (ht : Tree index.handle L up) : PlacedAt L index.handle.leafBegin fun _ => false :=
  ⟨[], entriesOf L, rfl, ⟨by simp, fun _ _ => rfl⟩, ht.leafBegin⟩

theorem placedAt_leafEnd (ht : Tree index.handle L up) :
    ∃ last, index.handle.leafEnd = .ok last ∧ PlacedAt L last fun _ => true :=
  ⟨_, ht.leafEnd, entriesOf L, [], by simp, ⟨fun _ _ => rfl, by simp⟩, rfl⟩

/-- A bound of a full key. -/
theorem bound_full (ht : Tree index.handle L up) {key : List UInt8}
    (hkey : key.length = colTotLen (index.cols.map Prod.snd))
    (side : KeyBytes (index.cols.map Prod.snd) → IxBound (KeyBytes (index.cols.map Prod.snd))) :
    ∃ iid, bound index key index.cols.length side = some iid ∧
      PlacedAt L iid fun k => decide ((side ⟨key, hkey⟩).Before k) := by
  have hfull : ∀ a b : KeyBytes (index.cols.map Prod.snd), ixCompare a b index.cols.length = ixCompare a b 0 := by
    intro a b
    rw [← ixCompare_full a b, List.length_map]
  obtain ⟨X, Y, hXY, hcut, hfind⟩ := ht.find_bound hfull (side ⟨key, hkey⟩)
  refine ⟨_, ?_, X, Y, hXY, hcut, rfl⟩
  rw [bound, dif_pos hkey, hfind]
  rfl

/-- The pairs between two bounds, the first of which is not behind the second. -/
theorem PlacedAt.between {K : Type} {L : List (Leaf K)} {lower upper : Iid} {lo hi : K → Bool}
    (hlo : PlacedAt L lower lo) (hhi : PlacedAt L upper hi) (hle : ∀ k, lo k = true → hi k = true) : ∃ i j,
    lower = iidAt L i ∧ upper = iidAt L j ∧ i ≤ j ∧ j ≤ (entriesOf L).length ∧
      ∀ e, e ∈ ((entriesOf L).take j).drop i ↔ e ∈ entriesOf L ∧ lo e.1 = false ∧ hi e.1 = true := by
  obtain ⟨X, Y, hXY, hcut, rfl⟩ := hlo
  obtain ⟨X', Y', hXY', hcut', rfl⟩ := hhi
  have hlen : X.length ≤ X'.length := by
    rw [← hcut.findIdx, ← hXY, ← hcut'.findIdx, ← hXY']
    refine List.findIdx_le_findIdx fun e _ he => ?_
    cases hbefore : lo e.1 with
    | false => rfl
    | true => simp [hle _ hbefore] at he
  exact ⟨X.length, X'.length, rfl, rfl, hlen, by simp [hXY'], hcut.mem_between hcut' hXY hXY' hlen⟩

-- ---------------------------------------------------------------------------
-- Keys that differ in the last column
-- ---------------------------------------------------------------------------

theorem ixCompareType_ixCol {col : ColMeta} {c : IxCol} (h : col.ixCol = some c) (a b : List UInt8) :
    ixCompareType col.type col.len a b = some (ixCompareCol c a b) := by
  rw [ColMeta.ixCol] at h
  split at h
  · rename_i htype
    split at h
    · cases h
      rw [htype]
      rfl
    · cases h
  · rename_i htype
    cases h
    rw [htype]
    rfl
  · cases h

/-- `ix_compare` on one column compares the values. -/
theorem ixCompareCol_raw {col : ColMeta} {c : IxCol} (hc : col.ixCol = some c) {u v : Value} (hu : u.StoredIn col)
    (hv : v.StoredIn col) (p q : List UInt8) :
    ixCompareCol c (u.raw col.len ++ p) (v.raw col.len ++ q) = if u.lt v then -1 else if u.gt v then 1 else 0 := by
  obtain ⟨htype, hsized, -⟩ := ixCol_sized hc
  have hslice : ∀ {w : Value}, w.StoredIn col →
      slice (List.replicate col.offset 0 ++ w.raw col.len) col.offset col.len = w.raw col.len := by
    intro w hw
    rw [slice_skip (by simp), List.length_replicate, Nat.sub_self, slice_self (hw.raw_length hsized)]
  have h := ixCompareType_written htype hsized ⟨u, hu, hslice hu⟩ ⟨v, hv, hslice hv⟩ p q
  rw [hslice hu, hslice hv, hu.read hsized (hslice hu), hv.read hsized (hslice hv), ixCompareType_ixCol hc] at h
  exact Option.some.inj h

theorem rank_prefix (cols : List IxCol) {f : List UInt8} (hf : colTotLen cols ≤ f.length) (x : List UInt8) :
    rank cols (f ++ x) = rank cols f := by
  induction cols generalizing f with
  | nil => rfl
  | cons c cols ih =>
    rw [colTotLen_cons] at hf
    have hrest := @ih (f.drop c.len) (by rw [List.length_drop]; omega)
    rw [rank_cons, rank_cons c cols f, List.drop_append_of_le_length (by omega), hrest]
    congr 1
    cases c with
    | int =>
      have hfour : 4 ≤ f.length := by
        simp only [IxCol.len] at hf
        omega
      rcases f with _ | ⟨b₀, _ | ⟨b₁, _ | ⟨b₂, _ | ⟨b₃, f⟩⟩⟩⟩
      case cons.cons.cons.cons => rfl
      all_goals simp at hfour
    | char n =>
      simp only [IxCol.len] at hf
      simp only [rank, List.append_nil]
      rw [List.take_append_of_le_length (by omega)]

/-- Keys that agree on all columns but the last one are ordered by its values. -/
theorem key_lt_iff {cols cs : List IxCol} {c : IxCol} (hcols : cols = cs ++ [c]) {col : ColMeta}
    (hc : col.ixCol = some c) {u v : Value} (hu : u.StoredIn col) (hv : v.StoredIn col) {f : List UInt8}
    (hf : f.length = colTotLen cs) {a b : KeyBytes cols} (ha : a.bytes = f ++ u.raw col.len)
    (hb : b.bytes = f ++ v.raw col.len) : a < b ↔ u.lt v = true := by
  obtain ⟨-, hsized, hlen⟩ := ixCol_sized hc
  have hrank : ∀ {w : Value}, w.StoredIn col →
      rank cols (f ++ w.raw col.len) = rank cs f ++ rank [c] (w.raw col.len) := by
    intro w hw
    rw [hcols, rank_append, rank_prefix cs hf.ge, ← hf, List.drop_left]
  have hcol : ∀ {w : Value}, w.StoredIn col → c.len ≤ (w.raw col.len).length := by
    intro w hw
    rw [hw.raw_length hsized, hlen]
  have hcompare := ixCompareCol_raw hc hu hv [] []
  rw [List.append_nil, List.append_nil] at hcompare
  rw [KeyBytes.lt_iff, ha, hb, hrank hu, hrank hv, append_lt_append_iff rfl,
    ← (compares_col c (hcol hu) (hcol hv)).lt, hcompare]
  by_cases hlt : u.lt v = true
  · simp [hlt]
  · rw [if_neg hlt]
    split <;> simp [hlt]

-- ---------------------------------------------------------------------------
-- The equalities
-- ---------------------------------------------------------------------------

/-- The literals of the conditions are values of their columns. -/
def LiteralsFit (table : TableFile) (idxConds : List JoinCondition) : Prop :=
  ∀ c ∈ idxConds, ∃ col v, findFromCols table.cols c.lhsCol.colName = some col ∧ c.rhsVal = some v ∧
    v.StoredIn col.toColMeta

/-- The index is on these columns of the table. -/
structure OnColumns (table : TableFile) (ixCols : List TabColMeta) (metas : IndexMeta) : Prop where
  found : ∀ col ∈ ixCols, findFromCols table.cols col.name = some col
  metas : List.Forall₂ (fun col x => x.1 = col.offset ∧ col.toColMeta.ixCol = some x.2) ixCols metas

/-- The record satisfies the conditions. -/
def Satisfies (table : TableFile) (conds : List JoinCondition) (r : RmRecord) : Prop :=
  ∀ c ∈ conds, c.testRecord table.cols r = some true

theorem satisfies_of_test {r : RmRecord} (h : SeqScanExecutor.test table conds r = some true) :
    Satisfies table conds r := by
  have hall : ∀ cs : List JoinCondition, testAll (fun c => c.testRecord table.cols r) cs = some true →
      Satisfies table cs r := by
    intro cs hcs
    induction cs with
    | nil => exact fun c hc => by cases hc
    | cons c cs ih =>
      cases hc : c.testRecord table.cols r with
      | none => simp [testAll, hc] at hcs
      | some b =>
        cases b with
        | false => simp [testAll, hc] at hcs
        | true => exact List.forall_mem_cons.mpr ⟨hc, ih (by simpa [testAll, hc] using hcs)⟩
  exact hall conds h

/-- What a condition with a literal says of a record. -/
theorem testRecord_literal {c : JoinCondition} {col : TabColMeta} {v : Value} (hrhs : c.isRhsVal = true)
    (hcol : findFromCols table.cols c.lhsCol.colName = some col) (hval : c.rhsVal = some v) {r : RmRecord}
    (h : c.testRecord table.cols r = some true) : c.op.test (col.toColMeta.read r) v = true := by
  simpa [JoinCondition.testRecord, hcol, hrhs, hval] using h

theorem raw_eq {c : JoinCondition} {col : TabColMeta} {v : Value}
    (hcol : findFromCols table.cols c.lhsCol.colName = some col) (hval : c.rhsVal = some v) :
    raw table c = some (v.raw col.len) := by
  simp [raw, hcol, hval]

theorem eqAlone_of_sublist {cs cs' : List JoinCondition} (h : EqualitiesAlone cs) (hsub : cs'.Sublist cs) :
    EqualitiesAlone cs' := by
  intro c hc hop
  have hfilter := hsub.filter fun c' => decide (c'.lhsCol.colName = c.lhsCol.colName)
  rw [h c (hsub.subset hc) hop] at hfilter
  have hmem : c ∈ cs'.filter fun c' => decide (c'.lhsCol.colName = c.lhsCol.colName) :=
    List.mem_filter.mpr ⟨hc, decide_eq_true rfl⟩
  rcases List.sublist_singleton.mp hfilter with hnil | heq
  · rw [hnil] at hmem
    cases hmem
  · exact heq

/-- A column of a record whose value is the literal has its bytes. -/
theorem slice_of_eq {col : ColMeta} {v : Value} (hsized : col.Sized) {r : RmRecord}
    (hw : ∃ w : Value, w.StoredIn col ∧ slice r col.offset col.len = w.raw col.len)
    (heq : (col.read r).eq v = true) : slice r col.offset col.len = v.raw col.len := by
  obtain ⟨w, hw, hslice⟩ := hw
  rw [hw.read hsized hslice] at heq
  rw [hslice]
  cases w <;> cases v <;> simp_all [Value.eq, Value.StoredIn]

/-- An equality is the only condition on its column. -/
theorem matchIndex_eq {conds₀ : List JoinCondition} {name : String} {names : List String} {c : JoinCondition}
    {cs : List JoinCondition} (h : Planner.matchIndex conds₀ (name :: names) = c :: cs)
    (halone : EqualitiesAlone (c :: cs)) (hop : c.op = .eq) :
    c.lhsCol.colName = name ∧ cs = Planner.matchIndex conds₀ names := by
  rw [Planner.matchIndex] at h
  set found := conds₀.filter fun c => decide (c.lhsCol.colName = name) with hfound
  have hname : ∀ c' ∈ found, c'.lhsCol.colName = name := fun c' hc' => of_decide_eq_true (List.mem_filter.mp hc').2
  split at h
  · cases h
  · cases hcases : found with
    | nil => simp_all
    | cons c' fs =>
      rw [hcases] at h hname
      obtain ⟨rfl, rfl⟩ := List.cons.inj h
      have hc := hname c' List.mem_cons_self
      have hself : (c' :: fs).filter (fun d => decide (d.lhsCol.colName = c'.lhsCol.colName)) = c' :: fs :=
        List.filter_eq_self.mpr fun d hd => decide_eq_true ((hname d hd).trans hc.symm)
      have hsub := (List.sublist_append_left (c' :: fs) (Planner.matchIndex conds₀ names)).filter fun d =>
        decide (d.lhsCol.colName = c'.lhsCol.colName)
      rw [hself, List.cons_append] at hsub
      have hsub : (c' :: fs).Sublist [c'] := halone c' List.mem_cons_self hop ▸ hsub
      obtain rfl : fs = [] := List.sublist_nil.mp (List.cons_sublist_cons.mp hsub)
      exact ⟨hc, rfl⟩

/-- The loop over the equalities stops at the first other condition. The key starts with the bytes that each record
that satisfies the conditions has in the columns so far. -/
theorem equalities_matchIndex {conds₀ : List JoinCondition} {ixCols : List TabColMeta} {metas : IndexMeta}
    (hon : OnColumns table ixCols metas) (hidx : Planner.matchIndex conds₀ (ixCols.map (·.name)) = idxConds)
    (halone : EqualitiesAlone idxConds) (hrhs : ∀ c ∈ idxConds, c.isRhsVal = true) (hfit : LiteralsFit table idxConds)
    (front : List UInt8) {rest : List UInt8} (hrest : rest.length = colTotLen (metas.map Prod.snd)) (n : Nat) :
    ∃ eqs rest',
    let m := (idxConds.takeWhile fun c => c.op == .eq).length
    Planner.matchIndex conds₀ ((ixCols.drop m).map (·.name)) = idxConds.dropWhile (fun c => c.op == .eq) ∧
    equalities table idxConds (front ++ rest) front.length n =
      some (idxConds.dropWhile fun c => c.op == .eq, front ++ (eqs ++ rest'), front.length + eqs.length, n + m) ∧
    eqs.length = colTotLen ((metas.take m).map Prod.snd) ∧ rest'.length = colTotLen ((metas.drop m).map Prod.snd) ∧
    ∀ r, Written (ixCols.map (·.toColMeta)) r → Satisfies table idxConds r → keyBytes (metas.take m) r = eqs := by
  obtain ⟨hfound, hmetas⟩ := hon
  induction hmetas generalizing front rest n idxConds with
  | nil =>
    obtain rfl : idxConds = [] := hidx.symm
    exact ⟨[], rest, rfl, by simp [equalities], rfl, hrest, fun _ _ _ => rfl⟩
  | @cons col x ixCols metas hx hmetas ih =>
    obtain ⟨offset, ix⟩ := x
    obtain ⟨rfl, hix⟩ : offset = col.offset ∧ col.toColMeta.ixCol = some ix := hx
    obtain ⟨-, hsized, hlen⟩ := ixCol_sized hix
    obtain ⟨hcol, hfound⟩ := List.forall_mem_cons.mp hfound
    cases idxConds with
    | nil => exact ⟨[], rest, hidx, by simp [equalities], rfl, hrest, fun _ _ _ => rfl⟩
    | cons c cs =>
      by_cases hop : c.op = .eq
      case neg =>
        refine ⟨[], rest, ?_, ?_, ?_, ?_, ?_⟩ <;>
          simp only [List.takeWhile_cons, List.dropWhile_cons, beq_iff_eq, hop, if_false, List.length_nil,
            List.drop_zero, List.take_zero]
        · exact hidx
        · simp [equalities, hop]
        · rfl
        · exact hrest
        · exact fun _ _ _ => rfl
      case pos =>
        obtain ⟨hname, hcs⟩ := matchIndex_eq hidx halone hop
        obtain ⟨hrhsc, hrhs⟩ := List.forall_mem_cons.mp hrhs
        obtain ⟨⟨col', v, hcol', hval, hv⟩, hfit'⟩ := List.forall_mem_cons.mp hfit
        obtain rfl : col = col' := by
          rw [hname, hcol] at hcol'
          exact Option.some.inj hcol'
        have hrawlen : (v.raw col.len).length = col.len := hv.raw_length hsized
        have hroom : rest.length = col.len + colTotLen (metas.map Prod.snd) := by
          rw [hrest, List.map_cons, colTotLen_cons, hlen]
        obtain ⟨eqs, rest', hdrop, hcode, heqs, hrest', hkey⟩ := @ih cs hcs.symm
          (eqAlone_of_sublist halone (List.sublist_cons_self _ _)) hrhs hfit' (front ++ v.raw col.len)
          (rest.drop col.len) (by rw [List.length_drop]; omega) (n + 1) hfound
        refine ⟨v.raw col.len ++ eqs, rest', ?_, ?_, ?_, ?_, ?_⟩ <;>
          simp only [List.takeWhile_cons, List.dropWhile_cons, beq_iff_eq, hop, if_true, List.length_cons,
            List.drop_succ_cons, List.take_succ_cons]
        · exact hdrop
        · rw [equalities, if_pos hop, raw_eq hcol' hval]
          have hwrite : memcpy (front ++ rest) front.length (v.raw col.len) (v.raw col.len).length =
              (front ++ v.raw col.len) ++ rest.drop col.len := by
            rw [memcpy_append rfl rfl (by omega), hrawlen]
          show equalities table cs (memcpy _ _ _ _) _ _ = _
          rw [hwrite, ← List.length_append, hcode]
          simp only [List.append_assoc, List.length_append, Option.some.injEq, Prod.mk.injEq, true_and]
          omega
        · simp [heqs, hrawlen, hlen]
        · exact hrest'
        · intro r hr hsat
          obtain ⟨hc, hsat⟩ := List.forall_mem_cons.mp hsat
          obtain ⟨hwcol, hr⟩ := List.forall_mem_cons.mp hr
          have heq := testRecord_literal hrhsc hcol' hval hc
          rw [hop] at heq
          rw [keyBytes, hlen, slice_of_eq hsized hwcol heq, hkey r hr hsat]

-- ---------------------------------------------------------------------------
-- The range behind the equalities
-- ---------------------------------------------------------------------------

/-- The bounds of a range come from conditions. -/
structure Range.From (table : TableFile) (conds : List JoinCondition) (r : Range) : Prop where
  lower : ∀ v bytes, r.lower = some (v, bytes) → ∃ c ∈ conds, c.rhsVal = some v ∧ raw table c = some bytes ∧
    c.op = if r.be then .ge else .gt
  upper : ∀ v bytes, r.upper = some (v, bytes) → ∃ c ∈ conds, c.rhsVal = some v ∧ raw table c = some bytes ∧
    c.op = if r.le then .le else .lt

/-- One more condition. A bound that is there stays, or is replaced. -/
theorem Range.From.add {r : Range} (h : r.From table conds) {c : JoinCondition} (hc : c ∈ conds)
    (hfit : LiteralsFit table conds) : ∃ r', r.add table c = some r' ∧ r'.From table conds ∧
      (r.lower.isSome ∨ c.op = .ge ∨ c.op = .gt → r'.lower.isSome) ∧
      (r.upper.isSome ∨ c.op = .le ∨ c.op = .lt → r'.upper.isSome) := by
  obtain ⟨col, v, hcol, hval, -⟩ := hfit c hc
  have hraw := raw_eq hcol hval
  simp only [Range.add, hval, hraw, Option.bind_eq_bind, Option.bind_some]
  by_cases hop : c.op = .ge ∨ c.op = .gt
  · have hnot : ¬ (c.op = .le ∨ c.op = .lt) := by rcases hop with hop | hop <;> simp [hop]
    have hnew : Range.From table conds { r with lower := some (v, v.raw col.len), be := c.op == .ge } := by
      refine ⟨fun w bytes hw => ?_, h.upper⟩
      obtain ⟨rfl, rfl⟩ := Prod.mk.inj (Option.some.inj hw)
      refine ⟨c, hc, hval, hraw, ?_⟩
      rcases hop with hop | hop <;> simp [hop]
    rw [if_pos hop]
    cases hlower : r.lower with
    | none => exact ⟨_, rfl, hnew, fun _ => rfl, fun hupper => hupper.resolve_right hnot⟩
    | some x =>
      simp only
      split
      · exact ⟨_, rfl, hnew, fun _ => rfl, fun hupper => hupper.resolve_right hnot⟩
      · exact ⟨r, rfl, h, fun _ => by simp [hlower], fun hupper => hupper.resolve_right hnot⟩
  · rw [if_neg hop]
    by_cases hop' : c.op = .le ∨ c.op = .lt
    · have hnew : Range.From table conds { r with upper := some (v, v.raw col.len), le := c.op == .le } := by
        refine ⟨h.lower, fun w bytes hw => ?_⟩
        obtain ⟨rfl, rfl⟩ := Prod.mk.inj (Option.some.inj hw)
        refine ⟨c, hc, hval, hraw, ?_⟩
        rcases hop' with hop' | hop' <;> simp [hop']
      rw [if_pos hop']
      cases hupper : r.upper with
      | none => exact ⟨_, rfl, hnew, fun hlower => hlower.resolve_right hop, fun _ => rfl⟩
      | some x =>
        simp only
        split
        · exact ⟨_, rfl, hnew, fun hlower => hlower.resolve_right hop, fun _ => rfl⟩
        · exact ⟨r, rfl, h, fun hlower => hlower.resolve_right hop, fun _ => by simp [hupper]⟩
    · rw [if_neg hop']
      exact ⟨r, rfl, h, fun hlower => hlower.resolve_right hop, fun hupper => hupper.resolve_right hop'⟩

/-- All conditions on the column. -/
theorem Range.From.addAll {name : String} {cs : List JoinCondition} {r : Range} (h : r.From table conds)
    (hcs : ∀ c ∈ cs, c ∈ conds ∧ c.lhsCol.colName = name) (hfit : LiteralsFit table conds) :
    ∃ r', Range.addAll table name r cs = some r' ∧ r'.From table conds ∧
      (r.lower.isSome ∨ (∃ c ∈ cs, c.op = .ge ∨ c.op = .gt) → r'.lower.isSome) ∧
      (r.upper.isSome ∨ (∃ c ∈ cs, c.op = .le ∨ c.op = .lt) → r'.upper.isSome) := by
  induction cs generalizing r with
  | nil => exact ⟨r, rfl, h, by simp, by simp⟩
  | cons c cs ih =>
    obtain ⟨⟨hc, hname⟩, hcs⟩ := List.forall_mem_cons.mp hcs
    obtain ⟨r₁, hadd, h₁, hlower₁, hupper₁⟩ := h.add hc hfit
    obtain ⟨r₂, haddAll, h₂, hlower₂, hupper₂⟩ := ih h₁ hcs
    refine ⟨r₂, ?_, h₂, ?_, ?_⟩
    · simp [Range.addAll, hname, hadd, haddAll]
    · rw [List.exists_mem_cons_iff]
      rintro (hr | hop | hrest)
      · exact hlower₂ (.inl (hlower₁ (.inl hr)))
      · exact hlower₂ (.inl (hlower₁ (.inr hop)))
      · exact hlower₂ (.inr hrest)
    · rw [List.exists_mem_cons_iff]
      rintro (hr | hop | hrest)
      · exact hupper₂ (.inl (hupper₁ (.inl hr)))
      · exact hupper₂ (.inl (hupper₁ (.inr hop)))
      · exact hupper₂ (.inr hrest)

-- ---------------------------------------------------------------------------
-- The bounds
-- ---------------------------------------------------------------------------

theorem keyBytes_append (cols cols' : IndexMeta) (r : RmRecord) :
    keyBytes (cols ++ cols') r = keyBytes cols r ++ keyBytes cols' r := by
  induction cols with
  | nil => rfl
  | cons x cols ih => simp [keyBytes, ih]

theorem eq_self_of_storedIn {col : ColMeta} {v : Value} (hv : v.StoredIn col) : v.eq v = true := by
  cases v with
  | float x => cases hv
  | int n | bigint n | datetime n | string s => exact beq_self_eq_true _

theorem raw_injective {col : ColMeta} (hsized : col.Sized) {v w : Value} (hv : v.StoredIn col) (hw : w.StoredIn col)
    (heq : v.raw col.len = w.raw col.len) : v = w := by
  have hslice : ∀ {u : Value}, u.StoredIn col →
      slice (List.replicate col.offset 0 ++ u.raw col.len) col.offset col.len = u.raw col.len := by
    intro u hu
    rw [slice_skip (by simp), List.length_replicate, Nat.sub_self, slice_self (hu.raw_length hsized)]
  rw [← hv.read hsized (hslice hv), ← hw.read hsized (hslice hw), heq]

/-- The last column of an index. -/
theorem exists_last {ixCols : List TabColMeta} {metas : IndexMeta} (hon : OnColumns table ixCols metas) {m : Nat}
    (hm : m + 1 = metas.length) : ∃ d x, d ∈ ixCols ∧ ixCols.drop m = [d] ∧ metas = metas.take m ++ [x] ∧
      metas.drop m = [x] ∧ x.1 = d.offset ∧ d.toColMeta.ixCol = some x.2 := by
  have hdrop := List.forall₂_drop m hon.metas
  obtain ⟨x, hx⟩ := List.length_eq_one_iff.mp (show (metas.drop m).length = 1 by rw [List.length_drop]; omega)
  rw [hx] at hdrop
  obtain ⟨d, l, ⟨hoffset, hd⟩, hnil, hcons⟩ := List.forall₂_cons_right_iff.mp hdrop
  obtain rfl := List.forall₂_nil_right_iff.mp hnil
  refine ⟨d, x, List.mem_of_mem_drop (hcons ▸ List.mem_singleton_self d), hcons, ?_, hx, hoffset, hd⟩
  rw [← hx, List.take_append_drop]

/-- The values that satisfy a condition with this literal are on one side of it. -/
theorem Range.From.lower_test {conds : List JoinCondition} {d : TabColMeta} {r : Range} (h : r.From table conds)
    (hrhs : ∀ c ∈ conds, c.isRhsVal = true) (hfit : LiteralsFit table conds)
    (hcol : ∀ c ∈ conds, findFromCols table.cols c.lhsCol.colName = some d) {v : Value}
    {bytes : List UInt8} (hlower : r.lower = some (v, bytes)) : v.StoredIn d.toColMeta ∧ bytes = v.raw d.len ∧
      ∀ a, Satisfies table conds a →
        if r.be then (d.toColMeta.read a).lt v = false else v.lt (d.toColMeta.read a) = true := by
  obtain ⟨c, hc, hval, hraw, hop⟩ := h.lower v bytes hlower
  obtain ⟨col, w, hcol', hval', hw⟩ := hfit c hc
  obtain rfl : d = col := Option.some.inj ((hcol c hc).symm.trans hcol')
  obtain rfl : v = w := Option.some.inj (hval.symm.trans hval')
  rw [raw_eq hcol' hval'] at hraw
  refine ⟨hw, (Option.some.inj hraw).symm, fun a ha => ?_⟩
  have htest := testRecord_literal (hrhs c hc) hcol' hval' (ha c hc)
  cases hbe : r.be with
  | true => simpa [hop, hbe, CompOp.test] using htest
  | false => simpa [hop, hbe, CompOp.test, Value.gt] using htest

theorem Range.From.upper_test {conds : List JoinCondition} {d : TabColMeta} {r : Range} (h : r.From table conds)
    (hrhs : ∀ c ∈ conds, c.isRhsVal = true) (hfit : LiteralsFit table conds)
    (hcol : ∀ c ∈ conds, findFromCols table.cols c.lhsCol.colName = some d) {v : Value}
    {bytes : List UInt8} (hupper : r.upper = some (v, bytes)) : v.StoredIn d.toColMeta ∧ bytes = v.raw d.len ∧
      ∀ a, Satisfies table conds a →
        if r.le then v.lt (d.toColMeta.read a) = false else (d.toColMeta.read a).lt v = true := by
  obtain ⟨c, hc, hval, hraw, hop⟩ := h.upper v bytes hupper
  obtain ⟨col, w, hcol', hval', hw⟩ := hfit c hc
  obtain rfl : d = col := Option.some.inj ((hcol c hc).symm.trans hcol')
  obtain rfl : v = w := Option.some.inj (hval.symm.trans hval')
  rw [raw_eq hcol' hval'] at hraw
  refine ⟨hw, (Option.some.inj hraw).symm, fun a ha => ?_⟩
  have htest := testRecord_literal (hrhs c hc) hcol' hval' (ha c hc)
  cases hle : r.le with
  | true => simpa [hop, hle, CompOp.test, Value.gt] using htest
  | false => simpa [hop, hle, CompOp.test] using htest

/-- Keys that start with the bytes `front` and end with a value of the column `d` are ordered by the value. -/
structure EndsIn (cols : List IxCol) (front : List UInt8) (d : ColMeta) : Prop where
  length : ∀ v : Value, v.StoredIn d → (front ++ v.raw d.len).length = colTotLen cols
  lt_iff : ∀ (u v : Value) (hu : u.StoredIn d) (hv : v.StoredIn d),
    (⟨front ++ u.raw d.len, length u hu⟩ : KeyBytes cols) <
    ⟨front ++ v.raw d.len, length v hv⟩ ↔ u.lt v = true
  eq_iff : ∀ u v : Value, u.StoredIn d → v.StoredIn d → (u.raw d.len = v.raw d.len ↔ u = v)

theorem endsIn_last {cols cs : List IxCol} {c : IxCol} (hcols : cols = cs ++ [c]) {d : ColMeta}
    (hc : d.ixCol = some c) {front : List UInt8} (hfront : front.length = colTotLen cs) : EndsIn cols front d := by
  obtain ⟨-, hsized, hlen⟩ := ixCol_sized hc
  refine ⟨fun v hv => ?_, fun u v hu hv => key_lt_iff hcols hc hu hv hfront rfl rfl, fun u v hu hv => ?_⟩
  · rw [hcols, colTotLen_append, List.length_append, hfront, hv.raw_length hsized, colTotLen_cons, colTotLen_nil, hlen]
    rfl
  · exact ⟨raw_injective hsized hu hv, fun h => h ▸ rfl⟩

section Sides

variable {cols : List IxCol} {front : List UInt8} {d : ColMeta} {u v w : Value} {r : Range} {vs ws : List UInt8}

/-- The key with the value in its last column. -/
def EndsIn.key (h : EndsIn cols front d) (hv : v.StoredIn d) : KeyBytes cols := ⟨front ++ v.raw d.len, h.length v hv⟩

theorem EndsIn.key_lt_iff (h : EndsIn cols front d) (hu : u.StoredIn d) (hv : v.StoredIn d) :
    h.key hu < h.key hv ↔ u.lt v = true :=
  h.lt_iff u v hu hv

theorem EndsIn.not_before_lower (h : EndsIn cols front d) (hu : u.StoredIn d) (hv : v.StoredIn d)
    (htest : if r.be then u.lt v = false else v.lt u = true) :
    ¬ ((if r.be then IxBound.lower else .upper) (h.key hv)).Before (h.key hu) := by
  cases hbe : r.be with
  | true =>
    rw [hbe, if_pos rfl] at htest
    rw [if_pos rfl, IxBound.Before, h.key_lt_iff hu hv, htest]
    exact Bool.false_ne_true
  | false =>
    rw [hbe, if_neg Bool.false_ne_true] at htest
    rw [if_neg Bool.false_ne_true, IxBound.Before, not_le, h.key_lt_iff hv hu]
    exact htest

theorem EndsIn.before_upper (h : EndsIn cols front d) (hu : u.StoredIn d) (hw : w.StoredIn d)
    (htest : if r.le then w.lt u = false else u.lt w = true) :
    ((if r.le then IxBound.upper else .lower) (h.key hw)).Before (h.key hu) := by
  cases hle : r.le with
  | true =>
    rw [hle, if_pos rfl] at htest
    rw [if_pos rfl, IxBound.Before, ← not_lt, h.key_lt_iff hw hu, htest]
    exact Bool.false_ne_true
  | false =>
    rw [hle, if_neg Bool.false_ne_true] at htest
    rw [if_neg Bool.false_ne_true, IxBound.Before, h.key_lt_iff hu hw]
    exact htest

/-- In a range that is not empty the lower bound is not behind the upper one. -/
theorem EndsIn.before_of_before (h : EndsIn cols front d) (hv : v.StoredIn d) (hw : w.StoredIn d)
    (hlower : r.lower = some (v, vs)) (hupper : r.upper = some (w, ws)) (hempty : r.isEmpty = false)
    {k : KeyBytes cols} (hk : ((if r.be then IxBound.lower else .upper) (h.key hv)).Before k) :
    ((if r.le then IxBound.upper else .lower) (h.key hw)).Before k := by
  simp only [Range.isEmpty, hlower, hupper, Bool.or_eq_false_iff, Value.gt] at hempty
  obtain ⟨hgt, hends⟩ := hempty
  have hle : h.key hv ≤ h.key hw := by
    rw [← not_lt, h.key_lt_iff hw hv, hgt]
    exact Bool.false_ne_true
  -- Unless both ends belong to the range, it has two different ends.
  have hlt : (r.be && r.le) = false → h.key hv < h.key hw := by
    intro hnot
    refine lt_of_le_of_ne hle fun heq => ?_
    injection heq with hbytes
    obtain rfl := (h.eq_iff v w hv hw).mp (List.append_cancel_left hbytes)
    simp [eq_self_of_storedIn hv, hnot] at hends
  cases hbe : r.be with
  | true =>
    rw [hbe, if_pos rfl] at hk
    cases hle' : r.le with
    | true => exact le_of_lt (lt_of_lt_of_le hk hle)
    | false => exact lt_of_lt_of_le hk hle
  | false =>
    rw [hbe, if_neg Bool.false_ne_true] at hk
    have hstrict := lt_of_le_of_lt hk (hlt (by simp [hbe]))
    cases hle' : r.le with
    | true => exact le_of_lt hstrict
    | false => exact hstrict

end Sides

/-- The keys of all records with the property are between the two positions. -/
def Encloses (L : List (Leaf (KeyBytes (index.cols.map Prod.snd)))) (P : RmRecord → Prop) (lower upper : Iid) : Prop :=
  ∃ lo hi, PlacedAt L lower lo ∧ PlacedAt L upper hi ∧ (∀ k, lo k = true → hi k = true) ∧
    ∀ r, P r → lo (index.key r) = false ∧ hi (index.key r) = true

variable {P : RmRecord → Prop} {key eqs rest : List UInt8}

/-- The bounds when each column has an equality. -/
theorem bounds_equalities (ht : Tree index.handle L up) {offset : Nat}
    (hcode : equalities table idxConds key 0 0 = some ([], eqs, offset, index.cols.length))
    (heqs : eqs.length = colTotLen (index.cols.map Prod.snd)) (hrow : ∀ r, P r → keyBytes index.cols r = eqs) :
    ∃ lower upper, bounds table index idxConds key = some (lower, upper, eqs) ∧ Encloses L P lower upper := by
  obtain ⟨last, hlast, -⟩ := placedAt_leafEnd ht
  obtain ⟨lower, hlower, hlowerAt⟩ := bound_full ht heqs .lower
  obtain ⟨upper, hupper, hupperAt⟩ := bound_full ht heqs .upper
  refine ⟨lower, upper, ?_, _, _, hlowerAt, hupperAt, fun k hk => ?_, fun r hr => ?_⟩
  · simp only [bounds, hlast, Except.toOption, hcode, Option.bind_eq_bind, Option.bind_some, hlower, hupper]
    rfl
  · exact decide_eq_true (le_of_lt (of_decide_eq_true hk))
  · have heq : index.key r = ⟨eqs, heqs⟩ := KeyBytes.ext (hrow r hr)
    rw [heq]
    exact ⟨decide_eq_false (lt_irrefl _), decide_eq_true (le_refl _)⟩

section Range

variable {cs : List JoinCondition} {m : Nat} {d : TabColMeta} {r : Range} {v w : Value} {vs ws : List UInt8}

/-- The position that is looked for with the lower value. -/
theorem placedAt_of_lower (ht : Tree index.handle L up) (hm : m + 1 = index.cols.length)
    (hends : EndsIn (index.cols.map Prod.snd) eqs d.toColMeta) (hfrom : r.From table cs)
    (hrhs : ∀ c ∈ cs, c.isRhsVal = true) (hfit : LiteralsFit table cs)
    (hcol : ∀ c ∈ cs, findFromCols table.cols c.lhsCol.colName = some d)
    (hrow : ∀ a, P a → Satisfies table cs a ∧ ∃ hu : (d.toColMeta.read a).StoredIn d.toColMeta,
      index.key a = hends.key hu) (hvs : r.lower = some (v, vs)) :
    ∃ hv : v.StoredIn d.toColMeta, vs = v.raw d.len ∧ ∃ iid,
      bound index (eqs ++ v.raw d.len) (m + 1) (if r.be then .lower else .upper) = some iid ∧
      PlacedAt L iid (fun k => decide (((if r.be then IxBound.lower else .upper) (hends.key hv)).Before k)) ∧
      ∀ a, P a → ¬ ((if r.be then IxBound.lower else .upper) (hends.key hv)).Before (index.key a) := by
  obtain ⟨hv, hraw, htest⟩ := hfrom.lower_test hrhs hfit hcol hvs
  obtain ⟨iid, hbound, hat⟩ := bound_full ht (hends.length v hv) (if r.be then .lower else .upper)
  refine ⟨hv, hraw, iid, hm ▸ hbound, hat, fun a ha => ?_⟩
  obtain ⟨hsat, hu, hkey⟩ := hrow a ha
  rw [hkey]
  exact hends.not_before_lower hu hv (htest a hsat)

/-- The position that is looked for with the upper value. -/
theorem placedAt_of_upper (ht : Tree index.handle L up) (hm : m + 1 = index.cols.length)
    (hends : EndsIn (index.cols.map Prod.snd) eqs d.toColMeta) (hfrom : r.From table cs)
    (hrhs : ∀ c ∈ cs, c.isRhsVal = true) (hfit : LiteralsFit table cs)
    (hcol : ∀ c ∈ cs, findFromCols table.cols c.lhsCol.colName = some d)
    (hrow : ∀ a, P a → Satisfies table cs a ∧ ∃ hu : (d.toColMeta.read a).StoredIn d.toColMeta,
      index.key a = hends.key hu) (hws : r.upper = some (w, ws)) :
    ∃ hw : w.StoredIn d.toColMeta, ws = w.raw d.len ∧ ∃ iid,
      bound index (eqs ++ w.raw d.len) (m + 1) (if r.le then .upper else .lower) = some iid ∧
      PlacedAt L iid (fun k => decide (((if r.le then IxBound.upper else .lower) (hends.key hw)).Before k)) ∧
      ∀ a, P a → ((if r.le then IxBound.upper else .lower) (hends.key hw)).Before (index.key a) := by
  obtain ⟨hw, hraw, htest⟩ := hfrom.upper_test hrhs hfit hcol hws
  obtain ⟨iid, hbound, hat⟩ := bound_full ht (hends.length w hw) (if r.le then .upper else .lower)
  refine ⟨hw, hraw, iid, hm ▸ hbound, hat, fun a ha => ?_⟩
  obtain ⟨hsat, hu, hkey⟩ := hrow a ha
  rw [hkey]
  exact hends.before_upper hu hw (htest a hsat)

end Range

/-- The bounds when the last column has a range. -/
theorem bounds_range (ht : Tree index.handle L up) {c : JoinCondition} {cs : List JoinCondition} {m : Nat}
    {d : TabColMeta} (hcode : equalities table idxConds key 0 0 = some (c :: cs, eqs ++ rest, eqs.length, m))
    (hm : m + 1 = index.cols.length) (hends : EndsIn (index.cols.map Prod.snd) eqs d.toColMeta)
    (hsized : d.toColMeta.Sized) (hrest : rest.length = d.len) (hname : ∀ c' ∈ c :: cs, c'.lhsCol.colName = d.name)
    (hd : findFromCols table.cols d.name = some d) (hrhs : ∀ c' ∈ c :: cs, c'.isRhsVal = true)
    (hfit : LiteralsFit table (c :: cs))
    (hsides : m = 0 ∨ (∃ c' ∈ c :: cs, c'.op = .ge ∨ c'.op = .gt) ∧ ∃ c' ∈ c :: cs, c'.op = .le ∨ c'.op = .lt)
    (hrow : ∀ r, P r → Satisfies table (c :: cs) r ∧ ∃ hu : (d.toColMeta.read r).StoredIn d.toColMeta,
      index.key r = hends.key hu) :
    ∃ lower upper key', bounds table index idxConds key = some (lower, upper, key') ∧
      key'.length = (eqs ++ rest).length ∧ Encloses L P lower upper := by
  obtain ⟨last, hlast, hlastAt⟩ := placedAt_leafEnd ht
  have hbeginAt := placedAt_leafBegin ht
  have hcol : ∀ c' ∈ c :: cs, findFromCols table.cols c'.lhsCol.colName = some d :=
    fun c' hc' => (hname c' hc').symm ▸ hd
  have hwrite : ∀ (old : List UInt8) (v : Value), old.length = d.len → v.StoredIn d.toColMeta →
      memcpy (eqs ++ old) eqs.length (v.raw d.len) (v.raw d.len).length = eqs ++ v.raw d.len := by
    intro old v hold hv
    have hlen := hv.raw_length hsized
    rw [memcpy_append rfl rfl (by omega), List.drop_eq_nil_of_le (by omega), List.append_nil]
  have hnew : Range.From table (c :: cs) ⟨none, none, false, false⟩ :=
    ⟨fun _ _ h => (by cases h), fun _ _ h => (by cases h)⟩
  obtain ⟨r, haddAll, hfrom, hlowerSome, hupperSome⟩ := hnew.addAll
    (fun c' hc' => ⟨hc', (hname c' hc').trans (hname c List.mem_cons_self).symm⟩) hfit
  cases hempty : r.isEmpty with
  | true =>
    refine ⟨_, last, eqs ++ rest, ?_, rfl, _, _, hbeginAt, hlastAt, fun _ _ => rfl, fun _ _ => ⟨rfl, rfl⟩⟩
    simp only [bounds, hlast, Except.toOption, hcode, Option.bind_eq_bind, Option.bind_some, haddAll, hempty, if_true]
    rfl
  | false =>
    have hnoLower : r.lower = none → m = 0 := by
      intro hnone
      refine hsides.resolve_right fun hboth => ?_
      simpa [hnone] using hlowerSome (.inr hboth.1)
    have hnoUpper : r.upper = none → m = 0 := by
      intro hnone
      refine hsides.resolve_right fun hboth => ?_
      simpa [hnone] using hupperSome (.inr hboth.2)
    have hlower := fun v vs =>
      @placedAt_of_lower table index L up P eqs (c :: cs) m d r v vs ht hm hends hfrom hrhs hfit hcol hrow
    have hupper := fun w ws =>
      @placedAt_of_upper table index L up P eqs (c :: cs) m d r w ws ht hm hends hfrom hrhs hfit hcol hrow
    cases hl : r.lower with
    | none =>
      have hm₀ := hnoLower hl
      cases hu : r.upper with
      | none =>
        refine ⟨_, last, eqs ++ rest, ?_, rfl, _, _, hbeginAt, hlastAt, fun _ _ => rfl, fun _ _ => ⟨rfl, rfl⟩⟩
        simp only [bounds, hlast, Except.toOption, hcode, Option.bind_eq_bind, Option.bind_some, haddAll, hempty,
          Bool.false_eq_true, if_false, hl, hu, hm₀, ne_eq, not_true_eq_false]
        rfl
      | some x =>
        obtain ⟨w, ws⟩ := x
        obtain ⟨hw, rfl, iid, hbound, hat, hbefore⟩ := hupper w ws hu
        refine ⟨_, iid, eqs ++ w.raw d.len, ?_, by simp [hrest, hw.raw_length hsized], _, _, hbeginAt, hat,
          fun _ hk => (by cases hk), fun a ha => ⟨rfl, decide_eq_true (hbefore a ha)⟩⟩
        simp only [bounds, hlast, Except.toOption, hcode, Option.bind_eq_bind, Option.bind_some, haddAll, hempty,
          Bool.false_eq_true, if_false, hl, hu, hm₀, ne_eq, not_true_eq_false, hwrite rest w hrest hw]
        rw [hm₀] at hbound
        simp [hbound]
    | some x =>
      obtain ⟨v, vs⟩ := x
      obtain ⟨hv, rfl, lower, hboundLower, hatLower, hnotBefore⟩ := hlower v vs hl
      cases hu : r.upper with
      | none =>
        have hm₀ := hnoUpper hu
        refine ⟨lower, last, eqs ++ v.raw d.len, ?_, by simp [hrest, hv.raw_length hsized], _, _, hatLower, hlastAt,
          fun _ _ => rfl, fun a ha => ⟨decide_eq_false (hnotBefore a ha), rfl⟩⟩
        simp only [bounds, hlast, Except.toOption, hcode, Option.bind_eq_bind, Option.bind_some, haddAll, hempty,
          Bool.false_eq_true, if_false, hl, hu, hwrite rest v hrest hv, hm₀, ne_eq, not_true_eq_false]
        rw [hm₀] at hboundLower
        simp [hboundLower]
      | some x =>
        obtain ⟨w, ws⟩ := x
        obtain ⟨hw, rfl, upper, hboundUpper, hatUpper, hbefore⟩ := hupper w ws hu
        refine ⟨lower, upper, eqs ++ w.raw d.len, ?_, by simp [hrest, hw.raw_length hsized], _, _, hatLower, hatUpper,
          fun k hk => ?_, fun a ha => ⟨decide_eq_false (hnotBefore a ha), decide_eq_true (hbefore a ha)⟩⟩
        · simp only [bounds, hlast, Except.toOption, hcode, Option.bind_eq_bind, Option.bind_some, haddAll, hempty,
            Bool.false_eq_true, if_false, hl, hu, hwrite rest v hrest hv, hboundLower, Option.map_some,
            hwrite (v.raw d.len) w (hv.raw_length hsized) hw, hboundUpper]
          rfl
        · exact decide_eq_true (hends.before_of_before hv hw hl hu hempty (of_decide_eq_true hk))

/-- The bounds of a scan, whatever its conditions are. -/
theorem bounds_full (ht : Tree index.handle L up) {ixCols : List TabColMeta} (hon : OnColumns table ixCols index.cols)
    {conds₀ : List JoinCondition} (hidx : Planner.matchIndex conds₀ (ixCols.map (·.name)) = idxConds)
    (halone : EqualitiesAlone idxConds) (hrhs : ∀ c ∈ idxConds, c.isRhsVal = true) (hfit : LiteralsFit table idxConds)
    (hfull : AsksFullKeys index.cols.length idxConds) (hkey : key.length = colTotLen (index.cols.map Prod.snd)) :
    ∃ lower upper key', bounds table index idxConds key = some (lower, upper, key') ∧ key'.length = key.length ∧
      Encloses L (fun r => Written (ixCols.map (·.toColMeta)) r ∧ Satisfies table idxConds r) lower upper := by
  obtain ⟨eqs, rest, hdrop, hcode, heqs, hrest, hrow⟩ := equalities_matchIndex hon hidx halone hrhs hfit [] hkey 0
  simp only [List.nil_append, List.length_nil, Nat.zero_add] at hcode
  rcases hfull with ⟨hnone, hm⟩ | ⟨hsome, hm, hsides⟩
  · rw [hm, List.take_length] at heqs hrow
    rw [hm, List.drop_length] at hrest
    obtain rfl : rest = [] := List.length_eq_zero_iff.mp hrest
    rw [hnone, hm, List.append_nil] at hcode
    obtain ⟨lower, upper, hbounds, hencloses⟩ := bounds_equalities ht hcode heqs
      fun r (hr : Written (ixCols.map (·.toColMeta)) r ∧ Satisfies table idxConds r) => hrow r hr.1 hr.2
    exact ⟨lower, upper, eqs, hbounds, heqs.trans hkey.symm, hencloses⟩
  · obtain ⟨d, x, hd, hdLast, hcols, hxLast, hoffset, hix⟩ := exists_last hon hm
    obtain ⟨-, hsized, hxlen⟩ := ixCol_sized hix
    generalize hmeq : (idxConds.takeWhile fun c => c.op == .eq).length = m at *
    generalize htodo : idxConds.dropWhile (fun c => c.op == .eq) = todo at *
    have hmem : ∀ c ∈ todo, c ∈ idxConds := fun c hc => (List.dropWhile_sublist _).subset (htodo ▸ hc)
    have hname : ∀ c ∈ todo, c.lhsCol.colName = d.name := by
      intro c hc
      rw [← hdrop, hdLast, List.map_singleton, Planner.matchIndex, Planner.matchIndex, List.append_nil] at hc
      split at hc
      · cases hc
      · exact of_decide_eq_true (List.mem_filter.mp hc).2
    rw [hxLast, List.map_singleton, colTotLen_cons, colTotLen_nil, hxlen, Nat.add_zero] at hrest
    have hcols' : index.cols.map Prod.snd = (index.cols.take m).map Prod.snd ++ [x.2] := by
      rw [← List.map_singleton, ← List.map_append, ← hcols]
    have hends := endsIn_last hcols' hix heqs
    cases todo with
    | nil => exact absurd rfl hsome
    | cons c cs =>
      have hsides' : m = 0 ∨ (∃ c' ∈ c :: cs, c'.op = .ge ∨ c'.op = .gt) ∧ ∃ c' ∈ c :: cs, c'.op = .le ∨ c'.op = .lt :=
        hsides.imp_left fun hnil => by rw [← hmeq, hnil, List.length_nil]
      have hrow' : ∀ r, Written (ixCols.map (·.toColMeta)) r ∧ Satisfies table idxConds r →
          Satisfies table (c :: cs) r ∧
            ∃ hu : (d.toColMeta.read r).StoredIn d.toColMeta, index.key r = hends.key hu := by
        rintro r ⟨hw, hsat⟩
        obtain ⟨u, hu, hslice⟩ := hw d.toColMeta (List.mem_map_of_mem hd)
        have hread := hu.read hsized hslice
        refine ⟨fun c' hc' => hsat c' (hmem c' hc'), hread.symm ▸ hu, KeyBytes.ext ?_⟩
        have hbytes : keyBytes index.cols r = keyBytes (index.cols.take m) r ++ keyBytes [x] r := by
          rw [← keyBytes_append, ← hcols]
        show keyBytes index.cols r = eqs ++ (d.toColMeta.read r).raw d.len
        rw [hbytes, hrow r hw hsat]
        show eqs ++ (slice r x.1 x.2.len ++ []) = _
        rw [List.append_nil, hoffset, hxlen, hslice, hread]
      obtain ⟨lower, upper, key', hbounds, hlen, hencloses⟩ := bounds_range ht hcode hm hends hsized hrest hname
        (hon.found d hd) (fun c' hc' => hrhs c' (hmem c' hc')) (fun c' hc' => hfit c' (hmem c' hc')) hsides' hrow'
      refine ⟨lower, upper, key', hbounds, ?_, hencloses⟩
      rw [hlen, List.length_append, hrest, heqs, hkey, hcols', colTotLen_append, colTotLen_cons, colTotLen_nil, hxlen,
        Nat.add_zero]

-- ---------------------------------------------------------------------------
-- A whole pass
-- ---------------------------------------------------------------------------

/-- The constructor of `IxScan`, for two places. -/
theorem exists_scanAt (ht : Tree index.handle L up) {i j : Nat} (hij : i ≤ j) (hj : j ≤ (entriesOf L).length) :
    ∃ scan, IxScan.new index.handle (iidAt L i) (iidAt L j) = .ok scan ∧ ScanAt L i j scan := by
  by_cases heq : iidAt L i = iidAt L j
  · obtain rfl := iidAt_inj ht.nodup ht.ne_nil (hij.trans hj) hj heq
    exact ⟨_, by rw [IxScan.new, if_pos heq], rfl, rfl, fun h => absurd h (lt_irrefl _),
      fun h => absurd h (lt_irrefl _)⟩
  · obtain ⟨LA, n, LB, s, hat⟩ := exists_atSlot ht.ne_nil (hij.trans hj)
    obtain ⟨node, hfetch, -, hleaf, hkeys, -, -⟩ := ht.fetchLeaf hat.leaves
    refine ⟨⟨iidAt L i, iidAt L j, false, n.entries.length⟩, ?_, rfl, rfl, fun _ => rfl, fun _ LA' n' LB' s' hat' => ?_⟩
    · rw [IxScan.new, if_neg heq, hat.iidAt]
      simp [hfetch, hleaf, ixAssert, hkeys]
    · have hsame := hat.iidAt.symm.trans hat'.iidAt
      injection hsame with hpage _
      obtain ⟨-, rfl, -⟩ := leaf_unique ht.nodup hat.leaves hat'.leaves hpage
      rfl

theorem outcome_of_yields {σ α : Type} {c : Cursor σ α} {s : σ} {xs : List α} (h : c.Yields s xs) :
    c.Outcome s (some xs) := by
  induction h with
  | done hend => exact .done hend
  | tuple hend hnext _ ih => exact .tuple hend hnext ih

/-- What one pair of the index gives. -/
theorem found_iff {rid : Rid} {x : Rid × RmRecord} : ((table.file.recordAt rid).bind fun r =>
    if SeqScanExecutor.test table conds r = some true then some (rid, r) else none) = some x ↔
    x.1 = rid ∧ table.file.recordAt rid = some x.2 ∧ SeqScanExecutor.test table conds x.2 = some true := by
  rw [Option.bind_eq_some_iff]
  constructor
  · rintro ⟨r, hr, hfound⟩
    split at hfound
    · rename_i htest
      obtain rfl := Option.some.inj hfound
      exact ⟨rfl, hr, htest⟩
    · cases hfound
  · rintro ⟨rfl, hr, htest⟩
    exact ⟨x.2, hr, if_pos htest⟩

/-- Which records are found in a part of the index. -/
theorem mem_foundIn {es : List (KeyBytes (index.cols.map Prod.snd) × Rid)} {rid : Rid} {r : RmRecord} :
    (rid, r) ∈ foundIn table conds es ↔ (∃ k, (k, rid) ∈ es) ∧ table.file.recordAt rid = some r ∧
      SeqScanExecutor.test table conds r = some true := by
  rw [foundIn, List.mem_filterMap]
  constructor
  · rintro ⟨⟨k, rid'⟩, he, hfound⟩
    obtain ⟨rfl, hr, htest⟩ := found_iff.mp hfound
    exact ⟨⟨k, he⟩, hr, htest⟩
  · rintro ⟨⟨k, he⟩, hr, htest⟩
    exact ⟨(k, rid), he, found_iff.mpr ⟨rfl, hr, htest⟩⟩

/-- A pass over an index that lists the records of the table. -/
theorem pass_right (ht : Tree index.handle L up)
    (hexact : ∀ key rid, (key, rid) ∈ entriesOf L ↔ ∃ r, table.file.recordAt rid = some r ∧ index.key r = key)
    {ixCols : List TabColMeta} (hon : OnColumns table ixCols index.cols)
    (hwritten : ∀ rid r, table.file.recordAt rid = some r → Written (ixCols.map (·.toColMeta)) r)
    (htest : ∀ rid r, table.file.recordAt rid = some r → ∃ b, SeqScanExecutor.test table conds r = some b)
    {conds₀ : List JoinCondition} (hidx : Planner.matchIndex conds₀ (ixCols.map (·.name)) = idxConds)
    (hsub : ∀ c ∈ idxConds, c ∈ conds) (halone : EqualitiesAlone idxConds)
    (hrhs : ∀ c ∈ idxConds, c.isRhsVal = true) (hfit : LiteralsFit table idxConds)
    (hfull : AsksFullKeys index.cols.length idxConds) {fuel : Nat} (hfuel : (entriesOf L).length < fuel)
    (s : IndexScanExecutor) (hkey : s.key.length = colTotLen (index.cols.map Prod.snd)) : ∃ found,
      (cursor table index conds idxConds fuel).Leads ((cursor table index conds idxConds fuel).begin s)
        (some (found.map fun x => (x.1, some x.2))) ∧ IndexScanRight table index conds found := by
  obtain ⟨lower, upper, key', hbounds, -, lo, hi, hlo, hhi, hle, hrows⟩ :=
    bounds_full ht hon hidx halone hrhs hfit hfull hkey
  obtain ⟨i, j, rfl, rfl, hij, hj, hbetween⟩ := hlo.between hhi hle
  obtain ⟨scan, hnew, hscan⟩ := exists_scanAt ht hij hj
  obtain ⟨rid, hrid, -⟩ := ridAt_iidAt ht (hij.trans hj)
  have hrow : ∀ e ∈ entriesOf L, ∃ r, table.file.recordAt e.2 = some r := by
    rintro ⟨k, rid⟩ he
    obtain ⟨r, hr, -⟩ := (hexact k rid).mp he
    exact ⟨r, hr⟩
  obtain ⟨s', hloop, hyields⟩ := @scanLoop_yields table index conds idxConds L up ht hrow htest i j hij hj fuel fuel
    (by omega) (by omega) scan hscan { s with key := key' }
  have hbegin : beginTuple table index conds idxConds fuel s = .ok s' := by
    have hpos : orStuck (ridAt index scan.iid) = .ok rid := by
      rw [hscan.iid, hrid]
      rfl
    simp only [beginTuple, hbounds, orStuck, hnew, Except.toOption, ok_bind]
    simp only [orStuck] at hpos
    rw [hpos]
    exact hloop
  refine ⟨foundIn table conds (((entriesOf L).take j).drop i), ?_, fun rid r => ?_, ?_⟩
  · have hcode : (cursor table index conds idxConds fuel).begin s = some s' := by
      show (beginTuple table index conds idxConds fuel s).toOption = some s'
      rw [hbegin]
      rfl
    rw [hcode]
    exact outcome_of_yields hyields
  · rw [mem_foundIn]
    refine ⟨And.right, fun hr => ⟨⟨index.key r, ?_⟩, hr⟩⟩
    obtain ⟨hbefore, hbefore'⟩ := hrows r ⟨hwritten rid r hr.1, fun c hc => satisfies_of_test hr.2 c (hsub c hc)⟩
    exact (hbetween _).mpr ⟨(hexact _ _).mpr ⟨r, hr.1, rfl⟩, hbefore, hbefore'⟩
  · have hsorted : (((entriesOf L).take j).drop i).Pairwise fun a b => a.1 < b.1 :=
      ht.pairwise.sublist ((List.drop_sublist _ _).trans (List.take_sublist _ _))
    have hkeys : ∀ e ∈ ((entriesOf L).take j).drop i, ∀ r, table.file.recordAt e.2 = some r → index.key r = e.1 := by
      rintro ⟨k, rid⟩ he r hr
      obtain ⟨r', hr', hk⟩ := (hexact k rid).mp ((hbetween _).mp he).1
      rw [hr, Option.some.injEq] at hr'
      rw [hr', hk]
    rw [foundIn, List.pairwise_filterMap]
    refine (List.Pairwise.and_mem.mp hsorted).imp ?_
    rintro e e' ⟨he, he', hlt⟩ x hx x' hx'
    obtain ⟨-, hr, -⟩ := found_iff.mp hx
    obtain ⟨-, hr', -⟩ := found_iff.mp hx'
    rw [hkeys e he _ hr, hkeys e' he' _ hr']
    exact hlt

end IndexScanExecutor

end Rmdb
