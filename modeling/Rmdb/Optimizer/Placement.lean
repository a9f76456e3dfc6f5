-- SUMMARY: Where make_one_rel puts the tables and the conditions of a SELECT.
import Mathlib.Data.List.Perm.Basic
import Rmdb.Optimizer.Planner

/-!
# Placement of conditions

A plan is placed well when every table is in one scan, every condition in one node, and each
node has the columns of its conditions. The joins of `make_one_rel` always are. The scans are
only when the conditions between two columns of one table are on the first table, because
`pop_conds` does not look at the table of such a condition.
-/

namespace Rmdb

namespace Plan

def scans : Plan → List ScanPlan
  | null => []
  | scan x => [x]
  | join left right _ => left.scans ++ right.scans

def tables (plan : Plan) : List String := plan.scans.map (·.tabName)

/-- The conditions at the joins of a plan. -/
def joinConds : Plan → List JoinCondition
  | null => []
  | scan _ => []
  | join left right conds => conds ++ (left.joinConds ++ right.joinConds)

/-- All conditions of a plan. -/
def conds (plan : Plan) : List JoinCondition :=
  plan.joinConds ++ plan.scans.flatMap (·.conds)

/-- There is no null in the plan, and at each join the left columns of its conditions are on the
left and the right columns on the right. -/
def JoinsCovered : Plan → Prop
  | null => False
  | scan _ => True
  | join left right conds => left.JoinsCovered ∧ right.JoinsCovered ∧
      ∀ c ∈ conds, c.isRhsVal = false ∧
        c.lhsCol.tabName ∈ left.tables ∧ c.rhsCol.tabName ∈ right.tables

@[simp] theorem tables_join (left right : Plan) (conds : List JoinCondition) :
    (join left right conds).tables = left.tables ++ right.tables := by
  simp [tables, scans]

@[simp] theorem tables_scan (x : ScanPlan) : (scan x).tables = [x.tabName] := rfl

end Plan

/-- All columns of the conditions of a scan belong to its table. -/
def ScanPlan.Covered (x : ScanPlan) : Prop :=
  ∀ c ∈ x.conds, c.lhsCol.tabName = x.tabName ∧
    (c.isRhsVal = false → c.rhsCol.tabName = x.tabName)

/-- `c'` is `c`, or `c` with its sides swapped and its operator mirrored. -/
def Mirrored (c c' : JoinCondition) : Prop := c' = c ∨ c' = c.mirror

/-- Every table is in exactly one scan, every condition in exactly one node, and that node
covers it. -/
structure WellPlaced (tables : List String) (conds : List JoinCondition) (plan : Plan) : Prop where
  tables : plan.tables.Perm tables
  conds : ∃ placed, List.Forall₂ Mirrored conds placed ∧ placed.Perm plan.conds
  scans : ∀ x ∈ plan.scans, x.Covered
  joins : plan.JoinsCovered

namespace Planner

-- ---------------------------------------------------------------------------
-- Scans
-- ---------------------------------------------------------------------------

theorem popConds_eq (t : String) (conds : List JoinCondition) :
    popConds t conds = (conds.filter (pops t), conds.filter fun c => !pops t c) := by
  induction conds with
  | nil => rfl
  | cons c conds ih =>
    by_cases h : pops t c = true <;> simp [popConds, ih, h]

/-- A condition between columns of two different tables. -/
def Crosses (tables : List String) (c : JoinCondition) : Prop :=
  Analyze.Accepted tables c ∧ c.isRhsVal = false ∧ c.lhsCol.tabName ≠ c.rhsCol.tabName

/-- What the first half of `make_one_rel` leaves: one scan for each table, and the conditions
that none of the tables has popped. -/
theorem scanLoop_ok (db : Catalog) {tables : List String}
    (htabs : ∀ t ∈ tables, ∃ tab, db.tabs t = some tab) (conds : List JoinCondition) :
    ∃ scans rest, scanLoop db tables conds = .ok (scans, rest) ∧
      scans.map (·.tabName) = tables ∧
      (scans.flatMap (·.conds) ++ rest).Perm conds ∧
      (∀ c ∈ rest, ∀ t ∈ tables, pops t c = false) ∧
      (∀ x ∈ scans, ∀ c ∈ x.conds, pops x.tabName c = true) := by
  induction tables generalizing conds with
  | nil => exact ⟨[], conds, rfl, rfl, List.Perm.refl _, by simp, by simp⟩
  | cons t ts ih =>
    obtain ⟨tab, htab⟩ := htabs t List.mem_cons_self
    obtain ⟨scans, rest, hloop, hnames, hperm, hrest, hscans⟩ :=
      ih (fun t ht => htabs t (List.mem_cons_of_mem _ ht)) (conds.filter fun c => !pops t c)
    have hsub : ∀ c ∈ rest, pops t c = false := by
      intro c hc
      have hmem := hperm.subset (List.mem_append_right _ hc)
      simpa using (List.mem_filter.mp hmem).2
    simp only [scanLoop, popConds_eq, Analyze.getTable, htab, ok_bind, hloop, pure_eq_ok]
    refine ⟨_, _, rfl, ?_, ?_, ?_, ?_⟩
    · simp [hnames]
    · rw [List.flatMap_cons, List.append_assoc]
      exact (hperm.append_left _).trans (List.filter_append_perm (pops t) conds)
    · intro c hc
      exact List.forall_mem_cons.mpr ⟨hsub c hc, hrest c hc⟩
    · intro x hx c hc
      rcases List.mem_cons.mp hx with rfl | hx
      · exact (List.mem_filter.mp hc).2
      · exact hscans x hx c hc

/-- The first scan has all conditions between columns of one table. -/
theorem scanLoop_head {db : Catalog} {t : String} {ts : List String} {conds : List JoinCondition}
    {scans : List ScanPlan} {rest : List JoinCondition}
    (h : scanLoop db (t :: ts) conds = .ok (scans, rest)) :
    ∃ x xs, scans = x :: xs ∧ x.tabName = t ∧ x.conds = conds.filter (pops t) ∧
      ∃ rest', scanLoop db ts (conds.filter fun c => !pops t c) = .ok (xs, rest') := by
  simp only [scanLoop, popConds_eq, Analyze.getTable] at h
  cases htab : db.tabs t with
  | none => simp [htab] at h
  | some tab =>
    cases hloop : scanLoop db ts (conds.filter fun c => !pops t c) with
    | error e => simp [htab, hloop] at h
    | ok result =>
      simp only [htab, hloop, ok_bind, pure_eq_ok, Except.ok.injEq, Prod.mk.injEq] at h
      exact ⟨_, _, h.1.symm, rfl, rfl, _, rfl⟩

theorem crosses_of_not_popped {tables : List String} {c : JoinCondition}
    (hc : Analyze.Accepted tables c) (h : ∀ t ∈ tables, pops t c = false) : Crosses tables c := by
  have hpops := h c.lhsCol.tabName hc.lhs
  simp only [pops, true_and, decide_eq_false_iff_not, not_or, Bool.not_eq_true] at hpops
  exact ⟨hc, hpops.1, hpops.2⟩

-- ---------------------------------------------------------------------------
-- Pushing a condition into a tree
-- ---------------------------------------------------------------------------

/-- The answer of `push_conds`, for a condition that crosses two tables. -/
def pushCode (c : JoinCondition) (tables : List String) : Nat :=
  if c.lhsCol.tabName ∈ tables then if c.rhsCol.tabName ∈ tables then 3 else 1
  else if c.rhsCol.tabName ∈ tables then 2 else 0

/-- The condition `c` has been put into `plan`, and nothing else has changed. -/
structure Pushed (c : JoinCondition) (plan plan' : Plan) : Prop where
  scans : plan'.scans = plan.scans
  joins : plan'.JoinsCovered
  conds : ∃ c', Mirrored c c' ∧ plan'.joinConds.Perm (c' :: plan.joinConds)

theorem Pushed.tables {c : JoinCondition} {plan plan' : Plan} (h : Pushed c plan plan') :
    plan'.tables = plan.tables := by
  rw [Plan.tables, h.scans, Plan.tables]

/-- `push_conds` puts a condition at the lowest join that has both of its tables. -/
theorem pushConds_spec {c : JoinCondition} (hcol : c.isRhsVal = false)
    (hne : c.lhsCol.tabName ≠ c.rhsCol.tabName) (plan : Plan) (hjoins : plan.JoinsCovered)
    (hnodup : plan.tables.Nodup) :
    (pushConds c plan).1 = pushCode c plan.tables ∧
      if pushCode c plan.tables = 3 then Pushed c plan (pushConds c plan).2
      else (pushConds c plan).2 = plan := by
  induction plan with
  | null => exact hjoins.elim
  | scan x =>
    have hcode : (pushConds c (.scan x)).1 = pushCode c (Plan.scan x).tables := by
      simp only [pushConds, pushCode, Plan.tables_scan, List.mem_singleton]
      grind
    have hne3 : pushCode c (Plan.scan x).tables ≠ 3 := by
      simp only [pushCode, Plan.tables_scan, List.mem_singleton]
      grind
    refine ⟨hcode, ?_⟩
    rw [if_neg hne3]
    rfl
  | join left right conds ihl ihr =>
    obtain ⟨hl, hr, hconds⟩ := hjoins
    rw [Plan.tables_join] at hnodup ⊢
    obtain ⟨hnl, hnr, hdisj⟩ := List.nodup_append'.mp hnodup
    obtain ⟨hlcode, hltree⟩ := ihl hl hnl
    obtain ⟨hrcode, hrtree⟩ := ihr hr hnr
    have hdisj' : ∀ t, t ∈ left.tables → t ∉ right.tables := fun t ht ht' => hdisj ht ht'
    by_cases hl3 : pushCode c left.tables = 3
    · -- Both tables are on the left.
      rw [if_pos hl3] at hltree
      have hcode : pushCode c (left.tables ++ right.tables) = 3 := by
        simp only [pushCode, List.mem_append] at hl3 ⊢
        grind
      simp only [pushConds, hlcode, hl3, if_true, hcode, true_and]
      refine ⟨?_, ?_, ?_⟩
      · simp only [Plan.scans, hltree.scans]
      · exact ⟨hltree.joins, hr, hltree.tables.symm ▸ hconds⟩
      · obtain ⟨c', hc', hperm⟩ := hltree.conds
        refine ⟨c', hc', ?_⟩
        simp only [Plan.joinConds]
        exact (((hperm.append_right right.joinConds).append_left conds).trans
          List.perm_middle)
    · rw [if_neg hl3] at hltree
      by_cases hr3 : pushCode c right.tables = 3
      · -- Both tables are on the right.
        rw [if_pos hr3] at hrtree
        have hcode : pushCode c (left.tables ++ right.tables) = 3 := by
          simp only [pushCode, List.mem_append] at hr3 ⊢
          grind
        simp only [pushConds, hlcode, hl3, if_false, hrcode, hr3, if_true, hcode, true_and, hltree]
        refine ⟨?_, ?_, ?_⟩
        · simp only [Plan.scans, hrtree.scans]
        · exact ⟨hl, hrtree.joins, hrtree.tables.symm ▸ hconds⟩
        · obtain ⟨c', hc', hperm⟩ := hrtree.conds
          refine ⟨c', hc', ?_⟩
          simp only [Plan.joinConds]
          exact ((hperm.append_left left.joinConds).append_left conds).trans
            ((List.perm_middle.append_left conds).trans List.perm_middle)
      · rw [if_neg hr3] at hrtree
        simp only [pushConds, hlcode, hl3, if_false, hrcode, hr3, hltree, hrtree]
        by_cases h0 : pushCode c left.tables = 0 ∨ pushCode c right.tables = 0
        · -- One of the sides has neither table.
          have hcode : pushCode c left.tables + pushCode c right.tables =
              pushCode c (left.tables ++ right.tables) ∧
              pushCode c (left.tables ++ right.tables) ≠ 3 := by
            simp only [pushCode, List.mem_append] at h0 hl3 hr3 ⊢
            grind
          simp only [h0, if_true, if_neg hcode.2, and_true]
          exact hcode.1
        · -- One table is on each side: this is the join.
          have hcode : pushCode c (left.tables ++ right.tables) = 3 := by
            simp only [pushCode, List.mem_append] at h0 hl3 hr3 ⊢
            grind
          simp only [h0, if_false, hcode, if_true, true_and]
          refine ⟨rfl, ⟨hl, hr, ?_⟩,
            ⟨if pushCode c left.tables = 2 then c.mirror else c, ?_, ?_⟩⟩
          · intro c' hc'
            rcases List.mem_append.mp hc' with hc' | hc'
            · exact hconds c' hc'
            · rw [List.mem_singleton.mp hc']
              by_cases hl2 : pushCode c left.tables = 2
              · rw [if_pos hl2]
                refine ⟨hcol, ?_⟩
                simp only [JoinCondition.mirror]
                simp only [pushCode] at h0 hl2 hr3
                grind
              · rw [if_neg hl2]
                refine ⟨hcol, ?_⟩
                simp only [pushCode] at h0 hl2 hl3 hr3
                grind
          · by_cases hl2 : pushCode c left.tables = 2
            · exact .inr (if_pos hl2)
            · exact .inl (if_neg hl2)
          · simp only [Plan.joinConds, List.append_assoc]
            exact List.perm_middle

-- ---------------------------------------------------------------------------
-- Growing the tree
-- ---------------------------------------------------------------------------

/-- `scantbl`, when the tables in `used` are in the tree. -/
def flags (scans : List ScanPlan) (used : List String) : List Int :=
  scans.map fun x => if x.tabName ∈ used then 1 else -1

/-- The loop over the join conditions, after the conditions `done`. -/
structure Grown (scans : List ScanPlan) (done : List JoinCondition) (st : JoinState) : Prop where
  joins : st.tree.JoinsCovered
  nodup : st.tree.tables.Nodup
  sub : ∀ x ∈ st.tree.scans, x ∈ scans
  scantbl : st.scantbl = flags scans st.tree.tables
  joined : ∀ t, t ≠ "" → (t ∈ st.joinedTables ↔ t ∈ st.tree.tables)
  conds : ∃ placed, List.Forall₂ Mirrored done placed ∧ placed.Perm st.tree.joinConds

variable {scans : List ScanPlan} {done : List JoinCondition} {st : JoinState} {t : String}

theorem flags_set (hnodup : (scans.map (·.tabName)).Nodup) {used : List String} {i : Nat}
    {x : ScanPlan} (hi : scans[i]? = some x) :
    (flags scans used).set i 1 = flags scans (x.tabName :: used) := by
  have hlt : i < scans.length := (List.getElem?_eq_some_iff.mp hi).1
  apply List.ext_getElem?
  intro j
  by_cases hij : i = j
  · subst hij
    rw [List.getElem?_set_self (by simpa [flags] using hlt)]
    simp [flags, hi]
  · rw [List.getElem?_set_ne hij]
    simp only [flags, List.getElem?_map]
    cases hj : scans[j]? with
    | none => rfl
    | some y =>
      have hne : y.tabName ≠ x.tabName := by
        intro heq
        refine hij ((List.getElem?_inj (by simpa using hlt) hnodup).mp ?_)
        simp [hi, hj, heq]
      simp [hne]

theorem replicate_eq_flags (scans : List ScanPlan) :
    List.replicate scans.length (-1 : Int) = flags scans [] := by
  simp [flags]

theorem flags_congr {used used' : List String} (h : ∀ t, t ∈ used ↔ t ∈ used') :
    flags scans used = flags scans used' := by
  simp only [flags, h]

/-- `pop_scan` finds the scan of a table of the query. -/
theorem popScan_eq (ht : t ∈ scans.map (·.tabName)) (st : JoinState) :
    ∃ x ∈ scans, x.tabName = t ∧ ∃ i, scans[i]? = some x ∧
      popScan scans t st = (.scan x, { st with
        scantbl := st.scantbl.set i 1, joinedTables := st.joinedTables ++ [t] }) := by
  cases hfind : scans.findIdx? (·.tabName = t) with
  | none =>
    obtain ⟨x, hx, rfl⟩ := List.mem_map.mp ht
    have := List.findIdx?_eq_none_iff.mp hfind x hx
    simp at this
  | some i =>
    obtain ⟨hi, hx, -⟩ := List.findIdx?_eq_some_iff_getElem.mp hfind
    have hxt : scans[i].tabName = t := by simpa using hx
    refine ⟨scans[i], List.getElem_mem hi, hxt, i, List.getElem?_eq_getElem hi, ?_⟩
    simp only [popScan, hfind, List.getElem?_eq_getElem hi, hxt]

/-- A new subtree is joined to the left of the tree, with one new condition in it. -/
theorem Grown.graft (h : Grown scans done st) (sub : Plan) {conds : List JoinCondition}
    {c c' : JoinCondition} (hsub : sub.JoinsCovered) (hnodup : sub.tables.Nodup)
    (hnew : ∀ t ∈ sub.tables, t ∉ st.tree.tables) (hscans : ∀ x ∈ sub.scans, x ∈ scans)
    (hconds : conds ++ sub.joinConds = [c']) (hc : Mirrored c c')
    (hcovered : ∀ c ∈ conds, c.isRhsVal = false ∧
      c.lhsCol.tabName ∈ sub.tables ∧ c.rhsCol.tabName ∈ st.tree.tables)
    {st' : JoinState} (htree : st'.tree = .join sub st.tree conds)
    (hscantbl : st'.scantbl = flags scans (sub.tables ++ st.tree.tables))
    (hjoined : ∀ t, t ∈ st'.joinedTables ↔ t ∈ st.joinedTables ∨ t ∈ sub.tables) :
    Grown scans (done ++ [c]) st' := by
  have htables : st'.tree.tables = sub.tables ++ st.tree.tables := by
    rw [htree, Plan.tables_join]
  constructor
  case joins =>
    rw [htree]
    exact ⟨hsub, h.joins, hcovered⟩
  case nodup =>
    rw [htables]
    exact List.nodup_append'.mpr ⟨hnodup, h.nodup, fun t ht ht' => hnew t ht ht'⟩
  case sub =>
    intro x hx
    rw [htree] at hx
    rcases List.mem_append.mp hx with hx | hx
    · exact hscans x hx
    · exact h.sub x hx
  case scantbl => rw [hscantbl, htables]
  case joined =>
    intro t ht
    rw [hjoined, htables, List.mem_append, h.joined t ht]
    exact or_comm
  case conds =>
    obtain ⟨placed, hplaced, hperm⟩ := h.conds
    refine ⟨placed ++ [c'], ?_, ?_⟩
    · exact List.rel_append hplaced (.cons hc .nil)
    · rw [htree, Plan.joinConds, ← List.append_assoc, hconds]
      exact (List.perm_append_comm).trans (hperm.append_left [c'])

theorem Grown.push (h : Grown scans done st) {c : JoinCondition} {tree : Plan}
    (hpushed : Pushed c st.tree tree) : Grown scans (done ++ [c]) { st with tree := tree } where
  joins := hpushed.joins
  nodup := hpushed.tables.symm ▸ h.nodup
  sub := hpushed.scans.symm ▸ h.sub
  scantbl := h.scantbl.trans (by rw [hpushed.tables])
  joined t ht := hpushed.tables.symm ▸ h.joined t ht
  conds := by
    obtain ⟨placed, hplaced, hperm⟩ := h.conds
    obtain ⟨c', hc', hperm'⟩ := hpushed.conds
    refine ⟨placed ++ [c'], List.rel_append hplaced (.cons hc' .nil), ?_⟩
    exact (List.perm_append_comm.trans (hperm.append_left [c'])).trans hperm'.symm

theorem nextJoin_grown (hnodup : (scans.map (·.tabName)).Nodup) {c : JoinCondition}
    (hc : Crosses (scans.map (·.tabName)) c) (h : Grown scans done st) :
    Grown scans (done ++ [c]) (nextJoin scans st c) := by
  obtain ⟨haccepted, hcol, hne⟩ := hc
  have hlname := haccepted.lhs_named
  have hrname := haccepted.rhs_named hcol
  by_cases hl : c.lhsCol.tabName ∈ st.joinedTables
  · have hlt := (h.joined _ hlname).mp hl
    by_cases hr : c.rhsCol.tabName ∈ st.joinedTables
    · -- Both tables are in the tree already.
      have hcode : pushCode c st.tree.tables = 3 := by
        rw [pushCode, if_pos hlt, if_pos ((h.joined _ hrname).mp hr)]
      obtain ⟨-, hpushed⟩ := pushConds_spec hcol hne st.tree h.joins h.nodup
      rw [if_pos hcode] at hpushed
      have heq : nextJoin scans st c = { st with tree := (pushConds c st.tree).2 } := by
        simp [nextJoin, hl, hr, Plan.isNull]
      rw [heq]
      exact h.push hpushed
    · obtain ⟨y, hy, hyr, j, hj, hright⟩ := popScan_eq (haccepted.rhs hcol) st
      have heq : nextJoin scans st c = { st with
          scantbl := st.scantbl.set j 1
          joinedTables := st.joinedTables ++ [c.rhsCol.tabName]
          tree := .join (.scan y) st.tree [c.mirror] } := by
        simp [nextJoin, hl, hr, hright, Plan.isNull]
      rw [heq]
      refine h.graft (.scan y) trivial (by simp) ?_ (by simpa [Plan.scans] using hy) rfl
        (.inr rfl) ?_ rfl ?_ (by simp [hyr])
      · simpa [hyr] using fun hmem => hr ((h.joined _ hrname).mpr hmem)
      · simpa [JoinCondition.mirror, hcol, hyr] using hlt
      · rw [h.scantbl, flags_set hnodup hj]
        rfl
  · obtain ⟨x, hx, hxl, i, hi, hleft⟩ := popScan_eq haccepted.lhs st
    have hlt : c.lhsCol.tabName ∉ st.tree.tables := fun hmem => hl ((h.joined _ hlname).mpr hmem)
    by_cases hr : c.rhsCol.tabName ∈ st.joinedTables
    · have heq : nextJoin scans st c = { st with
          scantbl := st.scantbl.set i 1
          joinedTables := st.joinedTables ++ [c.lhsCol.tabName]
          tree := .join (.scan x) st.tree [c] } := by
        simp [nextJoin, hl, hr, hleft, Plan.isNull]
      rw [heq]
      refine h.graft (.scan x) trivial (by simp) ?_ (by simpa [Plan.scans] using hx) rfl
        (.inl rfl) ?_ rfl ?_ (by simp [hxl])
      · simpa [hxl] using hlt
      · simpa [hcol, hxl] using (h.joined _ hrname).mp hr
      · rw [h.scantbl, flags_set hnodup hi]
        rfl
    · -- Neither table is in the tree: the two are joined first.
      obtain ⟨y, hy, hyr, j, hj, hright⟩ := popScan_eq (haccepted.rhs hcol) { st with
        scantbl := st.scantbl.set i 1, joinedTables := st.joinedTables ++ [c.lhsCol.tabName] }
      have heq : nextJoin scans st c = { st with
          scantbl := (st.scantbl.set i 1).set j 1
          joinedTables := st.joinedTables ++ [c.lhsCol.tabName] ++ [c.rhsCol.tabName]
          tree := .join (.join (.scan x) (.scan y) [c]) st.tree [] } := by
        simp [nextJoin, hl, hr, hleft, hright, Ne.symm hne, Plan.isNull]
      rw [heq]
      have hrt : c.rhsCol.tabName ∉ st.tree.tables :=
        fun hmem => hr ((h.joined _ hrname).mpr hmem)
      refine h.graft (.join (.scan x) (.scan y) [c]) ?_ ?_ ?_ ?_ rfl (.inl rfl) (by simp)
        rfl ?_ ?_
      · exact ⟨trivial, trivial, by simpa [hxl, hyr] using hcol⟩
      · simpa [hxl, hyr] using hne
      · simpa [hxl, hyr] using ⟨hlt, hrt⟩
      · simpa [Plan.scans] using ⟨hx, hy⟩
      · rw [h.scantbl, flags_set hnodup hi, flags_set hnodup hj]
        apply flags_congr
        intro t
        simp only [Plan.tables_join, Plan.tables_scan, List.mem_cons, List.mem_append,
          List.not_mem_nil, or_false]
        tauto
      · simp [hxl, hyr]

theorem firstJoin_grown (hnodup : (scans.map (·.tabName)).Nodup) {c : JoinCondition}
    (hc : Crosses (scans.map (·.tabName)) c) :
    Grown scans [c] (firstJoin scans
      ⟨List.replicate scans.length (-1), List.replicate scans.length "", .null⟩ c) := by
  obtain ⟨haccepted, hcol, hne⟩ := hc
  obtain ⟨x, hx, hxl, i, hi, hleft⟩ := popScan_eq haccepted.lhs
    ⟨List.replicate scans.length (-1), List.replicate scans.length "", .null⟩
  obtain ⟨y, hy, hyr, j, hj, hright⟩ := popScan_eq (haccepted.rhs hcol)
    ⟨(List.replicate scans.length (-1)).set i 1,
      List.replicate scans.length "" ++ [c.lhsCol.tabName], .null⟩
  simp only [firstJoin, hleft, hright]
  constructor
  case joins => exact ⟨trivial, trivial, by simpa [hxl, hyr] using hcol⟩
  case nodup => simpa [hxl, hyr] using hne
  case sub => simpa [Plan.scans] using ⟨hx, hy⟩
  case scantbl =>
    rw [replicate_eq_flags, flags_set hnodup hi, flags_set hnodup hj]
    apply flags_congr
    intro t
    simp [or_comm]
  case joined =>
    intro t ht
    simp [hxl, hyr, ht]
  case conds => exact ⟨[c], .cons (.inl rfl) .nil, List.Perm.refl _⟩

theorem joins_grown (hnodup : (scans.map (·.tabName)).Nodup) (conds : List JoinCondition)
    (hconds : ∀ c ∈ conds, Crosses (scans.map (·.tabName)) c) (h : Grown scans done st) :
    Grown scans (done ++ conds) (conds.foldl (nextJoin scans) st) := by
  induction conds generalizing done st with
  | nil => simpa using h
  | cons c conds ih =>
    obtain ⟨hc, hrest⟩ := List.forall_mem_cons.mp hconds
    have := ih hrest (nextJoin_grown hnodup hc h)
    rwa [List.append_assoc] at this

-- ---------------------------------------------------------------------------
-- The remaining tables
-- ---------------------------------------------------------------------------

/-- The last loop joins the scans of the tables that are not in `used`. -/
theorem joinRest_spec (used : List String) (xs : List ScanPlan) {tree : Plan}
    (hjoins : tree.JoinsCovered) :
    (joinRest (xs.zip (flags xs used)) tree).JoinsCovered ∧
      (joinRest (xs.zip (flags xs used)) tree).joinConds = tree.joinConds ∧
      (joinRest (xs.zip (flags xs used)) tree).scans.Perm
        (xs.filter (·.tabName ∉ used) ++ tree.scans) := by
  induction xs generalizing tree with
  | nil => exact ⟨hjoins, rfl, List.Perm.refl _⟩
  | cons x xs ih =>
    by_cases hx : x.tabName ∈ used
    · have heq : joinRest ((x :: xs).zip (flags (x :: xs) used)) tree =
          joinRest (xs.zip (flags xs used)) tree := by
        simp [flags, joinRest, hx]
      rw [heq, List.filter_cons_of_neg (by simpa using hx)]
      exact ih hjoins
    · have heq : joinRest ((x :: xs).zip (flags (x :: xs) used)) tree =
          joinRest (xs.zip (flags xs used)) (.join (.scan x) tree []) := by
        simp [flags, joinRest, hx]
      rw [heq, List.filter_cons_of_pos (by simpa using hx)]
      obtain ⟨hj, hc, hs⟩ := @ih (.join (.scan x) tree []) ⟨trivial, hjoins, by simp⟩
      exact ⟨hj, hc, hs.trans List.perm_middle⟩

/-- When the tree has scans of `scans` only, the last loop completes it. -/
theorem joinRest_complete (hnodup : (scans.map (·.tabName)).Nodup) {tree : Plan}
    (hjoins : tree.JoinsCovered) (htables : tree.tables.Nodup) (hsub : ∀ x ∈ tree.scans, x ∈ scans) :
    (joinRest (scans.zip (flags scans tree.tables)) tree).scans.Perm scans := by
  refine (joinRest_spec tree.tables scans hjoins).2.2.trans ?_
  have hscans : scans.Nodup := List.Nodup.of_map _ hnodup
  refine (List.perm_ext_iff_of_nodup ?_ hscans).mpr ?_
  · refine List.nodup_append'.mpr ⟨hscans.filter _, List.Nodup.of_map _ htables, ?_⟩
    intro x hx hx'
    have hnot : x.tabName ∉ tree.tables := by simpa using (List.mem_filter.mp hx).2
    exact hnot (List.mem_map_of_mem hx')
  · intro x
    rw [List.mem_append, List.mem_filter]
    constructor
    · rintro (⟨hx, -⟩ | hx)
      · exact hx
      · exact hsub x hx
    · intro hx
      by_cases hmem : x.tabName ∈ tree.tables
      · obtain ⟨y, hy, hyx⟩ := List.mem_map.mp hmem
        have : y = x := List.inj_on_of_nodup_map hnodup (hsub y hy) hx hyx
        exact .inr (this ▸ hy)
      · exact .inl ⟨hx, by simpa using hmem⟩

/-- The second half of `make_one_rel` keeps the scans as they are and places all conditions. -/
theorem joinTables_spec (hnodup : (scans.map (·.tabName)).Nodup) (hne : scans ≠ [])
    {conds : List JoinCondition} (hconds : ∀ c ∈ conds, Crosses (scans.map (·.tabName)) c) :
    (joinTables scans conds).JoinsCovered ∧ (joinTables scans conds).scans.Perm scans ∧
      ∃ placed, List.Forall₂ Mirrored conds placed ∧
        placed.Perm (joinTables scans conds).joinConds := by
  cases conds with
  | nil =>
    cases scans with
    | nil => exact absurd rfl hne
    | cons x xs =>
      have hflags : (List.replicate (x :: xs).length (-1 : Int)).set 0 1 =
          flags (x :: xs) (Plan.scan x).tables := by
        rw [replicate_eq_flags, flags_set hnodup (i := 0) rfl]
        rfl
      simp only [joinTables, hflags]
      obtain ⟨hj, hc, -⟩ := joinRest_spec (Plan.scan x).tables (x :: xs)
        (show (Plan.scan x).JoinsCovered from trivial)
      refine ⟨hj, joinRest_complete hnodup trivial (by simp) (by simp [Plan.scans]), [], .nil, ?_⟩
      rw [hc]
      exact List.Perm.refl _
  | cons c conds =>
    obtain ⟨hc, hrest⟩ := List.forall_mem_cons.mp hconds
    have hgrown := joins_grown hnodup conds hrest (firstJoin_grown hnodup hc)
    simp only [joinTables, hgrown.scantbl]
    obtain ⟨hj, hjc, -⟩ := joinRest_spec _ scans hgrown.joins
    refine ⟨hj, joinRest_complete hnodup hgrown.joins hgrown.nodup hgrown.sub, ?_⟩
    rw [hjc]
    exact hgrown.conds

/-- What `make_one_rel` builds, for every clause that the analyzer accepts: the scans of
`scanLoop`, joined, with all other conditions at joins that cover them. -/
theorem makeOneRel_spec (db : Catalog) {tables : List String} (hnodup : tables.Nodup)
    (hne : tables ≠ []) (htabs : ∀ t ∈ tables, ∃ tab, db.tabs t = some tab)
    {conds : List JoinCondition} (hconds : ∀ c ∈ conds, Analyze.Accepted tables c) :
    ∃ plan scans rest, makeOneRel db ⟨tables, conds⟩ = .ok plan ∧
      scanLoop db tables conds = .ok (scans, rest) ∧ plan.JoinsCovered ∧ plan.scans.Perm scans ∧
      plan.tables.Perm tables ∧
      ∃ placed, List.Forall₂ Mirrored conds placed ∧ placed.Perm plan.conds := by
  obtain ⟨scans, rest, hloop, hnames, hperm, hrest, -⟩ := scanLoop_ok db htabs conds
  have hcrosses : ∀ c ∈ rest, Crosses (scans.map (·.tabName)) c := by
    intro c hc
    rw [hnames]
    exact crosses_of_not_popped (hconds c (hperm.subset (List.mem_append_right _ hc))) (hrest c hc)
  suffices hplan : ∃ plan : Plan, makeOneRel db ⟨tables, conds⟩ = .ok plan ∧
      plan.JoinsCovered ∧ plan.scans.Perm scans ∧
      ∃ placed, List.Forall₂ Mirrored rest placed ∧ placed.Perm plan.joinConds by
    obtain ⟨plan, hplan, hjoins, hscans, placed, hplaced, hpermp⟩ := hplan
    refine ⟨plan, scans, rest, hplan, hloop, hjoins, hscans, hnames ▸ hscans.map _, ?_⟩
    -- The conditions of the scans are as in the query, those of the joins may be mirrored.
    have hall : List.Forall₂ Mirrored (scans.flatMap (·.conds) ++ rest)
        (scans.flatMap (·.conds) ++ placed) :=
      List.rel_append (List.forall₂_same.mpr fun c _ => .inl rfl) hplaced
    obtain ⟨placed', hplaced', hperm'⟩ := List.perm_comp_forall₂ hperm.symm hall
    refine ⟨placed', hplaced', hperm'.trans (List.perm_append_comm.trans ?_)⟩
    exact hpermp.append ((hscans.symm).flatMap_right _)
  cases scans with
  | nil => exact absurd hnames.symm hne
  | cons x xs =>
    cases xs with
    | nil =>
      refine ⟨.scan x, ?_, trivial, List.Perm.refl _, ?_⟩
      · simp [makeOneRel, hloop]
      · -- One table has no conditions that cross.
        have hnil : rest = [] := by
          rw [List.eq_nil_iff_forall_not_mem]
          intro c hc
          obtain ⟨haccepted, hcol, hcross⟩ := hcrosses c hc
          have hl := haccepted.lhs
          have hr := haccepted.rhs hcol
          rw [List.map_singleton, List.mem_singleton] at hl hr
          exact hcross (hl.trans hr.symm)
        subst hnil
        exact ⟨[], .nil, List.Perm.refl _⟩
    | cons y ys =>
      obtain ⟨hjoins, hscans, hplaced⟩ :=
        joinTables_spec (hnames ▸ hnodup) (List.cons_ne_nil _ _) hcrosses
      exact ⟨_, by simp [makeOneRel, hloop], hjoins, hscans, hplaced⟩

end Planner

/-- The plan of an accepted SELECT over the tables `t :: ts` is placed well exactly when its
conditions between two columns of one table are all on the first table, `t`. -/
theorem makeOneRel_placed_iff {ν : Type} (db : Catalog)
    (convertSvValue : ν → TabColMeta → Except AnalyzeError Value) (t : String) (ts : List String)
    (hnodup : (t :: ts).Nodup) (svConds : List (BinaryExpr ν)) (conds : List JoinCondition)
    (haccepted : Analyze.getCheckClause convertSvValue db (t :: ts) svConds = .ok conds) :
    ∃ plan, Planner.makeOneRel db ⟨t :: ts, conds⟩ = .ok plan ∧
      (WellPlaced (t :: ts) conds plan ↔
        ∀ c ∈ conds, c.isRhsVal = false → c.lhsCol.tabName = c.rhsCol.tabName →
          c.lhsCol.tabName = t) := by
  obtain ⟨htabs, hconds⟩ := Analyze.getCheckClause_ok haccepted
  obtain ⟨plan, scans, rest, hplan, hloop, hjoins, hscans, htables, hplaced⟩ :=
    Planner.makeOneRel_spec db hnodup (List.cons_ne_nil _ _) htabs hconds
  obtain ⟨x, xs, rfl, hxt, hxc, rest', hloop'⟩ := Planner.scanLoop_head hloop
  refine ⟨plan, hplan, ?_⟩
  constructor
  · -- The first scan has every condition on one table.
    intro h c hc hcol hsame
    have hx : x ∈ plan.scans := hscans.symm.subset List.mem_cons_self
    have hcx : c ∈ x.conds := by
      rw [hxc, List.mem_filter]
      exact ⟨hc, by simp [Planner.pops, hsame]⟩
    exact ((h.scans x hx) c hcx).1.trans hxt
  · intro h
    refine ⟨htables, hplaced, ?_, hjoins⟩
    intro y hy c hc
    rcases List.mem_cons.mp (hscans.subset hy) with rfl | hy
    · -- The first scan: conditions on one table are on this one.
      rw [hxc, List.mem_filter] at hc
      obtain ⟨hc, hpops⟩ := hc
      rw [hxt]
      simp only [Planner.pops, decide_eq_true_eq] at hpops
      rcases hpops with ⟨hlhs, hval⟩ | hsame
      · exact ⟨hlhs.symm, fun hcol => nomatch hval.symm.trans hcol⟩
      · have hcol : c.isRhsVal = false := by
          by_contra hval
          have hempty := (hconds c hc).literal (by simpa using hval)
          exact (hconds c hc).lhs_named (hsame.trans hempty)
        have hlhs := h c hc hcol hsame
        exact ⟨hlhs, fun _ => hsame.symm.trans hlhs⟩
    · -- Another scan: the first table has left no condition on one table.
      obtain ⟨xs', rest'', hloop'', -, hperm, -, hpopped⟩ := Planner.scanLoop_ok db
        (fun t ht => htabs t (List.mem_cons_of_mem _ ht)) (conds.filter fun c => !Planner.pops t c)
      obtain ⟨rfl, rfl⟩ := Prod.mk.inj (Except.ok.inj (hloop'.symm.trans hloop''))
      have hmem := hperm.subset (List.mem_append_left _ (List.mem_flatMap.mpr ⟨y, hy, hc⟩))
      have hleft : c.lhsCol.tabName ≠ c.rhsCol.tabName := by
        have hnot := (List.mem_filter.mp hmem).2
        simp only [Planner.pops, Bool.not_eq_true', decide_eq_false_iff_not, not_or] at hnot
        exact hnot.2
      have hpops := hpopped y hy c hc
      simp only [Planner.pops, decide_eq_true_eq, hleft, or_false] at hpops
      exact ⟨hpops.1.symm, fun hcol => nomatch hpops.2.symm.trans hcol⟩

-- ---------------------------------------------------------------------------
-- Two tables
-- ---------------------------------------------------------------------------

namespace TwoTables

/-- `t1(a)` and `t2(b, c)`, all columns integers. -/
def tabs (t : String) : Option TabMeta :=
  if t = "t1" then some ⟨[⟨⟨"a", .int, 4, 0⟩, "t1"⟩], []⟩
  else if t = "t2" then some ⟨[⟨⟨"b", .int, 4, 0⟩, "t2"⟩, ⟨⟨"c", .int, 4, 4⟩, "t2"⟩], []⟩
  else none

def db : Catalog where
  tabs := tabs
  owned t tab htab col hcol := by
    simp only [tabs] at htab
    split at htab
    · rename_i ht
      cases htab
      rw [List.mem_singleton.mp hcol, ht]
    · split at htab
      · rename_i ht
        cases htab
        rcases List.mem_cons.mp hcol with rfl | hcol
        · exact ht.symm
        · rw [List.mem_singleton.mp hcol, ht]
      · cases htab

/-- `convert_sv_value` of an integer literal for an integer column. -/
def convertSvValue (v : Int) (col : TabColMeta) : Except AnalyzeError Value :=
  if col.type = .int then .ok (.int v) else .error .value

/-- `WHERE t2.b < t1.a AND a > 3`, and what the analyzer makes of it. -/
def crossing : List (BinaryExpr Int) :=
  [⟨⟨"t2", "b"⟩, .lt, .inr ⟨"t1", "a"⟩⟩, ⟨⟨"", "a"⟩, .gt, .inl 3⟩]

def crossingConds : List JoinCondition :=
  [⟨⟨"t2", "b"⟩, .lt, false, ⟨"t1", "a"⟩, none⟩,
    ⟨⟨"t1", "a"⟩, .gt, true, ⟨"", ""⟩, some (.int 3)⟩]

/-- `WHERE t2.b = t2.c`. -/
def within : List (BinaryExpr Int) := [⟨⟨"t2", "b"⟩, .eq, .inr ⟨"t2", "c"⟩⟩]

def withinConds : List JoinCondition := [⟨⟨"t2", "b"⟩, .eq, false, ⟨"t2", "c"⟩, none⟩]

end TwoTables

theorem makeOneRel_placed_crossing :
    ∃ plan, Planner.makeOneRel TwoTables.db ⟨["t1", "t2"], TwoTables.crossingConds⟩ = .ok plan ∧
      WellPlaced ["t1", "t2"] TwoTables.crossingConds plan := by
  obtain ⟨plan, hplan, hiff⟩ := makeOneRel_placed_iff TwoTables.db TwoTables.convertSvValue "t1"
    ["t2"] (by decide) TwoTables.crossing TwoTables.crossingConds rfl
  refine ⟨plan, hplan, hiff.mpr ?_⟩
  simp [TwoTables.crossingConds]

/-- `SELECT * FROM t1, t2 WHERE t2.b = t2.c`: the condition is in the scan of `t1`. -/
theorem makeOneRel_misplaced_within :
    Analyze.getCheckClause TwoTables.convertSvValue TwoTables.db ["t1", "t2"] TwoTables.within =
        .ok TwoTables.withinConds ∧
      ∃ plan, Planner.makeOneRel TwoTables.db ⟨["t1", "t2"], TwoTables.withinConds⟩ = .ok plan ∧
        ¬ WellPlaced ["t1", "t2"] TwoTables.withinConds plan := by
  refine ⟨rfl, _, rfl, ?_⟩
  intro h
  have hscan := h.scans ⟨.seqScan, "t1", TwoTables.withinConds, [], []⟩ (by
    simp [Planner.joinTables, Planner.joinRest, Plan.scans, TwoTables.withinConds])
  have htab : "t2" = "t1" := (hscan _ List.mem_cons_self).1
  exact absurd htab (by decide)

end Rmdb
