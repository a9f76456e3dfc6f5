-- SUMMARY: One pass over the executors of a plan yields the plan's meaning.
import Rmdb.Execution.Meaning

/-!
# Executors compute the meaning of a plan

Reading a column of a joined or projected record is reading a column of the row of its table
(`Laid`). So the tests of the executors are the conditions, and by induction over the plan a pass
yields its meaning.
-/

namespace Rmdb

variable {db : String → Option TableFile}

-- ---------------------------------------------------------------------------
-- Columns
-- ---------------------------------------------------------------------------

/-- A column that is found by its name and is one of the table that is meant is found by both. -/
theorem getCol_of_findFromCols {cols : List TabColMeta} {c : TabCol} {col : TabColMeta}
    (hfind : findFromCols cols c.colName = some col) (htab : col.tabName = c.tabName) :
    Projection.getCol cols c = some col := by
  induction cols with
  | nil => cases hfind
  | cons x cols ih =>
    by_cases hname : x.name = c.colName
    · have hx : findFromCols (x :: cols) c.colName = some x := by
        simp [findFromCols, hname]
      obtain rfl : x = col := Option.some.inj (hx.symm.trans hfind)
      simp [Projection.getCol, hname, htab]
    · have hrest : findFromCols cols c.colName = some col := by
        rw [← hfind]
        simp [findFromCols, hname]
      rw [← ih hrest]
      simp [Projection.getCol, hname]

/-- In the columns of one table the two ways to look a column up agree. -/
theorem findFromCols_of_getCol {cols : List TabColMeta} {c : TabCol} {col : TabColMeta}
    (hget : Projection.getCol cols c = some col) (hown : ∀ x ∈ cols, x.tabName = c.tabName) :
    findFromCols cols c.colName = some col := by
  cases hfind : findFromCols cols c.colName with
  | none =>
    have hname := List.find?_eq_none.mp hfind col (List.mem_of_find?_eq_some hget)
    have hcol := List.find?_some hget
    simp only [decide_eq_true_eq] at hname hcol
    exact absurd hcol.2 hname
  | some x =>
    rw [← hget, getCol_of_findFromCols hfind (hown x (List.mem_of_find?_eq_some hfind))]

/-- Two columns of the same type with the same bytes have the same value. -/
theorem read_eq {col col₀ : TabColMeta} {r r₀ : RmRecord} (htype : col.type = col₀.type)
    (hlen : col.len = col₀.len) (htyped : PlanTree.Typed col₀)
    (hslice : slice r col.offset col.len = slice r₀ col₀.offset col₀.len) :
    col.toColMeta.read r = col₀.toColMeta.read r₀ := by
  simp only [ColMeta.read, htype]
  simp only [PlanTree.Typed] at htyped
  cases hcol : col₀.type <;> simp only [hcol] at htyped ⊢ <;> rw [hlen] at hslice <;>
    first
      | rw [htyped] at hslice; rw [hslice]
      | rw [hlen, hslice]

namespace PlanTree

theorem mem_select {prevCols : List TabColMeta} {selCols : List TabCol} {offset : Nat}
    {cols : List (TabColMeta × TabColMeta)}
    (h : Projection.select prevCols selCols offset = some cols) :
    ∀ x ∈ cols, ∃ c ∈ selCols, Projection.getCol prevCols c = some x.1 ∧
      x.2.tabName = x.1.tabName ∧ x.2.name = x.1.name ∧ x.2.type = x.1.type ∧
      x.2.len = x.1.len := by
  induction selCols generalizing offset cols with
  | nil =>
    cases h
    simp
  | cons target selCols ih =>
    simp only [Projection.select, Option.bind_eq_bind, Option.bind_eq_some_iff] at h
    obtain ⟨col, hcol, rest, hrest, heq⟩ := h
    cases heq
    intro x hx
    rcases List.mem_cons.mp hx with rfl | hx
    · exact ⟨target, List.mem_cons_self, hcol, rfl, rfl, rfl, rfl⟩
    · obtain ⟨c, hc, hget⟩ := ih hrest x hx
      exact ⟨c, List.mem_cons_of_mem _ hc, hget⟩

theorem getCol_eq_some {cols : List TabColMeta} {c : TabCol} {col : TabColMeta}
    (h : Projection.getCol cols c = some col) :
    col ∈ cols ∧ col.tabName = c.tabName ∧ col.name = c.colName := by
  refine ⟨List.mem_of_find?_eq_some h, ?_⟩
  simpa using List.find?_some h

/-- The columns of a plan belong to its tables. -/
theorem tabName_mem_tables (plan : PlanTree)
    (htables : ∀ t ∈ plan.tables, ∃ table, db t = some table ∧ TableOk t table) :
    ∀ col ∈ plan.cols db, col.tabName ∈ plan.tables := by
  induction plan with
  | seqScan t conds =>
    obtain ⟨table, htable, hok⟩ := htables t List.mem_cons_self
    intro col hcol
    simp only [cols, layout, htable, Option.elim_some] at hcol
    rw [hok.named col hcol]
    exact List.mem_cons_self
  | nestLoop left right conds ihl ihr =>
    intro col hcol
    rcases List.mem_append.mp hcol with hcol | hcol
    · exact List.mem_append_left _ (ihl (fun t ht => htables t (List.mem_append_left _ ht)) col hcol)
    · obtain ⟨col', hcol', rfl⟩ := List.mem_map.mp hcol
      exact List.mem_append_right _ (ihr (fun t ht => htables t (List.mem_append_right _ ht)) col' hcol')
  | projection sub selCols ih =>
    intro col hcol
    simp only [cols, layout] at hcol
    cases hsel : Projection.select (sub.layout db).1 selCols 0 with
    | none => simp [hsel] at hcol
    | some sel =>
      simp only [hsel, Option.getD_some] at hcol
      obtain ⟨x, hx, rfl⟩ := List.mem_map.mp hcol
      obtain ⟨c, -, hget, htab, -⟩ := mem_select hsel x hx
      rw [htab]
      exact ih htables x.1 (getCol_eq_some hget).1

-- ---------------------------------------------------------------------------
-- Tuples
-- ---------------------------------------------------------------------------

theorem keys_of_mem_envs {plan : PlanTree} {e : Env} (he : e ∈ plan.envs db) :
    e.map Prod.fst = plan.tables := by
  induction plan generalizing e with
  | seqScan t conds =>
    obtain ⟨r, -, rfl⟩ := List.mem_map.mp he
    rfl
  | nestLoop left right conds ihl ihr =>
    obtain ⟨e₁, he₁, he⟩ := List.mem_flatMap.mp he
    obtain ⟨e₂, he₂, rfl⟩ := List.mem_map.mp he
    rw [List.map_append, ihl he₁, ihr he₂]
    rfl
  | projection sub selCols ih => exact ih he

theorem lookup_append_left {e₁ e₂ : Env} {t : String} (ht : t ∈ e₁.map Prod.fst) :
    (e₁ ++ e₂).lookup t = e₁.lookup t := by
  induction e₁ with
  | nil => cases ht
  | cons x e₁ ih =>
    obtain ⟨k, r⟩ := x
    by_cases hk : t = k
    · subst hk
      rw [List.cons_append, List.lookup_cons_self, List.lookup_cons_self]
    · have hbeq : (t == k) = false := by simpa using hk
      have ht' : t ∈ e₁.map Prod.fst := (List.mem_cons.mp ht).resolve_left hk
      simp only [List.cons_append, List.lookup_cons, hbeq, ih ht']

theorem lookup_append_right {e₁ e₂ : Env} {t : String} (ht : t ∉ e₁.map Prod.fst) :
    (e₁ ++ e₂).lookup t = e₂.lookup t := by
  induction e₁ with
  | nil => rfl
  | cons x e₁ ih =>
    obtain ⟨k, r⟩ := x
    rw [List.map_cons, List.mem_cons, not_or] at ht
    have hbeq : (t == k) = false := by simpa using ht.1
    simp only [List.cons_append, List.lookup_cons, hbeq, ih ht.2]

/-- `t.c` is the same in tuples that have the same row for `t`. -/
theorem value_congr {e e' : Env} {c : TabCol} (h : e.lookup c.tabName = e'.lookup c.tabName) :
    e.value db c = e'.value db c := by
  simp only [Env.value, h]

theorem bytes_congr {e e' : Env} {c : TabCol} (h : e.lookup c.tabName = e'.lookup c.tabName) :
    e.bytes db c = e'.bytes db c := by
  simp only [Env.bytes, h]

theorem holds_congr {e e' : Env} {c : JoinCondition}
    (hlhs : e.lookup c.lhsCol.tabName = e'.lookup c.lhsCol.tabName)
    (hrhs : c.isRhsVal = false → e.lookup c.rhsCol.tabName = e'.lookup c.rhsCol.tabName) :
    c.holds db e = c.holds db e' := by
  simp only [JoinCondition.holds, value_congr hlhs]
  cases hval : c.isRhsVal with
  | true => simp
  | false => simp only [value_congr (hrhs hval)]

variable {plan : PlanTree}

theorem tabName_mem_of_getCol
    (htables : ∀ t ∈ plan.tables, ∃ table, db t = some table ∧ TableOk t table) {c : TabCol}
    (h : (Projection.getCol (plan.cols db) c).isSome) : c.tabName ∈ plan.tables := by
  obtain ⟨col, hcol⟩ := Option.isSome_iff_exists.mp h
  obtain ⟨hmem, htab, -⟩ := getCol_eq_some hcol
  exact htab ▸ tabName_mem_tables plan htables col hmem

/-- The conditions of a plan are about its tables. -/
theorem conds_tables (hcovered : plan.Covered db)
    (htables : ∀ t ∈ plan.tables, ∃ table, db t = some table ∧ TableOk t table) :
    ∀ c ∈ plan.conds, c.lhsCol.tabName ∈ plan.tables ∧
      (c.isRhsVal = false → c.rhsCol.tabName ∈ plan.tables) := by
  induction plan with
  | seqScan t conds =>
    intro c hc
    obtain ⟨hlhs, -, -, hrhs⟩ := hcovered c hc
    exact ⟨List.mem_singleton.mpr hlhs, fun hcol => List.mem_singleton.mpr (hrhs hcol).1⟩
  | nestLoop left right conds ihl ihr =>
    obtain ⟨hl, hr, hconds⟩ := hcovered
    have htl := fun t ht => htables t (List.mem_append_left _ ht)
    have htr := fun t ht => htables t (List.mem_append_right _ ht)
    intro c hc
    rcases List.mem_append.mp hc with hc | hc
    · obtain ⟨hlhs, -, hrhs⟩ := hconds c hc
      exact ⟨tabName_mem_of_getCol htables hlhs, fun hcol => tabName_mem_of_getCol htables (hrhs hcol)⟩
    · rcases List.mem_append.mp hc with hc | hc
      · obtain ⟨hlhs, hrhs⟩ := ihl hl htl c hc
        exact ⟨List.mem_append_left _ hlhs, fun hcol => List.mem_append_left _ (hrhs hcol)⟩
      · obtain ⟨hlhs, hrhs⟩ := ihr hr htr c hc
        exact ⟨List.mem_append_right _ hlhs, fun hcol => List.mem_append_right _ (hrhs hcol)⟩
  | projection sub selCols ih => exact ih hcovered.1 htables

theorem image_congr (hcovered : plan.Covered db)
    (htables : ∀ t ∈ plan.tables, ∃ table, db t = some table ∧ TableOk t table) {e e' : Env}
    (h : ∀ t ∈ plan.tables, e.lookup t = e'.lookup t) : plan.image db e = plan.image db e' := by
  induction plan with
  | seqScan t conds => simp only [image, h t List.mem_cons_self]
  | nestLoop left right conds ihl ihr =>
    simp only [image]
    rw [ihl hcovered.1 (fun t ht => htables t (List.mem_append_left _ ht))
      (fun t ht => h t (List.mem_append_left _ ht)),
      ihr hcovered.2.1 (fun t ht => htables t (List.mem_append_right _ ht))
      (fun t ht => h t (List.mem_append_right _ ht))]
  | projection sub selCols ih =>
    refine List.flatMap_congr fun c hc => bytes_congr (h _ ?_)
    exact @tabName_mem_of_getCol _ sub htables _ (hcovered.2 c hc)

-- ---------------------------------------------------------------------------
-- Where the columns are in a record
-- ---------------------------------------------------------------------------

/-- In the record of a tuple each column has the bytes of its table's row. -/
structure Laid (db : String → Option TableFile) (plan : PlanTree) (e : Env) : Prop where
  length : (plan.image db e).length = plan.tupleLen db
  col : ∀ c col, Projection.getCol (plan.cols db) c = some col →
    ∃ col₀ r, colOf db c = some col₀ ∧ e.lookup c.tabName = some r ∧ Typed col₀ ∧
      col.type = col₀.type ∧ col.len = col₀.len ∧ col.offset + col.len ≤ plan.tupleLen db ∧
      slice (plan.image db e) col.offset col.len = slice r col₀.offset col₀.len

/-- The value of a column of the record is the value that is meant. -/
theorem Laid.value {e : Env} (h : Laid db plan e) {c : TabCol} {col : TabColMeta}
    (hcol : Projection.getCol (plan.cols db) c = some col) :
    e.value db c = some (col.toColMeta.read (plan.image db e)) := by
  obtain ⟨col₀, r, hcol₀, hr, htyped, htype, hlen, -, hslice⟩ := h.col c col hcol
  simp only [Env.value, hcol₀, hr, Option.bind_eq_bind, Option.bind_some,
    read_eq htype hlen htyped hslice]
  rfl

/-- The selected columns stand one after the other. -/
theorem slice_project {prevCols : List TabColMeta} {selCols : List TabCol}
    {cols : List (TabColMeta × TabColMeta)} {front : List UInt8} (record : RmRecord)
    (h : Projection.select prevCols selCols front.length = some cols) :
    ∀ x ∈ cols, x.2.offset + x.2.len ≤ front.length + Projection.len cols ∧
      slice (front ++ Projection.project cols record) x.2.offset x.2.len =
        slice record x.1.offset x.1.len := by
  induction selCols generalizing cols front with
  | nil =>
    cases h
    simp
  | cons target selCols ih =>
    simp only [Projection.select, Option.bind_eq_bind, Option.bind_eq_some_iff] at h
    obtain ⟨col, -, rest, hrest, heq⟩ := h
    cases heq
    have hproject : Projection.project ((col, { col with offset := front.length }) :: rest) record =
        slice record col.offset col.len ++ Projection.project rest record := by
      simp [Projection.project]
    have hlen : Projection.len ((col, { col with offset := front.length }) :: rest) =
        col.len + Projection.len rest := by
      simp [Projection.len]
    rw [hproject, hlen]
    intro x hx
    rcases List.mem_cons.mp hx with rfl | hx
    · exact ⟨by simp only; omega, slice_append rfl (by simp)⟩
    · have hlen' : (front ++ slice record col.offset col.len).length = front.length + col.len := by
        simp
      have hx' := @ih rest (front ++ slice record col.offset col.len) (hlen'.symm ▸ hrest) x hx
      rw [hlen', List.append_assoc] at hx'
      exact ⟨by omega, hx'.2⟩

/-- What a projection of the record of a tuple is. -/
theorem project_image {e : Env} (h : Laid db plan e) {selCols : List TabCol} {offset : Nat}
    {cols : List (TabColMeta × TabColMeta)}
    (hsel : Projection.select (plan.cols db) selCols offset = some cols) :
    Projection.project cols (plan.image db e) = selCols.flatMap (e.bytes db) := by
  induction selCols generalizing offset cols with
  | nil =>
    cases hsel
    rfl
  | cons target selCols ih =>
    simp only [Projection.select, Option.bind_eq_bind, Option.bind_eq_some_iff] at hsel
    obtain ⟨col, hcol, rest, hrest, heq⟩ := hsel
    cases heq
    obtain ⟨col₀, r, hcol₀, hr, -, -, -, -, hslice⟩ := h.col target col hcol
    have hbytes : e.bytes db target = slice (plan.image db e) col.offset col.len := by
      simp only [Env.bytes, hcol₀, hr, hslice]
    rw [List.flatMap_cons, hbytes, ← ih hrest]
    simp [Projection.project]

/-- The columns of a projection are all there. -/
theorem select_isSome {prevCols : List TabColMeta} {selCols : List TabCol}
    (h : ∀ c ∈ selCols, (Projection.getCol prevCols c).isSome) (offset : Nat) :
    ∃ cols, Projection.select prevCols selCols offset = some cols := by
  induction selCols generalizing offset with
  | nil => exact ⟨[], rfl⟩
  | cons target selCols ih =>
    obtain ⟨htarget, hrest⟩ := List.forall_mem_cons.mp h
    obtain ⟨col, hcol⟩ := Option.isSome_iff_exists.mp htarget
    obtain ⟨cols, hcols⟩ := ih hrest (offset + col.len)
    refine ⟨(col, { col with offset := offset }) :: cols, ?_⟩
    simp [Projection.select, hcol, hcols]

theorem layout_projection {selCols : List TabCol} {sel : List (TabColMeta × TabColMeta)}
    (h : Projection.select (plan.cols db) selCols 0 = some sel) :
    (projection plan selCols).layout db = (sel.map (·.2), Projection.len sel) := by
  rw [cols] at h
  simp only [layout, h, Option.getD_some]

theorem WellFormed.sub {sub : PlanTree} {selCols : List TabCol}
    (h : (projection sub selCols).WellFormed db) : sub.WellFormed db :=
  ⟨h.nodup, h.tables, h.covered.1⟩

theorem WellFormed.left {left right : PlanTree} {conds : List JoinCondition}
    (h : (nestLoop left right conds).WellFormed db) : left.WellFormed db :=
  ⟨(List.nodup_append'.mp h.nodup).1, fun t ht => h.tables t (List.mem_append_left _ ht),
    h.covered.1⟩

theorem WellFormed.right {left right : PlanTree} {conds : List JoinCondition}
    (h : (nestLoop left right conds).WellFormed db) : right.WellFormed db :=
  ⟨(List.nodup_append'.mp h.nodup).2.1, fun t ht => h.tables t (List.mem_append_right _ ht),
    h.covered.2.1⟩

/-- A tuple of a join has the rows of its left part and of its right part. -/
theorem lookup_join {left right : PlanTree} {conds : List JoinCondition}
    (h : (nestLoop left right conds).WellFormed db) {e₁ e₂ : Env} (he₁ : e₁ ∈ left.envs db) :
    (∀ t ∈ left.tables, (e₁ ++ e₂).lookup t = e₁.lookup t) ∧
      ∀ t ∈ right.tables, (e₁ ++ e₂).lookup t = e₂.lookup t := by
  refine ⟨fun t ht => lookup_append_left (keys_of_mem_envs he₁ ▸ ht), fun t ht => ?_⟩
  refine lookup_append_right (keys_of_mem_envs he₁ ▸ fun ht' => ?_)
  exact (List.nodup_append'.mp h.nodup).2.2 ht' ht

theorem image_join {left right : PlanTree} {conds : List JoinCondition}
    (h : (nestLoop left right conds).WellFormed db) {e₁ e₂ : Env} (he₁ : e₁ ∈ left.envs db) :
    (nestLoop left right conds).image db (e₁ ++ e₂) = left.image db e₁ ++ right.image db e₂ := by
  obtain ⟨hl, hr⟩ := @lookup_join _ _ _ _ h e₁ e₂ he₁
  rw [image, image_congr h.left.covered h.left.tables hl, image_congr h.right.covered h.right.tables hr]

theorem laid (h : plan.WellFormed db) {e : Env} (he : e ∈ plan.envs db) : Laid db plan e := by
  induction plan generalizing e with
  | seqScan t conds =>
    obtain ⟨table, htable, hok⟩ := h.tables t List.mem_cons_self
    simp only [envs, htable, Option.elim_some] at he
    obtain ⟨r, hr, rfl⟩ := List.mem_map.mp he
    have himage : (seqScan t conds).image db [(t, r)] = r := by simp [image]
    have hlen : (seqScan t conds).tupleLen db = table.file.recordSize := by
      simp only [tupleLen, layout, htable, Option.elim_some, hok.size]
    refine ⟨by rw [himage, hlen, hok.rows r hr], ?_⟩
    intro c col hcol
    have hcols : (seqScan t conds).cols db = table.cols := by
      simp only [cols, layout, htable, Option.elim_some]
    rw [hcols] at hcol
    obtain ⟨hmem, htab, hname⟩ := getCol_eq_some hcol
    have ht : c.tabName = t := htab.symm.trans (hok.named col hmem)
    have hfind : findFromCols table.cols c.colName = some col :=
      findFromCols_of_getCol hcol fun x hx => (hok.named x hx).trans ht.symm
    refine ⟨col, r, ?_, ?_, hok.typed col hmem, rfl, rfl, ?_, by rw [himage]⟩
    · simp only [colOf, ht, htable, Option.bind_eq_bind, Option.bind_some, hfind]
    · simp [ht]
    · rw [hlen]
      exact hok.fits col hmem
  | nestLoop left right conds ihl ihr =>
    obtain ⟨e₁, he₁, he⟩ := List.mem_flatMap.mp he
    obtain ⟨e₂, he₂, rfl⟩ := List.mem_map.mp he
    obtain ⟨hlookl, hlookr⟩ := @lookup_join _ _ _ _ h e₁ e₂ he₁
    have hl := ihl h.left he₁
    have hr := ihr h.right he₂
    have hlen : (nestLoop left right conds).tupleLen db = left.tupleLen db + right.tupleLen db := rfl
    have himage := @image_join _ _ _ _ h e₁ e₂ he₁
    refine ⟨by rw [himage, hlen, List.length_append, hl.length, hr.length], ?_⟩
    intro c col hcol
    have hcols : (nestLoop left right conds).cols db =
        left.cols db ++ (right.cols db).map (NestedLoopJoin.shift (left.tupleLen db)) := rfl
    rw [hcols, Projection.getCol, List.find?_append, Option.or_eq_some_iff] at hcol
    rcases hcol with hcol | ⟨-, hcol⟩
    · -- A column of the left record.
      obtain ⟨col₀, r, hcol₀, hrow, htyped, htype, hclen, hfits, hslice⟩ := hl.col c col hcol
      have ht := tabName_mem_of_getCol h.left.tables (Option.isSome_of_eq_some hcol)
      refine ⟨col₀, r, hcol₀, (hlookl _ ht).trans hrow, htyped, htype, hclen, by omega, ?_⟩
      rw [himage, slice_append_left (by rw [hl.length]; exact hfits), hslice]
    · -- A column of the right record, moved behind the left one.
      rw [List.find?_map, Option.map_eq_some_iff] at hcol
      obtain ⟨col', hcol', rfl⟩ := hcol
      obtain ⟨col₀, r, hcol₀, hrow, htyped, htype, hclen, hfits, hslice⟩ := hr.col c col' hcol'
      have ht := tabName_mem_of_getCol h.right.tables (Option.isSome_of_eq_some hcol')
      refine ⟨col₀, r, hcol₀, (hlookr _ ht).trans hrow, htyped, htype, hclen, ?_, ?_⟩
      · simp only [NestedLoopJoin.shift, hlen]
        omega
      · simp only [NestedLoopJoin.shift]
        rw [himage, ← hl.length, slice_append_right, hslice]
  | projection sub selCols ih =>
    have hl := ih h.sub he
    obtain ⟨sel, hsel⟩ := select_isSome h.covered.2 0
    have hlayout := layout_projection hsel
    have hlen : (projection sub selCols).tupleLen db = Projection.len sel := by
      rw [tupleLen, hlayout]
    have himage : (projection sub selCols).image db e =
        Projection.project sel (sub.image db e) := (project_image hl hsel).symm
    refine ⟨by rw [himage, hlen, Projection.length_project], ?_⟩
    intro c col hcol
    rw [cols, hlayout] at hcol
    obtain ⟨hmem, htab, hname⟩ := getCol_eq_some hcol
    obtain ⟨x, hx, rfl⟩ := List.mem_map.mp hmem
    obtain ⟨c', -, hget, hxtab, hxname, hxtype, hxlen⟩ := mem_select hsel x hx
    have hc : c' = c := by
      obtain ⟨-, htab', hname'⟩ := getCol_eq_some hget
      cases c
      cases c'
      simp only [TabCol.mk.injEq]
      exact ⟨htab'.symm.trans (hxtab.symm.trans htab), hname'.symm.trans (hxname.symm.trans hname)⟩
    obtain ⟨col₀, r, hcol₀, hrow, htyped, htype, hclen, -, hslice⟩ := hl.col c x.1 (hc ▸ hget)
    have hproject := @slice_project _ _ _ [] (sub.image db e) hsel x hx
    rw [List.nil_append, List.length_nil, Nat.zero_add] at hproject
    refine ⟨col₀, r, hcol₀, hrow, htyped, hxtype.trans htype, hxlen.trans hclen, ?_, ?_⟩
    · rw [hlen]
      exact hproject.1
    · rw [himage, hproject.2, hslice]

-- ---------------------------------------------------------------------------
-- The tests are the conditions
-- ---------------------------------------------------------------------------

theorem testAll_eq {test : JoinCondition → Option Bool} {p : JoinCondition → Bool}
    {conds : List JoinCondition}
    (h : ∀ front c rest, conds = front ++ c :: rest → (∀ c' ∈ front, p c' = true) → test c = some (p c)) :
    testAll test conds = some (conds.all p) := by
  induction conds with
  | nil => rfl
  | cons c conds ih =>
    have hc := h [] c conds rfl (List.forall_mem_nil _)
    cases hp : p c with
    | false => simp [testAll, hc, hp]
    | true =>
      have hrest := ih fun front c' rest heq hfront =>
        h (c :: front) c' rest (by rw [heq, List.cons_append]) (List.forall_mem_cons.mpr ⟨hp, hfront⟩)
      simp [testAll, hc, hp, hrest]

theorem ComesTo.mem {conds : List JoinCondition} {e : Env} {c : JoinCondition} (h : ComesTo db conds e c) :
    c ∈ conds := by
  obtain ⟨front, rest, rfl, -⟩ := h
  simp

theorem testRecord_eq {t : String} {conds : List JoinCondition} {table : TableFile}
    (htable : db t = some table) (hcovered : (seqScan t conds).Covered db) (r : RmRecord) :
    testAll (fun c => c.testRecord table.cols r) conds =
      some (conds.all (·.holds db [(t, r)])) := by
  refine testAll_eq fun front c rest hconds _ => ?_
  obtain ⟨hlhs, hlcol, hval, hrhs⟩ := hcovered c (by simp [hconds])
  have hvalue : ∀ x : TabCol, x.tabName = t → (colOf db x).isSome → ∃ col,
      findFromCols table.cols x.colName = some col ∧
      Env.value db [(t, r)] x = some (col.toColMeta.read r) := by
    intro x hx hsome
    obtain ⟨col, hcol⟩ := Option.isSome_iff_exists.mp hsome
    have hfind : findFromCols table.cols x.colName = some col := by
      simpa only [colOf, hx, htable, Option.bind_eq_bind, Option.bind_some] using hcol
    exact ⟨col, hfind, by simp [Env.value, hcol, hx]⟩
  obtain ⟨lcol, hlfind, hlvalue⟩ := hvalue _ hlhs hlcol
  cases hisval : c.isRhsVal with
  | true =>
    obtain ⟨v, hv⟩ := Option.isSome_iff_exists.mp (hval hisval)
    simp [JoinCondition.testRecord, JoinCondition.holds, hlfind, hlvalue, hisval, hv]
  | false =>
    obtain ⟨rcol, hrfind, hrvalue⟩ := hvalue _ (hrhs hisval).1 (hrhs hisval).2
    simp [JoinCondition.testRecord, JoinCondition.holds, hlfind, hlvalue, hisval, hrfind, hrvalue]

theorem testJoinRecord_eq {left right : PlanTree} {conds : List JoinCondition}
    (h : (nestLoop left right conds).WellFormed db) {e₁ e₂ : Env}
    (hfound : ∀ c, ComesTo db conds (e₁ ++ e₂) c → Found (left.cols db) c.lhsCol ∧
      (c.isRhsVal = false → Found (right.cols db) c.rhsCol))
    (he₁ : e₁ ∈ left.envs db) (he₂ : e₂ ∈ right.envs db) :
    testAll (fun c => c.testJoinRecord (left.cols db) (left.image db e₁) (right.cols db)
      (right.image db e₂)) conds = some (conds.all (·.holds db (e₁ ++ e₂))) := by
  refine testAll_eq fun front c rest hconds hfront => ?_
  obtain ⟨-, hval, -⟩ := h.covered.2.2 c (by simp [hconds])
  obtain ⟨⟨lcol, hlfind, hltab⟩, hrfound⟩ := hfound c ⟨front, rest, hconds, hfront⟩
  obtain ⟨hlookl, hlookr⟩ := @lookup_join _ _ _ _ h e₁ e₂ he₁
  have hlcol := getCol_of_findFromCols hlfind hltab
  have hlvalue : (e₁ ++ e₂).value db c.lhsCol =
      some (lcol.toColMeta.read (left.image db e₁)) := by
    rw [value_congr (hlookl _ (tabName_mem_of_getCol h.left.tables (Option.isSome_of_eq_some hlcol)))]
    exact (laid h.left he₁).value hlcol
  cases hisval : c.isRhsVal with
  | true =>
    obtain ⟨v, hv⟩ := Option.isSome_iff_exists.mp (hval hisval)
    simp [JoinCondition.testJoinRecord, JoinCondition.testRecord, JoinCondition.holds, hlfind,
      hlvalue, hisval, hv]
  | false =>
    obtain ⟨rcol, hrfind, hrtab⟩ := hrfound hisval
    have hrcol := getCol_of_findFromCols hrfind hrtab
    have hrvalue : (e₁ ++ e₂).value db c.rhsCol =
        some (rcol.toColMeta.read (right.image db e₂)) := by
      rw [value_congr (hlookr _ (tabName_mem_of_getCol h.right.tables
        (Option.isSome_of_eq_some hrcol)))]
      exact (laid h.right he₂).value hrcol
    simp [JoinCondition.testJoinRecord, JoinCondition.holds, hlfind, hlvalue, hisval, hrfind,
      hrvalue]

-- ---------------------------------------------------------------------------
-- The meaning of a join
-- ---------------------------------------------------------------------------

theorem all_congr_mem {p q : JoinCondition → Bool} {conds : List JoinCondition}
    (h : ∀ c ∈ conds, p c = q c) : conds.all p = conds.all q := by
  rw [Bool.eq_iff_iff, List.all_eq_true, List.all_eq_true]
  exact forall₂_congr fun c hc => by rw [h c hc]

theorem mem_envs_of_good {e : Env} (he : e ∈ plan.good db) : e ∈ plan.envs db :=
  List.mem_of_mem_filter he

/-- The meaning of a join is the join of the meanings of its children. -/
theorem meaning_nestLoop {left right : PlanTree} {conds : List JoinCondition}
    (h : (nestLoop left right conds).WellFormed db) :
    (nestLoop left right conds).meaning db =
      joined (fun e₁ e₂ => conds.all (·.holds db (e₁ ++ e₂)))
        (fun e₁ e₂ => left.image db e₁ ++ right.image db e₂) (left.good db) (right.good db) := by
  have hconds : ∀ e₁ ∈ left.envs db, ∀ e₂ ∈ right.envs db,
      (nestLoop left right conds).conds.all (·.holds db (e₁ ++ e₂)) =
        (left.conds.all (·.holds db e₁) && conds.all (·.holds db (e₁ ++ e₂)) &&
          right.conds.all (·.holds db e₂)) := by
    intro e₁ he₁ e₂ he₂
    obtain ⟨hlookl, hlookr⟩ := @lookup_join _ _ _ _ h e₁ e₂ he₁
    have hl : ∀ c ∈ left.conds, c.holds db (e₁ ++ e₂) = c.holds db e₁ := by
      intro c hc
      obtain ⟨hlhs, hrhs⟩ := conds_tables h.left.covered h.left.tables c hc
      exact holds_congr (hlookl _ hlhs) fun hcol => hlookl _ (hrhs hcol)
    have hr : ∀ c ∈ right.conds, c.holds db (e₁ ++ e₂) = c.holds db e₂ := by
      intro c hc
      obtain ⟨hlhs, hrhs⟩ := conds_tables h.right.covered h.right.tables c hc
      exact holds_congr (hlookr _ hlhs) fun hcol => hlookr _ (hrhs hcol)
    simp only [PlanTree.conds, List.all_append]
    rw [all_congr_mem hl, all_congr_mem hr, Bool.and_left_comm, Bool.and_assoc]
  have hproduct : (nestLoop left right conds).meaning db =
      joined (fun e₁ e₂ => (nestLoop left right conds).conds.all (·.holds db (e₁ ++ e₂)))
        (fun e₁ e₂ => (nestLoop left right conds).image db (e₁ ++ e₂))
        (left.envs db) (right.envs db) := by
    simp only [meaning, good, envs, joined, List.filter_flatMap, List.map_flatMap, List.filter_map,
      List.map_map, Function.comp_def]
  rw [hproduct, good, good, joined_filter_left, joined_filter_right]
  exact joined_congr hconds fun e₁ he₁ e₂ _ => image_join h he₁

-- ---------------------------------------------------------------------------
-- Passes
-- ---------------------------------------------------------------------------

/-- A number of rounds that is enough for every loop of the executors of a plan. -/
def enough (db : String → Option TableFile) : PlanTree → Nat
  | seqScan _ _ => 0
  | nestLoop left right _ => max (max (enough db left) (enough db right))
      ((left.meaning db).length * ((right.meaning db).length + 2) + (right.meaning db).length + 1)
  | projection sub _ => enough db sub

/-- The constructors go through, and give the columns of the plan. -/
theorem executor_some (h : plan.WellFormed db) (fuel : Nat) :
    ∃ ex, plan.executor db fuel = some ex ∧ ex.cols = plan.cols db ∧ ex.tupleLen = plan.tupleLen db := by
  induction plan with
  | seqScan t conds =>
    obtain ⟨table, htable, -⟩ := h.tables t List.mem_cons_self
    refine ⟨SeqScan.executor table conds, ?_, ?_, ?_⟩
    · simp only [executor, htable, Option.bind_eq_bind, Option.bind_some]
      rfl
    · simp only [cols, layout, htable, Option.elim_some, SeqScan.executor]
    · simp only [tupleLen, layout, htable, Option.elim_some, SeqScan.executor]
  | nestLoop left right conds ihl ihr =>
    obtain ⟨l, hlex, hlcols, hllen⟩ := ihl h.left
    obtain ⟨r, hrex, hrcols, hrlen⟩ := ihr h.right
    refine ⟨NestedLoopJoin.executor l r conds fuel, ?_, ?_, ?_⟩
    · simp only [executor, hlex, hrex, Option.bind_eq_bind, Option.bind_some]
      rfl
    · simp only [NestedLoopJoin.executor, hlcols, hrcols, hllen]
      rfl
    · simp only [NestedLoopJoin.executor, hllen, hrlen]
      rfl
  | projection sub selCols ih =>
    obtain ⟨prev, hex, hcols, -⟩ := ih h.sub
    obtain ⟨sel, hsel⟩ := select_isSome h.covered.2 0
    have hlayout := layout_projection hsel
    refine ⟨Projection.executor prev sel, ?_, ?_, ?_⟩
    · simp only [executor, hex, hcols, hsel, Option.bind_eq_bind, Option.bind_some]
      rfl
    · rw [cols, hlayout]
      rfl
    · rw [tupleLen, hlayout]
      rfl

/-- The executor of a plan yields the plan's meaning when it is opened for the first time, and
each time if it can be opened again. -/
def Computes (db : String → Option TableFile) (plan : PlanTree) (ex : AbstractExecutor plan.State) : Prop :=
  ∃ out, ex.Runs ex.initial out ∧ (plan.reopens = true → ∀ s, ex.Runs s out) ∧ out.Perm (plan.meaning db)

theorem computes_seqScan {t : String} {conds : List JoinCondition} {table : TableFile}
    (h : (seqScan t conds).WellFormed db) (htable : db t = some table) :
    Computes db (seqScan t conds) (SeqScan.executor table conds) := by
  obtain ⟨table', htable', hok⟩ := h.tables t List.mem_cons_self
  obtain rfl : table = table' := Option.some.inj (htable.symm.trans htable')
  obtain ⟨chain, hfile⟩ := hok.file
  have hruns := @SeqScan.runs table conds _ hfile.counted
    (fun r _ => testRecord_eq htable h.covered r)
  have himage : ((fun e => (seqScan t conds).image db e) ∘ fun r => [(t, r)]) = id := by
    funext r
    simp [image]
  refine ⟨_, hruns _, fun _ => hruns, ?_⟩
  simp only [meaning, good, envs, htable, Option.elim_some, List.filter_map, List.map_map]
  rw [himage, List.map_id]
  exact List.Perm.refl _

theorem computes_nestLoop_nil {left right : PlanTree} {conds : List JoinCondition}
    {l : AbstractExecutor left.State} {r : AbstractExecutor right.State} {fuel : Nat}
    (h : (nestLoop left right conds).WellFormed db) (hnil : left.meaning db = []) (hl : Computes db left l) :
    Computes db (nestLoop left right conds) (NestedLoopJoin.executor l r conds fuel) := by
  obtain ⟨ls, hlruns, -, hlperm⟩ := hl
  rw [hnil] at hlperm
  obtain rfl := hlperm.eq_nil
  refine ⟨[], NestedLoopJoin.runs_nil hlruns, fun hreopens => (by cases hreopens), List.Perm.of_eq ?_⟩
  rw [meaning_nestLoop h, List.map_eq_nil_iff.mp hnil, joined_nil_left]

theorem computes_nestLoop {left right : PlanTree} {conds : List JoinCondition}
    {l : AbstractExecutor left.State} {r : AbstractExecutor right.State} {fuel : Nat}
    (h : (nestLoop left right conds).WellFormed db)
    (hlex : left.executor db fuel = some l) (hrex : right.executor db fuel = some r)
    (hfound : (nestLoop left right conds).FoundByName db)
    (honce : (nestLoop left right conds).OpenedOnce db)
    (hl : Computes db left l) (hr : Computes db right r)
    (hfuel : enough db (nestLoop left right conds) ≤ fuel) :
    Computes db (nestLoop left right conds) (NestedLoopJoin.executor l r conds fuel) := by
  obtain ⟨ls, hlruns, -, hlperm⟩ := hl
  obtain ⟨rs, hrruns, hrrestart, hrperm⟩ := hr
  obtain ⟨hlcols, hllen⟩ : l.cols = left.cols db ∧ l.tupleLen = left.tupleLen db := by
    obtain ⟨l', hl', hcols⟩ := executor_some h.left fuel
    obtain rfl := Option.some.inj (hlex.symm.trans hl')
    exact hcols
  obtain ⟨hrcols, hrlen⟩ : r.cols = right.cols db ∧ r.tupleLen = right.tupleLen db := by
    obtain ⟨r', hr', hcols⟩ := executor_some h.right fuel
    obtain rfl := Option.some.inj (hrex.symm.trans hr')
    exact hcols
  have htest : ∀ e₁ ∈ left.good db, ∀ e₂ ∈ right.good db,
      NestedLoopJoin.test l r conds (left.image db e₁) (right.image db e₂) =
        some (conds.all (·.holds db (e₁ ++ e₂))) := by
    intro e₁ he₁ e₂ he₂
    rw [NestedLoopJoin.test, hlcols, hrcols]
    exact testJoinRecord_eq h (hfound.2.2 e₁ he₁ e₂ he₂) (mem_envs_of_good he₁) (mem_envs_of_good he₂)
  have hkeep : ∀ x ∈ ls, ∀ y ∈ rs, NestedLoopJoin.test l r conds x y =
      some ((NestedLoopJoin.test l r conds x y).getD false) := by
    intro x hx y hy
    obtain ⟨e₁, he₁, rfl⟩ := List.mem_map.mp (hlperm.mem_iff.mp hx)
    obtain ⟨e₂, he₂, rfl⟩ := List.mem_map.mp (hrperm.mem_iff.mp hy)
    rw [htest e₁ he₁ e₂ he₂, Option.getD_some]
  have hrestart : NestedLoopJoin.outerBufferSize < ls.length → rs ≠ [] → r.Reopens r.initial rs := by
    intro hlong hne
    rcases honce.2.2 with hreopens | hshort | hnil
    · exact fun s _ => hrrestart hreopens s
    · rw [hlperm.length_eq] at hlong
      omega
    · rw [hnil] at hrperm
      exact absurd hrperm.eq_nil hne
  have hrounds : ls.length * (rs.length + 2) + rs.length < fuel := by
    rw [hlperm.length_eq, hrperm.length_eq]
    exact Nat.lt_of_succ_le (Nat.le_trans (Nat.le_max_right _ _) hfuel)
  obtain ⟨out, hruns, hperm⟩ := NestedLoopJoin.runs hkeep
    (s := (NestedLoopJoin.executor l r conds fuel).initial) rfl hlruns hrruns .start hrestart hrounds
  refine ⟨out, hruns, fun hreopens => (by cases hreopens), ?_⟩
  refine hperm.trans ((joined_perm hlperm hrperm).trans (List.Perm.of_eq ?_))
  rw [meaning_nestLoop h, meaning, meaning, joined_map]
  refine joined_congr (fun e₁ he₁ e₂ he₂ => ?_) (fun e₁ he₁ e₂ he₂ => ?_)
  · rw [htest e₁ he₁ e₂ he₂, Option.getD_some]
  · have hleft := (laid h.left (mem_envs_of_good he₁)).length
    have hright := (laid h.right (mem_envs_of_good he₂)).length
    rw [NestedLoopJoin.combine, hllen, hrlen, ← hleft, ← hright, List.take_length, List.take_length]

theorem computes_projection {sub : PlanTree} {selCols : List TabCol}
    {prev : AbstractExecutor sub.State} {sel : List (TabColMeta × TabColMeta)}
    (h : (projection sub selCols).WellFormed db) (hprev : Computes db sub prev)
    (hsel : Projection.select (sub.cols db) selCols 0 = some sel) :
    Computes db (projection sub selCols) (Projection.executor prev sel) := by
  obtain ⟨out, hruns, hreruns, hperm⟩ := hprev
  refine ⟨out.map (Projection.project sel), Projection.runs hsel hruns,
    fun hreopens s => Projection.runs hsel (hreruns hreopens s.prev), ?_⟩
  refine (hperm.map _).trans (List.Perm.of_eq ?_)
  rw [meaning, List.map_map]
  refine List.map_congr_left fun e he => ?_
  exact project_image (laid h.sub (mem_envs_of_good he)) hsel

/-- By induction over the plan, each of its executors yields what its subtree means. -/
theorem computes {fuel : Nat} (h : plan.WellFormed db) (hfound : plan.FoundByName db)
    (honce : plan.OpenedOnce db) (hfuel : plan.enough db ≤ fuel) :
    ∃ ex, plan.executor db fuel = some ex ∧ Computes db plan ex := by
  induction plan with
  | seqScan t conds =>
    obtain ⟨table, htable, -⟩ := h.tables t List.mem_cons_self
    refine ⟨SeqScan.executor table conds, ?_, computes_seqScan h htable⟩
    simp only [executor, htable, Option.bind_eq_bind, Option.bind_some]
    rfl
  | nestLoop left right conds ihl ihr =>
    have hmax := Nat.le_trans (Nat.le_max_left _ _) hfuel
    obtain ⟨l, hlex, hl⟩ :=
      ihl h.left hfound.1 honce.1 (Nat.le_trans (Nat.le_max_left _ _) hmax)
    obtain ⟨r, hrex, -⟩ := executor_some h.right fuel
    refine ⟨NestedLoopJoin.executor l r conds fuel, ?_, ?_⟩
    · simp only [executor, hlex, hrex, Option.bind_eq_bind, Option.bind_some]
      rfl
    · by_cases hnil : left.meaning db = []
      · exact computes_nestLoop_nil h hnil hl
      · obtain ⟨r', hrex', hr⟩ :=
          ihr h.right (hfound.2.1 hnil) (honce.2.1 hnil) (Nat.le_trans (Nat.le_max_right _ _) hmax)
        obtain rfl := Option.some.inj (hrex.symm.trans hrex')
        exact computes_nestLoop h hlex hrex hfound honce hl hr hfuel
  | projection sub selCols ih =>
    obtain ⟨prev, hex, hprev⟩ := ih h.sub hfound honce hfuel
    obtain ⟨prev', hex', hcols, -⟩ := executor_some h.sub fuel
    obtain rfl := Option.some.inj (hex.symm.trans hex')
    obtain ⟨sel, hsel⟩ := select_isSome h.covered.2 0
    refine ⟨Projection.executor prev sel, ?_, computes_projection h hprev hsel⟩
    simp only [executor, hex, hcols, hsel, Option.bind_eq_bind, Option.bind_some]
    rfl

end PlanTree

/-- One pass over the executors of a plan ends, and yields the meaning of the plan in some order,
if the names in its join conditions lead to the columns that are meant and none of its joins is
opened a second time. -/
theorem run_perm_meaning (db : String → Option TableFile) (plan : PlanTree)
    (h : plan.WellFormed db) (hfound : plan.FoundByName db) (honce : plan.OpenedOnce db) :
    ∃ bound, ∀ fuel ≥ bound, ∃ out, plan.run db fuel = some out ∧ out.Perm (plan.meaning db) := by
  refine ⟨max (plan.enough db) ((plan.meaning db).length + 1), fun fuel hfuel => ?_⟩
  obtain ⟨ex, hex, hcomputes⟩ :=
    PlanTree.computes h hfound honce (Nat.le_trans (Nat.le_max_left _ _) hfuel)
  obtain ⟨out, hruns, -, hperm⟩ := hcomputes
  refine ⟨out, ?_, hperm⟩
  have hlt : out.length < fuel := by
    rw [hperm.length_eq]
    exact Nat.lt_of_succ_le (Nat.le_trans (Nat.le_max_right _ _) hfuel)
  simp [PlanTree.run, hex, hruns.pass hlt]

/-- A table with one `INT` column and one row. -/
def intTable (t c : String) (n : UInt8) : TableFile where
  cols := [⟨⟨c, .int, 4, 0⟩, t⟩]
  file := (RmFileHandle.createFile 4).newPage.fillSlot ⟨1, 0⟩ [n, 0, 0, 0]

set_option maxRecDepth 20000 in
theorem intTable_records (t c : String) (n : UInt8) :
    (intTable t c n).file.records = [[n, 0, 0, 0]] := by
  rfl

theorem intTable_ok (t c : String) (n : UInt8) : PlanTree.TableOk t (intTable t c n) where
  named := by simp [intTable]
  typed := by simp [intTable, PlanTree.Typed]
  fits := by
    rintro col (_ | ⟨_, ⟨⟩⟩)
    exact Nat.le_refl 4
  size := rfl
  rows := by
    rw [intTable_records]
    rintro r (_ | ⟨_, ⟨⟩⟩)
    rfl
  file := by
    have hnew := (RmFileHandle.Holds.createFile (show 4 ≤ 2048 by decide)).newPage
    have hfill : ((RmFileHandle.createFile 4).newPage.fillSlot ⟨1, 0⟩ [n, 0, 0, 0]).Holds _ _ _ _ :=
      hnew.fillSlot (by decide) rfl (by decide) fun _ => rfl
    exact ⟨_, hfill.ok⟩

/-- Two of its tables have a column of the same name. -/
def sharedDb : String → Option TableFile
  | "t1" => some (intTable "t1" "a" 1)
  | "t2" => some (intTable "t2" "a" 2)
  | "t3" => some (intTable "t3" "b" 1)
  | _ => none

/-- `select t3.b, t2.a from t1, t2, t3 where c = t3.b`, joined in that order. -/
def sharedPlan (c : TabCol) : PlanTree :=
  .projection
    (.nestLoop (.nestLoop (.seqScan "t1" []) (.seqScan "t2" []) []) (.seqScan "t3" [])
      [⟨c, .eq, false, ⟨"t3", "b"⟩, none⟩])
    [⟨"t3", "b"⟩, ⟨"t2", "a"⟩]

theorem sharedPlan_wellFormed {t : String} (ht : t = "t1" ∨ t = "t2") :
    (sharedPlan ⟨t, "a"⟩).WellFormed sharedDb := by
  refine ⟨by simp [sharedPlan, PlanTree.tables], ?_, ?_⟩
  · intro t ht
    simp only [sharedPlan, PlanTree.tables, List.cons_append, List.nil_append, List.mem_cons,
      List.not_mem_nil, or_false] at ht
    rcases ht with rfl | rfl | rfl <;> exact ⟨_, rfl, intTable_ok _ _ _⟩
  · rcases ht with rfl | rfl <;> simp [sharedPlan, PlanTree.Covered] <;> decide

theorem run_perm_meaning_shared : (sharedPlan ⟨"t1", "a"⟩).meaning sharedDb =
      [[1, 0, 0, 0, 2, 0, 0, 0]] ∧
    ∃ bound, ∀ fuel ≥ bound, ∃ out, (sharedPlan ⟨"t1", "a"⟩).run sharedDb fuel = some out ∧
      out.Perm ((sharedPlan ⟨"t1", "a"⟩).meaning sharedDb) := by
  refine ⟨by decide +kernel, run_perm_meaning _ _ (sharedPlan_wellFormed (.inl rfl)) ?_ ?_⟩
  · refine ⟨⟨trivial, fun _ => trivial, fun _ _ _ _ c hc => absurd hc.mem List.not_mem_nil⟩, fun _ => trivial,
      fun _ _ _ _ c hc => ?_⟩
    obtain rfl := List.mem_singleton.mp hc.mem
    exact ⟨⟨_, rfl, rfl⟩, fun _ => ⟨_, rfl, rfl⟩⟩
  · exact ⟨⟨trivial, fun _ => trivial, .inl rfl⟩, fun _ => trivial, .inl rfl⟩

/-- `t2.a` is looked up as `a`, and the first column of that name is `t1.a`. -/
theorem run_shared_name : (sharedPlan ⟨"t2", "a"⟩).WellFormed sharedDb ∧
    ¬ ∃ bound, ∀ fuel ≥ bound, ∃ out, (sharedPlan ⟨"t2", "a"⟩).run sharedDb fuel = some out ∧
      out.Perm ((sharedPlan ⟨"t2", "a"⟩).meaning sharedDb) := by
  refine ⟨sharedPlan_wellFormed (.inr rfl), ?_⟩
  rintro ⟨bound, h⟩
  obtain ⟨out, hrun, hperm⟩ := h (bound + 10) (by omega)
  have hout : (sharedPlan ⟨"t2", "a"⟩).run sharedDb (bound + 10) = some [[1, 0, 0, 0, 2, 0, 0, 0]] :=
    rfl
  have hnil : (sharedPlan ⟨"t2", "a"⟩).meaning sharedDb = [] := by decide +kernel
  rw [hnil] at hperm
  rw [hperm.eq_nil, hout] at hrun
  cases hrun

end Rmdb
