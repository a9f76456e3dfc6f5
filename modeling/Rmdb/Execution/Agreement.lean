-- SUMMARY: Every index of a table agrees with its rows, over every sequence of statements.
import Mathlib.Data.List.Forall2
import Rmdb.Execution.Executor

/-!
# Indexes agree with the table

Each executor changes the record file and all indexes of a table. While a statement runs the
indexes are behind or ahead of the file, so the lemmas keep two sets of rows: those in the
file, and those that the indexes list.
-/

namespace Rmdb

open Exec Run

-- ---------------------------------------------------------------------------
-- Sets of rows
-- ---------------------------------------------------------------------------

namespace Rows

/-- The rows, less those at some positions. -/
def without (rows : Rows) (rids : List Rid) : Rows := fun rid => if rid ∈ rids then none else rows rid

/-- The rows, with some added or replaced. -/
def overlay (rows : Rows) : List (Rid × RmRecord) → Rows
  | [] => rows
  | (rid, r) :: l => Function.update (overlay rows l) rid (some r)

/-- The rows as they would be after an update of those at some positions. -/
def updated (rows : Rows) (cols : List ColMeta) (clauses : List SetClause) (rids : List Rid) : Rows := fun rid =>
  if rid ∈ rids then (rows rid).bind fun r => (applySetClauses cols clauses r).toOption else rows rid

variable {rows rows' : Rows} {rid : Rid} {r : RmRecord} {l : List (Rid × RmRecord)}

@[simp] theorem without_nil : rows.without [] = rows := by
  funext r
  simp [without]

theorem without_cons (rids : List Rid) :
    rows.without (rid :: rids) = without (Function.update rows rid none) rids := by
  funext r
  by_cases h : r = rid
  · subst h
    simp [without]
  · simp [without, h]

theorem overlay_of_notMem (h : rid ∉ l.map Prod.fst) : rows.overlay l rid = rows rid := by
  induction l with
  | nil => rfl
  | cons x l ih =>
    rw [List.map_cons, List.mem_cons, not_or] at h
    simp only [overlay, Function.update_of_ne h.1, ih h.2]

theorem overlay_of_mem (hnodup : (l.map Prod.fst).Nodup) (h : (rid, r) ∈ l) : rows.overlay l rid = some r := by
  induction l with
  | nil => cases h
  | cons x l ih =>
    obtain ⟨hnotMem, hnodup⟩ := List.nodup_cons.mp hnodup
    rcases List.mem_cons.mp h with rfl | h
    · exact Function.update_self _ _ _
    · have hne : rid ≠ x.1 := fun heq => hnotMem (heq ▸ List.mem_map_of_mem h)
      rw [overlay, Function.update_of_ne hne, ih hnodup h]

/-- What is replaced does not matter. -/
theorem overlay_congr (h : rid ∉ l.map Prod.fst → rows rid = rows' rid) :
    rows.overlay l rid = rows'.overlay l rid := by
  induction l with
  | nil => exact h (by simp)
  | cons x l ih =>
    by_cases hx : rid = x.1
    · simp [overlay, hx]
    · simp only [overlay, Function.update_of_ne hx]
      exact ih fun hl => h (by simpa [hx] using hl)

theorem overlay_without : (rows.without (l.map Prod.fst)).overlay l = rows.overlay l := by
  funext rid
  refine overlay_congr fun h => ?_
  rw [without, if_neg h]

/-- Rows that are there already. -/
theorem overlay_eq_self (h : ∀ x ∈ l, rows x.1 = some x.2) : rows.overlay l = rows := by
  induction l with
  | nil => rfl
  | cons x l ih =>
    rw [overlay, ih fun y hy => h y (List.mem_cons_of_mem _ hy), ← h x List.mem_cons_self]
    exact Function.update_eq_self _ _

theorem overlay_concat (h : rid ∉ l.map Prod.fst) :
    rows.overlay (l ++ [(rid, r)]) = Function.update (rows.overlay l) rid (some r) := by
  induction l with
  | nil => rfl
  | cons x l ih =>
    rw [List.map_cons, List.mem_cons, not_or] at h
    rw [List.cons_append, overlay, ih h.2, overlay, Function.update_comm (Ne.symm h.1)]

theorem overlay_update {x : Option RmRecord} (h : rid ∉ l.map Prod.fst) :
    overlay (Function.update rows rid x) l = Function.update (rows.overlay l) rid x := by
  induction l with
  | nil => rfl
  | cons y l ih =>
    rw [List.map_cons, List.mem_cons, not_or] at h
    rw [overlay, ih h.2, overlay, Function.update_comm h.1]

theorem update_overlay_cons (h : rid ∉ l.map Prod.fst) (hr : rows rid = none) :
    Function.update (rows.overlay ((rid, r) :: l)) rid none = rows.overlay l := by
  have hl : rows.overlay l rid = none := (overlay_of_notMem h).trans hr
  rw [overlay, Function.update_idem, ← hl]
  exact Function.update_eq_self _ _

/-- New rows of an update are rows after it. -/
theorem overlay_updated {cols : List ColMeta} {clauses : List SetClause} {rids : List Rid}
    {done news : List (Rid × RmRecord)}
    (happly : List.Forall₂ (fun old new => applySetClauses cols clauses old.2 = .ok new.2) done news)
    (hfst : news.map Prod.fst = done.map Prod.fst) (holds : ∀ x ∈ done, x.1 ∈ rids ∧ rows x.1 = some x.2)
    (h : (rows.without rids).overlay news rid = some r) : rows.updated cols clauses rids rid = some r := by
  induction happly with
  | nil =>
    simp only [overlay, without] at h
    split at h
    · cases h
    · rename_i hrid
      rw [updated, if_neg hrid, h]
  | @cons old new done news hnew _ ih =>
    obtain ⟨hhead, hrest⟩ := List.cons.inj hfst
    obtain ⟨hold, holds'⟩ := List.forall_mem_cons.mp holds
    by_cases hrid : rid = new.1
    · subst hrid
      simp only [overlay, Function.update_self, Option.some.injEq] at h
      rw [updated, hhead, if_pos hold.1, hold.2, Option.bind_some, hnew, ← h]
      rfl
    · simp only [overlay, Function.update_of_ne hrid] at h
      exact ih hrest holds' h

end Rows

-- ---------------------------------------------------------------------------
-- The steps
-- ---------------------------------------------------------------------------

variable {s : Session} {k n : Int} {chain : List PageNo} {rows keyed : Rows} {metas : List IndexMeta}
  {rid : Rid} {r : RmRecord}

/-- The session once its indexes are replaced. -/
def Session.withIndexes (s : Session) (ixs : List Index) : Session :=
  { s with table := { s.table with indexes := ixs } }

/-- The session once its file is replaced. -/
def Session.withFile (s : Session) (file : RmFileHandle) : Session :=
  { s with table := { s.table with file := file } }

theorem getRecord_run (h : s.table.file.Holds k n chain rows) (hr : rows rid = some r) :
    getRecord rid s = .ok r s := by
  simp [getRecord, h.getRecord hr]

theorem deleteEntries_run (h : AllExact metas s.table.indexes keyed) (hr : keyed rid = some r) :
    ∃ ixs, deleteEntries r s = .ok () (s.withIndexes ixs) ∧
      AllExact metas ixs (Function.update keyed rid none) := by
  obtain ⟨ixs, hcode, hall⟩ := h.deleteKeys hr
  exact ⟨ixs, by simp [deleteEntries, hcode, Session.withIndexes], hall⟩

theorem insertEntries_run (h : AllExact metas s.table.indexes keyed) (hr : keyed rid = none)
    (habs : ∀ cols ∈ metas, ¬ keyed.HasKey cols (cols.key r)) :
    ∃ ixs, insertEntries r rid s = .ok () (s.withIndexes ixs) ∧
      AllExact metas ixs (Function.update keyed rid (some r)) := by
  obtain ⟨ixs, hcode, hall⟩ := h.insertKeys_absent hr habs
  exact ⟨ixs, by simp [insertEntries, hcode, Session.withIndexes], hall⟩

/-- What the first loop of an update does when no lock is refused. -/
theorem removeOldKeys_run {recordGranted : Rid → Bool} {rids : List Rid}
    (hfile : s.table.file.Holds k n chain rows) (hall : AllExact metas s.table.indexes keyed)
    (hnodup : rids.Nodup) (hrows : ∀ rid ∈ rids, rows rid ≠ none ∧ keyed rid = rows rid)
    (hlock : ∀ rid ∈ rids, recordGranted rid = true) :
    ∃ olds ixs, removeOldKeys recordGranted rids s = .ok olds (s.withIndexes ixs) ∧
      olds.map Prod.fst = rids ∧ (∀ x ∈ olds, rows x.1 = some x.2) ∧
      AllExact metas ixs (keyed.without rids) := by
  induction rids generalizing s keyed with
  | nil => exact ⟨[], s.table.indexes, rfl, rfl, by simp, by simpa using hall⟩
  | cons rid rids ih =>
    obtain ⟨hnotMem, hnodup'⟩ := List.nodup_cons.mp hnodup
    obtain ⟨hne, hkeyed⟩ := hrows rid List.mem_cons_self
    obtain ⟨record, hrecord⟩ := Option.ne_none_iff_exists'.mp hne
    obtain ⟨ixs, hdel, hall₁⟩ := deleteEntries_run hall (hkeyed.trans hrecord)
    obtain ⟨olds, ixs', hloop, hfst, holds, hall'⟩ := ih (s := s.withIndexes ixs) hfile hall₁ hnodup'
      (fun rid' hrid' => by
        have hne' : rid' ≠ rid := fun e => hnotMem (e ▸ hrid')
        rw [Function.update_of_ne hne']
        exact hrows rid' (List.mem_cons_of_mem _ hrid'))
      (fun rid' hrid' => hlock rid' (List.mem_cons_of_mem _ hrid'))
    refine ⟨(rid, record) :: olds, ixs', ?_, by simp [hfst], ?_, ?_⟩
    · simp only [removeOldKeys, hlock rid List.mem_cons_self, lock_true, bind_run, pure_run,
        getRecord_run hfile hrecord, hdel, hloop]
      rfl
    · simpa [hrecord] using holds
    · rw [Rows.without_cons]
      exact hall'

/-- A refused lock ends the statement. -/
theorem removeOldKeys_refused {recordGranted : Rid → Bool} {rids : List Rid}
    (hfile : s.table.file.Holds k n chain rows) (hall : AllExact metas s.table.indexes keyed)
    (hnodup : rids.Nodup) (hrows : ∀ rid ∈ rids, rows rid ≠ none ∧ keyed rid = rows rid)
    (hlock : ∃ rid ∈ rids, recordGranted rid = false) :
    ∃ s', removeOldKeys recordGranted rids s = .error .transactionAbort s' := by
  induction rids generalizing s keyed with
  | nil => simp at hlock
  | cons rid rids ih =>
    cases hg : recordGranted rid with
    | false => exact ⟨s, by simp [removeOldKeys, hg]⟩
    | true =>
      obtain ⟨hnotMem, hnodup'⟩ := List.nodup_cons.mp hnodup
      obtain ⟨hne, hkeyed⟩ := hrows rid List.mem_cons_self
      obtain ⟨record, hrecord⟩ := Option.ne_none_iff_exists'.mp hne
      obtain ⟨ixs, hdel, hall₁⟩ := deleteEntries_run hall (hkeyed.trans hrecord)
      obtain ⟨s', hloop⟩ := ih (s := s.withIndexes ixs) hfile hall₁ hnodup'
        (fun rid' hrid' => by
          have hne' : rid' ≠ rid := fun e => hnotMem (e ▸ hrid')
          rw [Function.update_of_ne hne']
          exact hrows rid' (List.mem_cons_of_mem _ hrid'))
        (by simpa [hg] using hlock)
      refine ⟨s', ?_⟩
      simp only [removeOldKeys, hg, lock_true, bind_run, pure_run, getRecord_run hfile hrecord, hdel, hloop]

/-- Take the keys of new rows out again. -/
theorem each_deleteEntries_run {base : Rows} {news : List (Rid × RmRecord)}
    (hall : AllExact metas s.table.indexes (base.overlay news)) (hnodup : (news.map Prod.fst).Nodup)
    (hbase : ∀ x ∈ news, base x.1 = none) :
    ∃ ixs, each deleteEntries (news.map Prod.snd) s = .ok () (s.withIndexes ixs) ∧
      AllExact metas ixs base := by
  induction news generalizing s with
  | nil => exact ⟨s.table.indexes, rfl, hall⟩
  | cons x news ih =>
    obtain ⟨rid, r⟩ := x
    rw [List.map_cons, List.nodup_cons] at hnodup
    have hrow : base.overlay ((rid, r) :: news) rid = some r := by simp [Rows.overlay]
    obtain ⟨ixs, hdel, hall₁⟩ := deleteEntries_run hall hrow
    rw [Rows.update_overlay_cons hnodup.1 (hbase _ List.mem_cons_self)] at hall₁
    obtain ⟨ixs', hloop, hall'⟩ := ih (s := s.withIndexes ixs) hall₁ hnodup.2
      fun y hy => hbase y (List.mem_cons_of_mem _ hy)
    refine ⟨ixs', ?_, hall'⟩
    simp only [List.map_cons, each, bind_run, hdel, hloop]
    rfl

/-- Put the keys of old rows back in. They cannot clash: the rows had them before. -/
theorem each_insertEntries_run {orig : Rows} {olds : List (Rid × RmRecord)}
    (hall : AllExact metas s.table.indexes keyed) (hsub : ∀ rid r, keyed rid = some r → orig rid = some r)
    (huniq : ∀ cols ∈ metas, orig.Unique cols) (hnodup : (olds.map Prod.fst).Nodup)
    (holds : ∀ x ∈ olds, keyed x.1 = none ∧ orig x.1 = some x.2) :
    ∃ ixs, each (fun (x : Rid × RmRecord) => insertEntries x.2 x.1) olds s = .ok () (s.withIndexes ixs) ∧
      AllExact metas ixs (keyed.overlay olds) := by
  induction olds generalizing s keyed with
  | nil => exact ⟨s.table.indexes, rfl, hall⟩
  | cons x olds ih =>
    obtain ⟨rid, r⟩ := x
    rw [List.map_cons, List.nodup_cons] at hnodup
    obtain ⟨hnone, horig⟩ := holds _ List.mem_cons_self
    have habs : ∀ cols ∈ metas, ¬ keyed.HasKey cols (cols.key r) := by
      rintro cols hcols ⟨rid', r', hr', hkey⟩
      have hrid : rid' = rid := huniq cols hcols rid' rid r' r (hsub _ _ hr') horig hkey
      rw [hrid, hnone] at hr'
      cases hr'
    obtain ⟨ixs, hins, hall₁⟩ := insertEntries_run hall hnone habs
    obtain ⟨ixs', hloop, hall'⟩ := ih (s := s.withIndexes ixs) hall₁
      (fun rid' r' hr' => by
        by_cases h : rid' = rid
        · subst h
          rw [Function.update_self] at hr'
          exact hr' ▸ horig
        · rw [Function.update_of_ne h] at hr'
          exact hsub rid' r' hr')
      hnodup.2
      (fun y hy => by
        have hne : y.1 ≠ rid := fun e => hnodup.1 (List.mem_map.mpr ⟨y, hy, e⟩)
        rw [Function.update_of_ne hne]
        exact holds y (List.mem_cons_of_mem _ hy))
    rw [Rows.overlay_update hnodup.1] at hall'
    refine ⟨ixs', ?_, hall'⟩
    simp only [each, bind_run, hins, hloop]
    rfl

/-- The handler of `IndexEntryNotUniqueError` puts every index back. -/
theorem restoreKeys_run {olds news : List (Rid × RmRecord)} {new : RmRecord} {done rest : List Index}
    {m₁ m₂ : List IndexMeta}
    (hdone : AllExact m₁ done
      (Function.update ((rows.without (olds.map Prod.fst)).overlay news) rid (some new)))
    (hrest : AllExact m₂ rest ((rows.without (olds.map Prod.fst)).overlay news))
    (huniq : ∀ cols ∈ m₁ ++ m₂, rows.Unique cols) (hnodup : (olds.map Prod.fst).Nodup)
    (holds : ∀ x ∈ olds, rows x.1 = some x.2) (hnews : (news.map Prod.fst).Nodup)
    (hsub : ∀ x ∈ news, x.1 ∈ olds.map Prod.fst) (hrid : rid ∈ olds.map Prod.fst)
    (hnew : rid ∉ news.map Prod.fst) :
    ∃ ixs, restoreKeys olds (news.map Prod.snd) new done rest s = .error .indexEntryNotUnique (s.withIndexes ixs) ∧
      AllExact (m₁ ++ m₂) ixs rows := by
  have hbase : ∀ rid ∈ olds.map Prod.fst, rows.without (olds.map Prod.fst) rid = none :=
    fun rid h => if_pos h
  have hnone : (rows.without (olds.map Prod.fst)).overlay news rid = none :=
    (Rows.overlay_of_notMem hnew).trans (hbase rid hrid)
  have hrow : Function.update ((rows.without (olds.map Prod.fst)).overlay news) rid (some new) rid = some new :=
    Function.update_self rid _ _
  obtain ⟨done', hdel, hdone'⟩ := hdone.deleteKeys hrow
  rw [Function.update_idem, ← hnone, Function.update_eq_self] at hdone'
  obtain ⟨ixs₁, hloop₁, hall₁⟩ := each_deleteEntries_run (s := s.withIndexes (done' ++ rest))
    (hdone'.append hrest) hnews fun x hx => hbase _ (hsub x hx)
  obtain ⟨ixs₂, hloop₂, hall₂⟩ := each_insertEntries_run (s := s.withIndexes ixs₁) hall₁
    (fun rid r hr => by
      simp only [Rows.without] at hr
      split at hr
      · cases hr
      · exact hr)
    huniq hnodup fun x hx => ⟨hbase _ (List.mem_map_of_mem hx), holds x hx⟩
  rw [Rows.overlay_without, Rows.overlay_eq_self holds] at hall₂
  refine ⟨ixs₂, ?_, hall₂⟩
  have hset : setIndexes (done' ++ rest) s = .ok () (s.withIndexes (done' ++ rest)) := rfl
  have hloop₁' : each deleteEntries (news.map Prod.snd) (s.withIndexes (done' ++ rest)) =
      .ok () (s.withIndexes ixs₁) := hloop₁
  simp only [restoreKeys, hdel, ofIx_ok, bind_run, pure_run, hset, hloop₁', hloop₂, throw_run]
  rfl

/-- The second loop of an update: all new keys go in, or none stays, or a set clause fails. -/
theorem insertNewKeys_run (clauses : List SetClause) {olds todo : List (Rid × RmRecord)}
    (done news : List (Rid × RmRecord))
    (hall : AllExact metas s.table.indexes ((rows.without (olds.map Prod.fst)).overlay news))
    (hsplit : olds = done ++ todo) (hfst : news.map Prod.fst = done.map Prod.fst)
    (happly : List.Forall₂ (fun old new => applySetClauses s.table.cols clauses old.2 = .ok new.2) done news)
    (huniq : ∀ cols ∈ metas, rows.Unique cols) (hnodup : (olds.map Prod.fst).Nodup)
    (holds : ∀ x ∈ olds, rows x.1 = some x.2) :
    (∃ news' ixs, insertNewKeys clauses olds todo (news.map Prod.snd) s =
        .ok (news'.map Prod.snd) (s.withIndexes ixs) ∧ news'.map Prod.fst = olds.map Prod.fst ∧
        List.Forall₂ (fun old new => applySetClauses s.table.cols clauses old.2 = .ok new.2) olds news' ∧
        AllExact metas ixs ((rows.without (olds.map Prod.fst)).overlay news')) ∨
      (∃ ixs, insertNewKeys clauses olds todo (news.map Prod.snd) s =
        .error .indexEntryNotUnique (s.withIndexes ixs) ∧ AllExact metas ixs rows ∧
          ∃ cols ∈ metas, ¬ (rows.updated s.table.cols clauses (olds.map Prod.fst)).Unique cols) ∨
      (∃ e s', insertNewKeys clauses olds todo (news.map Prod.snd) s = .error e s' ∧
        ∃ old ∈ olds, applySetClauses s.table.cols clauses old.2 = .error e) := by
  induction todo generalizing s done news with
  | nil =>
    obtain rfl : olds = done := by simpa using hsplit
    exact .inl ⟨news, s.table.indexes, rfl, hfst, happly, hall⟩
  | cons x todo ih =>
    obtain ⟨rid, record⟩ := x
    cases hnew : applySetClauses s.table.cols clauses record with
    | error e =>
      refine .inr (.inr ⟨e, s, ?_, (rid, record), by simp [hsplit], hnew⟩)
      simp [insertNewKeys, hnew]
    | ok new =>
      have hmem : rid ∈ olds.map Prod.fst := by simp [hsplit]
      have hnotMem : rid ∉ news.map Prod.fst := by
        rw [hsplit, List.map_append, List.map_cons, List.nodup_append] at hnodup
        rw [hfst]
        exact fun h => hnodup.2.2 rid h rid List.mem_cons_self rfl
      have hnone : (rows.without (olds.map Prod.fst)).overlay news rid = none :=
        (Rows.overlay_of_notMem hnotMem).trans (if_pos hmem)
      obtain ⟨ixs₁, rest, m₁, m₂, hins, rfl, hdone, hrest, hend⟩ := hall.insertKeys hnone new
      cases rest with
      | nil =>
        obtain rfl : m₂ = [] := hrest.1.symm
        rw [← Rows.overlay_concat hnotMem] at hdone
        have hrun : insertNewKeys clauses olds ((rid, record) :: todo) (news.map Prod.snd) s =
            insertNewKeys clauses olds todo ((news ++ [(rid, new)]).map Prod.snd) (s.withIndexes ixs₁) := by
          simp only [insertNewKeys, bind_run, get_run, hnew, ofDb_ok, pure_run, hins, ofIx_ok, setIndexes_run,
            List.map_append, List.map_cons, List.map_nil]
          rfl
        rw [hrun]
        have happly' : List.Forall₂ (fun old new => applySetClauses s.table.cols clauses old.2 = .ok new.2)
            (done ++ [(rid, record)]) (news ++ [(rid, new)]) := List.rel_append happly (.cons hnew .nil)
        have hdone' : AllExact (m₁ ++ []) (s.withIndexes ixs₁).table.indexes
            ((rows.without (olds.map Prod.fst)).overlay (news ++ [(rid, new)])) := by
          rwa [List.append_nil]
        exact ih (s := s.withIndexes ixs₁) _ _ hdone' (by simp [hsplit]) (by simp [hfst]) happly'
      | cons ix rest =>
        obtain ⟨ixs, hrestore, hall'⟩ := restoreKeys_run (s := s) hdone hrest huniq hnodup holds
          (hfst ▸ (List.Sublist.nodup (by simp [hsplit]) hnodup)) (fun y hy => by
            have : y.1 ∈ done.map Prod.fst := hfst ▸ List.mem_map_of_mem hy
            simp only [hsplit, List.map_append, List.mem_append]
            exact .inl this) hmem hnotMem
        have hclash : ∃ cols ∈ m₁ ++ m₂, ¬ (rows.updated s.table.cols clauses (olds.map Prod.fst)).Unique cols := by
          have hkey : ¬ ∀ cols ∈ m₁ ++ m₂, ¬ ((rows.without (olds.map Prod.fst)).overlay news).HasKey cols
              (cols.key new) := fun h => by cases hend.mpr h
          push Not at hkey
          obtain ⟨cols, hcols, rid', r', hr', hkey⟩ := hkey
          refine ⟨cols, hcols, fun hunique => ?_⟩
          have hdone' : ∀ x ∈ done, x.1 ∈ olds.map Prod.fst ∧ rows x.1 = some x.2 := by
            intro x hx
            have hx' : x ∈ olds := hsplit ▸ List.mem_append_left _ hx
            exact ⟨List.mem_map_of_mem hx', holds x hx'⟩
          have hrow : rows rid = some record := holds (rid, record) (by simp [hsplit])
          have hself : rows.updated s.table.cols clauses (olds.map Prod.fst) rid = some new := by
            rw [Rows.updated, if_pos hmem, hrow, Option.bind_some, hnew]
            rfl
          have heq := hunique rid' rid r' new (Rows.overlay_updated happly hfst hdone' hr') hself hkey
          rw [heq, hnone] at hr'
          cases hr'
        refine .inr (.inl ⟨ixs, ?_, hall', hclash⟩)
        simp only [insertNewKeys, bind_run, get_run, hnew, ofDb_ok, pure_run, hins, ofIx_ok, hrestore]

/-- The third loop of an update. -/
theorem writeRows_run {l : List ((Rid × RmRecord) × RmRecord)} (hfile : s.table.file.Holds k n chain rows)
    (hrows : ∀ x ∈ l, rows x.1.1 ≠ none) (hnodup : (l.map fun x => x.1.1).Nodup) :
    ∃ f, writeRows l s = .ok () ⟨{ s.table with file := f },
        (l.map fun x => .updateTuple x.1.1 x.1.2 x.2).reverse ++ s.writeSet⟩ ∧
      f.Holds k n chain (rows.overlay (l.map fun x => (x.1.1, x.2))) := by
  induction l generalizing s rows with
  | nil => exact ⟨s.table.file, rfl, hfile⟩
  | cons x l ih =>
    obtain ⟨⟨rid, old⟩, new⟩ := x
    rw [List.map_cons, List.nodup_cons] at hnodup
    obtain ⟨f, hcode, hfile₁⟩ := hfile.updateRecord (hrows _ List.mem_cons_self) new
    obtain ⟨f', hloop, hfile'⟩ :=
      ih (s := ⟨{ s.table with file := f }, .updateTuple rid old new :: s.writeSet⟩) hfile₁
        (fun y hy => by
          have hne : y.1.1 ≠ rid := fun e => hnodup.1 (List.mem_map.mpr ⟨y, hy, e⟩)
          rw [Function.update_of_ne hne]
          exact hrows y (List.mem_cons_of_mem _ hy))
        hnodup.2
    refine ⟨f', ?_, ?_⟩
    · simp only [writeRows, bind_run, appendWriteRecord_run, updateRecord, get_run, hcode, ofRm_ok, pure_run,
        setFile_run, hloop]
      simp
    · rw [Rows.overlay_update (by simpa [Function.comp_def] using hnodup.1)] at hfile'
      exact hfile'

-- ---------------------------------------------------------------------------
-- The statements
-- ---------------------------------------------------------------------------

/-- A table with these rows, and indexes on these columns that agree with them. -/
structure Table.Is (t : Table) (k n : Int) (chain : List PageNo) (metas : List IndexMeta) (rows : Rows) : Prop where
  file : t.file.Holds k n chain rows
  indexes : AllExact metas t.indexes rows

/-- A filled record is refused because an index has its key or the table is locked, or it becomes a row with new
keys. The row is there without its keys when the lock on it is refused. -/
theorem insertFilled_run (h : s.table.Is k n chain metas rows) (r : RmRecord) (tableGranted : Bool)
    (recordGranted : Rid → Bool) :
    ((∃ cols ∈ metas, rows.HasKey cols (cols.key r)) ∧
        insertFilled r tableGranted recordGranted s = .error .indexEntryNotUnique s) ∨
      (tableGranted = false ∧ insertFilled r tableGranted recordGranted s = .error .transactionAbort s) ∨
      ∃ rid f n₁ chain₁, RmFileHandle.PlacedAt k n chain rows rid n₁ chain₁ ∧
        (∀ cols ∈ metas, ¬ rows.HasKey cols (cols.key r)) ∧
        f.Holds k n₁ chain₁ (Function.update rows rid (some r)) ∧
        ((∃ ixs, insertFilled r tableGranted recordGranted s =
              .ok () ⟨{ s.table with file := f, indexes := ixs }, .insertTuple rid r :: s.writeSet⟩ ∧
            AllExact metas ixs (Function.update rows rid (some r))) ∨
          recordGranted rid = false ∧ insertFilled r tableGranted recordGranted s =
            .error .transactionAbort ⟨{ s.table with file := f }, .insertTuple rid r :: s.writeSet⟩) := by
  obtain ⟨b, hexists, hb⟩ := h.indexes.existsKey r
  cases b with
  | true => exact .inl ⟨hb.mp rfl, by simp [insertFilled, hexists]⟩
  | false =>
    cases htable : tableGranted with
    | false => exact .inr (.inl ⟨rfl, by simp [insertFilled, hexists]⟩)
    | true =>
      have habs : ∀ cols ∈ metas, ¬ rows.HasKey cols (cols.key r) := by
        intro cols hcols hkey
        exact absurd (hb.mpr ⟨cols, hcols, hkey⟩) (by simp)
      obtain ⟨rid, f, n₁, chain₁, hcode, hplaced, hfile⟩ := h.file.insertRecord r
      refine .inr (.inr ⟨rid, f, n₁, chain₁, hplaced, habs, hfile, ?_⟩)
      cases hrecord : recordGranted rid with
      | false => exact .inr ⟨rfl, by simp [insertFilled, hexists, insertRecord, hcode, hrecord]⟩
      | true =>
        obtain ⟨ixs, hins, hall⟩ := insertEntries_run
          (s := ⟨{ s.table with file := f }, .insertTuple rid r :: s.writeSet⟩) h.indexes hplaced.1 habs
        refine .inl ⟨ixs, ?_, hall⟩
        simp [insertFilled, hexists, insertRecord, hcode, hrecord, hins, Session.withIndexes]

/-- An insertion leaves the table alone, or adds a row with new keys. The row is there without
its keys when the lock on it is refused. -/
theorem insertNext_run (h : s.table.Is k n chain metas rows) (values : List Value) (buffer : RmRecord)
    (tableGranted : Bool) (recordGranted : Rid → Bool) :
    (∃ e, insertNext values buffer tableGranted recordGranted s = .error e s) ∨
      ∃ r rid f n₁ chain₁, RmFileHandle.PlacedAt k n chain rows rid n₁ chain₁ ∧
        (∀ cols ∈ metas, ¬ rows.HasKey cols (cols.key r)) ∧
        f.Holds k n₁ chain₁ (Function.update rows rid (some r)) ∧
        ((∃ ixs, insertNext values buffer tableGranted recordGranted s =
              .ok () ⟨{ s.table with file := f, indexes := ixs }, .insertTuple rid r :: s.writeSet⟩ ∧
            AllExact metas ixs (Function.update rows rid (some r))) ∨
          insertNext values buffer tableGranted recordGranted s =
            .error .transactionAbort ⟨{ s.table with file := f }, .insertTuple rid r :: s.writeSet⟩) := by
  by_cases hlen : values.length = s.table.cols.length
  case neg => exact .inl ⟨.invalidValueCount, by simp [insertNext, hlen]⟩
  cases hmake : makeRecord s.table.cols values buffer with
  | error e => exact .inl ⟨e, by simp [insertNext, hlen, hmake]⟩
  | ok r =>
    have hnext : insertNext values buffer tableGranted recordGranted s =
        insertFilled r tableGranted recordGranted s := by
      simp [insertNext, hlen, hmake]
    rw [hnext]
    rcases insertFilled_run h r tableGranted recordGranted with
      ⟨-, hrun⟩ | ⟨-, hrun⟩ | ⟨rid, f, n₁, chain₁, hplaced, habs, hfile, hrun⟩
    · exact .inl ⟨_, hrun⟩
    · exact .inl ⟨_, hrun⟩
    · exact .inr ⟨r, rid, f, n₁, chain₁, hplaced, habs, hfile, hrun.imp id And.right⟩

/-- One row of a `DELETE`. -/
theorem deleteRow_run (h : s.table.Is k n chain metas rows) (hr : rows rid = some r) (conds : List Condition) :
    (deleteRow conds rid s = .error .columnNotFound s) ∨ (deleteRow conds rid s = .ok () s) ∨
      ∃ f ixs, deleteRow conds rid s =
          .ok () ⟨{ s.table with file := f, indexes := ixs }, .deleteTuple rid r :: s.writeSet⟩ ∧
        f.Holds k n (if RmFileHandle.rowsOn k rows rid.pageNo = k then rid.pageNo :: chain else chain)
          (Function.update rows rid none) ∧
        AllExact metas ixs (Function.update rows rid none) := by
  have hget := getRecord_run h.file hr
  cases htest : testRecord conds s.table.cols r with
  | none => exact .inl (by simp [deleteRow, hget, htest])
  | some b =>
    cases b with
    | false => exact .inr (.inl (by simp [deleteRow, hget, htest]))
    | true =>
      obtain ⟨f, hdel, hfile⟩ := h.file.deleteRecord (show rows rid ≠ none by simp [hr])
      obtain ⟨ixs, hkeys, hall⟩ := deleteEntries_run
        (s := ⟨{ s.table with file := f }, .deleteTuple rid r :: s.writeSet⟩) h.indexes hr
      refine .inr (.inr ⟨f, ixs, ?_, hfile, hall⟩)
      simp [deleteRow, hget, htest, deleteRecord, hdel, hkeys, Session.withIndexes]

/-- An update whose locks are granted replaces all its rows, or puts the indexes back, or
stops at a set clause. -/
theorem updateNext_run (h : s.table.Is k n chain metas rows) (clauses : List SetClause) {rids : List Rid}
    {recordGranted : Rid → Bool} (hnodup : rids.Nodup) (hrows : ∀ rid ∈ rids, rows rid ≠ none)
    (hlock : ∀ rid ∈ rids, recordGranted rid = true) :
    (∃ (l : List ((Rid × RmRecord) × RmRecord)) (f : RmFileHandle) (ixs : List Index),
        updateNext clauses rids recordGranted s = .ok () ⟨{ s.table with file := f, indexes := ixs },
          (l.map fun x => .updateTuple x.1.1 x.1.2 x.2).reverse ++ s.writeSet⟩ ∧
        (l.map fun x => x.1.1) = rids ∧
        (∀ x ∈ l, rows x.1.1 = some x.1.2 ∧ applySetClauses s.table.cols clauses x.1.2 = .ok x.2) ∧
        f.Holds k n chain (rows.overlay (l.map fun x => (x.1.1, x.2))) ∧
        AllExact metas ixs (rows.overlay (l.map fun x => (x.1.1, x.2)))) ∨
      (∃ ixs, updateNext clauses rids recordGranted s = .error .indexEntryNotUnique (s.withIndexes ixs) ∧
        AllExact metas ixs rows ∧ ∃ cols ∈ metas, ¬ (rows.updated s.table.cols clauses rids).Unique cols) ∨
      (∃ e s', updateNext clauses rids recordGranted s = .error e s' ∧
        ∃ rid ∈ rids, ∃ r, rows rid = some r ∧ applySetClauses s.table.cols clauses r = .error e) := by
  obtain ⟨olds, ixs₁, hremove, rfl, holds, hall₁⟩ := removeOldKeys_run h.file h.indexes hnodup
    (fun rid hrid => ⟨hrows rid hrid, rfl⟩) hlock
  have huniq : ∀ cols ∈ metas, rows.Unique cols := fun cols hcols => h.indexes.unique hcols
  rcases insertNewKeys_run (s := s.withIndexes ixs₁) clauses [] [] hall₁ (List.nil_append olds).symm rfl
    .nil huniq hnodup holds with
    ⟨news, ixs₂, hinsert, hfst, happly, hall₂⟩ | ⟨ixs₂, hinsert, hall₂⟩ |
      ⟨e, s', hinsert, old, hold, herr⟩
  · have hlen : olds.length = (news.map Prod.snd).length := by
      rw [List.length_map]
      exact happly.length_eq
    have hzip : (olds.zip (news.map Prod.snd)).map (fun x => x.1.1) = olds.map Prod.fst := by
      rw [← List.map_fst_zip hlen.le, List.map_map, List.map_fst_zip hlen.le]
      rfl
    have hover : (olds.zip (news.map Prod.snd)).map (fun x => (x.1.1, x.2)) = news := by
      have : (fun x : (Rid × RmRecord) × RmRecord => (x.1.1, x.2)) = Prod.map Prod.fst id := rfl
      rw [this, ← List.zip_map, List.map_id, ← hfst]
      exact (List.zip_of_prod rfl rfl).symm
    obtain ⟨f, hwrite, hfile⟩ := writeRows_run (s := (s.withIndexes ixs₁).withIndexes ixs₂)
      (l := olds.zip (news.map Prod.snd)) h.file (fun x hx => hrows _ (List.mem_map_of_mem (List.of_mem_zip hx).1)) (hzip ▸ hnodup)
    rw [← hfst, Rows.overlay_without, ← hover] at hall₂
    refine .inl ⟨olds.zip (news.map Prod.snd), f, ixs₂, ?_, hzip, ?_, hfile, hall₂⟩
    · simp only [List.map_nil] at hinsert
      simp only [updateNext, bind_run, hremove, hinsert, hwrite]
      rfl
    · intro x hx
      refine ⟨holds _ (List.of_mem_zip hx).1, ?_⟩
      have happly' : List.Forall₂ (fun old new => applySetClauses s.table.cols clauses old.2 = .ok new) olds
          (news.map Prod.snd) := List.forall₂_map_right_iff.mpr happly
      exact List.forall₂_zip happly' hx
  · refine .inr (.inl ⟨ixs₂, ?_, hall₂⟩)
    simp only [List.map_nil] at hinsert
    simp only [updateNext, bind_run, hremove, hinsert]
    rfl
  · refine .inr (.inr ⟨e, s', ?_, old.1, List.mem_map_of_mem hold, old.2, holds old hold, herr⟩)
    simp only [List.map_nil] at hinsert
    simp only [updateNext, bind_run, hremove, hinsert]

-- ---------------------------------------------------------------------------
-- Runs of one client
-- ---------------------------------------------------------------------------

/-- Every index of the table holds exactly the pairs (key, rid) of its rows. -/
def Table.Agrees (t : Table) : Prop :=
  (∃ chain, t.file.Ok chain) ∧ ∀ ix ∈ t.indexes, ix.Exact t.file.lookup

/-- The rids of a statement come from a scan of the table, which yields each row at most once. -/
def Stmt.FromScan (t : Table) : Stmt → Prop
  | .insert .. => True
  | .delete _ rids _ => rids.Nodup ∧ ∀ rid ∈ rids, t.file.lookup rid ≠ none
  | .update _ rids _ => rids.Nodup ∧ ∀ rid ∈ rids, t.file.lookup rid ≠ none

/-- What one client can do to a table: statements that succeed or find a duplicate key, and commits. -/
inductive Reaches (s : Session) : Session → Prop where
  | refl : Reaches s s
  | ok {s₁ s₂ : Session} (stmt : Stmt) :
    Reaches s s₁ → stmt.FromScan s₁.table → stmt.exec s₁ = .ok () s₂ → Reaches s s₂
  | notUnique {s₁ s₂ : Session} (stmt : Stmt) :
    Reaches s s₁ → stmt.FromScan s₁.table → stmt.exec s₁ = .error .indexEntryNotUnique s₂ → Reaches s s₂
  | commit {s₁ : Session} : Reaches s s₁ → Reaches s { s₁ with writeSet := [] }

theorem Table.Agrees.is {t : Table} (h : t.Agrees) : ∃ chain,
    t.Is t.file.numRecordsPerPage t.file.numPages chain (t.indexes.map Index.cols) t.file.lookup := by
  obtain ⟨⟨chain, hok⟩, hall⟩ := h
  exact ⟨chain, ⟨hok, rfl, rfl, fun _ => rfl⟩, rfl, hall⟩

theorem Table.Is.agrees {t : Table} (h : t.Is k n chain metas rows) :
    t.Agrees ∧ t.indexes.map Index.cols = metas := by
  obtain rfl : t.file.lookup = rows := funext h.file.lookup
  exact ⟨⟨⟨chain, h.file.ok⟩, h.indexes.2⟩, h.indexes.1⟩

/-- The loop of a `DELETE` keeps agreement however it ends. -/
theorem each_deleteRow_run {rids : List Rid} (conds : List Condition) (h : s.table.Is k n chain metas rows)
    (hnodup : rids.Nodup) (hrows : ∀ rid ∈ rids, rows rid ≠ none) :
    ∃ s' k' n' chain' rows', s'.table.Is k' n' chain' metas rows' ∧
      (each (deleteRow conds) rids s = .ok () s' ∨ each (deleteRow conds) rids s = .error .columnNotFound s') := by
  induction rids generalizing s chain rows with
  | nil => exact ⟨s, k, n, chain, rows, h, .inl rfl⟩
  | cons rid rids ih =>
    obtain ⟨hnotMem, hnodup'⟩ := List.nodup_cons.mp hnodup
    obtain ⟨r, hr⟩ := Option.ne_none_iff_exists'.mp (hrows rid List.mem_cons_self)
    rcases deleteRow_run h hr conds with hrow | hrow | ⟨f, ixs, hrow, hfile, hall⟩
    · exact ⟨s, k, n, chain, rows, h, .inr (by simp [each, hrow])⟩
    · obtain ⟨s', k', n', chain', rows', h', hloop⟩ :=
        ih h hnodup' fun rid' hrid' => hrows rid' (List.mem_cons_of_mem _ hrid')
      exact ⟨s', k', n', chain', rows', h', by simpa [each, hrow] using hloop⟩
    · obtain ⟨s', k', n', chain', rows', h', hloop⟩ :=
        ih (s := ⟨{ s.table with file := f, indexes := ixs }, .deleteTuple rid r :: s.writeSet⟩) ⟨hfile, hall⟩
          hnodup' fun rid' hrid' => by
            have hne : rid' ≠ rid := fun e => hnotMem (e ▸ hrid')
            rw [Function.update_of_ne hne]
            exact hrows rid' (List.mem_cons_of_mem _ hrid')
      exact ⟨s', k', n', chain', rows', h', by simpa [each, hrow] using hloop⟩

/-- No set clause throws `IndexEntryNotUniqueError`. -/
theorem applySetClauses_ne_notUnique (cols : List ColMeta) (clauses : List SetClause) (r : RmRecord) :
    applySetClauses cols clauses r ≠ .error .indexEntryNotUnique := by
  induction clauses generalizing r with
  | nil => simp [applySetClauses]
  | cons clause clauses ih =>
    have happly : clause.apply cols r ≠ .error .indexEntryNotUnique := by
      simp only [SetClause.apply]
      cases getCol cols clause.lhs with
      | none => simp
      | some col =>
        simp only
        split
        · simp
        · unfold SetClause.compute
          split <;> simp
    cases hr : clause.apply cols r with
    | error e =>
      intro herr
      simp only [applySetClauses, hr, error_bind] at herr
      exact happly (hr.trans herr)
    | ok r' => simpa [applySetClauses, hr] using ih r'

/-- A statement that ends well or with a duplicate key has ended in one way only. -/
theorem final_eq_of_ok {x : EStateM.Result DbError Session Unit} {s₁ s' : Session}
    (hexec : x = .ok () s' ∨ x = .error .indexEntryNotUnique s') (hrun : x = .ok () s₁) : s₁ = s' := by
  rcases hexec with hexec | hexec <;> simp_all

theorem final_eq_of_error {x : EStateM.Result DbError Session Unit} {s₁ s' : Session} {e : DbError}
    (hexec : x = .ok () s' ∨ x = .error .indexEntryNotUnique s') (hrun : x = .error e s₁) :
    e = .indexEntryNotUnique ∧ s₁ = s' := by
  rcases hexec with hexec | hexec <;> simp_all

/-- One statement that succeeds or throws `IndexEntryNotUniqueError`. -/
theorem Stmt.exec_agrees {stmt : Stmt} {s' : Session} (h : s.table.Agrees) (hscan : stmt.FromScan s.table)
    (hexec : stmt.exec s = .ok () s' ∨ stmt.exec s = .error .indexEntryNotUnique s') :
    s'.table.Agrees ∧ s'.table.indexes.map Index.cols = s.table.indexes.map Index.cols := by
  obtain ⟨chain, hs⟩ := h.is
  cases stmt with
  | insert values buffer tableGranted recordGranted =>
    simp only [Stmt.exec] at hexec
    rcases insertNext_run hs values buffer tableGranted recordGranted with
      ⟨e, hrun⟩ | ⟨r, rid, f, n₁, chain₁, -, -, hfile, ⟨ixs, hrun, hall⟩ | hrun⟩
    · obtain ⟨-, rfl⟩ := final_eq_of_error hexec hrun
      exact ⟨h, rfl⟩
    · obtain rfl := final_eq_of_ok hexec hrun
      exact Table.Is.agrees ⟨hfile, hall⟩
    · exact absurd (final_eq_of_error hexec hrun).1 (by simp)
  | delete conds rids tableGranted =>
    simp only [Stmt.exec, deleteNext] at hexec
    cases tableGranted with
    | false => simp at hexec
    | true =>
      simp only [lock_true, bind_run, pure_run] at hexec
      obtain ⟨s₁, k₁, n₁, chain₁, rows₁, h₁, hrun⟩ := each_deleteRow_run conds hs hscan.1 hscan.2
      rcases hrun with hrun | hrun
      · obtain rfl := final_eq_of_ok hexec hrun
        exact h₁.agrees
      · exact absurd (final_eq_of_error hexec hrun).1 (by simp)
  | update clauses rids recordGranted =>
    simp only [Stmt.exec] at hexec
    by_cases hlock : ∀ rid ∈ rids, recordGranted rid = true
    · rcases updateNext_run hs clauses hscan.1 hscan.2 hlock with
        ⟨l, f, ixs, hrun, -, -, hfile, hall⟩ | ⟨ixs, hrun, hall, -⟩ | ⟨e, s₁, hrun, rid, -, r, -, herr⟩
      · obtain rfl := final_eq_of_ok hexec hrun
        exact Table.Is.agrees ⟨hfile, hall⟩
      · obtain ⟨-, rfl⟩ := final_eq_of_error hexec hrun
        exact Table.Is.agrees ⟨hs.file, hall⟩
      · obtain ⟨rfl, -⟩ := final_eq_of_error hexec hrun
        exact absurd herr (applySetClauses_ne_notUnique _ _ _)
    · push Not at hlock
      obtain ⟨s₁, hrun⟩ := removeOldKeys_refused hs.file hs.indexes hscan.1
        (fun rid hrid => ⟨hscan.2 rid hrid, rfl⟩) (by simpa using hlock)
      simp [updateNext, hrun] at hexec

theorem Reaches.agrees {s' : Session} (hs : s.table.Agrees) (hreach : Reaches s s') :
    s'.table.Agrees ∧ s'.table.indexes.map Index.cols = s.table.indexes.map Index.cols := by
  induction hreach with
  | refl => exact ⟨hs, rfl⟩
  | ok _ _ hscan hexec ih =>
    obtain ⟨h, hcols⟩ := Stmt.exec_agrees ih.1 hscan (.inl hexec)
    exact ⟨h, hcols.trans ih.2⟩
  | notUnique _ _ hscan hexec ih =>
    obtain ⟨h, hcols⟩ := Stmt.exec_agrees ih.1 hscan (.inr hexec)
    exact ⟨h, hcols.trans ih.2⟩
  | commit _ ih => exact ih

/-- The session of a client that has just created a table `t(a INT)` with an index on `a`. -/
def intSession : Session where
  table :=
    { cols := [⟨"a", .int, 4, 0⟩]
      file := RmFileHandle.createFile 4
      indexes := [⟨[(0, .int)], IxManager.createIndex 4⟩] }
  writeSet := []

theorem intSession_agrees : intSession.table.Agrees := by
  refine ⟨⟨[], ?_⟩, ?_⟩
  · refine ⟨by decide, by decide, rfl, rfl, List.nodup_nil, by simp, ?_, ?_⟩
    · intro p hp
      exact absurd hp.1 (not_le.mpr hp.2)
    · intro p s hp
      exact absurd hp.1 (not_le.mpr hp.2)
  · intro ix hix
    obtain rfl := List.mem_singleton.mp hix
    refine ⟨∅, createIndex_represents (by decide), fun key rid => ?_⟩
    simp [intSession, RmFileHandle.lookup, RmFileHandle.createFile]

/-- `INSERT INTO t VALUES (n)`, with all locks granted. -/
def insertInt (n : Int) : Stmt := .insert [.int n] [0, 0, 0, 0] true fun _ => true

end Rmdb
