-- SUMMARY: The tables are those of a serial execution of the committed transactions, whatever the interleaving.
import Rmdb.Transaction.RowHistory

/-!
# Serial execution

Whatever way the actions of transactions come one after the other, the rows are those that the committed transactions
leave when each of them runs alone, in the order in which they came to `release_locks`. Transactions that roll back
leave nothing. A row that an active transaction has written has the value of its writes on top, and nobody else has
written it. While a write is done or taken back, the row and the write set differ for a moment.
-/

namespace Rmdb

open Replay (Block)

/-- The transactions that committed, in the order in which they came to `release_locks`. -/
def commitOrder : List TxnAction → List TxnId
  | [] => []
  | .release t true :: as => t :: commitOrder as
  | _ :: as => commitOrder as

/-- The writes of a transaction. -/
def writesOf (t : TxnId) : List TxnAction → List (LoggedWrite Int)
  | [] => []
  | .logWrite t' w :: as => if t' = t then w :: writesOf t as else writesOf t as
  | _ :: as => writesOf t as

/-- Writes, one after the other. -/
def applyAll (rows : TableRows) (ws : List (LoggedWrite Int)) : TableRows := ws.foldl LoggedWrite.apply rows

/-- The committed transactions, one after the other, on an empty database. -/
def serialRows (as : List TxnAction) : TableRows :=
  (commitOrder as).foldl (fun rows t => applyAll rows (writesOf t as)) fun _ => none

/-- The write that a transaction is about to do in the table, or to take back, or to take out of the write set. -/
def TxnPhase.midway : TxnPhase → Option (LoggedWrite Int)
  | writing w => some w
  | undone w => some w
  | compensated w => some w
  | _ => none

variable {fd : List UInt8 → Int} {ok : TxnSystem → TxnAction → Prop} {s : TxnSystem} {t : TxnId} {a : TxnAction}
  {as as' : List TxnAction} {x : Place}

theorem commitOrder_append : commitOrder (as ++ as') = commitOrder as ++ commitOrder as' := by
  induction as with
  | nil => rfl
  | cons a as ih =>
    cases a with
    | release t commits =>
      cases commits with
      | true => exact congrArg (t :: ·) ih
      | false => exact ih
    | begin t | lock t c | logWrite t w | write t w | abort t | rollback t w | logRollback t w | popBack t w
    | unlock t id | endRecord t commits | flushLog t commits => exact ih

theorem writesOf_append : writesOf t (as ++ as') = writesOf t as ++ writesOf t as' := by
  induction as with
  | nil => rfl
  | cons a as ih =>
    cases a with
    | logWrite t' w =>
      rw [List.cons_append, writesOf, writesOf, ih]
      split
      · rfl
      · rfl
    | begin t | lock t c | write t w | abort t | rollback t w | logRollback t w | popBack t w | release t commits
    | unlock t id | endRecord t commits | flushLog t commits => exact ih

/-- One row behind some writes. -/
theorem applyAll_at {rows : TableRows} {ws : List (LoggedWrite Int)} :
    applyAll rows ws x = Replay.result (rows x) (changesAt x ws) := by
  induction ws generalizing rows with
  | nil => rfl
  | cons w ws ih =>
    rw [changesAt_cons]
    refine ih.trans ?_
    rw [w.apply_at]
    split
    · rfl
    · rfl

theorem changesAt_reverse {ws : List (LoggedWrite Int)} : changesAt x ws.reverse = (changesAt x ws).reverse := by
  rw [changesAt, List.filter_reverse, List.map_reverse]
  rfl

theorem changesAt_ne_nil {ws : List (LoggedWrite Int)} : changesAt x ws ≠ [] ↔ ∃ w ∈ ws, w.place = x := by
  simp [changesAt]

namespace TxnSystem

theorem allowsAll_append :
    s.AllowsAll fd ok (as ++ as') ↔ s.AllowsAll fd ok as ∧ (s.actAll fd as).AllowsAll fd ok as' := by
  induction as generalizing s with
  | nil => exact (iff_of_eq (true_and _)).symm
  | cons a as ih => exact (and_congr_right fun _ => ih).trans and_assoc.symm

theorem actAll_append : s.actAll fd (as ++ as') = (s.actAll fd as).actAll fd as' := List.foldl_append

/-- What the actions so far say of the state: of a transaction that committed no action follows, the write set of a
running transaction has all its writes, and what finished transactions have left of the rows is the serial execution. -/
structure SerialInv (fd : List UInt8 → Int) (as : List TxnAction) (s : TxnSystem) : Prop where
  kept : s.Kept fd
  committed : ∀ t ∈ commitOrder as, (s.phase t).Finished true
  forward : ∀ t, (s.phase t).Forward ∨ s.phase t = .fresh → s.writeSet t = (writesOf t as).reverse
  row : ∀ x, ∃ bs work, s.Row fd [] none x bs work ∧ serialRows as x = Block.valueOf none bs

namespace SerialInv

theorem restart : SerialInv fd [] (restart []) := by
  refine ⟨.restart [], (fun t ht => by cases ht), fun _ _ => rfl, fun x => ⟨[], none, ?_, rfl⟩⟩
  have hrow : (TxnSystem.restart []).Row fd [] ((TxnSystem.restart []).rows x) x [] none := .restart rfl
  exact hrow

/-- A transaction that committed writes no more. -/
theorem writesOf_committed (h : SerialInv fd as s) (ha : s.Allows fd a) (ht : t ∈ commitOrder as) :
    writesOf t (as ++ [a]) = writesOf t as := by
  have hnil : writesOf t [a] = [] := by
    cases a with
    | logWrite t' w =>
      refine if_neg ?_
      rintro rfl
      have hactive : (s.phase t').Active := by
        rw [ha.1]
        exact .inl trivial
      exact hactive.not_finished (h.committed t' ht)
    | begin t | lock t c | write t w | abort t | rollback t w | logRollback t w | popBack t w | release t commits
    | unlock t id | endRecord t commits | flushLog t commits => rfl
  rw [writesOf_append, hnil, List.append_nil]

/-- The serial execution goes on with each transaction that commits. -/
theorem serialRows_act (h : SerialInv fd as s) (ha : s.Allows fd a) :
    serialRows (as ++ [a]) x = a.leaves s x (serialRows as x) := by
  have hsame : ∀ (ts : List TxnId) (rows : TableRows), (∀ t ∈ ts, t ∈ commitOrder as) →
      ts.foldl (fun rows t => applyAll rows (writesOf t (as ++ [a]))) rows =
        ts.foldl (fun rows t => applyAll rows (writesOf t as)) rows := by
    intro ts rows hts
    refine List.foldl_ext _ _ _ fun rows t ht => ?_
    rw [h.writesOf_committed ha (hts t ht)]
  unfold serialRows
  rw [commitOrder_append, List.foldl_append, hsame _ _ fun _ ht => ht]
  cases a with
  | release t commits =>
    cases commits with
    | true =>
      have hwrites : writesOf t (as ++ [.release t true]) = writesOf t as := writesOf_append.trans (List.append_nil _)
      have hset : s.writeSet t = (writesOf t as).reverse := by
        refine h.forward t (.inl ?_)
        rw [show s.phase t = .running from ha]
        trivial
      show applyAll _ (writesOf t (as ++ [.release t true])) x = _
      rw [hwrites, applyAll_at, TxnAction.leaves, hset, changesAt_reverse, List.reverse_reverse]
    | false => rfl
  | begin t | lock t c | logWrite t w | write t w | abort t | rollback t w | logRollback t w | popBack t w
  | unlock t id | endRecord t commits | flushLog t commits => rfl

theorem committed_act (h : SerialInv fd as s) (ha : s.Allows fd a) :
    ∀ t ∈ commitOrder (as ++ [a]), ((s.act fd a).phase t).Finished true := by
  rw [commitOrder_append]
  refine List.forall_mem_append.mpr ⟨fun t ht => act_finished ha (h.committed t ht), fun t ht => ?_⟩
  cases a with
  | release t' commits =>
    cases commits with
    | true =>
      cases List.mem_singleton.mp ht
      show (Function.update s.phase t (.releasing true) t).Finished true
      rw [Function.update_self]
      exact .inl rfl
    | false => cases ht
  | begin t' | lock t' c | logWrite t' w | write t' w | abort t' | rollback t' w | logRollback t' w | popBack t' w
  | unlock t' id | endRecord t' commits | flushLog t' commits => cases ht

theorem forward_act (h : SerialInv fd as s) (ha : s.Allows fd a)
    (hphase : ((s.act fd a).phase t).Forward ∨ (s.act fd a).phase t = .fresh) :
    (s.act fd a).writeSet t = (writesOf t (as ++ [a])).reverse := by
  by_cases hne : t = a.txn
  · subst hne
    have hforward := hphase.resolve_right ha.step.ne_fresh
    have hold := h.forward a.txn (ha.step.forward hforward)
    rw [writesOf_append]
    have hstep := ha.step
    generalize s.phase a.txn = p at hstep
    generalize (s.act fd a).phase a.txn = p' at hforward hstep
    cases hstep with
    | logWrite t w =>
      have hone : writesOf t [.logWrite t w] = [w] := if_pos rfl
      replace hold : s.writeSet t = (writesOf t as).reverse := hold
      show Function.update s.writeSet t (w :: s.writeSet t) t = (writesOf t as ++ writesOf t [.logWrite t w]).reverse
      rw [Function.update_self, hone, List.reverse_append, hold]
      rfl
    | begin t | lock t c | granted t c w | refused t c w | insert t w | change t w =>
      exact hold.trans (congrArg List.reverse (List.append_nil _).symm)
    | abort t | abortRefused t | rollback t w | logRollback t w | popBack t w | commit t | rolledBack t
    | unlock t id commits | endRecord t commits | flushLog t commits => exact hforward.elim
  · rw [act_phase_of_ne hne] at hphase
    have hnil : writesOf t [a] = [] := by
      cases a with
      | logWrite t' w => exact if_neg fun heq => hne heq.symm
      | begin t' | lock t' c | write t' w | abort t' | rollback t' w | logRollback t' w | popBack t' w
      | release t' commits | unlock t' id | endRecord t' commits | flushLog t' commits => rfl
    rw [act_writeSet_of_ne hne, writesOf_append, hnil, List.append_nil]
    exact h.forward t hphase

theorem act (h : SerialInv fd as s) (hok : s.InsertsApart fd a) (ha : s.Allows fd a) :
    SerialInv fd (as ++ [a]) (s.act fd a) where
  kept := h.kept.act hok ha
  committed := h.committed_act ha
  forward _ hphase := h.forward_act ha hphase
  row x := by
    obtain ⟨bs, work, hrow, hvalue⟩ := h.row x
    obtain ⟨bs', work', hrow', hvalue'⟩ := hrow.act h.kept hok ha
    refine ⟨bs', work', hrow', ?_⟩
    rw [h.serialRows_act ha, hvalue, hvalue']

end SerialInv

theorem SerialInv.of_actions (h : (TxnSystem.restart []).AllowsAll fd (fun s a => s.InsertsApart fd a) as) :
    SerialInv fd as ((TxnSystem.restart []).actAll fd as) := by
  induction as using List.reverseRecOn with
  | nil => exact .restart
  | append_singleton as a ih =>
    obtain ⟨has, ⟨hok, ha⟩, -⟩ := allowsAll_append.mp h
    rw [actAll_append]
    exact (ih has).act hok ha

/-- A write that stands is in the write set. -/
theorem changesAt_standing (h : changesAt x (s.writeSet t) = []) : changesAt x (s.standing t) = [] := by
  unfold standing
  cases s.phase t with
  | compensated w =>
    show changesAt x (s.writeSet t).tail = []
    cases hset : s.writeSet t with
    | nil => rfl
    | cons w ws =>
      rw [hset, changesAt_cons] at h
      split at h
      · cases h
      · exact h
  | releasing commits | logged commits | ended commits => rfl
  | fresh | running | writing w | inserted w | refused | aborting | undone w | past => exact h

/-- Of a row that a transaction is not midway in, all writes of the write set stand. -/
theorem changesAt_standing_eq (h : s.Kept fd) (hactive : (s.phase t).Active)
    (hmidway : ∀ w, (s.phase t).midway = some w → w.place ≠ x) :
    changesAt x (s.standing t) = changesAt x (s.writeSet t) := by
  have hhead := h.current t
  unfold standing
  cases hphase : s.phase t with
  | compensated w =>
    rw [hphase] at hhead hmidway
    obtain ⟨ws, hws⟩ := List.head?_eq_some_iff.mp (hhead w rfl)
    rw [hws]
    exact (changesAt_cons.trans (if_neg (hmidway w rfl))).symm
  | releasing commits | logged commits | ended commits =>
    rw [hphase] at hactive
    exact hactive.elim False.elim False.elim
  | fresh | running | writing w | inserted w | refused | aborting | undone w | past => rfl

end TxnSystem

/-- When inserts are apart, each of them gets its lock. At any time, a row that no active transaction has in its write
set is the one of the serial execution. A row that one has in its write set is in no other's, and unless this one is
midway in a write of the row, it is that of the serial execution with the write set on top. -/
theorem rows_serializable (h : (TxnSystem.restart []).AllowsAll fd (fun s a => s.InsertsApart fd a) as)
    (hs : s = (TxnSystem.restart []).actAll fd as) :
    (∀ t, s.phase t ≠ .refused) ∧
      (∀ x, (∀ t, (s.phase t).Active → ∀ w ∈ s.writeSet t, w.place ≠ x) → s.rows x = serialRows as x) ∧
      ∀ t, (s.phase t).Active → ∀ w ∈ s.writeSet t,
        (∀ t' ≠ t, (s.phase t').Active → ∀ w' ∈ s.writeSet t', w'.place ≠ w.place) ∧
          ((∀ w', (s.phase t).midway = some w' → w'.place ≠ w.place) →
            s.rows w.place = applyAll (serialRows as) (s.writeSet t).reverse w.place) := by
  have hinv := TxnSystem.SerialInv.of_actions h
  rw [← hs] at hinv
  refine ⟨hinv.kept.granted, fun x hx => ?_, fun t hactive w hw => ⟨fun t' hne hactive' w' hw' hplace => ?_,
    fun hmidway => ?_⟩⟩
  · obtain ⟨bs, work, hrow, hserial⟩ := hinv.row x
    obtain ⟨es, v, -, htells, hshows⟩ := hrow.tells
    have hsettled : s.rows x = v := by
      refine hshows.settled fun t w hw => ?_
      have hcurrent := TxnPhase.current_of_pending hw
      exact hx t (TxnSystem.Kept.active_of_current hcurrent) w (hinv.kept.mem_of_current hcurrent)
    rw [hsettled, hserial, htells.value]
    cases work with
    | none => rfl
    | some w =>
      obtain ⟨t, hwrites⟩ := hrow.writes w rfl
      have hnil : changesAt x (s.writeSet t) = [] := by
        by_contra hne
        obtain ⟨w', hmem, hplace⟩ := changesAt_ne_nil.mp hne
        exact hx t hwrites.active w' hmem hplace
      have hstanding : w.standing = [] :=
        List.reverse_eq_nil_iff.mp (hwrites.standing.symm.trans (TxnSystem.changesAt_standing hnil))
      show Replay.result (Block.valueOf none bs) w.standing = _
      rw [hstanding]
      rfl
  · have howns := hinv.kept.owned t' hactive' w' hw'
    rw [hplace] at howns
    exact hne (hinv.kept.owner_unique hactive' hactive howns (hinv.kept.owned t hactive w hw))
  · obtain ⟨bs, work, hrow, hserial⟩ := hinv.row w.place
    have hall := TxnSystem.changesAt_standing_eq hinv.kept hactive hmidway
    obtain ⟨w₀, rfl, hwrites⟩ := hrow.writes_of_standing (t := t) (by
      rw [hall]
      exact changesAt_ne_nil.mpr ⟨w, hw, rfl⟩)
    obtain ⟨es, v, -, htells, hshows⟩ := hrow.tells
    have hsettled : s.rows w.place = v := by
      refine hshows.settled fun t' w' hw' hplace => ?_
      have hcurrent := TxnPhase.current_of_pending hw'
      have howns := hinv.kept.owns_current hcurrent
      rw [hplace] at howns
      obtain rfl := hinv.kept.owner_unique (TxnSystem.Kept.active_of_current hcurrent) hactive howns hwrites.owns
      refine hmidway w' ?_ hplace
      cases hphase : s.phase t' with
      | writing w₁ | undone w₁ =>
        rw [hphase] at hw'
        exact hw'
      | fresh | running | inserted w₁ | refused | aborting | compensated w₁ | releasing commits | logged commits
      | ended commits | past =>
        rw [hphase] at hw'
        cases hw'
    rw [hsettled, applyAll_at, changesAt_reverse, ← hall, hwrites.standing, List.reverse_reverse, hserial, htells.value]
    rfl

/-- A transaction has committed an insert. Another one has deleted the row, and a third one inserts another row. -/
def deleteCommitted : List TxnAction :=
  [.begin 1, .lock 1 (.ixOnTable 1 3), .logWrite 1 (insertAtFirst [7]), .write 1 (insertAtFirst [7]),
    .lock 1 (.exclusiveOnRecord 1 ⟨1, 0⟩ 3), .release 1 true, .unlock 1 (.table 3), .unlock 1 (.record 3 ⟨1, 0⟩),
    .begin 2, .lock 2 (.exclusiveOnRecord 2 ⟨1, 0⟩ 3), .logWrite 2 (.delete [7] ⟨1, 0⟩ [116]),
    .write 2 (.delete [7] ⟨1, 0⟩ [116]),
    .begin 3, .lock 3 (.ixOnTable 3 3), .logWrite 3 (.insert [8] ⟨1, 1⟩ [116])]

theorem rows_serializable_delete : serialRows deleteCommitted ⟨[116], ⟨1, 0⟩⟩ = some [7] ∧
    ((TxnSystem.restart []).actAll oneTable deleteCommitted).rows ⟨[116], ⟨1, 0⟩⟩ =
      applyAll (serialRows deleteCommitted) [.delete [7] ⟨1, 0⟩ [116]] ⟨[116], ⟨1, 0⟩⟩ := by
  refine ⟨by decide, ?_⟩
  have hmem : LoggedWrite.delete [7] ⟨1, 0⟩ [116] ∈
      ((TxnSystem.restart []).actAll oneTable deleteCommitted).writeSet 2 := by
    decide
  have hphase : ((TxnSystem.restart []).actAll oneTable deleteCommitted).phase 2 = .running := by decide
  have hactive : (((TxnSystem.restart []).actAll oneTable deleteCommitted).phase 2).Active := by
    rw [hphase]
    exact .inl trivial
  refine ((rows_serializable (by decide) rfl).2.2 2 hactive _ hmem).2 fun w hw => ?_
  rw [hphase] at hw
  cases hw

end Rmdb
