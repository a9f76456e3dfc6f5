-- SUMMARY: Until it comes to `release_locks`, a transaction that has written a row is the only one that writes it.
import Rmdb.Transaction.TxnSystem

/-!
# Who has a row

`DELETE` and `UPDATE` write a row under an X lock. An `INSERT` has the row before it has its lock: `hdr_latch_` keeps
other inserts out until the row is there, and then the slot is taken. As long as nobody has a lock on the slot or asks
for one first, the insert gets its lock, and each row has one transaction at most that may write it.
-/

namespace Rmdb

variable {fd : List UInt8 → Int} {ok : TxnSystem → TxnAction → Prop} {s s' : TxnSystem} {t t' : TxnId} {a : TxnAction}
  {x : Place} {w w' : LoggedWrite Int}

/-- The write that a transaction is at. -/
def TxnPhase.current : TxnPhase → Option (LoggedWrite Int)
  | writing w => some w
  | inserted w => some w
  | undone w => some w
  | compensated w => some w
  | _ => none

namespace LoggedWrite

theorem before_of_isInsert (h : w.isInsert = true) : w.change.before = none := by
  cases w with
  | insert r rid tableName => rfl
  | delete r rid tableName | update r newRecord rid tableName => cases h

theorem after_of_isInsert (h : w.isInsert = true) : w.change.after ≠ none := by
  cases w with
  | insert r rid tableName => exact Option.some_ne_none r
  | delete r rid tableName | update r newRecord rid tableName => cases h

end LoggedWrite

namespace TxnPhase

variable {p : TxnPhase}

theorem inserting_eq (h : p.inserting = some w) : (p = .writing w ∧ w.isInsert = true) ∨ p = .inserted w := by
  cases p with
  | writing w' =>
    by_cases hinsert : w'.isInsert = true
    · obtain rfl : w' = w := Option.some.inj ((if_pos hinsert).symm.trans h)
      exact .inl ⟨rfl, hinsert⟩
    · cases (if_neg hinsert).symm.trans h
  | inserted w' =>
    cases h
    exact .inr rfl
  | fresh | running | refused | aborting | undone w' | compensated w' | releasing commits | logged commits
  | ended commits | past => cases h

end TxnPhase

namespace TxnSystem

/-- The transaction is at an insert of this row, and has no lock on it yet. -/
def Inserting (s : TxnSystem) (t : TxnId) (x : Place) : Prop := ∃ w, (s.phase t).inserting = some w ∧ w.place = x

/-- The transaction may write the row. -/
def Owns (fd : List UInt8 → Int) (s : TxnSystem) (t : TxnId) (x : Place) : Prop :=
  s.HoldsX fd t x ∨ s.Inserting t x

theorem Inserting.active (h : s.Inserting t x) : (s.phase t).Active := by
  obtain ⟨w, hw, -⟩ := h
  exact TxnPhase.active_of_inserting hw

/-- What the actions keep when inserts are apart. -/
structure Kept (fd : List UInt8 → Int) (s : TxnSystem) : Prop where
  locks : s.locks.InOrder
  intends : ∀ t, s.phase t = .fresh ∨ (s.phase t).Active → s.locks.lockTable.Intends t
  growing : ∀ t, s.phase t = .fresh ∨ (s.phase t).Forward → (s.locks.txns t).state ≠ .shrinking
  fresh : ∀ t, s.phase t = .fresh → s.writeSet t = []
  begun : ∀ t, (s.phase t).Active → t ∈ s.txnMap
  current : ∀ t w, (s.phase t).current = some w → (s.writeSet t).head? = some w
  /-- An insert is alone at its row. -/
  inserting : ∀ t w, (s.phase t).inserting = some w → w.isInsert = true ∧
    ⟨t, .IX⟩ ∈ s.locks.lockTable (w.place.tableId fd) ∧ ∀ q ∈ s.locks.lockTable (w.place.recordId fd), q.txnId = t
  latch : ∀ t w, s.phase t = .writing w → w.isInsert = true → s.hdrLatch w.place.tableName = some t
  filled : ∀ t w, s.phase t = .inserted w → s.rows w.place ≠ none
  restored : ∀ t w, s.phase t = .undone w → s.rows w.place = w.change.before
  granted : ∀ t, s.phase t ≠ .refused
  owned : ∀ t, (s.phase t).Active → ∀ w ∈ s.writeSet t, s.Owns fd t w.place
  apart : ∀ t t' x, s.Inserting t x → s.Inserting t' x → t = t'

-- ---------------------------------------------------------------------------
-- Owners
-- ---------------------------------------------------------------------------

namespace Kept

theorem eq_of_inserting (h : s.Kept fd) (hx : s.HoldsX fd t x) (hinserting : s.Inserting t' x) : t = t' := by
  obtain ⟨w, hw, rfl⟩ := hinserting
  obtain ⟨-, hIX, halone⟩ := h.inserting t' w hw
  exact hx.eq_of_alone h.locks.ok hIX halone

/-- Two transactions that have not come to `release_locks` do not own the same row. -/
theorem owner_unique (h : s.Kept fd) (hactive : (s.phase t).Active) (hactive' : (s.phase t').Active)
    (ho : s.Owns fd t x) (ho' : s.Owns fd t' x) : t = t' := by
  rcases ho with hx | hinserting
  · rcases ho' with hx' | hinserting'
    · exact hx.unique h.locks.ok (h.intends t (.inr hactive)) (h.intends t' (.inr hactive')) hx'
    · exact h.eq_of_inserting hx hinserting'
  · rcases ho' with hx' | hinserting'
    · exact (h.eq_of_inserting hx' hinserting).symm
    · exact h.apart t t' x hinserting hinserting'

/-- Nobody else owns a row that is going to be written. -/
theorem eq_of_logWrite (h : s.Kept fd) (hok : s.InsertsApart fd (.logWrite t w)) (ha : s.Allows fd (.logWrite t w))
    (hactive : (s.phase t').Active) (ho : s.Owns fd t' w.place) : t' = t := by
  obtain ⟨hphase, hmay, hrow⟩ := ha
  by_cases hinsert : w.isInsert = true
  · obtain ⟨hIX, hlatch⟩ := (if_pos hinsert).mp hmay
    rcases ho with hx | ⟨w', hw', hplace⟩
    · exact hx.eq_of_alone h.locks.ok hIX (hok hinsert)
    · rcases TxnPhase.inserting_eq hw' with ⟨hwriting, hinsert'⟩ | hinserted
      · have hlatch' := h.latch t' w' hwriting hinsert'
        rw [hplace, hlatch] at hlatch'
        cases hlatch'
      · refine absurd ?_ (h.filled t' w' hinserted)
        rw [hplace, hrow]
        exact LoggedWrite.before_of_isInsert hinsert
  · have hx : s.HoldsX fd t w.place := (if_neg hinsert).mp hmay
    have hrunning : (s.phase t).Active := by
      rw [hphase]
      exact .inl trivial
    exact h.owner_unique hactive hrunning ho (.inl hx)

theorem mem_of_current (h : s.Kept fd) (hw : (s.phase t).current = some w) : w ∈ s.writeSet t :=
  List.mem_of_mem_head? (h.current t w hw)

theorem active_of_current (hw : (s.phase t).current = some w) : (s.phase t).Active := by
  cases hphase : s.phase t with
  | writing w | inserted w => exact .inl trivial
  | undone w | compensated w => exact .inr trivial
  | fresh | running | refused | aborting | releasing commits | logged commits | ended commits | past =>
    rw [hphase] at hw
    cases hw

/-- The row of the write that a transaction is at is its own. -/
theorem owns_current (h : s.Kept fd) (hw : (s.phase t).current = some w) : s.Owns fd t w.place :=
  h.owned t (active_of_current hw) w (h.mem_of_current hw)

/-- A row changes only when its owner writes it or takes a write back. -/
theorem rows_act (h : s.Kept fd) (ha : s.Allows fd a) (hactive : (s.phase t).Active) (ho : s.Owns fd t x)
    (hne : t ≠ a.txn) : (s.act fd a).rows x = s.rows x := by
  have hplace {t' : TxnId} {w : LoggedWrite Int} (hne : t ≠ t') (hactive' : (s.phase t').Active)
      (hmem : w ∈ s.writeSet t') : w.place ≠ x := by
    rintro rfl
    exact hne (h.owner_unique hactive hactive' ho (h.owned t' hactive' w hmem))
  cases a with
  | write t' w =>
    have hcurrent : (s.phase t').current = some w := by
      rw [show s.phase t' = .writing w from ha]
      rfl
    exact (w.apply_at s.rows).trans (if_neg (hplace hne (active_of_current hcurrent) (h.mem_of_current hcurrent)))
  | rollback t' w =>
    have hactive' : (s.phase t').Active := by
      rw [ha.1]
      exact .inr trivial
    exact (w.rollback_at s.rows).trans (if_neg (hplace hne hactive' (List.mem_of_mem_head? ha.2)))
  | begin t' | lock t' c | logWrite t' w | abort t' | logRollback t' w | popBack t' w | release t' commits
  | unlock t' id | endRecord t' commits | flushLog t' commits => rfl

/-- The insert gets its lock. -/
theorem lock_granted (h : s.Kept fd) (hphase : s.phase t = .inserted w) :
    s.afterLock fd t = .running ∧ ⟨t, .X⟩ ∈ (s.locks.call (w.lockCall fd t)).lockTable (w.place.recordId fd) := by
  have hid := h.locks.covered.txnId t
  have hinserting : (s.phase t).inserting = some w := by
    rw [hphase]
    rfl
  have hstate : (s.locks.txns t).state ≠ .shrinking := by
    refine h.growing t (.inr ?_)
    rw [hphase]
    trivial
  obtain ⟨-, hIX, halone⟩ := h.inserting t w hinserting
  have hgrants := @LockManager.lockExclusiveOnRecord_grants s.locks.lockTable (s.locks.txns t) (fd w.place.tableName)
    w.place.rid.toRid h.locks.ok hstate (by rwa [hid]) (by rwa [hid])
  rw [hid] at hgrants
  refine ⟨?_, hgrants.2⟩
  rw [afterLock, hphase]
  exact if_pos hgrants.1

/-- An insert goes on, or it has its lock. -/
theorem inserting_next (h : s.Kept fd) (ha : s.Allows fd a) (hw : (s.phase t).inserting = some w) :
    ((s.act fd a).phase t).inserting = some w ∨
      ⟨t, .X⟩ ∈ (s.act fd a).locks.lockTable (w.place.recordId fd) := by
  by_cases ht : t = a.txn
  · subst ht
    rcases TxnPhase.inserting_eq hw with ⟨hwriting, hinsert⟩ | hinserted
    · have hstep := ha.step
      rw [hwriting] at hstep
      left
      generalize (s.act fd a).phase a.txn = p' at hstep ⊢
      cases hstep with
      | insert t w => rfl
      | change t w hchange => cases hchange.symm.trans hinsert
    · rw [ha.of_inserted hinserted]
      exact .inr (h.lock_granted hinserted).2
  · rw [act_phase_of_ne ht]
    exact .inl hw

/-- An owner stays one until it comes to `release_locks`. -/
theorem owns_act (h : s.Kept fd) (ha : s.Allows fd a) (hactive : (s.phase t).Active) (ho : s.Owns fd t x) :
    (s.act fd a).Owns fd t x := by
  rcases ho with hx | ⟨w, hw, rfl⟩
  · exact .inl (hx.act h.locks ha hactive)
  · rcases h.inserting_next ha hw with hnext | hlock
    · exact .inr ⟨w, hnext, rfl⟩
    · exact .inl (.inl hlock)

-- ---------------------------------------------------------------------------
-- What each action keeps
-- ---------------------------------------------------------------------------

theorem restart (log : List (LogRecord Int)) : (TxnSystem.restart log).Kept fd := by
  have hlockTable : (TxnSystem.restart log).locks.lockTable = fun _ => [] := congrArg (·.lockTable) restart_locks
  -- Nobody has begun.
  have hnone : ∀ {P : TxnPhase → Prop}, ¬ P .fresh → ¬ P .past → ∀ t, ¬ P ((TxnSystem.restart log).phase t) := by
    intro P hfresh hpast t
    rcases @restart_fresh_or_past t log with hphase | hphase
    · rwa [hphase]
    · rwa [hphase]
  constructor
  · rw [restart_locks]
    exact .init
  · intro t _ fd rid hmem
    rw [hlockTable] at hmem
    cases hmem
  · intro t _
    rw [restart_locks]
    exact fun h => by cases h
  · intro t _
    rw [restart_writeSet]
  · exact fun t h => absurd h (hnone (P := TxnPhase.Active) (·.elim id id) (·.elim id id) t)
  · exact fun t w hw => absurd hw (hnone (P := (·.current = some w)) (by simp [TxnPhase.current])
      (by simp [TxnPhase.current]) t)
  · exact fun t w hw => absurd hw (hnone (P := (·.inserting = some w)) (by simp [TxnPhase.inserting])
      (by simp [TxnPhase.inserting]) t)
  · exact fun t w hphase => absurd hphase (hnone (P := (· = .writing w)) (by simp) (by simp) t)
  · exact fun t w hphase => absurd hphase (hnone (P := (· = .inserted w)) (by simp) (by simp) t)
  · exact fun t w hphase => absurd hphase (hnone (P := (· = .undone w)) (by simp) (by simp) t)
  · exact hnone (P := (· = .refused)) (by simp) (by simp)
  · intro t _ w hw
    rw [restart_writeSet] at hw
    cases hw
  · rintro t t' x ⟨w, hw, -⟩
    exact absurd hw (hnone (P := (·.inserting = some w)) (by simp [TxnPhase.inserting])
      (by simp [TxnPhase.inserting]) t)

theorem intends_act (h : s.Kept fd) (ha : s.Allows fd a)
    (hphase : (s.act fd a).phase t = .fresh ∨ ((s.act fd a).phase t).Active) :
    (s.act fd a).locks.lockTable.Intends t := by
  have hbefore : s.phase t = .fresh ∨ (s.phase t).Active := by
    rcases hphase with hfresh | hactive
    · by_cases ht : t = a.txn
      · subst ht
        exact absurd hfresh ha.step.ne_fresh
      · rw [act_phase_of_ne ht] at hfresh
        exact .inl hfresh
    · exact (active_before ha hactive).symm.imp_left And.left
  have hold := h.intends t hbefore
  have hne {t' : TxnId} {commits : Bool} (hreleasing : s.phase t' = .releasing commits) : t ≠ t' := by
    rintro rfl
    rcases hbefore with hfresh | hactive
    · cases hfresh.symm.trans hreleasing
    · exact hactive.not_finished (.inl hreleasing)
  cases a with
  | lock t' c => exact LockState.call_intends ha.2 hold
  | unlock t' id =>
    have hother : t ≠ t' := by
      rcases ha.1 with hreleasing | hreleasing
      · exact hne hreleasing
      · exact hne hreleasing
    exact hold.congr fun _ _ => (LockState.mem_unlock h.locks.covered).trans (and_iff_left fun _ => hother)
  | endRecord t' commits =>
    exact hold.congr fun _ _ => (LockState.mem_releaseLocks h.locks.covered).trans (and_iff_left (hne ha.1))
  | release t' commits =>
    cases commits with
    | true => exact hold
    | false => exact hold
  | begin t' | logWrite t' w | write t' w | abort t' | rollback t' w | logRollback t' w | popBack t' w
  | flushLog t' commits => exact hold

theorem growing_act (h : s.Kept fd) (ha : s.Allows fd a)
    (hphase : (s.act fd a).phase t = .fresh ∨ ((s.act fd a).phase t).Forward) :
    ((s.act fd a).locks.txns t).state ≠ .shrinking := by
  have hbefore : s.phase t = .fresh ∨ (s.phase t).Forward := by
    by_cases ht : t = a.txn
    · subst ht
      rcases hphase with hfresh | hforward
      · exact absurd hfresh ha.step.ne_fresh
      · exact (ha.step.forward hforward).symm
    · rwa [act_phase_of_ne ht] at hphase
  have hold := h.growing t hbefore
  have hset {t' : TxnId} {lt : LockTable} {txn : Transaction} (hne : t ≠ t') :
      ((s.locks.setTxn t' lt txn).txns t).state ≠ .shrinking := by
    have hsame : (s.locks.setTxn t' lt txn).txns t = s.locks.txns t := if_neg hne
    rwa [hsame]
  have hother (t' : TxnId) {p : TxnPhase} (hp : (s.act fd a).phase t' = p) (hne : p ≠ .fresh) (hnot : ¬ p.Forward) :
      t ≠ t' := by
    rintro rfl
    rw [hp] at hphase
    exact hphase.elim hne hnot
  cases a with
  | lock t' c => exact LockState.call_state ha.2 hold
  | abort t' =>
    have hne := hother t' (Function.update_self ..) (by simp) id
    exact hset hne
  | release t' commits =>
    have hne := hother t' (Function.update_self ..) (by simp) id
    cases commits with
    | true => exact hset hne
    | false => exact hold
  | unlock t' id =>
    have hne : t ≠ t' := by
      rintro rfl
      rcases ha.1 with hreleasing | hreleasing
      · rw [hreleasing] at hbefore
        exact hbefore.elim (by simp) False.elim
      · rw [hreleasing] at hbefore
        exact hbefore.elim (by simp) False.elim
    exact hset hne
  | endRecord t' commits =>
    have hne := hother t' (Function.update_self ..) (by simp) id
    exact hset hne
  | begin t' | logWrite t' w | write t' w | rollback t' w | logRollback t' w | popBack t' w
  | flushLog t' commits => exact hold

theorem fresh_act (h : s.Kept fd) (ha : s.Allows fd a) (hphase : (s.act fd a).phase t = .fresh) :
    (s.act fd a).writeSet t = [] := by
  have hne : t ≠ a.txn := by
    rintro rfl
    exact ha.step.ne_fresh hphase
  rw [act_phase_of_ne hne] at hphase
  rw [act_writeSet_of_ne hne]
  exact h.fresh t hphase

theorem begun_act (h : s.Kept fd) (ha : s.Allows fd a) (hactive : ((s.act fd a).phase t).Active) :
    t ∈ (s.act fd a).txnMap := by
  rcases active_before ha hactive with hbefore | ⟨-, rfl⟩
  · have hold := h.begun t hbefore
    cases a with
    | begin t' => exact List.mem_cons_of_mem t' hold
    | lock t' c | logWrite t' w | write t' w | abort t' | rollback t' w | logRollback t' w | popBack t' w
    | release t' commits | unlock t' id | endRecord t' commits | flushLog t' commits => exact hold
  · exact List.mem_cons_self

theorem current_act (h : s.Kept fd) (ha : s.Allows fd a) (hw : ((s.act fd a).phase t).current = some w) :
    ((s.act fd a).writeSet t).head? = some w := by
  by_cases ht : t = a.txn
  · subst ht
    have hold := h.current a.txn w
    have hstep := ha.step
    generalize s.phase a.txn = p at hold hstep
    generalize (s.act fd a).phase a.txn = p' at hw hstep
    cases hstep with
    | logWrite t w' =>
      cases hw
      have hset : Function.update s.writeSet t (w :: s.writeSet t) t = w :: s.writeSet t := Function.update_self ..
      exact congrArg List.head? hset
    | insert t w' | logRollback t w' => exact hold hw
    | rollback t w' =>
      cases hw
      exact ha.2
    | begin t | lock t c | granted t c w' | refused t c w' | change t w' | abort t | abortRefused t | popBack t w'
    | commit t | rolledBack t | unlock t id commits | endRecord t commits | flushLog t commits => cases hw
  · rw [act_phase_of_ne ht] at hw
    rw [act_writeSet_of_ne ht]
    exact h.current t w hw

end Kept

/-- An insert starts when it is logged. -/
theorem inserting_before (ha : s.Allows fd a) (hw : ((s.act fd a).phase t).inserting = some w) :
    (s.phase t).inserting = some w ∨ (a = .logWrite t w ∧ w.isInsert = true) := by
  by_cases ht : t = a.txn
  · subst ht
    have hstep := ha.step
    generalize s.phase a.txn = p at hstep ⊢
    generalize (s.act fd a).phase a.txn = p' at hw hstep
    cases hstep with
    | logWrite t w' =>
      rcases TxnPhase.inserting_eq hw with ⟨hphase, hinsert⟩ | hphase
      · cases hphase
        exact .inr ⟨rfl, hinsert⟩
      · cases hphase
    | insert t w' hinsert =>
      cases hw
      exact .inl (if_pos hinsert)
    | begin t | lock t c | granted t c w' | refused t c w' | change t w' | abort t | abortRefused t | rollback t w'
    | logRollback t w' | popBack t w' | commit t | rolledBack t | unlock t id commits | endRecord t commits
    | flushLog t commits => cases hw
  · rw [act_phase_of_ne ht] at hw
    exact .inl hw

namespace Kept

theorem inserting_act (h : s.Kept fd) (hok : s.InsertsApart fd a) (ha : s.Allows fd a)
    (hw : ((s.act fd a).phase t).inserting = some w) : w.isInsert = true ∧
      ⟨t, .IX⟩ ∈ (s.act fd a).locks.lockTable (w.place.tableId fd) ∧
        ∀ q ∈ (s.act fd a).locks.lockTable (w.place.recordId fd), q.txnId = t := by
  rcases inserting_before ha hw with hold | ⟨rfl, hinsert⟩
  · obtain ⟨hinsert, hIX, halone⟩ := h.inserting t w hold
    refine ⟨hinsert, lock_kept h.locks ha hIX (TxnPhase.active_of_inserting hold), fun q hq => ?_⟩
    rcases lock_new h.locks ha hq with hq | ⟨c, rfl, hrequest⟩
    · exact halone q hq
    · by_contra hne
      exact hok t (h.begun t (TxnPhase.active_of_inserting hold)) (fun heq => hne heq.symm) w hold _ hrequest rfl
  · exact ⟨hinsert, ((if_pos hinsert).mp ha.2.1).1, hok hinsert⟩

theorem latch_act (h : s.Kept fd) (ha : s.Allows fd a) (hphase : (s.act fd a).phase t = .writing w)
    (hinsert : w.isInsert = true) : (s.act fd a).hdrLatch w.place.tableName = some t := by
  have hinserting : ((s.act fd a).phase t).inserting = some w := by
    rw [hphase]
    exact if_pos hinsert
  rcases inserting_before ha hinserting with hold | ⟨rfl, -⟩
  · have hwriting : s.phase t = .writing w := by
      rcases TxnPhase.inserting_eq hold with ⟨hwriting, -⟩ | hinserted
      · exact hwriting
      · by_cases ht : t = a.txn
        · subst ht
          have hstep := ha.step
          rw [hinserted, hphase, ha.of_inserted hinserted] at hstep
          cases hstep
        · rwa [act_phase_of_ne ht] at hphase
    have hlatch := h.latch t w hwriting hinsert
    cases a with
    | logWrite t' w' =>
      show (if w'.isInsert then Function.update s.hdrLatch w'.place.tableName (some t') else s.hdrLatch) _ = _
      split
      · rename_i hinsert'
        rw [Function.update_of_ne]
        · exact hlatch
        · intro heq
          have hfree := ((if_pos hinsert').mp ha.2.1).2
          rw [← heq, hlatch] at hfree
          cases hfree
      · exact hlatch
    | write t' w' =>
      show (if w'.isInsert then Function.update s.hdrLatch w'.place.tableName none else s.hdrLatch) _ = _
      split
      · rename_i hinsert'
        rw [Function.update_of_ne]
        · exact hlatch
        · intro heq
          have hlatch' := h.latch t' w' ha hinsert'
          rw [← heq, hlatch] at hlatch'
          obtain rfl : t = t' := Option.some.inj hlatch'
          have hafter : (if w'.isInsert then TxnPhase.inserted w' else .running) = .writing w :=
            (Function.update_self ..).symm.trans hphase
          rw [if_pos hinsert'] at hafter
          cases hafter
      · exact hlatch
    | begin t' | lock t' c | abort t' | rollback t' w' | logRollback t' w' | popBack t' w' | release t' commits
    | unlock t' id | endRecord t' commits | flushLog t' commits => exact hlatch
  · show (if w.isInsert then Function.update s.hdrLatch w.place.tableName (some t) else s.hdrLatch) _ = _
    rw [if_pos hinsert, Function.update_self]

theorem filled_act (h : s.Kept fd) (ha : s.Allows fd a) (hphase : (s.act fd a).phase t = .inserted w) :
    (s.act fd a).rows w.place ≠ none := by
  by_cases ht : t = a.txn
  · subst ht
    have hstep := ha.step
    rw [hphase] at hstep
    generalize s.phase a.txn = p at hstep
    cases hstep with
    | insert t w hinsert =>
      have hrow : (s.act fd (.write t w)).rows w.place = w.change.after := (w.apply_at s.rows).trans (if_pos rfl)
      rw [hrow]
      exact LoggedWrite.after_of_isInsert hinsert
  · rw [act_phase_of_ne ht] at hphase
    have hcurrent : (s.phase t).current = some w := by
      rw [hphase]
      rfl
    rw [h.rows_act ha (active_of_current hcurrent) (h.owns_current hcurrent) ht]
    exact h.filled t w hphase

theorem restored_act (h : s.Kept fd) (ha : s.Allows fd a) (hphase : (s.act fd a).phase t = .undone w) :
    (s.act fd a).rows w.place = w.change.before := by
  by_cases ht : t = a.txn
  · subst ht
    have hstep := ha.step
    rw [hphase] at hstep
    generalize s.phase a.txn = p at hstep
    cases hstep with
    | rollback t w => exact (w.rollback_at s.rows).trans (if_pos rfl)
  · rw [act_phase_of_ne ht] at hphase
    have hcurrent : (s.phase t).current = some w := by
      rw [hphase]
      rfl
    rw [h.rows_act ha (active_of_current hcurrent) (h.owns_current hcurrent) ht]
    exact h.restored t w hphase

theorem granted_act (h : s.Kept fd) (ha : s.Allows fd a) : (s.act fd a).phase t ≠ .refused := by
  intro hphase
  by_cases ht : t = a.txn
  · subst ht
    have hstep := ha.step
    rw [hphase] at hstep
    generalize hbefore : s.phase a.txn = p at hstep
    cases hstep with
    | refused t c w =>
      have hafter : s.afterLock fd t = .refused := (Function.update_self ..).symm.trans hphase
      cases (h.lock_granted hbefore).1.symm.trans hafter
  · rw [act_phase_of_ne ht] at hphase
    exact h.granted t hphase

theorem owned_act (h : s.Kept fd) (ha : s.Allows fd a) (hactive : ((s.act fd a).phase t).Active)
    (hmem : w ∈ (s.act fd a).writeSet t) : (s.act fd a).Owns fd t w.place := by
  rcases active_before ha hactive with hbefore | ⟨hfresh, rfl⟩
  · have hold (hmem : w ∈ s.writeSet t) : (s.act fd a).Owns fd t w.place :=
      h.owns_act ha hbefore (h.owned t hbefore w hmem)
    by_cases ht : t = a.txn
    · subst ht
      cases a with
      | logWrite t w' =>
        replace hmem : w ∈ Function.update s.writeSet t (w' :: s.writeSet t) t := hmem
        rw [Function.update_self] at hmem
        rcases List.mem_cons.mp hmem with rfl | hmem
        · by_cases hinsert : w.isInsert = true
          · refine .inr ⟨w, ?_, rfl⟩
            have hphase : Function.update s.phase t (.writing w) t = .writing w := Function.update_self ..
            exact (congrArg TxnPhase.inserting hphase).trans (if_pos hinsert)
          · exact .inl ((if_neg hinsert).mp ha.2.1)
        · exact hold hmem
      | popBack t w' =>
        replace hmem : w ∈ Function.update s.writeSet t (s.writeSet t).tail t := hmem
        rw [Function.update_self] at hmem
        exact hold (List.mem_of_mem_tail hmem)
      | endRecord t commits =>
        replace hmem : w ∈ Function.update s.writeSet t [] t := hmem
        rw [Function.update_self] at hmem
        cases hmem
      | begin t | lock t c | write t w' | abort t | rollback t w' | logRollback t w' | release t commits
      | unlock t id | flushLog t commits => exact hold hmem
    · rw [act_writeSet_of_ne ht] at hmem
      exact hold hmem
  · have hset : s.writeSet t = [] := h.fresh t hfresh
    have hmem' : w ∈ s.writeSet t := hmem
    rw [hset] at hmem'
    cases hmem'

theorem apart_act (h : s.Kept fd) (hok : s.InsertsApart fd a) (ha : s.Allows fd a) (hx : (s.act fd a).Inserting t x)
    (hx' : (s.act fd a).Inserting t' x) : t = t' := by
  have hother {t t' : TxnId} {w w' : LoggedWrite Int} (hlog : a = .logWrite t w)
      (hw' : (s.phase t').inserting = some w') (hplace : w'.place = w.place) : t' = t := by
    subst hlog
    exact h.eq_of_logWrite hok ha (TxnPhase.active_of_inserting hw') (.inr ⟨w', hw', hplace⟩)
  obtain ⟨w, hw, rfl⟩ := hx
  obtain ⟨w', hw', hplace⟩ := hx'
  rcases inserting_before ha hw with hold | ⟨hlog, -⟩
  · rcases inserting_before ha hw' with hold' | ⟨hlog', -⟩
    · exact h.apart t t' w.place ⟨w, hold, rfl⟩ ⟨w', hold', hplace⟩
    · exact hother hlog' hold hplace.symm
  · rcases inserting_before ha hw' with hold' | ⟨hlog', -⟩
    · exact (hother hlog hold' hplace).symm
    · cases hlog.symm.trans hlog'
      rfl

theorem act (h : s.Kept fd) (hok : s.InsertsApart fd a) (ha : s.Allows fd a) : (s.act fd a).Kept fd where
  locks := locks_inOrder h.locks
  intends _ hphase := h.intends_act ha hphase
  growing _ hphase := h.growing_act ha hphase
  fresh _ hphase := h.fresh_act ha hphase
  begun _ hactive := h.begun_act ha hactive
  current _ _ hw := h.current_act ha hw
  inserting _ _ hw := h.inserting_act hok ha hw
  latch _ _ hphase hinsert := h.latch_act ha hphase hinsert
  filled _ _ hphase := h.filled_act ha hphase
  restored _ _ hphase := h.restored_act ha hphase
  granted _ := h.granted_act ha
  owned _ hactive _ hmem := h.owned_act ha hactive hmem
  apart _ _ _ hx hx' := h.apart_act hok ha hx hx'

/-- In every run. -/
theorem run (h : s.Kept fd) (hok : ∀ s a, ok s a → s.InsertsApart fd a) (hrun : TxnSteps fd ok s s') : s'.Kept fd :=
  hrun.inv h fun s a hs hmay ha => hs.act (hok s a hmay) ha

end Kept

end TxnSystem

end Rmdb
