-- SUMMARY: What keeps the locks of a transaction strict although it releases them before its end record is on disk.
import Rmdb.Transaction.RowHistory

/-!
# Strictness

`commit` and `abort` release the locks first, then they log the end record, and last they flush the log. In between,
another transaction may get a lock that conflicts with one under which the first one wrote. When no transaction asks
for such a lock in that time, and no insert takes a row that it will ask for such a lock on, all is as if the locks had
outlived the end record: after a crash at any point, nothing that is undone lies under a write of a committed
transaction.
-/

namespace Rmdb

open Replay (Entry)

/-- The transaction has come to `release_locks`. -/
def TxnPhase.isLeaving : TxnPhase → Bool
  | releasing _ => true
  | logged _ => true
  | ended _ => true
  | _ => false

namespace TxnSystem

/-- The COMMIT or ABORT record of the transaction is on disk. -/
def EndOnDisk (s : TxnSystem) (tid : Int) : Prop :=
  ∃ r ∈ s.log.take s.onDisk, r.logTid = tid ∧ (r.logType = .commit ∨ r.logType = .abort)

/-- Until the end record of a transaction is on disk, nobody else has a lock that conflicts with one under which it
wrote. -/
def Strict (s : TxnSystem) : Prop :=
  ∀ (t : TxnId) id mode, (id, mode) ∈ s.wroteUnder t → ¬ s.EndOnDisk t →
    ∀ q ∈ s.locks.lockTable id, q.txnId ≠ t → q.lockMode.compatible mode = true

/-- These requests conflict with no lock under which a transaction wrote that has come to `release_locks` and has no
end record on disk. -/
def Spares (s : TxnSystem) (requests : List (LockDataId × LockMode)) : Prop :=
  ∀ t ∈ s.txnMap, (s.phase t).isLeaving = true → ¬ s.EndOnDisk t → ∀ q ∈ s.wroteUnder t, ∀ q' ∈ requests, q'.1 = q.1 →
    q'.2.compatible q.2 = true

/-- A lock that is asked for, and the one that an insert is going to ask for, wait for the end records. -/
def Waits (fd : List UInt8 → Int) (s : TxnSystem) : TxnAction → Prop
  | .lock _ c => s.Spares c.requests
  | .logWrite t w => w.isInsert = true → s.Spares (w.lockCall fd t).requests
  | _ => True

/-- The transaction wrote the row under an X lock on it or on its table. -/
def WroteAt (fd : List UInt8 → Int) (s : TxnSystem) (t : TxnId) (x : Place) : Prop :=
  ((x.recordId fd, .X) ∈ s.wroteUnder t ∧ (x.tableId fd, .IX) ∈ s.wroteUnder t) ∨ (x.tableId fd, .X) ∈ s.wroteUnder t

instance (s : TxnSystem) (tid : Int) : Decidable (s.EndOnDisk tid) :=
  inferInstanceAs (Decidable (∃ r ∈ s.log.take s.onDisk, r.logTid = tid ∧ (r.logType = .commit ∨ r.logType = .abort)))

instance (s : TxnSystem) (requests : List (LockDataId × LockMode)) : Decidable (s.Spares requests) :=
  inferInstanceAs (Decidable (∀ t ∈ s.txnMap, (s.phase t).isLeaving = true → ¬ s.EndOnDisk t → ∀ q ∈ s.wroteUnder t,
    ∀ q' ∈ requests, q'.1 = q.1 → q'.2.compatible q.2 = true))

instance (fd : List UInt8 → Int) (s : TxnSystem) : (a : TxnAction) → Decidable (s.Waits fd a)
  | .lock _ c => inferInstanceAs (Decidable (s.Spares c.requests))
  | .logWrite t w => inferInstanceAs (Decidable (w.isInsert = true → s.Spares (w.lockCall fd t).requests))
  | .begin _ => inferInstanceAs (Decidable True)
  | .write _ _ => inferInstanceAs (Decidable True)
  | .abort _ => inferInstanceAs (Decidable True)
  | .rollback _ _ => inferInstanceAs (Decidable True)
  | .logRollback _ _ => inferInstanceAs (Decidable True)
  | .popBack _ _ => inferInstanceAs (Decidable True)
  | .release _ _ => inferInstanceAs (Decidable True)
  | .unlock _ _ => inferInstanceAs (Decidable True)
  | .endRecord _ _ => inferInstanceAs (Decidable True)
  | .flushLog _ _ => inferInstanceAs (Decidable True)

end TxnSystem

/-- Behind a change of a transaction in flight, no committed transaction has changed the row. -/
def Unclobbered (log : List (LogRecord Int)) (x : Place) : Prop :=
  ∀ front t c rest, entriesAt x log = front ++ .change t c :: rest → InFlight log t = true →
    ∀ t' c', .change t' c' ∈ rest → Committed log t' = false

variable {fd : List UInt8 → Int} {ok : TxnSystem → TxnAction → Prop} {s s' : TxnSystem} {t : TxnId} {a : TxnAction}
  {x : Place} {w : LoggedWrite Int}

-- ---------------------------------------------------------------------------
-- The end records on disk
-- ---------------------------------------------------------------------------

namespace TxnSystem

/-- What is on disk stays there. -/
theorem onDisk_prefix : s.log.take s.onDisk <+: (s.act fd a).log.take (s.act fd a).onDisk := by
  have hle : min s.onDisk s.log.length ≤ (s.act fd a).onDisk := by
    cases a with
    | flushLog t commits => exact Nat.min_le_right ..
    | begin t | lock t c | logWrite t w | write t w | abort t | rollback t w | logRollback t w | popBack t w
    | release t commits | unlock t id | endRecord t commits => exact Nat.min_le_left ..
  rw [List.prefix_take_iff, List.length_take, act_log]
  exact ⟨(List.take_prefix ..).trans (List.prefix_append ..), hle⟩

theorem EndOnDisk.act {tid : Int} (h : s.EndOnDisk tid) : (s.act fd a).EndOnDisk tid := by
  obtain ⟨r, hr, hend⟩ := h
  exact ⟨r, onDisk_prefix.subset hr, hend⟩

/-- Whoever is in flight for the log that a crash leaves has no end record on disk. -/
theorem not_endOnDisk {n : Nat} {tid : Int} (hn : s.onDisk ≤ n) (h : InFlight (s.log.take n) tid = true) :
    ¬ s.EndOnDisk tid := by
  rintro ⟨r, hr, htid, htype⟩
  have hall := List.all_eq_true.mp (Bool.and_eq_true_iff.mp h).2 r ((List.take_prefix_take_left hn).subset hr)
  obtain ⟨hcommit, habort⟩ := of_decide_eq_true hall htid
  exact htype.elim hcommit habort

-- ---------------------------------------------------------------------------
-- The invariant
-- ---------------------------------------------------------------------------

/-- The locks under which a transaction wrote are its own as long as it is active, or its insert is going to ask for
them, and they keep others out until its end record is on disk. Behind its changes of a row there are only its own. -/
structure StrictInv (fd : List UInt8 → Int) (s : TxnSystem) : Prop where
  kept : s.Kept fd
  idle : ∀ t, s.phase t = .fresh ∨ s.phase t = .past → s.wroteUnder t = []
  known : ∀ t, ∀ y ∈ s.wroteUnder t, t ∈ s.txnMap
  held : ∀ t, (s.phase t).Active → ∀ id mode, (id, mode) ∈ s.wroteUnder t → ⟨t, mode⟩ ∈ s.locks.lockTable id ∨
    ∃ w, (s.phase t).inserting = some w ∧ id = w.place.recordId fd ∧ mode = .X
  strict : s.Strict
  wroteAt : ∀ x (tid : Int) c, .change tid c ∈ entriesAt x s.log →
    ∃ t : TxnId, tid = t ∧ s.WroteAt fd t x ∧ ((s.phase t).Active → s.Owns fd t x)
  alone : ∀ x front tid c rest, entriesAt x s.log = front ++ .change tid c :: rest → ¬ s.EndOnDisk tid →
    ∀ tid' c', .change tid' c' ∈ rest → tid' = tid

theorem wroteUnder_act (t : TxnId) : (s.act fd a).wroteUnder t = s.wroteUnder t ∨
    ∃ w, a = .logWrite t w ∧ (s.act fd a).wroteUnder t = s.writeLocks fd t w ++ s.wroteUnder t := by
  cases a with
  | logWrite t' w =>
    by_cases ht : t = t'
    · subst ht
      exact .inr ⟨w, rfl, Function.update_self ..⟩
    · exact .inl (Function.update_of_ne ht ..)
  | begin t' | lock t' c | write t' w | abort t' | rollback t' w | logRollback t' w | popBack t' w | release t' commits
  | unlock t' id | endRecord t' commits | flushLog t' commits => exact .inl rfl

theorem wroteUnder_subset (t : TxnId) : ∀ y ∈ s.wroteUnder t, y ∈ (s.act fd a).wroteUnder t := by
  intro y hy
  rcases @wroteUnder_act fd s a t with heq | ⟨w, -, heq⟩
  · rwa [heq]
  · rw [heq]
    exact List.mem_append_right _ hy

theorem WroteAt.mono (h : s.WroteAt fd t x) (hsub : ∀ y ∈ s.wroteUnder t, y ∈ s'.wroteUnder t) : s'.WroteAt fd t x :=
  h.imp (fun hrecord => ⟨hsub _ hrecord.1, hsub _ hrecord.2⟩) fun htable => hsub _ htable

theorem WroteAt.exists_mem (h : s.WroteAt fd t x) : ∃ y, y ∈ s.wroteUnder t := by
  rcases h with ⟨hrecord, -⟩ | htable
  · exact ⟨_, hrecord⟩
  · exact ⟨_, htable⟩

theorem WroteAt.logWrite : (s.act fd (.logWrite t w)).WroteAt fd t w.place := by
  have hunder : ∀ y ∈ s.writeLocks fd t w, y ∈ (s.act fd (.logWrite t w)).wroteUnder t := by
    intro y hy
    show y ∈ Function.update s.wroteUnder t _ t
    rw [Function.update_self]
    exact List.mem_append_left _ hy
  unfold writeLocks at hunder
  split at hunder
  · exact .inl ⟨hunder _ (by simp), hunder _ (by simp)⟩
  · exact .inr (hunder _ (by simp))

theorem change_act {tid : Int} {c : Replay.Change RmRecord}
    (hmem : .change tid c ∈ (a.call.bind (·.entryAt x)).toList) :
    ∃ t w, a = .logWrite t w ∧ w.place = x ∧ tid = t := by
  cases a with
  | logWrite t w =>
    have hentry : (if w.place = x then some (Entry.change (t : Int) w.change) else none) = some (.change tid c) :=
      Option.mem_toList.mp hmem
    split at hentry
    · rename_i hx
      cases hentry
      exact ⟨t, w, rfl, hx, rfl⟩
    · cases hentry
  | logRollback t w =>
    have hentry : (if w.place = x then some (Entry.back (t : Int) w.change) else none) = some (.change tid c) :=
      Option.mem_toList.mp hmem
    split at hentry
    · cases hentry
    · cases hentry
  | endRecord t commits => cases commits <;> cases hmem
  | begin t | lock t c | write t w | abort t | rollback t w | popBack t w | release t commits | unlock t id
  | flushLog t commits => cases hmem

namespace StrictInv

theorem restart : (restart []).StrictInv fd where
  kept := .restart []
  idle _ _ := rfl
  known _ _ hy := by cases hy
  held _ _ _ _ hmem := by cases hmem
  strict _ _ _ hmem := by cases hmem
  wroteAt _ _ _ hmem := by cases hmem
  alone _ front _ _ _ hes := by cases front <;> cases hes

/-- Whoever has written and is not active has come to `release_locks`. -/
theorem leaving (h : s.StrictInv fd) {y : LockDataId × LockMode} (hy : y ∈ s.wroteUnder t)
    (hactive : ¬ (s.phase t).Active) : (s.phase t).isLeaving = true := by
  have hidle := h.idle t
  cases hphase : s.phase t with
  | fresh | past =>
    rw [hidle (by simp [hphase])] at hy
    cases hy
  | running | writing w | inserted w | refused =>
    rw [hphase] at hactive
    exact absurd (.inl trivial) hactive
  | aborting | undone w | compensated w =>
    rw [hphase] at hactive
    exact absurd (.inr trivial) hactive
  | releasing commits | logged commits | ended commits => rfl

/-- Before a transaction has its end record on disk, nobody else writes its rows. -/
theorem not_logWrite (h : s.StrictInv fd) {t' : TxnId} (hok : s.InsertsApart fd (.logWrite t' w))
    (hwaits : s.Waits fd (.logWrite t' w)) (ha : s.Allows fd (.logWrite t' w)) (hwrote : s.WroteAt fd t w.place)
    (howns : (s.phase t).Active → s.Owns fd t w.place) (hend : ¬ s.EndOnDisk t) : t = t' := by
  by_cases hactive : (s.phase t).Active
  · exact h.kept.eq_of_logWrite hok ha hactive (howns hactive)
  by_contra hne
  obtain ⟨y, hy⟩ := hwrote.exists_mem
  by_cases hinsert : w.isInsert = true
  · have hspares := hwaits hinsert t (h.known t y hy) (h.leaving hy hactive) hend
    rcases hwrote with ⟨hrecord, -⟩ | htable
    · exact Bool.false_ne_true (hspares _ hrecord (w.place.recordId fd, .X) (by
        show _ ∈ [(LockDataId.table _, LockMode.IX), (LockDataId.record _ _, .X)]
        exact List.mem_cons_of_mem _ List.mem_cons_self) rfl)
    · exact Bool.false_ne_true (hspares _ htable (w.place.tableId fd, .IX) List.mem_cons_self rfl)
  · have hx : s.HoldsX fd t' w.place := (if_neg hinsert).mp ha.2.1
    have hintends : s.locks.lockTable.Intends t' := by
      refine h.kept.intends t' (.inr ?_)
      rw [ha.1]
      exact .inl trivial
    have hcompatible : ∀ {id mode mode'}, (id, mode) ∈ s.wroteUnder t → ⟨t', mode'⟩ ∈ s.locks.lockTable id →
        mode'.compatible mode = true := fun hunder hq => h.strict t _ _ hunder hend _ hq fun heq => hne heq.symm
    rcases hx with hrecord | htable
    · rcases hwrote with ⟨hrecord', -⟩ | htable'
      · exact Bool.false_ne_true (hcompatible hrecord' hrecord)
      · exact Bool.false_ne_true (hcompatible htable' (hintends _ _ hrecord))
    · rcases hwrote with ⟨-, htable'⟩ | htable'
      · exact Bool.false_ne_true (hcompatible htable' htable)
      · exact Bool.false_ne_true (hcompatible htable' htable)

theorem idle_act (h : s.StrictInv fd) (ha : s.Allows fd a)
    (hphase : (s.act fd a).phase t = .fresh ∨ (s.act fd a).phase t = .past) : (s.act fd a).wroteUnder t = [] := by
  have hne : t ≠ a.txn := by
    rintro rfl
    have hstep := ha.step
    rcases hphase with hphase | hphase
    · exact hstep.ne_fresh hphase
    · rw [hphase] at hstep
      generalize s.phase a.txn = p at hstep
      cases hstep
  rw [act_phase_of_ne hne] at hphase
  rcases @wroteUnder_act fd s a t with heq | ⟨w, rfl, -⟩
  · exact heq.trans (h.idle t hphase)
  · exact absurd rfl hne

theorem known_act (h : s.StrictInv fd) (ha : s.Allows fd a) :
    ∀ y ∈ (s.act fd a).wroteUnder t, t ∈ (s.act fd a).txnMap := by
  intro y hy
  rcases @wroteUnder_act fd s a t with heq | ⟨w, rfl, -⟩
  · rw [heq] at hy
    have hold := h.known t y hy
    cases a with
    | begin t' => exact List.mem_cons_of_mem t' hold
    | lock t' c | logWrite t' w | write t' w | abort t' | rollback t' w | logRollback t' w | popBack t' w
    | release t' commits | unlock t' id | endRecord t' commits | flushLog t' commits => exact hold
  · refine h.kept.begun t (.inl ?_)
    rw [ha.1]
    trivial

theorem held_act (h : s.StrictInv fd) (ha : s.Allows fd a) (hactive : ((s.act fd a).phase t).Active)
    {id : LockDataId} {mode : LockMode} (hmem : (id, mode) ∈ (s.act fd a).wroteUnder t) :
    ⟨t, mode⟩ ∈ (s.act fd a).locks.lockTable id ∨
      ∃ w, ((s.act fd a).phase t).inserting = some w ∧ id = w.place.recordId fd ∧ mode = .X := by
  have hold (hmem : (id, mode) ∈ s.wroteUnder t) : ⟨t, mode⟩ ∈ (s.act fd a).locks.lockTable id ∨
      ∃ w, ((s.act fd a).phase t).inserting = some w ∧ id = w.place.recordId fd ∧ mode = .X := by
    rcases active_before ha hactive with hbefore | ⟨hfresh, -⟩
    · rcases h.held t hbefore id mode hmem with hq | ⟨w, hw, rfl, rfl⟩
      · exact .inl (lock_kept h.kept.locks ha hq hbefore)
      · exact (h.kept.inserting_next ha hw).symm.imp_right fun hnext => ⟨w, hnext, rfl, rfl⟩
    · rw [h.idle t (.inl hfresh)] at hmem
      cases hmem
  rcases @wroteUnder_act fd s a t with heq | ⟨w, rfl, heq⟩
  · rw [heq] at hmem
    exact hold hmem
  · rw [heq] at hmem
    rcases List.mem_append.mp hmem with hnew | hmem
    · have hafter : (s.act fd (.logWrite t w)).phase t = .writing w := Function.update_self ..
      by_cases hinsert : w.isInsert = true
      · rw [writeLocks, if_pos (.inl hinsert)] at hnew
        rcases List.mem_cons.mp hnew with hrecord | htable
        · cases hrecord
          right
          refine ⟨w, ?_, rfl, rfl⟩
          rw [hafter]
          exact if_pos hinsert
        · cases List.mem_singleton.mp htable
          exact .inl ((if_pos hinsert).mp ha.2.1).1
      · have hx : s.HoldsX fd t w.place := (if_neg hinsert).mp ha.2.1
        left
        unfold writeLocks at hnew
        split at hnew
        · rename_i hor
          have hrecord := hor.resolve_left hinsert
          rcases List.mem_cons.mp hnew with heq | hnew
          · cases heq
            exact hrecord
          · cases List.mem_singleton.mp hnew
            refine h.kept.intends t (.inr ?_) _ _ hrecord
            rw [ha.1]
            exact .inl trivial
        · rename_i hor
          cases List.mem_singleton.mp hnew
          exact hx.resolve_left fun hrecord => hor (.inr hrecord)
    · exact hold hmem

theorem strict_act (h : s.StrictInv fd) (hok : s.InsertsApart fd a) (hwaits : s.Waits fd a) (ha : s.Allows fd a) :
    (s.act fd a).Strict := by
  intro t id mode hmem hend q hq hne
  have hkept := h.kept.act hok ha
  have hend' : ¬ s.EndOnDisk t := fun hend' => hend hend'.act
  by_cases hactive : ((s.act fd a).phase t).Active
  · rcases h.held_act ha hactive hmem with hlock | ⟨w, hw, rfl, rfl⟩
    · exact hkept.locks.ok.compatible id q hq _ hlock hne
    · exact absurd ((hkept.inserting t w hw).2.2 q hq) hne
  · have hold : (id, mode) ∈ s.wroteUnder t := by
      rcases @wroteUnder_act fd s a t with heq | ⟨w, rfl, -⟩
      · rwa [heq] at hmem
      · refine absurd ?_ hactive
        rw [show (s.act fd (.logWrite t w)).phase t = .writing w from Function.update_self ..]
        exact .inl trivial
    rcases lock_new h.kept.locks ha hq with hq | ⟨c, rfl, hnew⟩
    · exact h.strict t id mode hold hend' q hq hne
    · rw [act_phase_of_ne (a := .lock q.txnId c) hne.symm] at hactive
      exact hwaits t (h.known t _ hold) (h.leaving hold hactive) hend' _ hold _ hnew rfl

theorem wroteAt_act (h : s.StrictInv fd) (ha : s.Allows fd a) {tid : Int} {c : Replay.Change RmRecord}
    (hmem : .change tid c ∈ entriesAt x (s.act fd a).log) :
    ∃ t : TxnId, tid = t ∧ (s.act fd a).WroteAt fd t x ∧
      (((s.act fd a).phase t).Active → (s.act fd a).Owns fd t x) := by
  rw [act_entriesAt] at hmem
  rcases List.mem_append.mp hmem with hold | hnew
  · obtain ⟨t, ht, hwrote, howns⟩ := h.wroteAt x tid c hold
    refine ⟨t, ht, hwrote.mono (wroteUnder_subset t), fun hactive => ?_⟩
    rcases active_before ha hactive with hbefore | ⟨hfresh, -⟩
    · exact h.kept.owns_act ha hbefore (howns hbefore)
    · obtain ⟨y, hy⟩ := hwrote.exists_mem
      rw [h.idle t (.inl hfresh)] at hy
      cases hy
  · obtain ⟨t, w, rfl, rfl, ht⟩ := change_act hnew
    refine ⟨t, ht, .logWrite, fun hactive => h.kept.owned_act ha hactive ?_⟩
    show w ∈ Function.update s.writeSet t (w :: s.writeSet t) t
    rw [Function.update_self]
    exact List.mem_cons_self

theorem alone_act (h : s.StrictInv fd) (hok : s.InsertsApart fd a) (hwaits : s.Waits fd a) (ha : s.Allows fd a)
    {front rest : List (Entry Int RmRecord)} {tid : Int} {c : Replay.Change RmRecord}
    (hes : entriesAt x (s.act fd a).log = front ++ .change tid c :: rest) (hend : ¬ (s.act fd a).EndOnDisk tid) :
    ∀ tid' c', .change tid' c' ∈ rest → tid' = tid := by
  have hend' : ¬ s.EndOnDisk tid := fun hend' => hend hend'.act
  rw [act_entriesAt] at hes
  intro tid' c' hmem
  -- The change is new, or it was there before.
  cases hentry : a.call.bind (·.entryAt x) with
  | none =>
    rw [hentry] at hes
    exact h.alone x front tid c rest ((List.append_nil _).symm.trans hes) hend' tid' c' hmem
  | some e =>
    rw [hentry] at hes
    rcases List.eq_nil_or_concat' rest with rfl | ⟨rest, e', rfl⟩
    · cases hmem
    · have hsplit : entriesAt x s.log ++ [e] = (front ++ .change tid c :: rest) ++ [e'] := by simpa using hes
      obtain ⟨hold, hlast⟩ := List.append_inj' hsplit rfl
      cases hlast
      rcases List.mem_append.mp hmem with hmem | hmem
      · exact h.alone x front tid c rest hold hend' tid' c' hmem
      · cases List.mem_singleton.mp hmem
        obtain ⟨t', w, rfl, rfl, rfl⟩ := change_act (Option.mem_toList.mpr hentry)
        obtain ⟨t, rfl, hwrote, howns⟩ := h.wroteAt w.place tid c (by rw [hold]; simp)
        rw [h.not_logWrite hok hwaits ha hwrote howns hend']

theorem act (h : s.StrictInv fd) (hok : s.InsertsApart fd a) (hwaits : s.Waits fd a) (ha : s.Allows fd a) :
    (s.act fd a).StrictInv fd where
  kept := h.kept.act hok ha
  idle _ hphase := h.idle_act ha hphase
  known _ := h.known_act ha
  held _ hactive _ _ hmem := h.held_act ha hactive hmem
  strict := h.strict_act hok hwaits ha
  wroteAt _ _ _ hmem := h.wroteAt_act ha hmem
  alone _ _ _ _ _ hes hend := h.alone_act hok hwaits ha hes hend

end StrictInv

end TxnSystem

/-- A crash at any point leaves a log in which no committed transaction has changed a row behind one in flight. -/
theorem TxnSystem.StrictInv.unclobbered (h : s.StrictInv fd) (hfirst : BeginsFirst s.log) {n : Nat}
    (hn : s.onDisk ≤ n) : Unclobbered (s.log.take n) x := by
  intro front t c rest hes hflight t' c' hmem
  have hfirst' : BeginsFirst (s.log.take n) := hfirst.sublist (List.take_sublist ..)
  have hprefix : entriesAt x (s.log.take n) ++ entriesAt x (s.log.drop n) = entriesAt x s.log := by
    rw [← entriesAt_append, List.take_append_drop]
  rw [hes, List.append_assoc, List.cons_append] at hprefix
  have hsame := h.alone x front t c _ hprefix.symm (TxnSystem.not_endOnDisk hn hflight) t' c'
    (List.mem_append_left _ hmem)
  rw [← lost_eq hfirst'] at hflight
  exact hsame ▸ not_committed_of_lost hfirst' hflight

/-- In every run in which inserts are apart, and in which no transaction asks for a lock, and no insert will, that
conflicts with one under which a transaction wrote that has come to `release_locks` and has no end record on disk, all
states are strict. A crash at any point leaves a log in which no committed transaction has changed a row behind a
transaction that recovery undoes. -/
theorem strict_of_waits (hrun : TxnSteps fd (fun s a => s.InsertsApart fd a ∧ s.Waits fd a) (.restart []) s) :
    s.Strict ∧ ∀ n, s.onDisk ≤ n → ∀ x, Unclobbered (s.log.take n) x := by
  have hinv : s.StrictInv fd := hrun.inv .restart fun _ _ hs hok ha => hs.act hok.1 hok.2 ha
  have hlogs := ((@TxnSystem.Sound.restart fd _ List.Pairwise.nil).run (fun _ _ hok => hok.1) hrun).logs
  exact ⟨hinv.strict, fun n hn x => hinv.unclobbered hlogs.beginsFirst hn⟩

/-- A transaction inserts a row and commits, and the next one gets a lock on the row when the end record is on disk. -/
def insertThenUpdate : List TxnAction :=
  [.begin 1, .lock 1 (.ixOnTable 1 3), .logWrite 1 (insertAtFirst [7]), .write 1 (insertAtFirst [7]),
    .lock 1 (.exclusiveOnRecord 1 ⟨1, 0⟩ 3), .release 1 true, .unlock 1 (.record 3 ⟨1, 0⟩), .begin 2,
    .unlock 1 (.table 3), .endRecord 1 true, .flushLog 1 true, .lock 2 (.exclusiveOnRecord 2 ⟨1, 0⟩ 3),
    .logWrite 2 (.update [7] [8] ⟨1, 0⟩ [116]), .write 2 (.update [7] [8] ⟨1, 0⟩ [116])]

theorem strict_of_waits_update : ∃ s : TxnSystem, s.phase 2 = .running ∧
    ⟨2, .X⟩ ∈ s.locks.lockTable (.record 3 ⟨1, 0⟩) ∧ s.Strict ∧ ∀ n, s.onDisk ≤ n → ∀ x, Unclobbered (s.log.take n) x := by
  have hrun : TxnSteps oneTable (fun s a => s.InsertsApart oneTable a ∧ s.Waits oneTable a) (.restart [])
      ((TxnSystem.restart []).actAll oneTable insertThenUpdate) := .of_actions (by decide)
  exact ⟨_, by decide, by decide, strict_of_waits hrun⟩

end Rmdb
