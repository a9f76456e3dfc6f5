-- SUMMARY: What the log says of each transaction and of each row, in every state of the system.
import Rmdb.Transaction.RowOwners

/-!
# The log and the rows

The log of a row is a sequence of blocks, one for each transaction that is done with the row, and behind them is what
the transaction at work has written: nobody else owns the row until it releases its locks. The row in the table is the
one that the log tells of, but for a write that is logged and not done yet, and for one that is taken back without a
compensation record yet. Recovery of such a log is the matter of `Replay.Tells`.
-/

namespace Rmdb

open Replay (Change Entry Block Work Tells)

variable {fd : List UInt8 → Int} {ok : TxnSystem → TxnAction → Prop} {s s' : TxnSystem} {t : TxnId} {a : TxnAction}
  {x : Place} {w : LoggedWrite Int}

-- ---------------------------------------------------------------------------
-- The log of a transaction
-- ---------------------------------------------------------------------------

section

variable {logs : List (LogRecord Int)} {call : GenLog Int} {lsn prevLsn tid : Int} {p p' : TxnPhase}

theorem lost_append : Lost (logs ++ [call.record lsn prevLsn]) tid = if call.tid = tid then
      match call with
      | .begin _ => true
      | .commit _ => false
      | .abort _ => false
      | _ => Lost logs tid
    else Lost logs tid := by
  have hstep : Lost (logs ++ [call.record lsn prevLsn]) tid =
      ((RecoveryManager.analyze.redo logs).redoLog (call.record lsn prevLsn)).undoList tid := by
    rw [Lost, RecoveryManager.redo, List.foldl_append]
    rfl
  rw [hstep, RecoveryManager.redoLog_undoList, GenLog.record_logTid]
  cases call with
  | begin tid' | commit tid' | abort tid' => rfl
  | fromWriteSet tid' w | clr tid' w => cases w <;> rfl

theorem committed_append :
    Committed (logs ++ [call.record lsn prevLsn]) tid = true ↔ Committed logs tid = true ∨ call = .commit tid := by
  unfold Committed
  rw [List.any_append, Bool.or_eq_true]
  refine or_congr_right ?_
  cases call with
  | begin tid' | commit tid' | abort tid' => simp [GenLog.record, LogRecord.beginLogRecord, LogRecord.commitLogRecord,
      LogRecord.abortLogRecord, LogRecord.headerOnly]
  | fromWriteSet tid' w | clr tid' w =>
    cases w <;> simp [GenLog.record, LogRecord.insertLogRecord, LogRecord.deleteLogRecord, LogRecord.updateLogRecord,
      LogRecord.oneImage, LogRecord.setCLR, LogType.setCLR]

/-- Records of other transactions say nothing about this one. -/
theorem lost_append_of_ne (h : call.tid ≠ tid) : Lost (logs ++ [call.record lsn prevLsn]) tid = Lost logs tid := by
  rw [lost_append, if_neg h]

theorem committed_append_of_ne (h : call.tid ≠ tid) :
    Committed (logs ++ [call.record lsn prevLsn]) tid = Committed logs tid := by
  rw [Bool.eq_iff_iff, committed_append]
  refine or_iff_left ?_
  rintro rfl
  exact h rfl

theorem not_committed_of_lost (h : BeginsFirst logs) (hlost : Lost logs tid = true) : Committed logs tid = false := by
  obtain ⟨-, hend⟩ := (lost_iff h).mp hlost
  refine List.any_eq_false.mpr fun r hr htype => ?_
  obtain ⟨htype, htid⟩ := of_decide_eq_true htype
  exact (hend r hr htid).1 htype

/-- What the log says of a transaction in a phase. -/
def TxnPhase.Logs (logs : List (LogRecord Int)) (tid : Int) : TxnPhase → Prop
  | fresh => ∀ r ∈ logs, r.logTid ≠ tid
  | logged commits => Lost logs tid = false ∧ Committed logs tid = commits
  | ended commits => Lost logs tid = false ∧ Committed logs tid = commits
  | past => True
  | _ => Lost logs tid = true

namespace TxnPhase

theorem Logs.other (h : p.Logs logs tid) (hne : call.tid ≠ tid) : p.Logs (logs ++ [call.record lsn prevLsn]) tid := by
  cases p with
  | fresh =>
    refine List.forall_mem_append.mpr ⟨h, List.forall_mem_singleton.mpr ?_⟩
    rwa [GenLog.record_logTid]
  | running | writing w | inserted w | refused | aborting | undone w | compensated w | releasing commits =>
    exact (lost_append_of_ne hne).trans h
  | logged commits | ended commits =>
    exact ⟨(lost_append_of_ne hne).trans h.1, (committed_append_of_ne hne).trans h.2⟩
  | past => trivial

theorem Logs.step (hstep : Step p a p') (hfirst : BeginsFirst logs) (h : p.Logs logs a.txn) (lsn prevLsn : Int) :
    p'.Logs (logs ++ (a.call.map fun call => call.record lsn prevLsn).toList) a.txn := by
  have hnone : ∀ {p : TxnPhase} {tid : Int}, p.Logs logs tid → p.Logs (logs ++ []) tid :=
    fun hp => (List.append_nil logs).symm ▸ hp
  cases hstep with
  | begin t => exact lost_append.trans (if_pos rfl)
  | logWrite t w | logRollback t w => exact lost_append.trans ((if_pos rfl).trans h)
  | lock t c | granted t c w | refused t c w | insert t w | change t w | abort t | abortRefused t | rollback t w
  | popBack t w | commit t | rolledBack t | unlock t id commits => exact hnone (p := .running) h
  | flushLog t commits => exact hnone (p := .logged commits) h
  | endRecord t commits =>
    cases commits with
    | true => exact ⟨lost_append.trans (if_pos rfl), committed_append.mpr (.inr rfl)⟩
    | false =>
      refine ⟨lost_append.trans (if_pos rfl), ?_⟩
      have hno : Committed logs t = false := not_committed_of_lost hfirst h
      rw [← Bool.not_eq_true] at hno ⊢
      exact fun hyes => hno ((committed_append.mp hyes).resolve_right (by simp))

end TxnPhase

end

/-- What the log says of the transactions. -/
structure TxnSystem.Logs (s : TxnSystem) : Prop where
  beginsFirst : BeginsFirst s.log
  logs : ∀ t : TxnId, (s.phase t).Logs s.log t

theorem TxnSystem.Logs.act (h : s.Logs) (ha : s.Allows fd a) : (s.act fd a).Logs := by
  constructor
  · rw [act_log]
    cases hcall : a.call with
    | none => exact (List.append_nil s.log).symm ▸ h.beginsFirst
    | some call =>
      refine List.pairwise_append.mpr ⟨h.beginsFirst, List.pairwise_singleton .., fun r hr r' hr' htype => ?_⟩
      rw [List.mem_singleton.mp hr'] at htype ⊢
      rw [GenLog.record_logTid, TxnAction.tid_of_call hcall]
      -- Only a BEGIN record is of this type, and its transaction is fresh.
      cases a with
      | begin t =>
        have hfresh : s.phase t = .fresh := ha
        have hlogs := h.logs t
        rw [hfresh] at hlogs
        exact (hlogs r hr).symm
      | logWrite t w | logRollback t w =>
        cases hcall
        cases w <;> cases htype
      | endRecord t commits =>
        cases hcall
        cases commits <;> cases htype
      | lock t c | write t w | abort t | rollback t w | popBack t w | release t commits | unlock t id
      | flushLog t commits => cases hcall
  · intro t
    by_cases ht : t = a.txn
    · subst ht
      rw [act_log]
      have hstep := (h.logs a.txn).step ha.step h.beginsFirst s.globalLsn (s.soFarLsn a.txn)
      cases hcall : a.call with
      | none =>
        rw [hcall] at hstep
        exact hstep
      | some call =>
        rw [hcall] at hstep
        simpa only [Option.map_some, TxnAction.tid_of_call hcall] using hstep
    · rw [act_phase_of_ne ht, act_log]
      cases hcall : a.call with
      | none => exact (List.append_nil s.log).symm ▸ h.logs t
      | some call =>
        refine (h.logs t).other ?_
        rw [TxnAction.tid_of_call hcall]
        exact fun heq => ht (Int.ofNat_inj.mp heq).symm

-- ---------------------------------------------------------------------------
-- The log of a row
-- ---------------------------------------------------------------------------

namespace TxnPhase

variable {p p' : TxnPhase} {commits : Bool}

/-- What a finished transaction did is undone, or else the log has its end record. -/
theorem Finished.committed {logs : List (LogRecord Int)} (h : p.Finished commits) (hlogs : p.Logs logs t)
    (hlost : Lost logs t = false) : Committed logs t = commits := by
  rcases h with rfl | rfl | rfl
  · exact absurd (hlost.symm.trans hlogs) Bool.false_ne_true
  · exact hlogs.2
  · exact hlogs.2

theorem Active.lost {logs : List (LogRecord Int)} (h : p.Active) (hlogs : p.Logs logs t) : Lost logs t = true := by
  cases p with
  | running | writing w | inserted w | refused | aborting | undone w | compensated w => exact hlogs
  | fresh | releasing commits | logged commits | ended commits | past => exact h.elim False.elim False.elim

/-- A transaction does not go forward again. -/
theorem Step.direction {Q : Prop} (h : Step p a p') (hactive : p'.Active) (hp : (p.Forward ∧ Q) ∨ p.Back) :
    (p'.Forward ∧ Q) ∨ p'.Back := by
  cases h with
  | begin t => exact hp.elim (fun hforward => hforward.1.elim) False.elim
  | lock t c | granted t c w | refused t c w | logWrite t w | insert t w | change t w =>
    exact .inl ⟨trivial, (hp.resolve_right id).2⟩
  | abort t | abortRefused t | rollback t w | logRollback t w | popBack t w => exact .inr trivial
  | commit t | rolledBack t | unlock t id commits | endRecord t commits | flushLog t commits =>
    exact hactive.elim False.elim False.elim

/-- Only `release_locks` ends the work of a transaction. -/
theorem Step.stays (h : Step p a p') (hp : p.Active) (hne : ∀ t commits, a ≠ .release t commits) : p'.Active := by
  cases h with
  | begin t | lock t c | granted t c w | refused t c w | logWrite t w | insert t w | change t w => exact .inl trivial
  | abort t | abortRefused t | rollback t w | logRollback t w | popBack t w => exact .inr trivial
  | commit t => exact absurd rfl (hne t true)
  | rolledBack t => exact absurd rfl (hne t false)
  | unlock t id commits | endRecord t commits | flushLog t commits => exact hp.elim False.elim False.elim

/-- The writes of the write set that the log has no compensation record of. -/
def standing (ws : List (LoggedWrite Int)) : TxnPhase → List (LoggedWrite Int)
  | compensated _ => ws.tail
  | releasing _ => []
  | logged _ => []
  | ended _ => []
  | _ => ws

/-- The write that the log has and the table has not. -/
def pending : TxnPhase → Option (LoggedWrite Int)
  | writing w => some w
  | undone w => some w
  | _ => none

theorem current_of_pending (h : p.pending = some w) : p.current = some w := by
  cases p with
  | writing w' | undone w' => exact h
  | fresh | running | inserted w' | refused | aborting | compensated w' | releasing commits | logged commits
  | ended commits | past => cases h

end TxnPhase

namespace TxnSystem

def standing (s : TxnSystem) (t : TxnId) : List (LoggedWrite Int) := (s.phase t).standing (s.writeSet t)

/-- The value of a row that the log tells of. -/
structure Shows (s : TxnSystem) (x : Place) (v : Option RmRecord) : Prop where
  pending : ∀ t w, (s.phase t).pending = some w → w.place = x → v = w.change.after
  settled : (∀ t w, (s.phase t).pending = some w → w.place ≠ x) → s.rows x = v

/-- A transaction at work on a row: it owns the row, and its write set has the changes that stand. -/
structure Writes (fd : List UInt8 → Int) (s : TxnSystem) (x : Place) (t : TxnId) (w : Work Int RmRecord) : Prop where
  writer : w.writer = t
  phase : ((s.phase t).Forward ∧ w.taken = []) ∨ (s.phase t).Back
  owns : s.Owns fd t x
  standing : changesAt x (s.standing t) = w.standing.reverse

/-- The log of a row that had the entries `es₀` and the value `v₀` at first. -/
structure Row (fd : List UInt8 → Int) (es₀ : List (Entry Int RmRecord)) (v₀ : Option RmRecord)
    (s : TxnSystem) (x : Place) (bs : List (Block Int RmRecord)) (work : Option (Work Int RmRecord)) : Prop where
  tells : ∃ es v, entriesAt x s.log = es₀ ++ es ∧ Tells v₀ bs work es v ∧ s.Shows x v
  done : ∀ b ∈ bs, ∃ t : TxnId, b.writer = t ∧ (s.phase t).Finished (!b.takenBack)
  writes : ∀ w, work = some w → ∃ t, s.Writes fd x t w
  others : ∀ t : TxnId, (∀ w, work = some w → w.writer ≠ t) → changesAt x (s.standing t) = []

end TxnSystem

/-- What finished transactions have left of a row, behind an action. -/
def TxnAction.leaves (s : TxnSystem) (x : Place) (v : Option RmRecord) : TxnAction → Option RmRecord
  | .release t true => Replay.result v (changesAt x (s.writeSet t)).reverse
  | _ => v

namespace TxnSystem

theorem Writes.active {work : Work Int RmRecord} (h : s.Writes fd x t work) : (s.phase t).Active :=
  h.phase.imp_left And.left

theorem act_standing_of_ne (h : t ≠ a.txn) : (s.act fd a).standing t = s.standing t := by
  rw [standing, standing, act_phase_of_ne h, act_writeSet_of_ne h]

theorem Shows.act {v : Option RmRecord} (h : s.Shows x v) (hrows : (s.act fd a).rows x = s.rows x)
    (hpending : ∀ w, w.place = x →
      (((s.act fd a).phase a.txn).pending = some w ↔ (s.phase a.txn).pending = some w)) : (s.act fd a).Shows x v := by
  have hsame : ∀ t w, w.place = x → (((s.act fd a).phase t).pending = some w ↔ (s.phase t).pending = some w) := by
    intro t w hx
    by_cases ht : t = a.txn
    · subst ht
      exact hpending w hx
    · rw [act_phase_of_ne ht]
  refine ⟨fun t w hw hx => h.pending t w ((hsame t w hx).mp hw) hx, fun hno => ?_⟩
  rw [hrows]
  exact h.settled fun t w hw hx => hno t w ((hsame t w hx).mpr hw) hx

theorem act_active (ha : s.Allows fd a) (hne : ∀ t commits, a ≠ .release t commits) (h : (s.phase t).Active) :
    ((s.act fd a).phase t).Active := by
  by_cases ht : t = a.txn
  · subst ht
    exact ha.step.stays h hne
  · rwa [act_phase_of_ne ht]

theorem act_standing (ha : s.Allows fd a) (hwrite : ∀ t w, a ≠ .logWrite t w) (hback : ∀ t w, a ≠ .logRollback t w)
    (hrelease : ∀ t commits, a ≠ .release t commits) : (s.act fd a).standing a.txn = s.standing a.txn := by
  have hstep := ha.step
  unfold standing
  generalize s.phase a.txn = p at hstep ⊢
  generalize (s.act fd a).phase a.txn = p' at hstep ⊢
  cases hstep with
  | logWrite t w => exact absurd rfl (hwrite t w)
  | logRollback t w => exact absurd rfl (hback t w)
  | commit t => exact absurd rfl (hrelease t true)
  | rolledBack t => exact absurd rfl (hrelease t false)
  | popBack t w => exact Function.update_self t (s.writeSet t).tail s.writeSet
  | begin t | lock t c | granted t c w | refused t c w | insert t w | change t w | abort t | abortRefused t
  | rollback t w | unlock t id commits | endRecord t commits | flushLog t commits => rfl

theorem act_pending (ha : s.Allows fd a) (hlog : ∀ t w, a ≠ .logWrite t w) (hwrite : ∀ t w, a ≠ .write t w)
    (hrollback : ∀ t w, a ≠ .rollback t w) (hback : ∀ t w, a ≠ .logRollback t w) :
    ((s.act fd a).phase a.txn).pending = (s.phase a.txn).pending := by
  have hstep := ha.step
  generalize s.phase a.txn = p at hstep ⊢
  generalize (s.act fd a).phase a.txn = p' at hstep ⊢
  cases hstep with
  | logWrite t w => exact absurd rfl (hlog t w)
  | insert t w | change t w => exact absurd rfl (hwrite t w)
  | rollback t w => exact absurd rfl (hrollback t w)
  | logRollback t w => exact absurd rfl (hback t w)
  | begin t | lock t c | granted t c w | refused t c w | abort t | abortRefused t | popBack t w | commit t
  | rolledBack t | unlock t id commits | endRecord t commits | flushLog t commits => rfl

/-- The phases of a transaction around an action in which only the write `w` is pending. -/
theorem pending_of_ne (hne : w.place ≠ x) {p p' : TxnPhase} (hp : p.pending = none ∨ p.pending = some w)
    (hp' : p'.pending = none ∨ p'.pending = some w) (w' : LoggedWrite Int) (hx : w'.place = x) :
    p'.pending = some w' ↔ p.pending = some w' := by
  have hnot : ∀ {p : TxnPhase}, (p.pending = none ∨ p.pending = some w) → p.pending ≠ some w' := by
    rintro p (hp | hp) hw'
    · cases hp.symm.trans hw'
    · cases hp.symm.trans hw'
      exact hne hx
  exact iff_of_false (hnot hp') (hnot hp)

/-- The row is written that the log has already. -/
theorem Shows.write {v : Option RmRecord} (hshows : s.Shows x v) (ha : s.Allows fd (.write t w)) (hx : w.place = x) :
    (s.act fd (.write t w)).Shows x v := by
  have hphase : s.phase t = .writing w := ha
  have hv : v = w.change.after := hshows.pending t w (by rw [hphase]; rfl) hx
  have hafter : ((s.act fd (.write t w)).phase t).pending = none := by
    have hupdate : (s.act fd (.write t w)).phase t = if w.isInsert then .inserted w else .running :=
      Function.update_self ..
    rw [hupdate]
    split
    · rfl
    · rfl
  refine ⟨fun t' w' hw' hx' => ?_, fun _ => ?_⟩
  · by_cases ht' : t' = t
    · subst ht'
      cases hafter.symm.trans hw'
    · rw [act_phase_of_ne (a := .write t w) ht'] at hw'
      exact hshows.pending t' w' hw' hx'
  · rw [hv]
    exact (w.apply_at s.rows).trans (if_pos hx)

namespace Row

variable {es₀ : List (Entry Int RmRecord)} {v₀ : Option RmRecord} {bs : List (Block Int RmRecord)}
  {work : Option (Work Int RmRecord)}

/-- An action that has nothing to do with the row. -/
theorem keep (h : s.Row fd es₀ v₀ x bs work) (hkept : s.Kept fd) (ha : s.Allows fd a)
    (hentry : a.call.bind (·.entryAt x) = none)
    (hstanding : changesAt x ((s.act fd a).standing a.txn) = changesAt x (s.standing a.txn))
    (hshows : ∀ es v, Tells v₀ bs work es v → s.Shows x v → (s.act fd a).Shows x v)
    (hwrites : ∀ t w, work = some w → s.Writes fd x t w → ((s.act fd a).phase t).Active) :
    (s.act fd a).Row fd es₀ v₀ x bs work := by
  have hsame : ∀ t, changesAt x ((s.act fd a).standing t) = changesAt x (s.standing t) := by
    intro t
    by_cases ht : t = a.txn
    · subst ht
      exact hstanding
    · rw [act_standing_of_ne ht]
  refine ⟨?_, fun b hb => ?_, fun w hw => ?_, fun t ht => (hsame t).trans (h.others t ht)⟩
  · obtain ⟨es, v, hes, htells, hold⟩ := h.tells
    refine ⟨es, v, ?_, htells, hshows es v htells hold⟩
    rw [act_entriesAt, hentry, hes]
    exact List.append_nil _
  · obtain ⟨t, hwriter, hfinished⟩ := h.done b hb
    exact ⟨t, hwriter, act_finished ha hfinished⟩
  · obtain ⟨t, hold⟩ := h.writes w hw
    have hactive := hwrites t w hw hold
    refine ⟨t, hold.writer, ?_, hkept.owns_act ha hold.active hold.owns, (hsame t).trans hold.standing⟩
    by_cases ht : t = a.txn
    · subst ht
      exact ha.step.direction hactive hold.phase
    · rw [act_phase_of_ne ht]
      exact hold.phase

/-- The transaction whose standing writes have one of this row is at work on it. -/
theorem writes_of_standing (h : s.Row fd es₀ v₀ x bs work) (hne : changesAt x (s.standing t) ≠ []) :
    ∃ w, work = some w ∧ s.Writes fd x t w := by
  by_contra hno
  refine hne (h.others t fun w hw heq => hno ⟨w, hw, ?_⟩)
  obtain ⟨t', hwrites⟩ := h.writes w hw
  obtain rfl : t' = t := Int.ofNat_inj.mp (hwrites.writer.symm.trans heq)
  exact hwrites

/-- The value behind the last write that stands. -/
theorem value_eq (h : s.Row fd es₀ v₀ x bs work) {es : List (Entry Int RmRecord)} {v : Option RmRecord}
    (htells : Tells v₀ bs work es v) {c : Change RmRecord} {cs : List (Change RmRecord)}
    (hstanding : changesAt x (s.standing t) = c :: cs) : v = c.after := by
  obtain ⟨w₀, rfl, hwrites⟩ := h.writes_of_standing (t := t) (by simp [hstanding])
  have hlast : w₀.standing = cs.reverse ++ [c] := by
    rw [← List.reverse_reverse w₀.standing, ← hwrites.standing, hstanding, List.reverse_cons]
  have hvalue : v = Replay.result (Block.valueOf v₀ bs) w₀.standing := htells.value
  rw [hvalue, hlast, Replay.result_append]
  rfl

/-- A write comes into the log. -/
theorem logWrite (h : s.Row fd es₀ v₀ x bs work) (hkept : s.Kept fd) (hok : s.InsertsApart fd (.logWrite t w))
    (ha : s.Allows fd (.logWrite t w)) (hx : w.place = x) :
    ∃ work, (s.act fd (.logWrite t w)).Row fd es₀ v₀ x bs work := by
  have hphase : s.phase t = .running := ha.1
  have halone : ∀ t', (s.phase t').Active → s.Owns fd t' x → t' = t := fun t' hactive ho =>
    hkept.eq_of_logWrite hok ha hactive (hx ▸ ho)
  have hafter : (s.act fd (.logWrite t w)).phase t = .writing w := Function.update_self ..
  obtain ⟨es, v, hes, htells, hshows⟩ := h.tells
  have hpending : ∀ t' w', (s.phase t').pending = some w' → w'.place = x → t' = t := by
    rintro t' w' hw' rfl
    have hcurrent := TxnPhase.current_of_pending hw'
    exact halone t' (Kept.active_of_current hcurrent) (hkept.owns_current hcurrent)
  have hv : w.change.before = v := by
    rw [← ha.2.2, hx]
    refine hshows.settled fun t' w' hw' hx' => ?_
    obtain rfl := hpending t' w' hw' hx'
    rw [hphase] at hw'
    cases hw'
  have hentries : entriesAt x (s.act fd (.logWrite t w)).log = es₀ ++ (es ++ [.change t w.change]) := by
    rw [act_entriesAt, hes, List.append_assoc]
    exact congrArg (fun e : Option (Entry Int RmRecord) => es₀ ++ (es ++ e.toList)) (if_pos hx)
  have hshows' : (s.act fd (.logWrite t w)).Shows x w.change.after := by
    refine ⟨fun t' w' hw' hx' => ?_, fun hno => absurd hx (hno t w (by rw [hafter]; rfl))⟩
    by_cases ht' : t' = t
    · subst ht'
      rw [hafter] at hw'
      cases hw'
      rfl
    · rw [act_phase_of_ne (a := .logWrite t w) ht'] at hw'
      exact absurd (hpending t' w' hw' hx') ht'
  have hself : changesAt x ((s.act fd (.logWrite t w)).standing t) = w.change :: changesAt x (s.standing t) := by
    have hset : (s.act fd (.logWrite t w)).writeSet t = w :: s.writeSet t := Function.update_self ..
    rw [standing, hafter, hset, standing, hphase]
    exact changesAt_cons.trans (if_pos hx)
  have hother : ∀ t' : TxnId, (t : Int) ≠ t' →
      changesAt x ((s.act fd (.logWrite t w)).standing t') = changesAt x (s.standing t') := fun t' hne =>
    congrArg (changesAt x) (act_standing_of_ne (a := .logWrite t w) fun heq => hne (congrArg Nat.cast heq.symm))
  have hdone : ∀ b ∈ bs, ∃ t' : TxnId, b.writer = t' ∧
      ((s.act fd (.logWrite t w)).phase t').Finished (!b.takenBack) := by
    intro b hb
    obtain ⟨t', hwriter, hfinished⟩ := h.done b hb
    exact ⟨t', hwriter, act_finished ha hfinished⟩
  have howns : (s.act fd (.logWrite t w)).Owns fd t x := by
    subst hx
    refine (hkept.act hok ha).owned t ?_ w ?_
    · rw [hafter]
      exact .inl trivial
    · show w ∈ Function.update s.writeSet t (w :: s.writeSet t) t
      rw [Function.update_self]
      exact List.mem_cons_self
  have hforward : ((s.act fd (.logWrite t w)).phase t).Forward := by
    rw [hafter]
    trivial
  cases work with
  | none =>
    refine ⟨some ⟨t, [w.change], []⟩, ⟨_, _, hentries, htells.first hv, hshows'⟩, hdone, ?_, ?_⟩
    · intro w' hw'
      cases hw'
      refine ⟨t, rfl, .inl ⟨hforward, rfl⟩, howns, ?_⟩
      rw [hself, h.others t fun w hw => by cases hw]
      rfl
    · intro t' ht'
      exact (hother t' (ht' _ rfl)).trans (h.others t' fun w hw => by cases hw)
  | some w₀ =>
    obtain ⟨t₀, hwrites⟩ := h.writes w₀ rfl
    obtain rfl := halone t₀ hwrites.active hwrites.owns
    obtain ⟨writer, standing, taken⟩ := w₀
    obtain rfl : writer = t₀ := hwrites.writer
    obtain rfl : taken = [] := by
      rcases hwrites.phase with ⟨-, htaken⟩ | hback
      · exact htaken
      · rw [hphase] at hback
        exact hback.elim
    refine ⟨some ⟨t₀, standing ++ [w.change], []⟩, ⟨_, _, hentries, htells.write hv, hshows'⟩, hdone, ?_, ?_⟩
    · intro w' hw'
      cases hw'
      refine ⟨t₀, rfl, .inl ⟨hforward, rfl⟩, howns, ?_⟩
      rw [hself, hwrites.standing, List.reverse_append]
      rfl
    · intro t' ht'
      have hne : (t₀ : Int) ≠ t' := ht' _ rfl
      refine (hother t' hne).trans (h.others t' fun w' hw' => ?_)
      cases hw'
      exact hne

/-- The row is taken back, and the log does not have it yet. -/
theorem shows_rollback (h : s.Row fd es₀ v₀ x bs work) (ha : s.Allows fd (.rollback t w)) (hx : w.place = x)
    {es : List (Entry Int RmRecord)} {v : Option RmRecord} (htells : Tells v₀ bs work es v) (hshows : s.Shows x v) :
    (s.act fd (.rollback t w)).Shows x v := by
  have hafter : (s.act fd (.rollback t w)).phase t = .undone w := Function.update_self ..
  obtain ⟨ws, hws⟩ := List.head?_eq_some_iff.mp ha.2
  have hstanding : changesAt x (s.standing t) = w.change :: changesAt x ws := by
    have hset : s.standing t = w :: ws := by
      rw [standing, ha.1, hws]
      rfl
    rw [hset, changesAt_cons, if_pos hx]
  have hv : v = w.change.after := h.value_eq htells hstanding
  refine ⟨fun t' w' hw' hx' => ?_, fun hno => absurd hx (hno t w (by rw [hafter]; rfl))⟩
  by_cases ht' : t' = t
  · subst ht'
    rw [hafter] at hw'
    cases hw'
    exact hv
  · rw [act_phase_of_ne (a := .rollback t w) ht'] at hw'
    exact hshows.pending t' w' hw' hx'

/-- A compensation record comes into the log. -/
theorem logRollback (h : s.Row fd es₀ v₀ x bs work) (hkept : s.Kept fd) (ha : s.Allows fd (.logRollback t w))
    (hx : w.place = x) : ∃ work, (s.act fd (.logRollback t w)).Row fd es₀ v₀ x bs work := by
  have hphase : s.phase t = .undone w := ha
  have hafter : (s.act fd (.logRollback t w)).phase t = .compensated w := Function.update_self ..
  obtain ⟨ws, hws⟩ := List.head?_eq_some_iff.mp (hkept.current t w (by rw [hphase]; rfl))
  have hchanges : changesAt x (s.standing t) = w.change :: changesAt x ws := by
    have hset : s.standing t = w :: ws := by
      rw [standing, hphase, hws]
      rfl
    rw [hset, changesAt_cons, if_pos hx]
  obtain ⟨w₀, rfl, hwrites⟩ := h.writes_of_standing (t := t) (by simp [hchanges])
  obtain ⟨writer, standing, taken⟩ := w₀
  obtain rfl : writer = t := hwrites.writer
  obtain rfl : standing = (changesAt x ws).reverse ++ [w.change] := by
    have hstanding := hwrites.standing.symm.trans hchanges
    rw [← List.reverse_reverse standing, hstanding, List.reverse_cons]
  obtain ⟨es, v, hes, htells, -⟩ := h.tells
  have hself : (s.act fd (.logRollback t w)).standing t = ws := by
    have hset : (s.act fd (.logRollback t w)).writeSet t = w :: ws := hws
    rw [TxnSystem.standing, hafter, hset]
    rfl
  refine ⟨some ⟨t, (changesAt x ws).reverse, w.change :: taken⟩,
    ⟨es ++ [.back t w.change], w.change.before, ?_, htells.takeBack, fun t' w' hw' hx' => ?_, fun _ => ?_⟩,
    fun b hb => ?_, fun w' hw' => ?_, fun t' ht' => ?_⟩
  · rw [act_entriesAt, hes, List.append_assoc]
    exact congrArg (fun e : Option (Entry Int RmRecord) => es₀ ++ (es ++ e.toList)) (if_pos hx)
  · by_cases ht' : t' = t
    · subst ht'
      rw [hafter] at hw'
      cases hw'
    · rw [act_phase_of_ne (a := .logRollback t w) ht'] at hw'
      have hcurrent := TxnPhase.current_of_pending hw'
      have howns := hkept.owns_current hcurrent
      rw [hx'] at howns
      exact absurd (hkept.owner_unique (Kept.active_of_current hcurrent) hwrites.active howns hwrites.owns) ht'
  · rw [← hx]
    exact hkept.restored t w hphase
  · obtain ⟨t', hwriter, hfinished⟩ := h.done b hb
    exact ⟨t', hwriter, act_finished ha hfinished⟩
  · cases hw'
    refine ⟨t, rfl, .inr ?_, hkept.owns_act ha hwrites.active hwrites.owns, ?_⟩
    · rw [hafter]
      trivial
    · rw [hself, List.reverse_reverse]
  · have hne : (t : Int) ≠ t' := ht' _ rfl
    have hsame := @act_standing_of_ne fd s t' (.logRollback t w) fun heq : t' = t => hne (congrArg _ heq.symm)
    refine (congrArg (changesAt x) hsame).trans (h.others t' fun w' hw' => ?_)
    cases hw'
    exact hne

/-- The transaction at work comes to `release_locks`. -/
theorem release {commits : Bool} {w₀ : Work Int RmRecord} (h : s.Row fd es₀ v₀ x bs (some w₀))
    (ha : s.Allows fd (.release t commits)) (hwrites : s.Writes fd x t w₀) :
    ∃ bs', (s.act fd (.release t commits)).Row fd es₀ v₀ x bs' none ∧
      Block.valueOf v₀ bs' = (TxnAction.release t commits).leaves s x (Block.valueOf v₀ bs) := by
  have hafter : (s.act fd (.release t commits)).phase t = .releasing commits := Function.update_self ..
  obtain ⟨writer, standing, taken⟩ := w₀
  obtain rfl : writer = t := hwrites.writer
  obtain ⟨es, v, hes, htells, hshows⟩ := h.tells
  have hv : v = Replay.result (Block.valueOf v₀ bs) standing := htells.value
  have hblock : ∃ b : Block Int RmRecord, b.writer = t ∧ commits = !b.takenBack ∧ Tells v₀ (bs ++ [b]) none es v ∧
      v = (TxnAction.release t commits).leaves s x (Block.valueOf v₀ bs) := by
    cases commits with
    | true =>
      have hphase : s.phase t = .running := ha
      have hset : s.standing t = s.writeSet t := by
        rw [TxnSystem.standing, hphase]
        rfl
      obtain rfl : taken = [] := by
        rcases hwrites.phase with ⟨-, htaken⟩ | hback
        · exact htaken
        · rw [hphase] at hback
          exact hback.elim
      obtain ⟨b, hwriter, hback, hb⟩ := htells.stand
      refine ⟨b, hwriter, by rw [hback]; rfl, hb, hv.trans ?_⟩
      rw [TxnAction.leaves, ← hset, hwrites.standing, List.reverse_reverse]
    | false =>
      have hset : s.standing t = [] := by
        rw [TxnSystem.standing, ha.1, ha.2]
        rfl
      obtain rfl : standing = [] := by
        have hstanding := hwrites.standing
        rw [hset] at hstanding
        exact List.reverse_eq_nil_iff.mp hstanding.symm
      obtain ⟨b, hwriter, hback, hb⟩ := htells.takenBack
      exact ⟨b, hwriter, by rw [hback]; rfl, hb, hv⟩
  obtain ⟨b, hwriter, hcommits, hb, hleaves⟩ := hblock
  have hshows' : (s.act fd (.release t commits)).Shows x v := by
    refine hshows.act rfl fun w _ => ?_
    rw [act_pending ha (by simp) (by simp) (by simp) (by simp)]
  refine ⟨bs ++ [b], ⟨⟨es, v, ?_, hb, hshows'⟩, ?_, (fun w hw => by cases hw), ?_⟩, hb.value.symm.trans hleaves⟩
  · rw [act_entriesAt]
    exact (List.append_nil _).trans hes
  · refine List.forall_mem_append.mpr ⟨fun b' hb' => ?_, List.forall_mem_singleton.mpr ⟨t, hwriter, ?_⟩⟩
    · obtain ⟨t', hwriter', hfinished⟩ := h.done b' hb'
      exact ⟨t', hwriter', act_finished ha hfinished⟩
    · rw [← hcommits, hafter]
      exact .inl rfl
  · intro t' _
    by_cases ht' : t' = t
    · rw [ht', TxnSystem.standing, hafter]
      rfl
    · rw [act_standing_of_ne (a := .release t commits) ht']
      refine h.others t' fun w' hw' heq => ?_
      cases hw'
      exact ht' (Int.ofNat_inj.mp heq).symm

theorem act (h : s.Row fd es₀ v₀ x bs work) (hkept : s.Kept fd) (hok : s.InsertsApart fd a) (ha : s.Allows fd a) :
    ∃ bs' work', (s.act fd a).Row fd es₀ v₀ x bs' work' ∧
      Block.valueOf v₀ bs' = a.leaves s x (Block.valueOf v₀ bs) := by
  have hactive : (∀ t commits, a ≠ .release t commits) → ∀ t w, work = some w → s.Writes fd x t w →
      ((s.act fd a).phase t).Active := fun hne _ _ _ hwrites => act_active ha hne hwrites.active
  cases a with
  | logWrite t w =>
    by_cases hx : w.place = x
    · obtain ⟨work', hrow⟩ := h.logWrite hkept hok ha hx
      exact ⟨bs, work', hrow, rfl⟩
    · have hphase : s.phase t = .running := ha.1
      have hafter : (s.act fd (.logWrite t w)).phase t = .writing w := Function.update_self ..
      have hset : (s.act fd (.logWrite t w)).writeSet t = w :: s.writeSet t := Function.update_self ..
      refine ⟨bs, work, h.keep hkept ha (if_neg hx) ?_ (fun _ v _ hv => hv.act rfl ?_) (hactive (by simp)), rfl⟩
      · show changesAt x ((s.act fd (.logWrite t w)).standing t) = changesAt x (s.standing t)
        rw [standing, standing, hafter, hset, hphase]
        exact changesAt_cons.trans (if_neg hx)
      · refine pending_of_ne hx (.inl ?_) (.inr ?_)
        · exact congrArg TxnPhase.pending hphase
        · exact congrArg TxnPhase.pending hafter
  | write t w =>
    have hstanding := congrArg (changesAt x) (act_standing ha (by simp) (by simp) (by simp))
    refine ⟨bs, work, h.keep hkept ha rfl hstanding (fun _ v _ hv => ?_) (hactive (by simp)), rfl⟩
    by_cases hx : w.place = x
    · exact hv.write ha hx
    · have hafter : (s.act fd (.write t w)).phase t = if w.isInsert then .inserted w else .running :=
        Function.update_self ..
      refine hv.act ((w.apply_at s.rows).trans (if_neg hx)) (pending_of_ne hx (.inr ?_) (.inl ?_))
      · exact congrArg TxnPhase.pending ha
      · refine (congrArg TxnPhase.pending hafter).trans ?_
        split
        · rfl
        · rfl
  | rollback t w =>
    have hstanding := congrArg (changesAt x) (act_standing ha (by simp) (by simp) (by simp))
    refine ⟨bs, work, h.keep hkept ha rfl hstanding (fun _ v htells hv => ?_) (hactive (by simp)), rfl⟩
    by_cases hx : w.place = x
    · exact h.shows_rollback ha hx htells hv
    · have hafter : (s.act fd (.rollback t w)).phase t = .undone w := Function.update_self ..
      refine hv.act ((w.rollback_at s.rows).trans (if_neg hx)) (pending_of_ne hx (.inl ?_) (.inr ?_))
      · exact congrArg TxnPhase.pending ha.1
      · exact congrArg TxnPhase.pending hafter
  | logRollback t w =>
    by_cases hx : w.place = x
    · obtain ⟨work', hrow⟩ := h.logRollback hkept ha hx
      exact ⟨bs, work', hrow, rfl⟩
    · have hphase : s.phase t = .undone w := ha
      have hafter : (s.act fd (.logRollback t w)).phase t = .compensated w := Function.update_self ..
      obtain ⟨ws, hws⟩ := List.head?_eq_some_iff.mp (hkept.current t w (by rw [hphase]; rfl))
      have hset : (s.act fd (.logRollback t w)).writeSet t = w :: ws := hws
      refine ⟨bs, work, h.keep hkept ha (if_neg hx) ?_ (fun _ v _ hv => hv.act rfl ?_) (hactive (by simp)), rfl⟩
      · show changesAt x ((s.act fd (.logRollback t w)).standing t) = changesAt x (s.standing t)
        rw [standing, standing, hafter, hset, hphase, hws]
        exact (changesAt_cons.trans (if_neg hx)).symm
      · refine pending_of_ne hx (.inr ?_) (.inl ?_)
        · exact congrArg TxnPhase.pending hphase
        · exact congrArg TxnPhase.pending hafter
  | release t commits =>
    by_cases hwork : ∃ w₀, work = some w₀ ∧ s.Writes fd x t w₀
    · obtain ⟨w₀, rfl, hwrites⟩ := hwork
      obtain ⟨bs', hrow, hleaves⟩ := h.release ha hwrites
      exact ⟨bs', none, hrow, hleaves⟩
    · have hafter : (s.act fd (.release t commits)).phase t = .releasing commits := Function.update_self ..
      have hnil : changesAt x (s.standing t) = [] := by
        by_contra hnil
        exact hwork (h.writes_of_standing hnil)
      have hleaves : Block.valueOf v₀ bs = (TxnAction.release t commits).leaves s x (Block.valueOf v₀ bs) := by
        cases commits with
        | true =>
          have hset : s.standing t = s.writeSet t := by
            rw [standing, show s.phase t = .running from ha]
            rfl
          rw [TxnAction.leaves, ← hset, hnil]
          rfl
        | false => rfl
      refine ⟨bs, work, h.keep hkept ha rfl ?_ (fun _ v _ hv => hv.act rfl fun w _ => ?_) fun t' w hw hwrites => ?_,
        hleaves⟩
      · show changesAt x ((s.act fd (.release t commits)).standing t) = changesAt x (s.standing t)
        rw [hnil, standing, hafter]
        rfl
      · rw [act_pending ha (by simp) (by simp) (by simp) (by simp)]
      · have hne : t' ≠ t := by
          rintro rfl
          exact hwork ⟨w, hw, hwrites⟩
        rw [act_phase_of_ne (a := .release t commits) hne]
        exact hwrites.active
  | endRecord t commits =>
    have hentry : ((if commits then .commit t else .abort t : GenLog Int)).entryAt x = none := by
      cases commits with
      | true => rfl
      | false => rfl
    have hstanding := congrArg (changesAt x) (act_standing ha (by simp) (by simp) (by simp))
    refine ⟨bs, work, h.keep hkept ha hentry hstanding (fun _ v _ hv => hv.act rfl fun w _ => ?_) (hactive (by simp)),
      rfl⟩
    rw [act_pending ha (by simp) (by simp) (by simp) (by simp)]
  | begin t | lock t c | abort t | popBack t w | unlock t id | flushLog t commits =>
    have hstanding := congrArg (changesAt x) (act_standing ha (by simp) (by simp) (by simp))
    refine ⟨bs, work, h.keep hkept ha rfl hstanding (fun _ v _ hv => hv.act rfl fun w _ => ?_) (hactive (by simp)), rfl⟩
    rw [act_pending ha (by simp) (by simp) (by simp) (by simp)]

end Row

end TxnSystem

-- ---------------------------------------------------------------------------
-- A new process
-- ---------------------------------------------------------------------------

namespace RecoveryManager

variable {m : RecoveryManager} {log : LogRecord Int} {logs : List (LogRecord Int)}

/-- Undoing takes transactions out of `undo_list_`. -/
theorem undoList_of_undoLog {y : RecoveryManager × List (GenLog Int)} {tid : Int}
    (h : (undoLog log y).1.undoList tid = true) : y.1.undoList tid = true := by
  obtain ⟨⟨type, lsn, len, tid', prevLsn, undoNext⟩, body⟩ := log
  unfold undoLog at h
  split at h
  · cases type <;> cases body <;> first | exact h | skip
    all_goals
      by_cases htid : tid = tid'
      · rw [htid]
        assumption
      · exact (Function.update_of_ne htid _ _).symm.trans h
  · exact h

theorem undoList_of_undo {tid : Int} (h : (undo m logs).1.undoList tid = true) : m.undoList tid = true := by
  induction logs with
  | nil => exact h
  | cons log logs ih => exact ih (undoList_of_undoLog h)

/-- What a restart logs are the changes of lost transactions. -/
def Undoes (logs : List (LogRecord Int)) (lost : Int → Bool) (call : GenLog Int) : Prop :=
  ∃ log ∈ logs, ∃ w, call = .clr log.logTid w ∧ log.entry = some (w.place, .change log.logTid w.change) ∧
    lost log.logTid = true

theorem undo_calls : ∀ call ∈ (undo m logs).2, Undoes logs m.undoList call := by
  induction logs with
  | nil => exact fun call hcall => by cases hcall
  | cons log logs ih =>
    have hold : ∀ call ∈ (undo m logs).2, Undoes (log :: logs) m.undoList call := by
      intro call hcall
      obtain ⟨log', hmem, hundoes⟩ := ih call hcall
      exact ⟨log', List.mem_cons_of_mem log hmem, hundoes⟩
    intro call hcall
    have hundo : undo m (log :: logs) = undoLog log (undo m logs) := rfl
    rw [hundo] at hcall
    obtain ⟨⟨type, lsn, len, tid, prevLsn, undoNext⟩, body⟩ := log
    unfold undoLog at hcall
    split at hcall
    · rename_i hmem
      have hlost : m.undoList tid = true := undoList_of_undo hmem
      cases type <;> cases body <;> first | exact hold call hcall | skip
      all_goals
        rcases List.mem_append.mp hcall with hcall | hcall
        · exact hold call hcall
        · exact ⟨_, List.mem_cons_self, _, List.mem_singleton.mp hcall, rfl, hlost⟩
    · exact hold call hcall

end RecoveryManager

/-- Records that a restart adds to the log. -/
def RestartRecords (log recs : List (LogRecord Int)) : Prop :=
  ∀ r ∈ recs, ∃ (call : GenLog Int) (lsn prevLsn : Int), r = call.record lsn prevLsn ∧
    RecoveryManager.Undoes log (Lost log) call

namespace RestartRecords

variable {log recs : List (LogRecord Int)}

theorem take (h : RestartRecords log recs) (n : Nat) : RestartRecords log (recs.take n) :=
  fun r hr => h r (List.mem_of_mem_take hr)

theorem lost (h : RestartRecords log recs) (tid : Int) : Lost (log ++ recs) tid = Lost log tid := by
  induction recs using List.reverseRecOn with
  | nil => rw [List.append_nil]
  | append_singleton recs r ih =>
    obtain ⟨call, lsn, prevLsn, rfl, log', -, w, rfl, -⟩ := h r (by simp)
    rw [← List.append_assoc, lost_append]
    exact (ite_self _).trans (ih fun r hr => h r (List.mem_append_left _ hr))

theorem committed (h : RestartRecords log recs) (tid : Int) : Committed (log ++ recs) tid = Committed log tid := by
  induction recs using List.reverseRecOn with
  | nil => rw [List.append_nil]
  | append_singleton recs r ih =>
    obtain ⟨call, lsn, prevLsn, rfl, log', -, w, rfl, -⟩ := h r (by simp)
    rw [← ih fun r hr => h r (List.mem_append_left _ hr), ← List.append_assoc, Bool.eq_iff_iff, committed_append]
    exact or_iff_left (by simp)

theorem logTid (h : RestartRecords log recs) : ∀ r ∈ recs, ∃ r' ∈ log, r'.logTid = r.logTid := by
  intro r hr
  obtain ⟨call, lsn, prevLsn, rfl, r', hmem, w, rfl, -⟩ := h r hr
  refine ⟨r', hmem, ?_⟩
  rw [GenLog.record_logTid]
  rfl

theorem beginsFirst (h : RestartRecords log recs) (hfirst : BeginsFirst log) : BeginsFirst (log ++ recs) := by
  have hclr : ∀ r ∈ recs, r.logType ≠ .begin := by
    intro r hr
    obtain ⟨call, lsn, prevLsn, rfl, r', -, w, rfl, -⟩ := h r hr
    cases w <;> simp [GenLog.record, LogRecord.insertLogRecord, LogRecord.deleteLogRecord, LogRecord.updateLogRecord,
      LogRecord.oneImage, LogRecord.setCLR, LogType.setCLR]
  refine List.pairwise_append.mpr ⟨hfirst, ?_, fun r _ r' hr' htype => absurd htype (hclr r' hr')⟩
  exact List.pairwise_of_forall_mem_list fun r _ r' hr' htype => absurd htype (hclr r' hr')

/-- A row without lost changes has no new entries. -/
theorem entriesAt (h : RestartRecords log recs) (hno : Replay.NoLost (Lost log) (entriesAt x log)) :
    Rmdb.entriesAt x (log ++ recs) = Rmdb.entriesAt x log := by
  have hnil : Rmdb.entriesAt x recs = [] := by
    refine List.filterMap_eq_nil_iff.mpr fun r hr => ?_
    obtain ⟨call, lsn, prevLsn, rfl, r', hmem, w, rfl, hentry, hlost⟩ := h r hr
    rw [GenLog.record_entryAt]
    refine if_neg fun hplace => ?_
    have hat : r'.entryAt x = some (.change r'.logTid w.change) := by
      rw [LogRecord.entryAt, hentry]
      exact if_pos hplace
    have hkept := hno r'.logTid w.change (List.mem_filterMap.mpr ⟨r', hmem, hat⟩)
    exact Bool.false_ne_true (hkept.symm.trans hlost)
  rw [entriesAt_append, hnil, List.append_nil]

end RestartRecords

namespace TxnSystem

variable {log : List (LogRecord Int)}

theorem foldl_genLog_log (calls : List (GenLog Int)) : ∃ recs : List (LogRecord Int),
    (calls.foldl genLog s).log = s.log ++ recs ∧
      ∀ r ∈ recs, ∃ call ∈ calls, ∃ lsn prevLsn, r = call.record lsn prevLsn := by
  induction calls generalizing s with
  | nil => exact ⟨[], (List.append_nil _).symm, fun r hr => by cases hr⟩
  | cons call calls ih =>
    obtain ⟨recs, hlog, hrecs⟩ := ih (s := s.genLog call)
    refine ⟨call.record s.globalLsn (s.soFarLsn call.tid) :: recs, ?_, List.forall_mem_cons.mpr ⟨?_, ?_⟩⟩
    · exact hlog.trans (List.append_assoc ..)
    · exact ⟨call, List.mem_cons_self, _, _, rfl⟩
    · intro r hr
      obtain ⟨call', hmem, hrecord⟩ := hrecs r hr
      exact ⟨call', List.mem_cons_of_mem call hmem, hrecord⟩

theorem restart_log : ∃ recs, (restart log).log = log ++ recs ∧ RestartRecords log recs := by
  obtain ⟨recs, hlog, hrecs⟩ := @foldl_genLog_log (recovered log) (RecoveryManager.recover log).2
  refine ⟨recs, hlog, fun r hr => ?_⟩
  obtain ⟨call, hcall, lsn, prevLsn, rfl⟩ := hrecs r hr
  exact ⟨call, lsn, prevLsn, rfl, RecoveryManager.undo_calls call hcall⟩

/-- What holds in every state of a process. The rows had the entries `es₀` and the values `v₀` at its start. -/
structure Sound (fd : List UInt8 → Int) (es₀ : Place → List (Entry Int RmRecord)) (v₀ : TableRows)
    (s : TxnSystem) : Prop where
  kept : s.Kept fd
  logs : s.Logs
  row : ∀ x, ∃ bs work, s.Row fd (es₀ x) (v₀ x) x bs work

/-- Nobody is at work on a row. -/
theorem Row.restart {es₀ : List (Entry Int RmRecord)} (hes : entriesAt x (restart log).log = es₀ ++ []) :
    (restart log).Row fd es₀ ((restart log).rows x) x [] none := by
  have hpending : ∀ t w, ((TxnSystem.restart log).phase t).pending ≠ some w := by
    intro t w hw
    rcases @restart_fresh_or_past t log with hphase | hphase
    · cases (congrArg TxnPhase.pending hphase).symm.trans hw
    · cases (congrArg TxnPhase.pending hphase).symm.trans hw
  have hshows : (TxnSystem.restart log).Shows x ((TxnSystem.restart log).rows x) :=
    ⟨fun t w hw => absurd hw (hpending t w), fun _ => rfl⟩
  refine ⟨⟨[], _, hes, Replay.Tells.start, hshows⟩, (fun b hb => by cases hb), (fun w hw => by cases hw), fun t _ => ?_⟩
  have hset : (TxnSystem.restart log).writeSet t = [] := by rw [restart_writeSet]
  rw [standing, hset]
  rcases @restart_fresh_or_past t log with hphase | hphase
  · rw [hphase]
    rfl
  · rw [hphase]
    rfl

theorem Sound.restart (h : BeginsFirst log) :
    (restart log).Sound fd (fun x => entriesAt x (TxnSystem.restart log).log) (TxnSystem.restart log).rows := by
  obtain ⟨recs, hlog, hrecs⟩ := @restart_log log
  constructor
  · exact .restart log
  · constructor
    · rw [hlog]
      exact hrecs.beginsFirst h
    · intro t
      rw [restart_phase, hlog]
      show (if log.any fun r => r.logTid = t then TxnPhase.past else .fresh).Logs _ _
      split
      · trivial
      · rename_i hno
        have hfresh : ∀ r ∈ log, r.logTid ≠ t := by simpa using hno
        refine List.forall_mem_append.mpr ⟨hfresh, fun r hr => ?_⟩
        obtain ⟨r', hmem, heq⟩ := hrecs.logTid r hr
        exact heq ▸ hfresh r' hmem
  · intro x
    exact ⟨[], none, .restart (List.append_nil _).symm⟩

variable {es₀ : Place → List (Entry Int RmRecord)} {v₀ : TableRows}

theorem Sound.act (h : s.Sound fd es₀ v₀) (hok : s.InsertsApart fd a) (ha : s.Allows fd a) :
    (s.act fd a).Sound fd es₀ v₀ where
  kept := h.kept.act hok ha
  logs := h.logs.act ha
  row x := by
    obtain ⟨bs, work, hrow⟩ := h.row x
    obtain ⟨bs', work', hrow', -⟩ := hrow.act h.kept hok ha
    exact ⟨bs', work', hrow'⟩

theorem Sound.run (h : s.Sound fd es₀ v₀) (hok : ∀ s a, ok s a → s.InsertsApart fd a) (hrun : TxnSteps fd ok s s') :
    s'.Sound fd es₀ v₀ :=
  hrun.inv h fun s a hs hmay ha => hs.act (hok s a hmay) ha

namespace Row

variable {es₀ : List (Entry Int RmRecord)} {v₀ : Option RmRecord} {bs : List (Block Int RmRecord)}
  {work : Option (Work Int RmRecord)}

theorem fate (h : s.Row fd es₀ v₀ x bs work) (hlogs : s.Logs) : ∀ b ∈ bs, Lost s.log b.writer = false →
    Committed s.log b.writer = !b.takenBack := by
  intro b hb hlost
  obtain ⟨t, hwriter, hfinished⟩ := h.done b hb
  rw [hwriter] at hlost ⊢
  exact hfinished.committed (hlogs.logs t) hlost

theorem lost (h : s.Row fd es₀ v₀ x bs work) (hlogs : s.Logs) :
    ∀ w, work = some w → Lost s.log w.writer = true := by
  intro w hw
  obtain ⟨t, hwrites⟩ := h.writes w hw
  rw [hwrites.writer]
  exact hwrites.active.lost (hlogs.logs t)

end Row

end TxnSystem

end Rmdb
