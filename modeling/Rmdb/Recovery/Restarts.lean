-- SUMMARY: When recovery gives the rows of the committed transactions, over any number of crashes and restarts.
import Rmdb.Recovery.RecoverFile
import Rmdb.Transaction.Strict

/-!
# Recovery over restarts

The log is never cut: each restart replays all of it, with the records of all earlier processes. A transaction that was
in flight at one crash is in flight for good, because recovery gives it no end record, and every later restart undoes
its writes again. The invariant is that the first of them found the rows of the committed transactions, or that there
is none.

Each process has to read the log from a file whose size is an `int`, and what it undoes has to fit into the log buffer:
before that, no transaction begins.
-/

namespace Rmdb

open Replay (Entry Work Tells NoLost FirstLost Overwritten keptValue)

def TxnAction.isAbort : TxnAction → Bool
  | abort _ => true
  | _ => false

/-- Inserts are apart, and nothing is rolled back at run time. -/
def OnlyForward (fd : List UInt8 → Int) (s : TxnSystem) (a : TxnAction) : Prop :=
  s.InsertsApart fd a ∧ a.isAbort = false

instance (fd : List UInt8 → Int) (s : TxnSystem) (a : TxnAction) : Decidable (OnlyForward fd s a) :=
  inferInstanceAs (Decidable (_ ∧ _))

/-- The log on disk, after processes of which each one restarted from the file of the log and crashed. The records that
were in the buffer may be on disk or not. -/
inductive Restarts (fd : List UInt8 → Int) : List (LogRecord Int) → Prop where
  | empty : Restarts fd []
  | crash {log : List (LogRecord Int)} {file : List UInt8} {s : TxnSystem} {n : Nat} : Restarts fd log →
    IsLogFile log file → UndoFits log → TxnSteps fd (OnlyForward fd) (.restart log) s → s.onDisk ≤ n →
    Restarts fd (s.log.take n)

variable {fd : List UInt8 → Int} {ok : TxnSystem → TxnAction → Prop} {s s' : TxnSystem} {a : TxnAction} {x : Place}
  {log recs : List (LogRecord Int)} {file : List UInt8}

-- ---------------------------------------------------------------------------
-- The transactions of earlier processes
-- ---------------------------------------------------------------------------

/-- Nothing is logged of the transactions of earlier processes. -/
structure TxnSystem.Since (log : List (LogRecord Int)) (s : TxnSystem) : Prop where
  sub : log <+: s.log
  onDisk : log.length ≤ s.onDisk
  past : ∀ r ∈ log, ∀ t : TxnId, r.logTid = t → s.phase t = .past
  lost : ∀ r ∈ log, Lost s.log r.logTid = Lost log r.logTid
  committed : ∀ r ∈ log, Committed s.log r.logTid = Committed log r.logTid

namespace TxnSystem

theorem Since.restart : (restart log).Since log := by
  obtain ⟨recs, hlog, hrecs⟩ := @restart_log log
  constructor
  · rw [hlog]
    exact List.prefix_append log recs
  · rw [restart_onDisk]
  · intro r hr t ht
    rw [restart_phase]
    exact if_pos (List.any_eq_true.mpr ⟨r, hr, decide_eq_true ht⟩)
  · intro r _
    rw [hlog]
    exact hrecs.lost r.logTid
  · intro r _
    rw [hlog]
    exact hrecs.committed r.logTid

theorem Since.act (h : s.Since log) (ha : s.Allows fd a) : (s.act fd a).Since log := by
  have hne : ∀ r ∈ log, r.logTid ≠ a.txn := by
    intro r hr heq
    have hstep := ha.step
    rw [h.past r hr a.txn heq] at hstep
    cases hstep
  have hlog := @act_log fd s a
  refine ⟨?_, ?_, fun r hr t ht => ?_, fun r hr => ?_, fun r hr => ?_⟩
  · rw [hlog]
    exact h.sub.trans (List.prefix_append ..)
  · cases a with
    | flushLog t commits => exact h.sub.length_le
    | begin t | lock t c | logWrite t w | write t w | abort t | rollback t w | logRollback t w | popBack t w
    | release t commits | unlock t id | endRecord t commits => exact h.onDisk
  · rw [act_phase_of_ne fun heq => hne r hr (by rw [ht, heq])]
    exact h.past r hr t ht
  · rw [← h.lost r hr, hlog]
    cases hcall : a.call with
    | none => exact congrArg (Lost · _) (List.append_nil s.log)
    | some call => exact lost_append_of_ne fun heq => hne r hr (heq.symm.trans (TxnAction.tid_of_call hcall))
  · rw [← h.committed r hr, hlog]
    cases hcall : a.call with
    | none => exact congrArg (Committed · _) (List.append_nil s.log)
    | some call => exact committed_append_of_ne fun heq => hne r hr (heq.symm.trans (TxnAction.tid_of_call hcall))

/-- Without aborts, no transaction takes anything back. -/
def NoneBack (s : TxnSystem) : Prop := ∀ t, ¬ (s.phase t).Back ∧ ¬ (s.phase t).Finished false

theorem NoneBack.restart : (restart log).NoneBack := by
  intro t
  rcases @restart_fresh_or_past t log with hphase | hphase
  · rw [hphase]
    exact ⟨id, by simp [TxnPhase.Finished]⟩
  · rw [hphase]
    exact ⟨id, by simp [TxnPhase.Finished]⟩

theorem NoneBack.act (h : s.NoneBack) (hok : a.isAbort = false) (ha : s.Allows fd a) : (s.act fd a).NoneBack := by
  intro t
  by_cases hne : t = a.txn
  · subst hne
    obtain ⟨hback, hfinished⟩ := h a.txn
    have hstep := ha.step
    generalize s.phase a.txn = p at hback hfinished hstep
    generalize (s.act fd a).phase a.txn = p' at hstep ⊢
    cases hstep with
    | begin t | lock t c | granted t c w | refused t c w | logWrite t w | insert t w | change t w | commit t =>
      exact ⟨id, by simp [TxnPhase.Finished]⟩
    | abort t | abortRefused t => cases hok
    | rollback t w | logRollback t w | popBack t w | rolledBack t => exact absurd trivial hback
    | unlock t id commits | endRecord t commits | flushLog t commits =>
      refine ⟨fun hno => hno, ?_⟩
      cases commits with
      | true => simp [TxnPhase.Finished]
      | false => exact absurd (by simp [TxnPhase.Finished]) hfinished
  · rw [act_phase_of_ne hne]
    exact h t

/-- Records stay in the log. -/
theorem log_prefix (hrun : TxnSteps fd ok s s') : s.log <+: s'.log := by
  induction hrun with
  | refl => exact List.prefix_rfl
  | tail _ hstep ih =>
    obtain ⟨a, -, -, rfl⟩ := hstep
    rw [act_log]
    exact ih.trans (List.prefix_append ..)

/-- The log on disk is that of an earlier state of the process, or it ends within what the restart logged. -/
theorem run_prefix (hrun : TxnSteps fd ok s s') {n : Nat} (hn : s.log.length ≤ n) :
    ∃ s₁, TxnSteps fd ok s s₁ ∧ s₁.log = s'.log.take n := by
  induction hrun with
  | refl => exact ⟨s, .refl, (List.take_of_length_le hn).symm⟩
  | @tail b c hrun hstep ih =>
    obtain ⟨a, -, -, rfl⟩ := id hstep
    rw [act_log]
    by_cases hle : n ≤ b.log.length
    · obtain ⟨s₁, hrun₁, hlog⟩ := ih
      exact ⟨s₁, hrun₁, hlog.trans (List.take_append_of_le_length hle).symm⟩
    · refine ⟨b.act fd a, hrun.tail hstep, ?_⟩
      rw [act_log, List.take_of_length_le]
      cases a.call with
      | none => simpa using (Nat.lt_of_not_le hle).le
      | some call => simpa using Nat.succ_le_of_lt (Nat.lt_of_not_le hle)

end TxnSystem

-- ---------------------------------------------------------------------------
-- The invariant
-- ---------------------------------------------------------------------------

/-- The first change of the row that is undone found what the committed transactions had left, or no change is undone
and redoing gives what they have left. -/
def RowFound (log : List (LogRecord Int)) (x : Place) : Prop :=
  (NoLost (Lost log) (entriesAt x log) ∧
    Replay.redo redoneBack none (entriesAt x log) = keptValue (Committed log) none (entriesAt x log)) ∨
  FirstLost (Lost log) (Committed log) (entriesAt x log)

structure DiskSound (log : List (LogRecord Int)) : Prop where
  beginsFirst : BeginsFirst log
  row : ∀ x, RowFound log x

theorem exists_logTid {e : Entry Int RmRecord} (he : e ∈ entriesAt x log) : ∃ r ∈ log, r.logTid = e.writer := by
  obtain ⟨r, hmem, hat⟩ := List.mem_filterMap.mp he
  refine ⟨r, hmem, ?_⟩
  obtain ⟨⟨type, lsn, len, tid, prevLsn, undoNext⟩, body⟩ := r
  cases type <;> cases body <;> simp only [LogRecord.entryAt, LogRecord.entry, reduceCtorEq] at hat
  all_goals
    split at hat
    all_goals cases hat
  all_goals rfl

namespace DiskSound

theorem empty : DiskSound [] := ⟨.nil, fun _ => .inl ⟨(fun _ _ hmem => by cases hmem), rfl⟩⟩

/-- What recovery makes of a row, and what it should make of it. -/
theorem recovered_iff (h : DiskSound log) : (RecoveryManager.recover log).1.rows x = committedRows log x ↔
    ¬ Overwritten (InFlight log) (Committed log) (entriesAt x log) := by
  rw [recover_rows h.beginsFirst, committedRows_eq, ← lost_eq h.beginsFirst]
  rcases h.row x with ⟨hno, hredo⟩ | hfirst
  · exact iff_of_true ((Replay.replay_of_noLost hno).trans hredo) hno.not_overwritten
  · exact hfirst.replay_iff fun t => not_committed_of_lost h.beginsFirst

/-- Records that a restart adds make no difference. -/
theorem restartRecords (h : DiskSound log) (hrecs : RestartRecords log recs) : DiskSound (log ++ recs) := by
  refine ⟨hrecs.beginsFirst h.beginsFirst, fun x => ?_⟩
  rw [RowFound, funext hrecs.lost, funext hrecs.committed]
  rcases h.row x with hrow | hfirst
  · rw [hrecs.entriesAt hrow.1]
    exact .inl hrow
  · rw [entriesAt_append]
    exact .inr (hfirst.append fun _ _ => ⟨rfl, rfl⟩)

/-- Every state of a process that restarted from the log. -/
theorem run (h : DiskSound log) (hrun : TxnSteps fd (OnlyForward fd) (.restart log) s) : DiskSound s.log := by
  have hsound := (@TxnSystem.Sound.restart fd _ h.beginsFirst).run (fun _ _ hok => hok.1) hrun
  have hsince : s.Since log := hrun.inv .restart fun _ _ hs _ ha => hs.act ha
  have hnone : s.NoneBack := hrun.inv .restart fun _ _ hs hok ha => hs.act hok.2 ha
  refine ⟨hsound.logs.beginsFirst, fun x => ?_⟩
  have hagree : ∀ e ∈ entriesAt x log, Lost s.log e.writer = Lost log e.writer ∧
      Committed s.log e.writer = Committed log e.writer := by
    intro e he
    obtain ⟨r, hr, hwriter⟩ := exists_logTid he
    exact hwriter ▸ ⟨hsince.lost r hr, hsince.committed r hr⟩
  rcases h.row x with ⟨hno, hredo⟩ | hfirst
  · obtain ⟨bs, work, hrow⟩ := hsound.row x
    obtain ⟨es, v, hes, htells, -⟩ := hrow.tells
    obtain ⟨recs, hlog, hrecs⟩ := @TxnSystem.restart_log log
    have hvalue : (TxnSystem.restart log).rows x = keptValue (Committed s.log) none (entriesAt x log) := by
      rw [TxnSystem.restart_rows, recover_rows h.beginsFirst, Replay.replay_of_noLost hno, hredo]
      exact (Replay.keptValue_congr fun e he => (hagree e he).2).symm
    have hno' : NoLost (Lost s.log) (entriesAt x log) := hno.congr fun e he => (hagree e he).1
    rw [hlog, hrecs.entriesAt hno] at hes
    rw [hvalue] at htells
    rw [RowFound, hes]
    rcases htells.noLost_or_firstLost hno' (hrow.fate hsound.logs) (hrow.lost hsound.logs) with ⟨rfl, hall⟩ | hfirst
    · left
      have hentries : es = Replay.entriesOf bs := htells.entries.trans (List.append_nil _)
      have hstand : ∀ b ∈ bs, b.takenBack = false := by
        intro b hb
        obtain ⟨t, -, hfinished⟩ := hrow.done b hb
        by_contra hback
        rw [Bool.not_eq_false] at hback
        rw [hback] at hfinished
        exact (hnone t).2 hfinished
      rw [hentries]
      refine ⟨Replay.NoLost.append.mpr ⟨hno', Replay.noLost_entriesOf hall⟩, ?_⟩
      rw [Replay.redo_append, hredo, Replay.keptValue_append, Replay.redo_entriesOf hstand,
        Replay.keptValue_entriesOf fun b hb => hrow.fate hsound.logs b hb (hall b hb)]
      exact congrArg (Replay.Block.valueOf · bs) (Replay.keptValue_congr fun e he => (hagree e he).2).symm
    · exact .inr hfirst
  · obtain ⟨ext, hext⟩ := hsince.sub
    have hentries : entriesAt x s.log = entriesAt x log ++ entriesAt x ext := by rw [← hext, entriesAt_append]
    rw [RowFound, hentries]
    exact .inr (hfirst.append hagree)

theorem crash (h : DiskSound log) (hrun : TxnSteps fd (OnlyForward fd) (.restart log) s) {n : Nat} (hn : s.onDisk ≤ n) :
    DiskSound (s.log.take n) := by
  have hsince : s.Since log := hrun.inv .restart fun _ _ hs _ ha => hs.act ha
  obtain ⟨recs, hlog, hrecs⟩ := @TxnSystem.restart_log log
  by_cases hle : (TxnSystem.restart log).log.length ≤ n
  · obtain ⟨s₁, hrun₁, hlog₁⟩ := TxnSystem.run_prefix hrun hle
    rw [← hlog₁]
    exact h.run hrun₁
  · obtain ⟨rest, hrest⟩ := TxnSystem.log_prefix hrun
    have hdisk := hsince.onDisk.trans hn
    rw [← hrest, List.take_append_of_le_length (Nat.le_of_not_le hle), hlog, List.take_append,
      List.take_of_length_le hdisk]
    exact h.restartRecords (hrecs.take _)

end DiskSound

/-- After every sequence of crashes and restarts in which nothing is rolled back at run time, recovery gives the rows of
the committed transactions exactly when its compensation records fit into the log buffer, and no row was overwritten by
a committed transaction behind one in flight. -/
theorem restarts_recovered_iff (h : Restarts fd log) (hfile : IsLogFile log file) :
    RecoversTo file (committedRows log) ↔
      UndoFits log ∧ ∀ x, ¬ Overwritten (InFlight log) (Committed log) (entriesAt x log) := by
  have hsound : DiskSound log := by
    clear hfile
    induction h with
    | empty => exact .empty
    | crash _ _ _ hrun hn ih => exact ih.crash hrun hn
  exact hfile.recoversTo_iff.trans (and_congr_right fun _ => forall_congr' fun x => hsound.recovered_iff)

/-- A process in which nothing is rolled back, and in which locks wait for the end records, may crash at any point:
recovery gives the rows of the committed transactions, if only its compensation records fit into the log buffer. -/
theorem waits_recovered (hrun : TxnSteps fd (fun s a => OnlyForward fd s a ∧ s.Waits fd a) (.restart []) s) {n : Nat}
    (hn : s.onDisk ≤ n) (hfile : IsLogFile (s.log.take n) file) :
    RecoversTo file (committedRows (s.log.take n)) ↔ UndoFits (s.log.take n) := by
  have hforward : TxnSteps fd (OnlyForward fd) (.restart []) s :=
    Relation.ReflTransGen.mono (fun _ _ hstep => hstep.imp fun _ ha => ⟨ha.1.1, ha.2⟩) _ _ hrun
  have hdisk : DiskSound (s.log.take n) := DiskSound.empty.crash hforward hn
  have hinv : s.StrictInv fd := hrun.inv .restart fun _ _ hs hok ha => hs.act hok.1.1 hok.2 ha
  have hsound := (@TxnSystem.Sound.restart fd _ List.Pairwise.nil).run (fun _ _ hok => hok.1) hforward
  refine hfile.recoversTo_iff.trans (and_iff_left fun x => hdisk.recovered_iff.mpr ?_)
  rintro ⟨front, t, c, rest, hes, -, hflight, ⟨t', c', hmem, hcommitted⟩, -⟩
  have hnot := hinv.unclobbered hsound.logs.beginsFirst hn front t c rest hes hflight t' c' hmem
  exact Bool.false_ne_true (hnot.symm.trans hcommitted)

/-- Two transactions insert rows, and one of them has committed. -/
def insertBeside : List TxnAction :=
  [.begin 1, .begin 2, .lock 1 (.ixOnTable 1 3), .lock 2 (.ixOnTable 2 3), .logWrite 2 (insertAtFirst [7]),
    .write 2 (insertAtFirst [7]), .lock 2 (.exclusiveOnRecord 2 ⟨1, 0⟩ 3), .logWrite 1 (.insert [8] ⟨1, 1⟩ [116]),
    .write 1 (.insert [8] ⟨1, 1⟩ [116]), .release 2 true, .unlock 2 (.table 3), .unlock 2 (.record 3 ⟨1, 0⟩),
    .endRecord 2 true, .flushLog 2 true]

/-- The committed row is recovered, and the other one is gone. -/
theorem waits_recovered_insert : ∃ file, RecoversTo file
      (committedRows (((TxnSystem.restart []).actAll oneTable insertBeside).log.take 5)) ∧
    committedRows (((TxnSystem.restart []).actAll oneTable insertBeside).log.take 5) ⟨[116], ⟨1, 0⟩⟩ = some [7] ∧
    committedRows (((TxnSystem.restart []).actAll oneTable insertBeside).log.take 5) ⟨[116], ⟨1, 1⟩⟩ = none := by
  have hrun : TxnSteps oneTable (fun s a => OnlyForward oneTable s a ∧ s.Waits oneTable a) (.restart [])
      ((TxnSystem.restart []).actAll oneTable insertBeside) := .of_actions (by decide)
  have hfile := @isLogFile_records (((TxnSystem.restart []).actAll oneTable insertBeside).log.take 5)
    [.begin 1, .begin 2, .fromWriteSet 2 (.insert [7] ⟨1, 0⟩ [116]), .fromWriteSet 1 (.insert [8] ⟨1, 1⟩ [116]),
      .commit 2] 1 (fun _ => -1) (by decide +kernel) (by decide +kernel)
  exact ⟨_, (waits_recovered hrun (by decide) hfile).mpr (by decide), by decide, by decide⟩

/-- A transaction has inserted a row when the process crashes. -/
def insertInFlight : List TxnAction :=
  [.begin 1, .lock 1 (.ixOnTable 1 3), .logWrite 1 (insertAtFirst [7]), .write 1 (insertAtFirst [7])]

/-- The next process has another one at the same place. -/
def insertAgain : List TxnAction :=
  [.begin 2, .lock 2 (.ixOnTable 2 3), .logWrite 2 (insertAtFirst [8]), .write 2 (insertAtFirst [8]),
    .lock 2 (.exclusiveOnRecord 2 ⟨1, 0⟩ 3), .release 2 true, .unlock 2 (.table 3), .unlock 2 (.record 3 ⟨1, 0⟩),
    .endRecord 2 true, .flushLog 2 true]

def crashedOnce : List (LogRecord Int) := ((TxnSystem.restart []).actAll oneTable insertInFlight).log.take 2

def crashedTwice : List (LogRecord Int) := ((TxnSystem.restart crashedOnce).actAll oneTable insertAgain).log.take 6

/-- The second recovery undoes the first insert once more, and the committed row is gone. -/
theorem restarts_recovered_twice : ∃ file, Restarts oneTable crashedTwice ∧ IsLogFile crashedTwice file ∧
    (RecoveryManager.recover crashedTwice).1.rows (insertAtFirst [8]).place = none ∧
    ¬ ∀ x, ¬ Overwritten (InFlight crashedTwice) (Committed crashedTwice) (entriesAt x crashedTwice) := by
  have hfile₁ := @isLogFile_records crashedOnce [.begin 1, .fromWriteSet 1 (.insert [7] ⟨1, 0⟩ [116])] 1 (fun _ => -1)
    (by decide +kernel) (by decide +kernel)
  have hfile₂ := @isLogFile_records crashedTwice [.begin 1, .fromWriteSet 1 (.insert [7] ⟨1, 0⟩ [116]),
    .clr 1 (.insert [7] ⟨1, 0⟩ [116]), .begin 2, .fromWriteSet 2 (.insert [8] ⟨1, 0⟩ [116]), .commit 2] 1 (fun _ => -1)
    (by decide +kernel) (by decide +kernel)
  have hfirst : Restarts oneTable crashedOnce := .crash .empty ⟨by decide, [], by simp, rfl, rfl⟩
    (by decide) (.of_actions (by decide)) (by decide)
  have hsecond : Restarts oneTable crashedTwice :=
    .crash hfirst hfile₁ (by decide) (.of_actions (by decide)) (by decide)
  have hgone : (RecoveryManager.recover crashedTwice).1.rows (insertAtFirst [8]).place = none := by decide
  refine ⟨_, hsecond, hfile₂, hgone, fun hall => ?_⟩
  have hrow := (hfile₂.recoversTo_iff.mp ((restarts_recovered_iff hsecond hfile₂).mpr ⟨by decide, hall⟩)).2
    (insertAtFirst [8]).place
  rw [hgone] at hrow
  exact absurd hrow (by decide)

end Rmdb
