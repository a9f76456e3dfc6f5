-- SUMMARY: The counters for log sequence numbers and transaction ids, over any number of crashes and restarts.
import Rmdb.Recovery.LogManager

/-!
# Identifiers over restarts

`global_lsn_` and `next_txn_id_` live in memory. After a crash `analyze` sets them from the
records that it reads in the log file. Sequence numbers are given out under the latch of the log, so
records stand in the log in the order of their numbers. Transaction ids are given out before the
`BEGIN` record is logged, and other transactions may come in between.

Both counters are `int`s, and so are the size of the file and the offsets into it. Of a file of `2 ^ 31`
bytes or more `analyze` does not reach the end, and the counters start again too early.
-/

namespace Rmdb

-- ---------------------------------------------------------------------------
-- The server
-- ---------------------------------------------------------------------------

/-- A running server, as far as it is about identifiers. -/
structure Server where
  log : LogManager
  nextTxnId : Int32
  /-- The ids of the transactions that have one but whose `BEGIN` is not logged yet. -/
  beginning : List Int32

namespace Server

/-- The server once `analyze` has read the log file. -/
def recover (file : List UInt8) (a : Analyzed Int32) : Server where
  log := .start a.nextLsn file
  nextTxnId := a.nextTxnId
  beginning := []

/-- `auto txn_id = next_txn_id_++` in `begin`. -/
def takeTxnId (s : Server) : Server :=
  { s with nextTxnId := s.nextTxnId + 1, beginning := s.nextTxnId :: s.beginning }

/-- The server when a call has put its record into the log. -/
def logged (s : Server) (m : LogManager) (call : GenLog Int32) : Server :=
  { s with
    log := m
    beginning := match call with
      | .begin tid => s.beginning.erase tid
      | _ => s.beginning }

def flushLogToDisk (s : Server) : Server := { s with log := s.log.flushLogToDisk }

end Server

/-- The server, with the records that were on disk after the last flush and those that were added. -/
structure ServerState where
  server : Server
  onDisk : List (LogRecord Int32)
  logs : List (LogRecord Int32)

/-- What happens next. A crash leaves so many of the records on disk. -/
inductive ServerAct where
  | takeTxnId
  | genLog (call : GenLog Int32)
  | flush
  | crash (j : Nat)

/-- One step of the system. Recovery logs what it undoes with `genLog`, too. A crash may leave any number of
the records in the buffer on disk, and `analyze` reads the file that is left. -/
inductive ServerStep : ServerState → ServerAct → ServerState → Prop where
  | takeTxnId {s : Server} {onDisk logs : List (LogRecord Int32)} :
    ServerStep ⟨s, onDisk, logs⟩ .takeTxnId ⟨s.takeTxnId, onDisk, logs⟩
  | genLog {s : Server} {onDisk logs : List (LogRecord Int32)} {call : GenLog Int32} {m : LogManager} :
    (∀ tid, call = .begin tid → tid ∈ s.beginning) → s.log.Fits call → s.log.genLog call = some m →
    ServerStep ⟨s, onDisk, logs⟩ (.genLog call) ⟨s.logged m call, onDisk, logs ++ [s.log.recordOf call]⟩
  | flush {s : Server} {onDisk logs : List (LogRecord Int32)} :
    ServerStep ⟨s, onDisk, logs⟩ .flush ⟨s.flushLogToDisk, logs, logs⟩
  | crash {s : Server} {onDisk logs : List (LogRecord Int32)} {j fuel : Nat} {r : ReadState} {a : Analyzed Int32} :
    onDisk.length ≤ j → r.Starts → analyzeLoop (logBytes (logs.take j)) fuel r .init = some a →
    ServerStep ⟨s, onDisk, logs⟩ (.crash j) ⟨.recover (logBytes (logs.take j)) a, logs.take j, logs.take j⟩

/-- A system that started with an empty log, and whose steps are all of this kind. -/
inductive ServerRun (allowed : ServerState → ServerAct → Prop) : ServerState → Prop where
  | start : ServerRun allowed ⟨.recover [] .init, [], []⟩
  | step {x y : ServerState} {act : ServerAct} : ServerRun allowed x → allowed x act → ServerStep x act y →
    ServerRun allowed y

/-- No number has wrapped around: neither the counter that is used, nor the size of the file that is read. -/
def InRange (x : ServerState) : ServerAct → Prop
  | .takeTxnId => 0 ≤ x.server.nextTxnId.toInt
  | .genLog _ => 0 ≤ x.server.log.globalLsn.toInt
  | .flush => True
  | .crash j => (logBytes (x.logs.take j)).length < 2147483648

/-- The sequence numbers in a log increase, and no two `BEGIN` records are of the same transaction id. -/
def IdentifiersUnique (logs : List (LogRecord Int32)) : Prop :=
  (logs.Pairwise fun x y => x.lsn < y.lsn) ∧
    (logs.filter fun x => x.logType = .begin).Pairwise fun x y => x.logTid ≠ y.logTid

instance (logs : List (LogRecord Int32)) : Decidable (IdentifiersUnique logs) :=
  inferInstanceAs (Decidable (_ ∧ _))

-- ---------------------------------------------------------------------------
-- Analyze
-- ---------------------------------------------------------------------------

/-- A counter that is counted up is above what it was, or it has wrapped around. -/
theorem toInt_lt_add_one {x y : Int32} (hle : x.toInt ≤ y.toInt) (hrange : 0 ≤ (y + 1).toInt) :
    x.toInt < (y + 1).toInt := by
  have hadd : (y + 1).toInt = (y.toInt + 1).bmod (2 ^ 32) := Int32.toInt_add y 1
  have hlow := y.le_toInt
  have hhigh := y.toInt_lt
  rw [hadd] at hrange ⊢
  by_cases hmax : y.toInt + 1 < 2147483648
  · rw [Int.bmod_eq_of_le (by omega) (by omega)]
    omega
  · have hwrap : (y.toInt + 1).bmod (2 ^ 32) = y.toInt + 1 - 4294967296 := by
      rw [show y.toInt = 2147483647 by omega]
      decide
    omega

namespace Analyzed

variable {a : Analyzed Int32} {offset : Int} {logs : List (LogRecord Int32)} {log : LogRecord Int32}

/-- `last_txn` is at least every transaction id in the log. -/
theorem le_lastTxn_addAll : a.lastTxn.toInt ≤ (a.addAll offset logs).lastTxn.toInt ∧
    ∀ log ∈ logs, log.logTid.toInt ≤ (a.addAll offset logs).lastTxn.toInt := by
  induction logs generalizing a offset with
  | nil => exact ⟨le_rfl, by simp⟩
  | cons log logs ih =>
    obtain ⟨hle, hall⟩ := @ih (a.add offset log.toLogHeader) (offset + log.logTotLen.toNat)
    have hadd : a.lastTxn.toInt ≤ (a.add offset log.toLogHeader).lastTxn.toInt ∧
        log.logTid.toInt ≤ (a.add offset log.toLogHeader).lastTxn.toInt := by
      simp only [add, Int32.lt_iff_toInt_lt]
      split <;> omega
    refine ⟨hadd.1.trans hle, fun l hl => ?_⟩
    rcases List.mem_cons.mp hl with rfl | hl
    · exact hadd.2.trans hle
    · exact hall l hl

/-- `last_lsn` is the largest sequence number if the last record has it. -/
theorem le_lastLsn_addAll (hsorted : logs.Pairwise fun x y => x.lsn < y.lsn) :
    ∀ log ∈ logs, log.lsn.toInt ≤ (a.addAll offset logs).lastLsn.toInt := by
  induction logs generalizing a offset with
  | nil => simp
  | cons log logs ih =>
    obtain ⟨hlog, htail⟩ := List.pairwise_cons.mp hsorted
    intro l hl
    rcases List.mem_cons.mp hl with rfl | hl
    · cases logs with
      | nil => exact le_rfl
      | cons next logs =>
        have hlt := Int32.lt_iff_toInt_lt.mp (hlog next List.mem_cons_self)
        exact hlt.le.trans (ih htail next List.mem_cons_self)
    · exact ih htail l hl

end Analyzed

/-- Of a file that is not too long `analyze` gathers all records. -/
theorem eq_of_analyzeLoop {logs : List (LogRecord Int32)} {fuel : Nat} {r : ReadState} {a : Analyzed Int32}
    (hsize : (logBytes logs).length < 2147483648) (hvalid : ∀ log ∈ logs, log.Valid) (hr : r.Starts)
    (h : analyzeLoop (logBytes logs) fuel r .init = some a) : a = Analyzed.init.addAll 0 logs := by
  have hmono := analyzeLoop_mono h (logs.length + 1)
  rw [analyzeLoop_logBytes hsize hvalid hr.offset hr.logHdr (by omega)] at hmono
  exact (Option.some.inj hmono).symm

-- ---------------------------------------------------------------------------
-- The invariant
-- ---------------------------------------------------------------------------

/-- The ids of the transactions that the log says have begun. -/
def begunIds (logs : List (LogRecord Int32)) : List Int32 :=
  (logs.filter fun log => log.logType = .begin).map fun log => log.logTid

theorem begunIds_append (logs logs' : List (LogRecord Int32)) :
    begunIds (logs ++ logs') = begunIds logs ++ begunIds logs' := by
  simp [begunIds]

/-- What holds of the records that were added, and of the counters until they wrap around. -/
structure ServerInv (x : ServerState) : Prop where
  sorted : x.logs.Pairwise fun x y => x.lsn < y.lsn
  lsn : 0 ≤ x.server.log.globalLsn.toInt → ∀ l ∈ x.logs, l.lsn.toInt < x.server.log.globalLsn.toInt
  nodup : (begunIds x.logs ++ x.server.beginning).Nodup
  tid : 0 ≤ x.server.nextTxnId.toInt →
    ∀ t ∈ begunIds x.logs ++ x.server.beginning, t.toInt < x.server.nextTxnId.toInt

/-- The log manager keeps its invariant in every run, in range or not. -/
theorem ServerRun.log_inv {allowed : ServerState → ServerAct → Prop} {x : ServerState} (hrun : ServerRun allowed x) :
    x.server.log.Inv x.onDisk x.logs := by
  induction hrun with
  | start => exact LogManager.Inv.start (fun log hlog => absurd hlog List.not_mem_nil) _
  | step _ _ hstep ih =>
    cases hstep with
    | takeTxnId => exact ih
    | genLog _ hfits hgen => exact ((LogStep.append hfits hgen).inv ih).1
    | flush => exact ih.flushLogToDisk
    | crash => exact LogManager.Inv.start (fun log hlog => ih.valid log (List.mem_of_mem_take hlog)) _

namespace ServerInv

variable {s : Server} {onDisk logs : List (LogRecord Int32)} {x y : ServerState} {act : ServerAct}

/-- What `analyze` sets the counters to is above everything in the log. -/
theorem recover (hsorted : logs.Pairwise fun x y => x.lsn < y.lsn) (hnodup : (begunIds logs).Nodup)
    (file : List UInt8) : ServerInv ⟨.recover file (Analyzed.init.addAll 0 logs), logs, logs⟩ := by
  refine ⟨hsorted, fun hrange l hl => ?_, by simpa [Server.recover] using hnodup, fun hrange t ht => ?_⟩
  · exact toInt_lt_add_one (Analyzed.le_lastLsn_addAll hsorted l hl) hrange
  · have ht : t ∈ begunIds logs := by simpa [Server.recover] using ht
    obtain ⟨l, hl, rfl⟩ := List.mem_map.mp ht
    exact toInt_lt_add_one (Analyzed.le_lastTxn_addAll.2 l (List.mem_filter.mp hl).1) hrange

theorem takeTxnId (h : ServerInv ⟨s, onDisk, logs⟩) (hin : 0 ≤ s.nextTxnId.toInt) :
    ServerInv ⟨s.takeTxnId, onDisk, logs⟩ := by
  have hold := h.tid hin
  refine ⟨h.sorted, h.lsn, ?_, fun hrange t ht => ?_⟩
  · have hnew : s.nextTxnId ∉ begunIds logs ++ s.beginning := fun ht => absurd (hold _ ht) (lt_irrefl _)
    exact List.nodup_middle.mpr (List.nodup_cons.mpr ⟨hnew, h.nodup⟩)
  · refine toInt_lt_add_one ?_ hrange
    rcases List.mem_cons.mp (List.perm_middle.mem_iff.mp ht) with rfl | ht
    · exact le_rfl
    · exact (hold t ht).le

/-- A `BEGIN` record moves the id of its transaction from `beginning` to the log, other records leave both. -/
theorem begunIds_logged {call : GenLog Int32} {lsn prevLsn : Int32} {m : LogManager}
    (hcall : ∀ tid, call = .begin tid → tid ∈ s.beginning) :
    (begunIds [call.record lsn prevLsn] ++ (s.logged m call).beginning).Perm s.beginning := by
  cases call with
  | begin tid => exact (List.perm_cons_erase (hcall tid rfl)).symm
  | commit tid => exact List.Perm.refl _
  | abort tid => exact List.Perm.refl _
  | fromWriteSet tid write => cases write <;> exact List.Perm.refl _
  | clr tid write => cases write <;> exact List.Perm.refl _

theorem lsn_record {call : GenLog Int32} {lsn prevLsn : Int32} : (call.record lsn prevLsn).lsn = lsn := by
  cases call with
  | fromWriteSet tid write => cases write <;> rfl
  | clr tid write => cases write <;> rfl
  | _ => rfl

theorem genLog (h : ServerInv ⟨s, onDisk, logs⟩) (hin : 0 ≤ s.log.globalLsn.toInt) {call : GenLog Int32}
    (hcall : ∀ tid, call = .begin tid → tid ∈ s.beginning) {m : LogManager}
    (hlsn : m.globalLsn = s.log.globalLsn + 1) :
    ServerInv ⟨s.logged m call, onDisk, logs ++ [s.log.recordOf call]⟩ := by
  have hold := h.lsn hin
  have hperm : (begunIds (logs ++ [s.log.recordOf call]) ++ (s.logged m call).beginning).Perm
      (begunIds logs ++ s.beginning) := by
    rw [begunIds_append, List.append_assoc]
    exact (begunIds_logged hcall).append_left _
  refine ⟨?_, fun hrange l hl => ?_, hperm.nodup_iff.mpr h.nodup, fun hrange t ht => h.tid hrange t (hperm.mem_iff.mp ht)⟩
  · refine List.pairwise_append.mpr ⟨h.sorted, List.pairwise_singleton .., fun l hl new hnew => ?_⟩
    rw [List.mem_singleton.mp hnew, LogManager.recordOf, lsn_record]
    exact Int32.lt_iff_toInt_lt.mpr (hold l hl)
  · have hrange : 0 ≤ m.globalLsn.toInt := hrange
    show l.lsn.toInt < m.globalLsn.toInt
    rw [hlsn] at hrange ⊢
    refine toInt_lt_add_one ?_ hrange
    rcases List.mem_append.mp hl with hl | hl
    · exact (hold l hl).le
    · rw [List.mem_singleton.mp hl, LogManager.recordOf, lsn_record]

theorem step (h : ServerInv x) (hlog : x.server.log.Inv x.onDisk x.logs) (hstep : ServerStep x act y)
    (hin : InRange x act) : ServerInv y := by
  cases hstep with
  | takeTxnId => exact h.takeTxnId hin
  | genLog hcall hfits hgen =>
    obtain ⟨m, hgen', -, hlsn, -⟩ := hlog.genLog_state hfits
    cases hgen.symm.trans hgen'
    exact h.genLog hin hcall hlsn
  | flush => exact ⟨h.sorted, h.lsn, h.nodup, h.tid⟩
  | @crash s onDisk logs j fuel r a _ hr hloop =>
    -- What is on disk now is a prefix of what was logged.
    obtain rfl := eq_of_analyzeLoop hin (fun log hlog' => hlog.valid log (List.mem_of_mem_take hlog')) hr hloop
    have hsub : (logs.take j).Sublist logs := List.take_sublist ..
    refine recover (h.sorted.sublist hsub) ?_ _
    exact ((hsub.filter _).map _).nodup (List.nodup_append.mp h.nodup).1

theorem of_run (hrun : ServerRun InRange x) : ServerInv x := by
  induction hrun with
  | start => exact recover List.Pairwise.nil List.nodup_nil []
  | step hrun hin hstep ih => exact ih.step hrun.log_inv hstep hin

end ServerInv

/-- In every run over any number of crashes in which no number wraps around, the sequence numbers on disk
increase and no two `BEGIN` records on disk are of the same transaction id. -/
theorem identifiers_unique {x : ServerState} (hrun : ServerRun InRange x) : IdentifiersUnique x.onDisk := by
  have hinv := ServerInv.of_run hrun
  have hsub : x.onDisk.Sublist x.logs := hrun.log_inv.sub.sublist
  refine ⟨hinv.sorted.sublist hsub, ?_⟩
  have hnodup : (begunIds x.onDisk).Nodup := ((hsub.filter _).map _).nodup (List.nodup_append.mp hinv.nodup).1
  exact List.pairwise_map.mp hnodup

-- ---------------------------------------------------------------------------
-- Two runs
-- ---------------------------------------------------------------------------

section

variable {allowed : ServerState → ServerAct → Prop} {s : Server} {logs : List (LogRecord Int32)}

/-- A transaction gets its id, and its `BEGIN` is flushed. -/
theorem ServerRun.begin (hrun : ServerRun allowed ⟨s, logs, logs⟩) (hempty : s.log.offset = 0)
    (hid : allowed ⟨s, logs, logs⟩ .takeTxnId)
    (hlsn : allowed ⟨s.takeTxnId, logs, logs⟩ (.genLog (.begin s.nextTxnId))) (hflush : ∀ x, allowed x .flush) :
    ∃ s', ServerRun allowed ⟨s', logs ++ [s.log.recordOf (.begin s.nextTxnId)],
        logs ++ [s.log.recordOf (.begin s.nextTxnId)]⟩ ∧
      s'.log.offset = 0 ∧ s'.log.globalLsn = s.log.globalLsn + 1 := by
  have hroom : 0 + 24 ≤ logBufferSize := by decide
  have hfits : s.takeTxnId.log.Fits (.begin s.nextTxnId) := LogManager.fits_of_room trivial (by
    show s.log.offset + 24 ≤ logBufferSize
    rwa [hempty])
  obtain ⟨m, hgen, -, hnext, -⟩ := hrun.log_inv.genLog_state hfits
  have hbeginning : ∀ tid, GenLog.begin s.nextTxnId = .begin tid → tid ∈ s.takeTxnId.beginning := by
    intro tid h
    cases h
    exact List.mem_cons_self
  have hbegun := (hrun.step hid .takeTxnId).step hlsn (.genLog hbeginning hfits hgen)
  exact ⟨_, hbegun.step (hflush _) .flush, rfl, hnext⟩

/-- A crash behind the last record of the log, and what `analyze` makes of the file. -/
theorem ServerRun.crash (hrun : ServerRun allowed ⟨s, logs, logs⟩) (hcrash : allowed ⟨s, logs, logs⟩ (.crash logs.length))
    {fuel : Nat} {a : Analyzed Int32} (hloop : analyzeLoop (logBytes logs) fuel .zeros .init = some a) :
    ServerRun allowed ⟨.recover (logBytes logs) a, logs, logs⟩ := by
  rw [← List.take_length (l := logs)] at hloop
  have hstep := @ServerStep.crash s logs logs logs.length fuel .zeros a le_rfl ReadState.starts_zeros hloop
  rw [List.take_length] at hstep
  exact hrun.step hcrash hstep

end

/-- The record of the first transaction. -/
def firstBegin : LogRecord Int32 := .beginLogRecord 1 (-1) 1

/-- The first transaction begins. -/
theorem exists_firstBegin {allowed : ServerState → ServerAct → Prop} (hallowed : ∀ x act, InRange x act → allowed x act) :
    ∃ s, ServerRun allowed ⟨s, [firstBegin], [firstBegin]⟩ ∧ s.log.offset = 0 := by
  have hin : InRange ⟨.recover [] .init, [], []⟩ .takeTxnId := by
    show 0 ≤ (Analyzed.init.nextTxnId : Int32).toInt
    decide
  have hin' : InRange ⟨(Server.recover [] .init).takeTxnId, [], []⟩ (.genLog (.begin 1)) := by
    show 0 ≤ (Analyzed.init.nextLsn : Int32).toInt
    decide
  obtain ⟨s, hrun, hempty, -⟩ :=
    ServerRun.start.begin rfl (hallowed _ _ hin) (hallowed _ _ hin') fun x => hallowed x .flush trivial
  exact ⟨s, hrun, hempty⟩

/-- A crash after the first transaction has begun, and another transaction after the restart. -/
theorem identifiers_unique_restart : ∃ x, ServerRun InRange x ∧
    x.onDisk.map (fun l => (l.lsn, l.logTid)) = [(1, 1), (2, 2)] ∧ IdentifiersUnique x.onDisk := by
  obtain ⟨s₁, hrun₁, -⟩ := @exists_firstBegin InRange fun _ _ h => h
  have hloop : analyzeLoop (logBytes [firstBegin]) 2 .zeros .init = some (Analyzed.init.addAll 0 [firstBegin]) := by
    decide +kernel
  have hrun₂ := hrun₁.crash (by
    show (logBytes [firstBegin]).length < 2147483648
    decide +kernel) hloop
  obtain ⟨s₃, hrun₃, -, -⟩ := hrun₂.begin rfl
    (by
      show 0 ≤ (Analyzed.init.addAll 0 [firstBegin]).nextTxnId.toInt
      decide)
    (by
      show 0 ≤ (Analyzed.init.addAll 0 [firstBegin]).nextLsn.toInt
      decide)
    fun _ => trivial
  exact ⟨_, hrun₃, rfl, identifiers_unique hrun₃⟩

/-- Any number of transactions that begin after the first one. -/
theorem exists_begins_after (n : Nat) : ∃ s rest,
    ServerRun (fun _ _ => True) ⟨s, firstBegin :: rest, firstBegin :: rest⟩ ∧ s.log.offset = 0 ∧
      (logBytes (firstBegin :: rest)).length = 24 * (n + 1) := by
  induction n with
  | zero =>
    obtain ⟨s, hrun, hempty⟩ := @exists_firstBegin (fun _ _ => True) fun _ _ _ => trivial
    exact ⟨s, [], hrun, hempty, rfl⟩
  | succ n ih =>
    obtain ⟨s, rest, hrun, hempty, hbytes⟩ := ih
    obtain ⟨s', hrun', hempty', -⟩ := hrun.begin hempty trivial trivial fun _ => trivial
    refine ⟨s', rest ++ [s.log.recordOf (.begin s.nextTxnId)], hrun', hempty', ?_⟩
    rw [← List.cons_append, logBytes_append, List.length_append, hbytes]
    rfl

/-- Once the size of the log file has become a negative number, the restart does not read any of it, and the
next transaction has the id of the first one. -/
theorem identifiers_repeat_after {n : Nat} (hlong : 2147483648 ≤ 24 * (n + 1)) (hwrapped : 24 * (n + 1) < 4294967296) :
    ∃ x, ServerRun (fun _ _ => True) x ∧ (logBytes x.onDisk).length = 24 * (n + 2) ∧
      ¬ IdentifiersUnique x.onDisk := by
  obtain ⟨s, rest, hrun, -, hbytes⟩ := exists_begins_after n
  have hsize : getFileSize (logBytes (firstBegin :: rest)) < 0 := by
    have h := @getFileSize_wrapped (logBytes (firstBegin :: rest)) (by omega)
    omega
  have hrun₂ := hrun.crash trivial (@analyzeLoop_negative _ 0 .zeros .init hsize rfl)
  obtain ⟨s₃, hrun₃, -, -⟩ := hrun₂.begin rfl trivial trivial fun _ => trivial
  refine ⟨_, hrun₃, ?_, fun hunique => ?_⟩
  · rw [logBytes_append, List.length_append, hbytes]
    rfl
  · exact (List.pairwise_cons.mp hunique.2).1 firstBegin
      (List.mem_filter.mpr ⟨List.mem_append_right _ List.mem_cons_self, rfl⟩) rfl

/-- The log file has `2 ^ 31` bytes before the restart. -/
theorem identifiers_repeat : ∃ x, ServerRun (fun _ _ => True) x ∧ (logBytes x.onDisk).length = 24 * 89478487 ∧
    ¬ IdentifiersUnique x.onDisk :=
  @identifiers_repeat_after 89478485 (by decide) (by decide)

end Rmdb
