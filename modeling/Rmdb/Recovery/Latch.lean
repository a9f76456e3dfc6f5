-- SUMMARY: The latch of the log manager, and when a call waits for a latch that its own thread holds.
import Rmdb.Recovery.LogManager

/-!
# The latch of the log manager

All `gen_log_*` functions call `add_log_to_buffer` between `latch_.lock()` and `latch_.unlock()`. It
does not take the latch itself, but `flush_log_to_disk`, which it calls when the buffer is full, does:
the latch is a `std::mutex`, and the thread waits for itself.

Here the latch is part of the state. A call that never returns is `none`.
-/

namespace Rmdb

/-- The log manager, and the thread that holds `latch_`. -/
structure LatchedLog where
  log : LogManager
  latch : Option Nat

/-- The calls of `LogManager`. -/
inductive LogCall where
  | gen (call : GenLog Int32)
  | flush

namespace LatchedLog

/-- `latch_.lock()`. A thread that holds the latch waits forever. So would any other one: when a call
has returned the latch is free, and this call is the only one that is running. -/
def lock (s : LatchedLog) (thread : Nat) : Option LatchedLog :=
  match s.latch with
  | none => some { s with latch := some thread }
  | some _ => none

/-- `latch_.unlock()`. -/
def unlock (s : LatchedLog) : LatchedLog := { s with latch := none }

def flushLogToDisk (s : LatchedLog) (thread : Nat) : Option LatchedLog := do
  let s ← s.lock thread
  let s := { s with log := s.log.flushLogToDisk }
  some s.unlock

def addLogToBuffer (s : LatchedLog) (thread : Nat) (log : LogRecord Int32) : Option LatchedLog := do
  let s ← if s.log.isFull log.logTotLen then s.flushLogToDisk thread else some s
  some { s with log := { s.log with
    buffer := log.serialize s.log.buffer s.log.offset
    offset := s.log.offset + log.logTotLen.toNat } }

/-- `gen_log_bein`, `gen_log_commit`, `gen_log_abort`, `gen_log_from_write_set` and the three functions
for undoing. -/
def genLog (s : LatchedLog) (thread : Nat) (call : GenLog Int32) : Option LatchedLog := do
  let prevLsn := s.log.soFarLsn call.tid
  let s ← s.lock thread
  let lsn := s.log.globalLsn
  let s := { s with log := { s.log with globalLsn := lsn + 1 } }
  let s ← s.addLogToBuffer thread (call.record lsn prevLsn)
  let s := s.unlock
  some { s with log := { s.log with soFarLsn := call.soFarLsn lsn s.log.soFarLsn } }

def call (s : LatchedLog) (thread : Nat) : LogCall → Option LatchedLog
  | .gen call => s.genLog thread call
  | .flush => s.flushLogToDisk thread

/-- The calls one after the other, each with its thread. -/
def calls (s : LatchedLog) : List (Nat × LogCall) → Option LatchedLog
  | [] => some s
  | (thread, call) :: rest => do
    let s ← s.call thread call
    s.calls rest

end LatchedLog

-- ---------------------------------------------------------------------------
-- Lengths
-- ---------------------------------------------------------------------------

/-- The length of the record is an `int`. -/
def LogCall.Admitted : LogCall → Prop
  | gen call => call.size < 2147483648
  | flush => True

/-- What is added between two flushes fits into the buffer, which has `used` bytes already. -/
def FitsBuffer : Nat → List (Nat × LogCall) → Prop
  | _, [] => True
  | _, (_, .flush) :: rest => FitsBuffer 0 rest
  | used, (_, .gen call) :: rest =>
    used + call.size ≤ logBufferSize ∧ FitsBuffer (used + call.size) rest

instance : (c : LogCall) → Decidable c.Admitted
  | .gen call => inferInstanceAs (Decidable (call.size < 2147483648))
  | .flush => inferInstanceAs (Decidable True)

instance FitsBuffer.decidable : (used : Nat) → (cs : List (Nat × LogCall)) →
    Decidable (FitsBuffer used cs)
  | _, [] => inferInstanceAs (Decidable True)
  | _, (_, .flush) :: rest => FitsBuffer.decidable 0 rest
  | used, (_, .gen call) :: rest =>
    have := FitsBuffer.decidable (used + call.size) rest
    inferInstanceAs (Decidable (used + call.size ≤ logBufferSize ∧ FitsBuffer (used + call.size) rest))

-- ---------------------------------------------------------------------------
-- One call
-- ---------------------------------------------------------------------------

namespace LatchedLog

variable {s : LatchedLog} {thread : Nat} {call : GenLog Int32} {cs : List (Nat × LogCall)}

/-- With the latch explicit a call does what it does as one step. -/
theorem genLog_eq (hfree : s.latch = none) :
    s.genLog thread call = (s.log.genLog call).map fun log => ⟨log, none⟩ := by
  obtain ⟨m, latch⟩ := s
  obtain rfl : latch = none := hfree
  cases hfull : m.isFull (call.record m.globalLsn (m.soFarLsn call.tid)).logTotLen with
  | true =>
    have hlog : { m with globalLsn := m.globalLsn + 1 }.isFull
        (call.record m.globalLsn (m.soFarLsn call.tid)).logTotLen = true := hfull
    simp [genLog, lock, addLogToBuffer, flushLogToDisk, LogManager.genLog, LogManager.recordOf,
      LogManager.addLogToBuffer, hlog]
  | false =>
    have hlog : { m with globalLsn := m.globalLsn + 1 }.isFull
        (call.record m.globalLsn (m.soFarLsn call.tid)).logTotLen = false := hfull
    simp [genLog, lock, unlock, addLogToBuffer, LogManager.genLog, LogManager.recordOf,
      LogManager.addLogToBuffer, hlog]

theorem flushLogToDisk_eq (hfree : s.latch = none) :
    s.flushLogToDisk thread = some ⟨s.log.flushLogToDisk, none⟩ := by
  obtain ⟨m, latch⟩ := s
  obtain rfl : latch = none := hfree
  rfl

/-- A record is added exactly when there is room for it. -/
theorem genLog_room (hfree : s.latch = none) (hsize : call.size < 2147483648)
    (hroom : s.log.offset + call.size ≤ logBufferSize) :
    ∃ s', s.genLog thread call = some s' ∧ s'.latch = none ∧
      s'.log.offset = s.log.offset + call.size := by
  have htot := call.record_logTotLen s.log.globalLsn (s.log.soFarLsn call.tid)
  have hnat : (UInt32.ofNat call.size).toNat = call.size := by
    rw [UInt32.toNat_ofNat']
    omega
  have hfull : { s.log with globalLsn := s.log.globalLsn + 1 }.isFull (UInt32.ofNat call.size) = false := by
    rw [LogManager.isFull, UInt32.toInt_toInt32 (by omega), hnat, decide_eq_false_iff_not]
    show ¬ ((s.log.offset : Int) + call.size > logBufferSize)
    omega
  rw [genLog_eq hfree]
  simp [LogManager.genLog, LogManager.recordOf, LogManager.addLogToBuffer, htot, hfull, hnat]

theorem genLog_noRoom (hfree : s.latch = none) (hsize : call.size < 2147483648)
    (hroom : ¬ s.log.offset + call.size ≤ logBufferSize) : s.genLog thread call = none := by
  have htot := call.record_logTotLen s.log.globalLsn (s.log.soFarLsn call.tid)
  have hnat : (UInt32.ofNat call.size).toNat = call.size := by
    rw [UInt32.toNat_ofNat']
    omega
  have hfull : { s.log with globalLsn := s.log.globalLsn + 1 }.isFull (UInt32.ofNat call.size) = true := by
    rw [LogManager.isFull, UInt32.toInt_toInt32 (by omega), hnat, decide_eq_true_iff]
    show (s.log.offset : Int) + call.size > logBufferSize
    omega
  rw [genLog_eq hfree]
  simp [LogManager.genLog, LogManager.recordOf, LogManager.addLogToBuffer, htot, hfull]

-- ---------------------------------------------------------------------------
-- Any calls
-- ---------------------------------------------------------------------------

theorem calls_isSome_iff (hfree : s.latch = none) (hadmitted : ∀ c ∈ cs, c.2.Admitted) :
    (s.calls cs).isSome ↔ FitsBuffer s.log.offset cs := by
  induction cs generalizing s with
  | nil => simp [calls, FitsBuffer]
  | cons c rest ih =>
    obtain ⟨thread, c⟩ := c
    have hrest : ∀ c ∈ rest, c.2.Admitted := fun c hc => hadmitted c (List.mem_cons_of_mem _ hc)
    have hc : c.Admitted := hadmitted (thread, c) List.mem_cons_self
    cases c with
    | flush =>
      have hflush := @flushLogToDisk_eq s thread hfree
      simp only [calls, LatchedLog.call, hflush, Option.bind_eq_bind, Option.bind_some, FitsBuffer]
      exact ih rfl hrest
    | gen call =>
      by_cases hroom : s.log.offset + call.size ≤ logBufferSize
      · obtain ⟨s', hgen, hfree', hoffset⟩ := @genLog_room s thread call hfree hc hroom
        simp only [calls, LatchedLog.call, hgen, Option.bind_eq_bind, Option.bind_some, FitsBuffer,
          hroom, true_and]
        rw [← hoffset]
        exact ih hfree' hrest
      · have hgen := @genLog_noRoom s thread call hfree hc hroom
        simp [calls, LatchedLog.call, hgen, FitsBuffer, hroom]

theorem calls_append (s : LatchedLog) (cs cs' : List (Nat × LogCall)) :
    s.calls (cs ++ cs') = (s.calls cs).bind fun s => s.calls cs' := by
  induction cs generalizing s with
  | nil => rfl
  | cons c rest ih =>
    cases hc : s.call c.1 c.2 with
    | none => simp [calls, hc]
    | some s' => simp [calls, hc, ih]

end LatchedLog

/-- What fits into the buffer is no longer than an `int` can say. -/
theorem FitsBuffer.admitted {used : Nat} {cs : List (Nat × LogCall)} (h : FitsBuffer used cs) :
    ∀ c ∈ cs, c.2.Admitted := by
  induction cs generalizing used with
  | nil => simp
  | cons c rest ih =>
    obtain ⟨thread, c⟩ := c
    cases c with
    | flush => exact List.forall_mem_cons.mpr ⟨trivial, ih h⟩
    | gen call =>
      have hbuffer : logBufferSize = 4194304 := rfl
      have hroom := h.1
      refine List.forall_mem_cons.mpr ⟨?_, ih h.2⟩
      show call.size < 2147483648
      omega

/-- Whatever calls are made, with records of any length, by any threads: none of them waits for the latch
forever exactly when the records between two flushes fit into the buffer together. -/
theorem log_calls_return_iff (lsn : Int32) (file : List UInt8) (cs : List (Nat × LogCall))
    (hadmitted : ∀ c ∈ cs, c.2.Admitted) :
    (LatchedLog.calls ⟨.start lsn file, none⟩ cs).isSome ↔ FitsBuffer 0 cs :=
  LatchedLog.calls_isSome_iff rfl hadmitted

/-- A transaction that begins, inserts one record and commits. -/
theorem log_calls_return_small : (LatchedLog.calls ⟨.start 0 [], none⟩
    [(1, .gen (.begin 1)), (1, .gen (.fromWriteSet 1 (.insert [1, 2, 3, 4] ⟨1, 0⟩ [116]))),
      (1, .gen (.commit 1)), (1, .flush)]).isSome :=
  (log_calls_return_iff 0 [] _ (by decide)).mpr (by decide)

theorem FitsBuffer.replicate {used n : Nat} {c : GenLog Int32} (h : FitsBuffer used (.replicate n (1, .gen c)))
    (hused : used ≤ logBufferSize) : used + n * c.size ≤ logBufferSize := by
  induction n generalizing used with
  | zero => omega
  | succ n ih =>
    have := ih h.2 h.1
    rw [Nat.succ_mul]
    omega

/-- The log record of one insert with a record of `RM_MAX_RECORD_SIZE` bytes. -/
def largeInsert : GenLog Int32 := .fromWriteSet 1 (.insert (List.replicate 2048 1) ⟨1, 0⟩ [116])

/-- A transaction inserts 2004 of them: the buffer is full, and the thread waits for itself. -/
theorem log_calls_lock_out : (∀ c ∈ List.replicate 2004 (1, LogCall.gen largeInsert), c.2.Admitted) ∧
    LatchedLog.calls ⟨.start 0 [], none⟩ (.replicate 2004 (1, .gen largeInsert)) = none := by
  have hsize : largeInsert.size = 2093 := by
    simp only [largeInsert, GenLog.size, LoggedWrite.size, List.length_replicate, List.length_cons,
      List.length_nil]
  have hadmitted : ∀ c ∈ List.replicate 2004 (1, LogCall.gen largeInsert), c.2.Admitted := by
    intro c hc
    obtain rfl := List.eq_of_mem_replicate hc
    show largeInsert.size < 2147483648
    omega
  refine ⟨hadmitted, ?_⟩
  rw [← Option.not_isSome_iff_eq_none, LatchedLog.calls_isSome_iff rfl hadmitted]
  intro hfits
  have hle := FitsBuffer.replicate hfits (Nat.zero_le _)
  have hbuffer : logBufferSize = 4194304 := rfl
  omega

end Rmdb
