-- SUMMARY: Client sessions: requests, implicit and explicit transactions, commit and abort, and the log they leave behind.
import Rmdb.Recovery.LogRecord
import Rmdb.Transaction.LockManager

/-!
# Client sessions

`client_handler` of `rmdb.cpp` runs in one thread for each client. It remembers the id of the
client's transaction. A request first gets a transaction from `SetTransaction`: the one of the
last request if that is still active, else a new one. After the request an implicit
transaction is committed, but only on the path without an exception.

A statement takes locks and writes to tables while statements of other clients do the same.
Here it may ask for any locks and write anything, and it may end in any of the ways that
`client_handler` tells apart. `commit` and `abort` are single steps: what other clients do in between
only concerns other transactions.
-/

namespace Rmdb

abbrev ClientId := Nat

/-- `WType`. -/
inductive WType where
  | insertTuple
  | deleteTuple
  | updateTuple
  deriving DecidableEq, Repr

/-- The type of the record that `gen_log_from_write_set` makes. -/
def WType.logType : WType → LogType
  | insertTuple => .insert
  | deleteTuple => .delete
  | updateTuple => .update

/-- A write, with the number of the request that made it. -/
structure Write where
  request : Nat
  type : WType
  deriving DecidableEq, Repr

/-- What a request asks for. `ROLLBACK` does the same as `ABORT`. -/
inductive Command where
  | begin
  | commit
  | abort
  | statement
  deriving DecidableEq, Repr

/-- Where the thread of a client is: at `read`, in the `try` block, or at its end. -/
inductive Phase where
  | waiting
  | running (request : Nat) (cmd : Command)
  | ended
  deriving DecidableEq, Repr

/-- The local variables of `client_handler`. -/
structure Client where
  txnId : Option TxnId
  phase : Phase
  deriving DecidableEq, Repr

/-- The server with its clients. `tables` has the writes of each transaction that are in the tables.
`startedBy`, `requests` and `failed` are not in the code: who started a
transaction, how many requests there were, and which of them failed in an implicit transaction. -/
structure System where
  locks : LockState
  txnMode : TxnId → Bool
  writeSet : TxnId → List Write
  tables : TxnId → List Write
  nextTxnId : TxnId
  log : List (LogType × TxnId)
  clients : ClientId → Client
  startedBy : TxnId → Option ClientId
  requests : Nat
  failed : List Nat

/-- The state in which `get_transaction` finds a transaction that must not be used any more. -/
def TransactionState.isEnded : TransactionState → Bool
  | .committed => true
  | .aborted => true
  | _ => false

namespace System

def init : System where
  locks := .init
  txnMode := fun _ => false
  writeSet := fun _ => []
  tables := fun _ => []
  nextTxnId := 1
  log := []
  clients := fun _ => ⟨none, .waiting⟩
  startedBy := fun _ => none
  requests := 0
  failed := []

def stateOf (s : System) (t : TxnId) : TransactionState := (s.locks.txns t).state

def setState (s : System) (t : TxnId) (state : TransactionState) : System :=
  { s with locks := s.locks.call (.setState t state) }

def setPhase (s : System) (c : ClientId) (phase : Phase) : System :=
  { s with clients := Function.update s.clients c { s.clients c with phase := phase } }

-- ---------------------------------------------------------------------------
-- The transaction manager
-- ---------------------------------------------------------------------------

/-- `TransactionManager::begin`, called for a client by `SetTransaction`, which makes the
transaction an implicit one. -/
def begin (s : System) (c : ClientId) : System :=
  let t := s.nextTxnId
  { s with
    nextTxnId := t + 1
    locks := s.locks.setTxn t s.locks.lockTable ⟨t, .default, []⟩
    txnMode := Function.update s.txnMode t false
    writeSet := Function.update s.writeSet t []
    log := s.log ++ [(.begin, t)]
    clients := Function.update s.clients c { s.clients c with txnId := some t }
    startedBy := Function.update s.startedBy t (some c) }

/-- `release_locks`: the locks of the lock set are given back, then the set is cleared. -/
def releaseLocks (s : System) (t : TxnId) : System :=
  let locks := (s.locks.txns t).lockSet.foldl (fun locks id => locks.call (.unlock t id)) s.locks
  { s with locks := locks.setTxn t locks.lockTable { locks.txns t with lockSet := [] } }

/-- `TransactionManager::commit`. -/
def commit (s : System) (t : TxnId) : System :=
  let s := (s.setState t .committed).releaseLocks t
  { s with writeSet := Function.update s.writeSet t [], log := s.log ++ [(.commit, t)] }

/-- One round of the loop of `abort`: the last write is undone and the undoing is logged. -/
def rollback (s : System) (t : TxnId) : System :=
  match (s.writeSet t).getLast? with
  | none => s
  | some write =>
    { s with
      writeSet := Function.update s.writeSet t (s.writeSet t).dropLast
      tables := Function.update s.tables t (s.tables t).dropLast
      log := s.log ++ [(write.type.logType.setCLR, t)] }

def rollbacks (t : TxnId) : Nat → System → System
  | 0, s => s
  | k + 1, s => rollbacks t k (s.rollback t)

/-- `TransactionManager::abort`. -/
def abort (s : System) (t : TxnId) : System :=
  let s := rollbacks t (s.writeSet t).length (s.setState t .aborted)
  let s := s.releaseLocks t
  { s with writeSet := Function.update s.writeSet t [], log := s.log ++ [(.abort, t)] }

/-- `abort` when undoing a write throws after `k` writes. -/
def abortThrows (s : System) (t : TxnId) (k : Nat) : System := rollbacks t k (s.setState t .aborted)

-- ---------------------------------------------------------------------------
-- Requests
-- ---------------------------------------------------------------------------

/-- `SetTransaction`. -/
def setTransaction (s : System) (c : ClientId) : System :=
  match (s.clients c).txnId with
  | none => s.begin c
  | some t => if (s.stateOf t).isEnded then s.begin c else s

/-- The request with this number has failed; it counts if its transaction is an implicit one. -/
def fail (s : System) (t : TxnId) (request : Nat) : System :=
  if s.txnMode t then s else { s with failed := s.failed ++ [request] }

/-- What `portal->run` does for the transaction commands. -/
def runCommand (s : System) (t : TxnId) : Command → System
  | .begin => { s with txnMode := Function.update s.txnMode t true }
  | .commit => s.commit t
  | .abort => s.abort t
  | .statement => s

/-- The rest of the `try` block: the command, then the commit of an implicit transaction. -/
def finish (s : System) (t : TxnId) (cmd : Command) : System :=
  let s := s.runCommand t cmd
  if s.txnMode t = false then s.commit t else s

end System

/-- The transaction that asks for a lock. -/
def LockCall.asks : LockCall → Option TxnId
  | .sharedOnRecord t _ _ => some t
  | .exclusiveOnRecord t _ _ => some t
  | .sharedOnTable t _ => some t
  | .exclusiveOnTable t _ => some t
  | .isOnTable t _ => some t
  | .ixOnTable t _ => some t
  | .sixOnTable t _ => some t
  | .unlock _ _ => none
  | .setState _ _ => none

/-- What can happen next at a client. -/
inductive Event where
  /-- A request that the parser does not accept. -/
  | parserError
  /-- A request that the parser accepts without a statement in it, such as `exit;`. -/
  | noStatement
  | accept (cmd : Command)
  | lock (call : LockCall)
  | write (type : WType)
  /-- The `try` block ends without an exception. -/
  | finish
  /-- It ends with an `RMDBError`, from any step from the analysis of the query on. -/
  | rmdbError
  /-- It ends with a `TransactionAbortException`, which the handler answers with `abort`. -/
  | txnAbort
  /-- `ABORT` fails with an `RMDBError` after `k` writes were undone. -/
  | abortError (k : Nat)
  /-- `exit`, the end of the connection, or an error of it. -/
  | leave

namespace System

/-- The event at this client, if it can happen now. -/
def step (s : System) (c : ClientId) (event : Event) : Option System :=
  match (s.clients c).phase, event with
  | .waiting, .leave => some (s.setPhase c .ended)
  | .waiting, .parserError =>
    let s := s.setTransaction c
    ((s.clients c).txnId).map fun t => { s.fail t s.requests with requests := s.requests + 1 }
  | .waiting, .noStatement => some { s.setTransaction c with requests := s.requests + 1 }
  | .waiting, .accept cmd =>
    let s := s.setTransaction c
    some { s.setPhase c (.running s.requests cmd) with requests := s.requests + 1 }
  | .running _ .statement, .lock call =>
    if call.asks = (s.clients c).txnId then some { s with locks := s.locks.call call } else none
  | .running request .statement, .write type =>
    ((s.clients c).txnId).map fun t => { s with
      writeSet := Function.update s.writeSet t (s.writeSet t ++ [⟨request, type⟩])
      tables := Function.update s.tables t (s.tables t ++ [⟨request, type⟩])
      log := s.log ++ [(type.logType, t)] }
  | .running _ cmd, .finish => ((s.clients c).txnId).map fun t => (s.finish t cmd).setPhase c .waiting
  | .running request _, .rmdbError =>
    ((s.clients c).txnId).map fun t => (s.fail t request).setPhase c .waiting
  | .running request .statement, .txnAbort =>
    ((s.clients c).txnId).map fun t => ((s.fail t request).abort t).setPhase c .waiting
  | .running request .abort, .abortError k =>
    ((s.clients c).txnId).map fun t => ((s.fail t request).abortThrows t k).setPhase c .waiting
  | _, _ => none

/-- What each event does, read off `step`. -/
inductive Stepped (s : System) (c : ClientId) : Event → System → Prop where
  | leave : (s.clients c).phase = .waiting → Stepped s c .leave (s.setPhase c .ended)
  | parserError {t : TxnId} : (s.clients c).phase = .waiting → ((s.setTransaction c).clients c).txnId = some t →
    Stepped s c .parserError { (s.setTransaction c).fail t s.requests with requests := s.requests + 1 }
  | noStatement : (s.clients c).phase = .waiting →
    Stepped s c .noStatement { s.setTransaction c with requests := s.requests + 1 }
  | accept {cmd : Command} : (s.clients c).phase = .waiting →
    Stepped s c (.accept cmd)
      { (s.setTransaction c).setPhase c (.running s.requests cmd) with requests := s.requests + 1 }
  | lock {request : Nat} {call : LockCall} : (s.clients c).phase = .running request .statement →
    call.asks = (s.clients c).txnId → Stepped s c (.lock call) { s with locks := s.locks.call call }
  | write {request : Nat} {type : WType} {t : TxnId} : (s.clients c).phase = .running request .statement →
    (s.clients c).txnId = some t → Stepped s c (.write type) { s with
      writeSet := Function.update s.writeSet t (s.writeSet t ++ [⟨request, type⟩])
      tables := Function.update s.tables t (s.tables t ++ [⟨request, type⟩])
      log := s.log ++ [(type.logType, t)] }
  | finish {request : Nat} {cmd : Command} {t : TxnId} : (s.clients c).phase = .running request cmd →
    (s.clients c).txnId = some t → Stepped s c .finish ((s.finish t cmd).setPhase c .waiting)
  | rmdbError {request : Nat} {cmd : Command} {t : TxnId} : (s.clients c).phase = .running request cmd →
    (s.clients c).txnId = some t → Stepped s c .rmdbError ((s.fail t request).setPhase c .waiting)
  | txnAbort {request : Nat} {t : TxnId} : (s.clients c).phase = .running request .statement →
    (s.clients c).txnId = some t → Stepped s c .txnAbort (((s.fail t request).abort t).setPhase c .waiting)
  | abortError {request k : Nat} {t : TxnId} : (s.clients c).phase = .running request .abort →
    (s.clients c).txnId = some t →
    Stepped s c (.abortError k) (((s.fail t request).abortThrows t k).setPhase c .waiting)

theorem setTransaction_requests (s : System) (c : ClientId) : (s.setTransaction c).requests = s.requests := by
  unfold setTransaction
  split
  · rfl
  · split <;> rfl

theorem stepped_of_step {s s' : System} {c : ClientId} {event : Event} (h : s.step c event = some s') :
    Stepped s c event s' := by
  unfold step at h
  split at h
  case h_1 hphase =>
    cases h
    exact .leave hphase
  case h_2 hphase =>
    obtain ⟨t, ht, rfl⟩ := Option.map_eq_some_iff.mp h
    rw [setTransaction_requests]
    exact .parserError hphase ht
  case h_3 hphase =>
    cases h
    exact .noStatement hphase
  case h_4 cmd hphase =>
    cases h
    rw [setTransaction_requests]
    exact .accept hphase
  case h_5 request call hphase =>
    split at h
    · rename_i hasks
      cases h
      exact .lock hphase hasks
    · cases h
  case h_6 request type hphase =>
    obtain ⟨t, ht, rfl⟩ := Option.map_eq_some_iff.mp h
    exact .write hphase ht
  case h_7 request cmd hphase =>
    obtain ⟨t, ht, rfl⟩ := Option.map_eq_some_iff.mp h
    exact .finish hphase ht
  case h_8 request cmd hphase =>
    obtain ⟨t, ht, rfl⟩ := Option.map_eq_some_iff.mp h
    exact .rmdbError hphase ht
  case h_9 request hphase =>
    obtain ⟨t, ht, rfl⟩ := Option.map_eq_some_iff.mp h
    exact .txnAbort hphase ht
  case h_10 request k hphase =>
    obtain ⟨t, ht, rfl⟩ := Option.map_eq_some_iff.mp h
    exact .abortError hphase ht
  case h_11 => cases h

/-- The states that are reached by events that meet a condition. -/
inductive Reached (Ok : System → ClientId → Event → Prop) : System → Prop where
  | init : Reached Ok init
  | step {s s' : System} {c : ClientId} {event : Event} :
    Reached Ok s → Ok s c event → s.step c event = some s' → Reached Ok s'

/-- The client is in an explicit transaction. -/
def InExplicit (s : System) (c : ClientId) : Prop :=
  ∃ t, (s.clients c).txnId = some t ∧ (s.stateOf t).isEnded = false ∧ s.txnMode t = true

end System

end Rmdb
