-- SUMMARY: The lock table and the seven lock requests of `LockManager`, and the compatibility of what it grants.
import Mathlib.Data.List.Basic
import Rmdb.Basic

/-!
# The lock manager

`LockManager` keeps one request queue for each locked object. The policy is
no-wait: a request that conflicts is refused at once, so a request that stands
in a queue has been granted. A transaction may put several modes on one object.

Each entry point writes its own row of the compatibility matrix by hand. The
last part of this file compares these rows with the matrix itself.
-/

namespace Rmdb

-- ---------------------------------------------------------------------------
-- Lock modes and lock objects
-- ---------------------------------------------------------------------------

inductive LockMode where
  | S
  | X
  | IS
  | IX
  | SIX
  deriving DecidableEq, Repr

inductive LockDataType where
  | table
  | record
  deriving DecidableEq, Repr

/-- The object of a lock: a table, or a record of a table. -/
structure LockDataId where
  fd : Int
  rid : Rid
  type : LockDataType
  deriving DecidableEq, Repr

/-- The object of a table lock has no record id. -/
def LockDataId.table (fd : Int) : LockDataId :=
  { fd := fd, rid := ⟨-1, -1⟩, type := .table }

def LockDataId.record (fd : Int) (rid : Rid) : LockDataId :=
  { fd := fd, rid := rid, type := .record }

theorem LockDataId.record_ne_table (fd fd' : Int) (rid : Rid) : record fd rid ≠ table fd' := by
  intro h
  cases congrArg LockDataId.type h

structure LockRequest where
  txnId : TxnId
  lockMode : LockMode
  deriving DecidableEq, Repr

-- ---------------------------------------------------------------------------
-- The locking state of a transaction
-- ---------------------------------------------------------------------------

inductive TransactionState where
  | default
  | growing
  | shrinking
  | committed
  | aborted
  deriving DecidableEq, Repr

inductive AbortReason where
  | lockOnShirinking
  | upgradeConflict
  | deadlockPrevention
  | getLockFailed
  deriving DecidableEq, Repr

structure TransactionAbortException where
  txnId : TxnId
  reason : AbortReason
  deriving DecidableEq, Repr

/-- The fields of `Transaction` that the lock manager reads and writes. -/
structure Transaction where
  txnId : TxnId
  state : TransactionState
  lockSet : List LockDataId
  deriving DecidableEq, Repr

/-- `get_lock_set()->insert`: the lock set is a set. -/
def Transaction.addLock (txn : Transaction) (id : LockDataId) : Transaction :=
  if id ∈ txn.lockSet then txn else { txn with lockSet := txn.lockSet ++ [id] }

@[simp] theorem Transaction.addLock_txnId (txn : Transaction) (id : LockDataId) :
    (txn.addLock id).txnId = txn.txnId := by
  unfold addLock
  split <;> rfl

/-- `lock_table_`: the request queue of every object. An object without a queue
and an object with an empty one cannot be told apart. -/
abbrev LockTable := LockDataId → List LockRequest

def LockTable.push (lt : LockTable) (id : LockDataId) (r : LockRequest) : LockTable :=
  fun id' => if id' = id then lt id ++ [r] else lt id'

theorem LockTable.mem_push {lt : LockTable} {id id' : LockDataId} {r q : LockRequest} :
    q ∈ lt.push id r id' ↔ q ∈ lt id' ∨ (id' = id ∧ q = r) := by
  unfold push
  split
  · rename_i h
    subst h
    simp
  · rename_i h
    simp [h]

/-- What a lock request leaves behind: the answer or the exception, the lock
table, and the transaction that asked. -/
structure LockOutcome where
  answer : Except TransactionAbortException Bool
  lockTable : LockTable
  txn : Transaction

def LockOutcome.granted (o : LockOutcome) : Bool :=
  match o.answer with
  | .ok b => b
  | .error _ => false

-- ---------------------------------------------------------------------------
-- Requests
-- ---------------------------------------------------------------------------

namespace LockManager

/-- The first lines of every entry point: a transaction that has released a lock
is aborted when it asks for another one, any other transaction is growing. -/
def enter (lt : LockTable) (txn : Transaction) (body : Transaction → LockOutcome) : LockOutcome :=
  if txn.state = .shrinking then
    { answer := .error ⟨txn.txnId, .lockOnShirinking⟩, lockTable := lt,
      txn := { txn with state := .aborted } }
  else body { txn with state := .growing }

/-- Some other transaction has a request in the queue with a mode that `conflicts`. -/
def refused (conflicts : LockMode → Bool) (queue : List LockRequest) (t : TxnId) : Bool :=
  queue.any fun lock => conflicts lock.lockMode && lock.txnId != t

/-- The request joins the queue and the object joins the lock set. -/
def grant (lt : LockTable) (txn : Transaction) (id : LockDataId) (mode : LockMode) : LockOutcome :=
  { answer := .ok true, lockTable := lt.push id ⟨txn.txnId, mode⟩, txn := txn.addLock id }

/-- The common shape of the five table locks. -/
def lockOnTable (conflicts : LockMode → Bool) (mode : LockMode)
    (lt : LockTable) (txn : Transaction) (tabFd : Int) : LockOutcome :=
  enter lt txn fun txn =>
    let id := LockDataId.table tabFd
    if refused conflicts (lt id) txn.txnId then { answer := .ok false, lockTable := lt, txn := txn }
    else grant lt txn id mode

def lockSharedOnTable : LockTable → Transaction → Int → LockOutcome :=
  lockOnTable (fun m => m == .IX || m == .SIX || m == .X) .S

def lockExclusiveOnTable : LockTable → Transaction → Int → LockOutcome :=
  lockOnTable (fun _ => true) .X

def lockISOnTable : LockTable → Transaction → Int → LockOutcome :=
  lockOnTable (fun m => m == .X) .IS

def lockIXOnTable : LockTable → Transaction → Int → LockOutcome :=
  lockOnTable (fun m => m == .S || m == .SIX || m == .X) .IX

def lockSIXOnTable : LockTable → Transaction → Int → LockOutcome :=
  lockOnTable (fun m => m == .IX || m == .S || m == .SIX || m == .X) .SIX

/-- Unlike the other entry points this one answers `false` to an aborted transaction. -/
def lockSharedOnRecord (lt : LockTable) (txn : Transaction) (rid : Rid) (tabFd : Int) :
    LockOutcome :=
  if txn.state = .aborted then { answer := .ok false, lockTable := lt, txn := txn }
  else enter lt txn fun txn =>
    let id := LockDataId.record tabFd rid
    let table := lockISOnTable lt txn tabFd
    if table.granted then
      -- The loop leaves at the first exclusive request it meets.
      match (table.lockTable id).find? (fun lock => lock.lockMode == .X) with
      | some lock =>
          { answer := .ok (lock.txnId == txn.txnId), lockTable := table.lockTable, txn := table.txn }
      | none => grant table.lockTable table.txn id .S
    else table

def lockExclusiveOnRecord (lt : LockTable) (txn : Transaction) (rid : Rid) (tabFd : Int) :
    LockOutcome :=
  enter lt txn fun txn =>
    let id := LockDataId.record tabFd rid
    let table := lockIXOnTable lt txn tabFd
    if table.granted then
      if refused (fun _ => true) (table.lockTable id) txn.txnId then
        { answer := .ok false, lockTable := table.lockTable, txn := table.txn }
      else grant table.lockTable table.txn id .X
    else table

/-- Every request of the transaction leaves the queue, whatever its mode. -/
def unlock (lt : LockTable) (txn : Transaction) (id : LockDataId) : LockTable × Transaction :=
  (fun id' => if id' = id then (lt id).filter (fun lock => lock.txnId != txn.txnId) else lt id',
   if txn.state = .growing then { txn with state := .shrinking } else txn)

-- ---------------------------------------------------------------------------
-- The compatibility matrix
-- ---------------------------------------------------------------------------

end LockManager

/-- The multi-granularity matrix. -/
def LockMode.compatible : LockMode → LockMode → Bool
  | .IS, .X => false
  | .IS, _ => true
  | .IX, .IS => true
  | .IX, .IX => true
  | .IX, _ => false
  | .S, .IS => true
  | .S, .S => true
  | .S, _ => false
  | .SIX, .IS => true
  | .SIX, _ => false
  | .X, _ => false

theorem LockMode.compatible_comm (m n : LockMode) : m.compatible n = n.compatible m := by
  cases m <;> cases n <;> rfl

/-- Requests of different transactions on one object are compatible. -/
def LockTable.Compatible (lt : LockTable) : Prop :=
  ∀ id, ∀ r ∈ lt id, ∀ q ∈ lt id, r.txnId ≠ q.txnId → r.lockMode.compatible q.lockMode = true

/-- Records are only locked in the modes `S` and `X`, as the loops of the record
locks assert. -/
def LockTable.RecordModes (lt : LockTable) : Prop :=
  ∀ fd rid, ∀ r ∈ lt (LockDataId.record fd rid), r.lockMode = .S ∨ r.lockMode = .X

structure LockTable.Ok (lt : LockTable) : Prop where
  compatible : lt.Compatible
  recordModes : lt.RecordModes

theorem LockTable.Compatible.push {lt : LockTable} {id : LockDataId} {r : LockRequest}
    (h : lt.Compatible)
    (hr : ∀ q ∈ lt id, q.txnId ≠ r.txnId → q.lockMode.compatible r.lockMode = true) :
    (lt.push id r).Compatible := by
  intro id' a ha b hb hne
  rw [LockTable.mem_push] at ha hb
  rcases ha with ha | ⟨rfl, rfl⟩
  · rcases hb with hb | ⟨rfl, rfl⟩
    · exact h id' a ha b hb hne
    · exact hr a ha hne
  · rcases hb with hb | ⟨_, rfl⟩
    · rw [LockMode.compatible_comm]
      exact hr b hb hne.symm
    · exact absurd rfl hne

theorem LockTable.RecordModes.push {lt : LockTable} {id : LockDataId} {r : LockRequest}
    (h : lt.RecordModes) (hr : id.type = .record → r.lockMode = .S ∨ r.lockMode = .X) :
    (lt.push id r).RecordModes := by
  intro fd rid q hq
  rw [LockTable.mem_push] at hq
  rcases hq with hq | ⟨rfl, rfl⟩
  · exact h fd rid q hq
  · exact hr rfl

/-- A queue that only shrinks stays in order. -/
theorem LockTable.Ok.mono {lt lt' : LockTable} (h : lt.Ok) (hsub : ∀ id, ∀ r ∈ lt' id, r ∈ lt id) :
    lt'.Ok where
  compatible id r hr q hq hne := h.compatible id r (hsub id r hr) q (hsub id q hq) hne
  recordModes fd rid r hr := h.recordModes fd rid r (hsub _ r hr)

namespace LockManager

theorem not_refused {conflicts : LockMode → Bool} {queue : List LockRequest} {t : TxnId}
    (h : ¬ refused conflicts queue t = true) :
    ∀ q ∈ queue, q.txnId ≠ t → conflicts q.lockMode = false := by
  intro q hq hne
  simp only [refused, List.any_eq_true, Bool.and_eq_true, bne_iff_ne, not_exists, not_and] at h
  by_contra hc
  exact h q hq (by simpa using hc) hne

/-- A lock request either leaves the lock table as it is, or it adds one request
that was checked against the queue; the lock set follows. -/
theorem lockOnTable_cases (conflicts : LockMode → Bool) (mode : LockMode)
    (lt : LockTable) (txn : Transaction) (tabFd : Int) :
    let o := lockOnTable conflicts mode lt txn tabFd
    (o.granted = false ∧ o.lockTable = lt ∧ o.txn.lockSet = txn.lockSet ∧ o.txn.txnId = txn.txnId) ∨
    (o = grant lt { txn with state := .growing } (.table tabFd) mode ∧ o.granted = true ∧
      ∀ q ∈ lt (.table tabFd), q.txnId ≠ txn.txnId → conflicts q.lockMode = false) := by
  dsimp only
  unfold lockOnTable enter
  split
  · exact .inl ⟨rfl, rfl, rfl, rfl⟩
  · dsimp only
    split
    · exact .inl ⟨rfl, rfl, rfl, rfl⟩
    · rename_i h
      exact .inr ⟨rfl, rfl, not_refused h⟩

/-- A row of the matrix: what does not conflict with a mode is compatible with it. -/
def Row (conflicts : LockMode → Bool) (mode : LockMode) : Prop :=
  ∀ m, conflicts m = false → m.compatible mode = true

theorem lockOnTable_ok {conflicts : LockMode → Bool} {mode : LockMode} {lt : LockTable}
    (txn : Transaction) (tabFd : Int) (hrow : Row conflicts mode) (h : lt.Ok) :
    (lockOnTable conflicts mode lt txn tabFd).lockTable.Ok := by
  rcases lockOnTable_cases conflicts mode lt txn tabFd with ⟨_, hlt, _⟩ | ⟨ho, _, hq⟩
  · rw [hlt]
    exact h
  · rw [ho]
    refine ⟨h.compatible.push fun q hmem hne => hrow _ (hq q hmem hne), h.recordModes.push ?_⟩
    intro ht
    cases ht

theorem row_S : Row (fun m => m == .IX || m == .SIX || m == .X) .S := by
  intro m h
  cases m <;> first | rfl | cases h

theorem row_X : Row (fun _ => true) .X := by
  intro m h
  cases h

theorem row_IS : Row (fun m => m == .X) .IS := by
  intro m h
  cases m <;> first | rfl | cases h

theorem row_IX : Row (fun m => m == .S || m == .SIX || m == .X) .IX := by
  intro m h
  cases m <;> first | rfl | cases h

theorem row_SIX : Row (fun m => m == .IX || m == .S || m == .SIX || m == .X) .SIX := by
  intro m h
  cases m <;> first | rfl | cases h

theorem lockSharedOnRecord_ok {lt : LockTable} (txn : Transaction) (rid : Rid) (tabFd : Int)
    (h : lt.Ok) : (lockSharedOnRecord lt txn rid tabFd).lockTable.Ok := by
  unfold lockSharedOnRecord enter
  split
  · exact h
  · split
    · exact h
    · dsimp only
      have htab := lockOnTable_ok { txn with state := .growing } tabFd row_IS h
      split
      · split
        · exact htab
        · rename_i hnone
          rw [List.find?_eq_none] at hnone
          refine ⟨htab.compatible.push ?_, htab.recordModes.push fun _ => .inl rfl⟩
          intro q hq _
          -- There is no exclusive request, so every request of the record queue is shared.
          rcases htab.recordModes tabFd rid q hq with hm | hm
          · rw [hm]; rfl
          · exact absurd (by simp [hm]) (hnone q hq)
      · exact htab

theorem lockExclusiveOnRecord_ok {lt : LockTable} (txn : Transaction) (rid : Rid) (tabFd : Int)
    (h : lt.Ok) : (lockExclusiveOnRecord lt txn rid tabFd).lockTable.Ok := by
  unfold lockExclusiveOnRecord enter
  split
  · exact h
  · dsimp only
    have htab := lockOnTable_ok { txn with state := .growing } tabFd row_IX h
    have hcases := lockOnTable_cases (fun m => m == .S || m == .SIX || m == .X) .IX lt
      { txn with state := .growing } tabFd
    split
    · split
      · exact htab
      · rename_i hgr href
        refine ⟨htab.compatible.push ?_, htab.recordModes.push fun _ => .inr rfl⟩
        intro q hq hne
        have hid : (lockIXOnTable lt { txn with state := .growing } tabFd).txn.txnId = txn.txnId := by
          rcases hcases with ⟨_, _, _, hid⟩ | ⟨ho, _, _⟩
          · exact hid
          · rw [lockIXOnTable, ho]
            simp [grant]
        rw [hid] at hne
        exact absurd (not_refused href q hq hne) (by simp)
    · exact htab

theorem unlock_ok {lt : LockTable} (txn : Transaction) (id : LockDataId) (h : lt.Ok) :
    (unlock lt txn id).1.Ok := by
  apply h.mono
  intro id' r hr
  simp only [unlock] at hr
  split at hr
  · rename_i he
    subst he
    exact (List.mem_filter.mp hr).1
  · exact hr

end LockManager

-- ---------------------------------------------------------------------------
-- Runs of the lock manager
-- ---------------------------------------------------------------------------

/-- A call of the lock manager by some transaction, or a change of the state of a
transaction by another component. -/
inductive LockCall where
  | sharedOnRecord (t : TxnId) (rid : Rid) (tabFd : Int)
  | exclusiveOnRecord (t : TxnId) (rid : Rid) (tabFd : Int)
  | sharedOnTable (t : TxnId) (tabFd : Int)
  | exclusiveOnTable (t : TxnId) (tabFd : Int)
  | isOnTable (t : TxnId) (tabFd : Int)
  | ixOnTable (t : TxnId) (tabFd : Int)
  | sixOnTable (t : TxnId) (tabFd : Int)
  | unlock (t : TxnId) (id : LockDataId)
  | setState (t : TxnId) (state : TransactionState)

/-- The lock table together with every transaction. -/
structure LockState where
  lockTable : LockTable
  txns : TxnId → Transaction

def LockState.init : LockState where
  lockTable := fun _ => []
  txns := fun t => { txnId := t, state := .default, lockSet := [] }

def LockState.setTxn (s : LockState) (t : TxnId) (lt : LockTable) (txn : Transaction) : LockState where
  lockTable := lt
  txns := fun t' => if t' = t then txn else s.txns t'

def LockState.after (s : LockState) (t : TxnId) (o : LockOutcome) : LockState :=
  s.setTxn t o.lockTable o.txn

open LockManager in
def LockState.call (s : LockState) : LockCall → LockState
  | .sharedOnRecord t rid fd => s.after t (lockSharedOnRecord s.lockTable (s.txns t) rid fd)
  | .exclusiveOnRecord t rid fd => s.after t (lockExclusiveOnRecord s.lockTable (s.txns t) rid fd)
  | .sharedOnTable t fd => s.after t (lockSharedOnTable s.lockTable (s.txns t) fd)
  | .exclusiveOnTable t fd => s.after t (lockExclusiveOnTable s.lockTable (s.txns t) fd)
  | .isOnTable t fd => s.after t (lockISOnTable s.lockTable (s.txns t) fd)
  | .ixOnTable t fd => s.after t (lockIXOnTable s.lockTable (s.txns t) fd)
  | .sixOnTable t fd => s.after t (lockSIXOnTable s.lockTable (s.txns t) fd)
  | .unlock t id =>
      let r := unlock s.lockTable (s.txns t) id
      s.setTxn t r.1 r.2
  | .setState t st => s.setTxn t s.lockTable { s.txns t with state := st }

def LockState.run (s : LockState) (calls : List LockCall) : LockState :=
  calls.foldl LockState.call s

open LockManager in
theorem LockState.call_ok {s : LockState} (c : LockCall) (h : s.lockTable.Ok) :
    (s.call c).lockTable.Ok := by
  cases c with
  | sharedOnRecord t rid fd => exact lockSharedOnRecord_ok (s.txns t) rid fd h
  | exclusiveOnRecord t rid fd => exact lockExclusiveOnRecord_ok (s.txns t) rid fd h
  | sharedOnTable t fd => exact lockOnTable_ok (s.txns t) fd row_S h
  | exclusiveOnTable t fd => exact lockOnTable_ok (s.txns t) fd row_X h
  | isOnTable t fd => exact lockOnTable_ok (s.txns t) fd row_IS h
  | ixOnTable t fd => exact lockOnTable_ok (s.txns t) fd row_IX h
  | sixOnTable t fd => exact lockOnTable_ok (s.txns t) fd row_SIX h
  | unlock t id => exact unlock_ok (s.txns t) id h
  | setState t st => exact h

theorem LockState.run_ok {s : LockState} (calls : List LockCall) (h : s.lockTable.Ok) :
    (s.run calls).lockTable.Ok := by
  induction calls generalizing s with
  | nil => exact h
  | cons c calls ih => exact ih (s.call_ok c h)

theorem LockState.init_ok : LockState.init.lockTable.Ok where
  compatible _ _ hr := by cases hr
  recordModes _ _ _ hr := by cases hr

/-- After any calls in any order, two requests of different transactions on one
object are compatible, and records carry only the modes `S` and `X`. -/
theorem lockTable_compatible (calls : List LockCall) (id : LockDataId) :
    let lt := (LockState.init.run calls).lockTable
    (∀ r ∈ lt id, ∀ q ∈ lt id, r.txnId ≠ q.txnId → r.lockMode.compatible q.lockMode = true) ∧
    (id.type = .record → ∀ r ∈ lt id, r.lockMode = .S ∨ r.lockMode = .X) := by
  have h := LockState.run_ok calls LockState.init_ok
  refine ⟨h.compatible id, ?_⟩
  intro ht r hr
  obtain ⟨fd, rid, type⟩ := id
  subst ht
  exact h.recordModes fd rid r hr

end Rmdb
