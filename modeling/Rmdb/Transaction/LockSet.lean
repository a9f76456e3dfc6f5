-- SUMMARY: Every request in the lock table is covered by the lock set of its transaction, so releasing the lock set releases all.
import Rmdb.Transaction.LockManager

/-!
# Lock sets

The lock table and the lock sets of the transactions are two records of the same thing. The
requests write both of them, `unlock` writes only the lock table, and `release_locks` goes through
the lock set of one transaction and clears it.
-/

namespace Rmdb

-- ---------------------------------------------------------------------------
-- Releasing the locks
-- ---------------------------------------------------------------------------

namespace LockManager

/-- The loop of `release_locks` over the objects of the lock set. -/
def unlockAll (ids : List LockDataId) (lt : LockTable) (txn : Transaction) :
    LockTable × Transaction :=
  ids.foldl (fun (lt, txn) id => unlock lt txn id) (lt, txn)

/-- `TransactionManager::release_locks`. -/
def releaseLocks (lt : LockTable) (txn : Transaction) : LockTable × Transaction :=
  let r := unlockAll txn.lockSet lt txn
  (r.1, { r.2 with lockSet := [] })

@[simp] theorem unlock_txnId (lt : LockTable) (txn : Transaction) (id : LockDataId) :
    (unlock lt txn id).2.txnId = txn.txnId := by
  simp only [unlock]
  split <;> rfl

@[simp] theorem unlock_lockSet (lt : LockTable) (txn : Transaction) (id : LockDataId) :
    (unlock lt txn id).2.lockSet = txn.lockSet := by
  simp only [unlock]
  split <;> rfl

@[simp] theorem unlockAll_txnId (ids : List LockDataId) (lt : LockTable) (txn : Transaction) :
    (unlockAll ids lt txn).2.txnId = txn.txnId := by
  induction ids generalizing lt txn with
  | nil => rfl
  | cons id ids ih =>
    rw [unlockAll, List.foldl_cons]
    exact (ih _ _).trans (unlock_txnId lt txn id)

/-- Only the queues of these objects change, and they lose the requests of the transaction. -/
theorem unlockAll_lockTable (ids : List LockDataId) (lt : LockTable) (txn : Transaction)
    (id : LockDataId) : (unlockAll ids lt txn).1 id =
      if id ∈ ids then (lt id).filter (fun lock => lock.txnId != txn.txnId) else lt id := by
  induction ids generalizing lt txn with
  | nil => rfl
  | cons id₀ ids ih =>
    have hstep : unlockAll (id₀ :: ids) lt txn =
        unlockAll ids (unlock lt txn id₀).1 (unlock lt txn id₀).2 := rfl
    rw [hstep, ih, unlock_txnId]
    by_cases hid : id = id₀
    · subst hid
      -- The object may come again in the list; a queue that was filtered stays as it is.
      simp [unlock, List.filter_filter]
    · simp [unlock, hid]

end LockManager

-- ---------------------------------------------------------------------------
-- What a request does to the lock set
-- ---------------------------------------------------------------------------

/-- The outcome of a request: what is new in the lock table is a request of the transaction, and
for an object in its lock set. -/
structure LockOutcome.Follows (o : LockOutcome) (lt : LockTable) (txn : Transaction) : Prop where
  txnId : o.txn.txnId = txn.txnId
  lockSet : ∀ id ∈ txn.lockSet, id ∈ o.txn.lockSet
  requests : ∀ id, ∀ r ∈ o.lockTable id,
    r ∈ lt id ∨ (r.txnId = txn.txnId ∧ id ∈ o.txn.lockSet)

theorem Transaction.mem_addLock {txn : Transaction} {id id' : LockDataId} :
    id' ∈ (txn.addLock id).lockSet ↔ id' ∈ txn.lockSet ∨ id' = id := by
  unfold addLock
  split
  · rename_i hmem
    constructor
    · exact .inl
    · rintro (h | rfl)
      · exact h
      · exact hmem
  · simp

namespace LockManager

variable {lt : LockTable} {txn txn' : Transaction} {id : LockDataId} {mode : LockMode}

/-- Nothing is asked for, and at most the state of the transaction changes. -/
theorem follows_same (hid : txn'.txnId = txn.txnId) (hset : txn'.lockSet = txn.lockSet)
    (answer : Except TransactionAbortException Bool) :
    LockOutcome.Follows ⟨answer, lt, txn'⟩ lt txn where
  txnId := hid
  lockSet _ hmem := hset ▸ hmem
  requests _ _ hr := .inl hr

theorem follows_grant (hid : txn'.txnId = txn.txnId) (hset : txn'.lockSet = txn.lockSet) :
    (grant lt txn' id mode).Follows lt txn where
  txnId := (Transaction.addLock_txnId txn' id).trans hid
  lockSet id' hmem := Transaction.mem_addLock.mpr (.inl (hset ▸ hmem))
  requests id' r hr := by
    rcases LockTable.mem_push.mp hr with hold | ⟨rfl, rfl⟩
    · exact .inl hold
    · exact .inr ⟨hid, Transaction.mem_addLock.mpr (.inr rfl)⟩

/-- A second request of the same transaction, in the state that the first one leaves. -/
theorem follows_trans {o₁ o₂ : LockOutcome} (h₁ : o₁.Follows lt txn)
    (h₂ : o₂.Follows o₁.lockTable o₁.txn) : o₂.Follows lt txn where
  txnId := h₂.txnId.trans h₁.txnId
  lockSet id hmem := h₂.lockSet id (h₁.lockSet id hmem)
  requests id r hr := by
    rcases h₂.requests id r hr with hold | ⟨hid, hmem⟩
    · exact (h₁.requests id r hold).imp_right fun ⟨hid, hmem⟩ => ⟨hid, h₂.lockSet id hmem⟩
    · exact .inr ⟨hid.trans h₁.txnId, hmem⟩

theorem follows_enter {body : Transaction → LockOutcome}
    (hbody : (body { txn with state := .growing }).Follows lt { txn with state := .growing }) :
    (enter lt txn body).Follows lt txn := by
  unfold enter
  split
  · apply follows_same
    · rfl
    · rfl
  · exact ⟨hbody.txnId, hbody.lockSet, hbody.requests⟩

theorem lockOnTable_follows (conflicts : LockMode → Bool) (mode : LockMode) (lt : LockTable)
    (txn : Transaction) (tabFd : Int) :
    (lockOnTable conflicts mode lt txn tabFd).Follows lt txn := by
  refine follows_enter ?_
  dsimp only
  split
  · exact follows_same rfl rfl _
  · exact follows_grant rfl rfl

theorem lockSharedOnRecord_follows (lt : LockTable) (txn : Transaction) (rid : Rid) (tabFd : Int) :
    (lockSharedOnRecord lt txn rid tabFd).Follows lt txn := by
  unfold lockSharedOnRecord
  split
  · exact follows_same rfl rfl _
  · refine follows_enter ?_
    have htab : (lockISOnTable lt { txn with state := .growing } tabFd).Follows lt
        { txn with state := .growing } := lockOnTable_follows _ _ _ _ _
    dsimp only
    split
    · split
      · exact follows_trans htab (follows_same rfl rfl _)
      · exact follows_trans htab (follows_grant rfl rfl)
    · exact htab

theorem lockExclusiveOnRecord_follows (lt : LockTable) (txn : Transaction) (rid : Rid)
    (tabFd : Int) : (lockExclusiveOnRecord lt txn rid tabFd).Follows lt txn := by
  refine follows_enter ?_
  have htab : (lockIXOnTable lt { txn with state := .growing } tabFd).Follows lt
      { txn with state := .growing } := lockOnTable_follows _ _ _ _ _
  dsimp only
  split
  · split
    · exact follows_trans htab (follows_same rfl rfl _)
    · exact follows_trans htab (follows_grant rfl rfl)
  · exact htab

end LockManager

-- ---------------------------------------------------------------------------
-- Runs
-- ---------------------------------------------------------------------------

/-- What transactions do with their locks. -/
inductive LockStep where
  | call (c : LockCall)
  | releaseLocks (t : TxnId)

namespace LockState

variable {s : LockState} {t : TxnId}

def releaseLocks (s : LockState) (t : TxnId) : LockState :=
  let r := LockManager.releaseLocks s.lockTable (s.txns t)
  s.setTxn t r.1 r.2

def step (s : LockState) : LockStep → LockState
  | .call c => s.call c
  | .releaseLocks t => s.releaseLocks t

def steps (s : LockState) (l : List LockStep) : LockState := l.foldl step s

/-- There are no orphan locks. -/
structure Covered (s : LockState) : Prop where
  txnId : ∀ t, (s.txns t).txnId = t
  covered : ∀ id, ∀ r ∈ s.lockTable id, id ∈ (s.txns r.txnId).lockSet

theorem Covered.init : LockState.init.Covered where
  txnId _ := rfl
  covered _ _ hr := nomatch hr

theorem Covered.after (h : s.Covered) {o : LockOutcome}
    (ho : o.Follows s.lockTable (s.txns t)) : (s.after t o).Covered where
  txnId t' := by
    by_cases ht : t' = t
    · subst ht
      simpa [LockState.after, setTxn, h.txnId] using ho.txnId
    · simpa [LockState.after, setTxn, ht] using h.txnId t'
  covered id r hr := by
    have hcases := ho.requests id r hr
    rw [h.txnId t] at hcases
    by_cases ht : r.txnId = t
    · simp only [LockState.after, setTxn, ht, if_true]
      rcases hcases with hold | ⟨-, hmem⟩
      · exact ho.lockSet id (ht ▸ h.covered id r hold)
      · exact hmem
    · simp only [LockState.after, setTxn, ht, if_false]
      exact h.covered id r (hcases.resolve_right fun hnew => ht hnew.1)

theorem Covered.call (h : s.Covered) (c : LockCall) : (s.call c).Covered := by
  cases c with
  | sharedOnRecord t rid fd => exact h.after (LockManager.lockSharedOnRecord_follows _ _ rid fd)
  | exclusiveOnRecord t rid fd =>
    exact h.after (LockManager.lockExclusiveOnRecord_follows _ _ rid fd)
  | sharedOnTable t fd => exact h.after (LockManager.lockOnTable_follows _ _ _ _ fd)
  | exclusiveOnTable t fd => exact h.after (LockManager.lockOnTable_follows _ _ _ _ fd)
  | isOnTable t fd => exact h.after (LockManager.lockOnTable_follows _ _ _ _ fd)
  | ixOnTable t fd => exact h.after (LockManager.lockOnTable_follows _ _ _ _ fd)
  | sixOnTable t fd => exact h.after (LockManager.lockOnTable_follows _ _ _ _ fd)
  | unlock t id =>
    refine h.after (t := t) (o := ⟨.ok true, _, _⟩) ⟨?_, ?_, ?_⟩
    · exact LockManager.unlock_txnId _ _ id
    · intro id' hmem
      simpa using hmem
    · intro id' r hr
      simp only [LockManager.unlock] at hr
      split at hr
      · rename_i hid
        exact .inl (hid ▸ (List.mem_filter.mp hr).1)
      · exact .inl hr
  | setState t st =>
    refine h.after (t := t) (o := ⟨.ok true, _, _⟩) (LockManager.follows_same ?_ ?_ _)
    · rfl
    · rfl

/-- The queues after `release_locks`: the requests of the transaction are gone from all of them. -/
theorem Covered.releaseLocks_lockTable (h : s.Covered) (t : TxnId) (id : LockDataId) :
    (s.releaseLocks t).lockTable id = (s.lockTable id).filter fun lock => lock.txnId != t := by
  have hqueue : (s.releaseLocks t).lockTable id =
      (LockManager.unlockAll (s.txns t).lockSet s.lockTable (s.txns t)).1 id := rfl
  rw [hqueue, LockManager.unlockAll_lockTable, h.txnId t]
  split
  · rfl
  · rename_i hmem
    rw [List.filter_eq_self.mpr]
    intro r hr
    rw [bne_iff_ne]
    rintro rfl
    exact hmem (h.covered id r hr)

theorem Covered.releaseLocks (h : s.Covered) (t : TxnId) : (s.releaseLocks t).Covered where
  txnId t' := by
    by_cases ht : t' = t
    · subst ht
      simp [LockState.releaseLocks, setTxn, LockManager.releaseLocks, h.txnId]
    · simpa [LockState.releaseLocks, setTxn, ht] using h.txnId t'
  covered id r hr := by
    rw [h.releaseLocks_lockTable, List.mem_filter, bne_iff_ne] at hr
    simpa [LockState.releaseLocks, setTxn, hr.2] using h.covered id r hr.1

theorem Covered.steps (h : s.Covered) (l : List LockStep) : (s.steps l).Covered := by
  induction l generalizing s with
  | nil => exact h
  | cons step l ih =>
    refine ih ?_
    cases step with
    | call c => exact h.call c
    | releaseLocks t => exact h.releaseLocks t

end LockState

/-- After any requests, granted or refused, and any releases, of any number of transactions: every
request is for an object in the lock set of its transaction. Hence `release_locks` takes all
requests of the transaction out of the lock table and leaves those of the others in their
order, and it touches no other transaction. -/
theorem no_orphan_locks (l : List LockStep) :
    let s := LockState.init.steps l
    (∀ id, ∀ r ∈ s.lockTable id, id ∈ (s.txns r.txnId).lockSet) ∧
    ∀ t, (∀ id, ∀ r ∈ (s.releaseLocks t).lockTable id, r.txnId ≠ t) ∧
      ((s.releaseLocks t).txns t).lockSet = [] ∧
      (∀ id, ((s.releaseLocks t).lockTable id).filter (fun lock => lock.txnId != t) =
        (s.lockTable id).filter fun lock => lock.txnId != t) ∧
      ∀ t' ≠ t, (s.releaseLocks t).txns t' = s.txns t' := by
  intro s
  have h : s.Covered := LockState.Covered.init.steps l
  refine ⟨h.covered, fun t => ⟨?_, ?_, ?_, ?_⟩⟩
  · intro id r hr
    rw [h.releaseLocks_lockTable, List.mem_filter, bne_iff_ne] at hr
    exact hr.2
  · simp [LockState.releaseLocks, LockState.setTxn, LockManager.releaseLocks]
  · intro id
    simp [h.releaseLocks_lockTable, List.filter_filter]
  · intro t' ht
    simp [LockState.releaseLocks, LockState.setTxn, ht]

end Rmdb
