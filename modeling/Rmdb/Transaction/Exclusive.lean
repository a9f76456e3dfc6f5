-- SUMMARY: Whoever has an exclusive lock on a record or its table is alone, and when a request for one is granted.
import Rmdb.Transaction.LockSet

/-!
# Exclusive locks

A record is written under an X lock on it, with an IX lock on its table, or under an X lock on the table. No two
transactions have such locks at the same time, as long as they release none.
-/

namespace Rmdb

-- ---------------------------------------------------------------------------
-- Requests only add locks
-- ---------------------------------------------------------------------------

namespace LockManager

variable {lt : LockTable} {txn : Transaction} {fd : Int}

/-- A request takes no lock away. -/
theorem lockOnTable_grows {conflicts : LockMode → Bool} {mode : LockMode} {id : LockDataId}
    {q : LockRequest} (hq : q ∈ lt id) : q ∈ (lockOnTable conflicts mode lt txn fd).lockTable id := by
  rcases lockOnTable_cases conflicts mode lt txn fd with ⟨-, hlt, -⟩ | ⟨ho, -, -⟩
  · rwa [hlt]
  · rw [ho]
    exact LockTable.mem_push.mpr (.inl hq)

theorem lockOnTable_granted {conflicts : LockMode → Bool} {mode : LockMode}
    (h : (lockOnTable conflicts mode lt txn fd).granted = true) :
    ⟨txn.txnId, mode⟩ ∈ (lockOnTable conflicts mode lt txn fd).lockTable (.table fd) := by
  rcases lockOnTable_cases conflicts mode lt txn fd with ⟨hno, -⟩ | ⟨ho, -, -⟩
  · rw [hno] at h
    cases h
  · rw [ho]
    exact LockTable.mem_push.mpr (.inr ⟨rfl, rfl⟩)

theorem lockSharedOnRecord_grows {rid : Rid} {id : LockDataId} {q : LockRequest}
    (hq : q ∈ lt id) : q ∈ (lockSharedOnRecord lt txn rid fd).lockTable id := by
  unfold lockSharedOnRecord enter
  split
  · exact hq
  · split
    · exact hq
    · have htab : q ∈ (lockISOnTable lt { txn with state := .growing } fd).lockTable id :=
        lockOnTable_grows hq
      dsimp only
      split
      · split
        · exact htab
        · exact LockTable.mem_push.mpr (.inl htab)
      · exact htab

theorem lockExclusiveOnRecord_grows {rid : Rid} {id : LockDataId} {q : LockRequest}
    (hq : q ∈ lt id) : q ∈ (lockExclusiveOnRecord lt txn rid fd).lockTable id := by
  unfold lockExclusiveOnRecord enter
  split
  · exact hq
  · have htab : q ∈ (lockIXOnTable lt { txn with state := .growing } fd).lockTable id :=
      lockOnTable_grows hq
    dsimp only
    split
    · split
      · exact htab
      · exact LockTable.mem_push.mpr (.inl htab)
    · exact htab

/-- A request that does not conflict with the locks of other transactions is granted. -/
theorem lockOnTable_grants {conflicts : LockMode → Bool} {mode : LockMode} (hstate : txn.state ≠ .shrinking)
    (hqueue : ∀ q ∈ lt (.table fd), q.txnId ≠ txn.txnId → conflicts q.lockMode = false) :
    (lockOnTable conflicts mode lt txn fd).granted = true := by
  have hfree : ¬ refused conflicts (lt (.table fd)) txn.txnId = true := by
    simp only [refused, List.any_eq_true, Bool.and_eq_true, bne_iff_ne, not_exists, not_and, not_not]
    intro q hq hconflicts
    by_contra hne
    exact Bool.false_ne_true ((hqueue q hq hne).symm.trans hconflicts)
  unfold lockOnTable enter
  rw [if_neg hstate]
  dsimp only
  rw [if_neg hfree]
  rfl

/-- An X lock on a record that nobody else has a lock on is granted to whoever has an IX lock on the table. -/
theorem lockExclusiveOnRecord_grants {rid : Rid} (hok : lt.Ok) (hstate : txn.state ≠ .shrinking)
    (hIX : ⟨txn.txnId, .IX⟩ ∈ lt (.table fd)) (hrecord : ∀ q ∈ lt (.record fd rid), q.txnId = txn.txnId) :
    (lockExclusiveOnRecord lt txn rid fd).granted = true ∧
      ⟨txn.txnId, .X⟩ ∈ (lockExclusiveOnRecord lt txn rid fd).lockTable (.record fd rid) := by
  have htable : (lockIXOnTable lt { txn with state := .growing } fd).granted = true := by
    refine lockOnTable_grants (by simp) fun q hq hne => ?_
    have hcompatible := hok.compatible _ q hq _ hIX hne
    cases hmode : q.lockMode <;> rw [hmode] at hcompatible <;> first | rfl | cases hcompatible
  rcases lockOnTable_cases (fun m => m == .S || m == .SIX || m == .X) .IX lt { txn with state := .growing } fd with
    ⟨hno, -⟩ | ⟨ho, -, -⟩
  · exact absurd (hno.symm.trans htable) Bool.false_ne_true
  · have ho' : lockIXOnTable lt { txn with state := .growing } fd =
        grant lt { txn with state := .growing } (.table fd) .IX :=
      ho
    have hqueue : (lockIXOnTable lt { txn with state := .growing } fd).lockTable (.record fd rid) =
        lt (.record fd rid) := by
      rw [ho']
      exact if_neg (LockDataId.record_ne_table fd fd rid)
    have hid : (lockIXOnTable lt { txn with state := .growing } fd).txn.txnId = txn.txnId :=
      (lockOnTable_follows _ _ lt { txn with state := .growing } fd).txnId
    have hfree : ¬ refused (fun _ => true) (lt (.record fd rid)) txn.txnId = true := by
      simpa [refused] using hrecord
    unfold lockExclusiveOnRecord enter
    rw [if_neg hstate]
    dsimp only
    rw [if_pos htable, hqueue, if_neg hfree]
    exact ⟨rfl, LockTable.mem_push.mpr (.inr ⟨rfl, congrArg (LockRequest.mk · .X) hid.symm⟩)⟩

theorem lockExclusiveOnRecord_granted {rid : Rid}
    (h : (lockExclusiveOnRecord lt txn rid fd).granted = true) :
    ⟨txn.txnId, .IX⟩ ∈ (lockExclusiveOnRecord lt txn rid fd).lockTable (.table fd) := by
  unfold lockExclusiveOnRecord enter at h ⊢
  split at h
  · cases h
  · rename_i hstate
    rw [if_neg hstate]
    dsimp only at h ⊢
    split at h
    · rename_i htab
      have hIX : (⟨txn.txnId, .IX⟩ : LockRequest) ∈
          (lockIXOnTable lt { txn with state := .growing } fd).lockTable (.table fd) :=
        lockOnTable_granted htab
      rw [if_pos htab]
      split at h
      · cases h
      · rename_i hfree
        rw [if_neg hfree]
        exact LockTable.mem_push.mpr (.inl hIX)
    · rename_i htab
      exact absurd h htab

end LockManager

/-- The transaction that asks for a lock. -/
def LockCall.requester : LockCall → Option TxnId
  | sharedOnRecord t _ _ => some t
  | exclusiveOnRecord t _ _ => some t
  | sharedOnTable t _ => some t
  | exclusiveOnTable t _ => some t
  | isOnTable t _ => some t
  | ixOnTable t _ => some t
  | sixOnTable t _ => some t
  | unlock _ _ => none
  | setState _ _ => none

namespace LockState

variable {s : LockState} {t t' : TxnId} {c : LockCall} {id : LockDataId} {q : LockRequest}

theorem call_grows (hc : c.requester = some t) (hq : q ∈ s.lockTable id) : q ∈ (s.call c).lockTable id := by
  cases c with
  | sharedOnRecord t rid fd => exact LockManager.lockSharedOnRecord_grows hq
  | exclusiveOnRecord t rid fd => exact LockManager.lockExclusiveOnRecord_grows hq
  | sharedOnTable t fd => exact LockManager.lockOnTable_grows hq
  | exclusiveOnTable t fd => exact LockManager.lockOnTable_grows hq
  | isOnTable t fd => exact LockManager.lockOnTable_grows hq
  | ixOnTable t fd => exact LockManager.lockOnTable_grows hq
  | sixOnTable t fd => exact LockManager.lockOnTable_grows hq
  | unlock t id => cases hc
  | setState t st => cases hc

/-- A request is a matter of one transaction. -/
theorem call_follows (hc : c.requester = some t) :
    ∃ o : LockOutcome, s.call c = s.after t o ∧ o.Follows s.lockTable (s.txns t) := by
  cases c with
  | sharedOnRecord t rid fd =>
    cases hc
    exact ⟨_, rfl, LockManager.lockSharedOnRecord_follows _ _ rid fd⟩
  | exclusiveOnRecord t rid fd =>
    cases hc
    exact ⟨_, rfl, LockManager.lockExclusiveOnRecord_follows _ _ rid fd⟩
  | sharedOnTable t fd | exclusiveOnTable t fd | isOnTable t fd | ixOnTable t fd | sixOnTable t fd =>
    cases hc
    exact ⟨_, rfl, LockManager.lockOnTable_follows _ _ _ _ fd⟩
  | unlock t id => cases hc
  | setState t st => cases hc

theorem call_txns_of_ne (hc : c.requester = some t) (hne : t' ≠ t) : (s.call c).txns t' = s.txns t' := by
  obtain ⟨o, ho, -⟩ := call_follows hc
  rw [ho]
  exact if_neg hne

theorem call_new (hcov : s.Covered) (hc : c.requester = some t) (hq : q ∈ (s.call c).lockTable id) :
    q ∈ s.lockTable id ∨ q.txnId = t := by
  obtain ⟨o, ho, hfollows⟩ := @call_follows s t c hc
  rw [ho] at hq
  exact (hfollows.requests id q hq).imp_right fun h => h.1.trans (hcov.txnId t)

end LockState

-- ---------------------------------------------------------------------------
-- What a request adds
-- ---------------------------------------------------------------------------

/-- The locks that a call asks for. -/
def LockCall.requests : LockCall → List (LockDataId × LockMode)
  | sharedOnRecord _ rid fd => [(.table fd, .IS), (.record fd rid, .S)]
  | exclusiveOnRecord _ rid fd => [(.table fd, .IX), (.record fd rid, .X)]
  | sharedOnTable _ fd => [(.table fd, .S)]
  | exclusiveOnTable _ fd => [(.table fd, .X)]
  | isOnTable _ fd => [(.table fd, .IS)]
  | ixOnTable _ fd => [(.table fd, .IX)]
  | sixOnTable _ fd => [(.table fd, .SIX)]
  | unlock _ _ => []
  | setState _ _ => []

namespace LockManager

variable {lt : LockTable} {txn : Transaction} {fd : Int} {id : LockDataId} {q : LockRequest}

theorem lockOnTable_request {conflicts : LockMode → Bool} {mode : LockMode}
    (hq : q ∈ (lockOnTable conflicts mode lt txn fd).lockTable id) :
    q ∈ lt id ∨ (id, q.lockMode) = (.table fd, mode) := by
  rcases lockOnTable_cases conflicts mode lt txn fd with ⟨-, hlt, -⟩ | ⟨ho, -, -⟩
  · rw [hlt] at hq
    exact .inl hq
  · rw [ho] at hq
    refine (LockTable.mem_push.mp hq).imp_right ?_
    rintro ⟨rfl, rfl⟩
    rfl

/-- A request on a record is two requests. -/
theorem record_request {o : LockOutcome} {rid : Rid} {mode tableMode : LockMode}
    (htable : ∀ q ∈ o.lockTable id, q ∈ lt id ∨ (id, q.lockMode) = (.table fd, tableMode))
    (hq : q ∈ (o.lockTable.push (.record fd rid) ⟨o.txn.txnId, mode⟩) id) :
    q ∈ lt id ∨ (id, q.lockMode) ∈ [(LockDataId.table fd, tableMode), (.record fd rid, mode)] := by
  rcases LockTable.mem_push.mp hq with hold | ⟨rfl, rfl⟩
  · exact (htable q hold).imp_right fun heq => by rw [heq]; exact List.mem_cons_self
  · exact .inr (List.mem_cons_of_mem _ List.mem_cons_self)

theorem lockSharedOnRecord_request {rid : Rid} (hq : q ∈ (lockSharedOnRecord lt txn rid fd).lockTable id) :
    q ∈ lt id ∨ (id, q.lockMode) ∈ [(LockDataId.table fd, LockMode.IS), (.record fd rid, .S)] := by
  have htable : ∀ q ∈ (lockISOnTable lt { txn with state := .growing } fd).lockTable id,
      q ∈ lt id ∨ (id, q.lockMode) = (.table fd, .IS) := fun q hq => lockOnTable_request hq
  have hfirst : q ∈ (lockISOnTable lt { txn with state := .growing } fd).lockTable id →
      q ∈ lt id ∨ (id, q.lockMode) ∈ [(LockDataId.table fd, LockMode.IS), (.record fd rid, .S)] := fun hq =>
    (htable q hq).imp_right fun heq => by rw [heq]; exact List.mem_cons_self
  unfold lockSharedOnRecord enter at hq
  split at hq
  · exact .inl hq
  · split at hq
    · exact .inl hq
    · dsimp only at hq
      split at hq
      · split at hq
        · exact hfirst hq
        · exact record_request htable hq
      · exact hfirst hq

theorem lockExclusiveOnRecord_request {rid : Rid} (hq : q ∈ (lockExclusiveOnRecord lt txn rid fd).lockTable id) :
    q ∈ lt id ∨ (id, q.lockMode) ∈ [(LockDataId.table fd, LockMode.IX), (.record fd rid, .X)] := by
  have htable : ∀ q ∈ (lockIXOnTable lt { txn with state := .growing } fd).lockTable id,
      q ∈ lt id ∨ (id, q.lockMode) = (.table fd, .IX) := fun q hq => lockOnTable_request hq
  have hfirst : q ∈ (lockIXOnTable lt { txn with state := .growing } fd).lockTable id →
      q ∈ lt id ∨ (id, q.lockMode) ∈ [(LockDataId.table fd, LockMode.IX), (.record fd rid, .X)] := fun hq =>
    (htable q hq).imp_right fun heq => by rw [heq]; exact List.mem_cons_self
  unfold lockExclusiveOnRecord enter at hq
  split at hq
  · exact .inl hq
  · dsimp only at hq
    split at hq
    · split at hq
      · exact hfirst hq
      · exact record_request htable hq
    · exact hfirst hq

end LockManager

/-- What is new in the lock table was asked for. -/
theorem LockState.call_requests {l : LockState} {t : TxnId} {c : LockCall} {id : LockDataId} {q : LockRequest}
    (hc : c.requester = some t) (hq : q ∈ (l.call c).lockTable id) :
    q ∈ l.lockTable id ∨ (id, q.lockMode) ∈ c.requests := by
  cases c with
  | sharedOnRecord t rid fd => exact LockManager.lockSharedOnRecord_request hq
  | exclusiveOnRecord t rid fd => exact LockManager.lockExclusiveOnRecord_request hq
  | sharedOnTable t fd | exclusiveOnTable t fd | isOnTable t fd | ixOnTable t fd | sixOnTable t fd =>
    exact (LockManager.lockOnTable_request hq).imp_right List.mem_singleton.mpr
  | unlock t id => cases hc
  | setState t state => cases hc

-- ---------------------------------------------------------------------------
-- Growing
-- ---------------------------------------------------------------------------

@[simp] theorem Transaction.addLock_state (txn : Transaction) (id : LockDataId) :
    (txn.addLock id).state = txn.state := by
  unfold addLock
  split
  · rfl
  · rfl

namespace LockManager

variable {lt : LockTable} {txn : Transaction} {fd : Int} {rid : Rid}

theorem lockOnTable_growing {conflicts : LockMode → Bool} {mode : LockMode} (h : txn.state ≠ .shrinking) :
    (lockOnTable conflicts mode lt txn fd).txn.state = .growing := by
  unfold lockOnTable enter
  rw [if_neg h]
  dsimp only
  split
  · rfl
  · exact Transaction.addLock_state _ _

theorem lockSharedOnRecord_state (h : txn.state ≠ .shrinking) :
    (lockSharedOnRecord lt txn rid fd).txn.state ≠ .shrinking := by
  have htable : (lockISOnTable lt { txn with state := .growing } fd).txn.state = .growing :=
    lockOnTable_growing (by simp)
  unfold lockSharedOnRecord enter
  split
  · exact h
  · dsimp only
    split
    · split
      · simp [htable]
      · simp [grant, htable]
    · simp [htable]

theorem lockExclusiveOnRecord_state (h : txn.state ≠ .shrinking) :
    (lockExclusiveOnRecord lt txn rid fd).txn.state ≠ .shrinking := by
  have htable : (lockIXOnTable lt { txn with state := .growing } fd).txn.state = .growing :=
    lockOnTable_growing (by simp)
  unfold lockExclusiveOnRecord enter
  rw [if_neg h]
  dsimp only
  split
  · split
    · simp [htable]
    · simp [grant, htable]
  · simp [htable]

end LockManager

namespace LockState

variable {s : LockState} {t : TxnId} {c : LockCall}

/-- No request makes a transaction release locks. -/
theorem call_state {t' : TxnId} (hc : c.requester = some t') (h : (s.txns t).state ≠ .shrinking) :
    ((s.call c).txns t).state ≠ .shrinking := by
  have htable : ∀ {conflicts mode fd}, (LockManager.lockOnTable conflicts mode s.lockTable (s.txns t) fd).txn.state ≠
      .shrinking := fun {_ _ _} => by simp [LockManager.lockOnTable_growing h]
  by_cases hne : t = t'
  · subst hne
    cases c with
    | sharedOnRecord t rid fd =>
      cases hc
      simpa [call, LockState.after, setTxn] using LockManager.lockSharedOnRecord_state h
    | exclusiveOnRecord t rid fd =>
      cases hc
      simpa [call, LockState.after, setTxn] using LockManager.lockExclusiveOnRecord_state h
    | sharedOnTable t fd | exclusiveOnTable t fd | isOnTable t fd | ixOnTable t fd | sixOnTable t fd =>
      cases hc
      have hafter : ∀ o : LockOutcome, (s.after t o).txns t = o.txn := fun o => if_pos rfl
      exact (congrArg (·.state ≠ .shrinking) (hafter _)).mpr htable
    | unlock t id => cases hc
    | setState t st => cases hc
  · rw [call_txns_of_ne hc hne]
    exact h

end LockState

-- ---------------------------------------------------------------------------
-- Intention locks
-- ---------------------------------------------------------------------------

namespace LockTable

/-- The transaction has an IX lock on the table of every record on which it has an X lock. -/
def Intends (lt : LockTable) (t : TxnId) : Prop :=
  ∀ fd rid, ⟨t, .X⟩ ∈ lt (.record fd rid) → ⟨t, .IX⟩ ∈ lt (.table fd)

/-- An exclusive lock on the record, or on its table. -/
def HoldsX (lt : LockTable) (t : TxnId) (fd : Int) (rid : Rid) : Prop :=
  ⟨t, .X⟩ ∈ lt (.record fd rid) ∨ ⟨t, .X⟩ ∈ lt (.table fd)

variable {lt lt' : LockTable} {t t' : TxnId} {fd : Int} {rid : Rid}

theorem HoldsX.mono (h : lt.HoldsX t fd rid)
    (hsub : ∀ id, ∀ q ∈ lt id, q.txnId = t → q ∈ lt' id) : lt'.HoldsX t fd rid :=
  h.imp (fun hq => hsub _ _ hq rfl) fun hq => hsub _ _ hq rfl

/-- X locks on a record keep out whoever has an IX lock on the table and is alone at the record. -/
theorem HoldsX.eq_of_alone (hok : lt.Ok) (h : lt.HoldsX t fd rid) (hIX : ⟨t', .IX⟩ ∈ lt (.table fd))
    (halone : ∀ q ∈ lt (.record fd rid), q.txnId = t') : t = t' := by
  by_contra hne
  rcases h with h | h
  · exact hne (halone _ h)
  · exact Bool.false_ne_true (hok.compatible _ _ h _ hIX hne)

/-- Exclusive locks exclude each other. -/
theorem HoldsX.unique (hok : lt.Ok) (hintends : lt.Intends t) (hintends' : lt.Intends t') (h : lt.HoldsX t fd rid)
    (h' : lt.HoldsX t' fd rid) : t = t' := by
  by_contra hne
  have hsame : ∀ {id m m'}, (⟨t, m⟩ : LockRequest) ∈ lt id → (⟨t', m'⟩ : LockRequest) ∈ lt id →
      m.compatible m' = true := fun hm hm' => hok.compatible _ _ hm _ hm' hne
  rcases h with h | h
  · rcases h' with h' | h'
    · exact Bool.false_ne_true (hsame h h')
    · exact Bool.false_ne_true (hsame (hintends fd rid h) h')
  · rcases h' with h' | h'
    · exact Bool.false_ne_true (hsame h (hintends' fd rid h'))
    · exact Bool.false_ne_true (hsame h h')

theorem Intends.push (h : lt.Intends t) {id : LockDataId} {q : LockRequest}
    (hq : ∀ fd rid, id = .record fd rid → q = ⟨t, .X⟩ → ⟨t, .IX⟩ ∈ lt (.table fd)) : (lt.push id q).Intends t := by
  intro fd rid hmem
  rcases mem_push.mp hmem with hold | ⟨hid, heq⟩
  · exact mem_push.mpr (.inl (h fd rid hold))
  · exact mem_push.mpr (.inl (hq fd rid hid.symm heq.symm))

theorem Intends.congr (h : lt.Intends t) (hsame : ∀ id m, ⟨t, m⟩ ∈ lt' id ↔ ⟨t, m⟩ ∈ lt id) : lt'.Intends t :=
  fun fd rid hmem => (hsame _ _).mpr (h fd rid ((hsame _ _).mp hmem))

end LockTable

namespace LockManager

variable {lt : LockTable} {txn : Transaction} {fd : Int} {rid : Rid} {t : TxnId}

theorem lockOnTable_intends {conflicts : LockMode → Bool} {mode : LockMode} (h : lt.Intends t) :
    (lockOnTable conflicts mode lt txn fd).lockTable.Intends t := by
  rcases lockOnTable_cases conflicts mode lt txn fd with ⟨-, hlt, -⟩ | ⟨ho, -, -⟩
  · rwa [hlt]
  · rw [ho]
    refine h.push fun fd' rid hid _ => ?_
    exact absurd hid.symm (LockDataId.record_ne_table fd' fd rid)

theorem lockSharedOnRecord_intends (h : lt.Intends t) : (lockSharedOnRecord lt txn rid fd).lockTable.Intends t := by
  unfold lockSharedOnRecord enter
  split
  · exact h
  · split
    · exact h
    · have htab := @lockOnTable_intends lt { txn with state := .growing } fd t (fun m => m == .X) .IS h
      dsimp only
      split
      · split
        · exact htab
        · exact LockTable.Intends.push htab fun _ _ _ heq => by cases congrArg LockRequest.lockMode heq
      · exact htab

theorem lockExclusiveOnRecord_intends (h : lt.Intends t) :
    (lockExclusiveOnRecord lt txn rid fd).lockTable.Intends t := by
  unfold lockExclusiveOnRecord enter
  split
  · exact h
  · have htab := @lockOnTable_intends lt { txn with state := .growing } fd t
      (fun m => m == .S || m == .SIX || m == .X) .IX h
    dsimp only
    split
    · rename_i hgranted
      split
      · exact htab
      · refine LockTable.Intends.push htab fun fd' rid' hid heq => ?_
        obtain rfl : fd = fd' := congrArg LockDataId.fd hid
        have hid' := (lockOnTable_follows (fun m => m == .S || m == .SIX || m == .X) .IX lt
          { txn with state := .growing } fd).txnId
        obtain rfl : txn.txnId = t := hid'.symm.trans (congrArg LockRequest.txnId heq)
        exact lockOnTable_granted hgranted
    · exact htab

end LockManager

namespace LockState

variable {s : LockState} {t t' : TxnId} {c : LockCall} {id : LockDataId}

theorem call_intends (hc : c.requester = some t') (h : s.lockTable.Intends t) : (s.call c).lockTable.Intends t := by
  cases c with
  | sharedOnRecord t rid fd => exact LockManager.lockSharedOnRecord_intends h
  | exclusiveOnRecord t rid fd => exact LockManager.lockExclusiveOnRecord_intends h
  | sharedOnTable t fd => exact LockManager.lockOnTable_intends h
  | exclusiveOnTable t fd => exact LockManager.lockOnTable_intends h
  | isOnTable t fd => exact LockManager.lockOnTable_intends h
  | ixOnTable t fd => exact LockManager.lockOnTable_intends h
  | sixOnTable t fd => exact LockManager.lockOnTable_intends h
  | unlock t id => cases hc
  | setState t st => cases hc

/-- The queues behind `unlock`. -/
theorem mem_unlock (hcov : s.Covered) {id' : LockDataId} {q : LockRequest} :
    q ∈ (s.call (.unlock t id)).lockTable id' ↔ q ∈ s.lockTable id' ∧ (id' = id → q.txnId ≠ t) := by
  have hqueue : (s.call (.unlock t id)).lockTable id' =
      if id' = id then (s.lockTable id).filter fun lock => lock.txnId != (s.txns t).txnId else s.lockTable id' := rfl
  rw [hqueue, hcov.txnId t]
  by_cases hid : id' = id
  · subst hid
    simp
  · simp [hid]

theorem mem_releaseLocks (hcov : s.Covered) {q : LockRequest} :
    q ∈ (s.releaseLocks t).lockTable id ↔ q ∈ s.lockTable id ∧ q.txnId ≠ t := by
  rw [hcov.releaseLocks_lockTable, List.mem_filter, bne_iff_ne]

end LockState

end Rmdb
