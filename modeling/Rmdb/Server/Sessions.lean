-- SUMMARY: What every session keeps in order: transactions belong to their clients and hold the locks in their lock sets.
import Rmdb.Server.ClientHandler

/-!
# Invariants of sessions

One lemma for each thing that the lock manager and the transaction manager do on behalf of a
transaction, and from these the invariant that all runs of the clients keep.
-/

namespace Rmdb

-- ---------------------------------------------------------------------------
-- Asking for locks
-- ---------------------------------------------------------------------------

/-- What a request leaves behind if the transaction is active: the transaction is growing, and requests that
are new in the table are its own and are in its lock set. -/
structure LockOutcome.Asked (lt : LockTable) (txn : Transaction) (o : LockOutcome) : Prop where
  txnId : o.txn.txnId = txn.txnId
  state : o.txn.state = .growing
  lockSet : ∀ id ∈ txn.lockSet, id ∈ o.txn.lockSet
  table : ∀ id, ∀ r ∈ o.lockTable id, r ∈ lt id ∨ r.txnId = txn.txnId ∧ id ∈ o.txn.lockSet

namespace LockManager

variable {lt : LockTable} {txn : Transaction} {o : LockOutcome}

theorem mem_addLock {id id' : LockDataId} : id' ∈ (txn.addLock id).lockSet ↔ id' ∈ txn.lockSet ∨ id' = id := by
  unfold Transaction.addLock
  split
  · rename_i h
    refine ⟨.inl, fun h' => ?_⟩
    rcases h' with h' | rfl
    · exact h'
    · exact h
  · simp

@[simp] theorem addLock_state {id : LockDataId} : (txn.addLock id).state = txn.state := by
  unfold Transaction.addLock
  split <;> rfl

/-- The transaction when the request is refused. -/
theorem asked_refused (answer : Except TransactionAbortException Bool) (h : txn.state = .growing) :
    LockOutcome.Asked lt txn ⟨answer, lt, txn⟩ :=
  ⟨rfl, h, fun _ h => h, fun _ _ h => .inl h⟩

theorem asked_grant {id : LockDataId} {mode : LockMode} (h : txn.state = .growing) :
    LockOutcome.Asked lt txn (grant lt txn id mode) := by
  refine ⟨by simp [grant], by simp [grant, h], fun id' hid => mem_addLock.mpr (.inl hid), fun id' r hr => ?_⟩
  rcases LockTable.mem_push.mp hr with hr | ⟨rfl, rfl⟩
  · exact .inl hr
  · exact .inr ⟨rfl, mem_addLock.mpr (.inr rfl)⟩

/-- Two requests in a row, as the record locks make them. -/
theorem asked_trans {o₁ o₂ : LockOutcome} (h₁ : o₁.Asked lt txn) (h₂ : o₂.Asked o₁.lockTable o₁.txn) : o₂.Asked lt txn := by
  refine ⟨h₂.txnId.trans h₁.txnId, h₂.state, fun id hid => h₂.lockSet id (h₁.lockSet id hid), fun id r hr => ?_⟩
  rcases h₂.table id r hr with hr | ⟨ht, hid⟩
  · rcases h₁.table id r hr with hr | ⟨ht, hid⟩
    · exact .inl hr
    · exact .inr ⟨ht, h₂.lockSet id hid⟩
  · exact .inr ⟨ht.trans h₁.txnId, hid⟩

/-- Being set to growing is no change that `Asked` sees. -/
theorem asked_enter {body : Transaction → LockOutcome} (hstate : txn.state ≠ .shrinking)
    (hbody : (body { txn with state := .growing }).Asked lt { txn with state := .growing }) :
    (enter lt txn body).Asked lt txn := by
  rw [enter, if_neg hstate]
  exact ⟨hbody.txnId, hbody.state, hbody.lockSet, hbody.table⟩

theorem asked_lockOnTable {conflicts : LockMode → Bool} {mode : LockMode} {tabFd : Int} (hstate : txn.state ≠ .shrinking) :
    (lockOnTable conflicts mode lt txn tabFd).Asked lt txn := by
  refine asked_enter hstate ?_
  dsimp only
  split
  · exact asked_refused _ rfl
  · exact asked_grant rfl

theorem asked_lockSharedOnRecord {rid : Rid} {tabFd : Int} (hstate : txn.state ≠ .shrinking) (haborted : txn.state ≠ .aborted) :
    (lockSharedOnRecord lt txn rid tabFd).Asked lt txn := by
  rw [lockSharedOnRecord, if_neg haborted]
  refine asked_enter hstate ?_
  dsimp only
  have htable : (lockISOnTable lt { txn with state := .growing } tabFd).Asked lt { txn with state := .growing } :=
    asked_lockOnTable (by simp)
  split
  · split
    · exact asked_trans htable (asked_refused _ htable.state)
    · exact asked_trans htable (asked_grant htable.state)
  · exact htable

theorem asked_lockExclusiveOnRecord {rid : Rid} {tabFd : Int} (hstate : txn.state ≠ .shrinking) :
    (lockExclusiveOnRecord lt txn rid tabFd).Asked lt txn := by
  refine asked_enter hstate ?_
  dsimp only
  have htable : (lockIXOnTable lt { txn with state := .growing } tabFd).Asked lt { txn with state := .growing } :=
    asked_lockOnTable (by simp)
  split
  · split
    · exact asked_trans htable (asked_refused _ htable.state)
    · exact asked_trans htable (asked_grant htable.state)
  · exact htable

end LockManager

/-- What a request does to the locks of all transactions. -/
theorem LockState.call_asked {s : LockState} {call : LockCall} {t : TxnId} (hasks : call.asks = some t)
    (hshrinking : (s.txns t).state ≠ .shrinking) (haborted : (s.txns t).state ≠ .aborted) :
    ∃ o : LockOutcome, o.Asked s.lockTable (s.txns t) ∧ s.call call = s.after t o := by
  cases call with
  | sharedOnRecord t' rid fd =>
    cases hasks
    exact ⟨_, LockManager.asked_lockSharedOnRecord hshrinking haborted, rfl⟩
  | exclusiveOnRecord t' rid fd =>
    cases hasks
    exact ⟨_, LockManager.asked_lockExclusiveOnRecord hshrinking, rfl⟩
  | sharedOnTable t' fd =>
    cases hasks
    exact ⟨_, LockManager.asked_lockOnTable hshrinking, rfl⟩
  | exclusiveOnTable t' fd =>
    cases hasks
    exact ⟨_, LockManager.asked_lockOnTable hshrinking, rfl⟩
  | isOnTable t' fd =>
    cases hasks
    exact ⟨_, LockManager.asked_lockOnTable hshrinking, rfl⟩
  | ixOnTable t' fd =>
    cases hasks
    exact ⟨_, LockManager.asked_lockOnTable hshrinking, rfl⟩
  | sixOnTable t' fd =>
    cases hasks
    exact ⟨_, LockManager.asked_lockOnTable hshrinking, rfl⟩
  | unlock t' id => cases hasks
  | setState t' state => cases hasks

-- ---------------------------------------------------------------------------
-- Giving locks back
-- ---------------------------------------------------------------------------

/-- A transaction that is not growing gives back locks: its requests leave these queues, and nothing else changes. -/
theorem LockState.foldl_unlock {t : TxnId} (ids : List LockDataId) (s : LockState) (hid : (s.txns t).txnId = t)
    (hstate : (s.txns t).state ≠ .growing) :
    (ids.foldl (fun s id => s.call (.unlock t id)) s).txns = s.txns ∧
      ∀ id r, r ∈ (ids.foldl (fun s id => s.call (.unlock t id)) s).lockTable id ↔
        r ∈ s.lockTable id ∧ (id ∈ ids → r.txnId ≠ t) := by
  induction ids generalizing s with
  | nil => exact ⟨rfl, by simp⟩
  | cons id ids ih =>
    have htxns : (s.call (.unlock t id)).txns = s.txns := by
      funext t'
      show (if t' = t then _ else _) = _
      split
      · rename_i ht
        subst ht
        exact if_neg hstate
      · rfl
    obtain ⟨ih₁, ih₂⟩ := ih (s.call (.unlock t id)) (by rw [htxns]; exact hid) (by rw [htxns]; exact hstate)
    refine ⟨ih₁.trans htxns, fun id' r => ?_⟩
    have htable : r ∈ (s.call (.unlock t id)).lockTable id' ↔ r ∈ s.lockTable id' ∧ (id' = id → r.txnId ≠ t) := by
      show r ∈ (if id' = id then _ else _) ↔ _
      split
      · rename_i h
        subst h
        simp [hid]
      · rename_i h
        simp [h]
    rw [List.foldl_cons, ih₂, htable, List.mem_cons]
    constructor
    · rintro ⟨⟨h₁, h₂⟩, h₃⟩
      exact ⟨h₁, fun h => h.elim h₂ h₃⟩
    · rintro ⟨h₁, h₂⟩
      exact ⟨⟨h₁, fun h => h₂ (.inl h)⟩, fun h => h₂ (.inr h)⟩

/-- Every request in the table is for an object in the lock set of its transaction. -/
def LockState.Covers (s : LockState) : Prop :=
  ∀ id, ∀ r ∈ s.lockTable id, id ∈ (s.txns r.txnId).lockSet

/-- The locks once a transaction has ended. -/
structure LockState.Ended (s s' : LockState) (t : TxnId) (state : TransactionState) : Prop where
  self : s'.txns t = ⟨t, state, []⟩
  other : ∀ t', t' ≠ t → s'.txns t' = s.txns t'
  table : ∀ id r, r ∈ s'.lockTable id ↔ r ∈ s.lockTable id ∧ r.txnId ≠ t

/-- `set_state` and `release_locks`, one after the other. -/
theorem LockState.ended_releaseLocks {s : System} {t : TxnId} {state : TransactionState} (hid : (s.locks.txns t).txnId = t)
    (hstate : state ≠ .growing) (hcovers : s.locks.Covers) :
    LockState.Ended s.locks ((s.setState t state).releaseLocks t).locks t state := by
  have hset : (s.setState t state).locks.txns t = { s.locks.txns t with state := state } := if_pos rfl
  obtain ⟨htxns, htable⟩ := foldl_unlock ((s.setState t state).locks.txns t).lockSet (s.setState t state).locks
    (by rw [hset]; exact hid) (by rw [hset]; exact hstate)
  refine ⟨?_, fun t' ht' => ?_, fun id r => ?_⟩
  · show (if t = t then _ else _) = _
    rw [if_pos rfl, htxns, hset]
    simp [hid]
  · show (if t' = t then _ else _) = _
    rw [if_neg ht', htxns]
    exact if_neg ht'
  · refine (htable id r).trans (and_congr_right fun hr => ?_)
    rw [hset]
    refine ⟨fun h ht => h ?_ ht, fun h _ => h⟩
    have := hcovers id r hr
    rwa [ht] at this

-- ---------------------------------------------------------------------------
-- Undoing writes
-- ---------------------------------------------------------------------------

/-- The types of the records that stand between the first and the last record of a transaction. -/
def LogType.isWork : LogType → Bool
  | .begin => false
  | .commit => false
  | .abort => false
  | _ => true

theorem WType.isWork_logType (type : WType) : type.logType.isWork = true := by
  cases type <;> rfl

theorem WType.isWork_setCLR (type : WType) : type.logType.setCLR.isWork = true := by
  cases type <;> rfl

/-- Undoing shortens the write set and the writes in the tables, and logs it. -/
theorem System.rollbacks_eq (t : TxnId) (k : Nat) (s : System) : ∃ clrs : List (LogType × TxnId),
    (∀ e ∈ clrs, e.2 = t ∧ e.1.isWork = true) ∧ rollbacks t k s = { s with
      writeSet := Function.update s.writeSet t ((s.writeSet t).take ((s.writeSet t).length - k))
      tables := Function.update s.tables t ((s.tables t).take ((s.tables t).length - min k (s.writeSet t).length))
      log := s.log ++ clrs } := by
  induction k generalizing s with
  | zero =>
    refine ⟨[], by simp, ?_⟩
    simp [rollbacks]
  | succ k ih =>
    cases hlast : (s.writeSet t).getLast? with
    | none =>
      have hnil : s.writeSet t = [] := List.getLast?_eq_none_iff.mp hlast
      have hstep : s.rollback t = s := by simp [rollback, hlast]
      obtain ⟨clrs, hclrs, heq⟩ := ih s
      refine ⟨clrs, hclrs, ?_⟩
      rw [rollbacks, hstep, heq]
      simp [hnil]
    | some write =>
      have hne : s.writeSet t ≠ [] := by
        intro h
        simp [h] at hlast
      have hpos := List.length_pos_iff.mpr hne
      have hstep : s.rollback t = { s with
          writeSet := Function.update s.writeSet t (s.writeSet t).dropLast
          tables := Function.update s.tables t (s.tables t).dropLast
          log := s.log ++ [(write.type.logType.setCLR, t)] } := by
        simp [rollback, hlast]
      obtain ⟨clrs, hclrs, heq⟩ := ih (s.rollback t)
      refine ⟨(write.type.logType.setCLR, t) :: clrs, ?_, ?_⟩
      · intro e he
        rcases List.mem_cons.mp he with rfl | he
        · exact ⟨rfl, write.type.isWork_setCLR⟩
        · exact hclrs e he
      · rw [rollbacks, heq, hstep]
        have hw : (s.writeSet t).dropLast.take ((s.writeSet t).dropLast.length - k) =
            (s.writeSet t).take ((s.writeSet t).length - (k + 1)) := by
          rw [List.dropLast_eq_take, List.take_take, List.length_take]
          congr 1
          omega
        have ht : (s.tables t).dropLast.take ((s.tables t).dropLast.length - min k (s.writeSet t).dropLast.length) =
            (s.tables t).take ((s.tables t).length - min (k + 1) (s.writeSet t).length) := by
          rw [List.dropLast_eq_take, List.take_take, List.length_take, List.length_dropLast]
          congr 1
          omega
        simp only [Function.update_self, Function.update_idem, hw, ht, List.append_assoc, List.singleton_append]

-- ---------------------------------------------------------------------------
-- The invariant
-- ---------------------------------------------------------------------------

namespace System

/-- The transaction can still be used. -/
def Active (s : System) (t : TxnId) : Prop := (s.stateOf t).isEnded = false

/-- Transactions belong to the clients that started them, and their lock sets say which requests are theirs. -/
structure Inv (s : System) : Prop where
  txnId : ∀ t, (s.locks.txns t).txnId = t
  current : ∀ c t, (s.clients c).txnId = some t → s.startedBy t = some c
  fresh : ∀ t, s.nextTxnId ≤ t → s.startedBy t = none
  covers : s.locks.Covers
  started : ∀ id, ∀ r ∈ s.locks.lockTable id, s.startedBy r.txnId ≠ none
  state : ∀ t, s.Active t → s.stateOf t = .default ∨ s.stateOf t = .growing

/-- A client that runs a request has an active transaction. -/
def Running (s : System) : Prop :=
  ∀ c request cmd, (s.clients c).phase = .running request cmd → ∃ t, (s.clients c).txnId = some t ∧ s.Active t

variable {s s' : System} {c : ClientId} {t : TxnId}

theorem Inv.init : init.Inv where
  txnId _ := rfl
  current _ _ h := by cases h
  fresh _ _ := rfl
  covers _ _ hr := by cases hr
  started _ _ hr := by cases hr
  state _ _ := .inl rfl

/-- No two clients have the same transaction. -/
theorem Inv.client_unique (h : s.Inv) {c' : ClientId} (hc : (s.clients c).txnId = some t)
    (hc' : (s.clients c').txnId = some t) : c = c' :=
  Option.some.inj ((h.current c t hc).symm.trans (h.current c' t hc'))

/-- Only what the invariant is about matters to it. -/
theorem Inv.congr (h : s.Inv) (hlocks : s'.locks = s.locks) (hclients : ∀ c, (s'.clients c).txnId = (s.clients c).txnId)
    (hstarted : s'.startedBy = s.startedBy) (hnext : s'.nextTxnId = s.nextTxnId) : s'.Inv where
  txnId t := by rw [hlocks]; exact h.txnId t
  current c t hc := by rw [hstarted]; exact h.current c t (hclients c ▸ hc)
  fresh t ht := by rw [hstarted]; exact h.fresh t (hnext ▸ ht)
  covers := by rw [hlocks]; exact h.covers
  started := by rw [hlocks, hstarted]; exact h.started
  state t ht := by
    have hstate : s'.stateOf t = s.stateOf t := by rw [stateOf, hlocks, stateOf]
    rw [Active, hstate] at ht
    rw [hstate]
    exact h.state t ht

/-- The transaction `t` ends, or at least its state becomes that of one that has ended. -/
theorem Inv.locks (h : s.Inv) (hself : (s'.locks.txns t).txnId = t) (hother : ∀ t', t' ≠ t → s'.locks.txns t' = s.locks.txns t')
    (hstate : s'.Active t → s'.stateOf t = .default ∨ s'.stateOf t = .growing)
    (htable : ∀ id, ∀ r ∈ s'.locks.lockTable id, r ∈ s.locks.lockTable id ∧ (r.txnId = t → id ∈ (s'.locks.txns t).lockSet) ∨
      r.txnId = t ∧ id ∈ (s'.locks.txns t).lockSet) (ht : s.startedBy t ≠ none)
    (hclients : s'.clients = s.clients) (hstarted : s'.startedBy = s.startedBy) (hnext : s'.nextTxnId = s.nextTxnId) :
    s'.Inv where
  txnId t' := by
    by_cases htt : t' = t
    · rw [htt]
      exact hself
    · rw [hother t' htt]
      exact h.txnId t'
  current c t hc := by rw [hstarted]; exact h.current c t (hclients ▸ hc)
  fresh t ht := by rw [hstarted]; exact h.fresh t (hnext ▸ ht)
  covers id r hr := by
    by_cases hrt : r.txnId = t
    · rw [hrt]
      rcases htable id r hr with ⟨-, hid⟩ | ⟨-, hid⟩
      · exact hid hrt
      · exact hid
    · rw [hother _ hrt]
      rcases htable id r hr with ⟨hr, -⟩ | ⟨hr, -⟩
      · exact h.covers id r hr
      · exact absurd hr hrt
  started id r hr := by
    rw [hstarted]
    rcases htable id r hr with ⟨hr, -⟩ | ⟨hr, -⟩
    · exact h.started id r hr
    · rw [hr]
      exact ht
  state t' ht' := by
    by_cases htt : t' = t
    · subst htt
      exact hstate ht'
    · have hsame : s'.stateOf t' = s.stateOf t' := congrArg Transaction.state (hother t' htt)
      rw [Active, hsame] at ht'
      rw [hsame]
      exact h.state t' ht'

/-- A transaction has ended and has no locks left. -/
theorem Inv.ended (h : s.Inv) {state : TransactionState} (hlocks : LockState.Ended s.locks s'.locks t state)
    (hstate : state.isEnded = true) (ht : s.startedBy t ≠ none) (hclients : s'.clients = s.clients)
    (hstarted : s'.startedBy = s.startedBy) (hnext : s'.nextTxnId = s.nextTxnId) : s'.Inv := by
  have hself : s'.stateOf t = state := congrArg Transaction.state hlocks.self
  refine h.locks (by rw [hlocks.self]) hlocks.other (fun hactive => ?_) (fun id r hr => ?_) ht hclients hstarted hnext
  · rw [Active, hself, hstate] at hactive
    cases hactive
  · obtain ⟨hr, hne⟩ := (hlocks.table id r).mp hr
    exact .inl ⟨hr, fun e => absurd e hne⟩

theorem Ended.commit (h : s.Inv) : LockState.Ended s.locks (s.commit t).locks t .committed :=
  LockState.ended_releaseLocks (h.txnId t) (by simp) h.covers

theorem Ended.abort (h : s.Inv) : LockState.Ended s.locks (s.abort t).locks t .aborted := by
  obtain ⟨clrs, -, heq⟩ := rollbacks_eq t (s.writeSet t).length (s.setState t .aborted)
  have hlocks : (s.abort t).locks = ((s.setState t .aborted).releaseLocks t).locks := by
    simp only [System.abort, heq]
    rfl
  rw [hlocks]
  exact LockState.ended_releaseLocks (h.txnId t) (by simp) h.covers

/-- `abort` changes the locks, the write set, the writes in the tables and the log. -/
theorem abort_eq : ∃ clrs : List (LogType × TxnId), (∀ e ∈ clrs, e.2 = t ∧ e.1.isWork = true) ∧
    s.abort t = { s with
      locks := (s.abort t).locks
      writeSet := Function.update s.writeSet t []
      tables := Function.update s.tables t ((s.tables t).take ((s.tables t).length - (s.writeSet t).length))
      log := s.log ++ clrs ++ [(.abort, t)] } := by
  obtain ⟨clrs, hclrs, heq⟩ := rollbacks_eq t (s.writeSet t).length (s.setState t .aborted)
  refine ⟨clrs, hclrs, ?_⟩
  have hws : (s.setState t .aborted).writeSet = s.writeSet := rfl
  have htb : (s.setState t .aborted).tables = s.tables := rfl
  simp only [hws, htb, Nat.min_self] at heq
  simp only [System.abort, heq, releaseLocks, Function.update_idem]
  rfl

theorem abortThrows_eq (k : Nat) : ∃ clrs : List (LogType × TxnId), (∀ e ∈ clrs, e.2 = t ∧ e.1.isWork = true) ∧
    s.abortThrows t k = { s with
      locks := (s.setState t .aborted).locks
      writeSet := (s.abortThrows t k).writeSet
      tables := (s.abortThrows t k).tables
      log := s.log ++ clrs } := by
  obtain ⟨clrs, hclrs, heq⟩ := rollbacks_eq t k (s.setState t .aborted)
  refine ⟨clrs, hclrs, ?_⟩
  simp only [System.abortThrows, heq]
  rfl

theorem Inv.commit (h : s.Inv) (ht : s.startedBy t ≠ none) : (s.commit t).Inv :=
  h.ended (Ended.commit h) rfl ht rfl rfl rfl

theorem Inv.abort (h : s.Inv) (ht : s.startedBy t ≠ none) : (s.abort t).Inv := by
  obtain ⟨clrs, -, heq⟩ := @abort_eq s t
  have hlocks := @Ended.abort s t h
  rw [heq] at hlocks ⊢
  exact h.ended hlocks rfl ht rfl rfl rfl

theorem Inv.begin (h : s.Inv) : (s.begin c).Inv := by
  have hfresh := h.fresh s.nextTxnId (le_refl _)
  have hother : ∀ t, t ≠ s.nextTxnId → (s.begin c).locks.txns t = s.locks.txns t := fun t ht => if_neg ht
  have hself : (s.begin c).locks.txns s.nextTxnId = ⟨s.nextTxnId, .default, []⟩ := if_pos rfl
  refine ⟨fun t => ?_, fun c' t hc' => ?_, fun t ht => ?_, fun id r hr => ?_, fun id r hr => ?_, fun t ht => ?_⟩
  · by_cases ht : t = s.nextTxnId
    · rw [ht, hself]
    · rw [hother t ht]
      exact h.txnId t
  · show Function.update s.startedBy s.nextTxnId (some c) t = some c'
    have hc'' : (Function.update s.clients c { s.clients c with txnId := some s.nextTxnId } c').txnId = some t := hc'
    by_cases hcc : c' = c
    · subst hcc
      rw [Function.update_self] at hc''
      obtain rfl : s.nextTxnId = t := Option.some.inj hc''
      exact Function.update_self ..
    · rw [Function.update_of_ne hcc] at hc''
      have hstarted := h.current c' t hc''
      have hne : t ≠ s.nextTxnId := by
        rintro rfl
        rw [hfresh] at hstarted
        cases hstarted
      rw [Function.update_of_ne hne]
      exact hstarted
  · show Function.update s.startedBy s.nextTxnId (some c) t = none
    have hlt : s.nextTxnId < t := ht
    rw [Function.update_of_ne hlt.ne']
    exact h.fresh t hlt.le
  · have hne : r.txnId ≠ s.nextTxnId := by
      intro e
      exact h.started id r hr (e ▸ hfresh)
    rw [hother _ hne]
    exact h.covers id r hr
  · show Function.update s.startedBy s.nextTxnId (some c) r.txnId ≠ none
    have hne : r.txnId ≠ s.nextTxnId := by
      intro e
      exact h.started id r hr (e ▸ hfresh)
    rw [Function.update_of_ne hne]
    exact h.started id r hr
  · by_cases htn : t = s.nextTxnId
    · subst htn
      rw [stateOf, hself]
      exact .inl rfl
    · have hsame : (s.begin c).stateOf t = s.stateOf t := congrArg Transaction.state (hother t htn)
      rw [Active, hsame] at ht
      rw [hsame]
      exact h.state t ht

/-- `begin` leaves other transactions alone. -/
theorem begin_stateOf (h : s.Inv) (ht : s.startedBy t ≠ none) : (s.begin c).stateOf t = s.stateOf t := by
  have hne : t ≠ s.nextTxnId := by
    rintro rfl
    exact ht (h.fresh _ (le_refl _))
  exact congrArg Transaction.state (if_neg hne)

theorem begin_current : ((s.begin c).clients c).txnId = some s.nextTxnId ∧ (s.begin c).Active s.nextTxnId := by
  refine ⟨?_, ?_⟩
  · show (Function.update s.clients c _ c).txnId = _
    rw [Function.update_self]
  · show ((if s.nextTxnId = s.nextTxnId then _ else _ : Transaction).state).isEnded = false
    rw [if_pos rfl]
    rfl

/-- `SetTransaction` keeps an active transaction or begins one. -/
theorem setTransaction_cases (s : System) (c : ClientId) :
    (s.setTransaction c = s ∧ ∃ t, (s.clients c).txnId = some t ∧ s.Active t) ∨
      (s.setTransaction c = s.begin c ∧ ∀ t, (s.clients c).txnId = some t → ¬ s.Active t) := by
  unfold System.setTransaction
  cases hc : (s.clients c).txnId with
  | none => exact .inr ⟨rfl, by simp⟩
  | some t =>
    dsimp only
    split
    · rename_i hstate
      refine .inr ⟨rfl, fun t' ht' => ?_⟩
      cases ht'
      simpa [Active] using hstate
    · rename_i hstate
      exact .inl ⟨rfl, t, rfl, by simpa [Active] using hstate⟩

theorem Inv.setTransaction (h : s.Inv) : (s.setTransaction c).Inv := by
  rcases setTransaction_cases s c with ⟨heq, -⟩ | ⟨heq, -⟩
  · rw [heq]
    exact h
  · rw [heq]
    exact h.begin

/-- After `SetTransaction` the client has an active transaction. -/
theorem setTransaction_current : ∃ t, ((s.setTransaction c).clients c).txnId = some t ∧ (s.setTransaction c).Active t := by
  rcases setTransaction_cases s c with ⟨heq, hcur⟩ | ⟨heq, -⟩
  · rw [heq]
    exact hcur
  · rw [heq]
    exact ⟨_, begin_current⟩

-- ---------------------------------------------------------------------------
-- What the operations leave alone
-- ---------------------------------------------------------------------------

/-- Everything but the transaction `t` and its client's phase is as before. -/
structure Frame (s s' : System) (t : TxnId) : Prop where
  clients : s'.clients = s.clients
  startedBy : s'.startedBy = s.startedBy
  nextTxnId : s'.nextTxnId = s.nextTxnId
  requests : s'.requests = s.requests
  failed : s'.failed = s.failed
  stateOf : ∀ t', t' ≠ t → s'.stateOf t' = s.stateOf t'
  txnMode : ∀ t', t' ≠ t → s'.txnMode t' = s.txnMode t'
  writeSet : ∀ t', t' ≠ t → s'.writeSet t' = s.writeSet t'
  tables : ∀ t', t' ≠ t → s'.tables t' = s.tables t'

theorem Frame.trans {s₁ s₂ s₃ : System} (h₁ : Frame s₁ s₂ t) (h₂ : Frame s₂ s₃ t) : Frame s₁ s₃ t where
  clients := h₂.clients.trans h₁.clients
  startedBy := h₂.startedBy.trans h₁.startedBy
  nextTxnId := h₂.nextTxnId.trans h₁.nextTxnId
  requests := h₂.requests.trans h₁.requests
  failed := h₂.failed.trans h₁.failed
  stateOf t' ht := (h₂.stateOf t' ht).trans (h₁.stateOf t' ht)
  txnMode t' ht := (h₂.txnMode t' ht).trans (h₁.txnMode t' ht)
  writeSet t' ht := (h₂.writeSet t' ht).trans (h₁.writeSet t' ht)
  tables t' ht := (h₂.tables t' ht).trans (h₁.tables t' ht)

theorem Frame.refl : Frame s s t :=
  ⟨rfl, rfl, rfl, rfl, rfl, fun _ _ => rfl, fun _ _ => rfl, fun _ _ => rfl, fun _ _ => rfl⟩

theorem Frame.commit (h : s.Inv) : Frame s (s.commit t) t where
  clients := rfl
  startedBy := rfl
  nextTxnId := rfl
  requests := rfl
  failed := rfl
  stateOf t' ht := congrArg Transaction.state ((Ended.commit h).other t' ht)
  txnMode _ _ := rfl
  writeSet _ ht := Function.update_of_ne ht ..
  tables _ _ := rfl

theorem Frame.abort (h : s.Inv) : Frame s (s.abort t) t := by
  obtain ⟨clrs, -, heq⟩ := @abort_eq s t
  have hlocks := @Ended.abort s t h
  have hstate : ∀ t', t' ≠ t → (s.abort t).stateOf t' = s.stateOf t' :=
    fun t' ht => congrArg Transaction.state (hlocks.other t' ht)
  rw [heq] at hstate ⊢
  exact ⟨rfl, rfl, rfl, rfl, rfl, hstate, fun _ _ => rfl, fun t' ht => Function.update_of_ne ht ..,
    fun t' ht => Function.update_of_ne ht ..⟩

theorem Frame.abortThrows (k : Nat) : Frame s (s.abortThrows t k) t := by
  obtain ⟨clrs, -, heq⟩ := rollbacks_eq t k (s.setState t .aborted)
  rw [System.abortThrows, heq]
  exact ⟨rfl, rfl, rfl, rfl, rfl, fun _ ht => congrArg Transaction.state (if_neg ht), fun _ _ => rfl,
    fun _ ht => Function.update_of_ne ht .., fun t' ht => Function.update_of_ne ht ..⟩

theorem Frame.runCommand (h : s.Inv) (cmd : Command) : Frame s (s.runCommand t cmd) t := by
  cases cmd with
  | begin =>
    exact ⟨rfl, rfl, rfl, rfl, rfl, fun _ _ => rfl, fun t' ht => Function.update_of_ne ht .., fun _ _ => rfl, fun _ _ => rfl⟩
  | commit => exact Frame.commit h
  | abort => exact Frame.abort h
  | statement => exact Frame.refl

theorem Inv.runCommand (h : s.Inv) (ht : s.startedBy t ≠ none) (cmd : Command) : (s.runCommand t cmd).Inv := by
  cases cmd with
  | begin => exact h.congr rfl (fun _ => rfl) rfl rfl
  | commit => exact h.commit ht
  | abort => exact h.abort ht
  | statement => exact h

theorem Frame.finish (h : s.Inv) (ht : s.startedBy t ≠ none) (cmd : Command) : Frame s (s.finish t cmd) t := by
  unfold System.finish
  dsimp only
  split
  · exact (Frame.runCommand h cmd).trans (Frame.commit (h.runCommand ht cmd))
  · exact Frame.runCommand h cmd

theorem Inv.finish (h : s.Inv) (ht : s.startedBy t ≠ none) (cmd : Command) : (s.finish t cmd).Inv := by
  unfold System.finish
  dsimp only
  split
  · refine (h.runCommand ht cmd).commit ?_
    rw [(Frame.runCommand h cmd).startedBy]
    exact ht
  · exact h.runCommand ht cmd

theorem fail_eq (request : Nat) :
    s.fail t request = { s with failed := if s.txnMode t then s.failed else s.failed ++ [request] } := by
  unfold fail
  split <;> rfl

theorem fail_clients (request : Nat) : (s.fail t request).clients = s.clients := by
  rw [fail_eq]

theorem Inv.fail (h : s.Inv) (request : Nat) : (s.fail t request).Inv := by
  rw [fail_eq]
  exact h.congr rfl (fun _ => rfl) rfl rfl

theorem setPhase_txnId (phase : Phase) (c' : ClientId) : ((s.setPhase c phase).clients c').txnId = (s.clients c').txnId := by
  unfold setPhase
  by_cases hc : c' = c
  · subst hc
    simp
  · simp [hc]

theorem setPhase_phase (phase : Phase) : ((s.setPhase c phase).clients c).phase = phase := by
  simp [setPhase]

theorem setPhase_of_ne (phase : Phase) {c' : ClientId} (hc : c' ≠ c) : (s.setPhase c phase).clients c' = s.clients c' := by
  simp [setPhase, hc]

theorem Inv.setPhase (h : s.Inv) (phase : Phase) : (s.setPhase c phase).Inv :=
  h.congr rfl (setPhase_txnId phase) rfl rfl

/-- An active transaction asks for a lock. -/
theorem Inv.lock (h : s.Inv) {call : LockCall} (hasks : call.asks = some t) (hactive : s.Active t)
    (ht : s.startedBy t ≠ none) : Inv { s with locks := s.locks.call call } ∧
      (s.locks.call call).txns t = { (s.locks.call call).txns t with state := .growing } ∧
      ∀ t', t' ≠ t → (s.locks.call call).txns t' = s.locks.txns t' := by
  have hstate : (s.locks.txns t).state = .default ∨ (s.locks.txns t).state = .growing := h.state t hactive
  have hshrinking : (s.locks.txns t).state ≠ .shrinking := by
    rcases hstate with e | e <;> simp [e]
  have haborted : (s.locks.txns t).state ≠ .aborted := by
    rcases hstate with e | e <;> simp [e]
  obtain ⟨o, ho, hcall⟩ := LockState.call_asked hasks hshrinking haborted
  have hself : (s.locks.call call).txns t = o.txn := by
    rw [hcall]
    exact if_pos rfl
  have hother : ∀ t', t' ≠ t → (s.locks.call call).txns t' = s.locks.txns t' := by
    intro t' ht'
    rw [hcall]
    exact if_neg ht'
  have htable : (s.locks.call call).lockTable = o.lockTable := by
    rw [hcall]
    rfl
  refine ⟨h.locks ?_ hother (fun _ => ?_) (fun id r hr => ?_) ht rfl rfl rfl, ?_, hother⟩
  · show ((s.locks.call call).txns t).txnId = t
    rw [hself, ho.txnId]
    exact h.txnId t
  · show ((s.locks.call call).txns t).state = _ ∨ ((s.locks.call call).txns t).state = _
    rw [hself]
    exact .inr ho.state
  · show r ∈ _ ∧ (r.txnId = t → id ∈ ((s.locks.call call).txns t).lockSet) ∨
      r.txnId = t ∧ id ∈ ((s.locks.call call).txns t).lockSet
    rw [hself]
    have hr' : r ∈ o.lockTable id := htable ▸ hr
    rcases ho.table id r hr' with hr | ⟨hr, hid⟩
    · refine .inl ⟨hr, fun e => ho.lockSet id ?_⟩
      have := h.covers id r hr
      rwa [e] at this
    · exact .inr ⟨hr.trans (h.txnId t), hid⟩
  · rw [hself, ← ho.state]

theorem setTransaction_phase (c' : ClientId) : ((s.setTransaction c).clients c').phase = (s.clients c').phase := by
  rcases setTransaction_cases s c with ⟨heq, -⟩ | ⟨heq, -⟩
  · rw [heq]
  · rw [heq]
    show (Function.update s.clients c { s.clients c with txnId := some s.nextTxnId } c').phase = _
    by_cases hc : c' = c
    · subst hc
      rw [Function.update_self]
    · rw [Function.update_of_ne hc]

theorem setTransaction_of_ne {c' : ClientId} (hc : c' ≠ c) : (s.setTransaction c).clients c' = s.clients c' := by
  rcases setTransaction_cases s c with ⟨heq, -⟩ | ⟨heq, -⟩
  · rw [heq]
  · rw [heq]
    exact Function.update_of_ne hc ..

theorem setTransaction_stateOf (h : s.Inv) (ht : s.startedBy t ≠ none) : (s.setTransaction c).stateOf t = s.stateOf t := by
  rcases setTransaction_cases s c with ⟨heq, -⟩ | ⟨heq, -⟩
  · rw [heq]
  · rw [heq]
    exact begin_stateOf h ht

/-- In an explicit transaction `SetTransaction` does nothing. -/
theorem InExplicit.setTransaction (h : s.InExplicit c) : s.setTransaction c = s := by
  obtain ⟨t, ht, hactive, -⟩ := h
  rcases setTransaction_cases s c with ⟨heq, -⟩ | ⟨-, hended⟩
  · exact heq
  · exact absurd hactive (hended t ht)

-- ---------------------------------------------------------------------------
-- Every event keeps the invariant
-- ---------------------------------------------------------------------------

theorem Inv.setStateAborted (h : s.Inv) (ht : s.startedBy t ≠ none) : (s.setState t .aborted).Inv := by
  have hself : (s.setState t .aborted).locks.txns t = { s.locks.txns t with state := .aborted } := if_pos rfl
  refine h.locks ?_ (fun t' ht' => if_neg ht') (fun hactive => ?_) (fun id r hr => .inl ⟨hr, fun e => ?_⟩) ht rfl rfl rfl
  · rw [hself]
    exact h.txnId t
  · rw [Active, stateOf, hself] at hactive
    cases hactive
  · rw [hself]
    have := h.covers id r hr
    rwa [e] at this

theorem Inv.abortThrows (h : s.Inv) (ht : s.startedBy t ≠ none) (k : Nat) : (s.abortThrows t k).Inv := by
  obtain ⟨clrs, -, heq⟩ := @abortThrows_eq s t k
  rw [heq]
  exact (h.setStateAborted ht).congr rfl (fun _ => rfl) rfl rfl

theorem Inv.startedBy_ne_none (h : s.Inv) (hc : (s.clients c).txnId = some t) : s.startedBy t ≠ none := by
  rw [h.current c t hc]
  exact Option.some_ne_none c

theorem Inv.step (h : s.Inv) (hrun : s.Running) {event : Event} (hstep : Stepped s c event s') : s'.Inv := by
  cases hstep with
  | leave => exact h.setPhase _
  | parserError => exact ((h.setTransaction).fail _).congr rfl (fun _ => rfl) rfl rfl
  | noStatement => exact h.setTransaction.congr rfl (fun _ => rfl) rfl rfl
  | accept => exact (h.setTransaction.setPhase _).congr rfl (fun _ => rfl) rfl rfl
  | lock hphase hasks =>
    obtain ⟨t, ht, hactive⟩ := hrun _ _ _ hphase
    exact (h.lock (hasks.trans ht) hactive (h.startedBy_ne_none ht)).1
  | write => exact h.congr rfl (fun _ => rfl) rfl rfl
  | finish _ ht => exact (h.finish (h.startedBy_ne_none ht) _).setPhase _
  | rmdbError => exact (h.fail _).setPhase _
  | txnAbort _ ht =>
    refine ((h.fail _).abort ?_).setPhase _
    rw [fail_eq]
    exact h.startedBy_ne_none ht
  | abortError _ ht =>
    refine ((h.fail _).abortThrows ?_ _).setPhase _
    rw [fail_eq]
    exact h.startedBy_ne_none ht

/-- Other clients go on running as long as their transactions do not change. -/
theorem Running.other (c : ClientId) (hrun : s.Running) (h : s.Inv) (hclients : ∀ c', c' ≠ c → s'.clients c' = s.clients c')
    (hstate : ∀ t', (s.clients c).txnId ≠ some t' → s.startedBy t' ≠ none → s'.stateOf t' = s.stateOf t')
    (hself : ∀ request cmd, (s'.clients c).phase = .running request cmd →
      ∃ t, (s'.clients c).txnId = some t ∧ s'.Active t) : s'.Running := by
  intro c' request cmd hphase
  by_cases hc : c' = c
  · subst hc
    exact hself request cmd hphase
  · rw [hclients c' hc] at hphase ⊢
    obtain ⟨t', ht', hactive⟩ := hrun c' request cmd hphase
    refine ⟨t', ht', ?_⟩
    rw [Active, hstate t' (fun e => hc (h.client_unique ht' e)) (h.startedBy_ne_none ht')]
    exact hactive

/-- A client whose request is over does not run. -/
theorem Running.waiting (hrun : s.Running) (h : s.Inv) (hframe : Frame s s' t) (ht : (s.clients c).txnId = some t) :
    (s'.setPhase c .waiting).Running := by
  refine hrun.other c h (fun c' hc => ?_) (fun t' ht' _ => ?_) (fun request cmd hphase => ?_)
  · rw [setPhase_of_ne _ hc, hframe.clients]
  · exact hframe.stateOf t' fun e => ht' (e ▸ ht)
  · rw [setPhase_phase] at hphase
    cases hphase

theorem Running.fail (hrun : s.Running) (request : Nat) : (s.fail t request).Running := by
  rw [fail_eq]
  exact hrun

theorem Running.setTransaction (hrun : s.Running) (h : s.Inv) : (s.setTransaction c).Running := by
  refine hrun.other c h (fun c' hc => setTransaction_of_ne hc) (fun t' _ ht' => setTransaction_stateOf h ht') ?_
  exact fun _ _ _ => setTransaction_current

theorem Running.step (hrun : s.Running) (h : s.Inv) {event : Event} (hstep : Stepped s c event s') : s'.Running := by
  cases hstep with
  | leave =>
    refine hrun.other c h (fun c' hc => setPhase_of_ne _ hc) (fun _ _ _ => rfl) fun request cmd hphase => ?_
    rw [setPhase_phase] at hphase
    cases hphase
  | parserError => exact (hrun.setTransaction h).fail _
  | noStatement => exact hrun.setTransaction h
  | accept =>
    refine (hrun.setTransaction h).other c h.setTransaction (fun c' hc => setPhase_of_ne _ hc) (fun _ _ _ => rfl) ?_
    intro _ _ _
    obtain ⟨t, ht, hactive⟩ := @setTransaction_current s c
    exact ⟨t, (setPhase_txnId _ c).trans ht, hactive⟩
  | lock hphase hasks =>
    obtain ⟨t, ht, hactive⟩ := hrun _ _ _ hphase
    obtain ⟨-, hself, hother⟩ := h.lock (hasks.trans ht) hactive (h.startedBy_ne_none ht)
    refine hrun.other c h (fun _ _ => rfl) (fun t' ht' _ => ?_) fun _ _ _ => ⟨t, ht, ?_⟩
    · exact congrArg Transaction.state (hother t' fun e => ht' (e ▸ ht))
    · show ((s.locks.call _).txns t).state.isEnded = false
      rw [hself]
      rfl
  | write => exact hrun
  | finish _ ht => exact hrun.waiting h (Frame.finish h (h.startedBy_ne_none ht) _) ht
  | rmdbError _ ht =>
    exact (hrun.fail _).waiting (h.fail _) Frame.refl ((congrArg (fun f => (f c).txnId) (fail_clients _)).trans ht)
  | txnAbort _ ht =>
    exact (hrun.fail _).waiting (h.fail _) (Frame.abort (h.fail _)) ((congrArg (fun f => (f c).txnId) (fail_clients _)).trans ht)
  | abortError _ ht =>
    exact (hrun.fail _).waiting (h.fail _) (Frame.abortThrows _) ((congrArg (fun f => (f c).txnId) (fail_clients _)).trans ht)

/-- The invariant holds in all runs, whatever the clients do. -/
theorem Reached.inv {Ok : System → ClientId → Event → Prop} (h : Reached Ok s) : s.Inv ∧ s.Running := by
  induction h with
  | init => exact ⟨Inv.init, fun _ _ _ hphase => by cases hphase⟩
  | step _ _ hstep ih => exact ⟨ih.1.step ih.2 (stepped_of_step hstep), ih.2.step ih.1 (stepped_of_step hstep)⟩

end System

end Rmdb
