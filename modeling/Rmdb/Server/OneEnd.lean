-- SUMMARY: The log has at most one end record for each transaction, unless a client ends a transaction it has not begun.
import Mathlib.Data.Finset.Insert
import Rmdb.Server.Sessions

/-!
# One end record for each transaction

`COMMIT` and `ABORT` end the transaction of the client, and the commit of implicit transactions
comes after every request. So a client that sends one of these outside an explicit transaction ends
its implicit transaction twice. As long as no client does that, the records of each
transaction in the log are a `BEGIN`, its writes and their undoing, and at most one end.
-/

namespace Rmdb

-- ---------------------------------------------------------------------------
-- The records of a transaction
-- ---------------------------------------------------------------------------

/-- The records of one transaction in a log. -/
def recordsOf (log : List (LogType × TxnId)) (t : TxnId) : List (LogType × TxnId) :=
  log.filter fun e => e.2 = t

/-- A `BEGIN`, then records in between, then possibly an end. -/
def BeginToEnd (t : TxnId) (records : List (LogType × TxnId)) : Prop :=
  ∃ work tail, records = (.begin, t) :: (work ++ tail) ∧ (∀ e ∈ work, e.1.isWork = true) ∧
    (tail = [] ∨ tail = [(.commit, t)] ∨ tail = [(.abort, t)])

/-- The transaction has no records, or they are as they should be. -/
def OneEnd (log : List (LogType × TxnId)) (t : TxnId) : Prop :=
  recordsOf log t = [] ∨ BeginToEnd t (recordsOf log t)

/-- What `redo` does to `undo_list_` for a record, if its assertion holds. -/
def undoStep (undoList : Finset TxnId) : LogType × TxnId → Option (Finset TxnId)
  | (.begin, t) => some (insert t undoList)
  | (.commit, t) => if t ∈ undoList then some (undoList.erase t) else none
  | (.abort, t) => if t ∈ undoList then some (undoList.erase t) else none
  | _ => some undoList

/-- `undo_list_` after `redo`. -/
def undoListOf (log : List (LogType × TxnId)) : Option (Finset TxnId) := log.foldlM undoStep ∅

variable {log log' : List (LogType × TxnId)} {t : TxnId}

theorem recordsOf_append : recordsOf (log ++ log') t = recordsOf log t ++ recordsOf log' t := List.filter_append ..

theorem recordsOf_of_ne (h : ∀ e ∈ log, e.2 ≠ t) : recordsOf log t = [] :=
  List.filter_eq_nil_iff.mpr fun e he => by simpa using h e he

theorem recordsOf_self (h : ∀ e ∈ log, e.2 = t) : recordsOf log t = log :=
  List.filter_eq_self.mpr fun e he => by simpa using h e he

/-- Cutting off the end of a log cuts off records of a transaction at their end. -/
theorem OneEnd.cut (h : OneEnd log t) (hcut : log' <+: log) : OneEnd log' t := by
  have hrec : recordsOf log' t <+: recordsOf log t := by
    obtain ⟨rest, rfl⟩ := hcut
    exact ⟨recordsOf rest t, recordsOf_append.symm⟩
  rcases h with hnil | ⟨work, tail, heq, hwork, htail⟩
  · exact .inl (List.prefix_nil.mp (hnil ▸ hrec))
  · rw [heq] at hrec
    cases hrecs : recordsOf log' t with
    | nil => exact .inl hrecs
    | cons e records =>
      rw [hrecs] at hrec
      obtain ⟨rfl, hrest⟩ := List.cons_prefix_cons.mp hrec
      rw [OneEnd, hrecs]
      have hrecords : records <+: work ∨ records = work ++ tail := by
        rcases htail with rfl | rfl | rfl
        · exact .inl (by simpa using hrest)
        · exact (List.prefix_concat_iff.mp hrest).symm
        · exact (List.prefix_concat_iff.mp hrest).symm
      rcases hrecords with hrecords | rfl
      · exact .inr ⟨records, [], by simp, fun e he => hwork e (hrecords.subset he), .inl rfl⟩
      · exact .inr ⟨work, tail, rfl, hwork, htail⟩

/-- The last record of a log is a `BEGIN` of a transaction without records, or one of a
transaction that has begun and not ended. -/
theorem OneEnd.last {e : LogType × TxnId} (h : OneEnd (log ++ [e]) e.2) :
    (e.1 = .begin ∧ recordsOf log e.2 = []) ∨
      (e.1 ≠ .begin ∧ ∃ work, recordsOf log e.2 = (.begin, e.2) :: work ∧ ∀ e ∈ work, e.1.isWork = true) := by
  have hrec : recordsOf (log ++ [e]) e.2 = recordsOf log e.2 ++ [e] := by
    rw [recordsOf_append]
    congr 1
    exact recordsOf_self (by simp)
  rw [OneEnd, hrec] at h
  rcases h with hnil | ⟨work, tail, heq, hwork, htail⟩
  · simp at hnil
  · cases hlog : recordsOf log e.2 with
    | nil =>
      rw [hlog] at heq
      obtain ⟨he, -⟩ := List.cons.inj heq
      exact .inl ⟨congrArg Prod.fst he, rfl⟩
    | cons x records =>
      rw [hlog] at heq
      obtain ⟨rfl, hrest⟩ := List.cons.inj heq
      refine .inr ?_
      rcases htail with rfl | rfl | rfl
      · rw [List.append_nil] at hrest
        subst hrest
        refine ⟨fun hbegin => ?_, records, rfl, fun e' he' => hwork e' (List.mem_append_left _ he')⟩
        have := hwork e (List.mem_append_right _ List.mem_cons_self)
        rw [hbegin] at this
        cases this
      · obtain ⟨rfl, he⟩ := List.append_inj' hrest rfl
        refine ⟨fun hbegin => ?_, records, rfl, hwork⟩
        have := congrArg Prod.fst (List.cons.inj he).1
        rw [hbegin] at this
        cases this
      · obtain ⟨rfl, he⟩ := List.append_inj' hrest rfl
        refine ⟨fun hbegin => ?_, records, rfl, hwork⟩
        have := congrArg Prod.fst (List.cons.inj he).1
        rw [hbegin] at this
        cases this

/-- The transaction has begun and not ended. -/
def Open (log : List (LogType × TxnId)) (t : TxnId) : Prop :=
  recordsOf log t ≠ [] ∧ ∀ e ∈ recordsOf log t, e.1 ≠ .commit ∧ e.1 ≠ .abort

/-- The assertion of `redo` holds, and `undo_list_` has the transactions that are open. -/
theorem undoListOf_eq (h : ∀ t, OneEnd log t) :
    ∃ undoList, undoListOf log = some undoList ∧ ∀ t, t ∈ undoList ↔ Open log t := by
  induction log using List.reverseRecOn with
  | nil => exact ⟨∅, rfl, fun t => by simp [Open, recordsOf]⟩
  | append_singleton log e ih =>
    obtain ⟨undoList, hlist, hopen⟩ := ih fun t => (h t).cut (List.prefix_append ..)
    have hstep : undoListOf (log ++ [e]) = undoStep undoList e := by
      rw [undoListOf, List.foldlM_append]
      show (undoListOf log >>= fun l => [e].foldlM undoStep l) = _
      rw [hlist]
      simp
    obtain ⟨type, t⟩ := e
    have hrec : ∀ t', recordsOf (log ++ [(type, t)]) t' = recordsOf log t' ++ if t = t' then [(type, t)] else [] := by
      intro t'
      rw [recordsOf_append]
      congr 1
      by_cases ht : t = t' <;> simp [recordsOf, ht]
    have hother : ∀ t', t' ≠ t → (Open (log ++ [(type, t)]) t' ↔ Open log t') := by
      intro t' ht'
      rw [Open, hrec t', if_neg (Ne.symm ht'), List.append_nil, Open]
    rw [hstep]
    rcases (h t).last with ⟨rfl, hnil⟩ | ⟨hbegin, work, heq, hwork⟩
    · refine ⟨_, rfl, fun t' => ?_⟩
      by_cases ht' : t' = t
      · subst ht'
        simp [Open, hrec, hnil]
      · rw [hother t' ht', ← hopen t', Finset.mem_insert]
        simp [ht']
    · have hmem : t ∈ undoList := by
        refine (hopen t).mpr ⟨by simp [heq], fun e he => ?_⟩
        rw [heq] at he
        rcases List.mem_cons.mp he with rfl | he
        · exact ⟨by simp, by simp⟩
        · have := hwork e he
          constructor <;> intro e' <;> rw [e'] at this <;> cases this
      have hends : ∀ end', end' = .commit ∨ end' = .abort → type = end' →
          ∀ t', t' ∈ undoList.erase t ↔ Open (log ++ [(type, t)]) t' := by
        rintro end' hend rfl t'
        by_cases ht' : t' = t
        · subst ht'
          refine ⟨fun hin => absurd hin (Finset.notMem_erase t' _), fun hin => ?_⟩
          have hlast := hin.2 (type, t') (by simp [hrec])
          rcases hend with rfl | rfl
          · exact absurd rfl hlast.1
          · exact absurd rfl hlast.2
        · rw [hother t' ht', ← hopen t', Finset.mem_erase]
          simp [ht']
      have hwork : type ≠ .commit → type ≠ .abort → ∀ t', t' ∈ undoList ↔ Open (log ++ [(type, t)]) t' := by
        intro hcommit habort t'
        by_cases ht' : t' = t
        · subst ht'
          refine ⟨fun hin => ⟨by simp [hrec], fun e he => ?_⟩, fun _ => hmem⟩
          rw [hrec, if_pos rfl] at he
          rcases List.mem_append.mp he with he | he
          · exact ((hopen t').mp hin).2 e he
          · rw [List.mem_singleton.mp he]
            exact ⟨hcommit, habort⟩
        · rw [hother t' ht', hopen t']
      cases type with
      | begin => exact absurd rfl hbegin
      | commit => exact ⟨_, if_pos hmem, hends .commit (.inl rfl) rfl⟩
      | abort => exact ⟨_, if_pos hmem, hends .abort (.inr rfl) rfl⟩
      | _ => exact ⟨_, rfl, hwork (by simp) (by simp)⟩

-- ---------------------------------------------------------------------------
-- Runs
-- ---------------------------------------------------------------------------

namespace System

variable {s s' : System} {c : ClientId} {t : TxnId}

/-- `COMMIT`, `ABORT` and `ROLLBACK` are only sent inside an explicit transaction. -/
def EndsExplicit (s : System) (c : ClientId) (event : Event) : Prop :=
  event = .accept .commit ∨ event = .accept .abort → s.InExplicit c

/-- The records of each transaction, and whether there may be more of them. -/
structure Logged (s : System) : Prop where
  fresh : ∀ t, s.startedBy t = none → recordsOf s.log t = []
  started : ∀ t, s.startedBy t ≠ none → BeginToEnd t (recordsOf s.log t)
  active : ∀ t, s.startedBy t ≠ none → s.Active t →
    ∃ work, recordsOf s.log t = (.begin, t) :: work ∧ ∀ e ∈ work, e.1.isWork = true

/-- A client that runs `COMMIT` or `ABORT` is in an explicit transaction. -/
def RunsExplicit (s : System) : Prop :=
  ∀ c request cmd t, (s.clients c).phase = .running request cmd → cmd = .commit ∨ cmd = .abort →
    (s.clients c).txnId = some t → s.txnMode t = true

/-- Records of an active transaction are added: work, and an end if the transaction is not active any more. -/
theorem Logged.append (h : s.Logged) (ht : s.startedBy t ≠ none) (hactive : s.Active t) {new : List (LogType × TxnId)}
    (hlog : s'.log = s.log ++ new) (hstarted : s'.startedBy = s.startedBy)
    (hstate : ∀ t', t' ≠ t → s'.stateOf t' = s.stateOf t')
    (hnew : ∃ work tail, new = work ++ tail ∧ (∀ e ∈ work, e.2 = t ∧ e.1.isWork = true) ∧
      (tail = [] ∨ ¬ s'.Active t ∧ (tail = [(.commit, t)] ∨ tail = [(.abort, t)]))) : s'.Logged := by
  obtain ⟨work', tail, rfl, hwork', htail⟩ := hnew
  obtain ⟨work, hrec, hwork⟩ := h.active t ht hactive
  have hids : ∀ e ∈ work' ++ tail, e.2 = t := by
    intro e he
    rcases List.mem_append.mp he with he | he
    · exact (hwork' e he).1
    · rcases htail with rfl | ⟨-, rfl | rfl⟩
      · cases he
      · rw [List.mem_singleton.mp he]
      · rw [List.mem_singleton.mp he]
  have hother : ∀ t', t' ≠ t → recordsOf s'.log t' = recordsOf s.log t' := by
    intro t' ht'
    rw [hlog, recordsOf_append, @recordsOf_of_ne (work' ++ tail) t' fun e he => ?_, List.append_nil]
    rw [hids e he]
    exact ht'.symm
  have hself : recordsOf s'.log t = (.begin, t) :: ((work ++ work') ++ tail) := by
    rw [hlog, recordsOf_append, recordsOf_self hids, hrec]
    simp
  have hall : ∀ e ∈ work ++ work', e.1.isWork = true := by
    intro e he
    rcases List.mem_append.mp he with he | he
    · exact hwork e he
    · exact (hwork' e he).2
  refine ⟨fun t' ht' => ?_, fun t' ht' => ?_, fun t' ht' hactive' => ?_⟩
  · rw [hstarted] at ht'
    have hne : t' ≠ t := fun e => ht (e ▸ ht')
    rw [hother t' hne]
    exact h.fresh t' ht'
  · rw [hstarted] at ht'
    by_cases hne : t' = t
    · subst hne
      refine ⟨work ++ work', tail, hself, hall, ?_⟩
      rcases htail with rfl | ⟨-, rfl | rfl⟩
      · exact .inl rfl
      · exact .inr (.inl rfl)
      · exact .inr (.inr rfl)
    · rw [hother t' hne]
      exact h.started t' ht'
  · rw [hstarted] at ht'
    by_cases hne : t' = t
    · subst hne
      rcases htail with rfl | ⟨hended, -⟩
      · exact ⟨work ++ work', by simpa using hself, hall⟩
      · exact absurd hactive' hended
    · rw [hother t' hne]
      rw [Active, hstate t' hne] at hactive'
      exact h.active t' ht' hactive'

theorem Logged.congr (h : s.Logged) (hlog : s'.log = s.log) (hstarted : s'.startedBy = s.startedBy)
    (hstate : ∀ t, s'.stateOf t = s.stateOf t) : s'.Logged where
  fresh t ht := by rw [hlog]; exact h.fresh t (hstarted ▸ ht)
  started t ht := by rw [hlog]; exact h.started t (hstarted ▸ ht)
  active t ht hactive := by
    rw [hlog]
    rw [Active, hstate] at hactive
    exact h.active t (hstarted ▸ ht) hactive

theorem Logged.begin (h : s.Logged) (hinv : s.Inv) : (s.begin c).Logged := by
  have hfresh := hinv.fresh s.nextTxnId (le_refl _)
  have hself : recordsOf (s.begin c).log s.nextTxnId = [(.begin, s.nextTxnId)] := by
    show recordsOf (s.log ++ [(.begin, s.nextTxnId)]) s.nextTxnId = _
    rw [recordsOf_append, h.fresh _ hfresh, List.nil_append]
    exact recordsOf_self (by simp)
  have hother : ∀ t, t ≠ s.nextTxnId → recordsOf (s.begin c).log t = recordsOf s.log t ∧
      (s.begin c).startedBy t = s.startedBy t ∧ (s.begin c).stateOf t = s.stateOf t := by
    intro t ht
    refine ⟨?_, Function.update_of_ne ht .., congrArg Transaction.state (if_neg ht)⟩
    show recordsOf (s.log ++ [(.begin, s.nextTxnId)]) t = _
    rw [recordsOf_append, @recordsOf_of_ne [(.begin, s.nextTxnId)] t (by simpa using ht.symm), List.append_nil]
  have hnew : (s.begin c).startedBy s.nextTxnId = .some c := Function.update_self ..
  refine ⟨fun t ht => ?_, fun t ht => ?_, fun t ht hactive => ?_⟩
  · have hne : t ≠ s.nextTxnId := by
      rintro rfl
      rw [hnew] at ht
      cases ht
    rw [(hother t hne).1]
    exact h.fresh t ((hother t hne).2.1 ▸ ht)
  · by_cases hne : t = s.nextTxnId
    · subst hne
      exact ⟨[], [], hself, by simp, .inl rfl⟩
    · rw [(hother t hne).1]
      exact h.started t ((hother t hne).2.1 ▸ ht)
  · by_cases hne : t = s.nextTxnId
    · subst hne
      exact ⟨[], hself, by simp⟩
    · rw [(hother t hne).1]
      rw [Active, (hother t hne).2.2] at hactive
      exact h.active t ((hother t hne).2.1 ▸ ht) hactive

theorem Logged.setTransaction (h : s.Logged) (hinv : s.Inv) : (s.setTransaction c).Logged := by
  rcases setTransaction_cases s c with ⟨heq, -⟩ | ⟨heq, -⟩
  · rw [heq]
    exact h
  · rw [heq]
    exact h.begin hinv

theorem not_active_commit (hinv : s.Inv) : ¬ (s.commit t).Active t := by
  rw [Active, stateOf, (Ended.commit hinv).self]
  simp [TransactionState.isEnded]

theorem not_active_abort (hinv : s.Inv) : ¬ (s.abort t).Active t := by
  rw [Active, stateOf, (Ended.abort hinv).self]
  simp [TransactionState.isEnded]

theorem Logged.commit (h : s.Logged) (hinv : s.Inv) (ht : s.startedBy t ≠ none) (hactive : s.Active t) :
    (s.commit t).Logged :=
  h.append ht hactive rfl rfl (Frame.commit hinv).stateOf
    ⟨[], _, rfl, by simp, .inr ⟨not_active_commit hinv, .inl rfl⟩⟩

theorem Logged.abort (h : s.Logged) (hinv : s.Inv) (ht : s.startedBy t ≠ none) (hactive : s.Active t) :
    (s.abort t).Logged := by
  obtain ⟨clrs, hclrs, heq⟩ := @abort_eq s t
  have hlog : (s.abort t).log = s.log ++ (clrs ++ [(.abort, t)]) := by
    rw [heq, ← List.append_assoc]
  exact h.append ht hactive hlog (Frame.abort hinv).startedBy (Frame.abort hinv).stateOf
    ⟨clrs, _, rfl, hclrs, .inr ⟨not_active_abort hinv, .inr rfl⟩⟩

theorem Logged.abortThrows (h : s.Logged) (ht : s.startedBy t ≠ none) (hactive : s.Active t) (k : Nat) :
    (s.abortThrows t k).Logged := by
  obtain ⟨clrs, hclrs, heq⟩ := @abortThrows_eq s t k
  have hlog : (s.abortThrows t k).log = s.log ++ clrs := by rw [heq]
  exact h.append ht hactive hlog (Frame.abortThrows k).startedBy (Frame.abortThrows k).stateOf
    ⟨clrs, [], by simp, hclrs, .inl rfl⟩

theorem Logged.fail (h : s.Logged) (request : Nat) : (s.fail t request).Logged := by
  rw [fail_eq]
  exact h.congr rfl rfl fun _ => rfl

/-- A request that ends well adds one end record at most: `COMMIT` and `ABORT` are in an explicit
transaction, which is not committed once more. -/
theorem Logged.finish (h : s.Logged) (hinv : s.Inv) (ht : s.startedBy t ≠ none) (hactive : s.Active t) {cmd : Command}
    (hmode : cmd = .commit ∨ cmd = .abort → s.txnMode t = true) : (s.finish t cmd).Logged := by
  cases cmd with
  | begin =>
    have hmode' : Function.update s.txnMode t true t = true := Function.update_self ..
    rw [System.finish]
    simp only [runCommand, hmode', Bool.true_eq_false, if_false]
    exact h.congr rfl rfl fun _ => rfl
  | commit =>
    have hmode' : (s.commit t).txnMode t = true := hmode (.inl rfl)
    simp only [System.finish, runCommand, hmode', Bool.true_eq_false, if_false]
    exact h.commit hinv ht hactive
  | abort =>
    have hmode' : (s.abort t).txnMode t = true := by
      obtain ⟨clrs, -, heq⟩ := @abort_eq s t
      rw [heq]
      exact hmode (.inr rfl)
    simp only [System.finish, runCommand, hmode', Bool.true_eq_false, if_false]
    exact h.abort hinv ht hactive
  | statement =>
    have hfinish : s.finish t .statement = if s.txnMode t = false then s.commit t else s := rfl
    rw [hfinish]
    split
    · exact h.commit hinv ht hactive
    · exact h

theorem Logged.step (h : s.Logged) (hinv : s.Inv) (hrun : s.Running) (hexpl : s.RunsExplicit) {event : Event}
    (hstep : Stepped s c event s') : s'.Logged := by
  cases hstep with
  | leave => exact h.congr rfl rfl fun _ => rfl
  | parserError => exact ((h.setTransaction hinv).fail _).congr rfl rfl fun _ => rfl
  | noStatement => exact (h.setTransaction hinv).congr rfl rfl fun _ => rfl
  | accept => exact (h.setTransaction hinv).congr rfl rfl fun _ => rfl
  | lock hphase hasks =>
    obtain ⟨t, ht, hactive⟩ := hrun _ _ _ hphase
    have hstarted := hinv.startedBy_ne_none ht
    obtain ⟨-, -, hother⟩ := hinv.lock (hasks.trans ht) hactive hstarted
    exact h.append hstarted hactive (by simp) rfl (fun t' ht' => congrArg Transaction.state (hother t' ht'))
      ⟨[], [], rfl, by simp, .inl rfl⟩
  | write hphase ht =>
    rename_i request type t
    obtain ⟨t', ht', hactive⟩ := hrun _ _ _ hphase
    cases ht.symm.trans ht'
    exact h.append (hinv.startedBy_ne_none ht) hactive rfl rfl (fun _ _ => rfl)
      ⟨[(type.logType, t)], [], rfl, by simp [type.isWork_logType], .inl rfl⟩
  | finish hphase ht =>
    obtain ⟨t', ht', hactive⟩ := hrun _ _ _ hphase
    cases ht.symm.trans ht'
    exact (h.finish hinv (hinv.startedBy_ne_none ht) hactive fun hcmd => hexpl _ _ _ _ hphase hcmd ht).congr rfl rfl
      fun _ => rfl
  | rmdbError => exact (h.fail _).congr rfl rfl fun _ => rfl
  | txnAbort hphase ht =>
    obtain ⟨t', ht', hactive⟩ := hrun _ _ _ hphase
    cases ht.symm.trans ht'
    refine ((h.fail _).abort (hinv.fail _) ?_ ?_).congr rfl rfl fun _ => rfl
    · rw [fail_eq]
      exact hinv.startedBy_ne_none ht
    · rw [fail_eq]
      exact hactive
  | abortError hphase ht =>
    obtain ⟨t', ht', hactive⟩ := hrun _ _ _ hphase
    cases ht.symm.trans ht'
    refine ((h.fail _).abortThrows ?_ ?_ _).congr rfl rfl fun _ => rfl
    · rw [fail_eq]
      exact hinv.startedBy_ne_none ht
    · rw [fail_eq]
      exact hactive

theorem setTransaction_txnMode (hinv : s.Inv) (ht : s.startedBy t ≠ none) :
    (s.setTransaction c).txnMode t = s.txnMode t := by
  rcases setTransaction_cases s c with ⟨heq, -⟩ | ⟨heq, -⟩
  · rw [heq]
  · rw [heq]
    have hne : t ≠ s.nextTxnId := by
      rintro rfl
      exact ht (hinv.fresh _ (le_refl _))
    exact Function.update_of_ne hne ..

theorem RunsExplicit.other (c : ClientId) (h : s.RunsExplicit) (hinv : s.Inv)
    (hclients : ∀ c', c' ≠ c → s'.clients c' = s.clients c')
    (hmode : ∀ t', (s.clients c).txnId ≠ some t' → s.startedBy t' ≠ none → s'.txnMode t' = s.txnMode t')
    (hself : ∀ request cmd t, (s'.clients c).phase = .running request cmd → cmd = .commit ∨ cmd = .abort →
      (s'.clients c).txnId = some t → s'.txnMode t = true) : s'.RunsExplicit := by
  intro c' request cmd t hphase hcmd ht
  by_cases hc : c' = c
  · subst hc
    exact hself request cmd t hphase hcmd ht
  · rw [hclients c' hc] at hphase ht
    rw [hmode t (fun e => hc (hinv.client_unique ht e)) (hinv.startedBy_ne_none ht)]
    exact h c' request cmd t hphase hcmd ht

theorem RunsExplicit.waiting (h : s.RunsExplicit) (hinv : s.Inv) (hframe : Frame s s' t)
    (ht : (s.clients c).txnId = some t) : (s'.setPhase c .waiting).RunsExplicit := by
  refine h.other c hinv (fun c' hc => ?_) (fun t' ht' _ => ?_) (fun request cmd t hphase _ _ => ?_)
  · rw [setPhase_of_ne _ hc, hframe.clients]
  · exact hframe.txnMode t' fun e => ht' (e ▸ ht)
  · rw [setPhase_phase] at hphase
    cases hphase

theorem RunsExplicit.fail (h : s.RunsExplicit) (request : Nat) : (s.fail t request).RunsExplicit := by
  rw [fail_eq]
  exact h

/-- A client that waits after `SetTransaction`. -/
theorem RunsExplicit.setTransaction (h : s.RunsExplicit) (hinv : s.Inv) (hphase : (s.clients c).phase = .waiting) :
    (s.setTransaction c).RunsExplicit := by
  refine h.other c hinv (fun c' hc => setTransaction_of_ne hc) (fun t' _ ht' => setTransaction_txnMode hinv ht') ?_
  intro request cmd t hphase' _ _
  rw [setTransaction_phase, hphase] at hphase'
  cases hphase'

theorem RunsExplicit.step (h : s.RunsExplicit) (hinv : s.Inv) {event : Event} (hok : s.EndsExplicit c event)
    (hstep : Stepped s c event s') : s'.RunsExplicit := by
  cases hstep with
  | leave =>
    refine h.other c hinv (fun c' hc => setPhase_of_ne _ hc) (fun _ _ _ => rfl) fun request cmd t hphase _ _ => ?_
    rw [setPhase_phase] at hphase
    cases hphase
  | parserError hphase => exact (h.setTransaction hinv hphase).fail _
  | noStatement hphase => exact h.setTransaction hinv hphase
  | accept hphase =>
    rename_i cmd
    refine (h.setTransaction hinv hphase).other c hinv.setTransaction (fun c' hc => setPhase_of_ne _ hc)
      (fun _ _ _ => rfl) ?_
    intro request cmd' t hphase' hcmd ht
    have hphase'' := (setPhase_phase _).symm.trans hphase'
    cases hphase''
    have hin : s.InExplicit c := hok (by rcases hcmd with rfl | rfl <;> simp)
    have hset := hin.setTransaction
    obtain ⟨t', ht', -, hmode⟩ := hin
    have ht : ((s.setTransaction c).clients c).txnId = some t := (setPhase_txnId _ c).symm.trans ht
    show (s.setTransaction c).txnMode t = true
    rw [hset] at ht ⊢
    cases ht.symm.trans ht'
    exact hmode
  | lock => exact h
  | write => exact h
  | finish _ ht => exact h.waiting hinv (Frame.finish hinv (hinv.startedBy_ne_none ht) _) ht
  | rmdbError _ ht =>
    exact (h.fail _).waiting (hinv.fail _) Frame.refl ((congrArg (fun f => (f c).txnId) (fail_clients _)).trans ht)
  | txnAbort _ ht =>
    exact (h.fail _).waiting (hinv.fail _) (Frame.abort (hinv.fail _))
      ((congrArg (fun f => (f c).txnId) (fail_clients _)).trans ht)
  | abortError _ ht =>
    exact (h.fail _).waiting (hinv.fail _) (Frame.abortThrows _)
      ((congrArg (fun f => (f c).txnId) (fail_clients _)).trans ht)

theorem Reached.logged (h : Reached EndsExplicit s) : s.Logged ∧ s.RunsExplicit := by
  induction h with
  | init =>
    refine ⟨⟨fun _ _ => rfl, fun _ ht => absurd rfl ht, fun _ ht => absurd rfl ht⟩, fun _ _ _ _ hphase => ?_⟩
    cases hphase
  | step hreached hok hstep ih =>
    obtain ⟨hinv, hrun⟩ := hreached.inv
    exact ⟨ih.1.step hinv hrun ih.2 (stepped_of_step hstep), ih.2.step hinv hok (stepped_of_step hstep)⟩

end System

/-- In every run in which `COMMIT`, `ABORT` and `ROLLBACK` are only sent inside explicit transactions, the
records of each transaction are a `BEGIN`, records in between, and at most one end. So `redo` of any part of
the log that reached the disk never trips its assertion. -/
theorem one_end_record {s : System} (h : System.Reached System.EndsExplicit s) :
    (∀ t, s.startedBy t ≠ none → BeginToEnd t (recordsOf s.log t)) ∧
      (∀ t, s.startedBy t = none → recordsOf s.log t = []) ∧
      ∀ log, log <+: s.log → (∀ t, OneEnd log t) ∧ undoListOf log ≠ none := by
  obtain ⟨hlogged, -⟩ := h.logged
  refine ⟨hlogged.started, hlogged.fresh, fun log hlog => ?_⟩
  have hone : ∀ t, OneEnd s.log t := by
    intro t
    by_cases ht : s.startedBy t = none
    · exact .inl (hlogged.fresh t ht)
    · exact .inr (hlogged.started t ht)
  have hone' : ∀ t, OneEnd log t := fun t => (hone t).cut hlog
  obtain ⟨undoList, hlist, -⟩ := undoListOf_eq hone'
  exact ⟨hone', by simp [hlist]⟩

/-- `BEGIN` and `COMMIT`. -/
theorem one_end_record_commit : ∃ s : System, System.Reached System.EndsExplicit s ∧
    s.log = [(.begin, 1), (.commit, 1)] ∧ BeginToEnd 1 (recordsOf s.log 1) := by
  have hno : ∀ (s : System) event, event ≠ .accept .commit → event ≠ .accept .abort → s.EndsExplicit 0 event :=
    fun _ _ h₁ h₂ h => absurd h (not_or.mpr ⟨h₁, h₂⟩)
  have h₁ := System.Reached.init.step (hno .init (.accept .begin) (by simp) (by simp)) rfl
  have h₂ := h₁.step (hno _ .finish (by simp) (by simp)) rfl
  have h₃ := h₂.step (fun _ => ⟨1, rfl, rfl, rfl⟩ : System.EndsExplicit _ 0 (.accept .commit)) rfl
  have h₄ := h₃.step (hno _ .finish (by simp) (by simp)) rfl
  exact ⟨_, h₄, rfl, (one_end_record h₄).1 1 (Option.some_ne_none 0)⟩

/-- The first request of a client is `ABORT`. Its implicit transaction is aborted, and then it is committed as
every implicit transaction is. `redo` trips its assertion. -/
theorem one_end_record_abort : ∃ s : System, System.Reached (fun _ _ _ => True) s ∧
    s.log = [(.begin, 1), (.abort, 1), (.commit, 1)] ∧ ¬ OneEnd s.log 1 ∧ undoListOf s.log = none := by
  have h₁ := @System.Reached.step (fun _ _ _ => True) _ _ 0 (.accept .abort) .init trivial rfl
  have h₂ := @System.Reached.step (fun _ _ _ => True) _ _ 0 .finish h₁ trivial rfl
  refine ⟨_, h₂, rfl, fun h => ?_, by decide⟩
  -- Before the last record the transaction has an end already.
  rcases @OneEnd.last [(.begin, 1), (.abort, 1)] (.commit, 1) h with ⟨hbegin, -⟩ | ⟨-, work, heq, hwork⟩
  · cases hbegin
  · obtain ⟨-, rfl⟩ := List.cons.inj heq
    exact absurd (hwork _ List.mem_cons_self) (by decide)

end Rmdb
