-- SUMMARY: Sessions that leave nothing behind: when a client waits outside an explicit transaction, all its transactions are over.
import Rmdb.Server.Sessions

/-!
# Transactions of a session are settled

The handler commits the implicit transaction of a request on the path without an exception, and
aborts it on a `TransactionAbortException`. On the other paths it leaves the
transaction open, and the next request goes on in it. When a session ends, an explicit transaction
is left as it is.

The result is about the runs that keep off these paths.
-/

namespace Rmdb

namespace System

variable {s s' : System} {c : ClientId} {t : TxnId}

/-- No request fails outside an explicit transaction except with a `TransactionAbortException`, none is empty
there, no session ends inside an explicit transaction, and undoing a write never throws. -/
def Orderly (s : System) (c : ClientId) : Event → Prop
  | .parserError => s.InExplicit c
  | .noStatement => s.InExplicit c
  | .rmdbError => s.InExplicit c
  | .abortError _ => False
  | .leave => ¬ s.InExplicit c
  | _ => True

/-- The transaction is over and has no locks. -/
def Settled (s : System) (t : TxnId) : Prop :=
  (s.stateOf t = .committed ∨ s.stateOf t = .aborted) ∧ ∀ id, ∀ r ∈ s.locks.lockTable id, r.txnId ≠ t

-- ---------------------------------------------------------------------------
-- Transactions and their locks
-- ---------------------------------------------------------------------------

/-- Which transactions can be active, and that the others have no locks. -/
structure Tidy (s : System) : Prop where
  ended : ∀ t, ¬ s.Active t → ∀ id, ∀ r ∈ s.locks.lockTable id, r.txnId ≠ t
  old : ∀ t c, s.startedBy t = some c → (s.clients c).txnId ≠ some t → ¬ s.Active t
  waiting : ∀ c t, (s.clients c).phase = .waiting → (s.clients c).txnId = some t → s.Active t → s.txnMode t = true
  gone : ∀ c t, (s.clients c).phase = .ended → (s.clients c).txnId = some t → ¬ s.Active t

theorem Tidy.init : init.Tidy where
  ended _ _ _ _ hr := by cases hr
  old _ _ h := by cases h
  waiting _ _ _ h := by cases h
  gone _ _ h := by cases h

/-- Something happens at the client `c` to its transaction `t`. -/
theorem Tidy.next (h : s.Tidy) (hinv : s.Inv) (ht : (s.clients c).txnId = some t)
    (hclients : ∀ c', c' ≠ c → s'.clients c' = s.clients c') (htxn : (s'.clients c).txnId = some t)
    (hstarted : s'.startedBy = s.startedBy)
    (hother : ∀ t', t' ≠ t → s'.stateOf t' = s.stateOf t' ∧ s'.txnMode t' = s.txnMode t')
    (htable : ∀ id, ∀ r ∈ s'.locks.lockTable id, r ∈ s.locks.lockTable id ∨ r.txnId = t)
    (hended : ¬ s'.Active t → ∀ id, ∀ r ∈ s'.locks.lockTable id, r.txnId ≠ t)
    (hwaiting : (s'.clients c).phase = .waiting → s'.Active t → s'.txnMode t = true)
    (hgone : (s'.clients c).phase = .ended → ¬ s'.Active t) : s'.Tidy := by
  have hactive : ∀ t', t' ≠ t → (s'.Active t' ↔ s.Active t') := by
    intro t' ht'
    rw [Active, (hother t' ht').1, Active]
  have hcurrent : ∀ c', (s'.clients c').txnId = (s.clients c').txnId := by
    intro c'
    by_cases hc : c' = c
    · subst hc
      rw [ht, htxn]
    · rw [hclients c' hc]
  refine ⟨fun t' ht' id r hr e => ?_, fun t' c' hst hne => ?_, fun c' t' hphase hcur hact => ?_, fun c' t' hphase hcur => ?_⟩
  · by_cases htt : t' = t
    · subst htt
      exact hended ht' id r hr e
    · rcases htable id r hr with hr | hr
      · exact h.ended t' (fun ha => ht' ((hactive t' htt).mpr ha)) id r hr e
      · exact htt (e.symm.trans hr)
  · rw [hstarted] at hst
    rw [hcurrent] at hne
    have htt : t' ≠ t := by
      rintro rfl
      obtain rfl := Option.some.inj ((hinv.current c t' ht).symm.trans hst)
      exact hne ht
    rw [hactive t' htt]
    exact h.old t' c' hst hne
  · rw [hcurrent] at hcur
    by_cases hc : c' = c
    · subst hc
      cases hcur.symm.trans ht
      exact hwaiting hphase hact
    · rw [hclients c' hc] at hphase
      have htt : t' ≠ t := by
        rintro rfl
        exact hc (hinv.client_unique hcur ht)
      rw [(hother t' htt).2]
      exact h.waiting c' t' hphase hcur ((hactive t' htt).mp hact)
  · rw [hcurrent] at hcur
    by_cases hc : c' = c
    · subst hc
      cases hcur.symm.trans ht
      exact hgone hphase
    · rw [hclients c' hc] at hphase
      have htt : t' ≠ t := by
        rintro rfl
        exact hc (hinv.client_unique hcur ht)
      rw [hactive t' htt]
      exact h.gone c' t' hphase hcur

/-- The transaction is over and its requests have left the table. -/
def Closed (s s' : System) (t : TxnId) : Prop :=
  ¬ s'.Active t ∧ ∀ id, ∀ r ∈ s'.locks.lockTable id, r ∈ s.locks.lockTable id ∧ r.txnId ≠ t

theorem closed_of_ended {state : TransactionState} (hlocks : LockState.Ended s.locks s'.locks t state)
    (hstate : state.isEnded = true) : Closed s s' t := by
  refine ⟨?_, fun id r hr => (hlocks.table id r).mp hr⟩
  rw [Active, stateOf, hlocks.self, hstate]
  simp

/-- After a request that ended well, the transaction is explicit and its locks are as before, or it is closed. -/
theorem finish_cases (hinv : s.Inv) (ht : s.startedBy t ≠ none) (cmd : Command) :
    ((s.finish t cmd).txnMode t = true ∧ (s.finish t cmd).locks = s.locks) ∨ Closed s (s.finish t cmd) t := by
  have hrunCommand : (s.runCommand t cmd).locks = s.locks ∨ Closed s (s.runCommand t cmd) t := by
    cases cmd with
    | begin => exact .inl rfl
    | commit => exact .inr (closed_of_ended (Ended.commit hinv) rfl)
    | abort => exact .inr (closed_of_ended (Ended.abort hinv) rfl)
    | statement => exact .inl rfl
  have hfinish : s.finish t cmd =
      if (s.runCommand t cmd).txnMode t = false then (s.runCommand t cmd).commit t else s.runCommand t cmd := rfl
  rw [hfinish]
  split
  · have hclosed : Closed (s.runCommand t cmd) ((s.runCommand t cmd).commit t) t :=
      closed_of_ended (Ended.commit (hinv.runCommand ht cmd)) rfl
    refine .inr ⟨hclosed.1, fun id r hr => ?_⟩
    obtain ⟨hr, hne⟩ := hclosed.2 id r hr
    rcases hrunCommand with hlocks | hrun
    · exact ⟨hlocks ▸ hr, hne⟩
    · exact hrun.2 id r hr
  · rename_i hmode
    rcases hrunCommand with hlocks | hrun
    · exact .inl ⟨by simpa using hmode, hlocks⟩
    · exact .inr hrun

/-- An explicit transaction that goes on is not marked as failed. -/
theorem fail_of_mode (hmode : s.txnMode t = true) (request : Nat) : s.fail t request = s := by
  rw [System.fail, hmode]
  rfl

/-- A new transaction, for a request that was accepted. -/
theorem Tidy.begin_running (h : s.Tidy) (hinv : s.Inv) (hended : ∀ t, (s.clients c).txnId = some t → ¬ s.Active t)
    (hclients : ∀ c', c' ≠ c → s'.clients c' = s.clients c') (htxn : (s'.clients c).txnId = some s.nextTxnId)
    {request : Nat} {cmd : Command} (hphase : (s'.clients c).phase = .running request cmd)
    (hstarted : s'.startedBy = (s.begin c).startedBy) (hlocks : s'.locks = (s.begin c).locks)
    (hmode : s'.txnMode = (s.begin c).txnMode) : s'.Tidy := by
  have hfresh := hinv.fresh s.nextTxnId (le_refl _)
  have hnew : s'.Active s.nextTxnId := by
    rw [Active, stateOf, hlocks]
    exact begin_current.2
  have hactive : ∀ t, t ≠ s.nextTxnId → (s'.Active t ↔ s.Active t) := by
    intro t ht
    have hstate : s'.stateOf t = s.stateOf t := by
      rw [stateOf, hlocks]
      exact congrArg Transaction.state (if_neg ht)
    rw [Active, hstate, Active]
  have hstarted' : ∀ t, t ≠ s.nextTxnId → s'.startedBy t = s.startedBy t := by
    intro t ht
    rw [hstarted]
    exact Function.update_of_ne ht ..
  have hself : s'.startedBy s.nextTxnId = some c := by
    rw [hstarted]
    exact Function.update_self ..
  refine ⟨fun t ht id r hr e => ?_, fun t c' hst hne => ?_, fun c' t hph hcur hact => ?_, fun c' t hph hcur => ?_⟩
  · have htn : t ≠ s.nextTxnId := by
      rintro rfl
      exact ht hnew
    rw [hlocks] at hr
    exact h.ended t (fun ha => ht ((hactive t htn).mpr ha)) id r hr e
  · have htn : t ≠ s.nextTxnId := by
      rintro rfl
      obtain rfl := Option.some.inj (hself.symm.trans hst)
      exact hne htxn
    rw [hstarted' t htn] at hst
    rw [hactive t htn]
    by_cases hc : c' = c
    · subst hc
      by_cases hcur : (s.clients c').txnId = some t
      · exact hended t hcur
      · exact h.old t c' hst hcur
    · rw [hclients c' hc] at hne
      exact h.old t c' hst hne
  · have hc : c' ≠ c := by
      rintro rfl
      rw [hphase] at hph
      cases hph
    rw [hclients c' hc] at hph hcur
    have htn : t ≠ s.nextTxnId := by
      rintro rfl
      exact hinv.startedBy_ne_none hcur hfresh
    rw [hmode]
    exact (Function.update_of_ne htn ..).trans (h.waiting c' t hph hcur ((hactive t htn).mp hact))
  · have hc : c' ≠ c := by
      rintro rfl
      rw [hphase] at hph
      cases hph
    rw [hclients c' hc] at hph hcur
    have htn : t ≠ s.nextTxnId := by
      rintro rfl
      exact hinv.startedBy_ne_none hcur hfresh
    rw [hactive t htn]
    exact h.gone c' t hph hcur

/-- The transaction of a client that waits again after an orderly event. -/
theorem Tidy.again (h : s.Tidy) (hinv : s.Inv) (hframe : Frame s s' t) (ht : (s.clients c).txnId = some t)
    (hactive : s.Active t) (hcases : (s'.txnMode t = true ∧ s'.locks = s.locks) ∨ Closed s s' t) :
    (s'.setPhase c .waiting).Tidy := by
  refine h.next hinv ht (fun c' hc => by rw [setPhase_of_ne _ hc, hframe.clients]) ?_ hframe.startedBy
    (fun t' ht' => ⟨hframe.stateOf t' ht', hframe.txnMode t' ht'⟩) ?_ ?_ ?_ ?_
  · rw [setPhase_txnId, hframe.clients]
    exact ht
  · intro id r hr
    rcases hcases with ⟨-, hlocks⟩ | hclosed
    · have hr : r ∈ s'.locks.lockTable id := hr
      rw [hlocks] at hr
      exact .inl hr
    · exact .inl (hclosed.2 id r hr).1
  · intro hended id r hr
    rcases hcases with ⟨-, hlocks⟩ | hclosed
    · refine absurd ?_ hended
      show (s'.stateOf t).isEnded = false
      rw [stateOf, hlocks]
      exact hactive
    · exact (hclosed.2 id r hr).2
  · intro _ hact
    rcases hcases with ⟨hmode, -⟩ | hclosed
    · exact hmode
    · exact absurd hact hclosed.1
  · intro hphase
    rw [setPhase_phase] at hphase
    cases hphase

theorem Tidy.fail (h : s.Tidy) (request : Nat) : (s.fail t request).Tidy := by
  rw [fail_eq]
  exact ⟨h.ended, h.old, h.waiting, h.gone⟩

theorem Tidy.step (h : s.Tidy) (hinv : s.Inv) (hrun : s.Running) {event : Event} (hok : s.Orderly c event)
    (hstep : Stepped s c event s') : s'.Tidy := by
  cases hstep with
  | leave hphase =>
    have hactive : ∀ t, (s.clients c).txnId = some t → ¬ s.Active t := by
      intro t ht hact
      exact hok ⟨t, ht, hact, h.waiting c t hphase ht hact⟩
    refine ⟨h.ended, fun t c' hst hne => h.old t c' hst ?_, fun c' t hph hcur hact => ?_, fun c' t hph hcur => ?_⟩
    · rwa [setPhase_txnId] at hne
    · rw [setPhase_txnId] at hcur
      have hc : c' ≠ c := by
        rintro rfl
        rw [setPhase_phase] at hph
        cases hph
      rw [setPhase_of_ne _ hc] at hph
      exact h.waiting c' t hph hcur hact
    · rw [setPhase_txnId] at hcur
      by_cases hc : c' = c
      · subst hc
        exact hactive t hcur
      · rw [setPhase_of_ne _ hc] at hph
        exact h.gone c' t hph hcur
  | parserError hphase ht =>
    have hexpl : s.InExplicit c := hok
    obtain ⟨t', ht', hact, hmode⟩ := hexpl
    rw [InExplicit.setTransaction ⟨t', ht', hact, hmode⟩] at ht ⊢
    cases ht.symm.trans ht'
    rw [fail_of_mode hmode]
    exact ⟨h.ended, h.old, h.waiting, h.gone⟩
  | noStatement hphase =>
    have hexpl : s.InExplicit c := hok
    rw [hexpl.setTransaction]
    exact ⟨h.ended, h.old, h.waiting, h.gone⟩
  | accept hphase =>
    rcases setTransaction_cases s c with ⟨heq, t, ht, hact⟩ | ⟨heq, hended⟩
    · rw [heq]
      refine h.next hinv ht (fun c' hc => setPhase_of_ne _ hc) ((setPhase_txnId _ c).trans ht) rfl
        (fun _ _ => ⟨rfl, rfl⟩) (fun _ _ hr => .inl hr) (fun hn => absurd hact hn) ?_ ?_
      · intro hph
        have := (setPhase_phase _).symm.trans hph
        cases this
      · intro hph
        have := (setPhase_phase _).symm.trans hph
        cases this
    · rw [heq]
      refine h.begin_running hinv hended (fun c' hc => ?_) ?_ (setPhase_phase _) rfl rfl rfl
      · exact (setPhase_of_ne _ hc).trans (Function.update_of_ne hc ..)
      · exact (setPhase_txnId _ c).trans begin_current.1
  | lock hphase hasks =>
    obtain ⟨t, ht, hact⟩ := hrun _ _ _ hphase
    have hstarted := hinv.startedBy_ne_none ht
    obtain ⟨hinv', hself, hother⟩ := hinv.lock (hasks.trans ht) hact hstarted
    obtain ⟨o, ho, hcall⟩ : ∃ o : LockOutcome, o.Asked s.locks.lockTable (s.locks.txns t) ∧
        s.locks.call _ = s.locks.after t o := by
      refine LockState.call_asked (hasks.trans ht) ?_ ?_
      · rcases hinv.state t hact with e | e <;> (rw [stateOf] at e; simp [e])
      · rcases hinv.state t hact with e | e <;> (rw [stateOf] at e; simp [e])
    refine h.next hinv ht (fun _ _ => rfl) ht rfl (fun t' ht' => ⟨?_, rfl⟩) (fun id r hr => ?_) ?_ ?_ ?_
    · exact congrArg Transaction.state (hother t' ht')
    · have hr : r ∈ (s.locks.call _).lockTable id := hr
      rw [hcall] at hr
      rcases ho.table id r hr with hr | ⟨hr, -⟩
      · exact .inl hr
      · exact .inr (hr.trans (hinv.txnId t))
    · intro hn
      refine absurd ?_ hn
      show ((s.locks.call _).txns t).state.isEnded = false
      rw [hself]
      rfl
    · intro hph
      rw [hphase] at hph
      cases hph
    · intro hph
      rw [hphase] at hph
      cases hph
  | write => exact ⟨h.ended, h.old, h.waiting, h.gone⟩
  | finish hphase ht =>
    obtain ⟨t', ht', hact⟩ := hrun _ _ _ hphase
    cases ht.symm.trans ht'
    have hstarted := hinv.startedBy_ne_none ht
    exact h.again hinv (Frame.finish hinv hstarted _) ht hact (finish_cases hinv hstarted _)
  | rmdbError hphase ht =>
    have hexpl : s.InExplicit c := hok
    obtain ⟨t', ht', hact, hmode⟩ := hexpl
    cases ht.symm.trans ht'
    rw [fail_of_mode hmode]
    exact h.again hinv Frame.refl ht hact (.inl ⟨hmode, rfl⟩)
  | txnAbort hphase ht =>
    obtain ⟨t', ht', hact⟩ := hrun _ _ _ hphase
    cases ht.symm.trans ht'
    refine (h.fail _).again (hinv.fail _) (Frame.abort (hinv.fail _)) ?_ ?_
      (.inr (closed_of_ended (Ended.abort (hinv.fail _)) rfl))
    · rw [fail_eq]
      exact ht
    · rw [fail_eq]
      exact hact
  | abortError => exact hok.elim

-- ---------------------------------------------------------------------------
-- Writes of requests that failed
-- ---------------------------------------------------------------------------

/-- Which writes are in the tables. Those of a request that runs are writes of its client's transaction. -/
structure Undone (s : System) : Prop where
  fresh : ∀ t, s.startedBy t = none → s.tables t = []
  tables : ∀ t, s.Active t → s.tables t = s.writeSet t
  below : ∀ t, ∀ w ∈ s.tables t, w.request < s.requests
  failedBelow : ∀ n ∈ s.failed, n < s.requests
  hidden : ∀ t, ∀ w ∈ s.tables t, w.request ∉ s.failed
  running : ∀ c n cmd, (s.clients c).phase = .running n cmd → n < s.requests ∧ n ∉ s.failed ∧
    ∀ t, ∀ w ∈ s.tables t, w.request = n → (s.clients c).txnId = some t
  unique : ∀ c c' n cmd cmd', (s.clients c).phase = .running n cmd → (s.clients c').phase = .running n cmd' → c = c'

theorem Undone.init : init.Undone where
  fresh _ _ := rfl
  tables _ _ := rfl
  below _ _ hw := by cases hw
  failedBelow _ hn := by cases hn
  hidden _ _ hw := by cases hw
  running _ _ _ h := by cases h
  unique _ _ _ _ _ h := by cases h

/-- The request of the client `c` is over; what is left in the tables of its transaction `t` was there before. If
the request failed in an implicit transaction, nothing is left. -/
theorem Undone.over (h : s.Undone) (hclients : ∀ c', c' ≠ c → s'.clients c' = s.clients c')
    (hstarted : s'.startedBy = s.startedBy)
    (hphase : ∀ n cmd, (s'.clients c).phase ≠ .running n cmd) (hrequests : s'.requests = s.requests)
    (hother : ∀ t', t' ≠ t → s'.tables t' = s.tables t' ∧ s'.writeSet t' = s.writeSet t' ∧ s'.stateOf t' = s.stateOf t')
    (hsub : ∀ w ∈ s'.tables t, w ∈ s.tables t) (htables : s'.Active t → s'.tables t = s'.writeSet t)
    (hfailed : ∀ n ∈ s'.failed, n ∈ s.failed ∨
      ∃ cmd, (s.clients c).phase = .running n cmd ∧ (s.clients c).txnId = some t ∧ s'.tables t = []) : s'.Undone := by
  have hmem : ∀ t', ∀ w ∈ s'.tables t', w ∈ s.tables t' := by
    intro t' w hw
    by_cases htt : t' = t
    · subst htt
      exact hsub w hw
    · rwa [(hother t' htt).1] at hw
  have hne : ∀ c' n cmd, (s'.clients c').phase = .running n cmd → c' ≠ c := by
    rintro c' n cmd hph rfl
    exact hphase n cmd hph
  refine ⟨fun t' ht' => ?_, fun t' hact => ?_, fun t' w hw => ?_, fun n hn => ?_, fun t' w hw hn => ?_,
    fun c' n cmd hph => ?_, fun c₁ c₂ n cmd₁ cmd₂ h₁ h₂ => ?_⟩
  · rw [hstarted] at ht'
    refine List.eq_nil_iff_forall_not_mem.mpr fun w hw => ?_
    have := hmem t' w hw
    rw [h.fresh t' ht'] at this
    cases this
  · by_cases htt : t' = t
    · subst htt
      exact htables hact
    · obtain ⟨htab, hws, hstate⟩ := hother t' htt
      rw [Active, hstate] at hact
      rw [htab, hws]
      exact h.tables t' hact
  · rw [hrequests]
    exact h.below t' w (hmem t' w hw)
  · rw [hrequests]
    rcases hfailed n hn with hn | ⟨cmd, hph, -⟩
    · exact h.failedBelow n hn
    · exact (h.running c n cmd hph).1
  · rcases hfailed w.request hn with hn | ⟨cmd, hph, ht, hnil⟩
    · exact h.hidden t' w (hmem t' w hw) hn
    · have hcur := (h.running c _ cmd hph).2.2 t' w (hmem t' w hw) rfl
      cases ht.symm.trans hcur
      rw [hnil] at hw
      cases hw
  · have hc := hne c' n cmd hph
    rw [hclients c' hc] at hph ⊢
    obtain ⟨hlt, hnot, hcur⟩ := h.running c' n cmd hph
    refine ⟨hrequests ▸ hlt, fun hn => ?_, fun t' w hw => hcur t' w (hmem t' w hw)⟩
    rcases hfailed n hn with hn | ⟨cmd', hph', -⟩
    · exact hnot hn
    · exact hc (h.unique c' c n cmd cmd' hph hph')
  · have hc₁ := hne c₁ n cmd₁ h₁
    have hc₂ := hne c₂ n cmd₂ h₂
    rw [hclients c₁ hc₁] at h₁
    rw [hclients c₂ hc₂] at h₂
    exact h.unique c₁ c₂ n cmd₁ cmd₂ h₁ h₂

/-- What `commit` and `abort` leave in the tables, for the transaction that ends. -/
theorem tables_commit : ∀ w ∈ (s.commit t).tables t, w ∈ s.tables t := fun _ hw => hw

theorem tables_abort : ∀ w ∈ (s.abort t).tables t, w ∈ s.tables t := by
  intro w hw
  obtain ⟨clrs, -, heq⟩ := @abort_eq s t
  rw [heq] at hw
  have hw : w ∈ Function.update s.tables t _ t := hw
  rw [Function.update_self] at hw
  exact List.mem_of_mem_take hw

theorem tables_abort_nil (h : s.tables t = s.writeSet t) : (s.abort t).tables t = [] := by
  obtain ⟨clrs, -, heq⟩ := @abort_eq s t
  rw [heq]
  show Function.update s.tables t _ t = []
  rw [Function.update_self, h, Nat.sub_self, List.take_zero]

theorem tables_finish (cmd : Command) : ∀ w ∈ (s.finish t cmd).tables t, w ∈ s.tables t := by
  have hrun : ∀ w ∈ (s.runCommand t cmd).tables t, w ∈ s.tables t := by
    cases cmd with
    | begin => exact fun _ hw => hw
    | commit => exact tables_commit
    | abort => exact tables_abort
    | statement => exact fun _ hw => hw
  have hfinish : s.finish t cmd =
      if (s.runCommand t cmd).txnMode t = false then (s.runCommand t cmd).commit t else s.runCommand t cmd := rfl
  intro w hw
  rw [hfinish] at hw
  split at hw
  · exact hrun w (tables_commit w hw)
  · exact hrun w hw

/-- A transaction that is still active after a request that ended well has its writes as before. -/
theorem finish_active (hinv : s.Inv) (ht : s.startedBy t ≠ none) (cmd : Command) (hact : (s.finish t cmd).Active t) :
    (s.finish t cmd).tables = s.tables ∧ (s.finish t cmd).writeSet = s.writeSet ∧ s.Active t := by
  have hfinish : s.finish t cmd =
      if (s.runCommand t cmd).txnMode t = false then (s.runCommand t cmd).commit t else s.runCommand t cmd := rfl
  rw [hfinish] at hact ⊢
  split at hact
  · exact absurd hact (closed_of_ended (Ended.commit (hinv.runCommand ht cmd)) rfl).1
  · rename_i hmode
    rw [if_neg hmode]
    cases cmd with
    | begin => exact ⟨rfl, rfl, hact⟩
    | commit => exact absurd hact (closed_of_ended (Ended.commit hinv) rfl).1
    | abort => exact absurd hact (closed_of_ended (Ended.abort hinv) rfl).1
    | statement => exact ⟨rfl, rfl, hact⟩

/-- A request that changed nothing. -/
theorem Undone.succ (h : s.Undone) : Undone { s with requests := s.requests + 1 } where
  fresh := h.fresh
  tables := h.tables
  below t w hw := Nat.lt_succ_of_lt (h.below t w hw)
  failedBelow n hn := Nat.lt_succ_of_lt (h.failedBelow n hn)
  hidden := h.hidden
  running c n cmd hph := by
    obtain ⟨hlt, hrest⟩ := h.running c n cmd hph
    exact ⟨Nat.lt_succ_of_lt hlt, hrest⟩
  unique := h.unique

theorem Undone.begin (h : s.Undone) (hinv : s.Inv) (hphase : (s.clients c).phase = .waiting) : (s.begin c).Undone := by
  have hfresh := hinv.fresh s.nextTxnId (le_refl _)
  have hphases : ∀ c', ((s.begin c).clients c').phase = (s.clients c').phase := by
    intro c'
    show (Function.update s.clients c { s.clients c with txnId := some s.nextTxnId } c').phase = _
    by_cases hc : c' = c
    · subst hc
      rw [Function.update_self]
    · rw [Function.update_of_ne hc]
  refine ⟨fun t ht => ?_, fun t hact => ?_, h.below, h.failedBelow, h.hidden, fun c' n cmd hph => ?_,
    fun c₁ c₂ n cmd₁ cmd₂ h₁ h₂ => h.unique c₁ c₂ n cmd₁ cmd₂ (hphases c₁ ▸ h₁) (hphases c₂ ▸ h₂)⟩
  · have hne : t ≠ s.nextTxnId := by
      rintro rfl
      have := (Function.update_self ..).symm.trans ht
      cases this
    exact h.fresh t ((Function.update_of_ne hne ..).symm.trans ht)
  · by_cases hne : t = s.nextTxnId
    · subst hne
      show s.tables s.nextTxnId = Function.update s.writeSet s.nextTxnId [] s.nextTxnId
      rw [Function.update_self]
      exact h.fresh _ hfresh
    · have hstate : (s.begin c).stateOf t = s.stateOf t := congrArg Transaction.state (if_neg hne)
      rw [Active, hstate] at hact
      show s.tables t = Function.update s.writeSet s.nextTxnId [] t
      rw [Function.update_of_ne hne]
      exact h.tables t hact
  · rw [hphases] at hph
    have hc : c' ≠ c := by
      rintro rfl
      rw [hphase] at hph
      cases hph
    obtain ⟨hlt, hnot, hcur⟩ := h.running c' n cmd hph
    refine ⟨hlt, hnot, fun t w hw hn => ?_⟩
    show (Function.update s.clients c _ c').txnId = some t
    rw [Function.update_of_ne hc]
    exact hcur t w hw hn

/-- A request gets its number, which no write has yet. -/
theorem Undone.accept (h : s.Undone) (cmd : Command) :
    Undone { s.setPhase c (.running s.requests cmd) with requests := s.requests + 1 } := by
  have hnew : ∀ t, ∀ w ∈ s.tables t, w.request ≠ s.requests := fun t w hw => (h.below t w hw).ne
  have hphase : ∀ c' n cmd', ((s.setPhase c (.running s.requests cmd)).clients c').phase = .running n cmd' →
      (c' = c ∧ n = s.requests) ∨ (c' ≠ c ∧ (s.clients c').phase = .running n cmd') := by
    intro c' n cmd' hph
    by_cases hc : c' = c
    · subst hc
      rw [setPhase_phase] at hph
      cases hph
      exact .inl ⟨rfl, rfl⟩
    · rw [setPhase_of_ne _ hc] at hph
      exact .inr ⟨hc, hph⟩
  refine ⟨h.fresh, h.tables, fun t w hw => Nat.lt_succ_of_lt (h.below t w hw),
    fun n hn => Nat.lt_succ_of_lt (h.failedBelow n hn), h.hidden, fun c' n cmd' hph => ?_,
    fun c₁ c₂ n cmd₁ cmd₂ h₁ h₂ => ?_⟩
  · rcases hphase c' n cmd' hph with ⟨rfl, rfl⟩ | ⟨-, hph⟩
    · exact ⟨Nat.lt_succ_self _, fun hn => absurd (h.failedBelow _ hn) (lt_irrefl _),
        fun t w hw hn => absurd hn (hnew t w hw)⟩
    · obtain ⟨hlt, hnot, hcur⟩ := h.running c' n cmd' hph
      refine ⟨Nat.lt_succ_of_lt hlt, hnot, fun t w hw hn => ?_⟩
      exact (setPhase_txnId _ c').trans (hcur t w hw hn)
  · rcases hphase c₁ n cmd₁ h₁ with ⟨hc₁, hn₁⟩ | ⟨-, hold₁⟩
    · rcases hphase c₂ n cmd₂ h₂ with ⟨hc₂, -⟩ | ⟨-, hold₂⟩
      · exact hc₁.trans hc₂.symm
      · exact absurd (h.running c₂ n cmd₂ hold₂).1 (hn₁ ▸ lt_irrefl _)
    · rcases hphase c₂ n cmd₂ h₂ with ⟨-, hn₂⟩ | ⟨-, hold₂⟩
      · exact absurd (h.running c₁ n cmd₁ hold₁).1 (hn₂ ▸ lt_irrefl _)
      · exact h.unique c₁ c₂ n cmd₁ cmd₂ hold₁ hold₂

/-- A request writes. -/
theorem Undone.write (h : s.Undone) (hinv : s.Inv) {n : Nat} {cmd : Command} (hphase : (s.clients c).phase = .running n cmd)
    (ht : (s.clients c).txnId = some t) (type : WType) {log : List (LogType × TxnId)} : Undone { s with
      writeSet := Function.update s.writeSet t (s.writeSet t ++ [⟨n, type⟩])
      tables := Function.update s.tables t (s.tables t ++ [⟨n, type⟩])
      log := log } := by
  obtain ⟨hlt, hnot, hcur⟩ := h.running c n cmd hphase
  have hmem : ∀ t', ∀ w ∈ Function.update s.tables t (s.tables t ++ [⟨n, type⟩]) t',
      w ∈ s.tables t' ∨ t' = t ∧ w.request = n := by
    intro t' w hw
    by_cases htt : t' = t
    · subst htt
      rw [Function.update_self] at hw
      rcases List.mem_append.mp hw with hw | hw
      · exact .inl hw
      · rw [List.mem_singleton.mp hw]
        exact .inr ⟨rfl, rfl⟩
    · rw [Function.update_of_ne htt] at hw
      exact .inl hw
  refine ⟨fun t' ht' => ?_, fun t' hact => ?_, fun t' w hw => ?_, h.failedBelow, fun t' w hw hn => ?_,
    fun c' n' cmd' hph => ?_, h.unique⟩
  · have hne : t' ≠ t := by
      rintro rfl
      exact hinv.startedBy_ne_none ht ht'
    exact (Function.update_of_ne hne ..).trans (h.fresh t' ht')
  · by_cases htt : t' = t
    · subst htt
      show Function.update s.tables t' _ t' = Function.update s.writeSet t' _ t'
      rw [Function.update_self, Function.update_self, h.tables t' hact]
    · show Function.update s.tables t _ t' = Function.update s.writeSet t _ t'
      rw [Function.update_of_ne htt, Function.update_of_ne htt]
      exact h.tables t' hact
  · rcases hmem t' w hw with hw | ⟨-, hn⟩
    · exact h.below t' w hw
    · rw [hn]
      exact hlt
  · rcases hmem t' w hw with hw | ⟨-, hw⟩
    · exact h.hidden t' w hw hn
    · exact hnot (hw ▸ hn)
  · obtain ⟨hlt', hnot', hcur'⟩ := h.running c' n' cmd' hph
    refine ⟨hlt', hnot', fun t' w hw hn => ?_⟩
    rcases hmem t' w hw with hold | ⟨rfl, hwn⟩
    · exact hcur' t' w hold hn
    · obtain rfl : n = n' := hwn.symm.trans hn
      obtain rfl := h.unique c c' n cmd cmd' hphase hph
      exact ht

theorem Undone.step (h : s.Undone) (hinv : s.Inv) (hrun : s.Running) {event : Event} (hok : s.Orderly c event)
    (hstep : Stepped s c event s') : s'.Undone := by
  cases hstep with
  | leave hphase =>
    refine @Undone.over s _ c 0 h (fun c' hc => setPhase_of_ne _ hc) rfl (fun n cmd hph => ?_) rfl
      (fun _ _ => ⟨rfl, rfl, rfl⟩) (fun _ hw => hw) (h.tables 0) fun n hn => .inl hn
    rw [setPhase_phase] at hph
    cases hph
  | parserError hphase ht =>
    have hexpl : s.InExplicit c := hok
    obtain ⟨t', ht', hact, hmode⟩ := hexpl
    rw [InExplicit.setTransaction ⟨t', ht', hact, hmode⟩] at ht ⊢
    cases ht.symm.trans ht'
    rw [fail_of_mode hmode]
    exact h.succ
  | noStatement hphase =>
    have hexpl : s.InExplicit c := hok
    rw [hexpl.setTransaction]
    exact h.succ
  | accept hphase =>
    rename_i cmd
    rcases setTransaction_cases s c with ⟨heq, -⟩ | ⟨heq, -⟩
    · rw [heq]
      exact h.accept cmd
    · rw [heq]
      exact (h.begin hinv hphase).accept cmd
  | lock hphase hasks =>
    obtain ⟨t, ht, hact⟩ := hrun _ _ _ hphase
    obtain ⟨-, -, hother⟩ := hinv.lock (hasks.trans ht) hact (hinv.startedBy_ne_none ht)
    refine ⟨h.fresh, fun t' hact' => h.tables t' ?_, h.below, h.failedBelow, h.hidden, h.running, h.unique⟩
    by_cases htt : t' = t
    · rw [htt]
      exact hact
    · have hstate : ((s.locks.call _).txns t').state = s.stateOf t' := congrArg Transaction.state (hother t' htt)
      rw [Active, ← hstate]
      exact hact'
  | write hphase ht => exact h.write hinv hphase ht _
  | finish hphase ht =>
    rename_i request cmd t
    have hstarted := hinv.startedBy_ne_none ht
    have hframe := Frame.finish hinv hstarted cmd
    refine @Undone.over s _ c t h (fun c' hc => ?_) hframe.startedBy (fun n cmd' hph => ?_) hframe.requests
      (fun t' ht' => ⟨hframe.tables t' ht', hframe.writeSet t' ht', hframe.stateOf t' ht'⟩) (tables_finish cmd)
      (fun hact => ?_) fun n hn => .inl (hframe.failed ▸ hn)
    · rw [setPhase_of_ne _ hc, hframe.clients]
    · rw [setPhase_phase] at hph
      cases hph
    · obtain ⟨htab, hws, hact'⟩ := finish_active hinv hstarted cmd hact
      show (s.finish t cmd).tables t = (s.finish t cmd).writeSet t
      rw [htab, hws]
      exact h.tables t hact'
  | rmdbError hphase ht =>
    have hexpl : s.InExplicit c := hok
    obtain ⟨t', ht', hact, hmode⟩ := hexpl
    cases ht.symm.trans ht'
    rw [fail_of_mode hmode]
    refine @Undone.over s _ c 0 h (fun c' hc => setPhase_of_ne _ hc) rfl (fun n cmd hph => ?_) rfl
      (fun _ _ => ⟨rfl, rfl, rfl⟩) (fun _ hw => hw) (h.tables 0) fun n hn => .inl hn
    rw [setPhase_phase] at hph
    cases hph
  | txnAbort hphase ht =>
    rename_i request t
    obtain ⟨t', ht', hact⟩ := hrun _ _ _ hphase
    cases ht.symm.trans ht'
    have hframe := @Frame.abort (s.fail t request) t (hinv.fail _)
    have hended := @Ended.abort (s.fail t request) t (hinv.fail _)
    have hnil : ((s.fail t request).abort t).tables t = [] := by
      refine tables_abort_nil ?_
      rw [fail_eq]
      exact h.tables t hact
    have hfailed : ∀ n ∈ ((s.fail t request).abort t).failed, n ∈ s.failed ∨ n = request := by
      intro n hn
      rw [hframe.failed, fail_eq] at hn
      have hn : n ∈ (if s.txnMode t then s.failed else s.failed ++ [request]) := hn
      split at hn
      · exact .inl hn
      · simpa using hn
    rw [fail_eq] at hframe
    refine @Undone.over s _ c t h (fun c' hc => ?_) ?_ (fun n cmd' hph => ?_) ?_ (fun t' htt => ?_) (fun w hw => ?_)
      (fun hact' => ?_) fun n hn => ?_
    · rw [setPhase_of_ne _ hc, fail_eq, hframe.clients]
    · rw [fail_eq]
      exact hframe.startedBy
    · rw [setPhase_phase] at hph
      cases hph
    · rw [fail_eq]
      exact hframe.requests
    · rw [fail_eq]
      exact ⟨hframe.tables t' htt, hframe.writeSet t' htt, hframe.stateOf t' htt⟩
    · have hw : w ∈ ((s.fail t request).abort t).tables t := hw
      rw [hnil] at hw
      cases hw
    · exact absurd hact' (closed_of_ended hended rfl).1
    · rcases hfailed n hn with hn | rfl
      · exact .inl hn
      · exact .inr ⟨_, hphase, ht, hnil⟩
  | abortError => exact hok.elim

theorem Reached.tidy (h : Reached Orderly s) : s.Tidy ∧ s.Undone := by
  induction h with
  | init => exact ⟨Tidy.init, Undone.init⟩
  | step hreached hok hstep ih =>
    obtain ⟨hinv, hrun⟩ := hreached.inv
    exact ⟨ih.1.step hinv hrun hok (stepped_of_step hstep), ih.2.step hinv hrun hok (stepped_of_step hstep)⟩

end System

/-- In every orderly run, when a client waits outside an explicit transaction and when its session has ended, its
transactions are over and have no locks, and no write of a request that failed in an implicit
transaction is in the tables. -/
theorem sessions_settled {s : System} (h : System.Reached System.Orderly s) :
    (∀ c, (s.clients c).phase = .waiting ∧ ¬ s.InExplicit c ∨ (s.clients c).phase = .ended →
      ∀ t, s.startedBy t = some c → s.Settled t) ∧
    ∀ t, ∀ w ∈ s.tables t, w.request ∉ s.failed := by
  obtain ⟨htidy, hundone⟩ := h.tidy
  refine ⟨fun c hc t ht => ?_, hundone.hidden⟩
  have hended : ¬ s.Active t := by
    by_cases hcur : (s.clients c).txnId = some t
    · rcases hc with ⟨hphase, hexpl⟩ | hphase
      · exact fun hact => hexpl ⟨t, hcur, hact, htidy.waiting c t hphase hcur hact⟩
      · exact htidy.gone c t hphase hcur
    · exact htidy.old t c ht hcur
  refine ⟨?_, htidy.ended t hended⟩
  cases hstate : s.stateOf t with
  | committed => exact .inl rfl
  | aborted => exact .inr rfl
  | _ => simp [System.Active, hstate, TransactionState.isEnded] at hended

/-- An `INSERT` that succeeds. -/
theorem sessions_settled_insert : ∃ s : System, System.Reached System.Orderly s ∧ s.startedBy 1 = some 0 ∧
    s.tables 1 = [⟨0, .insertTuple⟩] ∧ s.Settled 1 := by
  have h₁ := @System.Reached.step System.Orderly _ _ 0 (.accept .statement) .init trivial rfl
  have h₂ := @System.Reached.step System.Orderly _ _ 0 (.lock (.ixOnTable 1 7)) h₁ trivial rfl
  have h₃ := @System.Reached.step System.Orderly _ _ 0 (.write .insertTuple) h₂ trivial rfl
  have h₄ := @System.Reached.step System.Orderly _ _ 0 (.lock (.exclusiveOnRecord 1 ⟨1, 0⟩ 7)) h₃ trivial rfl
  have h₅ := @System.Reached.step System.Orderly _ _ 0 .finish h₄ trivial rfl
  refine ⟨_, h₅, rfl, rfl, (sessions_settled h₅).1 0 (.inl ⟨rfl, ?_⟩) 1 rfl⟩
  rintro ⟨t, ht, hact, -⟩
  cases ht
  cases hact

/-- An `UPDATE` that fails because of a unique index. The client waits for its next request, but its implicit
transaction is still growing and has a lock on the table. -/
theorem sessions_settled_update : ∃ s : System, System.Reached (fun _ _ _ => True) s ∧
    (s.clients 0).phase = .waiting ∧ ¬ s.InExplicit 0 ∧ s.startedBy 1 = some 0 ∧
    s.stateOf 1 = .growing ∧ ⟨1, .IX⟩ ∈ s.locks.lockTable (.table 7) ∧ ¬ s.Settled 1 := by
  have h₁ := @System.Reached.step (fun _ _ _ => True) _ _ 0 (.accept .statement) .init trivial rfl
  have h₂ := @System.Reached.step (fun _ _ _ => True) _ _ 0 (.lock (.sharedOnTable 1 7)) h₁ trivial rfl
  have h₃ := @System.Reached.step (fun _ _ _ => True) _ _ 0 (.lock (.exclusiveOnRecord 1 ⟨1, 0⟩ 7)) h₂ trivial rfl
  have h₄ := @System.Reached.step (fun _ _ _ => True) _ _ 0 .rmdbError h₃ trivial rfl
  refine ⟨_, h₄, rfl, ?_, rfl, rfl, by decide, ?_⟩
  · rintro ⟨t, ht, -, hmode⟩
    cases ht
    cases hmode
  · rintro ⟨hstate, -⟩
    rcases hstate with h | h
    · cases h
    · cases h

end Rmdb
