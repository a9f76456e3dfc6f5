-- SUMMARY: No scan reads what an unfinished transaction has written, and when the uniqueness check does not.
import Rmdb.Execution.Statements
import Rmdb.Transaction.Exclusive

/-!
# Dirty reads

Whoever has written in a table holds an IX or X lock on it until it commits or has rolled back.
A scan holds an S lock, which excludes both. The uniqueness check holds nothing.
-/

namespace Rmdb

-- ---------------------------------------------------------------------------
-- Table locks
-- ---------------------------------------------------------------------------

namespace LockTable

variable {lt lt' : LockTable} {t u : TxnId} {fd : Int}

/-- The transaction has the lock that a scan asks for. -/
def HasRead (lt : LockTable) (t : TxnId) (fd : Int) : Prop :=
  ∃ q ∈ lt (.table fd), q.txnId = t ∧ q.lockMode = .S

/-- The transaction has a lock under which it may write. -/
def HasWrite (lt : LockTable) (t : TxnId) (fd : Int) : Prop :=
  ∃ q ∈ lt (.table fd), q.txnId = t ∧ (q.lockMode = .IX ∨ q.lockMode = .X)

/-- Readers and writers exclude each other. -/
theorem Ok.eq_of_hasRead_hasWrite (h : lt.Ok) (hread : lt.HasRead t fd)
    (hwrite : lt.HasWrite u fd) : t = u := by
  obtain ⟨q, hq, rfl, hS⟩ := hread
  obtain ⟨q', hq', rfl, hmode⟩ := hwrite
  by_contra hne
  have hcomp := h.compatible _ q hq q' hq' hne
  rw [hS] at hcomp
  rcases hmode with hIX | hX
  · simp [hIX, LockMode.compatible] at hcomp
  · simp [hX, LockMode.compatible] at hcomp

/-- Where `lock_shared_on_table` would be granted, nobody else may write. -/
theorem eq_of_not_refused_hasWrite
    (h : LockManager.refused (fun m => m == .IX || m == .SIX || m == .X) (lt (.table fd)) t = false)
    (hwrite : lt.HasWrite u fd) : t = u := by
  obtain ⟨q, hq, rfl, hmode⟩ := hwrite
  by_contra hne
  have hfree := LockManager.not_refused (by simpa using h) q hq (Ne.symm hne)
  rcases hmode with hIX | hX
  · simp [hIX] at hfree
  · simp [hX] at hfree

theorem HasRead.mono (hsub : ∀ q ∈ lt (.table fd), q.txnId = t → q ∈ lt' (.table fd))
    (h : lt.HasRead t fd) : lt'.HasRead t fd := by
  obtain ⟨q, hq, rfl, hmode⟩ := h
  exact ⟨q, hsub q hq rfl, rfl, hmode⟩

theorem HasWrite.mono (hsub : ∀ q ∈ lt (.table fd), q.txnId = t → q ∈ lt' (.table fd))
    (h : lt.HasWrite t fd) : lt'.HasWrite t fd := by
  obtain ⟨q, hq, rfl, hmode⟩ := h
  exact ⟨q, hsub q hq rfl, rfl, hmode⟩

end LockTable

namespace LockOp

variable {lt : LockTable} {txn : Transaction} {fd : Int} (o : LockOp)

theorem request_ok (h : lt.Ok) : (o.request lt txn fd).lockTable.Ok := by
  cases o with
  | ixOnTable => exact LockManager.lockOnTable_ok txn fd LockManager.row_IX h
  | exclusiveOnTable => exact LockManager.lockOnTable_ok txn fd LockManager.row_X h
  | exclusiveOnRecord rid => exact LockManager.lockExclusiveOnRecord_ok txn rid fd h

theorem request_follows : (o.request lt txn fd).Follows lt txn := by
  cases o with
  | ixOnTable => exact LockManager.lockOnTable_follows _ _ lt txn fd
  | exclusiveOnTable => exact LockManager.lockOnTable_follows _ _ lt txn fd
  | exclusiveOnRecord rid => exact LockManager.lockExclusiveOnRecord_follows lt txn rid fd

theorem request_grows {id : LockDataId} {q : LockRequest} (hq : q ∈ lt id) :
    q ∈ (o.request lt txn fd).lockTable id := by
  cases o with
  | ixOnTable => exact LockManager.lockOnTable_grows hq
  | exclusiveOnTable => exact LockManager.lockOnTable_grows hq
  | exclusiveOnRecord rid => exact LockManager.lockExclusiveOnRecord_grows hq

/-- Each of the requests, once granted, lets the transaction write in the table. -/
theorem request_hasWrite (h : (o.request lt txn fd).granted = true) :
    (o.request lt txn fd).lockTable.HasWrite txn.txnId fd := by
  cases o with
  | ixOnTable => exact ⟨_, LockManager.lockOnTable_granted h, rfl, .inl rfl⟩
  | exclusiveOnTable => exact ⟨_, LockManager.lockOnTable_granted h, rfl, .inr rfl⟩
  | exclusiveOnRecord rid => exact ⟨_, LockManager.lockExclusiveOnRecord_granted h, rfl, .inl rfl⟩

end LockOp

-- ---------------------------------------------------------------------------
-- Who writes has a lock
-- ---------------------------------------------------------------------------

/-- The operation changes nothing. -/
def TableOp.ReadOnly : TableOp → Prop
  | getRecord _ | isExist _ _ => True
  | _ => False

namespace StmtProg

open Prog

/-- What a program knows: the tables in which it may write. -/
abbrev Known := Int → Prop

/-- Writes and write records need the lock. -/
def pre (known : Known) : StmtOp → Prop
  | .lock _ _ => True
  | .appendWriteRecord tab _ => known tab.fd
  | .onTable fd o => o.ReadOnly ∨ known fd

def learn (known : Known) : (o : StmtOp) → Except DbError o.Val → Known
  | .lock fd _, .ok true => fun fd' => fd' = fd ∨ known fd'
  | _, _ => known

/-- The program writes only where it has a lock. -/
def Safe (p : StmtProg Unit) (known : Known) : Prop := p.wp pre learn known fun _ _ => True

variable {known : Known} {tab : Tab} {α : Type}

theorem wp_lock (fd : Int) (o : LockOp) :
    (lock fd o).wp pre learn known fun _ known => known fd := by
  refine wp_bind (wp_op trivial fun granted => ?_)
  cases granted with
  | true => exact .inl rfl
  | false => trivial

theorem wp_getRecord (rid : Rid) {Q : RmRecord → Known → Prop} (h : ∀ record, Q record known) :
    (getRecord tab rid).wp pre learn known Q :=
  wp_op (.inl trivial) h

theorem wp_write {o : TableOp} (hknown : known tab.fd) :
    (onTable tab o).wp pre learn known fun _ known => known tab.fd :=
  wp_op (.inr hknown) fun _ => hknown

theorem wp_append (w : WriteRecord) (hknown : known tab.fd) :
    (appendWriteRecord tab w).wp pre learn known fun _ known => known tab.fd :=
  wp_op hknown fun _ => hknown

theorem wp_insertRecord (r : RmRecord) (hknown : known tab.fd) :
    (insertRecord tab r).wp pre learn known fun _ known => known tab.fd :=
  wp_bind (wp_mono (wp_write hknown) fun _ _ hknown => wp_bind (wp_append _ hknown))

/-- A loop all of whose turns write in the table. -/
theorem wp_loop {ι : Type} {body : ι → StmtProg Unit} (l : List ι) (hknown : known tab.fd)
    (hbody : ∀ i known, known tab.fd → (body i).wp pre learn known fun _ known => known tab.fd) :
    (each body l).wp pre learn known fun _ known => known tab.fd :=
  @wp_each _ _ _ _ pre learn known _ body l (fun known => known tab.fd) hknown
    fun i _ known hknown => hbody i known hknown

theorem wp_deleteEntries (r : RmRecord) (hknown : known tab.fd) :
    (deleteEntries tab r).wp pre learn known fun _ known => known tab.fd :=
  wp_loop _ hknown fun _ _ hknown => wp_write hknown

theorem wp_insertEntries (r : RmRecord) (rid : Rid) (hknown : known tab.fd) :
    (insertEntries tab r rid).wp pre learn known fun _ known => known tab.fd :=
  wp_loop _ hknown fun _ _ hknown => wp_write hknown

/-- The checks of an insertion know nothing, and write nothing. -/
theorem wp_checkKey (r : RmRecord) (i : Nat) :
    (checkKey tab r i).wp pre learn known fun _ _ => True := by
  refine wp_bind (wp_op (.inl trivial) fun exist => ?_)
  cases exist with
  | true => trivial
  | false => trivial

theorem insertNext_safe (values : List Value) (buffer : RmRecord) (known : Known) :
    (insertNext tab values buffer).Safe known := by
  unfold insertNext
  split
  · trivial
  · refine wp_bind (wp_ofExcept fun r _ => ?_)
    refine wp_bind (wp_mono (wp_each trivial fun i _ _ _ => wp_checkKey r i) fun _ _ _ => ?_)
    refine wp_bind (wp_mono (wp_lock tab.fd _) fun _ _ hknown => ?_)
    refine wp_bind (wp_mono (wp_insertRecord r hknown) fun rid _ _ => ?_)
    refine wp_bind (wp_mono (wp_lock tab.fd _) fun _ _ hknown => ?_)
    exact wp_mono (wp_insertEntries r rid hknown) fun _ _ _ => trivial

theorem wp_deleteRow (conds : List Condition) (rid : Rid) (hknown : known tab.fd) :
    (deleteRow tab conds rid).wp pre learn known fun _ known => known tab.fd := by
  refine wp_bind (wp_getRecord rid fun record => ?_)
  split
  · trivial
  · exact hknown
  · refine wp_bind (wp_mono (wp_append _ hknown) fun _ _ hknown => ?_)
    refine wp_bind (wp_mono (wp_write hknown) fun _ _ hknown => ?_)
    exact wp_deleteEntries record hknown

theorem deleteNext_safe (conds : List Condition) (rids : List Rid) (known : Known) :
    (deleteNext tab conds rids).Safe known := by
  refine wp_bind (wp_mono (wp_lock tab.fd _) fun _ _ hknown => ?_)
  exact wp_mono (wp_loop rids hknown fun rid _ => wp_deleteRow conds rid) fun _ _ _ => trivial

/-- The turns of the first loop of an update, under a lock that is there already. -/
theorem wp_removeOldKeys (rids : List Rid) (hknown : known tab.fd) :
    (removeOldKeys tab rids).wp pre learn known fun _ known => known tab.fd := by
  induction rids generalizing known with
  | nil => exact hknown
  | cons rid rids ih =>
    refine wp_bind (wp_mono (wp_lock tab.fd _) fun _ _ hknown => ?_)
    refine wp_bind (wp_getRecord rid fun record => ?_)
    refine wp_bind (wp_mono (wp_deleteEntries record hknown) fun _ _ hknown => ?_)
    exact wp_bind (wp_mono (ih hknown) fun _ _ hknown => hknown)

/-- Where there is a row to update, the lock is there as well. -/
theorem wp_removeOldKeys_or (rids : List Rid) :
    (removeOldKeys tab rids).wp pre learn known fun rows known => rows = [] ∨ known tab.fd := by
  cases rids with
  | nil => exact .inl rfl
  | cons rid rids =>
    refine wp_bind (wp_mono (wp_lock tab.fd _) fun _ _ hknown => ?_)
    refine wp_bind (wp_getRecord rid fun record => ?_)
    refine wp_bind (wp_mono (wp_deleteEntries record hknown) fun _ _ hknown => ?_)
    exact wp_bind (wp_mono (wp_removeOldKeys rids hknown) fun _ _ hknown => .inr hknown)

theorem wp_restoreKeys (rows : List (Rid × RmRecord)) (news : List RmRecord) (newRecord : RmRecord)
    (done : List Nat) (hknown : known tab.fd) :
    (restoreKeys tab rows news newRecord done).wp pre learn known fun _ known => known tab.fd := by
  refine wp_bind (wp_mono (wp_loop done hknown fun _ _ => wp_write) fun _ _ hknown => ?_)
  refine wp_bind (wp_mono (wp_loop news hknown fun r _ => wp_deleteEntries r) fun _ _ hknown => ?_)
  exact wp_bind (wp_mono (wp_loop rows hknown fun row _ => wp_insertEntries row.2 row.1)
    fun _ _ _ => trivial)

theorem wp_tryInsertEntries (r : RmRecord) (rid : Rid) {handler : List Nat → StmtProg Unit}
    (hhandler : ∀ done known, known tab.fd →
      (handler done).wp pre learn known fun _ known => known tab.fd)
    (done rest : List Nat) (hknown : known tab.fd) :
    (tryInsertEntries tab r rid handler done rest).wp pre learn known
      fun _ known => known tab.fd := by
  induction rest generalizing done with
  | nil => exact hknown
  | cons i rest ih =>
    refine ⟨.inr hknown, fun answer => ?_⟩
    match answer with
    | .ok _ => exact ih (done ++ [i])
    | .error .indexEntryNotUnique => exact hhandler done known hknown
    | .error .incompatibleType | .error .columnNotFound | .error .tableNotFound
    | .error .invalidValueCount | .error .transactionAbort | .error .failed => trivial

theorem wp_insertNewKeys (clauses : List SetClause) (rows todo : List (Rid × RmRecord))
    (news : List RmRecord) (hknown : known tab.fd) :
    (insertNewKeys tab clauses rows todo news).wp pre learn known
      fun _ known => known tab.fd := by
  induction todo generalizing news known with
  | nil => exact hknown
  | cons row todo ih =>
    refine wp_bind (wp_ofExcept fun newRecord _ => ?_)
    have htry := wp_tryInsertEntries newRecord row.1
      (fun done _ => wp_restoreKeys rows news newRecord done) [] tab.indexes hknown
    exact wp_bind (wp_mono htry fun _ _ hknown => ih _ hknown)

theorem updateNext_safe (clauses : List SetClause) (rids : List Rid) (known : Known) :
    (updateNext tab clauses rids).Safe known := by
  refine wp_bind (wp_mono (wp_removeOldKeys_or rids) fun rows _ hrows => ?_)
  rcases hrows with rfl | hknown
  · trivial
  · refine wp_bind (wp_mono (wp_insertNewKeys clauses rows rows [] hknown) fun news _ hknown => ?_)
    have hwrite : ∀ row known, known tab.fd →
        (writeRow tab row).wp pre learn known fun _ known => known tab.fd := fun row _ hknown =>
      wp_bind (wp_mono (wp_append _ hknown) fun _ _ hknown => wp_write hknown)
    exact wp_mono (wp_loop (rows.zip news) hknown hwrite) fun _ _ _ => trivial

-- A rollback asks for no lock, so what it knows stays the same.

theorem wp_same (o : TableOp) (hknown : known tab.fd) :
    (onTable tab o).wp pre learn known fun _ known' => known' = known :=
  wp_op (.inr hknown) fun _ => rfl

theorem wp_rollback (fuel : Nat) (x : Tab × WriteRecord) (hknown : known x.1.fd) :
    (rollback fuel x).wp pre learn known fun _ known' => known' = known := by
  obtain ⟨tab, w⟩ := x
  have hdelete : ∀ r, (deleteEntries tab r).wp pre learn known fun _ known' => known' = known := by
    intro r
    refine wp_each rfl fun i _ known' hsame => ?_
    subst hsame
    exact wp_same _ hknown
  have hinsert : ∀ r rid,
      (insertEntries tab r rid).wp pre learn known fun _ known' => known' = known := by
    intro r rid
    refine wp_each rfl fun i _ known' hsame => ?_
    subst hsame
    exact wp_same _ hknown
  cases w with
  | insertTuple rid r =>
    refine wp_bind (wp_getRecord rid fun record => ?_)
    refine wp_bind (wp_mono (hdelete record) ?_)
    rintro _ _ rfl
    exact wp_same _ hknown
  | deleteTuple rid r =>
    refine wp_bind (wp_mono (hinsert r rid) ?_)
    rintro _ _ rfl
    exact wp_same _ hknown
  | updateTuple rid old new =>
    refine wp_bind (wp_getRecord rid fun current => ?_)
    refine wp_bind (wp_mono (hdelete current) ?_)
    rintro _ _ rfl
    refine wp_bind (wp_mono (wp_same _ hknown) ?_)
    rintro _ _ rfl
    exact hinsert old rid

theorem abort_safe (fuel : Nat) {ws : List (Tab × WriteRecord)} (hknown : ∀ x ∈ ws, known x.1.fd) :
    Safe (each (rollback fuel) ws) known := by
  have h : (each (rollback fuel) ws).wp pre learn known fun _ known' => known' = known := by
    refine wp_each rfl fun x hx known' hsame => ?_
    subst hsame
    exact wp_rollback fuel x (hknown x hx)
  exact wp_mono h fun _ _ _ => trivial

end StmtProg

-- ---------------------------------------------------------------------------
-- The invariant
-- ---------------------------------------------------------------------------

namespace Db

open StmtProg

variable {s s' : Db} {t : TxnId}

/-- The program keeps to the locks that the transaction has. -/
def Keeps (s : Db) (t : TxnId) (p : StmtProg Unit) : Prop :=
  ∃ known, (∀ fd, known fd → s.locks.lockTable.HasWrite t fd) ∧ Safe p known

/-- What holds of a transaction, wherever it is. -/
def PcOk (s : Db) (t : TxnId) : StmtPc → Prop
  | .idle | .ended => True
  | .query scans next =>
    (∀ scan ∈ scans, scan.begun = true → s.locks.lockTable.HasRead t scan.fd) ∧
      ∀ p rids, next = some p → Safe (p rids) fun _ => False
  | .running p | .aborting p => Keeps s t p

structure Inv (s : Db) : Prop where
  ok : s.locks.lockTable.Ok
  covered : s.locks.Covered
  pc : ∀ t, PcOk s t (s.pc t)
  touched : ∀ t, ∀ x ∈ s.touched t, s.locks.lockTable.HasWrite t x.fd
  writeSet : ∀ t, ∀ x ∈ s.writeSet t, s.locks.lockTable.HasWrite t x.1.fd

theorem Inv.start (tables : Int → Table) (fuel : Nat) : Inv (start tables fuel) where
  ok := LockState.init_ok
  covered := .init
  pc _ := trivial
  touched _ _ hx := nomatch hx
  writeSet _ _ hx := nomatch hx

theorem PcOk.mono {c : StmtPc} (h : PcOk s t c)
    (hsub : ∀ fd, ∀ q ∈ s.locks.lockTable (.table fd), q.txnId = t →
      q ∈ s'.locks.lockTable (.table fd)) : PcOk s' t c := by
  have hwrite : ∀ p, Keeps s t p → Keeps s' t p := by
    rintro p ⟨known, hknown, hsafe⟩
    exact ⟨known, fun fd hfd => (hknown fd hfd).mono (hsub fd), hsafe⟩
  cases c with
  | idle => trivial
  | ended => trivial
  | query scans next =>
    exact ⟨fun scan hscan hbegun => (h.1 scan hscan hbegun).mono (hsub scan.fd), h.2⟩
  | running p => exact hwrite p h
  | aborting p => exact hwrite p h

/-- A step that takes no lock away. -/
theorem Inv.next (h : Inv s) {c : StmtPc} (hok : s'.locks.lockTable.Ok)
    (hcovered : s'.locks.Covered)
    (hgrows : ∀ id, ∀ q ∈ s.locks.lockTable id, q ∈ s'.locks.lockTable id)
    (hpc : s'.pc = Function.update s.pc t c) (hc : PcOk s' t c)
    (htouched : ∀ u, ∀ x ∈ s'.touched u, x ∈ s.touched u ∨ (u = t ∧ s'.locks.lockTable.HasWrite t x.fd))
    (hwrites : ∀ u, ∀ x ∈ s'.writeSet u,
      x ∈ s.writeSet u ∨ (u = t ∧ s'.locks.lockTable.HasWrite t x.1.fd)) : Inv s' where
  ok := hok
  covered := hcovered
  pc u := by
    rw [hpc]
    by_cases hut : u = t
    · subst hut
      rwa [Function.update_self]
    · rw [Function.update_of_ne hut]
      exact (h.pc u).mono fun fd q hq _ => hgrows _ q hq
  touched u x hx := by
    rcases htouched u x hx with hold | ⟨rfl, hnew⟩
    · exact (h.touched u x hold).mono fun q hq _ => hgrows _ q hq
    · exact hnew
  writeSet u x hx := by
    rcases hwrites u x hx with hold | ⟨rfl, hnew⟩
    · exact (h.writeSet u x hold).mono fun q hq _ => hgrows _ q hq
    · exact hnew

/-- Nothing but the program counter changes. -/
theorem Inv.goTo (h : Inv s) {c : StmtPc} (hc : PcOk s t c) : Inv (s.goTo t c) :=
  h.next h.ok h.covered (fun _ _ hq => hq) rfl (hc.mono fun _ _ hq _ => hq) (fun _ _ hx => .inl hx)
    fun _ _ hx => .inl hx

theorem Inv.toAbort (h : Inv s) : Inv (s.toAbort t) := by
  refine h.next (h.ok) (h.covered.call (.setState t .aborted)) (fun _ _ hq => hq) rfl ?_
    (fun _ _ hx => .inl hx) fun _ _ hx => .inl hx
  refine ⟨fun fd => s.locks.lockTable.HasWrite t fd, fun _ hfd => hfd, ?_⟩
  exact abort_safe s.fuel fun x hx => h.writeSet t x hx

/-- The end of a transaction takes its locks away, and what it has touched is settled. -/
theorem Inv.finish (h : Inv s) : Inv (s.finish t) := by
  have hqueue := h.covered.releaseLocks_lockTable t
  have hother : ∀ u, u ≠ t → ∀ id, ∀ q ∈ s.locks.lockTable id, q.txnId = u →
      q ∈ (s.finish t).locks.lockTable id := by
    rintro u hut id q hq rfl
    exact (hqueue id).symm ▸ List.mem_filter.mpr ⟨hq, by simpa using hut⟩
  refine ⟨h.ok.mono fun id q hq => ?_, h.covered.releaseLocks t, fun u => ?_, fun u x hx => ?_,
    fun u x hx => ?_⟩
  · rw [show (s.finish t).locks.lockTable id = _ from hqueue id] at hq
    exact (List.mem_filter.mp hq).1
  · by_cases hut : u = t
    · simp [Db.finish, Db.goTo, hut, PcOk]
    · simp only [Db.finish, Db.goTo, Function.update_of_ne hut]
      exact (h.pc u).mono fun fd => hother u hut _
  · by_cases hut : u = t
    · simp [Db.finish, hut] at hx
    · simp only [Db.finish, Function.update_of_ne hut] at hx
      exact (h.touched u x hx).mono (hother u hut _)
  · by_cases hut : u = t
    · simp [Db.finish, hut] at hx
    · simp only [Db.finish, Function.update_of_ne hut] at hx
      exact (h.writeSet u x hx).mono (hother u hut _)

-- ---------------------------------------------------------------------------
-- Steps and runs
-- ---------------------------------------------------------------------------

/-- A write is in its table. -/
theorem writes_fd {table : Table} {fd : Int} {o : TableOp} {v : o.Val} {x : Item}
    (hx : x ∈ o.writes table fd v) : x.fd = fd ∧ ¬ o.ReadOnly := by
  cases o <;> simp only [TableOp.writes, Table.entryOf, List.mem_singleton, List.not_mem_nil,
    Option.mem_toList, Option.map_eq_some_iff] at hx <;> try contradiction
  case insertEntry => obtain ⟨ix, -, rfl⟩ := hx; exact ⟨rfl, id⟩
  case deleteEntry => obtain ⟨ix, -, rfl⟩ := hx; exact ⟨rfl, id⟩
  all_goals exact hx ▸ ⟨rfl, id⟩

/-- The step of a program that keeps to its locks. -/
theorem Inv.call (h : Inv s) {o : StmtOp} {k : Except DbError o.Val → StmtProg Unit} {c : StmtPc}
    (hkeeps : Keeps s t (.call o k))
    (hc : Keeps ((s.exec t o).2.goTo t c) t (k (s.exec t o).1) →
      PcOk ((s.exec t o).2.goTo t c) t c) : Inv ((s.exec t o).2.goTo t c) := by
  obtain ⟨known, hknown, hpre, hsafe⟩ := hkeeps
  cases o with
  | lock fd o =>
    have hgrows : ∀ id, ∀ q ∈ s.locks.lockTable id,
        q ∈ (o.request s.locks.lockTable (s.locks.txns t) fd).lockTable id :=
      fun id q hq => o.request_grows hq
    refine h.next (o.request_ok h.ok) (h.covered.after o.request_follows) hgrows rfl (hc ?_)
      (fun _ _ hx => .inl hx) fun _ _ hx => .inl hx
    refine ⟨_, fun fd' hfd' => ?_, hsafe _⟩
    have hold : known fd' → LockTable.HasWrite
        (o.request s.locks.lockTable (s.locks.txns t) fd).lockTable t fd' :=
      fun hk => (hknown fd' hk).mono fun q hq _ => hgrows _ q hq
    cases hgranted : (o.request s.locks.lockTable (s.locks.txns t) fd).granted with
    | false => exact hold (by simpa [Db.exec, hgranted, learn] using hfd')
    | true =>
      have hnew : fd' = fd ∨ known fd' := by simpa [Db.exec, hgranted, learn] using hfd'
      rcases hnew with rfl | hk
      · have hwrite := o.request_hasWrite hgranted
        rwa [h.covered.txnId t] at hwrite
      · exact hold hk
  | appendWriteRecord tab w =>
    refine h.next h.ok h.covered (fun _ _ hq => hq) rfl (hc ⟨known, hknown, hsafe _⟩)
      (fun _ _ hx => .inl hx) fun u x hx => ?_
    by_cases hut : u = t
    · subst hut
      simp only [Db.exec, Db.goTo, Function.update_self, List.mem_cons] at hx
      rcases hx with rfl | hold
      · exact .inr ⟨rfl, hknown tab.fd hpre⟩
      · exact .inl hold
    · exact .inl (by simpa [Db.exec, Db.goTo, hut] using hx)
  | onTable fd o =>
    have hk := hsafe (s.exec t (.onTable fd o)).1
    revert hc hk
    simp only [Db.exec]
    split
    next v table hexec =>
      intro hc hk
      refine h.next h.ok h.covered (fun _ _ hq => hq) rfl (hc ⟨known, hknown, hk⟩)
        (fun u x hx => ?_) fun _ _ hx => .inl hx
      by_cases hut : u = t
      · subst hut
        simp only [Db.goTo, Function.update_self, List.mem_append] at hx
        rcases hx with hnew | hold
        · obtain ⟨rfl, hwrite⟩ := writes_fd hnew
          exact .inr ⟨rfl, hknown _ (hpre.resolve_left hwrite)⟩
        · exact .inl hold
      · exact .inl (by simpa [Db.goTo, hut] using hx)
    next e hexec =>
      intro hc hk
      exact h.next h.ok h.covered (fun _ _ hq => hq) rfl (hc ⟨known, hknown, hk⟩)
        (fun _ _ hx => .inl hx) fun _ _ hx => .inl hx

theorem Inv.resume (h : Inv s) {report : Reported} (hstep : s.resume t = some (report, s')) :
    Inv s' := by
  unfold Db.resume at hstep
  have hpc := h.pc t
  split at hstep
  next hc =>
    cases hstep
    exact h.goTo trivial
  next e hc =>
    split at hstep <;> cases hstep
    · exact h.toAbort
    · exact h.goTo trivial
  next o k hc =>
    cases hstep
    rw [hc] at hpc
    exact h.call hpc id
  next hc =>
    cases hstep
    exact h.finish
  next o k hc =>
    cases hstep
    rw [hc] at hpc
    exact h.call hpc id
  next => cases hstep

theorem Inv.beginTuple (h : Inv s) {k : Nat} {report : Reported}
    (hstep : s.beginTuple t k = some (report, s')) : Inv s' := by
  unfold Db.beginTuple at hstep
  split at hstep
  next scans cont hc =>
    split at hstep
    next scan hscan =>
      have hpc := h.pc t
      rw [hc] at hpc
      have hgrows : ∀ id, ∀ q ∈ s.locks.lockTable id,
          q ∈ (LockManager.lockSharedOnTable s.locks.lockTable (s.locks.txns t) scan.fd).lockTable id :=
        fun id q hq => LockManager.lockOnTable_grows hq
      -- Whatever the answer, the state of the lock manager stays in order.
      have hlocks : Inv { s with
          locks := s.locks.after t
            (LockManager.lockSharedOnTable s.locks.lockTable (s.locks.txns t) scan.fd) } := by
        refine h.next (t := t) (c := s.pc t) (LockManager.lockOnTable_ok _ _ LockManager.row_S h.ok)
          (h.covered.after (LockManager.lockOnTable_follows _ _ _ _ _)) hgrows
          (Function.update_eq_self t s.pc).symm ((h.pc t).mono fun fd q hq _ => hgrows _ q hq)
          (fun _ _ hx => .inl hx) fun _ _ hx => .inl hx
      dsimp only at hstep
      split at hstep <;> cases hstep
      next hgranted =>
        refine hlocks.goTo ⟨fun scan' hmem hbegun => ?_, hpc.2⟩
        rcases List.mem_or_eq_of_mem_set hmem with hold | rfl
        · exact (hpc.1 scan' hold hbegun).mono fun q hq _ => hgrows _ q hq
        · have hnew := LockManager.lockOnTable_granted hgranted
          exact ⟨_, hnew, h.covered.txnId t, rfl⟩
      next => exact hlocks.toAbort
    next => cases hstep
  next => cases hstep

theorem Inv.step (h : Inv s) {a : StmtAct} {report : Reported}
    (hstep : s.step t a = some (report, s')) : Inv s' := by
  have hpc := h.pc t
  cases a with
  | resume => exact h.resume hstep
  | beginTuple k => exact h.beginTuple hstep
  | select scans =>
    simp only [Db.step] at hstep
    split at hstep <;> cases hstep
    refine h.goTo ⟨fun scan hscan hbegun => ?_, nofun⟩
    obtain ⟨x, -, rfl⟩ := List.mem_map.mp hscan
    cases hbegun
  | insert tab values buffer =>
    simp only [Db.step] at hstep
    split at hstep <;> cases hstep
    exact h.goTo ⟨fun _ => False, nofun, insertNext_safe values buffer _⟩
  | update tab index clauses =>
    simp only [Db.step] at hstep
    split at hstep <;> cases hstep
    refine h.goTo ⟨by simp, ?_⟩
    rintro p rids ⟨⟩
    exact updateNext_safe clauses rids _
  | delete tab index conds =>
    simp only [Db.step] at hstep
    split at hstep <;> cases hstep
    refine h.goTo ⟨by simp, ?_⟩
    rintro p rids ⟨⟩
    exact deleteNext_safe conds rids _
  | commit =>
    simp only [Db.step] at hstep
    split at hstep <;> cases hstep
    refine Inv.finish ?_
    exact h.next (t := t) (c := s.pc t) h.ok (h.covered.call (.setState t .committed))
      (fun _ _ hq => hq) (Function.update_eq_self t s.pc).symm ((h.pc t).mono fun _ _ hq _ => hq)
      (fun _ _ hx => .inl hx) fun _ _ hx => .inl hx
  | abort =>
    simp only [Db.step] at hstep
    split at hstep <;> cases hstep
    exact h.toAbort
  | scan k step =>
    simp only [Db.step] at hstep
    split at hstep
    · split at hstep <;> cases hstep
      exact h
    · cases hstep
  | done rids =>
    simp only [Db.step] at hstep
    split at hstep <;> cases hstep
    · exact h.goTo trivial
    · rename_i next hc
      rw [hc] at hpc
      exact h.goTo ⟨fun _ => False, nofun, hpc.2 next rids rfl⟩
  | fail e =>
    simp only [Db.step] at hstep
    split at hstep <;> cases hstep
    exact h.goTo trivial

theorem Run.inv {s₀ : Db} (h : Inv s₀) (hrun : Run s₀ s) : Inv s := by
  induction hrun with
  | start => exact h
  | step _ hstep ih => exact ih.step hstep

/-- Nobody else has written in the table that is read. -/
theorem Inv.reads (h : Inv s) {a : StmtAct} (hguard : s.Guarded t a) {x : Item}
    (hread : s.Reads t a x) {u : TxnId} (hx : x ∈ s.touched u) : u = t := by
  have hwrite := h.touched u x hx
  cases a with
  | scan k step =>
    obtain ⟨scans, next, scan, hc, hscan, hbegun, hreads⟩ := hread
    have hpc := h.pc t
    rw [hc] at hpc
    have hlock := hpc.1 scan (List.mem_of_getElem? hscan) hbegun
    have hfd : x.fd = scan.fd := by
      cases step <;> cases x <;> simp only [Scan.reads] at hreads <;> exact hreads.1
    rw [hfd] at hwrite
    exact (h.ok.eq_of_hasRead_hasWrite hlock hwrite).symm
  | resume =>
    obtain ⟨fd, i, r, k, hc, hentry⟩ := hread
    have hfd : x.fd = fd := by
      simp only [Table.entryOf, Option.mem_toList, Option.map_eq_some_iff] at hentry
      obtain ⟨ix, -, rfl⟩ := hentry
      rfl
    rw [hfd] at hwrite
    exact (LockTable.eq_of_not_refused_hasWrite (hguard fd i r k hc) hwrite).symm
  | _ => exact hread.elim

end Db

/-- In every run, what a scan reads has been written by no other transaction that has not ended,
and the same holds of a uniqueness check that is made where the lock of the scans would be
granted. -/
theorem no_dirty_reads (tables : Int → Table) (fuel : Nat) {s : Db}
    (hrun : Db.Run (.start tables fuel) s) {t : TxnId} {a : StmtAct} (hguard : s.Guarded t a)
    {x : Item} (hread : s.Reads t a x) (u : TxnId) (hu : u ≠ t) : x ∉ s.touched u :=
  fun hx => hu ((hrun.inv (.start tables fuel)).reads hguard hread hx)

theorem Db.Run.next {s₀ s : Db} (h : Run s₀ s) (t : TxnId) (a : StmtAct)
    (hstep : (s.step t a).isSome) : Run s₀ ((s.step t a).get hstep).2 :=
  .step h (Option.some_get hstep).symm

/-- The table `t(a INT)` with an index on `a`. -/
def intTab : Tab := ⟨3, [⟨"a", .int, 4, 0⟩], 1⟩

/-- Transaction 1 inserts the key 1 and commits. Transaction 3 has inserted the key into another table and scans this one
when the uniqueness check of transaction 2 reads the entry of transaction 1. -/
theorem no_dirty_reads_check : ∃ s : Db, Db.Run (.start (fun _ => intSession.table) 1) s ∧
    .entry 4 0 [1, 0, 0, 0] ∈ s.touched 3 ∧ ⟨3, .S⟩ ∈ s.locks.lockTable (.table 3) ∧
    s.Reads 2 .resume (.entry 3 0 [1, 0, 0, 0]) ∧ ∀ u, u ≠ 2 → .entry 3 0 [1, 0, 0, 0] ∉ s.touched u := by
  have h := @Db.Run.start (.start (fun _ => intSession.table) 1)
  replace h := h.next 1 (.insert intTab [.int 1] [0, 0, 0, 0]) rfl
  replace h := h.next 3 (.insert { intTab with fd := 4 } [.int 1] [0, 0, 0, 0]) rfl
  replace h := h.next 1 .resume rfl
  replace h := h.next 3 .resume rfl
  replace h := h.next 1 .resume rfl
  replace h := h.next 1 .resume rfl
  replace h := h.next 3 .resume rfl
  replace h := h.next 3 .resume rfl
  replace h := h.next 1 .resume rfl
  replace h := h.next 1 .resume rfl
  replace h := h.next 1 .resume rfl
  replace h := h.next 1 .resume rfl
  replace h := h.next 1 .commit rfl
  replace h := h.next 3 .resume rfl
  replace h := h.next 3 .resume rfl
  replace h := h.next 3 .resume rfl
  replace h := h.next 3 .resume rfl
  replace h := h.next 3 (.select [(3, none)]) rfl
  replace h := h.next 2 (.insert intTab [.int 1] [0, 0, 0, 0]) rfl
  replace h := h.next 3 (.beginTuple 0) rfl
  have hcheck := @no_dirty_reads _ 1 _ h 2 .resume (by
    rintro fd i r k hpc
    cases hpc
    rfl) (.entry 3 0 [1, 0, 0, 0])
  exact ⟨_, h, .head _, .head _, ⟨3, 0, [1, 0, 0, 0], _, rfl, .head _⟩, hcheck ⟨3, 0, [1, 0, 0, 0], _, rfl, .head _⟩⟩

theorem Db.Run.restart {s₀ s : Db} (_ : Run s₀ s) : Run s s := .start

/-- Transaction 1 has inserted the key 1 and not committed yet. The uniqueness check of
transaction 2 reads the entry, and its client is told of a duplicate; then transaction 1 rolls
back, and there is no such row. -/
theorem dirty_check : ∃ s s₁ s₂ s₃ : Db, Db.Run (.start (fun _ => intSession.table) 1) s ∧
    s.Reads 2 .resume (.entry 3 0 [1, 0, 0, 0]) ∧ Item.entry 3 0 [1, 0, 0, 0] ∈ s.touched 1 ∧
    s.step 2 .resume = some (.nothing, s₁) ∧
    s₁.step 2 .resume = some (.failed .indexEntryNotUnique, s₂) ∧
    Db.Run s₂ s₃ ∧ s₃.touched 1 = [] ∧ (s₃.tables 3).file.lookup ⟨1, 0⟩ = none := by
  have h := @Db.Run.start (.start (fun _ => intSession.table) 1)
  replace h := h.next 1 (.insert intTab [.int 1] [0, 0, 0, 0]) rfl
  replace h := h.next 1 .resume rfl
  replace h := h.next 1 .resume rfl
  replace h := h.next 1 .resume rfl
  replace h := h.next 1 .resume rfl
  replace h := h.next 1 .resume rfl
  replace h := h.next 1 .resume rfl
  replace h := h.next 1 .resume rfl
  replace h := h.next 2 (.insert intTab [.int 1] [0, 0, 0, 0]) rfl
  have h₂ := (h.next 2 .resume rfl).next 2 .resume rfl
  have h₃ := h₂.restart
  replace h₃ := h₃.next 1 .abort rfl
  replace h₃ := h₃.next 1 .resume rfl
  replace h₃ := h₃.next 1 .resume rfl
  replace h₃ := h₃.next 1 .resume rfl
  replace h₃ := h₃.next 1 .resume rfl
  exact ⟨_, _, _, _, h, ⟨3, 0, [1, 0, 0, 0], _, rfl, .head _⟩, .head _, rfl, rfl, h₃, rfl, rfl⟩

end Rmdb
