-- SUMMARY: Runs of a record file on the pool among other clients: what its calls answer, and which pins are left.
import Rmdb.Record.PoolRefinement

/-!
# Runs of a record file on the pool

The clients of the pool take turns. The file `fd` is used through the calls of `RmFileHandle` and `RmScan` only, and
between two of its calls the clients of other files do what the discipline of the pool allows, so pages of the file
come and go. Every call answers as on the file of pages does, unless the pool has no frame for it. The pins that are
left are those of the records put back, and with one of them the file cannot be closed.
-/

namespace Rmdb

open Run

-- ---------------------------------------------------------------------------
-- Calls
-- ---------------------------------------------------------------------------

/-- The calls of `RmFileHandle` and `RmScan`. An LSN is the `so_far_lsn` of the context, if there is one. -/
inductive RmCall where
  | getRecord (rid : Rid)
  | isRecord (rid : Rid)
  | insertRecord (buf : RmRecord) (lsn : Option Int)
  | insertRecordAt (fuel : Nat) (rid : Rid) (buf : RmRecord)
  | deleteRecord (rid : Rid) (lsn : Option Int)
  | updateRecord (rid : Rid) (buf : RmRecord) (lsn : Int)
  | scanBegin
  | scanNext (rid : Rid)

inductive RmAnswer where
  | record (buf : RmRecord)
  | flag (b : Bool)
  | rid (rid : Rid)
  | done
  deriving DecidableEq

namespace RmCall

/-- The call on the file of pages. -/
def onPages (f : RmFileHandle) : RmCall → Except RmError (RmAnswer × RmFileHandle)
  | getRecord rid => do return (.record (← f.getRecord rid), f)
  | isRecord rid => do return (.flag (← f.isRecord rid), f)
  | insertRecord buf _ => do
    let (rid, g) ← f.insertRecord buf
    return (.rid rid, g)
  | insertRecordAt fuel rid buf => do return (.done, ← f.insertRecordAt fuel rid buf)
  | deleteRecord rid _ => do return (.done, ← f.deleteRecord rid)
  | updateRecord rid buf _ => do return (.done, ← f.updateRecord rid buf)
  | scanBegin => .ok (.rid (RmScan.begin f), f)
  | scanNext rid => .ok (.rid (RmScan.next f rid), f)

/-- The call on the pool. -/
def exec {κ : Type} [DecidableEq κ] (c : κ) (fd : Int) : RmCall → FileM κ RmAnswer
  | getRecord rid => do return .record (← OpenFile.getRecord c fd rid)
  | isRecord rid => do return .flag (← OpenFile.isRecord c fd rid)
  | insertRecord buf lsn => do return .rid (← OpenFile.insertRecord c fd buf lsn)
  | insertRecordAt fuel rid buf => do
    OpenFile.insertRecordAt c fd fuel rid buf
    return .done
  | deleteRecord rid lsn => do
    OpenFile.deleteRecord c fd rid lsn
    return .done
  | updateRecord rid buf lsn => do
    OpenFile.updateRecord c fd rid buf lsn
    return .done
  | scanBegin => do return .rid (← OpenFile.scanBegin c fd)
  | scanNext rid => do return .rid (← OpenFile.scanNext c fd rid)

/-- Positions are slots, records have the size of the file, and a scan goes on only before its end. -/
def Valid (f : RmFileHandle) : RmCall → Prop
  | getRecord rid => f.IsSlot rid
  | isRecord rid => f.IsSlot rid
  | insertRecord buf _ => buf.length = f.recordSize
  | insertRecordAt _ rid buf => f.IsSlot rid ∧ buf.length = f.recordSize
  | updateRecord _ buf _ => buf.length = f.recordSize
  | scanNext rid => f.InFile rid.pageNo
  | deleteRecord _ _ => True
  | scanBegin => True

/-- The page that the call does not unpin. -/
def kept (f : RmFileHandle) : RmCall → List PageNo
  | insertRecordAt _ _ _ => [f.fetchFreePageHandle.1]
  | _ => []

end RmCall

/-- The calls of the clients of other files. -/
def PoolCall.Foreign {κ : Type} (c : κ) (fd : Int) : PoolCall κ → Prop
  | newPage c' fd' => c' ≠ c ∧ fd' ≠ fd
  | fetchPage c' p => c' ≠ c ∧ p.fd ≠ fd
  | store k _ => k.client ≠ c
  | unpinPage k _ => k.client ≠ c
  | _ => True

/-- A file that `create_file` has made and `open_file` has opened, and a pool just constructed. -/
def OpenFile.created {κ : Type} (recordSize poolSize : Nat) (fds : FrameId → Int) (disk : DiskManager) :
    OpenFile κ :=
  ⟨.create recordSize, .start poolSize fds disk⟩

/-- The states that the open file `s₀` gets to, with the file of pages that it stands for, and the pages whose pins
its calls have kept. -/
inductive FileRuns {κ : Type} [DecidableEq κ] (c : κ) (fd : Int) (recordSize : Nat) (s₀ : OpenFile κ) :
    OpenFile κ → RmFileHandle → List PageNo → Prop where
  | start : FileRuns c fd recordSize s₀ s₀ (.createFile recordSize) []
  | call {s s' : OpenFile κ} {f g : RmFileHandle} {pages : List PageNo} {call : RmCall} {answer answer' : RmAnswer} :
    FileRuns c fd recordSize s₀ s f pages → call.onPages f = .ok (answer, g) → call.Valid f →
    g.numPages < 2147483648 → call.exec c fd s = .ok answer' s' →
    FileRuns c fd recordSize s₀ s' g (call.kept f ++ pages)
  | others {s : OpenFile κ} {f : RmFileHandle} {pages : List PageNo} {call : PoolCall κ} {answer : PoolAnswer}
      {run : PoolRun κ} : FileRuns c fd recordSize s₀ s f pages → s.run.Allowed call → call.Foreign c fd →
    s.run.step call = some (answer, run) → answer ≠ .threw →
    FileRuns c fd recordSize s₀ { s with run := run } f pages

-- ---------------------------------------------------------------------------
-- The file of pages
-- ---------------------------------------------------------------------------

namespace RmFileHandle

variable {f g : RmFileHandle} {rids : List Rid} {recordSize : Nat} {call : RmCall} {answer : RmAnswer}

theorem perPage_of_calls (h : RmCalls recordSize f rids) :
    f.numRecordsPerPage = (createFile recordSize).numRecordsPerPage := by
  induction h with
  | create => rfl
  | @insert f _ _ _ _ _ hinsert ih =>
    obtain ⟨f₁, i, hfetch, -, -, -, rfl⟩ := insertRecord_returned hinsert
    have hper := @fetchFreePageHandle_perPage f
    rw [hfetch] at hper
    exact fillSlot_perPage.trans (hper.trans ih)
  | insertAt _ hinsert ih =>
    obtain ⟨f₁, hloop, -, ⟨-, rfl⟩ | ⟨-, rfl⟩⟩ := insertRecordAt_returned hinsert
    · exact (fetchFreeUntil_perPage hloop).trans ih
    · exact fillSlot_perPage.trans ((fetchFreeUntil_perPage hloop).trans ih)
  | delete _ hdelete ih =>
    obtain ⟨-, -, rfl⟩ := deleteRecord_returned hdelete
    exact clearSlot_perPage.trans ih
  | update _ hupdate ih =>
    obtain ⟨-, -, rfl⟩ := updateRecord_returned hupdate
    exact ih
  | reopen _ ih => exact ih

/-- A file that calls lead to, all of whose records were put into slots of pages. -/
def Called (recordSize : Nat) (f : RmFileHandle) : Prop :=
  ∃ rids, RmCalls recordSize f rids ∧ ∀ r ∈ rids, f.IsSlot r

theorem Called.step (h : Called recordSize f) {new : List Rid}
    (hcalls : ∀ rids, RmCalls recordSize f rids → RmCalls recordSize g (new ++ rids)) (hnew : ∀ r ∈ new, f.IsSlot r) :
    Called recordSize g := by
  obtain ⟨rids, hrids, hslots⟩ := h
  have hper := (perPage_of_calls (hcalls rids hrids)).trans (perPage_of_calls hrids).symm
  refine ⟨_, hcalls rids hrids, fun r hr => ?_⟩
  have hslot : f.IsSlot r := (List.mem_append.mp hr).elim (hnew r) (hslots r)
  exact ⟨hslot.1, hper ▸ hslot.2⟩

/-- A call leads to such a file again. -/
theorem Called.onPages (h : Called recordSize f) (hcall : call.onPages f = .ok (answer, g)) (hvalid : call.Valid f) :
    Called recordSize g := by
  cases call with
  | getRecord rid =>
    obtain ⟨r, -, heq⟩ := bind_eq_ok_iff.mp hcall
    cases heq
    exact h
  | isRecord rid =>
    obtain ⟨r, -, heq⟩ := bind_eq_ok_iff.mp hcall
    cases heq
    exact h
  | insertRecord buf lsn =>
    obtain ⟨⟨rid, g⟩, hinsert, heq⟩ := bind_eq_ok_iff.mp hcall
    cases heq
    obtain ⟨f₁, i, hfetch, -, hslot, -, -⟩ := insertRecord_returned hinsert
    have hper := @fetchFreePageHandle_perPage f
    rw [hfetch] at hper
    exact @Called.step _ _ _ h [rid] (fun rids hrids => .insert hrids hinsert) (by simpa [IsSlot, ← hper] using hslot)
  | insertRecordAt fuel rid buf =>
    obtain ⟨r, hinsert, heq⟩ := bind_eq_ok_iff.mp hcall
    cases heq
    exact @Called.step _ _ _ h [rid] (fun rids hrids => .insertAt hrids hinsert) (by simpa using hvalid.1)
  | deleteRecord rid lsn =>
    obtain ⟨r, hdelete, heq⟩ := bind_eq_ok_iff.mp hcall
    cases heq
    exact @Called.step _ _ _ h [] (fun rids hrids => .delete hrids hdelete) (by simp)
  | updateRecord rid buf lsn =>
    obtain ⟨r, hupdate, heq⟩ := bind_eq_ok_iff.mp hcall
    cases heq
    exact @Called.step _ _ _ h [] (fun rids hrids => .update hrids hupdate) (by simp)
  | scanBegin =>
    cases hcall
    exact h
  | scanNext rid =>
    cases hcall
    exact h

end RmFileHandle

-- ---------------------------------------------------------------------------
-- The other clients
-- ---------------------------------------------------------------------------

namespace PoolRun

variable {κ : Type} {c : κ} {fd : Int} {s s' : PoolRun κ}

/-- The clients of other files have pinned no page of file `fd`. -/
def Apart (c : κ) (fd : Int) (s : PoolRun κ) : Prop := ∀ k ∈ s.pins, k.client ≠ c → k.page.fd ≠ fd

variable [DecidableEq κ]

/-- What client `c` and file `fd` see of a call of another client. -/
structure Unseen (c : κ) (fd : Int) (s s' : PoolRun κ) : Prop where
  unlatched : s'.pool.Unlatched
  counter : s'.pool.disk.fd2pageno fd = s.pool.disk.fd2pageno fd
  stored : ∀ p, s'.stored ⟨fd, p⟩ = s.stored ⟨fd, p⟩
  own : s'.pins.filter (·.client = c) = s.pins.filter (·.client = c)
  apart : s'.Apart c fd

/-- Only the pool has changed. -/
theorem Unseen.of_pool {b : BufferPoolManager} (hb : b.Unlatched)
    (hcounter : b.disk.fd2pageno = s.pool.disk.fd2pageno) (hs : s.Apart c fd) :
    Unseen c fd s { s with pool := b } :=
  ⟨hb, congrFun hcounter fd, fun _ => rfl, rfl, hs⟩

theorem filter_erase {k : Pin κ} (hk : k.client ≠ c) (pins : List (Pin κ)) :
    (pins.erase k).filter (·.client = c) = pins.filter (·.client = c) := by
  induction pins with
  | nil => rfl
  | cons k' pins ih =>
    by_cases heq : k' = k
    · subst heq
      rw [List.erase_cons_head, List.filter_cons_of_neg (by simpa using hk)]
    · rw [List.erase_cons_tail (by simpa using heq), List.filter_cons, List.filter_cons, ih]

theorem Inv.unseen (h : s.Inv) (hun : s.pool.Unlatched) (hs : s.Apart c fd) {call : PoolCall κ}
    {answer : PoolAnswer} (hallowed : s.Allowed call) (hforeign : call.Foreign c fd)
    (hstep : s.step call = some (answer, s')) (hanswer : answer ≠ .threw) : Unseen c fd s s' := by
  cases call with
  | newPage c' fd' =>
    obtain ⟨r, pageNo, b, hr, hb, hpage⟩ := hun.newPage h.shape fd'
    have hnew := h.newPage hr
    simp only [PoolRun.step, hr] at hstep
    cases r with
    | page f =>
      cases hstep
      obtain ⟨hno, hcounter⟩ := hpage f rfl
      refine ⟨hb, ?_, fun p => ?_, ?_, fun k hk hkc => ?_⟩
      · exact (congrFun hcounter fd).trans (Function.update_of_ne (Ne.symm hforeign.2) _ _)
      · exact Function.update_of_ne (fun heq => hforeign.2 (congrArg PageId.fd heq).symm) _ _
      · exact List.filter_cons_of_neg (by simpa using hforeign.1)
      · rcases List.mem_cons.mp hk with rfl | hk
        · exact hforeign.2
        · exact hs k hk hkc
    | null =>
      cases hstep
      exact .of_pool hb (congrArg (fun b : BufferPoolManager => b.disk.fd2pageno) hnew.1) hs
    | threw => exact hnew.elim
  | fetchPage c' p =>
    obtain ⟨r, b, hr, hb, hcounter⟩ := hun.fetchPage h.shape p
    simp only [PoolRun.step, hr] at hstep
    cases r with
    | page f =>
      cases hstep
      refine ⟨hb (by simp), congrFun hcounter fd, fun p => rfl, ?_, fun k hk hkc => ?_⟩
      · exact List.filter_cons_of_neg (by simpa using hforeign.1)
      · rcases List.mem_cons.mp hk with rfl | hk
        · exact hforeign.2
        · exact hs k hk hkc
    | null =>
      cases hstep
      exact .of_pool (hb (by simp)) hcounter hs
    | threw =>
      cases hstep
      exact absurd rfl hanswer
  | store k data =>
    cases hstep
    refine ⟨BufferPoolManager.Unlatched.setPage hun (hun k.frame), rfl, fun p => ?_, rfl, hs⟩
    exact Function.update_of_ne (fun heq => hs k hallowed hforeign (congrArg PageId.fd heq).symm) _ _
  | unpinPage k isDirty =>
    obtain ⟨b, hr, hdisk, -, hb⟩ := h.unpin_runs hallowed.1 isDirty
    simp only [PoolRun.step, hr, Option.map_some, Option.some.injEq, Prod.mk.injEq] at hstep
    obtain ⟨-, rfl⟩ := hstep
    refine ⟨hb hun, ?_, fun _ => rfl, filter_erase hforeign _, fun k' hk' => hs k' (List.mem_of_mem_erase hk')⟩
    exact congrArg (fun disk : DiskManager => disk.fd2pageno fd) hdisk
  | flushPage p =>
    obtain ⟨⟨r, b⟩, hr, heq⟩ := Option.map_eq_some_iff.mp hstep
    cases heq
    simp only [BufferPoolManager.flushPage] at hr
    split at hr
    · cases hr
      exact .of_pool hun rfl hs
    · split at hr
      · cases hr
      · cases hr
        exact .of_pool (BufferPoolManager.Unlatched.setPage hun (hun _)) rfl hs
  | flushAllPages fd' =>
    obtain ⟨b, hr, heq⟩ := Option.map_eq_some_iff.mp hstep
    cases heq
    have hloop : b.Unlatched ∧ b.disk.fd2pageno = s.pool.disk.fd2pageno := by
      refine BufferPoolManager.loop_inv
        (P := fun b => b.Unlatched ∧ b.disk.fd2pageno = s.pool.disk.fd2pageno) ?_ ⟨hun, rfl⟩ hr
      intro b b' f _ hb hr
      simp only [BufferPoolManager.flushFrame] at hr
      repeat' split at hr
      all_goals cases hr
      · exact ⟨hb.1.setPage (hb.1 f), hb.2⟩
      · exact hb
    exact .of_pool hloop.1 hloop.2 hs
  | deletePage p =>
    obtain ⟨⟨r, b⟩, hr, heq⟩ := Option.map_eq_some_iff.mp hstep
    cases heq
    simp only [BufferPoolManager.deletePage] at hr
    repeat' split at hr
    all_goals cases hr
    · exact .of_pool hun rfl hs
    · exact .of_pool hun rfl hs
    · exact .of_pool (BufferPoolManager.Unlatched.setPage hun rfl) (fd2pageno_writeBack _ _) hs
  | freePage p =>
    obtain ⟨b, hr, heq⟩ := Option.map_eq_some_iff.mp hstep
    cases heq
    simp only [BufferPoolManager.freePage] at hr
    repeat' split at hr
    all_goals cases hr
    · exact .of_pool hun rfl hs
    · exact .of_pool (BufferPoolManager.Unlatched.setPage hun (hun _)) rfl hs
  | freeAllPages fd' =>
    obtain ⟨b, hr, heq⟩ := Option.map_eq_some_iff.mp hstep
    cases heq
    have hloop : b.Unlatched ∧ b.disk.fd2pageno = s.pool.disk.fd2pageno := by
      refine BufferPoolManager.loop_inv
        (P := fun b => b.Unlatched ∧ b.disk.fd2pageno = s.pool.disk.fd2pageno) ?_ ⟨hun, rfl⟩ hr
      intro b b' f _ hb hr
      simp only [BufferPoolManager.freeFrameOf] at hr
      repeat' split at hr
      all_goals cases hr
      · exact ⟨hb.1.setPage (hb.1 f), hb.2⟩
      · exact hb
    exact .of_pool hloop.1 hloop.2 hs

end PoolRun

-- ---------------------------------------------------------------------------
-- Runs
-- ---------------------------------------------------------------------------

namespace OpenFile

variable {κ : Type} {c : κ} {fd : Int} {recordSize size : Nat} {s s' s₀ : OpenFile κ} {f g : RmFileHandle}
  {pages : List PageNo}

variable [DecidableEq κ]

/-- What holds between two calls. -/
structure FileInv (c : κ) (fd : Int) (recordSize size : Nat) (s : OpenFile κ) (f : RmFileHandle)
    (pages : List PageNo) : Prop where
  represents : s.Represents size fd f
  called : f.Called recordSize
  own : (s.run.pins.filter (·.client = c)).map Pin.page = pages.map fun p => ⟨fd, p⟩
  apart : s.run.Apart c fd

theorem FileInv.start {fds : FrameId → Int} {disk : DiskManager}
    (hdisk : ∀ fd, (disk.files fd).length ≤ disk.fd2pageno fd) (hfd : disk.fd2pageno fd = 1) :
    FileInv c fd recordSize size (created recordSize size fds disk) (.createFile recordSize) [] := by
  refine ⟨⟨rfl, rfl, ?_, rfl, RmFileHdr.fits_create recordSize, rfl, .start size fds hdisk, fun _ => rfl, ?_, ?_⟩,
    ⟨[], .create, by simp⟩, rfl, fun k hk => by cases hk⟩
  · show (((8 * (4096 - 1 - 20) + 1) / (1 + recordSize * 8) : Nat) : Int) = _
    push_cast
    rfl
  · exact congrArg (fun n : Nat => (n : Int)) hfd
  · exact fun p hin => absurd hin.1 (not_le.mpr hin.2)

/-- A call that gives back all its pins. -/
theorem FileInv.same (h : FileInv c fd recordSize size s f pages) (hs' : s'.Represents size fd g)
    (hg : g.Called recordSize) (hpins : s'.run.pins = s.run.pins) : FileInv c fd recordSize size s' g pages :=
  ⟨hs', hg, hpins ▸ h.own, fun k hk => h.apart k (hpins ▸ hk)⟩

/-- A call that keeps a pin. -/
theorem FileInv.keeps (h : FileInv c fd recordSize size s f pages) (hs' : s'.Represents size fd g)
    (hg : g.Called recordSize) {k : Pin κ} {p : PageNo} (hpins : s'.run.pins = k :: s.run.pins) (hc : k.client = c)
    (hpage : k.page = ⟨fd, p⟩) : FileInv c fd recordSize size s' g (p :: pages) := by
  refine ⟨hs', hg, ?_, fun k' hk' hne => ?_⟩
  · rw [hpins, List.filter_cons_of_pos (by simpa using hc), List.map_cons, List.map_cons, hpage, h.own]
  · rw [hpins] at hk'
    rcases List.mem_cons.mp hk' with rfl | hk'
    · exact absurd hc hne
    · exact h.apart k' hk' hne

theorem FileInv.others (h : FileInv c fd recordSize size s f pages) {call : PoolCall κ} {answer : PoolAnswer}
    {run : PoolRun κ} (hallowed : s.run.Allowed call) (hforeign : call.Foreign c fd)
    (hstep : s.run.step call = some (answer, run)) (hanswer : answer ≠ .threw) :
    FileInv c fd recordSize size { s with run := run } f pages := by
  have hs := h.represents
  have hunseen := hs.inv.unseen hs.unlatched h.apart hallowed hforeign hstep hanswer
  refine ⟨{ hs with
    poolSize := (PoolRun.step_poolSize hs.inv hstep).trans hs.poolSize
    inv := hs.inv.step hallowed hstep
    unlatched := hunseen.unlatched
    next := (congrArg (fun n : Nat => (n : Int)) hunseen.counter).trans hs.next
    pages := fun p hin => ?_ }, h.called, hunseen.own ▸ h.own, hunseen.apart⟩
  obtain ⟨data, hstored, hshows⟩ := hs.pages p hin
  exact ⟨data, (hunseen.stored p).trans hstored, hshows⟩

/-- The step lemma. A call answers as on the file of pages. -/
theorem FileInv.call (h : FileInv c fd recordSize size s f pages) {call : RmCall} {answer : RmAnswer}
    (hcall : call.onPages f = .ok (answer, g)) (hvalid : call.Valid f) (hnum : g.numPages < 2147483648) :
    wp (call.exec c fd) (OutOfFrames size (s.run.pins.length + 1))
      (fun answer' s' => answer' = answer ∧ FileInv c fd recordSize size s' g (call.kept f ++ pages)) s := by
  have hg := h.called.onPages hcall hvalid
  have hs := h.represents
  obtain ⟨rids, hrids, hslots⟩ := h.called
  have hb := RmFileHandle.Bounded.of_calls hrids
  have ht := RmFileHandle.Tallied.of_calls hrids hslots
  have hn := Nat.le_succ s.run.pins.length
  cases call with
  | getRecord rid =>
    obtain ⟨r, hr, heq⟩ := bind_eq_ok_iff.mp hcall
    cases heq
    obtain ⟨page, hfetch, hpage⟩ := bind_eq_ok_iff.mp hr
    obtain ⟨hin, rfl⟩ := RmFileHandle.fetchPageHandle_ok hfetch
    cases hpage
    refine (hs.getRecord hn hin hvalid c).bind fun r s' hr => ?_
    exact wp.pure ⟨by rw [hr.1], h.same hr.2.1 hg hr.2.2⟩
  | isRecord rid =>
    obtain ⟨r, hr, heq⟩ := bind_eq_ok_iff.mp hcall
    cases heq
    obtain ⟨page, hfetch, hpage⟩ := bind_eq_ok_iff.mp hr
    obtain ⟨hin, rfl⟩ := RmFileHandle.fetchPageHandle_ok hfetch
    cases hpage
    refine (hs.isRecord hn hin hvalid c).bind fun r s' hr => ?_
    exact wp.pure ⟨by rw [hr.1], h.same hr.2.1 hg hr.2.2⟩
  | insertRecord buf lsn =>
    obtain ⟨⟨rid, g⟩, hinsert, heq⟩ := bind_eq_ok_iff.mp hcall
    cases heq
    refine (hs.insertRecord hn hb ht hvalid hinsert c lsn).bind fun r s' hr => ?_
    exact wp.pure ⟨by rw [hr.1], h.same hr.2.1 hg hr.2.2⟩
  | insertRecordAt fuel rid buf =>
    obtain ⟨g, hinsert, heq⟩ := bind_eq_ok_iff.mp hcall
    cases heq
    refine (hs.insertRecordAt (Nat.lt_succ_self _) hb ht hvalid.1 hvalid.2 hinsert c).bind fun _ s' hr => ?_
    obtain ⟨hs', k, hpins, hc, hpage⟩ := hr
    exact wp.pure ⟨rfl, h.keeps hs' hg hpins hc hpage⟩
  | deleteRecord rid lsn =>
    obtain ⟨g, hdelete, heq⟩ := bind_eq_ok_iff.mp hcall
    cases heq
    have hsame : g.numPages = f.numPages := by
      obtain ⟨-, -, rfl⟩ := RmFileHandle.deleteRecord_returned hdelete
      exact RmFileHandle.clearSlot_numPages
    refine (hs.deleteRecord hn hb ht (hsame ▸ hnum) hdelete c lsn).bind fun _ s' hr => ?_
    exact wp.pure ⟨rfl, h.same hr.1 hg hr.2⟩
  | updateRecord rid buf lsn =>
    obtain ⟨g, hupdate, heq⟩ := bind_eq_ok_iff.mp hcall
    cases heq
    refine (hs.updateRecord hn ht hvalid hupdate c lsn).bind fun _ s' hr => ?_
    exact wp.pure ⟨rfl, h.same hr.1 hg hr.2⟩
  | scanBegin =>
    cases hcall
    have hpos := hb.numPages_pos
    have hscan := @Represents.pageLoop _ fd s f size _ _ hs hn (f.numPages - 1).toNat 1 0 (by omega) (by omega) c
    rw [← hs.numPages] at hscan
    refine wp.bind (wp.get hscan) fun r s' hr => ?_
    obtain ⟨rfl, hs', hpins⟩ := hr
    exact wp.pure ⟨by rw [hs.numPages]; rfl, h.same hs' hg hpins⟩
  | scanNext rid =>
    cases hcall
    have hleft : (0 : Int) ≤ f.numPages - rid.pageNo := Int.sub_nonneg_of_le (Int.le_of_lt hvalid.2)
    have hscan := @Represents.pageLoop _ fd s f size _ _ hs hn (f.numPages - rid.pageNo).toNat rid.pageNo
      (rid.slotNo + 1).toNat hvalid.1 (by omega) c
    rw [← hs.numPages] at hscan
    refine wp.bind (wp.get hscan) fun r s' hr => ?_
    obtain ⟨rfl, hs', hpins⟩ := hr
    exact wp.pure ⟨by rw [hs.numPages]; rfl, h.same hs' hg hpins⟩

end OpenFile

end Rmdb
