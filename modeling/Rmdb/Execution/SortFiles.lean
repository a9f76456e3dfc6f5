-- SUMMARY: The descriptors and the temporary files of a `SortExecutor`, from its constructor to its destructor.
import Rmdb.Execution.ExternalSort
import Rmdb.Lib.Descriptors

/-!
# The files of a sort

`TupleBufFile::open` and `close` on the table of descriptors of the process, along the external merge
sort. `close` sets `fd_` to -1 before it calls `::close(fd_)`. The destructor of a file unlinks it.
What is read and written, and the merge itself, is the external merge sort as it is.
-/

namespace Rmdb

variable {α σ : Type}

-- ---------------------------------------------------------------------------
-- Files with descriptors
-- ---------------------------------------------------------------------------

/-- What a sort is given, and what is in an `fd_` that is not set yet. -/
structure FdEnv (α : Type) extends SortEnv α where
  unset : Int

/-- A `TupleBufFile` with its `fd_`. -/
structure FdFile where
  file : TupleBufFile
  fd : Int

namespace FdFile

def openFile (f : FdFile) (d : TmpDisk α) (t : FdTable) : Option (FdFile × FdTable) := do
  let file ← f.file.openFile d
  let (fd, t) := t.openFd
  return (⟨file, fd⟩, t)

def close (f : FdFile) (t : FdTable) : FdFile × FdTable :=
  let f : FdFile := ⟨f.file.close, -1⟩
  (f, t.closeFd f.fd)

def isOpened (f : FdFile) : Bool := f.fd ≠ -1

end FdFile

namespace FdEnv

variable (env : FdEnv α)

/-- The constructor opens the file to create it, and closes it. -/
def newFile (d : TmpDisk α) (t : FdTable) : FdFile × TmpDisk α × FdTable :=
  let (file, d) := env.toSortEnv.newFile d
  let (fd, t) := t.openFd
  (⟨file, env.unset⟩, d, t.closeFd fd)

def writeTmpData (buffer : List α) (d : TmpDisk α) (t : FdTable) : Option (FdFile × TmpDisk α × FdTable) := do
  let (file, d, t) := env.newFile d t
  let (file, t) ← file.openFile d t
  let (written, d) ← file.file.write buffer d
  let (file, t) := FdFile.close ⟨written, file.fd⟩ t
  return (file, d, t)

/-- The part of `mergeTmpFiles` that merges two files. `sec_file` and `fir_file` are destroyed at its end. -/
def mergeFiles (fuel : Nat) (fir sec : FdFile) (d : TmpDisk α) (t : FdTable) :
    Option (FdFile × TmpDisk α × FdTable) := do
  let (ret, d, t) := env.newFile d t
  let (fir, t) ← fir.openFile d t
  let (sec, t) ← sec.openFile d t
  let (ret, t) ← ret.openFile d t
  let (buffer0, firFile) ← fir.file.read tupleNumPerStep d
  let (buffer1, secFile) ← sec.file.read tupleNumPerStep d
  let (firIn, secIn, out, buffer2, d) ←
    env.toSortEnv.mergeLoop fuel ⟨firFile, buffer0, 0⟩ ⟨secFile, buffer1, 0⟩ ret.file [] d
  let (out, d) ← SortEnv.flush out buffer2 d
  let (firIn, out, d) ← SortEnv.drainLoop fuel firIn out d
  let (secIn, out, d) ← SortEnv.drainLoop fuel secIn out d
  let (fir, t) := FdFile.close ⟨firIn.file, fir.fd⟩ t
  let (sec, t) := FdFile.close ⟨secIn.file, sec.fd⟩ t
  let (ret, t) := FdFile.close ⟨out, ret.fd⟩ t
  return (ret, (d.unlink sec.file.fileName).unlink fir.file.fileName, t)

def mergeTmpFiles (fuel : Nat) (tmpFiles : List FdFile) (startIdx endIdx : Int) (d : TmpDisk α) (t : FdTable) :
    Option (Option FdFile × TmpDisk α × FdTable) :=
  if startIdx > endIdx then some (none, d, t)
  else if startIdx = endIdx then do
    let file ← tmpFiles[startIdx.toNat]?
    return (some file, d, t)
  else do
    let mid := (startIdx + endIdx) >>> (1 : Nat)
    let (fir, d, t) ← mergeTmpFiles fuel tmpFiles startIdx mid d t
    let (sec, d, t) ← mergeTmpFiles fuel tmpFiles (mid + 1) endIdx d t
    let (ret, d, t) ← env.mergeFiles fuel (← fir) (← sec) d t
    return (some ret, d, t)
  termination_by (endIdx - startIdx).toNat
  decreasing_by
    all_goals simp only [Int.shiftRight_eq_div_pow]
    all_goals omega

/-- The loop of the constructor. -/
def runLoop (prev : Cursor σ α) : Nat → σ → List α → List FdFile → TmpDisk α → FdTable →
    Option (List α × List FdFile × TmpDisk α × FdTable)
  | 0, _, _, _, _, _ => none
  | fuel + 1, s, tuples, tmpFiles, d, t =>
    if prev.isEnd s then some (tuples, tmpFiles, d, t) else do
      let tuples := tuples ++ [prev.current s]
      if tuples.length = tupleNumPerStep then
        let (file, d, t) ← env.writeTmpData (env.stdSort.sort env.cmpRecord tuples) d t
        let s ← prev.next s
        runLoop prev fuel s [] (tmpFiles ++ [file]) d t
      else
        let s ← prev.next s
        runLoop prev fuel s tuples tmpFiles d t

def lastRun (tuples : List α) (tmpFiles : List FdFile) (d : TmpDisk α) (t : FdTable) :
    Option (List FdFile × TmpDisk α × FdTable) :=
  if tuples.isEmpty then some (tmpFiles, d, t) else do
    let (file, d, t) ← env.writeTmpData (env.stdSort.sort env.cmpRecord tuples) d t
    return (tmpFiles ++ [file], d, t)

end FdEnv

/-- A `SortExecutor` whose file has a descriptor. -/
structure FdSort (α : Type) where
  resFile : Option FdFile
  buffer0 : List α
  currReadIdx : Nat
  isEnd : Bool
  disk : TmpDisk α
  fds : FdTable

/-- The calls on an executor. -/
inductive SortCall where
  | beginTuple
  | nextTuple

namespace FdSort

variable (env : FdEnv α)

def new (prev : Cursor σ α) (fuel : Nat) (s : σ) (d : TmpDisk α) (t : FdTable) : Option (FdSort α) := do
  let s ← prev.begin s
  let (tuples, tmpFiles, d, t) ← env.runLoop prev fuel s [] [] d t
  let (tmpFiles, d, t) ← env.lastRun tuples tmpFiles d t
  let (resFile, d, t) ← env.mergeTmpFiles fuel tmpFiles 0 (tmpFiles.length - 1) d t
  return ⟨resFile, [], 0, false, d, t⟩

def beginTuple (limitNum : Int) (s : FdSort α) : Option (FdSort α) :=
  let s := { s with currReadIdx := 0 }
  match s.resFile with
  | none => some { s with isEnd := true }
  | some file =>
    if limitNum = 0 then some { s with isEnd := true } else do
      let (file, t) := if file.isOpened then file.close s.fds else (file, s.fds)
      let (file, t) ← file.openFile s.disk t
      let (buffer0, read) ← file.file.read tupleNumPerStep s.disk
      return { s with resFile := some ⟨read, file.fd⟩, buffer0 := buffer0, fds := t }

def nextTuple (limitNum : Int) (s : FdSort α) : Option (FdSort α) :=
  let s := { s with currReadIdx := s.currReadIdx + 1 }
  if limitNum > 0 ∧ s.currReadIdx = limitNum then some { s with isEnd := true }
  else if s.currReadIdx = s.buffer0.length then do
    let file ← s.resFile
    if file.file.isEof then return { s with isEnd := true } else
    let (buffer0, read) ← file.file.read tupleNumPerStep s.disk
    return { s with resFile := some ⟨read, file.fd⟩, buffer0 := buffer0, currReadIdx := 0 }
  else some s

def call (limitNum : Int) : SortCall → FdSort α → Option (FdSort α)
  | .beginTuple, s => s.beginTuple limitNum
  | .nextTuple, s => s.nextTuple limitNum

/-- `res_file_` is destroyed with the executor. -/
def destroy (s : FdSort α) : TmpDisk α × FdTable :=
  match s.resFile with
  | some file => (s.disk.unlink file.file.fileName, s.fds)
  | none => (s.disk, s.fds)

/-- A query that makes a sort, uses it and destroys it. -/
def query (prev : Cursor σ α) (fuel : Nat) (limitNum : Int) (calls : List SortCall) (s : σ) (d : TmpDisk α)
    (t : FdTable) : Option (TmpDisk α × FdTable) := do
  let ex ← new env prev fuel s d t
  let ex ← calls.foldlM (fun ex c => call limitNum c ex) ex
  return ex.destroy

end FdSort

/-- After the query the descriptors are as before, each that was opened is closed once, and there is no file
that was not there before. -/
structure FilesReleased (inUse : Finset Nat) (d d' : TmpDisk α) (t : FdTable) : Prop where
  descriptors : t.Released inUse
  unlinked : ∀ name, (d'.files name).isSome → (d.files name).isSome

-- ---------------------------------------------------------------------------
-- Without the descriptors
-- ---------------------------------------------------------------------------

/-- Two computations that correspond, one after the other. -/
theorem map_bind_eq {β β' γ γ' : Type} {x : Option β} {y : Option β'} {f : β → Option γ} {g : β' → Option γ'}
    {e : β → β'} {e' : γ → γ'} (hx : x.map e = y) (hf : ∀ b, (f b).map e' = g (e b)) :
    (x >>= f).map e' = y >>= g := by
  subst hx
  cases x with
  | none => rfl
  | some b => exact hf b

theorem FdFile.openFile_erase (f : FdFile) (d : TmpDisk α) (t : FdTable) :
    (f.openFile d t).map (fun r => r.1.file) = f.file.openFile d := by
  unfold openFile
  cases f.file.openFile d <;> rfl

namespace FdEnv

variable (env : FdEnv α)

theorem writeTmpData_erase (buffer : List α) (d : TmpDisk α) (t : FdTable) :
    (env.writeTmpData buffer d t).map (fun r => (r.1.file, r.2.1)) = env.toSortEnv.writeTmpData buffer d := by
  refine map_bind_eq (FdFile.openFile_erase _ _ _) fun ⟨file, t⟩ => ?_
  refine map_bind_eq Option.map_id_apply fun ⟨written, d⟩ => ?_
  rfl

theorem mergeFiles_erase (fuel : Nat) (fir sec : FdFile) (d : TmpDisk α) (t : FdTable) :
    (env.mergeFiles fuel fir sec d t).map (fun r => (r.1.file, r.2.1)) =
      env.toSortEnv.mergeFiles fuel fir.file sec.file d := by
  refine map_bind_eq (FdFile.openFile_erase _ _ _) fun ⟨fir, t⟩ => ?_
  refine map_bind_eq (FdFile.openFile_erase _ _ _) fun ⟨sec, t⟩ => ?_
  refine map_bind_eq (FdFile.openFile_erase _ _ _) fun ⟨ret, t⟩ => ?_
  refine map_bind_eq Option.map_id_apply fun ⟨buffer0, firFile⟩ => ?_
  refine map_bind_eq Option.map_id_apply fun ⟨buffer1, secFile⟩ => ?_
  refine map_bind_eq Option.map_id_apply fun ⟨firIn, secIn, out, buffer2, d⟩ => ?_
  refine map_bind_eq Option.map_id_apply fun ⟨out, d⟩ => ?_
  refine map_bind_eq Option.map_id_apply fun ⟨firIn, out, d⟩ => ?_
  refine map_bind_eq Option.map_id_apply fun ⟨secIn, out, d⟩ => ?_
  rfl

theorem mergeTmpFiles_erase (fuel : Nat) (tmpFiles : List FdFile) (startIdx endIdx : Int) (d : TmpDisk α)
    (t : FdTable) : (env.mergeTmpFiles fuel tmpFiles startIdx endIdx d t).map
        (fun r => (r.1.map FdFile.file, r.2.1)) =
      env.toSortEnv.mergeTmpFiles fuel (tmpFiles.map FdFile.file) startIdx endIdx d := by
  fun_induction FdEnv.mergeTmpFiles with
  | case1 startIdx endIdx d t hgt =>
    rw [SortEnv.mergeTmpFiles, if_pos hgt]
    rfl
  | case2 startIdx d t hle =>
    rw [SortEnv.mergeTmpFiles, if_neg hle, if_pos rfl]
    exact map_bind_eq (by rw [List.getElem?_map]) fun file => rfl
  | case3 startIdx endIdx d t hle hne mid ihfir =>
    rename_i ihsec
    rw [SortEnv.mergeTmpFiles, if_neg hle, if_neg hne]
    refine map_bind_eq ihfir ?_
    rintro ⟨fir, d, t⟩
    refine map_bind_eq (ihsec d t) ?_
    rintro ⟨sec, d, t⟩
    refine map_bind_eq rfl fun fir => ?_
    refine map_bind_eq rfl fun sec => ?_
    exact map_bind_eq (env.mergeFiles_erase fuel fir sec d t) fun _ => rfl

theorem runLoop_erase (prev : Cursor σ α) (fuel : Nat) (s : σ) (tuples : List α) (tmpFiles : List FdFile)
    (d : TmpDisk α) (t : FdTable) : (env.runLoop prev fuel s tuples tmpFiles d t).map
        (fun r => (r.1, r.2.1.map FdFile.file, r.2.2.1)) =
      env.toSortEnv.runLoop prev fuel s tuples (tmpFiles.map FdFile.file) d := by
  induction fuel generalizing s tuples tmpFiles d t with
  | zero => rfl
  | succ fuel ih =>
    unfold FdEnv.runLoop SortEnv.runLoop
    split
    · rfl
    · dsimp only
      split
      · refine map_bind_eq (env.writeTmpData_erase _ d t) ?_
        rintro ⟨file, d, t⟩
        refine map_bind_eq Option.map_id_apply fun s => ?_
        rw [ih, List.map_append]
        rfl
      · exact map_bind_eq Option.map_id_apply fun s => ih _ _ _ _ _

theorem lastRun_erase (tuples : List α) (tmpFiles : List FdFile) (d : TmpDisk α) (t : FdTable) :
    (env.lastRun tuples tmpFiles d t).map (fun r => (r.1.map FdFile.file, r.2.1)) =
      env.toSortEnv.lastRun tuples (tmpFiles.map FdFile.file) d := by
  unfold FdEnv.lastRun SortEnv.lastRun
  split
  · rfl
  · refine map_bind_eq (env.writeTmpData_erase _ d t) fun ⟨file, d, t⟩ => ?_
    simp

end FdEnv

/-- The executor without its descriptors. -/
def FdSort.erase (s : FdSort α) : SortExecutor α :=
  ⟨s.resFile.map FdFile.file, s.buffer0, s.currReadIdx, s.isEnd, s.disk⟩

/-- Without its descriptors the constructor is the one of the external merge sort. -/
theorem FdSort.new_erase (env : FdEnv α) (prev : Cursor σ α) (fuel : Nat) (s : σ) (d : TmpDisk α) (t : FdTable) :
    (FdSort.new env prev fuel s d t).map FdSort.erase = SortExecutor.new env.toSortEnv prev fuel s d := by
  refine map_bind_eq Option.map_id_apply fun s => ?_
  refine map_bind_eq (env.runLoop_erase prev fuel s [] [] d t) fun ⟨tuples, tmpFiles, d, t⟩ => ?_
  refine map_bind_eq (env.lastRun_erase tuples tmpFiles d t) fun ⟨tmpFiles, d, t⟩ => ?_
  have hmerge := env.mergeTmpFiles_erase fuel tmpFiles 0 (tmpFiles.length - 1) d t
  conv_rhs at hmerge => rw [← List.length_map FdFile.file]
  refine map_bind_eq hmerge fun ⟨resFile, d, t⟩ => ?_
  rfl

-- ---------------------------------------------------------------------------
-- What is left open
-- ---------------------------------------------------------------------------

variable {env : FdEnv α} {d d' : TmpDisk α} {t t' : FdTable} {f f' : FdFile}

theorem FdFile.openFile_leaks (h : f.openFile d t = some (f', t')) :
    t.Leaks t' 1 ∧ f'.file.fileName = f.file.fileName := by
  obtain ⟨file, hopen, hrest⟩ := Option.bind_eq_some_iff.mp h
  cases hrest
  refine ⟨t.leaks_openFd, ?_⟩
  unfold TupleBufFile.openFile at hopen
  split at hopen
  · cases hopen
    rfl
  · cases hopen

namespace FdEnv

theorem newFile_leaks (env : FdEnv α) (d : TmpDisk α) (t : FdTable) : t.Leaks (env.newFile d t).2.2 0 :=
  t.leaks_open_close

theorem writeTmpData_leaks {buffer : List α} (h : env.writeTmpData buffer d t = some (f, d', t')) :
    t.Leaks t' 1 := by
  obtain ⟨⟨file, t₁⟩, hopen, h⟩ := Option.bind_eq_some_iff.mp h
  obtain ⟨⟨written, d₁⟩, -, h⟩ := Option.bind_eq_some_iff.mp h
  cases h
  rw [FdTable.closeFd_neg]
  exact (newFile_leaks env d t).trans (FdFile.openFile_leaks hopen).1

theorem mergeFiles_leaks {fuel : Nat} {fir sec : FdFile}
    (h : env.mergeFiles fuel fir sec d t = some (f, d', t')) : t.Leaks t' 3 := by
  obtain ⟨⟨fir₁, t₁⟩, hfir, h⟩ := Option.bind_eq_some_iff.mp h
  obtain ⟨⟨sec₁, t₂⟩, hsec, h⟩ := Option.bind_eq_some_iff.mp h
  obtain ⟨⟨ret₁, t₃⟩, hret, h⟩ := Option.bind_eq_some_iff.mp h
  obtain ⟨⟨buffer0, firFile⟩, -, h⟩ := Option.bind_eq_some_iff.mp h
  obtain ⟨⟨buffer1, secFile⟩, -, h⟩ := Option.bind_eq_some_iff.mp h
  obtain ⟨⟨firIn, secIn, out, buffer2, d₁⟩, -, h⟩ := Option.bind_eq_some_iff.mp h
  obtain ⟨⟨out₁, d₂⟩, -, h⟩ := Option.bind_eq_some_iff.mp h
  obtain ⟨⟨firIn₁, out₂, d₃⟩, -, h⟩ := Option.bind_eq_some_iff.mp h
  obtain ⟨⟨secIn₁, out₃, d₄⟩, -, h⟩ := Option.bind_eq_some_iff.mp h
  cases h
  simp only [FdTable.closeFd_neg]
  have hopened := (FdFile.openFile_leaks hfir).1.trans
    ((FdFile.openFile_leaks hsec).1.trans (FdFile.openFile_leaks hret).1)
  exact (newFile_leaks env d t).trans hopened

end FdEnv

-- ---------------------------------------------------------------------------
-- Which files there are
-- ---------------------------------------------------------------------------

/-- The same files, whatever is in them. -/
def SameNames (d d' : TmpDisk α) : Prop := ∀ name, (d'.files name).isSome = (d.files name).isSome

variable {file file' : TupleBufFile}

theorem SameNames.trans {d'' : TmpDisk α} (h : SameNames d d') (h' : SameNames d' d'') : SameNames d d'' :=
  fun name => (h' name).trans (h name)

/-- Only a file that is there is written. -/
theorem write_sameNames {buffer : List α} (h : file.write buffer d = some (file', d')) :
    SameNames d d' ∧ file'.fileName = file.fileName := by
  obtain ⟨offset, -, h⟩ := Option.bind_eq_some_iff.mp h
  obtain ⟨content, hcontent, h⟩ := Option.bind_eq_some_iff.mp h
  split at h
  · cases h
  · cases h
    refine ⟨fun name => ?_, rfl⟩
    by_cases hname : name = file.fileName
    · rw [hname, TmpDisk.files_set, hcontent]
      rfl
    · rw [TmpDisk.files_set_of_ne hname]

theorem read_fileName {n : Nat} {buf : List α} (h : file.read n d = some (buf, file')) :
    file'.fileName = file.fileName := by
  obtain ⟨offset, -, h⟩ := Option.bind_eq_some_iff.mp h
  obtain ⟨content, -, h⟩ := Option.bind_eq_some_iff.mp h
  dsimp only at h
  split at h
  · cases h
  · cases h
    rfl

theorem refill_fileName {inp inp' : MergeInput α} (h : inp.refill d = some (some inp')) :
    inp'.file.fileName = inp.file.fileName := by
  unfold MergeInput.refill at h
  split at h
  · split at h
    · cases h
    · obtain ⟨⟨buf, read⟩, hread, h⟩ := Option.bind_eq_some_iff.mp h
      cases h
      exact read_fileName hread
  · cases h
    rfl

theorem flush_sameNames {buffer2 : List α} (h : SortEnv.flush file buffer2 d = some (file', d')) :
    SameNames d d' ∧ file'.fileName = file.fileName := by
  unfold SortEnv.flush at h
  split at h
  · cases h
    exact ⟨fun _ => rfl, rfl⟩
  · exact write_sameNames h

theorem drainLoop_sameNames {fuel : Nat} {inp inp' : MergeInput α}
    (h : SortEnv.drainLoop fuel inp file d = some (inp', file', d')) :
    SameNames d d' ∧ inp'.file.fileName = inp.file.fileName ∧ file'.fileName = file.fileName := by
  induction fuel generalizing inp file d with
  | zero => cases h
  | succ fuel ih =>
    obtain ⟨next, hrefill, h⟩ := Option.bind_eq_some_iff.mp h
    cases next with
    | none =>
      cases h
      exact ⟨fun _ => rfl, rfl, rfl⟩
    | some inp₁ =>
      obtain ⟨⟨file₁, d₁⟩, hwrite, h⟩ := Option.bind_eq_some_iff.mp h
      obtain ⟨hsame, hname⟩ := write_sameNames hwrite
      obtain ⟨hsame', hinp, hfile⟩ := ih h
      have hinp' : inp'.file.fileName = inp₁.file.fileName := hinp
      exact ⟨hsame.trans hsame', hinp'.trans (refill_fileName hrefill), hfile.trans hname⟩

theorem mergeLoop_sameNames {env : SortEnv α} {fuel : Nat} {fir sec fir' sec' : MergeInput α}
    {buffer2 buffer2' : List α}
    (h : env.mergeLoop fuel fir sec file buffer2 d = some (fir', sec', file', buffer2', d')) :
    SameNames d d' ∧ fir'.file.fileName = fir.file.fileName ∧ sec'.file.fileName = sec.file.fileName ∧
      file'.fileName = file.fileName := by
  induction fuel generalizing fir sec file buffer2 d with
  | zero => cases h
  | succ fuel ih =>
    obtain ⟨next, hfir, h⟩ := Option.bind_eq_some_iff.mp h
    cases next with
    | none =>
      cases h
      exact ⟨fun _ => rfl, rfl, rfl, rfl⟩
    | some fir₁ =>
      obtain ⟨next, hsec, h⟩ := Option.bind_eq_some_iff.mp h
      cases next with
      | none =>
        cases h
        exact ⟨fun _ => rfl, refill_fileName hfir, rfl, rfl⟩
      | some sec₁ =>
        obtain ⟨a, -, h⟩ := Option.bind_eq_some_iff.mp h
        obtain ⟨b, -, h⟩ := Option.bind_eq_some_iff.mp h
        rw [← refill_fileName hfir, ← refill_fileName hsec]
        -- A full `buffer2` is written.
        have hturn : ∀ {fir₂ sec₂ : MergeInput α} {buf : List α}, fir₂.file = fir₁.file → sec₂.file = sec₁.file →
            (if buf.length = tupleNumPerStep then do
                let (file, d) ← file.write buf d
                env.mergeLoop fuel fir₂ sec₂ file [] d
              else env.mergeLoop fuel fir₂ sec₂ file buf d) = some (fir', sec', file', buffer2', d') →
            SameNames d d' ∧ fir'.file.fileName = fir₁.file.fileName ∧
              sec'.file.fileName = sec₁.file.fileName ∧ file'.fileName = file.fileName := by
          intro fir₂ sec₂ buf hfir₂ hsec₂ h
          rw [← hfir₂, ← hsec₂]
          split at h
          · obtain ⟨⟨file₁, d₁⟩, hwrite, h⟩ := Option.bind_eq_some_iff.mp h
            obtain ⟨hsame, hname⟩ := write_sameNames hwrite
            obtain ⟨hsame', hrest⟩ := ih h
            exact ⟨hsame.trans hsame', hrest.1, hrest.2.1, hrest.2.2.trans hname⟩
          · exact ih h
        cases hcmp : env.cmpRawData a b with
        | true =>
          rw [hcmp] at h
          exact @hturn fir₁.advance sec₁ (buffer2 ++ [a]) rfl rfl h
        | false =>
          rw [hcmp] at h
          exact @hturn fir₁ sec₁.advance (buffer2 ++ [b]) rfl rfl h

/-- A new file is there, and the others are as before. -/
theorem newFile_files (env : FdEnv α) (d : TmpDisk α) (t : FdTable) (name : String) :
    ((env.newFile d t).2.1.files name).isSome ↔
      (d.files name).isSome ∨ name = (env.newFile d t).1.file.fileName := by
  unfold FdEnv.newFile SortEnv.newFile TupleBufFile.new
  dsimp only
  split
  next hsome =>
    constructor
    · exact .inl
    · rintro (hname | rfl)
      · exact hname
      · exact hsome
  next =>
    by_cases hname : name = env.tmpName d.calls
    · subst hname
      simp
    · rw [TmpDisk.files_set_of_ne hname]
      simp [hname]

namespace FdEnv

theorem writeTmpData_files {buffer : List α} (h : env.writeTmpData buffer d t = some (f, d', t')) (name : String) :
    (d'.files name).isSome ↔ (d.files name).isSome ∨ name = f.file.fileName := by
  obtain ⟨⟨file, t₁⟩, hopen, h⟩ := Option.bind_eq_some_iff.mp h
  obtain ⟨⟨written, d₁⟩, hwrite, h⟩ := Option.bind_eq_some_iff.mp h
  cases h
  obtain ⟨hsame, hname⟩ := write_sameNames hwrite
  have hfile : written.fileName = (env.newFile d t).1.file.fileName := hname.trans (FdFile.openFile_leaks hopen).2
  rw [hsame name]
  refine (newFile_files env d t name).trans ?_
  rw [← hfile]
  rfl

theorem mergeFiles_files {fuel : Nat} {fir sec : FdFile}
    (h : env.mergeFiles fuel fir sec d t = some (f, d', t')) {name : String} (hname : (d'.files name).isSome) :
    name = f.file.fileName ∨
      (d.files name).isSome ∧ name ≠ fir.file.fileName ∧ name ≠ sec.file.fileName := by
  obtain ⟨⟨fir₁, t₁⟩, hfir, h⟩ := Option.bind_eq_some_iff.mp h
  obtain ⟨⟨sec₁, t₂⟩, hsec, h⟩ := Option.bind_eq_some_iff.mp h
  obtain ⟨⟨ret₁, t₃⟩, hret, h⟩ := Option.bind_eq_some_iff.mp h
  obtain ⟨⟨buffer0, firFile⟩, hread, h⟩ := Option.bind_eq_some_iff.mp h
  obtain ⟨⟨buffer1, secFile⟩, hread', h⟩ := Option.bind_eq_some_iff.mp h
  obtain ⟨⟨firIn, secIn, out, buffer2, d₁⟩, hloop, h⟩ := Option.bind_eq_some_iff.mp h
  obtain ⟨⟨out₁, d₂⟩, hflush, h⟩ := Option.bind_eq_some_iff.mp h
  obtain ⟨⟨firIn₁, out₂, d₃⟩, hdrain, h⟩ := Option.bind_eq_some_iff.mp h
  obtain ⟨⟨secIn₁, out₃, d₄⟩, hdrain', h⟩ := Option.bind_eq_some_iff.mp h
  cases h
  obtain ⟨hsame₁, hfir₁, hsec₁, hret₁⟩ := mergeLoop_sameNames hloop
  obtain ⟨hsame₂, hret₂⟩ := flush_sameNames hflush
  obtain ⟨hsame₃, hfir₃, hret₃⟩ := drainLoop_sameNames hdrain
  obtain ⟨hsame₄, hsec₄, hret₄⟩ := drainLoop_sameNames hdrain'
  have hsame := ((hsame₁.trans hsame₂).trans hsame₃).trans hsame₄
  have hfirName : firIn₁.file.fileName = fir.file.fileName := by
    rw [hfir₃, hfir₁, read_fileName hread, (FdFile.openFile_leaks hfir).2]
  have hsecName : secIn₁.file.fileName = sec.file.fileName := by
    rw [hsec₄, hsec₁, read_fileName hread', (FdFile.openFile_leaks hsec).2]
  have hretName : out₃.fileName = (env.newFile d t).1.file.fileName :=
    hret₄.trans (hret₃.trans (hret₂.trans (hret₁.trans (FdFile.openFile_leaks hret).2)))
  have hname : (((d₄.unlink secIn₁.file.fileName).unlink firIn₁.file.fileName).files name).isSome := hname
  have hremoved : name ≠ firIn₁.file.fileName ∧ name ≠ secIn₁.file.fileName ∧ (d₄.files name).isSome := by
    by_cases hfirst : name = firIn₁.file.fileName
    · rw [hfirst, TmpDisk.files_unlink] at hname
      cases hname
    · rw [TmpDisk.files_unlink_of_ne hfirst] at hname
      by_cases hsecond : name = secIn₁.file.fileName
      · rw [hsecond, TmpDisk.files_unlink] at hname
        cases hname
      · rw [TmpDisk.files_unlink_of_ne hsecond] at hname
        exact ⟨hfirst, hsecond, hname⟩
  rw [hfirName, hsecName, hsame name] at hremoved
  rcases (newFile_files env d t name).mp hremoved.2.2 with hold | hnew
  · exact .inr ⟨hold, hremoved.1, hremoved.2.1⟩
  · exact .inl (hnew.trans hretName.symm)

/-- One of the files from `startIdx` to `endIdx` has the name. -/
def NameIn (tmpFiles : List FdFile) (startIdx endIdx : Int) (name : String) : Prop :=
  ∃ (i : Nat) (f : FdFile), startIdx ≤ i ∧ i ≤ endIdx ∧ tmpFiles[i]? = some f ∧ f.file.fileName = name

/-- What merging the files of a range comes to: `k` files are merged by opening three files `k - 1` times, and
of all of them only the result is left. -/
structure MergesTo (tmpFiles : List FdFile) (startIdx endIdx : Int) (d d' : TmpDisk α) (t t' : FdTable)
    (r : Option FdFile) : Prop where
  leaks : t.Leaks t' (3 * (endIdx - startIdx).toNat)
  empty : r = none ↔ startIdx > endIdx
  files : ∀ name, (d'.files name).isSome → (∃ f, r = some f ∧ f.file.fileName = name) ∨
    (d.files name).isSome ∧ ¬ NameIn tmpFiles startIdx endIdx name

theorem mergeTmpFiles_mergesTo {fuel : Nat} {tmpFiles : List FdFile} {startIdx endIdx : Int} {r : Option FdFile}
    (hstart : 0 ≤ startIdx) (h : env.mergeTmpFiles fuel tmpFiles startIdx endIdx d t = some (r, d', t')) :
    MergesTo tmpFiles startIdx endIdx d d' t t' r := by
  fun_induction FdEnv.mergeTmpFiles generalizing r d' t' with
  | case1 startIdx endIdx d t hgt =>
    cases h
    have hzero : (endIdx - startIdx).toNat = 0 := by omega
    refine ⟨by rw [hzero]; exact .refl t, iff_of_true rfl hgt, fun name hname => .inr ⟨hname, ?_⟩⟩
    rintro ⟨i, f, hi, hi', -⟩
    omega
  | case2 startIdx d t hle =>
    obtain ⟨file, hfile, h⟩ := Option.bind_eq_some_iff.mp h
    cases h
    refine ⟨by rw [Int.sub_self]; exact .refl t, iff_of_false (fun h => nomatch h) hle, fun name hname => ?_⟩
    by_cases hown : file.file.fileName = name
    · exact .inl ⟨file, rfl, hown⟩
    · refine .inr ⟨hname, ?_⟩
      rintro ⟨i, f, hi, hi', hf, hfname⟩
      obtain rfl : i = startIdx.toNat := by omega
      rw [hfile] at hf
      cases hf
      exact hown hfname
  | case3 startIdx endIdx d t hle hne mid ihfir =>
    rename_i ihsec
    obtain ⟨⟨fir, d₁, t₁⟩, hfir, h⟩ := Option.bind_eq_some_iff.mp h
    obtain ⟨⟨sec, d₂, t₂⟩, hsec, h⟩ := Option.bind_eq_some_iff.mp h
    obtain ⟨fir', hfir', h⟩ := Option.bind_eq_some_iff.mp h
    obtain ⟨sec', hsec', h⟩ := Option.bind_eq_some_iff.mp h
    obtain ⟨⟨ret, d₃, t₃⟩, hmerge, h⟩ := Option.bind_eq_some_iff.mp h
    cases h
    have hmid : mid = (startIdx + endIdx) / 2 := Int.shiftRight_eq_div_pow _ 1
    have hleft := ihfir hstart hfir
    have hright := ihsec _ _ (by omega) hsec
    constructor
    case leaks =>
      have hall := hleft.leaks.trans (hright.leaks.trans (mergeFiles_leaks hmerge))
      have hcount : 3 * (mid - startIdx).toNat + (3 * (endIdx - (mid + 1)).toNat + 3) =
          3 * (endIdx - startIdx).toNat := by
        omega
      rwa [hcount] at hall
    case empty => exact iff_of_false (fun h => nomatch h) hle
    case files =>
      intro name hname
      rcases mergeFiles_files hmerge hname with hret | ⟨hold, hnotFir, hnotSec⟩
      · exact .inl ⟨_, rfl, hret.symm⟩
      · -- Neither of the two results has the name, so that it comes from before.
        have hold₁ := (hright.files name hold).resolve_left (by
          rintro ⟨f, hf, rfl⟩
          rw [hsec'] at hf
          cases hf
          exact hnotSec rfl)
        have hold₂ := (hleft.files name hold₁.1).resolve_left (by
          rintro ⟨f, hf, rfl⟩
          rw [hfir'] at hf
          cases hf
          exact hnotFir rfl)
        refine .inr ⟨hold₂.1, ?_⟩
        rintro ⟨i, f, hi, hi', hf⟩
        by_cases hmidle : (i : Int) ≤ mid
        · exact hold₂.2 ⟨i, f, hi, hmidle, hf⟩
        · exact hold₁.2 ⟨i, f, by omega, hi', hf⟩

-- ---------------------------------------------------------------------------
-- The constructor
-- ---------------------------------------------------------------------------

/-- What the runs that are written come to. -/
structure RunsTo (tmpFiles tmpFiles' : List FdFile) (d d' : TmpDisk α) (t t' : FdTable) : Prop where
  leaks : ∃ n, tmpFiles'.length = tmpFiles.length + n ∧ t.Leaks t' n
  files : ∀ name, (d'.files name).isSome → (d.files name).isSome ∨ ∃ f ∈ tmpFiles', f.file.fileName = name
  kept : ∀ f ∈ tmpFiles, f ∈ tmpFiles'

theorem RunsTo.refl (tmpFiles : List FdFile) (d : TmpDisk α) (t : FdTable) :
    RunsTo tmpFiles tmpFiles d d t t :=
  ⟨⟨0, rfl, .refl t⟩, fun _ h => .inl h, fun _ h => h⟩

theorem RunsTo.trans {files files' files'' : List FdFile} {d'' : TmpDisk α} {t'' : FdTable}
    (h : RunsTo files files' d d' t t') (h' : RunsTo files' files'' d' d'' t' t'') :
    RunsTo files files'' d d'' t t'' := by
  obtain ⟨m, hm, hleaks⟩ := h.leaks
  obtain ⟨n, hn, hleaks'⟩ := h'.leaks
  refine ⟨⟨m + n, by omega, hleaks.trans hleaks'⟩, fun name hname => ?_, fun f hf => h'.kept f (h.kept f hf)⟩
  rcases h'.files name hname with hold | hnew
  · rcases h.files name hold with hold | ⟨f, hf, rfl⟩
    · exact .inl hold
    · exact .inr ⟨f, h'.kept f hf, rfl⟩
  · exact .inr hnew

theorem writeTmpData_runsTo {buffer : List α} (h : env.writeTmpData buffer d t = some (f, d', t'))
    (tmpFiles : List FdFile) : RunsTo tmpFiles (tmpFiles ++ [f]) d d' t t' := by
  refine ⟨⟨1, List.length_append, writeTmpData_leaks h⟩, fun name hname => ?_, fun f hf => by simp [hf]⟩
  rcases (writeTmpData_files h name).mp hname with hold | rfl
  · exact .inl hold
  · exact .inr ⟨f, by simp, rfl⟩

variable {prev : Cursor σ α}

/-- The loop ends with a tuple or a file if it began with one or there is one to come. -/
theorem runLoop_runsTo {fuel : Nat} {s : σ} {tuples tuples' : List α} {tmpFiles tmpFiles' : List FdFile}
    (h : env.runLoop prev fuel s tuples tmpFiles d t = some (tuples', tmpFiles', d', t')) :
    RunsTo tmpFiles tmpFiles' d d' t t' ∧
      (tuples' = [] ∧ tmpFiles' = [] ↔ prev.isEnd s = true ∧ tuples = [] ∧ tmpFiles = []) := by
  induction fuel generalizing s tuples tmpFiles d t with
  | zero => cases h
  | succ fuel ih =>
    unfold FdEnv.runLoop at h
    by_cases hend : prev.isEnd s = true
    · rw [if_pos hend] at h
      cases h
      exact ⟨.refl _ _ _, by simp [hend]⟩
    · rw [if_neg hend] at h
      dsimp only at h
      have hnot : ¬ (prev.isEnd s = true ∧ tuples = [] ∧ tmpFiles = []) := fun hall => hend hall.1
      split at h
      · obtain ⟨⟨file, d₁, t₁⟩, hwrite, h⟩ := Option.bind_eq_some_iff.mp h
        obtain ⟨s', -, h⟩ := Option.bind_eq_some_iff.mp h
        obtain ⟨hruns, hempty⟩ := ih h
        refine ⟨(writeTmpData_runsTo hwrite tmpFiles).trans hruns, iff_of_false (fun hnil => ?_) hnot⟩
        exact absurd (hempty.mp hnil).2.2 (by simp)
      · obtain ⟨s', -, h⟩ := Option.bind_eq_some_iff.mp h
        obtain ⟨hruns, hempty⟩ := ih h
        refine ⟨hruns, iff_of_false (fun hnil => ?_) hnot⟩
        exact absurd (hempty.mp hnil).2.1 (by simp)

theorem lastRun_runsTo {tuples : List α} {tmpFiles tmpFiles' : List FdFile}
    (h : env.lastRun tuples tmpFiles d t = some (tmpFiles', d', t')) :
    RunsTo tmpFiles tmpFiles' d d' t t' ∧ (tmpFiles' = [] ↔ tuples = [] ∧ tmpFiles = []) := by
  unfold FdEnv.lastRun at h
  cases tuples with
  | nil =>
    cases h
    exact ⟨.refl _ _ _, by simp⟩
  | cons a tuples =>
    obtain ⟨⟨file, d₁, t₁⟩, hwrite, h⟩ := Option.bind_eq_some_iff.mp h
    cases h
    exact ⟨writeTmpData_runsTo hwrite tmpFiles, by simp⟩

end FdEnv

namespace FdSort

/-- Where an executor is after the constructor and some calls: whether there is a file, how many descriptors
are left open, and which files there are besides the one of the executor. -/
structure Since (inUse : Finset Nat) (d : TmpDisk α) (empty : Prop) (ex : FdSort α) : Prop where
  file : ex.resFile = none ↔ empty
  leaks : ∃ n, (FdTable.start inUse).Leaks ex.fds n ∧ (n = 0 ↔ empty)
  files : ∀ name, (ex.disk.files name).isSome → (d.files name).isSome ∨
    ∃ f, ex.resFile = some f ∧ f.file.fileName = name

variable {prev : Cursor σ α} {inUse : Finset Nat} {ex ex' : FdSort α} {empty : Prop} {limitNum : Int}

theorem new_since {fuel : Nat} {s : σ} (h : new env prev fuel s d (.start inUse) = some ex) :
    ∃ s', prev.begin s = some s' ∧ Since inUse d (prev.isEnd s' = true) ex := by
  obtain ⟨s', hbegin, h⟩ := Option.bind_eq_some_iff.mp h
  obtain ⟨⟨tuples, tmpFiles, d₁, t₁⟩, hloop, h⟩ := Option.bind_eq_some_iff.mp h
  obtain ⟨⟨tmpFiles', d₂, t₂⟩, hlast, h⟩ := Option.bind_eq_some_iff.mp h
  obtain ⟨⟨resFile, d₃, t₃⟩, hmerge, h⟩ := Option.bind_eq_some_iff.mp h
  cases h
  obtain ⟨hruns, hempty⟩ := FdEnv.runLoop_runsTo hloop
  obtain ⟨hruns', hempty'⟩ := FdEnv.lastRun_runsTo hlast
  have hmerges := FdEnv.mergeTmpFiles_mergesTo (Int.le_refl 0) hmerge
  have hall := hruns.trans hruns'
  have hnil : tmpFiles' = [] ↔ prev.isEnd s' = true := by
    rw [hempty', hempty]
    simp
  refine ⟨s', hbegin, ?_, ?_, ?_⟩
  · rw [hmerges.empty, ← hnil, ← List.length_eq_zero_iff]
    omega
  · obtain ⟨n, hn, hleaks⟩ := hall.leaks
    refine ⟨_, hleaks.trans hmerges.leaks, ?_⟩
    rw [List.length_nil] at hn
    rw [← hnil, ← List.length_eq_zero_iff]
    omega
  · intro name hname
    rcases hmerges.files name hname with hres | ⟨hold, hnot⟩
    · exact .inr hres
    · refine (hall.files name hold).imp_right ?_
      -- The name of a run is the name of a file that was merged.
      rintro ⟨f, hf, hfname⟩
      obtain ⟨i, hi, hget⟩ := List.getElem_of_mem hf
      refine absurd ⟨i, f, by omega, by omega, ?_, hfname⟩ hnot
      rw [List.getElem?_eq_getElem hi, hget]

theorem beginTuple_since (hs : Since inUse d empty ex) (h : ex.beginTuple limitNum = some ex') :
    Since inUse d empty ex' := by
  unfold beginTuple at h
  dsimp only at h
  split at h
  next hnone =>
    cases h
    exact ⟨hs.file, hs.leaks, hs.files⟩
  next file hfile =>
    split at h
    · cases h
      exact ⟨hs.file, hs.leaks, hs.files⟩
    · have hclosed : ∃ f, (if file.isOpened then file.close ex.fds else (file, ex.fds)) = (f, ex.fds) ∧
          f.file.fileName = file.file.fileName := by
        split
        · refine ⟨⟨file.file.close, -1⟩, ?_, rfl⟩
          rw [FdFile.close, FdTable.closeFd_neg]
        · exact ⟨file, rfl, rfl⟩
      obtain ⟨f, hf, hname⟩ := hclosed
      rw [hf] at h
      obtain ⟨⟨f₁, t₁⟩, hopen, h⟩ := Option.bind_eq_some_iff.mp h
      obtain ⟨⟨buf, read⟩, hread, h⟩ := Option.bind_eq_some_iff.mp h
      cases h
      obtain ⟨hleak, hname₁⟩ := FdFile.openFile_leaks hopen
      obtain ⟨n, hleaks, hn⟩ := hs.leaks
      have hnot : ¬ empty := fun he => by
        rw [hs.file.mpr he] at hfile
        cases hfile
      refine ⟨iff_of_false (fun h => nomatch h) hnot, ⟨n + 1, hleaks.trans hleak, ?_⟩, fun name hex => ?_⟩
      · exact iff_of_false (Nat.succ_ne_zero n) hnot
      · refine (hs.files name hex).imp_right ?_
        rintro ⟨g, hg, rfl⟩
        cases hfile.symm.trans hg
        exact ⟨_, rfl, (read_fileName hread).trans (hname₁.trans hname)⟩

theorem nextTuple_since (hs : Since inUse d empty ex) (h : ex.nextTuple limitNum = some ex') :
    Since inUse d empty ex' := by
  unfold nextTuple at h
  dsimp only at h
  split at h
  · cases h
    exact ⟨hs.file, hs.leaks, hs.files⟩
  · split at h
    · obtain ⟨file, hfile, h⟩ := Option.bind_eq_some_iff.mp h
      split at h
      · cases h
        exact ⟨hs.file, hs.leaks, hs.files⟩
      · obtain ⟨⟨buf, read⟩, hread, h⟩ := Option.bind_eq_some_iff.mp h
        cases h
        have hnot : ¬ empty := fun he => by
          rw [hs.file.mpr he] at hfile
          cases hfile
        refine ⟨iff_of_false (fun h => nomatch h) hnot, hs.leaks, fun name hex => ?_⟩
        refine (hs.files name hex).imp_right ?_
        rintro ⟨g, hg, rfl⟩
        cases hfile.symm.trans hg
        exact ⟨_, rfl, read_fileName hread⟩
    · cases h
      exact ⟨hs.file, hs.leaks, hs.files⟩

/-- However the executor is used, it stays so. -/
theorem calls_since {calls : List SortCall} (hs : Since inUse d empty ex)
    (h : calls.foldlM (fun ex c => call limitNum c ex) ex = some ex') : Since inUse d empty ex' := by
  induction calls generalizing ex with
  | nil =>
    cases h
    exact hs
  | cons c calls ih =>
    rw [List.foldlM_cons] at h
    obtain ⟨ex₁, hcall, hrest⟩ := Option.bind_eq_some_iff.mp h
    cases c with
    | beginTuple => exact ih (beginTuple_since hs hcall) hrest
    | nextTuple => exact ih (nextTuple_since hs hcall) hrest

theorem destroy_fds (ex : FdSort α) : ex.destroy.2 = ex.fds := by
  unfold destroy
  split <;> rfl

/-- With the last file no temporary file is left. -/
theorem Since.unlinked (hs : Since inUse d empty ex) {name : String} (hname : (ex.destroy.1.files name).isSome) :
    (d.files name).isSome := by
  unfold destroy at hname
  split at hname
  next file hfile =>
    have hne : name ≠ file.file.fileName := by
      rintro rfl
      rw [TmpDisk.files_unlink] at hname
      cases hname
    rw [TmpDisk.files_unlink_of_ne hne] at hname
    refine (hs.files name hname).resolve_right ?_
    rintro ⟨f, hf, rfl⟩
    cases hfile.symm.trans hf
    exact hne rfl
  next hnone =>
    refine (hs.files name hname).resolve_right ?_
    rintro ⟨f, hf, -⟩
    cases hnone.symm.trans hf

theorem Since.destroy (hs : Since inUse d empty ex) :
    FilesReleased inUse d ex.destroy.1 ex.destroy.2 ↔ empty := by
  obtain ⟨n, hleaks, hn⟩ := hs.leaks
  rw [destroy_fds]
  constructor
  · intro hreleased
    exact hn.mp (hleaks.released_iff.mp hreleased.descriptors)
  · intro he
    exact ⟨hleaks.released_iff.mpr (hn.mpr he), fun _ => hs.unlinked⟩

theorem query_since {fuel : Nat} {calls : List SortCall} {s : σ} {t' : FdTable}
    (h : query env prev fuel limitNum calls s d (.start inUse) = some (d', t')) :
    ∃ s' ex, prev.begin s = some s' ∧ Since inUse d (prev.isEnd s' = true) ex ∧ ex.destroy = (d', t') := by
  obtain ⟨ex, hnew, h⟩ := Option.bind_eq_some_iff.mp h
  obtain ⟨ex', hcalls, h⟩ := Option.bind_eq_some_iff.mp h
  obtain ⟨s', hbegin, hs⟩ := new_since hnew
  exact ⟨s', ex', hbegin, calls_since hs hcalls, Option.some.inj h⟩

end FdSort

variable {env : FdEnv α} {prev : Cursor σ α} {fuel : Nat} {limitNum : Int} {calls : List SortCall} {s : σ}
  {inUse : Finset Nat}

/-- The temporary files are gone after a query, whatever the child gives. -/
theorem sort_unlinks (h : FdSort.query env prev fuel limitNum calls s d (.start inUse) = some (d', t'))
    {name : String} (hname : (d'.files name).isSome) : (d.files name).isSome := by
  obtain ⟨s', ex, -, hs, hdestroy⟩ := FdSort.query_since h
  apply hs.unlinked
  rw [hdestroy]
  exact hname

/-- A query with a sort releases its files exactly when the child has no tuple. -/
theorem sort_releases_iff (h : FdSort.query env prev fuel limitNum calls s d (.start inUse) = some (d', t')) :
    FilesReleased inUse d d' t' ↔ ∃ s', prev.begin s = some s' ∧ prev.isEnd s' = true := by
  obtain ⟨s', ex, hbegin, hs, hdestroy⟩ := FdSort.query_since h
  have hiff := hs.destroy
  rw [hdestroy] at hiff
  rw [hiff, hbegin]
  simp

/-- On a child with these tuples the constructor comes to its end, with enough fuel. -/
theorem fdSort_new_returns (h : env.toSortEnv.Ok) {xs : List α} (hs : prev.Runs s xs)
    (hfree : ∀ n, d.files (env.tmpName n) = none) (hfuel : xs.length < fuel) (t : FdTable) :
    ∃ ex, FdSort.new env prev fuel s d t = some ex := by
  obtain ⟨ex, out, hnew, -⟩ := SortExecutor.new_spec h hs hfree hfuel
  rw [← FdSort.new_erase env prev fuel s d t] at hnew
  obtain ⟨ex', hex', -⟩ := Option.map_eq_some_iff.mp hnew
  exact ⟨ex', hex'⟩

/-- Without tuples there is no file to merge. -/
theorem query_empty : FdSort.query ⟨natSort, 0⟩ (listCursor []) 1 (-1) [.beginTuple] [] ⟨fun _ => none, 0⟩ (.start ∅) =
    some (⟨fun _ => none, 0⟩, .start ∅) := by
  have hmerge : FdEnv.mergeTmpFiles (⟨natSort, 0⟩ : FdEnv Nat) 1 [] 0 (([] : List FdFile).length - 1)
      ⟨fun _ => none, 0⟩ (.start ∅) = some (none, ⟨fun _ => none, 0⟩, .start ∅) := by
    rw [FdEnv.mergeTmpFiles]
    rfl
  have hnew : FdSort.new ⟨natSort, 0⟩ (listCursor []) 1 [] ⟨fun _ => none, 0⟩ (.start ∅) =
      some ⟨none, [], 0, false, ⟨fun _ => none, 0⟩, .start ∅⟩ := by
    change Option.bind (FdEnv.mergeTmpFiles (⟨natSort, 0⟩ : FdEnv Nat) 1 [] 0 (([] : List FdFile).length - 1)
      ⟨fun _ => none, 0⟩ (.start ∅)) _ = _
    rw [hmerge]
    rfl
  unfold FdSort.query
  rw [hnew]
  rfl

theorem sort_releases_empty : FilesReleased ∅ (⟨fun _ => none, 0⟩ : TmpDisk Nat) ⟨fun _ => none, 0⟩ (.start ∅) ↔
    ∃ s', (listCursor ([] : List Nat)).begin [] = some s' ∧ (listCursor ([] : List Nat)).isEnd s' = true :=
  sort_releases_iff query_empty

/-- One tuple is one run, and its descriptor is still open when the executor is gone. -/
theorem sort_not_released : ∃ d' t', FdSort.query ⟨natSort, 0⟩ (listCursor [7]) 2 (-1) [] [] ⟨fun _ => none, 0⟩
      (.start ∅) = some (d', t') ∧ ¬ FilesReleased ∅ ⟨fun _ => none, 0⟩ d' t' := by
  obtain ⟨ex, hnew⟩ := @fdSort_new_returns _ _ ⟨fun _ => none, 0⟩ ⟨natSort, 0⟩ (listCursor [7]) 2 [] natSort_ok [7]
    (listCursor_runs _ _) (fun _ => rfl) (by decide) (.start ∅)
  obtain ⟨s', hbegin, hs⟩ := FdSort.new_since hnew
  refine ⟨ex.destroy.1, ex.destroy.2, ?_, fun hreleased => ?_⟩
  · unfold FdSort.query
    rw [hnew]
    rfl
  · have hend := hs.destroy.mp hreleased
    cases hbegin
    cases hend

end Rmdb
