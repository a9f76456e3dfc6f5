-- SUMMARY: `SortExecutor`: sorted runs in temporary files, merged with three buffers.
import Rmdb.Lib.Cursor
import Rmdb.Lib.WeakOrder

/-!
# External merge sort

The constructor of `SortExecutor` takes the tuples of its child, sorts every 2000 of them and
writes them to a temporary file, and merges the files two by two. `beginTuple` and `nextTuple`
read the file that is left.

The model is over any type of tuples with the two comparators. A file holds tuples: it is only
written and read in blocks of whole tuples. A buffer is the list of the tuples in it, so its count
(`tuple_num_in_buf0_`) is the length. An assertion that fails, and an access that the source does
not allow, is `none`; so is a loop that is cut off after `fuel` rounds.
-/

namespace Rmdb

variable {α σ : Type}

-- ---------------------------------------------------------------------------
-- Temporary files
-- ---------------------------------------------------------------------------

/-- The files by their names, and how often the clock has been read. -/
structure TmpDisk (α : Type) where
  files : String → Option (List α)
  calls : Nat

namespace TmpDisk

def set (d : TmpDisk α) (name : String) (content : List α) : TmpDisk α :=
  { d with files := Function.update d.files name (some content) }

/-- `::unlink`. -/
def unlink (d : TmpDisk α) (name : String) : TmpDisk α :=
  { d with files := Function.update d.files name none }

end TmpDisk

/-- `fd` is the offset of the open file, and nothing when `fd_` is -1. -/
structure TupleBufFile where
  fileName : String
  fd : Option Nat
  totReadTupleNum : Nat
  totWriteTupleNum : Nat

namespace TupleBufFile

/-- The constructor, which makes an empty file if there is none of that name. -/
def new (fileName : String) (d : TmpDisk α) : TupleBufFile × TmpDisk α :=
  (⟨fileName, none, 0, 0⟩, if (d.files fileName).isSome then d else d.set fileName [])

/-- `open`. -/
def openFile (f : TupleBufFile) (d : TmpDisk α) : Option TupleBufFile :=
  if (d.files f.fileName).isSome then some { f with fd := some 0 } else none

def write (f : TupleBufFile) (buffer : List α) (d : TmpDisk α) : Option (TupleBufFile × TmpDisk α) := do
  let offset ← f.fd
  let content ← d.files f.fileName
  if buffer.isEmpty then none else
  return ({ f with
      fd := some (offset + buffer.length), totWriteTupleNum := f.totWriteTupleNum + buffer.length },
    d.set f.fileName (content.take offset ++ buffer ++ content.drop (offset + buffer.length)))

def read (f : TupleBufFile) (maxReadTupleNum : Nat) (d : TmpDisk α) : Option (List α × TupleBufFile) := do
  let offset ← f.fd
  let content ← d.files f.fileName
  let buf := (content.drop offset).take maxReadTupleNum
  if buf.isEmpty then none else
  return (buf, { f with
    fd := some (offset + buf.length), totReadTupleNum := f.totReadTupleNum + buf.length })

/-- `tot_write_tuple_num` stays as it is. -/
def close (f : TupleBufFile) : TupleBufFile := { f with totReadTupleNum := 0, fd := none }

def isEof (f : TupleBufFile) : Bool := f.totWriteTupleNum == f.totReadTupleNum

def isOpened (f : TupleBufFile) : Bool := f.fd.isSome

end TupleBufFile

-- ---------------------------------------------------------------------------
-- Merging
-- ---------------------------------------------------------------------------

/-- `std::sort`, which only promises something for strict weak orders. -/
structure StdSort (α : Type) where
  sort : (α → α → Bool) → List α → List α
  perm : ∀ lt, IsStrictWeakOrder α (fun a b => lt a b = true) → ∀ l, (sort lt l).Perm l
  sorted : ∀ lt, IsStrictWeakOrder α (fun a b => lt a b = true) → ∀ l,
    (sort lt l).Pairwise fun a b => lt b a = false

/-- What a `SortExecutor` is given, and the parts of the library that it uses: the time as a text,
read for the n-th time, and the sort. -/
structure SortEnv (α : Type) where
  cmpRecord : α → α → Bool
  cmpRawData : α → α → Bool
  getTime : Nat → String
  stdSort : StdSort α

/-- `tuple_num_per_step`. -/
def tupleNumPerStep : Nat := 2000

/-- A file that is read, the buffer in front of it, and the index of the next tuple. -/
structure MergeInput (α : Type) where
  file : TupleBufFile
  buf : List α
  idx : Nat

namespace MergeInput

/-- `None` at the end of the file. -/
def refill (inp : MergeInput α) (d : TmpDisk α) : Option (Option (MergeInput α)) :=
  if inp.idx = inp.buf.length then
    if inp.file.isEof then some none else do
      let (buf, file) ← inp.file.read tupleNumPerStep d
      return some ⟨file, buf, 0⟩
  else some (some inp)

def advance (inp : MergeInput α) : MergeInput α := { inp with idx := inp.idx + 1 }

end MergeInput

namespace SortEnv

variable (env : SortEnv α)

/-- The name of a temporary file that is made after the clock has been read `n` times. -/
def tmpName (n : Nat) : String := "sort.tmp" ++ env.getTime n

def newFile (d : TmpDisk α) : TupleBufFile × TmpDisk α :=
  TupleBufFile.new (env.tmpName d.calls) { d with calls := d.calls + 1 }

def writeTmpData (buffer : List α) (d : TmpDisk α) : Option (TupleBufFile × TmpDisk α) := do
  let (file, d) := env.newFile d
  let file ← file.openFile d
  let (file, d) ← file.write buffer d
  return (file.close, d)

/-- The first loop of `mergeTmpFiles`; `buffer2` holds what is not written yet. -/
def mergeLoop : Nat → MergeInput α → MergeInput α → TupleBufFile → List α → TmpDisk α →
    Option (MergeInput α × MergeInput α × TupleBufFile × List α × TmpDisk α)
  | 0, _, _, _, _, _ => none
  | fuel + 1, fir, sec, ret, buffer2, d => do
    match ← fir.refill d with
    | none => return (fir, sec, ret, buffer2, d)
    | some fir =>
      match ← sec.refill d with
      | none => return (fir, sec, ret, buffer2, d)
      | some sec =>
        let a ← fir.buf[fir.idx]?
        let b ← sec.buf[sec.idx]?
        let (fir, sec, buffer2) := if env.cmpRawData a b then (fir.advance, sec, buffer2 ++ [a])
          else (fir, sec.advance, buffer2 ++ [b])
        if buffer2.length = tupleNumPerStep then
          let (ret, d) ← ret.write buffer2 d
          mergeLoop fuel fir sec ret [] d
        else mergeLoop fuel fir sec ret buffer2 d

/-- The write after the first loop. -/
def flush (ret : TupleBufFile) (buffer2 : List α) (d : TmpDisk α) : Option (TupleBufFile × TmpDisk α) :=
  if buffer2.isEmpty then some (ret, d) else ret.write buffer2 d

/-- The loops that copy what is left of one side. -/
def drainLoop : Nat → MergeInput α → TupleBufFile → TmpDisk α →
    Option (MergeInput α × TupleBufFile × TmpDisk α)
  | 0, _, _, _ => none
  | fuel + 1, inp, ret, d => do
    match ← inp.refill d with
    | none => return (inp, ret, d)
    | some inp =>
      let (ret, d) ← ret.write (inp.buf.drop inp.idx) d
      drainLoop fuel { inp with idx := inp.buf.length } ret d

/-- The part of `mergeTmpFiles` that merges two files into a new one. The two files are removed when
it returns. -/
def mergeFiles (fuel : Nat) (fir sec : TupleBufFile) (d : TmpDisk α) :
    Option (TupleBufFile × TmpDisk α) := do
  let (ret, d) := env.newFile d
  let fir ← fir.openFile d
  let sec ← sec.openFile d
  let ret ← ret.openFile d
  let (buffer0, fir) ← fir.read tupleNumPerStep d
  let (buffer1, sec) ← sec.read tupleNumPerStep d
  let (fir, sec, ret, buffer2, d) ←
    mergeLoop env fuel ⟨fir, buffer0, 0⟩ ⟨sec, buffer1, 0⟩ ret [] d
  let (ret, d) ← flush ret buffer2 d
  let (fir, ret, d) ← drainLoop fuel fir ret d
  let (sec, ret, d) ← drainLoop fuel sec ret d
  return (ret.close, (d.unlink sec.file.fileName).unlink fir.file.fileName)

/-- `mergeTmpFiles`; the null pointer is `none`. -/
def mergeTmpFiles (fuel : Nat) (tmpFiles : List TupleBufFile) (startIdx endIdx : Int)
    (d : TmpDisk α) : Option (Option TupleBufFile × TmpDisk α) :=
  if startIdx > endIdx then some (none, d)
  else if startIdx = endIdx then do
    let file ← tmpFiles[startIdx.toNat]?
    return (some file, d)
  else do
    let mid := (startIdx + endIdx) >>> (1 : Nat)
    let (fir, d) ← mergeTmpFiles fuel tmpFiles startIdx mid d
    let (sec, d) ← mergeTmpFiles fuel tmpFiles (mid + 1) endIdx d
    let (ret, d) ← mergeFiles env fuel (← fir) (← sec) d
    return (some ret, d)
  termination_by (endIdx - startIdx).toNat
  decreasing_by
    all_goals simp only [Int.shiftRight_eq_div_pow]
    all_goals omega

-- ---------------------------------------------------------------------------
-- The executor
-- ---------------------------------------------------------------------------

/-- The loop of the constructor over the tuples of the child. -/
def runLoop (prev : Cursor σ α) : Nat → σ → List α → List TupleBufFile → TmpDisk α →
    Option (List α × List TupleBufFile × TmpDisk α)
  | 0, _, _, _, _ => none
  | fuel + 1, s, tuples, tmpFiles, d =>
    if prev.isEnd s then some (tuples, tmpFiles, d) else do
      let tuples := tuples ++ [prev.current s]
      if tuples.length = tupleNumPerStep then
        let (file, d) ← env.writeTmpData (env.stdSort.sort env.cmpRecord tuples) d
        let s ← prev.next s
        runLoop prev fuel s [] (tmpFiles ++ [file]) d
      else
        let s ← prev.next s
        runLoop prev fuel s tuples tmpFiles d

/-- The tuples that are left after the loop. -/
def lastRun (tuples : List α) (tmpFiles : List TupleBufFile) (d : TmpDisk α) :
    Option (List TupleBufFile × TmpDisk α) :=
  if tuples.isEmpty then some (tmpFiles, d) else do
    let (file, d) ← env.writeTmpData (env.stdSort.sort env.cmpRecord tuples) d
    return (tmpFiles ++ [file], d)

end SortEnv

/-- The members of `SortExecutor` that change, with the files. -/
structure SortExecutor (α : Type) where
  resFile : Option TupleBufFile
  buffer0 : List α
  currReadIdx : Nat
  isEnd : Bool
  disk : TmpDisk α

namespace SortExecutor

variable (env : SortEnv α)

/-- The constructor. -/
def new (prev : Cursor σ α) (fuel : Nat) (s : σ) (d : TmpDisk α) : Option (SortExecutor α) := do
  let s ← prev.begin s
  let (tuples, tmpFiles, d) ← env.runLoop prev fuel s [] [] d
  let (tmpFiles, d) ← env.lastRun tuples tmpFiles d
  let (resFile, d) ← env.mergeTmpFiles fuel tmpFiles 0 (tmpFiles.length - 1) d
  return ⟨resFile, [], 0, false, d⟩

/-- `is_end_` is not cleared. -/
def beginTuple (limitNum : Int) (s : SortExecutor α) : Option (SortExecutor α) :=
  let s := { s with currReadIdx := 0 }
  match s.resFile with
  | none => some { s with isEnd := true }
  | some file =>
    if limitNum = 0 then some { s with isEnd := true } else do
      let file := if file.isOpened then file.close else file
      let file ← file.openFile s.disk
      let (buffer0, file) ← file.read tupleNumPerStep s.disk
      return { s with resFile := some file, buffer0 := buffer0 }

def nextTuple (limitNum : Int) (s : SortExecutor α) : Option (SortExecutor α) :=
  let s := { s with currReadIdx := s.currReadIdx + 1 }
  if limitNum > 0 ∧ s.currReadIdx = limitNum then some { s with isEnd := true }
  else if s.currReadIdx = s.buffer0.length then do
    let file ← s.resFile
    if file.isEof then return { s with isEnd := true } else
    let (buffer0, file) ← file.read tupleNumPerStep s.disk
    return { s with resFile := some file, buffer0 := buffer0, currReadIdx := 0 }
  else some s

def cursor [Inhabited α] (limitNum : Int) : Cursor (SortExecutor α) α where
  begin := beginTuple limitNum
  next := nextTuple limitNum
  isEnd := SortExecutor.isEnd
  current s := s.buffer0.getD s.currReadIdx default

end SortExecutor

end Rmdb
