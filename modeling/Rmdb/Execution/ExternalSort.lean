-- SUMMARY: The external merge sort yields the tuples of its child, sorted.
import Rmdb.Execution.SortExecutor

/-!
# The external merge sort sorts

A temporary file that is written and closed is `Spooled`; while it is read, `Reading` says what is
still to come from its buffer and from the file. Merging two files merges what they hold, and by
induction over the range of files `mergeTmpFiles` leaves one file with all the tuples in order.
-/

namespace Rmdb

variable {α σ : Type} {d : TmpDisk α} {f : TupleBufFile} {name other : String} {l more : List α}

-- ---------------------------------------------------------------------------
-- Files
-- ---------------------------------------------------------------------------

namespace TmpDisk

@[simp] theorem files_set : (d.set name l).files name = some l := by
  simp [set]

@[simp] theorem files_set_of_ne (h : other ≠ name) : (d.set name l).files other = d.files other := by
  simp [set, h]

@[simp] theorem files_unlink : (d.unlink name).files name = none := by
  simp [unlink]

@[simp] theorem files_unlink_of_ne (h : other ≠ name) : (d.unlink name).files other = d.files other := by
  simp [unlink, h]

@[simp] theorem calls_set : (d.set name l).calls = d.calls := rfl

@[simp] theorem calls_unlink : (d.unlink name).calls = d.calls := rfl

@[simp] theorem set_set (l' : List α) : (d.set name l).set name l' = d.set name l' := by
  simp [set]

theorem set_self (h : d.files name = some l) : d.set name l = d := by
  simp [set, ← h]

end TmpDisk

/-- A file that is written and closed. -/
structure Spooled (d : TmpDisk α) (f : TupleBufFile) (l : List α) : Prop where
  content : d.files f.fileName = some l
  written : f.totWriteTupleNum = l.length
  unread : f.totReadTupleNum = 0

/-- An open file that is read up to the end of `done`. -/
structure FileAt (d : TmpDisk α) (name : String) (f : TupleBufFile) (done more : List α) : Prop where
  named : f.fileName = name
  content : d.files name = some (done ++ more)
  offset : f.fd = some done.length
  read : f.totReadTupleNum = done.length
  written : f.totWriteTupleNum = (done ++ more).length

/-- A file that is open to be written. -/
structure Writing (d : TmpDisk α) (name : String) (f : TupleBufFile) (out : List α) : Prop where
  named : f.fileName = name
  content : d.files name = some out
  offset : f.fd = some out.length
  unread : f.totReadTupleNum = 0
  written : f.totWriteTupleNum = out.length

/-- A file that is read, with `rest` still to come from its buffer and from the file. -/
structure Reading (d : TmpDisk α) (name : String) (inp : MergeInput α) (rest : List α) : Prop where
  idx : inp.idx ≤ inp.buf.length
  file : ∃ done more, FileAt d name inp.file done more ∧ rest = inp.buf.drop inp.idx ++ more

theorem Spooled.openFile (h : Spooled d f l) :
    ∃ f', f.openFile d = some f' ∧ FileAt d f.fileName f' [] l := by
  refine ⟨{ f with fd := some 0 }, ?_, rfl, h.content, rfl, h.unread, h.written⟩
  simp [TupleBufFile.openFile, h.content]

/-- Only the content of the file itself counts. -/
theorem Spooled.of_files {d' : TmpDisk α} (h : Spooled d f l) (heq : d'.files f.fileName = d.files f.fileName) :
    Spooled d' f l := ⟨heq.trans h.content, h.written, h.unread⟩

theorem FileAt.isEof {done : List α} (h : FileAt d name f done more) : f.isEof = true ↔ more = [] := by
  simp [TupleBufFile.isEof, h.read, h.written]

theorem FileAt.readBlock {done : List α} (h : FileAt d name f done more) (hmore : more ≠ []) :
    ∃ f', f.read tupleNumPerStep d = some (more.take tupleNumPerStep, f') ∧
      FileAt d name f' (done ++ more.take tupleNumPerStep) (more.drop tupleNumPerStep) := by
  refine ⟨{ f with
    fd := some (done.length + (more.take tupleNumPerStep).length),
    totReadTupleNum := f.totReadTupleNum + (more.take tupleNumPerStep).length }, ?_, ?_⟩
  · have hne : (more.take tupleNumPerStep).isEmpty = false := by
      simp [hmore, tupleNumPerStep]
    simp only [TupleBufFile.read, h.offset, h.named, h.content, Option.bind_eq_bind, Option.bind_some,
      List.drop_left, hne, Bool.false_eq_true, if_false]
    rfl
  · constructor <;> simp [h.named, h.content, h.read, h.written]

theorem FileAt.first (h : FileAt d name f [] l) (hl : l ≠ []) :
    ∃ f', f.read tupleNumPerStep d = some (l.take tupleNumPerStep, f') ∧
      Reading d name ⟨f', l.take tupleNumPerStep, 0⟩ l := by
  obtain ⟨f', hread, hat⟩ := h.readBlock hl
  exact ⟨f', hread, Nat.zero_le _, _, _, hat, by simp⟩

theorem Writing.write {out : List α} (h : Writing d name f out) (hl : l ≠ []) :
    ∃ f', f.write l d = some (f', d.set name (out ++ l)) ∧
      Writing (d.set name (out ++ l)) name f' (out ++ l) := by
  refine ⟨{ f with
    fd := some (out.length + l.length), totWriteTupleNum := f.totWriteTupleNum + l.length }, ?_, ?_⟩
  · have hne : l.isEmpty = false := by simpa using hl
    simp only [TupleBufFile.write, h.offset, h.named, h.content, Option.bind_eq_bind, Option.bind_some,
      hne, Bool.false_eq_true, if_false, List.take_length]
    rw [List.drop_of_length_le (Nat.le_add_right _ _), List.append_nil]
    rfl
  · constructor <;> simp [h.named, h.unread, h.written]

theorem Writing.close {out : List α} (h : Writing d name f out) : Spooled d f.close out where
  content := by
    rw [← h.content, ← h.named]
    rfl
  written := h.written
  unread := rfl

-- ---------------------------------------------------------------------------
-- Buffers
-- ---------------------------------------------------------------------------

variable {inp : MergeInput α} {rest out : List α} {a : α}

/-- Writing another file does not disturb. -/
theorem Reading.set (h : Reading d name inp rest) (hne : name ≠ other) (l : List α) :
    Reading (d.set other l) name inp rest := by
  obtain ⟨done, more, hat, hrest⟩ := h.file
  refine ⟨h.idx, done, more, ⟨hat.named, ?_, hat.offset, hat.read, hat.written⟩, hrest⟩
  rw [TmpDisk.files_set_of_ne hne, hat.content]

theorem Reading.fileName (h : Reading d name inp rest) : inp.file.fileName = name := by
  obtain ⟨done, more, hat, -⟩ := h.file
  exact hat.named

theorem Reading.refill_nil (h : Reading d name inp []) : inp.refill d = some none := by
  obtain ⟨done, more, hat, hrest⟩ := h.file
  obtain ⟨hdrop, hmore⟩ := List.append_eq_nil_iff.mp hrest.symm
  have hidx : inp.idx = inp.buf.length := Nat.le_antisymm h.idx (List.drop_eq_nil_iff.mp hdrop)
  simp [MergeInput.refill, hidx, hat.isEof.mpr hmore]

/-- After the refill the next tuple is in the buffer. -/
theorem Reading.refill_cons (h : Reading d name inp (a :: rest)) : ∃ inp',
    inp.refill d = some (some inp') ∧ Reading d name inp' (a :: rest) ∧
      inp'.buf[inp'.idx]? = some a := by
  obtain ⟨done, more, hat, hrest⟩ := h.file
  by_cases hidx : inp.idx = inp.buf.length
  · have hmore : more = a :: rest := by
      rw [hrest, hidx, List.drop_length, List.nil_append]
    have heof : inp.file.isEof = false := by
      rw [← Bool.not_eq_true, hat.isEof, hmore]
      exact List.cons_ne_nil _ _
    obtain ⟨f', hread, hat'⟩ := hat.readBlock (hmore ▸ List.cons_ne_nil _ _)
    refine ⟨⟨f', more.take tupleNumPerStep, 0⟩, ?_, ⟨Nat.zero_le _, _, _, hat', ?_⟩, ?_⟩
    · simp [MergeInput.refill, hidx, heof, hread]
    · simp [hmore]
    · simp [hmore, tupleNumPerStep]
  · refine ⟨inp, by simp [MergeInput.refill, hidx], h, ?_⟩
    have hlt : inp.idx < inp.buf.length := Nat.lt_of_le_of_ne h.idx hidx
    rw [List.drop_eq_getElem_cons hlt] at hrest
    rw [List.getElem?_eq_getElem hlt, (List.cons.inj hrest).1]

theorem Reading.advance (h : Reading d name inp (a :: rest)) (ha : inp.buf[inp.idx]? = some a) :
    Reading d name inp.advance rest := by
  obtain ⟨done, more, hat, hrest⟩ := h.file
  obtain ⟨hlt, -⟩ := List.getElem?_eq_some_iff.mp ha
  rw [List.drop_eq_getElem_cons hlt] at hrest
  exact ⟨hlt, done, more, hat, (List.cons.inj hrest).2⟩

/-- Taking all of the buffer. -/
theorem Reading.takeBuffer (h : Reading d name inp (a :: rest)) (ha : inp.buf[inp.idx]? = some a) :
    ∃ l rest', inp.buf.drop inp.idx = a :: l ∧ rest = l ++ rest' ∧
      Reading d name { inp with idx := inp.buf.length } rest' := by
  obtain ⟨done, more, hat, hrest⟩ := h.file
  obtain ⟨hlt, -⟩ := List.getElem?_eq_some_iff.mp ha
  rw [List.drop_eq_getElem_cons hlt] at hrest ⊢
  obtain ⟨rfl, rfl⟩ := List.cons.inj hrest
  exact ⟨_, more, rfl, rfl, Nat.le_refl _, done, more, hat, by simp⟩

-- ---------------------------------------------------------------------------
-- Merging two files
-- ---------------------------------------------------------------------------

namespace SortEnv

variable {env : SortEnv α} {n₁ n₂ r : String}

/-- What the merge still has to do when its first loop is left: one side is through, and what is
written, what is in `buffer2` and what is left of the two sides make up `all`. -/
structure Merged (d : TmpDisk α) (n₁ n₂ r : String) (all : List α) (fir sec : MergeInput α)
    (ret : TupleBufFile) (buffer2 out xs ys : List α) : Prop where
  left : Reading d n₁ fir xs
  right : Reading d n₂ sec ys
  ret : Writing d r ret out
  through : xs = [] ∨ ys = []
  all : out ++ buffer2 ++ (xs ++ ys) = all

theorem mergeLoop_spec (hn₁ : n₁ ≠ r) (hn₂ : n₂ ≠ r) {fuel : Nat} {xs ys out buffer2 : List α}
    {fir sec : MergeInput α} {ret : TupleBufFile} (hfuel : xs.length + ys.length < fuel)
    (hfir : Reading d n₁ fir xs) (hsec : Reading d n₂ sec ys) (hret : Writing d r ret out) :
    ∃ fir' sec' ret' buffer2' out' xs' ys',
      env.mergeLoop fuel fir sec ret buffer2 d = some (fir', sec', ret', buffer2', d.set r out') ∧
      Merged (d.set r out') n₁ n₂ r (out ++ buffer2 ++ List.merge xs ys env.cmpRawData)
        fir' sec' ret' buffer2' out' xs' ys' := by
  induction fuel generalizing xs ys out buffer2 fir sec ret d with
  | zero => cases hfuel
  | succ fuel ih =>
    -- One tuple goes into `buffer2`, which is written when it is full.
    have hpush : ∀ (c : α) (fir sec : MergeInput α) (xs ys : List α), xs.length + ys.length < fuel →
        Reading d n₁ fir xs → Reading d n₂ sec ys → ∃ fir' sec' ret' buffer2' out' xs' ys',
          (if (buffer2 ++ [c]).length = tupleNumPerStep then
            (ret.write (buffer2 ++ [c]) d).bind fun p => env.mergeLoop fuel fir sec p.1 [] p.2
          else env.mergeLoop fuel fir sec ret (buffer2 ++ [c]) d) =
            some (fir', sec', ret', buffer2', d.set r out') ∧
          Merged (d.set r out') n₁ n₂ r (out ++ (buffer2 ++ [c]) ++ List.merge xs ys env.cmpRawData)
            fir' sec' ret' buffer2' out' xs' ys' := by
      intro c fir sec xs ys hlen hfir hsec
      split
      · obtain ⟨ret', hwrite, hret'⟩ := hret.write (List.append_ne_nil_of_right_ne_nil buffer2
          (List.cons_ne_nil c []))
        obtain ⟨fir', sec', ret'', buffer2', out', xs', ys', hloop, hmerged⟩ :=
          @ih _ xs ys _ [] fir sec ret' hlen (hfir.set hn₁ _) (hsec.set hn₂ _) hret'
        rw [TmpDisk.set_set] at hloop hmerged
        rw [List.append_nil] at hmerged
        refine ⟨fir', sec', ret'', buffer2', out', xs', ys', ?_, hmerged⟩
        rw [hwrite, Option.bind_some, hloop]
      · exact ih hlen hfir hsec hret
    cases xs with
    | nil =>
      refine ⟨fir, sec, ret, buffer2, out, [], ys, ?_, ?_⟩
      · simp [mergeLoop, hfir.refill_nil, d.set_self hret.content]
      · rw [d.set_self hret.content]
        exact ⟨hfir, hsec, hret, .inl rfl, by simp⟩
    | cons a xs =>
      obtain ⟨fir', hrefill, hfir', ha⟩ := hfir.refill_cons
      cases ys with
      | nil =>
        refine ⟨fir', sec, ret, buffer2, out, a :: xs, [], ?_, ?_⟩
        · simp [mergeLoop, hrefill, hsec.refill_nil, d.set_self hret.content]
        · rw [d.set_self hret.content]
          exact ⟨hfir', hsec, hret, .inr rfl, by simp⟩
      | cons b ys =>
        obtain ⟨sec', hrefill', hsec', hb⟩ := hsec.refill_cons
        simp only [List.length_cons] at hfuel
        cases hcmp : env.cmpRawData a b with
        | true =>
          obtain ⟨fir'', sec'', ret', buffer2', out', xs', ys', hloop, hmerged⟩ :=
            hpush a fir'.advance sec' xs (b :: ys) (by simp only [List.length_cons]; omega)
              (hfir'.advance ha) hsec'
          refine ⟨fir'', sec'', ret', buffer2', out', xs', ys', ?_, ?_⟩
          · rw [mergeLoop, hrefill]
            simp only [Option.bind_eq_bind, Option.bind_some, hrefill', ha, hb, hcmp, if_true]
            exact hloop
          · rw [List.cons_merge_cons_pos _ _ _ hcmp]
            simpa using hmerged
        | false =>
          obtain ⟨fir'', sec'', ret', buffer2', out', xs', ys', hloop, hmerged⟩ :=
            hpush b fir' sec'.advance (a :: xs) ys (by simp only [List.length_cons]; omega)
              hfir' (hsec'.advance hb)
          refine ⟨fir'', sec'', ret', buffer2', out', xs', ys', ?_, ?_⟩
          · rw [mergeLoop, hrefill]
            simp only [Option.bind_eq_bind, Option.bind_some, hrefill', ha, hb, hcmp,
              Bool.false_eq_true, if_false]
            exact hloop
          · rw [List.cons_merge_cons_neg _ _ _ (by simp [hcmp])]
            simpa using hmerged

/-- The rest of one side goes to the end of the new file. -/
theorem drainLoop_spec (hn : name ≠ r) {fuel : Nat} {xs out : List α} {inp : MergeInput α}
    {ret : TupleBufFile} (hfuel : xs.length < fuel) (hinp : Reading d name inp xs)
    (hret : Writing d r ret out) : ∃ inp' ret',
      drainLoop fuel inp ret d = some (inp', ret', d.set r (out ++ xs)) ∧
      inp'.file.fileName = name ∧ Writing (d.set r (out ++ xs)) r ret' (out ++ xs) := by
  induction fuel generalizing xs out inp ret d with
  | zero => cases hfuel
  | succ fuel ih =>
    cases xs with
    | nil =>
      rw [List.append_nil, d.set_self hret.content]
      refine ⟨inp, ret, ?_, hinp.fileName, hret⟩
      simp [drainLoop, hinp.refill_nil]
    | cons a xs =>
      obtain ⟨inp₁, hrefill, hinp₁, ha⟩ := hinp.refill_cons
      obtain ⟨l, rest, hl, rfl, hinp₂⟩ := hinp₁.takeBuffer ha
      obtain ⟨ret₁, hwrite, hret₁⟩ := hret.write (List.cons_ne_nil a l)
      obtain ⟨inp', ret', hloop, hname, hret'⟩ := @ih _ rest _ _ ret₁
        (by simp only [List.length_cons, List.length_append] at hfuel; omega) (hinp₂.set hn _) hret₁
      rw [TmpDisk.set_set, List.append_assoc] at hloop hret'
      refine ⟨inp', ret', ?_, hname, hret'⟩
      rw [drainLoop, hrefill]
      simp only [Option.bind_eq_bind, Option.bind_some, hl, hwrite]
      exact hloop

/-- What is in `buffer2` at the end of the first loop is written as well. -/
theorem flush_spec {ret : TupleBufFile} {out : List α} (hret : Writing d r ret out) (buffer2 : List α) :
    ∃ ret', flush ret buffer2 d =
        some (ret', d.set r (out ++ buffer2)) ∧
      Writing (d.set r (out ++ buffer2)) r ret' (out ++ buffer2) := by
  cases buffer2 with
  | nil =>
    rw [List.append_nil, d.set_self hret.content]
    exact ⟨ret, rfl, hret⟩
  | cons c buffer2 => exact hret.write (List.cons_ne_nil c buffer2)

/-- A new temporary file. -/
theorem newFile_spec (hfree : d.files (env.tmpName d.calls) = none) : ∃ f f',
    env.newFile d = (f, { d.set (env.tmpName d.calls) [] with calls := d.calls + 1 }) ∧
      f.openFile { d.set (env.tmpName d.calls) [] with calls := d.calls + 1 } = some f' ∧
      Writing { d.set (env.tmpName d.calls) [] with calls := d.calls + 1 } (env.tmpName d.calls) f' [] := by
  refine ⟨⟨env.tmpName d.calls, none, 0, 0⟩, ⟨env.tmpName d.calls, some 0, 0, 0⟩, ?_, ?_, ?_⟩
  · simp [newFile, TupleBufFile.new, hfree, TmpDisk.set]
  · simp [TupleBufFile.openFile, TmpDisk.set]
  · constructor <;> simp [TmpDisk.set]

theorem writeTmpData_spec (hfree : d.files (env.tmpName d.calls) = none) (hl : l ≠ []) : ∃ f,
    env.writeTmpData l d =
        some (f, { d.set (env.tmpName d.calls) l with calls := d.calls + 1 }) ∧
      f.fileName = env.tmpName d.calls ∧
      Spooled { d.set (env.tmpName d.calls) l with calls := d.calls + 1 } f l := by
  obtain ⟨f, f', hnew, hopen, hwriting⟩ := newFile_spec hfree
  obtain ⟨f'', hwrite, hwritten⟩ := hwriting.write hl
  have hdisk : TmpDisk.set { d.set (env.tmpName d.calls) [] with calls := d.calls + 1 }
      (env.tmpName d.calls) ([] ++ l) = { d.set (env.tmpName d.calls) l with calls := d.calls + 1 } := by
    simp [TmpDisk.set]
  rw [hdisk, List.nil_append] at hwritten
  rw [hdisk] at hwrite
  refine ⟨f''.close, ?_, hwritten.named, hwritten.close⟩
  simp only [writeTmpData, hnew, hopen, hwrite, Option.bind_eq_bind, Option.bind_some]
  rfl

/-- Merging two files merges what is in them into a new file, and removes them. -/
theorem mergeFiles_spec {fir sec : TupleBufFile} {xs ys : List α} {fuel : Nat}
    (hfree : d.files (env.tmpName d.calls) = none) (hfir : Spooled d fir xs) (hsec : Spooled d sec ys)
    (hxs : xs ≠ []) (hys : ys ≠ []) (hfuel : xs.length + ys.length < fuel) : ∃ ret d',
      env.mergeFiles fuel fir sec d = some (ret, d') ∧ ret.fileName = env.tmpName d.calls ∧
      Spooled d' ret (List.merge xs ys env.cmpRawData) ∧ d'.calls = d.calls + 1 ∧
      ∀ name ≠ env.tmpName d.calls, d'.files name =
        if name = fir.fileName ∨ name = sec.fileName then none else d.files name := by
  have hn₁ : fir.fileName ≠ env.tmpName d.calls := by
    intro heq
    rw [← heq, hfir.content] at hfree
    cases hfree
  have hn₂ : sec.fileName ≠ env.tmpName d.calls := by
    intro heq
    rw [← heq, hsec.content] at hfree
    cases hfree
  obtain ⟨ret, ret₁, hnew, hopen, hret₁⟩ := newFile_spec hfree
  generalize hr : env.tmpName d.calls = r at hn₁ hn₂ hnew hopen hret₁ ⊢
  generalize hd₀ : ({ d.set r [] with calls := d.calls + 1 } : TmpDisk α) = d₀ at hnew hopen hret₁
  have hfiles : ∀ name ≠ r, d₀.files name = d.files name := by
    intro name hne
    rw [← hd₀]
    exact d.files_set_of_ne hne
  obtain ⟨fir₁, hopen₁, hat₁⟩ := (hfir.of_files (hfiles _ hn₁)).openFile
  obtain ⟨sec₁, hopen₂, hat₂⟩ := (hsec.of_files (hfiles _ hn₂)).openFile
  obtain ⟨fir₂, hread₁, hfir₂⟩ := hat₁.first hxs
  obtain ⟨sec₂, hread₂, hsec₂⟩ := hat₂.first hys
  obtain ⟨fir₃, sec₃, ret₂, buffer2, out, xs', ys', hloop, hmerged⟩ :=
    @mergeLoop_spec _ _ env _ _ _ hn₁ hn₂ _ _ _ _ [] _ _ _ hfuel hfir₂ hsec₂ hret₁
  have hall := hmerged.all
  rw [List.append_nil, List.nil_append] at hall
  obtain ⟨ret₃, hflush, hret₃⟩ := flush_spec hmerged.ret buffer2
  rw [TmpDisk.set_set] at hflush hret₃
  have hlen := congrArg List.length hall
  simp only [List.length_append, List.length_merge] at hlen
  have hleft := hmerged.left.set hn₁ (out ++ buffer2)
  have hright := (hmerged.right.set hn₂ (out ++ buffer2)).set hn₂ (out ++ buffer2 ++ xs')
  rw [TmpDisk.set_set] at hleft hright
  have hxs' : xs'.length < fuel := by omega
  have hys' : ys'.length < fuel := by omega
  obtain ⟨fir₄, ret₄, hdrain₁, hname₁, hret₄⟩ := drainLoop_spec hn₁ hxs' hleft hret₃
  rw [TmpDisk.set_set] at hdrain₁ hret₄ hright
  obtain ⟨sec₄, ret₅, hdrain₂, hname₂, hret₅⟩ := drainLoop_spec hn₂ hys' hright hret₄
  rw [TmpDisk.set_set, List.append_assoc _ xs', hall] at hdrain₂ hret₅
  have hrun : env.mergeFiles fuel fir sec d = some (ret₅.close,
      ((d₀.set r (List.merge xs ys env.cmpRawData)).unlink sec.fileName).unlink fir.fileName) := by
    rw [← hname₁, ← hname₂]
    simp only [mergeFiles, hnew, hopen₁, hopen₂, hopen, hread₁, hread₂, hloop, hflush, hdrain₁,
      hdrain₂, Option.bind_eq_bind, Option.bind_some]
    rfl
  refine ⟨_, _, hrun, hret₅.named, hret₅.close.of_files ?_, ?_, ?_⟩
  · have hname : ret₅.close.fileName = r := hret₅.named
    rw [hname, TmpDisk.files_unlink_of_ne hn₁.symm, TmpDisk.files_unlink_of_ne hn₂.symm]
  · rw [← hd₀]
    rfl
  · intro name hne
    by_cases hname₁ : name = fir.fileName
    · simp [hname₁]
    · by_cases hname₂ : name = sec.fileName
      · rw [TmpDisk.files_unlink_of_ne hname₁, hname₂, TmpDisk.files_unlink, if_pos (.inr rfl)]
      · simp [hname₁, hname₂, hne, hfiles]

-- ---------------------------------------------------------------------------
-- Merging all files
-- ---------------------------------------------------------------------------

/-- The name of a file that has been made. -/
def Used (env : SortEnv α) (d : TmpDisk α) (name : String) : Prop := ∃ n < d.calls, name = env.tmpName n

/-- No file has the name of one that is still to be made. -/
def Free (env : SortEnv α) (d : TmpDisk α) : Prop := ∀ n ≥ d.calls, d.files (env.tmpName n) = none

/-- A temporary file that holds tuples in order. -/
structure SortedRun (env : SortEnv α) (d : TmpDisk α) (f : TupleBufFile) (l : List α) : Prop where
  spooled : Spooled d f l
  ne_nil : l ≠ []
  sorted : l.Pairwise fun a b => env.cmpRawData a b = true
  used : env.Used d f.fileName

/-- Temporary files that hold the runs. -/
structure SortedRuns (env : SortEnv α) (d : TmpDisk α) (files : List TupleBufFile)
    (runs : List (List α)) : Prop where
  each : List.Forall₂ (SortedRun env d) files runs
  nodup : (files.map TupleBufFile.fileName).Nodup
  free : env.Free d

/-- The files of these names are merged into one: what it is called, and what is not touched. -/
structure MergedTo (env : SortEnv α) (d d' : TmpDisk α) (names : List String) (f : TupleBufFile)
    (out : List α) : Prop where
  run : SortedRun env d' f out
  calls : d.calls ≤ d'.calls
  free : env.Free d'
  name : f.fileName ∈ names ∨ ∃ n ≥ d.calls, f.fileName = env.tmpName n
  frame : ∀ name, env.Used d name → name ∉ names → d'.files name = d.files name

theorem Used.mono {d' : TmpDisk α} (h : env.Used d name) (hcalls : d.calls ≤ d'.calls) : env.Used d' name := by
  obtain ⟨n, hn, rfl⟩ := h
  exact ⟨n, Nat.lt_of_lt_of_le hn hcalls, rfl⟩

/-- A run that is not touched. -/
theorem SortedRun.frame {d' : TmpDisk α} (h : SortedRun env d f l)
    (heq : d'.files f.fileName = d.files f.fileName) (hcalls : d.calls ≤ d'.calls) : SortedRun env d' f l :=
  ⟨h.spooled.of_files heq, h.ne_nil, h.sorted, h.used.mono hcalls⟩

theorem Used.ne (hinj : Function.Injective env.tmpName) (h : env.Used d name) {n : Nat} (hn : d.calls ≤ n) :
    name ≠ env.tmpName n := by
  obtain ⟨m, hm, rfl⟩ := h
  exact fun heq => absurd (hinj heq) (by omega)

theorem MergedTo.ne_name {d' : TmpDisk α} {names : List String} {out : List α}
    (h : MergedTo env d d' names f out) (hinj : Function.Injective env.tmpName) (hused : env.Used d name)
    (hnot : name ∉ names) : name ≠ f.fileName := by
  rintro rfl
  rcases h.name with hmem | ⟨n, hn, hnew⟩
  · exact hnot hmem
  · exact hused.ne hinj hn hnew

/-- Two results of merges are merged. -/
theorem mergeFiles_merged (htrans : ∀ a b c, env.cmpRawData a b = true → env.cmpRawData b c = true →
      env.cmpRawData a c = true) (htotal : ∀ a b, (env.cmpRawData a b || env.cmpRawData b a) = true)
    {f f' : TupleBufFile} {out out' : List α} {fuel : Nat} (hinj : Function.Injective env.tmpName)
    (hrun : SortedRun env d f out) (hrun' : SortedRun env d f' out') (hfree : env.Free d)
    (hfuel : out.length + out'.length < fuel) : ∃ ret d', env.mergeFiles fuel f f' d = some (ret, d') ∧
      MergedTo env d d' [f.fileName, f'.fileName] ret (List.merge out out' env.cmpRawData) := by
  obtain ⟨ret, d', hmerge, hname, hspooled, hcalls, hfiles⟩ := mergeFiles_spec (hfree _ (Nat.le_refl _))
    hrun.spooled hrun'.spooled hrun.ne_nil hrun'.ne_nil hfuel
  refine ⟨ret, d', hmerge, ⟨hspooled, ?_, ?_, ?_⟩, by omega, ?_, .inr ⟨_, Nat.le_refl _, hname⟩, ?_⟩
  · have hlen := @List.length_merge _ env.cmpRawData out out'
    have hpos := List.length_pos_iff.mpr hrun.ne_nil
    exact List.ne_nil_of_length_pos (by omega)
  · exact List.pairwise_merge htrans htotal _ _ hrun.sorted hrun'.sorted
  · exact ⟨d.calls, by omega, hname⟩
  · intro n hn
    rw [hfiles _ fun heq => absurd (hinj heq) (by omega)]
    split
    · rfl
    · exact hfree n (by omega)
  · intro name hused hnot
    rw [hfiles _ (hused.ne hinj (Nat.le_refl _)), if_neg (by simpa using hnot)]

theorem SortedRuns.split {s₁ s₂ : List TupleBufFile} {runs : List (List α)}
    (h : SortedRuns env d (s₁ ++ s₂) runs) : ∃ r₁ r₂, runs = r₁ ++ r₂ ∧ SortedRuns env d s₁ r₁ ∧
      SortedRuns env d s₂ r₂ := by
  have hnodup := h.nodup
  rw [List.map_append, List.nodup_append] at hnodup
  have htake := List.forall₂_take s₁.length h.each
  have hdrop := List.forall₂_drop s₁.length h.each
  rw [List.take_left] at htake
  rw [List.drop_left] at hdrop
  exact ⟨_, _, (List.take_append_drop s₁.length runs).symm, ⟨htake, hnodup.1, h.free⟩,
    ⟨hdrop, hnodup.2.1, h.free⟩⟩

/-- Merging other files leaves the runs as they are. -/
theorem SortedRuns.frame {d' : TmpDisk α} {names : List String} {out : List α}
    {files : List TupleBufFile} {runs : List (List α)} (h : SortedRuns env d files runs)
    (hm : MergedTo env d d' names f out) (hdisj : ∀ f ∈ files, f.fileName ∉ names) :
    SortedRuns env d' files runs := by
  refine ⟨?_, h.nodup, hm.free⟩
  have hall : ∀ f l, f ∈ files → SortedRun env d f l → SortedRun env d' f l :=
    fun f l hf hrun => hrun.frame (hm.frame _ hrun.used (hdisj f hf)) hm.calls
  have heach := h.each
  clear h hdisj
  induction heach with
  | nil => exact .nil
  | cons hrun _ ih =>
    exact .cons (hall _ _ List.mem_cons_self hrun) (ih fun f l hf => hall f l (List.mem_cons_of_mem _ hf))

theorem SortedRuns.used {files : List TupleBufFile} {runs : List (List α)}
    (h : SortedRuns env d files runs) (hf : f ∈ files) : env.Used d f.fileName := by
  have heach := h.each
  clear h
  induction heach with
  | nil => cases hf
  | cons hrun _ ih =>
    rcases List.mem_cons.mp hf with rfl | hf
    · exact hrun.used
    · exact ih hf

/-- By induction over the number of files, `mergeTmpFiles` leaves one file with all the tuples. -/
theorem mergeTmpFiles_spec (htrans : ∀ a b c, env.cmpRawData a b = true → env.cmpRawData b c = true →
      env.cmpRawData a c = true) (htotal : ∀ a b, (env.cmpRawData a b || env.cmpRawData b a) = true)
    (hinj : Function.Injective env.tmpName) {fuel : Nat} {before seg after : List TupleBufFile}
    {runs : List (List α)} (hruns : SortedRuns env d seg runs) (hne : seg ≠ [])
    (hfuel : runs.flatten.length < fuel) : ∃ f d' out,
      env.mergeTmpFiles fuel (before ++ seg ++ after) before.length (before.length + seg.length - 1) d =
        some (some f, d') ∧
      MergedTo env d d' (seg.map TupleBufFile.fileName) f out ∧ out.Perm runs.flatten := by
  induction hk : seg.length using Nat.strongRecOn generalizing seg runs before after d with
  | ind k ih =>
    have hpos := List.length_pos_iff.mpr hne
    by_cases hone : k = 1
    · obtain ⟨f, rfl⟩ := List.length_eq_one_iff.mp (hk.trans hone)
      obtain ⟨each, nodup, free⟩ := hruns
      cases each with
      | @cons _ l _ _ hrun hnil =>
        cases hnil
        refine ⟨f, d, l, ?_, ⟨hrun, Nat.le_refl _, free, .inl (by simp), fun _ _ _ => rfl⟩, by simp⟩
        rw [mergeTmpFiles, if_neg (by omega), if_pos (by omega)]
        simp
    · obtain ⟨s₁, s₂, hs₁, rfl⟩ : ∃ s₁ s₂, s₁.length = (k - 1) / 2 + 1 ∧ seg = s₁ ++ s₂ :=
        ⟨seg.take ((k - 1) / 2 + 1), seg.drop ((k - 1) / 2 + 1),
          by rw [List.length_take]; omega, (List.take_append_drop _ _).symm⟩
      rw [List.length_append] at hk
      obtain ⟨r₁, r₂, rfl, hruns₁, hruns₂⟩ := hruns.split
      rw [List.flatten_append, List.length_append] at hfuel
      have hnodup := hruns.nodup
      rw [List.map_append, List.nodup_append] at hnodup
      have hdisj : ∀ f ∈ s₂, f.fileName ∉ s₁.map TupleBufFile.fileName := fun f hf hmem =>
        hnodup.2.2 _ hmem _ (List.mem_map_of_mem hf) rfl
      have hne₁ : s₁ ≠ [] := List.ne_nil_of_length_pos (by omega)
      have hne₂ : s₂ ≠ [] := List.ne_nil_of_length_pos (by omega)
      obtain ⟨f₁, d₁, out₁, hmerge₁, hm₁, hperm₁⟩ := @ih _ (by omega) d before s₁ (s₂ ++ after) r₁
        hruns₁ hne₁ (by omega) rfl
      have hruns₂' := hruns₂.frame hm₁ hdisj
      obtain ⟨f₂, d₂, out₂, hmerge₂, hm₂, hperm₂⟩ := @ih _ (by omega) d₁ (before ++ s₁) s₂ after r₂
        hruns₂' hne₂ (by omega) rfl
      -- The result of the left half is still there after the right half is merged.
      have hnot₁ : f₁.fileName ∉ s₂.map TupleBufFile.fileName := by
        rintro hmem
        obtain ⟨f, hf, hname⟩ := List.mem_map.mp hmem
        exact hm₁.ne_name hinj (hruns₂.used hf) (hdisj f hf) hname
      have hrun₁ : SortedRun env d₂ f₁ out₁ :=
        hm₁.run.frame (hm₂.frame _ hm₁.run.used hnot₁) hm₂.calls
      have hlen : out₁.length + out₂.length < fuel := by
        rw [hperm₁.length_eq, hperm₂.length_eq]
        exact hfuel
      obtain ⟨ret, d₃, hmerge, hm⟩ := mergeFiles_merged htrans htotal hinj hrun₁ hm₂.run hm₂.free hlen
      have hcalls := Nat.le_trans hm₁.calls hm₂.calls
      refine ⟨ret, d₃, _, ?_, ⟨hm.run, Nat.le_trans hcalls hm.calls, hm.free, ?_, ?_⟩, ?_⟩
      · have hmid : ((before.length : Int) + (before.length + k - 1)) >>> (1 : Nat) =
            before.length + s₁.length - 1 := by
          rw [Int.shiftRight_eq_div_pow]
          omega
        have hlist : before ++ (s₁ ++ s₂) ++ after = before ++ s₁ ++ (s₂ ++ after) := by
          simp only [List.append_assoc]
        rw [List.append_assoc _ s₂ after, List.length_append] at hmerge₂
        rw [mergeTmpFiles, if_neg (by omega), if_neg (by omega)]
        simp only [hmid, hlist, hmerge₁, Option.bind_eq_bind, Option.bind_some]
        have hend : ((before.length + s₁.length : Nat) : Int) + s₂.length - 1 =
            before.length + k - 1 := by
          omega
        have hstart : ((before.length + s₁.length : Nat) : Int) = before.length + s₁.length - 1 + 1 := by
          omega
        rw [hend, hstart] at hmerge₂
        simp only [hmerge₂, hmerge, Option.bind_some]
        rfl
      · rcases hm.name with hmem | ⟨n, hn, hnew⟩
        · rcases List.mem_cons.mp hmem with hname | hmem
          · rw [hname, List.map_append, List.mem_append]
            exact hm₁.name.imp_left .inl
          · rw [List.mem_singleton.mp hmem, List.map_append, List.mem_append]
            refine hm₂.name.imp .inr ?_
            rintro ⟨n, hn, hnew⟩
            exact ⟨n, Nat.le_trans hm₁.calls hn, hnew⟩
        · exact .inr ⟨n, Nat.le_trans hcalls hn, hnew⟩
      · intro name hused hnot
        rw [List.map_append, List.mem_append, not_or] at hnot
        have hother : name ∉ [f₁.fileName, f₂.fileName] := by
          rw [List.mem_cons, List.mem_singleton, not_or]
          exact ⟨hm₁.ne_name hinj hused hnot.1, hm₂.ne_name hinj (hused.mono hm₁.calls) hnot.2⟩
        rw [hm.frame name (hused.mono hcalls) hother, hm₂.frame name (hused.mono hm₁.calls) hnot.2,
          hm₁.frame name hused hnot.1]
      · rw [List.flatten_append]
        exact List.Perm.trans (List.merge_perm_append _) (hperm₁.append hperm₂)

-- ---------------------------------------------------------------------------
-- The constructor
-- ---------------------------------------------------------------------------

/-- What the sort relies on: `cmp_record` is a strict weak order, `cmp_raw_data` is what it leaves
open, and the clock never gives a time twice. -/
structure Ok (env : SortEnv α) : Prop where
  weak : IsStrictWeakOrder α fun a b => env.cmpRecord a b = true
  raw : ∀ a b, env.cmpRawData a b = !env.cmpRecord b a
  times : Function.Injective env.getTime

theorem Ok.names (h : env.Ok) : Function.Injective env.tmpName := by
  intro m n heq
  exact h.times ((String.append_right_inj _).mp heq)

theorem Ok.trans (h : env.Ok) (a b c : α) (hab : env.cmpRawData a b = true)
    (hbc : env.cmpRawData b c = true) : env.cmpRawData a c = true := by
  rw [h.raw] at hab hbc ⊢
  exact h.weak.le_trans hab hbc

theorem Ok.total (h : env.Ok) (a b : α) : (env.cmpRawData a b || env.cmpRawData b a) = true := by
  rw [h.raw, h.raw]
  exact h.weak.le_total a b

/-- Another run is sorted and written. -/
theorem SortedRuns.concat (h : env.Ok) {files : List TupleBufFile} {runs : List (List α)}
    (hruns : SortedRuns env d files runs) (hl : l ≠ []) : ∃ f d' run,
      env.writeTmpData (env.stdSort.sort env.cmpRecord l) d = some (f, d') ∧
      SortedRuns env d' (files ++ [f]) (runs ++ [run]) ∧ run.Perm l := by
  have hperm := env.stdSort.perm env.cmpRecord h.weak l
  have hne : env.stdSort.sort env.cmpRecord l ≠ [] := fun heq => hl (heq ▸ hperm).nil_eq.symm
  have hsorted : (env.stdSort.sort env.cmpRecord l).Pairwise fun a b => env.cmpRawData a b = true := by
    refine (env.stdSort.sorted env.cmpRecord h.weak l).imp fun hba => ?_
    rw [h.raw, hba]
    rfl
  obtain ⟨f, hwrite, hname, hspooled⟩ := writeTmpData_spec (hruns.free _ (Nat.le_refl _)) hne
  have hnew : MergedTo env d { d.set (env.tmpName d.calls) (env.stdSort.sort env.cmpRecord l) with
      calls := d.calls + 1 } [] f (env.stdSort.sort env.cmpRecord l) := by
    refine ⟨⟨hspooled, hne, hsorted, d.calls, Nat.lt_succ_self _, hname⟩, Nat.le_succ _, ?_,
      .inr ⟨_, Nat.le_refl _, hname⟩, ?_⟩
    · intro n hn
      have hlt : d.calls < n := hn
      exact (d.files_set_of_ne fun heq => absurd (h.names heq) (by omega)).trans (hruns.free n (by omega))
    · exact fun name hused _ => d.files_set_of_ne (hused.ne h.names (Nat.le_refl _))
  have hold := hruns.frame hnew fun _ _ => List.not_mem_nil
  refine ⟨f, _, _, hwrite, ⟨?_, ?_, hnew.free⟩, hperm⟩
  · exact List.rel_append hold.each (.cons hnew.run .nil)
  · rw [List.map_append, List.map_singleton, List.nodup_append]
    refine ⟨hold.nodup, List.pairwise_singleton _ _, ?_⟩
    rintro _ hmem _ hf rfl
    obtain ⟨f', hf', heq⟩ := List.mem_map.mp hmem
    refine hnew.ne_name h.names (hruns.used hf') List.not_mem_nil ?_
    exact heq.trans (List.mem_singleton.mp hf)

/-- The loop of the constructor, from the tuples that are still to come. -/
theorem runLoop_spec (h : env.Ok) {prev : Cursor σ α} {s : σ} {xs : List α} (hs : prev.Yields s xs)
    {fuel : Nat} {tuples : List α} {files : List TupleBufFile} {runs : List (List α)}
    (hfuel : xs.length < fuel) (hruns : SortedRuns env d files runs) : ∃ tuples' files' runs' d',
      env.runLoop prev fuel s tuples files d = some (tuples', files', d') ∧
      SortedRuns env d' files' runs' ∧
      (runs'.flatten ++ tuples').Perm (runs.flatten ++ tuples ++ xs) := by
  induction hs generalizing fuel tuples files runs d with
  | done hend =>
    obtain ⟨fuel, rfl⟩ := Nat.exists_eq_add_one_of_ne_zero (Nat.ne_of_gt hfuel)
    exact ⟨tuples, files, runs, d, by rw [runLoop, if_pos hend], hruns, by simp⟩
  | @tuple s s' xs hend hnext _ ih =>
    obtain ⟨fuel, rfl⟩ := Nat.exists_eq_add_one_of_ne_zero (Nat.ne_of_gt (Nat.zero_lt_of_lt hfuel))
    have hlen : xs.length < fuel := Nat.lt_of_succ_lt_succ hfuel
    have hnot : ¬ prev.isEnd s = true := by simp [hend]
    by_cases hfull : (tuples ++ [prev.current s]).length = tupleNumPerStep
    · obtain ⟨f, d', run, hwrite, hruns', hperm⟩ := hruns.concat h
        (List.append_ne_nil_of_right_ne_nil tuples (List.cons_ne_nil (prev.current s) []))
      obtain ⟨tuples', files', runs', d'', hloop, hout, hperm'⟩ := @ih _ _ [] _ _ hlen hruns'
      refine ⟨tuples', files', runs', d'', ?_, hout, hperm'.trans ?_⟩
      · rw [runLoop, if_neg hnot]
        simp only [hfull, if_true, hwrite, hnext, Option.bind_eq_bind, Option.bind_some, hloop]
      · simp only [List.flatten_append, List.flatten_singleton, List.append_nil]
        rw [List.append_assoc, List.append_assoc]
        refine List.Perm.append_left _ ?_
        have hcons := hperm.append_right xs
        rwa [List.append_assoc] at hcons
    · obtain ⟨tuples', files', runs', d', hloop, hout, hperm⟩ :=
        @ih _ _ (tuples ++ [prev.current s]) _ _ hlen hruns
      refine ⟨tuples', files', runs', d', ?_, hout, ?_⟩
      · rw [runLoop, if_neg hnot]
        simp only [hfull, if_false, hnext, Option.bind_eq_bind, Option.bind_some, hloop]
      · rw [← List.append_assoc, List.append_assoc _ [_] xs] at hperm
        exact hperm

theorem lastRun_spec (h : env.Ok) (tuples : List α) {files : List TupleBufFile} {runs : List (List α)}
    (hruns : SortedRuns env d files runs) : ∃ files' runs' d',
      env.lastRun tuples files d = some (files', d') ∧ SortedRuns env d' files' runs' ∧
      runs'.flatten.Perm (runs.flatten ++ tuples) := by
  cases tuples with
  | nil => exact ⟨files, runs, d, rfl, hruns, by simp⟩
  | cons a tuples =>
    obtain ⟨f, d', run, hwrite, hruns', hperm⟩ := hruns.concat h (List.cons_ne_nil a tuples)
    refine ⟨_, _, d', ?_, hruns', ?_⟩
    · simp only [lastRun, List.isEmpty_cons, hwrite, Option.bind_eq_bind, Option.bind_some,
        Bool.false_eq_true, if_false]
      rfl
    · simp only [List.flatten_append, List.flatten_singleton]
      exact hperm.append_left _

end SortEnv

-- ---------------------------------------------------------------------------
-- The executor
-- ---------------------------------------------------------------------------

namespace SortExecutor

variable {env : SortEnv α}

/-- The executor that the constructor leaves, for a child with the tuples `xs`: there is no file if
there are none, and else one file with all of them in order. -/
structure Sorted (env : SortEnv α) (xs : List α) (ex : SortExecutor α) (out : List α) : Prop where
  isEnd : ex.isEnd = false
  perm : out.Perm xs
  sorted : out.Pairwise fun a b => env.cmpRecord b a = false
  file : (xs = [] ∧ ex.resFile = none) ∨ (out ≠ [] ∧ ∃ f, ex.resFile = some f ∧ Spooled ex.disk f out)

theorem new_spec (h : env.Ok) {prev : Cursor σ α} {s : σ} {xs : List α} (hs : prev.Runs s xs)
    (hfree : ∀ n, d.files (env.tmpName n) = none) {fuel : Nat} (hfuel : xs.length < fuel) :
    ∃ ex out, new env prev fuel s d = some ex ∧ Sorted env xs ex out := by
  obtain ⟨s', hbegin, hyields⟩ := hs
  have hstart : SortEnv.SortedRuns env d [] [] := ⟨.nil, .nil, fun n _ => hfree n⟩
  obtain ⟨tuples, files, runs, d₁, hloop, hruns, hperm⟩ :=
    @SortEnv.runLoop_spec _ _ _ _ h _ _ _ hyields fuel [] [] [] hfuel hstart
  obtain ⟨files', runs', d₂, hlast, hruns', hperm'⟩ := SortEnv.lastRun_spec h tuples hruns
  have hall : runs'.flatten.Perm xs := hperm'.trans hperm
  by_cases hnil : files' = []
  · subst hnil
    have hempty : runs' = [] := by
      cases hruns'.each
      rfl
    rw [hempty, List.flatten_nil] at hall
    refine ⟨⟨none, [], 0, false, d₂⟩, [], ?_, rfl, hall, .nil, .inl ⟨hall.nil_eq.symm, rfl⟩⟩
    have hmerge : env.mergeTmpFiles fuel [] 0 (([] : List TupleBufFile).length - 1) d₂ =
        some (none, d₂) := by
      rw [SortEnv.mergeTmpFiles]
      rfl
    simp only [new, hbegin, hloop, hlast, hmerge, Option.bind_eq_bind, Option.bind_some]
    rfl
  · have hlen : runs'.flatten.length < fuel := by
      rw [hall.length_eq]
      exact hfuel
    obtain ⟨f, d₃, out, hmerge, hm, hout⟩ := @SortEnv.mergeTmpFiles_spec _ _ _ h.trans h.total h.names
      fuel [] files' [] runs' hruns' hnil hlen
    have hmerge' : env.mergeTmpFiles fuel files' 0 (files'.length - 1) d₂ = some (some f, d₃) := by
      simpa using hmerge
    refine ⟨⟨some f, [], 0, false, d₃⟩, out, ?_, rfl, hout.trans hall, ?_,
      .inr ⟨hm.run.ne_nil, f, rfl, hm.run.spooled⟩⟩
    · simp only [new, hbegin, hloop, hlast, hmerge', Option.bind_eq_bind, Option.bind_some]
      rfl
    · refine hm.run.sorted.imp fun hraw => ?_
      rw [h.raw, Bool.not_eq_true'] at hraw
      exact hraw

/-- The executor in front of the tuples `rest`: what is left in the buffer, and what is left in the
file. The buffer is full as long as there is something in the file. -/
structure Before (s : SortExecutor α) (rest : List α) : Prop where
  isEnd : s.isEnd = false
  file : ∃ f name done more, s.resFile = some f ∧ FileAt s.disk name f done more ∧
    rest = s.buffer0.drop s.currReadIdx ++ more ∧ (more ≠ [] → s.buffer0.length = tupleNumPerStep)
  inBuffer : s.currReadIdx < s.buffer0.length
  short : s.buffer0.length ≤ tupleNumPerStep

theorem Before.ne_nil {s : SortExecutor α} (h : Before s rest) : rest ≠ [] := by
  obtain ⟨_, _, _, _, -, -, hrest, -⟩ := h.file
  rw [hrest, List.drop_eq_getElem_cons h.inBuffer]
  exact List.cons_ne_nil _ _

theorem Before.current [Inhabited α] {s : SortExecutor α} (h : Before s (a :: rest)) (limitNum : Int) :
    (cursor limitNum).current s = a := by
  obtain ⟨_, _, _, more, -, -, hrest, -⟩ := h.file
  rw [List.drop_eq_getElem_cons h.inBuffer] at hrest
  simp only [cursor, List.getD_eq_getElem?_getD, List.getElem?_eq_getElem h.inBuffer, Option.getD_some]
  exact (List.cons.inj hrest).1.symm

/-- A block that is read from the file. -/
theorem Before.block {s : SortExecutor α} {done : List α} (hend : s.isEnd = false)
    (hat : FileAt s.disk name f done rest) (hne : rest ≠ []) : ∃ f',
      f.read tupleNumPerStep s.disk = some (rest.take tupleNumPerStep, f') ∧
      Before { s with resFile := some f', buffer0 := rest.take tupleNumPerStep, currReadIdx := 0 } rest := by
  obtain ⟨f', hread, hat'⟩ := hat.readBlock hne
  have hpos := List.length_pos_iff.mpr hne
  refine ⟨f', hread, hend, ⟨f', name, _, _, rfl, hat', by simp, fun hmore => ?_⟩, ?_, ?_⟩
  · have hlt : tupleNumPerStep < rest.length := by
      by_contra hge
      exact hmore (List.drop_eq_nil_iff.mpr (by omega))
    simp only [List.length_take]
    omega
  · simp only [List.length_take, tupleNumPerStep]
    omega
  · simp only [List.length_take]
    omega

/-- One step, unless the limit is reached: the next tuple is behind this one in the buffer, or it is
the first of the next block. -/
theorem Before.next {s : SortExecutor α} (h : Before s (a :: rest)) (limitNum : Int)
    (hlimit : ¬ (limitNum > 0 ∧ (s.currReadIdx : Int) + 1 = limitNum)) : ∃ s',
      nextTuple limitNum s = some s' ∧
      ((rest = [] ∧ s'.isEnd = true) ∨
        Before s' rest ∧ (s'.currReadIdx = s.currReadIdx + 1 ∨ s.currReadIdx + 1 = tupleNumPerStep)) := by
  obtain ⟨f, name, done, more, hfile, hat, hrest, hfull⟩ := h.file
  rw [List.drop_eq_getElem_cons h.inBuffer, List.cons_append] at hrest
  obtain ⟨-, rfl⟩ := List.cons.inj hrest
  have hlimit' : ¬ (limitNum > 0 ∧ ((s.currReadIdx + 1 : Nat) : Int) = limitNum) := hlimit
  by_cases hlast : s.currReadIdx + 1 = s.buffer0.length
  · have hdrop : s.buffer0.drop (s.currReadIdx + 1) ++ more = more := by
      rw [hlast, List.drop_length, List.nil_append]
    rw [hdrop]
    by_cases hmore : more = []
    · refine ⟨{ s with currReadIdx := s.currReadIdx + 1, isEnd := true }, ?_, .inl ⟨hmore, rfl⟩⟩
      simp only [nextTuple, hlimit', if_false, if_pos hlast, hfile, hat.isEof.mpr hmore,
        Option.bind_eq_bind, Option.bind_some, if_true]
      rfl
    · have heof : f.isEof = false := by
        rw [← Bool.not_eq_true, hat.isEof]
        exact hmore
      obtain ⟨f', hread, hbefore⟩ := Before.block h.isEnd hat hmore
      refine ⟨_, ?_, .inr ⟨hbefore, .inr (hlast.trans (hfull hmore))⟩⟩
      simp only [nextTuple, hlimit', if_false, if_pos hlast, hfile, heof, hread, Option.bind_eq_bind,
        Option.bind_some, Bool.false_eq_true]
      rfl
  · have hlt := h.inBuffer
    refine ⟨{ s with currReadIdx := s.currReadIdx + 1 }, ?_, .inr ⟨⟨h.isEnd,
      ⟨f, name, done, more, hfile, hat, rfl, hfull⟩, by dsimp only; omega, h.short⟩, .inl rfl⟩⟩
    simp only [nextTuple, hlimit', hlast, if_false]

/-- Without a limit, or with one that is larger than a block, all tuples are given. -/
theorem Before.yields [Inhabited α] {s : SortExecutor α} {limitNum : Int} {l : List α} (h : Before s l)
    (hlimit : limitNum ≤ 0 ∨ tupleNumPerStep < limitNum) : (cursor limitNum).Yields s l := by
  induction l generalizing s with
  | nil => exact absurd rfl h.ne_nil
  | cons a rest ih =>
    rw [← h.current limitNum]
    have hshort := h.short
    have hin := h.inBuffer
    obtain ⟨s', hnext, ⟨rfl, hend⟩ | ⟨hbefore, -⟩⟩ := h.next limitNum (by omega)
    · exact .tuple h.isEnd hnext (.done hend)
    · exact .tuple h.isEnd hnext (ih hbefore)

theorem beginTuple_spec {ex : SortExecutor α} (limitNum : Int) (hend : ex.isEnd = false)
    (hfile : ex.resFile = some f) (hspooled : Spooled ex.disk f l) (hl : l ≠ [])
    (hlimit : limitNum ≠ 0) : ∃ s', beginTuple limitNum ex = some s' ∧ Before s' l ∧ s'.currReadIdx = 0 := by
  have hclosed : Spooled ex.disk (if f.isOpened then f.close else f) l := by
    split
    · exact ⟨hspooled.content, hspooled.written, rfl⟩
    · exact hspooled
  obtain ⟨f₁, hopen, hat⟩ := hclosed.openFile
  obtain ⟨f₂, hread, hbefore⟩ := Before.block (s := ex) hend hat hl
  refine ⟨_, ?_, hbefore, rfl⟩
  simp only [beginTuple, hfile, hlimit, if_false, hopen, hread, Option.bind_eq_bind, Option.bind_some]
  rfl

/-- A sort without a limit. -/
theorem Sorted.runs [Inhabited α] {xs out : List α} {ex : SortExecutor α} {limitNum : Int} (h : Sorted env xs ex out)
    (hlimit : limitNum < 0 ∨ tupleNumPerStep < limitNum) : (cursor limitNum).Runs ex out := by
  rcases h.file with ⟨hxs, hnone⟩ | ⟨hne, f, hfile, hspooled⟩
  · have hperm := h.perm
    rw [hxs] at hperm
    rw [hperm.eq_nil]
    refine ⟨{ ex with currReadIdx := 0, isEnd := true }, ?_, .done rfl⟩
    simp only [cursor, beginTuple, hnone]
  · obtain ⟨s', hbegin, hbefore, -⟩ :=
      beginTuple_spec limitNum h.isEnd hfile hspooled hne (by omega)
    exact ⟨s', hbegin, hbefore.yields (by omega)⟩

end SortExecutor

/-- A sort without a limit gives the tuples of its child in the order of `cmp_record`, if
`cmp_raw_data` agrees with it and no two temporary files have the same name. -/
theorem sort_executor_sorts {α σ : Type} [Inhabited α] (env : SortEnv α) (h : env.Ok) (prev : Cursor σ α)
    (s : σ) (xs : List α) (hs : prev.Runs s xs) (d : TmpDisk α)
    (hfree : ∀ n, d.files (env.tmpName n) = none) : ∃ bound, ∀ fuel ≥ bound, ∃ ex out,
      SortExecutor.new env prev fuel s d = some ex ∧ (SortExecutor.cursor (-1)).Runs ex out ∧
      out.Perm xs ∧ out.Pairwise fun a b => env.cmpRecord b a = false := by
  refine ⟨xs.length + 1, fun fuel hfuel => ?_⟩
  obtain ⟨ex, out, hnew, hsorted⟩ := SortExecutor.new_spec h hs hfree (Nat.lt_of_succ_le hfuel)
  exact ⟨ex, out, hnew, hsorted.runs (.inl (by decide)), hsorted.perm, hsorted.sorted⟩

/-- A child that gives the tuples of a list. -/
def listCursor {α : Type} [Inhabited α] (l : List α) : Cursor (List α) α where
  begin _ := some l
  next s := some s.tail
  isEnd s := s.isEmpty
  current s := s.headD default

theorem listCursor_runs {α : Type} [Inhabited α] (l s : List α) : (listCursor l).Runs s l := by
  have hyields : ∀ rest, (listCursor l).Yields rest rest := by
    intro rest
    induction rest with
    | nil => exact .done rfl
    | cons a rest ih => exact .tuple rfl rfl ih
  exact ⟨l, rfl, hyields l⟩

/-- `List.mergeSort` is such a sort. -/
def mergeStdSort (α : Type) : StdSort α where
  sort lt l := l.mergeSort fun a b => !lt b a
  perm _ _ l := List.mergeSort_perm l _
  sorted lt hlt l := by
    refine (List.pairwise_mergeSort ?_ ?_ l).imp fun h => by simpa using h
    · exact fun a b c hab hbc => hlt.le_trans hab hbc
    · exact fun a b => hlt.le_total a b

/-- Numbers in their order, and a clock that shows one nanosecond after the other. -/
def natSort : SortEnv Nat where
  cmpRecord a b := decide (a < b)
  cmpRawData a b := decide (a ≤ b)
  getTime := Nat.repr
  stdSort := mergeStdSort Nat

theorem natSort_ok : natSort.Ok where
  weak := by
    refine @IsStrictWeakOrder.mk _ _ (@IsStrictOrder.mk _ _ ⟨?_⟩ ⟨?_⟩) ?_
    all_goals simp only [natSort, decide_eq_true_eq]
    all_goals omega
  raw a b := by simp [natSort, ← decide_not]
  times m n h := by
    have hdigits := congrArg (fun s => Nat.ofDigitChars 10 s.toList 0) h
    simpa only [natSort, Nat.toList_repr, Nat.ofDigitChars_toDigits (by decide : 1 < 10) (by decide)]
      using hdigits

/-- Three runs, which are merged. -/
theorem sort_executor_sorts_descending : ∃ bound, ∀ fuel ≥ bound, ∃ ex,
    SortExecutor.new natSort (listCursor (List.range 5000).reverse) fuel [] ⟨fun _ => none, 0⟩ = some ex ∧
      (SortExecutor.cursor (-1)).Runs ex (List.range 5000) := by
  obtain ⟨bound, h⟩ := sort_executor_sorts natSort natSort_ok (listCursor (List.range 5000).reverse) []
    (List.range 5000).reverse (listCursor_runs _ _) ⟨fun _ => none, 0⟩ fun _ => rfl
  refine ⟨bound, fun fuel hfuel => ?_⟩
  obtain ⟨ex, out, hnew, hruns, hperm, hsorted⟩ := h fuel hfuel
  have hout : out = List.range 5000 := by
    refine @List.Perm.eq_of_pairwise _ (fun a b => a ≤ b) _ _ ?_ ?_ List.pairwise_le_range
      (hperm.trans (List.reverse_perm _))
    · exact fun a b _ _ hab hba => Nat.le_antisymm hab hba
    · exact hsorted.imp fun h => by simpa [natSort] using h
  exact ⟨ex, hnew, hout ▸ hruns⟩

end Rmdb
