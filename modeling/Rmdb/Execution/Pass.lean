-- SUMMARY: What one pass of a sequential scan, a nested loop join and a projection yields.
import Rmdb.Common.Bytes
import Rmdb.Execution.QueryExecutor

/-!
# One pass of an executor

A scan yields the records of its table that pass its conditions, whatever state it is opened
in. A join yields the join of what its children yield, block by block, if it is opened for the
first time; to be opened again for the next block, its right child must not be a join. A
projection yields the projections of what its child yields.
-/

namespace Rmdb

-- ---------------------------------------------------------------------------
-- Sequential scans
-- ---------------------------------------------------------------------------

namespace RmFileHandle

/-- The records on page `i`. -/
def pageRecords (f : RmFileHandle) (i : PageNo) : List RmRecord :=
  (RmScan.slotsFrom (f.pages i) f.numRecordsPerPage.toNat 0).map fun s : Nat => (f.pages i).slots s

/-- The records on `left` pages from page `i` on. -/
def recordsFrom (f : RmFileHandle) : Nat → PageNo → List RmRecord
  | 0, _ => []
  | left + 1, i => f.pageRecords i ++ recordsFrom f left (i + 1)

/-- The records of the file, in the order of a scan. -/
def records (f : RmFileHandle) : List RmRecord := f.recordsFrom (f.numPages - 1).toNat 1

variable {f : RmFileHandle}

/-- These are the records at the rids that a scan visits. -/
theorem records_eq : f.records =
    (RmScan.ridsFrom f (f.numPages - 1).toNat 1 0).map fun rid => (f.pages rid.pageNo).slots rid.slotNo := by
  have hfrom : ∀ left i, f.recordsFrom left i =
      (RmScan.ridsFrom f left i 0).map fun rid => (f.pages rid.pageNo).slots rid.slotNo := by
    intro left
    induction left with
    | zero => intro i; rfl
    | succ left ih =>
      intro i
      simp [recordsFrom, RmScan.ridsFrom, pageRecords, ih, Function.comp_def]
  exact hfrom _ _

/-- The header of a page counts the slots that hold records. -/
def Counted (f : RmFileHandle) : Prop :=
  ∀ i, f.InFile i → (f.pages i).numRecords =
    (RmScan.slotsFrom (f.pages i) f.numRecordsPerPage.toNat 0).length

theorem Ok.counted {chain : List PageNo} (h : f.Ok chain) : f.Counted := by
  intro i hi
  rw [h.count i hi]
  have hnodup : ((RmScan.slotsFrom (f.pages i) f.numRecordsPerPage.toNat 0).map Int.ofNat).Nodup :=
    List.Nodup.map (fun _ _ => Int.ofNat.inj)
      (List.Pairwise.imp Nat.ne_of_lt RmScan.slotsFrom_sorted)
  have hused : f.used i =
      ((RmScan.slotsFrom (f.pages i) f.numRecordsPerPage.toNat 0).map Int.ofNat).toFinset := by
    ext s
    simp only [used, Finset.mem_filter, mem_slotNos, List.mem_toFinset, List.mem_map,
      RmScan.mem_slotsFrom]
    constructor
    · rintro ⟨⟨h₀, h₁⟩, hbit⟩
      exact ⟨s.toNat, ⟨by omega, by omega, by rwa [Int.toNat_of_nonneg h₀]⟩, Int.toNat_of_nonneg h₀⟩
    · rintro ⟨n, ⟨-, hn, hbit⟩, rfl⟩
      exact ⟨⟨Int.natCast_nonneg n, by simp only [Int.ofNat_eq_natCast]; omega⟩, hbit⟩
  rw [hused, List.toFinset_card_of_nodup hnodup, List.length_map]

end RmFileHandle

namespace SeqScan

variable {table : TableFile} {conds : List JoinCondition} {keep : RmRecord → Bool}

theorem slots_eq {page : RmPage} {left j room : Nat}
    (h : (RmScan.slotsFrom page left j).length ≤ room) :
    slots page left j room = RmScan.slotsFrom page left j := by
  induction left generalizing j room with
  | zero => rfl
  | succ left ih =>
    cases room with
    | zero =>
      rw [List.length_eq_zero_iff.mp (Nat.le_zero.mp h)]
      rfl
    | succ room =>
      cases hbit : page.bitmap j with
      | true =>
        simp only [RmScan.slotsFrom, hbit, if_true, List.length_cons] at h
        simp only [slots, RmScan.slotsFrom, hbit, if_true, ih (Nat.le_of_succ_le_succ h)]
      | false =>
        simp only [RmScan.slotsFrom, hbit, Bool.false_eq_true, if_false] at h
        simp only [slots, RmScan.slotsFrom, hbit, Bool.false_eq_true, if_false, ih h]

theorem collect_eq {page : RmPage} {l : List Nat}
    (htest : ∀ s ∈ l, testAll (fun c => c.testRecord table.cols (page.slots s)) conds =
      some (keep (page.slots s))) :
    collect table conds page l = some ((l.map fun s : Nat => page.slots s).filter keep) := by
  induction l with
  | nil => rfl
  | cons s l ih =>
    obtain ⟨hs, hl⟩ := List.forall_mem_cons.mp htest
    simp only [collect, hs, ih hl, Option.bind_eq_bind, Option.bind_some, List.map_cons,
      List.filter_cons]
    rfl

/-- From a page that is in the buffer: the rest of the buffer, and what the next pages yield. -/
theorem buffer_yields {i : PageNo} {rest : List RmRecord}
    (hrest : ∀ s : SeqScan, s.isEnd = false → ∃ s', pageLoop table conds s
      (table.file.numPages - (i + 1)).toNat (i + 1) = some s' ∧ (executor table conds).Yields s' rest)
    (buffer : List RmRecord) (s : SeqScan) (hend : s.isEnd = false) (hpage : s.currPage = i)
    (hne : buffer ≠ []) (hbuffer : s.tupleBuffer.drop s.bufferIdx = buffer) :
    (executor table conds).Yields s (buffer ++ rest) := by
  induction buffer generalizing s with
  | nil => exact absurd rfl hne
  | cons r buffer ih =>
    have hlt : s.bufferIdx < s.tupleBuffer.length := by
      by_contra hge
      rw [List.drop_of_length_le (by omega)] at hbuffer
      cases hbuffer
    have hcurrent : (executor table conds).current s = r := by
      have hget : s.tupleBuffer[s.bufferIdx]? = some r := by
        rw [← List.head?_drop, hbuffer, List.head?_cons]
      simp only [executor, List.getD_eq_getElem?_getD, hget, Option.getD_some]
    have hdrop : s.tupleBuffer.drop (s.bufferIdx + 1) = buffer := by
      rw [← List.drop_drop, hbuffer, List.drop_one, List.tail_cons]
    rw [← hcurrent]
    by_cases hlast : s.bufferIdx + 1 = s.tupleBuffer.length
    · have hnil : buffer = [] := by
        rw [← hdrop, hlast, List.drop_length]
      obtain ⟨s', hs', hyields⟩ :=
        hrest { s with tupleBuffer := [], bufferIdx := s.bufferIdx + 1 } hend
      rw [hnil, List.singleton_append]
      refine .tuple hend ?_ hyields
      rw [← hpage] at hs'
      simp only [executor, nextTuple, hlast, if_true]
      rw [← hlast]
      exact hs'
    · have hnext : (executor table conds).next s = some { s with bufferIdx := s.bufferIdx + 1 } := by
        simp only [executor, nextTuple, hlast, if_false]
      refine .tuple hend hnext (ih _ hend hpage ?_ hdrop)
      rintro rfl
      have hlen := congrArg List.length hdrop
      simp only [List.length_drop, List.length_nil] at hlen
      omega

theorem pageLoop_yields (hcounted : table.file.Counted)
    (htest : ∀ r ∈ table.file.records,
      testAll (fun c => c.testRecord table.cols r) conds = some (keep r))
    (left : Nat) {i : Int} (hi : 1 ≤ i) (hleft : left = (table.file.numPages - i).toNat)
    (hsub : ∀ r ∈ table.file.recordsFrom left i, r ∈ table.file.records)
    (s : SeqScan) (hend : s.isEnd = false) :
    ∃ s', pageLoop table conds s left i = some s' ∧
      (executor table conds).Yields s' ((table.file.recordsFrom left i).filter keep) := by
  induction left generalizing i s with
  | zero => exact ⟨_, rfl, .done rfl⟩
  | succ left ih =>
    have hin : table.file.InFile i := ⟨hi, by show i < table.file.numPages; omega⟩
    have hslots : slots (table.file.pages i) table.file.numRecordsPerPage.toNat 0
        (table.file.pages i).numRecords.toNat =
        RmScan.slotsFrom (table.file.pages i) table.file.numRecordsPerPage.toNat 0 := by
      refine slots_eq ?_
      have := hcounted i hin
      omega
    have hcollect : collect table conds (table.file.pages i)
        (RmScan.slotsFrom (table.file.pages i) table.file.numRecordsPerPage.toNat 0) =
        some ((table.file.pageRecords i).filter keep) := by
      refine collect_eq fun slot hslot => htest _ (hsub _ ?_)
      exact List.mem_append_left _ (List.mem_map_of_mem hslot)
    have hnext := fun s => @ih (i + 1) (by omega) (by omega)
      (fun r hr => hsub r (List.mem_append_right _ hr)) s
    simp only [pageLoop, hslots, hcollect, Option.bind_eq_bind, Option.bind_some,
      RmFileHandle.recordsFrom, List.filter_append]
    by_cases hnil : (table.file.pageRecords i).filter keep = []
    · rw [hnil]
      exact hnext s hend
    · have hisEmpty : ((table.file.pageRecords i).filter keep).isEmpty = false := by
        simpa using hnil
      rw [hisEmpty]
      refine ⟨_, rfl, ?_⟩
      have hleft' : left = (table.file.numPages - (i + 1)).toNat := by omega
      exact buffer_yields (hleft' ▸ hnext) _ _ hend rfl hnil rfl

/-- A scan that is opened, in whatever state, yields the records that pass its conditions. -/
theorem runs (hcounted : table.file.Counted)
    (htest : ∀ r ∈ table.file.records,
      testAll (fun c => c.testRecord table.cols r) conds = some (keep r)) (s : SeqScan) :
    (executor table conds).Runs s (table.file.records.filter keep) :=
  pageLoop_yields hcounted htest _ (by omega) rfl (fun _ hr => hr) _ rfl

end SeqScan

-- ---------------------------------------------------------------------------
-- Nested loop joins
-- ---------------------------------------------------------------------------

namespace NestedLoopJoin

section Loops

variable {test : RmRecord → RmRecord → Option Bool} {keep : RmRecord → RmRecord → Bool}
  {combine : RmRecord → RmRecord → RmRecord}

/-- What is left of two blocks from tuple `i` on the left and tuple `j` on the right. -/
def blockRest (keep : RmRecord → RmRecord → Bool) (combine : RmRecord → RmRecord → RmRecord)
    (rs : List RmRecord) : List RmRecord → Nat → List RmRecord
  | [], _ => []
  | l :: ls, j => ((rs.drop j).filter (keep l)).map (combine l) ++ joined keep combine ls rs

theorem blockRest_zero (rs ls : List RmRecord) :
    blockRest keep combine rs ls 0 = joined keep combine ls rs := by
  cases ls with
  | nil => rfl
  | cons l ls => rw [blockRest, joined_cons, List.drop_zero]

theorem innerLoop_eq {l : RmRecord} {rs : List RmRecord}
    (htest : ∀ r ∈ rs, test l r = some (keep l r)) (j : Nat) :
    (innerLoop test l rs j = some none ∧ rs.filter (keep l) = []) ∨
      ∃ k r, rs[k]? = some r ∧ innerLoop test l rs j = some (some (j + k)) ∧
        rs.filter (keep l) = r :: (rs.drop (k + 1)).filter (keep l) := by
  induction rs generalizing j with
  | nil => exact .inl ⟨rfl, rfl⟩
  | cons r rs ih =>
    obtain ⟨hr, hrs⟩ := List.forall_mem_cons.mp htest
    cases hkeep : keep l r with
    | true =>
      refine .inr ⟨0, r, rfl, ?_, ?_⟩
      · simp [innerLoop, hr, hkeep]
      · simp [hkeep]
    | false =>
      have hloop : innerLoop test l (r :: rs) j = innerLoop test l rs (j + 1) := by
        simp [innerLoop, hr, hkeep]
      have hfilter : (r :: rs).filter (keep l) = rs.filter (keep l) := by
        simp [hkeep]
      rw [hloop, hfilter]
      refine (ih hrs (j + 1)).imp_right ?_
      rintro ⟨k, r', hk, hfound, hrest⟩
      refine ⟨k + 1, r', by simpa using hk, ?_, by simpa using hrest⟩
      rw [hfound, Nat.add_right_comm, Nat.add_assoc]

/-- The two `for` loops find the first pair of the blocks that passes. -/
theorem outerLoop_eq {rs : List RmRecord} (ls : List RmRecord)
    (htest : ∀ l ∈ ls, ∀ r ∈ rs, test l r = some (keep l r)) (i j : Nat) :
    (outerLoop test rs ls i j = some none ∧ blockRest keep combine rs ls j = []) ∨
      ∃ m k l r, ls[m]? = some l ∧ rs[k]? = some r ∧
        outerLoop test rs ls i j = some (some (i + m, k)) ∧
        blockRest keep combine rs ls j =
          combine l r :: blockRest keep combine rs (ls.drop m) (k + 1) := by
  induction ls generalizing i j with
  | nil => exact .inl ⟨rfl, rfl⟩
  | cons l ls ih =>
    obtain ⟨hl, hls⟩ := List.forall_mem_cons.mp htest
    have hdrop : ∀ r ∈ rs.drop j, test l r = some (keep l r) :=
      fun r hr => hl r (List.mem_of_mem_drop hr)
    rcases innerLoop_eq hdrop j with ⟨hinner, hnil⟩ | ⟨k, r, hk, hinner, hcons⟩
    · have hloop : outerLoop test rs (l :: ls) i j = outerLoop test rs ls (i + 1) 0 := by
        simp [outerLoop, hinner]
      have hrest : blockRest keep combine rs (l :: ls) j = blockRest keep combine rs ls 0 := by
        rw [blockRest, hnil, List.map_nil, List.nil_append, blockRest_zero]
      rw [hloop, hrest]
      refine (ih hls (i + 1) 0).imp_right ?_
      rintro ⟨m, k, l', r, hm, hk, hfound, hcons⟩
      refine ⟨m + 1, k, l', r, by simpa using hm, hk, ?_, by simpa using hcons⟩
      rw [hfound, Nat.add_right_comm, Nat.add_assoc]
    · refine .inr ⟨0, j + k, l, r, rfl, ?_, ?_, ?_⟩
      · rw [← hk, List.getElem?_drop]
      · simp [outerLoop, hinner]
      · rw [blockRest, hcons, List.map_cons, List.cons_append, List.drop_zero, blockRest,
          List.drop_drop, Nat.add_assoc]

end Loops

variable {σ τ : Type} {left : AbstractExecutor σ} {right : AbstractExecutor τ}
  {conds : List JoinCondition} {keep : RmRecord → RmRecord → Bool}

/-- A join in the middle of a pass: `ls` is still to come on the left and `rs` on the right. -/
structure Mid (left : AbstractExecutor σ) (right : AbstractExecutor τ) (s : NestedLoopJoin σ τ)
    (ls rs : List RmRecord) : Prop where
  isEnd : s.isEnd = false
  reached : right.Reached right.initial s.right
  left : left.Yields s.left ls
  right : right.Yields s.right rs

/-- What a join still yields: the rest of its blocks, its left block with what is to come on the
right, and what is to come on the left with all of the right. -/
def rest (left : AbstractExecutor σ) (right : AbstractExecutor τ)
    (keep : RmRecord → RmRecord → Bool) (s : NestedLoopJoin σ τ) (ls rs all : List RmRecord) :
    List RmRecord :=
  blockRest keep (combine left right) s.rightSave (s.leftSave.drop s.leftIndex) s.rightIndex ++
    (joined keep (combine left right) s.leftSave rs ++ joined keep (combine left right) ls all)

/-- The loop of a join, from the middle of a pass. `m` bounds the number of its rounds, and each
call of `nextTuple` may take `fuel` of them. -/
theorem loop_yields {L R all : List RmRecord} {fuel : Nat}
    (htest : ∀ l ∈ L, ∀ r ∈ R, test left right conds l r = some (keep l r))
    (hall : ∀ r ∈ all, r ∈ R) (m : Nat) (hfuel : m < fuel) :
    ∀ (s : NestedLoopJoin σ τ) (ls rs : List RmRecord), Mid left right s ls rs →
      (∀ l ∈ s.leftSave, l ∈ L) → (∀ l ∈ ls, l ∈ L) →
      (∀ r ∈ s.rightSave, r ∈ R) → (∀ r ∈ rs, r ∈ R) →
      (ls ≠ [] → right.Reopens right.initial all) →
      ls.length * (all.length + 2) + rs.length ≤ m → ∀ k, m < k →
      ∃ s' out, loop left right conds k s = some s' ∧
        (executor left right conds fuel).Yields s' out ∧
        out.Perm (rest left right keep s ls rs all) := by
  induction m using Nat.strong_induction_on with
  | _ m ih =>
  intro s ls rs hmid hL hls hR hrs hrestart hm
  -- The rest of the two blocks gets shorter with every tuple found.
  induction hn : (blockRest keep (combine left right) s.rightSave (s.leftSave.drop s.leftIndex)
      s.rightIndex).length generalizing s with
  | zero =>
    intro k hk
    obtain ⟨k, rfl⟩ : ∃ k', k = k' + 1 := ⟨k - 1, by omega⟩
    have hnil := List.length_eq_zero_iff.mp hn
    have houter : outerLoop (test left right conds) s.rightSave (s.leftSave.drop s.leftIndex)
        s.leftIndex s.rightIndex = some none := by
      rcases outerLoop_eq (s.leftSave.drop s.leftIndex)
        (fun l hl r hr => htest l (hL l (List.mem_of_mem_drop hl)) r (hR r hr))
        s.leftIndex s.rightIndex with ⟨houter, -⟩ | ⟨_, _, _, _, -, -, -, hcons⟩
      · exact houter
      · cases hnil.symm.trans hcons
    obtain ⟨r, hfill, hright⟩ := hmid.right.fill innerBufferSize
    rw [rest, hnil, List.nil_append]
    cases rs with
    | cons r₀ rs₀ =>
      -- The next block on the right.
      have hlen : ls.length * (all.length + 2) + ((r₀ :: rs₀).drop innerBufferSize).length < m := by
        simp only [List.length_drop, List.length_cons, innerBufferSize] at hm ⊢
        omega
      have hloop : loop left right conds (k + 1) s = loop left right conds k { s with
          right := r, leftIndex := 0, rightSave := (r₀ :: rs₀).take innerBufferSize,
          rightIndex := 0 } := by
        have hempty : ((r₀ :: rs₀).take innerBufferSize).isEmpty = false := rfl
        rw [loop]
        simp only [houter, hfill, hempty, Option.bind_eq_bind, Option.bind_some, Bool.false_eq_true,
          if_false]
      obtain ⟨s', out, hs', hyields, hperm⟩ := ih _ hlen (by omega) { s with
          right := r, leftIndex := 0, rightSave := (r₀ :: rs₀).take innerBufferSize,
          rightIndex := 0 } ls ((r₀ :: rs₀).drop innerBufferSize)
        ⟨hmid.isEnd, hmid.reached.fill hfill, hmid.left, hright⟩ hL hls (fun x hx => hrs x (List.mem_of_mem_take hx))
        (fun x hx => hrs x (List.mem_of_mem_drop hx)) hrestart (Nat.le_refl _) k (by omega)
      refine ⟨s', out, hloop.trans hs', hyields, hperm.trans ?_⟩
      rw [rest, List.drop_zero, blockRest_zero, ← List.append_assoc]
      refine List.Perm.append_right _ ?_
      have hcut := @joined_append_right _ _ _ keep (combine left right) s.leftSave
        ((r₀ :: rs₀).take innerBufferSize) ((r₀ :: rs₀).drop innerBufferSize)
      rwa [List.take_append_drop] at hcut
    | nil =>
      obtain ⟨l, hfillLeft, hleft⟩ := hmid.left.fill outerBufferSize
      rw [joined_nil_right, List.nil_append]
      cases ls with
      | nil =>
        refine ⟨{ s with
          left := l, right := r, leftSave := [], leftIndex := 0, rightSave := [], rightIndex := 0,
          isEnd := true }, [], ?_, .done rfl, List.Perm.refl _⟩
        rw [loop]
        simp [houter, hfill, hfillLeft]
      | cons l₀ ls₀ =>
        -- The next block on the left, and the right side anew.
        obtain ⟨r', hbegin, hall'⟩ := hrestart (List.cons_ne_nil _ _) r (hmid.reached.fill hfill)
        obtain ⟨r'', hfill', hright'⟩ := hall'.fill innerBufferSize
        have hlen : ((l₀ :: ls₀).drop outerBufferSize).length * (all.length + 2) +
            (all.drop innerBufferSize).length < m := by
          have hle : ((l₀ :: ls₀).drop outerBufferSize).length ≤ ls₀.length := by
            simp only [List.length_drop, List.length_cons, outerBufferSize]
            omega
          have hmul := Nat.mul_le_mul_right (all.length + 2) hle
          simp only [List.length_cons, Nat.succ_mul, List.length_drop, List.length_nil] at hm hmul ⊢
          omega
        have hloop : loop left right conds (k + 1) s = loop left right conds k { s with
            left := l, right := r'', leftSave := (l₀ :: ls₀).take outerBufferSize, leftIndex := 0,
            rightSave := all.take innerBufferSize, rightIndex := 0 } := by
          have hempty : ((l₀ :: ls₀).take outerBufferSize).isEmpty = false := rfl
          rw [loop]
          simp only [houter, hfill, hfillLeft, hbegin, hfill', hempty, Option.bind_eq_bind,
            Option.bind_some, List.take_nil, List.isEmpty_nil, if_true, Bool.false_eq_true, if_false]
        obtain ⟨s', out, hs', hyields, hperm⟩ := ih _ hlen (by omega) { s with
            left := l, right := r'', leftSave := (l₀ :: ls₀).take outerBufferSize, leftIndex := 0,
            rightSave := all.take innerBufferSize, rightIndex := 0 }
          ((l₀ :: ls₀).drop outerBufferSize) (all.drop innerBufferSize)
          ⟨hmid.isEnd, ((hmid.reached.fill hfill).begin hbegin).fill hfill', hleft, hright'⟩ (fun x hx => hls x (List.mem_of_mem_take hx))
          (fun x hx => hls x (List.mem_of_mem_drop hx))
          (fun x hx => hall x (List.mem_of_mem_take hx))
          (fun x hx => hall x (List.mem_of_mem_drop hx))
          (fun _ => hrestart (List.cons_ne_nil _ _)) (Nat.le_refl _) k (by omega)
        refine ⟨s', out, hloop.trans hs', hyields, hperm.trans ?_⟩
        rw [rest, List.drop_zero, blockRest_zero, ← List.append_assoc]
        have hcut := @joined_append_right _ _ _ keep (combine left right)
          ((l₀ :: ls₀).take outerBufferSize) (all.take innerBufferSize) (all.drop innerBufferSize)
        rw [List.take_append_drop] at hcut
        refine (hcut.append_right _).trans ?_
        rw [← joined_append_left, List.take_append_drop]
  | succ n ihn =>
    intro k hk
    obtain ⟨k, rfl⟩ : ∃ k', k = k' + 1 := ⟨k - 1, by omega⟩
    rcases @outerLoop_eq _ _ (combine left right) _ (s.leftSave.drop s.leftIndex)
        (fun l hl r hr => htest l (hL l (List.mem_of_mem_drop hl)) r (hR r hr))
        s.leftIndex s.rightIndex with ⟨-, hnil⟩ | ⟨i, j, l, r, hl, hr, houter, hcons⟩
    · rw [hnil] at hn
      cases hn
    · -- A tuple is found; `nextTuple` goes on behind it.
      have hloop : loop left right conds (k + 1) s =
          some { s with leftIndex := s.leftIndex + i, rightIndex := j } := by
        rw [loop]
        simp [houter]
      have hnext := ihn { s with leftIndex := s.leftIndex + i, rightIndex := j + 1 }
        ⟨hmid.isEnd, hmid.reached, hmid.left, hmid.right⟩ hL hR ?_ fuel hfuel
      · obtain ⟨s', out, hs', hyields, hperm⟩ := hnext
        have hcurrent : (executor left right conds fuel).current
            { s with leftIndex := s.leftIndex + i, rightIndex := j } = combine left right l r := by
          rw [List.getElem?_drop] at hl
          simp [executor, List.getD_eq_getElem?_getD, hl, hr]
        refine ⟨_, combine left right l r :: out, hloop, ?_, ?_⟩
        · rw [← hcurrent]
          exact .tuple hmid.isEnd hs' hyields
        · rw [rest, hcons, List.cons_append, List.drop_drop]
          exact hperm.cons _
      · rw [hcons, List.length_cons, List.drop_drop] at hn
        exact Nat.succ.inj hn

/-- Without tuples on the left a join does not open its right child. -/
theorem runs_nil {fuel : Nat} {s : NestedLoopJoin σ τ} (hleft : left.Runs s.left []) :
    (executor left right conds fuel).Runs s [] := by
  obtain ⟨l, hbeginLeft, hyieldsLeft⟩ := hleft
  obtain ⟨l', hfillLeft, -⟩ := hyieldsLeft.fill outerBufferSize
  refine ⟨{ s with left := l', leftSave := [], leftIndex := 0, isEnd := true }, ?_, .done rfl⟩
  simp [executor, beginTuple, hbeginLeft, hfillLeft]

/-- A join that is opened for the first time yields the join of what its children yield. Its right
child is opened again only if there are more tuples on the left than fit into the buffer. -/
theorem runs {ls all : List RmRecord} {fuel : Nat} {s : NestedLoopJoin σ τ}
    (htest : ∀ l ∈ ls, ∀ r ∈ all, test left right conds l r = some (keep l r))
    (hend : s.isEnd = false) (hleft : left.Runs s.left ls) (hright : right.Runs s.right all)
    (hreached : right.Reached right.initial s.right)
    (hrestart : outerBufferSize < ls.length → all ≠ [] → right.Reopens right.initial all)
    (hfuel : ls.length * (all.length + 2) + all.length < fuel) :
    ∃ out, (executor left right conds fuel).Runs s out ∧
      out.Perm (joined keep (combine left right) ls all) := by
  cases ls with
  | nil => exact ⟨[], runs_nil hleft, List.Perm.refl _⟩
  | cons l₀ ls₀ =>
    obtain ⟨l, hbeginLeft, hyieldsLeft⟩ := hleft
    obtain ⟨l', hfillLeft, hleft'⟩ := hyieldsLeft.fill outerBufferSize
    have hemptyLeft : ((l₀ :: ls₀).take outerBufferSize).isEmpty = false := rfl
    obtain ⟨r, hbeginRight, hyieldsRight⟩ := hright
    obtain ⟨r', hfillRight, hright'⟩ := hyieldsRight.fill innerBufferSize
    cases all with
    | nil =>
      refine ⟨[], ⟨{ s with
        left := l', leftSave := (l₀ :: ls₀).take outerBufferSize, leftIndex := 0,
        right := r', rightSave := [], isEnd := true }, ?_, .done rfl⟩, ?_⟩
      · simp only [executor, beginTuple, hbeginLeft, hfillLeft, hemptyLeft, hbeginRight, hfillRight,
          Option.bind_eq_bind, Option.bind_some, Bool.false_eq_true, if_false, List.take_nil,
          List.isEmpty_nil, if_true]
        rfl
      · rw [joined_nil_right]
    | cons r₀ rs₀ =>
      have hemptyRight : ((r₀ :: rs₀).take innerBufferSize).isEmpty = false := rfl
      have hbegin : (executor left right conds fuel).begin s = loop left right conds fuel { s with
          left := l', leftSave := (l₀ :: ls₀).take outerBufferSize, leftIndex := 0,
          right := r', rightSave := (r₀ :: rs₀).take innerBufferSize, rightIndex := 0 } := by
        simp only [executor, beginTuple, hbeginLeft, hfillLeft, hemptyLeft, hbeginRight, hfillRight,
          hemptyRight, Option.bind_eq_bind, Option.bind_some, Bool.false_eq_true, if_false]
      have hlen : ((l₀ :: ls₀).drop outerBufferSize).length * ((r₀ :: rs₀).length + 2) +
          ((r₀ :: rs₀).drop innerBufferSize).length < fuel := by
        have hmul := Nat.mul_le_mul_right ((r₀ :: rs₀).length + 2)
          (List.drop_sublist outerBufferSize (l₀ :: ls₀)).length_le
        have hle := (List.drop_sublist innerBufferSize (r₀ :: rs₀)).length_le
        omega
      have hmore : (l₀ :: ls₀).drop outerBufferSize ≠ [] → right.Reopens right.initial (r₀ :: rs₀) := by
        intro hne
        refine hrestart ?_ (List.cons_ne_nil _ _)
        by_contra hle
        exact hne (List.drop_of_length_le (by omega))
      obtain ⟨s', out, hs', hyields, hperm⟩ := loop_yields htest (fun _ hr => hr) _ hlen { s with
          left := l', leftSave := (l₀ :: ls₀).take outerBufferSize, leftIndex := 0,
          right := r', rightSave := (r₀ :: rs₀).take innerBufferSize, rightIndex := 0 }
        ((l₀ :: ls₀).drop outerBufferSize) ((r₀ :: rs₀).drop innerBufferSize)
        ⟨hend, (hreached.begin hbeginRight).fill hfillRight, hleft', hright'⟩ (fun x hx => List.mem_of_mem_take hx)
        (fun x hx => List.mem_of_mem_drop hx) (fun x hx => List.mem_of_mem_take hx)
        (fun x hx => List.mem_of_mem_drop hx) hmore (Nat.le_refl _) fuel hlen
      refine ⟨out, ⟨s', hbegin.trans hs', hyields⟩, hperm.trans ?_⟩
      rw [rest, List.drop_zero, blockRest_zero, ← List.append_assoc]
      have hcut := @joined_append_right _ _ _ keep (combine left right)
        ((l₀ :: ls₀).take outerBufferSize) ((r₀ :: rs₀).take innerBufferSize)
        ((r₀ :: rs₀).drop innerBufferSize)
      rw [List.take_append_drop] at hcut
      refine (hcut.append_right _).trans ?_
      rw [← joined_append_left, List.take_append_drop]

theorem loop_isEnd {k : Nat} {s s' : NestedLoopJoin σ τ} (h : loop left right conds k s = some s')
    (hend : s.isEnd = true) : s'.isEnd = true := by
  induction k generalizing s with
  | zero => cases h
  | succ k ih =>
    simp only [loop, Option.bind_eq_bind, Option.bind_eq_some_iff] at h
    obtain ⟨found, -, h⟩ := h
    cases found with
    | some ij =>
      cases h
      exact hend
    | none =>
      obtain ⟨⟨rs, r⟩, -, h⟩ := Option.bind_eq_some_iff.mp h
      split at h
      · obtain ⟨⟨ls, l⟩, -, h⟩ := Option.bind_eq_some_iff.mp h
        split at h
        · cases h
          rfl
        · obtain ⟨_, -, h⟩ := Option.bind_eq_some_iff.mp h
          obtain ⟨_, -, h⟩ := Option.bind_eq_some_iff.mp h
          exact ih h hend
      · exact ih h hend

/-- A join that has come to its end yields nothing more, also when it is opened again. -/
theorem yields_nil_of_isEnd {fuel : Nat} {s s' : NestedLoopJoin σ τ} (hend : s.isEnd = true)
    (h : (executor left right conds fuel).begin s = some s') :
    (executor left right conds fuel).Yields s' [] := by
  refine .done ?_
  simp only [executor, beginTuple, Option.bind_eq_bind, Option.bind_eq_some_iff] at h
  obtain ⟨_, -, ⟨ls, _⟩, -, h⟩ := h
  split at h
  · cases h
    rfl
  · obtain ⟨_, -, h⟩ := Option.bind_eq_some_iff.mp h
    obtain ⟨⟨rs, _⟩, -, h⟩ := Option.bind_eq_some_iff.mp h
    split at h
    · cases h
      rfl
    · exact loop_isEnd h hend

end NestedLoopJoin

-- ---------------------------------------------------------------------------
-- Projections
-- ---------------------------------------------------------------------------

namespace Projection

variable {prevCols : List TabColMeta} {selCols : List TabCol}
  {cols : List (TabColMeta × TabColMeta)}

/-- The selected columns of a record, one after the other. -/
def project (cols : List (TabColMeta × TabColMeta)) (record : RmRecord) : RmRecord :=
  cols.flatMap fun col => slice record col.1.offset col.1.len

theorem length_project (record : RmRecord) : (project cols record).length = len cols := by
  simp [project, len, List.length_flatMap]

/-- The loop over the columns leaves what is in front of them, and copies all of them. -/
theorem copy_eq {offset : Nat} (h : select prevCols selCols offset = some cols) (record : RmRecord)
    (data : Nat → UInt8) :
    (∀ i < offset, copy record cols data i = data i) ∧
      (List.range' offset (len cols)).map (copy record cols data) = project cols record := by
  induction selCols generalizing offset cols data with
  | nil =>
    cases h
    exact ⟨fun _ _ => rfl, rfl⟩
  | cons target selCols ih =>
    simp only [select, Option.bind_eq_bind, Option.bind_eq_some_iff] at h
    obtain ⟨col, -, rest, hrest, heq⟩ := h
    cases heq
    obtain ⟨hfront, hcopied⟩ := ih hrest
      (copyTo data offset (slice record col.offset col.len) col.len)
    refine ⟨?_, ?_⟩
    · intro i hi
      rw [copy, hfront i (by omega), copyTo, if_neg (by omega)]
    · have hlen : len ((col, { col with offset := offset }) :: rest) = col.len + len rest := by
        simp [len]
      rw [hlen, ← List.range'_append_1, List.map_append, copy, hcopied, project, project,
        List.flatMap_cons]
      congr 1
      apply List.ext_getElem
      · simp
      · intro i h₁ h₂
        simp only [List.length_map, List.length_range'] at h₁
        have hi : i < (slice record col.offset col.len).length := by simpa using h₁
        simp only [List.getElem_map, List.getElem_range', Nat.one_mul]
        rw [hfront _ (by omega), copyTo, if_pos (by omega), Nat.add_sub_cancel_left,
          List.getD_eq_getElem?_getD, List.getElem?_eq_getElem hi, Option.getD_some]

theorem yields {σ : Type} {prev : AbstractExecutor σ} (h : select prevCols selCols 0 = some cols)
    {s : σ} {rs : List RmRecord} (hs : prev.Yields s rs) (data : Nat → UInt8) :
    (executor prev cols).Yields (load prev cols s data) (rs.map (project cols)) := by
  induction hs generalizing data with
  | done hend => exact .done hend
  | @tuple s s' rs hend hnext _ ih =>
    have hcurrent : (executor prev cols).current (load prev cols s data) =
        project cols (prev.current s) := by
      have hcopy := (copy_eq h (prev.current s) data).2
      simp only [executor, load, hend, Bool.false_eq_true, if_false, List.range_eq_range']
      exact hcopy
    rw [List.map_cons, ← hcurrent]
    refine .tuple hend ?_ (ih (load prev cols s data).data)
    simp only [executor, load, hnext, Option.map_some]

/-- A projection yields the projections of what its child yields. -/
theorem runs {σ : Type} {prev : AbstractExecutor σ} (h : select prevCols selCols 0 = some cols)
    {s : Projection σ} {rs : List RmRecord} (hs : prev.Runs s.prev rs) :
    (executor prev cols).Runs s (rs.map (project cols)) := by
  obtain ⟨p, hbegin, hyields⟩ := hs
  exact ⟨load prev cols p s.data, by simp only [executor, hbegin, Option.map_some],
    yields h hyields s.data⟩

end Projection

end Rmdb
