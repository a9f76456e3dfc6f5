-- SUMMARY: What a nested loop join yields when it is opened again after its end.
import Rmdb.Execution.JoinCorrect

/-!
# Opening a join again

The planner makes joins the inner child of other joins, so a join is opened again for every block
of the outer side. The first pass of a join is complete. `is_end_` is set at its end and
`beginTuple` does not clear it, so every later pass is empty.
-/

namespace Rmdb

namespace NestedLoopJoin

variable {σ τ : Type} {left : AbstractExecutor σ} {right : AbstractExecutor τ}
  {conds : List JoinCondition} {fuel : Nat}

/-- The children are only opened and moved on. -/
def ChildrenReached (left : AbstractExecutor σ) (right : AbstractExecutor τ)
    (s : NestedLoopJoin σ τ) : Prop :=
  left.Reached left.initial s.left ∧ right.Reached right.initial s.right

theorem loop_childrenReached {k : Nat} {s s' : NestedLoopJoin σ τ}
    (h : loop left right conds k s = some s') (hs : ChildrenReached left right s) :
    ChildrenReached left right s' := by
  induction k generalizing s with
  | zero => cases h
  | succ k ih =>
    simp only [loop, Option.bind_eq_bind, Option.bind_eq_some_iff] at h
    obtain ⟨found, -, h⟩ := h
    cases found with
    | some ij =>
      cases h
      exact hs
    | none =>
      obtain ⟨⟨rs, r⟩, hfill, h⟩ := Option.bind_eq_some_iff.mp h
      split at h
      · obtain ⟨⟨ls, l⟩, hfillLeft, h⟩ := Option.bind_eq_some_iff.mp h
        split at h
        · cases h
          exact ⟨hs.1.fill hfillLeft, hs.2.fill hfill⟩
        · obtain ⟨r', hbegin, h⟩ := Option.bind_eq_some_iff.mp h
          obtain ⟨⟨_, _⟩, hfill', h⟩ := Option.bind_eq_some_iff.mp h
          exact ih h ⟨hs.1.fill hfillLeft, ((hs.2.fill hfill).begin hbegin).fill hfill'⟩
      · exact ih h ⟨hs.1, hs.2.fill hfill⟩

theorem beginTuple_childrenReached {s s' : NestedLoopJoin σ τ}
    (h : beginTuple left right conds fuel s = some s') (hs : ChildrenReached left right s) :
    ChildrenReached left right s' := by
  simp only [beginTuple, Option.bind_eq_bind, Option.bind_eq_some_iff] at h
  obtain ⟨l, hbeginLeft, ⟨ls, _⟩, hfillLeft, h⟩ := h
  split at h
  · cases h
    exact ⟨(hs.1.begin hbeginLeft).fill hfillLeft, hs.2⟩
  · obtain ⟨r, hbegin, h⟩ := Option.bind_eq_some_iff.mp h
    obtain ⟨⟨rs, _⟩, hfill, h⟩ := Option.bind_eq_some_iff.mp h
    have hchildren := And.intro ((hs.1.begin hbeginLeft).fill hfillLeft)
      ((hs.2.begin hbegin).fill hfill)
    split at h
    · cases h
      exact hchildren
    · exact loop_childrenReached h hchildren

theorem childrenReached {s : NestedLoopJoin σ τ}
    (h : (executor left right conds fuel).Reached (executor left right conds fuel).initial s) :
    ChildrenReached left right s := by
  induction h with
  | start => exact ⟨.start, .start⟩
  | begin _ hbegin ih => exact beginTuple_childrenReached hbegin ih
  | next _ hnext ih => exact loop_childrenReached hnext ih

/-- The loop does the same whatever `is_end_` is. -/
theorem loop_setEnd (k : Nat) (s : NestedLoopJoin σ τ) :
    loop left right conds k { s with isEnd := true } =
      (loop left right conds k s).map fun t => { t with isEnd := true } := by
  induction k generalizing s with
  | zero => rfl
  | succ k ih =>
    simp only [loop, Option.bind_eq_bind, Option.map_bind]
    congr 1
    funext found
    cases found with
    | some ij => rfl
    | none =>
      simp only [Function.comp_def, Option.map_bind]
      congr 1
      funext found
      obtain ⟨rs, r⟩ := found
      split
      · rw [Option.map_bind]
        congr 1
        funext found
        obtain ⟨ls, l⟩ := found
        simp only [Function.comp_def]
        split
        · rfl
        · simp only [Option.map_bind, Function.comp_def]
          congr 1
          funext r'
          congr 1
          funext found
          obtain ⟨rs', r''⟩ := found
          exact ih { s with
            left := l, right := r'', leftSave := ls, leftIndex := 0, rightSave := rs', rightIndex := 0 }
      · exact ih { s with right := r, leftIndex := 0, rightSave := rs, rightIndex := 0 }

theorem beginTuple_setEnd (s : NestedLoopJoin σ τ) :
    beginTuple left right conds fuel { s with isEnd := true } =
      (beginTuple left right conds fuel s).map fun t => { t with isEnd := true } := by
  simp only [beginTuple, Option.bind_eq_bind, Option.map_bind]
  congr 1
  funext l
  simp only [Function.comp_def, Option.map_bind]
  congr 1
  funext found
  obtain ⟨ls, l'⟩ := found
  split
  · rfl
  · simp only [Option.map_bind, Function.comp_def]
    congr 1
    funext r
    congr 1
    funext found
    obtain ⟨rs, r'⟩ := found
    split
    · rfl
    · exact loop_setEnd fuel { s with
        left := l', leftSave := ls, leftIndex := 0, right := r', rightSave := rs, rightIndex := 0 }

variable {keep : RmRecord → RmRecord → Bool} {L R : List RmRecord}

/-- Opened in a state whose children can be opened, a join that is not at its end gives the join of
what they give, and one that is at its end gives nothing. -/
theorem runs_of_reached (hL : left.Reopens left.initial L) (hR : right.Reopens right.initial R)
    (htest : ∀ l ∈ L, ∀ r ∈ R, test left right conds l r = some (keep l r))
    (hfuel : L.length * (R.length + 2) + R.length < fuel) (s : NestedLoopJoin σ τ)
    (hs : ChildrenReached left right s) :
    (s.isEnd = false → ∃ out, (executor left right conds fuel).Runs s out ∧
      out.Perm (joined keep (combine left right) L R)) ∧
    (s.isEnd = true → (executor left right conds fuel).Runs s []) := by
  have hopen : ∀ s : NestedLoopJoin σ τ, ChildrenReached left right s → s.isEnd = false →
      ∃ out, (executor left right conds fuel).Runs s out ∧
        out.Perm (joined keep (combine left right) L R) :=
    fun s hs hend => runs htest hend (hL _ hs.1) (hR _ hs.2) hs.2 (fun _ _ => hR) hfuel
  refine ⟨hopen s hs, fun hend => ?_⟩
  obtain ⟨out, ⟨s', hbegin, -⟩, -⟩ := hopen { s with isEnd := false } hs rfl
  have hagain : (executor left right conds fuel).begin s = some { s' with isEnd := true } := by
    have heq : s = { ({ s with isEnd := false } : NestedLoopJoin σ τ) with isEnd := true } := by
      rw [← hend]
    rw [heq]
    exact (beginTuple_setEnd _).trans (congrArg _ hbegin)
  exact ⟨_, hagain, .done rfl⟩

theorem runs_nil_iff {ex : Cursor σ RmRecord} {s : σ} (h : ex.Runs s []) {xs : List RmRecord} :
    (∃ ys, ex.Runs s ys ∧ ys.Perm xs) ↔ xs = [] := by
  obtain ⟨s', hbegin, hyields⟩ := h
  constructor
  · rintro ⟨ys, ⟨s'', hbegin', hyields'⟩, hperm⟩
    obtain rfl : s' = s'' := Option.some.inj (hbegin.symm.trans hbegin')
    cases hyields with
    | done hend =>
      cases hyields' with
      | done _ => exact hperm.nil_eq.symm
      | tuple hnot _ _ => cases hend.symm.trans hnot
  · rintro rfl
    exact ⟨[], ⟨s', hbegin, hyields⟩, .nil⟩

/-- The first pass gives the join of what the children give, and the second one nothing. -/
theorem two_passes (hL : left.Reopens left.initial L) (hR : right.Reopens right.initial R)
    (htest : ∀ l ∈ L, ∀ r ∈ R, test left right conds l r = some (keep l r))
    (hfuel : L.length * (R.length + 2) + R.length < fuel) : ∃ out t,
      (executor left right conds fuel).RunsTo (executor left right conds fuel).initial out t ∧
      out.Perm (joined keep (combine left right) L R) ∧ (executor left right conds fuel).Runs t [] := by
  have hreached := runs_of_reached hL hR htest hfuel
  obtain ⟨out, hruns, hperm⟩ := (hreached (executor left right conds fuel).initial ⟨.start, .start⟩).1 rfl
  obtain ⟨t, ht⟩ := hruns.exists_end
  exact ⟨out, t, ht, hperm, (hreached t (childrenReached (ht.reached .start))).2 ht.isEnd⟩

end NestedLoopJoin

/-- A join of children that give the same tuples whenever they are opened gives on its first pass the
pairs that satisfy the conditions, each once. It gives them again when it is opened again exactly if
there are none. -/
theorem nestedLoopJoin_reopened_iff {σ τ : Type} (left : AbstractExecutor σ) (right : AbstractExecutor τ)
    (conds : List JoinCondition) (L R : List RmRecord) (keep : RmRecord → RmRecord → Bool)
    (hL : left.Reopens left.initial L) (hR : right.Reopens right.initial R)
    (htest : ∀ l ∈ L, ∀ r ∈ R, NestedLoopJoin.test left right conds l r = some (keep l r)) :
    ∃ bound, ∀ fuel ≥ bound, ∃ out t,
      (NestedLoopJoin.executor left right conds fuel).RunsTo
        (NestedLoopJoin.executor left right conds fuel).initial out t ∧
      out.Perm (joined keep (NestedLoopJoin.combine left right) L R) ∧
      ((∃ again, (NestedLoopJoin.executor left right conds fuel).Runs t again ∧ again.Perm out) ↔
        ∀ l ∈ L, ∀ r ∈ R, keep l r = false) := by
  refine ⟨L.length * (R.length + 2) + R.length + 1, fun fuel hfuel => ?_⟩
  obtain ⟨out, t, ht, hperm, hnil⟩ :=
    NestedLoopJoin.two_passes hL hR htest (Nat.lt_of_succ_le hfuel)
  refine ⟨out, t, ht, hperm, ?_⟩
  rw [NestedLoopJoin.runs_nil_iff hnil, ← joined_eq_nil_iff]
  exact ⟨fun hout => (hout ▸ hperm).nil_eq.symm, fun hjoin => (hjoin ▸ hperm).eq_nil⟩

/-- A scan of a table with one row. -/
def oneRow (t c : String) (n : UInt8) : AbstractExecutor SeqScan := SeqScan.executor (intTable t c n) []

theorem oneRow_reopens (t c : String) (n : UInt8) :
    (oneRow t c n).Reopens (oneRow t c n).initial [[n, 0, 0, 0]] := by
  obtain ⟨chain, hfile⟩ := (intTable_ok t c n).file
  intro s _
  have hruns := @SeqScan.runs (intTable t c n) [] (fun _ => true) hfile.counted (fun _ _ => rfl) s
  rwa [intTable_records] at hruns

/-- `where a < b` and `where a = b` for a 1 and a 2. -/
def compareJoin (op : CompOp) (fuel : Nat) : AbstractExecutor (NestedLoopJoin SeqScan SeqScan) :=
  NestedLoopJoin.executor (oneRow "t1" "a" 1) (oneRow "t2" "b" 2) [⟨⟨"t1", "a"⟩, op, false, ⟨"t2", "b"⟩, none⟩] fuel

/-- The first join gives a pair, and not again; the second has none. -/
theorem nestedLoopJoin_reopened_compare : ∃ bound, ∀ fuel ≥ bound,
    (∃ t, (compareJoin .lt fuel).RunsTo (compareJoin .lt fuel).initial [[1, 0, 0, 0, 2, 0, 0, 0]] t ∧
      ¬ ∃ again, (compareJoin .lt fuel).Runs t again ∧ again.Perm [[1, 0, 0, 0, 2, 0, 0, 0]]) ∧
    ∃ t, (compareJoin .eq fuel).RunsTo (compareJoin .eq fuel).initial [] t ∧ (compareJoin .eq fuel).Runs t [] := by
  obtain ⟨bound, h⟩ := nestedLoopJoin_reopened_iff (oneRow "t1" "a" 1) (oneRow "t2" "b" 2)
    [⟨⟨"t1", "a"⟩, .lt, false, ⟨"t2", "b"⟩, none⟩] [[1, 0, 0, 0]] [[2, 0, 0, 0]] (fun _ _ => true)
    (oneRow_reopens _ _ _) (oneRow_reopens _ _ _) (by simp; decide)
  obtain ⟨bound', h'⟩ := nestedLoopJoin_reopened_iff (oneRow "t1" "a" 1) (oneRow "t2" "b" 2)
    [⟨⟨"t1", "a"⟩, .eq, false, ⟨"t2", "b"⟩, none⟩] [[1, 0, 0, 0]] [[2, 0, 0, 0]] (fun _ _ => false)
    (oneRow_reopens _ _ _) (oneRow_reopens _ _ _) (by simp; decide)
  refine ⟨max bound bound', fun fuel hfuel => ⟨?_, ?_⟩⟩
  · obtain ⟨out, t, ht, hperm, hiff⟩ := h fuel (le_of_max_le_left hfuel)
    obtain rfl : out = [[1, 0, 0, 0, 2, 0, 0, 0]] := List.perm_singleton.mp hperm
    exact ⟨t, ht, fun hagain => by simpa using hiff.mp hagain⟩
  · obtain ⟨out, t, ht, hperm, hiff⟩ := h' fuel (le_of_max_le_right hfuel)
    obtain rfl : out = [] := hperm.eq_nil
    obtain ⟨again, hagain, hnil⟩ := hiff.mpr (by simp)
    exact ⟨t, ht, hnil.eq_nil ▸ hagain⟩

/-- A join without conditions gives its pair on the first pass only. -/
theorem nestedLoopJoin_second_pass : ∃ fuel t,
    (NestedLoopJoin.executor (oneRow "t1" "a" 1) (oneRow "t2" "b" 2) [] fuel).RunsTo
      (NestedLoopJoin.executor (oneRow "t1" "a" 1) (oneRow "t2" "b" 2) [] fuel).initial
      [[1, 0, 0, 0, 2, 0, 0, 0]] t ∧
    ¬ ∃ again, (NestedLoopJoin.executor (oneRow "t1" "a" 1) (oneRow "t2" "b" 2) [] fuel).Runs t again ∧
      again.Perm [[1, 0, 0, 0, 2, 0, 0, 0]] := by
  obtain ⟨out, t, ht, hperm, hnil⟩ := @NestedLoopJoin.two_passes _ _ (oneRow "t1" "a" 1)
    (oneRow "t2" "b" 2) [] 5 (fun _ _ => true) [[1, 0, 0, 0]] [[2, 0, 0, 0]]
    (oneRow_reopens _ _ _) (oneRow_reopens _ _ _) (fun _ _ _ _ => rfl) (by decide)
  obtain rfl : out = [[1, 0, 0, 0, 2, 0, 0, 0]] := List.perm_singleton.mp hperm
  refine ⟨5, t, ht, ?_⟩
  rw [NestedLoopJoin.runs_nil_iff hnil]
  exact List.cons_ne_nil _ _

end Rmdb
