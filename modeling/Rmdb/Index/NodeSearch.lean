-- SUMMARY: The three searches of `IxNodeHandle` in the keys of a node, and for which nodes they are right.
import Rmdb.Index.IndexHandle
import Rmdb.Index.ValueOrder
import Rmdb.Lib.Cut
import Rmdb.Lib.FloatOrder

/-!
# Searching a node

`lower_bound`, `upper_bound` and `leaf_lookup` halve a closed interval of `int`s and then look at one key
more. They are right where `ix_compare` puts the keys and the target in one order. It does so on `INT` and
`CHAR(n)` columns, and on `FLOAT` columns without NaN. Where it comes to a `BIGINT` or `DATETIME` column
it throws, and so do the searches.
-/

namespace Rmdb

-- ---------------------------------------------------------------------------
-- Node handles
-- ---------------------------------------------------------------------------

/-- What stops a search in a node. -/
inductive NodeError where
  /-- `ix_compare` throws. -/
  | internalError
  /-- A key or rid is read that the node does not have. -/
  | outside (i : Int)
  deriving DecidableEq, Repr

/-- A node, and what searches use of the header of the file: `col_num_`, and `ix_compare` for
`col_types_` and `col_lens_`, which is `none` where it throws. -/
structure IxNodeHandle (K : Type) where
  node : IxNode K
  colNum : Nat
  compare : K → K → Nat → Option Int

namespace IxNodeHandle

variable {K : Type} (h : IxNodeHandle K)

/-- `page_hdr->num_key`. -/
def numKey : Int := h.node.keys.length

def getKey (i : Int) : Except NodeError K :=
  if 0 ≤ i then
    match h.node.keys[i.toNat]? with
    | some k => .ok k
    | none => .error (.outside i)
  else .error (.outside i)

/-- `ix_compare` of the key at `i` and the target. -/
def compareKey (i : Int) (target : K) (pre : Nat) : Except NodeError Int := do
  let k ← h.getKey i
  match h.compare k target pre with
  | some res => return res
  | none => throw .internalError

/-- Whether the key at `mid` is `below` the target, on the way to which `ix_compare` may throw. -/
def testKey (below : Int → Bool) (target : K) (pre : Nat) (mid : Int) : Except NodeError Bool :=
  return below (← h.compareKey mid target pre)

/-- The loop over `[0, num_key - 1]`. -/
def searchLoop (below : Int → Bool) (target : K) (pre : Nat) : Except NodeError Int :=
  BinarySearch.loopM (h.testKey below target pre) h.node.keys.length 0 (h.numKey - 1)

/-- The number of columns that a search compares. -/
def prefixLen (pre : Nat) : Nat := if pre = 0 then h.colNum else pre

/-- The first slot whose key is not `below` the target, or `num_key`. -/
def bound (below : Int → Bool) (target : K) (pre : Nat) : Except NodeError Int := do
  if h.numKey = 0 then return 0
  let pre := h.prefixLen pre
  let r ← h.searchLoop below target pre
  if !below (← h.compareKey r target pre) then return r
  return h.numKey

def lowerBound (target : K) (pre : Nat) : Except NodeError Int := h.bound (fun res => res < 0) target pre

def upperBound (target : K) (pre : Nat) : Except NodeError Int := h.bound (fun res => res ≤ 0) target pre

/-- The slot of the rid that `leaf_lookup` finds. It does not look whether the node is empty. -/
def leafLookup (key : K) : Except NodeError (Option Int) := do
  let pre := h.colNum
  let r ← h.searchLoop (fun res => res < 0) key pre
  if (← h.compareKey r key pre) = 0 then return some r
  return none

/-- The page of the child whose subtree may hold the key. -/
def internalLookup (key : K) (pre : Nat) : Except NodeError PageNo := do
  let slotNo ← h.upperBound key pre
  match h.node.rids[slotNo.toNat]? with
  | some rid => return rid.pageNo
  | none => throw (.outside slotNo)

-- ---------------------------------------------------------------------------
-- What the searches should do
-- ---------------------------------------------------------------------------

/-- The keys do not decrease on the columns that a search compares. -/
def Sorted (pre : Nat) : Prop :=
  h.node.keys.Pairwise fun a b => ∃ res, h.compare a b (h.prefixLen pre) = some res ∧ res ≤ 0

/-- Every key can be compared with the target. -/
def Comparable (target : K) (pre : Nat) : Prop :=
  ∀ k ∈ h.node.keys, (h.compare k target (h.prefixLen pre)).isSome

/-- Whether a key is `below` the target. -/
def isBelow (below : Int → Bool) (target : K) (pre : Nat) (k : K) : Bool :=
  (h.compare k target (h.prefixLen pre)).any below

def count (below : Int → Bool) (target : K) (pre : Nat) : Nat :=
  h.node.keys.countP (h.isBelow below target pre)

/-- The searches for a target are right, and read only keys that there are. -/
structure SearchesRight (target : K) (pre : Nat) : Prop where
  lower : h.lowerBound target pre = .ok (h.count (fun res => res < 0) target pre : Int)
  upper : h.upperBound target pre = .ok (h.count (fun res => res ≤ 0) target pre : Int)
  /-- `leaf_lookup` finds the slot to which `lower_bound` points, if the key there is the target. -/
  lookup : 0 < h.numKey → ∀ i, h.leafLookup target = .ok (some i) ↔
    h.lowerBound target 0 = .ok i ∧ h.compareKey i target h.colNum = .ok 0
  inside : ∀ i, h.searchLoop (fun res => res < 0) target (h.prefixLen pre) ≠ .error (.outside i) ∧
    h.searchLoop (fun res => res ≤ 0) target (h.prefixLen pre) ≠ .error (.outside i) ∧
    h.searchLoop (fun res => res < 0) target h.colNum ≠ .error (.outside i)
  inside_lookup : 0 < h.numKey → ∀ i, h.leafLookup target ≠ .error (.outside i)

-- ---------------------------------------------------------------------------
-- Reading keys
-- ---------------------------------------------------------------------------

variable {h} {target : K} {pre : Nat} {below : Int → Bool} {i : Int}

theorem getKey_nat (i : Nat) (hi : i < h.node.keys.length) : h.getKey i = .ok h.node.keys[i] := by
  simp [getKey, hi]

theorem compareKey_nat (i : Nat) (hi : i < h.node.keys.length) : h.compareKey i target pre =
    match h.compare h.node.keys[i] target pre with
    | some res => .ok res
    | none => .error .internalError := by
  rw [compareKey, getKey_nat i hi]
  rfl

theorem compareKey_ne_outside (hi : 0 ≤ i) (hn : i < h.numKey) (j : Int) :
    h.compareKey i target pre ≠ .error (.outside j) := by
  obtain ⟨i, rfl⟩ := Int.eq_ofNat_of_zero_le hi
  rw [compareKey_nat i (by simpa [numKey] using hn)]
  split <;> simp

theorem testKey_error {e : NodeError} (he : h.testKey below target pre i = .error e) :
    h.compareKey i target pre = .error e := by
  rw [testKey] at he
  cases hcmp : h.compareKey i target pre with
  | error e' =>
    rw [hcmp] at he
    cases he
    rfl
  | ok res =>
    rw [hcmp] at he
    cases he

/-- The loop reads keys of the node only. -/
theorem searchLoop_ne_outside (j : Int) : h.searchLoop below target pre ≠ .error (.outside j) := by
  by_cases hn : h.numKey = 0
  · rw [searchLoop, BinarySearch.loopM_of_le (by omega)]
    simp
  · have hpos : 0 ≤ h.numKey - 1 := by
      have : 0 ≤ h.numKey := Int.natCast_nonneg _
      omega
    intro herror
    refine (BinarySearch.loopM_range (P := fun e => e ≠ .outside j) (m := h.numKey) ?_
      h.node.keys.length 0 (h.numKey - 1) (le_refl _) hpos (by omega)).1 _ herror rfl
    intro i hi hn e he heq
    exact compareKey_ne_outside hi hn j (heq ▸ testKey_error he)

/-- The slot at which the loop ends. -/
theorem searchLoop_range (hpos : 0 < h.numKey) (hi : h.searchLoop below target pre = .ok i) :
    0 ≤ i ∧ i < h.numKey := by
  have hrange := (BinarySearch.loopM_range (P := fun _ => True) (m := h.numKey)
    (fun _ _ _ _ _ => trivial) h.node.keys.length 0 (h.numKey - 1) (le_refl _) (by omega)
    (by omega)).2 i hi
  omega

-- ---------------------------------------------------------------------------
-- Comparable keys
-- ---------------------------------------------------------------------------

theorem compareKey_of_comparable (hcmp : h.Comparable target pre) (below : Int → Bool)
    (i : Nat) (hi : i < h.node.keys.length) : ∃ res,
      h.compareKey i target (h.prefixLen pre) = .ok res ∧
      below res = (h.node.keys[i]?).any (h.isBelow below target pre) := by
  have hsome := hcmp h.node.keys[i] (List.getElem_mem hi)
  obtain ⟨res, hres⟩ := Option.isSome_iff_exists.mp hsome
  refine ⟨res, ?_, ?_⟩
  · rw [compareKey_nat i hi, hres]
  · rw [List.getElem?_eq_getElem hi, Option.any_some, isBelow, hres, Option.any_some]

/-- Where nothing throws, the loop is the loop over the outcomes of the comparisons. -/
theorem searchLoop_eq (hcmp : h.Comparable target pre) (hn : h.node.keys.length ≠ 0) :
    h.searchLoop below target (h.prefixLen pre) =
      .ok (BinarySearch.loop (fun i => (h.node.keys[i]?).any (h.isBelow below target pre))
        h.node.keys.length 0 (h.node.keys.length - 1) : Int) := by
  have hlast : h.numKey - 1 = (h.node.keys.length - 1 : Nat) := by
    rw [numKey]
    omega
  rw [searchLoop, hlast]
  refine BinarySearch.loopM_eq (n := h.node.keys.length) (fun i hi => ?_) _ _ _ (by omega)
  obtain ⟨res, hres, hbelow⟩ := compareKey_of_comparable hcmp below i hi
  rw [testKey, hres, ← hbelow]
  rfl

/-- Where nothing throws, the search is the search for the place where `below` stops. -/
theorem bound_eq (hcmp : h.Comparable target pre) : h.bound below target pre =
    .ok (BinarySearch.searchList (h.isBelow below target pre) h.node.keys : Int) := by
  rw [bound, BinarySearch.searchList, BinarySearch.search]
  by_cases hn : h.node.keys.length = 0
  · rw [if_pos (by simp [numKey, hn]), if_pos hn]
    rfl
  · have hle := BinarySearch.loop_le (fun i => (h.node.keys[i]?).any (h.isBelow below target pre))
      h.node.keys.length 0 (h.node.keys.length - 1)
    rw [if_neg (by simp [numKey, hn]), if_neg hn]
    dsimp only
    rw [searchLoop_eq hcmp hn]
    generalize BinarySearch.loop _ _ _ _ = r at *
    obtain ⟨res, hres, hbelow⟩ := compareKey_of_comparable hcmp below r (by omega)
    simp only [hres, ← hbelow, bind, Except.bind]
    cases below res <;> rfl

/-- If the keys below the target come first, the search ends behind them. -/
theorem bound_eq_count (hcmp : h.Comparable target pre)
    (hcut : h.node.keys.Pairwise fun a b =>
      h.isBelow below target pre b = true → h.isBelow below target pre a = true) :
    h.bound below target pre = .ok (h.count below target pre : Int) := by
  obtain ⟨X, Y, hkeys, hX, hY⟩ := Cut.exists_at hcut
  have hcount : h.count below target pre = X.length := by
    rw [count, hkeys, List.countP_append, List.countP_eq_length.mpr hX,
      List.countP_eq_zero.mpr fun k hk => Bool.not_eq_true _ ▸ hY k hk]
    rfl
  rw [bound_eq hcmp, hkeys, BinarySearch.searchList_append hX hY, hcount]

/-- The search throws where a key cannot be compared and those before and behind it are on their sides. -/
theorem bound_error (i₀ : Nat) (hi₀ : i₀ < h.node.keys.length)
    (hnone : h.compare h.node.keys[i₀] target (h.prefixLen pre) = none)
    (hleft : ∀ i (hi : i < h.node.keys.length), i < i₀ → ∀ res,
      h.compare h.node.keys[i] target (h.prefixLen pre) = some res → below res = true)
    (hright : ∀ i (hi : i < h.node.keys.length), i₀ < i → ∀ res,
      h.compare h.node.keys[i] target (h.prefixLen pre) = some res → below res = false) :
    ∃ e, h.bound below target pre = .error e := by
  have htest : ∀ i (hi : i < h.node.keys.length), ∀ b,
      (∀ res, h.compare h.node.keys[i] target (h.prefixLen pre) = some res → below res = b) →
      (∃ e, h.testKey below target (h.prefixLen pre) i = .error e) ∨
        h.testKey below target (h.prefixLen pre) i = .ok b := by
    intro i hi b hb
    rw [testKey, compareKey_nat i hi]
    cases hres : h.compare h.node.keys[i] target (h.prefixLen pre) with
    | none => exact .inl ⟨.internalError, rfl⟩
    | some res => exact .inr (congrArg Except.ok (hb res hres))
  have hlast : h.numKey - 1 = (h.node.keys.length - 1 : Nat) := by
    rw [numKey]
    omega
  have htest₀ : h.testKey below target (h.prefixLen pre) i₀ = .error .internalError := by
    rw [testKey, compareKey_nat i₀ hi₀, hnone]
    rfl
  obtain ⟨e, he⟩ := BinarySearch.loopM_error (n := h.node.keys.length) ⟨_, htest₀⟩
    (fun i hi => htest i (hi.trans hi₀) true (hleft i (hi.trans hi₀) hi))
    (fun i hi hn => htest i hn false (hright i hn hi))
    h.node.keys.length 0 (h.node.keys.length - 1) (by omega) (Nat.zero_le _) (by omega) (by omega)
  refine ⟨e, ?_⟩
  rw [bound, if_neg (by rw [numKey]; omega)]
  dsimp only
  rw [searchLoop, hlast]
  rw [Nat.cast_zero] at he
  generalize BinarySearch.loopM _ _ _ _ = out at *
  cases out with
  | error e' =>
    cases he
    rfl
  | ok r =>
    have hr := testKey_error he
    simp only [hr, bind, Except.bind]

-- ---------------------------------------------------------------------------
-- `leaf_lookup`
-- ---------------------------------------------------------------------------

theorem compareKey_numKey : h.compareKey h.numKey target pre = .error (.outside h.numKey) := by
  simp [compareKey, getKey, numKey, bind, Except.bind]

/-- `leaf_lookup` and `lower_bound` end their loops at the same key. -/
theorem leafLookup_iff (hpos : 0 < h.numKey) : h.leafLookup target = .ok (some i) ↔
    h.lowerBound target 0 = .ok i ∧ h.compareKey i target h.colNum = .ok 0 := by
  have hpre : h.prefixLen 0 = h.colNum := rfl
  rw [leafLookup, lowerBound, bound, if_neg hpos.ne', hpre]
  cases hloop : h.searchLoop (fun res => res < 0) target h.colNum with
  | error e => simp [bind, Except.bind, hloop]
  | ok r =>
    cases hcmp : h.compareKey r target h.colNum with
    | error e => simp [bind, Except.bind, hloop, hcmp]
    | ok res =>
      simp only [bind, Except.bind, hloop, hcmp, pure, Except.pure]
      rcases lt_trichotomy res 0 with hlt | rfl | hgt
      · have hend : h.compareKey h.numKey target h.colNum ≠ .ok 0 := by
          rw [compareKey_numKey]
          exact nofun
        rw [if_neg hlt.ne, if_neg (by simpa using hlt)]
        refine iff_of_false nofun ?_
        rintro ⟨heq, hzero⟩
        cases heq
        exact hend hzero
      · simp only [if_true, lt_self_iff_false, decide_false, Bool.not_false, Except.ok.injEq,
          Option.some.injEq]
        refine ⟨fun heq => ⟨heq, heq ▸ hcmp⟩, And.left⟩
      · rw [if_neg hgt.ne', if_pos (by simpa using hgt.le)]
        refine iff_of_false nofun ?_
        rintro ⟨heq, hzero⟩
        cases heq
        rw [hcmp] at hzero
        exact hgt.ne' (Except.ok.inj hzero)

theorem leafLookup_ne_outside (hpos : 0 < h.numKey) (j : Int) :
    h.leafLookup target ≠ .error (.outside j) := by
  rw [leafLookup]
  cases hloop : h.searchLoop (fun res => res < 0) target h.colNum with
  | error e =>
    simp only [bind, Except.bind]
    intro he
    exact searchLoop_ne_outside j (hloop.trans (congrArg Except.error (Except.error.inj he)))
  | ok r =>
    obtain ⟨hr, hn⟩ := searchLoop_range hpos hloop
    have hcmp : h.compareKey r target h.colNum ≠ .error (.outside j) := compareKey_ne_outside hr hn j
    simp only [bind, Except.bind]
    cases hres : h.compareKey r target h.colNum with
    | error e =>
      intro he
      exact hcmp (hres.trans (congrArg Except.error (Except.error.inj he)))
    | ok res =>
      dsimp only
      split <;> exact nofun

/-- In an empty node `leaf_lookup` reads the key at -1. -/
theorem leafLookup_empty (hn : h.node.keys = []) : h.leafLookup target = .error (.outside (-1)) := by
  have hloop : h.searchLoop (fun res => res < 0) target h.colNum = .ok (-1) := by
    simp [searchLoop, numKey, hn, BinarySearch.loopM]
  rw [leafLookup, hloop]
  rfl

/-- `internal_lookup` goes to the child behind the keys that are not above the target. -/
theorem SearchesRight.internalLookup (hright : h.SearchesRight target pre)
    (hrids : h.node.keys.length < h.node.rids.length) : ∃ rid,
      h.node.rids[h.count (fun res => res ≤ 0) target pre]? = some rid ∧
      h.internalLookup target pre = .ok rid.pageNo := by
  have hlt : h.count (fun res => res ≤ 0) target pre < h.node.rids.length :=
    List.countP_le_length.trans_lt hrids
  refine ⟨_, List.getElem?_eq_getElem hlt, ?_⟩
  rw [IxNodeHandle.internalLookup, hright.upper]
  simp [bind, Except.bind, hlt, pure, Except.pure]

-- ---------------------------------------------------------------------------
-- The searches of the tree
-- ---------------------------------------------------------------------------

/-- The handle of a node of the tree over keys of `INT` and `CHAR(n)` columns. -/
def ofTree {cols : List IxCol} (n : IxNode (KeyBytes cols)) : IxNodeHandle (KeyBytes cols) where
  node := n
  colNum := cols.length
  compare a b pre := some (ixCompare a b pre)

theorem ofTree_isBelow {cols : List IxCol} (n : IxNode (KeyBytes cols)) (target : KeyBytes cols) (pre : Nat)
    (below : Int → Bool) : (ofTree n).isBelow below target pre = fun k => below (ixCompare k target pre) := by
  funext k
  have hpre : ixCompare k target ((ofTree n).prefixLen pre) = ixCompare k target pre := by
    by_cases hzero : pre = 0
    · subst hzero
      show ixCompareBytes cols k.bytes target.bytes cols.length = ixCompareBytes cols k.bytes target.bytes 0
      simp [ixCompareBytes]
    · rw [show (ofTree n).prefixLen pre = pre from if_neg hzero]
  rw [← hpre]
  rfl

/-- The tree is written with the results of these searches. -/
theorem bounds_tree {cols : List IxCol} (n : IxNode (KeyBytes cols)) (target : KeyBytes cols) (pre : Nat) :
    (ofTree n).lowerBound target pre = .ok (n.lowerBound target pre : Int) ∧
      (ofTree n).upperBound target pre = .ok (n.upperBound target pre : Int) := by
  have hcmp : (ofTree n).Comparable target pre := fun _ _ => rfl
  constructor
  · rw [lowerBound, bound_eq hcmp, ofTree_isBelow]
    rfl
  · rw [upperBound, bound_eq hcmp, ofTree_isBelow]
    rfl

-- ---------------------------------------------------------------------------
-- The two sides of a target
-- ---------------------------------------------------------------------------

/-- On which side of the target a key is found, and 0 if `ix_compare` finds them equal or throws. -/
def side (h : IxNodeHandle K) (target : K) (pre : Nat) (k : K) : Int :=
  (h.compare k target (h.prefixLen pre)).getD 0

/-- The keys less than the target come first, and the keys greater than it last. -/
def Parted (h : IxNodeHandle K) (target : K) (pre : Nat) : Prop :=
  h.node.keys.Pairwise fun a b => (h.side target pre b < 0 → h.side target pre a < 0) ∧
    (h.side target pre b ≤ 0 → h.side target pre a ≤ 0)

theorem side_eq {k : K} {res : Int} (hres : h.compare k target (h.prefixLen pre) = some res) :
    h.side target pre k = res := by
  rw [side, hres]
  rfl

theorem isBelow_eq (hcmp : h.Comparable target pre) {k : K} (hk : k ∈ h.node.keys) :
    h.isBelow below target pre k = below (h.side target pre k) := by
  obtain ⟨res, hres⟩ := Option.isSome_iff_exists.mp (hcmp k hk)
  rw [isBelow, side_eq hres, hres, Option.any_some]

/-- In keys that are parted by the target, searches that do not throw are right. -/
theorem Parted.searchesRight (hparted : h.Parted target pre) (hcmp : h.Comparable target pre) :
    h.SearchesRight target pre := by
  refine ⟨bound_eq_count hcmp ?_, bound_eq_count hcmp ?_, fun hpos i => leafLookup_iff hpos,
    fun j => ⟨searchLoop_ne_outside j, searchLoop_ne_outside j, searchLoop_ne_outside j⟩,
    fun hpos j => leafLookup_ne_outside hpos j⟩
  · refine List.Pairwise.imp_of_mem (fun ha hb hab hbelow => ?_) hparted
    rw [isBelow_eq hcmp hb, decide_eq_true_iff] at hbelow
    rw [isBelow_eq hcmp ha, decide_eq_true_iff]
    exact hab.1 hbelow
  · refine List.Pairwise.imp_of_mem (fun ha hb hab hbelow => ?_) hparted
    rw [isBelow_eq hcmp hb, decide_eq_true_iff] at hbelow
    rw [isBelow_eq hcmp ha, decide_eq_true_iff]
    exact hab.2 hbelow

/-- If it finds a key equal to the target only where it throws on none, `lower_bound` comes to a key on which it does,
if there is one. -/
theorem Parted.comparable (hparted : h.Parted target pre) (hthrows : ∀ k ∈ h.node.keys,
      h.compare k target (h.prefixLen pre) = none → ∀ k' ∈ h.node.keys, h.compare k' target (h.prefixLen pre) ≠ some 0)
    (hright : h.SearchesRight target pre) : h.Comparable target pre := by
  intro k hk
  by_contra hnone
  rw [Option.not_isSome_iff_eq_none] at hnone
  obtain ⟨i₀, hi₀, rfl⟩ := List.getElem_of_mem hk
  have hzero : h.side target pre h.node.keys[i₀] = 0 := by
    rw [side, hnone]
    rfl
  have hne : ∀ i (hi : i < h.node.keys.length) res,
      h.compare h.node.keys[i] target (h.prefixLen pre) = some res → res ≠ 0 := by
    rintro i hi res hres rfl
    exact hthrows _ hk hnone _ (List.getElem_mem hi) hres
  have hleft : ∀ i (hi : i < h.node.keys.length), i < i₀ → ∀ res,
      h.compare h.node.keys[i] target (h.prefixLen pre) = some res → decide (res < 0) = true := by
    intro i hi hlt res hres
    have hle := (List.pairwise_iff_getElem.mp hparted i i₀ hi hi₀ hlt).2 hzero.le
    rw [side_eq hres] at hle
    exact decide_eq_true (lt_of_le_of_ne hle (hne i hi res hres))
  have hbehind : ∀ i (hi : i < h.node.keys.length), i₀ < i → ∀ res,
      h.compare h.node.keys[i] target (h.prefixLen pre) = some res → decide (res < 0) = false := by
    intro i hi hgt res hres
    refine decide_eq_false fun hlt => ?_
    have hneg := (List.pairwise_iff_getElem.mp hparted i₀ i hi₀ hi hgt).1 (by rwa [side_eq hres])
    rw [hzero] at hneg
    exact lt_irrefl _ hneg
  obtain ⟨e, he⟩ := bound_error i₀ hi₀ hnone hleft hbehind
  cases hright.lower.symm.trans he

-- ---------------------------------------------------------------------------
-- Some of the keys
-- ---------------------------------------------------------------------------

/-- The node with other keys. -/
def withKeys (h : IxNodeHandle K) (keys : List K) : IxNodeHandle K := { h with node := { h.node with keys := keys } }

theorem comparable_singleton {k : K} (hright : (h.withKeys [k]).SearchesRight target pre) :
    (h.compare k target (h.prefixLen pre)).isSome := by
  by_contra hnone
  rw [Option.not_isSome_iff_eq_none] at hnone
  obtain ⟨e, he⟩ := @bound_error _ (h.withKeys [k]) target pre (fun res => decide (res < 0)) 0 Nat.one_pos hnone
    (fun i _ hi => absurd hi (Nat.not_lt_zero i)) (fun i hi hgt => absurd hi (Nat.not_lt.mpr hgt))
  cases hright.lower.symm.trans he

/-- Of two keys the search looks at the first, and at the second one only behind a key below the target. -/
theorem bound_pair {a b : K} (hcmp : (h.withKeys [a, b]).Comparable target pre)
    (hbound : (h.withKeys [a, b]).bound below target pre = .ok ((h.withKeys [a, b]).count below target pre : Int))
    (hb : (h.withKeys [a, b]).isBelow below target pre b = true) :
    (h.withKeys [a, b]).isBelow below target pre a = true := by
  by_contra ha
  rw [Bool.not_eq_true] at ha
  have hkeys : (h.withKeys [a, b]).node.keys = [a, b] := rfl
  rw [bound_eq hcmp, count, hkeys] at hbound
  simp [BinarySearch.searchList, BinarySearch.search, BinarySearch.loop, ha, hb] at hbound

/-- The searches are right however many keys are taken out of the node exactly when all keys can be compared and the
target parts them. -/
theorem searchesRight_sublists_iff :
    (∀ keys, keys.Sublist h.node.keys → (h.withKeys keys).SearchesRight target pre) ↔
      h.Comparable target pre ∧ h.Parted target pre := by
  constructor
  · intro hright
    have hcmp : h.Comparable target pre := fun k hk =>
      comparable_singleton (hright [k] (List.singleton_sublist.mpr hk))
    refine ⟨hcmp, List.pairwise_iff_forall_sublist.mpr fun {a b} hab => ?_⟩
    have hpair : (h.withKeys [a, b]).Comparable target pre := fun k hk => hcmp k (hab.subset hk)
    have hr := hright [a, b] hab
    have hlower := @bound_pair _ h _ _ (fun res => decide (res < 0)) _ _ hpair hr.lower
    have hupper := @bound_pair _ h _ _ (fun res => decide (res ≤ 0)) _ _ hpair hr.upper
    rw [isBelow_eq hpair (by simp [withKeys]), isBelow_eq hpair (by simp [withKeys]), decide_eq_true_iff,
      decide_eq_true_iff] at hlower hupper
    exact ⟨hlower, hupper⟩
  · rintro ⟨hcmp, hparted⟩ keys hkeys
    exact Parted.searchesRight (h := h.withKeys keys) (hparted.sublist hkeys) fun k hk => hcmp k (hkeys.subset hk)

end IxNodeHandle

-- ---------------------------------------------------------------------------
-- The keys of an index
-- ---------------------------------------------------------------------------

/-- The columns of an index, with the lengths that go with their types. -/
structure IndexCols where
  cols : List ColMeta
  sized : ∀ c ∈ cols, c.Sized ∧ (c.type = .float → c.len = 4)

/-- `col_tot_len_` bytes. -/
structure ColKey (ix : IndexCols) where
  bytes : List UInt8
  length_eq : bytes.length = keyLen ix.cols

/-- The columns that `ix_compare` goes through. -/
def IndexCols.compared (ix : IndexCols) (pre : Nat) : List ColMeta :=
  ix.cols.take (if pre > 0 then pre else ix.cols.length)

/-- The handle of a node of the index. -/
def IndexCols.handle (ix : IndexCols) (n : IxNode (ColKey ix)) : IxNodeHandle (ColKey ix) where
  node := n
  colNum := ix.cols.length
  compare a b pre := ixCompareKey (ix.compared pre) a.bytes b.bytes

/-- On the way through the columns in which the keys agree, a `FLOAT` with a NaN is met. -/
def meetsNaN : List ColMeta → List UInt8 → List UInt8 → Bool
  | [], _, _ => false
  | col :: cols, a, b =>
    (decide (col.type = .float) && ((readFloat a).isNaN || (readFloat b).isNaN)) ||
      (ixCompareType col.type col.len a b == some 0 && meetsNaN cols (a.drop col.len) (b.drop col.len))

-- ---------------------------------------------------------------------------
-- The order of the bytes
-- ---------------------------------------------------------------------------

/-- The numbers that the comparison of a column looks at. -/
def colRank (col : ColMeta) (bs : List UInt8) : List Int :=
  match col.type with
  | .int => [readInt bs]
  | .float => FloatOrder.rank (readFloat bs)
  | .string => (bs.take col.len).map fun b => (b.toNat : Int)
  | _ => []

variable {col : ColMeta} {cols : List ColMeta} {a b t : List UInt8} {res : Int}

theorem compares_trichotomy (x y : List Int) :
    Compares (if x < y then -1 else if y < x then 1 else 0) x y := by
  rcases lt_trichotomy x y with hlt | rfl | hgt
  · rw [if_pos hlt]
    exact ⟨by simp [hlt], by simp [hlt.ne]⟩
  · rw [if_neg (lt_irrefl x), if_neg (lt_irrefl x)]
    exact ⟨by simp, by simp⟩
  · rw [if_neg hgt.asymm, if_pos hgt]
    exact ⟨by simp [hgt.asymm], by simp [hgt.ne']⟩

/-- `ix_compare` of one column. -/
theorem compares_colRank (ha : col.len ≤ a.length) (hb : col.len ≤ b.length)
    (hna : col.type = .float → (readFloat a).isNaN = false) (hnb : col.type = .float → (readFloat b).isNaN = false)
    (hres : ixCompareType col.type col.len a b = some res) : Compares res (colRank col a) (colRank col b) := by
  unfold colRank
  cases htype : col.type with
  | int =>
    rw [htype] at hres
    cases hres
    exact compares_readInt a b
  | string =>
    rw [htype] at hres
    cases hres
    exact compares_memcmp col.len ha hb
  | float =>
    rw [htype] at hres
    cases hres
    have hlt : readFloat a < readFloat b ↔ FloatOrder.rank (readFloat a) < FloatOrder.rank (readFloat b) :=
      FloatOrder.lt_iff (hna htype) (hnb htype)
    have hgt : readFloat a > readFloat b ↔ FloatOrder.rank (readFloat b) < FloatOrder.rank (readFloat a) :=
      FloatOrder.lt_iff (hnb htype) (hna htype)
    simp only [hlt, hgt]
    exact compares_trichotomy _ _
  | bigint | datetime =>
    rw [htype] at hres
    cases hres

/-- The next column, behind one in which the keys agree. -/
theorem meetsNaN_cons (h : meetsNaN (col :: cols) a b = false) :
    (col.type = .float → (readFloat a).isNaN = false ∧ (readFloat b).isNaN = false) ∧
      (ixCompareType col.type col.len a b = some 0 → meetsNaN cols (a.drop col.len) (b.drop col.len) = false) := by
  simp only [meetsNaN, Bool.or_eq_false_iff, Bool.and_eq_false_iff, decide_eq_false_iff_not] at h
  refine ⟨fun htype => h.1.resolve_left (not_not.mpr htype), fun hzero => h.2.resolve_left ?_⟩
  simp [hzero]

/-- Where `ix_compare` throws on two keys in a column, it throws on all that come to it. -/
theorem ixCompareType_none (h : ixCompareType col.type col.len a b = none) (c d : List UInt8) :
    ixCompareType col.type col.len c d = none := by
  cases htype : col.type with
  | bigint | datetime => rfl
  | int | float | string => simp [ixCompareType, htype] at h

/-- The column that parts two keys, or in which one of them leaves the target, is the same for all three. -/
theorem side_mono (ha : keyLen cols ≤ a.length) (hb : keyLen cols ≤ b.length) (ht : keyLen cols ≤ t.length)
    (hna : meetsNaN cols a t = false) (hnb : meetsNaN cols b t = false) (hle : ixCompareKey cols a b = some res)
    (hres : res ≤ 0) :
    ((ixCompareKey cols b t).getD 0 < 0 → (ixCompareKey cols a t).getD 0 < 0) ∧
      ((ixCompareKey cols b t).getD 0 ≤ 0 → (ixCompareKey cols a t).getD 0 ≤ 0) := by
  induction cols generalizing a b t with
  | nil => exact ⟨id, id⟩
  | cons col cols ih =>
    rw [keyLen_cons] at ha hb ht
    obtain ⟨hnana, hna⟩ := meetsNaN_cons hna
    obtain ⟨hnanb, hnb⟩ := meetsNaN_cons hnb
    cases hab : ixCompareType col.type col.len a b with
    | none =>
      rw [ixCompareKey, hab] at hle
      cases hle
    | some rab =>
      obtain ⟨rat, hat⟩ : ∃ r, ixCompareType col.type col.len a t = some r := by
        rw [← Option.ne_none_iff_exists']
        intro hnone
        cases (ixCompareType_none hnone a b).symm.trans hab
      obtain ⟨rbt, hbt⟩ : ∃ r, ixCompareType col.type col.len b t = some r := by
        rw [← Option.ne_none_iff_exists']
        intro hnone
        cases (ixCompareType_none hnone a b).symm.trans hab
      have cab := compares_colRank (by omega) (by omega) (fun h => (hnana h).1) (fun h => (hnanb h).1) hab
      have cat := compares_colRank (by omega) (by omega) (fun h => (hnana h).1) (fun h => (hnana h).2) hat
      have cbt := compares_colRank (by omega) (by omega) (fun h => (hnanb h).1) (fun h => (hnanb h).2) hbt
      rw [ixCompareKey_cons hab] at hle
      rw [ixCompareKey_cons hat, ixCompareKey_cons hbt]
      by_cases hzero : rat = 0 ∧ rbt = 0
      · -- The next column decides.
        obtain ⟨rfl, rfl⟩ := hzero
        have hrab : rab = 0 := cab.eq.mpr ((cat.eq.mp rfl).trans (cbt.eq.mp rfl).symm)
        rw [if_neg (not_not.mpr hrab)] at hle
        rw [if_neg (not_not.mpr rfl), if_neg (not_not.mpr rfl)]
        exact ih (by rw [List.length_drop]; omega) (by rw [List.length_drop]; omega)
          (by rw [List.length_drop]; omega) (hna hat) (hnb hbt) hle
      · have hrab : rab ≤ 0 := by
          by_cases hrab : rab = 0
          · exact hrab.le
          · rw [if_pos hrab] at hle
            exact Option.some.inj hle ▸ hres
        -- One of the two leaves the target here, and the ranks in this column decide.
        have hranks := cab.le_iff.mp hrab
        have hlt : rbt < 0 → rat < 0 := fun h => cat.lt.mpr (hranks.trans_lt (cbt.lt.mp h))
        have hle : rbt ≤ 0 → rat ≤ 0 := fun h => cat.le_iff.mpr (hranks.trans (cbt.le_iff.mp h))
        have hback : rat = 0 → rbt < 0 → False := fun h hneg => (hlt hneg).ne h
        by_cases hrat : rat = 0
        · have hrbt : rbt ≠ 0 := fun h => hzero ⟨hrat, h⟩
          have hpos : ¬ rbt ≤ 0 := fun h => hback hrat (lt_of_le_of_ne h hrbt)
          rw [if_pos hrbt]
          exact ⟨fun h => absurd (le_of_lt h) hpos, fun h => absurd h hpos⟩
        · rw [if_pos hrat]
          by_cases hrbt : rbt = 0
          · have hneg : rat < 0 := lt_of_le_of_ne (hle hrbt.le) hrat
            exact ⟨fun _ => hneg, fun _ => le_of_lt hneg⟩
          · rw [if_pos hrbt]
            exact ⟨hlt, hle⟩

/-- Where two keys are found equal, `ix_compare` has a case for every column. -/
theorem ixCompareKey_ne_none (h : ixCompareKey cols a b = some 0) (c d : List UInt8) :
    ixCompareKey cols c d ≠ none := by
  induction cols generalizing a b c d with
  | nil => exact Option.some_ne_none _
  | cons col cols ih =>
    cases htype : ixCompareType col.type col.len a b with
    | none =>
      rw [ixCompareKey, htype] at h
      cases h
    | some res =>
      rw [ixCompareKey_cons htype] at h
      by_cases hres : res = 0
      · rw [if_neg (by simp [hres])] at h
        have hcase : ∃ res', ixCompareType col.type col.len c d = some res' := by
          cases hcol : col.type with
          | bigint | datetime => simp [ixCompareType, hcol] at htype
          | int | float | string => exact ⟨_, rfl⟩
        obtain ⟨res', hres'⟩ := hcase
        rw [ixCompareKey_cons hres']
        split
        · exact Option.some_ne_none _
        · exact ih h _ _
      · rw [if_pos hres] at h
        exact absurd (Option.some.inj h) hres

-- ---------------------------------------------------------------------------
-- The searches in the nodes of an index
-- ---------------------------------------------------------------------------

namespace IndexCols

variable {ix : IndexCols} {n : IxNode (ColKey ix)} {target : ColKey ix} {pre : Nat}

/-- No key agrees with the target up to a `FLOAT` column in which one of the two has a NaN. -/
def NoNaN (ix : IndexCols) (n : IxNode (ColKey ix)) (target : ColKey ix) (pre : Nat) : Prop :=
  ∀ k ∈ n.keys, meetsNaN (ix.compared pre) k.bytes target.bytes = false

theorem compare_eq (a b : ColKey ix) : (ix.handle n).compare a b ((ix.handle n).prefixLen pre) =
    ixCompareKey (ix.compared pre) a.bytes b.bytes := by
  have hpre : ix.compared ((ix.handle n).prefixLen pre) = ix.compared pre := by
    by_cases hzero : pre = 0
    · have hlen : (ix.handle n).prefixLen pre = ix.cols.length := if_pos hzero
      rw [hlen, compared, compared, ite_self, if_neg (by omega)]
    · rw [show (ix.handle n).prefixLen pre = pre from if_neg hzero]
  rw [← hpre]
  rfl

theorem keyLen_append (cols cols' : List ColMeta) : keyLen (cols ++ cols') = keyLen cols + keyLen cols' := by
  simp [keyLen]

theorem keyLen_compared (k : ColKey ix) : keyLen (ix.compared pre) ≤ k.bytes.length := by
  have hsplit := congrArg keyLen (List.take_append_drop (if pre > 0 then pre else ix.cols.length) ix.cols)
  rw [keyLen_append] at hsplit
  rw [k.length_eq, compared]
  omega

/-- Where no NaN is met, a target parts the keys of a sorted node. -/
theorem parted (hsorted : (ix.handle n).Sorted pre) (hnan : ix.NoNaN n target pre) :
    (ix.handle n).Parted target pre := by
  refine List.Pairwise.imp_of_mem ?_ hsorted
  rintro a b ha hb ⟨res, hres, hle⟩
  rw [compare_eq] at hres
  rw [IxNodeHandle.side, IxNodeHandle.side, compare_eq, compare_eq]
  exact side_mono (keyLen_compared a) (keyLen_compared b) (keyLen_compared target) (hnan a ha) (hnan b hb) hres hle

/-- There the searches are right exactly when the target can be compared with every key. -/
theorem searchesRight_iff_comparable (hsorted : (ix.handle n).Sorted pre) (hnan : ix.NoNaN n target pre) :
    (ix.handle n).SearchesRight target pre ↔ (ix.handle n).Comparable target pre := by
  have hparted := parted hsorted hnan
  refine ⟨hparted.comparable fun k _ hthrow k' _ hzero => ?_, hparted.searchesRight⟩
  rw [compare_eq] at hthrow hzero
  exact ixCompareKey_ne_none hzero _ _ hthrow

-- ---------------------------------------------------------------------------
-- `FLOAT` columns
-- ---------------------------------------------------------------------------

/-- `ix_compare` has a case for the column. -/
def HasCase (col : ColMeta) : Prop := col.type ≠ .bigint ∧ col.type ≠ .datetime

theorem exists_ixCompareType {col : ColMeta} (hcase : HasCase col) (a b : List UInt8) :
    ∃ res, ixCompareType col.type col.len a b = some res := by
  cases htype : col.type with
  | bigint => exact absurd htype hcase.1
  | datetime => exact absurd htype hcase.2
  | int | float | string => exact ⟨_, rfl⟩

theorem ixCompareKey_isSome {cols : List ColMeta} (hcase : ∀ c ∈ cols, HasCase c) (a b : List UInt8) :
    (ixCompareKey cols a b).isSome := by
  induction cols generalizing a b with
  | nil => rfl
  | cons col cols ih =>
    obtain ⟨hcol, hcols⟩ := List.forall_mem_cons.mp hcase
    obtain ⟨res, hres⟩ := exists_ixCompareType hcol a b
    rw [ixCompareKey_cons hres]
    split
    · rfl
    · exact ih hcols _ _

theorem comparable_of_hasCase (hcase : ∀ c ∈ ix.compared pre, HasCase c) :
    (ix.handle n).Comparable target pre := by
  intro k _
  rw [compare_eq]
  exact ixCompareKey_isSome hcase _ _

theorem meetsNaN_of_no_float {cols : List ColMeta} (hfloat : ∀ c ∈ cols, c.type ≠ .float) (a b : List UInt8) :
    meetsNaN cols a b = false := by
  induction cols generalizing a b with
  | nil => rfl
  | cons col cols ih =>
    obtain ⟨hcol, hcols⟩ := List.forall_mem_cons.mp hfloat
    simp [meetsNaN, hcol, ih hcols]

theorem readFloat_append {bs : List UInt8} (h : bs.length = 4) (rest : List UInt8) :
    readFloat (bs ++ rest) = readFloat bs := by
  rw [readFloat, readFloat, List.take_left' h, List.take_of_length_le h.le]

theorem memcmp_zeros (n : Nat) (a b : List UInt8) :
    memcmp n (List.replicate n 0 ++ a) (List.replicate n 0 ++ b) = 0 := by
  induction n with
  | zero => simp [memcmp]
  | succ n ih => simp [List.replicate_succ, memcmp, ih]

theorem ixCompareType_zeros {col : ColMeta} (hcase : HasCase col)
    (hsized : col.Sized ∧ (col.type = .float → col.len = 4)) (a b : List UInt8) :
    ixCompareType col.type col.len (List.replicate col.len 0 ++ a) (List.replicate col.len 0 ++ b) = some 0 := by
  cases htype : col.type with
  | bigint => exact absurd htype hcase.1
  | datetime => exact absurd htype hcase.2
  | int =>
    have hlen : (List.replicate col.len (0 : UInt8)).length = 4 := by simp [hsized.1.int htype]
    simp [ixCompareType, readInt_append hlen]
  | float =>
    have hlen : (List.replicate col.len (0 : UInt8)).length = 4 := by simp [hsized.2 htype]
    simp [ixCompareType, readFloat_append hlen, FloatOrder.lt_irrefl]
  | string => simp [ixCompareType, memcmp_zeros]

/-- Zero bytes in front of two keys decide nothing. -/
theorem ixCompareKey_zeros {cols cols' : List ColMeta} (hcase : ∀ c ∈ cols, HasCase c)
    (hsized : ∀ c ∈ cols, c.Sized ∧ (c.type = .float → c.len = 4)) (a b : List UInt8) :
    ixCompareKey (cols ++ cols') (List.replicate (keyLen cols) 0 ++ a) (List.replicate (keyLen cols) 0 ++ b) =
      ixCompareKey cols' a b := by
  induction cols with
  | nil => rfl
  | cons col cols ih =>
    obtain ⟨hcol, hcols⟩ := List.forall_mem_cons.mp hcase
    obtain ⟨hlen, hlens⟩ := List.forall_mem_cons.mp hsized
    have hdrop : ∀ bs : List UInt8, (List.replicate col.len 0 ++ bs).drop col.len = bs :=
      fun bs => List.drop_left' List.length_replicate
    rw [keyLen_cons, List.replicate_add, List.append_assoc, List.append_assoc, List.cons_append,
      ixCompareKey_cons (ixCompareType_zeros hcol hlen _ _), if_neg (by simp), hdrop, hdrop]
    exact ih hcols hlens

theorem ixCompareKey_refl {cols : List ColMeta} (hcase : ∀ c ∈ cols, HasCase c) (a : List UInt8) :
    ixCompareKey cols a a = some 0 := by
  induction cols generalizing a with
  | nil => rfl
  | cons col cols ih =>
    obtain ⟨hcol, hcols⟩ := List.forall_mem_cons.mp hcase
    have hself : ixCompareType col.type col.len a a = some 0 := by
      cases htype : col.type with
      | bigint => exact absurd htype hcol.1
      | datetime => exact absurd htype hcol.2
      | int => simp [ixCompareType]
      | float => simp [ixCompareType, FloatOrder.lt_irrefl]
      | string => simp [ixCompareType, memcmp_self]
    rw [ixCompareKey_cons hself, if_neg (by simp)]
    exact ih hcols _

/-- Zero bytes around a float. -/
def floatBytes (front : Nat) (f : List UInt8) (back : Nat) : List UInt8 :=
  List.replicate front 0 ++ (f ++ List.replicate back 0)

theorem ixCompareKey_floatBytes {A B : List ColMeta} {col : ColMeta} (htype : col.type = .float)
    (hcase : ∀ c ∈ A ++ col :: B, HasCase c)
    (hsized : ∀ c ∈ A ++ col :: B, c.Sized ∧ (c.type = .float → c.len = 4)) {f g : List UInt8}
    (hf : f.length = 4) (hg : g.length = 4) (back : Nat) :
    ixCompareKey (A ++ col :: B) (floatBytes (keyLen A) f back) (floatBytes (keyLen A) g back) =
      some (if readFloat f < readFloat g then -1 else if readFloat f > readFloat g then 1 else 0) := by
  obtain ⟨hcaseA, hcase⟩ := List.forall_mem_append.mp hcase
  obtain ⟨hsizedA, hsized⟩ := List.forall_mem_append.mp hsized
  have hlen := (hsized col List.mem_cons_self).2 htype
  have hcol : ixCompareType col.type col.len (f ++ List.replicate back 0) (g ++ List.replicate back 0) =
      some (if readFloat f < readFloat g then -1 else if readFloat f > readFloat g then 1 else 0) := by
    rw [htype, ixCompareType, readFloat_append hf, readFloat_append hg]
  rw [floatBytes, floatBytes, ixCompareKey_zeros hcaseA hsizedA, ixCompareKey_cons hcol,
    List.drop_left' (hf.trans hlen.symm), List.drop_left' (hg.trans hlen.symm),
    ixCompareKey_refl fun c hc => hcase c (List.mem_cons_of_mem _ hc)]
  generalize (if readFloat f < readFloat g then (-1 : Int) else if readFloat f > readFloat g then 1 else 0) = res
  by_cases hres : res = 0
  · rw [if_neg (not_not.mpr hres), hres]
  · rw [if_pos hres]

/-- Keys with NaN, 0 and 1 in a `FLOAT` column, and zero bytes around it. -/
theorem exists_nan_keys (hcase : ∀ c ∈ ix.compared pre, HasCase c)
    (hfloat : ∃ c ∈ ix.compared pre, c.type = .float) : ∃ nan zero one : ColKey ix,
      ixCompareKey (ix.compared pre) nan.bytes zero.bytes = some 0 ∧
      ixCompareKey (ix.compared pre) nan.bytes one.bytes = some 0 ∧
      ixCompareKey (ix.compared pre) zero.bytes one.bytes = some (-1) := by
  obtain ⟨col, hmem, htype⟩ := hfloat
  obtain ⟨A, B, hcols⟩ := List.append_of_mem hmem
  have hsized : ∀ c ∈ A ++ col :: B, c.Sized ∧ (c.type = .float → c.len = 4) :=
    fun c hc => ix.sized c (List.mem_of_mem_take (hcols ▸ hc))
  obtain ⟨back, hback⟩ : ∃ back, keyLen ix.cols = keyLen A + (4 + back) := by
    have hsplit := congrArg keyLen (List.take_append_drop (if pre > 0 then pre else ix.cols.length) ix.cols)
    rw [keyLen_append, ← compared, hcols, keyLen_append, keyLen_cons,
      (hsized col (by simp)).2 htype] at hsplit
    exact ⟨keyLen B + keyLen (ix.cols.drop (if pre > 0 then pre else ix.cols.length)), by omega⟩
  have hkey : ∀ f : List UInt8, f.length = 4 → (floatBytes (keyLen A) f back).length = keyLen ix.cols := by
    intro f hf
    simp [floatBytes, hf, hback]
  have hcompare := fun (f g : List UInt8) (hf : f.length = 4) (hg : g.length = 4) =>
    ixCompareKey_floatBytes htype (hcols ▸ hcase) hsized hf hg back
  rw [hcols]
  exact ⟨⟨_, hkey [0, 0, 192, 127] rfl⟩, ⟨_, hkey [0, 0, 0, 0] rfl⟩, ⟨_, hkey [0, 0, 128, 63] rfl⟩,
    (hcompare _ _ rfl rfl).trans (by decide), (hcompare _ _ rfl rfl).trans (by decide),
    (hcompare _ _ rfl rfl).trans (by decide)⟩

/-- A leaf that is the whole tree. -/
def leafOf (keys : List (ColKey ix)) (rids : List Rid) : IxNode (ColKey ix) :=
  ⟨noPage, noPage, true, noPage, noPage, keys, rids⟩

/-- The keys NaN and 0 are sorted, and the search for 1 misses the 0. -/
theorem not_searchesRight_of_nan {nan zero one : ColKey ix}
    (hnz : ixCompareKey (ix.compared pre) nan.bytes zero.bytes = some 0)
    (hno : ixCompareKey (ix.compared pre) nan.bytes one.bytes = some 0)
    (hzo : ixCompareKey (ix.compared pre) zero.bytes one.bytes = some (-1)) (rids : List Rid) :
    (ix.handle (leafOf [nan, zero] rids)).Sorted pre ∧
      ¬ (ix.handle (leafOf [nan, zero] rids)).SearchesRight one pre := by
  constructor
  · refine List.pairwise_pair.mpr ⟨0, ?_, le_refl _⟩
    rw [compare_eq, hnz]
  · intro h
    have hcmp : (ix.handle (leafOf [nan, zero] rids)).Comparable one pre := by
      intro k hk
      rw [compare_eq]
      rcases List.mem_pair.mp hk with rfl | rfl
      · rw [hno]
        rfl
      · rw [hzo]
        rfl
    have hnan : (ix.handle (leafOf [nan, zero] rids)).isBelow (fun res => res < 0) one pre nan = false := by
      rw [IxNodeHandle.isBelow, compare_eq, hno]
      rfl
    have hzero : (ix.handle (leafOf [nan, zero] rids)).isBelow (fun res => res < 0) one pre zero = true := by
      rw [IxNodeHandle.isBelow, compare_eq, hzo]
      rfl
    have hlower := h.lower
    have hkeys : (ix.handle (leafOf [nan, zero] rids)).node.keys = [nan, zero] := rfl
    rw [IxNodeHandle.lowerBound, IxNodeHandle.bound_eq hcmp, IxNodeHandle.count, hkeys] at hlower
    simp [BinarySearch.searchList, BinarySearch.search, BinarySearch.loop, hnan, hzero] at hlower

/-- Whether the searches are right for all nodes and targets, on columns that `ix_compare` has a case for. -/
theorem searchesRight_iff_no_float (hcase : ∀ c ∈ ix.compared pre, HasCase c) :
    (∀ (n : IxNode (ColKey ix)) (target : ColKey ix),
      (ix.handle n).Sorted pre → (ix.handle n).SearchesRight target pre) ↔
        ∀ c ∈ ix.compared pre, c.type ≠ .float := by
  constructor
  · intro hright c hc htype
    obtain ⟨nan, zero, one, hnz, hno, hzo⟩ := exists_nan_keys hcase ⟨c, hc, htype⟩
    obtain ⟨hsorted, hwrong⟩ := not_searchesRight_of_nan hnz hno hzo []
    exact hwrong (hright _ one hsorted)
  · intro hfloat n target hsorted
    have hnan : ix.NoNaN n target pre := fun k _ => meetsNaN_of_no_float hfloat _ _
    exact (searchesRight_iff_comparable hsorted hnan).mpr (comparable_of_hasCase hcase)

/-- An index on an `INT` and a `BIGINT` column. -/
def intBigint : IndexCols where
  cols := [⟨"a", .int, 4, 0⟩, ⟨"b", .bigint, 8, 4⟩]
  sized c hc := by
    rcases List.mem_pair.mp hc with rfl | rfl <;> refine ⟨⟨?_, ?_, ?_⟩, ?_⟩ <;> simp

/-- An index on a `FLOAT` and an `INT` column. -/
def floatInt : IndexCols where
  cols := [⟨"f", .float, 4, 0⟩, ⟨"a", .int, 4, 4⟩]
  sized c hc := by
    rcases List.mem_pair.mp hc with rfl | rfl <;> refine ⟨⟨?_, ?_, ?_⟩, ?_⟩ <;> simp

/-- An index on an `INT` and a `FLOAT` column. -/
def intFloat : IndexCols where
  cols := [⟨"a", .int, 4, 0⟩, ⟨"f", .float, 4, 4⟩]
  sized c hc := by
    rcases List.mem_pair.mp hc with rfl | rfl <;> refine ⟨⟨?_, ?_, ?_⟩, ?_⟩ <;> simp

end IndexCols

end Rmdb
