-- SUMMARY: Positions in the leaves of an index, the bounds of a key, and scans between two positions.
import Rmdb.Index.Refinement
import Rmdb.Lib.Cursor
import Rmdb.Lib.Cut

/-!
# Index scans

A position in an index is a leaf page and a slot. `lower_bound` and `upper_bound` search the leaf of
a key; a position behind the last pair of a leaf becomes the first one of the next leaf, except in the
last leaf. So every place between two pairs has one position, and a scan can compare positions to see
its end.

The proofs count: position `iidAt L i` is that of the pair number `i`.
-/

namespace Rmdb

open LinkedList Blocks IxIndexHandle

/-- `Iid`: a slot of a leaf. -/
structure Iid where
  pageNo : PageNo
  slotNo : Nat
  deriving DecidableEq, Repr

-- ---------------------------------------------------------------------------
-- The code
-- ---------------------------------------------------------------------------

namespace IxIndexHandle

variable {K : Type}

def leafEnd (h : IxIndexHandle K) : Except IxError Iid := do
  let node ← h.fetchNode h.lastLeaf
  return ⟨h.lastLeaf, node.keys.length⟩

def leafBegin (h : IxIndexHandle K) : Iid := ⟨h.firstLeaf, 0⟩

/-- The pair at a position: its key, and what `get_rid` returns. There is none behind the last pair
of a leaf. -/
def entryAt (h : IxIndexHandle K) (iid : Iid) : Option (K × Rid) := do
  let node ← h.pages iid.pageNo
  let key ← node.keys[iid.slotNo]?
  let rid ← node.rids[iid.slotNo]?
  some (key, rid)

variable [IxKey K]

/-- What `lower_bound` and `upper_bound` make of the slot that they find in the leaf of a key. -/
def boundIid (h : IxIndexHandle K) (key : K) (search : IxNode K → Nat) : Except IxError Iid := do
  let p ← h.findLeafPage key
  let leaf ← h.fetchNode p
  let slotNo := search leaf
  if slotNo = leaf.getSize ∧ leaf.nextLeaf ≠ noPage then return ⟨leaf.nextLeaf, 0⟩
  else return ⟨p, slotNo⟩

def lowerBound (h : IxIndexHandle K) (key : K) (pre : Nat) : Except IxError Iid :=
  h.boundIid key fun leaf => leaf.lowerBound key pre

def upperBound (h : IxIndexHandle K) (key : K) (pre : Nat) : Except IxError Iid :=
  h.boundIid key fun leaf => leaf.upperBound key pre

end IxIndexHandle

/-- A call of `lower_bound` or of `upper_bound`. -/
inductive IxBound (K : Type) where
  | lower (key : K)
  | upper (key : K)

namespace IxBound

variable {K : Type} [IxKey K]

def find (h : IxIndexHandle K) (pre : Nat) : IxBound K → Except IxError Iid
  | lower key => h.lowerBound key pre
  | upper key => h.upperBound key pre

/-- The keys that the bound is behind. -/
def Before : IxBound K → K → Prop
  | lower key, k => k < key
  | upper key, k => k ≤ key

instance (b : IxBound K) (k : K) : Decidable (b.Before k) :=
  match b with
  | lower key => inferInstanceAs (Decidable (k < key))
  | upper key => inferInstanceAs (Decidable (k ≤ key))

end IxBound

structure IxScan where
  iid : Iid
  upper : Iid
  reachedEnd : Bool
  currNodeSize : Int

namespace IxScan

variable {K : Type}

/-- The constructor of `IxScan`. -/
def new (h : IxIndexHandle K) (lower upper : Iid) : Except IxError IxScan :=
  if lower = upper then .ok ⟨lower, upper, false, -1⟩
  else do
    let node ← h.fetchNode lower.pageNo
    ixAssert node.isLeaf
    return ⟨lower, upper, false, node.keys.length⟩

def isEnd (s : IxScan) : Bool := s.reachedEnd || decide (s.iid = s.upper)

def next (h : IxIndexHandle K) (s : IxScan) : Except IxError IxScan := do
  ixAssert !s.isEnd
  let iid : Iid := ⟨s.iid.pageNo, s.iid.slotNo + 1⟩
  if iid.pageNo ≠ h.lastLeaf ∧ (iid.slotNo : Int) = s.currNodeSize then
    let node ← h.fetchNode iid.pageNo
    let iid : Iid := ⟨node.nextLeaf, 0⟩
    let node ← h.fetchNode iid.pageNo
    ixAssert node.isLeaf
    return { s with iid := iid, currNodeSize := node.keys.length }
  else if iid.pageNo = h.lastLeaf ∧ (iid.slotNo : Int) = s.currNodeSize then
    return { s with iid := iid, reachedEnd := true }
  else
    return { s with iid := iid }

/-- A scan gives the pairs at its positions. -/
def cursor (h : IxIndexHandle K) : Cursor IxScan (Option (K × Rid)) where
  begin s := some s
  next s := (s.next h).toOption
  isEnd := isEnd
  current s := h.entryAt s.iid

/-- A scan from `lower` to `upper` visits these pairs and is then at its end. -/
def Visits (h : IxIndexHandle K) (lower upper : Iid) (es : List (K × Rid)) : Prop :=
  ∃ s, IxScan.new h lower upper = .ok s ∧ (cursor h).Yields s (es.map some)

end IxScan

/-- The position `a` is not after `b`: in the same leaf it is not after it, or some leaf further on is
the leaf of `b`. -/
inductive NotAfter {K : Type} (h : IxIndexHandle K) : Iid → Iid → Prop where
  | same {a b : Iid} : a.pageNo = b.pageNo → a.slotNo ≤ b.slotNo → NotAfter h a b
  | next {a b : Iid} {n : IxNode K} : h.pages a.pageNo = some n → n.nextLeaf ≠ noPage →
    NotAfter h ⟨n.nextLeaf, 0⟩ b → NotAfter h a b

-- ---------------------------------------------------------------------------
-- Positions
-- ---------------------------------------------------------------------------

section Positions

variable {K : Type} {L LA LB LA' LB' : List (Leaf K)} {n n' m : Leaf K} {i j s s' : Nat}

/-- The position of the pair number `i`, or the end of the last leaf. -/
def iidAt : List (Leaf K) → Nat → Iid
  | [], _ => ⟨noPage, 0⟩
  | [n], i => ⟨n.page, i⟩
  | n :: m :: L, i => if i < n.entries.length then ⟨n.page, i⟩ else iidAt (m :: L) (i - n.entries.length)

/-- Pair number `i` stands in slot `s` of the leaf `n`. -/
structure AtSlot (L : List (Leaf K)) (i : Nat) (LA : List (Leaf K)) (n : Leaf K) (LB : List (Leaf K))
    (s : Nat) : Prop where
  leaves : L = LA ++ n :: LB
  index : i = (entriesOf LA).length + s
  le : s ≤ n.entries.length
  lt : LB ≠ [] → s < n.entries.length

theorem exists_atSlot (hL : L ≠ []) (hi : i ≤ (entriesOf L).length) :
    ∃ LA n LB s, AtSlot L i LA n LB s := by
  induction L generalizing i with
  | nil => exact absurd rfl hL
  | cons n L ih =>
    by_cases hin : i < n.entries.length
    · exact ⟨[], n, L, i, rfl, by simp, hin.le, fun _ => hin⟩
    cases L with
    | nil =>
      simp only [entriesOf_cons, entriesOf_nil, List.append_nil] at hi
      exact ⟨[], n, [], i, rfl, by simp, hi, fun h => absurd rfl h⟩
    | cons m L =>
      rw [entriesOf_cons, List.length_append] at hi
      obtain ⟨LA, n', LB, s, hat⟩ := @ih (i - n.entries.length) (by simp) (by omega)
      refine ⟨n :: LA, n', LB, s, by rw [hat.leaves, List.cons_append], ?_, hat.le, hat.lt⟩
      have := hat.index
      rw [entriesOf_cons, List.length_append]
      omega

theorem AtSlot.iidAt (h : AtSlot L i LA n LB s) : iidAt L i = ⟨n.page, s⟩ := by
  obtain ⟨rfl, rfl, hle, hlt⟩ := h
  induction LA with
  | nil =>
    cases LB with
    | nil => simp [Rmdb.iidAt]
    | cons m LB => simp [Rmdb.iidAt, hlt (by simp)]
  | cons a LA ih =>
    have hskip : ∀ (b : Leaf K) (L' : List (Leaf K)) (k : Nat),
        Rmdb.iidAt (a :: b :: L') (a.entries.length + k) = Rmdb.iidAt (b :: L') k := by
      intro b L' k
      simp [Rmdb.iidAt]
    rw [entriesOf_cons, List.length_append, Nat.add_assoc]
    cases LA with
    | nil => exact (hskip n LB _).trans ih
    | cons b LA => exact (hskip b (LA ++ n :: LB) _).trans ih

/-- Where the pairs stand in the leaf is where they stand in the tree. -/
theorem AtSlot.getElem? (h : AtSlot L i LA n LB s) (hs : s < n.entries.length) :
    (entriesOf L)[i]? = n.entries[s]? := by
  obtain ⟨rfl, rfl, -, -⟩ := h
  rw [entriesOf_append, entriesOf_cons, List.getElem?_append_right (by omega), Nat.add_sub_cancel_left,
    List.getElem?_append_left hs]

/-- A leaf stands at one place only. -/
theorem leaf_unique (hnd : (leafPages L).Nodup) (h : L = LA ++ n :: LB) (h' : L = LA' ++ n' :: LB')
    (hpage : n.page = n'.page) : LA = LA' ∧ n = n' ∧ LB = LB' := by
  subst h
  induction LA generalizing LA' with
  | nil =>
    cases LA' with
    | nil =>
      obtain ⟨rfl, rfl⟩ := List.cons.inj h'
      exact ⟨rfl, rfl, rfl⟩
    | cons a LA' =>
      obtain ⟨rfl, rfl⟩ := List.cons.inj h'
      have hmem : n'.page ∈ leafPages (LA' ++ n' :: LB') := mem_leafPages (by simp)
      exact absurd (hpage ▸ hmem) (List.nodup_cons.mp hnd).1
  | cons a LA ih =>
    cases LA' with
    | nil =>
      obtain ⟨rfl, rfl⟩ := List.cons.inj h'
      have hmem : n.page ∈ leafPages (LA ++ n :: LB) := mem_leafPages (by simp)
      exact absurd (hpage ▸ hmem) (List.nodup_cons.mp hnd).1
    | cons a' LA' =>
      obtain ⟨rfl, htail⟩ := List.cons.inj h'
      obtain ⟨rfl, rfl, rfl⟩ := ih (List.nodup_cons.mp hnd).2 htail
      exact ⟨rfl, rfl, rfl⟩

/-- Different places have different positions. -/
theorem iidAt_inj (hnd : (leafPages L).Nodup) (hL : L ≠ []) (hi : i ≤ (entriesOf L).length)
    (hj : j ≤ (entriesOf L).length) (heq : iidAt L i = iidAt L j) : i = j := by
  obtain ⟨LA, n, LB, s, hat⟩ := exists_atSlot hL hi
  obtain ⟨LA', n', LB', s', hat'⟩ := exists_atSlot hL hj
  rw [hat.iidAt, hat'.iidAt] at heq
  injection heq with hpage hslot
  obtain ⟨rfl, rfl, rfl⟩ := leaf_unique hnd hat.leaves hat'.leaves hpage
  rw [hat.index, hat'.index, hslot]

end Positions

-- ---------------------------------------------------------------------------
-- Bounds
-- ---------------------------------------------------------------------------

variable {K : Type} [IxKey K] {h : IxIndexHandle K} {L LA LB : List (Leaf K)} {n m : Leaf K}
  {up : List (List (Inner K))} {SA SB : List (K × PageNo)} {key : K} {i j s pre : Nat}

theorem Shape.nodup (hsh : Shape h L up) : (leafPages L).Nodup :=
  (List.nodup_append.mp hsh.placed.nodup).1

theorem Shape.ne_nil (hsh : Shape h L up) : L ≠ [] := by
  have hlen := hsh.seps_length
  rintro rfl
  simp at hlen

/-- A leaf of a tree with more than one leaf has pairs. -/
theorem Tree.entries_pos (ht : Tree h L up) (hmany : 2 ≤ L.length) (hn : n ∈ L) : 0 < n.entries.length := by
  have hup : up ≠ [] := by
    rintro rfl
    have hlen := ht.seps_length
    simp only [seps, List.length_nil] at hlen
    omega
  have hge := ht.leaf_ge hup n hn
  have horder := ht.order
  omega

/-- The page of a leaf, and what follows it. -/
theorem Shape.fetchLeaf (hsh : Shape h L up) (hL : L = LA ++ n :: LB) :
    ∃ node, h.fetchNode n.page = .ok node ∧ h.pages n.page = some node ∧ node.isLeaf = true ∧
      node.keys = n.keys ∧ node.rids = n.rids ∧ node.nextLeaf = (leafPages LB).headD noPage := by
  obtain ⟨node, hfetch, hleaf, hkeys, hrids, hlink, -⟩ := fetchNode_of_content
    (hsh.content n (by simp [hL]))
  have hpages : h.pages n.page = some node := by
    simp only [IxIndexHandle.fetchNode] at hfetch
    split at hfetch
    · rename_i hp
      rw [hp, Except.ok.inj hfetch]
    · cases hfetch
  refine ⟨node, hfetch, hpages, hleaf, hkeys, hrids, ?_⟩
  have hlinked := hsh.linked
  rw [hL, leafPages_append, leafPages_cons] at hlinked
  rw [hlinked.at] at hlink
  exact (congrArg Prod.snd (Option.some.inj hlink)).symm

theorem Shape.page_ne_noPage (hsh : Shape h L up) (hn : n ∈ L) : n.page ≠ noPage :=
  hsh.placed.ne_noPage (List.mem_append_left _ (mem_leafPages hn))

/-- Behind the last pair of a leaf is the first one of the next leaf. -/
theorem Tree.atSlot_next (ht : Tree h L up) (hL : L = LA ++ n :: m :: LB) :
    AtSlot L ((entriesOf LA).length + n.entries.length) (LA ++ [n]) m LB 0 := by
  refine ⟨by simp [hL], by simp, Nat.zero_le _, fun _ => ?_⟩
  have hmany : 2 ≤ L.length := by
    simp only [hL, List.length_append, List.length_cons]
    omega
  exact ht.entries_pos hmany (by simp [hL])

/-- A bound is the position of the place that is found in the leaf of the key. -/
theorem Tree.boundIid (ht : Tree h L up) (hpage : h.findLeafPage key = .ok n.page)
    (hL : L = LA ++ n :: LB) {search : IxNode K → Nat} (hsearch : ∀ node, node.keys = n.keys → search node = s)
    (hs : s ≤ n.entries.length) :
    h.boundIid key search = .ok (iidAt L ((entriesOf LA).length + s)) := by
  obtain ⟨node, hfetch, -, -, hkeys, -, hnext⟩ := ht.fetchLeaf hL
  have hsize : node.getSize = n.entries.length := by rw [IxNode.getSize, hkeys, Leaf.keys_length]
  simp only [IxIndexHandle.boundIid, hpage, hfetch, ok_bind, pure_eq_ok, hsearch node hkeys, hsize, hnext]
  cases LB with
  | nil =>
    have hat : AtSlot L _ LA n [] s := ⟨hL, rfl, hs, fun h => absurd rfl h⟩
    simp [hat.iidAt]
  | cons m LB =>
    have hne : m.page ≠ noPage := ht.page_ne_noPage (by simp [hL])
    by_cases hend : s = n.entries.length
    · subst hend
      simp [hne, (ht.atSlot_next hL).iidAt]
    · have hat : AtSlot L _ LA n (m :: LB) s := ⟨hL, rfl, hs, fun _ => lt_of_le_of_ne hs hend⟩
      simp [hend, hat.iidAt]

/-- The search for the first key of a leaf that fails `before`. -/
theorem Tree.boundIid_cut (ht : Tree h L up) (ha : Around L up key LA n LB SA SB)
    (hpage : h.findLeafPage key = .ok n.page) {before : K → Bool}
    (hmono : ∀ a b, a ≤ b → before b = true → before a = true) : ∃ y z,
      n.entries = y ++ z ∧ Cut.At (fun e : K × Rid => before e.1) y z ∧
      h.boundIid key (fun leaf => BinarySearch.searchList before leaf.keys) =
        .ok (iidAt L ((entriesOf LA).length + y.length)) := by
  have hinc := ha.keys_increasing ht.toShape
  rw [List.pairwise_map] at hinc
  obtain ⟨y, z, hyz, hcut⟩ := @Cut.exists_at _ _ (fun e : K × Rid => before e.1)
    (hinc.imp fun hab => hmono _ _ hab.le)
  refine ⟨y, z, hyz, hcut, ht.boundIid hpage ha.leaves (fun node hkeys => ?_) (by simp [hyz])⟩
  have hkeys' : node.keys = y.map Prod.fst ++ z.map Prod.fst := by
    rw [hkeys, Leaf.keys, hyz, List.map_append]
  rw [hkeys', BinarySearch.searchList_append, List.length_map]
  · simpa using fun a b hab => hcut.left (a, b) hab
  · simpa using fun a b hab => hcut.right (a, b) hab

/-- The bounds of a full key are at the place of the key among all pairs. -/
theorem Tree.find_bound (ht : Tree h L up) (hpre : ∀ a b : K, ixCompare a b pre = ixCompare a b 0)
    (b : IxBound K) : ∃ X Y, entriesOf L = X ++ Y ∧ Cut.At (fun e : K × Rid => decide (b.Before e.1)) X Y ∧
      b.find h pre = .ok (iidAt L X.length) := by
  have hfind : ∃ key, (∀ k, k < key → b.Before k) ∧ (∀ k, key < k → ¬ b.Before k) ∧
      b.find h pre = h.boundIid key fun leaf =>
        BinarySearch.searchList (fun k => decide (b.Before k)) leaf.keys := by
    cases b with
    | lower key =>
      refine ⟨key, fun k hk => hk, fun k hk => hk.asymm, ?_⟩
      simp only [IxBound.find, IxIndexHandle.lowerBound, IxNode.lowerBound, hpre, IxKey.ixCompare_lt_zero,
        IxBound.Before]
      congr!
    | upper key =>
      have hle : ∀ k, ixCompare k key 0 ≤ 0 ↔ k ≤ key := fun k => by
        rw [← not_lt, ixCompare_pos, not_lt]
      refine ⟨key, fun k hk => hk.le, fun k hk => not_le.mpr hk, ?_⟩
      simp only [IxBound.find, IxIndexHandle.upperBound, IxNode.upperBound, hpre, hle, IxBound.Before]
      congr!
  obtain ⟨key, hlt, hgt, hfind⟩ := hfind
  have hmono : ∀ a c, a ≤ c → decide (b.Before c) = true → decide (b.Before a) = true := by
    intro a c hac hc
    rw [decide_eq_true_iff] at hc ⊢
    cases b with
    | lower key => exact lt_of_le_of_lt hac hc
    | upper key => exact hac.trans hc
  obtain ⟨LA, n, LB, SA, SB, ha, hpage⟩ := ht.findLeafPage key
  obtain ⟨y, z, hyz, hcut, hiid⟩ := ht.boundIid_cut ha hpage hmono
  refine ⟨entriesOf LA ++ y, z ++ entriesOf LB, by simp [ha.leaves, hyz], hcut.append ?_ ?_, ?_⟩
  · exact fun e he => decide_eq_true (hlt e.1 (ha.left_lt ht.toShape e he))
  · exact fun e he => decide_eq_false (hgt e.1 (ha.right_lt ht.toShape e he))
  · rw [hfind, hiid, List.length_append]

-- ---------------------------------------------------------------------------
-- Scans
-- ---------------------------------------------------------------------------

theorem Shape.lastLeaf_eq (hsh : Shape h L up) (hL : L = LA ++ n :: LB) : n.page = h.lastLeaf ↔ LB = [] := by
  have hlast := hsh.lastLeaf
  have hnd := hsh.nodup
  rw [hL, leafPages_append, leafPages_cons] at hlast hnd
  cases LB with
  | nil =>
    refine iff_of_true ?_ rfl
    simpa using hlast
  | cons m LB =>
    refine iff_of_false (fun heq => ?_) (by simp)
    rw [leafPages_cons, List.getLast?_append, List.getLast?_cons_cons, ← leafPages_cons] at hlast
    have hmem : h.lastLeaf ∈ leafPages (m :: LB) := by
      refine List.mem_of_getLast? ?_
      rwa [leafPages_cons, List.getLast?_cons, Option.some_or, ← List.getLast?_cons,
        ← leafPages_cons] at hlast
    exact (List.nodup_cons.mp (List.nodup_append.mp hnd).2.1).1 (heq ▸ hmem)

/-- The pair at a position. -/
theorem Shape.entryAt (hsh : Shape h L up) (hat : AtSlot L i LA n LB s) (hs : s < n.entries.length) :
    h.entryAt ⟨n.page, s⟩ = (entriesOf L)[i]? := by
  obtain ⟨node, -, hpages, -, hkeys, hrids, -⟩ := hsh.fetchLeaf hat.leaves
  rw [hat.getElem? hs]
  simp [IxIndexHandle.entryAt, hpages, hkeys, hrids, Leaf.keys, Leaf.rids, hs]

/-- The state of a scan at pair number `i`, with the end before pair number `j`. -/
structure ScanAt (L : List (Leaf K)) (i j : Nat) (c : IxScan) : Prop where
  iid : c.iid = iidAt L i
  upper : c.upper = iidAt L j
  reachedEnd : i < j → c.reachedEnd = false
  currNodeSize : i < j → ∀ LA n LB s, AtSlot L i LA n LB s → c.currNodeSize = n.entries.length

variable {c : IxScan}

theorem ScanAt.isEnd_iff (hsh : Shape h L up) (hc : ScanAt L i j c) (hij : i ≤ j)
    (hj : j ≤ (entriesOf L).length) : c.isEnd = true ↔ i = j := by
  rw [IxScan.isEnd, Bool.or_eq_true, decide_eq_true_iff, hc.iid, hc.upper]
  constructor
  · rintro (hend | heq)
    · by_contra hne
      rw [hc.reachedEnd (lt_of_le_of_ne hij hne)] at hend
      cases hend
    · exact iidAt_inj hsh.nodup hsh.ne_nil (hij.trans hj) hj heq
  · rintro rfl
    exact .inr rfl

/-- The scan moves on by one pair. -/
theorem ScanAt.next (ht : Tree h L up) (hc : ScanAt L i j c) (hij : i < j) (hj : j ≤ (entriesOf L).length) :
    ∃ c', c.next h = .ok c' ∧ ScanAt L (i + 1) j c' := by
  have hend : c.isEnd = false := by
    rw [Bool.eq_false_iff, Ne, hc.isEnd_iff ht.toShape hij.le hj]
    exact hij.ne
  obtain ⟨LA, n, LB, s, hat⟩ := exists_atSlot ht.ne_nil (hij.le.trans hj)
  have hiid : c.iid = ⟨n.page, s⟩ := hc.iid.trans hat.iidAt
  have hsize := hc.currNodeSize hij LA n LB s hat
  have hslt : s < n.entries.length := by
    refine lt_of_le_of_ne hat.le fun heq => ?_
    cases LB with
    | nil =>
      have hlen : (entriesOf L).length = (entriesOf LA).length + n.entries.length := by
        simp [hat.leaves]
      have := hat.index
      omega
    | cons m LB => exact absurd heq (hat.lt (by simp)).ne
  have hlast := ht.lastLeaf_eq hat.leaves
  -- The same leaf goes on, another one follows, or the scan is at the end of the last one.
  by_cases hmore : s + 1 < n.entries.length
  · have hat' : AtSlot L (i + 1) LA n LB (s + 1) :=
      ⟨hat.leaves, by rw [hat.index, Nat.add_assoc], hmore.le, fun _ => hmore⟩
    have hne : ((s + 1 : Nat) : Int) ≠ n.entries.length := by omega
    refine ⟨{ c with iid := ⟨n.page, s + 1⟩ }, ?_, ⟨hat'.iidAt.symm, hc.upper, ?_, ?_⟩⟩
    · simp only [IxScan.next, hend, hiid, hsize, Bool.not_false, ixAssert, if_true, ok_bind, hne, and_false,
        if_false, pure_eq_ok]
    · exact fun hlt => hc.reachedEnd hij
    · intro _ LA' n' LB' s' hat''
      have heq := hat'.iidAt.symm.trans hat''.iidAt
      injection heq with hpage _
      obtain ⟨-, rfl, -⟩ := leaf_unique ht.nodup hat.leaves hat''.leaves hpage
      exact hsize
  · have hfull : s + 1 = n.entries.length := by omega
    have hcast : ((s + 1 : Nat) : Int) = n.entries.length := by rw [hfull]
    cases LB with
    | nil =>
      have hat' : AtSlot L (i + 1) LA n [] (s + 1) :=
        ⟨hat.leaves, by rw [hat.index, Nat.add_assoc], hfull.le, fun h => absurd rfl h⟩
      have hpage : n.page = h.lastLeaf := hlast.mpr rfl
      have hj' : ¬ i + 1 < j := by
        have hlen : (entriesOf L).length = (entriesOf LA).length + n.entries.length := by
          simp [hat.leaves]
        have := hat.index
        omega
      refine ⟨{ c with iid := ⟨n.page, s + 1⟩, reachedEnd := true }, ?_,
        ⟨hat'.iidAt.symm, hc.upper, fun hlt => absurd hlt hj', fun hlt => absurd hlt hj'⟩⟩
      simp only [IxScan.next, hend, hiid, hsize, Bool.not_false, ixAssert, if_true, ok_bind, hpage, hcast,
        ne_eq, not_true_eq_false, false_and, if_false, and_self, pure_eq_ok]
    | cons m LB =>
      obtain ⟨node, hfetch, -, -, -, -, hnext⟩ := ht.fetchLeaf hat.leaves
      have hL' : L = (LA ++ [n]) ++ m :: LB := by simp [hat.leaves]
      obtain ⟨node', hfetch', -, hleaf', hkeys', -, -⟩ := ht.fetchLeaf hL'
      have hat' : AtSlot L (i + 1) (LA ++ [n]) m LB 0 := by
        have h₁ := ht.atSlot_next hat.leaves
        rwa [← hfull, ← Nat.add_assoc, ← hat.index] at h₁
      have hpage : n.page ≠ h.lastLeaf := fun heq => by cases hlast.mp heq
      have hnext' : node.nextLeaf = m.page := by rw [hnext, leafPages_cons, List.headD_cons]
      refine ⟨{ c with iid := ⟨m.page, 0⟩, currNodeSize := m.entries.length }, ?_,
        ⟨hat'.iidAt.symm, hc.upper, fun _ => hc.reachedEnd hij, ?_⟩⟩
      · simp only [IxScan.next, hend, hiid, hsize, Bool.not_false, ixAssert, if_true, ok_bind, ne_eq, hpage,
          not_false_eq_true, hcast, and_self, hfetch, hnext', hfetch', hleaf', hkeys', Leaf.keys_length,
          pure_eq_ok]
      · intro _ LA' n' LB' s' hat''
        have heq := hat'.iidAt.symm.trans hat''.iidAt
        injection heq with hpage' _
        obtain ⟨-, rfl, -⟩ := leaf_unique ht.nodup hL' hat''.leaves hpage'
        rfl

theorem ScanAt.yields (ht : Tree h L up) (hc : ScanAt L i j c) (hij : i ≤ j) (hj : j ≤ (entriesOf L).length) :
    (IxScan.cursor h).Yields c ((((entriesOf L).take j).drop i).map some) := by
  induction hk : j - i generalizing i c with
  | zero =>
    obtain rfl : i = j := by omega
    have hnil : ((entriesOf L).take i).drop i = [] := by
      rw [List.drop_eq_nil_iff, List.length_take]
      omega
    rw [hnil]
    exact .done ((hc.isEnd_iff ht.toShape le_rfl hj).mpr rfl)
  | succ k ih =>
    have hlt : i < j := by omega
    obtain ⟨c', hnext, hc'⟩ := hc.next ht hlt hj
    have hend : c.isEnd = false := by
      rw [Bool.eq_false_iff, Ne, hc.isEnd_iff ht.toShape hij hj]
      exact hlt.ne
    obtain ⟨LA, n, LB, s, hat⟩ := exists_atSlot ht.ne_nil (hij.trans hj)
    have hitem : h.entryAt c.iid = (entriesOf L)[i]? := by
      rw [hc.iid, hat.iidAt]
      by_cases hs : s < n.entries.length
      · exact ht.entryAt hat hs
      · -- Only behind the last pair of all is there no pair.
        exfalso
        have hB : LB = [] := by
          by_contra hne
          exact hs (hat.lt hne)
        have hlen : (entriesOf L).length = (entriesOf LA).length + n.entries.length := by
          simp [hat.leaves, hB]
        have := hat.index
        omega
    have hcons : ((entriesOf L).take j).drop i =
        (entriesOf L)[i] :: ((entriesOf L).take j).drop (i + 1) := by
      rw [List.drop_eq_getElem_cons (by rw [List.length_take]; omega), List.getElem_take]
    have hcur : (IxScan.cursor h).current c = some (entriesOf L)[i] := by
      rw [← List.getElem?_eq_getElem]
      exact hitem
    rw [hcons, List.map_cons, ← hcur]
    refine .tuple hend ?_ (ih hc' hlt (by omega))
    show (c.next h).toOption = some c'
    rw [hnext]
    rfl

/-- A scan between two places visits the pairs between them. -/
theorem Tree.visits (ht : Tree h L up) (hij : i ≤ j) (hj : j ≤ (entriesOf L).length) :
    IxScan.Visits h (iidAt L i) (iidAt L j) (((entriesOf L).take j).drop i) := by
  by_cases heq : iidAt L i = iidAt L j
  · have hc : ScanAt L i j ⟨iidAt L i, iidAt L j, false, -1⟩ := by
      obtain rfl := iidAt_inj ht.nodup ht.ne_nil (hij.trans hj) hj heq
      exact ⟨rfl, rfl, fun h => absurd h (lt_irrefl _), fun h => absurd h (lt_irrefl _)⟩
    exact ⟨_, by rw [IxScan.new, if_pos heq], hc.yields ht hij hj⟩
  · obtain ⟨LA, n, LB, s, hat⟩ := exists_atSlot ht.ne_nil (hij.trans hj)
    obtain ⟨node, hfetch, -, hleaf, hkeys, -, -⟩ := ht.fetchLeaf hat.leaves
    have hc : ScanAt L i j ⟨iidAt L i, iidAt L j, false, n.entries.length⟩ := by
      refine ⟨rfl, rfl, fun _ => rfl, fun _ LA' n' LB' s' hat' => ?_⟩
      have hsame := hat.iidAt.symm.trans hat'.iidAt
      injection hsame with hpage _
      obtain ⟨-, rfl, -⟩ := leaf_unique ht.nodup hat.leaves hat'.leaves hpage
      rfl
    refine ⟨_, ?_, hc.yields ht hij hj⟩
    rw [IxScan.new, if_neg heq, hat.iidAt]
    simp [hfetch, hleaf, ixAssert, hkeys]

/-- The order of positions is that of the places. -/
theorem NotAfter.le (hsh : Shape h L up) {a b : Iid} (hab : NotAfter h a b)
    {LA LB LA' LB' : List (Leaf K)} {n n' : Leaf K} {s s' : Nat} (hL : L = LA ++ n :: LB)
    (ha : a = ⟨n.page, s⟩) (hs : s ≤ n.entries.length) (hat' : AtSlot L j LA' n' LB' s')
    (hb : b = ⟨n'.page, s'⟩) : (entriesOf LA).length + s ≤ j := by
  induction hab generalizing LA LB n s with
  | same hpage hslot =>
    subst ha hb
    obtain ⟨rfl, rfl, rfl⟩ := leaf_unique hsh.nodup hL hat'.leaves hpage
    rw [hat'.index]
    exact Nat.add_le_add_left hslot _
  | @next a b node hpages hne _ ih =>
    subst ha
    obtain ⟨node', -, hpages', -, -, -, hnext⟩ := hsh.fetchLeaf hL
    obtain rfl := Option.some.inj (hpages.symm.trans hpages')
    cases LB with
    | nil => exact absurd hnext hne
    | cons m LB =>
      have hL' : L = (LA ++ [n]) ++ m :: LB := by simp [hL]
      rw [leafPages_cons, List.headD_cons] at hnext
      have hle := @ih (LA ++ [n]) LB m 0 hL' (by rw [hnext]) (Nat.zero_le _) hb
      rw [entriesOf_append, entriesOf_cons, entriesOf_nil, List.append_nil, List.length_append] at hle
      omega

theorem NotAfter.index_le (hsh : Shape h L up) (hi : i ≤ (entriesOf L).length)
    (hj : j ≤ (entriesOf L).length) (hab : NotAfter h (iidAt L i) (iidAt L j)) : i ≤ j := by
  obtain ⟨LA, n, LB, s, hat⟩ := exists_atSlot hsh.ne_nil hi
  obtain ⟨LA', n', LB', s', hat'⟩ := exists_atSlot hsh.ne_nil hj
  have hle := hab.le hsh hat.leaves hat.iidAt hat.le hat' hat'.iidAt
  rwa [← hat.index] at hle

theorem Tree.leafBegin (ht : Tree h L up) : h.leafBegin = iidAt L 0 := by
  have hfirst := ht.firstLeaf
  cases L with
  | nil => exact absurd rfl ht.ne_nil
  | cons n L =>
    have hat : AtSlot (n :: L) 0 [] n L 0 := by
      refine ⟨rfl, rfl, Nat.zero_le _, fun hne => ?_⟩
      refine ht.entries_pos ?_ List.mem_cons_self
      have := List.length_pos_iff.mpr hne
      rw [List.length_cons]
      omega
    rw [hat.iidAt, IxIndexHandle.leafBegin, ← Option.some.inj hfirst]

theorem Shape.leafEnd (hsh : Shape h L up) : h.leafEnd = .ok (iidAt L (entriesOf L).length) := by
  obtain ⟨LA, n, hL⟩ : ∃ LA n, L = LA ++ [n] :=
    ⟨L.dropLast, L.getLast hsh.ne_nil, (List.dropLast_append_getLast hsh.ne_nil).symm⟩
  have hat : AtSlot L (entriesOf L).length LA n [] n.entries.length :=
    ⟨hL, by simp [hL], le_rfl, fun h => absurd rfl h⟩
  obtain ⟨node, hfetch, -, -, hkeys, -, -⟩ := hsh.fetchLeaf hL
  rw [(hsh.lastLeaf_eq hL).mpr rfl] at hfetch
  simp [IxIndexHandle.leafEnd, hfetch, hkeys, hat.iidAt, (hsh.lastLeaf_eq hL).mpr rfl]

-- ---------------------------------------------------------------------------
-- Ranges
-- ---------------------------------------------------------------------------

/-- A scan between two bounds of full keys visits the pairs between them. -/
theorem Tree.visits_range (ht : Tree h L up) (hpre : ∀ a b : K, ixCompare a b pre = ixCompare a b 0)
    (lo hi : IxBound K) : ∃ lower upper, lo.find h pre = .ok lower ∧ hi.find h pre = .ok upper ∧
      (NotAfter h lower upper → ∃ es, IxScan.Visits h lower upper es ∧ es.Pairwise (·.1 < ·.1) ∧
        ∀ e, e ∈ es ↔ e ∈ entriesOf L ∧ ¬ lo.Before e.1 ∧ hi.Before e.1) := by
  obtain ⟨X, Y, hXY, hcut, hlo⟩ := ht.find_bound hpre lo
  obtain ⟨X', Y', hXY', hcut', hhi⟩ := ht.find_bound hpre hi
  refine ⟨_, _, hlo, hhi, fun hnot => ?_⟩
  have hXlen : X.length ≤ (entriesOf L).length := by simp [hXY]
  have hXlen' : X'.length ≤ (entriesOf L).length := by simp [hXY']
  have hle := hnot.index_le ht.toShape hXlen hXlen'
  refine ⟨_, ht.visits hle hXlen', ?_, fun e => ?_⟩
  · exact ht.pairwise.sublist ((List.drop_sublist _ _).trans (List.take_sublist _ _))
  · rw [hcut.mem_between hcut' hXY hXY' hle, decide_eq_false_iff_not, decide_eq_true_iff]

theorem ixCompare_full {cols : List IxCol} (a b : KeyBytes cols) :
    ixCompare a b cols.length = ixCompare a b 0 := by
  show ixCompareBytes cols a.bytes b.bytes cols.length = ixCompareBytes cols a.bytes b.bytes 0
  simp only [ixCompareBytes]
  split <;> rfl

end Rmdb
