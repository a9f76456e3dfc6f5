-- SUMMARY: The invariant of the whole tree, seen from its leaves, and what a search finds in it.
import Rmdb.Index.Coalesce
import Rmdb.Index.Insert

/-!
# The tree seen from its leaves

A tree is a list of leaves with the upper levels over them. `Shape` says how they lie in
the file and that the keys are in order; it does not ask how full the leaves are, so that
it also holds while an operation is under way. `Filled` and `Tree` add the sizes.
-/

namespace Rmdb

open LinkedList Weave IxIndexHandle Blocks

/-- A leaf with its pairs. -/
structure Leaf (K : Type) where
  page : PageNo
  entries : List (K × Rid)

namespace Leaf

variable {K : Type}

def keys (n : Leaf K) : List K := n.entries.map Prod.fst

def rids (n : Leaf K) : List Rid := n.entries.map Prod.snd

@[simp] theorem keys_length (n : Leaf K) : n.keys.length = n.entries.length := List.length_map ..

@[simp] theorem rids_length (n : Leaf K) : n.rids.length = n.entries.length := List.length_map ..

end Leaf

def leafPages {K : Type} (L : List (Leaf K)) : List PageNo := L.map Leaf.page

/-- All pairs of the tree, in key order. -/
def entriesOf {K : Type} (L : List (Leaf K)) : List (K × Rid) := L.flatMap Leaf.entries

section

variable {K : Type} {L LA LB : List (Leaf K)} {n : Leaf K}

@[simp] theorem leafPages_append : leafPages (LA ++ LB) = leafPages LA ++ leafPages LB := List.map_append

@[simp] theorem leafPages_cons : leafPages (n :: L) = n.page :: leafPages L := rfl

@[simp] theorem leafPages_nil : leafPages ([] : List (Leaf K)) = [] := rfl

@[simp] theorem leafPages_length : (leafPages L).length = L.length := List.length_map ..

@[simp] theorem entriesOf_append : entriesOf (LA ++ LB) = entriesOf LA ++ entriesOf LB :=
  List.flatMap_append

@[simp] theorem entriesOf_cons : entriesOf (n :: L) = n.entries ++ entriesOf L := List.flatMap_cons

@[simp] theorem entriesOf_nil : entriesOf ([] : List (Leaf K)) = [] := rfl

theorem mem_leafPages (hn : n ∈ L) : n.page ∈ leafPages L := List.mem_map_of_mem hn

end

variable {K : Type} [IxKey K]

/-- The leaves `L` under the upper levels `up` are a search tree in the file. -/
structure Shape (h : IxIndexHandle K) (L : List (Leaf K)) (up : List (List (Inner K))) : Prop where
  placed : Placed h (leafPages L) up
  content : ∀ n ∈ L, h.content n.page = some (true, n.keys, n.rids)
  linked : Linked h.link noPage (leafPages L) noPage
  firstLeaf : (leafPages L).head? = some h.firstLeaf
  lastLeaf : (leafPages L).getLast? = some h.lastLeaf
  sized : Sized h.btreeOrder up
  order_pos : 1 ≤ h.btreeOrder
  seps_snd : (seps up).map Prod.snd = (leafPages L).tail
  separated : Separated (L.map Leaf.keys) ((seps up).map Prod.fst)
  height : up.length + 2 ≤ h.fuel

/-- A tree between two insertions: every leaf is as full as it must be. -/
structure Filled (h : IxIndexHandle K) (L : List (Leaf K)) (up : List (List (Inner K))) : Prop
    extends Shape h L up where
  leaf_le : ∀ n ∈ L, n.entries.length ≤ h.btreeOrder
  leaf_ge : up ≠ [] → ∀ n ∈ L, (h.btreeOrder + 1) / 2 ≤ n.entries.length

/-- A tree between two operations, of an order that deletions can do with. -/
structure Tree (h : IxIndexHandle K) (L : List (Leaf K)) (up : List (List (Inner K))) : Prop
    extends Filled h L up where
  order : 3 ≤ h.btreeOrder

variable {h h' : IxIndexHandle K} {L LA LB : List (Leaf K)} {n : Leaf K}
  {up up' : List (List (Inner K))} {SA SB : List (K × PageNo)} {key : K}

theorem Shape.seps_length (hsh : Shape h L up) : (seps up).length + 1 = L.length := by
  simpa using hsh.placed.upper.seps_length

/-- The keys of the tree increase. -/
theorem Shape.pairwise (hsh : Shape h L up) : (entriesOf L).Pairwise (fun a b => a.1 < b.1) := by
  have hlen := hsh.seps_length
  have hsep := hsh.separated
  unfold Separated at hsep
  have hsub : List.Sublist ((L.map Leaf.keys).map (List.map Blocks.key)).flatten
      (weave ((L.map Leaf.keys).map (List.map Blocks.key)) (((seps up).map Prod.fst).map sep)) :=
    flatten_sublist (by simpa using hlen)
  have hflat := hsep.sublist hsub
  have heq : ((L.map Leaf.keys).map (List.map Blocks.key)).flatten =
      (entriesOf L).map (fun e => Blocks.key e.1) := by
    induction L with
    | nil => rfl
    | cons n L _ =>
      simp [entriesOf, List.flatMap, Leaf.keys, List.map_flatten, Function.comp_def]
  rw [heq, List.pairwise_map] at hflat
  exact hflat.imp fun h => key_lt_key.mp h

/-- A leaf chosen by the separators around it. -/
structure Around (L : List (Leaf K)) (up : List (List (Inner K))) (key : K) (LA : List (Leaf K))
    (n : Leaf K) (LB : List (Leaf K)) (SA SB : List (K × PageNo)) : Prop where
  leaves : L = LA ++ n :: LB
  seps : seps up = SA ++ SB
  left_length : SA.length = LA.length
  right_length : SB.length = LB.length
  left : ∀ s ∈ SA, s.1 ≤ key
  right : ∀ s ∈ SB, key < s.1

/-- `find_leaf_page` finds the leaf whose separators enclose the key. -/
theorem Shape.findLeafPage (hsh : Shape h L up) (key : K) :
    ∃ LA n LB SA SB, Around L up key LA n LB SA SB ∧ h.findLeafPage key = .ok n.page := by
  have hlen := hsh.seps_length
  have hS := hsh.separated.seps (by simpa using hlen)
  obtain ⟨A, p, B, SA, SB, hps, hseps, hSA, hle, hlt, hroute⟩ := hsh.placed.upper.route hS key
  obtain ⟨LA, L', rfl, rfl, hL'⟩ := List.map_eq_append_iff.mp hps
  obtain ⟨n, LB, rfl, rfl, rfl⟩ := List.map_eq_cons_iff.mp hL'
  rw [List.length_map] at hSA
  refine ⟨LA, n, LB, SA, SB, ⟨rfl, hseps, hSA, ?_, hle, hlt⟩, ?_⟩
  · rw [hseps] at hlen
    simp only [List.length_append, List.length_cons] at hlen
    omega
  · obtain ⟨m, hm, hleaf, -⟩ := fetchNode_of_content (hsh.content n (by simp))
    have hheight := hsh.height
    obtain ⟨f, hf⟩ : ∃ f, h.fuel = (f + 1) + up.length := ⟨h.fuel - up.length - 1, by omega⟩
    rw [IxIndexHandle.findLeafPage, hf, hroute, findLeafPageLoop, hm]
    simp [hleaf]

/-- The order of the tree seen from the leaf. -/
theorem Around.separated (hsh : Shape h L up) (ha : Around L up key LA n LB SA SB) :
    Separated (LA.map Leaf.keys ++ n.keys :: LB.map Leaf.keys) (SA.map Prod.fst ++ SB.map Prod.fst) := by
  have hsep := hsh.separated
  rwa [ha.leaves, ha.seps, List.map_append, List.map_append, List.map_cons] at hsep

theorem Around.lengths (ha : Around L up key LA n LB SA SB) :
    (SA.map Prod.fst).length = (LA.map Leaf.keys).length ∧
      (SB.map Prod.fst).length = (LB.map Leaf.keys).length := by
  simp [ha.left_length, ha.right_length]

/-- The leaves to the left hold smaller keys. -/
theorem Around.left_lt (hsh : Shape h L up) (ha : Around L up key LA n LB SA SB) :
    ∀ e ∈ entriesOf LA, e.1 < key := by
  intro e he
  obtain ⟨m, hm, hmem⟩ := List.mem_flatMap.mp he
  exact (ha.separated hsh).lt_of_mem_left ha.lengths.1 (by simpa using fun a b hab => ha.left (a, b) hab)
    (List.mem_map_of_mem hm) (List.mem_map_of_mem hmem)

/-- The leaves to the right hold greater keys. -/
theorem Around.right_lt (hsh : Shape h L up) (ha : Around L up key LA n LB SA SB) :
    ∀ e ∈ entriesOf LB, key < e.1 := by
  intro e he
  obtain ⟨m, hm, hmem⟩ := List.mem_flatMap.mp he
  exact (ha.separated hsh).lt_of_mem_right ha.lengths.1 ha.lengths.2
    (by simpa using fun a b hab => ha.right (a, b) hab) (List.mem_map_of_mem hm) (List.mem_map_of_mem hmem)

theorem Around.keys_increasing (hsh : Shape h L up) (ha : Around L up key LA n LB SA SB) :
    (n.entries.map Prod.fst).Pairwise (· < ·) :=
  (ha.separated hsh).block ha.lengths.1

/-- Only the leaf that the search ends at can hold the key. -/
theorem Around.mem_iff (hsh : Shape h L up) (ha : Around L up key LA n LB SA SB) {rid : Rid} :
    (key, rid) ∈ entriesOf L ↔ (key, rid) ∈ n.entries := by
  rw [ha.leaves, entriesOf_append, entriesOf_cons, List.mem_append, List.mem_append]
  refine ⟨?_, fun hn => Or.inr (Or.inl hn)⟩
  rintro (hA | hn | hB)
  · exact absurd (ha.left_lt hsh _ hA) (lt_irrefl key)
  · exact hn
  · exact absurd (ha.right_lt hsh _ hB) (lt_irrefl key)

/-- The place of a key in a leaf. -/
theorem Around.cut (hsh : Shape h L up) (ha : Around L up key LA n LB SA SB) :
    ∃ y z, n.entries = y ++ z ∧ (∀ e ∈ y, e.1 < key) ∧ (∀ e ∈ z, key ≤ e.1) ∧
      (z.map Prod.fst).Pairwise (· < ·) := by
  have hblock := ha.keys_increasing hsh
  obtain ⟨y, z, hyz, hy, hz⟩ := exists_cut_lt Prod.fst key hblock
  refine ⟨y, z, hyz, hy, hz, ?_⟩
  rw [hyz, List.map_append, List.pairwise_append] at hblock
  exact hblock.2.1

/-- A search key and the leaf `n` that the search ends at: the pairs `y` before the place of
the key, and the pairs `z` from there on. -/
structure Found (h : IxIndexHandle K) (L : List (Leaf K)) (up : List (List (Inner K))) (key : K)
    (LA : List (Leaf K)) (n : Leaf K) (LB : List (Leaf K)) (SA SB : List (K × PageNo))
    (y z : List (K × Rid)) (node : IxNode K) : Prop extends Around L up key LA n LB SA SB where
  entries : n.entries = y ++ z
  before : ∀ e ∈ y, e.1 < key
  after : ∀ e ∈ z, key ≤ e.1
  increasing : (z.map Prod.fst).Pairwise (· < ·)
  page : h.findLeafPage key = .ok n.page
  fetch : h.fetchNode n.page = .ok node
  isLeaf : node.isLeaf = true
  keys : node.keys = y.map Prod.fst ++ z.map Prod.fst
  rids : node.rids = y.map Prod.snd ++ z.map Prod.snd
  slot : node.lowerBound key 0 = y.length

theorem Shape.find (hsh : Shape h L up) (key : K) :
    ∃ LA n LB SA SB y z node, Found h L up key LA n LB SA SB y z node := by
  obtain ⟨LA, n, LB, SA, SB, ha, hpage⟩ := hsh.findLeafPage key
  obtain ⟨y, z, hyz, hy, hz, hinc⟩ := ha.cut hsh
  obtain ⟨node, hfetch, hleaf, hkeys, hrids, -⟩ := fetchNode_of_content
    (hsh.content n (by rw [ha.leaves]; simp))
  rw [Leaf.keys, hyz, List.map_append] at hkeys
  rw [Leaf.rids, hyz, List.map_append] at hrids
  refine ⟨LA, n, LB, SA, SB, y, z, node, ⟨ha, hyz, hy, hz, hinc, hpage, hfetch, hleaf, hkeys, hrids, ?_⟩⟩
  rw [IxNode.lowerBound_append hkeys (by simpa using fun a b hab => hy (a, b) hab)
    (by simpa using fun a b hab => hz (a, b) hab), List.length_map]

variable {y z : List (K × Rid)} {node : IxNode K} {rid : Rid}

/-- The key is in the tree exactly when it stands at its place in the leaf. -/
theorem Found.mem_iff (hsh : Shape h L up) (hf : Found h L up key LA n LB SA SB y z node) :
    (key, rid) ∈ entriesOf L ↔ z.head? = some (key, rid) := by
  rw [hf.toAround.mem_iff hsh, hf.entries, List.mem_append]
  constructor
  · rintro (hy | hz)
    · exact absurd (hf.before _ hy) (lt_irrefl key)
    · cases z with
      | nil => cases hz
      | cons e z =>
        rcases List.mem_cons.mp hz with rfl | hz
        · rfl
        · have hinc := hf.increasing
          rw [List.map_cons, List.pairwise_cons] at hinc
          exact absurd (hinc.1 key (List.mem_map_of_mem hz)) (not_lt.mpr (hf.after e List.mem_cons_self))
  · intro hz
    obtain ⟨z, rfl⟩ := List.head?_eq_some_iff.mp hz
    exact Or.inr List.mem_cons_self

/-- The key at the place where the search ends. -/
theorem Found.getElem?_slot (hf : Found h L up key LA n LB SA SB y z node) :
    node.keys[node.lowerBound key 0]? = z.head?.map Prod.fst := by
  rw [hf.slot, hf.keys, List.getElem?_append_right (by simp)]
  cases z <;> simp

theorem Shape.isExist (hsh : Shape h L up) (key : K) :
    ∃ b, h.isExist key = .ok b ∧ (b = true ↔ ∃ rid, (key, rid) ∈ entriesOf L) := by
  obtain ⟨LA, n, LB, SA, SB, y, z, node, hf⟩ := hsh.find key
  refine ⟨decide (z.head?.map Prod.fst = some key), ?_, ?_⟩
  · simp only [IxIndexHandle.isExist, hf.page, ok_bind, hf.fetch, hf.getElem?_slot]
    cases z with
    | nil => simp
    | cons e z =>
      have heq : (ixCompare key e.1 0 == 0) = decide (e.1 = key) := by
        rw [Bool.eq_iff_iff, beq_iff_eq, decide_eq_true_iff, IxKey.ixCompare_eq_zero, eq_comm]
      simp [heq]
  · simp only [hf.mem_iff hsh, decide_eq_true_eq]
    cases z with
    | nil => simp
    | cons e z =>
      simp only [List.head?_cons, Option.map_some, Option.some.injEq]
      constructor
      · rintro rfl
        exact ⟨e.2, rfl⟩
      · rintro ⟨rid, rfl⟩
        rfl

/-- The loop of `get_value` stops at a key that differs. -/
theorem getValueLoop_eq {node : IxNode K} {y z : List (K × Rid)} {fuel : Nat}
    (hkeys : node.keys = y.map Prod.fst ++ z.map Prod.fst)
    (hrids : node.rids = y.map Prod.snd ++ z.map Prod.snd) :
    getValueLoop fuel node key y.length =
      ((z.take fuel).takeWhile fun e => decide (e.1 = key)).map Prod.snd := by
  induction fuel generalizing y z with
  | zero => simp [getValueLoop]
  | succ fuel ih =>
    cases z with
    | nil => simp [getValueLoop, hkeys]
    | cons e z =>
      have hk : node.keys[y.length]? = some e.1 := by simp [hkeys]
      have hr : node.rids[y.length]? = some e.2 := by simp [hrids]
      have hrest := ih (y := y ++ [e]) (z := z) (by simp [hkeys]) (by simp [hrids])
      rw [List.length_append, List.length_singleton] at hrest
      by_cases heq : e.1 = key
      · have hcmp : ixCompare key e.1 0 = 0 := (IxKey.ixCompare_eq_zero key e.1).mpr heq.symm
        rw [getValueLoop, hk, hr]
        simp only [hcmp, if_true, hrest]
        simp [heq]
      · have hcmp : ¬ ixCompare key e.1 0 = 0 := (IxKey.ixCompare_eq_zero key e.1).not.mpr (Ne.symm heq)
        simp [getValueLoop, hk, hr, hcmp, heq]

/-- `get_value` returns the rid of the key, if the key is in the tree. -/
theorem Shape.getValue (hsh : Shape h L up) (key : K) :
    ∃ rid?, h.getValue key = .ok rid?.toList ∧
      ∀ rid, rid? = some rid ↔ (key, rid) ∈ entriesOf L := by
  obtain ⟨LA, n, LB, SA, SB, y, z, node, hf⟩ := hsh.find key
  refine ⟨(z.head?.filter fun e => decide (e.1 = key)).map Prod.snd, ?_, fun rid => ?_⟩
  · have hsize : node.getSize = y.length + z.length := by simp [IxNode.getSize, hf.keys]
    simp only [IxIndexHandle.getValue, hf.page, hf.fetch, ok_bind, hf.slot, pure_eq_ok,
      getValueLoop_eq hf.keys hf.rids]
    rw [List.take_of_length_le (by omega)]
    cases z with
    | nil => rfl
    | cons e z =>
      by_cases heq : e.1 = key
      · -- The next key is greater already.
        have hz : z.takeWhile (fun e => decide (e.1 = key)) = [] := by
          cases z with
          | nil => rfl
          | cons e' z =>
            have hinc := hf.increasing
            rw [List.map_cons, List.pairwise_cons] at hinc
            have hlt := hinc.1 e'.1 (by simp)
            rw [heq] at hlt
            simp [hlt.ne']
        simp [heq, hz, Option.filter]
      · simp [heq]
  · rw [hf.mem_iff hsh]
    cases z with
    | nil => simp
    | cons e z =>
      by_cases heq : e.1 = key
      · subst heq
        simp [Prod.ext_iff]
      · simp [heq, Prod.ext_iff]

/-- A leaf refuses a key that is in the tree, and inserts any other at its place. -/
theorem Found.insert (hsh : Shape h L up) (hf : Found h L up key LA n LB SA SB y z node) (value : Rid) :
    ((∃ rid, (key, rid) ∈ entriesOf L) → node.insert key value = .error .indexEntryNotUnique) ∧
      ((¬ ∃ rid, (key, rid) ∈ entriesOf L) →
        node.insert key value = .ok { node with
          keys := y.map Prod.fst ++ key :: z.map Prod.fst
          rids := y.map Prod.snd ++ value :: z.map Prod.snd } ∧ ∀ e ∈ z, key < e.1) := by
  simp only [hf.mem_iff hsh]
  have hpair : node.insertPair y.length key value = { node with
      keys := y.map Prod.fst ++ key :: z.map Prod.fst
      rids := y.map Prod.snd ++ value :: z.map Prod.snd } := by
    rw [IxNode.insertPair, hf.keys, hf.rids]
    simp [insertAt]
  refine ⟨?_, fun habs => ⟨?_, ?_⟩⟩
  · rintro ⟨rid, hz⟩
    have hcmp : ¬ ixCompare key key 0 > 0 := by
      rw [gt_iff_lt, ixCompare_pos]
      exact lt_irrefl key
    simp [IxNode.insert, hf.getElem?_slot, hz, hcmp]
  · cases z with
    | nil =>
      have hslot : node.keys[y.length]? = none := by rw [← hf.slot, hf.getElem?_slot]; rfl
      simp [IxNode.insert, hf.slot, hslot, hpair]
    | cons e z =>
      have hne : e.1 ≠ key := fun heq => habs ⟨e.2, by simp [← heq]⟩
      have hcmp : ixCompare e.1 key 0 > 0 :=
        (ixCompare_pos e.1 key).mpr (lt_of_le_of_ne (hf.after e List.mem_cons_self) hne.symm)
      have hslot : node.keys[y.length]? = some e.1 := by rw [← hf.slot, hf.getElem?_slot]; rfl
      simp [IxNode.insert, hf.slot, hslot, hcmp, hpair]
  · intro e he
    refine lt_of_le_of_ne (hf.after e he) ?_
    rintro rfl
    exact habs ⟨e.2, (hf.mem_iff hsh).mp ((hf.toAround.mem_iff hsh).mpr (by simp [hf.entries, he]))⟩

end Rmdb
