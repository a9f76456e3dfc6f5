-- SUMMARY: Descent through the levels: the leaf of a key, and the first key below a node.
import Rmdb.Index.Levels
import Rmdb.Lib.Cut
import Rmdb.Lib.Separated

/-!
# Search

`get_min_leafnode` goes to the leftmost leaf below a node. `find_leaf_page` follows the
separators downwards: the leaf it ends at is the one whose separators enclose the key.
-/

namespace Rmdb

open LinkedList Weave IxIndexHandle

section MinLeaf

variable {K : Type}

-- ---------------------------------------------------------------------------
-- The first key below a node
-- ---------------------------------------------------------------------------

/-- The leftmost leaf below the page `p`, `d` levels down, is `l`; the way there stays
inside `D`. -/
def MinLeaf (c : PageNo → Option (Bool × List K × List Rid)) (D : Set PageNo) :
    Nat → PageNo → PageNo → Prop
  | 0, p, l => p = l ∧ p ∈ D ∧ ∃ ks rs, c p = some (true, ks, rs)
  | d + 1, p, l => p ∈ D ∧ ∃ ks r rs, c p = some (false, ks, r :: rs) ∧ MinLeaf c D d r.pageNo l

/-- The leaf `l` begins with the key `k`. -/
def FirstKey (c : PageNo → Option (Bool × List K × List Rid)) (l : PageNo) (k : K) : Prop :=
  ∃ ks rs, c l = some (true, k :: ks, rs)

variable {h : IxIndexHandle K} {c c' : PageNo → Option (Bool × List K × List Rid)}
  {D D' : Set PageNo} {d : Nat} {p l : PageNo} {k : K}

theorem MinLeaf.mem (hm : MinLeaf c D d p l) : p ∈ D := by
  cases d with
  | zero => exact hm.2.1
  | succ d => exact hm.1

theorem MinLeaf.leaf_mem (hm : MinLeaf c D d p l) : l ∈ D := by
  induction d generalizing p with
  | zero =>
    obtain ⟨rfl, hD, -⟩ := hm
    exact hD
  | succ d ih =>
    obtain ⟨-, ks, r, rs, -, hr⟩ := hm
    exact ih hr

theorem MinLeaf.congr (hm : MinLeaf c D d p l) (hc : ∀ x ∈ D, c' x = c x) (hD : D ⊆ D') :
    MinLeaf c' D' d p l := by
  induction d generalizing p with
  | zero =>
    obtain ⟨rfl, hp, hex⟩ := hm
    exact ⟨rfl, hD hp, by rwa [hc p hp]⟩
  | succ d ih =>
    obtain ⟨hp, ks, r, rs, hcp, hr⟩ := hm
    exact ⟨hD hp, ks, r, rs, by rw [hc p hp, hcp], ih hr⟩

theorem getMinLeafnodeLoop_eq (hm : MinLeaf h.content D d p l) {fuel : Nat} (hfuel : d < fuel) :
    getMinLeafnodeLoop fuel h p = .ok l := by
  induction d generalizing p fuel with
  | zero =>
    obtain ⟨rfl, -, ks, rs, hc⟩ := hm
    obtain ⟨n, hn, hleaf, -⟩ := fetchNode_of_content hc
    obtain ⟨fuel, rfl⟩ := Nat.exists_eq_add_one_of_ne_zero hfuel.ne'
    simp [getMinLeafnodeLoop, hn, hleaf]
  | succ d ih =>
    obtain ⟨-, ks, r, rs, hc, hr⟩ := hm
    obtain ⟨n, hn, hleaf, -, hrids, -⟩ := fetchNode_of_content hc
    obtain ⟨fuel, rfl⟩ := Nat.exists_eq_add_one_of_ne_zero (Nat.ne_zero_of_lt hfuel)
    have hrec := ih hr (show d < fuel by omega)
    simp [getMinLeafnodeLoop, hn, hleaf, hrids, arrayGet, hrec]

/-- `get_min_leafnode(p)->get_key(0)` is the first key of the leftmost leaf below `p`. -/
theorem minKey_eq (hm : MinLeaf h.content D d p l) (hk : FirstKey h.content l k)
    (hfuel : d < h.fuel) : h.minKey p = .ok k := by
  obtain ⟨ks, rs, hc⟩ := hk
  obtain ⟨n, hn, -, hkeys, -⟩ := fetchNode_of_content hc
  simp [minKey, getMinLeafnode, getMinLeafnodeLoop_eq hm hfuel, hn, hkeys, arrayGet]

end MinLeaf

variable {K : Type} [IxKey K]

-- ---------------------------------------------------------------------------
-- Binary search in a node
-- ---------------------------------------------------------------------------

theorem IxNode.lowerBound_append {n : IxNode K} {key : K} {A B : List K} (hkeys : n.keys = A ++ B)
    (hA : ∀ a ∈ A, a < key) (hB : ∀ b ∈ B, key ≤ b) : n.lowerBound key 0 = A.length := by
  rw [lowerBound, hkeys]
  refine BinarySearch.searchList_append (fun a ha => ?_) (fun b hb => ?_)
  · simpa [IxKey.ixCompare_lt_zero] using hA a ha
  · simpa [IxKey.ixCompare_lt_zero] using not_lt.mp (not_lt.mpr (hB b hb))

theorem IxNode.upperBound_append {n : IxNode K} {key : K} {A B : List K} (hkeys : n.keys = A ++ B)
    (hA : ∀ a ∈ A, a ≤ key) (hB : ∀ b ∈ B, key < b) : n.upperBound key 0 = A.length := by
  rw [upperBound, hkeys]
  refine BinarySearch.searchList_append (fun a ha => ?_) (fun b hb => ?_)
  · have := (ixCompare_pos a key).not.mpr (not_lt.mpr (hA a ha))
    simpa using this
  · simpa using (ixCompare_pos b key).mpr (hB b hb)

/-- Any threshold cuts an increasing list. -/
theorem exists_cut_le {α : Type} (f : α → K) (k : K) {l : List α}
    (h : (l.map f).Pairwise (· < ·)) :
    ∃ A B, l = A ++ B ∧ (∀ a ∈ A, f a ≤ k) ∧ ∀ b ∈ B, k < f b := by
  rw [List.pairwise_map] at h
  obtain ⟨A, B, rfl, hcut⟩ := @Cut.exists_at _ l (fun a => decide (f a ≤ k)) (h.imp fun hab hb =>
    decide_eq_true (hab.le.trans (of_decide_eq_true hb)))
  exact ⟨A, B, rfl, fun a ha => of_decide_eq_true (hcut.left a ha),
    fun b hb => not_le.mp (of_decide_eq_false (hcut.right b hb))⟩

theorem exists_cut_lt {α : Type} (f : α → K) (k : K) {l : List α}
    (h : (l.map f).Pairwise (· < ·)) :
    ∃ A B, l = A ++ B ∧ (∀ a ∈ A, f a < k) ∧ ∀ b ∈ B, k ≤ f b := by
  rw [List.pairwise_map] at h
  obtain ⟨A, B, rfl, hcut⟩ := @Cut.exists_at _ l (fun a => decide (f a < k)) (h.imp fun hab hb =>
    decide_eq_true (hab.trans (of_decide_eq_true hb)))
  exact ⟨A, B, rfl, fun a ha => of_decide_eq_true (hcut.left a ha),
    fun b hb => not_lt.mp (of_decide_eq_false (hcut.right b hb))⟩

-- ---------------------------------------------------------------------------
-- The leaf of a key
-- ---------------------------------------------------------------------------

variable {h h' : IxIndexHandle K} {ps A B : List PageNo} {p : PageNo}
  {U : List (Inner K)} {u : Inner K} {up : List (List (Inner K))} {key : K}

theorem findLeafPageLoop_inner (hu : u.Stored h) {KA KB : List (K × PageNo)} {RA RB : List Rid}
    {r : Rid} (hkeys : u.keys = KA ++ KB) (hrids : u.rids = RA ++ r :: RB)
    (hlen : KA.length = RA.length) (hKA : ∀ s ∈ KA, s.1 ≤ key) (hKB : ∀ s ∈ KB, key < s.1)
    (fuel : Nat) :
    findLeafPageLoop (fuel + 1) h key u.page = findLeafPageLoop fuel h key r.pageNo := by
  obtain ⟨n, hn, hleaf, hnk, hnr, -⟩ := fetchNode_of_content hu.content
  have hub : n.upperBound key 0 = RA.length := by
    rw [hkeys, List.map_append] at hnk
    rw [IxNode.upperBound_append hnk (by simpa using fun a b hab => hKA (a, b) hab)
      (by simpa using fun a b hab => hKB (a, b) hab), List.length_map, hlen]
  have hchild : n.internalLookup key 0 = .ok r.pageNo := by
    simp [IxNode.internalLookup, hub, hnr, hrids, arrayGet]
  simp [findLeafPageLoop, hn, hleaf, hchild]

/-- The descent from the root reaches, on each level, the page whose separators enclose
the key. -/
theorem Upper.route (hup : Upper h ps up) (hS : ((seps up).map Prod.fst).Pairwise (· < ·))
    (key : K) :
    ∃ A p B SA SB, ps = A ++ p :: B ∧ seps up = SA ++ SB ∧ SA.length = A.length ∧
      (∀ s ∈ SA, s.1 ≤ key) ∧ (∀ s ∈ SB, key < s.1) ∧
      ∀ fuel, findLeafPageLoop (fuel + up.length) h key h.rootPage =
        findLeafPageLoop fuel h key p := by
  induction up generalizing ps with
  | nil =>
    obtain ⟨r, rfl, -, rfl⟩ := hup
    exact ⟨[], h.rootPage, [], [], [], rfl, rfl, rfl, by simp, by simp, fun _ => rfl⟩
  | cons U up ih =>
    obtain ⟨⟨rfl, hst, -⟩, hup⟩ := hup
    have hlenT := hup.seps_length
    have hsub : List.Sublist (seps up) (seps (U :: up)) := seps_sublist (by simpa using hlenT)
    obtain ⟨A, q, B, TA, TB, hpages, hT, hTA, hle, hlt, hroute⟩ :=
      ih hup (hS.sublist (hsub.map Prod.fst))
    obtain ⟨UA, U', rfl, rfl, hU'⟩ := List.map_eq_append_iff.mp hpages
    obtain ⟨u, UB, rfl, rfl, rfl⟩ := List.map_eq_cons_iff.mp hU'
    rw [List.length_map] at hTA
    have hstu := hst u (by simp)
    have hseps : seps ((UA ++ u :: UB) :: up) =
        front (keysOf UA) TA ++ (u.keys ++ tail TB (keysOf UB)) := by
      rw [seps, hT, keysOf_append, keysOf_cons, weave_cut (by simpa using hTA)]
    rw [hseps, List.map_append, List.map_append, List.pairwise_append, List.pairwise_append] at hS
    obtain ⟨hfront, ⟨hkeys, htail, -⟩, -⟩ := hS
    obtain ⟨KA, KB, hk, hKA, hKB⟩ := exists_cut_le Prod.fst key hkeys
    -- The child number `KA.length` exists: there is one child more than keys.
    have hlen : KA.length < u.rids.length := by
      rw [hstu.length, hk, List.length_append]
      omega
    obtain ⟨RA, r, RB, hrids, hRA⟩ : ∃ RA r RB, u.rids = RA ++ r :: RB ∧ RA.length = KA.length :=
      ⟨u.rids.take KA.length, u.rids[KA.length], u.rids.drop (KA.length + 1), by simp,
        by rw [List.length_take]; omega⟩
    have hrids' : ∀ v ∈ UA, v.rids.length = v.keys.length + 1 := fun v hv => (hst v (by simp [hv])).length
    refine ⟨kidsOf UA ++ RA.map Rid.pageNo, r.pageNo, RB.map Rid.pageNo ++ kidsOf UB,
      front (keysOf UA) TA ++ KA, KB ++ tail TB (keysOf UB), ?_, ?_, ?_, ?_, ?_, fun fuel => ?_⟩
    · simp [Inner.kids, hrids]
    · rw [hseps, hk]
      simp
    · rw [List.length_append, List.length_append, front_length (by simpa using hTA),
        kidsOf_length hrids', List.length_map, hRA]
    · intro s hs
      rcases List.mem_append.mp hs with hs | hs
      · have hs' : s.1 ∈ front ((keysOf UA).map (List.map Prod.fst)) (TA.map Prod.fst) := by
          rw [← map_front]
          exact List.mem_map_of_mem hs
        rw [map_front] at hfront
        obtain ⟨t, ht, hst⟩ := exists_ge_of_mem_front hfront hs'
        obtain ⟨t', ht', rfl⟩ := List.mem_map.mp ht
        exact hst.trans (hle t' ht')
      · exact hKA s hs
    · intro s hs
      rcases List.mem_append.mp hs with hs | hs
      · exact hKB s hs
      · have hs' : s.1 ∈ tail (TB.map Prod.fst) ((keysOf UB).map (List.map Prod.fst)) := by
          rw [← map_tail]
          exact List.mem_map_of_mem hs
        rw [map_tail] at htail
        obtain ⟨t, ht, hst⟩ := exists_le_of_mem_tail htail hs'
        obtain ⟨t', ht', rfl⟩ := List.mem_map.mp ht
        exact (hlt t' ht').trans_le hst
    · rw [List.length_cons, ← Nat.add_assoc, Nat.add_right_comm, hroute (fuel + 1)]
      exact findLeafPageLoop_inner hstu hk hrids hRA.symm hKA hKB fuel

end Rmdb
