-- SUMMARY: `delete_entry` keeps the tree and takes one pair out of it.
import Rmdb.Index.InsertEntry

/-!
# Deletion of a pair

The pair goes out of the leaf of its key. If the leaf is too small then, it takes pairs
from a neighbour that can spare some, or it is merged with it.
-/

namespace Rmdb

open LinkedList Weave IxIndexHandle Blocks

variable {K : Type} [IxKey K] {h h' h₁ : IxIndexHandle K} {L LA LB : List (Leaf K)} {n l r : Leaf K}
  {up up' : List (List (Inner K))} {key : K} {fuel : Nat}

-- ---------------------------------------------------------------------------
-- The leaf
-- ---------------------------------------------------------------------------

/-- The loop of `remove` takes out the pair at its place and stops at the next one. -/
theorem removeLoop_eq {node : IxNode K} {y z : List (K × Rid)} (rid : Rid)
    (hkeys : node.keys = y.map Prod.fst ++ key :: z.map Prod.fst)
    (hrids : node.rids = y.map Prod.snd ++ rid :: z.map Prod.snd)
    (hz : ∀ e ∈ z, key < e.1) :
    IxNode.removeLoop (fuel + 1) node key y.length =
      { node with keys := (y ++ z).map Prod.fst, rids := (y ++ z).map Prod.snd } := by
  have hcmp : ixCompare key key 0 = 0 := (IxKey.ixCompare_eq_zero key key).mpr rfl
  have hget : node.keys[y.length]? = some key := by simp [hkeys]
  have herase : node.erasePair y.length =
      { node with keys := (y ++ z).map Prod.fst, rids := (y ++ z).map Prod.snd } := by
    simp [IxNode.erasePair, hkeys, hrids, List.eraseIdx_append]
  rw [IxNode.removeLoop, hget]
  simp only [hcmp, if_true, herase]
  cases fuel with
  | zero => rfl
  | succ fuel =>
    rw [IxNode.removeLoop]
    split
    · rfl
    · rename_i k hk
      -- The slot after the erased one holds a later key.
      have hmem : k ∈ z.map Prod.fst := by
        rw [List.map_append, List.getElem?_append_right (by simp)] at hk
        exact List.mem_of_getElem? hk
      obtain ⟨e, he, rfl⟩ := List.mem_map.mp hmem
      rw [if_neg]
      rw [IxKey.ixCompare_eq_zero]
      exact (hz e he).ne'

variable {SA SB : List (K × PageNo)} {y z : List (K × Rid)} {node : IxNode K}

/-- `remove` on the leaf of the key. -/
theorem Found.remove (hsh : Shape h L up) (hf : Found h L up key LA n LB SA SB y z node) :
    ∃ z', node.remove key =
        { node with keys := (y ++ z').map Prod.fst, rids := (y ++ z').map Prod.snd } ∧
      ((¬ ∃ rid, (key, rid) ∈ entriesOf L) ∧ z = z' ∨ ∃ rid, z = (key, rid) :: z') := by
  by_cases hex : ∃ rid, (key, rid) ∈ entriesOf L
  · obtain ⟨rid, hrid⟩ := hex
    obtain ⟨z', rfl⟩ := List.head?_eq_some_iff.mp ((hf.mem_iff hsh).mp hrid)
    refine ⟨z', ?_, Or.inr ⟨rid, rfl⟩⟩
    have hsize : node.getSize = y.length + z'.length + 1 := by
      simp [IxNode.getSize, hf.keys]
      omega
    have hinc := hf.increasing
    rw [List.map_cons, List.pairwise_cons] at hinc
    rw [IxNode.remove, hf.slot, hsize]
    refine removeLoop_eq rid (by simpa using hf.keys) (by simpa using hf.rids) fun e he => ?_
    exact hinc.1 e.1 (List.mem_map_of_mem he)
  · refine ⟨z, ?_, Or.inl ⟨hex, rfl⟩⟩
    have hnode : node = { node with keys := (y ++ z).map Prod.fst, rids := (y ++ z).map Prod.snd } := by
      rw [List.map_append, List.map_append, ← hf.keys, ← hf.rids]
    rw [← hnode, IxNode.remove, hf.slot]
    have hget := hf.getElem?_slot
    rw [hf.slot] at hget
    cases hs : node.getSize with
    | zero => rfl
    | succ fuel =>
      rw [IxNode.removeLoop, hget]
      cases z with
      | nil => rfl
      | cons e z =>
        have hne : e.1 ≠ key := fun heq => hex ⟨e.2, (hf.mem_iff hsh).mpr (by rw [← heq]; rfl)⟩
        have hcmp : ¬ ixCompare e.1 key 0 = 0 := (IxKey.ixCompare_eq_zero e.1 key).not.mpr hne
        simp [hcmp]

-- ---------------------------------------------------------------------------
-- Merging two leaves
-- ---------------------------------------------------------------------------

omit [IxKey K] in
/-- Leaves begin at themselves. -/
theorem mins_zero {c : PageNo → Option (Bool × List K × List Rid)} {D : Set PageNo} {ps : List PageNo}
    (hps : ∀ p ∈ ps, p ∈ D ∧ ∃ ks rs, c p = some (true, ks, rs)) : Mins c D 0 ps ps :=
  List.forall₂_same.mpr fun p hp => ⟨rfl, hps p hp⟩

omit [IxKey K] in
/-- Separators that were recomputed from the leaves. -/
theorem Refreshed.refresh {c : PageNo → Option (Bool × List K × List Rid)} {S S' : List (K × PageNo)}
    (hr : Refreshed c S S') (hS : S.map Prod.snd = leafPages L)
    (hc : ∀ n ∈ L, c n.page = some (true, n.keys, n.rids)) :
    Blocks.Refresh (L.map Leaf.keys) (S.map Prod.fst) (S'.map Prod.fst) := by
  unfold Refreshed at hr
  induction hr generalizing L with
  | nil =>
    obtain rfl : L = [] := by simpa [leafPages] using hS.symm
    exact .nil
  | @cons a b S S' hab _ ih =>
    cases L with
    | nil => cases hS
    | cons n L =>
      obtain ⟨hn, hL⟩ := List.cons.inj hS
      have hrest := ih hL fun m hm => hc m (List.mem_cons_of_mem n hm)
      rcases hab.2 with heq | ⟨ks, rs, hfirst⟩
      · rw [List.map_cons, List.map_cons, List.map_cons, heq]
        exact .keep n.keys a.1 hrest
      · rw [hab.1, hn, hc n List.mem_cons_self] at hfirst
        simp only [Option.some.injEq, Prod.mk.injEq, true_and] at hfirst
        rw [List.map_cons, List.map_cons, List.map_cons, hfirst.1]
        exact .first ks a.1 b.1 hrest

/-- Recomputed separators still separate the leaves. -/
theorem separated_refreshed {c : PageNo → Option (Bool × List K × List Rid)}
    {S S' : List (K × PageNo)} {y : PageNo} (hsep : Separated (L.map Leaf.keys) (S.map Prod.fst))
    (hy : leafPages L = y :: S.map Prod.snd) (hr : Refreshed c S S')
    (hc : ∀ n ∈ L, c n.page = some (true, n.keys, n.rids)) (hne : ∀ n ∈ L, n.entries ≠ []) :
    Separated (L.map Leaf.keys) (S'.map Prod.fst) := by
  cases L with
  | nil => cases hy
  | cons n L =>
    obtain ⟨-, hL⟩ := List.cons.inj hy
    refine Separated.refresh (show Separated ([] ++ n.keys :: L.map Leaf.keys) ([] ++ S.map Prod.fst) from hsep)
      rfl ?_ (hr.refresh hL.symm fun m hm => hc m (List.mem_cons_of_mem n hm))
    intro b hb
    obtain ⟨m, hm, rfl⟩ := List.mem_map.mp (List.map_cons ▸ hb : b ∈ (n :: L).map Leaf.keys)
    rw [Leaf.keys, ne_eq, List.map_eq_nil_iff]
    exact hne m hm

/-- The first part of `coalesce` on two neighbouring leaves. -/
theorem Shape.coalesceNodes (hsh : Shape h (LA ++ l :: r :: LB) up)
    (hsize : l.entries.length + r.entries.length ≤ h.btreeOrder) :
    ∃ h₁, h.coalesceNodes l.page r.page = .ok h₁ ∧
      h₁.content = Function.update h.content l.page (some (true, l.keys ++ r.keys, l.rids ++ r.rids)) ∧
      h₁.link = removeAfter h.link l.page (leafPages LB) noPage ∧ h₁.par = h.par ∧
      EndMoved h h₁ true (leafPages LB) l.page := by
  obtain ⟨nl, hnl, hlleaf, hlkeys, hlrids, hll, -⟩ := fetchNode_of_content (hsh.content l (by simp))
  obtain ⟨nr, hnr, hrleaf, hrkeys, hrrids, hrl, -⟩ := fetchNode_of_content (hsh.content r (by simp))
  have hlk : Linked h.link noPage (leafPages LA ++ l.page :: r.page :: leafPages LB) noPage := by
    simpa using hsh.linked
  have hlnext : nl.nextLeaf = r.page := by
    rw [hlk.at] at hll
    simp only [Option.some.injEq, Prod.mk.injEq] at hll
    exact hll.2.symm
  have hrnext : nr.nextLeaf = (leafPages LB).headD noPage := by
    have hat := Linked.at (show Linked h.link noPage ((leafPages LA ++ [l.page]) ++ r.page :: leafPages LB) noPage
      by simpa using hlk)
    rw [hat] at hrl
    simp only [Option.some.injEq, Prod.mk.injEq] at hrl
    exact hrl.2.symm
  obtain ⟨h₂, h₃, hset₂, hset₃, hc₃, hp₃, hl₃, he₃⟩ := unlink_spec true hlk
    fun z hz => hsh.placed.ne_noPage (by simp [hz])
  obtain ⟨n₃, hn₃, hleaf₃, hkeys₃, hrids₃, -⟩ := fetchNode_of_content
    (show h₃.content l.page = _ by rw [hc₃]; exact hsh.content l (by simp))
  generalize hh₁ : h₃.setNode l.page { n₃ with keys := l.keys ++ r.keys, rids := l.rids ++ r.rids } = h₁
  refine ⟨h₁, ?_, ?_, ?_, ?_, ?_⟩
  · simp only [IxIndexHandle.coalesceNodes, hnl, hnr, ok_bind, hlleaf, if_true, ixAssert, IxNode.getSize,
      IxNode.getMaxKeySize, hlkeys, hrkeys, Leaf.keys_length, hsize, decide_true, hrleaf, hlnext,
      beq_self_eq_true, hrnext, hset₂, hset₃, modifyNode, hn₃, hkeys₃, hrids₃, hrrids, pure_eq_ok, hh₁]
  · rw [← hh₁, content_setNode, hc₃, hleaf₃]
  · rw [← hh₁, link_setNode_keep hn₃, hl₃]
  · rw [← hh₁, par_setNode_keep hn₃, hp₃]
  · rw [EndMoved] at he₃ ⊢
    rw [← hh₁, setNode]
    dsimp only
    rw [he₃]

/-- `coalesce` on two neighbouring leaves. -/
theorem Shape.coalesce (hsh : Shape h (LA ++ l :: r :: LB) up) (hord : 3 ≤ h.btreeOrder)
    (hsize : l.entries.length + r.entries.length ≤ h.btreeOrder)
    (hne : ∀ m ∈ LA ++ LB, m.entries ≠ []) (hlr : l.entries ++ r.entries ≠ []) (hfuel : up.length ≤ fuel) :
    ∃ h₁ h' up', h.coalesceNodes l.page r.page = .ok h₁ ∧
      updateRightParentWith (coalesceOrRedistribute fuel) h₁ r.page = .ok h' ∧
      Shape h' (LA ++ ⟨l.page, l.entries ++ r.entries⟩ :: LB) up' ∧ h'.btreeOrder = h.btreeOrder := by
  obtain ⟨SA, x, SB, hS, hSA, -⟩ := hsh.between
  obtain ⟨h₁, hcode, hc₁, hl₁, hp₁, he₁⟩ := hsh.coalesceNodes hsize
  rw [EndMoved] at he₁
  generalize hn : (⟨l.page, l.entries ++ r.entries⟩ : Leaf K) = n
  have hpage : n.page = l.page := by rw [← hn]
  have hkeys : n.keys = l.keys ++ r.keys := by rw [← hn]; simp [Leaf.keys]
  have hrids : n.rids = l.rids ++ r.rids := by rw [← hn]; simp [Leaf.rids]
  have hnne : n.entries ≠ [] := by rw [← hn]; exact hlr
  have hpages : leafPages (LA ++ n :: LB) = (leafPages LA ++ [l.page]) ++ leafPages LB := by simp [hpage]
  have hpages' : leafPages (LA ++ l :: r :: LB) = (leafPages LA ++ [l.page]) ++ r.page :: leafPages LB := by
    simp
  have hnd := hsh.placed.ps_nodup
  have hr_out : r.page ∉ leafPages (LA ++ n :: LB) := by
    rw [hpages', List.nodup_middle, List.nodup_cons] at hnd
    rw [hpages]
    exact hnd.1
  have hsub : ∀ z ∈ leafPages (LA ++ n :: LB), z ∈ leafPages (LA ++ l :: r :: LB) := by
    intro z hz
    rw [hpages']
    rw [hpages] at hz
    simp only [List.mem_append, List.mem_cons] at hz ⊢
    tauto
  -- What the file holds of the leaves now.
  have hcontent : ∀ m ∈ LA ++ n :: LB, h₁.content m.page = some (true, m.keys, m.rids) := by
    intro m hm
    rcases (show m ∈ LA ++ LB ∨ m = n by simp at hm ⊢; tauto) with hm | rfl
    · rw [hc₁, Function.update_of_ne (leafPages_ne_two hm hnd).1, hsh.content m (by simp at hm ⊢; tauto)]
    · rw [hc₁, hpage, Function.update_self, hkeys, hrids]
  have hout : ∀ z ∈ upPages up, z ≠ l.page := by
    rintro z hz rfl
    exact hsh.placed.not_mem_up (by simp) hz
  have hpl₁ : Placed h₁ ((leafPages LA ++ [l.page]) ++ r.page :: leafPages LB) up := by
    rw [← hpages']
    refine ⟨?_, hsh.placed.nodup, ?_, ?_⟩
    · refine hsh.placed.upper.congr (fun z hz => ?_) (fun z hz => ?_) (fun z _ => by rw [hp₁]) (by rw [he₁])
      · rw [hc₁, Function.update_of_ne (hout z hz)]
      · rw [hl₁, removeAfter_of_ne (hout z hz)]
        exact fun hz' => hsh.placed.not_mem_up (by simp [hz']) hz
    · rw [he₁]
      exact hsh.placed.bound
    · rw [he₁]
      exact hsh.placed.free
  -- The separators left when the one between the two leaves goes.
  have hsnd := hsh.seps_snd
  rw [hS] at hsnd
  obtain ⟨hleft, hright⟩ := tail_cut (A := leafPages LA) (p := l.page) (B := r.page :: leafPages LB)
    (X := SA.map Prod.snd) (Y := (x :: SB).map Prod.snd) (by simpa using hsnd) (by simp [hSA])
  obtain ⟨-, hright⟩ := List.cons.inj hright
  obtain ⟨y, hy⟩ : ∃ y, leafPages (LA ++ n :: LB) = y :: (SA ++ SB).map Prod.snd := by
    rw [hpages, List.map_append, hleft, hright]
    cases LA with
    | nil => exact ⟨l.page, by simp⟩
    | cons m LA => exact ⟨m.page, by simp⟩
  have hfirst : ∀ z ∈ leafPages (LA ++ n :: LB), ∃ k, FirstKey h₁.content z k := by
    intro z hz
    obtain ⟨m, hm, rfl⟩ := List.mem_map.mp hz
    have hm0 : m.entries ≠ [] := by
      rcases (show m ∈ LA ++ LB ∨ m = n by simp at hm ⊢; tauto) with hm | rfl
      · exact hne m hm
      · exact hnne
    obtain ⟨e, es, hes⟩ := List.exists_cons_of_ne_nil hm0
    exact ⟨e.1, es.map Prod.fst, m.rids, by rw [hcontent m hm, Leaf.keys, hes]; rfl⟩
  have hfuel₁ : h₁.fuel = h.fuel := by rw [he₁]; rfl
  have hheight := hsh.height
  have hout' : ∀ z ∈ leafPages (LA ++ n :: LB), z ∉ {z | z = r.page ∨ z ∈ upPages up} := by
    rintro z hz (rfl | hz')
    · exact hr_out hz
    · exact hsh.placed.not_mem_up (hsub z hz) hz'
  obtain ⟨h', up', hrun, hrem, hsz'⟩ := updateRightParent_spec hord up h₁ (leafPages LA ++ [l.page])
    (leafPages LB) r.page y SA SB x {z | z ∈ leafPages (LA ++ n :: LB)} 0 fuel hpl₁ (by rw [he₁]) hsh.sized hS
    (by simp [hSA])
    (by
      rw [← hpages, ← hy]
      refine mins_zero fun z hz => ⟨hz, ?_⟩
      obtain ⟨m, hm, rfl⟩ := List.mem_map.mp hz
      exact ⟨_, _, hcontent m hm⟩)
    (by
      intro z hz hz'
      refine hout' z hz' ?_
      simpa using hz)
    (fun z hz => hfirst z (by rw [hy]; exact List.mem_cons_of_mem y hz))
    (by rw [hfuel₁]; omega) hfuel
  rw [← hpages] at hrem
  have horder : h'.btreeOrder = h.btreeOrder := by
    rw [hrem.frame.btreeOrder, he₁]
  have hsnd' : (seps up').map Prod.snd = (leafPages (LA ++ n :: LB)).tail := by
    rw [hrem.refreshed.map_snd, hy, List.tail_cons]
  refine ⟨h₁, h', up', hcode, hrun, ⟨hrem.placed, ?_, ?_, ?_, ?_, ?_, ?_, hsnd', ?_, ?_⟩, horder⟩
  · intro m hm
    rw [hrem.frame.content _ (hout' _ (mem_leafPages hm)), hcontent m hm]
  · have hlk := linked_removeAfter (by simpa using hsh.linked) (by simpa using hsh.placed.ps_nodup)
    rw [← hl₁] at hlk
    rw [hpages]
    refine Linked.congr (by simpa using hlk) fun z hz => hrem.frame.link z (hout' z (by rw [hpages]; exact hz))
  · rw [hpages, hrem.frame.firstLeaf, he₁, ← hsh.firstLeaf]
    cases LA <;> simp
  · rw [hpages, hrem.frame.lastLeaf, he₁]
    have := hsh.lastLeaf
    cases LB with
    | nil => simp
    | cons m LB => simpa using this
  · rw [horder]
    exact hsz'
  · rw [horder]
    exact hsh.order_pos
  · have hsep := hsh.separated
    rw [hS, List.map_append, List.map_append, List.map_cons, List.map_cons, List.map_cons] at hsep
    have hmerge := hsep.merge (by simp [hSA])
    rw [← hkeys, ← List.map_cons (f := Leaf.keys), ← List.map_append, ← List.map_append] at hmerge
    exact separated_refreshed hmerge hy hrem.refreshed hcontent fun m hm => by
      rcases (show m ∈ LA ++ LB ∨ m = n by simp at hm ⊢; tauto) with hm | rfl
      · exact hne m hm
      · exact hnne
  · have := hrem.length
    rw [hrem.same.fuel, hfuel₁]
    omega

-- ---------------------------------------------------------------------------
-- Underfull leaves
-- ---------------------------------------------------------------------------

/-- A leaf is as full as a leaf beside others must be. -/
def Leaf.Full (order : Nat) (n : Leaf K) : Prop :=
  (order + 1) / 2 ≤ n.entries.length ∧ n.entries.length ≤ order

/-- `redistribute` repairs an underfull leaf if its neighbour has a pair to spare. -/
theorem Shape.shareUnderflow (hsh : Shape h (LA ++ l :: r :: LB) up)
    (hother : ∀ m ∈ LA ++ LB, m.Full h.btreeOrder)
    (hmax : l.entries.length ≤ h.btreeOrder ∧ r.entries.length ≤ h.btreeOrder)
    (hshort : (l.entries.length + 1 = (h.btreeOrder + 1) / 2 ∧ (h.btreeOrder + 1) / 2 < r.entries.length) ∨
      (r.entries.length + 1 = (h.btreeOrder + 1) / 2 ∧ (h.btreeOrder + 1) / 2 < l.entries.length)) :
    ∃ h' L' up', h.redistribute l.page r.page = .ok h' ∧ Filled h' L' up' ∧ h'.btreeOrder = h.btreeOrder ∧
      entriesOf L' = entriesOf (LA ++ l :: r :: LB) := by
  obtain ⟨h', el, er, up', hcode, hsh', happ, hlr, hrl, horder, -⟩ := hsh.redistribute (by omega)
  have hlen := congrArg List.length happ
  simp only [List.length_append] at hlen
  refine ⟨h', _, up', hcode, .ofTwo hsh' ?_ ?_ ?_ ?_, horder, ?_⟩
  · exact fun m hm => by rw [horder]; exact (hother m hm).2
  · exact fun m hm => by rw [horder]; exact (hother m hm).1
  · rw [horder]
    dsimp only
    omega
  · rw [horder]
    dsimp only
    omega
  · simp only [entriesOf_append, entriesOf_cons]
    rw [← List.append_assoc el, happ, List.append_assoc]

/-- `coalesce` repairs an underfull leaf otherwise. -/
theorem Shape.mergeUnderflow (hsh : Shape h (LA ++ l :: r :: LB) up) (hord : 3 ≤ h.btreeOrder)
    (hother : ∀ m ∈ LA ++ LB, m.Full h.btreeOrder)
    (hsum : l.entries.length + r.entries.length + 1 = 2 * ((h.btreeOrder + 1) / 2)) (hfuel : up.length ≤ fuel) :
    ∃ h₁ h' L' up', h.coalesceNodes l.page r.page = .ok h₁ ∧
      updateRightParentWith (coalesceOrRedistribute fuel) h₁ r.page = .ok h' ∧ Filled h' L' up' ∧
      h'.btreeOrder = h.btreeOrder ∧ entriesOf L' = entriesOf (LA ++ l :: r :: LB) := by
  have hne : ∀ m ∈ LA ++ LB, m.entries ≠ [] := by
    intro m hm h0
    have := (hother m hm).1
    rw [h0, List.length_nil] at this
    omega
  have hlr : l.entries ++ r.entries ≠ [] := by
    intro h0
    have := congrArg List.length h0
    rw [List.length_append, List.length_nil] at this
    omega
  obtain ⟨h₁, h', up', hcode, hrun, hsh', horder⟩ := hsh.coalesce hord (by omega) hne hlr hfuel
  have hfull : ∀ m ∈ LA ++ ⟨l.page, l.entries ++ r.entries⟩ :: LB, m.Full h.btreeOrder := by
    intro m hm
    rcases (show m ∈ LA ++ LB ∨ m = ⟨l.page, l.entries ++ r.entries⟩ by simp at hm ⊢; tauto) with hm | rfl
    · exact hother m hm
    · rw [Leaf.Full, List.length_append]
      omega
  refine ⟨h₁, h', _, up', hcode, hrun, ⟨hsh', fun m hm => ?_, fun _ m hm => ?_⟩, horder, by simp⟩
  · rw [horder]
    exact (hfull m hm).2
  · rw [horder]
    exact (hfull m hm).1

/-- `coalesce_or_redistribute` on an underfull leaf. -/
theorem Shape.repair (hsh : Shape h (LA ++ n :: LB) up) (hord : 3 ≤ h.btreeOrder) (h0 : up ≠ [])
    (hother : ∀ m ∈ LA ++ LB, m.Full h.btreeOrder)
    (hshort : n.entries.length + 1 = (h.btreeOrder + 1) / 2) (hfuel : up.length < fuel) :
    ∃ b h' L' up', coalesceOrRedistribute fuel h n.page = .ok (b, h') ∧ Filled h' L' up' ∧
      h'.btreeOrder = h.btreeOrder ∧ entriesOf L' = entriesOf (LA ++ n :: LB) := by
  obtain ⟨fuel, rfl⟩ := Nat.exists_eq_add_one_of_ne_zero (Nat.ne_zero_of_lt hfuel)
  obtain ⟨node, hn, -, -, -, -, hnpar⟩ := fetchNode_of_content (hsh.content n (by simp))
  obtain ⟨hprev, hnext⟩ := hsh.neighbours hn
  obtain ⟨q, hq, hroot⟩ := hsh.placed.par_root (z := n.page) (by simp)
  obtain rfl : q = node.parent := Option.some.inj (hq.symm.trans hnpar)
  have hnroot : node.parent ≠ noPage := fun heq => h0 (hroot.mp heq)
  have hbig : ∀ m ∈ LA ++ n :: LB, ∃ nm, h.fetchNode m.page = .ok nm ∧ m.page ≠ noPage ∧
      (nm.getSize > nm.getMinKeySize h.btreeOrder ↔ (h.btreeOrder + 1) / 2 < m.entries.length) := by
    intro m hm
    obtain ⟨nm, hnm, hleaf, hkeys, -⟩ := fetchNode_of_content (hsh.content m hm)
    refine ⟨nm, hnm, hsh.placed.ne_noPage (List.mem_append_left _ (mem_leafPages hm)), ?_⟩
    simp [IxNode.getSize, IxNode.getMinKeySize, hleaf, hkeys]
  rcases List.eq_nil_or_concat' LA with rfl | ⟨LA, l, rfl⟩
  · -- The leftmost leaf: its right neighbour.
    obtain ⟨r, LB, rfl⟩ : ∃ r LB', LB = r :: LB' := by
      refine List.exists_cons_of_ne_nil ?_
      rintro rfl
      refine h0 ((hsh.placed.root_iff hord hsh.sized).mpr ?_)
      simp
    have hr := hother r (by simp)
    have hother' : ∀ m ∈ [] ++ LB, m.Full h.btreeOrder := fun m hm => hother m (by simp at hm ⊢; tauto)
    obtain ⟨nm, hnm, hne, hbig⟩ := hbig r (by simp)
    have hnext : node.nextLeaf = r.page := hnext
    by_cases hlt : (h.btreeOrder + 1) / 2 < r.entries.length
    · obtain ⟨h', L', up', hcode, htree, horder, hent⟩ := hsh.shareUnderflow hother' ⟨by omega, hr.2⟩
        (Or.inl ⟨hshort, hlt⟩)
      refine ⟨false, h', L', up', ?_, htree, horder, hent⟩
      simp [coalesceOrRedistribute, hn, IxNode.isRootPage, hnroot, hprev, hnext, hne, hnm, hbig.mpr hlt, hcode]
    · have hr1 := hr.1
      obtain ⟨h₁, h', L', up', hcode, hrun, htree, horder, hent⟩ := hsh.mergeUnderflow hord hother' (by omega)
        (show up.length ≤ fuel by omega)
      refine ⟨false, h', L', up', ?_, htree, horder, hent⟩
      simp [coalesceOrRedistribute, hn, IxNode.isRootPage, hnroot, hprev, hnext, hne, hnm, hbig.not.mpr hlt,
        hcode, hrun]
  · -- The left neighbour.
    rw [List.append_assoc, List.singleton_append] at hsh hbig ⊢
    have hl := hother l (by simp)
    have hother' : ∀ m ∈ LA ++ LB, m.Full h.btreeOrder := fun m hm => hother m (by simp at hm ⊢; tauto)
    obtain ⟨nm, hnm, hne, hbig⟩ := hbig l (by simp)
    have hprev : node.prevLeaf = l.page := by simp [hprev]
    by_cases hlt : (h.btreeOrder + 1) / 2 < l.entries.length
    · obtain ⟨h', L', up', hcode, htree, horder, hent⟩ := hsh.shareUnderflow hother' ⟨hl.2, by omega⟩
        (Or.inr ⟨hshort, hlt⟩)
      refine ⟨false, h', L', up', ?_, htree, horder, hent⟩
      simp [coalesceOrRedistribute, hn, IxNode.isRootPage, hnroot, hprev, hne, hnm, hbig.mpr hlt, hcode]
    · have hl1 := hl.1
      obtain ⟨h₁, h', L', up', hcode, hrun, htree, horder, hent⟩ := hsh.mergeUnderflow hord hother' (by omega)
        (show up.length ≤ fuel by omega)
      refine ⟨true, h', L', up', ?_, htree, horder, hent⟩
      simp [coalesceOrRedistribute, hn, IxNode.isRootPage, hnroot, hprev, hne, hnm, hbig.not.mpr hlt, hcode, hrun]

-- ---------------------------------------------------------------------------
-- Deletion
-- ---------------------------------------------------------------------------

/-- The leaves `L'` hold what `L` held, without the pair of the key. -/
def Deleted (L : List (Leaf K)) (key : K) (L' : List (Leaf K)) : Prop :=
  (¬ ∃ rid, (key, rid) ∈ entriesOf L) ∧ entriesOf L' = entriesOf L ∨
    ∃ Y rid Z, entriesOf L = Y ++ (key, rid) :: Z ∧ entriesOf L' = Y ++ Z

/-- `delete_entry` takes out the pair of the key, if there is one. -/
theorem Tree.deleteEntry (ht : Tree h L up) (key : K) :
    ∃ h' L' up', h.deleteEntry key = .ok h' ∧ Tree h' L' up' ∧ h'.btreeOrder = h.btreeOrder ∧
      Deleted L key L' := by
  obtain ⟨LA, n, LB, SA, SB, y, z, node, hf⟩ := ht.find key
  obtain ⟨z', hremove, hz⟩ := hf.remove ht.toShape
  have hsh := hf.leaves ▸ ht.toShape
  have hsep := ht.separated
  rw [hf.leaves, hf.seps, List.map_append, List.map_append, List.map_cons, Leaf.keys, hf.entries,
    List.map_append] at hsep
  have hsh₁ := hsh.setLeaf hf.fetch (y ++ z') (by
    rw [hf.seps, List.map_append, List.map_append, List.map_cons, Leaf.keys, List.map_append]
    rcases hz with ⟨-, rfl⟩ | ⟨rid, rfl⟩
    · exact hsep
    · rw [List.map_cons] at hsep
      exact hsep.erase (by simp [hf.left_length]))
  have hdel : Deleted L key (LA ++ ⟨n.page, y ++ z'⟩ :: LB) := by
    rw [Deleted, hf.leaves] at *
    rcases hz with ⟨habs, rfl⟩ | ⟨rid, rfl⟩
    · exact Or.inl ⟨habs, by simp [hf.entries]⟩
    · exact Or.inr ⟨entriesOf LA ++ y, rid, z' ++ entriesOf LB, by simp [hf.entries], by simp⟩
  generalize hnode' : ({ node with keys := (y ++ z').map Prod.fst
                                   rids := (y ++ z').map Prod.snd } : IxNode K) = node' at hremove hsh₁
  generalize hh₁ : h.setNode n.page node' = h₁ at hsh₁
  have horder₁ : h₁.btreeOrder = h.btreeOrder := by rw [← hh₁]; rfl
  have hsize : node'.getSize = (y ++ z').length := by
    rw [← hnode', IxNode.getSize]
    simp
  have hmin : node'.getMinKeySize h.btreeOrder = (h.btreeOrder + 1) / 2 := by
    rw [← hnode', IxNode.getMinKeySize]
    simp [hf.isLeaf]
  -- At most one pair has gone.
  have hlen : (y ++ z').length ≤ n.entries.length ∧ n.entries.length ≤ (y ++ z').length + 1 := by
    rw [hf.entries]
    rcases hz with ⟨-, rfl⟩ | ⟨rid, rfl⟩
    · exact ⟨le_rfl, Nat.le_succ _⟩
    · simp only [List.length_append, List.length_cons]
      omega
  have hle := ht.leaf_le n (by rw [hf.leaves]; simp)
  obtain ⟨q, hq, hroot⟩ := hsh.placed.par_root (z := n.page) (by simp)
  have hpar : node'.isRootPage = decide (up = []) := by
    obtain rfl : q = node.parent := Option.some.inj (hq.symm.trans (fetchNode_content hf.fetch).2.2)
    rw [← hnode', IxNode.isRootPage, Bool.eq_iff_iff, beq_iff_eq, decide_eq_true_iff]
    exact hroot
  have hcode : h.deleteEntry key =
      if up ≠ [] ∧ (y ++ z').length < (h.btreeOrder + 1) / 2 then
        coalesceOrRedistribute h₁.fuel h₁ n.page >>= fun r => .ok r.2
      else .ok h₁ := by
    simp [IxIndexHandle.deleteEntry, hf.page, hf.fetch, hremove, hh₁, hpar, horder₁, hsize, hmin]
  have hother : up ≠ [] → ∀ m ∈ LA ++ LB, m.Full h₁.btreeOrder := by
    intro h0 m hm
    have hm : m ∈ L := by rw [hf.leaves]; simp at hm ⊢; tauto
    rw [horder₁]
    exact ⟨ht.leaf_ge h0 m hm, ht.leaf_le m hm⟩
  by_cases hunder : up ≠ [] ∧ (y ++ z').length < (h.btreeOrder + 1) / 2
  · have hge := ht.leaf_ge hunder.1 n (by rw [hf.leaves]; simp)
    have hheight := hsh₁.height
    obtain ⟨b, h', L', up', hrun, htree, horder, hent⟩ := hsh₁.repair (by rw [horder₁]; exact ht.order) hunder.1 (hother hunder.1)
      (by rw [horder₁]; dsimp only; omega) (show up.length < h₁.fuel by omega)
    refine ⟨h', L', up', ?_, ⟨htree, by rw [horder, horder₁]; exact ht.order⟩, horder.trans horder₁,
      by rwa [Deleted, hent]⟩
    rw [hcode, if_pos hunder, hrun]
    rfl
  · refine ⟨h₁, _, up, by rw [hcode, if_neg hunder],
      ⟨⟨hsh₁, fun m hm => ?_, fun h0 m hm => ?_⟩, by rw [horder₁]; exact ht.order⟩, horder₁, hdel⟩
    · rcases (show m ∈ LA ++ LB ∨ m = ⟨n.page, y ++ z'⟩ by simp at hm ⊢; tauto) with hm | rfl
      · rw [horder₁]
        exact ht.leaf_le m (by rw [hf.leaves]; simp at hm ⊢; tauto)
      · rw [horder₁]
        exact hlen.1.trans hle
    · rcases (show m ∈ LA ++ LB ∨ m = ⟨n.page, y ++ z'⟩ by simp at hm ⊢; tauto) with hm | rfl
      · exact (hother h0 m hm).1
      · rw [horder₁]
        exact not_lt.mp fun hlt => hunder ⟨h0, hlt⟩

end Rmdb
