-- SUMMARY: `insert_entry` keeps the tree and adds one pair to it.
import Rmdb.Index.Leaves

/-!
# Insertion of a pair

A new pair goes into the leaf of its key. If the leaf is too large then, it shares its
pairs with a neighbour that has room, or it is split.
-/

namespace Rmdb

open LinkedList Weave IxIndexHandle Blocks

variable {K : Type} [IxKey K] {h h' h₁ : IxIndexHandle K} {L LA LB : List (Leaf K)} {n l r : Leaf K}
  {up up' : List (List (Inner K))} {key : K} {value : Rid}

-- ---------------------------------------------------------------------------
-- Other pairs in the leaves
-- ---------------------------------------------------------------------------

omit [IxKey K] in
theorem leafPages_ne {x : PageNo} (hx : x ∈ leafPages (LA ++ LB))
    (hnd : (leafPages (LA ++ n :: LB)).Nodup) : x ≠ n.page := by
  rintro rfl
  rw [leafPages_append, leafPages_cons, List.nodup_middle, List.nodup_cons, ← leafPages_append] at hnd
  exact hnd.1 hx

omit [IxKey K] in
theorem leafPages_ne_two {m : Leaf K} (hm : m ∈ LA ++ LB)
    (hnd : (leafPages (LA ++ l :: r :: LB)).Nodup) : m.page ≠ l.page ∧ m.page ≠ r.page := by
  refine ⟨leafPages_ne (mem_leafPages ?_) hnd, leafPages_ne (mem_leafPages ?_)
    (show (leafPages ((LA ++ [l]) ++ r :: LB)).Nodup by simpa using hnd)⟩
  · simp at hm ⊢
    tauto
  · simp at hm ⊢
    tauto

/-- Other pairs in one leaf. -/
theorem Shape.setLeaf (hsh : Shape h (LA ++ n :: LB) up) {node : IxNode K}
    (hn : h.fetchNode n.page = .ok node) (entries : List (K × Rid))
    (hsep : Separated ((LA ++ ⟨n.page, entries⟩ :: LB).map Leaf.keys) ((seps up).map Prod.fst)) :
    Shape (h.setNode n.page { node with keys := entries.map Prod.fst, rids := entries.map Prod.snd })
      (LA ++ ⟨n.page, entries⟩ :: LB) up := by
  have hleaf : node.isLeaf = true := by
    have hc := (fetchNode_content hn).1
    rw [hsh.content n (by simp)] at hc
    simp only [Option.some.injEq, Prod.mk.injEq] at hc
    exact hc.1.symm
  have hpages : leafPages (LA ++ ⟨n.page, entries⟩ :: LB) = leafPages (LA ++ n :: LB) := by simp
  refine ⟨⟨?_, ?_, ?_, hsh.placed.free⟩, ?_, ?_, ?_, ?_, hsh.sized, hsh.order_pos, ?_, hsep, hsh.height⟩
  · rw [hpages]
    refine hsh.placed.upper.congr (fun z hz => ?_) (fun z _ => by rw [link_setNode_keep hn])
      (fun z _ => by rw [par_setNode_keep hn]) rfl
    rw [content_setNode, Function.update_of_ne]
    rintro rfl
    exact hsh.placed.not_mem_up (by simp) hz
  · rw [hpages]
    exact hsh.placed.nodup
  · rw [hpages]
    exact hsh.placed.bound
  · intro m hm
    rcases (show m ∈ LA ++ LB ∨ m = ⟨n.page, entries⟩ by simp at hm ⊢; tauto) with hm | rfl
    · rw [content_setNode, Function.update_of_ne, hsh.content m (by simp at hm ⊢; tauto)]
      exact leafPages_ne (mem_leafPages hm) hsh.placed.ps_nodup
    · rw [content_setNode, Function.update_self, hleaf]
      rfl
  · rw [hpages, link_setNode_keep hn]
    exact hsh.linked
  · rw [hpages]
    exact hsh.firstLeaf
  · rw [hpages]
    exact hsh.lastLeaf
  · rw [hpages]
    exact hsh.seps_snd

omit [IxKey K] in
/-- `leafToLeft` on two leaves with the pairs `el` and `er`. -/
theorem leafToLeft_eq {nl nr : IxNode K} {el er : List (K × Rid)} {fuel : Nat}
    (hfuel : er.length ≤ fuel) (hsize : el.length ≤ er.length + 1) :
    ∃ el' er', leafToLeft fuel { nl with keys := el.map Prod.fst, rids := el.map Prod.snd }
        { nr with keys := er.map Prod.fst, rids := er.map Prod.snd } =
        ({ nl with keys := el'.map Prod.fst, rids := el'.map Prod.snd },
          { nr with keys := er'.map Prod.fst, rids := er'.map Prod.snd }) ∧
      el' ++ er' = el ++ er ∧ el'.length ≤ er'.length + 1 ∧ er'.length ≤ el'.length + 1 := by
  induction fuel generalizing el er with
  | zero => exact ⟨el, er, rfl, rfl, hsize, by omega⟩
  | succ fuel ih =>
    by_cases hlt : el.length + 1 < er.length
    · obtain ⟨e, er, rfl⟩ : ∃ e er', er = e :: er' :=
        List.exists_cons_of_ne_nil (by rintro rfl; simp at hlt)
      rw [List.length_cons] at hlt hfuel
      obtain ⟨el', er', heq, happ, hbal⟩ := ih (show er.length ≤ fuel by omega)
        (show (el ++ [e]).length ≤ _ by simp only [List.length_append, List.length_singleton]; omega)
      refine ⟨el', er', ?_, by rw [happ]; simp, hbal⟩
      rw [← heq]
      simp [leafToLeft, IxNode.getSize, hlt]
    · exact ⟨el, er, by simp [leafToLeft, IxNode.getSize, hlt], rfl, hsize, by omega⟩

omit [IxKey K] in
/-- `leafToRight` on two leaves with the pairs `el` and `er`. -/
theorem leafToRight_eq {nl nr : IxNode K} {el er : List (K × Rid)} {fuel : Nat}
    (hfuel : el.length ≤ fuel) (hsize : er.length ≤ el.length + 1) :
    ∃ el' er', leafToRight fuel { nl with keys := el.map Prod.fst, rids := el.map Prod.snd }
        { nr with keys := er.map Prod.fst, rids := er.map Prod.snd } =
        ({ nl with keys := el'.map Prod.fst, rids := el'.map Prod.snd },
          { nr with keys := er'.map Prod.fst, rids := er'.map Prod.snd }) ∧
      el' ++ er' = el ++ er ∧ el'.length ≤ er'.length + 1 ∧ er'.length ≤ el'.length + 1 := by
  induction fuel generalizing el er with
  | zero => exact ⟨el, er, rfl, rfl, by omega, hsize⟩
  | succ fuel ih =>
    by_cases hlt : er.length + 1 < el.length
    · obtain ⟨el, e, rfl⟩ : ∃ el' e, el = el' ++ [e] := by
        rcases List.eq_nil_or_concat' el with rfl | hex
        · simp at hlt
        · exact hex
      rw [List.length_append, List.length_singleton] at hlt hfuel
      obtain ⟨el', er', heq, happ, hbal⟩ := ih (show el.length ≤ fuel by omega)
        (show (e :: er).length ≤ _ by rw [List.length_cons]; omega)
      refine ⟨el', er', ?_, by rw [happ]; simp, hbal⟩
      rw [← heq]
      simp [leafToRight, IxNode.getSize, show er.length < el.length by omega]
    · exact ⟨el, er, by simp [leafToRight, IxNode.getSize, hlt], rfl, by omega, hsize⟩

omit [IxKey K] in
/-- Two leaves share their pairs, whichever has more of them. -/
theorem leaf_share {nl nr : IxNode K} (hl : nl.keys = l.keys ∧ nl.rids = l.rids)
    (hr : nr.keys = r.keys ∧ nr.rids = r.rids) :
    ∃ el er, (if nl.getSize < nr.getSize then leafToLeft nr.getSize nl nr
        else leafToRight nl.getSize nl nr) =
        ({ nl with keys := el.map Prod.fst, rids := el.map Prod.snd },
          { nr with keys := er.map Prod.fst, rids := er.map Prod.snd }) ∧
      el ++ er = l.entries ++ r.entries ∧ el.length ≤ er.length + 1 ∧ er.length ≤ el.length + 1 := by
  have hnl : nl = { nl with keys := l.entries.map Prod.fst, rids := l.entries.map Prod.snd } := by
    rw [← Leaf.keys, ← Leaf.rids, ← hl.1, ← hl.2]
  have hnr : nr = { nr with keys := r.entries.map Prod.fst, rids := r.entries.map Prod.snd } := by
    rw [← Leaf.keys, ← Leaf.rids, ← hr.1, ← hr.2]
  have hsizel : nl.getSize = l.entries.length := by simp [IxNode.getSize, hl.1]
  have hsizer : nr.getSize = r.entries.length := by simp [IxNode.getSize, hr.1]
  rw [hsizel, hsizer, hnl, hnr]
  split
  · exact leafToLeft_eq le_rfl (by omega)
  · exact leafToRight_eq le_rfl (by omega)

/-- The separator between two neighbouring leaves. -/
theorem Shape.between (hsh : Shape h (LA ++ l :: r :: LB) up) :
    ∃ SA x SB, seps up = SA ++ x :: SB ∧ SA.length = LA.length ∧ SB.length = LB.length := by
  have := hsh.seps_length
  simp only [List.length_append, List.length_cons] at this
  have hlt : LA.length < (seps up).length := by omega
  exact ⟨(seps up).take LA.length, (seps up)[LA.length], (seps up).drop (LA.length + 1), by simp,
    by rw [List.length_take]; omega, by rw [List.length_drop]; omega⟩

/-- `redistribute` on two neighbouring leaves. -/
theorem Shape.redistribute (hsh : Shape h (LA ++ l :: r :: LB) up)
    (hdiff : r.entries.length + 1 < l.entries.length ∨ l.entries.length + 1 < r.entries.length) :
    ∃ h' el er up', h.redistribute l.page r.page = .ok h' ∧
      Shape h' (LA ++ ⟨l.page, el⟩ :: ⟨r.page, er⟩ :: LB) up' ∧ el ++ er = l.entries ++ r.entries ∧
      el.length ≤ er.length + 1 ∧ er.length ≤ el.length + 1 ∧ h'.btreeOrder = h.btreeOrder ∧
      up'.length = up.length := by
  obtain ⟨SA, x, SB, hS, hSA, -⟩ := hsh.between
  obtain ⟨nl, hnl, hlleaf, hlkeys, hlrids, -⟩ := fetchNode_of_content (hsh.content l (by simp))
  obtain ⟨nr, hnr, hrleaf, hrkeys, hrrids, -⟩ := fetchNode_of_content (hsh.content r (by simp))
  obtain ⟨el, er, hmove, happ, hlr, hrl⟩ := leaf_share ⟨hlkeys, hlrids⟩ ⟨hrkeys, hrrids⟩
  have hpages : (leafPages LA ++ [l.page]) ++ r.page :: leafPages LB = leafPages (LA ++ l :: r :: LB) := by
    simp
  have hpages' : leafPages (LA ++ ⟨l.page, el⟩ :: ⟨r.page, er⟩ :: LB) = leafPages (LA ++ l :: r :: LB) := by
    simp
  have hne : l.page ≠ r.page := by
    have := hsh.placed.ps_nodup
    rw [leafPages_append, leafPages_cons, leafPages_cons, List.nodup_append, List.nodup_cons] at this
    exact fun heq => this.2.1.1 (by simp [heq])
  -- Both leaves have a pair now, as they had three at least.
  have hlen := congrArg List.length happ
  simp only [List.length_append] at hlen
  obtain ⟨e, er, rfl⟩ : ∃ e er', er = e :: er' := List.exists_cons_of_length_pos (by omega)
  have hel : el.map Prod.fst ≠ [] := by
    rw [ne_eq, List.map_eq_nil_iff]
    rintro rfl
    simp only [List.length_nil, List.length_cons] at *
    omega
  generalize hh₁ : (h.setNode l.page { nl with keys := el.map Prod.fst, rids := el.map Prod.snd }).setNode
    r.page { nr with keys := (e :: er).map Prod.fst, rids := (e :: er).map Prod.snd } = h₁
  obtain ⟨hc₁, hl₁, hp₁, hs₁⟩ := setTwo hnl hnr hne hh₁
  simp only [hlleaf, hrleaf] at hc₁ hh₁
  have hcr : h₁.content r.page = some (true, (e :: er).map Prod.fst, (e :: er).map Prod.snd) := by
    rw [hc₁, Function.update_self]
  have hout : ∀ z ∈ upPages up, z ≠ l.page ∧ z ≠ r.page := by
    intro z hz
    refine ⟨?_, ?_⟩
    · rintro rfl
      exact hsh.placed.not_mem_up (by simp) hz
    · rintro rfl
      exact hsh.placed.not_mem_up (by simp) hz
  have hup₁ : Upper h₁ ((leafPages LA ++ [l.page]) ++ r.page :: leafPages LB) up := by
    rw [hpages]
    refine hsh.placed.upper.congr (fun z hz => ?_) (fun z _ => by rw [hl₁]) (fun z _ => by rw [hp₁])
      hs₁.rootPage
    rw [hc₁, Function.update_of_ne (hout z hz).2, Function.update_of_ne (hout z hz).1]
  have hheight := hsh.height
  have hmin : h₁.minKey r.page = .ok e.1 :=
    minKey_eq (D := {r.page}) (d := 0) ⟨rfl, rfl, _, _, hcr⟩ ⟨_, _, hcr⟩ (by rw [hs₁.fuel]; omega)
  obtain ⟨h', up', hmp, hrel⟩ := maintainParent_spec x.2 hup₁
    (by rw [hpages]; exact hsh.placed.ps_nodup) hsh.placed.up_nodup
    (fun z hz => hsh.placed.ne_noPage (List.mem_append_right _ hz)) hS (by simp [hSA])
    (by rw [hs₁.fuel]; omega) hmin
  have hkeep : ∀ z ∈ leafPages (LA ++ l :: r :: LB), z ∉ {z | z ∈ upPages up} :=
    fun z hz => hsh.placed.not_mem_up hz
  have hcontent : ∀ z ∈ leafPages (LA ++ l :: r :: LB), h'.content z = h₁.content z :=
    fun z hz => hrel.frame.content z (hkeep z hz)
  have hsame : SameHdr h h' := hs₁.trans hrel.same
  have hhdr := hsame
  rw [SameHdr] at hhdr
  refine ⟨h', el, e :: er, up', ?_, ⟨⟨?_, ?_, ?_, ?_⟩, ?_, ?_, ?_, ?_, ?_, ?_, ?_, ?_, ?_⟩, happ, hlr, hrl,
    hsame.btreeOrder, hrel.length⟩
  · have hassert : (decide (nr.getSize + 1 < nl.getSize) || decide (nl.getSize + 1 < nr.getSize)) = true := by
      simpa [IxNode.getSize, hlkeys, hrkeys] using hdiff
    simp only [IxIndexHandle.redistribute, hnl, hnr, ok_bind, ixAssert, hassert, if_true, hlleaf, hrleaf,
      hmove, pure_eq_ok, hh₁, hmp]
  · rw [hpages', ← hpages]
    exact hrel.upper
  · rw [hpages', hrel.pages]
    exact hsh.placed.nodup
  · rw [hpages', hrel.pages, hsame.samePages.1]
    exact hsh.placed.bound
  · rw [hhdr]
    exact hsh.placed.free
  · intro m hm
    have hm' := mem_leafPages hm
    rw [hpages'] at hm'
    rw [hcontent m.page hm', hc₁]
    rcases (show m ∈ LA ++ LB ∨ m = ⟨l.page, el⟩ ∨ m = ⟨r.page, e :: er⟩ by simp at hm ⊢; tauto) with
      hm | rfl | rfl
    · obtain ⟨hml, hmr⟩ := leafPages_ne_two hm hsh.placed.ps_nodup
      rw [Function.update_of_ne hmr, Function.update_of_ne hml, hsh.content m (by simp at hm ⊢; tauto)]
    · rw [Function.update_of_ne hne, Function.update_self]
      rfl
    · rw [Function.update_self]
      rfl
  · rw [hpages']
    refine Linked.congr hsh.linked fun z hz => ?_
    rw [hrel.frame.link z (hkeep z hz), hl₁]
  · rw [hpages', hhdr]
    exact hsh.firstLeaf
  · rw [hpages', hhdr]
    exact hsh.lastLeaf
  · rw [hsame.btreeOrder]
    exact hrel.sized _ hsh.sized
  · rw [hsame.btreeOrder]
    exact hsh.order_pos
  · rw [hrel.seps, hpages', ← hsh.seps_snd, hS]
    simp
  · have hsep := hsh.separated
    rw [hS, List.map_append, List.map_append, List.map_cons, List.map_cons, List.map_cons] at hsep
    rw [hrel.seps, List.map_append, List.map_append, List.map_cons, List.map_cons, List.map_cons]
    refine hsep.share (by simp [hSA]) ?_ hel
    rw [Leaf.keys, Leaf.keys, ← List.map_append, ← happ]
    simp [Leaf.keys]
  · rw [hrel.length, hsame.fuel]
    exact hsh.height

-- ---------------------------------------------------------------------------
-- Splitting a leaf
-- ---------------------------------------------------------------------------

/-- The separators before and after a leaf. -/
theorem Shape.cut (hsh : Shape h (LA ++ n :: LB) up) :
    ∃ SA SB, seps up = SA ++ SB ∧ SA.length = LA.length ∧ SB.length = LB.length := by
  have := hsh.seps_length
  simp only [List.length_append, List.length_cons] at this
  exact ⟨(seps up).take LA.length, (seps up).drop LA.length, by simp,
    by rw [List.length_take]; omega, by rw [List.length_drop]; omega⟩

theorem tail_append_cons {α : Type} (A : List α) (p : α) (B : List α) :
    (A ++ p :: B).tail = (A ++ [p]).tail ++ B := by
  cases A <;> simp

/-- What belongs to the pages after the first, cut behind the page `p`. -/
theorem tail_cut {α : Type} {X Y A B : List α} {p : α} (h : X ++ Y = (A ++ p :: B).tail)
    (hlen : X.length = A.length) : X = (A ++ [p]).tail ∧ Y = B := by
  rw [tail_append_cons] at h
  exact List.append_inj h (by simp [hlen])

/-- `split` on a leaf with one pair too many. -/
theorem Shape.split (hsh : Shape h (LA ++ n :: LB) up) (hsize : n.entries.length = h.btreeOrder + 1) :
    ∃ q h' el er up', IxIndexHandle.split h.fuel h n.page = .ok (q, h') ∧
      Shape h' (LA ++ ⟨n.page, el⟩ :: ⟨q, er⟩ :: LB) up' ∧ el ++ er = n.entries ∧
      el.length = (h.btreeOrder + 1) / 2 ∧ h'.btreeOrder = h.btreeOrder ∧ up' ≠ [] := by
  obtain ⟨SA, SB, hS, hSA, -⟩ := hsh.cut
  have hord := hsh.order_pos
  have hheight := hsh.height
  obtain ⟨fuel, hfuel⟩ : ∃ f, h.fuel = f + 1 := ⟨h.fuel - 1, by omega⟩
  obtain ⟨el, e, er, hent, hel⟩ :
      ∃ el e er, n.entries = el ++ e :: er ∧ el.length = (h.btreeOrder + 1) / 2 := by
    have hm : (h.btreeOrder + 1) / 2 < n.entries.length := by omega
    exact ⟨n.entries.take ((h.btreeOrder + 1) / 2), n.entries[(h.btreeOrder + 1) / 2],
      n.entries.drop ((h.btreeOrder + 1) / 2 + 1), by simp, by rw [List.length_take]; omega⟩
  have hq : h.fd2pageno ∉ leafPages (LA ++ n :: LB) ++ upPages up :=
    fun hx => lt_irrefl _ (hsh.placed.bound _ hx).2
  have hq' : h.fd2pageno ∉ leafPages LA ++ n.page :: leafPages LB := by
    intro hx
    exact hq (List.mem_append_left _ (by simpa using hx))
  obtain ⟨h₁, hsplit, hc₁, hl₁, hp₁, hg, hlast⟩ := splitNode_leaf (h := h) (p := n.page)
    (A := leafPages LA) (B := leafPages LB)
    (show _ = some (true, el.map Prod.fst ++ e.1 :: er.map Prod.fst,
        el.map Prod.snd ++ (e :: er).map Prod.snd) by
      rw [hsh.content n (by simp), Leaf.keys, Leaf.rids, hent]; simp)
    (by simpa using hel) (by simp) hsh.placed.free
    (by simpa using hsh.linked)
    (fun x hx => hsh.placed.ne_noPage (by simp [hx])) hq'
  -- The first key of the right half separates the halves.
  have hsep : Separated (LA.map Leaf.keys ++ el.map Prod.fst :: (e.1 :: er.map Prod.fst) :: LB.map Leaf.keys)
      (SA.map Prod.fst ++ e.1 :: SB.map Prod.fst) := by
    have hsep := hsh.separated
    rw [hS, List.map_append, List.map_append, List.map_cons, Leaf.keys, hent, List.map_append,
      List.map_cons] at hsep
    refine hsep.split (by simp [hSA]) ?_
    rw [ne_eq, List.map_eq_nil_iff]
    rintro rfl
    rw [List.length_nil] at hel
    omega
  have hsort : ((SA ++ (e.1, h.fd2pageno) :: SB).map Prod.fst).Pairwise (· < ·) := by
    have hlen := hsh.seps_length
    rw [hS] at hlen
    have := hsep.seps (by simp at hlen ⊢; omega)
    simpa using this
  have hout : ∀ x ∈ leafPages (LA ++ n :: LB) ++ upPages up, x ≠ h.fd2pageno := by
    rintro x hx rfl
    exact hq hx
  have hpl₁ : Placed h₁ (leafPages LA ++ n.page :: leafPages LB) up := by
    have hpages : leafPages LA ++ n.page :: leafPages LB = leafPages (LA ++ n :: LB) := by simp
    rw [hpages]
    refine ⟨?_, hsh.placed.nodup, fun x hx => ?_, by rw [hg.firstFreePageNo, hsh.placed.free]⟩
    · refine hsh.placed.upper.congr (fun x hx => ?_) (fun x hx => ?_) (fun x hx => ?_) hg.rootPage
      · have hxn : x ≠ n.page := by
          rintro rfl
          exact hsh.placed.not_mem_up (by simp) hx
        rw [hc₁, Function.update_of_ne hxn, Function.update_of_ne (hout x (List.mem_append_right _ hx))]
      · have hxn : x ≠ n.page := by
          rintro rfl
          exact hsh.placed.not_mem_up (by simp) hx
        rw [hl₁, insertAfter_of_ne hxn (hout x (List.mem_append_right _ hx))]
        exact fun hx' => hsh.placed.not_mem_up (by simp [hx']) hx
      · rw [hp₁, Function.update_of_ne (hout x hx)]
    · obtain ⟨hx0, hxfd⟩ := hsh.placed.bound x hx
      exact ⟨hx0, by rw [hg.fd2pageno]; exact hxfd.trans (Int.lt_succ _)⟩
  have hn := hsh.placed.bound n.page (by simp)
  obtain ⟨h', up', hrec, hgrow, hseps', hsz', hne⟩ := insertIntoParent_spec up h₁ (leafPages LA)
    (leafPages LB) n.page h.fd2pageno SA SB e.1 h.fd2pageno fuel hpl₁ hg.btreeOrder hsh.sized hS
    (by simpa using hSA) hsort (by simpa using hq) (hn.1.trans hn.2.le)
    (by rw [hg.fd2pageno]; exact Int.lt_succ _)
    (by rw [hp₁, Function.update_self, Function.update_of_ne (hout n.page (by simp))])
    (by omega)
  have hpages : leafPages (LA ++ ⟨n.page, el⟩ :: ⟨h.fd2pageno, e :: er⟩ :: LB) =
      leafPages LA ++ n.page :: h.fd2pageno :: leafPages LB := by simp
  have hkeep : ∀ x ∈ leafPages LA ++ n.page :: h.fd2pageno :: leafPages LB,
      x ∉ {x | x ∈ upPages up ∨ h₁.fd2pageno ≤ x} := by
    rintro x hx (hx' | hx')
    · rcases (show x = h.fd2pageno ∨ x ∈ leafPages (LA ++ n :: LB) by simp at hx ⊢; tauto) with rfl | hx
      · exact hq (List.mem_append_right _ hx')
      · exact hsh.placed.not_mem_up hx hx'
    · rw [hg.fd2pageno] at hx'
      rcases (show x = h.fd2pageno ∨ x ∈ leafPages (LA ++ n :: LB) by simp at hx ⊢; tauto) with rfl | hx
      · exact absurd (Int.lt_succ _) (not_lt.mpr hx')
      · exact absurd ((hsh.placed.bound x (List.mem_append_left _ hx)).2.trans (Int.lt_succ _)) (not_lt.mpr hx')
  have hcontent : ∀ x ∈ leafPages LA ++ n.page :: h.fd2pageno :: leafPages LB,
      h'.content x = h₁.content x := fun x hx => hgrow.frame.content x (hkeep x hx)
  have hqn : h.fd2pageno ≠ n.page := (hout n.page (by simp)).symm
  refine ⟨h.fd2pageno, h', el, e :: er, up', ?_, ⟨?_, ?_, ?_, ?_, ?_, ?_, ?_, ?_, ?_, ?_⟩, hent.symm, hel,
    hgrow.frame.btreeOrder.trans hg.btreeOrder, hne⟩
  · simp only [hfuel, IxIndexHandle.split, hsplit, ok_bind, hrec, pure_eq_ok]
  · rw [hpages]
    exact hgrow.placed
  · intro m hm
    have hm' := mem_leafPages hm
    rw [hpages] at hm'
    rw [hcontent m.page hm', hc₁]
    rcases (show m ∈ LA ++ LB ∨ m = ⟨n.page, el⟩ ∨ m = ⟨h.fd2pageno, e :: er⟩ by simp at hm ⊢; tauto) with
      hm | rfl | rfl
    · have hmn := leafPages_ne (mem_leafPages hm) hsh.placed.ps_nodup
      have hmem : m ∈ LA ++ n :: LB := by simp at hm ⊢; tauto
      rw [Function.update_of_ne hmn, Function.update_of_ne (hout _ (List.mem_append_left _ (mem_leafPages hmem))),
        hsh.content m hmem]
    · rw [Function.update_self]
      rfl
    · rw [Function.update_of_ne hqn, Function.update_self]
      rfl
  · rw [hpages]
    have := linked_insertAfter (q := h.fd2pageno) (by simpa using hsh.linked)
      (by simpa using hsh.placed.ps_nodup) hq'
    rw [← hl₁] at this
    exact this.congr fun x hx => hgrow.frame.link x (hkeep x hx)
  · rw [hpages, hgrow.frame.firstLeaf, hg.firstLeaf, ← hsh.firstLeaf]
    cases LA <;> simp
  · rw [hpages, hgrow.frame.lastLeaf, hlast]
    have := hsh.lastLeaf
    cases LB with
    | nil => simp
    | cons m LB => simpa using this
  · rw [hgrow.frame.btreeOrder, hg.btreeOrder]
    exact hsz'
  · rw [hgrow.frame.btreeOrder, hg.btreeOrder]
    exact hord
  · have hsnd := hsh.seps_snd
    rw [hS] at hsnd
    rw [hseps', hpages]
    obtain ⟨hleft, hright⟩ := tail_cut (A := leafPages LA) (p := n.page) (B := leafPages LB)
      (by simpa using hsnd) (by simp [hSA])
    rw [List.map_append, List.map_cons, hleft, hright,
      tail_append_cons _ n.page (h.fd2pageno :: leafPages LB)]
  · rw [hseps']
    simpa [Leaf.keys] using hsep
  · have hh := hgrow.height
    rw [hg.numPages] at hh
    simp only [IxIndexHandle.fuel] at hheight ⊢
    omega

-- ---------------------------------------------------------------------------
-- Insertion
-- ---------------------------------------------------------------------------

omit [IxKey K] in
theorem hasRoom_noPage : h.hasRoom noPage = .ok false := by simp [hasRoom]

theorem Shape.hasRoom (hsh : Shape h L up) (hn : n ∈ L) :
    h.hasRoom n.page = .ok (decide (n.entries.length < h.btreeOrder)) := by
  obtain ⟨node, hfetch, hleaf, hkeys, -⟩ := fetchNode_of_content (hsh.content n hn)
  have hne : n.page ≠ noPage := hsh.placed.ne_noPage (List.mem_append_left _ (mem_leafPages hn))
  simp [IxIndexHandle.hasRoom, hne, hfetch, IxNode.getSize, IxNode.getMaxKeySize, hleaf, hkeys]

theorem Shape.hasRoom_prev (hsh : Shape h (LA ++ n :: LB) up) :
    ∃ b, h.hasRoom ((leafPages LA).getLastD noPage) = .ok b ∧
      (b = true → ∃ LA' l, LA = LA' ++ [l] ∧ l.entries.length < h.btreeOrder) := by
  rcases List.eq_nil_or_concat' LA with rfl | ⟨LA, l, rfl⟩
  · exact ⟨false, hasRoom_noPage, by simp⟩
  · refine ⟨_, by simpa using hsh.hasRoom (n := l) (by simp), fun hb => ⟨LA, l, rfl, by simpa using hb⟩⟩

theorem Shape.hasRoom_next (hsh : Shape h (LA ++ n :: LB) up) :
    ∃ b, h.hasRoom ((leafPages LB).headD noPage) = .ok b ∧
      (b = true → ∃ r LB', LB = r :: LB' ∧ r.entries.length < h.btreeOrder) := by
  cases LB with
  | nil => exact ⟨false, hasRoom_noPage, by simp⟩
  | cons r LB => exact ⟨_, hsh.hasRoom (n := r) (by simp), fun hb => ⟨r, LB, rfl, by simpa using hb⟩⟩

/-- The neighbours of a leaf. -/
theorem Shape.neighbours (hsh : Shape h (LA ++ n :: LB) up) {node : IxNode K}
    (hn : h.fetchNode n.page = .ok node) :
    node.prevLeaf = (leafPages LA).getLastD noPage ∧ node.nextLeaf = (leafPages LB).headD noPage := by
  have hat := Linked.at
    (show Linked h.link noPage (leafPages LA ++ n.page :: leafPages LB) noPage by simpa using hsh.linked)
  rw [(fetchNode_content hn).2.1] at hat
  simpa using hat

/-- `holderOf` finds the leaf of a pair that is in one of two neighbours. -/
theorem Shape.holderOf (hsh : Shape h (LA ++ l :: r :: LB) up) (hr : r.entries ≠ [])
    (hmem : (key, value) ∈ l.entries ++ r.entries) :
    ∃ m ∈ [l, r], h.holderOf key l.page r.page = .ok m.page ∧ (key, value) ∈ m.entries := by
  obtain ⟨e, er, her⟩ := List.exists_cons_of_ne_nil hr
  obtain ⟨node, hfetch, -, hkeys, -⟩ := fetchNode_of_content (hsh.content r (by simp))
  have hcode : h.holderOf key l.page r.page = .ok (if e.1 ≤ key then r.page else l.page) := by
    have hcmp : ixCompare key e.1 0 ≥ 0 ↔ e.1 ≤ key := by
      rw [ge_iff_le, ← not_lt, IxKey.ixCompare_lt_zero, not_lt]
    simp [IxIndexHandle.holderOf, hfetch, hkeys, Leaf.keys, her, arrayGet, hcmp]
  have hsort := hsh.pairwise
  rw [entriesOf_append, entriesOf_cons, entriesOf_cons, List.pairwise_append, List.pairwise_append,
    List.pairwise_append, her] at hsort
  obtain ⟨-, ⟨-, ⟨hsr, -, -⟩, hlr⟩, -⟩ := hsort
  by_cases hle : e.1 ≤ key
  · refine ⟨r, by simp, by rw [hcode, if_pos hle], (List.mem_append.mp hmem).resolve_left fun hl => ?_⟩
    exact absurd (hlr _ hl e (by simp)) (not_lt.mpr hle)
  · refine ⟨l, by simp, by rw [hcode, if_neg hle], (List.mem_append.mp hmem).resolve_right fun hr => ?_⟩
    rw [her] at hr
    rcases List.mem_cons.mp hr with heq | hr
    · exact hle (by rw [← heq])
    · exact hle (List.rel_of_pairwise_cons hsr hr).le

/-- The leaves `L'` hold what `L` held and one pair more, which is in the leaf on page `p`. -/
structure Inserted (L : List (Leaf K)) (key : K) (value : Rid) (p : PageNo) (L' : List (Leaf K)) :
    Prop where
  entries : ∃ Y Z, entriesOf L = Y ++ Z ∧ entriesOf L' = Y ++ (key, value) :: Z
  holder : ∃ n ∈ L', n.page = p ∧ (key, value) ∈ n.entries

/-- Two neighbours that have shared their pairs are full enough. -/
theorem Filled.ofTwo (hsh : Shape h (LA ++ l :: r :: LB) up)
    (hle : ∀ m ∈ LA ++ LB, m.entries.length ≤ h.btreeOrder)
    (hge : ∀ m ∈ LA ++ LB, (h.btreeOrder + 1) / 2 ≤ m.entries.length)
    (hl : (h.btreeOrder + 1) / 2 ≤ l.entries.length ∧ l.entries.length ≤ h.btreeOrder)
    (hr : (h.btreeOrder + 1) / 2 ≤ r.entries.length ∧ r.entries.length ≤ h.btreeOrder) :
    Filled h (LA ++ l :: r :: LB) up := by
  refine ⟨hsh, fun m hm => ?_, fun _ m hm => ?_⟩
  · rcases (show m ∈ LA ++ LB ∨ m = l ∨ m = r by simp at hm ⊢; tauto) with hm | rfl | rfl
    · exact hle m hm
    · exact hl.2
    · exact hr.2
  · rcases (show m ∈ LA ++ LB ∨ m = l ∨ m = r by simp at hm ⊢; tauto) with hm | rfl | rfl
    · exact hge m hm
    · exact hl.1
    · exact hr.1

/-- With two leaves there is a root above them. -/
theorem Shape.up_ne_nil (hsh : Shape h (LA ++ l :: r :: LB) up) : up ≠ [] := by
  rintro rfl
  have := hsh.seps_length
  simp only [seps, List.length_nil, List.length_append, List.length_cons] at this
  omega

/-- An overfull leaf shares its pairs with a neighbour that has room. -/
theorem Shape.shareOverflow (hsh : Shape h (LA ++ l :: r :: LB) up)
    (hle : ∀ m ∈ LA ++ LB, m.entries.length ≤ h.btreeOrder)
    (hge : ∀ m ∈ LA ++ LB, (h.btreeOrder + 1) / 2 ≤ m.entries.length)
    (hsize : (l.entries.length = h.btreeOrder + 1 ∧ r.entries.length < h.btreeOrder ∧
        (h.btreeOrder + 1) / 2 ≤ r.entries.length) ∨
      (r.entries.length = h.btreeOrder + 1 ∧ l.entries.length < h.btreeOrder ∧
        (h.btreeOrder + 1) / 2 ≤ l.entries.length))
    (hmem : (key, value) ∈ l.entries ++ r.entries) :
    ∃ p h' L' up', h.redistribute l.page r.page = .ok h' ∧ h'.holderOf key l.page r.page = .ok p ∧
      Filled h' L' up' ∧ h'.btreeOrder = h.btreeOrder ∧
      entriesOf L' = entriesOf (LA ++ l :: r :: LB) ∧ ∃ n ∈ L', n.page = p ∧ (key, value) ∈ n.entries := by
  have hord := hsh.order_pos
  obtain ⟨h', el, er, up', hcode, hsh', happ, hlr, hrl, horder, -⟩ := hsh.redistribute (by omega)
  have hlen := congrArg List.length happ
  simp only [List.length_append] at hlen
  rw [← horder] at hle hge
  have htree : Filled h' (LA ++ ⟨l.page, el⟩ :: ⟨r.page, er⟩ :: LB) up' :=
    .ofTwo hsh' hle hge (by rw [horder]; dsimp only; omega) (by rw [horder]; dsimp only; omega)
  obtain ⟨m, hm, hholder, hmem'⟩ := hsh'.holderOf
    (by rintro rfl; simp only [List.length_nil] at *; omega) (happ ▸ hmem)
  refine ⟨m.page, h', _, up', hcode, hholder, htree, horder, ?_, m, ?_, rfl, hmem'⟩
  · simp only [entriesOf_append, entriesOf_cons]
    rw [← List.append_assoc el, happ, List.append_assoc]
  · simp only [List.mem_append, List.mem_cons, List.not_mem_nil, or_false] at hm ⊢
    tauto

/-- An overfull leaf is split. -/
theorem Shape.splitOverflow (hsh : Shape h (LA ++ n :: LB) up)
    (hle : ∀ m ∈ LA ++ LB, m.entries.length ≤ h.btreeOrder)
    (hge : ∀ m ∈ LA ++ LB, (h.btreeOrder + 1) / 2 ≤ m.entries.length)
    (hsize : n.entries.length = h.btreeOrder + 1) (hmem : (key, value) ∈ n.entries) :
    ∃ q p h' L' up', IxIndexHandle.split h.fuel h n.page = .ok (q, h') ∧
      h'.holderOf key n.page q = .ok p ∧ Filled h' L' up' ∧ h'.btreeOrder = h.btreeOrder ∧
      entriesOf L' = entriesOf (LA ++ n :: LB) ∧ ∃ n ∈ L', n.page = p ∧ (key, value) ∈ n.entries := by
  have hord := hsh.order_pos
  obtain ⟨q, h', el, er, up', hcode, hsh', happ, hel, horder, -⟩ := hsh.split hsize
  have hlen := congrArg List.length happ
  simp only [List.length_append] at hlen
  rw [← horder] at hle hge
  have htree : Filled h' (LA ++ ⟨n.page, el⟩ :: ⟨q, er⟩ :: LB) up' :=
    .ofTwo hsh' hle hge (by rw [horder]; dsimp only; omega) (by rw [horder]; dsimp only; omega)
  obtain ⟨m, hm, hholder, hmem'⟩ := hsh'.holderOf
    (by rintro rfl; simp only [List.length_nil] at *; omega) (happ ▸ hmem)
  refine ⟨q, m.page, h', _, up', hcode, hholder, htree, horder, ?_, m, ?_, rfl, hmem'⟩
  · simp only [entriesOf_append, entriesOf_cons]
    rw [← List.append_assoc el, happ]
  · simp only [List.mem_append, List.mem_cons, List.not_mem_nil, or_false] at hm ⊢
    tauto

/-- `insert_entry` of a key that is in the tree. -/
theorem Filled.insertEntry_present (ht : Filled h L up) (hkey : ∃ rid, (key, rid) ∈ entriesOf L) :
    h.insertEntry key value = .error .indexEntryNotUnique := by
  obtain ⟨LA, n, LB, SA, SB, y, z, node, hf⟩ := ht.find key
  simp [insertEntry, hf.page, hf.fetch, (hf.insert ht.toShape value).1 hkey]

/-- The leaf of a new key with the new pair in it. -/
theorem Filled.insertLeaf (ht : Filled h L up) (value : Rid)
    {SA SB : List (K × PageNo)} {y z : List (K × Rid)} {node : IxNode K}
    (hf : Found h L up key LA n LB SA SB y z node)
    (hkey : ¬ ∃ rid, (key, rid) ∈ entriesOf L) :
    Shape (h.setNode n.page { node with
        keys := (y ++ (key, value) :: z).map Prod.fst
        rids := (y ++ (key, value) :: z).map Prod.snd })
      (LA ++ ⟨n.page, y ++ (key, value) :: z⟩ :: LB) up := by
  obtain ⟨-, hz⟩ := (hf.insert ht.toShape value).2 hkey
  have hsh := ht.toShape
  have hsep := ht.separated
  rw [hf.leaves] at hsh
  rw [hf.leaves, hf.seps, List.map_append, List.map_append, List.map_cons, Leaf.keys, hf.entries,
    List.map_append] at hsep
  refine hsh.setLeaf hf.fetch _ ?_
  rw [hf.seps, List.map_append, List.map_append, List.map_cons, Leaf.keys, List.map_append, List.map_cons]
  exact hsep.insert (by simp [hf.left_length]) (by simpa using fun a b hab => hf.left (a, b) hab)
    (by simpa using fun a b hab => hf.right (a, b) hab) (by simpa using fun a b hab => hf.before (a, b) hab)
    (by simpa using fun a b hab => hz (a, b) hab)

/-- `insert_entry` of a key that is not in the tree. -/
theorem Filled.insertEntry_absent (ht : Filled h L up) (value : Rid) (hkey : ¬ ∃ rid, (key, rid) ∈ entriesOf L) :
    ∃ p h' L' up', h.insertEntry key value = .ok (p, h') ∧ Filled h' L' up' ∧
      h'.btreeOrder = h.btreeOrder ∧ Inserted L key value p L' := by
  obtain ⟨LA, n, LB, SA, SB, y, z, node, hf⟩ := ht.find key
  obtain ⟨hins, -⟩ := (hf.insert ht.toShape value).2 hkey
  have hsh := ht.insertLeaf value hf hkey
  obtain ⟨hprev, hnext⟩ := Shape.neighbours (hf.leaves ▸ ht.toShape) hf.fetch
  have hkeys : y.map Prod.fst ++ key :: z.map Prod.fst = (y ++ (key, value) :: z).map Prod.fst := by simp
  have hrids : y.map Prod.snd ++ value :: z.map Prod.snd = (y ++ (key, value) :: z).map Prod.snd := by simp
  rw [hkeys, hrids] at hins
  generalize hnode' : ({ node with keys := (y ++ (key, value) :: z).map Prod.fst
                                   rids := (y ++ (key, value) :: z).map Prod.snd } : IxNode K) = node' at hins hsh
  have hmax : node'.getMaxKeySize h.btreeOrder = h.btreeOrder := by
    rw [← hnode', IxNode.getMaxKeySize]
    simp [hf.isLeaf]
  have hsize : node'.getSize = (y ++ (key, value) :: z).length := by
    rw [← hnode', IxNode.getSize]
    simp
  have hprev' : node'.prevLeaf = node.prevLeaf := by rw [← hnode']
  have hnext' : node'.nextLeaf = node.nextLeaf := by rw [← hnode']
  generalize hent : y ++ (key, value) :: z = ent at hsh hsize
  have hmem : (key, value) ∈ ent := by simp [← hent]
  have hLn := ht.leaf_le n (by rw [hf.leaves]; simp)
  rw [hf.entries] at hLn
  have hentlen : ent.length = y.length + z.length + 1 := by rw [← hent]; simp; omega
  have hle : ∀ m ∈ LA ++ LB, m.entries.length ≤ h.btreeOrder := fun m hm =>
    ht.leaf_le m (by rw [hf.leaves]; simp at hm ⊢; tauto)
  have hge : up ≠ [] → ∀ m ∈ LA ++ LB, (h.btreeOrder + 1) / 2 ≤ m.entries.length := fun h0 m hm =>
    ht.leaf_ge h0 m (by rw [hf.leaves]; simp at hm ⊢; tauto)
  have hold : entriesOf L = (entriesOf LA ++ y) ++ (z ++ entriesOf LB) := by
    rw [hf.leaves, entriesOf_append, entriesOf_cons, hf.entries]
    simp
  have hnew : entriesOf (LA ++ ⟨n.page, ent⟩ :: LB) =
      (entriesOf LA ++ y) ++ (key, value) :: (z ++ entriesOf LB) := by
    rw [entriesOf_append, entriesOf_cons, ← hent]
    simp
  generalize hh₁ : h.setNode n.page node' = h₁ at hsh
  have horder₁ : h₁.btreeOrder = h.btreeOrder := by rw [← hh₁]; rfl
  rw [← horder₁] at hle hge hLn
  rw [List.length_append] at hLn
  by_cases hover : ent.length ≤ h₁.btreeOrder
  · -- The leaf has room itself.
    refine ⟨n.page, h₁, _, up, ?_, ⟨hsh, fun m hm => ?_, fun h0 m hm => ?_⟩, horder₁, ⟨_, _, hold, hnew⟩,
      ⟨n.page, ent⟩, by simp, rfl, hmem⟩
    · simp [insertEntry, hf.page, hf.fetch, hins, hh₁, horder₁, hmax, hsize, not_lt.mpr (horder₁ ▸ hover)]
    · rcases (show m ∈ LA ++ LB ∨ m = ⟨n.page, ent⟩ by simp at hm ⊢; tauto) with hm | rfl
      · exact hle m hm
      · exact hover
    · rcases (show m ∈ LA ++ LB ∨ m = ⟨n.page, ent⟩ by simp at hm ⊢; tauto) with hm | rfl
      · exact hge h0 m hm
      · have := ht.leaf_ge h0 n (by rw [hf.leaves]; simp)
        rw [hf.entries, List.length_append] at this
        dsimp only
        omega
  have hfull : ent.length = h₁.btreeOrder + 1 := by omega
  have hcode : h.insertEntry key value = (do
      if ← h₁.hasRoom ((leafPages LA).getLastD noPage) then
        let h ← h₁.redistribute ((leafPages LA).getLastD noPage) n.page
        return (← h.holderOf key ((leafPages LA).getLastD noPage) n.page, h)
      else if ← h₁.hasRoom ((leafPages LB).headD noPage) then
        let h ← h₁.redistribute n.page ((leafPages LB).headD noPage)
        return (← h.holderOf key n.page ((leafPages LB).headD noPage), h)
      else
        let r ← IxIndexHandle.split h₁.fuel h₁ n.page
        return (← r.2.holderOf key n.page r.1, r.2)) := by
    simp only [insertEntry, hf.page, hf.fetch, hins, hh₁, horder₁, hmax, hsize, hfull, hprev', hnext',
      hprev, hnext, ok_bind, ixAssert, gt_iff_lt, Nat.lt_succ_self, if_true, beq_self_eq_true]
  obtain ⟨b, hb, hroom⟩ := hsh.hasRoom_prev
  obtain ⟨b', hb', hroom'⟩ := hsh.hasRoom_next
  rw [hcode, hb, ok_bind]
  cases b with
  | true =>
    obtain ⟨LA, l, rfl, hl⟩ := hroom rfl
    rw [List.append_assoc, List.singleton_append] at hsh hnew
    have h0 := hsh.up_ne_nil
    obtain ⟨p, h', L', up', hred, hholder, htree, horder', hent', hin⟩ := hsh.shareOverflow
      (fun m hm => hle m (by simp at hm ⊢; tauto))
      (fun m hm => hge h0 m (by simp at hm ⊢; tauto)) (Or.inr ⟨hfull, hl, hge h0 l (by simp)⟩)
      (List.mem_append_right _ hmem)
    refine ⟨p, h', L', up', ?_, htree, horder'.trans horder₁, ⟨_, _, hold, hent'.trans hnew⟩, hin⟩
    simp [hred, hholder]
  | false =>
    rw [hb', ok_bind]
    cases b' with
    | true =>
      obtain ⟨r, LB, rfl, hr⟩ := hroom' rfl
      have h0 := hsh.up_ne_nil
      obtain ⟨p, h', L', up', hred, hholder, htree, horder', hent', hin⟩ := hsh.shareOverflow
        (fun m hm => hle m (by simp at hm ⊢; tauto))
        (fun m hm => hge h0 m (by simp at hm ⊢; tauto)) (Or.inl ⟨hfull, hr, hge h0 r (by simp)⟩)
        (List.mem_append_left _ hmem)
      refine ⟨p, h', L', up', ?_, htree, horder'.trans horder₁, ⟨_, _, hold, hent'.trans hnew⟩, hin⟩
      simp [hred, hholder]
    | false =>
      -- With another leaf beside it the leaf is not the root.
      have hge' : ∀ m ∈ LA ++ LB, (h₁.btreeOrder + 1) / 2 ≤ m.entries.length := by
        intro m hm
        refine hge (fun h0 => ?_) m hm
        have hone := hsh.seps_length
        rw [h0] at hone
        have := List.length_pos_of_mem hm
        simp only [seps, List.length_nil, List.length_append, List.length_cons] at hone this
        omega
      obtain ⟨q, p, h', L', up', hsplit, hholder, htree, horder', hent', hin⟩ := hsh.splitOverflow
        hle hge' hfull hmem
      refine ⟨p, h', L', up', ?_, htree, horder'.trans horder₁, ⟨_, _, hold, hent'.trans hnew⟩, hin⟩
      simp [hsplit, hholder]

theorem Tree.insertEntry_absent (ht : Tree h L up) (value : Rid) (hkey : ¬ ∃ rid, (key, rid) ∈ entriesOf L) :
    ∃ p h' L' up', h.insertEntry key value = .ok (p, h') ∧ Tree h' L' up' ∧
      h'.btreeOrder = h.btreeOrder ∧ Inserted L key value p L' := by
  obtain ⟨p, h', L', up', hcode, hfilled, horder, hins⟩ := ht.toFilled.insertEntry_absent value hkey
  exact ⟨p, h', L', up', hcode, ⟨hfilled, by rw [horder]; exact ht.order⟩, horder, hins⟩

end Rmdb
