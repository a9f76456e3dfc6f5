-- SUMMARY: Merging two neighbours, and taking a merged node out of the upper levels.
import Rmdb.Index.Redistribute

/-!
# Coalescing

`coalesce` moves everything of the right neighbour into the left one and then takes the
right one out of its parent, which may become too small in turn. Seen from below, one
page and one separator go (`updateRightParent_spec`), whatever happens further up.
-/

namespace Rmdb

open LinkedList Weave IxIndexHandle

variable {K : Type} {h h' h₁ : IxIndexHandle K} {D : Set PageNo} {d order fuel : Nat}
  {ps A B : List PageNo} {p y : PageNo} {U UA UB : List (Inner K)} {u l r : Inner K}
  {up up' : List (List (Inner K))} {SA SB TA TB : List (K × PageNo)} {s x : K × PageNo}

-- ---------------------------------------------------------------------------
-- Merging two neighbours
-- ---------------------------------------------------------------------------

/-- The links of a level after a merge: `r` goes out of the list. -/
theorem unlink_spec {pl pr : PageNo} (lf : Bool) (hlk : Linked h.link noPage (A ++ pl :: pr :: B) noPage)
    (hpos : ∀ z ∈ B, z ≠ noPage) :
    ∃ h₁ h₂, h.setNextLeaf pl (B.headD noPage) = .ok h₁ ∧
      h₁.setPrevOfNext lf (B.headD noPage) pl = .ok h₂ ∧ h₂.content = h.content ∧ h₂.par = h.par ∧
      h₂.link = removeAfter h.link pl B noPage ∧ EndMoved h h₂ lf B pl := by
  have hpl : (h.link pl).isSome := by rw [hlk.at]; rfl
  obtain ⟨h₁, hset₁, hc₁, hp₁, hl₁, hs₁⟩ := setNextLeaf_spec (B.headD noPage) hpl
  have hB : ∀ b ∈ B.head?, b ≠ noPage ∧ (h₁.link b).isSome := by
    intro b hb
    obtain ⟨B, rfl⟩ := List.head?_eq_some_iff.mp hb
    have hbl := Linked.at (show Linked h.link noPage ((A ++ [pl, pr]) ++ b :: B) noPage by simpa using hlk)
    refine ⟨hpos b (by simp), ?_⟩
    rw [hl₁]
    exact relink_isSome (by rw [hbl]; rfl)
  obtain ⟨h₂, hset₂, hc₂, hp₂, hl₂, he₂⟩ := setPrevOfNext_spec lf pl hB
  refine ⟨h₁, h₂, hset₁, hset₂, by rw [hc₂, hc₁], by rw [hp₂, hp₁], by rw [hl₂, hl₁]; rfl, ?_⟩
  rw [EndMoved] at he₂ ⊢
  rw [SameHdr] at hs₁
  rw [he₂, hs₁]

/-- `coalesce` on two neighbours of an internal level, up to the point where the right one
is taken out of its parent. -/
theorem coalesceNodes_inner (hpl : Placed h ps ((UA ++ l :: r :: UB) :: up))
    (hs : Sharing h D d l r y x) (hfuel : d + 1 < h.fuel)
    (hsize : l.keys.length + r.keys.length < h.btreeOrder - 1) :
    ∃ h₁ key, h.coalesceNodes l.page r.page = .ok h₁ ∧ FirstKey h.content x.2 key ∧
      Level h₁ ps (UA ++ ⟨l.page, l.keys ++ (key, x.2) :: r.keys, l.rids ++ r.rids⟩ :: UB) ∧
      Placed h₁ (pagesOf (UA ++ l :: r :: UB)) up ∧ (∀ z, z ≠ l.page → h₁.content z = h.content z) ∧
      Frame {z | z ∈ pagesOf (UA ++ l :: r :: UB)} {z | z ∈ ps} h h₁ ∧ SameHdr h h₁ := by
  obtain ⟨hkids, hst, hlk⟩ := hpl.upper.1
  obtain ⟨nl, hnl, hlleaf, hlkeys, hlrids, -⟩ := fetchNode_of_content hs.left.content
  obtain ⟨nr, hnr, -, hrkeys, hrrids, hrl, -⟩ := fetchNode_of_content hs.right.content
  have hlk' : Linked h.link noPage (pagesOf UA ++ l.page :: r.page :: pagesOf UB) noPage := by
    simpa using hlk
  have hnext : nr.nextLeaf = (pagesOf UB).headD noPage := by
    have hat := Linked.at
      (show Linked h.link noPage ((pagesOf UA ++ [l.page]) ++ r.page :: pagesOf UB) noPage by simpa using hlk)
    rw [hat] at hrl
    simp only [Option.some.injEq, Prod.mk.injEq] at hrl
    exact hrl.2.symm
  obtain ⟨h₂, h₃, hset₂, hset₃, hc₃, hp₃, hl₃, he₃⟩ := unlink_spec false hlk'
    fun z hz => hpl.ne_noPage (by simp [upPages, hz])
  have hs₃ : SameHdr h h₃ := by
    rw [EndMoved] at he₃
    rw [SameHdr]
    simpa using he₃
  -- The smallest key below the right node, read after the links have changed.
  obtain ⟨key, hkey, hfirst⟩ : ∃ k, h₃.minKey r.page = .ok k ∧ FirstKey h.content x.2 k := by
    have hs' : Sharing h₃ D d l r y x :=
      ⟨⟨by rw [hc₃, hs.left.content], hs.left.length, fun c hc => by rw [hp₃, hs.left.par c hc]⟩,
        ⟨by rw [hc₃, hs.right.content], hs.right.length, fun c hc => by rw [hp₃, hs.right.par c hc]⟩,
        hs.ne, hs.nodup, hs.left_out, hs.right_out, by rw [hc₃]; exact hs.mins, by rw [hc₃]; exact hs.firsts⟩
    obtain ⟨k, hk, hf⟩ := hs'.minKey (by rw [hs₃.fuel]; exact hfuel)
    exact ⟨k, hk, by rwa [hc₃] at hf⟩
  obtain ⟨n₃, hn₃, hleaf₃, hkeys₃, hrids₃, -⟩ := fetchNode_of_content
    (h := h₃) (by rw [hc₃]; exact hs.left.content)
  generalize hh₄ : h₃.setNode l.page
    { n₃ with keys := l.keys.map Prod.fst ++ key :: r.keys.map Prod.fst, rids := l.rids ++ r.rids } = h₄
  have hc₄ : h₄.content = Function.update h.content l.page
      (some (false, l.keys.map Prod.fst ++ key :: r.keys.map Prod.fst, l.rids ++ r.rids)) := by
    rw [← hh₄, content_setNode, hc₃, hleaf₃]
  have hl₄ : h₄.link = removeAfter h.link l.page (pagesOf UB) noPage := by
    rw [← hh₄, link_setNode_keep hn₃, hl₃]
  have hp₄ : h₄.par = h.par := by rw [← hh₄, par_setNode_keep hn₃, hp₃]
  have hs₄ : SameHdr h h₄ := hs₃.trans (hh₄ ▸ SameHdr.setNode ..)
  obtain ⟨h₅, hmc, hc₅, hl₅, hp₅, hs₅⟩ := maintainChildren_spec (h := h₄) (p := l.page)
    (show _ = some (false, l.keys.map Prod.fst ++ key :: r.keys.map Prod.fst, l.rids ++ r.rids ++ []) by
      rw [hc₄, Function.update_self, List.append_nil])
    (fun z hz => by rw [hp₄, hs.right.par _ (List.mem_map_of_mem hz)]; rfl)
  have hp₅ : h₅.par = adopt h₄.par l.page r.kids := hp₅
  have hcontent : ∀ z, z ≠ l.page → h₅.content z = h.content z := by
    intro z hz
    rw [hc₅, hc₄, Function.update_of_ne hz]
  have hpar : ∀ z, z ∉ r.kids → h₅.par z = h.par z := by
    intro z hz
    rw [hp₅, adopt, if_neg hz, hp₄]
  have hr_ps : ∀ z ∈ r.kids, z ∈ ps := by
    intro z hz
    rw [hkids]
    exact mem_kidsOf (u := r) (by simp) hz
  refine ⟨h₅, key, ?_, hfirst, ?_, ⟨?_, hpl.above.nodup, ?_, ?_⟩, hcontent, ?_, hs₄.trans hs₅⟩
  · rw [hs.left.length] at hmc
    rw [hs.right.length] at hmc
    simp only [coalesceNodes, hnl, hnr, ok_bind, hlleaf, Bool.false_eq_true, if_false, ixAssert,
      IxNode.getSize, IxNode.getMaxKeySize, hlkeys, hrkeys, List.length_map, hsize, decide_true, if_true,
      hnext, hset₂, hset₃, hkey, modifyNode, hn₃, hkeys₃, hrids₃, hrrids, pure_eq_ok, hh₄, hmc]
  · have hps : ps = kidsOf UA ++ (l.kids ++ (r.kids ++ kidsOf UB)) := by simp [hkids]
    have hnd := hpl.ps_nodup
    rw [hps, List.nodup_append, List.nodup_append, List.nodup_append] at hnd
    obtain ⟨-, ⟨-, ⟨-, -, hrB⟩, hl_rB⟩, hA⟩ := hnd
    have hpages := hpl.above.ps_nodup
    rw [pagesOf_append, pagesOf_cons, pagesOf_cons, List.nodup_middle, List.nodup_cons] at hpages
    refine ⟨by simp [hkids, Inner.kids], ?_, ?_⟩
    · intro v hv
      rcases (show v ∈ UA ++ UB ∨ v = ⟨l.page, l.keys ++ (key, x.2) :: r.keys, l.rids ++ r.rids⟩ by
        simp at hv ⊢; tauto) with hv | rfl
      · have hstv := hst v (by simp at hv ⊢; tauto)
        have hvpage : v.page ∈ pagesOf UA ++ r.page :: pagesOf UB := by
          have := mem_pagesOf hv
          simp at this ⊢
          tauto
        refine ⟨?_, hstv.length, fun z hz => ?_⟩
        · rw [hcontent _ fun heq => hpages.1 (heq ▸ hvpage), hstv.content]
        · rw [hpar z, hstv.par z hz]
          intro hz'
          have hzv : z ∈ kidsOf UA ++ kidsOf UB := by
            rw [← kidsOf_append]
            exact mem_kidsOf hv hz
          rcases List.mem_append.mp hzv with hzA | hzB
          · exact hA z hzA z (List.mem_append_right _ (List.mem_append_left _ hz')) rfl
          · exact hrB z hz' z hzB rfl
      · refine ⟨?_, ?_, fun z hz => ?_⟩
        · rw [hc₅, hc₄, Function.update_self]
          simp
        · simp only [List.length_append, List.length_cons, hs.left.length, hs.right.length]
          omega
        · have hz : z ∈ l.kids ++ r.kids := by simpa [Inner.kids] using hz
          by_cases hzr : z ∈ r.kids
          · rw [hp₅, adopt, if_pos hzr]
          · rw [hpar z hzr, hs.left.par z ((List.mem_append.mp hz).resolve_right hzr)]
    · have := linked_removeAfter hlk' (by simpa using hpl.above.ps_nodup)
      rw [hl₅, hl₄]
      simpa using this
  · refine hpl.above.upper.congr (fun z hz => hcontent z ?_) (fun z hz => ?_) (fun z hz => hpar z ?_)
      (hs₄.trans hs₅).rootPage
    · rintro rfl
      exact hpl.above.not_mem_up (by simp) hz
    · rw [hl₅, hl₄, removeAfter_of_ne]
      · rintro rfl
        exact hpl.above.not_mem_up (by simp) hz
      · exact fun hz' => hpl.above.not_mem_up (by simp [hz']) hz
    · exact fun hz' => hpl.not_mem_up (hr_ps z hz') hz
  · intro z hz
    rw [(hs₄.trans hs₅).samePages.1]
    exact hpl.above.bound z hz
  · have := hs₄.trans hs₅
    rw [SameHdr] at this
    rw [this]
    exact hpl.free
  · refine (hs₄.trans hs₅).frame (fun z hz => hcontent z ?_) (fun z hz => ?_) (fun z hz => hpar z ?_)
    · rintro rfl
      exact hz (by simp)
    · rw [hl₅, hl₄, removeAfter_of_ne]
      · rintro rfl
        exact hz (by simp)
      · exact fun hz' => hz (by simp [hz'])
    · exact fun hz' => hz (hr_ps z hz')

-- ---------------------------------------------------------------------------
-- One page less
-- ---------------------------------------------------------------------------

/-- The page `p` has gone from below `up`, and what is left are the pages `ps`. -/
structure Removed (h : IxIndexHandle K) (p : PageNo) (ps : List PageNo) (up : List (List (Inner K)))
    (S : List (K × PageNo)) (h' : IxIndexHandle K) (up' : List (List (Inner K))) : Prop where
  placed : Placed h' ps up'
  refreshed : Refreshed h.content S (seps up')
  pages : ∀ z ∈ upPages up', z ∈ upPages up
  length : up'.length ≤ up.length
  frame : Frame {z | z = p ∨ z ∈ upPages up} {z | z = p ∨ z ∈ ps ++ upPages up} h h'
  same : SamePages h h'

theorem deletePage_setNode_comm {n : IxNode K} {q : PageNo} (hne : q ≠ p) :
    (h.deletePage p).setNode q n = (h.setNode q n).deletePage p := by
  simp only [deletePage, setNode]
  congr 1
  exact Function.update_comm hne.symm _ _ _

/-- A page that no level has can be deleted. -/
theorem Upper.deletePage (hup : Upper h ps up) (hp : p ∉ ps ++ upPages up) :
    Upper (h.deletePage p) ps up := by
  have hne : ∀ z ∈ ps ++ upPages up, z ≠ p := by
    rintro z hz rfl
    exact hp hz
  exact hup.congr (fun z hz => content_deletePage (hne z (List.mem_append_right _ hz)))
    (fun z hz => link_deletePage (hne z (List.mem_append_right _ hz)))
    (fun z hz => par_deletePage (hne z hz)) rfl

/-- The parent `u` without the child `p`: the page of `p` is deleted, and `u` gets other
keys and children. -/
theorem Placed.removeChild {n : IxNode K} (hpl : Placed h (A ++ p :: B) ((UA ++ u :: UB) :: up))
    (hn : h.fetchNode u.page = .ok n) (rids : List Rid) (keys : List (K × PageNo))
    (hps : A ++ B = kidsOf UA ++ rids.map Rid.pageNo ++ kidsOf UB)
    (hlen : rids.length = keys.length + 1) (hsub : ∀ r ∈ rids, r ∈ u.rids) :
    Placed ((h.deletePage p).setNode u.page { n with keys := keys.map Prod.fst, rids := rids })
        (A ++ B) ((UA ++ ⟨u.page, keys, rids⟩ :: UB) :: up) ∧
      Frame {z | z = p ∨ z = u.page} {z | z = p} h
        ((h.deletePage p).setNode u.page { n with keys := keys.map Prod.fst, rids := rids }) := by
  have hstu := hpl.upper.1.stored u (by simp)
  have hpu : u.page ≠ p := by
    rintro heq
    exact hpl.not_mem_up (x := p) (by simp) (by simp [upPages, heq])
  have hup : upPages ((UA ++ ⟨u.page, keys, rids⟩ :: UB) :: up) = upPages ((UA ++ u :: UB) :: up) := by
    simp [upPages]
  have hnd := hpl.nodup
  rw [List.append_assoc, List.cons_append, List.nodup_middle, List.nodup_cons, ← List.append_assoc] at hnd
  rw [deletePage_setNode_comm hpu]
  refine ⟨⟨?_, ?_, ?_, hpl.free⟩, ⟨?_, ?_, ?_, rfl, rfl, rfl, rfl⟩⟩
  · have hrep := hpl.upper.replace hpl.up_nodup hn keys rids hlen
      fun r hr => hstu.par _ (List.mem_map_of_mem (hsub r hr))
    rw [← hps] at hrep
    refine hrep.deletePage ?_
    rw [hup]
    simpa using hnd.1
  · rw [hup]
    exact hnd.2
  · intro z hz
    rw [hup] at hz
    exact hpl.bound z (by simp only [List.mem_append, List.mem_cons] at hz ⊢; tauto)
  · intro z hz
    have hzp : z ≠ p := fun heq => hz (Or.inl heq)
    rw [content_deletePage hzp, content_setNode, Function.update_of_ne fun heq => hz (Or.inr heq)]
  · intro z hz
    have hzp : z ≠ p := fun heq => hz (Or.inl heq)
    rw [link_deletePage hzp, link_setNode_keep hn]
  · intro z hz
    rw [par_deletePage hz, par_setNode_keep hn]

/-- The node `u` above the page of `r`, and what `update_right_parent` reads of the two. -/
structure Above (h : IxIndexHandle K) (u : Inner K) (RA : List Rid) (r : Rid) (RB : List Rid)
    (KA KB : List (K × PageNo)) (n m : IxNode K) : Prop where
  rids : u.rids = RA ++ r :: RB
  keys : u.keys = KA ++ KB
  left : KA.length = RA.length
  right : KB.length = RB.length
  node : h.fetchNode u.page = .ok n
  nodeKeys : n.keys = u.keys.map Prod.fst
  nodeRids : n.rids = u.rids
  child : h.fetchNode r.pageNo = .ok m
  parent : m.parent = u.page
  rank : n.findChild r.pageNo = .ok RA.length

/-- The node above the page that goes, and where the separator on its left is. -/
theorem Placed.exists_above (hpl : Placed h (A ++ p :: B) (U :: up)) (hseps : seps (U :: up) = SA ++ s :: SB)
    (hlen : SA.length + 1 = A.length) :
    ∃ UA u UB RA r RB KA KB TA TB n m, U = UA ++ u :: UB ∧ r.pageNo = p ∧ A = kidsOf UA ++ RA.map Rid.pageNo ∧
      B = RB.map Rid.pageNo ++ kidsOf UB ∧ Above h u RA r RB KA KB n m ∧ seps up = TA ++ TB ∧
      TA.length = UA.length ∧ SA ++ [s] = front (keysOf UA) TA ++ KA ∧ SB = KB ++ tail TB (keysOf UB) := by
  obtain ⟨UA, u, UB, RA, r, RB, KA, KB, TA, TB, rfl, hrids, rfl, rfl, rfl, hkeys, hKA, hKB, hT,
    hTA, -⟩ := hpl.upper.parent
  obtain ⟨⟨hkids, hst, -⟩, -⟩ := hpl.upper
  have hstu := hst u (by simp)
  have hlens : ∀ v ∈ UA, v.rids.length = v.keys.length + 1 := fun v hv => (hst v (by simp [hv])).length
  obtain ⟨hleft, hright⟩ : SA ++ [s] = front (keysOf UA) TA ++ KA ∧ SB = KB ++ tail TB (keysOf UB) := by
    refine List.append_inj ?_ ?_
    · rw [List.append_assoc, List.singleton_append, ← hseps, seps_cut _ _ hkeys hT hTA]
    · rw [left_length hlens hKA hTA, ← hlen, List.length_append, List.length_singleton]
  obtain ⟨n, hn, -, hnk, hnr, -⟩ := fetchNode_of_content hstu.content
  have hpar : h.par r.pageNo = some u.page := hstu.par _ (by simp [Inner.kids, hrids])
  obtain ⟨m, hm₀, hmpar⟩ := Option.map_eq_some_iff.mp hpar
  have hrank : n.findChild r.pageNo = .ok RA.length := by
    refine findChild_eq (hnr.trans hrids) ?_
    have := hpl.ps_nodup
    rw [hkids, kidsOf, List.nodup_flatMap] at this
    rw [hnr]
    exact this.1 u (by simp)
  exact ⟨UA, u, UB, RA, r, RB, KA, KB, TA, TB, n, m, rfl, rfl, rfl, rfl,
    ⟨hrids, hkeys, hKA, hKB, hn, hnk, hnr, by simp [fetchNode, hm₀], hmpar, hrank⟩, hT, hTA, hleft, hright⟩

/-- What `update_right_parent` does with the node above `p`: the child and a key go, and the code looks whether the
node is too small now. -/
def ParentShrunk (h : IxIndexHandle K) (order : Nat) (p : PageNo) (ps : List PageNo) (U : List (Inner K))
    (up : List (List (Inner K))) (S : List (K × PageNo)) : Prop :=
  ∃ UA u UB u' up' h', U = UA ++ u :: UB ∧ u'.page = u.page ∧
    u'.keys.length + 1 = u.keys.length ∧ up'.length = up.length ∧ Sized order up' ∧
    Removed h p ps (U :: up) S h' ((UA ++ u' :: UB) :: up') ∧
    ∀ f, updateRightParentWith f h p = (do
      let parent ← h'.fetchNode u.page
      if (parent.isRootPage && parent.getSize == 0) ||
          (!parent.isRootPage && decide (parent.getSize < parent.getMinKeySize h'.btreeOrder)) then
        let (_, h) ← f h' u.page
        return h
      else
        return h')

/-- The separator left of the first child of a node is above the node. -/
theorem front_concat (hleft : SA ++ [s] = front (keysOf UA) TA) (hTA : TA.length = UA.length) :
    ∃ UA' v TA', UA = UA' ++ [v] ∧ TA = TA' ++ [s] ∧ TA'.length = (keysOf UA').length ∧
      SA = front (keysOf UA') TA' ++ v.keys := by
  obtain ⟨UA, v, rfl⟩ : ∃ UA' v, UA = UA' ++ [v] := by
    rcases List.eq_nil_or_concat' UA with rfl | hex
    · simp at hleft
    · exact hex
  obtain ⟨TA, t, rfl⟩ : ∃ TA' t, TA = TA' ++ [t] := by
    rcases List.eq_nil_or_concat' TA with rfl | hex
    · simp at hTA
    · exact hex
  have hTA' : TA.length = (keysOf UA).length := by simpa using hTA
  obtain ⟨hSA, hlast⟩ : SA = front (keysOf UA) TA ++ v.keys ∧ [s] = [t] := by
    refine List.append_inj' ?_ rfl
    rw [hleft, keysOf_append, front_append hTA']
    simp
  cases hlast
  exact ⟨UA, v, TA, rfl, rfl, hTA', hSA⟩

/-- Without its first child, a node has the smallest key below what was its second one. -/
theorem minKey_removeFirst {k : K × PageNo} {ks : List K} {r₁ : Rid} {RB : List Rid} {C : List PageNo} {key : K}
    {q : PageNo} (hstored : h₁.content q = some (false, ks, r₁ :: RB)) (hlen : SA.length + 1 = A.length)
    (hm : Mins h.content D d (A ++ (r₁.pageNo :: C)) (y :: (SA ++ k :: SB).map Prod.snd))
    (hD : ∀ z ∈ D, h₁.content z = h.content z) (hkey : FirstKey h.content k.2 key) (hfuel : d + 1 < h₁.fuel) :
    h₁.minKey q = .ok key := by
  have hmin : MinLeaf h₁.content (insert q D) (d + 1) q k.2 := by
    refine ⟨Set.mem_insert _ _, ks, r₁, RB, hstored, ?_⟩
    rw [List.map_append, ← List.cons_append, mins_append (by simpa using hlen.symm)] at hm
    have hB := hm.2
    simp only [List.map_cons] at hB
    exact (List.forall₂_cons.mp hB).1.congr hD (Set.subset_insert _ _)
  refine minKey_eq hmin ?_ hfuel
  unfold FirstKey at hkey ⊢
  rwa [hD k.2 (hm.leaf_mem (by simp))]

/-- The first child of `u` goes. The first key moves up, as the smallest key below the second child. -/
theorem updateRightParent_first {v : Inner K} {r r₁ : Rid} {RB : List Rid} {k : K × PageNo}
    {ks : List (K × PageNo)} {n m : IxNode K}
    (hpl : Placed h (A ++ r.pageNo :: B) ((UA ++ [v] ++ u :: UB) :: up)) (hsz : Sized order up)
    (habove : Above h u [] r (r₁ :: RB) [] (k :: ks) n m) (hA : A = kidsOf (UA ++ [v]))
    (hB : B = (r₁ :: RB).map Rid.pageNo ++ kidsOf UB) (hT : seps up = (TA ++ [s]) ++ TB)
    (hTA : TA.length = (keysOf UA).length) (hSA : SA = front (keysOf UA) TA ++ v.keys) (hlen : SA.length + 1 = A.length)
    (hSB : SB = (k :: ks) ++ tail TB (keysOf UB)) (hm : Mins h.content D d (A ++ B) (y :: (SA ++ SB).map Prod.snd))
    (hD : ∀ z ∈ r.pageNo :: upPages ((UA ++ [v] ++ u :: UB) :: up), z ∉ D)
    (hfirst : ∀ z ∈ (SA ++ SB).map Prod.snd, ∃ k, FirstKey h.content z k) (hfuel : d + up.length + 3 ≤ h.fuel) :
    ParentShrunk h order r.pageNo (A ++ B) (UA ++ [v] ++ u :: UB) up (SA ++ SB) := by
  obtain ⟨hpl₁, hframe₁⟩ := hpl.removeChild habove.node (r₁ :: RB) ks (by rw [hA, hB, List.append_assoc])
    (by simpa using habove.right.symm) (by rw [habove.rids]; simp; tauto)
  generalize hh₁ : (h.deletePage r.pageNo).setNode u.page
    { n with keys := ks.map Prod.fst, rids := r₁ :: RB } = h₁ at hpl₁ hframe₁
  have hsame₁ : SameHdr h h₁ := by
    rw [← hh₁]
    rfl
  obtain ⟨key, hkey⟩ := hfirst k.2 (by simp [hSB])
  have hD₁ : ∀ z ∈ D, h₁.content z = h.content z := by
    intro z hz
    refine hframe₁.content z ?_
    rintro (rfl | rfl)
    · exact hD _ (by simp) hz
    · exact hD _ (by simp [upPages]) hz
  have hkey₁ : h₁.minKey u.page = .ok key := by
    rw [hB, hSB] at hm
    exact minKey_removeFirst (hpl₁.upper.1.stored ⟨u.page, ks, r₁ :: RB⟩ (by simp)).content hlen hm hD₁ hkey
      (by rw [hsame₁.fuel]; omega)
  have hup₁ : Upper h₁ (pagesOf (UA ++ [v]) ++ u.page :: pagesOf UB) up := by
    simpa using hpl₁.upper.2
  obtain ⟨h₂, up₂, hmp, hrel⟩ := maintainParent_spec k.2 hup₁ (by simpa using hpl.above.ps_nodup)
    hpl.above.up_nodup (fun z hz => hpl.above.ne_noPage (List.mem_append_right _ hz))
    (show seps up = TA ++ (s.1, s.2) :: TB by simpa using hT)
    (by simp [hTA]) (by rw [hsame₁.fuel]; omega) hkey₁
  have hpages : pagesOf (UA ++ [v] ++ ⟨u.page, ks, r₁ :: RB⟩ :: UB) = pagesOf (UA ++ [v] ++ u :: UB) := by
    simp
  have hupPages : upPages ((UA ++ [v] ++ ⟨u.page, ks, r₁ :: RB⟩ :: UB) :: up₂) =
      upPages ((UA ++ [v] ++ u :: UB) :: up) := by
    rw [upPages, upPages, hpages, hrel.pages]
  refine ⟨UA ++ [v], u, UB, ⟨u.page, ks, r₁ :: RB⟩, up₂, h₂, rfl, rfl, by simp [habove.keys], hrel.length,
    hrel.sized order hsz, ⟨⟨⟨?_, ?_⟩, ?_, ?_, ?_⟩, ?_, ?_, ?_, ?_, ?_⟩, ?_⟩
  · refine hpl₁.upper.1.congr (fun z hz => hrel.frame.content z ?_)
      (fun z hz => hrel.frame.link z ?_) (fun z _ => hrel.frame.par z (by simp))
    · exact hpl₁.above.not_mem_up hz
    · exact hpl₁.above.not_mem_up hz
  · simpa using hrel.upper
  · have := hpl₁.nodup
    rwa [upPages, hrel.pages, ← upPages]
  · intro z hz
    rw [upPages, hrel.pages, ← upPages] at hz
    rw [hrel.same.samePages.1]
    exact hpl₁.bound z hz
  · rw [hrel.frame.firstFreePageNo, hframe₁.firstFreePageNo, hpl.free]
  · rw [seps_cut [] ks rfl (show seps up₂ = (TA ++ [(key, k.2)]) ++ TB by simpa using hrel.seps)
      (by simpa using hTA), keysOf_append, front_append hTA, hSA, hSB]
    simpa using (Refreshed.refl (front (keysOf UA) TA ++ v.keys)).append
      (Refreshed.first hkey (Refreshed.refl (ks ++ tail TB (keysOf UB))))
  · intro z hz
    rwa [hupPages] at hz
  · simp [hrel.length]
  · refine (hframe₁.mono ?_ ?_).trans (hrel.frame.mono ?_ (Set.empty_subset _))
    · rintro z (hz | rfl)
      · exact Or.inl hz
      · exact Or.inr (by simp [upPages])
    · exact fun z hz => Or.inl hz
    · exact fun z hz => Or.inr (List.mem_append_right _ hz)
  · exact (hsame₁.trans hrel.same).samePages
  · intro f
    have hdk : n.keys.drop 1 = ks.map Prod.fst := by simp [habove.nodeKeys, habove.keys]
    have hdr : n.rids.drop 1 = r₁ :: RB := by simp [habove.nodeRids, habove.rids]
    simp only [updateRightParentWith, habove.child, ok_bind, habove.parent, habove.node, habove.rank,
      List.length_nil, if_true, hdk, hdr, hh₁, hmp]

/-- Another child of `u` goes, with the key before it. -/
theorem updateRightParent_behind {RA RB : List Rid} {r' r : Rid} {KA KB : List (K × PageNo)} {n m : IxNode K}
    (hpl : Placed h (A ++ r.pageNo :: B) ((UA ++ u :: UB) :: up)) (hsz : Sized order up)
    (habove : Above h u (RA ++ [r']) r RB (KA ++ [x]) KB n m) (hA : A = kidsOf UA ++ (RA ++ [r']).map Rid.pageNo)
    (hB : B = RB.map Rid.pageNo ++ kidsOf UB) (hT : seps up = TA ++ TB) (hTA : TA.length = UA.length) :
    ParentShrunk h order r.pageNo (A ++ B) (UA ++ u :: UB) up
      ((front (keysOf UA) TA ++ KA) ++ (KB ++ tail TB (keysOf UB))) := by
  have hlen : KA.length = RA.length := by simpa using habove.left
  have hek : n.keys.eraseIdx (RA.length + 1 - 1) = (KA ++ KB).map Prod.fst := by
    rw [habove.nodeKeys, habove.keys, Nat.add_sub_cancel, ← hlen]
    simp [List.eraseIdx_append]
  have her : n.rids.eraseIdx (RA.length + 1) = (RA ++ [r']) ++ RB := by
    rw [habove.nodeRids, habove.rids, List.eraseIdx_append_of_length_le (by simp)]
    simp
  obtain ⟨hpl', hframe⟩ := hpl.removeChild habove.node ((RA ++ [r']) ++ RB) (KA ++ KB)
    (by simp [hA, hB]) (by simp [hlen, habove.right]; omega) (by rw [habove.rids]; simp; tauto)
  refine ⟨UA, u, UB, ⟨u.page, KA ++ KB, (RA ++ [r']) ++ RB⟩, up, _, rfl, rfl, ?_, rfl, hsz,
    ⟨hpl', ?_, ?_, le_rfl, hframe.mono ?_ ?_, ⟨rfl, rfl⟩⟩, ?_⟩
  · simp [habove.keys]
    omega
  · rw [seps_cut KA KB rfl hT hTA]
    exact .refl _
  · intro z hz
    simpa [upPages] using hz
  · rintro z (hz | rfl)
    · exact Or.inl hz
    · exact Or.inr (by simp [upPages])
  · exact fun z hz => Or.inl hz
  · intro f
    simp only [updateRightParentWith, habove.child, ok_bind, habove.parent, habove.node, habove.rank,
      List.length_append, List.length_singleton, Nat.succ_ne_zero, if_false, hek, her, pure_eq_ok]

/-- The first part of `update_right_parent`: the child `p` goes, and if it was the first
one, the separator left of its parent is repaired. -/
theorem updateRightParent_node (hord : 3 ≤ order) (hpl : Placed h (A ++ p :: B) (U :: up)) (hsz : Sized order (U :: up))
    (hseps : seps (U :: up) = SA ++ s :: SB) (hlen : SA.length + 1 = A.length)
    (hm : Mins h.content D d (A ++ B) (y :: (SA ++ SB).map Prod.snd))
    (hD : ∀ z ∈ p :: upPages (U :: up), z ∉ D)
    (hfirst : ∀ z ∈ (SA ++ SB).map Prod.snd, ∃ k, FirstKey h.content z k)
    (hfuel : d + up.length + 3 ≤ h.fuel) : ParentShrunk h order p (A ++ B) U up (SA ++ SB) := by
  obtain ⟨UA, u, UB, RA, r, RB, KA, KB, TA, TB, n, m, rfl, rfl, hA, hB, habove, hT, hTA, hleft, hSB⟩ :=
    hpl.exists_above hseps hlen
  rcases List.eq_nil_or_concat' RA with rfl | ⟨RA, r', rfl⟩
  · obtain rfl : KA = [] := List.length_eq_zero_iff.mp habove.left
    obtain ⟨k, ks, rfl⟩ : ∃ k ks, KB = k :: ks := by
      refine List.exists_cons_of_ne_nil ?_
      rintro rfl
      have := (hsz.1 u (by simp)).2
      simp only [habove.keys, List.append_nil, List.length_nil] at this
      split at this <;> omega
    obtain ⟨r₁, RB, rfl⟩ : ∃ r₁ RB', RB = r₁ :: RB' :=
      List.exists_cons_of_length_eq_add_one (habove.right.symm.trans (by simp; rfl))
    rw [List.append_nil] at hleft
    obtain ⟨UA, v, TA, rfl, rfl, hTA', hSA⟩ := front_concat hleft hTA
    exact updateRightParent_first hpl hsz.2 habove (by simpa using hA) hB hT hTA' hSA hlen hSB hm hD hfirst hfuel
  · obtain ⟨KA, x, rfl⟩ : ∃ KA' x, KA = KA' ++ [x] := by
      rcases List.eq_nil_or_concat' KA with rfl | hex
      · have := habove.left
        simp at this
      · exact hex
    rw [← List.append_assoc] at hleft
    obtain ⟨rfl, -⟩ := List.append_inj' hleft rfl
    rw [hSB]
    exact updateRightParent_behind hpl hsz.2 habove hA hB hT hTA

-- ---------------------------------------------------------------------------
-- Underfull nodes
-- ---------------------------------------------------------------------------

/-- `update_right_parent` takes the page `p` and the separator on its left away. -/
def RemovesAt (K : Type) (order : Nat) (up : List (List (Inner K))) : Prop :=
  ∀ (h : IxIndexHandle K) (A B : List PageNo) (p y : PageNo) (SA SB : List (K × PageNo))
    (s : K × PageNo) (D : Set PageNo) (d fuel : Nat), Placed h (A ++ p :: B) up →
    h.btreeOrder = order → Sized order up → seps up = SA ++ s :: SB → SA.length + 1 = A.length →
    Mins h.content D d (A ++ B) (y :: (SA ++ SB).map Prod.snd) →
    (∀ z ∈ p :: upPages up, z ∉ D) → (∀ z ∈ (SA ++ SB).map Prod.snd, ∃ k, FirstKey h.content z k) →
    d + up.length + 2 ≤ h.fuel → up.length ≤ fuel →
    ∃ h' up', updateRightParentWith (coalesceOrRedistribute fuel) h p = .ok h' ∧
      Removed h p (A ++ B) up (SA ++ SB) h' up' ∧ Sized order up'

/-- One key is missing in a node: the root has none, another node one less than it should. -/
def Short (order : Nat) (up : List (List (Inner K))) (u : Inner K) : Prop :=
  if up = [] then u.keys.length = 0 else u.keys.length + 1 = (order + 1) / 2 - 1

/-- `coalesce_or_redistribute` repairs the level of an underfull node. -/
def RepairsAt (K : Type) (order : Nat) (up : List (List (Inner K))) : Prop :=
  ∀ (h : IxIndexHandle K) (ps : List PageNo) (UA : List (Inner K)) (u : Inner K) (UB : List (Inner K))
    (y : PageNo) (D : Set PageNo) (d fuel : Nat), Placed h ps ((UA ++ u :: UB) :: up) →
    h.btreeOrder = order → Sized order up →
    (∀ v ∈ UA ++ UB, v.keys.length ≤ max (order - 1) 1 ∧ (order + 1) / 2 - 1 ≤ v.keys.length) →
    Short order up u →
    Mins h.content D d ps (y :: (seps ((UA ++ u :: UB) :: up)).map Prod.snd) →
    (∀ z ∈ upPages ((UA ++ u :: UB) :: up), z ∉ D) →
    (∀ z ∈ (seps ((UA ++ u :: UB) :: up)).map Prod.snd, ∃ k, FirstKey h.content z k) →
    d + up.length + 3 ≤ h.fuel → up.length < fuel →
    ∃ b h' up', coalesceOrRedistribute fuel h u.page = .ok (b, h') ∧
      Rebuilt h ps ((UA ++ u :: UB) :: up) h' up' ∧ Sized order up'

/-- A level is the root exactly when it has one node. -/
theorem Placed.root_iff (hord : 3 ≤ order) (hpl : Placed h ps up) (hsz : Sized order up) :
    up = [] ↔ ps.length = 1 := by
  cases up with
  | nil =>
    obtain ⟨r, rfl, -⟩ := hpl.upper
    simp
  | cons U up =>
    refine iff_of_false (by simp) ?_
    obtain ⟨⟨rfl, hst, -⟩, hup⟩ := hpl.upper
    cases U with
    | nil =>
      have := hup.seps_length
      simp at this
    | cons u U =>
      have hu := (hsz.1 u (by simp)).2
      have hlen := (hst u (by simp)).length
      rw [kidsOf_cons, List.length_append, Inner.kids_length, hlen]
      split at hu <;> omega

/-- The parent field of a node tells whether it is the root. -/
theorem Placed.par_root (hpl : Placed h ps up) {z : PageNo} (hz : z ∈ ps) :
    ∃ q, h.par z = some q ∧ (q = noPage ↔ up = []) := by
  cases up with
  | nil =>
    obtain ⟨r, rfl, hr, -⟩ := hpl.upper
    obtain rfl := List.mem_singleton.mp hz
    exact ⟨noPage, hr, by simp⟩
  | cons U up =>
    obtain ⟨⟨rfl, hst, -⟩, -⟩ := hpl.upper
    obtain ⟨u, hu, hz⟩ := List.mem_flatMap.mp hz
    refine ⟨u.page, (hst u hu).par z hz, ?_⟩
    simpa using hpl.ne_noPage (x := u.page) (by simp [upPages, mem_pagesOf hu])

/-- `update_right_parent`, given that the level above can be repaired. -/
theorem removesAt_cons (hord : 3 ≤ order) (hrep : ∀ up', up'.length = up.length → RepairsAt K order up') :
    RemovesAt K order (U :: up) := by
  intro h A B p y SA SB s D d fuel hpl horder hsz hseps hlen hm hD hfirst hfuel hfuel'
  obtain ⟨UA, u, UB, u', up₁, h₁, rfl, hpage, hsize, hup₁, hsz₁, hrem, hcode⟩ :=
    updateRightParent_node hord hpl hsz hseps hlen hm hD hfirst (by rw [List.length_cons] at hfuel; omega)
  have hst' := hrem.placed.upper.1.stored u' (by simp)
  obtain ⟨n, hn, hleaf, hkeys, -, -, hnpar⟩ := fetchNode_of_content hst'.content
  obtain ⟨q, hq, hroot⟩ := hrem.placed.above.par_root (z := u'.page) (by simp)
  obtain rfl : q = n.parent := Option.some.inj (hq.symm.trans hnpar)
  have hnil : up₁ = [] ↔ up = [] := by
    rw [← List.length_eq_zero_iff, hup₁, List.length_eq_zero_iff]
  have hu := hsz.1 u (by simp)
  have hother : ∀ v ∈ UA ++ UB, v.keys.length ≤ max (order - 1) 1 ∧
      (if up₁ = [] then 1 else (order + 1) / 2 - 1) ≤ v.keys.length := by
    intro v hv
    simp only [hnil]
    exact hsz.1 v (by simp at hv ⊢; tauto)
  have horder₁ : h₁.btreeOrder = order := hrem.frame.btreeOrder.trans horder
  -- Whether the code goes on to repair the parent.
  have hcond : ((n.isRootPage && n.getSize == 0) ||
      (!n.isRootPage && decide (n.getSize < n.getMinKeySize h₁.btreeOrder))) = true ↔ Short order up₁ u' := by
    simp only [IxNode.isRootPage, IxNode.getSize, hkeys, List.length_map, IxNode.getMinKeySize, hleaf,
      horder₁, Bool.false_eq_true, if_false, Short]
    by_cases h0 : up₁ = []
    · simp [h0, hroot.mpr h0]
    · have hne : n.parent ≠ noPage := fun heq => h0 (hroot.mp heq)
      rw [if_neg (hnil.not.mp h0)] at hu
      simp [h0, hne]
      omega
  rw [hpage] at hn
  by_cases hshort : Short order up₁ u'
  · -- The parent is underfull now.
    have hseps₁ := hrem.refreshed.map_snd
    have hcD : ∀ z ∈ D, h₁.content z = h.content z := by
      intro z hz
      refine hrem.frame.content z ?_
      rintro (rfl | hz')
      · exact hD _ (by simp) hz
      · exact hD z (List.mem_cons_of_mem _ hz') hz
    have hroot' : up₁ = [] → UA ++ UB = [] := by
      intro h0
      have := (hrem.placed.above.root_iff hord hsz₁).mp h0
      simp only [pagesOf_length, List.length_append, List.length_cons] at this
      exact List.length_eq_zero_iff.mp (by rw [List.length_append]; omega)
    obtain ⟨b, h₂, up₂, hrun, hreb, hsz₂⟩ := hrep up₁ hup₁ h₁ (A ++ B) UA u' UB y D d fuel hrem.placed
      horder₁ hsz₁
      (fun v hv => by
        have hv' := hother v hv
        rw [if_neg fun h0 => by simp [hroot' h0] at hv] at hv'
        exact hv') hshort (by rw [hseps₁]; exact hm.congr hcD subset_rfl)
      (fun z hz => hD z (List.mem_cons_of_mem _ (hrem.pages z hz)))
      (fun z hz => by
        rw [hseps₁] at hz
        obtain ⟨k, hk⟩ := hfirst z hz
        refine ⟨k, ?_⟩
        unfold FirstKey at hk ⊢
        rwa [hcD z (hm.leaf_mem (List.mem_cons_of_mem y hz))])
      (by rw [hrem.same.fuel, hup₁]; rw [List.length_cons] at hfuel; omega)
      (by rw [hup₁]; exact hfuel')
    refine ⟨h₂, up₂, ?_, ⟨hreb.placed, ?_, ?_, ?_, ?_, hrem.same.trans hreb.same⟩, hsz₂⟩
    · rw [hcode, hn, ok_bind, if_pos (hcond.mpr hshort), ← hpage, hrun]
      rfl
    · refine hrem.refreshed.trans (hreb.refreshed.congr fun z hz => ?_)
      rw [hseps₁] at hz
      exact (hcD z (hm.leaf_mem (List.mem_cons_of_mem y hz))).symm
    · exact fun z hz => hrem.pages z (hreb.pages z hz)
    · exact hreb.length.trans hrem.length
    · refine hrem.frame.trans (hreb.frame.mono ?_ ?_)
      · exact fun z hz => Or.inr (hrem.pages z hz)
      · intro z hz
        rcases List.mem_append.mp hz with hz | hz
        · exact Or.inr (List.mem_append_left _ hz)
        · exact Or.inr (List.mem_append_right _ (hrem.pages z hz))
  · refine ⟨h₁, _, ?_, hrem, ⟨fun v hv => ?_, hsz₁⟩⟩
    · rw [hcode, hn, ok_bind, if_neg (hcond.not.mpr hshort)]
      rfl
    · rcases (show v ∈ UA ++ UB ∨ v = u' by simp at hv ⊢; tauto) with hv | rfl
      · exact hother v hv
      · refine ⟨by omega, ?_⟩
        unfold Short at hshort
        split at hshort
        · rename_i h0
          rw [if_pos h0]
          omega
        · rename_i h0
          rw [if_neg (hnil.not.mp h0)] at hu
          rw [if_neg h0]
          omega

/-- At the root no page can be taken away: there is no separator. -/
theorem removesAt_nil : RemovesAt K order [] := by
  intro h A B p y SA SB s D d fuel _ _ _ hseps
  simp [seps] at hseps

/-- The pages of a level after a merge: the right node is not among them. -/
theorem mem_pagesOf_merged (hnd : (pagesOf (UA ++ l :: r :: UB)).Nodup) {l₁ : Inner K} (hpage : l₁.page = l.page) :
    ∀ z ∈ pagesOf (UA ++ l₁ :: UB), z ∈ pagesOf (UA ++ l :: r :: UB) ∧ z ≠ r.page := by
  have hpages : pagesOf (UA ++ l :: r :: UB) = (pagesOf UA ++ [l.page]) ++ r.page :: pagesOf UB := by simp
  rw [hpages, List.nodup_middle, List.nodup_cons] at hnd
  intro z hz
  have hz' : z ∈ (pagesOf UA ++ [l.page]) ++ pagesOf UB := by simpa [hpage] using hz
  refine ⟨?_, ?_⟩
  · rw [hpages]
    simp only [List.mem_append, List.mem_cons] at hz' ⊢
    tauto
  · rintro rfl
    exact hnd.1 hz'

/-- Two neighbours have been merged, and the right one is taken out of the level above. -/
theorem rebuilt_of_merged (hpl : Placed h ps ((UA ++ l :: r :: UB) :: up)) {l₁ : Inner K} (hpage : l₁.page = l.page)
    (hlevel : Level h₁ ps (UA ++ l₁ :: UB))
    (hframe : Frame {z | z ∈ pagesOf (UA ++ l :: r :: UB)} {z | z ∈ ps} h h₁) (hsame : SameHdr h h₁)
    {T : List (K × PageNo)}
    (href : Refreshed h.content (seps ((UA ++ l :: r :: UB) :: up)) (weave (keysOf (UA ++ l₁ :: UB)) T))
    (hT : ∀ z ∈ T.map Prod.snd, h₁.content z = h.content z)
    (hremoved : Removed h₁ r.page (pagesOf (UA ++ l₁ :: UB)) up T h' up') :
    Rebuilt h ps ((UA ++ l :: r :: UB) :: up) h' ((UA ++ l₁ :: UB) :: up') := by
  have hpages := mem_pagesOf_merged hpl.above.ps_nodup hpage
  have hkeep : ∀ z ∈ pagesOf (UA ++ l₁ :: UB), z ∉ {z | z = r.page ∨ z ∈ upPages up} := by
    rintro z hz (rfl | hz')
    · exact (hpages _ hz).2 rfl
    · exact hpl.above.not_mem_up (hpages z hz).1 hz'
  have hps : ∀ z ∈ ps, z ∉ {z | z = r.page ∨ z ∈ pagesOf (UA ++ l₁ :: UB) ++ upPages up} := by
    rintro z hz (rfl | hz')
    · exact hpl.not_mem_up hz (by simp [upPages])
    · refine hpl.not_mem_up hz ?_
      rcases List.mem_append.mp hz' with hz' | hz'
      · exact List.mem_append_left _ (hpages z hz').1
      · exact List.mem_append_right _ hz'
  refine ⟨⟨⟨?_, hremoved.placed.upper⟩, ?_, ?_, hremoved.placed.free⟩, ?_, ?_, ?_, ?_, ?_⟩
  · exact hlevel.congr (fun z hz => hremoved.frame.content z (hkeep z hz))
      (fun z hz => hremoved.frame.link z (hkeep z hz)) (fun z hz => hremoved.frame.par z (hps z hz))
  · rw [upPages, List.nodup_append]
    refine ⟨hpl.ps_nodup, hremoved.placed.nodup, ?_⟩
    rintro z hz w hw rfl
    refine hps z hz (Or.inr ?_)
    rcases List.mem_append.mp hw with hw | hw
    · exact List.mem_append_left _ hw
    · exact List.mem_append_right _ (hremoved.pages z hw)
  · intro z hz
    rcases List.mem_append.mp hz with hz | hz
    · rw [hremoved.same.1, hsame.samePages.1]
      exact hpl.bound z (List.mem_append_left _ hz)
    · exact hremoved.placed.bound z hz
  · exact href.trans (Refreshed.weave (hremoved.refreshed.congr fun z hz => (hT z hz).symm))
  · intro z hz
    rcases List.mem_append.mp hz with hz | hz
    · exact List.mem_append_left _ (hpages z hz).1
    · exact List.mem_append_right _ (hremoved.pages z hz)
  · simpa using hremoved.length
  · refine (hframe.mono ?_ ?_).trans (hremoved.frame.mono ?_ ?_)
    · exact fun z hz => List.mem_append_left _ hz
    · exact fun z hz => List.mem_append_left _ hz
    · rintro z (rfl | hz)
      · exact List.mem_append_left _ (by simp)
      · exact List.mem_append_right _ hz
    · rintro z (rfl | hz)
      · exact List.mem_append_right _ (List.mem_append_left _ (by simp))
      · refine List.mem_append_right _ ?_
        rcases List.mem_append.mp hz with hz | hz
        · exact List.mem_append_left _ (hpages z hz).1
        · exact List.mem_append_right _ hz
  · exact hsame.samePages.trans hremoved.same

/-- `coalesce` on two neighbours of an internal level. -/
theorem coalesce_inner (hrem : RemovesAt K order up) (hord : 3 ≤ order)
    (hpl : Placed h ps ((UA ++ l :: r :: UB) :: up)) (horder : h.btreeOrder = order)
    (hsz : Sized order up)
    (hother : ∀ v ∈ UA ++ UB, v.keys.length ≤ max (order - 1) 1 ∧ (order + 1) / 2 - 1 ≤ v.keys.length)
    (hle : l.keys.length + r.keys.length < order - 1)
    (hge : (order + 1) / 2 - 1 ≤ l.keys.length + r.keys.length + 1)
    (hm : Mins h.content D d ps (y :: (seps ((UA ++ l :: r :: UB) :: up)).map Prod.snd))
    (hD : ∀ z ∈ upPages ((UA ++ l :: r :: UB) :: up), z ∉ D)
    (hfirst : ∀ z ∈ (seps ((UA ++ l :: r :: UB) :: up)).map Prod.snd, ∃ k, FirstKey h.content z k)
    (hfuel : d + up.length + 3 ≤ h.fuel) (hfuel' : up.length ≤ fuel) :
    ∃ h₁ h' up', h.coalesceNodes l.page r.page = .ok h₁ ∧
      updateRightParentWith (coalesceOrRedistribute fuel) h₁ r.page = .ok h' ∧
      Rebuilt h ps ((UA ++ l :: r :: UB) :: up) h' up' ∧ Sized order up' := by
  obtain ⟨TA, x, TB, hT, hTA, hTB⟩ := exists_between hpl
  obtain ⟨y', hs⟩ := sharing_of_level hpl hT hTA hm hD hfirst
  obtain ⟨h₁, key, hcode, hkey, hlevel, hpl₁, hcontent, hframe₁, hsame₁⟩ :=
    coalesceNodes_inner hpl hs (by omega) (by rw [horder]; exact hle)
  generalize hl₁ : (⟨l.page, l.keys ++ (key, x.2) :: r.keys, l.rids ++ r.rids⟩ : Inner K) = l₁ at hlevel
  have hpage₁ : l₁.page = l.page := by rw [← hl₁]
  have hpages := mem_pagesOf_merged hpl.above.ps_nodup hpage₁
  -- The separators of this level, before the level above is repaired.
  have hweave : weave (keysOf (UA ++ l₁ :: UB)) (TA ++ TB) =
      front (keysOf UA) TA ++ ((l.keys ++ (key, x.2) :: r.keys) ++ tail TB (keysOf UB)) := by
    rw [keysOf_append, keysOf_cons, weave_cut (by simpa using hTA), ← hl₁]
  have href : Refreshed h.content (seps ((UA ++ l :: r :: UB) :: up))
      (weave (keysOf (UA ++ l₁ :: UB)) (TA ++ TB)) := by
    rw [seps_two hT hTA, hweave]
    exact (Refreshed.refl _).append (((Refreshed.refl _).append (Refreshed.first hkey (.refl _))).append (.refl _))
  have hcD : ∀ z ∈ D, h₁.content z = h.content z := by
    intro z hz
    refine hcontent z ?_
    rintro rfl
    exact hs.left_out hz
  have hm₁ : Mins h₁.content (D ∪ {z | z ∈ pagesOf (UA ++ l₁ :: UB)}) (d + 1)
      (pagesOf (UA ++ l₁ :: UB)) (y :: (TA ++ TB).map Prod.snd) := by
    refine Mins.above hlevel.stored ?_ ?_
    · simp only [List.length_append, List.length_cons, hTA, hTB]
      omega
    · rw [← hlevel.kids, href.map_snd]
      exact hm.congr hcD subset_rfl
  have hsub : ∀ z ∈ (TA ++ TB).map Prod.snd, z ∈ (seps ((UA ++ l :: r :: UB) :: up)).map Prod.snd := by
    intro z hz
    rw [← href.map_snd]
    refine (List.Sublist.map Prod.snd (seps_sublist ?_)).mem hz
    simp only [keysOf_length, List.length_append, List.length_cons, hTA, hTB]
    omega
  have hT₁ : ∀ z ∈ (TA ++ TB).map Prod.snd, h₁.content z = h.content z :=
    fun z hz => hcD z (hm.leaf_mem (List.mem_cons_of_mem y (hsub z hz)))
  have hout : ∀ z ∈ r.page :: upPages up, z ∉ D ∪ {z | z ∈ pagesOf (UA ++ l₁ :: UB)} := by
    rintro z hz (hzD | hzU)
    · refine hD z ?_ hzD
      rcases List.mem_cons.mp hz with rfl | hz
      · simp [upPages]
      · exact List.mem_append_right _ hz
    · rcases List.mem_cons.mp hz with rfl | hz
      · exact (hpages _ hzU).2 rfl
      · exact hpl.above.not_mem_up (hpages z hzU).1 hz
  have hsplit : pagesOf (UA ++ l₁ :: UB) = (pagesOf UA ++ [l.page]) ++ pagesOf UB := by simp [hpage₁]
  obtain ⟨h', up', hrun, hremoved, hsz'⟩ := hrem h₁ (pagesOf UA ++ [l.page]) (pagesOf UB) r.page y TA TB x
    (D ∪ {z | z ∈ pagesOf (UA ++ l₁ :: UB)}) (d + 1) fuel (by simpa using hpl₁)
    (hframe₁.btreeOrder.trans horder) hsz hT (by simp [hTA]) (by rw [← hsplit]; exact hm₁) hout
    (fun z hz => by
      obtain ⟨k, hk⟩ := hfirst z (hsub z hz)
      refine ⟨k, ?_⟩
      unfold FirstKey at hk ⊢
      rwa [hT₁ z hz])
    (by rw [hsame₁.fuel]; omega) hfuel'
  rw [← hsplit] at hremoved
  refine ⟨h₁, h', (UA ++ l₁ :: UB) :: up', hcode, hrun,
    rebuilt_of_merged hpl hpage₁ hlevel hframe₁ hsame₁ href hT₁ hremoved, ⟨?_, hsz'⟩⟩
  intro v hv
  have hmin : ∀ n, (order + 1) / 2 - 1 ≤ n → (if up' = [] then 1 else (order + 1) / 2 - 1) ≤ n := by
    intro n hn
    split <;> omega
  rcases (show v ∈ UA ++ UB ∨ v = l₁ by simp at hv ⊢; tauto) with hv | rfl
  · exact ⟨(hother v hv).1, hmin _ (hother v hv).2⟩
  · rw [← hl₁]
    simp only [List.length_append, List.length_cons]
    exact ⟨by omega, hmin _ (by omega)⟩

/-- The root has no key left: its only child becomes the root. -/
theorem adjustRoot_spec (hpl : Placed h ps [[u]]) (hkeys : u.keys = []) :
    ∃ h', h.adjustRoot u.page = .ok (true, h') ∧ Rebuilt h ps [[u]] h' [] := by
  obtain ⟨⟨hkids, hst, -⟩, -⟩ := hpl.upper
  have hstu := hst u (by simp)
  obtain ⟨c, hc⟩ : ∃ c, u.rids = [c] := by
    have := hstu.length
    rw [hkeys] at this
    exact List.length_eq_one_iff.mp this
  obtain rfl : ps = [c.pageNo] := by simp [hkids, Inner.kids, hc]
  obtain ⟨n, hn, hleaf, hnk, hnr, -⟩ := fetchNode_of_content hstu.content
  have hne : c.pageNo ≠ u.page := by
    intro heq
    exact hpl.not_mem_up (x := c.pageNo) (by simp) (by simp [upPages, heq])
  have hcpar : h.par c.pageNo = some u.page := hstu.par _ (by simp [Inner.kids, hc])
  have hpar₁ : (({ h.deletePage u.page with rootPage := c.pageNo } : IxIndexHandle K).par c.pageNo).isSome := by
    show ((h.deletePage u.page).par c.pageNo).isSome
    rw [par_deletePage hne, hcpar]
    rfl
  obtain ⟨h', hset, hc', hl', hp', hs'⟩ := setParentPageNo_spec noPage hpar₁
  rw [SameHdr] at hs'
  refine ⟨h', ?_, ⟨⟨⟨c.pageNo, rfl, ?_, ?_⟩, by simp [upPages], ?_, ?_⟩,
    by simpa [seps, keysOf, hkeys] using Refreshed.refl [], ?_, by simp, ?_, ?_⟩⟩
  · simp only [adjustRoot, hn, ok_bind, ixAssert, hleaf, Bool.not_false, if_true, IxNode.getSize, hnk, hkeys,
      List.map_nil, List.length_nil, beq_self_eq_true, hnr, hc, arrayGet, List.getElem?_cons_zero, hset,
      pure_eq_ok]
  · rw [hp', Function.update_self]
  · rw [hs']
  · intro z hz
    rw [hs']
    exact hpl.bound z (by simp [upPages] at hz ⊢; tauto)
  · rw [hs']
    exact hpl.free
  · simp [upPages]
  · refine ⟨?_, ?_, ?_, ?_, ?_, ?_, ?_⟩
    · intro z hz
      have hzu : z ≠ u.page := fun heq => hz (by simp [upPages, heq])
      rw [hc']
      exact content_deletePage hzu
    · intro z hz
      have hzu : z ≠ u.page := fun heq => hz (by simp [upPages, heq])
      rw [hl']
      exact link_deletePage hzu
    · intro z hz
      have hzu : z ≠ u.page := fun heq => hz (by simp [upPages, heq])
      have hzc : z ≠ c.pageNo := fun heq => hz (by simp [heq])
      rw [hp', Function.update_of_ne hzc]
      exact par_deletePage hzu
    all_goals
      rw [hs']
      rfl
  · rw [hs']
    exact ⟨rfl, rfl⟩

/-- `redistribute` repairs an underfull node if its neighbour has a key to spare. -/
theorem redistribute_repairs (hord : 3 ≤ order) (hpl : Placed h ps ((UA ++ l :: r :: UB) :: up))
    (hsz : Sized order up)
    (hother : ∀ v ∈ UA ++ UB, v.keys.length ≤ max (order - 1) 1 ∧ (order + 1) / 2 - 1 ≤ v.keys.length)
    (hmax : l.keys.length ≤ order - 1 ∧ r.keys.length ≤ order - 1)
    (hshort : (l.keys.length + 1 = (order + 1) / 2 - 1 ∧ (order + 1) / 2 - 1 < r.keys.length) ∨
      (r.keys.length + 1 = (order + 1) / 2 - 1 ∧ (order + 1) / 2 - 1 < l.keys.length))
    (hm : Mins h.content D d ps (y :: (seps ((UA ++ l :: r :: UB) :: up)).map Prod.snd))
    (hD : ∀ z ∈ upPages ((UA ++ l :: r :: UB) :: up), z ∉ D)
    (hfirst : ∀ z ∈ (seps ((UA ++ l :: r :: UB) :: up)).map Prod.snd, ∃ k, FirstKey h.content z k)
    (hfuel : d + up.length + 3 ≤ h.fuel) :
    ∃ h' up', h.redistribute l.page r.page = .ok h' ∧
      Rebuilt h ps ((UA ++ l :: r :: UB) :: up) h' up' ∧ Sized order up' := by
  obtain ⟨h', l', r', up', hcode, hreb, hsum, hlr, hrl, -, hsz'⟩ :=
    redistribute_inner hpl hm hD hfirst (by omega) (by omega)
  refine ⟨h', _, hcode, hreb, ⟨fun v hv => ?_, hsz' order hsz⟩⟩
  have hmin : ∀ n, (order + 1) / 2 - 1 ≤ n → (if up' = [] then 1 else (order + 1) / 2 - 1) ≤ n := by
    intro n hn
    split <;> omega
  rcases (show v ∈ UA ++ UB ∨ v = l' ∨ v = r' by simp at hv ⊢; tauto) with hv | rfl | rfl
  · exact ⟨(hother v hv).1, hmin _ (hother v hv).2⟩
  · exact ⟨by omega, hmin _ (by omega)⟩
  · exact ⟨by omega, hmin _ (by omega)⟩

/-- `coalesce_or_redistribute`, given that pages can be taken out of the level above. -/
theorem repairsAt_of_removesAt (hord : 3 ≤ order) (hrem : RemovesAt K order up) : RepairsAt K order up := by
  intro h ps UA u UB y D d fuel hpl horder hsz hother hshort hm hD hfirst hfuel hfuel'
  obtain ⟨fuel, rfl⟩ := Nat.exists_eq_add_one_of_ne_zero (Nat.ne_zero_of_lt hfuel')
  obtain ⟨⟨-, hst, hlk⟩, -⟩ := hpl.upper
  have hstu := hst u (by simp)
  obtain ⟨n, hn, -, hkeys, -, hnl, hnpar⟩ := fetchNode_of_content hstu.content
  obtain ⟨q, hq, hroot⟩ := hpl.above.par_root (z := u.page) (by simp)
  obtain rfl : q = n.parent := Option.some.inj (hq.symm.trans hnpar)
  have hlinks : n.prevLeaf = (pagesOf UA).getLastD noPage ∧ n.nextLeaf = (pagesOf UB).headD noPage := by
    have hat := Linked.at
      (show Linked h.link noPage (pagesOf UA ++ u.page :: pagesOf UB) noPage by simpa using hlk)
    rw [hat] at hnl
    simp only [Option.some.injEq, Prod.mk.injEq] at hnl
    exact ⟨hnl.1.symm, hnl.2.symm⟩
  have hcount := hpl.above.root_iff hord hsz
  simp only [pagesOf_length, List.length_append, List.length_cons] at hcount
  by_cases h0 : up = []
  · -- The root.
    subst h0
    have hlen := hcount.mp rfl
    obtain rfl : UA = [] := List.length_eq_zero_iff.mp (by omega)
    obtain rfl : UB = [] := List.length_eq_zero_iff.mp (by omega)
    have hk : u.keys = [] := List.length_eq_zero_iff.mp (by simpa [Short] using hshort)
    obtain ⟨h', hadj, hreb⟩ := adjustRoot_spec hpl hk
    refine ⟨true, h', [], ?_, hreb, trivial⟩
    simp [coalesceOrRedistribute, hn, IxNode.isRootPage, hroot.mpr rfl, hadj]
  have hnroot : n.parent ≠ noPage := fun heq => h0 (hroot.mp heq)
  rw [Short, if_neg h0] at hshort
  rcases List.eq_nil_or_concat' UA with rfl | ⟨UA, l, rfl⟩
  · -- The leftmost node: its right neighbour.
    obtain ⟨r, UB, rfl⟩ : ∃ r UB', UB = r :: UB' := by
      refine List.exists_cons_of_ne_nil ?_
      rintro rfl
      exact h0 (hcount.mpr (by simp))
    have hr := hother r (by simp)
    have hother' : ∀ v ∈ [] ++ UB, v.keys.length ≤ max (order - 1) 1 ∧ (order + 1) / 2 - 1 ≤ v.keys.length :=
      fun v hv => hother v (by simp at hv ⊢; tauto)
    have hnext : n.nextLeaf = r.page := hlinks.2
    have hrne : r.page ≠ noPage := hpl.ne_noPage (by simp [upPages])
    obtain ⟨m, hmr, hmleaf, hmkeys, -⟩ := fetchNode_of_content (hst r (by simp)).content
    have hbig : m.getSize > m.getMinKeySize h.btreeOrder ↔ (order + 1) / 2 - 1 < r.keys.length := by
      simp [IxNode.getSize, IxNode.getMinKeySize, hmleaf, hmkeys, horder]
    by_cases hlt : (order + 1) / 2 - 1 < r.keys.length
    · obtain ⟨h', up', hcode, hreb, hsz'⟩ := redistribute_repairs hord hpl hsz hother'
        ⟨by omega, by omega⟩ (Or.inl ⟨hshort, hlt⟩) hm hD hfirst hfuel
      refine ⟨false, h', up', ?_, hreb, hsz'⟩
      simp [coalesceOrRedistribute, hn, IxNode.isRootPage, hnroot, hlinks.1, hnext, hrne, hmr,
        hbig.mpr hlt, hcode]
    · obtain ⟨h₁, h', up', hcode, hcode', hreb, hsz'⟩ := coalesce_inner hrem hord
        hpl horder hsz hother' (by omega) (by omega) hm hD hfirst hfuel
        (show up.length ≤ fuel by omega)
      refine ⟨false, h', up', ?_, hreb, hsz'⟩
      simp [coalesceOrRedistribute, hn, IxNode.isRootPage, hnroot, hlinks.1, hnext, hrne, hmr,
        hbig.not.mpr hlt, hcode, hcode']
  · -- The left neighbour.
    rw [List.append_assoc, List.singleton_append] at hpl hm hD hfirst hst ⊢
    have hl := hother l (by simp)
    have hother' : ∀ v ∈ UA ++ UB, v.keys.length ≤ max (order - 1) 1 ∧ (order + 1) / 2 - 1 ≤ v.keys.length :=
      fun v hv => hother v (by simp at hv ⊢; tauto)
    have hprev : n.prevLeaf = l.page := by simp [hlinks.1]
    have hlne : l.page ≠ noPage := hpl.ne_noPage (by simp [upPages])
    obtain ⟨m, hml, hmleaf, hmkeys, -⟩ := fetchNode_of_content (hst l (by simp)).content
    have hbig : m.getSize > m.getMinKeySize h.btreeOrder ↔ (order + 1) / 2 - 1 < l.keys.length := by
      simp [IxNode.getSize, IxNode.getMinKeySize, hmleaf, hmkeys, horder]
    by_cases hlt : (order + 1) / 2 - 1 < l.keys.length
    · obtain ⟨h', up', hcode, hreb, hsz'⟩ := redistribute_repairs hord hpl hsz hother'
        ⟨by omega, by omega⟩ (Or.inr ⟨hshort, hlt⟩) hm hD hfirst hfuel
      refine ⟨false, h', up', ?_, hreb, hsz'⟩
      simp [coalesceOrRedistribute, hn, IxNode.isRootPage, hnroot, hprev, hlne, hml, hbig.mpr hlt, hcode]
    · obtain ⟨h₁, h', up', hcode, hcode', hreb, hsz'⟩ := coalesce_inner hrem hord
        hpl horder hsz hother' (by omega) (by omega) hm hD hfirst hfuel
        (show up.length ≤ fuel by omega)
      refine ⟨true, h', up', ?_, hreb, hsz'⟩
      simp [coalesceOrRedistribute, hn, IxNode.isRootPage, hnroot, hprev, hlne, hml, hbig.not.mpr hlt,
        hcode, hcode']

/-- `update_right_parent` at any height of the tree. -/
theorem updateRightParent_spec (hord : 3 ≤ order) (up : List (List (Inner K))) : RemovesAt K order up := by
  induction hlen : up.length generalizing up with
  | zero =>
    obtain rfl := List.length_eq_zero_iff.mp hlen
    exact removesAt_nil
  | succ n ih =>
    obtain ⟨U, up, rfl⟩ := List.exists_cons_of_length_eq_add_one hlen
    refine removesAt_cons hord fun up' hup' => repairsAt_of_removesAt hord (ih up' ?_)
    simpa [hup'] using hlen

end Rmdb
