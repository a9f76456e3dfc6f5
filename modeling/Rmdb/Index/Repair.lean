-- SUMMARY: Repair of links, parent pointers and separators: `maintain_child` and `maintain_parent`.
import Rmdb.Index.Search

/-!
# Repair

The setters of a page each change one view of it. `maintain_child` sets parent
pointers, and `maintain_parent` sets exactly one separator of the upper levels: the one
between a page and its left neighbour, wherever in the tree that separator is kept.
-/

namespace Rmdb

open LinkedList Weave IxIndexHandle

section Setters

variable {K : Type}

namespace IxIndexHandle

/-- Only pages differ. -/
def SameHdr (h h' : IxIndexHandle K) : Prop := h' = { h with pages := h'.pages }

variable {h h' : IxIndexHandle K} {p : PageNo}

theorem SameHdr.refl (h : IxIndexHandle K) : SameHdr h h := rfl

theorem SameHdr.setNode (h : IxIndexHandle K) (p : PageNo) (n : IxNode K) :
    SameHdr h (h.setNode p n) := rfl

theorem SameHdr.trans {h₁ h₂ h₃ : IxIndexHandle K} (h₁₂ : SameHdr h₁ h₂) (h₂₃ : SameHdr h₂ h₃) :
    SameHdr h₁ h₃ := by
  rw [SameHdr] at *
  rw [h₂₃, h₁₂]

theorem SameHdr.samePages (hs : SameHdr h h') : SamePages h h' := by
  rw [SameHdr] at hs
  rw [hs]
  exact ⟨rfl, rfl⟩

theorem SameHdr.rootPage (hs : SameHdr h h') : h'.rootPage = h.rootPage := by
  rw [SameHdr] at hs
  rw [hs]

theorem SameHdr.btreeOrder (hs : SameHdr h h') : h'.btreeOrder = h.btreeOrder := by
  rw [SameHdr] at hs
  rw [hs]

theorem SameHdr.fuel (hs : SameHdr h h') : h'.fuel = h.fuel := hs.samePages.fuel

theorem SameHdr.frame {C P : Set PageNo} (hs : SameHdr h h')
    (hcontent : ∀ x, x ∉ C → h'.content x = h.content x)
    (hlink : ∀ x, x ∉ C → h'.link x = h.link x)
    (hpar : ∀ x, x ∉ P → h'.par x = h.par x) : Frame C P h h' := by
  rw [SameHdr] at hs
  refine ⟨hcontent, hlink, hpar, ?_, ?_, ?_, ?_⟩ <;> rw [hs]

theorem setParentPageNo_spec (q : PageNo) (hp : (h.par p).isSome) :
    ∃ h', h.setParentPageNo p q = .ok h' ∧ h'.content = h.content ∧ h'.link = h.link ∧
      h'.par = Function.update h.par p (some q) ∧ SameHdr h h' := by
  obtain ⟨x, hx⟩ := Option.isSome_iff_exists.mp hp
  obtain ⟨n, hn, -⟩ := Option.map_eq_some_iff.mp hx
  refine ⟨_, by simp only [setParentPageNo, modifyNode, fetchNode, hn]; rfl, ?_, ?_, ?_, .setNode ..⟩
  · rw [content_setNode, Function.update_eq_self_iff]
    simp [content, hn]
  · rw [link_setNode, Function.update_eq_self_iff]
    simp [link, hn]
  · rw [par_setNode]

theorem setPrevLeaf_spec (q : PageNo) (hp : (h.link p).isSome) :
    ∃ h', h.setPrevLeaf p q = .ok h' ∧ h'.content = h.content ∧ h'.par = h.par ∧
      h'.link = relink h.link p (fun l => (q, l.2)) ∧ SameHdr h h' := by
  obtain ⟨x, hx⟩ := Option.isSome_iff_exists.mp hp
  obtain ⟨n, hn, -⟩ := Option.map_eq_some_iff.mp hx
  refine ⟨_, by simp only [setPrevLeaf, modifyNode, fetchNode, hn]; rfl, ?_, ?_, ?_, .setNode ..⟩
  · rw [content_setNode, Function.update_eq_self_iff]
    simp [content, hn]
  · rw [par_setNode, Function.update_eq_self_iff]
    simp [par, hn]
  · simp [link_setNode, relink, link, hn]

theorem setNextLeaf_spec (q : PageNo) (hp : (h.link p).isSome) :
    ∃ h', h.setNextLeaf p q = .ok h' ∧ h'.content = h.content ∧ h'.par = h.par ∧
      h'.link = relink h.link p (fun l => (l.1, q)) ∧ SameHdr h h' := by
  obtain ⟨x, hx⟩ := Option.isSome_iff_exists.mp hp
  obtain ⟨n, hn, -⟩ := Option.map_eq_some_iff.mp hx
  refine ⟨_, by simp only [setNextLeaf, modifyNode, fetchNode, hn]; rfl, ?_, ?_, ?_, .setNode ..⟩
  · rw [content_setNode, Function.update_eq_self_iff]
    simp [content, hn]
  · rw [par_setNode, Function.update_eq_self_iff]
    simp [par, hn]
  · simp [link_setNode, relink, link, hn]

/-- The header after the end of a level may have moved. -/
def EndMoved (h h' : IxIndexHandle K) (lf : Bool) (B : List PageNo) (q : PageNo) : Prop :=
  h' = { h with pages := h'.pages, lastLeaf := if lf ∧ B = [] then q else h.lastLeaf }

theorem setPrevOfNext_spec (lf : Bool) {B : List PageNo} (q : PageNo)
    (hB : ∀ b ∈ B.head?, b ≠ noPage ∧ (h.link b).isSome) :
    ∃ h', h.setPrevOfNext lf (B.headD noPage) q = .ok h' ∧ h'.content = h.content ∧
      h'.par = h.par ∧ h'.link = relinkHead h.link q B ∧ EndMoved h h' lf B q := by
  cases B with
  | nil =>
    cases lf with
    | false => exact ⟨h, by simp [setPrevOfNext], rfl, rfl, rfl, rfl⟩
    | true => exact ⟨{ h with lastLeaf := q }, by simp [setPrevOfNext], rfl, rfl, rfl, rfl⟩
  | cons b B =>
    obtain ⟨hb, hlb⟩ := hB b rfl
    obtain ⟨h', hset, hc, hpar, hl, hs⟩ := setPrevLeaf_spec q hlb
    refine ⟨h', by simp [setPrevOfNext, hb, hset], hc, hpar, hl, ?_⟩
    rw [SameHdr] at hs
    simpa [EndMoved] using hs

-- ---------------------------------------------------------------------------
-- Parent pointers
-- ---------------------------------------------------------------------------

/-- `p` becomes the parent of the pages `cs`. -/
def adopt (f : PageNo → Option PageNo) (p : PageNo) (cs : List PageNo) : PageNo → Option PageNo :=
  fun x => if x ∈ cs then some p else f x

theorem maintainChild_spec {ks : List K} {RA RB : List Rid} {r : Rid}
    (hp : h.content p = some (false, ks, RA ++ r :: RB)) (hr : (h.par r.pageNo).isSome) :
    ∃ h', h.maintainChild p RA.length = .ok h' ∧ h'.content = h.content ∧ h'.link = h.link ∧
      h'.par = adopt h.par p [r.pageNo] ∧ SameHdr h h' := by
  obtain ⟨n, hn, hleaf, -, hrids, -⟩ := fetchNode_of_content hp
  obtain ⟨h', hset, hc, hl, hpar, hs⟩ := setParentPageNo_spec p hr
  refine ⟨h', by simp [maintainChild, hn, hleaf, hrids, arrayGet, hset], hc, hl, ?_, hs⟩
  funext x
  by_cases hx : x = r.pageNo
  · simp [hpar, adopt, hx]
  · simp [hpar, adopt, hx]

theorem maintainChildren_spec {ks : List K} {RA RB RC : List Rid}
    (hp : h.content p = some (false, ks, RA ++ RB ++ RC))
    (hr : ∀ r ∈ RB, (h.par r.pageNo).isSome) :
    ∃ h', maintainChildren p RA.length RB.length h = .ok h' ∧ h'.content = h.content ∧
      h'.link = h.link ∧ h'.par = adopt h.par p (RB.map Rid.pageNo) ∧ SameHdr h h' := by
  induction RB generalizing h RA with
  | nil => exact ⟨h, rfl, rfl, rfl, by funext x; simp [adopt], .refl h⟩
  | cons r RB ih =>
    obtain ⟨h₁, hmc, hc₁, hl₁, hp₁, hs₁⟩ :=
      maintainChild_spec (show h.content p = some (false, ks, RA ++ r :: (RB ++ RC)) by simpa using hp)
        (hr r List.mem_cons_self)
    have hr₁ : ∀ r' ∈ RB, (h₁.par r'.pageNo).isSome := by
      intro r' hr'
      rw [hp₁, adopt]
      split
      · rfl
      · exact hr r' (List.mem_cons_of_mem r hr')
    obtain ⟨h₂, hrec, hc₂, hl₂, hp₂, hs₂⟩ := ih
      (show h₁.content p = some (false, ks, (RA ++ [r]) ++ RB ++ RC) by rw [hc₁]; simpa using hp) hr₁
    refine ⟨h₂, ?_, by rw [hc₂, hc₁], by rw [hl₂, hl₁], ?_, hs₁.trans hs₂⟩
    · rw [List.length_append] at hrec
      simpa [maintainChildren, hmc] using hrec
    · funext x
      simp only [hp₂, hp₁, adopt, List.map_cons, List.mem_cons, List.not_mem_nil, or_false]
      by_cases hx : x = r.pageNo
      · simp [hx]
      · simp [hx]

end IxIndexHandle

end Setters

-- ---------------------------------------------------------------------------
-- One separator
-- ---------------------------------------------------------------------------

variable {K : Type} {h h' : IxIndexHandle K} {ps A B : List PageNo} {p : PageNo}
  {up up' : List (List (Inner K))} {SA SB : List (K × PageNo)} {s key : K} {l l' : PageNo}

/-- The upper levels of the pages `ps` have new separators `S`, and are otherwise as they
were. -/
structure Relabelled (h : IxIndexHandle K) (ps : List PageNo) (up : List (List (Inner K)))
    (h' : IxIndexHandle K) (up' : List (List (Inner K))) (S : List (K × PageNo)) : Prop where
  upper : Upper h' ps up'
  seps : seps up' = S
  pages : upPages up' = upPages up
  length : up'.length = up.length
  sized : ∀ order, Sized order up → Sized order up'
  frame : Frame {x | x ∈ upPages up} ∅ h h'
  same : SameHdr h h'

/-- The index of a child in its parent. -/
theorem findChild_eq {n : IxNode K} {RA RB : List Rid} {r : Rid} (hrids : n.rids = RA ++ r :: RB)
    (hnd : (n.rids.map Rid.pageNo).Nodup) : n.findChild r.pageNo = .ok RA.length := by
  have hRA : ∀ x ∈ RA, (x.pageNo == r.pageNo) = false := by
    intro x hx
    rw [hrids, List.map_append, List.nodup_append] at hnd
    simpa using hnd.2.2 x.pageNo (List.mem_map_of_mem hx) r.pageNo (by simp)
  have hidx : n.rids.findIdx (fun rid => rid.pageNo == r.pageNo) = RA.length := by
    rw [hrids, List.findIdx_append, List.findIdx_eq_length_of_false (by simpa using hRA)]
    simp [List.findIdx_cons]
  have hlt : RA.length < n.rids.length := by simp [hrids]
  simp [IxNode.findChild, hidx, hlt]

/-- Other keys and children in one node of a level. The children know the node already. -/
theorem Upper.replace {UA UB : List (Inner K)} {u : Inner K} {n : IxNode K}
    (hup : Upper h ps ((UA ++ u :: UB) :: up)) (hnd : (upPages ((UA ++ u :: UB) :: up)).Nodup)
    (hn : h.fetchNode u.page = .ok n) (keys : List (K × PageNo)) (rids : List Rid)
    (hlen : rids.length = keys.length + 1) (hpar : ∀ r ∈ rids, h.par r.pageNo = some u.page) :
    Upper (h.setNode u.page { n with keys := keys.map Prod.fst, rids := rids })
      (kidsOf UA ++ rids.map Rid.pageNo ++ kidsOf UB) ((UA ++ ⟨u.page, keys, rids⟩ :: UB) :: up) := by
  obtain ⟨⟨rfl, hst, hlk⟩, hup⟩ := hup
  have hleaf : n.isLeaf = false := by
    have hc := (fetchNode_content hn).1
    rw [(hst u (by simp)).content] at hc
    simp only [Option.some.injEq, Prod.mk.injEq] at hc
    exact hc.1.symm
  simp only [upPages, pagesOf_append, pagesOf_cons, List.append_assoc, List.cons_append] at hnd
  rw [List.nodup_middle, List.nodup_cons] at hnd
  have hne : ∀ x ∈ pagesOf UA ++ (pagesOf UB ++ upPages up), x ≠ u.page := by
    rintro x hx rfl
    exact hnd.1 hx
  generalize hh' : h.setNode u.page { n with keys := keys.map Prod.fst, rids := rids } = h'
  -- The node keeps its links and its parent, so these two views do not change.
  have hlink : h'.link = h.link := by
    rw [← hh', link_setNode_keep hn]
  have hpar' : h'.par = h.par := by
    rw [← hh', par_setNode_keep hn]
  have hcontent : ∀ x, x ≠ u.page → h'.content x = h.content x := by
    intro x hx
    rw [← hh', content_setNode, Function.update_of_ne hx]
  refine ⟨⟨by simp [kidsOf, Inner.kids], fun v hv => ?_, ?_⟩, ?_⟩
  · rcases (show v ∈ UA ++ UB ∨ v = ⟨u.page, keys, rids⟩ by simp at hv ⊢; tauto) with hv | rfl
    · have hst_v := hst v (by simp at hv ⊢; tauto)
      refine ⟨?_, hst_v.length, fun c hc => by rw [hpar', hst_v.par c hc]⟩
      rw [hcontent v.page (hne _ ?_), hst_v.content]
      rw [← List.append_assoc, ← pagesOf_append]
      exact List.mem_append_left _ (mem_pagesOf hv)
    · refine ⟨by rw [← hh', content_setNode]; simp [hleaf], hlen, fun c hc => ?_⟩
      obtain ⟨r, hr, rfl⟩ := List.mem_map.mp hc
      rw [hpar', hpar r hr]
  · rw [hlink]
    simpa using hlk
  · have hpages : pagesOf (UA ++ ⟨u.page, keys, rids⟩ :: UB) = pagesOf (UA ++ u :: UB) := by simp
    rw [hpages]
    refine hup.congr (fun x hx => hcontent x (hne x (by simp [hx]))) (fun x _ => by rw [hlink])
      (fun x _ => by rw [hpar']) ?_
    rw [← hh']
    rfl

theorem Sized.setKeys {UA UB : List (Inner K)} {u : Inner K} {order : Nat}
    {keys : List (K × PageNo)} (hlen : keys.length = u.keys.length)
    (hs : Sized order ((UA ++ u :: UB) :: up)) :
    Sized order ((UA ++ { u with keys := keys } :: UB) :: up) := by
  refine ⟨fun v hv => ?_, hs.2⟩
  rcases (show v ∈ UA ++ UB ∨ v = { u with keys := keys } by simp at hv ⊢; tauto) with hv | rfl
  · exact hs.1 v (by simp at hv ⊢; tauto)
  · rw [hlen]
    exact hs.1 u (by simp)

/-- `maintain_parent` climbs past the levels on which the path is the leftmost child, and
then sets the separator on the left of the page. -/
theorem maintainParentLoop_spec (key : K) (l' : PageNo) (hup : Upper h (A ++ p :: B) up) (hps : (A ++ p :: B).Nodup)
    (hnd : (upPages up).Nodup) (hpos : ∀ x ∈ upPages up, x ≠ noPage)
    (hseps : seps up = SA ++ (s, l) :: SB) (hlen : SA.length + 1 = A.length) {fuel : Nat}
    (hfuel : up.length ≤ fuel) {parentNo : PageNo} (hpar : h.par p = some parentNo) :
    ∃ h' up', maintainParentLoop fuel h key p parentNo = .ok h' ∧
      Relabelled h (A ++ p :: B) up h' up' (SA ++ (key, l') :: SB) := by
  induction up generalizing A p B SA SB fuel parentNo with
  | nil => simp [seps] at hseps
  | cons U up ih =>
    obtain ⟨UA, u, UB, RA, r, RB, KA, KB, TA, TB, rfl, hrids, rfl, rfl, rfl, hkeys, hKA, hKB, hT,
      hTA, hTB⟩ := hup.parent
    obtain ⟨⟨hkids, hst, -⟩, hup'⟩ := id hup
    have hstu := hst u (by simp)
    have hlens : ∀ v ∈ UA, v.rids.length = v.keys.length + 1 := fun v hv => (hst v (by simp [hv])).length
    obtain rfl : u.page = parentNo := by
      rw [hstu.par r.pageNo (by simp [Inner.kids, hrids])] at hpar
      exact Option.some.inj hpar
    have hne : u.page ≠ noPage := hpos _ (by simp [upPages])
    obtain ⟨fuel, rfl⟩ := Nat.exists_eq_add_one_of_ne_zero (Nat.ne_zero_of_lt hfuel)
    obtain ⟨n, hn, -, hnk, hnr, -, hnp⟩ := fetchNode_of_content hstu.content
    have hkids_nd : (n.rids.map Rid.pageNo).Nodup := by
      rw [hkids, kidsOf, List.nodup_flatMap] at hps
      rw [hnr]
      exact hps.1 u (by simp)
    have hrank : n.findChild r.pageNo = .ok RA.length := findChild_eq (hnr.trans hrids) hkids_nd
    -- The separator before the page is the last one left of the cut.
    obtain ⟨hleft, hright⟩ : SA ++ [(s, l)] = front (keysOf UA) TA ++ KA ∧
        SB = KB ++ tail TB (keysOf UB) := by
      refine List.append_inj ?_ ?_
      · rw [List.append_assoc, List.singleton_append, ← hseps, seps_cut _ _ hkeys hT hTA]
      · rw [left_length hlens hKA hTA, ← hlen, List.length_append, List.length_singleton]
    rcases List.eq_nil_or_concat' RA with rfl | ⟨RA, r', rfl⟩
    · -- The page is the first child: the separator is kept further up.
      obtain rfl : KA = [] := List.length_eq_zero_iff.mp hKA
      rw [List.append_nil] at hleft
      obtain ⟨UA, v, rfl⟩ : ∃ UA' v, UA = UA' ++ [v] := by
        rcases List.eq_nil_or_concat' UA with rfl | hex
        · simp at hleft
        · exact hex
      obtain ⟨TA, t, rfl⟩ : ∃ TA' t, TA = TA' ++ [t] := by
        rcases List.eq_nil_or_concat' TA with rfl | hex
        · simp at hleft
        · exact hex
      have hTA' : TA.length = (keysOf UA).length := by simpa using hTA
      obtain ⟨hSA, hlast⟩ : SA = front (keysOf UA) TA ++ v.keys ∧ [(s, l)] = [t] := by
        refine List.append_inj' ?_ rfl
        rw [hleft, keysOf_append, front_append hTA']
        simp
      cases hlast
      have hdisj := hnd
      rw [upPages, List.nodup_append] at hdisj
      obtain ⟨hpages, hnd', hdisj⟩ := hdisj
      obtain ⟨h', up', hloop, hrel⟩ := ih (A := pagesOf (UA ++ [v])) (p := u.page)
        (B := pagesOf UB) (by simpa using hup') (by simpa using hpages) hnd'
        (fun x hx => hpos x (by simp [upPages, hx]))
        (show seps up = TA ++ (s, l) :: TB by simpa using hT) (by simp [hTA'])
        (show up.length ≤ fuel by simpa using hfuel) hnp
      refine ⟨h', (UA ++ [v] ++ u :: UB) :: up', ?_, ?_⟩
      · simp [maintainParentLoop, hne, hn, hrank, hloop]
      have hout : ∀ x ∈ pagesOf (UA ++ [v] ++ u :: UB), x ∉ {x | x ∈ upPages up} :=
        fun x hx hx' => hdisj x hx x hx' rfl
      refine ⟨?_, ?_, ?_, ?_, fun order hs => ⟨?_, hrel.sized order hs.2⟩, ?_, hrel.same⟩
      · exact ⟨hup.1.congr (fun x hx => hrel.frame.content x (hout x hx))
          (fun x hx => hrel.frame.link x (hout x hx)) (fun x _ => hrel.frame.par x (by simp)),
          by simpa using hrel.upper⟩
      · rw [seps_cut [] KB hkeys (show seps up' = (TA ++ [(key, l')]) ++ TB by simpa using hrel.seps)
          (by simpa using hTA), keysOf_append, front_append hTA', hSA, hright]
        simp
      · rw [upPages, upPages, hrel.pages]
      · rw [List.length_cons, List.length_cons, hrel.length]
      · have hiff : up' = [] ↔ up = [] := by
          rw [← List.length_eq_zero_iff, hrel.length, List.length_eq_zero_iff]
        simpa only [hiff] using hs.1
      · exact hrel.frame.mono (fun x hx => by simp [upPages, show x ∈ upPages up from hx]) subset_rfl
    · -- The separator is the key before the child.
      obtain ⟨KA, x, rfl⟩ : ∃ KA' x, KA = KA' ++ [x] := by
        rcases List.eq_nil_or_concat' KA with rfl | hex
        · simp at hKA
        · exact hex
      rw [← List.append_assoc] at hleft
      obtain ⟨rfl, hlast⟩ := List.append_inj' hleft rfl
      cases hlast
      have hlen' : (KA ++ (key, l') :: KB).length = u.keys.length := by simp [hkeys]
      have hset : n.keys.set (RA.length + 1 - 1) key = (KA ++ (key, l') :: KB).map Prod.fst := by
        have hlen : RA.length = KA.length := by simpa using hKA.symm
        rw [hnk, hkeys, hlen]
        simp
      refine ⟨h.setNode u.page { n with keys := (KA ++ (key, l') :: KB).map Prod.fst },
        (UA ++ { u with keys := KA ++ (key, l') :: KB } :: UB) :: up, ?_, ?_⟩
      · simp only [maintainParentLoop, if_neg hne, hn, hrank, ok_bind, List.length_append,
          List.length_singleton, Nat.succ_pos, if_true, pure_eq_ok, hset]
      refine ⟨?_, ?_, ?_, rfl, fun order hs => hs.setKeys hlen', ?_, .setNode ..⟩
      · have hrep := hup.replace hnd hn (KA ++ (key, l') :: KB) u.rids
          (by rw [hstu.length, hlen']) (fun r hr => hstu.par _ (List.mem_map_of_mem hr))
        rw [← hnr, hkids]
        simpa [hnr, Inner.kids] using hrep
      · rw [seps_cut (KA ++ [(key, l')]) KB (by simp) hT hTA, hright]
        simp
      · simp [upPages]
      · refine (SameHdr.setNode ..).frame ?_ ?_ ?_
        · intro x hx
          rw [content_setNode, Function.update_of_ne]
          rintro rfl
          exact hx (by simp [upPages])
        · intro x _
          rw [link_setNode_keep hn]
        · intro x _
          rw [par_setNode_keep hn]

/-- `maintain_parent` on a page that is not the leftmost of its level. -/
theorem maintainParent_spec (l' : PageNo) (hup : Upper h (A ++ p :: B) up) (hps : (A ++ p :: B).Nodup)
    (hnd : (upPages up).Nodup) (hpos : ∀ x ∈ upPages up, x ≠ noPage)
    (hseps : seps up = SA ++ (s, l) :: SB) (hlen : SA.length + 1 = A.length)
    (hfuel : up.length ≤ h.fuel) (hkey : h.minKey p = .ok key) :
    ∃ h' up', h.maintainParent p = .ok h' ∧
      Relabelled h (A ++ p :: B) up h' up' (SA ++ (key, l') :: SB) := by
  obtain ⟨x, hx, hpar⟩ : ∃ x, x ≠ noPage ∧ h.par p = some x := by
    cases up with
    | nil => simp [seps] at hseps
    | cons U up =>
      obtain ⟨⟨hkids, hst, -⟩, -⟩ := hup
      have hp : p ∈ kidsOf U := hkids ▸ by simp
      obtain ⟨u, hu, hp⟩ := List.mem_flatMap.mp hp
      exact ⟨u.page, hpos _ (by simp [upPages, mem_pagesOf hu]), (hst u hu).par p hp⟩
  obtain ⟨n, hn, rfl⟩ := Option.map_eq_some_iff.mp hpar
  obtain ⟨h', up', hloop, hrel⟩ := maintainParentLoop_spec key l' hup hps hnd hpos hseps hlen
    hfuel hpar
  refine ⟨h', up', ?_, hrel⟩
  simp [maintainParent, fetchNode, hn, ixAssert, hx, hkey, hloop]

end Rmdb
