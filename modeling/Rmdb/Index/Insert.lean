-- SUMMARY: Splitting a node and inserting the new node into the upper levels.
import Rmdb.Index.Repair

/-!
# Insertion into the upper levels

`split` cuts an overfull node in two; the new right half goes behind it on its level,
and `insert_into_parent` puts it into the parent, which may overflow in turn. Seen from
below, one page and one separator are added (`insertIntoParent_spec`), whatever happens
further up.
-/

namespace Rmdb

open LinkedList Weave IxIndexHandle

section Split

variable {K : Type} {h h₁ : IxIndexHandle K} {A B : List PageNo} {p q : PageNo} {lf : Bool}

/-- The links of a level after a split: `q` comes behind `p`. -/
theorem linkAfter_spec (lf : Bool) (hlk : Linked h.link noPage (A ++ p :: B) noPage)
    (hpos : ∀ x ∈ B, x ≠ noPage) (hq : q ∉ A ++ p :: B)
    (hlink : h₁.link = Function.update h.link q (some (p, B.headD noPage))) :
    ∃ h₂ h₃, h₁.setPrevOfNext lf (B.headD noPage) q = .ok h₂ ∧ h₂.setNextLeaf p q = .ok h₃ ∧
      h₃.content = h₁.content ∧ h₃.par = h₁.par ∧ h₃.link = insertAfter h.link p q B noPage ∧
      EndMoved h₁ h₃ lf B q := by
  have hne : ∀ x ∈ A ++ p :: B, x ≠ q := by
    rintro x hx rfl
    exact hq hx
  have hB : ∀ b ∈ B.head?, b ≠ noPage ∧ (h₁.link b).isSome := by
    intro b hb
    obtain ⟨B, rfl⟩ := List.head?_eq_some_iff.mp hb
    have hbl := Linked.at (show Linked h.link noPage ((A ++ [p]) ++ b :: B) noPage by simpa using hlk)
    exact ⟨hpos b (by simp), by simp [hlink, hne b (by simp), hbl]⟩
  obtain ⟨h₂, hset₂, hc₂, hp₂, hl₂, he₂⟩ := setPrevOfNext_spec lf q hB
  have hlp : (h₂.link p).isSome := by
    have hp : (h₁.link p).isSome := by simp [hlink, hne p (by simp), hlk.at]
    rw [hl₂]
    exact relinkHead_isSome hp
  obtain ⟨h₃, hset₃, hc₃, hp₃, hl₃, hs₃⟩ := setNextLeaf_spec q hlp
  refine ⟨h₂, h₃, hset₂, hset₃, by rw [hc₃, hc₂], by rw [hp₃, hp₂], ?_, ?_⟩
  · rw [hl₃, hl₂, hlink]
    rfl
  · rw [EndMoved] at he₂ ⊢
    rw [SameHdr] at hs₃
    rw [hs₃, he₂]

/-- The header after a page has been allocated at the end of the file. -/
structure Grown (h h' : IxIndexHandle K) : Prop where
  fd2pageno : h'.fd2pageno = h.fd2pageno + 1
  numPages : h'.numPages = h.numPages + 1
  rootPage : h'.rootPage = h.rootPage
  btreeOrder : h'.btreeOrder = h.btreeOrder
  firstFreePageNo : h'.firstFreePageNo = h.firstFreePageNo
  firstLeaf : h'.firstLeaf = h.firstLeaf

theorem createNode_spec (hfree : h.firstFreePageNo = noPage) :
    h.createNode = .ok (h.fd2pageno,
      { h with numPages := h.numPages + 1, fd2pageno := h.fd2pageno + 1 }) := by
  simp [createNode, hfree]

/-- The two pages that `split` writes: the new node behind `p`, and what stays in `p`. -/
theorem splitPages {n : IxNode K} {next : PageNo} {KL KR : List K} {RL RR : List Rid}
    (hn : h.fetchNode p = .ok n) (hnext : n.nextLeaf = next)
    (hqp : p ≠ h.fd2pageno)
    (hh₁ : (setNode (setNode { h with numPages := h.numPages + 1, fd2pageno := h.fd2pageno + 1 }
      h.fd2pageno
      { nextFreePageNo := noPage, parent := n.parent, isLeaf := lf, prevLeaf := p, nextLeaf := next,
        keys := KR, rids := RR })
      p { n with isLeaf := lf, nextLeaf := next, keys := KL, rids := RL }) = h₁) :
    h₁.content = Function.update (Function.update h.content h.fd2pageno (some (lf, KR, RR)))
        p (some (lf, KL, RL)) ∧
      h₁.link = Function.update h.link h.fd2pageno (some (p, next)) ∧
      h₁.par = Function.update h.par h.fd2pageno (h.par p) ∧ Grown h h₁ ∧
      h₁.lastLeaf = h.lastLeaf := by
  obtain ⟨-, hl, hpar⟩ := fetchNode_content hn
  subst hh₁
  refine ⟨?_, ?_, ?_, ⟨rfl, rfl, rfl, rfl, rfl, rfl⟩, rfl⟩
  · rw [content_setNode, content_setNode]
    rfl
  · rw [link_setNode, link_setNode]
    refine (Function.update_eq_self_iff.mpr ?_).trans rfl
    rw [Function.update_of_ne hqp, ← hnext]
    exact hl.symm
  · rw [par_setNode, par_setNode, hpar]
    refine (Function.update_eq_self_iff.mpr ?_).trans rfl
    rw [Function.update_of_ne hqp]
    exact hpar.symm

theorem Grown.endMoved {h' : IxIndexHandle K} (hg : Grown h h₁) (he : EndMoved h₁ h' lf B q) :
    Grown h h' := by
  rw [EndMoved] at he
  obtain ⟨h1, h2, h3, h4, h5, h6⟩ := hg
  refine ⟨?_, ?_, ?_, ?_, ?_, ?_⟩ <;> rw [he] <;> assumption

/-- `split` of a leaf. -/
theorem splitNode_leaf {KL KR : List K} {k : K} {RL RR : List Rid}
    (hp : h.content p = some (true, KL ++ k :: KR, RL ++ RR))
    (hKL : KL.length = (h.btreeOrder + 1) / 2) (hRL : RL.length = KL.length)
    (hfree : h.firstFreePageNo = noPage) (hlk : Linked h.link noPage (A ++ p :: B) noPage)
    (hpos : ∀ x ∈ B, x ≠ noPage) (hq : h.fd2pageno ∉ A ++ p :: B) :
    ∃ h', h.splitNode p = .ok (h.fd2pageno, k, h') ∧
      h'.content = Function.update (Function.update h.content h.fd2pageno (some (true, k :: KR, RR)))
        p (some (true, KL, RL)) ∧
      h'.link = insertAfter h.link p h.fd2pageno B noPage ∧
      h'.par = Function.update h.par h.fd2pageno (h.par p) ∧ Grown h h' ∧
      h'.lastLeaf = (if B = [] then h.fd2pageno else h.lastLeaf) := by
  obtain ⟨n, hn, hleaf, hkeys, hrids, hl, -⟩ := fetchNode_of_content hp
  have hqp : p ≠ h.fd2pageno := by
    intro heq
    exact hq (by simp [← heq])
  have hnext : n.nextLeaf = B.headD noPage := by
    rw [hlk.at] at hl
    simp only [Option.some.injEq, Prod.mk.injEq] at hl
    exact hl.2.symm
  generalize hh₁ : (setNode (setNode { h with numPages := h.numPages + 1, fd2pageno := h.fd2pageno + 1 }
      h.fd2pageno
      { nextFreePageNo := noPage, parent := n.parent, isLeaf := true, prevLeaf := p,
        nextLeaf := B.headD noPage, keys := k :: KR, rids := RR })
      p { n with isLeaf := true, nextLeaf := B.headD noPage, keys := KL, rids := RL }) = h₁
  obtain ⟨hc₁, hl₁, hp₁, hg₁, hlast⟩ := splitPages hn hnext hqp hh₁
  obtain ⟨h₂, h₃, hset₂, hset₃, hc, hpar₃, hl₃, hs⟩ := linkAfter_spec true hlk hpos hq hl₁
  have htake : (KL ++ k :: KR).take ((h.btreeOrder + 1) / 2) = KL := by simp [← hKL]
  have hdrop : (KL ++ k :: KR).drop ((h.btreeOrder + 1) / 2) = k :: KR := by simp [← hKL]
  have htaker : (RL ++ RR).take ((h.btreeOrder + 1) / 2) = RL := by simp [← hKL, ← hRL]
  have hdropr : (RL ++ RR).drop ((h.btreeOrder + 1) / 2) = RR := by simp [← hKL, ← hRL]
  have hget : arrayGet (KL ++ k :: KR) ((h.btreeOrder + 1) / 2) = .ok k := by
    simp [arrayGet, ← hKL]
  refine ⟨h₃, ?_, by rw [hc, hc₁], hl₃, by rw [hpar₃, hp₁], ?_, ?_⟩
  · simp only [splitNode, hn, ok_bind, hleaf, hkeys, if_true, createNode_spec hfree,
      IxNode.getMinKeySize, hget, htake, hdrop, hrids, htaker, hdropr, hnext, hh₁, hset₂, hset₃, pure_eq_ok]
  · exact hg₁.endMoved hs
  · rw [EndMoved] at hs
    rw [hs, hlast]
    simp

/-- `split` of an internal node. -/
theorem splitNode_inner {KL KR : List K} {k : K} {RL RR : List Rid}
    (hp : h.content p = some (false, KL ++ k :: KR, RL ++ RR))
    (hKL : KL.length = (h.btreeOrder + 1) / 2 - 1) (hRL : RL.length = KL.length + 1)
    (hRR : RR.length = KR.length + 1)
    (hkids : ∀ r ∈ RR, (h.par r.pageNo).isSome)
    (hfree : h.firstFreePageNo = noPage) (hlk : Linked h.link noPage (A ++ p :: B) noPage)
    (hpos : ∀ x ∈ B, x ≠ noPage) (hq : h.fd2pageno ∉ A ++ p :: B) :
    ∃ h', h.splitNode p = .ok (h.fd2pageno, k, h') ∧
      h'.content = Function.update (Function.update h.content h.fd2pageno (some (false, KR, RR)))
        p (some (false, KL, RL)) ∧
      h'.link = insertAfter h.link p h.fd2pageno B noPage ∧
      h'.par = adopt (Function.update h.par h.fd2pageno (h.par p)) h.fd2pageno (RR.map Rid.pageNo) ∧
      Grown h h' ∧ h'.lastLeaf = h.lastLeaf := by
  obtain ⟨n, hn, hleaf, hkeys, hrids, hl, hpar⟩ := fetchNode_of_content hp
  have hqp : p ≠ h.fd2pageno := by
    intro heq
    exact hq (by simp [← heq])
  have hnext : n.nextLeaf = B.headD noPage := by
    rw [hlk.at] at hl
    simp only [Option.some.injEq, Prod.mk.injEq] at hl
    exact hl.2.symm
  generalize hh₁ : (setNode (setNode { h with numPages := h.numPages + 1, fd2pageno := h.fd2pageno + 1 }
      h.fd2pageno
      { nextFreePageNo := noPage, parent := n.parent, isLeaf := false, prevLeaf := p,
        nextLeaf := B.headD noPage, keys := KR, rids := RR })
      p { n with isLeaf := false, nextLeaf := B.headD noPage, keys := KL, rids := RL }) = h₁
  obtain ⟨hc₁, hl₁, hp₁, hg₁, hlast⟩ := splitPages hn hnext hqp hh₁
  obtain ⟨h₂, h₃, hset₂, hset₃, hc₃, hp₃, hl₃, hs⟩ := linkAfter_spec false hlk hpos hq hl₁
  -- The children of the right half get their new parent.
  have hkids₃ : ∀ r ∈ RR, (h₃.par r.pageNo).isSome := by
    intro r hr
    rw [hp₃, hp₁, Function.update_apply]
    split
    · simp [hpar]
    · exact hkids r hr
  have hq₃ : h₃.content h.fd2pageno = some (false, KR, [] ++ RR ++ []) := by
    rw [hc₃, hc₁, Function.update_of_ne (Ne.symm hqp)]
    simp
  obtain ⟨h₄, hmc, hc₄, hl₄, hp₄, hs₄⟩ := maintainChildren_spec hq₃ hkids₃
  have htake : (KL ++ k :: KR).take ((h.btreeOrder + 1) / 2 - 1) = KL := by simp [← hKL]
  have hdrop : (KL ++ k :: KR).drop ((h.btreeOrder + 1) / 2 - 1 + 1) = KR := by
    simp [← hKL, List.drop_append]
  have htaker : (RL ++ RR).take ((h.btreeOrder + 1) / 2 - 1 + 1) = RL := by simp [← hKL, ← hRL]
  have hdropr : (RL ++ RR).drop ((h.btreeOrder + 1) / 2 - 1 + 1) = RR := by simp [← hKL, ← hRL]
  have hget : arrayGet (KL ++ k :: KR) ((h.btreeOrder + 1) / 2 - 1) = .ok k := by
    simp [arrayGet, ← hKL]
  have hcount : (KL ++ k :: KR).length - ((h.btreeOrder + 1) / 2 - 1) = RR.length := by
    rw [← hKL, hRR]
    simp only [List.length_append, List.length_cons]
    omega
  have hs' : EndMoved h₁ h₄ false B h.fd2pageno := by
    rw [EndMoved] at hs ⊢
    rw [SameHdr] at hs₄
    rw [hs₄, hs]
  refine ⟨h₄, ?_, by rw [hc₄, hc₃, hc₁], by rw [hl₄, hl₃], by rw [hp₄, hp₃, hp₁],
    hg₁.endMoved hs', ?_⟩
  · rw [List.length_nil] at hmc
    simp only [splitNode, hn, ok_bind, IxNode.getSize, hleaf, hkeys, Bool.false_eq_true, if_false,
      createNode_spec hfree, IxNode.getMinKeySize, hget, htake, hdrop, hrids, htaker, hdropr, hnext, hh₁, hset₂,
      hset₃, hcount, hmc, pure_eq_ok]
  · rw [EndMoved] at hs'
    rw [hs', hlast]
    simp

end Split

-- ---------------------------------------------------------------------------
-- One page more
-- ---------------------------------------------------------------------------

variable {K : Type} [IxKey K] {order : Nat} {h h' : IxIndexHandle K} {ps ps' A B : List PageNo}
  {p q l : PageNo} {UA UB : List (Inner K)} {u : Inner K} {up up' : List (List (Inner K))}
  {SA SB : List (K × PageNo)} {key : K} {fuel : Nat}

/-- The pages `ps'` lie under the upper levels `up'`, which came from `up` with new pages
from the end of the file. -/
structure Grows (h : IxIndexHandle K) (up : List (List (Inner K))) (h' : IxIndexHandle K)
    (ps' : List PageNo) (up' : List (List (Inner K))) : Prop where
  placed : Placed h' ps' up'
  pages : ∀ x ∈ upPages up', x ∈ upPages up ∨ h.fd2pageno ≤ x
  fd2pageno : h.fd2pageno ≤ h'.fd2pageno
  height : up'.length + h.numPages ≤ up.length + h'.numPages
  frame : Frame {x | x ∈ upPages up ∨ h.fd2pageno ≤ x}
    {x | x ∈ ps' ++ upPages up ∨ h.fd2pageno ≤ x} h h'

/-- `insert_into_parent` adds the page `q` behind `p`, and the separator `key` between them. -/
def InsertsAt (order : Nat) (up : List (List (Inner K))) : Prop :=
  ∀ (h : IxIndexHandle K) (A B : List PageNo) (p q : PageNo) (SA SB : List (K × PageNo)) (key : K)
    (l : PageNo) (fuel : Nat), Placed h (A ++ p :: B) up → h.btreeOrder = order → Sized order up →
    seps up = SA ++ SB → SA.length = A.length →
    ((SA ++ (key, l) :: SB).map Prod.fst).Pairwise (· < ·) →
    q ∉ (A ++ p :: B) ++ upPages up → 0 ≤ q → q < h.fd2pageno → h.par q = h.par p →
    up.length ≤ fuel →
    ∃ h' up', insertIntoParentWith (split fuel) h p key q = .ok h' ∧
      Grows h up h' (A ++ p :: q :: B) up' ∧ seps up' = SA ++ (key, l) :: SB ∧
      Sized order up' ∧ up' ≠ []

/-- The root itself was split: a new root. -/
theorem insertsAt_root : InsertsAt (K := K) order [] := by
  intro h A B p q SA SB key l fuel hpl _ _ hseps hlen _ hq hq0 hqfd hqpar _
  obtain ⟨r, hr, hpar, -⟩ := hpl.upper
  obtain ⟨rfl, rfl, rfl⟩ : A = [] ∧ p = r ∧ B = [] := by simpa [List.append_eq_singleton_iff] using hr
  obtain ⟨rfl, rfl⟩ : SA = [] ∧ SB = [] := List.append_eq_nil_iff.mp hseps.symm
  have hp := hpl.bound p (by simp)
  have hqp : q ≠ p := by
    rintro rfl
    exact hq (by simp)
  have hpne : p ≠ h.fd2pageno := hp.2.ne
  have hqne : q ≠ h.fd2pageno := hqfd.ne
  obtain ⟨n, hn, hnpar⟩ := Option.map_eq_some_iff.mp hpar
  let root : IxNode K :=
    { nextFreePageNo := noPage, parent := noPage, isLeaf := false, prevLeaf := noPage,
      nextLeaf := noPage, keys := [key], rids := [⟨p, 0⟩, ⟨q, 0⟩] }
  let h₁ := setNode { h with numPages := h.numPages + 1, fd2pageno := h.fd2pageno + 1 } h.fd2pageno root
  have hpar₁ : h₁.par = Function.update h.par h.fd2pageno (some noPage) := par_setNode
  obtain ⟨h₂, hset₂, hc₂, hl₂, hp₂, hs₂⟩ := setParentPageNo_spec (h := h₁) (p := p) h.fd2pageno
    (by simp [hpar₁, hpne, hpar])
  obtain ⟨h₃, hset₃, hc₃, hl₃, hp₃, hs₃⟩ := setParentPageNo_spec (h := h₂) (p := q) h.fd2pageno
    (by simp [hp₂, hpar₁, hqne, hqp, hqpar, hpar])
  have hs : SameHdr h₁ h₃ := hs₂.trans hs₃
  have hcontent : h₃.content = Function.update h.content h.fd2pageno
      (some (false, [key], [⟨p, 0⟩, ⟨q, 0⟩])) := by
    rw [hc₃, hc₂]
    exact content_setNode
  have hlink : h₃.link = Function.update h.link h.fd2pageno (some (noPage, noPage)) := by
    rw [hl₃, hl₂]
    exact link_setNode
  rw [SameHdr] at hs
  refine ⟨{ h₃ with rootPage := h.fd2pageno }, [[⟨h.fd2pageno, [(key, l)], [⟨p, 0⟩, ⟨q, 0⟩]⟩]],
    ?_, ⟨⟨?_, ?_, ?_, ?_⟩, ?_, ?_, ?_, ?_⟩, ?_, ?_, by simp⟩
  · simp only [insertIntoParentWith, fetchNode, hn, ok_bind, IxNode.isRootPage, hnpar,
      beq_self_eq_true, if_true, createNode_spec hpl.free]
    simp only [h₁, root] at hset₂
    simp only [hset₂, hset₃, ok_bind, pure_eq_ok]
  · refine ⟨⟨by simp [kidsOf, Inner.kids], ?_, ?_⟩, h.fd2pageno, rfl, ?_, rfl⟩
    · intro u hu
      obtain rfl := List.mem_singleton.mp hu
      refine ⟨?_, rfl, ?_⟩
      · show h₃.content _ = _
        simp [hcontent]
      · intro c hc
        show h₃.par c = _
        rcases (show c = p ∨ c = q by simpa [Inner.kids] using hc) with rfl | rfl
        · simp [hp₃, hp₂, hqp.symm]
        · simp [hp₃]
    · show Linked h₃.link _ _ _
      simp [pagesOf, hlink]
    · show h₃.par _ = _
      simp [hp₃, hp₂, hpar₁, hpne.symm, hqne.symm]
  · simp only [upPages, pagesOf, List.nil_append, List.map_cons, List.map_nil, List.append_nil]
    simp [hqp.symm, hpne, hqne]
  · intro x hx
    have hfd : ({ h₃ with rootPage := h.fd2pageno } : IxIndexHandle K).fd2pageno = h.fd2pageno + 1 := by
      rw [hs]
      rfl
    rw [hfd]
    rcases (show x = p ∨ x = q ∨ x = h.fd2pageno by simpa [upPages, pagesOf] using hx) with rfl | rfl | rfl
    · exact ⟨hp.1, hp.2.trans (Int.lt_succ _)⟩
    · exact ⟨hq0, hqfd.trans (Int.lt_succ _)⟩
    · exact ⟨(hp.1.trans_lt hp.2).le, Int.lt_succ _⟩
  · rw [hs]
    exact hpl.free
  · intro x hx
    right
    simp only [upPages, pagesOf, List.map_cons, List.map_nil, List.append_nil,
      List.mem_singleton] at hx
    exact hx.ge
  · rw [hs]
    exact (Int.lt_succ h.fd2pageno).le
  · rw [hs]
    show (1 : Nat) + h.numPages ≤ 0 + (h.numPages + 1)
    omega
  · refine ⟨?_, ?_, ?_, ?_, ?_, ?_, ?_⟩
    · intro x hx
      have hxne : x ≠ h.fd2pageno := fun heq => hx (Or.inr heq.ge)
      show h₃.content x = _
      simp [hcontent, hxne]
    · intro x hx
      have hxne : x ≠ h.fd2pageno := fun heq => hx (Or.inr heq.ge)
      show h₃.link x = _
      simp [hlink, hxne]
    · intro x hx
      have hxne : x ≠ h.fd2pageno := fun heq => hx (Or.inr heq.ge)
      have hxp : x ≠ p := fun heq => hx (Or.inl (by simp [heq]))
      have hxq : x ≠ q := fun heq => hx (Or.inl (by simp [heq]))
      show h₃.par x = _
      simp [hp₃, hp₂, hpar₁, hxne, hxp, hxq]
    all_goals
      rw [hs]
      rfl
  · simp [seps, keysOf]
  · refine ⟨?_, trivial⟩
    intro u hu
    obtain rfl := List.mem_singleton.mp hu
    simp only [List.length_singleton, if_true]
    omega

/-- The level after `split` has cut its node `u` into `ul` and `ur`, with the key `x`
between them on the way up. -/
structure Halved (h : IxIndexHandle K) (ps : List PageNo) (UA : List (Inner K)) (u : Inner K)
    (UB : List (Inner K)) (up : List (List (Inner K))) (ul : Inner K) (x : K × PageNo)
    (ur : Inner K) (h' : IxIndexHandle K) : Prop where
  level : Level h' ps (UA ++ ul :: ur :: UB)
  placed : Placed h' (pagesOf (UA ++ u :: UB)) up
  left_page : ul.page = u.page
  right_page : ur.page = h.fd2pageno
  right_par : h'.par ur.page = h'.par u.page
  keys : u.keys = ul.keys ++ x :: ur.keys
  left_size : ul.keys.length = (h.btreeOrder + 1) / 2 - 1
  frame : Frame {x | x ∈ pagesOf (UA ++ u :: UB) ∨ h.fd2pageno ≤ x} {x | x ∈ ps ∨ h.fd2pageno ≤ x} h h'
  grown : Grown h h'

omit [IxKey K] in
theorem splitNode_level (hpl : Placed h ps ((UA ++ u :: UB) :: up)) (hsize : h.btreeOrder - 1 < u.keys.length) :
    ∃ ul x ur h', h.splitNode u.page = .ok (h.fd2pageno, x.1, h') ∧
      Halved h ps UA u UB up ul x ur h' := by
  obtain ⟨⟨hkids, hst, hlk⟩, hup⟩ := hpl.upper
  have hstu := hst u (by simp)
  -- The two halves of the node.
  obtain ⟨KL, x, KR, hkeys, hKL⟩ :
      ∃ KL x KR, u.keys = KL ++ x :: KR ∧ KL.length = (h.btreeOrder + 1) / 2 - 1 := by
    have hm : (h.btreeOrder + 1) / 2 - 1 < u.keys.length := by omega
    exact ⟨u.keys.take ((h.btreeOrder + 1) / 2 - 1), u.keys[(h.btreeOrder + 1) / 2 - 1],
      u.keys.drop ((h.btreeOrder + 1) / 2 - 1 + 1), by simp, by rw [List.length_take]; omega⟩
  obtain ⟨RL, RR, hrids, hRL⟩ : ∃ RL RR, u.rids = RL ++ RR ∧ RL.length = KL.length + 1 := by
    refine ⟨u.rids.take (KL.length + 1), u.rids.drop (KL.length + 1), by simp, ?_⟩
    rw [List.length_take, hstu.length, hkeys]
    simp
  have hRR : RR.length = KR.length + 1 := by
    have := hstu.length
    rw [hrids, hkeys] at this
    simp only [List.length_append, List.length_cons] at this
    omega
  -- The new page is none of the pages in use, and no node is its own descendant.
  have hq : ∀ y ∈ ps ++ upPages ((UA ++ u :: UB) :: up), y ≠ h.fd2pageno := fun y hy =>
    (hpl.bound y hy).2.ne
  have hkids_ps : ∀ r ∈ u.rids, r.pageNo ∈ ps := fun r hr =>
    hkids ▸ mem_kidsOf (u := u) (by simp) (List.mem_map_of_mem hr)
  have hRR_ps : ∀ y ∈ RR.map Rid.pageNo, y ∈ ps := by
    intro y hy
    obtain ⟨r, hr, rfl⟩ := List.mem_map.mp hy
    exact hkids_ps r (by simp [hrids, hr])
  have hpos : ∀ y ∈ pagesOf UB, y ≠ noPage := fun y hy => hpl.ne_noPage (by simp [upPages, hy])
  obtain ⟨h₂, hsplit, hc₂, hl₂, hp₂, hg, hlast⟩ := splitNode_inner (h := h) (p := u.page)
    (A := pagesOf UA) (B := pagesOf UB)
    (show _ = some (false, KL.map Prod.fst ++ x.1 :: KR.map Prod.fst, RL ++ RR) by
      rw [hstu.content, hkeys, hrids]; simp)
    (by simpa using hKL) (by simpa using hRL)
    (by simpa using hRR)
    (fun r hr => by rw [hstu.par r.pageNo (List.mem_map_of_mem (by simp [hrids, hr]))]; rfl) hpl.free
    (by simpa using hlk) hpos (fun hx => hq _ (by simp [upPages] at hx ⊢; tauto) rfl)
  have hframe : Frame {x | x ∈ pagesOf (UA ++ u :: UB) ∨ h.fd2pageno ≤ x}
      {x | x ∈ RR.map Rid.pageNo ∨ h.fd2pageno ≤ x} h h₂ := by
    refine ⟨fun y hy => ?_, fun y hy => ?_, fun y hy => ?_, hg.btreeOrder, hg.firstFreePageNo,
      hg.firstLeaf, hlast⟩
    · have hyq : y ≠ h.fd2pageno := fun heq => hy (Or.inr heq.ge)
      have hyu : y ≠ u.page := fun heq => hy (Or.inl (by simp [heq]))
      rw [hc₂, Function.update_of_ne hyu, Function.update_of_ne hyq]
    · have hyq : y ≠ h.fd2pageno := fun heq => hy (Or.inr heq.ge)
      have hyu : y ≠ u.page := fun heq => hy (Or.inl (by simp [heq]))
      rw [hl₂, insertAfter_of_ne hyu hyq fun hyB => hy (Or.inl (by simp [hyB]))]
    · have hyq : y ≠ h.fd2pageno := fun heq => hy (Or.inr heq.ge)
      have hyR : y ∉ RR.map Rid.pageNo := fun hyR => hy (Or.inl hyR)
      rw [hp₂, adopt, if_neg hyR, Function.update_of_ne hyq]
  have hup_par : ∀ y ∈ pagesOf (UA ++ u :: UB) ++ upPages up, h₂.par y = h.par y := by
    intro y hy
    refine hframe.par y ?_
    rintro (hy' | hy')
    · exact hpl.not_mem_up (hRR_ps y hy') hy
    · exact absurd (hpl.above.bound y hy).2 (not_lt.mpr hy')
  refine ⟨⟨u.page, KL, RL⟩, x, ⟨h.fd2pageno, KR, RR⟩, h₂, hsplit, ⟨?_, ?_, rfl, rfl, ?_, hkeys, hKL,
    hframe.mono subset_rfl ?_, hg⟩⟩
  · have hps' : ps = kidsOf UA ++ RL.map Rid.pageNo ++ (RR.map Rid.pageNo ++ kidsOf UB) := by
      simp [hkids, Inner.kids, hrids]
    have hps := hpl.ps_nodup
    rw [hps'] at hps
    have hRR_out : ∀ y ∈ kidsOf UA ++ RL.map Rid.pageNo ++ kidsOf UB, y ∉ RR.map Rid.pageNo := by
      intro y hy hy'
      obtain ⟨-, hright, hA⟩ := List.nodup_append.mp hps
      obtain ⟨-, -, hB⟩ := List.nodup_append.mp hright
      rcases List.mem_append.mp hy with hy | hy
      · exact hA y hy y (List.mem_append_left _ hy') rfl
      · exact hB y hy' y hy rfl
    have hpar : ∀ y ∈ kidsOf UA ++ RL.map Rid.pageNo ++ kidsOf UB, h₂.par y = h.par y := by
      intro y hy
      have hyps : y ∈ ps := by
        rw [hps']
        simp only [List.mem_append] at hy ⊢
        tauto
      rw [hp₂, adopt, if_neg (hRR_out y hy), Function.update_of_ne (hq y (by simp [hyps]))]
    have hUnd := hpl.above.ps_nodup
    rw [pagesOf_append, pagesOf_cons, List.nodup_middle, List.nodup_cons] at hUnd
    have hstored : ∀ v ∈ UA ++ UB, v.Stored h₂ := by
      intro v hv
      have hstv := hst v (by simp at hv ⊢; tauto)
      have hvpage : v.page ∈ pagesOf UA ++ pagesOf UB := by
        rw [← pagesOf_append]
        exact mem_pagesOf hv
      have hvu : v.page ≠ u.page := fun heq => hUnd.1 (heq ▸ hvpage)
      have hvq : v.page ≠ h.fd2pageno := hq _ (by simp [upPages] at hvpage ⊢; tauto)
      refine ⟨?_, hstv.length, fun c hc => ?_⟩
      · rw [hc₂, Function.update_of_ne hvu, Function.update_of_ne hvq, hstv.content]
      · have hcv : c ∈ kidsOf (UA ++ UB) := mem_kidsOf hv hc
        rw [hpar c (by simp at hcv ⊢; tauto), hstv.par c hc]
    refine ⟨by simp [hps', Inner.kids], ?_, ?_⟩
    · intro v hv
      rcases (show v ∈ UA ++ UB ∨ v = ⟨u.page, KL, RL⟩ ∨ v = ⟨h.fd2pageno, KR, RR⟩ by
        simp at hv ⊢; tauto) with hv | rfl | rfl
      · exact hstored v hv
      · refine ⟨by rw [hc₂, Function.update_self], hRL, fun c hc => ?_⟩
        have hc : c ∈ RL.map Rid.pageNo := hc
        rw [hpar c (by simp only [List.mem_append]; tauto)]
        exact hstu.par c (by rw [Inner.kids, hrids, List.map_append]; exact List.mem_append_left _ hc)
      · have hune : h.fd2pageno ≠ u.page := (hq u.page (by simp [upPages])).symm
        refine ⟨by rw [hc₂, Function.update_of_ne hune, Function.update_self], hRR, fun c hc => ?_⟩
        rw [hp₂, adopt, if_pos (show c ∈ RR.map Rid.pageNo from hc)]
    · have := linked_insertAfter (q := h.fd2pageno) (by simpa using hlk)
        (by simpa using hpl.above.ps_nodup)
        (fun hx => hq h.fd2pageno (by simp [upPages] at hx ⊢; tauto) rfl)
      rw [hl₂]
      simpa using this
  · refine ⟨?_, hpl.above.nodup, fun y hy => ?_, by rw [hg.firstFreePageNo, hpl.free]⟩
    · have hout : ∀ y ∈ upPages up, y ∉ {x | x ∈ pagesOf (UA ++ u :: UB) ∨ h.fd2pageno ≤ x} := by
        rintro y hy (hy' | hy')
        · exact hpl.above.not_mem_up hy' hy
        · exact absurd (hpl.above.bound y (by simp [hy])).2 (not_lt.mpr hy')
      exact hup.congr (fun y hy => hframe.content y (hout y hy))
        (fun y hy => hframe.link y (hout y hy)) hup_par hg.rootPage
    · obtain ⟨hy0, hyfd⟩ := hpl.above.bound y hy
      exact ⟨hy0, by rw [hg.fd2pageno]; exact hyfd.trans (Int.lt_succ _)⟩
  · rw [hup_par u.page (by simp), hp₂, adopt, if_neg, Function.update_self]
    exact fun hy => hq _ (List.mem_append_left _ (hRR_ps _ hy)) rfl
  · rintro y (hy | hy)
    · exact Or.inl (hRR_ps y hy)
    · exact Or.inr hy

/-- An overfull node is split, and its right half goes into the level above. Below, nothing
but parent pointers changes. -/
theorem split_inner (hins : InsertsAt order up)
    (hpl : Placed h ps ((UA ++ u :: UB) :: up)) (horder : h.btreeOrder = order)
    (hsz : Sized order up) (hsize : order - 1 < u.keys.length) (hle : u.keys.length ≤ max (order - 1) 1 + 1)
    (hother : ∀ v ∈ UA ++ UB, v.keys.length ≤ max (order - 1) 1 ∧ (order + 1) / 2 - 1 ≤ v.keys.length)
    (hsort : ((seps ((UA ++ u :: UB) :: up)).map Prod.fst).Pairwise (· < ·))
    (hfuel : up.length ≤ fuel) :
    ∃ q h' up', split (fuel + 1) h u.page = .ok (q, h') ∧
      Grows h ((UA ++ u :: UB) :: up) h' ps up' ∧ seps up' = seps ((UA ++ u :: UB) :: up) ∧
      Sized order up' ∧ up' ≠ [] := by
  obtain ⟨ul, x, ur, h₂, hsplit, hhalf⟩ := splitNode_level hpl (horder ▸ hsize)
  obtain ⟨TA, TB, hT, hTA⟩ : ∃ TA TB, seps up = TA ++ TB ∧ TA.length = UA.length := by
    have := hpl.above.upper.seps_length
    simp only [pagesOf_length, List.length_append, List.length_cons] at this
    exact ⟨(seps up).take UA.length, (seps up).drop UA.length, by simp, by rw [List.length_take]; omega⟩
  have hTB : TB.length = UB.length := by
    have := hpl.above.upper.seps_length
    rw [hT] at this
    simp only [pagesOf_length, List.length_append, List.length_cons] at this
    omega
  have hseps : seps ((UA ++ u :: UB) :: up) =
      (front (keysOf UA) TA ++ ul.keys) ++ (x :: ur.keys ++ tail TB (keysOf UB)) :=
    seps_cut _ _ hhalf.keys hT hTA
  -- The separators of the level above are among those of this one, with `x` between them.
  have hsort' : ((TA ++ x :: TB).map Prod.fst).Pairwise (· < ·) := by
    refine hsort.sublist (List.Sublist.map Prod.fst ?_)
    rw [hseps]
    refine List.Sublist.append ?_ (List.Sublist.cons_cons x ?_)
    · exact (front_sublist _ _ (by simpa using hTA)).trans (List.sublist_append_left _ _)
    · exact (tail_sublist _ _ (by simpa using hTB)).trans (List.sublist_append_right _ _)
  have hbound := hhalf.placed.bound
  obtain ⟨h', up', hrec, hgrow, hseps', hsz', hne⟩ := hins h₂ (pagesOf UA) (pagesOf UB) u.page
    h.fd2pageno TA TB x.1 x.2 fuel (by simpa using hhalf.placed)
    (by rw [hhalf.grown.btreeOrder, horder]) hsz hT (by simpa using hTA) hsort'
    (fun hx => lt_irrefl _ (hpl.above.bound h.fd2pageno (by simpa using hx)).2)
    ((hpl.above.bound u.page (by simp)).1.trans (hpl.above.bound u.page (by simp)).2.le)
    (by rw [hhalf.grown.fd2pageno]; exact Int.lt_succ _) (by rw [← hhalf.right_page, hhalf.right_par])
    hfuel
  have hpages : pagesOf (UA ++ ul :: ur :: UB) = pagesOf UA ++ u.page :: h.fd2pageno :: pagesOf UB := by
    simp [hhalf.left_page, hhalf.right_page]
  have hmem : ∀ y, y ∈ pagesOf (UA ++ ul :: ur :: UB) ↔
      y ∈ pagesOf (UA ++ u :: UB) ∨ y = h.fd2pageno := by
    intro y
    simp [hpages]
    tauto
  have hfd : h.fd2pageno < h₂.fd2pageno := by
    rw [hhalf.grown.fd2pageno]
    exact Int.lt_succ _
  have hout : ∀ y ∈ pagesOf (UA ++ ul :: ur :: UB),
      y ∉ {x | x ∈ upPages up ∨ h₂.fd2pageno ≤ x} := by
    rintro y hy (hy' | hy') <;> rcases (hmem y).mp hy with hy | rfl
    · exact hpl.above.not_mem_up hy hy'
    · exact lt_irrefl _ (hpl.above.bound _ (by simp [hy'])).2
    · exact absurd ((hpl.above.bound y (by simp only [List.mem_append]; tauto)).2.trans hfd) (not_lt.mpr hy')
    · exact absurd hfd (not_lt.mpr hy')
  have hout' : ∀ y ∈ ps, y ∉ {x | x ∈ pagesOf (UA ++ ul :: ur :: UB) ++ upPages up ∨ h₂.fd2pageno ≤ x} := by
    rintro y hy (hy' | hy')
    · rcases List.mem_append.mp hy' with hy' | hy'
      · rcases (hmem y).mp hy' with hy' | rfl
        · exact hpl.not_mem_up hy (by simp only [upPages, List.mem_append]; tauto)
        · exact lt_irrefl _ (hpl.bound _ (by simp [hy])).2
      · exact hpl.not_mem_up hy (by simp only [upPages, List.mem_append]; tauto)
    · exact absurd ((hpl.bound y (by simp [hy])).2.trans hfd) (not_lt.mpr hy')
  rw [← hpages] at hgrow
  refine ⟨h.fd2pageno, h', (UA ++ ul :: ur :: UB) :: up', ?_, ⟨⟨⟨?_, hgrow.placed.upper⟩, ?_, ?_, hgrow.placed.free⟩,
    ?_, hfd.le.trans hgrow.fd2pageno, ?_, ?_⟩, ?_, ⟨?_, hsz'⟩, by simp⟩
  · simp only [IxIndexHandle.split, hsplit, ok_bind, hrec, pure_eq_ok]
  · exact hhalf.level.congr (fun y hy => hgrow.frame.content y (hout y hy))
      (fun y hy => hgrow.frame.link y (hout y hy)) (fun y hy => hgrow.frame.par y (hout' y hy))
  · rw [upPages, List.nodup_append]
    refine ⟨hpl.ps_nodup, hgrow.placed.nodup, ?_⟩
    rintro y hy z hz rfl
    refine hout' y hy ?_
    rcases List.mem_append.mp hz with hz | hz
    · exact Or.inl (List.mem_append_left _ hz)
    · exact (hgrow.pages y hz).imp (fun hz => by simp [hz]) id
  · intro y hy
    rcases List.mem_append.mp hy with hy | hy
    · obtain ⟨h0, h1⟩ := hpl.bound y (by simp [hy])
      exact ⟨h0, h1.trans (hfd.trans_le hgrow.fd2pageno)⟩
    · exact hgrow.placed.bound y hy
  · intro y hy
    rcases List.mem_append.mp hy with hy | hy
    · exact ((hmem y).mp hy).imp (List.mem_append_left _) (fun hy => hy.ge)
    · exact (hgrow.pages y hy).imp (fun hy => by simp [upPages, hy]) (fun hy => hfd.le.trans hy)
  · have hheight := hgrow.height
    rw [hhalf.grown.numPages] at hheight
    simp only [List.length_cons, Nat.cast_add, Nat.cast_one]
    omega
  · refine (hhalf.frame.mono ?_ ?_).trans (hgrow.frame.mono ?_ ?_)
    · rintro y (hy | hy)
      · exact Or.inl (List.mem_append_left _ hy)
      · exact Or.inr hy
    · rintro y (hy | hy)
      · exact Or.inl (by simp [hy])
      · exact Or.inr hy
    · rintro y (hy | hy)
      · exact Or.inl (by simp [upPages, hy])
      · exact Or.inr (hfd.le.trans hy)
    · rintro y (hy | hy)
      · rcases List.mem_append.mp hy with hy | hy
        · exact ((hmem y).mp hy).imp
            (fun hy => List.mem_append_right _ (List.mem_append_left _ hy)) (fun hy => hy.ge)
        · exact Or.inl (by simp [upPages, hy])
      · exact Or.inr (hfd.le.trans hy)
  · rw [hseps, seps, hseps', keysOf_append, keysOf_cons, keysOf_cons,
      weave_cut (by simpa using hTA)]
    simp
  · have hkeys := congrArg List.length hhalf.keys
    simp only [List.length_append, List.length_cons] at hkeys
    have hleft := hhalf.left_size
    rw [horder] at hleft
    intro v hv
    rw [if_neg hne]
    rcases (show v ∈ UA ++ UB ∨ v = ul ∨ v = ur by simp at hv ⊢; tauto) with hv | rfl | rfl
    · exact hother v hv
    · omega
    · omega

/-- The parent has a new key and a new child, whether or not it is overfull now. -/
theorem insertIntoParent_node {U : List (Inner K)} (hpl : Placed h (A ++ p :: B) (U :: up))
    (hseps : seps (U :: up) = SA ++ SB) (hlen : SA.length = A.length)
    (hsort : ((SA ++ (key, l) :: SB).map Prod.fst).Pairwise (· < ·))
    (hq : q ∉ (A ++ p :: B) ++ upPages (U :: up)) (hq0 : 0 ≤ q) (hqfd : q < h.fd2pageno)
    (hqpar : h.par q = h.par p) :
    ∃ UA u UB keys rids h₁, U = UA ++ u :: UB ∧ keys.length = u.keys.length + 1 ∧
      Placed h₁ (A ++ p :: q :: B) ((UA ++ ⟨u.page, keys, rids⟩ :: UB) :: up) ∧
      seps ((UA ++ ⟨u.page, keys, rids⟩ :: UB) :: up) = SA ++ (key, l) :: SB ∧
      Frame {x | x ∈ upPages (U :: up)} ∅ h h₁ ∧ SamePages h h₁ ∧
      ∀ s, insertIntoParentWith s h p key q =
        if keys.length > h.btreeOrder - 1 then do
          let (_, h) ← s h₁ u.page
          return h
        else .ok h₁ := by
  obtain ⟨UA, u, UB, RA, r, RB, KA, KB, TA, TB, rfl, hrids, rfl, rfl, rfl, hkeys, hKA, hKB, hT,
    hTA, -⟩ := hpl.upper.parent
  obtain ⟨⟨hkids, hst, -⟩, -⟩ := hpl.upper
  have hstu := hst u (by simp)
  have hlens : ∀ v ∈ UA, v.rids.length = v.keys.length + 1 := fun v hv => (hst v (by simp [hv])).length
  obtain ⟨rfl, rfl⟩ : SA = front (keysOf UA) TA ++ KA ∧ SB = KB ++ tail TB (keysOf UB) := by
    refine List.append_inj ?_ ?_
    · rw [← hseps, seps_cut _ _ hkeys hT hTA]
    · rw [left_length hlens hKA hTA, hlen]
  -- The place of the new key in the parent.
  rw [List.map_append, List.map_cons, List.pairwise_append, List.pairwise_cons] at hsort
  obtain ⟨-, ⟨hright, -⟩, hleft⟩ := hsort
  obtain ⟨n, hn, hnleaf, hnk, hnr, -⟩ := fetchNode_of_content hstu.content
  have hub : n.upperBound key 0 = KA.length := by
    have hsplit : n.keys = KA.map Prod.fst ++ KB.map Prod.fst := by rw [hnk, hkeys, List.map_append]
    rw [IxNode.upperBound_append hsplit, List.length_map]
    · intro a ha
      refine (hleft a ?_ key List.mem_cons_self).le
      rw [List.map_append]
      exact List.mem_append_right _ ha
    · intro b hb
      refine hright b ?_
      rw [List.map_append]
      exact List.mem_append_left _ hb
  have hpar : h.par r.pageNo = some u.page := hstu.par _ (by simp [Inner.kids, hrids])
  obtain ⟨old, hold, holdpar⟩ := Option.map_eq_some_iff.mp hpar
  have hune : u.page ≠ noPage := hpl.ne_noPage (by simp [upPages])
  refine ⟨UA, u, UB, KA ++ (key, l) :: KB, RA ++ r :: ⟨q, -1⟩ :: RB,
    h.setNode u.page { n with keys := (KA ++ (key, l) :: KB).map Prod.fst
                              rids := RA ++ r :: ⟨q, -1⟩ :: RB }, rfl, ?_, ?_, ?_, ?_, ?_, ?_⟩
  · rw [hkeys]
    simp
    omega
  · have hrep := hpl.upper.replace hpl.up_nodup hn (KA ++ (key, l) :: KB) (RA ++ r :: ⟨q, -1⟩ :: RB)
      (by simp only [List.length_append, List.length_cons]; omega) (by
        intro x hx
        rcases (show x ∈ u.rids ∨ x = ⟨q, -1⟩ by rw [hrids]; simp at hx ⊢; tauto) with hx | rfl
        · exact hstu.par _ (List.mem_map_of_mem hx)
        · rw [← hpar, ← hqpar])
    have hps : kidsOf UA ++ List.map Rid.pageNo (RA ++ r :: ⟨q, -1⟩ :: RB) ++ kidsOf UB =
        kidsOf UA ++ RA.map Rid.pageNo ++ r.pageNo :: q :: (RB.map Rid.pageNo ++ kidsOf UB) := by simp
    rw [hps] at hrep
    have hup : upPages ((UA ++ ⟨u.page, KA ++ (key, l) :: KB, RA ++ r :: ⟨q, -1⟩ :: RB⟩ :: UB) :: up) =
        upPages ((UA ++ u :: UB) :: up) := by simp [upPages]
    refine ⟨hrep, ?_, fun x hx => ?_, hpl.free⟩
    · rw [hup, List.append_cons, List.append_assoc, List.cons_append, List.nodup_middle, List.nodup_cons]
      refine ⟨by simpa using hq, by simpa using hpl.nodup⟩
    · rw [hup] at hx
      rcases (show x = q ∨ x ∈ kidsOf UA ++ RA.map Rid.pageNo ++ r.pageNo :: (RB.map Rid.pageNo ++ kidsOf UB) ++
          upPages ((UA ++ u :: UB) :: up) by
        simp only [List.mem_append, List.mem_cons] at hx ⊢; tauto) with rfl | hx
      · exact ⟨hq0, hqfd⟩
      · exact hpl.bound x hx
  · rw [seps_cut KA ((key, l) :: KB) rfl hT hTA]
    simp
  · refine (SameHdr.setNode ..).frame ?_ ?_ ?_
    · intro x hx
      rw [content_setNode, Function.update_of_ne]
      rintro rfl
      exact hx (by simp [upPages])
    · intro x _
      rw [link_setNode_keep hn]
    · intro x _
      rw [par_setNode_keep hn]
  · exact ⟨rfl, rfl⟩
  · intro s
    have hins : insertAt n.keys KA.length key = (KA ++ (key, l) :: KB).map Prod.fst := by
      rw [insertAt, hnk, hkeys]
      simp
    have hinr : insertAt n.rids (KA.length + 1) ⟨q, -1⟩ = RA ++ r :: ⟨q, -1⟩ :: RB := by
      have hcut : n.rids = (RA ++ [r]) ++ RB := by simp [hnr, hrids]
      rw [insertAt, hcut, List.take_left' (by simp [hKA]), List.drop_left' (by simp [hKA])]
      simp
    simp only [insertIntoParentWith, fetchNode, hold, ok_bind, IxNode.isRootPage, holdpar, beq_iff_eq,
      hune, if_false]
    rw [← fetchNode.eq_def, hn]
    simp only [ok_bind, hub, hins, hinr, IxNode.getSize, IxNode.getMaxKeySize, hnleaf,
      Bool.false_eq_true, if_false, List.length_map]
    rfl

theorem insertsAt_cons {U : List (Inner K)} (hins : InsertsAt order up) :
    InsertsAt order (U :: up) := by
  intro h A B p q SA SB key l fuel hpl horder hsz hseps hlen hsort hq hq0 hqfd hqpar hfuel
  obtain ⟨UA, u, UB, keys, rids, h₁, rfl, hkeys, hpl₁, hseps₁, hframe, ⟨hfd, hnum⟩, heq⟩ :=
    insertIntoParent_node hpl hseps hlen hsort hq hq0 hqfd hqpar
  have hup : upPages ((UA ++ ⟨u.page, keys, rids⟩ :: UB) :: up) = upPages ((UA ++ u :: UB) :: up) := by
    simp [upPages]
  have hsizes : ∀ v ∈ UA ++ UB, v.keys.length ≤ max (order - 1) 1 ∧
      (if up = [] then 1 else (order + 1) / 2 - 1) ≤ v.keys.length := fun v hv =>
    hsz.1 v (by simp at hv ⊢; tauto)
  have hsizeu := hsz.1 u (by simp)
  rw [horder] at heq
  by_cases hover : keys.length > order - 1
  · -- The parent is overfull. It is the root exactly when it has no neighbours.
    obtain ⟨fuel, rfl⟩ := Nat.exists_eq_add_one_of_ne_zero (Nat.ne_zero_of_lt hfuel)
    have hroot : up = [] → UA ++ UB = [] := by
      rintro rfl
      obtain ⟨r, hr, -⟩ := hpl.above.upper
      have := congrArg List.length hr
      simp only [pagesOf_length, List.length_append, List.length_cons, List.length_nil] at this
      exact List.length_eq_zero_iff.mp (by rw [List.length_append]; omega)
    obtain ⟨q', h', up', hsplit, hgrow, hseps', hsz', hne⟩ := split_inner hins hpl₁
      (by rw [hframe.btreeOrder, horder]) hsz.2 hover (show keys.length ≤ _ by omega)
      (fun v hv => by
        have hv' := hsizes v hv
        rw [if_neg fun h0 => by simp [hroot h0] at hv] at hv'
        exact hv') (by rw [hseps₁]; exact hsort) (show up.length ≤ fuel by simpa using hfuel)
    refine ⟨h', up', ?_, ⟨hgrow.placed, ?_, ?_, ?_, ?_⟩, hseps'.trans hseps₁, hsz', hne⟩
    · rw [heq, if_pos hover]
      simp only [show split (fuel + 1) h₁ u.page = _ from hsplit, ok_bind, pure_eq_ok]
    · intro x hx
      rw [← hup, ← hfd]
      exact hgrow.pages x hx
    · rw [← hfd]
      exact hgrow.fd2pageno
    · rw [← hnum]
      exact hgrow.height
    · refine (hframe.mono (fun x hx => Or.inl hx) (Set.empty_subset _)).trans ?_
      have := hgrow.frame
      rwa [hup, hfd] at this
  · refine ⟨h₁, _, ?_, ⟨hpl₁, ?_, hfd.ge, ?_, ?_⟩, hseps₁, ⟨?_, hsz.2⟩, by simp⟩
    · rw [heq, if_neg hover]
    · intro x hx
      exact Or.inl (hup ▸ hx)
    · rw [hnum]
      rfl
    · exact hframe.mono (fun x hx => Or.inl hx) (Set.empty_subset _)
    · intro v hv
      rcases (show v ∈ UA ++ UB ∨ v = ⟨u.page, keys, rids⟩ by simp at hv ⊢; tauto) with hv | rfl
      · exact hsizes v hv
      · show keys.length ≤ max (order - 1) 1 ∧ _ ≤ keys.length
        exact ⟨by omega, hsizeu.2.trans (by omega)⟩

/-- `insert_into_parent` at any height of the tree. -/
theorem insertIntoParent_spec (up : List (List (Inner K))) : InsertsAt order up := by
  induction up with
  | nil => exact insertsAt_root
  | cons U up ih => exact insertsAt_cons ih

end Rmdb
