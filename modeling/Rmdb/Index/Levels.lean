-- SUMMARY: The levels of a B+ tree above a list of pages, and how they lie in the index file.
import Mathlib.Data.Set.Insert
import Rmdb.Index.IndexHandle
import Rmdb.Lib.Linked
import Rmdb.Lib.Weave

/-!
# The levels of the tree

The operations climb from a level of the tree to the one above it. So the proofs see
the tree from below: `Upper h ps up` says that the pages `ps` are the nodes of one
level, from left to right, and that `up` are the levels above it, the lowest first.
What lies below `ps` is not mentioned. It is kept because an operation on the levels
`up` changes no contents outside their pages (`Frame`).

A separator is written together with the page of the leaf that starts the subtree on
its right. The operations that recompute separators read the first key of that leaf.
-/

namespace Rmdb

open LinkedList Weave

variable {K : Type}

namespace IxIndexHandle

-- ---------------------------------------------------------------------------
-- Three views of a page
-- ---------------------------------------------------------------------------

def content (h : IxIndexHandle K) (p : PageNo) : Option (Bool × List K × List Rid) :=
  (h.pages p).map fun n => (n.isLeaf, n.keys, n.rids)

def link (h : IxIndexHandle K) (p : PageNo) : Option (PageNo × PageNo) :=
  (h.pages p).map fun n => (n.prevLeaf, n.nextLeaf)

def par (h : IxIndexHandle K) (p : PageNo) : Option PageNo :=
  (h.pages p).map fun n => n.parent

variable {h h' : IxIndexHandle K} {p q : PageNo} {n : IxNode K}

theorem content_setNode : (h.setNode p n).content =
    Function.update h.content p (some (n.isLeaf, n.keys, n.rids)) := by
  funext x
  by_cases hx : x = p
  · subst hx
    simp [content, setNode]
  · simp [content, setNode, hx]

theorem link_setNode : (h.setNode p n).link =
    Function.update h.link p (some (n.prevLeaf, n.nextLeaf)) := by
  funext x
  by_cases hx : x = p
  · subst hx
    simp [link, setNode]
  · simp [link, setNode, hx]

theorem par_setNode : (h.setNode p n).par = Function.update h.par p (some n.parent) := by
  funext x
  by_cases hx : x = p
  · subst hx
    simp [par, setNode]
  · simp [par, setNode, hx]

theorem content_deletePage {x : PageNo} (hx : x ≠ p) : (h.deletePage p).content x = h.content x := by
  simp [content, deletePage, hx]

theorem link_deletePage {x : PageNo} (hx : x ≠ p) : (h.deletePage p).link x = h.link x := by
  simp [link, deletePage, hx]

theorem par_deletePage {x : PageNo} (hx : x ≠ p) : (h.deletePage p).par x = h.par x := by
  simp [par, deletePage, hx]

/-- The node that the three views of a page show. -/
theorem fetchNode_of_content {lf : Bool} {ks : List K} {rs : List Rid}
    (hp : h.content p = some (lf, ks, rs)) :
    ∃ n, h.fetchNode p = .ok n ∧ n.isLeaf = lf ∧ n.keys = ks ∧ n.rids = rs ∧
      h.link p = some (n.prevLeaf, n.nextLeaf) ∧ h.par p = some n.parent := by
  simp only [content, Option.map_eq_some_iff] at hp
  obtain ⟨n, hn, heq⟩ := hp
  cases heq
  exact ⟨n, by simp [fetchNode, hn], rfl, rfl, rfl, by simp [link, hn], by simp [par, hn]⟩

theorem fetchNode_content (hp : h.fetchNode p = .ok n) :
    h.content p = some (n.isLeaf, n.keys, n.rids) ∧
      h.link p = some (n.prevLeaf, n.nextLeaf) ∧ h.par p = some n.parent := by
  unfold fetchNode at hp
  split at hp
  · rename_i m hm
    cases hp
    simp [content, link, par, hm]
  · cases hp

/-- Other keys and rids in a node leave the links alone. -/
theorem link_setNode_keep {ks : List K} {rs : List Rid} (hn : h.fetchNode p = .ok n) :
    (h.setNode p { n with keys := ks, rids := rs }).link = h.link := by
  rw [link_setNode, Function.update_eq_self_iff, (fetchNode_content hn).2.1]

/-- Other keys and rids in a node leave the parents alone. -/
theorem par_setNode_keep {ks : List K} {rs : List Rid} (hn : h.fetchNode p = .ok n) :
    (h.setNode p { n with keys := ks, rids := rs }).par = h.par := by
  rw [par_setNode, Function.update_eq_self_iff, (fetchNode_content hn).2.2]

@[simp] theorem fetchNode_setNode_self : (h.setNode p n).fetchNode p = .ok n := by
  simp [fetchNode, setNode]

theorem fetchNode_setNode_of_ne {x : PageNo} (hx : x ≠ p) :
    (h.setNode p n).fetchNode x = h.fetchNode x := by
  simp [fetchNode, setNode, hx]

-- ---------------------------------------------------------------------------
-- What an operation leaves alone
-- ---------------------------------------------------------------------------

/-- `h'` comes from `h` by changes to the contents and links of pages in `C`, and to the
parents of pages in `P`. The header keeps what the upper levels never change. -/
structure Frame (C P : Set PageNo) (h h' : IxIndexHandle K) : Prop where
  content : ∀ x, x ∉ C → h'.content x = h.content x
  link : ∀ x, x ∉ C → h'.link x = h.link x
  par : ∀ x, x ∉ P → h'.par x = h.par x
  btreeOrder : h'.btreeOrder = h.btreeOrder
  firstFreePageNo : h'.firstFreePageNo = h.firstFreePageNo
  firstLeaf : h'.firstLeaf = h.firstLeaf
  lastLeaf : h'.lastLeaf = h.lastLeaf

variable {C C' P P' : Set PageNo} {h₁ h₂ h₃ : IxIndexHandle K}

theorem Frame.refl (h : IxIndexHandle K) : Frame C P h h :=
  ⟨fun _ _ => rfl, fun _ _ => rfl, fun _ _ => rfl, rfl, rfl, rfl, rfl⟩

theorem Frame.trans (h₁₂ : Frame C P h₁ h₂) (h₂₃ : Frame C P h₂ h₃) : Frame C P h₁ h₃ where
  content x hx := (h₂₃.content x hx).trans (h₁₂.content x hx)
  link x hx := (h₂₃.link x hx).trans (h₁₂.link x hx)
  par x hx := (h₂₃.par x hx).trans (h₁₂.par x hx)
  btreeOrder := h₂₃.btreeOrder.trans h₁₂.btreeOrder
  firstFreePageNo := h₂₃.firstFreePageNo.trans h₁₂.firstFreePageNo
  firstLeaf := h₂₃.firstLeaf.trans h₁₂.firstLeaf
  lastLeaf := h₂₃.lastLeaf.trans h₁₂.lastLeaf

theorem Frame.mono (hf : Frame C P h h') (hC : C ⊆ C') (hP : P ⊆ P') : Frame C' P' h h' where
  content x hx := hf.content x fun hc => hx (hC hc)
  link x hx := hf.link x fun hc => hx (hC hc)
  par x hx := hf.par x fun hc => hx (hP hc)
  btreeOrder := hf.btreeOrder
  firstFreePageNo := hf.firstFreePageNo
  firstLeaf := hf.firstLeaf
  lastLeaf := hf.lastLeaf

/-- No page is allocated and none is counted. -/
def SamePages (h h' : IxIndexHandle K) : Prop :=
  h'.fd2pageno = h.fd2pageno ∧ h'.numPages = h.numPages

theorem SamePages.trans (h₁₂ : SamePages h₁ h₂) (h₂₃ : SamePages h₂ h₃) : SamePages h₁ h₃ :=
  ⟨h₂₃.1.trans h₁₂.1, h₂₃.2.trans h₁₂.2⟩

theorem SamePages.fuel (hs : SamePages h h') : h'.fuel = h.fuel := by
  rw [IxIndexHandle.fuel, IxIndexHandle.fuel, hs.2]

end IxIndexHandle

open IxIndexHandle

-- ---------------------------------------------------------------------------
-- Levels
-- ---------------------------------------------------------------------------

/-- An internal node: each key with the page of the leaf where the subtree on its right
begins. -/
structure Inner (K : Type) where
  page : PageNo
  keys : List (K × PageNo)
  rids : List Rid

def Inner.kids (u : Inner K) : List PageNo := u.rids.map Rid.pageNo

/-- The node `u` is stored in the file, and its children know it. -/
structure Inner.Stored (h : IxIndexHandle K) (u : Inner K) : Prop where
  content : h.content u.page = some (false, u.keys.map Prod.fst, u.rids)
  length : u.rids.length = u.keys.length + 1
  par : ∀ c ∈ u.kids, h.par c = some u.page

def pagesOf (U : List (Inner K)) : List PageNo := U.map Inner.page

def kidsOf (U : List (Inner K)) : List PageNo := U.flatMap Inner.kids

def keysOf (U : List (Inner K)) : List (List (K × PageNo)) := U.map Inner.keys

/-- The nodes `U` are the level right above the pages `ps`. -/
structure Level (h : IxIndexHandle K) (ps : List PageNo) (U : List (Inner K)) : Prop where
  kids : ps = kidsOf U
  stored : ∀ u ∈ U, u.Stored h
  linked : Linked h.link noPage (pagesOf U) noPage

/-- The pages `ps` form a level whose upper levels are `up`, up to the root. -/
def Upper (h : IxIndexHandle K) : List PageNo → List (List (Inner K)) → Prop
  | ps, [] => ∃ r, ps = [r] ∧ h.par r = some noPage ∧ h.rootPage = r
  | ps, U :: up => Level h ps U ∧ Upper h (pagesOf U) up

/-- The separators between the pages of a level, from left to right. -/
def seps : List (List (Inner K)) → List (K × PageNo)
  | [] => []
  | U :: up => weave (keysOf U) (seps up)

def upPages : List (List (Inner K)) → List PageNo
  | [] => []
  | U :: up => pagesOf U ++ upPages up

/-- Every node above the leaves has as many keys as its place demands. In a tree of order 1 the parent
of a leaf that was split keeps one key. -/
def Sized (order : Nat) : List (List (Inner K)) → Prop
  | [] => True
  | U :: up =>
    (∀ u ∈ U, u.keys.length ≤ max (order - 1) 1 ∧ (if up = [] then 1 else (order + 1) / 2 - 1) ≤ u.keys.length) ∧
      Sized order up

variable {h h' : IxIndexHandle K} {ps A B : List PageNo} {p : PageNo}
  {U UA UB : List (Inner K)} {u : Inner K} {up : List (List (Inner K))}

@[simp] theorem pagesOf_append : pagesOf (UA ++ UB) = pagesOf UA ++ pagesOf UB := List.map_append

@[simp] theorem pagesOf_cons : pagesOf (u :: U) = u.page :: pagesOf U := rfl

@[simp] theorem pagesOf_nil : pagesOf ([] : List (Inner K)) = [] := rfl

@[simp] theorem kidsOf_append : kidsOf (UA ++ UB) = kidsOf UA ++ kidsOf UB := List.flatMap_append

@[simp] theorem kidsOf_cons : kidsOf (u :: U) = u.kids ++ kidsOf U := List.flatMap_cons

@[simp] theorem kidsOf_nil : kidsOf ([] : List (Inner K)) = [] := rfl

@[simp] theorem keysOf_append : keysOf (UA ++ UB) = keysOf UA ++ keysOf UB := List.map_append

@[simp] theorem keysOf_cons : keysOf (u :: U) = u.keys :: keysOf U := rfl

@[simp] theorem keysOf_nil : keysOf ([] : List (Inner K)) = [] := rfl

@[simp] theorem pagesOf_length : (pagesOf U).length = U.length := List.length_map ..

@[simp] theorem keysOf_length : (keysOf U).length = U.length := List.length_map ..

@[simp] theorem Inner.kids_length : u.kids.length = u.rids.length := List.length_map ..

theorem mem_kidsOf {c : PageNo} (hu : u ∈ U) (hc : c ∈ u.kids) : c ∈ kidsOf U :=
  List.mem_flatMap.mpr ⟨u, hu, hc⟩

theorem mem_pagesOf (hu : u ∈ U) : u.page ∈ pagesOf U := List.mem_map_of_mem hu

theorem kidsOf_length (hlen : ∀ u ∈ U, u.rids.length = u.keys.length + 1) :
    (kidsOf U).length = ((keysOf U).map fun k => k.length + 1).sum := by
  induction U with
  | nil => rfl
  | cons u U ih =>
    rw [kidsOf_cons, List.length_append, Inner.kids_length, hlen u List.mem_cons_self,
      ih fun v hv => hlen v (List.mem_cons_of_mem u hv)]
    simp

/-- There is one separator between each two pages. -/
theorem Upper.seps_length (hup : Upper h ps up) : (seps up).length + 1 = ps.length := by
  induction up generalizing ps with
  | nil =>
    obtain ⟨r, rfl, -⟩ := hup
    rfl
  | cons U up ih =>
    obtain ⟨⟨rfl, hst, -⟩, hup⟩ := hup
    rw [seps, weave_length (by simpa using ih hup), kidsOf_length fun u hu => (hst u hu).length]

/-- A level stays where it is when nothing of it changes. -/
theorem Level.congr (hU : Level h ps U)
    (hcontent : ∀ x ∈ pagesOf U, h'.content x = h.content x)
    (hlink : ∀ x ∈ pagesOf U, h'.link x = h.link x)
    (hpar : ∀ x ∈ ps, h'.par x = h.par x) : Level h' ps U := by
  obtain ⟨rfl, hst, hlk⟩ := hU
  refine ⟨rfl, fun u hu => ?_, hlk.congr hlink⟩
  refine ⟨?_, (hst u hu).length, fun c hc => ?_⟩
  · rw [hcontent u.page (mem_pagesOf hu), (hst u hu).content]
  · rw [hpar c (mem_kidsOf hu hc), (hst u hu).par c hc]

/-- The upper levels stay where they are when nothing of theirs changes. -/
theorem Upper.congr (hup : Upper h ps up)
    (hcontent : ∀ x ∈ upPages up, h'.content x = h.content x)
    (hlink : ∀ x ∈ upPages up, h'.link x = h.link x)
    (hpar : ∀ x ∈ ps ++ upPages up, h'.par x = h.par x)
    (hroot : h'.rootPage = h.rootPage) : Upper h' ps up := by
  induction up generalizing ps with
  | nil =>
    obtain ⟨r, rfl, hr, hroot'⟩ := hup
    exact ⟨r, rfl, by rw [hpar r (by simp), hr], by rw [hroot, hroot']⟩
  | cons U up ih =>
    refine ⟨hup.1.congr (fun x hx => hcontent x (by simp [upPages, hx]))
      (fun x hx => hlink x (by simp [upPages, hx])) (fun x hx => hpar x (by simp [hx])),
      ih hup.2 ?_ ?_ ?_⟩
    · exact fun x hx => hcontent x (by simp [upPages, hx])
    · exact fun x hx => hlink x (by simp [upPages, hx])
    · exact fun x hx => hpar x (List.mem_append_right ps hx)

/-- The level `ps` and everything above it lie on different pages of the file, and pages
beyond the end of the file are free. -/
structure Placed (h : IxIndexHandle K) (ps : List PageNo) (up : List (List (Inner K))) : Prop where
  upper : Upper h ps up
  nodup : (ps ++ upPages up).Nodup
  bound : ∀ x ∈ ps ++ upPages up, 0 ≤ x ∧ x < h.fd2pageno
  free : h.firstFreePageNo = noPage

theorem ne_noPage {x : PageNo} (hx : 0 ≤ x) : x ≠ noPage := by
  rintro rfl
  exact absurd hx (by decide)

theorem Placed.ne_noPage (hpl : Placed h ps up) {x : PageNo} (hx : x ∈ ps ++ upPages up) :
    x ≠ noPage := Rmdb.ne_noPage (hpl.bound x hx).1

theorem Placed.above (hpl : Placed h ps (U :: up)) : Placed h (pagesOf U) up where
  upper := hpl.upper.2
  nodup := (List.nodup_append.mp hpl.nodup).2.1
  bound x hx := hpl.bound x (List.mem_append_right ps hx)
  free := hpl.free

theorem Placed.not_mem_up (hpl : Placed h ps up) {x : PageNo} (hx : x ∈ ps) : x ∉ upPages up :=
  fun hx' => (List.nodup_append.mp hpl.nodup).2.2 x hx x hx' rfl

theorem Placed.ps_nodup (hpl : Placed h ps up) : ps.Nodup := (List.nodup_append.mp hpl.nodup).1

theorem Placed.up_nodup (hpl : Placed h ps up) : (upPages up).Nodup :=
  (List.nodup_append.mp hpl.nodup).2.1

-- ---------------------------------------------------------------------------
-- The parent of a page
-- ---------------------------------------------------------------------------

private theorem kidsOf_eq_append_cons (h : kidsOf U = A ++ p :: B) :
    ∃ UA u UB RA r RB, U = UA ++ u :: UB ∧ u.rids = RA ++ r :: RB ∧ r.pageNo = p ∧
      A = kidsOf UA ++ RA.map Rid.pageNo ∧ B = RB.map Rid.pageNo ++ kidsOf UB := by
  induction U generalizing A with
  | nil => simp [kidsOf] at h
  | cons u U ih =>
    rw [kidsOf_cons, List.append_eq_append_iff] at h
    rcases h with ⟨A', rfl, h⟩ | ⟨B', hkids, h⟩
    · obtain ⟨UA, v, UB, RA, r, RB, rfl, hr, hp, rfl, rfl⟩ := ih h
      exact ⟨u :: UA, v, UB, RA, r, RB, rfl, hr, hp, by simp, rfl⟩
    · cases B' with
      | nil =>
        obtain ⟨UA, v, UB, RA, r, RB, rfl, hr, hp, hA, rfl⟩ := ih (A := []) h.symm
        rw [List.append_nil] at hkids
        refine ⟨u :: UA, v, UB, RA, r, RB, rfl, hr, hp, ?_, rfl⟩
        rw [kidsOf_cons, hkids, List.append_assoc, ← hA, List.append_nil]
      | cons p' B' =>
        cases h
        obtain ⟨RA, R, hrids, rfl, hR⟩ := List.map_eq_append_iff.mp hkids
        obtain ⟨r, RB, rfl, hp, rfl⟩ := List.map_eq_cons_iff.mp hR
        exact ⟨[], u, U, RA, r, RB, rfl, hrids, hp, rfl, rfl⟩

/-- The node `u` above a page, the place of the page among its children, and the separators
to the left and to the right of it, on this level and on the one above. -/
theorem Upper.parent (hup : Upper h (A ++ p :: B) (U :: up)) :
    ∃ UA u UB RA r RB KA KB TA TB, U = UA ++ u :: UB ∧ u.rids = RA ++ r :: RB ∧ r.pageNo = p ∧
      A = kidsOf UA ++ RA.map Rid.pageNo ∧ B = RB.map Rid.pageNo ++ kidsOf UB ∧
      u.keys = KA ++ KB ∧ KA.length = RA.length ∧ KB.length = RB.length ∧
      seps up = TA ++ TB ∧ TA.length = UA.length ∧ TB.length = UB.length := by
  obtain ⟨⟨hkids, hst, -⟩, hup⟩ := hup
  obtain ⟨UA, u, UB, RA, r, RB, rfl, hr, hp, hA, hB⟩ := kidsOf_eq_append_cons hkids.symm
  have hu := (hst u (by simp)).length
  have hT := hup.seps_length
  rw [hr] at hu
  simp only [List.length_append, List.length_cons, pagesOf_length] at hu hT
  refine ⟨UA, u, UB, RA, r, RB, u.keys.take RA.length, u.keys.drop RA.length,
    (seps up).take UA.length, (seps up).drop UA.length, rfl, hr, hp, hA, hB, ?_, ?_, ?_, ?_, ?_, ?_⟩
  · exact (List.take_append_drop _ _).symm
  · rw [List.length_take]
    omega
  · rw [List.length_drop]
    omega
  · exact (List.take_append_drop _ _).symm
  · rw [List.length_take]
    omega
  · rw [List.length_drop]
    omega

/-- The separators of a level, cut inside the node `u`. -/
theorem seps_cut (KA KB : List (K × PageNo)) {TA TB : List (K × PageNo)} (hkeys : u.keys = KA ++ KB)
    (hT : seps up = TA ++ TB) (hTA : TA.length = UA.length) :
    seps ((UA ++ u :: UB) :: up) =
      (front (keysOf UA) TA ++ KA) ++ (KB ++ tail TB (keysOf UB)) := by
  rw [seps, hT, keysOf_append, keysOf_cons, weave_cut (by simpa using hTA), hkeys]
  simp only [List.append_assoc]

theorem left_length {KA TA : List (K × PageNo)} {RA : List Rid}
    (hlen : ∀ u ∈ UA, u.rids.length = u.keys.length + 1) (hKA : KA.length = RA.length)
    (hTA : TA.length = UA.length) :
    (front (keysOf UA) TA ++ KA).length = (kidsOf UA ++ RA.map Rid.pageNo).length := by
  rw [List.length_append, List.length_append, List.length_map, hKA,
    front_length (by simpa using hTA), kidsOf_length hlen]

end Rmdb
