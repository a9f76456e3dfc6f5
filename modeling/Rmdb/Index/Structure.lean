-- SUMMARY: The structural invariant of the B+ tree, read off the pages, in every reachable state.
import Rmdb.Index.Refinement

/-!
# The structure of the tree

The tree seen from its root, as a reader of the file finds it: `level h d` are the pages
`d` levels below the root, from left to right. `Balanced` says what holds of them. That it
holds in every reachable state follows from the view from the leaves (`Tree`).
-/

namespace Rmdb

open LinkedList Weave IxIndexHandle Blocks

variable {K : Type}

namespace IxIndexHandle

/-- The children of a page, from left to right. -/
def children (h : IxIndexHandle K) (p : PageNo) : List PageNo :=
  match h.pages p with
  | some n => if n.isLeaf then [] else n.rids.map Rid.pageNo
  | none => []

/-- The pages `d` levels below the pages `ps`. -/
def below (h : IxIndexHandle K) (ps : List PageNo) : Nat → List PageNo
  | 0 => ps
  | d + 1 => (h.below ps d).flatMap h.children

/-- The pages `d` levels below the root. -/
def level (h : IxIndexHandle K) (d : Nat) : List PageNo := h.below [h.rootPage] d

end IxIndexHandle

/-- The structural invariant of a tree with `height` levels above its leaves. -/
structure Balanced [LinearOrder K] (h : IxIndexHandle K) (height : Nat) : Prop where
  /-- All leaves have the same depth. -/
  depth : ∀ d, ∀ p ∈ h.level d, ∃ n, h.pages p = some n ∧ (n.isLeaf = true ↔ d = height)
  increasing : ∀ d, ∀ p ∈ h.level d, ∀ n, h.pages p = some n → n.keys.Pairwise (· < ·)
  /-- The keys of child `i`, and of everything below it, lie between the separators `i - 1` and `i`. -/
  between : ∀ d, ∀ p ∈ h.level d, ∀ n, h.pages p = some n → n.isLeaf = false →
    ∀ i c, n.rids[i]? = some c → ∀ e, ∀ q ∈ h.below [c.pageNo] e, ∀ m, h.pages q = some m →
      ∀ k ∈ m.keys, (∀ s, 0 < i → n.keys[i - 1]? = some s → s ≤ k) ∧ ∀ s, n.keys[i]? = some s → k < s
  leaf_size : ∀ d, ∀ p ∈ h.level d, ∀ n, h.pages p = some n → n.isLeaf = true →
    n.rids.length = n.keys.length ∧ n.getSize ≤ h.btreeOrder ∧
      (p ≠ h.rootPage → (h.btreeOrder + 1) / 2 ≤ n.getSize)
  inner_size : ∀ d, ∀ p ∈ h.level d, ∀ n, h.pages p = some n → n.isLeaf = false →
    n.rids.length = n.keys.length + 1 ∧ n.getSize ≤ h.btreeOrder - 1 ∧
      (p ≠ h.rootPage → (h.btreeOrder + 1) / 2 - 1 ≤ n.getSize)
  parent : ∀ d, ∀ p ∈ h.level d, ∀ c ∈ h.children p, ∀ m, h.pages c = some m → m.parent = p
  root : ∀ n, h.pages h.rootPage = some n → n.parent = noPage
  /-- Each level is one doubly linked list of different pages, in key order. -/
  linked : ∀ d, (h.level d).Nodup ∧ Linked h.link noPage (h.level d) noPage
  ordered : ∀ d, (h.level d).Pairwise fun p q => ∀ n m, h.pages p = some n → h.pages q = some m →
    ∀ k ∈ n.keys, ∀ k' ∈ m.keys, k < k'
  firstLeaf : (h.level height).head? = some h.firstLeaf
  lastLeaf : (h.level height).getLast? = some h.lastLeaf

variable {h : IxIndexHandle K} {ps A B : List PageNo} {p q : PageNo} {n : IxNode K} {d e : Nat}
  {U : List (Inner K)} {u : Inner K} {up up₁ up₂ : List (List (Inner K))} {L : List (Leaf K)}

theorem below_add (h : IxIndexHandle K) (ps : List PageNo) (d e : Nat) :
    h.below (h.below ps d) e = h.below ps (d + e) := by
  induction e with
  | zero => rfl
  | succ e ih => rw [below, ih, ← Nat.add_assoc, below]

theorem below_append (h : IxIndexHandle K) (ps qs : List PageNo) (d : Nat) :
    h.below (ps ++ qs) d = h.below ps d ++ h.below qs d := by
  induction d with
  | zero => rfl
  | succ d ih => rw [below, ih, List.flatMap_append, below, below]

theorem mem_below_iff : q ∈ h.below ps d ↔ ∃ p ∈ ps, q ∈ h.below [p] d := by
  induction ps with
  | nil =>
    have hnil : h.below [] d = [] := by
      induction d with
      | zero => rfl
      | succ d ih => rw [below, ih]; rfl
    simp [hnil]
  | cons p ps ih =>
    rw [← List.singleton_append, below_append, List.mem_append, ih]
    simp

theorem pages_eq {lf : Bool} {ks : List K} {rs : List Rid} (hp : h.pages p = some n)
    (hc : h.content p = some (lf, ks, rs)) : n.isLeaf = lf ∧ n.keys = ks ∧ n.rids = rs := by
  simpa [content, hp] using hc

theorem pages_content (hp : h.pages p = some n) : h.content p = some (n.isLeaf, n.keys, n.rids) := by
  simp [content, hp]

theorem Inner.Stored.children (hu : u.Stored h) : h.children u.page = u.kids := by
  obtain ⟨n, hn, heq⟩ := Option.map_eq_some_iff.mp hu.content
  simp only [Prod.mk.injEq] at heq
  simp [IxIndexHandle.children, hn, heq, Inner.kids]

theorem Level.flatMap_children (hU : Level h ps U) : (pagesOf U).flatMap h.children = ps := by
  obtain ⟨rfl, hst, -⟩ := hU
  induction U with
  | nil => rfl
  | cons u U ih =>
    rw [pagesOf_cons, List.flatMap_cons, kidsOf_cons, (hst u List.mem_cons_self).children,
      ih fun v hv => hst v (List.mem_cons_of_mem u hv)]

/-- A level counted from the root. -/
theorem Upper.level_eq (hup : Upper h ps up) : h.level up.length = ps := by
  induction up generalizing ps with
  | nil =>
    obtain ⟨r, rfl, -, rfl⟩ := hup
    rfl
  | cons U up ih =>
    have hrec := ih hup.2
    rw [level] at hrec ⊢
    rw [List.length_cons, below, hrec, hup.1.flatMap_children]

theorem Sized.suffix {order : Nat} (hs : Sized order (up₁ ++ U :: up₂)) : Sized order (U :: up₂) := by
  induction up₁ with
  | nil => exact hs
  | cons V up₁ ih => exact ih hs.2

-- ---------------------------------------------------------------------------
-- Subtrees lie between separators
-- ---------------------------------------------------------------------------

/-- Everything below a page lies between the separators around the page. -/
def Bounded [LinearOrder K] (h : IxIndexHandle K) (ps : List PageNo) (S : List (K × PageNo)) : Prop :=
  ∀ A p B SA SB, ps = A ++ p :: B → S = SA ++ SB → SA.length = A.length →
    ∀ d, ∀ q ∈ h.below [p] d, ∀ m, h.pages q = some m → ∀ k ∈ m.keys,
      (∀ s ∈ SA, s.1 ≤ k) ∧ ∀ s ∈ SB, k < s.1

section Bounds

variable [IxKey K] {UA UB : List (Inner K)} {TA TB KA KB : List (K × PageNo)} {RA RB : List Rid}
  {r : Rid} {m : IxNode K} {k : K} {ks : List K} {rs : List Rid}

/-- Below a child of the node `u`, with the separators of the whole level. -/
theorem Bounded.child (hb : Bounded h ps (seps ((UA ++ u :: UB) :: up)))
    (hU : Level h ps (UA ++ u :: UB)) (hrids : u.rids = RA ++ r :: RB) (hkeys : u.keys = KA ++ KB)
    (hlen : KA.length = RA.length) (hT : seps up = TA ++ TB) (hTA : TA.length = UA.length)
    (hq : q ∈ h.below [r.pageNo] d) (hm : h.pages q = some m) (hk : k ∈ m.keys) :
    (∀ s ∈ front (keysOf UA) TA ++ KA, s.1 ≤ k) ∧ ∀ s ∈ KB ++ tail TB (keysOf UB), k < s.1 := by
  refine hb (kidsOf UA ++ RA.map Rid.pageNo) r.pageNo (RB.map Rid.pageNo ++ kidsOf UB) _ _ ?_
    (seps_cut KA KB hkeys hT hTA) ?_ d q hq m hm k hk
  · rw [hU.kids]
    simp [Inner.kids, hrids]
  · exact left_length (fun v hv => (hU.stored v (by simp [hv])).length) hlen hTA

/-- From the children of a level to the level itself. -/
theorem Bounded.above (hb : Bounded h ps (seps (U :: up))) (hU : Level h ps U)
    (hup : Upper h (pagesOf U) up) (hS : ((seps (U :: up)).map Prod.fst).Pairwise (· < ·)) :
    Bounded h (pagesOf U) (seps up) := by
  intro A p B TA TB hps hT hlen d q hq m hm k hk
  obtain ⟨UA, U', rfl, rfl, hU'⟩ := List.map_eq_append_iff.mp hps
  obtain ⟨u, UB, rfl, rfl, rfl⟩ := List.map_eq_cons_iff.mp hU'
  rw [List.length_map] at hlen
  have hTB : TB.length = UB.length := by
    have := hup.seps_length
    rw [hT] at this
    simp only [pagesOf_length, List.length_append, List.length_cons] at this
    omega
  have hleft : ∀ s ∈ TA, s ∈ front (keysOf UA) TA := fun s hs =>
    (front_sublist _ _ (by simpa using hlen)).mem hs
  have hright : ∀ s ∈ TB, s ∈ tail TB (keysOf UB) := fun s hs =>
    (tail_sublist _ _ (by simpa using hTB)).mem hs
  have hstu := hU.stored u (by simp)
  cases d with
  | zero =>
    -- The keys of the node itself.
    obtain rfl : q = u.page := by simpa [below] using hq
    have hc := pages_content hm
    rw [hstu.content] at hc
    simp only [Option.some.injEq, Prod.mk.injEq] at hc
    rw [← hc.2.1] at hk
    rw [seps, hT, keysOf_append, keysOf_cons, weave_cut (by simpa using hlen), List.map_append,
      List.map_append, List.pairwise_append, List.pairwise_append] at hS
    obtain ⟨-, ⟨-, -, hkB⟩, hAk⟩ := hS
    refine ⟨fun s hs => ?_, fun s hs => ?_⟩
    · exact (hAk s.1 (List.mem_map_of_mem (hleft s hs)) k (List.mem_append_left _ hk)).le
    · exact hkB k hk s.1 (List.mem_map_of_mem (hright s hs))
  | succ d =>
    rw [Nat.add_comm, ← below_add] at hq
    obtain ⟨c, hc, hq⟩ := mem_below_iff.mp hq
    have hc : c ∈ u.kids := by simpa [below, hstu.children] using hc
    obtain ⟨r, hr, rfl⟩ := List.mem_map.mp hc
    obtain ⟨RA, RB, hrids⟩ := List.append_of_mem hr
    have hlenr := hstu.length
    rw [hrids] at hlenr
    simp only [List.length_append, List.length_cons] at hlenr
    obtain ⟨hle, hlt⟩ := hb.child hU hrids (List.take_append_drop RA.length u.keys).symm
      (by rw [List.length_take]; omega) hT hlen hq hm hk
    exact ⟨fun s hs => hle s (List.mem_append_left _ (hleft s hs)),
      fun s hs => hlt s (List.mem_append_right _ (hright s hs))⟩

/-- The separators of the upper levels increase. -/
theorem Upper.seps_above (hup : Upper h ps (U :: up))
    (hS : ((seps (U :: up)).map Prod.fst).Pairwise (· < ·)) :
    ((seps up).map Prod.fst).Pairwise (· < ·) := by
  refine hS.sublist (List.Sublist.map _ (seps_sublist ?_))
  simpa using hup.2.seps_length

/-- Every level of the tree is bounded by its separators. -/
theorem Bounded.suffix (hb : Bounded h ps (seps (up₁ ++ U :: up₂))) (hup : Upper h ps (up₁ ++ U :: up₂))
    (hS : ((seps (up₁ ++ U :: up₂)).map Prod.fst).Pairwise (· < ·)) :
    ∃ qs, Level h qs U ∧ Upper h (pagesOf U) up₂ ∧ Bounded h qs (seps (U :: up₂)) ∧
      ((seps (U :: up₂)).map Prod.fst).Pairwise (· < ·) := by
  induction up₁ generalizing ps with
  | nil => exact ⟨ps, hup.1, hup.2, hb, hS⟩
  | cons V up₁ ih => exact ih (hb.above hup.1 hup.2 hS) hup.2 (hup.seps_above hS)

omit [IxKey K] in
theorem leaf_children (hn : h.content p = some (true, ks, rs)) : h.children p = [] := by
  obtain ⟨n, hp, heq⟩ := Option.map_eq_some_iff.mp hn
  simp only [Prod.mk.injEq] at heq
  simp [IxIndexHandle.children, hp, heq]

theorem Shape.below_leaf (hsh : Shape h L up) {n : Leaf K} (hn : n ∈ L) (hq : q ∈ h.below [n.page] d) :
    d = 0 ∧ q = n.page := by
  cases d with
  | zero => exact ⟨rfl, by simpa [below] using hq⟩
  | succ d =>
    rw [Nat.add_comm, ← below_add] at hq
    have hnil : h.below [n.page] 1 = [] := by simp [below, leaf_children (hsh.content n hn)]
    obtain ⟨c, hc, -⟩ := mem_below_iff.mp hq
    rw [hnil] at hc
    cases hc

theorem Shape.bounded (hsh : Shape h L up) : Bounded h (leafPages L) (seps up) := by
  intro A p B SA SB hps hS hlen d q hq m hm k hk
  obtain ⟨LA, L', rfl, rfl, hL'⟩ := List.map_eq_append_iff.mp hps
  obtain ⟨n, LB, rfl, rfl, rfl⟩ := List.map_eq_cons_iff.mp hL'
  rw [List.length_map] at hlen
  obtain ⟨-, rfl⟩ := hsh.below_leaf (n := n) (by simp) hq
  have hc := pages_content hm
  rw [hsh.content n (by simp)] at hc
  simp only [Option.some.injEq, Prod.mk.injEq] at hc
  rw [← hc.2.1] at hk
  have hlenB := hsh.seps_length
  rw [hS] at hlenB
  simp only [List.length_append, List.length_cons] at hlenB
  have hsep := hsh.separated
  rw [hS, List.map_append, List.map_append, List.map_cons] at hsep
  obtain ⟨hle, hlt⟩ := hsep.mem_bounds (by simp [hlen]) (by simp; omega) hk
  exact ⟨fun s hs => hle s.1 (List.mem_map_of_mem hs), fun s hs => hlt s.1 (List.mem_map_of_mem hs)⟩

end Bounds

-- ---------------------------------------------------------------------------
-- Every page of the tree
-- ---------------------------------------------------------------------------

section Tree

variable [IxKey K]

/-- A node `u` of an upper level `U`, and the levels around it. -/
structure AtLevel (h : IxIndexHandle K) (d : Nat) (U : List (Inner K))
    (up₂ : List (List (Inner K))) (qs : List PageNo) : Prop where
  length : up₂.length = d
  level : Level h qs U
  upper : Upper h (pagesOf U) up₂
  bounded : Bounded h qs (seps (U :: up₂))
  increasing : ((seps (U :: up₂)).map Prod.fst).Pairwise (· < ·)
  sized : Sized h.btreeOrder (U :: up₂)
  nodup : (pagesOf U).Nodup

omit [IxKey K] in
theorem Placed.nodup_suffix (hpl : Placed h ps (up₁ ++ U :: up₂)) : (pagesOf U).Nodup := by
  induction up₁ generalizing ps with
  | nil => exact hpl.above.ps_nodup
  | cons V up₁ ih => exact ih hpl.above

theorem Shape.increasing (hsh : Shape h L up) : ((seps up).map Prod.fst).Pairwise (· < ·) :=
  hsh.separated.seps (by simpa using hsh.seps_length)

/-- The levels above the leaves. -/
theorem Shape.level_inner (hsh : Shape h L up) (hd : d < up.length) :
    ∃ U up₂ qs, h.level d = pagesOf U ∧ AtLevel h d U up₂ qs := by
  obtain ⟨up₁, U, up₂, rfl, hlen⟩ : ∃ up₁ U up₂, up = up₁ ++ U :: up₂ ∧ up₂.length = d := by
    have hlt : up.length - d - 1 < up.length := by omega
    exact ⟨up.take (up.length - d - 1), up[up.length - d - 1], up.drop (up.length - d - 1 + 1), by simp,
      by rw [List.length_drop]; omega⟩
  obtain ⟨qs, hU, hup, hb, hinc⟩ := hsh.bounded.suffix hsh.placed.upper hsh.increasing
  refine ⟨U, up₂, qs, ?_, hlen, hU, hup, hb, hinc, hsh.sized.suffix, hsh.placed.nodup_suffix⟩
  rw [← hlen, hup.level_eq]

/-- The level of the leaves. -/
theorem Shape.level_leaf (hsh : Shape h L up) : h.level up.length = leafPages L :=
  hsh.placed.upper.level_eq

/-- There is nothing below the leaves. -/
theorem Shape.level_nil (hsh : Shape h L up) (hd : up.length < d) : h.level d = [] := by
  obtain ⟨e, rfl⟩ := Nat.exists_eq_add_of_lt hd
  rw [level, Nat.add_assoc, ← below_add, ← level, hsh.level_leaf]
  rw [List.eq_nil_iff_forall_not_mem]
  intro q hq
  obtain ⟨p, hp, hq⟩ := mem_below_iff.mp hq
  obtain ⟨n, hn, rfl⟩ := List.mem_map.mp hp
  exact absurd (hsh.below_leaf hn hq).1 (by omega)

/-- A page of the tree is a leaf on the lowest level or an internal node above it. -/
theorem Shape.cases_level (hsh : Shape h L up) (hp : p ∈ h.level d) :
    (d = up.length ∧ ∃ n ∈ L, n.page = p) ∨
      (d < up.length ∧ ∃ U up₂ qs u, AtLevel h d U up₂ qs ∧ u ∈ U ∧ u.page = p) := by
  rcases lt_trichotomy d up.length with hd | rfl | hd
  · obtain ⟨U, up₂, qs, heq, hat⟩ := hsh.level_inner hd
    rw [heq] at hp
    obtain ⟨u, hu, rfl⟩ := List.mem_map.mp hp
    exact Or.inr ⟨hd, U, up₂, qs, u, hat, hu, rfl⟩
  · rw [hsh.level_leaf] at hp
    obtain ⟨n, hn, rfl⟩ := List.mem_map.mp hp
    exact Or.inl ⟨rfl, n, hn, rfl⟩
  · rw [hsh.level_nil hd] at hp
    cases hp

theorem AtLevel.root (hat : AtLevel h d U up₂ qs) (hu : u ∈ U) (hne : u.page ≠ h.rootPage) : up₂ ≠ [] := by
  rintro rfl
  obtain ⟨r, hr, -, hroot⟩ := hat.upper
  have := mem_pagesOf hu
  rw [hr, List.mem_singleton] at this
  exact hne (this.trans hroot.symm)

theorem Shape.root (hsh : Shape h L up) {n : Leaf K} (hn : n ∈ L) (hne : n.page ≠ h.rootPage) : up ≠ [] := by
  rintro rfl
  obtain ⟨r, hr, -, hroot⟩ := hsh.placed.upper
  have := mem_leafPages hn
  rw [hr, List.mem_singleton] at this
  exact hne (this.trans hroot.symm)

/-- The nodes of a level hold increasing keys. -/
theorem AtLevel.ordered (hat : AtLevel h d U up₂ qs) :
    (∀ u ∈ U, (u.keys.map Prod.fst).Pairwise (· < ·)) ∧
      U.Pairwise fun u v => ∀ x ∈ u.keys, ∀ y ∈ v.keys, x.1 < y.1 := by
  have hlen := hat.upper.seps_length
  have hsub : List.Sublist (keysOf U).flatten (seps (U :: up₂)) := flatten_sublist (by simpa using hlen)
  have hflat := hat.increasing.sublist (hsub.map Prod.fst)
  rw [List.pairwise_map, List.pairwise_flatten] at hflat
  refine ⟨fun u hu => ?_, ?_⟩
  · rw [List.pairwise_map]
    exact hflat.1 u.keys (List.mem_map_of_mem hu)
  · have := hflat.2
    rwa [keysOf, List.pairwise_map] at this

/-- The keys below a child of a node lie between the separators around the child. -/
theorem AtLevel.between (hat : AtLevel h d U up₂ qs) (hu : u ∈ U) {i : Nat} {c : Rid}
    (hc : u.rids[i]? = some c) (hq : q ∈ h.below [c.pageNo] e) {m : IxNode K} (hm : h.pages q = some m)
    {k : K} (hk : k ∈ m.keys) :
    (∀ s ∈ u.keys.take i, s.1 ≤ k) ∧ ∀ s ∈ u.keys.drop i, k < s.1 := by
  obtain ⟨UA, UB, rfl⟩ := List.append_of_mem hu
  obtain ⟨hi, rfl⟩ := List.getElem?_eq_some_iff.mp hc
  have hstu := hat.level.stored u (by simp)
  have hlen := hat.upper.seps_length
  simp only [pagesOf_length, List.length_append, List.length_cons] at hlen
  have hrids : u.rids = u.rids.take i ++ u.rids[i] :: u.rids.drop (i + 1) := by simp
  have hlenr := hstu.length
  obtain ⟨hle, hlt⟩ := hat.bounded.child hat.level hrids (List.take_append_drop i u.keys).symm
    (by rw [List.length_take, List.length_take]; omega)
    (List.take_append_drop UA.length (seps up₂)).symm (by rw [List.length_take]; omega) hq hm hk
  exact ⟨fun s hs => hle s (List.mem_append_right _ hs), fun s hs => hlt s (List.mem_append_left _ hs)⟩

/-- A tree is balanced. -/
theorem Tree.balanced (ht : Tree h L up) : Balanced h up.length := by
  have hsh := ht.toShape
  refine ⟨?_, ?_, ?_, ?_, ?_, ?_, ?_, ?_, ?_, ?_, ?_⟩
  · intro d p hp
    rcases hsh.cases_level hp with ⟨rfl, n, hn, rfl⟩ | ⟨hd, U, up₂, qs, u, hat, hu, rfl⟩
    · obtain ⟨m, hm, heq⟩ := Option.map_eq_some_iff.mp (hsh.content n hn)
      exact ⟨m, hm, by simp only [Prod.mk.injEq] at heq; simp [heq]⟩
    · obtain ⟨m, hm, heq⟩ := Option.map_eq_some_iff.mp (hat.level.stored u hu).content
      exact ⟨m, hm, by simp only [Prod.mk.injEq] at heq; simp [heq, hd.ne]⟩
  · intro d p hp m hm
    rcases hsh.cases_level hp with ⟨rfl, n, hn, rfl⟩ | ⟨hd, U, up₂, qs, u, hat, hu, rfl⟩
    · obtain ⟨-, hkeys, -⟩ := pages_eq hm (hsh.content n hn)
      have hsort := hsh.pairwise
      rw [entriesOf, List.pairwise_flatMap] at hsort
      rw [hkeys, Leaf.keys, List.pairwise_map]
      exact hsort.1 n hn
    · obtain ⟨-, hkeys, -⟩ := pages_eq hm (hat.level.stored u hu).content
      rw [hkeys]
      exact hat.ordered.1 u hu
  · intro d p hp m hm hleaf i c hc e q hq m' hm' k hk
    rcases hsh.cases_level hp with ⟨rfl, n, hn, rfl⟩ | ⟨hd, U, up₂, qs, u, hat, hu, rfl⟩
    · rw [(pages_eq hm (hsh.content n hn)).1] at hleaf
      cases hleaf
    · obtain ⟨-, hkeys, hrids⟩ := pages_eq hm (hat.level.stored u hu).content
      rw [hrids] at hc
      rw [hkeys]
      obtain ⟨hle, hlt⟩ := hat.between hu hc hq hm' hk
      refine ⟨fun s hi hs => ?_, fun s hs => ?_⟩
      · rw [List.getElem?_map, Option.map_eq_some_iff] at hs
        obtain ⟨x, hx, rfl⟩ := hs
        refine hle x (List.mem_iff_getElem?.mpr ⟨i - 1, ?_⟩)
        rw [List.getElem?_take, if_pos (by omega), hx]
      · rw [List.getElem?_map, Option.map_eq_some_iff] at hs
        obtain ⟨x, hx, rfl⟩ := hs
        refine hlt x (List.mem_iff_getElem?.mpr ⟨0, ?_⟩)
        rw [List.getElem?_drop, Nat.add_zero, hx]
  · intro d p hp m hm hleaf
    rcases hsh.cases_level hp with ⟨rfl, n, hn, rfl⟩ | ⟨hd, U, up₂, qs, u, hat, hu, rfl⟩
    · obtain ⟨-, hkeys, hrids⟩ := pages_eq hm (hsh.content n hn)
      rw [IxNode.getSize, hkeys, hrids, Leaf.keys_length, Leaf.rids_length]
      exact ⟨rfl, ht.leaf_le n hn, fun hne => ht.leaf_ge (hsh.root hn hne) n hn⟩
    · rw [(pages_eq hm (hat.level.stored u hu).content).1] at hleaf
      cases hleaf
  · intro d p hp m hm hleaf
    rcases hsh.cases_level hp with ⟨rfl, n, hn, rfl⟩ | ⟨hd, U, up₂, qs, u, hat, hu, rfl⟩
    · rw [(pages_eq hm (hsh.content n hn)).1] at hleaf
      cases hleaf
    · obtain ⟨-, hkeys, hrids⟩ := pages_eq hm (hat.level.stored u hu).content
      obtain ⟨hmax, hmin⟩ := hat.sized.1 u hu
      have hord := ht.order
      rw [IxNode.getSize, hkeys, hrids, List.length_map]
      refine ⟨(hat.level.stored u hu).length, by omega, fun hne => ?_⟩
      rwa [if_neg (hat.root hu hne)] at hmin
  · intro d p hp c hc m hm
    rcases hsh.cases_level hp with ⟨rfl, n, hn, rfl⟩ | ⟨hd, U, up₂, qs, u, hat, hu, rfl⟩
    · rw [leaf_children (hsh.content n hn)] at hc
      cases hc
    · have hst := hat.level.stored u hu
      rw [hst.children] at hc
      simpa [par, hm] using hst.par c hc
  · intro n hn
    have hroot : h.par h.rootPage = some noPage := by
      have hlevel : h.level 0 = [h.rootPage] := rfl
      rcases hsh.cases_level (show h.rootPage ∈ h.level 0 by simp [hlevel]) with
        ⟨h0, -⟩ | ⟨hd, U, up₂, qs, u, hat, hu, hpage⟩
      · obtain rfl := List.length_eq_zero_iff.mp h0.symm
        obtain ⟨r, -, hr, hroot⟩ := hsh.placed.upper
        rwa [hroot]
      · obtain rfl := List.length_eq_zero_iff.mp hat.length
        obtain ⟨r, -, hr, hroot⟩ := hat.upper
        rwa [hroot]
    simpa [par, hn] using hroot
  · intro d
    rcases lt_trichotomy d up.length with hd | rfl | hd
    · obtain ⟨U, up₂, qs, heq, hat⟩ := hsh.level_inner hd
      rw [heq]
      exact ⟨hat.nodup, hat.level.linked⟩
    · rw [hsh.level_leaf]
      exact ⟨hsh.placed.ps_nodup, hsh.linked⟩
    · rw [hsh.level_nil hd]
      exact ⟨List.nodup_nil, trivial⟩
  · intro d
    rcases lt_trichotomy d up.length with hd | rfl | hd
    · obtain ⟨U, up₂, qs, heq, hat⟩ := hsh.level_inner hd
      rw [heq, pagesOf, List.pairwise_map]
      refine hat.ordered.2.imp_of_mem fun hu hv huv n m hn hm k hk k' hk' => ?_
      rw [(pages_eq hn (hat.level.stored _ hu).content).2.1] at hk
      rw [(pages_eq hm (hat.level.stored _ hv).content).2.1] at hk'
      obtain ⟨x, hx, rfl⟩ := List.mem_map.mp hk
      obtain ⟨y, hy, rfl⟩ := List.mem_map.mp hk'
      exact huv x hx y hy
    · have hsort := hsh.pairwise
      rw [entriesOf, List.pairwise_flatMap] at hsort
      rw [hsh.level_leaf, leafPages, List.pairwise_map]
      refine hsort.2.imp_of_mem fun hu hv huv n m hn hm k hk k' hk' => ?_
      rw [(pages_eq hn (hsh.content _ hu)).2.1] at hk
      rw [(pages_eq hm (hsh.content _ hv)).2.1] at hk'
      obtain ⟨x, hx, rfl⟩ := List.mem_map.mp hk
      obtain ⟨y, hy, rfl⟩ := List.mem_map.mp hk'
      exact huv x hx y hy
    · rw [hsh.level_nil hd]
      exact List.Pairwise.nil
  · rw [hsh.level_leaf]
    exact hsh.firstLeaf
  · rw [hsh.level_leaf]
    exact hsh.lastLeaf

end Tree

/-- In every state that calls on an index can reach, the tree is balanced. -/
theorem index_balanced (cols : List IxCol) (order : Nat) (hord : 3 ≤ order)
    (calls : List (IxCall (KeyBytes cols))) :
    ∃ answers h height, (IxManager.createIndex order).run calls = .ok (answers, h) ∧
      h.btreeOrder = order ∧ Balanced h height := by
  obtain ⟨h, hcode, ⟨L, up, ht, -⟩, horder⟩ := (createIndex_represents hord).run calls
  exact ⟨_, h, up.length, hcode, horder, ht.balanced⟩

theorem index_balanced_int :
    3 ≤ 3 ∧ ∃ answers h height, (IxManager.createIndex 3).run
        [.insertEntry (intKey 1) ⟨1, 0⟩, .insertEntry (intKey 2) ⟨1, 1⟩, .insertEntry (intKey 3) ⟨1, 2⟩,
          .insertEntry (intKey 4) ⟨1, 3⟩, .deleteEntry (intKey 2)] = .ok (answers, h) ∧
      h.btreeOrder = 3 ∧ Balanced h height :=
  ⟨by decide, index_balanced [.int] 3 (by decide) _⟩

end Rmdb
