-- SUMMARY: Redistribution between two neighbours of an internal level.
import Mathlib.Data.List.Forall2
import Rmdb.Index.Repair

/-!
# Redistribution

Two neighbours of a level even out: children move from one to the other, one at a time.
The separators that the code recomputes on the way become the first key to their right
(`Refreshed`), all others stay. The separator between the two neighbours themselves is
only repaired at the end; until then the proofs carry it along beside the two nodes.
-/

namespace Rmdb

open LinkedList Weave IxIndexHandle

variable {K : Type}

-- ---------------------------------------------------------------------------
-- Refreshed separators
-- ---------------------------------------------------------------------------

/-- Each separator of `S'` is that of `S`, or it is the first key on its right. -/
def Refreshed (c : PageNo → Option (Bool × List K × List Rid)) (S S' : List (K × PageNo)) : Prop :=
  List.Forall₂ (fun a b => b.2 = a.2 ∧ (b.1 = a.1 ∨ FirstKey c b.2 b.1)) S S'

variable {c c' : PageNo → Option (Bool × List K × List Rid)} {S S' S'' T T' : List (K × PageNo)}

theorem Refreshed.refl (S : List (K × PageNo)) : Refreshed c S S :=
  List.forall₂_same.mpr fun _ _ => ⟨rfl, Or.inl rfl⟩

theorem Refreshed.trans (h₁ : Refreshed c S S') (h₂ : Refreshed c S' S'') : Refreshed c S S'' := by
  unfold Refreshed at *
  induction h₁ generalizing S'' with
  | nil => exact h₂
  | @cons a b S S' hab _ ih =>
    obtain ⟨d, S₃, hbd, hrest, rfl⟩ := List.forall₂_cons_left_iff.mp h₂
    refine .cons ⟨hbd.1.trans hab.1, ?_⟩ (ih hrest)
    rcases hbd.2 with heq | hfirst
    · rw [heq, hbd.1]
      exact hab.2
    · exact Or.inr hfirst

theorem Refreshed.append (h₁ : Refreshed c S S') (h₂ : Refreshed c T T') :
    Refreshed c (S ++ T) (S' ++ T') := List.rel_append h₁ h₂

theorem Refreshed.first {a : K × PageNo} {k : K} (hk : FirstKey c a.2 k) (h : Refreshed c S S') :
    Refreshed c (a :: S) ((k, a.2) :: S') := .cons ⟨rfl, Or.inr hk⟩ h

theorem Refreshed.keep (a : K × PageNo) (h : Refreshed c S S') : Refreshed c (a :: S) (a :: S') :=
  .cons ⟨rfl, Or.inl rfl⟩ h

theorem Refreshed.map_snd (h : Refreshed c S S') : S'.map Prod.snd = S.map Prod.snd := by
  unfold Refreshed at h
  induction h with
  | nil => rfl
  | cons hab _ ih => simp [hab.1, ih]

theorem Refreshed.congr (h : Refreshed c S S') (hc : ∀ x ∈ S.map Prod.snd, c' x = c x) :
    Refreshed c' S S' := by
  unfold Refreshed at h
  induction h with
  | nil => exact .nil
  | @cons a b S S' hab _ ih =>
    refine .cons ⟨hab.1, hab.2.imp id fun hk => ?_⟩ (ih fun x hx => hc x (by simp at hx ⊢; tauto))
    unfold FirstKey at hk ⊢
    rwa [hab.1, hc a.2 (by simp), ← hab.1]

theorem Refreshed.tail {X : List (List (K × PageNo))} (h : Refreshed c T T') :
    Refreshed c (tail T X) (tail T' X) := by
  unfold Refreshed at h
  induction h generalizing X with
  | nil => exact .refl _
  | @cons a b T T' hab _ ih =>
    cases X with
    | nil => exact .refl _
    | cons x X => exact .cons hab ((Refreshed.refl x).append ih)

theorem Refreshed.weave {X : List (List (K × PageNo))} (h : Refreshed c T T') :
    Refreshed c (weave X T) (weave X T') := by
  cases X with
  | nil => exact .refl _
  | cons x X => exact (Refreshed.refl x).append h.tail

-- ---------------------------------------------------------------------------
-- The first leaves below a level
-- ---------------------------------------------------------------------------

/-- The leaves `ls` are where the subtrees of the pages `ps` begin, `d` levels down. -/
def Mins (c : PageNo → Option (Bool × List K × List Rid)) (D : Set PageNo) (d : Nat)
    (ps ls : List PageNo) : Prop :=
  List.Forall₂ (MinLeaf c D d) ps ls

variable {D D' : Set PageNo} {d : Nat} {ps ps' ls ls' : List PageNo} {h h' : IxIndexHandle K}

theorem Mins.mem (hm : Mins c D d ps ls) {x : PageNo} (hx : x ∈ ps) : x ∈ D := by
  unfold Mins at hm
  induction hm with
  | nil => cases hx
  | cons hab _ ih =>
    rcases List.mem_cons.mp hx with rfl | hx
    · exact hab.mem
    · exact ih hx

theorem Mins.leaf_mem (hm : Mins c D d ps ls) {x : PageNo} (hx : x ∈ ls) : x ∈ D := by
  unfold Mins at hm
  induction hm with
  | nil => cases hx
  | cons hab _ ih =>
    rcases List.mem_cons.mp hx with rfl | hx
    · exact hab.leaf_mem
    · exact ih hx

theorem Mins.congr (hm : Mins c D d ps ls) (hc : ∀ x ∈ D, c' x = c x) (hD : D ⊆ D') :
    Mins c' D' d ps ls :=
  List.Forall₂.imp (fun _ _ h => h.congr hc hD) hm

theorem mins_append (hlen : ps.length = ls.length) :
    Mins c D d (ps ++ ps') (ls ++ ls') ↔ Mins c D d ps ls ∧ Mins c D d ps' ls' := by
  refine ⟨fun h => ?_, fun h => List.rel_append h.1 h.2⟩
  induction ps generalizing ls with
  | nil =>
    cases List.length_eq_zero_iff.mp hlen.symm
    exact ⟨.nil, h⟩
  | cons p ps ih =>
    cases ls with
    | nil => cases hlen
    | cons l ls =>
      obtain ⟨hpl, hrest⟩ := List.forall₂_cons.mp h
      obtain ⟨h₁, h₂⟩ := ih (Nat.succ.inj hlen) hrest
      exact ⟨.cons hpl h₁, h₂⟩

/-- From the children to the nodes above them. -/
theorem Mins.above {U : List (Inner K)} {y : PageNo} (hst : ∀ u ∈ U, u.Stored h)
    (hT : T.length + 1 = U.length)
    (hm : Mins h.content D d (kidsOf U) (y :: (weave (keysOf U) T).map Prod.snd)) :
    Mins h.content (D ∪ {x | x ∈ pagesOf U}) (d + 1) (pagesOf U) (y :: T.map Prod.snd) := by
  induction U generalizing T y with
  | nil => simp at hT
  | cons u U ih =>
    have hstu := hst u List.mem_cons_self
    obtain ⟨r, rs, hr⟩ := List.exists_cons_of_length_eq_add_one hstu.length
    have hlen : u.kids.length = (y :: u.keys.map Prod.snd).length := by
      rw [Inner.kids_length, hstu.length]
      simp
    rw [kidsOf_cons, keysOf_cons, weave_cons, List.map_append, ← List.cons_append,
      mins_append hlen] at hm
    have hfirst : MinLeaf h.content (D ∪ {x | x ∈ pagesOf (u :: U)}) (d + 1) u.page y := by
      refine ⟨Or.inr (by simp), u.keys.map Prod.fst, r, rs, by rw [hstu.content, hr], ?_⟩
      have hm₁ := hm.1
      rw [Inner.kids, hr, List.map_cons] at hm₁
      exact (List.forall₂_cons.mp hm₁).1.congr (fun _ _ => rfl) Set.subset_union_left
    cases T with
    | nil =>
      obtain rfl : U = [] := by simpa using hT
      exact .cons hfirst .nil
    | cons t T =>
      cases U with
      | nil => simp at hT
      | cons v U =>
        have hm₂ := hm.2
        rw [keysOf_cons, tail_cons, List.map_cons, ← weave_cons, ← keysOf_cons] at hm₂
        have hrest := ih (fun w hw => hst w (List.mem_cons_of_mem u hw)) (by simpa using hT) hm₂
        refine .cons hfirst (hrest.congr (fun _ _ => rfl) ?_)
        rintro x (hx | hx)
        · exact Or.inl hx
        · exact Or.inr (List.mem_cons_of_mem _ hx)

-- ---------------------------------------------------------------------------
-- Moving one child
-- ---------------------------------------------------------------------------

variable {l r l' r' l'' r'' : Inner K} {x x' x'' : K × PageNo} {y : PageNo}
  {h'' h₁ : IxIndexHandle K}

/-- Two neighbours with the separator `x` between them, on their way to share their
children. -/
structure Sharing (h : IxIndexHandle K) (D : Set PageNo) (d : Nat) (l r : Inner K) (y : PageNo)
    (x : K × PageNo) : Prop where
  left : l.Stored h
  right : r.Stored h
  ne : l.page ≠ r.page
  nodup : (l.kids ++ r.kids).Nodup
  left_out : l.page ∉ D
  right_out : r.page ∉ D
  mins : Mins h.content D d (l.kids ++ r.kids) (y :: (l.keys ++ x :: r.keys).map Prod.snd)
  firsts : ∀ p ∈ (l.keys ++ x :: r.keys).map Prod.snd, ∃ k, FirstKey h.content p k

/-- What two neighbours have become after some children have moved. -/
structure Shared (h : IxIndexHandle K) (l r : Inner K) (x : K × PageNo) (h' : IxIndexHandle K)
    (l' r' : Inner K) (x' : K × PageNo) : Prop where
  left_page : l'.page = l.page
  right_page : r'.page = r.page
  rids : l'.rids ++ r'.rids = l.rids ++ r.rids
  refreshed : Refreshed h.content (l.keys ++ x :: r.keys) (l'.keys ++ x' :: r'.keys)
  content : ∀ z, z ≠ l.page → z ≠ r.page → h'.content z = h.content z
  link : h'.link = h.link
  par : ∀ z, z ∉ l.kids ++ r.kids → h'.par z = h.par z
  same : SameHdr h h'

theorem Shared.refl : Shared h l r x h l r x :=
  ⟨rfl, rfl, rfl, .refl _, fun _ _ _ => rfl, rfl, fun _ _ => rfl, .refl h⟩

theorem Shared.kids (hs : Shared h l r x h' l' r' x') : l'.kids ++ r'.kids = l.kids ++ r.kids := by
  rw [Inner.kids, Inner.kids, ← List.map_append, hs.rids, List.map_append, ← Inner.kids, ← Inner.kids]

theorem Shared.trans (hsh : Sharing h D d l r y x) (h₁ : Shared h l r x h' l' r' x')
    (h₂ : Shared h' l' r' x' h'' l'' r'' x'') : Shared h l r x h'' l'' r'' x'' where
  left_page := h₂.left_page.trans h₁.left_page
  right_page := h₂.right_page.trans h₁.right_page
  rids := h₂.rids.trans h₁.rids
  refreshed := by
    refine h₁.refreshed.trans (h₂.refreshed.congr fun z hz => ?_)
    -- The first leaves lie below both nodes, where nothing has changed.
    have hzD : z ∈ D := by
      rw [h₁.refreshed.map_snd] at hz
      exact hsh.mins.leaf_mem (List.mem_cons_of_mem y hz)
    refine (h₁.content z ?_ ?_).symm
    · rintro rfl
      exact hsh.left_out hzD
    · rintro rfl
      exact hsh.right_out hzD
  content z hl hr := by
    rw [h₂.content z (by rwa [h₁.left_page]) (by rwa [h₁.right_page]), h₁.content z hl hr]
  link := h₂.link.trans h₁.link
  par z hz := by
    rw [h₂.par z (by rwa [h₁.kids]), h₁.par z hz]
  same := h₁.same.trans h₂.same

/-- The two nodes are written back with their children dealt out anew. -/
theorem Sharing.move (hs : Sharing h D d l r y x) (hl : l'.page = l.page) (hr : r'.page = r.page)
    (hrids : l'.rids ++ r'.rids = l.rids ++ r.rids) (hlenl : l'.rids.length = l'.keys.length + 1)
    (hlenr : r'.rids.length = r'.keys.length + 1)
    (href : Refreshed h.content (l.keys ++ x :: r.keys) (l'.keys ++ x' :: r'.keys))
    (hcontent : h'.content = Function.update (Function.update h.content l.page
      (some (false, l'.keys.map Prod.fst, l'.rids))) r.page (some (false, r'.keys.map Prod.fst, r'.rids)))
    (hlink : h'.link = h.link) (hpar : ∀ z, z ∉ l.kids ++ r.kids → h'.par z = h.par z)
    (hparl : ∀ z ∈ l'.kids, h'.par z = some l.page) (hparr : ∀ z ∈ r'.kids, h'.par z = some r.page)
    (hsame : SameHdr h h') :
    Sharing h' D d l' r' y x' ∧ Shared h l r x h' l' r' x' := by
  have hother : ∀ z, z ≠ l.page → z ≠ r.page → h'.content z = h.content z := by
    intro z hzl hzr
    rw [hcontent, Function.update_of_ne hzr, Function.update_of_ne hzl]
  have hD : ∀ z ∈ D, h'.content z = h.content z := by
    intro z hz
    refine hother z ?_ ?_
    · rintro rfl
      exact hs.left_out hz
    · rintro rfl
      exact hs.right_out hz
  have hshared : Shared h l r x h' l' r' x' := ⟨hl, hr, hrids, href, hother, hlink, hpar, hsame⟩
  refine ⟨⟨⟨?_, hlenl, by rwa [hl]⟩, ⟨?_, hlenr, by rwa [hr]⟩, by rw [hl, hr]; exact hs.ne, ?_, ?_, ?_,
    ?_, ?_⟩, hshared⟩
  · rw [hl, hcontent, Function.update_of_ne hs.ne, Function.update_self]
  · rw [hr, hcontent, Function.update_self]
  · rw [hshared.kids]
    exact hs.nodup
  · rw [hl]
    exact hs.left_out
  · rw [hr]
    exact hs.right_out
  · rw [hshared.kids, href.map_snd]
    exact hs.mins.congr hD subset_rfl
  · intro p hp
    rw [href.map_snd] at hp
    obtain ⟨k, hk⟩ := hs.firsts p hp
    refine ⟨k, ?_⟩
    unfold FirstKey at hk ⊢
    rwa [hD p (hs.mins.leaf_mem (List.mem_cons_of_mem y hp))]

/-- Two pages are written; their links and parents stay. -/
theorem setTwo {nl nr : IxNode K} {pl pr : PageNo} {KL KR : List K} {RL RR : List Rid}
    (hnl : h.fetchNode pl = .ok nl) (hnr : h.fetchNode pr = .ok nr) (hne : pl ≠ pr)
    (hh₁ : (h.setNode pl { nl with keys := KL, rids := RL }).setNode pr
      { nr with keys := KR, rids := RR } = h₁) :
    h₁.content = Function.update (Function.update h.content pl (some (nl.isLeaf, KL, RL))) pr
        (some (nr.isLeaf, KR, RR)) ∧
      h₁.link = h.link ∧ h₁.par = h.par ∧ SameHdr h h₁ := by
  subst hh₁
  have hnr' : (h.setNode pl { nl with keys := KL, rids := RL }).fetchNode pr = .ok nr := by
    rw [fetchNode_setNode_of_ne hne.symm, hnr]
  refine ⟨by rw [content_setNode, content_setNode], ?_, ?_, (SameHdr.setNode ..).trans (.setNode ..)⟩
  · rw [link_setNode_keep hnr', link_setNode_keep hnl]
  · rw [par_setNode_keep hnr', par_setNode_keep hnl]

/-- The smallest key below the right neighbour. -/
theorem Sharing.minKey (hs : Sharing h D d l r y x) (hfuel : d + 1 < h.fuel) :
    ∃ k, h.minKey r.page = .ok k ∧ FirstKey h.content x.2 k := by
  obtain ⟨k, hk⟩ := hs.firsts x.2 (by simp)
  obtain ⟨c, R, hR⟩ := List.exists_cons_of_length_eq_add_one hs.right.length
  have hm := hs.mins
  have hlen : l.kids.length = (y :: l.keys.map Prod.snd).length := by
    rw [Inner.kids_length, hs.left.length]
    simp
  rw [List.map_append, ← List.cons_append, mins_append hlen] at hm
  have hm₂ := hm.2
  rw [Inner.kids, hR, List.map_cons, List.map_cons] at hm₂
  have hmin : MinLeaf h.content (insert r.page D) (d + 1) r.page x.2 :=
    ⟨Set.mem_insert _ _, r.keys.map Prod.fst, c, R, by rw [hs.right.content, hR],
      (List.forall₂_cons.mp hm₂).1.congr (fun _ _ => rfl) (Set.subset_insert _ _)⟩
  exact ⟨k, minKey_eq hmin hk hfuel, hk⟩

/-- One turn of `internalToLeft`: the first child of the right node moves to the left node. -/
theorem Sharing.moveLeft (hs : Sharing h D d l r y x) (hfuel : d + 1 < h.fuel)
    {k : K × PageNo} {ks : List (K × PageNo)} (hk : r.keys = k :: ks)
    (hlt : l.keys.length + 1 < r.keys.length) :
    ∃ h' l' r', (∀ fuel, internalToLeft (fuel + 1) h l.page r.page = internalToLeft fuel h' l.page r.page) ∧
      Sharing h' D d l' r' y k ∧ Shared h l r x h' l' r' k ∧
      l'.keys.length = l.keys.length + 1 ∧ r'.keys.length + 1 = r.keys.length := by
  obtain ⟨key, hmin, hfirst⟩ := hs.minKey hfuel
  obtain ⟨c, R, hR⟩ := List.exists_cons_of_length_eq_add_one hs.right.length
  obtain ⟨nl, hnl, hlleaf, hlkeys, hlrids, -⟩ := fetchNode_of_content hs.left.content
  obtain ⟨nr, hnr, hrleaf, hrkeys, hrrids, -⟩ := fetchNode_of_content hs.right.content
  generalize hh₁ : (h.setNode l.page
      { nl with keys := l.keys.map Prod.fst ++ [key], rids := l.rids ++ [c] }).setNode r.page
      { nr with keys := ks.map Prod.fst, rids := R } = h₁
  obtain ⟨hc₁, hl₁, hp₁, hs₁⟩ := setTwo hnl hnr hs.ne hh₁
  have hleft₁ : h₁.content l.page = some (false, l.keys.map Prod.fst ++ [key], l.rids ++ c :: []) := by
    rw [hc₁, Function.update_of_ne hs.ne, Function.update_self, hlleaf]
  have hcpar : h.par c.pageNo = some r.page := hs.right.par _ (by simp [Inner.kids, hR])
  obtain ⟨h₂, hmc, hc₂, hl₂, hp₂, hs₂⟩ := maintainChild_spec hleft₁ (by rw [hp₁, hcpar]; rfl)
  have hnd := hs.nodup
  simp only [Inner.kids, hR, List.map_cons, List.nodup_append, List.nodup_cons] at hnd
  obtain ⟨-, ⟨hcR, -⟩, hdisj⟩ := hnd
  -- Only the child that moved has a new parent.
  have hpar₂ : ∀ z, z ≠ c.pageNo → h₂.par z = h.par z := by
    intro z hz
    rw [hp₂, adopt, if_neg (by simpa using hz), hp₁]
  refine ⟨h₂, ⟨l.page, l.keys ++ [(key, x.2)], l.rids ++ [c]⟩, ⟨r.page, ks, R⟩, ?_,
    (and_assoc (b := Shared ..)).mp ⟨hs.move rfl rfl ?_ ?_ ?_ ?_ ?_ ?_ ?_ ?_ ?_ ?_, ?_, ?_⟩⟩
  · intro fuel
    have hsize : l.rids.length = l.keys.length + 1 := hs.left.length
    have hlt' : l.keys.length + 1 < (k.1 :: ks.map Prod.fst).length := by simpa [hk] using hlt
    rw [hsize] at hmc
    simp only [internalToLeft, hnl, hnr, ok_bind, IxNode.getSize, hlkeys, hrkeys, List.length_map,
      hlt', if_true, hmin, hrrids, hR, arrayGet, List.getElem?_cons_zero, hlrids, hk, List.map_cons,
      List.drop_succ_cons, List.drop_zero, hh₁, hmc]
  · simp [hR]
  · simp [hs.left.length]
  · have := hs.right.length
    simp only [hR, hk, List.length_cons] at this
    simpa using this
  · rw [hk]
    simpa using (Refreshed.refl l.keys).append (Refreshed.first hfirst (Refreshed.refl (k :: ks)))
  · rw [hc₂, hc₁, hlleaf, hrleaf]
    simp
  · rw [hl₂, hl₁]
  · intro z hz
    refine hpar₂ z ?_
    rintro rfl
    exact hz (by simp [Inner.kids, hR])
  · intro z hz
    rcases (show z ∈ l.kids ∨ z = c.pageNo by simpa [Inner.kids, List.mem_append] using hz) with hz | rfl
    · rw [hpar₂ z, hs.left.par z hz]
      rintro rfl
      exact hdisj c.pageNo hz c.pageNo List.mem_cons_self rfl
    · rw [hp₂, adopt, if_pos (by simp)]
  · intro z hz
    rw [hpar₂ z, hs.right.par z]
    · rw [Inner.kids, hR]
      exact List.mem_cons_of_mem _ hz
    · rintro rfl
      exact hcR hz
  · exact hs₁.trans hs₂
  · simp
  · simp [hk]

/-- One turn of `internalToRight`: the last child of the left node moves to the right node. -/
theorem Sharing.moveRight (hs : Sharing h D d l r y x) (hfuel : d + 1 < h.fuel)
    {k : K × PageNo} {ks : List (K × PageNo)} (hk : l.keys = ks ++ [k])
    (hlt : r.keys.length + 1 < l.keys.length) :
    ∃ h' l' r', (∀ fuel, internalToRight (fuel + 1) h l.page r.page = internalToRight fuel h' l.page r.page) ∧
      Sharing h' D d l' r' y k ∧ Shared h l r x h' l' r' k ∧
      l'.keys.length + 1 = l.keys.length ∧ r'.keys.length = r.keys.length + 1 := by
  obtain ⟨key, hmin, hfirst⟩ := hs.minKey hfuel
  obtain ⟨R, c, hR⟩ : ∃ R c, l.rids = R ++ [c] := by
    rcases List.eq_nil_or_concat' l.rids with h0 | hex
    · have := hs.left.length
      simp [h0] at this
    · exact hex
  have hRlen : R.length = l.keys.length := by
    have := hs.left.length
    simpa [hR] using this
  obtain ⟨nl, hnl, hlleaf, hlkeys, hlrids, -⟩ := fetchNode_of_content hs.left.content
  obtain ⟨nr, hnr, hrleaf, hrkeys, hrrids, -⟩ := fetchNode_of_content hs.right.content
  generalize hh₁ : (h.setNode l.page { nl with keys := ks.map Prod.fst, rids := R }).setNode r.page
      { nr with keys := key :: r.keys.map Prod.fst, rids := c :: r.rids } = h₁
  obtain ⟨hc₁, hl₁, hp₁, hs₁⟩ := setTwo hnl hnr hs.ne hh₁
  have hright₁ : h₁.content r.page = some (false, key :: r.keys.map Prod.fst, [] ++ c :: r.rids) := by
    rw [hc₁, Function.update_self, hrleaf]
    rfl
  have hcpar : h.par c.pageNo = some l.page := hs.left.par _ (by simp [Inner.kids, hR])
  obtain ⟨h₂, hmc, hc₂, hl₂, hp₂, hs₂⟩ := maintainChild_spec hright₁ (by rw [hp₁, hcpar]; rfl)
  have hnd := hs.nodup
  simp only [Inner.kids, hR, List.map_append, List.map_cons, List.map_nil, List.nodup_append] at hnd
  obtain ⟨⟨-, -, hcR⟩, -, hdisj⟩ := hnd
  have hpar₂ : ∀ z, z ≠ c.pageNo → h₂.par z = h.par z := by
    intro z hz
    rw [hp₂, adopt, if_neg (by simpa using hz), hp₁]
  refine ⟨h₂, ⟨l.page, ks, R⟩, ⟨r.page, (key, x.2) :: r.keys, c :: r.rids⟩, ?_,
    (and_assoc (b := Shared ..)).mp ⟨hs.move rfl rfl ?_ ?_ ?_ ?_ ?_ ?_ ?_ ?_ ?_ ?_, ?_, ?_⟩⟩
  · intro fuel
    have htake : (l.keys.map Prod.fst).take (l.keys.length - 1) = ks.map Prod.fst := by simp [hk]
    have htaker : l.rids.take l.keys.length = R := by simp [hR, ← hRlen]
    have hget : arrayGet l.rids l.keys.length = .ok c := by simp [arrayGet, hR, ← hRlen]
    rw [List.length_nil] at hmc
    simp only [internalToRight, hnl, hnr, ok_bind, IxNode.getSize, hlkeys, hrkeys, List.length_map,
      if_pos hlt, hmin, hlrids, hget, htake, htaker, hrrids, hh₁, hmc]
  · simp [hR]
  · simp [hRlen, hk]
  · simp [hs.right.length]
  · rw [hk]
    simpa using (Refreshed.refl (ks ++ [k])).append (Refreshed.first hfirst (Refreshed.refl r.keys))
  · rw [hc₂, hc₁, hlleaf, hrleaf]
    simp
  · rw [hl₂, hl₁]
  · intro z hz
    refine hpar₂ z ?_
    rintro rfl
    exact hz (by simp [Inner.kids, hR])
  · intro z hz
    rw [hpar₂ z, hs.left.par z]
    · rw [Inner.kids, hR, List.map_append]
      exact List.mem_append_left _ hz
    · rintro rfl
      exact hcR c.pageNo hz c.pageNo (by simp) rfl
  · intro z hz
    rcases (show z = c.pageNo ∨ z ∈ r.kids by simpa [Inner.kids] using hz) with rfl | hz
    · rw [hp₂, adopt, if_pos (by simp)]
    · rw [hpar₂ z, hs.right.par z hz]
      rintro rfl
      exact hdisj c.pageNo (by simp) c.pageNo hz rfl
  · exact hs₁.trans hs₂
  · simp [hk]
  · simp

/-- `internalToLeft` ends with two nodes of about the same size. -/
theorem internalToLeft_spec {fuel : Nat} (hs : Sharing h D d l r y x) (hd : d + 1 < h.fuel)
    (hsize : l.keys.length ≤ r.keys.length + 1) (hfuel : r.keys.length < fuel) :
    ∃ h' l' r' x', internalToLeft fuel h l.page r.page = .ok h' ∧ Sharing h' D d l' r' y x' ∧
      Shared h l r x h' l' r' x' ∧ l'.keys.length ≤ r'.keys.length + 1 ∧
      r'.keys.length ≤ l'.keys.length + 1 := by
  induction fuel generalizing h l r x with
  | zero => omega
  | succ fuel ih =>
    by_cases hlt : l.keys.length + 1 < r.keys.length
    · obtain ⟨k, ks, hk⟩ : ∃ k ks, r.keys = k :: ks :=
        List.exists_cons_of_ne_nil (by rintro h0; simp [h0] at hlt)
      obtain ⟨h₁, l₁, r₁, heq, hs₁, hsh₁, hl₁, hr₁⟩ := hs.moveLeft hd hk hlt
      obtain ⟨h', l', r', x', hloop, hs', hsh', hbal⟩ := ih hs₁ (by rw [hsh₁.same.fuel]; exact hd)
        (by omega) (by omega)
      refine ⟨h', l', r', x', ?_, hs', hsh₁.trans hs hsh', hbal⟩
      rw [heq, ← hloop, hsh₁.left_page, hsh₁.right_page]
    · obtain ⟨nl, hnl, -, hlkeys, -⟩ := fetchNode_of_content hs.left.content
      obtain ⟨nr, hnr, -, hrkeys, -⟩ := fetchNode_of_content hs.right.content
      refine ⟨h, l, r, x, ?_, hs, .refl, hsize, by omega⟩
      simp [internalToLeft, hnl, hnr, IxNode.getSize, hlkeys, hrkeys, hlt]

/-- `internalToRight` ends with two nodes of about the same size. -/
theorem internalToRight_spec {fuel : Nat} (hs : Sharing h D d l r y x) (hd : d + 1 < h.fuel)
    (hsize : r.keys.length ≤ l.keys.length + 1) (hfuel : l.keys.length < fuel) :
    ∃ h' l' r' x', internalToRight fuel h l.page r.page = .ok h' ∧ Sharing h' D d l' r' y x' ∧
      Shared h l r x h' l' r' x' ∧ l'.keys.length ≤ r'.keys.length + 1 ∧
      r'.keys.length ≤ l'.keys.length + 1 := by
  induction fuel generalizing h l r x with
  | zero => omega
  | succ fuel ih =>
    by_cases hlt : r.keys.length + 1 < l.keys.length
    · obtain ⟨ks, k, hk⟩ : ∃ ks k, l.keys = ks ++ [k] := by
        rcases List.eq_nil_or_concat' l.keys with h0 | hex
        · simp [h0] at hlt
        · exact hex
      obtain ⟨h₁, l₁, r₁, heq, hs₁, hsh₁, hl₁, hr₁⟩ := hs.moveRight hd hk hlt
      obtain ⟨h', l', r', x', hloop, hs', hsh', hbal⟩ := ih hs₁ (by rw [hsh₁.same.fuel]; exact hd)
        (by omega) (by omega)
      refine ⟨h', l', r', x', ?_, hs', hsh₁.trans hs hsh', hbal⟩
      rw [heq, ← hloop, hsh₁.left_page, hsh₁.right_page]
    · obtain ⟨nl, hnl, -, hlkeys, -⟩ := fetchNode_of_content hs.left.content
      obtain ⟨nr, hnr, -, hrkeys, -⟩ := fetchNode_of_content hs.right.content
      refine ⟨h, l, r, x, ?_, hs, .refl, by omega, hsize⟩
      simp [internalToRight, hnl, hnr, IxNode.getSize, hlkeys, hrkeys, hlt]

-- ---------------------------------------------------------------------------
-- Redistribution on an internal level
-- ---------------------------------------------------------------------------

variable {UA UB : List (Inner K)} {up : List (List (Inner K))} {TA TB : List (K × PageNo)}

theorem seps_two (hT : seps up = TA ++ x :: TB) (hTA : TA.length = UA.length) :
    seps ((UA ++ l :: r :: UB) :: up) =
      front (keysOf UA) TA ++ ((l.keys ++ x :: r.keys) ++ tail TB (keysOf UB)) := by
  rw [seps, hT, keysOf_append, keysOf_cons, keysOf_cons, weave_cut (by simpa using hTA)]
  simp

/-- The separator between two neighbours, in the level above. -/
theorem exists_between (hpl : Placed h ps ((UA ++ l :: r :: UB) :: up)) :
    ∃ TA x TB, seps up = TA ++ x :: TB ∧ TA.length = UA.length ∧ TB.length = UB.length := by
  have := hpl.above.upper.seps_length
  simp only [pagesOf_length, List.length_append, List.length_cons] at this
  have hlt : UA.length < (seps up).length := by omega
  exact ⟨(seps up).take UA.length, (seps up)[UA.length], (seps up).drop (UA.length + 1), by simp,
    by rw [List.length_take]; omega, by rw [List.length_drop]; omega⟩

/-- Two neighbours of a level, cut out of it. -/
theorem sharing_of_level (hpl : Placed h ps ((UA ++ l :: r :: UB) :: up))
    (hT : seps up = TA ++ x :: TB) (hTA : TA.length = UA.length)
    (hm : Mins h.content D d ps (y :: (seps ((UA ++ l :: r :: UB) :: up)).map Prod.snd))
    (hD : ∀ z ∈ upPages ((UA ++ l :: r :: UB) :: up), z ∉ D)
    (hfirst : ∀ z ∈ (seps ((UA ++ l :: r :: UB) :: up)).map Prod.snd, ∃ k, FirstKey h.content z k) :
    ∃ y', Sharing h D d l r y' x := by
  obtain ⟨hkids, hst, -⟩ := hpl.upper.1
  have hps : ps = kidsOf UA ++ ((l.kids ++ r.kids) ++ kidsOf UB) := by simp [hkids]
  have hnd := hpl.ps_nodup
  have hpages := hpl.above.ps_nodup
  rw [seps_two hT hTA] at hm hfirst
  -- The first leaves below `UA`, and then the one where `l` begins.
  obtain ⟨ys, y', hys⟩ : ∃ ys y', y :: (front (keysOf UA) TA).map Prod.snd = ys ++ [y'] := by
    rcases List.eq_nil_or_concat' (y :: (front (keysOf UA) TA).map Prod.snd) with h0 | hex
    · cases h0
    · exact hex
  have hlen : (kidsOf UA).length = ys.length := by
    have := congrArg List.length hys
    rw [List.length_cons, List.length_map, front_length (by simpa using hTA),
      ← kidsOf_length fun u hu => (hst u (by simp [hu])).length] at this
    simpa using this
  have hlen' : (l.kids ++ r.kids).length = (y' :: (l.keys ++ x :: r.keys).map Prod.snd).length := by
    simp [(hst l (by simp)).length, (hst r (by simp)).length]
    omega
  refine ⟨y', hst l (by simp), hst r (by simp), ?_, ?_, hD _ (by simp [upPages]), hD _ (by simp [upPages]),
    ?_, ?_⟩
  · rw [pagesOf_append, pagesOf_cons, pagesOf_cons, List.nodup_append, List.nodup_cons] at hpages
    exact fun heq => hpages.2.1.1 (by simp [heq])
  · rw [hps, List.nodup_append, List.nodup_append] at hnd
    exact hnd.2.1.1
  · have hcut : Mins h.content D d (kidsOf UA ++ ((l.kids ++ r.kids) ++ kidsOf UB))
        (ys ++ ((y' :: (l.keys ++ x :: r.keys).map Prod.snd) ++ (tail TB (keysOf UB)).map Prod.snd)) := by
      rw [← hps]
      rw [List.map_append, ← List.cons_append, hys] at hm
      simpa using hm
    rw [mins_append hlen, mins_append hlen'] at hcut
    exact hcut.2.1
  · intro p hp
    exact hfirst p (by simp only [List.map_append, List.mem_append] at hp ⊢; tauto)

/-- The level of two neighbours that have shared their children. -/
theorem Shared.level (hsh : Shared h l r x h' l' r' x') (hpl : Placed h ps ((UA ++ l :: r :: UB) :: up))
    (hl : l'.Stored h') (hr : r'.Stored h') : Level h' ps (UA ++ l' :: r' :: UB) := by
  obtain ⟨hkids, hst, hlk⟩ := hpl.upper.1
  have hps : ps = kidsOf UA ++ ((l.kids ++ r.kids) ++ kidsOf UB) := by simp [hkids]
  have hnd := hpl.ps_nodup
  rw [hps] at hnd
  have hpages := hpl.above.ps_nodup
  have hpages' : (l.page :: r.page :: (pagesOf UA ++ pagesOf UB)).Nodup := by
    refine (List.Perm.nodup_iff ?_).mp hpages
    rw [pagesOf_append, pagesOf_cons, pagesOf_cons]
    exact List.perm_middle.trans (List.perm_middle.cons l.page)
  refine ⟨?_, ?_, ?_⟩
  · have := hsh.kids
    simp only [kidsOf_append, kidsOf_cons, ← List.append_assoc] at this ⊢
    rw [List.append_assoc (kidsOf UA), this, hps]
    simp
  · intro v hv
    rcases (show v ∈ UA ++ UB ∨ v = l' ∨ v = r' by simp at hv ⊢; tauto) with hv | rfl | rfl
    · have hstv := hst v (by simp at hv ⊢; tauto)
      have hvpage : v.page ∈ pagesOf UA ++ pagesOf UB := by
        rw [← pagesOf_append]
        exact mem_pagesOf hv
      simp only [List.nodup_cons, List.mem_cons, not_or] at hpages'
      refine ⟨?_, hstv.length, fun z hz => ?_⟩
      · rw [hsh.content v.page (fun heq => hpages'.1.2 (heq ▸ hvpage))
          (fun heq => hpages'.2.1 (heq ▸ hvpage)), hstv.content]
      · rw [hsh.par z, hstv.par z hz]
        intro hz'
        have hzv : z ∈ kidsOf UA ++ kidsOf UB := by
          rw [← kidsOf_append]
          exact mem_kidsOf hv hz
        obtain ⟨-, hright, hA⟩ := List.nodup_append.mp hnd
        obtain ⟨-, -, hB⟩ := List.nodup_append.mp hright
        rcases List.mem_append.mp hzv with hzA | hzB
        · exact hA z hzA z (List.mem_append_left _ hz') rfl
        · exact hB z hz' z hzB rfl
    · exact hl
    · exact hr
  · rw [hsh.link]
    simpa [hsh.left_page, hsh.right_page] using hlk

/-- What an operation on the upper levels of `ps` may do to the separators and the file. -/
structure Rebuilt (h : IxIndexHandle K) (ps : List PageNo) (up : List (List (Inner K)))
    (h' : IxIndexHandle K) (up' : List (List (Inner K))) : Prop where
  placed : Placed h' ps up'
  refreshed : Refreshed h.content (seps up) (seps up')
  pages : ∀ z ∈ upPages up', z ∈ upPages up
  length : up'.length ≤ up.length
  frame : Frame {z | z ∈ upPages up} {z | z ∈ ps ++ upPages up} h h'
  same : SamePages h h'

/-- `redistribute` on two neighbours of an internal level. -/
theorem redistribute_inner (hpl : Placed h ps ((UA ++ l :: r :: UB) :: up))
    (hm : Mins h.content D d ps (y :: (seps ((UA ++ l :: r :: UB) :: up)).map Prod.snd))
    (hD : ∀ z ∈ upPages ((UA ++ l :: r :: UB) :: up), z ∉ D)
    (hfirst : ∀ z ∈ (seps ((UA ++ l :: r :: UB) :: up)).map Prod.snd, ∃ k, FirstKey h.content z k)
    (hfuel : d + up.length + 2 ≤ h.fuel)
    (hdiff : r.keys.length + 1 < l.keys.length ∨ l.keys.length + 1 < r.keys.length) :
    ∃ h' l' r' up', h.redistribute l.page r.page = .ok h' ∧
      Rebuilt h ps ((UA ++ l :: r :: UB) :: up) h' ((UA ++ l' :: r' :: UB) :: up') ∧
      l'.keys.length + r'.keys.length = l.keys.length + r.keys.length ∧
      l'.keys.length ≤ r'.keys.length + 1 ∧ r'.keys.length ≤ l'.keys.length + 1 ∧
      up'.length = up.length ∧ ∀ order, Sized order up → Sized order up' := by
  obtain ⟨TA, x, TB, hT, hTA, -⟩ := exists_between hpl
  obtain ⟨y', hs⟩ := sharing_of_level hpl hT hTA hm hD hfirst
  obtain ⟨h₁, l', r', x', hmove, hs₁, hsh, hlr, hrl⟩ :
      ∃ h₁ l' r' x', (if l.keys.length < r.keys.length
          then internalToLeft (r.keys.length + 1) h l.page r.page
          else internalToRight (l.keys.length + 1) h l.page r.page) = .ok h₁ ∧
        Sharing h₁ D d l' r' y' x' ∧ Shared h l r x h₁ l' r' x' ∧
        l'.keys.length ≤ r'.keys.length + 1 ∧ r'.keys.length ≤ l'.keys.length + 1 := by
    split
    · exact internalToLeft_spec hs (by omega) (by omega) (by omega)
    · exact internalToRight_spec hs (by omega) (by omega) (by omega)
  obtain ⟨key, hkey, hkeyfirst⟩ := hs₁.minKey (by rw [hsh.same.fuel]; omega)
  have hpages : pagesOf (UA ++ l' :: r' :: UB) = pagesOf (UA ++ l :: r :: UB) := by
    simp [hsh.left_page, hsh.right_page]
  -- The levels above do not see the children that moved.
  have hnodes : ∀ z ∈ upPages up, z ≠ l.page ∧ z ≠ r.page := by
    intro z hz
    refine ⟨?_, ?_⟩
    · rintro rfl
      exact hpl.above.not_mem_up (by simp) hz
    · rintro rfl
      exact hpl.above.not_mem_up (by simp) hz
  have hkids : ∀ z ∈ l.kids ++ r.kids, z ∈ ps := by
    intro z hz
    rw [hpl.upper.1.kids]
    simp only [kidsOf_append, kidsOf_cons, List.mem_append] at hz ⊢
    tauto
  have hup₁ : Upper h₁ (pagesOf UA ++ [l.page] ++ r.page :: pagesOf UB) up := by
    have hps : pagesOf UA ++ [l.page] ++ r.page :: pagesOf UB = pagesOf (UA ++ l :: r :: UB) := by simp
    rw [hps]
    refine hpl.above.upper.congr (fun z hz => hsh.content z (hnodes z hz).1 (hnodes z hz).2)
      (fun z _ => by rw [hsh.link]) (fun z hz => hsh.par z fun hz' => ?_) hsh.same.rootPage
    exact hpl.not_mem_up (hkids z hz') hz
  obtain ⟨h', up', hmp, hrel⟩ := maintainParent_spec x'.2 hup₁
    (by simpa using hpl.above.ps_nodup) hpl.above.up_nodup
    (fun z hz => hpl.above.ne_noPage (List.mem_append_right _ hz)) hT (by simp [hTA])
    (by rw [hsh.same.fuel]; omega) (by rw [← hsh.right_page]; exact hkey)
  have hps' : pagesOf UA ++ [l.page] ++ r.page :: pagesOf UB = pagesOf (UA ++ l' :: r' :: UB) := by
    simp [hsh.left_page, hsh.right_page]
  have hupPages : upPages ((UA ++ l' :: r' :: UB) :: up') = upPages ((UA ++ l :: r :: UB) :: up) := by
    rw [upPages, upPages, hpages, hrel.pages]
  refine ⟨h', l', r', up', ?_, ⟨⟨⟨?_, ?_⟩, ?_, ?_, ?_⟩, ?_, ?_, ?_, ?_, ?_⟩, ?_, hlr, hrl, hrel.length,
    hrel.sized⟩
  · obtain ⟨nl, hnl, hlleaf, hlkeys, -⟩ := fetchNode_of_content hs.left.content
    obtain ⟨nr, hnr, -, hrkeys, -⟩ := fetchNode_of_content hs.right.content
    have hassert : (decide (r.keys.length + 1 < l.keys.length) ||
        decide (l.keys.length + 1 < r.keys.length)) = true := by simpa using hdiff
    simp only [redistribute, hnl, hnr, ok_bind, ixAssert, IxNode.getSize, hlkeys, hrkeys,
      List.length_map, hassert, if_true, hlleaf, Bool.false_eq_true, if_false]
    split at hmove
    · rename_i hlt
      simp only [if_pos hlt, hmove, ok_bind, hmp]
    · rename_i hlt
      simp only [if_neg hlt, hmove, ok_bind, hmp]
  · refine (hsh.level hpl hs₁.left hs₁.right).congr (fun z hz => hrel.frame.content z ?_)
      (fun z hz => hrel.frame.link z ?_) (fun z _ => hrel.frame.par z (by simp))
    · rw [hpages] at hz
      exact hpl.above.not_mem_up hz
    · rw [hpages] at hz
      exact hpl.above.not_mem_up hz
  · rw [← hps']
    exact hrel.upper
  · rw [hupPages]
    exact hpl.nodup
  · intro z hz
    rw [hupPages] at hz
    rw [hrel.same.samePages.1, hsh.same.samePages.1]
    exact hpl.bound z hz
  · rw [hrel.frame.firstFreePageNo]
    have := hsh.same
    rw [SameHdr] at this
    rw [this]
    exact hpl.free
  · rw [seps_two hT hTA, seps_two hrel.seps hTA]
    refine (Refreshed.refl _).append (Refreshed.append ?_ (.refl _))
    refine hsh.refreshed.trans ((Refreshed.refl _).append (Refreshed.first ?_ (.refl _)))
    -- The leaf below the right node is none of the two nodes that were written.
    have hx' : x'.2 ∈ D := by
      have := hs₁.mins.leaf_mem (x := x'.2) (by simp)
      exact this
    unfold FirstKey at hkeyfirst ⊢
    rwa [hsh.content x'.2] at hkeyfirst
    · rintro heq
      exact hs.left_out (heq ▸ hx')
    · rintro heq
      exact hs.right_out (heq ▸ hx')
  · intro z hz
    rwa [hupPages] at hz
  · simp [hrel.length]
  · refine (hsh.same.frame (C := {z | z ∈ upPages ((UA ++ l :: r :: UB) :: up)})
      (P := {z | z ∈ ps ++ upPages ((UA ++ l :: r :: UB) :: up)}) ?_ ?_ ?_).trans (hrel.frame.mono ?_ (Set.empty_subset _))
    · intro z hz
      refine hsh.content z ?_ ?_
      · rintro rfl
        exact hz (by simp [upPages])
      · rintro rfl
        exact hz (by simp [upPages])
    · intro z _
      rw [hsh.link]
    · intro z hz
      exact hsh.par z fun hz' => hz (List.mem_append_left _ (hkids z hz'))
    · intro z hz
      exact List.mem_append_right _ hz
  · exact (hsh.same.trans hrel.same).samePages
  · have := hsh.refreshed.length_eq
    simp only [List.length_append, List.length_cons] at this
    omega

end Rmdb
