-- SUMMARY: When the bounds of the first columns of a key are right, whatever the other columns hold.
import Rmdb.Index.Scan

/-!
# Bounds for the first columns

An index scan may know the values of the first columns only. It fills the rest of the key with what
happens to be there and asks for bounds on the first `pre` columns. `find_leaf_page` still goes down
with the whole key; only the search in the leaf looks at the first columns alone. The leaf that it ends
at is the right one for all such keys if no separator of the inner pages lies among them.
-/

namespace Rmdb

open Blocks IxIndexHandle

variable {K : Type} [IxKey K]

/-- The keys agree on the first `pre` columns. -/
def SamePrefix (pre : Nat) (a b : K) : Prop := ixCompare a b pre = 0

instance (pre : Nat) (a b : K) : Decidable (SamePrefix pre a b) :=
  inferInstanceAs (Decidable (_ = _))

/-- The position of the first pair whose key has the property, or the end of the last leaf. -/
def firstIid {K : Type} (L : List (Leaf K)) (P : K → Bool) : Iid :=
  iidAt L ((entriesOf L).findIdx fun e => P e.1)

/-- What the bounds of a key should be when only its first `pre` columns count. -/
structure PrefixBounds (h : IxIndexHandle K) (L : List (Leaf K)) (pre : Nat) (key : K) : Prop where
  lower : h.lowerBound key pre = .ok (firstIid L fun k => !decide (ixCompare k key pre < 0))
  upper : h.upperBound key pre = .ok (firstIid L fun k => !decide (ixCompare k key pre ≤ 0))

-- ---------------------------------------------------------------------------
-- The order of the first columns
-- ---------------------------------------------------------------------------

/-- `ix_compare` on `pre` columns compares the values `pk` of a key, which grow with the key. -/
structure ComparesPrefix (pre : Nat) (pk : K → List Int) : Prop where
  mono : ∀ a b : K, a ≤ b → pk a ≤ pk b
  compares : ∀ a b : K, Compares (ixCompare a b pre) (pk a) (pk b)

theorem rank_append (cols cols' : List IxCol) (bs : List UInt8) :
    rank (cols ++ cols') bs = rank cols bs ++ rank cols' (bs.drop (colTotLen cols)) := by
  induction cols generalizing bs with
  | nil => rfl
  | cons c cols ih =>
    rw [List.cons_append, rank_cons, ih, rank_cons c cols bs, List.append_assoc, colTotLen_cons, List.drop_drop]

theorem colTotLen_append (cols cols' : List IxCol) :
    colTotLen (cols ++ cols') = colTotLen cols + colTotLen cols' := by
  simp [colTotLen]

theorem comparesPrefix_keyBytes {cols : List IxCol} {pre : Nat} (hpre : 0 < pre) :
    ComparesPrefix pre fun k : KeyBytes cols => rank (cols.take pre) k.bytes := by
  have hcols : cols = cols.take pre ++ cols.drop pre := (List.take_append_drop pre cols).symm
  have hlen : ∀ k : KeyBytes cols, colTotLen (cols.take pre) ≤ k.bytes.length := by
    intro k
    have htot := colTotLen_append (cols.take pre) (cols.drop pre)
    rw [← hcols] at htot
    rw [k.length_eq, htot]
    exact Nat.le_add_right ..
  constructor
  case mono =>
    intro a b hab
    rcases hab.eq_or_lt with rfl | hlt
    · exact le_rfl
    · have hsplit : ∀ bs, rank cols bs = rank (cols.take pre) bs ++
          rank (cols.drop pre) (bs.drop (colTotLen (cols.take pre))) := by
        intro bs
        rw [← rank_append, ← hcols]
      have hrank : rank cols a.bytes < rank cols b.bytes := hlt
      rw [hsplit, hsplit, append_lt_append_iff (rank_length_eq _ (hlen a) (hlen b))] at hrank
      rcases hrank with hrank | ⟨hrank, -⟩
      · exact hrank.le
      · exact hrank.le
  case compares =>
    intro a b
    show Compares (ixCompareCols (cols.take (if pre > 0 then pre else cols.length)) a.bytes b.bytes) _ _
    rw [if_pos hpre]
    exact compares_cols _ (hlen a) (hlen b)

section

variable {pre : Nat} {pk : K → List Int} {a b : K}

theorem ComparesPrefix.same_iff (hp : ComparesPrefix pre pk) : SamePrefix pre a b ↔ pk a = pk b :=
  (hp.compares a b).eq

theorem ComparesPrefix.lt_iff (hp : ComparesPrefix pre pk) : ixCompare a b pre < 0 ↔ pk a < pk b :=
  (hp.compares a b).lt

theorem ComparesPrefix.le_iff (hp : ComparesPrefix pre pk) : ixCompare a b pre ≤ 0 ↔ pk a ≤ pk b := by
  rw [le_iff_lt_or_eq, (hp.compares a b).lt, (hp.compares a b).eq, ← le_iff_lt_or_eq]

-- ---------------------------------------------------------------------------
-- One key
-- ---------------------------------------------------------------------------

variable {h : IxIndexHandle K} {L LA LB : List (Leaf K)} {n : Leaf K} {up : List (List (Inner K))}
  {SA SB : List (K × PageNo)} {key : K}

/-- A search that stops at the first key that fails `before` ends at the first such pair of the tree
exactly when the other leaves are on the right side. -/
theorem Tree.boundIid_first_iff (ht : Tree h L up) (ha : Around L up key LA n LB SA SB)
    (hpage : h.findLeafPage key = .ok n.page) {before : K → Bool}
    (hmono : ∀ a b, a ≤ b → before b = true → before a = true) :
    h.boundIid key (fun leaf => BinarySearch.searchList before leaf.keys) =
        .ok (firstIid L fun k => !before k) ↔
      (∀ e ∈ entriesOf LA, before e.1 = true) ∧ ∀ e ∈ entriesOf LB, before e.1 = false := by
  obtain ⟨y, z, hyz, hcut, hiid⟩ := ht.boundIid_cut ha hpage hmono
  have hL : entriesOf L = entriesOf LA ++ (y ++ z) ++ entriesOf LB := by simp [ha.leaves, hyz]
  have hsorted : (entriesOf L).Pairwise fun a b => before b.1 = true → before a.1 = true :=
    ht.pairwise.imp fun hab => hmono _ _ hab.le
  rw [← hcut.findIdx_middle_iff hL hsorted, hiid, Except.ok.injEq, firstIid]
  have hle : (entriesOf LA).length + y.length ≤ (entriesOf L).length := by simp [hL]
  constructor
  · exact fun heq => (iidAt_inj ht.nodup ht.ne_nil hle List.findIdx_le_length heq).symm
  · exact fun heq => by rw [heq]

/-- The bounds of a key are right exactly when no pair of another leaf agrees with it. -/
theorem Tree.prefixBounds_iff (ht : Tree h L up) (hp : ComparesPrefix pre pk)
    (ha : Around L up key LA n LB SA SB) (hpage : h.findLeafPage key = .ok n.page) :
    PrefixBounds h L pre key ↔
      (∀ e ∈ entriesOf LA, ¬ SamePrefix pre key e.1) ∧ ∀ e ∈ entriesOf LB, ¬ SamePrefix pre key e.1 := by
  have hleft : ∀ e ∈ entriesOf LA, pk e.1 ≤ pk key := fun e he =>
    hp.mono _ _ (ha.left_lt ht.toShape e he).le
  have hright : ∀ e ∈ entriesOf LB, pk key ≤ pk e.1 := fun e he =>
    hp.mono _ _ (ha.right_lt ht.toShape e he).le
  have hlower := @Tree.boundIid_first_iff _ _ _ _ _ _ _ _ _ _ _ ht ha hpage
    (fun k => decide (ixCompare k key pre < 0)) fun a b hab hb => by
      rw [decide_eq_true_iff, hp.lt_iff] at hb ⊢
      exact lt_of_le_of_lt (hp.mono a b hab) hb
  have hupper := @Tree.boundIid_first_iff _ _ _ _ _ _ _ _ _ _ _ ht ha hpage
    (fun k => decide (ixCompare k key pre ≤ 0)) fun a b hab hb => by
      rw [decide_eq_true_iff, hp.le_iff] at hb ⊢
      exact (hp.mono a b hab).trans hb
  have hlt : ∀ k, decide (ixCompare k key pre < 0) = true ↔ pk k < pk key := fun k => by
    rw [decide_eq_true_iff, hp.lt_iff]
  have hle : ∀ k, decide (ixCompare k key pre ≤ 0) = true ↔ pk k ≤ pk key := fun k => by
    rw [decide_eq_true_iff, hp.le_iff]
  simp only [hp.same_iff]
  constructor
  · rintro ⟨hlo, hhi⟩
    refine ⟨fun e he => ((hlt e.1).mp ((hlower.mp hlo).1 e he)).ne', fun e he heq => ?_⟩
    exact Bool.eq_false_iff.mp ((hupper.mp hhi).2 e he) ((hle e.1).mpr heq.ge)
  · rintro ⟨hA, hB⟩
    constructor
    · refine hlower.mpr ⟨fun e he => ?_, fun e he => Bool.eq_false_iff.mpr fun hb => ?_⟩
      · exact (hlt e.1).mpr (lt_of_le_of_ne (hleft e he) (Ne.symm (hA e he)))
      · exact absurd ((hlt e.1).mp hb) (not_lt.mpr (hright e he))
    · refine hupper.mpr ⟨fun e he => (hle e.1).mpr (hleft e he), fun e he =>
        Bool.eq_false_iff.mpr fun hb => ?_⟩
      exact absurd ((hle e.1).mp hb) (not_le.mpr (lt_of_le_of_ne (hright e he) (hB e he)))

-- ---------------------------------------------------------------------------
-- All keys with the same first columns
-- ---------------------------------------------------------------------------

/-- Behind a pair of a leaf to the left there is a separator. -/
theorem Around.exists_sep_left (hsh : Shape h L up) (ha : Around L up key LA n LB SA SB) {e : K × Rid}
    (he : e ∈ entriesOf LA) : ∃ s ∈ SA, e.1 < s.1 := by
  by_contra hnone
  push Not at hnone
  obtain ⟨m, hm, hmem⟩ := List.mem_flatMap.mp he
  exact absurd ((ha.separated hsh).lt_of_mem_left ha.lengths.1
    (by simpa using fun a b hab => hnone (a, b) hab) (List.mem_map_of_mem hm) (List.mem_map_of_mem hmem))
    (lt_irrefl e.1)

theorem Around.exists_sep_right (hsh : Shape h L up) (ha : Around L up key LA n LB SA SB) {e : K × Rid}
    (he : e ∈ entriesOf LB) : ∃ s ∈ SB, s.1 ≤ e.1 := by
  by_contra hnone
  push Not at hnone
  obtain ⟨m, hm, hmem⟩ := List.mem_flatMap.mp he
  exact absurd ((ha.separated hsh).lt_of_mem_right ha.lengths.1 ha.lengths.2
    (by simpa using fun a b hab => hnone (a, b) hab) (List.mem_map_of_mem hm) (List.mem_map_of_mem hmem))
    (lt_irrefl e.1)

/-- The pairs of a leaf are between the separators around it. -/
theorem Around.mem_bounds (hsh : Shape h L up) (ha : Around L up key LA n LB SA SB) {e : K × Rid}
    (he : e ∈ n.entries) : (∀ s ∈ SA, s.1 ≤ e.1) ∧ ∀ s ∈ SB, e.1 < s.1 := by
  have hbounds := (ha.separated hsh).mem_bounds ha.lengths.1 ha.lengths.2 (List.mem_map_of_mem he)
  exact ⟨fun s hs => hbounds.1 s.1 (List.mem_map_of_mem hs),
    fun s hs => hbounds.2 s.1 (List.mem_map_of_mem hs)⟩

theorem Around.mem_seps (ha : Around L up key LA n LB SA SB) {s : K × PageNo} :
    s ∈ Rmdb.seps up ↔ s ∈ SA ∨ s ∈ SB := by
  rw [ha.seps, List.mem_append]

/-- The pair is to the right of a separator, or to its left. -/
theorem Around.le_of_mem (hsh : Shape h L up) (ha : Around L up key LA n LB SA SB) {e : K × Rid}
    (he : e ∈ entriesOf L) (hnot : e ∉ entriesOf LA) {s : K × PageNo} (hs : s ∈ Rmdb.seps up) (hle : s.1 ≤ key) :
    s.1 ≤ e.1 := by
  rw [ha.leaves, entriesOf_append, entriesOf_cons] at he
  rcases List.mem_append.mp ((List.mem_append.mp he).resolve_left hnot) with he | he
  · refine (ha.mem_bounds hsh he).1 s ((ha.mem_seps.mp hs).resolve_right fun hright => ?_)
    exact absurd (ha.right s hright) (not_lt.mpr hle)
  · exact hle.trans (ha.right_lt hsh e he).le

theorem Around.lt_of_mem (hsh : Shape h L up) (ha : Around L up key LA n LB SA SB) {e : K × Rid}
    (he : e ∈ entriesOf L) (hnot : e ∉ entriesOf LB) {s : K × PageNo} (hs : s ∈ Rmdb.seps up) (hlt : key < s.1) :
    e.1 < s.1 := by
  rw [ha.leaves, entriesOf_append, entriesOf_cons] at he
  rcases List.mem_append.mp he with he | he
  · exact (ha.left_lt hsh e he).trans hlt
  · have he := (List.mem_append.mp he).resolve_right hnot
    refine (ha.mem_bounds hsh he).2 s ((ha.mem_seps.mp hs).resolve_left fun hleft => ?_)
    exact absurd (ha.left s hleft) (not_le.mpr hlt)

/-- No pair agrees with the key, or every separator that agrees with it is the least key that does. -/
def OneLeaf (L : List (Leaf K)) (up : List (List (Inner K))) (pre : Nat) (a : K) : Prop :=
  (∀ e ∈ entriesOf L, ¬ SamePrefix pre a e.1) ∨
    ∀ s ∈ seps up, SamePrefix pre a s.1 → ∀ b, SamePrefix pre a b → s.1 ≤ b

/-- The bounds are right for all keys with the same first columns exactly when these keys belong to one
leaf. -/
theorem Tree.prefixBounds_all_iff (ht : Tree h L up) (hp : ComparesPrefix pre pk) (a : K) :
    (∀ b, SamePrefix pre a b → PrefixBounds h L pre b) ↔ OneLeaf L up pre a := by
  simp only [OneLeaf, hp.same_iff]
  constructor
  · intro hall
    by_contra hcond
    push Not at hcond
    obtain ⟨⟨e, he, hae⟩, s, hs, has, b, hab, hlt⟩ := hcond
    -- The pair is to the right of the separator for the bounds of the separator, and to its left for
    -- those of the smaller key.
    obtain ⟨LA, n, LB, SA, SB, ha, hpage⟩ := ht.findLeafPage s.1
    obtain ⟨LA', n', LB', SA', SB', ha', hpage'⟩ := ht.findLeafPage b
    have hleft := ((ht.prefixBounds_iff hp ha hpage).mp (hall s.1 has)).1
    have hright := ((ht.prefixBounds_iff hp ha' hpage').mp (hall b hab)).2
    simp only [hp.same_iff] at hleft hright
    have hle : s.1 ≤ e.1 :=
      ha.le_of_mem ht.toShape he (fun hmem => hleft e hmem (has.symm.trans hae)) hs le_rfl
    have hgt : e.1 < s.1 :=
      ha'.lt_of_mem ht.toShape he (fun hmem => hright e hmem (hab.symm.trans hae)) hs hlt
    exact absurd hle (not_le.mpr hgt)
  · intro hcond b hab
    obtain ⟨LA, n, LB, SA, SB, ha, hpage⟩ := ht.findLeafPage b
    refine (ht.prefixBounds_iff hp ha hpage).mpr ?_
    simp only [hp.same_iff]
    rcases hcond with hnone | hleast
    · rw [ha.leaves, entriesOf_append, entriesOf_cons] at hnone
      constructor
      · exact fun e he heq => hnone e (by simp [he]) (hab.trans heq)
      · exact fun e he heq => hnone e (by simp [he]) (hab.trans heq)
    · constructor
      · intro e he heq
        obtain ⟨s, hs, hlt⟩ := ha.exists_sep_left ht.toShape he
        have has : pk a = pk s.1 := le_antisymm (hab.trans heq ▸ hp.mono _ _ hlt.le)
          (hab ▸ hp.mono _ _ (ha.left s hs))
        exact absurd (hleast s (ha.mem_seps.mpr (.inl hs)) has e.1 (hab.trans heq)) (not_le.mpr hlt)
      · intro e he heq
        obtain ⟨s, hs, hle⟩ := ha.exists_sep_right ht.toShape he
        have hlt := ha.right s hs
        have has : pk a = pk s.1 := le_antisymm (hab ▸ hp.mono _ _ hlt.le)
          (hab.trans heq ▸ hp.mono _ _ hle)
        exact absurd (hleast s (ha.mem_seps.mpr (.inr hs)) has b hab) (not_le.mpr hlt)

end

/-- A key of two small integers. -/
def intPair (b c : UInt8) : KeyBytes [.int, .int] := ⟨[b, 0, 0, 0, c, 0, 0, 0], rfl⟩

/-- A tree with fewer pairs than a leaf takes is a leaf. -/
theorem Tree.up_eq_nil {K : Type} [IxKey K] {h : IxIndexHandle K} {L : List (Leaf K)} {up : List (List (Inner K))}
    (ht : Tree h L up) (hfew : (entriesOf L).length < h.btreeOrder) : up = [] := by
  by_contra hne
  have hroot := ht.placed.root_iff ht.order ht.sized
  have hge := ht.leaf_ge hne
  rcases L with _ | ⟨n, _ | ⟨n', L⟩⟩
  · simpa using ht.seps_length
  · exact hne (hroot.mpr rfl)
  · have hn := hge n List.mem_cons_self
    have hn' := hge n' (List.mem_cons_of_mem _ List.mem_cons_self)
    simp only [entriesOf_cons, List.length_append] at hfew
    omega

end Rmdb
