-- SUMMARY: The keys of an index on columns of any type, as `ix_compare` tells them apart.
import Rmdb.Index.NodeSearch

/-!
# The ranks of keys

All that a B+ tree does with its keys is to copy and to compare them, and `ix_compare` looks at the columns from
left to right. While it meets no NaN it orders the keys by their ranks, and it throws on two of them exactly when
they agree up to a `BIGINT` or `DATETIME` column.
-/

namespace Rmdb

/-- The numbers that `ix_compare` looks at, up to the first column that it has no case for. -/
def keyRank : List ColMeta → List UInt8 → List Int
  | [], _ => []
  | col :: cols, bs =>
    match col.type with
    | .bigint | .datetime => []
    | .int | .float | .string => colRank col bs ++ keyRank cols (bs.drop col.len)

/-- `ix_compare` has a case for the column. -/
def ColMeta.hasCase (col : ColMeta) : Bool := col.type != .bigint && col.type != .datetime

/-- The keys of two rows are different, and `ix_compare` finds that out without meeting a NaN. -/
def ToldApart (cols : List ColMeta) (r r' : RmRecord) : Prop :=
  meetsNaN cols (rowKey cols r) (rowKey cols r') = false ∧
    ∃ res, ixCompareKey cols (rowKey cols r) (rowKey cols r') = some res ∧ res ≠ 0

variable {col : ColMeta} {cols : List ColMeta} {a b : List UInt8} {res : Int}

theorem keyRank_cons (h : ixCompareType col.type col.len a b = some res) (bs : List UInt8) :
    keyRank (col :: cols) bs = colRank col bs ++ keyRank cols (bs.drop col.len) := by
  cases htype : col.type with
  | bigint | datetime =>
    rw [htype] at h
    cases h
  | int | float | string => simp [keyRank, htype]

/-- Of one column, all keys without NaN have equally many numbers. -/
theorem colRank_length (ha : col.len ≤ a.length) (hb : col.len ≤ b.length)
    (hna : col.type = .float → (readFloat a).isNaN = false) (hnb : col.type = .float → (readFloat b).isNaN = false) :
    (colRank col a).length = (colRank col b).length := by
  unfold colRank
  cases htype : col.type with
  | int | bigint | datetime => rfl
  | float => exact (FloatOrder.rank_length (hna htype)).trans (FloatOrder.rank_length (hnb htype)).symm
  | string => simp [List.length_take, ha, hb]

/-- `ix_compare` is the lexicographic comparison of the ranks. -/
theorem compares_keyRank (ha : keyLen cols ≤ a.length) (hb : keyLen cols ≤ b.length)
    (hnan : meetsNaN cols a b = false) (hres : ixCompareKey cols a b = some res) :
    Compares res (keyRank cols a) (keyRank cols b) := by
  induction cols generalizing a b with
  | nil =>
    cases hres
    exact Compares.nil
  | cons col cols ih =>
    rw [keyLen_cons] at ha hb
    obtain ⟨hnan, hnan'⟩ := meetsNaN_cons hnan
    cases hcol : ixCompareType col.type col.len a b with
    | none =>
      rw [ixCompareKey, hcol] at hres
      cases hres
    | some first =>
      rw [ixCompareKey_cons hcol] at hres
      rw [keyRank_cons hcol a, keyRank_cons hcol b]
      have hna : col.type = .float → (readFloat a).isNaN = false := fun h => (hnan h).1
      have hnb : col.type = .float → (readFloat b).isNaN = false := fun h => (hnan h).2
      have hfirst := compares_colRank (by omega) (by omega) hna hnb hcol
      have hlen := colRank_length (by omega) (by omega) hna hnb
      by_cases hzero : first = 0
      · rw [if_neg (not_not.mpr hzero)] at hres
        have hrest := ih (by rw [List.length_drop]; omega) (by rw [List.length_drop]; omega)
          (hnan' (hzero ▸ hcol)) hres
        have happ := hfirst.append hlen hrest
        rwa [if_neg (not_not.mpr hzero)] at happ
      · -- This column decides, whatever the others hold.
        rw [if_pos hzero, Option.some.injEq] at hres
        subst hres
        have hne : colRank col a ≠ colRank col b := fun heq => hzero (hfirst.eq.mpr heq)
        refine ⟨?_, ?_⟩
        · rw [append_lt_append_iff hlen, hfirst.lt]
          simp [hne]
        · exact iff_of_false hzero fun heq => hne (List.append_inj heq hlen).1

/-- Two keys on which `ix_compare` throws have one rank. -/
theorem keyRank_of_throws (ha : keyLen cols ≤ a.length) (hb : keyLen cols ≤ b.length)
    (hnan : meetsNaN cols a b = false) (hres : ixCompareKey cols a b = none) :
    keyRank cols a = keyRank cols b := by
  induction cols generalizing a b with
  | nil => rfl
  | cons col cols ih =>
    rw [keyLen_cons] at ha hb
    obtain ⟨hnan, hnan'⟩ := meetsNaN_cons hnan
    cases hcol : ixCompareType col.type col.len a b with
    | none =>
      cases htype : col.type with
      | bigint | datetime => simp [keyRank, htype]
      | int | float | string => simp [ixCompareType, htype] at hcol
    | some first =>
      rw [ixCompareKey_cons hcol] at hres
      rw [keyRank_cons hcol a, keyRank_cons hcol b]
      by_cases hzero : first = 0
      · rw [if_neg (not_not.mpr hzero)] at hres
        have hfirst := compares_colRank (by omega) (by omega) (fun h => (hnan h).1) (fun h => (hnan h).2) hcol
        rw [hfirst.eq.mp hzero, ih (by rw [List.length_drop]; omega) (by rw [List.length_drop]; omega)
          (hnan' (hzero ▸ hcol)) hres]
      · rw [if_pos hzero] at hres
        cases hres

/-- Where no NaN is met, rows are told apart exactly if their ranks differ. -/
theorem toldApart_iff {r r' : RmRecord} : ToldApart cols r r' ↔
    meetsNaN cols (rowKey cols r) (rowKey cols r') = false ∧
      keyRank cols (rowKey cols r) ≠ keyRank cols (rowKey cols r') := by
  refine and_congr_right fun hnan => ?_
  have ha := (rowKey_length cols r).ge
  have hb := (rowKey_length cols r').ge
  cases hres : ixCompareKey cols (rowKey cols r) (rowKey cols r') with
  | none =>
    have heq := keyRank_of_throws ha hb hnan hres
    simp [heq]
  | some res =>
    have hcmp := compares_keyRank ha hb hnan hres
    simp [hcmp.eq]

/-- The tree is ordered by the ranks of its keys. -/
instance : IxKey (List Int) where
  ixCompare a b _ := if a < b then -1 else if b < a then 1 else 0
  ixCompare_lt_zero a b := (compares_trichotomy a b).lt
  ixCompare_eq_zero a b := (compares_trichotomy a b).eq

end Rmdb
