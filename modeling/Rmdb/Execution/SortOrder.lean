-- SUMMARY: The two comparators of `SortExecutor`, and when they agree.
import Rmdb.Common.Bytes
import Rmdb.Lib.WeakOrder

/-!
# Comparing tuples

A run is sorted with `cmp_record`, which reads values, and runs are merged with `cmp_raw_data`, which
looks at the bytes in a buffer. `cmp_raw_data` calls `strcmp` on `CHAR` columns. A string that fills its
column has no zero byte at its end, so `strcmp` goes on with what is behind the column: the other
columns of the tuple, and then the rest of the buffer.
-/

namespace Rmdb

-- ---------------------------------------------------------------------------
-- The comparators
-- ---------------------------------------------------------------------------

/-- `strcmp`, by its sign. Bytes behind the end of the lists count as zero. -/
def strcmp : List UInt8 → List UInt8 → Int
  | [], [] => 0
  | [], y :: _ => if y = 0 then 0 else -1
  | x :: _, [] => if x = 0 then 0 else 1
  | x :: a, y :: b => if x < y then -1 else if y < x then 1 else if x = 0 then 0 else strcmp a b

/-- What a column decides; `none` leaves it to the next column. -/
def decided (desc gt lt : Bool) : Option Bool :=
  if gt then some desc else if lt then some !desc else none

/-- `cmp_record`; the second component of a column says whether it is descending. -/
def cmpRecord : List (ColMeta × Bool) → RmRecord → RmRecord → Bool
  | [], _, _ => false
  | (col, desc) :: cols, rec1, rec2 =>
    let val1 := col.read rec1
    let val2 := col.read rec2
    match decided desc (val1.gt val2) (val1.lt val2) with
    | some b => b
    | none => cmpRecord cols rec1 rec2

/-- One column of `cmp_raw_data`. -/
def cmpRawCol (col : ColMeta) (desc : Bool) (firData secData : List UInt8) : Option Bool :=
  match col.type with
  | .int =>
    let val1 := readInt (slice firData col.offset 4)
    let val2 := readInt (slice secData col.offset 4)
    decided desc (val1 > val2) (val1 < val2)
  | .bigint =>
    let val1 := readBigint (slice firData col.offset 8)
    let val2 := readBigint (slice secData col.offset 8)
    decided desc (val1 > val2) (val1 < val2)
  | .datetime =>
    let val1 := readUnsigned (slice firData col.offset 8)
    let val2 := readUnsigned (slice secData col.offset 8)
    decided desc (val1 > val2) (val1 < val2)
  | .float =>
    let val1 := readFloat (slice firData col.offset 4)
    let val2 := readFloat (slice secData col.offset 4)
    decided desc (val1 > val2) (val1 < val2)
  | .string =>
    let res := strcmp (firData.drop col.offset) (secData.drop col.offset)
    decided desc (res > 0) (res < 0)

/-- `cmp_raw_data` on the memory from the two pointers on. -/
def cmpRawData : List (ColMeta × Bool) → List UInt8 → List UInt8 → Bool
  | [], _, _ => true
  | (col, desc) :: cols, firData, secData =>
    match cmpRawCol col desc firData secData with
    | some b => b
    | none => cmpRawData cols firData secData

-- ---------------------------------------------------------------------------
-- `cmp_record` is a strict weak order
-- ---------------------------------------------------------------------------

theorem lt_weak (col : ColMeta) (hfloat : col.type ≠ .float) :
    IsStrictWeakOrder RmRecord fun a b => (col.read a).lt (col.read b) = true := by
  apply isStrictWeakOrder_of_not_trans
  · intro a b
    cases htype : col.type <;> simp only [ColMeta.read, htype, Value.lt, decide_eq_true_eq]
    case float => exact absurd htype hfloat
    case string => exact List.lt_asymm
    all_goals omega
  · intro a b c
    cases htype : col.type <;> simp only [ColMeta.read, htype, Value.lt, decide_eq_true_eq]
    case float => exact absurd htype hfloat
    case string =>
      exact fun hab hbc => List.not_lt.mpr (List.le_trans (List.not_lt.mp hbc) (List.not_lt.mp hab))
    all_goals omega

/-- In a column that is ascending or descending `a` comes before `b`. -/
def ColFirst (col : ColMeta) (desc : Bool) (a b : RmRecord) : Prop :=
  if desc then (col.read b).lt (col.read a) = true else (col.read a).lt (col.read b) = true

theorem colFirst_weak (col : ColMeta) (desc : Bool) (hfloat : col.type ≠ .float) :
    IsStrictWeakOrder RmRecord (ColFirst col desc) := by
  have hweak := lt_weak col hfloat
  cases desc with
  | true => exact (inferInstance : IsStrictWeakOrder RmRecord
      (Function.swap fun a b => (col.read a).lt (col.read b) = true))
  | false => exact hweak

theorem cmpRecord_cons_iff {col : ColMeta} {desc : Bool} {cols : List (ColMeta × Bool)} {a b : RmRecord}
    (hfloat : col.type ≠ .float) : cmpRecord ((col, desc) :: cols) a b = true ↔
      ColFirst col desc a b ∨ ¬ ColFirst col desc b a ∧ cmpRecord cols a b = true := by
  have hweak := lt_weak col hfloat
  have hnot : ¬ ((col.read a).lt (col.read b) = true ∧ (col.read b).lt (col.read a) = true) :=
    fun ⟨hab, hba⟩ => hweak.irrefl a (hweak.trans a b a hab hba)
  simp only [cmpRecord, ColFirst, Value.gt]
  generalize (col.read a).lt (col.read b) = lt, (col.read b).lt (col.read a) = gt at hnot ⊢
  cases desc <;> cases lt <;> cases gt <;> simp_all [decided]

theorem cmpRecord_weak {cols : List (ColMeta × Bool)} (hfloat : ∀ c ∈ cols, c.1.type ≠ .float) :
    IsStrictWeakOrder RmRecord fun a b => cmpRecord cols a b = true := by
  induction cols with
  | nil =>
    apply isStrictWeakOrder_of_not_trans
    · intro a b h
      cases h
    · intro a b c _ _ h
      cases h
  | cons c cols ih =>
    obtain ⟨col, desc⟩ := c
    obtain ⟨hcol, hcols⟩ := List.forall_mem_cons.mp hfloat
    have hfirst := colFirst_weak col desc hcol
    have hrest := ih hcols
    simp only [cmpRecord_cons_iff hcol]
    exact IsStrictWeakOrder.lex

-- ---------------------------------------------------------------------------
-- One column
-- ---------------------------------------------------------------------------

/-- The column lies in a tuple of `size` bytes, and is as long as its type asks for. -/
structure ColMeta.Fits (col : ColMeta) (size : Nat) : Prop where
  inside : col.offset + col.len ≤ size
  int : col.type = .int → col.len = 4
  bigint : col.type = .bigint → col.len = 8
  datetime : col.type = .datetime → col.len = 8

/-- Both tuples hold the same string in the column, and it fills the column. -/
def SameFull (col : ColMeta) (a b : RmRecord) : Prop :=
  col.type = .string ∧ slice a col.offset col.len = slice b col.offset col.len ∧
    0 ∉ slice a col.offset col.len

/-- `strcmp` compares the strings in the first `n` bytes, if it comes to an end there. -/
theorem strcmp_iff {n : Nat} {x y : List UInt8} (hx : n ≤ x.length) (hy : n ≤ y.length)
    (hnot : ¬ (x.take n = y.take n ∧ 0 ∉ x.take n)) :
    (strcmp x y < 0 ↔ (x.take n).takeWhile (fun b => b != 0) < (y.take n).takeWhile (fun b => b != 0)) ∧
    (strcmp x y > 0 ↔ (y.take n).takeWhile (fun b => b != 0) < (x.take n).takeWhile (fun b => b != 0)) := by
  induction n generalizing x y with
  | zero => exact absurd ⟨rfl, List.not_mem_nil⟩ hnot
  | succ n ih =>
    cases x with
    | nil => cases hx
    | cons u x =>
      cases y with
      | nil => cases hy
      | cons v y =>
        have hpos : ∀ {s t : UInt8}, s < t → (t != 0) = true := by
          intro s t hst
          rw [bne_iff_ne]
          rintro rfl
          exact absurd (UInt8.lt_iff_toNat_lt.mp hst) (Nat.not_lt_zero _)
        -- A byte that is smaller decides, also if it is the zero at the end of a string.
        have hless : ∀ {s t : UInt8} (as bs : List UInt8), s < t →
            (s :: as).takeWhile (fun b => b != 0) < (t :: bs).takeWhile (fun b => b != 0) := by
          intro s t as bs hst
          rw [List.takeWhile_cons, List.takeWhile_cons, if_pos (hpos hst)]
          split
          · exact List.cons_lt_cons_iff.mpr (.inl hst)
          · exact List.nil_lt_cons _ _
        simp only [List.take_succ_cons, strcmp]
        by_cases huv : u < v
        · have h := hless (x.take n) (y.take n) huv
          simp [huv, h, List.lt_asymm h]
        · by_cases hvu : v < u
          · have h := hless (y.take n) (x.take n) hvu
            simp [huv, hvu, h, List.lt_asymm h]
          · obtain rfl : u = v := UInt8.le_antisymm (UInt8.not_lt.mp hvu) (UInt8.not_lt.mp huv)
            by_cases hu : u = 0
            · simp [hu]
            · have hrest : ¬ (x.take n = y.take n ∧ 0 ∉ x.take n) := by
                rintro ⟨heq, hzero⟩
                refine hnot ⟨by rw [List.take_succ_cons, List.take_succ_cons, heq], ?_⟩
                simpa [Ne.symm hu] using hzero
              have h := ih (Nat.le_of_succ_le_succ hx) (Nat.le_of_succ_le_succ hy) hrest
              simpa [huv, hu, List.cons_lt_cons_iff] using h

/-- The `uint64_t` of eight bytes is their `int64_t`, cast. -/
theorem toUnsigned_readBigint {bs : List UInt8} (hbs : bs.length = 8) :
    Value.toUnsigned (readBigint bs) = readUnsigned bs := by
  have hlt := readUnsigned_lt bs
  rw [hbs] at hlt
  rw [readBigint, List.take_of_length_le (Nat.le_of_eq hbs), Value.toUnsigned]
  split <;> omega

theorem take_drop_eq_slice {r : List UInt8} {offset len : Nat} (h : offset + len ≤ r.length) :
    (r.drop offset).take len = slice r offset len := by
  apply List.ext_getElem
  · simp
    omega
  · intro i h₁ h₂
    rw [slice_length] at h₂
    simp only [slice, List.getElem_take, List.getElem_drop, List.getElem_map, List.getElem_range]
    rw [List.getD_eq_getElem _ _ (by omega)]

/-- On one column the two comparators agree, unless both tuples hold the same string there and it fills
the column. -/
theorem cmpRawCol_eq {col : ColMeta} {desc : Bool} {a b p q : List UInt8} {size : Nat} (hfits : col.Fits size)
    (hfloat : col.type ≠ .float) (ha : a.length = size) (hb : b.length = size) (hnot : ¬ SameFull col a b) :
    cmpRawCol col desc (a ++ p) (b ++ q) =
      decided desc ((col.read a).gt (col.read b)) ((col.read a).lt (col.read b)) := by
  have hinside := hfits.inside
  cases htype : col.type with
  | float => exact absurd htype hfloat
  | int =>
    have hlen := hfits.int htype
    simp only [cmpRawCol, ColMeta.read, htype, Value.gt, Value.lt]
    rw [slice_append_left (by omega), slice_append_left (by omega)]
  | bigint =>
    have hlen := hfits.bigint htype
    simp only [cmpRawCol, ColMeta.read, htype, Value.gt, Value.lt]
    rw [slice_append_left (by omega), slice_append_left (by omega)]
  | datetime =>
    have hlen := hfits.datetime htype
    simp only [cmpRawCol, ColMeta.read, htype, Value.gt, Value.lt]
    rw [slice_append_left (by omega), slice_append_left (by omega),
      toUnsigned_readBigint (slice_length ..), toUnsigned_readBigint (slice_length ..)]
    simp only [Int.ofNat_lt, gt_iff_lt]
  | string =>
    have hx : (((a ++ p).drop col.offset).take col.len) = slice a col.offset col.len := by
      rw [take_drop_eq_slice (by rw [List.length_append]; omega), slice_append_left (by omega)]
    have hy : (((b ++ q).drop col.offset).take col.len) = slice b col.offset col.len := by
      rw [take_drop_eq_slice (by rw [List.length_append]; omega), slice_append_left (by omega)]
    obtain ⟨hlt, hgt⟩ := @strcmp_iff col.len ((a ++ p).drop col.offset) ((b ++ q).drop col.offset)
      (by rw [List.length_drop, List.length_append]; omega)
      (by rw [List.length_drop, List.length_append]; omega)
      (by rw [hx, hy]; rintro ⟨heq, hzero⟩; exact hnot ⟨htype, heq, hzero⟩)
    rw [hx, hy] at hlt hgt
    simp only [cmpRawCol, ColMeta.read, htype, Value.gt, Value.lt, hlt, hgt]

-- ---------------------------------------------------------------------------
-- All columns
-- ---------------------------------------------------------------------------

/-- The columns lie in a tuple of `size` bytes, and none of them is a `FLOAT`. -/
def SortLayout (size : Nat) (cols : List (ColMeta × Bool)) : Prop :=
  ∀ c ∈ cols, c.1.Fits size ∧ c.1.type ≠ .float

/-- Tuples that do not hold the same full string in a column are compared alike. -/
theorem cmpRawData_eq {cols : List (ColMeta × Bool)} {a b p q : List UInt8} {size : Nat}
    (hlayout : SortLayout size cols) (ha : a.length = size) (hb : b.length = size)
    (hnot : ∀ c ∈ cols, ¬ SameFull c.1 a b) : cmpRawData cols (a ++ p) (b ++ q) = !cmpRecord cols b a := by
  induction cols with
  | nil => rfl
  | cons c cols ih =>
    obtain ⟨col, desc⟩ := c
    obtain ⟨⟨hfits, hfloat⟩, hlayouts⟩ := List.forall_mem_cons.mp hlayout
    obtain ⟨hcol, hcols⟩ := List.forall_mem_cons.mp hnot
    have hweak := lt_weak col hfloat
    have hasymm : ¬ ((col.read a).lt (col.read b) = true ∧ (col.read b).lt (col.read a) = true) :=
      fun ⟨hab, hba⟩ => hweak.irrefl a (hweak.trans a b a hab hba)
    simp only [cmpRawData, cmpRecord, cmpRawCol_eq hfits hfloat ha hb hcol, ih hlayouts hcols, Value.gt]
    generalize (col.read a).lt (col.read b) = lt, (col.read b).lt (col.read a) = gt at hasymm ⊢
    cases desc <;> cases lt <;> cases gt <;> simp_all [decided]

theorem strcmp_append {z p q : List UInt8} (hz : 0 ∉ z) : strcmp (z ++ p) (z ++ q) = strcmp p q := by
  induction z with
  | nil => rfl
  | cons x z ih =>
    rw [List.mem_cons, not_or] at hz
    simp [strcmp, Ne.symm hz.1, ih hz.2]

/-- Two equal tuples without a zero byte, with different bytes behind them. -/
theorem exists_overrun {cols : List (ColMeta × Bool)} {size : Nat} (hlayout : SortLayout size cols)
    (hstring : ∃ c ∈ cols, c.1.type = .string) : ∃ p q,
      cmpRawData cols (List.replicate size 1 ++ p) (List.replicate size 1 ++ q) = false := by
  induction cols with
  | nil =>
    obtain ⟨c, hc, -⟩ := hstring
    cases hc
  | cons c cols ih =>
    obtain ⟨col, desc⟩ := c
    obtain ⟨⟨hfits, hfloat⟩, hlayouts⟩ := List.forall_mem_cons.mp hlayout
    by_cases htype : col.type = .string
    · have hinside : col.offset + col.len ≤ size := hfits.inside
      have hraw : ∀ p q, cmpRawCol col desc (List.replicate size 1 ++ p) (List.replicate size 1 ++ q) =
          decided desc (strcmp p q > 0) (strcmp p q < 0) := by
        intro p q
        have hlen : col.offset ≤ (List.replicate size (1 : UInt8)).length := by
          rw [List.length_replicate]
          omega
        have hzero : (0 : UInt8) ∉ (List.replicate size (1 : UInt8)).drop col.offset :=
          fun hmem => absurd (List.eq_of_mem_replicate (List.mem_of_mem_drop hmem)) (by decide)
        simp only [cmpRawCol, htype]
        rw [List.drop_append_of_le_length hlen, List.drop_append_of_le_length hlen, strcmp_append hzero]
      cases desc with
      | true => exact ⟨[1], [2], by rw [cmpRawData, hraw]; rfl⟩
      | false => exact ⟨[2], [1], by rw [cmpRawData, hraw]; rfl⟩
    · have hrest : ∃ c ∈ cols, c.1.type = .string := by
        obtain ⟨c, hc, hcstring⟩ := hstring
        rcases List.mem_cons.mp hc with rfl | hc
        · exact absurd hcstring htype
        · exact ⟨c, hc, hcstring⟩
      obtain ⟨p, q, h⟩ := ih hlayouts hrest
      refine ⟨p, q, ?_⟩
      have hirrefl := (lt_weak col hfloat).irrefl (List.replicate size 1)
      rw [Bool.not_eq_true] at hirrefl
      rw [cmpRawData, cmpRawCol_eq hfits hfloat List.length_replicate List.length_replicate
        fun hsame => htype hsame.1, Value.gt, hirrefl]
      exact h

/-- `cmp_record` is a strict weak order, and `cmp_raw_data` is what it leaves open for all tuples that do
not hold the same full string in a `CHAR` column, whatever is behind them in memory. For all tuples this
is so exactly if there is no `CHAR` column in the list. -/
theorem sort_comparators_iff (size : Nat) (cols : List (ColMeta × Bool)) (hlayout : SortLayout size cols) :
    IsStrictWeakOrder RmRecord (fun a b => cmpRecord cols a b = true) ∧
    (∀ a b p q, a.length = size → b.length = size → (∀ c ∈ cols, ¬ SameFull c.1 a b) →
      (cmpRawData cols (a ++ p) (b ++ q) = true ↔ ¬ cmpRecord cols b a = true)) ∧
    ((∀ a b p q, a.length = size → b.length = size →
        (cmpRawData cols (a ++ p) (b ++ q) = true ↔ ¬ cmpRecord cols b a = true)) ↔
      ∀ c ∈ cols, c.1.type ≠ .string) := by
  have hweak := cmpRecord_weak fun c hc => (hlayout c hc).2
  have hagree : ∀ a b p q, a.length = size → b.length = size → (∀ c ∈ cols, ¬ SameFull c.1 a b) →
      (cmpRawData cols (a ++ p) (b ++ q) = true ↔ ¬ cmpRecord cols b a = true) := by
    intro a b p q ha hb hnot
    rw [cmpRawData_eq hlayout ha hb hnot, Bool.not_eq_true', Bool.not_eq_true]
  refine ⟨hweak, hagree, ⟨fun hall c hc hstring => ?_, fun hnone a b p q ha hb => ?_⟩⟩
  · obtain ⟨p, q, hraw⟩ := exists_overrun hlayout ⟨c, hc, hstring⟩
    have hones := (hall (List.replicate size 1) (List.replicate size 1) p q List.length_replicate
      List.length_replicate).mpr (hweak.irrefl _)
    cases hraw.symm.trans hones
  · exact hagree a b p q ha hb fun c hc hsame => hnone c hc hsame.1

/-- An `INT` column, descending. -/
theorem sort_comparators_int : cmpRawData [(⟨"id", .int, 4, 0⟩, true)] ([7, 0, 0, 0] ++ [1]) ([7, 0, 0, 0] ++ [2]) = true ↔
    ¬ cmpRecord [(⟨"id", .int, 4, 0⟩, true)] [7, 0, 0, 0] [7, 0, 0, 0] = true := by
  have hlayout : SortLayout 4 [(⟨"id", .int, 4, 0⟩, true)] := by
    intro c hc
    rw [List.mem_singleton.mp hc]
    exact ⟨⟨by decide, fun _ => rfl, by decide, by decide⟩, by decide⟩
  exact (sort_comparators_iff 4 _ hlayout).2.2.mpr (by simp) _ _ _ _ rfl rfl

/-- `order by s, t desc` for a `CHAR(1)` and an `INT`: `strcmp` goes on from the full string to the bytes of
the number, and puts the smaller one first. -/
theorem sort_comparators_full :
    SortLayout 5 [(⟨"s", .string, 1, 0⟩, false), (⟨"t", .int, 4, 1⟩, true)] ∧
    cmpRawData [(⟨"s", .string, 1, 0⟩, false), (⟨"t", .int, 4, 1⟩, true)] [120, 2, 0, 0, 0] [120, 1, 0, 0, 0] =
      false ∧
    cmpRecord [(⟨"s", .string, 1, 0⟩, false), (⟨"t", .int, 4, 1⟩, true)] [120, 1, 0, 0, 0] [120, 2, 0, 0, 0] =
      false := by
  refine ⟨?_, by decide, by decide⟩
  intro c hc
  simp only [List.mem_cons, List.not_mem_nil, or_false] at hc
  rcases hc with rfl | rfl
  · exact ⟨⟨by decide, by decide, by decide, by decide⟩, by decide⟩
  · exact ⟨⟨by decide, fun _ => rfl, by decide, by decide⟩, by decide⟩

end Rmdb
