-- SUMMARY: `ix_compare` on key bytes against the comparison of the values that the rows hold.
import Rmdb.Common.Bytes

/-!
# Key order and value order

`create_index` takes columns of every type. `ix_compare` has cases for `INT`, `FLOAT` and `CHAR(n)` only, and
throws on the others as soon as it gets to them. On `INT` and `CHAR(n)` columns it orders the keys as the
operators of `Value` order the rows, as long as it is not the bytes behind the end of a string that decide:
`ix_compare` goes through all `n` bytes, and a `Value` ends at the first zero. Rows that the executors write have
only zeros there, which sort a string in front of the strings that it is a prefix of.
-/

namespace Rmdb

-- ---------------------------------------------------------------------------
-- Comparing keys
-- ---------------------------------------------------------------------------

/-- `ix_compare` on one column; `none` is `InternalError`. -/
def ixCompareType (type : ColType) (colLen : Nat) (a b : List UInt8) : Option Int :=
  match type with
  | .int =>
    let ia := readInt a
    let ib := readInt b
    some (if ia < ib then -1 else if ia > ib then 1 else 0)
  | .float =>
    let fa := readFloat a
    let fb := readFloat b
    some (if fa < fb then -1 else if fa > fb then 1 else 0)
  | .string => some (memcmp colLen a b)
  | _ => none

/-- `ix_compare` on the columns of an index. -/
def ixCompareKey : List ColMeta → List UInt8 → List UInt8 → Option Int
  | [], _, _ => some 0
  | col :: cols, a, b => do
    let res ← ixCompareType col.type col.len a b
    if res ≠ 0 then return res else ixCompareKey cols (a.drop col.len) (b.drop col.len)

/-- The key bytes copied from a row. -/
def rowKey (cols : List ColMeta) (r : RmRecord) : List UInt8 :=
  cols.flatMap fun col => slice r col.offset col.len

/-- The number of bytes in a key. -/
def keyLen (cols : List ColMeta) : Nat := (cols.map ColMeta.len).sum

/-- The first column in which two rows differ decides, by `operator<` and `operator>`. -/
def compareRows : List ColMeta → RmRecord → RmRecord → Int
  | [], _, _ => 0
  | col :: cols, r₁, r₂ =>
    if (col.read r₁).lt (col.read r₂) then -1 else if (col.read r₁).gt (col.read r₂) then 1
    else compareRows cols r₁ r₂

/-- The columns of a row are as `init_raw` fills them: a string has only zero bytes behind it. -/
def Written (cols : List ColMeta) (r : RmRecord) : Prop :=
  ∀ col ∈ cols, ∃ v : Value, v.StoredIn col ∧ slice r col.offset col.len = v.raw col.len

/-- `ix_compare` never throws on keys of these columns, it orders them, and it orders the keys of these two rows
as their values are ordered. -/
structure KeyOrder (cols : List ColMeta) (x y : RmRecord) : Prop where
  rows : ixCompareKey cols (rowKey cols x) (rowKey cols y) = some (compareRows cols x y)
  total : ∀ a b, a.length = keyLen cols → b.length = keyLen cols → ∃ res res',
    ixCompareKey cols a b = some res ∧ ixCompareKey cols b a = some res' ∧ (res ≤ 0 ∨ res' ≤ 0)
  trans : ∀ a b c, a.length = keyLen cols → b.length = keyLen cols → c.length = keyLen cols → ∀ res res' res'',
    ixCompareKey cols a b = some res → ixCompareKey cols b c = some res' → ixCompareKey cols a c = some res'' →
    res ≤ 0 → res' ≤ 0 → res'' ≤ 0

/-- The columns that `ix_compare` has a case for, apart from `FLOAT`. -/
def Comparable (cols : List ColMeta) : Prop := ∀ col ∈ cols, col.type = .int ∨ col.type = .string

/-- The bytes of a `CHAR(n)` column up to the first zero. -/
def ColMeta.text (col : ColMeta) (r : RmRecord) : List UInt8 :=
  (slice r col.offset col.len).takeWhile fun b => b != 0

/-- The first column in which two rows have different bytes. If it is a `CHAR(n)`, the strings are different, too,
or else the later columns are ordered as the bytes behind the strings happen to be. -/
def ValuesDecide : List ColMeta → RmRecord → RmRecord → Prop
  | [], _, _ => True
  | col :: cols, r₁, r₂ =>
    if slice r₁ col.offset col.len = slice r₂ col.offset col.len then ValuesDecide cols r₁ r₂
    else col.type = .string → col.text r₁ = col.text r₂ →
      memcmp col.len (slice r₁ col.offset col.len) (slice r₂ col.offset col.len) = compareRows cols r₁ r₂

instance ValuesDecide.decidable : (cols : List ColMeta) → (r₁ r₂ : RmRecord) → Decidable (ValuesDecide cols r₁ r₂)
  | [], _, _ => inferInstanceAs (Decidable True)
  | col :: cols, r₁, r₂ =>
    have := ValuesDecide.decidable cols r₁ r₂
    inferInstanceAs (Decidable (if slice r₁ col.offset col.len = slice r₂ col.offset col.len then ValuesDecide cols r₁ r₂
      else col.type = .string → col.text r₁ = col.text r₂ →
        memcmp col.len (slice r₁ col.offset col.len) (slice r₂ col.offset col.len) = compareRows cols r₁ r₂))

-- ---------------------------------------------------------------------------
-- Keys of `INT` and `CHAR(n)` columns
-- ---------------------------------------------------------------------------

theorem ixCompareKey_cons {col : ColMeta} {cols : List ColMeta} {a b : List UInt8} {res : Int}
    (h : ixCompareType col.type col.len a b = some res) : ixCompareKey (col :: cols) a b =
      if res ≠ 0 then some res else ixCompareKey cols (a.drop col.len) (b.drop col.len) := by
  simp only [ixCompareKey, h]
  rfl

@[simp] theorem keyLen_cons (col : ColMeta) (cols : List ColMeta) :
    keyLen (col :: cols) = col.len + keyLen cols := by
  simp [keyLen]

/-- The same column in the model of the B+ tree. -/
theorem ixCompareType_eq {col : ColMeta} (hcol : col.type = .int ∨ col.type = .string) (hsized : col.Sized) :
    ∃ c : IxCol, c.len = col.len ∧ ∀ a b, ixCompareType col.type col.len a b = some (ixCompareCol c a b) := by
  rcases hcol with htype | htype
  · exact ⟨.int, (hsized.int htype).symm, fun a b => by rw [htype]; rfl⟩
  · exact ⟨.char col.len, rfl, fun a b => by rw [htype]; rfl⟩

/-- On these columns the comparison is the one that the B+ tree is modelled with. -/
theorem ixCompareKey_eq {cols : List ColMeta} (hcols : Comparable cols) (hsized : ∀ c ∈ cols, c.Sized) :
    ∃ ixCols : List IxCol, colTotLen ixCols = keyLen cols ∧
      ∀ a b, ixCompareKey cols a b = some (ixCompareCols ixCols a b) := by
  induction cols with
  | nil => exact ⟨[], rfl, fun _ _ => rfl⟩
  | cons col cols ih =>
    obtain ⟨hcol, hcols⟩ := List.forall_mem_cons.mp hcols
    obtain ⟨hlen, hsized⟩ := List.forall_mem_cons.mp hsized
    obtain ⟨ixCols, htot, hrest⟩ := ih hcols hsized
    obtain ⟨c, hc, htype⟩ := ixCompareType_eq hcol hlen
    refine ⟨c :: ixCols, by rw [colTotLen_cons, htot, hc, keyLen_cons], fun a b => ?_⟩
    rw [ixCompareKey_cons (htype a b), hrest, ixCompareCols, hc]
    exact (apply_ite some _ _ _).symm

/-- A comparison that goes by a linear order is one itself. -/
theorem Compares.le_iff {r : Int} {x y : List Int} (h : Compares r x y) : r ≤ 0 ↔ x ≤ y := by
  rw [le_iff_lt_or_eq, le_iff_lt_or_eq, h.lt, h.eq]

/-- The characters of a string that is `n` bytes long. -/
theorem takeWhile_cons_bne (u : UInt8) (a : List UInt8) :
    (u :: a).takeWhile (fun b => b != 0) = if u = 0 then [] else u :: a.takeWhile fun b => b != 0 := by
  by_cases hu : u = 0 <;> simp [hu]

/-- Bytes compare as the strings in them do, where these are different. -/
theorem memcmp_of_texts_ne {n : Nat} {a b : List UInt8} (ha : a.length = n) (hb : b.length = n)
    (hne : a.takeWhile (fun b => b != 0) ≠ b.takeWhile fun b => b != 0) (p q : List UInt8) :
    memcmp n (a ++ p) (b ++ q) =
      if (a.takeWhile fun b => b != 0) < b.takeWhile (fun b => b != 0) then -1
      else if (b.takeWhile fun b => b != 0) < a.takeWhile (fun b => b != 0) then 1 else 0 := by
  induction n generalizing a b with
  | zero =>
    rw [List.length_eq_zero_iff.mp ha, List.length_eq_zero_iff.mp hb] at hne
    exact absurd rfl hne
  | succ n ih =>
    obtain ⟨u, a, rfl⟩ := List.exists_cons_of_length_eq_add_one ha
    obtain ⟨v, b, rfl⟩ := List.exists_cons_of_length_eq_add_one hb
    rw [takeWhile_cons_bne, takeWhile_cons_bne] at hne ⊢
    have hpos : ∀ {w : UInt8}, w ≠ 0 → 0 < w := UInt8.pos_iff_ne_zero.mpr
    simp only [List.cons_append, memcmp]
    by_cases hu : u = 0
    · by_cases hv : v = 0
      · simp [hu, hv] at hne
      · simp [hu, hv, hpos hv]
    · by_cases hv : v = 0
      · simp [hu, hv, hpos hu, UInt8.lt_asymm (hpos hu)]
      · simp only [hu, hv, if_false] at hne ⊢
        by_cases huv : u < v
        · simp [huv, List.cons_lt_cons_iff]
        · by_cases hvu : v < u
          · have hne' : u ≠ v := fun h => huv (h ▸ hvu)
            simp [huv, hvu, hne', List.cons_lt_cons_iff]
          · obtain rfl : u = v := UInt8.le_antisymm (UInt8.not_lt.mp hvu) (UInt8.not_lt.mp huv)
            have h := ih (by simpa using ha) (by simpa using hb) (fun heq => hne (by rw [heq]))
            simpa [huv, List.cons_lt_cons_iff] using h

theorem memcmp_append {n : Nat} {a b : List UInt8} (ha : a.length = n) (hb : b.length = n) (p q : List UInt8) :
    memcmp n (a ++ p) (b ++ q) = memcmp n a b := by
  induction n generalizing a b with
  | zero => simp [memcmp]
  | succ n ih =>
    obtain ⟨u, a, rfl⟩ := List.exists_cons_of_length_eq_add_one ha
    obtain ⟨v, b, rfl⟩ := List.exists_cons_of_length_eq_add_one hb
    simp only [List.cons_append, memcmp, ih (by simpa using ha) (by simpa using hb)]

/-- Only the same bytes compare as equal. -/
theorem memcmp_eq_zero {n : Nat} {a b : List UInt8} (ha : a.length = n) (hb : b.length = n) :
    memcmp n a b = 0 ↔ a = b := by
  induction n generalizing a b with
  | zero => simp [memcmp, List.length_eq_zero_iff.mp ha, List.length_eq_zero_iff.mp hb]
  | succ n ih =>
    obtain ⟨u, a, rfl⟩ := List.exists_cons_of_length_eq_add_one ha
    obtain ⟨v, b, rfl⟩ := List.exists_cons_of_length_eq_add_one hb
    simp only [memcmp, List.cons.injEq]
    by_cases huv : u < v
    · simp [huv, UInt8.ne_of_lt huv]
    · by_cases hvu : v < u
      · simp [huv, hvu, (UInt8.ne_of_lt hvu).symm]
      · obtain rfl : u = v := UInt8.le_antisymm (UInt8.not_lt.mp hvu) (UInt8.not_lt.mp huv)
        simpa [huv] using ih (by simpa using ha) (by simpa using hb)

theorem readInt_append {bs : List UInt8} (h : bs.length = 4) (rest : List UInt8) : readInt (bs ++ rest) = readInt bs := by
  match bs, h with
  | [_, _, _, _], _ => rfl

/-- The values of a `CHAR(n)` column. -/
theorem Value.StoredIn.exists_string {col : ColMeta} {v : Value} (h : v.StoredIn col) (htype : col.type = .string) :
    ∃ s, v = .string s ∧ s.length ≤ col.len ∧ 0 ∉ s := by
  cases v with
  | string s => exact ⟨s, rfl, h.2⟩
  | float x => cases h
  | int n => cases htype.symm.trans h.1
  | bigint n => cases htype.symm.trans h.1
  | datetime n => cases htype.symm.trans h.1

section

variable {col : ColMeta} {cols : List ColMeta} {x y : RmRecord}

theorem ColMeta.read_text (htype : col.type = .string) (r : RmRecord) : col.read r = .string (col.text r) := by
  simp only [ColMeta.read, htype, ColMeta.text]

/-- A column in which two rows have the same bytes. -/
theorem ixCompareType_same (hcol : col.type = .int ∨ col.type = .string) (hsized : col.Sized)
    (hbytes : slice x col.offset col.len = slice y col.offset col.len) (p q : List UInt8) :
    ixCompareType col.type col.len (slice x col.offset col.len ++ p) (slice y col.offset col.len ++ q) = some 0 := by
  have hy := slice_length y col.offset col.len
  rcases hcol with htype | htype
  · rw [hbytes]
    simp [htype, ixCompareType, hsized.int htype, readInt_append (slice_length _ _ _)]
  · rw [hbytes, htype]
    exact congrArg some ((memcmp_append hy hy p q).trans ((memcmp_eq_zero hy hy).mpr rfl))

/-- A column in which two rows have different numbers or strings. -/
theorem ixCompareType_values (hcol : col.type = .int ∨ col.type = .string) (hsized : col.Sized)
    (hvalues : col.type = .string → col.text x ≠ col.text y) (p q : List UInt8) :
    ixCompareType col.type col.len (slice x col.offset col.len ++ p) (slice y col.offset col.len ++ q) =
      some (if (col.read x).lt (col.read y) then -1 else if (col.read x).gt (col.read y) then 1 else 0) := by
  rcases hcol with htype | htype
  · simp only [ixCompareType, htype, hsized.int htype, readInt_append (slice_length _ _ _), ColMeta.read, Value.lt,
      Value.gt, decide_eq_true_eq, gt_iff_lt]
  · rw [ColMeta.read_text htype, ColMeta.read_text htype, htype]
    simp only [ixCompareType, Value.lt, Value.gt, decide_eq_true_eq]
    exact congrArg some (memcmp_of_texts_ne (slice_length ..) (slice_length ..) (hvalues htype) p q)

/-- Different bytes of a column that holds different values are compared as these values are, and not as equal. -/
theorem compareRows_cons_of_ne (hcol : col.type = .int ∨ col.type = .string) (hsized : col.Sized)
    (hbytes : slice x col.offset col.len ≠ slice y col.offset col.len)
    (hvalues : col.type = .string → col.text x ≠ col.text y) : ∃ res : Int, res ≠ 0 ∧
      (∀ p q, ixCompareType col.type col.len (slice x col.offset col.len ++ p) (slice y col.offset col.len ++ q) =
        some res) ∧ compareRows (col :: cols) x y = res := by
  have hone := ixCompareType_values hcol hsized hvalues
  have hne : (col.read x).lt (col.read y) = true ∨ (col.read x).gt (col.read y) = true := by
    rcases hcol with htype | htype
    · have hlen := hsized.int htype
      have hread : readInt (slice x col.offset 4) ≠ readInt (slice y col.offset 4) := by
        intro heq
        rw [hlen] at hbytes
        rw [← writeSigned_readInt (slice_length x _ _), heq, writeSigned_readInt (slice_length y _ _)] at hbytes
        exact hbytes rfl
      simpa [ColMeta.read, htype, Value.lt, Value.gt] using lt_or_gt_of_ne hread
    · have hx := slice_length x col.offset col.len
      have hy := slice_length y col.offset col.len
      have hmem := memcmp_of_texts_ne hx hy (hvalues htype) [] []
      by_contra hno
      simp only [ColMeta.read_text htype, Value.lt, Value.gt, decide_eq_true_eq, not_or] at hno
      have hzero : memcmp col.len (slice x col.offset col.len ++ []) (slice y col.offset col.len ++ []) = 0 :=
        hmem.trans ((if_neg hno.1).trans (if_neg hno.2))
      rw [List.append_nil, List.append_nil] at hzero
      exact hbytes ((memcmp_eq_zero hx hy).mp hzero)
  refine ⟨_, ?_, hone, ?_⟩
  · rcases hne with hlt | hgt
    · simp [hlt]
    · by_cases hlt : (col.read x).lt (col.read y) = true <;> simp [hlt, hgt]
  · rw [compareRows]
    rcases hne with hlt | hgt
    · simp [hlt]
    · simp [hgt]

/-- Rows that have the same value in a column are compared by the later ones. -/
theorem compareRows_cons_of_read (hcol : col.type = .int ∨ col.type = .string) (h : col.read x = col.read y) :
    compareRows (col :: cols) x y = compareRows cols x y := by
  rw [compareRows, h]
  rcases hcol with htype | htype
  · simp [ColMeta.read, htype, Value.lt, Value.gt]
  · simp [ColMeta.read_text htype, Value.lt, Value.gt, List.lt_irrefl]

end

/-- The keys of two rows compare as the rows do exactly when it is values that decide. -/
theorem ixCompareKey_rowKey_iff {cols : List ColMeta} (hcols : Comparable cols) (hsized : ∀ c ∈ cols, c.Sized)
    {x y : RmRecord} :
    ixCompareKey cols (rowKey cols x) (rowKey cols y) = some (compareRows cols x y) ↔ ValuesDecide cols x y := by
  induction cols with
  | nil => exact iff_of_true rfl trivial
  | cons col cols ih =>
    obtain ⟨hcol, hcols⟩ := List.forall_mem_cons.mp hcols
    obtain ⟨hlen, hsized⟩ := List.forall_mem_cons.mp hsized
    have hdrop : ∀ r : RmRecord, (slice r col.offset col.len ++ rowKey cols r).drop col.len = rowKey cols r :=
      fun r => List.drop_left' (slice_length _ _ _)
    have hkey : ∀ r : RmRecord, rowKey (col :: cols) r = slice r col.offset col.len ++ rowKey cols r := fun _ => rfl
    rw [hkey, hkey, ValuesDecide]
    by_cases hbytes : slice x col.offset col.len = slice y col.offset col.len
    · have hread : col.read x = col.read y := by
        rcases hcol with htype | htype
        · simp only [ColMeta.read, htype, hlen.int htype ▸ hbytes]
        · simp only [ColMeta.read, htype, hbytes]
      rw [ixCompareKey_cons (ixCompareType_same hcol hlen hbytes _ _), hdrop, hdrop, if_neg (not_not.mpr rfl),
        compareRows_cons_of_read hcol hread, if_pos hbytes]
      exact ih hcols hsized
    · rw [if_neg hbytes]
      by_cases hvalues : col.type = .string → col.text x ≠ col.text y
      · obtain ⟨res, hne, hone, hrows⟩ := @compareRows_cons_of_ne col cols x y hcol hlen hbytes hvalues
        rw [ixCompareKey_cons (hone _ _), if_pos hne, hrows]
        exact iff_of_true rfl fun htype htext => absurd htext (hvalues htype)
      · -- The strings are the same, and the bytes behind them decide.
        obtain ⟨htype, htext⟩ := Classical.not_imp.mp hvalues
        rw [not_not] at htext
        have hread : col.read x = col.read y := by
          rw [ColMeta.read_text htype, ColMeta.read_text htype, htext]
        have hx := slice_length x col.offset col.len
        have hy := slice_length y col.offset col.len
        have hone : ixCompareType col.type col.len (slice x col.offset col.len ++ rowKey cols x)
            (slice y col.offset col.len ++ rowKey cols y) =
              some (memcmp col.len (slice x col.offset col.len) (slice y col.offset col.len)) := by
          rw [htype]
          exact congrArg some (memcmp_append hx hy _ _)
        rw [ixCompareKey_cons hone, if_pos fun h => hbytes ((memcmp_eq_zero hx hy).mp h),
          compareRows_cons_of_read (.inr htype) hread, Option.some.injEq]
        exact ⟨fun h _ _ => h, fun h => h htype htext⟩

section

variable {col : ColMeta} {x y : RmRecord}

/-- Where the executors wrote a string there are only zeros behind it: other bytes are another string. -/
theorem text_ne_of_written (hsized : col.Sized) (htype : col.type = .string)
    (hx : ∃ v : Value, v.StoredIn col ∧ slice x col.offset col.len = v.raw col.len)
    (hy : ∃ v : Value, v.StoredIn col ∧ slice y col.offset col.len = v.raw col.len)
    (hbytes : slice x col.offset col.len ≠ slice y col.offset col.len) : col.text x ≠ col.text y := by
  obtain ⟨v, hv, hxv⟩ := hx
  obtain ⟨w, hw, hyw⟩ := hy
  intro htext
  have hs := hv.read hsized hxv
  have ht := hw.read hsized hyw
  rw [ColMeta.read_text htype] at hs ht
  rw [hxv, hyw, ← hs, ← ht, htext] at hbytes
  exact hbytes rfl

/-- One column of two rows that the executors wrote. -/
theorem ixCompareType_written (hcol : col.type = .int ∨ col.type = .string) (hsized : col.Sized)
    (hx : ∃ v : Value, v.StoredIn col ∧ slice x col.offset col.len = v.raw col.len)
    (hy : ∃ v : Value, v.StoredIn col ∧ slice y col.offset col.len = v.raw col.len) (p q : List UInt8) :
    ixCompareType col.type col.len (slice x col.offset col.len ++ p) (slice y col.offset col.len ++ q) =
      some (if (col.read x).lt (col.read y) then -1 else if (col.read x).gt (col.read y) then 1 else 0) := by
  by_cases hbytes : slice x col.offset col.len = slice y col.offset col.len
  · obtain ⟨v, hv, hxv⟩ := hx
    rw [ixCompareType_same hcol hsized hbytes, hv.read hsized hxv, hv.read hsized (hbytes.symm.trans hxv)]
    rcases hcol with htype | htype
    · cases v <;> simp [Value.lt, Value.gt, Value.StoredIn, htype] at hv ⊢
    · obtain ⟨s, rfl, -⟩ := hv.exists_string htype
      simp [Value.lt, Value.gt, List.lt_irrefl]
  · exact ixCompareType_values hcol hsized (fun htype => text_ne_of_written hsized htype hx hy hbytes) p q

end

/-- In rows as the executors write them values decide. -/
theorem Written.valuesDecide {cols : List ColMeta} (hsized : ∀ c ∈ cols, c.Sized) {x y : RmRecord}
    (hx : Written cols x) (hy : Written cols y) : ValuesDecide cols x y := by
  induction cols with
  | nil => exact trivial
  | cons col cols ih =>
    obtain ⟨hlen, hsized⟩ := List.forall_mem_cons.mp hsized
    obtain ⟨hxcol, hx⟩ := List.forall_mem_cons.mp hx
    obtain ⟨hycol, hy⟩ := List.forall_mem_cons.mp hy
    rw [ValuesDecide]
    split
    · exact ih hsized hx hy
    · rename_i hbytes
      exact fun htype htext => absurd htext (text_ne_of_written hlen htype hxcol hycol hbytes)

/-- The keys of two such rows compare as the rows do. -/
theorem ixCompareKey_rowKey {cols : List ColMeta} (hcols : Comparable cols) (hsized : ∀ c ∈ cols, c.Sized)
    {a b : RmRecord} (ha : Written cols a) (hb : Written cols b) :
    ixCompareKey cols (rowKey cols a) (rowKey cols b) = some (compareRows cols a b) :=
  (ixCompareKey_rowKey_iff hcols hsized).mpr (ha.valuesDecide hsized hb)

-- ---------------------------------------------------------------------------
-- Other columns
-- ---------------------------------------------------------------------------

theorem memcmp_self (n : Nat) (a : List UInt8) : memcmp n a a = 0 := by
  induction n generalizing a with
  | zero => rfl
  | succ n ih => cases a with
    | nil => rfl
    | cons x a => simp [memcmp, ih]

/-- A key is compared with itself up to the first column that `ix_compare` has no case for. -/
theorem ixCompareKey_self {cols : List ColMeta} (hfloat : ∀ c ∈ cols, c.type ≠ .float) (hcols : ¬ Comparable cols)
    (k : List UInt8) : ixCompareKey cols k k = none := by
  induction cols generalizing k with
  | nil => exact absurd (fun c hc => by cases hc) hcols
  | cons col cols ih =>
    obtain ⟨hcol, hfloat⟩ := List.forall_mem_cons.mp hfloat
    have hself : ixCompareType col.type col.len k k = some 0 ∧ (col.type = .int ∨ col.type = .string) ∨
        ixCompareType col.type col.len k k = none := by
      cases htype : col.type with
      | int => exact .inl ⟨by simp [ixCompareType], .inl rfl⟩
      | string => exact .inl ⟨by simp [ixCompareType, memcmp_self], .inr rfl⟩
      | float => exact absurd htype hcol
      | bigint => exact .inr rfl
      | datetime => exact .inr rfl
    rcases hself with ⟨hself, htype⟩ | hself
    · have hrest : ¬ Comparable cols := fun h => hcols (List.forall_mem_cons.mpr ⟨htype, h⟩)
      rw [ixCompareKey_cons hself]
      exact ih hfloat hrest _
    · simp only [ixCompareKey, hself]
      rfl

theorem rowKey_length (cols : List ColMeta) (r : RmRecord) : (rowKey cols r).length = keyLen cols := by
  simp [rowKey, keyLen, List.length_flatMap]

/-- `ix_compare` orders keys, and those of two rows by their values, exactly when the index has no `BIGINT` and no
`DATETIME` column and values decide between the rows. -/
theorem keyOrder_iff {cols : List ColMeta} (hfloat : ∀ c ∈ cols, c.type ≠ .float) (hsized : ∀ c ∈ cols, c.Sized)
    (x y : RmRecord) : KeyOrder cols x y ↔ Comparable cols ∧ ValuesDecide cols x y := by
  constructor
  · intro h
    have hcols : Comparable cols := by
      by_contra hcols
      obtain ⟨res, -, hres, -⟩ := h.total (rowKey cols []) (rowKey cols []) (rowKey_length _ _) (rowKey_length _ _)
      rw [ixCompareKey_self hfloat hcols] at hres
      cases hres
    exact ⟨hcols, (ixCompareKey_rowKey_iff hcols hsized).mp h.rows⟩
  · rintro ⟨hcols, hvalues⟩
    obtain ⟨ixCols, htot, hcmp⟩ := ixCompareKey_eq hcols hsized
    have hle : ∀ a b : List UInt8, a.length = keyLen cols → b.length = keyLen cols →
        (ixCompareCols ixCols a b ≤ 0 ↔ rank ixCols a ≤ rank ixCols b) :=
      fun a b ha hb => (compares_cols ixCols (by omega) (by omega)).le_iff
    refine ⟨(ixCompareKey_rowKey_iff hcols hsized).mpr hvalues, ?_, ?_⟩
    · intro a b ha hb
      refine ⟨_, _, hcmp a b, hcmp b a, ?_⟩
      rw [hle a b ha hb, hle b a hb ha]
      exact le_total _ _
    · intro a b c ha hb hc res res' res'' hab hbc hac hres hres'
      rw [hcmp] at hab hbc hac
      cases hab
      cases hbc
      cases hac
      rw [hle a b ha hb] at hres
      rw [hle b c hb hc] at hres'
      rw [hle a c ha hc]
      exact hres.trans hres'

/-- An `INT` column and a string. The rows have the same number, and `"ab"` and `"b"`, each with other bytes
behind it. -/
theorem keyOrder_int_char : KeyOrder [⟨"a", .int, 4, 0⟩, ⟨"s", .string, 4, 4⟩]
    [1, 0, 0, 0, 97, 98, 0, 9] [1, 0, 0, 0, 98, 0, 7, 7] := by
  refine (keyOrder_iff ?_ ?_ _ _).mpr ⟨?_, by decide⟩ <;> intro c hc
  · rcases List.mem_pair.mp hc with rfl | rfl <;> decide
  · rcases List.mem_pair.mp hc with rfl | rfl <;> constructor <;> simp
  · rcases List.mem_pair.mp hc with rfl | rfl <;> decide

/-- `ix_compare` throws on two keys of a `BIGINT` column. -/
theorem not_keyOrder_bigint :
    ¬ KeyOrder [⟨"a", .bigint, 8, 0⟩] [0, 0, 0, 0, 0, 0, 0, 0] [1, 0, 0, 0, 0, 0, 0, 0] := by
  intro h
  cases h.rows

/-- `LOAD` puts every byte of a field into a `CHAR(3)`. Both rows hold `"a"`, and `ix_compare` finds them different. -/
theorem not_keyOrder_behind_zero : ¬ KeyOrder [⟨"s", .string, 3, 0⟩] [97, 0, 120] [97, 0, 121] := by
  intro h
  exact absurd h.rows (by decide)

end Rmdb
