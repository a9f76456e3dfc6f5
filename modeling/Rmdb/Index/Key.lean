-- SUMMARY: Index keys as bytes, `ix_compare` on them, and the linear order it defines.
import Mathlib.Data.List.Lex
import Mathlib.Data.UInt
import Rmdb.Basic

/-!
# Index keys

An index key is the concatenation of the bytes of its columns. `ix_compare` goes
through the columns from the left and compares each by its type: an `INT` column
as a signed 32-bit integer, a `CHAR(n)` column with `memcmp`.

The B+ tree only needs that this comparison is a linear order, so the tree is
written over a class `IxKey` of key types, and the bytes are its instance.
-/

namespace Rmdb

-- ---------------------------------------------------------------------------
-- Comparison of bytes
-- ---------------------------------------------------------------------------

/-- The index columns that `ix_compare` accepts and that are no floats. -/
inductive IxCol where
  | int
  | char (len : Nat)
  deriving DecidableEq, Repr

/-- The entry of `col_lens_`. -/
def IxCol.len : IxCol → Nat
  | .int => 4
  | .char n => n

/-- `col_tot_len_`. -/
def colTotLen (cols : List IxCol) : Nat := (cols.map IxCol.len).sum

@[simp] theorem colTotLen_nil : colTotLen [] = 0 := rfl

@[simp] theorem colTotLen_cons (c : IxCol) (cols : List IxCol) :
    colTotLen (c :: cols) = c.len + colTotLen cols := by
  simp [colTotLen]

/-- The signed reading of a 32-bit word. -/
def toInt32 (n : Nat) : Int := if n < 2147483648 then n else n - 4294967296

/-- `*(int *)a` on a little-endian machine. -/
def readInt : List UInt8 → Int
  | b₀ :: b₁ :: b₂ :: b₃ :: _ =>
    toInt32 (b₀.toNat + 256 * b₁.toNat + 65536 * b₂.toNat + 16777216 * b₃.toNat)
  | _ => 0

/-- The sign of the first difference among the first `n` bytes. -/
def memcmp : Nat → List UInt8 → List UInt8 → Int
  | n + 1, x :: a, y :: b => if x < y then -1 else if y < x then 1 else memcmp n a b
  | _, _, _ => 0

/-- `ix_compare` on one column. -/
def ixCompareCol : IxCol → List UInt8 → List UInt8 → Int
  | .int, a, b => if readInt a < readInt b then -1 else if readInt a > readInt b then 1 else 0
  | .char n, a, b => memcmp n a b

/-- The loop of `ix_compare` over the columns it looks at. -/
def ixCompareCols : List IxCol → List UInt8 → List UInt8 → Int
  | [], _, _ => 0
  | c :: cols, a, b =>
    let res := ixCompareCol c a b
    if res ≠ 0 then res else ixCompareCols cols (a.drop c.len) (b.drop c.len)

/-- `ix_compare`; `pre = 0` compares all columns. -/
def ixCompareBytes (cols : List IxCol) (a b : List UInt8) (pre : Nat) : Int :=
  ixCompareCols (cols.take (if pre > 0 then pre else cols.length)) a b

-- ---------------------------------------------------------------------------
-- The order of the bytes
-- ---------------------------------------------------------------------------

/-- The numbers that `ix_compare` compares one after the other. -/
def rank : List IxCol → List UInt8 → List Int
  | [], _ => []
  | .int :: cols, bs => readInt bs :: rank cols (bs.drop 4)
  | .char n :: cols, bs => (bs.take n).map (fun b => (b.toNat : Int)) ++ rank cols (bs.drop n)

/-- A comparison result against the lexicographic order of two lists. -/
structure Compares (r : Int) (x y : List Int) : Prop where
  lt : r < 0 ↔ x < y
  eq : r = 0 ↔ x = y

theorem Compares.nil : Compares 0 [] [] := ⟨by simp, by simp⟩

/-- The first numbers decide, and on a tie the rest does. -/
theorem append_lt_append_iff {p q x y : List Int} (hlen : p.length = q.length) :
    p ++ x < q ++ y ↔ p < q ∨ p = q ∧ x < y := by
  induction p generalizing q with
  | nil =>
    cases List.length_eq_zero_iff.mp hlen.symm
    simp
  | cons a p ih =>
    cases q with
    | nil => cases hlen
    | cons b q =>
      simp only [List.cons_append, List.cons_lt_cons_iff, ih (Nat.succ.inj hlen), List.cons.injEq]
      tauto

theorem Compares.append {r r' : Int} {p q x y : List Int} (hlen : p.length = q.length)
    (h : Compares r p q) (h' : Compares r' x y) :
    Compares (if r ≠ 0 then r else r') (p ++ x) (q ++ y) := by
  have happ : p ++ x < q ++ y ↔ p < q ∨ p = q ∧ x < y := append_lt_append_iff hlen
  have heq : p ++ x = q ++ y ↔ p = q ∧ x = y :=
    ⟨fun e => List.append_inj e hlen, fun ⟨e, e'⟩ => by rw [e, e']⟩
  by_cases hr : r = 0
  · have hpq : p = q := h.eq.mp hr
    subst hpq
    rw [if_neg (by simp [hr])]
    refine ⟨?_, ?_⟩
    · rw [happ, h'.lt]
      simp
    · rw [heq, h'.eq]
      simp
  · have hpq : p ≠ q := fun e => hr (h.eq.mpr e)
    rw [if_pos hr]
    refine ⟨?_, ?_⟩
    · rw [happ, h.lt]
      simp [hpq]
    · rw [heq]
      simp [hr, hpq]

theorem compares_readInt (a b : List UInt8) :
    Compares (ixCompareCol .int a b) [readInt a] [readInt b] := by
  simp only [ixCompareCol]
  refine ⟨?_, ?_⟩ <;> split <;> rename_i h <;> try split
  all_goals simp only [List.cons_lt_cons_iff, List.cons.injEq]
  all_goals simp
  all_goals omega

theorem compares_memcmp (n : Nat) {a b : List UInt8} (ha : n ≤ a.length) (hb : n ≤ b.length) :
    Compares (memcmp n a b) ((a.take n).map (fun b => (b.toNat : Int)))
      ((b.take n).map (fun b => (b.toNat : Int))) := by
  induction n generalizing a b with
  | zero =>
    cases a <;> cases b <;> exact Compares.nil
  | succ n ih =>
    cases a with
    | nil => cases ha
    | cons x a =>
      cases b with
      | nil => cases hb
      | cons y b =>
        have ih' := ih (Nat.le_of_succ_le_succ ha) (Nat.le_of_succ_le_succ hb)
        have hcol : Compares (if x < y then -1 else if y < x then 1 else 0)
            [(x.toNat : Int)] [(y.toNat : Int)] := by
          have hlt : ∀ u v : UInt8, u < v ↔ u.toNat < v.toNat := fun u v => UInt8.lt_iff_toNat_lt
          refine ⟨?_, ?_⟩ <;> split <;> rename_i h <;> try split
          all_goals simp only [List.cons_lt_cons_iff, List.cons.injEq, hlt] at *
          all_goals simp
          all_goals omega
        have := Compares.append (p := [(x.toNat : Int)]) (q := [(y.toNat : Int)]) rfl hcol ih'
        have hcmp : memcmp (n + 1) (x :: a) (y :: b) =
            if (if x < y then (-1 : Int) else if y < x then 1 else 0) ≠ 0 then
              if x < y then -1 else if y < x then 1 else 0
            else memcmp n a b := by
          simp only [memcmp]
          split
          · simp
          · split <;> simp
        rw [hcmp]
        exact this

theorem compares_col (c : IxCol) {a b : List UInt8} (ha : c.len ≤ a.length) (hb : c.len ≤ b.length) :
    Compares (ixCompareCol c a b) (rank [c] a) (rank [c] b) := by
  cases c with
  | int => exact compares_readInt a b
  | char n => simpa [rank, ixCompareCol] using compares_memcmp n ha hb

theorem rank_length_eq (cols : List IxCol) {a b : List UInt8}
    (ha : colTotLen cols ≤ a.length) (hb : colTotLen cols ≤ b.length) :
    (rank cols a).length = (rank cols b).length := by
  induction cols generalizing a b with
  | nil => rfl
  | cons c cols ih =>
    rw [colTotLen_cons] at ha hb
    have := @ih (a.drop c.len) (b.drop c.len) (by rw [List.length_drop]; omega)
      (by rw [List.length_drop]; omega)
    cases c with
    | int => simpa [rank, IxCol.len] using this
    | char n =>
      simp only [IxCol.len] at ha hb this
      simp only [rank, List.length_append, List.length_map, List.length_take, this]
      omega

theorem rank_cons (c : IxCol) (cols : List IxCol) (bs : List UInt8) :
    rank (c :: cols) bs = rank [c] bs ++ rank cols (bs.drop c.len) := by
  cases c with
  | int => rfl
  | char n => simp [rank, IxCol.len]

/-- `ix_compare` is the lexicographic comparison of the column values. -/
theorem compares_cols (cols : List IxCol) {a b : List UInt8}
    (ha : colTotLen cols ≤ a.length) (hb : colTotLen cols ≤ b.length) :
    Compares (ixCompareCols cols a b) (rank cols a) (rank cols b) := by
  induction cols generalizing a b with
  | nil => exact Compares.nil
  | cons c cols ih =>
    rw [colTotLen_cons] at ha hb
    have hhead : (rank [c] a).length = (rank [c] b).length :=
      rank_length_eq [c] (by simp only [colTotLen_cons, colTotLen_nil]; omega)
        (by simp only [colTotLen_cons, colTotLen_nil]; omega)
    have hrest := @ih (a.drop c.len) (b.drop c.len) (by rw [List.length_drop]; omega)
      (by rw [List.length_drop]; omega)
    rw [rank_cons c cols a, rank_cons c cols b]
    exact (compares_col c (by omega) (by omega)).append hhead hrest

private theorem readInt_inj {x y : List UInt8} (hx : 4 ≤ x.length) (hy : 4 ≤ y.length)
    (h : readInt x = readInt y) : x.take 4 = y.take 4 := by
  match x, y, hx, hy with
  | x₀ :: x₁ :: x₂ :: x₃ :: x, y₀ :: y₁ :: y₂ :: y₃ :: y, _, _ =>
    have lx₀ := x₀.toNat_lt; have lx₁ := x₁.toNat_lt
    have lx₂ := x₂.toNat_lt; have lx₃ := x₃.toNat_lt
    have ly₀ := y₀.toNat_lt; have ly₁ := y₁.toNat_lt
    have ly₂ := y₂.toNat_lt; have ly₃ := y₃.toNat_lt
    have hn : x₀.toNat + 256 * x₁.toNat + 65536 * x₂.toNat + 16777216 * x₃.toNat =
        y₀.toNat + 256 * y₁.toNat + 65536 * y₂.toNat + 16777216 * y₃.toNat := by
      simp only [readInt, toInt32] at h
      split at h <;> split at h <;> omega
    have h₀ : x₀ = y₀ := UInt8.toNat_inj.mp (by omega)
    have h₁ : x₁ = y₁ := UInt8.toNat_inj.mp (by omega)
    have h₂ : x₂ = y₂ := UInt8.toNat_inj.mp (by omega)
    have h₃ : x₃ = y₃ := UInt8.toNat_inj.mp (by omega)
    simp [h₀, h₁, h₂, h₃]

private theorem map_toNat_inj {x y : List UInt8}
    (h : x.map (fun b => (b.toNat : Int)) = y.map (fun b => (b.toNat : Int))) : x = y := by
  apply List.map_injective_iff.mpr _ h
  intro u v huv
  exact UInt8.toNat_inj.mp (by simpa using huv)

/-- Two keys that compare equal are the same bytes. -/
theorem rank_inj (cols : List IxCol) {a b : List UInt8}
    (ha : a.length = colTotLen cols) (hb : b.length = colTotLen cols)
    (h : rank cols a = rank cols b) : a = b := by
  induction cols generalizing a b with
  | nil =>
    rw [List.length_eq_zero_iff.mp ha, List.length_eq_zero_iff.mp hb]
  | cons c cols ih =>
    rw [colTotLen_cons] at ha hb
    rw [rank_cons c cols a, rank_cons c cols b] at h
    have hhead : (rank [c] a).length = (rank [c] b).length :=
      rank_length_eq [c] (by simp only [colTotLen_cons, colTotLen_nil]; omega)
        (by simp only [colTotLen_cons, colTotLen_nil]; omega)
    obtain ⟨hc, hrest⟩ := List.append_inj h hhead
    have hd := ih (by rw [List.length_drop]; omega) (by rw [List.length_drop]; omega) hrest
    have ht : a.take c.len = b.take c.len := by
      cases c with
      | int =>
        simp only [IxCol.len] at ha hb
        exact readInt_inj (by omega) (by omega) (by simpa [rank] using hc)
      | char n => exact map_toNat_inj (by simpa [rank, IxCol.len] using hc)
    rw [← List.take_append_drop c.len a, ← List.take_append_drop c.len b, ht, hd]

-- ---------------------------------------------------------------------------
-- Key types
-- ---------------------------------------------------------------------------

/-- A type of index keys: what the B+ tree knows about `ix_compare` on full keys. -/
class IxKey (K : Type) extends LinearOrder K where
  /-- `ix_compare(a, b, col_types_, col_lens_, pre)`. -/
  ixCompare : K → K → Nat → Int
  ixCompare_lt_zero : ∀ a b, ixCompare a b 0 < 0 ↔ a < b
  ixCompare_eq_zero : ∀ a b, ixCompare a b 0 = 0 ↔ a = b

export IxKey (ixCompare)

theorem ixCompare_pos {K : Type} [IxKey K] (a b : K) : 0 < ixCompare a b 0 ↔ b < a := by
  have hlt := IxKey.ixCompare_lt_zero a b
  have heq := IxKey.ixCompare_eq_zero a b
  constructor
  · intro h
    rcases lt_trichotomy a b with hab | hab | hab
    · have := hlt.mpr hab
      omega
    · have := heq.mpr hab
      omega
    · exact hab
  · intro h
    by_contra hc
    rcases (show ixCompare a b 0 < 0 ∨ ixCompare a b 0 = 0 by omega) with h' | h'
    · exact absurd (hlt.mp h') h.asymm
    · exact absurd (heq.mp h') h.ne'

/-- The keys of an index on the columns `cols`: `col_tot_len_` bytes. -/
structure KeyBytes (cols : List IxCol) where
  bytes : List UInt8
  length_eq : bytes.length = colTotLen cols

theorem KeyBytes.ext {cols : List IxCol} {a b : KeyBytes cols} (h : a.bytes = b.bytes) : a = b := by
  cases a
  cases b
  cases h
  rfl

private theorem KeyBytes.rank_injective (cols : List IxCol) :
    Function.Injective (fun k : KeyBytes cols => rank cols k.bytes) :=
  fun a b h => KeyBytes.ext (rank_inj cols a.length_eq b.length_eq h)

instance (cols : List IxCol) : LinearOrder (KeyBytes cols) :=
  LinearOrder.lift' (fun k => rank cols k.bytes) (KeyBytes.rank_injective cols)

theorem KeyBytes.lt_iff {cols : List IxCol} {a b : KeyBytes cols} :
    a < b ↔ rank cols a.bytes < rank cols b.bytes := Iff.rfl

theorem KeyBytes.compares {cols : List IxCol} (a b : KeyBytes cols) :
    Compares (ixCompareBytes cols a.bytes b.bytes 0) (rank cols a.bytes) (rank cols b.bytes) := by
  have h := compares_cols cols a.length_eq.ge b.length_eq.ge
  simpa [ixCompareBytes] using h

instance (cols : List IxCol) : IxKey (KeyBytes cols) where
  ixCompare a b pre := ixCompareBytes cols a.bytes b.bytes pre
  ixCompare_lt_zero a b := (KeyBytes.compares a b).lt
  ixCompare_eq_zero a b := (KeyBytes.compares a b).eq.trans
    ⟨fun h => KeyBytes.rank_injective cols h, fun h => by rw [h]⟩

end Rmdb
