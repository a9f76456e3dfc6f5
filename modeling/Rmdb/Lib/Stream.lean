-- SUMMARY: Text streams of tokens with white space between them: readers, and what they read.
import Mathlib.Data.List.TakeDrop
import Mathlib.Data.List.TakeWhile

/-!
# Text streams

Formatted input skips white space, reads one token and leaves the rest. Where all values are
written with white space between them, only the tokens of a text matter and not the white space.
`Reads` speaks of tokens, so that readers compose without a word about separators.
-/

namespace Stream

abbrev Text := List Char

/-- `isspace` of the classic locale. -/
def isSpace (c : Char) : Bool :=
  c == ' ' || c == '\t' || c == '\n' || c == '\x0b' || c == '\x0c' || c == '\r'

/-- The tokens of a text. -/
def words (t : Text) : List Text := (t.splitOnP isSpace).filter fun w => !w.isEmpty

/-- A reader fails or leaves what comes after the value. -/
abbrev Reader (α : Type) := StateT Text Option α

-- ---------------------------------------------------------------------------
-- Tokens
-- ---------------------------------------------------------------------------

variable {t w rest : Text} {c : Char}

/-- A token: not empty, and no white space in it. -/
structure IsWord (w : Text) : Prop where
  ne_nil : w ≠ []
  noSpace : ∀ c ∈ w, isSpace c = false

/-- A token cannot go on here. -/
def AtBreak (rest : Text) : Prop := ∀ c ∈ rest.head?, isSpace c = true

@[simp] theorem words_nil : words [] = [] := rfl

@[simp] theorem words_append_space (hc : isSpace c = true) (a b : Text) :
    words (a ++ c :: b) = words a ++ words b := by
  simp [words, List.splitOnP_append_cons a b hc]

@[simp] theorem words_space (hc : isSpace c = true) (t : Text) : words (c :: t) = words t :=
  words_append_space hc [] t

theorem words_of_noSpace (h : ∀ c ∈ w, isSpace c = false) :
    words w = if w = [] then [] else [w] := by
  rw [words, List.splitOnP_eq_singleton h]
  cases w <;> rfl

theorem IsWord.words (h : IsWord w) : words w = [w] := by
  rw [words_of_noSpace h.noSpace, if_neg h.ne_nil]

theorem words_dropWhile (t : Text) : words (t.dropWhile isSpace) = words t := by
  induction t with
  | nil => rfl
  | cons c t ih =>
    by_cases hc : isSpace c = true
    · rw [List.dropWhile_cons_of_pos hc, ih, words_space hc]
    · rw [List.dropWhile_cons_of_neg hc]

theorem atBreak_dropWhile (t : Text) : AtBreak (t.dropWhile fun c => !isSpace c) := by
  intro c hc
  have := List.head?_dropWhile_not (fun c => !isSpace c) t
  rw [Option.mem_def] at hc
  simpa [hc] using this

/-- The first token of a text is at its start, behind the white space. -/
theorem words_eq_cons {more : List Text} (h : words t = w :: more) :
    IsWord w ∧ ∃ rest, t.dropWhile isSpace = w ++ rest ∧ AtBreak rest ∧ words rest = more := by
  let s := t.dropWhile isSpace
  let u := s.takeWhile fun c => !isSpace c
  let rest := s.dropWhile fun c => !isSpace c
  have hs : s = u ++ rest := List.takeWhile_append_dropWhile.symm
  have hbreak : AtBreak rest := atBreak_dropWhile s
  have hu : ∀ c ∈ u, isSpace c = false := by
    intro c hc
    simpa using List.mem_takeWhile_imp hc
  have hsplit : words s = (if u = [] then [] else [u]) ++ words rest := by
    rw [← words_of_noSpace hu, hs]
    cases hrest : rest with
    | nil => simp
    | cons c r =>
      have hc : isSpace c = true := hbreak c (by simp [hrest])
      rw [words_append_space hc, words_space hc]
  rw [← words_dropWhile, show t.dropWhile isSpace = s from rfl, hsplit] at h
  by_cases hnil : u = []
  · -- No white space is left at the start, so there is nothing left at all.
    have hrest : rest = [] := by
      cases hr : rest with
      | nil => rfl
      | cons c r =>
        have hsr : s = c :: r := by rw [hs, hnil, hr, List.nil_append]
        have hc : isSpace c = true := hbreak c (by simp [hr])
        have hhead := List.head?_dropWhile_not isSpace t
        rw [show t.dropWhile isSpace = s from rfl, hsr] at hhead
        simp [hc] at hhead
    simp [hnil, hrest] at h
  · rw [if_neg hnil, List.singleton_append, List.cons.injEq] at h
    obtain ⟨rfl, hmore⟩ := h
    exact ⟨⟨hnil, hu⟩, rest, hs, hbreak, hmore⟩

-- ---------------------------------------------------------------------------
-- Readers
-- ---------------------------------------------------------------------------

/-- `>>` into a string. -/
def word : Reader Text := fun t =>
  match (t.dropWhile isSpace).span fun c => !isSpace c with
  | ([], _) => none
  | (w, rest) => some (w, rest)

/-- The digits at the start of a text, as a number. -/
def digits : Reader Nat := fun t =>
  match t.span Char.isDigit with
  | ([], _) => none
  | (ds, rest) => some (Nat.ofDigitChars 10 ds 0, rest)

/-- `>>` into an unsigned number that cannot overflow. -/
def nat : Reader Nat := fun t => digits (t.dropWhile isSpace)

/-- `>>` into a number with a sign. -/
def int : Reader Int := fun t =>
  match t.dropWhile isSpace with
  | '-' :: t => (digits t).map fun (n, rest) => (-n, rest)
  | '+' :: t => (digits t).map fun (n, rest) => (n, rest)
  | t => (digits t).map fun (n, rest) => (n, rest)

/-- A loop that reads `n` values. -/
def times {α : Type} (r : Reader α) : Nat → Reader (List α)
  | 0 => pure []
  | n + 1 => do
    let a ← r
    let l ← times r n
    return a :: l

/-- `<<` of a number. -/
def showNat (n : Nat) : Text := Nat.toDigits 10 n

def showInt : Int → Text
  | .ofNat n => showNat n
  | .negSucc n => '-' :: showNat (n + 1)

theorem isSpace_of_isDigit (h : c.isDigit = true) : isSpace c = false := by
  by_contra hs
  simp only [Bool.not_eq_false, isSpace, Bool.or_eq_true, beq_iff_eq] at hs
  rcases hs with ((((rfl | rfl) | rfl) | rfl) | rfl) | rfl <;> revert h <;> decide

theorem isWord_showNat (n : Nat) : IsWord (showNat n) where
  ne_nil := Nat.toDigits_ne_nil
  noSpace _ hc := isSpace_of_isDigit (Nat.isDigit_of_mem_toDigits (by decide) (by decide) hc)

theorem isWord_showInt (i : Int) : IsWord (showInt i) := by
  cases i with
  | ofNat n => exact isWord_showNat n
  | negSucc n =>
    refine ⟨List.cons_ne_nil _ _, fun c hc => ?_⟩
    rcases List.mem_cons.mp hc with rfl | hc
    · rfl
    · exact (isWord_showNat (n + 1)).noSpace c hc

/-- A span stops where its token does. -/
theorem span_append {p : Char → Bool} (hw : ∀ c ∈ w, p c = true)
    (hrest : ∀ c ∈ rest.head?, p c = false) : (w ++ rest).span p = (w, rest) := by
  rw [List.span_eq_takeWhile_dropWhile, List.takeWhile_append_of_pos hw,
    List.dropWhile_append_of_pos hw]
  cases rest with
  | nil => simp
  | cons c r =>
    have hc : p c = false := hrest c rfl
    simp [hc]

theorem digits_showNat (n : Nat) (hrest : AtBreak rest) :
    digits (showNat n ++ rest) = some (n, rest) := by
  have hspan : (showNat n ++ rest).span Char.isDigit = (showNat n, rest) := by
    refine span_append (fun c hc => Nat.isDigit_of_mem_toDigits (by decide) (by decide) hc) ?_
    intro c hc
    by_contra hdigit
    rw [Bool.not_eq_false] at hdigit
    cases (hrest c hc).symm.trans (isSpace_of_isDigit hdigit)
  simp only [digits, hspan]
  split
  · rename_i heq
    exact absurd (congrArg Prod.fst heq) (isWord_showNat n).ne_nil
  · rename_i heq
    cases heq
    rw [showNat, Nat.ofDigitChars_toDigits (by decide) (by decide)]

-- ---------------------------------------------------------------------------
-- What a reader reads
-- ---------------------------------------------------------------------------

variable {α β : Type} {r : Reader α} {toks : List Text} {a : α}

/-- From every text that starts with these tokens, the value is read and the other tokens are
left. -/
def Reads (r : Reader α) (toks : List Text) (a : α) : Prop :=
  ∀ t more, words t = toks ++ more → ∃ t', r t = some (a, t') ∧ words t' = more

theorem Reads.pure (a : α) : Reads (pure a) [] a :=
  fun t _ ht => ⟨t, rfl, ht⟩

theorem Reads.bind {f : α → Reader β} {toks' : List Text} {b : β} (h : Reads r toks a)
    (hf : Reads (f a) toks' b) : Reads (r >>= f) (toks ++ toks') b := by
  intro t more ht
  rw [List.append_assoc] at ht
  obtain ⟨t₁, hr, ht₁⟩ := h t _ ht
  obtain ⟨t₂, hr₂, ht₂⟩ := hf t₁ more ht₁
  refine ⟨t₂, ?_, ht₂⟩
  show (r t).bind (fun p => f p.1 p.2) = _
  rw [hr]
  exact hr₂

/-- The value is read, and something is made of it. -/
theorem Reads.map (h : Reads r toks a) (f : α → β) :
    Reads (r >>= fun a => Pure.pure (f a)) toks (f a) := by
  have hbind := h.bind (f := fun a => Pure.pure (f a)) (.pure (f a))
  rwa [List.append_nil] at hbind

theorem Reads.word (w : Text) : Reads word [w] w := by
  intro t more ht
  obtain ⟨hw, rest, hdrop, hbreak, hmore⟩ := words_eq_cons ht
  refine ⟨rest, ?_, hmore⟩
  have hspan : (w ++ rest).span (fun c => !isSpace c) = (w, rest) := by
    refine span_append (fun c hc => ?_) (fun c hc => ?_)
    · simp [hw.noSpace c hc]
    · simp [hbreak c hc]
  simp only [Stream.word, hdrop, hspan]
  split
  · rename_i heq
    exact absurd (congrArg Prod.fst heq) hw.ne_nil
  · rename_i heq
    cases heq
    rfl

theorem Reads.nat (n : Nat) : Reads nat [showNat n] n := by
  intro t more ht
  obtain ⟨-, rest, hdrop, hbreak, hmore⟩ := words_eq_cons ht
  refine ⟨rest, ?_, hmore⟩
  rw [Stream.nat, hdrop, digits_showNat n hbreak]

theorem Reads.int (i : Int) : Reads int [showInt i] i := by
  intro t more ht
  obtain ⟨-, rest, hdrop, hbreak, hmore⟩ := words_eq_cons ht
  refine ⟨rest, ?_, hmore⟩
  simp only [Stream.int, hdrop]
  cases i with
  | negSucc n =>
    simp only [showInt, List.cons_append, digits_showNat _ hbreak]
    rfl
  | ofNat n =>
    -- The token starts with a digit, which is no sign.
    have hdigit : ∀ c ∈ (showNat n).head?, c.isDigit = true := fun c hc =>
      Nat.isDigit_of_mem_toDigits (by decide) (by decide) (List.mem_of_mem_head? hc)
    have hread := digits_showNat n hbreak
    simp only [showInt]
    cases hs : showNat n with
    | nil => exact absurd hs (isWord_showNat n).ne_nil
    | cons c ds =>
      rw [hs] at hread hdigit
      have hc : c.isDigit = true := hdigit c rfl
      simp only [List.cons_append] at hread ⊢
      split
      · rename_i heq
        cases heq
        cases hc
      · rename_i heq
        cases heq
        cases hc
      · simp [hread]

theorem Reads.times {tok : α → List Text} {l : List α} (h : ∀ a ∈ l, Reads r (tok a) a) :
    Reads (times r l.length) (l.flatMap tok) l := by
  induction l with
  | nil => exact .pure []
  | cons a l ih =>
    rw [List.flatMap_cons]
    refine (h a List.mem_cons_self).bind ?_
    exact (ih fun b hb => h b (List.mem_cons_of_mem _ hb)).map (a :: ·)

end Stream
