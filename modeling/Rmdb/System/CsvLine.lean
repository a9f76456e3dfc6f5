-- SUMMARY: How `load_data` cuts a line of a file into words, and the lines that it cuts rightly.
import Rmdb.Common.DateTime

/-!
# Lines of a CSV file

The loop of `SmManager::load_data` over the characters of a line. It goes on twice at a comma, so
that it never looks at the character behind one. A word is trimmed from both ends; `word[end]` has
no bound, and to read in front of a word is `none`, as is an `int` that grows too large.
-/

namespace Rmdb

-- ---------------------------------------------------------------------------
-- Trimming
-- ---------------------------------------------------------------------------

/-- `while (word[begin] == ' ') begin++;`. Behind the last character there is a zero. -/
def skipFront (word : List UInt8) : Nat := (word.takeWhile fun b => b = 32).length

/-- `while (word[end] == ' ') end--;`, where `end` is below the given number. -/
def skipBack (word : List UInt8) : Nat → Option Nat
  | 0 => none
  | e + 1 => if word[e]? = some 32 then skipBack word e else some e

def trimWord (word : List UInt8) : Option (List UInt8) :=
  (skipBack word word.length).map fun e => substr word (skipFront word) (e + 1 - skipFront word)

-- ---------------------------------------------------------------------------
-- Splitting
-- ---------------------------------------------------------------------------

/-- `index++`, for an `int`. -/
def incr (index : Nat) : Option Nat := if index < 2147483647 then some (index + 1) else none

/-- The loop over the line, with what is left of it from `index` on. -/
def splitLoop (line : List UInt8) :
    List UInt8 → Nat → Nat → List (List UInt8) → Option (Nat × Nat × List (List UInt8))
  | [], index, index1, words => some (index, index1, words)
  | c :: rest, index, index1, words =>
    if c = 44 then do
      let word ← trimWord (substr line index1 (index - index1))
      -- Once in the body, and once more by the `for`.
      let index1 ← incr index
      let index ← incr index1
      match rest with
      | [] => some (index, index1, words ++ [word])
      | _ :: rest => splitLoop line rest index index1 (words ++ [word])
    else do
      let index ← incr index
      splitLoop line rest index index1 words

/-- The word behind the last comma. -/
def lastWord (line : List UInt8) : Nat × Nat × List (List UInt8) → Option (List (List UInt8))
  | (index, index1, words) =>
    (trimWord (substr line index1 (index - index1))).map fun word => words ++ [word]

def splitLine (line : List UInt8) : Option (List (List UInt8)) :=
  splitLoop line line 0 0 [] >>= lastWord line

-- ---------------------------------------------------------------------------
-- Fields
-- ---------------------------------------------------------------------------

/-- The line with these fields. -/
def csvLine : List (List UInt8) → List UInt8
  | [] => []
  | [f] => f
  | f :: g :: fs => f ++ 44 :: csvLine (g :: fs)

/-- A field without the blanks at both ends. -/
def trimBlanks (f : List UInt8) : List UInt8 :=
  ((f.dropWhile fun b => b = 32).reverse.dropWhile fun b => b = 32).reverse

/-- There is something in the field besides blanks. -/
def HasText (f : List UInt8) : Prop := ∃ b ∈ f, b ≠ 32

variable {line word f g front rest : List UInt8} {fs ws words : List (List UInt8)} {index index1 k : Nat}

theorem head_dropWhile_blank {b : UInt8} (h : (f.dropWhile fun b => b = 32).head? = some b) : b ≠ 32 := by
  rintro rfl
  have hnot := List.head?_dropWhile_not (fun b : UInt8 => decide (b = 32)) f
  rw [h] at hnot
  simp at hnot

/-- A field with text is a text between blanks. -/
theorem HasText.parts (h : HasText f) : ∃ p m b q, f = p ++ ((m ++ [b]) ++ q) ∧ trimBlanks f = m ++ [b] ∧
    skipFront f = p.length ∧ b ≠ 32 ∧ ∀ c ∈ q, c = 32 := by
  have hne : (f.dropWhile fun b => b = 32).reverse.dropWhile (fun b => b = 32) ≠ [] := by
    rw [Ne, List.dropWhile_eq_nil_iff]
    intro hall
    obtain ⟨b, hb, hbne⟩ := h
    have hnil : f.dropWhile (fun b => b = 32) = [] := by
      cases hd : f.dropWhile (fun b => b = 32) with
      | nil => rfl
      | cons c rest =>
        have hc := hall c (by simp [hd])
        exact absurd (by simpa using hc) (head_dropWhile_blank (f := f) (by rw [hd]; rfl))
    exact hbne (by simpa using List.dropWhile_eq_nil_iff.mp hnil b hb)
  obtain ⟨b, rest, hrest⟩ := List.exists_cons_of_ne_nil hne
  refine ⟨f.takeWhile fun b => b = 32, rest.reverse, b,
    ((f.dropWhile fun b => b = 32).reverse.takeWhile fun b => b = 32).reverse, ?_, ?_, rfl, ?_, ?_⟩
  · have hsplit := congrArg List.reverse
      (List.takeWhile_append_dropWhile (p := fun b : UInt8 => decide (b = 32))
        (l := (f.dropWhile fun b => b = 32).reverse))
    rw [List.reverse_append, List.reverse_reverse, hrest, List.reverse_cons] at hsplit
    rw [hsplit, List.takeWhile_append_dropWhile]
  · rw [trimBlanks, hrest, List.reverse_cons]
  · apply head_dropWhile_blank (f := (f.dropWhile fun b => b = 32).reverse)
    rw [hrest]
    rfl
  · intro c hc
    simpa using List.mem_takeWhile_imp (List.mem_reverse.mp hc)

theorem skipBack_of_blank {n : Nat} (h : ∀ b ∈ word, b = 32) (hn : n ≤ word.length) : skipBack word n = none := by
  induction n with
  | zero => rfl
  | succ e ih =>
    have hlt : e < word.length := by omega
    rw [skipBack, List.getElem?_eq_getElem hlt, if_pos (congrArg some (h _ (List.getElem_mem hlt)))]
    exact ih (by omega)

/-- To trim a word without text, `word[-1]` is read. -/
theorem trimWord_eq_none (h : ¬ HasText word) : trimWord word = none := by
  have hblank : ∀ b ∈ word, b = 32 := by
    intro b hb
    by_contra hne
    exact h ⟨b, hb, hne⟩
  rw [trimWord, skipBack_of_blank hblank (Nat.le_refl _)]
  rfl

/-- The blanks at the end are skipped. -/
theorem skipBack_append {q : List UInt8} (hq : ∀ b ∈ q, b = 32) (n : Nat) (hn : n ≤ q.length) :
    skipBack (word ++ q) (word.length + n) = skipBack (word ++ q) word.length := by
  induction n with
  | zero => rfl
  | succ e ih =>
    have hlt : e < q.length := by omega
    have hget : (word ++ q)[word.length + e]? = some 32 := by
      rw [List.getElem?_append_right (by omega), Nat.add_sub_cancel_left, List.getElem?_eq_getElem hlt]
      exact congrArg some (hq _ (List.getElem_mem hlt))
    rw [← Nat.add_assoc, skipBack, if_pos hget]
    exact ih (by omega)

theorem trimWord_of_hasText (h : HasText word) : trimWord word = some (trimBlanks word) := by
  obtain ⟨p, m, b, q, hword, htrim, hfront, hb, hq⟩ := h.parts
  have hback : skipBack word word.length = some (p.length + m.length) := by
    have hlen : word.length = (p ++ (m ++ [b])).length + q.length := by simp [hword]; omega
    have hsplit : word = (p ++ (m ++ [b])) ++ q := by rw [hword, ← List.append_assoc]
    have hskip := @skipBack_append (p ++ (m ++ [b])) q hq q.length (Nat.le_refl _)
    rw [← hsplit, ← hlen] at hskip
    rw [hskip]
    have hlast : (p ++ (m ++ [b])).length = (p.length + m.length) + 1 := by simp; omega
    have hget : word[p.length + m.length]? = some b := by
      rw [hsplit, List.getElem?_append_left (by omega), List.getElem?_append_right (by omega),
        Nat.add_sub_cancel_left, List.getElem?_append_right (Nat.le_refl _), Nat.sub_self]
      rfl
    rw [hlast, skipBack, hget, if_neg (by simpa using hb)]
  rw [trimWord, hback, htrim, hfront, Option.map_some, Option.some.injEq, hword]
  unfold substr
  rw [List.drop_left]
  apply List.take_left'
  simp
  omega

-- ---------------------------------------------------------------------------
-- Lines whose fields have text
-- ---------------------------------------------------------------------------

/-- Over the characters of a field the loop goes one by one. -/
theorem splitLoop_field (hg : 44 ∉ g) (hindex : index ≤ 2147483647) :
    splitLoop line (g ++ rest) index index1 words =
      if index + g.length ≤ 2147483647 then splitLoop line rest (index + g.length) index1 words else none := by
  induction g generalizing index with
  | nil => simp [hindex]
  | cons c g ih =>
    have hc : c ≠ 44 := fun heq => hg (heq ▸ List.mem_cons_self)
    have hg' : 44 ∉ g := fun hmem => hg (List.mem_cons_of_mem _ hmem)
    rw [List.cons_append, splitLoop, if_neg hc, List.length_cons]
    unfold incr
    by_cases hlt : index < 2147483647
    · rw [if_pos hlt]
      have hadd : index + 1 + g.length = index + (g.length + 1) := by omega
      have hnext := @ih (index + 1) hg' (by omega)
      rw [hadd] at hnext
      exact hnext
    · rw [if_neg hlt, if_neg (by omega)]
      rfl

/-- Where the loop stands at the field `f`: the word begins there, and the loop may have skipped
its first character. -/
structure AtField (line front f : List UInt8) (fs : List (List UInt8)) (k : Nat) : Prop where
  line : line = front ++ csvLine (f :: fs)
  skipped : k ≤ 1 ∧ k ≤ f.length
  index : front.length + k ≤ 2147483647

theorem substr_field (hline : line = front ++ (f ++ rest)) :
    substr line front.length (front.length + f.length - front.length) = f := by
  rw [Nat.add_sub_cancel_left, substr, hline, List.drop_left, List.take_left]

/-- At the last field. -/
theorem AtField.last (h : AtField line front f [] k) (hf : 44 ∉ f) :
    splitLoop line ((csvLine [f]).drop k) (front.length + k) front.length words >>= lastWord line =
      if line.length ≤ 2147483647 then (trimWord f).map fun word => words ++ [word] else none := by
  have hdrop : (csvLine [f]).drop k = f.drop k ++ [] := by rw [List.append_nil]; rfl
  have hlen : front.length + k + (f.drop k).length = front.length + f.length := by
    have := h.skipped.2
    rw [List.length_drop]
    omega
  have hline : line = front ++ (f ++ []) := by rw [List.append_nil]; exact h.line
  have htotal : line.length = front.length + f.length := by simp [hline]
  rw [hdrop, splitLoop_field (fun hmem => hf (List.mem_of_mem_drop hmem)) h.index, hlen, htotal]
  split
  · rw [splitLoop]
    rw [Option.bind_eq_bind, Option.bind_some, lastWord, substr_field hline]
  · rfl

/-- At a field with a comma behind it. -/
theorem AtField.comma (h : AtField line front f (g :: fs) k) (hf : 44 ∉ f) :
    splitLoop line ((csvLine (f :: g :: fs)).drop k) (front.length + k) front.length words =
      if front.length + f.length + 2 ≤ 2147483647 then
        trimWord f >>= fun word =>
          match csvLine (g :: fs) with
          | [] => some (front.length + f.length + 2, front.length + f.length + 1, words ++ [word])
          | _ :: rest => splitLoop line rest (front.length + f.length + 2) (front.length + f.length + 1)
              (words ++ [word])
      else none := by
  have hdrop : (csvLine (f :: g :: fs)).drop k = f.drop k ++ 44 :: csvLine (g :: fs) := by
    rw [csvLine, List.drop_append_of_le_length h.skipped.2]
  have hlen : front.length + k + (f.drop k).length = front.length + f.length := by
    have := h.skipped.2
    rw [List.length_drop]
    omega
  rw [hdrop, splitLoop_field (fun hmem => hf (List.mem_of_mem_drop hmem)) h.index, hlen]
  by_cases hle : front.length + f.length ≤ 2147483647
  · rw [if_pos hle, splitLoop, if_pos rfl, substr_field h.line]
    cases trimWord f with
    | none => simp only [Option.bind_eq_bind, Option.bind_none, ite_self]
    | some word =>
      unfold incr
      by_cases hlt : front.length + f.length < 2147483647
      · rw [if_pos hlt]
        by_cases hroom : front.length + f.length + 2 ≤ 2147483647
        · have hnext : front.length + f.length + 1 < 2147483647 := by omega
          rw [if_pos hroom]
          simp only [Option.bind_eq_bind, Option.bind_some, if_pos hnext]
        · have hnext : ¬ front.length + f.length + 1 < 2147483647 := by omega
          rw [if_neg hroom]
          simp only [Option.bind_eq_bind, Option.bind_some, if_neg hnext, Option.bind_none]
      · rw [if_neg hlt, if_neg (by omega)]
        rfl
  · rw [if_neg hle, if_neg (by omega)]

/-- Behind the comma the next field begins, and if it is not empty its first character is skipped. -/
theorem AtField.next (h : AtField line front f (g :: fs) k) (hg : g ≠ [])
    (hroom : front.length + f.length + 2 ≤ 2147483647) : AtField line (front ++ f ++ [44]) g fs 1 := by
  refine ⟨?_, ⟨Nat.le_refl 1, List.length_pos_iff.mpr hg⟩, ?_⟩
  · rw [h.line, csvLine]
    simp
  · simp only [List.length_append, List.length_singleton]
    omega

theorem csvLine_cons {c : UInt8} (g : List UInt8) (fs : List (List UInt8)) :
    csvLine ((c :: g) :: fs) = c :: csvLine (g :: fs) := by
  cases fs <;> rfl

theorem length_csvLine_cons (f g : List UInt8) (fs : List (List UInt8)) :
    (csvLine (f :: g :: fs)).length = f.length + 1 + (csvLine (g :: fs)).length := by
  rw [csvLine, List.length_append, List.length_cons]
  omega

/-- Fields with text are cut and trimmed, unless the line is longer than an `int` can count. -/
theorem AtField.all (h : AtField line front f fs k) (hcomma : ∀ g ∈ f :: fs, 44 ∉ g)
    (htext : ∀ g ∈ f :: fs, HasText g) :
    splitLoop line ((csvLine (f :: fs)).drop k) (front.length + k) front.length words >>= lastWord line =
      if line.length ≤ 2147483647 then some (words ++ (f :: fs).map trimBlanks) else none := by
  induction fs generalizing front f k words with
  | nil =>
    rw [h.last (hcomma f List.mem_cons_self), trimWord_of_hasText (htext f List.mem_cons_self)]
    rfl
  | cons g fs ih =>
    obtain ⟨c, g', hg⟩ : ∃ c g', g = c :: g' := by
      obtain ⟨b, hb, -⟩ := htext g (by simp)
      exact List.exists_cons_of_ne_nil (List.ne_nil_of_mem hb)
    have hlen : line.length = front.length + (f.length + 1 + (csvLine (g :: fs)).length) := by
      rw [h.line, List.length_append, length_csvLine_cons]
    have hpos : 0 < (csvLine (g :: fs)).length := by
      rw [hg, csvLine_cons]
      exact Nat.zero_lt_succ _
    rw [h.comma (hcomma f List.mem_cons_self), trimWord_of_hasText (htext f List.mem_cons_self)]
    by_cases hroom : front.length + f.length + 2 ≤ 2147483647
    · have hnext := h.next (hg ▸ List.cons_ne_nil c g') hroom
      have hrest := @ih g (front ++ f ++ [44]) (words ++ [trimBlanks f]) 1 hnext
        (fun x hx => hcomma x (List.mem_cons_of_mem _ hx))
        (fun x hx => htext x (List.mem_cons_of_mem _ hx))
      have hfront : (front ++ f ++ [44]).length = front.length + f.length + 1 := by simp; omega
      rw [hfront, hg, csvLine_cons, List.drop_one, List.tail_cons] at hrest
      rw [if_pos hroom, hg, csvLine_cons]
      simp only [Option.bind_eq_bind, Option.bind_some] at hrest ⊢
      rw [hrest, List.append_assoc]
      rfl
    · rw [if_neg hroom, if_neg (by omega)]
      rfl

-- ---------------------------------------------------------------------------
-- Lines with a field without text
-- ---------------------------------------------------------------------------

/-- One turn: the character is no comma, or it is one and a word is cut off. -/
theorem splitLoop_turn {c : UInt8} {out : Nat × Nat × List (List UInt8)}
    (h : splitLoop line (c :: rest) index index1 words = some out) :
    c ≠ 44 ∧ splitLoop line rest (index + 1) index1 words = some out ∨
    ∃ word, trimWord (substr line index1 (index - index1)) = some word ∧
      (rest = [] ∧ out = (index + 2, index + 1, words ++ [word]) ∨
        ∃ c' rest', rest = c' :: rest' ∧
          splitLoop line rest' (index + 2) (index + 1) (words ++ [word]) = some out) := by
  have hincr : ∀ {i j : Nat}, incr i = some j → j = i + 1 := by
    intro i j hi
    unfold incr at hi
    split at hi
    · exact (Option.some.inj hi).symm
    · cases hi
  rw [splitLoop] at h
  split at h
  · simp only [Option.bind_eq_bind, Option.bind_eq_some_iff] at h
    obtain ⟨word, hword, j, hj, j', hj', hrest⟩ := h
    obtain rfl := hincr hj
    obtain rfl := hincr hj'
    refine .inr ⟨word, hword, ?_⟩
    cases rest with
    | nil => exact .inl ⟨rfl, (Option.some.inj hrest).symm⟩
    | cons c' rest' => exact .inr ⟨c', rest', rfl, hrest⟩
  · next hc =>
    simp only [Option.bind_eq_bind, Option.bind_eq_some_iff] at h
    obtain ⟨j, hj, hrest⟩ := h
    obtain rfl := hincr hj
    exact .inl ⟨hc, hrest⟩

/-- No word is lost. -/
theorem mem_of_splitLoop {out : Nat × Nat × List (List UInt8)}
    (h : splitLoop line rest index index1 words = some out) : ∀ w ∈ words, w ∈ out.2.2 := by
  induction hn : rest.length using Nat.strongRecOn generalizing rest index index1 words with
  | ind n ih =>
    intro w hw
    cases rest with
    | nil =>
      rw [splitLoop, Option.some.injEq] at h
      rw [← h]
      exact hw
    | cons c rest =>
      rw [List.length_cons] at hn
      rcases splitLoop_turn h with ⟨-, hrest⟩ | ⟨word, -, ⟨-, rfl⟩ | ⟨c', rest', rfl, hrest⟩⟩
      · exact ih rest.length (by omega) hrest rfl w hw
      · exact List.mem_append_left _ hw
      · rw [List.length_cons] at hn
        exact ih rest'.length (by omega) hrest rfl w (List.mem_append_left _ hw)

/-- A word that begins with a comma keeps it. -/
theorem comma_mem_trimWord (hword : trimWord (44 :: g) = some word) : 44 ∈ word := by
  have htext : HasText (44 :: g) := ⟨44, List.mem_cons_self, by decide⟩
  rw [trimWord_of_hasText htext, Option.some.injEq] at hword
  obtain ⟨p, m, b, q, hparts, htrim, hfront, -, hq⟩ := htext.parts
  have hp : p = [] := List.length_eq_zero_iff.mp hfront.symm
  have hmem : (44 : UInt8) ∈ p ++ ((m ++ [b]) ++ q) := hparts ▸ List.mem_cons_self
  rw [hp, List.nil_append] at hmem
  rw [← hword, htrim]
  rcases List.mem_append.mp hmem with hin | hblank
  · exact hin
  · exact absurd (hq 44 hblank) (by decide)

/-- Once a word begins with a comma, some word of the result has a comma in it. -/
theorem comma_of_splitLoop {out : Nat × Nat × List (List UInt8)} (hcomma : (line.drop index1).head? = some 44)
    (hlt : index1 < index) (h : splitLoop line rest index index1 words = some out)
    (hlast : lastWord line out = some ws) : ∃ w ∈ ws, 44 ∈ w := by
  have hword : ∀ {index word}, index1 < index → trimWord (substr line index1 (index - index1)) = some word →
      44 ∈ word := by
    intro index word hlt hword
    obtain ⟨tail, htail⟩ := List.head?_eq_some_iff.mp hcomma
    obtain ⟨j, hj⟩ : ∃ j, index - index1 = j + 1 := ⟨index - index1 - 1, by omega⟩
    rw [substr, htail, hj, List.take_succ_cons] at hword
    exact comma_mem_trimWord hword
  rw [lastWord, Option.map_eq_some_iff] at hlast
  obtain ⟨lastW, hlastW, rfl⟩ := hlast
  induction hn : rest.length using Nat.strongRecOn generalizing rest index words with
  | ind n ih =>
    cases rest with
    | nil =>
      rw [splitLoop, Option.some.injEq] at h
      subst h
      exact ⟨lastW, List.mem_append_right _ List.mem_cons_self, hword hlt hlastW⟩
    | cons c rest =>
      rw [List.length_cons] at hn
      rcases splitLoop_turn h with ⟨-, hrest⟩ | ⟨word, hcut, hrest⟩
      · exact ih rest.length (by omega) (by omega) hrest rfl
      · refine ⟨word, List.mem_append_left _ ?_, hword hlt hcut⟩
        rcases hrest with ⟨-, rfl⟩ | ⟨c', rest', rfl, hrest⟩
        · exact List.mem_append_right _ List.mem_cons_self
        · exact mem_of_splitLoop hrest word (List.mem_append_right _ List.mem_cons_self)

/-- Words without commas come from fields with text. -/
theorem AtField.hasText (h : AtField line front f fs k) (hcomma : ∀ g ∈ f :: fs, 44 ∉ g)
    (hsplit : splitLoop line ((csvLine (f :: fs)).drop k) (front.length + k) front.length words >>= lastWord line =
      some ws) (hws : ∀ w ∈ ws, 44 ∉ w) : ∀ g ∈ f :: fs, HasText g := by
  induction fs generalizing front f k words with
  | nil =>
    rw [h.last (hcomma f List.mem_cons_self)] at hsplit
    intro g hg
    rw [List.mem_singleton.mp hg]
    by_contra htext
    rw [trimWord_eq_none htext] at hsplit
    split at hsplit <;> cases hsplit
  | cons g fs ih =>
    rw [h.comma (hcomma f List.mem_cons_self)] at hsplit
    by_cases hroom : front.length + f.length + 2 ≤ 2147483647
    · rw [if_pos hroom] at hsplit
      have hf : HasText f := by
        by_contra htext
        rw [trimWord_eq_none htext] at hsplit
        cases hsplit
      rw [trimWord_of_hasText hf] at hsplit
      simp only [Option.bind_eq_bind, Option.bind_some] at hsplit
      have hline : line = (front ++ f ++ [44]) ++ csvLine (g :: fs) := by
        rw [h.line, csvLine]
        simp
      have hfront : (front ++ f ++ [44]).length = front.length + f.length + 1 := by simp; omega
      cases g with
      | nil =>
        -- The comma behind an empty field is skipped.
        exfalso
        cases fs with
        | nil =>
          have hempty : csvLine [[]] = [] := rfl
          have hshort : substr line (front.length + f.length + 1)
              (front.length + f.length + 2 - (front.length + f.length + 1)) = [] := by
            rw [substr, hline, ← hfront, List.drop_left, hempty, List.take_nil]
          rw [hempty] at hsplit
          dsimp only at hsplit
          rw [Option.bind_some, lastWord, hshort] at hsplit
          cases hsplit
        | cons g' fs =>
          rw [csvLine, List.nil_append] at hsplit
          dsimp only at hsplit
          obtain ⟨out, hloop, hlast⟩ := Option.bind_eq_some_iff.mp hsplit
          have hhead : (line.drop (front.length + f.length + 1)).head? = some 44 := by
            rw [hline, ← hfront, List.drop_left]
            rfl
          obtain ⟨w, hw, hmem⟩ := comma_of_splitLoop hhead (Nat.lt_succ_self _) hloop hlast
          exact hws w hw hmem
      | cons c g =>
        have hnext := h.next (List.cons_ne_nil c g) hroom
        rw [csvLine_cons] at hsplit
        have hrest := @ih (c :: g) (front ++ f ++ [44]) (words ++ [trimBlanks f]) 1 hnext
          (fun x hx => hcomma x (List.mem_cons_of_mem _ hx))
          (by rw [hfront, csvLine_cons, List.drop_one, List.tail_cons]; exact hsplit)
        intro x hx
        rcases List.mem_cons.mp hx with rfl | hx
        · exact hf
        · exact hrest x hx
    · rw [if_neg hroom] at hsplit
      cases hsplit

-- ---------------------------------------------------------------------------
-- All lines
-- ---------------------------------------------------------------------------

theorem mem_trimBlanks {b : UInt8} (h : b ∈ trimBlanks f) : b ∈ f := by
  have hrev := List.mem_reverse.mp h
  have hdrop := List.mem_reverse.mp ((List.dropWhile_sublist _).mem hrev)
  exact (List.dropWhile_sublist _).mem hdrop

/-- A line is cut into its fields, without the blanks around them, exactly when every field has
some text and an `int` counts the characters. -/
theorem splitLine_iff (hne : fs ≠ []) (hcomma : ∀ f ∈ fs, 44 ∉ f) :
    splitLine (csvLine fs) = some (fs.map trimBlanks) ↔
      (∀ f ∈ fs, HasText f) ∧ (csvLine fs).length ≤ 2147483647 := by
  obtain ⟨f, fs, rfl⟩ := List.exists_cons_of_ne_nil hne
  have hat : AtField (csvLine (f :: fs)) [] f fs 0 := ⟨rfl, ⟨by omega, by omega⟩, by decide⟩
  constructor
  · intro hsplit
    have hnocomma : ∀ w ∈ (f :: fs).map trimBlanks, 44 ∉ w := by
      intro w hw hmem
      obtain ⟨g, hg, rfl⟩ := List.mem_map.mp hw
      exact hcomma g hg (mem_trimBlanks hmem)
    have htext := hat.hasText hcomma hsplit hnocomma
    refine ⟨htext, ?_⟩
    by_contra hlong
    have hall := @AtField.all _ _ _ _ [] _ hat hcomma htext
    rw [if_neg hlong] at hall
    rw [splitLine] at hsplit
    cases hsplit.symm.trans hall
  · rintro ⟨htext, hlen⟩
    have hall := @AtField.all _ _ _ _ [] _ hat hcomma htext
    rw [if_pos hlen] at hall
    exact hall

/-- A line of a number and a text between blanks. -/
theorem splitLine_two : splitLine (ascii "1, a b ") = some [ascii "1", ascii "a b"] := by
  have htext : ∀ f ∈ [ascii "1", ascii " a b "], HasText f := by
    intro f hf
    simp only [List.mem_cons, List.not_mem_nil, or_false] at hf
    rcases hf with rfl | rfl
    · exact ⟨49, by decide, by decide⟩
    · exact ⟨97, by decide, by decide⟩
  exact (@splitLine_iff [ascii "1", ascii " a b "] (by simp) (by decide)).mpr ⟨htext, by decide⟩

/-- An empty field in the middle takes the comma behind it into the next word, and for one at the
end `word[-1]` is read. -/
theorem splitLine_empty_field : splitLine (csvLine [ascii "a", ascii "", ascii "b"]) = some [ascii "a", ascii ",b"] ∧
    splitLine (csvLine [ascii "a", ascii ""]) = none := by
  decide

end Rmdb
