-- SUMMARY: Recovery of a value from a log: all entries are redone in order, then the changes of some writers are undone backwards.
import Mathlib.Data.List.Basic

/-!
# Redoing and undoing

The log of one value has the changes that writers made to it, and entries for changes that were taken back at run
time. Recovery redoes all entries and then undoes the changes of the writers that were lost. What it should give is
the value that the writers that were kept have left.

At run time the writers come one after the other, each with a block of changes that lead from the value that it found
to the one that it left. `replay_eq_keptValue_iff` says when recovery is right for a log of blocks.
-/

namespace Replay

/-- `none` is the value of an absent object. -/
structure Change (V : Type) where
  before : Option V
  after : Option V
  deriving DecidableEq

inductive Entry (T V : Type) where
  | change (t : T) (c : Change V)
  /-- The change was taken back. -/
  | back (t : T) (c : Change V)
  deriving DecidableEq

variable {T V : Type}

def Entry.writer : Entry T V → T
  | change t _ => t
  | back t _ => t

-- ---------------------------------------------------------------------------
-- Recovery
-- ---------------------------------------------------------------------------

/-- Redoing all entries. What is made of an entry for a change that was taken back is a parameter. -/
def redo (redone : Change V → Option V) (v : Option V) : List (Entry T V) → Option V
  | [] => v
  | .change _ c :: es => redo redone c.after es
  | .back _ c :: es => redo redone (redone c) es

/-- Undoing the changes of lost writers, from the last entry to the first. -/
def undo (lost : T → Bool) (v : Option V) : List (Entry T V) → Option V
  | [] => v
  | .change t c :: es => if lost t then c.before else undo lost v es
  | .back _ _ :: es => undo lost v es

def replay (redone : Change V → Option V) (lost : T → Bool) (es : List (Entry T V)) : Option V :=
  undo lost (redo redone none es) es

/-- What the changes of the writers that are kept have left. -/
def keptValue (kept : T → Bool) (v : Option V) : List (Entry T V) → Option V
  | [] => v
  | .change t c :: es => keptValue kept (if kept t then c.after else v) es
  | .back _ _ :: es => keptValue kept v es

/-- No change of these entries is undone. -/
def NoLost (lost : T → Bool) (es : List (Entry T V)) : Prop := ∀ t c, .change t c ∈ es → lost t = false

variable {redone : Change V → Option V} {lost kept : T → Bool} {v : Option V} {es es' : List (Entry T V)}

theorem redo_append : redo redone v (es ++ es') = redo redone (redo redone v es) es' := by
  induction es generalizing v with
  | nil => rfl
  | cons e es ih =>
    cases e with
    | change t c => exact ih
    | back t c => exact ih

theorem keptValue_append : keptValue kept v (es ++ es') = keptValue kept (keptValue kept v es) es' := by
  induction es generalizing v with
  | nil => rfl
  | cons e es ih =>
    cases e with
    | change t c => exact ih
    | back t c => exact ih

theorem NoLost.append : NoLost lost (es ++ es') ↔ NoLost lost es ∧ NoLost lost es' := by
  constructor
  · intro h
    exact ⟨fun t c hmem => h t c (List.mem_append_left es' hmem), fun t c hmem => h t c (List.mem_append_right es hmem)⟩
  · rintro ⟨h, h'⟩ t c hmem
    exact (List.mem_append.mp hmem).elim (h t c) (h' t c)

theorem undo_append (h : NoLost lost es) : undo lost v (es ++ es') = undo lost v es' := by
  induction es with
  | nil => rfl
  | cons e es ih =>
    have htail : NoLost lost es := fun t c hmem => h t c (List.mem_cons_of_mem e hmem)
    cases e with
    | change t c =>
      rw [List.cons_append, undo, h t c List.mem_cons_self]
      exact ih htail
    | back t c => exact ih htail

theorem undo_of_noLost (h : NoLost lost es) : undo lost v es = v := by
  have happend := @undo_append _ _ lost v es [] h
  rwa [List.append_nil] at happend

theorem replay_of_noLost (h : NoLost lost es) : replay redone lost es = redo redone none es := undo_of_noLost h

/-- The first lost change decides what recovery gives. -/
theorem replay_of_lost {t : T} {c : Change V} (h : NoLost lost es) (ht : lost t = true) :
    replay redone lost (es ++ .change t c :: es') = c.before := by
  rw [replay, undo_append h, undo, if_pos ht]

theorem keptValue_of_none (h : ∀ t c, .change t c ∈ es → kept t = false) : keptValue kept v es = v := by
  induction es generalizing v with
  | nil => rfl
  | cons e es ih =>
    have htail : ∀ t c, .change t c ∈ es → kept t = false := fun t c hmem => h t c (List.mem_cons_of_mem e hmem)
    cases e with
    | change t c =>
      rw [keptValue, h t c List.mem_cons_self]
      exact ih htail
    | back t c => exact ih htail

theorem keptValue_congr {kept' : T → Bool} (h : ∀ e ∈ es, kept' e.writer = kept e.writer) :
    keptValue kept' v es = keptValue kept v es := by
  induction es generalizing v with
  | nil => rfl
  | cons e es ih =>
    obtain ⟨he, hes⟩ := List.forall_mem_cons.mp h
    cases e with
    | change t c =>
      rw [keptValue, keptValue, show kept' t = kept t from he]
      exact ih hes
    | back t c => exact ih hes

theorem NoLost.congr {lost' : T → Bool} (hno : NoLost lost es) (h : ∀ e ∈ es, lost' e.writer = lost e.writer) :
    NoLost lost' es :=
  fun t c hmem => (h _ hmem).trans (hno t c hmem)

-- ---------------------------------------------------------------------------
-- Blocks
-- ---------------------------------------------------------------------------

/-- The changes lead from one value to the next. -/
def Chain : Option V → List (Change V) → Prop
  | _, [] => True
  | v, c :: cs => c.before = v ∧ Chain c.after cs

/-- The value behind some changes. -/
def result (v : Option V) : List (Change V) → Option V
  | [] => v
  | c :: cs => result c.after cs

theorem Chain.append {cs cs' : List (Change V)} : Chain v (cs ++ cs') ↔ Chain v cs ∧ Chain (result v cs) cs' := by
  induction cs generalizing v with
  | nil => exact (iff_of_eq (true_and _)).symm
  | cons c cs ih => exact (and_congr_right fun _ => ih).trans and_assoc.symm

theorem result_append {cs cs' : List (Change V)} : result v (cs ++ cs') = result (result v cs) cs' := by
  induction cs generalizing v with
  | nil => rfl
  | cons c cs ih => exact ih

/-- All that one writer did, when it is done: it made changes, and all of them stayed or all were taken back. -/
structure Block (T V : Type) where
  writer : T
  first : Change V
  rest : List (Change V)
  takenBack : Bool

namespace Block

def changes (b : Block T V) : List (Change V) := b.first :: b.rest

def entries (b : Block T V) : List (Entry T V) :=
  b.changes.map (.change b.writer) ++ if b.takenBack then b.changes.reverse.map (.back b.writer) else []

/-- The value that a block leaves where it found `v`. -/
def value (v : Option V) (b : Block T V) : Option V := if b.takenBack then v else result v b.changes

/-- Each block starts from the value that the one before it left. -/
def Valid : Option V → List (Block T V) → Prop
  | _, [] => True
  | v, b :: bs => Chain v b.changes ∧ Valid (b.value v) bs

/-- The value behind some blocks. -/
def valueOf (v : Option V) (bs : List (Block T V)) : Option V := bs.foldl Block.value v

theorem Valid.append {bs bs' : List (Block T V)} : Valid v (bs ++ bs') ↔ Valid v bs ∧ Valid (valueOf v bs) bs' := by
  induction bs generalizing v with
  | nil => exact (iff_of_eq (true_and _)).symm
  | cons b bs ih => exact (and_congr_right fun _ => ih).trans and_assoc.symm

theorem valueOf_append {bs bs' : List (Block T V)} : valueOf v (bs ++ bs') = valueOf (valueOf v bs) bs' :=
  List.foldl_append

theorem writer_of_mem {b : Block T V} {e : Entry T V} (h : e ∈ b.entries) : e.writer = b.writer := by
  rcases List.mem_append.mp h with h | h
  · obtain ⟨c, -, rfl⟩ := List.mem_map.mp h
    rfl
  · split at h
    · obtain ⟨c, -, rfl⟩ := List.mem_map.mp h
      rfl
    · cases h

theorem entries_eq (b : Block T V) : ∃ rest, b.entries = .change b.writer b.first :: rest := ⟨_, rfl⟩

end Block

/-- The entries of some blocks. -/
def entriesOf (bs : List (Block T V)) : List (Entry T V) := bs.flatMap Block.entries

theorem entriesOf_append {bs bs' : List (Block T V)} : entriesOf (bs ++ bs') = entriesOf bs ++ entriesOf bs' :=
  List.flatMap_append

theorem redo_map_change {t : T} {cs : List (Change V)} :
    redo redone v (cs.map (.change t)) = result v cs := by
  induction cs generalizing v with
  | nil => rfl
  | cons c cs ih => exact ih

theorem keptValue_map_change {t : T} {cs : List (Change V)} :
    keptValue kept v (cs.map (.change t)) = if kept t then result v cs else v := by
  induction cs generalizing v with
  | nil => exact (ite_self v).symm
  | cons c cs ih =>
    rw [List.map_cons, keptValue, ih]
    split
    · rfl
    · rfl

theorem keptValue_map_back {t : T} {cs : List (Change V)} : keptValue kept v (cs.map (.back t)) = v := by
  induction cs generalizing v with
  | nil => rfl
  | cons c cs ih => exact ih

/-- When the writers of blocks that stayed are kept and those of the others are not, the values are those at run
time. -/
theorem keptValue_entriesOf {bs : List (Block T V)} (h : ∀ b ∈ bs, kept b.writer = !b.takenBack) :
    keptValue kept v (entriesOf bs) = Block.valueOf v bs := by
  induction bs generalizing v with
  | nil => rfl
  | cons b bs ih =>
    have hb := h b List.mem_cons_self
    have hvalue : keptValue kept v b.entries = b.value v := by
      rw [Block.entries, keptValue_append, keptValue_map_change, hb, Block.value]
      cases b.takenBack with
      | true => exact keptValue_map_back
      | false => rfl
    rw [entriesOf, List.flatMap_cons, keptValue_append, hvalue]
    exact ih fun b' hb' => h b' (List.mem_cons_of_mem b hb')

theorem noLost_entriesOf {bs : List (Block T V)} (h : ∀ b ∈ bs, lost b.writer = false) :
    NoLost lost (entriesOf bs) := by
  intro t c hmem
  obtain ⟨b, hb, hmem⟩ := List.mem_flatMap.mp hmem
  have hwriter := Block.writer_of_mem hmem
  rw [show t = b.writer from hwriter]
  exact h b hb

/-- The first block of a lost writer. -/
theorem all_or_first_lost (lost : T → Bool) (bs : List (Block T V)) :
    (∀ b ∈ bs, lost b.writer = false) ∨
      ∃ front b rest, bs = front ++ b :: rest ∧ (∀ b ∈ front, lost b.writer = false) ∧ lost b.writer = true := by
  induction bs with
  | nil => exact .inl nofun
  | cons b bs ih =>
    cases hb : lost b.writer with
    | true => exact .inr ⟨[], b, bs, rfl, nofun, hb⟩
    | false =>
      rcases ih with h | ⟨front, b', rest, rfl, hfront, hlost⟩
      · exact .inl (List.forall_mem_cons.mpr ⟨hb, h⟩)
      · exact .inr ⟨b :: front, b', rest, rfl, List.forall_mem_cons.mpr ⟨hb, hfront⟩, hlost⟩

-- ---------------------------------------------------------------------------
-- When recovery is right
-- ---------------------------------------------------------------------------

/-- A kept writer made a change after one that is undone, and left another value than the one before that change. -/
def Overwritten (lost kept : T → Bool) (es : List (Entry T V)) : Prop :=
  ∃ front t c rest, es = front ++ .change t c :: rest ∧ NoLost lost front ∧ lost t = true ∧
    (∃ t' c', .change t' c' ∈ rest ∧ kept t' = true) ∧ keptValue kept none es ≠ c.before

/-- Nothing is undone, and the last entry is for a change that was taken back, which redoing it does not do. -/
def Resurrected (redone : Change V → Option V) (lost : T → Bool) (es : List (Entry T V)) : Prop :=
  NoLost lost es ∧ ∃ front t c, es = front ++ [.back t c] ∧ redone c ≠ c.before

/-- There is a lost change, and the first one found the value of the kept writers before it. -/
def FirstLost (lost kept : T → Bool) (es : List (Entry T V)) : Prop :=
  ∃ front t c rest, es = front ++ .change t c :: rest ∧ NoLost lost front ∧ lost t = true ∧
    keptValue kept none front = c.before

theorem FirstLost.not_noLost (h : FirstLost lost kept es) : ¬ NoLost lost es := by
  obtain ⟨front, t, c, rest, rfl, -, hlost, -⟩ := h
  intro hno
  exact Bool.false_ne_true ((hno t c (by simp)).symm.trans hlost)

theorem NoLost.not_overwritten (h : NoLost lost es) : ¬ Overwritten lost kept es := by
  rintro ⟨front, t, c, rest, rfl, -, hlost, -⟩
  exact Bool.false_ne_true ((h t c (by simp)).symm.trans hlost)

/-- The first lost change is undone last. -/
theorem FirstLost.replay_iff (h : FirstLost lost kept es) (hkept : ∀ t, lost t = true → kept t = false) :
    replay redone lost es = keptValue kept none es ↔ ¬ Overwritten lost kept es := by
  obtain ⟨front, t, c, rest, rfl, hfront, hlost, hbefore⟩ := h
  rw [replay_of_lost hfront hlost]
  constructor
  · rintro heq ⟨front', t', c', rest', hes', hfront', hlost', -, hne⟩
    have hreplay := @replay_of_lost _ _ redone lost front' rest' t' c' hfront' hlost'
    rw [← hes', replay_of_lost hfront hlost] at hreplay
    exact hne (heq.symm.trans hreplay)
  · intro hover
    by_contra hne
    by_cases hlater : ∃ t' c', Entry.change t' c' ∈ rest ∧ kept t' = true
    · exact hover ⟨front, t, c, rest, rfl, hfront, hlost, hlater, fun heq => hne heq.symm⟩
    · refine hne ?_
      have hrest : ∀ t' c', Entry.change t' c' ∈ Entry.change t c :: rest → kept t' = false := by
        intro t' c' hmem
        rcases List.mem_cons.mp hmem with hmem | hmem
        · cases hmem
          exact hkept t hlost
        · by_contra hk
          exact hlater ⟨t', c', hmem, by simpa using hk⟩
      rw [keptValue_append, keptValue_of_none hrest, hbefore]

/-- Entries that come later change nothing about the first lost change. -/
theorem FirstLost.append {lost' kept' : T → Bool} (h : FirstLost lost kept es)
    (hagree : ∀ e ∈ es, lost' e.writer = lost e.writer ∧ kept' e.writer = kept e.writer) :
    FirstLost lost' kept' (es ++ es') := by
  obtain ⟨front, t, c, rest, rfl, hfront, hlost, hbefore⟩ := h
  have hmem : ∀ e ∈ front, e ∈ front ++ .change t c :: rest := fun e he => List.mem_append_left _ he
  refine ⟨front, t, c, rest ++ es', by simp, ?_, ?_, ?_⟩
  · exact hfront.congr fun e he => (hagree e (hmem e he)).1
  · exact (hagree (.change t c) (by simp)).1.trans hlost
  · rw [← hbefore]
    exact keptValue_congr fun e he => (hagree e (hmem e he)).2

-- ---------------------------------------------------------------------------
-- A value at run time
-- ---------------------------------------------------------------------------

/-- What a writer has done that is not done yet: the changes that stand, and behind them those that it has taken
back. -/
structure Work (T V : Type) where
  writer : T
  standing : List (Change V)
  taken : List (Change V)

namespace Work

def changes (w : Work T V) : List (Change V) := w.standing ++ w.taken

def entries (w : Work T V) : List (Entry T V) :=
  w.changes.map (.change w.writer) ++ w.taken.reverse.map (.back w.writer)

end Work

/-- The entries of a value that was `v₀` and is `v` now: there are some blocks, and one writer may be at work. -/
structure Tells (v₀ : Option V) (bs : List (Block T V)) (work : Option (Work T V)) (es : List (Entry T V))
    (v : Option V) : Prop where
  entries : es = entriesOf bs ++ work.elim [] Work.entries
  valid : Block.Valid v₀ bs
  chain : ∀ w, work = some w → Chain (Block.valueOf v₀ bs) w.changes ∧ w.changes ≠ []
  value : v = work.elim (Block.valueOf v₀ bs) fun w => result (Block.valueOf v₀ bs) w.standing

namespace Tells

variable {v₀ : Option V} {bs : List (Block T V)} {work : Option (Work T V)} {t : T} {c : Change V}
  {standing taken : List (Change V)}

theorem start : Tells v [] none ([] : List (Entry T V)) v := ⟨rfl, trivial, nofun, rfl⟩

/-- The first change of a writer. -/
theorem first (h : Tells v₀ bs none es v) (hc : c.before = v) :
    Tells v₀ bs (some ⟨t, [c], []⟩) (es ++ [.change t c]) c.after where
  entries := by
    rw [h.entries]
    exact congrArg (· ++ _) (List.append_nil _)
  valid := h.valid
  chain w hw := by
    cases hw
    exact ⟨⟨hc.trans h.value, trivial⟩, List.cons_ne_nil _ _⟩
  value := rfl

theorem write (h : Tells v₀ bs (some ⟨t, standing, []⟩) es v) (hc : c.before = v) :
    Tells v₀ bs (some ⟨t, standing ++ [c], []⟩) (es ++ [.change t c]) c.after where
  entries := by
    rw [h.entries]
    simp [Work.entries, Work.changes]
  valid := h.valid
  chain w hw := by
    cases hw
    obtain ⟨hchain, -⟩ := h.chain _ rfl
    simp only [Work.changes, List.append_nil] at hchain ⊢
    exact ⟨Chain.append.mpr ⟨hchain, hc.trans h.value, trivial⟩, by simp⟩
  value := by
    show c.after = result _ (standing ++ [c])
    rw [result_append]
    rfl

theorem takeBack (h : Tells v₀ bs (some ⟨t, standing ++ [c], taken⟩) es v) :
    Tells v₀ bs (some ⟨t, standing, c :: taken⟩) (es ++ [.back t c]) c.before where
  entries := by
    rw [h.entries]
    simp [Work.entries, Work.changes]
  valid := h.valid
  chain w hw := by
    cases hw
    have hchain := h.chain _ rfl
    simp only [Work.changes, List.append_assoc, List.singleton_append] at hchain ⊢
    exact hchain
  value := by
    obtain ⟨hchain, -⟩ := h.chain _ rfl
    exact (Chain.append.mp (Chain.append.mp hchain).1).2.1

/-- The writer is done, and its changes stand. -/
theorem stand (h : Tells v₀ bs (some ⟨t, standing, []⟩) es v) :
    ∃ b : Block T V, b.writer = t ∧ b.takenBack = false ∧ Tells v₀ (bs ++ [b]) none es v := by
  obtain ⟨hchain, hne⟩ := h.chain _ rfl
  cases standing with
  | nil => exact absurd rfl hne
  | cons c cs =>
    have hchanges : (⟨t, c :: cs, []⟩ : Work T V).changes = c :: cs := List.append_nil _
    rw [hchanges] at hchain
    refine ⟨⟨t, c, cs, false⟩, rfl, rfl, ?_, ?_, nofun, ?_⟩
    · rw [h.entries, entriesOf_append]
      simp [Work.entries, entriesOf, Block.entries, Block.changes, hchanges]
    · exact Block.Valid.append.mpr ⟨h.valid, hchain, trivial⟩
    · rw [h.value, Block.valueOf_append]
      rfl

/-- The writer is done, and has taken back all of its changes. -/
theorem takenBack (h : Tells v₀ bs (some ⟨t, [], taken⟩) es v) :
    ∃ b : Block T V, b.writer = t ∧ b.takenBack = true ∧ Tells v₀ (bs ++ [b]) none es v := by
  obtain ⟨hchain, hne⟩ := h.chain _ rfl
  cases taken with
  | nil => exact absurd rfl hne
  | cons c cs =>
    refine ⟨⟨t, c, cs, true⟩, rfl, rfl, ?_, ?_, nofun, ?_⟩
    · rw [h.entries, entriesOf_append]
      simp [Work.entries, Work.changes, entriesOf, Block.entries, Block.changes]
    · exact Block.Valid.append.mpr ⟨h.valid, hchain, trivial⟩
    · rw [h.value, Block.valueOf_append]
      rfl

/-- Behind other entries: either nothing is lost, or the first lost change found the value of the kept writers. -/
theorem noLost_or_firstLost {es₀ : List (Entry T V)} (h : Tells (keptValue kept none es₀) bs work es v)
    (hes₀ : NoLost lost es₀) (hfate : ∀ b ∈ bs, lost b.writer = false → kept b.writer = !b.takenBack)
    (hwork : ∀ w, work = some w → lost w.writer = true) :
    (work = none ∧ ∀ b ∈ bs, lost b.writer = false) ∨ FirstLost lost kept (es₀ ++ es) := by
  rw [h.entries]
  rcases all_or_first_lost lost bs with hall | ⟨front, b, rest, rfl, hfront, hlost⟩
  · cases work with
    | none => exact .inl ⟨rfl, hall⟩
    | some w =>
      obtain ⟨hchain, hne⟩ := h.chain w rfl
      obtain ⟨c, cs, hcs⟩ := List.exists_cons_of_ne_nil hne
      rw [hcs] at hchain
      refine .inr ⟨es₀ ++ entriesOf bs, w.writer, c, cs.map (.change w.writer) ++ w.taken.reverse.map (.back w.writer),
        by simp [Work.entries, hcs], NoLost.append.mpr ⟨hes₀, noLost_entriesOf hall⟩, hwork w rfl, ?_⟩
      rw [keptValue_append, keptValue_entriesOf fun b hb => hfate b hb (hall b hb), hchain.1]
  · obtain ⟨es', hes'⟩ := b.entries_eq
    have hbefore : b.first.before = Block.valueOf (keptValue kept none es₀) front :=
      (Block.Valid.append.mp h.valid).2.1.1
    refine .inr ⟨es₀ ++ entriesOf front, b.writer, b.first, es' ++ (entriesOf rest ++ work.elim [] Work.entries), ?_,
      NoLost.append.mpr ⟨hes₀, noLost_entriesOf hfront⟩, hlost, ?_⟩
    · rw [entriesOf_append, entriesOf, entriesOf, List.flatMap_cons, hes', entriesOf]
      simp only [List.append_assoc, List.cons_append]
    · rw [keptValue_append, keptValue_entriesOf fun b hb => hfate b (List.mem_append_left _ hb) (hfront b hb), hbefore]

end Tells

/-- When all changes stand, redoing gives the value at run time. -/
theorem redo_entriesOf {bs : List (Block T V)} (h : ∀ b ∈ bs, b.takenBack = false) :
    redo redone v (entriesOf bs) = Block.valueOf v bs := by
  induction bs generalizing v with
  | nil => rfl
  | cons b bs ih =>
    obtain ⟨hb, hbs⟩ := List.forall_mem_cons.mp h
    have hvalue : redo redone v b.entries = b.value v := by
      rw [Block.entries, Block.value, hb]
      exact (congrArg _ (List.append_nil _)).trans redo_map_change
    rw [entriesOf, List.flatMap_cons, redo_append, hvalue]
    exact ih hbs

/-- When no block is lost, redoing gives the value at run time unless the last entry is for a change that was taken
back. -/
theorem redo_entriesOf_iff {bs : List (Block T V)} (hvalid : Block.Valid none bs)
    (hlost : ∀ b ∈ bs, lost b.writer = false) :
    redo redone none (entriesOf bs) = Block.valueOf none bs ↔ ¬ Resurrected redone lost (entriesOf bs) := by
  have hnoLost := noLost_entriesOf hlost
  rcases List.eq_nil_or_concat' bs with rfl | ⟨front, b, rfl⟩
  · refine iff_of_true rfl ?_
    rintro ⟨-, front, t, c, hnil, -⟩
    simp [entriesOf] at hnil
  · have hbefore : b.first.before = Block.valueOf none front := (Block.Valid.append.mp hvalid).2.1.1
    have hentries : entriesOf (front ++ [b]) = entriesOf front ++ b.entries := by simp [entriesOf]
    rw [hentries, Block.valueOf_append, redo_append]
    rw [hentries] at hnoLost
    show redo redone _ b.entries = b.value (Block.valueOf none front) ↔ _
    cases hback : b.takenBack with
    | false =>
      have hb : b.entries = b.changes.map (.change b.writer) := by simp [Block.entries, hback]
      refine iff_of_true ?_ ?_
      · rw [hb, redo_map_change, Block.value, hback]
        rfl
      · rintro ⟨-, front', t, c, hes, -⟩
        have hmem : Entry.back t c ∈ b.entries := by
          have hlast := congrArg List.getLast? hes
          rw [List.getLast?_append_of_ne_nil _ (by simp [hb, Block.changes]), List.getLast?_concat] at hlast
          exact List.mem_of_getLast? hlast
        rw [hb] at hmem
        simp at hmem
    | true =>
      have hb : b.entries = (b.changes.map (.change b.writer) ++ b.rest.reverse.map (.back b.writer)) ++
          [.back b.writer b.first] := by
        simp [Block.entries, hback, Block.changes]
      rw [Block.value, hback, if_pos rfl, ← hbefore, hb, redo_append, ← List.append_assoc]
      show redone b.first = b.first.before ↔ _
      constructor
      · rintro heq ⟨-, front', t, c, hes, hne⟩
        obtain ⟨-, hlast⟩ := List.append_inj' hes rfl
        cases hlast
        exact hne heq
      · intro hnot
        by_contra hne
        refine hnot ⟨?_, _, _, _, rfl, hne⟩
        rwa [hb, ← List.append_assoc] at hnoLost

/-- Recovery gives what the kept writers have left, unless one of the two things happened. -/
theorem Tells.replay_iff {bs : List (Block T V)} {work : Option (Work T V)} (h : Tells none bs work es v)
    (hfate : ∀ b ∈ bs, lost b.writer = false → kept b.writer = !b.takenBack)
    (hkept : ∀ t, lost t = true → kept t = false) (hwork : ∀ w, work = some w → lost w.writer = true) :
    replay redone lost es = keptValue kept none es ↔
      ¬ Overwritten lost kept es ∧ ¬ Resurrected redone lost es := by
  have hcases := @noLost_or_firstLost _ _ lost kept v es bs work [] h (by simp [NoLost]) hfate hwork
  rw [List.nil_append] at hcases
  rcases hcases with ⟨rfl, hall⟩ | hfirst
  · have hes : es = entriesOf bs := h.entries.trans (List.append_nil _)
    have hno := noLost_entriesOf hall
    rw [hes, replay_of_noLost hno, keptValue_entriesOf fun b hb => hfate b hb (hall b hb),
      redo_entriesOf_iff h.valid hall]
    exact (and_iff_right hno.not_overwritten).symm
  · rw [hfirst.replay_iff hkept]
    exact (and_iff_left fun hback => hfirst.not_noLost hback.1).symm

end Replay
