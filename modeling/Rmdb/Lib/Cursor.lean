-- SUMMARY: Cursors over a sequence of tuples, and the join of two lists.
import Mathlib.Data.List.Perm.Basic

/-!
# Cursors

A cursor is opened, moved on and read, and says when it is at its end. `Yields` is the list of
what is still to come from a state; opening and moving on may fail.

`joined` is the join of two lists: the pairs that pass a test, combined. Cutting either list in
two cuts its join in two, up to the order.
-/

/-- The operations of a cursor with states `σ` over tuples of type `α`. -/
structure Cursor (σ α : Type) where
  begin : σ → Option σ
  next : σ → Option σ
  isEnd : σ → Bool
  current : σ → α

namespace Cursor

variable {σ α : Type} (c : Cursor σ α)

/-- What the cursor gives from state `s` on, until its end. -/
inductive Yields : σ → List α → Prop
  | done {s : σ} : c.isEnd s = true → Yields s []
  | tuple {s s' : σ} {xs : List α} : c.isEnd s = false → c.next s = some s' → Yields s' xs →
      Yields s (c.current s :: xs)

/-- What the cursor gives when it is opened in state `s`. -/
def Runs (s : σ) (xs : List α) : Prop := ∃ s', c.begin s = some s' ∧ c.Yields s' xs

/-- The same, with the state at the end. -/
inductive YieldsTo : σ → List α → σ → Prop
  | done {s : σ} : c.isEnd s = true → YieldsTo s [] s
  | tuple {s s' t : σ} {xs : List α} : c.isEnd s = false → c.next s = some s' → YieldsTo s' xs t →
      YieldsTo s (c.current s :: xs) t

/-- One pass: the cursor is opened in state `s`, gives its tuples and is then in state `t`. -/
def RunsTo (s : σ) (xs : List α) (t : σ) : Prop := ∃ s', c.begin s = some s' ∧ c.YieldsTo s' xs t

/-- The states that the operations lead to. -/
inductive Reached (s₀ : σ) : σ → Prop
  | start : Reached s₀ s₀
  | begin {s s' : σ} : Reached s₀ s → c.begin s = some s' → Reached s₀ s'
  | next {s s' : σ} : Reached s₀ s → c.next s = some s' → Reached s₀ s'

/-- Whenever the cursor is opened, it gives these tuples. -/
def Reopens (s₀ : σ) (xs : List α) : Prop := ∀ s, c.Reached s₀ s → c.Runs s xs

/-- What comes of going on from state `s` until the end: the tuples, or nothing if moving on fails on the way. -/
inductive Outcome : σ → Option (List α) → Prop
  | done {s : σ} : c.isEnd s = true → Outcome s (some [])
  | fails {s : σ} : c.isEnd s = false → c.next s = none → Outcome s none
  | tuple {s s' : σ} {o : Option (List α)} : c.isEnd s = false → c.next s = some s' → Outcome s' o →
      Outcome s (o.map (c.current s :: ·))

/-- The same from what opening or moving on gives. -/
def Leads : Option σ → Option (List α) → Prop
  | none, o => o = none
  | some s, o => c.Outcome s o

/-- Takes up to `room` tuples. -/
def fill : Nat → σ → Option (List α × σ)
  | 0, s => some ([], s)
  | room + 1, s =>
    if c.isEnd s then some ([], s) else do
      let s' ← c.next s
      let (xs, s') ← fill room s'
      return (c.current s :: xs, s')

/-- Takes all tuples. -/
def drain : Nat → σ → Option (List α)
  | 0, _ => none
  | fuel + 1, s =>
    if c.isEnd s then some [] else do
      let s' ← c.next s
      let xs ← drain fuel s'
      return c.current s :: xs

/-- One pass: opens the cursor and takes all tuples. -/
def pass (fuel : Nat) (s : σ) : Option (List α) := do
  let s' ← c.begin s
  c.drain fuel s'

variable {c}

theorem Yields.fill {s : σ} {xs : List α} (h : c.Yields s xs) (room : Nat) :
    ∃ s', c.fill room s = some (xs.take room, s') ∧ c.Yields s' (xs.drop room) := by
  induction room generalizing s xs with
  | zero => exact ⟨s, rfl, h⟩
  | succ room ih =>
    cases h with
    | done hend => exact ⟨s, by simp [Cursor.fill, hend], .done hend⟩
    | tuple hend hnext hrest =>
      obtain ⟨s', hfill, hyields⟩ := ih hrest
      exact ⟨s', by simp [Cursor.fill, hend, hnext, hfill], hyields⟩

theorem Yields.unique {s : σ} {xs ys : List α} (hx : c.Yields s xs)
    (hy : c.Yields s ys) : xs = ys := by
  induction hx generalizing ys with
  | done hend =>
    cases hy with
    | done _ => rfl
    | tuple hend' _ _ => simp [hend] at hend'
  | tuple hend hnext _ ih =>
    cases hy with
    | done hend' => simp [hend] at hend'
    | tuple _ hnext' hrest =>
      obtain rfl := Option.some.inj (hnext.symm.trans hnext')
      rw [ih hrest]

theorem Runs.unique {s : σ} {xs ys : List α} (hx : c.Runs s xs)
    (hy : c.Runs s ys) : xs = ys := by
  obtain ⟨s₁, hbegin, hx⟩ := hx
  obtain ⟨s₂, hbegin', hy⟩ := hy
  obtain rfl := Option.some.inj (hbegin.symm.trans hbegin')
  exact hx.unique hy

/-- One more step of a pass. -/
theorem Leads.tuple {s : σ} {o : Option (List α)} (hend : c.isEnd s = false) (h : c.Leads (c.next s) o) :
    c.Outcome s (o.map (c.current s :: ·)) := by
  cases hnext : c.next s with
  | none =>
    rw [hnext] at h
    obtain rfl : o = none := h
    exact .fails hend hnext
  | some s' =>
    rw [hnext] at h
    exact .tuple hend hnext h

theorem Yields.exists_end {s : σ} {xs : List α} (h : c.Yields s xs) : ∃ t, c.YieldsTo s xs t := by
  induction h with
  | done hend => exact ⟨_, .done hend⟩
  | tuple hend hnext _ ih =>
    obtain ⟨t, ht⟩ := ih
    exact ⟨t, .tuple hend hnext ht⟩

theorem Runs.exists_end {s : σ} {xs : List α} (h : c.Runs s xs) : ∃ t, c.RunsTo s xs t := by
  obtain ⟨s', hbegin, hyields⟩ := h
  obtain ⟨t, ht⟩ := hyields.exists_end
  exact ⟨t, s', hbegin, ht⟩

theorem YieldsTo.isEnd {s t : σ} {xs : List α} (h : c.YieldsTo s xs t) : c.isEnd t = true := by
  induction h with
  | done hend => exact hend
  | tuple _ _ _ ih => exact ih

theorem RunsTo.isEnd {s t : σ} {xs : List α} (h : c.RunsTo s xs t) : c.isEnd t = true := by
  obtain ⟨_, -, hyields⟩ := h
  exact hyields.isEnd

theorem YieldsTo.reached {s₀ s t : σ} {xs : List α} (h : c.YieldsTo s xs t) (hs : c.Reached s₀ s) :
    c.Reached s₀ t := by
  induction h with
  | done _ => exact hs
  | tuple _ hnext _ ih => exact ih (hs.next hnext)

theorem RunsTo.reached {s₀ s t : σ} {xs : List α} (h : c.RunsTo s xs t) (hs : c.Reached s₀ s) :
    c.Reached s₀ t := by
  obtain ⟨_, hbegin, hyields⟩ := h
  exact hyields.reached (hs.begin hbegin)

theorem Reached.fill {s₀ s s' : σ} {room : Nat} {xs : List α} (hs : c.Reached s₀ s)
    (h : c.fill room s = some (xs, s')) : c.Reached s₀ s' := by
  induction room generalizing s xs with
  | zero =>
    cases h
    exact hs
  | succ room ih =>
    simp only [Cursor.fill] at h
    split at h
    · cases h
      exact hs
    · simp only [Option.bind_eq_bind, Option.bind_eq_some_iff] at h
      obtain ⟨s₁, hnext, ⟨_, _⟩, hfill, heq⟩ := h
      cases heq
      exact ih (hs.next hnext) hfill

theorem Yields.drain {s : σ} {xs : List α} (h : c.Yields s xs) {fuel : Nat}
    (hfuel : xs.length < fuel) : c.drain fuel s = some xs := by
  induction h generalizing fuel with
  | done hend =>
    cases fuel with
    | zero => omega
    | succ fuel => simp [Cursor.drain, hend]
  | tuple hend hnext _ ih =>
    cases fuel with
    | zero => omega
    | succ fuel => simp [Cursor.drain, hend, hnext, ih (Nat.lt_of_succ_lt_succ hfuel)]

theorem Runs.pass {s : σ} {xs : List α} (h : c.Runs s xs) {fuel : Nat}
    (hfuel : xs.length < fuel) : c.pass fuel s = some xs := by
  obtain ⟨s', hbegin, hyields⟩ := h
  simp [Cursor.pass, hbegin, hyields.drain hfuel]

end Cursor

/-- The pairs of two lists that pass a test, combined. -/
def joined {α β γ : Type} (keep : α → β → Bool) (combine : α → β → γ)
    (as : List α) (bs : List β) : List γ :=
  as.flatMap fun a => (bs.filter (keep a)).map (combine a)

section Joined

variable {α β γ : Type} {keep : α → β → Bool} {combine : α → β → γ}

@[simp] theorem joined_nil_left (bs : List β) : joined keep combine [] bs = [] := rfl

theorem joined_cons (a : α) (as : List α) (bs : List β) : joined keep combine (a :: as) bs =
    (bs.filter (keep a)).map (combine a) ++ joined keep combine as bs := by
  simp [joined]

theorem joined_append_left (as as' : List α) (bs : List β) :
    joined keep combine (as ++ as') bs = joined keep combine as bs ++ joined keep combine as' bs := by
  simp [joined]

@[simp] theorem joined_nil_right (as : List α) : joined keep combine as [] = [] := by
  simp [joined]

theorem joined_eq_nil_iff {as : List α} {bs : List β} :
    joined keep combine as bs = [] ↔ ∀ a ∈ as, ∀ b ∈ bs, keep a b = false := by
  simp only [joined, List.flatMap_eq_nil_iff, List.map_eq_nil_iff, List.filter_eq_nil_iff,
    Bool.not_eq_true]

theorem joined_append_right (as : List α) (bs bs' : List β) :
    (joined keep combine as bs ++ joined keep combine as bs').Perm
      (joined keep combine as (bs ++ bs')) := by
  simp only [joined, List.filter_append, List.map_append]
  exact List.flatMap_append_perm as _ _

theorem joined_perm {as as' : List α} {bs bs' : List β} (has : as.Perm as') (hbs : bs.Perm bs') :
    (joined keep combine as bs).Perm (joined keep combine as' bs') := by
  refine List.Perm.trans (has.flatMap_right _) ?_
  exact List.Perm.flatMap_left _ fun a _ => (hbs.filter _).map _

/-- A join of images is the image of a join. -/
theorem joined_map {α' β' : Type} (f : α' → α) (g : β' → β) (as : List α')
    (bs : List β') : joined keep combine (as.map f) (bs.map g) =
      joined (fun a b => keep (f a) (g b)) (fun a b => combine (f a) (g b)) as bs := by
  simp [joined, List.flatMap_map, List.filter_map, Function.comp_def]

theorem joined_congr {keep' : α → β → Bool} {combine' : α → β → γ} {as : List α} {bs : List β}
    (hkeep : ∀ a ∈ as, ∀ b ∈ bs, keep a b = keep' a b)
    (hcombine : ∀ a ∈ as, ∀ b ∈ bs, combine a b = combine' a b) :
    joined keep combine as bs = joined keep' combine' as bs := by
  simp only [joined]
  refine List.flatMap_congr fun a ha => ?_
  rw [List.filter_congr (hkeep a ha)]
  exact List.map_congr_left fun b hb => hcombine a ha b (List.mem_of_mem_filter hb)

theorem joined_filter_left (p : α → Bool) (as : List α) (bs : List β) :
    joined keep combine (as.filter p) bs = joined (fun a b => p a && keep a b) combine as bs := by
  induction as with
  | nil => rfl
  | cons a as ih =>
    cases hp : p a with
    | true => rw [List.filter_cons_of_pos hp, joined_cons, joined_cons, ih]; simp [hp]
    | false =>
      rw [List.filter_cons_of_neg (by simp [hp]), joined_cons, ih]
      simp [hp]

theorem joined_filter_right (q : β → Bool) (as : List α) (bs : List β) :
    joined keep combine as (bs.filter q) = joined (fun a b => keep a b && q b) combine as bs := by
  simp only [joined, List.filter_filter]

end Joined
