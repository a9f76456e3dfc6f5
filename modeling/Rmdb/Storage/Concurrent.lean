-- SUMMARY: In which interleavings of several threads a fetched page has the bytes last saved.
import Rmdb.Storage.ThreadBytes

/-!
# The buffer pool under concurrent eviction

`fetch_page` and `new_page` give `latch_` back between the moment in which a page leaves the page
table and the moment in which its bytes are on disk, and `delete_page` frees a frame before it has
cleared it. In the runs in which no other call falls into these gaps, no saved bytes are lost.
-/

namespace Rmdb

open History (Event handles Honest)

namespace Threads

variable {κ : Type} [DecidableEq κ]

structure Inv (s : Threads κ) (past : List (Event κ PageId PageData)) : Prop where
  placed : s.Placed
  held : s.Held past
  counted : s.Counted past
  content : s.Content past
  honest : Honest past

theorem Inv.start (poolSize : Nat) (fds : FrameId → Int) (disk : DiskManager) :
    (start poolSize fds disk : Threads κ).Inv [] where
  placed := .start poolSize fds disk
  held := .start poolSize fds disk
  counted := .start poolSize fds disk
  content := .start poolSize fds disk
  honest := trivial

variable {s s' : Threads κ} {t : κ} {p : PageId} {f : FrameId}
variable {events past : List (Event κ PageId PageData)}

theorem Inv.honest_resume (h : s.Inv past) (hstep : s.resume t = some (events, s')) :
    Honest (events ++ past) := by
  simp only [resume] at hstep
  split at hstep
  case h_4 p f hpc =>
    have hread := h.content.read h.placed hpc
    split at hstep
    · next data hdata =>
      cases hstep
      exact ⟨hdata ▸ hread, h.honest⟩
    · next hdata =>
      cases hstep
      exact ⟨hdata ▸ hread, h.honest⟩
  all_goals
    try split at hstep
    all_goals
      cases hstep
      try exact h.honest

theorem Inv.honest_enter (h : s.Inv past) {a : PoolAct} (hlatch : s.latch = false)
    (hstep : s.enter t a = some (events, s')) : Honest (events ++ past) := by
  cases a with
  | fetchPage p =>
    simp only [enter] at hstep
    split at hstep
    · next f hp =>
      split at hstep
      · cases hstep
      · next hfree =>
        cases hstep
        have hfree : (s.pool.pages f).latched = false := by simpa using hfree
        have hun := h.placed.unowned hlatch hp hfree
        have hlost : ¬ s.Lost f := fun hlost => by simp [hlost.1] at hfree
        have hres := ((h.content.resident p f hp).resolve_left hun).resolve_left hlost
        exact ⟨hres.2, h.honest⟩
    · split at hstep <;> cases hstep <;> exact h.honest
  | newPage fd =>
    simp only [enter] at hstep
    split at hstep <;> cases hstep <;> exact h.honest
  | unpinPage p isDirty =>
    simp only [enter] at hstep
    split at hstep
    · cases hstep
      exact h.honest
    · split at hstep <;> cases hstep
      exact h.honest
  | deletePage p =>
    simp only [enter] at hstep
    split at hstep
    · cases hstep
      exact h.honest
    · split_ifs at hstep <;> cases hstep <;> exact h.honest
  | store p f data => cases hstep
  | resume => cases hstep

theorem Inv.resume (h : s.Inv past) (hstep : s.resume t = some (events, s')) :
    s'.Inv (events ++ past) := by
  have hhonest := h.honest_resume hstep
  obtain ⟨hp, hh, hc, hb, -⟩ := h
  cases hpc : s.pc t with
  | idle => simp [Threads.resume, hpc] at hstep
  | waiting p f =>
    exact ⟨hp.waiting hpc hstep, hh.waiting hpc hstep, hc.waiting hp hpc hstep,
      hb.waiting hpc hstep, hhonest⟩
  | evicting p f =>
    exact ⟨hp.evicting hpc hstep, hh.evicting hpc hstep, hc.evicting hp hpc hstep,
      hb.evicting hp hpc hstep, hhonest⟩
  | reading p f =>
    exact ⟨hp.reading hpc hstep, hh.reading hp hpc hstep, hc.reading hp hpc hstep,
      hb.reading hp hh hpc hstep, hhonest⟩
  | taken fd f =>
    exact ⟨hp.taken hpc hstep, hh.taken hpc hstep, hc.taken hpc hstep,
      hb.taken hpc hstep, hhonest⟩
  | allocated p f =>
    exact ⟨hp.allocated hpc hstep, hh.allocated hpc hstep, hc.allocated hp hpc hstep,
      hb.allocated hp hpc hstep, hhonest⟩
  | written p f =>
    exact ⟨hp.written hpc hstep, hh.written hpc hstep, hc.written hp hpc hstep,
      hb.written hh hpc hstep, hhonest⟩
  | filled p f =>
    obtain ⟨hid, hcount, hfree, -⟩ := hc.filled t p f hpc
    obtain ⟨-, -, hnone, -⟩ := hc.making t p (by simp [hpc, PoolPc.making])
    exact ⟨hp.filled hpc hid hnone hstep, hh.filled hp hpc hid hnone hcount hfree hstep,
      hc.enterNew hpc hstep, hb.filled hp hh hc hpc hstep, hhonest⟩
  | unpinning p f isDirty =>
    obtain ⟨htable, hun, -⟩ := hh.hold _ (hh.unpinning t p f isDirty hpc)
    exact ⟨hp.unpinning hpc htable hun hstep, hh.unpinStep hp hpc hstep,
      hc.unpinning hh hpc hstep, hb.unpinning hp hh hpc hstep, hhonest⟩
  | deleting p f =>
    exact ⟨hp.deleting hpc hstep, hh.deleting hp hpc hstep, hc.deleting hp hpc hstep,
      hb.deleting hp hpc hstep, hhonest⟩
  | cleared p f =>
    exact ⟨hp.cleared hpc hstep, hh.cleared hp hpc hstep, hc.cleared hp hpc hstep,
      hb.cleared hp hh hpc hstep, hhonest⟩

theorem Inv.enter (h : s.Inv past) {a : PoolAct} (hpc : s.pc t = .idle) (hlatch : s.latch = false)
    (hproper : s.Proper t a) (hclear : s.Clear a) (hstep : s.enter t a = some (events, s')) :
    s'.Inv (events ++ past) := by
  have hhonest := h.honest_enter hlatch hstep
  obtain ⟨hp, hh, hc, hb, -⟩ := h
  cases a with
  | fetchPage p =>
    exact ⟨hp.fetchPage hpc hlatch hclear hstep, hh.fetchPage hp hpc hlatch hclear hstep,
      hc.fetchPage hp hpc hlatch hproper hclear hstep,
      hb.fetchPage hp hh hpc hclear hstep, hhonest⟩
  | newPage fd =>
    exact ⟨hp.newPage hpc hclear hstep, hh.newPage hp hpc hclear hstep,
      hc.newPage hp hpc hclear hstep, hb.newPage hp hpc hclear hstep, hhonest⟩
  | unpinPage p isDirty =>
    exact ⟨hp.unpinPage hpc hlatch hstep, hh.unpinPage hpc hproper hstep,
      hc.unpinPage hp hpc hlatch hstep, hb.unpinPage hpc hstep, hhonest⟩
  | deletePage p =>
    exact ⟨hp.deletePage hpc hlatch hstep, hh.deletePage hp hpc hlatch hstep,
      hc.deletePage hp hpc hlatch hstep, hb.deletePage hp hpc hlatch hstep, hhonest⟩
  | store p f data => cases hstep
  | resume => cases hstep

theorem Inv.step (h : s.Inv past) {a : PoolAct} (hproper : s.Proper t a) (hclear : s.Clear a)
    (hstep : s.step t a = some (events, s')) : s'.Inv (events ++ past) := by
  cases a with
  | resume => exact h.resume hstep
  | store p f data =>
    simp only [Threads.step] at hstep
    split at hstep
    · next hk =>
      cases hstep
      exact ⟨h.placed.store f data, h.held.store hk.2 data, h.counted.store h.held hk.2 data,
        h.content.store h.placed h.held hk.2 data, h.honest⟩
    · cases hstep
  | fetchPage | newPage | unpinPage | deletePage =>
    simp only [Threads.step] at hstep
    split at hstep
    · next hidle => exact h.enter hidle.1 hidle.2 hproper hclear hstep
    · cases hstep

/-- The runs in which callers use the pool as they should and no call falls into a gap. -/
theorem Run.inv {s₀ : Threads κ} (h₀ : s₀.Inv [])
    (h : Run (fun s t a => s.Proper t a ∧ s.Clear a) s₀ past s) : s.Inv past := by
  induction h with
  | start => exact h₀
  | step _ hallowed hstep ih => exact ih.step hallowed.1 hallowed.2 hstep

end Threads

/-- In every interleaving in which no `fetch_page` misses a page while its bytes are still to be
written, and no frame is reused before `delete_page` is done with it: what a thread stored in a
page and unpinned as dirty is what a later `fetch_page` of the page returns, unless something newer
was stored, and no thread reads a page from disk before it is written back. -/
theorem fetch_not_older {κ : Type} [DecidableEq κ] (poolSize : Nat) (fds : FrameId → Int)
    (disk : DiskManager) {past : List (Event κ PageId PageData)} {s : Threads κ}
    (hrun : Threads.Run (fun s t a => s.Proper t a ∧ s.Clear a) (.start poolSize fds disk) past s) :
    (∀ t u p data r newest late mid early,
      past = newest ++ .fetched u p r ::
        (late ++ .released t p true :: (mid ++ .stored t p data :: early)) →
      (∀ l m, mid = l ++ m → 0 < handles t p (m ++ .stored t p data :: early)) →
      ∃ bytes, r = some bytes ∧
        (bytes = data ∨ ∃ v, Event.stored v p bytes ∈ late ++ mid)) ∧
    (∀ t p f, s.pc t = .reading p f → ∀ g, ¬ s.Unwritten g p) := by
  have h := hrun.inv (.start poolSize fds disk)
  constructor
  · rintro t u p data r newest late mid early rfl hkeep
    exact History.fresh_since data early mid late hkeep h.honest.fetched
  · intro t p f hpc g
    exact h.content.nothing_unwritten h.placed hpc g

theorem Threads.Run.next {κ : Type} [DecidableEq κ] {allowed : Threads κ → κ → PoolAct → Prop}
    {s₀ s : Threads κ} {past : List (Event κ PageId PageData)} (h : Run allowed s₀ past s)
    (t : κ) (a : PoolAct) (hallowed : allowed s t a) (hstep : (s.step t a).isSome) :
    Run allowed s₀ (((s.step t a).get hstep).1 ++ past) ((s.step t a).get hstep).2 :=
  .step h hallowed (Option.some_get hstep).symm

/-- A pool of two frames over a file of three pages. Thread 0 changes page 0 and unpins it, and fetches and unpins page 1.
Thread 1 evicts page 0 for page 2, and between its steps thread 0 fetches page 1 once more and unpins it. When page 0 is
written back, thread 0 fetches it. -/
theorem fetch_not_older_interleaved : ∃ (s : Threads Bool) (past : List (Event Bool PageId PageData)) (r : Option PageData),
    Threads.Run (fun s t a => s.Proper t a ∧ s.Clear a)
        (.start 2 (fun _ => -1) ⟨fun _ => List.replicate 3 PageData.zero, fun _ => 3⟩)
        (.fetched false ⟨3, 0⟩ r :: past) s ∧
      r = some (Vector.replicate pageSize 7) := by
  have h := @Threads.Run.start Bool _ (fun s t a => s.Proper t a ∧ s.Clear a)
    (.start 2 (fun _ => -1) ⟨fun _ => List.replicate 3 PageData.zero, fun _ => 3⟩)
  replace h := h.next false (.fetchPage ⟨3, 0⟩)
    ⟨⟨by decide, fun _ hm => nomatch hm⟩, by
      rintro - f b hv
      cases hv
      refine ⟨.inl rfl, fun g hg hun => ?_⟩
      exact absurd (show (-1 : Int) = 3 from congrArg PageId.fd hun.1) (by decide)⟩ rfl
  replace h := h.next false .resume ⟨trivial, trivial⟩ rfl
  replace h := h.next false .resume ⟨trivial, trivial⟩ rfl
  replace h := h.next false .resume ⟨trivial, trivial⟩ rfl
  replace h := h.next false (.store ⟨3, 0⟩ 0 (Vector.replicate pageSize 7)) ⟨trivial, trivial⟩ rfl
  replace h := h.next false (.unpinPage ⟨3, 0⟩ true) ⟨⟨0, .head _⟩, trivial⟩ rfl
  replace h := h.next false .resume ⟨trivial, trivial⟩ rfl
  replace h := h.next false (.fetchPage ⟨3, 1⟩)
    ⟨⟨by decide, by rintro (_ | _) hm <;> cases hm⟩, by
      rintro - f b hv
      cases hv
      refine ⟨.inl rfl, fun g hg hun => ?_⟩
      rcases g with _ | _ | g
      · exact absurd (show (0 : Int) = 1 from congrArg PageId.pageNo hun.1) (by decide)
      · exact hg rfl
      · exact absurd (show (-1 : Int) = 3 from congrArg PageId.fd hun.1) (by decide)⟩ rfl
  replace h := h.next false .resume ⟨trivial, trivial⟩ rfl
  replace h := h.next false .resume ⟨trivial, trivial⟩ rfl
  replace h := h.next false .resume ⟨trivial, trivial⟩ rfl
  replace h := h.next false (.unpinPage ⟨3, 1⟩ false) ⟨⟨1, .head _⟩, trivial⟩ rfl
  replace h := h.next false .resume ⟨trivial, trivial⟩ rfl
  replace h := h.next true (.fetchPage ⟨3, 2⟩)
    ⟨⟨by decide, by rintro (_ | _) hm <;> cases hm⟩, by
      rintro - f b hv
      cases hv
      refine ⟨.inr rfl, fun g hg hun => ?_⟩
      rcases g with _ | _ | g
      · exact hg rfl
      · exact absurd (show (1 : Int) = 2 from congrArg PageId.pageNo hun.1) (by decide)
      · exact absurd (show (-1 : Int) = 3 from congrArg PageId.fd hun.1) (by decide)⟩ rfl
  replace h := h.next true .resume ⟨trivial, trivial⟩ rfl
  replace h := h.next false (.fetchPage ⟨3, 1⟩)
    ⟨⟨by decide, by rintro (_ | _) hm <;> cases hm⟩, fun hmiss => by cases hmiss⟩ rfl
  replace h := h.next true .resume ⟨trivial, trivial⟩ rfl
  replace h := h.next false (.unpinPage ⟨3, 1⟩ false) ⟨⟨1, .head _⟩, trivial⟩ rfl
  replace h := h.next true .resume ⟨trivial, trivial⟩ rfl
  replace h := h.next false .resume ⟨trivial, trivial⟩ rfl
  replace h := h.next false (.fetchPage ⟨3, 0⟩)
    ⟨⟨by decide, by rintro (_ | _) hm <;> cases hm⟩, by
      rintro - f b hv
      cases hv
      refine ⟨.inr rfl, fun g hg hun => ?_⟩
      rcases g with _ | _ | g
      · exact absurd (show (2 : Int) = 0 from congrArg PageId.pageNo hun.1) (by decide)
      · exact hg rfl
      · exact absurd (show (-1 : Int) = 3 from congrArg PageId.fd hun.1) (by decide)⟩ rfl
  replace h := h.next false .resume ⟨trivial, trivial⟩ rfl
  replace h := h.next false .resume ⟨trivial, trivial⟩ rfl
  replace h := h.next false .resume ⟨trivial, trivial⟩ rfl
  refine ⟨_, _, _, h, ?_⟩
  obtain ⟨bytes, hr, hbytes | ⟨v, hv⟩⟩ := (fetch_not_older 2 (fun _ => -1)
    ⟨fun _ => List.replicate 3 PageData.zero, fun _ => 3⟩ h).1 false false ⟨3, 0⟩ (Vector.replicate pageSize 7) _ []
      [.released false ⟨3, 1⟩ false, .fetched true ⟨3, 2⟩ (some PageData.zero),
        .fetched false ⟨3, 1⟩ (some PageData.zero), .released false ⟨3, 1⟩ false,
        .fetched false ⟨3, 1⟩ (some PageData.zero)] [] [.fetched false ⟨3, 0⟩ (some PageData.zero)] rfl (by
        intro l m hm
        obtain ⟨rfl, rfl⟩ := List.nil_eq_append_iff.mp hm
        decide)
  · rw [hr, hbytes]
  · simp at hv

theorem replicate_ne {n : Nat} (hn : 0 < n) {a b : UInt8} (hab : a ≠ b) :
    Vector.replicate n a ≠ Vector.replicate n b := by
  intro heq
  apply hab
  have hget : (Vector.replicate n a)[0] = (Vector.replicate n b)[0] := by rw [heq]
  simpa using hget

/-- A pool of two frames over a file of three pages. Thread 0 changes page 0 and unpins it, and
fetches and unpins page 1. Thread 1 evicts page 0 for page 2, and before it has written page 0 back
thread 0 fetches page 0 again, and reads the old bytes from disk. -/
theorem fetch_stale : ∃ (s : Threads Bool) (late early : List (Event Bool PageId PageData)),
    Threads.Run (fun s t a => s.Proper t a)
        (.start 2 (fun _ => -1) ⟨fun _ => List.replicate 3 PageData.zero, fun _ => 3⟩)
        (.fetched false ⟨3, 0⟩ (some PageData.zero) :: (late ++ .released false ⟨3, 0⟩ true ::
          .stored false ⟨3, 0⟩ (Vector.replicate pageSize 7) :: early)) s ∧
      0 < handles false ⟨3, 0⟩
        (.stored false ⟨3, 0⟩ (Vector.replicate pageSize 7) :: early) ∧
      PageData.zero ≠ Vector.replicate pageSize 7 ∧
      ∀ v, Event.stored v ⟨3, 0⟩ PageData.zero ∉ late := by
  have h := @Threads.Run.start Bool _ (fun s t a => s.Proper t a)
    (.start 2 (fun _ => -1) ⟨fun _ => List.replicate 3 PageData.zero, fun _ => 3⟩)
  replace h := h.next false (.fetchPage ⟨3, 0⟩) ⟨by decide, fun _ hm => nomatch hm⟩ rfl
  replace h := h.next false .resume trivial rfl
  replace h := h.next false .resume trivial rfl
  replace h := h.next false .resume trivial rfl
  replace h := h.next false (.store ⟨3, 0⟩ 0 (Vector.replicate pageSize 7)) trivial rfl
  replace h := h.next false (.unpinPage ⟨3, 0⟩ true) ⟨0, .head _⟩ rfl
  replace h := h.next false .resume trivial rfl
  replace h := h.next false (.fetchPage ⟨3, 1⟩) ⟨by decide, by rintro (_ | _) hm <;> cases hm⟩ rfl
  replace h := h.next false .resume trivial rfl
  replace h := h.next false .resume trivial rfl
  replace h := h.next false .resume trivial rfl
  replace h := h.next false (.unpinPage ⟨3, 1⟩ false) ⟨1, .head _⟩ rfl
  replace h := h.next false .resume trivial rfl
  replace h := h.next true (.fetchPage ⟨3, 2⟩) ⟨by decide, by rintro (_ | _) hm <;> cases hm⟩ rfl
  replace h := h.next true .resume trivial rfl
  replace h := h.next false (.fetchPage ⟨3, 0⟩) ⟨by decide, by rintro (_ | _) hm <;> cases hm⟩ rfl
  replace h := h.next false .resume trivial rfl
  replace h := h.next false .resume trivial rfl
  replace h := h.next false .resume trivial rfl
  refine ⟨_, [.released false ⟨3, 1⟩ false, .fetched false ⟨3, 1⟩ (some PageData.zero)],
    [.fetched false ⟨3, 0⟩ (some PageData.zero)], h, by decide, ?_, by simp⟩
  exact replicate_ne (by decide) (by decide)

end Rmdb
