-- SUMMARY: Which thread may touch which frame: latches, owners and the page table under interleaving.
import Rmdb.Storage.Threads

/-!
# Frames under several threads

A frame is free, evictable, taken by a thread for a page of its own, or in use. `Placed` says so,
and who holds which latch. It speaks of no bytes.
-/

namespace Rmdb

open History (Event)

-- ---------------------------------------------------------------------------
-- What a thread has
-- ---------------------------------------------------------------------------

namespace PoolPc

/-- The frame whose latch the thread holds. -/
def latches : PoolPc → Option FrameId
  | evicting _ f | reading _ f | written _ f => some f
  | unpinning _ f _ | deleting _ f | cleared _ f => some f
  | _ => none

/-- The frame that the thread has taken for a page of its own. -/
def owns : PoolPc → Option FrameId
  | waiting _ f | evicting _ f | reading _ f => some f
  | taken _ f | allocated _ f | written _ f | filled _ f => some f
  | _ => none

/-- The page that the thread brings in, which is in the page table already. -/
def loads : PoolPc → Option PageId
  | waiting p _ | evicting p _ | reading p _ => some p
  | _ => none

/-- The frame that the thread clears. -/
def clears : PoolPc → Option FrameId
  | deleting _ f | cleared _ f => some f
  | _ => none

/-- The thread has not had the latch of the frame that it has taken. -/
def early : PoolPc → Bool
  | waiting _ _ | taken _ _ | allocated _ _ => true
  | _ => false

theorem latches_of_clears {c : PoolPc} {f : FrameId} (h : c.clears = some f) :
    c.latches = some f := by
  cases c <;> simp_all [clears, latches]

/-- The frame that the thread is at work on. -/
def frame : PoolPc → Option FrameId
  | waiting _ f | evicting _ f | reading _ f => some f
  | taken _ f | allocated _ f | written _ f | filled _ f => some f
  | unpinning _ f _ | deleting _ f | cleared _ f => some f
  | idle => none

theorem frame_of_owns {c : PoolPc} {f : FrameId} (h : c.owns = some f) : c.frame = some f := by
  cases c <;> simp_all [owns, frame]

theorem frame_of_latches {c : PoolPc} {f : FrameId} (h : c.latches = some f) :
    c.frame = some f := by
  cases c <;> simp_all [latches, frame]

/-- The thread is at work on frame `f` or on none. -/
def Within (c : PoolPc) (f : FrameId) : Prop := ∀ g, c.frame = some g → g = f

theorem within_idle (f : FrameId) : idle.Within f := nofun

theorem within_of_frame {c : PoolPc} {f : FrameId} (h : c.frame = some f) : c.Within f :=
  fun _ hg => Option.some.inj (hg.symm.trans h)

/-- The steps of a call that work on frame `f` and leave the free list, the replacer and the page
table as they are. -/
inductive Works (f : FrameId) : PoolPc → PoolPc → Prop
  | evict (p : PageId) : Works f (.waiting p f) (.evicting p f)
  | read (p : PageId) : Works f (.evicting p f) (.reading p f)
  | fetched (p : PageId) : Works f (.reading p f) .idle
  | allocate (fd : Int) (p : PageId) : Works f (.taken fd f) (.allocated p f)
  | write (p : PageId) : Works f (.allocated p f) (.written p f)
  | fill (p : PageId) : Works f (.written p f) (.filled p f)
  | unpin (p : PageId) (isDirty : Bool) : Works f .idle (.unpinning p f isDirty)
  | unpinned (p : PageId) (isDirty : Bool) : Works f (.unpinning p f isDirty) .idle
  | clear (p : PageId) : Works f (.deleting p f) (.cleared p f)
  | deleted (p : PageId) : Works f (.cleared p f) .idle

variable {b c : PoolPc} {f g : FrameId}

theorem Works.owns (h : Works f b c) (hg : c.owns = some g) :
    b.owns = some g ∧ c.loads = b.loads := by
  cases h <;> simp_all [PoolPc.owns, loads]

theorem Works.owned (h : Works f b c) (hg : b.owns = some g) : g = f := by
  cases h <;> simp_all [PoolPc.owns]

theorem Works.clears (h : Works f b c) (hg : c.clears = some g) : b.clears = some g := by
  cases h <;> simp_all [PoolPc.clears]

theorem Works.early (h : Works f b c) (hb : b.clears = some g) : c.early = b.early := by
  cases h <;> simp_all [PoolPc.early, PoolPc.clears]

theorem Works.within (h : Works f b c) : b.Within f ∧ c.Within f := by
  cases h <;> simp [Within, frame]

theorem Works.start_ne_filled (h : Works f b c) {p : PageId} : b ≠ .filled p g := by
  cases h <;> simp

theorem Works.not_waiting (h : Works f b c) {p : PageId} : c ≠ .waiting p g := by
  cases h <;> simp

end PoolPc

namespace Threads

variable {κ : Type}

/-- A thread has taken the frame. -/
def Owned (s : Threads κ) (f : FrameId) : Prop := ∃ t, (s.pc t).owns = some f

/-- Nobody holds the latch of the frame, and it is not free: `read_page` threw. -/
def Lost (s : Threads κ) (f : FrameId) : Prop :=
  (s.pool.pages f).latched = true ∧ ∀ t, (s.pc t).latches ≠ some f

structure Placed (s : Threads κ) : Prop where
  latch_one : ∀ t u f, (s.pc t).latches = some f → (s.pc u).latches = some f → t = u
  latch_held : ∀ t f, (s.pc t).latches = some f → (s.pool.pages f).latched = true
  waiting_latch : ∀ t p f, s.pc t = .waiting p f → s.latch = true
  waiting_one : ∀ t u p q f g, s.pc t = .waiting p f → s.pc u = .waiting q g → t = u
  own_one : ∀ t u f, (s.pc t).owns = some f → (s.pc u).owns = some f → t = u
  own_free : ∀ t f, (s.pc t).owns = some f → f ∉ s.pool.freeList
  own_lru : ∀ t f, (s.pc t).owns = some f → f ∉ s.pool.replacer.list
  free_nodup : s.pool.freeList.Nodup
  lru_ok : s.pool.replacer.Ok
  free_lru : ∀ f ∈ s.pool.freeList, f ∉ s.pool.replacer.list
  loads_table : ∀ t p f, (s.pc t).loads = some p → (s.pc t).owns = some f →
    s.pool.pageTable p = some f
  table_own : ∀ t p f, s.pool.pageTable p = some f → (s.pc t).owns = some f →
    (s.pc t).loads = some p
  table_free : ∀ p f, s.pool.pageTable p = some f → f ∉ s.pool.freeList
  /-- A frame can be taken before `delete_page` is done with it, but no more than that. -/
  clears_own : ∀ t u f, (s.pc t).clears = some f → (s.pc u).owns = some f → (s.pc u).early
  clears_lru : ∀ t f, (s.pc t).clears = some f → f ∉ s.pool.replacer.list
  table_id : ∀ p f, s.pool.pageTable p = some f →
    s.Owned f ∨ (s.pool.pages f).id = p ∧ ∀ t, (s.pc t).clears ≠ some f
  lru : ∀ f ∈ s.pool.replacer.list,
    s.pool.pageTable (s.pool.pages f).id = some f ∧ (s.pool.pages f).pinCount = 0

theorem Placed.start (poolSize : Nat) (fds : FrameId → Int) (disk : DiskManager) :
    (start poolSize fds disk : Threads κ).Placed where
  latch_one _ _ _ ht := nomatch ht
  latch_held _ _ ht := nomatch ht
  waiting_latch _ _ _ ht := nomatch ht
  waiting_one _ _ _ _ _ _ ht := nomatch ht
  own_one _ _ _ ht := nomatch ht
  own_free _ _ ht := nomatch ht
  own_lru _ _ ht := nomatch ht
  free_nodup := List.nodup_range
  lru_ok := ⟨List.nodup_nil, fun _ => ⟨nofun, nofun⟩⟩
  free_lru _ _ := List.not_mem_nil
  loads_table _ _ _ ht := nomatch ht
  table_own _ _ _ hp := nomatch hp
  table_free _ _ hp := nomatch hp
  clears_own _ _ _ ht := nomatch ht
  clears_lru _ _ ht := nomatch ht
  table_id _ _ hp := nomatch hp
  lru _ hf := nomatch hf

variable {s s' : Threads κ} {t : κ} {p : PageId} {f : FrameId}

/-- A thread that has `latch_` finds no frame half taken, unless the latch of the frame is held. -/
theorem Placed.unowned (h : s.Placed) (hlatch : s.latch = false)
    (hp : s.pool.pageTable p = some f) (hfree : (s.pool.pages f).latched = false) :
    ¬ s.Owned f := by
  rintro ⟨t, ht⟩
  have hloads := h.table_own t p f hp ht
  cases hpc : s.pc t with
  | waiting q g => simp [h.waiting_latch t q g hpc] at hlatch
  | evicting q g | reading q g =>
    have hheld := h.latch_held t f (by simpa [hpc, PoolPc.owns, PoolPc.latches] using ht)
    simp [hheld] at hfree
  | _ => simp [hpc, PoolPc.loads] at hloads

/-- Nobody else has the latch of a frame that is free, or that the thread has itself. -/
theorem Placed.alone (h : s.Placed)
    (ht : (s.pool.pages f).latched = false ∨ (s.pc t).latches = some f) :
    ∀ u, u ≠ t → (s.pc u).latches ≠ some f := by
  intro u hu hf
  rcases ht with hfree | hmine
  · cases hfree.symm.trans (h.latch_held u f hf)
  · exact hu (h.latch_one u t f hf hmine)

-- ---------------------------------------------------------------------------
-- Victims
-- ---------------------------------------------------------------------------

/-- What `find_victim_page` does to the pool. -/
structure Victim (b : BufferPoolManager) (f : FrameId) (b' : BufferPoolManager) : Prop where
  mem : f ∈ b.freeList ∨ f ∈ b.replacer.list
  free : ∀ g, g ∈ b'.freeList ↔ g ∈ b.freeList ∧ g ≠ f
  lru : ∀ g, g ∈ b'.replacer.list ↔ g ∈ b.replacer.list ∧ g ≠ f
  free_nodup : b'.freeList.Nodup
  lru_ok : b'.replacer.Ok
  pages : b'.pages = b.pages
  pageTable : b'.pageTable = b.pageTable
  disk : b'.disk = b.disk

theorem Placed.victim (h : s.Placed) {b : BufferPoolManager}
    (hv : s.pool.findVictimPage = some (f, b)) : Victim s.pool f b := by
  rw [BufferPoolManager.findVictimPage] at hv
  split at hv
  · next rest hfree =>
    cases hv
    have hnodup := h.free_nodup
    rw [hfree, List.nodup_cons] at hnodup
    refine ⟨.inl (by simp [hfree]), fun g => ?_, fun g => ?_, hnodup.2, h.lru_ok, rfl, rfl, rfl⟩
    · rw [hfree, List.mem_cons]
      grind
    · have := h.free_lru f (by simp [hfree])
      grind
  · next hfree =>
    obtain ⟨⟨g, lru⟩, hlru, hb⟩ := Option.map_eq_some_iff.mp hv
    cases hb
    obtain ⟨hmem, rfl⟩ := h.lru_ok.victim hlru
    refine ⟨.inr hmem, fun g => ?_, fun g => ?_, h.free_nodup, h.lru_ok.pin f, rfl, rfl, rfl⟩
    · simp [hfree]
    · rw [h.lru_ok.mem_pin, and_comm]

theorem Placed.victim_unowned (h : s.Placed) {b : BufferPoolManager} (hv : Victim s.pool f b) :
    ¬ s.Owned f := by
  rintro ⟨t, ht⟩
  exact hv.mem.elim (h.own_free t f ht) (h.own_lru t f ht)

/-- Taking the page of a frame that nobody has out of the page table frees that frame and no
other. -/
theorem Placed.table_erase (h : s.Placed) (hf : ¬ s.Owned f) (hclaim : s.Unclaimed f)
    (q : PageId) (g : FrameId) :
    Function.update s.pool.pageTable (s.pool.pages f).id none q = some g ↔
      s.pool.pageTable q = some g ∧ g ≠ f := by
  rw [Function.update_apply]
  split
  · next hq =>
    subst hq
    constructor
    · intro hnone
      cases hnone
    · rintro ⟨hg, hne⟩
      rcases hclaim with hnone | hsome
      · cases hnone.symm.trans hg
      · exact absurd (Option.some.inj (hg.symm.trans hsome)) hne
  · next hq =>
    refine ⟨fun hg => ⟨hg, ?_⟩, And.left⟩
    rintro rfl
    exact hq ((h.table_id q g hg).resolve_left hf).1.symm

-- ---------------------------------------------------------------------------
-- The other frames
-- ---------------------------------------------------------------------------

variable {c : PoolPc} {u : κ} {g : FrameId}

/-- The step has to do with frame `f` only. -/
structure Elsewhere (s s' : Threads κ) (f : FrameId) : Prop where
  pcs : ∀ u, s'.pc u = s.pc u ∨ (s.pc u).Within f ∧ (s'.pc u).Within f
  table : ∀ q g, g ≠ f → (s'.pool.pageTable q = some g ↔ s.pool.pageTable q = some g)
  pages : ∀ g, g ≠ f → s'.pool.pages g = s.pool.pages g

theorem Elsewhere.pc_iff (he : Elsewhere s s' f) (hg : g ≠ f) (hc : c.frame = some g) :
    s'.pc u = c ↔ s.pc u = c := by
  rcases he.pcs u with hsame | ⟨hold, hnew⟩
  · rw [hsame]
  · refine iff_of_false (fun h => hg (hnew g ?_)) (fun h => hg (hold g ?_)) <;> rw [h, hc]

theorem Elsewhere.owns_iff (he : Elsewhere s s' f) (hg : g ≠ f) :
    (s'.pc u).owns = some g ↔ (s.pc u).owns = some g := by
  rcases he.pcs u with hsame | ⟨hold, hnew⟩
  · rw [hsame]
  · exact iff_of_false (fun h => hg (hnew g (PoolPc.frame_of_owns h)))
      (fun h => hg (hold g (PoolPc.frame_of_owns h)))

theorem Elsewhere.latches_iff (he : Elsewhere s s' f) (hg : g ≠ f) :
    (s'.pc u).latches = some g ↔ (s.pc u).latches = some g := by
  rcases he.pcs u with hsame | ⟨hold, hnew⟩
  · rw [hsame]
  · exact iff_of_false (fun h => hg (hnew g (PoolPc.frame_of_latches h)))
      (fun h => hg (hold g (PoolPc.frame_of_latches h)))

theorem Elsewhere.owned (he : Elsewhere s s' f) (hg : g ≠ f) : s'.Owned g ↔ s.Owned g :=
  exists_congr fun _ => he.owns_iff hg

theorem Elsewhere.lost (he : Elsewhere s s' f) (hg : g ≠ f) : s'.Lost g ↔ s.Lost g := by
  rw [Lost, Lost, he.pages g hg]
  exact and_congr_right' (forall_congr' fun _ => not_congr (he.latches_iff hg))

variable [DecidableEq κ]

/-- The thread that goes on was at work on frame `f`, or is now. -/
theorem Elsewhere.of_update (hpcs : s'.pc = Function.update s.pc t c) (hold : (s.pc t).Within f)
    (hnew : c.Within f)
    (htable : ∀ q g, g ≠ f → (s'.pool.pageTable q = some g ↔ s.pool.pageTable q = some g))
    (hpages : ∀ g, g ≠ f → s'.pool.pages g = s.pool.pages g) : Elsewhere s s' f where
  pcs u := by
    rw [hpcs]
    by_cases hut : u = t
    · rw [hut, Function.update_self]
      exact .inr ⟨hold, hnew⟩
    · exact .inl (Function.update_of_ne hut _ _)
  table := htable
  pages := hpages

-- ---------------------------------------------------------------------------
-- Steps on one frame
-- ---------------------------------------------------------------------------

/-- Thread `t` goes on to `c`, and nothing changes with it but the frame `f` that it works on. -/
structure Moves (s s' : Threads κ) (t : κ) (f : FrameId) (c : PoolPc) : Prop where
  works : PoolPc.Works f (s.pc t) c
  pc : s'.pc = Function.update s.pc t c
  freeList : s'.pool.freeList = s.pool.freeList
  replacer : s'.pool.replacer = s.pool.replacer
  pageTable : s'.pool.pageTable = s.pool.pageTable
  pages : ∀ g, g ≠ f → s'.pool.pages g = s.pool.pages g

theorem Moves.set (hworks : PoolPc.Works f (s.pc t) c) (page : Page) (disk : DiskManager)
    (latch : Bool) (pins : List (Pin κ)) :
    Moves s ⟨{ s.pool.setPage f page with disk := disk }, latch, Function.update s.pc t c, pins⟩
      t f c :=
  ⟨hworks, rfl, rfl, rfl, rfl, fun _ hg => Function.update_of_ne hg _ _⟩

/-- Nothing changes with the thread but the disk. -/
theorem Moves.keep (hworks : PoolPc.Works f (s.pc t) c) (disk : DiskManager) :
    Moves s { s.goTo t c with pool := { s.pool with disk := disk } } t f c :=
  ⟨hworks, rfl, rfl, rfl, rfl, fun _ _ => rfl⟩

theorem Moves.own (hm : Moves s s' t f c) : s'.pc t = c := by
  rw [hm.pc, Function.update_self]

theorem Moves.other (hm : Moves s s' t f c) (hu : u ≠ t) : s'.pc u = s.pc u := by
  rw [hm.pc, Function.update_of_ne hu]

theorem Moves.ne_of_waiting (hm : Moves s s' t f c) (h : s'.pc u = .waiting p g) : u ≠ t := by
  rintro rfl
  exact hm.works.not_waiting (hm.own.symm.trans h)

theorem Moves.owns (hm : Moves s s' t f c) (h : (s'.pc u).owns = some g) :
    (s.pc u).owns = some g ∧ (s'.pc u).loads = (s.pc u).loads := by
  by_cases hu : u = t
  · subst hu
    rw [hm.own] at h ⊢
    exact hm.works.owns h
  · rw [hm.other hu] at h ⊢
    exact ⟨h, rfl⟩

theorem Moves.owned (hm : Moves s s' t f c) (hc : c.owns = some f) : s'.Owned f :=
  ⟨t, by rw [hm.own, hc]⟩

theorem Moves.clears (hm : Moves s s' t f c) (h : (s'.pc u).clears = some g) :
    (s.pc u).clears = some g := by
  by_cases hu : u = t
  · subst hu
    rw [hm.own] at h
    exact hm.works.clears h
  · rwa [hm.other hu] at h

theorem Moves.elsewhere (hm : Moves s s' t f c) : Elsewhere s s' f :=
  .of_update hm.pc hm.works.within.1 hm.works.within.2 (fun _ _ _ => by rw [hm.pageTable]) hm.pages

omit [DecidableEq κ] in
/-- A frame that is cleared is in the page table only for a thread that has taken it again. -/
theorem Placed.owned_of_clears (h : s.Placed) (hclears : (s.pc t).clears = some f)
    (hp : s.pool.pageTable p = some f) : ∃ u, u ≠ t ∧ (s.pc u).owns = some f := by
  obtain ⟨u, hu⟩ := (h.table_id p f hp).resolve_right fun hid => hid.2 t hclears
  refine ⟨u, ?_, hu⟩
  rintro rfl
  cases hpc : s.pc u <;> simp_all [PoolPc.owns, PoolPc.clears]

theorem Moves.owned_of_clears (hm : Moves s s' t f c) (h : s.Placed)
    (hclears : (s.pc t).clears = some f) (hp : s'.pool.pageTable p = some f) : s'.Owned f := by
  obtain ⟨u, hut, hu⟩ := h.owned_of_clears hclears (hm.pageTable ▸ hp)
  exact ⟨u, by rw [hm.other hut, hu]⟩

/-- The frame has still to be written if it had before. -/
theorem Moves.unwritten (hm : Moves s s' t f c) (hid : (s'.pool.pages f).id = (s.pool.pages f).id)
    (hdirty : (s'.pool.pages f).isDirty = (s.pool.pages f).isDirty) (hc : ∀ q, c ≠ .written q f)
    (h : s.Unwritten f p) : s'.Unwritten f p := by
  rw [Unwritten, hid, hdirty]
  refine ⟨h.1, h.2.1, fun u q hu => ?_⟩
  by_cases hut : u = t
  · exact hc q (hm.own.symm.trans (hut ▸ hu))
  · exact h.2.2 u q (hm.other hut ▸ hu)

theorem Placed.moves (h : s.Placed) (hm : Moves s s' t f c)
    (halone : (∀ u, u ≠ t → (s.pc u).latches ≠ some f) ∨
      c.latches = none ∧ s'.pool.pages f = s.pool.pages f)
    (hheld : c.latches = some f → (s'.pool.pages f).latched = true)
    (hearly : c.early = (s.pc t).early ∨ ∀ u, (s.pc u).clears ≠ some f)
    (hlatch : s'.latch = s.latch ∨ ∃ p, s.pc t = .waiting p f)
    (htable : ∀ q, s.pool.pageTable q = some f →
      s'.Owned f ∨ (s'.pool.pages f).id = q ∧ ∀ u, (s'.pc u).clears ≠ some f)
    (hlru : f ∈ s.pool.replacer.list → (s'.pool.pages f).id = (s.pool.pages f).id ∧
      (s'.pool.pages f).pinCount = (s.pool.pages f).pinCount) : s'.Placed := by
  have hmine : ∀ u, (s'.pc u).latches = some f → u = t ∨
      (s.pc u).latches = some f ∧ c.latches = none ∧ s'.pool.pages f = s.pool.pages f := by
    intro u hu
    by_cases hut : u = t
    · exact .inl hut
    · rw [hm.other hut] at hu
      exact .inr ⟨hu, halone.resolve_left fun halone => halone u hut hu⟩
  have hset : ∀ u, u = t → (s'.pc u).latches = some f → c.latches = some f := by
    rintro u rfl hu
    exact hm.own ▸ hu
  constructor
  case latch_one =>
    intro u v g hu hv
    by_cases hg : g = f
    · subst hg
      rcases hmine u hu, hmine v hv with ⟨hut | ⟨hu', hnone, -⟩, hvt | ⟨hv', hnone', -⟩⟩
      · exact hut.trans hvt.symm
      · cases hnone'.symm.trans (hset u hut hu)
      · cases hnone.symm.trans (hset v hvt hv)
      · exact h.latch_one u v g hu' hv'
    · exact h.latch_one u v g ((hm.elsewhere.latches_iff hg).mp hu) ((hm.elsewhere.latches_iff hg).mp hv)
  case latch_held =>
    intro u g hu
    by_cases hg : g = f
    · subst hg
      rcases hmine u hu with hut | ⟨hu', -, hpage⟩
      · exact hheld (hset u hut hu)
      · rw [hpage]
        exact h.latch_held u g hu'
    · rw [hm.pages g hg]
      exact h.latch_held u g ((hm.elsewhere.latches_iff hg).mp hu)
  case waiting_latch =>
    intro u p g hu
    have hut := hm.ne_of_waiting hu
    rw [hm.other hut] at hu
    rcases hlatch with hlatch | ⟨q, ht⟩
    · exact hlatch.trans (h.waiting_latch u p g hu)
    · exact absurd (h.waiting_one u t p q g f hu ht) hut
  case waiting_one =>
    intro u v p q g g' hu hv
    rw [hm.other (hm.ne_of_waiting hu)] at hu
    rw [hm.other (hm.ne_of_waiting hv)] at hv
    exact h.waiting_one u v p q g g' hu hv
  case own_one =>
    intro u v g hu hv
    exact h.own_one u v g (hm.owns hu).1 (hm.owns hv).1
  case own_free =>
    intro u g hu
    rw [hm.freeList]
    exact h.own_free u g (hm.owns hu).1
  case own_lru =>
    intro u g hu
    rw [hm.replacer]
    exact h.own_lru u g (hm.owns hu).1
  case free_nodup => exact hm.freeList ▸ h.free_nodup
  case lru_ok => exact hm.replacer ▸ h.lru_ok
  case free_lru =>
    rw [hm.freeList, hm.replacer]
    exact h.free_lru
  case loads_table =>
    intro u p g hp hu
    obtain ⟨hown, hloads⟩ := hm.owns hu
    rw [hm.pageTable]
    exact h.loads_table u p g (hloads ▸ hp) hown
  case table_own =>
    intro u p g hp hu
    obtain ⟨hown, hloads⟩ := hm.owns hu
    rw [hm.pageTable] at hp
    exact hloads.trans (h.table_own u p g hp hown)
  case table_free =>
    rw [hm.pageTable, hm.freeList]
    exact h.table_free
  case clears_own =>
    intro u v g hu hv
    replace hu := hm.clears hu
    have hown := (hm.owns hv).1
    have hold := h.clears_own u v g hu hown
    by_cases hvt : v = t
    · subst hvt
      obtain rfl := hm.works.owned hown
      rw [hm.own]
      exact (hearly.resolve_right fun hnone => hnone u hu).trans hold
    · rwa [hm.other hvt]
  case clears_lru =>
    intro u g hu
    rw [hm.replacer]
    exact h.clears_lru u g (hm.clears hu)
  case table_id =>
    intro p g hp
    rw [hm.pageTable] at hp
    by_cases hg : g = f
    · subst hg
      exact htable p hp
    · rw [hm.elsewhere.owned hg, hm.pages g hg]
      exact (h.table_id p g hp).imp_right fun ⟨hid, hclears⟩ =>
        ⟨hid, fun u hu => hclears u (hm.clears hu)⟩
  case lru =>
    intro g hg
    rw [hm.replacer] at hg
    rw [hm.pageTable]
    by_cases hgf : g = f
    · subst hgf
      rw [(hlru hg).1, (hlru hg).2]
      exact h.lru g hg
    · rw [hm.pages g hgf]
      exact h.lru g hg

/-- A thread goes on with a frame that nobody has taken. -/
theorem Placed.moves_unowned (h : s.Placed) (hm : Moves s s' t f c) (hun : ¬ s.Owned f)
    (hid : (s'.pool.pages f).id = (s.pool.pages f).id)
    (halone : ∀ u, u ≠ t → (s.pc u).latches ≠ some f)
    (hheld : c.latches = some f → (s'.pool.pages f).latched = true)
    (hearly : c.early = (s.pc t).early) (hlatch : s'.latch = s.latch)
    (hlru : f ∈ s.pool.replacer.list →
      (s'.pool.pages f).pinCount = (s.pool.pages f).pinCount) : s'.Placed := by
  refine h.moves hm (.inl halone) hheld (.inl hearly) (.inl hlatch) (fun q hq => .inr ?_)
    fun hf => ⟨hid, hlru hf⟩
  obtain ⟨hq, hclears⟩ := (h.table_id q f hq).resolve_left hun
  exact ⟨hid.trans hq, fun u hu => hclears u (hm.clears hu)⟩

/-- A thread goes on with a frame that it has taken. -/
theorem Placed.moves_own (h : s.Placed) (hm : Moves s s' t f c) (hown : c.owns = some f)
    (halone : (∀ u, u ≠ t → (s.pc u).latches ≠ some f) ∨
      c.latches = none ∧ s'.pool.pages f = s.pool.pages f)
    (hheld : c.latches = some f → (s'.pool.pages f).latched = true)
    (hearly : c.early = (s.pc t).early ∨ ∀ u, (s.pc u).clears ≠ some f)
    (hlatch : s'.latch = s.latch ∨ ∃ p, s.pc t = .waiting p f) : s'.Placed := by
  have hown' : (s'.pc t).owns = some f := hm.own ▸ hown
  refine h.moves hm halone hheld hearly hlatch (fun q _ => .inl ⟨t, hown'⟩) fun hf => ?_
  exact absurd hf (h.own_lru t f (hm.owns hown').1)

/-- A thread goes on with a frame that it clears. -/
theorem Placed.moves_clear (h : s.Placed) (hm : Moves s s' t f c)
    (hclears : (s.pc t).clears = some f)
    (hheld : c.latches = some f → (s'.pool.pages f).latched = true)
    (hlatch : s'.latch = s.latch) : s'.Placed := by
  refine h.moves hm (.inl (h.alone (.inr (PoolPc.latches_of_clears hclears)))) hheld
    (.inl (hm.works.early hclears)) (.inl hlatch) (fun q hq => .inl ?_)
    fun hf => absurd hf (h.clears_lru t f hclears)
  exact hm.owned_of_clears h hclears (hm.pageTable ▸ hq)

-- ---------------------------------------------------------------------------
-- Steps
-- ---------------------------------------------------------------------------

variable {events : List (Event κ PageId PageData)}

omit [DecidableEq κ] in
/-- The bytes and the pin count of a frame matter only if the frame can be evicted. -/
theorem Placed.retouch (h : s.Placed) (hpc : s'.pc = s.pc) (hlatch : s'.latch = s.latch)
    (hfree : s'.pool.freeList = s.pool.freeList) (htable : s'.pool.pageTable = s.pool.pageTable)
    (hpages : ∀ g, (s'.pool.pages g).id = (s.pool.pages g).id ∧
      (s'.pool.pages g).latched = (s.pool.pages g).latched)
    (hok : s'.pool.replacer.Ok)
    (hlru : ∀ g ∈ s'.pool.replacer.list, g ∈ s.pool.replacer.list ∧
      (s'.pool.pages g).pinCount = (s.pool.pages g).pinCount) : s'.Placed where
  latch_one := hpc ▸ h.latch_one
  latch_held u g hu := by
    rw [(hpages g).2]
    exact h.latch_held u g (hpc ▸ hu)
  waiting_latch u q g hu := hlatch.trans (h.waiting_latch u q g (hpc ▸ hu))
  waiting_one := hpc ▸ h.waiting_one
  own_one := hpc ▸ h.own_one
  own_free := by
    rw [hpc, hfree]
    exact h.own_free
  own_lru u g hu := fun hg => h.own_lru u g (hpc ▸ hu) (hlru g hg).1
  free_nodup := hfree ▸ h.free_nodup
  lru_ok := hok
  free_lru g hg := fun hg' => h.free_lru g (hfree ▸ hg) (hlru g hg').1
  loads_table := by
    rw [hpc, htable]
    exact h.loads_table
  table_own := by
    rw [hpc, htable]
    exact h.table_own
  table_free := by
    rw [htable, hfree]
    exact h.table_free
  clears_own := hpc ▸ h.clears_own
  clears_lru u g hu := fun hg => h.clears_lru u g (hpc ▸ hu) (hlru g hg).1
  table_id q g hq := by
    rw [Owned, hpc, (hpages g).1]
    exact h.table_id q g (htable ▸ hq)
  lru g hg := by
    rw [(hpages g).1, (hlru g hg).2, htable]
    exact h.lru g (hlru g hg).1

omit [DecidableEq κ] in
theorem Placed.store (h : s.Placed) (f : FrameId) (data : PageData) :
    ({ s with pool := s.pool.setPage f { s.pool.pages f with data := data } } :
      Threads κ).Placed := by
  refine h.retouch rfl rfl rfl rfl (fun g => ?_) h.lru_ok fun g hg => ⟨hg, ?_⟩ <;>
    by_cases hgf : g = f <;> simp [BufferPoolManager.setPage, hgf]

/-- Thread `t` takes the victim `f` and is at `c` with it. The page table names the frame only for the page
that it loads. -/
structure Takes (s s' : Threads κ) (t : κ) (f : FrameId) (c : PoolPc) : Prop where
  idle : s.pc t = .idle
  pc : s'.pc = Function.update s.pc t c
  owns : c.owns = some f
  early : c.early
  latches : c.latches = none
  waits : ∀ q g, c = .waiting q g → s.latch = false ∧ s'.latch = true
  latch : s.latch = true → s'.latch = true
  loads : ∀ q, s'.pool.pageTable q = some f ↔ c.loads = some q
  table : ∀ q g, g ≠ f → (s'.pool.pageTable q = some g ↔ s.pool.pageTable q = some g)

theorem Takes.own (hm : Takes s s' t f c) : s'.pc t = c := by
  rw [hm.pc, Function.update_self]

theorem Takes.other (hm : Takes s s' t f c) (hu : u ≠ t) : s'.pc u = s.pc u := by
  rw [hm.pc, Function.update_of_ne hu]

/-- The frame is the only one that changes hands. -/
theorem Takes.owns_cases (hm : Takes s s' t f c) (hun : ¬ s.Owned f) (hu : (s'.pc u).owns = some g) :
    u = t ∧ g = f ∨ u ≠ t ∧ g ≠ f ∧ (s.pc u).owns = some g := by
  by_cases hut : u = t
  · subst hut
    exact .inl ⟨rfl, Option.some.inj (hu.symm.trans (hm.own ▸ hm.owns))⟩
  · rw [hm.other hut] at hu
    refine .inr ⟨hut, ?_, hu⟩
    rintro rfl
    exact hun ⟨u, hu⟩

theorem Takes.owned (hm : Takes s s' t f c) (hown : s.Owned g) : s'.Owned g := by
  obtain ⟨u, hu⟩ := hown
  have hut : u ≠ t := by
    rintro rfl
    cases hm.idle ▸ hu
  exact ⟨u, by rw [hm.other hut, hu]⟩

theorem Takes.latched (hm : Takes s s' t f c) (hu : (s'.pc u).latches = some g) : (s.pc u).latches = some g := by
  by_cases hut : u = t
  · subst hut
    cases hm.latches.symm.trans (hm.own ▸ hu)
  · rwa [hm.other hut] at hu

theorem Takes.clears (hm : Takes s s' t f c) (hu : (s'.pc u).clears = some g) : (s.pc u).clears = some g := by
  by_cases hut : u = t
  · subst hut
    cases hm.latches.symm.trans (hm.own ▸ PoolPc.latches_of_clears hu)
  · rwa [hm.other hut] at hu

theorem Takes.waiting_latch (hm : Takes s s' t f c) (h : s.Placed) (hu : s'.pc u = .waiting p g) :
    s'.latch = true := by
  by_cases hut : u = t
  · subst hut
    exact (hm.waits p g (hm.own.symm.trans hu)).2
  · exact hm.latch (h.waiting_latch u p g (hm.other hut ▸ hu))

/-- A thread that waits with the latch of the pool keeps the others from taking a frame that has to be written. -/
theorem Takes.waiting_one (hm : Takes s s' t f c) (h : s.Placed) {v : κ} {q : PageId} {g' : FrameId}
    (hu : s'.pc u = .waiting p g) (hv : s'.pc v = .waiting q g') : u = v := by
  have hself : ∀ {v : κ} {p q : PageId} {g g' : FrameId}, v ≠ t → s'.pc t = .waiting p g → s'.pc v ≠ .waiting q g' := by
    intro v p q g g' hvt ht hv
    rw [hm.other hvt] at hv
    cases (hm.waits p g (hm.own.symm.trans ht)).1.symm.trans (h.waiting_latch v q g' hv)
  by_cases hut : u = t
  · by_cases hvt : v = t
    · exact hut.trans hvt.symm
    · exact absurd hv (hself hvt (hut ▸ hu))
  · by_cases hvt : v = t
    · exact absurd hu (hself hut (hvt ▸ hv))
    · exact h.waiting_one u v p q g g' (hm.other hut ▸ hu) (hm.other hvt ▸ hv)

/-- Of the other frames the page table says what it said. -/
theorem Takes.table_id (hm : Takes s s' t f c) (h : s.Placed) (hpages : s'.pool.pages = s.pool.pages)
    (hp : s'.pool.pageTable p = some g) :
    s'.Owned g ∨ (s'.pool.pages g).id = p ∧ ∀ u, (s'.pc u).clears ≠ some g := by
  by_cases hg : g = f
  · exact .inl ⟨t, by rw [hm.own, hm.owns, hg]⟩
  · rw [hpages]
    rcases h.table_id p g ((hm.table p g hg).mp hp) with hown | ⟨hid, hnone⟩
    · exact .inl (hm.owned hown)
    · exact .inr ⟨hid, fun u hu => hnone u (hm.clears hu)⟩

theorem Placed.take (h : s.Placed) {b : BufferPoolManager} (hv : Victim s.pool f b) (hm : Takes s s' t f c)
    (hfree : s'.pool.freeList = b.freeList) (hlru : s'.pool.replacer = b.replacer)
    (hpages : s'.pool.pages = b.pages) : s'.Placed := by
  have hun := h.victim_unowned hv
  rw [hv.pages] at hpages
  constructor
  case latch_one =>
    intro u v g hu hv
    exact h.latch_one u v g (hm.latched hu) (hm.latched hv)
  case latch_held =>
    intro u g hu
    rw [hpages]
    exact h.latch_held u g (hm.latched hu)
  case waiting_latch => exact fun u q g hu => hm.waiting_latch h hu
  case waiting_one => exact fun u v q q' g g' hu hv => hm.waiting_one h hu hv
  case own_one =>
    intro u v g hu hv
    rcases hm.owns_cases hun hu, hm.owns_cases hun hv with
      ⟨⟨hut, hg⟩ | ⟨-, hg, hu⟩, ⟨hvt, hg'⟩ | ⟨-, hg', hv⟩⟩
    · exact hut.trans hvt.symm
    · exact absurd hg hg'
    · exact absurd hg' hg
    · exact h.own_one u v g hu hv
  case own_free =>
    intro u g hu
    rw [hfree, hv.free]
    rcases hm.owns_cases hun hu with ⟨-, hg⟩ | ⟨-, -, hu⟩
    · exact fun hmem => hmem.2 hg
    · exact fun hmem => h.own_free u g hu hmem.1
  case own_lru =>
    intro u g hu
    rw [hlru, hv.lru]
    rcases hm.owns_cases hun hu with ⟨-, hg⟩ | ⟨-, -, hu⟩
    · exact fun hmem => hmem.2 hg
    · exact fun hmem => h.own_lru u g hu hmem.1
  case free_nodup => exact hfree ▸ hv.free_nodup
  case lru_ok => exact hlru ▸ hv.lru_ok
  case free_lru =>
    intro g hg
    rw [hfree, hv.free] at hg
    rw [hlru, hv.lru]
    exact fun hmem => h.free_lru g hg.1 hmem.1
  case loads_table =>
    intro u q g hq hu
    rcases hm.owns_cases hun hu with ⟨rfl, rfl⟩ | ⟨hut, hg, hu⟩
    · exact (hm.loads q).mpr (hm.own ▸ hq)
    · rw [hm.other hut] at hq
      exact (hm.table q g hg).mpr (h.loads_table u q g hq hu)
  case table_own =>
    intro u q g hq hu
    rcases hm.owns_cases hun hu with ⟨rfl, rfl⟩ | ⟨hut, hg, hu⟩
    · rw [hm.own]
      exact (hm.loads q).mp hq
    · rw [hm.other hut]
      exact h.table_own u q g ((hm.table q g hg).mp hq) hu
  case table_free =>
    intro q g hq
    rw [hfree, hv.free]
    exact fun hmem => h.table_free q g ((hm.table q g hmem.2).mp hq) hmem.1
  case clears_own =>
    intro u v g hu hv
    by_cases hvt : v = t
    · rw [hvt, hm.own]
      exact hm.early
    · rw [hm.other hvt] at hv ⊢
      exact h.clears_own u v g (hm.clears hu) hv
  case clears_lru =>
    intro u g hu
    rw [hlru, hv.lru]
    exact fun hmem => h.clears_lru u g (hm.clears hu) hmem.1
  case table_id => exact fun q g hq => hm.table_id h hpages hq
  case lru =>
    intro g hg
    rw [hlru, hv.lru] at hg
    rw [hpages, hm.table _ g hg.2]
    exact h.lru g hg.1

theorem Placed.fetchPage (h : s.Placed) (hpc : s.pc t = .idle) (hlatch : s.latch = false)
    (hclear : s.Clear (.fetchPage p)) (hstep : s.enter t (.fetchPage p) = some (events, s')) :
    s'.Placed := by
  simp only [enter] at hstep
  split at hstep
  · next f hp =>
    split at hstep
    · cases hstep
    · next hfree =>
      cases hstep
      refine h.retouch rfl rfl rfl rfl (fun g => ?_) (h.lru_ok.pin f) fun g hg => ?_
      · by_cases hgf : g = f <;> simp [BufferPoolManager.setPage, hgf]
      · obtain ⟨hgf, hg⟩ := h.lru_ok.mem_pin.mp hg
        exact ⟨hg, by simp [BufferPoolManager.setPage, hgf]⟩
  · next hp =>
    split at hstep
    · cases hstep
      exact h
    · next f b hv =>
      have hclaim := (hclear hp f b hv).1
      replace hv := h.victim hv
      have hcut := h.table_erase (h.victim_unowned hv) hclaim
      cases hstep
      refine h.take hv ⟨hpc, rfl, rfl, rfl, rfl, fun _ _ _ => ⟨hlatch, rfl⟩, fun _ => rfl, fun q => ?_, fun q g hg => ?_⟩
        rfl rfl rfl
      · by_cases hq : q = p
        · simp [hq, PoolPc.loads]
        · simp [hq, Ne.symm hq, hv.pages, hv.pageTable, hcut, PoolPc.loads]
      · by_cases hq : q = p
        · simp [hq, hp, hg.symm]
        · simp [hq, hv.pages, hv.pageTable, hcut, hg]

theorem Placed.newPage (h : s.Placed) {fd : Int} (hpc : s.pc t = .idle)
    (hclear : s.Clear (.newPage fd)) (hstep : s.enter t (.newPage fd) = some (events, s')) :
    s'.Placed := by
  simp only [enter] at hstep
  split at hstep
  · cases hstep
    exact h
  · next f b hv =>
    have hclaim := hclear f b hv
    replace hv := h.victim hv
    have hcut := h.table_erase (h.victim_unowned hv) hclaim
    cases hstep
    refine h.take (c := .taken fd f) hv
      ⟨hpc, rfl, rfl, rfl, rfl, nofun, id, fun q => ?_, fun q g hg => ?_⟩ rfl rfl rfl
    · simp [hv.pages, hv.pageTable, hcut, PoolPc.loads]
    · simp [hv.pages, hv.pageTable, hcut, hg]

theorem Placed.unpinPage (h : s.Placed) {isDirty : Bool} (hpc : s.pc t = .idle)
    (hlatch : s.latch = false) (hstep : s.enter t (.unpinPage p isDirty) = some (events, s')) :
    s'.Placed := by
  simp only [enter] at hstep
  split at hstep
  · cases hstep
    exact h
  next f hp =>
  split at hstep
  · cases hstep
  next hfree =>
  have hfree : (s.pool.pages f).latched = false := by simpa using hfree
  cases hstep
  refine h.moves_unowned (.set (hpc ▸ .unpin p isDirty) _ _ _ _) (h.unowned hlatch hp hfree) ?_
    (h.alone (.inl hfree)) ?_ (hpc ▸ rfl) rfl ?_ <;>
    simp [BufferPoolManager.setPage]

theorem Placed.deletePage (h : s.Placed) (hpc : s.pc t = .idle) (hlatch : s.latch = false)
    (hstep : s.enter t (.deletePage p) = some (events, s')) : s'.Placed := by
  simp only [enter] at hstep
  split at hstep
  · cases hstep
    exact h
  · next f hp =>
    split_ifs at hstep with hfree hpin
    · cases hstep
      exact h
    · cases hstep
      have hun := h.unowned hlatch hp (by simpa using hfree)
      have hid := ((h.table_id p f hp).resolve_left hun).1
      have hcut := h.table_erase hun (.inr (hid ▸ hp))
      have hmem := @h.lru_ok.mem_pin
      have hok := h.lru_ok.pin f
      rw [hid] at hcut
      generalize Function.update s.pool.pageTable p none = table at *
      cases h
      constructor <;>
        simp only [goTo, BufferPoolManager.setPage, Function.update_apply, Owned] at * <;>
        grind [PoolPc.latches, PoolPc.owns, PoolPc.loads, PoolPc.clears, PoolPc.early]

theorem Placed.waiting (h : s.Placed) (hpc : s.pc t = .waiting p f)
    (hstep : s.resume t = some (events, s')) : s'.Placed := by
  simp only [resume, hpc] at hstep
  split at hstep
  · cases hstep
  next hfree =>
  have hfree : (s.pool.pages f).latched = false := by simpa using hfree
  cases hstep
  refine h.moves_own (.set (hpc ▸ .evict p) _ _ _ _) rfl (.inl (h.alone (.inl hfree))) ?_
    (.inr fun u hu => ?_) (.inr ⟨p, hpc⟩)
  · simp [BufferPoolManager.setPage]
  · cases hfree.symm.trans (h.latch_held u f (PoolPc.latches_of_clears hu))

theorem Placed.evicting (h : s.Placed) (hpc : s.pc t = .evicting p f)
    (hstep : s.resume t = some (events, s')) : s'.Placed := by
  simp only [resume, hpc] at hstep
  cases hstep
  have hmine : (s.pc t).latches = some f := hpc ▸ rfl
  refine h.moves_own (.set (hpc ▸ .read p) _ _ _ _) rfl (.inl (h.alone (.inr hmine)))
    (fun _ => ?_) (.inl (hpc ▸ rfl)) (.inl rfl)
  simpa [BufferPoolManager.setPage] using h.latch_held t f hmine

theorem Placed.reading (h : s.Placed) (hpc : s.pc t = .reading p f)
    (hstep : s.resume t = some (events, s')) : s'.Placed := by
  have howns : (s.pc t).owns = some f := hpc ▸ rfl
  have hmine : (s.pc t).latches = some f := hpc ▸ rfl
  have hp := h.loads_table t p f (hpc ▸ rfl) howns
  have hown := h.table_own t
  simp only [resume, hpc] at hstep
  split at hstep
  all_goals
    cases hstep
    refine h.moves (.set (hpc ▸ .fetched p) _ _ _ _) (.inl (h.alone (.inr hmine))) nofun
      (.inl (hpc ▸ rfl)) (.inl rfl) (fun q hq => .inr ⟨?_, fun u => ?_⟩)
      fun hf => absurd hf (h.own_lru t f howns)
    · simpa [BufferPoolManager.setPage, hpc, PoolPc.loads] using hown q f hq howns
    · intro hu
      by_cases hut : u = t
      · simp [goTo, hut, PoolPc.clears] at hu
      · have hearly := h.clears_own u t f (by simpa [goTo, hut] using hu) howns
        simp [hpc, PoolPc.early] at hearly

theorem Placed.taken (h : s.Placed) {fd : Int} (hpc : s.pc t = .taken fd f)
    (hstep : s.resume t = some (events, s')) : s'.Placed := by
  simp only [resume, hpc] at hstep
  cases hstep
  exact h.moves_own (.keep (hpc ▸ .allocate fd _) _) rfl
    (.inr ⟨rfl, rfl⟩) nofun (.inl (hpc ▸ rfl)) (.inl rfl)

theorem Placed.allocated (h : s.Placed) (hpc : s.pc t = .allocated p f)
    (hstep : s.resume t = some (events, s')) : s'.Placed := by
  simp only [resume, hpc] at hstep
  split at hstep
  · cases hstep
  next hfree =>
  have hfree : (s.pool.pages f).latched = false := by simpa using hfree
  cases hstep
  refine h.moves_own (.set (hpc ▸ .write p) _ _ _ _) rfl (.inl (h.alone (.inl hfree))) ?_
    (.inr fun u hu => ?_) (.inl rfl)
  · simp [BufferPoolManager.setPage]
  · cases hfree.symm.trans (h.latch_held u f (PoolPc.latches_of_clears hu))

theorem Placed.written (h : s.Placed) (hpc : s.pc t = .written p f)
    (hstep : s.resume t = some (events, s')) : s'.Placed := by
  simp only [resume, hpc] at hstep
  cases hstep
  have hmine : (s.pc t).latches = some f := hpc ▸ rfl
  exact h.moves_own (.set (hpc ▸ .fill p) _ _ _ _) rfl (.inl (h.alone (.inr hmine))) nofun
    (.inl (hpc ▸ rfl)) (.inl rfl)

theorem Placed.filled (h : s.Placed) (hpc : s.pc t = .filled p f)
    (hid : (s.pool.pages f).id = p) (hp : s.pool.pageTable p = none)
    (hstep : s.resume t = some (events, s')) : s'.Placed := by
  simp only [resume, hpc] at hstep
  split at hstep
  · cases hstep
  cases hstep
  cases h
  constructor <;>
    simp only [goTo, Function.update_apply, Owned] at * <;>
    grind [PoolPc.latches, PoolPc.owns, PoolPc.loads, PoolPc.clears, PoolPc.early]

omit [DecidableEq κ] in
/-- A frame that nobody uses any more becomes evictable. -/
theorem Placed.evictable (h : s.Placed) (hun : ¬ s.Owned f)
    (hclears : ∀ u, (s.pc u).clears ≠ some f) (hlru : f ∉ s.pool.replacer.list)
    (htable : s.pool.pageTable (s.pool.pages f).id = some f)
    (hcount : (s.pool.pages f).pinCount = 0) :
    ({ s with pool := { s.pool with replacer := s.pool.replacer.unpin f } } :
      Threads κ).Placed := by
  have hmem : ∀ g, g ∈ (s.pool.replacer.unpin f).list ↔ g = f ∨ g ∈ s.pool.replacer.list := by
    intro g
    rw [LRUReplacer.unpin_of_notMem h.lru_ok hlru, List.mem_cons]
  have hfree := h.table_free _ f htable
  refine { h with
    own_lru := ?_, lru_ok := h.lru_ok.unpin hlru, free_lru := ?_, clears_lru := ?_, lru := ?_ }
  · intro u g hu hg
    rcases (hmem g).mp hg with rfl | hg
    · exact hun ⟨u, hu⟩
    · exact h.own_lru u g hu hg
  · intro g hg hg'
    rcases (hmem g).mp hg' with rfl | hg'
    · exact hfree hg
    · exact h.free_lru g hg hg'
  · intro u g hu hg
    rcases (hmem g).mp hg with rfl | hg
    · exact hclears u hu
    · exact h.clears_lru u g hu hg
  · intro g hg
    rcases (hmem g).mp hg with rfl | hg
    · exact ⟨htable, hcount⟩
    · exact h.lru g hg

theorem Placed.unpinning (h : s.Placed) {isDirty : Bool} (hpc : s.pc t = .unpinning p f isDirty)
    (hp : s.pool.pageTable p = some f) (hun : ¬ s.Owned f)
    (hstep : s.resume t = some (events, s')) : s'.Placed := by
  have hmine : (s.pc t).latches = some f := hpc ▸ rfl
  obtain ⟨hid, hclears⟩ := (h.table_id p f hp).resolve_left hun
  simp only [resume, hpc] at hstep
  split at hstep
  · cases hstep
    refine h.moves_unowned (.set (hpc ▸ .unpinned p isDirty) _ _ _ _) hun ?_
      (h.alone (.inr hmine)) nofun (hpc ▸ rfl) rfl ?_ <;>
      simp [BufferPoolManager.setPage]
  · next hpos =>
    have hlru : f ∉ s.pool.replacer.list := fun hf => hpos (h.lru f hf).2
    have hm : Moves s _ t f .idle := .set (hpc ▸ .unpinned p isDirty)
      { s.pool.pages f with
        pinCount := (s.pool.pages f).pinCount - 1
        isDirty := if isDirty then isDirty else (s.pool.pages f).isDirty
        latched := false } s.pool.disk s.latch (s.pins.erase ⟨t, p, f⟩)
    have hplaced := h.moves_unowned hm hun (by simp [BufferPoolManager.setPage])
      (h.alone (.inr hmine)) nofun (hpc ▸ rfl) rfl fun hf => absurd hf hlru
    cases hstep
    by_cases hlast : (s.pool.pages f).pinCount - 1 = 0
    · rw [if_pos hlast]
      refine hplaced.evictable (f := f) (fun hown => hun (hown.imp fun u hu => (hm.owns hu).1))
        (fun u hu => hclears u (hm.clears hu)) hlru ?_ ?_ <;>
        simp [BufferPoolManager.setPage, hid, hp, hlast]
    · rw [if_neg hlast]
      exact hplaced

theorem Placed.deleting (h : s.Placed) (hpc : s.pc t = .deleting p f)
    (hstep : s.resume t = some (events, s')) : s'.Placed := by
  simp only [resume, hpc] at hstep
  cases hstep
  refine h.moves_clear (.set (hpc ▸ .clear p) _ _ _ _) (hpc ▸ rfl) (fun _ => ?_) rfl
  simpa [BufferPoolManager.setPage] using h.latch_held t f (hpc ▸ rfl)

theorem Placed.cleared (h : s.Placed) (hpc : s.pc t = .cleared p f)
    (hstep : s.resume t = some (events, s')) : s'.Placed := by
  simp only [resume, hpc] at hstep
  cases hstep
  exact h.moves_clear (.set (hpc ▸ .deleted p) _ _ _ _) (hpc ▸ rfl) nofun rfl

end Threads

end Rmdb
