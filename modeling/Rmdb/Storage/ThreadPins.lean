-- SUMMARY: The pins of several threads and the pin counts of the frames.
import Rmdb.Storage.ThreadFrames

/-!
# Pins under several threads

A page that a thread has pinned stays in its frame, and the pin count of a frame is the number of
pins that threads have on its page.
-/

namespace Rmdb

open History (Event handles kept)

namespace Threads

variable {κ : Type} [DecidableEq κ]

structure Held (s : Threads κ) (past : List (Event κ PageId PageData)) : Prop where
  count : ∀ p f, s.pool.pageTable p = some f →
    s.Owned f ∨ s.Lost f ∨ (s.pool.pages f).pinCount = s.pins.countP (·.page = p)
  hold : ∀ k ∈ s.pins,
    s.pool.pageTable k.page = some k.frame ∧ ¬ s.Owned k.frame ∧ ¬ s.Lost k.frame
  unpinning : ∀ t p f d, s.pc t = .unpinning p f d → ⟨t, p, f⟩ ∈ s.pins
  handles_eq : ∀ t p, handles t p past = s.pins.countP fun k => k.client = t ∧ k.page = p
  kept_univ : ∀ t p, handles t p past = 0 → kept t p past = Set.univ

theorem Held.start (poolSize : Nat) (fds : FrameId → Int) (disk : DiskManager) :
    (start poolSize fds disk : Threads κ).Held [] where
  count _ _ hp := nomatch hp
  hold _ hk := nomatch hk
  unpinning _ _ _ _ ht := nomatch ht
  handles_eq _ _ := rfl
  kept_univ _ _ _ := rfl

variable {s s' : Threads κ} {t : κ} {p : PageId} {f : FrameId}
variable {events past : List (Event κ PageId PageData)}

theorem Held.pinned (h : s.Held past) {k : Pin κ} (hk : k ∈ s.pins) :
    0 < (s.pool.pages k.frame).pinCount := by
  obtain ⟨htable, howned, hlost⟩ := h.hold k hk
  have hcount := ((h.count _ _ htable).resolve_left howned).resolve_left hlost
  rw [hcount]
  exact List.countP_pos_iff.mpr ⟨k, hk, by simp⟩

theorem Held.not_victim (hs : s.Placed) (h : s.Held past) {b : BufferPoolManager}
    (hv : Victim s.pool f b) {k : Pin κ} (hk : k ∈ s.pins) : k.frame ≠ f := by
  rintro rfl
  rcases hv.mem with hfree | hlru
  · exact hs.table_free _ _ (h.hold k hk).1 hfree
  · have := h.pinned hk
    have := (hs.lru _ hlru).2
    omega

theorem Held.countP_page (h : s.Held past) (hp : ∀ k ∈ s.pins, k.page ≠ p) :
    s.pins.countP (·.page = p) = 0 ∧ ∀ t, handles t p past = 0 := by
  refine ⟨List.countP_eq_zero.mpr fun k hk => by simpa using hp k hk, fun t => ?_⟩
  rw [h.handles_eq]
  exact List.countP_eq_zero.mpr fun k hk => by simp [hp k hk]

-- ---------------------------------------------------------------------------
-- Pins kept
-- ---------------------------------------------------------------------------

/-- The pins are as before when they fit the frame that the step has to do with. -/
theorem Held.elsewhere (h : s.Held past) (he : Elsewhere s s' f) (hpins : s'.pins = s.pins)
    (hcount : ∀ q, s'.pool.pageTable q = some f → s'.Owned f ∨ s'.Lost f ∨
      (s'.pool.pages f).pinCount = s.pins.countP (·.page = q))
    (hhold : ∀ k ∈ s.pins, k.frame = f →
      s'.pool.pageTable k.page = some f ∧ ¬ s'.Owned f ∧ ¬ s'.Lost f)
    (hunpinning : ∀ u q g d, s'.pc u = .unpinning q g d → ⟨u, q, g⟩ ∈ s.pins) :
    s'.Held past where
  count q g hq := by
    rw [hpins]
    by_cases hg : g = f
    · subst hg
      exact hcount q hq
    · rw [he.owned hg, he.lost hg, he.pages g hg]
      exact h.count q g ((he.table q g hg).mp hq)
  hold k hk := by
    rw [hpins] at hk
    by_cases hkf : k.frame = f
    · rw [hkf]
      exact hhold k hk hkf
    · rw [he.owned hkf, he.lost hkf, he.table _ _ hkf]
      exact h.hold k hk
  unpinning u q g d hu := hpins ▸ hunpinning u q g d hu
  handles_eq := hpins ▸ h.handles_eq
  kept_univ := h.kept_univ

/-- The thread that goes on is not in `unpin_page` now. -/
theorem Held.unpinning_update (h : s.Held past) {c : PoolPc}
    (hpcs : s'.pc = Function.update s.pc t c) (hc : ∀ q g d, c ≠ .unpinning q g d) :
    ∀ u q g d, s'.pc u = .unpinning q g d → ⟨u, q, g⟩ ∈ s.pins := by
  intro u q g d hu
  rw [hpcs] at hu
  by_cases hut : u = t
  · rw [hut, Function.update_self] at hu
    exact absurd hu (hc q g d)
  · rw [Function.update_of_ne hut] at hu
    exact h.unpinning u q g d hu

/-- Nobody has a pin on the frame that the step has to do with. -/
theorem Held.unpinned (h : s.Held past) {c : PoolPc} (he : Elsewhere s s' f)
    (hpins : s'.pins = s.pins) (hpcs : s'.pc = Function.update s.pc t c)
    (hc : ∀ q g d, c ≠ .unpinning q g d) (hpin : ∀ k ∈ s.pins, k.frame ≠ f)
    (hf : ∀ q, s'.pool.pageTable q = some f → s'.Owned f ∨ s'.Lost f) : s'.Held past :=
  h.elsewhere he hpins (fun q hq => (hf q hq).imp_right .inl)
    (fun k hk hkf => absurd hkf (hpin k hk)) (h.unpinning_update hpcs hc)

theorem Held.not_owned (h : s.Held past) (hf : s.Owned f) {k : Pin κ} (hk : k ∈ s.pins) :
    k.frame ≠ f := by
  rintro rfl
  exact (h.hold k hk).2.1 hf

theorem Held.not_cleared (hs : s.Placed) (h : s.Held past) (hf : (s.pc t).clears = some f)
    {k : Pin κ} (hk : k ∈ s.pins) : k.frame ≠ f := by
  rintro rfl
  obtain ⟨u, -, hu⟩ := hs.owned_of_clears hf (h.hold k hk).1
  exact h.not_owned ⟨u, hu⟩ hk rfl

/-- A thread goes on with a frame that it has taken. -/
theorem Held.moves_own (h : s.Held past) {c : PoolPc} (hm : Moves s s' t f c)
    (hown : c.owns = some f) (hpins : s'.pins = s.pins) : s'.Held past := by
  have hown' : (s'.pc t).owns = some f := hm.own ▸ hown
  refine h.unpinned hm.elsewhere hpins hm.pc ?_ (fun k hk => ?_) fun _ _ => .inl ⟨t, hown'⟩
  · rintro q g d rfl
    cases hown
  · exact h.not_owned ⟨t, (hm.owns hown').1⟩ hk

/-- A thread goes on with a frame that it clears. -/
theorem Held.moves_clear (hs : s.Placed) (h : s.Held past) {c : PoolPc}
    (hm : Moves s s' t f c) (hclears : (s.pc t).clears = some f)
    (hc : ∀ q g d, c ≠ .unpinning q g d) (hpins : s'.pins = s.pins) : s'.Held past := by
  exact h.unpinned hm.elsewhere hpins hm.pc hc (fun k hk => h.not_cleared hs hclears hk)
    fun q hq => .inl (hm.owned_of_clears hs hclears hq)

-- ---------------------------------------------------------------------------
-- Pins taken and given back
-- ---------------------------------------------------------------------------

/-- What a step that gives thread `t` a pin of page `p` in frame `f` does to the rest. -/
structure Pinned (s s' : Threads κ) (t : κ) (p : PageId) (f : FrameId) : Prop where
  pins : s'.pins = ⟨t, p, f⟩ :: s.pins
  table : s'.pool.pageTable p = some f
  others : ∀ q g, q ≠ p → (s'.pool.pageTable q = some g ↔ s.pool.pageTable q = some g)
  frame : ∀ q, q ≠ p → s.pool.pageTable q ≠ some f
  same : ∀ k ∈ s.pins, k.page = p → k.frame = f
  free : ¬ s'.Owned f ∧ ¬ s'.Lost f
  count : (s'.pool.pages f).pinCount = s.pins.countP (·.page = p) + 1
  owned : ∀ g, g ≠ f → (s'.Owned g ↔ s.Owned g)
  lost : ∀ g, g ≠ f → (s'.Lost g ↔ s.Lost g)
  counts : ∀ g, g ≠ f → (s'.pool.pages g).pinCount = (s.pool.pages g).pinCount
  unpinning : ∀ u q g d, s'.pc u = .unpinning q g d → s.pc u = .unpinning q g d

theorem Held.gain (h : s.Held past) (hp : Pinned s s' t p f)
    {e : Event κ PageId PageData} (he : (∃ data, e = .fetched t p (some data)) ∨ e = .created t p) :
    s'.Held (e :: past) where
  count q g hq := by
    rw [hp.pins, List.countP_cons]
    by_cases hqp : q = p
    · subst hqp
      obtain rfl := Option.some.inj (hq.symm.trans hp.table)
      exact .inr (.inr (by simp [hp.count]))
    · have hq' := (hp.others q g hqp).mp hq
      have hgf : g ≠ f := fun hgf => hp.frame q hqp (hgf ▸ hq')
      rw [hp.owned g hgf, hp.lost g hgf, hp.counts g hgf]
      simpa [Ne.symm hqp] using h.count q g hq'
  hold k hk := by
    rw [hp.pins, List.mem_cons] at hk
    rcases hk with rfl | hk
    · exact ⟨hp.table, hp.free⟩
    · obtain ⟨htable, howned, hlost⟩ := h.hold k hk
      by_cases hkp : k.page = p
      · rw [hkp, hp.same k hk hkp]
        exact ⟨hp.table, hp.free⟩
      · have hkf : k.frame ≠ f := fun hkf => hp.frame _ hkp (hkf ▸ htable)
        exact ⟨(hp.others _ _ hkp).mpr htable, (hp.owned _ hkf).not.mpr howned,
          (hp.lost _ hkf).not.mpr hlost⟩
  unpinning u q g d hu := by
    rw [hp.pins]
    exact List.mem_cons_of_mem _ (h.unpinning u q g d (hp.unpinning u q g d hu))
  handles_eq u q := by
    rw [hp.pins, List.countP_cons, ← h.handles_eq]
    rcases he with ⟨data, rfl⟩ | rfl <;> simp [handles]
  kept_univ u q hzero := by
    rcases he with ⟨data, rfl⟩ | rfl <;>
    · simp only [handles, Nat.add_eq_zero_iff] at hzero
      exact h.kept_univ u q hzero.1

/-- A thread gets the first pin of a page, in the frame that it has taken for it. -/
theorem Pinned.first (he : Elsewhere s s' f) (hpcs : s'.pc = Function.update s.pc t .idle)
    (hpins : s'.pins = ⟨t, p, f⟩ :: s.pins) (htable : s'.pool.pageTable p = some f)
    (hpin : ∀ k ∈ s.pins, k.page ≠ p)
    (hframe : ∀ q, q ≠ p → s.pool.pageTable q ≠ some f ∧ s'.pool.pageTable q ≠ some f)
    (hown : ∀ u, (s.pc u).owns = some f → u = t)
    (hfree : (s'.pool.pages f).latched = false) (hcount : (s'.pool.pages f).pinCount = 1) :
    Pinned s s' t p f where
  pins := hpins
  table := htable
  others q g hqp := by
    by_cases hg : g = f
    · subst hg
      exact iff_of_false (hframe q hqp).2 (hframe q hqp).1
    · exact he.table q g hg
  frame q hqp := (hframe q hqp).1
  same k hk hkp := absurd hkp (hpin k hk)
  free := by
    refine ⟨fun hown' => ?_, fun hlost => Bool.false_ne_true (hfree.symm.trans hlost.1)⟩
    obtain ⟨u, hu⟩ := hown'
    by_cases hut : u = t
    · rw [hpcs, hut, Function.update_self] at hu
      cases hu
    · rw [hpcs, Function.update_of_ne hut] at hu
      exact hut (hown u hu)
  count := by
    rw [hcount, List.countP_eq_zero.mpr fun k hk => by simpa using hpin k hk]
  owned _ := he.owned
  lost _ := he.lost
  counts g hg := by rw [he.pages g hg]
  unpinning u q g d hu := by
    by_cases hut : u = t
    · rw [hpcs, hut, Function.update_self] at hu
      cases hu
    · rwa [hpcs, Function.update_of_ne hut] at hu

/-- Thread `t` gives back its pin of page `p` in frame `f`. -/
theorem Held.lose (h : s.Held past) (he : Elsewhere s s' f) (hpcs : s'.pc = Function.update s.pc t .idle)
    (hk : ⟨t, p, f⟩ ∈ s.pins) (hpins : s'.pins = s.pins.erase ⟨t, p, f⟩)
    (htable : s'.pool.pageTable = s.pool.pageTable)
    (hpage : ∀ q, s.pool.pageTable q = some f → q = p)
    (hfree : ¬ s'.Owned f ∧ ¬ s'.Lost f)
    (hcount : (s'.pool.pages f).pinCount = s.pins.countP (·.page = p) - 1) (isDirty : Bool) :
    s'.Held (.released t p isDirty :: past) where
  count q g hq := by
    rw [htable] at hq
    rw [hpins, List.countP_erase]
    by_cases hg : g = f
    · subst hg
      obtain rfl := hpage q hq
      exact .inr (.inr (by simp [hk, hcount]))
    · have hqp : p ≠ q := by
        rintro rfl
        exact hg (Option.some.inj (hq.symm.trans (h.hold _ hk).1))
      rw [he.owned hg, he.lost hg, he.pages g hg]
      simpa [hqp] using h.count q g hq
  hold k hk' := by
    rw [hpins] at hk'
    obtain ⟨hkt, hun, hlost⟩ := h.hold k (List.mem_of_mem_erase hk')
    rw [htable]
    by_cases hkf : k.frame = f
    · exact ⟨hkt, hkf ▸ hfree⟩
    · exact ⟨hkt, (he.owned hkf).not.mpr hun, (he.lost hkf).not.mpr hlost⟩
  unpinning u q g d hu := by
    rw [hpcs] at hu
    by_cases hut : u = t
    · rw [hut, Function.update_self] at hu
      cases hu
    · rw [Function.update_of_ne hut] at hu
      rw [hpins]
      exact (List.mem_erase_of_ne (by simp [hut])).mpr (h.unpinning u q g d hu)
  handles_eq u q := by
    rw [hpins, List.countP_erase, ← h.handles_eq]
    simp [handles, hk]
  kept_univ u q hzero := by
    rw [handles] at hzero
    rw [kept]
    by_cases hut : t = u ∧ p = q
    · rw [if_pos hut] at hzero
      rw [if_pos ⟨hut.1, hut.2, Nat.sub_eq_zero_iff_le.mp hzero⟩]
    · rw [if_neg hut] at hzero
      rw [if_neg fun hut' => hut ⟨hut'.1, hut'.2.1⟩]
      exact h.kept_univ u q hzero

-- ---------------------------------------------------------------------------
-- Steps
-- ---------------------------------------------------------------------------

theorem Held.fetchPage (hs : s.Placed) (h : s.Held past) (hpc : s.pc t = .idle)
    (hlatch : s.latch = false) (hclear : s.Clear (.fetchPage p))
    (hstep : s.enter t (.fetchPage p) = some (events, s')) : s'.Held (events ++ past) := by
  simp only [enter] at hstep
  split at hstep
  · next f hp =>
    split at hstep
    · cases hstep
    next hfree =>
    have hfree : (s.pool.pages f).latched = false := by simpa using hfree
    cases hstep
    have hun := hs.unowned hlatch hp hfree
    have hid := ((hs.table_id p f hp).resolve_left hun).1
    have hlost : ¬ s.Lost f := fun hlost => Bool.false_ne_true (hfree.symm.trans hlost.1)
    have hcount := ((h.count p f hp).resolve_left hun).resolve_left hlost
    refine h.gain (t := t) (p := p) (f := f) ?_ (.inl ⟨_, rfl⟩)
    constructor
    case pins => rfl
    case table => exact hp
    case others => exact fun _ _ _ => .rfl
    case frame =>
      intro q hqp hq
      exact hqp (((hs.table_id q f hq).resolve_left hun).1.symm.trans hid)
    case same =>
      rintro k hk rfl
      exact Option.some.inj ((h.hold k hk).1.symm.trans hp)
    case free =>
      refine ⟨hun, fun hlost => ?_⟩
      simpa [BufferPoolManager.setPage, hfree] using hlost.1
    case count => simp [BufferPoolManager.setPage, hcount]
    case owned => exact fun _ _ => .rfl
    case lost =>
      intro g hg
      simp [Lost, BufferPoolManager.setPage, hg]
    case counts =>
      intro g hg
      simp [BufferPoolManager.setPage, hg]
    case unpinning => exact fun _ _ _ _ hu => hu
  · next hp =>
    split at hstep
    · cases hstep
      exact h
    next f b hv =>
    have hclaim := (hclear hp f b hv).1
    replace hv := hs.victim hv
    have hcut := hs.table_erase (hs.victim_unowned hv) hclaim
    cases hstep
    refine h.unpinned (.of_update rfl (hpc ▸ PoolPc.within_idle f) (PoolPc.within_of_frame rfl)
      (fun q g hg => ?_) fun g _ => ?_) rfl rfl (by simp) (fun k hk => h.not_victim hs hv hk)
      fun q _ => .inl ⟨t, ?_⟩
    · by_cases hq : q = p
      · simp [hq, hp, hg.symm]
      · simp [hq, hv.pages, hv.pageTable, hcut, hg]
    · exact congrFun hv.pages g
    · simp [goTo, PoolPc.owns]

theorem Held.newPage {fd : Int} (hs : s.Placed) (h : s.Held past) (hpc : s.pc t = .idle)
    (hclear : s.Clear (.newPage fd)) (hstep : s.enter t (.newPage fd) = some (events, s')) :
    s'.Held (events ++ past) := by
  simp only [enter] at hstep
  split at hstep
  · cases hstep
    exact h
  next f b hv =>
  have hclaim := hclear f b hv
  replace hv := hs.victim hv
  have hcut := hs.table_erase (hs.victim_unowned hv) hclaim
  cases hstep
  refine h.unpinned (.of_update rfl (hpc ▸ PoolPc.within_idle f) (PoolPc.within_of_frame rfl)
    (fun q g hg => ?_) fun g _ => ?_) rfl rfl (by simp) (fun k hk => h.not_victim hs hv hk)
    fun q _ => .inl ⟨t, ?_⟩
  · simp [hv.pages, hv.pageTable, hcut, hg]
  · exact congrFun hv.pages g
  · simp [goTo, PoolPc.owns]

theorem Held.unpinPage {isDirty : Bool} (h : s.Held past) (hpc : s.pc t = .idle)
    (hpin : ∃ f, ⟨t, p, f⟩ ∈ s.pins)
    (hstep : s.enter t (.unpinPage p isDirty) = some (events, s')) :
    s'.Held (events ++ past) := by
  simp only [enter] at hstep
  split at hstep
  · cases hstep
    exact h
  next f hp =>
  split at hstep
  · cases hstep
  cases hstep
  obtain ⟨g, hg⟩ := hpin
  obtain rfl : f = g := Option.some.inj (hp.symm.trans (h.hold _ hg).1)
  obtain ⟨-, hun, hlost⟩ := h.hold _ hg
  have hm : Moves s _ t f (.unpinning p f isDirty) := .set (hpc ▸ .unpin p isDirty)
    { s.pool.pages f with latched := true } s.pool.disk s.latch s.pins
  have hun' : ¬ Owned _ f := fun hown => hun (hown.imp fun u hu => (hm.owns hu).1)
  have hlost' : ¬ Lost _ f := fun hlost => hlost.2 t (by rw [hm.own]; rfl)
  refine h.elsewhere hm.elsewhere rfl (fun q hq => ?_) (fun k hk hkf => ?_) fun u q g d hu => ?_
  · have hcount := ((h.count q f hq).resolve_left hun).resolve_left hlost
    exact .inr (.inr (by simpa [BufferPoolManager.setPage] using hcount))
  · exact ⟨hkf ▸ (h.hold k hk).1, hun', hlost'⟩
  · by_cases hut : u = t
    · subst hut
      cases hm.own.symm.trans hu
      exact hg
    · exact h.unpinning u q g d ((hm.other hut).symm.trans hu)

theorem Held.deletePage (hs : s.Placed) (h : s.Held past) (hpc : s.pc t = .idle)
    (hlatch : s.latch = false) (hstep : s.enter t (.deletePage p) = some (events, s')) :
    s'.Held (events ++ past) := by
  simp only [enter] at hstep
  split at hstep
  · cases hstep
    exact h
  next f hp =>
  split_ifs at hstep with hfree hpin
  · cases hstep
    exact h
  cases hstep
  have hun := hs.unowned hlatch hp (by simpa using hfree)
  have hid := ((hs.table_id p f hp).resolve_left hun).1
  have hcut := hs.table_erase hun (.inr (hid ▸ hp))
  rw [hid] at hcut
  refine h.unpinned (f := f) (.of_update rfl (hpc ▸ PoolPc.within_idle f)
    (PoolPc.within_of_frame rfl) (fun q g hg => ?_) fun g hg => ?_) rfl rfl (by simp)
    (fun k hk hkf => hpin (hkf ▸ h.pinned hk)) fun q hq => absurd rfl ((hcut q f).mp hq).2
  · exact (hcut q g).trans (and_iff_left hg)
  · simp [BufferPoolManager.setPage, hg]

theorem Held.store (h : s.Held past) (hp : ⟨t, p, f⟩ ∈ s.pins) (data : PageData) :
    ({ s with pool := s.pool.setPage f { s.pool.pages f with data := data } } :
      Threads κ).Held (.stored t p data :: past) := by
  have hpages : ∀ g, (s.pool.setPage f { s.pool.pages f with data := data }).pages g =
      { s.pool.pages g with
        data := if g = f then data else (s.pool.pages g).data } := by
    intro g
    by_cases hg : g = f <;> simp [BufferPoolManager.setPage, hg]
  constructor
  case count =>
    intro q g hq
    rw [Lost, hpages]
    exact h.count q g hq
  case hold =>
    intro k hk
    rw [Lost, hpages]
    exact h.hold k hk
  case unpinning => exact h.unpinning
  case handles_eq => exact h.handles_eq
  case kept_univ =>
    intro u q hzero
    replace hzero : handles u q past = 0 := hzero
    rw [kept]
    split_ifs with hq hu
    · -- The thread itself has a pin.
      subst hq hu
      rw [h.handles_eq] at hzero
      exact absurd hzero (List.countP_pos_iff.mpr ⟨_, hp, by simp⟩).ne'
    · rw [h.kept_univ u q hzero, Set.insert_eq_of_mem (Set.mem_univ _)]
    · exact h.kept_univ u q hzero

theorem Held.waiting (h : s.Held past) (hpc : s.pc t = .waiting p f)
    (hstep : s.resume t = some (events, s')) : s'.Held (events ++ past) := by
  simp only [resume, hpc] at hstep
  split at hstep
  · cases hstep
  cases hstep
  exact h.moves_own (.set (hpc ▸ .evict p) _ _ _ _) rfl rfl

theorem Held.evicting (h : s.Held past) (hpc : s.pc t = .evicting p f)
    (hstep : s.resume t = some (events, s')) : s'.Held (events ++ past) := by
  simp only [resume, hpc] at hstep
  cases hstep
  exact h.moves_own (.set (hpc ▸ .read p) _ _ _ _) rfl rfl

/-- A read that throws gives nobody a pin. -/
theorem Held.threw (h : s.Held past) : s.Held (.fetched t p none :: past) :=
  ⟨h.count, h.hold, h.unpinning, h.handles_eq, h.kept_univ⟩

theorem Held.reading (hs : s.Placed) (h : s.Held past) (hpc : s.pc t = .reading p f)
    (hstep : s.resume t = some (events, s')) : s'.Held (events ++ past) := by
  have howns : (s.pc t).owns = some f := hpc ▸ rfl
  have hmine : (s.pc t).latches = some f := hpc ▸ rfl
  have hp := hs.loads_table t p f (hpc ▸ rfl) howns
  simp only [resume, hpc] at hstep
  split at hstep
  · next data hdata =>
    cases hstep
    have hm : Moves s _ t f .idle := .set (hpc ▸ .fetched p)
      ⟨p, data, (s.pool.pages f).isDirty, 1, false⟩ s.pool.disk s.latch (⟨t, p, f⟩ :: s.pins)
    refine h.gain (t := t) (p := p) (f := f) ?_ (.inl ⟨_, rfl⟩)
    refine .first hm.elsewhere rfl rfl hp ?_ (fun q hqp => ?_) (fun u hu => ?_) ?_ ?_
    · rintro k hk rfl
      exact h.not_owned ⟨t, howns⟩ hk (Option.some.inj ((h.hold k hk).1.symm.trans hp))
    · refine (and_self_iff.mpr fun hq => hqp ?_)
      have hloads := hs.table_own t q f hq howns
      rw [hpc] at hloads
      exact (Option.some.inj hloads).symm
    · exact hs.own_one u t f hu howns
    · simp [BufferPoolManager.setPage]
    · simp [BufferPoolManager.setPage]
  · cases hstep
    have hm : Moves s _ t f .idle := .set (hpc ▸ .fetched p)
      ⟨p, PageData.zero, (s.pool.pages f).isDirty, 1, (s.pool.pages f).latched⟩ s.pool.disk s.latch s.pins
    refine (h.unpinned hm.elsewhere rfl rfl (by simp)
      (fun k hk => h.not_owned ⟨t, howns⟩ hk) fun q _ => .inr ⟨?_, fun u hu => ?_⟩).threw
    · simpa [BufferPoolManager.setPage] using hs.latch_held t f hmine
    · by_cases hut : u = t
      · simp [hut, PoolPc.latches] at hu
      · exact hs.alone (.inr hmine) u hut (by simpa [goTo, hut] using hu)

theorem Held.taken (h : s.Held past) {fd : Int} (hpc : s.pc t = .taken fd f)
    (hstep : s.resume t = some (events, s')) : s'.Held (events ++ past) := by
  simp only [resume, hpc] at hstep
  cases hstep
  exact h.moves_own (.keep (hpc ▸ .allocate fd _) _) rfl rfl

theorem Held.allocated (h : s.Held past) (hpc : s.pc t = .allocated p f)
    (hstep : s.resume t = some (events, s')) : s'.Held (events ++ past) := by
  simp only [resume, hpc] at hstep
  split at hstep
  · cases hstep
  cases hstep
  exact h.moves_own (.set (hpc ▸ .write p) _ _ _ _) rfl rfl

theorem Held.written (h : s.Held past) (hpc : s.pc t = .written p f)
    (hstep : s.resume t = some (events, s')) : s'.Held (events ++ past) := by
  simp only [resume, hpc] at hstep
  cases hstep
  exact h.moves_own (.set (hpc ▸ .fill p) _ _ _ _) rfl rfl

theorem Held.filled (hs : s.Placed) (h : s.Held past) (hpc : s.pc t = .filled p f)
    (hid : (s.pool.pages f).id = p) (hp : s.pool.pageTable p = none)
    (hcount : (s.pool.pages f).pinCount = 1) (hfree : (s.pool.pages f).latched = false)
    (hstep : s.resume t = some (events, s')) : s'.Held (events ++ past) := by
  have howns : (s.pc t).owns = some f := hpc ▸ rfl
  simp only [resume, hpc, hid] at hstep
  split at hstep
  · cases hstep
  cases hstep
  refine h.gain (t := t) (p := p) (f := f) ?_ (.inr rfl)
  have he : Elsewhere s { s.goTo t .idle with
      pool := { s.pool with pageTable := Function.update s.pool.pageTable p (some f) }
      pins := ⟨t, p, f⟩ :: s.pins } f := by
    refine .of_update rfl (hpc ▸ PoolPc.within_of_frame rfl) (PoolPc.within_idle f)
      (fun q g hg => ?_) fun _ _ => rfl
    by_cases hq : q = p
    · simp [hq, hp, hg.symm]
    · simp [hq]
  refine .first he rfl rfl (Function.update_self ..) ?_ (fun q hqp => ?_)
    (fun u hu => hs.own_one u t f hu howns) hfree hcount
  · rintro k hk rfl
    cases hp.symm.trans (h.hold k hk).1
  · have hq : s.pool.pageTable q ≠ some f := by
      intro hq
      have hloads := hs.table_own t q f hq howns
      rw [hpc] at hloads
      cases hloads
    exact ⟨hq, by simpa [hqp] using hq⟩

theorem Held.unpinStep {isDirty : Bool} (hs : s.Placed) (h : s.Held past)
    (hpc : s.pc t = .unpinning p f isDirty) (hstep : s.resume t = some (events, s')) :
    s'.Held (events ++ past) := by
  have hk := h.unpinning t p f isDirty hpc
  obtain ⟨hp, hun, hlost⟩ := h.hold _ hk
  have hid := ((hs.table_id p f hp).resolve_left hun).1
  simp only [resume, hpc] at hstep
  rw [if_neg (Nat.pos_iff_ne_zero.mp (h.pinned hk))] at hstep
  cases hstep
  have hm : Moves s _ t f .idle := .set (hpc ▸ .unpinned p isDirty)
    { s.pool.pages f with
      pinCount := (s.pool.pages f).pinCount - 1
      isDirty := if isDirty then isDirty else (s.pool.pages f).isDirty
      latched := false } s.pool.disk s.latch s.pins
  have he := hm.elsewhere
  refine h.lose (t := t) (p := p) (f := f) ?_ ?_ hk ?_ ?_ (fun q hq => ?_)
    ⟨fun hown => ?_, fun hlost => ?_⟩ ?_ isDirty
  · exact ⟨he.pcs, he.table, he.pages⟩
  · rfl
  · rfl
  · rfl
  · exact ((hs.table_id q f hq).resolve_left hun).1.symm.trans hid
  · exact hun (hown.imp fun u hu => (hm.owns hu).1)
  · simpa [BufferPoolManager.setPage] using hlost.1
  · rw [← ((h.count p f hp).resolve_left hun).resolve_left hlost]
    simp [BufferPoolManager.setPage]

theorem Held.deleting (hs : s.Placed) (h : s.Held past) (hpc : s.pc t = .deleting p f)
    (hstep : s.resume t = some (events, s')) : s'.Held (events ++ past) := by
  simp only [resume, hpc] at hstep
  cases hstep
  exact h.moves_clear hs (.set (hpc ▸ .clear p) _ _ _ _) (hpc ▸ rfl) (by simp) rfl

theorem Held.cleared (hs : s.Placed) (h : s.Held past) (hpc : s.pc t = .cleared p f)
    (hstep : s.resume t = some (events, s')) : s'.Held (events ++ past) := by
  simp only [resume, hpc] at hstep
  cases hstep
  exact h.moves_clear hs (.set (hpc ▸ .deleted p) _ _ _ _) (hpc ▸ rfl) (by simp) rfl

end Threads

end Rmdb
