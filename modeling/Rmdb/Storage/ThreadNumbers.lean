-- SUMMARY: Page numbers while several threads use the buffer pool.
import Rmdb.Storage.ThreadPins

/-!
# Page numbers under several threads

`new_page` enters its page in the page table in a section of `latch_` of its own, long after
`allocate_page` has counted it. Until then no frame but its own has the page.
-/

namespace Rmdb

open History (Event fresh)

namespace Threads

variable {κ : Type} [DecidableEq κ]

/-- A page that `new_page` is about to enter is nowhere else. -/
structure Counted (s : Threads κ) (past : List (Event κ PageId PageData)) : Prop where
  ids : ∀ f, (s.pool.pages f).id.pageNo < s.pool.disk.fd2pageno (s.pool.pages f).id.fd
  table_lt : ∀ p f, s.pool.pageTable p = some f → p.pageNo < s.pool.disk.fd2pageno p.fd
  fresh_univ : ∀ p, (s.pool.disk.fd2pageno p.fd : Int) ≤ p.pageNo → fresh p past = Set.univ
  making : ∀ t p, (s.pc t).making = some p → 0 ≤ p.pageNo ∧
    p.pageNo < s.pool.disk.fd2pageno p.fd ∧ s.pool.pageTable p = none ∧ fresh p past = Set.univ
  making_id : ∀ t p f, (s.pc t).making = some p → (s.pool.pages f).id = p → s.pc t = .filled p f
  making_one : ∀ t u p, (s.pc t).making = some p → (s.pc u).making = some p → t = u
  filled : ∀ t p f, s.pc t = .filled p f → (s.pool.pages f).id = p ∧
    (s.pool.pages f).pinCount = 1 ∧ (s.pool.pages f).latched = false ∧
    (s.pool.pages f).isDirty = false

theorem Counted.start (poolSize : Nat) (fds : FrameId → Int) (disk : DiskManager) :
    (start poolSize fds disk : Threads κ).Counted [] where
  ids f := by
    show (-1 : Int) < (disk.fd2pageno (fds f) : Int)
    omega
  table_lt _ _ hp := nomatch hp
  fresh_univ _ _ := rfl
  making _ _ ht := nomatch ht
  making_id _ _ _ ht := nomatch ht
  making_one _ _ _ ht := nomatch ht
  filled _ _ _ ht := nomatch ht

variable {s s' : Threads κ} {t : κ} {p : PageId} {f : FrameId}
variable {events past : List (Event κ PageId PageData)}

-- ---------------------------------------------------------------------------
-- What keeps the numbers
-- ---------------------------------------------------------------------------

theorem Counted.not_making (h : s.Counted past) (hp : s.pool.pageTable p = some f) :
    p.pageNo < s.pool.disk.fd2pageno p.fd ∧ ∀ u, (s.pc u).making ≠ some p := by
  refine ⟨h.table_lt p f hp, fun u hu => ?_⟩
  cases hp.symm.trans (h.making u p hu).2.2.1

/-- Thread `t` goes on to `c`, which makes no other page, with a frame that is not yet a new
page's. The page of the frame stays, or is one that nobody else is about to make. -/
theorem Counted.keep (h : s.Counted past) {c : PoolPc} {past' : List (Event κ PageId PageData)}
    (hpcs : s'.pc = Function.update s.pc t c) (hmaking : c.making = (s.pc t).making)
    (hidle : ∀ q g, s.pc t ≠ .filled q g) (hother : ∀ u q, s.pc u ≠ .filled q f)
    (hc : ∀ q g, c = .filled q g → g = f ∧ s'.pool.pages f = ⟨q, PageData.zero, false, 1, false⟩)
    (hpages : ∀ g, g ≠ f → s'.pool.pages g = s.pool.pages g)
    (hid : (s'.pool.pages f).id = (s.pool.pages f).id ∨
      (s'.pool.pages f).id.pageNo < s.pool.disk.fd2pageno (s'.pool.pages f).id.fd ∧
        ∀ u, (s.pc u).making = some (s'.pool.pages f).id →
          u = t ∧ c = .filled (s'.pool.pages f).id f)
    (hcounter : s'.pool.disk.fd2pageno = s.pool.disk.fd2pageno)
    (htable : ∀ q g, s'.pool.pageTable q = some g →
      q.pageNo < s.pool.disk.fd2pageno q.fd ∧ ∀ u, (s.pc u).making ≠ some q)
    (hfresh : ∀ q, s.pool.pageTable q = none → fresh q past' = fresh q past) :
    s'.Counted past' := by
  have hpct : s'.pc t = c := by rw [hpcs, Function.update_self]
  have hpcu : ∀ u, u ≠ t → s'.pc u = s.pc u := fun u hu => by rw [hpcs, Function.update_of_ne hu]
  have hmakes : ∀ u, (s'.pc u).making = (s.pc u).making := by
    intro u
    by_cases hut : u = t
    · rw [hut, hpct, hmaking]
    · rw [hpcu u hut]
  constructor
  case ids =>
    intro g
    rw [hcounter]
    by_cases hg : g = f
    · subst hg
      rcases hid with hid | hid
      · rw [hid]
        exact h.ids g
      · exact hid.1
    · rw [hpages g hg]
      exact h.ids g
  case table_lt =>
    intro q g hq
    rw [hcounter]
    exact (htable q g hq).1
  case fresh_univ =>
    intro q hq
    rw [hcounter] at hq
    have hnone : s.pool.pageTable q = none :=
      Option.eq_none_iff_forall_ne_some.mpr fun g hg => absurd (h.table_lt q g hg) (not_lt.mpr hq)
    rw [hfresh q hnone]
    exact h.fresh_univ q hq
  case making =>
    intro u q hu
    rw [hmakes] at hu
    obtain ⟨hno, hlt, hnone, huniv⟩ := h.making u q hu
    rw [hcounter, hfresh q hnone]
    exact ⟨hno, hlt, Option.eq_none_iff_forall_ne_some.mpr fun g hg => (htable q g hg).2 u hu, huniv⟩
  case making_id =>
    intro u q g hu hg
    rw [hmakes] at hu
    by_cases hgf : g = f
    · subst hgf
      rcases hid with hid | ⟨-, hid⟩
      · exact absurd (h.making_id u q g hu (hid.symm.trans hg)) (hother u q)
      · obtain ⟨rfl, hcf⟩ := hid u (hg.symm ▸ hu)
        rw [hpct, hcf, hg]
    · rw [hpages g hgf] at hg
      have hold := h.making_id u q g hu hg
      have hut : u ≠ t := by
        rintro rfl
        exact hidle q g hold
      rw [hpcu u hut, hold]
  case making_one =>
    intro u v q hu hv
    rw [hmakes] at hu hv
    exact h.making_one u v q hu hv
  case filled =>
    intro u q g hu
    by_cases hut : u = t
    · rw [hut, hpct] at hu
      obtain ⟨rfl, hpage⟩ := hc q g hu
      rw [hpage]
      exact ⟨rfl, rfl, rfl, rfl⟩
    · rw [hpcu u hut] at hu
      have hg : g ≠ f := by
        rintro rfl
        exact hother u q hu
      rw [hpages g hg]
      exact h.filled u q g hu

/-- A thread goes on with a frame, and the page table stays. -/
theorem Counted.moves (h : s.Counted past) {c : PoolPc}
    {past' : List (Event κ PageId PageData)} (hm : Moves s s' t f c)
    (hmaking : c.making = (s.pc t).making) (hother : ∀ u q, s.pc u ≠ .filled q f)
    (hc : ∀ q g, c = .filled q g → g = f ∧ s'.pool.pages f = ⟨q, PageData.zero, false, 1, false⟩)
    (hid : (s'.pool.pages f).id = (s.pool.pages f).id ∨
      (s'.pool.pages f).id.pageNo < s.pool.disk.fd2pageno (s'.pool.pages f).id.fd ∧
        ∀ u, (s.pc u).making = some (s'.pool.pages f).id →
          u = t ∧ c = .filled (s'.pool.pages f).id f)
    (hcounter : s'.pool.disk.fd2pageno = s.pool.disk.fd2pageno)
    (hfresh : ∀ q, s.pool.pageTable q = none → fresh q past' = fresh q past) :
    s'.Counted past' :=
  h.keep hm.pc hmaking (fun _ _ => hm.works.start_ne_filled) hother hc hm.pages hid hcounter
    (fun _ _ hq => h.not_making (hm.pageTable ▸ hq)) hfresh

omit [DecidableEq κ] in
/-- A frame that nobody has taken is not a new page's. -/
theorem not_filled (hun : ¬ s.Owned f) (u : κ) (q : PageId) : s.pc u ≠ .filled q f :=
  fun hu => hun ⟨u, hu ▸ rfl⟩

omit [DecidableEq κ] in
/-- Nor is the frame of a thread that has not filled it. -/
theorem Placed.not_filled_own (hs : s.Placed) (hown : (s.pc t).owns = some f)
    (ht : s.pc t ≠ .filled p f) (u : κ) : s.pc u ≠ .filled p f := by
  intro hu
  obtain rfl := hs.own_one u t f (hu ▸ rfl) hown
  exact ht hu

omit [DecidableEq κ] in
/-- Nor is a frame that is cleared. -/
theorem Placed.not_filled_clears (hs : s.Placed) (hclears : (s.pc t).clears = some f)
    (u : κ) (q : PageId) : s.pc u ≠ .filled q f := by
  intro hu
  have hearly := hs.clears_own t u f hclears (hu ▸ rfl)
  rw [hu] at hearly
  cases hearly

-- ---------------------------------------------------------------------------
-- Steps
-- ---------------------------------------------------------------------------

theorem Counted.fetchPage (hs : s.Placed) (h : s.Counted past) (hpc : s.pc t = .idle)
    (hlatch : s.latch = false) (hproper : s.Proper t (.fetchPage p))
    (hclear : s.Clear (.fetchPage p)) (hstep : s.enter t (.fetchPage p) = some (events, s')) :
    s'.Counted (events ++ past) := by
  simp only [enter] at hstep
  split at hstep
  · next f hp =>
    split at hstep
    · cases hstep
    next hfree =>
    cases hstep
    have hun := hs.unowned hlatch hp (by simpa using hfree)
    refine h.keep (t := t) (f := f) (c := .idle) ?_ (hpc ▸ rfl) (by simp [hpc]) (not_filled hun)
      (by simp) (fun g hg => ?_) (.inl ?_) rfl (fun q g hq => h.not_making hq) fun _ _ => rfl
    · exact (Function.update_eq_self_iff.mpr hpc.symm).symm
    · simp [BufferPoolManager.setPage, hg]
    · simp [BufferPoolManager.setPage]
  · next hp =>
    split at hstep
    · cases hstep
      exact h
    next f b hv =>
    have hclaim := (hclear hp f b hv).1
    replace hv := hs.victim hv
    have hun := hs.victim_unowned hv
    have hcut := hs.table_erase hun hclaim
    cases hstep
    refine h.keep (t := t) (f := f) (c := .waiting p f) rfl (hpc ▸ rfl) (by simp [hpc])
      (not_filled hun) (by simp) (fun g _ => ?_) (.inl ?_) ?_ (fun q g hq => ?_) fun _ _ => rfl
    · exact congrFun hv.pages g
    · exact congrArg Page.id (congrFun hv.pages f)
    · exact congrArg DiskManager.fd2pageno hv.disk
    · by_cases hqp : q = p
      · exact hqp ▸ hproper
      · simp only [hv.pages, hv.pageTable, Function.update_of_ne hqp] at hq
        exact h.not_making ((hcut q g).mp hq).1

theorem Counted.newPage {fd : Int} (hs : s.Placed) (h : s.Counted past) (hpc : s.pc t = .idle)
    (hclear : s.Clear (.newPage fd)) (hstep : s.enter t (.newPage fd) = some (events, s')) :
    s'.Counted (events ++ past) := by
  simp only [enter] at hstep
  split at hstep
  · cases hstep
    exact h
  next f b hv =>
  have hclaim := hclear f b hv
  replace hv := hs.victim hv
  have hun := hs.victim_unowned hv
  have hcut := hs.table_erase hun hclaim
  cases hstep
  refine h.keep (t := t) (f := f) (c := .taken fd f) rfl (hpc ▸ rfl) (by simp [hpc])
    (not_filled hun) (by simp) (fun g _ => ?_) (.inl ?_) ?_ (fun q g hq => ?_) fun _ _ => rfl
  · exact congrFun hv.pages g
  · exact congrArg Page.id (congrFun hv.pages f)
  · exact congrArg DiskManager.fd2pageno hv.disk
  · simp only [hv.pages, hv.pageTable] at hq
    exact h.not_making ((hcut q g).mp hq).1

theorem Counted.unpinPage {isDirty : Bool} (hs : s.Placed) (h : s.Counted past)
    (hpc : s.pc t = .idle) (hlatch : s.latch = false)
    (hstep : s.enter t (.unpinPage p isDirty) = some (events, s')) :
    s'.Counted (events ++ past) := by
  simp only [enter] at hstep
  split at hstep
  · cases hstep
    exact h
  next f hp =>
  split at hstep
  · cases hstep
  next hfree =>
  cases hstep
  have hun := hs.unowned hlatch hp (by simpa using hfree)
  refine h.moves (.set (hpc ▸ .unpin p isDirty) _ _ _ _) (hpc ▸ rfl) (not_filled hun) (by simp)
    (.inl ?_) rfl fun _ _ => rfl
  simp [BufferPoolManager.setPage]

theorem Counted.deletePage (hs : s.Placed) (h : s.Counted past) (hpc : s.pc t = .idle)
    (hlatch : s.latch = false) (hstep : s.enter t (.deletePage p) = some (events, s')) :
    s'.Counted (events ++ past) := by
  simp only [enter] at hstep
  split at hstep
  · cases hstep
    exact h
  next f hp =>
  split_ifs at hstep with hfree hpin
  · cases hstep
    exact h
  cases hstep
  have hun := hs.unowned hlatch hp (by simpa using hfree)
  refine h.keep (t := t) (f := f) (c := .deleting p f) rfl (hpc ▸ rfl) (by simp [hpc])
    (not_filled hun) (by simp) (fun g hg => ?_) (.inl ?_) rfl (fun q g hq => ?_) fun _ _ => rfl
  · simp [BufferPoolManager.setPage, hg]
  · simp [BufferPoolManager.setPage]
  · by_cases hqp : q = p
    · simp [hqp] at hq
    · simp only [Function.update_of_ne hqp] at hq
      exact h.not_making hq

theorem Counted.store (hs : s.Held past) (h : s.Counted past) (hp : ⟨t, p, f⟩ ∈ s.pins)
    (data : PageData) :
    ({ s with pool := s.pool.setPage f { s.pool.pages f with data := data } } :
      Threads κ).Counted (.stored t p data :: past) := by
  obtain ⟨htable, hun, -⟩ := hs.hold _ hp
  have hpages : ∀ g, (s.pool.setPage f { s.pool.pages f with data := data }).pages g =
      { s.pool.pages g with data := if g = f then data else (s.pool.pages g).data } := by
    intro g
    by_cases hg : g = f <;> simp [BufferPoolManager.setPage, hg]
  have hfresh : ∀ q, fresh q past = Set.univ → fresh q (.stored t p data :: past) = Set.univ := by
    intro q hq
    rw [fresh, hq, Set.insert_eq_of_mem (Set.mem_univ _), ite_self]
  constructor
  case ids =>
    intro g
    rw [hpages]
    exact h.ids g
  case table_lt => exact h.table_lt
  case fresh_univ => exact fun q hq => hfresh q (h.fresh_univ q hq)
  case making =>
    intro u q hu
    obtain ⟨hno, hlt, hnone, huniv⟩ := h.making u q hu
    exact ⟨hno, hlt, hnone, hfresh q huniv⟩
  case making_id =>
    intro u q g hu hg
    rw [hpages] at hg
    exact h.making_id u q g hu hg
  case making_one => exact h.making_one
  case filled =>
    intro u q g hu
    rw [hpages]
    exact h.filled u q g hu

theorem Counted.waiting (hs : s.Placed) (h : s.Counted past) (hpc : s.pc t = .waiting p f)
    (hstep : s.resume t = some (events, s')) : s'.Counted (events ++ past) := by
  have hother := fun u q => hs.not_filled_own (t := t) (f := f) (p := q) (hpc ▸ rfl) (by simp [hpc]) u
  simp only [resume, hpc] at hstep
  split at hstep
  · cases hstep
  cases hstep
  refine h.moves (.set (hpc ▸ .evict p) _ _ _ _) (hpc ▸ rfl) hother (by simp) (.inl ?_) rfl
    fun _ _ => rfl
  simp [BufferPoolManager.setPage]

theorem Counted.evicting (hs : s.Placed) (h : s.Counted past) (hpc : s.pc t = .evicting p f)
    (hstep : s.resume t = some (events, s')) : s'.Counted (events ++ past) := by
  have hother := fun u q => hs.not_filled_own (t := t) (f := f) (p := q) (hpc ▸ rfl) (by simp [hpc]) u
  simp only [resume, hpc] at hstep
  cases hstep
  refine h.moves (.set (hpc ▸ .read p) _ _ _ _) (hpc ▸ rfl) hother (by simp) (.inl ?_)
    (PoolRun.fd2pageno_writeBack _ _) fun _ _ => rfl
  simp [BufferPoolManager.setPage]

theorem Counted.reading (hs : s.Placed) (h : s.Counted past) (hpc : s.pc t = .reading p f)
    (hstep : s.resume t = some (events, s')) : s'.Counted (events ++ past) := by
  have hother := fun u q => hs.not_filled_own (t := t) (f := f) (p := q) (hpc ▸ rfl) (by simp [hpc]) u
  obtain ⟨hlt, hnone⟩ := h.not_making (hs.loads_table t p f (hpc ▸ rfl) (hpc ▸ rfl))
  simp only [resume, hpc] at hstep
  split at hstep
  all_goals
    cases hstep
    refine h.moves (.set (hpc ▸ .fetched p) _ _ _ _) (hpc ▸ rfl) hother (by simp) (.inr ?_) rfl
      fun _ _ => rfl
    simp [BufferPoolManager.setPage, hlt, hnone]

theorem Counted.taken (h : s.Counted past) {fd : Int} (hpc : s.pc t = .taken fd f)
    (hstep : s.resume t = some (events, s')) : s'.Counted (events ++ past) := by
  simp only [resume, hpc] at hstep
  have hnew : s.pool.pageTable ⟨fd, s.pool.disk.fd2pageno fd⟩ = none := by
    cases hp : s.pool.pageTable ⟨fd, s.pool.disk.fd2pageno fd⟩ with
    | none => rfl
    | some g => exact absurd (h.table_lt _ g hp) (lt_irrefl _)
  cases hstep
  cases h
  constructor <;>
    simp only [goTo, Function.update_apply, DiskManager.allocatePage] at * <;>
    grind [PoolPc.owns, PoolPc.loads, PoolPc.making]

theorem Counted.allocated (hs : s.Placed) (h : s.Counted past) (hpc : s.pc t = .allocated p f)
    (hstep : s.resume t = some (events, s')) : s'.Counted (events ++ past) := by
  have hother := fun u q => hs.not_filled_own (t := t) (f := f) (p := q) (hpc ▸ rfl) (by simp [hpc]) u
  simp only [resume, hpc] at hstep
  split at hstep
  · cases hstep
  cases hstep
  refine h.moves (.set (hpc ▸ .write p) _ _ _ _) (hpc ▸ rfl) hother (by simp) (.inl ?_)
    (PoolRun.fd2pageno_writeBack _ _) fun _ _ => rfl
  simp [BufferPoolManager.setPage]

theorem Counted.written (hs : s.Placed) (h : s.Counted past) (hpc : s.pc t = .written p f)
    (hstep : s.resume t = some (events, s')) : s'.Counted (events ++ past) := by
  have hother := fun u q => hs.not_filled_own (t := t) (f := f) (p := q) (hpc ▸ rfl) (by simp [hpc]) u
  have hmaking : (s.pc t).making = some p := hpc ▸ rfl
  obtain ⟨-, hlt, -⟩ := h.making t p hmaking
  simp only [resume, hpc] at hstep
  cases hstep
  refine h.moves (.set (hpc ▸ .fill p) _ _ _ _) (hpc ▸ rfl) hother (fun q g hc => ?_) (.inr ?_) rfl
    fun _ _ => rfl
  · cases hc
    simp [BufferPoolManager.setPage]
  · simpa [BufferPoolManager.setPage, hlt] using fun u hu => h.making_one u t p hu hmaking

theorem Counted.enterNew (h : s.Counted past) (hpc : s.pc t = .filled p f)
    (hstep : s.resume t = some (events, s')) : s'.Counted (events ++ past) := by
  simp only [resume, hpc] at hstep
  split at hstep
  · cases hstep
  cases hstep
  cases h
  constructor <;>
    simp only [goTo, Function.update_apply, List.cons_append, List.nil_append, fresh] at * <;>
    grind [PoolPc.owns, PoolPc.loads, PoolPc.making]

theorem Counted.unpinning {isDirty : Bool} (hh : s.Held past) (h : s.Counted past)
    (hpc : s.pc t = .unpinning p f isDirty)
    (hstep : s.resume t = some (events, s')) : s'.Counted (events ++ past) := by
  have hk := hh.unpinning t p f isDirty hpc
  obtain ⟨hp, hun, -⟩ := hh.hold _ hk
  simp only [resume, hpc] at hstep
  rw [if_neg (Nat.pos_iff_ne_zero.mp (hh.pinned hk))] at hstep
  cases hstep
  refine h.keep (t := t) (f := f) (c := .idle) rfl (hpc ▸ rfl) (by simp [hpc]) (not_filled hun) (by simp)
    (fun g hg => ?_) (.inl ?_) rfl (fun q g hq => h.not_making hq) fun q hq => ?_
  · simp [BufferPoolManager.setPage, hg]
  · simp [BufferPoolManager.setPage]
  · have hqp : p ≠ q := by
      rintro rfl
      cases hq.symm.trans hp
    simp [fresh, hqp]

theorem Counted.deleting (hs : s.Placed) (h : s.Counted past) (hpc : s.pc t = .deleting p f)
    (hstep : s.resume t = some (events, s')) : s'.Counted (events ++ past) := by
  have hother := hs.not_filled_clears (t := t) (f := f) (hpc ▸ rfl)
  simp only [resume, hpc] at hstep
  cases hstep
  refine h.moves (.set (hpc ▸ .clear p) _ _ _ _) (hpc ▸ rfl) hother (by simp) (.inl ?_)
    (PoolRun.fd2pageno_writeBack _ _) fun _ _ => rfl
  simp [BufferPoolManager.setPage]

theorem Counted.cleared (hs : s.Placed) (h : s.Counted past) (hpc : s.pc t = .cleared p f)
    (hstep : s.resume t = some (events, s')) : s'.Counted (events ++ past) := by
  have hother := hs.not_filled_clears (t := t) (f := f) (hpc ▸ rfl)
  simp only [resume, hpc] at hstep
  cases hstep
  refine h.moves (.set (hpc ▸ .deleted p) _ _ _ _) (hpc ▸ rfl) hother (by simp) (.inr ⟨?_, fun u hu => ?_⟩)
    rfl fun _ _ => rfl
  · simp only [BufferPoolManager.setPage, Function.update_self, noPage]
    omega
  · -- A page that is made has a number.
    have hno := (h.making u _ hu).1
    simp [BufferPoolManager.setPage, noPage] at hno

end Threads

end Rmdb
