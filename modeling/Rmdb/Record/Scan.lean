-- SUMMARY: Scans of a record file, closing and opening it, and the finite map that the file implements.
import Rmdb.Record.FileHandle

/-!
# The record file as a finite map

`RmScan` goes through the pages of a file and, on each page, through its slots. Between two
calls the file may be closed, which writes its header to page 0, and opened again.

`RmRun` is a file together with the map from rids to records that its callers have in mind.
The last theorem says what every call answers in such a state.
-/

namespace Rmdb

-- ---------------------------------------------------------------------------
-- Closing and opening
-- ---------------------------------------------------------------------------

/-- What is on disk while the file is closed: `RmFileHdr` on page 0, and the pages. -/
structure RmFile where
  recordSize : Nat
  numPages : Int
  numRecordsPerPage : Int
  firstFreePageNo : PageNo
  pages : PageNo → RmPage

/-- `RmManager::close_file`. -/
def RmFileHandle.closeFile (f : RmFileHandle) : RmFile where
  recordSize := f.recordSize
  numPages := f.numPages
  numRecordsPerPage := f.numRecordsPerPage
  firstFreePageNo := f.firstFreePageNo
  pages := f.pages

/-- `RmManager::open_file`: the constructor of `RmFileHandle` reads the header and tells the
disk manager to go on numbering pages at `num_pages`. -/
def RmFile.openFile (d : RmFile) : RmFileHandle where
  recordSize := d.recordSize
  numPages := d.numPages
  numRecordsPerPage := d.numRecordsPerPage
  firstFreePageNo := d.firstFreePageNo
  fd2pageno := d.numPages
  pages := d.pages

-- ---------------------------------------------------------------------------
-- Scans
-- ---------------------------------------------------------------------------

namespace RmScan

/-- The inner loop: the first slot from `j` on that holds a record. -/
def slotLoop (page : RmPage) : Nat → Nat → Option Nat
  | 0, _ => none
  | left + 1, j => if page.bitmap j then some j else slotLoop page left (j + 1)

/-- The outer loop, from slot `j` of page `i`. `left` pages are left; on all but the first the
inner loop starts at slot 0. -/
def pageLoop (f : RmFileHandle) : Nat → PageNo → Nat → Rid
  | 0, _, _ => ⟨-1, -1⟩
  | left + 1, i, j =>
    match slotLoop (f.pages i) (f.numRecordsPerPage.toNat - j) j with
    | some slot => ⟨i, slot⟩
    | none => pageLoop f left (i + 1) 0

/-- The constructor of `RmScan`. -/
def begin (f : RmFileHandle) : Rid := pageLoop f (f.numPages - 1).toNat 1 0

def next (f : RmFileHandle) (rid : Rid) : Rid :=
  pageLoop f (f.numPages - rid.pageNo).toNat rid.pageNo (rid.slotNo + 1).toNat

def isEnd (rid : Rid) : Bool := rid.pageNo == -1 && rid.slotNo == -1

/-- `for (scan; !scan.is_end(); scan.next())`. -/
def loop (f : RmFileHandle) : Nat → Rid → Option (List Rid)
  | 0, _ => none
  | fuel + 1, rid =>
    if isEnd rid then some [] else (loop f fuel (next f rid)).map (rid :: ·)

end RmScan

/-- The order of positions. -/
def Rid.Before (a b : Rid) : Prop := a.pageNo < b.pageNo ∨ a.pageNo = b.pageNo ∧ a.slotNo < b.slotNo

namespace RmScan

/-- The slots from `j` on that hold records. -/
def slotsFrom (page : RmPage) : Nat → Nat → List Nat
  | 0, _ => []
  | left + 1, j => if page.bitmap j then j :: slotsFrom page left (j + 1) else slotsFrom page left (j + 1)

/-- The positions from slot `j` of page `i` on that hold records. -/
def ridsFrom (f : RmFileHandle) : Nat → PageNo → Nat → List Rid
  | 0, _, _ => []
  | left + 1, i, j =>
    (slotsFrom (f.pages i) (f.numRecordsPerPage.toNat - j) j).map (fun s => ⟨i, s⟩) ++ ridsFrom f left (i + 1) 0

variable {f : RmFileHandle} {page : RmPage} {left j : Nat} {i : Int}

theorem mem_slotsFrom {s : Nat} :
    s ∈ slotsFrom page left j ↔ j ≤ s ∧ s < j + left ∧ page.bitmap s = true := by
  induction left generalizing j with
  | zero =>
    simp only [slotsFrom, List.not_mem_nil, false_iff]
    omega
  | succ left ih =>
    cases hbit : page.bitmap j with
    | false =>
      simp only [slotsFrom, hbit, Bool.false_eq_true, if_false, ih]
      constructor
      · rintro ⟨h₁, h₂, h₃⟩
        exact ⟨by omega, by omega, h₃⟩
      · rintro ⟨h₁, h₂, h₃⟩
        have hne : j ≠ s := by
          rintro rfl
          rw [hbit] at h₃
          cases h₃
        exact ⟨by omega, by omega, h₃⟩
    | true =>
      simp only [slotsFrom, hbit, if_true, List.mem_cons, ih]
      constructor
      · rintro (rfl | ⟨h₁, h₂, h₃⟩)
        · exact ⟨le_rfl, by omega, hbit⟩
        · exact ⟨by omega, by omega, h₃⟩
      · rintro ⟨h₁, h₂, h₃⟩
        rcases Nat.eq_or_lt_of_le h₁ with rfl | hlt
        · exact .inl rfl
        · exact .inr ⟨hlt, by omega, h₃⟩

theorem slotsFrom_sorted : (slotsFrom page left j).Pairwise (· < ·) := by
  induction left generalizing j with
  | zero => exact List.Pairwise.nil
  | succ left ih =>
    simp only [slotsFrom]
    split
    · exact List.pairwise_cons.mpr ⟨fun s hs => (mem_slotsFrom.mp hs).1, ih⟩
    · exact ih

/-- What the inner loop finds, and what is left after it. -/
theorem slotLoop_eq : match slotLoop page left j with
    | none => slotsFrom page left j = []
    | some s => s < j + left ∧ slotsFrom page left j = s :: slotsFrom page (j + left - (s + 1)) (s + 1) := by
  induction left generalizing j with
  | zero => rfl
  | succ left ih =>
    cases hbit : page.bitmap j with
    | true =>
      simp only [slotLoop, slotsFrom, hbit, if_true]
      refine ⟨by omega, ?_⟩
      congr 2
      omega
    | false =>
      simp only [slotLoop, slotsFrom, hbit, Bool.false_eq_true, if_false]
      have := @ih (j + 1)
      have hsum : j + 1 + left = j + (left + 1) := by omega
      rwa [hsum] at this

theorem mem_ridsFrom {p s : Int} (hj : (j : Int) ≤ f.numRecordsPerPage) : ⟨p, s⟩ ∈ ridsFrom f left i j ↔
    i ≤ p ∧ p < i + left ∧ (p = i → j ≤ s) ∧ (0 ≤ s ∧ s < f.numRecordsPerPage) ∧ (f.pages p).bitmap s = true := by
  induction left generalizing i j with
  | zero =>
    simp only [ridsFrom, List.not_mem_nil, false_iff]
    omega
  | succ left ih =>
    have hslot : (∃ a : Nat, (j ≤ a ∧ a < j + (f.numRecordsPerPage.toNat - j) ∧
        (f.pages i).bitmap a = true) ∧ (a : Int) = s) ↔
        j ≤ s ∧ (0 ≤ s ∧ s < f.numRecordsPerPage) ∧ (f.pages i).bitmap s = true := by
      constructor
      · rintro ⟨a, ⟨h₁, h₂, h₃⟩, rfl⟩
        exact ⟨by omega, ⟨by omega, by omega⟩, h₃⟩
      · rintro ⟨h₁, ⟨h₂, h₃⟩, h₄⟩
        exact ⟨s.toNat, ⟨by omega, by omega, by rwa [Int.toNat_of_nonneg h₂]⟩, Int.toNat_of_nonneg h₂⟩
    have hfirst : (⟨p, s⟩ : Rid) ∈
        (slotsFrom (f.pages i) (f.numRecordsPerPage.toNat - j) j).map (fun s : Nat => (⟨i, s⟩ : Rid)) ↔
        p = i ∧ j ≤ s ∧ (0 ≤ s ∧ s < f.numRecordsPerPage) ∧ (f.pages i).bitmap s = true := by
      rw [← hslot]
      simp only [List.mem_map, mem_slotsFrom, Rid.mk.injEq]
      constructor
      · rintro ⟨a, ha, rfl, rfl⟩
        exact ⟨rfl, a, ha, rfl⟩
      · rintro ⟨rfl, a, ha, rfl⟩
        exact ⟨a, ha, rfl, rfl⟩
    rw [ridsFrom, List.mem_append, hfirst, ih (by omega)]
    constructor
    · rintro (⟨rfl, h₁, h₂, h₃⟩ | ⟨h₁, h₂, h₃, h₄, h₅⟩)
      · exact ⟨le_rfl, by omega, fun _ => h₁, h₂, h₃⟩
      · exact ⟨by omega, by omega, fun e => by omega, h₄, h₅⟩
    · rintro ⟨h₁, h₂, h₃, h₄, h₅⟩
      by_cases hp : p = i
      · exact .inl ⟨hp, h₃ hp, h₄, hp ▸ h₅⟩
      · exact .inr ⟨by omega, by omega, fun _ => by omega, h₄, h₅⟩

theorem ridsFrom_sorted (hj : (j : Int) ≤ f.numRecordsPerPage) : (ridsFrom f left i j).Pairwise Rid.Before := by
  induction left generalizing i j with
  | zero => exact List.Pairwise.nil
  | succ left ih =>
    rw [ridsFrom, List.pairwise_append]
    refine ⟨?_, ih (by omega), ?_⟩
    · rw [List.pairwise_map]
      exact slotsFrom_sorted.imp fun h => .inr ⟨rfl, by simpa using h⟩
    · rintro a ha ⟨p, s⟩ hb
      obtain ⟨s', -, rfl⟩ := List.mem_map.mp ha
      have hpage : i + 1 ≤ p := ((mem_ridsFrom (by omega)).mp hb).1
      exact .inl (Int.lt_of_add_one_le hpage)

/-- What the outer loop finds, and what is left after it. -/
theorem pageLoop_eq (hj : (j : Int) ≤ f.numRecordsPerPage) (hleft : left = (f.numPages - i).toNat) :
    (pageLoop f left i j = ⟨-1, -1⟩ ∧ ridsFrom f left i j = []) ∨
      ∃ (p : Int) (s : Nat), pageLoop f left i j = ⟨p, s⟩ ∧ i ≤ p ∧ (s : Int) < f.numRecordsPerPage ∧
        ridsFrom f left i j = ⟨p, s⟩ :: ridsFrom f (f.numPages - p).toNat p (s + 1) := by
  induction left generalizing i j with
  | zero => exact .inl ⟨rfl, rfl⟩
  | succ left ih =>
    have hslots := @slotLoop_eq (f.pages i) (f.numRecordsPerPage.toNat - j) j
    cases hloop : slotLoop (f.pages i) (f.numRecordsPerPage.toNat - j) j with
    | some s =>
      rw [hloop] at hslots
      obtain ⟨hlt, hcons⟩ := hslots
      refine .inr ⟨i, s, by simp [pageLoop, hloop], le_rfl, by omega, ?_⟩
      rw [ridsFrom, hcons, ← hleft, ridsFrom, List.map_cons, List.cons_append]
      congr 4
      omega
    | none =>
      rw [hloop] at hslots
      have hskip : ridsFrom f (left + 1) i j = ridsFrom f left (i + 1) 0 := by
        rw [ridsFrom, hslots, List.map_nil, List.nil_append]
      have hskip' : pageLoop f (left + 1) i j = pageLoop f left (i + 1) 0 := by
        simp [pageLoop, hloop]
      rw [hskip, hskip']
      have hpos : 0 < f.numPages - i := by omega
      rcases @ih 0 (i + 1) (by omega) (by omega) with h | ⟨p, s, h₁, h₂, h₃, h₄⟩
      · exact .inl h
      · exact .inr ⟨p, s, h₁, by omega, h₃, h₄⟩

/-- The loop of a scan visits these positions and ends. -/
theorem loop_eq (hi : 1 ≤ i) (hj : (j : Int) ≤ f.numRecordsPerPage) (hleft : left = (f.numPages - i).toNat)
    {fuel : Nat} (hfuel : (ridsFrom f left i j).length < fuel) :
    loop f fuel (pageLoop f left i j) = some (ridsFrom f left i j) := by
  induction fuel generalizing left i j with
  | zero => omega
  | succ fuel ih =>
    rcases pageLoop_eq hj hleft with ⟨hend, hnil⟩ | ⟨p, s, hfound, hp, hs, hcons⟩
    · rw [hend, hnil]
      rfl
    · rw [hfound, hcons]
      have hne : isEnd ⟨p, s⟩ = false := by
        have : p ≠ -1 := by omega
        simp [isEnd, this]
      have hnext : next f ⟨p, s⟩ = pageLoop f (f.numPages - p).toNat p (s + 1) := by
        have : ((s : Int) + 1).toNat = s + 1 := by omega
        simp [next, this]
      rw [hcons, List.length_cons] at hfuel
      have hrest := @ih (f.numPages - p).toNat (s + 1) p (by omega) (by omega) rfl (by omega)
      simp [loop, hne, hnext, hrest]

end RmScan

-- ---------------------------------------------------------------------------
-- Runs
-- ---------------------------------------------------------------------------

/-- A record file of this record size after any calls, with the map its callers have in mind.
Records are deleted and updated where there are some. -/
inductive RmRun (recordSize : Nat) : RmFileHandle → (Rid → Option RmRecord) → Prop where
  | create : RmRun recordSize (RmFileHandle.createFile recordSize) fun _ => none
  | insert {f f' : RmFileHandle} {m : Rid → Option RmRecord} {buf : RmRecord} {rid : Rid} :
    RmRun recordSize f m → buf.length = recordSize → f.insertRecord buf = .ok (rid, f') →
    RmRun recordSize f' (Function.update m rid (some buf))
  | delete {f f' : RmFileHandle} {m : Rid → Option RmRecord} {rid : Rid} :
    RmRun recordSize f m → m rid ≠ none → f.deleteRecord rid = .ok f' →
    RmRun recordSize f' (Function.update m rid none)
  | update {f f' : RmFileHandle} {m : Rid → Option RmRecord} {buf : RmRecord} {rid : Rid} :
    RmRun recordSize f m → buf.length = recordSize → m rid ≠ none → f.updateRecord rid buf = .ok f' →
    RmRun recordSize f' (Function.update m rid (some buf))
  | reopen {f : RmFileHandle} {m : Rid → Option RmRecord} :
    RmRun recordSize f m → RmRun recordSize f.closeFile.openFile m

namespace RmFileHandle

variable {f : RmFileHandle} {k n : Int} {chain : List PageNo} {rows : Rid → Option RmRecord} {rid : Rid}
  {p : PageNo}

theorem rowsOn_update_of_ne {x : Option RmRecord} (h : p ≠ rid.pageNo) :
    rowsOn k (Function.update rows rid x) p = rowsOn k rows p := by
  have hne : ∀ s, (⟨p, s⟩ : Rid) ≠ rid := fun s e => h (congrArg Rid.pageNo e)
  simp [rowsOn, hne]

/-- The free chain lists every page that is not full. -/
def Complete (k n : Int) (chain : List PageNo) (rows : Rid → Option RmRecord) : Prop :=
  ∀ p, 1 ≤ p ∧ p < n → rowsOn k rows p < k → p ∈ chain

theorem Holds.complete_insert {n₁ : Int} {chain₁ : List PageNo} {buf : RmRecord} (h : f.Holds k n chain rows)
    {g : RmFileHandle} (hg : g.Holds k n₁ chain₁ (Function.update rows rid (some buf)))
    (hplaced : PlacedAt k n chain rows rid n₁ chain₁) (hc : Complete k n chain rows) :
    Complete k n₁ chain₁ (Function.update rows rid (some buf)) := by
  intro p hp hlt
  obtain ⟨hnone, rest, hcase, rfl⟩ := hplaced
  by_cases hpage : p = rid.pageNo
  · subst hpage
    have hs := (hg.inFile (show Function.update rows rid (some buf) rid ≠ none by simp)).2
    rw [rowsOn_update_some hnone hs] at hlt
    rw [if_neg hlt.ne]
    exact List.mem_cons_self
  · rw [rowsOn_update_of_ne hpage] at hlt
    have hrest : p ∈ rest := by
      rcases hcase with ⟨rfl, rfl⟩ | ⟨rfl, rfl, hrid, rfl⟩
      · exact (List.mem_cons.mp (hc p hp hlt)).resolve_left hpage
      · have hp' : p < n := lt_of_le_of_ne (Int.lt_add_one_iff.mp hp.2) fun e => hpage (e.trans hrid.symm)
        cases hc p ⟨hp.1, hp'⟩ hlt
    split
    · exact hrest
    · exact List.mem_cons_of_mem _ hrest

theorem complete_delete (hc : Complete k n chain rows) (hle : rowsOn k rows rid.pageNo ≤ k) :
    Complete k n (if rowsOn k rows rid.pageNo = k then rid.pageNo :: chain else chain)
      (Function.update rows rid none) := by
  intro p hp hlt
  by_cases hpage : p = rid.pageNo
  · subst hpage
    split
    · exact List.mem_cons_self
    · rename_i hfull
      exact hc _ hp (lt_of_le_of_ne hle hfull)
  · rw [rowsOn_update_of_ne hpage] at hlt
    have hmem := hc p hp hlt
    split
    · exact List.mem_cons_of_mem _ hmem
    · exact hmem

theorem rowsOn_le (hk : 0 ≤ k) : rowsOn k rows p ≤ k := by
  have hcard := Finset.card_le_card (Finset.filter_subset (fun s => (rows ⟨p, s⟩).isSome = true) (slotNos k))
  rw [card_slotNos] at hcard
  simp only [rowsOn]
  omega

/-- Replacing a record moves no page in or out of the chain. -/
theorem rowsOn_update_of_some {x : Option RmRecord} {buf : RmRecord} (hx : x = some buf) (hr : rows rid ≠ none) :
    rowsOn k (Function.update rows rid x) p = rowsOn k rows p := by
  subst hx
  have hsome : ∀ s, (Function.update rows rid (some buf) ⟨p, s⟩).isSome = (rows ⟨p, s⟩).isSome := by
    intro s
    by_cases h : (⟨p, s⟩ : Rid) = rid
    · rw [h, Function.update_self]
      exact (Option.isSome_iff_ne_none.mpr hr).symm
    · rw [Function.update_of_ne h]
  simp [rowsOn, hsome]

/-- The slots of a page fit behind its header, of 16 bytes, and its bitmap. -/
theorem createFile_fits (recordSize : Nat) :
    16 + ((createFile recordSize).numRecordsPerPage + 7) / 8 +
      (createFile recordSize).numRecordsPerPage * recordSize ≤ 4096 := by
  simp only [createFile]
  generalize hn : (8 * (4096 - 1 - 20) + 1) / (1 + (recordSize : Int) * 8) = n
  have hle : n * (1 + (recordSize : Int) * 8) ≤ 8 * (4096 - 1 - 20) + 1 := by
    rw [← hn]
    exact Int.ediv_mul_le _ (by omega)
  have hexp : n * (1 + (recordSize : Int) * 8) = n + 8 * (n * recordSize) := by
    rw [Int.mul_add, Int.mul_one, ← Int.mul_assoc, Int.mul_comm _ 8]
  rw [hexp] at hle
  omega

theorem createFile_perPage_pos {recordSize : Nat} (h : recordSize ≤ 2048) :
    0 < (createFile recordSize).numRecordsPerPage := by
  have hpos : (0 : Int) < 1 + (recordSize : Int) * 8 := by omega
  have hle : (1 : Int) ≤ (8 * (4096 - 1 - 20) + 1) / (1 + (recordSize : Int) * 8) :=
    (Int.le_ediv_iff_mul_le hpos).mpr (by omega)
  exact hle

theorem Holds.createFile {recordSize : Nat} (h : recordSize ≤ 2048) :
    (RmFileHandle.createFile recordSize).Holds (RmFileHandle.createFile recordSize).numRecordsPerPage 1 [] fun _ => none := by
  have hin : ∀ p, ¬ (RmFileHandle.createFile recordSize).InFile p := fun p hp => absurd hp.1 (not_le.mpr hp.2)
  refine ⟨⟨createFile_perPage_pos h, le_rfl, rfl, rfl, List.nodup_nil, by simp, ?_, ?_⟩, rfl, rfl, ?_⟩
  · exact fun p hp => absurd hp (hin p)
  · exact fun p s hp => absurd hp (hin p)
  · exact fun rid => lookup_eq_none_iff.mpr fun hp => absurd hp (hin _)

/-- The header that `close_file` writes is the one that `open_file` reads. -/
theorem Holds.closeFile_openFile (h : f.Holds k n chain rows) : f.closeFile.openFile = f := by
  obtain ⟨recordSize, numPages, perPage, firstFree, fd, pages⟩ := f
  obtain rfl : fd = numPages := h.ok.fd
  rfl

/-- What the file of a run is like. -/
def Inv (recordSize : Nat) (f : RmFileHandle) (m : Rid → Option RmRecord) : Prop :=
  ∃ n chain, f.Holds (createFile recordSize).numRecordsPerPage n chain m ∧
    Complete (createFile recordSize).numRecordsPerPage n chain m

theorem Inv.of_run {recordSize : Nat} (hsize : recordSize ≤ 2048) (hrun : RmRun recordSize f rows) :
    Inv recordSize f rows := by
  have hpos := createFile_perPage_pos hsize
  induction hrun with
  | create =>
    exact ⟨1, [], Holds.createFile hsize, fun p hp => absurd hp.1 (not_le.mpr hp.2)⟩
  | insert _ _ hcall ih =>
    obtain ⟨n, chain, hf, hc⟩ := ih
    obtain ⟨rid, g, n₁, chain₁, hcall', hplaced, hg⟩ := hf.insertRecord _
    obtain ⟨rfl, rfl⟩ := Prod.mk.inj (Except.ok.inj (hcall'.symm.trans hcall))
    exact ⟨n₁, chain₁, hg, hf.complete_insert hg hplaced hc⟩
  | delete _ hr hcall ih =>
    obtain ⟨n, chain, hf, hc⟩ := ih
    obtain ⟨g, hcall', hg⟩ := hf.deleteRecord hr
    obtain rfl := Except.ok.inj (hcall'.symm.trans hcall)
    exact ⟨n, _, hg, complete_delete hc (rowsOn_le hpos.le)⟩
  | update _ _ hr hcall ih =>
    obtain ⟨n, chain, hf, hc⟩ := ih
    obtain ⟨g, hcall', hg⟩ := hf.updateRecord hr _
    obtain rfl := Except.ok.inj (hcall'.symm.trans hcall)
    refine ⟨n, chain, hg, fun p hp hlt => hc p hp ?_⟩
    rwa [rowsOn_update_of_some rfl hr] at hlt
  | reopen _ ih =>
    obtain ⟨n, chain, hf, hc⟩ := ih
    exact ⟨n, chain, hf.closeFile_openFile.symm ▸ hf, hc⟩

-- ---------------------------------------------------------------------------
-- What every call answers
-- ---------------------------------------------------------------------------

theorem Holds.isRecord (h : f.Holds k n chain rows) (hin : f.InFile rid.pageNo) :
    f.isRecord rid = .ok (rows rid).isSome := by
  have hpage : f.fetchPageHandle rid.pageNo = .ok (f.pages rid.pageNo) := if_pos hin
  have hbit : (f.pages rid.pageNo).bitmap rid.slotNo = (rows rid).isSome := by
    rw [← h.lookup, RmFileHandle.lookup]
    cases hset : (f.pages rid.pageNo).bitmap rid.slotNo <;> simp [hin]
  simp [RmFileHandle.isRecord, hpage, hbit]

/-- The rids that a scan of the whole file visits. -/
theorem Holds.mem_rids {p s : Int} (h : f.Holds k n chain rows) :
    ⟨p, s⟩ ∈ RmScan.ridsFrom f (f.numPages - 1).toNat 1 0 ↔ rows ⟨p, s⟩ ≠ none := by
  have hpos := h.ok.perPage_pos
  have hpages := h.ok.numPages_pos
  rw [RmScan.mem_ridsFrom (by omega), ← h.lookup]
  constructor
  · rintro ⟨h₁, h₂, -, -, hbit⟩
    have hlt : p < f.numPages := by omega
    have hin : f.InFile p := ⟨h₁, hlt⟩
    simp [RmFileHandle.lookup, hin, hbit]
  · intro hr
    obtain ⟨buf, hbuf⟩ := Option.ne_none_iff_exists'.mp hr
    obtain ⟨hin, hbit, -⟩ := lookup_eq_some_iff.mp hbuf
    have hslot := h.ok.slot p s hin hbit
    have hlt : p < f.numPages := hin.2
    exact ⟨hin.1, by omega, fun _ => by omega, hslot, hbit⟩

/-- The file answers every call as the map does, and its headers and bitmaps agree with each other. -/
structure ImplementsMap (f : RmFileHandle) (recordSize : Nat) (m : Rid → Option RmRecord) : Prop where
  insert : ∀ buf : RmRecord, buf.length = recordSize →
    ∃ rid f', f.insertRecord buf = .ok (rid, f') ∧ m rid = none ∧ rid ≠ ⟨-1, -1⟩
  delete : ∀ rid, m rid ≠ none → ∃ f', f.deleteRecord rid = .ok f'
  update : ∀ (rid : Rid) (buf : RmRecord), m rid ≠ none → buf.length = recordSize →
    ∃ f', f.updateRecord rid buf = .ok f'
  get : ∀ rid buf, m rid = some buf → f.getRecord rid = .ok buf
  is : ∀ rid, f.InFile rid.pageNo → 0 ≤ rid.slotNo ∧ rid.slotNo < f.numRecordsPerPage →
    f.isRecord rid = .ok (m rid).isSome
  scan : ∃ rids, (∀ fuel > rids.length, RmScan.loop f fuel (RmScan.begin f) = some rids) ∧
    rids.Pairwise Rid.Before ∧ ∀ rid, rid ∈ rids ↔ m rid ≠ none
  fits : 16 + (f.numRecordsPerPage + 7) / 8 + f.numRecordsPerPage * recordSize ≤ 4096
  count : ∀ p, f.InFile p → (f.pages p).numRecords = (f.used p).card
  chain : ∃ chain, f.FreeChain f.firstFreePageNo chain ∧ chain.Nodup ∧
    ∀ p, p ∈ chain ↔ f.InFile p ∧ (f.pages p).numRecords < f.numRecordsPerPage

end RmFileHandle

/-- A record file implements a map from rids to records, after any calls. -/
theorem recordFile_refines_map {recordSize : Nat} (hsize : 1 ≤ recordSize ∧ recordSize ≤ 2048)
    {f : RmFileHandle} {m : Rid → Option RmRecord} (hrun : RmRun recordSize f m) :
    f.ImplementsMap recordSize m := by
  obtain ⟨n, chain, hf, hc⟩ := RmFileHandle.Inv.of_run hsize.2 hrun
  have hpos := hf.ok.perPage_pos
  refine ⟨?_, ?_, ?_, fun _ _ => hf.getRecord, fun _ hin _ => hf.isRecord hin, ?_, ?_, hf.ok.count, ?_⟩
  · intro buf _
    obtain ⟨rid, g, n₁, chain₁, hcall, hplaced, hg⟩ := hf.insertRecord buf
    refine ⟨rid, g, hcall, hplaced.1, ?_⟩
    rintro rfl
    have hsome : Function.update m ⟨-1, -1⟩ (some buf) ⟨-1, -1⟩ ≠ none := by simp
    exact absurd (hg.inFile hsome).1.1 (by decide)
  · intro rid hr
    obtain ⟨g, hcall, -⟩ := hf.deleteRecord hr
    exact ⟨g, hcall⟩
  · intro rid buf hr _
    obtain ⟨g, hcall, -⟩ := hf.updateRecord hr buf
    exact ⟨g, hcall⟩
  · refine ⟨RmScan.ridsFrom f (f.numPages - 1).toNat 1 0, fun fuel hfuel => ?_, ?_, fun ⟨_, _⟩ => hf.mem_rids⟩
    · exact RmScan.loop_eq le_rfl (by omega) rfl hfuel
    · exact RmScan.ridsFrom_sorted (by omega)
  · rw [hf.perPage]
    exact RmFileHandle.createFile_fits recordSize
  · refine ⟨chain, hf.ok.chained, hf.ok.nodup, fun p => ⟨hf.ok.free p, fun ⟨hin, hlt⟩ => ?_⟩⟩
    rw [hf.numRecords hin, hf.perPage] at hlt
    exact hc p ⟨hin.1, hf.numPages ▸ hin.2⟩ hlt

/-- A file of four-byte records after two insertions, an update, a reopening, a deletion and one more
insertion. -/
theorem recordFile_refines_map_calls : ∃ f m rid rid', RmRun 4 f m ∧ m rid = some [9, 9, 9, 9] ∧
    m rid' = some [7, 7, 7, 7] ∧ rid ≠ rid' ∧ f.ImplementsMap 4 m := by
  obtain ⟨rid₁, f₁, _, _, hcall₁, -, hf₁⟩ :=
    (@RmFileHandle.Holds.createFile 4 (by decide)).insertRecord [1, 2, 3, 4]
  obtain ⟨rid₂, f₂, _, _, hcall₂, hplaced₂, hf₂⟩ := hf₁.insertRecord [5, 6, 7, 8]
  have hne₂ : rid₁ ≠ rid₂ := fun heq => by simpa [← heq] using hplaced₂.1
  obtain ⟨f₃, hcall₃, hf₃⟩ := @RmFileHandle.Holds.updateRecord _ _ rid₁ _ _ _ hf₂ (by simp [hne₂]) [9, 9, 9, 9]
  obtain ⟨f₄, hcall₄, hf₄⟩ := @RmFileHandle.Holds.deleteRecord _ _ rid₂ _ _ _
    (hf₃.closeFile_openFile.symm ▸ hf₃) (by simp [hne₂.symm])
  obtain ⟨rid₅, f₅, _, _, hcall₅, hplaced₅, -⟩ := hf₄.insertRecord [7, 7, 7, 7]
  have hne₅ : rid₁ ≠ rid₅ := fun heq => by simpa [← heq, hne₂] using hplaced₅.1
  have hrun : RmRun 4 f₅ _ := .insert (.delete (.reopen (.update (.insert (.insert .create rfl hcall₁) rfl hcall₂) rfl
    (by simp [hne₂]) hcall₃)) (by simp [hne₂.symm]) hcall₄) rfl hcall₅
  exact ⟨f₅, _, rid₁, rid₅, hrun, by simp [hne₂, hne₅], Function.update_self .., hne₅,
    recordFile_refines_map (by decide) hrun⟩

end Rmdb
