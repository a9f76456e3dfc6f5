-- SUMMARY: The B+ tree of an index behaves as a finite map, over every sequence of calls.
import Mathlib.Data.Finmap
import Rmdb.Index.DeleteEntry

/-!
# The index as a finite map

What the executors expect of an index is a finite map from keys to rids. `KeyMap.call` is
this map with the four calls on it, and `Represents` relates it to the pages of the index
file. Each call keeps the relation and gives the same answer on both sides.
-/

namespace Rmdb

open IxIndexHandle

variable {K : Type} [IxKey K]

/-- A call on an index. -/
inductive IxCall (K : Type) where
  | insertEntry (key : K) (value : Rid)
  | deleteEntry (key : K)
  | getValue (key : K)
  | isExist (key : K)

/-- What the caller sees. -/
inductive IxAnswer where
  | inserted
  /-- `IndexEntryNotUniqueError`. -/
  | notUnique
  | deleted
  | values (rids : List Rid)
  | exist (b : Bool)
  deriving DecidableEq, Repr

/-- A call on the index file. The caller of `insert_entry` catches `IndexEntryNotUniqueError`;
everything else that goes wrong ends the run. -/
def IxIndexHandle.call (h : IxIndexHandle K) : IxCall K → Except IxError (IxAnswer × IxIndexHandle K)
  | .insertEntry key value =>
    match h.insertEntry key value with
    | .ok (_, h) => .ok (.inserted, h)
    | .error .indexEntryNotUnique => .ok (.notUnique, h)
    | .error e => .error e
  | .deleteEntry key => do
    let h ← h.deleteEntry key
    return (.deleted, h)
  | .getValue key => do
    let rids ← h.getValue key
    return (.values rids, h)
  | .isExist key => do
    let b ← h.isExist key
    return (.exist b, h)

def IxIndexHandle.run (h : IxIndexHandle K) : List (IxCall K) →
    Except IxError (List IxAnswer × IxIndexHandle K)
  | [] => .ok ([], h)
  | c :: calls => do
    let (a, h) ← h.call c
    let (answers, h) ← h.run calls
    return (a :: answers, h)

-- ---------------------------------------------------------------------------
-- The map
-- ---------------------------------------------------------------------------

/-- What an index is for: a finite map from keys to rids. -/
abbrev KeyMap (K : Type) := Finmap fun _ : K => Rid

def KeyMap.call (m : KeyMap K) : IxCall K → IxAnswer × KeyMap K
  | .insertEntry key value =>
    if key ∈ m then (.notUnique, m) else (.inserted, Finmap.insert key value m)
  | .deleteEntry key => (.deleted, Finmap.erase key m)
  | .getValue key => (.values (Finmap.lookup key m).toList, m)
  | .isExist key => (.exist (decide (key ∈ m)), m)

def KeyMap.run (m : KeyMap K) : List (IxCall K) → List IxAnswer × KeyMap K
  | [] => ([], m)
  | c :: calls =>
    let (a, m) := KeyMap.call m c
    let (answers, m) := KeyMap.run m calls
    (a :: answers, m)

/-- The tree in the index file holds the pairs of the map. -/
def Represents (h : IxIndexHandle K) (m : KeyMap K) : Prop :=
  ∃ L up, Tree h L up ∧ ∀ key rid, Finmap.lookup key m = some rid ↔ (key, rid) ∈ entriesOf L

variable {h : IxIndexHandle K} {m : KeyMap K} {L L' : List (Leaf K)} {up : List (List (Inner K))}
  {key : K} {value : Rid}

theorem mem_iff_exists (hm : ∀ key rid, Finmap.lookup key m = some rid ↔ (key, rid) ∈ entriesOf L) :
    key ∈ m ↔ ∃ rid, (key, rid) ∈ entriesOf L := by
  rw [Finmap.mem_iff]
  exact exists_congr fun rid => hm key rid

theorem getValue_eq (ht : Tree h L up)
    (hm : ∀ key rid, Finmap.lookup key m = some rid ↔ (key, rid) ∈ entriesOf L) (key : K) :
    h.getValue key = .ok (Finmap.lookup key m).toList := by
  obtain ⟨rid?, hcode, hrid⟩ := ht.getValue key
  have heq : rid? = Finmap.lookup key m := by
    ext rid
    rw [hm]
    exact hrid rid
  rw [hcode, heq]

theorem isExist_eq (ht : Tree h L up)
    (hm : ∀ key rid, Finmap.lookup key m = some rid ↔ (key, rid) ∈ entriesOf L) (key : K) :
    h.isExist key = .ok (decide (key ∈ m)) := by
  obtain ⟨b, hcode, hb⟩ := ht.isExist key
  rw [hcode, Except.ok.injEq, Bool.eq_iff_iff, decide_eq_true_iff, hb, mem_iff_exists hm]

/-- One pair more on both sides. -/
theorem lookup_insert_iff (hm : ∀ key rid, Finmap.lookup key m = some rid ↔ (key, rid) ∈ entriesOf L)
    (habs : key ∉ m) {p : PageNo} (hins : Inserted L key value p L') (k : K) (rid : Rid) :
    Finmap.lookup k (Finmap.insert key value m) = some rid ↔ (k, rid) ∈ entriesOf L' := by
  obtain ⟨Y, Z, hL, hL'⟩ := hins.entries
  rw [mem_iff_exists hm] at habs
  by_cases hk : k = key
  · subst hk
    rw [Finmap.lookup_insert, Option.some.injEq, hL']
    constructor
    · rintro rfl
      simp
    · intro hmem
      rcases (show (k, rid) ∈ Y ++ Z ∨ rid = value by simp at hmem ⊢; tauto) with hmem | rfl
      · exact absurd ⟨rid, hL ▸ hmem⟩ habs
      · rfl
  · rw [Finmap.lookup_insert_of_ne _ hk, hm, hL, hL']
    simp [hk]

/-- One pair less on both sides. -/
theorem lookup_erase_iff (ht : Tree h L up)
    (hm : ∀ key rid, Finmap.lookup key m = some rid ↔ (key, rid) ∈ entriesOf L)
    (hdel : Deleted L key L') (k : K) (rid : Rid) :
    Finmap.lookup k (Finmap.erase key m) = some rid ↔ (k, rid) ∈ entriesOf L' := by
  by_cases hk : k = key
  · subst hk
    rw [Finmap.lookup_erase]
    refine iff_of_false (by simp) fun hmem => ?_
    rcases hdel with ⟨habs, heq⟩ | ⟨Y, rid', Z, hL, hL'⟩
    · exact habs ⟨rid, heq ▸ hmem⟩
    · -- The key would be in the tree twice.
      have hsort := ht.pairwise
      rw [hL, List.pairwise_append, List.pairwise_cons] at hsort
      rw [hL'] at hmem
      rcases List.mem_append.mp hmem with hmem | hmem
      · exact lt_irrefl k (hsort.2.2 _ hmem (k, rid') List.mem_cons_self)
      · exact lt_irrefl k (hsort.2.1.1 _ hmem)
  · rw [Finmap.lookup_erase_ne hk, hm]
    rcases hdel with ⟨-, heq⟩ | ⟨Y, rid', Z, hL, hL'⟩
    · rw [heq]
    · rw [hL, hL']
      simp [hk]

-- ---------------------------------------------------------------------------
-- Runs
-- ---------------------------------------------------------------------------

/-- One call. -/
theorem Represents.call (hr : Represents h m) (c : IxCall K) :
    ∃ h', h.call c = .ok ((KeyMap.call m c).1, h') ∧ Represents h' (KeyMap.call m c).2 ∧
      h'.btreeOrder = h.btreeOrder := by
  obtain ⟨L, up, ht, hm⟩ := hr
  cases c with
  | insertEntry key value =>
    by_cases hkey : key ∈ m
    · refine ⟨h, ?_, ?_, rfl⟩
      · simp [IxIndexHandle.call, KeyMap.call, hkey, ht.insertEntry_present ((mem_iff_exists hm).mp hkey)]
      · simpa [KeyMap.call, hkey] using ⟨L, up, ht, hm⟩
    · obtain ⟨p, h', L', up', hcode, ht', horder, hins⟩ := ht.insertEntry_absent value
        ((mem_iff_exists hm).not.mp hkey)
      refine ⟨h', ?_, ?_, horder⟩
      · simp [IxIndexHandle.call, KeyMap.call, hkey, hcode]
      · simpa [KeyMap.call, hkey] using ⟨L', up', ht', lookup_insert_iff hm hkey hins⟩
  | deleteEntry key =>
    obtain ⟨h', L', up', hcode, ht', horder, hdel⟩ := ht.deleteEntry key
    refine ⟨h', ?_, ⟨L', up', ht', lookup_erase_iff ht hm hdel⟩, horder⟩
    simp [IxIndexHandle.call, KeyMap.call, hcode]
  | getValue key =>
    refine ⟨h, ?_, ⟨L, up, ht, hm⟩, rfl⟩
    simp [IxIndexHandle.call, KeyMap.call, getValue_eq ht hm]
  | isExist key =>
    refine ⟨h, ?_, ⟨L, up, ht, hm⟩, rfl⟩
    simp [IxIndexHandle.call, KeyMap.call, isExist_eq ht hm]

/-- A run of calls. -/
theorem Represents.run (hr : Represents h m) (calls : List (IxCall K)) :
    ∃ h', h.run calls = .ok ((KeyMap.run m calls).1, h') ∧ Represents h' (KeyMap.run m calls).2 ∧
      h'.btreeOrder = h.btreeOrder := by
  induction calls generalizing h m with
  | nil => exact ⟨h, rfl, hr, rfl⟩
  | cons c calls ih =>
    obtain ⟨h₁, hcode₁, hr₁, horder₁⟩ := hr.call c
    obtain ⟨h', hcode, hr', horder⟩ := ih hr₁
    refine ⟨h', ?_, hr', horder.trans horder₁⟩
    simp [IxIndexHandle.run, KeyMap.run, hcode₁, hcode]

/-- The file that `create_index` writes is the empty tree. -/
theorem createIndex_filled {order : Nat} (hord : 1 ≤ order) :
    Filled (IxManager.createIndex order : IxIndexHandle K) [⟨1, []⟩] [] := by
  refine ⟨⟨⟨⟨1, rfl, ?_, rfl⟩, ?_, ?_, rfl⟩, ?_, ?_, rfl, rfl, trivial, hord, rfl, ?_, ?_⟩, ?_, ?_⟩
  · simp [par, IxManager.createIndex]
  · simp [upPages]
  · intro x hx
    obtain rfl : x = 1 := by simpa [upPages] using hx
    exact ⟨by decide, show (1 : Int) < 2 by decide⟩
  · intro n hn
    obtain rfl := List.mem_singleton.mp hn
    simp [content, IxManager.createIndex, Leaf.keys, Leaf.rids]
  · simp [link, IxManager.createIndex]
  · simp [Blocks.Separated, seps, Leaf.keys]
  · simp [IxIndexHandle.fuel, IxManager.createIndex]
  · intro n hn
    obtain rfl := List.mem_singleton.mp hn
    simp
  · intro h0
    exact absurd rfl h0

theorem createIndex_tree {order : Nat} (hord : 3 ≤ order) :
    Tree (IxManager.createIndex order : IxIndexHandle K) [⟨1, []⟩] [] :=
  ⟨createIndex_filled (by omega), hord⟩

theorem createIndex_represents {order : Nat} (hord : 3 ≤ order) :
    Represents (IxManager.createIndex order : IxIndexHandle K) ∅ :=
  ⟨[⟨1, []⟩], [], createIndex_tree hord, by simp⟩

/-- An index answers every sequence of calls as the finite map does. In particular no call
fails for want of fuel: every recursion ends. -/
theorem index_refines_map (cols : List IxCol) (order : Nat) (hord : 3 ≤ order)
    (calls : List (IxCall (KeyBytes cols))) :
    ∃ h, (IxManager.createIndex order).run calls = .ok ((KeyMap.run ∅ calls).1, h) ∧
      ∀ key, h.getValue key = .ok (Finmap.lookup key (KeyMap.run ∅ calls).2).toList ∧
        h.isExist key = .ok (decide (key ∈ (KeyMap.run ∅ calls).2)) := by
  obtain ⟨h, hcode, ⟨L, up, ht, hm⟩, -⟩ := (createIndex_represents hord).run calls
  exact ⟨h, hcode, fun key => ⟨getValue_eq ht hm key, isExist_eq ht hm key⟩⟩

/-- The key of an index on one `INT` column, for a small number. -/
def intKey (b : UInt8) : KeyBytes [.int] := ⟨[b, 0, 0, 0], rfl⟩

theorem index_refines_map_int :
    3 ≤ 3 ∧ ∃ h, (IxManager.createIndex 3).run
        [.insertEntry (intKey 5) ⟨1, 0⟩, .insertEntry (intKey 5) ⟨1, 1⟩, .insertEntry (intKey 7) ⟨1, 2⟩,
          .deleteEntry (intKey 5), .deleteEntry (intKey 9), .getValue (intKey 7), .isExist (intKey 5)] =
        .ok ([.inserted, .notUnique, .inserted, .deleted, .deleted, .values [⟨1, 2⟩], .exist false], h) := by
  refine ⟨by decide, ?_⟩
  obtain ⟨h, hrun, -⟩ := index_refines_map [.int] 3 (by decide)
    [.insertEntry (intKey 5) ⟨1, 0⟩, .insertEntry (intKey 5) ⟨1, 1⟩, .insertEntry (intKey 7) ⟨1, 2⟩,
      .deleteEntry (intKey 5), .deleteEntry (intKey 9), .getValue (intKey 7), .isExist (intKey 5)]
  exact ⟨h, hrun⟩

end Rmdb
