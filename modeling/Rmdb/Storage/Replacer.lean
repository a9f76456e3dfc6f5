-- SUMMARY: The LRU replacer with its nodes and iterators, and the order in which it gives frames out.
import Mathlib.Algebra.Order.BigOperators.Group.List
import Mathlib.Data.Set.Card
import Rmdb.Lib.Recency
import Rmdb.Storage.Frames

/-!
# The LRU replacer

`replacer/lru_replacer.cpp` as it is written: a list of nodes, and a hash that keeps an iterator
for each frame in the list. The frames are of any type. `LRUReplacer`, which the pool runs on, is
this replacer with the nodes left out.
-/

namespace Rmdb

open Recency

-- ---------------------------------------------------------------------------
-- The replacer
-- ---------------------------------------------------------------------------

/-- Where a new node of a `std::list` goes: nowhere that a node is. -/
structure NodeAllocator where
  allocate : List Nat → Nat
  fresh : ∀ used, allocate used ∉ used

instance : Inhabited NodeAllocator where
  default := ⟨fun used => used.sum + 1, fun used hmem => by
    have hle := List.single_le_sum (fun _ _ => Nat.zero_le _) _ hmem
    omega⟩

/-- `LRUlist_`, each node with its address, and `LRUhash_`. -/
structure NodeReplacer (κ : Type) where
  lruList : List (Nat × κ)
  lruHash : κ → Option Nat

namespace NodeReplacer

variable {κ : Type} [DecidableEq κ] (s : NodeReplacer κ) (A : NodeAllocator)

/-- The constructor. -/
def init : NodeReplacer κ := ⟨[], fun _ => none⟩

/-- `LRUlist_.erase(iter)`. The iterator has to be that of a node of the list. -/
def eraseNode (iter : Nat) : Option (List (Nat × κ)) :=
  if s.lruList.any (·.1 = iter) then some (s.lruList.eraseP (·.1 = iter)) else none

def victim : Option (κ × NodeReplacer κ) :=
  match s.lruList.getLast? with
  | some (_, f) => some (f, ⟨s.lruList.dropLast, Function.update s.lruHash f none⟩)
  | none => none

def pin (f : κ) : Option (NodeReplacer κ) :=
  match s.lruHash f with
  | some iter =>
    (s.eraseNode iter).map fun list => ⟨list, Function.update s.lruHash f none⟩
  | none => some s

def unpin (f : κ) : NodeReplacer κ :=
  match s.lruHash f with
  | some _ => s
  | none =>
    let begin := A.allocate (s.lruList.map Prod.fst)
    ⟨(begin, f) :: s.lruList, Function.update s.lruHash f (some begin)⟩

/-- `Size`. -/
def size : Nat := s.lruList.length

end NodeReplacer

-- ---------------------------------------------------------------------------
-- Runs
-- ---------------------------------------------------------------------------

inductive ReplacerCall (κ : Type) where
  | victim
  | pin (f : κ)
  | unpin (f : κ)
  deriving DecidableEq, Repr

variable {κ : Type} [DecidableEq κ]

/-- One call, and what it says about the frames: `unpin` makes a frame evictable, `pin` and an
eviction end that. -/
def ReplacerCall.run (A : NodeAllocator) (past : List (Move κ)) (s : NodeReplacer κ) :
    ReplacerCall κ → Option (List (Move κ) × NodeReplacer κ)
  | .victim =>
    match s.victim with
    | some (f, s) => some (.leave f :: past, s)
    | none => some (past, s)
  | .pin f => (s.pin f).map fun s => (.leave f :: past, s)
  | .unpin f => some (.enter f :: past, s.unpin A f)

/-- Calls one after the other, on a new replacer. -/
def replacerRun (A : NodeAllocator) (calls : List (ReplacerCall κ)) :
    Option (List (Move κ) × NodeReplacer κ) :=
  calls.foldlM (fun (past, s) call => call.run A past s) ([], .init)

-- ---------------------------------------------------------------------------
-- List and hash stay in step
-- ---------------------------------------------------------------------------

/-- The nodes are the evictable frames in order, and the hash has the address of each. -/
structure NodeReplacer.Ok (past : List (Move κ)) (s : NodeReplacer κ) : Prop where
  frames : s.lruList.map Prod.snd = queue past
  addresses : (s.lruList.map Prod.fst).Nodup
  hash : ∀ f a, s.lruHash f = some a ↔ (a, f) ∈ s.lruList

namespace NodeReplacer

variable {s s' : NodeReplacer κ} {past : List (Move κ)} {f g : κ} {a : Nat}

theorem Ok.init : Ok [] (init : NodeReplacer κ) :=
  ⟨rfl, List.nodup_nil, fun _ _ => by simp [NodeReplacer.init]⟩

/-- A frame has an iterator exactly when it is evictable. -/
theorem Ok.hash_eq_none (h : s.Ok past) : s.lruHash f = none ↔ since past f = none := by
  rw [← not_iff_not, ← ne_eq, ← ne_eq, ← mem_queue, ← h.frames, Option.ne_none_iff_exists',
    List.mem_map]
  constructor
  · rintro ⟨a, ha⟩
    exact ⟨(a, f), (h.hash f a).mp ha, rfl⟩
  · rintro ⟨⟨a, g⟩, hmem, rfl⟩
    exact ⟨a, (h.hash g a).mpr hmem⟩

/-- What is left of the nodes when the one at `a` goes. -/
theorem eraseP_map_snd {list : List (Nat × κ)} (haddr : (list.map Prod.fst).Nodup)
    (hframes : (list.map Prod.snd).Nodup) (hmem : (a, f) ∈ list) :
    (list.eraseP (·.1 = a)).map Prod.snd = (list.map Prod.snd).erase f := by
  induction list with
  | nil => contradiction
  | cons node list ih =>
    obtain ⟨b, g⟩ := node
    simp only [List.map_cons, List.nodup_cons] at haddr hframes
    rcases List.mem_cons.mp hmem with heq | htail
    · cases heq
      simp
    · have hb : b ≠ a := by
        rintro rfl
        exact haddr.1 (List.mem_map_of_mem (f := Prod.fst) htail)
      have hg : g ≠ f := by
        rintro rfl
        exact hframes.1 (List.mem_map_of_mem (f := Prod.snd) htail)
      rw [List.eraseP_cons_of_neg (by simpa using hb), List.map_cons, List.map_cons,
        List.erase_cons_tail (by simpa using hg), ih haddr.2 hframes.2 htail]

omit [DecidableEq κ] in
theorem mem_eraseP {list : List (Nat × κ)} (haddr : (list.map Prod.fst).Nodup)
    (hmem : (a, f) ∈ list) {node : Nat × κ} :
    node ∈ list.eraseP (·.1 = a) ↔ node ∈ list ∧ node.1 ≠ a := by
  induction list with
  | nil => contradiction
  | cons first list ih =>
    obtain ⟨b, g⟩ := first
    simp only [List.map_cons, List.nodup_cons] at haddr
    by_cases hb : b = a
    · subst hb
      rw [List.eraseP_cons_of_pos (by simp)]
      have hnot : ∀ node ∈ list, node.1 ≠ b := fun node hnode heq =>
        haddr.1 (heq ▸ List.mem_map_of_mem (f := Prod.fst) hnode)
      constructor
      · intro hnode
        exact ⟨List.mem_cons_of_mem _ hnode, hnot node hnode⟩
      · rintro ⟨hnode, hne⟩
        rcases List.mem_cons.mp hnode with rfl | htail
        · exact absurd rfl hne
        · exact htail
    · have htail : (a, f) ∈ list := by
        rcases List.mem_cons.mp hmem with heq | htail
        · cases heq
          exact absurd rfl hb
        · exact htail
      rw [List.eraseP_cons_of_neg (by simpa using hb), List.mem_cons, ih haddr.2 htail,
        List.mem_cons]
      constructor
      · rintro (rfl | ⟨hnode, hne⟩)
        · exact ⟨.inl rfl, hb⟩
        · exact ⟨.inr hnode, hne⟩
      · rintro ⟨rfl | hnode, hne⟩
        · exact .inl rfl
        · exact .inr ⟨hnode, hne⟩

/-- The node of a frame and its entry go together. -/
theorem Ok.remove (h : s.Ok past) (hmem : (a, f) ∈ s.lruList) :
    Ok (.leave f :: past) ⟨s.lruList.eraseP (·.1 = a), Function.update s.lruHash f none⟩ := by
  have hframes : (s.lruList.map Prod.snd).Nodup := h.frames ▸ nodup_queue past
  refine ⟨?_, h.addresses.sublist (List.eraseP_sublist.map _), fun g b => ?_⟩
  · rw [eraseP_map_snd h.addresses hframes hmem, h.frames]
    rfl
  · rw [mem_eraseP h.addresses hmem]
    dsimp only
    by_cases hg : g = f
    · subst hg
      rw [Function.update_self]
      constructor
      · intro hnone
        contradiction
      · rintro ⟨hnode, hne⟩
        have hb := (h.hash g b).mpr hnode
        rw [(h.hash g a).mpr hmem, Option.some.injEq] at hb
        exact absurd hb.symm hne
    · rw [Function.update_of_ne hg, h.hash g b, iff_self_and]
      intro hnode heq
      -- Two nodes at one address are one node.
      have hsame := List.inj_on_of_nodup_map h.addresses hnode hmem heq
      exact hg (congrArg Prod.snd hsame)

theorem Ok.victim (h : s.Ok past) (hv : s.victim = some (f, s')) :
    Ok (.leave f :: past) s' ∧ (queue past).getLast? = some f := by
  unfold NodeReplacer.victim at hv
  cases hlast : s.lruList.getLast? with
  | none =>
    rw [hlast] at hv
    contradiction
  | some node =>
    obtain ⟨a, g⟩ := node
    rw [hlast] at hv
    cases hv
    obtain ⟨front, hfront⟩ := List.getLast?_eq_some_iff.mp hlast
    have hmem : (a, f) ∈ s.lruList := by simp [hfront]
    have hnot : ∀ node ∈ front, ¬ decide (node.1 = a) = true := by
      have haddr := h.addresses
      rw [hfront, List.map_append] at haddr
      intro node hnode heq
      have hdisjoint := List.disjoint_of_nodup_append haddr
      exact hdisjoint (List.mem_map_of_mem (f := Prod.fst) hnode) (by simpa using heq)
    have hdrop : s.lruList.dropLast = s.lruList.eraseP (·.1 = a) := by
      rw [hfront, List.dropLast_concat, List.eraseP_append_right _ hnot]
      simp
    refine ⟨?_, ?_⟩
    · rw [hdrop]
      exact h.remove hmem
    · rw [← h.frames, List.getLast?_map, hlast]
      rfl

theorem Ok.victim_eq_none (h : s.Ok past) : s.victim = none ↔ ∀ f, since past f = none := by
  rw [← getLast?_queue_eq_none, ← h.frames, List.getLast?_map]
  unfold NodeReplacer.victim
  cases s.lruList.getLast? with
  | none => simp
  | some node => simp

/-- Pinning a frame that is not evictable changes nothing. -/
theorem Ok.pin_of_none (h : s.Ok past) (hf : since past f = none) : s.pin f = some s := by
  unfold NodeReplacer.pin
  rw [h.hash_eq_none.mpr hf]

theorem queue_leave_of_none (hf : since past f = none) : queue (.leave f :: past) = queue past :=
  List.erase_of_not_mem fun hmem => mem_queue.mp hmem hf

theorem Ok.pin (h : s.Ok past) (f : κ) : ∃ s', s.pin f = some s' ∧ Ok (.leave f :: past) s' := by
  cases hf : s.lruHash f with
  | none =>
    have hsince := h.hash_eq_none.mp hf
    refine ⟨s, h.pin_of_none hsince, ?_, h.addresses, h.hash⟩
    rw [queue_leave_of_none hsince, h.frames]
  | some a =>
    have hmem := (h.hash f a).mp hf
    refine ⟨_, ?_, h.remove hmem⟩
    have hany : s.lruList.any (·.1 = a) = true := List.any_eq_true.mpr ⟨(a, f), hmem, by simp⟩
    simp only [NodeReplacer.pin, hf, eraseNode, hany, if_true, Option.map_some]

/-- Unpinning a frame that is evictable changes nothing. -/
theorem Ok.unpin_of_ne_none (h : s.Ok past) (hf : since past f ≠ none) (A : NodeAllocator) :
    s.unpin A f = s := by
  obtain ⟨a, ha⟩ := Option.ne_none_iff_exists'.mp (h.hash_eq_none.not.mpr hf)
  unfold NodeReplacer.unpin
  rw [ha]

theorem Ok.unpin_of_none (h : s.Ok past) (hf : since past f = none) (A : NodeAllocator) :
    s.unpin A f = ⟨(A.allocate (s.lruList.map Prod.fst), f) :: s.lruList,
      Function.update s.lruHash f (some (A.allocate (s.lruList.map Prod.fst)))⟩ := by
  unfold NodeReplacer.unpin
  rw [h.hash_eq_none.mpr hf]

theorem Ok.unpin (h : s.Ok past) (A : NodeAllocator) (f : κ) : Ok (.enter f :: past) (s.unpin A f) := by
  cases hf : since past f with
  | some n =>
    have hne : since past f ≠ none := by simp [hf]
    rw [h.unpin_of_ne_none hne]
    refine ⟨?_, h.addresses, h.hash⟩
    rw [h.frames, queue, if_pos (mem_queue.mpr hne)]
  | none =>
    have hnot : f ∉ queue past := fun hmem => mem_queue.mp hmem hf
    have hfresh := A.fresh (s.lruList.map Prod.fst)
    rw [h.unpin_of_none hf]
    refine ⟨?_, List.nodup_cons.mpr ⟨hfresh, h.addresses⟩, fun g a => ?_⟩
    · rw [queue, if_neg hnot, ← h.frames]
      rfl
    · dsimp only
      by_cases hg : g = f
      · subst hg
        rw [Function.update_self, List.mem_cons, Option.some.injEq, Prod.mk.injEq]
        constructor
        · intro heq
          exact .inl ⟨heq.symm, rfl⟩
        · rintro (⟨heq, -⟩ | hnode)
          · exact heq.symm
          · have hin := List.mem_map_of_mem (f := Prod.snd) hnode
            rw [h.frames] at hin
            exact absurd hin hnot
      · rw [Function.update_of_ne hg, h.hash g a, List.mem_cons, Prod.mk.injEq]
        constructor
        · exact .inr
        · rintro (⟨-, heq⟩ | hnode)
          · exact absurd heq hg
          · exact hnode

theorem Ok.size (h : s.Ok past) : s.size = Set.ncard {f | since past f ≠ none} := by
  have hset : {f | since past f ≠ none} = (queue past).toFinset := by
    ext f
    simp [mem_queue]
  rw [hset, Set.ncard_coe_finset, List.toFinset_card_of_nodup (nodup_queue past), ← h.frames,
    List.length_map]
  rfl

end NodeReplacer

-- ---------------------------------------------------------------------------
-- The order
-- ---------------------------------------------------------------------------

theorem ReplacerCall.run_ok {A : NodeAllocator} {past : List (Move κ)} {s : NodeReplacer κ}
    (h : s.Ok past) (call : ReplacerCall κ) :
    ∃ past' s', call.run A past s = some (past', s') ∧ s'.Ok past' := by
  cases call with
  | victim =>
    unfold ReplacerCall.run
    cases hv : s.victim with
    | none => exact ⟨past, s, rfl, h⟩
    | some out =>
      obtain ⟨f, s'⟩ := out
      exact ⟨_, s', rfl, (h.victim hv).1⟩
  | pin f =>
    obtain ⟨s', hpin, hok⟩ := h.pin f
    refine ⟨_, s', ?_, hok⟩
    simp only [ReplacerCall.run, hpin, Option.map_some]
  | unpin f => exact ⟨_, _, rfl, h.unpin A f⟩

theorem replacerRun_ok (A : NodeAllocator) (calls : List (ReplacerCall κ)) :
    ∃ past s, replacerRun A calls = some (past, s) ∧ s.Ok past := by
  induction calls using List.reverseRecOn with
  | nil => exact ⟨[], .init, rfl, .init⟩
  | append_singleton calls call ih =>
    obtain ⟨past, s, hrun, hok⟩ := ih
    obtain ⟨past', s', hcall, hok'⟩ := call.run_ok (A := A) hok
    refine ⟨past', s', ?_, hok'⟩
    unfold replacerRun at hrun ⊢
    rw [List.foldlM_append, hrun]
    simp [hcall]

/-- Whatever was called, the replacer gives out the frame that became evictable first and has
neither been pinned nor evicted since, and none when there is no such frame. -/
theorem replacer_lru (A : NodeAllocator) (calls : List (ReplacerCall κ)) :
    ∃ past s, replacerRun A calls = some (past, s) ∧
      (s.victim = none ↔ ∀ f, since past f = none) ∧
      (∀ f s', s.victim = some (f, s') →
        (∃ n, since past f = some n ∧ ∀ g m, g ≠ f → since past g = some m → n < m) ∧
        replacerRun A (calls ++ [.victim]) = some (.leave f :: past, s')) ∧
      (∀ f, since past f ≠ none → s.unpin A f = s) ∧
      (∀ f, since past f = none → s.pin f = some s) ∧
      s.size = Set.ncard {f | since past f ≠ none} := by
  obtain ⟨past, s, hrun, hok⟩ := replacerRun_ok A calls
  refine ⟨past, s, hrun, hok.victim_eq_none, fun f s' hv => ⟨?_, ?_⟩, fun f hf =>
    hok.unpin_of_ne_none hf A, fun f hf => hok.pin_of_none hf, hok.size⟩
  · exact getLast?_queue (hok.victim hv).2
  · unfold replacerRun at hrun ⊢
    rw [List.foldlM_append, hrun]
    simp [ReplacerCall.run, hv]

-- `LRUReplacerTest`.
example :
    (replacerRun default ([1, 2, 3, 4, 5, 6, 1].map ReplacerCall.unpin ++
        [.victim, .victim, .victim, .pin 3, .pin 4, .unpin 4, .victim, .victim, .victim])).map
      (fun (past, s) => (past.take 6, s.size)) =
    some ([.leave 4, .leave 6, .leave 5, .enter 4, .leave 4, .leave 3], 0) := by
  decide

-- ---------------------------------------------------------------------------
-- The replacer of the pool
-- ---------------------------------------------------------------------------

namespace NodeReplacer

variable {s : NodeReplacer FrameId} {past : List (Move FrameId)}

/-- The replacer without its nodes. -/
def forget (s : NodeReplacer FrameId) : LRUReplacer :=
  ⟨s.lruList.map Prod.snd, fun f => (s.lruHash f).isSome⟩

/-- The replacer that the pool starts with. -/
theorem forget_init (poolSize : Nat) (fds : FrameId → Int) (disk : DiskManager) :
    forget init = (BufferPoolManager.init poolSize fds disk).replacer :=
  rfl

theorem forget_update (list : List (Nat × FrameId)) (f : FrameId) (entry : Option Nat) :
    forget ⟨list, Function.update s.lruHash f entry⟩ =
      ⟨list.map Prod.snd, Function.update s.forget.hash f entry.isSome⟩ := by
  unfold forget
  congr 1
  funext g
  by_cases hg : g = f
  · subst hg
    simp
  · simp [hg]

theorem Ok.forget (h : s.Ok past) : s.forget.Ok where
  nodup := by
    unfold NodeReplacer.forget
    rw [h.frames]
    exact nodup_queue past
  hash f := by
    unfold NodeReplacer.forget
    rw [h.frames, mem_queue, Option.isSome_iff_ne_none, ne_eq, ne_eq, h.hash_eq_none]

theorem forget_victim (s : NodeReplacer FrameId) :
    s.forget.victim = s.victim.map fun (f, s') => (f, s'.forget) := by
  unfold LRUReplacer.victim NodeReplacer.victim
  cases hlast : s.lruList.getLast? with
  | none => simp [forget, hlast]
  | some node =>
    simp only [Option.map_some, forget_update]
    simp [forget, hlast, List.map_dropLast]

theorem Ok.forget_pin (h : s.Ok past) (f : FrameId) :
    (s.pin f).map NodeReplacer.forget = some (s.forget.pin f) := by
  unfold NodeReplacer.pin LRUReplacer.pin
  cases hf : s.lruHash f with
  | none =>
    have hfalse : s.forget.hash f = false := by simp [NodeReplacer.forget, hf]
    simp [hfalse]
  | some a =>
    have htrue : s.forget.hash f = true := by simp [NodeReplacer.forget, hf]
    have hmem := (h.hash f a).mp hf
    have hany : s.lruList.any (·.1 = a) = true := List.any_eq_true.mpr ⟨(a, f), hmem, by simp⟩
    have hframes : (s.lruList.map Prod.snd).Nodup := h.frames ▸ nodup_queue past
    simp only [eraseNode, hany, if_true, Option.map_some, forget_update, htrue,
      eraseP_map_snd h.addresses hframes hmem]
    rfl

theorem forget_unpin (s : NodeReplacer FrameId) (A : NodeAllocator) (f : FrameId) :
    (s.unpin A f).forget = s.forget.unpin f := by
  unfold NodeReplacer.unpin LRUReplacer.unpin
  cases hf : s.lruHash f with
  | some a =>
    have htrue : s.forget.hash f = true := by simp [forget, hf]
    simp [htrue]
  | none =>
    have hfalse : s.forget.hash f = false := by simp [forget, hf]
    simp only [forget_update, hfalse]
    rfl

end NodeReplacer

end Rmdb
