-- SUMMARY: The page-level B+ tree of `IxNodeHandle` and `IxIndexHandle`: search, insertion and deletion.
import Mathlib.Logic.Function.Basic
import Rmdb.Index.Key
import Rmdb.Lib.BinarySearch

/-!
# The B+ tree of an index

The tree lives in the pages of the index file. A node knows its parent and its
two neighbours on the same level, and the code moves between nodes only through
these page numbers. The model keeps the pages in a map from page numbers to
nodes; a node handle of the source is a page number here, so that two handles on
one page see the same contents.

A page holds arrays of keys and rids of which the first `num_key` are in use (in
an internal node one rid more than keys). The lists of the model are these parts
in use.

Loops that follow page numbers, and the recursion to the parent, run on fuel. The
number of pages of the file is always enough, which the proofs show.
-/

namespace Rmdb

/-- What makes an operation on the index stop. Only `indexEntryNotUnique` is an
exception of the source. The other three never occur on a well-formed tree. -/
inductive IxError where
  | indexEntryNotUnique
  /-- A page that is not in the file is fetched. -/
  | pageNotExist
  /-- An `assert` fails, or an array is read past the part in use. -/
  | assertion
  | outOfFuel
  deriving DecidableEq, Repr

/-- The contents of a page: `IxPageHdr`, the keys, and the rids. -/
structure IxNode (K : Type) where
  nextFreePageNo : PageNo
  parent : PageNo
  isLeaf : Bool
  prevLeaf : PageNo
  nextLeaf : PageNo
  keys : List K
  rids : List Rid
  deriving DecidableEq

/-- The index file: the fields of `IxFileHdr` that change, the next page number the
disk manager allocates for the file, and the pages. -/
structure IxIndexHandle (K : Type) where
  firstFreePageNo : PageNo
  numPages : Int
  rootPage : PageNo
  btreeOrder : Nat
  firstLeaf : PageNo
  lastLeaf : PageNo
  fd2pageno : PageNo
  pages : PageNo → Option (IxNode K)

/-- An array read; `get_key(i)` and `get_rid(i)` inside the part in use. -/
def arrayGet {α : Type} (l : List α) (i : Nat) : Except IxError α :=
  match l[i]? with
  | some a => .ok a
  | none => .error .assertion

/-- The entries from `i` on move one place to the right, and `x` goes to place `i`. -/
def insertAt {α : Type} (l : List α) (i : Nat) (x : α) : List α :=
  l.take i ++ x :: l.drop i

def ixAssert (c : Bool) : Except IxError Unit :=
  if c then .ok () else .error .assertion

variable {K : Type} [IxKey K]

-- ---------------------------------------------------------------------------
-- Nodes
-- ---------------------------------------------------------------------------

namespace IxNode

def getSize (n : IxNode K) : Nat := n.keys.length

def isRootPage (n : IxNode K) : Bool := n.parent == noPage

def getMaxKeySize (order : Nat) (n : IxNode K) : Nat :=
  if n.isLeaf then order else order - 1

def getMinKeySize (order : Nat) (n : IxNode K) : Nat :=
  if n.isLeaf then (order + 1) / 2 else (order + 1) / 2 - 1

/-- The first slot whose key is `>= target` on the first `pre` columns. -/
def lowerBound (n : IxNode K) (target : K) (pre : Nat) : Nat :=
  BinarySearch.searchList (fun k => decide (ixCompare k target pre < 0)) n.keys

/-- The first slot whose key is `> target` on the first `pre` columns. -/
def upperBound (n : IxNode K) (target : K) (pre : Nat) : Nat :=
  BinarySearch.searchList (fun k => decide (ixCompare k target pre ≤ 0)) n.keys

/-- The page of the child whose subtree may hold the key. -/
def internalLookup (n : IxNode K) (key : K) (pre : Nat) : Except IxError PageNo := do
  let rid ← arrayGet n.rids (n.upperBound key pre)
  return rid.pageNo

def insertPair (n : IxNode K) (pos : Nat) (key : K) (rid : Rid) : IxNode K :=
  { n with keys := insertAt n.keys pos key, rids := insertAt n.rids pos rid }

/-- Insertion into a leaf, which refuses a key that is already there. -/
def insert (n : IxNode K) (key : K) (value : Rid) : Except IxError (IxNode K) :=
  let keyIdx := n.lowerBound key 0
  match n.keys[keyIdx]? with
  | none => .ok (n.insertPair keyIdx key value)
  | some k =>
    if ixCompare k key 0 > 0 then .ok (n.insertPair keyIdx key value)
    else .error .indexEntryNotUnique

def erasePair (n : IxNode K) (pos : Nat) : IxNode K :=
  { n with keys := n.keys.eraseIdx pos, rids := n.rids.eraseIdx pos }

/-- The loop of `remove`, from the slot `keyIdx` on. -/
def removeLoop : Nat → IxNode K → K → Nat → IxNode K
  | 0, n, _, _ => n
  | fuel + 1, n, key, keyIdx =>
    match n.keys[keyIdx]? with
    | none => n
    | some k =>
      if ixCompare k key 0 = 0 then removeLoop fuel (n.erasePair keyIdx) key (keyIdx + 1) else n

def remove (n : IxNode K) (key : K) : IxNode K :=
  removeLoop n.getSize n key (n.lowerBound key 0)

/-- The position of a child in its parent. -/
def findChild (n : IxNode K) (child : PageNo) : Except IxError Nat :=
  let ridIdx := n.rids.findIdx (fun rid => rid.pageNo == child)
  if ridIdx < n.rids.length then .ok ridIdx else .error .assertion

end IxNode

-- ---------------------------------------------------------------------------
-- Pages
-- ---------------------------------------------------------------------------

namespace IxIndexHandle

def fuel (h : IxIndexHandle K) : Nat := h.numPages.toNat

def fetchNode (h : IxIndexHandle K) (p : PageNo) : Except IxError (IxNode K) :=
  match h.pages p with
  | some n => .ok n
  | none => .error .pageNotExist

def setNode (h : IxIndexHandle K) (p : PageNo) (n : IxNode K) : IxIndexHandle K :=
  { h with pages := Function.update h.pages p (some n) }

def deletePage (h : IxIndexHandle K) (p : PageNo) : IxIndexHandle K :=
  { h with pages := Function.update h.pages p none }

/-- Fetch a page, change it, and release it. -/
def modifyNode (h : IxIndexHandle K) (p : PageNo) (f : IxNode K → IxNode K) :
    Except IxError (IxIndexHandle K) := do
  let n ← h.fetchNode p
  return h.setNode p (f n)

def setParentPageNo (h : IxIndexHandle K) (p parent : PageNo) : Except IxError (IxIndexHandle K) :=
  h.modifyNode p fun n => { n with parent := parent }

def setPrevLeaf (h : IxIndexHandle K) (p prev : PageNo) : Except IxError (IxIndexHandle K) :=
  h.modifyNode p fun n => { n with prevLeaf := prev }

def setNextLeaf (h : IxIndexHandle K) (p next : PageNo) : Except IxError (IxIndexHandle K) :=
  h.modifyNode p fun n => { n with nextLeaf := next }

/-- The node to the right, if there is one, gets `prev` as its left neighbour. Otherwise
`prev` is the last one of its level, which the header keeps for the leaves. -/
def setPrevOfNext (h : IxIndexHandle K) (isLeaf : Bool) (next prev : PageNo) :
    Except IxError (IxIndexHandle K) :=
  if next ≠ noPage then h.setPrevLeaf next prev
  else if isLeaf then .ok { h with lastLeaf := prev }
  else .ok h

/-- The page of a new node: the first page of the free chain, or a page that the
disk manager allocates. The caller fills the page. -/
def createNode (h : IxIndexHandle K) : Except IxError (PageNo × IxIndexHandle K) := do
  let h := { h with numPages := h.numPages + 1 }
  if h.firstFreePageNo ≠ noPage then
    let n ← h.fetchNode h.firstFreePageNo
    return (h.firstFreePageNo, { h with firstFreePageNo := n.nextFreePageNo })
  else
    return (h.fd2pageno, { h with fd2pageno := h.fd2pageno + 1 })

-- ---------------------------------------------------------------------------
-- Search
-- ---------------------------------------------------------------------------

def findLeafPageLoop : Nat → IxIndexHandle K → K → PageNo → Except IxError PageNo
  | 0, _, _, _ => .error .outOfFuel
  | fuel + 1, h, key, p => do
    let n ← h.fetchNode p
    if n.isLeaf then
      return p
    else
      let child ← n.internalLookup key 0
      findLeafPageLoop fuel h key child

/-- The leaf that a key is routed to. -/
def findLeafPage (h : IxIndexHandle K) (key : K) : Except IxError PageNo :=
  findLeafPageLoop h.fuel h key h.rootPage

def isExist (h : IxIndexHandle K) (key : K) : Except IxError Bool := do
  let p ← h.findLeafPage key
  let leaf ← h.fetchNode p
  match leaf.keys[leaf.lowerBound key 0]? with
  | none => return false
  | some k => return ixCompare key k 0 == 0

/-- The loop of `get_value` over the slots that hold the key. -/
def getValueLoop : Nat → IxNode K → K → Nat → List Rid
  | 0, _, _, _ => []
  | fuel + 1, n, key, keyIdx =>
    match n.keys[keyIdx]?, n.rids[keyIdx]? with
    | some k, some rid =>
      if ixCompare key k 0 = 0 then rid :: getValueLoop fuel n key (keyIdx + 1) else []
    | _, _ => []

def getValue (h : IxIndexHandle K) (key : K) : Except IxError (List Rid) := do
  let p ← h.findLeafPage key
  let leaf ← h.fetchNode p
  return getValueLoop leaf.getSize leaf key (leaf.lowerBound key 0)

def getMinLeafnodeLoop : Nat → IxIndexHandle K → PageNo → Except IxError PageNo
  | 0, _, _ => .error .outOfFuel
  | fuel + 1, h, p => do
    let n ← h.fetchNode p
    if n.isLeaf then
      return p
    else
      let rid ← arrayGet n.rids 0
      getMinLeafnodeLoop fuel h rid.pageNo

/-- The leftmost leaf below a node. -/
def getMinLeafnode (h : IxIndexHandle K) (p : PageNo) : Except IxError PageNo :=
  getMinLeafnodeLoop h.fuel h p

/-- `get_min_leafnode(p)->get_key(0)`. -/
def minKey (h : IxIndexHandle K) (p : PageNo) : Except IxError K := do
  let leaf ← h.getMinLeafnode p
  let n ← h.fetchNode leaf
  arrayGet n.keys 0

-- ---------------------------------------------------------------------------
-- Repair of parent pointers and separators
-- ---------------------------------------------------------------------------

/-- Make the node the parent of its child number `childIdx`. -/
def maintainChild (h : IxIndexHandle K) (p : PageNo) (childIdx : Nat) :
    Except IxError (IxIndexHandle K) := do
  let n ← h.fetchNode p
  if n.isLeaf then
    return h
  else
    let rid ← arrayGet n.rids childIdx
    h.setParentPageNo rid.pageNo p

/-- `maintain_child` for `count` children from number `start` on. -/
def maintainChildren (p : PageNo) : Nat → Nat → IxIndexHandle K → Except IxError (IxIndexHandle K)
  | _, 0, h => .ok h
  | start, count + 1, h => do
    let h ← h.maintainChild p start
    maintainChildren p (start + 1) count h

def maintainParentLoop : Nat → IxIndexHandle K → K → PageNo → PageNo →
    Except IxError (IxIndexHandle K)
  | 0, _, _, _, _ => .error .outOfFuel
  | fuel + 1, h, key, curr, parentNo => do
    if parentNo = noPage then
      return h
    else
      let parent ← h.fetchNode parentNo
      let rank ← parent.findChild curr
      if rank > 0 then
        return h.setNode parentNo { parent with keys := parent.keys.set (rank - 1) key }
      else
        maintainParentLoop fuel h key parentNo parent.parent

/-- Go up to the first ancestor in which the path is not the leftmost child, and
set the separator there to the smallest key below the node. -/
def maintainParent (h : IxIndexHandle K) (p : PageNo) : Except IxError (IxIndexHandle K) := do
  let n ← h.fetchNode p
  ixAssert (n.parent != noPage)
  let key ← h.minKey p
  maintainParentLoop h.fuel h key p n.parent

-- ---------------------------------------------------------------------------
-- Insertion
-- ---------------------------------------------------------------------------

/-- The first half of `split`: the new right sibling of the node, and the key that
goes up into the parent. The assertion on the size of the node is no code in the build; the
inner nodes of a tree of order 1, whose largest number of keys is 0, do not meet it. -/
def splitNode (h : IxIndexHandle K) (p : PageNo) :
    Except IxError (PageNo × K × IxIndexHandle K) := do
  let node ← h.fetchNode p
  let (q, h) ← h.createNode
  let splitFrom := node.getMinKeySize h.btreeOrder
  let insertUpKey ← arrayGet node.keys splitFrom
  if node.isLeaf then
    let h := h.setNode q
      { nextFreePageNo := noPage, parent := node.parent, isLeaf := true,
        prevLeaf := p, nextLeaf := node.nextLeaf,
        keys := node.keys.drop splitFrom, rids := node.rids.drop splitFrom }
    let h := h.setNode p
      { node with keys := node.keys.take splitFrom, rids := node.rids.take splitFrom }
    let h ← h.setPrevOfNext true node.nextLeaf q
    let h ← h.setNextLeaf p q
    return (q, insertUpKey, h)
  else
    let h := h.setNode q
      { nextFreePageNo := noPage, parent := node.parent, isLeaf := false,
        prevLeaf := p, nextLeaf := node.nextLeaf,
        keys := node.keys.drop (splitFrom + 1), rids := node.rids.drop (splitFrom + 1) }
    let h := h.setNode p
      { node with keys := node.keys.take splitFrom, rids := node.rids.take (splitFrom + 1) }
    let h ← h.setPrevOfNext false node.nextLeaf q
    let h ← h.setNextLeaf p q
    let h ← maintainChildren q 0 (node.getSize - splitFrom) h
    return (q, insertUpKey, h)

/-- `insert_into_parent`, with the recursive call of `split` as an argument. -/
def insertIntoParentWith (split : IxIndexHandle K → PageNo → Except IxError (PageNo × IxIndexHandle K))
    (h : IxIndexHandle K) (oldNode : PageNo) (key : K) (newNode : PageNo) :
    Except IxError (IxIndexHandle K) := do
  let old ← h.fetchNode oldNode
  if old.isRootPage then
    let (r, h) ← h.createNode
    let h := h.setNode r
      { nextFreePageNo := noPage, parent := noPage, isLeaf := false,
        prevLeaf := noPage, nextLeaf := noPage,
        keys := [key], rids := [⟨oldNode, 0⟩, ⟨newNode, 0⟩] }
    let h ← h.setParentPageNo oldNode r
    let h ← h.setParentPageNo newNode r
    return { h with rootPage := r }
  else
    let parent ← h.fetchNode old.parent
    let keyIdx := parent.upperBound key 0
    let parent' := { parent with
      keys := insertAt parent.keys keyIdx key
      rids := insertAt parent.rids (keyIdx + 1) ⟨newNode, -1⟩ }
    let h := h.setNode old.parent parent'
    if parent'.getSize > parent'.getMaxKeySize h.btreeOrder then
      let (_, h) ← split h old.parent
      return h
    else
      return h

/-- Cut an overfull node in two and put the new node into the parent. -/
def split : Nat → IxIndexHandle K → PageNo → Except IxError (PageNo × IxIndexHandle K)
  | 0, _, _ => .error .outOfFuel
  | fuel + 1, h, p => do
    let (q, insertUpKey, h) ← h.splitNode p
    let h ← insertIntoParentWith (split fuel) h p insertUpKey q
    return (q, h)

-- ---------------------------------------------------------------------------
-- Redistribution
-- ---------------------------------------------------------------------------

/-- Move the first pair of the right leaf to the end of the left leaf while the
right one has at least two entries more. -/
def leafToLeft : Nat → IxNode K → IxNode K → IxNode K × IxNode K
  | 0, l, r => (l, r)
  | fuel + 1, l, r =>
    if l.getSize + 1 < r.getSize then
      leafToLeft fuel
        { l with keys := l.keys ++ r.keys.take 1, rids := l.rids ++ r.rids.take 1 }
        { r with keys := r.keys.drop 1, rids := r.rids.drop 1 }
    else (l, r)

/-- Move the last pair of the left leaf to the head of the right leaf while the
left one has at least two entries more. -/
def leafToRight : Nat → IxNode K → IxNode K → IxNode K × IxNode K
  | 0, l, r => (l, r)
  | fuel + 1, l, r =>
    if r.getSize + 1 < l.getSize then
      leafToRight fuel
        { l with keys := l.keys.take (l.getSize - 1), rids := l.rids.take (l.getSize - 1) }
        { r with keys := l.keys.drop (l.getSize - 1) ++ r.keys
                 rids := l.rids.drop (l.getSize - 1) ++ r.rids }
    else (l, r)

/-- The first child of the right node becomes the last child of the left node; the
key between them is the smallest key below the right node. -/
def internalToLeft : Nat → IxIndexHandle K → PageNo → PageNo → Except IxError (IxIndexHandle K)
  | 0, _, _, _ => .error .outOfFuel
  | fuel + 1, h, left, right => do
    let l ← h.fetchNode left
    let r ← h.fetchNode right
    if l.getSize + 1 < r.getSize then
      let key ← h.minKey right
      let rid ← arrayGet r.rids 0
      let h := h.setNode left { l with keys := l.keys ++ [key], rids := l.rids ++ [rid] }
      let h := h.setNode right { r with keys := r.keys.drop 1, rids := r.rids.drop 1 }
      let h ← h.maintainChild left (l.getSize + 1)
      internalToLeft fuel h left right
    else
      return h

/-- The last child of the left node becomes the first child of the right node; the
key after it is the smallest key that was below the right node. -/
def internalToRight : Nat → IxIndexHandle K → PageNo → PageNo → Except IxError (IxIndexHandle K)
  | 0, _, _, _ => .error .outOfFuel
  | fuel + 1, h, left, right => do
    let l ← h.fetchNode left
    let r ← h.fetchNode right
    if r.getSize + 1 < l.getSize then
      let key ← h.minKey right
      let rid ← arrayGet l.rids l.getSize
      let h := h.setNode left
        { l with keys := l.keys.take (l.getSize - 1), rids := l.rids.take l.getSize }
      let h := h.setNode right { r with keys := key :: r.keys, rids := rid :: r.rids }
      let h ← h.maintainChild right 0
      internalToRight fuel h left right
    else
      return h

/-- Even out two neighbours of one level. -/
def redistribute (h : IxIndexHandle K) (left right : PageNo) :
    Except IxError (IxIndexHandle K) := do
  let l ← h.fetchNode left
  let r ← h.fetchNode right
  ixAssert (r.getSize + 1 < l.getSize || l.getSize + 1 < r.getSize)
  let h ←
    if l.isLeaf then do
      ixAssert r.isLeaf
      let (l', r') :=
        if l.getSize < r.getSize then leafToLeft r.getSize l r else leafToRight l.getSize l r
      pure ((h.setNode left l').setNode right r')
    else if l.getSize < r.getSize then internalToLeft (r.getSize + 1) h left right
    else internalToRight (l.getSize + 1) h left right
  h.maintainParent right

/-- A neighbour exists and can take an entry of an overfull leaf. -/
def hasRoom (h : IxIndexHandle K) (p : PageNo) : Except IxError Bool := do
  if p = noPage then
    return false
  else
    let n ← h.fetchNode p
    return n.getSize < n.getMaxKeySize h.btreeOrder

/-- Of two neighbours, the one that holds the key after a redistribution or a split. -/
def holderOf (h : IxIndexHandle K) (key : K) (left right : PageNo) : Except IxError PageNo := do
  let r ← h.fetchNode right
  let k ← arrayGet r.keys 0
  return if ixCompare key k 0 ≥ 0 then right else left

/-- Insert a pair; the result is the page that holds it. -/
def insertEntry (h : IxIndexHandle K) (key : K) (value : Rid) :
    Except IxError (PageNo × IxIndexHandle K) := do
  let p ← h.findLeafPage key
  let leaf ← h.fetchNode p
  let leaf ← leaf.insert key value
  let h := h.setNode p leaf
  if leaf.getSize > leaf.getMaxKeySize h.btreeOrder then
    ixAssert (leaf.getSize == leaf.getMaxKeySize h.btreeOrder + 1)
    if ← h.hasRoom leaf.prevLeaf then
      let h ← h.redistribute leaf.prevLeaf p
      return (← h.holderOf key leaf.prevLeaf p, h)
    else if ← h.hasRoom leaf.nextLeaf then
      let h ← h.redistribute p leaf.nextLeaf
      return (← h.holderOf key p leaf.nextLeaf, h)
    else
      let (q, h) ← split h.fuel h p
      return (← h.holderOf key p q, h)
  else
    return (p, h)

-- ---------------------------------------------------------------------------
-- Deletion
-- ---------------------------------------------------------------------------

/-- The root has lost its last key: its only child becomes the root. -/
def adjustRoot (h : IxIndexHandle K) (oldRoot : PageNo) :
    Except IxError (Bool × IxIndexHandle K) := do
  let n ← h.fetchNode oldRoot
  ixAssert (!n.isLeaf)
  ixAssert (n.getSize == 0)
  let rid ← arrayGet n.rids 0
  let h := h.deletePage oldRoot
  let h := { h with rootPage := rid.pageNo }
  let h ← h.setParentPageNo rid.pageNo noPage
  return (true, h)

/-- The first part of `coalesce`: the level list passes over the right node, and
everything in it moves into the left node. -/
def coalesceNodes (h : IxIndexHandle K) (left right : PageNo) :
    Except IxError (IxIndexHandle K) := do
  let l ← h.fetchNode left
  let r ← h.fetchNode right
  if l.isLeaf then
    ixAssert (l.getSize + r.getSize ≤ l.getMaxKeySize h.btreeOrder)
    ixAssert r.isLeaf
    ixAssert (l.nextLeaf == right)
    let h ← h.setNextLeaf left r.nextLeaf
    let h ← h.setPrevOfNext true r.nextLeaf left
    h.modifyNode left fun l => { l with keys := l.keys ++ r.keys, rids := l.rids ++ r.rids }
  else
    ixAssert (l.getSize + r.getSize < l.getMaxKeySize h.btreeOrder)
    let h ← h.setNextLeaf left r.nextLeaf
    let h ← h.setPrevOfNext false r.nextLeaf left
    let key ← h.minKey right
    let h ← h.modifyNode left fun l =>
      { l with keys := l.keys ++ key :: r.keys, rids := l.rids ++ r.rids }
    maintainChildren left (l.getSize + 1) (r.getSize + 1) h

/-- `update_right_parent`, with the recursive call of `coalesce_or_redistribute` as
an argument: the page of the merged right node goes, and its parent forgets it. -/
def updateRightParentWith
    (coalesceOrRedistribute : IxIndexHandle K → PageNo → Except IxError (Bool × IxIndexHandle K))
    (h : IxIndexHandle K) (right : PageNo) : Except IxError (IxIndexHandle K) := do
  let r ← h.fetchNode right
  let parent ← h.fetchNode r.parent
  let childIdx ← parent.findChild right
  let h := h.deletePage right
  let h ←
    if childIdx = 0 then
      (h.setNode r.parent
        { parent with keys := parent.keys.drop 1, rids := parent.rids.drop 1 }).maintainParent r.parent
    else
      pure (h.setNode r.parent
        { parent with keys := parent.keys.eraseIdx (childIdx - 1), rids := parent.rids.eraseIdx childIdx })
  let parent ← h.fetchNode r.parent
  if (parent.isRootPage && parent.getSize == 0) ||
      (!parent.isRootPage && decide (parent.getSize < parent.getMinKeySize h.btreeOrder)) then
    let (_, h) ← coalesceOrRedistribute h r.parent
    return h
  else
    return h

/-- Repair an underfull node with a neighbour of its level, the left one first. The
result says whether the node itself was deleted. -/
def coalesceOrRedistribute : Nat → IxIndexHandle K → PageNo →
    Except IxError (Bool × IxIndexHandle K)
  | 0, _, _ => .error .outOfFuel
  | fuel + 1, h, p => do
    let node ← h.fetchNode p
    if node.isRootPage then
      h.adjustRoot p
    else if node.prevLeaf ≠ noPage then
      let left ← h.fetchNode node.prevLeaf
      if left.getSize > left.getMinKeySize h.btreeOrder then
        let h ← h.redistribute node.prevLeaf p
        return (false, h)
      else
        let h ← h.coalesceNodes node.prevLeaf p
        let h ← updateRightParentWith (coalesceOrRedistribute fuel) h p
        return (true, h)
    else if node.nextLeaf ≠ noPage then
      let right ← h.fetchNode node.nextLeaf
      if right.getSize > right.getMinKeySize h.btreeOrder then
        let h ← h.redistribute p node.nextLeaf
        return (false, h)
      else
        let h ← h.coalesceNodes p node.nextLeaf
        let h ← updateRightParentWith (coalesceOrRedistribute fuel) h node.nextLeaf
        return (false, h)
    else
      .error .assertion

/-- Delete the pair with the key, if there is one. The source returns `false` always. -/
def deleteEntry (h : IxIndexHandle K) (key : K) : Except IxError (IxIndexHandle K) := do
  let p ← h.findLeafPage key
  let leaf ← h.fetchNode p
  let leaf := leaf.remove key
  let h := h.setNode p leaf
  if !leaf.isRootPage && decide (leaf.getSize < leaf.getMinKeySize h.btreeOrder) then
    let (_, h) ← coalesceOrRedistribute h.fuel h p
    return h
  else
    return h

end IxIndexHandle

/-- `IxManager::create_index`: the header page and an empty root leaf on page 1. -/
def IxManager.createIndex (order : Nat) : IxIndexHandle K where
  firstFreePageNo := noPage
  numPages := 2
  rootPage := 1
  btreeOrder := order
  firstLeaf := 1
  lastLeaf := 1
  fd2pageno := 2
  pages := Function.update (fun _ => none) 1 (some
    { nextFreePageNo := noPage, parent := noPage, isLeaf := true,
      prevLeaf := noPage, nextLeaf := noPage, keys := [], rids := [] })

end Rmdb
