import FluxCache.Foundation.Search
import FluxCache.Foundation.Memory
import FluxCache.Store.MapStore

/-!
# The B+ tree store

The nodes of the tree live in a memory and refer to each other by pointers, as in the code: a node
has its keys, its children, its values and the next leaf, and is a leaf exactly when its slice of
values is not nil. `Set` descends to a leaf, inserts there and splits a leaf that has reached
`bpOrder` keys. A split hands a key and a new right sibling to `insertIntoParent`, which looks for
the parent of the left node by a search from the root and may split that parent in turn
(`splitInternal`), up to a new root. `Del` removes an entry from its leaf and never merges nodes.

A call runs under the store's mutex from its first to its last statement, so a state of the store
is the state between two calls. Every slice is owned by one node: a split copies the right half
into the slices of the new node, so lists model the slices.
-/

set_option autoImplicit false
set_option relaxedAutoImplicit false

namespace FluxCache.Store

open FluxCache.Foundation

/-- The number of keys at which a node is split. -/
def bpOrder : ℕ := 32

/-- A node of the tree; `values` is nil in an internal node. -/
structure BpNode where
  keys : List GoString
  children : List Pointer
  values : Option (List GoString)
  next : Option Pointer

namespace BpNode

/-- `newLeaf`: a leaf without entries. -/
def newLeaf : BpNode := ⟨[], [], some [], none⟩

/-- `newInternal`: an internal node without keys and children. -/
def newInternal : BpNode := ⟨[], [], none, none⟩

/-- `isLeaf`. -/
def isLeaf (n : BpNode) : Bool := n.values.isSome

end BpNode

/-- The store: its nodes, the root and the hashes. -/
structure BPTreeStore where
  heap : Memory BpNode
  root : Pointer
  hashes : Hashes

namespace BPTreeStore

/-- `NewBPTreeStore`: the root is an empty leaf. -/
def new : BPTreeStore where
  heap := (⟨fun _ ↦ .newInternal, 0⟩ : Memory BpNode).alloc .newLeaf
  root := 0
  hashes := ∅

/-- The loop of `searchLeaf`: from `n` follow the child before the first separator above the
key. -/
def searchLeafFrom (heap : Memory BpNode) (key : GoString) : ℕ → Pointer → Outcome Pointer
  | 0, _ => .error .exhausted
  | steps + 1, n =>
    if (heap.cell n).isLeaf then .ok n
    else do
      let child ← index (heap.cell n).children
        (searchSlice (fun k ↦ decide (key < k)) (heap.cell n).keys)
      searchLeafFrom heap key steps child

/-- `searchLeaf`. A descent meets every node at most once, so it takes fewer steps than there are
nodes. -/
def searchLeaf (s : BPTreeStore) (key : GoString) : Outcome Pointer :=
  searchLeafFrom s.heap key s.heap.used s.root

/-- The position of a key in a leaf: the index of the first key that is not below it. -/
def position (n : BpNode) (key : GoString) : ℕ :=
  searchSlice (fun k ↦ decide (key ≤ k)) n.keys

/-- `Get`. -/
def get (s : BPTreeStore) (key : GoString) : Outcome (GoString × Bool) := do
  let leaf ← s.searchLeaf key
  let n := s.heap.cell leaf
  if n.keys[position n key]? = some key then do
    let value ← index (n.values.getD []) (position n key)
    pure (value, true)
  else pure ([], false)

/-- `Del`. -/
def del (s : BPTreeStore) (key : GoString) : Outcome BPTreeStore := do
  let leaf ← s.searchLeaf key
  let n := s.heap.cell leaf
  let idx := position n key
  let heap :=
    if n.keys[idx]? = some key then
      s.heap.write leaf { n with
        keys := n.keys.take idx ++ n.keys.drop (idx + 1)
        values := n.values.map fun values ↦ values.take idx ++ values.drop (idx + 1) }
    else s.heap
  pure { s with heap := heap, hashes := s.hashes.erase key }

/-- `findParent`: a depth-first search below `n` for a node with the child `target`, and the index
of that child; nil when there is none. -/
def findParent (heap : Memory BpNode) (target : Pointer) :
    ℕ → Pointer → Outcome (Option (Pointer × ℕ))
  | 0, _ => .error .exhausted
  | steps + 1, n =>
    if (heap.cell n).isLeaf then .ok none
    else (heap.cell n).children.zipIdx.findSomeM? fun child ↦
      if child.1 = target then .ok (some (n, child.2))
      else if (heap.cell child.1).isLeaf then .ok none
      else findParent heap target steps child.1

/-- The new root over two nodes. -/
def growRoot (s : BPTreeStore) (left : Pointer) (key : GoString) (right : Pointer) :
    BPTreeStore :=
  { s with
    heap := s.heap.alloc { BpNode.newInternal with keys := [key], children := [left, right] }
    root := s.heap.used }

/-- The parent of `left`, with the key and the node `right` inserted after `left`. A missing parent
is a nil dereference. -/
def linkIntoParent (s : BPTreeStore) (left : Pointer) (key : GoString) (right : Pointer) :
    Outcome (BPTreeStore × Pointer) := do
  match ← findParent s.heap left s.heap.used s.root with
  | none => .error .nilDereference
  | some (parent, childIdx) =>
    let n := s.heap.cell parent
    let keys ← insertAt n.keys childIdx key
    let children ← insertAt n.children (childIdx + 1) right
    pure ({ s with heap := s.heap.write parent { n with keys := keys, children := children } },
      parent)

/-- `splitInternal`: the upper half of the node moves to a new node and the middle key to the
parent, which is split in turn when it has become full. -/
def splitInternal : ℕ → BPTreeStore → Pointer → Outcome BPTreeStore
  | 0, _, _ => .error .exhausted
  | steps + 1, s, n => do
    let mid := bpOrder / 2
    let node := s.heap.cell n
    let promoteKey ← index node.keys mid
    let newNode := s.heap.used
    let heap := (s.heap.alloc { BpNode.newInternal with
      keys := node.keys.drop (mid + 1)
      children := node.children.drop (mid + 1) }).write n { node with
        keys := node.keys.take mid
        children := node.children.take (mid + 1) }
    let s := { s with heap := heap }
    if s.root = n then pure (s.growRoot n promoteKey newNode)
    else do
      let (s, parent) ← s.linkIntoParent n promoteKey newNode
      if bpOrder ≤ (s.heap.cell parent).keys.length then splitInternal steps s parent
      else pure s

/-- `insertIntoParent`: the node `right` becomes the sibling after `left`, separated by `key`. -/
def insertIntoParent (s : BPTreeStore) (left : Pointer) (key : GoString) (right : Pointer) :
    Outcome BPTreeStore :=
  if s.root = left then pure (s.growRoot left key right)
  else do
    let (s, parent) ← s.linkIntoParent left key right
    if (s.heap.cell parent).keys.length < bpOrder then pure s
    else splitInternal s.heap.used s parent

/-- `split`: the upper half of a full leaf moves to a new leaf, linked after it. -/
def split (s : BPTreeStore) (leaf : Pointer) : Outcome BPTreeStore := do
  let mid := bpOrder / 2
  let node := s.heap.cell leaf
  let newLeaf := s.heap.used
  let heap := (s.heap.alloc { BpNode.newLeaf with
    keys := node.keys.drop mid
    values := node.values.map (List.drop mid)
    next := node.next }).write leaf { node with
      keys := node.keys.take mid
      values := node.values.map (List.take mid)
      next := some newLeaf }
  let promoteKey ← index (node.keys.drop mid) 0
  insertIntoParent { s with heap := heap } leaf promoteKey newLeaf

/-- `Set`. -/
def set (s : BPTreeStore) (key value : GoString) : Outcome BPTreeStore := do
  let leaf ← s.searchLeaf key
  let n := s.heap.cell leaf
  let idx := position n key
  if n.keys[idx]? = some key then
    pure { s with heap := s.heap.write leaf { n with
      values := n.values.map fun values ↦ values.set idx value } }
  else do
    let keys ← insertAt n.keys idx key
    let values ← insertAt (n.values.getD []) idx value
    let s := { s with heap := s.heap.write leaf { n with keys := keys, values := some values } }
    if keys.length < bpOrder then pure s else s.split leaf

/-- `HSet`. -/
def hset (s : BPTreeStore) (hash key value : GoString) : BPTreeStore :=
  { s with hashes := hashSet s.hashes hash key value }

/-- `HGet`. -/
def hget (s : BPTreeStore) (hash key : GoString) : GoString × Bool :=
  hashGet s.hashes hash key

/-- `HGetAll`. -/
def hgetAll (s : BPTreeStore) (hash : GoString) : Option (GoMap GoString) :=
  hashGetAll s.hashes hash

/-- One call of `Set` or `Del`. -/
def step (s : BPTreeStore) : StringOp → Outcome BPTreeStore
  | .set key value => s.set key value
  | .del key => s.del key

/-- A sequence of calls of `Set` and `Del`, one after another. -/
def run (s : BPTreeStore) : List StringOp → Outcome BPTreeStore
  | [] => .ok s
  | op :: ops => do
    let s ← s.step op
    s.run ops

end BPTreeStore

end FluxCache.Store
