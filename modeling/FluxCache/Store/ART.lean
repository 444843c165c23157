import FluxCache.Store.MapStore

/-!
# The adaptive radix tree store

A node of the tree is a leaf with its full key and value, or an inner node with a compressed prefix
and a table of children. The table changes its layout as it grows: a list of at most 4 and then at
most 16 bytes next to the list of children, an index of 256 slots into a list of children, and a
direct array of 256 children. Byte 0 stands for the end of a key.

No node is shared by two parents, so a node is a value and a change in place is the replacement of
the node in the table of its parent (`Layout.replaceChild`). The slices of bytes are made with the
capacity 4 or 16 of their layout and never get another one, so a table is full when its length
reaches the number in the name of the layout. A nil prefix is the empty list; a prefix that is not
nil is never empty.

`splitPrefix` calls `Set` again while its caller holds the mutex of the store.
-/

set_option autoImplicit false
set_option relaxedAutoImplicit false

namespace FluxCache.Store

open FluxCache.Foundation

/-! ### Tables of children -/

/-- The four layouts of a table of children. -/
inductive Layout (α : Type)
  | node4 (keys : List UInt8) (children : List α)
  | node16 (keys : List UInt8) (children : List α)
  | node48 (slots : UInt8 → Option ℕ) (children : List α)
  | node256 (children : List (Option α))

namespace Layout

variable {α : Type}

/-- The child in an optional slot. -/
def childAt (children : List α) : Option ℕ → Outcome (Option α)
  | some i => do
    let child ← index children i
    pure (some child)
  | none => .ok none

/-- `findChild`. -/
def findChild : Layout α → UInt8 → Outcome (Option α)
  | node4 keys children, b => childAt children (keys.idxOf? b)
  | node16 keys children, b => childAt children (keys.idxOf? b)
  | node48 slots children, b => childAt children (slots b)
  | node256 children, b => index children b.toNat

/-- `grow4to16`. -/
def grow4to16 (keys : List UInt8) (children : List α) : Layout α := node16 keys children

/-- The index that `grow16to48` builds: each byte gets its position, the last one if it occurs
twice. -/
def slotsOf (keys : List UInt8) : UInt8 → Option ℕ :=
  keys.zipIdx.foldl (fun slots k ↦ Function.update slots k.1 (some k.2)) fun _ ↦ none

/-- `grow16to48`. -/
def grow16to48 (keys : List UInt8) (children : List α) : Layout α :=
  node48 (slotsOf keys) children

/-- The first byte whose slot is `i`. -/
def byteOf (slots : UInt8 → Option ℕ) (i : ℕ) : Option ℕ :=
  (List.range 256).find? fun k ↦ slots (UInt8.ofNat k) = some i

/-- One iteration of the loop of `grow48to256`. -/
def placeChild (slots : UInt8 → Option ℕ) (newChildren : List (Option α)) (child : α × ℕ) :
    List (Option α) :=
  match byteOf slots child.2 with
  | some k => newChildren.set k (some child.1)
  | none => newChildren

/-- `grow48to256`. -/
def grow48to256 (slots : UInt8 → Option ℕ) (children : List α) : Layout α :=
  node256 (children.zipIdx.foldl (placeChild slots) (List.replicate 256 none))

/-- The position of a byte in the sorted bytes of a table. -/
def keyPosition (keys : List UInt8) (b : UInt8) : ℕ := (keys.takeWhile fun k ↦ k < b).length

/-- `addChild`. -/
def addChild : Layout α → UInt8 → α → Outcome (Layout α)
  | node4 keys children, b, child => do
    let newKeys ← insertAt keys (keyPosition keys b) b
    let newChildren ← insertAt children (keyPosition keys b) child
    pure (if 4 ≤ newKeys.length then grow4to16 newKeys newChildren
      else node4 newKeys newChildren)
  | node16 keys children, b, child => do
    let newKeys ← insertAt keys (keyPosition keys b) b
    let newChildren ← insertAt children (keyPosition keys b) child
    pure (if 16 ≤ newKeys.length then grow16to48 newKeys newChildren
      else node16 newKeys newChildren)
  | node48 slots children, b, child =>
    let newSlots := Function.update slots b (some children.length)
    let newChildren := children ++ [child]
    pure (if newChildren.length = 48 then grow48to256 newSlots newChildren
      else node48 newSlots newChildren)
  | node256 children, b, child => do
    let newChildren ← setIndex children b.toNat (some child)
    pure (node256 newChildren)

/-- `removeChild`. A layout with an index keeps the child in its slot and drops the byte. -/
def removeChild : Layout α → UInt8 → Outcome (Layout α)
  | node4 keys children, b =>
    match keys.idxOf? b with
    | some i => pure (node4 (keys.eraseIdx i) (children.eraseIdx i))
    | none => pure (node4 keys children)
  | node16 keys children, b =>
    match keys.idxOf? b with
    | some i => pure (node16 (keys.eraseIdx i) (children.eraseIdx i))
    | none => pure (node16 keys children)
  | node48 slots children, b => pure (node48 (Function.update slots b none) children)
  | node256 children, b => do
    let newChildren ← setIndex children b.toNat none
    pure (node256 newChildren)

/-- The table after the child that `findChild` returns for a byte has changed in place. -/
def replaceChild : Layout α → UInt8 → α → Layout α
  | node4 keys children, b, child =>
    node4 keys ((keys.idxOf? b).elim children fun i ↦ children.set i child)
  | node16 keys children, b, child =>
    node16 keys ((keys.idxOf? b).elim children fun i ↦ children.set i child)
  | node48 slots children, b, child =>
    node48 slots ((slots b).elim children fun i ↦ children.set i child)
  | node256 children, b, child => node256 (children.set b.toNat (some child))

/-- The length of the slice of children. -/
def childCount : Layout α → ℕ
  | node4 _ children => children.length
  | node16 _ children => children.length
  | node48 _ children => children.length
  | node256 children => children.length

/-- The children in the slice, also those that no byte refers to. -/
def members : Layout α → List α
  | node4 _ children => children
  | node16 _ children => children
  | node48 _ children => children
  | node256 children => children.filterMap id

end Layout

/-! ### Nodes -/

/-- A node of the tree. -/
inductive ArtNode
  | leaf (key value : GoString)
  | inner (pfx : List UInt8) (layout : Layout ArtNode)

namespace Layout

variable {α : Type}

theorem mem_of_childAt {children : List α} {slot : Option ℕ} {child : α}
    (h : childAt children slot = .ok (some child)) : child ∈ children := by
  cases slot with
  | none => exact absurd (Except.ok.inj h) (by simp)
  | some i =>
    obtain ⟨other, hother, hsame⟩ := bind_eq_ok_iff.mp h
    rw [← Option.some.inj (Except.ok.inj hsame)]
    exact List.mem_of_getElem? (index_eq_ok_iff.mp hother)

/-- A child that `findChild` returns is in the slice of children. -/
theorem mem_of_findChild {layout : Layout α} {b : UInt8} {child : α}
    (h : layout.findChild b = .ok (some child)) : child ∈ layout.members := by
  cases layout with
  | node4 keys children => exact mem_of_childAt h
  | node16 keys children => exact mem_of_childAt h
  | node48 slots children => exact mem_of_childAt h
  | node256 children =>
    have hmem : some child ∈ children := List.mem_of_getElem? (index_eq_ok_iff.mp h)
    exact List.mem_filterMap.mpr ⟨some child, hmem, rfl⟩

end Layout

namespace ArtNode

theorem sizeOf_lt_of_mem {n : ArtNode} {layout : Layout ArtNode} (pfx : List UInt8)
    (h : n ∈ layout.members) : sizeOf n < sizeOf (inner pfx layout) := by
  cases layout with
  | node4 keys children =>
    have hlt := List.sizeOf_lt_of_mem (show n ∈ children from h)
    simp only [inner.sizeOf_spec, Layout.node4.sizeOf_spec]
    omega
  | node16 keys children =>
    have hlt := List.sizeOf_lt_of_mem (show n ∈ children from h)
    simp only [inner.sizeOf_spec, Layout.node16.sizeOf_spec]
    omega
  | node48 slots children =>
    have hlt := List.sizeOf_lt_of_mem (show n ∈ children from h)
    simp only [inner.sizeOf_spec, Layout.node48.sizeOf_spec]
    omega
  | node256 children =>
    obtain ⟨child, hmem, hchild⟩ := List.mem_filterMap.mp h
    have hlt := List.sizeOf_lt_of_mem hmem
    rw [show child = some n from hchild] at hlt
    simp only [inner.sizeOf_spec, Layout.node256.sizeOf_spec, Option.some.sizeOf_spec] at hlt ⊢
    omega

/-- The byte of a key at an index, 0 past the end. -/
def byteAt (key : GoString) (i : ℕ) : UInt8 := key[i]?.getD 0

/-- The number of leading bytes two strings have in common: the loop of `lcp` and the one of `Set`
that compares the prefix of a node. -/
def commonLength : List UInt8 → List UInt8 → ℕ
  | a :: as, b :: bs => if a = b then commonLength as bs + 1 else 0
  | _, _ => 0

/-- `lcp`. -/
def lcp (key1 key2 : GoString) (start : ℕ) : ℕ :=
  commonLength (key1.drop start) (key2.drop start)

/-- An inner node with two children in the layout of 4. -/
def branch (pfx : List UInt8) (byte1 : UInt8) (child1 : ArtNode) (byte2 : UInt8)
    (child2 : ArtNode) : Outcome ArtNode := do
  let layout ← (Layout.node4 [] []).addChild byte1 child1
  let layout ← layout.addChild byte2 child2
  pure (inner pfx layout)

/-- `splitPrefix`: the node moves below a new one, and `Set` starts again by locking the mutex that
its caller holds. -/
def splitPrefix (pfx : List UInt8) (layout : Layout ArtNode) : Outcome ArtNode := do
  let first ← index pfx 0
  let newLayout ← (Layout.node4 [] []).addChild first (inner pfx layout)
  lock true
  pure (inner [] newLayout)

/-- `splitPrefixAt`: the node moves below a new one that has the first `mismatch` bytes of the
prefix, next to a leaf with the key. -/
def splitPrefixAt (pfx : List UInt8) (layout : Layout ArtNode) (depth mismatch : ℕ)
    (key value : GoString) : Outcome ArtNode := do
  let childByte ← index pfx mismatch
  branch (pfx.take mismatch) childByte (inner (pfx.drop (mismatch + 1)) layout)
    (byteAt key (depth + mismatch)) (leaf key value)

/-- The end of `Set` at a leaf with another key. -/
def splitLeaf (oldKey oldValue : GoString) (depth : ℕ) (key value : GoString) : Outcome ArtNode :=
  let prefixLen := lcp oldKey key depth
  branch ((oldKey.drop depth).take prefixLen)
    (byteAt oldKey (depth + prefixLen)) (leaf oldKey oldValue)
    (byteAt key (depth + prefixLen)) (leaf key value)

/-- `Set` at an inner node whose path is the whole key. -/
def setTerminal (pfx : List UInt8) (layout : Layout ArtNode) (key value : GoString) :
    Outcome ArtNode := do
  match ← layout.findChild 0 with
  | some (leaf childKey _) =>
    if childKey = key then pure (inner pfx (layout.replaceChild 0 (leaf childKey value)))
    else do
      let layout ← layout.addChild 0 (leaf key value)
      pure (inner pfx layout)
  | some (inner _ _) => .error .nilDereference
  | none => do
    let layout ← layout.addChild 0 (leaf key value)
    pure (inner pfx layout)

/-- The loop of `Set` from a node at a depth. Every iteration but the last consumes a byte of the
key. -/
def setFrom (key value : GoString) : ℕ → ArtNode → ℕ → Outcome ArtNode
  | 0, _, _ => .error .exhausted
  | _ + 1, leaf oldKey oldValue, depth =>
    if oldKey = key then pure (leaf oldKey value)
    else splitLeaf oldKey oldValue depth key value
  | steps + 1, inner pfx layout, depth =>
    if key.length < depth + pfx.length then splitPrefix pfx layout
    else
      let mismatch := commonLength pfx (key.drop depth)
      if mismatch < pfx.length then splitPrefixAt pfx layout depth mismatch key value
      else if key.length ≤ depth + pfx.length then setTerminal pfx layout key value
      else do
        let b ← index key (depth + pfx.length)
        match ← layout.findChild b with
        | none => do
          let layout ← layout.addChild b (leaf key value)
          pure (inner pfx layout)
        | some child => do
          let child ← setFrom key value steps child (depth + pfx.length + 1)
          pure (inner pfx (layout.replaceChild b child))

/-- The test at an inner node in `Get` and `delNode`: the key continues with the prefix. -/
def matchesPrefix (key : GoString) (depth : ℕ) (pfx : List UInt8) : Bool :=
  depth + pfx.length ≤ key.length ∧ (key.drop depth).take pfx.length = pfx

/-- The depth at which the search goes on below an inner node: a key that has ended stays at its
end. -/
def nextDepth (key : GoString) (depth : ℕ) : ℕ := if depth < key.length then depth + 1 else depth

/-- The loop of `Get` from a node at a depth. -/
def getFrom (key : GoString) (n : ArtNode) (depth : ℕ) : Outcome (GoString × Bool) :=
  match n with
  | leaf leafKey value => .ok (if leafKey = key then (value, true) else ([], false))
  | inner pfx layout =>
    if matchesPrefix key depth pfx then
      match _h : layout.findChild (byteAt key (depth + pfx.length)) with
      | .error fault => .error fault
      | .ok none => .ok ([], false)
      | .ok (some child) => getFrom key child (nextDepth key (depth + pfx.length))
    else .ok ([], false)
termination_by n
decreasing_by exact sizeOf_lt_of_mem pfx (Layout.mem_of_findChild _h)

/-- The loop of `Get` at an inner node whose prefix the key matches, with the child it finds. -/
theorem getFrom_inner {key : GoString} {pfx : List UInt8} {layout : Layout ArtNode} {depth : ℕ}
    {found : Option ArtNode} (hstart : matchesPrefix key depth pfx = true)
    (hfound : layout.findChild (byteAt key (depth + pfx.length)) = .ok found) :
    getFrom key (inner pfx layout) depth =
      found.elim (.ok ([], false)) fun child ↦
        getFrom key child (nextDepth key (depth + pfx.length)) := by
  rw [getFrom, if_pos hstart]
  split
  · rename_i fault hfault
    exact absurd (hfault.symm.trans hfound) (by simp)
  · rename_i hnone
    rw [Except.ok.inj (hfound.symm.trans hnone)]
    rfl
  · rename_i child hsome
    rw [Except.ok.inj (hfound.symm.trans hsome)]
    rfl

/-- The child `delNode` goes on with: the one for the byte, or else the one for byte 0. -/
def childToDelete (layout : Layout ArtNode) (b : UInt8) : Outcome (Option (UInt8 × ArtNode)) := do
  match ← layout.findChild b with
  | some child => pure (some (b, child))
  | none => do
    let child ← layout.findChild 0
    pure (child.map (Prod.mk 0))

theorem mem_of_childToDelete {layout : Layout ArtNode} {b : UInt8} {found : UInt8 × ArtNode}
    (h : childToDelete layout b = .ok (some found)) : found.2 ∈ layout.members := by
  obtain ⟨child, hchild, hrest⟩ := bind_eq_ok_iff.mp h
  cases child with
  | some child =>
    rw [← Option.some.inj (Except.ok.inj hrest)]
    exact Layout.mem_of_findChild hchild
  | none =>
    obtain ⟨zeroChild, hzero, hfound⟩ := bind_eq_ok_iff.mp hrest
    obtain ⟨child, rfl, rfl⟩ := Option.map_eq_some_iff.mp (Except.ok.inj hfound)
    exact Layout.mem_of_findChild hzero

/-- The end of `delNode` at an inner node: `result` is what the call on the child in the slot of
byte `slot` has left and returned, and a nil result removes the child for the byte `b` of the key.
-/
def afterDelete (pfx : List UInt8) (layout : Layout ArtNode) (b slot : UInt8)
    (result : ArtNode × Bool) : Outcome (ArtNode × Bool) := do
  let layout := layout.replaceChild slot result.1
  let layout ← if result.2 then pure layout else layout.removeChild b
  pure (inner pfx layout, layout.childCount ≠ 0)

/-- `delNode` from a node at a depth: the node as the call leaves it, and whether the pointer that
it returns is not nil. -/
def delNode (key : GoString) (n : ArtNode) (depth : ℕ) : Outcome (ArtNode × Bool) :=
  match n with
  | leaf leafKey value => .ok (leaf leafKey value, leafKey ≠ key)
  | inner pfx layout =>
    if matchesPrefix key depth pfx then
      match _h : childToDelete layout (byteAt key (depth + pfx.length)) with
      | .error fault => .error fault
      | .ok none => .ok (inner pfx layout, true)
      | .ok (some found) => do
        let result ← delNode key found.2 (nextDepth key (depth + pfx.length))
        afterDelete pfx layout (byteAt key (depth + pfx.length)) found.1 result
    else .ok (inner pfx layout, true)
termination_by n
decreasing_by exact sizeOf_lt_of_mem pfx (mem_of_childToDelete _h)

/-- `delNode` at an inner node whose prefix the key matches, with the child it finds. -/
theorem delNode_inner {key : GoString} {pfx : List UInt8} {layout : Layout ArtNode} {depth : ℕ}
    {found : Option (UInt8 × ArtNode)} (hstart : matchesPrefix key depth pfx = true)
    (hfound : childToDelete layout (byteAt key (depth + pfx.length)) = .ok found) :
    delNode key (inner pfx layout) depth =
      found.elim (.ok (inner pfx layout, true)) fun found ↦
        delNode key found.2 (nextDepth key (depth + pfx.length)) >>=
          afterDelete pfx layout (byteAt key (depth + pfx.length)) found.1 := by
  rw [delNode, if_pos hstart]
  split
  · rename_i fault hfault
    exact absurd (hfault.symm.trans hfound) (by simp)
  · rename_i hnone
    rw [Except.ok.inj (hfound.symm.trans hnone)]
    rfl
  · rename_i child hsome
    rw [Except.ok.inj (hfound.symm.trans hsome)]
    rfl

end ArtNode

/-! ### The store -/

/-- The store: its root, nil when it is empty, and the hashes. -/
structure ARTStore where
  root : Option ArtNode
  hashes : Hashes

namespace ARTStore

/-- `NewARTStore`. -/
def new : ARTStore := ⟨none, ∅⟩

/-- `Get`. -/
def get (s : ARTStore) (key : GoString) : Outcome (GoString × Bool) :=
  match s.root with
  | none => .ok ([], false)
  | some root => root.getFrom key 0

/-- `Set`. -/
def set (s : ARTStore) (key value : GoString) : Outcome ARTStore := do
  lock false
  match s.root with
  | none => pure { s with root := some (.leaf key value) }
  | some root => do
    let root ← root.setFrom key value (key.length + 1) 0
    pure { s with root := some root }

/-- `Del`. -/
def del (s : ARTStore) (key : GoString) : Outcome ARTStore :=
  match s.root with
  | none => pure { s with hashes := s.hashes.erase key }
  | some root => do
    let (root, alive) ← root.delNode key 0
    pure { root := if alive then some root else none, hashes := s.hashes.erase key }

/-- `HSet`. -/
def hset (s : ARTStore) (hash key value : GoString) : ARTStore :=
  { s with hashes := hashSet s.hashes hash key value }

/-- `HGet`. -/
def hget (s : ARTStore) (hash key : GoString) : GoString × Bool :=
  hashGet s.hashes hash key

/-- `HGetAll`. -/
def hgetAll (s : ARTStore) (hash : GoString) : Option (GoMap GoString) :=
  hashGetAll s.hashes hash

/-- One call of `Set` or `Del`. -/
def step (s : ARTStore) : StringOp → Outcome ARTStore
  | .set key value => s.set key value
  | .del key => s.del key

/-- A sequence of calls of `Set` and `Del`, one after another. -/
def run (s : ARTStore) : List StringOp → Outcome ARTStore
  | [] => .ok s
  | op :: ops => do
    let s ← s.step op
    s.run ops

end ARTStore

end FluxCache.Store
