import FluxCache.Foundation.Memory
import FluxCache.Store.MapStore

/-!
# The skip list store

The nodes of the skip list live in a memory. A node has one `next` pointer for each level below its
height; the head has `skipMaxLevel` of them and no entry of its own. `Set` and `Del` search from the
highest level in use down to level 0 and note in `prev` the last node before the key on each level;
they then link a new node after these, or unlink the node of the key, one level after another.

The height of a new node is drawn by `skipLevel`, which flips a coin for every further level. The
outcomes of the flips of one call are an argument, so every statement about all of them is a
statement about every run of the random source.
-/

set_option autoImplicit false
set_option relaxedAutoImplicit false

namespace FluxCache.Store

open FluxCache.Foundation

/-- The highest level a node can have. -/
def skipMaxLevel : ℕ := 32

/-- A node of the skip list. -/
structure SkipNode where
  key : GoString
  value : GoString
  next : List (Option Pointer)

/-- The flips of one call of `skipLevel`: whether the n-th random number is below `skipP`. -/
abbrev Coins := ℕ → Bool

/-- The loop of `skipLevel`: one level more as long as the flips succeed. -/
def skipLevelFrom (coins : Coins) (level : ℕ) : ℕ :=
  if level < skipMaxLevel ∧ coins level then skipLevelFrom coins (level + 1) else level
termination_by skipMaxLevel - level

/-- `skipLevel`. -/
def skipLevel (coins : Coins) : ℕ := skipLevelFrom coins 1

/-- The store: its nodes, the head, the number of levels in use and the hashes. -/
structure SkipListStore where
  heap : Memory SkipNode
  head : Pointer
  level : ℕ
  hashes : Hashes

namespace SkipListStore

/-- `NewSkipListStore`. -/
def new : SkipListStore where
  heap := (⟨fun _ ↦ ⟨[], [], []⟩, 0⟩ : Memory SkipNode).alloc
    ⟨[], [], List.replicate skipMaxLevel none⟩
  head := 0
  level := 1
  hashes := ∅

/-- The inner loop of a search: on level `i`, move right as long as the next key is below the
key. -/
def advance (heap : Memory SkipNode) (key : GoString) (i : ℕ) : ℕ → Pointer → Outcome Pointer
  | 0, _ => .error .exhausted
  | steps + 1, curr => do
    match ← index (heap.cell curr).next i with
    | none => pure curr
    | some n => if (heap.cell n).key < key then advance heap key i steps n else pure curr

/-- The search of `Get`: the levels below `i`, from the highest one down. -/
def seek (heap : Memory SkipNode) (key : GoString) : ℕ → Pointer → Outcome Pointer
  | 0, curr => pure curr
  | i + 1, curr => do
    let curr ← advance heap key i heap.used curr
    seek heap key i curr

/-- The search of `Set` and `Del`, which notes the last node before the key on every level. -/
def findPrev (heap : Memory SkipNode) (key : GoString) :
    ℕ → Pointer → List (Option Pointer) → Outcome (Pointer × List (Option Pointer))
  | 0, curr, prev => pure (curr, prev)
  | i + 1, curr, prev => do
    let curr ← advance heap key i heap.used curr
    let prev ← setIndex prev i (some curr)
    findPrev heap key i curr prev

/-- The node after `curr` on level 0, when it has the key. -/
def nodeWithKey (heap : Memory SkipNode) (key : GoString) (curr : Pointer) :
    Outcome (Option Pointer) := do
  let next ← index (heap.cell curr).next 0
  pure (next.filter fun n ↦ (heap.cell n).key = key)

/-- The assignment `p.next[i] = q`. -/
def setNext (heap : Memory SkipNode) (p : Pointer) (i : ℕ) (q : Option Pointer) :
    Outcome (Memory SkipNode) := do
  let next ← setIndex (heap.cell p).next i q
  pure (heap.write p { heap.cell p with next := next })

/-- One iteration of the loop that links a new node `n` after the nodes of `prev`. -/
def link (prev : List (Option Pointer)) (n : Pointer) (heap : Memory SkipNode) (i : ℕ) :
    Outcome (Memory SkipNode) := do
  let p ← deref (← index prev i)
  let after ← index (heap.cell p).next i
  let heap ← setNext heap n i after
  setNext heap p i (some n)

/-- One iteration of the loop that unlinks the node `n` from the nodes of `prev`. -/
def unlink (prev : List (Option Pointer)) (n : Pointer) (heap : Memory SkipNode) (i : ℕ) :
    Outcome (Memory SkipNode) := do
  let after ← index (heap.cell n).next i
  let p ← deref (← index prev i)
  setNext heap p i after

/-- `Get`. -/
def get (s : SkipListStore) (key : GoString) : Outcome (GoString × Bool) := do
  let curr ← seek s.heap key s.level s.head
  match ← nodeWithKey s.heap key curr with
  | some n => pure ((s.heap.cell n).value, true)
  | none => pure ([], false)

/-- `Set`, with the flips of its call of `skipLevel`. -/
def set (s : SkipListStore) (coins : Coins) (key value : GoString) : Outcome SkipListStore := do
  let (curr, prev) ← findPrev s.heap key s.level s.head (List.replicate skipMaxLevel none)
  match ← nodeWithKey s.heap key curr with
  | some n => pure { s with heap := s.heap.write n { s.heap.cell n with value := value } }
  | none =>
    let level := skipLevel coins
    let prev ← (List.range' s.level (level - s.level)).foldlM
      (fun prev i ↦ setIndex prev i (some s.head)) prev
    let n := s.heap.used
    let heap := s.heap.alloc ⟨key, value, List.replicate level none⟩
    let heap ← (List.range level).foldlM (link prev n) heap
    pure { s with heap := heap, level := max s.level level }

/-- `Del`. -/
def del (s : SkipListStore) (key : GoString) : Outcome SkipListStore := do
  let (curr, prev) ← findPrev s.heap key s.level s.head (List.replicate skipMaxLevel none)
  let heap ← match ← nodeWithKey s.heap key curr with
    | some n => (List.range (s.heap.cell n).next.length).foldlM (unlink prev n) s.heap
    | none => pure s.heap
  pure { s with heap := heap, hashes := s.hashes.erase key }

/-- `HSet`. -/
def hset (s : SkipListStore) (hash key value : GoString) : SkipListStore :=
  { s with hashes := hashSet s.hashes hash key value }

/-- `HGet`. -/
def hget (s : SkipListStore) (hash key : GoString) : GoString × Bool :=
  hashGet s.hashes hash key

/-- `HGetAll`. -/
def hgetAll (s : SkipListStore) (hash : GoString) : Option (GoMap GoString) :=
  hashGetAll s.hashes hash

/-- One call of `Set` or `Del`. -/
def step (s : SkipListStore) (coins : Coins) : StringOp → Outcome SkipListStore
  | .set key value => s.set coins key value
  | .del key => s.del key

/-- A sequence of calls, the n-th of which flips the coins `coins n`. -/
def run (s : SkipListStore) (coins : ℕ → Coins) : List StringOp → Outcome SkipListStore
  | [] => .ok s
  | op :: ops => do
    let s ← s.step (coins 0) op
    s.run (fun n ↦ coins (n + 1)) ops

end SkipListStore

end FluxCache.Store
