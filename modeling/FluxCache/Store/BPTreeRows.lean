import FluxCache.Store.BPTree
import Mathlib.Order.WithBot
import Mathlib.Logic.Function.Iterate

/-!
# Rows of the B+ tree

The proofs read the tree by rows. An `Entry` is a node together with the lower end of the range of
keys it is responsible for; the entry of the root has the lower end `⊥`. The children of an entry,
from left to right, are the entries of the next row: the first child takes over the lower end and
every other child starts at the separator before it (`fanout`). Expanding a row `n` times gives the
row `n` levels further down (`level`), and expanding the root to its full height gives the leaves
in order together with their lower ends. A split replaces one entry of a row by two adjacent ones
and leaves the row of leaves as it is.

`Node heap least h p` says that `p` is the root of a proper tree of height `h`: the cells are
within their bounds and every leaf is reached after exactly `h` steps. The height of a node is
unique (`Node.height_unique`), so that a cell written at one height cannot occur at another.
-/

set_option autoImplicit false
set_option relaxedAutoImplicit false

namespace FluxCache.Store.BPTreeRows

open FluxCache.Foundation

/-- A node and the lower end of its range of keys. -/
abbrev Entry := WithBot GoString × Pointer

/-- The entries of the children of a node. -/
def fanout (heap : Memory BpNode) (e : Entry) : List Entry :=
  (e.1 :: (heap.cell e.2).keys.map WithBot.some).zip (heap.cell e.2).children

/-- The row `n` levels below a row. -/
def level (heap : Memory BpNode) (n : ℕ) (row : List Entry) : List Entry :=
  (List.flatMap (fanout heap))^[n] row

@[simp] theorem level_zero (heap : Memory BpNode) (row : List Entry) : level heap 0 row = row :=
  rfl

theorem level_succ (heap : Memory BpNode) (n : ℕ) (row : List Entry) :
    level heap (n + 1) row = level heap n (row.flatMap (fanout heap)) := rfl

theorem level_succ' (heap : Memory BpNode) (n : ℕ) (row : List Entry) :
    level heap (n + 1) row = (level heap n row).flatMap (fanout heap) :=
  Function.iterate_succ_apply' _ n row

theorem level_add (heap : Memory BpNode) (m n : ℕ) (row : List Entry) :
    level heap (m + n) row = level heap m (level heap n row) :=
  Function.iterate_add_apply _ m n row

theorem level_append (heap : Memory BpNode) (n : ℕ) (left right : List Entry) :
    level heap n (left ++ right) = level heap n left ++ level heap n right := by
  induction n generalizing left right with
  | zero => rfl
  | succ n ih => rw [level_succ, List.flatMap_append, ih, level_succ, level_succ]

/-! ### Proper nodes -/

/-- The entries of a leaf. -/
def entries (n : BpNode) : List (GoString × GoString) := n.keys.zip (n.values.getD [])

/-- A proper leaf: as many values as keys, fewer than `bpOrder` of them, in increasing order. -/
structure LeafCell (n : BpNode) : Prop where
  leaf : n.isLeaf = true
  values_length : (n.values.getD []).length = n.keys.length
  keys_length : n.keys.length < bpOrder
  sorted : n.keys.Pairwise (· < ·)

/-- A proper internal node: one child more than keys, and a number of keys within its bounds. -/
structure InternalCell (least : ℕ) (n : BpNode) : Prop where
  internal : n.isLeaf = false
  arity : n.children.length = n.keys.length + 1
  least_le : least ≤ n.keys.length
  keys_length : n.keys.length < bpOrder

theorem InternalCell.weaken {least least' : ℕ} {n : BpNode} (h : InternalCell least n)
    (hle : least' ≤ least) : InternalCell least' n :=
  { h with least_le := hle.trans h.least_le }

/-- The least number of keys of an internal node below the root. -/
def minKeys : ℕ := bpOrder / 2 - 1

/-- The root of a proper tree of height `h` with at least `least` keys in its internal root. -/
def Node (heap : Memory BpNode) (least : ℕ) : ℕ → Pointer → Prop
  | 0, p => p < heap.used ∧ LeafCell (heap.cell p)
  | h + 1, p => p < heap.used ∧ InternalCell least (heap.cell p) ∧
      ∀ c ∈ (heap.cell p).children, Node heap minKeys h c

variable {heap heap' : Memory BpNode} {least least' h h' n : ℕ} {p q : Pointer} {e : Entry}
  {row : List Entry}

theorem Node.lt_used (hp : Node heap least h p) : p < heap.used := by
  cases h with
  | zero => exact hp.1
  | succ h => exact hp.1

theorem Node.leafCell (hp : Node heap least 0 p) : LeafCell (heap.cell p) := hp.2

theorem Node.internalCell (hp : Node heap least (h + 1) p) : InternalCell least (heap.cell p) :=
  hp.2.1

theorem Node.child (hp : Node heap least (h + 1) p) (hq : q ∈ (heap.cell p).children) :
    Node heap minKeys h q :=
  hp.2.2 q hq

theorem Node.weaken (hp : Node heap least h p) (hle : least' ≤ least) : Node heap least' h p := by
  cases h with
  | zero => exact hp
  | succ h => exact ⟨hp.1, hp.2.1.weaken hle, hp.2.2⟩

/-- An internal node has a first child. -/
theorem InternalCell.exists_child {n : BpNode} (hn : InternalCell least n) :
    ∃ first rest, n.children = first :: rest := by
  cases hchildren : n.children with
  | nil =>
    have harity := hn.arity
    rw [hchildren] at harity
    exact absurd harity (by simp)
  | cons first rest => exact ⟨first, rest, rfl⟩

/-- The height of a node is determined by the memory. -/
theorem Node.height_unique (hp : Node heap least h p) (hp' : Node heap least' h' p) : h = h' := by
  induction h generalizing h' p least least' with
  | zero =>
    cases h' with
    | zero => rfl
    | succ h' =>
      have hleaf := hp.leafCell.leaf
      rw [hp'.internalCell.internal] at hleaf
      exact absurd hleaf Bool.false_ne_true
  | succ h ih =>
    cases h' with
    | zero =>
      have hleaf := hp'.leafCell.leaf
      rw [hp.internalCell.internal] at hleaf
      exact absurd hleaf Bool.false_ne_true
    | succ h' =>
      obtain ⟨first, rest, hchildren⟩ := hp.internalCell.exists_child
      have hmem : first ∈ (heap.cell p).children := by
        rw [hchildren]
        exact List.mem_cons_self
      rw [ih (hp.child hmem) (hp'.child hmem)]

/-! ### The entries of the children -/

theorem map_fst_fanout (hn : InternalCell least (heap.cell e.2)) :
    (fanout heap e).map Prod.fst = e.1 :: (heap.cell e.2).keys.map WithBot.some := by
  rw [fanout, List.map_fst_zip]
  rw [List.length_cons, List.length_map, hn.arity]

theorem map_snd_fanout (hn : InternalCell least (heap.cell e.2)) :
    (fanout heap e).map Prod.snd = (heap.cell e.2).children := by
  rw [fanout, List.map_snd_zip]
  rw [List.length_cons, List.length_map, hn.arity]

theorem snd_mem_children {x : Entry} (hx : x ∈ fanout heap e) :
    x.2 ∈ (heap.cell e.2).children :=
  (List.of_mem_zip hx).2

/-- The first child takes over the lower end of its parent. -/
theorem fanout_eq_cons (hn : InternalCell least (heap.cell e.2)) :
    ∃ first rest tail, (heap.cell e.2).children = first :: rest ∧
      fanout heap e = (e.1, first) :: tail := by
  obtain ⟨first, rest, hchildren⟩ := hn.exists_child
  exact ⟨first, rest, _, hchildren, by rw [fanout, hchildren, List.zip_cons_cons]⟩

/-- The fan-out of an entry reads only the cell of its node. -/
theorem fanout_congr (hcell : heap'.cell e.2 = heap.cell e.2) : fanout heap' e = fanout heap e := by
  rw [fanout, fanout, hcell]

theorem flatMap_fanout_congr (hagree : ∀ x ∈ row, heap'.cell x.2 = heap.cell x.2) :
    row.flatMap (fanout heap') = row.flatMap (fanout heap) := by
  rw [List.flatMap_def, List.flatMap_def]
  exact congrArg List.flatten (List.map_congr_left fun x hx ↦ fanout_congr (hagree x hx))

/-- Assumes: two memories that agree on the nodes of every row above the `n`-th. The `n`-th row is
the same. -/
theorem level_congr
    (hagree : ∀ k < n, ∀ x ∈ level heap k row, heap'.cell x.2 = heap.cell x.2) :
    level heap' n row = level heap n row := by
  induction n with
  | zero => rfl
  | succ n ih =>
    rw [level_succ', level_succ', ih fun k hk ↦ hagree k (Nat.lt_succ_of_lt hk),
      flatMap_fanout_congr (hagree n (Nat.lt_succ_self n))]

/-- The nodes of a row of proper trees are proper trees of the remaining height. -/
theorem node_of_mem_level (hrow : ∀ x ∈ row, Node heap 0 (n + h) x.2) :
    ∀ x ∈ level heap n row, Node heap 0 h x.2 := by
  induction n generalizing row with
  | zero => simpa using hrow
  | succ n ih =>
    rw [level_succ]
    refine ih fun x hx ↦ ?_
    obtain ⟨e, he, hxe⟩ := List.mem_flatMap.mp hx
    have hnode := hrow e he
    rw [Nat.add_right_comm] at hnode
    exact (hnode.child (snd_mem_children hxe)).weaken (Nat.zero_le _)

/-! ### The order of the rows -/

/-- One entry stands before another: its lower end is smaller and the nodes differ. -/
def Before (a b : Entry) : Prop := a.1 < b.1 ∧ a.2 ≠ b.2

/-- A row whose children are in order is in order. -/
theorem pairwise_before_of_flatMap (hrow : ∀ x ∈ row, InternalCell 0 (heap.cell x.2))
    (h : (row.flatMap (fanout heap)).Pairwise Before) : row.Pairwise Before := by
  refine (List.pairwise_flatMap.mp h).2.imp_of_mem fun {a b} ha hb hab ↦ ?_
  obtain ⟨first, rest, tail, hchildren, hfan⟩ := fanout_eq_cons (hrow a ha)
  obtain ⟨first', rest', tail', hchildren', hfan'⟩ := fanout_eq_cons (hrow b hb)
  have hfirst := hab (a.1, first) (by rw [hfan]; exact List.mem_cons_self) (b.1, first')
    (by rw [hfan']; exact List.mem_cons_self)
  refine ⟨hfirst.1, fun heq ↦ hfirst.2 ?_⟩
  rw [heq, hchildren'] at hchildren
  exact (List.cons.inj hchildren).1.symm

theorem pairwise_before_of_level (hrow : ∀ x ∈ row, Node heap 0 (n + h) x.2)
    (hlevel : (level heap n row).Pairwise Before) : row.Pairwise Before := by
  induction n generalizing row with
  | zero => exact hlevel
  | succ n ih =>
    have hrow' : ∀ x ∈ row, Node heap 0 (n + h + 1) x.2 := by
      intro x hx
      rw [Nat.add_right_comm]
      exact hrow x hx
    refine pairwise_before_of_flatMap (fun x hx ↦ (hrow' x hx).internalCell) (ih ?_ hlevel)
    intro x hx
    obtain ⟨e, he, hxe⟩ := List.mem_flatMap.mp hx
    exact ((hrow' e he).child (snd_mem_children hxe)).weaken (Nat.zero_le _)

/-- The row of a tree `n` levels below its root is in order when a lower one is. -/
theorem pairwise_before_level {m : ℕ} (hrow : ∀ x ∈ row, Node heap 0 (n + m + h) x.2)
    (hlevel : (level heap (m + n) row).Pairwise Before) : (level heap n row).Pairwise Before := by
  rw [level_add] at hlevel
  refine pairwise_before_of_level (n := m) (h := h) (node_of_mem_level fun x hx ↦ ?_) hlevel
  rw [← Nat.add_assoc]
  exact hrow x hx

/-! ### Frames -/

/-- Assumes: two memories such that every leaf of the first is a leaf of the second and every
internal node below height `h` has the same cell in both. A proper tree of height `h` stays
proper. -/
theorem Node.congr (hused : heap.used ≤ heap'.used)
    (hleaf : ∀ q, Node heap 0 0 q → LeafCell (heap'.cell q))
    (hinternal : ∀ k < h, ∀ q, Node heap 0 (k + 1) q → heap'.cell q = heap.cell q)
    (hp : Node heap least h p) : Node heap' least h p := by
  induction h generalizing p least with
  | zero => exact ⟨hp.lt_used.trans_le hused, hleaf p hp⟩
  | succ h ih =>
    have hcell := hinternal h (Nat.lt_succ_self h) p (hp.weaken (Nat.zero_le _))
    refine ⟨hp.lt_used.trans_le hused, by rw [hcell]; exact hp.internalCell, fun c hc ↦ ?_⟩
    rw [hcell] at hc
    exact ih (fun k hk ↦ hinternal k (Nat.lt_succ_of_lt hk)) (hp.child hc)

/-- Assumes: a memory that differs from a first one only in the cell of a node of height `h + 1`
and in cells that were not in use. A proper tree of height at most `h` stays proper. -/
theorem Node.frame (hused : heap.used ≤ heap'.used) (hp : Node heap 0 (h + 1) p)
    (hagree : ∀ q < heap.used, q ≠ p → heap'.cell q = heap.cell q) (hn : n ≤ h)
    (hq : Node heap least n q) : Node heap' least n q := by
  have hcell : ∀ k ≤ h, ∀ r, Node heap 0 k r → heap'.cell r = heap.cell r := by
    intro k hk r hr
    refine hagree r hr.lt_used ?_
    rintro rfl
    exact absurd (hr.height_unique hp) (by omega)
  refine hq.congr hused (fun r hr ↦ ?_) fun k hk r hr ↦ hcell (k + 1) (by omega) r hr
  rw [hcell 0 (Nat.zero_le h) r hr]
  exact hr.leafCell

/-- Assumes: a memory that differs from a first one only in the cell of a node `p` of height
`h + 1` and in cells that were not in use, and in which `p` is a proper node of that height. A
proper tree of any height stays proper. -/
theorem Node.replace (hused : heap.used ≤ heap'.used) (hp : Node heap 0 (h + 1) p)
    (hagree : ∀ q < heap.used, q ≠ p → heap'.cell q = heap.cell q)
    (hp' : ∀ least ≤ minKeys, Node heap least (h + 1) p → Node heap' least (h + 1) p)
    (hleast : least ≤ minKeys) (hq : Node heap least n q) : Node heap' least n q := by
  induction n generalizing q least with
  | zero => exact Node.frame hused hp hagree (Nat.zero_le h) hq
  | succ n ih =>
    by_cases hne : q = p
    · subst hne
      obtain rfl : n = h := by
        have := hq.height_unique hp
        omega
      exact hp' least hleast hq
    · have hcell := hagree q hq.lt_used hne
      refine ⟨hq.lt_used.trans_le hused, by rw [hcell]; exact hq.internalCell, fun c hc ↦ ?_⟩
      rw [hcell] at hc
      exact ih le_rfl (hq.child hc)

end FluxCache.Store.BPTreeRows
