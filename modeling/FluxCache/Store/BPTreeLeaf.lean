import FluxCache.Store.BPTreeInsert

/-!
# Changes of a leaf of the B+ tree

A call of `Set` or `Del` changes the leaf its search ends in. `leafWith n es` is the leaf `n` with
the entries `es`; every change of a leaf in the code writes such a cell. A leaf that keeps room
leaves the rows of the tree as they are (`Tree.write_leaf`). A leaf that has become full is cut in
two, and the split is pending in the row of leaves (`Tree.pending_split`).
-/

set_option autoImplicit false
set_option relaxedAutoImplicit false

namespace FluxCache.Store.BPTreeRows

open FluxCache.Foundation BPTreeStore

variable {heap heap' : Memory BpNode} {h : ℕ} {root leaf : Pointer} {e : Entry}
  {front back middle : List Entry} {low : WithBot GoString} {key : GoString} {n : BpNode}
  {es : List (GoString × GoString)}

/-! ### Leaves with given entries -/

/-- A leaf with its entries replaced. -/
def leafWith (n : BpNode) (es : List (GoString × GoString)) : BpNode :=
  { n with keys := es.map Prod.fst, values := some (es.map Prod.snd) }

@[simp] theorem entries_leafWith (n : BpNode) (es : List (GoString × GoString)) :
    entries (leafWith n es) = es := by
  show (es.map Prod.fst).zip (es.map Prod.snd) = es
  rw [List.zip_map', List.map_id'']
  exact fun _ ↦ rfl

theorem leafCell_leafWith (hsorted : es.Pairwise fun x y ↦ x.1 < y.1)
    (hlength : es.length < bpOrder) : LeafCell (leafWith n es) where
  leaf := rfl
  values_length := by simp [leafWith]
  keys_length := by simpa [leafWith] using hlength
  sorted := List.pairwise_map.mpr hsorted

theorem mem_keys_leafWith {k : GoString} :
    k ∈ (leafWith n es).keys ↔ ∃ v, (k, v) ∈ es := by
  simp [leafWith]

/-- Entries that a leaf with the lower end `low` before the entries `back` of its row may hold: in
order, not below the lower end and below every later one. -/
structure Fits (low : WithBot GoString) (back : List Entry) (es : List (GoString × GoString)) :
    Prop where
  sorted : es.Pairwise fun x y ↦ x.1 < y.1
  low_le : ∀ x ∈ es, low ≤ (x.1 : WithBot GoString)
  lt_back : ∀ x ∈ es, ∀ y ∈ back, (x.1 : WithBot GoString) < y.1

/-! ### Changes of one leaf -/

/-- Assumes: a memory that differs only in the cell of a leaf of the tree and in cells that were
not in use, and in which that leaf is proper. The rows of the tree are the same. -/
theorem Tree.rows_of_leaf_change (hs : Tree heap root h) (hmem : e ∈ level heap h [(⊥, root)])
    (hused : heap.used ≤ heap'.used)
    (hagree : ∀ q < heap.used, q ≠ e.2 → heap'.cell q = heap.cell q)
    (hleaf : LeafCell (heap'.cell e.2)) :
    Node heap' 1 h root ∧ level heap' h [(⊥, root)] = level heap h [(⊥, root)] := by
  have he := hs.node_of_mem hmem
  have hinternal : ∀ k q, Node heap 0 (k + 1) q → heap'.cell q = heap.cell q := by
    intro k q hq
    refine hagree q hq.lt_used ?_
    rintro rfl
    exact absurd (hq.height_unique he) (by omega)
  constructor
  · refine hs.node.congr hused (fun q hq ↦ ?_) fun k _ q hq ↦ hinternal k q hq
    by_cases hqe : q = e.2
    · rw [hqe]
      exact hleaf
    · rw [hagree q hq.lt_used hqe]
      exact hq.leafCell
  · refine level_congr fun k hk x hx ↦ hinternal (h - k - 1) x.2 ?_
    refine node_of_mem_level (fun y hy ↦ ?_) x hx
    rw [List.mem_singleton.mp hy, show k + (h - k - 1 + 1) = h by omega]
    exact hs.node.weaken (Nat.zero_le _)

/-- Assumes: a frontier, and entries `middle` that take the place of one of its leaves: their
lower ends and keys stay within the range of that leaf, they are in order, and the `next` pointers
run through them. The result is a frontier. -/
theorem Frontier.replace (hrow : Frontier heap (front ++ (low, leaf) :: back))
    (hcells : ∀ x ∈ front ++ back, heap'.cell x.2 = heap.cell x.2)
    (hbounded : ∀ x ∈ middle, ∀ k ∈ (heap'.cell x.2).keys, x.1 ≤ (k : WithBot GoString))
    (hseparated : middle.Pairwise fun a b ↦
      Before a b ∧ ∀ k ∈ (heap'.cell a.2).keys, (k : WithBot GoString) < b.1)
    (hlow : ∀ x ∈ middle, low ≤ x.1) (hback : ∀ x ∈ middle, ∀ y ∈ back, x.1 < y.1)
    (hkeys : ∀ x ∈ middle, ∀ k ∈ (heap'.cell x.2).keys, ∀ y ∈ back, (k : WithBot GoString) < y.1)
    (hfresh : ∀ x ∈ middle, ∀ y ∈ front ++ back, y.2 ≠ x.2)
    (hlinked : Linked (fun p ↦ (heap'.cell p).next) ((front ++ (middle ++ back)).map Prod.snd)) :
    Frontier heap' (front ++ (middle ++ back)) := by
  obtain ⟨hfrontSep, hrest, hcross⟩ := List.pairwise_append.mp hrow.separated
  obtain ⟨hleafBack, hbackSep⟩ := List.pairwise_cons.mp hrest
  have hkeep : ∀ {part : List Entry}, (∀ x ∈ part, x ∈ front ++ back) →
      part.Pairwise (fun a b ↦ Before a b ∧ ∀ k ∈ (heap.cell a.2).keys,
        (k : WithBot GoString) < b.1) →
      part.Pairwise (fun a b ↦ Before a b ∧ ∀ k ∈ (heap'.cell a.2).keys,
        (k : WithBot GoString) < b.1) := by
    intro part hpart hsep
    refine hsep.imp_of_mem fun {a b} ha _ hab ↦ ?_
    rw [hcells a (hpart a ha)]
    exact hab
  refine ⟨?_, ?_, hlinked⟩
  · intro x hx k hk
    rcases List.mem_append.mp hx with hx | hx
    · rw [hcells x (by simp [hx])] at hk
      exact hrow.bounded x (by simp [hx]) k hk
    rcases List.mem_append.mp hx with hx | hx
    · exact hbounded x hx k hk
    · rw [hcells x (by simp [hx])] at hk
      exact hrow.bounded x (by simp [hx]) k hk
  · refine List.pairwise_append.mpr ⟨hkeep (fun x hx ↦ by simp [hx]) hfrontSep,
      List.pairwise_append.mpr ⟨hseparated, hkeep (fun x hx ↦ by simp [hx]) hbackSep, ?_⟩, ?_⟩
    · intro x hx y hy
      exact ⟨⟨hback x hx y hy, (hfresh x hx y (by simp [hy])).symm⟩,
        fun k hk ↦ hkeys x hx k hk y hy⟩
    · intro a ha b hb
      rw [hcells a (by simp [ha])]
      rcases List.mem_append.mp hb with hb | hb
      · obtain ⟨hbefore, hlt⟩ := hcross a ha (low, leaf) (by simp)
        exact ⟨⟨hbefore.1.trans_le (hlow b hb), hfresh b hb a (by simp [ha])⟩,
          fun k hk ↦ (hlt k hk).trans_le (hlow b hb)⟩
      · exact hcross a ha b (by simp [hb])

/-- The other leaves of a frontier have other pointers. -/
theorem Frontier.ne_leaf (hrow : Frontier heap (front ++ (low, leaf) :: back)) :
    ∀ y ∈ front ++ back, y.2 ≠ leaf := by
  intro y hy
  obtain ⟨-, hrest, hcross⟩ := List.pairwise_append.mp hrow.before
  rcases List.mem_append.mp hy with hy | hy
  · exact (hcross y hy (low, leaf) (by simp)).2
  · exact ((List.pairwise_cons.mp hrest).1 y hy).2.symm

/-- Assumes: new entries for a leaf of the tree that fit it and leave it room. The tree with the
leaf rewritten satisfies the invariant and has the same rows. -/
theorem Tree.write_leaf (hs : Tree heap root h)
    (hrow : level heap h [(⊥, root)] = front ++ (low, leaf) :: back) (hes : Fits low back es)
    (hlength : es.length < bpOrder) :
    Tree (heap.write leaf (leafWith (heap.cell leaf) es)) root h ∧
      level (heap.write leaf (leafWith (heap.cell leaf) es)) h [(⊥, root)] =
        front ++ (low, leaf) :: back := by
  have hcell : (heap.write leaf (leafWith (heap.cell leaf) es)).cell leaf =
      leafWith (heap.cell leaf) es := heap.cell_write_self _ _
  have hmem : (low, leaf) ∈ level heap h [(⊥, root)] := by
    rw [hrow]
    simp
  have hagree : ∀ q, q ≠ leaf →
      (heap.write leaf (leafWith (heap.cell leaf) es)).cell q = heap.cell q :=
    fun q hq ↦ heap.cell_write_of_ne _ hq
  have hused : heap.used ≤ (heap.write leaf (leafWith (heap.cell leaf) es)).used := le_rfl
  obtain ⟨hnode, hlevel⟩ := hs.rows_of_leaf_change hmem hused (fun q _ hq ↦ hagree q hq)
    (by rw [hcell]; exact leafCell_leafWith hes.sorted hlength)
  have hfrontier := hs.frontier
  rw [hrow] at hlevel hfrontier
  refine ⟨⟨hnode, hs.height_lt, ?_⟩, hlevel⟩
  rw [hlevel]
  have hrange : ∀ k ∈ (leafWith (heap.cell leaf) es).keys, low ≤ (k : WithBot GoString) ∧
      ∀ y ∈ back, (k : WithBot GoString) < y.1 := by
    intro k hk
    obtain ⟨v, hv⟩ := mem_keys_leafWith.mp hk
    exact ⟨hes.low_le _ hv, hes.lt_back _ hv⟩
  have hleafBack := (List.pairwise_cons.mp (List.pairwise_append.mp hfrontier.before).2.1).1
  show Frontier _ (front ++ ([(low, leaf)] ++ back))
  refine hfrontier.replace (fun x hx ↦ hagree x.2 (hfrontier.ne_leaf x hx)) ?_
    (List.pairwise_singleton _ _) (by simp) ?_ ?_ (by simpa using hfrontier.ne_leaf) ?_
  · intro x hx k hk
    rw [List.mem_singleton.mp hx, hcell] at hk
    rw [List.mem_singleton.mp hx]
    exact (hrange k hk).1
  · intro x hx y hy
    rw [List.mem_singleton.mp hx]
    exact (hleafBack y hy).1
  · intro x hx k hk
    rw [List.mem_singleton.mp hx, hcell] at hk
    exact (hrange k hk).2
  · refine hfrontier.linked.congr fun q _ ↦ ?_
    by_cases hq : q = leaf
    · rw [hq, hcell]
      rfl
    · rw [hagree q hq]

/-- The store with the entries of a leaf replaced. -/
def writeLeaf (s : BPTreeStore) (leaf : Pointer) (es : List (GoString × GoString)) : BPTreeStore :=
  { s with heap := s.heap.write leaf (leafWith (s.heap.cell leaf) es) }

/-! ### The split of a full leaf -/

/-- The cell of a leaf with the entries `es` after it has been cut. -/
def lowerHalf (s : BPTreeStore) (leaf : Pointer) (es : List (GoString × GoString)) : BpNode :=
  { leafWith (s.heap.cell leaf) (es.take (bpOrder / 2)) with next := some s.heap.used }

/-- The cell of the new leaf that takes over the upper half of the entries `es`. -/
def upperHalf (s : BPTreeStore) (leaf : Pointer) (es : List (GoString × GoString)) : BpNode :=
  { leafWith .newLeaf (es.drop (bpOrder / 2)) with next := (s.heap.cell leaf).next }

/-- The store after a leaf with the entries `es` has been cut: the upper half has moved to a new
leaf, linked after it. -/
def cutLeaf (s : BPTreeStore) (leaf : Pointer) (es : List (GoString × GoString)) : BPTreeStore :=
  { s with
    heap := ((writeLeaf s leaf es).heap.alloc (upperHalf s leaf es)).write leaf
      (lowerHalf s leaf es) }

theorem split_eq_insertIntoParent {s : BPTreeStore} {promoteKey : GoString}
    (hpromote : (es.map Prod.fst)[bpOrder / 2]? = some promoteKey) :
    (writeLeaf s leaf es).split leaf =
      (cutLeaf s leaf es).insertIntoParent leaf promoteKey s.heap.used := by
  have hfirst : index ((es.map Prod.fst).drop (bpOrder / 2)) 0 = .ok promoteKey := by
    refine index_eq_ok ?_
    rw [List.getElem?_drop, Nat.add_zero]
    exact hpromote
  simp only [BPTreeStore.split, writeLeaf, Memory.cell_write_self, bind, Except.bind, cutLeaf,
    lowerHalf, upperHalf, leafWith, Option.map_some, List.map_take, List.map_drop,
    Memory.used_write, hfirst]

section Cut

variable {s : BPTreeStore}

theorem cutLeaf_cell_leaf : (cutLeaf s leaf es).heap.cell leaf = lowerHalf s leaf es :=
  Memory.cell_write_self _ _ _

theorem cutLeaf_cell_new (hleaf : leaf < s.heap.used) :
    (cutLeaf s leaf es).heap.cell s.heap.used = upperHalf s leaf es :=
  (Memory.cell_write_of_ne _ _ (Nat.ne_of_gt hleaf)).trans
    (Memory.cell_alloc_used (writeLeaf s leaf es).heap _)

theorem cutLeaf_cell_of_ne {q : Pointer} (hq : q < s.heap.used) (hne : q ≠ leaf) :
    (cutLeaf s leaf es).heap.cell q = s.heap.cell q := by
  rw [cutLeaf, Memory.cell_write_of_ne _ _ hne,
    Memory.cell_alloc_of_lt (writeLeaf s leaf es).heap _ hq, writeLeaf,
    Memory.cell_write_of_ne _ _ hne]

/-- The two halves of sorted entries lie on the two sides of the first key of the upper half. -/
theorem halves_of_sorted (hsorted : es.Pairwise fun x y ↦ x.1 < y.1) {i : ℕ} {k : GoString}
    (hk : (es.map Prod.fst)[i]? = some k) :
    (∀ x ∈ es.take i, x.1 < k) ∧ ∀ x ∈ es.drop i, k ≤ x.1 := by
  rw [List.getElem?_map, Option.map_eq_some_iff] at hk
  obtain ⟨x, hx, rfl⟩ := hk
  obtain ⟨hi, rfl⟩ := List.getElem?_eq_some_iff.mp hx
  have hsplit := hsorted
  rw [← List.take_append_drop i es, List.drop_eq_getElem_cons hi] at hsplit
  obtain ⟨-, hupper, hcross⟩ := List.pairwise_append.mp hsplit
  refine ⟨fun y hy ↦ hcross y hy es[i] List.mem_cons_self, fun y hy ↦ ?_⟩
  rw [List.drop_eq_getElem_cons hi] at hy
  rcases List.mem_cons.mp hy with rfl | hy
  · exact le_rfl
  · exact ((List.pairwise_cons.mp hupper).1 y hy).le

/-- The first key of the upper half of a full leaf lies strictly inside the range of the leaf. -/
theorem Fits.promote (hes : Fits low back es) (hlength : es.length = bpOrder) {k : GoString}
    (hk : (es.map Prod.fst)[bpOrder / 2]? = some k) :
    low < (k : WithBot GoString) ∧ ∀ y ∈ back, (k : WithBot GoString) < y.1 := by
  obtain ⟨x, hx, rfl⟩ := List.mem_map.mp (List.mem_of_getElem? hk)
  refine ⟨?_, hes.lt_back x hx⟩
  cases es with
  | nil => exact absurd hlength (by decide)
  | cons first rest =>
    have hmem : first ∈ (first :: rest).take (bpOrder / 2) := by
      simp [bpOrder]
    exact (hes.low_le first (by simp)).trans_lt
      (WithBot.coe_lt_coe.mpr ((halves_of_sorted hes.sorted hk).1 first hmem))

theorem leafCell_lowerHalf (hes : Fits low back es) (hlength : es.length = bpOrder) :
    LeafCell (lowerHalf s leaf es) := by
  have hcell : LeafCell (leafWith (s.heap.cell leaf) (es.take (bpOrder / 2))) := by
    refine leafCell_leafWith (hes.sorted.sublist (List.take_sublist _ _)) ?_
    rw [List.length_take, hlength]
    decide
  exact ⟨hcell.leaf, hcell.values_length, hcell.keys_length, hcell.sorted⟩

theorem leafCell_upperHalf (hes : Fits low back es) (hlength : es.length = bpOrder) :
    LeafCell (upperHalf s leaf es) := by
  have hcell : LeafCell (leafWith .newLeaf (es.drop (bpOrder / 2))) := by
    refine leafCell_leafWith (hes.sorted.sublist (List.drop_sublist _ _)) ?_
    rw [List.length_drop, hlength]
    decide
  exact ⟨hcell.leaf, hcell.values_length, hcell.keys_length, hcell.sorted⟩

/-- Assumes: a frontier of leaves in use, and entries that fit one of them and fill it. The row with
the two halves of that leaf is a frontier. -/
theorem frontier_cutLeaf (hrow : Frontier s.heap (front ++ (low, leaf) :: back))
    (hlt : ∀ y ∈ front ++ (low, leaf) :: back, y.2 < s.heap.used) (hes : Fits low back es)
    (hlength : es.length = bpOrder) {k : GoString}
    (hk : (es.map Prod.fst)[bpOrder / 2]? = some k) :
    Frontier (cutLeaf s leaf es).heap
      (front ++ ([(low, leaf), ((k : WithBot GoString), s.heap.used)] ++ back)) := by
  have hleafLt : leaf < s.heap.used := hlt (low, leaf) (by simp)
  have hothers : ∀ y ∈ front ++ back, y.2 < s.heap.used := by
    intro y hy
    refine hlt y ?_
    rcases List.mem_append.mp hy with hy | hy
    · simp [hy]
    · simp [hy]
  obtain ⟨hlower, hupper⟩ := halves_of_sorted hes.sorted hk
  obtain ⟨hlow, hback⟩ := hes.promote hlength hk
  have hleafBack := (List.pairwise_cons.mp (List.pairwise_append.mp hrow.before).2.1).1
  have hleft : ∀ j ∈ ((cutLeaf s leaf es).heap.cell leaf).keys,
      ∃ v, (j, v) ∈ es.take (bpOrder / 2) := by
    intro j hj
    rw [cutLeaf_cell_leaf] at hj
    exact (mem_keys_leafWith (n := s.heap.cell leaf)).mp hj
  have hright : ∀ j ∈ ((cutLeaf s leaf es).heap.cell s.heap.used).keys,
      ∃ v, (j, v) ∈ es.drop (bpOrder / 2) := by
    intro j hj
    rw [cutLeaf_cell_new hleafLt] at hj
    exact (mem_keys_leafWith (n := .newLeaf)).mp hj
  refine hrow.replace
    (fun y hy ↦ cutLeaf_cell_of_ne (hothers y hy) (hrow.ne_leaf y hy)) ?_ ?_ ?_ ?_ ?_ ?_ ?_
  · simp only [List.forall_mem_cons]
    refine ⟨fun j hj ↦ ?_, fun j hj ↦ ?_, by simp⟩
    · obtain ⟨v, hv⟩ := hleft j hj
      exact hes.low_le _ (List.mem_of_mem_take hv)
    · obtain ⟨v, hv⟩ := hright j hj
      exact WithBot.coe_le_coe.mpr (hupper _ hv)
  · refine List.pairwise_pair.mpr ⟨⟨hlow, Nat.ne_of_lt hleafLt⟩, fun j hj ↦ ?_⟩
    obtain ⟨v, hv⟩ := hleft j hj
    exact WithBot.coe_lt_coe.mpr (hlower _ hv)
  · simp only [List.forall_mem_cons]
    exact ⟨le_rfl, hlow.le, by simp⟩
  · simp only [List.forall_mem_cons]
    exact ⟨fun y hy ↦ (hleafBack y hy).1, hback, by simp⟩
  · simp only [List.forall_mem_cons]
    refine ⟨fun j hj ↦ ?_, fun j hj ↦ ?_, by simp⟩
    · obtain ⟨v, hv⟩ := hleft j hj
      exact hes.lt_back _ (List.mem_of_mem_take hv)
    · obtain ⟨v, hv⟩ := hright j hj
      exact hes.lt_back _ (List.mem_of_mem_drop hv)
  · simp only [List.forall_mem_cons]
    exact ⟨hrow.ne_leaf, fun y hy ↦ Nat.ne_of_lt (hothers y hy), by simp⟩
  · have hlinked := hrow.linked
    have hnodup := nodup_of_before hrow.before
    rw [List.map_append, List.map_cons] at hlinked hnodup
    rw [List.map_append]
    refine hlinked.insert_after hnodup ?_ ?_ fun q hq hne ↦ ?_
    · rw [cutLeaf_cell_new hleafLt]
      rfl
    · rw [cutLeaf_cell_leaf]
      rfl
    · rw [← List.map_cons, ← List.map_append] at hq
      obtain ⟨y, hy, rfl⟩ := List.mem_map.mp hq
      rw [cutLeaf_cell_of_ne (hlt y hy) hne]

theorem entries_lowerHalf : entries (lowerHalf s leaf es) = es.take (bpOrder / 2) :=
  entries_leafWith (s.heap.cell leaf) _

theorem entries_upperHalf : entries (upperHalf s leaf es) = es.drop (bpOrder / 2) :=
  entries_leafWith .newLeaf _

/-- The two halves of a leaf hold together the entries of the leaf. -/
theorem stored_cutLeaf (hrow : Frontier s.heap (front ++ (low, leaf) :: back))
    (hlt : ∀ y ∈ front ++ (low, leaf) :: back, y.2 < s.heap.used) {end' : WithBot GoString}
    {k v : GoString} :
    Stored (cutLeaf s leaf es).heap (front ++ (low, leaf) :: (end', s.heap.used) :: back) k v ↔
      (∃ x ∈ front ++ back, (k, v) ∈ entries (s.heap.cell x.2)) ∨ (k, v) ∈ es := by
  have hothers : ∀ x ∈ front ++ back, (cutLeaf s leaf es).heap.cell x.2 = s.heap.cell x.2 := by
    intro x hx
    refine cutLeaf_cell_of_ne (hlt x ?_) (hrow.ne_leaf x hx)
    rcases List.mem_append.mp hx with hx | hx
    · simp [hx]
    · simp [hx]
  have hupper : Stored (cutLeaf s leaf es).heap (front ++ (end', s.heap.used) :: back) k v ↔
      (∃ x ∈ front ++ back, (k, v) ∈ entries (s.heap.cell x.2)) ∨
        (k, v) ∈ es.drop (bpOrder / 2) := by
    rw [stored_append_cons, cutLeaf_cell_new (hlt (low, leaf) (by simp)), entries_upperHalf]
    refine or_congr_left (exists_congr fun x ↦ and_congr_right fun hx ↦ ?_)
    rw [hothers x hx]
  have hhalves : (k, v) ∈ es ↔ (k, v) ∈ es.drop (bpOrder / 2) ∨ (k, v) ∈ es.take (bpOrder / 2) := by
    rw [or_comm, ← List.mem_append, List.take_append_drop]
  rw [stored_append_cons, cutLeaf_cell_leaf, entries_lowerHalf, hhalves, ← or_assoc]
  exact or_congr_left hupper

/-- Assumes: new entries for a leaf of the tree that fit it and fill it. Cutting the leaf leaves a
pending split in the row of leaves, and the row with the new leaf is a frontier. -/
theorem Tree.pending_split (hs : Tree s.heap s.root h)
    (hrow : level s.heap h [(⊥, s.root)] = front ++ (low, leaf) :: back) (hes : Fits low back es)
    (hlength : es.length = bpOrder) :
    ∃ promoteKey : GoString, (es.map Prod.fst)[bpOrder / 2]? = some promoteKey ∧
      Pending (cutLeaf s leaf es) h 0 front low leaf promoteKey s.heap.used back
        (front ++ (low, leaf) :: ((promoteKey : WithBot GoString), s.heap.used) :: back) ∧
      Frontier (cutLeaf s leaf es).heap
        (front ++ (low, leaf) :: ((promoteKey : WithBot GoString), s.heap.used) :: back) := by
  have hmid : bpOrder / 2 < (es.map Prod.fst).length := by
    rw [List.length_map, hlength]
    decide
  obtain ⟨promoteKey, hpromote⟩ : ∃ k, (es.map Prod.fst)[bpOrder / 2]? = some k :=
    ⟨_, List.getElem?_eq_getElem hmid⟩
  have hmem : (low, leaf) ∈ level s.heap h [(⊥, s.root)] := by
    rw [hrow]
    simp
  have hlt : ∀ y ∈ level s.heap h [(⊥, s.root)], y.2 < s.heap.used :=
    fun y hy ↦ (hs.node_of_mem hy).lt_used
  have hleafLt : leaf < s.heap.used := hlt _ hmem
  have hused : s.heap.used ≤ (cutLeaf s leaf es).heap.used := Nat.le_succ _
  have hleft : LeafCell ((cutLeaf s leaf es).heap.cell leaf) := by
    rw [cutLeaf_cell_leaf]
    exact leafCell_lowerHalf hes hlength
  have hright : LeafCell ((cutLeaf s leaf es).heap.cell s.heap.used) := by
    rw [cutLeaf_cell_new hleafLt]
    exact leafCell_upperHalf hes hlength
  obtain ⟨hnode, hlevel⟩ := hs.rows_of_leaf_change hmem hused
    (fun q hq hne ↦ cutLeaf_cell_of_ne hq hne) hleft
  have hfrontier := hs.frontier
  rw [hrow] at hlevel hfrontier hlt
  have hfinal := frontier_cutLeaf hfrontier hlt hes hlength hpromote
  exact ⟨promoteKey, hpromote, ⟨hnode, hs.height_lt.trans_le hused, hlevel,
    ⟨hleafLt.trans_le hused, hleft⟩, ⟨Nat.lt_succ_self _, hright⟩, rfl, hfinal.before⟩, hfinal⟩

end Cut

end FluxCache.Store.BPTreeRows
