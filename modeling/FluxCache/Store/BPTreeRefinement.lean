import FluxCache.Store.BPTreeLeaf

/-!
# The B+ tree store refines a finite map

`Represents s m` says that the store `s` satisfies the invariant of the tree and that its leaves
hold exactly the finite map `m`. A call of `Set` or `Del` replaces the entry of its key in one leaf
by the entry it writes, if any. `Represents.write` covers a leaf that keeps room and
`Represents.split` one that has become full and is split, with everything that follows from that up
to a new root. So each call returns and keeps the relation (`Represents.step`), every history does
(`represents_run`), and `Get` answers as the plain map of the history.
-/

set_option autoImplicit false
set_option relaxedAutoImplicit false

namespace FluxCache.Store.BPTreeRows

open FluxCache.Foundation BPTreeStore

variable {heap heap' : Memory BpNode} {h : ℕ} {leaf : Pointer} {front back : List Entry}
  {low : WithBot GoString} {n : BpNode} {op : StringOp} {m : GoMap GoString} {s : BPTreeStore}
  {key : GoString} {below old above : List (GoString × GoString)}

/-! ### The entries a call leaves -/

/-- Assumes: entries that fit a leaf, and a key in the range of the leaf. The entries a call on that
key leaves fit the leaf. -/
theorem Fits.edited (old : List (GoString × GoString)) (hes : Fits low back (below ++ old ++ above))
    (hbelow : ∀ x ∈ below, x.1 < op.key) (habove : ∀ x ∈ above, op.key < x.1)
    (hlow : low ≤ (op.key : WithBot GoString))
    (hback : ∀ y ∈ back, (op.key : WithBot GoString) < y.1) :
    Fits low back (edited op below above) := by
  obtain ⟨hleft, haboveSorted, hcross⟩ := List.pairwise_append.mp hes.sorted
  have hbelowSorted := (List.pairwise_append.mp hleft).1
  have hnew : ∀ x ∈ (op.written.map (Prod.mk op.key)).toList, x.1 = op.key := by
    intro x hx
    rw [Option.mem_toList, Option.map_eq_some_iff] at hx
    obtain ⟨w, -, rfl⟩ := hx
    rfl
  have hsingle : ((op.written.map (Prod.mk op.key)).toList).Pairwise fun x y ↦ x.1 < y.1 := by
    cases op.written with
    | none => exact List.Pairwise.nil
    | some w => exact List.pairwise_singleton _ _
  have hmem : ∀ x ∈ Store.edited op below above,
      x ∈ below ++ old ++ above ∨ x.1 = op.key := by
    intro x hx
    simp only [Store.edited, List.mem_append] at hx ⊢
    rcases hx with (hx | hx) | hx
    · exact Or.inl (Or.inl (Or.inl hx))
    · exact Or.inr (hnew x hx)
    · exact Or.inl (Or.inr hx)
  refine ⟨?_, fun x hx ↦ ?_, fun x hx ↦ ?_⟩
  · refine List.pairwise_append.mpr
      ⟨List.pairwise_append.mpr ⟨hbelowSorted, hsingle, fun x hx y hy ↦ ?_⟩, haboveSorted,
        fun x hx y hy ↦ ?_⟩
    · rw [hnew y hy]
      exact hbelow x hx
    · rcases List.mem_append.mp hx with hx | hx
      · exact (hbelow x hx).trans (habove y hy)
      · rw [hnew x hx]
        exact habove y hy
  · rcases hmem x hx with hx | hx
    · exact hes.low_le x hx
    · rw [hx]
      exact hlow
  · rcases hmem x hx with hx | hx
    · exact hes.lt_back x hx
    · rw [hx]
      exact hback

/-! ### What a store represents -/

/-- The store satisfies the invariant of the tree and its leaves hold exactly a finite map. -/
def Represents (s : BPTreeStore) (m : GoMap GoString) : Prop :=
  ∃ h, Tree s.heap s.root h ∧ Agrees s.heap (level s.heap h [(⊥, s.root)]) m

/-- The place of a key: the leaf its search ends in, and the entries of that leaf around the
position of the key. -/
structure Place (s : BPTreeStore) (h : ℕ) (key : GoString) (leaf : Pointer) (front : List Entry)
    (low : WithBot GoString) (back : List Entry)
    (below old above : List (GoString × GoString)) : Prop where
  search : s.searchLeaf key = .ok leaf
  row : level s.heap h [(⊥, s.root)] = front ++ (low, leaf) :: back
  low_le : low ≤ (key : WithBot GoString)
  lt_back : ∀ y ∈ back, (key : WithBot GoString) < y.1
  leafCell : LeafCell (s.heap.cell leaf)
  position_eq : position (s.heap.cell leaf) key = below.length
  entries_eq : entries (s.heap.cell leaf) = below ++ old ++ above
  below_lt : ∀ x ∈ below, x.1 < key
  lt_above : ∀ x ∈ above, key < x.1

/-- Every key has its place, with no entry or one entry of its own. -/
theorem Tree.exists_place (hs : Tree s.heap s.root h) (key : GoString) :
    ∃ leaf front low back below old above, Place s h key leaf front low back below old above ∧
      ((old = [] ∧ (s.heap.cell leaf).keys[below.length]? ≠ some key) ∨
        ∃ v, old = [(key, v)] ∧ (s.heap.cell leaf).keys[below.length]? = some key) := by
  obtain ⟨leaf, front, low, back, hsearch, hrow, hlow, hback⟩ := hs.searchLeaf_spec key
  have hleaf : LeafCell (s.heap.cell leaf) := hs.leafCell (e := (low, leaf)) (by rw [hrow]; simp)
  obtain ⟨below, above, hlt, hgt, hposition, hcases⟩ := hleaf.exists_split key
  rcases hcases with ⟨hsplit, hkey⟩ | ⟨v, hsplit, hkey⟩
  · exact ⟨leaf, front, low, back, below, [], above,
      ⟨hsearch, hrow, hlow, hback, hleaf, hposition, by simp [hsplit], hlt, hgt⟩,
      Or.inl ⟨rfl, hkey⟩⟩
  · exact ⟨leaf, front, low, back, below, [(key, v)], above,
      ⟨hsearch, hrow, hlow, hback, hleaf, hposition, by simp [hsplit], hlt, hgt⟩,
      Or.inr ⟨v, rfl, hkey⟩⟩

section Place

variable (op) (hplace : Place s h op.key leaf front low back below old above)
  (hold : ∀ x ∈ old, x.1 = op.key)

include hplace

/-- The entries a call leaves at the place of its key fit the leaf. -/
theorem Place.fits (hs : Tree s.heap s.root h) : Fits low back (edited op below above) := by
  have hfrontier := hs.frontier
  rw [hplace.row] at hfrontier
  have hrest := (List.pairwise_append.mp hfrontier.separated).2.1
  refine Fits.edited old ?_ hplace.below_lt hplace.lt_above hplace.low_le hplace.lt_back
  rw [← hplace.entries_eq]
  refine ⟨hplace.leafCell.pairwise_entries, fun x hx ↦ ?_, fun x hx y hy ↦ ?_⟩
  · exact hfrontier.bounded (low, leaf) (by simp) x.1 (fst_mem_keys hx)
  · exact ((List.pairwise_cons.mp hrest).1 y hy).2 x.1 (fst_mem_keys hx)

include hold

/-- Assumes: a row that holds the entries a call leaves instead of those of the leaf, and otherwise
what the row of leaves held. It agrees with the map after the call. -/
theorem Place.agrees {row : List Entry} (hs : Tree s.heap s.root h)
    (hm : Agrees s.heap (level s.heap h [(⊥, s.root)]) m)
    (hstored : ∀ k v, Stored heap' row k v ↔
      (∃ x ∈ front ++ back, (k, v) ∈ entries (s.heap.cell x.2)) ∨
        (k, v) ∈ edited op below above) :
    Agrees heap' row (op.apply m) := by
  have hfrontier := hs.frontier
  rw [hplace.row] at hfrontier hm
  intro k v
  rw [hstored k v]
  by_cases hk : k = op.key
  · rw [hk, mem_edited_key hplace.below_lt hplace.lt_above, op.lookup_apply_key, or_iff_right]
    rintro ⟨x, hx, hentry⟩
    exact hfrontier.notMem_entries hplace.low_le hplace.lt_back hx hentry
  · rw [op.lookup_apply_of_ne m (Ne.symm hk), mem_edited_of_ne hk hold, ← hplace.entries_eq,
      ← hm k v, stored_append_cons]

/-- A call that leaves room in its leaf keeps the relation. -/
theorem Place.write (hs : Tree s.heap s.root h)
    (hm : Agrees s.heap (level s.heap h [(⊥, s.root)]) m)
    (hlength : (edited op below above).length < bpOrder) (hashes : Hashes) :
    Represents { writeLeaf s leaf (edited op below above) with hashes := hashes }
      (op.apply m) := by
  obtain ⟨htree, hrow⟩ := hs.write_leaf hplace.row (hplace.fits op hs) hlength
  have hfrontier := hs.frontier
  rw [hplace.row] at hfrontier
  refine ⟨h, htree, ?_⟩
  rw [writeLeaf, hrow]
  refine hplace.agrees op hold hs hm fun k v ↦ ?_
  rw [stored_append_cons, Memory.cell_write_self, entries_leafWith]
  refine or_congr_left (exists_congr fun x ↦ and_congr_right fun hx ↦ ?_)
  rw [s.heap.cell_write_of_ne _ (hfrontier.ne_leaf x hx)]

/-- A call that fills its leaf has the leaf split and keeps the relation. -/
theorem Place.split (hs : Tree s.heap s.root h)
    (hm : Agrees s.heap (level s.heap h [(⊥, s.root)]) m)
    (hlength : (edited op below above).length = bpOrder) :
    ∃ s', (writeLeaf s leaf (edited op below above)).split leaf = .ok s' ∧
      Represents s' (op.apply m) := by
  obtain ⟨promoteKey, hpromote, hpending, hfrontier⟩ :=
    hs.pending_split hplace.row (hplace.fits op hs) hlength
  obtain ⟨s', hs', hgrown⟩ := hpending.insertIntoParent
  obtain ⟨h', hnode, hheight, hrow⟩ := hgrown.tree
  have hcells := fun x hx ↦ hgrown.leaf_cell x.2 (hpending.nodes x hx)
  have hbefore := hs.frontier
  have hlt : ∀ x ∈ level s.heap h [(⊥, s.root)], x.2 < s.heap.used :=
    fun x hx ↦ (hs.node_of_mem hx).lt_used
  rw [hplace.row] at hbefore hlt
  rw [split_eq_insertIntoParent hpromote]
  refine ⟨s', hs', h', ⟨hnode, hheight, by rw [hrow]; exact hfrontier.congr hcells⟩, ?_⟩
  rw [hrow]
  refine hplace.agrees op hold hs hm fun k v ↦ ?_
  rw [stored_congr hcells, stored_cutLeaf hbefore hlt]

end Place

/-! ### The cells the calls write -/

section Cell

variable {value v : GoString} (hn : LeafCell n)

include hn

theorem LeafCell.leafWith_entries : leafWith n (entries n) = n := by
  rw [leafWith, hn.map_fst_entries, ← hn.values_eq]

theorem LeafCell.values_getD : n.values.getD [] = (entries n).map Prod.snd := by
  rw [hn.values_eq, Option.getD_some]

/-- Dropping the key and the value at a position drops the entry there. -/
theorem LeafCell.remove_eq (hsplit : entries n = below ++ [(key, v)] ++ above) :
    { n with
      keys := n.keys.take below.length ++ n.keys.drop (below.length + 1)
      values := n.values.map fun values ↦
        values.take below.length ++ values.drop (below.length + 1) } =
      leafWith n (edited (.del key) below above) := by
  have hdrop : ∀ f : GoString × GoString → GoString,
      ((below ++ [(key, v)] ++ above).map f).drop (below.length + 1) = above.map f := by
    intro f
    rw [List.map_append, List.drop_left' (by simp)]
  rw [hn.values_eq, ← hn.map_fst_entries, hsplit, leafWith, hdrop, Option.map_some, hdrop]
  simp [edited, StringOp.written]

/-- Overwriting the value at a position replaces the entry there. -/
theorem LeafCell.replace_eq (hsplit : entries n = below ++ [(key, v)] ++ above) :
    { n with values := n.values.map fun values ↦ values.set below.length value } =
      leafWith n (edited (.set key value) below above) := by
  have hkeys : (edited (.set key value) below above).map Prod.fst = n.keys := by
    rw [← hn.map_fst_entries, hsplit]
    simp [edited, StringOp.written, StringOp.key]
  rw [leafWith, hkeys, hn.values_eq, hsplit]
  simp [edited, StringOp.written]

/-- Inserting a key and a value at a position inserts an entry there. -/
theorem LeafCell.insertAt_eq (key value : GoString) (hsplit : entries n = below ++ [] ++ above) :
    insertAt n.keys below.length key =
        .ok ((edited (.set key value) below above).map Prod.fst) ∧
      insertAt (n.values.getD []) below.length value =
        .ok ((edited (.set key value) below above).map Prod.snd) := by
  rw [hn.values_getD, ← hn.map_fst_entries, hsplit]
  constructor
  · simp [insertAt, edited, StringOp.written, StringOp.key]
  · simp [insertAt, edited, StringOp.written]

theorem LeafCell.length_entries_lt : (entries n).length < bpOrder := by
  rw [← List.length_map Prod.fst, hn.map_fst_entries]
  exact hn.keys_length

end Cell

/-! ### The calls -/

/-- `Del` returns and keeps the relation. -/
theorem Represents.del (hs : Represents s m) (key : GoString) :
    ∃ s', s.del key = .ok s' ∧ Represents s' (StringOp.apply m (.del key)) := by
  obtain ⟨h, htree, hm⟩ := hs
  obtain ⟨leaf, front, low, back, below, old, above, hplace, hcases⟩ := htree.exists_place key
  have hentries := hplace.entries_eq
  have hroom : (edited (.del key) below above).length < bpOrder := by
    have hlength := hplace.leafCell.length_entries_lt
    rw [hentries, List.length_append, List.length_append] at hlength
    simp only [edited, StringOp.written, Option.map_none, Option.toList_none, List.append_nil,
      List.length_append]
    omega
  have hold : ∀ x ∈ old, x.1 = key := by
    rcases hcases with ⟨rfl, -⟩ | ⟨v, rfl, -⟩
    · simp
    · simp
  refine ⟨_, ?_, hplace.write (.del key) hold htree hm hroom (s.hashes.erase key)⟩
  simp only [BPTreeStore.del, hplace.search, bind, Except.bind, pure, Except.pure,
    hplace.position_eq, writeLeaf]
  rcases hcases with ⟨rfl, hkey⟩ | ⟨v, rfl, hkey⟩
  · have hsame : edited (.del key) below above = entries (s.heap.cell leaf) := hentries.symm
    rw [if_neg hkey, hsame, hplace.leafCell.leafWith_entries, Memory.write_cell_self]
  · rw [if_pos hkey, hplace.leafCell.remove_eq hentries]

/-- `Set` returns and keeps the relation. -/
theorem Represents.set (hs : Represents s m) (key value : GoString) :
    ∃ s', s.set key value = .ok s' ∧ Represents s' (StringOp.apply m (.set key value)) := by
  obtain ⟨h, htree, hm⟩ := hs
  obtain ⟨leaf, front, low, back, below, old, above, hplace, hcases⟩ := htree.exists_place key
  have hlength := hplace.leafCell.length_entries_lt
  rw [hplace.entries_eq, List.length_append, List.length_append] at hlength
  have hcount : (edited (.set key value) below above).length =
      below.length + above.length + 1 := by
    simp [edited, StringOp.written]
    omega
  simp only [BPTreeStore.set, hplace.search, bind, Except.bind, pure, Except.pure,
    hplace.position_eq]
  rcases hcases with ⟨rfl, hkey⟩ | ⟨v, rfl, hkey⟩
  · obtain ⟨hkeys, hvalues⟩ := hplace.leafCell.insertAt_eq key value hplace.entries_eq
    have hstore : ({ s with heap := s.heap.write leaf { s.heap.cell leaf with
        keys := (edited (.set key value) below above).map Prod.fst
        values := some ((edited (.set key value) below above).map Prod.snd) } } : BPTreeStore) =
        writeLeaf s leaf (edited (.set key value) below above) := rfl
    simp only [if_neg hkey, hkeys, hvalues, List.length_map, hstore]
    by_cases hroom : (edited (.set key value) below above).length < bpOrder
    · rw [if_pos hroom]
      exact ⟨_, rfl, hplace.write (.set key value) (by simp) htree hm hroom s.hashes⟩
    · rw [if_neg hroom]
      refine hplace.split (.set key value) (by simp) htree hm ?_
      simp only [List.length_nil] at hlength
      omega
  · rw [if_pos hkey, hplace.leafCell.replace_eq hplace.entries_eq]
    refine ⟨_, rfl, hplace.write (.set key value) (by simp [StringOp.key]) htree hm ?_
      s.hashes⟩
    simp only [List.length_singleton] at hlength
    omega

theorem Represents.step (hs : Represents s m) (op : StringOp) :
    ∃ s', s.step op = .ok s' ∧ Represents s' (op.apply m) := by
  cases op with
  | set key value => exact hs.set key value
  | del key => exact hs.del key

/-- The fresh store represents the empty map. -/
theorem represents_new : Represents BPTreeStore.new ∅ := by
  have hcell : BPTreeStore.new.heap.cell 0 = .newLeaf := Memory.cell_alloc_used _ _
  have hleaf : LeafCell (BPTreeStore.new.heap.cell 0) := by
    rw [hcell]
    exact ⟨rfl, rfl, by decide, List.Pairwise.nil⟩
  have hkeys : (BPTreeStore.new.heap.cell 0).keys = [] := by
    rw [hcell]
    rfl
  refine ⟨0, ⟨⟨Nat.one_pos, hleaf⟩, Nat.one_pos, ?_, ?_, ?_⟩, fun k v ↦ ?_⟩
  · intro e he k hk
    rw [List.mem_singleton.mp he, show BPTreeStore.new.root = 0 from rfl, hkeys] at hk
    exact absurd hk List.not_mem_nil
  · exact List.pairwise_singleton _ _
  · show (BPTreeStore.new.heap.cell 0).next = none
    rw [hcell]
    rfl
  · have hnone : ¬Stored BPTreeStore.new.heap [(⊥, BPTreeStore.new.root)] k v := by
      rintro ⟨e, he, hentry⟩
      rw [List.mem_singleton.mp he] at hentry
      have hmem := fst_mem_keys hentry
      rw [show BPTreeStore.new.root = 0 from rfl, hkeys] at hmem
      exact absurd hmem List.not_mem_nil
    simp only [level_zero, hnone, Finmap.lookup_empty, reduceCtorEq]

/-- Every history of calls returns and keeps the relation. -/
theorem Represents.run (hs : Represents s m) (ops : List StringOp) :
    ∃ s', s.run ops = .ok s' ∧ Represents s' (ops.foldl StringOp.apply m) := by
  induction ops generalizing s m with
  | nil => exact ⟨s, rfl, hs⟩
  | cons op ops ih =>
    obtain ⟨s₁, hstep, hs₁⟩ := hs.step op
    obtain ⟨s₂, hrun, hs₂⟩ := ih hs₁
    refine ⟨s₂, ?_, hs₂⟩
    rw [BPTreeStore.run, hstep]
    exact hrun

theorem represents_run (ops : List StringOp) :
    ∃ s, BPTreeStore.new.run ops = .ok s ∧ Represents s (plainMap ops) :=
  represents_new.run ops

/-- The B+ tree store refines the plain finite map. Every history of `Set` and `Del` calls on a
fresh store returns, so no call meets a nil parent, an index out of range or an endless loop; and
`Get` answers `(v, true)` when the last call on the key was the `Set` of `v` and `("", false)`
otherwise. -/
theorem bptree_refines_map (ops : List StringOp) (k : GoString) :
    ∃ s, BPTreeStore.new.run ops = .ok s ∧ s.get k = .ok (commaOk ((plainMap ops).lookup k)) ∧
      ∀ v, s.get k = .ok (v, true) ↔
        ∃ before after, ops = before ++ .set k v :: after ∧ ∀ op ∈ after, op.key ≠ k := by
  obtain ⟨s, hrun, h, htree, hm⟩ := represents_run ops
  have hget := htree.get_eq hm k
  refine ⟨s, hrun, hget, fun v ↦ ?_⟩
  rw [hget, ← lookup_plainMap_eq_some_iff]
  exact commaOk_eq_true_iff

end FluxCache.Store.BPTreeRows
