import FluxCache.Store.BPTreeRows

/-!
# The invariant of the B+ tree and its search

`Tree heap root h` is the invariant of the store: the root is a proper tree of height `h`, and the
row of its leaves is a `Frontier`. In a frontier the lower ends increase from leaf to leaf, the
keys of a leaf lie between its own lower end and that of every later leaf, and the `next` pointers
run through the leaves in order.

The descent of `searchLeaf` follows, row by row, the last entry whose lower end is at most the key
(`searchLeafFrom_spec`), and so ends in the only leaf that can hold the key
(`Tree.searchLeaf_spec`). `Get` returns the stored value (`Tree.get_eq`).
-/

set_option autoImplicit false
set_option relaxedAutoImplicit false

namespace FluxCache.Store.BPTreeRows

open FluxCache.Foundation BPTreeStore

variable {heap heap' : Memory BpNode} {least h n : ℕ} {p : Pointer} {e : Entry}
  {row front back : List Entry} {key : GoString}

/-- The order of the row of leaves: increasing lower ends, keys between the lower ends, and `next`
pointers from leaf to leaf. -/
structure Frontier (heap : Memory BpNode) (row : List Entry) : Prop where
  bounded : ∀ e ∈ row, ∀ k ∈ (heap.cell e.2).keys, e.1 ≤ (k : WithBot GoString)
  separated : row.Pairwise fun a b ↦
    Before a b ∧ ∀ k ∈ (heap.cell a.2).keys, (k : WithBot GoString) < b.1
  linked : Linked (fun p ↦ (heap.cell p).next) (row.map Prod.snd)

theorem Frontier.before (hrow : Frontier heap row) : row.Pairwise Before :=
  hrow.separated.imp fun hab ↦ hab.1

theorem nodup_of_before (hrow : row.Pairwise Before) : (row.map Prod.snd).Nodup :=
  List.pairwise_map.mpr (hrow.imp fun hab ↦ hab.2)

/-- Assumes: a memory that agrees on the leaves of a frontier. -/
theorem Frontier.congr (hrow : Frontier heap row)
    (hcells : ∀ x ∈ row, heap'.cell x.2 = heap.cell x.2) : Frontier heap' row := by
  refine ⟨fun e he k hk ↦ ?_, hrow.separated.imp_of_mem fun {a b} ha _ hab ↦ ?_,
    hrow.linked.congr fun p hp ↦ ?_⟩
  · rw [hcells e he] at hk
    exact hrow.bounded e he k hk
  · rw [hcells a ha]
    exact hab
  · obtain ⟨x, hx, rfl⟩ := List.mem_map.mp hp
    rw [hcells x hx]

/-- The invariant of the tree with a given root and height. -/
structure Tree (heap : Memory BpNode) (root : Pointer) (h : ℕ) : Prop where
  node : Node heap 1 h root
  height_lt : h < heap.used
  frontier : Frontier heap (level heap h [(⊥, root)])

/-- A key is stored with a value in one of the leaves of a row. -/
def Stored (heap : Memory BpNode) (row : List Entry) (k v : GoString) : Prop :=
  ∃ e ∈ row, (k, v) ∈ entries (heap.cell e.2)

theorem stored_congr {k v : GoString} (hcells : ∀ x ∈ row, heap'.cell x.2 = heap.cell x.2) :
    Stored heap' row k v ↔ Stored heap row k v := by
  refine exists_congr fun x ↦ and_congr_right fun hx ↦ ?_
  rw [hcells x hx]

/-! ### The descent -/

/-- The separators of an internal node increase when its children are in order. -/
theorem keys_sorted_of_fanout (hn : InternalCell least (heap.cell e.2))
    (hsorted : (fanout heap e).Pairwise Before) : (heap.cell e.2).keys.Pairwise (· < ·) := by
  have hends : (e.1 :: (heap.cell e.2).keys.map WithBot.some).Pairwise (· < ·) := by
    rw [← map_fst_fanout hn, List.pairwise_map]
    exact hsorted.imp fun hab ↦ hab.1
  have htail := (List.pairwise_cons.mp hends).2
  rw [List.pairwise_map] at htail
  exact htail.imp fun hab ↦ WithBot.coe_lt_coe.mp hab

/-- Assumes: an internal node with increasing separators, whose lower end is at most the key. The
child the descent takes is the last one whose lower end is at most the key. -/
theorem fanout_split (hn : InternalCell least (heap.cell e.2))
    (hsorted : (fanout heap e).Pairwise Before) (hlow : e.1 ≤ (key : WithBot GoString)) :
    ∃ left low child right, fanout heap e = left ++ (low, child) :: right ∧
      low ≤ (key : WithBot GoString) ∧ (∀ y ∈ right, (key : WithBot GoString) < y.1) ∧
      index (heap.cell e.2).children
        (searchSlice (fun k ↦ decide (key < k)) (heap.cell e.2).keys) = .ok child := by
  have hkeys := keys_sorted_of_fanout hn hsorted
  obtain ⟨below, above, hsplit, hbelow, habove⟩ :=
    exists_split_of_pairwise (p := fun k ↦ decide (key < k))
      (hkeys.imp fun {a b} hab ha ↦ decide_eq_true ((of_decide_eq_true ha).trans hab))
  have hsearch : searchSlice (fun k ↦ decide (key < k)) (heap.cell e.2).keys = below.length := by
    rw [hsplit]
    exact searchSlice_append hbelow habove
  have hlength : below.length < (heap.cell e.2).children.length := by
    rw [hn.arity, hsplit, List.length_append]
    omega
  have hchild : (heap.cell e.2).children[below.length]? =
      some (heap.cell e.2).children[below.length] := List.getElem?_eq_getElem hlength
  have hfan : below.length < (fanout heap e).length := by
    rw [← List.length_map Prod.snd, map_snd_fanout hn]
    exact hlength
  have hbound : below.length < (e.1 :: (heap.cell e.2).keys.map WithBot.some).length := by
    rw [← map_fst_fanout hn, List.length_map]
    exact hfan
  have hfst : (fanout heap e)[below.length].1 =
      (e.1 :: (heap.cell e.2).keys.map WithBot.some)[below.length] := by
    simp only [← map_fst_fanout hn, List.getElem_map]
  have hsnd : (fanout heap e)[below.length].2 = (heap.cell e.2).children[below.length] := by
    simp only [← map_snd_fanout hn, List.getElem_map]
  refine ⟨(fanout heap e).take below.length, (fanout heap e)[below.length].1,
    (fanout heap e)[below.length].2, (fanout heap e).drop (below.length + 1), ?_, ?_, ?_, ?_⟩
  · rw [Prod.mk.eta, List.getElem_cons_drop, List.take_append_drop]
  · rw [hfst]
    cases below with
    | nil => exact hlow
    | cons k below =>
      simp only [List.length_cons, List.getElem_cons_succ, List.getElem_map, hsplit]
      rw [WithBot.coe_le_coe]
      have hmem : (k :: below ++ above)[below.length] ∈ k :: below := by
        rw [List.getElem_append_left (by simp)]
        exact List.getElem_mem _
      exact not_lt.mp (of_decide_eq_false (hbelow _ hmem))
  · intro y hy
    have hy1 : y.1 ∈ ((fanout heap e).map Prod.fst).drop (below.length + 1) := by
      rw [← List.map_drop]
      exact List.mem_map_of_mem hy
    rw [map_fst_fanout hn, List.drop_succ_cons, hsplit, List.map_append,
      List.drop_left' (by simp)] at hy1
    obtain ⟨k, hk, hky⟩ := List.mem_map.mp hy1
    rw [← hky]
    exact WithBot.coe_lt_coe.mpr (of_decide_eq_true (habove k hk))
  · rw [hsearch, hsnd]
    exact index_eq_ok hchild

/-- The entries of later nodes of a row in order lie above the key when the nodes themselves do. -/
theorem lt_of_mem_flatMap_fanout (hrow : ∀ x ∈ back, InternalCell 0 (heap.cell x.2))
    (hsorted : (back.flatMap (fanout heap)).Pairwise Before)
    (habove : ∀ y ∈ back, (key : WithBot GoString) < y.1) :
    ∀ y ∈ back.flatMap (fanout heap), (key : WithBot GoString) < y.1 := by
  intro y hy
  obtain ⟨e, he, hye⟩ := List.mem_flatMap.mp hy
  obtain ⟨first, rest, tail, -, hfan⟩ := fanout_eq_cons (hrow e he)
  have hfanSorted := (List.pairwise_flatMap.mp hsorted).1 e he
  rw [hfan] at hye hfanSorted
  rcases List.mem_cons.mp hye with rfl | hye
  · exact habove e he
  · exact (habove e he).trans ((List.pairwise_cons.mp hfanSorted).1 y hye).1

/-- Assumes: a row of proper trees of height `h` whose leaves are in order, and an entry of it with
a lower end at most the key such that every later entry lies above the key. The descent from that
entry ends in the leaf with the same property in the row of leaves. -/
theorem searchLeafFrom_spec (key : GoString) {h : ℕ} :
    ∀ {row front back : List Entry} {low : WithBot GoString} {p : Pointer} {steps : ℕ}, h < steps →
      row = front ++ (low, p) :: back → (∀ x ∈ row, Node heap 0 h x.2) →
      (level heap h row).Pairwise Before → low ≤ (key : WithBot GoString) →
      (∀ y ∈ back, (key : WithBot GoString) < y.1) →
      ∃ leaf front' low' back', searchLeafFrom heap key steps p = .ok leaf ∧
        level heap h row = front' ++ (low', leaf) :: back' ∧ low' ≤ (key : WithBot GoString) ∧
        ∀ y ∈ back', (key : WithBot GoString) < y.1 := by
  induction h with
  | zero =>
    intro row front back low p steps hsteps hrow hnodes _ hlow habove
    obtain ⟨steps, rfl⟩ := Nat.exists_eq_succ_of_ne_zero (Nat.ne_of_gt hsteps)
    have hleaf := (hnodes (low, p) (by rw [hrow]; simp)).leafCell.leaf
    exact ⟨p, front, low, back, by rw [searchLeafFrom, if_pos hleaf], hrow, hlow, habove⟩
  | succ h ih =>
    intro row front back low p steps hsteps hrow hnodes hsorted hlow habove
    obtain ⟨steps, rfl⟩ := Nat.exists_eq_succ_of_ne_zero (Nat.ne_of_gt (Nat.zero_lt_of_lt hsteps))
    have hnode := hnodes (low, p) (by rw [hrow]; simp)
    have hchildren : ∀ x ∈ row.flatMap (fanout heap), Node heap 0 h x.2 :=
      node_of_mem_level (n := 1) fun x hx ↦ by rw [Nat.add_comm]; exact hnodes x hx
    have hsorted' : (row.flatMap (fanout heap)).Pairwise Before :=
      pairwise_before_of_level (h := 0) hchildren hsorted
    have hexpand : row.flatMap (fanout heap) = front.flatMap (fanout heap) ++
        (fanout heap (low, p) ++ back.flatMap (fanout heap)) := by
      rw [hrow, List.flatMap_append, List.flatMap_cons]
    rw [hexpand] at hsorted'
    have hparts := List.pairwise_append.mp (List.pairwise_append.mp hsorted').2.1
    obtain ⟨left, low', child, right, hfan, hlow', hright, hindex⟩ :=
      fanout_split hnode.internalCell hparts.1 hlow
    have hback : ∀ y ∈ right ++ back.flatMap (fanout heap), (key : WithBot GoString) < y.1 := by
      intro y hy
      rcases List.mem_append.mp hy with hy | hy
      · exact hright y hy
      · refine lt_of_mem_flatMap_fanout (fun x hx ↦ ?_) hparts.2.1 habove y hy
        exact (hnodes x (by rw [hrow]; simp [hx])).internalCell
    have hrow' : row.flatMap (fanout heap) = (front.flatMap (fanout heap) ++ left) ++
        (low', child) :: (right ++ back.flatMap (fanout heap)) := by
      rw [hexpand, hfan]
      simp
    obtain ⟨leaf, front', low'', back', hfound, hlevel, hrest⟩ :=
      ih (Nat.lt_of_succ_lt_succ hsteps) hrow' hchildren hsorted hlow' hback
    refine ⟨leaf, front', low'', back', ?_, hlevel, hrest⟩
    rw [searchLeafFrom, if_neg (by rw [hnode.internalCell.internal]; exact Bool.false_ne_true),
      hindex]
    exact hfound

/-- The descent of the store ends in the last leaf whose lower end is at most the key. -/
theorem Tree.searchLeaf_spec {s : BPTreeStore} (hs : Tree s.heap s.root h) (key : GoString) :
    ∃ leaf front low back, s.searchLeaf key = .ok leaf ∧
      level s.heap h [(⊥, s.root)] = front ++ (low, leaf) :: back ∧
      low ≤ (key : WithBot GoString) ∧ ∀ y ∈ back, (key : WithBot GoString) < y.1 := by
  have hroot : [((⊥ : WithBot GoString), s.root)] = [] ++ (⊥, s.root) :: [] := rfl
  refine searchLeafFrom_spec key hs.height_lt hroot ?_ hs.frontier.before bot_le (by simp)
  intro x hx
  rw [List.mem_singleton.mp hx]
  exact hs.node.weaken (Nat.zero_le _)

/-! ### The entries of a leaf -/

theorem LeafCell.map_fst_entries {n : BpNode} (hn : LeafCell n) :
    (entries n).map Prod.fst = n.keys := by
  rw [entries, List.map_fst_zip (by rw [hn.values_length])]

theorem LeafCell.values_eq {n : BpNode} (hn : LeafCell n) :
    n.values = some ((entries n).map Prod.snd) := by
  obtain ⟨values, hvalues⟩ := Option.isSome_iff_exists.mp hn.leaf
  rw [entries, List.map_snd_zip (by rw [hn.values_length]), hvalues]
  rfl

theorem LeafCell.pairwise_entries {n : BpNode} (hn : LeafCell n) :
    (entries n).Pairwise fun x y ↦ x.1 < y.1 := by
  have hkeys := hn.sorted
  rwa [← hn.map_fst_entries, List.pairwise_map] at hkeys

theorem LeafCell.getElem?_keys {n : BpNode} (hn : LeafCell n)
    {below above : List (GoString × GoString)} (hsplit : entries n = below ++ above) :
    n.keys[below.length]? = above.head?.map Prod.fst := by
  rw [← hn.map_fst_entries, hsplit, List.getElem?_map, List.getElem?_append_right le_rfl,
    Nat.sub_self, List.head?_eq_getElem?]

/-- The search for the position of a key stops after the entries below the key. -/
theorem LeafCell.position_eq {n : BpNode} (hn : LeafCell n) {key : GoString}
    {below above : List (GoString × GoString)} (hsplit : entries n = below ++ above)
    (hbelow : ∀ x ∈ below, x.1 < key) (habove : ∀ x ∈ above, key ≤ x.1) :
    position n key = below.length := by
  rw [position, ← hn.map_fst_entries, hsplit, List.map_append, ← List.length_map Prod.fst]
  refine searchSlice_append (fun k hk ↦ ?_) fun k hk ↦ ?_
  · obtain ⟨x, hx, rfl⟩ := List.mem_map.mp hk
    exact decide_eq_false (not_le.mpr (hbelow x hx))
  · obtain ⟨x, hx, rfl⟩ := List.mem_map.mp hk
    exact decide_eq_true (habove x hx)

/-- The position of a key splits the entries of a leaf into those below the key and those above it,
with the entry of the key between them when there is one. -/
theorem LeafCell.exists_split {n : BpNode} (hn : LeafCell n) (key : GoString) :
    ∃ below above, (∀ x ∈ below, x.1 < key) ∧ (∀ x ∈ above, key < x.1) ∧
      position n key = below.length ∧
      ((entries n = below ++ above ∧ n.keys[below.length]? ≠ some key) ∨
        ∃ v, entries n = below ++ (key, v) :: above ∧ n.keys[below.length]? = some key) := by
  obtain ⟨below, above, hsplit, hbelow, habove⟩ :=
    exists_split_of_pairwise (p := fun x : GoString × GoString ↦ decide (key ≤ x.1))
      (hn.pairwise_entries.imp fun {a b} hab ha ↦
        decide_eq_true ((of_decide_eq_true ha).trans hab.le))
  have hlt : ∀ x ∈ below, x.1 < key := fun x hx ↦ not_le.mp (of_decide_eq_false (hbelow x hx))
  have hge : ∀ x ∈ above, key ≤ x.1 := fun x hx ↦ of_decide_eq_true (habove x hx)
  have hposition := hn.position_eq hsplit hlt hge
  have hhead := hn.getElem?_keys hsplit
  cases above with
  | nil =>
    refine ⟨below, [], hlt, by simp, hposition, Or.inl ⟨hsplit, ?_⟩⟩
    rw [hhead]
    simp
  | cons x rest =>
    have hsorted := hn.pairwise_entries
    rw [hsplit] at hsorted
    have hrest := (List.pairwise_cons.mp (List.pairwise_append.mp hsorted).2.1).1
    by_cases hx : x.1 = key
    · refine ⟨below, rest, hlt, fun y hy ↦ ?_, hposition, Or.inr ⟨x.2, ?_, ?_⟩⟩
      · rw [← hx]
        exact hrest y hy
      · rw [hsplit, ← hx]
      · rw [hhead, List.head?_cons, Option.map_some, hx]
    · have hlast := lt_of_le_of_ne (hge x (by simp)) (Ne.symm hx)
      refine ⟨below, x :: rest, hlt, fun y hy ↦ ?_, hposition, Or.inl ⟨hsplit, ?_⟩⟩
      · rcases List.mem_cons.mp hy with rfl | hy
        · exact hlast
        · exact hlast.trans (hrest y hy)
      · rw [hhead, List.head?_cons, Option.map_some, ne_eq, Option.some.injEq]
        exact hx

theorem fst_mem_keys {n : BpNode} {k v : GoString} (h : (k, v) ∈ entries n) : k ∈ n.keys :=
  (List.of_mem_zip h).1

/-- The only leaf of a frontier that can hold a key is the last one whose lower end is at most
the key. -/
theorem Frontier.notMem_entries {low : WithBot GoString} {leaf : Pointer} {v : GoString}
    (hrow : Frontier heap (front ++ (low, leaf) :: back)) (hlow : low ≤ (key : WithBot GoString))
    (habove : ∀ y ∈ back, (key : WithBot GoString) < y.1) (he : e ∈ front ++ back) :
    (key, v) ∉ entries (heap.cell e.2) := by
  intro hentry
  rcases List.mem_append.mp he with hfront | hback
  · have hlt := ((List.pairwise_append.mp hrow.separated).2.2 e hfront (low, leaf) (by simp)).2
      key (fst_mem_keys hentry)
    exact absurd (hlt.trans_le hlow) (lt_irrefl _)
  · have hle := hrow.bounded e (by simp [hback]) key (fst_mem_keys hentry)
    exact absurd ((habove e hback).trans_le hle) (lt_irrefl _)

/-- What a row holds in one of its leaves or in another. -/
theorem stored_append_cons {k v : GoString} :
    Stored heap (front ++ e :: back) k v ↔
      (∃ x ∈ front ++ back, (k, v) ∈ entries (heap.cell x.2)) ∨
        (k, v) ∈ entries (heap.cell e.2) := by
  simp only [Stored, List.mem_append, List.mem_cons]
  constructor
  · rintro ⟨x, hx | rfl | hx, hentry⟩
    · exact Or.inl ⟨x, Or.inl hx, hentry⟩
    · exact Or.inr hentry
    · exact Or.inl ⟨x, Or.inr hx, hentry⟩
  · rintro (⟨x, hx | hx, hentry⟩ | hentry)
    · exact ⟨x, Or.inl hx, hentry⟩
    · exact ⟨x, Or.inr (Or.inr hx), hentry⟩
    · exact ⟨e, Or.inr (Or.inl rfl), hentry⟩

theorem Frontier.stored_iff {low : WithBot GoString} {leaf : Pointer} {v : GoString}
    (hrow : Frontier heap (front ++ (low, leaf) :: back)) (hlow : low ≤ (key : WithBot GoString))
    (habove : ∀ y ∈ back, (key : WithBot GoString) < y.1) :
    Stored heap (front ++ (low, leaf) :: back) key v ↔ (key, v) ∈ entries (heap.cell leaf) := by
  rw [stored_append_cons, or_iff_right]
  rintro ⟨x, hx, hentry⟩
  exact hrow.notMem_entries hlow habove hx hentry

/-- A finite map agrees with the leaves of a row. -/
def Agrees (heap : Memory BpNode) (row : List Entry) (m : GoMap GoString) : Prop :=
  ∀ k v, Stored heap row k v ↔ m.lookup k = some v

theorem Tree.node_of_mem {root : Pointer} (hs : Tree heap root h)
    (he : e ∈ level heap h [(⊥, root)]) : Node heap 0 0 e.2 := by
  refine node_of_mem_level (h := 0) (fun x hx ↦ ?_) e he
  rw [List.mem_singleton.mp hx]
  exact hs.node.weaken (Nat.zero_le _)

/-- A walk through the leaves takes no more steps than there are nodes. -/
theorem Tree.length_level_le {root : Pointer} (hs : Tree heap root h) :
    (level heap h [(⊥, root)]).length ≤ heap.used := by
  rw [← List.length_map Prod.snd]
  refine length_le_of_nodup (nodup_of_before hs.frontier.before) fun p hp ↦ ?_
  obtain ⟨x, hx, rfl⟩ := List.mem_map.mp hp
  exact (hs.node_of_mem hx).lt_used

/-- The leaf a search ends in is a proper leaf. -/
theorem Tree.leafCell {root : Pointer} (hs : Tree heap root h)
    (he : e ∈ level heap h [(⊥, root)]) : LeafCell (heap.cell e.2) :=
  (hs.node_of_mem he).leafCell

/-- `Get` on a store returns what the finite map that agrees with its leaves holds. -/
theorem Tree.get_eq {s : BPTreeStore} {m : GoMap GoString} (hs : Tree s.heap s.root h)
    (hm : Agrees s.heap (level s.heap h [(⊥, s.root)]) m) (key : GoString) :
    s.get key = .ok (commaOk (m.lookup key)) := by
  obtain ⟨leaf, front, low, back, hsearch, hlevel, hlow, habove⟩ := hs.searchLeaf_spec key
  have hleaf : LeafCell (s.heap.cell leaf) := hs.leafCell (e := (low, leaf)) (by rw [hlevel]; simp)
  have hstored : ∀ v, m.lookup key = some v ↔ (key, v) ∈ entries (s.heap.cell leaf) := by
    intro v
    have hfrontier := hs.frontier
    rw [hlevel] at hm hfrontier
    rw [← hm key v, hfrontier.stored_iff hlow habove]
  obtain ⟨below, above, hlt, hgt, hposition, hcases⟩ := hleaf.exists_split key
  simp only [BPTreeStore.get, hsearch, hposition, bind, Except.bind, pure, Except.pure]
  rcases hcases with ⟨hsplit, hkey⟩ | ⟨v, hsplit, hkey⟩
  · have hnone : m.lookup key = none := by
      refine Option.eq_none_iff_forall_ne_some.mpr fun v hv ↦ ?_
      rw [hstored v, hsplit] at hv
      rcases List.mem_append.mp hv with hmem | hmem
      · exact lt_irrefl _ (hlt _ hmem)
      · exact lt_irrefl _ (hgt _ hmem)
    rw [if_neg hkey, hnone]
    rfl
  · have hvalue : m.lookup key = some v := (hstored v).mpr (by rw [hsplit]; simp)
    have hindex : index ((s.heap.cell leaf).values.getD []) below.length = .ok v := by
      refine index_eq_ok ?_
      rw [hleaf.values_eq, Option.getD_some, hsplit]
      simp
    rw [if_pos hkey, hindex, hvalue]
    rfl

end FluxCache.Store.BPTreeRows
