import FluxCache.Store.BPTreeRefinement

/-!
# The shape of the B+ tree

The representation invariant of the tree in the terms of its nodes. `Descends heap n p q` says that
`q` is reached from `p` by `n` steps to a child, and `InSubtree heap p k` that some node below `p`
has the key `k`, as an entry or as a separator. `Shape s` collects the clauses: the number of
children, keys and values of every node, the order of the keys of a node, the range of the keys
below every child, one depth for all leaves, and a `next` chain that visits the leaves from left to
right. A tree that satisfies the invariant has this shape (`Tree.shape`), so the store has it after
every history of calls.

The clauses about single nodes follow from `Node`. Those about ranges follow from the order of the
rows: what lies below a child stays between the lower end of the child and the lower ends of its
later siblings (`Tree.range_of_fanout`).
-/

set_option autoImplicit false
set_option relaxedAutoImplicit false

namespace FluxCache.Store.BPTreeRows

open FluxCache.Foundation BPTreeStore

variable {heap : Memory BpNode} {least h n d : ℕ} {root p q c : Pointer} {e x : Entry}
  {row left right : List Entry} {k : GoString}

/-! ### The clauses -/

/-- The node `q` is reached from `p` by a number of steps from an internal node to a child. -/
def Descends (heap : Memory BpNode) : ℕ → Pointer → Pointer → Prop
  | 0, p, q => p = q
  | n + 1, p, q => (heap.cell p).isLeaf = false ∧
      ∃ c ∈ (heap.cell p).children, Descends heap n c q

/-- Some node below `p`, or `p` itself, has the key `k`. -/
def InSubtree (heap : Memory BpNode) (p : Pointer) (k : GoString) : Prop :=
  ∃ n q, Descends heap n p q ∧ k ∈ (heap.cell q).keys

/-- The leaves below a node from left to right. -/
def leavesFrom (heap : Memory BpNode) : ℕ → Pointer → Outcome (List Pointer)
  | 0, _ => .error .exhausted
  | steps + 1, p =>
    if (heap.cell p).isLeaf then .ok [p]
    else do
      let parts ← (heap.cell p).children.mapM (leavesFrom heap steps)
      pure parts.flatten

/-- The leftmost leaf below a node. -/
def leftmostFrom (heap : Memory BpNode) : ℕ → Pointer → Outcome Pointer
  | 0, _ => .error .exhausted
  | steps + 1, p =>
    if (heap.cell p).isLeaf then .ok p
    else do
      let first ← index (heap.cell p).children 0
      leftmostFrom heap steps first

/-- The representation invariant of the tree. -/
structure Shape (s : BPTreeStore) : Prop where
  arity : ∀ n p, Descends s.heap n s.root p → (s.heap.cell p).isLeaf = false →
    (s.heap.cell p).children.length = (s.heap.cell p).keys.length + 1
  internal_le : ∀ n p, Descends s.heap n s.root p → (s.heap.cell p).isLeaf = false →
    (s.heap.cell p).keys.length ≤ 31
  internal_ge : ∀ n p, Descends s.heap n s.root p → (s.heap.cell p).isLeaf = false →
    p ≠ s.root → 15 ≤ (s.heap.cell p).keys.length
  leaf_le : ∀ n p, Descends s.heap n s.root p → (s.heap.cell p).isLeaf = true →
    (s.heap.cell p).keys.length ≤ 31
  leaf_values : ∀ n p values, Descends s.heap n s.root p → (s.heap.cell p).values = some values →
    values.length = (s.heap.cell p).keys.length
  sorted : ∀ n p, Descends s.heap n s.root p → (s.heap.cell p).keys.Pairwise (· < ·)
  separator_le : ∀ n p (i : ℕ) c separator k, Descends s.heap n s.root p →
    (s.heap.cell p).isLeaf = false → (s.heap.cell p).keys[i]? = some separator →
    (s.heap.cell p).children[i + 1]? = some c → InSubtree s.heap c k → separator ≤ k
  lt_separator : ∀ n p (i : ℕ) c separator k, Descends s.heap n s.root p →
    (s.heap.cell p).isLeaf = false → (s.heap.cell p).keys[i]? = some separator →
    (s.heap.cell p).children[i]? = some c → InSubtree s.heap c k → k < separator
  depth : ∃ h, ∀ n p, Descends s.heap n s.root p → (s.heap.cell p).isLeaf = true → n = h
  chain : ∃ first leaves, leftmostFrom s.heap s.heap.used s.root = .ok first ∧
    leavesFrom s.heap s.heap.used s.root = .ok leaves ∧
    follow (fun p ↦ (s.heap.cell p).next) s.heap.used (some first) = .ok leaves ∧ leaves.Nodup ∧
    ∀ p, p ∈ leaves ↔ (s.heap.cell p).isLeaf = true ∧ ∃ n, Descends s.heap n s.root p

/-! ### Nodes below a node -/

theorem Node.isLeaf_eq (hp : Node heap least h p) : (heap.cell p).isLeaf = decide (h = 0) := by
  cases h with
  | zero => exact hp.leafCell.leaf
  | succ h => exact hp.internalCell.internal

/-- A node `n` steps below a proper tree of height `h` is a proper tree of height `h - n`, with at
least `minKeys` keys when it is not the root. -/
theorem Descends.node (hp : Node heap least h p) (hq : Descends heap n p q) :
    n ≤ h ∧ Node heap 0 (h - n) q ∧ (n ≠ 0 → Node heap minKeys (h - n) q) := by
  induction n generalizing h p least with
  | zero =>
    obtain rfl : p = q := hq
    exact ⟨Nat.zero_le _, hp.weaken (Nat.zero_le _), fun hne ↦ absurd rfl hne⟩
  | succ n ih =>
    obtain ⟨hinternal, c, hc, hcq⟩ := hq
    cases h with
    | zero => exact absurd (hp.leafCell.leaf.symm.trans hinternal) (by simp)
    | succ h =>
      obtain ⟨hle, hnode, hmin⟩ := ih (hp.child hc) hcq
      rw [Nat.succ_sub_succ]
      refine ⟨Nat.succ_le_succ hle, hnode, fun _ ↦ ?_⟩
      cases n with
      | zero =>
        obtain rfl : c = q := hcq
        exact hp.child hc
      | succ n => exact hmin (Nat.succ_ne_zero n)

/-- A node below the node of an entry stands in the row as many levels below the entry. -/
theorem Descends.mem_level (he : Node heap least h e.2) (hq : Descends heap n e.2 q) :
    ∃ low, (low, q) ∈ level heap n [e] := by
  induction n generalizing h e least with
  | zero =>
    obtain rfl : e.2 = q := hq
    exact ⟨e.1, List.mem_singleton.mpr rfl⟩
  | succ n ih =>
    obtain ⟨hinternal, c, hc, hcq⟩ := hq
    cases h with
    | zero => exact absurd (he.leafCell.leaf.symm.trans hinternal) (by simp)
    | succ h =>
      rw [← map_snd_fanout he.internalCell] at hc
      obtain ⟨x, hx, rfl⟩ := List.mem_map.mp hc
      obtain ⟨low, hlow⟩ := ih (he.child (snd_mem_children hx)) hcq
      refine ⟨low, ?_⟩
      rw [level_succ, List.flatMap_singleton]
      exact mem_level_iff.mpr ⟨x, hx, hlow⟩

/-- A node in a row below an entry is below the node of the entry. -/
theorem descends_of_mem_level (he : Node heap least (n + h) e.2) (hx : x ∈ level heap n [e]) :
    Descends heap n e.2 x.2 := by
  induction n generalizing e least with
  | zero =>
    rw [level_zero, List.mem_singleton] at hx
    rw [hx]
    rfl
  | succ n ih =>
    rw [level_succ, List.flatMap_singleton] at hx
    obtain ⟨y, hy, hxy⟩ := mem_level_iff.mp hx
    rw [Nat.add_right_comm] at he
    exact ⟨he.internalCell.internal, y.2, snd_mem_children hy,
      ih (he.child (snd_mem_children hy)) hxy⟩

/-! ### The range below a child -/

/-- The first entry of every row below an entry has its lower end. -/
theorem exists_head_level (he : Node heap least (n + h) e.2) :
    ∃ q tail, level heap n [e] = (e.1, q) :: tail := by
  induction n generalizing e least with
  | zero => exact ⟨e.2, [], rfl⟩
  | succ n ih =>
    rw [Nat.add_right_comm] at he
    obtain ⟨first, rest, tail, hchildren, hfan⟩ := fanout_eq_cons he.internalCell
    have hfirst : first ∈ (heap.cell e.2).children := by
      rw [hchildren]
      exact List.mem_cons_self
    obtain ⟨q, tail', hlevel⟩ := ih (e := (e.1, first)) (he.child hfirst)
    refine ⟨q, tail' ++ level heap n tail, ?_⟩
    rw [level_succ, List.flatMap_singleton, hfan, ← List.singleton_append, level_append, hlevel]
    rfl

/-- Assumes: a relation that holds between the entries of a row in order. Every entry in the row
below `e` is related to an entry below a later `y` that has the lower end of `y`. -/
theorem exists_later {r : Entry → Entry → Prop} {y : Entry}
    (hsorted : (level heap n (left ++ e :: right)).Pairwise r) (hy : y ∈ right)
    (hnode : Node heap least (n + h) y.2) : ∃ q, ∀ x ∈ level heap n [e], r x (y.1, q) := by
  rw [level_append, ← List.singleton_append, level_append] at hsorted
  obtain ⟨-, hrest, -⟩ := List.pairwise_append.mp hsorted
  obtain ⟨q, tail, hlevel⟩ := exists_head_level hnode
  refine ⟨q, fun x hx ↦ (List.pairwise_append.mp hrest).2.2 x hx (y.1, q) ?_⟩
  refine mem_level_iff.mpr ⟨y, hy, ?_⟩
  rw [hlevel]
  exact List.mem_cons_self

/-- Assumes: a row in order of proper trees. The lower ends below an entry stay between its own
lower end and those of the later entries. -/
theorem range_of_level (hrow : ∀ y ∈ left ++ e :: right, Node heap 0 (n + h) y.2)
    (hsorted : (level heap n (left ++ e :: right)).Pairwise Before)
    (hx : x ∈ level heap n [e]) : e.1 ≤ x.1 ∧ ∀ y ∈ right, x.1 < y.1 := by
  refine ⟨?_, fun y hy ↦ ?_⟩
  · have hself : (level heap n [e]).Pairwise Before := by
      rw [level_append, ← List.singleton_append, level_append] at hsorted
      exact (List.pairwise_append.mp (List.pairwise_append.mp hsorted).2.1).1
    obtain ⟨q, tail, hlevel⟩ := exists_head_level (hrow e (by simp))
    rw [hlevel] at hx hself
    rcases List.mem_cons.mp hx with rfl | hx
    · exact le_rfl
    · exact ((List.pairwise_cons.mp hself).1 x hx).1.le
  · obtain ⟨q, hq⟩ := exists_later hsorted hy (hrow y (by simp [hy]))
    exact (hq x hx).1

/-- Every row of the tree is in order. -/
theorem Tree.row_ordered (hs : Tree heap root h) (hn : n ≤ h) :
    (level heap n [(⊥, root)]).Pairwise Before := by
  refine pairwise_before_level (m := h - n) (h := 0) (fun x hx ↦ ?_) ?_
  · rw [List.mem_singleton.mp hx, show n + (h - n) + 0 = h by omega]
    exact hs.node.weaken (Nat.zero_le _)
  · rw [Nat.sub_add_cancel hn]
    exact hs.frontier.before

theorem Tree.row_nodes (hs : Tree heap root h) (hn : n ≤ h) :
    ∀ x ∈ level heap n [(⊥, root)], Node heap 0 (h - n) x.2 := by
  refine node_of_mem_level fun x hx ↦ ?_
  rw [List.mem_singleton.mp hx, Nat.add_sub_cancel' hn]
  exact hs.node.weaken (Nat.zero_le _)

/-- The keys below an entry of a row of the tree stay between the lower end of the entry and those
of the later entries of the row. -/
theorem Tree.range_of_row (hs : Tree heap root h) (hd : d ≤ h)
    (hrow : level heap d [(⊥, root)] = left ++ e :: right) (hk : InSubtree heap e.2 k) :
    e.1 ≤ (k : WithBot GoString) ∧ ∀ y ∈ right, (k : WithBot GoString) < y.1 := by
  obtain ⟨n, q, hq, hkq⟩ := hk
  have hnodes := hs.row_nodes hd
  rw [hrow] at hnodes
  have he := hnodes e (by simp)
  obtain ⟨low, hlow⟩ := hq.mem_level he
  obtain ⟨hn, hqnode, -⟩ := hq.node he
  have hordered : ∀ m ≤ h - d, (level heap m (left ++ e :: right)).Pairwise Before := by
    intro m hm
    rw [← hrow, ← level_add]
    exact hs.row_ordered (by omega)
  have hheight : ∀ m ≤ h - d, ∀ y ∈ left ++ e :: right,
      Node heap 0 (m + (h - d - m)) y.2 := by
    intro m hm y hy
    rw [Nat.add_sub_cancel' hm]
    exact hnodes y hy
  by_cases hleaf : n = h - d
  · have hrange := range_of_level (hheight n hn) (hordered n hn) hlow
    have hfrontier := hs.frontier
    rw [show h = n + d by omega, level_add, hrow] at hfrontier
    refine ⟨hrange.1.trans (hfrontier.bounded (low, q) ?_ k hkq), fun y hy ↦ ?_⟩
    · exact mem_level_iff.mpr ⟨e, by simp, hlow⟩
    · obtain ⟨q', hq'⟩ := exists_later hfrontier.separated hy (hheight n hn y (by simp [hy]))
      exact (hq' (low, q) hlow).2 k hkq
  · have hsucc : n + 1 ≤ h - d := by omega
    rw [show h - d - n = h - d - (n + 1) + 1 by omega] at hqnode
    have hkmem : (k : WithBot GoString) ∈ (fanout heap (low, q)).map Prod.fst := by
      rw [map_fst_fanout (e := (low, q)) hqnode.internalCell]
      exact List.mem_cons_of_mem _ (List.mem_map_of_mem hkq)
    obtain ⟨x, hx, hxk⟩ := List.mem_map.mp hkmem
    rw [← hxk]
    refine range_of_level (hheight (n + 1) hsucc) (hordered (n + 1) hsucc) ?_
    rw [level_succ']
    exact List.mem_flatMap.mpr ⟨(low, q), hlow, hx⟩

/-- The keys below a child stay between the lower end of the child and those of its later
siblings. -/
theorem Tree.range_of_fanout (hs : Tree heap root h) (hd : d < h)
    (he : e ∈ level heap d [(⊥, root)]) {i : ℕ} (hx : (fanout heap e)[i]? = some x)
    (hk : InSubtree heap x.2 k) :
    x.1 ≤ (k : WithBot GoString) ∧
      ∀ j y, i < j → (fanout heap e)[j]? = some y → (k : WithBot GoString) < y.1 := by
  obtain ⟨before, after, hsplit⟩ := List.append_of_mem he
  obtain ⟨hi, hget⟩ := List.getElem?_eq_some_iff.mp hx
  have hfan : fanout heap e = (fanout heap e).take i ++ x :: (fanout heap e).drop (i + 1) := by
    rw [← hget, List.getElem_cons_drop, List.take_append_drop]
  have hrow : level heap (d + 1) [(⊥, root)] =
      (before.flatMap (fanout heap) ++ (fanout heap e).take i) ++
        x :: ((fanout heap e).drop (i + 1) ++ after.flatMap (fanout heap)) := by
    rw [level_succ', hsplit, List.flatMap_append, List.flatMap_cons, List.append_assoc,
      ← List.cons_append, ← List.append_assoc ((fanout heap e).take i), ← hfan]
  obtain ⟨hlow, hright⟩ := hs.range_of_row hd hrow hk
  refine ⟨hlow, fun j y hj hy ↦ hright y (List.mem_append_left _ ?_)⟩
  refine List.mem_of_getElem? (i := j - (i + 1)) ?_
  rw [List.getElem?_drop, Nat.add_sub_cancel' hj]
  exact hy

theorem fanout_getElem? {i : ℕ} {low : WithBot GoString} {c : Pointer}
    (hlow : (e.1 :: (heap.cell e.2).keys.map WithBot.some)[i]? = some low)
    (hc : (heap.cell e.2).children[i]? = some c) : (fanout heap e)[i]? = some (low, c) := by
  rw [fanout, List.getElem?_zip_eq_some]
  exact ⟨hlow, hc⟩

/-! ### The leaves in order -/

theorem level_eq_flatMap (heap : Memory BpNode) (n : ℕ) (row : List Entry) :
    level heap n row = row.flatMap fun x ↦ level heap n [x] := by
  induction row with
  | nil =>
    refine List.eq_nil_iff_forall_not_mem.mpr fun x hx ↦ ?_
    obtain ⟨e, he, -⟩ := mem_level_iff.mp hx
    exact absurd he List.not_mem_nil
  | cons e row ih =>
    rw [← List.singleton_append, level_append, ih]
    rfl

/-- The leaves of a proper tree from left to right are the nodes of its lowest row. -/
theorem leavesFrom_eq {steps : ℕ} (hsteps : h < steps) (he : Node heap least h e.2) :
    leavesFrom heap steps e.2 = .ok ((level heap h [e]).map Prod.snd) := by
  induction h generalizing e least steps with
  | zero =>
    obtain ⟨steps, rfl⟩ := Nat.exists_eq_succ_of_ne_zero (Nat.ne_of_gt hsteps)
    rw [leavesFrom, if_pos he.leafCell.leaf]
    rfl
  | succ h ih =>
    obtain ⟨steps, rfl⟩ := Nat.exists_eq_succ_of_ne_zero (Nat.ne_of_gt (Nat.zero_lt_of_lt hsteps))
    have hparts : (heap.cell e.2).children.mapM (leavesFrom heap steps) =
        .ok ((fanout heap e).map fun x ↦ (level heap h [x]).map Prod.snd) := by
      rw [← map_snd_fanout he.internalCell, List.mapM_map]
      exact mapM_eq_ok fun x hx ↦
        ih (Nat.lt_of_succ_lt_succ hsteps) (he.child (snd_mem_children hx))
    rw [leavesFrom, if_neg (by rw [he.internalCell.internal]; exact Bool.false_ne_true), hparts,
      level_succ, List.flatMap_singleton, level_eq_flatMap, List.map_flatMap, List.flatMap_def]
    rfl

/-- The leftmost leaf of a proper tree is the first node of its lowest row. -/
theorem leftmostFrom_eq {steps : ℕ} {first : Entry} {rest : List Entry} (hsteps : h < steps)
    (he : Node heap least h e.2) (hlevel : level heap h [e] = first :: rest) :
    leftmostFrom heap steps e.2 = .ok first.2 := by
  induction h generalizing e least steps first rest with
  | zero =>
    obtain ⟨steps, rfl⟩ := Nat.exists_eq_succ_of_ne_zero (Nat.ne_of_gt hsteps)
    rw [leftmostFrom, if_pos he.leafCell.leaf]
    rw [level_zero] at hlevel
    rw [(List.cons.inj hlevel).1]
  | succ h ih =>
    obtain ⟨steps, rfl⟩ := Nat.exists_eq_succ_of_ne_zero (Nat.ne_of_gt (Nat.zero_lt_of_lt hsteps))
    obtain ⟨child, others, tail, hchildren, hfan⟩ := fanout_eq_cons he.internalCell
    have hchild : Node heap minKeys h child :=
      he.child (by rw [hchildren]; exact List.mem_cons_self)
    obtain ⟨q, below, hbelow⟩ := exists_head_level (e := (e.1, child)) (n := h) (h := 0) hchild
    rw [level_succ, List.flatMap_singleton, hfan, ← List.singleton_append, level_append, hbelow,
      List.cons_append] at hlevel
    have hindex : index (heap.cell e.2).children 0 = .ok child := by
      refine index_eq_ok ?_
      rw [hchildren]
      rfl
    rw [leftmostFrom, if_neg (by rw [he.internalCell.internal]; exact Bool.false_ne_true), hindex,
      ← (List.cons.inj hlevel).1]
    exact ih (e := (e.1, child)) (Nat.lt_of_succ_lt_succ hsteps) hchild hbelow

/-! ### The shape of a tree -/

theorem Tree.chain {s : BPTreeStore} (hs : Tree s.heap s.root h) :
    ∃ first leaves, leftmostFrom s.heap s.heap.used s.root = .ok first ∧
      leavesFrom s.heap s.heap.used s.root = .ok leaves ∧
      follow (fun p ↦ (s.heap.cell p).next) s.heap.used (some first) = .ok leaves ∧ leaves.Nodup ∧
      ∀ p, p ∈ leaves ↔ (s.heap.cell p).isLeaf = true ∧ ∃ n, Descends s.heap n s.root p := by
  obtain ⟨q, tail, hlevel⟩ := exists_head_level (e := (⊥, s.root)) (n := h) (h := 0) hs.node
  have hnodup := nodup_of_before hs.frontier.before
  have hlength := hs.length_level_le
  rw [← List.length_map Prod.snd] at hlength
  have hfollow := follow_eq hs.frontier.linked hlength
  refine ⟨q, (level s.heap h [(⊥, s.root)]).map Prod.snd,
    leftmostFrom_eq (e := (⊥, s.root)) hs.height_lt hs.node hlevel,
    leavesFrom_eq (e := (⊥, s.root)) hs.height_lt hs.node, ?_, hnodup, fun p ↦ ⟨?_, ?_⟩⟩
  · rw [hlevel] at hfollow ⊢
    exact hfollow
  · intro hp
    obtain ⟨x, hx, rfl⟩ := List.mem_map.mp hp
    exact ⟨(hs.node_of_mem hx).leafCell.leaf, h,
      descends_of_mem_level (e := (⊥, s.root)) (h := 0) hs.node hx⟩
  · rintro ⟨hleaf, n, hn⟩
    obtain ⟨hle, hnode, -⟩ := hn.node hs.node
    have hheight := hnode.isLeaf_eq
    rw [hleaf, eq_comm, decide_eq_true_eq] at hheight
    obtain ⟨low, hlow⟩ := hn.mem_level (e := (⊥, s.root)) hs.node
    rw [show n = h by omega] at hlow
    exact List.mem_map.mpr ⟨(low, p), hlow, rfl⟩

/-- A node below the root with its entry and its height, by whether it is a leaf. -/
theorem Tree.node_cases {s : BPTreeStore} (hs : Tree s.heap s.root h)
    (hp : Descends s.heap n s.root p) :
    (n = h ∧ LeafCell (s.heap.cell p)) ∨
      (n < h ∧ InternalCell (if n = 0 then 1 else minKeys) (s.heap.cell p) ∧
        ∃ low, (low, p) ∈ level s.heap n [(⊥, s.root)]) := by
  obtain ⟨hle, hnode, hmin⟩ := hp.node hs.node
  obtain ⟨low, hlow⟩ := hp.mem_level (e := (⊥, s.root)) hs.node
  rcases Nat.eq_or_lt_of_le hle with hn | hn
  · rw [hn, Nat.sub_self] at hnode
    exact Or.inl ⟨hn, hnode.leafCell⟩
  · refine Or.inr ⟨hn, ?_, low, hlow⟩
    rw [show h - n = h - n - 1 + 1 by omega] at hmin
    by_cases hzero : n = 0
    · subst hzero
      obtain rfl : s.root = p := hp
      have hroot := hs.node
      rw [show h = h - 1 + 1 by omega] at hroot
      exact hroot.internalCell
    · rw [if_neg hzero]
      exact (hmin hzero).internalCell

/-- A tree that satisfies the invariant has the shape of a B+ tree. -/
theorem Tree.shape {s : BPTreeStore} (hs : Tree s.heap s.root h) : Shape s := by
  have hinternal : ∀ n p, Descends s.heap n s.root p → (s.heap.cell p).isLeaf = false →
      n < h ∧ InternalCell (if n = 0 then 1 else minKeys) (s.heap.cell p) ∧
        ∃ low, (low, p) ∈ level s.heap n [(⊥, s.root)] := by
    intro n p hp hleaf
    rcases hs.node_cases hp with ⟨-, hcell⟩ | hcell
    · exact absurd (hcell.leaf.symm.trans hleaf) (by simp)
    · exact hcell
  have hleafCell : ∀ n p, Descends s.heap n s.root p → (s.heap.cell p).isLeaf = true →
      n = h ∧ LeafCell (s.heap.cell p) := by
    intro n p hp hleaf
    rcases hs.node_cases hp with hcell | ⟨-, hcell, -⟩
    · exact hcell
    · exact absurd (hcell.internal.symm.trans hleaf) (by simp)
  refine
    { arity := fun n p hp hleaf ↦ (hinternal n p hp hleaf).2.1.arity
      internal_le := fun n p hp hleaf ↦ Nat.le_of_lt_succ (hinternal n p hp hleaf).2.1.keys_length
      internal_ge := ?_
      leaf_le := fun n p hp hleaf ↦ Nat.le_of_lt_succ (hleafCell n p hp hleaf).2.keys_length
      leaf_values := ?_
      sorted := ?_
      separator_le := ?_
      lt_separator := ?_
      depth := ⟨h, fun n p hp hleaf ↦ (hleafCell n p hp hleaf).1⟩
      chain := hs.chain }
  · intro n p hp hleaf hne
    have hcell := (hinternal n p hp hleaf).2.1
    rw [if_neg] at hcell
    · exact hcell.least_le
    · rintro rfl
      exact hne (Eq.symm hp)
  · intro n p values hp hvalues
    have hcell := (hleafCell n p hp (by rw [BpNode.isLeaf, hvalues]; rfl)).2
    have hlength := hcell.values_length
    rwa [hvalues, Option.getD_some] at hlength
  · intro n p hp
    rcases hs.node_cases hp with ⟨-, hcell⟩ | ⟨hn, hcell, low, hlow⟩
    · exact hcell.sorted
    · have hordered := hs.row_ordered hn
      rw [level_succ'] at hordered
      exact keys_sorted_of_fanout (e := (low, p)) hcell
        ((List.pairwise_flatMap.mp hordered).1 (low, p) hlow)
  · intro n p i c separator k hp hleaf hkey hc hk
    obtain ⟨hn, -, low, hlow⟩ := hinternal n p hp hleaf
    have hfan : (fanout s.heap (low, p))[i + 1]? = some ((separator : WithBot GoString), c) :=
      fanout_getElem? (by simp [hkey]) hc
    exact WithBot.coe_le_coe.mp (hs.range_of_fanout hn hlow hfan hk).1
  · intro n p i c separator k hp hleaf hkey hc hk
    obtain ⟨hn, hcell, low, hlow⟩ := hinternal n p hp hleaf
    have hi : i < (s.heap.cell p).keys.length := (List.getElem?_eq_some_iff.mp hkey).1
    have hbound : i + 1 < (s.heap.cell p).children.length := by
      rw [hcell.arity]
      exact Nat.succ_lt_succ hi
    have hnext : (s.heap.cell p).children[i + 1]? = some (s.heap.cell p).children[i + 1] :=
      List.getElem?_eq_getElem hbound
    have hlater : (fanout s.heap (low, p))[i + 1]? = some ((separator : WithBot GoString), _) :=
      fanout_getElem? (by simp [hkey]) hnext
    have hown : (fanout s.heap (low, p))[i]? = some (_, c) := fanout_getElem?
      (List.getElem?_eq_getElem (by simp; omega)) hc
    exact WithBot.coe_lt_coe.mp
      ((hs.range_of_fanout hn hlow hown hk).2 (i + 1) _ (Nat.lt_succ_self i) hlater)

/-- In every state reached by `Set` and `Del` calls from a fresh store, the tree has the shape of a
B+ tree of order 32 with its leaves chained from left to right. -/
theorem bptree_shape_reachable (ops : List StringOp) :
    ∃ s, BPTreeStore.new.run ops = .ok s ∧ Shape s := by
  obtain ⟨s, hrun, h, htree, -⟩ := represents_run ops
  exact ⟨s, hrun, htree.shape⟩

end FluxCache.Store.BPTreeRows
