import FluxCache.Store.BPTreeInvariant

/-!
# Splits of the B+ tree

A split leaves the tree with a new right sibling that no parent refers to yet. `Pending` describes
that state: the tree is proper without the sibling, and the row that contains it, expanded to the
leaves, is the row of leaves the tree has to get. `insertIntoParent` and the end of `splitInternal`
resolve it: they put a new root over the two halves (`Pending.growRoot`) or link the sibling into
the parent of the left half (`Pending.linkIntoParent`), which gives a `Widened` node. A widened node
that is not full finishes the insertion (`Widened.finish`), and the split of a full one is pending
one row further up (`Widened.split`).
-/

set_option autoImplicit false
set_option relaxedAutoImplicit false

namespace FluxCache.Store.BPTreeRows

open FluxCache.Foundation BPTreeStore

variable {heap heap' : Memory BpNode} {least h n d : ℕ} {p target : Pointer} {e : Entry}
  {row front back leaves : List Entry} {key : GoString}

/-! ### The search for the parent -/

theorem mem_level_iff {x : Entry} :
    x ∈ level heap n row ↔ ∃ e ∈ row, x ∈ level heap n [e] := by
  induction row with
  | nil =>
    have hnil : level heap n [] = [] := by
      induction n with
      | zero => rfl
      | succ n ih => rw [level_succ, List.flatMap_nil, ih]
    rw [hnil]
    simp
  | cons e row ih =>
    rw [← List.singleton_append, level_append, List.mem_append, ih]
    simp

theorem mem_level_succ_iff {x : Entry} :
    x ∈ level heap (n + 1) [e] ↔ ∃ y ∈ fanout heap e, x ∈ level heap n [y] := by
  rw [level_succ, List.flatMap_singleton, mem_level_iff]

/-- What a search finds in the rows above the leaves: a node and the index of its child `target`,
or nil if no node there has that child. -/
structure Locates (heap : Memory BpNode) (target : Pointer) (h : ℕ) (e : Entry)
    (found : Option (Pointer × ℕ)) : Prop where
  parent : ∀ parent i, found = some (parent, i) → ∃ k < h, ∃ x ∈ level heap k [e],
    x.2 = parent ∧ (heap.cell parent).children[i]? = some target
  nowhere : found = none → ∀ k < h, ∀ x ∈ level heap k [e], target ∉ (heap.cell x.2).children

theorem locates_of_child {i : ℕ} (hi : (heap.cell e.2).children[i]? = some target) :
    Locates heap target (h + 1) e (some (e.2, i)) := by
  refine ⟨fun parent j hfound ↦ ?_, nofun⟩
  obtain ⟨rfl, rfl⟩ := Prod.mk.inj (Option.some.inj hfound)
  exact ⟨0, Nat.succ_pos h, e, List.mem_singleton_self e, rfl, hi⟩

theorem Locates.below {x : Entry} {result : Pointer × ℕ} (hx : x ∈ fanout heap e)
    (hfound : Locates heap target h x (some result)) :
    Locates heap target (h + 1) e (some result) := by
  refine ⟨fun parent i hresult ↦ ?_, nofun⟩
  obtain ⟨k, hk, y, hy, hrest⟩ := hfound.parent parent i hresult
  exact ⟨k + 1, Nat.succ_lt_succ hk, y, mem_level_succ_iff.mpr ⟨x, hx, hy⟩, hrest⟩

theorem locates_none (hown : target ∉ (heap.cell e.2).children)
    (hbelow : ∀ x ∈ fanout heap e, Locates heap target h x none) :
    Locates heap target (h + 1) e none := by
  refine ⟨nofun, fun _ k hk x hx ↦ ?_⟩
  cases k with
  | zero =>
    rw [level_zero, List.mem_singleton] at hx
    rw [hx]
    exact hown
  | succ k =>
    obtain ⟨y, hy, hxy⟩ := mem_level_succ_iff.mp hx
    exact (hbelow y hy).nowhere rfl k (Nat.lt_of_succ_lt_succ hk) x hxy

/-- There is nothing to find at a leaf. -/
theorem locates_leaf {least : ℕ} (hnode : Node heap least h e.2)
    (hleaf : (heap.cell e.2).isLeaf = true) : Locates heap target h e none := by
  cases h with
  | zero => exact ⟨nofun, fun _ k hk ↦ absurd hk (Nat.not_lt_zero k)⟩
  | succ h =>
    rw [hnode.internalCell.internal] at hleaf
    exact absurd hleaf Bool.false_ne_true

/-- Assumes: a proper tree. The search for a parent returns; what it returns is a node of the tree
and the index of its child `target`, and it returns nil only when no node of the tree has that
child. -/
theorem findParent_spec {h : ℕ} : ∀ {steps least : ℕ} {e : Entry}, h < steps →
    Node heap least h e.2 →
    ∃ found, findParent heap target steps e.2 = .ok found ∧ Locates heap target h e found := by
  induction h with
  | zero =>
    intro steps least e hsteps hnode
    obtain ⟨steps, rfl⟩ := Nat.exists_eq_succ_of_ne_zero (Nat.ne_of_gt hsteps)
    have hleaf := hnode.leafCell.leaf
    exact ⟨none, by rw [findParent, if_pos hleaf], locates_leaf hnode hleaf⟩
  | succ h ih =>
    intro steps least e hsteps hnode
    obtain ⟨steps, rfl⟩ := Nat.exists_eq_succ_of_ne_zero (Nat.ne_of_gt (Nat.zero_lt_of_lt hsteps))
    have hbelow : ∀ x ∈ fanout heap e, ∃ found,
        (if (heap.cell x.2).isLeaf then .ok none else findParent heap target steps x.2) =
          Except.ok (ε := Fault) found ∧ Locates heap target h x found := by
      intro x hx
      have hxnode := hnode.child (snd_mem_children hx)
      by_cases hleaf : (heap.cell x.2).isLeaf = true
      · exact ⟨none, if_pos hleaf, locates_leaf hxnode hleaf⟩
      · rw [if_neg hleaf]
        exact ih (Nat.lt_of_succ_lt_succ hsteps) hxnode
    have hfan : ∀ child ∈ (heap.cell e.2).children.zipIdx, ∃ x ∈ fanout heap e, x.2 = child.1 := by
      intro child hchild
      have hmem := List.fst_mem_of_mem_zipIdx hchild
      rw [← map_snd_fanout hnode.internalCell] at hmem
      exact List.mem_map.mp hmem
    have hbody : ∀ child ∈ (heap.cell e.2).children.zipIdx, ∃ found,
        (if child.1 = target then .ok (some (e.2, child.2))
          else if (heap.cell child.1).isLeaf then .ok none
          else findParent heap target steps child.1) = Except.ok (ε := Fault) found := by
      intro child hchild
      obtain ⟨x, hx, hxchild⟩ := hfan child hchild
      obtain ⟨found, hfound, -⟩ := hbelow x hx
      rw [hxchild] at hfound
      by_cases htarget : child.1 = target
      · exact ⟨_, if_pos htarget⟩
      · exact ⟨found, (if_neg htarget).trans hfound⟩
    obtain ⟨found, hfound, hsome, hnone⟩ := findSomeM?_spec hbody
    refine ⟨found, ?_, ?_⟩
    · rw [findParent, if_neg (by rw [hnode.internalCell.internal]; exact Bool.false_ne_true)]
      exact hfound
    · cases found with
      | some result =>
        obtain ⟨child, hchild, hresult⟩ := hsome result rfl
        by_cases htarget : child.1 = target
        · rw [if_pos htarget] at hresult
          obtain rfl := Option.some.inj (Except.ok.inj hresult)
          refine locates_of_child ?_
          rw [← htarget]
          exact List.mem_zipIdx_iff_getElem?.mp hchild
        · obtain ⟨x, hx, hxchild⟩ := hfan child hchild
          obtain ⟨found, hthis, hlocates⟩ := hbelow x hx
          rw [if_neg htarget, ← hxchild, hthis] at hresult
          rw [Except.ok.inj hresult] at hlocates
          exact hlocates.below hx
      | none =>
        have hall := hnone rfl
        refine locates_none (fun htarget ↦ ?_) fun x hx ↦ ?_
        · obtain ⟨i, hi⟩ := List.mem_iff_getElem?.mp htarget
          have hthis := hall (target, i) (List.mem_zipIdx_iff_getElem?.mpr hi)
          rw [if_pos rfl] at hthis
          exact absurd (Except.ok.inj hthis) nofun
        · obtain ⟨i, hi⟩ := List.mem_iff_getElem?.mp (snd_mem_children hx)
          obtain ⟨found, hthis, hlocates⟩ := hbelow x hx
          have hresult := hall (x.2, i) (List.mem_zipIdx_iff_getElem?.mpr hi)
          by_cases htarget : x.2 = target
          · rw [if_pos htarget] at hresult
            exact absurd (Except.ok.inj hresult) nofun
          · rw [if_neg htarget, hthis] at hresult
            rw [Except.ok.inj hresult] at hlocates
            exact hlocates

/-! ### Pending splits -/

/-- A split whose right half is linked into no parent yet. The tree without the right half is
proper and the left half stands in the row `d` below the root; with the right half after it, that
row has the leaves `leaves`. -/
structure Pending (s : BPTreeStore) (d h : ℕ) (front : List Entry) (low : WithBot GoString)
    (left : Pointer) (key : GoString) (right : Pointer) (back leaves : List Entry) : Prop where
  tree : Node s.heap 1 (d + h) s.root
  height_lt : d + h < s.heap.used
  row : level s.heap d [(⊥, s.root)] = front ++ (low, left) :: back
  left_node : Node s.heap minKeys h left
  right_node : Node s.heap minKeys h right
  leaves_eq : level s.heap h (front ++ (low, left) :: ((key : WithBot GoString), right) :: back) =
    leaves
  ordered : leaves.Pairwise Before

/-- A node that has got a new child but may hold one key too many. The store is the one before the
cell `c` is written to the node `p` of height `h + 1` in the row `d`. -/
structure Widened (s : BPTreeStore) (d h : ℕ) (front : List Entry) (low : WithBot GoString)
    (p : Pointer) (c : BpNode) (back leaves : List Entry) : Prop where
  tree : Node s.heap 1 (d + (h + 1)) s.root
  height_lt : d + (h + 1) < s.heap.used
  row : level s.heap d [(⊥, s.root)] = front ++ (low, p) :: back
  internal : c.isLeaf = false
  arity : c.children.length = c.keys.length + 1
  keys_le : c.keys.length ≤ bpOrder
  keys_ge : (s.heap.cell p).keys.length ≤ c.keys.length
  children : ∀ q ∈ c.children, Node s.heap minKeys h q
  leaves_eq : level s.heap h (front.flatMap (fanout s.heap) ++
    ((low :: c.keys.map WithBot.some).zip c.children ++ back.flatMap (fanout s.heap))) = leaves
  ordered : leaves.Pairwise Before
  row_ordered : (front ++ (low, p) :: back).Pairwise Before

/-- The outcome of an insertion: a proper tree with the given leaves, in which no leaf of the store
before has changed. -/
structure Grown (s s' : BPTreeStore) (leaves : List Entry) : Prop where
  tree : ∃ h, Node s'.heap 1 h s'.root ∧ h < s'.heap.used ∧ level s'.heap h [(⊥, s'.root)] = leaves
  leaf_cell : ∀ q, Node s.heap 0 0 q → s'.heap.cell q = s.heap.cell q
  hashes : s'.hashes = s.hashes

theorem nodes_of_row {s : BPTreeStore} (htree : Node s.heap 1 (d + h) s.root) :
    ∀ x ∈ level s.heap d [(⊥, s.root)], Node s.heap 0 h x.2 := by
  refine node_of_mem_level fun x hx ↦ ?_
  rw [List.mem_singleton.mp hx]
  exact htree.weaken (Nat.zero_le _)

/-- Assumes: a memory that keeps the cells in use. The rows of a proper tree are the same. -/
theorem level_extend (hagree : ∀ q < heap.used, heap'.cell q = heap.cell q)
    (hrow : ∀ x ∈ row, Node heap 0 (n + h) x.2) : level heap' n row = level heap n row := by
  refine level_congr fun k hk x hx ↦ hagree x.2 ?_
  refine (node_of_mem_level (h := n + h - k) (fun y hy ↦ ?_) x hx).lt_used
  rw [show k + (n + h - k) = n + h by omega]
  exact hrow y hy

theorem Node.extend (hused : heap.used ≤ heap'.used)
    (hagree : ∀ q < heap.used, heap'.cell q = heap.cell q) (hp : Node heap least h p) :
    Node heap' least h p := by
  refine hp.congr hused (fun q hq ↦ ?_) fun k _ q hq ↦ hagree q hq.lt_used
  rw [hagree q hq.lt_used]
  exact hq.leafCell

/-- Assumes: a memory that differs only in the cell of a node of height `h + 1` and in cells that
were not in use. The rows below that height are the same. -/
theorem level_frame (hp : Node heap 0 (h + 1) p)
    (hagree : ∀ q < heap.used, q ≠ p → heap'.cell q = heap.cell q)
    (hrow : ∀ x ∈ row, Node heap 0 h x.2) : level heap' h row = level heap h row := by
  refine level_congr fun k hk x hx ↦ ?_
  have hx := node_of_mem_level (h := h - k) (fun y hy ↦ by
    rw [show k + (h - k) = h by omega]; exact hrow y hy) x hx
  refine hagree x.2 hx.lt_used ?_
  intro heq
  rw [heq] at hx
  exact absurd (hx.height_unique hp) (by omega)

/-- Assumes: a memory that differs only in the cell of a node of height `h + 1` and in cells that
were not in use. The rows from the root down to that node are the same. -/
theorem level_frame_above {root : Pointer} (hp : Node heap 0 (h + 1) p)
    (hagree : ∀ q < heap.used, q ≠ p → heap'.cell q = heap.cell q)
    (hroot : Node heap 1 (d + (h + 1)) root) :
    level heap' d [(⊥, root)] = level heap d [(⊥, root)] := by
  refine level_congr fun k hk x hx ↦ ?_
  have hx := node_of_mem_level (h := d + (h + 1) - k) (fun y hy ↦ by
    rw [List.mem_singleton.mp hy, show k + (d + (h + 1) - k) = d + (h + 1) by omega]
    exact hroot.weaken (Nat.zero_le _)) x hx
  refine hagree x.2 hx.lt_used ?_
  intro heq
  rw [heq] at hx
  exact absurd (hx.height_unique hp) (by omega)

section Pending

variable {s : BPTreeStore} {low : WithBot GoString} {left right : Pointer} {c : BpNode}

theorem Pending.nodes (hs : Pending s d h front low left key right back leaves) :
    ∀ x ∈ front ++ (low, left) :: ((key : WithBot GoString), right) :: back,
      Node s.heap 0 h x.2 := by
  intro x hx
  have hrow := nodes_of_row hs.tree
  rw [hs.row] at hrow
  rcases List.mem_append.mp hx with hx | hx
  · exact hrow x (List.mem_append_left _ hx)
  rcases List.mem_cons.mp hx with rfl | hx
  · exact hs.left_node.weaken (Nat.zero_le _)
  rcases List.mem_cons.mp hx with rfl | hx
  · exact hs.right_node.weaken (Nat.zero_le _)
  · exact hrow x (by simp [hx])

theorem Pending.row_ordered (hs : Pending s d h front low left key right back leaves) :
    (front ++ (low, left) :: ((key : WithBot GoString), right) :: back).Pairwise Before := by
  refine pairwise_before_of_level (n := h) (h := 0) hs.nodes ?_
  rw [hs.leaves_eq]
  exact hs.ordered

/-- A new root over the two halves of the old one resolves a pending split of the root. -/
theorem Pending.growRoot (hs : Pending s 0 h front low left key right back leaves) :
    s.root = left ∧ Grown s (s.growRoot left key right) leaves := by
  have hrow := hs.row
  rw [level_zero] at hrow
  have hfront : front = [] := by
    cases front with
    | nil => rfl
    | cons x front => exact absurd (congrArg List.length hrow) (by simp)
  subst hfront
  obtain ⟨hhead, hback⟩ := List.cons.inj hrow
  subst hback
  obtain ⟨rfl, hleft⟩ := Prod.mk.inj hhead
  have hagree : ∀ q < s.heap.used,
      (s.growRoot left key right).heap.cell q = s.heap.cell q := fun q hq ↦
    Memory.cell_alloc_of_lt _ _ hq
  have hcell : (s.growRoot left key right).heap.cell s.heap.used =
      { BpNode.newInternal with keys := [key], children := [left, right] } :=
    Memory.cell_alloc_used _ _
  have hused : s.heap.used ≤ (s.growRoot left key right).heap.used := Nat.le_succ _
  refine ⟨hleft, ⟨h + 1, ⟨Nat.lt_succ_self _, ?_, ?_⟩, ?_, ?_⟩,
    fun q hq ↦ hagree q hq.lt_used, rfl⟩
  · show InternalCell 1 ((s.growRoot left key right).heap.cell s.heap.used)
    rw [hcell]
    refine ⟨rfl, rfl, le_rfl, ?_⟩
    show 1 < bpOrder
    decide
  · intro q hq
    change q ∈ ((s.growRoot left key right).heap.cell s.heap.used).children at hq
    rw [hcell] at hq
    rcases List.mem_cons.mp hq with rfl | hq
    · exact hs.left_node.extend hused hagree
    · rw [List.mem_singleton.mp hq]
      exact hs.right_node.extend hused hagree
  · have hlt := hs.height_lt
    show h + 1 < s.heap.used + 1
    omega
  · rw [level_succ, List.flatMap_singleton]
    have hfan : fanout (s.growRoot left key right).heap (⊥, s.heap.used) =
        [(⊥, left), ((key : WithBot GoString), right)] := by
      rw [fanout, hcell]
      rfl
    show level _ h (fanout (s.growRoot left key right).heap (⊥, s.heap.used)) = leaves
    rw [hfan]
    exact (level_extend (h := 0) hagree hs.nodes).trans hs.leaves_eq

/-! ### Linking the right half into the parent -/

/-- An element of an expanded list comes from one element of the list. -/
theorem exists_split_of_flatMap_eq {α : Type} {f : α → List α} {list front back : List α} {a : α}
    (h : list.flatMap f = front ++ a :: back) :
    ∃ before x after left right, list = before ++ x :: after ∧ f x = left ++ a :: right ∧
      front = before.flatMap f ++ left ∧ back = right ++ after.flatMap f := by
  induction list generalizing front with
  | nil => exact absurd h (by simp)
  | cons x list ih =>
    rw [List.flatMap_cons] at h
    rcases List.append_eq_append_iff.mp h with ⟨rest, rfl, hrest⟩ | ⟨rest, hx, hrest⟩
    · obtain ⟨before, y, after, left, right, rfl, hy, rfl, rfl⟩ := ih hrest
      exact ⟨x :: before, y, after, left, right, rfl, hy, by simp, rfl⟩
    · cases rest with
      | nil =>
        rw [List.nil_append] at hrest
        have hempty : list.flatMap f = [] ++ a :: back := hrest.symm
        obtain ⟨before, y, after, left, right, rfl, hy, hnil, rfl⟩ := ih hempty
        refine ⟨x :: before, y, after, left, right, rfl, hy, ?_, rfl⟩
        rw [List.flatMap_cons, List.append_assoc, ← hnil, hx]
        simp
      | cons b rest =>
        obtain ⟨rfl, rfl⟩ := List.cons.inj hrest
        exact ⟨[], x, list, front, rest, rfl, hx, by simp, rfl⟩

theorem take_zip {α β : Type} (left : List α) (right : List β) (i : ℕ) :
    (left.zip right).take i = (left.take i).zip (right.take i) :=
  List.take_zipWith

theorem drop_zip {α β : Type} (left : List α) (right : List β) (i : ℕ) :
    (left.zip right).drop i = (left.drop i).zip (right.drop i) :=
  List.drop_zipWith

/-- Inserting a key and a child after the child number `i` inserts the entry of the new child after
the entry number `i`. -/
theorem fanout_insert {keys : List GoString} {children : List Pointer} {i : ℕ}
    (harity : children.length = keys.length + 1) (hi : i ≤ keys.length) :
    (low :: (keys.take i ++ key :: keys.drop i).map WithBot.some).zip
        (children.take (i + 1) ++ right :: children.drop (i + 1)) =
      ((low :: keys.map WithBot.some).zip children).take (i + 1) ++
        ((key : WithBot GoString), right) ::
          ((low :: keys.map WithBot.some).zip children).drop (i + 1) := by
  rw [List.map_append, List.map_cons, ← List.cons_append, List.zip_append, List.zip_cons_cons,
    take_zip, drop_zip, List.take_succ_cons, List.drop_succ_cons, List.map_take, List.map_drop]
  simp only [List.length_cons, List.length_map, List.length_take]
  omega

/-- Assumes: a proper tree whose row `d + 1` is in order, and an entry of that row that comes from
the entry `x` of the row `d`. The search from the root for the parent of that entry finds the node
of `x` and the position of the entry among its children. -/
theorem findParent_eq {low : WithBot GoString} {target : Pointer} {x : Entry}
    {before after leftEntries rightEntries : List Entry}
    (htree : Node s.heap 1 (d + (h + 1)) s.root) (hlt : d + (h + 1) < s.heap.used)
    (hlevel : level s.heap d [(⊥, s.root)] = before ++ x :: after)
    (hx : fanout s.heap x = leftEntries ++ (low, target) :: rightEntries)
    (hordered : (level s.heap (d + 1) [(⊥, s.root)]).Pairwise Before) :
    findParent s.heap target s.heap.used s.root = .ok (some (x.2, leftEntries.length)) := by
  have hparent : Node s.heap 0 (h + 1) x.2 := nodes_of_row htree x (by rw [hlevel]; simp)
  have hindex : ((fanout s.heap x).map Prod.snd)[leftEntries.length]? = some target := by
    rw [hx, List.map_append, List.map_cons, ← List.length_map Prod.snd,
      List.getElem?_append_right le_rfl, Nat.sub_self]
    rfl
  rw [level_succ', hlevel] at hordered
  obtain ⟨hinner, hcross⟩ := List.pairwise_flatMap.mp hordered
  have hnodup : ((fanout s.heap x).map Prod.snd).Nodup := nodup_of_before (hinner x (by simp))
  have hmem : (low, target) ∈ fanout s.heap x := by
    rw [hx]
    simp
  obtain ⟨found, hfound, hlocates⟩ := findParent_spec (e := (⊥, s.root)) hlt htree
  cases found with
  | none =>
    refine absurd (snd_mem_children hmem) (hlocates.nowhere rfl d (by omega) x ?_)
    rw [hlevel]
    simp
  | some result =>
    obtain ⟨k, hk, y, hy, hyparent, hyindex⟩ := hlocates.parent result.1 result.2 rfl
    have hynode : Node s.heap 0 (d + h - k + 1) y.2 := by
      refine node_of_mem_level (fun z hz ↦ ?_) y hy
      rw [List.mem_singleton.mp hz, show k + (d + h - k + 1) = d + (h + 1) by omega]
      exact htree.weaken (Nat.zero_le _)
    rw [← hyparent, ← map_snd_fanout hynode.internalCell] at hyindex
    have hychild := List.mem_of_getElem? hyindex
    rw [map_snd_fanout hynode.internalCell] at hychild
    have hheight := (hynode.child hychild).height_unique (hparent.child (snd_mem_children hmem))
    obtain rfl : k = d := by omega
    obtain ⟨z, hz, hztarget⟩ := List.mem_map.mp (List.mem_of_getElem? hyindex)
    have hyx : y = x := by
      rw [hlevel] at hy
      have hsides := List.pairwise_append.mp hcross
      rcases List.mem_append.mp hy with hy | hy
      · exact absurd hztarget (hsides.2.2 y hy x (by simp) z hz _ hmem).2
      rcases List.mem_cons.mp hy with hy | hy
      · exact hy
      · exact absurd hztarget.symm ((List.pairwise_cons.mp hsides.2.1).1 y hy _ hmem z hz).2
    rw [hyx] at hyindex
    have hi : result.2 = leftEntries.length :=
      (List.getElem?_inj (List.getElem?_eq_some_iff.mp hyindex).1 hnodup).mp
        (hyindex.trans hindex.symm)
    rw [hfound, ← hi, ← hyx, hyparent]

/-- Assumes: a pending split below the root. The search for the parent of the left half finds the
node whose child it is, and the right half is linked in after it. -/
theorem Pending.linkIntoParent
    (hs : Pending s (d + 1) h front low left key right back leaves) :
    ∃ parent c front' low' back', s.linkIntoParent left key right =
        .ok ({ s with heap := s.heap.write parent c }, parent) ∧
      Widened s d h front' low' parent c back' leaves := by
  have htree : Node s.heap 1 (d + (h + 1)) s.root := by
    rw [show d + (h + 1) = d + 1 + h by omega]
    exact hs.tree
  have hlt : d + (h + 1) < s.heap.used := by
    have := hs.height_lt
    omega
  have hordered : (level s.heap (d + 1) [(⊥, s.root)]).Pairwise Before := by
    rw [hs.row]
    exact hs.row_ordered.sublist
      (List.Sublist.append_left ((List.sublist_cons_self _ _).cons_cons _) _)
  have hrow := hs.row
  rw [level_succ'] at hrow
  obtain ⟨before, x, after, leftEntries, rightEntries, hlevel, hx, hfront, hback⟩ :=
    exists_split_of_flatMap_eq hrow
  have hfound := findParent_eq htree hlt hlevel hx hordered
  have hnodes := nodes_of_row htree
  have hparent : Node s.heap 0 (h + 1) x.2 := hnodes x (by rw [hlevel]; simp)
  have hrowOrdered : (before ++ x :: after).Pairwise Before := by
    rw [← hlevel]
    refine pairwise_before_of_flatMap (fun y hy ↦ (hnodes y hy).internalCell) ?_
    rw [← level_succ']
    exact hordered
  have harity := hparent.internalCell.arity
  have hbound : leftEntries.length ≤ (s.heap.cell x.2).keys.length := by
    have hlength := congrArg List.length (map_snd_fanout hparent.internalCell)
    rw [hx, harity] at hlength
    simp only [List.length_map, List.length_append, List.length_cons] at hlength
    omega
  refine ⟨x.2, { s.heap.cell x.2 with
    keys := (s.heap.cell x.2).keys.take leftEntries.length ++
      key :: (s.heap.cell x.2).keys.drop leftEntries.length
    children := (s.heap.cell x.2).children.take (leftEntries.length + 1) ++
      right :: (s.heap.cell x.2).children.drop (leftEntries.length + 1) },
    before, x.1, after, ?_, ?_⟩
  · simp only [BPTreeStore.linkIntoParent, hfound, insertAt, if_pos hbound, bind, Except.bind,
      pure, Except.pure]
    rw [if_pos (by omega)]
  · refine ⟨htree, hlt, hlevel, hparent.internalCell.internal, ?_, ?_, ?_, ?_, ?_, hs.ordered,
      hrowOrdered⟩
    · simp only [List.length_append, List.length_cons, List.length_take, List.length_drop]
      omega
    · have := hparent.internalCell.keys_length
      simp only [List.length_append, List.length_cons, List.length_take, List.length_drop]
      omega
    · simp only [List.length_append, List.length_cons, List.length_take, List.length_drop]
      omega
    · intro q hq
      rcases List.mem_append.mp hq with hq | hq
      · exact hparent.child (List.mem_of_mem_take hq)
      rcases List.mem_cons.mp hq with rfl | hq
      · exact hs.right_node
      · exact hparent.child (List.mem_of_mem_drop hq)
    · rw [fanout_insert harity hbound]
      have hfan : (x.1 :: (s.heap.cell x.2).keys.map WithBot.some).zip (s.heap.cell x.2).children =
          (leftEntries ++ [(low, left)]) ++ rightEntries := by
        rw [List.append_assoc]
        exact hx
      rw [hfan, List.take_left' (by simp), List.drop_left' (by simp), ← hs.leaves_eq, hfront, hback]
      simp

end Pending

/-! ### Widened nodes -/

section Widened

variable {s : BPTreeStore} {low : WithBot GoString} {c : BpNode}

theorem Widened.node (hs : Widened s d h front low p c back leaves) : Node s.heap 0 (h + 1) p :=
  nodes_of_row hs.tree (low, p) (by rw [hs.row]; simp)

/-- The entries of the row of a widened node, with those of its new cell in its place. -/
theorem Widened.children_nodes (hs : Widened s d h front low p c back leaves) :
    ∀ x ∈ front.flatMap (fanout s.heap) ++
      ((low :: c.keys.map WithBot.some).zip c.children ++ back.flatMap (fanout s.heap)),
      Node s.heap 0 h x.2 := by
  have hrow := nodes_of_row hs.tree
  rw [hs.row] at hrow
  have hside : ∀ y ∈ front ++ (low, p) :: back, ∀ x ∈ fanout s.heap y, Node s.heap 0 h x.2 :=
    fun y hy x hx ↦ ((hrow y hy).child (snd_mem_children hx)).weaken (Nat.zero_le _)
  intro x hx
  rcases List.mem_append.mp hx with hx | hx
  · obtain ⟨y, hy, hxy⟩ := List.mem_flatMap.mp hx
    exact hside y (by simp [hy]) x hxy
  rcases List.mem_append.mp hx with hx | hx
  · exact (hs.children x.2 (List.of_mem_zip hx).2).weaken (Nat.zero_le _)
  · obtain ⟨y, hy, hxy⟩ := List.mem_flatMap.mp hx
    exact hside y (by simp [hy]) x hxy

/-- The other nodes of the row of a widened node keep their children in a memory that changes only
the cell of that node and cells that were not in use. -/
theorem Widened.siblings (hs : Widened s d h front low p c back leaves)
    (hagree : ∀ q < s.heap.used, q ≠ p → heap'.cell q = s.heap.cell q) :
    front.flatMap (fanout heap') = front.flatMap (fanout s.heap) ∧
      back.flatMap (fanout heap') = back.flatMap (fanout s.heap) := by
  have hrow := nodes_of_row hs.tree
  rw [hs.row] at hrow
  obtain ⟨-, hpback, hcross⟩ := List.pairwise_append.mp hs.row_ordered
  constructor
  · refine flatMap_fanout_congr fun x hx ↦ hagree x.2 (hrow x (by simp [hx])).lt_used ?_
    exact (hcross x hx (low, p) (by simp)).2
  · refine flatMap_fanout_congr fun x hx ↦ hagree x.2 (hrow x (by simp [hx])).lt_used ?_
    exact ((List.pairwise_cons.mp hpback).1 x hx).2.symm

/-- A widened node that is not full finishes the insertion. -/
theorem Widened.finish (hs : Widened s d h front low p c back leaves)
    (hfull : c.keys.length < bpOrder) :
    Grown s { s with heap := s.heap.write p c } leaves := by
  have hp := hs.node
  have hagree : ∀ q < s.heap.used, q ≠ p → (s.heap.write p c).cell q = s.heap.cell q :=
    fun q _ hq ↦ s.heap.cell_write_of_ne c hq
  have hcell : (s.heap.write p c).cell p = c := s.heap.cell_write_self p c
  have hused : s.heap.used ≤ (s.heap.write p c).used := le_rfl
  have hleast : ∀ least ≤ minKeys, Node s.heap least (h + 1) p →
      Node (s.heap.write p c) least (h + 1) p := by
    intro least _ hleast
    refine ⟨hp.lt_used, ?_, ?_⟩
    · rw [hcell]
      exact ⟨hs.internal, hs.arity, hleast.internalCell.least_le.trans hs.keys_ge, hfull⟩
    · intro q hq
      rw [hcell] at hq
      exact Node.frame hused hp hagree le_rfl (hs.children q hq)
  refine ⟨⟨d + (h + 1), Node.replace hused hp hagree hleast (by decide) hs.tree, hs.height_lt, ?_⟩,
    fun q hq ↦ ?_, rfl⟩
  · show level (s.heap.write p c) (d + (h + 1)) [(⊥, s.root)] = leaves
    rw [Nat.add_comm, level_add, level_frame_above hp hagree hs.tree, hs.row, level_succ,
      List.flatMap_append, List.flatMap_cons, (hs.siblings hagree).1, (hs.siblings hagree).2]
    have hfan : fanout (s.heap.write p c) (low, p) =
        (low :: c.keys.map WithBot.some).zip c.children := by
      rw [fanout, hcell]
    rw [hfan, level_frame hp hagree hs.children_nodes]
    exact hs.leaves_eq
  · refine hagree q hq.lt_used ?_
    rintro rfl
    exact absurd (hq.height_unique hp) (by omega)

/-- The store after the split of a full node `p` with the cell `c`: the upper half of the cell has
moved to a new node. -/
def splitStore (s : BPTreeStore) (p : Pointer) (c : BpNode) : BPTreeStore :=
  { s with heap := ((s.heap.write p c).alloc { BpNode.newInternal with
      keys := c.keys.drop (bpOrder / 2 + 1)
      children := c.children.drop (bpOrder / 2 + 1) }).write p { c with
        keys := c.keys.take (bpOrder / 2)
        children := c.children.take (bpOrder / 2 + 1) } }

theorem cell_splitStore_of_ne {q : Pointer} (hq : q < s.heap.used) (hqp : q ≠ p) :
    (splitStore s p c).heap.cell q = s.heap.cell q := by
  rw [splitStore, Memory.cell_write_of_ne _ _ hqp,
    Memory.cell_alloc_of_lt (s.heap.write p c) _ hq, Memory.cell_write_of_ne _ _ hqp]

theorem cell_splitStore_left :
    (splitStore s p c).heap.cell p = { c with
      keys := c.keys.take (bpOrder / 2), children := c.children.take (bpOrder / 2 + 1) } :=
  Memory.cell_write_self _ _ _

theorem cell_splitStore_right (hp : p < s.heap.used) :
    (splitStore s p c).heap.cell s.heap.used = { BpNode.newInternal with
      keys := c.keys.drop (bpOrder / 2 + 1), children := c.children.drop (bpOrder / 2 + 1) } :=
  (Memory.cell_write_of_ne _ _ (Nat.ne_of_gt hp)).trans (Memory.cell_alloc_used _ _)

theorem fanout_splitStore_left :
    fanout (splitStore s p c).heap (low, p) =
      ((low :: c.keys.map WithBot.some).zip c.children).take (bpOrder / 2 + 1) := by
  rw [fanout, cell_splitStore_left, take_zip, List.take_succ_cons, List.map_take]

theorem fanout_splitStore_right (hp : p < s.heap.used) {promoteKey : GoString}
    (hpromote : c.keys[bpOrder / 2]? = some promoteKey) :
    fanout (splitStore s p c).heap ((promoteKey : WithBot GoString), s.heap.used) =
      ((low :: c.keys.map WithBot.some).zip c.children).drop (bpOrder / 2 + 1) := by
  obtain ⟨hmid, hkey⟩ := List.getElem?_eq_some_iff.mp hpromote
  have hdrop : c.keys.drop (bpOrder / 2) = promoteKey :: c.keys.drop (bpOrder / 2 + 1) := by
    rw [List.drop_eq_getElem_cons hmid, hkey]
  rw [fanout, cell_splitStore_right hp, drop_zip, List.drop_succ_cons, ← List.map_drop, hdrop]
  rfl

/-- Both halves of a full node are proper. -/
theorem Widened.nodes_splitStore (hs : Widened s d h front low p c back leaves)
    (hfull : c.keys.length = bpOrder) :
    Node (splitStore s p c).heap minKeys (h + 1) p ∧
      Node (splitStore s p c).heap minKeys (h + 1) s.heap.used := by
  have hp := hs.node
  have hused : s.heap.used ≤ (splitStore s p c).heap.used := Nat.le_succ _
  have hbelow : ∀ q ∈ c.children, Node (splitStore s p c).heap minKeys h q := fun q hq ↦
    Node.frame hused hp (fun _ ↦ cell_splitStore_of_ne) le_rfl (hs.children q hq)
  have harity := hs.arity
  have hmid : bpOrder / 2 < c.keys.length := by
    rw [hfull]
    decide
  constructor
  · refine ⟨hp.lt_used.trans_le hused, ?_, ?_⟩
    · rw [cell_splitStore_left]
      refine ⟨hs.internal, ?_, ?_, ?_⟩
      · simp only [List.length_take]
        omega
      · simp only [List.length_take, hfull]
        decide
      · simp only [List.length_take, hfull]
        decide
    · intro q hq
      rw [cell_splitStore_left] at hq
      exact hbelow q (List.mem_of_mem_take hq)
  · refine ⟨Nat.lt_succ_self _, ?_, ?_⟩
    · rw [cell_splitStore_right hp.lt_used]
      refine ⟨rfl, ?_, ?_, ?_⟩
      · simp only [List.length_drop]
        omega
      · simp only [List.length_drop, hfull]
        decide
      · simp only [List.length_drop, hfull]
        decide
    · intro q hq
      rw [cell_splitStore_right hp.lt_used] at hq
      exact hbelow q (List.mem_of_mem_drop hq)

/-- The split of a full node is pending in the same row. -/
theorem Widened.split (hs : Widened s d h front low p c back leaves)
    (hfull : c.keys.length = bpOrder) :
    ∃ promoteKey, c.keys[bpOrder / 2]? = some promoteKey ∧
      Pending (splitStore s p c) d (h + 1) front low p promoteKey s.heap.used back leaves ∧
      ∀ q, Node s.heap 0 0 q → (splitStore s p c).heap.cell q = s.heap.cell q := by
  have hp := hs.node
  have hmid : bpOrder / 2 < c.keys.length := by
    rw [hfull]
    decide
  obtain ⟨promoteKey, hpromote⟩ : ∃ promoteKey, c.keys[bpOrder / 2]? = some promoteKey :=
    ⟨_, List.getElem?_eq_getElem hmid⟩
  have hagree : ∀ q < s.heap.used, q ≠ p →
      (splitStore s p c).heap.cell q = s.heap.cell q := fun _ ↦ cell_splitStore_of_ne
  have hused : s.heap.used ≤ (splitStore s p c).heap.used := Nat.le_succ _
  obtain ⟨hleft, hright⟩ := hs.nodes_splitStore hfull
  refine ⟨promoteKey, hpromote, ⟨?_, ?_, ?_, hleft, hright, ?_, hs.ordered⟩, fun q hq ↦ ?_⟩
  · exact Node.replace hused hp hagree (fun least hle _ ↦ hleft.weaken hle) (by decide) hs.tree
  · exact hs.height_lt.trans_le hused
  · exact (level_frame_above hp hagree hs.tree).trans hs.row
  · rw [level_succ, List.flatMap_append, List.flatMap_cons, List.flatMap_cons,
      (hs.siblings hagree).1, (hs.siblings hagree).2, fanout_splitStore_left,
      fanout_splitStore_right hp.lt_used hpromote, ← List.append_assoc (List.take _ _),
      List.take_append_drop, level_frame hp hagree hs.children_nodes]
    exact hs.leaves_eq
  · refine hagree q hq.lt_used ?_
    rintro rfl
    exact absurd (hq.height_unique hp) (by omega)

end Widened

/-! ### The cascade of splits -/

section Cascade

variable {s : BPTreeStore} {low : WithBot GoString} {left right : Pointer}

/-- The part that `insertIntoParent` and `splitInternal` share: a new root, or the link into the
parent followed by the split of a full parent. -/
def attach (steps : ℕ) (s : BPTreeStore) (left : Pointer) (key : GoString) (right : Pointer) :
    Outcome BPTreeStore :=
  if s.root = left then pure (s.growRoot left key right)
  else do
    let (s, parent) ← s.linkIntoParent left key right
    if bpOrder ≤ (s.heap.cell parent).keys.length then splitInternal steps s parent
    else pure s

theorem splitInternal_eq_attach {c : BpNode} {promoteKey : GoString} {p : Pointer} (steps : ℕ)
    (hpromote : c.keys[bpOrder / 2]? = some promoteKey) :
    splitInternal (steps + 1) { s with heap := s.heap.write p c } p =
      attach steps (splitStore s p c) p promoteKey s.heap.used := by
  simp only [splitInternal, Memory.cell_write_self, index_eq_ok hpromote, bind, Except.bind]
  rfl

theorem insertIntoParent_eq_attach {parent : Pointer} {c : BpNode} (hroot : s.root ≠ left)
    (hlink : s.linkIntoParent left key right =
      .ok ({ s with heap := s.heap.write parent c }, parent)) :
    s.insertIntoParent left key right = attach s.heap.used s left key right := by
  rw [insertIntoParent, attach, if_neg hroot, if_neg hroot, hlink]
  simp only [bind, Except.bind, Memory.cell_write_self, Memory.used_write]
  by_cases hfull : c.keys.length < bpOrder
  · rw [if_pos hfull, if_neg (not_le.mpr hfull)]
  · rw [if_neg hfull, if_pos (not_lt.mp hfull)]

/-- The left half of a split below the root is not the root. -/
theorem Pending.root_ne (hs : Pending s (d + 1) h front low left key right back leaves) :
    s.root ≠ left := by
  intro heq
  have htree := hs.tree
  rw [heq] at htree
  exact absurd (htree.height_unique hs.left_node) (by omega)

/-- A pending split is resolved in at most as many steps as there are rows above it. -/
theorem Pending.attach (hs : Pending s d h front low left key right back leaves) {steps : ℕ}
    (hsteps : d ≤ steps) :
    ∃ s', attach steps s left key right = .ok s' ∧ Grown s s' leaves := by
  induction d generalizing s h front low left key right back steps with
  | zero =>
    obtain ⟨hroot, hgrown⟩ := hs.growRoot
    exact ⟨_, by rw [BPTreeRows.attach, if_pos hroot]; rfl, hgrown⟩
  | succ d ih =>
    obtain ⟨parent, c, front', low', back', hlink, hwide⟩ := hs.linkIntoParent
    rw [BPTreeRows.attach, if_neg hs.root_ne, hlink]
    simp only [bind, Except.bind, Memory.cell_write_self]
    by_cases hfull : bpOrder ≤ c.keys.length
    · obtain ⟨promoteKey, hpromote, hpending, hcells⟩ :=
        hwide.split (le_antisymm hwide.keys_le hfull)
      obtain ⟨steps, rfl⟩ := Nat.exists_eq_succ_of_ne_zero (show steps ≠ 0 by omega)
      obtain ⟨s', hresult, hgrown⟩ := ih hpending (Nat.le_of_succ_le_succ hsteps)
      refine ⟨s', ?_, hgrown.tree, fun q hq ↦ ?_, hgrown.hashes⟩
      · rw [if_pos hfull, splitInternal_eq_attach steps hpromote]
        exact hresult
      · have hleaf : Node (splitStore s parent c).heap 0 0 q :=
          ⟨hq.lt_used.trans (Nat.lt_succ_self _), by rw [hcells q hq]; exact hq.leafCell⟩
        exact (hgrown.leaf_cell q hleaf).trans (hcells q hq)
    · exact ⟨_, by rw [if_neg hfull]; rfl, hwide.finish (not_le.mp hfull)⟩

/-- Assumes: a pending split. `insertIntoParent` meets a parent whenever it looks for one, and the
tree it leaves is proper and has the leaves the split asks for. -/
theorem Pending.insertIntoParent (hs : Pending s d h front low left key right back leaves) :
    ∃ s', s.insertIntoParent left key right = .ok s' ∧ Grown s s' leaves := by
  have hsteps : d ≤ s.heap.used := by
    have := hs.height_lt
    omega
  obtain ⟨s', hresult, hgrown⟩ := hs.attach hsteps
  refine ⟨s', ?_, hgrown⟩
  cases d with
  | zero =>
    rw [BPTreeRows.attach, if_pos hs.growRoot.1] at hresult
    rw [BPTreeStore.insertIntoParent, if_pos hs.growRoot.1]
    exact hresult
  | succ d =>
    obtain ⟨parent, c, front', low', back', hlink, -⟩ := hs.linkIntoParent
    rw [insertIntoParent_eq_attach hs.root_ne hlink]
    exact hresult

end Cascade

end FluxCache.Store.BPTreeRows
