import FluxCache.Store.ARTCompletion
import FluxCache.Store.BPTreeQueries
import FluxCache.Store.SkipListQueries

/-!
# Ordered queries on the adaptive radix tree

`PrefixKeys` descends along the prefix until the prefix ends inside the compressed path of a node,
at a node or at a leaf, and then returns the keys below that node in the order of its traversal. It
does not sort them. `RangeKeys` traverses the whole tree, keeps the keys between the two ends and
sorts them.

A traversal visits the children of a table in the order of their bytes: a table of the layouts 4
and 16 keeps its bytes sorted (`Layout.kept_ordered`), one of the layouts 48 and 256 is read in the
order of its index, where a byte whose child is gone is skipped (`Layout.exists_visit`). The keys
below two children of a node differ first in the bytes of the children, with the key that ends at
the node before all others, since byte 0 stands for the end. So the traversal of a valid tree lists
its keys in increasing order (`Valid.exists_traversed`), and both queries are exact
(`Valid.lists_prefixFrom`, `Represents.lists_rangeKeys`).
-/

set_option autoImplicit false
set_option relaxedAutoImplicit false

namespace FluxCache.Store

open FluxCache.Foundation

/-! ### The order of a table -/

namespace Layout

variable {α : Type} {layout layout' : Layout α} {b : UInt8} {child : α}

/-- The children in the order in which `collectKeys` and `collectRange` visit them. A nil child is
visited without effect. -/
def visited : Layout α → Outcome (List α)
  | node4 _ children => .ok children
  | node16 _ children => .ok children
  | node48 slots children => do
    let found ← (List.range 256).mapM fun i ↦ childAt children (slots (UInt8.ofNat i))
    pure (found.filterMap id)
  | node256 children => .ok (children.filterMap id)

theorem mem_of_visited {children : List α} (hvisited : layout.visited = .ok children)
    (hchild : child ∈ children) : child ∈ layout.members := by
  cases layout with
  | node4 keys members =>
    rw [← Except.ok.inj hvisited] at hchild
    exact hchild
  | node16 keys members =>
    rw [← Except.ok.inj hvisited] at hchild
    exact hchild
  | node48 slots members =>
    obtain ⟨found, hfound, hsome⟩ := bind_eq_ok_iff.mp hvisited
    rw [← Except.ok.inj hsome] at hchild
    obtain ⟨slot, hslot, hid⟩ := List.mem_filterMap.mp hchild
    rw [show slot = some child from hid] at hslot
    obtain ⟨i, -, hi⟩ := exists_of_mem_mapM hfound hslot
    exact mem_of_childAt hi
  | node256 members =>
    rw [← Except.ok.inj hvisited] at hchild
    exact hchild

/-- The bytes of a table are in order, so far as it keeps them in a slice. -/
def Sorted : Layout α → Prop
  | node4 keys _ => keys.Pairwise (· ≤ ·)
  | node16 keys _ => keys.Pairwise (· ≤ ·)
  | node48 _ _ => True
  | node256 _ => True

/-- The position of a new byte keeps the bytes in order. -/
theorem pairwise_insert {keys : List UInt8} (hkeys : keys.Pairwise (· ≤ ·)) (b : UInt8) :
    (keys.take (keyPosition keys b) ++ b :: keys.drop (keyPosition keys b)).Pairwise (· ≤ ·) := by
  induction keys with
  | nil => exact List.pairwise_singleton _ _
  | cons k keys ih =>
    obtain ⟨hfirst, hrest⟩ := List.pairwise_cons.mp hkeys
    by_cases hk : k < b
    · have hposition : keyPosition (k :: keys) b = keyPosition keys b + 1 := by
        simp [keyPosition, hk]
      rw [hposition, List.take_succ_cons, List.drop_succ_cons, List.cons_append]
      refine List.pairwise_cons.mpr ⟨fun x hx ↦ ?_, ih hrest⟩
      rw [List.perm_middle.mem_iff, List.take_append_drop] at hx
      rcases List.mem_cons.mp hx with rfl | hx
      · exact hk.le
      · exact hfirst x hx
    · have hposition : keyPosition (k :: keys) b = 0 := by
        simp [keyPosition, hk]
      rw [hposition, List.take_zero, List.drop_zero, List.nil_append]
      refine List.pairwise_cons.mpr ⟨fun x hx ↦ ?_, hkeys⟩
      rcases List.mem_cons.mp hx with rfl | hx
      · exact not_lt.mp hk
      · exact (not_lt.mp hk).trans (hfirst x hx)

theorem pairwise_of_insertAt {keys newKeys : List UInt8} (hkeys : keys.Pairwise (· ≤ ·))
    (hinsert : insertAt keys (keyPosition keys b) b = .ok newKeys) :
    newKeys.Pairwise (· ≤ ·) := by
  rw [insertAt, if_pos (keyPosition_le keys b)] at hinsert
  rw [← Except.ok.inj hinsert]
  exact pairwise_insert hkeys b

theorem Sorted.addChild (hsorted : layout.Sorted) (hadd : layout.addChild b child = .ok layout') :
    layout'.Sorted := by
  cases layout with
  | node4 keys children =>
    obtain ⟨newKeys, hkeys, hadd⟩ := bind_eq_ok_iff.mp hadd
    obtain ⟨newChildren, -, hadd⟩ := bind_eq_ok_iff.mp hadd
    have hnew := pairwise_of_insertAt hsorted hkeys
    rw [← Except.ok.inj hadd]
    split
    · exact hnew
    · exact hnew
  | node16 keys children =>
    obtain ⟨newKeys, hkeys, hadd⟩ := bind_eq_ok_iff.mp hadd
    obtain ⟨newChildren, -, hadd⟩ := bind_eq_ok_iff.mp hadd
    rw [← Except.ok.inj hadd]
    split
    · exact trivial
    · exact pairwise_of_insertAt hsorted hkeys
  | node48 slots children =>
    rw [← Except.ok.inj hadd]
    split
    · exact trivial
    · exact trivial
  | node256 children =>
    obtain ⟨newChildren, -, hadd⟩ := bind_eq_ok_iff.mp hadd
    rw [← Except.ok.inj hadd]
    exact trivial

theorem Sliced.sorted_removeChild {make : List UInt8 → List α → Layout α} {room : ℕ}
    (hs : Sliced make room) (hmake : ∀ keys children, keys.Pairwise (· ≤ ·) →
      (make keys children).Sorted) {keys : List UInt8} {children : List α}
    (hkeys : keys.Pairwise (· ≤ ·)) (hremove : (make keys children).removeChild b = .ok layout') :
    layout'.Sorted := by
  rw [hs.remove_eq] at hremove
  rw [← Except.ok.inj hremove]
  cases keys.idxOf? b with
  | none => exact hmake _ _ hkeys
  | some i => exact hmake _ _ (List.Pairwise.sublist (List.eraseIdx_sublist keys i) hkeys)

theorem Sorted.removeChild (hsorted : layout.Sorted)
    (hremove : layout.removeChild b = .ok layout') : layout'.Sorted := by
  cases layout with
  | node4 keys children => exact sliced_node4.sorted_removeChild (fun _ _ h ↦ h) hsorted hremove
  | node16 keys children => exact sliced_node16.sorted_removeChild (fun _ _ h ↦ h) hsorted hremove
  | node48 slots children =>
    rw [← Except.ok.inj hremove]
    exact trivial
  | node256 children =>
    obtain ⟨newChildren, -, hremove⟩ := bind_eq_ok_iff.mp hremove
    rw [← Except.ok.inj hremove]
    exact trivial

theorem Sorted.replaceChild (hsorted : layout.Sorted) (b : UInt8) (child : α) :
    (layout.replaceChild b child).Sorted := by
  cases layout with
  | node4 keys children => exact hsorted
  | node16 keys children => exact hsorted
  | node48 slots children => exact trivial
  | node256 children => exact trivial

/-- A proper table with its bytes in order. -/
def Ordered (layout : Layout α) : Prop := layout.Wf ∧ layout.Sorted

theorem kept_ordered : Kept (Ordered : Layout α → Prop) where
  wf h := h.1
  empty := ⟨wf_empty.1, List.Pairwise.nil⟩
  add h hadd := ⟨kept_wf.add h.1 hadd, h.2.addChild hadd⟩
  remove h hremove := ⟨kept_wf.remove h.1 hremove, h.2.removeChild hremove⟩
  replace b child h := ⟨kept_wf.replace b child h.1, h.2.replaceChild b child⟩

/-- The rows in which a table is visited: its children with their bytes, by increasing bytes. -/
structure Visit (layout : Layout α) (rows : List (UInt8 × α)) : Prop where
  visited_eq : layout.visited = .ok (rows.map Prod.snd)
  increasing : rows.Pairwise fun x y ↦ x.1 < y.1
  mem_iff : ∀ b child, (b, child) ∈ rows ↔ layout.view b = some child

theorem visit_rows {rows : List (UInt8 × α)} (hvisited : layout.visited = .ok (rows.map Prod.snd))
    (hview : layout.view = fun k ↦ rows.lookup k) (hnodup : (rows.map Prod.fst).Nodup)
    (hsorted : (rows.map Prod.fst).Pairwise (· ≤ ·)) : Visit layout rows := by
  refine ⟨hvisited, ?_, fun b child ↦ by rw [hview]; exact mem_iff_lookup hnodup⟩
  have hboth := hsorted.and hnodup
  rw [List.pairwise_map] at hboth
  exact hboth.imp fun h ↦ lt_of_le_of_ne h.1 h.2

/-- A table that is visited in the order of an index of all bytes. -/
theorem visit_bytes (hvisited : layout.visited =
      .ok (((List.range 256).map fun i ↦ layout.view (UInt8.ofNat i)).filterMap id)) :
    Visit layout ((List.range 256).filterMap fun i ↦
      (layout.view (UInt8.ofNat i)).map (Prod.mk (UInt8.ofNat i))) := by
  refine ⟨?_, List.pairwise_filterMap.mpr ?_, fun b child ↦ ?_⟩
  · rw [hvisited, List.map_filterMap, List.filterMap_map]
    congr 2
    funext i
    rw [Option.map_map]
    exact Option.map_id'.symm
  · refine List.pairwise_lt_range.imp_of_mem fun {i j} hi hj hij x hx y hy ↦ ?_
    obtain ⟨_, -, rfl⟩ := Option.map_eq_some_iff.mp hx
    obtain ⟨_, -, rfl⟩ := Option.map_eq_some_iff.mp hy
    rw [UInt8.lt_iff_toNat_lt, UInt8.toNat_ofNat_of_lt' (List.mem_range.mp hi),
      UInt8.toNat_ofNat_of_lt' (List.mem_range.mp hj)]
    exact hij
  · rw [List.mem_filterMap]
    constructor
    · rintro ⟨i, -, hi⟩
      obtain ⟨other, hother, heq⟩ := Option.map_eq_some_iff.mp hi
      obtain ⟨rfl, rfl⟩ := Prod.mk.inj heq
      exact hother
    · intro hb
      refine ⟨b.toNat, List.mem_range.mpr b.toNat_lt, ?_⟩
      rw [UInt8.ofNat_toNat, hb]
      rfl

/-- A proper table without a byte twice is visited by increasing bytes. -/
theorem exists_visit (hordered : layout.Ordered) (hdistinct : layout.Distinct) :
    ∃ rows, Visit layout rows := by
  obtain ⟨hwf, hsorted⟩ := hordered
  cases layout with
  | node4 keys children =>
    obtain ⟨rows, rfl, rfl⟩ := exists_rows hwf.1
    exact ⟨rows, visit_rows rfl (view_node4 rows) hdistinct hsorted⟩
  | node16 keys children =>
    obtain ⟨rows, rfl, rfl⟩ := exists_rows hwf.1
    exact ⟨rows, visit_rows rfl (view_node16 rows) hdistinct hsorted⟩
  | node48 slots children =>
    refine ⟨_, visit_bytes ?_⟩
    have hfound : (List.range 256).mapM (fun i ↦ childAt children (slots (UInt8.ofNat i))) =
        .ok ((List.range 256).map fun i ↦ (node48 slots children).view (UInt8.ofNat i)) :=
      mapM_eq_ok fun i _ ↦ findChild_eq hwf (UInt8.ofNat i)
    rw [visited, hfound]
    rfl
  | node256 children =>
    refine ⟨_, visit_bytes ?_⟩
    have hlength : children.length = 256 := hwf
    have hchildren : children =
        (List.range 256).map fun i ↦ (node256 children).view (UInt8.ofNat i) := by
      refine List.ext_getElem (by simp [hlength]) fun i hi hi' ↦ ?_
      have hlt : i < 256 := lt_of_lt_of_eq hi hlength
      rw [List.getElem_map, List.getElem_range, view, UInt8.toNat_ofNat_of_lt' hlt,
        List.getElem?_eq_getElem hi, Option.join_some]
    rw [visited, ← hchildren]

end Layout

/-! ### The queries -/

namespace ArtNode

/-- `collectKeys`. -/
def collectKeys (n : ArtNode) : Outcome (List GoString) :=
  match n with
  | leaf key _ => .ok [key]
  | inner _ layout =>
    match _h : layout.visited with
    | .error fault => .error fault
    | .ok children => do
      let out ← children.attach.mapM fun child ↦ collectKeys child.1
      pure out.flatten
termination_by n
decreasing_by exact sizeOf_lt_of_mem _ (Layout.mem_of_visited _h child.2)

/-- `collectRange`, with the slice that the calls append to. -/
def collectRange (start stop : GoString) (n : ArtNode) (out : List GoString) :
    Outcome (List GoString) :=
  match n with
  | leaf key _ => .ok (if start ≤ key ∧ key ≤ stop then out ++ [key] else out)
  | inner _ layout =>
    match _h : layout.visited with
    | .error fault => .error fault
    | .ok children =>
      children.attach.foldlM (fun out child ↦ collectRange start stop child.1 out) out
termination_by n
decreasing_by exact sizeOf_lt_of_mem _ (Layout.mem_of_visited _h child.2)

/-- The loop of `PrefixKeys` from a node at a depth, which is never larger than the length of the
prefix. -/
def prefixFrom (start : GoString) (n : ArtNode) (depth : ℕ) : Outcome (List GoString) :=
  match n with
  | leaf key _ => .ok (if start.isPrefixOf key then [key] else [])
  | inner pfx layout =>
    if start.length < depth + pfx.length then
      if pfx.take (start.length - depth) = start.drop depth then collectKeys (inner pfx layout)
      else .ok []
    else if (start.drop depth).take pfx.length = pfx then
      if start.length ≤ depth + pfx.length then collectKeys (inner pfx layout)
      else
        match _h : layout.findChild (byteAt start (depth + pfx.length)) with
        | .error fault => .error fault
        | .ok none => .ok []
        | .ok (some child) => prefixFrom start child (depth + pfx.length + 1)
    else .ok []
termination_by n
decreasing_by exact sizeOf_lt_of_mem pfx (Layout.mem_of_findChild _h)

end ArtNode

namespace ARTStore

/-- `PrefixKeys`. -/
def prefixKeys (s : ARTStore) (start : GoString) : Outcome (List GoString) :=
  match s.root with
  | none => .ok []
  | some root => root.prefixFrom start 0

/-- `RangeKeys`. The root may be nil. -/
def rangeKeys (s : ARTStore) (start stop : GoString) : Outcome (List GoString) := do
  let out ← s.root.elim (.ok []) fun root ↦ root.collectRange start stop []
  pure (out.insertionSort (· ≤ ·))

end ARTStore

/-! ### Traversals -/

namespace ArtNode

variable {n child : ArtNode} {path pfx : List UInt8} {layout : Layout ArtNode}
  {key k v : GoString} {b : UInt8} {start stop : GoString} {rows : List (UInt8 × ArtNode)}

theorem collectKeys_inner (pfx : List UInt8) (hvisit : layout.Visit rows) :
    collectKeys (inner pfx layout) =
      (rows.mapM fun row ↦ collectKeys row.2) >>= fun out ↦ pure out.flatten := by
  have hloop : ∀ children : List ArtNode,
      children.attach.mapM (fun child ↦ collectKeys child.1) = children.mapM collectKeys := by
    intro children
    conv => rhs; rw [← List.attach_map_subtype_val children, List.mapM_map]
    rfl
  rw [collectKeys]
  split
  · rename_i fault hfault
    exact absurd (hfault.symm.trans hvisit.visited_eq) (by simp)
  · rename_i children hchildren
    rw [Except.ok.inj (hchildren.symm.trans hvisit.visited_eq), hloop, List.mapM_map]
    rfl

theorem collectRange_inner (pfx : List UInt8) (hvisit : layout.Visit rows) (out : List GoString) :
    collectRange start stop (inner pfx layout) out =
      rows.foldlM (fun out row ↦ collectRange start stop row.2 out) out := by
  have hloop : ∀ children : List ArtNode,
      children.attach.foldlM (fun out child ↦ collectRange start stop child.1 out) out =
        children.foldlM (fun out child ↦ collectRange start stop child out) out := by
    intro children
    conv => rhs; rw [← List.attach_map_subtype_val children, List.foldlM_map]
  rw [collectRange]
  split
  · rename_i fault hfault
    exact absurd (hfault.symm.trans hvisit.visited_eq) (by simp)
  · rename_i children hchildren
    rw [Except.ok.inj (hchildren.symm.trans hvisit.visited_eq), hloop, List.foldlM_map]

/-- Strings with a common part are ordered by the bytes after it, the one that ends there first. -/
theorem lt_of_byteAt_lt {x y : GoString} (hx : path <+: x) (hy : path <+: y)
    (hlt : byteAt x path.length < byteAt y path.length) : x < y := by
  obtain ⟨restX, rfl⟩ := hx
  obtain ⟨restY, rfl⟩ := hy
  have hbytes := hlt
  rw [← Nat.add_zero path.length, byteAt_append, byteAt_append] at hbytes
  refine List.append_left_lt ?_
  cases restY with
  | nil => exact absurd hbytes (not_lt.mpr UInt8.zero_le)
  | cons y restY =>
    cases restX with
    | nil => exact List.nil_lt_cons _ _
    | cons x restX => exact List.cons_lt_cons_iff.mpr (Or.inl hbytes)

theorem Valid.exists_visit (hn : Valid path (.inner pfx layout)) (hordered : layout.Ordered) :
    ∃ rows, layout.Visit rows := by
  cases hn with
  | inner _ hdistinct _ _ _ => exact Layout.exists_visit hordered hdistinct

/-- What the traversals of a node return: `collectKeys` lists the keys below the node, and
`collectRange` appends those of the interval. -/
structure Traversed (n : ArtNode) (keys : List GoString) : Prop where
  collectKeys_eq : collectKeys n = .ok keys
  collectRange_eq : ∀ start stop out, collectRange start stop n out =
    .ok (out ++ keys.filter fun k ↦ start ≤ k ∧ k ≤ stop)
  lists : Lists (fun k ↦ ∃ v, Contains n k v) keys

theorem traversed_leaf (key value : GoString) : Traversed (leaf key value) [key] := by
  refine ⟨by rw [collectKeys], fun start stop out ↦ ?_, List.pairwise_singleton _ _, fun k ↦ ?_⟩
  · rw [collectRange]
    by_cases hkey : start ≤ key ∧ key ≤ stop
    · simp [hkey]
    · simp [hkey]
  · rw [List.mem_singleton]
    constructor
    · rintro rfl
      exact ⟨value, Contains.leaf⟩
    · rintro ⟨v, hv⟩
      exact (contains_leaf_iff.mp hv).1

/-- Assumes: a table that is visited in the given rows, and what the traversals of its children
return. The traversals of the node visit the children one after another. -/
theorem Valid.traversed_inner (hn : Valid path (.inner pfx layout)) (hvisit : layout.Visit rows)
    {keys : UInt8 × ArtNode → List GoString} (hrows : ∀ row ∈ rows, Traversed row.2 (keys row)) :
    Traversed (.inner pfx layout) (rows.flatMap keys) := by
  have hcross : rows.Pairwise fun x y ↦ ∀ k k', (∃ v, Contains x.2 k v) →
      (∃ v, Contains y.2 k' v) → k < k' := by
    refine hvisit.increasing.imp_of_mem fun {x y} hx hy hxy k k' hk hk' ↦ ?_
    obtain ⟨⟨v, hv⟩, ⟨v', hv'⟩⟩ := And.intro hk hk'
    obtain ⟨hpath, hbyte⟩ := hn.route ((hvisit.mem_iff x.1 x.2).mp hx) hv
    obtain ⟨hpath', hbyte'⟩ := hn.route ((hvisit.mem_iff y.1 y.2).mp hy) hv'
    refine lt_of_byteAt_lt hpath hpath' ?_
    rw [hbyte, hbyte']
    exact hxy
  refine ⟨?_, fun start stop out ↦ ?_,
    (lists_flatMap (fun row hrow ↦ (hrows row hrow).lists) hcross).congr fun k ↦ ?_⟩
  · rw [collectKeys_inner pfx hvisit, mapM_eq_ok fun row hrow ↦ (hrows row hrow).collectKeys_eq,
      List.flatMap_def]
    rfl
  · rw [collectRange_inner pfx hvisit, List.filter_flatMap]
    exact foldlM_append_eq (fun row hrow ↦ (hrows row hrow).collectRange_eq start stop) out
  · simp only [contains_inner_iff]
    constructor
    · rintro ⟨⟨b, child⟩, hrow, v, hv⟩
      exact ⟨v, b, child, (hvisit.mem_iff b child).mp hrow, hv⟩
    · rintro ⟨v, b, child, hchild, hv⟩
      exact ⟨(b, child), (hvisit.mem_iff b child).mpr hchild, v, hv⟩

/-- Induction over a valid tree that treats the leaf of a key that ends at a node as the other
children. -/
theorem Valid.inductionOn {motive : ArtNode → Prop} (hn : Valid path n)
    (hleaf : ∀ key value, (0 : UInt8) ∉ key → motive (.leaf key value))
    (hinner : ∀ path pfx layout, Valid path (.inner pfx layout) →
      (∀ b child, layout.view b = some child → motive child) → motive (.inner pfx layout)) :
    motive n := by
  induction hn with
  | leaf _ hkey => exact hleaf _ _ hkey
  | inner hwf hdistinct hplain hterminal hvalid ih =>
    refine hinner _ _ _ (Valid.inner hwf hdistinct hplain hterminal hvalid) fun b child hchild ↦ ?_
    by_cases hb : b = 0
    · subst hb
      obtain ⟨value, rfl⟩ := hterminal child hchild
      exact hleaf _ value hplain
    · exact ih b child hb hchild

/-- The traversals of a valid tree with its tables in order return. -/
theorem Valid.exists_traversed (hn : Valid path n) (hordered : Throughout Layout.Ordered n) :
    ∃ keys, Traversed n keys := by
  refine hn.inductionOn (motive := fun n ↦ Throughout Layout.Ordered n → ∃ keys, Traversed n keys)
    (fun key value _ _ ↦ ⟨[key], traversed_leaf key value⟩) ?_ hordered
  intro path pfx layout hnode ih hordered
  obtain ⟨rows, hvisit⟩ := hnode.exists_visit hordered.own
  have hbelow : ∀ row ∈ rows, ∃ keys, Traversed row.2 keys := fun row hrow ↦
    ih row.1 row.2 ((hvisit.mem_iff row.1 row.2).mp hrow)
      (hordered.of_view Layout.kept_ordered ((hvisit.mem_iff row.1 row.2).mp hrow))
  choose! keys hkeys using hbelow
  exact ⟨rows.flatMap keys, hnode.traversed_inner hvisit hkeys⟩

/-! ### The descent along a prefix -/

/-- The loop of `PrefixKeys` at an inner node below which the prefix goes on. -/
theorem prefixFrom_inner {depth : ℕ} {found : Option ArtNode}
    (hmore : depth + pfx.length < start.length) (hstart : (start.drop depth).take pfx.length = pfx)
    (hfound : layout.findChild (byteAt start (depth + pfx.length)) = .ok found) :
    prefixFrom start (inner pfx layout) depth =
      found.elim (.ok []) fun child ↦ prefixFrom start child (depth + pfx.length + 1) := by
  rw [prefixFrom, if_neg (not_lt.mpr hmore.le), if_pos hstart, if_neg (not_le.mpr hmore)]
  split
  · rename_i fault hfault
    exact absurd (hfault.symm.trans hfound) (by simp)
  · rename_i hnone
    rw [Except.ok.inj (hfound.symm.trans hnone)]
    rfl
  · rename_i child hsome
    rw [Except.ok.inj (hfound.symm.trans hsome)]
    rfl

theorem lists_prefixFrom_leaf (start key value : GoString) (depth : ℕ) :
    ∃ keys, prefixFrom start (leaf key value) depth = .ok keys ∧
      Lists (fun k ↦ (∃ v, Contains (leaf key value) k v) ∧ start <+: k) keys := by
  refine ⟨_, by rw [prefixFrom], ?_⟩
  by_cases hstart : start.isPrefixOf key = true
  · rw [if_pos hstart]
    refine (traversed_leaf key value).lists.congr fun k ↦ (and_iff_left_of_imp ?_).symm
    rintro ⟨v, hv⟩
    rw [(contains_leaf_iff.mp hv).1]
    exact List.isPrefixOf_iff_prefix.mp hstart
  · rw [if_neg hstart]
    refine lists_nil ?_
    rintro k ⟨⟨v, hv⟩, hk⟩
    rw [(contains_leaf_iff.mp hv).1] at hk
    exact hstart (List.isPrefixOf_iff_prefix.mpr hk)

theorem Valid.prefix_of_contains_inner (hn : Valid path (.inner pfx layout))
    (hentry : Contains (.inner pfx layout) k v) : path ++ pfx <+: k := by
  obtain ⟨b, child, hchild, hbelow⟩ := contains_inner_iff.mp hentry
  exact (hn.route hchild hbelow).1

/-- A prefix that ends inside the compressed path of a node or at the node is one of every key below
the node. -/
theorem Valid.lists_of_short (hn : Valid path (.inner pfx layout))
    (hordered : Throughout Layout.Ordered (.inner pfx layout)) (hstart : start <+: path ++ pfx) :
    ∃ keys, collectKeys (.inner pfx layout) = .ok keys ∧
      Lists (fun k ↦ (∃ v, Contains (.inner pfx layout) k v) ∧ start <+: k) keys := by
  obtain ⟨keys, hkeys⟩ := hn.exists_traversed hordered
  refine ⟨keys, hkeys.collectKeys_eq, hkeys.lists.congr fun k ↦ (and_iff_left_of_imp ?_).symm⟩
  rintro ⟨v, hv⟩
  exact hstart.trans (hn.prefix_of_contains_inner hv)

/-- A prefix that leaves the compressed path of a node is one of no key below the node. -/
theorem Valid.lists_of_apart (hn : Valid path (.inner pfx layout))
    (hshort : ¬start <+: path ++ pfx) (hlong : ¬path ++ pfx <+: start) :
    Lists (fun k ↦ (∃ v, Contains (.inner pfx layout) k v) ∧ start <+: k) [] := by
  refine lists_nil ?_
  rintro k ⟨⟨v, hv⟩, hk⟩
  rcases List.prefix_or_prefix_of_prefix hk (hn.prefix_of_contains_inner hv) with h | h
  · exact hshort h
  · exact hlong h

/-- A prefix that goes on with a byte is one of keys below the child for that byte only. -/
theorem Valid.contains_inner_iff_of_byte (hn : Valid path (.inner pfx layout))
    (hstart : path ++ pfx ++ [b] <+: start) (hk : start <+: k) :
    Contains (.inner pfx layout) k v ↔ SlotContains (layout.view b) k v := by
  rw [contains_inner_iff]
  constructor
  · rintro ⟨c, child, hchild, hentry⟩
    obtain ⟨rest, rfl⟩ := hstart.trans hk
    have hbyte := (hn.route hchild hentry).2
    rw [List.append_assoc, ← Nat.add_zero (path ++ pfx).length, byteAt_append] at hbyte
    obtain rfl : b = c := hbyte
    exact ⟨child, hchild, hentry⟩
  · rintro ⟨child, hchild, hentry⟩
    exact ⟨b, child, hchild, hentry⟩

/-- Assumes: a prefix that goes on below an inner node, and what the descent returns at the child
for its next byte. -/
theorem Valid.lists_prefixFrom_below (hn : Valid path (.inner pfx layout)) (hwf : layout.Wf)
    (hlong : path ++ pfx <+: start) (hmore : path.length + pfx.length < start.length)
    (hbelow : ∀ b child, path ++ pfx ++ [b] <+: start → layout.view b = some child →
      ∃ keys, prefixFrom start child (path.length + pfx.length + 1) = .ok keys ∧
        Lists (fun k ↦ (∃ v, Contains child k v) ∧ start <+: k) keys) :
    ∃ keys, prefixFrom start (.inner pfx layout) path.length = .ok keys ∧
      Lists (fun k ↦ (∃ v, Contains (.inner pfx layout) k v) ∧ start <+: k) keys := by
  have hmatch : (start.drop path.length).take pfx.length = pfx := by
    obtain ⟨rest, rfl⟩ := hlong
    simp
  have hnext := append_byteAt_isPrefix hlong (by rw [List.length_append]; exact hmore)
  rw [List.length_append] at hnext
  rw [prefixFrom_inner hmore hmatch (Layout.findChild_eq hwf _)]
  generalize byteAt start (path.length + pfx.length) = b at hnext
  have hsame : ∀ k, (∃ v, SlotContains (layout.view b) k v) ∧ start <+: k ↔
      (∃ v, Contains (.inner pfx layout) k v) ∧ start <+: k := fun k ↦
    and_congr_left fun hk ↦ exists_congr fun v ↦ (hn.contains_inner_iff_of_byte hnext hk).symm
  cases hchild : layout.view b with
  | none =>
    rw [hchild] at hsame
    refine ⟨[], rfl, (lists_nil ?_).congr hsame⟩
    rintro k ⟨⟨v, hv⟩, -⟩
    exact slotContains_none hv
  | some child =>
    obtain ⟨keys, hkeys, hlists⟩ := hbelow b child hnext hchild
    rw [hchild] at hsame
    simp only [slotContains_some] at hsame
    exact ⟨keys, hkeys, hlists.congr hsame⟩

/-- The descent of `PrefixKeys` through a valid tree with its tables in order lists the keys below
it that have the prefix. -/
theorem Valid.lists_prefixFrom (hn : Valid path n) (hordered : Throughout Layout.Ordered n)
    (hpath : path <+: start) :
    ∃ keys, prefixFrom start n path.length = .ok keys ∧
      Lists (fun k ↦ (∃ v, Contains n k v) ∧ start <+: k) keys := by
  induction hn with
  | @leaf path key value _ _ => exact lists_prefixFrom_leaf start key value path.length
  | @inner path pfx layout hwf hdistinct hplain hterminal hvalid ih =>
    have hnode : Valid path (.inner pfx layout) :=
      Valid.inner hwf hdistinct hplain hterminal hvalid
    by_cases hends : start.length < path.length + pfx.length
    · -- the prefix ends inside the compressed path
      have hlong : ¬path ++ pfx <+: start := fun h ↦
        absurd hends (not_lt.mpr (List.length_append ▸ h.length_le))
      have hshort : start <+: path ++ pfx ↔
          pfx.take (start.length - path.length) = start.drop path.length := by
        obtain ⟨rest, rfl⟩ := hpath
        rw [List.prefix_append_right_inj, List.prefix_iff_eq_take, List.drop_left,
          List.length_append, Nat.add_sub_cancel_left, eq_comm]
      rw [prefixFrom, if_pos hends]
      by_cases hmatch : pfx.take (start.length - path.length) = start.drop path.length
      · rw [if_pos hmatch]
        exact hnode.lists_of_short hordered (hshort.mpr hmatch)
      · rw [if_neg hmatch]
        exact ⟨[], rfl, hnode.lists_of_apart (fun h ↦ hmatch (hshort.mp h)) hlong⟩
    have hlength : (path ++ pfx).length ≤ start.length := by
      rw [List.length_append]
      exact not_lt.mp hends
    have hlong : path ++ pfx <+: start ↔ (start.drop path.length).take pfx.length = pfx := by
      rw [← matchesPrefix_iff hpath, matchesPrefix, decide_eq_true_eq]
      exact and_iff_right (not_lt.mp hends)
    by_cases hmatch : path ++ pfx <+: start
    · by_cases hend : start.length ≤ path.length + pfx.length
      · -- the prefix ends at the node
        rw [prefixFrom, if_neg hends, if_pos (hlong.mp hmatch), if_pos hend]
        refine hnode.lists_of_short hordered ?_
        rw [hmatch.eq_of_length_le (by rw [List.length_append]; exact hend)]
      · refine hnode.lists_prefixFrom_below hwf hmatch (not_le.mp hend) ?_
        intro b child hnext hchild
        by_cases hzero : b = 0
        · subst hzero
          obtain ⟨value, rfl⟩ := hterminal child hchild
          exact lists_prefixFrom_leaf _ _ _ _
        · have hbelow := ih b child hzero hchild
            (hordered.of_view Layout.kept_ordered hchild) hnext
          rwa [List.length_append, List.length_append, List.length_singleton] at hbelow
    · -- the prefix leaves the compressed path
      rw [prefixFrom, if_neg hends, if_neg fun h ↦ hmatch (hlong.mpr h)]
      refine ⟨[], rfl, hnode.lists_of_apart (fun h ↦ hmatch ?_) hmatch⟩
      rw [h.eq_of_length_le hlength]

/-! ### The store -/

variable {s : ARTStore} {m : GoMap GoString}

/-- `Get` finds exactly the entries of the map, for every key. -/
theorem Represents.get_eq_true_iff (hs : Represents s m) :
    s.get k = .ok (v, true) ↔ m.lookup k = some v := by
  rw [hs.get_eq k]
  exact commaOk_eq_true_iff

theorem Represents.lists_prefixKeys (hs : Represents s m)
    (hordered : ThroughoutStore Layout.Ordered s) (start : GoString) :
    ∃ keys, s.prefixKeys start = .ok keys ∧
      Lists (fun k ↦ (∃ v, m.lookup k = some v) ∧ start <+: k) keys := by
  simp only [← hs.agrees, ARTStore.prefixKeys]
  cases hroot : s.root with
  | none =>
    refine ⟨[], rfl, lists_nil ?_⟩
    rintro k ⟨⟨v, hv⟩, -⟩
    exact slotContains_none hv
  | some root =>
    simp only [slotContains_some]
    exact (hs.valid root hroot).lists_prefixFrom (hordered root hroot) List.nil_prefix

theorem Represents.lists_rangeKeys (hs : Represents s m)
    (hordered : ThroughoutStore Layout.Ordered s) (start stop : GoString) :
    ∃ keys, s.rangeKeys start stop = .ok keys ∧
      Lists (fun k ↦ (∃ v, m.lookup k = some v) ∧ start ≤ k ∧ k ≤ stop) keys := by
  simp only [← hs.agrees, ARTStore.rangeKeys]
  cases hroot : s.root with
  | none =>
    refine ⟨[], rfl, lists_nil ?_⟩
    rintro k ⟨⟨v, hv⟩, -⟩
    exact slotContains_none hv
  | some root =>
    simp only [slotContains_some]
    obtain ⟨keys, hkeys⟩ := (hs.valid root hroot).exists_traversed (hordered root hroot)
    have hlists : Lists (fun k ↦ (∃ v, Contains root k v) ∧ start ≤ k ∧ k ≤ stop)
        (keys.filter fun k ↦ start ≤ k ∧ k ≤ stop) :=
      hkeys.lists.filter fun k ↦ decide_eq_true_iff
    refine ⟨_, ?_, hlists⟩
    rw [Option.elim_some, hkeys.collectRange_eq, List.nil_append]
    show Except.ok _ = _
    rw [(hlists.increasing.imp le_of_lt).insertionSort_eq]

/-- Ordered queries on the adaptive radix tree are exact, and agree with those on the skip list and
the B+ tree. Assumes: no key of a call contains byte 0, and at every inner node with the prefix `p`
that a `Set` visits at a depth `d`, `d + len(p)` is at most the length of the key. After such a
history `PrefixKeys` returns the keys that `Get` finds and that start with the prefix, and
`RangeKeys` those that `Get` finds between the two ends, each of them once and in strictly
increasing order. The other two stores return the same lists after the same calls. -/
theorem art_queries_exact (ops : List StringOp) (hkeys : ∀ op ∈ ops, (0 : UInt8) ∉ op.key)
    (hroom : ∀ before key value after s root, ops = before ++ .set key value :: after →
      ARTStore.new.run before = .ok s → s.root = some root → Roomy key root 0)
    (coins : ℕ → Coins) :
    ∃ s skipList tree, ARTStore.new.run ops = .ok s ∧
      SkipListStore.new.run coins ops = .ok skipList ∧ BPTreeStore.new.run ops = .ok tree ∧
      (∀ start, ∃ keys, s.prefixKeys start = .ok keys ∧ skipList.prefixKeys start = .ok keys ∧
        tree.prefixKeys start = .ok keys ∧
        Lists (fun k ↦ (∃ v, s.get k = .ok (v, true)) ∧ start <+: k) keys) ∧
      ∀ start stop, ∃ keys, s.rangeKeys start stop = .ok keys ∧
        skipList.rangeKeys start stop = .ok keys ∧ tree.rangeKeys start stop = .ok keys ∧
        Lists (fun k ↦ (∃ v, s.get k = .ok (v, true)) ∧ start ≤ k ∧ k ≤ stop) keys := by
  obtain ⟨s, hrun, hs⟩ := represents_run ops hkeys hroom
  obtain ⟨skipList, hskip, hskipList⟩ := SkipListChains.represents_new.run coins ops
  obtain ⟨tree, htree, hrows⟩ := BPTreeRows.represents_run ops
  have hordered := (throughoutStore_new Layout.Ordered).run Layout.kept_ordered hrun
  refine ⟨s, skipList, tree, hrun, hskip, htree, fun start ↦ ?_, fun start stop ↦ ?_⟩
  · obtain ⟨keys, hkeys, hlists⟩ := hs.lists_prefixKeys hordered start
    obtain ⟨keys₁, hkeys₁, hlists₁⟩ := hskipList.lists_prefixKeys start
    obtain ⟨keys₂, hkeys₂, hlists₂⟩ := hrows.lists_prefixKeys start
    rw [hlists₁.unique hlists] at hkeys₁
    rw [hlists₂.unique hlists] at hkeys₂
    simp only [hs.get_eq_true_iff]
    exact ⟨keys, hkeys, hkeys₁, hkeys₂, hlists⟩
  · obtain ⟨keys, hkeys, hlists⟩ := hs.lists_rangeKeys hordered start stop
    obtain ⟨keys₁, hkeys₁, hlists₁⟩ := hskipList.lists_rangeKeys start stop
    obtain ⟨keys₂, hkeys₂, hlists₂⟩ := hrows.lists_rangeKeys start stop
    rw [hlists₁.unique hlists] at hkeys₁
    rw [hlists₂.unique hlists] at hkeys₂
    simp only [hs.get_eq_true_iff]
    exact ⟨keys, hkeys, hkeys₁, hkeys₂, hlists⟩

/-- After `Set "abc"`, `Set "abd"`, `Set "xyz"`, `Del "abc"` the radix tree and the B+ tree list the
same keys for every prefix. -/
theorem art_queries_exact_abc :
    ∃ s tree, ARTStore.new.run [.set [97, 98, 99] [49], .set [97, 98, 100] [50],
        .set [120, 121, 122] [51], .del [97, 98, 99]] = .ok s ∧
      BPTreeStore.new.run [.set [97, 98, 99] [49], .set [97, 98, 100] [50],
        .set [120, 121, 122] [51], .del [97, 98, 99]] = .ok tree ∧
      ∀ start, s.prefixKeys start = tree.prefixKeys start := by
  obtain ⟨s, skipList, tree, hrun, -, htree, hqueries, -⟩ :=
    art_queries_exact [.set [97, 98, 99] [49], .set [97, 98, 100] [50], .set [120, 121, 122] [51],
      .del [97, 98, 99]] (by decide) roomy_abc fun _ _ ↦ false
  refine ⟨s, tree, hrun, htree, fun start ↦ ?_⟩
  obtain ⟨keys, hkeys, -, hkeys₂, -⟩ := hqueries start
  rw [hkeys, hkeys₂]

end ArtNode

end FluxCache.Store
