import FluxCache.Store.ARTPlacement

/-!
# The adaptive radix tree store refines a finite map

The tree is used with keys that do not contain byte 0, so that byte 0 can stand for the end of a
key. `Valid path n` is the invariant of a node at a path: its tables are proper and hold no byte
twice, a child for byte 0 is the leaf of the path itself, and every other child is valid at the path
extended by the prefix and its byte. A node is valid exactly if it is placed with keys without byte
0, at a path without byte 0 (`valid_iff`). No such key continues another one with a byte 0, so `Set`
writes exactly one entry and `Del` removes exactly one (`Represents.set`, `Represents.del`).

`Set` is covered on keys that are no shorter than the compressed paths they meet (`Roomy`).
-/

set_option autoImplicit false
set_option relaxedAutoImplicit false

namespace FluxCache.Store.ArtNode

open FluxCache.Foundation

variable {n child : ArtNode} {path pfx : List UInt8} {layout : Layout ArtNode}
  {key k v value : GoString} {b : UInt8} {op : StringOp}

/-! ### Valid trees -/

/-- A node that is in order at a path. -/
inductive Valid : List UInt8 → ArtNode → Prop
  | leaf {path : List UInt8} {key value : GoString} (hpath : path <+: key)
      (hkey : (0 : UInt8) ∉ key) : Valid path (leaf key value)
  | inner {path pfx : List UInt8} {layout : Layout ArtNode} (hwf : layout.Wf)
      (hdistinct : layout.Distinct) (hpath : (0 : UInt8) ∉ path ++ pfx)
      (hterminal : ∀ child, layout.view 0 = some child → ∃ value, child = leaf (path ++ pfx) value)
      (hchild : ∀ b child, b ≠ 0 → layout.view b = some child →
        Valid (path ++ pfx ++ [b]) child) : Valid path (inner pfx layout)

/-- A child that may stand at a byte below a path. -/
def ValidChild (path : List UInt8) (b : UInt8) (child : ArtNode) : Prop :=
  if b = 0 then ∃ value, child = leaf path value else Valid (path ++ [b]) child

/-- An inner node whose children may all stand where they are. -/
theorem valid_inner (hwf : layout.Wf) (hdistinct : layout.Distinct)
    (hplain : (0 : UInt8) ∉ path ++ pfx)
    (hchildren : ∀ b child, layout.view b = some child → ValidChild (path ++ pfx) b child) :
    Valid path (inner pfx layout) := by
  refine Valid.inner hwf hdistinct hplain (fun child hchild ↦ ?_) fun b child hb hchild ↦ ?_
  · have hterminal := hchildren 0 child hchild
    rwa [ValidChild, if_pos rfl] at hterminal
  · have hvalid := hchildren b child hchild
    rwa [ValidChild, if_neg hb] at hvalid

/-- The keys without byte 0. -/
def plainKeys : Set GoString := {key | (0 : UInt8) ∉ key}

theorem separated_plainKeys : Separated plainKeys := by
  rintro x - y hy hstart
  exact hy (hstart.subset (List.mem_append_right x (List.mem_singleton_self 0)))

theorem prefix_of_plain (hpath : (0 : UInt8) ∉ path) (h : path <+: key ++ [0]) : path <+: key := by
  rcases List.prefix_concat_iff.mp h with rfl | hstart
  · exact absurd (List.mem_append_right key (List.mem_singleton_self 0)) hpath
  · exact hstart

theorem Valid.plain (hn : Valid path n) : (0 : UInt8) ∉ path := by
  cases hn with
  | leaf hpath hkey => exact fun h ↦ hkey (hpath.subset h)
  | inner _ _ hplain _ _ => exact fun h ↦ hplain (List.mem_append_left _ h)

theorem Valid.placed (hn : Valid path n) : Placed plainKeys path n := by
  induction hn with
  | leaf hpath hkey => exact Placed.leaf hkey (hpath.trans (List.prefix_append _ _))
  | @inner path pfx layout hwf hdistinct hplain hterminal _ ih =>
    refine Placed.inner hwf hdistinct ⟨path ++ pfx, hplain, List.prefix_rfl⟩ fun b child hchild ↦ ?_
    by_cases hb : b = 0
    · subst hb
      obtain ⟨value, rfl⟩ := hterminal child hchild
      exact Placed.leaf hplain List.prefix_rfl
    · exact ih b child hb hchild

theorem Placed.valid (hn : Placed plainKeys path n) (hpath : (0 : UInt8) ∉ path) :
    Valid path n := by
  induction hn with
  | leaf hkey hstart => exact Valid.leaf (prefix_of_plain hpath hstart) hkey
  | @inner path pfx layout hwf hdistinct hstart hplaced ih =>
    obtain ⟨key, hkey, hstart⟩ := hstart
    have hplain : (0 : UInt8) ∉ path ++ pfx := fun h ↦ hkey (hstart.subset h)
    refine valid_inner hwf hdistinct hplain fun b child hchild ↦ ?_
    by_cases hb : b = 0
    · subst hb
      rw [ValidChild, if_pos rfl]
      exact (hplaced 0 child hchild).eq_leaf_of_terminal separated_plainKeys hplain
    · rw [ValidChild, if_neg hb]
      refine ih b child hchild fun h ↦ ?_
      rcases List.mem_append.mp h with hmem | hmem
      · exact hplain hmem
      · exact hb (List.mem_singleton.mp hmem).symm

/-- The nodes in order are those that are placed with keys without byte 0. -/
theorem valid_iff : Valid path n ↔ Placed plainKeys path n ∧ (0 : UInt8) ∉ path :=
  ⟨fun hn ↦ ⟨hn.placed, hn.plain⟩, fun hn ↦ hn.1.valid hn.2⟩

/-- The key of an entry leads to the child that holds it. -/
theorem Valid.route (hn : Valid path (.inner pfx layout)) (hchild : layout.view b = some child)
    (hentry : Contains child k v) :
    path ++ pfx <+: k ∧ byteAt k (path ++ pfx).length = b := by
  have hroute := (valid_iff.mp hn).1.route hchild hentry
  exact ⟨prefix_of_concat hroute, byteAt_of_concat hroute⟩

/-! ### The store -/

/-- The tree of the store is valid and holds exactly a finite map. -/
structure Represents (s : ARTStore) (m : GoMap GoString) : Prop where
  valid : ∀ root, s.root = some root → Valid [] root
  agrees : ∀ k v, SlotContains s.root k v ↔ m.lookup k = some v

theorem Represents.placed {s : ARTStore} {m : GoMap GoString} (hs : Represents s m) :
    PlacedStore plainKeys s :=
  fun root hroot ↦ (valid_iff.mp (hs.valid root hroot)).1

/-- Assumes: a slot for the root after a call that holds what the call leaves. -/
theorem Represents.update {s s' : ARTStore} {m : GoMap GoString} (hs : Represents s m)
    (hplaced : PlacedStore plainKeys s') (hupdated : SlotUpdated s.root op s'.root) :
    Represents s' (op.apply m) := by
  refine ⟨fun root hroot ↦ valid_iff.mpr ⟨hplaced root hroot, List.not_mem_nil⟩, fun k v ↦ ?_⟩
  rw [hupdated k v]
  by_cases hk : k = op.key
  · rw [if_pos hk, hk, op.lookup_apply_key]
  · rw [if_neg hk, op.lookup_apply_of_ne m (Ne.symm hk), hs.agrees k v]

/-- `Set` returns and keeps the relation. -/
theorem Represents.set {s : ARTStore} {m : GoMap GoString} (hs : Represents s m)
    (hkey : (0 : UInt8) ∉ key) (hroom : ∀ root, s.root = some root → Roomy key root 0)
    (value : GoString) :
    ∃ s', s.set key value = .ok s' ∧ Represents s' (StringOp.apply m (.set key value)) := by
  obtain ⟨s', hset, hplaced, hupdated⟩ := hs.placed.set separated_plainKeys hkey hroom value
  exact ⟨s', hset, hs.update hplaced hupdated⟩

/-- `Del` returns and keeps the relation. -/
theorem Represents.del {s : ARTStore} {m : GoMap GoString} (hs : Represents s m)
    (key : GoString) :
    ∃ s', s.del key = .ok s' ∧ Represents s' (StringOp.apply m (.del key)) := by
  obtain ⟨s', hdel, hplaced, hupdated⟩ := hs.placed.del key
  exact ⟨s', hdel, hs.update hplaced hupdated⟩

/-- `Get` returns what the map holds. -/
theorem Represents.get_eq {s : ARTStore} {m : GoMap GoString} (hs : Represents s m)
    (key : GoString) : s.get key = .ok (commaOk (m.lookup key)) := by
  cases hlookup : m.lookup key with
  | some v => exact hs.placed.get_of_contains ((hs.agrees key v).mpr hlookup)
  | none =>
    refine hs.placed.get_of_absent fun v hentry ↦ ?_
    rw [hs.agrees key v, hlookup] at hentry
    exact absurd hentry nofun

theorem represents_new : Represents ARTStore.new ∅ := by
  refine ⟨fun root h ↦ absurd h (by simp [ARTStore.new]), fun k v ↦ ?_⟩
  show SlotContains none k v ↔ _
  simp [slotContains_none]

theorem run_append_singleton (s : ARTStore) (ops : List StringOp) (op : StringOp) :
    s.run (ops ++ [op]) = s.run ops >>= fun s ↦ s.step op := by
  induction ops generalizing s with
  | nil =>
    simp only [List.nil_append, ARTStore.run, bind, Except.bind]
    cases s.step op with
    | ok s => rfl
    | error fault => rfl
  | cons first ops ih =>
    simp only [List.cons_append, ARTStore.run, bind, Except.bind]
    cases s.step first with
    | ok s => exact ih s
    | error fault => rfl

/-- Assumes: no key of a call contains byte 0, and no `Set` visits an inner node whose compressed
path is longer than the rest of its key. Every history of such calls returns and leaves the plain
map of the history. -/
theorem represents_run (ops : List StringOp) (hkeys : ∀ op ∈ ops, (0 : UInt8) ∉ op.key)
    (hroom : ∀ before key value after s root, ops = before ++ .set key value :: after →
      ARTStore.new.run before = .ok s → s.root = some root → Roomy key root 0) :
    ∃ s, ARTStore.new.run ops = .ok s ∧ Represents s (plainMap ops) := by
  induction ops using List.reverseRecOn with
  | nil => exact ⟨ARTStore.new, rfl, represents_new⟩
  | append_singleton ops op ih =>
    obtain ⟨s, hrun, hs⟩ := ih (fun other h ↦ hkeys other (List.mem_append_left _ h))
      fun before key value after s root hops ↦
        hroom before key value (after ++ [op]) s root (by rw [hops]; simp)
    rw [run_append_singleton, hrun, plainMap_append_singleton]
    have hkey := hkeys op (by simp)
    cases op with
    | set key value => exact hs.set hkey (fun root ↦ hroom ops key value [] s root rfl hrun) value
    | del key => exact hs.del key

/-- The adaptive radix tree store refines the plain finite map on keys without byte 0. Assumes: no
key of a call contains byte 0, and at every inner node with the prefix `p` that a `Set` visits at a
depth `d`, `d + len(p)` is at most the length of the key. Every history of such calls returns, and
`Get` agrees with the plain map of the history for every key without byte 0. -/
theorem art_refines_map (ops : List StringOp) (hkeys : ∀ op ∈ ops, (0 : UInt8) ∉ op.key)
    (hroom : ∀ before key value after s root, ops = before ++ .set key value :: after →
      ARTStore.new.run before = .ok s → s.root = some root → Roomy key root 0) :
    ∃ s, ARTStore.new.run ops = .ok s ∧ ∀ k, (0 : UInt8) ∉ k →
      s.get k = .ok (commaOk ((plainMap ops).lookup k)) := by
  obtain ⟨s, hrun, hs⟩ := represents_run ops hkeys hroom
  exact ⟨s, hrun, fun k _ ↦ hs.get_eq k⟩

/-- The calls `Set "abc"`, `Set "abd"`, `Set "xyz"`, `Del "abc"` split a leaf and a compressed path,
and no key ends inside one. -/
theorem roomy_abc (before : List StringOp) (key value : GoString) (after : List StringOp)
    (s : ARTStore) (root : ArtNode)
    (hops : [.set [97, 98, 99] [49], .set [97, 98, 100] [50], .set [120, 121, 122] [51],
      .del [97, 98, 99]] = before ++ StringOp.set key value :: after)
    (hrun : ARTStore.new.run before = .ok s) (hroot : s.root = some root) : Roomy key root 0 := by
  rintro pfx layout d hvisit
  rcases before with _ | ⟨op₁, _ | ⟨op₂, _ | ⟨op₃, before⟩⟩⟩
  · rw [← Except.ok.inj hrun] at hroot
    exact absurd hroot (by simp [ARTStore.new])
  · obtain ⟨rfl, -⟩ := List.cons.inj hops
    rw [← Except.ok.inj hrun] at hroot
    rw [← Option.some.inj hroot] at hvisit
    cases hvisit
  · obtain ⟨hfirst, hrest⟩ := List.cons.inj hops
    obtain ⟨hsecond, hrest⟩ := List.cons.inj hrest
    obtain ⟨rfl, -⟩ := StringOp.set.inj (List.cons.inj hrest).1
    subst hfirst hsecond
    rw [← Except.ok.inj hrun] at hroot
    rw [← Option.some.inj hroot] at hvisit
    cases hvisit with
    | refl => decide
    | step hstart => exact absurd hstart (by decide)
  · have hlast := congrArg (List.drop 3) hops
    cases before with
    | nil => exact absurd (List.cons.inj hlast).1 (by simp)
    | cons op₄ before => exact absurd (List.cons.inj hlast).2 (by simp)

/-- The calls `Set "abc"`, `Set "abd"`, `Set "xyz"`, `Del "abc"`, which split a leaf and a
compressed path. -/
theorem art_refines_map_abc :
    ∃ s, ARTStore.new.run [.set [97, 98, 99] [49], .set [97, 98, 100] [50],
        .set [120, 121, 122] [51], .del [97, 98, 99]] = .ok s ∧ ∀ k, (0 : UInt8) ∉ k →
      s.get k = .ok (commaOk ((plainMap [.set [97, 98, 99] [49], .set [97, 98, 100] [50],
        .set [120, 121, 122] [51], .del [97, 98, 99]]).lookup k)) :=
  art_refines_map _ (by decide) roomy_abc

end FluxCache.Store.ArtNode
