import FluxCache.Store.ARTLayout
import Mathlib.Data.Set.Basic

/-!
# Keys and entries of the adaptive radix tree

The tree ends a key with byte 0, so the bytes on the way to the leaf of a key are the first ones of
the key with a byte 0 behind it. A path that such a key continues by a byte is a path of the key
itself, and the byte is the one that the code looks at there (`prefix_of_concat`,
`byteAt_of_concat`).

The entries of a tree are those of its leaves that can be reached (`Contains`). A call changes them
at its key only (`Updated`). A change of one child of an inner node is a change of the view of its
table at one byte, and what the node contains changes as what the child contains (`updated_inner`).
-/

set_option autoImplicit false
set_option relaxedAutoImplicit false

namespace FluxCache.Store.ArtNode

open FluxCache.Foundation

variable {n child : ArtNode} {path pfx : List UInt8} {layout layout' : Layout ArtNode}
  {key k v value : GoString} {b : UInt8} {depth : ℕ} {op : StringOp}

/-! ### Keys along a path -/

theorem byteAt_append (path rest : List UInt8) (i : ℕ) :
    byteAt (path ++ rest) (path.length + i) = byteAt rest i := by
  rw [byteAt, byteAt, List.getElem?_append_right (Nat.le_add_right _ _), Nat.add_sub_cancel_left]

theorem prefix_of_concat (h : path ++ [b] <+: key ++ [0]) : path <+: key := by
  rcases List.prefix_concat_iff.mp h with heq | hstart
  · rw [(List.append_inj' heq rfl).1]
  · exact (List.prefix_append _ _).trans hstart

/-- The byte of a key at a path that it continues. -/
theorem byteAt_of_concat (h : path ++ [b] <+: key ++ [0]) : byteAt key path.length = b := by
  rcases List.prefix_concat_iff.mp h with heq | ⟨rest, rfl⟩
  · obtain ⟨rfl, hbyte⟩ := List.append_inj' heq rfl
    rw [List.singleton_inj.mp hbyte]
    simp [byteAt]
  · rw [List.append_assoc, ← Nat.add_zero path.length, byteAt_append]
    rfl

/-- A key, with a byte 0 behind it, continues every path that it starts with by its byte there. -/
theorem append_byteAt_isPrefix_concat (hpath : path <+: key) :
    path ++ [byteAt key path.length] <+: key ++ [0] := by
  obtain ⟨rest, rfl⟩ := hpath
  have hbyte := byteAt_append path rest 0
  rw [Nat.add_zero] at hbyte
  rw [hbyte, List.append_assoc]
  refine (List.prefix_append_right_inj path).mpr ?_
  cases rest with
  | nil => exact List.prefix_rfl
  | cons b rest => exact ⟨rest ++ [0], rfl⟩

theorem append_byteAt_isPrefix (hpath : path <+: key) (hmore : path.length < key.length) :
    path ++ [byteAt key path.length] <+: key := by
  rcases List.prefix_concat_iff.mp (append_byteAt_isPrefix_concat hpath) with heq | hnext
  · rw [(List.append_inj' heq rfl).1] at hmore
    exact absurd hmore (lt_irrefl _)
  · exact hnext

theorem nextDepth_of_concat (h : path ++ [b] <+: key ++ [0]) :
    nextDepth key path.length = min (path ++ [b]).length key.length := by
  have hle := (prefix_of_concat h).length_le
  rw [nextDepth, List.length_append, List.length_singleton]
  split
  · omega
  · omega

theorem matchesPrefix_iff (hpath : path <+: key) :
    matchesPrefix key path.length pfx = true ↔ path ++ pfx <+: key := by
  obtain ⟨rest, rfl⟩ := hpath
  rw [List.prefix_append_right_inj, List.prefix_iff_eq_take, matchesPrefix, decide_eq_true_eq,
    List.drop_left, List.length_append]
  constructor
  · exact fun h ↦ h.2.symm
  · intro h
    refine ⟨?_, h.symm⟩
    have hlength := congrArg List.length h
    rw [List.length_take] at hlength
    omega

/-- The common length of two strings splits both after the same bytes. -/
theorem commonLength_spec (left right : List UInt8) :
    left.take (commonLength left right) = right.take (commonLength left right) ∧
      commonLength left right ≤ left.length ∧ commonLength left right ≤ right.length ∧
      (left[commonLength left right]? = right[commonLength left right]? →
        left = right ∧ commonLength left right = left.length) := by
  induction left generalizing right with
  | nil =>
    refine ⟨by simp [commonLength], by simp [commonLength], by simp [commonLength], fun h ↦ ?_⟩
    cases right with
    | nil => exact ⟨rfl, rfl⟩
    | cons b right => exact absurd h (by simp [commonLength])
  | cons a left ih =>
    cases right with
    | nil => simp [commonLength]
    | cons b right =>
      by_cases hab : a = b
      · obtain ⟨htake, hleft, hright, hsame⟩ := ih right
        rw [commonLength, if_pos hab]
        refine ⟨by rw [List.take_succ_cons, List.take_succ_cons, htake, hab], ?_, ?_, fun h ↦ ?_⟩
        · exact Nat.succ_le_succ hleft
        · exact Nat.succ_le_succ hright
        · rw [List.getElem?_cons_succ, List.getElem?_cons_succ] at h
          obtain ⟨hrest, hlength⟩ := hsame h
          exact ⟨by rw [hab, hrest], congrArg Nat.succ hlength⟩
      · rw [commonLength, if_neg hab]
        refine ⟨rfl, Nat.zero_le _, Nat.zero_le _, fun h ↦ ?_⟩
        exact absurd (Option.some.inj h) hab

/-- A slice continues another one exactly when the comparison loop runs to the end. -/
theorem prefix_iff_commonLength {left right : List UInt8} :
    left <+: right ↔ left.length ≤ commonLength left right := by
  obtain ⟨htake, hleft, -, hdiffer⟩ := commonLength_spec left right
  constructor
  · intro hstart
    by_contra hshort
    have hlt := not_le.mp hshort
    have hget : left[commonLength left right]? = right[commonLength left right]? := by
      rw [List.getElem?_eq_getElem hlt, List.getElem?_eq_getElem (hlt.trans_le hstart.length_le),
        hstart.getElem hlt]
    exact absurd (hdiffer hget).2 (Nat.ne_of_lt hlt)
  · intro hlong
    rw [le_antisymm hleft hlong, List.take_length] at htake
    rw [htake]
    exact List.take_prefix _ _

theorem prefix_of_commonLength (hpath : path <+: key)
    (hlong : pfx.length ≤ commonLength pfx (key.drop path.length)) : path ++ pfx <+: key := by
  obtain ⟨rest, rfl⟩ := hpath
  rw [List.drop_left] at hlong
  exact (List.prefix_append_right_inj path).mpr (prefix_iff_commonLength.mpr hlong)

/-- No key continues another one with a byte 0. -/
def Separated (K : Set GoString) : Prop :=
  ∀ x ∈ K, ∀ y ∈ K, ¬x ++ [0] <+: y

/-- Keys of which none continues the other with a byte 0 differ in a byte where they differ. -/
theorem byteAt_ne {left right : List UInt8} (hleft : ¬left ++ [0] <+: right)
    (hright : ¬right ++ [0] <+: left) (hstart : path <+: left) (hstart' : path <+: right)
    (hne : left[path.length]? ≠ right[path.length]?) :
    byteAt left path.length ≠ byteAt right path.length := by
  intro hbyte
  obtain ⟨rest, rfl⟩ := hstart
  obtain ⟨rest', rfl⟩ := hstart'
  have hat (rest : List UInt8) : byteAt (path ++ rest) path.length = byteAt rest 0 :=
    byteAt_append path rest 0
  rw [hat, hat] at hbyte
  cases rest with
  | nil =>
    cases rest' with
    | nil => exact hne rfl
    | cons b rest' =>
      obtain rfl : 0 = b := hbyte
      exact hleft ⟨rest', by simp⟩
  | cons a rest =>
    cases rest' with
    | nil =>
      obtain rfl : a = 0 := hbyte
      exact hright ⟨rest, by simp⟩
    | cons b rest' =>
      obtain rfl : a = b := hbyte
      exact hne (by simp)

/-! ### Entries -/

/-- The tree below a node holds an entry. -/
inductive Contains : ArtNode → GoString → GoString → Prop
  | leaf {k v : GoString} : Contains (leaf k v) k v
  | inner {pfx : List UInt8} {layout : Layout ArtNode} {b : UInt8} {child : ArtNode}
      {k v : GoString} (hchild : layout.view b = some child) (hentry : Contains child k v) :
      Contains (inner pfx layout) k v

theorem contains_leaf_iff : Contains (leaf key value) k v ↔ k = key ∧ v = value := by
  constructor
  · rintro ⟨⟩
    exact ⟨rfl, rfl⟩
  · rintro ⟨rfl, rfl⟩
    exact Contains.leaf

theorem contains_inner_iff :
    Contains (inner pfx layout) k v ↔
      ∃ b child, layout.view b = some child ∧ Contains child k v := by
  constructor
  · rintro ⟨⟩
    exact ⟨_, _, ‹_›, ‹_›⟩
  · rintro ⟨b, child, hchild, hentry⟩
    exact Contains.inner hchild hentry

/-- The entries after a call: the entry of its key is what the call writes, the others are those
from before. -/
def Updated (n : ArtNode) (op : StringOp) (n' : ArtNode) : Prop :=
  ∀ k v, Contains n' k v ↔ if k = op.key then op.written = some v else Contains n k v

/-- A slot of a table holds an entry. -/
def SlotContains (slot : Option ArtNode) (k v : GoString) : Prop :=
  ∃ child, slot = some child ∧ Contains child k v

/-- The entries of a slot after a call. -/
def SlotUpdated (slot : Option ArtNode) (op : StringOp) (slot' : Option ArtNode) : Prop :=
  ∀ k v, SlotContains slot' k v ↔
    if k = op.key then op.written = some v else SlotContains slot k v

/-- A new leaf next to entries that do not hold its key. -/
theorem updated_of_insert {n' : ArtNode}
    (h : ∀ k v, Contains n' k v ↔ Contains n k v ∨ Contains (leaf key value) k v)
    (hnone : ∀ v, ¬Contains n key v) : Updated n (.set key value) n' := by
  intro k v
  rw [h, contains_leaf_iff]
  show _ ↔ if k = key then some value = some v else Contains n k v
  by_cases hk : k = key
  · rw [if_pos hk, hk, or_iff_right (hnone v), Option.some.injEq, eq_comm (a := v)]
    exact and_iff_right rfl
  · rw [if_neg hk, or_iff_left fun h ↦ hk h.1]

theorem updated_leaf {oldValue : GoString} (value : GoString) :
    Updated (leaf key oldValue) (.set key value) (leaf key value) := by
  intro k v
  rw [contains_leaf_iff, contains_leaf_iff]
  show _ ↔ if k = key then some value = some v else k = key ∧ v = oldValue
  by_cases hk : k = key
  · rw [if_pos hk, Option.some.injEq, eq_comm (a := v)]
    exact and_iff_right hk
  · rw [if_neg hk]
    exact ⟨fun h ↦ absurd h.1 hk, fun h ↦ absurd h.1 hk⟩

theorem contains_inner_iff_slot :
    Contains (inner pfx layout) k v ↔ ∃ b, SlotContains (layout.view b) k v :=
  contains_inner_iff

theorem slotContains_some : SlotContains (some child) k v ↔ Contains child k v := by
  constructor
  · rintro ⟨other, hother, hentry⟩
    rwa [← Option.some.inj hother] at hentry
  · exact fun h ↦ ⟨child, rfl, h⟩

theorem slotContains_none : ¬SlotContains none k v := by
  rintro ⟨child, hchild, -⟩
  exact absurd hchild (by simp)

theorem slotUpdated_some {n' : ArtNode} : SlotUpdated (some n) op (some n') ↔ Updated n op n' := by
  refine forall_congr' fun k ↦ forall_congr' fun v ↦ ?_
  rw [slotContains_some, slotContains_some]

/-- A slot that held nothing but the key of the call is free behind its removal. -/
theorem slotUpdated_none {slot : Option ArtNode} (hold : ∀ k v, SlotContains slot k v → k = key) :
    SlotUpdated slot (.del key) none := by
  intro k v
  show _ ↔ if k = key then none = some v else SlotContains slot k v
  by_cases hk : k = key
  · rw [if_pos hk]
    exact ⟨fun h ↦ absurd h slotContains_none, fun h ↦ absurd h (by simp)⟩
  · rw [if_neg hk]
    exact ⟨fun h ↦ absurd h slotContains_none, fun h ↦ absurd (hold k v h) hk⟩

/-- The leaf of a key written over a slot that holds no other key. -/
theorem slotUpdated_leaf {slot : Option ArtNode} (value : GoString)
    (hold : ∀ k v, SlotContains slot k v → k = key) :
    SlotUpdated slot (.set key value) (some (leaf key value)) := by
  intro k v
  rw [slotContains_some, contains_leaf_iff]
  show _ ↔ if k = key then some value = some v else SlotContains slot k v
  by_cases hk : k = key
  · rw [if_pos hk, Option.some.injEq, eq_comm (a := v)]
    exact and_iff_right hk
  · rw [if_neg hk]
    constructor
    · exact fun h ↦ absurd h.1 hk
    · exact fun h ↦ absurd (hold k v h) hk

/-- The entries of a node are those of one slot and those of the others. -/
theorem contains_inner_split (b : UInt8) : Contains (inner pfx layout) k v ↔
    SlotContains (layout.view b) k v ∨ ∃ c, c ≠ b ∧ SlotContains (layout.view c) k v := by
  rw [contains_inner_iff_slot]
  constructor
  · rintro ⟨c, hc⟩
    by_cases hcb : c = b
    · rw [hcb] at hc
      exact Or.inl hc
    · exact Or.inr ⟨c, hcb, hc⟩
  · rintro (h | ⟨c, -, hc⟩)
    · exact ⟨b, h⟩
    · exact ⟨c, hc⟩

section Update

variable {slot : Option ArtNode} (hview : layout'.view = Function.update layout.view b slot)

include hview

theorem contains_update_split : Contains (inner pfx layout') k v ↔
    SlotContains slot k v ∨ ∃ c, c ≠ b ∧ SlotContains (layout.view c) k v := by
  rw [contains_inner_split b, hview, Function.update_self]
  refine or_congr_right (exists_congr fun c ↦ and_congr_right fun hcb ↦ ?_)
  rw [Function.update_of_ne hcb]

/-- Assumes: a table that has changed at one byte, where what the slot holds has changed as the call
says, and no other slot holds the key of the call. -/
theorem updated_inner (hslot : SlotUpdated (layout.view b) op slot)
    (hothers : ∀ c v, c ≠ b → ¬SlotContains (layout.view c) op.key v) :
    Updated (inner pfx layout) op (inner pfx layout') := by
  intro k v
  rw [contains_update_split hview, hslot k v]
  by_cases hk : k = op.key
  · rw [if_pos hk, if_pos hk, or_iff_left]
    rintro ⟨c, hcb, hc⟩
    rw [hk] at hc
    exact hothers c v hcb hc
  · rw [if_neg hk, if_neg hk, contains_inner_split b]

/-- Assumes: a table that has changed at one byte, where the slot holds the same entries. -/
theorem contains_update
    (hslot : ∀ k v, SlotContains slot k v ↔ SlotContains (layout.view b) k v) (k v : GoString) :
    Contains (inner pfx layout') k v ↔ Contains (inner pfx layout) k v := by
  rw [contains_update_split hview, hslot k v, contains_inner_split b]

end Update

/-- Assumes: a table that has a child more, at a byte that was free. -/
theorem contains_added (hview : layout'.view = Function.update layout.view b (some child))
    (hfree : layout.view b = none) :
    Contains (inner pfx layout') k v ↔ Contains (inner pfx layout) k v ∨ Contains child k v := by
  rw [contains_update_split hview, slotContains_some, contains_inner_split b, hfree,
    or_iff_right slotContains_none, or_comm]

end FluxCache.Store.ArtNode
