import FluxCache.Store.ARTEntries

/-!
# Where the entries of the adaptive radix tree stand

`Placed K path n` is the invariant of a node at a path: its tables are proper and hold no byte
twice, every key below it is in the set `K` and continues the path, with a byte 0 behind it, and the
path of an inner node starts a key of `K`. In a placed tree the bytes of a key lead to the only leaf
that can hold it (`Placed.route`), and `Get` finds that leaf (`Placed.getFrom_of_contains`).

A change of one child keeps a node placed (`Placed.update`). With this, `delNode` removes exactly
one entry (`Placed.delNode_spec`), whatever the key. `setFrom` writes exactly one entry
(`Placed.setFrom_spec`) if no key of `K` continues another one with a byte 0 (`Separated`): then the
end of a key never meets a byte 0 inside another one.

`Set` is covered on keys that are no shorter than the compressed paths they meet (`Roomy`).
-/

set_option autoImplicit false
set_option relaxedAutoImplicit false

namespace FluxCache.Store.ArtNode

open FluxCache.Foundation

variable {n child : ArtNode} {path pfx : List UInt8} {layout layout' : Layout ArtNode}
  {key k v value : GoString} {b : UInt8} {depth : ℕ} {op : StringOp} {K : Set GoString}

/-! ### Placed trees -/

/-- A node that stands at a path, with keys of a set. -/
inductive Placed (K : Set GoString) : List UInt8 → ArtNode → Prop
  | leaf {path : List UInt8} {key value : GoString} (hkey : key ∈ K) (hpath : path <+: key ++ [0]) :
      Placed K path (leaf key value)
  | inner {path pfx : List UInt8} {layout : Layout ArtNode} (hwf : layout.Wf)
      (hdistinct : layout.Distinct) (hpath : ∃ key ∈ K, path ++ pfx <+: key)
      (hchild : ∀ b child, layout.view b = some child → Placed K (path ++ pfx ++ [b]) child) :
      Placed K path (inner pfx layout)

/-- Every key below a node is in the set and continues the path of the node. -/
theorem Placed.prefix_of_contains (hn : Placed K path n) (hentry : Contains n k v) :
    k ∈ K ∧ path <+: k ++ [0] := by
  induction hn with
  | leaf hkey hpath =>
    rw [(contains_leaf_iff.mp hentry).1]
    exact ⟨hkey, hpath⟩
  | inner _ _ _ _ ih =>
    obtain ⟨b, child, hchild, hbelow⟩ := contains_inner_iff.mp hentry
    obtain ⟨hkey, hlong⟩ := ih b child hchild hbelow
    rw [List.append_assoc] at hlong
    exact ⟨hkey, (List.prefix_append _ _).trans hlong⟩

/-- The key of an entry leads to the child that holds it. -/
theorem Placed.route (hn : Placed K path (.inner pfx layout)) (hchild : layout.view b = some child)
    (hentry : Contains child k v) : path ++ pfx ++ [b] <+: k ++ [0] := by
  cases hn with
  | inner _ _ _ hplaced => exact ((hplaced b child hchild).prefix_of_contains hentry).2

theorem Placed.notMem_others (hn : Placed K path (.inner pfx layout))
    (hb : byteAt key (path ++ pfx).length = b) (c : UInt8) (v : GoString) (hc : c ≠ b) :
    ¬SlotContains (layout.view c) key v := by
  rintro ⟨child, hchild, hentry⟩
  exact hc ((byteAt_of_concat (hn.route hchild hentry)).symm.trans hb)

/-- Assumes: a table that has changed at one byte, where the slot is free or holds a child that
stands there. The node stays where it is. -/
theorem Placed.update {slot : Option ArtNode} (hn : Placed K path (.inner pfx layout))
    (hwf : layout'.Wf) (hdistinct : layout'.Distinct)
    (hview : layout'.view = Function.update layout.view b slot)
    (hslot : ∀ child, slot = some child → Placed K (path ++ pfx ++ [b]) child) :
    Placed K path (.inner pfx layout') := by
  cases hn with
  | inner _ _ hpath hplaced =>
    refine Placed.inner hwf hdistinct hpath fun c child hchild ↦ ?_
    rw [hview, Function.update_apply] at hchild
    by_cases hc : c = b
    · rw [if_pos hc] at hchild
      rw [hc]
      exact hslot child hchild
    · rw [if_neg hc] at hchild
      exact hplaced c child hchild

/-! ### Get -/

/-- The search for a key that is not there finds nothing, from any depth. -/
theorem Placed.getFrom_of_absent (hn : Placed K path n) (hnone : ∀ v, ¬Contains n key v)
    (depth : ℕ) : getFrom key n depth = .ok ([], false) := by
  induction hn generalizing depth with
  | @leaf path leafKey value _ _ =>
    rw [getFrom, if_neg]
    rintro rfl
    exact hnone value Contains.leaf
  | @inner path pfx layout hwf _ _ _ ih =>
    by_cases hstart : matchesPrefix key depth pfx = true
    · rw [getFrom_inner hstart (Layout.findChild_eq hwf _)]
      cases hchild : layout.view (byteAt key (depth + pfx.length)) with
      | none => rfl
      | some child => exact ih _ child hchild (fun v h ↦ hnone v (Contains.inner hchild h)) _
    · rw [getFrom, if_neg hstart]

/-- The search for a key that is there finds its value. A key that has ended stays at its end, where
the byte 0 behind it leads to its leaf. -/
theorem Placed.getFrom_of_contains (hn : Placed K path n) (hentry : Contains n key v) :
    getFrom key n (min path.length key.length) = .ok (v, true) := by
  induction hn with
  | leaf _ _ =>
    obtain ⟨rfl, rfl⟩ := contains_leaf_iff.mp hentry
    rw [getFrom, if_pos rfl]
  | @inner path pfx layout hwf hdistinct hpath hplaced ih =>
    obtain ⟨b, child, hchild, hbelow⟩ := contains_inner_iff.mp hentry
    have hroute := (Placed.inner hwf hdistinct hpath hplaced).route hchild hbelow
    have hstart := prefix_of_concat hroute
    have hkey : path <+: key := (List.prefix_append _ _).trans hstart
    rw [min_eq_left hkey.length_le, getFrom_inner ((matchesPrefix_iff hkey).mpr hstart)
      (Layout.findChild_eq hwf _), ← List.length_append, byteAt_of_concat hroute, hchild,
      Option.elim_some, nextDepth_of_concat hroute]
    exact ih b child hchild hbelow

/-! ### Set -/

/-- The descent for a key from a node at a depth visits another node: it goes on to a child when the
key continues with the prefix of the node and a byte that has a child. -/
inductive Visits (key : GoString) : ArtNode → ℕ → ArtNode → ℕ → Prop
  | refl (n : ArtNode) (depth : ℕ) : Visits key n depth n depth
  | step {pfx : List UInt8} {layout : Layout ArtNode} {depth : ℕ} {b : UInt8}
      {child n : ArtNode} {depth' : ℕ} (hstart : pfx <+: key.drop depth)
      (hbyte : key[depth + pfx.length]? = some b) (hchild : layout.view b = some child)
      (hvisit : Visits key child (depth + pfx.length + 1) n depth') :
      Visits key (inner pfx layout) depth n depth'

/-- The key is no shorter than the compressed path of any inner node it visits. -/
def Roomy (key : GoString) (n : ArtNode) (depth : ℕ) : Prop :=
  ∀ pfx layout d, Visits key n depth (inner pfx layout) d → d + pfx.length ≤ key.length

/-- The leaf of a key stands below a path of the key at the next byte of the key. -/
theorem placed_leaf (hkey : key ∈ K) (hpath : path <+: key) (value : GoString) :
    Placed K (path ++ [byteAt key path.length]) (leaf key value) :=
  Placed.leaf hkey (append_byteAt_isPrefix_concat hpath)

/-- A branch with two children for different bytes. -/
theorem placed_branch {b₁ b₂ : UInt8} {child₁ child₂ : ArtNode}
    (hpath : ∃ key ∈ K, path ++ pfx <+: key) (hne : b₁ ≠ b₂)
    (hchild₁ : Placed K (path ++ pfx ++ [b₁]) child₁)
    (hchild₂ : Placed K (path ++ pfx ++ [b₂]) child₂) :
    ∃ n', branch pfx b₁ child₁ b₂ child₂ = .ok n' ∧ Placed K path n' ∧
      ∀ k v, Contains n' k v ↔ Contains child₁ k v ∨ Contains child₂ k v := by
  obtain ⟨hwf, hdistinct, hempty⟩ := Layout.wf_empty (α := ArtNode)
  have hnode : Placed K path (.inner pfx (.node4 [] [])) := by
    refine Placed.inner hwf hdistinct hpath fun b child h ↦ ?_
    rw [hempty] at h
    exact absurd h (by simp)
  obtain ⟨layout₁, hadd₁, hadded₁⟩ := Layout.addChild_spec hwf b₁ child₁
  have hfree₁ : (Layout.node4 [] [] : Layout ArtNode).view b₁ = none := by
    rw [hempty]
  have hview₁ := hadded₁.view hdistinct hfree₁
  have hdistinct₁ := hadded₁.distinct hdistinct hfree₁
  have hnode₁ : Placed K path (.inner pfx layout₁) := by
    refine hnode.update hadded₁.wf hdistinct₁ hview₁ fun child h ↦ ?_
    rw [← Option.some.inj h]
    exact hchild₁
  obtain ⟨layout₂, hadd₂, hadded₂⟩ := Layout.addChild_spec hadded₁.wf b₂ child₂
  have hfree₂ : layout₁.view b₂ = none := by
    rw [hview₁, Function.update_of_ne hne.symm, hempty]
  have hview₂ := hadded₂.view hdistinct₁ hfree₂
  refine ⟨.inner pfx layout₂, ?_, ?_, fun k v ↦ ?_⟩
  · simp only [branch, hadd₁, hadd₂, bind, Except.bind]
    rfl
  · refine hnode₁.update hadded₂.wf (hadded₂.distinct hdistinct₁ hfree₂) hview₂ fun child h ↦ ?_
    rw [← Option.some.inj h]
    exact hchild₂
  · have hnone : ¬Contains (.inner pfx (.node4 [] [])) k v := by
      rw [contains_inner_iff_slot, hempty]
      rintro ⟨b, hb⟩
      exact slotContains_none hb
    rw [contains_added hview₂ hfree₂, contains_added hview₁ hfree₁, or_iff_right hnone]

/-- The split of a leaf. -/
theorem splitLeaf_spec {oldKey oldValue : GoString} (hsep : Separated K) (holdKey : oldKey ∈ K)
    (hold : path <+: oldKey) (hkey : key ∈ K) (hpath : path <+: key) (hne : oldKey ≠ key)
    (value : GoString) :
    ∃ n', splitLeaf oldKey oldValue path.length key value = .ok n' ∧ Placed K path n' ∧
      Updated (leaf oldKey oldValue) (.set key value) n' := by
  have hseparate := hsep oldKey holdKey key hkey
  have hseparate' := hsep key hkey oldKey holdKey
  obtain ⟨oldRest, rfl⟩ := hold
  obtain ⟨rest, rfl⟩ := hpath
  obtain ⟨htake, hleft, hright, hdiffer⟩ := commonLength_spec oldRest rest
  have hcommon : lcp (path ++ oldRest) (path ++ rest) path.length = commonLength oldRest rest := by
    rw [lcp, List.drop_left, List.drop_left]
  have hold' : path ++ oldRest.take (commonLength oldRest rest) <+: path ++ oldRest :=
    (List.prefix_append_right_inj path).mpr (List.take_prefix _ _)
  have hnew' : path ++ oldRest.take (commonLength oldRest rest) <+: path ++ rest := by
    rw [htake]
    exact (List.prefix_append_right_inj path).mpr (List.take_prefix _ _)
  have hlength : (path ++ oldRest.take (commonLength oldRest rest)).length =
      path.length + commonLength oldRest rest := by
    rw [List.length_append, List.length_take, min_eq_left hleft]
  have hbytes := byteAt_ne hseparate hseparate' hold' hnew' fun h ↦ hne (by
    rw [hlength, List.getElem?_append_right (Nat.le_add_right _ _),
      List.getElem?_append_right (Nat.le_add_right _ _), Nat.add_sub_cancel_left] at h
    rw [(hdiffer h).1])
  have hchild₁ := placed_leaf holdKey hold' oldValue
  have hchild₂ := placed_leaf hkey hnew' value
  rw [hlength] at hchild₁ hchild₂ hbytes
  obtain ⟨n', hbranch, hplaced, hcontains⟩ :=
    placed_branch ⟨_, hkey, hnew'⟩ hbytes hchild₁ hchild₂
  refine ⟨n', ?_, hplaced, updated_of_insert hcontains fun v h ↦ ?_⟩
  · rw [splitLeaf, hcommon, List.drop_left]
    exact hbranch
  · exact hne (contains_leaf_iff.mp h).1.symm

/-- The split of a compressed path. -/
theorem Placed.splitPrefixAt_spec (hn : Placed K path (.inner pfx layout)) (hkey : key ∈ K)
    (hpath : path <+: key) (hroom : path.length + pfx.length ≤ key.length)
    (hmismatch : commonLength pfx (key.drop path.length) < pfx.length) (value : GoString) :
    ∃ n', splitPrefixAt pfx layout path.length (commonLength pfx (key.drop path.length)) key value =
        .ok n' ∧ Placed K path n' ∧ Updated (.inner pfx layout) (.set key value) n' := by
  obtain ⟨rest, rfl⟩ := hpath
  rw [List.drop_left] at hmismatch ⊢
  rw [List.length_append, Nat.add_le_add_iff_left] at hroom
  obtain ⟨htake, hleft, hright, hdiffer⟩ := commonLength_spec pfx rest
  have hnone : ∀ v, ¬Contains (.inner pfx layout) (path ++ rest) v := by
    intro v h
    obtain ⟨b, child, hb, hentry⟩ := contains_inner_iff.mp h
    have hstart := (List.prefix_append_right_inj path).mp (prefix_of_concat (hn.route hb hentry))
    exact absurd (prefix_iff_commonLength.mp hstart) (not_le.mpr hmismatch)
  generalize commonLength pfx rest = mismatch at *
  have hcut : path ++ pfx.take mismatch ++ [pfx[mismatch]] ++ pfx.drop (mismatch + 1) =
      path ++ pfx := by
    rw [List.append_assoc, List.singleton_append, List.getElem_cons_drop, List.append_assoc,
      List.take_append_drop]
  have hnew : path ++ pfx.take mismatch <+: path ++ rest := by
    rw [htake]
    exact (List.prefix_append_right_inj path).mpr (List.take_prefix _ _)
  have hlength : (path ++ pfx.take mismatch).length = path.length + mismatch := by
    rw [List.length_append, List.length_take, min_eq_left hleft]
  have hbytes : pfx[mismatch] ≠ byteAt (path ++ rest) (path.length + mismatch) := by
    have hlt : mismatch < rest.length := hmismatch.trans_le hroom
    rw [byteAt_append, byteAt, List.getElem?_eq_getElem hlt, Option.getD_some]
    intro hbyte
    have hget : pfx[mismatch]? = rest[mismatch]? := by
      rw [List.getElem?_eq_getElem hmismatch, List.getElem?_eq_getElem hlt, hbyte]
    exact absurd (hdiffer hget).2 (Nat.ne_of_lt hmismatch)
  have hlower : Placed K (path ++ pfx.take mismatch ++ [pfx[mismatch]])
      (.inner (pfx.drop (mismatch + 1)) layout) := by
    cases hn with
    | inner hwf hdistinct hstart hplaced =>
      rw [← hcut] at hstart hplaced
      exact Placed.inner hwf hdistinct hstart hplaced
  have hleaf := placed_leaf hkey hnew value
  rw [hlength] at hleaf
  obtain ⟨n', hbranch, hplaced, hcontains⟩ :=
    placed_branch ⟨_, hkey, hnew⟩ hbytes hlower hleaf
  refine ⟨n', ?_, hplaced, updated_of_insert (fun k v ↦ ?_) hnone⟩
  · rw [splitPrefixAt, index_eq_ok (List.getElem?_eq_getElem hmismatch)]
    exact hbranch
  · rw [hcontains, contains_inner_iff, contains_inner_iff]

/-- `Set` of a key whose byte below an inner node is free adds a leaf there. -/
theorem Placed.addLeaf (hn : Placed K path (.inner pfx layout)) (hkey : key ∈ K)
    (hstart : path ++ pfx <+: key) (hb : byteAt key (path ++ pfx).length = b)
    (hfree : layout.view b = none) (value : GoString) :
    ∃ layout', layout.addChild b (.leaf key value) = .ok layout' ∧
      Placed K path (.inner pfx layout') ∧
      Updated (.inner pfx layout) (.set key value) (.inner pfx layout') := by
  have hothers := hn.notMem_others hb
  have hnode := hn
  cases hn with
  | inner hwf hdistinct _ _ =>
    obtain ⟨layout', hadd, hadded⟩ := Layout.addChild_spec hwf b (ArtNode.leaf key value)
    have hview := hadded.view hdistinct hfree
    refine ⟨layout', hadd, hnode.update hadded.wf (hadded.distinct hdistinct hfree) hview
      fun child h ↦ ?_, updated_inner hview (slotUpdated_leaf value fun k v h ↦ ?_)
      fun c v hc ↦ hothers c v hc⟩
    · rw [← Option.some.inj h, ← hb]
      exact placed_leaf hkey hstart value
    · rw [hfree] at h
      exact absurd h slotContains_none

/-- A call that changes the child on the way of its key in place. -/
theorem Placed.replaceChild (op : StringOp) {child' : ArtNode}
    (hn : Placed K path (.inner pfx layout)) (hb : byteAt op.key (path ++ pfx).length = b)
    (hchild : layout.view b = some child) (hplaced : Placed K (path ++ pfx ++ [b]) child')
    (hupdated : Updated child op child') :
    Placed K path (.inner pfx (layout.replaceChild b child')) ∧
      Updated (.inner pfx layout) op (.inner pfx (layout.replaceChild b child')) := by
  have hothers := hn.notMem_others hb
  have hnode := hn
  cases hn with
  | inner hwf hdistinct _ _ =>
    have hreplaced := Layout.replaceChild_spec hwf b child'
    have hview := hreplaced.view (by rw [hchild]; simp)
    refine ⟨hnode.update hreplaced.wf (hreplaced.distinct hdistinct) hview fun other h ↦ ?_,
      updated_inner hview ?_ fun c v hc ↦ hothers c v hc⟩
    · rw [← Option.some.inj h]
      exact hplaced
    · rw [hchild]
      exact slotUpdated_some.mpr hupdated

/-- The child for byte 0 of an inner node whose path is a key is the leaf of that key. -/
theorem Placed.eq_leaf_of_terminal (hsep : Separated K) (hkey : key ∈ K)
    (hchild : Placed K (key ++ [0]) child) : ∃ value, child = ArtNode.leaf key value := by
  cases hchild with
  | @leaf _ leafKey value hleafKey hpath =>
    rcases List.prefix_concat_iff.mp hpath with heq | hstart
    · exact ⟨value, by rw [(List.append_inj' heq rfl).1]⟩
    · exact absurd hstart (hsep key hkey leafKey hleafKey)
  | inner _ _ hpath _ =>
    obtain ⟨other, hother, hstart⟩ := hpath
    exact absurd ((List.prefix_append _ _).trans hstart) (hsep key hkey other hother)

/-- `Set` at an inner node whose path is the whole key. -/
theorem Placed.setTerminal_spec (hsep : Separated K) (hn : Placed K path (.inner pfx layout))
    (hkey : key ∈ K) (hend : path ++ pfx = key) (value : GoString) :
    ∃ n', setTerminal pfx layout key value = .ok n' ∧ Placed K path n' ∧
      Updated (.inner pfx layout) (.set key value) n' := by
  have hbyte : byteAt key (path ++ pfx).length = 0 := by
    rw [hend]
    simp [byteAt]
  have hnode := hn
  cases hn with
  | inner hwf _ _ hplaced =>
    have hfind := Layout.findChild_eq hwf 0
    cases hzero : layout.view 0 with
    | none =>
      obtain ⟨layout', hadd, hplaced, hupdated⟩ :=
        hnode.addLeaf hkey (by rw [hend]) hbyte hzero value
      refine ⟨.inner pfx layout', ?_, hplaced, hupdated⟩
      rw [hzero] at hfind
      simp only [setTerminal, hfind, hadd, bind, Except.bind]
      rfl
    | some child =>
      have hterminal := hplaced 0 child hzero
      rw [hend] at hterminal
      obtain ⟨oldValue, rfl⟩ := hterminal.eq_leaf_of_terminal hsep hkey
      rw [hzero] at hfind
      have hleaf : Placed K (path ++ pfx ++ [0]) (.leaf key value) := by
        rw [hend]
        exact Placed.leaf hkey List.prefix_rfl
      obtain ⟨hplaced, hupdated⟩ :=
        hnode.replaceChild (.set key value) hbyte hzero hleaf (updated_leaf value)
      refine ⟨_, ?_, hplaced, hupdated⟩
      simp only [setTerminal, hfind, bind, Except.bind]
      rfl

/-- `Set` on a placed tree writes the entry, for a key that is no shorter than the compressed paths
it meets. -/
theorem Placed.setFrom_spec {steps : ℕ} (hsep : Separated K) (hn : Placed K path n)
    (hkey : key ∈ K) (hpath : path <+: key) (hsteps : key.length < path.length + steps)
    (hroom : Roomy key n path.length) (value : GoString) :
    ∃ n', setFrom key value steps n path.length = .ok n' ∧ Placed K path n' ∧
      Updated n (.set key value) n' := by
  induction steps generalizing path n with
  | zero => exact absurd hpath.length_le (by omega)
  | succ steps ih =>
    cases n with
    | leaf oldKey oldValue =>
      rw [setFrom]
      cases hn with
      | leaf holdKey holdPath =>
        by_cases hsame : oldKey = key
        · rw [if_pos hsame]
          subst hsame
          exact ⟨_, rfl, Placed.leaf holdKey holdPath, updated_leaf value⟩
        · rw [if_neg hsame]
          rcases List.prefix_concat_iff.mp holdPath with rfl | hold
          · exact absurd hpath (hsep oldKey holdKey key hkey)
          · exact splitLeaf_spec hsep holdKey hold hkey hpath hsame value
    | inner pfx layout =>
      have hlong : path.length + pfx.length ≤ key.length :=
        hroom pfx layout path.length (Visits.refl _ _)
      rw [setFrom, if_neg (not_lt.mpr hlong)]
      by_cases hmismatch : commonLength pfx (key.drop path.length) < pfx.length
      · simp only [if_pos hmismatch]
        exact hn.splitPrefixAt_spec hkey hpath hlong hmismatch value
      have hstart := prefix_of_commonLength hpath (not_lt.mp hmismatch)
      simp only [if_neg hmismatch]
      by_cases hdone : key.length ≤ path.length + pfx.length
      · rw [if_pos hdone]
        refine hn.setTerminal_spec hsep hkey (hstart.eq_of_length ?_) value
        rw [List.length_append]
        exact le_antisymm hlong hdone
      have hmore := not_le.mp hdone
      obtain ⟨b, hget⟩ : ∃ b, key[path.length + pfx.length]? = some b :=
        ⟨_, List.getElem?_eq_getElem hmore⟩
      have hb : byteAt key (path ++ pfx).length = b := by
        rw [List.length_append, byteAt, hget, Option.getD_some]
      have hnode := hn
      cases hn with
      | inner hwf _ _ hplaced =>
        simp only [if_neg hdone, index_eq_ok hget, Layout.findChild_eq hwf, bind, Except.bind]
        cases hchild : layout.view b with
        | none =>
          obtain ⟨layout', hadd, hplaced', hupdated⟩ := hnode.addLeaf hkey hstart hb hchild value
          simp only [hadd]
          exact ⟨_, rfl, hplaced', hupdated⟩
        | some child =>
          have hnext : path ++ pfx ++ [b] <+: key := by
            rw [← hb]
            exact append_byteAt_isPrefix hstart (by rwa [List.length_append])
          have hlength : (path ++ pfx ++ [b]).length = path.length + pfx.length + 1 := by
            rw [List.length_append, List.length_append, List.length_singleton]
          have hroom' : Roomy key child (path ++ pfx ++ [b]).length := by
            rw [hlength]
            refine fun pfx' layout' d hvisit ↦ hroom pfx' layout' d (.step ?_ hget hchild hvisit)
            obtain ⟨rest, rfl⟩ := hstart
            rw [List.append_assoc, List.drop_left]
            exact List.prefix_append _ _
          obtain ⟨child', hset, hplaced', hupdated⟩ :=
            ih (hplaced b child hchild) hnext (by omega) hroom'
          rw [hlength] at hset
          simp only [hset]
          exact ⟨_, rfl, hnode.replaceChild (.set key value) hb hchild hplaced' hupdated⟩

/-! ### Del -/

theorem updated_del_iff {n' : ArtNode} :
    Updated n (.del key) n' ↔ ∀ k v, Contains n' k v ↔ k ≠ key ∧ Contains n k v := by
  refine forall_congr' fun k ↦ forall_congr' fun v ↦ ?_
  show (_ ↔ if k = key then (none : Option GoString) = some v else Contains n k v) ↔ _
  by_cases hk : k = key
  · simp [hk]
  · simp [hk]

theorem updated_del_self (hnone : ∀ v, ¬Contains n key v) : Updated n (.del key) n := by
  refine updated_del_iff.mpr fun k v ↦ ⟨fun h ↦ ⟨?_, h⟩, fun h ↦ h.2⟩
  rintro rfl
  exact hnone v h

/-- What a call of `delNode` for a key leaves of a node and says about it: a node that stays is
valid and has lost the key, and a node that goes held nothing else. -/
def Deleted (Stays : ArtNode → Prop) (n : ArtNode) (key : GoString) (result : ArtNode × Bool) :
    Prop :=
  if result.2 then Stays result.1 ∧ Updated n (.del key) result.1
  else ∀ k v, Contains n k v → k = key

/-- A table without children at the end of `delNode`. -/
theorem deleted_inner {Stays : ArtNode → Prop} (hstays : Stays (.inner pfx layout'))
    (hupdated : Updated n (.del key) (.inner pfx layout')) :
    Deleted Stays n key (.inner pfx layout', layout'.childCount ≠ 0) := by
  unfold Deleted
  by_cases hcount : layout'.childCount = 0
  · simp only [hcount, ne_eq, not_true_eq_false, decide_false, Bool.false_eq_true, if_false]
    intro k v hentry
    by_contra hk
    obtain ⟨b, child, hchild, -⟩ :=
      contains_inner_iff.mp ((updated_del_iff.mp hupdated k v).mpr ⟨hk, hentry⟩)
    rw [Layout.view_eq_none_of_childCount hcount] at hchild
    exact absurd hchild (by simp)
  · simp only [hcount, ne_eq, not_false_eq_true, decide_true, if_true]
    exact ⟨hstays, hupdated⟩

/-- The end of `delNode` after the call on the child on the way of the key. -/
theorem Placed.afterDelete_spec {result : ArtNode × Bool} (hn : Placed K path (.inner pfx layout))
    (hb : byteAt key (path ++ pfx).length = b) (hchild : layout.view b = some child)
    (hresult : Deleted (Placed K (path ++ pfx ++ [b])) child key result) :
    ∃ result', afterDelete pfx layout b b result = .ok result' ∧
      Deleted (Placed K path) (.inner pfx layout) key result' := by
  obtain ⟨child', alive⟩ := result
  cases alive with
  | true =>
    obtain ⟨hplaced', hupdated'⟩ : Placed K (path ++ pfx ++ [b]) child' ∧
      Updated child (.del key) child' := hresult
    obtain ⟨hplaced, hupdated⟩ := hn.replaceChild (.del key) hb hchild hplaced' hupdated'
    exact ⟨_, rfl, deleted_inner hplaced hupdated⟩
  | false =>
    have hempty : ∀ k v, Contains child k v → k = key := hresult
    have hothers := hn.notMem_others hb
    have hnode := hn
    cases hn with
    | inner hwf hdistinct _ _ =>
      have hreplaced := Layout.replaceChild_spec hwf b child'
      obtain ⟨layout', hremove, hremoved⟩ := Layout.removeChild_spec hreplaced.wf b
      have hview := hremoved.view (hreplaced.distinct hdistinct)
      rw [hreplaced.view (by rw [hchild]; simp), Function.update_idem] at hview
      have hplaced : Placed K path (.inner pfx layout') :=
        hnode.update hremoved.wf (hremoved.distinct (hreplaced.distinct hdistinct)) hview
          (by simp)
      have hupdated : Updated (.inner pfx layout) (.del key) (.inner pfx layout') := by
        refine updated_inner hview (slotUpdated_none fun k v h ↦ ?_) fun c v hc ↦ hothers c v hc
        rw [hchild, slotContains_some] at h
        exact hempty k v h
      refine ⟨_, ?_, deleted_inner hplaced hupdated⟩
      simp only [afterDelete, Bool.false_eq_true, if_false, hremove, bind, Except.bind]
      rfl

theorem delNode_leaf (leafKey value : GoString) (depth : ℕ) :
    delNode key (leaf leafKey value) depth = .ok (leaf leafKey value, leafKey ≠ key) := by
  rw [delNode]

theorem deleted_leaf {Stays : ArtNode → Prop} {leafKey value : GoString}
    (hstays : leafKey ≠ key → Stays (leaf leafKey value)) :
    Deleted Stays (leaf leafKey value) key (leaf leafKey value, leafKey ≠ key) := by
  unfold Deleted
  by_cases hsame : leafKey = key
  · simp only [hsame, ne_eq, not_true_eq_false, decide_false, Bool.false_eq_true, if_false]
    exact fun k v h ↦ (contains_leaf_iff.mp h).1
  · simp only [hsame, ne_eq, not_false_eq_true, decide_true, if_true]
    exact ⟨hstays hsame, updated_del_self fun v h ↦ hsame (contains_leaf_iff.mp h).1.symm⟩

/-- The child `delNode` goes on with on a proper table. -/
theorem childToDelete_eq (hwf : layout.Wf) (b : UInt8) :
    childToDelete layout b = .ok (((layout.view b).map (Prod.mk b)).or
      ((layout.view 0).map (Prod.mk 0))) := by
  simp only [childToDelete, Layout.findChild_eq hwf, bind, Except.bind]
  cases layout.view b with
  | some child => rfl
  | none => rfl

/-- The child `delNode` goes on with stands at the byte of the key, or that byte is free. -/
theorem childToDelete_cases (hwf : layout.Wf) (b : UInt8) :
    ∃ found, childToDelete layout b = .ok found ∧ ∀ slot child, found = some (slot, child) →
      layout.view slot = some child ∧ (slot = b ∨ layout.view b = none) := by
  refine ⟨_, childToDelete_eq hwf b, fun slot child hfound ↦ ?_⟩
  cases hb : layout.view b with
  | some other =>
    rw [hb, Option.map_some, Option.some_or] at hfound
    obtain ⟨rfl, rfl⟩ := Prod.mk.inj (Option.some.inj hfound)
    exact ⟨hb, Or.inl rfl⟩
  | none =>
    rw [hb, Option.map_none, Option.none_or] at hfound
    obtain ⟨other, hother, heq⟩ := Option.map_eq_some_iff.mp hfound
    obtain ⟨rfl, rfl⟩ := Prod.mk.inj heq
    exact ⟨hother, Or.inr rfl⟩

/-- What a call of `delNode` for a key that is not there leaves of a node and says about it: a node
with the same entries, which goes only if there are none. -/
def Unchanged (Stays : ArtNode → Prop) (n : ArtNode) (result : ArtNode × Bool) : Prop :=
  Stays result.1 ∧ (∀ k v, Contains result.1 k v ↔ Contains n k v) ∧
    (result.2 = false → ∀ k v, ¬Contains n k v)

theorem unchanged_self {Stays : ArtNode → Prop} (hstays : Stays n) : Unchanged Stays n (n, true) :=
  ⟨hstays, fun _ _ ↦ Iff.rfl, nofun⟩

theorem Unchanged.deleted {Stays : ArtNode → Prop} {result : ArtNode × Bool}
    (h : Unchanged Stays n result) (hnone : ∀ v, ¬Contains n key v) :
    Deleted Stays n key result := by
  obtain ⟨n', alive⟩ := result
  obtain ⟨hstays, hsame, hempty⟩ := h
  cases alive with
  | true =>
    refine ⟨hstays, fun k v ↦ ?_⟩
    rw [hsame k v]
    exact updated_del_self hnone k v
  | false => exact fun k v hentry ↦ absurd hentry (hempty rfl k v)

/-- A table with the same entries at the end of `delNode`. -/
theorem unchanged_inner {Stays : ArtNode → Prop} (hstays : Stays (.inner pfx layout'))
    (hsame : ∀ k v, Contains (.inner pfx layout') k v ↔ Contains n k v) :
    Unchanged Stays n (.inner pfx layout', layout'.childCount ≠ 0) := by
  refine ⟨hstays, hsame, fun halive k v hentry ↦ ?_⟩
  have hcount : layout'.childCount = 0 := by simpa using halive
  obtain ⟨b, child, hchild, -⟩ := contains_inner_iff.mp ((hsame k v).mpr hentry)
  rw [Layout.view_eq_none_of_childCount hcount] at hchild
  exact absurd hchild (by simp)

/-- The end of `delNode` after the call on a child that does not hold the key. A child that goes
held nothing, and where it is not the child for the byte of the key that byte is free. -/
theorem Placed.afterDelete_unchanged {slot : UInt8} {result : ArtNode × Bool}
    (hn : Placed K path (.inner pfx layout)) (hchild : layout.view slot = some child)
    (hslot : slot = b ∨ layout.view b = none)
    (hresult : Unchanged (Placed K (path ++ pfx ++ [slot])) child result) :
    ∃ result', afterDelete pfx layout b slot result = .ok result' ∧
      Unchanged (Placed K path) (.inner pfx layout) result' := by
  obtain ⟨child', alive⟩ := result
  obtain ⟨hplaced', hsame', hempty⟩ := hresult
  have hnode := hn
  cases hn with
  | inner hwf hdistinct _ _ =>
    have hreplaced := Layout.replaceChild_spec hwf slot child'
    have hview := hreplaced.view (by rw [hchild]; simp)
    have hdistinct' := hreplaced.distinct hdistinct
    have hplaced : Placed K path (.inner pfx (layout.replaceChild slot child')) := by
      refine hnode.update hreplaced.wf hdistinct' hview fun other h ↦ ?_
      rw [← Option.some.inj h]
      exact hplaced'
    have hsame (k v : GoString) : Contains (.inner pfx (layout.replaceChild slot child')) k v ↔
        Contains (.inner pfx layout) k v := by
      refine contains_update hview (fun k v ↦ ?_) k v
      rw [hchild, slotContains_some, slotContains_some]
      exact hsame' k v
    cases alive with
    | true => exact ⟨_, rfl, unchanged_inner hplaced hsame⟩
    | false =>
      obtain ⟨layout', hremove, hremoved⟩ := Layout.removeChild_spec hreplaced.wf b
      have hview' := hremoved.view hdistinct'
      have hfree (k v : GoString) :
          ¬SlotContains ((layout.replaceChild slot child').view b) k v := by
        rw [hview]
        by_cases hb : b = slot
        · rw [hb, Function.update_self, slotContains_some, hsame' k v]
          exact hempty rfl k v
        · rw [Function.update_of_ne hb, hslot.resolve_left (Ne.symm hb)]
          exact slotContains_none
      have hplaced'' : Placed K path (.inner pfx layout') :=
        hplaced.update hremoved.wf (hremoved.distinct hdistinct') hview' (by simp)
      refine ⟨_, ?_, unchanged_inner hplaced'' fun k v ↦ ?_⟩
      · simp only [afterDelete, Bool.false_eq_true, if_false, hremove, bind, Except.bind]
        rfl
      · refine (contains_update hview' (fun k v ↦ ?_) k v).trans (hsame k v)
        exact iff_of_false slotContains_none (hfree k v)

/-- `Del` of a key that is not there changes no entry, from any depth. -/
theorem Placed.delNode_of_absent (hn : Placed K path n) (hnone : ∀ v, ¬Contains n key v)
    (depth : ℕ) :
    ∃ result, delNode key n depth = .ok result ∧ Unchanged (Placed K path) n result := by
  induction hn generalizing depth with
  | @leaf path leafKey value hkey hpath =>
    have hne : leafKey ≠ key := by
      rintro rfl
      exact hnone value Contains.leaf
    rw [delNode_leaf, decide_eq_true hne]
    exact ⟨_, rfl, unchanged_self (Placed.leaf hkey hpath)⟩
  | @inner path pfx layout hwf hdistinct hpath hplaced ih =>
    have hnode : Placed K path (.inner pfx layout) := Placed.inner hwf hdistinct hpath hplaced
    by_cases hstart : matchesPrefix key depth pfx = true
    · obtain ⟨found, hfound, hcases⟩ :=
        childToDelete_cases hwf (byteAt key (depth + pfx.length))
      rw [delNode_inner hstart hfound]
      cases found with
      | none => exact ⟨_, rfl, unchanged_self hnode⟩
      | some found =>
        obtain ⟨slot, child⟩ := found
        obtain ⟨hchild, hslot⟩ := hcases slot child rfl
        obtain ⟨result, hresult, hsame⟩ := ih slot child hchild
          (fun v h ↦ hnone v (Contains.inner hchild h)) (nextDepth key (depth + pfx.length))
        simp only [Option.elim_some, hresult, bind, Except.bind]
        exact hnode.afterDelete_unchanged hchild hslot hsame
    · rw [delNode, if_neg hstart]
      exact ⟨_, rfl, unchanged_self hnode⟩

/-- `Del` of a key that is there removes its entry. -/
theorem Placed.delNode_of_contains (hn : Placed K path n) (hentry : Contains n key v) :
    ∃ result, delNode key n (min path.length key.length) = .ok result ∧
      Deleted (Placed K path) n key result := by
  induction hn with
  | leaf hkey hpath =>
    exact ⟨_, delNode_leaf _ _ _, deleted_leaf fun _ ↦ Placed.leaf hkey hpath⟩
  | @inner path pfx layout hwf hdistinct hpath hplaced ih =>
    have hnode : Placed K path (.inner pfx layout) := Placed.inner hwf hdistinct hpath hplaced
    obtain ⟨b, child, hchild, hbelow⟩ := contains_inner_iff.mp hentry
    have hroute := hnode.route hchild hbelow
    have hstart := prefix_of_concat hroute
    have hkey : path <+: key := (List.prefix_append _ _).trans hstart
    obtain ⟨result, hresult, hdeleted⟩ := ih b child hchild hbelow
    rw [min_eq_left hkey.length_le, delNode_inner ((matchesPrefix_iff hkey).mpr hstart)
      (childToDelete_eq hwf _), ← List.length_append, byteAt_of_concat hroute, hchild,
      Option.map_some, Option.some_or, Option.elim_some, nextDepth_of_concat hroute, hresult]
    exact hnode.afterDelete_spec (byteAt_of_concat hroute) hchild hdeleted

/-- `Del` on a placed tree removes the entry of its key, whatever the key. -/
theorem Placed.delNode_spec (hn : Placed K path n) (key : GoString) :
    ∃ result, delNode key n (min path.length key.length) = .ok result ∧
      Deleted (Placed K path) n key result := by
  by_cases hentry : ∃ v, Contains n key v
  · obtain ⟨v, hentry⟩ := hentry
    exact hn.delNode_of_contains hentry
  · have hnone := not_exists.mp hentry
    obtain ⟨result, hresult, hsame⟩ := hn.delNode_of_absent hnone (min path.length key.length)
    exact ⟨result, hresult, hsame.deleted hnone⟩

/-! ### The store -/

/-- The tree of a store is placed, with keys of a set. -/
def PlacedStore (K : Set GoString) (s : ARTStore) : Prop :=
  ∀ root, s.root = some root → Placed K [] root

section Store

variable {s : ARTStore}

/-- `Set` returns and writes its entry. -/
theorem PlacedStore.set (hsep : Separated K) (hs : PlacedStore K s) (hkey : key ∈ K)
    (hroom : ∀ root, s.root = some root → Roomy key root 0) (value : GoString) :
    ∃ s', s.set key value = .ok s' ∧ PlacedStore K s' ∧
      SlotUpdated s.root (.set key value) s'.root := by
  have hlock : lock false = .ok () := rfl
  cases hroot : s.root with
  | none =>
    refine ⟨{ s with root := some (.leaf key value) }, ?_, fun root h ↦ ?_,
      slotUpdated_leaf value fun k v h ↦ absurd h slotContains_none⟩
    · simp only [ARTStore.set, hlock, hroot, bind, Except.bind]
      rfl
    · rw [← Option.some.inj h]
      exact Placed.leaf hkey List.nil_prefix
  | some root =>
    have hsteps : key.length < ([] : List UInt8).length + (key.length + 1) := by
      rw [List.length_nil, Nat.zero_add]
      exact Nat.lt_succ_self _
    obtain ⟨root', hset, hplaced, hupdated⟩ := (hs root hroot).setFrom_spec hsep hkey
      List.nil_prefix hsteps (hroom root hroot) value
    refine ⟨{ s with root := some root' }, ?_, fun other h ↦ ?_, slotUpdated_some.mpr hupdated⟩
    · have hset' : root.setFrom key value (key.length + 1) 0 = .ok root' := hset
      simp only [ARTStore.set, hlock, hroot, hset', bind, Except.bind]
      rfl
    · rw [← Option.some.inj h]
      exact hplaced

/-- `Del` returns and removes its entry. -/
theorem PlacedStore.del (hs : PlacedStore K s) (key : GoString) :
    ∃ s', s.del key = .ok s' ∧ PlacedStore K s' ∧ SlotUpdated s.root (.del key) s'.root := by
  cases hroot : s.root with
  | none =>
    refine ⟨{ s with hashes := s.hashes.erase key }, ?_, hs, ?_⟩
    · simp only [ARTStore.del, hroot]
      rfl
    · show SlotUpdated none (.del key) s.root
      rw [hroot]
      exact slotUpdated_none fun k v h ↦ absurd h slotContains_none
  | some root =>
    obtain ⟨⟨root', alive⟩, hdel, hdeleted⟩ := (hs root hroot).delNode_spec key
    have hdel' : root.delNode key 0 = .ok (root', alive) := by
      rwa [List.length_nil, Nat.zero_min] at hdel
    refine ⟨⟨if alive then some root' else none, s.hashes.erase key⟩, ?_, ?_⟩
    · simp only [ARTStore.del, hroot, hdel', bind, Except.bind]
      rfl
    · cases alive with
      | true =>
        obtain ⟨hplaced, hupdated⟩ : Placed K [] root' ∧ Updated root (.del key) root' := hdeleted
        refine ⟨fun other h ↦ ?_, slotUpdated_some.mpr hupdated⟩
        rw [← Option.some.inj h]
        exact hplaced
      | false =>
        have hempty : ∀ k v, Contains root k v → k = key := hdeleted
        refine ⟨fun other h ↦ absurd h (by simp), slotUpdated_none fun k v h ↦ ?_⟩
        exact hempty k v (slotContains_some.mp h)

/-- `Get` finds an entry that is there. -/
theorem PlacedStore.get_of_contains (hs : PlacedStore K s) (hentry : SlotContains s.root key v) :
    s.get key = .ok (v, true) := by
  obtain ⟨root, hroot, hentry⟩ := hentry
  have hget := (hs root hroot).getFrom_of_contains hentry
  rw [List.length_nil, Nat.zero_min] at hget
  rw [ARTStore.get, hroot]
  exact hget

/-- `Get` finds nothing where no entry is. -/
theorem PlacedStore.get_of_absent (hs : PlacedStore K s)
    (hnone : ∀ v, ¬SlotContains s.root key v) : s.get key = .ok ([], false) := by
  cases hroot : s.root with
  | none =>
    rw [ARTStore.get, hroot]
  | some root =>
    rw [ARTStore.get, hroot]
    rw [hroot] at hnone
    exact (hs root hroot).getFrom_of_absent (fun v h ↦ hnone v (slotContains_some.mpr h)) 0

end Store

end FluxCache.Store.ArtNode
