import FluxCache.Store.ARTRefinement

/-!
# When Set on the adaptive radix tree returns

With arbitrary keys the tree is no map any more, but its tables stay proper. `Throughout P n` says
that every table below `n` has the property `P`. A property of proper tables that the operations on
a table keep is kept by every call that returns (`Throughout.setFrom_cases`,
`Throughout.delNode_spec`), and so holds in every reachable store (`ThroughoutStore.run`). On a tree
with proper tables two things can stop `Set`. A key that ends inside the prefix of an inner node
takes the branch of `splitPrefix`, which calls `Set` again under the mutex. A key that ends at an
inner node whose child for byte 0 is an inner node reads the key of a leaf that is not there.
`Completes key n depth` says that neither happens on the way of the key, and it is exactly the
condition under which `Set` returns.
-/

set_option autoImplicit false
set_option relaxedAutoImplicit false

namespace FluxCache.Store.ArtNode

open FluxCache.Foundation

variable {n child : ArtNode} {pfx : List UInt8} {layout layout' : Layout ArtNode}
  {key value : GoString} {b : UInt8} {depth : ℕ}

/-- The key ends neither inside the prefix of an inner node on its way nor at an inner node whose
child for byte 0 is an inner node. -/
def Completes (key : GoString) (n : ArtNode) (depth : ℕ) : Prop :=
  ∀ pfx layout d, Visits key n depth (inner pfx layout) d →
    d + pfx.length ≤ key.length ∧
      (pfx <+: key.drop d → d + pfx.length = key.length →
        ∀ pfx' layout', layout.view 0 ≠ some (inner pfx' layout'))

theorem completes_leaf (key leafKey leafValue : GoString) (depth : ℕ) :
    Completes key (leaf leafKey leafValue) depth := by
  rintro pfx layout d ⟨⟩

/-- The condition at an inner node and at the child the descent goes on to. -/
theorem completes_inner_iff :
    Completes key (inner pfx layout) depth ↔
      (depth + pfx.length ≤ key.length ∧
        (pfx <+: key.drop depth → depth + pfx.length = key.length →
          ∀ pfx' layout', layout.view 0 ≠ some (inner pfx' layout'))) ∧
      ∀ b child, pfx <+: key.drop depth → key[depth + pfx.length]? = some b →
        layout.view b = some child → Completes key child (depth + pfx.length + 1) := by
  constructor
  · intro h
    refine ⟨h pfx layout depth (Visits.refl _ _), fun b child hstart hbyte hchild ↦ ?_⟩
    exact fun pfx' layout' d hvisit ↦
      h pfx' layout' d (Visits.step hstart hbyte hchild hvisit)
  · rintro ⟨hown, hbelow⟩ pfx' layout' d hvisit
    cases hvisit with
    | refl => exact hown
    | step hstart hbyte hchild hvisit =>
      exact hbelow _ _ hstart hbyte hchild pfx' layout' d hvisit

/-- A key that leaves the prefix of a node goes no further. -/
theorem completes_of_mismatch (hroom : depth + pfx.length ≤ key.length)
    (hother : ¬pfx <+: key.drop depth) : Completes key (inner pfx layout) depth :=
  completes_inner_iff.mpr ⟨⟨hroom, fun h ↦ absurd h hother⟩, fun _ _ h ↦ absurd h hother⟩

/-- The condition at a node where the key ends. -/
theorem completes_iff_of_end (hstart : pfx <+: key.drop depth)
    (hend : depth + pfx.length = key.length) :
    Completes key (inner pfx layout) depth ↔
      ∀ pfx' layout', layout.view 0 ≠ some (inner pfx' layout') := by
  rw [completes_inner_iff]
  refine ⟨fun h ↦ h.1.2 hstart hend, fun h ↦ ⟨⟨Nat.le_of_eq hend, fun _ _ ↦ h⟩, ?_⟩⟩
  intro b child _ hbyte
  have hlt := (List.getElem?_eq_some_iff.mp hbyte).1
  exact absurd hend (Nat.ne_of_lt hlt)

/-- The condition at a node where the key goes on. -/
theorem completes_iff_of_byte (hstart : pfx <+: key.drop depth)
    (hbyte : key[depth + pfx.length]? = some b) :
    Completes key (inner pfx layout) depth ↔
      ∀ child, layout.view b = some child → Completes key child (depth + pfx.length + 1) := by
  have hlt := (List.getElem?_eq_some_iff.mp hbyte).1
  rw [completes_inner_iff]
  refine ⟨fun h child ↦ h.2 b child hstart hbyte, fun h ↦ ⟨⟨Nat.le_of_lt hlt, ?_⟩, ?_⟩⟩
  · exact fun _ hend ↦ absurd hend (Nat.ne_of_lt hlt)
  · intro b' child _ hbyte' hview
    obtain rfl := Option.some.inj (hbyte.symm.trans hbyte')
    exact h child hview

/-! ### Calls keep the tables in order -/

/-- Every table below a node has a property. -/
inductive Throughout (P : Layout ArtNode → Prop) : ArtNode → Prop
  | leaf {key value : GoString} : Throughout P (leaf key value)
  | inner {pfx : List UInt8} {layout : Layout ArtNode} (hown : P layout)
      (hmembers : ∀ child ∈ layout.members, Throughout P child) : Throughout P (inner pfx layout)

section Kept

variable {P : Layout ArtNode → Prop}

theorem Throughout.own (hn : Throughout P (.inner pfx layout)) : P layout := by
  cases hn with
  | inner hown _ => exact hown

theorem Throughout.of_mem (hn : Throughout P (.inner pfx layout))
    (hchild : child ∈ layout.members) : Throughout P child := by
  cases hn with
  | inner _ hmembers => exact hmembers child hchild

/-- The new prefix of a node does not matter. -/
theorem Throughout.with_prefix (hn : Throughout P (.inner pfx layout)) (pfx' : List UInt8) :
    Throughout P (.inner pfx' layout) :=
  Throughout.inner hn.own fun _ hchild ↦ hn.of_mem hchild

variable (hP : Layout.Kept P)

include hP

theorem Throughout.addChild (hn : Throughout P (.inner pfx layout)) (b : UInt8)
    (hchild : Throughout P child) :
    ∃ layout', layout.addChild b child = .ok layout' ∧ Throughout P (.inner pfx layout') := by
  obtain ⟨layout', hadd, hadded⟩ := Layout.addChild_spec (hP.wf hn.own) b child
  refine ⟨layout', hadd, Throughout.inner (hP.add hn.own hadd) fun other hother ↦ ?_⟩
  rcases hadded.members other hother with rfl | hold
  · exact hchild
  · exact hn.of_mem hold

theorem Throughout.replaceChild (hn : Throughout P (.inner pfx layout)) (b : UInt8)
    (hchild : Throughout P child) : Throughout P (.inner pfx (layout.replaceChild b child)) := by
  have hreplaced := Layout.replaceChild_spec (hP.wf hn.own) b child
  refine Throughout.inner (hP.replace b child hn.own) fun other hother ↦ ?_
  rcases hreplaced.members other hother with rfl | hold
  · exact hchild
  · exact hn.of_mem hold

theorem throughout_empty (pfx : List UInt8) : Throughout P (inner pfx (.node4 [] [])) :=
  Throughout.inner hP.empty fun _ h ↦ absurd h List.not_mem_nil

theorem throughout_branch {b₁ b₂ : UInt8} {child₁ child₂ : ArtNode} (pfx : List UInt8)
    (h₁ : Throughout P child₁) (h₂ : Throughout P child₂) :
    ∃ n', branch pfx b₁ child₁ b₂ child₂ = .ok n' ∧ Throughout P n' := by
  obtain ⟨layout₁, hadd₁, hlayout₁⟩ := (throughout_empty hP pfx).addChild hP b₁ h₁
  obtain ⟨layout₂, hadd₂, hlayout₂⟩ := hlayout₁.addChild hP b₂ h₂
  refine ⟨_, ?_, hlayout₂⟩
  simp only [branch, hadd₁, hadd₂, bind, Except.bind]
  rfl

theorem Throughout.of_view (hn : Throughout P (.inner pfx layout))
    (hchild : layout.view b = some child) : Throughout P child :=
  hn.of_mem (Layout.mem_of_view (hP.wf hn.own) hchild)

/-! ### Set -/

/-- `Set` at an inner node where the key ends. -/
theorem Throughout.setTerminal_cases (hn : Throughout P (.inner pfx layout))
    (key value : GoString) :
    ((∀ pfx' layout', layout.view 0 ≠ some (.inner pfx' layout')) ∧
        ∃ n', setTerminal pfx layout key value = .ok n' ∧ Throughout P n') ∨
      (∃ pfx' layout', layout.view 0 = some (.inner pfx' layout')) ∧
        setTerminal pfx layout key value = .error .nilDereference := by
  have hfind := Layout.findChild_eq (hP.wf hn.own) 0
  have hleaf : ∀ leafKey : GoString, Throughout P (.leaf leafKey value) := fun _ ↦ Throughout.leaf
  obtain ⟨layout', hadd, hadded⟩ := hn.addChild hP 0 (hleaf key)
  cases hzero : layout.view 0 with
  | none =>
    refine Or.inl ⟨by simp, _, ?_, hadded⟩
    rw [hzero] at hfind
    simp only [setTerminal, hfind, hadd, bind, Except.bind]
    rfl
  | some child =>
    rw [hzero] at hfind
    cases child with
    | leaf childKey childValue =>
      by_cases hsame : childKey = key
      · refine Or.inl ⟨by simp, _, ?_, hn.replaceChild hP 0 (hleaf childKey)⟩
        simp only [setTerminal, hfind, bind, Except.bind, if_pos hsame]
        rfl
      · refine Or.inl ⟨by simp, _, ?_, hadded⟩
        simp only [setTerminal, hfind, hadd, bind, Except.bind, if_neg hsame]
        rfl
    | inner pfx' layout' =>
      refine Or.inr ⟨⟨pfx', layout', rfl⟩, ?_⟩
      simp only [setTerminal, hfind, bind, Except.bind]

/-- A key that ends inside the prefix of an inner node stops `Set` at its own mutex. -/
theorem Throughout.splitPrefix_eq (hn : Throughout P (.inner pfx layout)) (hpfx : pfx ≠ []) :
    splitPrefix pfx layout = .error .selfDeadlock := by
  cases pfx with
  | nil => exact absurd rfl hpfx
  | cons first rest =>
    obtain ⟨layout', hadd, -⟩ := (throughout_empty hP []).addChild hP first hn
    have hfirst : index (first :: rest) 0 = .ok first := rfl
    have hlock : lock true = .error .selfDeadlock := rfl
    simp only [splitPrefix, hfirst, hadd, hlock, bind, Except.bind]

/-- `Set` from a node of a tree with proper tables returns exactly when the key completes, and
otherwise waits for its own mutex or dereferences nil. -/
theorem Throughout.setFrom_cases {steps : ℕ} (hn : Throughout P n) (hdepth : depth ≤ key.length)
    (hsteps : key.length < depth + steps) (value : GoString) :
    (Completes key n depth ∧ ∃ n', setFrom key value steps n depth = .ok n' ∧ Throughout P n') ∨
      (¬Completes key n depth ∧ (setFrom key value steps n depth = .error .selfDeadlock ∨
        setFrom key value steps n depth = .error .nilDereference)) := by
  induction steps generalizing n depth with
  | zero => exact absurd hdepth (not_le.mpr hsteps)
  | succ steps ih =>
    cases n with
    | leaf oldKey oldValue =>
      refine Or.inl ⟨completes_leaf key oldKey oldValue depth, ?_⟩
      rw [setFrom]
      by_cases hsame : oldKey = key
      · rw [if_pos hsame]
        exact ⟨_, rfl, Throughout.leaf⟩
      · rw [if_neg hsame]
        exact throughout_branch hP _ Throughout.leaf Throughout.leaf
    | inner pfx layout =>
      have hwf := hP.wf hn.own
      rw [setFrom]
      by_cases hlong : key.length < depth + pfx.length
      · have hpfx : pfx ≠ [] := by
          rintro rfl
          exact absurd hdepth (not_le.mpr hlong)
        rw [if_pos hlong, hn.splitPrefix_eq hP hpfx]
        exact Or.inr ⟨fun h ↦ not_le.mpr hlong (completes_inner_iff.mp h).1.1, Or.inl rfl⟩
      rw [if_neg hlong]
      have hroom := not_lt.mp hlong
      by_cases hmismatch : commonLength pfx (key.drop depth) < pfx.length
      · have hother : ¬pfx <+: key.drop depth := fun h ↦
          not_le.mpr hmismatch (prefix_iff_commonLength.mp h)
        refine Or.inl ⟨completes_of_mismatch hroom hother, ?_⟩
        simp only [if_pos hmismatch, splitPrefixAt,
          index_eq_ok (List.getElem?_eq_getElem hmismatch), bind, Except.bind]
        exact throughout_branch hP _ (hn.with_prefix _) Throughout.leaf
      have hstart := prefix_iff_commonLength.mpr (not_lt.mp hmismatch)
      simp only [if_neg hmismatch]
      by_cases hend : key.length ≤ depth + pfx.length
      · rw [if_pos hend, completes_iff_of_end hstart (le_antisymm hroom hend)]
        rcases hn.setTerminal_cases hP key value with ⟨hfree, hset⟩ | ⟨⟨pfx', layout', hzero⟩, hset⟩
        · exact Or.inl ⟨hfree, hset⟩
        · exact Or.inr ⟨fun h ↦ h pfx' layout' hzero, Or.inr hset⟩
      have hmore := not_le.mp hend
      have hget := List.getElem?_eq_getElem hmore
      obtain ⟨b, hb⟩ : ∃ b, key[depth + pfx.length] = b := ⟨_, rfl⟩
      rw [hb] at hget
      rw [completes_iff_of_byte hstart hget]
      simp only [if_neg hend, index_eq_ok hget, Layout.findChild_eq hwf, bind, Except.bind]
      cases hchild : layout.view b with
      | none =>
        have hleaf : Throughout P (.leaf key value) := Throughout.leaf
        obtain ⟨layout', hadd, hadded⟩ := hn.addChild hP b hleaf
        refine Or.inl ⟨fun child h ↦ ?_, .inner pfx layout', ?_, hadded⟩
        · exact absurd h (Option.some_ne_none child).symm
        · simp only [hadd]
          rfl
      | some child =>
        have hbelow : (∀ other, some child = some other →
            Completes key other (depth + pfx.length + 1)) ↔
            Completes key child (depth + pfx.length + 1) :=
          ⟨fun h ↦ h child rfl, fun h other hother ↦ Option.some.inj hother ▸ h⟩
        rw [hbelow]
        have hstep := ih (hn.of_view hP hchild) (Nat.succ_le_of_lt hmore) (by omega)
        rcases hstep with ⟨hcompletes, child', hset, hkept⟩ | ⟨hstops, hset | hset⟩
        · refine Or.inl ⟨hcompletes, _, ?_, hn.replaceChild hP b hkept⟩
          simp only [hset]
          rfl
        · refine Or.inr ⟨hstops, Or.inl ?_⟩
          simp only [hset]
        · refine Or.inr ⟨hstops, Or.inr ?_⟩
          simp only [hset]

/-! ### Del -/

/-- The end of `delNode` at an inner node. -/
theorem Throughout.afterDelete_spec {result : ArtNode × Bool}
    (hn : Throughout P (.inner pfx layout)) (hresult : Throughout P result.1) (b slot : UInt8) :
    ∃ result', afterDelete pfx layout b slot result = .ok result' ∧ Throughout P result'.1 := by
  have hreplaced := hn.replaceChild hP slot hresult
  obtain ⟨child, alive⟩ := result
  cases alive with
  | true => exact ⟨_, rfl, hreplaced⟩
  | false =>
    obtain ⟨layout', hremove, hremoved⟩ := Layout.removeChild_spec (hP.wf hreplaced.own) b
    refine ⟨(.inner pfx layout', layout'.childCount ≠ 0), ?_,
      Throughout.inner (hP.remove hreplaced.own hremove)
        fun other hother ↦ hreplaced.of_mem (hremoved.members other hother)⟩
    simp only [afterDelete, Bool.false_eq_true, if_false, hremove, bind, Except.bind]
    rfl

/-- `delNode` always returns. -/
theorem Throughout.delNode_spec (hn : Throughout P n) (key : GoString) (depth : ℕ) :
    ∃ result, delNode key n depth = .ok result ∧ Throughout P result.1 := by
  induction hn generalizing depth with
  | @leaf leafKey value => exact ⟨_, delNode_leaf leafKey value depth, Throughout.leaf⟩
  | @inner pfx layout hown hmembers ih =>
    have hnode : Throughout P (.inner pfx layout) := Throughout.inner hown hmembers
    have hwf := hP.wf hown
    by_cases hstart : matchesPrefix key depth pfx = true
    · rw [delNode_inner hstart (childToDelete_eq hwf (byteAt key (depth + pfx.length)))]
      cases hchild : ((layout.view (byteAt key (depth + pfx.length))).map
          (Prod.mk (byteAt key (depth + pfx.length)))).or ((layout.view 0).map (Prod.mk 0)) with
      | none => exact ⟨_, rfl, hnode⟩
      | some found =>
        have hmem := mem_of_childToDelete ((childToDelete_eq hwf _).trans (congrArg _ hchild))
        obtain ⟨result, hresult, hkept⟩ := ih found.2 hmem (nextDepth key (depth + pfx.length))
        simp only [Option.elim_some, hresult, bind, Except.bind]
        exact hnode.afterDelete_spec hP hkept _ _
    · rw [delNode, if_neg hstart]
      exact ⟨_, rfl, hnode⟩

end Kept

/-! ### The store -/

/-- The call of `Set` for a key completes on the tree of a store. -/
def CompletesOn (key : GoString) (s : ARTStore) : Prop :=
  ∀ root, s.root = some root → Completes key root 0

/-- Every table of a store has a property. -/
def ThroughoutStore (P : Layout ArtNode → Prop) (s : ARTStore) : Prop :=
  ∀ root, s.root = some root → Throughout P root

section KeptStore

variable {P : Layout ArtNode → Prop} {s s' : ARTStore} (hP : Layout.Kept P)

include hP

/-- `Set` returns exactly when the key completes on the store, and keeps the property. -/
theorem ThroughoutStore.set_cases (hs : ThroughoutStore P s) (key value : GoString) :
    (CompletesOn key s ∧ ∃ s', s.set key value = .ok s' ∧ ThroughoutStore P s') ∨
      (¬CompletesOn key s ∧
        (s.set key value = .error .selfDeadlock ∨ s.set key value = .error .nilDereference)) := by
  have hlock : lock false = .ok () := rfl
  cases hroot : s.root with
  | none =>
    refine Or.inl ⟨fun root h ↦ absurd (hroot.symm.trans h) (by simp),
      { s with root := some (.leaf key value) }, ?_, fun root h ↦ ?_⟩
    · simp only [ARTStore.set, hlock, hroot, bind, Except.bind]
      rfl
    · rw [← Option.some.inj h]
      exact Throughout.leaf
  | some root =>
    have hsteps : key.length < 0 + (key.length + 1) := by
      rw [Nat.zero_add]
      exact Nat.lt_succ_self _
    have hon : CompletesOn key s ↔ Completes key root 0 := by
      refine ⟨fun h ↦ h root hroot, fun h other hother ↦ ?_⟩
      rwa [← Option.some.inj (hroot.symm.trans hother)]
    rw [hon]
    simp only [ARTStore.set, hlock, hroot, bind, Except.bind]
    rcases (hs root hroot).setFrom_cases hP (Nat.zero_le _) hsteps value with
      ⟨hcompletes, root', hset, hkept⟩ | ⟨hstops, hset | hset⟩
    · refine Or.inl ⟨hcompletes, { s with root := some root' }, ?_, fun other h ↦ ?_⟩
      · simp only [hset]
        rfl
      · rwa [← Option.some.inj h]
    · exact Or.inr ⟨hstops, Or.inl (by simp only [hset])⟩
    · exact Or.inr ⟨hstops, Or.inr (by simp only [hset])⟩

/-- `Del` returns on every store with proper tables. -/
theorem ThroughoutStore.del_spec (hs : ThroughoutStore P s) (key : GoString) :
    ∃ s', s.del key = .ok s' ∧ ThroughoutStore P s' := by
  cases hroot : s.root with
  | none =>
    refine ⟨{ s with hashes := s.hashes.erase key }, ?_, hs⟩
    simp only [ARTStore.del, hroot]
    rfl
  | some root =>
    obtain ⟨⟨root', alive⟩, hdel, hkept⟩ := (hs root hroot).delNode_spec hP key 0
    refine ⟨⟨if alive then some root' else none, s.hashes.erase key⟩, ?_, fun other h ↦ ?_⟩
    · simp only [ARTStore.del, hroot, hdel, bind, Except.bind]
      rfl
    · cases alive with
      | true => rwa [← Option.some.inj h]
      | false => exact absurd h (by simp)

/-- A call that returns keeps the property of the tables. -/
theorem ThroughoutStore.step {op : StringOp} (hs : ThroughoutStore P s)
    (hstep : s.step op = .ok s') : ThroughoutStore P s' := by
  cases op with
  | set key value =>
    have hset : s.set key value = .ok s' := hstep
    rcases hs.set_cases hP key value with ⟨-, t, ht, hkept⟩ | ⟨-, hstop | hstop⟩
    · rwa [Except.ok.inj (hset.symm.trans ht)]
    · exact absurd (hset.symm.trans hstop) (by simp)
    · exact absurd (hset.symm.trans hstop) (by simp)
  | del key =>
    obtain ⟨t, ht, hkept⟩ := hs.del_spec hP key
    have hdel : s.del key = .ok s' := hstep
    rwa [Except.ok.inj (hdel.symm.trans ht)]

/-- Every table of a reachable store has the property, whatever the keys. -/
theorem ThroughoutStore.run {ops : List StringOp} (hs : ThroughoutStore P s)
    (hrun : s.run ops = .ok s') : ThroughoutStore P s' := by
  induction ops generalizing s with
  | nil => rwa [← Except.ok.inj hrun]
  | cons op ops ih =>
    obtain ⟨t, hstep, hrest⟩ := bind_eq_ok_iff.mp hrun
    exact ih (hs.step hP hstep) hrest

end KeptStore

theorem throughoutStore_new (P : Layout ArtNode → Prop) : ThroughoutStore P ARTStore.new :=
  fun _ h ↦ absurd h (by simp [ARTStore.new])

/-- Every reachable store has proper tables, whatever the keys. -/
theorem throughoutStore_wf_of_run {s : ARTStore} {ops : List StringOp}
    (hrun : ARTStore.new.run ops = .ok s) : ThroughoutStore Layout.Wf s :=
  (throughoutStore_new Layout.Wf).run Layout.kept_wf hrun

/-- `Set` returns on a store that calls of `Set` and `Del` have reached exactly when its key
completes there.

Assumes: the run that leads to the store returned. -/
theorem art_set_returns_iff (ops : List StringOp) (s : ARTStore)
    (hrun : ARTStore.new.run ops = .ok s) (key value : GoString) :
    (∃ s', s.set key value = .ok s') ↔ CompletesOn key s := by
  rcases (throughoutStore_wf_of_run hrun).set_cases Layout.kept_wf key value with
    ⟨hcompletes, s', hset, -⟩ | ⟨hstops, hset⟩
  · exact ⟨fun _ ↦ hcompletes, fun _ ↦ ⟨s', hset⟩⟩
  · refine ⟨?_, fun h ↦ absurd h hstops⟩
    rintro ⟨s', hs'⟩
    rcases hset with hset | hset
    · exact absurd (hs'.symm.trans hset) (by simp)
    · exact absurd (hs'.symm.trans hset) (by simp)

/-- After `Set "abc"` and `Set "abd"`, the key `"abe"` completes. -/
theorem art_set_returns_iff_abe :
    ∃ s, ARTStore.new.run [.set [97, 98, 99] [49], .set [97, 98, 100] [50]] = .ok s ∧
      (∃ s', s.set [97, 98, 101] [51] = .ok s') ∧ CompletesOn [97, 98, 101] s := by
  refine ⟨_, rfl, ⟨_, rfl⟩, ?_⟩
  exact (art_set_returns_iff [.set [97, 98, 99] [49], .set [97, 98, 100] [50]] _ rfl _ [51]).mp
    ⟨_, rfl⟩

/-- After `Set "abc"` and `Set "abd"`, the call `Set "a"` waits for the mutex it holds. After
`Set "a\0b"`, `Set "a\0c"` and `Set "axx"`, it dereferences the leaf of an inner node. -/
theorem art_set_stops :
    (∃ s, ARTStore.new.run [.set [97, 98, 99] [49], .set [97, 98, 100] [50]] = .ok s ∧
      s.set [97] [51] = .error .selfDeadlock) ∧
    ∃ s, ARTStore.new.run [.set [97, 0, 98] [49], .set [97, 0, 99] [50], .set [97, 120, 120] [51]] =
        .ok s ∧
      s.set [97] [52] = .error .nilDereference :=
  ⟨⟨_, rfl, rfl⟩, ⟨_, rfl, rfl⟩⟩

end FluxCache.Store.ArtNode
