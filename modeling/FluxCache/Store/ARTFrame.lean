import FluxCache.Store.ARTCompletion

/-!
# What a call on the adaptive radix tree leaves alone

A call of `Set` or `Del` that returns should change what `Get` finds under its own key only. Where
the keys that are set are separated, every reachable tree is placed (`PlacedStore.run`), so a call
changes one entry and `Get` finds the entries. Where one of two keys continues the other with a byte
0, the end of the shorter one and the byte 0 of the longer one are the same branch of the same node:
the leaf that comes second hides the first.
-/

set_option autoImplicit false
set_option relaxedAutoImplicit false

namespace FluxCache.Store.ArtNode

open FluxCache.Foundation

variable {K : Set GoString} {s s' : ARTStore} {op : StringOp} {k : GoString}

/-- A call that, if it is a `Set`, sets a key of a set. -/
def SetsIn (K : Set GoString) (op : StringOp) : Prop :=
  ∀ key value, op = .set key value → key ∈ K

/-- A call that returns keeps the tree placed and changes the entry of its key. Assumes: the keys
that are set are separated, and the tables of the tree are proper. -/
theorem PlacedStore.step (hsep : Separated K) (hs : PlacedStore K s)
    (hshaped : ThroughoutStore Layout.Wf s) (hop : SetsIn K op) (hstep : s.step op = .ok s') :
    PlacedStore K s' ∧ SlotUpdated s.root op s'.root := by
  cases op with
  | set key value =>
    have hset : s.set key value = .ok s' := hstep
    have hcompletes : CompletesOn key s := by
      rcases hshaped.set_cases Layout.kept_wf key value with ⟨hcompletes, -⟩ | ⟨-, hstop | hstop⟩
      · exact hcompletes
      · exact absurd (hset.symm.trans hstop) (by simp)
      · exact absurd (hset.symm.trans hstop) (by simp)
    obtain ⟨t, ht, hplaced⟩ := hs.set hsep (hop key value rfl)
      (fun root hroot pfx layout d hvisit ↦ (hcompletes root hroot pfx layout d hvisit).1) value
    obtain rfl := Except.ok.inj (hset.symm.trans ht)
    exact hplaced
  | del key =>
    have hdel : s.del key = .ok s' := hstep
    obtain ⟨t, ht, hplaced⟩ := hs.del key
    obtain rfl := Except.ok.inj (hdel.symm.trans ht)
    exact hplaced

/-- Every reachable tree is placed. Assumes: the keys that are set are separated. -/
theorem PlacedStore.run (hsep : Separated K) {ops : List StringOp} (hs : PlacedStore K s)
    (hshaped : ThroughoutStore Layout.Wf s) (hops : ∀ op ∈ ops, SetsIn K op)
    (hrun : s.run ops = .ok s') : PlacedStore K s' := by
  induction ops generalizing s with
  | nil => rwa [← Except.ok.inj hrun]
  | cons op ops ih =>
    obtain ⟨t, hstep, hrest⟩ := bind_eq_ok_iff.mp hrun
    exact ih (hs.step hsep hshaped (hops op List.mem_cons_self) hstep).1
      (hshaped.step Layout.kept_wf hstep) (fun o ho ↦ hops o (List.mem_cons_of_mem _ ho)) hrest

/-- `Get` finds the same in two trees with the same entries under a key. -/
theorem PlacedStore.get_congr (hs : PlacedStore K s) (hs' : PlacedStore K s')
    (hsame : ∀ v, SlotContains s'.root k v ↔ SlotContains s.root k v) : s'.get k = s.get k := by
  by_cases hentry : ∃ v, SlotContains s.root k v
  · obtain ⟨v, hv⟩ := hentry
    rw [hs.get_of_contains hv, hs'.get_of_contains ((hsame v).mpr hv)]
  · have hnone := not_exists.mp hentry
    rw [hs.get_of_absent hnone, hs'.get_of_absent fun v hv ↦ hnone v ((hsame v).mp hv)]

theorem commonLength_append (x rest : GoString) : commonLength (x ++ rest) x = x.length := by
  induction x with
  | nil => cases rest <;> rfl
  | cons a x ih =>
    rw [List.cons_append, commonLength, if_pos rfl, ih]
    rfl

/-- The split of a leaf by a key that it continues with a byte 0: both leaves are at byte 0, the new
one in front. -/
theorem splitLeaf_hidden (x rest v w : GoString) :
    splitLeaf (x ++ 0 :: rest) v 0 x w =
      .ok (inner x (.node4 [0, 0] [leaf x w, leaf (x ++ 0 :: rest) v])) := by
  have hcommon : lcp (x ++ 0 :: rest) x 0 = x.length := commonLength_append x (0 :: rest)
  have hold : byteAt (x ++ 0 :: rest) x.length = 0 := byteAt_append x (0 :: rest) 0
  have hnew : byteAt x x.length = 0 := by simp [byteAt]
  rw [splitLeaf, hcommon, List.drop_zero, List.take_left, Nat.zero_add, hold, hnew]
  rfl

/-- A key that is set next to one that continues it with a byte 0 hides that one. -/
theorem get_of_hidden (x rest v w : GoString) :
    ∃ s s', ARTStore.new.run [.set (x ++ 0 :: rest) v] = .ok s ∧ s.step (.set x w) = .ok s' ∧
      s.get (x ++ 0 :: rest) = .ok (v, true) ∧ s'.get (x ++ 0 :: rest) = .ok ([], false) := by
  have hne : x ++ 0 :: rest ≠ x := by simp
  have hset : setFrom x w (x.length + 1) (leaf (x ++ 0 :: rest) v) 0 =
      .ok (inner x (.node4 [0, 0] [leaf x w, leaf (x ++ 0 :: rest) v])) := by
    rw [setFrom, if_neg hne, splitLeaf_hidden]
  refine ⟨⟨some (leaf (x ++ 0 :: rest) v), ∅⟩,
    ⟨some (inner x (.node4 [0, 0] [leaf x w, leaf (x ++ 0 :: rest) v])), ∅⟩, rfl, ?_, ?_, ?_⟩
  · have hlock : lock false = .ok () := rfl
    simp only [ARTStore.step, ARTStore.set, hlock, hset, bind, Except.bind]
    rfl
  · show getFrom (x ++ 0 :: rest) (leaf (x ++ 0 :: rest) v) 0 = _
    rw [getFrom, if_pos rfl]
  · have hstart : matchesPrefix (x ++ 0 :: rest) 0 x = true :=
      (matchesPrefix_iff List.nil_prefix).mpr (List.prefix_append _ _)
    have hbyte : byteAt (x ++ 0 :: rest) (0 + x.length) = 0 := by
      rw [Nat.zero_add]
      exact byteAt_append x (0 :: rest) 0
    have hfind : (Layout.node4 [0, 0] [leaf x w, leaf (x ++ 0 :: rest) v]).findChild
        (byteAt (x ++ 0 :: rest) (0 + x.length)) = .ok (some (leaf x w)) := by
      rw [hbyte]
      rfl
    show getFrom (x ++ 0 :: rest) (inner x _) 0 = _
    rw [getFrom_inner hstart hfind, Option.elim_some, getFrom, if_neg hne.symm]

/-- Calls of `Set` with keys of a set, and of `Del` with any keys, change what `Get` finds under
their own key only, in every reachable tree, exactly if no key of the set continues another one with
a byte 0. -/
theorem art_frame_iff (K : Set GoString) :
    (∀ ops s, (∀ op ∈ ops, SetsIn K op) → ARTStore.new.run ops = .ok s →
      ∀ op s', SetsIn K op → s.step op = .ok s' → ∀ k ≠ op.key, s'.get k = s.get k) ↔
      ∀ x ∈ K, ∀ y ∈ K, ¬x ++ [0] <+: y := by
  constructor
  · rintro hframe x hx y hy ⟨rest, rfl⟩
    rw [List.append_assoc, List.singleton_append] at hy
    obtain ⟨s, s', hrun, hstep, hbefore, hafter⟩ := get_of_hidden x rest [] []
    have hsame := hframe _ s (fun op hop key value heq ↦ ?_) hrun _ s' (fun key value heq ↦ ?_)
      hstep (x ++ 0 :: rest) (by simp [StringOp.key])
    · rw [hbefore, hafter] at hsame
      exact absurd (Prod.mk.inj (Except.ok.inj hsame)).2 nofun
    · obtain ⟨rfl, -⟩ := StringOp.set.inj ((List.mem_singleton.mp hop).symm.trans heq)
      exact hy
    · obtain ⟨rfl, -⟩ := StringOp.set.inj heq
      exact hx
  · intro hsep ops s hops hrun op s' hop hstep k hk
    have hnew : PlacedStore K ARTStore.new := fun _ h ↦ absurd h nofun
    have hshaped := (throughoutStore_new Layout.Wf).run Layout.kept_wf hrun
    have hs := hnew.run hsep (throughoutStore_new Layout.Wf) hops hrun
    obtain ⟨hs', hupdated⟩ := hs.step hsep hshaped hop hstep
    refine hs.get_congr hs' fun v ↦ ?_
    rw [hupdated k v, if_neg hk]

/-- `Set "a\0"`, then `Set "a"`: what was set first is not found any more. -/
theorem art_frame_broken :
    ∃ s s', ARTStore.new.run [.set [97, 0] [49]] = .ok s ∧ s.set [97] [50] = .ok s' ∧
      s.get [97, 0] = .ok ([49], true) ∧ s'.get [97, 0] = .ok ([], false) :=
  get_of_hidden [97] [] [49] [50]

end FluxCache.Store.ArtNode
