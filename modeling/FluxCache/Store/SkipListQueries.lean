import FluxCache.Foundation.Listing
import FluxCache.Store.SkipListRefinement

/-!
# Ordered queries on the skip list

`PrefixKeys` and `RangeKeys` search as `Get` does for the last node below the first key that can
match, and walk level 0 from the node after it. The loop of `PrefixKeys` ends at the first key
without the prefix, the loop of `RangeKeys` at the first key above the end.

Level 0 holds the stored keys in increasing order (`Chains.lists_keys`), and the nodes before the
place where the walk starts lie below the first key that can match. So both loops are scans of
sorted keys (`Represents.lists_walkFrom`).
-/

set_option autoImplicit false
set_option relaxedAutoImplicit false

namespace FluxCache.Store

open FluxCache.Foundation

namespace SkipListStore

/-- The walk on level 0 from the first node that is not below `start`. A walk meets every node at
most once, so it takes no more steps than there are nodes. -/
def walkFrom (s : SkipListStore) (start : GoString) (visit : GoString → List GoString × Bool) :
    Outcome (List GoString) := do
  let curr ← seek s.heap start s.level s.head
  let first ← index (s.heap.cell curr).next 0
  collectFrom (fun p ↦ index (s.heap.cell p).next 0) (fun p ↦ visit (s.heap.cell p).key)
    s.heap.used first

/-- `PrefixKeys`. -/
def prefixKeys (s : SkipListStore) (start : GoString) : Outcome (List GoString) :=
  s.walkFrom start fun k ↦ if start.isPrefixOf k then ([k], true) else ([], false)

/-- `RangeKeys`. -/
def rangeKeys (s : SkipListStore) (start stop : GoString) : Outcome (List GoString) :=
  s.walkFrom start fun k ↦
    if k ≤ stop then (if start ≤ k then [k] else [], true) else ([], false)

end SkipListStore

namespace SkipListChains

open SkipListStore

variable {s : SkipListStore} {base : List Pointer} {m : GoMap GoString}
  {keep stop : GoString → Bool} {start : GoString} {q : GoString → Prop}
  {visit : GoString → List GoString × Bool}

/-- The keys of the nodes of level 0 are the stored keys in increasing order. -/
theorem Chains.lists_keys (hs : Chains s base) (hm : Holds (entries s.heap base) m) :
    Lists (fun k ↦ ∃ v, m.lookup k = some v) (base.map fun p ↦ (s.heap.cell p).key) := by
  refine ⟨List.pairwise_map.mpr hs.sorted, fun k ↦ ?_⟩
  rw [List.mem_map]
  constructor
  · rintro ⟨p, hp, rfl⟩
    exact ⟨(s.heap.cell p).value, (hm _ _).mp (List.mem_map.mpr ⟨p, hp, rfl⟩)⟩
  · rintro ⟨v, hv⟩
    obtain ⟨p, hp, hentry⟩ := List.mem_map.mp ((hm k v).mpr hv)
    exact ⟨p, hp, congrArg Prod.fst hentry⟩

/-- Assumes: a walk whose visit of a key that is not below `start` is a step of a scan that answers
a query. The walk returns, and lists the stored keys the query asks for. -/
theorem Represents.lists_walkFrom (hs : Represents s m) (hscan : Scans q start keep stop)
    (hvisit : ∀ k, start ≤ k → visit k = scan keep stop [k]) :
    ∃ keys, s.walkFrom start visit = .ok keys ∧
      Lists (fun k ↦ (∃ v, m.lookup k = some v) ∧ q k) keys := by
  obtain ⟨base, hchains, hm⟩ := hs
  obtain ⟨before, old, after, rfl, hsite, -⟩ := hchains.exists_site start
  have hstart : ∀ p ∈ old ++ after, start ≤ (s.heap.cell p).key := by
    intro p hp
    rcases List.mem_append.mp hp with hp | hp
    · exact (hsite.old_eq p hp).ge
    · exact (hsite.lt_after p hp).le
  have hlength : (old ++ after).length ≤ s.heap.used := by
    have hnodup := (List.nodup_append.mp (List.nodup_cons.mp hchains.nodup).2).2.1
    refine length_le_of_nodup hnodup fun p hp ↦ hchains.lt_used p ?_
    exact List.mem_cons_of_mem _ (List.mem_append_right before hp)
  have hwalk : s.walkFrom start visit =
      .ok (scan keep stop ((old ++ after).map fun p ↦ (s.heap.cell p).key)).1 := by
    rw [walkFrom, hchains.seek_top hsite]
    show (index _ 0 >>= _) = _
    rw [hchains.index_lastBefore, List.map_eq_flatMap]
    exact collectFrom_eq hchains.linked_lastBefore.tail
      (fun p hp ↦ index_next (hchains.height_pos p (List.mem_append_right before hp)))
      (fun p hp ↦ hvisit _ (hstart p hp)) hlength
  have hkeys := hchains.lists_keys hm
  rw [List.map_append] at hkeys
  refine ⟨_, hwalk, hscan.lists hkeys fun k hk ↦ ?_⟩
  obtain ⟨p, hp, rfl⟩ := List.mem_map.mp hk
  exact hsite.before_lt p hp

theorem Represents.lists_prefixKeys (hs : Represents s m) (start : GoString) :
    ∃ keys, s.prefixKeys start = .ok keys ∧
      Lists (fun k ↦ (∃ v, m.lookup k = some v) ∧ start <+: k) keys := by
  refine hs.lists_walkFrom (scans_isPrefix start) fun k hk ↦ ?_
  rw [scan]
  by_cases hkeep : start.isPrefixOf k = true
  · rw [if_pos hkeep, if_pos hkeep]
    rfl
  · -- a key without the prefix that is not below it lies above it
    have hne : start ≠ k := by
      rintro rfl
      exact hkeep (List.isPrefixOf_iff_prefix.mpr List.prefix_rfl)
    rw [if_neg hkeep, if_neg hkeep, if_pos (decide_eq_true ⟨lt_of_le_of_ne hk hne, hkeep⟩)]

theorem Represents.lists_rangeKeys (hs : Represents s m) (start stop : GoString) :
    ∃ keys, s.rangeKeys start stop = .ok keys ∧
      Lists (fun k ↦ (∃ v, m.lookup k = some v) ∧ start ≤ k ∧ k ≤ stop) keys := by
  refine hs.lists_walkFrom (scans_range start stop) fun k hk ↦ ?_
  rw [scan, if_pos hk]
  by_cases hend : k ≤ stop
  · rw [if_pos hend, if_pos (decide_eq_true ⟨hk, hend⟩)]
    rfl
  · rw [if_neg hend, if_neg fun h ↦ hend (of_decide_eq_true h).2,
      if_pos (decide_eq_true (not_le.mp hend))]

/-- Ordered queries on the skip list are exact. After every history of `Set` and `Del` calls on a
fresh store, with any outcome of the coin flips, `PrefixKeys` returns the keys that `Get` finds and
that start with the prefix, and `RangeKeys` those that `Get` finds between the two ends, each of
them once and in strictly increasing order. -/
theorem skipList_queries_exact (ops : List StringOp) (coins : ℕ → Coins) :
    ∃ s, SkipListStore.new.run coins ops = .ok s ∧
      (∀ start, ∃ keys, s.prefixKeys start = .ok keys ∧
        Lists (fun k ↦ (∃ v, s.get k = .ok (v, true)) ∧ start <+: k) keys) ∧
      ∀ start stop, ∃ keys, s.rangeKeys start stop = .ok keys ∧
        Lists (fun k ↦ (∃ v, s.get k = .ok (v, true)) ∧ start ≤ k ∧ k ≤ stop) keys := by
  obtain ⟨s, hrun, hs⟩ := represents_new.run coins ops
  have hstored : ∀ k, (∃ v, (plainMap ops).lookup k = some v) ↔ ∃ v, s.get k = .ok (v, true) := by
    intro k
    rw [hs.get_eq k]
    exact exists_congr fun v ↦ commaOk_eq_true_iff.symm
  refine ⟨s, hrun, fun start ↦ ?_, fun start stop ↦ ?_⟩
  · obtain ⟨keys, hkeys, hlists⟩ := hs.lists_prefixKeys start
    exact ⟨keys, hkeys, hlists.congr fun k ↦ and_congr_left' (hstored k)⟩
  · obtain ⟨keys, hkeys, hlists⟩ := hs.lists_rangeKeys start stop
    exact ⟨keys, hkeys, hlists.congr fun k ↦ and_congr_left' (hstored k)⟩

end SkipListChains

end FluxCache.Store
