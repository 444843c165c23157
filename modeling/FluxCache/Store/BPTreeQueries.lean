import FluxCache.Foundation.Listing
import FluxCache.Store.BPTreeRefinement

/-!
# Ordered queries on the B+ tree

`PrefixKeys` and `RangeKeys` descend to the leaf of the first key that can match and walk the chain
of leaves from there. Both keep the keys that match and return at a key that lies behind all of
them, so they are one loop with two tests (`BPTreeStore.scanLeaves`).

The keys of the leaves from left to right are the stored keys in increasing order, whether or not a
leaf has been emptied by deletions (`Tree.lists_keys`). The keys in the leaves before the one the
descent ends in lie below the key it was made for. So the walk from that leaf meets every key that
can match, and the loop is a scan of sorted keys (`Tree.lists_scanLeaves`).
-/

set_option autoImplicit false
set_option relaxedAutoImplicit false

namespace FluxCache.Store

open FluxCache.Foundation

namespace BPTreeStore

/-- The loops of `PrefixKeys` and `RangeKeys`: from the leaf of `start` along the chain of leaves,
keeping the keys that pass `keep` and returning at another key that passes `stop`. A walk meets
every leaf at most once, so it takes no more steps than there are nodes. -/
def scanLeaves (s : BPTreeStore) (keep stop : GoString → Bool) (start : GoString) :
    Outcome (List GoString) := do
  let leaf ← s.searchLeaf start
  collectFrom (fun p ↦ .ok (s.heap.cell p).next)
    (fun p ↦ scan keep stop (s.heap.cell p).keys) s.heap.used (some leaf)

/-- `PrefixKeys`. -/
def prefixKeys (s : BPTreeStore) (start : GoString) : Outcome (List GoString) :=
  s.scanLeaves (fun k ↦ start.isPrefixOf k) (fun k ↦ start < k ∧ ¬start.isPrefixOf k) start

/-- `RangeKeys`. -/
def rangeKeys (s : BPTreeStore) (start stop : GoString) : Outcome (List GoString) :=
  s.scanLeaves (fun k ↦ start ≤ k ∧ k ≤ stop) (fun k ↦ stop < k) start

end BPTreeStore

namespace BPTreeRows

open BPTreeStore

variable {heap : Memory BpNode} {h : ℕ} {root : Pointer} {row : List Entry} {s : BPTreeStore}
  {m : GoMap GoString} {keep stop : GoString → Bool} {start : GoString} {q : GoString → Prop}

/-- The keys of a row of leaves from left to right. -/
def rowKeys (heap : Memory BpNode) (row : List Entry) : List GoString :=
  row.flatMap fun e ↦ (heap.cell e.2).keys

theorem rowKeys_eq (heap : Memory BpNode) (row : List Entry) :
    rowKeys heap row = (row.map Prod.snd).flatMap fun p ↦ (heap.cell p).keys := by
  rw [rowKeys, List.flatMap_map]

theorem LeafCell.mem_keys_iff {n : BpNode} (hn : LeafCell n) {k : GoString} :
    k ∈ n.keys ↔ ∃ v, (k, v) ∈ entries n := by
  rw [← hn.map_fst_entries, List.mem_map]
  constructor
  · rintro ⟨x, hx, rfl⟩
    exact ⟨x.2, hx⟩
  · rintro ⟨v, hv⟩
    exact ⟨(k, v), hv, rfl⟩

/-- The keys of the leaves from left to right are the stored keys in increasing order. -/
theorem Tree.lists_keys (hs : Tree heap root h) :
    Lists (fun k ↦ ∃ v, Stored heap (level heap h [(⊥, root)]) k v)
      (rowKeys heap (level heap h [(⊥, root)])) := by
  have hcross : (level heap h [(⊥, root)]).Pairwise fun a b ↦ ∀ k k',
      k ∈ (heap.cell a.2).keys → k' ∈ (heap.cell b.2).keys → k < k' := by
    refine hs.frontier.separated.imp_of_mem fun {a b} _ hb hab k k' hk hk' ↦ ?_
    exact WithBot.coe_lt_coe.mp ((hab.2 k hk).trans_le (hs.frontier.bounded b hb k' hk'))
  refine (lists_flatMap (fun e he ↦ ⟨(hs.leafCell he).sorted, fun k ↦ Iff.rfl⟩) hcross).congr
    fun k ↦ ?_
  constructor
  · rintro ⟨e, he, hk⟩
    obtain ⟨v, hv⟩ := (hs.leafCell he).mem_keys_iff.mp hk
    exact ⟨v, e, he, hv⟩
  · rintro ⟨v, e, he, hv⟩
    exact ⟨e, he, fst_mem_keys hv⟩

/-- A scan of the leaves that answers a query returns, and lists the stored keys it asks for. -/
theorem Tree.lists_scanLeaves (hs : Tree s.heap s.root h) (hscan : Scans q start keep stop) :
    ∃ keys, s.scanLeaves keep stop start = .ok keys ∧
      Lists (fun k ↦ (∃ v, Stored s.heap (level s.heap h [(⊥, s.root)]) k v) ∧ q k) keys := by
  obtain ⟨leaf, front, low, back, hsearch, hlevel, hlow, -⟩ := hs.searchLeaf_spec start
  have hkeys := hs.lists_keys
  have hlength := hs.length_level_le
  have hrow := hs.frontier
  rw [hlevel] at hlength hrow
  have hlinked := hrow.linked
  rw [List.map_append, List.map_cons] at hlinked
  have hwalk : s.scanLeaves keep stop start =
      .ok (scan keep stop (rowKeys s.heap ((low, leaf) :: back))).1 := by
    rw [scanLeaves, hsearch, rowKeys_eq, List.map_cons]
    refine collectFrom_eq (hlinked.suffix _) (fun p _ ↦ rfl) (fun p _ ↦ rfl) ?_
    rw [List.length_append, List.length_cons] at hlength
    rw [List.length_cons, List.length_map]
    omega
  have hsplit : rowKeys s.heap (level s.heap h [(⊥, s.root)]) =
      rowKeys s.heap front ++ rowKeys s.heap ((low, leaf) :: back) := by
    rw [hlevel, rowKeys, List.flatMap_append]
    rfl
  rw [hsplit] at hkeys
  refine ⟨_, hwalk, hscan.lists hkeys fun k hk ↦ ?_⟩
  -- a leaf before the one the descent ends in has only keys below the lower end of that one
  obtain ⟨e, he, hk⟩ := List.mem_flatMap.mp hk
  have hlt := ((List.pairwise_append.mp hrow.separated).2.2 e he (low, leaf) (by simp)).2 k hk
  exact WithBot.coe_lt_coe.mp (hlt.trans_le hlow)

theorem Represents.lists_scanLeaves (hs : Represents s m) (hscan : Scans q start keep stop) :
    ∃ keys, s.scanLeaves keep stop start = .ok keys ∧
      Lists (fun k ↦ (∃ v, m.lookup k = some v) ∧ q k) keys := by
  obtain ⟨h, htree, hm⟩ := hs
  obtain ⟨keys, hkeys, hlists⟩ := htree.lists_scanLeaves hscan
  refine ⟨keys, hkeys, hlists.congr fun k ↦ and_congr_left' (exists_congr fun v ↦ hm k v)⟩

theorem Represents.lists_prefixKeys (hs : Represents s m) (start : GoString) :
    ∃ keys, s.prefixKeys start = .ok keys ∧
      Lists (fun k ↦ (∃ v, m.lookup k = some v) ∧ start <+: k) keys :=
  hs.lists_scanLeaves (scans_isPrefix start)

theorem Represents.lists_rangeKeys (hs : Represents s m) (start stop : GoString) :
    ∃ keys, s.rangeKeys start stop = .ok keys ∧
      Lists (fun k ↦ (∃ v, m.lookup k = some v) ∧ start ≤ k ∧ k ≤ stop) keys :=
  hs.lists_scanLeaves (scans_range start stop)

/-- Ordered queries on the B+ tree are exact. After every history of `Set` and `Del` calls on a
fresh store, `PrefixKeys` returns the keys that `Get` finds and that start with the prefix, and
`RangeKeys` those that `Get` finds between the two ends, each of them once and in strictly
increasing order. -/
theorem bptree_queries_exact (ops : List StringOp) :
    ∃ s, BPTreeStore.new.run ops = .ok s ∧
      (∀ start, ∃ keys, s.prefixKeys start = .ok keys ∧
        Lists (fun k ↦ (∃ v, s.get k = .ok (v, true)) ∧ start <+: k) keys) ∧
      ∀ start stop, ∃ keys, s.rangeKeys start stop = .ok keys ∧
        Lists (fun k ↦ (∃ v, s.get k = .ok (v, true)) ∧ start ≤ k ∧ k ≤ stop) keys := by
  obtain ⟨s, hrun, hs⟩ := represents_run ops
  have hstored : ∀ k, (∃ v, (plainMap ops).lookup k = some v) ↔ ∃ v, s.get k = .ok (v, true) := by
    intro k
    obtain ⟨h, htree, hm⟩ := hs
    rw [htree.get_eq hm k]
    exact exists_congr fun v ↦ commaOk_eq_true_iff.symm
  refine ⟨s, hrun, fun start ↦ ?_, fun start stop ↦ ?_⟩
  · obtain ⟨keys, hkeys, hlists⟩ := hs.lists_prefixKeys start
    exact ⟨keys, hkeys, hlists.congr fun k ↦ and_congr_left' (hstored k)⟩
  · obtain ⟨keys, hkeys, hlists⟩ := hs.lists_rangeKeys start stop
    exact ⟨keys, hkeys, hlists.congr fun k ↦ and_congr_left' (hstored k)⟩

end BPTreeRows

end FluxCache.Store
