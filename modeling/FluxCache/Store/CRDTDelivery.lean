import FluxCache.Store.CRDT

/-!
# Merging states and delivering writes

Writes with timestamps can be spread over any number of replicas, each of which applies its own with
`SetWithTS`, and the replicas are then merged into one in any order and with any bracketing
(`MergeTree`). The strings and the clock of the result are those of a single store to which all
writes were delivered, provided that no key is written with two strings at one time.

Both sides are the same function of the set of writes. A store is a `Summary` of a set of writes if
it holds under every key a latest write of that key, and its clock is the greatest timestamp. A
delivery adds a write to the set (`Summary.deliver`), a merge unites two sets (`Summary.merge`), and
a set has only one summary (`Summary.eq`).
-/

set_option autoImplicit false
set_option relaxedAutoImplicit false

namespace FluxCache.Store

open FluxCache.Foundation

namespace CRDTStore

/-! ### Deliveries and merges -/

/-- The arguments of a `SetWithTS`. -/
structure TimedWrite where
  key : GoString
  value : GoString
  ts : UInt64

/-- The effect of a write. -/
def deliver (s : CRDTStore) (w : TimedWrite) : CRDTStore := s.setWithTS w.key w.value w.ts

/-- A fresh store after some writes. -/
def delivered (writes : List TimedWrite) : CRDTStore := writes.foldl deliver new

/-- A plan by which stores are merged into one: a store with the writes that it applies, in their
order, or a merge of the second part into the first, with the number of its first range over a
map. -/
inductive MergeTree
  | store (writes : List TimedWrite)
  | merge (into other : MergeTree) (i : ℕ)

/-- The writes that the stores of a plan apply. -/
def MergeTree.writes : MergeTree → List TimedWrite
  | .store writes => writes
  | .merge into other _ => into.writes ++ other.writes

/-- The store that a plan leads to. -/
def MergeTree.result (env : Environment) : MergeTree → CRDTStore
  | .store writes => delivered writes
  | .merge into other i => (into.result env).merge env i (other.result env)

/-! ### Summaries -/

/-- The writes of a key. -/
def writesOf (writes : Set TimedWrite) (key : GoString) : Set CRDTValue :=
  {v | ⟨key, v.value, v.ts⟩ ∈ writes}

/-- The store holds a latest write of every key, and its clock is the greatest timestamp. -/
structure Summary (writes : Set TimedWrite) (s : CRDTStore) : Prop where
  data : ∀ key, Latest (writesOf writes key) (s.data.lookup key)
  clock : IsGreatest (insert 0 (TimedWrite.ts '' writes)) s.clock

variable {writes others : Set TimedWrite} {s other : CRDTStore}

theorem writesOf_insert_self (w : TimedWrite) (writes : Set TimedWrite) :
    writesOf (insert w writes) w.key = insert ⟨w.value, w.ts⟩ (writesOf writes w.key) := by
  ext v
  obtain ⟨key, value, ts⟩ := w
  obtain ⟨value', ts'⟩ := v
  simp [writesOf]

theorem writesOf_insert_of_ne {w : TimedWrite} {key : GoString} (hkey : key ≠ w.key)
    (writes : Set TimedWrite) : writesOf (insert w writes) key = writesOf writes key := by
  ext v
  refine or_iff_right fun heq ↦ ?_
  exact hkey (congrArg TimedWrite.key heq)

theorem summary_new : Summary ∅ new where
  data := fun key ↦ latest_empty
  clock := by
    rw [Set.image_empty, insert_empty_eq]
    exact isGreatest_singleton

theorem Summary.deliver (h : Summary writes s) (w : TimedWrite) :
    Summary (insert w writes) (deliver s w) where
  data := fun key ↦ by
    rw [CRDTStore.deliver, setWithTS_eq]
    by_cases hkey : key = w.key
    · rw [hkey, lookup_mergeValue_self, writesOf_insert_self]
      exact (h.data w.key).offer _
    · rw [lookup_mergeValue_of_ne s hkey, writesOf_insert_of_ne hkey]
      exact h.data key
  clock := by
    rw [CRDTStore.deliver, setWithTS_eq, clock_mergeValue, Set.image_insert_eq, Set.insert_comm,
      max_comm]
    exact h.clock.insert w.ts

theorem summary_delivered (writes : List TimedWrite) :
    Summary {w | w ∈ writes} (delivered writes) := by
  induction writes using List.reverseRecOn with
  | nil =>
    have hnone : {w : TimedWrite | w ∈ ([] : List TimedWrite)} = ∅ :=
      Set.eq_empty_iff_forall_notMem.mpr fun _ ↦ List.not_mem_nil
    rw [hnone]
    exact summary_new
  | append_singleton writes w ih =>
    have hinsert : {x | x ∈ writes ++ [w]} = insert w {x | x ∈ writes} := by
      ext x
      show x ∈ writes ++ [w] ↔ x = w ∨ x ∈ writes
      rw [List.mem_append, List.mem_singleton, or_comm]
    rw [hinsert, delivered, List.foldl_append]
    exact ih.deliver w

/-- The clock after the first loop of a merge. -/
theorem clock_mergeValues (entries : List (GoString × CRDTValue)) (s : CRDTStore) :
    IsGreatest (insert s.clock {ts | ∃ entry ∈ entries, entry.2.ts = ts})
      (entries.foldl mergeValue s).clock := by
  induction entries generalizing s with
  | nil =>
    refine ⟨Or.inl rfl, ?_⟩
    rintro ts (rfl | ⟨entry, hentry, -⟩)
    · exact le_refl _
    · exact absurd hentry List.not_mem_nil
  | cons entry entries ih =>
    obtain ⟨hmem, hupper⟩ := ih (s.mergeValue entry)
    rw [clock_mergeValue] at hmem hupper
    refine ⟨?_, fun ts hts ↦ ?_⟩
    · rcases hmem with hmax | ⟨later, hlater, hts⟩
      · rcases max_choice s.clock entry.2.ts with hleft | hright
        · exact Or.inl (hmax.trans hleft)
        · exact Or.inr ⟨entry, List.mem_cons_self, (hmax.trans hright).symm⟩
      · exact Or.inr ⟨later, List.mem_cons_of_mem entry hlater, hts⟩
    · have hmax := hupper (Set.mem_insert _ _)
      rcases hts with rfl | ⟨later, hlater, rfl⟩
      · exact (le_max_left _ _).trans hmax
      · rcases List.mem_cons.mp hlater with rfl | hlater
        · exact (le_max_right _ _).trans hmax
        · exact hupper (Or.inr ⟨later, hlater, rfl⟩)

/-- The clock after a merge. -/
theorem clock_merge (env : Environment) (i : ℕ) (s other : CRDTStore) :
    IsGreatest (insert s.clock {ts | ∃ key v, other.data.lookup key = some v ∧ v.ts = ts})
      (s.merge env i other).clock := by
  have hentries : {ts | ∃ key v, other.data.lookup key = some v ∧ v.ts = ts} =
      {ts | ∃ entry ∈ env.entries i other.data, entry.2.ts = ts} := by
    ext ts
    constructor
    · rintro ⟨key, v, hlookup, hts⟩
      exact ⟨(key, v), mem_entries_iff.mpr hlookup, hts⟩
    · rintro ⟨⟨key, v⟩, hentry, hts⟩
      exact ⟨key, v, mem_entries_iff.mp hentry, hts⟩
  rw [merge, (data_mergeHashes _ _).2, hentries]
  exact clock_mergeValues _ s

theorem Summary.merge (h : Summary writes s) (hother : Summary others other) (env : Environment)
    (i : ℕ) : Summary (writes ∪ others) (s.merge env i other) where
  data := fun key ↦ by
    rw [lookup_merge]
    exact (h.data key).combine (hother.data key)
  clock := by
    obtain ⟨hmem, hupper⟩ := clock_merge env i s other
    have hclock := hupper (Set.mem_insert _ _)
    refine ⟨?_, ?_⟩
    · rcases hmem with heq | ⟨key, v, hlookup, hts⟩
      · rw [heq]
        refine Set.insert_subset_insert ?_ h.clock.1
        exact Set.image_mono Set.subset_union_left
      · exact Or.inr ⟨_, Or.inr ((hother.data key).mem v hlookup), hts⟩
    · rintro ts (rfl | ⟨w, hw | hw, rfl⟩)
      · exact (h.clock.2 (Set.mem_insert _ _)).trans hclock
      · exact (h.clock.2 (Or.inr ⟨w, hw, rfl⟩)).trans hclock
      · obtain ⟨top, htop, hle⟩ := (hother.data w.key).newest ⟨w.value, w.ts⟩ hw
        exact hle.trans (hupper (Or.inr ⟨w.key, top, htop, rfl⟩))

theorem summary_result (env : Environment) (tree : MergeTree) :
    Summary {w | w ∈ tree.writes} (tree.result env) := by
  induction tree with
  | store writes => exact summary_delivered writes
  | merge into other i hinto hother =>
    have hunion : {w | w ∈ (MergeTree.merge into other i).writes} =
        {w | w ∈ into.writes} ∪ {w | w ∈ other.writes} := by
      ext w
      exact List.mem_append
    rw [hunion]
    exact hinto.merge hother env i

/-- No key is written with two strings at one time. -/
def Consistent (writes : Set TimedWrite) : Prop :=
  ∀ w ∈ writes, ∀ w' ∈ writes, w.key = w'.key → w.ts = w'.ts → w.value = w'.value

/-- Consistent writes have one summary. -/
theorem Summary.eq (hwrites : Consistent writes) (h : Summary writes s)
    (hother : Summary writes other) : s.data = other.data ∧ s.clock = other.clock := by
  refine ⟨Finmap.ext_lookup fun key ↦ ?_, h.clock.unique hother.clock⟩
  refine (h.data key).unique (fun v hv w hw hts ↦ ?_) (hother.data key)
  exact Stamped.ext (hwrites _ hv _ hw rfl hts) hts

/-- Merging the replicas of consistent writes, in any order, with any bracketing and with any orders
of the iterations, gives the strings and the clock of one store to which the writes were delivered
in any order. Assumes: no key is written with two strings at one time, and the replicas have
received the writes, each write once. -/
theorem crdt_merge_eq_delivery (env : Environment) (tree : MergeTree) {writes : List TimedWrite}
    (hwrites : Consistent {w | w ∈ writes}) (hperm : tree.writes.Perm writes) :
    (tree.result env).data = (delivered writes).data ∧
      (tree.result env).clock = (delivered writes).clock := by
  have hsame : {w | w ∈ tree.writes} = {w | w ∈ writes} := by
    ext w
    exact hperm.mem_iff
  have htree := summary_result env tree
  rw [hsame] at htree
  exact htree.eq hwrites (summary_delivered writes)

/-- Two writes of one key on two replicas, of which the older one is merged in. -/
theorem crdt_merge_eq_delivery_two :
    ((MergeTree.merge (.store [⟨text "k", text "new", 2⟩]) (.store [⟨text "k", text "old", 1⟩])
        0).result stillClock).data =
      (delivered [⟨text "k", text "old", 1⟩, ⟨text "k", text "new", 2⟩]).data := by
  have hconsistent : Consistent {w | w ∈ [(⟨text "k", text "old", 1⟩ : TimedWrite),
      ⟨text "k", text "new", 2⟩]} := by
    intro w hw w' hw' _ hts
    rcases List.mem_pair.mp hw with rfl | rfl <;> rcases List.mem_pair.mp hw' with rfl | rfl
    · rfl
    · exact absurd hts (by decide)
    · exact absurd hts (by decide)
    · rfl
  exact (crdt_merge_eq_delivery stillClock (.merge (.store [_]) (.store [_]) 0) hconsistent
    (List.Perm.swap _ _ [])).1

end CRDTStore

end FluxCache.Store
