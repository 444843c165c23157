import FluxCache.Foundation.Ownership
import FluxCache.Store.LockFree

/-!
# Who may change which object of the lock-free store

While a thread builds the clone of a bucket, all objects of the clone belong to it; everything that
has been published belongs to nobody. `PhaseInv` says this for one thread, together with what its
clone holds at every phase of the call, compared with the data that was loaded. A step of a thread
changes only objects that belong to it (`PhaseInv.advance`), so nothing of what holds for the other
threads, and no published data, is touched by it (`PhaseInv.evolves`, `HoldsData.contents_eq`). The
swap of the pointer gives all objects of the clone away.
-/

set_option autoImplicit false
set_option relaxedAutoImplicit false

namespace FluxCache.Store.LockFree

open FluxCache.Foundation

/-- The owners of the objects of the three kinds. -/
structure Owners (ι : Type) where
  maps : Pointer → Option ι
  tables : Pointer → Option ι
  data : Pointer → Option ι

variable {ι : Type} {count : ℕ} {s s' : LockFreeStore count} {own own' : Owners ι} {i j : ι}
  {holder : Option ι} {strings hashes old data : Pointer}

/-- The two maps of a bucket and the maps of its hashes belong to one holder. -/
structure Holds (s : LockFreeStore count) (own : Owners ι) (holder : Option ι)
    (strings hashes : Pointer) : Prop where
  heldStrings : s.maps.Held own.maps holder strings
  heldHashes : s.tables.Held own.tables holder hashes
  heldInner : ∀ hash p, (s.tables.cell hashes).lookup hash = some p → s.maps.Held own.maps holder p

/-- Bucket data with all its maps belongs to one holder. -/
structure HoldsData (s : LockFreeStore count) (own : Owners ι) (holder : Option ι)
    (data : Pointer) : Prop where
  heldData : s.data.Held own.data holder data
  heldMaps : Holds s own holder (s.data.cell data).strings (s.data.cell data).hashes

/-- The maps of a clone are different objects. -/
structure Separate (s : LockFreeStore count) (strings hashes : Pointer) : Prop where
  apart : ∀ hash p, (s.tables.cell hashes).lookup hash = some p → p ≠ strings
  distinct : ∀ hash hash' p, (s.tables.cell hashes).lookup hash = some p →
    (s.tables.cell hashes).lookup hash' = some p → hash = hash'

/-- A thread has changed only its own objects. -/
structure Evolves (i : ι) (s : LockFreeStore count) (own : Owners ι) (s' : LockFreeStore count)
    (own' : Owners ι) : Prop where
  maps : Memory.Evolves i s.maps own.maps s'.maps own'.maps
  tables : Memory.Evolves i s.tables own.tables s'.tables own'.tables
  data : Memory.Evolves i s.data own.data s'.data own'.data

/-! ### What the steps of another thread leave -/

theorem Holds.evolves (h : Holds s own holder strings hashes) (he : Evolves i s own s' own')
    (hholder : holder ≠ some i) : Holds s' own' holder strings hashes := by
  refine ⟨h.heldStrings.evolves he.maps hholder, h.heldHashes.evolves he.tables hholder,
    fun hash p hp ↦ ?_⟩
  rw [h.heldHashes.cell_eq he.tables hholder] at hp
  exact (h.heldInner hash p hp).evolves he.maps hholder

theorem Holds.contentsOf_eq (h : Holds s own holder strings hashes) (he : Evolves i s own s' own')
    (hholder : holder ≠ some i) : contentsOf s' strings hashes = contentsOf s strings hashes := by
  unfold contentsOf
  rw [h.heldStrings.cell_eq he.maps hholder, h.heldHashes.cell_eq he.tables hholder,
    mapValues_congr fun hash p hp ↦ (h.heldInner hash p hp).cell_eq he.maps hholder]

theorem HoldsData.cell_eq (h : HoldsData s own holder data) (he : Evolves i s own s' own')
    (hholder : holder ≠ some i) : s'.data.cell data = s.data.cell data :=
  h.heldData.cell_eq he.data hholder

theorem HoldsData.evolves (h : HoldsData s own holder data) (he : Evolves i s own s' own')
    (hholder : holder ≠ some i) : HoldsData s' own' holder data := by
  refine ⟨h.heldData.evolves he.data hholder, ?_⟩
  rw [h.cell_eq he hholder]
  exact h.heldMaps.evolves he hholder

theorem HoldsData.contents_eq (h : HoldsData s own holder data) (he : Evolves i s own s' own')
    (hholder : holder ≠ some i) : contents s' data = contents s data := by
  rw [contents, h.cell_eq he hholder]
  exact h.heldMaps.contentsOf_eq he hholder

theorem Separate.congr (h : Separate s strings hashes)
    (hcell : s'.tables.cell hashes = s.tables.cell hashes) : Separate s' strings hashes := by
  constructor
  · rw [hcell]
    exact h.apart
  · rw [hcell]
    exact h.distinct

/-! ### The phases -/

/-- The contents of the clone after the first of two changes. -/
def Update.begun (m : MapStore) : Update → MapStore
  | .write (.set key value) => m.set key value
  | .write (.hset hash _ _) =>
    { m with hashes := m.hashes.insert hash ((m.hashes.lookup hash).getD ∅) }
  | .del key => { m with strings := m.strings.erase key }

/-- The clones of the two maps, with the hashes that are still to clone. -/
structure Cloned (s : LockFreeStore count) (old strings hashes : Pointer)
    (rest : List GoString) : Prop where
  cloneStrings : s.maps.cell strings = (contents s old).strings
  cloneHashes : ∀ k, (contentsOf s strings hashes).hashes.lookup k =
    if k ∈ rest then none else (contents s old).hashes.lookup k
  nodup : rest.Nodup

/-- The clone of a bucket belongs to a thread and holds what the update has made of it so far. -/
structure Clone (s : LockFreeStore count) (own : Owners ι) (i : ι) (old data : Pointer)
    (m : MapStore) : Prop where
  heldOld : HoldsData s own none old
  heldData : HoldsData s own (some i) data
  separate : Separate s (s.data.cell data).strings (s.data.cell data).hashes
  contents_eq : contents s data = m

/-- What holds of a thread in a phase of its call. -/
def PhaseInv (s : LockFreeStore count) (own : Owners ι) (i : ι) : Phase → Prop
  | .finished _ => True
  | .stopped _ => False
  | .load _ => True
  | .cloneStrings _ old => HoldsData s own none old
  | .makeHashes _ old strings =>
    HoldsData s own none old ∧ s.maps.Held own.maps (some i) strings ∧
      s.maps.cell strings = (contents s old).strings
  | .cloneHash _ old strings hashes rest =>
    HoldsData s own none old ∧ Holds s own (some i) strings hashes ∧ Separate s strings hashes ∧
      Cloned s old strings hashes rest
  | .mutate _ old data => Clone s own i old data (contents s old)
  | .mutateHash u old data => Clone s own i old data (u.begun (contents s old))
  | .compareAndSwap u old data => Clone s own i old data (u.apply (contents s old))
  | .loadRead _ => True
  | .readData _ data => HoldsData s own none data
  | .readHash _ inner => s.maps.Held own.maps none inner

theorem Clone.evolves {m : MapStore} (h : Clone s own j old data m)
    (he : Evolves i s own s' own') (hji : j ≠ i) : Clone s' own' j old data m := by
  have hnone : (none : Option ι) ≠ some i := by simp
  have hsome : some j ≠ some i := fun hsame ↦ hji (Option.some.inj hsame)
  refine ⟨h.heldOld.evolves he hnone, h.heldData.evolves he hsome, ?_, ?_⟩
  · rw [h.heldData.cell_eq he hsome]
    exact h.separate.congr (h.heldData.heldMaps.heldHashes.cell_eq he.tables hsome)
  · rw [h.heldData.contents_eq he hsome, h.contents_eq]

/-- A step of another thread changes nothing of what holds of a thread. -/
theorem PhaseInv.evolves {phase : Phase} (h : PhaseInv s own j phase)
    (he : Evolves i s own s' own') (hji : j ≠ i) : PhaseInv s' own' j phase := by
  have hnone : (none : Option ι) ≠ some i := by simp
  have hsome : some j ≠ some i := fun hsame ↦ hji (Option.some.inj hsame)
  cases phase with
  | finished reply => exact trivial
  | stopped fault => exact h
  | load u => exact trivial
  | cloneStrings u old => exact HoldsData.evolves h he hnone
  | makeHashes u old strings =>
    obtain ⟨hold, hstrings, hcell⟩ := h
    refine ⟨hold.evolves he hnone, hstrings.evolves he.maps hsome, ?_⟩
    rw [hstrings.cell_eq he.maps hsome, hold.contents_eq he hnone, hcell]
  | cloneHash u old strings hashes rest =>
    obtain ⟨hold, hmaps, hseparate, hcloned⟩ := h
    refine ⟨hold.evolves he hnone, hmaps.evolves he hsome,
      hseparate.congr (hmaps.heldHashes.cell_eq he.tables hsome), ?_, ?_, hcloned.nodup⟩
    · rw [hmaps.heldStrings.cell_eq he.maps hsome, hold.contents_eq he hnone, hcloned.cloneStrings]
    · rw [hmaps.contentsOf_eq he hsome, hold.contents_eq he hnone]
      exact hcloned.cloneHashes
  | mutate u old data =>
    have hclone : Clone s own j old data (contents s old) := h
    have hcontents := hclone.heldOld.contents_eq he hnone
    show Clone s' own' j old data (contents s' old)
    rw [hcontents]
    exact hclone.evolves he hji
  | mutateHash u old data =>
    have hclone : Clone s own j old data (u.begun (contents s old)) := h
    show Clone s' own' j old data (u.begun (contents s' old))
    rw [hclone.heldOld.contents_eq he hnone]
    exact hclone.evolves he hji
  | compareAndSwap u old data =>
    have hclone : Clone s own j old data (u.apply (contents s old)) := h
    show Clone s' own' j old data (u.apply (contents s' old))
    rw [hclone.heldOld.contents_eq he hnone]
    exact hclone.evolves he hji
  | loadRead r => exact trivial
  | readData r data => exact HoldsData.evolves h he hnone
  | readHash r inner => exact Memory.Held.evolves h he.maps hnone

/-! ### What a change of one object does to the contents -/

theorem contentsOf_write_strings (h : Separate s strings hashes) (m : GoMap GoString) :
    contentsOf { s with maps := s.maps.write strings m } strings hashes =
      { contentsOf s strings hashes with strings := m } := by
  unfold contentsOf
  rw [Memory.cell_write_self,
    mapValues_congr fun hash p hp ↦ s.maps.cell_write_of_ne m (h.apart hash p hp)]

theorem contentsOf_write_inner (h : Separate s strings hashes) {hash : GoString} {inner : Pointer}
    (hinner : (s.tables.cell hashes).lookup hash = some inner) (m : GoMap GoString) :
    contentsOf { s with maps := s.maps.write inner m } strings hashes =
      { contentsOf s strings hashes with
        hashes := (contentsOf s strings hashes).hashes.insert hash m } := by
  have hstrings := s.maps.cell_write_of_ne m (h.apart hash inner hinner).symm
  unfold contentsOf
  rw [hstrings]
  congr 1
  refine Finmap.ext_lookup fun k ↦ ?_
  rw [lookup_mapValues]
  by_cases hk : k = hash
  · rw [hk, hinner, Finmap.lookup_insert, Option.map_some, Memory.cell_write_self]
  · rw [Finmap.lookup_insert_of_ne _ hk, lookup_mapValues]
    cases hlookup : (s.tables.cell hashes).lookup k with
    | none => rfl
    | some p =>
      have hne : p ≠ inner := by
        rintro rfl
        exact hk (h.distinct k hash p hlookup hinner)
      rw [Option.map_some, Option.map_some, s.maps.cell_write_of_ne m hne]

theorem contentsOf_write_hashes (t : GoMap Pointer) :
    contentsOf { s with tables := s.tables.write hashes t } strings hashes =
      { contentsOf s strings hashes with hashes := mapValues s.maps.cell t } := by
  unfold contentsOf
  rw [Memory.cell_write_self]

/-! ### The steps of a thread on its own clone -/

theorem buckets_cloneHash (s : LockFreeStore count) (old hashes : Pointer) (hash : GoString) :
    (cloneHash s old hashes hash).buckets = s.buckets := by
  unfold cloneHash
  cases (s.tables.cell (s.data.cell old).hashes).lookup hash with
  | none => rfl
  | some inner => rfl

theorem buckets_mutate (s : LockFreeStore count) (old data : Pointer) (u : Update) :
    (mutate s old data u).1.buckets = s.buckets := by
  cases u with
  | write w =>
    cases w with
    | set key value => rfl
    | hset hash key value =>
      simp only [mutate, makeHash]
      cases (s.tables.cell (s.data.cell data).hashes).lookup hash with
      | none => rfl
      | some inner => rfl
  | del key => rfl

theorem buckets_mutateHash (s : LockFreeStore count) (old data : Pointer) (u : Update) :
    (mutateHash s old data u).1.buckets = s.buckets := by
  cases u with
  | write w =>
    cases w with
    | set key value => rfl
    | hset hash key value =>
      simp only [mutateHash]
      cases (s.tables.cell (s.data.cell data).hashes).lookup hash with
      | none => rfl
      | some inner => rfl
  | del key => rfl

/-- The update that a step publishes. -/
def published [NeZero count] (s : LockFreeStore count) : Phase → Option Update
  | .compareAndSwap u old _ => if s.buckets (bucket count u.key) = old then some u else none
  | _ => none

theorem evolves_refl (i : ι) (s : LockFreeStore count) (own : Owners ι) : Evolves i s own s own :=
  ⟨.refl .., .refl .., .refl ..⟩

section Advance

theorem PhaseInv.cloneStrings {u : Update} (h : PhaseInv s own i (.cloneStrings u old)) :
    ∃ own', Evolves i s own { s with maps := s.maps.alloc (s.maps.cell (s.data.cell old).strings) }
        own' ∧
      PhaseInv { s with maps := s.maps.alloc (s.maps.cell (s.data.cell old).strings) } own' i
        (.makeHashes u old s.maps.used) := by
  have hold : HoldsData s own none old := h
  have he : Evolves i s own
      { s with maps := s.maps.alloc (s.maps.cell (s.data.cell old).strings) }
      { own with maps := Function.update own.maps s.maps.used (some i) } :=
    ⟨Memory.evolves_alloc i _ _ _, .refl .., .refl ..⟩
  refine ⟨_, he, hold.evolves he (by simp), Memory.held_alloc_used i _ _ _, ?_⟩
  rw [hold.contents_eq he (by simp), Memory.cell_alloc_used]
  rfl

theorem PhaseInv.makeHashes {u : Update} {strings : Pointer} (env : Environment)
    (h : PhaseInv s own i (.makeHashes u old strings)) :
    ∃ own', Evolves i s own
        { s with tables := s.tables.alloc ∅, requests := s.requests + 1 } own' ∧
      PhaseInv { s with tables := s.tables.alloc ∅, requests := s.requests + 1 } own' i
        (.cloneHash u old strings s.tables.used
          (env.order s.requests (s.tables.cell (s.data.cell old).hashes).keys)) := by
  obtain ⟨hold, hstrings, hcell⟩ := h
  have he : Evolves i s own { s with tables := s.tables.alloc ∅, requests := s.requests + 1 }
      { own with tables := Function.update own.tables s.tables.used (some i) } :=
    ⟨.refl .., Memory.evolves_alloc i _ _ _, .refl ..⟩
  have hempty : ∀ hash,
      ((s.tables.alloc (∅ : GoMap Pointer)).cell s.tables.used).lookup hash = none := by
    intro hash
    rw [Memory.cell_alloc_used, Finmap.lookup_empty]
  refine ⟨_, he, hold.evolves he (by simp), ⟨hstrings, Memory.held_alloc_used i _ _ _, ?_⟩,
    ⟨?_, ?_⟩, ⟨?_, fun k ↦ ?_, env.nodup_order _ _⟩⟩
  · intro hash p hp
    exact absurd ((hempty hash).symm.trans hp) (by simp)
  · intro hash p hp
    exact absurd ((hempty hash).symm.trans hp) (by simp)
  · intro hash hash' p hp
    exact absurd ((hempty hash).symm.trans hp) (by simp)
  · rw [hold.contents_eq he (by simp)]
    exact hcell
  · rw [hold.contents_eq he (by simp), contentsOf, lookup_mapValues, hempty]
    by_cases hk : k ∈ env.order s.requests (s.tables.cell (s.data.cell old).hashes).keys
    · rw [if_pos hk]
      rfl
    · have hnone : (s.tables.cell (s.data.cell old).hashes).lookup k = none := by
        refine Finmap.lookup_eq_none.mpr fun hmem ↦ hk ?_
        exact (env.mem_order _ _ _).mpr (Finmap.mem_keys.mpr hmem)
      rw [if_neg hk, contents, contentsOf, lookup_mapValues, hnone]

/-- A new map of the thread becomes the map of a hash of its clone. -/
theorem Holds.addHash (h : Holds s own (some i) strings hashes)
    (hseparate : Separate s strings hashes)
    (hash : GoString) (m : GoMap GoString) :
    ∃ own', Evolves i s own (addHash s hashes hash m) own' ∧ own'.data = own.data ∧
      Holds (addHash s hashes hash m) own' (some i) strings hashes ∧
      Separate (addHash s hashes hash m) strings hashes ∧
      contentsOf (addHash s hashes hash m) strings hashes =
        { contentsOf s strings hashes with
          hashes := (contentsOf s strings hashes).hashes.insert hash m } := by
  have hinsert : ∀ k p, ((LockFree.addHash s hashes hash m).tables.cell hashes).lookup k = some p →
      (k = hash ∧ p = s.maps.used) ∨ (s.tables.cell hashes).lookup k = some p := by
    intro k p hp
    rw [LockFree.addHash, Memory.cell_write_self] at hp
    by_cases hk : k = hash
    · rw [hk, Finmap.lookup_insert] at hp
      exact Or.inl ⟨hk, (Option.some.inj hp).symm⟩
    · rw [Finmap.lookup_insert_of_ne _ hk] at hp
      exact Or.inr hp
  have hnew : ∀ k p, (s.tables.cell hashes).lookup k = some p → p ≠ s.maps.used :=
    fun k p hp ↦ Nat.ne_of_lt (h.heldInner k p hp).1
  refine ⟨{ own with maps := Function.update own.maps s.maps.used (some i) },
    ⟨Memory.evolves_alloc i _ _ _, Memory.evolves_write h.heldHashes _, .refl ..⟩, rfl,
    ⟨h.heldStrings.alloc i _, h.heldHashes, fun k p hp ↦ ?_⟩,
    ⟨fun k p hp ↦ ?_, fun k k' p hp hp' ↦ ?_⟩, ?_⟩
  · rcases hinsert k p hp with ⟨-, rfl⟩ | hp
    · exact Memory.held_alloc_used i _ _ _
    · exact (h.heldInner k p hp).alloc i _
  · rcases hinsert k p hp with ⟨-, rfl⟩ | hp
    · exact (Nat.ne_of_lt h.heldStrings.1).symm
    · exact hseparate.apart k p hp
  · rcases hinsert k p hp with ⟨rfl, hused⟩ | hp
    · rcases hinsert k' p hp' with ⟨rfl, -⟩ | hp'
      · rfl
      · exact absurd hused (hnew k' p hp')
    · rcases hinsert k' p hp' with ⟨-, hused⟩ | hp'
      · exact absurd hused (hnew k p hp)
      · exact hseparate.distinct k k' p hp hp'
  · rw [LockFree.addHash]
    simp only [contentsOf, Memory.cell_write_self, mapValues_insert, Memory.cell_alloc_used,
      h.heldStrings.cell_alloc m]
    rw [mapValues_congr fun k p hp ↦ (h.heldInner k p hp).cell_alloc m]

theorem PhaseInv.cloneHash {u : Update} {hash : GoString} {rest : List GoString}
    (h : PhaseInv s own i (.cloneHash u old strings hashes (hash :: rest))) :
    ∃ own', Evolves i s own (cloneHash s old hashes hash) own' ∧
      PhaseInv (cloneHash s old hashes hash) own' i (.cloneHash u old strings hashes rest) := by
  obtain ⟨hold, hmaps, hseparate, hcloned⟩ := h
  obtain ⟨hhash, hnodup⟩ := List.nodup_cons.mp hcloned.nodup
  have hother : ∀ k, k ≠ hash →
      (contentsOf s strings hashes).hashes.lookup k =
        if k ∈ rest then none else (contents s old).hashes.lookup k := by
    intro k hk
    rw [hcloned.cloneHashes k]
    simp only [List.mem_cons, hk, false_or]
  have hhashes : (contents s old).hashes.lookup hash =
      ((s.tables.cell (s.data.cell old).hashes).lookup hash).map s.maps.cell := by
    rw [contents, contentsOf, lookup_mapValues]
  unfold LockFree.cloneHash
  cases hlookup : (s.tables.cell (s.data.cell old).hashes).lookup hash with
  | none =>
    refine ⟨own, evolves_refl i s own, hold, hmaps, hseparate, hcloned.cloneStrings, fun k ↦ ?_,
      hnodup⟩
    by_cases hk : k = hash
    · rw [hk, hcloned.cloneHashes hash, if_pos List.mem_cons_self, if_neg hhash, hhashes, hlookup]
      rfl
    · exact hother k hk
  | some inner =>
    obtain ⟨own', he, -, hmaps', hseparate', hcontents⟩ :=
      hmaps.addHash hseparate hash (s.maps.cell inner)
    refine ⟨own', he, hold.evolves he (by simp), hmaps', hseparate', ?_, fun k ↦ ?_, hnodup⟩
    · have hstrings := congrArg MapStore.strings hcontents
      rw [hold.contents_eq he (by simp)]
      exact hstrings.trans hcloned.cloneStrings
    · rw [hold.contents_eq he (by simp), hcontents]
      by_cases hk : k = hash
      · rw [hk, if_neg hhash, hhashes, hlookup, Finmap.lookup_insert]
        rfl
      · rw [Finmap.lookup_insert_of_ne _ hk]
        exact hother k hk

/-- The clone is complete, and the thread makes bucket data of it. -/
theorem PhaseInv.makeBucket {u : Update}
    (h : PhaseInv s own i (.cloneHash u old strings hashes [])) :
    ∃ own', Evolves i s own { s with data := s.data.alloc ⟨strings, hashes⟩ } own' ∧
      PhaseInv { s with data := s.data.alloc ⟨strings, hashes⟩ } own' i
        (.mutate u old s.data.used) := by
  obtain ⟨hold, hmaps, hseparate, hcloned⟩ := h
  have he : Evolves i s own { s with data := s.data.alloc ⟨strings, hashes⟩ }
      { own with data := Function.update own.data s.data.used (some i) } :=
    ⟨.refl .., .refl .., Memory.evolves_alloc i _ _ _⟩
  have hcell : (s.data.alloc ⟨strings, hashes⟩).cell s.data.used = ⟨strings, hashes⟩ :=
    Memory.cell_alloc_used ..
  refine ⟨_, he, hold.evolves he (by simp), ⟨Memory.held_alloc_used i _ _ _, ?_⟩, ?_, ?_⟩
  · show Holds _ _ _ ((s.data.alloc ⟨strings, hashes⟩).cell s.data.used).strings
      ((s.data.alloc ⟨strings, hashes⟩).cell s.data.used).hashes
    rw [hcell]
    exact ⟨hmaps.heldStrings, hmaps.heldHashes, hmaps.heldInner⟩
  · show Separate _ ((s.data.alloc ⟨strings, hashes⟩).cell s.data.used).strings
      ((s.data.alloc ⟨strings, hashes⟩).cell s.data.used).hashes
    rw [hcell]
    exact ⟨hseparate.apart, hseparate.distinct⟩
  · have hsame : contentsOf s strings hashes = contents s old := by
      refine MapStore.ext hcloned.cloneStrings (Finmap.ext_lookup fun k ↦ ?_)
      rw [hcloned.cloneHashes k, if_neg List.not_mem_nil]
    rw [hold.contents_eq he (by simp), ← hsame]
    show contentsOf _ ((s.data.alloc ⟨strings, hashes⟩).cell s.data.used).strings
      ((s.data.alloc ⟨strings, hashes⟩).cell s.data.used).hashes = _
    rw [hcell]
    rfl

/-- Assumes: a step of the owner of a clone that changes only maps, and what it leaves of them. -/
theorem Clone.step {m m' : MapStore} (h : Clone s own i old data m) (he : Evolves i s own s' own')
    (hdata : s'.data = s.data) (hown : own'.data = own.data)
    (hholds : Holds s' own' (some i) (s.data.cell data).strings (s.data.cell data).hashes)
    (hseparate : Separate s' (s.data.cell data).strings (s.data.cell data).hashes)
    (hcontents : contentsOf s' (s.data.cell data).strings (s.data.cell data).hashes = m') :
    Clone s' own' i old data m' := by
  refine ⟨h.heldOld.evolves he (by simp), ⟨?_, ?_⟩, ?_, ?_⟩
  · rw [hdata, hown]
    exact h.heldData.heldData
  · rw [hdata]
    exact hholds
  · rw [hdata]
    exact hseparate
  · rw [contents, hdata]
    exact hcontents

/-- A write to the map of strings of the clone. -/
theorem Clone.writeStrings {m : MapStore} (h : Clone s own i old data m) (t : GoMap GoString) :
    Evolves i s own (writeStrings s data t) own ∧
      Clone (writeStrings s data t) own i old data { m with strings := t } := by
  have he : Evolves i s own (LockFree.writeStrings s data t) own :=
    ⟨Memory.evolves_write h.heldData.heldMaps.heldStrings t, .refl .., .refl ..⟩
  refine ⟨he, h.step he rfl rfl ?_ ?_ ?_⟩
  · exact ⟨h.heldData.heldMaps.heldStrings, h.heldData.heldMaps.heldHashes,
      h.heldData.heldMaps.heldInner⟩
  · exact ⟨h.separate.apart, h.separate.distinct⟩
  · rw [← h.contents_eq]
    exact contentsOf_write_strings h.separate t

/-- The removal of a hash from the clone. -/
theorem Clone.eraseHash {m : MapStore} (h : Clone s own i old data m) (key : GoString) :
    Evolves i s own
        (writeHashes s data ((s.tables.cell (s.data.cell data).hashes).erase key)) own ∧
      Clone (writeHashes s data ((s.tables.cell (s.data.cell data).hashes).erase key)) own i old
        data { m with hashes := m.hashes.erase key } := by
  have he : Evolves i s own
      (writeHashes s data ((s.tables.cell (s.data.cell data).hashes).erase key)) own :=
    ⟨.refl .., Memory.evolves_write h.heldData.heldMaps.heldHashes _, .refl ..⟩
  have herase : ∀ k p, ((s.tables.write (s.data.cell data).hashes
      ((s.tables.cell (s.data.cell data).hashes).erase key)).cell
        (s.data.cell data).hashes).lookup k = some p →
      (s.tables.cell (s.data.cell data).hashes).lookup k = some p := by
    intro k p hp
    rw [Memory.cell_write_self] at hp
    by_cases hk : k = key
    · rw [hk, Finmap.lookup_erase] at hp
      exact absurd hp (by simp)
    · rwa [Finmap.lookup_erase_ne hk] at hp
  refine ⟨he, h.step he rfl rfl ⟨h.heldData.heldMaps.heldStrings, h.heldData.heldMaps.heldHashes,
    fun k p hp ↦ ?_⟩ ⟨fun k p hp ↦ ?_, fun k k' p hp hp' ↦ ?_⟩ ?_⟩
  · exact h.heldData.heldMaps.heldInner k p (herase k p hp)
  · exact h.separate.apart k p (herase k p hp)
  · exact h.separate.distinct k k' p (herase k p hp) (herase k' p hp')
  · rw [← h.contents_eq, contents]
    refine (contentsOf_write_hashes _).trans ?_
    rw [mapValues_erase]
    rfl

/-- `HSet` makes a missing hash in the clone. -/
theorem Clone.makeHash {m : MapStore} (h : Clone s own i old data m) (hash : GoString) :
    ∃ own', Evolves i s own (makeHash s data hash) own' ∧
      Clone (makeHash s data hash) own' i old data
        { m with hashes := m.hashes.insert hash ((m.hashes.lookup hash).getD ∅) } := by
  have hlookup : m.hashes.lookup hash =
      ((s.tables.cell (s.data.cell data).hashes).lookup hash).map s.maps.cell := by
    rw [← h.contents_eq, contents, contentsOf, lookup_mapValues]
  unfold LockFree.makeHash
  cases hhash : (s.tables.cell (s.data.cell data).hashes).lookup hash with
  | some inner =>
    rw [hhash, Option.map_some] at hlookup
    rw [hlookup, Option.getD_some, insert_of_lookup hlookup]
    exact ⟨own, evolves_refl i s own, h⟩
  | none =>
    rw [hhash, Option.map_none] at hlookup
    rw [hlookup, Option.getD_none]
    obtain ⟨own', he, hown, hmaps, hseparate, hcontents⟩ :=
      h.heldData.heldMaps.addHash h.separate hash ∅
    refine ⟨own', he, h.step he rfl hown hmaps hseparate ?_⟩
    rw [hcontents, ← h.contents_eq]
    rfl

/-- `HSet` writes a field of a hash of the clone. -/
theorem Clone.setField {m : MapStore} (h : Clone s own i old data m) {hash : GoString}
    {inner : Pointer}
    (hinner : (s.tables.cell (s.data.cell data).hashes).lookup hash = some inner)
    (t : GoMap GoString) :
    Evolves i s own { s with maps := s.maps.write inner t } own ∧
      Clone { s with maps := s.maps.write inner t } own i old data
        { m with hashes := m.hashes.insert hash t } := by
  have he : Evolves i s own { s with maps := s.maps.write inner t } own :=
    ⟨Memory.evolves_write (h.heldData.heldMaps.heldInner hash inner hinner) t, .refl .., .refl ..⟩
  refine ⟨he, h.step he rfl rfl ?_ ?_ ?_⟩
  · exact ⟨h.heldData.heldMaps.heldStrings, h.heldData.heldMaps.heldHashes,
      h.heldData.heldMaps.heldInner⟩
  · exact ⟨h.separate.apart, h.separate.distinct⟩
  · rw [← h.contents_eq]
    exact contentsOf_write_inner h.separate hinner t

theorem PhaseInv.mutate {u : Update} (h : PhaseInv s own i (.mutate u old data)) :
    ∃ own', Evolves i s own (mutate s old data u).1 own' ∧
      PhaseInv (mutate s old data u).1 own' i (mutate s old data u).2 := by
  have hclone : Clone s own i old data (contents s old) := h
  have hstrings : s.maps.cell (s.data.cell data).strings = (contents s old).strings := by
    rw [← hclone.contents_eq]
    rfl
  cases u with
  | write w =>
    cases w with
    | set key value =>
      obtain ⟨he, hclone'⟩ := hclone.writeStrings
        ((s.maps.cell (s.data.cell data).strings).insert key value)
      have hset : { contents s old with
          strings := (s.maps.cell (s.data.cell data).strings).insert key value } =
          (contents s old).set key value := by
        rw [hstrings]
        rfl
      rw [hset, ← hclone.heldOld.contents_eq he (by simp)] at hclone'
      exact ⟨own, he, hclone'⟩
    | hset hash key value =>
      obtain ⟨own', he, hclone'⟩ := hclone.makeHash hash
      rw [← hclone.heldOld.contents_eq he (by simp)] at hclone'
      exact ⟨own', he, hclone'⟩
  | del key =>
    obtain ⟨he, hclone'⟩ := hclone.writeStrings
      ((s.maps.cell (s.data.cell data).strings).erase key)
    have hdel : { contents s old with
        strings := (s.maps.cell (s.data.cell data).strings).erase key } =
        Update.begun (contents s old) (.del key) := by
      rw [hstrings]
      rfl
    rw [hdel, ← hclone.heldOld.contents_eq he (by simp)] at hclone'
    exact ⟨own, he, hclone'⟩

theorem PhaseInv.mutateHash {u : Update} (h : PhaseInv s own i (.mutateHash u old data)) :
    ∃ own', Evolves i s own (mutateHash s old data u).1 own' ∧
      PhaseInv (mutateHash s old data u).1 own' i (mutateHash s old data u).2 := by
  have hclone : Clone s own i old data (u.begun (contents s old)) := h
  cases u with
  | write w =>
    cases w with
    | set key value => exact ⟨own, evolves_refl i s own, hclone⟩
    | hset hash key value =>
      have hlookup : ((s.tables.cell (s.data.cell data).hashes).lookup hash).map s.maps.cell =
          some (((contents s old).hashes.lookup hash).getD ∅) := by
        have hhash := congrArg (fun m : MapStore ↦ m.hashes.lookup hash) hclone.contents_eq
        rw [contents, contentsOf, lookup_mapValues, Update.begun, Finmap.lookup_insert] at hhash
        exact hhash
      obtain ⟨inner, hinner, hcell⟩ := Option.map_eq_some_iff.mp hlookup
      obtain ⟨he, hclone'⟩ := hclone.setField hinner ((s.maps.cell inner).insert key value)
      have hhset : { Update.begun (contents s old) (.write (.hset hash key value)) with
          hashes := (Update.begun (contents s old)
            (.write (.hset hash key value))).hashes.insert hash
              ((s.maps.cell inner).insert key value) } =
          (contents s old).hset hash key value := by
        rw [hcell]
        simp only [Update.begun, MapStore.hset, hashSet, Finmap.insert_insert]
      rw [hhset, ← hclone.heldOld.contents_eq he (by simp)] at hclone'
      simp only [LockFree.mutateHash, hinner]
      exact ⟨own, he, hclone'⟩
  | del key =>
    obtain ⟨he, hclone'⟩ := hclone.eraseHash key
    have hdel : { Update.begun (contents s old) (.del key) with
        hashes := (Update.begun (contents s old) (.del key)).hashes.erase key } =
        (contents s old).del key := rfl
    rw [hdel, ← hclone.heldOld.contents_eq he (by simp)] at hclone'
    exact ⟨own, he, hclone'⟩

/-- The look of a read into published data. -/
theorem PhaseInv.readData {r : Read} (h : PhaseInv s own i (.readData r data)) :
    PhaseInv s own i (readData s data r) := by
  have hdata : HoldsData s own none data := h
  cases r with
  | get key => exact trivial
  | hget hash key =>
    rw [LockFree.readData]
    cases hlookup : (s.tables.cell (s.data.cell data).hashes).lookup hash with
    | none => exact trivial
    | some inner => exact hdata.heldMaps.heldInner hash inner hlookup
  | hgetAll hash =>
    rw [LockFree.readData]
    cases hlookup : (s.tables.cell (s.data.cell data).hashes).lookup hash with
    | none => exact trivial
    | some inner => exact hdata.heldMaps.heldInner hash inner hlookup

end Advance

/-! ### One step of one thread -/

/-- The updates of one bucket. -/
def onBucket [NeZero count] (b : Fin count) (updates : List Update) : List Update :=
  updates.filter fun u ↦ bucket count u.key = b

/-- Nobody owns the data of the buckets. -/
def Published (s : LockFreeStore count) (own : Owners ι) : Prop :=
  ∀ b, HoldsData s own none (s.buckets b)

variable [NeZero count]

/-- What a step of a thread does: it changes only objects of the thread, it keeps what holds of the
thread, and it leaves the contents of all buckets as they are, but for the update that it publishes
in one bucket. -/
structure Advanced (i : ι) (s : LockFreeStore count) (own : Owners ι) (phase : Phase)
    (result : LockFreeStore count × Phase) (own' : Owners ι) : Prop where
  evolves : Evolves i s own result.1 own'
  inv : PhaseInv result.1 own' i result.2
  published : Published result.1 own'
  contents_eq : ∀ b, contents result.1 (result.1.buckets b) =
    (onBucket b (LockFree.published s phase).toList).foldl Update.apply (contents s (s.buckets b))

/-- A step that publishes nothing. -/
theorem advanced_of_evolves {phase : Phase} {result : LockFreeStore count × Phase}
    (hpublished : Published s own) (hphase : published s phase = none)
    (hbuckets : result.1.buckets = s.buckets) (he : Evolves i s own result.1 own')
    (hinv : PhaseInv result.1 own' i result.2) : Advanced i s own phase result own' := by
  refine ⟨he, hinv, fun b ↦ ?_, fun b ↦ ?_⟩
  · rw [hbuckets]
    exact (hpublished b).evolves he (by simp)
  · rw [hbuckets, hphase]
    exact (hpublished b).contents_eq he (by simp)

variable [DecidableEq ι]

omit [NeZero count] in
/-- A bucket that is given the clone holds what the clone holds. -/
theorem Clone.publish {m : MapStore} (h : Clone s own i old data m) (hpublished : Published s own)
    (b : Fin count) :
    let given := { s with buckets := Function.update s.buckets b data }
    let free : Owners ι :=
      ⟨Memory.released i own.maps, Memory.released i own.tables, Memory.released i own.data⟩
    Evolves i s own given free ∧ Published given free ∧
      ∀ b', contents given (given.buckets b') =
        Function.update (fun b ↦ contents s (s.buckets b)) b m b' := by
  intro given free
  have he : Evolves i s own given free :=
    ⟨Memory.evolves_released .., Memory.evolves_released .., Memory.evolves_released ..⟩
  refine ⟨he, fun b' ↦ ?_, fun b' ↦ ?_⟩
  · show HoldsData given free none (Function.update s.buckets b data b')
    by_cases hb : b' = b
    · rw [hb, Function.update_self]
      exact ⟨h.heldData.heldData.released, h.heldData.heldMaps.heldStrings.released,
        h.heldData.heldMaps.heldHashes.released,
        fun hash p hp ↦ (h.heldData.heldMaps.heldInner hash p hp).released⟩
    · rw [Function.update_of_ne hb]
      exact (hpublished b').evolves he (by simp)
  · show LockFree.contents s (Function.update s.buckets b data b') = _
    by_cases hb : b' = b
    · rw [hb, Function.update_self, Function.update_self, h.contents_eq]
    · rw [Function.update_of_ne hb, Function.update_of_ne hb]

/-- The successful swap gives the clone away. -/
theorem PhaseInv.compareAndSwap {u : Update} (h : PhaseInv s own i (.compareAndSwap u old data))
    (hpublished : Published s own) (hold : s.buckets (bucket count u.key) = old) :
    Advanced i s own (.compareAndSwap u old data)
      ({ s with buckets := Function.update s.buckets (bucket count u.key) data },
        .finished .nothing)
      ⟨Memory.released i own.maps, Memory.released i own.tables, Memory.released i own.data⟩ := by
  have hclone : Clone s own i old data (u.apply (contents s old)) := h
  obtain ⟨he, hgiven, hcontents⟩ := hclone.publish hpublished (bucket count u.key)
  refine ⟨he, trivial, hgiven, fun b ↦ (hcontents b).trans ?_⟩
  rw [LockFree.published, if_pos hold, Option.toList_some, onBucket, List.filter_singleton]
  by_cases hb : b = bucket count u.key
  · rw [hb, Function.update_self, hold]
    simp
  · rw [Function.update_of_ne hb]
    simp [Ne.symm hb]

/-- Every step of a thread changes only objects of the thread. -/
theorem PhaseInv.advance {phase : Phase} (env : Environment) (h : PhaseInv s own i phase)
    (hpublished : Published s own) :
    ∃ own', Advanced i s own phase (advance env s phase) own' := by
  cases phase with
  | finished reply => exact ⟨own, advanced_of_evolves hpublished rfl rfl (evolves_refl ..) trivial⟩
  | stopped fault => exact absurd h id
  | load u =>
    exact ⟨own, advanced_of_evolves hpublished rfl rfl (evolves_refl ..) (hpublished _)⟩
  | cloneStrings u old =>
    obtain ⟨own', he, hinv⟩ := PhaseInv.cloneStrings h
    exact ⟨own', advanced_of_evolves hpublished rfl rfl he hinv⟩
  | makeHashes u old strings =>
    obtain ⟨own', he, hinv⟩ := PhaseInv.makeHashes env h
    exact ⟨own', advanced_of_evolves hpublished rfl rfl he hinv⟩
  | cloneHash u old strings hashes rest =>
    cases rest with
    | nil =>
      obtain ⟨own', he, hinv⟩ := PhaseInv.makeBucket h
      exact ⟨own', advanced_of_evolves hpublished rfl rfl he hinv⟩
    | cons hash rest =>
      obtain ⟨own', he, hinv⟩ := PhaseInv.cloneHash h
      exact ⟨own', advanced_of_evolves hpublished rfl (buckets_cloneHash ..) he hinv⟩
  | mutate u old data =>
    obtain ⟨own', he, hinv⟩ := PhaseInv.mutate h
    exact ⟨own', advanced_of_evolves hpublished rfl (buckets_mutate ..) he hinv⟩
  | mutateHash u old data =>
    obtain ⟨own', he, hinv⟩ := PhaseInv.mutateHash h
    exact ⟨own', advanced_of_evolves hpublished rfl (buckets_mutateHash ..) he hinv⟩
  | compareAndSwap u old data =>
    by_cases hold : s.buckets (bucket count u.key) = old
    · rw [LockFree.advance, if_pos hold]
      exact ⟨_, PhaseInv.compareAndSwap h hpublished hold⟩
    · rw [LockFree.advance, if_neg hold]
      exact ⟨own, advanced_of_evolves hpublished (if_neg hold) rfl (evolves_refl ..) trivial⟩
  | loadRead r =>
    exact ⟨own, advanced_of_evolves hpublished rfl rfl (evolves_refl ..) (hpublished _)⟩
  | readData r data =>
    exact ⟨own, advanced_of_evolves hpublished rfl rfl (evolves_refl ..) (PhaseInv.readData h)⟩
  | readHash r inner =>
    exact ⟨own, advanced_of_evolves hpublished rfl rfl (evolves_refl ..) trivial⟩

end FluxCache.Store.LockFree
