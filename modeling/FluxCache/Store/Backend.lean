import FluxCache.Store.BPTreeRefinement
import FluxCache.Store.Bitcask
import FluxCache.Store.CRDT
import FluxCache.Store.SkipListRefinement
import FluxCache.Store.SyncMap

/-!
# Stores that stand for the map store

A `Backend` is a store by its calls, together with the relation between its states and the map store
they stand for: every call returns what the map store returns and keeps the relation. The states
that stand for a map store are a store with total calls (`Backend.Carrier`), so the layers above may
be built on it as on any other.

All stores of the program but the radix tree are backends: the map itself, the sharded and the
lock-free store for every hash function and number of shards, the store on concurrent maps for every
order in which its ranges go, the skip list for all coins, the B+ tree, the replicated store and the
store with a log.
-/

set_option autoImplicit false
set_option relaxedAutoImplicit false

namespace FluxCache.Store

open FluxCache.Foundation LockFree

/-! ### Stores that answer alike -/

/-- A relation between two stores which every call that changes them keeps, and under which they
give the same answers. -/
structure AnswersAlike {σ τ : Type} [StoreInterface σ] [StoreInterface τ] (R : σ → τ → Prop) :
    Prop where
  write : ∀ {s t}, R s t → ∀ w : Write, R (w.apply s) (w.apply t)
  del : ∀ {s t}, R s t → ∀ key, R (StoreInterface.del s key) (StoreInterface.del t key)
  answer : ∀ {s t}, R s t → ∀ r : Read, r.answer s = r.answer t

/-- A store by its calls, and what its states stand for. -/
structure Backend where
  State : Type
  call : State → Request → Outcome (Reply × State)
  Represents : State → MapStore → Prop
  returns : ∀ {s m}, Represents s m → ∀ request, ∃ after,
    call s request = .ok ((m.serve request).1, after) ∧ Represents after (m.serve request).2

namespace Backend

variable (B : Backend)

/-- The states that stand for a map store. -/
def Carrier : Type := { s : B.State // ∃ m, B.Represents s m }

variable {B}

/-- A call from a state that stands for a map store leads to such a state. -/
theorem exists_represents {s : B.State} (hs : ∃ m, B.Represents s m) {request : Request}
    {result : Reply × B.State} (hcall : B.call s request = .ok result) :
    ∃ m, B.Represents result.2 m := by
  obtain ⟨m, hm⟩ := hs
  obtain ⟨after, hok, hafter⟩ := B.returns hm request
  rw [← Except.ok.inj (hok.symm.trans hcall)]
  exact ⟨_, hafter⟩

/-- Such a call does not fail. -/
theorem call_ne_error {s : B.State} (hs : ∃ m, B.Represents s m) (request : Request)
    (fault : Fault) : B.call s request ≠ .error fault := by
  obtain ⟨m, hm⟩ := hs
  obtain ⟨after, hok, -⟩ := B.returns hm request
  simp [hok]

/-- A call, without the outcomes that do not occur. -/
def serve (s : B.Carrier) (request : Request) : Reply × B.Carrier :=
  match hcall : B.call s.1 request with
  | .ok result => (result.1, ⟨result.2, exists_represents s.2 hcall⟩)
  | .error fault => absurd hcall (call_ne_error s.2 request fault)

/-- A call is a call of the map store. -/
theorem serve_spec (s : B.Carrier) {m : MapStore} (hm : B.Represents s.1 m) (request : Request) :
    (serve s request).1 = (m.serve request).1 ∧
      B.Represents (serve s request).2.1 (m.serve request).2 := by
  obtain ⟨after, hok, hafter⟩ := B.returns hm request
  unfold serve
  split
  · rename_i result hcall
    obtain rfl := Except.ok.inj (hok.symm.trans hcall)
    exact ⟨rfl, hafter⟩
  · rename_i fault hcall
    exact absurd hcall (call_ne_error s.2 request fault)

end Backend

/-- The value that a call has found. -/
def Reply.found : Reply → GoString × Bool
  | .value found => found
  | _ => ([], false)

/-- The hash that a call has found. -/
def Reply.foundFields : Reply → Option (GoMap GoString)
  | .fields found => found
  | _ => none

namespace Backend

variable {B : Backend}

instance : StoreInterface B.Carrier where
  set s key value := (serve s (.update (.write (.set key value)))).2
  get s key := (serve s (.read (.get key))).1.found
  del s key := (serve s (.update (.del key))).2
  hset s hash key value := (serve s (.update (.write (.hset hash key value)))).2
  hget s hash key := (serve s (.read (.hget hash key))).1.found
  hgetAll s hash := (serve s (.read (.hgetAll hash))).1.foundFields

/-- The store answers as the map store that it stands for. -/
theorem answersAlike (B : Backend) :
    AnswersAlike fun (s : B.Carrier) (m : MapStore) ↦ B.Represents s.1 m where
  write {s _} hm w := by
    cases w with
    | set key value => exact (serve_spec s hm _).2
    | hset hash key value => exact (serve_spec s hm _).2
  del {s _} hm key := (serve_spec s hm _).2
  answer {s m} hm r := by
    have hreply := (serve_spec s hm (.read r)).1
    cases r with
    | get key => exact congrArg (fun reply ↦ Reply.value reply.found) hreply
    | hget hash key => exact congrArg (fun reply ↦ Reply.value reply.found) hreply
    | hgetAll hash => exact congrArg (fun reply ↦ Reply.fields reply.foundFields) hreply

end Backend

/-! ### Stores whose calls cannot fail -/

section Total

variable {σ : Type} [StoreInterface σ]

/-- A call of a store. -/
def StoreInterface.serve (s : σ) : Request → Reply × σ
  | .update (.write w) => (.nothing, w.apply s)
  | .update (.del key) => (.nothing, StoreInterface.del s key)
  | .read r => (r.answer s, s)

/-- A store that answers as the map store it stands for is a backend. -/
def Backend.ofAlike {R : σ → MapStore → Prop} (hR : AnswersAlike R) : Backend where
  State := σ
  call s request := .ok (StoreInterface.serve s request)
  Represents := R
  returns := fun {s m} hm request ↦ by
    cases request with
    | update u =>
      cases u with
      | write w => exact ⟨w.apply s, rfl, hR.write hm w⟩
      | del key => exact ⟨StoreInterface.del s key, rfl, hR.del hm key⟩
    | read r => exact ⟨s, congrArg (fun reply ↦ Except.ok (reply, s)) (hR.answer hm r), hm⟩

end Total

theorem answersAlike_map : AnswersAlike fun s m : MapStore ↦ s = m where
  write h w := by rw [h]
  del h key := by rw [h]
  answer h r := by rw [h]

theorem answersAlike_bitcask : AnswersAlike fun (s : BitcaskStore) (m : MapStore) ↦ s.maps = m where
  write {s m} h w := by
    subst h
    cases w <;> rfl
  del {s m} h key := by
    subst h
    rfl
  answer {s m} h r := by
    subst h
    cases r <;> rfl

/-- The strings of the replicated store without their timestamps, and its hashes. -/
def CRDTStore.contents (s : CRDTStore) : MapStore :=
  ⟨mapValues Stamped.value s.data, s.hashes⟩

theorem answersAlike_crdt : AnswersAlike fun (s : CRDTStore) (m : MapStore) ↦ s.contents = m where
  write {s m} h w := by
    subst h
    cases w with
    | set key value => exact MapStore.ext (mapValues_insert ..) rfl
    | hset hash key value => rfl
  del {s m} h key := by
    subst h
    exact MapStore.ext (mapValues_erase ..) rfl
  answer {s m} h r := by
    subst h
    cases r with
    | get key =>
      exact congrArg (fun found ↦ Reply.value (commaOk found)) (lookup_mapValues ..).symm
    | hget hash key => rfl
    | hgetAll hash => rfl

/-! ### The B+ tree -/

namespace BPTreeStore

/-- One call. -/
def call (s : BPTreeStore) : Request → Outcome (Reply × BPTreeStore)
  | .update (.write (.set key value)) => return (.nothing, ← s.set key value)
  | .update (.write (.hset hash key value)) => return (.nothing, s.hset hash key value)
  | .update (.del key) => return (.nothing, ← s.del key)
  | .read (.get key) => return (.value (← s.get key), s)
  | .read (.hget hash key) => return (.value (s.hget hash key), s)
  | .read (.hgetAll hash) => return (.fields (s.hgetAll hash), s)

variable {s s' : BPTreeStore}

theorem hashes_linkIntoParent {left right parent : Pointer} {key : GoString}
    (h : s.linkIntoParent left key right = .ok (s', parent)) : s'.hashes = s.hashes := by
  obtain ⟨found, -, h⟩ := bind_eq_ok_iff.mp h
  cases found with
  | none => exact absurd h (by simp)
  | some found =>
    obtain ⟨keys, -, h⟩ := bind_eq_ok_iff.mp h
    obtain ⟨children, -, h⟩ := bind_eq_ok_iff.mp h
    rw [← (Prod.mk.inj (Except.ok.inj h)).1]

theorem hashes_splitInternal {steps : ℕ} {n : Pointer} (h : splitInternal steps s n = .ok s') :
    s'.hashes = s.hashes := by
  induction steps generalizing s n with
  | zero => exact absurd h (by simp [splitInternal])
  | succ steps ih =>
    obtain ⟨promoteKey, -, h⟩ := bind_eq_ok_iff.mp h
    dsimp only at h
    by_cases hroot : s.root = n
    · rw [if_pos hroot] at h
      rw [← Except.ok.inj h]
      rfl
    · rw [if_neg hroot] at h
      obtain ⟨⟨linked, parent⟩, hlinked, h⟩ := bind_eq_ok_iff.mp h
      have hhashes := hashes_linkIntoParent hlinked
      dsimp only at h
      by_cases hfull : bpOrder ≤ (linked.heap.cell parent).keys.length
      · rw [if_pos hfull] at h
        exact (ih h).trans hhashes
      · rw [if_neg hfull] at h
        rw [← Except.ok.inj h]
        exact hhashes

theorem hashes_insertIntoParent {left right : Pointer} {key : GoString}
    (h : s.insertIntoParent left key right = .ok s') : s'.hashes = s.hashes := by
  unfold insertIntoParent at h
  by_cases hroot : s.root = left
  · rw [if_pos hroot] at h
    rw [← Except.ok.inj h]
    rfl
  · rw [if_neg hroot] at h
    obtain ⟨⟨linked, parent⟩, hlinked, h⟩ := bind_eq_ok_iff.mp h
    have hhashes := hashes_linkIntoParent hlinked
    dsimp only at h
    by_cases hroom : (linked.heap.cell parent).keys.length < bpOrder
    · rw [if_pos hroom] at h
      rw [← Except.ok.inj h]
      exact hhashes
    · rw [if_neg hroom] at h
      exact (hashes_splitInternal h).trans hhashes

theorem hashes_split {leaf : Pointer} (h : s.split leaf = .ok s') : s'.hashes = s.hashes := by
  obtain ⟨promoteKey, -, h⟩ := bind_eq_ok_iff.mp h
  have hhashes := hashes_insertIntoParent h
  exact hhashes

/-- `Set` leaves the hashes as they are. -/
theorem hashes_set {key value : GoString} (h : s.set key value = .ok s') :
    s'.hashes = s.hashes := by
  obtain ⟨leaf, -, h⟩ := bind_eq_ok_iff.mp h
  dsimp only at h
  by_cases hold : (s.heap.cell leaf).keys[position (s.heap.cell leaf) key]? = some key
  · rw [if_pos hold] at h
    rw [← Except.ok.inj h]
  · rw [if_neg hold] at h
    obtain ⟨keys, -, h⟩ := bind_eq_ok_iff.mp h
    obtain ⟨values, -, h⟩ := bind_eq_ok_iff.mp h
    by_cases hroom : keys.length < bpOrder
    · rw [if_pos hroom] at h
      rw [← Except.ok.inj h]
    · rw [if_neg hroom] at h
      have hhashes := hashes_split h
      exact hhashes

theorem hashes_del {key : GoString} (h : s.del key = .ok s') :
    s'.hashes = s.hashes.erase key := by
  obtain ⟨leaf, -, h⟩ := bind_eq_ok_iff.mp h
  rw [← Except.ok.inj h]

end BPTreeStore

open BPTreeRows in
/-- The B+ tree. -/
def bptreeBackend : Backend where
  State := BPTreeStore
  call := BPTreeStore.call
  Represents s m := Represents s m.strings ∧ s.hashes = m.hashes
  returns := fun {s m} hm request ↦ by
    obtain ⟨hstrings, hhashes⟩ := hm
    cases request with
    | update u =>
      cases u with
      | write w =>
        cases w with
        | set key value =>
          obtain ⟨after, hset, hafter⟩ := hstrings.set key value
          refine ⟨after, ?_, hafter, (BPTreeStore.hashes_set hset).trans hhashes⟩
          rw [BPTreeStore.call, hset]
          rfl
        | hset hash key value =>
          exact ⟨s.hset hash key value, rfl, hstrings,
            congrArg (fun hashes ↦ hashSet hashes hash key value) hhashes⟩
      | del key =>
        obtain ⟨after, hdel, hafter⟩ := hstrings.del key
        refine ⟨after, ?_, hafter, (BPTreeStore.hashes_del hdel).trans ?_⟩
        · rw [BPTreeStore.call, hdel]
          rfl
        · exact congrArg (Finmap.erase key) hhashes
    | read r =>
      refine ⟨s, ?_, hstrings, hhashes⟩
      cases r with
      | get key =>
        obtain ⟨h, htree, hagrees⟩ := hstrings
        rw [BPTreeStore.call, htree.get_eq hagrees key]
        rfl
      | hget hash key =>
        exact congrArg (fun hashes ↦ Except.ok (Reply.value (hashGet hashes hash key), s)) hhashes
      | hgetAll hash =>
        exact congrArg (fun hashes ↦ Except.ok (Reply.fields (hashGetAll hashes hash), s)) hhashes

/-! ### The skip list -/

namespace SkipListStore

/-- One call, where the n-th `Set` flips the coins `coins n`. -/
def call (coins : ℕ → Coins) (state : SkipListStore × ℕ) :
    Request → Outcome (Reply × (SkipListStore × ℕ))
  | .update (.write (.set key value)) =>
    return (.nothing, (← state.1.set (coins state.2) key value, state.2 + 1))
  | .update (.write (.hset hash key value)) =>
    return (.nothing, (state.1.hset hash key value, state.2))
  | .update (.del key) => return (.nothing, (← state.1.del key, state.2))
  | .read (.get key) => return (.value (← state.1.get key), state)
  | .read (.hget hash key) => return (.value (state.1.hget hash key), state)
  | .read (.hgetAll hash) => return (.fields (state.1.hgetAll hash), state)

variable {s s' : SkipListStore}

/-- `Set` leaves the hashes as they are. -/
theorem hashes_set {coins : Coins} {key value : GoString} (h : s.set coins key value = .ok s') :
    s'.hashes = s.hashes := by
  obtain ⟨place, -, h⟩ := bind_eq_ok_iff.mp h
  obtain ⟨found, -, h⟩ := bind_eq_ok_iff.mp h
  cases found with
  | some n => rw [← Except.ok.inj h]
  | none =>
    obtain ⟨prev, -, h⟩ := bind_eq_ok_iff.mp h
    obtain ⟨heap, -, h⟩ := bind_eq_ok_iff.mp h
    rw [← Except.ok.inj h]

theorem hashes_del {key : GoString} (h : s.del key = .ok s') :
    s'.hashes = s.hashes.erase key := by
  obtain ⟨place, -, h⟩ := bind_eq_ok_iff.mp h
  obtain ⟨found, -, h⟩ := bind_eq_ok_iff.mp h
  cases found with
  | none => rw [← Except.ok.inj h]
  | some n =>
    obtain ⟨heap, -, h⟩ := bind_eq_ok_iff.mp h
    rw [← Except.ok.inj h]

end SkipListStore

/-- The chains of a skip list do not depend on its hashes. -/
theorem SkipListChains.Represents.withHashes {s : SkipListStore} {m : GoMap GoString}
    (hs : SkipListChains.Represents s m) (hashes : Hashes) :
    SkipListChains.Represents { s with hashes := hashes } m := by
  obtain ⟨base, hchains, hm⟩ := hs
  exact ⟨base, hchains.congr s.heap rfl (fun _ ↦ rfl) (fun _ ↦ rfl) hashes, hm⟩

open SkipListChains in
/-- The skip list, with the coins of all its calls. -/
def skipListBackend (coins : ℕ → Coins) : Backend where
  State := SkipListStore × ℕ
  call := SkipListStore.call coins
  Represents state m := Represents state.1 m.strings ∧ state.1.hashes = m.hashes
  returns := fun {state m} hm request ↦ by
    obtain ⟨hstrings, hhashes⟩ := hm
    cases request with
    | update u =>
      cases u with
      | write w =>
        cases w with
        | set key value =>
          obtain ⟨after, hset, hafter⟩ := hstrings.set (coins state.2) key value
          refine ⟨(after, state.2 + 1), ?_, hafter, (SkipListStore.hashes_set hset).trans hhashes⟩
          rw [SkipListStore.call, hset]
          rfl
        | hset hash key value =>
          exact ⟨(state.1.hset hash key value, state.2), rfl, hstrings.withHashes _,
            congrArg (fun hashes ↦ hashSet hashes hash key value) hhashes⟩
      | del key =>
        obtain ⟨after, hdel, hafter⟩ := hstrings.del key
        refine ⟨(after, state.2), ?_, hafter, (SkipListStore.hashes_del hdel).trans ?_⟩
        · rw [SkipListStore.call, hdel]
          rfl
        · exact congrArg (Finmap.erase key) hhashes
    | read r =>
      refine ⟨state, ?_, hstrings, hhashes⟩
      cases r with
      | get key =>
        rw [SkipListStore.call, hstrings.get_eq key]
        rfl
      | hget hash key =>
        exact congrArg (fun hashes ↦ Except.ok (Reply.value (hashGet hashes hash key), state))
          hhashes
      | hgetAll hash =>
        exact congrArg (fun hashes ↦ Except.ok (Reply.fields (hashGetAll hashes hash), state))
          hhashes

/-! ### The stores in parts -/

/-- The sharded store, for a hash function in place of FNV-64a. -/
def shardedBackend (sum64 : GoString → UInt64) : Backend where
  State := ShardedStore
  call s := s.call sum64
  Represents := ShardedStore.Represents sum64
  returns := fun hm request ↦ hm.call request

/-- The lock-free store, for a hash function in place of FNV-64a. -/
def lockFreeBackend (sum64 : GoString → UInt64) (env : Environment) (count : ℕ) [NeZero count] :
    Backend where
  State := LockFreeStore count
  call s := callBy (bucketBy sum64 count) env s
  Represents := LockFree.Represents (bucketBy sum64 count)
  returns := fun hm request ↦ hm.call env request

/-- The store on concurrent maps. -/
def syncMapBackend (order : RangeOrder) : Backend where
  State := SyncMapStore
  call s := s.call order
  Represents := SyncMapStore.Represents
  returns := fun hm request ↦ hm.call order request

end FluxCache.Store
