import FluxCache.Foundation.Environment

/-!
# The map store and the plain map of a history

`MapStore` keeps the strings and the hashes in two maps, and is the store every other one is
measured against. `StoreInterface` is what the stores have in common; `KeyedStore` adds the set
of keys that hold something, and `Write`, `Read` and `Reply` are the calls and answers as data. The
three hash operations are the same code in the map, B+ tree, skip list and
radix tree stores, so they are stated once on the map of hashes (`hashSet`, `hashGet`,
`hashGetAll`).

`plainMap ops` is the specification of the string part of a store: the finite map left by a
history of `Set` and `Del` calls. It holds a value under a key exactly when the last call on that
key was the `Set` of that value (`lookup_plainMap_eq_some_iff`).

The ordered stores keep their entries in key order. A call replaces the entry of its key by the one
it writes, if any (`edited`), and so keeps a list of entries that holds a map in step with the map
(`Holds.edited`).
-/

set_option autoImplicit false
set_option relaxedAutoImplicit false

namespace FluxCache.Store

open FluxCache.Foundation

/-- A map of hashes: every hash is a map from its fields to their values. -/
abbrev Hashes := GoMap (GoMap GoString)

/-- `HSet` on the map of hashes: a missing hash is made first. -/
def hashSet (hashes : Hashes) (hash key value : GoString) : Hashes :=
  hashes.insert hash (((hashes.lookup hash).getD ∅).insert key value)

/-- `HGet` on the map of hashes. -/
def hashGet (hashes : Hashes) (hash key : GoString) : GoString × Bool :=
  commaOk ((hashes.lookup hash).bind fun fields ↦ fields.lookup key)

/-- `HGetAll` on the map of hashes: a copy of the hash, or nil. -/
def hashGetAll (hashes : Hashes) (hash : GoString) : Option (GoMap GoString) :=
  hashes.lookup hash

/-! ### The map store -/

/-- The store backed by two maps. -/
@[ext] structure MapStore where
  strings : GoMap GoString
  hashes : Hashes

namespace MapStore

/-- `NewMapStore`. -/
def new : MapStore := ⟨∅, ∅⟩

/-- `MapStore.Set`. -/
def set (s : MapStore) (key value : GoString) : MapStore :=
  { s with strings := s.strings.insert key value }

/-- `MapStore.Del` drops the string and the hash of the key. -/
def del (s : MapStore) (key : GoString) : MapStore where
  strings := s.strings.erase key
  hashes := s.hashes.erase key

/-- `MapStore.Get`. -/
def get (s : MapStore) (key : GoString) : GoString × Bool :=
  commaOk (s.strings.lookup key)

/-- `MapStore.HSet`. -/
def hset (s : MapStore) (hash key value : GoString) : MapStore :=
  { s with hashes := hashSet s.hashes hash key value }

/-- `MapStore.HGet`. -/
def hget (s : MapStore) (hash key : GoString) : GoString × Bool :=
  hashGet s.hashes hash key

/-- `MapStore.HGetAll`. -/
def hgetAll (s : MapStore) (hash : GoString) : Option (GoMap GoString) :=
  hashGetAll s.hashes hash

/-- The keys that hold a string or a hash. -/
def keys (s : MapStore) : Finset GoString := s.strings.keys ∪ s.hashes.keys

end MapStore

/-! ### The interface of a store -/

/-- The `Store` interface: what a store can be asked, as functions of its state. -/
class StoreInterface (σ : Type) where
  set : σ → GoString → GoString → σ
  get : σ → GoString → GoString × Bool
  del : σ → GoString → σ
  hset : σ → GoString → GoString → GoString → σ
  hget : σ → GoString → GoString → GoString × Bool
  hgetAll : σ → GoString → Option (GoMap GoString)

/-- A store together with the keys that hold a string or a hash in it, and how the calls change
them. -/
class KeyedStore (σ : Type) extends StoreInterface σ where
  keys : σ → Finset GoString
  keys_set : ∀ s key value, keys (set s key value) = insert key (keys s)
  keys_del : ∀ s key, keys (del s key) = (keys s).erase key
  keys_hset : ∀ s hash key value, keys (hset s hash key value) = insert hash (keys s)
  mem_keys_of_get : ∀ s key, (get s key).2 = true → key ∈ keys s

instance : KeyedStore MapStore where
  set := MapStore.set
  get := MapStore.get
  del := MapStore.del
  hset := MapStore.hset
  hget := MapStore.hget
  hgetAll := MapStore.hgetAll
  keys := MapStore.keys
  keys_set := fun s key value ↦ by
    ext k
    simp [MapStore.keys, MapStore.set, Finmap.mem_keys, or_assoc]
  keys_del := fun s key ↦ by
    ext k
    simp [MapStore.keys, MapStore.del, Finmap.mem_keys, and_or_left]
  keys_hset := fun s hash key value ↦ by
    ext k
    simp [MapStore.keys, MapStore.hset, hashSet, Finmap.mem_keys, or_left_comm]
  mem_keys_of_get := fun s key h ↦ by
    have hsome : s.strings.lookup key ≠ none := by
      intro hnone
      rw [MapStore.get, hnone] at h
      exact absurd h (by simp [commaOk])
    refine Finset.mem_union_left _ (Finmap.mem_keys.mpr ?_)
    exact Finmap.lookup_isSome.mp (Option.isSome_iff_ne_none.mpr hsome)

/-! ### Writes, reads and replies -/

/-- A call that writes: `Set` or `HSet`. -/
inductive Write
  | set (key value : GoString)
  | hset (hash key value : GoString)
  deriving DecidableEq

/-- A call that reads: `Get`, `HGet` or `HGetAll`. -/
inductive Read
  | get (key : GoString)
  | hget (hash key : GoString)
  | hgetAll (hash : GoString)
  deriving DecidableEq

/-- What a call returns. -/
inductive Reply
  | nothing
  | value (found : GoString × Bool)
  | fields (found : Option (GoMap GoString))
  | flag (done : Bool)
  | duration (d : Duration)

/-- The key that a write is tracked under. -/
def Write.key : Write → GoString
  | set key _ => key
  | hset hash _ _ => hash

/-- The write on a store. -/
def Write.apply {σ : Type} [StoreInterface σ] (s : σ) : Write → σ
  | set key value => StoreInterface.set s key value
  | hset hash key value => StoreInterface.hset s hash key value

/-- The key whose deadline a read respects. -/
def Read.key : Read → GoString
  | get key => key
  | hget hash _ => hash
  | hgetAll hash => hash

/-- The read on a store. -/
def Read.answer {σ : Type} [StoreInterface σ] (s : σ) : Read → Reply
  | get key => .value (StoreInterface.get s key)
  | hget hash key => .value (StoreInterface.hget s hash key)
  | hgetAll hash => .fields (StoreInterface.hgetAll s hash)

/-- What a read returns for a key whose deadline is over. -/
def Read.missing : Read → Reply
  | get _ => .value ([], false)
  | hget _ _ => .value ([], false)
  | hgetAll _ => .fields none

/-! ### The plain map of a history -/

/-- A call that changes the string part of a store. -/
inductive StringOp
  | set (key value : GoString)
  | del (key : GoString)
  deriving DecidableEq, Repr

namespace StringOp

/-- The key a call is about. -/
def key : StringOp → GoString
  | set key _ => key
  | del key => key

/-- The effect of a call on a finite map. -/
def apply (strings : GoMap GoString) : StringOp → GoMap GoString
  | set key value => strings.insert key value
  | del key => strings.erase key

/-- What a call leaves under its key. -/
def written : StringOp → Option GoString
  | set _ value => some value
  | del _ => none

theorem lookup_apply_key (strings : GoMap GoString) (op : StringOp) :
    (op.apply strings).lookup op.key = op.written := by
  cases op with
  | set key value => exact Finmap.lookup_insert strings
  | del key => exact Finmap.lookup_erase key strings

theorem lookup_apply_of_ne (strings : GoMap GoString) {op : StringOp} {k : GoString}
    (h : op.key ≠ k) : (op.apply strings).lookup k = strings.lookup k := by
  cases op with
  | set key value => exact Finmap.lookup_insert_of_ne strings (Ne.symm h)
  | del key => exact Finmap.lookup_erase_ne (Ne.symm h)

end StringOp

/-- The finite map left by a history of calls, from the empty map. -/
def plainMap (ops : List StringOp) : GoMap GoString :=
  ops.foldl StringOp.apply ∅

theorem plainMap_append_singleton (ops : List StringOp) (op : StringOp) :
    plainMap (ops ++ [op]) = op.apply (plainMap ops) := by
  rw [plainMap, List.foldl_append]
  rfl

/-- The plain map holds `v` under `k` exactly when the last call on `k` was the `Set` of `v`. -/
theorem lookup_plainMap_eq_some_iff (ops : List StringOp) (k v : GoString) :
    (plainMap ops).lookup k = some v ↔
      ∃ before after, ops = before ++ .set k v :: after ∧ ∀ op ∈ after, op.key ≠ k := by
  induction ops using List.reverseRecOn with
  | nil =>
    constructor
    · intro h
      exact absurd h (by simp [plainMap])
    · rintro ⟨before, after, h, -⟩
      exact absurd h (by simp)
  | append_singleton ops op ih =>
    rw [plainMap_append_singleton]
    by_cases hkey : op.key = k
    · constructor
      · intro h
        cases op with
        | set key value =>
          obtain rfl : key = k := hkey
          have hvalue : value = v :=
            Option.some.inj ((Finmap.lookup_insert (plainMap ops)).symm.trans h)
          exact ⟨ops, [], by rw [hvalue], by simp⟩
        | del key =>
          obtain rfl : key = k := hkey
          exact absurd ((Finmap.lookup_erase key (plainMap ops)).symm.trans h) (by simp)
      · rintro ⟨before, after, hops, hafter⟩
        rcases append_singleton_eq_split hops with ⟨-, rfl, -⟩ | ⟨rest, rfl, -⟩
        · exact Finmap.lookup_insert (plainMap ops)
        · exact absurd hkey (hafter op (by simp))
    · rw [StringOp.lookup_apply_of_ne _ hkey, ih]
      constructor
      · rintro ⟨before, after, rfl, hafter⟩
        refine ⟨before, after ++ [op], by simp, fun other hother ↦ ?_⟩
        rcases List.mem_append.mp hother with h | h
        · exact hafter other h
        · rw [List.mem_singleton.mp h]
          exact hkey
      · rintro ⟨before, after, hops, hafter⟩
        rcases append_singleton_eq_split hops with ⟨-, rfl, -⟩ | ⟨rest, rfl, hrest⟩
        · exact absurd rfl hkey
        · exact ⟨before, rest, hrest, fun other hother ↦ hafter other (by simp [hother])⟩

/-! ### Entries in key order -/

section Entries

variable {op : StringOp} {below old above : List (GoString × GoString)} {m : GoMap GoString}

/-- The entries with the key of a call replaced by what the call writes. -/
def edited (op : StringOp) (below above : List (GoString × GoString)) :
    List (GoString × GoString) :=
  below ++ (op.written.map (Prod.mk op.key)).toList ++ above

theorem mem_edited_of_ne {k v : GoString} (hk : k ≠ op.key) (hold : ∀ x ∈ old, x.1 = op.key) :
    (k, v) ∈ edited op below above ↔ (k, v) ∈ below ++ old ++ above := by
  have hnew : (k, v) ∉ (op.written.map (Prod.mk op.key)).toList := by
    rw [Option.mem_toList, Option.map_eq_some_iff]
    rintro ⟨w, -, hw⟩
    exact hk (Prod.mk.inj hw).1.symm
  have hold' : (k, v) ∉ old := fun hmem ↦ hk (hold _ hmem)
  simp [edited, hnew, hold']

theorem mem_edited_key {v : GoString} (hbelow : ∀ x ∈ below, x.1 < op.key)
    (habove : ∀ x ∈ above, op.key < x.1) :
    (op.key, v) ∈ edited op below above ↔ op.written = some v := by
  have hb : (op.key, v) ∉ below := fun hmem ↦ lt_irrefl _ (hbelow _ hmem)
  have ha : (op.key, v) ∉ above := fun hmem ↦ lt_irrefl _ (habove _ hmem)
  simp [edited, hb, ha]

/-- A list of entries holds exactly a finite map. -/
def Holds (es : List (GoString × GoString)) (m : GoMap GoString) : Prop :=
  ∀ k v, (k, v) ∈ es ↔ m.lookup k = some v

/-- Assumes: entries that hold a map, split at the key of a call. The entries the call leaves hold
the map after the call. -/
theorem Holds.edited (hm : Holds (below ++ old ++ above) m) (hold : ∀ x ∈ old, x.1 = op.key)
    (hbelow : ∀ x ∈ below, x.1 < op.key) (habove : ∀ x ∈ above, op.key < x.1) :
    Holds (edited op below above) (op.apply m) := by
  intro k v
  by_cases hk : k = op.key
  · rw [hk, mem_edited_key hbelow habove, op.lookup_apply_key]
  · rw [mem_edited_of_ne hk hold, hm k v, op.lookup_apply_of_ne m (Ne.symm hk)]

end Entries

end FluxCache.Store
