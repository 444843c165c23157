import Mathlib.Algebra.GroupWithZero.Nat
import FluxCache.Foundation.Interleaving
import FluxCache.Foundation.Memory
import FluxCache.Store.MapStore

/-!
# The lock-free store

`LockFreeStore` has an atomic pointer for every bucket, and the bucket data behind it: two maps, one
of which has a map for every hash. Maps are references, so the model has three memories: the maps
from strings to strings, the maps from hashes to such maps, and the bucket data with its two
references. `contents` is what the data of a bucket holds.

An update loads the pointer of its bucket, clones the data with all nested maps, changes the clone
and tries to swap the pointer; when another update was faster, it starts again from the load. A read
loads the pointer once and looks into the data behind it. Every load, every swap, every copy of one
map and every change of one map is one atomic step of a thread, and a thread is in a `Phase` between
two of them. Memory is never used twice, as under a garbage collector as long as a pointer is held.
-/

set_option autoImplicit false
set_option relaxedAutoImplicit false

namespace FluxCache.Store

open FluxCache.Foundation

namespace LockFree

/-! ### Buckets -/

/-- The 64-bit FNV-1a hash. -/
def fnv64a (key : GoString) : UInt64 :=
  key.foldl (fun h b ↦ (h ^^^ b.toUInt64) * 1099511628211) 14695981039346656037

/-- The number of buckets that `NewLockFreeStore` makes. -/
def bucketCount (shardCount : ℤ) : ℕ := if shardCount ≤ 0 then 256 else shardCount.toNat

/-- The index that `bucket` computes lies in the slice of buckets. -/
theorem mask_lt (count : ℕ) [NeZero count] (h : UInt64) :
    (h &&& UInt64.ofNat (count - 1)).toNat < count := by
  have hmask : (UInt64.ofNat (count - 1)).toNat ≤ count - 1 := Nat.mod_le _ _
  have hand : (h &&& UInt64.ofNat (count - 1)).toNat ≤ (UInt64.ofNat (count - 1)).toNat := by
    rw [UInt64.toNat_and]
    exact Nat.and_le_right
  have hpos := Nat.pos_of_ne_zero (NeZero.ne count)
  omega

instance (shardCount : ℤ) : NeZero (bucketCount shardCount) := by
  refine ⟨?_⟩
  unfold bucketCount
  by_cases h : shardCount ≤ 0
  · rw [if_pos h]
    decide
  · rw [if_neg h]
    omega

/-- `bucket`: the bucket of a key. -/
def bucket (count : ℕ) [NeZero count] (key : GoString) : Fin count :=
  ⟨(fnv64a key &&& UInt64.ofNat (count - 1)).toNat, mask_lt count (fnv64a key)⟩

/-! ### The state -/

/-- `bucketData`: references to the map of strings and to the map of hashes. -/
structure BucketData where
  strings : Pointer
  hashes : Pointer

end LockFree

open LockFree

/-- The store: the memories of the three kinds of objects and the pointers of the buckets. The last
field counts the requests to the environment so far. -/
structure LockFreeStore (count : ℕ) where
  maps : Memory (GoMap GoString)
  tables : Memory (GoMap Pointer)
  data : Memory BucketData
  buckets : Fin count → Pointer
  requests : ℕ

/-- `NewLockFreeStore`: every bucket has data with two empty maps. -/
def LockFreeStore.new (count : ℕ) : LockFreeStore count where
  maps := ⟨fun _ ↦ ∅, count⟩
  tables := ⟨fun _ ↦ ∅, count⟩
  data := ⟨fun p ↦ ⟨p, p⟩, count⟩
  buckets := fun b ↦ b
  requests := 0

namespace LockFree

variable {count : ℕ}

/-- What a map of strings and a map of hashes hold together. -/
def contentsOf (s : LockFreeStore count) (strings hashes : Pointer) : MapStore where
  strings := s.maps.cell strings
  hashes := mapValues s.maps.cell (s.tables.cell hashes)

/-- What bucket data holds. -/
def contents (s : LockFreeStore count) (data : Pointer) : MapStore :=
  contentsOf s (s.data.cell data).strings (s.data.cell data).hashes

/-! ### The calls -/

/-- A call that changes the store. -/
inductive Update
  | write (w : Write)
  | del (key : GoString)

/-- The key that selects the bucket. -/
def Update.key : Update → GoString
  | write w => w.key
  | del key => key

/-- The effect of an update on the contents of its bucket. -/
def Update.apply (m : MapStore) : Update → MapStore
  | write w => w.apply m
  | del key => m.del key

/-- A call of the store. -/
inductive Request
  | update (u : Update)
  | read (r : Read)

/-- What a thread does next. The pointers of an update are the data it has loaded, the clones of its
two maps, and then its own data with these clones; `rest` are the hashes that are still to clone. A
thread that has stopped has panicked. -/
inductive Phase
  | finished (reply : Reply)
  | stopped (fault : Fault)
  | load (u : Update)
  | cloneStrings (u : Update) (old : Pointer)
  | makeHashes (u : Update) (old strings : Pointer)
  | cloneHash (u : Update) (old strings hashes : Pointer) (rest : List GoString)
  | mutate (u : Update) (old data : Pointer)
  | mutateHash (u : Update) (old data : Pointer)
  | compareAndSwap (u : Update) (old data : Pointer)
  | loadRead (r : Read)
  | readData (r : Read) (data : Pointer)
  | readHash (r : Read) (inner : Pointer)

namespace Phase

/-- The first phase of a call. -/
def enter : Request → Phase
  | .update u => load u
  | .read r => loadRead r

/-- The call of the thread has returned. -/
def idle : Phase → Bool
  | finished _ => true
  | _ => false

end Phase

/-- `hashes[hash] = m` for a new map. -/
def addHash (s : LockFreeStore count) (hashes : Pointer) (hash : GoString) (m : GoMap GoString) :
    LockFreeStore count :=
  { s with
    maps := s.maps.alloc m
    tables := s.tables.write hashes ((s.tables.cell hashes).insert hash s.maps.used) }

/-- One round of the loop of `cloneBucket`: the clone of the map of one hash. -/
def cloneHash (s : LockFreeStore count) (old hashes : Pointer) (hash : GoString) :
    LockFreeStore count :=
  match (s.tables.cell (s.data.cell old).hashes).lookup hash with
  | none => s
  | some inner => addHash s hashes hash (s.maps.cell inner)

/-- A write to the map of strings of bucket data. -/
def writeStrings (s : LockFreeStore count) (data : Pointer) (strings : GoMap GoString) :
    LockFreeStore count :=
  { s with maps := s.maps.write (s.data.cell data).strings strings }

/-- A write to the map of hashes of bucket data. -/
def writeHashes (s : LockFreeStore count) (data : Pointer) (hashes : GoMap Pointer) :
    LockFreeStore count :=
  { s with tables := s.tables.write (s.data.cell data).hashes hashes }

/-- `HSet` on the clone: a missing hash is made. -/
def makeHash (s : LockFreeStore count) (data : Pointer) (hash : GoString) : LockFreeStore count :=
  match (s.tables.cell (s.data.cell data).hashes).lookup hash with
  | some _ => s
  | none => addHash s (s.data.cell data).hashes hash ∅

/-- The first change of the clone by an update, and what follows. -/
def mutate (s : LockFreeStore count) (old data : Pointer) : Update → LockFreeStore count × Phase
  | .write (.set key value) =>
    (writeStrings s data ((s.maps.cell (s.data.cell data).strings).insert key value),
      .compareAndSwap (.write (.set key value)) old data)
  | .write (.hset hash key value) =>
    (makeHash s data hash, .mutateHash (.write (.hset hash key value)) old data)
  | .del key =>
    (writeStrings s data ((s.maps.cell (s.data.cell data).strings).erase key),
      .mutateHash (.del key) old data)

/-- The second change of the clone by an update. -/
def mutateHash (s : LockFreeStore count) (old data : Pointer) :
    Update → LockFreeStore count × Phase
  | .write (.set key value) => (s, .compareAndSwap (.write (.set key value)) old data)
  | .write (.hset hash key value) =>
    match (s.tables.cell (s.data.cell data).hashes).lookup hash with
    | none => (s, .stopped .nilMapWrite)
    | some inner =>
      ({ s with maps := s.maps.write inner ((s.maps.cell inner).insert key value) },
        .compareAndSwap (.write (.hset hash key value)) old data)
  | .del key =>
    (writeHashes s data ((s.tables.cell (s.data.cell data).hashes).erase key),
      .compareAndSwap (.del key) old data)

/-- The look of a read into bucket data. -/
def readData (s : LockFreeStore count) (data : Pointer) (r : Read) : Phase :=
  match r with
  | .get key => .finished (.value (commaOk ((s.maps.cell (s.data.cell data).strings).lookup key)))
  | .hget hash _ | .hgetAll hash =>
    match (s.tables.cell (s.data.cell data).hashes).lookup hash with
    | none => .finished r.missing
    | some inner => .readHash r inner

/-- The look of a read into the map of a hash. -/
def readHash (s : LockFreeStore count) (inner : Pointer) : Read → Reply
  | .get key => .value (commaOk ((s.maps.cell inner).lookup key))
  | .hget _ key => .value (commaOk ((s.maps.cell inner).lookup key))
  | .hgetAll _ => .fields (some (s.maps.cell inner))

variable [NeZero count]

/-- The next atomic step of a call. -/
def advance (env : Environment) (s : LockFreeStore count) : Phase → LockFreeStore count × Phase
  | .finished reply => (s, .finished reply)
  | .stopped fault => (s, .stopped fault)
  | .load u => (s, .cloneStrings u (s.buckets (bucket count u.key)))
  | .cloneStrings u old =>
    ({ s with maps := s.maps.alloc (s.maps.cell (s.data.cell old).strings) },
      .makeHashes u old s.maps.used)
  | .makeHashes u old strings =>
    ({ s with tables := s.tables.alloc ∅, requests := s.requests + 1 },
      .cloneHash u old strings s.tables.used
        (env.order s.requests (s.tables.cell (s.data.cell old).hashes).keys))
  | .cloneHash u old strings hashes (hash :: rest) =>
    (cloneHash s old hashes hash, .cloneHash u old strings hashes rest)
  | .cloneHash u old strings hashes [] =>
    ({ s with data := s.data.alloc ⟨strings, hashes⟩ }, .mutate u old s.data.used)
  | .mutate u old data => mutate s old data u
  | .mutateHash u old data => mutateHash s old data u
  | .compareAndSwap u old data =>
    if s.buckets (bucket count u.key) = old then
      ({ s with buckets := Function.update s.buckets (bucket count u.key) data },
        .finished .nothing)
    else (s, .load u)
  | .loadRead r => (s, .readData r (s.buckets (bucket count r.key)))
  | .readData r data => (s, readData s data r)
  | .readHash r inner => (s, .finished (readHash s inner r))

/-- The threads that call the store. -/
def lockFreeThreads (env : Environment) (count : ℕ) [NeZero count] :
    ThreadSystem (LockFreeStore count) Phase Request where
  enter := Phase.enter
  idle := Phase.idle
  advance := advance env

end LockFree

end FluxCache.Store
