import FluxCache.Foundation.LastWriter
import FluxCache.Store.MapStore

/-!
# The replicated store

`CRDTStore` keeps every string with the timestamp of the write it comes from, and a clock that is at
least as late as the timestamps it has seen. `Set` takes the next timestamp of the clock and always
writes; `SetWithTS` writes only over an older string. `Merge` goes through the strings of another
store in the order of a map iteration and takes the newer ones, and then copies the fields of its
hashes. The mutexes are left out here.

`SetWithTS` and a turn of the first loop of `Merge` are written separately in the source and do the
same (`setWithTS_eq`): at each key they are an `offer` to a register in which the last writer wins.
So a merge combines the registers of the two stores key by key (`lookup_merge`), whatever the order
of the iteration, and two stores that merge each other agree exactly if they do not hold different
strings of the same time under one key.
-/

set_option autoImplicit false
set_option relaxedAutoImplicit false

namespace FluxCache.Store

open FluxCache.Foundation

/-- `crdtValue`. -/
abbrev CRDTValue := Stamped GoString UInt64

/-- `CRDTStore`, without its mutex. -/
@[ext] structure CRDTStore where
  data : GoMap CRDTValue
  hashes : Hashes
  clock : UInt64

namespace CRDTStore

/-- `NewCRDTStore`. -/
def new : CRDTStore := ⟨∅, ∅, 0⟩

/-- `nextTS`. The clock wraps around at its last timestamp. -/
def nextTS (s : CRDTStore) : UInt64 × CRDTStore := (s.clock + 1, { s with clock := s.clock + 1 })

/-- `Set`. -/
def set (s : CRDTStore) (key value : GoString) : CRDTStore :=
  let (ts, s) := s.nextTS
  { s with data := s.data.insert key ⟨value, ts⟩ }

/-- `Del`. The clock stays, and so the next write of the key is newer. -/
def del (s : CRDTStore) (key : GoString) : CRDTStore :=
  { s with data := s.data.erase key, hashes := s.hashes.erase key }

/-- `Get`. -/
def get (s : CRDTStore) (key : GoString) : GoString × Bool :=
  commaOk ((s.data.lookup key).map Stamped.value)

/-- `SetWithTS`. -/
def setWithTS (s : CRDTStore) (key value : GoString) (ts : UInt64) : CRDTStore where
  data := match s.data.lookup key with
    | none => s.data.insert key ⟨value, ts⟩
    | some existing =>
      if ts > existing.ts ∨ (ts = existing.ts ∧ False) then s.data.insert key ⟨value, ts⟩
      else s.data
  hashes := s.hashes
  clock := if ts > s.clock then ts else s.clock

/-- A turn of the first loop of `Merge`. -/
def mergeValue (s : CRDTStore) (entry : GoString × CRDTValue) : CRDTStore where
  data := match s.data.lookup entry.1 with
    | none => s.data.insert entry.1 entry.2
    | some existing =>
      if entry.2.ts > existing.ts then s.data.insert entry.1 entry.2 else s.data
  hashes := s.hashes
  clock := if entry.2.ts > s.clock then entry.2.ts else s.clock

/-- A turn of the second loop of `Merge`: the fields of a hash are copied over those that are
there. -/
def mergeHash (s : CRDTStore) (entry : GoString × GoMap GoString) : CRDTStore :=
  { s with hashes := s.hashes.insert entry.1 (entry.2 ∪ (s.hashes.lookup entry.1).getD ∅) }

/-- `Merge`, with the number of its first range over a map. -/
def merge (env : Environment) (i : ℕ) (s other : CRDTStore) : CRDTStore :=
  (env.entries (i + 1) other.hashes).foldl mergeHash ((env.entries i other.data).foldl mergeValue s)

/-- `HSet`. -/
def hset (s : CRDTStore) (hash key value : GoString) : CRDTStore :=
  { s with hashes := hashSet s.hashes hash key value }

/-- `HGet`. -/
def hget (s : CRDTStore) (hash key : GoString) : GoString × Bool := hashGet s.hashes hash key

/-- `HGetAll`. -/
def hgetAll (s : CRDTStore) (hash : GoString) : Option (GoMap GoString) := hashGetAll s.hashes hash

instance : StoreInterface CRDTStore where
  set := set
  get := get
  del := del
  hset := hset
  hget := hget
  hgetAll := hgetAll

/-! ### One write -/

/-- The two rules for a write with a timestamp are the same. -/
theorem setWithTS_eq (s : CRDTStore) (key value : GoString) (ts : UInt64) :
    s.setWithTS key value ts = s.mergeValue (key, ⟨value, ts⟩) := by
  simp only [setWithTS, mergeValue, and_false, or_false]

/-- A write is offered to the register of its key. -/
theorem lookup_mergeValue_self (s : CRDTStore) (key : GoString) (v : CRDTValue) :
    (s.mergeValue (key, v)).data.lookup key = offer (s.data.lookup key) v := by
  unfold mergeValue offer
  cases hheld : s.data.lookup key with
  | none => exact Finmap.lookup_insert s.data
  | some existing =>
    by_cases hnewer : existing.ts < v.ts
    · simp only [gt_iff_lt, if_pos hnewer]
      exact Finmap.lookup_insert s.data
    · simp only [gt_iff_lt, if_neg hnewer]
      exact hheld

theorem lookup_mergeValue_of_ne (s : CRDTStore) {key : GoString}
    {entry : GoString × CRDTValue} (hkey : key ≠ entry.1) :
    (s.mergeValue entry).data.lookup key = s.data.lookup key := by
  unfold mergeValue
  cases s.data.lookup entry.1 with
  | none => exact Finmap.lookup_insert_of_ne s.data hkey
  | some existing =>
    by_cases hnewer : existing.ts < entry.2.ts
    · simp only [gt_iff_lt, if_pos hnewer]
      exact Finmap.lookup_insert_of_ne s.data hkey
    · simp only [gt_iff_lt, if_neg hnewer]

theorem clock_mergeValue (s : CRDTStore) (entry : GoString × CRDTValue) :
    (s.mergeValue entry).clock = max s.clock entry.2.ts := by
  unfold mergeValue
  by_cases hlater : s.clock < entry.2.ts
  · rw [max_eq_right (le_of_lt hlater)]
    exact if_pos hlater
  · rw [max_eq_left (not_lt.mp hlater)]
    exact if_neg hlater

/-! ### A merge -/

section Merge

theorem data_mergeHashes (hashes : List (GoString × GoMap GoString)) (s : CRDTStore) :
    (hashes.foldl mergeHash s).data = s.data ∧ (hashes.foldl mergeHash s).clock = s.clock := by
  induction hashes generalizing s with
  | nil => exact ⟨rfl, rfl⟩
  | cons entry hashes ih => exact ih (s.mergeHash entry)

/-- A merge combines the registers of the two stores. -/
theorem lookup_merge (env : Environment) (i : ℕ) (s other : CRDTStore) (key : GoString) :
    (s.merge env i other).data.lookup key =
      combine (s.data.lookup key) (other.data.lookup key) := by
  rw [merge, (data_mergeHashes _ _).1]
  exact foldl_entries (fun s key ↦ s.data.lookup key) offer lookup_mergeValue_self
    (fun s _ _ ↦ lookup_mergeValue_of_ne s) env i other.data s key

end Merge

/-! ### Convergence -/

/-- `Set` or `SetWithTS`. -/
inductive Update
  | set (key value : GoString)
  | setWithTS (key value : GoString) (ts : UInt64)

/-- The effect of an update. -/
def update (s : CRDTStore) : Update → CRDTStore
  | .set key value => s.set key value
  | .setWithTS key value ts => s.setWithTS key value ts

/-- The store that a history of updates leaves. -/
def replica (history : List Update) : CRDTStore := history.foldl update new

/-- Two stores that merge each other answer every `Get` alike exactly if no key has in both of them
a string of the same time and these strings differ. -/
theorem crdt_converge_iff (env : Environment) (i j : ℕ) (left right : List Update) :
    (∀ key, ((replica left).merge env i (replica right)).get key =
        ((replica right).merge env j (replica left)).get key) ↔
      ∀ key, ∀ v ∈ (replica left).data.lookup key, ∀ w ∈ (replica right).data.lookup key,
        v.ts = w.ts → v.value = w.value := by
  refine forall_congr' fun key ↦ ?_
  rw [get, get, lookup_merge, lookup_merge, commaOk_injective.eq_iff]
  exact value_combine_comm_iff

/-- Two fresh stores each set a key: both writes get the timestamp 1, and each store keeps its own
string. -/
theorem crdt_diverge :
    ((replica [.set (text "k") (text "a")]).merge stillClock 0
        (replica [.set (text "k") (text "b")])).get (text "k") = (text "a", true) ∧
      ((replica [.set (text "k") (text "b")]).merge stillClock 0
        (replica [.set (text "k") (text "a")])).get (text "k") = (text "b", true) := by
  constructor
  · rw [get, lookup_merge]
    decide
  · rw [get, lookup_merge]
    decide

end CRDTStore

end FluxCache.Store
