import FluxCache.Store.Sharded

/-!
# The store on concurrent maps

`SyncMapStore` has two concurrent maps: one from keys to strings, and one from hashes to further
concurrent maps, which live in a memory. Every call of a method of a concurrent map is one atomic
step, apart from `Range`. `HSet` makes an empty map, which it publishes unless the hash has one
already, and then stores its field in the map of the hash; `Del` removes the string and the hash of
its key in two steps.

`Range` is no snapshot. It visits the fields in steps of their own, each at most once, those that
are there when it starts and possibly others (`RangeOrder`).

No two hashes share a map: every map belongs to the hash for which it was made (`Owned`). So the
calls made one after another are the calls of the map store (`Represents.call`).
-/

set_option autoImplicit false
set_option relaxedAutoImplicit false

namespace FluxCache.Store

open FluxCache.Foundation LockFree

/-- The store: the strings, the maps of the hashes, and the memory of these maps. The last field
counts the ranges so far. -/
structure SyncMapStore where
  strings : GoMap GoString
  hashes : GoMap Pointer
  maps : Memory (GoMap GoString)
  ranges : ℕ

/-- The fields that the `Range` of a map visits, in their order: all that are there when it starts,
and some that may be stored while it runs. -/
structure RangeOrder where
  visits : ℕ → Finset GoString → List GoString
  mem_visits : ∀ i keys, ∀ key ∈ keys, key ∈ visits i keys

namespace SyncMapStore

/-- `NewSyncMapStore`. -/
def new : SyncMapStore := ⟨∅, ∅, ⟨fun _ ↦ ∅, 0⟩, 0⟩

/-- What a thread does next. -/
inductive Phase
  | finished (reply : Reply)
  | storeString (key value : GoString)
  | deleteString (key : GoString)
  | deleteHash (key : GoString)
  | loadString (key : GoString)
  | loadOrStore (hash key value : GoString)
  | storeField (hash key value : GoString) (inner : Pointer)
  | loadHash (hash key : GoString)
  | loadField (hash key : GoString) (inner : Pointer)
  | loadAll (hash : GoString)
  | startRange (inner : Pointer)
  | range (inner : Pointer) (todo : List GoString) (out : GoMap GoString)

namespace Phase

/-- The first phase of a call. -/
def enter : Request → Phase
  | .update (.write (.set key value)) => storeString key value
  | .update (.write (.hset hash key value)) => loadOrStore hash key value
  | .update (.del key) => deleteString key
  | .read (.get key) => loadString key
  | .read (.hget hash key) => loadHash hash key
  | .read (.hgetAll hash) => loadAll hash

/-- The call of the thread has returned. -/
def idle : Phase → Bool
  | finished _ => true
  | _ => false

/-- The reply of a call that has returned. -/
def reply : Phase → Option Reply
  | finished reply => some reply
  | _ => none

end Phase

/-- The map `out` of `HGetAll` after the visit of a field. -/
def visit (fields : GoMap GoString) (out : GoMap GoString) (key : GoString) : GoMap GoString :=
  match fields.lookup key with
  | some value => out.insert key value
  | none => out

/-- `hashes.LoadOrStore(hash, &sync.Map{})`: the map of the hash, which is the new one if there was
none. -/
def loadOrStore (s : SyncMapStore) (hash : GoString) : Pointer × SyncMapStore :=
  match s.hashes.lookup hash with
  | some inner => (inner, { s with maps := s.maps.alloc ∅ })
  | none =>
    (s.maps.used,
      { s with maps := s.maps.alloc ∅, hashes := s.hashes.insert hash s.maps.used })

/-- The next atomic step of a call. -/
def advance (order : RangeOrder) (s : SyncMapStore) : Phase → SyncMapStore × Phase
  | .finished reply => (s, .finished reply)
  | .storeString key value =>
    ({ s with strings := s.strings.insert key value }, .finished .nothing)
  | .deleteString key => ({ s with strings := s.strings.erase key }, .deleteHash key)
  | .deleteHash key => ({ s with hashes := s.hashes.erase key }, .finished .nothing)
  | .loadString key => (s, .finished (.value (commaOk (s.strings.lookup key))))
  | .loadOrStore hash key value =>
    let (inner, s) := s.loadOrStore hash
    (s, .storeField hash key value inner)
  | .storeField _ key value inner =>
    ({ s with maps := s.maps.write inner ((s.maps.cell inner).insert key value) },
      .finished .nothing)
  | .loadHash hash key =>
    match s.hashes.lookup hash with
    | none => (s, .finished (.value ([], false)))
    | some inner => (s, .loadField hash key inner)
  | .loadField _ key inner =>
    (s, .finished (.value (commaOk ((s.maps.cell inner).lookup key))))
  | .loadAll hash =>
    match s.hashes.lookup hash with
    | none => (s, .finished (.fields none))
    | some inner => (s, .startRange inner)
  | .startRange inner =>
    ({ s with ranges := s.ranges + 1 },
      .range inner (order.visits s.ranges (s.maps.cell inner).keys) ∅)
  | .range inner (key :: todo) out => (s, .range inner todo (visit (s.maps.cell inner) out key))
  | .range _ [] out => (s, .finished (.fields (some out)))

/-- The threads that call the store. -/
def syncMapThreads (order : RangeOrder) : ThreadSystem SyncMapStore Phase Request where
  enter := Phase.enter
  idle := Phase.idle
  advance := advance order

/-! ### What the store holds -/

/-- What the two maps hold together. -/
def contents (s : SyncMapStore) : MapStore where
  strings := s.strings
  hashes := mapValues s.maps.cell s.hashes

/-- Every map in use is one that was made for its hash. -/
def Owned (s : SyncMapStore) (owner : Pointer → GoString) : Prop :=
  ∀ hash p, s.hashes.lookup hash = some p → p < s.maps.used ∧ owner p = hash

section Owned

variable {s : SyncMapStore} {owner : Pointer → GoString} {hash key value : GoString} {p : Pointer}

theorem owned_new (owner : Pointer → GoString) : Owned new owner :=
  fun _ _ h ↦ absurd h (by simp [new])

theorem lookup_contents (s : SyncMapStore) (hash : GoString) :
    s.contents.hashes.lookup hash = (s.hashes.lookup hash).map s.maps.cell :=
  lookup_mapValues ..

/-- What `LoadOrStore` returns, and what it leaves: a map of the hash, and no hash with another map
than before but the one that had none. -/
structure Loaded (s : SyncMapStore) (hash : GoString) (owner : Pointer → GoString)
    (p : Pointer) (s' : SyncMapStore) (owner' : Pointer → GoString) : Prop where
  strings : s'.strings = s.strings
  lookup_self : s'.hashes.lookup hash = some p
  lookup_of_ne : ∀ other ≠ hash, s'.hashes.lookup other = s.hashes.lookup other
  found : ∀ q, s.hashes.lookup hash = some q → p = q
  fresh : s.hashes.lookup hash = none → p = s.maps.used ∧ s'.maps.cell p = ∅
  used : s.maps.used ≤ s'.maps.used
  cell : ∀ q < s.maps.used, s'.maps.cell q = s.maps.cell q ∧ owner' q = owner q
  owned : Owned s' owner'

theorem Owned.loadOrStore (h : Owned s owner) (hash : GoString) :
    Loaded s hash owner (s.loadOrStore hash).1 (s.loadOrStore hash).2
      (Function.update owner s.maps.used hash) := by
  have howner : ∀ q < s.maps.used, Function.update owner s.maps.used hash q = owner q :=
    fun q hq ↦ Function.update_of_ne (Nat.ne_of_lt hq) _ _
  have hold : ∀ other q, s.hashes.lookup other = some q →
      q < s.maps.used + 1 ∧ Function.update owner s.maps.used hash q = other := by
    intro other q hq
    obtain ⟨hlt, hother⟩ := h other q hq
    exact ⟨hlt.trans (Nat.lt_succ_self _), (howner q hlt).trans hother⟩
  unfold SyncMapStore.loadOrStore
  cases hlookup : s.hashes.lookup hash with
  | some inner =>
    exact
      { strings := rfl
        lookup_self := hlookup
        lookup_of_ne := fun _ _ ↦ rfl
        found := fun q hq ↦ Option.some.inj (hlookup.symm.trans hq)
        fresh := fun hnone ↦ absurd (hlookup.symm.trans hnone) (Option.some_ne_none inner)
        used := Nat.le_succ _
        cell := fun q hq ↦ ⟨Memory.cell_alloc_of_lt _ _ hq, howner q hq⟩
        owned := hold }
  | none =>
    exact
      { strings := rfl
        lookup_self := Finmap.lookup_insert _
        lookup_of_ne := fun _ hother ↦ Finmap.lookup_insert_of_ne _ hother
        found := fun q hq ↦ absurd (hlookup.symm.trans hq) (Option.some_ne_none q).symm
        fresh := fun _ ↦ ⟨rfl, Memory.cell_alloc_used _ _⟩
        used := Nat.le_succ _
        cell := fun q hq ↦ ⟨Memory.cell_alloc_of_lt _ _ hq, howner q hq⟩
        owned := fun other q hq ↦ by
          rcases lookup_insert_cases hq with ⟨rfl, rfl⟩ | hq
          · exact ⟨Nat.lt_succ_self _, Function.update_self ..⟩
          · exact hold other q hq }

/-- A field is stored in the map of its hash. -/
theorem Owned.contents_store (h : Owned s owner) (hp : s.hashes.lookup hash = some p) :
    contents { s with maps := s.maps.write p ((s.maps.cell p).insert key value) } =
      s.contents.hset hash key value := by
  refine MapStore.ext rfl (Finmap.ext_lookup fun other ↦ ?_)
  rw [lookup_contents, MapStore.hset]
  by_cases hother : other = hash
  · rw [hother, hp, hashSet, lookup_contents, hp, Finmap.lookup_insert, Option.map_some,
      Option.map_some, Memory.cell_write_self]
    rfl
  · rw [hashSet, Finmap.lookup_insert_of_ne _ hother, lookup_contents]
    cases hq : s.hashes.lookup other with
    | none => rfl
    | some q =>
      have hne : q ≠ p := by
        rintro rfl
        exact hother ((h other q hq).2.symm.trans (h hash q hp).2)
      exact congrArg some (Memory.cell_write_of_ne _ _ hne)

end Owned

/-! ### Calls one after another -/

/-- The steps of a thread that runs alone, until its call has returned. -/
def finish (order : RangeOrder) : ℕ → SyncMapStore × Phase → Outcome (Reply × SyncMapStore)
  | _, (s, .finished reply) => .ok (reply, s)
  | 0, _ => .error .exhausted
  | steps + 1, (s, phase) => finish order steps (advance order s phase)

/-- The fields that an `HGetAll` visits if it runs alone. -/
def visitsOf (order : RangeOrder) (s : SyncMapStore) : Request → List GoString
  | .read (.hgetAll hash) =>
    (s.hashes.lookup hash).elim [] fun inner ↦ order.visits s.ranges (s.maps.cell inner).keys
  | _ => []

/-- One call that runs alone. -/
def call (order : RangeOrder) (s : SyncMapStore) (request : Request) :
    Outcome (Reply × SyncMapStore) :=
  finish order ((visitsOf order s request).length + 3) (s, .enter request)

section Call

variable {order : RangeOrder} {s : SyncMapStore} {m : MapStore}

theorem lookup_visits (fields out : GoMap GoString) (todo : List GoString) (key : GoString) :
    (todo.foldl (visit fields) out).lookup key =
      if key ∈ todo then (fields.lookup key).or (out.lookup key) else out.lookup key := by
  induction todo generalizing out with
  | nil => simp
  | cons first todo ih =>
    rw [List.foldl_cons, ih]
    have hfirst : (visit fields out first).lookup key =
        if key = first then (fields.lookup key).or (out.lookup key) else out.lookup key := by
      unfold visit
      by_cases hkey : key = first
      · subst hkey
        cases hlookup : fields.lookup key with
        | none => simp
        | some value => simp [Finmap.lookup_insert]
      · cases fields.lookup first with
        | none => simp [hkey]
        | some value => simp [hkey, Finmap.lookup_insert_of_ne _ hkey]
    rw [hfirst]
    by_cases hkey : key = first
    · subst hkey
      cases fields.lookup key <;> simp
    · simp [hkey]

/-- A `Range` that nobody disturbs collects all fields. -/
theorem visits_eq {fields : GoMap GoString} {todo : List GoString}
    (htodo : ∀ key ∈ fields.keys, key ∈ todo) : todo.foldl (visit fields) ∅ = fields := by
  refine Finmap.ext_lookup fun key ↦ ?_
  rw [lookup_visits, Finmap.lookup_empty, Option.or_none]
  by_cases hkey : key ∈ todo
  · rw [if_pos hkey]
  · rw [if_neg hkey]
    refine (Finmap.lookup_eq_none.mpr fun hmem ↦ hkey (htodo key (Finmap.mem_keys.mpr hmem))).symm

theorem finish_range (inner : Pointer) (todo : List GoString) (out : GoMap GoString) :
    finish order (todo.length + 1) (s, .range inner todo out) =
      .ok (.fields (some (todo.foldl (visit (s.maps.cell inner)) out)), s) := by
  induction todo generalizing out with
  | nil => rfl
  | cons key todo ih => exact ih _

/-- No two hashes share a map, and the maps hold a map store. -/
def Represents (s : SyncMapStore) (m : MapStore) : Prop :=
  (∃ owner, Owned s owner) ∧ s.contents = m

theorem represents_new : Represents new .new :=
  ⟨⟨fun _ ↦ [], owned_new _⟩, MapStore.ext rfl (Finmap.ext_lookup fun _ ↦ lookup_mapValues ..)⟩

theorem Represents.lookup (h : Represents s m) (hash : GoString) :
    m.hashes.lookup hash = (s.hashes.lookup hash).map s.maps.cell := by
  rw [← h.2, lookup_contents]

/-- A call of `HSet`. -/
theorem Represents.hset (h : Represents s m) (hash key value : GoString) :
    ∃ after, s.call order (.update (.write (.hset hash key value))) = .ok (.nothing, after) ∧
      Represents after (m.hset hash key value) := by
  obtain ⟨⟨owner, howned⟩, rfl⟩ := h
  have hloaded := howned.loadOrStore hash
  refine ⟨_, rfl, ⟨_, hloaded.owned⟩, ?_⟩
  refine (hloaded.owned.contents_store hloaded.lookup_self).trans ?_
  -- the new map, if there is one, is empty until the field is stored
  refine MapStore.ext hloaded.strings (Finmap.ext_lookup fun other ↦ ?_)
  rw [MapStore.hset, MapStore.hset, hashSet, hashSet]
  by_cases hother : other = hash
  · rw [hother, Finmap.lookup_insert, Finmap.lookup_insert, lookup_contents, lookup_contents,
      hloaded.lookup_self]
    cases hlookup : s.hashes.lookup hash with
    | none =>
      rw [Option.map_some, Option.getD_some, (hloaded.fresh hlookup).2]
      rfl
    | some q =>
      rw [Option.map_some, Option.getD_some, hloaded.found q hlookup,
        (hloaded.cell q (howned hash q hlookup).1).1]
      rfl
  · rw [Finmap.lookup_insert_of_ne _ hother, Finmap.lookup_insert_of_ne _ hother, lookup_contents,
      lookup_contents, hloaded.lookup_of_ne other hother]
    cases hlookup : s.hashes.lookup other with
    | none => rfl
    | some q => exact congrArg some (hloaded.cell q (howned other q hlookup).1).1

/-- A call of `Del`. -/
theorem Represents.del (h : Represents s m) (key : GoString) :
    ∃ after, s.call order (.update (.del key)) = .ok (.nothing, after) ∧
      Represents after (m.del key) := by
  obtain ⟨⟨owner, howned⟩, rfl⟩ := h
  refine ⟨_, rfl, ⟨owner, fun hash p hp ↦ howned hash p (lookup_of_lookup_erase hp)⟩, ?_⟩
  exact MapStore.ext rfl (mapValues_erase ..)

/-- A call of `HGetAll`. -/
theorem Represents.hgetAll (h : Represents s m) (hash : GoString) :
    ∃ after, s.call order (.read (.hgetAll hash)) = .ok (.fields (m.hgetAll hash), after) ∧
      Represents after m := by
  have hcall : s.call order (.read (.hgetAll hash)) =
    finish order (((s.hashes.lookup hash).elim [] fun inner ↦
      order.visits s.ranges (s.maps.cell inner).keys).length + 2)
      (advance order s (.loadAll hash)) := rfl
  rw [hcall, MapStore.hgetAll, hashGetAll, h.lookup hash]
  cases hinner : s.hashes.lookup hash with
  | none =>
    refine ⟨s, ?_, h⟩
    rw [advance, hinner]
    rfl
  | some inner =>
    have hall : (order.visits s.ranges (s.maps.cell inner).keys).foldl
        (visit (s.maps.cell inner)) ∅ = s.maps.cell inner :=
      visits_eq fun key hkey ↦ order.mem_visits _ _ key hkey
    refine ⟨{ s with ranges := s.ranges + 1 }, ?_, h⟩
    rw [advance, hinner]
    refine (finish_range inner _ ∅).trans ?_
    exact congrArg (fun fields ↦ Except.ok (Reply.fields (some fields), _)) hall

/-- A call that runs alone returns what the map store returns. -/
theorem Represents.call (h : Represents s m) (order : RangeOrder) (request : Request) :
    ∃ after, s.call order request = .ok ((m.serve request).1, after) ∧
      Represents after (m.serve request).2 := by
  cases request with
  | update u =>
    cases u with
    | write w =>
      cases w with
      | set key value =>
        obtain ⟨⟨owner, howned⟩, rfl⟩ := h
        exact ⟨_, rfl, ⟨owner, howned⟩, rfl⟩
      | hset hash key value => exact h.hset hash key value
    | del key => exact h.del key
  | read r =>
    cases r with
    | get key =>
      refine ⟨s, ?_, h⟩
      obtain ⟨-, rfl⟩ := h
      rfl
    | hget hash key =>
      refine ⟨s, ?_, h⟩
      have hanswer : (m.serve (.read (.hget hash key))).1 =
        .value (commaOk ((m.hashes.lookup hash).bind fun fields ↦ fields.lookup key)) := rfl
      have hcall : s.call order (.read (.hget hash key)) =
        finish order 2 (advance order s (.loadHash hash key)) := rfl
      rw [hanswer, h.lookup hash, hcall, advance]
      cases s.hashes.lookup hash with
      | none => rfl
      | some inner => rfl
    | hgetAll hash => exact h.hgetAll hash

end Call

end SyncMapStore

end FluxCache.Store
