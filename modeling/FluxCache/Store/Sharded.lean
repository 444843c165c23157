import FluxCache.Store.LockFreeAtomicity

/-!
# Sharding is invisible

`ShardedStore` and `LockFreeStore` keep a key in one of several parts, which a mask selects from the
bits of a hash of the key. The index is below the number of parts for every mask (`mask_lt`); where
that number is not a power of two, some parts are never selected. For the rest it only matters that
a key always selects the same part: `Covers` says that the part which a key selects holds under the
key what one large map store holds. An update of the selected part keeps it (`Covers.update`) and a
read of the selected part is a read of the large store (`Covers.answer`), for every function from
keys to parts.

The calls of the lock-free store are taken one after another here: the thread of a call runs alone,
with any function from keys to buckets (`advanceBy`), and its first swap succeeds.
-/

set_option autoImplicit false
set_option relaxedAutoImplicit false

namespace FluxCache.Store

open FluxCache.Foundation LockFree

/-! ### Calls one after another -/

/-- A call of the map store. -/
def MapStore.serve (m : MapStore) : Request → Reply × MapStore
  | .update u => (.nothing, u.apply m)
  | .read r => (r.answer m, m)

/-- The replies of the map store to calls made one after another. -/
def MapStore.replies (m : MapStore) : List Request → List Reply
  | [] => []
  | request :: requests => (m.serve request).1 :: replies (m.serve request).2 requests

/-- The replies of a store to calls made one after another. -/
def repliesOf {σ : Type} (call : σ → Request → Outcome (Reply × σ)) :
    σ → List Request → Outcome (List Reply)
  | _, [] => return []
  | s, request :: requests => do
    let (reply, s) ← call s request
    let replies ← repliesOf call s requests
    return reply :: replies

/-- Assumes: a relation to the map store under which every call returns what the map store returns,
and which it keeps. -/
theorem repliesOf_eq {σ : Type} {call : σ → Request → Outcome (Reply × σ)}
    {related : σ → MapStore → Prop}
    (hcall : ∀ {s m}, related s m → ∀ request, ∃ after,
      call s request = .ok ((m.serve request).1, after) ∧ related after (m.serve request).2)
    {s : σ} {m : MapStore} (h : related s m) (requests : List Request) :
    repliesOf call s requests = .ok (m.replies requests) := by
  induction requests generalizing s m with
  | nil => rfl
  | cons request requests ih =>
    obtain ⟨after, hreply, hafter⟩ := hcall h request
    rw [repliesOf, hreply, ok_bind]
    simp only [ih hafter]
    rfl

/-! ### Parts that cover a store -/

section Covers

variable {β : Type} {place : GoString → β} {parts : β → MapStore} {m : MapStore}

/-- The part that a key selects holds under the key what the store holds. -/
def Covers (place : GoString → β) (parts : β → MapStore) (m : MapStore) : Prop :=
  ∀ key, (parts (place key)).strings.lookup key = m.strings.lookup key ∧
    (parts (place key)).hashes.lookup key = m.hashes.lookup key

theorem covers_new (place : GoString → β) : Covers place (fun _ ↦ MapStore.new) MapStore.new :=
  fun _ ↦ ⟨rfl, rfl⟩

/-- An update changes nothing under other keys. -/
theorem lookup_apply_of_ne (m : MapStore) {u : Update} {key : GoString} (hkey : key ≠ u.key) :
    (u.apply m).strings.lookup key = m.strings.lookup key ∧
      (u.apply m).hashes.lookup key = m.hashes.lookup key := by
  cases u with
  | write w =>
    cases w with
    | set k value => exact ⟨Finmap.lookup_insert_of_ne _ hkey, rfl⟩
    | hset hash k value => exact ⟨rfl, Finmap.lookup_insert_of_ne _ hkey⟩
  | del k => exact ⟨Finmap.lookup_erase_ne hkey, Finmap.lookup_erase_ne hkey⟩

/-- What an update leaves under its key depends only on what was under the key. -/
theorem lookup_apply_congr {part m : MapStore} {u : Update}
    (hstrings : part.strings.lookup u.key = m.strings.lookup u.key)
    (hhashes : part.hashes.lookup u.key = m.hashes.lookup u.key) :
    (u.apply part).strings.lookup u.key = (u.apply m).strings.lookup u.key ∧
      (u.apply part).hashes.lookup u.key = (u.apply m).hashes.lookup u.key := by
  cases u with
  | write w =>
    cases w with
    | set key value =>
      refine ⟨?_, hhashes⟩
      show (part.strings.insert key value).lookup key = (m.strings.insert key value).lookup key
      rw [Finmap.lookup_insert, Finmap.lookup_insert]
    | hset hash key value =>
      refine ⟨hstrings, ?_⟩
      show (hashSet part.hashes hash key value).lookup hash =
        (hashSet m.hashes hash key value).lookup hash
      have hsame : part.hashes.lookup hash = m.hashes.lookup hash := hhashes
      rw [hashSet, hashSet, Finmap.lookup_insert, Finmap.lookup_insert, hsame]
  | del key =>
    constructor
    · show (part.strings.erase key).lookup key = (m.strings.erase key).lookup key
      rw [Finmap.lookup_erase, Finmap.lookup_erase]
    · show (part.hashes.erase key).lookup key = (m.hashes.erase key).lookup key
      rw [Finmap.lookup_erase, Finmap.lookup_erase]

/-- An update of the selected part is an update of the store. -/
theorem Covers.update [DecidableEq β] (h : Covers place parts m) (u : Update) :
    Covers place (Function.update parts (place u.key) (u.apply (parts (place u.key))))
      (u.apply m) := by
  intro key
  by_cases hkey : key = u.key
  · rw [hkey, Function.update_self]
    exact lookup_apply_congr (h u.key).1 (h u.key).2
  · obtain ⟨hstrings, hhashes⟩ := lookup_apply_of_ne m hkey
    rw [hstrings, hhashes]
    by_cases hplace : place key = place u.key
    · obtain ⟨hstrings', hhashes'⟩ := lookup_apply_of_ne (parts (place u.key)) hkey
      rw [hplace, Function.update_self, hstrings', hhashes', ← hplace]
      exact h key
    · rw [Function.update_of_ne hplace]
      exact h key

/-- A read of the selected part is a read of the store. -/
theorem Covers.answer (h : Covers place parts m) (r : Read) :
    r.answer (parts (place r.key)) = r.answer m := by
  cases r with
  | get key => exact congrArg (fun found ↦ Reply.value (commaOk found)) (h key).1
  | hget hash key =>
    exact congrArg (fun found : Option (GoMap GoString) ↦
      Reply.value (commaOk (found.bind fun fields ↦ fields.lookup key))) (h hash).2
  | hgetAll hash => exact congrArg Reply.fields (h hash).2

end Covers

/-! ### The sharded store -/

/-- The store: the shards, each with two maps, and the mask for the bits of the hash. -/
structure ShardedStore where
  shards : List MapStore
  mask : UInt64

namespace ShardedStore

/-- `NewShardedStore`. -/
def new (shardCount : ℤ) : ShardedStore where
  shards := List.replicate (bucketCount shardCount) MapStore.new
  mask := UInt64.ofNat (bucketCount shardCount - 1)

variable (sum64 : GoString → UInt64) (s : ShardedStore)

/-- The index that `getShard` computes, for a hash function in place of FNV-64a. -/
def shardIndex (key : GoString) : ℕ := (sum64 key &&& s.mask).toNat

/-- `getShard`. -/
def getShard (key : GoString) : Outcome MapStore := index s.shards (s.shardIndex sum64 key)

/-- A call that changes the shard of a key. -/
def changeShard (key : GoString) (change : MapStore → MapStore) : Outcome ShardedStore := do
  let shard ← s.getShard sum64 key
  return { s with shards := s.shards.set (s.shardIndex sum64 key) (change shard) }

/-- `ShardedStore.Set`. -/
def set (key value : GoString) : Outcome ShardedStore :=
  s.changeShard sum64 key fun shard ↦ { shard with strings := shard.strings.insert key value }

/-- `ShardedStore.Del` drops the string and the hash of the key from the same shard. -/
def del (key : GoString) : Outcome ShardedStore :=
  s.changeShard sum64 key fun shard ↦ ⟨shard.strings.erase key, shard.hashes.erase key⟩

/-- `ShardedStore.Get`. -/
def get (key : GoString) : Outcome (GoString × Bool) := do
  let shard ← s.getShard sum64 key
  return commaOk (shard.strings.lookup key)

/-- `ShardedStore.HSet`. -/
def hset (hash key value : GoString) : Outcome ShardedStore :=
  s.changeShard sum64 hash fun shard ↦
    { shard with hashes := hashSet shard.hashes hash key value }

/-- `ShardedStore.HGet`. -/
def hget (hash key : GoString) : Outcome (GoString × Bool) := do
  let shard ← s.getShard sum64 hash
  return hashGet shard.hashes hash key

/-- `ShardedStore.HGetAll`. -/
def hgetAll (hash : GoString) : Outcome (Option (GoMap GoString)) := do
  let shard ← s.getShard sum64 hash
  return hashGetAll shard.hashes hash

/-- One call. -/
def call : Request → Outcome (Reply × ShardedStore)
  | .update (.write (.set key value)) => return (.nothing, ← s.set sum64 key value)
  | .update (.write (.hset hash key value)) => return (.nothing, ← s.hset sum64 hash key value)
  | .update (.del key) => return (.nothing, ← s.del sum64 key)
  | .read (.get key) => return (.value (← s.get sum64 key), s)
  | .read (.hget hash key) => return (.value (← s.hget sum64 hash key), s)
  | .read (.hgetAll hash) => return (.fields (← s.hgetAll sum64 hash), s)

variable {sum64 s} {m : MapStore}

/-- The part at an index, which is empty behind the last shard. -/
def part (s : ShardedStore) (i : ℕ) : MapStore := s.shards.getD i MapStore.new

/-- The shards cover a store, and the mask selects one of them. -/
structure Represents (sum64 : GoString → UInt64) (s : ShardedStore) (m : MapStore) : Prop where
  bound : ∀ h : UInt64, (h &&& s.mask).toNat < s.shards.length
  covers : Covers (s.shardIndex sum64) s.part m

theorem represents_new (sum64 : GoString → UInt64) (shardCount : ℤ) :
    Represents sum64 (new shardCount) MapStore.new := by
  refine ⟨fun h ↦ ?_, fun key ↦ ?_⟩
  · rw [new, List.length_replicate]
    exact mask_lt (bucketCount shardCount) h
  · have hpart (i : ℕ) : (new shardCount).part i = MapStore.new := by
      rw [part, new, List.getD_eq_getElem?_getD, List.getElem?_replicate]
      split <;> rfl
    rw [hpart]
    exact ⟨rfl, rfl⟩

theorem Represents.getShard (h : Represents sum64 s m) (key : GoString) :
    s.getShard sum64 key = .ok (s.part (s.shardIndex sum64 key)) := by
  have hlt := h.bound (sum64 key)
  refine index_eq_ok ?_
  rw [part, List.getD_eq_getElem?_getD, shardIndex, List.getElem?_eq_getElem hlt]
  rfl

/-- A call that makes an update in the shard of its key. -/
theorem Represents.changeShard (h : Represents sum64 s m) (u : Update) :
    ∃ after, s.changeShard sum64 u.key u.apply = .ok after ∧
      Represents sum64 after (u.apply m) := by
  refine ⟨_, by rw [ShardedStore.changeShard, h.getShard, ok_bind]; rfl, fun hash ↦ ?_, ?_⟩
  · rw [List.length_set]
    exact h.bound hash
  · have hparts : ShardedStore.part { s with
        shards := s.shards.set (s.shardIndex sum64 u.key)
          (u.apply (s.part (s.shardIndex sum64 u.key))) } =
        Function.update s.part (s.shardIndex sum64 u.key)
          (u.apply (s.part (s.shardIndex sum64 u.key))) := by
      funext i
      rw [ShardedStore.part, List.getD_eq_getElem?_getD]
      by_cases hi : i = s.shardIndex sum64 u.key
      · have hlt : s.shardIndex sum64 u.key < s.shards.length := h.bound (sum64 u.key)
        rw [hi, Function.update_self, List.getElem?_set_self hlt]
        rfl
      · rw [Function.update_of_ne hi, List.getElem?_set_ne (Ne.symm hi), ShardedStore.part,
          List.getD_eq_getElem?_getD]
    rw [hparts]
    exact h.covers.update u

/-- A call returns what the map store returns. -/
theorem Represents.call (h : Represents sum64 s m) (request : Request) :
    ∃ after, s.call sum64 request = .ok ((m.serve request).1, after) ∧
      Represents sum64 after (m.serve request).2 := by
  cases request with
  | update u =>
    obtain ⟨after, hafter, hrep⟩ := h.changeShard u
    refine ⟨after, ?_, hrep⟩
    cases u with
    | write w =>
      cases w with
      | set key value =>
        have hset : s.set sum64 key value = .ok after := hafter
        rw [ShardedStore.call, hset]
        rfl
      | hset hash key value =>
        have hhset : s.hset sum64 hash key value = .ok after := hafter
        rw [ShardedStore.call, hhset]
        rfl
    | del key =>
      have hdel : s.del sum64 key = .ok after := hafter
      rw [ShardedStore.call, hdel]
      rfl
  | read r =>
    refine ⟨s, ?_, h⟩
    rw [MapStore.serve, ← h.covers.answer r]
    cases r with
    | get key =>
      rw [ShardedStore.call, ShardedStore.get, h.getShard]
      rfl
    | hget hash key =>
      rw [ShardedStore.call, ShardedStore.hget, h.getShard]
      rfl
    | hgetAll hash =>
      rw [ShardedStore.call, ShardedStore.hgetAll, h.getShard]
      rfl

end ShardedStore

/-! ### The lock-free store, one call at a time -/

namespace LockFree

variable {count : ℕ} [NeZero count] {s s' s'' : LockFreeStore count} {own own' own'' : Owners Unit}

/-- `bucket`, for a hash function in place of FNV-64a. -/
def bucketBy (sum64 : GoString → UInt64) (count : ℕ) [NeZero count] (key : GoString) : Fin count :=
  ⟨(sum64 key &&& UInt64.ofNat (count - 1)).toNat, mask_lt count (sum64 key)⟩

variable (place : GoString → Fin count) (env : Environment)

/-- The steps of `advance`, with any function from keys to buckets in place of `bucket`. -/
def advanceBy (s : LockFreeStore count) : Phase → LockFreeStore count × Phase
  | .load u => (s, .cloneStrings u (s.buckets (place u.key)))
  | .compareAndSwap u old data =>
    if s.buckets (place u.key) = old then
      ({ s with buckets := Function.update s.buckets (place u.key) data }, .finished .nothing)
    else (s, .load u)
  | .loadRead r => (s, .readData r (s.buckets (place r.key)))
  | phase => advance env s phase

theorem advanceBy_bucket (s : LockFreeStore count) (phase : Phase) :
    advanceBy (bucketBy fnv64a count) env s phase = advance env s phase := by
  cases phase <;> rfl

/-- The steps of a thread that runs alone, until its call has returned. -/
def finish : ℕ → LockFreeStore count × Phase → Outcome (Reply × LockFreeStore count)
  | _, (s, .finished reply) => .ok (reply, s)
  | _, (_, .stopped fault) => .error fault
  | 0, _ => .error .exhausted
  | steps + 1, (s, phase) => finish steps (advanceBy place env s phase)

/-- The key that selects the bucket of a call. -/
def Request.key : Request → GoString
  | update u => u.key
  | read r => r.key

/-- One call that runs alone. Its steps are bounded by the hashes that it clones. -/
def callBy (s : LockFreeStore count) (request : Request) :
    Outcome (Reply × LockFreeStore count) :=
  finish place env
    ((s.tables.cell (s.data.cell (s.buckets (place request.key))).hashes).keys.card + 7)
    (s, .enter request)

/-- With the hash function of the source, the steps are those of a thread of the store that runs
alone. -/
theorem reaches_of_finish {steps : ℕ} {phase : Phase} {reply : Reply}
    (h : finish (bucketBy fnv64a count) env steps (s, phase) = .ok (reply, s')) :
    (lockFreeThreads env count).Reaches (s, phase) (s', .finished reply) := by
  induction steps generalizing s phase with
  | zero =>
    cases phase with
    | finished other =>
      obtain ⟨rfl, rfl⟩ := Prod.mk.inj (Except.ok.inj h)
      exact Relation.ReflTransGen.refl
    | _ => exact absurd h (by simp [finish])
  | succ steps ih =>
    have hstep {busy : Phase} (hbusy : busy.idle = false)
        (h : finish (bucketBy fnv64a count) env steps
          (advanceBy (bucketBy fnv64a count) env s busy) = .ok (reply, s')) :
        (lockFreeThreads env count).Reaches (s, busy) (s', .finished reply) := by
      rw [advanceBy_bucket] at h
      exact .head hbusy rfl (ih h)
    cases phase with
    | finished other =>
      obtain ⟨rfl, rfl⟩ := Prod.mk.inj (Except.ok.inj h)
      exact Relation.ReflTransGen.refl
    | stopped fault => exact absurd h (by simp [finish])
    | _ => exact hstep rfl h

/-- What the steps of an update leave as it was until the swap. -/
structure Untouched (s s' : LockFreeStore count) (own' : Owners Unit) : Prop where
  buckets : s'.buckets = s.buckets
  published : Published s' own'
  contents_eq : ∀ b, contents s' (s.buckets b) = contents s (s.buckets b)

omit [NeZero count] in
theorem untouched_refl (h : Published s own) : Untouched s s own := ⟨rfl, h, fun _ ↦ rfl⟩

omit [NeZero count] in
theorem Untouched.evolves (h : Untouched s s' own') (he : Evolves () s' own' s'' own'')
    (hbuckets : s''.buckets = s'.buckets) : Untouched s s'' own'' := by
  refine ⟨hbuckets.trans h.buckets, fun b ↦ ?_, fun b ↦ ?_⟩
  · rw [hbuckets]
    exact (h.published b).evolves he (by simp)
  · have hb := h.published b
    rw [h.buckets] at hb
    exact (hb.contents_eq he (by simp)).trans (h.contents_eq b)

/-- The loop of `cloneBucket`. -/
theorem exists_finish_cloneHash {u : Update} {old strings hashes : Pointer}
    (rest : List GoString) (hs : Untouched s s' own')
    (h : PhaseInv s' own' () (.cloneHash u old strings hashes rest)) (n : ℕ) :
    ∃ s'' own'', finish place env (rest.length + n) (s', .cloneHash u old strings hashes rest) =
        finish place env n (s'', .cloneHash u old strings hashes []) ∧
      Untouched s s'' own'' ∧ PhaseInv s'' own'' () (.cloneHash u old strings hashes []) := by
  induction rest generalizing s' own' with
  | nil =>
    rw [List.length_nil, Nat.zero_add]
    exact ⟨s', own', rfl, hs, h⟩
  | cons hash rest ih =>
    obtain ⟨own'', he, hinv⟩ := PhaseInv.cloneHash h
    obtain ⟨last, owners, hfinish, hlast⟩ :=
      ih (hs.evolves he (buckets_cloneHash ..)) hinv
    refine ⟨last, owners, ?_, hlast⟩
    rw [List.length_cons, Nat.succ_add]
    exact hfinish

/-- The second change of the clone leads to the swap. -/
theorem exists_finish_mutateHash {u : Update} {old data : Pointer} (hs : Untouched s s' own')
    (h : PhaseInv s' own' () (.mutateHash u old data)) (n : ℕ) :
    ∃ s'' own'', finish place env (n + 2) (s', .mutateHash u old data) =
        finish place env (n + 1) (s'', .compareAndSwap u old data) ∧
      Untouched s s'' own'' ∧ PhaseInv s'' own'' () (.compareAndSwap u old data) := by
  obtain ⟨own'', he, hinv⟩ := PhaseInv.mutateHash h
  have hphase : (mutateHash s' old data u).2 = .compareAndSwap u old data := by
    cases u with
    | write w =>
      cases w with
      | set key value => rfl
      | hset hash key value =>
        simp only [mutateHash] at hinv ⊢
        cases hlookup : (s'.tables.cell (s'.data.cell data).hashes).lookup hash with
        | none =>
          rw [hlookup] at hinv
          exact absurd hinv id
        | some inner => rfl
    | del key => rfl
  rw [hphase] at hinv
  refine ⟨(mutateHash s' old data u).1, own'', ?_, hs.evolves he (buckets_mutateHash ..), hinv⟩
  rw [← hphase]
  rfl

/-- The changes of the clone lead to the swap. -/
theorem exists_finish_mutate {u : Update} {old data : Pointer} (hs : Untouched s s' own')
    (h : PhaseInv s' own' () (.mutate u old data)) (n : ℕ) :
    ∃ s'' own'' k, finish place env (n + 3) (s', .mutate u old data) =
        finish place env (k + 1) (s'', .compareAndSwap u old data) ∧
      Untouched s s'' own'' ∧ PhaseInv s'' own'' () (.compareAndSwap u old data) := by
  obtain ⟨own'', he, hinv⟩ := PhaseInv.mutate h
  have hfirst := hs.evolves he (buckets_mutate ..)
  cases u with
  | write w =>
    cases w with
    | set key value => exact ⟨_, own'', n + 1, rfl, hfirst, hinv⟩
    | hset hash key value =>
      obtain ⟨last, owners, hfinish, hlast⟩ := exists_finish_mutateHash place env hfirst hinv n
      exact ⟨last, owners, n, hfinish, hlast⟩
  | del key =>
    obtain ⟨last, owners, hfinish, hlast⟩ := exists_finish_mutateHash place env hfirst hinv n
    exact ⟨last, owners, n, hfinish, hlast⟩

/-- An update that runs alone returns after its first swap, and is made in the bucket of its key. -/
theorem exists_callBy_update (hs : Published s own) (u : Update) :
    ∃ (after : LockFreeStore count) (own' : Owners Unit),
      callBy place env s (.update u) = .ok (.nothing, after) ∧ Published after own' ∧
        ∀ b, contents after (after.buckets b) =
          Function.update (fun b ↦ contents s (s.buckets b)) (place u.key)
            (u.apply (contents s (s.buckets (place u.key)))) b := by
  have hload : PhaseInv s own () (.cloneStrings u (s.buckets (place u.key))) := hs _
  obtain ⟨own₁, he₁, hinv₁⟩ := PhaseInv.cloneStrings hload
  obtain ⟨own₂, he₂, hinv₂⟩ := PhaseInv.makeHashes env hinv₁
  obtain ⟨s₃, own₃, hfinish₃, hs₃, hinv₃⟩ := exists_finish_cloneHash place env _
    (((untouched_refl hs).evolves he₁ rfl).evolves he₂ rfl) hinv₂ 4
  obtain ⟨own₄, he₄, hinv₄⟩ := PhaseInv.makeBucket hinv₃
  obtain ⟨s₅, own₅, k, hfinish₅, hs₅, hinv₅⟩ := exists_finish_mutate place env
    (hs₃.evolves he₄ rfl) hinv₄ 0
  have hclone : Clone s₅ own₅ () (s.buckets (place u.key)) _
    (u.apply (contents s₅ (s.buckets (place u.key)))) := hinv₅
  obtain ⟨-, hgiven, hcontents⟩ := hclone.publish hs₅.published (place u.key)
  have hswap : s₅.buckets (place u.key) = s.buckets (place u.key) := by rw [hs₅.buckets]
  refine ⟨_, _, ?_, hgiven, fun b ↦ (hcontents b).trans ?_⟩
  · rw [env.length_order] at hfinish₃
    refine Eq.trans ?_ (hfinish₃.trans (hfinish₅.trans ?_))
    · rfl
    · show finish place env k (advanceBy place env s₅ (.compareAndSwap u _ _)) = _
      rw [advanceBy, if_pos hswap]
      cases k <;> rfl
  · rw [hs₅.contents_eq, hs₅.buckets]
    congr 1
    exact funext hs₅.contents_eq

omit [NeZero count] in
theorem readData_cases (s : LockFreeStore count) (data : Pointer) (r : Read) :
    (∃ reply, readData s data r = .finished reply) ∨
      ∃ inner, readData s data r = .readHash r inner := by
  cases r with
  | get key => exact Or.inl ⟨_, rfl⟩
  | hget hash key =>
    rw [readData]
    cases (s.tables.cell (s.data.cell data).hashes).lookup hash with
    | none => exact Or.inl ⟨_, rfl⟩
    | some inner => exact Or.inr ⟨inner, rfl⟩
  | hgetAll hash =>
    rw [readData]
    cases (s.tables.cell (s.data.cell data).hashes).lookup hash with
    | none => exact Or.inl ⟨_, rfl⟩
    | some inner => exact Or.inr ⟨inner, rfl⟩

/-- A read that runs alone returns what the contents of its bucket hold. -/
theorem callBy_read (s : LockFreeStore count) (r : Read) :
    callBy place env s (.read r) =
      .ok (r.answer (contents s (s.buckets (place r.key))), s) := by
  have hloaded : ReadPhase r (contents s (s.buckets (place r.key))) s
    (.readData r (s.buckets (place r.key))) := ⟨rfl, rfl⟩
  have hread : ReadPhase r (contents s (s.buckets (place r.key))) s
    (readData s (s.buckets (place r.key)) r) := hloaded.advance env
  have hsteps (n : ℕ) : finish place env (n + 2) (s, .loadRead r) =
    finish place env n (s, readData s (s.buckets (place r.key)) r) := rfl
  refine (hsteps _).trans ?_
  rcases readData_cases s (s.buckets (place r.key)) r with ⟨reply, hphase⟩ | ⟨inner, hphase⟩
  · rw [hphase] at hread ⊢
    exact congrArg (fun reply ↦ Except.ok (reply, s)) hread
  · rw [hphase] at hread ⊢
    exact congrArg (fun reply ↦ Except.ok (reply, s)) hread.2

/-- The buckets cover a store, and nobody owns their data. -/
structure Represents (place : GoString → Fin count) (s : LockFreeStore count) (m : MapStore) :
    Prop where
  published : ∃ own : Owners Unit, Published s own
  covers : Covers place (fun b ↦ contents s (s.buckets b)) m

omit [NeZero count] in
theorem represents_new : Represents place (LockFreeStore.new count) MapStore.new :=
  ⟨⟨_, (sound_new .nothing).1⟩, covers_new place⟩

variable {place}

/-- A call returns what the map store returns. -/
theorem Represents.call {m : MapStore} (h : Represents place s m) (request : Request) :
    ∃ after, callBy place env s request = .ok ((m.serve request).1, after) ∧
      Represents place after (m.serve request).2 := by
  cases request with
  | update u =>
    obtain ⟨own, hpublished⟩ := h.published
    obtain ⟨after, own', hcall, hafter, hcontents⟩ := exists_callBy_update place env hpublished u
    refine ⟨after, hcall, ⟨own', hafter⟩, ?_⟩
    rw [funext hcontents]
    exact h.covers.update u
  | read r =>
    refine ⟨s, ?_, h⟩
    rw [callBy_read, MapStore.serve, ← h.covers.answer r]

end LockFree

/-- For every number of shards that is asked for, every hash function and all calls made one after
another, the index that the mask computes lies in the slice, and the sharded store and the lock-free
store reply what the map store replies. -/
theorem sharding_invisible (sum64 : GoString → UInt64) (env : Environment) (shardCount : ℤ)
    (requests : List Request) :
    (∀ key, (sum64 key &&& UInt64.ofNat (bucketCount shardCount - 1)).toNat <
        bucketCount shardCount) ∧
      repliesOf (ShardedStore.call sum64) (ShardedStore.new shardCount) requests =
        .ok (MapStore.new.replies requests) ∧
      repliesOf (callBy (bucketBy sum64 (bucketCount shardCount)) env)
          (LockFreeStore.new (bucketCount shardCount)) requests =
        .ok (MapStore.new.replies requests) :=
  ⟨fun key ↦ mask_lt _ (sum64 key),
    repliesOf_eq (fun h ↦ h.call) (ShardedStore.represents_new sum64 shardCount) requests,
    repliesOf_eq (fun h ↦ h.call env) (LockFree.represents_new _) requests⟩

end FluxCache.Store
