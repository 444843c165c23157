import FluxCache.Store.Eviction
import FluxCache.Store.MapStore

/-!
# The store with deadlines and eviction

`TTLStore` wraps a store with a deadline for some keys, the set of all keys it has seen written and
not removed, and an eviction policy that is asked for a key to drop when there are too many. The
model is generic in the store inside. Every critical section of the mutex, every call of the policy
and every call of the store inside is a function of its own, and the calls of the store are composed
of them in the order of the source, so that the same functions serve the calls that run alone here
and the ones that interleave.

The three maps of the two layers have to stay in step: `Bookkept` says that the tracked keys are
exactly the keys that hold a string or a hash in the store inside, and that every key with a
deadline is tracked. Every call keeps it (`Bookkept.call`), so it holds after every run from a fresh
store. A store that evicts nothing and has no deadlines is `Permanent`, and its calls are the calls
of the store inside.
-/

set_option autoImplicit false
set_option relaxedAutoImplicit false

namespace FluxCache.Store

open FluxCache.Foundation

/-! ### The state -/

/-- A call of the store, with the sweep of the background loop. -/
inductive Call
  | write (w : Write)
  | setWithTTL (key value : GoString) (ttl : Duration)
  | read (r : Read)
  | del (key : GoString)
  | expire (key : GoString) (ttl : Duration)
  | ttl (key : GoString)
  | sweep
  deriving DecidableEq

/-- The store: the one inside, the deadlines, the tracked keys, the policy and the limit. The last
field counts the requests to the environment so far. -/
structure TTLStore (σ : Type) where
  inner : σ
  expireAt : GoMap Time
  allKeys : Finset GoString
  policy : Policy
  maxKeys : ℤ
  requests : ℕ

namespace TTLStore

variable {σ : Type}

/-- `NewTTLStore`. -/
def new (inner : σ) : TTLStore σ := ⟨inner, ∅, ∅, .noEviction, 0, 0⟩

/-- `SetEvictionPolicy`. -/
def setEvictionPolicy (t : TTLStore σ) (policy : Policy) (maxKeys : ℤ) : TTLStore σ :=
  { t with policy := policy, maxKeys := maxKeys }

/-- The same deadlines, tracked keys, policy and limit around another store. -/
def around {τ : Type} (t : TTLStore σ) (inner : τ) : TTLStore τ :=
  ⟨inner, t.expireAt, t.allKeys, t.policy, t.maxKeys, t.requests⟩

/-! ### Critical sections, policy calls and calls of the store inside -/

/-- The critical section of `track`. -/
def addKey (t : TTLStore σ) (key : GoString) : TTLStore σ :=
  { t with allKeys := insert key t.allKeys }

/-- The critical section of `untrack`. -/
def removeKey (t : TTLStore σ) (key : GoString) : TTLStore σ :=
  { t with allKeys := t.allKeys.erase key, expireAt := t.expireAt.erase key }

/-- `policy.Record`. -/
def record (env : Environment) (t : TTLStore σ) (key : GoString) : TTLStore σ :=
  { t with policy := t.policy.record (env.now t.requests) key, requests := t.requests + 1 }

/-- `policy.Delete`. -/
def forget (t : TTLStore σ) (key : GoString) : TTLStore σ :=
  { t with policy := t.policy.delete key }

/-- The critical section of `SetWithTTL` and `Expire`. -/
def setDeadline (env : Environment) (t : TTLStore σ) (key : GoString) (ttl : Duration) :
    TTLStore σ :=
  { t with
    expireAt := t.expireAt.insert key (env.now t.requests + ttl)
    requests := t.requests + 1 }

/-- The critical section of `evictIfNeeded` that looks at the limit. -/
def shouldEvict (t : TTLStore σ) : Bool := 0 < t.maxKeys ∧ t.maxKeys < t.allKeys.card

/-- The policy chooses among the keys with a deadline. -/
def isVolatile (t : TTLStore σ) : Bool :=
  8 < t.policy.name.length ∧ t.policy.name.take 8 = text "volatile"

/-- `candidates`. -/
def candidates (env : Environment) (t : TTLStore σ) : List GoString × TTLStore σ :=
  (env.order t.requests (if t.isVolatile then t.expireAt.keys else t.allKeys),
    { t with requests := t.requests + 1 })

/-- The critical section of `evictIfNeeded` that asks the policy. -/
def chooseKey (env : Environment) (t : TTLStore σ) (candidates : List GoString) :
    GoString × TTLStore σ :=
  (t.policy.evict env t.requests candidates t.expireAt, { t with requests := t.requests + 1 })

/-- The reading of the clock after the lookup of a deadline: the deadline is over. -/
def isPast (env : Environment) (t : TTLStore σ) : Option Time → Bool × TTLStore σ
  | none => (false, t)
  | some exp => (exp < env.now t.requests, { t with requests := t.requests + 1 })

/-- The reading of the clock in `TTL` after the deadline has been looked up: the time that is left,
or -2. -/
def remaining (env : Environment) (t : TTLStore σ) : Option Time → Duration × TTLStore σ
  | none => (-2, t)
  | some exp =>
    let d := since exp (env.now t.requests)
    (if d ≤ 0 then -2 else d, { t with requests := t.requests + 1 })

/-- The keys whose deadline is over at a time. -/
def expiredKeys (env : Environment) (t : TTLStore σ) : List GoString :=
  (env.order (t.requests + 1) t.expireAt.keys).filter fun key ↦
    (t.expireAt.lookup key).any fun exp ↦ exp < env.now t.requests

/-- The critical section of `sweep`: the expired keys lose their deadline and are not tracked any
more. -/
def collectExpired (env : Environment) (t : TTLStore σ) : List GoString × TTLStore σ :=
  (t.expiredKeys env,
    { (t.expiredKeys env).foldl removeKey t with requests := t.requests + 2 })

variable [StoreInterface σ]

/-- `inner.Set` and `inner.HSet`. -/
def writeInner (t : TTLStore σ) (w : Write) : TTLStore σ := { t with inner := w.apply t.inner }

/-- `inner.Del`. -/
def delInner (t : TTLStore σ) (key : GoString) : TTLStore σ :=
  { t with inner := StoreInterface.del t.inner key }

/-! ### The calls -/

omit [StoreInterface σ] in
/-- `track`. -/
def track (env : Environment) (t : TTLStore σ) (key : GoString) : TTLStore σ :=
  (t.addKey key).record env key

omit [StoreInterface σ] in
/-- `untrack`. -/
def untrack (t : TTLStore σ) (key : GoString) : TTLStore σ := (t.removeKey key).forget key

/-- `Del`, and `delExpired`. -/
def del (t : TTLStore σ) (key : GoString) : TTLStore σ := (t.untrack key).delInner key

/-- `evictIfNeeded`. -/
def evictIfNeeded (env : Environment) (t : TTLStore σ) : TTLStore σ :=
  if t.shouldEvict then
    let (candidates, t) := t.candidates env
    if candidates = [] then t
    else
      let (key, t) := t.chooseKey env candidates
      if key = [] then t else t.del key
  else t

/-- The body of `Set` and `HSet`. -/
def write (env : Environment) (t : TTLStore σ) (w : Write) : TTLStore σ :=
  ((t.writeInner w).track env w.key).evictIfNeeded env

/-- `Set`. -/
def set (env : Environment) (t : TTLStore σ) (key value : GoString) : TTLStore σ :=
  t.write env (.set key value)

/-- `HSet`. -/
def hset (env : Environment) (t : TTLStore σ) (hash key value : GoString) : TTLStore σ :=
  t.write env (.hset hash key value)

/-- `SetWithTTL`. -/
def setWithTTL (env : Environment) (t : TTLStore σ) (key value : GoString) (ttl : Duration) :
    TTLStore σ :=
  (t.setDeadline env key ttl).set env key value

/-- The body of `Get`, `HGet` and `HGetAll`. -/
def read (env : Environment) (t : TTLStore σ) (r : Read) : Reply × TTLStore σ :=
  let (expired, t) := t.isPast env (t.expireAt.lookup r.key)
  if expired then (r.missing, t.del r.key)
  else
    let t := t.record env r.key
    (r.answer t.inner, t)

/-- `Get`. -/
def get (env : Environment) (t : TTLStore σ) (key : GoString) : Reply × TTLStore σ :=
  t.read env (.get key)

/-- `HGet`. -/
def hget (env : Environment) (t : TTLStore σ) (hash key : GoString) : Reply × TTLStore σ :=
  t.read env (.hget hash key)

/-- `HGetAll`. -/
def hgetAll (env : Environment) (t : TTLStore σ) (hash : GoString) : Reply × TTLStore σ :=
  t.read env (.hgetAll hash)

/-- `Expire`. -/
def expire (env : Environment) (t : TTLStore σ) (key : GoString) (ttl : Duration) :
    Bool × TTLStore σ :=
  if (StoreInterface.get t.inner key).2 then (true, t.setDeadline env key ttl) else (false, t)

omit [StoreInterface σ] in
/-- `TTL`. -/
def ttl (env : Environment) (t : TTLStore σ) (key : GoString) : Duration × TTLStore σ :=
  t.remaining env (t.expireAt.lookup key)

/-- One round of the second loop of `sweep`. -/
def dropExpired (t : TTLStore σ) (key : GoString) : TTLStore σ := (t.forget key).delInner key

/-- `sweep`. -/
def sweep (env : Environment) (t : TTLStore σ) : TTLStore σ :=
  let (expired, t) := t.collectExpired env
  expired.foldl dropExpired t

/-- One call. -/
def call (env : Environment) (t : TTLStore σ) : Call → Reply × TTLStore σ
  | .write (.set key value) => (.nothing, t.set env key value)
  | .write (.hset hash key value) => (.nothing, t.hset env hash key value)
  | .setWithTTL key value ttl => (.nothing, t.setWithTTL env key value ttl)
  | .read (.get key) => t.get env key
  | .read (.hget hash key) => t.hget env hash key
  | .read (.hgetAll hash) => t.hgetAll env hash
  | .del key => (.nothing, t.del key)
  | .expire key ttl => ((t.expire env key ttl).map .flag id)
  | .ttl key => (t.ttl env key).map .duration id
  | .sweep => (.nothing, t.sweep env)

/-- A sequence of calls, one after another. -/
def run (env : Environment) (t : TTLStore σ) (calls : List Call) : TTLStore σ :=
  calls.foldl (fun t c ↦ (t.call env c).2) t

/-- What an eviction can do: at most one key is deleted. -/
theorem evictIfNeeded_cases (env : Environment) (t : TTLStore σ) :
    ∃ requests, t.evictIfNeeded env = { t with requests := requests } ∨
      ∃ key, t.evictIfNeeded env = { t with requests := requests }.del key := by
  unfold evictIfNeeded
  by_cases hshould : t.shouldEvict = true
  · rw [if_pos hshould]
    by_cases hempty : (t.candidates env).1 = []
    · refine ⟨t.requests + 1, Or.inl ?_⟩
      simp only [if_pos hempty]
      rfl
    · simp only [if_neg hempty]
      obtain ⟨key, hchoose⟩ :
          ∃ key, ((t.candidates env).2.chooseKey env (t.candidates env).1).1 = key := ⟨_, rfl⟩
      simp only [hchoose]
      by_cases hkey : key = []
      · refine ⟨t.requests + 1 + 1, Or.inl ?_⟩
        simp only [if_pos hkey]
        rfl
      · refine ⟨t.requests + 1 + 1, Or.inr ⟨key, ?_⟩⟩
        simp only [if_neg hkey]
        rfl
  · rw [if_neg hshould]
    exact ⟨t.requests, Or.inl rfl⟩

omit [StoreInterface σ] in
/-- What the look at a deadline can do. -/
theorem isPast_cases (env : Environment) (t : TTLStore σ) (deadline : Option Time) :
    ∃ requests, (t.isPast env deadline).2 = { t with requests := requests } := by
  cases deadline with
  | none => exact ⟨t.requests, rfl⟩
  | some exp => exact ⟨t.requests + 1, rfl⟩

/-- What a read can do: it finds the deadline over and deletes the key, or it asks the store inside.
-/
theorem read_cases (env : Environment) (t : TTLStore σ) (r : Read) :
    ∃ requests, t.read env r = (r.missing, { t with requests := requests }.del r.key) ∨
      ∃ now, t.read env r = (r.answer t.inner,
        { t with policy := t.policy.record now r.key, requests := requests }) := by
  obtain ⟨requests, hpast⟩ := t.isPast_cases env (t.expireAt.lookup r.key)
  unfold read
  by_cases hexpired : (t.isPast env (t.expireAt.lookup r.key)).1 = true
  · refine ⟨requests, Or.inl ?_⟩
    simp only [if_pos hexpired, hpast]
  · refine ⟨requests + 1, Or.inr ⟨env.now requests, ?_⟩⟩
    simp only [if_neg hexpired, hpast]
    rfl

/-- A read of a key whose deadline is not over is answered by the store inside. -/
theorem read_of_le {env : Environment} {t : TTLStore σ} {r : Read}
    (hahead : ∀ exp ∈ t.expireAt.lookup r.key, env.now t.requests ≤ exp) :
    ∃ policy requests, t.read env r =
      (r.answer t.inner, { t with policy := policy, requests := requests }) := by
  have hpast : ¬ (t.isPast env (t.expireAt.lookup r.key)).1 = true := by
    cases hdeadline : t.expireAt.lookup r.key with
    | none => exact Bool.false_ne_true
    | some exp =>
      intro hover
      exact absurd (hahead exp hdeadline) (not_le.mpr (of_decide_eq_true hover))
  obtain ⟨requests, hread⟩ := t.isPast_cases env (t.expireAt.lookup r.key)
  refine ⟨t.policy.record (env.now requests) r.key, requests + 1, ?_⟩
  unfold read
  simp only [if_neg hpast, hread]
  rfl

/-- What the first loop of a sweep does: the keys lose their deadline and are not tracked any more,
and everything else stays. -/
structure KeysRemoved (keys : List GoString) (t t' : TTLStore σ) : Prop where
  inner : t'.inner = t.inner
  policy : t'.policy = t.policy
  tracked : ∀ k, k ∈ t'.allKeys ↔ k ∈ t.allKeys ∧ k ∉ keys
  deadlines : ∀ k, k ∈ t'.expireAt ↔ k ∈ t.expireAt ∧ k ∉ keys

omit [StoreInterface σ] in
theorem keysRemoved_foldl (t : TTLStore σ) (keys : List GoString) :
    KeysRemoved keys t (keys.foldl removeKey t) := by
  induction keys generalizing t with
  | nil => exact ⟨rfl, rfl, fun k ↦ by simp, fun k ↦ by simp⟩
  | cons key keys ih =>
    have hrest := ih (t.removeKey key)
    refine ⟨hrest.inner, hrest.policy, fun k ↦ ?_, fun k ↦ ?_⟩
    · have hremove : k ∈ (t.removeKey key).allKeys ↔ k ≠ key ∧ k ∈ t.allKeys := Finset.mem_erase
      rw [List.foldl_cons, hrest.tracked, hremove, and_comm (a := k ≠ key), and_assoc,
        List.mem_cons, not_or]
    · have hremove : k ∈ (t.removeKey key).expireAt ↔ k ≠ key ∧ k ∈ t.expireAt := Finmap.mem_erase
      rw [List.foldl_cons, hrest.deadlines, hremove, and_comm (a := k ≠ key), and_assoc,
        List.mem_cons, not_or]

omit [StoreInterface σ] in
/-- The critical section of a sweep. -/
theorem keysRemoved_collectExpired (env : Environment) (t : TTLStore σ) :
    KeysRemoved (t.expiredKeys env) t (t.collectExpired env).2 :=
  ⟨(keysRemoved_foldl t _).inner, (keysRemoved_foldl t _).policy, (keysRemoved_foldl t _).tracked,
    (keysRemoved_foldl t _).deadlines⟩

/-- A sweep keeps what its two loops keep. -/
theorem sweep_induction {motive : TTLStore σ → Prop} (env : Environment) {t : TTLStore σ}
    (ht : motive t) (hremove : ∀ t key, motive t → motive (t.removeKey key))
    (hrequests : ∀ t n, motive t → motive { t with requests := n })
    (hdrop : ∀ t key, motive t → motive (t.dropExpired key)) : motive (t.sweep env) := by
  have hcollected : motive ((t.expiredKeys env).foldl removeKey t) :=
    List.foldlRecOn _ _ ht fun t h key _ ↦ hremove t key h
  exact List.foldlRecOn _ _ (hrequests _ _ hcollected) fun t h key _ ↦ hdrop t key h

/-- A call keeps what the changes that it is made of keep. -/
theorem call_induction {motive : TTLStore σ → Prop} {env : Environment} {t : TTLStore σ} (c : Call)
    (ht : motive t) (hinner : ∀ t inner, motive t → motive { t with inner := inner })
    (hrequests : ∀ t n, motive t → motive { t with requests := n })
    (haddKey : ∀ t key, motive t → motive (t.addKey key))
    (hremoveKey : ∀ t key, motive t → motive (t.removeKey key))
    (hdeadline : ∀ t key ttl, motive t → motive (t.setDeadline env key ttl))
    (hrecord : ∀ t now key, motive t → motive { t with policy := t.policy.record now key })
    (hforget : ∀ t key, motive t → motive (t.forget key)) : motive (t.call env c).2 := by
  have hdel {t : TTLStore σ} (key : GoString) (ht : motive t) : motive (t.del key) :=
    hinner _ _ (hforget _ key (hremoveKey _ key ht))
  have hwrite {t : TTLStore σ} (w : Write) (ht : motive t) : motive (t.write env w) := by
    have htracked : motive ((t.writeInner w).track env w.key) :=
      hrequests _ _ (hrecord _ _ w.key (haddKey _ w.key (hinner _ _ ht)))
    unfold write
    obtain ⟨requests, hevict | ⟨key, hevict⟩⟩ :=
      ((t.writeInner w).track env w.key).evictIfNeeded_cases env
    · rw [hevict]
      exact hrequests _ _ htracked
    · rw [hevict]
      exact hdel key (hrequests _ _ htracked)
  have hread (r : Read) : motive (t.read env r).2 := by
    obtain ⟨requests, hread | ⟨now, hread⟩⟩ := t.read_cases env r
    · rw [hread]
      exact hdel r.key (hrequests _ _ ht)
    · rw [hread]
      exact hrequests _ requests (hrecord _ now r.key ht)
  cases c with
  | write w =>
    cases w with
    | set key value => exact hwrite (.set key value) ht
    | hset hash key value => exact hwrite (.hset hash key value) ht
  | setWithTTL key value ttl => exact hwrite (.set key value) (hdeadline _ key ttl ht)
  | read r =>
    cases r with
    | get key => exact hread (.get key)
    | hget hash key => exact hread (.hget hash key)
    | hgetAll hash => exact hread (.hgetAll hash)
  | del key => exact hdel key ht
  | expire key ttl =>
    show motive (t.expire env key ttl).2
    unfold expire
    split
    · exact hdeadline _ key ttl ht
    · exact ht
  | ttl key =>
    show motive (t.remaining env (t.expireAt.lookup key)).2
    cases t.expireAt.lookup key with
    | none => exact ht
    | some exp => exact hrequests _ _ ht
  | sweep =>
    exact sweep_induction env ht hremoveKey hrequests fun _ key h ↦ hinner _ _ (hforget _ key h)

end TTLStore

/-! ### The bookkeeping -/

section Bookkeeping

open TTLStore

variable {σ : Type} [KeyedStore σ] {t : TTLStore σ}

/-- The tracked keys are the keys of the store inside, and every key with a deadline is tracked. -/
structure Bookkept (t : TTLStore σ) : Prop where
  tracked : t.allKeys = KeyedStore.keys t.inner
  deadlines : ∀ k ∈ t.expireAt, k ∈ t.allKeys

theorem keys_writeInner (t : TTLStore σ) (w : Write) :
    KeyedStore.keys (t.writeInner w).inner = insert w.key (KeyedStore.keys t.inner) := by
  cases w with
  | set key value => exact KeyedStore.keys_set t.inner key value
  | hset hash key value => exact KeyedStore.keys_hset t.inner hash key value

/-- Assumes: tracked keys in step with the store inside, and a deadline of a key that is not
tracked only for the key of the write. -/
theorem Bookkept.of_write (env : Environment) (w : Write)
    (htracked : t.allKeys = KeyedStore.keys t.inner)
    (hdeadlines : ∀ k ∈ t.expireAt, k = w.key ∨ k ∈ t.allKeys) :
    Bookkept ((t.writeInner w).track env w.key) := by
  refine ⟨?_, fun k hk ↦ ?_⟩
  · show insert w.key t.allKeys = KeyedStore.keys (t.writeInner w).inner
    rw [keys_writeInner, htracked]
  · exact Finset.mem_insert.mpr (hdeadlines k hk)

/-- `Del`, `delExpired` and the end of an eviction. -/
theorem Bookkept.del (ht : Bookkept t) (key : GoString) : Bookkept (t.del key) := by
  refine ⟨?_, fun k hk ↦ ?_⟩
  · show t.allKeys.erase key = KeyedStore.keys (StoreInterface.del t.inner key)
    rw [KeyedStore.keys_del, ht.tracked]
  · have hmem : k ≠ key ∧ k ∈ t.expireAt := Finmap.mem_erase.mp hk
    exact Finset.mem_erase.mpr ⟨hmem.1, ht.deadlines k hmem.2⟩

/-- The bookkeeping does not look at the number of requests to the environment. -/
theorem Bookkept.requests (ht : Bookkept t) (requests : ℕ) :
    Bookkept { t with requests := requests } :=
  ⟨ht.tracked, ht.deadlines⟩

theorem Bookkept.evictIfNeeded (ht : Bookkept t) (env : Environment) :
    Bookkept (t.evictIfNeeded env) := by
  obtain ⟨requests, hevict | ⟨key, hevict⟩⟩ := t.evictIfNeeded_cases env
  · rw [hevict]
    exact ht.requests requests
  · rw [hevict]
    exact (ht.requests requests).del key

theorem Bookkept.write (ht : Bookkept t) (env : Environment) (w : Write) :
    Bookkept (t.write env w) :=
  (Bookkept.of_write env w ht.tracked fun k hk ↦ Or.inr (ht.deadlines k hk)).evictIfNeeded env

theorem Bookkept.setWithTTL (ht : Bookkept t) (env : Environment) (key value : GoString)
    (ttl : Duration) : Bookkept (t.setWithTTL env key value ttl) := by
  refine (Bookkept.of_write env (.set key value) ?_ fun k hk ↦ ?_).evictIfNeeded env
  · exact ht.tracked
  · have hmem : k = key ∨ k ∈ t.expireAt := Finmap.mem_insert.mp hk
    exact hmem.imp_right (ht.deadlines k)

theorem Bookkept.read (ht : Bookkept t) (env : Environment) (r : Read) :
    Bookkept (t.read env r).2 := by
  obtain ⟨requests, hread | ⟨now, hread⟩⟩ := t.read_cases env r
  · rw [hread]
    exact (ht.requests requests).del r.key
  · rw [hread]
    exact ⟨ht.tracked, ht.deadlines⟩

theorem Bookkept.expire (ht : Bookkept t) (env : Environment) (key : GoString) (ttl : Duration) :
    Bookkept (t.expire env key ttl).2 := by
  unfold TTLStore.expire
  by_cases hget : (StoreInterface.get t.inner key).2 = true
  · rw [if_pos hget]
    refine ⟨ht.tracked, fun k hk ↦ ?_⟩
    have hmem : k = key ∨ k ∈ t.expireAt := Finmap.mem_insert.mp hk
    rcases hmem with rfl | hmem
    · show k ∈ t.allKeys
      rw [ht.tracked]
      exact KeyedStore.mem_keys_of_get t.inner k hget
    · exact ht.deadlines k hmem
  · rw [if_neg hget]
    exact ht

theorem Bookkept.ttl (ht : Bookkept t) (env : Environment) (key : GoString) :
    Bookkept (t.ttl env key).2 := by
  unfold TTLStore.ttl
  cases t.expireAt.lookup key with
  | none => exact ht
  | some exp => exact ht.requests _

/-! #### The sweep -/

/-- Between the two loops of a sweep: the keys that are still to be dropped from the store inside
are not tracked any more, and everything else is in step. -/
structure Sweeping (pending : List GoString) (t : TTLStore σ) : Prop where
  tracked : t.allKeys = KeyedStore.keys t.inner \ pending.toFinset
  deadlines : ∀ k ∈ t.expireAt, k ∈ t.allKeys

/-- The first loop of a sweep. -/
theorem Bookkept.collectExpired (ht : Bookkept t) (env : Environment) :
    Sweeping (t.expiredKeys env) (t.collectExpired env).2 := by
  have hremoved := keysRemoved_collectExpired env t
  refine ⟨?_, fun k hk ↦ ?_⟩
  · ext k
    rw [hremoved.tracked, ht.tracked, hremoved.inner, Finset.mem_sdiff, List.mem_toFinset]
  · obtain ⟨hmem, hstays⟩ := (hremoved.deadlines k).mp hk
    exact (hremoved.tracked k).mpr ⟨ht.deadlines k hmem, hstays⟩

/-- The second loop of a sweep. -/
theorem Sweeping.dropExpired {pending : List GoString} (ht : Sweeping pending t) :
    Bookkept (pending.foldl TTLStore.dropExpired t) := by
  induction pending generalizing t with
  | nil =>
    refine ⟨?_, ht.deadlines⟩
    have htracked := ht.tracked
    rwa [List.toFinset_nil, Finset.sdiff_empty] at htracked
  | cons key pending ih =>
    refine ih ⟨?_, ht.deadlines⟩
    show t.allKeys = KeyedStore.keys (StoreInterface.del t.inner key) \ pending.toFinset
    rw [KeyedStore.keys_del, ht.tracked]
    ext k
    simp only [Finset.mem_erase, Finset.mem_sdiff, List.toFinset_cons, Finset.mem_insert]
    tauto

theorem Bookkept.sweep (ht : Bookkept t) (env : Environment) : Bookkept (t.sweep env) :=
  (ht.collectExpired env).dropExpired

/-! #### Whole runs -/

/-- Every call keeps the bookkeeping. -/
theorem Bookkept.call (ht : Bookkept t) (env : Environment) (c : Call) :
    Bookkept (t.call env c).2 := by
  cases c with
  | write w =>
    cases w with
    | set key value => exact ht.write env (.set key value)
    | hset hash key value => exact ht.write env (.hset hash key value)
  | setWithTTL key value ttl => exact ht.setWithTTL env key value ttl
  | read r =>
    cases r with
    | get key => exact ht.read env (.get key)
    | hget hash key => exact ht.read env (.hget hash key)
    | hgetAll hash => exact ht.read env (.hgetAll hash)
  | del key => exact ht.del key
  | expire key ttl => exact ht.expire env key ttl
  | ttl key => exact ht.ttl env key
  | sweep => exact ht.sweep env

/-- A run of calls keeps the bookkeeping. -/
theorem Bookkept.run (ht : Bookkept t) (env : Environment) (calls : List Call) :
    Bookkept (t.run env calls) := by
  induction calls generalizing t with
  | nil => exact ht
  | cons c calls ih => exact ih (ht.call env c)

theorem bookkept_new {inner : σ} (hinner : KeyedStore.keys inner = ∅) (policy : Policy)
    (maxKeys : ℤ) : Bookkept ((TTLStore.new inner).setEvictionPolicy policy maxKeys) := by
  refine ⟨hinner.symm, fun k hk ↦ ?_⟩
  exact absurd hk Finmap.notMem_empty

end Bookkeeping

/-! ### Without eviction and without deadlines -/

section Permanent

variable {σ : Type} [StoreInterface σ] {t : TTLStore σ}

/-- What an eviction does under the policy that evicts nothing. -/
theorem evictIfNeeded_noEviction (hpolicy : t.policy = .noEviction) (env : Environment) :
    ∃ requests, t.evictIfNeeded env = { t with requests := requests } := by
  unfold TTLStore.evictIfNeeded
  by_cases hshould : t.shouldEvict = true
  · rw [if_pos hshould]
    by_cases hempty : (t.candidates env).1 = []
    · refine ⟨t.requests + 1, ?_⟩
      simp only [if_pos hempty]
      rfl
    · have hkey : ((t.candidates env).2.chooseKey env (t.candidates env).1).1 = [] := by
        unfold TTLStore.chooseKey TTLStore.candidates
        simp only [hpolicy]
        rfl
      refine ⟨t.requests + 1 + 1, ?_⟩
      simp only [if_neg hempty, if_pos hkey]
      rfl
  · rw [if_neg hshould]
    exact ⟨t.requests, rfl⟩

/-- No key is evicted, and no key has a deadline. -/
structure Permanent (t : TTLStore σ) : Prop where
  policy : t.policy = .noEviction
  expireAt : t.expireAt = ∅

omit [StoreInterface σ] in
theorem permanent_new (inner : σ) (maxKeys : ℤ) :
    Permanent ((TTLStore.new inner).setEvictionPolicy .noEviction maxKeys) :=
  ⟨rfl, rfl⟩

/-- A write under the policy that evicts nothing is a write to the store inside. -/
theorem write_noEviction (hpolicy : t.policy = .noEviction) (env : Environment) (w : Write) :
    (t.write env w).policy = .noEviction ∧ (t.write env w).expireAt = t.expireAt ∧
      (t.write env w).inner = w.apply t.inner := by
  have htracked : ((t.writeInner w).track env w.key).policy = .noEviction := by
    show t.policy.record _ _ = _
    rw [hpolicy]
    rfl
  obtain ⟨requests, hevict⟩ := evictIfNeeded_noEviction htracked env
  rw [TTLStore.write, hevict]
  exact ⟨htracked, rfl, rfl⟩

theorem Permanent.write (ht : Permanent t) (env : Environment) (w : Write) :
    Permanent (t.write env w) ∧ (t.write env w).inner = w.apply t.inner := by
  obtain ⟨hpolicy, hexpireAt, hinner⟩ := write_noEviction ht.policy env w
  exact ⟨⟨hpolicy, hexpireAt.trans ht.expireAt⟩, hinner⟩

/-- Writes one after another. -/
theorem Permanent.writes (ht : Permanent t) (env : Environment) (writes : List Write) :
    Permanent (writes.foldl (TTLStore.write env) t) ∧
      (writes.foldl (TTLStore.write env) t).inner = writes.foldl Write.apply t.inner := by
  induction writes generalizing t with
  | nil => exact ⟨ht, rfl⟩
  | cons w writes ih =>
    obtain ⟨hpermanent, hinner⟩ := ht.write env w
    rw [List.foldl_cons, List.foldl_cons, ← hinner]
    exact ih hpermanent

/-- Without deadlines a read is a read of the store inside. -/
theorem read_of_expireAt_empty (hexpireAt : t.expireAt = ∅) (env : Environment) (r : Read) :
    (t.read env r).1 = r.answer t.inner := by
  rw [TTLStore.read, hexpireAt, Finmap.lookup_empty]
  rfl

/-- Without deadlines a sweep finds nothing. -/
theorem sweep_of_expireAt_empty (hexpireAt : t.expireAt = ∅) (env : Environment) :
    t.sweep env = { t with requests := (t.sweep env).requests } := by
  have hexpired : t.expiredKeys env = [] := by
    rw [TTLStore.expiredKeys, hexpireAt]
    simp
  rw [TTLStore.sweep, TTLStore.collectExpired]
  simp only [hexpired]
  rfl

theorem Permanent.read (ht : Permanent t) (env : Environment) (r : Read) :
    (t.read env r).1 = r.answer t.inner :=
  read_of_expireAt_empty ht.expireAt env r

theorem Permanent.sweep (ht : Permanent t) (env : Environment) :
    Permanent (t.sweep env) ∧ (t.sweep env).inner = t.inner := by
  rw [sweep_of_expireAt_empty ht.expireAt env]
  exact ⟨⟨ht.policy, ht.expireAt⟩, rfl⟩

end Permanent

/-- In every sequential run from a fresh store over a fresh map store, with any policy, limit,
clock, iteration orders and random draws, the tracked keys are after every call the keys that hold a
string or a hash, and every key with a deadline is tracked. -/
theorem ttl_bookkeeping (env : Environment) (policy : Policy) (maxKeys : ℤ) (calls : List Call) :
    let t := ((TTLStore.new MapStore.new).setEvictionPolicy policy maxKeys).run env calls
    t.allKeys = t.inner.strings.keys ∪ t.inner.hashes.keys ∧
      ∀ k ∈ t.expireAt, k ∈ t.allKeys := by
  intro t
  have hnew : KeyedStore.keys MapStore.new = ∅ := rfl
  have ht : Bookkept t := (bookkept_new hnew policy maxKeys).run env calls
  exact ⟨ht.tracked, ht.deadlines⟩

end FluxCache.Store
