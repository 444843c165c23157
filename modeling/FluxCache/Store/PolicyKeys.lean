import FluxCache.Store.PolicyMemory

/-!
# The keys that a policy remembers

The policies for the least recently and the least frequently used key remember a key from its first
`Record` to its `Delete` (`Policy.keys`). The store tracks a key from a write to its removal. A
write, a deletion, an eviction and a sweep change both sets in the same way. A read records its key
and tracks nothing, so it is the one call that takes the sets apart: exactly if the key is not there
(`synced_call_iff`). The key of such a read is remembered until it is deleted, and if it is written
before that, its count does not start at one.
-/

set_option autoImplicit false
set_option relaxedAutoImplicit false

namespace FluxCache.Store

open FluxCache.Foundation

namespace Policy

/-- The keys of the map `access` or `freq`. -/
def keys : Policy → Finset GoString
  | lru access => access.keys
  | lfu freq => freq.keys
  | noEviction => ∅
  | random => ∅
  | ttl => ∅

variable {policy : Policy}

theorem Remembers.keys_record (h : policy.Remembers) (now : Time) (key : GoString) :
    (policy.record now key).keys = insert key policy.keys := by
  cases policy with
  | lru access => exact keys_insert access key now
  | lfu freq => exact keys_insert freq key _
  | noEviction => exact absurd h id
  | random => exact absurd h id
  | ttl => exact absurd h id

theorem Remembers.keys_delete (h : policy.Remembers) (key : GoString) :
    (policy.delete key).keys = policy.keys.erase key := by
  cases policy with
  | lru access => exact Finmap.keys_erase key access
  | lfu freq => exact Finmap.keys_erase key freq
  | noEviction => exact absurd h id
  | random => exact absurd h id
  | ttl => exact absurd h id

end Policy

namespace TTLStore

variable {σ : Type} {env : Environment} {t : TTLStore σ}

/-- The policy has a memory, and remembers the tracked keys and no others. -/
structure Synced (t : TTLStore σ) : Prop where
  policy : t.policy.Remembers
  keys : t.policy.keys = t.allKeys

theorem Synced.track (ht : Synced t) (env : Environment) (key : GoString) :
    Synced (t.track env key) := by
  refine ⟨ht.policy.record _ key, ?_⟩
  show (t.policy.record _ key).keys = insert key t.allKeys
  rw [ht.policy.keys_record, ht.keys]

section Calls

variable [StoreInterface σ]

theorem Synced.del (ht : Synced t) (requests : ℕ) (key : GoString) :
    Synced ({ t with requests := requests }.del key) := by
  refine ⟨ht.policy.delete key, ?_⟩
  show (t.policy.delete key).keys = t.allKeys.erase key
  rw [ht.policy.keys_delete, ht.keys]

theorem Synced.write (ht : Synced t) (env : Environment) (w : Write) : Synced (t.write env w) := by
  have hinner : Synced (t.writeInner w) := ⟨ht.policy, ht.keys⟩
  have htracked := hinner.track env w.key
  obtain ⟨requests, hevict | ⟨key, hevict⟩⟩ :=
    ((t.writeInner w).track env w.key).evictIfNeeded_cases env
  · rw [TTLStore.write, hevict]
    exact ⟨htracked.policy, htracked.keys⟩
  · rw [TTLStore.write, hevict]
    exact htracked.del requests key

/-- The second loop of a sweep. -/
theorem keys_dropExpired (keys : List GoString) {t : TTLStore σ} (ht : t.policy.Remembers) :
    (keys.foldl dropExpired t).policy.Remembers ∧
      ∀ k, k ∈ (keys.foldl dropExpired t).policy.keys ↔ k ∈ t.policy.keys ∧ k ∉ keys := by
  induction keys generalizing t with
  | nil => exact ⟨ht, fun k ↦ by simp⟩
  | cons key keys ih =>
    have hdrop : (t.dropExpired key).policy.Remembers := ht.delete key
    have hkeys : (t.dropExpired key).policy.keys = t.policy.keys.erase key := ht.keys_delete key
    refine ⟨(ih hdrop).1, fun k ↦ ?_⟩
    rw [List.foldl_cons, (ih hdrop).2, hkeys, Finset.mem_erase, and_comm (a := k ≠ key), and_assoc,
      List.mem_cons, not_or]

theorem Synced.sweep (ht : Synced t) (env : Environment) : Synced (t.sweep env) := by
  have hremoved := keysRemoved_collectExpired env t
  have hpolicy : (t.collectExpired env).2.policy.Remembers := by
    rw [hremoved.policy]
    exact ht.policy
  obtain ⟨hafter, hkeys⟩ := keys_dropExpired (t.expiredKeys env) hpolicy
  have htracked := (dropExpired_eq (t.collectExpired env).2 (t.expiredKeys env)).1
  refine ⟨hafter, Finset.ext fun key ↦ (hkeys key).trans ?_⟩
  rw [hremoved.policy, ht.keys, ← hremoved.tracked, ← htracked]
  rfl

end Calls

/-! ### Reads -/

section Reads

variable [KeyedStore σ]

/-- A read keeps the two sets together exactly if its key is tracked. Assumes: the keys with a
deadline are tracked. -/
theorem synced_read_iff (ht : Synced t) (hbooks : Bookkept t) (env : Environment) (r : Read) :
    Synced (t.read env r).2 ↔ r.key ∈ t.allKeys := by
  constructor
  · intro hsynced
    by_contra hmissing
    have hnone : t.expireAt.lookup r.key = none := by
      rw [Finmap.lookup_eq_none]
      exact fun hmem ↦ hmissing (hbooks.deadlines r.key hmem)
    have hread : (t.read env r).2 = t.record env r.key := by
      rw [TTLStore.read, hnone]
      rfl
    have hkeys := hsynced.keys
    rw [hread] at hkeys
    have hrecord : (t.record env r.key).policy.keys = insert r.key t.policy.keys :=
      ht.policy.keys_record _ r.key
    refine hmissing (hkeys.subset ?_)
    rw [hrecord]
    exact Finset.mem_insert_self _ _
  · intro hmem
    obtain ⟨requests, hread | ⟨now, hread⟩⟩ := t.read_cases env r
    · rw [hread]
      exact ht.del requests r.key
    · rw [hread]
      refine ⟨ht.policy.record now r.key, ?_⟩
      show (t.policy.record now r.key).keys = t.allKeys
      rw [ht.policy.keys_record, ht.keys, Finset.insert_eq_self.mpr hmem]

/-- Every call keeps the two sets together unless it reads a key that is not tracked. -/
theorem synced_call_iff (ht : Synced t) (hbooks : Bookkept t) (env : Environment) (c : Call) :
    Synced (t.call env c).2 ↔ ∀ r, c = .read r → r.key ∈ t.allKeys := by
  have hkept (hc : ∀ r, c ≠ .read r) (hsynced : Synced (t.call env c).2) :
      Synced (t.call env c).2 ↔ ∀ r, c = .read r → r.key ∈ t.allKeys :=
    iff_of_true hsynced fun r hr ↦ absurd hr (hc r)
  have hread {r : Read} : Synced (t.read env r).2 ↔
      ∀ other, Call.read r = .read other → other.key ∈ t.allKeys := by
    rw [synced_read_iff ht hbooks]
    constructor
    · intro hmem other heq
      rwa [← Call.read.inj heq]
    · exact fun hall ↦ hall r rfl
  cases c with
  | write w =>
    refine hkept (fun r ↦ nofun) ?_
    cases w with
    | set key value => exact ht.write env (.set key value)
    | hset hash key value => exact ht.write env (.hset hash key value)
  | setWithTTL key value ttl =>
    have hdeadline : Synced (t.setDeadline env key ttl) := ⟨ht.policy, ht.keys⟩
    exact hkept (fun r ↦ nofun) (hdeadline.write env (.set key value))
  | read r =>
    cases r with
    | get key => exact hread
    | hget hash key => exact hread
    | hgetAll hash => exact hread
  | del key => exact hkept (fun r ↦ nofun) (ht.del t.requests key)
  | expire key ttl =>
    refine hkept (fun r ↦ nofun) ?_
    show Synced (t.expire env key ttl).2
    unfold TTLStore.expire
    split
    · exact ⟨ht.policy, ht.keys⟩
    · exact ht
  | ttl key =>
    refine hkept (fun r ↦ nofun) ?_
    show Synced (t.remaining env (t.expireAt.lookup key)).2
    cases t.expireAt.lookup key with
    | none => exact ht
    | some exp => exact ⟨ht.policy, ht.keys⟩
  | sweep => exact hkept (fun r ↦ nofun) (ht.sweep env)

/-- The two sets are the same all along a run exactly if no read of the run comes when its key is
not tracked. -/
theorem synced_run_iff (ht : Synced t) (hbooks : Bookkept t) (env : Environment)
    (calls : List Call) :
    (∀ front, front <+: calls → Synced (t.run env front)) ↔
      ∀ front r, front ++ [.read r] <+: calls → r.key ∈ (t.run env front).allKeys := by
  constructor
  · intro hsynced front r hstep
    have hfront := hsynced front ((List.prefix_append front [.read r]).trans hstep)
    refine (synced_call_iff hfront (hbooks.run env front) env (.read r)).mp ?_ r rfl
    rw [← run_append]
    exact hsynced _ hstep
  · intro hreads front
    induction front using List.reverseRecOn with
    | nil => exact fun _ ↦ ht
    | append_singleton front c ih =>
      intro hstep
      have hfront := ih ((List.prefix_append front [c]).trans hstep)
      rw [run_append]
      refine (synced_call_iff hfront (hbooks.run env front) env c).mpr ?_
      rintro r rfl
      exact hreads front r hstep

end Reads

end TTLStore

open TTLStore

/-- In every run with the policy for the least recently or the least frequently used key, the keys
that the policy remembers are the tracked ones all along the run exactly if no read comes when its
key is not tracked. Where they are, the policy remembers as many keys as the store holds, and the
count of a key that is not there starts at one. -/
theorem policy_keys_iff (env : Environment) {policy : Policy}
    (hpolicy : policy = .lru ∅ ∨ policy = .lfu ∅) (m : ℤ) (calls : List Call) :
    let t (front : List Call) : TTLStore MapStore :=
      ((TTLStore.new MapStore.new).setEvictionPolicy policy m).run env front
    ((∀ front, front <+: calls → (t front).policy.keys = (t front).allKeys) ↔
      ∀ front r, front ++ [.read r] <+: calls → r.key ∈ (t front).allKeys) ∧
    ∀ front, (t front).policy.keys = (t front).allKeys →
      (t front).policy.keys.card =
          ((t front).inner.strings.keys ∪ (t front).inner.hashes.keys).card ∧
        ∀ key ∉ (t front).allKeys, ∀ freq, ((t front).track env key).policy = .lfu freq →
          freq.lookup key = some 1 := by
  intro t
  have hstart : policy.Remembers ∧ policy.keys = ∅ := by
    rcases hpolicy with rfl | rfl
    · exact ⟨trivial, rfl⟩
    · exact ⟨trivial, rfl⟩
  have hnew : KeyedStore.keys MapStore.new = ∅ := rfl
  have hbooks := bookkept_new hnew policy m
  have hremembers (front : List Call) : (t front).policy.Remembers :=
    policy_run (fun _ now key ↦ Policy.Remembers.record now key)
      (fun _ key ↦ Policy.Remembers.delete key) env front hstart.1
  refine ⟨?_, fun front hkeys ↦ ⟨?_, fun key hkey freq hfreq ↦ ?_⟩⟩
  · rw [← synced_run_iff ⟨hstart.1, hstart.2⟩ hbooks env calls]
    exact forall_congr' fun front ↦ forall_congr' fun _ ↦
      ⟨fun h ↦ ⟨hremembers front, h⟩, fun h ↦ h.keys⟩
  · rw [hkeys]
    exact congrArg Finset.card (hbooks.run env front).tracked
  · have hrecord : (t front).policy.record (env.now (t front).requests) key = .lfu freq := hfreq
    rw [← hkeys] at hkey
    cases hcase : (t front).policy with
    | lfu counts =>
      rw [hcase] at hrecord hkey
      have hnone : counts.lookup key = none :=
        Finmap.lookup_eq_none.mpr fun hmem ↦ hkey (Finmap.mem_keys.mpr hmem)
      rw [← Policy.lfu.inj hrecord, Finmap.lookup_insert, hnone]
      rfl
    | _ =>
      rw [hcase] at hrecord
      exact absurd hrecord nofun

/-- A key that is written and read. -/
theorem policy_keys_iff_read :
    let t := ((TTLStore.new MapStore.new).setEvictionPolicy (.lfu ∅) 2).run stillClock
      [.write (.set (text "a") (text "1")), .read (.get (text "a"))]
    t.policy.keys = t.allKeys := by
  intro t
  refine ((policy_keys_iff stillClock (Or.inr rfl) 2 _).1.mpr ?_) _ (List.prefix_refl _)
  rintro front r ⟨rest, hrest⟩
  rcases front with _ | ⟨c, _ | ⟨d, front⟩⟩
  · exact absurd (List.cons.inj hrest).1 nofun
  · obtain ⟨rfl, hread⟩ := List.cons.inj hrest
    obtain rfl := Call.read.inj (List.cons.inj hread).1
    decide
  · have hlength := congrArg List.length hrest
    simp at hlength

/-- A key that is read when it is not there is remembered, and when it is written its count starts
at two. -/
theorem policy_keys_stray :
    let t := ((TTLStore.new MapStore.new).setEvictionPolicy (.lfu ∅) 2).run stillClock
      [.read (.get (text "a"))]
    t.policy.keys = {text "a"} ∧ t.allKeys = ∅ ∧
      ∃ freq, (t.set stillClock (text "a") (text "1")).policy = .lfu freq ∧
        freq.lookup (text "a") = some 2 := by
  intro t
  exact ⟨rfl, rfl, _, rfl, rfl⟩

end FluxCache.Store
