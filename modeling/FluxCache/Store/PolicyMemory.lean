import FluxCache.Store.TTLLimit

/-!
# What the policies remember

The policies for the least recently and the least frequently used key keep a number for a key: the
time of its last use, or how often it was used (`Policy.memory`). They name a candidate with the
smallest number (`evictLowest_le`), and of several ones the first in the order of the candidates
(`evictLowest_eq_first`).

The memory and the tracked keys are kept apart. A call records the key that it uses, and a key
leaves both at the same time, by a deletion, an eviction or a sweep. What this means for the keys
that are tracked after a call is one statement (`noted_call`): such a key was used by the call and
has just been recorded, or it was tracked before and is remembered as before. So the policy has a
number for every tracked key (`Remembered.run`), although it also has numbers for keys that were
read and are not there.
-/

set_option autoImplicit false
set_option relaxedAutoImplicit false

namespace FluxCache.Store

open FluxCache.Foundation

/-! ### The smallest score -/

namespace Policy

section Lowest

variable {α β : Type} [LinearOrder α] {score : GoString → Option α}

/-- The loop of `Evict` ends with a score that no candidate is below. -/
theorem scan_le {best : GoString} {bestScore : α} (hbest : score best = some bestScore)
    (rest : List GoString) :
    ∃ s, score (scan score best bestScore rest) = some s ∧ s ≤ bestScore ∧
      ∀ key ∈ rest, ∀ s', score key = some s' → s ≤ s' := by
  induction rest generalizing best bestScore with
  | nil => exact ⟨bestScore, hbest, le_refl _, fun _ hkey ↦ absurd hkey List.not_mem_nil⟩
  | cons key rest ih =>
    rw [scan]
    cases hkey : score key with
    | none =>
      obtain ⟨s, hs, hle, hrest⟩ := ih hbest
      refine ⟨s, hs, hle, List.forall_mem_cons.mpr ⟨fun s' hs' ↦ ?_, hrest⟩⟩
      exact absurd (hkey.symm.trans hs') (by simp)
    | some keyScore =>
      have hown {s s' : α} (hle : s ≤ keyScore) (hs' : score key = some s') : s ≤ s' := by
        rwa [← Option.some.inj (hkey.symm.trans hs')]
      by_cases hlower : keyScore < bestScore
      · obtain ⟨s, hs, hle, hrest⟩ := ih hkey
        simp only [if_pos hlower]
        exact ⟨s, hs, hle.trans hlower.le,
          List.forall_mem_cons.mpr ⟨fun s' hs' ↦ hown hle hs', hrest⟩⟩
      · obtain ⟨s, hs, hle, hrest⟩ := ih hbest
        simp only [if_neg hlower]
        exact ⟨s, hs, hle, List.forall_mem_cons.mpr
          ⟨fun s' hs' ↦ hown (hle.trans (not_lt.mp hlower)) hs', hrest⟩⟩

/-- Assumes: every candidate has a score. The candidate that is named has the smallest one. -/
theorem evictLowest_le (default : α) {candidates : List GoString} (hne : candidates ≠ [])
    (hscores : ∀ key ∈ candidates, score key ≠ none) :
    ∃ s, score (evictLowest score default candidates) = some s ∧
      ∀ key ∈ candidates, ∀ s', score key = some s' → s ≤ s' := by
  obtain ⟨first, rest, rfl⟩ := List.exists_cons_of_ne_nil hne
  obtain ⟨firstScore, hfirst⟩ :=
    Option.ne_none_iff_exists'.mp (hscores first List.mem_cons_self)
  obtain ⟨s, hs, hle, hrest⟩ := scan_le hfirst rest
  rw [evictLowest, hfirst]
  refine ⟨s, hs, List.forall_mem_cons.mpr ⟨fun s' hs' ↦ ?_, hrest⟩⟩
  rwa [← Option.some.inj (hfirst.symm.trans hs')]

/-- The first candidate is named if no other one has a smaller score. -/
theorem evictLowest_eq_first (default : α) {first : GoString} {firstScore : α}
    (hfirst : score first = some firstScore) {rest : List GoString}
    (hrest : ∀ key ∈ rest, ∀ s, score key = some s → firstScore ≤ s) :
    evictLowest score default (first :: rest) = first := by
  rw [evictLowest, hfirst, Option.getD_some]
  induction rest with
  | nil => rfl
  | cons key rest ih =>
    obtain ⟨hkey, hothers⟩ := List.forall_mem_cons.mp hrest
    rw [scan]
    cases hscore : score key with
    | none => exact ih hothers
    | some s =>
      simp only [if_neg (not_lt.mpr (hkey s hscore))]
      exact ih hothers

omit [LinearOrder α] in
/-- Only the order of the scores matters. -/
theorem evictLowest_map [LT α] [DecidableLT α] [LT β] [DecidableLT β] {f : α → β}
    (hf : ∀ a b, f a < f b ↔ a < b) (score : GoString → Option α) (default : α)
    (candidates : List GoString) :
    evictLowest (fun key ↦ (score key).map f) (f default) candidates =
      evictLowest score default candidates := by
  cases candidates with
  | nil => rfl
  | cons first rest =>
    rw [evictLowest, evictLowest, Option.getD_map]
    generalize (score first).getD default = best
    induction rest generalizing first best with
    | nil => rfl
    | cons key rest ih =>
      rw [scan, scan]
      cases score key with
      | none => exact ih first best
      | some s =>
        simp only [Option.map_some, hf]
        split
        · exact ih key s
        · exact ih first best

end Lowest

/-! ### The memory of a policy -/

/-- What a policy remembers of a key: the time of its last use, or the number of its uses. -/
def memory : Policy → GoString → Option ℤ
  | lru access, key => access.lookup key
  | lfu freq, key => (freq.lookup key).map Nat.cast
  | noEviction, _ => none
  | random, _ => none
  | ttl, _ => none

/-- The policies with a memory. -/
def Remembers : Policy → Prop
  | lru _ => True
  | lfu _ => True
  | noEviction => False
  | random => False
  | ttl => False

variable {policy : Policy}

theorem Remembers.allKeys (h : policy.Remembers) : policy.AllKeys := by
  cases policy with
  | lru access => exact trivial
  | lfu freq => exact trivial
  | noEviction => exact h
  | random => exact trivial
  | ttl => exact h

theorem Remembers.record (now : Time) (key : GoString) (h : policy.Remembers) :
    (policy.record now key).Remembers := by
  cases policy <;> exact h

theorem Remembers.delete (key : GoString) (h : policy.Remembers) :
    (policy.delete key).Remembers := by
  cases policy <;> exact h

theorem memory_record_of_ne {key other : GoString} (hne : other ≠ key) (now : Time)
    (policy : Policy) : (policy.record now key).memory other = policy.memory other := by
  cases policy with
  | lru access => exact Finmap.lookup_insert_of_ne _ hne
  | lfu freq => exact congrArg (Option.map Nat.cast) (Finmap.lookup_insert_of_ne _ hne)
  | noEviction => rfl
  | random => rfl
  | ttl => rfl

theorem memory_delete_of_ne {key other : GoString} (hne : other ≠ key) (policy : Policy) :
    (policy.delete key).memory other = policy.memory other := by
  cases policy with
  | lru access => exact Finmap.lookup_erase_ne hne
  | lfu freq => exact congrArg (Option.map Nat.cast) (Finmap.lookup_erase_ne hne)
  | noEviction => rfl
  | random => rfl
  | ttl => rfl

theorem Remembers.memory_record_ne_none (h : policy.Remembers) (now : Time) (key : GoString) :
    (policy.record now key).memory key ≠ none := by
  cases policy with
  | lru access => simp [Policy.record, memory]
  | lfu freq => simp [Policy.record, memory]
  | noEviction => exact absurd h id
  | random => exact absurd h id
  | ttl => exact absurd h id

/-- A policy with a memory names a candidate with the smallest number. -/
theorem Remembers.evict_eq (h : policy.Remembers) (env : Environment) (i : ℕ)
    (candidates : List GoString) (expireAt : GoMap Time) :
    ∃ default, policy.evict env i candidates expireAt =
      evictLowest policy.memory default candidates := by
  cases policy with
  | lru access => exact ⟨zeroTime, rfl⟩
  | lfu freq =>
    exact ⟨((0 : ℕ) : ℤ), (evictLowest_map (fun a b ↦ Int.ofNat_lt) freq.lookup 0 candidates).symm⟩
  | noEviction => exact absurd h id
  | random => exact absurd h id
  | ttl => exact absurd h id

end Policy

/-! ### What a call records -/

/-- The key that a call reads or writes. -/
def Call.usedKey : Call → Option GoString
  | .write w => some w.key
  | .setWithTTL key _ _ => some key
  | .read r => some r.key
  | _ => none

theorem usedKey_of_writtenKey {c : Call} {key : GoString} (h : c.writtenKey = some key) :
    c.usedKey = some key := by
  cases c with
  | write w => exact h
  | setWithTTL written value ttl => exact h
  | _ => exact absurd h nofun

namespace TTLStore

variable {σ : Type}

/-- The reading of the clock that `Record` takes in a call. A read that finds the deadline over
records nothing. -/
def recordTime (env : Environment) (t : TTLStore σ) : Call → Option Time
  | .write _ => some (env.now t.requests)
  | .setWithTTL key _ ttl => some (env.now (t.setDeadline env key ttl).requests)
  | .read r =>
    let (expired, t) := t.isPast env (t.expireAt.lookup r.key)
    if expired then none else some (env.now t.requests)
  | _ => none

/-- What a call that recorded its key at a time has done to the keys that are tracked after it: such
a key is the one of the call and has been recorded, or it was tracked before and the policy
remembers of it what it did. -/
def Noted (c : Call) (recorded : Option Time) (t t' : TTLStore σ) : Prop :=
  ∀ key ∈ t'.allKeys,
    (c.usedKey = some key ∧ ∃ now, recorded = some now ∧
      t'.policy.memory key = (t.policy.record now key).memory key) ∨
    (c.usedKey ≠ some key ∧ key ∈ t.allKeys ∧ t'.policy.memory key = t.policy.memory key)

variable {env : Environment} {c : Call} {recorded : Option Time} {t t' : TTLStore σ}

/-- A call that uses no key and leaves what the policy remembers of the keys that stay. -/
theorem noted_of_subset (hused : c.usedKey = none) (hkeys : t'.allKeys ⊆ t.allKeys)
    (hmemory : ∀ key ∈ t'.allKeys, t'.policy.memory key = t.policy.memory key) :
    Noted c recorded t t' := by
  intro key hkey
  refine Or.inr ⟨?_, hkeys hkey, hmemory key hkey⟩
  rw [hused]
  exact nofun

section Del

variable [StoreInterface σ]

theorem memory_del (t : TTLStore σ) {key other : GoString} (hother : other ∈ (t.del key).allKeys) :
    other ∈ t.allKeys ∧ (t.del key).policy.memory other = t.policy.memory other := by
  have hmem : other ≠ key ∧ other ∈ t.allKeys := Finset.mem_erase.mp hother
  exact ⟨hmem.2, Policy.memory_delete_of_ne hmem.1 t.policy⟩

theorem Noted.del (h : Noted c recorded t t') (requests : ℕ) (key : GoString) :
    Noted c recorded t ({ t' with requests := requests }.del key) := by
  intro other hother
  obtain ⟨hmem, hmemory⟩ := memory_del _ hother
  rw [hmemory]
  exact h other hmem

theorem Noted.evictIfNeeded (h : Noted c recorded t t') (env : Environment) :
    Noted c recorded t (t'.evictIfNeeded env) := by
  obtain ⟨requests, hevict | ⟨key, hevict⟩⟩ := t'.evictIfNeeded_cases env
  · rw [hevict]
    exact h
  · rw [hevict]
    exact h.del requests key

end Del

/-! ### The sweep -/

section Sweep

variable [StoreInterface σ]

theorem dropExpired_eq (t : TTLStore σ) (keys : List GoString) :
    (keys.foldl dropExpired t).allKeys = t.allKeys ∧
      ∀ key ∉ keys, (keys.foldl dropExpired t).policy.memory key = t.policy.memory key := by
  induction keys generalizing t with
  | nil => exact ⟨rfl, fun _ _ ↦ rfl⟩
  | cons first keys ih =>
    obtain ⟨hkeys, hmemory⟩ := ih (t.dropExpired first)
    refine ⟨hkeys, fun key hkey ↦ ?_⟩
    obtain ⟨hne, hrest⟩ := not_or.mp (List.mem_cons.not.mp hkey)
    exact (hmemory key hrest).trans (Policy.memory_delete_of_ne hne t.policy)

/-- A sweep leaves what the policy remembers of the keys that stay. -/
theorem memory_sweep (env : Environment) (t : TTLStore σ) {key : GoString}
    (hkey : key ∈ (t.sweep env).allKeys) :
    key ∈ t.allKeys ∧ (t.sweep env).policy.memory key = t.policy.memory key := by
  have hremoved := keysRemoved_collectExpired env t
  obtain ⟨hkeys, hmemory⟩ := dropExpired_eq (t.collectExpired env).2 (t.expiredKeys env)
  have hkey' : key ∈ (t.collectExpired env).2.allKeys := hkeys ▸ hkey
  obtain ⟨hmem, hstays⟩ := (hremoved.tracked key).mp hkey'
  exact ⟨hmem, (hmemory key hstays).trans (by rw [hremoved.policy])⟩

end Sweep

/-! ### Calls -/

section Calls

variable [StoreInterface σ]

omit [StoreInterface σ] in
theorem noted_track {s : TTLStore σ} {key : GoString} (hpolicy : s.policy = t.policy)
    (hkeys : s.allKeys = t.allKeys) (hused : c.usedKey = some key) (env : Environment) :
    Noted c (some (env.now s.requests)) t (s.track env key) := by
  intro other hother
  have hmem : other = key ∨ other ∈ s.allKeys := Finset.mem_insert.mp hother
  by_cases hkey : other = key
  · refine Or.inl ⟨hused.trans (congrArg some hkey.symm), env.now s.requests, rfl, ?_⟩
    rw [← hpolicy, hkey]
    rfl
  · refine Or.inr ⟨?_, hkeys ▸ hmem.resolve_left hkey, ?_⟩
    · rw [hused]
      exact fun heq ↦ hkey (Option.some.inj heq).symm
    · rw [← hpolicy]
      exact Policy.memory_record_of_ne hkey _ _

/-- What a write has done when it looks at the limit. -/
theorem noted_tracked {after : TTLStore σ} (h : t.tracked env c = some after) :
    Noted c (t.recordTime env c) t after := by
  cases c with
  | write w =>
    obtain rfl := Option.some.inj h
    exact noted_track (s := t.writeInner w) rfl rfl rfl env
  | setWithTTL key value ttl =>
    obtain rfl := Option.some.inj h
    exact noted_track (s := (t.setDeadline env key ttl).writeInner (.set key value)) rfl rfl rfl env
  | read r => exact absurd h nofun
  | del key => exact absurd h nofun
  | expire key ttl => exact absurd h nofun
  | ttl key => exact absurd h nofun
  | sweep => exact absurd h nofun

theorem noted_read (env : Environment) (t : TTLStore σ) (r : Read) :
    Noted (.read r) (t.recordTime env (.read r)) t (t.read env r).2 := by
  obtain ⟨requests, hpast⟩ := t.isPast_cases env (t.expireAt.lookup r.key)
  unfold TTLStore.read recordTime
  by_cases hexpired : (t.isPast env (t.expireAt.lookup r.key)).1 = true
  · simp only [if_pos hexpired, hpast]
    intro key hkey
    obtain ⟨hmem, hmemory⟩ := memory_del { t with requests := requests } hkey
    refine Or.inr ⟨fun heq ↦ ?_, hmem, hmemory⟩
    exact (Finset.mem_erase.mp hkey).1 (Option.some.inj heq).symm
  · simp only [if_neg hexpired, hpast]
    intro key hkey
    by_cases hread : key = r.key
    · subst hread
      exact Or.inl ⟨rfl, env.now requests, rfl, rfl⟩
    · refine Or.inr ⟨fun heq ↦ hread (Option.some.inj heq).symm, hkey, ?_⟩
      exact Policy.memory_record_of_ne hread _ _

/-- What every call does to the keys that are tracked after it. -/
theorem noted_call (env : Environment) (t : TTLStore σ) (c : Call) :
    Noted c (t.recordTime env c) t (t.call env c).2 := by
  cases c with
  | write w =>
    have htracked : t.tracked env (.write w) = some ((t.writeInner w).track env w.key) := rfl
    have hnoted := (noted_tracked htracked).evictIfNeeded env
    cases w with
    | set key value => exact hnoted
    | hset hash key value => exact hnoted
  | setWithTTL key value ttl => exact (noted_tracked rfl).evictIfNeeded env
  | read r =>
    cases r with
    | get key => exact noted_read env t (.get key)
    | hget hash key => exact noted_read env t (.hget hash key)
    | hgetAll hash => exact noted_read env t (.hgetAll hash)
  | del key =>
    refine noted_of_subset rfl (Finset.erase_subset key _) fun other hother ↦ ?_
    exact (memory_del t hother).2
  | expire key ttl =>
    have hsame : (t.expire env key ttl).2.allKeys = t.allKeys ∧
        (t.expire env key ttl).2.policy = t.policy := by
      unfold TTLStore.expire
      split
      · exact ⟨rfl, rfl⟩
      · exact ⟨rfl, rfl⟩
    exact noted_of_subset rfl hsame.1.subset fun other _ ↦ by
      rw [← hsame.2]
      rfl
  | ttl key =>
    have hsame : (t.ttl env key).2.allKeys = t.allKeys ∧ (t.ttl env key).2.policy = t.policy := by
      unfold TTLStore.ttl
      cases t.expireAt.lookup key with
      | none => exact ⟨rfl, rfl⟩
      | some exp => exact ⟨rfl, rfl⟩
    exact noted_of_subset rfl hsame.1.subset fun other _ ↦ by
      rw [← hsame.2]
      rfl
  | sweep =>
    exact noted_of_subset rfl (fun key hkey ↦ (memory_sweep env t hkey).1) fun key hkey ↦
      (memory_sweep env t hkey).2

/-- What `Record` and `Delete` keep of a policy, every call keeps. -/
theorem policy_call {motive : Policy → Prop}
    (hrecord : ∀ p now key, motive p → motive (p.record now key))
    (hdelete : ∀ p key, motive p → motive (p.delete key)) (env : Environment) (c : Call)
    (ht : motive t.policy) : motive (t.call env c).2.policy :=
  call_induction (motive := fun t ↦ motive t.policy) c ht (fun _ _ h ↦ h) (fun _ _ h ↦ h)
    (fun _ _ h ↦ h) (fun _ _ h ↦ h) (fun _ _ _ h ↦ h) (fun _ now key h ↦ hrecord _ now key h)
    fun _ key h ↦ hdelete _ key h

theorem policy_tracked {motive : Policy → Prop}
    (hrecord : ∀ p now key, motive p → motive (p.record now key)) {after : TTLStore σ}
    (h : t.tracked env c = some after) (ht : motive t.policy) : motive after.policy := by
  cases c with
  | write w =>
    obtain rfl := Option.some.inj h
    exact hrecord _ _ w.key ht
  | setWithTTL key value ttl =>
    obtain rfl := Option.some.inj h
    exact hrecord _ _ key ht
  | read r => exact absurd h nofun
  | del key => exact absurd h nofun
  | expire key ttl => exact absurd h nofun
  | ttl key => exact absurd h nofun
  | sweep => exact absurd h nofun

end Calls

/-! ### Whole runs -/

section Runs

variable [StoreInterface σ]

theorem policy_run {motive : Policy → Prop}
    (hrecord : ∀ p now key, motive p → motive (p.record now key))
    (hdelete : ∀ p key, motive p → motive (p.delete key)) (env : Environment) (calls : List Call)
    (ht : motive t.policy) : motive (t.run env calls).policy := by
  induction calls using List.reverseRecOn with
  | nil => exact ht
  | append_singleton calls c ih =>
    rw [run_append]
    exact policy_call hrecord hdelete env c ih

/-- The policy has a memory, and remembers all the tracked keys. -/
structure Remembered (t : TTLStore σ) : Prop where
  policy : t.policy.Remembers
  keys : ∀ key ∈ t.allKeys, t.policy.memory key ≠ none

omit [StoreInterface σ] in
theorem Remembered.noted (ht : Remembered t) (h : Noted c recorded t t')
    (hpolicy : t'.policy.Remembers) : Remembered t' := by
  refine ⟨hpolicy, fun key hkey ↦ ?_⟩
  rcases h key hkey with ⟨-, now, -, hmemory⟩ | ⟨-, hmem, hmemory⟩
  · rw [hmemory]
    exact ht.policy.memory_record_ne_none now key
  · rw [hmemory]
    exact ht.keys key hmem

theorem Remembered.tracked {after : TTLStore σ} (ht : Remembered t)
    (h : t.tracked env c = some after) : Remembered after :=
  ht.noted (noted_tracked h) (policy_tracked (fun _ now key ↦ Policy.Remembers.record now key) h
    ht.policy)

theorem Remembered.call (ht : Remembered t) (env : Environment) (c : Call) :
    Remembered (t.call env c).2 :=
  ht.noted (noted_call env t c) (policy_call (fun _ now key ↦ Policy.Remembers.record now key)
    (fun _ key ↦ Policy.Remembers.delete key) env c ht.policy)

theorem Remembered.run (ht : Remembered t) (env : Environment) (calls : List Call) :
    Remembered (t.run env calls) := by
  induction calls using List.reverseRecOn with
  | nil => exact ht
  | append_singleton calls c ih =>
    rw [run_append]
    exact ih.call env c

omit [StoreInterface σ] in
theorem remembered_new {inner : σ} {policy : Policy} (hpolicy : policy.Remembers) (m : ℤ) :
    Remembered ((TTLStore.new inner).setEvictionPolicy policy m) :=
  ⟨hpolicy, fun _ hkey ↦ absurd hkey (Finset.notMem_empty _)⟩

omit [StoreInterface σ] in
/-- Above the limit the policy names a tracked key of which it remembers the smallest number. -/
theorem Remembered.victim_le (ht : Remembered t) (env : Environment)
    (hshould : t.shouldEvict = true) :
    t.victim env ∈ t.allKeys ∧ ∃ s, t.policy.memory (t.victim env) = some s ∧
      ∀ key ∈ t.allKeys, ∀ s', t.policy.memory key = some s' → s ≤ s' := by
  have hvictim := victim_mem env ht.policy.allKeys hshould
  have hcandidates := candidates_of_allKeys env ht.policy.allKeys
  have hmem (key : GoString) : key ∈ (t.candidates env).1 ↔ key ∈ t.allKeys := by
    rw [hcandidates, env.mem_order]
  obtain ⟨default, hevict⟩ :=
    ht.policy.evict_eq env (t.requests + 1) (t.candidates env).1 t.expireAt
  obtain ⟨s, hs, hle⟩ := Policy.evictLowest_le default
    (List.ne_nil_of_mem ((hmem _).mpr hvictim)) fun key hkey ↦ ht.keys key ((hmem key).mp hkey)
  refine ⟨hvictim, s, ?_, fun key hkey ↦ hle key ((hmem key).mpr hkey)⟩
  rw [← hs, ← hevict]
  rfl

end Runs

end TTLStore

end FluxCache.Store
