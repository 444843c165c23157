import FluxCache.Store.Recency

/-!
# Writes that are evicted at once

A write tracks and records its key before the policy is asked, so the key just written is a
candidate as well. Whether it can be the one that is named depends on how the policy ranks it
(`Spares`). The policy for the least recently used key never names it. The policy for the least
frequently used key can name it unless another key was used less often, the one for the nearest
deadline unless it has no deadline or another key has a nearer one, and the random policy always
can. Here "can" means in some order of the candidates and for some draw: a key comes first in the
environment `Environment.first`, and of several candidates with the same score the first is named
(`forall_evictLowest_ne_iff`).
-/

set_option autoImplicit false
set_option relaxedAutoImplicit false

namespace FluxCache.Store

open FluxCache.Foundation

namespace Policy

/-- Assumes: every candidate has a score. In no order of the candidates a key is named exactly if
another one has a smaller score. -/
theorem forall_evictLowest_ne_iff {α : Type} [LinearOrder α] {score : GoString → Option α}
    (default : α) {keys : Finset GoString} (hscores : ∀ key ∈ keys, score key ≠ none)
    {key : GoString} (hkey : key ∈ keys) (env : Environment) (i : ℕ) :
    (∀ env' : Environment, env'.now = env.now →
        evictLowest score default (env'.order i keys) ≠ key) ↔
      ∃ other ∈ keys, ∃ s ∈ score other, ∃ s' ∈ score key, s < s' := by
  obtain ⟨keyScore, hkeyScore⟩ := Option.ne_none_iff_exists'.mp (hscores key hkey)
  constructor
  · intro hnever
    by_contra hlowest
    refine hnever (env.first key) rfl ?_
    rw [env.order_first i hkey]
    refine evictLowest_eq_first default hkeyScore fun other hother s hs ↦ not_lt.mp fun hlt ↦ ?_
    have hmem := (env.mem_order i keys other).mp (List.mem_of_mem_erase hother)
    exact hlowest ⟨other, hmem, s, hs, keyScore, hkeyScore, hlt⟩
  · rintro ⟨other, hother, s, hs, s', hs', hlt⟩ env' - heq
    have hne : env'.order i keys ≠ [] := List.ne_nil_of_mem ((env'.mem_order i keys key).mpr hkey)
    obtain ⟨low, hlow, hle⟩ := @evictLowest_le _ _ score default _ hne fun k hk ↦
      hscores k ((env'.mem_order i keys k).mp hk)
    rw [heq] at hlow
    obtain rfl := Option.some.inj (hlow.symm.trans hs')
    exact absurd (hle other ((env'.mem_order i keys other).mpr hother) s hs) (not_le.mpr hlt)

end Policy

namespace TTLStore

/-- In no order of the candidates and for no draw the policy names a key. -/
def Spares {σ : Type} (env : Environment) (t : TTLStore σ) (key : GoString) : Prop :=
  match t.policy with
  | .noEviction => True
  | .lru _ => True
  | .lfu freq => ∃ other ∈ t.allKeys, ∃ f ∈ freq.lookup other, ∃ f' ∈ freq.lookup key, f < f'
  | .random => False
  | .ttl => ∀ exp ∈ t.expireAt.lookup key, ∃ other, ∃ exp' ∈ t.expireAt.lookup other,
      since exp' (env.now (t.requests + 1)) < since exp (env.now (t.requests + 1))

section Victim

variable {σ : Type} {t : TTLStore σ} {env : Environment} {key : GoString}

theorem victim_eq (hpolicy : t.policy.AllKeys) (env : Environment) :
    t.victim env = t.policy.evict env (t.requests + 1) (env.order t.requests t.allKeys)
      t.expireAt := by
  rw [← candidates_of_allKeys env hpolicy]
  rfl

theorem candidates_of_ttl (hpolicy : t.policy = .ttl) (env : Environment) :
    (t.candidates env).1 = env.order t.requests t.expireAt.keys := by
  have hvolatile : t.isVolatile = true := by
    rw [isVolatile, hpolicy]
    decide
  rw [candidates, hvolatile]
  rfl

theorem spares_lfu_iff (ht : Remembered t) {freq : GoMap ℕ} (hpolicy : t.policy = .lfu freq)
    (hkey : key ∈ t.allKeys) :
    (∀ env' : Environment, env'.now = env.now → t.victim env' ≠ key) ↔ t.Spares env key := by
  have hscores : ∀ k ∈ t.allKeys, freq.lookup k ≠ none := by
    intro k hk hnone
    refine ht.keys k hk ?_
    rw [hpolicy, Policy.memory, hnone]
    rfl
  have hspares : t.Spares env key ↔
      ∃ other ∈ t.allKeys, ∃ f ∈ freq.lookup other, ∃ f' ∈ freq.lookup key, f < f' := by
    rw [Spares, hpolicy]
  rw [hspares, ← Policy.forall_evictLowest_ne_iff 0 hscores hkey env t.requests]
  refine forall_congr' fun env' ↦ forall_congr' fun _ ↦ ?_
  rw [victim_eq ht.policy.allKeys, hpolicy]
  rfl

theorem spares_random_iff (hpolicy : t.policy = .random) (hkey : key ∈ t.allKeys) :
    (∀ env' : Environment, env'.now = env.now → t.victim env' ≠ key) ↔ t.Spares env key := by
  have hall : t.policy.AllKeys := by
    rw [hpolicy]
    exact trivial
  rw [Spares, hpolicy]
  refine ⟨fun hnever ↦ hnever (env.first key) rfl ?_, False.elim⟩
  rw [victim_eq hall, hpolicy, env.order_first t.requests hkey]
  rfl

/-- What the policy for the nearest deadline compares: the time until the deadline of a key. -/
def timeLeft (env : Environment) (t : TTLStore σ) (key : GoString) : Option Duration :=
  (t.expireAt.lookup key).map fun exp ↦ since exp (env.now (t.requests + 1))

theorem timeLeft_eq_none_iff : t.timeLeft env key = none ↔ key ∉ t.expireAt.keys := by
  rw [timeLeft, Option.map_eq_none_iff, Finmap.lookup_eq_none, Finmap.mem_keys]

theorem victim_of_ttl (hpolicy : t.policy = .ttl) {env' : Environment}
    (hnow : env'.now = env.now) : t.victim env' =
      Policy.evictLowest (t.timeLeft env) 0 (env'.order t.requests t.expireAt.keys) := by
  rw [victim, candidates_of_ttl hpolicy]
  show t.policy.evict env' _ _ _ = _
  rw [hpolicy]
  unfold timeLeft
  rw [← hnow]
  rfl

theorem spares_of_ttl (hpolicy : t.policy = .ttl) : t.Spares env key ↔
    ∀ d ∈ t.timeLeft env key, ∃ other, ∃ d' ∈ t.timeLeft env other, d' < d := by
  rw [Spares, hpolicy]
  simp only [timeLeft, Option.mem_map, forall_exists_index, and_imp, forall_apply_eq_imp_iff₂,
    exists_exists_and_eq_and]

theorem spares_ttl_iff (hpolicy : t.policy = .ttl) (hkey : key ≠ []) :
    (∀ env' : Environment, env'.now = env.now → t.victim env' ≠ key) ↔ t.Spares env key := by
  have hvictim : (∀ env' : Environment, env'.now = env.now → t.victim env' ≠ key) ↔
      ∀ env' : Environment, env'.now = env.now → Policy.evictLowest (t.timeLeft env) 0
        (env'.order t.requests t.expireAt.keys) ≠ key := by
    refine forall_congr' fun env' ↦ forall_congr' fun hnow ↦ ?_
    rw [victim_of_ttl hpolicy hnow]
  rw [hvictim, spares_of_ttl hpolicy]
  by_cases hmem : key ∈ t.expireAt.keys
  · have hscores : ∀ k ∈ t.expireAt.keys, t.timeLeft env k ≠ none :=
      fun k hk hnone ↦ timeLeft_eq_none_iff.mp hnone hk
    rw [Policy.forall_evictLowest_ne_iff 0 hscores hmem env t.requests]
    constructor
    · rintro ⟨other, -, s, hs, s', hs', hlt⟩ d hd
      obtain rfl := Option.mem_unique hs' hd
      exact ⟨other, s, hs, hlt⟩
    · intro hnearer
      obtain ⟨d, hd⟩ := Option.ne_none_iff_exists'.mp (hscores key hmem)
      obtain ⟨other, d', hd', hlt⟩ := hnearer d hd
      have hother : other ∈ t.expireAt.keys := by
        by_contra hnone
        rw [timeLeft_eq_none_iff.mpr hnone] at hd'
        exact absurd hd' (Option.not_mem_none d')
      exact ⟨other, hother, d', hd', d, hd, hlt⟩
  · -- without a deadline the key is no candidate
    refine iff_of_true (fun env' _ heq ↦ ?_) fun d hd ↦ ?_
    · by_cases hempty : env'.order t.requests t.expireAt.keys = []
      · rw [hempty] at heq
        exact hkey heq.symm
      · have hnamed := Policy.evictLowest_mem (t.timeLeft env) 0 hempty
        rw [heq, env'.mem_order] at hnamed
        exact hmem hnamed
    · rw [timeLeft_eq_none_iff.mpr hmem] at hd
      exact absurd hd (Option.not_mem_none d)

end Victim

/-! ### A read after a write -/

section Read

variable {t : TTLStore MapStore} {env : Environment} {key value : GoString}

/-- A read whose deadline is not over is answered by the store inside. -/
theorem get_of_live (hlive : ∀ exp ∈ t.expireAt.lookup key, env.now t.requests ≤ exp) :
    (t.get env key).1 = .value (t.inner.get key) := by
  obtain ⟨policy, requests, hread⟩ := @read_of_le _ _ env t (.get key) hlive
  rw [get, hread]
  rfl

theorem get_del_self (t : TTLStore MapStore) (env : Environment) (key : GoString) :
    ((t.del key).get env key).1 = .value ([], false) := by
  rw [get_of_live]
  · show Reply.value (commaOk ((t.inner.strings.erase key).lookup key)) = _
    rw [Finmap.lookup_erase]
    rfl
  · intro exp hexp
    have hnone : (t.del key).expireAt.lookup key = none := Finmap.lookup_erase _ _
    rw [hnone] at hexp
    exact absurd hexp (Option.not_mem_none exp)

/-- A read behind the eviction finds what was written exactly if the key was not evicted. Assumes:
the deadline of the key is not over. -/
theorem get_evictIfNeeded_iff (hstored : t.inner.get key = (value, true))
    (hlive : ∀ exp ∈ t.expireAt.lookup key, env.now (t.evictIfNeeded env).requests ≤ exp) :
    ((t.evictIfNeeded env).get env key).1 = .value (value, true) ↔
      (t.shouldEvict = true → key ≠ [] → t.victim env ≠ key) := by
  obtain ⟨requests, hevict⟩ := t.evictIfNeeded_eq env
  rw [hevict] at hlive ⊢
  by_cases hcond : t.shouldEvict = true ∧ t.victim env ≠ []
  · rw [if_pos hcond] at hlive ⊢
    by_cases hvictim : t.victim env = key
    · rw [hvictim, get_del_self]
      refine ⟨fun heq ↦ absurd heq (by simp), fun hspared ↦ ?_⟩
      exact absurd rfl (hspared hcond.1 (hvictim ▸ hcond.2))
    · refine ⟨fun _ _ _ ↦ hvictim, fun _ ↦ ?_⟩
      rw [get_of_live]
      · show Reply.value (commaOk ((t.inner.strings.erase (t.victim env)).lookup key)) = _
        rw [Finmap.lookup_erase_ne (Ne.symm hvictim)]
        exact congrArg Reply.value hstored
      · intro exp hexp
        have herase : (t.expireAt.erase (t.victim env)).lookup key = some exp := hexp
        rw [Finmap.lookup_erase_ne (Ne.symm hvictim)] at herase
        exact hlive exp herase
  · rw [if_neg hcond] at hlive ⊢
    rw [get_of_live hlive]
    refine ⟨fun _ hshould hkey hvictim ↦ ?_, fun _ ↦ congrArg Reply.value hstored⟩
    exact hcond ⟨hshould, hvictim ▸ hkey⟩

end Read

/-! ### How many requests an eviction makes -/

section Requests

variable {σ : Type} [StoreInterface σ] {t : TTLStore σ}

/-- The number of requests does not depend on what they are answered. -/
theorem requests_evictIfNeeded (env env' : Environment) (t : TTLStore σ) :
    (t.evictIfNeeded env).requests = (t.evictIfNeeded env').requests := by
  have hempty (env : Environment) : (t.candidates env).1 = [] ↔
      (if t.isVolatile then t.expireAt.keys else t.allKeys) = ∅ := by
    rw [← List.length_eq_zero_iff, candidates, env.length_order, Finset.card_eq_zero]
  have hrequests (env : Environment) : (t.evictIfNeeded env).requests =
      if t.shouldEvict = true then
        if (if t.isVolatile then t.expireAt.keys else t.allKeys) = ∅ then t.requests + 1
        else t.requests + 2
      else t.requests := by
    unfold evictIfNeeded
    by_cases hshould : t.shouldEvict = true
    · rw [if_pos hshould, if_pos hshould]
      by_cases hnone : (t.candidates env).1 = []
      · rw [if_pos ((hempty env).mp hnone)]
        simp only [if_pos hnone]
        rfl
      · rw [if_neg ((hempty env).not.mp hnone)]
        simp only [if_neg hnone]
        split
        · rfl
        · rfl
    · rw [if_neg hshould, if_neg hshould]
  rw [hrequests env, hrequests env']

end Requests

end TTLStore

open TTLStore

/-- A call that writes a string, with or without a time to live. -/
inductive SetsString (key value : GoString) : Call → Prop
  | set : SetsString key value (.write (.set key value))
  | setWithTTL {ttl : Duration} (httl : 0 < ttl) : SetsString key value (.setWithTTL key value ttl)

section SetsString

variable {t : TTLStore MapStore} {env : Environment} {key value : GoString} {c : Call}

/-- What a write of a string has done when it looks at the limit: the key is there and tracked, and
it has its old deadline or the new one. -/
theorem SetsString.exists_tracked (hc : SetsString key value c) (t : TTLStore MapStore)
    (env : Environment) :
    ∃ after, t.tracked env c = some after ∧ after.inner.get key = (value, true) ∧
      key ∈ after.allKeys ∧
      (∀ exp ∈ after.expireAt.lookup key, exp ∈ t.expireAt.lookup key ∨
        ∃ ttl, c = .setWithTTL key value ttl ∧ exp = env.now t.requests + ttl) ∧
      ∀ env' : Environment, env'.now = env.now →
        (t.call env' c).2 = after.evictIfNeeded env' := by
  have hget (s : MapStore) : (s.set key value).get key = (value, true) := by
    show commaOk ((s.strings.insert key value).lookup key) = _
    rw [Finmap.lookup_insert]
    rfl
  cases hc with
  | set =>
    refine ⟨_, rfl, hget t.inner, Finset.mem_insert_self key _, fun exp hexp ↦ Or.inl hexp,
      fun env' hnow ↦ ?_⟩
    show TTLStore.write env' t (.set key value) = _
    rw [TTLStore.write, track, track, record, record, hnow]
  | @setWithTTL ttl httl =>
    refine ⟨_, rfl, hget t.inner, Finset.mem_insert_self key _,
      fun exp hexp ↦ Or.inr ⟨ttl, rfl, ?_⟩, fun env' hnow ↦ ?_⟩
    · have hinsert : (t.expireAt.insert key (env.now t.requests + ttl)).lookup key = some exp :=
        hexp
      rw [Finmap.lookup_insert] at hinsert
      exact (Option.some.inj hinsert).symm
    · show TTLStore.setWithTTL env' t key value ttl = _
      rw [TTLStore.setWithTTL, TTLStore.set, TTLStore.write, track, track, record, record,
        setDeadline, setDeadline, hnow]
      rfl

theorem SetsString.usedKey (hc : SetsString key value c) : c.usedKey = some key := by
  cases hc with
  | set => rfl
  | setWithTTL httl => rfl

/-- In a run with one of the four policies that evict, a key just written is never named exactly if
the policy spares it. -/
theorem victim_ne_iff_spares {policy : Policy} (hpolicy : policy = .lru ∅ ∨ policy = .lfu ∅ ∨
      policy = .random ∨ policy = .ttl) {m : ℤ} {t₀ after : TTLStore MapStore} {calls : List Call}
    (ht₀ : t₀ = (TTLStore.new MapStore.new).setEvictionPolicy policy m)
    (hclock : policy = .lru ∅ → (t₀.readings env (calls ++ [c])).Pairwise (· < ·))
    (hafter : (t₀.run env calls).tracked env c = some after) (hshould : after.shouldEvict = true)
    (hused : c.usedKey = some key) (hmem : key ∈ after.allKeys) (hne : key ≠ []) :
    (∀ env' : Environment, env'.now = env.now → after.victim env' ≠ key) ↔
      after.Spares env key := by
  subst ht₀
  have hkind {motive : Policy → Prop} (hrecord : ∀ p now key, motive p → motive (p.record now key))
      (hdelete : ∀ p key, motive p → motive (p.delete key)) (hstart : motive policy) :
      motive after.policy :=
    policy_tracked hrecord hafter (policy_run hrecord hdelete env calls hstart)
  rcases hpolicy with rfl | rfl | rfl | rfl
  · obtain ⟨access, haccess⟩ := hkind lru_record lru_delete ⟨∅, rfl⟩
    obtain ⟨read, hrecent⟩ := Recent.tracked (hclock rfl) hafter
    have hspares : after.Spares env key := by
      rw [Spares, haccess]
      exact trivial
    exact iff_of_true (fun env' _ ↦ hrecent.victim_ne env' hshould hused) hspares
  · have hlfu : (Policy.lfu ∅).Remembers := trivial
    have hremembered : Remembered after := ((remembered_new hlfu m).run env calls).tracked hafter
    obtain ⟨freq, hfreq⟩ : ∃ freq, after.policy = .lfu freq := by
      refine hkind (motive := fun p ↦ ∃ freq, p = .lfu freq) ?_ ?_ ⟨∅, rfl⟩
      · rintro _ now key ⟨freq, rfl⟩
        exact ⟨_, rfl⟩
      · rintro _ key ⟨freq, rfl⟩
        exact ⟨_, rfl⟩
    exact spares_lfu_iff hremembered hfreq hmem
  · have hrandom : after.policy = .random := by
      refine hkind (motive := fun p ↦ p = .random) ?_ ?_ rfl
      · rintro _ now key rfl
        rfl
      · rintro _ key rfl
        rfl
    exact spares_random_iff hrandom hmem
  · have httl : after.policy = .ttl := by
      refine hkind (motive := fun p ↦ p = .ttl) ?_ ?_ rfl
      · rintro _ now key rfl
        rfl
      · rintro _ key rfl
        rfl
    exact spares_ttl_iff httl hne

end SetsString

/-- After a sequential run with one of the four policies that evict, a write of a string that is
read at once is found for every order of the candidates and every draw exactly if the write does not
go over the limit, or the key is empty, or the policy spares it. Assumes: the key has no deadline
from before, the deadline of the write is not over when it is read, and under the policy for the
least recently used key the readings of the clock by `Record` strictly increase. -/
theorem write_survives_iff (env : Environment) {policy : Policy} (hpolicy : policy = .lru ∅ ∨
      policy = .lfu ∅ ∨ policy = .random ∨ policy = .ttl) (m : ℤ) {t₀ t : TTLStore MapStore}
    (ht₀ : t₀ = (TTLStore.new MapStore.new).setEvictionPolicy policy m) {calls : List Call}
    (ht : t = t₀.run env calls) {key value : GoString} {c : Call} (hc : SetsString key value c)
    (hclock : policy = .lru ∅ → (t₀.readings env (calls ++ [c])).Pairwise (· < ·))
    (hkey : key ∉ t.expireAt)
    (hlive : ∀ ttl, c = .setWithTTL key value ttl →
      env.now (t.call env c).2.requests ≤ env.now t.requests + ttl) :
    (∀ env' : Environment, env'.now = env.now →
        ((t.call env' c).2.get env' key).1 = .value (value, true)) ↔
      ∀ after ∈ t.tracked env c, after.shouldEvict = true → key ≠ [] →
        after.Spares env key := by
  obtain ⟨after, hafter, hstored, hmem, hdeadline, hcall⟩ := hc.exists_tracked t env
  have hfound (env' : Environment) (hnow : env'.now = env.now) :
      ((t.call env' c).2.get env' key).1 = .value (value, true) ↔
        (after.shouldEvict = true → key ≠ [] → after.victim env' ≠ key) := by
    rw [hcall env' hnow]
    refine get_evictIfNeeded_iff hstored fun exp hexp ↦ ?_
    rcases hdeadline exp hexp with hold | ⟨ttl, rfl, rfl⟩
    · exact absurd (Finmap.mem_of_lookup_eq_some hold) hkey
    · rw [requests_evictIfNeeded env' env, hnow, ← hcall env rfl]
      exact hlive ttl rfl
  have hafter' := hafter
  rw [ht] at hafter'
  constructor
  · intro hall other hother hshould hne
    obtain rfl := Option.some.inj (hafter.symm.trans hother)
    refine (victim_ne_iff_spares hpolicy ht₀ hclock hafter' hshould hc.usedKey hmem hne).mp ?_
    exact fun env' hnow ↦ (hfound env' hnow).mp (hall env' hnow) hshould hne
  · intro hspares env' hnow
    refine (hfound env' hnow).mpr fun hshould hne ↦ ?_
    exact (victim_ne_iff_spares hpolicy ht₀ hclock hafter' hshould hc.usedKey hmem hne).mpr
      (hspares after hafter hshould hne) env' hnow

/-- A key with a time to live is written next to one with a nearer deadline. -/
theorem write_survives_iff_nearer :
    let t := ((TTLStore.new MapStore.new).setEvictionPolicy .ttl 1).run stillClock
      [.setWithTTL (text "a") (text "1") 5]
    ((t.call stillClock (.setWithTTL (text "b") (text "2") 9)).2.get stillClock
      (text "b")).1 = .value (text "2", true) := by
  intro t
  refine (write_survives_iff stillClock (Or.inr (Or.inr (Or.inr rfl))) 1 rfl rfl
    (.setWithTTL (by decide)) (fun h ↦ absurd h nofun) (by decide) ?_).mpr ?_ stillClock rfl
  · rintro ttl httl
    obtain ⟨-, -, rfl⟩ := Call.setWithTTL.inj httl
    decide
  · intro after hafter _ _
    obtain rfl := Option.some.inj hafter
    intro exp hexp
    obtain rfl := Option.some.inj hexp
    exact ⟨text "a", 5, rfl, by decide⟩

/-- Under the policy for the least frequently used key a key that was used twice outlives a new key:
the new one is evicted by the write that brought it. -/
theorem write_lost :
    let t := ((TTLStore.new MapStore.new).setEvictionPolicy (.lfu ∅) 1).run tickingClock
      [.write (.set (text "a") (text "1")), .read (.get (text "a"))]
    text "b" ∉ t.expireAt ∧
      ((t.set tickingClock (text "b") (text "2")).get tickingClock (text "b")).1 =
        .value ([], false) := by
  intro t
  exact ⟨by decide, rfl⟩

end FluxCache.Store
