import FluxCache.Store.PolicyMemory

/-!
# The least recently used key

The uses of a key are the calls that read or write it, and `lastUse` is the position of the last of
them in a run. The policy knows times instead: it remembers the reading of the clock of the last
`Record` of a key. As long as these readings increase, the two orders agree on the tracked keys
(`Recent`), and so the key that the policy names is the one whose last use lies furthest back
(`Recent.lastUse_victim_lt`), in whatever order the candidates are visited.

Reads of keys that are not there are recorded as well, and a read that finds the deadline over is a
use that is not recorded. Neither concerns a tracked key: the first key is not tracked before it is
written, and the second one is not tracked any more.
-/

set_option autoImplicit false
set_option relaxedAutoImplicit false

namespace FluxCache.Store

open FluxCache.Foundation

/-! ### Uses -/

/-- The position of the last call that uses a key, counted from 1, or 0 if there is none. -/
def lastUse (calls : List Call) (key : GoString) : ℕ :=
  calls.length - calls.reverse.findIdx fun c ↦ c.usedKey = some key

theorem lastUse_concat (calls : List Call) (c : Call) (key : GoString) :
    lastUse (calls ++ [c]) key =
      if c.usedKey = some key then calls.length + 1 else lastUse calls key := by
  unfold lastUse
  rw [List.reverse_concat, List.findIdx_cons, List.length_append, List.length_singleton]
  by_cases hused : c.usedKey = some key
  · simp [hused]
  · simp [hused]

theorem lastUse_le (calls : List Call) (key : GoString) : lastUse calls key ≤ calls.length :=
  Nat.sub_le _ _

/-- A call uses one key only. -/
theorem eq_of_lastUse_eq {calls : List Call} {key other : GoString}
    (hused : 0 < lastUse calls key) (heq : lastUse calls key = lastUse calls other) :
    key = other := by
  induction calls using List.reverseRecOn with
  | nil => exact absurd hused (lt_irrefl 0)
  | append_singleton calls c ih =>
    have hkey := lastUse_le calls key
    have hother := lastUse_le calls other
    rw [lastUse_concat] at hused
    rw [lastUse_concat, lastUse_concat] at heq
    by_cases hk : c.usedKey = some key
    · by_cases ho : c.usedKey = some other
      · exact Option.some.inj (hk.symm.trans ho)
      · rw [if_pos hk, if_neg ho] at heq
        omega
    · by_cases ho : c.usedKey = some other
      · rw [if_neg hk, if_pos ho] at heq
        omega
      · rw [if_neg hk] at hused heq
        rw [if_neg ho] at heq
        exact ih hused heq

namespace TTLStore

variable {σ : Type} [StoreInterface σ] {t t' : TTLStore σ} {env : Environment}

/-- The readings of the clock that `Record` takes along a run. -/
def readings (env : Environment) : TTLStore σ → List Call → List Time
  | _, [] => []
  | t, c :: calls => (t.recordTime env c).toList ++ readings env (t.call env c).2 calls

theorem readings_append (env : Environment) (t : TTLStore σ) (before after : List Call) :
    t.readings env (before ++ after) =
      t.readings env before ++ (t.run env before).readings env after := by
  induction before generalizing t with
  | nil => rfl
  | cons c before ih =>
    rw [List.cons_append, readings, readings, ih, List.append_assoc]
    rfl

/-! ### Times and uses -/

/-- The policy is the one for the least recently used key, and on the tracked keys the times that it
remembers are readings of the clock, in the order of the last uses. -/
structure Recent (calls : List Call) (read : List Time) (t : TTLStore σ) : Prop where
  lru : ∃ access, t.policy = .lru access
  used : ∀ key ∈ t.allKeys, 0 < lastUse calls key
  read : ∀ key ∈ t.allKeys, ∃ time ∈ read, t.policy.memory key = some time
  order : ∀ key ∈ t.allKeys, ∀ other ∈ t.allKeys, lastUse calls key < lastUse calls other →
    ∀ s ∈ t.policy.memory key, ∀ s' ∈ t.policy.memory other, s < s'

variable {calls : List Call} {read : List Time} {c : Call} {recorded : Option Time}

omit [StoreInterface σ] in
theorem Recent.remembered (ht : Recent calls read t) : Remembered t := by
  refine ⟨?_, fun key hkey ↦ ?_⟩
  · obtain ⟨access, haccess⟩ := ht.lru
    rw [haccess]
    exact trivial
  · obtain ⟨time, -, htime⟩ := ht.read key hkey
    rw [htime]
    exact Option.some_ne_none time

omit [StoreInterface σ] in
/-- A call keeps the order. Assumes: it records a time after all the readings so far. -/
theorem Recent.noted (ht : Recent calls read t) (h : Noted c recorded t t')
    (hlru : ∃ access, t'.policy = .lru access)
    (hclock : ∀ time ∈ read, ∀ now ∈ recorded, time < now) :
    Recent (calls ++ [c]) (read ++ recorded.toList) t' := by
  have hnew {key : GoString} {now : Time}
      (hmemory : t'.policy.memory key = (t.policy.record now key).memory key) :
      t'.policy.memory key = some now := by
    obtain ⟨access, haccess⟩ := ht.lru
    rw [hmemory, haccess]
    exact Finmap.lookup_insert _
  refine ⟨hlru, fun key hkey ↦ ?_, fun key hkey ↦ ?_,
    fun key hkey other hother hlt s hs s' hs' ↦ ?_⟩
  · rw [lastUse_concat]
    rcases h key hkey with ⟨hused, -⟩ | ⟨hused, hmem, -⟩
    · rw [if_pos hused]
      exact Nat.succ_pos _
    · rw [if_neg hused]
      exact ht.used key hmem
  · rcases h key hkey with ⟨-, now, rfl, hmemory⟩ | ⟨-, hmem, hmemory⟩
    · exact ⟨now, List.mem_append_right _ (List.mem_singleton_self now), hnew hmemory⟩
    · obtain ⟨time, htime, hread⟩ := ht.read key hmem
      exact ⟨time, List.mem_append_left _ htime, hmemory.trans hread⟩
  · rw [lastUse_concat, lastUse_concat] at hlt
    rcases h key hkey with ⟨hused, -⟩ | ⟨hused, hmem, hmemory⟩
    · -- nothing is used after the call
      rw [if_pos hused] at hlt
      have hle := lastUse_le calls other
      split at hlt <;> omega
    · rw [if_neg hused] at hlt
      rw [hmemory] at hs
      rcases h other hother with ⟨-, now, hnow, hmemory'⟩ | ⟨hused', hmem', hmemory'⟩
      · obtain ⟨time, htime, hread⟩ := ht.read key hmem
        obtain rfl := Option.some.inj (hread.symm.trans hs)
        obtain rfl := Option.some.inj ((hnew hmemory').symm.trans hs')
        exact hclock time htime now hnow
      · rw [if_neg hused'] at hlt
        rw [hmemory'] at hs'
        exact ht.order key hmem other hmem' hlt s hs s' hs'

omit [StoreInterface σ] in
/-- Above the limit the key that was used least recently is named. -/
theorem Recent.lastUse_victim_lt (ht : Recent calls read t) (env : Environment)
    (hshould : t.shouldEvict = true) {key : GoString} (hkey : key ∈ t.allKeys)
    (hne : key ≠ t.victim env) : lastUse calls (t.victim env) < lastUse calls key := by
  obtain ⟨hvictim, s, hs, hle⟩ := ht.remembered.victim_le env hshould
  obtain ⟨s', -, hs'⟩ := ht.read key hkey
  refine lt_of_le_of_ne (not_lt.mp fun hlt ↦ ?_) fun heq ↦ ?_
  · exact absurd (ht.order key hkey _ hvictim hlt s' hs' s hs) (not_lt.mpr (hle key hkey s' hs'))
  · exact hne (eq_of_lastUse_eq (ht.used _ hvictim) heq).symm

omit [StoreInterface σ] in
/-- The key that was used last is not named: above the limit there is another key. -/
theorem Recent.victim_ne (ht : Recent (calls ++ [c]) read t) (env : Environment)
    (hshould : t.shouldEvict = true) {key : GoString} (hused : c.usedKey = some key) :
    t.victim env ≠ key := by
  rintro rfl
  obtain ⟨hpos, hmany⟩ := shouldEvict_iff.mp hshould
  have hcard : 1 < t.allKeys.card := by
    unfold keyCount at hmany
    omega
  obtain ⟨other, hother, hne⟩ := Finset.exists_mem_ne hcard (t.victim env)
  have hlt := ht.lastUse_victim_lt env hshould hother hne
  have hle := lastUse_le (calls ++ [c]) other
  rw [lastUse_concat calls c (t.victim env), if_pos hused] at hlt
  rw [List.length_append, List.length_singleton] at hle
  omega

theorem lru_record (p : Policy) (now : Time) (key : GoString) (h : ∃ access, p = .lru access) :
    ∃ access, p.record now key = .lru access := by
  obtain ⟨access, rfl⟩ := h
  exact ⟨_, rfl⟩

theorem lru_delete (p : Policy) (key : GoString) (h : ∃ access, p = .lru access) :
    ∃ access, p.delete key = .lru access := by
  obtain ⟨access, rfl⟩ := h
  exact ⟨_, rfl⟩

omit [StoreInterface σ] in
theorem recent_new (inner : σ) (m : ℤ) :
    Recent [] [] ((TTLStore.new inner).setEvictionPolicy (.lru ∅) m) where
  lru := ⟨∅, rfl⟩
  used := fun _ hkey ↦ absurd hkey (Finset.notMem_empty _)
  read := fun _ hkey ↦ absurd hkey (Finset.notMem_empty _)
  order := fun _ hkey ↦ absurd hkey (Finset.notMem_empty _)

/-- The times of a run in whose readings each is after all before it. -/
theorem lt_of_pairwise (hclock : (read ++ recorded.toList).Pairwise (· < ·)) :
    ∀ time ∈ read, ∀ now ∈ recorded, time < now := by
  intro time htime now hnow
  exact (List.pairwise_append.mp hclock).2.2 time htime now (Option.mem_toList.mpr hnow)

theorem readings_concat (env : Environment) (t : TTLStore σ) (calls : List Call) (c : Call) :
    t.readings env (calls ++ [c]) =
      t.readings env calls ++ ((t.run env calls).recordTime env c).toList := by
  rw [readings_append, readings, readings, List.append_nil]

theorem Recent.run {inner : σ} {m : ℤ}
    (hclock : (((TTLStore.new inner).setEvictionPolicy (.lru ∅) m).readings env calls).Pairwise
      (· < ·)) :
    Recent calls (((TTLStore.new inner).setEvictionPolicy (.lru ∅) m).readings env calls)
      (((TTLStore.new inner).setEvictionPolicy (.lru ∅) m).run env calls) := by
  induction calls using List.reverseRecOn with
  | nil => exact recent_new inner m
  | append_singleton calls c ih =>
    rw [readings_concat] at hclock ⊢
    rw [run_append]
    have hbefore := ih (List.pairwise_append.mp hclock).1
    exact hbefore.noted (noted_call env _ c) (policy_call lru_record lru_delete env c hbefore.lru)
      (lt_of_pairwise hclock)

/-- What a write of a run has done when it looks at the limit. -/
theorem Recent.tracked {inner : σ} {m : ℤ} {after : TTLStore σ}
    (hclock : (((TTLStore.new inner).setEvictionPolicy (.lru ∅) m).readings env
      (calls ++ [c])).Pairwise (· < ·))
    (h : (((TTLStore.new inner).setEvictionPolicy (.lru ∅) m).run env calls).tracked env c =
      some after) :
    ∃ read, Recent (calls ++ [c]) read after := by
  rw [readings_concat] at hclock
  have hbefore := Recent.run (List.pairwise_append.mp hclock).1
  exact ⟨_, hbefore.noted (noted_tracked h) (policy_tracked lru_record h hbefore.lru)
    (lt_of_pairwise hclock)⟩

end TTLStore

open TTLStore

/-- In every sequential run from a fresh store over a fresh map store with the policy for the least
recently used key, whenever a write goes over the limit, the policy names the tracked key whose last
use is the earliest in the run, and not the key just written. This is so for every limit and every
order of the candidates. Assumes: the readings of the clock that `Record` takes strictly
increase. -/
theorem lru_evicts_least_recent (env : Environment) (m : ℤ) (calls : List Call)
    (hclock : (((TTLStore.new MapStore.new).setEvictionPolicy (.lru ∅) m).readings env
      calls).Pairwise (· < ·)) :
    ∀ before c, before ++ [c] <+: calls →
      ∀ after ∈ (((TTLStore.new MapStore.new).setEvictionPolicy (.lru ∅) m).run env
        before).tracked env c, after.shouldEvict = true →
        after.victim env ∈ after.allKeys ∧ c.writtenKey ≠ some (after.victim env) ∧
          ∀ key ∈ after.allKeys, key ≠ after.victim env →
            lastUse (before ++ [c]) (after.victim env) < lastUse (before ++ [c]) key := by
  rintro before c ⟨later, rfl⟩ after hafter hshould
  rw [readings_append] at hclock
  obtain ⟨read, hrecent⟩ := Recent.tracked (List.pairwise_append.mp hclock).1 hafter
  refine ⟨(hrecent.remembered.victim_le env hshould).1, fun hwritten ↦ ?_, fun key hkey hne ↦ ?_⟩
  · exact hrecent.victim_ne env hshould (usedKey_of_writtenKey hwritten) rfl
  · exact hrecent.lastUse_victim_lt env hshould hkey hne

/-- Of three keys the second one was not used since it was written, and the policy names it. -/
theorem lru_evicts_least_recent_three :
    let before := [.write (.set (text "a") (text "1")), .write (.set (text "b") (text "2")),
      .read (.get (text "a"))]
    let c := Call.write (.set (text "c") (text "3"))
    ∃ after ∈ (((TTLStore.new MapStore.new).setEvictionPolicy (.lru ∅) 2).run tickingClock
        before).tracked tickingClock c,
      after.shouldEvict = true ∧ after.victim tickingClock = text "b" ∧
        lastUse (before ++ [c]) (after.victim tickingClock) <
          lastUse (before ++ [c]) (text "a") := by
  intro before c
  refine ⟨_, rfl, by decide, by decide, ?_⟩
  exact (lru_evicts_least_recent tickingClock 2 (before ++ [c]) (by decide) before c
    List.prefix_rfl _ rfl (by decide)).2.2 (text "a") (by decide) (by decide)

end FluxCache.Store
