import FluxCache.Store.TTL

/-!
# The limit on the number of keys

A write tracks its key and then evicts at most one key if there are more than the limit. The three
policies that choose among all keys name one of the tracked keys (`evict_mem`), but the empty key as
an answer stands for no key: if it is the one that the policy names, nothing is evicted.

What an eviction does is one equation (`evictIfNeeded_eq`), and the other
calls track no further keys (`allKeys_call_subset`). So a call that starts within the limit
ends within it exactly if the policy does not name the empty key (`keyCount_call_le_iff`), and this
decides about whole runs. In particular the limit holds if the empty key is never written
(`keyCount_le_of_ne_nil`).
-/

set_option autoImplicit false
set_option relaxedAutoImplicit false

namespace FluxCache.Store

open FluxCache.Foundation

/-! ### The policies that choose among all keys -/

namespace Policy

/-- The policies whose candidates are all tracked keys. -/
def AllKeys : Policy → Prop
  | lru _ => True
  | lfu _ => True
  | random => True
  | noEviction => False
  | ttl => False

variable {policy : Policy}

theorem AllKeys.record (h : policy.AllKeys) (now : Time) (key : GoString) :
    (policy.record now key).AllKeys := by
  cases policy with
  | lru access => exact trivial
  | lfu freq => exact trivial
  | random => exact trivial
  | noEviction => exact h
  | ttl => exact h

theorem AllKeys.delete (h : policy.AllKeys) (key : GoString) : (policy.delete key).AllKeys := by
  cases policy with
  | lru access => exact trivial
  | lfu freq => exact trivial
  | random => exact trivial
  | noEviction => exact h
  | ttl => exact h

/-- The loop of `Evict` ends with the best candidate so far or with one of the others. -/
theorem scan_mem {α : Type} [LT α] [DecidableLT α] (score : GoString → Option α)
    (best : GoString) (bestScore : α) (rest : List GoString) :
    scan score best bestScore rest ∈ best :: rest := by
  induction rest generalizing best bestScore with
  | nil => exact List.mem_singleton_self best
  | cons key rest ih =>
    have hskip := ih best bestScore
    unfold scan
    cases score key with
    | none => exact List.cons_subset_cons best (List.subset_cons_self key rest) hskip
    | some s =>
      by_cases hlower : s < bestScore
      · simp only [if_pos hlower]
        exact List.mem_cons_of_mem best (ih key s)
      · simp only [if_neg hlower]
        exact List.cons_subset_cons best (List.subset_cons_self key rest) hskip

theorem evictLowest_mem {α : Type} [LT α] [DecidableLT α] (score : GoString → Option α)
    (default : α) {candidates : List GoString} (hne : candidates ≠ []) :
    evictLowest score default candidates ∈ candidates := by
  cases candidates with
  | nil => exact absurd rfl hne
  | cons first rest => exact scan_mem score first _ rest

/-- The key that is named is a candidate. -/
theorem AllKeys.evict_mem (h : policy.AllKeys) (env : Environment) (i : ℕ)
    {candidates : List GoString} (expireAt : GoMap Time) (hne : candidates ≠ []) :
    policy.evict env i candidates expireAt ∈ candidates := by
  cases policy with
  | lru access => exact evictLowest_mem access.lookup zeroTime hne
  | lfu freq => exact evictLowest_mem freq.lookup 0 hne
  | random =>
    have hlt := env.draw_lt i candidates.length (List.length_pos_of_ne_nil hne)
    show candidates.getD _ [] ∈ candidates
    rw [List.getD_eq_getElem?_getD, List.getElem?_eq_getElem hlt]
    exact List.getElem_mem hlt
  | noEviction => exact absurd h id
  | ttl => exact absurd h id

theorem AllKeys.name_ne (h : policy.AllKeys) : policy.name.take 8 ≠ text "volatile" := by
  cases policy with
  | lru access =>
    show (text "allkeys-lru").take 8 ≠ text "volatile"
    decide
  | lfu freq =>
    show (text "allkeys-lfu").take 8 ≠ text "volatile"
    decide
  | random => decide
  | noEviction => exact absurd h id
  | ttl => exact absurd h id

theorem evict_nil (env : Environment) (i : ℕ) (expireAt : GoMap Time) (policy : Policy) :
    policy.evict env i [] expireAt = [] := by
  cases policy <;> rfl

end Policy

/-- The key that a call writes, if it does. -/
def Call.writtenKey : Call → Option GoString
  | .write w => some w.key
  | .setWithTTL key _ _ => some key
  | _ => none

namespace TTLStore

variable {σ : Type}

/-- `KeyCount`. -/
def keyCount (t : TTLStore σ) : ℕ := t.allKeys.card

/-- The key that the policy names if it is asked. -/
def victim (env : Environment) (t : TTLStore σ) : GoString :=
  ((t.candidates env).2.chooseKey env (t.candidates env).1).1

/-! ### One eviction -/

section Eviction

variable [StoreInterface σ] {t : TTLStore σ}

omit [StoreInterface σ] in
theorem shouldEvict_iff : t.shouldEvict = true ↔ 0 < t.maxKeys ∧ t.maxKeys < t.keyCount := by
  rw [shouldEvict, decide_eq_true_iff]
  rfl

omit [StoreInterface σ] in
theorem victim_eq_nil (env : Environment) (hempty : (t.candidates env).1 = []) :
    t.victim env = [] := by
  rw [victim, hempty]
  exact Policy.evict_nil env _ _ _

/-- What an eviction does: it deletes the key that the policy names. -/
theorem evictIfNeeded_eq (env : Environment) (t : TTLStore σ) :
    ∃ requests, t.evictIfNeeded env =
      if t.shouldEvict = true ∧ t.victim env ≠ [] then
        { t with requests := requests }.del (t.victim env)
      else { t with requests := requests } := by
  unfold evictIfNeeded
  by_cases hshould : t.shouldEvict = true
  · rw [if_pos hshould]
    by_cases hempty : (t.candidates env).1 = []
    · have hvictim := victim_eq_nil env hempty
      refine ⟨t.requests + 1, ?_⟩
      simp only [if_pos hempty]
      rw [if_neg fun h ↦ h.2 hvictim]
      rfl
    · refine ⟨t.requests + 1 + 1, ?_⟩
      by_cases hvictim : t.victim env = []
      · rw [if_neg fun h ↦ h.2 hvictim]
        unfold victim at hvictim
        simp only [if_neg hempty, if_pos hvictim]
        rfl
      · rw [if_pos ⟨hshould, hvictim⟩]
        unfold victim at hvictim ⊢
        simp only [if_neg hempty, if_neg hvictim]
        rfl
  · refine ⟨t.requests, ?_⟩
    rw [if_neg hshould, if_neg fun h ↦ hshould h.1]

theorem allKeys_evictIfNeeded (env : Environment) (t : TTLStore σ) :
    (t.evictIfNeeded env).allKeys =
      if t.shouldEvict = true ∧ t.victim env ≠ [] then t.allKeys.erase (t.victim env)
      else t.allKeys := by
  obtain ⟨requests, hevict⟩ := t.evictIfNeeded_eq env
  rw [hevict]
  split <;> rfl

omit [StoreInterface σ] in
theorem candidates_of_allKeys (env : Environment) (hpolicy : t.policy.AllKeys) :
    (t.candidates env).1 = env.order t.requests t.allKeys := by
  have hvolatile : t.isVolatile = false := decide_eq_false fun h ↦ hpolicy.name_ne h.2
  rw [candidates, hvolatile]
  rfl

omit [StoreInterface σ] in
/-- Above the limit a tracked key is named. -/
theorem victim_mem (env : Environment) (hpolicy : t.policy.AllKeys)
    (hshould : t.shouldEvict = true) : t.victim env ∈ t.allKeys := by
  have hcandidates := candidates_of_allKeys env hpolicy
  have hne : (t.candidates env).1 ≠ [] := by
    obtain ⟨hpos, hlt⟩ := shouldEvict_iff.mp hshould
    have hcard : 0 < t.allKeys.card := by
      unfold keyCount at hlt
      omega
    obtain ⟨key, hkey⟩ := Finset.card_pos.mp hcard
    rw [hcandidates]
    exact List.ne_nil_of_mem ((env.mem_order t.requests t.allKeys key).mpr hkey)
  have hmem : t.victim env ∈ (t.candidates env).1 :=
    hpolicy.evict_mem env (t.requests + 1) t.expireAt hne
  rwa [hcandidates, env.mem_order] at hmem

end Eviction

/-! ### One call -/

section Calls

variable [StoreInterface σ] {t : TTLStore σ}

/-- The state in which a call looks at the limit, if it does. -/
def tracked (env : Environment) (t : TTLStore σ) : Call → Option (TTLStore σ)
  | .write w => some ((t.writeInner w).track env w.key)
  | .setWithTTL key value ttl =>
    some (((t.setDeadline env key ttl).writeInner (.set key value)).track env key)
  | _ => none

/-- The policy chooses among all keys, and the limit is the one that was set. -/
structure Limited (m : ℤ) (t : TTLStore σ) : Prop where
  policy : t.policy.AllKeys
  maxKeys : t.maxKeys = m

variable {m : ℤ} {env : Environment} {c : Call} {after : TTLStore σ}

/-- A call that looks at the limit has tracked the key that it writes, and ends with the
eviction. -/
theorem Limited.call_of_tracked (ht : Limited m t) (h : t.tracked env c = some after) :
    Limited m after ∧ (∃ key ∈ c.writtenKey, after.allKeys = insert key t.allKeys) ∧
      (t.call env c).2 = after.evictIfNeeded env := by
  cases c with
  | write w =>
    obtain rfl := Option.some.inj h
    refine ⟨⟨ht.policy.record _ w.key, ht.maxKeys⟩, ⟨w.key, rfl, rfl⟩, ?_⟩
    cases w with
    | set key value => rfl
    | hset hash key value => rfl
  | setWithTTL key value ttl =>
    obtain rfl := Option.some.inj h
    exact ⟨⟨ht.policy.record _ key, ht.maxKeys⟩, ⟨key, rfl, rfl⟩, rfl⟩
  | read r => exact absurd h nofun
  | del key => exact absurd h nofun
  | expire key ttl => exact absurd h nofun
  | ttl key => exact absurd h nofun
  | sweep => exact absurd h nofun

theorem allKeys_read_subset (env : Environment) (t : TTLStore σ) (r : Read) :
    (t.read env r).2.allKeys ⊆ t.allKeys := by
  obtain ⟨requests, hread | ⟨now, hread⟩⟩ := t.read_cases env r
  · rw [hread]
    exact Finset.erase_subset _ _
  · rw [hread]

theorem allKeys_sweep_subset (env : Environment) (t : TTLStore σ) :
    (t.sweep env).allKeys ⊆ t.allKeys :=
  sweep_induction env (motive := fun after ↦ after.allKeys ⊆ t.allKeys) (Finset.Subset.refl _)
    (fun _ key h ↦ (Finset.erase_subset key _).trans h) (fun _ _ h ↦ h) fun _ _ h ↦ h

/-- A call that does not look at the limit tracks no further key. -/
theorem allKeys_call_subset (h : t.tracked env c = none) :
    (t.call env c).2.allKeys ⊆ t.allKeys := by
  cases c with
  | write w => exact absurd h nofun
  | setWithTTL key value ttl => exact absurd h nofun
  | read r =>
    cases r with
    | get key => exact allKeys_read_subset env t (.get key)
    | hget hash key => exact allKeys_read_subset env t (.hget hash key)
    | hgetAll hash => exact allKeys_read_subset env t (.hgetAll hash)
  | del key => exact Finset.erase_subset _ _
  | expire key ttl =>
    show (t.expire env key ttl).2.allKeys ⊆ t.allKeys
    unfold TTLStore.expire
    split
    · exact Finset.Subset.refl _
    · exact Finset.Subset.refl _
  | ttl key =>
    show (t.remaining env (t.expireAt.lookup key)).2.allKeys ⊆ t.allKeys
    cases t.expireAt.lookup key with
    | none => exact Finset.Subset.refl _
    | some exp => exact Finset.Subset.refl _
  | sweep => exact allKeys_sweep_subset env t

theorem Limited.call (ht : Limited m t) (env : Environment) (c : Call) :
    Limited m (t.call env c).2 :=
  call_induction c ht (fun _ _ h ↦ ⟨h.policy, h.maxKeys⟩) (fun _ _ h ↦ ⟨h.policy, h.maxKeys⟩)
    (fun _ _ h ↦ ⟨h.policy, h.maxKeys⟩) (fun _ _ h ↦ ⟨h.policy, h.maxKeys⟩)
    (fun _ _ _ h ↦ ⟨h.policy, h.maxKeys⟩) (fun _ now key h ↦ ⟨h.policy.record now key, h.maxKeys⟩)
    fun _ key h ↦ ⟨h.policy.delete key, h.maxKeys⟩

/-- There are too many keys, and the policy names the empty one. -/
def NamesNone (env : Environment) (t : TTLStore σ) : Prop :=
  t.shouldEvict = true ∧ t.victim env = []

/-- A call that starts within the limit ends within it exactly if the policy does not name the empty
key. -/
theorem keyCount_call_le_iff (ht : Limited m t) (hm : 0 < m) (hcount : t.keyCount ≤ m) :
    (t.call env c).2.keyCount ≤ m ↔ ∀ after ∈ t.tracked env c, ¬ after.NamesNone env := by
  cases htracked : t.tracked env c with
  | none =>
    refine ⟨fun _ after h ↦ absurd h nofun, fun _ ↦ ?_⟩
    have hle := Finset.card_le_card (allKeys_call_subset htracked)
    unfold keyCount at hcount ⊢
    omega
  | some after =>
    obtain ⟨hafter, ⟨key, -, hkeys⟩, hcall⟩ := ht.call_of_tracked htracked
    have hcard : after.allKeys.card ≤ t.allKeys.card + 1 := by
      rw [hkeys]
      exact Finset.card_insert_le key t.allKeys
    have hshould : after.shouldEvict = true ↔ m < after.keyCount := by
      rw [shouldEvict_iff, hafter.maxKeys]
      exact and_iff_right hm
    rw [hcall, keyCount, allKeys_evictIfNeeded]
    unfold keyCount at hcount hshould
    by_cases hmany : after.shouldEvict = true
    · by_cases hvictim : after.victim env = []
      · rw [if_neg fun h ↦ h.2 hvictim]
        refine ⟨fun hle ↦ ?_, fun h ↦ absurd ⟨hmany, hvictim⟩ (h after rfl)⟩
        exact absurd (hshould.mp hmany) (not_lt.mpr hle)
      · rw [if_pos ⟨hmany, hvictim⟩, Finset.card_erase_of_mem (victim_mem env hafter.policy hmany)]
        refine ⟨fun _ other hother hnone ↦ ?_, fun _ ↦ by omega⟩
        obtain rfl := Option.some.inj hother
        exact hvictim hnone.2
    · rw [if_neg fun h ↦ hmany h.1]
      refine ⟨fun _ other hother hnone ↦ ?_, fun _ ↦ not_lt.mp fun h ↦ hmany (hshould.mpr h)⟩
      obtain rfl := Option.some.inj hother
      exact hmany hnone.1

end Calls

/-! ### Whole runs -/

section Runs

variable [StoreInterface σ] {t : TTLStore σ} {m : ℤ}

theorem run_append (env : Environment) (t : TTLStore σ) (calls : List Call) (c : Call) :
    t.run env (calls ++ [c]) = ((t.run env calls).call env c).2 := by
  rw [run, List.foldl_append]
  rfl

theorem Limited.run (ht : Limited m t) (env : Environment) (calls : List Call) :
    Limited m (t.run env calls) := by
  induction calls using List.reverseRecOn with
  | nil => exact ht
  | append_singleton calls c ih =>
    rw [run_append]
    exact ih.call env c

/-- A run stays within the limit exactly if the policy never names the empty key. -/
theorem keyCount_run_le_iff (ht : Limited m t) (hm : 0 < m) (hstart : t.keyCount ≤ m)
    (env : Environment) (calls : List Call) :
    (∀ before, before <+: calls → (t.run env before).keyCount ≤ m) ↔
      ∀ before c, before ++ [c] <+: calls →
        ∀ after ∈ (t.run env before).tracked env c, ¬ after.NamesNone env := by
  constructor
  · intro hle before c hstep
    have hbefore := hle before ((List.prefix_append before [c]).trans hstep)
    refine (keyCount_call_le_iff (ht.run env before) hm hbefore).mp ?_
    rw [← run_append]
    exact hle _ hstep
  · intro hnever before
    induction before using List.reverseRecOn with
    | nil => exact fun _ ↦ hstart
    | append_singleton before c ih =>
      intro hstep
      have hbefore := ih ((List.prefix_append before [c]).trans hstep)
      rw [run_append]
      exact (keyCount_call_le_iff (ht.run env before) hm hbefore).mpr (hnever before c hstep)

/-- A key that is never written is never tracked. -/
theorem notMem_allKeys_run (ht : Limited m t) (env : Environment) {key : GoString}
    (hkey : key ∉ t.allKeys) {calls : List Call} (hcalls : ∀ c ∈ calls, c.writtenKey ≠ some key) :
    key ∉ (t.run env calls).allKeys := by
  induction calls using List.reverseRecOn with
  | nil => exact hkey
  | append_singleton calls c ih =>
    obtain ⟨hcalls, hlast⟩ := List.forall_mem_append.mp hcalls
    have hbefore := ih hcalls
    have hrun := ht.run env calls
    rw [run_append]
    cases htracked : (t.run env calls).tracked env c with
    | none => exact fun hmem ↦ hbefore (allKeys_call_subset htracked hmem)
    | some after =>
      obtain ⟨-, ⟨written, hwritten, hkeys⟩, hcall⟩ := hrun.call_of_tracked htracked
      have hafter : key ∉ after.allKeys := by
        rw [hkeys, Finset.mem_insert, not_or]
        refine ⟨?_, hbefore⟩
        rintro rfl
        exact List.forall_mem_singleton.mp hlast hwritten
      rw [hcall, allKeys_evictIfNeeded]
      split
      · exact fun hmem ↦ hafter (Finset.mem_of_mem_erase hmem)
      · exact hafter

/-- The limit holds along every run that never writes the empty key. -/
theorem keyCount_le_of_ne_nil (ht : Limited m t) (hm : 0 < m) (hstart : t.keyCount ≤ m)
    (hnil : [] ∉ t.allKeys) (env : Environment) {calls : List Call}
    (hcalls : ∀ c ∈ calls, c.writtenKey ≠ some []) : (t.run env calls).keyCount ≤ m := by
  refine (keyCount_run_le_iff ht hm hstart env calls).mpr ?_ calls (List.prefix_refl calls)
  intro before c hstep after htracked hnone
  have hsubset := hstep.subset
  have hrun := ht.run env before
  obtain ⟨hafter, ⟨written, hwritten, hkeys⟩, -⟩ := hrun.call_of_tracked htracked
  have hvictim := victim_mem env hafter.policy hnone.1
  rw [hnone.2, hkeys, Finset.mem_insert] at hvictim
  rcases hvictim with rfl | hmem
  · exact hcalls c (hsubset (List.mem_append_right before (List.mem_singleton_self c))) hwritten
  · refine notMem_allKeys_run ht env hnil (fun b hb ↦ ?_) hmem
    exact hcalls b (hsubset (List.mem_append_left [c] hb))

end Runs

end TTLStore

open TTLStore

/-- In every sequential run from a fresh store over a fresh map store, with a policy that chooses
among all keys and a positive limit, the number of keys is within the limit after every call exactly
if at no write that goes over the limit the policy names the empty key. -/
theorem key_limit_iff (env : Environment) {policy : Policy} (hpolicy : policy.AllKeys) {m : ℤ}
    (hm : 0 < m) (calls : List Call) :
    let t := (TTLStore.new MapStore.new).setEvictionPolicy policy m
    (∀ before, before <+: calls → (t.run env before).keyCount ≤ m) ↔
      ∀ before c, before ++ [c] <+: calls →
        ∀ after ∈ (t.run env before).tracked env c, ¬ after.NamesNone env := by
  intro t
  have hstart : (t.keyCount : ℤ) ≤ m := le_of_lt hm
  exact keyCount_run_le_iff ⟨hpolicy, rfl⟩ hm hstart env calls

/-- Of two keys the first one is evicted. -/
theorem key_limit_iff_two :
    ((((TTLStore.new MapStore.new).setEvictionPolicy (.lru ∅) 1).run stillClock
      [.write (.set (text "a") (text "1")), .write (.set (text "b") (text "2"))]).keyCount : ℤ) ≤
      1 := by
  have hpolicy : (Policy.lru ∅).AllKeys := trivial
  refine (key_limit_iff stillClock hpolicy (by decide) _).mpr ?_ _ (List.prefix_refl _)
  rintro before c ⟨rest, hrest⟩ after hafter hnone
  rcases before with _ | ⟨first, _ | ⟨second, before⟩⟩
  · obtain ⟨rfl, -⟩ := List.cons.inj hrest
    obtain rfl := Option.some.inj hafter
    exact absurd hnone.1 (by decide)
  · obtain ⟨rfl, hsecond⟩ := List.cons.inj hrest
    obtain ⟨rfl, -⟩ := List.cons.inj hsecond
    obtain rfl := Option.some.inj hafter
    exact absurd hnone.2 (by decide)
  · have hlength := congrArg List.length hrest
    simp at hlength

/-- If the empty key is the one used least recently, nothing is evicted. -/
theorem key_limit_exceeded :
    (((TTLStore.new MapStore.new).setEvictionPolicy (.lru ∅) 1).run stillClock
      [.write (.set [] (text "1")), .write (.set (text "a") (text "2"))]).keyCount = 2 := by
  decide

end FluxCache.Store
