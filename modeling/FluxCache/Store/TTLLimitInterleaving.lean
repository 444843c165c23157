import FluxCache.Store.TTLInterleaving
import FluxCache.Store.TTLLimit

/-!
# The limit on the number of keys under interleaved writes

A write tracks its key, looks at the limit, asks the policy for a key and takes that key out, each
in a step of its own. Between the choice of a key and its removal other writes can choose the same
key, and only the first removal of it makes room. So the number of keys can stay above the limit
after all calls have finished.

Every write that has tracked its key still owes the removal of a key or the observation that there
is room (`Phase.owes`). As long as every removal finds its key, the number of keys is at most the
limit plus the number of writes that owe (`WithinOwed`): tracking a key adds one to both sides, a
removal takes one from both, and a write that finds room has found the bound without what the others
owe. A removal whose key has gone keeps the bound only if it was not reached (`Timely`).
-/

set_option autoImplicit false
set_option relaxedAutoImplicit false

namespace FluxCache.Store

open FluxCache.Foundation ThreadSystem

/-- The call of the thread has tracked its key and has neither taken a key out nor found that there
is room. -/
def Phase.owes : Phase → Bool
  | record _ | checkLimit | candidates | chooseKey _ | removeKey _ _ => true
  | _ => false

/-- A phase of a write of a nonempty key; the candidates it has are nonempty keys. -/
def Phase.Writes : Phase → Prop
  | finished _ | checkLimit | candidates => True
  | setDeadline key _ _ => key ≠ []
  | writeInner w => w.key ≠ []
  | addKey key | record key => key ≠ []
  | chooseKey keys => keys ≠ [] ∧ [] ∉ keys
  | removeKey _ _ => True
  | forget _ rest _ | delInner _ rest _ => rest = []
  | _ => False

/-- The call writes a nonempty key. -/
def Call.Writes (call : Call) : Prop := ∃ key ∈ call.writtenKey, key ≠ []

section Interleaved

variable {ι σ : Type} [Fintype ι] [DecidableEq ι] {m : ℤ} {env : Environment}
  {c after : Config ι (TTLStore σ) Phase} {i : ι} {t : TTLStore σ} {before p : Phase}

/-- The number of keys is at most the limit plus the number of writes that owe. -/
def WithinOwed (m : ℤ) (c : Config ι (TTLStore σ) Phase) : Prop :=
  c.shared.keyCount ≤ m + (threadsIn Phase.owes c).card

/-- The condition on a step: a removal finds its key tracked, or the number of keys is below the
limit plus the number of writes that owe. -/
def Timely (m : ℤ) (c : Config ι (TTLStore σ) Phase) : Event ι Call → Prop
  | .enter _ _ => True
  | .advance i =>
    match c.threads i with
    | .removeKey key _ =>
      key ∈ c.shared.allKeys ∨ c.shared.keyCount < m + (threadsIn Phase.owes c).card
    | _ => True

/-- All threads are in writes of nonempty keys, under a policy that chooses among all keys. -/
structure Writers (m : ℤ) (c : Config ι (TTLStore σ) Phase) : Prop where
  limited : c.shared.Limited m
  nonempty : [] ∉ c.shared.allKeys
  writes : ∀ i, (c.threads i).Writes

/-! ### One step -/

omit [Fintype ι] in
theorem Writers.update (hc : Writers m c) (ht : t.Limited m) (hkeys : [] ∉ t.allKeys)
    (hp : p.Writes) : Writers m ⟨t, Function.update c.threads i p⟩ := by
  refine ⟨ht, hkeys, fun j ↦ ?_⟩
  show (Function.update c.threads i p j).Writes
  by_cases hj : j = i
  · rw [hj, Function.update_self]
    exact hp
  · rw [Function.update_of_ne hj]
    exact hc.writes j

/-- A step that leaves the tracked keys, between two phases that both owe or both do not. -/
theorem Writers.quiet (hc : Writers m c) (hbefore : c.threads i = before) (ht : t.Limited m)
    (hkeys : t.allKeys = c.shared.allKeys) (howes : p.owes = before.owes) (hp : p.Writes) :
    Writers m ⟨t, Function.update c.threads i p⟩ ∧
      (WithinOwed m c → WithinOwed m ⟨t, Function.update c.threads i p⟩) := by
  have hthreads : threadsIn Phase.owes ⟨t, Function.update c.threads i p⟩ =
      threadsIn Phase.owes c := by
    rw [← hbefore] at howes
    cases hphase : p.owes with
    | true =>
      rw [threadsIn_update_of_true hphase, Finset.insert_eq_of_mem]
      exact mem_threadsIn.mpr (howes.symm.trans hphase)
    | false =>
      rw [threadsIn_update_of_false hphase, Finset.erase_eq_of_notMem]
      rw [mem_threadsIn, ← howes, hphase]
      exact Bool.false_ne_true
  refine ⟨hc.update ht (hkeys ▸ hc.nonempty) hp, fun hwithin ↦ ?_⟩
  rw [WithinOwed, hthreads, TTLStore.keyCount, hkeys]
  exact hwithin

/-- A step of a call that finds room. -/
theorem Writers.room (hc : Writers m c) (ht : t.Limited m) (hkeys : t.allKeys = c.shared.allKeys)
    (hp : p.Writes) (hroom : (c.shared.keyCount : ℤ) ≤ m) :
    Writers m ⟨t, Function.update c.threads i p⟩ ∧
      (WithinOwed m c → WithinOwed m ⟨t, Function.update c.threads i p⟩) := by
  refine ⟨hc.update ht (hkeys ▸ hc.nonempty) hp, fun _ ↦ ?_⟩
  rw [WithinOwed, TTLStore.keyCount, hkeys]
  exact hroom.trans (Int.le_add_of_nonneg_right (Int.natCast_nonneg _))

/-- The tracking of a key adds at most one key and one call that owes. -/
theorem Writers.addKey {key : GoString} (hc : Writers m c) (hphase : c.threads i = .addKey key) :
    Writers m ⟨c.shared.addKey key, Function.update c.threads i (.record key)⟩ ∧
      (WithinOwed m c →
        WithinOwed m ⟨c.shared.addKey key, Function.update c.threads i (.record key)⟩) := by
  have hwrites := hc.writes i
  rw [hphase] at hwrites
  have hkey : key ≠ [] := hwrites
  refine ⟨hc.update ⟨hc.limited.policy, hc.limited.maxKeys⟩ ?_ hwrites, fun hwithin ↦ ?_⟩
  · show [] ∉ insert key c.shared.allKeys
    rw [Finset.mem_insert, not_or]
    exact ⟨hkey.symm, hc.nonempty⟩
  · have howes : i ∉ threadsIn Phase.owes c := by
      rw [mem_threadsIn, hphase]
      exact Bool.false_ne_true
    have hkeys : (c.shared.addKey key).keyCount ≤ c.shared.keyCount + 1 :=
      Finset.card_insert_le key c.shared.allKeys
    show ((c.shared.addKey key).keyCount : ℤ) ≤ _
    rw [threadsIn_update_of_true (by rfl), Finset.card_insert_of_notMem howes]
    unfold WithinOwed at hwithin
    omega

/-- A removal settles what the call owes, and takes a key out only if the key is still there. -/
theorem Writers.removeKey {key : GoString} {reply : Reply} (hc : Writers m c)
    (hphase : c.threads i = .removeKey key reply) :
    Writers m ⟨c.shared.removeKey key, Function.update c.threads i (.forget key [] reply)⟩ ∧
      (WithinOwed m c →
        (WithinOwed m
            ⟨c.shared.removeKey key, Function.update c.threads i (.forget key [] reply)⟩ ↔
          key ∈ c.shared.allKeys ∨ c.shared.keyCount < m + (threadsIn Phase.owes c).card)) := by
  refine ⟨hc.update ⟨hc.limited.policy, hc.limited.maxKeys⟩ ?_ rfl, fun hwithin ↦ ?_⟩
  · exact fun hmem ↦ hc.nonempty (Finset.mem_of_mem_erase hmem)
  · have howes : i ∈ threadsIn Phase.owes c := by
      rw [mem_threadsIn, hphase]
      rfl
    have hsettled := Finset.card_erase_add_one howes
    have hcount : (c.shared.removeKey key).keyCount = (c.shared.allKeys.erase key).card := rfl
    unfold WithinOwed at hwithin ⊢
    rw [threadsIn_update_of_false (by rfl), hcount]
    unfold TTLStore.keyCount at hwithin ⊢
    by_cases hkey : key ∈ c.shared.allKeys
    · have herase := Finset.card_erase_add_one hkey
      simp only [hkey, true_or, iff_true]
      omega
    · rw [Finset.erase_eq_of_notMem hkey]
      simp only [hkey, false_or]
      omega

omit [DecidableEq ι] in
theorem timely_of_other (hother : ∀ key reply, c.threads i ≠ .removeKey key reply) :
    Timely m c (.advance i) := by
  cases hphase : c.threads i with
  | removeKey key reply => exact absurd hphase (hother key reply)
  | _ => simp only [Timely, hphase]

omit [DecidableEq ι] in
/-- A step that keeps the bound in any case is timely. -/
theorem keeps_iff {event : Event ι Call} (htimely : Timely m c event)
    (h : Writers m after ∧ (WithinOwed m c → WithinOwed m after)) :
    Writers m after ∧ (WithinOwed m c → (WithinOwed m after ↔ Timely m c event)) :=
  ⟨h.1, fun hwithin ↦ iff_of_true (h.2 hwithin) htimely⟩

variable [StoreInterface σ]

/-- A step other than a removal keeps the threads in writes and keeps the bound. -/
theorem Writers.keeps (hm : 0 < m) (env : Environment) (hc : Writers m c) (i : ι)
    (hother : ∀ key reply, c.threads i ≠ .removeKey key reply) :
    let after : Config ι (TTLStore σ) Phase :=
      ⟨((c.threads i).advance env c.shared).1,
        Function.update c.threads i ((c.threads i).advance env c.shared).2⟩
    Writers m after ∧ (WithinOwed m c → WithinOwed m after) := by
  have hwrites := hc.writes i
  have hlimited := hc.limited
  have hkept : c.shared.Limited m := ⟨hlimited.policy, hlimited.maxKeys⟩
  cases hphase : c.threads i with
  | finished reply => exact hc.quiet hphase hkept rfl rfl trivial
  | setDeadline key value ttl =>
    rw [hphase] at hwrites
    exact hc.quiet hphase ⟨hlimited.policy, hlimited.maxKeys⟩ rfl rfl hwrites
  | writeInner w =>
    rw [hphase] at hwrites
    exact hc.quiet hphase ⟨hlimited.policy, hlimited.maxKeys⟩ rfl rfl hwrites
  | addKey key => exact hc.addKey hphase
  | record key =>
    exact hc.quiet hphase ⟨hlimited.policy.record _ key, hlimited.maxKeys⟩ rfl rfl trivial
  | checkLimit =>
    by_cases hshould : c.shared.shouldEvict = true
    · simp only [Phase.advance, if_pos hshould]
      exact hc.quiet hphase hkept rfl rfl trivial
    · simp only [Phase.advance, if_neg hshould]
      rw [TTLStore.shouldEvict_iff, hlimited.maxKeys, not_and, not_lt] at hshould
      exact hc.room hkept rfl trivial (hshould hm)
  | candidates =>
    have hcandidates := TTLStore.candidates_of_allKeys env hlimited.policy
    by_cases hempty : (c.shared.candidates env).1 = []
    · simp only [Phase.advance, if_pos hempty]
      refine hc.room ⟨hlimited.policy, hlimited.maxKeys⟩ rfl trivial ?_
      have hcount : c.shared.keyCount = 0 := by
        have hlength := env.length_order c.shared.requests c.shared.allKeys
        rw [← hcandidates, hempty] at hlength
        exact hlength.symm
      rw [hcount]
      exact le_of_lt hm
    · simp only [Phase.advance, if_neg hempty]
      refine hc.quiet hphase ⟨hlimited.policy, hlimited.maxKeys⟩ rfl rfl ⟨hempty, ?_⟩
      rw [hcandidates, env.mem_order]
      exact hc.nonempty
  | chooseKey keys =>
    rw [hphase] at hwrites
    obtain ⟨hne, hnil⟩ : keys ≠ [] ∧ [] ∉ keys := hwrites
    have hmem : (c.shared.chooseKey env keys).1 ∈ keys :=
      hlimited.policy.evict_mem env c.shared.requests c.shared.expireAt hne
    have hkey : (c.shared.chooseKey env keys).1 ≠ [] := fun h ↦ hnil (h ▸ hmem)
    simp only [Phase.advance, if_neg hkey]
    exact hc.quiet hphase ⟨hlimited.policy, hlimited.maxKeys⟩ rfl rfl trivial
  | removeKey key reply => exact absurd hphase (hother key reply)
  | forget key rest reply =>
    rw [hphase] at hwrites
    exact hc.quiet hphase ⟨hlimited.policy.delete key, hlimited.maxKeys⟩ rfl rfl hwrites
  | delInner key rest reply =>
    rw [hphase] at hwrites
    obtain rfl : rest = [] := hwrites
    exact hc.quiet hphase ⟨hlimited.policy, hlimited.maxKeys⟩ rfl rfl trivial
  | _ =>
    rw [hphase] at hwrites
    exact absurd hwrites id

/-- What one step does: it keeps the threads in writes, and it keeps the bound exactly if it is
timely. -/
theorem Writers.advance (hm : 0 < m) (env : Environment) (hc : Writers m c) (i : ι) :
    let after : Config ι (TTLStore σ) Phase :=
      ⟨((c.threads i).advance env c.shared).1,
        Function.update c.threads i ((c.threads i).advance env c.shared).2⟩
    Writers m after ∧ (WithinOwed m c → (WithinOwed m after ↔ Timely m c (.advance i))) := by
  intro after
  by_cases hremoval : ∃ key reply, c.threads i = .removeKey key reply
  · obtain ⟨key, reply, hphase⟩ := hremoval
    have hafter : after =
        ⟨c.shared.removeKey key, Function.update c.threads i (.forget key [] reply)⟩ := by
      simp only [after, hphase]
      rfl
    have htimely : Timely m c (.advance i) ↔
        key ∈ c.shared.allKeys ∨ c.shared.keyCount < m + (threadsIn Phase.owes c).card := by
      simp only [Timely, hphase]
    rw [hafter, htimely]
    exact hc.removeKey hphase
  · rw [not_exists] at hremoval
    exact keeps_iff (timely_of_other fun key reply h ↦ hremoval key ⟨reply, h⟩)
      (hc.keeps hm env i fun key reply h ↦ hremoval key ⟨reply, h⟩)

omit [StoreInterface σ] in
/-- Entering a write changes nothing. -/
theorem Writers.enter (hc : Writers m c) (hidle : (c.threads i).idle = true) {call : Call}
    (hcall : call.Writes) :
    Writers m ⟨c.shared, Function.update c.threads i (Phase.enter call)⟩ ∧
      (WithinOwed m c →
        WithinOwed m ⟨c.shared, Function.update c.threads i (Phase.enter call)⟩) := by
  obtain ⟨key, hkey, hne⟩ := hcall
  have howes : (c.threads i).owes = false := by
    cases hphase : c.threads i with
    | finished reply => rfl
    | _ => exact absurd hidle (by rw [hphase]; simp [Phase.idle])
  cases call with
  | write w =>
    obtain rfl : w.key = key := Option.some.inj hkey
    exact hc.quiet rfl hc.limited rfl howes.symm hne
  | setWithTTL key' value ttl =>
    obtain rfl : key' = key := Option.some.inj hkey
    exact hc.quiet rfl hc.limited rfl howes.symm hne
  | _ => exact absurd hkey (by simp [Call.writtenKey])

/-- What one event does. -/
theorem Writers.step (hm : 0 < m) (env : Environment) (hc : Writers m c) {event : Event ι Call}
    (hevent : ∀ i call, event = .enter i call → call.Writes) :
    Writers m ((ttlThreads env).step c event) ∧
      (WithinOwed m c → (WithinOwed m ((ttlThreads env).step c event) ↔ Timely m c event)) := by
  cases event with
  | enter i call =>
    unfold ThreadSystem.step
    by_cases hidle : (c.threads i).idle = true
    · simp only [ttlThreads, hidle, if_true]
      exact keeps_iff trivial (hc.enter hidle (hevent i call rfl))
    · simp only [ttlThreads, hidle, Bool.false_eq_true, if_false]
      exact keeps_iff trivial ⟨hc, id⟩
  | advance i =>
    unfold ThreadSystem.step
    by_cases hidle : (c.threads i).idle = true
    · simp only [ttlThreads, hidle, if_true]
      refine keeps_iff (timely_of_other fun key reply hphase ↦ ?_) ⟨hc, id⟩
      exact absurd hidle (by rw [hphase]; simp [Phase.idle])
    · simp only [ttlThreads, hidle, Bool.false_eq_true, if_false]
      exact hc.advance hm env i

/-! ### Whole runs -/

omit [StoreInterface σ] [DecidableEq ι] in
/-- Once all calls have finished, nobody owes. -/
theorem keyCount_le_of_quiet (hquiet : ∀ i, (c.threads i).idle = true) (hc : WithinOwed m c) :
    (c.shared.keyCount : ℤ) ≤ m := by
  have hnone : threadsIn Phase.owes c = ∅ := by
    refine Finset.eq_empty_of_forall_notMem fun i hi ↦ ?_
    have hidle := hquiet i
    rw [mem_threadsIn] at hi
    cases hphase : c.threads i with
    | finished reply =>
      rw [hphase] at hi
      exact Bool.false_ne_true hi
    | _ => exact absurd hidle (by rw [hphase]; simp [Phase.idle])
  rw [WithinOwed, hnone, Finset.card_empty] at hc
  exact hc.trans (le_of_eq (add_zero m))

end Interleaved

/-- For every schedule of any number of threads that write nonempty keys to a fresh store over a
fresh map store, with a policy that chooses among all keys and a positive limit: the number of keys
is at every time within the limit plus the number of writes that owe a removal exactly if every
removal is timely; and then it is within the limit once all calls have finished. -/
theorem key_limit_interleaved {ι : Type} [Fintype ι] [DecidableEq ι] (env : Environment)
    {policy : Policy} (hpolicy : policy.AllKeys) {m : ℤ} (hm : 0 < m)
    (events : List (Event ι Call)) (hevents : ∀ i call, .enter i call ∈ events → call.Writes) :
    let start : Config ι (TTLStore MapStore) Phase :=
      ⟨(TTLStore.new MapStore.new).setEvictionPolicy policy m, fun _ ↦ .finished .nothing⟩
    ((∀ before, before <+: events → WithinOwed m ((ttlThreads env).run start before)) ↔
        (ttlThreads env).Guarded (Timely m) start events) ∧
      ((ttlThreads env).Guarded (Timely m) start events →
        (ttlThreads env).Quiet ((ttlThreads env).run start events) →
          (((ttlThreads env).run start events).shared.keyCount : ℤ) ≤ m) := by
  intro start
  have hstart : Writers m start := ⟨⟨hpolicy, rfl⟩, Finset.notMem_empty _, fun _ ↦ trivial⟩
  have hwithin : WithinOwed m start := by
    show ((0 : ℕ) : ℤ) ≤ _
    omega
  have hstep (c : Config ι (TTLStore MapStore) Phase) (event : Event ι Call)
      (hevent : event ∈ events) (hc : Writers m c) :=
    hc.step hm env fun i call heq ↦ hevents i call (heq ▸ hevent)
  have hiff : (∀ before, before <+: events → WithinOwed m ((ttlThreads env).run start before)) ↔
      (ttlThreads env).Guarded (Timely m) start events :=
    forall_isPrefix_run_iff (fun c event hevent hc ↦ (hstep c event hevent hc).1)
      (fun c event hevent hc ↦ (hstep c event hevent hc).2) hstart hwithin
  refine ⟨hiff, fun hguarded hquiet ↦ ?_⟩
  exact keyCount_le_of_quiet hquiet (hiff.mpr hguarded events (List.prefix_refl events))

/-- Two writes one after the other with the limit 1. -/
theorem key_limit_interleaved_two :
    let events : List (Event (Fin 2) Call) :=
      [.enter 0 (.write (.set (text "a") (text "1"))), .advance 0, .advance 0, .advance 0,
        .advance 0, .enter 1 (.write (.set (text "b") (text "2"))), .advance 1, .advance 1,
        .advance 1, .advance 1, .advance 1, .advance 1, .advance 1, .advance 1, .advance 1]
    let start : Config (Fin 2) (TTLStore MapStore) Phase :=
      ⟨(TTLStore.new MapStore.new).setEvictionPolicy (.lru ∅) 1, fun _ ↦ .finished .nothing⟩
    (((ttlThreads stillClock).run start events).shared.keyCount : ℤ) ≤ 1 := by
  have hpolicy : (Policy.lru ∅).AllKeys := trivial
  refine (key_limit_interleaved stillClock hpolicy (by decide) _ ?_).2 ⟨trivial, trivial, trivial,
    trivial, trivial, trivial, trivial, trivial, trivial, trivial, trivial, trivial,
    Or.inl (by decide), trivial, trivial, trivial⟩ (by decide)
  intro i call hcall
  simp only [List.mem_cons, List.not_mem_nil, or_false, Event.enter.injEq, reduceCtorEq,
    false_or] at hcall
  rcases hcall with ⟨-, rfl⟩ | ⟨-, rfl⟩
  · exact ⟨text "a", rfl, by decide⟩
  · exact ⟨text "b", rfl, by decide⟩

/-- Three writes track their keys before one of them looks at the limit 1, and all three choose the
same key: two keys are left once all calls have finished. -/
theorem key_limit_interleaved_exceeded :
    let write (key : String) : Call := .write (.set (text key) (text "1"))
    let choose (i : Fin 3) : List (Event (Fin 3) Call) := [.advance i, .advance i, .advance i]
    let events : List (Event (Fin 3) Call) :=
      [.enter 0 (write "a"), .enter 1 (write "b"), .enter 2 (write "c")] ++
        [0, 1, 2].flatMap choose ++ [0, 1, 2].flatMap choose ++ [0, 1, 2].flatMap choose
    let start : Config (Fin 3) (TTLStore MapStore) Phase :=
      ⟨(TTLStore.new MapStore.new).setEvictionPolicy (.lru ∅) 1, fun _ ↦ .finished .nothing⟩
    (ttlThreads stillClock).Quiet ((ttlThreads stillClock).run start events) ∧
      ((ttlThreads stillClock).run start events).shared.keyCount = 2 := by
  decide

end FluxCache.Store
