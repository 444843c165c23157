import FluxCache.Foundation.Interleaving
import FluxCache.Store.TTL

/-!
# Interleaved calls of the store with deadlines

Every critical section of the mutex, every call of the policy and every call of the store inside is
one atomic step, and a thread is somewhere between two of them: in a `Phase` of its call. A thread
that runs alone computes what the call computes (`exists_run_call`).

Interleaved calls can lose a write. A removal takes the key out of the tracked keys first and
deletes it from the store inside later; a write goes the other way round. A write of the key between
the two steps of the removal leaves the key tracked and deletes what was written, and so does a
removal whose first step falls between the two steps of the write. `Allowed` says that a step does
neither, and in every schedule of allowed steps the tracked keys are the keys of the store inside
once all calls have finished. What carries the proof is the state of every single key (`KeyInStep`):
not both being removed and being written, untracked while it is being removed, present while it is
being written, and otherwise tracked exactly when it is present.
-/

set_option autoImplicit false
set_option relaxedAutoImplicit false

namespace FluxCache.Store

open FluxCache.Foundation

/-! ### The phases of a call -/

/-- What a thread does next. A thread that has finished keeps the reply of its last call. -/
inductive Phase
  | finished (reply : Reply)
  | setDeadline (key value : GoString) (ttl : Duration)
  | writeInner (w : Write)
  | addKey (key : GoString)
  | record (key : GoString)
  | checkLimit
  | candidates
  | chooseKey (candidates : List GoString)
  | removeKey (key : GoString) (reply : Reply)
  | forget (key : GoString) (rest : List GoString) (reply : Reply)
  | delInner (key : GoString) (rest : List GoString) (reply : Reply)
  | lookDeadline (r : Read)
  | comparePast (r : Read) (deadline : Option Time)
  | recordRead (r : Read)
  | readInner (r : Read)
  | lookKey (key : GoString) (ttl : Duration)
  | expire (key : GoString) (ttl : Duration)
  | lookTTL (key : GoString)
  | compareTTL (deadline : Option Time)
  | collectExpired

namespace Phase

/-- The removal of the remaining keys of a list from the policy and the store inside. -/
def dropNext (reply : Reply) : List GoString → Phase
  | [] => finished reply
  | key :: rest => forget key rest reply

/-- The first phase of a call. -/
def enter : Call → Phase
  | .write w => writeInner w
  | .setWithTTL key value ttl => setDeadline key value ttl
  | .read r => lookDeadline r
  | .del key => removeKey key .nothing
  | .expire key ttl => lookKey key ttl
  | .ttl key => lookTTL key
  | .sweep => collectExpired

/-- The call of the thread has returned. -/
def idle : Phase → Bool
  | finished _ => true
  | _ => false

/-- The next atomic step of a call. -/
def advance {σ : Type} [StoreInterface σ] (env : Environment) (t : TTLStore σ) :
    Phase → TTLStore σ × Phase
  | finished reply => (t, finished reply)
  | setDeadline key value ttl => (t.setDeadline env key ttl, writeInner (.set key value))
  | writeInner w => (t.writeInner w, addKey w.key)
  | addKey key => (t.addKey key, record key)
  | record key => (t.record env key, checkLimit)
  | checkLimit => (t, if t.shouldEvict then candidates else finished .nothing)
  | candidates =>
    let (keys, t) := t.candidates env
    (t, if keys = [] then finished .nothing else chooseKey keys)
  | chooseKey keys =>
    let (key, t) := t.chooseKey env keys
    (t, if key = [] then finished .nothing else removeKey key .nothing)
  | removeKey key reply => (t.removeKey key, forget key [] reply)
  | forget key rest reply => (t.forget key, delInner key rest reply)
  | delInner key rest reply => (t.delInner key, dropNext reply rest)
  | lookDeadline r => (t, comparePast r (t.expireAt.lookup r.key))
  | comparePast r deadline =>
    let (past, t) := t.isPast env deadline
    (t, if past then removeKey r.key r.missing else recordRead r)
  | recordRead r => (t.record env r.key, readInner r)
  | readInner r => (t, finished (r.answer t.inner))
  | lookKey key ttl =>
    (t, if (StoreInterface.get t.inner key).2 then expire key ttl else finished (.flag false))
  | expire key ttl => (t.setDeadline env key ttl, finished (.flag true))
  | lookTTL key => (t, compareTTL (t.expireAt.lookup key))
  | compareTTL deadline =>
    let (d, t) := t.remaining env deadline
    (t, finished (.duration d))
  | collectExpired =>
    let (expired, t) := t.collectExpired env
    (t, dropNext .nothing expired)

end Phase

/-- The threads that call the store. -/
def ttlThreads {σ : Type} [StoreInterface σ] (env : Environment) :
    ThreadSystem (TTLStore σ) Phase Call where
  enter := Phase.enter
  idle := Phase.idle
  advance := Phase.advance env

/-! ### A call that runs alone -/

section Alone

open ThreadSystem

variable {σ : Type} [StoreInterface σ] (env : Environment) (t : TTLStore σ)

theorem reaches_dropNext (reply : Reply) (keys : List GoString) :
    (ttlThreads env).Reaches (t, Phase.dropNext reply keys)
      (keys.foldl TTLStore.dropExpired t, .finished reply) := by
  induction keys generalizing t with
  | nil => exact Relation.ReflTransGen.refl
  | cons key keys ih => exact .head rfl rfl (.head rfl rfl (ih (t.dropExpired key)))

theorem reaches_del (key : GoString) (reply : Reply) :
    (ttlThreads env).Reaches (t, .removeKey key reply) (t.del key, .finished reply) :=
  .head rfl rfl (reaches_dropNext env (t.removeKey key) reply [key])

theorem reaches_evictIfNeeded :
    (ttlThreads env).Reaches (t, .checkLimit) (t.evictIfNeeded env, .finished .nothing) := by
  unfold TTLStore.evictIfNeeded
  by_cases hshould : t.shouldEvict = true
  · refine .head rfl (congrArg (Prod.mk _) (if_pos hshould)) ?_
    rw [if_pos hshould]
    by_cases hempty : (t.candidates env).1 = []
    · simp only [if_pos hempty]
      refine .head rfl (congrArg (Prod.mk _) (if_pos hempty)) ?_
      exact Relation.ReflTransGen.refl
    · simp only [if_neg hempty]
      refine .head rfl (congrArg (Prod.mk _) (if_neg hempty)) ?_
      by_cases hkey : ((t.candidates env).2.chooseKey env (t.candidates env).1).1 = []
      · simp only [if_pos hkey]
        refine .head rfl (congrArg (Prod.mk _) (if_pos hkey)) ?_
        exact Relation.ReflTransGen.refl
      · simp only [if_neg hkey]
        refine .head rfl (congrArg (Prod.mk _) (if_neg hkey)) ?_
        exact reaches_del env _ _ _
  · refine .head rfl (congrArg (Prod.mk _) (if_neg hshould)) ?_
    rw [if_neg hshould]
    exact Relation.ReflTransGen.refl

theorem reaches_write (w : Write) :
    (ttlThreads env).Reaches (t, .writeInner w) (t.write env w, .finished .nothing) :=
  .head rfl rfl (.head rfl rfl (.head rfl rfl (reaches_evictIfNeeded env _)))

theorem reaches_read (r : Read) :
    (ttlThreads env).Reaches (t, .lookDeadline r)
      ((t.read env r).2, .finished (t.read env r).1) := by
  refine .head rfl rfl ?_
  unfold TTLStore.read
  by_cases hpast : (t.isPast env (t.expireAt.lookup r.key)).1 = true
  · simp only [if_pos hpast]
    refine .head rfl (congrArg (Prod.mk _) (if_pos hpast)) ?_
    exact reaches_del env _ _ _
  · simp only [if_neg hpast]
    refine .head rfl (congrArg (Prod.mk _) (if_neg hpast)) ?_
    exact .head rfl rfl (.head rfl rfl Relation.ReflTransGen.refl)

theorem reaches_expire (key : GoString) (ttl : Duration) :
    (ttlThreads env).Reaches (t, .lookKey key ttl)
      ((t.expire env key ttl).2, .finished (.flag (t.expire env key ttl).1)) := by
  unfold TTLStore.expire
  by_cases hget : (StoreInterface.get t.inner key).2 = true
  · rw [if_pos hget]
    refine .head rfl (congrArg (Prod.mk _) (if_pos hget)) ?_
    exact .head rfl rfl Relation.ReflTransGen.refl
  · rw [if_neg hget]
    refine .head rfl (congrArg (Prod.mk _) (if_neg hget)) ?_
    exact Relation.ReflTransGen.refl

/-- A thread that runs alone from the entry of a call to its end leaves what the call leaves and
keeps its reply. -/
theorem reaches_call (call : Call) :
    (ttlThreads env).Reaches (t, .enter call)
      ((t.call env call).2, .finished (t.call env call).1) := by
  cases call with
  | write w =>
    cases w with
    | set key value => exact reaches_write env t (.set key value)
    | hset hash key value => exact reaches_write env t (.hset hash key value)
  | setWithTTL key value ttl => exact .head rfl rfl (reaches_write env _ (.set key value))
  | read r =>
    cases r with
    | get key => exact reaches_read env t (.get key)
    | hget hash key => exact reaches_read env t (.hget hash key)
    | hgetAll hash => exact reaches_read env t (.hgetAll hash)
  | del key => exact reaches_del env t key .nothing
  | expire key ttl => exact reaches_expire env t key ttl
  | ttl key => exact .head rfl rfl (.head rfl rfl Relation.ReflTransGen.refl)
  | sweep => exact .head rfl rfl (reaches_dropNext env _ _ _)

/-- The schedule in which an idle thread enters a call and no other thread takes a step before it
has finished is the sequential call. -/
theorem exists_run_call {ι : Type} [DecidableEq ι] (c : Config ι (TTLStore σ) Phase) (i : ι)
    (hidle : (c.threads i).idle = true) (call : Call) :
    ∃ n, (ttlThreads env).run c (.enter i call :: List.replicate n (.advance i)) =
      ⟨(c.shared.call env call).2,
        Function.update c.threads i (.finished (c.shared.call env call).1)⟩ := by
  have hstep : (ttlThreads env).step c (.enter i call) =
      ⟨c.shared, Function.update c.threads i (Phase.enter call)⟩ := if_pos hidle
  have halone := reaches_call env c.shared call
  rw [← Function.update_self i (Phase.enter call) c.threads] at halone
  obtain ⟨n, hn⟩ := Reaches.exists_run (c := ⟨c.shared, Function.update c.threads i _⟩) halone
  refine ⟨n, ?_⟩
  rw [run, List.foldl_cons, hstep]
  refine hn.trans ?_
  rw [Function.update_idem]

end Alone

/-! ### Steps that keep the keys in step -/

/-- The keys that a thread has taken out of the tracked keys and has still to delete from the store
inside. -/
def Phase.removing : Phase → List GoString
  | forget key rest _ => key :: rest
  | delInner key rest _ => key :: rest
  | _ => []

/-- The key that a thread has written to the store inside and has still to track. -/
def Phase.writing : Phase → List GoString
  | addKey key => [key]
  | _ => []

section Guarded

variable {ι σ : Type} [DecidableEq ι]

/-- A key is being removed by some thread. -/
def Removing (c : Config ι (TTLStore σ) Phase) (k : GoString) : Prop :=
  ∃ i, k ∈ (c.threads i).removing

/-- A key is being written by some thread. -/
def Writing (c : Config ι (TTLStore σ) Phase) (k : GoString) : Prop :=
  ∃ i, k ∈ (c.threads i).writing

instance [Fintype ι] (c : Config ι (TTLStore σ) Phase) (k : GoString) : Decidable (Removing c k) :=
  inferInstanceAs (Decidable (∃ i, k ∈ (c.threads i).removing))

instance [Fintype ι] (c : Config ι (TTLStore σ) Phase) (k : GoString) : Decidable (Writing c k) :=
  inferInstanceAs (Decidable (∃ i, k ∈ (c.threads i).writing))

/-- The condition on a step: a key is not written to the store inside while it is being removed, and
not taken out of the tracked keys while it is being written. -/
def Allowed (env : Environment) (c : Config ι (TTLStore σ) Phase) : Event ι Call → Prop
  | .enter _ _ => True
  | .advance i =>
    match c.threads i with
    | .writeInner w => ¬Removing c w.key
    | .removeKey key _ => ¬Writing c key
    | .collectExpired => ∀ key ∈ c.shared.expiredKeys env, ¬Writing c key
    | _ => True

/-- What holds of a key, from whether it is being removed, being written, tracked and present. -/
structure KeyInStep (removing writing tracked present : Prop) : Prop where
  exclusive : removing → ¬writing
  untracked : removing → ¬tracked
  written : writing → present
  settled : ¬removing → ¬writing → (tracked ↔ present)

section KeyInStep

variable {removing writing tracked present : Prop}

/-- The key is written to the store inside. -/
theorem keyInStep_of_write (hremoving : ¬removing) : KeyInStep removing True tracked True :=
  ⟨fun hr ↦ absurd hr hremoving, fun hr ↦ absurd hr hremoving, fun _ ↦ trivial,
    fun _ hw ↦ absurd trivial hw⟩

/-- The key that has been written is tracked, while others may be writing it as well. -/
theorem KeyInStep.track (h : KeyInStep removing True tracked present) (others : Prop) :
    KeyInStep removing others True present :=
  ⟨fun hr ↦ absurd trivial (h.exclusive hr), fun hr ↦ absurd trivial (h.exclusive hr),
    fun _ ↦ h.written trivial, fun _ _ ↦ ⟨fun _ ↦ h.written trivial, fun _ ↦ trivial⟩⟩

/-- The key is taken out of the tracked keys. -/
theorem keyInStep_of_untrack (hwriting : ¬writing) : KeyInStep True writing False present :=
  ⟨fun _ ↦ hwriting, fun _ hf ↦ hf, fun hw ↦ absurd hw hwriting, fun hr ↦ absurd trivial hr⟩

/-- The key that is being removed is deleted from the store inside, while others may be removing it
as well. -/
theorem KeyInStep.delete (h : KeyInStep True writing tracked present) (others : Prop) :
    KeyInStep others writing tracked False :=
  ⟨fun _ ↦ h.exclusive trivial, fun _ ↦ h.untracked trivial,
    fun hw ↦ absurd hw (h.exclusive trivial),
    fun _ _ ↦ ⟨fun ht ↦ absurd ht (h.untracked trivial), False.elim⟩⟩

end KeyInStep

variable [KeyedStore σ] {env : Environment} {c : Config ι (TTLStore σ) Phase}

/-- What holds of all keys. -/
def InStep (c : Config ι (TTLStore σ) Phase) : Prop :=
  ∀ k, KeyInStep (Removing c k) (Writing c k) (k ∈ c.shared.allKeys)
    (k ∈ KeyedStore.keys c.shared.inner)

/-- Assumes: a step of one thread that keeps every key in step, whatever the other threads do to the
key; about the others the step may use what is not the case before it. -/
theorem InStep.update {i : ι} {t : TTLStore σ} {before p : Phase} (hc : InStep c)
    (hbefore : c.threads i = before)
    (hstep : ∀ k (others others' : Prop), (¬Removing c k → ¬others) → (¬Writing c k → ¬others') →
      KeyInStep (k ∈ before.removing ∨ others) (k ∈ before.writing ∨ others')
        (k ∈ c.shared.allKeys) (k ∈ KeyedStore.keys c.shared.inner) →
      KeyInStep (k ∈ p.removing ∨ others) (k ∈ p.writing ∨ others')
        (k ∈ t.allKeys) (k ∈ KeyedStore.keys t.inner)) :
    InStep ⟨t, Function.update c.threads i p⟩ := by
  intro k
  have hsplit : ∀ P : Phase → Prop,
      (∃ j, P (c.threads j)) ↔ P (c.threads i) ∨ ∃ j, j ≠ i ∧ P (c.threads j) := by
    intro P
    constructor
    · rintro ⟨j, hj⟩
      by_cases hji : j = i
      · exact Or.inl (hji ▸ hj)
      · exact Or.inr ⟨j, hji, hj⟩
    · rintro (hi | ⟨j, -, hj⟩)
      · exact ⟨i, hi⟩
      · exact ⟨j, hj⟩
  have hkey := hc k
  rw [Removing, hsplit fun p ↦ k ∈ p.removing, Writing, hsplit fun p ↦ k ∈ p.writing,
    hbefore] at hkey
  have hafter := hstep k _ _ (fun hnone ⟨j, _, hj⟩ ↦ hnone ⟨j, hj⟩)
    (fun hnone ⟨j, _, hj⟩ ↦ hnone ⟨j, hj⟩) hkey
  rw [Removing, Function.exists_update_iff c.threads fun _ p ↦ k ∈ p.removing, Writing,
    Function.exists_update_iff c.threads fun _ p ↦ k ∈ p.writing]
  exact hafter

/-- A step that leaves the tracked keys and the store inside as they are, between phases in which
nothing is half done. -/
theorem InStep.quiet {i : ι} {t : TTLStore σ} {before p : Phase} (hc : InStep c)
    (hbefore : c.threads i = before) (hremoving : before.removing = p.removing)
    (hwriting : before.writing = p.writing) (htracked : t.allKeys = c.shared.allKeys)
    (hinner : t.inner = c.shared.inner) : InStep ⟨t, Function.update c.threads i p⟩ := by
  refine hc.update hbefore fun k _ _ _ _ h ↦ ?_
  rw [htracked, hinner, ← hremoving, ← hwriting]
  exact h

/-- A step into one of two phases. -/
theorem InStep.branch {i : ι} {t : TTLStore σ} {b : Prop} [Decidable b] {p q : Phase}
    (hp : InStep ⟨t, Function.update c.threads i p⟩)
    (hq : InStep ⟨t, Function.update c.threads i q⟩) :
    InStep ⟨t, Function.update c.threads i (if b then p else q)⟩ := by
  by_cases hb : b
  · rw [if_pos hb]
    exact hp
  · rw [if_neg hb]
    exact hq

omit [KeyedStore σ] in
theorem removing_dropNext (reply : Reply) (keys : List GoString) :
    (Phase.dropNext reply keys).removing = keys := by
  cases keys with
  | nil => rfl
  | cons key keys => rfl

omit [KeyedStore σ] in
theorem writing_dropNext (reply : Reply) (keys : List GoString) :
    (Phase.dropNext reply keys).writing = [] := by
  cases keys with
  | nil => rfl
  | cons key keys => rfl

/-- A step that takes keys out of the tracked keys, none of which is being written. -/
theorem InStep.untrack {i : ι} {t : TTLStore σ} {before p : Phase} {keys : List GoString}
    (hc : InStep c) (hbefore : c.threads i = before) (hremoving : before.removing = [])
    (hwriting : before.writing = []) (hkeys : p.removing = keys) (hp : p.writing = [])
    (htracked : ∀ k, k ∈ t.allKeys ↔ k ∈ c.shared.allKeys ∧ k ∉ keys)
    (hinner : t.inner = c.shared.inner) (hfree : ∀ key ∈ keys, ¬Writing c key) :
    InStep ⟨t, Function.update c.threads i p⟩ := by
  refine hc.update hbefore fun k others others' _ hothers h ↦ ?_
  rw [hremoving, hwriting] at h
  rw [hkeys, hp, htracked, hinner]
  simp only [List.not_mem_nil, false_or] at h ⊢
  by_cases hk : k ∈ keys
  · simp only [hk, true_or, not_true_eq_false, and_false]
    exact keyInStep_of_untrack (hothers (hfree k hk))
  · simp only [hk, false_or, not_false_eq_true, and_true]
    exact h

theorem InStep.writeInner {i : ι} {w : Write} (hc : InStep c)
    (hphase : c.threads i = .writeInner w) (hfree : ¬Removing c w.key) :
    InStep ⟨c.shared.writeInner w, Function.update c.threads i (.addKey w.key)⟩ := by
  refine hc.update hphase fun k others others' hothers _ h ↦ ?_
  have hkeys : k ∈ KeyedStore.keys (c.shared.writeInner w).inner ↔
      k = w.key ∨ k ∈ KeyedStore.keys c.shared.inner := by
    rw [keys_writeInner, Finset.mem_insert]
  simp only [Phase.removing, Phase.writing, List.not_mem_nil, List.mem_singleton, false_or,
    hkeys] at h ⊢
  by_cases hk : k = w.key
  · simp only [hk, true_or]
    rw [hk] at hothers
    exact keyInStep_of_write (hothers hfree)
  · simp only [hk, false_or]
    exact h

theorem InStep.addKey {i : ι} {key : GoString} (hc : InStep c)
    (hphase : c.threads i = .addKey key) :
    InStep ⟨c.shared.addKey key, Function.update c.threads i (.record key)⟩ := by
  refine hc.update hphase fun k others others' _ _ h ↦ ?_
  simp only [Phase.removing, Phase.writing, TTLStore.addKey, List.not_mem_nil, List.mem_singleton,
    false_or, Finset.mem_insert] at h ⊢
  by_cases hk : k = key
  · simp only [hk, true_or] at h ⊢
    exact h.track others'
  · simp only [hk, false_or] at h ⊢
    exact h

theorem InStep.delInner {i : ι} {key : GoString} {rest : List GoString} {reply : Reply}
    (hc : InStep c) (hphase : c.threads i = .delInner key rest reply) :
    InStep ⟨c.shared.delInner key, Function.update c.threads i (.dropNext reply rest)⟩ := by
  refine hc.update hphase fun k others others' _ _ h ↦ ?_
  have hkeys : k ∈ KeyedStore.keys (c.shared.delInner key).inner ↔
      k ≠ key ∧ k ∈ KeyedStore.keys c.shared.inner := by
    rw [← Finset.mem_erase, ← KeyedStore.keys_del]
    rfl
  have hsame : (c.shared.delInner key).allKeys = c.shared.allKeys := rfl
  rw [removing_dropNext, writing_dropNext, hkeys, hsame]
  simp only [Phase.removing, Phase.writing, List.not_mem_nil, List.mem_cons, false_or] at h ⊢
  by_cases hk : k = key
  · simp only [hk, true_or, ne_eq, not_true_eq_false, false_and] at h ⊢
    exact h.delete _
  · simp only [hk, false_or, ne_eq, not_false_eq_true, true_and] at h ⊢
    exact h

/-- An allowed step of a busy thread keeps all keys in step. -/
theorem InStep.advance {i : ι} (hc : InStep c) (hallowed : Allowed env c (.advance i)) :
    InStep ⟨((c.threads i).advance env c.shared).1,
      Function.update c.threads i ((c.threads i).advance env c.shared).2⟩ := by
  cases hphase : c.threads i with
  | finished reply => exact hc.quiet hphase rfl rfl rfl rfl
  | setDeadline key value ttl => exact hc.quiet hphase rfl rfl rfl rfl
  | writeInner w =>
    simp only [Allowed, hphase] at hallowed
    exact hc.writeInner hphase hallowed
  | addKey key => exact hc.addKey hphase
  | record key => exact hc.quiet hphase rfl rfl rfl rfl
  | checkLimit =>
    exact InStep.branch (hc.quiet hphase rfl rfl rfl rfl) (hc.quiet hphase rfl rfl rfl rfl)
  | candidates =>
    exact InStep.branch (hc.quiet hphase rfl rfl rfl rfl) (hc.quiet hphase rfl rfl rfl rfl)
  | chooseKey keys =>
    exact InStep.branch (hc.quiet hphase rfl rfl rfl rfl) (hc.quiet hphase rfl rfl rfl rfl)
  | removeKey key reply =>
    simp only [Allowed, hphase] at hallowed
    have htracked (k : GoString) : k ∈ (c.shared.removeKey key).allKeys ↔
        k ∈ c.shared.allKeys ∧ k ∉ [key] := by
      rw [List.mem_singleton, and_comm]
      exact Finset.mem_erase
    exact hc.untrack hphase rfl rfl rfl rfl htracked rfl (List.forall_mem_singleton.mpr hallowed)
  | forget key rest reply => exact hc.quiet hphase rfl rfl rfl rfl
  | delInner key rest reply => exact hc.delInner hphase
  | lookDeadline r => exact hc.quiet hphase rfl rfl rfl rfl
  | comparePast r deadline =>
    obtain ⟨requests, hpast⟩ := c.shared.isPast_cases env deadline
    show InStep ⟨(c.shared.isPast env deadline).2, Function.update c.threads i (ite _ _ _)⟩
    rw [hpast]
    exact InStep.branch (hc.quiet hphase rfl rfl rfl rfl) (hc.quiet hphase rfl rfl rfl rfl)
  | recordRead r => exact hc.quiet hphase rfl rfl rfl rfl
  | readInner r => exact hc.quiet hphase rfl rfl rfl rfl
  | lookKey key ttl =>
    exact InStep.branch (hc.quiet hphase rfl rfl rfl rfl) (hc.quiet hphase rfl rfl rfl rfl)
  | expire key ttl => exact hc.quiet hphase rfl rfl rfl rfl
  | lookTTL key => exact hc.quiet hphase rfl rfl rfl rfl
  | compareTTL deadline =>
    cases deadline with
    | none => exact hc.quiet hphase rfl rfl rfl rfl
    | some exp => exact hc.quiet hphase rfl rfl rfl rfl
  | collectExpired =>
    simp only [Allowed, hphase] at hallowed
    exact hc.untrack hphase rfl rfl (removing_dropNext _ _) (writing_dropNext _ _)
      (TTLStore.keysRemoved_collectExpired env c.shared).tracked
      (TTLStore.keysRemoved_collectExpired env c.shared).inner hallowed

/-- Entering a call changes nothing. -/
theorem InStep.enter {i : ι} (hc : InStep c) (hidle : (c.threads i).idle = true) (call : Call) :
    InStep ⟨c.shared, Function.update c.threads i (Phase.enter call)⟩ := by
  cases hphase : c.threads i with
  | finished reply =>
    cases call with
    | write w => exact hc.quiet hphase rfl rfl rfl rfl
    | setWithTTL key value ttl => exact hc.quiet hphase rfl rfl rfl rfl
    | read r => exact hc.quiet hphase rfl rfl rfl rfl
    | del key => exact hc.quiet hphase rfl rfl rfl rfl
    | expire key ttl => exact hc.quiet hphase rfl rfl rfl rfl
    | ttl key => exact hc.quiet hphase rfl rfl rfl rfl
    | sweep => exact hc.quiet hphase rfl rfl rfl rfl
  | _ => exact absurd hidle (by rw [hphase]; simp [Phase.idle])

/-- Assumes: a store with the tracked keys in step and threads that have nothing to do. After every
schedule of allowed steps, all keys are in step. -/
theorem InStep.run {t : TTLStore σ} (ht : t.allKeys = KeyedStore.keys t.inner) (reply : Reply)
    {events : List (Event ι Call)}
    (hallowed : (ttlThreads env).Guarded (Allowed env) ⟨t, fun _ ↦ .finished reply⟩ events) :
    InStep ((ttlThreads env).run ⟨t, fun _ : ι ↦ .finished reply⟩ events) := by
  refine ThreadSystem.run_invariant (fun _ _ ↦ ([] : List Unit)) (fun c _ ↦ InStep c) []
    (fun c _ i call hc hidle _ ↦ hc.enter hidle call) (fun c _ i hc _ hstep ↦ hc.advance hstep)
    (fun k ↦ ?_) hallowed
  have hremoving : ¬Removing (⟨t, fun _ : ι ↦ .finished reply⟩ : Config ι (TTLStore σ) Phase) k :=
    fun ⟨_, h⟩ ↦ List.not_mem_nil h
  have hwriting : ¬Writing (⟨t, fun _ : ι ↦ .finished reply⟩ : Config ι (TTLStore σ) Phase) k :=
    fun ⟨_, h⟩ ↦ List.not_mem_nil h
  refine ⟨fun h ↦ absurd h hremoving, fun h ↦ absurd h hremoving, fun h ↦ absurd h hwriting,
    fun _ _ ↦ ?_⟩
  rw [ht]

omit [DecidableEq ι] in
/-- Once all calls have finished, the tracked keys are the keys of the store inside. -/
theorem InStep.allKeys_eq (hc : InStep c) (hquiet : (ttlThreads env).Quiet c) :
    c.shared.allKeys = KeyedStore.keys c.shared.inner := by
  have hfinished : ∀ i, ∃ reply, c.threads i = .finished reply := by
    intro i
    have hidle : (c.threads i).idle = true := hquiet i
    cases hphase : c.threads i with
    | finished reply => exact ⟨reply, rfl⟩
    | _ => exact absurd hidle (by rw [hphase]; simp [Phase.idle])
  ext k
  refine (hc k).settled ?_ ?_
  · rintro ⟨i, hi⟩
    obtain ⟨reply, hreply⟩ := hfinished i
    rw [hreply] at hi
    exact List.not_mem_nil hi
  · rintro ⟨i, hi⟩
    obtain ⟨reply, hreply⟩ := hfinished i
    rw [hreply] at hi
    exact List.not_mem_nil hi

end Guarded

/-- In every schedule of any number of threads that call the store over a map store, and in which
every step is allowed, the tracked keys are exactly the keys that hold a string or a hash in every
configuration in which all calls have finished.

Assumes: they are so at the start. -/
theorem ttl_interleaved_in_step {ι : Type} [DecidableEq ι] (env : Environment)
    (t : TTLStore MapStore) (ht : t.allKeys = t.inner.strings.keys ∪ t.inner.hashes.keys)
    (events : List (Event ι Call))
    (hallowed : (ttlThreads env).Guarded (Allowed env) ⟨t, fun _ ↦ .finished .nothing⟩ events)
    (hquiet : (ttlThreads env).Quiet
      ((ttlThreads env).run ⟨t, fun _ : ι ↦ .finished .nothing⟩ events)) :
    let reached := ((ttlThreads env).run ⟨t, fun _ : ι ↦ .finished .nothing⟩ events).shared
    reached.allKeys = reached.inner.strings.keys ∪ reached.inner.hashes.keys :=
  (InStep.run ht .nothing hallowed).allKeys_eq hquiet

/-- A clock that reads 0 once and 10 from then on. -/
def lateClock : Environment :=
  .ofClock (fun i ↦ if i = 0 then 0 else 10) <| by
    intro i j hij
    by_cases hi : i = 0
    · by_cases hj : j = 0
      · simp [hi, hj]
      · simp [hi, hj]
    · have hj : j ≠ 0 := fun h ↦ hi (Nat.le_zero.mp (h ▸ hij))
      simp [hi, hj]

/-- A store whose only key has a deadline that is over. -/
def staleStore : TTLStore MapStore :=
  (TTLStore.new MapStore.new).run lateClock [.setWithTTL (text "k") (text "old") 5]

/-- A write after a sweep has finished. -/
theorem ttl_interleaved_in_step_sweep :
    let events : List (Event (Fin 2) Call) :=
      [.enter 0 .sweep, .advance 0, .advance 0, .advance 0,
        .enter 1 (.write (.set (text "k") (text "new"))), .advance 1, .advance 1, .advance 1,
        .advance 1]
    let reached :=
      ((ttlThreads lateClock).run ⟨staleStore, fun _ ↦ .finished .nothing⟩ events).shared
    reached.allKeys = reached.inner.strings.keys ∪ reached.inner.hashes.keys := by
  refine ttl_interleaved_in_step lateClock staleStore (by decide) _ ⟨trivial, ?_, trivial, trivial,
    trivial, ?_, trivial, trivial, trivial, trivial⟩ (by decide)
  · show ∀ key ∈ _, ¬Writing _ key
    decide
  · show ¬Removing _ _
    decide

/-- A sweep takes a key out of the tracked keys, a write of the key runs from its start to its end,
and the sweep deletes what was written: the key stays tracked and holds nothing. -/
theorem ttl_interleaved_write_lost :
    let events : List (Event (Fin 2) Call) :=
      [.enter 0 .sweep, .advance 0, .enter 1 (.write (.set (text "k") (text "new"))), .advance 1,
        .advance 1, .advance 1, .advance 1, .advance 0, .advance 0]
    let c := (ttlThreads lateClock).run ⟨staleStore, fun _ ↦ .finished .nothing⟩ events
    (ttlThreads lateClock).Quiet c ∧ text "k" ∈ c.shared.allKeys ∧
      text "k" ∉ c.shared.inner.strings.keys ∪ c.shared.inner.hashes.keys :=
  ⟨by decide, by decide, by decide⟩

end FluxCache.Store
