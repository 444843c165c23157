import FluxCache.Store.TTLLimit
import FluxCache.Server.Restart

/-!
# Deadlines and the replay

A `SET` with an `EX` option is logged with all its arguments, but the replay sets the value alone:
after a restart no key has a deadline (`expireAt_writes`). So a key that expired is absent from the
rebuilt store only if the replay happens to evict it (`deadline_survives_iff`), which needs a policy
that evicts and a positive limit (`EvictsNothing`).
-/

set_option autoImplicit false
set_option relaxedAutoImplicit false

namespace FluxCache.Server

open Foundation Store Resp Network Persistence

/-! ### Evictions of a replay -/

section Eviction

variable {env : Environment} {t : TTLStore MapStore} {k : GoString} {w : Write}

/-- The write makes the store evict the key. -/
def Evicts (env : Environment) (k : GoString) (t : TTLStore MapStore) (w : Write) : Prop :=
  let after := (t.writeInner w).track env w.key
  after.shouldEvict = true ∧ after.victim env = k ∧ k ≠ []

/-- One of the writes makes the store evict the key. -/
def EvictedBy (env : Environment) (k : GoString) : TTLStore MapStore → List Write → Prop
  | _, [] => False
  | t, w :: writes => Evicts env k t w ∨ EvictedBy env k (t.write env w) writes

/-- A write leaves no string under the key if it evicts the key or if there was none. -/
theorem noString_write_iff :
    NoString (t.write env w) k ↔
      Evicts env k t w ∨ (w.apply t.inner).valueAt (.string k) = none := by
  obtain ⟨requests, hevict⟩ := ((t.writeInner w).track env w.key).evictIfNeeded_eq env
  rw [NoString, TTLStore.write, hevict]
  split
  · rename_i hvictim
    show ((w.apply t.inner).strings.erase _).lookup k = none ↔ _
    by_cases hk : k = ((t.writeInner w).track env w.key).victim env
    · rw [hk, Finmap.lookup_erase]
      exact ⟨fun _ ↦ Or.inl ⟨hvictim.1, rfl, hvictim.2⟩, fun _ ↦ rfl⟩
    · rw [Finmap.lookup_erase_ne hk]
      exact ⟨Or.inr, fun h ↦ h.resolve_left fun h ↦ hk h.2.1.symm⟩
  · rename_i hvictim
    refine ⟨Or.inr, fun h ↦ h.resolve_left fun h ↦ hvictim ⟨h.1, ?_⟩⟩
    rw [h.2.1]
    exact h.2.2

/-- Writes that do not set the key leave no string under it exactly if there was none or one of them
evicts it. -/
theorem noString_writes_iff {writes : List Write} (hwrites : ∀ w ∈ writes, w.slot ≠ .string k) :
    NoString (writes.foldl (TTLStore.write env) t) k ↔
      NoString t k ∨ EvictedBy env k t writes := by
  induction writes generalizing t with
  | nil => exact ⟨Or.inl, fun h ↦ h.resolve_right id⟩
  | cons w writes ih =>
    obtain ⟨hw, hrest⟩ := List.forall_mem_cons.mp hwrites
    rw [List.foldl_cons, ih hrest, noString_write_iff, valueAt_apply, if_neg hw, EvictedBy,
      or_right_comm, or_comm]
    exact Iff.rfl

/-- After a write that sets the key the evictions decide alone. -/
theorem noString_set_iff {value : GoString} {writes : List Write}
    (hwrites : ∀ w ∈ writes, w.slot ≠ .string k) :
    NoString ((Write.set k value :: writes).foldl (TTLStore.write env) t) k ↔
      EvictedBy env k t (.set k value :: writes) := by
  have hsome : ((Write.set k value).apply t.inner).valueAt (.string k) ≠ none := by
    rw [valueAt_apply, if_pos (show (Write.set k value).slot = .string k from rfl)]
    exact Option.some_ne_none value
  rw [List.foldl_cons, noString_writes_iff hwrites, noString_write_iff, or_iff_left hsome,
    EvictedBy]

/-- No deadline comes from writes. -/
theorem expireAt_write (ht : t.expireAt = ∅) : (t.write env w).expireAt = ∅ := by
  obtain ⟨requests, hevict | ⟨key, hevict⟩⟩ :=
    ((t.writeInner w).track env w.key).evictIfNeeded_cases env
  · rw [TTLStore.write, hevict]
    exact ht
  · rw [TTLStore.write, hevict]
    show t.expireAt.erase key = ∅
    rw [ht]
    rfl

theorem expireAt_writes (ht : t.expireAt = ∅) (writes : List Write) :
    (writes.foldl (TTLStore.write env) t).expireAt = ∅ := by
  induction writes generalizing t with
  | nil => exact ht
  | cons w writes ih => exact ih (expireAt_write ht)

/-- A write keeps the limit. -/
theorem maxKeys_write : (t.write env w).maxKeys = t.maxKeys := by
  obtain ⟨requests, hevict | ⟨key, hevict⟩⟩ :=
    ((t.writeInner w).track env w.key).evictIfNeeded_cases env
  · rw [TTLStore.write, hevict]
    rfl
  · rw [TTLStore.write, hevict]
    rfl

/-- The policy evicts nothing, or there is no limit. -/
def EvictsNothing (t : TTLStore MapStore) : Prop := t.policy = .noEviction ∨ t.maxKeys ≤ 0

theorem EvictsNothing.writes (ht : EvictsNothing t) (writes : List Write) :
    EvictsNothing (writes.foldl (TTLStore.write env) t) := by
  induction writes generalizing t with
  | nil => exact ht
  | cons w writes ih =>
    refine ih (ht.imp (fun hpolicy ↦ (write_noEviction hpolicy env w).1) fun hmaxKeys ↦ ?_)
    rwa [maxKeys_write]

theorem EvictsNothing.not_evicts (ht : EvictsNothing t) : ¬ Evicts env k t w := by
  rintro ⟨hshould, hvictim, hk⟩
  rcases ht with hpolicy | hmaxKeys
  · refine hk (hvictim.symm.trans ?_)
    show (Policy.evict env _ _ _ (t.policy.record _ _)) = _
    rw [hpolicy]
    rfl
  · exact absurd (TTLStore.shouldEvict_iff.mp hshould).1 (not_lt.mpr hmaxKeys)

theorem EvictsNothing.not_evictedBy (ht : EvictsNothing t) (writes : List Write) :
    ¬ EvictedBy env k t writes := by
  induction writes generalizing t with
  | nil => exact id
  | cons w writes ih => exact not_or.mpr ⟨ht.not_evicts, ih (ht.writes [w])⟩

end Eviction

/-! ### The restart -/

section Restart

variable {π : Type} [LogInterface π] {mapUpper : GoString → GoString} {env env' : Environment}
  {password : GoString} {server : ServerState MapStore π} {log : List Command} {k : GoString}

/-- A `SET` of a key with a valid `EX` option of a positive number of seconds. -/
structure SetsWithDeadline (mapUpper : GoString → GoString) (k : GoString) (sec : ℤ)
    (r : Request) : Prop where
  name : toUpper mapUpper r.name = text "SET"
  args : ∃ value options, r.args = k :: value :: options ∧
    expireOption (options.map .ofBulk) = some sec
  positive : 0 < sec

/-- `Get` does not find the key at any time after an instant, however often the store was swept. -/
def AbsentAfter (t : TTLStore MapStore) (k : GoString) (deadline : Time) : Prop :=
  ∀ later : Environment, (∀ i, deadline < later.now i) → ∀ sweeps,
    ((t.run later (List.replicate sweeps .sweep)).get later k).1 = .value ([], false)

theorem run_sweeps {t : TTLStore MapStore} (ht : t.expireAt = ∅) (later : Environment)
    (sweeps : ℕ) :
    (t.run later (List.replicate sweeps .sweep)).expireAt = ∅ ∧
      (t.run later (List.replicate sweeps .sweep)).inner = t.inner := by
  induction sweeps generalizing t with
  | zero => exact ⟨ht, rfl⟩
  | succ sweeps ih =>
    have hsweep := sweep_of_expireAt_empty ht later
    have hexpireAt : (t.sweep later).expireAt = ∅ := by rw [hsweep, ht]
    have hinner : (t.sweep later).inner = t.inner := by rw [hsweep]
    obtain ⟨hempty, hsame⟩ := ih hexpireAt
    exact ⟨hempty, hsame.trans hinner⟩

/-- Without deadlines a key is absent after an instant exactly if it has no string. -/
theorem absentAfter_iff {t : TTLStore MapStore} (ht : t.expireAt = ∅) (deadline : Time) :
    AbsentAfter t k deadline ↔ NoString t k := by
  have hget (later : Environment) (sweeps : ℕ) :
      ((t.run later (List.replicate sweeps .sweep)).get later k).1 =
        .value (commaOk (t.inner.strings.lookup k)) := by
    obtain ⟨hempty, hsame⟩ := run_sweeps ht later sweeps
    rw [TTLStore.get, read_of_expireAt_empty hempty, hsame]
    rfl
  constructor
  · intro habsent
    have hmissing := habsent (.ofClock (fun _ ↦ deadline + 1) monotone_const)
      (fun _ ↦ Int.lt_succ deadline) 0
    rw [hget] at hmissing
    exact commaOk_eq_missing_iff.mp (Reply.value.inj hmissing)
  · intro hstring later _ sweeps
    rw [hget]
    exact congrArg Reply.value (commaOk_eq_missing_iff.mpr hstring)

/-- A key whose last `SET` had a deadline is absent from the store after a restart, at all times
after the deadline, exactly if the replay evicts it. Without a policy that evicts and a positive
limit it never does. Assumes: no later request sets the key, and the log can be read. -/
theorem deadline_survives_iff (policy : Policy) (maxKeys : ℤ) {sec : ℤ} {r : Request}
    {before after : List Activity} (hlog : LogInterface.Written server.log log)
    (hr : SetsWithDeadline mapUpper k sec r)
    (hlast : ∀ other, .request other ∈ after → ¬ SetsKey mapUpper k other)
    (hreadable : LogInterface.Readable (π := π)
      (log ++ logged mapUpper (before ++ .request r :: after))) :
    let live (activities : List Activity) :=
      run mapUpper env password (connected server) activities
    let executed : Time := env.now (live before).world.store.requests
    let empty : TTLStore MapStore :=
      (TTLStore.new MapStore.new).setEvictionPolicy policy maxKeys
    let evicted : Prop := EvictedBy env' k
      (((log ++ logged mapUpper before).filterMap replayWrite).foldl (TTLStore.write env') empty)
      ((logged mapUpper (.request r :: after)).filterMap replayWrite)
    (∃ rebuilt : ServerState MapStore π,
      boot mapUpper env' empty (PersistenceInterface.close
        (live (before ++ .request r :: after)).world.log) = .ok rebuilt ∧
      (AbsentAfter rebuilt.store k (executed + sec * 10 ^ 9) ↔ evicted)) ∧
    (policy = .noEviction ∨ maxKeys ≤ 0 → ¬ evicted) := by
  intro live executed empty evicted
  obtain ⟨value, options, hargs, -⟩ := hr.args
  obtain ⟨p, hboot⟩ := @exists_restart π _ mapUpper env env' password server log hlog _ hreadable
    empty
  have hwrite : replayWrite ⟨toUpper mapUpper r.name, r.args⟩ = some (.set k value) := by
    rw [hr.name, hargs]
    rfl
  have hafter : ∀ w ∈ (logged mapUpper after).filterMap replayWrite, w.slot ≠ .string k := by
    intro w hw hslot
    obtain ⟨cmd, hcmd, hw⟩ := List.mem_filterMap.mp hw
    exact not_sets_logged_iff.mpr hlast cmd hcmd (replayWrite_slot_iff.mp ⟨w, hw, hslot⟩)
  have hwrites : (logged mapUpper (.request r :: after)).filterMap replayWrite =
      .set k value :: (logged mapUpper after).filterMap replayWrite := by
    rw [logged_request (Or.inl hr.name), List.filterMap_cons, hwrite]
  have hempty : policy = .noEviction ∨ maxKeys ≤ 0 → EvictsNothing empty := id
  refine ⟨⟨_, hboot, ?_⟩, fun hnone ↦ ((hempty hnone).writes _).not_evictedBy _⟩
  refine (absentAfter_iff (expireAt_writes rfl _) _).trans ?_
  show NoString _ k ↔ EvictedBy env' k _ _
  rw [logged_append, ← List.append_assoc, List.filterMap_append, List.foldl_append, hwrites]
  exact noString_set_iff hafter

end Restart

/-- The request `SET k v EX 1`. -/
def setForOneSecond : Request := ⟨text "SET", [text "k", text "v", text "EX", text "1"]⟩

theorem setsWithDeadline_setForOneSecond :
    SetsWithDeadline id (text "k") 1 setForOneSecond :=
  ⟨rfl, ⟨_, _, rfl, by decide⟩, by decide⟩

/-- With a limit of one key, a later `SET` evicts the key in the replay. -/
theorem deadline_survives_evicted :
    let live (activities : List Activity) :=
      run id stillClock [] (connected (⟨fresh 0, NewWAL []⟩ : ServerState MapStore WAL)) activities
    let other : Activity := .request ⟨text "SET", [text "l", text "w"]⟩
    ∃ rebuilt : ServerState MapStore WAL,
      boot id stillClock ((TTLStore.new MapStore.new).setEvictionPolicy (.lru ∅) 1)
        (PersistenceInterface.close (live [.request setForOneSecond, other]).world.log) =
          .ok rebuilt ∧
      AbsentAfter rebuilt.store (text "k") (0 + 1 * 10 ^ 9) := by
  intro live other
  have hfirst : (⟨text "SET", setForOneSecond.args⟩ : Command).Encodable := by decide
  have hsecond : (⟨text "SET", [text "l", text "w"]⟩ : Command).Encodable := by decide
  have hnew : LogInterface.Written (NewWAL []) [] := ⟨rfl, rfl⟩
  have hlast (r : Request) (hr : .request r ∈ [other]) : ¬ SetsKey id (text "k") r := by
    obtain rfl := Activity.request.inj (List.mem_singleton.mp hr)
    rintro ⟨-, value, rest, hargs⟩
    exact absurd (List.cons.inj hargs).1 (by decide)
  obtain ⟨⟨rebuilt, hboot, hiff⟩, -⟩ :=
    @deadline_survives_iff WAL _ id stillClock stillClock [] ⟨fresh 0, NewWAL []⟩ [] (text "k")
      (.lru ∅) 1 1 setForOneSecond [] [other] hnew setsWithDeadline_setForOneSecond hlast
      (List.forall_mem_cons.mpr ⟨hfirst, List.forall_mem_singleton.mpr hsecond⟩)
  refine ⟨rebuilt, hboot, hiff.mpr (Or.inr (Or.inl ⟨by decide, by decide, by decide⟩))⟩

/-- What a restart makes of a key with a deadline, for a log. -/
def OutlivesDeadline (π : Type) [PersistenceInterface GoString π] : Prop :=
  ∃ server : ServerState MapStore π, boot id stillClock (fresh 0) [] = .ok server ∧
    (run id stillClock [] (connected server) [.request setForOneSecond]).world.store.expireAt.lookup
      (text "k") = some (10 ^ 9) ∧
    ∃ rebuilt : ServerState MapStore π,
      boot id stillClock (fresh 0) (PersistenceInterface.close
        (run id stillClock [] (connected server) [.request setForOneSecond]).world.log) =
          .ok rebuilt ∧
      (rebuilt.store.get (.ofClock (fun _ ↦ 2 * 10 ^ 9) monotone_const) (text "k")).1 =
        .value (text "v", true)

theorem outlivesDeadline_of_readable {π : Type} [LogInterface π]
    (hreadable : LogInterface.Readable (π := π) [⟨text "SET", setForOneSecond.args⟩]) :
    OutlivesDeadline π := by
  obtain ⟨server, hboot, hstore, hnew⟩ := exists_boot_new (π := π) id stillClock (fresh 0)
  obtain ⟨p, hrebuilt⟩ := @exists_restart π _ id stillClock stillClock [] server [] hnew
    [.request setForOneSecond] hreadable (fresh 0)
  refine ⟨server, hboot, ?_, _, hrebuilt, rfl⟩
  show (act id stillClock [] (connected server)
    (.request setForOneSecond)).world.store.expireAt.lookup _ = _
  rw [act_known rfl (lookup_setHandler rfl), connected, hstore]
  show (setHandler stillClock (setForOneSecond.args.map .ofBulk) (fresh 0)).2.expireAt.lookup _ = _
  decide

/-- The key is found two seconds after a `SET` for one second, if the server was restarted. -/
theorem deadline_lost_by_restart : OutlivesDeadline WAL ∧ OutlivesDeadline AOF := by
  have haof : AOF.Readable [⟨text "SET", setForOneSecond.args⟩] := by decide
  refine ⟨outlivesDeadline_of_readable ?_, outlivesDeadline_of_readable haof⟩
  exact List.forall_mem_singleton.mpr (by decide)

end FluxCache.Server
