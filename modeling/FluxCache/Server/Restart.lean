import FluxCache.Server.Main

/-!
# A restart of the server

A server runs on an empty disk, is closed, and is started again on what it has left there. The
commands `SET` and `HSET` are interpreted twice, by their handlers when they are executed and by the
callback of the replay. Where the two agree and the log can be read, the store after the restart
answers every read as the store before it (`restart_agrees`).

A `DEL` is not logged. So a key that was set and deleted is there again after a restart: a key is
absent exactly if no `SET` of it was logged, whatever was deleted (`absent_after_restart_iff`).
-/

set_option autoImplicit false
set_option relaxedAutoImplicit false

namespace FluxCache.Server

open Foundation Store Resp Network Persistence

/-- A fresh store that evicts nothing. -/
def fresh (maxKeys : ℤ) : TTLStore MapStore :=
  (TTLStore.new MapStore.new).setEvictionPolicy .noEviction maxKeys

/-- A connection whose client is authenticated, before its first request. -/
def connected {ω : Type} (world : ω) : Session ω := ⟨true, [], [], world⟩

/-! ### Requests on which the handlers and the replay agree -/

/-- A `SET` with at least two arguments and without a valid `EX` option, or an `HSET` with three. -/
def Accepted (mapUpper : GoString → GoString) (r : Request) : Prop :=
  toUpper mapUpper r.name = text "SET" ∧ 2 ≤ r.args.length ∧
      expireOption ((r.args.drop 2).map .ofBulk) = none ∨
    toUpper mapUpper r.name = text "HSET" ∧ r.args.length = 3

section Agree

variable {σ δ π : Type} [StoreInterface σ] [PersistenceInterface δ π]
  {mapUpper : GoString → GoString} {env : Environment} {password : GoString}
  {session : Session (ServerState σ π)}

/-- The handler of an accepted request makes the write that its replay makes. -/
theorem exists_write_of_accepted {r : Request} (hr : Accepted mapUpper r) :
    ∃ (handler : HandlerFunc (TTLStore σ)) (w : Write),
      (NewHandlers env).lookup (toUpper mapUpper r.name) = some handler ∧
      ((Activity.request r).logged mapUpper).toList.filterMap replayWrite = [w] ∧
      ∀ t, (handler (r.args.map .ofBulk) t).2 = t.write env w := by
  rcases hr with ⟨hname, hargs, hoption⟩ | ⟨hname, hargs⟩
  · obtain ⟨key, value, options, hr⟩ : ∃ key value options, r.args = key :: value :: options := by
      match hlist : r.args, hargs with
      | key :: value :: options, _ => exact ⟨key, value, options, rfl⟩
    rw [hr] at hoption ⊢
    refine ⟨setHandler env, .set key value, lookup_setHandler hname, ?_, fun t ↦ ?_⟩
    · rw [Activity.logged, if_pos (Or.inl hname), hname, hr]
      rfl
    · have hnone : expireOption (options.map .ofBulk) = none := hoption
      rw [List.map_cons, List.map_cons, setHandler, hnone]
      rfl
  · obtain ⟨hash, key, value, hr⟩ := List.length_eq_three.mp hargs
    rw [hr]
    refine ⟨hsetHandler env, .hset hash key value, lookup_hsetHandler hname, ?_, fun t ↦ rfl⟩
    rw [Activity.logged, if_pos (Or.inr hname), hname, hr]
    rfl

/-- One activity keeps the store in step with the log. -/
theorem permanent_act (hauth : session.authenticated = true)
    (ht : Permanent session.world.store) {activity : Activity}
    (hactivity : ∀ r, activity = .request r → Accepted mapUpper r) :
    Permanent (act mapUpper env password session activity).world.store ∧
      (act mapUpper env password session activity).world.store.inner =
        writeAll session.world.store.inner
          ((activity.logged mapUpper).toList.filterMap replayWrite) := by
  cases activity with
  | tick => exact ⟨ht, rfl⟩
  | sweep => exact ht.sweep env
  | request r =>
    obtain ⟨handler, w, hhandler, hlogged, hwrite⟩ :=
      @exists_write_of_accepted σ _ mapUpper env r (hactivity r rfl)
    rw [act_known hauth hhandler, hlogged, hwrite]
    exact ht.write env w

/-- A run of accepted requests keeps the store in step with the log. -/
theorem permanent_run (hauth : session.authenticated = true) (ht : Permanent session.world.store)
    {activities : List Activity}
    (hactivities : ∀ r, .request r ∈ activities → Accepted mapUpper r) :
    Permanent (run mapUpper env password session activities).world.store ∧
      (run mapUpper env password session activities).world.store.inner =
        writeAll session.world.store.inner
          ((logged mapUpper activities).filterMap replayWrite) := by
  induction activities generalizing session with
  | nil => exact ⟨ht, rfl⟩
  | cons activity activities ih =>
    obtain ⟨ht', hinner⟩ := @permanent_act σ δ π _ _ mapUpper env password session hauth ht activity
      fun r hr ↦ hactivities r (hr ▸ List.mem_cons_self)
    obtain ⟨hpermanent, htail⟩ := ih (authenticated_act hauth activity) ht'
      fun r hr ↦ hactivities r (.tail _ hr)
    refine ⟨hpermanent, htail.trans ?_⟩
    rw [hinner, logged_cons, List.filterMap_append, writeAll_append]

end Agree

/-! ### The restart -/

section Restart

variable {π : Type} [LogInterface π] {mapUpper : GoString → GoString} {env env' : Environment}
  {password : GoString} {maxKeys maxKeys' : ℤ}

/-- The first start, on an empty disk. -/
theorem exists_boot_new (mapUpper : GoString → GoString) (env : Environment)
    (t : TTLStore MapStore) :
    ∃ server : ServerState MapStore π, boot mapUpper env t [] = .ok server ∧
      server.store = t ∧ LogInterface.Written server.log [] := by
  obtain ⟨p, hreplay, hwritten⟩ := LogInterface.exists_new (π := π) mapUpper
  refine ⟨⟨t, p⟩, ?_, rfl, hwritten⟩
  rw [boot, hreplay]
  rfl

/-- A start on a log that passes on some commands. -/
theorem boot_of_replay {t : TTLStore MapStore} {disk : GoString} {cmds : List Command} {p : π}
    (hreplay : PersistenceInterface.replay mapUpper (PersistenceInterface.openDisk disk) =
      .ok (cmds, p)) :
    boot mapUpper env t disk = .ok ⟨cmds.foldl (applyCommand env) t, p⟩ := by
  rw [boot, hreplay]
  rfl

/-- What a restart after some activities gives. Assumes: the log can be read. -/
theorem exists_restart {server : ServerState MapStore π} {log : List Command}
    (hlog : LogInterface.Written server.log log) {activities : List Activity}
    (hreadable : LogInterface.Readable (π := π) (log ++ logged mapUpper activities))
    (t : TTLStore MapStore) :
    ∃ p : π, boot mapUpper env' t (PersistenceInterface.close
        (run mapUpper env password (connected server) activities).world.log) =
      .ok ⟨((log ++ logged mapUpper activities).filterMap replayWrite).foldl
        (TTLStore.write env') t, p⟩ := by
  have hwritten := @written_run _ π _ _ mapUpper env password (connected server) log rfl hlog
    activities
  obtain ⟨p, hreplay⟩ := LogInterface.exists_reopen hwritten hreadable mapUpper
  refine ⟨p, (boot_of_replay hreplay).trans ?_⟩
  rw [applyCommands_eq]

/-- After a restart the store answers every read as before. Assumes: the requests are accepted, and
the log can be read. -/
theorem restart_agrees {activities : List Activity}
    (hactivities : ∀ r, .request r ∈ activities → Accepted mapUpper r)
    (hreadable : LogInterface.Readable (π := π) (logged mapUpper activities)) :
    ∃ server restarted : ServerState MapStore π,
      boot mapUpper env (fresh maxKeys) [] = .ok server ∧
      boot mapUpper env' (fresh maxKeys') (PersistenceInterface.close
        (run mapUpper env password (connected server) activities).world.log) = .ok restarted ∧
      ∀ r, (restarted.store.read env' r).1 =
        ((run mapUpper env password (connected server) activities).world.store.read env r).1 := by
  obtain ⟨server, hboot, hstore, hnew⟩ := exists_boot_new (π := π) mapUpper env (fresh maxKeys)
  have hfresh : Permanent server.store := hstore ▸ permanent_new _ _
  have hwritten := @written_run _ π _ _ mapUpper env password (connected server) [] rfl hnew
    activities
  obtain ⟨hlive, hinner⟩ := @permanent_run _ _ π _ _ mapUpper env password (connected server) rfl
    hfresh activities hactivities
  obtain ⟨p, hreplay⟩ := LogInterface.exists_reopen hwritten hreadable mapUpper
  obtain ⟨hrebuilt, hrestored⟩ := @permanent_applyCommands _ _ env' _
    (permanent_new MapStore.new maxKeys') (logged mapUpper activities)
  refine ⟨server, _, hboot, boot_of_replay hreplay, fun r ↦ ?_⟩
  have hsame : server.store.inner = MapStore.new := by
    rw [hstore]
    rfl
  rw [hlive.read, hinner]
  refine (hrebuilt.read env' r).trans (congrArg r.answer (hrestored.trans ?_))
  rw [connected, hsame]
  rfl

/-- With the write-ahead log, a restart preserves what accepted requests have written. Assumes: a
`SET` has at least two arguments and no valid `EX` option, an `HSET` has three, and the arguments
fit the widths of their fields. -/
theorem wal_restart_preserves {activities : List Activity}
    (hactivities : ∀ r, .request r ∈ activities → Accepted mapUpper r)
    (hcount : ∀ r, .request r ∈ activities → r.args.length < 65536)
    (hargs : ∀ r, .request r ∈ activities → ∀ arg ∈ r.args, arg.length < 2 ^ 32) :
    ∃ server restarted : ServerState MapStore WAL,
      boot mapUpper env (fresh maxKeys) [] = .ok server ∧
      boot mapUpper env' (fresh maxKeys')
        (run mapUpper env password (connected server) activities).world.log.close =
          .ok restarted ∧
      ∀ r, (restarted.store.read env' r).1 =
        ((run mapUpper env password (connected server) activities).world.store.read env r).1 := by
  refine restart_agrees hactivities ?_
  intro cmd hcmd
  obtain ⟨hname, r, hr, rfl⟩ := mem_logged_iff.mp hcmd
  obtain ⟨hlength, hne, hupper⟩ := name_of_written hname
  exact ⟨⟨hlength, hcount r hr, hargs r hr⟩, hne, hupper⟩

/-- A run with a `SET`, a tick and an `HSET`. -/
theorem wal_restart_preserves_set_hset :
    ∃ server restarted : ServerState MapStore WAL,
      boot id stillClock (fresh 0) [] = .ok server ∧
      boot id stillClock (fresh 0)
        (run id stillClock [] (connected server)
          [.request ⟨text "set", [text "k", text "v"]⟩, .tick,
            .request ⟨text "HSET", [text "h", text "f", text "v"]⟩]).world.log.close =
          .ok restarted ∧
      ∀ r, (restarted.store.read stillClock r).1 =
        ((run id stillClock [] (connected server)
          [.request ⟨text "set", [text "k", text "v"]⟩, .tick,
            .request ⟨text "HSET", [text "h", text "f", text "v"]⟩]).world.store.read
              stillClock r).1 := by
  have hrequests (r : Request) (hr : Activity.request r ∈
      ([.request ⟨text "set", [text "k", text "v"]⟩, .tick,
        .request ⟨text "HSET", [text "h", text "f", text "v"]⟩] : List Activity)) :
      r = ⟨text "set", [text "k", text "v"]⟩ ∨
        r = ⟨text "HSET", [text "h", text "f", text "v"]⟩ := by
    simpa using hr
  refine wal_restart_preserves (fun r hr ↦ ?_) (fun r hr ↦ ?_) (fun r hr ↦ ?_)
  · rcases hrequests r hr with rfl | rfl
    · exact Or.inl ⟨by decide, by decide, rfl⟩
    · exact Or.inr ⟨by decide, by decide⟩
  · rcases hrequests r hr with rfl | rfl <;> decide
  · rcases hrequests r hr with rfl | rfl <;> decide

end Restart

/-! ### String keys after writes -/

section Strings

variable {k : GoString}

/-- A command whose replay sets a string key. -/
def Sets (k : GoString) (cmd : Command) : Prop :=
  ∃ value rest, cmd = ⟨text "SET", k :: value :: rest⟩

theorem setWrite_slot_iff {args : List GoString} :
    (∃ w, setWrite args = some w ∧ w.slot = .string k) ↔
      ∃ value rest, args = k :: value :: rest := by
  constructor
  · rintro ⟨w, hwrite, hslot⟩
    match args with
    | [] => exact absurd hwrite nofun
    | [_] => exact absurd hwrite nofun
    | key :: value :: rest =>
      obtain rfl := Option.some.inj hwrite
      obtain rfl := Slot.string.inj hslot
      exact ⟨value, rest, rfl⟩
  · rintro ⟨value, rest, rfl⟩
    exact ⟨_, rfl, rfl⟩

theorem slot_of_replayHset {args : List GoString} {w : Write} (hw : replayHset args = some w) :
    w.slot ≠ .string k := by
  match args with
  | [] => exact absurd hw nofun
  | [_] => exact absurd hw nofun
  | [_, _] => exact absurd hw nofun
  | hash :: key :: value :: _ =>
    obtain rfl := Option.some.inj hw
    exact nofun

theorem replayWrite_slot_iff {cmd : Command} :
    (∃ w, replayWrite cmd = some w ∧ w.slot = .string k) ↔ Sets k cmd := by
  obtain ⟨name, args⟩ := cmd
  unfold replayWrite Sets
  by_cases hset : name = text "SET"
  · rw [if_pos hset, setWrite_slot_iff]
    simp only [hset, Command.mk.injEq, true_and]
  · rw [if_neg hset]
    constructor
    · rintro ⟨w, hwrite, hslot⟩
      split at hwrite
      · exact absurd hslot (slot_of_replayHset hwrite)
      · exact absurd hwrite nofun
    · rintro ⟨value, rest, heq⟩
      exact absurd (Command.mk.inj heq).1 hset

theorem commaOk_eq_missing_iff {found : Option GoString} :
    commaOk found = ([], false) ↔ found = none := by
  cases found with
  | none => exact ⟨fun _ ↦ rfl, fun _ ↦ rfl⟩
  | some value => exact ⟨fun h ↦ absurd (Prod.mk.inj h).2 nofun, nofun⟩

end Strings

/-! ### String keys in the live store -/

section Live

variable {env : Environment} {t : TTLStore MapStore} {k : GoString}

/-- The store inside has no string under the key. -/
def NoString (t : TTLStore MapStore) (k : GoString) : Prop := t.inner.strings.lookup k = none

theorem NoString.del (ht : NoString t k) (key : GoString) : NoString (t.del key) k := by
  show (t.inner.strings.erase key).lookup k = none
  by_cases hk : k = key
  · rw [hk, Finmap.lookup_erase]
  · rw [Finmap.lookup_erase_ne hk]
    exact ht

theorem NoString.evictIfNeeded (ht : NoString t k) : NoString (t.evictIfNeeded env) k := by
  obtain ⟨requests, hevict | ⟨key, hevict⟩⟩ := t.evictIfNeeded_cases env
  · rw [hevict]
    exact ht
  · rw [hevict]
    exact NoString.del (t := { t with requests := requests }) ht key

theorem NoString.write (ht : NoString t k) {w : Write} (hw : w.slot ≠ .string k) :
    NoString (t.write env w) k :=
  NoString.evictIfNeeded ((valueAt_apply t.inner w (.string k)).trans ((if_neg hw).trans ht))

theorem NoString.read (ht : NoString t k) (r : Read) : NoString (t.read env r).2 k := by
  obtain ⟨requests, hread | ⟨policy, hread⟩⟩ := t.read_cases env r
  · rw [hread]
    exact NoString.del (t := { t with requests := requests }) ht r.key
  · rw [hread]
    exact ht

/-- `Get` does not find a key without a string. -/
theorem NoString.get (ht : NoString t k) : (t.get env k).1 = .value ([], false) := by
  obtain ⟨requests, hread | ⟨policy, hread⟩⟩ := t.read_cases env (.get k)
  · rw [TTLStore.get, hread]
    rfl
  · rw [TTLStore.get, hread]
    exact congrArg Reply.value (commaOk_eq_missing_iff.mpr ht)

theorem NoString.sweep (ht : NoString t k) : NoString (t.sweep env) k :=
  TTLStore.sweep_induction env (motive := fun t ↦ NoString t k) ht (fun _ _ h ↦ h) (fun _ _ h ↦ h)
    fun _ key h ↦ h.del key

theorem NoString.delLoop (ht : NoString t k) (args : List Value) :
    NoString (delLoop env args t).2 k := by
  induction args generalizing t with
  | nil => exact ht
  | cons arg args ih =>
    have hget : NoString (t.get env arg.bulk).2 k := ht.read (.get arg.bulk)
    unfold Server.delLoop
    split
    · rename_i hfound
      rw [hfound] at hget
      exact ih (hget.del arg.bulk)
    · rename_i hother
      exact ih (by rw [hother] at hget; exact hget)

/-- The handler of a `SET` that does not set the key. -/
theorem NoString.setHandler (ht : NoString t k) {args : List GoString}
    (hargs : ∀ value rest, args ≠ k :: value :: rest) :
    NoString (setHandler env (args.map .ofBulk) t).2 k := by
  match args with
  | [] => exact ht
  | [_] => exact ht
  | key :: value :: options =>
    have hw : (Write.set key value).slot ≠ .string k := fun heq ↦
      hargs value options (by rw [Slot.string.inj heq])
    rw [List.map_cons, List.map_cons, Server.setHandler]
    cases expireOption (options.map .ofBulk) with
    | none => exact ht.write hw
    | some sec =>
      exact NoString.write (t := t.setDeadline env key (ofSeconds sec)) ht hw

theorem NoString.hsetHandler (ht : NoString t k) (args : List Value) :
    NoString (hsetHandler env args t).2 k := by
  unfold Server.hsetHandler
  split
  · exact ht.write nofun
  · exact ht

theorem NoString.delHandler (ht : NoString t k) (args : List Value) :
    NoString (delHandler env args t).2 k := by
  unfold Server.delHandler
  split
  · exact ht
  · exact ht.delLoop args

end Live

/-! ### Deleted keys -/

section Deletion

variable {π : Type} {mapUpper : GoString → GoString} {env env' : Environment}
  {password : GoString} {maxKeys maxKeys' : ℤ} {k : GoString}

/-- `Get` does not find a key after a replay exactly if no command of the replay sets it. -/
theorem get_applyCommands_iff (cmds : List Command) :
    ((cmds.foldl (applyCommand env) (fresh maxKeys)).get env k).1 = .value ([], false) ↔
      ∀ cmd ∈ cmds, ¬ Sets k cmd := by
  obtain ⟨hpermanent, hinner⟩ :=
    @permanent_applyCommands _ _ env _ (permanent_new MapStore.new maxKeys) cmds
  have hget := hpermanent.read env (.get k)
  rw [hinner] at hget
  have hstring : (Read.get k).answer (contents cmds) = .value ([], false) ↔
      (contents cmds).valueAt (.string k) = none :=
    ⟨fun h ↦ commaOk_eq_missing_iff.mp (Reply.value.inj h),
      fun h ↦ congrArg Reply.value (commaOk_eq_missing_iff.mpr h)⟩
  refine (Eq.congr_left hget).trans (hstring.trans ?_)
  rw [contents, valueAt_writeAll_eq_none_iff]
  constructor
  · rintro ⟨-, hwrites⟩ cmd hcmd hsets
    obtain ⟨w, hwrite, hslot⟩ := replayWrite_slot_iff.mpr hsets
    exact hwrites w (List.mem_filterMap.mpr ⟨cmd, hcmd, hwrite⟩) hslot
  · intro hsets
    refine ⟨rfl, fun w hw hslot ↦ ?_⟩
    obtain ⟨cmd, hcmd, hwrite⟩ := List.mem_filterMap.mp hw
    exact hsets cmd hcmd (replayWrite_slot_iff.mp ⟨w, hwrite, hslot⟩)

/-- The server starts, and `Get` does not find the key. -/
def AbsentAfterRestart (π : Type) [PersistenceInterface GoString π]
    (mapUpper : GoString → GoString) (env : Environment) (maxKeys : ℤ) (disk k : GoString) : Prop :=
  ∃ restarted : ServerState MapStore π, boot mapUpper env (fresh maxKeys) disk = .ok restarted ∧
    (restarted.store.get env k).1 = .value ([], false)

/-- A key is absent after a restart exactly if no command of the replay sets it. -/
theorem absent_after_restart_iff [PersistenceInterface GoString π] {disk : GoString} :
    AbsentAfterRestart π mapUpper env maxKeys disk k ↔
      ∃ cmds, ∃ p : π, PersistenceInterface.replay mapUpper (PersistenceInterface.openDisk disk) =
        .ok (cmds, p) ∧ ∀ cmd ∈ cmds, ¬ Sets k cmd := by
  constructor
  · rintro ⟨restarted, hboot, hget⟩
    obtain ⟨⟨cmds, p⟩, hreplay, hstart⟩ := bind_eq_ok_iff.mp hboot
    obtain rfl := Except.ok.inj hstart
    exact ⟨cmds, p, hreplay, (get_applyCommands_iff cmds).mp hget⟩
  · rintro ⟨cmds, p, hreplay, hcmds⟩
    refine ⟨⟨cmds.foldl (applyCommand env) (fresh maxKeys), p⟩, ?_,
      (get_applyCommands_iff cmds).mpr hcmds⟩
    exact bind_eq_ok_iff.mpr ⟨_, hreplay, rfl⟩

/-- The same for a log that can be read. -/
theorem absent_of_readable_iff [LogInterface π] {p : π} {log : List Command}
    (hwritten : LogInterface.Written p log) (hreadable : LogInterface.Readable (π := π) log) :
    AbsentAfterRestart π mapUpper env maxKeys (PersistenceInterface.close p) k ↔
      ∀ cmd ∈ log, ¬ Sets k cmd := by
  obtain ⟨after, hreplay⟩ := LogInterface.exists_reopen hwritten hreadable mapUpper
  rw [absent_after_restart_iff]
  constructor
  · rintro ⟨cmds, p', hother, hcmds⟩
    obtain ⟨rfl, -⟩ := Prod.mk.inj (Except.ok.inj (hreplay.symm.trans hother))
    exact hcmds
  · exact fun hlog ↦ ⟨log, after, hreplay, hlog⟩

/-- The request sets a string key. -/
def SetsKey (mapUpper : GoString → GoString) (k : GoString) (r : Request) : Prop :=
  toUpper mapUpper r.name = text "SET" ∧ ∃ value rest, r.args = k :: value :: rest

/-- The keys that a `SET`, `HSET` or `DEL` request names. -/
def requestKeys (mapUpper : GoString → GoString) (r : Request) : List GoString :=
  if toUpper mapUpper r.name = text "DEL" then r.args else r.args.take 1

/-- The commands that change strings and hashes for good. -/
def IsChange (mapUpper : GoString → GoString) (r : Request) : Prop :=
  toUpper mapUpper r.name = text "SET" ∨ toUpper mapUpper r.name = text "HSET" ∨
    toUpper mapUpper r.name = text "DEL"

theorem noString_act [PersistenceInterface GoString π] {session : Session (ServerState MapStore π)}
    (hauth : session.authenticated = true) (ht : NoString session.world.store k)
    {activity : Activity} (hchange : ∀ r, activity = .request r → IsChange mapUpper r)
    (hsets : ∀ r, activity = .request r → ¬ SetsKey mapUpper k r) :
    NoString (act mapUpper env password session activity).world.store k := by
  cases activity with
  | tick => exact ht
  | sweep => exact ht.sweep
  | request r =>
    rcases hchange r rfl with hname | hname | hname
    · rw [act_known hauth (lookup_setHandler hname)]
      exact ht.setHandler fun value rest hargs ↦ hsets r rfl ⟨hname, value, rest, hargs⟩
    · rw [act_known hauth (lookup_hsetHandler hname)]
      exact ht.hsetHandler _
    · rw [act_known hauth (lookup_delHandler hname)]
      exact ht.delHandler _

/-- A key that no request sets has no string. -/
theorem noString_run [PersistenceInterface GoString π] {session : Session (ServerState MapStore π)}
    (hauth : session.authenticated = true) (ht : NoString session.world.store k)
    {activities : List Activity} (hchange : ∀ r, .request r ∈ activities → IsChange mapUpper r)
    (hsets : ∀ r, .request r ∈ activities → ¬ SetsKey mapUpper k r) :
    NoString (run mapUpper env password session activities).world.store k := by
  induction activities generalizing session with
  | nil => exact ht
  | cons activity activities ih =>
    refine ih (authenticated_act hauth activity) ?_ (fun r hr ↦ hchange r (.tail _ hr))
      fun r hr ↦ hsets r (.tail _ hr)
    exact noString_act hauth ht (fun r hr ↦ hchange r (hr ▸ List.mem_cons_self))
      fun r hr ↦ hsets r (hr ▸ List.mem_cons_self)

theorem SetsKey.mem_requestKeys {r : Request} (h : SetsKey mapUpper k r) :
    k ∈ requestKeys mapUpper r := by
  obtain ⟨hname, value, rest, hargs⟩ := h
  rw [requestKeys, hname, if_neg (by decide), hargs]
  exact List.mem_cons_self

/-- No logged command sets a key exactly if no request does. -/
theorem not_sets_logged_iff {activities : List Activity} :
    (∀ cmd ∈ logged mapUpper activities, ¬ Sets k cmd) ↔
      ∀ r, .request r ∈ activities → ¬ SetsKey mapUpper k r := by
  constructor
  · rintro h r hr ⟨hname, value, rest, hargs⟩
    refine h _ (mem_logged_iff.mpr ⟨Or.inl hname, r, hr, rfl⟩) ⟨value, rest, ?_⟩
    rw [hname, hargs]
  · rintro h cmd hcmd ⟨value, rest, rfl⟩
    obtain ⟨-, r, hr, heq⟩ := mem_logged_iff.mp hcmd
    obtain ⟨hname, hargs⟩ := Command.mk.inj heq
    exact h r hr ⟨hname.symm, value, rest, hargs.symm⟩

/-- The reply to a `DEL` of a single key without a string. -/
theorem reply_delHandler {t : TTLStore MapStore} (ht : NoString t k) :
    (delHandler env [.ofBulk k] t).1 = .ofInteger 0 := by
  have hget := @NoString.get env t k ht
  show Value.ofInteger ((delLoop env [.ofBulk k] t).1 : ℕ) = _
  unfold Server.delLoop
  split
  · rename_i hfound
    have hvalue := hget.symm.trans (congrArg Prod.fst hfound)
    exact absurd (Prod.mk.inj (Reply.value.inj hvalue)).2 nofun
  · rfl

variable [LogInterface π] {server : ServerState MapStore π} {before after : List Activity}
  {del : Request}

/-- A string key whose last request was a `DEL` that replied 1 is absent after a restart exactly if
no command that the replay delivers sets it. If the log can be read this means that the key was
never set before, and so it never holds for a `DEL` of a single key. Assumes: the server was started
on an empty disk, the requests are `SET`, `HSET` and `DEL`, the `DEL` replied 1, and no later
request names the key. -/
theorem deletion_survives_iff
    (hboot : boot mapUpper env (fresh maxKeys) [] = .ok server)
    (hchange : ∀ r, .request r ∈ before ++ after → IsChange mapUpper r)
    (hdel : toUpper mapUpper del.name = text "DEL") (hk : k ∈ del.args)
    (hreply : (run mapUpper env password (connected server) (before ++ [.request del])).replies =
      (run mapUpper env password (connected server) before).replies ++ [.ofInteger 1])
    (hafter : ∀ r, .request r ∈ after → k ∉ requestKeys mapUpper r) :
    let disk := PersistenceInterface.close (run mapUpper env password (connected server)
      (before ++ .request del :: after)).world.log
    (AbsentAfterRestart π mapUpper env' maxKeys' disk k ↔
      ∃ cmds, ∃ p : π, PersistenceInterface.replay mapUpper (PersistenceInterface.openDisk disk) =
        .ok (cmds, p) ∧ ∀ cmd ∈ cmds, ¬ Sets k cmd) ∧
    (LogInterface.Readable (π := π) (logged mapUpper (before ++ .request del :: after)) →
      (AbsentAfterRestart π mapUpper env' maxKeys' disk k ↔
        ∀ r, .request r ∈ before → ¬ SetsKey mapUpper k r) ∧
      (del.args = [k] → ¬ AbsentAfterRestart π mapUpper env' maxKeys' disk k)) := by
  intro disk
  refine ⟨absent_after_restart_iff, fun hreadable ↦ ?_⟩
  obtain ⟨other, hother, hstore, hnew⟩ := exists_boot_new (π := π) mapUpper env (fresh maxKeys)
  obtain rfl := Except.ok.inj (hother.symm.trans hboot)
  have hwritten := @written_run _ π _ _ mapUpper env password (connected other) [] rfl hnew
    (before ++ .request del :: after)
  have hiff : AbsentAfterRestart π mapUpper env' maxKeys' disk k ↔
      ∀ r, .request r ∈ before → ¬ SetsKey mapUpper k r := by
    rw [absent_of_readable_iff hwritten hreadable, List.nil_append, not_sets_logged_iff]
    refine ⟨fun h r hr ↦ h r (List.mem_append_left _ hr), fun h r hr ↦ ?_⟩
    rcases List.mem_append.mp hr with hr | hr
    · exact h r hr
    · rcases List.mem_cons.mp hr with hr | hr
      · obtain rfl := Activity.request.inj hr
        exact fun hsets ↦ absurd (hdel.symm.trans hsets.1) (by decide)
      · exact fun hsets ↦ hafter r hr hsets.mem_requestKeys
  refine ⟨hiff, fun hsingle habsent ↦ ?_⟩
  have hstring : NoString (run mapUpper env password (connected other) before).world.store k := by
    refine noString_run rfl ?_ (fun r hr ↦ hchange r (List.mem_append_left _ hr))
      (hiff.mp habsent)
    show NoString other.store k
    rw [hstore]
    rfl
  have hauth : (run mapUpper env password (connected other) before).authenticated = true :=
    authenticated_run rfl before
  rw [run, List.foldl_append, List.foldl_cons, List.foldl_nil] at hreply
  change (act mapUpper env password (run mapUpper env password (connected other) before)
    (.request del)).replies = _ at hreply
  rw [act_known hauth (lookup_delHandler hdel), hsingle, List.map_singleton,
    reply_delHandler hstring] at hreply
  exact absurd (congrArg Value.num (List.singleton_inj.mp (List.append_cancel_left hreply)))
    (by decide)

end Deletion

/-- A `DEL` of two keys of which only the other one was set. -/
theorem deletion_survives_never_set :
    AbsentAfterRestart WAL id stillClock 0 (PersistenceInterface.close
      (run id stillClock [] (connected (⟨fresh 0, NewWAL []⟩ : ServerState MapStore WAL))
        ([.request ⟨text "SET", [text "a", text "v"]⟩] ++
          .request ⟨text "DEL", [text "a", text "k"]⟩ :: [])).world.log) (text "k") := by
  have hset (r : Request) (hr : Activity.request r ∈
      ([.request ⟨text "SET", [text "a", text "v"]⟩] : List Activity)) :
      r = ⟨text "SET", [text "a", text "v"]⟩ := by simpa using hr
  refine ((deletion_survives_iff rfl (fun r hr ↦ ?_) rfl (by decide) rfl
    fun _ hr ↦ absurd hr List.not_mem_nil).2 ?_).1.mpr fun r hr ↦ ?_
  · rw [List.append_nil] at hr
    rw [hset r hr]
    exact Or.inl rfl
  · exact List.forall_mem_singleton.mpr (by decide)
  · rw [hset r hr]
    rintro ⟨-, value, rest, hargs⟩
    exact absurd (List.cons.inj hargs).1 (by decide)

/-- The requests `SET k v` and `DEL k`. -/
def setAndDelete : List Activity :=
  [.request ⟨text "SET", [text "k", text "v"]⟩, .request ⟨text "DEL", [text "k"]⟩]

theorem exists_restart_setAndDelete {π : Type} [LogInterface π] (mapUpper : GoString → GoString)
    {server : ServerState MapStore π} (hnew : LogInterface.Written server.log [])
    (hreadable : LogInterface.Readable (π := π) [⟨text "SET", [text "k", text "v"]⟩]) :
    ∃ restarted : ServerState MapStore π,
      boot mapUpper stillClock (fresh 0) (PersistenceInterface.close
        (run mapUpper stillClock [] (connected server) setAndDelete).world.log) = .ok restarted ∧
      (restarted.store.get stillClock (text "k")).1 = .value (text "v", true) := by
  obtain ⟨p, hboot⟩ := @exists_restart π _ mapUpper stillClock stillClock [] server [] hnew
    setAndDelete hreadable (fresh 0)
  exact ⟨_, hboot, rfl⟩

/-- A key that was set and deleted is there again after a restart. -/
theorem deletion_lost :
    (boot id stillClock (fresh 0) [] =
        .ok (⟨fresh 0, NewWAL []⟩ : ServerState MapStore WAL) ∧
      (run id stillClock [] (connected (⟨fresh 0, NewWAL []⟩ : ServerState MapStore WAL))
        setAndDelete).replies = [.ofString (text "OK"), .ofInteger 1] ∧
      ∃ restarted : ServerState MapStore WAL,
        boot id stillClock (fresh 0) (PersistenceInterface.close
          (run id stillClock [] (connected (⟨fresh 0, NewWAL []⟩ : ServerState MapStore WAL))
            setAndDelete).world.log) = .ok restarted ∧
        (restarted.store.get stillClock (text "k")).1 = .value (text "v", true)) ∧
    (boot id stillClock (fresh 0) [] =
        .ok (⟨fresh 0, NewAOF []⟩ : ServerState MapStore AOF) ∧
      (run id stillClock [] (connected (⟨fresh 0, NewAOF []⟩ : ServerState MapStore AOF))
        setAndDelete).replies = [.ofString (text "OK"), .ofInteger 1] ∧
      ∃ restarted : ServerState MapStore AOF,
        boot id stillClock (fresh 0) (PersistenceInterface.close
          (run id stillClock [] (connected (⟨fresh 0, NewAOF []⟩ : ServerState MapStore AOF))
            setAndDelete).world.log) = .ok restarted ∧
        (restarted.store.get stillClock (text "k")).1 = .value (text "v", true)) := by
  refine ⟨⟨rfl, rfl, ?_⟩, ⟨rfl, rfl, ?_⟩⟩
  · refine exists_restart_setAndDelete id ⟨rfl, rfl⟩ ?_
    exact List.forall_mem_singleton.mpr (by decide)
  · have haof : AOF.Readable [⟨text "SET", [text "k", text "v"]⟩] := by decide
    exact exists_restart_setAndDelete id ⟨rfl, rfl⟩ haof

end FluxCache.Server
