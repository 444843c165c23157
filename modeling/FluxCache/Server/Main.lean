import FluxCache.Persistence.AOF
import FluxCache.Persistence.WAL
import FluxCache.Server.Handler

/-!
# The server

`main` builds a store and a persistence, replays the persistence into the store (`boot`), and serves
requests: of every command the persistence is told first (`onWrite`), then its handler is called.
Only `SET` and `HSET` are written, and the callback of the replay knows only these two
(`applyCommand`).

A run of the server is a list of activities: the requests of one client, and the ticks of the two
background loops at any points between them. What is logged is the list of `SET` and `HSET` requests
(`logged`, `written_run`), and what is replayed are their writes (`permanent_applyCommands`).
-/

set_option autoImplicit false
set_option relaxedAutoImplicit false

namespace FluxCache.Server

open Foundation Store Resp Network Persistence

/-! ### The server and its runs -/

/-- The state of the server: the store and the persistence. -/
structure ServerState (σ π : Type) where
  store : TTLStore σ
  log : π

section Definitions

variable {σ δ π : Type} [StoreInterface σ] [PersistenceInterface δ π]

/-- The callback that `main` gives to `Replay`. -/
def applyCommand (env : Environment) (t : TTLStore σ) (cmd : Command) : TTLStore σ :=
  if cmd.name = text "SET" then
    match cmd.args with
    | key :: value :: _ => t.set env key value
    | _ => t
  else if cmd.name = text "HSET" then
    match cmd.args with
    | hash :: key :: value :: _ => t.hset env hash key value
    | _ => t
  else t

/-- The function that `main` gives to `Listen` for writes. -/
def onWrite : WriteFunc (ServerState σ π) := fun command args server ↦
  if command = text "SET" ∨ command = text "HSET" then
    { server with
      log := PersistenceInterface.write server.log ⟨command, args.map Value.bulk⟩ }
  else server

/-- A handler of the store, on the state of the server. -/
def onStore (handler : HandlerFunc (TTLStore σ)) : HandlerFunc (ServerState σ π) :=
  fun args server ↦ (handler args server.store).map id fun t ↦ { server with store := t }

/-- What `main` gives to the transport. -/
def mainTransport (env : Environment) (password : GoString) : Transport (ServerState σ π) where
  password := password
  handlers := mapValues onStore (NewHandlers env)
  onWrite := some onWrite

/-- The start of `main` on what is on the disk. -/
def boot (mapUpper : GoString → GoString) (env : Environment) (fresh : TTLStore σ) (disk : δ) :
    Outcome (ServerState σ π) := do
  let (cmds, log) ← PersistenceInterface.replay mapUpper (PersistenceInterface.openDisk disk)
  return ⟨cmds.foldl (applyCommand env) fresh, log⟩

/-- What happens at a server with one client. -/
inductive Activity
  | request (r : Request)
  | tick
  | sweep

/-- The effect of an activity. -/
def act (mapUpper : GoString → GoString) (env : Environment) (password : GoString)
    (session : Session (ServerState σ π)) : Activity → Session (ServerState σ π)
  | .request r => serve mapUpper (mainTransport env password) (command r.bulks) session
  | .tick =>
    { session with
      world := { session.world with log := PersistenceInterface.tick session.world.log } }
  | .sweep =>
    { session with world := { session.world with store := session.world.store.sweep env } }

/-- The effect of a run of activities. -/
def run (mapUpper : GoString → GoString) (env : Environment) (password : GoString)
    (session : Session (ServerState σ π)) (activities : List Activity) :
    Session (ServerState σ π) :=
  activities.foldl (act mapUpper env password) session

end Definitions

/-- The command that `onWrite` logs of a request, if any. -/
def Activity.logged (mapUpper : GoString → GoString) : Activity → Option Command
  | .request r =>
    if toUpper mapUpper r.name = text "SET" ∨ toUpper mapUpper r.name = text "HSET" then
      some ⟨toUpper mapUpper r.name, r.args⟩
    else none
  | .tick => none
  | .sweep => none

/-- The commands that are logged in a run. -/
def logged (mapUpper : GoString → GoString) (activities : List Activity) : List Command :=
  activities.filterMap (Activity.logged mapUpper)

theorem logged_cons (mapUpper : GoString → GoString) (activity : Activity)
    (activities : List Activity) :
    logged mapUpper (activity :: activities) =
      (activity.logged mapUpper).toList ++ logged mapUpper activities := by
  rw [logged, List.filterMap_cons]
  cases activity.logged mapUpper <;> rfl

theorem logged_request {mapUpper : GoString → GoString} {r : Request}
    (hname : toUpper mapUpper r.name = text "SET" ∨ toUpper mapUpper r.name = text "HSET")
    (activities : List Activity) :
    logged mapUpper (.request r :: activities) =
      ⟨toUpper mapUpper r.name, r.args⟩ :: logged mapUpper activities := by
  rw [logged_cons, Activity.logged, if_pos hname]
  rfl

theorem logged_append (mapUpper : GoString → GoString) (first second : List Activity) :
    logged mapUpper (first ++ second) = logged mapUpper first ++ logged mapUpper second :=
  List.filterMap_append

theorem mem_logged_iff {mapUpper : GoString → GoString} {activities : List Activity}
    {cmd : Command} :
    cmd ∈ logged mapUpper activities ↔
      (cmd.name = text "SET" ∨ cmd.name = text "HSET") ∧
        ∃ r, .request r ∈ activities ∧ cmd = ⟨toUpper mapUpper r.name, r.args⟩ := by
  rw [logged, List.mem_filterMap]
  constructor
  · rintro ⟨activity, hactivity, hlogged⟩
    cases activity with
    | tick => exact absurd hlogged nofun
    | sweep => exact absurd hlogged nofun
    | request r =>
      rw [Activity.logged, Option.ite_none_right_eq_some] at hlogged
      obtain ⟨hname, hcmd⟩ := hlogged
      obtain rfl := Option.some.inj hcmd
      exact ⟨hname, r, hactivity, rfl⟩
  · rintro ⟨hname, r, hr, rfl⟩
    exact ⟨.request r, hr, if_pos hname⟩

/-- The names that are logged fit the field for names and are in upper case. -/
theorem name_of_written {name : GoString} (hname : name = text "SET" ∨ name = text "HSET") :
    name.length < 2 ^ 16 ∧ name ≠ [] ∧ IsUpper name := by
  rcases hname with rfl | rfl <;> decide

/-! ### What a request does -/

section Request

variable {σ δ π : Type} [StoreInterface σ] [PersistenceInterface δ π]
  {mapUpper : GoString → GoString} {env : Environment} {password : GoString}
  {session : Session (ServerState σ π)}

theorem map_bulk_ofBulk (args : List GoString) : (args.map Value.ofBulk).map Value.bulk = args := by
  rw [List.map_map]
  exact List.map_id args

omit [StoreInterface σ] in
theorem store_onWrite (command : GoString) (args : List Value) (server : ServerState σ π) :
    (onWrite command args server).store = server.store := by
  unfold onWrite
  split <;> rfl

/-- A request of an authenticated client whose command has a handler. -/
theorem act_known (hauth : session.authenticated = true) {r : Request}
    {handler : HandlerFunc (TTLStore σ)}
    (hhandler : (NewHandlers env).lookup (toUpper mapUpper r.name) = some handler) :
    act mapUpper env password session (.request r) =
      ⟨true, session.replies ++ [(handler (r.args.map .ofBulk) session.world.store).1],
        session.calls ++ [r.call mapUpper],
        ⟨(handler (r.args.map .ofBulk) session.world.store).2,
          (onWrite (toUpper mapUpper r.name) (r.args.map .ofBulk) session.world).log⟩⟩ := by
  have hlookup : (mainTransport env password : Transport (ServerState σ π)).handlers.lookup
      (toUpper mapUpper r.name) = some (onStore handler) := by
    rw [mainTransport, lookup_mapValues, hhandler, Option.map_some]
  have hstore := store_onWrite (toUpper mapUpper r.name) (r.args.map .ofBulk) session.world
  rw [act, serve_command hauth, execute, hlookup, ← hstore, ← hauth]
  rfl

/-- A request of an authenticated client whose command has no handler. -/
theorem act_unknown (hauth : session.authenticated = true) {r : Request}
    (hhandler : (NewHandlers (σ := σ) env).lookup (toUpper mapUpper r.name) = none) :
    act mapUpper env password session (.request r) = session := by
  have hlookup : (mainTransport env password : Transport (ServerState σ π)).handlers.lookup
      (toUpper mapUpper r.name) = none := by
    rw [mainTransport, lookup_mapValues, hhandler, Option.map_none]
  rw [act, serve_command hauth, execute, hlookup]

theorem authenticated_act (hauth : session.authenticated = true) (activity : Activity) :
    (act mapUpper env password session activity).authenticated = true := by
  cases activity with
  | tick => exact hauth
  | sweep => exact hauth
  | request r =>
    cases hhandler : (NewHandlers (σ := σ) env).lookup (toUpper mapUpper r.name) with
    | none => rwa [act_unknown hauth hhandler]
    | some handler => rw [act_known hauth hhandler]

theorem authenticated_run (hauth : session.authenticated = true) (activities : List Activity) :
    (run mapUpper env password session activities).authenticated = true := by
  induction activities generalizing session with
  | nil => exact hauth
  | cons activity activities ih => exact ih (authenticated_act hauth activity)

end Request

/-! ### The log of a run -/

section Log

variable {σ π : Type} [StoreInterface σ] [LogInterface π]
  {mapUpper : GoString → GoString} {env : Environment} {password : GoString}
  {session : Session (ServerState σ π)} {log : List Command}

/-- `SET` and `HSET` have handlers. -/
theorem lookup_of_written {command : GoString}
    (hcommand : command = text "SET" ∨ command = text "HSET") :
    (NewHandlers (σ := σ) env).lookup command ≠ none := by
  rcases hcommand with hset | hhset
  · rw [lookup_setHandler hset]
    exact Option.some_ne_none _
  · rw [lookup_hsetHandler hhset]
    exact Option.some_ne_none _

theorem written_act (hauth : session.authenticated = true)
    (hlog : LogInterface.Written session.world.log log) (activity : Activity) :
    LogInterface.Written (act mapUpper env password session activity).world.log
      (log ++ (activity.logged mapUpper).toList) := by
  cases activity with
  | tick =>
    rw [Activity.logged, Option.toList_none, List.append_nil]
    exact LogInterface.written_tick hlog
  | sweep =>
    rw [Activity.logged, Option.toList_none, List.append_nil]
    exact hlog
  | request r =>
    rw [Activity.logged]
    by_cases hname : toUpper mapUpper r.name = text "SET" ∨ toUpper mapUpper r.name = text "HSET"
    · obtain ⟨handler, hhandler⟩ :=
        Option.ne_none_iff_exists'.mp (@lookup_of_written σ _ env _ hname)
      rw [act_known hauth hhandler, if_pos hname, onWrite, if_pos hname, map_bulk_ofBulk]
      exact LogInterface.written_write hlog _
    · rw [if_neg hname, Option.toList_none, List.append_nil]
      cases hhandler : (NewHandlers (σ := σ) env).lookup (toUpper mapUpper r.name) with
      | none =>
        rw [act_unknown hauth hhandler]
        exact hlog
      | some handler =>
        rw [act_known hauth hhandler, onWrite, if_neg hname]
        exact hlog

/-- The log of a run is what was logged before, and then the `SET` and `HSET` requests. -/
theorem written_run (hauth : session.authenticated = true)
    (hlog : LogInterface.Written session.world.log log) (activities : List Activity) :
    LogInterface.Written (run mapUpper env password session activities).world.log
      (log ++ logged mapUpper activities) := by
  induction activities generalizing session log with
  | nil => rwa [logged, List.filterMap_nil, List.append_nil]
  | cons activity activities ih =>
    rw [logged_cons, ← List.append_assoc]
    exact ih (authenticated_act hauth activity) (written_act hauth hlog activity)

end Log

/-! ### The replay -/

section Replay

variable {σ : Type} [StoreInterface σ] {env : Environment} {t : TTLStore σ}

theorem applyCommand_eq (cmd : Command) :
    applyCommand env t cmd = (replayWrite cmd).elim t (t.write env) :=
  switch_eq cmd (t.write env) t

/-- A replay makes the writes of the commands. -/
theorem applyCommands_eq (cmds : List Command) :
    cmds.foldl (applyCommand env) t =
      (cmds.filterMap replayWrite).foldl (TTLStore.write env) t := by
  induction cmds generalizing t with
  | nil => rfl
  | cons cmd cmds ih =>
    rw [List.foldl_cons, applyCommand_eq, List.filterMap_cons, ih]
    cases replayWrite cmd <;> rfl

/-- Without eviction the writes of a replay are all there. -/
theorem permanent_applyCommands (ht : Permanent t) (cmds : List Command) :
    Permanent (cmds.foldl (applyCommand env) t) ∧
      (cmds.foldl (applyCommand env) t).inner = writeAll t.inner (cmds.filterMap replayWrite) := by
  rw [applyCommands_eq]
  exact ht.writes env (cmds.filterMap replayWrite)

end Replay

end FluxCache.Server
