import FluxCache.Server.WriteOrder

/-!
# The steps of the handlers

The write system says of a request only which write it makes and when. Here the connections take
their steps on the server itself (`requestSystem`): a connection looks its command up, makes the
call for writes, and later calls the handler that it has found. As long as the policy evicts nothing
and the commands are `SET` and `HSET`, the write system follows step by step (`follows_run`): it has
the commands of the log and the store inside. So what holds of its schedules holds of the server. In
a schedule in order a restart finds every value that the store has once all requests have finished
(`restart_in_order`).
-/

set_option autoImplicit false
set_option relaxedAutoImplicit false

namespace FluxCache.Server

open Foundation Store Resp Network Persistence

/-! ### The connections of the server -/

/-- What a connection does next with a request: it looks the command up and makes the call for
writes, or it calls the handler. -/
inductive RequestPhase
  | idle
  | received (cmd : Command)
  | handling (handler : HandlerFunc (TTLStore MapStore)) (args : List Value)

section Definitions

variable {π : Type} [LogInterface π] (env : Environment)

/-- The next step of a connection, on the server. -/
def RequestPhase.advance (server : ServerState MapStore π) :
    RequestPhase → ServerState MapStore π × RequestPhase
  | .idle => (server, .idle)
  | .received cmd =>
    match (NewHandlers env).lookup cmd.name with
    | none => (server, .idle)
    | some handler =>
      (onWrite cmd.name (cmd.args.map .ofBulk) server, .handling handler (cmd.args.map .ofBulk))
  | .handling handler args => ((onStore handler args server).2, .idle)

/-- The connections of the server. -/
def requestSystem : ThreadSystem (ServerState MapStore π) RequestPhase Command where
  enter := .received
  idle
    | .idle => true
    | _ => false
  advance := RequestPhase.advance env

end Definitions

/-! ### The write system follows -/

section Follows

variable {π : Type} [LogInterface π] {env : Environment} {server : ServerState MapStore π}
  {s : LoggedStore}

/-- The log and the store inside are those of the write system, and nothing is evicted. -/
structure Follows (server : ServerState MapStore π) (s : LoggedStore) : Prop where
  policy : server.store.policy = .noEviction
  store : server.store.inner = s.store
  log : LogInterface.Written server.log s.log

/-- The connections work on the same request and are equally far. -/
inductive SamePhase (env : Environment) : RequestPhase → WritePhase → Prop
  | idle : SamePhase env .idle .idle
  | received {cmd : Command} (hname : cmd.name = text "SET" ∨ cmd.name = text "HSET") :
    SamePhase env (.received cmd) (.logging cmd)
  | handling {cmd : Command} {handler : HandlerFunc (TTLStore MapStore)} {position : ℕ}
      (hname : cmd.name = text "SET" ∨ cmd.name = text "HSET")
      (hhandler : (NewHandlers env).lookup cmd.name = some handler) :
    SamePhase env (.handling handler (cmd.args.map .ofBulk)) (.storing cmd position)

/-- The call for writes appends the command to the log. -/
theorem Follows.onWrite (h : Follows server s) {cmd : Command}
    (hname : cmd.name = text "SET" ∨ cmd.name = text "HSET") :
    Follows (onWrite cmd.name (cmd.args.map .ofBulk) server)
      ((WritePhase.logging cmd).advance s).1 := by
  rw [Server.onWrite, if_pos hname, WritePhase.advance, if_pos hname, map_bulk_ofBulk]
  exact ⟨h.policy, h.store, LogInterface.written_write h.log cmd⟩

/-- The handler makes its write to the store inside. -/
theorem Follows.onStore (h : Follows server s) {cmd : Command}
    (hname : cmd.name = text "SET" ∨ cmd.name = text "HSET")
    {handler : HandlerFunc (TTLStore MapStore)}
    (hhandler : (NewHandlers env).lookup cmd.name = some handler) (position : ℕ) :
    Follows (onStore handler (cmd.args.map .ofBulk) server).2
      ((WritePhase.storing cmd position).advance s).1 := by
  obtain ⟨hpolicy, hinner⟩ := inner_handler h.policy hname cmd.args hhandler
  refine ⟨hpolicy, hinner.trans ?_, h.log⟩
  rw [WritePhase.advance, h.store]

/-- One step of a connection. -/
theorem Follows.advance (h : Follows server s) {phase : RequestPhase} {phase' : WritePhase}
    (hphase : SamePhase env phase phase') :
    Follows (phase.advance env server).1 (phase'.advance s).1 ∧
      SamePhase env (phase.advance env server).2 (phase'.advance s).2 := by
  cases hphase with
  | idle => exact ⟨h, .idle⟩
  | @received cmd hname =>
    obtain ⟨handler, hhandler⟩ :
        ∃ handler, (NewHandlers (σ := MapStore) env).lookup cmd.name = some handler := by
      rcases hname with hset | hhset
      · exact ⟨_, lookup_setHandler hset⟩
      · exact ⟨_, lookup_hsetHandler hhset⟩
    rw [RequestPhase.advance, hhandler]
    exact ⟨h.onWrite hname, .handling hname hhandler⟩
  | handling hname hhandler => exact ⟨h.onStore hname hhandler _, .idle⟩

theorem idle_of_samePhase {phase : RequestPhase} {phase' : WritePhase}
    (hphase : SamePhase env phase phase') :
    (requestSystem env : ThreadSystem (ServerState MapStore π) _ _).idle phase =
      writeSystem.idle phase' := by
  cases hphase <;> rfl

end Follows

/-! ### Schedules -/

section Schedules

variable {ι : Type} [DecidableEq ι] {π : Type} [LogInterface π] {env : Environment}
  {server : ServerState MapStore π} {events : List (Event ι Command)}

/-- The write system follows the server through every schedule of `SET` and `HSET` requests. -/
theorem follows_run (hserver : Follows server ⟨[], MapStore.new⟩)
    (hevents : ∀ i cmd, .enter i cmd ∈ events →
      cmd.name = text "SET" ∨ cmd.name = text "HSET") :
    Follows ((requestSystem env).run ⟨server, fun _ : ι ↦ .idle⟩ events).shared
        (writeSystem.run idleConnections events).shared ∧
      ∀ i, SamePhase env
        (((requestSystem env).run ⟨server, fun _ : ι ↦ .idle⟩ events).threads i)
        ((writeSystem.run idleConnections events).threads i) := by
  refine ThreadSystem.run_related (fun _ _ ↦ idle_of_samePhase) (fun _ ↦ .received) ?_ hevents
    hserver fun _ ↦ .idle
  intro server s phase phase' h hphase _
  exact h.advance hphase

/-- Once all requests have finished, the server that is started again on the log has every value
that the store has. Assumes: a schedule of `SET` and `HSET` requests in order on an empty server
that evicts nothing, and a log that can be read. -/
theorem restart_in_order (hserver : Follows server ⟨[], MapStore.new⟩)
    (hevents : ∀ i cmd, .enter i cmd ∈ events →
      cmd.name = text "SET" ∨ cmd.name = text "HSET")
    (hguarded : writeSystem.Guarded InOrder idleConnections events)
    (hquiet : (requestSystem env).Quiet
      ((requestSystem env).run ⟨server, fun _ : ι ↦ .idle⟩ events))
    (hreadable : LogInterface.Readable (π := π)
      (writeSystem.run (idleConnections : Config ι _ _) events).shared.log)
    (mapUpper : GoString → GoString) (env' : Environment) (maxKeys : ℤ) :
    let live := ((requestSystem env).run ⟨server, fun _ : ι ↦ .idle⟩ events).shared
    ∃ restarted : ServerState MapStore π,
      boot mapUpper env' (fresh maxKeys) (PersistenceInterface.close live.log) = .ok restarted ∧
      ∀ slot, restarted.store.inner.valueAt slot = live.store.inner.valueAt slot := by
  intro live
  obtain ⟨hfollows, hphases⟩ := @follows_run ι _ π _ env server events hserver hevents
  have hidle : writeSystem.Quiet (writeSystem.run (idleConnections : Config ι _ _) events) :=
    fun i ↦ (idle_of_samePhase (π := π) (hphases i)).symm.trans (hquiet i)
  obtain ⟨p, hreplay⟩ := LogInterface.exists_reopen hfollows.log hreadable mapUpper
  obtain ⟨-, hinner⟩ := @permanent_applyCommands _ _ env' _ (permanent_new MapStore.new maxKeys)
    (writeSystem.run (idleConnections : Config ι _ _) events).shared.log
  refine ⟨_, boot_of_replay hreplay, fun slot ↦ ?_⟩
  calc
    _ = (contents (writeSystem.run (idleConnections : Config ι _ _) events).shared.log).valueAt
        slot := congrArg (fun maps ↦ MapStore.valueAt maps slot) hinner
    _ = (writeSystem.run (idleConnections : Config ι _ _) events).shared.store.valueAt slot :=
      (valueAt_store_of_quiet hguarded hidle slot).symm
    _ = live.store.inner.valueAt slot := by rw [hfollows.store]

end Schedules

end FluxCache.Server
