import FluxCache.Server.Restart

/-!
# Rejected requests and the replay

A `SET` or `HSET` request is logged before its handler looks at the arguments, and the replay checks
their number again with rules of its own. The two disagree in one place: the handler of `HSET` wants
three arguments and answers more of them with an error, the replay ignores those after the third. So
a rejected request makes a difference to a restart exactly if it is an `HSET` with more than three
arguments, unless the field had the value already or is written again later
(`rejected_request_iff`).
-/

set_option autoImplicit false
set_option relaxedAutoImplicit false

namespace FluxCache.Server

open Foundation Store Resp Network Persistence

/-! ### Replies -/

section Replies

variable {σ δ π : Type} [StoreInterface σ] [PersistenceInterface δ π]

/-- The request is answered with an error. -/
def Rejected (mapUpper : GoString → GoString) (env : Environment) (password : GoString)
    (session : Session (ServerState σ π)) (r : Request) : Prop :=
  ∃ reply, (act mapUpper env password session (.request r)).replies = session.replies ++ [reply] ∧
    reply.type = .error

variable {mapUpper : GoString → GoString} {env : Environment} {password : GoString}
  {session : Session (ServerState σ π)} {r : Request}

/-- The error is the reply of the handler. -/
theorem Rejected.type_reply (hrejected : Rejected mapUpper env password session r)
    (hauth : session.authenticated = true) {handler : HandlerFunc (TTLStore σ)}
    (hhandler : (NewHandlers env).lookup (toUpper mapUpper r.name) = some handler) :
    (handler (r.args.map .ofBulk) session.world.store).1.type = .error := by
  obtain ⟨reply, hreply, htype⟩ := hrejected
  rw [act_known hauth hhandler] at hreply
  rwa [List.singleton_inj.mp (List.append_cancel_left hreply)]

/-- A rejected `SET` has less than two arguments. -/
theorem length_of_set_error {args : List GoString} {t : TTLStore σ}
    (herror : (setHandler env (args.map .ofBulk) t).1.type = .error) : args.length ≤ 1 := by
  match args with
  | [] => exact Nat.zero_le 1
  | [_] => exact le_rfl
  | key :: value :: options =>
    rw [List.map_cons, List.map_cons, setHandler] at herror
    cases hoption : expireOption (options.map .ofBulk) with
    | none => exact absurd (hoption ▸ herror) (by simp [Value.ofString])
    | some sec => exact absurd (hoption ▸ herror) (by simp [Value.ofString])

/-- A rejected `HSET` does not have three arguments. -/
theorem length_of_hset_error {args : List GoString} {t : TTLStore σ}
    (herror : (hsetHandler env (args.map .ofBulk) t).1.type = .error) : args.length ≠ 3 := by
  intro hlength
  obtain ⟨hash, key, value, rfl⟩ := List.length_eq_three.mp hlength
  exact absurd herror (by simp [hsetHandler, Value.ofString])

/-- What the replay makes of a rejected request: nothing, or an `HSET` of its first three
arguments. -/
theorem Rejected.replayWrite_eq (hrejected : Rejected mapUpper env password session r)
    (hauth : session.authenticated = true)
    (hname : toUpper mapUpper r.name = text "SET" ∨ toUpper mapUpper r.name = text "HSET") :
    r.args.length ≤ 3 ∧ replayWrite ⟨toUpper mapUpper r.name, r.args⟩ = none ∨
      ∃ hash key value extra rest, r.args = hash :: key :: value :: extra :: rest ∧
        replayWrite ⟨toUpper mapUpper r.name, r.args⟩ = some (.hset hash key value) := by
  rcases hname with hname | hname
  · have hlength := length_of_set_error (hrejected.type_reply hauth (lookup_setHandler hname))
    rw [hname]
    match r.args, hlength with
    | [], _ => exact Or.inl ⟨by decide, rfl⟩
    | [_], _ => exact Or.inl ⟨by simp, rfl⟩
  · have hlength := length_of_hset_error (hrejected.type_reply hauth (lookup_hsetHandler hname))
    rw [hname]
    match r.args, hlength with
    | [], _ => exact Or.inl ⟨by decide, rfl⟩
    | [_], _ => exact Or.inl ⟨by simp, rfl⟩
    | [_, _], _ => exact Or.inl ⟨by simp, rfl⟩
    | hash :: key :: value :: extra :: rest, _ =>
      exact Or.inr ⟨hash, key, value, extra, rest, rfl, rfl⟩

end Replies

/-! ### The restart -/

section Restart

variable {π : Type} [LogInterface π] {mapUpper : GoString → GoString} {env env' : Environment}
  {password : GoString} {server : ServerState MapStore π} {log : List Command}

/-- A write between two replays makes no difference exactly if the first one leaves its value or the
second one writes to its place. -/
theorem contents_insert_iff (before after : List Command) (w : Write) :
    writeAll MapStore.new (before.filterMap replayWrite ++ w :: after.filterMap replayWrite) =
        writeAll MapStore.new (before.filterMap replayWrite ++ after.filterMap replayWrite) ↔
      (contents before).valueAt w.slot = some w.value ∨
        ∃ cmd ∈ after, ∃ other, replayWrite cmd = some other ∧ other.slot = w.slot := by
  rw [writeAll_append, writeAll_append]
  refine (writeAll_cons_eq_iff (noEmptyHash_contents before)).trans (or_congr Iff.rfl ?_)
  simp only [List.mem_filterMap]
  constructor
  · rintro ⟨other, ⟨cmd, hcmd, hwrite⟩, hslot⟩
    exact ⟨cmd, hcmd, other, hwrite, hslot⟩
  · rintro ⟨cmd, hcmd, other, hwrite, hslot⟩
    exact ⟨other, ⟨cmd, hcmd, hwrite⟩, hslot⟩

/-- A rejected request makes no difference to the store after a restart, whatever it evicts, if it
has at most three arguments. With more it is an `HSET` that is replayed, and without eviction it
makes no difference exactly if the field has the value already or is written again later. Assumes:
the log can be read with the request and without it. -/
theorem rejected_request_iff (policy : Policy) (maxKeys : ℤ) {before after : List Activity}
    {r : Request} (hlog : LogInterface.Written server.log log)
    (hname : toUpper mapUpper r.name = text "SET" ∨ toUpper mapUpper r.name = text "HSET")
    (hrejected : Rejected mapUpper env password
      (run mapUpper env password (connected server) before) r)
    (hreadable : LogInterface.Readable (π := π)
      (log ++ logged mapUpper (before ++ .request r :: after)))
    (hwithout : LogInterface.Readable (π := π) (log ++ logged mapUpper (before ++ after))) :
    let restart (activities : List Activity) : Outcome (ServerState MapStore π) :=
      boot mapUpper env' ((TTLStore.new MapStore.new).setEvictionPolicy policy maxKeys)
        (PersistenceInterface.close
          (run mapUpper env password (connected server) activities).world.log)
    ∃ rebuilt without, restart (before ++ .request r :: after) = .ok rebuilt ∧
      restart (before ++ after) = .ok without ∧
      (r.args.length ≤ 3 → rebuilt.store = without.store) ∧
      (policy = .noEviction →
        (rebuilt.store.inner = without.store.inner ↔
          ∀ hash key value extra rest, r.args = hash :: key :: value :: extra :: rest →
            (contents (log ++ logged mapUpper before)).valueAt (.field hash key) = some value ∨
              ∃ cmd ∈ logged mapUpper after, ∃ w, replayWrite cmd = some w ∧
                w.slot = .field hash key)) := by
  intro restart
  obtain ⟨p, hrebuilt⟩ := @exists_restart π _ mapUpper env env' password server log hlog _ hreadable
    ((TTLStore.new MapStore.new).setEvictionPolicy policy maxKeys)
  obtain ⟨q, hother⟩ := @exists_restart π _ mapUpper env env' password server log hlog _ hwithout
    ((TTLStore.new MapStore.new).setEvictionPolicy policy maxKeys)
  rw [logged_append, logged_request hname, ← List.append_assoc, List.filterMap_append,
    List.filterMap_cons] at hrebuilt
  rw [logged_append, ← List.append_assoc, List.filterMap_append] at hother
  refine ⟨_, _, hrebuilt, hother, ?_⟩
  rcases hrejected.replayWrite_eq (authenticated_run rfl before) hname with
    ⟨hlength, hnone⟩ | ⟨hash, key, value, extra, rest, hargs, hsome⟩
  · rw [hnone]
    refine ⟨fun _ ↦ rfl, fun _ ↦ ⟨fun _ ↦ ?_, fun _ ↦ rfl⟩⟩
    intro hash key value extra rest hargs
    rw [hargs] at hlength
    exact absurd hlength (by simp)
  · rw [hsome]
    refine ⟨fun hlength ↦ ?_, ?_⟩
    · rw [hargs] at hlength
      exact absurd hlength (by simp)
    · rintro rfl
      have hinner (writes : List Write) :=
        ((permanent_new MapStore.new maxKeys).writes env' writes).2
      rw [hinner, hinner]
      refine (contents_insert_iff (log ++ logged mapUpper before) (logged mapUpper after)
        (.hset hash key value)).trans ⟨fun h ↦ ?_, fun h ↦ h _ _ _ _ _ hargs⟩
      intro hash' key' value' extra' rest' hargs'
      simp only [hargs, List.cons.injEq] at hargs'
      obtain ⟨rfl, rfl, rfl, -, -⟩ := hargs'
      exact h

end Restart

/-- The request `HSET h f v x`. -/
def fourArguments : Request := ⟨text "HSET", [text "h", text "f", text "v", text "x"]⟩

/-- A rejected `HSET` that a later one makes good. -/
theorem rejected_request_corrected :
    let restart (activities : List Activity) : Outcome (ServerState MapStore WAL) :=
      boot id stillClock ((TTLStore.new MapStore.new).setEvictionPolicy .noEviction 0)
        (PersistenceInterface.close (run id stillClock []
          (connected (⟨fresh 0, NewWAL []⟩ : ServerState MapStore WAL)) activities).world.log)
    let correct : Activity := .request ⟨text "HSET", [text "h", text "f", text "v"]⟩
    ∃ rebuilt without, restart [.request fourArguments, correct] = .ok rebuilt ∧
      restart [correct] = .ok without ∧ rebuilt.store.inner = without.store.inner := by
  intro restart correct
  have hfirst : (⟨text "HSET", fourArguments.args⟩ : Command).Encodable := by decide
  have hsecond : (⟨text "HSET", [text "h", text "f", text "v"]⟩ : Command).Encodable := by decide
  have hnew : LogInterface.Written (NewWAL []) [] := ⟨rfl, rfl⟩
  obtain ⟨rebuilt, without, hrebuilt, hwithout, -, hiff⟩ :=
    @rejected_request_iff WAL _ id stillClock stillClock [] ⟨fresh 0, NewWAL []⟩ [] .noEviction 0 []
      [correct] fourArguments hnew (Or.inr rfl) ⟨_, rfl, rfl⟩
      (List.forall_mem_cons.mpr ⟨hfirst, List.forall_mem_singleton.mpr hsecond⟩)
      (List.forall_mem_singleton.mpr hsecond)
  refine ⟨rebuilt, without, hrebuilt, hwithout, (hiff rfl).mpr ?_⟩
  intro hash key value extra rest hargs
  simp only [fourArguments, List.cons.injEq] at hargs
  obtain ⟨rfl, rfl, rfl, -, -⟩ := hargs
  exact Or.inr ⟨_, List.mem_singleton_self _, _, rfl, rfl⟩

/-- What a rejected `HSET` with four arguments does to the next session of a log. -/
def HsetReturns (π : Type) [PersistenceInterface GoString π] : Prop :=
  ∃ server : ServerState MapStore π, boot id stillClock (fresh 0) [] = .ok server ∧
    (run id stillClock [] (connected server) [.request fourArguments]).replies =
      [wrongArguments "hset"] ∧
    ∃ rebuilt without : ServerState MapStore π,
      boot id stillClock (fresh 0) (PersistenceInterface.close
        (run id stillClock [] (connected server) [.request fourArguments]).world.log) =
          .ok rebuilt ∧
      boot id stillClock (fresh 0) (PersistenceInterface.close
        (run id stillClock [] (connected server) []).world.log) = .ok without ∧
      (rebuilt.store.hget stillClock (text "h") (text "f")).1 = .value (text "v", true) ∧
      (without.store.hget stillClock (text "h") (text "f")).1 = .value ([], false)

theorem hsetReturns_of_readable {π : Type} [LogInterface π]
    (hreadable : LogInterface.Readable (π := π) [⟨text "HSET", fourArguments.args⟩])
    (hempty : LogInterface.Readable (π := π) []) : HsetReturns π := by
  obtain ⟨server, hboot, hstore, hnew⟩ := exists_boot_new (π := π) id stillClock (fresh 0)
  obtain ⟨p, hrebuilt⟩ := @exists_restart π _ id stillClock stillClock [] server [] hnew
    [.request fourArguments] hreadable (fresh 0)
  obtain ⟨q, hwithout⟩ := @exists_restart π _ id stillClock stillClock [] server [] hnew [] hempty
    (fresh 0)
  refine ⟨server, hboot, ?_, _, _, hrebuilt, hwithout, rfl, rfl⟩
  show (act id stillClock [] (connected server) (.request fourArguments)).replies = _
  rw [act_known rfl (lookup_hsetHandler rfl)]
  rfl

/-- A rejected `HSET` is there after a restart, with either log. -/
theorem rejected_hset_returns : HsetReturns WAL ∧ HsetReturns AOF := by
  have haof : AOF.Readable [⟨text "HSET", fourArguments.args⟩] := by decide
  have hempty : AOF.Readable [] := by decide
  refine ⟨hsetReturns_of_readable ?_ (List.forall_mem_nil _), hsetReturns_of_readable haof hempty⟩
  exact List.forall_mem_singleton.mpr (by decide)

end FluxCache.Server
