import FluxCache.Network.Backends

/-!
# Who may call a handler

A `Service` is what a transport does with the requests on one connection, one after another. The
five transports are services: the loop of a stream over the values that it reads (`streamService`,
`handleConn_eq`), and the handlers of the requests of `HTTP` and `GRPC` (`httpService`,
`grpcService`).

A connection is `Guarded` by a password if a request calls a handler only behind an `AUTH` request
with that password. A stream with a password is always guarded (`guarded_stream`). The other two
call the handler of every command that they know (`guarded_http_iff`, `guarded_grpc_iff`), so there
it is up to the client to send the password first.
-/

set_option autoImplicit false
set_option relaxedAutoImplicit false

namespace FluxCache.Network

open Foundation Resp

/-! ### Services -/

/-- What a transport does on one connection: its state, the effect of a request, and the command
with its arguments that a request stands for. -/
structure Service (ω : Type) where
  Request : Type
  State : Type
  start : ω → State
  serve : State → Request → State
  calls : State → List (GoString × List Value)
  world : State → ω
  parse : Request → Option (GoString × List Value)

namespace Service

variable {ω : Type} (service : Service ω)

/-- The state after some requests. -/
def after (world : ω) (requests : List service.Request) : service.State :=
  requests.foldl service.serve (service.start world)

/-- A request calls a handler or the call for writes: there is a new call, or the state that they
act on has changed. -/
def Runs (state : service.State) (request : service.Request) : Prop :=
  service.calls (service.serve state request) ≠ service.calls state ∨
    service.world (service.serve state request) ≠ service.world state

/-- An `AUTH` request with a password. -/
def IsAuth (password : GoString) (request : service.Request) : Prop :=
  ∃ first more, service.parse request = some (text "AUTH", first :: more) ∧ first.bulk = password

/-- A request stands for a command of the table. -/
def Known (handlers : GoMap (HandlerFunc ω)) (request : service.Request) : Prop :=
  ∃ command args, service.parse request = some (command, args) ∧
    (handlers.lookup command).isSome = true

/-- On a connection with these requests, a request calls a handler only behind an `AUTH` request
with the password. -/
def Guarded (password : GoString) (world : ω) (requests : List service.Request) : Prop :=
  ∀ before request later, requests = before ++ request :: later →
    service.Runs (service.after world before) request →
      ∃ earlier ∈ before, service.IsAuth password earlier

/-- The requests with commands of the table come behind an `AUTH` request with the password. -/
def KnownAfterAuth (handlers : GoMap (HandlerFunc ω)) (password : GoString)
    (requests : List service.Request) : Prop :=
  ∀ before request later, requests = before ++ request :: later →
    service.Known handlers request → ∃ earlier ∈ before, service.IsAuth password earlier

variable {service}

/-- Where the known requests are those that call a handler, it is up to them. -/
theorem guarded_iff {handlers : GoMap (HandlerFunc ω)} {password : GoString} {world : ω}
    {requests : List service.Request}
    (hruns : ∀ state request, service.Runs state request ↔ service.Known handlers request) :
    service.Guarded password world requests ↔
      service.KnownAfterAuth handlers password requests := by
  refine forall_congr' fun before ↦ forall_congr' fun request ↦ forall_congr' fun later ↦ ?_
  rw [hruns]

end Service

/-! ### Streams -/

section Stream

variable {ω : Type} (mapUpper : GoString → GoString) (transport : Transport ω)

/-- The command and the arguments of a value, if it is an array that is not empty. -/
def parseValue (value : Value) : Option (GoString × List Value) :=
  match value.type, value.array with
  | .array, first :: args => some (toUpper mapUpper first.bulk, args)
  | _, _ => none

/-- The loop of a stream, over the values that it reads. -/
def streamService : Service ω where
  Request := Value
  State := Session ω
  start world := ⟨transport.password = [], [], [], world⟩
  serve session value := serve mapUpper transport value session
  calls := Session.calls
  world := Session.world
  parse := parseValue mapUpper

/-- `handleConn` is the service on the values that are read from the connection, up to the end of
the loop or the fault that stops it. -/
theorem handleConn_eq (conn : Source UInt8) (world : ω) :
    handleConn mapUpper transport conn world =
      (received (conn.content.length + 1) conn).2.map fun _ ↦
        (streamService mapUpper transport).after world
          (received (conn.content.length + 1) conn).1 :=
  handleLoop_eq mapUpper transport _ conn _

/-- A turn of the loop acts on the command and the arguments of the value. -/
theorem serve_eq (value : Value) (session : Session ω) :
    serve mapUpper transport value session =
      match parseValue mapUpper value with
      | some (command, args) =>
        if session.authenticated then execute transport command args session
        else authenticate transport command args session
      | none => session := by
  obtain ⟨type, str, num, bulk, array⟩ := value
  cases type <;> cases array <;> rfl

variable {mapUpper transport}

/-- A client that is not authenticated calls nothing, and it is authenticated only by an `AUTH`
request with the password. -/
theorem authenticate_cases {command : GoString} {args : List Value} {session : Session ω} :
    (authenticate transport command args session).calls = session.calls ∧
      (authenticate transport command args session).world = session.world ∧
      ((authenticate transport command args session).authenticated = true ↔
        session.authenticated = true ∨
          ∃ first more, some (command, args) = some (text "AUTH", first :: more) ∧
            first.bulk = transport.password) := by
  unfold authenticate
  by_cases hcommand : command = text "AUTH"
  · rw [if_pos hcommand]
    cases args with
    | nil => simp
    | cons first more =>
      by_cases hfirst : first.bulk = transport.password
      · rw [if_pos (by simpa using hfirst)]
        exact ⟨rfl, rfl, fun _ ↦ Or.inr ⟨first, more, by rw [hcommand], hfirst⟩, fun _ ↦ rfl⟩
      · rw [if_neg (by simpa using hfirst)]
        simp [hfirst]
  · rw [if_neg hcommand]
    simp [hcommand]

theorem execute_authenticated (command : GoString) (args : List Value) (session : Session ω) :
    (execute transport command args session).authenticated = session.authenticated := by
  unfold execute
  cases transport.handlers.lookup command with
  | none => rfl
  | some handler => rfl

/-- A turn of the loop for a client that is not authenticated calls nothing. -/
theorem serve_unauthenticated {session : Session ω} (hauth : session.authenticated = false)
    (value : Value) :
    (serve mapUpper transport value session).calls = session.calls ∧
      (serve mapUpper transport value session).world = session.world := by
  rw [serve_eq, hauth]
  cases parseValue mapUpper value with
  | none => exact ⟨rfl, rfl⟩
  | some parsed => exact ⟨authenticate_cases.1, authenticate_cases.2.1⟩

theorem authenticated_serve_iff (value : Value) (session : Session ω) :
    (serve mapUpper transport value session).authenticated = true ↔
      session.authenticated = true ∨
        (streamService mapUpper transport).IsAuth transport.password value := by
  show _ ↔ _ ∨ ∃ first more, parseValue mapUpper value = some (text "AUTH", first :: more) ∧
    first.bulk = transport.password
  rw [serve_eq]
  cases parseValue mapUpper value with
  | none => simp
  | some parsed =>
    cases hauth : session.authenticated with
    | true => simp [execute_authenticated, hauth]
    | false =>
      refine authenticate_cases.2.2.trans ?_
      rw [hauth]

theorem authenticated_foldl_iff (session : Session ω) (requests : List Value) :
    (requests.foldl (fun session value ↦ serve mapUpper transport value session)
        session).authenticated = true ↔
      session.authenticated = true ∨ ∃ earlier ∈ requests,
        (streamService mapUpper transport).IsAuth transport.password earlier := by
  induction requests generalizing session with
  | nil => simp
  | cons request requests ih =>
    rw [List.foldl_cons, ih, authenticated_serve_iff, or_assoc]
    simp only [List.mem_cons]
    exact or_congr_right exists_eq_or_imp.symm

/-- Who is authenticated needs no password or has sent it. -/
theorem authenticated_after_iff (world : ω) (requests : List Value) :
    ((streamService mapUpper transport).after world requests).authenticated = true ↔
      transport.password = [] ∨ ∃ earlier ∈ requests,
        (streamService mapUpper transport).IsAuth transport.password earlier := by
  refine (authenticated_foldl_iff _ requests).trans (or_congr_left ?_)
  exact decide_eq_true_iff

/-- A stream with a password is guarded, whatever is sent. -/
theorem guarded_stream (hpassword : transport.password ≠ []) (world : ω) (requests : List Value) :
    (streamService mapUpper transport).Guarded transport.password world requests := by
  intro before request later _ hruns
  cases hauth : ((streamService mapUpper transport).after world before).authenticated with
  | true =>
    rcases (authenticated_after_iff world before).mp hauth with hnone | hsent
    · exact absurd hnone hpassword
    · exact hsent
  | false =>
    obtain ⟨hcalls, hworld⟩ := serve_unauthenticated hauth request
    rcases hruns with hruns | hruns
    · exact absurd hcalls hruns
    · exact absurd hworld hruns

end Stream

/-! ### Requests -/

section Exchange

variable {ω : Type} (mapUpper : GoString → GoString) (decode : GoString → Option (List GoString))
  (handlers : GoMap (HandlerFunc ω)) (onWrite : Option (WriteFunc ω))

/-- The command and the arguments of an HTTP request. -/
def parseHTTP (r : HTTPRequest) : Option (GoString × List Value) :=
  if r.method ≠ text "POST" then none
  else
    match decode r.body with
    | some (name :: args) => some (toUpper mapUpper name, args.map .ofBulk)
    | _ => none

/-- `HTTP` on one connection. -/
def httpService : Service ω where
  Request := HTTPRequest
  State := Exchange HTTPResponse ω
  start world := ⟨[], [], world⟩
  serve := HTTP.handleCommand mapUpper decode handlers onWrite
  calls := Exchange.calls
  world := Exchange.world
  parse := parseHTTP mapUpper decode

/-- `GRPC` on one connection. -/
def grpcService : Service ω where
  Request := GRPCCommand
  State := Exchange ResponseValue ω
  start world := ⟨[], [], world⟩
  serve := GRPC.exec mapUpper handlers onWrite
  calls := Exchange.calls
  world := Exchange.world
  parse cmd := some (toUpper mapUpper cmd.name, cmd.args.map .ofBulk)

variable {ρ : Type}

/-- What a request of `HTTP` or `GRPC` can do: it is answered without a call, or the handler of its
command is called. -/
inductive Answered (exchange : Exchange ρ ω) :
    Option (GoString × List Value) → Exchange ρ ω → Prop
  | malformed (response : ρ) : Answered exchange none (exchange.respond response)
  | unknown {command : GoString} {args : List Value} (hnone : handlers.lookup command = none)
    (response : ρ) : Answered exchange (some (command, args)) (exchange.respond response)
  | called {command : GoString} {args : List Value} {handler : HandlerFunc ω}
    (hsome : handlers.lookup command = some handler) (response : Value → ρ) :
    Answered exchange (some (command, args))
      (exchange.dispatch handler onWrite command args response)

theorem answered_handleCommand (exchange : Exchange HTTPResponse ω) (r : HTTPRequest) :
    Answered handlers onWrite exchange (parseHTTP mapUpper decode r)
      (HTTP.handleCommand mapUpper decode handlers onWrite exchange r) := by
  unfold HTTP.handleCommand parseHTTP
  by_cases hmethod : r.method ≠ text "POST"
  · rw [if_pos hmethod, if_pos hmethod]
    exact .malformed _
  · rw [if_neg hmethod, if_neg hmethod]
    cases decode r.body with
    | none => exact .malformed _
    | some strings =>
      cases strings with
      | nil => exact .malformed _
      | cons name args =>
        cases hlookup : handlers.lookup (toUpper mapUpper name) with
        | none =>
          simp only [hlookup]
          exact .unknown hlookup _
        | some handler =>
          simp only [hlookup]
          exact .called hlookup _

theorem answered_exec (exchange : Exchange ResponseValue ω) (cmd : GRPCCommand) :
    Answered handlers onWrite exchange
      (some (toUpper mapUpper cmd.name, cmd.args.map .ofBulk))
      (GRPC.exec mapUpper handlers onWrite exchange cmd) := by
  unfold GRPC.exec
  cases hlookup : handlers.lookup (toUpper mapUpper cmd.name) with
  | none =>
    simp only [hlookup]
    exact .unknown hlookup _
  | some handler =>
    simp only [hlookup]
    exact .called hlookup _

variable {handlers onWrite}

/-- A handler is called exactly if the request stands for a command of the table. -/
theorem Answered.runs_iff {exchange after : Exchange ρ ω} {parsed : Option (GoString × List Value)}
    (h : Answered handlers onWrite exchange parsed after) :
    (after.calls ≠ exchange.calls ∨ after.world ≠ exchange.world) ↔
      ∃ command args, parsed = some (command, args) ∧
        (handlers.lookup command).isSome = true := by
  cases h with
  | malformed response => simp [Exchange.respond]
  | unknown hnone response => simp [Exchange.respond, hnone]
  | called hsome response => simp [Exchange.dispatch, hsome]

variable {mapUpper decode}

/-- On a connection of `HTTP` the requests that call a handler are those with a command of the
table. -/
theorem guarded_http_iff (password : GoString) (world : ω) (requests : List HTTPRequest) :
    (httpService mapUpper decode handlers onWrite).Guarded password world requests ↔
      (httpService mapUpper decode handlers onWrite).KnownAfterAuth handlers password requests :=
  Service.guarded_iff fun state request ↦
    (answered_handleCommand mapUpper decode handlers onWrite state request).runs_iff

/-- On a connection of `GRPC` the requests that call a handler are those with a command of the
table. -/
theorem guarded_grpc_iff (password : GoString) (world : ω) (requests : List GRPCCommand) :
    (grpcService mapUpper handlers onWrite).Guarded password world requests ↔
      (grpcService mapUpper handlers onWrite).KnownAfterAuth handlers password requests :=
  Service.guarded_iff fun state request ↦
    (answered_exec mapUpper handlers onWrite state request).runs_iff

end Exchange

end FluxCache.Network
