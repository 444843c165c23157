import FluxCache.Network.Connection

/-!
# The five transports

Three transports read commands from a stream: `TCP`, `TLS` and `Unix` share the loop of `handleConn`
and differ in what they listen on. Two others are given whole requests: `HTTP` takes a JSON array of
strings from the body of a `POST` (`handleCommand`), and `GRPC` a message with a name and arguments
(`Exec`). Of these two neither has a password. They answer every request, an unknown command as
well.

How the body of a request is parsed as JSON is a parameter.
-/

set_option autoImplicit false
set_option relaxedAutoImplicit false

namespace FluxCache.Network

open Foundation Resp

/-! ### Streams -/

/-- `TCP`. -/
structure TCP where
  addr : GoString
  maxConns : ℤ
  password : GoString

/-- `TLS`. -/
structure TLS where
  addr : GoString
  cert : GoString
  key : GoString
  maxConns : ℤ
  password : GoString

/-- `Unix`. -/
structure Unix where
  path : GoString
  maxConns : ℤ
  password : GoString

section Streams

variable {ω : Type} (mapUpper : GoString → GoString) (handlers : GoMap (HandlerFunc ω))
  (onWrite : Option (WriteFunc ω))

/-- `TCP.handleConn`. -/
def TCP.handleConn (t : TCP) (conn : Source UInt8) (world : ω) : Outcome (Session ω) :=
  Network.handleConn mapUpper ⟨t.password, handlers, onWrite⟩ conn world

/-- `TLS.handleConn`. -/
def TLS.handleConn (t : TLS) (conn : Source UInt8) (world : ω) : Outcome (Session ω) :=
  Network.handleConn mapUpper ⟨t.password, handlers, onWrite⟩ conn world

/-- `Unix.handleConn`. -/
def Unix.handleConn (u : Unix) (conn : Source UInt8) (world : ω) : Outcome (Session ω) :=
  Network.handleConn mapUpper ⟨u.password, handlers, onWrite⟩ conn world

end Streams

/-- The values that the loop of `handleConn` reads from a connection, and how the loop ends. -/
def received : ℕ → Source UInt8 → List Value × Outcome Unit
  | 0, _ => ([], .error .exhausted)
  | bound + 1, conn =>
    match read (newResp conn) with
    | .error fault => ([], .error fault)
    | .ok result =>
      match result.err with
      | some _ => ([], .ok ())
      | none =>
        let (values, ending) := received bound result.reader.source
        (result.value :: values, ending)

/-- The loop serves the values that it reads, one after another. What it reads does not depend on
what it has answered. -/
theorem handleLoop_eq {ω : Type} (mapUpper : GoString → GoString) (transport : Transport ω)
    (bound : ℕ) (conn : Source UInt8) (session : Session ω) :
    handleLoop mapUpper transport bound conn session =
      (received bound conn).2.map fun _ ↦ (received bound conn).1.foldl
        (fun session value ↦ serve mapUpper transport value session) session := by
  induction bound generalizing conn session with
  | zero => rfl
  | succ bound ih =>
    rw [handleLoop, received]
    cases read (newResp conn) with
    | error fault => rfl
    | ok result =>
      obtain ⟨value, err, reader⟩ := result
      rw [ok_bind]
      cases err with
      | some err => rfl
      | none => exact ih _ _

/-! ### Requests -/

/-- What a client has got on a connection, the handler calls made and the state that the handlers
act on. -/
structure Exchange (ρ ω : Type) where
  responses : List ρ
  calls : List (GoString × List Value)
  world : ω

section Requests

variable {ρ ω : Type}

/-- The response to a request that calls no handler. -/
def Exchange.respond (exchange : Exchange ρ ω) (response : ρ) : Exchange ρ ω :=
  { exchange with responses := exchange.responses ++ [response] }

/-- The call of a handler, behind the call for writes, with the response made of the result. -/
def Exchange.dispatch (exchange : Exchange ρ ω) (handler : HandlerFunc ω)
    (onWrite : Option (WriteFunc ω)) (command : GoString) (args : List Value)
    (response : Value → ρ) : Exchange ρ ω :=
  let world := match onWrite with
    | some onWrite => onWrite command args exchange.world
    | none => exchange.world
  let (result, world) := handler args world
  { responses := exchange.responses ++ [response result]
    calls := exchange.calls ++ [(command, args)]
    world := world }

end Requests

/-! ### HTTP -/

/-- `HTTP`. -/
structure HTTP where
  addr : GoString

/-- A JSON value. -/
inductive JSON
  | null
  | bool (b : Bool)
  | number (n : ℤ)
  | string (s : GoString)
  | array (items : List JSON)
  | object (fields : List (GoString × JSON))

/-- The parts of an `http.Request` that are looked at. -/
structure HTTPRequest where
  method : GoString
  body : GoString

/-- A status and a body. -/
structure HTTPResponse where
  status : ℕ
  body : JSON

/-- The body of a response with a value. -/
def valueJSON (value : JSON) : JSON := .object [(text "ok", .bool true), (text "value", value)]

/-- The body of a response with an error. -/
def errorJSON (error : GoString) : JSON :=
  .object [(text "ok", .bool false), (text "error", .string error)]

mutual

/-- `respToJSON`. -/
def respToJSON : Value → JSON
  | ⟨.string, str, _, _, _⟩ => valueJSON (.string str)
  | ⟨.bulk, _, _, bulk, _⟩ => valueJSON (.string bulk)
  | ⟨.null, _, _, _, _⟩ => valueJSON .null
  | ⟨.error, str, _, _, _⟩ => errorJSON str
  | ⟨.integer, _, num, _, _⟩ => valueJSON (.number num)
  | ⟨.array, _, _, _, array⟩ => valueJSON (.array (elementsToJSON array))
  | ⟨.empty, _, _, _, _⟩ => valueJSON .null

/-- The loop of `respToJSON` over an array. -/
def elementsToJSON : List Value → List JSON
  | [] => []
  | v :: vs => respToJSON v :: elementsToJSON vs

end

section HTTP

variable {ω : Type} (mapUpper : GoString → GoString) (decode : GoString → Option (List GoString))
  (handlers : GoMap (HandlerFunc ω)) (onWrite : Option (WriteFunc ω))

/-- `HTTP.handleCommand`. -/
def HTTP.handleCommand (exchange : Exchange HTTPResponse ω) (r : HTTPRequest) :
    Exchange HTTPResponse ω :=
  if r.method ≠ text "POST" then
    exchange.respond ⟨405, errorJSON (text "method not allowed")⟩
  else
    match decode r.body with
    | none => exchange.respond ⟨400, errorJSON (text "invalid json")⟩
    | some [] => exchange.respond ⟨400, errorJSON (text "empty command")⟩
    | some (name :: args) =>
      let command := toUpper mapUpper name
      match handlers.lookup command with
      | none => exchange.respond ⟨404, errorJSON (text "unknown command: " ++ command)⟩
      | some handler =>
        exchange.dispatch handler onWrite command (args.map .ofBulk) fun result ↦
          ⟨200, respToJSON result⟩

end HTTP

/-! ### gRPC -/

/-- `GRPC`. -/
structure GRPC where
  addr : GoString

/-- The message `Command`. -/
structure GRPCCommand where
  name : GoString
  args : List GoString

/-- The message `ResponseValue`. -/
structure ResponseValue where
  type : ValueType
  str : GoString := []
  num : ℤ := 0
  bulk : GoString := []
  array : List ResponseValue := []

mutual

/-- `respValueToProto`. -/
def respValueToProto : Value → ResponseValue
  | ⟨.string, str, _, _, _⟩ => { type := .string, str := str }
  | ⟨.bulk, _, _, bulk, _⟩ => { type := .bulk, bulk := bulk }
  | ⟨.error, str, _, _, _⟩ => { type := .error, str := str }
  | ⟨.integer, _, num, _, _⟩ => { type := .integer, num := num }
  | ⟨.array, _, _, _, array⟩ => { type := .array, array := elementsToProto array }
  | ⟨.null, _, _, _, _⟩ => { type := .null }
  | ⟨.empty, _, _, _, _⟩ => { type := .empty }

/-- The loop of `respValueToProto` over an array. -/
def elementsToProto : List Value → List ResponseValue
  | [] => []
  | v :: vs => respValueToProto v :: elementsToProto vs

end

section GRPC

variable {ω : Type} (mapUpper : GoString → GoString) (handlers : GoMap (HandlerFunc ω))
  (onWrite : Option (WriteFunc ω))

/-- `grpcService.Exec`. -/
def GRPC.exec (exchange : Exchange ResponseValue ω) (cmd : GRPCCommand) :
    Exchange ResponseValue ω :=
  let name := toUpper mapUpper cmd.name
  match handlers.lookup name with
  | none => exchange.respond { type := .error, str := text "unknown command: " ++ name }
  | some handler =>
    exchange.dispatch handler onWrite name (cmd.args.map .ofBulk) respValueToProto

end GRPC

end FluxCache.Network
