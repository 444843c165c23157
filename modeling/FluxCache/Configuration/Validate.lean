import FluxCache.Foundation.Decimal
import FluxCache.Foundation.Duration

/-!
# The configuration and its checks

A configuration has a section for the server, the store, the persistence and the eviction.
`validate` goes through a list of checks in a fixed order and returns the message of the first one
that fails. So a configuration is accepted exactly if no check fails (`validate_eq_ok_iff`).

The messages quote the names that they reject; how a text is quoted is a parameter.
-/

set_option autoImplicit false
set_option relaxedAutoImplicit false

namespace FluxCache.Configuration

open Foundation

/-! ### The sections -/

/-- `ServerConfig`. A field that is not set has the zero value of its type. -/
structure ServerConfig where
  port : ℤ := 0
  network : GoString := []
  healthPort : ℤ := 0
  metricsPort : ℤ := 0
  maxConns : ℤ := 0
  maxMemory : GoString := []
  password : GoString := []
  certFile : GoString := []
  keyFile : GoString := []
  socketPath : GoString := []

/-- `StoreConfig`. -/
structure StoreConfig where
  type : GoString := []
  file : GoString := []
  shardCount : ℤ := 0

/-- `PersistenceConfig`. -/
structure PersistenceConfig where
  type : GoString := []
  file : GoString := []
  interval : GoString := []
  primary : Option PersistenceConfig := none
  secondary : Option PersistenceConfig := none

/-- `EvictionConfig`. -/
structure EvictionConfig where
  policy : GoString := []
  maxKeys : ℤ := 0

/-- `Config`. -/
structure Config where
  server : ServerConfig := {}
  store : StoreConfig := {}
  persistence : PersistenceConfig := {}
  eviction : EvictionConfig := {}

/-- `Default`. -/
def Config.default : Config where
  server := { port := 6379, network := text "tcp" }
  store := { type := text "map" }
  persistence := { type := text "null" }
  eviction := { policy := text "noeviction" }

def validNetworks : List GoString := [text "tcp", text "tls", text "unix", text "http", text "grpc"]

def validStores : List GoString :=
  [text "map", text "sharded", text "syncmap", text "lockfree", text "skiplist", text "bptree",
    text "art", text "crdt", text "bitcask"]

def validPersistence : List GoString :=
  [text "null", text "aof", text "wal", text "rdb", text "dual"]

def validEvictions : List GoString :=
  [text "noeviction", text "allkeys-lru", text "allkeys-lfu", text "allkeys-random",
    text "volatile-ttl"]

variable (quote : GoString → GoString)

/-! ### Sizes of memory -/

/-- The message of a `strconv.NumError` of `ParseInt`. -/
def numErrorText (s : GoString) : NumError → GoString
  | .syntaxError => text "strconv.ParseInt: parsing " ++ quote s ++ text ": invalid syntax"
  | .rangeError => text "strconv.ParseInt: parsing " ++ quote s ++ text ": value out of range"

/-- The factor of a unit. -/
def unitFactor (unit : UInt8) : Option ℤ :=
  if unit = 75 then some (2 ^ 10)
  else if unit = 77 then some (2 ^ 20)
  else if unit = 71 then some (2 ^ 30)
  else if unit = 84 then some (2 ^ 40)
  else none

/-- The suffix that `parseBytes` finds: the number of its bytes and its factor. A `B` at the end has
to follow a unit. -/
def parseSuffix (s : GoString) : Except GoString (ℕ × ℤ) :=
  match s.reverse with
  | last :: unit :: _ =>
    if last = 66 then
      match unitFactor unit with
      | some mult => .ok (2, mult)
      | none => .error (text "unknown suffix")
    else
      match unitFactor last with
      | some mult => .ok (1, mult)
      | none => .ok (0, 1)
  | _ => .error (text "too short")

/-- `parseBytes`. The multiplication wraps. -/
def parseBytes (s : GoString) : Except GoString ℤ := do
  let (suffix, mult) ← parseSuffix s
  let numStr := s.take (s.length - suffix)
  if numStr = [] then throw (text "no numeric value")
  let n ← (parseInt numStr).mapError (numErrorText quote numStr)
  return wrap64 (n * mult)

/-! ### The checks -/

/-- The message of a check, if it fails. -/
def failure (bad : Prop) [Decidable bad] (message : GoString) : Option GoString :=
  if bad then some message else none

theorem failure_eq_none_iff {bad : Prop} [Decidable bad] {message : GoString} :
    failure bad message = none ↔ ¬ bad := by
  unfold failure
  split <;> simp [*]

/-- The check of a port. -/
def portCheck (field : String) (low port : ℤ) : Option GoString :=
  failure (port < low ∨ 65535 < port)
    (text ("config: " ++ field ++ " ") ++ itoa port ++ text " out of range [" ++ itoa low ++
      text "-65535]")

/-- The check of `max_memory`. -/
def memoryCheck (maxMemory : GoString) : Option GoString :=
  if maxMemory = [] then none
  else
    match parseBytes quote maxMemory with
    | .ok _ => none
    | .error err =>
      some (text "config: invalid max_memory " ++ quote maxMemory ++ text ": " ++ err)

/-- The check of a name. -/
def nameCheck (kind : String) (known : List GoString) (name : GoString) : Option GoString :=
  failure (name ∉ known) (text ("config: unknown " ++ kind ++ " ") ++ quote name)

/-- The checks of `Validate`, in their order. -/
def checks (c : Config) : List (Option GoString) :=
  [portCheck "port" 1 c.server.port,
    portCheck "health_port" 0 c.server.healthPort,
    portCheck "metrics_port" 0 c.server.metricsPort,
    failure (c.server.maxConns < 0) (text "config: max_connections must be >= 0"),
    memoryCheck quote c.server.maxMemory,
    nameCheck quote "network" validNetworks c.server.network,
    nameCheck quote "store" validStores c.store.type,
    nameCheck quote "persistence" validPersistence c.persistence.type,
    nameCheck quote "eviction policy" validEvictions c.eviction.policy,
    failure (c.store.type = text "bitcask" ∧ c.store.file = [])
      (text "config: bitcask store requires file path"),
    failure (c.server.network = text "tls" ∧ c.server.certFile = [])
      (text "config: tls network requires cert_file"),
    failure (c.server.network = text "tls" ∧ c.server.keyFile = [])
      (text "config: tls network requires key_file"),
    failure (c.server.network = text "unix" ∧ c.server.socketPath = [])
      (text "config: unix network requires socket_path"),
    failure (c.persistence.type = text "dual" ∧ c.persistence.primary.isNone)
      (text "config: dual persistence requires primary"),
    failure (c.persistence.type = text "dual" ∧ c.persistence.secondary.isNone)
      (text "config: dual persistence requires secondary"),
    failure ((c.persistence.type = text "aof" ∨ c.persistence.type = text "wal" ∨
        c.persistence.type = text "rdb") ∧ c.persistence.file = [])
      (text "config: " ++ c.persistence.type ++ text " persistence requires file")]

/-- `Validate`. -/
def validate (c : Config) : Except GoString Unit :=
  match (checks quote c).findSome? id with
  | some message => .error message
  | none => .ok ()

variable {quote}

/-- A configuration is accepted exactly if no check fails. -/
theorem validate_eq_ok_iff {c : Config} :
    validate quote c = .ok () ↔ ∀ check ∈ checks quote c, check = none := by
  have hnone : (checks quote c).findSome? id = none ↔ ∀ check ∈ checks quote c, check = none :=
    List.findSome?_eq_none_iff
  rw [← hnone, validate]
  cases (checks quote c).findSome? id with
  | none => simp
  | some message => simp

/-- The defaults pass their own checks. -/
theorem validate_default : validate quote Config.default = .ok () := rfl

/-- What is known of the network of a configuration that is accepted. -/
theorem network_of_validate {c : Config} (hvalid : validate quote c = .ok ()) :
    c.server.network ∈ validNetworks ∧
      (c.server.network = text "tls" → c.server.certFile ≠ [] ∧ c.server.keyFile ≠ []) ∧
      (c.server.network = text "unix" → c.server.socketPath ≠ []) := by
  have hcheck (bad : Prop) [Decidable bad] (message : GoString)
      (hmem : failure bad message ∈ checks quote c) : ¬ bad :=
    failure_eq_none_iff.mp (validate_eq_ok_iff.mp hvalid _ hmem)
  have hname := hcheck (c.server.network ∉ validNetworks)
    (text "config: unknown network " ++ quote c.server.network) (by simp [checks, nameCheck])
  have hcert := hcheck (c.server.network = text "tls" ∧ c.server.certFile = [])
    (text "config: tls network requires cert_file") (by simp [checks])
  have hkey := hcheck (c.server.network = text "tls" ∧ c.server.keyFile = [])
    (text "config: tls network requires key_file") (by simp [checks])
  have hsocket := hcheck (c.server.network = text "unix" ∧ c.server.socketPath = [])
    (text "config: unix network requires socket_path") (by simp [checks])
  exact ⟨Decidable.not_not.mp hname,
    fun htls ↦ ⟨fun hnone ↦ hcert ⟨htls, hnone⟩, fun hnone ↦ hkey ⟨htls, hnone⟩⟩,
    fun hunix hnone ↦ hsocket ⟨hunix, hnone⟩⟩

end FluxCache.Configuration
