import FluxCache.Foundation.Duration
import FluxCache.Network.Connection
import FluxCache.Persistence.Interface
import FluxCache.Store.TTL

/-!
# The command handlers

Every command has a handler that takes the arguments of a request and acts on the store with
deadlines. A handler checks the number of its arguments before it does anything else. `NewHandlers`
is the table of all commands.

The handlers of `SET` and `HSET` make at most one `Write` on the store inside (`handlerWrite`,
`inner_handler`).
-/

set_option autoImplicit false
set_option relaxedAutoImplicit false

namespace FluxCache.Server

open Foundation Store Resp Network Persistence

/-! ### The handlers -/

/-- The reply to a request with a wrong number of arguments. -/
def wrongArguments (name : String) : Value :=
  .ofError (text ("ERR wrong number of arguments for '" ++ name ++ "' command"))

/-- `ping`. -/
def ping {ω : Type} : HandlerFunc ω
  | [], world => (.ofString (text "PONG"), world)
  | arg :: _, world => (.ofString arg.bulk, world)

variable {σ : Type} [StoreInterface σ] (env : Environment)

/-- The seconds of the `EX` option of `SET`, if there is a valid one. -/
def expireOption : List Value → Option ℤ
  | flag :: sec :: _ =>
    if flag.bulk = text "EX" ∨ flag.bulk = text "ex" then (parseInt sec.bulk).toOption else none
  | _ => none

/-- `setHandler`. -/
def setHandler : HandlerFunc (TTLStore σ)
  | key :: val :: options, t =>
    match expireOption options with
    | some sec => (.ofString (text "OK"), t.setWithTTL env key.bulk val.bulk (ofSeconds sec))
    | none => (.ofString (text "OK"), t.set env key.bulk val.bulk)
  | _, t => (wrongArguments "set", t)

/-- The reply to a read of one value. -/
def valueReply : Reply → Value
  | .value (val, true) => .ofBulk val
  | _ => .ofNull

/-- `getHandler`. -/
def getHandler : HandlerFunc (TTLStore σ)
  | [key], t => (t.get env key.bulk).map valueReply id
  | _, t => (wrongArguments "get", t)

/-- `hsetHandler`. -/
def hsetHandler : HandlerFunc (TTLStore σ)
  | [hash, key, val], t => (.ofString (text "OK"), t.hset env hash.bulk key.bulk val.bulk)
  | _, t => (wrongArguments "hset", t)

/-- `hgetHandler`. -/
def hgetHandler : HandlerFunc (TTLStore σ)
  | [hash, key], t => (t.hget env hash.bulk key.bulk).map valueReply id
  | _, t => (wrongArguments "hget", t)

/-- The fields of a hash and their values, in an order of the fields. -/
def fieldValues (fields : GoMap GoString) (order : List GoString) : List Value :=
  order.flatMap fun key ↦ [.ofBulk key, .ofBulk ((fields.lookup key).getD [])]

/-- `hgetallHandler`. -/
def hgetallHandler : HandlerFunc (TTLStore σ)
  | [hash], t =>
    match t.hgetAll env hash.bulk with
    | (.fields (some fields), t) =>
      (.ofArray (fieldValues fields (env.order t.requests fields.keys)),
        { t with requests := t.requests + 1 })
    | (_, t) => (.ofArray [], t)
  | _, t => (wrongArguments "hgetall", t)

/-- `expireHandler`. -/
def expireHandler : HandlerFunc (TTLStore σ)
  | [key, sec], t =>
    match parseInt sec.bulk with
    | .error _ => (.ofError (text "ERR value is not an integer or out of range"), t)
    | .ok sec =>
      (t.expire env key.bulk (ofSeconds sec)).map (fun ok ↦ .ofInteger (if ok then 1 else 0)) id
  | _, t => (wrongArguments "expire", t)

omit [StoreInterface σ] in
/-- `ttlHandler`. -/
def ttlHandler : HandlerFunc (TTLStore σ)
  | [key], t => (t.ttl env key.bulk).map (fun d ↦ .ofInteger (wholeSeconds d)) id
  | _, t => (wrongArguments "ttl", t)

/-- The loop of `delHandler`: the number of keys deleted. -/
def delLoop : List Value → TTLStore σ → ℕ × TTLStore σ
  | [], t => (0, t)
  | arg :: args, t =>
    match t.get env arg.bulk with
    | (.value (_, true), t) => (delLoop args (t.del arg.bulk)).map (· + 1) id
    | (_, t) => delLoop args t

/-- `delHandler`. -/
def delHandler : HandlerFunc (TTLStore σ)
  | [], t => (wrongArguments "del", t)
  | args, t => (delLoop env args t).map (fun count : ℕ ↦ .ofInteger count) id

/-- `NewHandlers`. -/
def NewHandlers : GoMap (HandlerFunc (TTLStore σ)) :=
  List.toFinmap [⟨text "PING", ping⟩, ⟨text "SET", setHandler env⟩, ⟨text "GET", getHandler env⟩,
    ⟨text "HSET", hsetHandler env⟩, ⟨text "HGET", hgetHandler env⟩,
    ⟨text "HGETALL", hgetallHandler env⟩, ⟨text "EXPIRE", expireHandler env⟩,
    ⟨text "TTL", ttlHandler env⟩, ⟨text "DEL", delHandler env⟩]

section Lookup

variable {env} {command : GoString}

theorem lookup_setHandler (h : command = text "SET") :
    (NewHandlers (σ := σ) env).lookup command = some (setHandler env) := by
  rw [h]
  rfl

theorem lookup_hsetHandler (h : command = text "HSET") :
    (NewHandlers (σ := σ) env).lookup command = some (hsetHandler env) := by
  rw [h]
  rfl

theorem lookup_delHandler (h : command = text "DEL") :
    (NewHandlers (σ := σ) env).lookup command = some (delHandler env) := by
  rw [h]
  rfl

end Lookup

/-! ### What is written -/

/-- The write of an `HSET` with three arguments. -/
def hsetWrite : List GoString → Option Write
  | [hash, key, value] => some (.hset hash key value)
  | _ => none

/-- The write that the handler of a request makes, if it makes one. -/
def handlerWrite (command : GoString) (args : List GoString) : Option Write :=
  if command = text "SET" then setWrite args
  else if command = text "HSET" then hsetWrite args
  else none

section Inner

variable {env} {t : TTLStore σ}

theorem inner_setHandler (hpolicy : t.policy = .noEviction) (args : List GoString) :
    (setHandler env (args.map .ofBulk) t).2.policy = .noEviction ∧
      (setHandler env (args.map .ofBulk) t).2.inner =
        (setWrite args).elim t.inner (Write.apply t.inner) := by
  match args with
  | [] => exact ⟨hpolicy, rfl⟩
  | [_] => exact ⟨hpolicy, rfl⟩
  | key :: value :: options =>
    rw [List.map_cons, List.map_cons, setHandler]
    cases expireOption (options.map .ofBulk) with
    | none =>
      obtain ⟨hkept, -, hinner⟩ := write_noEviction hpolicy env (.set key value)
      exact ⟨hkept, hinner⟩
    | some sec =>
      have hdeadline : (t.setDeadline env key (ofSeconds sec)).policy = .noEviction := hpolicy
      obtain ⟨hkept, -, hinner⟩ := write_noEviction hdeadline env (.set key value)
      exact ⟨hkept, hinner⟩

theorem inner_hsetHandler (hpolicy : t.policy = .noEviction) (args : List GoString) :
    (hsetHandler env (args.map .ofBulk) t).2.policy = .noEviction ∧
      (hsetHandler env (args.map .ofBulk) t).2.inner =
        (hsetWrite args).elim t.inner (Write.apply t.inner) := by
  match args with
  | [] => exact ⟨hpolicy, rfl⟩
  | [_] => exact ⟨hpolicy, rfl⟩
  | [_, _] => exact ⟨hpolicy, rfl⟩
  | [hash, key, value] =>
    obtain ⟨hkept, -, hinner⟩ := write_noEviction hpolicy env (.hset hash key value)
    exact ⟨hkept, hinner⟩
  | _ :: _ :: _ :: _ :: _ => exact ⟨hpolicy, rfl⟩

/-- The handlers of `SET` and `HSET` keep the policy and change the store inside by their write.
Assumes: the policy evicts nothing. -/
theorem inner_handler (hpolicy : t.policy = .noEviction) {command : GoString}
    (hcommand : command = text "SET" ∨ command = text "HSET") (args : List GoString)
    {handler : HandlerFunc (TTLStore σ)}
    (hhandler : (NewHandlers env).lookup command = some handler) :
    (handler (args.map .ofBulk) t).2.policy = .noEviction ∧
      (handler (args.map .ofBulk) t).2.inner =
        (handlerWrite command args).elim t.inner (Write.apply t.inner) := by
  rcases hcommand with hset | hhset
  · obtain rfl := Option.some.inj ((lookup_setHandler hset).symm.trans hhandler)
    rw [handlerWrite, if_pos hset]
    exact inner_setHandler hpolicy args
  · obtain rfl := Option.some.inj ((lookup_hsetHandler hhset).symm.trans hhandler)
    rw [handlerWrite, hhset, if_neg (by decide), if_pos rfl]
    exact inner_hsetHandler hpolicy args

end Inner

end FluxCache.Server
