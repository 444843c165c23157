import FluxCache.Configuration.Build
import FluxCache.Network.Related
import FluxCache.Server.Main
import FluxCache.Store.TTLBackend

/-!
# The store behind the server is invisible

A `Crowd` is a server with any number of clients. A client connects, and then its turns, the turns
of the others, the ticks of the persistence and the sweeps of the store follow each other in any
order; a turn is what the loop of a connection does with a value that it has read. A `life` of the
server starts from what is on the disk.

The handlers look at the store only through its calls. So over stores that answer alike they give
the same replies (`handlersAgree_NewHandlers`), the persistence is told the same writes, and every
life of the server is the same from outside, whichever store the configuration names. The radix tree
is left out, since not all its calls return.
-/

set_option autoImplicit false
set_option relaxedAutoImplicit false

namespace FluxCache.Server

open Foundation Store Resp Network Persistence FluxCache.Configuration TTLStore LockFree

/-! ### Handlers -/

section Handlers

variable {σ τ : Type} {R : σ → τ → Prop} {env : Environment}

theorem handlersAgree_ping : HandlersAgree (Related R) ping ping := by
  intro args t u h
  cases args with
  | nil => exact ⟨rfl, h⟩
  | cons arg args => exact ⟨rfl, h⟩

theorem handlersAgree_ttlHandler :
    HandlersAgree (Related R) (ttlHandler env) (ttlHandler env) := by
  intro args t u h
  match args with
  | [] => exact ⟨rfl, h⟩
  | [key] => exact (h.ttl key.bulk).map _
  | _ :: _ :: _ => exact ⟨rfl, h⟩

variable [StoreInterface σ] [StoreInterface τ] (hR : AnswersAlike R)
include hR

theorem handlersAgree_setHandler :
    HandlersAgree (Related R) (setHandler env) (setHandler env) := by
  intro args t u h
  match args with
  | [] => exact ⟨rfl, h⟩
  | [_] => exact ⟨rfl, h⟩
  | key :: val :: options =>
    rw [setHandler, setHandler]
    cases expireOption options with
    | none => exact ⟨rfl, h.write hR _⟩
    | some sec => exact ⟨rfl, h.setWithTTL hR _ _ _⟩

theorem handlersAgree_getHandler :
    HandlersAgree (Related R) (getHandler env) (getHandler env) := by
  intro args t u h
  match args with
  | [] => exact ⟨rfl, h⟩
  | [key] => exact (h.read hR env (.get key.bulk)).map valueReply
  | _ :: _ :: _ => exact ⟨rfl, h⟩

theorem handlersAgree_hsetHandler :
    HandlersAgree (Related R) (hsetHandler env) (hsetHandler env) := by
  intro args t u h
  match args with
  | [] => exact ⟨rfl, h⟩
  | [_] => exact ⟨rfl, h⟩
  | [_, _] => exact ⟨rfl, h⟩
  | [hash, key, val] => exact ⟨rfl, h.write hR _⟩
  | _ :: _ :: _ :: _ :: _ => exact ⟨rfl, h⟩

theorem handlersAgree_hgetHandler :
    HandlersAgree (Related R) (hgetHandler env) (hgetHandler env) := by
  intro args t u h
  match args with
  | [] => exact ⟨rfl, h⟩
  | [_] => exact ⟨rfl, h⟩
  | [hash, key] => exact (h.read hR env (.hget hash.bulk key.bulk)).map valueReply
  | _ :: _ :: _ :: _ => exact ⟨rfl, h⟩

/-- The order in which the fields of a hash are sent is asked of the environment as well. -/
theorem handlersAgree_hgetallHandler :
    HandlersAgree (Related R) (hgetallHandler env) (hgetallHandler env) := by
  intro args t u h
  match args with
  | [] => exact ⟨rfl, h⟩
  | _ :: _ :: _ => exact ⟨rfl, h⟩
  | [hash] =>
    obtain ⟨hreply, hafter⟩ := h.read hR env (.hgetAll hash.bulk)
    have hrequests : (u.read env (.hgetAll hash.bulk)).2.requests =
        (t.read env (.hgetAll hash.bulk)).2.requests := by
      obtain ⟨m, -, hu⟩ := hafter
      rw [hu]
      rfl
    rw [hgetallHandler, hgetallHandler, TTLStore.hgetAll, TTLStore.hgetAll]
    generalize t.read env (.hgetAll hash.bulk) = result at hreply hafter hrequests
    generalize u.read env (.hgetAll hash.bulk) = result' at hreply hafter hrequests
    obtain ⟨reply, t'⟩ := result
    obtain ⟨reply', u'⟩ := result'
    obtain rfl : reply = reply' := hreply
    cases reply with
    | fields found =>
      cases found with
      | none => exact ⟨rfl, hafter⟩
      | some fields =>
        refine ⟨?_, hafter.requests (· + 1)⟩
        show Value.ofArray (fieldValues fields (env.order t'.requests fields.keys)) =
          .ofArray (fieldValues fields (env.order u'.requests fields.keys))
        rw [show u'.requests = t'.requests from hrequests]
    | nothing => exact ⟨rfl, hafter⟩
    | value found => exact ⟨rfl, hafter⟩
    | flag done => exact ⟨rfl, hafter⟩
    | duration d => exact ⟨rfl, hafter⟩

theorem handlersAgree_expireHandler :
    HandlersAgree (Related R) (expireHandler env) (expireHandler env) := by
  intro args t u h
  match args with
  | [] => exact ⟨rfl, h⟩
  | [_] => exact ⟨rfl, h⟩
  | _ :: _ :: _ :: _ => exact ⟨rfl, h⟩
  | [key, sec] =>
    rw [expireHandler, expireHandler]
    cases parseInt sec.bulk with
    | error err => exact ⟨rfl, h⟩
    | ok sec => exact (h.expire hR _ _).map _

/-- The loop of `DEL` deletes the same keys. -/
theorem agree_delLoop (args : List Value) {t : TTLStore σ} {u : TTLStore τ} (h : Related R t u) :
    Agree R (delLoop env args t) (delLoop env args u) := by
  induction args generalizing t u with
  | nil => exact ⟨rfl, h⟩
  | cons arg args ih =>
    obtain ⟨hreply, hafter⟩ := h.read hR env (.get arg.bulk)
    rw [delLoop, delLoop, TTLStore.get, TTLStore.get]
    generalize t.read env (.get arg.bulk) = result at hreply hafter
    generalize u.read env (.get arg.bulk) = result' at hreply hafter
    obtain ⟨reply, t'⟩ := result
    obtain ⟨reply', u'⟩ := result'
    obtain rfl : reply = reply' := hreply
    cases reply with
    | value found =>
      obtain ⟨val, ok⟩ := found
      cases ok with
      | true => exact (ih (hafter.del hR arg.bulk)).map _
      | false => exact ih hafter
    | nothing => exact ih hafter
    | fields found => exact ih hafter
    | flag done => exact ih hafter
    | duration d => exact ih hafter

theorem handlersAgree_delHandler :
    HandlersAgree (Related R) (delHandler env) (delHandler env) := by
  intro args t u h
  cases args with
  | nil => exact ⟨rfl, h⟩
  | cons arg args => exact (agree_delLoop hR (arg :: args) h).map _

/-- The tables of handlers have the same commands, and the handlers agree. -/
theorem handlersAgree_NewHandlers (env : Environment) (command : GoString) :
    Option.Rel (HandlersAgree (Related R)) ((NewHandlers env).lookup command)
      ((NewHandlers env).lookup command) := by
  refine rel_lookup ?_ command
  refine .cons ⟨rfl, handlersAgree_ping⟩ <| .cons ⟨rfl, handlersAgree_setHandler hR⟩ <|
    .cons ⟨rfl, handlersAgree_getHandler hR⟩ <| .cons ⟨rfl, handlersAgree_hsetHandler hR⟩ <|
    .cons ⟨rfl, handlersAgree_hgetHandler hR⟩ <| .cons ⟨rfl, handlersAgree_hgetallHandler hR⟩ <|
    .cons ⟨rfl, handlersAgree_expireHandler hR⟩ <| .cons ⟨rfl, handlersAgree_ttlHandler⟩ <|
    .cons ⟨rfl, handlersAgree_delHandler hR⟩ .nil

end Handlers

/-! ### Clients -/

/-- The server with its clients: which of them are authenticated, the replies written to them in
their order, and the state. -/
structure Crowd (ω : Type) where
  authenticated : ℕ → Bool
  replies : List (ℕ × Value)
  world : ω

/-- What happens at a server. -/
inductive Happening
  | connect (client : ℕ)
  | turn (client : ℕ) (value : Value)
  | tick
  | sweep

section Life

variable {σ δ π : Type} [StoreInterface σ] [PersistenceInterface δ π]
  (mapUpper : GoString → GoString) (env : Environment) (password : GoString)

/-- The effect of a happening. -/
def happen (crowd : Crowd (ServerState σ π)) : Happening → Crowd (ServerState σ π)
  | .connect client =>
    { crowd with
      authenticated := Function.update crowd.authenticated client (password = []) }
  | .turn client value =>
    let session := serve mapUpper (mainTransport env password) value
      ⟨crowd.authenticated client, [], [], crowd.world⟩
    { authenticated := Function.update crowd.authenticated client session.authenticated
      replies := crowd.replies ++ session.replies.map (Prod.mk client)
      world := session.world }
  | .tick =>
    { crowd with world := { crowd.world with log := PersistenceInterface.tick crowd.world.log } }
  | .sweep => { crowd with world := { crowd.world with store := crowd.world.store.sweep env } }

/-- What is seen of a life of the server that starts from a disk: the replies and the persistence,
or the fault that stops the start. -/
def life (fresh : TTLStore σ) (disk : δ) (happenings : List Happening) :
    Outcome (List (ℕ × Value) × π) := do
  let server ← boot mapUpper env fresh disk
  let crowd := happenings.foldl (happen mapUpper env password) ⟨fun _ ↦ false, [], server⟩
  return (crowd.replies, crowd.world.log)

end Life

section Related

variable {σ τ δ π : Type} [StoreInterface σ] [StoreInterface τ] [PersistenceInterface δ π]
  {R : σ → τ → Prop} {mapUpper : GoString → GoString} {env : Environment} {password : GoString}

/-- The stores are related and the persistences are equal. -/
def ServersAgree (R : σ → τ → Prop) (w : ServerState σ π) (w' : ServerState τ π) : Prop :=
  Related R w.store w'.store ∧ w.log = w'.log

theorem related_mainTransport (hR : AnswersAlike R) (env : Environment) (password : GoString) :
    (mainTransport env password : Transport (ServerState σ π)).Related (ServersAgree R)
      (mainTransport env password : Transport (ServerState τ π)) where
  password := rfl
  handlers := fun command ↦ by
    have hhandler := handlersAgree_NewHandlers hR env command
    rw [mainTransport, mainTransport, lookup_mapValues, lookup_mapValues]
    generalize (NewHandlers (σ := σ) env).lookup command = found at hhandler
    generalize (NewHandlers (σ := τ) env).lookup command = found' at hhandler
    cases hhandler with
    | none => exact Option.Rel.none
    | some hagree =>
      refine Option.Rel.some fun args w w' hw ↦ ?_
      obtain ⟨hreply, hstore⟩ := hagree args hw.1
      exact ⟨hreply, hstore, hw.2⟩
  onWrite := Option.Rel.some fun command args w w' hw ↦ by
    unfold onWrite
    by_cases hwrite : command = text "SET" ∨ command = text "HSET"
    · rw [if_pos hwrite, if_pos hwrite, hw.2]
      exact ⟨hw.1, rfl⟩
    · rw [if_neg hwrite, if_neg hwrite]
      exact hw

/-- The crowds differ only in the stores of their servers. -/
structure CrowdsAgree (R : σ → τ → Prop) (crowd : Crowd (ServerState σ π))
    (crowd' : Crowd (ServerState τ π)) : Prop where
  authenticated : crowd.authenticated = crowd'.authenticated
  replies : crowd.replies = crowd'.replies
  world : ServersAgree R crowd.world crowd'.world

theorem CrowdsAgree.happen (hR : AnswersAlike R) {crowd : Crowd (ServerState σ π)}
    {crowd' : Crowd (ServerState τ π)} (h : CrowdsAgree R crowd crowd') (happening : Happening) :
    CrowdsAgree R (happen mapUpper env password crowd happening)
      (happen mapUpper env password crowd' happening) := by
  cases happening with
  | connect client => exact ⟨by simp only [Server.happen, h.authenticated], h.replies, h.world⟩
  | turn client value =>
    have hsession : Session.Related (ServersAgree R)
        ⟨crowd.authenticated client, [], [], crowd.world⟩
        ⟨crowd'.authenticated client, [], [], crowd'.world⟩ :=
      ⟨congrFun h.authenticated client, rfl, rfl, h.world⟩
    have hserved := hsession.serve (related_mainTransport hR env password) mapUpper value
    refine ⟨?_, ?_, hserved.world⟩
    · simp only [Server.happen, h.authenticated]
      rw [← hserved.authenticated, h.authenticated]
    · simp only [Server.happen, h.replies]
      rw [← hserved.replies]
  | tick =>
    exact ⟨h.authenticated, h.replies, h.world.1, congrArg PersistenceInterface.tick h.world.2⟩
  | sweep => exact ⟨h.authenticated, h.replies, h.world.1.sweep hR, h.world.2⟩

/-- Over stores that answer alike every life of the server is the same from outside. -/
theorem life_eq (hR : AnswersAlike R) {t : TTLStore σ} {u : TTLStore τ} (h : Related R t u)
    (disk : δ) (happenings : List Happening) :
    (life mapUpper env password t disk happenings : Outcome (_ × π)) =
      life mapUpper env password u disk happenings := by
  have hreplay (cmds : List Command) :
      Related R (cmds.foldl (applyCommand env) t) (cmds.foldl (applyCommand env) u) := by
    rw [applyCommands_eq, applyCommands_eq]
    generalize cmds.filterMap replayWrite = writes
    induction writes generalizing t u with
    | nil => exact h
    | cons w writes ih => exact ih (h.write hR w)
  unfold life boot
  cases PersistenceInterface.replay mapUpper (PersistenceInterface.openDisk disk : π) with
  | error fault => rfl
  | ok result =>
    obtain ⟨cmds, log⟩ := result
    have hstart : CrowdsAgree R ⟨fun _ ↦ false, [], ⟨cmds.foldl (applyCommand env) t, log⟩⟩
      ⟨fun _ ↦ false, [], ⟨cmds.foldl (applyCommand env) u, log⟩⟩ :=
      ⟨rfl, rfl, hreplay cmds, rfl⟩
    have hend : ∀ {crowd : Crowd (ServerState σ π)} {crowd' : Crowd (ServerState τ π)},
        CrowdsAgree R crowd crowd' →
        CrowdsAgree R (happenings.foldl (happen mapUpper env password) crowd)
          (happenings.foldl (happen mapUpper env password) crowd') := by
      intro crowd crowd' hcrowd
      induction happenings generalizing crowd crowd' with
      | nil => exact hcrowd
      | cons happening happenings ih => exact ih (hcrowd.happen hR happening)
    obtain ⟨-, hreplies, -, hlog⟩ := hend hstart
    exact congrArg Except.ok (Prod.ext hreplies hlog)

end Related

/-! ### The stores of a configuration -/

/-- A backend with a store to start from. -/
structure Opened where
  backend : Backend
  start : backend.Carrier

/-- The store that a configuration names, as a backend: hash functions, coins and orders of ranges
are parameters. The radix tree is none. -/
def openBackend (sum64 : GoString → UInt64) (clones : Environment) (coins : ℕ → Coins)
    (ranges : RangeOrder) : StoreBackend → Option Opened
  | .map => some ⟨.ofAlike answersAlike_map, .new, .new, rfl⟩
  | .sharded shardCount =>
    some ⟨shardedBackend sum64, .new shardCount, .new,
      ShardedStore.represents_new sum64 shardCount⟩
  | .syncmap => some ⟨syncMapBackend ranges, .new, .new, SyncMapStore.represents_new⟩
  | .lockfree shardCount =>
    some ⟨lockFreeBackend sum64 clones (bucketCount shardCount), .new _, .new,
      LockFree.represents_new _⟩
  | .skiplist =>
    some ⟨skipListBackend coins, (.new, 0), .new, SkipListChains.represents_new, rfl⟩
  | .bptree => some ⟨bptreeBackend, .new, .new, BPTreeRows.represents_new, rfl⟩
  | .art => none
  | .crdt => some ⟨.ofAlike answersAlike_crdt, .new, .new,
      MapStore.ext (Finmap.ext_lookup fun _ ↦ lookup_mapValues ..) rfl⟩
  | .bitcask s => some ⟨.ofAlike answersAlike_bitcask, s, s.maps, rfl⟩

/-- The map store with what the store of a configuration has at the start. -/
def recovered : StoreBackend → MapStore
  | .bitcask s => s.maps
  | _ => .new

/-- Whichever store the configuration names, except for the radix tree, every life of the server is
the same from outside as over the map store with the same contents: it writes the same replies to
the same clients in the same order and leaves the same persistence, whatever the clients send, the
clock shows and the policy evicts, and for every hash function, all coins and all orders of ranges;
and so is what it writes on a connection for any bytes. -/
theorem backend_invisible {δ π : Type} [PersistenceInterface δ π] (sum64 : GoString → UInt64)
    (clones : Environment) (coins : ℕ → Coins) (ranges : RangeOrder)
    (mapUpper : GoString → GoString) (env : Environment) (password : GoString)
    (t : TTLStore StoreBackend) (hart : t.inner ≠ .art) :
    ∃ opened, openBackend sum64 clones coins ranges t.inner = some opened ∧
      (∀ (disk : δ) (happenings : List Happening),
        (life mapUpper env password (t.around opened.start) disk happenings : Outcome (_ × π)) =
          life mapUpper env password (t.around (recovered t.inner)) disk happenings) ∧
      ∀ (log : π) (conn : Source UInt8),
        (handleConn mapUpper (mainTransport env password) conn
            ⟨t.around opened.start, log⟩).map Session.seen =
          (handleConn mapUpper (mainTransport env password) conn
            ⟨t.around (recovered t.inner), log⟩).map Session.seen := by
  obtain ⟨opened, hopened, hrepresents⟩ : ∃ opened : Opened,
      openBackend sum64 clones coins ranges t.inner = some opened ∧
        opened.backend.Represents opened.start.1 (recovered t.inner) := by
    cases hinner : t.inner with
    | art => exact absurd hinner hart
    | map => exact ⟨_, rfl, rfl⟩
    | sharded shardCount => exact ⟨_, rfl, ShardedStore.represents_new sum64 shardCount⟩
    | syncmap => exact ⟨_, rfl, SyncMapStore.represents_new⟩
    | lockfree shardCount => exact ⟨_, rfl, LockFree.represents_new _⟩
    | skiplist => exact ⟨_, rfl, SkipListChains.represents_new, rfl⟩
    | bptree => exact ⟨_, rfl, BPTreeRows.represents_new, rfl⟩
    | crdt =>
      exact ⟨_, rfl, MapStore.ext (Finmap.ext_lookup fun _ ↦ lookup_mapValues ..) rfl⟩
    | bitcask s => exact ⟨_, rfl, rfl⟩
  have hR := opened.backend.answersAlike
  have hrelated : TTLStore.Related (fun (s : opened.backend.Carrier) m ↦
      opened.backend.Represents s.1 m) (t.around opened.start) (t.around (recovered t.inner)) :=
    ⟨recovered t.inner, hrepresents, rfl⟩
  refine ⟨opened, hopened, fun disk happenings ↦ life_eq hR hrelated disk happenings,
    fun log conn ↦ ?_⟩
  have hservers : ServersAgree (fun (s : opened.backend.Carrier) m ↦
      opened.backend.Represents s.1 m) ⟨t.around opened.start, log⟩
      ⟨t.around (recovered t.inner), log⟩ := ⟨hrelated, rfl⟩
  rcases (related_mainTransport hR env password).handleConn mapUpper conn hservers with
    ⟨s, s', hs, hs', hsession⟩ | ⟨fault, hs, hs'⟩
  · rw [hs, hs']
    exact congrArg Except.ok hsession.seen_eq
  · rw [hs, hs']
    rfl

/-- A B+ tree behind a policy that evicts, with a log. -/
theorem backend_invisible_bptree :
    ∃ opened, openBackend fnv64a stillClock (fun _ _ ↦ false)
        ⟨stillClock.order, fun i keys key ↦ (stillClock.mem_order i keys key).mpr⟩ .bptree =
          some opened ∧
      (life id stillClock []
          (TTLStore.around ⟨StoreBackend.bptree, ∅, ∅, .lru ∅, 1, 0⟩ opened.start)
          ([] : GoString) [.connect 0, .turn 0 (command [text "SET", text "k", text "v"])] :
            Outcome (_ × WAL)) =
        life id stillClock []
          (TTLStore.around ⟨StoreBackend.bptree, ∅, ∅, .lru ∅, 1, 0⟩ MapStore.new)
          [] [.connect 0, .turn 0 (command [text "SET", text "k", text "v"])] := by
  obtain ⟨opened, hopened, hlife, -⟩ := @backend_invisible GoString WAL _ fnv64a stillClock
    (fun _ _ ↦ false)
    ⟨stillClock.order, fun i keys key ↦ (stillClock.mem_order i keys key).mpr⟩ id stillClock []
    ⟨StoreBackend.bptree, ∅, ∅, .lru ∅, 1, 0⟩ (by simp)
  exact ⟨opened, hopened, hlife [] _⟩

end FluxCache.Server
