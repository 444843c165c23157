import FluxCache.Configuration.Validate
import FluxCache.Persistence.AOF
import FluxCache.Persistence.WAL
import FluxCache.Store.Bitcask
import FluxCache.Store.TTLLimit

/-!
# The store and the persistence of a configuration

`build` makes the store and the persistence that a configuration names and puts the store into a
`TTLStore` with the policy and the limit of the configuration. A Bitcask store recovers its maps
from its file before that. The `TTLStore` starts without tracked keys whatever is in the store
inside, so its number of keys is right in every run exactly if nothing was recovered
(`key_count_recovered_iff`).

What opening a file gives, how an interval is parsed and how a text is quoted are parameters.
-/

set_option autoImplicit false
set_option relaxedAutoImplicit false

namespace FluxCache.Configuration

open Foundation Store Persistence

/-! ### The parts -/

/-- What implements the `Store` interface: a fresh store of some kind, or a Bitcask store with what
it has recovered. -/
inductive StoreBackend
  | map
  | sharded (shardCount : ℤ)
  | syncmap
  | lockfree (shardCount : ℤ)
  | skiplist
  | bptree
  | art
  | crdt
  | bitcask (s : BitcaskStore)

/-- What implements the `Persistence` interface. A snapshotter does not open its file. -/
inductive PersistenceBackend
  | null
  | aof (a : AOF)
  | wal (w : WAL)
  | rdb (path : GoString) (interval : Duration)
  | dual (primary secondary : PersistenceBackend)

/-- What opening a path gives: the content of the file, which is created if it is not there, or the
text of an error. -/
abbrev Files := GoString → Except GoString GoString

/-- The text of an error of `recover`. Its loop has no fault. -/
def bitcaskErrorText : BitcaskError → GoString
  | .eof => text "EOF"
  | .invalidMagic => text "bitcask: invalid magic"
  | .fault _ => []

/-- `NewBitcaskStore`. -/
def newBitcaskStore (files : Files) (path : GoString) : Except GoString BitcaskStore := do
  let bytes ← (files path).mapError (text "bitcask: open: " ++ ·)
  (BitcaskStore.openStore bytes).mapError (text "bitcask: recover: " ++ bitcaskErrorText ·)

/-- The number of shards if none is configured. -/
def shardsOrDefault (shardCount : ℤ) : ℤ := if shardCount < 1 then 16 else shardCount

/-- `buildStore`. -/
def buildStore (files : Files) (cfg : StoreConfig) : Except GoString StoreBackend :=
  if cfg.type = text "map" then .ok .map
  else if cfg.type = text "sharded" then .ok (.sharded (shardsOrDefault cfg.shardCount))
  else if cfg.type = text "syncmap" then .ok .syncmap
  else if cfg.type = text "lockfree" then .ok (.lockfree (shardsOrDefault cfg.shardCount))
  else if cfg.type = text "skiplist" then .ok .skiplist
  else if cfg.type = text "bptree" then .ok .bptree
  else if cfg.type = text "art" then .ok .art
  else if cfg.type = text "crdt" then .ok .crdt
  else if cfg.type = text "bitcask" then (newBitcaskStore files cfg.file).map .bitcask
  else .ok .map

/-- `buildPersistence`. The interval of `NewRDB` is five seconds. -/
def buildPersistence (quote : GoString → GoString)
    (parseDuration : GoString → Except GoString Duration) (files : Files) :
    PersistenceConfig → Except GoString PersistenceBackend
  | ⟨type, file, interval, primary, secondary⟩ =>
    if type = text "aof" then (files file).map fun bytes ↦ .aof (NewAOF bytes)
    else if type = text "wal" then (files file).map fun bytes ↦ .wal (NewWAL bytes)
    else if type = text "rdb" then
      if interval = [] then .ok (.rdb file (5 * 10 ^ 9))
      else
        match parseDuration interval with
        | .ok d => .ok (.rdb file d)
        | .error err =>
          .error (text "config: rdb: invalid interval " ++ quote interval ++ text ": " ++ err)
    else if type = text "dual" then
      match primary, secondary with
      | some primary, some secondary => do
        let primary ← (buildPersistence quote parseDuration files primary).mapError
          (text "config: dual primary: " ++ ·)
        let secondary ← (buildPersistence quote parseDuration files secondary).mapError
          (text "config: dual secondary: " ++ ·)
        return .dual primary secondary
      | _, _ => .error (text "config: dual persistence requires primary and secondary")
    else .ok .null

/-- `buildEvictionPolicy`. -/
def buildEvictionPolicy (quote : GoString → GoString) (cfg : EvictionConfig) :
    Except GoString Policy :=
  if cfg.policy = text "allkeys-lru" then .ok (.lru ∅)
  else if cfg.policy = text "allkeys-lfu" then .ok (.lfu ∅)
  else if cfg.policy = text "allkeys-random" then .ok .random
  else if cfg.policy = text "volatile-ttl" then .ok .ttl
  else if cfg.policy = text "noeviction" then .ok .noEviction
  else .error (text "config: unknown eviction policy " ++ quote cfg.policy)

/-- `Build`. -/
def build (quote : GoString → GoString) (parseDuration : GoString → Except GoString Duration)
    (files : Files) (c : Config) :
    Except GoString (TTLStore StoreBackend × PersistenceBackend) := do
  validate quote c
  let inner ← buildStore files c.store
  let ts := TTLStore.new inner
  let policy ← buildEvictionPolicy quote c.eviction
  let ts := ts.setEvictionPolicy policy c.eviction.maxKeys
  let p ← buildPersistence quote parseDuration files c.persistence
  return (ts, p)

/-! ### A Bitcask store -/

section Bitcask

variable {quote : GoString → GoString} {parseDuration : GoString → Except GoString Duration}
  {files : Files} {c : Config}

theorem exists_of_buildStore {cfg : StoreConfig} (htype : cfg.type = text "bitcask")
    {inner : StoreBackend} (hbuild : buildStore files cfg = .ok inner) :
    ∃ s, newBitcaskStore files cfg.file = .ok s ∧ inner = .bitcask s := by
  unfold buildStore at hbuild
  rw [htype] at hbuild
  change (newBitcaskStore files cfg.file).map .bitcask = .ok inner at hbuild
  obtain ⟨s, hopen, hinner⟩ := map_eq_ok_iff.mp hbuild
  exact ⟨s, hopen, hinner.symm⟩

/-- What is built of a configuration with a Bitcask store: the wrapper without tracked keys. -/
theorem exists_of_build (htype : c.store.type = text "bitcask") {ts : TTLStore StoreBackend}
    {p : PersistenceBackend} (hbuild : build quote parseDuration files c = .ok (ts, p)) :
    ∃ s policy, newBitcaskStore files c.store.file = .ok s ∧ ts.inner = .bitcask s ∧
      ts.around s = (TTLStore.new s).setEvictionPolicy policy c.eviction.maxKeys := by
  obtain ⟨-, -, hbuild⟩ := bind_eq_ok_iff.mp hbuild
  obtain ⟨inner, hstore, hbuild⟩ := bind_eq_ok_iff.mp hbuild
  obtain ⟨policy, -, hbuild⟩ := bind_eq_ok_iff.mp hbuild
  obtain ⟨p', -, hbuild⟩ := bind_eq_ok_iff.mp hbuild
  obtain ⟨rfl, -⟩ := Prod.mk.inj (Except.ok.inj hbuild)
  obtain ⟨s, hopen, rfl⟩ := exists_of_buildStore htype hstore
  exact ⟨s, policy, hopen, rfl, rfl⟩

/-- The number of keys of the store that is built, and after any calls, is the number of keys that
hold a string or a hash in the Bitcask store, exactly if nothing was recovered from its file.
Assumes: the configuration names a Bitcask store and is built. -/
theorem key_count_recovered_iff (htype : c.store.type = text "bitcask")
    {ts : TTLStore StoreBackend} {p : PersistenceBackend}
    (hbuild : build quote parseDuration files c = .ok (ts, p)) :
    ∃ s, newBitcaskStore files c.store.file = .ok s ∧ ts.inner = .bitcask s ∧
      ((∀ (env : Environment) (calls : List Call),
          let t := (ts.around s).run env calls
          t.keyCount = (t.inner.maps.strings.keys ∪ t.inner.maps.hashes.keys).card) ↔
        s.maps.keys = ∅) := by
  obtain ⟨s, policy, hopen, hinner, haround⟩ := exists_of_build htype hbuild
  refine ⟨s, hopen, hinner, ?_⟩
  rw [haround]
  constructor
  · intro hcount
    have hzero : 0 = s.maps.keys.card := hcount stillClock []
    exact Finset.card_eq_zero.mp hzero.symm
  · intro hkeys env calls
    have hnew : KeyedStore.keys s = ∅ := hkeys
    exact congrArg Finset.card ((bookkept_new hnew policy c.eviction.maxKeys).run env calls).tracked

end Bitcask

/-- A configuration with a Bitcask store. -/
def bitcaskConfig : Config :=
  { Config.default with store := { type := text "bitcask", file := text "data" } }

/-- A new file. -/
theorem key_count_recovered_none :
    ∃ ts p, build id (fun _ ↦ .ok 0) (fun _ ↦ .ok []) bitcaskConfig = .ok (ts, p) ∧
      ∃ s, ts.inner = .bitcask s ∧ ∀ (env : Environment) (calls : List Call),
        let t := (ts.around s).run env calls
        t.keyCount = (t.inner.maps.strings.keys ∪ t.inner.maps.hashes.keys).card := by
  have hbuild : ∃ ts p, build id (fun _ ↦ .ok 0) (fun _ ↦ .ok []) bitcaskConfig = .ok (ts, p) :=
    ⟨_, _, rfl⟩
  obtain ⟨ts, p, hbuild⟩ := hbuild
  obtain ⟨s, hopen, hinner, hiff⟩ := key_count_recovered_iff rfl hbuild
  obtain rfl := Except.ok.inj hopen
  exact ⟨ts, p, hbuild, _, hinner, hiff.mpr rfl⟩

/-- A file that holds one string: the store finds its key and does not count it. -/
theorem key_count_recovered_missed :
    ∃ ts p s, build id (fun _ ↦ .ok 0)
        (fun _ ↦ .ok (bitcaskMagic ++ (BitcaskOp.set (text "a") (text "1")).record)) bitcaskConfig =
          .ok (ts, p) ∧
      ts.inner = .bitcask s ∧ (ts.around s).keyCount = 0 ∧
      ((ts.around s).get stillClock (text "a")).1 = .value (text "1", true) ∧
      (s.maps.strings.keys ∪ s.maps.hashes.keys).card = 1 :=
  ⟨_, _, _, rfl, rfl, rfl, rfl, rfl⟩

end FluxCache.Configuration
