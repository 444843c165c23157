import FluxCache.Foundation.BigEndian
import FluxCache.Foundation.File
import FluxCache.Store.Slots

/-!
# The store with a log

`BitcaskStore` keeps its strings and hashes in two maps and appends a record of every `Set`, `Del`
and `HSet` to a file. A record is a byte for the operation and its strings, each as a block behind
its length. When the store is opened, `recover` goes through the file and applies what it reads.

The reader does not check what it reads. Where a string is cut off it takes the empty string
instead, and goes on behind the length of that string or even in front of it (`readStringAt`). A
byte that stands for no operation is skipped. What the loop applies to the maps is the list
`readOps` of the operations that the bytes spell. The records of operations spell these operations,
whatever follows (`readOps_records`), if their strings are shorter than 2^32 bytes.

So the log and the maps stay in step over any number of sessions: `Logged` says that the file
consists of the records of the operations that have led to the maps.
-/

set_option autoImplicit false
set_option relaxedAutoImplicit false

namespace FluxCache.Store

open FluxCache.Foundation

/-! ### Operations -/

/-- A call that changes the store. -/
inductive BitcaskOp
  | set (key value : GoString)
  | del (key : GoString)
  | hset (hash key value : GoString)
  deriving DecidableEq

namespace BitcaskOp

/-- What an operation does to the maps. -/
def apply (maps : MapStore) : BitcaskOp → MapStore
  | set key value => maps.set key value
  | del key => maps.del key
  | hset hash key value => maps.hset hash key value

/-- The first byte of a record: `S`, `D` or `H`. -/
def code : BitcaskOp → UInt8
  | set _ _ => 83
  | del _ => 68
  | hset _ _ _ => 72

/-- The strings of a record. -/
def parts : BitcaskOp → List GoString
  | set key value => [key, value]
  | del key => [key]
  | hset hash key value => [hash, key, value]

/-- The bytes that `writeOp` appends for an operation. -/
def record (op : BitcaskOp) : GoString := op.code :: op.parts.flatMap (block 4)

/-- The strings have lengths of 32 bits. -/
def Short (op : BitcaskOp) : Prop := ∀ part ∈ op.parts, part.length < 2 ^ 32

instance decidableShort (op : BitcaskOp) : Decidable op.Short :=
  List.decidableBAll (fun part : GoString ↦ part.length < 2 ^ 32) op.parts

end BitcaskOp

/-- What operations do to the maps, one after another. -/
def applyOps (maps : MapStore) (ops : List BitcaskOp) : MapStore := ops.foldl BitcaskOp.apply maps

theorem applyOps_append (maps : MapStore) (first second : List BitcaskOp) :
    applyOps maps (first ++ second) = applyOps (applyOps maps first) second :=
  List.foldl_append

/-! ### The store -/

/-- `bitcaskMagic`. -/
def bitcaskMagic : GoString := text "FCBT01"

/-- `BitcaskStore`: its file, and its strings and hashes, which are kept as in the map store. -/
structure BitcaskStore where
  file : File
  maps : MapStore

/-- The ways the store can fail to open. -/
inductive BitcaskError
  | eof
  | invalidMagic
  | fault (fault : Fault)
  deriving DecidableEq

/-- `readStringAt`, on the bytes from the position on: the string, and the bytes from the new
position on. -/
def readStringAt (input : GoString) : GoString × GoString :=
  match takeNumber 4 input with
  | none => ([], input)
  | some (strLen, rest) =>
    if strLen = 0 then ([], rest)
    else
      match takeBytes strLen rest with
      | none => ([], rest)
      | some (s, rest) => (s, rest)

/-- The switch of `recover` on the byte of an operation: the operation, and the bytes behind it. -/
def readOp (code : UInt8) (input : GoString) : Option BitcaskOp × GoString :=
  if code = 83 then
    let (key, input) := readStringAt input
    let (val, input) := readStringAt input
    (some (.set key val), input)
  else if code = 68 then
    let (key, input) := readStringAt input
    (some (.del key), input)
  else if code = 72 then
    let (hash, input) := readStringAt input
    let (field, input) := readStringAt input
    let (val, input) := readStringAt input
    (some (.hset hash field val), input)
  else (none, input)

/-- The loop of `recover`, on the bytes from the position on. -/
def recoverLoop : ℕ → GoString → MapStore → Outcome MapStore
  | 0, _, _ => .error .exhausted
  | _ + 1, [], maps => .ok maps
  | bound + 1, code :: input, maps =>
    let (op, input) := readOp code input
    recoverLoop bound input (op.elim maps (BitcaskOp.apply maps))

namespace BitcaskStore

/-- `recover`. Every turn of the loop takes a byte. -/
def recover (s : BitcaskStore) : Except BitcaskError BitcaskStore := do
  if s.file.bytes = [] then
    return { s with file := s.file.write bitcaskMagic }
  if s.file.bytes.length < bitcaskMagic.length then
    throw .eof
  if s.file.bytes.take bitcaskMagic.length ≠ bitcaskMagic then
    throw .invalidMagic
  let maps ← (recoverLoop (s.file.bytes.length + 1) (s.file.bytes.drop bitcaskMagic.length)
    s.maps).mapError .fault
  return ⟨s.file.seekEnd, maps⟩

/-- `NewBitcaskStore` on a file with some content. -/
def openStore (bytes : GoString) : Except BitcaskError BitcaskStore :=
  recover ⟨.openFile bytes, .new⟩

/-- `writeOp`. Of a length only the last 32 bits are written. -/
def writeOp (s : BitcaskStore) (op : UInt8) (parts : List GoString) : BitcaskStore :=
  { s with file := s.file.write (op :: parts.flatMap (block 4)) }

/-- `Set`. -/
def set (s : BitcaskStore) (key value : GoString) : BitcaskStore :=
  { s with maps := s.maps.set key value }.writeOp 83 [key, value]

/-- `Del`. -/
def del (s : BitcaskStore) (key : GoString) : BitcaskStore :=
  { s with maps := s.maps.del key }.writeOp 68 [key]

/-- `HSet`. -/
def hset (s : BitcaskStore) (hash key value : GoString) : BitcaskStore :=
  { s with maps := s.maps.hset hash key value }.writeOp 72 [hash, key, value]

/-- A call that changes the store. -/
def call (s : BitcaskStore) : BitcaskOp → BitcaskStore
  | .set key value => s.set key value
  | .del key => s.del key
  | .hset hash key value => s.hset hash key value

theorem call_eq (s : BitcaskStore) (op : BitcaskOp) :
    s.call op = ⟨s.file.write op.record, op.apply s.maps⟩ := by
  cases op <;> rfl

/-- `Get`. -/
def get (s : BitcaskStore) (key : GoString) : GoString × Bool := s.maps.get key

/-- `HGet`. -/
def hget (s : BitcaskStore) (hash key : GoString) : GoString × Bool := s.maps.hget hash key

/-- `HGetAll`. -/
def hgetAll (s : BitcaskStore) (hash : GoString) : Option (GoMap GoString) := s.maps.hgetAll hash

/-- `Close`, with the bytes that it leaves in the file. -/
def close (s : BitcaskStore) : GoString := s.file.bytes

instance : StoreInterface BitcaskStore where
  set := set
  get := get
  del := del
  hset := hset
  hget := hget
  hgetAll := hgetAll

instance : KeyedStore BitcaskStore where
  keys := fun s ↦ s.maps.keys
  keys_set := fun s key value ↦ KeyedStore.keys_set s.maps key value
  keys_del := fun s key ↦ KeyedStore.keys_del s.maps key
  keys_hset := fun s hash key value ↦ KeyedStore.keys_hset s.maps hash key value
  mem_keys_of_get := fun s key ↦ KeyedStore.mem_keys_of_get s.maps key

end BitcaskStore

/-! ### What the bytes of a log spell -/

theorem length_readStringAt_le (input : GoString) :
    (readStringAt input).2.length ≤ input.length := by
  unfold readStringAt
  cases hnumber : takeNumber 4 input with
  | none => exact Nat.le_refl _
  | some found =>
    obtain ⟨strLen, rest⟩ := found
    have hrest : rest.length ≤ input.length := by
      rw [(takeNumber_eq_some_iff.mp hnumber).2, List.length_append]
      exact Nat.le_add_left _ _
    dsimp only
    by_cases hzero : strLen = 0
    · rw [if_pos hzero]
      exact hrest
    · rw [if_neg hzero]
      cases hbytes : takeBytes strLen rest with
      | none => exact hrest
      | some found =>
        obtain ⟨s, last⟩ := found
        rw [(takeBytes_eq_some_iff.mp hbytes).2, List.length_append] at hrest
        exact (Nat.le_add_left _ _).trans hrest

theorem length_readOp_le (code : UInt8) (input : GoString) :
    (readOp code input).2.length ≤ input.length := by
  have hfirst := length_readStringAt_le input
  have hsecond := length_readStringAt_le (readStringAt input).2
  have hthird := length_readStringAt_le (readStringAt (readStringAt input).2).2
  unfold readOp
  split
  · exact hsecond.trans hfirst
  · split
    · exact hfirst
    · split
      · exact hthird.trans (hsecond.trans hfirst)
      · exact Nat.le_refl _

/-- The operations that bytes spell. -/
def readOps : GoString → List BitcaskOp
  | [] => []
  | code :: input => (readOp code input).1.toList ++ readOps (readOp code input).2
  termination_by input => input.length
  decreasing_by exact Nat.lt_succ_of_le (length_readOp_le code input)

/-- The loop applies the operations that the bytes spell. -/
theorem recoverLoop_eq {bound : ℕ} {input : GoString} (hbound : input.length < bound)
    (maps : MapStore) : recoverLoop bound input maps = .ok (applyOps maps (readOps input)) := by
  induction bound generalizing input maps with
  | zero => exact absurd hbound (Nat.not_lt_zero _)
  | succ bound ih =>
    cases input with
    | nil =>
      rw [readOps]
      rfl
    | cons code input =>
      have hshorter : (readOp code input).2.length < bound :=
        (length_readOp_le code input).trans_lt (Nat.lt_of_succ_lt_succ hbound)
      rw [recoverLoop, readOps, applyOps_append]
      revert hshorter
      rcases readOp code input with ⟨op, rest⟩
      intro hshorter
      refine (ih hshorter _).trans ?_
      cases op with
      | none => rfl
      | some op => rfl

theorem readStringAt_block {s : GoString} (hs : s.length < 2 ^ 32) (rest : GoString) :
    readStringAt (block 4 s ++ rest) = (s, rest) := by
  have hnumber : takeNumber 4 (block 4 s ++ rest) = some (s.length, s ++ rest) :=
    takeNumber_eq_some_iff.mpr ⟨hs, by rw [block, List.append_assoc]⟩
  rw [readStringAt, hnumber]
  dsimp only
  by_cases hzero : s.length = 0
  · rw [if_pos hzero, List.length_eq_zero_iff.mp hzero]
    rfl
  · have hbytes : takeBytes s.length (s ++ rest) = some (s, rest) :=
      takeBytes_eq_some_iff.mpr ⟨rfl, rfl⟩
    rw [if_neg hzero, hbytes]

section Switch

variable {input first second third a b c : GoString}

theorem readOp_set (ha : readStringAt input = (a, first)) (hb : readStringAt first = (b, second)) :
    readOp 83 input = (some (.set a b), second) := by
  simp only [readOp, if_pos, ha, hb]

theorem readOp_del (ha : readStringAt input = (a, first)) :
    readOp 68 input = (some (.del a), first) := by
  have hset : ¬ (68 : UInt8) = 83 := by decide
  simp only [readOp, if_neg hset, if_pos, ha]

theorem readOp_hset (ha : readStringAt input = (a, first)) (hb : readStringAt first = (b, second))
    (hc : readStringAt second = (c, third)) :
    readOp 72 input = (some (.hset a b c), third) := by
  have hset : ¬ (72 : UInt8) = 83 := by decide
  have hdel : ¬ (72 : UInt8) = 68 := by decide
  simp only [readOp, if_neg hset, if_neg hdel, if_pos, ha, hb, hc]

end Switch

/-- A record is read back. -/
theorem readOp_record {op : BitcaskOp} (hop : op.Short) (rest : GoString) :
    readOp op.code (op.parts.flatMap (block 4) ++ rest) = (some op, rest) := by
  have hpart {part : GoString} (hmem : part ∈ op.parts) (rest : GoString) :
      readStringAt (block 4 part ++ rest) = (part, rest) := readStringAt_block (hop part hmem) rest
  cases op with
  | set key value =>
    have hparts : (BitcaskOp.set key value).parts.flatMap (block 4) ++ rest =
        block 4 key ++ (block 4 value ++ rest) := by simp [BitcaskOp.parts]
    rw [hparts]
    exact readOp_set (hpart (by simp [BitcaskOp.parts]) _) (hpart (by simp [BitcaskOp.parts]) _)
  | del key =>
    have hparts : (BitcaskOp.del key).parts.flatMap (block 4) ++ rest = block 4 key ++ rest := by
      simp [BitcaskOp.parts]
    rw [hparts]
    exact readOp_del (hpart (by simp [BitcaskOp.parts]) _)
  | hset hash key value =>
    have hparts : (BitcaskOp.hset hash key value).parts.flatMap (block 4) ++ rest =
        block 4 hash ++ (block 4 key ++ (block 4 value ++ rest)) := by simp [BitcaskOp.parts]
    rw [hparts]
    exact readOp_hset (hpart (by simp [BitcaskOp.parts]) _) (hpart (by simp [BitcaskOp.parts]) _)
      (hpart (by simp [BitcaskOp.parts]) _)

/-- Records spell their operations, and what follows them spells the same as alone. -/
theorem readOps_records {ops : List BitcaskOp} (hops : ∀ op ∈ ops, op.Short) (rest : GoString) :
    readOps (ops.flatMap BitcaskOp.record ++ rest) = ops ++ readOps rest := by
  induction ops with
  | nil => rfl
  | cons op ops ih =>
    obtain ⟨hop, hothers⟩ := List.forall_mem_cons.mp hops
    rw [List.flatMap_cons, List.append_assoc, BitcaskOp.record, List.cons_append, readOps,
      readOp_record hop, ih hothers]
    rfl

/-! ### Sessions -/

namespace BitcaskStore

/-- What happens to a store: a call that changes it, or that it is closed and opened again. -/
inductive Event
  | call (op : BitcaskOp)
  | reopen

/-- The effect of an event. -/
def step (s : BitcaskStore) : Event → Except BitcaskError BitcaskStore
  | .call op => .ok (s.call op)
  | .reopen => openStore s.close

/-- A run of sessions on a file that does not exist before. -/
def run (events : List Event) : Except BitcaskError BitcaskStore := do
  events.foldlM step (← openStore [])

/-- The file consists of the records of operations, the maps are what the operations leave, and the
next record is appended. -/
structure Logged (s : BitcaskStore) (ops : List BitcaskOp) : Prop where
  atEnd : s.file.AtEnd
  bytes : s.file.bytes = bitcaskMagic ++ ops.flatMap BitcaskOp.record
  maps : s.maps = applyOps .new ops

theorem Logged.call {s : BitcaskStore} {ops : List BitcaskOp} (h : s.Logged ops) (op : BitcaskOp) :
    (s.call op).Logged (ops ++ [op]) := by
  rw [call_eq]
  refine ⟨h.atEnd.write _, ?_, ?_⟩
  · rw [File.bytes_write_atEnd h.atEnd, h.bytes, List.flatMap_append, List.flatMap_singleton,
      List.append_assoc]
  · rw [applyOps_append, ← h.maps]
    rfl

theorem openStore_nil : ∃ s, openStore [] = .ok s ∧ s.Logged [] :=
  ⟨_, rfl, rfl, rfl, rfl⟩

/-- A file that starts with the magic bytes is opened, and the maps are what the bytes behind them
spell. -/
theorem openStore_magic (log : GoString) :
    openStore (bitcaskMagic ++ log) =
      .ok ⟨⟨bitcaskMagic ++ log, (bitcaskMagic ++ log).length⟩, applyOps .new (readOps log)⟩ := by
  have hne : bitcaskMagic ++ log ≠ [] := nofun
  have hlength : ¬ (bitcaskMagic ++ log).length < bitcaskMagic.length := by
    rw [List.length_append]
    omega
  have hmagic : (bitcaskMagic ++ log).take bitcaskMagic.length = bitcaskMagic := List.take_left
  have hloop : recoverLoop ((bitcaskMagic ++ log).length + 1) log .new =
      .ok (applyOps .new (readOps log)) := by
    refine recoverLoop_eq ?_ _
    rw [List.length_append]
    omega
  unfold openStore recover
  simp only [File.openFile, if_neg hne, if_neg hlength, hmagic, List.drop_left, hloop]
  rfl

/-- A store that is opened on what another one has left has the same maps. -/
theorem Logged.openStore {s : BitcaskStore} {ops : List BitcaskOp} (h : s.Logged ops)
    (hops : ∀ op ∈ ops, op.Short) :
    ∃ again, BitcaskStore.openStore s.file.bytes = .ok again ∧ again.Logged ops := by
  have hread : readOps (ops.flatMap BitcaskOp.record) = ops := by
    have hrecords := readOps_records hops []
    rwa [List.append_nil, readOps, List.append_nil] at hrecords
  refine ⟨_, (congrArg BitcaskStore.openStore h.bytes).trans (openStore_magic _), rfl, rfl, ?_⟩
  rw [hread]

theorem Logged.step {s : BitcaskStore} {ops : List BitcaskOp} (h : s.Logged ops)
    (hops : ∀ op ∈ ops, op.Short) {event : Event} (hevent : ∀ op, event = .call op → op.Short) :
    ∃ after ops', s.step event = .ok after ∧ after.Logged ops' ∧ ∀ op ∈ ops', op.Short := by
  cases event with
  | call op =>
    refine ⟨_, _, rfl, h.call op, List.forall_mem_append.mpr ⟨hops, ?_⟩⟩
    exact List.forall_mem_singleton.mpr (hevent op rfl)
  | reopen =>
    obtain ⟨again, hagain, hlogged⟩ := h.openStore hops
    exact ⟨again, ops, hagain, hlogged, hops⟩

/-- A run from a store that is in step with its log. -/
theorem Logged.run {s : BitcaskStore} {ops : List BitcaskOp} (h : s.Logged ops)
    (hops : ∀ op ∈ ops, op.Short) {events : List Event}
    (hevents : ∀ op, .call op ∈ events → op.Short) :
    ∃ after ops', events.foldlM BitcaskStore.step s = .ok after ∧ after.Logged ops' ∧
      ∀ op ∈ ops', op.Short := by
  induction events generalizing s ops with
  | nil => exact ⟨s, ops, rfl, h, hops⟩
  | cons event events ih =>
    obtain ⟨middle, ops', hstep, hmiddle, hops'⟩ := h.step hops fun op hop ↦
      hevents op (hop ▸ List.mem_cons_self)
    obtain ⟨after, ops'', hrun, hafter⟩ := ih hmiddle hops' fun op hop ↦
      hevents op (List.mem_cons_of_mem event hop)
    refine ⟨after, ops'', ?_, hafter⟩
    rw [List.foldlM_cons, hstep, ok_bind, hrun]

/-- At every point of any number of sessions on one file, a store that is opened on the current file
has the strings and the hashes of the one that has written it, and answers like it. Assumes: the
strings are shorter than 2^32 bytes. -/
theorem bitcask_recover_eq {events : List Event} (hevents : ∀ op, .call op ∈ events → op.Short) :
    ∃ s again, BitcaskStore.run events = .ok s ∧ openStore s.file.bytes = .ok again ∧
      again.maps.strings = s.maps.strings ∧ again.maps.hashes = s.maps.hashes ∧
      (∀ key, again.get key = s.get key) ∧ (∀ hash key, again.hget hash key = s.hget hash key) ∧
      ∀ hash, again.hgetAll hash = s.hgetAll hash := by
  obtain ⟨first, hfirst, hlogged⟩ := openStore_nil
  obtain ⟨s, ops, hs, hlogged, hops⟩ := hlogged.run nofun hevents
  obtain ⟨again, hagain, hsame⟩ := hlogged.openStore hops
  have hmaps : again.maps = s.maps := hsame.maps.trans hlogged.maps.symm
  refine ⟨s, again, ?_, hagain, congrArg _ hmaps, congrArg _ hmaps, fun key ↦ ?_,
    fun hash key ↦ ?_, fun hash ↦ ?_⟩
  · rw [BitcaskStore.run, hfirst, ok_bind, hs]
  · rw [get, get, hmaps]
  · rw [hget, hget, hmaps]
  · rw [hgetAll, hgetAll, hmaps]

/-- Strings that contain the bytes of operations, and the empty string, in two sessions. -/
theorem bitcask_recover_eq_bytes : ∃ s again,
    BitcaskStore.run [.call (.set (text "S") (text "DH")), .call (.hset [] (text "D") []), .reopen,
      .call (.del (text "S"))] = .ok s ∧
    openStore s.file.bytes = .ok again ∧ again.maps.strings = s.maps.strings := by
  have hshort : ∀ op, Event.call op ∈ [Event.call (.set (text "S") (text "DH")),
      .call (.hset [] (text "D") []), .reopen, .call (.del (text "S"))] → op.Short := by
    intro op hop
    have hcases : op = .set (text "S") (text "DH") ∨ op = .hset [] (text "D") [] ∨
        op = .del (text "S") := by simpa using hop
    rcases hcases with rfl | rfl | rfl <;> decide
  obtain ⟨s, again, hs, hagain, hstrings, -⟩ := bitcask_recover_eq hshort
  exact ⟨s, again, hs, hagain, hstrings⟩

end BitcaskStore

end FluxCache.Store
