import FluxCache.Foundation.File
import FluxCache.Persistence.Interface
import FluxCache.Resp.Delivery

/-!
# The append-only file

`AOF` writes every command to its file as an array of bulk values of the wire protocol, and `Replay`
reads the file with the reader of the protocol. The reader keeps its buffer from one value to the
next. It stops at the end of the file; any other error ends the replay as well, and then the offset
stays where the reader has come to.

The reader asks for the content of a bulk value with one read, so a content is complete only if it
arrives with that read (`BodiesArrive`). Commands whose contents arrive are replayed
(`replay_of_arrive`), and where the file goes on behind them they are still what is passed on first
(`CommandsArrive.ahead`, `isPrefix_of_aofLoop`).
-/

set_option autoImplicit false
set_option relaxedAutoImplicit false

namespace FluxCache.Persistence

open Foundation Resp

/-! ### The file -/

/-- `AOF`. -/
structure AOF where
  file : File
  deriving DecidableEq

/-- `NewAOF` on a file with some content. -/
def NewAOF (bytes : GoString) : AOF := ⟨.openFile bytes⟩

/-- The bulk values of a command. -/
def Command.bulks (cmd : Command) : List GoString := cmd.name :: cmd.args

/-- The bytes of a command in the file. -/
def aofRecord (cmd : Command) : GoString := (command cmd.bulks).marshal

/-- The command of a value that has been read, if it is an array that is not empty. -/
def commandOf (mapUpper : GoString → GoString) (value : Value) : Option Command :=
  match value.type, value.array with
  | .array, first :: args => some ⟨toUpper mapUpper first.bulk, args.map Value.bulk⟩
  | _, _ => none

/-- The loop of `AOF.Replay`: the commands that it passes to its argument, the error that ends it
and the reader at that point. -/
def aofLoop (mapUpper : GoString → GoString) :
    ℕ → Reader UInt8 → Outcome (List Command × ReadError × Reader UInt8)
  | 0, _ => .error .exhausted
  | bound + 1, r => do
    let result ← read r
    match result.err with
    | some err => return ([], err, result.reader)
    | none =>
      let (cmds, err, r) ← aofLoop mapUpper bound result.reader
      return ((commandOf mapUpper result.value).toList ++ cmds, err, r)

namespace AOF

/-- `Write`. -/
def write (a : AOF) (cmd : Command) : AOF := ⟨a.file.write (aofRecord cmd)⟩

/-- `Replay`. A file is a source that gives as much as it is asked for, up to its end. -/
def replay (mapUpper : GoString → GoString) (a : AOF) : Outcome (List Command × AOF) := do
  let bytes := a.file.bytes
  let (cmds, err, r) ← aofLoop mapUpper (bytes.length + 1) (newResp (.ofChunks [bytes]))
  let file := match err with
    | .eof => a.file.seekEnd
    | .number _ => { a.file with offset := bytes.length - r.source.content.length }
  return (cmds, ⟨file⟩)

/-- `Close`, with the bytes that it leaves in the file. -/
def close (a : AOF) : GoString := a.file.bytes

/-- The tick of the background loop only syncs the file. -/
instance : PersistenceInterface GoString AOF where
  openDisk := NewAOF
  write := write
  replay := replay
  tick := id
  close := close

end AOF

/-! ### The replay -/

/-- The numbers of bulk values and of their bytes fit in 64 bits. -/
structure Command.Sized (cmd : Command) : Prop where
  count : IsInt64 cmd.bulks.length
  bulk : ∀ bulk ∈ cmd.bulks, IsInt64 bulk.length

instance (cmd : Command) : Decidable cmd.Sized :=
  decidable_of_iff (IsInt64 cmd.bulks.length ∧ ∀ bulk ∈ cmd.bulks, IsInt64 bulk.length)
    ⟨fun h ↦ ⟨h.1, h.2⟩, fun h ↦ ⟨h.count, h.bulk⟩⟩

/-- Every content of the commands arrives with the read that asks for it. -/
def CommandsArrive : List Command → Reader UInt8 → Prop
  | [], _ => True
  | cmd :: cmds, r =>
    BodiesArrive cmd.bulks (atArray cmd.bulks r) ∧
      CommandsArrive cmds (afterBodies cmd.bulks (atArray cmd.bulks r))

instance decidableCommandsArrive : (cmds : List Command) → (r : Reader UInt8) →
    Decidable (CommandsArrive cmds r)
  | [], _ => isTrue trivial
  | _ :: cmds, _ => @instDecidableAnd _ _ _ (decidableCommandsArrive cmds _)

theorem commandOf_command (mapUpper : GoString → GoString) (cmd : Command) :
    commandOf mapUpper (command cmd.bulks) = some (cmd.upper mapUpper) := by
  have hargs : (cmd.args.map Value.ofBulk).map Value.bulk = cmd.args := by
    rw [List.map_map]
    exact List.map_id cmd.args
  show some (⟨_, (cmd.args.map Value.ofBulk).map Value.bulk⟩ : Command) = _
  rw [hargs]
  rfl

/-- A turn of the loop on a command. -/
theorem aofLoop_command (mapUpper : GoString → GoString) {cmd : Command} {r next : Reader UInt8}
    (hread : read r = .ok ⟨command cmd.bulks, none, next⟩) (bound : ℕ) :
    aofLoop mapUpper (bound + 1) r = (do
      let (cmds, err, after) ← aofLoop mapUpper bound next
      return (cmd.upper mapUpper :: cmds, err, after)) := by
  rw [aofLoop, hread, ok_bind, commandOf_command]
  rfl

theorem aofLoop_end (mapUpper : GoString → GoString) {r : Reader UInt8} (hunread : r.unread = [])
    (bound : ℕ) : aofLoop mapUpper (bound + 1) r = .ok ([], .eof, r) := by
  rw [aofLoop, read_end hunread]
  rfl

/-- The loop goes through commands that arrive. -/
theorem aofLoop_of_arrive (mapUpper : GoString → GoString) {cmds : List Command}
    {r : Reader UInt8} {bound : ℕ} (hsized : ∀ cmd ∈ cmds, cmd.Sized)
    (hunread : r.unread = cmds.flatMap aofRecord) (harrive : CommandsArrive cmds r)
    (hbound : cmds.length < bound) :
    ∃ after, aofLoop mapUpper bound r = .ok (cmds.map (Command.upper mapUpper), .eof, after) := by
  induction cmds generalizing r bound with
  | nil =>
    obtain ⟨bound, rfl⟩ := Nat.exists_eq_add_of_le' (Nat.one_le_of_lt hbound)
    exact ⟨r, aofLoop_end mapUpper hunread bound⟩
  | cons cmd cmds ih =>
    obtain ⟨bound, rfl⟩ := Nat.exists_eq_add_of_le' (Nat.one_le_of_lt hbound)
    obtain ⟨hcmd, hothers⟩ := List.forall_mem_cons.mp hsized
    obtain ⟨hread, hrest⟩ := read_array_of_arrive hcmd.count hcmd.bulk hunread harrive.1
    obtain ⟨after, hloop⟩ := ih hothers hrest harrive.2 (Nat.lt_of_succ_lt_succ hbound)
    refine ⟨after, ?_⟩
    rw [aofLoop_command mapUpper hread, hloop]
    rfl

/-- Commands that arrive are passed on first, whatever follows them. -/
theorem isPrefix_of_aofLoop (mapUpper : GoString → GoString) {cmds all : List Command}
    {r after : Reader UInt8} {bound : ℕ} {rest : GoString} {err : ReadError}
    (hsized : ∀ cmd ∈ cmds, cmd.Sized) (hunread : r.unread = cmds.flatMap aofRecord ++ rest)
    (harrive : CommandsArrive cmds r) (hloop : aofLoop mapUpper bound r = .ok (all, err, after)) :
    cmds.map (Command.upper mapUpper) <+: all := by
  induction cmds generalizing r bound all err after with
  | nil => exact List.nil_prefix
  | cons cmd cmds ih =>
    cases bound with
    | zero => exact absurd hloop nofun
    | succ bound =>
      obtain ⟨hcmd, hothers⟩ := List.forall_mem_cons.mp hsized
      rw [List.flatMap_cons, List.append_assoc] at hunread
      obtain ⟨hread, hrest⟩ := read_array_of_arrive hcmd.count hcmd.bulk hunread harrive.1
      rw [aofLoop_command mapUpper hread] at hloop
      obtain ⟨⟨later, err, after⟩, hlater, hreturn⟩ := bind_eq_ok_iff.mp hloop
      obtain ⟨rfl, -⟩ := Prod.mk.inj (Except.ok.inj hreturn)
      exact (List.prefix_cons_inj _).mpr (ih hothers hrest harrive.2 hlater)

/-- Commands that arrive from a file arrive as well when the file goes on. -/
theorem CommandsArrive.ahead {cmds : List Command} {r s : Reader UInt8} {tail more : GoString}
    (harrive : CommandsArrive cmds r) (hunread : r.unread = cmds.flatMap aofRecord ++ tail)
    (h : r.Ahead more s) : CommandsArrive cmds s := by
  induction cmds generalizing r s with
  | nil => trivial
  | cons cmd cmds ih =>
    rw [List.flatMap_cons, List.append_assoc] at hunread
    have hat : (atArray cmd.bulks r).Ahead more (atArray cmd.bulks s) := by
      refine h.consume ?_
      rw [hunread, aofRecord, marshal_command]
      simp only [marshalLine, List.length_cons, List.length_append]
      omega
    have helements := unread_atArray hunread
    obtain ⟨hcmd, hafter⟩ := harrive.1.ahead helements hat
    exact ⟨hcmd, ih harrive.2 (unread_afterBodies helements harrive.1) hafter⟩

theorem aofRecord_ne_nil (cmd : Command) : aofRecord cmd ≠ [] := by
  rw [aofRecord, marshal_command]
  exact List.cons_ne_nil _ _

theorem length_aofRecords_le (cmds : List Command) :
    cmds.length ≤ (cmds.flatMap aofRecord).length :=
  length_le_length_flatMap aofRecord fun cmd _ ↦ aofRecord_ne_nil cmd

namespace AOF

/-- Commands that arrive are replayed, and the next write appends. -/
theorem replay_of_arrive (mapUpper : GoString → GoString) {a : AOF} {cmds : List Command}
    (hbytes : a.file.bytes = cmds.flatMap aofRecord) (hsized : ∀ cmd ∈ cmds, cmd.Sized)
    (harrive : CommandsArrive cmds (newResp (.ofChunks [a.file.bytes]))) :
    a.replay mapUpper = .ok (cmds.map (Command.upper mapUpper), ⟨a.file.seekEnd⟩) := by
  have hunread : (newResp (.ofChunks [a.file.bytes])).unread = cmds.flatMap aofRecord := by
    rw [unread_newResp, hbytes]
    exact Source.content_file _
  have hbound : cmds.length < a.file.bytes.length + 1 := by
    rw [hbytes]
    exact Nat.lt_succ_of_le (length_aofRecords_le cmds)
  obtain ⟨after, hloop⟩ := aofLoop_of_arrive mapUpper hsized hunread harrive hbound
  exact bind_eq_ok_iff.mpr ⟨_, hloop, rfl⟩

/-- The file holds the commands written, and the next write appends. -/
structure Written (a : AOF) (log : List Command) : Prop where
  atEnd : a.file.AtEnd
  records : a.file.bytes = log.flatMap aofRecord

theorem Written.write {a : AOF} {log : List Command} (h : a.Written log) (cmd : Command) :
    (a.write cmd).Written (log ++ [cmd]) where
  atEnd := h.atEnd.write _
  records := by
    rw [List.flatMap_append, ← h.records, List.flatMap_singleton]
    exact File.bytes_write_atEnd h.atEnd _

/-- The commands that are replayed as they were written: their names are in upper case, and what one
read of the file makes of each content is that content. -/
structure Readable (log : List Command) : Prop where
  upper : ∀ cmd ∈ log, IsUpper cmd.name
  sized : ∀ cmd ∈ log, cmd.Sized
  arrive : CommandsArrive log (newResp (.ofChunks [log.flatMap aofRecord]))

instance (log : List Command) : Decidable (Readable log) :=
  decidable_of_iff ((∀ cmd ∈ log, IsUpper cmd.name) ∧ (∀ cmd ∈ log, cmd.Sized) ∧
      CommandsArrive log (newResp (.ofChunks [log.flatMap aofRecord])))
    ⟨fun h ↦ ⟨h.1, h.2.1, h.2.2⟩, fun h ↦ ⟨h.upper, h.sized, h.arrive⟩⟩

/-- The file of readable commands is replayed as it was written. -/
theorem replay_NewAOF (mapUpper : GoString → GoString) {log : List Command} (hlog : Readable log) :
    ∃ a, (NewAOF (log.flatMap aofRecord)).replay mapUpper = .ok (log, a) ∧ a.Written log := by
  have hreplay := @replay_of_arrive mapUpper (NewAOF (log.flatMap aofRecord)) log rfl hlog.sized
    hlog.arrive
  rw [map_upper_eq_self mapUpper hlog.upper] at hreplay
  exact ⟨_, hreplay, rfl, rfl⟩

instance : LogInterface AOF where
  Written := Written
  Readable := Readable
  exists_new := fun _ ↦ ⟨NewAOF [], rfl, rfl, rfl⟩
  written_write := Written.write
  written_tick := id
  exists_reopen := fun {p log} h hlog mapUpper ↦ by
    obtain ⟨a, hreplay, -⟩ := replay_NewAOF mapUpper hlog
    rw [← h.records] at hreplay
    exact ⟨a, hreplay⟩

end AOF

end FluxCache.Persistence
