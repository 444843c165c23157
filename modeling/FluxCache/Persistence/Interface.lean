import FluxCache.Store.Slots

/-!
# The interface of a persistence

A persistence is opened on what an earlier session has left on the disk. It is then written to, it
replays what it holds, and it is closed. What it leaves on the disk is what the next session finds.

A log is a persistence that keeps all commands in the order in which they were written
(`LogInterface`). It passes on what was written as long as that is `Readable`, which every log
says for itself.
-/

set_option autoImplicit false
set_option relaxedAutoImplicit false

namespace FluxCache.Persistence

open Foundation Store

/-- `Command`. -/
structure Command where
  name : GoString
  args : List GoString
  deriving DecidableEq

/-- The command with its name in upper case. -/
def Command.upper (mapUpper : GoString → GoString) (cmd : Command) : Command :=
  { cmd with name := toUpper mapUpper cmd.name }

theorem map_upper_eq_self (mapUpper : GoString → GoString) {cmds : List Command}
    (hcmds : ∀ cmd ∈ cmds, IsUpper cmd.name) : cmds.map (Command.upper mapUpper) = cmds := by
  refine (List.map_congr_left fun cmd hcmd ↦ ?_).trans (List.map_id cmds)
  rw [Command.upper, toUpper_eq_self mapUpper (hcmds cmd hcmd)]
  rfl

/-- The write of a `SET`. Further arguments are ignored. -/
def setWrite : List GoString → Option Write
  | key :: value :: _ => some (.set key value)
  | _ => none

/-- The write of an `HSET`. Further arguments are ignored. -/
def replayHset : List GoString → Option Write
  | hash :: key :: value :: _ => some (.hset hash key value)
  | _ => none

/-- The write that a command stands for when it is replayed, if it does. -/
def replayWrite (cmd : Command) : Option Write :=
  if cmd.name = text "SET" then setWrite cmd.args
  else if cmd.name = text "HSET" then replayHset cmd.args
  else none

/-- A switch on the name of a command that acts on a `SET` with two arguments or more and on an
`HSET` with three or more acts on the writes that commands stand for. -/
theorem switch_eq {α : Type} (cmd : Command) (act : Write → α) (other : α) :
    (if cmd.name = text "SET" then
      match cmd.args with
      | key :: value :: _ => act (.set key value)
      | _ => other
    else if cmd.name = text "HSET" then
      match cmd.args with
      | hash :: key :: value :: _ => act (.hset hash key value)
      | _ => other
    else other) = (replayWrite cmd).elim other act := by
  obtain ⟨name, args⟩ := cmd
  unfold replayWrite
  by_cases hset : name = text "SET"
  · rw [if_pos hset, if_pos hset]
    match args with
    | [] => rfl
    | [_] => rfl
    | _ :: _ :: _ => rfl
  · rw [if_neg hset, if_neg hset]
    by_cases hhset : name = text "HSET"
    · rw [if_pos hhset, if_pos hhset]
      match args with
      | [] => rfl
      | [_] => rfl
      | [_, _] => rfl
      | _ :: _ :: _ :: _ => rfl
    · rw [if_neg hhset, if_neg hhset]
      rfl

/-- What the commands leave in empty maps when they are applied in their order. -/
def contents (cmds : List Command) : MapStore := writeAll MapStore.new (cmds.filterMap replayWrite)

theorem noEmptyHash_contents (cmds : List Command) : (contents cmds).NoEmptyHash :=
  noEmptyHash_writeAll _

theorem contents_append (cmds : List Command) (cmd : Command) :
    contents (cmds ++ [cmd]) =
      (replayWrite cmd).elim (contents cmds) (Write.apply (contents cmds)) := by
  rw [contents, List.filterMap_append, List.filterMap_cons]
  cases replayWrite cmd with
  | none => rw [List.filterMap_nil, List.append_nil]; rfl
  | some w => rw [List.filterMap_nil, writeAll_append]; rfl

/-- The `Persistence` interface. A replay gives the commands that it passes to its argument; `tick`
is what the background loop does at one of its ticks. -/
class PersistenceInterface (δ : outParam Type) (π : Type) where
  openDisk : δ → π
  write : π → Command → π
  replay : (GoString → GoString) → π → Outcome (List Command × π)
  tick : π → π
  close : π → δ

/-- A log: what it means that some commands have been written to it, how the calls keep that, and
which commands the next session reads as they were written. -/
class LogInterface (π : Type) extends PersistenceInterface GoString π where
  Written : π → List Command → Prop
  Readable : List Command → Prop
  exists_new : ∀ mapUpper, ∃ p, replay mapUpper (openDisk []) = .ok ([], p) ∧ Written p []
  written_write : ∀ {p log}, Written p log → ∀ cmd, Written (write p cmd) (log ++ [cmd])
  written_tick : ∀ {p log}, Written p log → Written (tick p) log
  exists_reopen : ∀ {p log}, Written p log → Readable log → ∀ mapUpper, ∃ after,
    replay mapUpper (openDisk (close p)) = .ok (log, after)

end FluxCache.Persistence
