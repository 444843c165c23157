import FluxCache.Foundation.BigEndian
import FluxCache.Foundation.Records
import FluxCache.Persistence.Interface

/-!
# The records of the write-ahead log

A command is written as its name behind a length of two bytes, the number of its arguments in two
bytes, and each argument behind a length of four (`marshalCommand`). `unmarshalCommand` takes a
command from the front of the data; where the data is too short it returns the data as it was, and
an empty command.

`unmarshalRecord_eq_some_iff` describes the decoder: it succeeds exactly on the data that starts
with the record of a command that `Fits` the widths of the fields. The loop of `Replay` decodes
until no data is left. It goes through whole records (`replayLoop_records`) and passes them on first
(`isPrefix_of_replayLoop`), and it ends exactly if the data consists of whole records: where a
record is cut short the loop decodes the same data for ever.
-/

set_option autoImplicit false
set_option relaxedAutoImplicit false

namespace FluxCache.Persistence

open Foundation

namespace Command

/-- The name, the arguments and their number fit the widths of their fields. -/
structure Fits (cmd : Command) : Prop where
  name_lt : cmd.name.length < 2 ^ 16
  args_lt : cmd.args.length < 2 ^ 16
  arg_lt : ∀ arg ∈ cmd.args, arg.length < 2 ^ 32

/-- A command that is read back as it was written: it fits, and its name is an upper case one. -/
structure Encodable (cmd : Command) : Prop extends Fits cmd where
  name_ne : cmd.name ≠ []
  name_upper : IsUpper cmd.name

instance (cmd : Command) : Decidable cmd.Fits :=
  decidable_of_iff (cmd.name.length < 2 ^ 16 ∧ cmd.args.length < 2 ^ 16 ∧
      ∀ arg ∈ cmd.args, arg.length < 2 ^ 32)
    ⟨fun h ↦ ⟨h.1, h.2.1, h.2.2⟩, fun h ↦ ⟨h.name_lt, h.args_lt, h.arg_lt⟩⟩

instance (cmd : Command) : Decidable cmd.Encodable :=
  decidable_of_iff (cmd.Fits ∧ cmd.name ≠ [] ∧ IsUpper cmd.name)
    ⟨fun h ↦ ⟨h.1, h.2.1, h.2.2⟩, fun h ↦ ⟨h.toFits, h.name_ne, h.name_upper⟩⟩

end Command

/-- `marshalCommand`. Of a length that does not fit only the last digits are written. -/
def marshalCommand (cmd : Command) : GoString :=
  block 2 cmd.name ++ (toBytes 2 cmd.args.length ++ cmd.args.flatMap (block 4))

/-- The checks of `unmarshalCommand`, in their order. -/
def unmarshalRecord (data : GoString) : Option (Command × GoString) :=
  if data.length < 4 then none
  else do
    let (name, rest) ← takeBlock 2 data
    let (argCount, rest) ← takeNumber 2 rest
    let (args, rest) ← takeMany (takeBlock 4) argCount rest
    return (⟨name, args⟩, rest)

/-- `unmarshalCommand`. -/
def unmarshalCommand (mapUpper : GoString → GoString) (data : GoString) : Command × GoString :=
  match unmarshalRecord data with
  | none => (⟨[], []⟩, data)
  | some (cmd, rest) => (cmd.upper mapUpper, rest)

/-- The loop of `WAL.Replay`: the commands that it passes to its argument. -/
def replayLoop (mapUpper : GoString → GoString) : ℕ → GoString → Outcome (List Command)
  | 0, _ => .error .exhausted
  | bound + 1, data =>
    if data = [] then return []
    else do
      let (cmd, rest) := unmarshalCommand mapUpper data
      let later ← replayLoop mapUpper bound rest
      return if cmd.name = [] then later else cmd :: later

/-! ### The decoder -/

theorem four_le_length_marshalCommand (cmd : Command) : 4 ≤ (marshalCommand cmd).length := by
  simp only [marshalCommand, block, List.length_append, length_toBytes]
  omega

theorem marshalCommand_ne_nil (cmd : Command) : marshalCommand cmd ≠ [] := by
  have hlength := four_le_length_marshalCommand cmd
  intro hnil
  rw [hnil] at hlength
  exact absurd hlength (by decide)

theorem takeArgs_eq_some_iff {n : ℕ} {input rest : GoString} {args : List GoString} :
    takeMany (takeBlock 4) n input = some (args, rest) ↔
      args.length = n ∧ (∀ arg ∈ args, arg.length < 2 ^ 32) ∧
        input = args.flatMap (block 4) ++ rest :=
  takeMany_eq_some_iff fun _ _ _ ↦ takeBlock_eq_some_iff

/-- The decoder succeeds exactly on the data that starts with a record. -/
theorem unmarshalRecord_eq_some_iff {data rest : GoString} {cmd : Command} :
    unmarshalRecord data = some (cmd, rest) ↔ cmd.Fits ∧ data = marshalCommand cmd ++ rest := by
  unfold unmarshalRecord
  constructor
  · intro h
    by_cases hshort : data.length < 4
    · rw [if_pos hshort] at h
      exact absurd h (by simp)
    · rw [if_neg hshort] at h
      obtain ⟨⟨name, rest₁⟩, hname, h⟩ := Option.bind_eq_some_iff.mp h
      obtain ⟨⟨argCount, rest₂⟩, hcount, h⟩ := Option.bind_eq_some_iff.mp h
      obtain ⟨⟨args, rest₃⟩, hargs, h⟩ := Option.bind_eq_some_iff.mp h
      obtain ⟨rfl, rfl⟩ := Prod.mk.inj (Option.some.inj h)
      obtain ⟨hnameLt, rfl⟩ := takeBlock_eq_some_iff.mp hname
      obtain ⟨hcountLt, rfl⟩ := takeNumber_eq_some_iff.mp hcount
      obtain ⟨rfl, hargLt, rfl⟩ := takeArgs_eq_some_iff.mp hargs
      refine ⟨⟨hnameLt, hcountLt, hargLt⟩, ?_⟩
      simp only [marshalCommand, List.append_assoc]
  · rintro ⟨hfits, rfl⟩
    have hlong : ¬ (marshalCommand cmd ++ rest).length < 4 := by
      have hlength := four_le_length_marshalCommand cmd
      rw [List.length_append]
      omega
    have hname : takeBlock 2 (marshalCommand cmd ++ rest) =
        some (cmd.name, toBytes 2 cmd.args.length ++ (cmd.args.flatMap (block 4) ++ rest)) :=
      takeBlock_eq_some_iff.mpr
        ⟨hfits.name_lt, by simp only [marshalCommand, List.append_assoc]⟩
    have hcount := takeNumber_eq_some_iff.mpr
      ⟨hfits.args_lt, (rfl : _ = toBytes 2 cmd.args.length ++ (cmd.args.flatMap (block 4) ++ rest))⟩
    have hargs := takeArgs_eq_some_iff.mpr
      ⟨rfl, hfits.arg_lt, (rfl : _ = cmd.args.flatMap (block 4) ++ rest)⟩
    rw [if_neg hlong]
    exact Option.bind_eq_some_iff.mpr ⟨_, hname, Option.bind_eq_some_iff.mpr
      ⟨_, hcount, Option.bind_eq_some_iff.mpr ⟨_, hargs, rfl⟩⟩⟩

theorem unmarshalCommand_marshal (mapUpper : GoString → GoString) {cmd : Command}
    (hcmd : cmd.Fits) (rest : GoString) :
    unmarshalCommand mapUpper (marshalCommand cmd ++ rest) = (cmd.upper mapUpper, rest) := by
  rw [unmarshalCommand, unmarshalRecord_eq_some_iff.mpr ⟨hcmd, rfl⟩]

/-- A command is decoded as it was written exactly if it fits. Assumes: its name does. -/
theorem unmarshalCommand_marshal_iff (mapUpper : GoString → GoString) {cmd : Command}
    (hne : cmd.name ≠ []) (hupper : IsUpper cmd.name) (hname : cmd.name.length < 2 ^ 16)
    (rest : GoString) :
    unmarshalCommand mapUpper (marshalCommand cmd ++ rest) = (cmd, rest) ↔ cmd.Fits := by
  constructor
  · intro hdecoded
    unfold unmarshalCommand at hdecoded
    cases hrecord : unmarshalRecord (marshalCommand cmd ++ rest) with
    | none =>
      rw [hrecord] at hdecoded
      exact absurd (congrArg (fun decoded ↦ decoded.1.name) hdecoded).symm hne
    | some pair =>
      obtain ⟨raw, rest'⟩ := pair
      rw [hrecord] at hdecoded
      obtain ⟨hfits, -⟩ := unmarshalRecord_eq_some_iff.mp hrecord
      have hargs : raw.args = cmd.args := congrArg (fun decoded ↦ decoded.1.args) hdecoded
      exact ⟨hname, hargs ▸ hfits.args_lt, hargs ▸ hfits.arg_lt⟩
  · intro hfits
    rw [unmarshalCommand_marshal mapUpper hfits, Command.upper, toUpper_eq_self mapUpper hupper]

/-! ### The loop -/

/-- What `Replay` passes on of a list of records. -/
def delivered (mapUpper : GoString → GoString) (records : List Command) : List Command :=
  (records.map (Command.upper mapUpper)).filter fun cmd ↦ cmd.name ≠ []

theorem delivered_eq_self (mapUpper : GoString → GoString) {cmds : List Command}
    (hcmds : ∀ cmd ∈ cmds, cmd.Encodable) : delivered mapUpper cmds = cmds := by
  rw [delivered, map_upper_eq_self mapUpper fun cmd hcmd ↦ (hcmds cmd hcmd).name_upper]
  exact List.filter_eq_self.mpr fun cmd hcmd ↦ decide_eq_true (hcmds cmd hcmd).name_ne

theorem delivered_cons (mapUpper : GoString → GoString) (cmd : Command) (records : List Command) :
    delivered mapUpper (cmd :: records) =
      if (cmd.upper mapUpper).name = [] then delivered mapUpper records
      else cmd.upper mapUpper :: delivered mapUpper records := by
  by_cases hname : (cmd.upper mapUpper).name = []
  · simp [delivered, hname]
  · simp [delivered, hname]

/-- A turn of the loop. -/
theorem replayLoop_succ (mapUpper : GoString → GoString) (bound : ℕ) {data : GoString}
    (hdata : data ≠ []) :
    replayLoop mapUpper (bound + 1) data =
      replayLoop mapUpper bound (unmarshalCommand mapUpper data).2 >>= fun later ↦
        .ok (if (unmarshalCommand mapUpper data).1.name = [] then later
          else (unmarshalCommand mapUpper data).1 :: later) := by
  rw [replayLoop, if_neg hdata]
  rfl

/-- The loop goes through whole records. -/
theorem replayLoop_records (mapUpper : GoString → GoString) {records : List Command} {bound : ℕ}
    (hrecords : ∀ cmd ∈ records, cmd.Fits) (hbound : records.length < bound) :
    replayLoop mapUpper bound (records.flatMap marshalCommand) =
      .ok (delivered mapUpper records) := by
  induction records generalizing bound with
  | nil =>
    obtain ⟨bound, rfl⟩ := Nat.exists_eq_add_of_le' (Nat.one_le_of_lt hbound)
    rfl
  | cons cmd records ih =>
    obtain ⟨bound, rfl⟩ := Nat.exists_eq_add_of_le' (Nat.one_le_of_lt hbound)
    obtain ⟨hcmd, hothers⟩ := List.forall_mem_cons.mp hrecords
    have hne : marshalCommand cmd ++ records.flatMap marshalCommand ≠ [] :=
      List.append_ne_nil_of_left_ne_nil (marshalCommand_ne_nil cmd) _
    rw [List.flatMap_cons, replayLoop_succ mapUpper bound hne,
      unmarshalCommand_marshal mapUpper hcmd, delivered_cons]
    rw [ih hothers (Nat.lt_of_succ_lt_succ hbound)]
    rfl

/-- Encodable commands are passed on first, whatever follows them. -/
theorem isPrefix_of_replayLoop (mapUpper : GoString → GoString) {log cmds : List Command}
    {bound : ℕ} {rest : GoString} (hlog : ∀ cmd ∈ log, cmd.Encodable)
    (hloop : replayLoop mapUpper bound (log.flatMap marshalCommand ++ rest) = .ok cmds) :
    log <+: cmds := by
  induction log generalizing bound cmds with
  | nil => exact List.nil_prefix
  | cons cmd log ih =>
    cases bound with
    | zero => exact absurd hloop nofun
    | succ bound =>
      obtain ⟨hcmd, hothers⟩ := List.forall_mem_cons.mp hlog
      have hupper : cmd.upper mapUpper = cmd := by
        rw [Command.upper, toUpper_eq_self mapUpper hcmd.name_upper]
      rw [List.flatMap_cons, List.append_assoc, replayLoop_succ mapUpper bound
        (List.append_ne_nil_of_left_ne_nil (marshalCommand_ne_nil cmd) _),
        unmarshalCommand_marshal mapUpper hcmd.toFits, hupper] at hloop
      obtain ⟨later, hlater, hreturn⟩ := bind_eq_ok_iff.mp hloop
      rw [if_neg hcmd.name_ne] at hreturn
      obtain rfl := Except.ok.inj hreturn
      exact (List.prefix_cons_inj cmd).mpr (ih hothers hlater)

theorem length_records_le (records : List Command) :
    records.length ≤ (records.flatMap marshalCommand).length :=
  length_le_length_flatMap marshalCommand fun cmd _ ↦ marshalCommand_ne_nil cmd

/-- Decoding again and again goes through the records one by one. -/
theorem iterate_unmarshalCommand (mapUpper : GoString → GoString) {records : List Command}
    (hrecords : ∀ cmd ∈ records, cmd.Fits) :
    (fun data ↦ (unmarshalCommand mapUpper data).2)^[records.length]
      (records.flatMap marshalCommand) = [] := by
  induction records with
  | nil => rfl
  | cons cmd records ih =>
    obtain ⟨hcmd, hothers⟩ := List.forall_mem_cons.mp hrecords
    rw [List.length_cons, Function.iterate_succ_apply, List.flatMap_cons,
      unmarshalCommand_marshal mapUpper hcmd]
    exact ih hothers

/-- If the loop ends, the data consists of whole records. -/
theorem exists_records_of_replayLoop {mapUpper : GoString → GoString} {bound : ℕ}
    {data : GoString} {cmds : List Command} (hloop : replayLoop mapUpper bound data = .ok cmds) :
    ∃ records : List Command, (∀ cmd ∈ records, cmd.Fits) ∧
      data = records.flatMap marshalCommand := by
  induction bound generalizing data cmds with
  | zero => exact absurd hloop (by simp [replayLoop])
  | succ bound ih =>
    by_cases hdata : data = []
    · exact ⟨[], by simp, hdata⟩
    · rw [replayLoop_succ mapUpper bound hdata] at hloop
      obtain ⟨later, hlater, -⟩ := bind_eq_ok_iff.mp hloop
      cases hrecord : unmarshalRecord data with
      | none =>
        rw [unmarshalCommand, hrecord] at hlater
        exact ih hlater
      | some pair =>
        obtain ⟨cmd, rest⟩ := pair
        obtain ⟨hfits, rfl⟩ := unmarshalRecord_eq_some_iff.mp hrecord
        rw [unmarshalCommand, hrecord] at hlater
        obtain ⟨records, hrecords, hrest⟩ := ih hlater
        refine ⟨cmd :: records, List.forall_mem_cons.mpr ⟨hfits, hrecords⟩, ?_⟩
        rw [List.flatMap_cons, ← hrest]

/-- Encodable commands are decoded in their order until nothing is left, and data from which a
command has been taken starts with the record of that command. -/
theorem wal_codec_round_trip (mapUpper : GoString → GoString) :
    (∀ cmds : List Command, (∀ cmd ∈ cmds, cmd.Encodable) →
      replayLoop mapUpper (cmds.length + 1) (cmds.flatMap marshalCommand) = .ok cmds ∧
        (fun data ↦ (unmarshalCommand mapUpper data).2)^[cmds.length]
          (cmds.flatMap marshalCommand) = []) ∧
      ∀ data cmd rest, unmarshalCommand mapUpper data = (cmd, rest) → rest ≠ data →
        ∃ name args, data = marshalCommand ⟨name, args⟩ ++ rest ∧
          cmd = ⟨toUpper mapUpper name, args⟩ := by
  constructor
  · intro cmds hcmds
    have hfits : ∀ cmd ∈ cmds, cmd.Fits := fun cmd hcmd ↦ (hcmds cmd hcmd).toFits
    refine ⟨?_, iterate_unmarshalCommand mapUpper hfits⟩
    rw [replayLoop_records mapUpper hfits (Nat.lt_succ_self _), delivered_eq_self mapUpper hcmds]
  · intro data cmd rest hdecoded hprogress
    unfold unmarshalCommand at hdecoded
    cases hrecord : unmarshalRecord data with
    | none =>
      rw [hrecord] at hdecoded
      exact absurd (Prod.mk.inj hdecoded).2.symm hprogress
    | some pair =>
      obtain ⟨raw, rest'⟩ := pair
      rw [hrecord] at hdecoded
      obtain ⟨rfl, rfl⟩ := Prod.mk.inj hdecoded
      exact ⟨raw.name, raw.args, (unmarshalRecord_eq_some_iff.mp hrecord).2, rfl⟩

/-- The loop of `Replay` ends exactly if the data consists of whole records. -/
theorem wal_replay_ends_iff (mapUpper : GoString → GoString) (data : GoString) :
    (∃ bound cmds, replayLoop mapUpper bound data = .ok cmds) ↔
      ∃ records : List Command, (∀ cmd ∈ records, cmd.Fits) ∧
        data = records.flatMap marshalCommand := by
  constructor
  · rintro ⟨bound, cmds, hloop⟩
    exact exists_records_of_replayLoop hloop
  · rintro ⟨records, hrecords, rfl⟩
    exact ⟨_, _, replayLoop_records mapUpper hrecords (Nat.lt_succ_self _)⟩

/-- The first byte of a record alone. The loop takes no command however long it runs. -/
theorem wal_replay_torn :
    (marshalCommand ⟨text "SET", [text "k", text "v"]⟩).take 1 = [0] ∧
      ∀ (mapUpper : GoString → GoString) (bound : ℕ),
        replayLoop mapUpper bound [0] = .error .exhausted := by
  refine ⟨rfl, fun mapUpper bound ↦ ?_⟩
  induction bound with
  | zero => rfl
  | succ bound ih =>
    have hstuck : unmarshalCommand mapUpper [0] = (⟨[], []⟩, [0]) := rfl
    rw [replayLoop_succ mapUpper bound (by decide), hstuck, ih]
    rfl

end FluxCache.Persistence
