import FluxCache.Persistence.AOF
import FluxCache.Resp.Torn

/-!
# An append-only file that is cut off

A crash leaves a part of the file, and all of it is in the buffer of the reader. `Replay` passes on
the commands whose bytes are complete. What it makes of the command behind them depends on the place
of the cut. Before the content of the last bulk value the reader comes to the end of the file, and
the replay stops. In that content, or in the end of the line behind it, the reader returns an array,
with zeros for the missing bytes, and `Replay` passes it on as a command.

So the replay passes on the complete commands and nothing else exactly if the cut is not in the last
content of a command (`CutBeforeContent`, `aof_torn_iff`).
-/

set_option autoImplicit false
set_option relaxedAutoImplicit false

namespace FluxCache.Persistence

open Foundation Resp

/-- The last bulk value of a command: its last argument, or its name if it has none. -/
def Command.lastBulk (cmd : Command) : GoString := cmd.args.getLast?.getD cmd.name

/-- A command that is cut off by the end of the file lacks more than the content of its last bulk
value and the end of the line behind it. -/
def CutBeforeContent (cmds : List Command) (n : ℕ) : Prop :=
  ∀ cmd rest, cmds = completed aofRecord cmds n ++ cmd :: rest →
    (leftover aofRecord cmds n).length + (cmd.lastBulk ++ crlf).length < (aofRecord cmd).length

theorem length_lastBulk_lt (cmd : Command) :
    (cmd.lastBulk ++ crlf).length < (aofRecord cmd).length := by
  have hlast : cmd.bulks.getLast? = some cmd.lastBulk := List.getLast?_cons
  have hle := length_content_le (List.mem_of_getLast? hlast)
  have hhead : 0 < (arrayHead cmd.bulks).length := Nat.succ_pos _
  have hsplit : (aofRecord cmd).length =
      (arrayHead cmd.bulks).length + (cmd.bulks.flatMap marshalBulk).length := by
    rw [aofRecord, marshal_command_eq]
    exact List.length_append
  omega

section Loop

variable (mapUpper : GoString → GoString) {cmds : List Command} {source : Source UInt8}

/-- The loop passes on complete commands and goes on behind them. -/
theorem aofLoop_records (hsized : ∀ cmd ∈ cmds, cmd.Sized) {bound : ℕ} {rest : GoString}
    {more : List Command} {err : ReadError} {after : Reader UInt8}
    (hrest : aofLoop mapUpper bound ⟨rest, source⟩ = .ok (more, err, after)) :
    aofLoop mapUpper (cmds.length + bound) ⟨cmds.flatMap aofRecord ++ rest, source⟩ =
      .ok (cmds.map (Command.upper mapUpper) ++ more, err, after) := by
  induction cmds with
  | nil =>
    rw [List.length_nil, Nat.zero_add]
    exact hrest
  | cons cmd cmds ih =>
    obtain ⟨hcmd, hothers⟩ := List.forall_mem_cons.mp hsized
    have hread := read_marshal (wellFormed_command hcmd.count hcmd.bulk)
      (cmds.flatMap aofRecord ++ rest) source
    rw [List.length_cons, Nat.add_right_comm, List.flatMap_cons, List.append_assoc, aofRecord,
      aofLoop_command mapUpper hread, ih hothers]
    rfl

/-- What the loop makes of a command that is cut off: nothing, or a command. -/
theorem aofLoop_cut {cmd : Command} (hcmd : cmd.Sized) (hsource : source.content = []) {k : ℕ}
    (hk : k < (aofRecord cmd).length) (bound : ℕ) :
    ∃ more err after, aofLoop mapUpper (bound + 2) ⟨(aofRecord cmd).take k, source⟩ =
        .ok (more, err, after) ∧
      (more = [] ↔ k + (cmd.lastBulk ++ crlf).length < (aofRecord cmd).length) := by
  have hlast : cmd.bulks.getLast? = some cmd.lastBulk := List.getLast?_cons
  by_cases hcut : k + (cmd.lastBulk ++ crlf).length < (aofRecord cmd).length
  · obtain ⟨v, after, hread⟩ := read_cut_eof hcmd.count hcmd.bulk hsource hlast hcut
    refine ⟨[], .eof, after, ?_, iff_of_true rfl hcut⟩
    rw [aofLoop, aofRecord, hread]
    rfl
  · obtain ⟨values, after, hne, hread, hend⟩ :=
      read_cut_ok hcmd.count hcmd.bulk hsource hlast hk (Nat.le_of_not_lt hcut)
    obtain ⟨first, args, rfl⟩ := List.exists_cons_of_ne_nil hne
    refine ⟨[⟨toUpper mapUpper first.bulk, args.map Value.bulk⟩], .eof, after, ?_,
      iff_of_false (List.cons_ne_nil _ _) hcut⟩
    rw [aofLoop, aofRecord, hread]
    exact bind_eq_ok_iff.mpr ⟨_, rfl, bind_eq_ok_iff.mpr ⟨_, aofLoop_end mapUpper hend bound, rfl⟩⟩

/-- What the loop passes on of a file that is cut off: the complete commands, and possibly more. -/
theorem aofLoop_take (hsized : ∀ cmd ∈ cmds, cmd.Sized) (hsource : source.content = []) (n : ℕ) :
    ∃ more err after,
      aofLoop mapUpper (((cmds.flatMap aofRecord).take n).length + 1)
          ⟨(cmds.flatMap aofRecord).take n, source⟩ =
        .ok ((completed aofRecord cmds n).map (Command.upper mapUpper) ++ more, err, after) ∧
      (more = [] ↔ CutBeforeContent cmds n) := by
  have hdone : ∀ cmd ∈ completed aofRecord cmds n, cmd.Sized := fun cmd hcmd ↦
    hsized cmd ((isPrefix_completed aofRecord cmds n).mem hcmd)
  have hlength := length_aofRecords_le (completed aofRecord cmds n)
  rw [take_flatMap_record, List.length_append]
  obtain ⟨extra, hextra⟩ := Nat.exists_eq_add_of_le hlength
  by_cases hnone : leftover aofRecord cmds n = []
  · refine ⟨[], .eof, ⟨[], source⟩, ?_, iff_of_true rfl fun cmd rest _ ↦ ?_⟩
    · rw [hnone, hextra]
      exact aofLoop_records mapUpper hdone (@aofLoop_end mapUpper ⟨[], source⟩ hsource extra)
    · rw [hnone, List.length_nil, Nat.zero_add]
      exact length_lastBulk_lt cmd
  · rcases leftover_cases aofRecord cmds n with ⟨-, hempty⟩ | ⟨cmd, rest, k, hcmds, hk, hcut⟩
    · exact absurd hempty hnone
    · have hpart : (leftover aofRecord cmds n).length = k := by
        rw [hcut, List.length_take_of_le hk.le]
      have hcmd : cmd.Sized := hsized cmd (by rw [hcmds]; simp)
      obtain ⟨bound, hbound⟩ : ∃ bound, extra + k + 1 = bound + 2 := by
        have hpos := List.length_pos_of_ne_nil hnone
        exact Nat.exists_eq_add_of_le' (by omega)
      obtain ⟨more, err, after, hloop, hmore⟩ := aofLoop_cut mapUpper hcmd hsource hk bound
      refine ⟨more, err, after, ?_, hmore.trans ⟨fun hlt other others heq ↦ ?_, fun hall ↦ ?_⟩⟩
      · rw [hpart, hextra, hcut, Nat.add_assoc, Nat.add_assoc, ← Nat.add_assoc extra, hbound]
        exact aofLoop_records mapUpper hdone hloop
      · obtain ⟨rfl, -⟩ := List.cons.inj (List.append_cancel_left (hcmds.symm.trans heq))
        rw [hpart]
        exact hlt
      · rw [← hpart]
        exact hall cmd rest hcmds

end Loop

/-! ### Replaying the file -/

/-- What `Write` leaves in a new file. -/
theorem bytes_writes (cmds : List Command) :
    (cmds.foldl AOF.write (NewAOF [])).Written cmds := by
  induction cmds using List.reverseRecOn with
  | nil => exact ⟨rfl, rfl⟩
  | append_singleton cmds cmd ih =>
    rw [List.foldl_append]
    exact ih.write cmd

/-- A file that fits in the buffer of the reader is read as if it were in the buffer already. -/
theorem aofLoop_newResp (mapUpper : GoString → GoString) {bytes : GoString}
    (hfits : bytes.length ≤ Reader.bufferSize) {source : Source UInt8}
    (hsource : source.content = []) (bound : ℕ) :
    aofLoop mapUpper (bound + 1) (newResp (.ofChunks [bytes])) =
      aofLoop mapUpper (bound + 1) ⟨bytes, source⟩ := by
  by_cases hbytes : bytes = []
  · subst hbytes
    rw [Source.eq_of_content_nil hsource (Source.content_file [])]
    rfl
  · have hchunks := Source.chunks_ofChunks (List.forall_mem_singleton.mpr hbytes)
    obtain ⟨after, hafter, hread⟩ := read_newResp hchunks hfits
    have hend : after.content = [] := by rw [Source.content, hafter, List.flatten_nil]
    rw [aofLoop, aofLoop, hread, Source.eq_of_content_nil hsource hend]

theorem exists_replay_iff (mapUpper : GoString → GoString) (bytes : GoString)
    (cmds : List Command) :
    (∃ a, (NewAOF bytes).replay mapUpper = .ok (cmds, a)) ↔
      ∃ err after, aofLoop mapUpper (bytes.length + 1) (newResp (.ofChunks [bytes])) =
        .ok (cmds, err, after) := by
  constructor
  · rintro ⟨a, hreplay⟩
    obtain ⟨⟨delivered, err, after⟩, hloop, hreturn⟩ := bind_eq_ok_iff.mp hreplay
    obtain ⟨rfl, -⟩ := Prod.mk.inj (Except.ok.inj hreturn)
    exact ⟨err, after, hloop⟩
  · rintro ⟨err, after, hloop⟩
    exact ⟨_, bind_eq_ok_iff.mpr ⟨_, hloop, rfl⟩⟩

/-- The file of any commands is cut off at any place, and what is left of it is in the buffer of the
reader, which for a file of at most 4096 bytes it is from the first byte on. The replay passes on
the commands whose bytes are complete, and nothing else, exactly if the cut is not in the content of
the last bulk value of a command or in the end of the line behind it. Assumes: the numbers of bulk
values and of their bytes are 64-bit integers, as they are in the program. -/
theorem aof_torn_iff (mapUpper : GoString → GoString) {cmds : List Command}
    (hsized : ∀ cmd ∈ cmds, cmd.Sized) (n : ℕ) {bytes : GoString}
    (hbytes : bytes = (cmds.foldl AOF.write (NewAOF [])).close.take n) :
    (∀ source : Source UInt8, source.content = [] →
      ((∃ err after, aofLoop mapUpper (bytes.length + 1) ⟨bytes, source⟩ =
          .ok ((completed aofRecord cmds n).map (Command.upper mapUpper), err, after)) ↔
        CutBeforeContent cmds n)) ∧
    (bytes.length ≤ Reader.bufferSize →
      ((∃ a, (NewAOF bytes).replay mapUpper =
          .ok ((completed aofRecord cmds n).map (Command.upper mapUpper), a)) ↔
        CutBeforeContent cmds n)) := by
  have hclose : (cmds.foldl AOF.write (NewAOF [])).close = cmds.flatMap aofRecord :=
    (bytes_writes cmds).records
  rw [hclose] at hbytes
  subst hbytes
  have hbuffered (source : Source UInt8) (hsource : source.content = []) :
      (∃ err after, aofLoop mapUpper (((cmds.flatMap aofRecord).take n).length + 1)
          ⟨(cmds.flatMap aofRecord).take n, source⟩ =
        .ok ((completed aofRecord cmds n).map (Command.upper mapUpper), err, after)) ↔
        CutBeforeContent cmds n := by
    obtain ⟨more, err, after, hloop, hmore⟩ := aofLoop_take mapUpper hsized hsource n
    rw [hloop, ← hmore]
    constructor
    · rintro ⟨_, _, heq⟩
      exact List.append_right_eq_self.mp (Prod.mk.inj (Except.ok.inj heq)).1
    · rintro rfl
      exact ⟨err, after, by rw [List.append_nil]⟩
  refine ⟨hbuffered, fun hfits ↦ ?_⟩
  have hend : (⟨[], nofun⟩ : Source UInt8).content = [] := rfl
  rw [exists_replay_iff, aofLoop_newResp mapUpper hfits hend]
  exact hbuffered _ hend

/-- The second command is cut off in the length of its last bulk value. -/
theorem aof_torn_iff_length :
    ∃ a, (NewAOF (([⟨text "SET", [text "k", text "v"]⟩, ⟨text "DEL", [text "k"]⟩].foldl AOF.write
        (NewAOF [])).close.take 42)).replay id = .ok ([⟨text "SET", [text "k", text "v"]⟩], a) := by
  refine ((@aof_torn_iff id [⟨text "SET", [text "k", text "v"]⟩, ⟨text "DEL", [text "k"]⟩] ?_ 42 _
    rfl).2 (by decide)).mpr ?_
  · decide
  · intro cmd rest hcmds
    obtain ⟨rfl, -⟩ := List.cons.inj (List.cons.inj hcmds).2
    decide

/-- A value that is cut off: the replay passes on a command that sets `k` to `he` and three zeros,
although no command is complete. -/
theorem aof_torn_zeros :
    (∃ a, (NewAOF (([⟨text "SET", [text "k", text "hello"]⟩].foldl AOF.write
        (NewAOF [])).close.take 26)).replay id =
      .ok ([⟨text "SET", [text "k", text "he" ++ [0, 0, 0]]⟩], a)) ∧
    completed aofRecord [⟨text "SET", [text "k", text "hello"]⟩] 26 = [] :=
  ⟨⟨_, rfl⟩, rfl⟩

end FluxCache.Persistence
