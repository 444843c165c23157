import FluxCache.Persistence.WAL

/-!
# Records cut short and flushes that fail

A log that is cut somewhere consists of whole records and of the beginning of one more.
`unmarshalCommand` takes the commands of the whole records one after another, and from the rest
nothing, however often it is called: a strict beginning of a record is not itself a record
(`unmarshalRecord_take`).

A write to the file can fail after some of its bytes. `Flush` then returns an error, but it empties
its buffer all the same, so the bytes that were not written are lost. From then on there are less
bytes in the file and in the buffer than the records of the commands have (`Accounted`), and the
commands cannot all be read back.
-/

set_option autoImplicit false
set_option relaxedAutoImplicit false

namespace FluxCache.Persistence

open Foundation

/-! ### Records cut short -/

section Torn

variable (mapUpper : GoString → GoString)

/-- A number of calls of `unmarshalCommand`, each on what the one before has left: the commands that
they return, and the rest. -/
def unmarshalMany : ℕ → GoString → List Command × GoString
  | 0, data => ([], data)
  | calls + 1, data =>
    let (cmd, rest) := unmarshalCommand mapUpper data
    (unmarshalMany calls rest).map (cmd :: ·) id

/-- The calls go through whole records first. -/
theorem unmarshalMany_records {records : List Command} (hrecords : ∀ cmd ∈ records, cmd.Fits)
    (calls : ℕ) (rest : GoString) :
    unmarshalMany mapUpper (records.length + calls) (records.flatMap marshalCommand ++ rest) =
      (unmarshalMany mapUpper calls rest).map (records.map (Command.upper mapUpper) ++ ·) id := by
  induction records with
  | nil =>
    rw [List.length_nil, Nat.zero_add]
    rfl
  | cons cmd records ih =>
    obtain ⟨hcmd, hothers⟩ := List.forall_mem_cons.mp hrecords
    rw [List.length_cons, Nat.add_right_comm, unmarshalMany, List.flatMap_cons, List.append_assoc,
      unmarshalCommand_marshal mapUpper hcmd]
    dsimp only
    rw [ih hothers]
    rfl

/-- Where there is no record, the data stays and the commands are empty. -/
theorem unmarshalMany_of_none {data : GoString} (hdata : unmarshalRecord data = none) (calls : ℕ) :
    unmarshalMany mapUpper calls data = (List.replicate calls ⟨[], []⟩, data) := by
  have hstuck : unmarshalCommand mapUpper data = (⟨[], []⟩, data) := by
    rw [unmarshalCommand, hdata]
  induction calls with
  | zero => rfl
  | succ calls ih =>
    rw [unmarshalMany, hstuck]
    dsimp only
    rw [ih]
    rfl

/-- A strict beginning of a record is not a record. -/
theorem unmarshalRecord_take {cmd : Command} (hcmd : cmd.Fits) {k : ℕ}
    (hk : k < (marshalCommand cmd).length) :
    unmarshalRecord ((marshalCommand cmd).take k) = none := by
  cases hrecord : unmarshalRecord ((marshalCommand cmd).take k) with
  | none => rfl
  | some pair =>
    obtain ⟨raw, rest⟩ := pair
    obtain ⟨hraw, htake⟩ := unmarshalRecord_eq_some_iff.mp hrecord
    -- The whole record would start with a shorter one, and the decoder takes only one command.
    have hwhole : marshalCommand cmd =
        marshalCommand raw ++ (rest ++ (marshalCommand cmd).drop k) := by
      rw [← List.append_assoc, ← htake, List.take_append_drop]
    have hshort := unmarshalRecord_eq_some_iff.mpr ⟨hraw, hwhole⟩
    have hlong := unmarshalRecord_eq_some_iff.mpr ⟨hcmd, (List.append_nil _).symm⟩
    have hrest : rest ++ (marshalCommand cmd).drop k = [] :=
      (Prod.mk.inj (Option.some.inj (hshort.symm.trans hlong))).2
    have hdrop := List.drop_eq_nil_iff.mp (List.append_eq_nil_iff.mp hrest).2
    exact absurd hk (Nat.not_lt.mpr hdrop)

/-- Of a log of encodable commands that is cut somewhere the calls return the commands whose records
are whole, in their order, and then the rest as it is. -/
theorem wal_torn_records {cmds : List Command} (hcmds : ∀ cmd ∈ cmds, cmd.Encodable) (n : ℕ) :
    ∃ done tail, (cmds.flatMap marshalCommand).take n = done.flatMap marshalCommand ++ tail ∧
      done <+: cmds ∧
      (∀ front, front <+: cmds → (front.flatMap marshalCommand).length ≤ n → front <+: done) ∧
      ∀ calls, unmarshalMany mapUpper (done.length + calls)
          ((cmds.flatMap marshalCommand).take n) =
        (done ++ List.replicate calls ⟨[], []⟩, tail) := by
  have hpart := isPrefix_completed marshalCommand cmds n
  have hdone (cmd : Command) (hcmd : cmd ∈ completed marshalCommand cmds n) : cmd.Encodable :=
    hcmds cmd (hpart.subset hcmd)
  have htail : unmarshalRecord (leftover marshalCommand cmds n) = none := by
    rcases leftover_cases marshalCommand cmds n with ⟨-, hnone⟩ | ⟨cmd, rest, k, hitems, hk, hrest⟩
    · rw [hnone]
      rfl
    · have hcmd : cmd ∈ cmds := by
        rw [hitems]
        exact List.mem_append_right _ List.mem_cons_self
      rw [hrest]
      exact unmarshalRecord_take (hcmds cmd hcmd).toFits hk
  refine ⟨completed marshalCommand cmds n, leftover marshalCommand cmds n,
    take_flatMap_record marshalCommand cmds n, hpart,
    fun front hfront hn ↦ isPrefix_completed_of_le marshalCommand hfront hn, fun calls ↦ ?_⟩
  rw [take_flatMap_record marshalCommand cmds n,
    unmarshalMany_records mapUpper fun cmd hcmd ↦ (hdone cmd hcmd).toFits,
    unmarshalMany_of_none mapUpper htail,
    map_upper_eq_self mapUpper fun cmd hcmd ↦ (hdone cmd hcmd).name_upper]
  rfl

theorem wal_torn_records_set :
    ∃ done tail, done <+: [⟨text "SET", [text "k", text "v"]⟩] ∧
      unmarshalMany id (done.length + 1)
          (([⟨text "SET", [text "k", text "v"]⟩].flatMap marshalCommand).take 9) =
        (done ++ [⟨[], []⟩], tail) := by
  obtain ⟨done, tail, -, hpart, -, hcalls⟩ :=
    @wal_torn_records id [⟨text "SET", [text "k", text "v"]⟩] (by decide) 9
  exact ⟨done, tail, hpart, hcalls 1⟩

end Torn

/-! ### Flushes that fail -/

/-- How a write to the file goes: all bytes are written, or it fails after the first `n` bytes, or
after all but the last if there are not so many. -/
inductive Attempt
  | succeeds
  | fails (n : ℕ)
  deriving DecidableEq

/-- The bytes that reach the file. -/
def Attempt.written : Attempt → GoString → GoString
  | .succeeds, data => data
  | .fails n, data => data.dropLast.take n

/-- A call of the log, with the attempt to write to the file that it may make. -/
inductive AttemptedCall
  | write (cmd : Command) (attempt : Attempt)
  | flush (attempt : Attempt)

/-- The command that a call writes. -/
def AttemptedCall.command : AttemptedCall → List Command
  | .write cmd _ => [cmd]
  | .flush _ => []

namespace WAL

/-- `Flush`. The buffer is empty after it in any case. The call returns `true` if there is no
error. -/
def attemptFlush (w : WAL) (attempt : Attempt) : Bool × WAL :=
  if w.buf = [] then (true, w)
  else (attempt = .succeeds, ⟨w.file.write (attempt.written w.buf), []⟩)

/-- `Write`. -/
def attemptWrite (w : WAL) (cmd : Command) (attempt : Attempt) : Bool × WAL :=
  if (w.append cmd).shouldFlush then (w.append cmd).attemptFlush attempt
  else (true, w.append cmd)

/-- One call. -/
def attemptCall (w : WAL) : AttemptedCall → Bool × WAL
  | .write cmd attempt => w.attemptWrite cmd attempt
  | .flush attempt => w.attemptFlush attempt

/-- A sequence of calls. The result is `true` if none of them returns an error. -/
def attemptCalls (w : WAL) : List AttemptedCall → Bool × WAL
  | [] => (true, w)
  | c :: calls =>
    ((w.attemptCall c).1 && ((w.attemptCall c).2.attemptCalls calls).1,
      ((w.attemptCall c).2.attemptCalls calls).2)

theorem attemptFlush_succeeds (w : WAL) : w.attemptFlush .succeeds = (true, w.flush) := by
  unfold attemptFlush flush
  split
  · rfl
  · rfl

theorem length_written_lt {data : GoString} (hdata : data ≠ []) (n : ℕ) :
    ((Attempt.fails n).written data).length < data.length := by
  rw [Attempt.written, List.length_take, List.length_dropLast]
  have hpos := List.length_pos_of_ne_nil hdata
  omega

/-- What is in the file and in the buffer. -/
def content (w : WAL) : GoString := w.file.bytes ++ w.buf

/-- A flush keeps the content if it returns no error, and loses some of it otherwise. -/
theorem content_attemptFlush {w : WAL} (hend : w.file.AtEnd) (attempt : Attempt) :
    (w.attemptFlush attempt).2.file.AtEnd ∧
      ((w.attemptFlush attempt).1 = true → (w.attemptFlush attempt).2.content = w.content) ∧
      ((w.attemptFlush attempt).1 = false →
        (w.attemptFlush attempt).2.content.length < w.content.length) := by
  unfold attemptFlush
  by_cases hbuf : w.buf = []
  · rw [if_pos hbuf]
    exact ⟨hend, fun _ ↦ rfl, fun h ↦ by cases h⟩
  · have hbytes : content ⟨w.file.write (attempt.written w.buf), []⟩ =
        w.file.bytes ++ attempt.written w.buf := by
      rw [content, List.append_nil, File.bytes_write_atEnd hend]
    rw [if_neg hbuf, hbytes]
    refine ⟨hend.write _, fun hok ↦ ?_, fun hok ↦ ?_⟩
    · rw [of_decide_eq_true hok]
      rfl
    · cases attempt with
      | succeeds => cases hok
      | fails n =>
        rw [content, List.length_append, List.length_append]
        exact Nat.add_lt_add_left (length_written_lt hbuf n) _

/-- The content is the records of the commands written, or, after an error, less than these. -/
structure Accounted (ok : Bool) (w : WAL) (log : List Command) : Prop where
  atEnd : w.file.AtEnd
  records : ok = true → w.content = log.flatMap marshalCommand
  shorter : ok = false → w.content.length < (log.flatMap marshalCommand).length

section Accounted

variable {ok : Bool} {w : WAL} {log : List Command}

theorem Accounted.append (h : Accounted ok w log) (cmd : Command) :
    Accounted ok (w.append cmd) (log ++ [cmd]) := by
  have hcontent : (w.append cmd).content = w.content ++ marshalCommand cmd :=
    (List.append_assoc ..).symm
  have hlog : (log ++ [cmd]).flatMap marshalCommand =
      log.flatMap marshalCommand ++ marshalCommand cmd := by
    rw [List.flatMap_append, List.flatMap_singleton]
  refine ⟨h.atEnd, fun hok ↦ ?_, fun hok ↦ ?_⟩
  · rw [hcontent, hlog, h.records hok]
  · rw [hcontent, hlog, List.length_append, List.length_append]
    exact Nat.add_lt_add_right (h.shorter hok) _

theorem Accounted.attemptFlush (h : Accounted ok w log) (attempt : Attempt) :
    Accounted (ok && (w.attemptFlush attempt).1) (w.attemptFlush attempt).2 log := by
  obtain ⟨hend, hkept, hlost⟩ := content_attemptFlush h.atEnd attempt
  have hle : (w.attemptFlush attempt).2.content.length ≤ w.content.length := by
    cases hflush : (w.attemptFlush attempt).1 with
    | true => exact (congrArg List.length (hkept hflush)).le
    | false => exact (hlost hflush).le
  refine ⟨hend, fun hall ↦ ?_, fun herror ↦ ?_⟩
  · obtain ⟨hok, hflush⟩ := Bool.and_eq_true_iff.mp hall
    exact (hkept hflush).trans (h.records hok)
  · cases hok : ok with
    | false => exact hle.trans_lt (h.shorter hok)
    | true =>
      rw [hok, Bool.true_and] at herror
      exact (hlost herror).trans_eq (congrArg List.length (h.records hok))

theorem Accounted.attemptCall (h : Accounted ok w log) (c : AttemptedCall) :
    Accounted (ok && (w.attemptCall c).1) (w.attemptCall c).2 (log ++ c.command) := by
  cases c with
  | flush attempt =>
    rw [AttemptedCall.command, List.append_nil]
    exact h.attemptFlush attempt
  | write cmd attempt =>
    rw [WAL.attemptCall, attemptWrite, AttemptedCall.command]
    split
    · exact (h.append cmd).attemptFlush attempt
    · rw [Bool.and_true]
      exact h.append cmd

theorem Accounted.attemptCalls (h : Accounted ok w log) (calls : List AttemptedCall) :
    Accounted (ok && (w.attemptCalls calls).1) (w.attemptCalls calls).2
      (log ++ calls.flatMap AttemptedCall.command) := by
  induction calls generalizing ok w log with
  | nil =>
    rw [WAL.attemptCalls, Bool.and_true, List.flatMap_nil, List.append_nil]
    exact h
  | cons c calls ih =>
    have hrest := ih (h.attemptCall c)
    rwa [Bool.and_assoc, List.append_assoc] at hrest

/-- A flush that succeeds writes the content to the file. -/
theorem bytes_flush (hend : w.file.AtEnd) : w.flush.file.bytes = w.content := by
  have hbuf : w.flush.buf = [] := by
    unfold WAL.flush
    split
    · assumption
    · rfl
  obtain ⟨-, hkept, -⟩ := content_attemptFlush hend .succeeds
  rw [attemptFlush_succeeds] at hkept
  rw [← hkept rfl, content, hbuf, List.append_nil]

end Accounted

end WAL

/-- Decoding from the start of the bytes goes through records (`unmarshalMany_records`), and the
commands are among them in their order. -/
def Recoverable (bytes : GoString) (cmds : List Command) : Prop :=
  ∃ records rest, bytes = records.flatMap marshalCommand ++ rest ∧
    (∀ cmd ∈ records, cmd.Fits) ∧ cmds.Sublist records

/-- After any calls and a flush that succeeds the commands written can be recovered exactly if no
call returned an error and all commands fit. Assumes: what was written before the calls is in the
file or in the buffer. -/
theorem recoverable_iff {w : WAL} {log : List Command} (hw : w.Written log)
    (calls : List AttemptedCall) :
    Recoverable (w.attemptCalls calls).2.flush.file.bytes
        (log ++ calls.flatMap AttemptedCall.command) ↔
      (w.attemptCalls calls).1 = true ∧
        ∀ cmd ∈ log ++ calls.flatMap AttemptedCall.command, cmd.Fits := by
  have hstart : WAL.Accounted true w log := ⟨hw.atEnd, fun _ ↦ hw.records, fun h ↦ by cases h⟩
  have hend := hstart.attemptCalls calls
  rw [Bool.true_and] at hend
  rw [WAL.bytes_flush hend.atEnd]
  constructor
  · rintro ⟨records, rest, hcontent, hfits, hsublist⟩
    refine ⟨?_, fun cmd hcmd ↦ hfits cmd (hsublist.subset hcmd)⟩
    by_contra herror
    have hshorter := hend.shorter (Bool.eq_false_of_not_eq_true herror)
    have hlonger := (hsublist.flatMap marshalCommand).length_le
    rw [hcontent, List.length_append] at hshorter
    omega
  · rintro ⟨hok, hfits⟩
    exact ⟨_, [], (hend.records hok).trans (List.append_nil _).symm, hfits, List.Sublist.refl _⟩

/-- A flush that would fail finds an empty buffer and returns no error. -/
theorem recoverable_iff_set :
    Recoverable ((NewWAL []).attemptCalls [.flush (.fails 0),
      .write ⟨text "SET", [text "k", text "v"]⟩ .succeeds, .flush .succeeds,
      .flush (.fails 1)]).2.flush.file.bytes [⟨text "SET", [text "k", text "v"]⟩] :=
  (@recoverable_iff (NewWAL []) [] ⟨rfl, rfl⟩ _).mpr ⟨by decide, by decide⟩

/-- A flush that fails after the first byte. The next command is written behind that byte, and the
decoder finds neither of the two commands. -/
theorem commands_lost :
    let calls : List AttemptedCall :=
      [.write ⟨text "SET", [text "k", text "v"]⟩ .succeeds, .flush (.fails 1),
        .write ⟨text "SET", [text "l", text "w"]⟩ .succeeds]
    let bytes := ((NewWAL []).attemptCalls calls).2.flush.file.bytes
    bytes = 0 :: marshalCommand ⟨text "SET", [text "l", text "w"]⟩ ∧
      unmarshalRecord bytes = none ∧
      ¬ Recoverable bytes (calls.flatMap AttemptedCall.command) := by
  intro calls bytes
  have hnone : unmarshalRecord bytes = none := by decide
  refine ⟨by decide, hnone, ?_⟩
  rintro ⟨records, rest, hbytes, hfits, hsublist⟩
  cases records with
  | nil => cases hsublist
  | cons cmd records =>
    rw [List.flatMap_cons, List.append_assoc] at hbytes
    have hsome := unmarshalRecord_eq_some_iff.mpr ⟨hfits cmd List.mem_cons_self, hbytes⟩
    exact absurd (hnone.symm.trans hsome) (Option.some_ne_none _).symm

end FluxCache.Persistence
