import FluxCache.Foundation.File
import FluxCache.Foundation.Interleaving
import FluxCache.Persistence.WALCodec

/-!
# The write-ahead log

`WAL` keeps an open file and a buffer. A write appends its record to the buffer and, if the buffer
has then reached the size of a batch, flushes it in a second critical section. `Replay` flushes,
reads the file from its start and leaves the offset at its end. A log is opened with the offset at
the start of the file, so it is the first `Replay` of a session that lets it append.

Each critical section is one atomic step. In a session any number of clients write, flush and replay
in any order (`walSystem`), and the file that one session leaves is what the next one opens
(`sessions`). What carries the proofs is `Written`: the file and the buffer together are the records
of the commands written, and the offset is at the end.
-/

set_option autoImplicit false
set_option relaxedAutoImplicit false

namespace FluxCache.Persistence

open Foundation

/-! ### The critical sections -/

/-- `WAL`: its file and its buffer. -/
structure WAL where
  file : File
  buf : GoString
  deriving DecidableEq

/-- The field `batchSize`, in bytes. -/
def batchSize : ℕ := 1000

/-- `NewWAL` on a file with some content. -/
def NewWAL (bytes : GoString) : WAL := ⟨.openFile bytes, []⟩

namespace WAL

/-- The critical section of `Write`. -/
def append (w : WAL) (cmd : Command) : WAL := { w with buf := w.buf ++ marshalCommand cmd }

/-- What `Write` finds before it releases the mutex. -/
def shouldFlush (w : WAL) : Bool := batchSize ≤ w.buf.length

/-- `Flush`. -/
def flush (w : WAL) : WAL := if w.buf = [] then w else ⟨w.file.write w.buf, []⟩

/-- `Write` of a client that no other one interrupts. -/
def write (w : WAL) (cmd : Command) : WAL :=
  if (w.append cmd).shouldFlush then (w.append cmd).flush else w.append cmd

/-- `Replay`, with the commands that it passes to its argument. -/
def replay (mapUpper : GoString → GoString) (w : WAL) : Outcome (List Command × WAL) := do
  let w := w.flush
  let (data, file) := w.file.seekStart.readAll
  let cmds ← replayLoop mapUpper (data.length + 1) data
  return (cmds, { w with file := file.seekEnd })

/-- `Close`, with the bytes that it leaves in the file. -/
def close (w : WAL) : GoString := w.flush.file.bytes

instance : PersistenceInterface GoString WAL where
  openDisk := NewWAL
  write := write
  replay := replay
  tick := flush
  close := close

/-- The file and the buffer are the records of the commands written, and the next write to the file
appends. -/
structure Written (w : WAL) (log : List Command) : Prop where
  atEnd : w.file.AtEnd
  records : w.file.bytes ++ w.buf = log.flatMap marshalCommand

theorem Written.append {w : WAL} {log : List Command} (h : w.Written log) (cmd : Command) :
    (w.append cmd).Written (log ++ [cmd]) where
  atEnd := h.atEnd
  records := by
    rw [List.flatMap_append, ← h.records, List.append_assoc, List.flatMap_singleton]
    rfl

theorem Written.file_bytes_flush {w : WAL} {log : List Command} (h : w.Written log) :
    w.flush.file.bytes = log.flatMap marshalCommand ∧ w.flush.buf = [] ∧ w.flush.file.AtEnd := by
  rw [← h.records, flush]
  by_cases hbuf : w.buf = []
  · rw [if_pos hbuf]
    exact ⟨by rw [hbuf, List.append_nil], hbuf, h.atEnd⟩
  · rw [if_neg hbuf]
    exact ⟨File.bytes_write_atEnd h.atEnd w.buf, rfl, h.atEnd.write w.buf⟩

theorem Written.flush {w : WAL} {log : List Command} (h : w.Written log) : w.flush.Written log := by
  obtain ⟨hbytes, hbuf, hend⟩ := h.file_bytes_flush
  refine ⟨hend, ?_⟩
  rw [hbytes, hbuf, List.append_nil]

theorem Written.write {w : WAL} {log : List Command} (h : w.Written log) (cmd : Command) :
    (w.write cmd).Written (log ++ [cmd]) := by
  unfold WAL.write
  split
  · exact (h.append cmd).flush
  · exact h.append cmd

theorem Written.close {w : WAL} {log : List Command} (h : w.Written log) :
    w.close = log.flatMap marshalCommand :=
  h.file_bytes_flush.1

/-- The loop of `Replay` on the records of encodable commands. -/
theorem replayLoop_encodable (mapUpper : GoString → GoString) {log : List Command}
    (hlog : ∀ cmd ∈ log, cmd.Encodable) :
    replayLoop mapUpper ((log.flatMap marshalCommand).length + 1) (log.flatMap marshalCommand) =
      .ok log := by
  have hbound : log.length < (log.flatMap marshalCommand).length + 1 :=
    Nat.lt_succ_of_le (length_records_le log)
  rw [replayLoop_records mapUpper (fun cmd hcmd ↦ (hlog cmd hcmd).toFits) hbound,
    delivered_eq_self mapUpper hlog]

/-- `Replay` on a file that consists of records, wherever its offset is. -/
theorem replay_of_bytes_flush (mapUpper : GoString → GoString) {w : WAL} {log : List Command}
    (hbytes : w.flush.file.bytes = log.flatMap marshalCommand)
    (hlog : ∀ cmd ∈ log, cmd.Encodable) :
    w.replay mapUpper = .ok (log, { w.flush with file := w.flush.file.seekEnd.seekEnd }) := by
  rw [replay, File.readAll_seekStart]
  simp only [hbytes, replayLoop_encodable mapUpper hlog]
  rfl

/-- A replay passes on the commands written, and the log is as before. -/
theorem Written.replay {w : WAL} {log : List Command} (h : w.Written log)
    (hlog : ∀ cmd ∈ log, cmd.Encodable) (mapUpper : GoString → GoString) :
    ∃ after, w.replay mapUpper = .ok (log, after) ∧ after.Written log := by
  obtain ⟨hbytes, hbuf, -⟩ := h.file_bytes_flush
  refine ⟨_, replay_of_bytes_flush mapUpper hbytes hlog, File.atEnd_seekEnd _, ?_⟩
  show w.flush.file.bytes ++ w.flush.buf = _
  rw [hbytes, hbuf, List.append_nil]

/-- The first replay after a log has been opened. -/
theorem replay_NewWAL (mapUpper : GoString → GoString) {log : List Command}
    (hlog : ∀ cmd ∈ log, cmd.Encodable) :
    ∃ w, (NewWAL (log.flatMap marshalCommand)).replay mapUpper = .ok (log, w) ∧ w.Written log := by
  refine ⟨_, replay_of_bytes_flush mapUpper rfl hlog, File.atEnd_seekEnd _, ?_⟩
  exact List.append_nil _

instance : LogInterface WAL where
  Written := Written
  Readable := fun log ↦ ∀ cmd ∈ log, cmd.Encodable
  exists_new := fun mapUpper ↦ @replay_NewWAL mapUpper [] nofun
  written_write := Written.write
  written_tick := Written.flush
  exists_reopen := fun {p log} h hlog mapUpper ↦ by
    obtain ⟨after, hreplay, -⟩ := replay_NewWAL mapUpper hlog
    rw [← h.close] at hreplay
    exact ⟨after, hreplay⟩

end WAL

/-! ### A session -/

/-- A call of the log. The ticker of `flushLoop` is a client that flushes. -/
inductive WALCall
  | write (cmd : Command)
  | flush
  | replay

/-- What a client does next. -/
inductive WALPhase
  | idle
  | append (cmd : Command)
  | flush
  | replay

/-- The next critical section of a client. A replay that never ends keeps the mutex: no client takes
it after that. -/
def WALPhase.advance (mapUpper : GoString → GoString) :
    Outcome WAL → WALPhase → Outcome WAL × WALPhase
  | .ok w, .append cmd =>
    (.ok (w.append cmd), if (w.append cmd).shouldFlush then .flush else .idle)
  | .ok w, .flush => (.ok w.flush, .idle)
  | .ok w, .replay =>
    match w.replay mapUpper with
    | .ok (_, after) => (.ok after, .idle)
    | .error fault => (.error fault, .replay)
  | .ok w, .idle => (.ok w, .idle)
  | .error fault, phase => (.error fault, phase)

/-- The clients of a log. -/
def walSystem (mapUpper : GoString → GoString) : ThreadSystem (Outcome WAL) WALPhase WALCall where
  enter
    | .write cmd => .append cmd
    | .flush => .flush
    | .replay => .replay
  idle
    | .idle => true
    | _ => false
  advance := WALPhase.advance mapUpper

variable {ι : Type} [DecidableEq ι]

/-- The calls and steps of a session after its first replay. -/
abbrev Schedule (ι : Type) := List (Event ι WALCall)

/-- A session after its first replay. -/
def opened (mapUpper : GoString → GoString) (bytes : GoString) :
    Config ι (Outcome WAL) WALPhase where
  shared := (NewWAL bytes).replay mapUpper >>= fun result ↦ pure result.2
  threads := fun _ ↦ .idle

/-- A session after some of its steps. -/
def during (mapUpper : GoString → GoString) (bytes : GoString) (schedule : Schedule ι) :
    Config ι (Outcome WAL) WALPhase :=
  (walSystem mapUpper).run (opened mapUpper bytes) schedule

/-- The command that the next critical section of a client writes. -/
def WALPhase.mark : Outcome WAL → WALPhase → List Command
  | .ok _, .append cmd => [cmd]
  | _, _ => []

/-- The command that an event writes: the order of the marks is the order in which the writes take
the mutex. -/
def writeMark (c : Config ι (Outcome WAL) WALPhase) : Event ι WALCall → List Command
  | .enter _ _ => []
  | .advance i => (c.threads i).mark c.shared

/-- The commands written in a session. -/
def written (mapUpper : GoString → GoString) (bytes : GoString) (schedule : Schedule ι) :
    List Command :=
  (walSystem mapUpper).observed writeMark (opened mapUpper bytes) schedule

/-- Sessions on one file that follow each other: the bytes that the last one leaves, and the
commands written so far. -/
def sessions (mapUpper : GoString → GoString) :
    List (Schedule ι) → Outcome (GoString × List Command) :=
  List.foldlM (fun (bytes, log) schedule ↦ do
    let w ← (during mapUpper bytes schedule).shared
    return (w.close, log ++ written mapUpper bytes schedule)) ([], [])

/-- The command that a client is about to write is encodable. -/
def WALPhase.Encodes : WALPhase → Prop
  | .append cmd => cmd.Encodable
  | _ => True

/-- The commands of a schedule are encodable. -/
def Encodes (schedule : Schedule ι) : Prop :=
  ∀ i cmd, .enter i (.write cmd) ∈ schedule → cmd.Encodable

/-- The invariant of a session. -/
structure InSession (log : List Command) (c : Config ι (Outcome WAL) WALPhase)
    (marks : List Command) : Prop where
  shared : ∃ w, c.shared = .ok w ∧ w.Written (log ++ marks)
  encodable : ∀ cmd ∈ log ++ marks, cmd.Encodable
  pending : ∀ i, (c.threads i).Encodes

/-- One critical section. -/
theorem advance_written (mapUpper : GoString → GoString) {w : WAL} {log : List Command}
    (h : w.Written log) (hlog : ∀ cmd ∈ log, cmd.Encodable) {phase : WALPhase}
    (hphase : phase.Encodes) :
    ∃ after next, phase.advance mapUpper (.ok w) = (.ok after, next) ∧
      after.Written (log ++ phase.mark (.ok w)) ∧
      (∀ cmd ∈ phase.mark (.ok w), cmd.Encodable) ∧ next.Encodes := by
  have hnothing : log ++ [] = log := List.append_nil log
  cases phase with
  | idle => exact ⟨w, .idle, rfl, hnothing.symm ▸ h, nofun, trivial⟩
  | append cmd =>
    refine ⟨w.append cmd, _, rfl, h.append cmd, List.forall_mem_singleton.mpr hphase, ?_⟩
    split <;> exact trivial
  | flush => exact ⟨w.flush, .idle, rfl, hnothing.symm ▸ h.flush, nofun, trivial⟩
  | replay =>
    obtain ⟨after, hreplay, hafter⟩ := h.replay hlog mapUpper
    refine ⟨after, .idle, ?_, hnothing.symm ▸ hafter, nofun, trivial⟩
    rw [WALPhase.advance, hreplay]

/-- The invariant holds at every point of a session. -/
theorem inSession_during (mapUpper : GoString → GoString) {log : List Command}
    (hlog : ∀ cmd ∈ log, cmd.Encodable) {schedule : Schedule ι} (hschedule : Encodes schedule) :
    InSession log (during mapUpper (log.flatMap marshalCommand) schedule)
      (written mapUpper (log.flatMap marshalCommand) schedule) := by
  have hguarded : (walSystem mapUpper).Guarded
      (fun _ event ↦ ∀ i cmd, event = .enter i (.write cmd) → cmd.Encodable)
      (opened mapUpper (log.flatMap marshalCommand)) schedule :=
    ThreadSystem.guarded_of_forall fun _ event hevent i cmd hcmd ↦ hschedule i cmd (hcmd ▸ hevent)
  refine ThreadSystem.run_invariant writeMark (InSession log) [] ?_ ?_ ?_ hguarded
  · intro c marks i call hc _ hallowed
    rw [writeMark, List.append_nil]
    refine ⟨hc.shared, hc.encodable, ?_⟩
    refine (Function.forall_update_iff c.threads fun _ phase ↦ phase.Encodes).mpr
      ⟨?_, fun j _ ↦ hc.pending j⟩
    cases call with
    | write cmd => exact hallowed i cmd rfl
    | flush => exact trivial
    | replay => exact trivial
  · intro c marks i hc _ _
    obtain ⟨w, hw, hwritten⟩ := hc.shared
    obtain ⟨after, next, hstep, hlogged, hmark, hnext⟩ :=
      advance_written mapUpper hwritten hc.encodable (hc.pending i)
    have hadvance : (walSystem mapUpper).advance (.ok w) (c.threads i) = (.ok after, next) := hstep
    rw [hw, writeMark, hw, hadvance]
    refine ⟨⟨after, rfl, by rwa [← List.append_assoc]⟩, ?_, ?_⟩
    · rw [← List.append_assoc]
      exact List.forall_mem_append.mpr ⟨hc.encodable, hmark⟩
    · exact (Function.forall_update_iff c.threads fun _ phase ↦ phase.Encodes).mpr
        ⟨hnext, fun j _ ↦ hc.pending j⟩
  · obtain ⟨w, hreplay, hw⟩ := WAL.replay_NewWAL mapUpper hlog
    refine ⟨⟨w, ?_, by rwa [List.append_nil]⟩, by rwa [List.append_nil], fun _ ↦ trivial⟩
    rw [opened, hreplay]
    rfl

/-- What a session leaves in the file. -/
theorem exists_sessions (mapUpper : GoString → GoString) {past : List (Schedule ι)}
    (hpast : ∀ schedule ∈ past, Encodes schedule) :
    ∃ log : List Command, sessions mapUpper past = .ok (log.flatMap marshalCommand, log) ∧
      ∀ cmd ∈ log, cmd.Encodable := by
  induction past using List.reverseRecOn with
  | nil => exact ⟨[], rfl, by simp⟩
  | append_singleton past schedule ih =>
    obtain ⟨hpast, hlast⟩ := List.forall_mem_append.mp hpast
    obtain ⟨log, hlog, hencodable⟩ := ih hpast
    have hsession := inSession_during mapUpper hencodable
      (List.forall_mem_singleton.mp hlast)
    obtain ⟨w, hw, hwritten⟩ := hsession.shared
    refine ⟨log ++ written mapUpper (log.flatMap marshalCommand) schedule, ?_, hsession.encodable⟩
    unfold sessions at hlog ⊢
    rw [List.foldlM_append, hlog, ← hwritten.close]
    refine bind_eq_ok_iff.mpr ⟨_, rfl, ?_⟩
    rw [List.foldlM_cons]
    refine bind_eq_ok_iff.mpr ⟨_, bind_eq_ok_iff.mpr ⟨w, hw, rfl⟩, rfl⟩

/-- At every point of a session after its first replay, the file followed by the buffer is the
records of the commands written so far over all sessions, in the order in which the writes took the
mutex; after `Close` it is the file alone. Assumes: the commands are encodable. -/
theorem wal_sessions (mapUpper : GoString → GoString) {past : List (Schedule ι)}
    {schedule : Schedule ι} (hpast : ∀ schedule ∈ past, Encodes schedule)
    (hschedule : Encodes schedule) :
    ∃ bytes log w, sessions mapUpper past = .ok (bytes, log) ∧
      (during mapUpper bytes schedule).shared = .ok w ∧
      w.file.bytes ++ w.buf =
        (log ++ written mapUpper bytes schedule).flatMap marshalCommand ∧
      w.close = (log ++ written mapUpper bytes schedule).flatMap marshalCommand := by
  obtain ⟨log, hlog, hencodable⟩ := exists_sessions mapUpper hpast
  obtain ⟨w, hw, hwritten⟩ := (inSession_during mapUpper hencodable hschedule).shared
  exact ⟨_, log, w, hlog, hw, hwritten.records, hwritten.close⟩

/-- A session with one write, and a second one in which a client replays between the write and the
flush of another. -/
theorem wal_sessions_two : ∃ bytes log w,
    sessions id [[.enter true (.write ⟨text "SET", [text "a", text "1"]⟩), .advance true]] =
      .ok (bytes, log) ∧
    (during id bytes
      [.enter true (.write ⟨text "SET", [text "a", text "1"]⟩), .advance true,
        .enter false .replay, .advance false, .enter true .flush, .advance true]).shared = .ok w ∧
    w.file.bytes ++ w.buf = (log ++ written id bytes
      [.enter true (.write ⟨text "SET", [text "a", text "1"]⟩), .advance true,
        .enter false .replay, .advance false, .enter true .flush, .advance true]).flatMap
          marshalCommand ∧
    w.close = (log ++ written id bytes
      [.enter true (.write ⟨text "SET", [text "a", text "1"]⟩), .advance true,
        .enter false .replay, .advance false, .enter true .flush, .advance true]).flatMap
          marshalCommand := by
  have hset : (⟨text "SET", [text "a", text "1"]⟩ : Command).Encodable := by decide
  refine wal_sessions id (List.forall_mem_singleton.mpr ?_) ?_
  · intro i cmd hcmd
    obtain ⟨-, rfl⟩ : i = true ∧ cmd = ⟨text "SET", [text "a", text "1"]⟩ := by simpa using hcmd
    exact hset
  · intro i cmd hcmd
    obtain ⟨-, rfl⟩ : i = true ∧ cmd = ⟨text "SET", [text "a", text "1"]⟩ := by simpa using hcmd
    exact hset

end FluxCache.Persistence
