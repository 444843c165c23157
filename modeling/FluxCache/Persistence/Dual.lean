import FluxCache.Persistence.AOF
import FluxCache.Persistence.WAL

/-!
# Two copies

`DualPersistence` writes every command to two backends and replays the first of them only. A file is
opened with the offset at its start, and it is the replay of a log that moves the offset to the end.
So the first log appends, and the second one, which is never replayed, overwrites its file from the
start in every session that writes something.

A `RecordLog` is a log that writes commands as records, one behind another. It says what its file is
after a session in which it was replayed, and after one in which it was not (`Overwriting`). For any
two such logs the files after a number of sessions are given by `sessions_eq`. Both hold all
commands after every session exactly if at most one of the sessions has written anything
(`complete_iff`).
-/

set_option autoImplicit false
set_option relaxedAutoImplicit false

namespace FluxCache.Persistence

open Foundation Resp

/-! ### Logs of records -/

/-- A log that writes its commands as records. `Overwriting p bytes log` says that `p` was opened on
`bytes`, that it was not replayed, and that `log` was written to it. -/
class RecordLog (π : Type) extends LogInterface π where
  record : Command → GoString
  close_written : ∀ {p log}, Written p log → close p = log.flatMap record
  exists_replay : ∀ {log}, Readable log → ∀ mapUpper, ∃ p,
    replay mapUpper (openDisk (log.flatMap record)) = .ok (log, p) ∧ Written p log
  isPrefix_replay : ∀ {log cmds rest mapUpper p}, Readable log →
    replay mapUpper (openDisk (log.flatMap record ++ rest)) = .ok (cmds, p) → log <+: cmds
  Overwriting : π → GoString → List Command → Prop
  overwriting_open : ∀ bytes, Overwriting (openDisk bytes) bytes []
  overwriting_write : ∀ {p bytes log}, Overwriting p bytes log → ∀ cmd,
    Overwriting (write p cmd) bytes (log ++ [cmd])
  overwriting_tick : ∀ {p bytes log}, Overwriting p bytes log → Overwriting (tick p) bytes log
  close_overwriting : ∀ {p bytes log}, Overwriting p bytes log →
    close p = log.flatMap record ++ bytes.drop (log.flatMap record).length

namespace WAL

/-- A part of the records has been written over the file, and the rest is in the buffer. -/
def Overwriting (w : WAL) (bytes : GoString) (log : List Command) : Prop :=
  ∃ flushed, w.file.Overwritten bytes flushed ∧ flushed ++ w.buf = log.flatMap marshalCommand

theorem Overwriting.flush {w : WAL} {bytes : GoString} {log : List Command}
    (h : w.Overwriting bytes log) :
    w.flush.file.Overwritten bytes (log.flatMap marshalCommand) ∧ w.flush.buf = [] := by
  obtain ⟨flushed, hfile, hlog⟩ := h
  rw [← hlog, WAL.flush]
  by_cases hbuf : w.buf = []
  · rw [if_pos hbuf, hbuf, List.append_nil]
    exact ⟨hfile, rfl⟩
  · rw [if_neg hbuf]
    exact ⟨hfile.write w.buf, rfl⟩

theorem Overwriting.tick {w : WAL} {bytes : GoString} {log : List Command}
    (h : w.Overwriting bytes log) : w.flush.Overwriting bytes log :=
  ⟨_, h.flush.1, by rw [h.flush.2, List.append_nil]⟩

theorem Overwriting.write {w : WAL} {bytes : GoString} {log : List Command}
    (h : w.Overwriting bytes log) (cmd : Command) :
    (w.write cmd).Overwriting bytes (log ++ [cmd]) := by
  have happend : (w.append cmd).Overwriting bytes (log ++ [cmd]) := by
    obtain ⟨flushed, hfile, hlog⟩ := h
    refine ⟨flushed, hfile, ?_⟩
    rw [List.flatMap_append, ← hlog, List.append_assoc, List.flatMap_singleton]
    rfl
  unfold WAL.write
  split
  · exact happend.tick
  · exact happend

instance : RecordLog WAL where
  record := marshalCommand
  close_written := Written.close
  exists_replay := fun hlog mapUpper ↦ replay_NewWAL mapUpper hlog
  isPrefix_replay := fun hlog hreplay ↦ by
    obtain ⟨cmds, hloop, hreturn⟩ := bind_eq_ok_iff.mp hreplay
    obtain ⟨rfl, -⟩ := Prod.mk.inj (Except.ok.inj hreturn)
    exact isPrefix_of_replayLoop _ hlog hloop
  Overwriting := Overwriting
  overwriting_open := fun bytes ↦ ⟨[], File.overwritten_openFile bytes, rfl⟩
  overwriting_write := Overwriting.write
  overwriting_tick := Overwriting.tick
  close_overwriting := fun h ↦ h.flush.1.bytes

end WAL

namespace AOF

/-- Commands that are read from a file of their own are read from the front of a longer one. -/
theorem isPrefix_of_replay {log cmds : List Command} {rest : GoString}
    {mapUpper : GoString → GoString} {a : AOF} (hlog : Readable log)
    (hreplay : (NewAOF (log.flatMap aofRecord ++ rest)).replay mapUpper = .ok (cmds, a)) :
    log <+: cmds := by
  have hfile : (newResp (.file (log.flatMap aofRecord))).unread = log.flatMap aofRecord ++ [] := by
    rw [List.append_nil]
    exact Source.content_file _
  have hlonger : (newResp (.file (log.flatMap aofRecord ++ rest))).unread =
      log.flatMap aofRecord ++ rest := Source.content_file _
  have hahead : (newResp (.file (log.flatMap aofRecord))).Ahead rest
      (newResp (.file (log.flatMap aofRecord ++ rest))) := .source [] _
  have harrive := CommandsArrive.ahead hlog.arrive hfile hahead
  obtain ⟨⟨all, err, after⟩, hloop, hreturn⟩ := bind_eq_ok_iff.mp hreplay
  obtain ⟨rfl, -⟩ := Prod.mk.inj (Except.ok.inj hreturn)
  have hfront := isPrefix_of_aofLoop mapUpper hlog.sized hlonger harrive hloop
  rwa [map_upper_eq_self mapUpper hlog.upper] at hfront

instance : RecordLog AOF where
  record := aofRecord
  close_written := Written.records
  exists_replay := fun hlog mapUpper ↦ replay_NewAOF mapUpper hlog
  isPrefix_replay := isPrefix_of_replay
  Overwriting := fun a bytes log ↦ a.file.Overwritten bytes (log.flatMap aofRecord)
  overwriting_open := File.overwritten_openFile
  overwriting_write := fun h cmd ↦ by
    rw [List.flatMap_append, List.flatMap_singleton]
    exact h.write (aofRecord cmd)
  overwriting_tick := id
  close_overwriting := fun h ↦ h.bytes

end AOF

/-! ### The pair -/

/-- `DualPersistence`. -/
structure DualPersistence (π₁ π₂ : Type) where
  primary : π₁
  secondary : π₂

namespace DualPersistence

/-- What happens in a session after the replay: a write, or a tick of one of the two background
loops. -/
inductive Event
  | write (cmd : Command)
  | tickPrimary
  | tickSecondary

/-- The commands that are written in a session. -/
def writes (events : List Event) : List Command :=
  events.filterMap fun
    | .write cmd => some cmd
    | _ => none

/-- The commands that are written in some sessions. -/
def written (past : List (List Event)) : List Command := past.flatMap writes

/-- The sessions in which something is written. -/
def writing (past : List (List Event)) : List (List Event) :=
  past.filter fun events ↦ !(writes events).isEmpty

theorem written_concat (past : List (List Event)) (events : List Event) :
    written (past ++ [events]) = written past ++ writes events := by
  rw [written, List.flatMap_append, List.flatMap_singleton]
  rfl

theorem writing_concat (past : List (List Event)) (events : List Event) :
    writing (past ++ [events]) =
      if writes events = [] then writing past else writing past ++ [events] := by
  by_cases hnone : writes events = []
  · simp [writing, hnone]
  · simp [writing, hnone]

theorem writing_eq_nil_iff {past : List (List Event)} : writing past = [] ↔ written past = [] := by
  rw [writing, written, List.filter_eq_nil_iff, List.flatMap_eq_nil_iff]
  simp

section Calls

variable {δ₁ δ₂ π₁ π₂ : Type} [PersistenceInterface δ₁ π₁] [PersistenceInterface δ₂ π₂]

/-- `Write`. -/
def write (d : DualPersistence π₁ π₂) (cmd : Command) : DualPersistence π₁ π₂ :=
  ⟨PersistenceInterface.write d.primary cmd, PersistenceInterface.write d.secondary cmd⟩

/-- `Replay`, of the primary backend only. -/
def replay (mapUpper : GoString → GoString) (d : DualPersistence π₁ π₂) :
    Outcome (List Command × DualPersistence π₁ π₂) := do
  let (cmds, primary) ← PersistenceInterface.replay mapUpper d.primary
  return (cmds, { d with primary := primary })

/-- `Close`, with what the two backends leave on the disk. -/
def close (d : DualPersistence π₁ π₂) : δ₁ × δ₂ :=
  (PersistenceInterface.close d.primary, PersistenceInterface.close d.secondary)

/-- The effect of an event. -/
def step (d : DualPersistence π₁ π₂) : Event → DualPersistence π₁ π₂
  | .write cmd => d.write cmd
  | .tickPrimary => { d with primary := PersistenceInterface.tick d.primary }
  | .tickSecondary => { d with secondary := PersistenceInterface.tick d.secondary }

variable (π₁ π₂)

/-- A session: both backends are opened, `NewDualPersistence` puts them together, then come the
replay, the writes and `Close`. -/
def session (mapUpper : GoString → GoString) (disks : δ₁ × δ₂) (events : List Event) :
    Outcome (δ₁ × δ₂) := do
  let d : DualPersistence π₁ π₂ :=
    ⟨PersistenceInterface.openDisk disks.1, PersistenceInterface.openDisk disks.2⟩
  let (_, d) ← d.replay mapUpper
  return (events.foldl step d).close

end Calls

/-! ### Sessions on two files -/

section Sessions

variable (π₁ π₂ : Type) [RecordLog π₁] [RecordLog π₂] (mapUpper : GoString → GoString)

open RecordLog

/-- Sessions on two files that do not exist before. -/
def sessions (past : List (List Event)) : Outcome (GoString × GoString) :=
  past.foldlM (session π₁ π₂ mapUpper) ([], [])

/-- A replay of either file passes on the commands. -/
def Complete (files : GoString × GoString) (log : List Command) : Prop :=
  (∃ p : π₁, PersistenceInterface.replay mapUpper (PersistenceInterface.openDisk files.1) =
      .ok (log, p)) ∧
    ∃ p : π₂, PersistenceInterface.replay mapUpper (PersistenceInterface.openDisk files.2) =
      .ok (log, p)

/-- The bytes that sessions leave in a file that is never replayed: every session writes its records
over the start of the file. -/
def overwritten (past : List (List Event)) : GoString :=
  past.foldl (fun bytes events ↦ (writes events).flatMap (record π₂) ++
    bytes.drop ((writes events).flatMap (record π₂)).length) []

variable {π₁ π₂}

theorem overwritten_concat (past : List (List Event)) (events : List Event) :
    overwritten π₂ (past ++ [events]) = (writes events).flatMap (record π₂) ++
      (overwritten π₂ past).drop ((writes events).flatMap (record π₂)).length := by
  rw [overwritten, List.foldl_append]
  rfl

/-- The primary backend is replayed, the secondary is not. -/
structure InSession (d : DualPersistence π₁ π₂) (log : List Command) (bytes : GoString)
    (cmds : List Command) : Prop where
  primary : LogInterface.Written d.primary (log ++ cmds)
  secondary : Overwriting d.secondary bytes cmds

theorem InSession.step {d : DualPersistence π₁ π₂} {log cmds : List Command} {bytes : GoString}
    (h : d.InSession log bytes cmds) (event : Event) :
    (d.step event).InSession log bytes (cmds ++ writes [event]) := by
  cases event with
  | write cmd =>
    refine ⟨?_, overwriting_write h.secondary cmd⟩
    rw [← List.append_assoc]
    exact LogInterface.written_write h.primary cmd
  | tickPrimary =>
    rw [show writes [.tickPrimary] = [] from rfl, List.append_nil]
    exact ⟨LogInterface.written_tick h.primary, h.secondary⟩
  | tickSecondary =>
    rw [show writes [.tickSecondary] = [] from rfl, List.append_nil]
    exact ⟨h.primary, overwriting_tick h.secondary⟩

theorem InSession.run {d : DualPersistence π₁ π₂} {log : List Command} {bytes : GoString}
    (h : d.InSession log bytes []) (events : List Event) :
    (events.foldl DualPersistence.step d).InSession log bytes (writes events) := by
  induction events using List.reverseRecOn with
  | nil => exact h
  | append_singleton events event ih =>
    rw [List.foldl_append, writes, List.filterMap_append]
    exact ih.step event

/-- What a session leaves in the two files. -/
theorem session_eq {log : List Command} (hlog : LogInterface.Readable π₁ log) (bytes : GoString)
    (events : List Event) :
    session π₁ π₂ mapUpper (log.flatMap (record π₁), bytes) events =
      .ok ((log ++ writes events).flatMap (record π₁),
        (writes events).flatMap (record π₂) ++
          bytes.drop ((writes events).flatMap (record π₂)).length) := by
  obtain ⟨p, hreplay, hwritten⟩ := exists_replay hlog mapUpper
  have hstart : (⟨p, PersistenceInterface.openDisk bytes⟩ : DualPersistence π₁ π₂).InSession log
      bytes [] := ⟨by rwa [List.append_nil], overwriting_open bytes⟩
  have hend := hstart.run events
  rw [session, replay, hreplay, ← close_written hend.primary, ← close_overwriting hend.secondary]
  rfl

/-- What sessions leave in the two files. Assumes: the primary log reads back what it has written
before every session. -/
theorem sessions_eq {past : List (List Event)}
    (hread : ∀ part, part <+: past → LogInterface.Readable π₁ (written part)) :
    sessions π₁ π₂ mapUpper past =
      .ok ((written past).flatMap (record π₁), overwritten π₂ past) := by
  induction past using List.reverseRecOn with
  | nil => rfl
  | append_singleton past events ih =>
    have hpast := ih fun part hpart ↦ hread part (hpart.trans (List.prefix_append _ _))
    have hlog := hread past (List.prefix_append _ _)
    unfold sessions at hpast ⊢
    rw [List.foldlM_append, hpast, ok_bind, List.foldlM_cons, session_eq mapUpper hlog,
      written_concat, overwritten_concat]
    rfl

/-- A file that only one session writes to holds the records of that session. -/
theorem overwritten_eq {past : List (List Event)} (hpast : (writing past).length ≤ 1) :
    overwritten π₂ past = (written past).flatMap (record π₂) := by
  induction past using List.reverseRecOn with
  | nil => rfl
  | append_singleton past events ih =>
    rw [overwritten_concat, written_concat]
    rw [writing_concat] at hpast
    by_cases hnone : writes events = []
    · rw [if_pos hnone] at hpast
      rw [hnone, ih hpast, List.append_nil]
      rfl
    · rw [if_neg hnone, List.length_append] at hpast
      have hfirst : writing past = [] := List.eq_nil_of_length_eq_zero (Nat.le_zero.mp
        (Nat.le_of_add_le_add_right hpast))
      rw [ih (by rw [hfirst]; exact Nat.zero_le 1), writing_eq_nil_iff.mp hfirst, List.flatMap_nil,
        List.drop_nil, List.append_nil, List.nil_append]

/-- Assumes: two sessions that write something. After the second one the file that is overwritten
does not pass on the commands of both. -/
theorem replay_overwritten_ne {first second : List Command} (hfirst : first ≠ [])
    (hsecond : second ≠ []) (hread : LogInterface.Readable π₂ first)
    (hlast : LogInterface.Readable π₂ second) {p : π₂} :
    PersistenceInterface.replay mapUpper (PersistenceInterface.openDisk
      (second.flatMap (record π₂) ++
        (first.flatMap (record π₂)).drop (second.flatMap (record π₂)).length)) ≠
      .ok (first ++ second, p) := by
  intro hreplay
  have hfront : second <+: first ++ second := isPrefix_replay hlast hreplay
  rcases Nat.le_total first.length second.length with hle | hle
  · obtain ⟨tail, rfl⟩ := List.prefix_of_prefix_length_le (List.prefix_append first _) hfront hle
    have hnothing : (first.flatMap (record π₂)).drop
        ((first ++ tail).flatMap (record π₂)).length = [] := by
      rw [List.flatMap_append, List.length_append]
      exact List.drop_eq_nil_of_le (Nat.le_add_right _ _)
    obtain ⟨q, hagain, -⟩ := exists_replay hlast mapUpper
    rw [hnothing, List.append_nil, hagain] at hreplay
    exact hfirst (List.self_eq_append_left.mp (Prod.mk.inj (Except.ok.inj hreplay)).1)
  · obtain ⟨tail, rfl⟩ := List.prefix_of_prefix_length_le hfront (List.prefix_append first _) hle
    obtain ⟨q, hagain, -⟩ := exists_replay hread mapUpper
    rw [List.flatMap_append] at hagain
    rw [List.flatMap_append, List.drop_left, hagain] at hreplay
    exact hsecond (List.self_eq_append_right.mp (Prod.mk.inj (Except.ok.inj hreplay)).1)

/-- Both files pass on all commands after every session exactly if at most one session has written
anything. Assumes: the logs read back the commands of every session alone and of the sessions up to
every point. -/
theorem complete_iff {past : List (List Event)}
    (hprimary : ∀ part, part <+: past → LogInterface.Readable π₁ (written part))
    (hsecondary : ∀ part, part <+: past → LogInterface.Readable π₂ (written part))
    (halone : ∀ events ∈ past, LogInterface.Readable π₂ (writes events)) :
    (∀ part, part <+: past → ∃ files, sessions π₁ π₂ mapUpper part = .ok files ∧
        Complete π₁ π₂ mapUpper files (written part)) ↔
      (writing past).length ≤ 1 := by
  constructor
  · intro hall
    induction past using List.reverseRecOn with
    | nil => exact Nat.zero_le 1
    | append_singleton past events ih =>
      have hpart {part : List (List Event)} (h : part <+: past) : part <+: past ++ [events] :=
        h.trans (List.prefix_append past [events])
      have hpast := ih (fun part h ↦ hprimary part (hpart h))
        (fun part h ↦ hsecondary part (hpart h))
        (fun e he ↦ halone e (List.mem_append_left _ he)) (fun part h ↦ hall part (hpart h))
      rw [writing_concat]
      by_cases hnone : writes events = []
      · rw [if_pos hnone]
        exact hpast
      · rw [if_neg hnone, List.length_append]
        by_cases hfirst : writing past = []
        · rw [hfirst]
          exact Nat.le_refl 1
        · obtain ⟨files, hfiles, -, p, hreplay⟩ := hall _ (List.prefix_refl _)
          rw [sessions_eq mapUpper hprimary] at hfiles
          obtain rfl := Except.ok.inj hfiles
          rw [overwritten_concat, overwritten_eq hpast, written_concat] at hreplay
          refine absurd hreplay (replay_overwritten_ne mapUpper (writing_eq_nil_iff.not.mp hfirst)
            hnone ?_ ?_)
          · exact hsecondary past (hpart (List.prefix_refl _))
          · exact halone events (List.mem_append_right _ (List.mem_singleton_self _))
  · intro honce part hpart
    have hpartOnce : (writing part).length ≤ 1 :=
      (hpart.sublist.filter _).length_le.trans honce
    refine ⟨_, sessions_eq mapUpper fun p hp ↦ hprimary p (hp.trans hpart), ?_, ?_⟩
    · obtain ⟨p, hreplay, -⟩ := exists_replay (hprimary part hpart) mapUpper
      exact ⟨p, hreplay⟩
    · obtain ⟨p, hreplay, -⟩ := exists_replay (hsecondary part hpart) mapUpper
      rw [overwritten_eq hpartOnce]
      exact ⟨p, hreplay⟩

end Sessions

/-- Two write-ahead logs, and likewise two append-only files, pass on all commands of all sessions
after every session exactly if at most one session writes something. Assumes: the backends read back
what was written to them, which for a write-ahead log are encodable commands, and for an append-only
file readable ones, those of each session alone and those of the sessions up to every point. -/
theorem dual_copies_iff (mapUpper : GoString → GoString) (past : List (List Event)) :
    ((∀ cmd ∈ written past, cmd.Encodable) →
      ((∀ part, part <+: past → ∃ files, sessions WAL WAL mapUpper part = .ok files ∧
          Complete WAL WAL mapUpper files (written part)) ↔ (writing past).length ≤ 1)) ∧
    ((∀ part, part <+: past → AOF.Readable (written part)) →
      (∀ events ∈ past, AOF.Readable (writes events)) →
      ((∀ part, part <+: past → ∃ files, sessions AOF AOF mapUpper part = .ok files ∧
          Complete AOF AOF mapUpper files (written part)) ↔ (writing past).length ≤ 1)) := by
  refine ⟨fun hencodable ↦ ?_, fun hread halone ↦ complete_iff mapUpper hread hread halone⟩
  have hpart (part : List (List Event)) (h : part <+: past) :
      ∀ cmd ∈ written part, cmd.Encodable := by
    intro cmd hcmd
    obtain ⟨events, hevents, hwrites⟩ := List.mem_flatMap.mp hcmd
    exact hencodable cmd (List.mem_flatMap.mpr ⟨events, h.mem hevents, hwrites⟩)
  refine complete_iff mapUpper hpart hpart fun events hevents cmd hcmd ↦ ?_
  exact hencodable cmd (List.mem_flatMap.mpr ⟨events, hevents, hcmd⟩)

/-- A session that writes, and one that does not. -/
theorem dual_copies_iff_once :
    (∃ files, sessions WAL WAL id [[.write ⟨text "SET", [text "a", text "1"]⟩], [.tickPrimary]] =
        .ok files ∧
      Complete WAL WAL id files [⟨text "SET", [text "a", text "1"]⟩]) ∧
    ∃ files, sessions AOF AOF id [[.write ⟨text "SET", [text "a", text "1"]⟩], [.tickPrimary]] =
        .ok files ∧
      Complete AOF AOF id files [⟨text "SET", [text "a", text "1"]⟩] := by
  have hset : AOF.Readable [⟨text "SET", [text "a", text "1"]⟩] := by decide
  have hnil : AOF.Readable [] := by decide
  obtain ⟨hwal, haof⟩ :=
    dual_copies_iff id [[.write ⟨text "SET", [text "a", text "1"]⟩], [.tickPrimary]]
  refine ⟨(hwal ?_).mpr (by decide) _ (List.prefix_refl _),
    (haof ?_ ?_).mpr (by decide) _ (List.prefix_refl _)⟩
  · exact List.forall_mem_singleton.mpr (by decide)
  · intro part hpart
    have hcases : part = [] ∨ ∃ tail,
        part = [.write ⟨text "SET", [text "a", text "1"]⟩] :: tail ∧
          (tail = [] ∨ tail = [[.tickPrimary]]) := by
      simpa [List.prefix_cons_iff] using hpart
    rcases hcases with rfl | ⟨tail, rfl, rfl | rfl⟩
    · exact hnil
    · exact hset
    · exact hset
  · exact List.forall_mem_cons.mpr ⟨hset, List.forall_mem_singleton.mpr hnil⟩

/-- Two sessions with one write each: the second file passes on only the second one. -/
theorem dual_secondary_overwritten :
    (∃ files, sessions WAL WAL id [[.write ⟨text "SET", [text "a", text "1"]⟩],
        [.write ⟨text "SET", [text "b", text "2"]⟩]] = .ok files ∧
      (∃ p, (NewWAL files.1).replay id = .ok ([⟨text "SET", [text "a", text "1"]⟩,
        ⟨text "SET", [text "b", text "2"]⟩], p)) ∧
      ∃ p, (NewWAL files.2).replay id = .ok ([⟨text "SET", [text "b", text "2"]⟩], p)) ∧
    ∃ files, sessions AOF AOF id [[.write ⟨text "SET", [text "a", text "1"]⟩],
        [.write ⟨text "SET", [text "b", text "2"]⟩]] = .ok files ∧
      (∃ p, (NewAOF files.1).replay id = .ok ([⟨text "SET", [text "a", text "1"]⟩,
        ⟨text "SET", [text "b", text "2"]⟩], p)) ∧
      ∃ p, (NewAOF files.2).replay id = .ok ([⟨text "SET", [text "b", text "2"]⟩], p) :=
  ⟨⟨_, rfl, ⟨_, rfl⟩, _, rfl⟩, _, rfl, ⟨_, rfl⟩, _, rfl⟩

end DualPersistence

end FluxCache.Persistence
