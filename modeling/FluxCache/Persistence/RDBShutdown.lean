import FluxCache.Persistence.RDBSessions
import FluxCache.Persistence.RDBCrash

/-!
# The shutdown of the snapshotter

One goroutine writes commands and then calls `Close`; the goroutine of `snapshotLoop` takes the
snapshots. `Close` closes the channel `done` and returns, and the loop takes its last snapshot when
it receives from the channel, before or after that. A `Shutdown` is a state of both, and a schedule
says which of them takes the next step: a write, the closing of the channel or the return of
`Close`, a snapshot at a tick, or the last snapshot.

When `Close` returns, the file holds the last snapshot that was taken so far. So it holds everything
that was written exactly if the copy was complete at that snapshot (`rdb_shutdown_iff`), for which
it is enough that the loop has exited.
-/

set_option autoImplicit false
set_option relaxedAutoImplicit false

namespace FluxCache.Persistence

open Foundation Store

/-! ### The two goroutines -/

/-- What the goroutine that writes has left to do: commands to write and then `Close`, the return
of `Close` after the channel is closed, or nothing. -/
inductive Writer
  | writing (pending : List Command)
  | closing
  | returned

/-- The commands that are not yet written. -/
def Writer.pending : Writer → List Command
  | .writing cmds => cmds
  | .closing => []
  | .returned => []

/-- The snapshotter, its channel and its two goroutines. -/
structure Shutdown where
  rdb : RDB
  done : Bool
  writer : Writer
  exited : Bool

/-- Who takes the next step. The loop has two cases: its ticker, and its channel. -/
inductive Choice
  | writer
  | ticker
  | done

namespace Shutdown

/-- A new snapshotter, and commands to write before `Close`. -/
def start (disk : RDBDisk) (cmds : List Command) : Shutdown :=
  ⟨NewRDB disk, false, .writing cmds, false⟩

/-- The step takes a snapshot. The loop receives from the channel only if it is closed. -/
def snapshots (s : Shutdown) : Choice → Bool
  | .writer => false
  | .ticker => !s.exited
  | .done => !s.exited && s.done

/-- One step. A goroutine that has nothing to do waits. -/
def step (env : Environment) (s : Shutdown) : Choice → Shutdown
  | .writer =>
    match s.writer with
    | .writing (cmd :: pending) => { s with rdb := s.rdb.write cmd, writer := .writing pending }
    | .writing [] => { s with done := true, writer := .closing }
    | .closing => { s with writer := .returned }
    | .returned => s
  | .ticker => if s.snapshots .ticker then { s with rdb := s.rdb.snapshot env } else s
  | .done =>
    if s.snapshots .done then { s with rdb := s.rdb.snapshot env, exited := true } else s

/-- The effect of a schedule. -/
def run (env : Environment) (s : Shutdown) (schedule : List Choice) : Shutdown :=
  schedule.foldl (step env) s

/-- The maps of which snapshots are taken, in their order. -/
def history (env : Environment) : Shutdown → List Choice → List MapStore
  | _, [] => []
  | s, choice :: schedule =>
    (if s.snapshots choice then [s.rdb.maps] else []) ++ history env (s.step env choice) schedule

variable {env : Environment} {s : Shutdown}

theorem history_append (first second : List Choice) :
    s.history env (first ++ second) =
      s.history env first ++ (s.run env first).history env second := by
  induction first generalizing s with
  | nil => rfl
  | cons choice first ih =>
    rw [List.cons_append, history, ih, history, List.append_assoc]
    rfl

/-! ### The steps -/

/-- What a step does to the file. -/
theorem file_step (choice : Choice) :
    (s.step env choice).rdb.file =
      if s.snapshots choice then some (writeSnapshot env s.rdb.requests s.rdb.maps).flatten
      else s.rdb.file := by
  cases choice with
  | ticker =>
    rw [step]
    split <;> rfl
  | done =>
    rw [step]
    split <;> rfl
  | writer =>
    obtain ⟨rdb, done, writer, exited⟩ := s
    match writer with
    | .writing (cmd :: pending) =>
      show (rdb.write cmd).file = rdb.file
      rw [RDB.write_eq]
    | .writing [] => rfl
    | .closing => rfl
    | .returned => rfl

/-- The file after a schedule is its last snapshot. -/
theorem exists_file_run (schedule : List Choice) :
    ∃ i, (s.run env schedule).rdb.file = (s.history env schedule).getLast?.elim s.rdb.file
      fun maps ↦ some (writeSnapshot env i maps).flatten := by
  induction schedule using List.reverseRecOn with
  | nil => exact ⟨0, rfl⟩
  | append_singleton schedule choice ih =>
    have hrun : s.run env (schedule ++ [choice]) = (s.run env schedule).step env choice :=
      List.foldl_append
    rw [hrun, file_step, history_append, history, history, List.append_nil]
    split
    · refine ⟨(s.run env schedule).rdb.requests, ?_⟩
      rw [List.getLast?_append, List.getLast?_singleton, Option.some_or]
      rfl
    · rw [List.append_nil]
      exact ih

/-- The copy holds the commands that are written, and the channel is closed only after the last
one. -/
structure Tracks (cmds : List Command) (s : Shutdown) : Prop where
  written : ∃ written, written ++ s.writer.pending = cmds ∧ s.rdb.maps = contents written
  done : s.done = true → s.writer.pending = []

theorem tracks_start (disk : RDBDisk) (cmds : List Command) : Tracks cmds (start disk cmds) :=
  ⟨⟨[], rfl, rfl⟩, nofun⟩

variable {cmds : List Command}

theorem Tracks.step (h : Tracks cmds s) (choice : Choice) : Tracks cmds (s.step env choice) := by
  cases choice with
  | ticker =>
    rw [Shutdown.step]
    split
    · exact ⟨h.written, h.done⟩
    · exact h
  | done =>
    rw [Shutdown.step]
    split
    · exact ⟨h.written, h.done⟩
    · exact h
  | writer =>
    obtain ⟨rdb, done, writer, exited⟩ := s
    obtain ⟨⟨written, hcmds, hmaps⟩, hdone⟩ := h
    match writer with
    | .returned => exact ⟨⟨written, hcmds, hmaps⟩, hdone⟩
    | .closing => exact ⟨⟨written, hcmds, hmaps⟩, fun _ ↦ rfl⟩
    | .writing [] => exact ⟨⟨written, hcmds, hmaps⟩, fun _ ↦ rfl⟩
    | .writing (cmd :: pending) =>
      refine ⟨⟨written ++ [cmd], (List.append_assoc ..).trans hcmds, ?_⟩,
        fun h ↦ absurd (hdone h) (List.cons_ne_nil cmd pending)⟩
      rw [contents_append, ← hmaps]
      exact congrArg RDB.maps (RDB.write_eq rdb cmd)

theorem Tracks.run (h : Tracks cmds s) (schedule : List Choice) :
    Tracks cmds (s.run env schedule) := by
  induction schedule generalizing s with
  | nil => exact h
  | cons choice schedule ih => exact ih (h.step choice)

/-- Every snapshot is one of the first commands. -/
theorem Tracks.exists_of_mem_history (h : Tracks cmds s) {schedule : List Choice} {maps : MapStore}
    (hmaps : maps ∈ s.history env schedule) :
    ∃ written, written <+: cmds ∧ maps = contents written := by
  induction schedule generalizing s with
  | nil => exact absurd hmaps List.not_mem_nil
  | cons choice schedule ih =>
    rw [history, List.mem_append] at hmaps
    rcases hmaps with hfirst | hrest
    · split at hfirst
      · obtain ⟨written, hcmds, hwritten⟩ := h.written
        exact ⟨written, ⟨_, hcmds⟩, (List.mem_singleton.mp hfirst).trans hwritten⟩
      · exact absurd hfirst List.not_mem_nil
    · exact ih (h.step choice) hrest

/-- After the channel is closed the copy is complete. -/
theorem Tracks.maps_of_done (h : Tracks cmds s) (hdone : s.done = true) :
    s.rdb.maps = contents cmds := by
  obtain ⟨written, hcmds, hmaps⟩ := h.written
  rw [h.done hdone, List.append_nil] at hcmds
  rw [hmaps, hcmds]

/-- The loop exits when it receives from the channel. -/
theorem exited_step {choice : Choice} (hs : s.exited = false)
    (hexited : (s.step env choice).exited = true) : choice = .done ∧ s.done = true := by
  cases choice with
  | ticker =>
    rw [Shutdown.step] at hexited
    split at hexited <;> exact absurd (hs.symm.trans hexited) (by decide)
  | done =>
    rw [Shutdown.step] at hexited
    split at hexited
    · rename_i hsnapshots
      exact ⟨rfl, (Bool.and_eq_true_iff.mp hsnapshots).2⟩
    · exact absurd (hs.symm.trans hexited) (by decide)
  | writer =>
    obtain ⟨rdb, done, writer, exited⟩ := s
    match writer with
    | .writing (_ :: _) => exact absurd (hs.symm.trans hexited) (by decide)
    | .writing [] => exact absurd (hs.symm.trans hexited) (by decide)
    | .closing => exact absurd (hs.symm.trans hexited) (by decide)
    | .returned => exact absurd (hs.symm.trans hexited) (by decide)

/-- If the loop has exited, the last snapshot was complete. -/
theorem getLast_history_of_exited (h : Tracks cmds s) (hs : s.exited = false)
    {schedule : List Choice} (hexited : (s.run env schedule).exited = true) :
    (s.history env schedule).getLast? = some (contents cmds) := by
  induction schedule using List.reverseRecOn with
  | nil => exact absurd (hs.symm.trans hexited) (by decide)
  | append_singleton schedule choice ih =>
    have hrun : s.run env (schedule ++ [choice]) = (s.run env schedule).step env choice :=
      List.foldl_append
    rw [hrun] at hexited
    rw [history_append, history, history, List.append_nil]
    cases hbefore : (s.run env schedule).exited with
    | true =>
      have hnone : (s.run env schedule).snapshots choice = false := by
        cases choice <;> simp [snapshots, hbefore]
      rw [hnone]
      exact (congrArg List.getLast? (List.append_nil _)).trans (ih hbefore)
    | false =>
      obtain ⟨rfl, hdone⟩ := exited_step hbefore hexited
      have hsome : (s.run env schedule).snapshots .done = true := by
        simp [snapshots, hbefore, hdone]
      rw [hsome, if_pos rfl, List.getLast?_append, List.getLast?_singleton, Option.some_or,
        (h.run schedule).maps_of_done hdone]

end Shutdown

/-! ### When `Close` returns -/

/-- A replay of the file gives back every value that the maps hold. -/
def Holds (file : Option GoString) (maps : MapStore) : Prop :=
  ∀ slot value, maps.valueAt slot = some value → (restored file).valueAt slot = some value

/-- A snapshot of the first commands holds what all of them leave exactly if the first ones leave
that already, without an empty string under the empty key. -/
theorem holds_snapshot_iff {env : Environment} {i : ℕ} {written cmds : List Command}
    (hwritten : written <+: cmds) (hfits : FitsReads (contents written)) :
    Holds (some (writeSnapshot env i (contents written)).flatten) (contents cmds) ↔
      contents written = contents cmds ∧ (contents cmds).valueAt (.string []) ≠ some [] := by
  have hrestored (slot : Slot) :
      (restored (some (writeSnapshot env i (contents written)).flatten)).valueAt slot =
        if slot = .string [] ∧ (contents written).valueAt slot = some [] then none
        else (contents written).valueAt slot := by
    rw [restored, replayFile_snapshot env i hfits]
    exact valueAt_saved slot
  constructor
  · intro hholds
    have hsame : contents written = contents cmds := by
      refine MapStore.eq_of_valueAt (noEmptyHash_contents _) (noEmptyHash_contents _) fun slot ↦ ?_
      cases hvalue : (contents cmds).valueAt slot with
      | none =>
        obtain ⟨rest, rfl⟩ := hwritten
        rw [contents_append_or] at hvalue
        exact (Option.or_eq_none_iff.mp hvalue).2
      | some value =>
        have hfound := hholds slot value hvalue
        rw [hrestored, Option.ite_none_left_eq_some] at hfound
        exact hfound.2
    refine ⟨hsame, fun hempty ↦ ?_⟩
    have hfound := hholds (.string []) [] hempty
    rw [hrestored, hsame, if_pos ⟨rfl, hempty⟩] at hfound
    exact absurd hfound (by simp)
  · rintro ⟨hsame, hfull⟩ slot value hvalue
    rw [hrestored, hsame, hvalue, if_neg]
    rintro ⟨rfl, hempty⟩
    exact hfull (hvalue.trans hempty)

/-- When `Close` returns, the file holds every value that was written exactly if the last snapshot
so far was taken of a complete copy without an empty string under the empty key, or if there was
none and the file of an earlier session holds these values. The first is so if the loop has exited
and that pair was not written. Assumes: the numbers in each snapshot are below 2^32, and one read
gives each of its texts. -/
theorem rdb_shutdown_iff (env : Environment) (disk : RDBDisk) {cmds : List Command}
    {schedule : List Choice}
    (hclosing : ((Shutdown.start disk cmds).run env schedule).writer = .closing)
    (hfits : ∀ written, written <+: cmds → FitsReads (contents written)) :
    let closed := (Shutdown.start disk cmds).run env (schedule ++ [.writer])
    let last := ((Shutdown.start disk cmds).history env schedule).getLast?
    closed.writer = .returned ∧
      (Holds closed.rdb.file (contents cmds) ↔
        last.elim (Holds disk.file (contents cmds)) fun maps ↦
          maps = contents cmds ∧ (contents cmds).valueAt (.string []) ≠ some []) ∧
      (closed.exited = true → last = some (contents cmds)) := by
  intro closed last
  have htracks := Shutdown.tracks_start disk cmds
  have hclosed : closed =
      { (Shutdown.start disk cmds).run env schedule with writer := .returned } := by
    show Shutdown.run env _ _ = _
    rw [Shutdown.run, List.foldl_append]
    show Shutdown.step env (Shutdown.run env _ schedule) .writer = _
    rw [Shutdown.step, hclosing]
  rw [hclosed]
  refine ⟨rfl, ?_, Shutdown.getLast_history_of_exited htracks rfl⟩
  obtain ⟨i, hfile⟩ : ∃ i, ((Shutdown.start disk cmds).run env schedule).rdb.file =
      last.elim disk.file fun maps ↦ some (writeSnapshot env i maps).flatten :=
    Shutdown.exists_file_run schedule
  show Holds ((Shutdown.start disk cmds).run env schedule).rdb.file _ ↔ _
  rw [hfile]
  cases hlast : last with
  | none => rfl
  | some maps =>
    obtain ⟨written, hwritten, rfl⟩ :=
      htracks.exists_of_mem_history (List.mem_of_getLast? hlast)
    exact holds_snapshot_iff hwritten (hfits written hwritten)

/-- The last snapshot of the loop comes before `Close` returns. -/
theorem rdb_shutdown_exited :
    Holds ((Shutdown.start ⟨none, 0⟩ [⟨text "SET", [text "a", text "1"]⟩]).run stillClock
      ([.writer, .ticker, .writer, .done] ++ [.writer])).rdb.file
      (contents [⟨text "SET", [text "a", text "1"]⟩]) := by
  refine (rdb_shutdown_iff stillClock ⟨none, 0⟩ rfl fun written hwritten ↦ ?_).2.1.mpr
    ⟨rfl, by decide⟩
  refine fits_contents (hwritten.length_le.trans_lt (by decide)) fun w hw ↦ ?_
  have hshort : ∀ w ∈ [⟨text "SET", [text "a", text "1"]⟩].filterMap replayWrite,
      Short (maxRW + 1) w := by
    decide
  exact hshort w ((hwritten.sublist.filterMap replayWrite).subset hw)

/-- `Close` returns before the loop has taken a snapshot: nothing is on the disk. -/
theorem rdb_shutdown_lost :
    let closed := (Shutdown.start ⟨none, 0⟩ [⟨text "SET", [text "a", text "1"]⟩]).run stillClock
      [.writer, .writer, .writer]
    closed.writer = .returned ∧ closed.rdb.file = none ∧
      (restored closed.rdb.file).get (text "a") = ([], false) :=
  ⟨rfl, rfl, rfl⟩

end FluxCache.Persistence
