import FluxCache.Persistence.RDB

/-!
# Sessions of the snapshotter

Sessions follow each other on one path. Each makes a new `RDB`, whose copy of the strings and hashes
is empty; a replay passes the commands of the file on, but does not put them into the copy. So every
snapshot of a session replaces the file by what was written in that session alone
(`file_sessions_append`), and what an earlier session wrote stays only where the last one has
written too (`Rewritten`).
-/

set_option autoImplicit false
set_option relaxedAutoImplicit false

namespace FluxCache.Persistence

open Foundation Store

/-! ### Sessions -/

/-- The calls of a session, each of which holds the mutex from its start to its end. The ticks of
the background loop are calls of `Snapshot`. -/
inductive RDBCall
  | write (cmd : Command)
  | snapshot
  | replay

/-- The effect of a call. A replay changes nothing. -/
def RDB.call (env : Environment) (r : RDB) : RDBCall → RDB
  | .write cmd => r.write cmd
  | .snapshot => r.snapshot env
  | .replay => r

/-- A session, from `NewRDB` to the snapshot after `Close`. -/
def rdbSession (env : Environment) (disk : RDBDisk) (calls : List RDBCall) : RDBDisk :=
  (calls.foldl (RDB.call env) (NewRDB disk)).close env

/-- Sessions that follow each other. -/
def rdbSessions (env : Environment) (disk : RDBDisk) (sessions : List (List RDBCall)) : RDBDisk :=
  sessions.foldl (rdbSession env) disk

/-- The command that a call writes. -/
def RDBCall.command : RDBCall → Option Command
  | .write cmd => some cmd
  | .snapshot => none
  | .replay => none

/-- The commands written in a session. -/
def commandsOf (calls : List RDBCall) : List Command := calls.filterMap RDBCall.command

/-! ### What a session leaves -/

section Session

variable {env : Environment}

theorem RDB.maps_call (r : RDB) (call : RDBCall) :
    (r.call env call).maps = writeAll r.maps (call.command.toList.filterMap replayWrite) := by
  cases call with
  | snapshot => rfl
  | replay => rfl
  | write cmd =>
    rw [RDB.call, RDB.write_eq, RDBCall.command, Option.toList_some, List.filterMap_cons]
    cases replayWrite cmd <;> rfl

/-- After some calls the copy holds what they have written. -/
theorem RDB.maps_calls (r : RDB) (calls : List RDBCall) :
    (calls.foldl (RDB.call env) r).maps =
      writeAll r.maps ((commandsOf calls).filterMap replayWrite) := by
  induction calls generalizing r with
  | nil => rfl
  | cons call calls ih =>
    have hcommands : commandsOf (call :: calls) = call.command.toList ++ commandsOf calls := by
      rw [commandsOf, List.filterMap_cons]
      cases call.command <;> rfl
    rw [List.foldl_cons, ih, RDB.maps_call, hcommands, List.filterMap_append, writeAll_append]

/-- The file after some sessions is a snapshot of what the last one has written. -/
theorem file_sessions_append (disk : RDBDisk) (past : List (List RDBCall)) (last : List RDBCall) :
    ∃ i, (rdbSessions env disk (past ++ [last])).file =
      some (writeSnapshot env i (contents (commandsOf last))).flatten := by
  refine ⟨(last.foldl (RDB.call env) (NewRDB (rdbSessions env disk past))).requests, ?_⟩
  have hmaps := @RDB.maps_calls env (NewRDB (rdbSessions env disk past)) last
  rw [rdbSessions, List.foldl_append, List.foldl_cons, List.foldl_nil, rdbSession, RDB.close,
    RDB.snapshot]
  rw [rdbSessions] at hmaps
  rw [hmaps]
  rfl

/-! ### What stays of earlier sessions -/

/-- Every place that some commands write to is written to by others too. -/
def Rewritten (earlier later : List Command) : Prop :=
  ∀ w ∈ earlier.filterMap replayWrite, ∃ w' ∈ later.filterMap replayWrite, w'.slot = w.slot

/-- The last session, if there is one, writes to all places to which earlier ones have written, and
does not leave an empty string under the empty key. -/
def KeptByLast (sessions : List (List RDBCall)) : Prop :=
  ∀ past last, sessions = past ++ [last] →
    Rewritten (past.flatMap commandsOf) (commandsOf last) ∧
      (contents (commandsOf last)).strings.lookup [] ≠ some []

theorem contents_append_or (earlier later : List Command) (slot : Slot) :
    (contents (earlier ++ later)).valueAt slot =
      ((contents later).valueAt slot).or ((contents earlier).valueAt slot) := by
  rw [contents, List.filterMap_append, writeAll_append, valueAt_writeAll_or]
  rfl

theorem rewritten_iff {earlier later : List Command} :
    Rewritten earlier later ↔ ∀ slot, (contents later).valueAt slot = none →
      (contents earlier).valueAt slot = none := by
  constructor
  · intro hrewritten slot hnone
    obtain ⟨-, hlater⟩ := valueAt_writeAll_eq_none_iff.mp hnone
    refine valueAt_writeAll_eq_none_iff.mpr ⟨valueAt_new slot, fun w hw hslot ↦ ?_⟩
    obtain ⟨w', hw', heq⟩ := hrewritten w hw
    exact hlater w' hw' (heq.trans hslot)
  · intro h w hw
    by_contra hmissing
    have hnone : (contents later).valueAt w.slot = none :=
      valueAt_writeAll_eq_none_iff.mpr ⟨valueAt_new _, fun w' hw' heq ↦ hmissing ⟨w', hw', heq⟩⟩
    exact (valueAt_writeAll_eq_none_iff.mp (h w.slot hnone)).2 w hw rfl

/-- The commands of a snapshot of the last commands give what all commands give, exactly if the last
ones rewrite the earlier ones and do not leave an empty string under the empty key. -/
theorem contents_saved_append_iff {earlier later : List Command} {i : ℕ} :
    contents (saved env i (contents later)) = contents (earlier ++ later) ↔
      Rewritten earlier later ∧ (contents later).strings.lookup [] ≠ some [] := by
  constructor
  · intro hsame
    have hslots (slot : Slot) := congrArg (MapStore.valueAt · slot) hsame
    simp only [valueAt_saved, contents_append_or] at hslots
    refine ⟨rewritten_iff.mpr fun slot hnone ↦ ?_, fun hempty ↦ ?_⟩
    · have hslot := hslots slot
      rw [hnone, if_neg (fun h ↦ absurd h.2 nofun), Option.none_or] at hslot
      exact hslot.symm
    · have hslot := hslots (.string [])
      have hvalue : (contents later).valueAt (.string []) = some [] := hempty
      rw [if_pos ⟨rfl, hvalue⟩, hvalue, Option.some_or] at hslot
      exact absurd hslot nofun
  · rintro ⟨hrewritten, hfull⟩
    rw [(contents_saved_iff (noEmptyHash_contents later)).mpr hfull]
    refine MapStore.eq_of_valueAt (noEmptyHash_contents _) (noEmptyHash_contents _) fun slot ↦ ?_
    refine Eq.trans ?_ (contents_append_or earlier later slot).symm
    cases hslot : (contents later).valueAt slot with
    | none =>
      rw [rewritten_iff.mp hrewritten slot hslot]
      rfl
    | some value => rfl

end Session

/-- After any sessions, the next one replays what all their commands give in empty maps, exactly if
the last session has written to every place to which an earlier one has and does not leave an empty
string under the empty key. Assumes: the numbers in the last snapshot are below 2^32, and one read
gives each of its texts. -/
theorem rdb_sessions_iff (env : Environment) {sessions : List (List RDBCall)}
    (hfits : ∀ past last, sessions = past ++ [last] → FitsReads (contents (commandsOf last))) :
    contents (NewRDB (rdbSessions env ⟨none, 0⟩ sessions)).replay.commands =
        contents (sessions.flatMap commandsOf) ↔ KeptByLast sessions := by
  rcases List.eq_nil_or_concat sessions with rfl | ⟨past, last, hsessions⟩
  · refine iff_of_true rfl fun past last hnil ↦ ?_
    exact absurd hnil.symm (List.append_ne_nil_of_right_ne_nil past (List.cons_ne_nil last []))
  · rw [List.concat_eq_append] at hsessions
    subst hsessions
    obtain ⟨i, hfile⟩ := @file_sessions_append env ⟨none, 0⟩ past last
    have hreplay : (NewRDB (rdbSessions env ⟨none, 0⟩ (past ++ [last]))).replay.commands =
        saved env i (contents (commandsOf last)) := by
      show (replayFile (rdbSessions env ⟨none, 0⟩ (past ++ [last])).file).commands = _
      rw [hfile, replayFile_snapshot env i (hfits past last rfl)]
    rw [hreplay, List.flatMap_append, List.flatMap_singleton, contents_saved_append_iff]
    constructor
    · intro hkept past' last' heq
      obtain ⟨rfl, hlast⟩ := List.append_inj' heq rfl
      obtain rfl := List.singleton_inj.mp hlast
      exact hkept
    · exact fun hkept ↦ hkept past last rfl

/-- Two sessions of which the second writes to the key of the first again. -/
theorem rdb_sessions_iff_rewritten :
    contents (NewRDB (rdbSessions stillClock ⟨none, 0⟩
        [[.write ⟨text "SET", [text "a", text "1"]⟩],
          [.replay, .write ⟨text "SET", [text "a", text "2"]⟩, .snapshot,
            .write ⟨text "HSET", [text "h", text "f", text "v"]⟩]])).replay.commands =
      contents [⟨text "SET", [text "a", text "1"]⟩, ⟨text "SET", [text "a", text "2"]⟩,
        ⟨text "HSET", [text "h", text "f", text "v"]⟩] := by
  refine (rdb_sessions_iff stillClock fun past last heq ↦ ?_).mpr fun past last heq ↦ ?_
  · obtain ⟨-, hlast⟩ := @List.append_inj' _ [_] [_] past [last] heq rfl
    obtain rfl := List.singleton_inj.mp hlast
    exact fits_contents (by decide) (by decide)
  · obtain ⟨rfl, hlast⟩ := @List.append_inj' _ [_] [_] past [last] heq rfl
    obtain rfl := List.singleton_inj.mp hlast
    exact ⟨by unfold Rewritten; decide, by decide⟩

/-- A key that only the first of two sessions sets is gone. -/
theorem rdb_sessions_lost :
    (contents [⟨text "SET", [text "a", text "1"]⟩,
      ⟨text "SET", [text "b", text "2"]⟩]).get (text "a") = (text "1", true) ∧
    (contents (NewRDB (rdbSessions stillClock ⟨none, 0⟩
      [[.write ⟨text "SET", [text "a", text "1"]⟩],
        [.replay, .write ⟨text "SET", [text "b", text "2"]⟩]])).replay.commands).get (text "a") =
      ([], false) := by
  refine ⟨rfl, ?_⟩
  obtain ⟨i, hfile⟩ := @file_sessions_append stillClock ⟨none, 0⟩
    [[.write ⟨text "SET", [text "a", text "1"]⟩]]
    [.replay, .write ⟨text "SET", [text "b", text "2"]⟩]
  have hfits : FitsReads (contents [⟨text "SET", [text "b", text "2"]⟩]) :=
    fits_contents (by decide) (by decide)
  have hreplay : (replayFile (rdbSessions stillClock ⟨none, 0⟩
      [[.write ⟨text "SET", [text "a", text "1"]⟩],
        [.replay, .write ⟨text "SET", [text "b", text "2"]⟩]]).file).commands =
      saved stillClock i (contents [⟨text "SET", [text "b", text "2"]⟩]) := by
    refine (congrArg (fun file ↦ (replayFile file).commands) hfile).trans ?_
    exact congrArg Replayed.commands (replayFile_snapshot stillClock i hfits)
  rw [RDB.replay]
  refine (congrArg (fun cmds ↦ (contents cmds).get (text "a")) hreplay).trans ?_
  exact congrArg commaOk (valueAt_saved (.string (text "a")))

end FluxCache.Persistence
