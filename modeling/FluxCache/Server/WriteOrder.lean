import FluxCache.Foundation.Interleaving
import FluxCache.Server.Restart

/-!
# The order of the log and the order of the store

Every connection appends its request to the log and later writes to the store inside, each in one
atomic step. Nothing ties the two orders together: of two requests that write the same string or the
same field, the one that is logged first can be stored last, and then the log and the store
disagree.

`InOrder` says that a step stores a write only when no request that was logged earlier and writes to
the same place is still to be stored. In every schedule of such steps the replay of the log agrees
with the store once all requests have finished. What carries the proof is the state of every single
place (`SlotInStep`): if no write to it is pending, the replay and the store agree on it, and
otherwise the replay has the value of the pending write that was logged last.
-/

set_option autoImplicit false
set_option relaxedAutoImplicit false

namespace FluxCache.Server

open Foundation Store Persistence

/-! ### The steps of a request -/

/-- The log in the order of its writes, and the store inside. -/
structure LoggedStore where
  log : List Command
  store : MapStore

/-- What a connection does next. A request that has been logged remembers its position in the log.
-/
inductive WritePhase
  | idle
  | logging (cmd : Command)
  | storing (cmd : Command) (position : ℕ)

/-- The next step of a connection: `onWrite`, or the write of the handler. -/
def WritePhase.advance (s : LoggedStore) : WritePhase → LoggedStore × WritePhase
  | .idle => (s, .idle)
  | .logging cmd =>
    (if cmd.name = text "SET" ∨ cmd.name = text "HSET" then { s with log := s.log ++ [cmd] } else s,
      .storing cmd s.log.length)
  | .storing cmd _ =>
    ({ s with store := (handlerWrite cmd.name cmd.args).elim s.store (Write.apply s.store) }, .idle)

/-- The connections of the server. -/
def writeSystem : ThreadSystem LoggedStore WritePhase Command where
  enter := .logging
  idle
    | .idle => true
    | _ => false
  advance := WritePhase.advance

theorem idle_writeSystem_iff {phase : WritePhase} :
    writeSystem.idle phase = true ↔ phase = .idle := by
  cases phase with
  | idle => exact ⟨fun _ ↦ rfl, fun _ ↦ rfl⟩
  | logging cmd => exact ⟨nofun, nofun⟩
  | storing cmd position => exact ⟨nofun, nofun⟩

/-! ### What is replayed -/

/-- A command that is replayed has been logged. -/
theorem name_of_replayWrite {cmd : Command} {w : Write} (hw : replayWrite cmd = some w) :
    cmd.name = text "SET" ∨ cmd.name = text "HSET" := by
  by_contra hname
  obtain ⟨hset, hhset⟩ := not_or.mp hname
  rw [replayWrite, if_neg hset, if_neg hhset] at hw
  exact absurd hw nofun

/-- The handler and the replay make the same write of an `HSET` with at most three arguments, and
always of a `SET`. -/
theorem handlerWrite_eq_replayWrite {cmd : Command}
    (hargs : cmd.name = text "HSET" → cmd.args.length ≤ 3) :
    handlerWrite cmd.name cmd.args = replayWrite cmd := by
  unfold handlerWrite replayWrite
  by_cases hset : cmd.name = text "SET"
  · rw [if_pos hset, if_pos hset]
  · rw [if_neg hset, if_neg hset]
    by_cases hhset : cmd.name = text "HSET"
    · rw [if_pos hhset, if_pos hhset]
      match cmd.args, hargs hhset with
      | [], _ => rfl
      | [_], _ => rfl
      | [_, _], _ => rfl
      | [_, _, _], _ => rfl
    · rw [if_neg hhset, if_neg hhset]

/-! ### The order of the steps -/

/-- A connection has logged a write to a place and has not stored it yet. -/
def WritePhase.Awaits (phase : WritePhase) (slot : Slot) (w : Write) (position : ℕ) : Prop :=
  ∃ cmd, phase = .storing cmd position ∧ replayWrite cmd = some w ∧ w.slot = slot

variable {ι : Type} [DecidableEq ι]

omit [DecidableEq ι] in
/-- An `HSET` has at most three arguments, and a write is stored only when no write to the same
place that was logged earlier is still to be stored. -/
def InOrder (c : Config ι LoggedStore WritePhase) : Event ι Command → Prop
  | .enter _ cmd => cmd.name = text "HSET" → cmd.args.length ≤ 3
  | .advance i => ∀ slot w position, (c.threads i).Awaits slot w position →
      ∀ j w' position', (c.threads j).Awaits slot w' position' → position ≤ position'

/-- The handler of the request that a connection works on makes the write of its replay. -/
def WritePhase.Agrees : WritePhase → Prop
  | .idle => True
  | .logging cmd => handlerWrite cmd.name cmd.args = replayWrite cmd
  | .storing cmd _ => handlerWrite cmd.name cmd.args = replayWrite cmd

/-- The log and the store agree on a place to which no write is pending, and otherwise the log has
the value of the pending write that was logged last. -/
structure SlotInStep (threads : ι → WritePhase) (s : LoggedStore) (slot : Slot) : Prop where
  stored : (∀ i w position, ¬ (threads i).Awaits slot w position) →
    s.store.valueAt slot = (contents s.log).valueAt slot
  last : ∀ i w position, (threads i).Awaits slot w position →
    (∀ j w' position', (threads j).Awaits slot w' position' → position' ≤ position) →
    (contents s.log).valueAt slot = some w.value

/-- The invariant of a schedule in order. -/
structure WritesInStep (c : Config ι LoggedStore WritePhase) : Prop where
  slots : ∀ slot, SlotInStep c.threads c.shared slot
  positions : ∀ i slot w position, (c.threads i).Awaits slot w position →
    position < c.shared.log.length
  agrees : ∀ i, (c.threads i).Agrees

theorem not_awaits_of_not_storing {phase : WritePhase} (hphase : ∀ cmd p, phase ≠ .storing cmd p)
    (slot : Slot) (w : Write) (position : ℕ) : ¬ phase.Awaits slot w position := by
  rintro ⟨cmd, heq, -⟩
  exact hphase cmd position heq

/-- Assumes: a connection that awaits nothing at a place before and after its step. The step keeps
the place if it keeps the value of the log and of the store there. -/
theorem SlotInStep.update {threads : ι → WritePhase} {s s' : LoggedStore} {slot : Slot}
    (h : SlotInStep threads s slot) {i : ι} {phase : WritePhase}
    (hbefore : ∀ w position, ¬ (threads i).Awaits slot w position)
    (hafter : ∀ w position, ¬ phase.Awaits slot w position)
    (hlog : (contents s'.log).valueAt slot = (contents s.log).valueAt slot)
    (hstore : s'.store.valueAt slot = s.store.valueAt slot) :
    SlotInStep (Function.update threads i phase) s' slot := by
  have hsame (j : ι) (w : Write) (position : ℕ) :
      (Function.update threads i phase j).Awaits slot w position ↔
        (threads j).Awaits slot w position := by
    by_cases hj : j = i
    · subst hj
      rw [Function.update_self]
      exact iff_of_false (hafter w position) (hbefore w position)
    · rw [Function.update_of_ne hj]
  refine ⟨fun hnone ↦ ?_, fun j w position hj hmax ↦ ?_⟩
  · rw [hstore, hlog]
    exact h.stored fun j w position hj ↦ hnone j w position ((hsame j w position).mpr hj)
  · rw [hlog]
    exact h.last j w position ((hsame j w position).mp hj) fun j' w' position' hj' ↦
      hmax j' w' position' ((hsame j' w' position').mpr hj')

section Steps

variable {c : Config ι LoggedStore WritePhase} {i : ι} {cmd : Command}

/-- A connection that is idle enters a request. -/
theorem WritesInStep.enter (hc : WritesInStep c) (hi : c.threads i = .idle)
    (hcmd : cmd.name = text "HSET" → cmd.args.length ≤ 3) :
    WritesInStep ⟨c.shared, Function.update c.threads i (.logging cmd)⟩ := by
  have hbefore : ∀ cmd p, c.threads i ≠ .storing cmd p := by
    rw [hi]
    exact nofun
  have hafter : ∀ other p, WritePhase.logging cmd ≠ .storing other p := nofun
  refine ⟨fun slot ↦ ?_, ?_, ?_⟩
  · exact (hc.slots slot).update (not_awaits_of_not_storing hbefore slot)
      (not_awaits_of_not_storing hafter slot) rfl rfl
  · refine (Function.forall_update_iff c.threads fun _ phase ↦ ∀ slot w position,
      phase.Awaits slot w position → position < c.shared.log.length).mpr
      ⟨fun slot w position h ↦ ?_, fun j _ ↦ hc.positions j⟩
    exact absurd h (not_awaits_of_not_storing hafter slot w position)
  · exact (Function.forall_update_iff c.threads fun _ phase ↦ phase.Agrees).mpr
      ⟨handlerWrite_eq_replayWrite hcmd, fun j _ ↦ hc.agrees j⟩

/-- The log after the first step of a request. -/
theorem log_advance_logging (s : LoggedStore) (cmd : Command) :
    contents ((WritePhase.logging cmd).advance s).1.log =
        (replayWrite cmd).elim (contents s.log) (Write.apply (contents s.log)) ∧
      s.log.length ≤ ((WritePhase.logging cmd).advance s).1.log.length ∧
      (replayWrite cmd ≠ none →
        s.log.length < ((WritePhase.logging cmd).advance s).1.log.length) := by
  rw [WritePhase.advance]
  by_cases hname : cmd.name = text "SET" ∨ cmd.name = text "HSET"
  · simp only [if_pos hname, List.length_append, List.length_singleton]
    exact ⟨contents_append s.log cmd, Nat.le_succ _, fun _ ↦ Nat.lt_succ_self _⟩
  · have hnone : replayWrite cmd = none := by
      by_contra hsome
      obtain ⟨w, hw⟩ := Option.ne_none_iff_exists'.mp hsome
      exact hname (name_of_replayWrite hw)
    simp only [if_neg hname, hnone]
    exact ⟨rfl, le_rfl, fun h ↦ absurd rfl h⟩

theorem store_advance_logging (s : LoggedStore) (cmd : Command) :
    ((WritePhase.logging cmd).advance s).1.store = s.store := by
  rw [WritePhase.advance]
  split <;> rfl

/-- The value of a write at its place and at other places. -/
theorem valueAt_elim {s : MapStore} {write : Option Write} {slot : Slot}
    (hother : ∀ w, write = some w → w.slot ≠ slot) :
    (write.elim s (Write.apply s)).valueAt slot = s.valueAt slot := by
  cases write with
  | none => rfl
  | some w => exact (valueAt_apply s w slot).trans (if_neg (hother w rfl))

/-- The place to which a connection has just logged a write. -/
theorem WritesInStep.slot_logging (hc : WritesInStep c) {w : Write}
    (hw : replayWrite cmd = some w) :
    SlotInStep (Function.update c.threads i (.storing cmd c.shared.log.length))
      ((WritePhase.logging cmd).advance c.shared).1 w.slot := by
  have hnew : (Function.update c.threads i (.storing cmd c.shared.log.length) i).Awaits
      w.slot w c.shared.log.length := by
    rw [Function.update_self]
    exact ⟨cmd, rfl, hw, rfl⟩
  refine ⟨fun hnone ↦ absurd hnew (hnone i w _), fun j w' position hj hmax ↦ ?_⟩
  by_cases hji : j = i
  · subst hji
    rw [Function.update_self] at hj
    obtain ⟨cmd', heq, hw', -⟩ := hj
    obtain ⟨rfl, -⟩ := WritePhase.storing.inj heq
    obtain rfl := Option.some.inj (hw.symm.trans hw')
    rw [(log_advance_logging c.shared cmd).1, hw]
    exact (valueAt_apply _ w _).trans (if_pos rfl)
  · rw [Function.update_of_ne hji] at hj
    have hlt := hc.positions j _ _ _ hj
    have hle := hmax i w _ hnew
    omega

/-- A connection logs its request. -/
theorem WritesInStep.logging (hc : WritesInStep c) (hi : c.threads i = .logging cmd) :
    WritesInStep ⟨((WritePhase.logging cmd).advance c.shared).1,
      Function.update c.threads i (.storing cmd c.shared.log.length)⟩ := by
  obtain ⟨hlog, hlength, hlonger⟩ := log_advance_logging c.shared cmd
  have hbefore : ∀ cmd p, c.threads i ≠ .storing cmd p := by
    rw [hi]
    exact nofun
  refine ⟨fun slot ↦ ?_, ?_, ?_⟩
  · by_cases hslot : ∃ w, replayWrite cmd = some w ∧ w.slot = slot
    · obtain ⟨w, hw, rfl⟩ := hslot
      exact hc.slot_logging hw
    · have hother : ∀ w, replayWrite cmd = some w → w.slot ≠ slot := fun w hw heq ↦
        hslot ⟨w, hw, heq⟩
      refine (hc.slots slot).update (not_awaits_of_not_storing hbefore slot) ?_ ?_ ?_
      · rintro w position ⟨cmd', heq, hw, hplace⟩
        obtain ⟨rfl, -⟩ := WritePhase.storing.inj heq
        exact hother w hw hplace
      · rw [hlog]
        exact valueAt_elim hother
      · rw [store_advance_logging]
  · refine (Function.forall_update_iff c.threads fun _ phase ↦ ∀ slot w position,
      phase.Awaits slot w position →
        position < ((WritePhase.logging cmd).advance c.shared).1.log.length).mpr
      ⟨fun slot w position h ↦ ?_, fun j _ slot w position h ↦ ?_⟩
    · obtain ⟨cmd', heq, hw, -⟩ := h
      obtain ⟨rfl, rfl⟩ := WritePhase.storing.inj heq
      exact hlonger (by rw [hw]; exact Option.some_ne_none w)
    · exact (hc.positions j slot w position h).trans_le hlength
  · have hagrees := hc.agrees i
    rw [hi] at hagrees
    exact (Function.forall_update_iff c.threads fun _ phase ↦ phase.Agrees).mpr
      ⟨hagrees, fun j _ ↦ hc.agrees j⟩

/-- The place to which a connection has just stored a write. Assumes: no write to it that was logged
earlier is pending. -/
theorem WritesInStep.slot_storing (hc : WritesInStep c) {position : ℕ}
    (hi : c.threads i = .storing cmd position) (horder : InOrder c (.advance i)) {w : Write}
    (hw : replayWrite cmd = some w) {s : LoggedStore} (hlog : s.log = c.shared.log)
    (hstore : s.store = w.apply c.shared.store) :
    SlotInStep (Function.update c.threads i .idle) s w.slot := by
  have hold : (c.threads i).Awaits w.slot w position := ⟨cmd, hi, hw, rfl⟩
  have hidle : ∀ cmd p, WritePhase.idle ≠ .storing cmd p := nofun
  have hslot := hc.slots w.slot
  refine ⟨fun hnone ↦ ?_, fun j w' position' hj hmax ↦ ?_⟩
  · have hlast := hslot.last i w position hold fun j w' position' hj ↦ by
      by_cases hji : j = i
      · rw [hji, hi] at hj
        obtain ⟨cmd', heq, -⟩ := hj
        exact (WritePhase.storing.inj heq).2.ge
      · refine absurd ?_ (hnone j w' position')
        rwa [Function.update_of_ne hji]
    rw [hlog, hlast, hstore]
    exact (valueAt_apply _ w _).trans (if_pos rfl)
  · have hji : j ≠ i := by
      rintro rfl
      rw [Function.update_self] at hj
      exact not_awaits_of_not_storing hidle _ _ _ hj
    rw [Function.update_of_ne hji] at hj
    rw [hlog]
    refine hslot.last j w' position' hj fun j' w'' position'' hj' ↦ ?_
    by_cases hji' : j' = i
    · subst hji'
      exact horder _ _ _ hj' j w' position' hj
    · refine hmax j' w'' position'' ?_
      rwa [Function.update_of_ne hji']

/-- A connection stores its write. Assumes: no write to the same place that was logged earlier is
pending. -/
theorem WritesInStep.storing (hc : WritesInStep c) {position : ℕ}
    (hi : c.threads i = .storing cmd position) (horder : InOrder c (.advance i)) :
    WritesInStep ⟨((WritePhase.storing cmd position).advance c.shared).1,
      Function.update c.threads i .idle⟩ := by
  have hagrees : handlerWrite cmd.name cmd.args = replayWrite cmd := by
    have h := hc.agrees i
    rwa [hi] at h
  have hidle : ∀ cmd p, WritePhase.idle ≠ .storing cmd p := nofun
  have hstore : ((WritePhase.storing cmd position).advance c.shared).1.store =
      (replayWrite cmd).elim c.shared.store (Write.apply c.shared.store) := by
    rw [WritePhase.advance, hagrees]
  refine ⟨fun slot ↦ ?_, ?_, ?_⟩
  · by_cases hslot : ∃ w, replayWrite cmd = some w ∧ w.slot = slot
    · obtain ⟨w, hw, rfl⟩ := hslot
      rw [hw] at hstore
      exact hc.slot_storing hi horder hw rfl hstore
    · have hother : ∀ w, replayWrite cmd = some w → w.slot ≠ slot := fun w hw heq ↦
        hslot ⟨w, hw, heq⟩
      refine (hc.slots slot).update ?_ (not_awaits_of_not_storing hidle slot) rfl ?_
      · rintro w position' ⟨cmd', heq, hw, hplace⟩
        obtain ⟨rfl, -⟩ := WritePhase.storing.inj (hi.symm.trans heq)
        exact hother w hw hplace
      · rw [hstore]
        exact valueAt_elim hother
  · refine (Function.forall_update_iff c.threads fun _ phase ↦ ∀ slot w position',
      phase.Awaits slot w position' → position' < c.shared.log.length).mpr
      ⟨fun slot w position' h ↦ ?_, fun j _ ↦ hc.positions j⟩
    exact absurd h (not_awaits_of_not_storing hidle slot w position')
  · exact (Function.forall_update_iff c.threads fun _ phase ↦ phase.Agrees).mpr
      ⟨trivial, fun j _ ↦ hc.agrees j⟩

end Steps

/-! ### Schedules -/

omit [DecidableEq ι] in
/-- Connections without requests on an empty log and an empty store. -/
def idleConnections : Config ι LoggedStore WritePhase := ⟨⟨[], MapStore.new⟩, fun _ ↦ .idle⟩

theorem writesInStep_run {events : List (Event ι Command)}
    (hguarded : writeSystem.Guarded InOrder idleConnections events) :
    WritesInStep (writeSystem.run (idleConnections : Config ι LoggedStore WritePhase) events) := by
  refine ThreadSystem.run_invariant (fun _ _ ↦ ([] : List Unit)) (fun c _ ↦ WritesInStep c) []
    ?_ ?_ ?_ hguarded
  · intro c _ i cmd hc hidle hcmd
    exact hc.enter (idle_writeSystem_iff.mp hidle) hcmd
  · intro c _ i hc hbusy horder
    cases hphase : c.threads i with
    | idle => exact absurd (idle_writeSystem_iff.mpr hphase) (Bool.eq_false_iff.mp hbusy)
    | logging cmd => exact hc.logging hphase
    | storing cmd position => exact hc.storing hphase horder
  · have hidle : ∀ cmd p, WritePhase.idle ≠ .storing cmd p := nofun
    refine ⟨fun slot ↦ ⟨fun _ ↦ rfl, fun i w position h ↦ ?_⟩, fun i slot w position h ↦ ?_,
      fun _ ↦ trivial⟩
    · exact absurd h (not_awaits_of_not_storing hidle slot w position)
    · exact absurd h (not_awaits_of_not_storing hidle slot w position)

/-- Once all requests have finished, the log and the store agree on every place. -/
theorem valueAt_store_of_quiet {events : List (Event ι Command)}
    (hguarded : writeSystem.Guarded InOrder idleConnections events)
    (hquiet : writeSystem.Quiet (writeSystem.run (idleConnections : Config ι _ _) events))
    (slot : Slot) :
    (writeSystem.run (idleConnections : Config ι _ _) events).shared.store.valueAt slot =
      (contents (writeSystem.run (idleConnections : Config ι _ _) events).shared.log).valueAt
        slot := by
  refine ((writesInStep_run hguarded).slots slot).stored fun i w position h ↦ ?_
  obtain ⟨cmd, hphase, -⟩ := h
  exact absurd (hphase.symm.trans (idle_writeSystem_iff.mp (hquiet i))) nofun

/-- Once all requests have finished, a replay of the log into an empty store finds the value of
every key and field that the live store has. Assumes: a schedule in which no `HSET` has more than
three arguments and no write is stored while an earlier logged write to the same place is pending.
-/
theorem write_order_agrees {events : List (Event ι Command)}
    (hguarded : writeSystem.Guarded InOrder idleConnections events)
    (hquiet : writeSystem.Quiet (writeSystem.run (idleConnections : Config ι _ _) events))
    (env : Environment) (maxKeys : ℤ) :
    let live := (writeSystem.run (idleConnections : Config ι _ _) events).shared
    let rebuilt := live.log.foldl (applyCommand env) (fresh maxKeys)
    (∀ key, (rebuilt.get env key).1 = .value (live.store.get key)) ∧
      ∀ hash key, (rebuilt.hget env hash key).1 = .value (live.store.hget hash key) := by
  intro live rebuilt
  have hslots := valueAt_store_of_quiet hguarded hquiet
  obtain ⟨hpermanent, hinner⟩ :=
    @permanent_applyCommands _ _ env _ (permanent_new MapStore.new maxKeys) live.log
  refine ⟨fun key ↦ ?_, fun hash key ↦ ?_⟩
  · refine (hpermanent.read env (.get key)).trans ?_
    rw [hinner]
    exact congrArg (fun found ↦ Reply.value (commaOk found)) (hslots (.string key)).symm
  · refine (hpermanent.read env (.hget hash key)).trans ?_
    rw [hinner]
    exact congrArg (fun found ↦ Reply.value (commaOk found)) (hslots (.field hash key)).symm

/-- Two connections set one key, both are logged, and then they are stored in the same order. -/
theorem write_order_agrees_two :
    let live := (writeSystem.run (idleConnections : Config Bool _ _)
      [.enter true ⟨text "SET", [text "k", text "a"]⟩,
        .enter false ⟨text "SET", [text "k", text "b"]⟩,
        .advance true, .advance false, .advance true, .advance false]).shared
    let rebuilt := live.log.foldl (applyCommand stillClock) (fresh 0)
    live.store.get (text "k") = (text "b", true) ∧
      (∀ key, (rebuilt.get stillClock key).1 = .value (live.store.get key)) ∧
      ∀ hash key, (rebuilt.hget stillClock hash key).1 = .value (live.store.hget hash key) := by
  intro live rebuilt
  have hne : text "SET" ≠ text "HSET" := by decide
  have hset (c : Config Bool LoggedStore WritePhase) (i : Bool) (value : GoString) :
      InOrder c (.enter i ⟨text "SET", [text "k", value]⟩) := fun hname ↦ absurd hname hne
  have hadvance (c : Config Bool LoggedStore WritePhase) (i : Bool) (first : ℕ)
      (hown : ∀ cmd p, c.threads i = .storing cmd p → p = first)
      (hlater : ∀ j cmd p, c.threads j = .storing cmd p → first ≤ p) : InOrder c (.advance i) := by
    rintro slot w position ⟨cmd, hphase, -⟩ j w' position' ⟨cmd', hphase', -⟩
    rw [hown cmd position hphase]
    exact hlater j cmd' position' hphase'
  have hguarded : writeSystem.Guarded InOrder (idleConnections : Config Bool _ _)
      [.enter true ⟨text "SET", [text "k", text "a"]⟩,
        .enter false ⟨text "SET", [text "k", text "b"]⟩,
        .advance true, .advance false, .advance true, .advance false] := by
    refine ⟨hset _ _ _, hset _ _ _, hadvance _ _ 0 ?_ fun _ _ p _ ↦ Nat.zero_le p,
      hadvance _ _ 0 ?_ fun _ _ p _ ↦ Nat.zero_le p,
      hadvance _ _ 0 ?_ fun _ _ p _ ↦ Nat.zero_le p, hadvance _ _ 1 ?_ ?_, trivial⟩
    · rintro cmd p ⟨⟩
    · rintro cmd p ⟨⟩
    · exact fun cmd p h ↦ (WritePhase.storing.inj h).2.symm
    · exact fun cmd p h ↦ (WritePhase.storing.inj h).2.symm
    · intro j cmd p h
      cases j with
      | true => cases h
      | false => exact (WritePhase.storing.inj h).2.le
  exact ⟨by decide, write_order_agrees hguarded (by decide) stillClock 0⟩

/-- Two connections set one key. The one that is logged first is stored last. -/
theorem write_order_lost :
    let last := writeSystem.run (idleConnections : Config Bool _ _)
      [.enter true ⟨text "SET", [text "k", text "a"]⟩,
        .enter false ⟨text "SET", [text "k", text "b"]⟩,
        .advance true, .advance false, .advance false, .advance true]
    writeSystem.Quiet last ∧ last.shared.store.get (text "k") = (text "a", true) ∧
      ((last.shared.log.foldl (applyCommand stillClock) (fresh 0)).get stillClock (text "k")).1 =
        .value (text "b", true) := by
  exact ⟨by decide, by decide, rfl⟩

end FluxCache.Server
