import FluxCache.Network.Listener
import FluxCache.Persistence.WAL

/-!
# How the process ends

`main` starts `Listen` in a goroutine that puts its result into the channel `errCh`, and waits for a
signal or for that result. Then it closes the transport, receives from `errCh`, closes the
persistence and the store, and returns. The connections are not told: they go on serving, and
logging, until the process has ended.

A `Process` is `main` with the goroutine of `Listen`, the connections and the write-ahead log. The
channel is used once by the goroutine and up to twice by `main`, and what is sent is never more than
what is received and what is left (`Sound.conserved`). So `main` returns only if the signal came
first, and if the transport had a listener when it was closed.
-/

set_option autoImplicit false
set_option relaxedAutoImplicit false

namespace FluxCache.Server

open Foundation Network Persistence

/-- The case of the `select` that `main` takes. -/
inductive Cause
  | signal
  | failure
  deriving DecidableEq, Repr

/-- The call of `main` that comes next. -/
inductive MainAt
  | selecting
  /-- `n.Close()` -/
  | closing (cause : Cause)
  /-- `<-errCh` -/
  | receiving (cause : Cause)
  /-- `p.Close()` -/
  | closingLog (cause : Cause)
  /-- `s.Close()` -/
  | closingStore (cause : Cause)
  | exited (cause : Cause)
  deriving DecidableEq, Repr

/-- `main`, the goroutine of `Listen` with its connections, and the log. -/
structure Process where
  listener : Listener
  /-- The goroutine has sent the result of `Listen`. -/
  reported : Bool
  /-- The channel holds a value. -/
  errCh : Bool
  signalled : Bool
  main : MainAt
  wal : WAL
  fileClosed : Bool

/-- What can happen next. -/
inductive ProcessEvent
  | listener (event : ListenerEvent)
  /-- `Listen` has returned and its result is sent. -/
  | report
  /-- The process gets SIGTERM or SIGINT. -/
  | signal
  /-- `main` leaves the `select`. -/
  | select (cause : Cause)
  /-- `main` makes its next call. -/
  | main
  /-- A connection writes a command: the critical section of `Write`. -/
  | append (i : ℕ) (cmd : Command)
  /-- A flush: the second critical section of `Write`, a tick, or the last flush of `flushLoop`. -/
  | flush

namespace ProcessEvent

/-- The operating system refuses to bind, or `Accept` fails with the listener open. -/
def Fails : ProcessEvent → Prop
  | listener .bindFails | listener .acceptFails => True
  | _ => False

end ProcessEvent

namespace Process

/-- The process when `main` comes to its `select`. -/
def start (maxConns : ℤ) (wal : WAL) : Process :=
  ⟨.new maxConns, false, false, false, .selecting, wal, false⟩

/-- `Flush`. The write to a closed file fails, and the buffer is emptied all the same. -/
def flush (p : Process) : Process :=
  if p.fileClosed then { p with wal := { p.wal with buf := [] } } else { p with wal := p.wal.flush }

/-- The next call of `main`, or nothing if it waits. -/
def mainStep (p : Process) : Option Process :=
  match p.main with
  | .selecting => none
  | .closing cause => some { p with listener := p.listener.close, main := .receiving cause }
  | .receiving cause =>
    if p.errCh then some { p with errCh := false, main := .closingLog cause } else none
  | .closingLog cause =>
    some { p with wal := p.wal.flush, fileClosed := true, main := .closingStore cause }
  | .closingStore cause => some { p with main := .exited cause }
  | .exited _ => none

/-- `main` takes a case of the `select` whose channel is ready. -/
def select (p : Process) : Cause → Option Process
  | .signal =>
    if p.main = .selecting ∧ p.signalled then some { p with main := .closing .signal } else none
  | .failure =>
    if p.main = .selecting ∧ p.errCh then some { p with errCh := false, main := .closing .failure }
    else none

/-- The process is over. -/
def Exited (p : Process) : Prop := p.main = .exited .signal ∨ p.main = .exited .failure

instance (p : Process) : Decidable p.Exited := inferInstanceAs (Decidable (_ ∨ _))

/-- The effect of an event, or nothing if it cannot happen. Only `main` closes the transport, and
after the return of `main` nothing happens. -/
def step (p : Process) (event : ProcessEvent) : Option Process :=
  if p.Exited then none
  else
    match event with
    | .listener event =>
      if event = .close then none
      else (p.listener.step event).map fun l ↦ { p with listener := l }
    | .report =>
      if p.listener.loop = .returned ∧ !p.reported then
        some { p with reported := true, errCh := true }
      else none
    | .signal => some { p with signalled := true }
    | .select cause => p.select cause
    | .main => p.mainStep
    | .append i cmd =>
      if p.listener.conns[i]? = some .serving then some { p with wal := p.wal.append cmd } else none
    | .flush => some p.flush

/-- An event that cannot happen is passed over. -/
def next (p : Process) (event : ProcessEvent) : Process := (p.step event).getD p

/-- The effect of a schedule. -/
def run (p : Process) (events : List ProcessEvent) : Process := events.foldl next p

/-- The command that an event writes. -/
def appends (p : Process) : ProcessEvent → List Command
  | .append i cmd => if (p.step (.append i cmd)).isSome then [cmd] else []
  | _ => []

/-- The commands that the connections write in a schedule, in the order in which they take the
mutex of the log. -/
def appended : Process → List ProcessEvent → List Command
  | _, [] => []
  | p, event :: events => p.appends event ++ appended (p.next event) events

variable {p p' : Process} {event : ProcessEvent}

theorem run_append (p : Process) (first second : List ProcessEvent) :
    p.run (first ++ second) = (p.run first).run second := List.foldl_append

/-- Assumes: a property that every event of a schedule keeps. The schedule keeps it. -/
theorem run_invariant {P : Process → Prop} {events : List ProcessEvent}
    (hstep : ∀ p p' event, event ∈ events → P p → p.step event = some p' → P p') (hp : P p) :
    P (p.run events) := by
  induction events generalizing p with
  | nil => exact hp
  | cons event events ih =>
    refine ih (fun p p' other hother ↦ hstep p p' other (.tail event hother)) ?_
    unfold next
    cases h : p.step event with
    | none => exact hp
    | some p' => exact hstep p p' event List.mem_cons_self hp h

/-! ## One event -/

/-- What an event can do. -/
inductive Change (p : Process) : ProcessEvent → Process → Prop
  | listener (event : ListenerEvent) (l : Listener) (hclose : event ≠ .close)
    (h : p.listener.step event = some l) : Change p (.listener event) { p with listener := l }
  | report (hloop : p.listener.loop = .returned) (h : p.reported = false) :
    Change p .report { p with reported := true, errCh := true }
  | signal : Change p .signal { p with signalled := true }
  | selectSignal (h : p.main = .selecting) :
    Change p (.select .signal) { p with main := .closing .signal }
  | selectFailure (h : p.main = .selecting) (hch : p.errCh = true) :
    Change p (.select .failure) { p with errCh := false, main := .closing .failure }
  | close (cause : Cause) (h : p.main = .closing cause) :
    Change p .main { p with listener := p.listener.close, main := .receiving cause }
  | receive (cause : Cause) (h : p.main = .receiving cause) (hch : p.errCh = true) :
    Change p .main { p with errCh := false, main := .closingLog cause }
  | closeLog (cause : Cause) (h : p.main = .closingLog cause) :
    Change p .main { p with wal := p.wal.flush, fileClosed := true, main := .closingStore cause }
  | closeStore (cause : Cause) (h : p.main = .closingStore cause) :
    Change p .main { p with main := .exited cause }
  | append (i : ℕ) (cmd : Command) (h : p.listener.conns[i]? = some .serving) :
    Change p (.append i cmd) { p with wal := p.wal.append cmd }
  | flush : Change p .flush p.flush

theorem mainStep_change (h : p.mainStep = some p') : Change p .main p' := by
  unfold mainStep at h
  split at h
  case h_2 cause hmain => cases h; exact .close cause hmain
  case h_3 cause hmain =>
    rw [Option.ite_none_right_eq_some] at h
    obtain ⟨hch, h⟩ := h
    cases h
    exact .receive cause hmain hch
  case h_4 cause hmain => cases h; exact .closeLog cause hmain
  case h_5 cause hmain => cases h; exact .closeStore cause hmain
  all_goals cases h

theorem step_change (h : p.step event = some p') : Change p event p' := by
  unfold step at h
  rw [Option.ite_none_left_eq_some] at h
  obtain ⟨-, h⟩ := h
  cases event with
  | listener event =>
    obtain ⟨hclose, h⟩ := Option.ite_none_left_eq_some.mp h
    obtain ⟨l, hl, rfl⟩ := Option.map_eq_some_iff.mp h
    exact .listener event l hclose hl
  | report =>
    obtain ⟨⟨hloop, hreported⟩, h⟩ := Option.ite_none_right_eq_some.mp h
    cases h
    exact .report hloop (by simpa using hreported)
  | signal => cases h; exact .signal
  | select cause =>
    cases cause with
    | signal =>
      obtain ⟨⟨hmain, -⟩, h⟩ := Option.ite_none_right_eq_some.mp h
      cases h
      exact .selectSignal hmain
    | failure =>
      obtain ⟨⟨hmain, hch⟩, h⟩ := Option.ite_none_right_eq_some.mp h
      cases h
      exact .selectFailure hmain hch
  | main => exact mainStep_change h
  | append i cmd =>
    obtain ⟨hi, h⟩ := Option.ite_none_right_eq_some.mp h
    cases h
    exact .append i cmd hi
  | flush => cases h; exact .flush

@[simp] theorem flush_listener (p : Process) : p.flush.listener = p.listener := by
  unfold flush
  split <;> rfl

@[simp] theorem flush_reported (p : Process) : p.flush.reported = p.reported := by
  unfold flush
  split <;> rfl

@[simp] theorem flush_errCh (p : Process) : p.flush.errCh = p.errCh := by
  unfold flush
  split <;> rfl

@[simp] theorem flush_main (p : Process) : p.flush.main = p.main := by
  unfold flush
  split <;> rfl

@[simp] theorem flush_fileClosed (p : Process) : p.flush.fileClosed = p.fileClosed := by
  unfold flush
  split <;> rfl

/-! ## The channel -/

/-- How many values `main` has received from `errCh`. -/
def received : MainAt → ℕ
  | .selecting | .closing .signal | .receiving .signal => 0
  | .closing .failure | .receiving .failure => 1
  | .closingLog .signal | .closingStore .signal | .exited .signal => 1
  | .closingLog .failure | .closingStore .failure | .exited .failure => 2

theorem received_closing (cause : Cause) :
    received (.receiving cause) = received (.closing cause) := by cases cause <;> rfl

theorem received_receiving (cause : Cause) :
    received (.closingLog cause) = received (.receiving cause) + 1 := by cases cause <;> rfl

theorem received_closingLog (cause : Cause) :
    received (.closingStore cause) = received (.closingLog cause) := by cases cause <;> rfl

theorem received_closingStore (cause : Cause) :
    received (.exited cause) = received (.closingStore cause) := by cases cause <;> rfl

/-- The value that the goroutine sends is in the channel or `main` has received it; it is sent after
`Listen` has returned; and there is no listener before `net.Listen`. -/
structure Sound (p : Process) : Prop where
  conserved : p.reported.toNat = p.errCh.toNat + received p.main
  returned : p.reported = true → p.listener.loop = .returned
  unbound : p.listener.loop = .starting → p.listener.ln = .unset

theorem sound_start (maxConns : ℤ) (wal : WAL) : (start maxConns wal).Sound where
  conserved := rfl
  returned := fun h ↦ absurd h Bool.false_ne_true
  unbound := fun _ ↦ rfl

/-- An event of the listener never brings the accept loop back from its return or its start. -/
theorem Sound.listener (h : p.Sound) {event : ListenerEvent} {l : Listener}
    (hclose : event ≠ .close) (hstep : p.listener.step event = some l) :
    Sound { p with listener := l } := by
  have hmove := Listener.step_move hstep hclose
  refine ⟨h.conserved, fun hreported ↦ hmove.returned (h.returned hreported), fun hstarting ↦ ?_⟩
  obtain ⟨hloop, hln⟩ := Prod.mk.injEq .. ▸ hmove.eq_of_starting hstarting
  exact hln ▸ h.unbound (hloop.trans hstarting)

theorem Sound.step (h : p.Sound) (hstep : p.step event = some p') : p'.Sound := by
  have hconserved := h.conserved
  cases step_change hstep with
  | listener event l hclose hl => exact h.listener hclose hl
  | report hloop hreported =>
    refine ⟨?_, fun _ ↦ hloop, h.unbound⟩
    rw [hreported] at hconserved
    show 1 = 1 + received p.main
    simp only [Bool.toNat_false] at hconserved
    omega
  | signal => exact ⟨hconserved, h.returned, h.unbound⟩
  | selectSignal hmain =>
    rw [hmain] at hconserved
    exact ⟨hconserved, h.returned, h.unbound⟩
  | selectFailure hmain hch =>
    rw [hmain, hch] at hconserved
    exact ⟨hconserved, h.returned, h.unbound⟩
  | close cause hmain =>
    rw [hmain] at hconserved
    refine ⟨hconserved.trans (by rw [received_closing]), fun hreported ↦ ?_, fun hstarting ↦ ?_⟩
    · exact (Listener.close_loop p.listener).trans (h.returned hreported)
    · exact Listener.close_ln_of_unset (h.unbound ((Listener.close_loop _).symm.trans hstarting))
  | receive cause hmain hch =>
    rw [hmain, hch] at hconserved
    refine ⟨?_, h.returned, h.unbound⟩
    show p.reported.toNat = 0 + received (.closingLog cause)
    rw [received_receiving, hconserved, Bool.toNat_true]
    omega
  | closeLog cause hmain =>
    rw [hmain] at hconserved
    exact ⟨hconserved.trans (by rw [received_closingLog]), h.returned, h.unbound⟩
  | closeStore cause hmain =>
    rw [hmain] at hconserved
    exact ⟨hconserved.trans (by rw [received_closingStore]), h.returned, h.unbound⟩
  | append i cmd hi => exact ⟨hconserved, h.returned, h.unbound⟩
  | flush => exact ⟨by simpa using hconserved, by simpa using h.returned, by simpa using h.unbound⟩

theorem sound_run (maxConns : ℤ) (wal : WAL) (events : List ProcessEvent) :
    ((start maxConns wal).run events).Sound :=
  run_invariant (fun _ _ _ _ h hstep ↦ h.step hstep) (sound_start maxConns wal)

/-- Once `main` has received the result of `Listen` in its `select`, its second receive has nothing
to wait for. -/
theorem Sound.receiving_failure (h : p.Sound) (hmain : p.main = .receiving .failure)
    (events : List ProcessEvent) : (p.run events).main = .receiving .failure := by
  refine (run_invariant (P := fun p ↦ p.Sound ∧ p.main = .receiving .failure) ?_ ⟨h, hmain⟩).2
  intro p p' event _ ⟨h, hmain⟩ hstep
  refine ⟨h.step hstep, ?_⟩
  have hconserved := h.conserved
  have hle := Bool.toNat_le p.reported
  rw [hmain, show received (.receiving .failure) = 1 from rfl] at hconserved
  cases step_change hstep with
  | listener | report | signal | append => exact hmain
  | flush => rw [flush_main, hmain]
  | selectSignal hother | selectFailure hother => cases hmain.symm.trans hother
  | close _ hother | closeLog _ hother | closeStore _ hother => cases hmain.symm.trans hother
  | receive _ _ hch =>
    rw [hch, Bool.toNat_true] at hconserved
    omega

/-- `Close` has run without effect, and `Listen` has not failed. -/
structure Deaf (p : Process) : Prop where
  sound : p.Sound
  main : ∃ cause, p.main = .receiving cause
  loop : p.listener.loop ≠ .returned
  ln : p.listener.ln ≠ .shut

theorem Deaf.step (h : p.Deaf) (hfails : ¬event.Fails) (hstep : p.step event = some p') :
    p'.Deaf := by
  obtain ⟨cause, hmain⟩ := h.main
  have hsound := h.sound.step hstep
  cases step_change hstep with
  | listener event l hclose hl =>
    have hmove := Listener.step_move hl hclose
    have hbind : event ≠ .bindFails := fun h ↦ hfails (h ▸ trivial)
    have haccept : event ≠ .acceptFails := fun h ↦ hfails (h ▸ trivial)
    obtain ⟨hloop, hln⟩ := hmove.open_of_open hbind haccept h.loop h.ln
    exact ⟨hsound, h.main, hloop, hln⟩
  | report hloop => exact absurd hloop h.loop
  | signal | append => exact ⟨hsound, h.main, h.loop, h.ln⟩
  | flush => exact ⟨hsound, by simpa using h.main, by simpa using h.loop, by simpa using h.ln⟩
  | selectSignal hother | selectFailure hother => cases hmain.symm.trans hother
  | close _ hother | closeLog _ hother | closeStore _ hother => cases hmain.symm.trans hother
  | receive _ _ hch =>
    -- a value in the channel was sent after the return of `Listen`
    refine absurd (h.sound.returned ?_) h.loop
    have hconserved := h.sound.conserved
    rw [hch] at hconserved
    cases hreported : p.reported with
    | true => rfl
    | false =>
      rw [hreported, Bool.toNat_false, Bool.toNat_true] at hconserved
      omega

/-- The process can end without a failure of the operating system. -/
def CanExit (p : Process) : Prop :=
  ∃ after, (∀ event ∈ after, ¬event.Fails) ∧ (p.run after).Exited

theorem CanExit.of_step (hstep : p.step event = some p') (hfails : ¬event.Fails)
    (h : p'.CanExit) : p.CanExit := by
  obtain ⟨after, hafter, hexited⟩ := h
  refine ⟨event :: after, List.forall_mem_cons.mpr ⟨hfails, hafter⟩, ?_⟩
  have hnext : p.next event = p' := by rw [next, hstep, Option.getD_some]
  show ((p.next event).run after).Exited
  rwa [hnext]

/-- `main` waits for a `Listen` that has returned. -/
theorem Sound.canExit_of_returned (h : p.Sound) (hmain : p.main = .receiving .signal)
    (hloop : p.listener.loop = .returned) : p.CanExit := by
  have hconserved := h.conserved
  rw [hmain, show received (.receiving .signal) = 0 from rfl, Nat.add_zero] at hconserved
  obtain ⟨listener, reported, errCh, signalled, main, wal, fileClosed⟩ := p
  obtain rfl : main = .receiving .signal := hmain
  obtain rfl : reported = errCh := by
    cases reported <;> cases errCh <;> first | rfl | cases hconserved
  have hexits : CanExit ⟨listener, true, true, signalled, .receiving .signal, wal, fileClosed⟩ :=
    ⟨[.main, .main, .main], by simp [ProcessEvent.Fails], .inl rfl⟩
  cases reported with
  | true => exact hexits
  | false =>
    have hreport : Process.step
        ⟨listener, false, false, signalled, .receiving .signal, wal, fileClosed⟩ .report =
        some ⟨listener, true, true, signalled, .receiving .signal, wal, fileClosed⟩ := by
      simp [Process.step, Exited, show listener.loop = .returned from hloop]
    exact hexits.of_step hreport id

theorem Sound.canExit_of_accepting (h : p.Sound) (hmain : p.main = .receiving .signal)
    (hln : p.listener.ln = .shut) (hloop : p.listener.loop = .accepting) : p.CanExit := by
  have hstep : p.step (.listener .acceptClosed) =
      some { p with listener := { p.listener with loop := .returned } } := by
    simp [Process.step, Exited, hmain, Listener.step, hloop, hln]
  exact .of_step hstep id ((h.step hstep).canExit_of_returned hmain rfl)

/-- The accept loop of a closed listener ends by itself. -/
theorem Sound.canExit_of_shut (h : p.Sound) (hmain : p.main = .receiving .signal)
    (hln : p.listener.ln = .shut) : p.CanExit := by
  cases hloop : p.listener.loop with
  | starting => cases hln.symm.trans (h.unbound hloop)
  | returned => exact h.canExit_of_returned hmain hloop
  | accepting => exact h.canExit_of_accepting hmain hln hloop
  | deciding =>
    have hstep : p.step (.listener .decide) = some { p with listener := p.listener.decide } := by
      simp [Process.step, Exited, hmain, Listener.step, hloop]
    obtain ⟨hloop', hln'⟩ := Prod.mk.injEq .. ▸ Listener.decide_loop p.listener
    exact .of_step hstep id ((h.step hstep).canExit_of_accepting hmain (hln'.trans hln) hloop')

/-- When `main` has closed the transport and waits for the result of `Listen`, the process can end
without a failure of the operating system exactly if `main` had left its `select` because of a
signal, and `Listen` has returned or its listener existed and is closed. So a server whose `Listen`
has failed does not end, whatever signals it gets, nor does one that is stopped before it listens.
Assumes: `main` is at its second receive. -/
theorem main_returns_iff (maxConns : ℤ) (wal : WAL) (before : List ProcessEvent) (cause : Cause)
    (hmain : ((start maxConns wal).run before).main = .receiving cause) :
    (∃ after, (∀ event ∈ after, ¬event.Fails) ∧
        (((start maxConns wal).run before).run after).Exited) ↔
      cause = .signal ∧ (((start maxConns wal).run before).listener.loop = .returned ∨
        ((start maxConns wal).run before).listener.ln = .shut) := by
  have hsound := sound_run maxConns wal before
  generalize (start maxConns wal).run before = p at hmain hsound
  constructor
  · rintro ⟨after, hafter, hexited⟩
    constructor
    · cases cause with
      | signal => rfl
      | failure =>
        have hstuck := hsound.receiving_failure hmain after
        rcases hexited with h | h <;> cases hstuck.symm.trans h
    · by_contra hopen
      obtain ⟨hloop, hln⟩ := not_or.mp hopen
      have hdeaf : (p.run after).Deaf :=
        run_invariant (fun _ _ event hevent h hstep ↦ h.step (hafter event hevent) hstep)
          ⟨hsound, ⟨cause, hmain⟩, hloop, hln⟩
      obtain ⟨other, hother⟩ := hdeaf.main
      rcases hexited with h | h <;> cases hother.symm.trans h
  · rintro ⟨rfl, hloop | hln⟩
    · exact hsound.canExit_of_returned hmain hloop
    · exact hsound.canExit_of_shut hmain hln

/-- A signal that comes before the transport listens. -/
theorem main_returns_iff_early :
    ¬∃ after, (∀ event ∈ after, ¬event.Fails) ∧
      (((start 1 (NewWAL [])).run [.signal, .select .signal, .main, .listener .bind]).run
        after).Exited := by
  rw [main_returns_iff 1 (NewWAL []) _ .signal rfl]
  decide

/-! ## The log -/

/-- `p.Close()` has run. -/
def logClosed : MainAt → Bool
  | .selecting | .closing _ | .receiving _ | .closingLog _ => false
  | .closingStore _ | .exited _ => true

/-- The file is open until `main` closes it. -/
def FileOpenUntilClosed (p : Process) : Prop := p.fileClosed = logClosed p.main

theorem FileOpenUntilClosed.step (h : p.FileOpenUntilClosed) (hstep : p.step event = some p') :
    p'.FileOpenUntilClosed := by
  unfold FileOpenUntilClosed at h ⊢
  cases step_change hstep with
  | listener | report | signal | append => exact h
  | flush => rwa [flush_fileClosed, flush_main]
  | selectSignal hmain | selectFailure hmain => exact h.trans (hmain ▸ rfl)
  | close _ hmain | closeStore _ hmain => exact h.trans (hmain ▸ rfl)
  | receive _ hmain => exact h.trans (hmain ▸ rfl)
  | closeLog => rfl

theorem FileOpenUntilClosed.next (h : p.FileOpenUntilClosed) (event : ProcessEvent) :
    (p.next event).FileOpenUntilClosed := by
  unfold Process.next
  cases hstep : p.step event with
  | none => exact h
  | some p' => exact h.step hstep

/-- Nothing reaches a closed file. -/
theorem file_step_of_closed (h : p.FileOpenUntilClosed) (hclosed : p.fileClosed = true)
    (hstep : p.step event = some p') :
    p'.fileClosed = true ∧ p'.wal.file = p.wal.file := by
  cases step_change hstep with
  | listener | report | signal | append => exact ⟨hclosed, rfl⟩
  | selectSignal | selectFailure => exact ⟨hclosed, rfl⟩
  | close | receive | closeStore => exact ⟨hclosed, rfl⟩
  | flush => exact ⟨by rw [flush_fileClosed, hclosed], by rw [flush, if_pos hclosed]⟩
  | closeLog _ hmain =>
    have hopen : p.fileClosed = false := h.trans (hmain ▸ rfl)
    cases hclosed.symm.trans hopen

theorem file_run_of_closed (h : p.FileOpenUntilClosed) (hclosed : p.fileClosed = true)
    (events : List ProcessEvent) :
    (p.run events).fileClosed = true ∧ (p.run events).wal.file = p.wal.file := by
  refine (run_invariant (P := fun after ↦ after.FileOpenUntilClosed ∧
    after.fileClosed = true ∧ after.wal.file = p.wal.file) ?_ ⟨h, hclosed, rfl⟩).2
  intro q q' event _ ⟨hq, hclosed, hfile⟩ hstep
  obtain ⟨hclosed', hfile'⟩ := file_step_of_closed hq hclosed hstep
  exact ⟨hq.step hstep, hclosed', hfile'.trans hfile⟩

/-- While the file is open, the log holds what the connections have written. -/
theorem written_next {log : List Command} (h : p.wal.Written log) (hopen : p.fileClosed = false)
    (hnext : (p.next event).fileClosed = false) :
    (p.next event).wal.Written (log ++ p.appends event) := by
  have hnothing : log ++ [] = log := List.append_nil log
  unfold next at hnext ⊢
  cases hstep : p.step event with
  | none =>
    have hnone : p.appends event = [] := by
      cases event with
      | append i cmd => rw [appends, hstep]; rfl
      | _ => rfl
    rwa [hnone, hnothing]
  | some p' =>
    rw [hstep] at hnext
    cases step_change hstep with
    | listener | report | signal => exact hnothing.symm ▸ h
    | selectSignal | selectFailure => exact hnothing.symm ▸ h
    | close | receive | closeStore => exact hnothing.symm ▸ h
    | closeLog => cases hnext
    | append i cmd hi =>
      rw [appends, hstep]
      exact h.append cmd
    | flush =>
      rw [Option.getD_some, flush, if_neg (by rw [hopen]; decide)]
      exact hnothing.symm ▸ h.flush

theorem written_run {log : List Command} (h : p.wal.Written log) (hopen : p.FileOpenUntilClosed)
    (events : List ProcessEvent) (hrun : (p.run events).fileClosed = false) :
    p.fileClosed = false ∧ (p.run events).wal.Written (log ++ p.appended events) := by
  induction events generalizing p log with
  | nil =>
    refine ⟨hrun, ?_⟩
    rw [appended, List.append_nil]
    exact h
  | cons event events ih =>
    have hstill {q : Process} (hq : q.FileOpenUntilClosed) (later : List ProcessEvent)
        (hlater : (q.run later).fileClosed = false) : q.fileClosed = false := by
      cases hclosed : q.fileClosed with
      | false => rfl
      | true => cases (file_run_of_closed hq hclosed later).1.symm.trans hlater
    have hp := hstill hopen (event :: events) hrun
    have hnext := hstill (hopen.next event) events hrun
    obtain ⟨-, hwritten⟩ := ih (written_next h hp hnext) (hopen.next event) hrun
    rw [appended, ← List.append_assoc]
    exact ⟨hp, hwritten⟩

/-- At the end the file holds exactly what the connections had written when `main` closed the log,
in the order of their writes. What they write after that, and the process still answers, is lost.
Assumes: a log that is ready for appending, and `main` about to close it. -/
theorem shutdown_keeps_exactly_earlier {wal : WAL} {log : List Command} (h : wal.Written log)
    (maxConns : ℤ) (before after : List ProcessEvent) (cause : Cause)
    (hmain : ((start maxConns wal).run before).main = .closingLog cause) :
    ((start maxConns wal).run (before ++ .main :: after)).wal.file.bytes =
      (log ++ (start maxConns wal).appended before).flatMap marshalCommand := by
  have hopen : ((start maxConns wal).run before).FileOpenUntilClosed :=
    run_invariant (fun _ _ _ _ h hstep ↦ h.step hstep) (show FileOpenUntilClosed _ from rfl)
  have hfile : ((start maxConns wal).run before).fileClosed = false := hopen.trans (hmain ▸ rfl)
  obtain ⟨-, hwritten⟩ :=
    written_run (p := start maxConns wal) h (show FileOpenUntilClosed _ from rfl) before hfile
  rw [run_append]
  generalize (start maxConns wal).run before = p at hmain hopen hwritten
  have hnext : p.next .main =
      { p with wal := p.wal.flush, fileClosed := true, main := .closingStore cause } := by
    simp [next, step, Exited, mainStep, hmain]
  show ((p.next .main).run after).wal.file.bytes = _
  rw [(file_run_of_closed (hopen.next .main) (by rw [hnext]) after).2, hnext]
  exact hwritten.file_bytes_flush.1

/-- One connection writes a command, and the process is stopped up to the closing of the log. -/
def stopped (cmd : Command) : List ProcessEvent :=
  [.listener .bind, .listener .arrive, .listener .decide, .listener (.advance 0), .append 0 cmd,
    .signal, .select .signal, .main, .listener .acceptClosed, .report, .main]

/-- The log is closed, the connection writes another command, and the process ends. -/
def lateWrite (cmd : Command) : List ProcessEvent := [.main, .append 0 cmd, .flush, .main]

/-- A second command of the same connection comes too late: it is written and not kept. -/
theorem shutdown_keeps_exactly_earlier_late :
    ((start 1 (NewWAL [])).run (stopped ⟨[83, 69, 84], [[1], [2]]⟩ ++
      lateWrite ⟨[83, 69, 84], [[1], [3]]⟩)).wal.file.bytes =
        marshalCommand ⟨[83, 69, 84], [[1], [2]]⟩ ∧
    (start 1 (NewWAL [])).appended (stopped ⟨[83, 69, 84], [[1], [2]]⟩ ++
      lateWrite ⟨[83, 69, 84], [[1], [3]]⟩) =
        [⟨[83, 69, 84], [[1], [2]]⟩, ⟨[83, 69, 84], [[1], [3]]⟩] := by
  have hnew : (NewWAL []).Written [] := ⟨rfl, rfl⟩
  -- the bytes of the two commands play no part
  generalize (⟨[83, 69, 84], [[1], [2]]⟩ : Command) = kept
  generalize (⟨[83, 69, 84], [[1], [3]]⟩ : Command) = lost
  have hmain : ((start 1 (NewWAL [])).run (stopped kept)).main = .closingLog .signal := by
    simp [run, stopped, next, step, Exited, select, mainStep, start, Listener.new, Listener.step,
      Listener.decide, Listener.limited, Listener.advance, Listener.close]
  have happended : (start 1 (NewWAL [])).appended (stopped kept) = [kept] := by
    simp [appended, appends, stopped, next, step, Exited, start, Listener.new, Listener.step,
      Listener.decide, Listener.limited, Listener.advance]
  refine ⟨?_, ?_⟩
  · rw [lateWrite, shutdown_keeps_exactly_earlier hnew 1 (stopped kept) _ .signal hmain, happended,
      List.nil_append, List.flatMap_singleton]
  · simp [appended, appends, stopped, lateWrite, next, step, Exited, select, mainStep, start,
      Listener.new, Listener.step, Listener.decide, Listener.limited, Listener.advance,
      Listener.close]

end Process

end FluxCache.Server
