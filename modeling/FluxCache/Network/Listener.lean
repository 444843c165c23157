import Mathlib.Data.Int.Basic
import Mathlib.Data.List.Count
import Mathlib.Data.List.Induction
import Mathlib.Tactic.Common

/-!
# The accept loop and its connection limit

`Listen` of the stream transports binds a listener, makes a semaphore of `maxConns` slots when
`maxConns` is positive, and accepts connections for ever. A connection that finds the semaphore full
is closed at once; for any other one a goroutine runs `handleConn`. The goroutine counts itself in
`ActiveConnections`, serves, and on its return runs three deferred calls in the reverse of the order
in which they were deferred: it frees its slot, closes the connection, and leaves the gauge.

A `Listener` is the accept loop with all its goroutines, and a schedule is any list of events, so a
result about every schedule is a result about every interleaving. What a connection does between its
start and its return is `handleConn` of the module on connections; here only the places at which it
touches the semaphore, the socket and the gauge matter.
-/

set_option autoImplicit false
set_option relaxedAutoImplicit false

namespace FluxCache.Network

/-- Where a connection that `Accept` has returned is. -/
inductive Conn
  /-- The `go` statement has run, `handleConn` has not started. -/
  | spawned
  | serving
  /-- The loop of `handleConn` has returned and its deferred calls have not run. -/
  | leaving
  /-- The slot of the semaphore is free again. -/
  | released
  /-- `conn.Close` has run. -/
  | closed
  | gone
  /-- The semaphore was full and the accept loop has closed the connection. -/
  | refused
  deriving DecidableEq, Repr

namespace Conn

/-- The connection has sent to the semaphore and has not received from it. -/
def holds : Conn → Bool
  | spawned | serving | leaving => true
  | released | closed | gone | refused => false

/-- The connection is counted in `ActiveConnections`. -/
def counted : Conn → Bool
  | serving | leaving | released | closed => true
  | spawned | gone | refused => false

/-- The server has not closed its side of the connection. -/
def isOpen : Conn → Bool
  | spawned | serving | leaving | released => true
  | closed | gone | refused => false

end Conn

/-- Where the goroutine that runs `Listen` is. -/
inductive Loop
  /-- Before `net.Listen`. -/
  | starting
  /-- In `Accept`. -/
  | accepting
  /-- `Accept` has returned a connection. -/
  | deciding
  | returned
  deriving DecidableEq, Repr

/-- The field `ln` of a transport. -/
inductive Socket
  | unset
  | listening
  | shut
  deriving DecidableEq, Repr

/-- A stream transport with its accept loop, its connections in the order of their arrival, the
values in its semaphore, and the gauge `ActiveConnections`. -/
structure Listener where
  maxConns : ℤ
  loop : Loop
  ln : Socket
  sem : ℕ
  conns : List Conn
  activeConnections : ℤ
  deriving DecidableEq, Repr

/-- What can happen next. -/
inductive ListenerEvent
  /-- `net.Listen` succeeds and the transport keeps the listener. -/
  | bind
  | bindFails
  /-- `Accept` returns a connection. -/
  | arrive
  /-- `Accept` fails although nobody has closed the listener. -/
  | acceptFails
  /-- `Accept` fails because the listener is closed. -/
  | acceptClosed
  /-- The accept loop deals with the connection it has. -/
  | decide
  /-- A connection takes its next step. -/
  | advance (i : ℕ)
  /-- Somebody calls `Close`. -/
  | close
  deriving DecidableEq, Repr

namespace Listener

/-- `NewTCP`, when `go n.Listen(...)` has run. -/
def new (maxConns : ℤ) : Listener := ⟨maxConns, .starting, .unset, 0, [], 0⟩

/-- `t.sem != nil` -/
def limited (l : Listener) : Prop := 0 < l.maxConns

instance (l : Listener) : Decidable l.limited := inferInstanceAs (Decidable (0 < l.maxConns))

/-- The part of `Listen` after `Accept` has returned a connection. The send to the semaphore does
not wait: a full semaphore takes the default branch. -/
def decide (l : Listener) : Listener :=
  if l.limited then
    if (l.sem : ℤ) < l.maxConns then
      { l with loop := .accepting, sem := l.sem + 1, conns := l.conns ++ [.spawned] }
    else { l with loop := .accepting, conns := l.conns ++ [.refused] }
  else { l with loop := .accepting, conns := l.conns ++ [.spawned] }

/-- The next step of a connection, or nothing if it has to wait or is over. Receiving from an empty
semaphore would wait. -/
def advance (l : Listener) (i : ℕ) : Option Listener :=
  match l.conns[i]? with
  | some .spawned =>
    some { l with conns := l.conns.set i .serving, activeConnections := l.activeConnections + 1 }
  | some .serving => some { l with conns := l.conns.set i .leaving }
  | some .leaving =>
    if l.limited then
      if 0 < l.sem then some { l with conns := l.conns.set i .released, sem := l.sem - 1 }
      else none
    else some { l with conns := l.conns.set i .released }
  | some .released => some { l with conns := l.conns.set i .closed }
  | some .closed =>
    some { l with conns := l.conns.set i .gone, activeConnections := l.activeConnections - 1 }
  | some .gone | some .refused | none => none

/-- `Close`: without a listener it does nothing. -/
def close (l : Listener) : Listener :=
  match l.ln with
  | .unset => l
  | .listening | .shut => { l with ln := .shut }

/-- The effect of an event, or nothing if it cannot happen. -/
def step (l : Listener) : ListenerEvent → Option Listener
  | .bind =>
    if l.loop = .starting then some { l with loop := .accepting, ln := .listening } else none
  | .bindFails => if l.loop = .starting then some { l with loop := .returned } else none
  | .arrive =>
    if l.loop = .accepting ∧ l.ln = .listening then some { l with loop := .deciding } else none
  | .acceptFails =>
    if l.loop = .accepting ∧ l.ln = .listening then some { l with loop := .returned } else none
  | .acceptClosed =>
    if l.loop = .accepting ∧ l.ln = .shut then some { l with loop := .returned } else none
  | .decide => if l.loop = .deciding then some l.decide else none
  | .advance i => l.advance i
  | .close => some l.close

/-- An event that cannot happen is passed over. -/
def next (l : Listener) (event : ListenerEvent) : Listener := (l.step event).getD l

/-- The effect of a schedule. -/
def run (l : Listener) (events : List ListenerEvent) : Listener := events.foldl next l

/-- How many connections hold a slot. -/
def held (l : Listener) : ℕ := l.conns.countP Conn.holds

/-- How many connections are between their start and the last deferred call. -/
def counted (l : Listener) : ℕ := l.conns.countP Conn.counted

/-- How many connections the server has not closed. -/
def openConns (l : Listener) : ℕ := l.conns.countP Conn.isOpen

variable {l l' : Listener} {event : ListenerEvent}

theorem run_append (l : Listener) (first second : List ListenerEvent) :
    l.run (first ++ second) = (l.run first).run second := List.foldl_append

/-- Assumes: a property that every event keeps. Every schedule keeps it. -/
theorem run_invariant {P : Listener → Prop}
    (hstep : ∀ l l' event, P l → l.step event = some l' → P l') (events : List ListenerEvent)
    (hl : P l) : P (l.run events) := by
  induction events generalizing l with
  | nil => exact hl
  | cons event events ih =>
    refine ih ?_
    unfold next
    cases h : l.step event with
    | none => exact hl
    | some l' => exact hstep l l' event hl h

/-! ## One event -/

/-- What an event leaves of the connections, the semaphore and the gauge: only the accept loop adds
a connection, and only a connection changes its own place. -/
inductive Change (l : Listener) : Listener → Prop
  /-- Only the accept loop or the listener moved. -/
  | loop (at_ : Loop) (ln : Socket) : Change l { l with loop := at_, ln := ln }
  | admitted (h : l.limited → (l.sem : ℤ) < l.maxConns) :
    Change l { l with loop := .accepting, sem := if l.limited then l.sem + 1 else l.sem,
                      conns := l.conns ++ [.spawned] }
  | refused (hlimited : l.limited) (h : l.maxConns ≤ l.sem) :
    Change l { l with loop := .accepting, conns := l.conns ++ [.refused] }
  | started (i : ℕ) (h : l.conns[i]? = some .spawned) :
    Change l { l with conns := l.conns.set i .serving,
                      activeConnections := l.activeConnections + 1 }
  | finished (i : ℕ) (h : l.conns[i]? = some .serving) :
    Change l { l with conns := l.conns.set i .leaving }
  | released (i : ℕ) (h : l.conns[i]? = some .leaving) (hsem : l.limited → 0 < l.sem) :
    Change l { l with conns := l.conns.set i .released,
                      sem := if l.limited then l.sem - 1 else l.sem }
  | closed (i : ℕ) (h : l.conns[i]? = some .released) :
    Change l { l with conns := l.conns.set i .closed }
  | left (i : ℕ) (h : l.conns[i]? = some .closed) :
    Change l { l with conns := l.conns.set i .gone, activeConnections := l.activeConnections - 1 }

theorem change_decide (l : Listener) : Change l l.decide := by
  unfold decide
  by_cases hlimited : l.limited
  · by_cases hroom : (l.sem : ℤ) < l.maxConns
    · have := Change.admitted (l := l) fun _ ↦ hroom
      simpa only [if_pos hlimited, if_pos hroom] using this
    · rw [if_pos hlimited, if_neg hroom]
      exact .refused hlimited (Int.not_lt.mp hroom)
  · have := Change.admitted (l := l) fun h ↦ absurd h hlimited
    simpa only [if_neg hlimited] using this

theorem change_advance {i : ℕ} (h : l.advance i = some l') : Change l l' := by
  unfold advance at h
  split at h
  case h_1 hi => cases h; exact .started i hi
  case h_2 hi => cases h; exact .finished i hi
  case h_3 hi =>
    by_cases hlimited : l.limited
    · rw [if_pos hlimited] at h
      by_cases hsem : 0 < l.sem
      · rw [if_pos hsem] at h
        cases h
        have := Change.released (l := l) i hi fun _ ↦ hsem
        simpa only [if_pos hlimited] using this
      · rw [if_neg hsem] at h
        cases h
    · rw [if_neg hlimited] at h
      cases h
      have := Change.released (l := l) i hi fun h ↦ absurd h hlimited
      simpa only [if_neg hlimited] using this
  case h_4 hi => cases h; exact .closed i hi
  case h_5 hi => cases h; exact .left i hi
  all_goals cases h

theorem change_close (l : Listener) : Change l l.close := by
  unfold close
  cases l.ln with
  | unset => exact .loop l.loop l.ln
  | listening => exact .loop l.loop .shut
  | shut => exact .loop l.loop .shut

theorem step_change (h : l.step event = some l') : Change l l' := by
  cases event with
  | bind | bindFails | arrive | acceptFails | acceptClosed =>
    simp only [step, Option.ite_none_right_eq_some, Option.some.injEq] at h
    obtain ⟨-, rfl⟩ := h
    exact .loop _ _
  | decide =>
    simp only [step, Option.ite_none_right_eq_some, Option.some.injEq] at h
    obtain ⟨-, rfl⟩ := h
    exact change_decide l
  | advance i => exact change_advance h
  | close =>
    cases h
    exact change_close l

theorem Change.maxConns_eq (h : Change l l') : l'.maxConns = l.maxConns := by cases h <;> rfl

theorem maxConns_run (events : List ListenerEvent) : (l.run events).maxConns = l.maxConns :=
  run_invariant (P := fun after ↦ after.maxConns = l.maxConns)
    (fun _ _ _ h hstep ↦ (step_change hstep).maxConns_eq.trans h) events rfl

/-- What an event other than `Close` does to the accept loop and its listener. -/
inductive Move : ListenerEvent → Loop × Socket → Loop × Socket → Prop
  /-- Only a connection moved. -/
  | conn (i : ℕ) (at_ : Loop × Socket) : Move (.advance i) at_ at_
  | bind (ln : Socket) : Move .bind (.starting, ln) (.accepting, .listening)
  | bindFails (ln : Socket) : Move .bindFails (.starting, ln) (.returned, ln)
  | arrive : Move .arrive (.accepting, .listening) (.deciding, .listening)
  | acceptFails : Move .acceptFails (.accepting, .listening) (.returned, .listening)
  | acceptClosed : Move .acceptClosed (.accepting, .shut) (.returned, .shut)
  | decide (ln : Socket) : Move .decide (.deciding, ln) (.accepting, ln)

theorem advance_loop {i : ℕ} (h : l.advance i = some l') : (l'.loop, l'.ln) = (l.loop, l.ln) := by
  unfold advance at h
  split at h
  case h_3 =>
    by_cases hlimited : l.limited
    · rw [if_pos hlimited, Option.ite_none_right_eq_some] at h
      cases h.2
      rfl
    · rw [if_neg hlimited] at h
      cases h
      rfl
  all_goals
    cases h
    try rfl

theorem decide_loop (l : Listener) : (l.decide.loop, l.decide.ln) = (.accepting, l.ln) := by
  unfold decide
  split
  · split <;> rfl
  · rfl

theorem step_move (h : l.step event = some l') (hclose : event ≠ .close) :
    Move event (l.loop, l.ln) (l'.loop, l'.ln) := by
  cases event with
  | bind | bindFails =>
    simp only [step, Option.ite_none_right_eq_some, Option.some.injEq] at h
    obtain ⟨hloop, rfl⟩ := h
    rw [hloop]
    constructor
  | arrive | acceptFails | acceptClosed =>
    simp only [step, Option.ite_none_right_eq_some, Option.some.injEq] at h
    obtain ⟨⟨hloop, hln⟩, rfl⟩ := h
    rw [hloop, hln]
    constructor
  | decide =>
    simp only [step, Option.ite_none_right_eq_some, Option.some.injEq] at h
    obtain ⟨hloop, rfl⟩ := h
    rw [hloop, decide_loop]
    constructor
  | advance i =>
    rw [advance_loop h]
    constructor
  | close => exact absurd rfl hclose

/-- The accept loop stays where it has returned. -/
theorem Move.returned {before after : Loop × Socket} (h : Move event before after)
    (hbefore : before.1 = .returned) : after.1 = .returned := by
  cases h with
  | conn => exact hbefore
  | bindFails | acceptFails | acceptClosed => rfl
  | bind | arrive | decide => cases hbefore

/-- The accept loop never goes back to its start. -/
theorem Move.eq_of_starting {before after : Loop × Socket} (h : Move event before after)
    (hafter : after.1 = .starting) : before = after := by
  cases h with
  | conn => rfl
  | bind | bindFails | arrive | acceptFails | acceptClosed | decide => cases hafter

/-- Without a failure of the operating system, only the closing of the listener ends the accept
loop. -/
theorem Move.open_of_open {before after : Loop × Socket} (h : Move event before after)
    (hbind : event ≠ .bindFails) (haccept : event ≠ .acceptFails) (hloop : before.1 ≠ .returned)
    (hln : before.2 ≠ .shut) : after.1 ≠ .returned ∧ after.2 ≠ .shut := by
  cases h with
  | conn => exact ⟨hloop, hln⟩
  | bind | arrive => decide
  | bindFails => exact absurd rfl hbind
  | acceptFails => exact absurd rfl haccept
  | acceptClosed => exact absurd rfl hln
  | decide => exact ⟨Loop.noConfusion, hln⟩

@[simp] theorem close_loop (l : Listener) : l.close.loop = l.loop := by
  unfold close
  split <;> rfl

theorem close_ln_of_unset (h : l.ln = .unset) : l.close.ln = .unset := by
  unfold close
  rw [h]
  exact h

/-! ## The accounts -/

/-- A list after one of its entries has changed. -/
theorem countP_set_add {α : Type} (p : α → Bool) {xs : List α} {i : ℕ} {old : α}
    (h : xs[i]? = some old) (fresh : α) :
    (xs.set i fresh).countP p + (p old).toNat = xs.countP p + (p fresh).toNat := by
  obtain ⟨hi, hold⟩ := List.getElem?_eq_some_iff.mp h
  rw [List.countP_set hi, hold]
  cases hp : p old with
  | false => cases p fresh <;> simp
  | true =>
    have hpos : 0 < xs.countP p := List.countP_pos_iff.mpr ⟨old, List.mem_of_getElem? h, hp⟩
    cases p fresh <;> simp <;> omega

/-- The gauge counts the connections that have started and not left, and the semaphore, if there is
one, has one value for each connection that holds a slot. -/
structure Balanced (l : Listener) : Prop where
  gauge : l.activeConnections = l.counted
  slots : l.limited → l.sem = l.held
  room : l.limited → (l.sem : ℤ) ≤ l.maxConns

theorem balanced_new (maxConns : ℤ) : (new maxConns).Balanced :=
  ⟨rfl, fun _ ↦ rfl, fun h ↦ Int.le_of_lt h⟩

/-- A step of one connection, with what it does to the semaphore and the gauge. -/
theorem Balanced.set (h : l.Balanced) {i : ℕ} {old : Conn} (hi : l.conns[i]? = some old)
    (fresh : Conn) {sem : ℕ} {active : ℤ}
    (hsem : l.limited → sem + old.holds.toNat = l.sem + fresh.holds.toNat)
    (hle : sem ≤ l.sem)
    (hactive : active + old.counted.toNat = l.activeConnections + fresh.counted.toNat) :
    Balanced { l with conns := l.conns.set i fresh, sem := sem, activeConnections := active } where
  gauge := by
    have hcount := countP_set_add Conn.counted hi fresh
    have hgauge := h.gauge
    simp only [counted] at hgauge ⊢
    omega
  slots hlimited := by
    have hcount := countP_set_add Conn.holds hi fresh
    have hslots := h.slots hlimited
    have := hsem hlimited
    simp only [held] at hslots ⊢
    omega
  room hlimited := by
    have := h.room hlimited
    show (sem : ℤ) ≤ l.maxConns
    omega

theorem Balanced.change (h : l.Balanced) (hchange : Change l l') : l'.Balanced := by
  cases hchange with
  | loop => exact ⟨h.gauge, h.slots, h.room⟩
  | admitted hroom =>
    refine ⟨?_, fun (hlimited : l.limited) ↦ ?_, fun (hlimited : l.limited) ↦ ?_⟩
    · rw [h.gauge, counted, counted, List.countP_append]
      rfl
    · show (if l.limited then l.sem + 1 else l.sem) = _
      rw [if_pos hlimited, h.slots hlimited, held, held, List.countP_append]
      rfl
    · show ((if l.limited then l.sem + 1 else l.sem : ℕ) : ℤ) ≤ l.maxConns
      rw [if_pos hlimited]
      exact hroom hlimited
  | refused hlimited hfull =>
    refine ⟨?_, fun hlimited ↦ ?_, h.room⟩
    · rw [h.gauge, counted, counted, List.countP_append]
      rfl
    · rw [h.slots hlimited, held, held, List.countP_append]
      rfl
  | started i hi => exact h.set hi .serving (fun _ ↦ rfl) le_rfl (Int.add_zero _)
  | finished i hi => exact h.set hi .leaving (fun _ ↦ rfl) le_rfl rfl
  | released i hi hsem =>
    refine h.set hi .released (fun hlimited ↦ ?_) ?_ rfl
    · rw [if_pos hlimited]
      exact Nat.sub_add_cancel (hsem hlimited)
    · split
      · exact Nat.sub_le _ _
      · exact le_rfl
  | closed i hi => exact h.set hi .closed (fun _ ↦ rfl) le_rfl rfl
  | left i hi => exact h.set hi .gone (fun _ ↦ rfl) le_rfl (by simp [Conn.counted])

theorem balanced_run (maxConns : ℤ) (events : List ListenerEvent) :
    ((new maxConns).run events).Balanced :=
  run_invariant (fun _ _ _ h hstep ↦ h.change (step_change hstep)) events (balanced_new maxConns)

/-- A connection that holds a slot has put a value into the semaphore, so its receive does not
wait. -/
theorem Balanced.isSome_advance (h : l.Balanced) {i : ℕ} (hi : l.conns[i]? = some .leaving) :
    (l.advance i).isSome := by
  unfold advance
  rw [hi]
  dsimp only
  split
  case isTrue hlimited =>
    have hheld : 0 < l.held := List.countP_pos_iff.mpr ⟨_, List.mem_of_getElem? hi, rfl⟩
    rw [if_pos (h.slots hlimited ▸ hheld)]
    rfl
  case isFalse => rfl

/-! ## Who is refused -/

/-- A connection is marked as refused when it arrives, and only if every slot is taken. -/
theorem Change.refused_cases (h : Change l l') {i : ℕ} (hi : l'.conns[i]? = some .refused) :
    l.conns[i]? = some .refused ∨ (l.limited ∧ l.maxConns ≤ l.sem ∧ i = l.conns.length) := by
  have hset {j : ℕ} {fresh : Conn} (hfresh : fresh ≠ .refused)
      (hj : (l.conns.set j fresh)[i]? = some .refused) : l.conns[i]? = some .refused := by
    by_cases hij : j = i
    · subst hij
      rw [List.getElem?_set_self'] at hj
      cases hold : l.conns[j]? with
      | none => rw [hold] at hj; cases hj
      | some old =>
        rw [hold] at hj
        exact absurd (Option.some.inj hj) hfresh
    · rwa [List.getElem?_set_ne hij] at hj
  have happend {fresh : Conn} (hj : (l.conns ++ [fresh])[i]? = some .refused) :
      l.conns[i]? = some .refused ∨ (fresh = .refused ∧ i = l.conns.length) := by
    rcases Nat.lt_trichotomy i l.conns.length with hlt | heq | hgt
    · rw [List.getElem?_append_left hlt] at hj
      exact .inl hj
    · subst heq
      rw [List.getElem?_concat_length] at hj
      exact .inr ⟨Option.some.inj hj, rfl⟩
    · rw [List.getElem?_eq_none (by simpa using Nat.succ_le_of_lt hgt)] at hj
      cases hj
  cases h with
  | loop => exact .inl hi
  | admitted => exact .inl ((happend hi).resolve_right fun h ↦ absurd h.1 (by decide))
  | refused hlimited hfull => exact (happend hi).imp_right fun h ↦ ⟨hlimited, hfull, h.2⟩
  | started | finished | released | closed | left => exact .inl (hset (by decide) hi)

/-- At the arrival of a refused connection all slots were taken. -/
theorem full_of_refused (maxConns : ℤ) (events : List ListenerEvent) (i : ℕ)
    (hi : ((new maxConns).run events).conns[i]? = some .refused) :
    0 < maxConns ∧ ∃ before, before <+: events ∧
      ((new maxConns).run before).conns.length = i ∧
      (((new maxConns).run before).held : ℤ) = maxConns := by
  induction events using List.reverseRecOn with
  | nil => cases hi
  | append_singleton events event ih =>
    have hrun : (new maxConns).run (events ++ [event]) = ((new maxConns).run events).next event :=
      List.foldl_append
    rw [hrun, next] at hi
    have hearlier (h : ((new maxConns).run events).conns[i]? = some .refused) :
        0 < maxConns ∧ ∃ before, before <+: events ++ [event] ∧
          ((new maxConns).run before).conns.length = i ∧
          (((new maxConns).run before).held : ℤ) = maxConns := by
      obtain ⟨hpos, before, hbefore, hfull⟩ := ih h
      exact ⟨hpos, before, hbefore.trans (List.prefix_append events [event]), hfull⟩
    cases hstep : ((new maxConns).run events).step event with
    | none =>
      rw [hstep] at hi
      exact hearlier hi
    | some after =>
      rw [hstep] at hi
      rcases (step_change hstep).refused_cases hi with h | ⟨hlimited, hfull, hlength⟩
      · exact hearlier h
      · have hbalanced := balanced_run maxConns events
        have hmax : ((new maxConns).run events).maxConns = maxConns := maxConns_run events
        have hroom := hbalanced.room hlimited
        rw [hmax] at hfull hroom
        refine ⟨?_, events, List.prefix_append events [event], hlength.symm, ?_⟩
        · rwa [limited, hmax] at hlimited
        · rw [← hbalanced.slots hlimited]
          exact Int.le_antisymm hroom hfull

/-- After every schedule of the accept loop and its connections: the gauge is the number of
connections that have started and not left, at most `maxConns` connections hold a slot and the
semaphore counts them, a connection that leaves never waits for the semaphore, and a connection was
refused only if `maxConns` others held a slot at that moment. -/
theorem connection_limit (maxConns : ℤ) (events : List ListenerEvent) :
    ((new maxConns).run events).activeConnections = ((new maxConns).run events).counted ∧
      (0 < maxConns → ((new maxConns).run events).sem = ((new maxConns).run events).held ∧
        (((new maxConns).run events).held : ℤ) ≤ maxConns) ∧
      (∀ i, ((new maxConns).run events).conns[i]? = some .leaving →
        (((new maxConns).run events).advance i).isSome) ∧
      ∀ i, ((new maxConns).run events).conns[i]? = some .refused →
        0 < maxConns ∧ ∃ before, before <+: events ∧
          ((new maxConns).run before).conns.length = i ∧
          (((new maxConns).run before).held : ℤ) = maxConns := by
  have h := balanced_run maxConns events
  have hmax : ((new maxConns).run events).maxConns = maxConns := maxConns_run events
  refine ⟨h.gauge, fun hpos ↦ ?_, fun i ↦ h.isSome_advance, full_of_refused maxConns events⟩
  have hlimited : ((new maxConns).run events).limited := by rwa [limited, hmax]
  have hslots := h.slots hlimited
  have hroom := h.room hlimited
  rw [hslots, hmax] at hroom
  exact ⟨hslots, hroom⟩

/-! ## What the limit does not bound -/

/-- A connection arrives, is served, and has freed its slot. -/
def visit (i : ℕ) : List ListenerEvent := [.arrive, .decide, .advance i, .advance i, .advance i]

/-- An open listener with connections that have freed their slots and are not yet closed. -/
def lingering (maxConns : ℤ) (n : ℕ) : Listener :=
  ⟨maxConns, .accepting, .listening, 0, List.replicate n .released, n⟩

theorem run_visit (maxConns : ℤ) (n : ℕ) :
    (lingering maxConns n).run (visit n) = lingering maxConns (n + 1) := by
  have hset (old fresh : Conn) :
      (List.replicate n Conn.released ++ [old]).set n fresh =
        List.replicate n Conn.released ++ [fresh] := by
    rw [List.set_append_right _ _ (by simp)]
    simp
  have hsucc : List.replicate n Conn.released ++ [.released] = List.replicate (n + 1) .released :=
    List.replicate_succ'.symm
  by_cases hpos : 0 < maxConns
  · simp [run, visit, lingering, next, step, decide, limited, advance, hset, hpos, hsucc]
  · simp [run, visit, lingering, next, step, decide, limited, advance, hset, hpos, hsucc]

theorem run_visits (maxConns : ℤ) (n : ℕ) :
    (new maxConns).run (.bind :: (List.range n).flatMap visit) = lingering maxConns n := by
  induction n with
  | zero => rfl
  | succ n ih =>
    rw [List.range_succ, List.flatMap_append, ← List.cons_append, run_append, ih,
      List.flatMap_singleton, run_visit]

/-- The slot is freed before the connection is closed, so whatever the limit is, any number of
connections can be open, and in the gauge, at one time. -/
theorem open_conns_unbounded (maxConns : ℤ) (n : ℕ) :
    ∃ events, ((new maxConns).run events).openConns = n ∧
      ((new maxConns).run events).activeConnections = n ∧ ((new maxConns).run events).held = 0 := by
  refine ⟨.bind :: (List.range n).flatMap visit, ?_⟩
  rw [run_visits]
  refine ⟨?_, rfl, ?_⟩
  · simp [openConns, lingering, List.countP_replicate, Conn.isOpen]
  · simp [held, lingering, List.countP_replicate, Conn.holds]

end Listener

end FluxCache.Network
