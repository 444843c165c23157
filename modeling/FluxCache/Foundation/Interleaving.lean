import Mathlib.Data.Fintype.Basic
import Mathlib.Data.Finset.Card
import Mathlib.Logic.Function.Basic
import Mathlib.Logic.Relation

/-!
# Threads over a shared state

A `ThreadSystem` says what one thread does: how it enters a call, whether it has anything left to
do, and what its next atomic step does to the shared state and to the state of the thread. A
`Config` has any number of threads over one shared state, and a schedule is a list of events: a
thread that is idle enters a call, or a thread takes its next step. So a result about every schedule
is a result about every interleaving of every choice of calls.

Events may leave marks, so that a result can speak about what has happened so far (`observed`). The
rule for invariants asks for two steps (`run_invariant`), and only for events that meet a condition
where the schedule is known to meet it (`Guarded`); where a condition on an event is exact, so is it
for the schedule (`forall_isPrefix_run_iff`). A system can be followed by another one with the same
calls (`run_related`). A thread that runs alone goes through its steps without interruption
(`Reaches`), and this is a schedule (`Reaches.exists_run`).
-/

set_option autoImplicit false
set_option relaxedAutoImplicit false

namespace FluxCache.Foundation

/-- What one thread does. -/
structure ThreadSystem (Shared Local Call : Type) where
  enter : Call → Local
  idle : Local → Bool
  advance : Shared → Local → Shared × Local

/-- A shared state with the states of all threads. -/
structure Config (ι Shared Local : Type) where
  shared : Shared
  threads : ι → Local

/-- One entry of a schedule. -/
inductive Event (ι Call : Type)
  | enter (i : ι) (call : Call)
  | advance (i : ι)

namespace ThreadSystem

variable {ι Shared Local Call : Type} [DecidableEq ι] (T : ThreadSystem Shared Local Call)

/-- The effect of one event. A thread that is busy does not enter a call, and an idle one does not
advance. -/
def step (c : Config ι Shared Local) : Event ι Call → Config ι Shared Local
  | .enter i call =>
    if T.idle (c.threads i) then ⟨c.shared, Function.update c.threads i (T.enter call)⟩ else c
  | .advance i =>
    if T.idle (c.threads i) then c
    else
      ⟨(T.advance c.shared (c.threads i)).1,
        Function.update c.threads i (T.advance c.shared (c.threads i)).2⟩

/-- The effect of a schedule. -/
def run (c : Config ι Shared Local) (events : List (Event ι Call)) : Config ι Shared Local :=
  events.foldl T.step c

/-- Every event of a schedule meets a condition in the configuration in which it happens. -/
def Guarded (allowed : Config ι Shared Local → Event ι Call → Prop) :
    Config ι Shared Local → List (Event ι Call) → Prop
  | _, [] => True
  | c, event :: events => allowed c event ∧ Guarded allowed (T.step c event) events

/-- All threads have finished their calls. -/
def Quiet (c : Config ι Shared Local) : Prop := ∀ i, T.idle (c.threads i) = true

instance [Fintype ι] (c : Config ι Shared Local) : Decidable (T.Quiet c) :=
  inferInstanceAs (Decidable (∀ i, T.idle (c.threads i) = true))

variable {T} {c : Config ι Shared Local} {events : List (Event ι Call)}
  {allowed : Config ι Shared Local → Event ι Call → Prop}

/-- Assumes: a condition that every event of a schedule meets in every configuration. -/
theorem guarded_of_forall (h : ∀ c, ∀ event ∈ events, allowed c event) :
    T.Guarded allowed c events := by
  induction events generalizing c with
  | nil => exact trivial
  | cons event events ih =>
    exact ⟨h c event List.mem_cons_self, ih fun c other hother ↦ h c other (.tail event hother)⟩

variable (T) in
/-- An event that changes something: an idle thread enters a call, or a busy one advances. -/
def effective (c : Config ι Shared Local) : Event ι Call → Bool
  | .enter i _ => T.idle (c.threads i)
  | .advance i => !T.idle (c.threads i)

variable (T) in
/-- The marks left by the effective events of a schedule, in their order. -/
def observed {Mark : Type} (mark : Config ι Shared Local → Event ι Call → List Mark) :
    Config ι Shared Local → List (Event ι Call) → List Mark
  | _, [] => []
  | c, event :: events =>
    (if T.effective c event then mark c event else []) ++ observed mark (T.step c event) events

/-- Assumes: an invariant of the configuration and the marks so far that every allowed effective
event keeps. It holds after every schedule whose events are allowed. -/
theorem run_invariant {Mark : Type} (mark : Config ι Shared Local → Event ι Call → List Mark)
    (Inv : Config ι Shared Local → List Mark → Prop) (marks : List Mark)
    (henter : ∀ c marks i call, Inv c marks → T.idle (c.threads i) = true →
      allowed c (.enter i call) →
      Inv ⟨c.shared, Function.update c.threads i (T.enter call)⟩ (marks ++ mark c (.enter i call)))
    (hadvance : ∀ c marks i, Inv c marks → T.idle (c.threads i) = false → allowed c (.advance i) →
      Inv ⟨(T.advance c.shared (c.threads i)).1,
        Function.update c.threads i (T.advance c.shared (c.threads i)).2⟩
        (marks ++ mark c (.advance i)))
    (hc : Inv c marks) (hguarded : T.Guarded allowed c events) :
    Inv (T.run c events) (marks ++ T.observed mark c events) := by
  induction events generalizing c marks with
  | nil =>
    rw [observed, List.append_nil]
    exact hc
  | cons event events ih =>
    rw [observed, ← List.append_assoc]
    refine ih _ ?_ hguarded.2
    cases event with
    | enter i call =>
      by_cases hidle : T.idle (c.threads i) = true
      · rw [step, if_pos hidle, effective, if_pos hidle]
        exact henter c marks i call hc hidle hguarded.1
      · rw [step, if_neg hidle, effective, if_neg hidle, List.append_nil]
        exact hc
    | advance i =>
      by_cases hidle : T.idle (c.threads i) = true
      · rw [step, if_pos hidle, effective, hidle, if_neg (by simp), List.append_nil]
        exact hc
      · have hbusy := Bool.eq_false_iff.mpr hidle
        rw [step, if_neg hidle, effective, hbusy, Bool.not_false, if_pos rfl]
        exact hadvance c marks i hc hbusy hguarded.1

/-- Assumes: a side condition that the events of a schedule keep, and an invariant that an event
keeps exactly if it meets a condition. The invariant holds all along the schedule exactly if all its
events meet the condition. -/
theorem forall_isPrefix_run_iff {Side Inv : Config ι Shared Local → Prop}
    (hside : ∀ c, ∀ event ∈ events, Side c → Side (T.step c event))
    (hstep : ∀ c, ∀ event ∈ events, Side c → Inv c → (Inv (T.step c event) ↔ allowed c event))
    (hc : Side c) (hinv : Inv c) :
    (∀ before, before <+: events → Inv (T.run c before)) ↔ T.Guarded allowed c events := by
  induction events generalizing c with
  | nil =>
    refine ⟨fun _ ↦ trivial, fun _ before hbefore ↦ ?_⟩
    rw [List.prefix_nil.mp hbefore]
    exact hinv
  | cons event events ih =>
    have hfirst := hstep c event List.mem_cons_self hc hinv
    have hnext (h : Inv (T.step c event)) :=
      ih (fun c other hother ↦ hside c other (.tail event hother))
        (fun c other hother ↦ hstep c other (.tail event hother))
        (hside c event List.mem_cons_self hc) h
    constructor
    · intro h
      have hafter : Inv (T.step c event) := h [event] (List.prefix_append [event] events)
      refine ⟨hfirst.mp hafter, (hnext hafter).mp fun before hbefore ↦ ?_⟩
      exact h (event :: before) (List.cons_prefix_cons.mpr ⟨rfl, hbefore⟩)
    · rintro ⟨hallowed, hguarded⟩ before hbefore
      cases before with
      | nil => exact hinv
      | cons other before =>
        obtain ⟨rfl, hrest⟩ := List.cons_prefix_cons.mp hbefore
        exact (hnext (hfirst.mpr hallowed)).mpr hguarded before hrest

/-! ### Two systems with the same calls -/

/-- Assumes: two systems whose shared states and threads are related, with threads that are idle
together, and steps that keep the relations. A schedule of allowed calls keeps the relations. -/
theorem run_related {Shared' Local' : Type} {T' : ThreadSystem Shared' Local' Call}
    {R : Shared → Shared' → Prop} {L : Local → Local' → Prop} {permitted : Call → Prop}
    (hidle : ∀ l l', L l l' → T.idle l = T'.idle l')
    (henter : ∀ call, permitted call → L (T.enter call) (T'.enter call))
    (hadvance : ∀ s s' l l', R s s' → L l l' → T.idle l = false →
      R (T.advance s l).1 (T'.advance s' l').1 ∧ L (T.advance s l).2 (T'.advance s' l').2)
    (hevents : ∀ i call, .enter i call ∈ events → permitted call) {c' : Config ι Shared' Local'}
    (hshared : R c.shared c'.shared) (hthreads : ∀ i, L (c.threads i) (c'.threads i)) :
    R (T.run c events).shared (T'.run c' events).shared ∧
      ∀ i, L ((T.run c events).threads i) ((T'.run c' events).threads i) := by
  have hupdate (c : Config ι Shared Local) (c' : Config ι Shared' Local')
      (h : ∀ i, L (c.threads i) (c'.threads i)) (i : ι) {l : Local} {l' : Local'} (hl : L l l')
      (j : ι) : L (Function.update c.threads i l j) (Function.update c'.threads i l' j) := by
    by_cases hj : j = i
    · rwa [hj, Function.update_self, Function.update_self]
    · rw [Function.update_of_ne hj, Function.update_of_ne hj]
      exact h j
  induction events generalizing c c' with
  | nil => exact ⟨hshared, hthreads⟩
  | cons event events ih =>
    have hsame (i : ι) := hidle _ _ (hthreads i)
    suffices hstep : R (T.step c event).shared (T'.step c' event).shared ∧
        ∀ i, L ((T.step c event).threads i) ((T'.step c' event).threads i) from
      ih (fun i call h ↦ hevents i call (.tail event h)) hstep.1 hstep.2
    cases event with
    | enter i call =>
      rw [step, step, ← hsame i]
      by_cases hi : T.idle (c.threads i) = true
      · rw [if_pos hi, if_pos hi]
        exact ⟨hshared, hupdate c c' hthreads i (henter call (hevents i call List.mem_cons_self))⟩
      · rw [if_neg hi, if_neg hi]
        exact ⟨hshared, hthreads⟩
    | advance i =>
      rw [step, step, ← hsame i]
      by_cases hi : T.idle (c.threads i) = true
      · rw [if_pos hi, if_pos hi]
        exact ⟨hshared, hthreads⟩
      · rw [if_neg hi, if_neg hi]
        obtain ⟨hR, hL⟩ :=
          hadvance _ _ _ _ hshared (hthreads i) (Bool.eq_false_of_not_eq_true hi)
        exact ⟨hR, hupdate c c' hthreads i hL⟩

/-! ### Threads in some states -/

/-- The threads whose state has a property. -/
def threadsIn [Fintype ι] (p : Local → Bool) (c : Config ι Shared Local) : Finset ι :=
  Finset.univ.filter fun i ↦ p (c.threads i) = true

section ThreadsIn

variable [Fintype ι] {p : Local → Bool} {i : ι} {s : Shared} {l : Local}

omit [DecidableEq ι] in
theorem mem_threadsIn : i ∈ threadsIn p c ↔ p (c.threads i) = true := by
  rw [threadsIn, Finset.mem_filter]
  exact and_iff_right (Finset.mem_univ i)

theorem threadsIn_update_of_true (hl : p l = true) :
    threadsIn p ⟨s, Function.update c.threads i l⟩ = insert i (threadsIn p c) := by
  ext j
  rw [Finset.mem_insert, mem_threadsIn, mem_threadsIn]
  by_cases hj : j = i
  · simp [hj, hl]
  · simp [hj]

theorem threadsIn_update_of_false (hl : p l = false) :
    threadsIn p ⟨s, Function.update c.threads i l⟩ = (threadsIn p c).erase i := by
  ext j
  rw [Finset.mem_erase, mem_threadsIn, mem_threadsIn]
  by_cases hj : j = i
  · simp [hj, hl]
  · simp [hj]

end ThreadsIn

/-! ### A thread that runs alone -/

variable (T) in
/-- One step of a busy thread that runs alone. -/
def Steps (before after : Shared × Local) : Prop :=
  T.idle before.2 = false ∧ after = T.advance before.1 before.2

variable (T) in
/-- The steps of a thread that runs alone lead from one state to another. -/
def Reaches : Shared × Local → Shared × Local → Prop := Relation.ReflTransGen T.Steps

theorem Reaches.head {s : Shared} {l : Local} {middle after : Shared × Local}
    (hidle : T.idle l = false) (hstep : T.advance s l = middle) (hrest : T.Reaches middle after) :
    T.Reaches (s, l) after :=
  Relation.ReflTransGen.head ⟨hidle, hstep.symm⟩ hrest

/-- The steps of a thread that runs alone are a schedule. -/
theorem Reaches.exists_run {i : ι} {after : Shared × Local}
    (h : T.Reaches (c.shared, c.threads i) after) :
    ∃ n, T.run c (List.replicate n (.advance i)) =
      ⟨after.1, Function.update c.threads i after.2⟩ := by
  generalize hbefore : (c.shared, c.threads i) = before at h
  induction h using Relation.ReflTransGen.head_induction_on generalizing c with
  | refl =>
    refine ⟨0, ?_⟩
    rw [← hbefore, Function.update_eq_self]
    rfl
  | head hstep _ ih =>
    obtain ⟨hidle, hnext⟩ := hstep
    rw [← hbefore] at hidle hnext
    obtain ⟨n, hn⟩ := @ih (T.step c (.advance i)) (by
      rw [hnext, step, if_neg (Bool.eq_false_iff.mp hidle)]
      exact Prod.ext rfl (Function.update_self ..))
    refine ⟨n + 1, ?_⟩
    rw [List.replicate_succ, run, List.foldl_cons]
    refine hn.trans ?_
    rw [step, if_neg (Bool.eq_false_iff.mp hidle), Function.update_idem]

end ThreadSystem

end FluxCache.Foundation
