import FluxCache.Foundation.Interleaving
import Mathlib.Data.List.Perm.Basic

/-!
# Linearizable histories

The clients of a `ThreadSystem` see when a thread enters a call and when its call returns. A
`Timeline` is what they have seen so far, with a clock that counts the marks, and its completed
calls are the history of a run. A history is `Linearizable` with respect to a sequential object if
its calls can be put in one order that the object explains, and in which no call comes before one
that had returned before it was entered.

An order is extended call by call. A call that returns may go to any place from which all later
calls of the order had not returned when it was entered (`Linearizes.insert`), which need not be the
end. A read whose answer is already fixed keeps such a place while it runs (`Place`): other calls
that are put at the end or that change nothing leave it one (`Place.insert_unchanged`,
`Place.append`).
-/

set_option autoImplicit false
set_option relaxedAutoImplicit false

namespace FluxCache.Foundation

/-! ### What clients see -/

/-- A mark on the timeline: a thread enters a call, or its call returns. -/
inductive Visible (ι Call Reply : Type)
  | enter (i : ι) (call : Call)
  | finish (i : ι) (reply : Reply)

/-- A call that has returned, with the times at which it was entered and at which it returned. -/
structure Completed (Call Reply : Type) where
  call : Call
  reply : Reply
  entered : ℕ
  returned : ℕ

/-- What has been seen: the number of marks, the call that every thread has entered last, and the
calls that have returned. -/
structure Timeline (ι Call Reply : Type) where
  time : ℕ
  last : ι → Option (Call × ℕ)
  calls : List (Completed Call Reply)

namespace Timeline

variable {ι Call Reply : Type} [DecidableEq ι]

/-- Nothing has been seen. -/
def start : Timeline ι Call Reply := ⟨0, fun _ ↦ none, []⟩

/-- The timeline with one more mark. -/
def see (τ : Timeline ι Call Reply) : Visible ι Call Reply → Timeline ι Call Reply
  | .enter i call => ⟨τ.time + 1, Function.update τ.last i (some (call, τ.time)), τ.calls⟩
  | .finish i reply =>
    ⟨τ.time + 1, τ.last,
      τ.calls ++ (τ.last i).toList.map fun entry ↦ ⟨entry.1, reply, entry.2, τ.time⟩⟩

/-- All times lie in the past. -/
structure Timed (τ : Timeline ι Call Reply) : Prop where
  last_le : ∀ i, ∀ entry ∈ τ.last i, entry.2 ≤ τ.time
  entered_le : ∀ c ∈ τ.calls, c.entered ≤ τ.time
  returned_le : ∀ c ∈ τ.calls, c.returned ≤ τ.time

omit [DecidableEq ι] in
theorem timed_start : (start : Timeline ι Call Reply).Timed :=
  ⟨fun _ _ h ↦ absurd h (Option.not_mem_none _), fun _ h ↦ absurd h List.not_mem_nil,
    fun _ h ↦ absurd h List.not_mem_nil⟩

theorem Timed.see {τ : Timeline ι Call Reply} (h : τ.Timed) (mark : Visible ι Call Reply) :
    (τ.see mark).Timed := by
  cases mark with
  | enter i call =>
    refine ⟨fun j entry hentry ↦ ?_, fun c hc ↦ (h.entered_le c hc).trans (Nat.le_succ _),
      fun c hc ↦ (h.returned_le c hc).trans (Nat.le_succ _)⟩
    by_cases hj : j = i
    · have hlast : (some (call, τ.time) : Option (Call × ℕ)) = some entry := by
        rw [← hentry, hj]
        exact (Function.update_self i _ τ.last).symm
      rw [← Option.some.inj hlast]
      exact Nat.le_succ _
    · have hlast : τ.last j = some entry := by
        rw [← hentry]
        exact (Function.update_of_ne hj _ τ.last).symm
      exact (h.last_le j entry hlast).trans (Nat.le_succ _)
  | finish i reply =>
    refine ⟨fun j entry hentry ↦ (h.last_le j entry hentry).trans (Nat.le_succ _), fun c hc ↦ ?_,
      fun c hc ↦ ?_⟩
    · rcases List.mem_append.mp hc with hc | hc
      · exact (h.entered_le c hc).trans (Nat.le_succ _)
      · obtain ⟨entry, hentry, rfl⟩ := List.mem_map.mp hc
        exact (h.last_le i entry (Option.mem_toList.mp hentry)).trans (Nat.le_succ _)
    · rcases List.mem_append.mp hc with hc | hc
      · exact (h.returned_le c hc).trans (Nat.le_succ _)
      · obtain ⟨entry, -, rfl⟩ := List.mem_map.mp hc
        exact Nat.le_succ _

/-- A call that returns joins the history. -/
theorem calls_see_finish {τ : Timeline ι Call Reply} {i : ι} {call : Call} {entered : ℕ}
    (hlast : τ.last i = some (call, entered)) (reply : Reply) :
    (τ.see (.finish i reply)).calls = τ.calls ++ [⟨call, reply, entered, τ.time⟩] := by
  simp only [see, hlast]
  rfl

end Timeline

namespace ThreadSystem

variable {ι Shared Local Call Reply : Type} [DecidableEq ι] (T : ThreadSystem Shared Local Call)
  (replyOf : Local → Option Reply)

/-- What is seen of the step of a thread: its reply, if its call returns. -/
def seeStep (τ : Timeline ι Call Reply) (i : ι) (l : Local) : Timeline ι Call Reply :=
  match replyOf l with
  | none => τ
  | some reply => τ.see (.finish i reply)

/-- The mark of an event. -/
def visible (c : Config ι Shared Local) : Event ι Call → List (Visible ι Call Reply)
  | .enter i call => [.enter i call]
  | .advance i => (replyOf (T.advance c.shared (c.threads i)).2).toList.map (.finish i)

/-- What is seen of a schedule. -/
def timeline (c : Config ι Shared Local) (events : List (Event ι Call)) :
    Timeline ι Call Reply :=
  (T.observed (T.visible replyOf) c events).foldl Timeline.see .start

variable {c : Config ι Shared Local}

/-- Assumes: an invariant of the configuration and of what has been seen that every event keeps. It
holds after every schedule. -/
theorem timeline_invariant (Inv : Config ι Shared Local → Timeline ι Call Reply → Prop)
    (henter : ∀ c τ i call, Inv c τ → τ.Timed → T.idle (c.threads i) = true →
      Inv ⟨c.shared, Function.update c.threads i (T.enter call)⟩ (τ.see (.enter i call)))
    (hadvance : ∀ c τ i, Inv c τ → τ.Timed → T.idle (c.threads i) = false →
      Inv ⟨(T.advance c.shared (c.threads i)).1,
        Function.update c.threads i (T.advance c.shared (c.threads i)).2⟩
        (seeStep replyOf τ i (T.advance c.shared (c.threads i)).2))
    (hc : Inv c .start) (events : List (Event ι Call)) :
    Inv (T.run c events) (T.timeline replyOf c events) := by
  have hguarded : T.Guarded (fun _ _ ↦ True) c events := guarded_of_forall fun _ _ _ ↦ trivial
  have hrun := run_invariant (T.visible replyOf)
    (fun c marks ↦ Inv c (marks.foldl Timeline.see .start) ∧
      (marks.foldl Timeline.see (.start : Timeline ι Call Reply)).Timed) []
    (fun c marks i call h hidle _ ↦ ?_) (fun c marks i h hbusy _ ↦ ?_)
    ⟨hc, Timeline.timed_start⟩ hguarded
  · exact hrun.1
  · rw [List.foldl_append]
    exact ⟨henter c _ i call h.1 h.2 hidle, h.2.see (.enter i call)⟩
  · have hstep := hadvance c _ i h.1 h.2 hbusy
    rw [List.foldl_append]
    cases hreply : replyOf (T.advance c.shared (c.threads i)).2 with
    | none =>
      rw [seeStep, hreply] at hstep
      rw [visible, hreply]
      exact ⟨hstep, h.2⟩
    | some reply =>
      rw [seeStep, hreply] at hstep
      rw [visible, hreply]
      exact ⟨hstep, h.2.see (.finish i reply)⟩

end ThreadSystem

/-! ### Orders that a sequential object explains -/

section Explains

variable {σ Call Reply : Type} {step : σ → Call → Reply × σ} {s s' s'' : σ}
  {calls before after : List (Completed Call Reply)} {c : Completed Call Reply}

/-- Made one after another, the calls have these replies and lead from one state to another. -/
def Explains (step : σ → Call → Reply × σ) : σ → List (Completed Call Reply) → σ → Prop
  | s, [], s' => s = s'
  | s, c :: calls, s' => (step s c.call).1 = c.reply ∧ Explains step (step s c.call).2 calls s'

theorem explains_append :
    Explains step s (before ++ after) s'' ↔
      ∃ s', Explains step s before s' ∧ Explains step s' after s'' := by
  induction before generalizing s with
  | nil =>
    constructor
    · intro h
      exact ⟨s, rfl, h⟩
    · rintro ⟨s', heq, h⟩
      rw [show s = s' from heq]
      exact h
  | cons first before ih =>
    rw [List.cons_append, Explains, ih]
    constructor
    · rintro ⟨hreply, s', hbefore, hafter⟩
      exact ⟨s', ⟨hreply, hbefore⟩, hafter⟩
    · rintro ⟨s', ⟨hreply, hbefore⟩, hafter⟩
      exact ⟨hreply, s', hbefore, hafter⟩

theorem Explains.append (hbefore : Explains step s before s')
    (hafter : Explains step s' after s'') :
    Explains step s (before ++ after) s'' :=
  explains_append.mpr ⟨s', hbefore, hafter⟩

/-- One more call at the end. -/
theorem Explains.concat (h : Explains step s calls s') (hstep : step s' c.call = (c.reply, s'')) :
    Explains step s (calls ++ [c]) s'' :=
  h.append ⟨congrArg Prod.fst hstep, congrArg Prod.snd hstep⟩

/-- The object leads to one state. -/
theorem Explains.unique (h : Explains step s calls s') (h' : Explains step s calls s'') :
    s' = s'' := by
  induction calls generalizing s with
  | nil => exact Eq.trans (Eq.symm h) h'
  | cons first calls ih => exact ih h.2 h'.2

/-- A call that changes nothing may be put where its reply is right. -/
theorem Explains.insert_unchanged (h : Explains step s (before ++ after) s'')
    (hbefore : Explains step s before s') (hstep : step s' c.call = (c.reply, s')) :
    Explains step s (before ++ c :: after) s'' := by
  obtain ⟨middle, hmiddle, hafter⟩ := explains_append.mp h
  obtain rfl := hmiddle.unique hbefore
  refine hbefore.append ⟨congrArg Prod.fst hstep, ?_⟩
  rw [hstep]
  exact hafter

end Explains

/-! ### Linearizability -/

section Linearizes

variable {σ Call Reply : Type} {step : σ → Call → Reply × σ} {start final final' : σ}
  {calls before after order : List (Completed Call Reply)} {c : Completed Call Reply}

/-- An order of calls that the object explains, and in which no call comes before one that had
returned before it was entered. -/
structure Linearizes (step : σ → Call → Reply × σ) (start : σ)
    (calls order : List (Completed Call Reply)) (final : σ) : Prop where
  perm : order.Perm calls
  realTime : order.Pairwise fun a b ↦ a.entered ≤ b.returned
  explains : Explains step start order final

/-- There is such an order. -/
def Linearizable (step : σ → Call → Reply × σ) (start : σ) (calls : List (Completed Call Reply)) :
    Prop :=
  ∃ order final, Linearizes step start calls order final

theorem linearizes_nil : Linearizes step start [] [] start :=
  ⟨List.Perm.refl [], List.Pairwise.nil, rfl⟩

/-- A call that returns now may be put in front of calls that had not returned when it was
entered. -/
theorem Linearizes.insert (h : Linearizes step start calls (before ++ after) final)
    (hexplains : Explains step start (before ++ c :: after) final')
    (hnow : ∀ a ∈ calls, a.entered ≤ c.returned)
    (hafter : ∀ b ∈ after, c.entered ≤ b.returned) :
    Linearizes step start (calls ++ [c]) (before ++ c :: after) final' := by
  have horder (a : Completed Call Reply) (ha : a ∈ before ++ after) : a.entered ≤ c.returned :=
    hnow a (h.perm.subset ha)
  obtain ⟨hbefore, hrest, hacross⟩ := List.pairwise_append.mp h.realTime
  refine ⟨?_, ?_, hexplains⟩
  · exact (List.perm_middle.trans (h.perm.cons c)).trans (List.perm_append_singleton c calls).symm
  · refine List.pairwise_append.mpr ⟨hbefore, List.pairwise_cons.mpr ⟨hafter, hrest⟩, ?_⟩
    intro a ha b hb
    rcases List.mem_cons.mp hb with rfl | hb
    · exact horder a (List.mem_append_left _ ha)
    · exact hacross a ha b hb

/-- A call that returns now may be put at the end. -/
theorem Linearizes.append (h : Linearizes step start calls order final)
    (hstep : step final c.call = (c.reply, final')) (hnow : ∀ a ∈ calls, a.entered ≤ c.returned) :
    Linearizes step start (calls ++ [c]) (order ++ [c]) final' := by
  have hend : Linearizes step start calls (order ++ []) final := by rwa [List.append_nil]
  exact hend.insert (h.explains.concat hstep) hnow fun _ hb ↦ absurd hb List.not_mem_nil

/-! ### Places for reads that run -/

/-- A place for a call that changes nothing: there it has its reply, and the calls behind it had not
returned when it was entered. -/
def Place (step : σ → Call → Reply × σ) (start : σ) (order : List (Completed Call Reply))
    (call : Call) (reply : Reply) (entered : ℕ) : Prop :=
  ∃ before after middle, order = before ++ after ∧ Explains step start before middle ∧
    step middle call = (reply, middle) ∧ ∀ b ∈ after, entered ≤ b.returned

variable {call : Call} {reply : Reply} {entered : ℕ}

/-- The end is a place for a call that starts now. -/
theorem place_end (h : Explains step start order final) (hstep : step final call = (reply, final)) :
    Place step start order call reply entered :=
  ⟨order, [], final, (List.append_nil order).symm, h, hstep,
    fun _ hb ↦ absurd hb List.not_mem_nil⟩

/-- Another call is put at the end. -/
theorem Place.append (h : Place step start order call reply entered)
    (hnow : entered ≤ c.returned) : Place step start (order ++ [c]) call reply entered := by
  obtain ⟨before, after, middle, rfl, hbefore, hstep, hafter⟩ := h
  refine ⟨before, after ++ [c], middle, List.append_assoc .., hbefore, hstep, fun b hb ↦ ?_⟩
  rcases List.mem_append.mp hb with hb | hb
  · exact hafter b hb
  · rw [List.mem_singleton.mp hb]
    exact hnow

/-- Another call that changes nothing is put anywhere. -/
theorem Place.insert_unchanged {middle : σ}
    (h : Place step start (before ++ after) call reply entered)
    (hbefore : Explains step start before middle) (hstep : step middle c.call = (c.reply, middle))
    (hnow : entered ≤ c.returned) :
    Place step start (before ++ c :: after) call reply entered := by
  obtain ⟨front, back, middle', horder, hfront, hcall, hback⟩ := h
  rcases List.append_eq_append_iff.mp horder with ⟨gap, rfl, rfl⟩ | ⟨gap, rfl, rfl⟩
  · -- the place lies behind the new call
    refine ⟨before ++ c :: gap, back, middle', by simp, ?_, hcall, hback⟩
    exact hfront.insert_unchanged hbefore hstep
  · -- the new call lies behind the place
    refine ⟨front, gap ++ c :: after, middle', by simp, hfront, hcall, fun b hb ↦ ?_⟩
    rcases List.mem_append.mp hb with hb | hb
    · exact hback b (List.mem_append_left _ hb)
    · rcases List.mem_cons.mp hb with rfl | hb
      · exact hnow
      · exact hback b (List.mem_append_right _ hb)

/-- The call returns, and takes its place. -/
theorem Linearizes.insert_place (h : Linearizes step start calls order final)
    (hplace : Place step start order c.call c.reply c.entered)
    (hnow : ∀ a ∈ calls, a.entered ≤ c.returned) :
    ∃ before after middle, order = before ++ after ∧ Explains step start before middle ∧
      step middle c.call = (c.reply, middle) ∧
      Linearizes step start (calls ++ [c]) (before ++ c :: after) final := by
  obtain ⟨before, after, middle, rfl, hbefore, hstep, hafter⟩ := hplace
  exact ⟨before, after, middle, rfl, hbefore, hstep,
    h.insert (h.explains.insert_unchanged hbefore hstep) hnow hafter⟩

end Linearizes

end FluxCache.Foundation
