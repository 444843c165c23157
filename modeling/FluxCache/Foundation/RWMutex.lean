import FluxCache.Foundation.Runtime

/-!
# Reader-writer mutexes

A reader-writer mutex is its number of readers and whether it has a writer. A call that needs a lock
which is not available waits for it, and if nothing else runs it waits for ever; a call that
releases a lock which is not held stops the program (`LockFault`).

A value guarded by a mutex is changed under the lock of the writer (`Locked.exclusive`) and looked
at under the lock of a reader (`Locked.shared`). Where no writer holds the mutex, the first goes
through exactly if there is no reader (`exclusive_eq`) and the second always does (`shared_eq`). For
a family of such values, `leaky` says what each of them is and how many readers it has, and a loop
of exclusive sections on one of them goes through if it makes no turn or that one has no reader
(`foldlM_exclusive`).
-/

set_option autoImplicit false
set_option relaxedAutoImplicit false

namespace FluxCache.Foundation

/-- The ways a call can stop at a mutex. -/
inductive LockFault
  | blocked
  | notHeld
  deriving DecidableEq, Repr

/-- A reader-writer mutex. -/
structure RWMutex where
  readers : ℕ
  writer : Bool
  deriving DecidableEq

namespace RWMutex

/-- `RLock`. -/
def rlock (mu : RWMutex) : Except LockFault RWMutex :=
  if mu.writer then .error .blocked else .ok { mu with readers := mu.readers + 1 }

/-- `RUnlock`. -/
def runlock (mu : RWMutex) : Except LockFault RWMutex :=
  if mu.readers = 0 then .error .notHeld else .ok { mu with readers := mu.readers - 1 }

/-- `Lock`. -/
def lock (mu : RWMutex) : Except LockFault RWMutex :=
  if mu.writer ∨ mu.readers ≠ 0 then .error .blocked else .ok { mu with writer := true }

/-- `Unlock`. -/
def unlock (mu : RWMutex) : Except LockFault RWMutex :=
  if mu.writer then .ok { mu with writer := false } else .error .notHeld

end RWMutex

/-- A value and the mutex that guards it. -/
structure Locked (α : Type*) where
  value : α
  mu : RWMutex

variable {α β ι : Type}

namespace Locked

/-- A step that only takes or releases a lock. -/
def onMutex (step : RWMutex → Except LockFault RWMutex) (r : Locked α) :
    Except LockFault (Locked α) := do
  let mu ← step r.mu
  return { r with mu := mu }

/-- A critical section of the writer. -/
def exclusive (body : α → α) (r : Locked α) : Except LockFault (Locked α) := do
  let mu ← r.mu.lock
  let value := body r.value
  let mu ← mu.unlock
  return ⟨value, mu⟩

/-- A critical section of a reader. -/
def shared (body : α → β) (r : Locked α) : Except LockFault (β × Locked α) := do
  let mu ← r.mu.rlock
  let result := body r.value
  let mu ← mu.runlock
  return (result, { r with mu := mu })

theorem exclusive_eq (body : α → α) (value : α) (readers : ℕ) :
    exclusive body ⟨value, ⟨readers, false⟩⟩ =
      if readers = 0 then .ok ⟨body value, ⟨readers, false⟩⟩ else .error .blocked := by
  by_cases hreaders : readers = 0
  · rw [if_pos hreaders, hreaders]
    rfl
  · rw [if_neg hreaders, exclusive, RWMutex.lock, if_pos (Or.inr hreaders)]
    rfl

theorem shared_eq (body : α → β) (value : α) (readers : ℕ) :
    shared body ⟨value, ⟨readers, false⟩⟩ = .ok (body value, ⟨value, ⟨readers, false⟩⟩) := rfl

theorem onMutex_runlock (value : α) (readers : ℕ) :
    onMutex RWMutex.runlock ⟨value, ⟨readers + 1, false⟩⟩ = .ok ⟨value, ⟨readers, false⟩⟩ := rfl

end Locked

/-! ### Families of guarded values -/

variable [DecidableEq ι]

/-- A step on one member of a family. -/
def onMember (i : ι) (step : Locked α → Except LockFault (Locked α)) (w : ι → Locked α) :
    Except LockFault (ι → Locked α) := do
  let r ← step (w i)
  return Function.update w i r

/-- The family with these values and these numbers of readers, and without writers. -/
def leaky (values : ι → α) (readers : ι → ℕ) : ι → Locked α :=
  fun i ↦ ⟨values i, ⟨readers i, false⟩⟩

section Leaky

variable {values : ι → α} {readers : ι → ℕ} {i : ι}

omit [DecidableEq ι] in
theorem value_leaky (values : ι → α) (readers : ι → ℕ) (i : ι) :
    (leaky values readers i).value = values i := rfl

theorem update_leaky (value : α) (n : ℕ) :
    Function.update (leaky values readers) i ⟨value, ⟨n, false⟩⟩ =
      leaky (Function.update values i value) (Function.update readers i n) := by
  funext j
  by_cases hj : j = i
  · subst hj
    simp only [leaky, Function.update_self]
  · simp only [leaky, Function.update_of_ne hj]

theorem onMember_exclusive (body : α → α) :
    onMember i (Locked.exclusive body) (leaky values readers) =
      if readers i = 0 then .ok (leaky (Function.update values i (body (values i))) readers)
      else .error .blocked := by
  rw [onMember, leaky, Locked.exclusive_eq]
  by_cases hreaders : readers i = 0
  · rw [if_pos hreaders, if_pos hreaders]
    refine congrArg Except.ok ?_
    have hupdate := @update_leaky _ _ _ values readers i (body (values i)) (readers i)
    rwa [Function.update_eq_self] at hupdate
  · rw [if_neg hreaders, if_neg hreaders]
    rfl

theorem onMember_rlock :
    onMember i (Locked.onMutex RWMutex.rlock) (leaky values readers) =
      .ok (leaky values (Function.update readers i (readers i + 1))) := by
  refine congrArg Except.ok ?_
  have hupdate := @update_leaky _ _ _ values readers i (values i) (readers i + 1)
  rwa [Function.update_eq_self] at hupdate

theorem onMember_runlock {n : ℕ} (hreaders : readers i = n + 1) :
    onMember i (Locked.onMutex RWMutex.runlock) (leaky values readers) =
      .ok (leaky values (Function.update readers i n)) := by
  rw [onMember, leaky, hreaders, Locked.onMutex_runlock]
  refine congrArg Except.ok ?_
  have hupdate := @update_leaky _ _ _ values readers i (values i) n
  rwa [Function.update_eq_self] at hupdate

/-- A loop of critical sections of the writer on one member. -/
theorem foldlM_exclusive (body : α → β → α) (entries : List β) :
    entries.foldlM (fun w entry ↦ onMember i (Locked.exclusive (body · entry)) w)
        (leaky values readers) =
      if entries = [] ∨ readers i = 0 then
        .ok (leaky (Function.update values i (entries.foldl body (values i))) readers)
      else .error .blocked := by
  induction entries generalizing values with
  | nil =>
    rw [if_pos (Or.inl rfl), List.foldl_nil, Function.update_eq_self]
    rfl
  | cons entry entries ih =>
    rw [List.foldlM_cons, onMember_exclusive]
    by_cases hreaders : readers i = 0
    · rw [if_pos hreaders, if_pos (Or.inr hreaders)]
      refine ih.trans ?_
      rw [if_pos (Or.inr hreaders), Function.update_self, Function.update_idem]
      rfl
    · rw [if_neg hreaders, if_neg (not_or.mpr ⟨List.cons_ne_nil _ _, hreaders⟩)]
      rfl

end Leaky

end FluxCache.Foundation
